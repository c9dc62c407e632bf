import Libtorrent4j.Lib.Fairness
import Libtorrent4j.Session.Lifecycle

/-!
# When stopping comes to an end

`stop` waits for the alerts loop with the lock in its hands, and the loop may be calling a
listener. **If this listener wants the lock, or is the caller of `stop` itself, both wait for ever**
(`Deadlocked`); nothing else keeps a `stop`, a `start` or a `restart` that has got the lock from
returning. As long as no listener calls them, every thread that has the lock gives it back,
provided only that threads and loops go on when they can.
-/

namespace Libtorrent4j
namespace Session
namespace Lifecycle

open Lib

namespace Frame

/-- The call is about to take the lock. -/
def locks : Frame → Bool
  | .start .lock | .stop .lock | .restart .lock => true
  | _ => false

variable {c : Caller} {answer : Nat} {m m' : Manager} {f : Frame} {frames : List Frame}

/-- A call waits for the lock and for the loop, and for nothing else. -/
theorem next_eq_none (h : f.next c answer m = none) :
    (f.locks = true ∧ m.sync.lock c = none) ∨ ∃ s, f = .stop (.join s) ∧ m.joinable = false := by
  unfold next at h
  split at h
  case h_2 | h_8 | h_13 => exact Or.inl ⟨rfl, Option.map_eq_none_iff.mp h⟩
  case h_3 => split at h <;> cases h
  case h_4 => split at h <;> cases h
  case h_9 => split at h <;> cases h
  case h_10 s =>
    split at h
    · cases h
    · exact Or.inr ⟨s, rfl, Bool.eq_false_of_not_eq_true ‹_›⟩
  all_goals cases h

/-- A method that takes a lock waits while another thread holds it. -/
theorem next_locks (hlocks : f.locks = true) (hlock : m.sync.lock c = none) :
    f.next c answer m = none := by
  unfold locks at hlocks
  split at hlocks <;> first | exact Option.map_eq_none_iff.mpr hlock | cases hlocks

/-- `join` waits for the thread to have ended. -/
theorem next_join {s : SessionId} (h : m.joinable = false) :
    (Frame.stop (.join s)).next c answer m = none :=
  if_neg (by simp [h])

end Frame

/-- The loop itself never waits for anybody. -/
theorem LoopPoint.next_isSome {p : LoopPoint} (h : p.running = true) (session : Option SessionId)
    (answer : Nat) : ∃ p', p.next session answer = some p' := by
  cases p with
  | unborn | ended => cases h
  | dispatch s left => cases left <;> exact ⟨_, rfl⟩
  | post left => cases left <;> exact ⟨_, rfl⟩
  | _ => exact ⟨_, rfl⟩

namespace Manager

variable {m m' : Manager} {c : Caller} {f : Frame} {rest : List Frame} {hold : Hold Caller}
  {s : SessionId}

/-- The thread can go on by itself. -/
def CanAct (m : Manager) (c : Caller) : Prop := ∃ answer m', m.act c answer = some m'

/-- A thread within a call goes on with its innermost frame. -/
theorem act_call (h : m.calls c = f :: rest) (answer : Nat) :
    m.act c answer = (f.next c answer m).map fun r => r.1.setCalls c (r.2 ++ rest) := by
  unfold act
  rw [h]

theorem act_loop {g : Nat} (h : m.calls (.loop g) = []) (answer : Nat) :
    m.act (.loop g) answer = ((m.loops g).next m.session answer).map (m.setLoop g) := by
  unfold act
  rw [h]

theorem act_client {n : Nat} (h : m.calls (.client n) = []) (answer : Nat) :
    m.act (.client n) answer = none := by
  unfold act
  rw [h]

/-- Some answer lets it go on. -/
theorem canAct_call (h : m.calls c = f :: rest) :
    m.CanAct c ↔ ∃ answer, f.next c answer m ≠ none := by
  unfold CanAct
  simp only [act_call h, Option.map_eq_some_iff, Option.ne_none_iff_exists']
  exact ⟨fun ⟨answer, _, r, hnext, _⟩ => ⟨answer, r, hnext⟩,
    fun ⟨answer, r, hnext⟩ => ⟨answer, _, r, hnext, rfl⟩⟩

/-- What is known when the owner of the lock waits for the loop. -/
theorem Invariant.joining (h : Invariant m) (hsync : m.sync = some hold)
    (hcalls : m.calls hold.owner = .stop (.join s) :: rest) :
    Situation m.toShared none (some s) (some s) := by
  have hphase : m.phase = .joining s := by
    simp [phase, hsync, hcalls, phaseOf, Frame.phase]
  have hfits := h.fits
  rw [hphase] at hfits
  exact hfits

/-- The thread that is waited for is the session's own loop. -/
theorem joinable_iff (h : Situation m.toShared none (some s) (some s)) :
    m.joinable = true ↔ m.loops s = .ended := by
  simp [Shared.joinable, h.alertsLoop]

/-! ## Deadlock -/

/-- The owner of the lock waits for the loop, and the loop for the lock, or for a call that is the
    owner's. -/
def Deadlocked (m : Manager) : Prop :=
  ∃ (hold : Hold Caller) (s : SessionId) (rest : List Frame), m.sync = some hold ∧
    m.calls hold.owner = .stop (.join s) :: rest ∧
      (hold.owner = .loop s ∨ ∃ f rest', m.calls (.loop s) = f :: rest' ∧ f.locks = true)

namespace Invariant

/-- The owner is in a call that has taken the lock. -/
theorem owner_calls (h : Invariant m) (hsync : m.sync = some hold) :
    ∃ f rest, m.calls hold.owner = f :: rest := by
  refine List.exists_cons_of_ne_nil fun hnone => ?_
  have hheld : 0 < m.sync.heldBy hold.owner := ReentrantLock.heldBy_pos.mpr ⟨hold, hsync, rfl⟩
  exact absurd (h.not_held hnone rfl) hheld.ne'

/-- The owner may always take its lock again. -/
theorem owner_locks (hsync : m.sync = some hold) : m.sync.lock hold.owner ≠ none := by
  simp [hsync]

/-- What is not the owner's does not hold. -/
theorem not_holds (h : Invariant m) (hsync : m.sync = some hold) (hne : c ≠ hold.owner)
    (hcalls : m.calls c = f :: rest) : f.holds = false := by
  by_contra hholds
  have hheld := h.held hcalls (by simpa using hholds)
  exact hne (ReentrantLock.heldBy_unique hheld (ReentrantLock.heldBy_pos.mpr ⟨hold, hsync, rfl⟩))

/-- The loop that is joined is calling a listener, so it has not ended. -/
theorem not_joinable (h : Invariant m) (hsync : m.sync = some hold)
    (hcalls : m.calls hold.owner = .stop (.join s) :: rest)
    (hcalling : m.calls (.loop s) ≠ []) : m.joinable = false := by
  rw [Bool.eq_false_iff, ne_eq, joinable_iff (h.joining hsync hcalls)]
  intro hended
  have hmay := h.calling s hcalling
  simp [mayCall, hended] at hmay

/-- The loop that is joined goes on unless it is calling a listener. -/
theorem loop_goes_on (h : Invariant m) (hsync : m.sync = some hold)
    (hcalls : m.calls hold.owner = .stop (.join s) :: rest) (hidle : m.calls (.loop s) = [])
    (hjoin : m.joinable = false) : m.CanAct (.loop s) := by
  have hsituation := h.joining hsync hcalls
  have hrunning : (m.loops s).running = true := by
    have hborn := hsituation.born s rfl
    have hended : m.loops s ≠ .ended := fun hended => by
      rw [(joinable_iff hsituation).mpr hended] at hjoin
      cases hjoin
    unfold LoopPoint.running
    split <;> first | rfl | contradiction
  obtain ⟨p, hnext⟩ := LoopPoint.next_isSome hrunning m.session 0
  exact ⟨0, _, by rw [act_loop hidle, hnext]; rfl⟩

/-- Deadlock is all that keeps the owner of the lock and the loop it waits for from going on. -/
theorem deadlocked_iff (h : Invariant m) :
    m.Deadlocked ↔ ∃ hold, m.sync = some hold ∧ ¬ m.CanAct hold.owner ∧
      ∀ s, (m.calls hold.owner).head? = some (.stop (.join s)) → ¬ m.CanAct (.loop s) := by
  constructor
  · rintro ⟨hold, s, rest, hsync, hcalls, hwaits⟩
    have hcalling : m.calls (.loop s) ≠ [] := by
      rcases hwaits with howner | ⟨f, rest', hloop, -⟩
      · rw [← howner, hcalls]
        exact List.cons_ne_nil _ _
      · rw [hloop]
        exact List.cons_ne_nil _ _
    have hblocked : ¬ m.CanAct hold.owner := by
      rw [canAct_call hcalls]
      exact fun ⟨answer, hnext⟩ => hnext (Frame.next_join (h.not_joinable hsync hcalls hcalling))
    refine ⟨hold, hsync, hblocked, fun s' hs' => ?_⟩
    obtain rfl : s = s' := by simpa [hcalls] using hs'
    rcases hwaits with howner | ⟨f, rest', hloop, hlocks⟩
    · exact howner ▸ hblocked
    · rw [canAct_call hloop]
      refine fun ⟨answer, hnext⟩ => hnext (Frame.next_locks hlocks ?_)
      refine ReentrantLock.lock_eq_none.mpr ⟨hold, hsync, fun howner => ?_⟩
      rw [howner, hloop] at hcalls
      cases hcalls
      cases hlocks
  · rintro ⟨hold, hsync, hblocked, hloop⟩
    obtain ⟨f, rest, hcalls⟩ := h.owner_calls hsync
    rw [canAct_call hcalls] at hblocked
    push Not at hblocked
    rcases Frame.next_eq_none (hblocked 0) with ⟨-, hlock⟩ | ⟨s, rfl, hjoin⟩
    · exact absurd hlock (owner_locks hsync)
    · refine ⟨hold, s, rest, hsync, hcalls, ?_⟩
      have hloop := hloop s (by rw [hcalls]; rfl)
      cases hidle : m.calls (.loop s) with
      | nil => exact absurd (h.loop_goes_on hsync hcalls hidle hjoin) hloop
      | cons f' rest' =>
        by_cases howner : hold.owner = .loop s
        · exact Or.inl howner
        · refine Or.inr ⟨f', rest', rfl, ?_⟩
          rw [canAct_call hidle] at hloop
          push Not at hloop
          rcases Frame.next_eq_none (hloop 0) with ⟨hlocks, -⟩ | ⟨s', rfl, -⟩
          · exact hlocks
          · cases h.not_holds hsync (Ne.symm howner) hidle

end Invariant

/-- A step of a thread that does not have the lock while another one has it. -/
theorem Invariant.bystander (h : Invariant m) (hsync : m.sync = some hold) (hne : c ≠ hold.owner)
    {answer : Nat} (hact : m.act c answer = some m') :
    (∃ f rest frames, m.calls c = f :: rest ∧ f.locks = false ∧ m' = m.setCalls c frames) ∨
      ∃ g p, c = .loop g ∧ m.calls (.loop g) = [] ∧ (m.loops g).next m.session answer = some p ∧
        m' = m.setLoop g p := by
  have hlock : m.sync.lock c = none :=
    ReentrantLock.lock_eq_none.mpr ⟨hold, hsync, Ne.symm hne⟩
  cases hcalls : m.calls c with
  | nil =>
    cases c with
    | client n => simp [act_client hcalls] at hact
    | loop g =>
      rw [act_loop hcalls] at hact
      obtain ⟨p, hnext, rfl⟩ := Option.map_eq_some_iff.mp hact
      exact Or.inr ⟨g, p, rfl, hcalls, hnext, rfl⟩
  | cons f rest =>
    rw [act_call hcalls] at hact
    obtain ⟨⟨m₁, frames⟩, hnext, rfl⟩ := Option.map_eq_some_iff.mp hact
    have hlocks : f.locks = false := by
      refine Bool.eq_false_of_not_eq_true fun hlocks => ?_
      rw [Frame.next_locks hlocks hlock] at hnext
      cases hnext
    have hout := h.not_holds hsync hne hcalls
    cases Frame.next_moves hnext with
    | outside _ _ _ => exact Or.inl ⟨f, rest, _, rfl, hlocks, rfl⟩
    | locks _ hlock' _ _ => cases hlock.symm.trans hlock'
    | inside hin _ _ _ _ => cases hout.symm.trans hin
    | unlocks hin _ => cases hout.symm.trans hin

/-- What an interrupt ends is a wait of the owner. -/
theorem Invariant.interrupted_owner (h : Invariant m) (hsync : m.sync = some hold)
    (hstep : m.interrupt c = some m') : c = hold.owner := by
  by_contra hne
  unfold interrupt at hstep
  split at hstep
  · cases h.not_holds hsync hne ‹_›
  · cases h.not_holds hsync hne ‹_›
  · cases hstep

namespace Deadlocked

/-- Calls of others than the two do not matter. -/
theorem setCalls (hdead : m.Deadlocked) (hsync : m.sync = some hold) (hne : c ≠ hold.owner)
    (hlocks : ∀ f rest, m.calls c = f :: rest → f.locks = false) (frames : List Frame) :
    (m.setCalls c frames).Deadlocked := by
  obtain ⟨hold', s, rest, hsync', hcalls, hwaits⟩ := hdead
  cases hsync.symm.trans hsync'
  refine ⟨hold, s, rest, hsync, (setCalls_of_ne (Ne.symm hne)).trans hcalls, ?_⟩
  rcases hwaits with howner | ⟨f, rest', hloop, hf⟩
  · exact Or.inl howner
  · refine Or.inr ⟨f, rest', ?_, hf⟩
    rw [setCalls_of_ne, hloop]
    rintro rfl
    cases (hlocks f rest' hloop).symm.trans hf

/-- **A deadlock stays** whatever is done, unless its owner is interrupted. -/
theorem step (hdead : m.Deadlocked) (h : Invariant m) (hsync : m.sync = some hold) {e : Event}
    (hstep : m.step e = some m') (hno : e ≠ .interrupt hold.owner) :
    m'.Deadlocked ∧ m'.sync = m.sync ∧ m'.deleted = m.deleted := by
  obtain ⟨hold', hsync', hblocked, -⟩ := h.deadlocked_iff.mp hdead
  cases hsync.symm.trans hsync'
  cases e with
  | call c method =>
    obtain ⟨hnone, -, rfl⟩ := step_call hstep
    refine ⟨hdead.setCalls hsync ?_ (fun f rest hcalls => ?_) _, rfl, rfl⟩
    · rintro rfl
      obtain ⟨f, rest, hcalls⟩ := h.owner_calls hsync
      cases hnone.symm.trans hcalls
    · cases hnone.symm.trans hcalls
  | interrupt c => exact absurd (congrArg Event.interrupt (h.interrupted_owner hsync hstep)) hno
  | act c answer =>
    by_cases hne : c = hold.owner
    · exact absurd ⟨answer, m', hne ▸ hstep⟩ hblocked
    · rcases h.bystander hsync hne hstep with
        ⟨f, rest, frames, hcalls, hlocks, rfl⟩ | ⟨g, p, rfl, -, -, rfl⟩
      · refine ⟨hdead.setCalls hsync hne (fun f' rest' hcalls' => ?_) _, rfl, rfl⟩
        cases hcalls.symm.trans hcalls'
        exact hlocks
      · exact ⟨hdead, rfl, rfl⟩

/-- Induction on the steps: the owner and the loop go on waiting for each other until somebody
    interrupts the owner. -/
theorem run (hdead : m.Deadlocked) (h : Invariant m) (hsync : m.sync = some hold)
    {events : List Event} (hrun : m.run events = some m')
    (hno : .interrupt hold.owner ∉ events) :
    m'.Deadlocked ∧ m'.sync = m.sync ∧ m'.deleted = m.deleted := by
  induction events generalizing m with
  | nil =>
    cases hrun
    exact ⟨hdead, rfl, rfl⟩
  | cons e rest ih =>
    obtain ⟨m₁, hstep, hrest⟩ := Option.bind_eq_some_iff.mp hrun
    obtain ⟨hne, hno⟩ := List.ne_and_not_mem_of_not_mem_cons hno
    obtain ⟨hdead₁, hsync₁, hdeleted₁⟩ := hdead.step h hsync hstep (Ne.symm hne)
    obtain ⟨hdead', hsync', hdeleted'⟩ := ih hdead₁ (h.step hstep) (hsync₁.trans hsync) hrest hno
    exact ⟨hdead', hsync'.trans hsync₁, hdeleted'.trans hdeleted₁⟩

end Deadlocked

/-- **Deadlock, exactly.** In every state the threads can bring about, the owner of the lock and
    the loop it may be waiting for are both stuck just when that loop is calling a listener that
    wants the lock or is the owner's caller; and from then on, unless the owner is interrupted, it
    keeps the lock and no session is freed. -/
theorem deadlock_exactly {events : List Event} (hrun : Manager.run {} events = some m) :
    (m.Deadlocked ↔ ∃ hold, m.sync = some hold ∧ ¬ m.CanAct hold.owner ∧
      ∀ s, (m.calls hold.owner).head? = some (.stop (.join s)) → ¬ m.CanAct (.loop s)) ∧
    ∀ hold, m.sync = some hold → m.Deadlocked → ∀ later m', m.run later = some m' →
      .interrupt hold.owner ∉ later →
        m'.Deadlocked ∧ m'.sync = some hold ∧ m'.deleted = m.deleted := by
  have h := Invariant.initial.run hrun
  refine ⟨h.deadlocked_iff, fun hold hsync hdead later m' hlater hno => ?_⟩
  obtain ⟨hdead', hsync', hdeleted⟩ := hdead.run h hsync hlater hno
  exact ⟨hdead', hsync'.trans hsync, hdeleted⟩

namespace Listening

/-- A listener stops the session that calls it. -/
def events : List Event :=
  .call (.client 0) .start :: List.replicate 6 (.act (.client 0) 1) ++
    List.replicate 6 (.act (.loop 0) 1) ++
    .call (.loop 0) .stop :: List.replicate 3 (.act (.loop 0) 0)

theorem isSome_run : (Manager.run {} events).isSome = true := by decide +kernel

def manager : Manager := (Manager.run {} events).get isSome_run

/-- Then another client asks for the state it will never get. -/
def restarting : List Event := [.call (.client 1) .restart]

theorem isSome_restarting : (manager.run restarting).isSome = true := by decide +kernel

theorem deadlock_exactly_listening :
    let later := (manager.run restarting).get isSome_restarting
    later.Deadlocked ∧ later.deleted = [] ∧ later.calls (.client 1) = [.restart .lock] := by
  intro later
  have hrun : Manager.run {} events = some manager := (Option.some_get isSome_run).symm
  have hlater : manager.run restarting = some later := (Option.some_get isSome_restarting).symm
  have hheld : 0 < manager.sync.heldBy (.loop 0) := by decide +kernel
  have hcalls : manager.calls (.loop 0) = [.stop (.join 0)] := by decide +kernel
  obtain ⟨hold, hsync, howner⟩ := ReentrantLock.heldBy_pos.mp hheld
  have hdead : manager.Deadlocked := ⟨hold, 0, [], hsync, howner ▸ hcalls, Or.inl howner⟩
  obtain ⟨hdead', -, hdeleted⟩ :=
    (deadlock_exactly hrun).2 hold hsync hdead _ _ hlater (by rw [howner]; decide)
  exact ⟨hdead', hdeleted.trans (by decide +kernel), by decide +kernel⟩

end Listening

end Manager

/-! ## Giving the lock back -/

/-- At most so many steps a call has before it returns, with those of the calls it makes. -/
def Frame.toGo : Frame → Nat
  | .start .check | .stop .check => 6
  | .start .lock | .stop .lock => 5
  | .start .recheck | .stop .recheck => 4
  | .start .create | .stop (.join _) => 3
  | .start (.spawn _) | .stop (.delete _) => 2
  | .start .unlock | .stop .unlock | .restart .unlock => 1
  | .restart .sleep => 8
  | .restart .state => 15
  | .restart .lock => 16

/-- How far a loop is from its end when `session` is null; the second number is that of the alerts
    that are to be delivered first. -/
def LoopPoint.toGo : LoopPoint → Nat ×ₗ Nat
  | unborn | ended => toLex (0, 0)
  | check | wait | recheck _ | pop | postCall _ => toLex (1, 0)
  | waiting _ => toLex (2, 0)
  | post left => toLex (left + 2, 0)
  | posting _ left => toLex (left + 3, 0)
  | timer => toLex (5, 0)
  | dispatch _ left => toLex (6, left)
  | popping _ => toLex (7, 0)

def toGo (frames : List Frame) : Nat := (frames.map Frame.toGo).sum

/-- Every step of a call leaves less of it to do. -/
theorem Frame.next_toGo {c : Caller} {answer : Nat} {m m' : Manager} {f : Frame}
    {frames : List Frame} (h : f.next c answer m = some (m', frames)) :
    Lifecycle.toGo frames < f.toGo := by
  unfold next at h
  split at h
  case h_2 | h_8 | h_13 =>
    obtain ⟨sync, -, heq⟩ := Option.map_eq_some_iff.mp h
    cases heq
    decide
  case h_1 | h_7 | h_14 =>
    cases h
    split <;> decide
  case h_3 | h_4 =>
    split at h <;> cases h <;> simp [Lifecycle.toGo, Frame.toGo]
  case h_9 =>
    split at h <;> cases h <;> simp [Lifecycle.toGo, Frame.toGo]
  case h_10 =>
    split at h
    · cases h
      simp [Lifecycle.toGo, Frame.toGo]
    · cases h
  all_goals
    cases h
    simp [Lifecycle.toGo, Frame.toGo]

/-- The loop, too, comes nearer to its end when there is no session any more. -/
theorem LoopPoint.next_toGo {answer : Nat} {p p' : LoopPoint} (h : p.next none answer = some p') :
    p'.toGo < p.toGo := by
  cases p with
  | unborn | ended => cases h
  | dispatch s left =>
    cases left <;> cases h <;> simp [toGo, Prod.Lex.toLex_lt_toLex]
  | post left => cases left <;> cases h <;> simp [toGo, Prod.Lex.toLex_lt_toLex]
  | timer =>
    cases h
    by_cases hdue : 0 < answer <;> simp [toGo, hdue, Prod.Lex.toLex_lt_toLex]
  | _ =>
    cases h
    simp [toGo, Prod.Lex.toLex_lt_toLex]

namespace Manager

variable {m m' : Manager} {c : Caller} {f : Frame} {frames rest : List Frame} {hold : Hold Caller}

/-- The thread waits for the end of an alerts loop. -/
def atJoin : List Frame → Bool
  | .stop (.join _) :: _ => true
  | _ => false

/-- The loop that has to end before the owner of the lock can go on. -/
def joined (m : Manager) : Option Nat :=
  m.sync.bind fun hold =>
    if atJoin (m.calls hold.owner) && !m.joinable then m.alertsLoop else none

/-- Whose turn it is. -/
def helper (m : Manager) : Caller :=
  (m.joined.map Caller.loop).getD ((m.sync.map Hold.owner).getD (.client 0))

/-- The owner's steps, and for each of them those of the loop it waits for. -/
def rank (m : Manager) : Nat ×ₗ (Nat ×ₗ Nat) :=
  toLex ((m.sync.map fun hold => toGo (m.calls hold.owner)).getD 0,
    (m.joined.map fun g => (m.loops g).toGo).getD (toLex (0, 0)))

/-- The loop that the owner of the lock is waiting for. -/
theorem joined_eq_some {g : Nat} : m.joined = some g ↔ ∃ hold, m.sync = some hold ∧
    atJoin (m.calls hold.owner) = true ∧ m.joinable = false ∧ m.alertsLoop = some g := by
  simp [joined, Option.bind_eq_some_iff, and_assoc]

/-- What others do is nothing to the owner and to the loop it waits for. -/
theorem rank_congr (hsync : m'.sync = m.sync)
    (hcalls : ∀ hold, m.sync = some hold → m'.calls hold.owner = m.calls hold.owner)
    (hjoined : m'.joined = m.joined) (hloops : ∀ g, m.joined = some g → m'.loops g = m.loops g) :
    m'.rank = m.rank ∧ m'.helper = m.helper := by
  unfold rank helper
  rw [hsync, hjoined]
  refine ⟨?_, rfl⟩
  congr 2
  · cases hhold : m.sync with
    | none => rfl
    | some hold => simp [hcalls hold hhold]
  · cases hg : m.joined with
    | none => rfl
    | some g => simp [hloops g hg]

/-- What a thread that does not own the lock does is not counted. -/
theorem rank_setCalls (hne : ∀ hold, m.sync = some hold → c ≠ hold.owner) :
    (m.setCalls c frames).rank = m.rank ∧ (m.setCalls c frames).helper = m.helper := by
  have hcalls : ∀ hold, m.sync = some hold →
      (m.setCalls c frames).calls hold.owner = m.calls hold.owner := fun hold hsync =>
    setCalls_of_ne (Ne.symm (hne hold hsync))
  refine rank_congr rfl hcalls ?_ fun _ _ => rfl
  unfold joined
  rw [setCalls_sync]
  cases hsync : m.sync with
  | none => rfl
  | some hold =>
    simp only [Option.bind_some, hcalls hold hsync]
    rfl

theorem joined_eq_none
    (h : ∀ hold, m.sync = some hold → atJoin (m.calls hold.owner) = false) : m.joined = none := by
  refine Option.eq_none_iff_forall_ne_some.mpr fun g hg => ?_
  obtain ⟨hold, hsync, hat, -⟩ := joined_eq_some.mp hg
  cases (h hold hsync).symm.trans hat

/-- Only the loop that is waited for is counted. -/
theorem joined_setLoop {g : Nat} {p : LoopPoint} (h : m.alertsLoop ≠ some g) :
    (m.setLoop g p).joined = m.joined := by
  have hjoinable : (m.setLoop g p).joinable = m.joinable := by
    unfold Shared.joinable
    change m.alertsLoop.all _ = m.alertsLoop.all _
    cases halerts : m.alertsLoop with
    | none => rfl
    | some g' =>
      have hne : g' ≠ g := fun heq => h (heq ▸ halerts)
      simp [setLoop, hne]
  unfold joined
  rw [hjoinable]
  rfl

/-- A loop goes on: the one the owner waits for comes nearer to its end, another one does not
    matter. -/
theorem rank_setLoop {g answer : Nat} {p : LoopPoint}
    (hnull : ∀ g, m.joined = some g → m.session = none)
    (hnext : (m.loops g).next m.session answer = some p) :
    (m.setLoop g p).rank < m.rank ∨ (m.joined ≠ some g ∧ (m.setLoop g p).rank = m.rank ∧
      (m.setLoop g p).helper = m.helper) := by
  have hnotEnded : m.loops g ≠ .ended := by
    intro hended
    rw [hended] at hnext
    cases hnext
  by_cases hg : m.joined = some g
  · refine Or.inl ?_
    rw [hnull g hg] at hnext
    obtain ⟨hold, hsync, hat, hjoin, halerts⟩ := joined_eq_some.mp hg
    have hless := LoopPoint.next_toGo hnext
    refine Prod.Lex.toLex_lt_toLex.mpr (Or.inr ⟨rfl, ?_⟩)
    rw [hg, Option.map_some, Option.getD_some]
    -- the loop is waited for as before, or has ended
    by_cases hended : p = .ended
    · have hnone : (m.setLoop g p).joined = none := by
        refine Option.eq_none_iff_forall_ne_some.mpr fun g' hg' => ?_
        obtain ⟨-, -, -, hjoin', -⟩ := joined_eq_some.mp hg'
        have : m.alertsLoop = some g := halerts
        simp [Shared.joinable, setLoop, this, hended] at hjoin'
      rw [hnone]
      rwa [hended] at hless
    · have hsome : (m.setLoop g p).joined = some g := by
        refine joined_eq_some.mpr ⟨hold, hsync, hat, ?_, halerts⟩
        simp [Shared.joinable, setLoop, halerts, hended]
      rw [hsome]
      simpa [setLoop] using hless
  · refine Or.inr ⟨hg, rank_congr rfl (fun _ _ => rfl) ?_ fun g' hg' => ?_⟩
    · by_cases halerts : m.alertsLoop = some g
      · -- the loop could be waited for, but the owner is at another point
        have hat : ∀ hold, m.sync = some hold → atJoin (m.calls hold.owner) = false := by
          intro hold hsync
          refine Bool.eq_false_of_not_eq_true fun hat => ?_
          refine hg (joined_eq_some.mpr ⟨hold, hsync, hat, ?_, halerts⟩)
          simp [Shared.joinable, halerts, hnotEnded]
        rw [joined_eq_none hat, joined_eq_none (m := m.setLoop g p) hat]
      · exact joined_setLoop halerts
    · refine Function.update_of_ne ?_ _ _
      rintro rfl
      exact hg hg'

/-- The owner of the lock goes on: it gives the lock back or comes nearer to that. -/
theorem rank_moves (hsync : m.sync = some hold)
    (hcalls : m.calls hold.owner = f :: rest) (hmove : f.Moves hold.owner m m' frames)
    (hless : toGo frames < f.toGo) :
    (m'.setCalls hold.owner (frames ++ rest)).sync = none ∨
      (m'.setCalls hold.owner (frames ++ rest)).rank < m.rank := by
  have howner : m'.sync = none ∨ ∃ hold', m'.sync = some hold' ∧ hold'.owner = hold.owner := by
    cases hmove with
    | outside _ _ _ => exact Or.inr ⟨hold, hsync, rfl⟩
    | locks _ hlock _ _ => exact Or.inr (ReentrantLock.owner_of_lock hlock)
    | inside _ _ _ _ _ => exact Or.inr ⟨hold, hsync, rfl⟩
    | unlocks _ _ =>
      cases hunlock : m.sync.unlock with
      | none => exact Or.inl rfl
      | some hold' =>
        obtain ⟨before, hbefore, howner⟩ := ReentrantLock.owner_of_unlock hunlock
        cases hsync.symm.trans hbefore
        exact Or.inr ⟨hold', rfl, howner.symm⟩
  refine howner.imp id fun ⟨hold', hsync', howner⟩ => ?_
  refine Prod.Lex.toLex_lt_toLex.mpr (Or.inl ?_)
  rw [setCalls_sync, hsync', hsync]
  simp only [Option.map_some, Option.getD_some, howner, setCalls_self, hcalls]
  simp only [toGo, List.map_append, List.sum_append, List.map_cons, List.sum_cons] at hless ⊢
  exact Nat.add_lt_add_right hless _

/-- The steps when only clients call. Nobody's are the calls, the interrupts, and no step at all. -/
def ClientStep : Option Caller → Manager → Manager → Prop
  | some c, m, m' => ∃ answer, m.act c answer = some m'
  | none, m, m' => m' = m ∨ (∃ n method, m.step (.call (.client n) method) = some m') ∨
      ∃ c, m.interrupt c = some m'

/-- No listener is in a call. -/
structure Calm (m : Manager) : Prop where
  invariant : Invariant m
  listeners : ∀ g, m.calls (.loop g) = []

namespace Calm

theorem initial : Calm {} := ⟨.initial, fun _ => rfl⟩

theorem step {who : Option Caller} (h : Calm m) (hstep : ClientStep who m m') : Calm m' := by
  have hclient : ∀ c frames (m₁ : Manager), m.calls c ≠ [] ∨ (∃ n, c = .client n) →
      m₁.calls = m.calls → ∀ g, (m₁.setCalls c frames).calls (.loop g) = [] := by
    intro c frames m₁ hc hsame g
    rw [setCalls_of_ne, hsame, h.listeners g]
    rintro rfl
    rcases hc with hc | ⟨n, hn⟩
    · exact hc (h.listeners g)
    · cases hn
  cases who with
  | some c =>
    obtain ⟨answer, hact⟩ := hstep
    refine ⟨h.invariant.act hact, ?_⟩
    unfold act at hact
    split at hact
    · rename_i f rest hcalls
      obtain ⟨⟨m₁, frames⟩, hnext, rfl⟩ := Option.map_eq_some_iff.mp hact
      refine hclient _ _ m₁ (Or.inl (by simp [hcalls])) ?_
      cases Frame.next_moves hnext <;> rfl
    · obtain ⟨p, -, rfl⟩ := Option.map_eq_some_iff.mp hact
      exact h.listeners
    · cases hact
  | none =>
    rcases hstep with rfl | ⟨n, method, hcall⟩ | ⟨c, hinterrupt⟩
    · exact h
    · refine ⟨h.invariant.step hcall, ?_⟩
      obtain ⟨-, -, rfl⟩ := step_call hcall
      exact hclient _ _ m (Or.inr ⟨n, rfl⟩) rfl
    · refine ⟨h.invariant.interrupts hinterrupt, ?_⟩
      obtain ⟨f, rest, m₁, f', hcalls, hmove, -, rfl⟩ := interrupt_moves hinterrupt
      refine hclient c _ m₁ (Or.inl (by simp [hcalls])) ?_
      cases hmove <;> rfl

/-- The loop the owner waits for finds `session` null. -/
theorem null (h : Calm m) {g : Nat} (hg : m.joined = some g) :
    m.session = none ∧ ∃ hold s rest, m.sync = some hold ∧
      m.calls hold.owner = .stop (.join s) :: rest ∧ s = g := by
  obtain ⟨hold, hsync, hat, -, halerts⟩ := joined_eq_some.mp hg
  unfold atJoin at hat
  split at hat
  · rename_i s rest hcalls
    have hsituation := h.invariant.joining hsync hcalls
    exact ⟨hsituation.session, hold, s, rest, hsync, hcalls,
      Option.some.inj (hsituation.alertsLoop.symm.trans halerts)⟩
  · cases hat

/-- Whose turn it is can go on. -/
theorem enabled (h : Calm m) (hsync : m.sync ≠ none) : m.CanAct m.helper := by
  obtain ⟨hold, hsync⟩ := Option.ne_none_iff_exists'.mp hsync
  cases hjoined : m.joined with
  | some g =>
    obtain ⟨-, hold', s, rest, hsync', hcalls, rfl⟩ := h.null hjoined
    obtain ⟨-, -, -, hjoin, -⟩ := joined_eq_some.mp hjoined
    have hhelper : m.helper = .loop s := by simp [helper, hjoined]
    exact hhelper ▸ h.invariant.loop_goes_on hsync' hcalls (h.listeners s) hjoin
  | none =>
    have hhelper : m.helper = hold.owner := by simp [helper, hjoined, hsync]
    obtain ⟨f, rest, hcalls⟩ := h.invariant.owner_calls hsync
    rw [hhelper, canAct_call hcalls]
    refine ⟨0, fun hnext => ?_⟩
    rcases Frame.next_eq_none hnext with ⟨-, hlock⟩ | ⟨s, rfl, hjoin⟩
    · exact Invariant.owner_locks hsync hlock
    · have hsituation := h.invariant.joining hsync hcalls
      have hsome : m.joined = some s :=
        joined_eq_some.mpr ⟨hold, hsync, by simp [hcalls, atJoin], hjoin, hsituation.alertsLoop⟩
      cases hjoined.symm.trans hsome

/-- **One step** brings the lock nearer to being free, or is not that of whose turn it is. -/
theorem nearer {who : Option Caller} (h : Calm m) (hsync : m.sync ≠ none)
    (hstep : ClientStep who m m') : m'.sync = none ∨ m'.rank < m.rank ∨
      (who ≠ some m.helper ∧ m'.rank = m.rank ∧ m'.helper = m.helper) := by
  obtain ⟨hold, hsync⟩ := Option.ne_none_iff_exists'.mp hsync
  have hinv := h.invariant
  cases who with
  | some c =>
    obtain ⟨answer, hact⟩ := hstep
    by_cases hne : c = hold.owner
    · subst hne
      obtain ⟨f, rest, hcalls⟩ := hinv.owner_calls hsync
      rw [act_call hcalls] at hact
      obtain ⟨⟨m₁, frames⟩, hnext, rfl⟩ := Option.map_eq_some_iff.mp hact
      exact (rank_moves hsync hcalls (Frame.next_moves hnext) (Frame.next_toGo hnext)).imp id
        Or.inl
    · rcases hinv.bystander hsync hne hact with
        ⟨f, rest, frames, hcalls, -, rfl⟩ | ⟨g, p, rfl, -, hnext, rfl⟩
      · -- the caller is a client, who is nobody's helper but the owner
        refine Or.inr (Or.inr ⟨fun hwho => ?_, rank_setCalls fun hold' hsync' => ?_⟩)
        · have hwho := Option.some.inj hwho
          cases hjoined : m.joined with
          | none => exact hne (by simpa [helper, hjoined, hsync] using hwho)
          | some g =>
            have hwho : c = .loop g := by simpa [helper, hjoined] using hwho
            rw [hwho, h.listeners g] at hcalls
            cases hcalls
        · cases hsync.symm.trans hsync'
          exact hne
      · refine Or.inr ((rank_setLoop (fun g hg => (h.null hg).1) hnext).imp id ?_)
        refine fun ⟨hnot, hsame⟩ => ⟨fun hwho => ?_, hsame⟩
        have hwho := Option.some.inj hwho
        cases hjoined : m.joined with
        | none => exact hne (by simpa [helper, hjoined, hsync] using hwho)
        | some g' =>
          have hwho : g = g' := by simpa [helper, hjoined] using hwho
          exact hnot (hwho ▸ hjoined)
  | none =>
    rcases hstep with rfl | ⟨n, method, hcall⟩ | ⟨c, hinterrupt⟩
    · exact Or.inr (Or.inr ⟨nofun, rfl, rfl⟩)
    · obtain ⟨hnone, -, rfl⟩ := step_call hcall
      refine Or.inr (Or.inr ⟨nofun, rank_setCalls fun hold' hsync' howner => ?_⟩)
      obtain ⟨f, rest, hcalls⟩ := hinv.owner_calls hsync'
      rw [← howner, hnone] at hcalls
      cases hcalls
    · obtain rfl := hinv.interrupted_owner hsync hinterrupt
      obtain ⟨f, rest, m₁, f', hcalls, hmove, hwhere, rfl⟩ := interrupt_moves hinterrupt
      refine (rank_moves hsync hcalls hmove ?_).imp id Or.inl
      rcases hwhere with ⟨s, rfl, rfl⟩ | ⟨rfl, rfl⟩ <;> simp [toGo, Frame.toGo]

/-- While the lock is held, the helper's steps lower the rank and no other one raises it. -/
theorem nears : Nears ClientStep Calm (fun m => m.sync = none) helper rank where
  enabled _ h hsync :=
    let ⟨answer, m', hact⟩ := h.enabled hsync
    ⟨m', answer, hact⟩
  step _ _ _ h hsync hstep := h.nearer hsync hstep

/-- Who gives the lock back for good has returned. -/
theorem returns {who : Option Caller} (h : Calm m) (hstep : ClientStep who m m')
    (hheld : 0 < m.sync.heldBy c) (hfree : m'.sync.heldBy c = 0) : m'.calls c = [] := by
  obtain ⟨hold, hsync, rfl⟩ := ReentrantLock.heldBy_pos.mp hheld
  have hinv := h.invariant
  have hnone := (h.step hstep).invariant.holds hold.owner
  rw [hfree] at hnone
  obtain ⟨f, rest, hcalls⟩ := hinv.owner_calls hsync
  -- a call that has called another one has the lock
  have hrest : rest.countP Frame.holds = 0 → rest = [] := by
    intro hcount
    refine List.eq_nil_iff_forall_not_mem.mpr fun f' hf' => List.countP_eq_zero.mp hcount f' hf' ?_
    exact (Frame.of_isCaller (hinv.callers hold.owner f' (by rwa [hcalls]))).2
  have hsame : m'.sync ≠ m.sync := by
    intro hsame
    rw [hsame] at hfree
    exact hheld.ne' hfree
  cases who with
  | some c =>
    obtain ⟨answer, hact⟩ := hstep
    by_cases hne : c = hold.owner
    · subst hne
      rw [act_call hcalls] at hact
      obtain ⟨⟨m₁, frames⟩, hnext, rfl⟩ := Option.map_eq_some_iff.mp hact
      rw [setCalls_self, List.countP_append, Nat.add_eq_zero_iff] at hnone
      rw [setCalls_self, hrest hnone.2, List.append_nil]
      cases Frame.next_moves hnext with
      | outside _ _ _ => exact absurd rfl hsame
      | locks _ _ hin _ => simp [hin] at hnone
      | inside _ hone _ _ _ => cases hone.symm.trans hnone.1
      | unlocks _ _ => rfl
    · rcases hinv.bystander hsync hne hact with
        ⟨_, _, _, _, _, rfl⟩ | ⟨_, _, _, _, _, rfl⟩ <;> exact absurd rfl hsame
  | none =>
    rcases hstep with rfl | ⟨n, method, hcall⟩ | ⟨c, hinterrupt⟩
    · exact absurd rfl hsame
    · obtain ⟨-, -, rfl⟩ := step_call hcall
      exact absurd rfl hsame
    · obtain rfl := hinv.interrupted_owner hsync hinterrupt
      obtain ⟨_, _, _, _, -, -, ⟨s, -, rfl⟩ | ⟨-, rfl⟩, rfl⟩ := interrupt_moves hinterrupt <;>
        simp [Frame.holds] at hnone

end Calm

/-- **The lock is given back.** As long as only clients call, and whoever can go on at last does
    so, the lock is free again and again, and every call that has got it returns. -/
theorem lock_given_back (x : Execution ClientStep) (hstart : x.state 0 = {}) (hfair : x.Fair) :
    (∀ i, ∃ j ≥ i, (x.state j).sync = none) ∧
    ∀ i c, 0 < (x.state i).sync.heldBy c → ∃ j ≥ i, (x.state j).calls c = [] := by
  have hcalm : ∀ i, Calm (x.state i) :=
    x.always (hstart ▸ Calm.initial) fun _ _ _ h hstep => h.step hstep
  have hfree := Calm.nears.reaches x hcalm hfair
  refine ⟨hfree, fun i c hheld => ?_⟩
  obtain ⟨j, hij, hsync⟩ := hfree i
  have hkeeps : (∃ k ≥ i, (x.state k).calls c = []) ∨ 0 < (x.state j).sync.heldBy c := by
    clear hsync
    induction j, hij using Nat.le_induction with
    | base => exact Or.inr hheld
    | succ j hij ih =>
      rcases ih with hdone | hheld
      · exact Or.inl hdone
      · rcases Nat.eq_zero_or_pos ((x.state (j + 1)).sync.heldBy c) with hnone | hpos
        · exact Or.inl ⟨j + 1, Nat.le_succ_of_le hij, (hcalm j).returns (x.step j) hheld hnone⟩
        · exact Or.inr hpos
  refine hkeeps.resolve_right ?_
  simp [hsync]

end Manager

/-! ### A run that comes to its end -/

namespace Event

/-- Who makes the step by itself. -/
def who : Event → Option Caller
  | .act c _ => some c
  | .call _ _ | .interrupt _ => none

def caller : Event → Caller
  | .call c _ | .act c _ | .interrupt c => c

/-- It is not the call of a listener. -/
def byClient : Event → Bool
  | .call (.loop _) _ => false
  | _ => true

end Event

namespace Manager

variable {m m' : Manager} {c : Caller}

/-- A step of a run, seen as one of the clients' system. -/
theorem step_clientStep {e : Event} (hclient : e.byClient = true) (hstep : m.step e = some m') :
    ClientStep e.who m m' := by
  cases e with
  | call c method =>
    cases c with
    | client n => exact Or.inr (Or.inl ⟨n, method, hstep⟩)
    | loop g => cases hclient
  | act c answer => exact ⟨answer, hstep⟩
  | interrupt c => exact Or.inr (Or.inr ⟨c, hstep⟩)

/-- A run after which nobody can go on is the beginning of a fair one. -/
theorem exists_fair {events : List Event} (hclients : events.all Event.byClient = true)
    (hrun : m.run events = some m') (hhalt : ∀ c, ¬ m'.CanAct c) :
    ∃ x : Execution ClientStep, x.state 0 = m ∧ x.Fair ∧
      ∀ i ≤ events.length, m.run (events.take i) = some (x.state i) := by
  induction events generalizing m with
  | nil =>
    cases hrun
    refine ⟨.idle _ (Or.inl rfl), rfl, Execution.idle_fair fun c => ?_,
      fun i _ => by simp [run]; rfl⟩
    exact fun ⟨m', answer, hact⟩ => hhalt c ⟨answer, m', hact⟩
  | cons e rest ih =>
    obtain ⟨m₁, hstep, hrest⟩ := Option.bind_eq_some_iff.mp hrun
    rw [List.all_cons, Bool.and_eq_true] at hclients
    obtain ⟨x, rfl, hfair, hstates⟩ := ih hclients.2 hrest
    refine ⟨x.cons e.who m (step_clientStep hclients.1 hstep), rfl, hfair.cons _, fun i hi => ?_⟩
    cases i with
    | zero => rfl
    | succ i =>
      rw [List.take_succ_cons, run, hstep, Option.bind_some]
      exact hstates i (Nat.le_of_succ_le_succ hi)

/-- What a thread does leaves the calls of the others alone. -/
theorem step_calls {e : Event} (hstep : m.step e = some m') (hne : c ≠ e.caller) :
    m'.calls c = m.calls c := by
  cases e with
  | call c' method =>
    obtain ⟨-, -, rfl⟩ := step_call hstep
    exact setCalls_of_ne hne
  | act c' answer =>
    change m.act c' answer = some m' at hstep
    unfold act at hstep
    split at hstep
    · obtain ⟨⟨m₁, frames⟩, hnext, rfl⟩ := Option.map_eq_some_iff.mp hstep
      refine (setCalls_of_ne hne).trans ?_
      cases Frame.next_moves hnext <;> rfl
    · obtain ⟨p, -, rfl⟩ := Option.map_eq_some_iff.mp hstep
      rfl
    · cases hstep
  | interrupt c' =>
    obtain ⟨_, _, _, _, -, hmove, -, rfl⟩ := interrupt_moves hstep
    refine (setCalls_of_ne hne).trans ?_
    cases hmove <;> rfl

theorem run_calls {events : List Event} (hrun : m.run events = some m')
    (hne : ∀ e ∈ events, c ≠ e.caller) : m'.calls c = m.calls c := by
  induction events generalizing m with
  | nil =>
    cases hrun
    rfl
  | cons e rest ih =>
    obtain ⟨m₁, hstep, hrest⟩ := Option.bind_eq_some_iff.mp hrun
    rw [List.forall_mem_cons] at hne
    exact (ih hrest hne.2).trans (step_calls hstep hne.1)

namespace Finished

/-- The client starts the session and stops it before the loop has looked at it. -/
def events : List Event :=
  .call (.client 0) .start :: List.replicate 6 (.act (.client 0) 1) ++
    .call (.client 0) .stop :: List.replicate 3 (.act (.client 0) 0) ++
    .act (.loop 0) 0 :: List.replicate 3 (.act (.client 0) 0)

theorem isSome_run : (Manager.run {} events).isSome = true := by decide +kernel

def manager : Manager := (Manager.run {} events).get isSome_run

theorem run_events : Manager.run {} events = some manager := (Option.some_get isSome_run).symm

theorem halted (c : Caller) : ¬ manager.CanAct c := by
  have hinv := Invariant.initial.run run_events
  have hidle : manager.calls c = [] := by
    by_cases hclient : c = .client 0
    · subst hclient
      decide +kernel
    · by_cases hloop : c = .loop 0
      · subst hloop
        decide +kernel
      · refine run_calls run_events fun e he => ?_
        have hcallers : ∀ e ∈ events, e.caller = .client 0 ∨ e.caller = .loop 0 := by decide
        rcases hcallers e he with heq | heq <;> rwa [heq]
  rintro ⟨answer, m', hact⟩
  cases c with
  | client n =>
    rw [act_client hidle] at hact
    cases hact
  | loop g =>
    rw [act_loop hidle] at hact
    obtain ⟨p, hnext, -⟩ := Option.map_eq_some_iff.mp hact
    obtain ⟨live, runs, h, -, -, hrest⟩ := hinv.situation
    have hruns := h.running (by decide +kernel) g (LoopPoint.next_spec hnext).1
    have hnone : manager.session = none := by decide +kernel
    rw [(hrest (by decide +kernel)).2, hnone] at hruns
    cases hruns

theorem lock_given_back_finished : ∃ x : Execution ClientStep, x.state 0 = {} ∧
    (x.state 11).calls (.client 0) = [.stop (.join 0)] ∧ (x.state 11).loops 0 = .check ∧
    ∃ j ≥ 11, (x.state j).calls (.client 0) = [] := by
  obtain ⟨x, hstart, hfair, hstates⟩ := exists_fair (by decide) run_events halted
  have hjoins := hstates 11 (by decide)
  have hpoint : (Manager.run {} (events.take 11)).map
      (fun m => (m.calls (.client 0), m.loops 0, m.sync.heldBy (.client 0))) =
        some ([.stop (.join 0)], .check, 1) := by decide +kernel
  rw [hjoins, Option.map_some, Option.some_inj] at hpoint
  obtain ⟨hcalls, hloop, hheld⟩ := by simpa only [Prod.mk.injEq] using hpoint
  refine ⟨x, hstart, hcalls, hloop, ?_⟩
  exact (lock_given_back x hstart hfair).2 11 (.client 0) (by rw [hheld]; exact Nat.one_pos)

end Finished

end Manager

end Lifecycle
end Session
end Libtorrent4j
