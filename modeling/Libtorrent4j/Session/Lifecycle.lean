import Mathlib.Tactic
import Libtorrent4j.Lib.ReentrantLock

/-!
# Starting and stopping the session

`start`, `stop` and `restart` may be called by any thread at any time, and a listener may call them
on the thread of the alerts loop. The lock `sync` puts them in order, but **the field `session` is
read without it**: by the first tests of `start` and `stop`, and by the alerts loop, which has
nothing but this field to tell it that it should end. Native sessions are freed by hand, so what
keeps a loop from a freed one is that `stop` joins the loop's thread first.

A thread is a stack of calls, a call the point it is at; what is read and written under the lock
between two points is one step. Native sessions are numbered, and a loop has the number of the
session that is started with it. The hooks (`onBeforeStart` and so on) are left out.
-/

namespace Libtorrent4j
namespace Session
namespace Lifecycle

open Lib

abbrev SessionId := Nat

/-- Who calls: a thread of the client, or a listener, on the thread of an alerts loop. -/
inductive Caller where
  | client (n : Nat)
  | loop (g : Nat)
deriving DecidableEq, Repr

inductive StartPoint where
  | check | lock | recheck
  /-- After `resetState`. -/
  | create
  /-- The session has been created, its alerts loop has not. -/
  | spawn (s : SessionId)
  | unlock
deriving DecidableEq, Repr

inductive StopPoint where
  | check | lock | recheck
  /-- `session` is null now; `s` goes on being the old one. -/
  | join (s : SessionId)
  | delete (s : SessionId)
  | unlock
deriving DecidableEq, Repr

inductive RestartPoint where
  | lock
  /-- `session.session_state()` -/
  | state
  | sleep | unlock
deriving DecidableEq, Repr

/-- A call that has not returned. -/
inductive Frame where
  | start (p : StartPoint)
  | stop (p : StopPoint)
  | restart (p : RestartPoint)
deriving DecidableEq, Repr

inductive Method where
  | start | stop | restart
deriving DecidableEq, Repr

def Method.frame : Method → Frame
  | .start => .start .check
  | .stop => .stop .check
  | .restart => .restart .lock

/-- The point an alerts loop is at. -/
inductive LoopPoint where
  | unborn
  /-- `while (session != null)` -/
  | check
  /-- `session` is read for `wait_for_alert_ms`. -/
  | wait
  | waiting (s : SessionId)
  | recheck (ptr : Bool)
  /-- `session` is read for `pop_alerts`. -/
  | pop
  | popping (s : SessionId)
  /-- The alerts of `s`, with so many of them to be delivered yet. -/
  | dispatch (s : SessionId) (left : Nat)
  | timer
  /-- So many of `postSessionStats` and `postTorrentUpdates` are to be called yet. -/
  | post (left : Nat)
  /-- In one of them `session` is read for the second time. -/
  | postCall (left : Nat)
  | posting (s : SessionId) (left : Nat)
  | ended
deriving DecidableEq, Repr

namespace LoopPoint

/-- The native session a loop is using: it is in a call of it, or has alerts of it at hand. -/
def uses : LoopPoint → Option SessionId
  | waiting s | popping s | dispatch s _ | posting s _ => some s
  | _ => none

def running : LoopPoint → Bool
  | unborn | ended => false
  | _ => true

/-- The next step of a loop. `answer` is what the native session or the clock says: how many
    alerts there are, whether it is time for statistics. A null `session` that is used is an
    exception, which ends the thread. -/
def next (session : Option SessionId) (answer : Nat) : LoopPoint → Option LoopPoint
  | unborn | ended => none
  | check => some (if session.isSome then .wait else .ended)
  | wait => some (session.elim .ended .waiting)
  | waiting _ => some (.recheck (0 < answer))
  | recheck ptr => some (if session.isNone then .ended else if ptr then .pop else .timer)
  | pop => some (session.elim .ended .popping)
  | popping s => some (.dispatch s answer)
  | dispatch s (left + 1) => some (.dispatch s left)
  | dispatch _ 0 => some .timer
  | timer => some (.post (if 0 < answer then 2 else 0))
  | post 0 => some .check
  | post (left + 1) => some (if session.isSome then .postCall left else .post left)
  | postCall left => some (session.elim .ended (.posting · left))
  | posting _ left => some (.post left)

end LoopPoint

/-- What the threads share but for the lock. -/
structure Shared where
  session : Option SessionId := none
  alertsLoop : Option Nat := none
  created : Nat := 0
  deleted : List SessionId := []
  loops : Nat → LoopPoint := fun _ => .unborn
  /-- A thread has been interrupted that joined a loop. -/
  interrupted : Bool := false

structure Manager extends Shared where
  sync : ReentrantLock Caller := none
  calls : Caller → List Frame := fun _ => []

/-- `alertsLoop` is all of `resetState` that matters here. -/
def Shared.resetState (m : Shared) : Shared := { m with alertsLoop := none }

/-- The loop's thread is not there, or has come to its end. -/
def Shared.joinable (m : Shared) : Bool :=
  m.alertsLoop.all fun g => decide (m.loops g = .ended)

/-- The next step of `c`, whose last call is at this point: what becomes of the manager, and of the
    call. Only the native constructor of a session may fail. -/
def Frame.next (c : Caller) (answer : Nat) (m : Manager) : Frame → Option (Manager × List Frame)
  | .start .check => some (m, if m.session.isSome then [] else [.start .lock])
  | .start .lock => (m.sync.lock c).map fun sync => ({ m with sync }, [.start .recheck])
  | .start .recheck =>
      if m.session.isSome then some (m, [.start .unlock])
      else some ({ m with toShared := m.resetState }, [.start .create])
  | .start .create =>
      if answer = 0 then some (m, [.start .unlock])
      else some ({ m with session := some m.created, created := m.created + 1 },
        [.start (.spawn m.created)])
  | .start (.spawn s) =>
      some ({ m with alertsLoop := some s, loops := Function.update m.loops s .check },
        [.start .unlock])
  | .start .unlock => some ({ m with sync := m.sync.unlock }, [])
  | .stop .check => some (m, if m.session.isSome then [.stop .lock] else [])
  | .stop .lock => (m.sync.lock c).map fun sync => ({ m with sync }, [.stop .recheck])
  | .stop .recheck =>
      match m.session with
      | none => some (m, [.stop .unlock])
      | some s => some ({ m with session := none }, [.stop (.join s)])
  | .stop (.join s) =>
      if m.joinable then some ({ m with toShared := m.resetState }, [.stop (.delete s)]) else none
  | .stop (.delete s) => some ({ m with deleted := s :: m.deleted }, [.stop .unlock])
  | .stop .unlock => some ({ m with sync := m.sync.unlock }, [])
  | .restart .lock => (m.sync.lock c).map fun sync => ({ m with sync }, [.restart .state])
  | .restart .state =>
      -- a null `session` is an exception, which `finally` lets pass
      some (m, if m.session.isSome then [.stop .check, .restart .sleep] else [.restart .unlock])
  | .restart .sleep => some (m, [.start .check, .restart .unlock])
  | .restart .unlock => some ({ m with sync := m.sync.unlock }, [])

inductive Event where
  | call (c : Caller) (method : Method)
  | act (c : Caller) (answer : Nat)
  | interrupt (c : Caller)
deriving DecidableEq, Repr

namespace Manager

/-- A client's thread may call at any time, an alerts loop's when it calls a listener. -/
def mayCall (m : Manager) : Caller → Bool
  | .client _ => true
  | .loop g =>
      match m.loops g with
      | .dispatch _ (_ + 1) => true
      | _ => false

def setCalls (m : Manager) (c : Caller) (frames : List Frame) : Manager :=
  { m with calls := Function.update m.calls c frames }

def setLoop (m : Manager) (g : Nat) (p : LoopPoint) : Manager :=
  { m with loops := Function.update m.loops g p }

/-- A step of the thread itself. -/
def act (m : Manager) (c : Caller) (answer : Nat) : Option Manager :=
  match m.calls c, c with
  | f :: rest, _ => (f.next c answer m).map fun r => r.1.setCalls c (r.2 ++ rest)
  | [], .loop g => ((m.loops g).next m.session answer).map (m.setLoop g)
  | [], .client _ => none

/-- `stop` ignores the exception of `join`, and `restart` that of `sleep`. -/
def interrupt (m : Manager) (c : Caller) : Option Manager :=
  match m.calls c with
  | .stop (.join s) :: rest =>
      if m.joinable then none
      else some (setCalls { m with toShared := { m.resetState with interrupted := true } } c
        (.stop (.delete s) :: rest))
  | .restart .sleep :: rest => some (m.setCalls c (.restart .unlock :: rest))
  | _ => none

def step (m : Manager) : Event → Option Manager
  | .call c method =>
      match m.calls c with
      | [] => if m.mayCall c then some (m.setCalls c [method.frame]) else none
      | _ :: _ => none
  | .act c answer => m.act c answer
  | .interrupt c => m.interrupt c

/-- Any order of steps of any threads. -/
def run (m : Manager) : List Event → Option Manager
  | [] => some m
  | e :: rest => (m.step e).bind fun m' => m'.run rest

end Manager

/-! ## What is there -/

/-- `field` is what `session` refers to, `live` the session that has not been deleted, `runs` the
    only loop that may be running. -/
structure Situation (σ : Shared) (field live : Option SessionId) (runs : Option Nat) : Prop where
  session : σ.session = field
  alertsLoop : σ.alertsLoop = runs
  bounded : ∀ s ∈ σ.deleted, s < σ.created
  nodup : σ.deleted.Nodup
  last : ∀ s, live = some s → s + 1 = σ.created
  alive : ∀ s < σ.created, s ∉ σ.deleted ↔ live = some s
  unborn : ∀ g, σ.created ≤ g ∨ (field = some g ∧ runs = none) → σ.loops g = .unborn
  born : ∀ g, runs = some g → σ.loops g ≠ .unborn
  running : σ.interrupted = false → ∀ g, (σ.loops g).running = true → runs = some g
  uses : σ.interrupted = false → ∀ g s, (σ.loops g).uses = some s → s = g

namespace Situation

variable {σ : Shared} {s : SessionId}

theorem initial : Situation {} none none none := by
  constructor <;> simp [LoopPoint.running, LoopPoint.uses]

theorem reads {field live : Option SessionId} {runs : Option Nat}
    (h : Situation σ field live runs) : Situation σ σ.session live runs :=
  h.session.symm ▸ h

/-- The field, the native session and the loop are there together or not at all. -/
theorem rests {live : Option SessionId} (h : Situation σ live live live) :
    Situation σ σ.session σ.session σ.session := by
  have hsession := h.session
  subst hsession
  exact h

theorem resets {field live : Option SessionId} (h : Situation σ field live none) :
    Situation σ.resetState field live none :=
  ⟨h.session, rfl, h.bounded, h.nodup, h.last, h.alive, h.unborn, h.born, h.running, h.uses⟩

theorem creates (h : Situation σ none none none) :
    Situation { σ with session := some σ.created, created := σ.created + 1 } (some σ.created)
      (some σ.created) none where
  session := rfl
  alertsLoop := h.alertsLoop
  bounded s hs := Nat.lt_succ_of_lt (h.bounded s hs)
  nodup := h.nodup
  last s hs := by
    cases hs
    rfl
  alive s hs := by
    rcases Nat.lt_succ_iff_lt_or_eq.mp hs with hbefore | rfl
    · refine iff_of_false (fun hnot => ?_) fun heq => ?_
      · cases (h.alive s hbefore).mp hnot
      · cases heq
        exact Nat.lt_irrefl _ hbefore
    · exact iff_of_true (fun hin => Nat.lt_irrefl _ (h.bounded _ hin)) rfl
  unborn g hg := by
    apply h.unborn g
    rcases hg with hg | ⟨hg, -⟩
    · exact Or.inl (Nat.le_of_succ_le hg)
    · exact Or.inl (Option.some.inj hg).le
  born := h.born
  running := h.running
  uses := h.uses

/-- A loop that has just been started uses nothing. -/
theorem spawns (h : Situation σ (some s) (some s) none) :
    Situation { σ with alertsLoop := some s, loops := Function.update σ.loops s .check } (some s)
      (some s) (some s) where
  session := h.session
  alertsLoop := rfl
  bounded := h.bounded
  nodup := h.nodup
  last := h.last
  alive := h.alive
  unborn g hg := by
    rcases hg with hg | ⟨-, hg⟩
    · have hne : g ≠ s := by
        rintro rfl
        exact Nat.not_succ_le_self g ((h.last g rfl).trans_le hg)
      simpa [Function.update_of_ne hne] using h.unborn g (Or.inl hg)
    · cases hg
  born g hg := by
    cases hg
    simp
  running hi g hg := by
    by_cases hne : g = s
    · rw [hne]
    · simp only [Function.update_of_ne hne] at hg
      cases h.running hi g hg
  uses hi g s' hg := by
    by_cases hne : g = s
    · simp [hne, LoopPoint.uses] at hg
    · simp only [Function.update_of_ne hne] at hg
      exact h.uses hi g s' hg

theorem clears (h : Situation σ (some s) (some s) (some s)) :
    Situation { σ with session := none } none (some s) (some s) :=
  ⟨rfl, h.alertsLoop, h.bounded, h.nodup, h.last, h.alive,
    fun g hg => h.unborn g (hg.imp id fun hnone => by cases hnone.1), h.born, h.running, h.uses⟩

/-- Whoever has joined the loop knows that none runs. -/
theorem joins (h : Situation σ none (some s) (some s)) (hended : σ.joinable = true) :
    Situation σ.resetState none (some s) none where
  session := h.session
  alertsLoop := rfl
  bounded := h.bounded
  nodup := h.nodup
  last := h.last
  alive := h.alive
  unborn g hg := h.unborn g (hg.imp id fun hnone => by cases hnone.1)
  born := nofun
  running hi g hg := by
    obtain rfl : s = g := Option.some.inj (h.running hi g hg)
    have hpoint : σ.loops s = .ended := by
      simpa [Shared.joinable, h.alertsLoop] using hended
    change (σ.loops s).running = true at hg
    rw [hpoint] at hg
    cases hg
  uses := h.uses

theorem interrupts (h : Situation σ none (some s) (some s)) :
    Situation { σ.resetState with interrupted := true } none (some s) none :=
  ⟨h.session, rfl, h.bounded, h.nodup, h.last, h.alive,
    fun g hg => h.unborn g (hg.imp id fun hnone => by cases hnone.1), nofun, nofun, nofun⟩

theorem deletes (h : Situation σ none (some s) none) :
    Situation { σ with deleted := s :: σ.deleted } none none none where
  session := h.session
  alertsLoop := h.alertsLoop
  bounded s' hs' := by
    have hlast := h.last s rfl
    rcases List.mem_cons.mp hs' with rfl | hs'
    · exact Nat.lt_of_succ_le hlast.le
    · exact h.bounded s' hs'
  nodup := by
    have hlast := h.last s rfl
    exact List.nodup_cons.mpr ⟨(h.alive s (Nat.lt_of_succ_le hlast.le)).mpr rfl, h.nodup⟩
  last := nofun
  alive s' hs' := by
    refine iff_of_false (fun hnot => ?_) nofun
    rw [List.mem_cons, not_or] at hnot
    exact hnot.1 (Option.some.inj ((h.alive s' hs').mp hnot.2)).symm
  unborn := h.unborn
  born := nofun
  running := h.running
  uses := h.uses

end Situation

/-! ## Phases -/

/-- What the owner of the lock is about. -/
inductive Phase where
  | resting | creating
  | spawning (s : SessionId)
  | joining (s : SessionId)
  | deleting (s : SessionId)

/-- At rest the session, the native session and the loop are there together. -/
def Phase.Fits (σ : Shared) : Phase → Prop
  | resting => Situation σ σ.session σ.session σ.session
  | creating => Situation σ none none none
  | spawning s => Situation σ (some s) (some s) none
  | joining s => Situation σ none (some s) (some s)
  | deleting s => Situation σ none (some s) none

namespace Frame

def phase : Frame → Phase
  | .start .create => .creating
  | .start (.spawn s) => .spawning s
  | .stop (.join s) => .joining s
  | .stop (.delete s) => .deleting s
  | _ => .resting

/-- The call has taken the lock. -/
def holds : Frame → Bool
  | .start .check | .start .lock | .stop .check | .stop .lock | .restart .lock => false
  | _ => true

/-- The calls that others may return to. -/
def isCaller : Frame → Bool
  | .restart .sleep | .restart .unlock => true
  | _ => false

theorem phase_of_not_holds {f : Frame} (h : f.holds = false) : f.phase = .resting := by
  unfold holds at h
  split at h <;> first | rfl | cases h

theorem of_isCaller {f : Frame} (h : f.isCaller = true) :
    f.phase = .resting ∧ f.holds = true := by
  unfold isCaller at h
  split at h <;> first | exact ⟨rfl, rfl⟩ | cases h

/-- What a step of a call may be: a test before the lock, the lock, something under the lock, or
    the unlock. -/
inductive Moves (c : Caller) (m : Manager) (f : Frame) : Manager → List Frame → Prop
  | outside {frames : List Frame} (hout : f.holds = false)
      (hframes : ∀ f' ∈ frames, f'.holds = false) (hone : frames.tail = []) : Moves c m f m frames
  | locks {sync : ReentrantLock Caller} {f' : Frame} (hout : f.holds = false)
      (hlock : m.sync.lock c = some sync) (hin : f'.holds = true) (hphase : f'.phase = .resting) :
      Moves c m f { m with sync } [f']
  | inside {σ : Shared} {f' : Frame} {frames : List Frame} (hin : f.holds = true)
      (hcount : (f' :: frames).countP holds = 1) (hcallers : ∀ f'' ∈ frames, f''.isCaller = true)
      (hfits : f.phase.Fits m.toShared → f'.phase.Fits σ)
      (hloops : f.phase.Fits m.toShared → ∀ g, m.loops g ≠ .unborn → σ.loops g = m.loops g) :
      Moves c m f { m with toShared := σ } (f' :: frames)
  | unlocks (hin : f.holds = true) (hphase : f.phase = .resting) :
      Moves c m f { m with sync := m.sync.unlock } []

theorem next_moves {c : Caller} {answer : Nat} {m m' : Manager} {f : Frame} {frames : List Frame}
    (h : f.next c answer m = some (m', frames)) : Moves c m f m' frames := by
  unfold next at h
  split at h
  case h_1 =>
    cases h
    refine .outside rfl ?_ ?_ <;> split <;> simp [holds]
  case h_2 =>
    obtain ⟨sync, hlock, heq⟩ := Option.map_eq_some_iff.mp h
    cases heq
    exact .locks rfl hlock rfl rfl
  case h_3 =>
    split at h
    · cases h
      exact .inside rfl rfl nofun id fun _ _ _ => rfl
    · rename_i hnone
      have hnone : m.session = none := by simpa using hnone
      cases h
      refine .inside rfl rfl nofun (fun hfits => ?_) fun _ _ _ => rfl
      simp only [phase, Phase.Fits, hnone] at hfits ⊢
      exact hfits.resets
  case h_4 =>
    split at h
    · cases h
      exact .inside rfl rfl nofun Situation.rests fun _ _ _ => rfl
    · cases h
      exact .inside rfl rfl nofun Situation.creates fun _ _ _ => rfl
  case h_5 s =>
    cases h
    refine .inside rfl rfl nofun (fun hfits => (Situation.spawns hfits).rests) ?_
    intro hfits g hborn
    refine Function.update_of_ne ?_ _ _
    rintro rfl
    exact hborn (Situation.unborn hfits g (Or.inr ⟨rfl, rfl⟩))
  case h_6 | h_12 | h_16 =>
    cases h
    exact .unlocks rfl rfl
  case h_7 =>
    cases h
    refine .outside rfl ?_ ?_ <;> split <;> simp [holds]
  case h_8 | h_13 =>
    obtain ⟨sync, hlock, heq⟩ := Option.map_eq_some_iff.mp h
    cases heq
    exact .locks rfl hlock rfl rfl
  case h_9 =>
    split at h
    · cases h
      exact .inside rfl rfl nofun id fun _ _ _ => rfl
    · rename_i s hs
      cases h
      refine .inside rfl rfl nofun (fun hfits => ?_) fun _ _ _ => rfl
      simp only [phase, Phase.Fits, hs] at hfits ⊢
      exact hfits.clears
  case h_10 s =>
    split at h
    · rename_i hended
      cases h
      exact .inside rfl rfl nofun (fun hfits => Situation.joins hfits hended) fun _ _ _ => rfl
    · cases h
  case h_11 s =>
    cases h
    exact .inside rfl rfl nofun (fun hfits => (Situation.deletes hfits).rests) fun _ _ _ => rfl
  case h_14 =>
    cases h
    split
    · exact .inside rfl rfl (by simp [isCaller]) id fun _ _ _ => rfl
    · exact .inside rfl rfl nofun id fun _ _ _ => rfl
  case h_15 =>
    cases h
    exact .inside rfl rfl (by simp [isCaller]) id fun _ _ _ => rfl

end Frame

/-! ## The invariant -/

/-- A loop that makes a step runs, and what it uses then it has used before or just read. -/
theorem LoopPoint.next_spec {session : Option SessionId} {answer : Nat} {p p' : LoopPoint}
    (h : p.next session answer = some p') : p.running = true ∧ p' ≠ .unborn ∧
      ∀ s, p'.uses = some s → p.uses = some s ∨ session = some s := by
  cases p with
  | unborn | ended => cases h
  | check | wait | pop | postCall _ =>
    cases h
    cases session <;> simp [uses, running]
  | recheck ptr =>
    cases h
    cases session <;> cases ptr <;> simp [uses, running]
  | post left =>
    cases left <;> cases h <;> cases session <;> simp [uses, running]
  | dispatch s left => cases left <;> cases h <;> simp [uses, running]
  | waiting _ | popping _ | timer | posting _ _ =>
    cases h
    simp [uses, running]

namespace Situation

variable {σ : Shared} {field live : Option SessionId} {runs : Option Nat}

/-- A step of a loop, which reads no session but its own. -/
theorem loops (h : Situation σ field live runs)
    (hread : ∀ s g, field = some s → runs = some g → s = g) {g : Nat} {answer : Nat} {p : LoopPoint}
    (hnext : (σ.loops g).next σ.session answer = some p) :
    Situation { σ with loops := Function.update σ.loops g p } field live runs := by
  obtain ⟨hrunning, hborn, huses⟩ := LoopPoint.next_spec hnext
  refine ⟨h.session, h.alertsLoop, h.bounded, h.nodup, h.last, h.alive, fun g' hg' => ?_,
    fun g' hg' => ?_, fun hi g' hg' => ?_, fun hi g' s hg' => ?_⟩
  · have hne : g' ≠ g := by
      rintro rfl
      rw [h.unborn g' hg'] at hrunning
      cases hrunning
    exact (Function.update_of_ne hne _ _).trans (h.unborn g' hg')
  · by_cases hne : g' = g
    · simpa [hne] using hborn
    · simpa [Function.update_of_ne hne] using h.born g' hg'
  · by_cases hne : g' = g
    · exact hne ▸ h.running hi g hrunning
    · simp only [Function.update_of_ne hne] at hg'
      exact h.running hi g' hg'
  · by_cases hne : g' = g
    · subst hne
      simp only [Function.update_self] at hg'
      rcases huses s hg' with hbefore | hsession
      · exact h.uses hi g' s hbefore
      · exact hread s g' (h.session.symm.trans hsession) (h.running hi g' hrunning)
    · simp only [Function.update_of_ne hne] at hg'
      exact h.uses hi g' s hg'

end Situation

theorem Phase.Fits.loops {σ : Shared} {phase : Phase} (h : phase.Fits σ) {g answer : Nat}
    {p : LoopPoint} (hnext : (σ.loops g).next σ.session answer = some p) :
    phase.Fits { σ with loops := Function.update σ.loops g p } := by
  cases phase with
  | resting =>
    exact Situation.loops h (fun s g hs hg => Option.some.inj (hs.symm.trans hg)) hnext
  | creating => exact Situation.loops h nofun hnext
  | spawning s => exact Situation.loops h nofun hnext
  | joining s => exact Situation.loops h nofun hnext
  | deleting s => exact Situation.loops h nofun hnext

/-- The phase of a thread is that of its last call. -/
def phaseOf : List Frame → Phase
  | [] => .resting
  | f :: _ => f.phase

theorem phaseOf_callers {frames : List Frame} (h : ∀ f ∈ frames, f.isCaller = true) :
    phaseOf frames = .resting := by
  cases frames with
  | nil => rfl
  | cons f rest => exact (Frame.of_isCaller (h f List.mem_cons_self)).1

theorem phaseOf_outside {frames rest : List Frame} (hframes : ∀ f ∈ frames, f.holds = false)
    (hrest : ∀ f ∈ rest, f.isCaller = true) : phaseOf (frames ++ rest) = .resting := by
  cases frames with
  | nil => exact phaseOf_callers hrest
  | cons f frames => exact Frame.phase_of_not_holds (hframes f List.mem_cons_self)

namespace Manager

def phase (m : Manager) : Phase :=
  match m.sync with
  | none => .resting
  | some h => phaseOf (m.calls h.owner)

/-- The lock is held by the calls that have taken it, only `restart` has calls of its own, only a
    listener calls on a loop's thread, and the situation fits what the owner of the lock is
    about. -/
structure Invariant (m : Manager) : Prop where
  holds : ∀ c, (m.calls c).countP Frame.holds = m.sync.heldBy c
  callers : ∀ c, ∀ f ∈ (m.calls c).tail, f.isCaller = true
  calling : ∀ g, m.calls (.loop g) ≠ [] → m.mayCall (.loop g) = true
  fits : m.phase.Fits m.toShared

variable {m m' : Manager} {c : Caller} {f : Frame} {frames rest : List Frame}

@[simp] theorem setCalls_self : (m.setCalls c frames).calls c = frames := Function.update_self ..

theorem setCalls_of_ne {c' : Caller} (h : c' ≠ c) : (m.setCalls c frames).calls c' = m.calls c' :=
  Function.update_of_ne h ..

@[simp] theorem setCalls_sync : (m.setCalls c frames).sync = m.sync := rfl

theorem step_call {method : Method} (h : m.step (.call c method) = some m') :
    m.calls c = [] ∧ m.mayCall c = true ∧ m' = m.setCalls c [method.frame] := by
  unfold step at h
  dsimp only at h
  split at h
  · rename_i hcalls
    split at h
    · cases h
      exact ⟨hcalls, ‹_›, rfl⟩
    · cases h
  · cases h

theorem mayCall_congr {g : Nat} (h : m'.loops g = m.loops g) :
    m'.mayCall (.loop g) = m.mayCall (.loop g) := by
  simp only [mayCall, h]

theorem born_of_mayCall {g : Nat} (h : m.mayCall (.loop g) = true) : m.loops g ≠ .unborn := by
  intro hunborn
  simp [mayCall, hunborn] at h

theorem phase_of_holder (h : 0 < m.sync.heldBy c) : m.phase = phaseOf (m.calls c) := by
  obtain ⟨hold, hsync, rfl⟩ := ReentrantLock.heldBy_pos.mp h
  simp [phase, hsync]

theorem phase_setCalls_held (h : 0 < m.sync.heldBy c) :
    (m.setCalls c frames).phase = phaseOf frames := by
  have hheld : 0 < (m.setCalls c frames).sync.heldBy c := h
  rw [phase_of_holder hheld, setCalls_self]

/-- What is not the owner's has no part in the phase. -/
theorem phase_setCalls (h : m.sync.heldBy c = 0) : (m.setCalls c frames).phase = m.phase := by
  unfold phase
  rw [setCalls_sync]
  cases hsync : m.sync with
  | none => rfl
  | some hold =>
    refine congrArg phaseOf (setCalls_of_ne ?_)
    rintro rfl
    exact absurd h (ReentrantLock.heldBy_pos.mpr ⟨hold, hsync, rfl⟩).ne'

/-- The exceptions `stop` and `restart` ignore are steps under the lock. -/
theorem interrupt_moves (h : m.interrupt c = some m') : ∃ f rest m₁ f', m.calls c = f :: rest ∧
    f.Moves c m m₁ [f'] ∧ ((∃ s, f = .stop (.join s) ∧ f' = .stop (.delete s)) ∨
      (f = .restart .sleep ∧ f' = .restart .unlock)) ∧ m' = m₁.setCalls c ([f'] ++ rest) := by
  unfold interrupt at h
  split at h
  · rename_i s rest hcalls
    split at h
    · cases h
    · cases h
      refine ⟨_, rest, { m with toShared := { m.resetState with interrupted := true } },
        .stop (.delete s), hcalls, ?_, Or.inl ⟨s, rfl, rfl⟩, rfl⟩
      exact .inside rfl rfl nofun Situation.interrupts fun _ _ _ => rfl
  · rename_i rest hcalls
    cases h
    refine ⟨_, rest, m, .restart .unlock, hcalls, ?_, Or.inr ⟨rfl, rfl⟩, rfl⟩
    exact .inside rfl rfl nofun id fun _ _ _ => rfl
  · cases h

namespace Invariant

theorem initial : Invariant {} := by
  refine ⟨fun c => rfl, fun c f hf => ?_, fun g hg => absurd rfl hg, Situation.initial⟩
  cases hf

/-- Who has no call that has taken the lock does not have it. -/
theorem not_held (h : Invariant m) (hcalls : m.calls c = frames)
    (hout : frames.countP Frame.holds = 0) : m.sync.heldBy c = 0 := by
  rw [← h.holds c, hcalls, hout]

theorem held (h : Invariant m) (hcalls : m.calls c = f :: rest) (hin : f.holds = true) :
    0 < m.sync.heldBy c := by
  rw [← h.holds c, hcalls, List.countP_cons_of_pos hin]
  exact Nat.succ_pos _

/-- The last call gives way to `frames`, which the lock and the situation have to agree with. -/
theorem replaced (h : Invariant m) (hcalls : m.calls c = f :: rest)
    (hself : (frames ++ rest).countP Frame.holds = m'.sync.heldBy c)
    (hothers : ∀ c', c' ≠ c → m'.sync.heldBy c' = m.sync.heldBy c') (hsame : m'.calls = m.calls)
    (hcallers : ∀ f' ∈ frames.tail, f'.isCaller = true)
    (hloops : ∀ g, m.loops g ≠ .unborn → m'.loops g = m.loops g)
    (hfits : (m'.setCalls c (frames ++ rest)).phase.Fits m'.toShared) :
    Invariant (m'.setCalls c (frames ++ rest)) where
  holds c' := by
    by_cases hc : c' = c
    · subst hc
      simpa using hself
    · rw [setCalls_of_ne hc, setCalls_sync, hothers c' hc, hsame]
      exact h.holds c'
  callers c' f' hf' := by
    by_cases hc : c' = c
    · subst hc
      have hrest : ∀ f' ∈ rest, f'.isCaller = true := fun f' hf' =>
        h.callers c' f' (by rwa [hcalls])
      rw [setCalls_self] at hf'
      cases frames with
      | nil => exact hrest f' (List.mem_of_mem_tail hf')
      | cons top frames =>
        rcases List.mem_append.mp hf' with hf' | hf'
        · exact hcallers f' hf'
        · exact hrest f' hf'
    · rw [setCalls_of_ne hc, hsame] at hf'
      exact h.callers c' f' hf'
  calling g hg := by
    have hbefore : m.calls (.loop g) ≠ [] := by
      by_cases hc : .loop g = c
      · rw [hc, hcalls]
        exact List.cons_ne_nil _ _
      · rwa [setCalls_of_ne hc, hsame] at hg
    have hmay := h.calling g hbefore
    rw [← hmay]
    exact mayCall_congr (hloops g (born_of_mayCall hmay))
  fits := hfits

/-- **A step of a call** keeps the invariant. -/
theorem moves (h : Invariant m) (hcalls : m.calls c = f :: rest) (hmove : f.Moves c m m' frames) :
    Invariant (m'.setCalls c (frames ++ rest)) := by
  have hrest : ∀ f' ∈ rest, f'.isCaller = true := fun f' hf' => h.callers c f' (by rwa [hcalls])
  have hcount := h.holds c
  rw [hcalls, List.countP_cons] at hcount
  cases hmove with
  | outside hout hframes hone =>
    have hnone : frames.countP Frame.holds = 0 :=
      List.countP_eq_zero.mpr fun f' hf' => by simp [hframes f' hf']
    refine h.replaced hcalls ?_ (fun _ _ => rfl) rfl (by simp [hone]) (fun _ _ => rfl) ?_
    · simpa [hnone, hout] using hcount
    · by_cases hheld : m.sync.heldBy c = 0
      · rw [phase_setCalls hheld]
        exact h.fits
      · -- the owner, who calls again, goes on resting
        have hfits := h.fits
        have hheld := Nat.pos_of_ne_zero hheld
        rw [phase_of_holder hheld, hcalls, phaseOf, Frame.phase_of_not_holds hout] at hfits
        rw [phase_setCalls_held hheld, phaseOf_outside hframes hrest]
        exact hfits
  | @locks sync f' hout hlock hin hphase =>
    obtain ⟨hself, hothers⟩ := ReentrantLock.heldBy_lock hlock
    refine h.replaced hcalls ?_ (fun c' hc' => (hothers c' hc').1) rfl (by simp) (fun _ _ => rfl) ?_
    · simpa [hin, hout, hself] using hcount
    · have hresting : m.phase = .resting := by
        by_cases hheld : m.sync.heldBy c = 0
        · cases hsync : m.sync with
          | none => simp [phase, hsync]
          | some hold =>
            exfalso
            by_cases howner : hold.owner = c
            · have := hold.pos
              simp [hsync, howner] at hheld
              omega
            · simp [hsync, howner] at hlock
        · rw [phase_of_holder (Nat.pos_of_ne_zero hheld), hcalls]
          exact Frame.phase_of_not_holds hout
      have hheld : 0 < sync.heldBy c := by omega
      rw [phase_setCalls_held hheld]
      change f'.phase.Fits _
      rw [hphase, ← hresting]
      exact h.fits
  | @inside σ f' frames hin hone hcallers hfits hloops =>
    have hheld := h.held hcalls hin
    have hphase : m.phase = f.phase := by rw [phase_of_holder hheld, hcalls, phaseOf]
    have hbefore : f.phase.Fits m.toShared := hphase ▸ h.fits
    refine h.replaced hcalls ?_ (fun _ _ => rfl) rfl hcallers (hloops hbefore) ?_
    · rw [List.countP_append, hone]
      simpa [hin, Nat.add_comm] using hcount
    · have hheld : 0 < (Manager.mk σ m.sync m.calls).sync.heldBy c := hheld
      rw [phase_setCalls_held hheld]
      exact hfits hbefore
  | unlocks hin hphase =>
    have hheld := h.held hcalls hin
    obtain ⟨hself, hothers⟩ := ReentrantLock.heldBy_unlock hheld
    have hfits := h.fits
    rw [phase_of_holder hheld, hcalls, phaseOf, hphase] at hfits
    refine h.replaced hcalls ?_ hothers rfl (by simp) (fun _ _ => rfl) ?_
    · simp only [hin, if_true] at hcount
      rw [List.nil_append, hself]
      omega
    · have hresting :
          (setCalls { m with sync := m.sync.unlock } c ([] ++ rest)).phase = .resting := by
        unfold phase
        rw [setCalls_sync]
        cases hsync : m.sync.unlock with
        | none => rfl
        | some hold =>
          obtain ⟨before, hbefore, howner⟩ := ReentrantLock.owner_of_unlock hsync
          obtain ⟨before', hbefore', rfl⟩ := ReentrantLock.heldBy_pos.mp hheld
          cases hbefore.symm.trans hbefore'
          simpa [← howner] using phaseOf_callers hrest
      rw [hresting]
      exact hfits

theorem interrupts (h : Invariant m) (hstep : m.interrupt c = some m') : Invariant m' := by
  obtain ⟨f, rest, m₁, f', hcalls, hmove, -, rfl⟩ := interrupt_moves hstep
  exact h.moves hcalls hmove

theorem calls (h : Invariant m) {method : Method} (hcalls : m.calls c = [])
    (hmay : m.mayCall c = true) : Invariant (m.setCalls c [method.frame]) := by
  have hout : method.frame.holds = false := by cases method <;> rfl
  have hheld := h.not_held hcalls rfl
  refine ⟨fun c' => ?_, fun c' f' hf' => ?_, fun g hg => ?_, ?_⟩
  · by_cases hc : c' = c
    · subst hc
      rw [setCalls_self, setCalls_sync, hheld]
      simp [hout]
    · rw [setCalls_of_ne hc, setCalls_sync]
      exact h.holds c'
  · by_cases hc : c' = c
    · subst hc
      rw [setCalls_self] at hf'
      cases hf'
    · rw [setCalls_of_ne hc] at hf'
      exact h.callers c' f' hf'
  · by_cases hc : .loop g = c
    · exact hc ▸ hmay
    · rw [setCalls_of_ne hc] at hg
      exact h.calling g hg
  · rw [phase_setCalls hheld]
    exact h.fits

/-- A loop goes on only when no listener is being called. -/
theorem loops (h : Invariant m) {g answer : Nat} {p : LoopPoint} (hcalls : m.calls (.loop g) = [])
    (hnext : (m.loops g).next m.session answer = some p) : Invariant (m.setLoop g p) := by
  refine ⟨h.holds, h.callers, fun g' hg' => ?_, h.fits.loops hnext⟩
  have hne : g' ≠ g := by
    rintro rfl
    exact hg' hcalls
  rw [← h.calling g' hg']
  exact mayCall_congr (Function.update_of_ne hne ..)

theorem act (h : Invariant m) {answer : Nat} (hstep : m.act c answer = some m') :
    Invariant m' := by
  unfold Manager.act at hstep
  split at hstep
  · rename_i f rest hcalls
    obtain ⟨⟨m₁, frames⟩, hnext, rfl⟩ := Option.map_eq_some_iff.mp hstep
    exact h.moves hcalls (Frame.next_moves hnext)
  · rename_i g hcalls
    obtain ⟨p, hnext, rfl⟩ := Option.map_eq_some_iff.mp hstep
    exact h.loops hcalls hnext
  · cases hstep

theorem step (h : Invariant m) {e : Event} (hstep : m.step e = some m') : Invariant m' := by
  cases e with
  | call c method =>
    obtain ⟨hcalls, hmay, rfl⟩ := step_call hstep
    exact h.calls hcalls hmay
  | act c answer => exact h.act hstep
  | interrupt c => exact h.interrupts hstep

theorem run (h : Invariant m) {events : List Event} (hrun : m.run events = some m') :
    Invariant m' := by
  induction events generalizing m with
  | nil =>
    cases hrun
    exact h
  | cons e rest ih =>
    obtain ⟨m₁, hstep, hrest⟩ := Option.bind_eq_some_iff.mp hrun
    exact ih (h.step hstep) hrest

/-- In every phase at most one session is there, and its loop is the only one. -/
theorem situation (h : Invariant m) : ∃ live runs, Situation m.toShared m.session live runs ∧
    (∀ s, m.session = some s → live = some s) ∧ (∀ g, runs = some g → live = some g) ∧
    (m.sync = none → live = m.session ∧ runs = m.session) := by
  have hfits := h.fits
  have hfree : m.sync = none → m.phase = .resting := by
    intro hsync
    simp [phase, hsync]
  cases hphase : m.phase <;> rw [hphase] at hfits hfree
  case resting => exact ⟨_, _, hfits, fun _ => id, fun _ => id, fun _ => ⟨rfl, rfl⟩⟩
  all_goals
    have hsession := hfits.session
    refine ⟨_, _, hfits.reads, ?_, ?_, fun hsync => nomatch hfree hsync⟩ <;> simp [hsession]

end Invariant

/-- **One session at a time.** Whatever the threads do and whichever of them are interrupted:

* no native session is freed twice, and at most one is there, the one created last;
* `session` refers to one that has not been freed;
* when nobody is in `start`, `stop` or `restart` a session that is there is the one in `session`.

Unless a thread has been interrupted while it joined a loop, an alerts loop that has not ended
is the loop of the session that is there, and all that it uses is this session's. -/
theorem one_session_at_a_time {events : List Event} (hrun : Manager.run {} events = some m) :
    (m.deleted.Nodup ∧ ∀ s ∈ m.deleted, s < m.created) ∧
    (∀ s < m.created, s ∉ m.deleted → s + 1 = m.created) ∧
    (∀ s, m.session = some s → s < m.created ∧ s ∉ m.deleted) ∧
    (m.sync = none → ∀ s < m.created, s ∉ m.deleted → m.session = some s) ∧
    (m.interrupted = false → ∀ g, (m.loops g).running = true →
      g + 1 = m.created ∧ g ∉ m.deleted ∧ (m.sync = none → m.session = some g) ∧
        ∀ s, (m.loops g).uses = some s → s = g) := by
  obtain ⟨live, runs, h, hsession, hruns, hrest⟩ := (Invariant.initial.run hrun).situation
  have hthere : ∀ s, live = some s → s < m.created ∧ s ∉ m.deleted := by
    intro s hs
    have hlt : s < m.created := Nat.lt_of_succ_le (h.last s hs).le
    exact ⟨hlt, (h.alive s hlt).mpr hs⟩
  refine ⟨⟨h.nodup, h.bounded⟩, fun s hs hnot => ?_, fun s hs => hthere s (hsession s hs),
    fun hsync s hs hnot => ?_, fun hi g hg => ?_⟩
  · exact h.last s ((h.alive s hs).mp hnot)
  · exact (hrest hsync).1.symm.trans ((h.alive s hs).mp hnot)
  · have hg' := h.running hi g hg
    refine ⟨h.last g (hruns g hg'), (hthere g (hruns g hg')).2, fun hsync => ?_, h.uses hi g⟩
    exact (hrest hsync).2.symm.trans hg'

namespace Stopping

/-- A client starts the session; the loop waits in it when another one stops it. -/
def events : List Event :=
  .call (.client 0) .start :: List.replicate 6 (.act (.client 0) 1) ++
    List.replicate 2 (.act (.loop 0) 0) ++
    .call (.client 1) .stop :: List.replicate 3 (.act (.client 1) 0)

theorem isSome_run : (Manager.run {} events).isSome = true := by decide +kernel

def manager : Manager := (Manager.run {} events).get isSome_run

theorem one_session_at_a_time_waiting : manager.session = none ∧
    manager.calls (.client 1) = [.stop (.join 0)] ∧ manager.loops 0 = .waiting 0 ∧
    0 ∉ manager.deleted := by
  have hrun : Manager.run {} events = some manager := (Option.some_get isSome_run).symm
  refine ⟨by decide +kernel, by decide +kernel, by decide +kernel, ?_⟩
  exact ((one_session_at_a_time hrun).2.2.2.2 (by decide +kernel) 0 (by decide +kernel)).2.1

end Stopping

end Manager

end Lifecycle
end Session
end Libtorrent4j
