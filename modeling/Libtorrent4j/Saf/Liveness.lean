import Libtorrent4j.Lib.Fairness
import Libtorrent4j.Saf.Accounting
import Libtorrent4j.Saf.Threads

/-!
# Every call is answered

`exactly_once` lets the backend come to rest when nobody calls any more. Here the calls need not
end: storages come and go, settings change and new calls arrive for ever, and all that is asked is
that **nobody who can go on is passed over for ever** — the caller in its own call, the worker, the
thread in `abort`, and libtorrent, which calls `submit_jobs` when it has queued something.

Both results count what still stands before a call or before `abort`. The queue is first in,
first out, so whatever arrives later is not among it.
-/

namespace Libtorrent4j
namespace Saf

open Lib Lib.Exec Lib.Ledger

/-- Who makes a step that somebody may be waiting for. -/
inductive Party where
  | caller (call : Nat)
  | worker
  /-- Whoever calls `submit_jobs`. -/
  | submitter
  | aborter
deriving DecidableEq

/-- The steps before the call is posted or queued. -/
def Stage.toGo : Stage → Nat
  | .called => 3
  | .found _ => 2
  | .refused _ => 1

/-- The steps before the worker looks at the queue again, or is gone. -/
def Crew.toGo : Crew → Nat
  | .running _ => 4
  | .returning | .asleep => 3
  | .looking => 2
  | .closing => 1
  | .exited => 0

namespace Threads

variable {W : Type}

/-- Where the call is on its way. -/
def stages (s : Threads W) (call : Nat) : List Stage :=
  (s.inFlight.filter fun p => p.submission.call = call).map Pending.stage

/-- The call has been answered. -/
def Answered (s : Threads W) (call : Nat) : Prop := call ∈ s.posted.map Post.call

end Threads

/-- The step is this party's own. -/
def Party.Makes {W : Type} (s s' : Threads W) : Party → Prop
  | .caller call => s.stages call ≠ [] ∧ s'.stages call ≠ s.stages call
  | .worker => s.worker ≠ .asleep ∧ s'.worker ≠ s.worker
  | .submitter => s.queue ≠ [] ∧ s.worker = .asleep ∧ s'.worker = .looking
  | .aborter => s.abort ≠ .idle ∧ s.abort ≠ .returned ∧ s'.abort ≠ s.abort

namespace Threads

variable {W : Type} (E : Env W)

/-- A party's own step; and for nobody's, any step at all, or nothing happens. -/
def Turn : Option Party → Threads W → Threads W → Prop
  | some party, s, s' => Step E s s' ∧ party.Makes s s'
  | none, s, s' => s' = s ∨ Step E s s'

variable {E} {s s' : Threads W}

theorem Turn.cases {who : Option Party} (h : Turn E who s s') : s' = s ∨ Step E s s' := by
  cases who with
  | none => exact h
  | some party => exact Or.inr h.1

theorem Turn.steps {who : Option Party} {s₀ : Threads W} (hsteps : Steps E s₀ s)
    (h : Turn E who s s') : Steps E s₀ s' := by
  rcases h.cases with rfl | hstep
  · exact hsteps
  · exact hsteps.step hstep

/-! ## What a step does to the queue -/

/-- What the worker, its queue and what it has done make of a step. -/
inductive Works (s s' : Threads W) : Prop
  | waits {more : List Entry} (hsame : s'.worker = s.worker) (hdone : s'.done = s.done)
      (hqueue : s'.queue = s.queue ++ more) (hmore : s.accepting = false → more = [])
  | takes {entry : Entry} (hw : s.worker = .looking) (hq : s.queue = entry :: s'.queue)
      (hw' : s'.worker = .running entry) (hdone : s'.done = s.done)
  | finishes {entry : Entry} (hw : s.worker = .running entry) (hw' : s'.worker = .returning)
      (hdone : s'.done = s.done ++ [entry]) (hqueue : s'.queue = s.queue)
  | looks (hw : s.worker = .returning ∨ s.worker = .asleep) (hw' : s'.worker = .looking)
      (hdone : s'.done = s.done) (hqueue : s'.queue = s.queue)
  | sleeps (hw : s.worker = .looking) (hq : s.queue = []) (hs : s.stopping = false)
  | leaves (hw : s.worker = .looking) (hq : s.queue = []) (hw' : s'.worker = .closing)
      (hqueue : s'.queue = s.queue)
  | exits (hw : s.worker = .closing) (hw' : s'.worker = .exited) (hqueue : s'.queue = s.queue)

theorem Step.works (h : Step E s s') : Works s s' := by
  have hquiet : ∀ {change : Change}, change.entry = none →
      (s.changes ++ [change]).filterMap Change.entry = s.done := by
    intro change hnone
    rw [performed_append, hnone]
    exact List.append_nil _
  have hsame : s.queue = s.queue ++ [] := (List.append_nil _).symm
  cases h with
  | accept hin ha => exact .waits rfl rfl rfl fun hnot => absurd (ha.symm.trans hnot) nofun
  | take hw hq => exact .takes hw hq rfl rfl
  | finish hw => exact .finishes hw rfl (performed_append _ _) rfl
  | comeBack hw => exact .looks (Or.inl hw) rfl rfl rfl
  | fallAsleep hw hq hs => exact .sleeps hw hq hs
  | submitJobs hw hq => exact .looks (Or.inr hw) rfl rfl rfl
  | wake hw => exact .looks (Or.inr hw) rfl rfl rfl
  | leaveLoop hw hq hs => exact .leaves hw hq rfl rfl
  | workerCloses hw => exact .exits hw rfl rfl
  | notifyAll ha =>
    by_cases hw : s.worker = .asleep
    · exact .looks (Or.inr hw) (if_pos hw) rfl rfl
    · exact .waits (if_neg hw) rfl hsame fun _ => rfl
  | abortCloses ha => exact .waits rfl (hquiet rfl) hsame fun _ => rfl
  | settingsUpdated filePoolSize => exact .waits rfl (hquiet rfl) hsame fun _ => rfl
  | refuseTorrent params hnew => exact .waits rfl (hquiet rfl) hsame fun _ => rfl
  | makeTorrent params hnew => exact .waits rfl (hquiet rfl) hsame fun _ => rfl
  | removeTorrent index hsome =>
    cases ha : s.accepting with
    | true => exact .waits rfl rfl rfl fun hnot => absurd (ha.symm.trans hnot) nofun
    | false => exact .waits rfl rfl hsame fun _ => rfl
  | _ => exact .waits rfl rfl hsame fun _ => rfl

/-! ## What is accepted is performed -/

/-- The elements among the first `n` that no worker has had in its hands. -/
def ahead (n : Nat) (s : Threads W) : Nat := n - (s.done ++ s.running).length

def queueHelper (s : Threads W) : Party := if s.worker = .asleep then .submitter else .worker

def queueRank (n : Nat) (s : Threads W) : Nat := 3 * ahead n s + s.worker.toGo

/-- A worker that has something to do is not on its way out. -/
theorem working (hreach : Backend.Reachable s.toBackend) (hwell : s.WellFormed)
    (hleft : s.done.length < s.accepted.length) :
    s.worker ≠ .closing ∧ s.worker ≠ .exited ∧ (s.running = [] → s.queue ≠ []) := by
  obtain ⟨-, hguarded⟩ := hreach.invariant
  have hwaiting : s.running = [] → s.queue ≠ [] := by
    intro hrunning hqueue
    rw [hwell.order, hrunning, hqueue, List.append_nil, List.append_nil] at hleft
    exact absurd hleft (Nat.lt_irrefl _)
  have hout : ∀ {worker : Crew}, s.worker = worker →
      worker.worker = .closing ∨ worker.worker = .exited →
      ({ s with worker := worker } : Threads W).running = [] → False := by
    rintro _ rfl hgone hrunning
    exact hwaiting hrunning (List.map_eq_nil_iff.mp (hguarded.leaving hgone).1)
  exact ⟨fun hw => hout hw (Or.inl rfl) rfl, fun hw => hout hw (Or.inr rfl) rfl, hwaiting⟩

theorem queue_enabled (hreach : Backend.Reachable s.toBackend) (hwell : s.WellFormed)
    (hleft : s.done.length < s.accepted.length) : Enabled (Turn E) (queueHelper s) s := by
  obtain ⟨hclosing, hexited, hwaiting⟩ := working hreach hwell hleft
  unfold queueHelper
  cases hw : s.worker with
  | looking =>
    obtain ⟨entry, rest, hq⟩ := List.exists_cons_of_ne_nil (hwaiting (by simp [running, hw]))
    exact ⟨_, .take hw hq, by simp [hw], by simp [hw]⟩
  | asleep =>
    have hq := hwaiting (by simp [running, hw])
    exact ⟨_, .submitJobs hw hq, hq, hw, rfl⟩
  | running entry => exact ⟨_, .finish hw, by simp [hw], by simp [hw]⟩
  | returning => exact ⟨_, .comeBack hw, by simp [hw], by simp [hw]⟩
  | closing => exact absurd hw hclosing
  | exited => exact absurd hw hexited

/-- **One step** brings the first `n` nearer to being done, or is not that of whose turn it is. -/
theorem queue_nearer {n : Nat} {who : Option Party} (hreach : Backend.Reachable s.toBackend)
    (hwell : s.WellFormed) (hn : n ≤ s.accepted.length) (hleft : ¬ n ≤ s.done.length)
    (h : Turn E who s s') : n ≤ s'.done.length ∨ queueRank n s' < queueRank n s ∨
      (who ≠ some (queueHelper s) ∧ queueRank n s' = queueRank n s ∧
        queueHelper s' = queueHelper s) := by
  obtain ⟨hclosing, -, hwaiting⟩ := working hreach hwell (by omega)
  -- whose turn it is moves the worker
  have hidle : s'.worker = s.worker → s'.done = s.done → who ≠ some (queueHelper s) ∧
      queueRank n s' = queueRank n s ∧ queueHelper s' = queueHelper s := by
    intro hsame hdone
    have hrunning : s'.running = s.running := by rw [running, hsame, running]
    refine ⟨?_, by rw [queueRank, ahead, hdone, hrunning, hsame, queueRank, ahead],
      by rw [queueHelper, hsame, queueHelper]⟩
    rintro rfl
    obtain ⟨-, hmakes⟩ := h
    unfold queueHelper at hmakes
    split at hmakes
    · rename_i hasleep
      obtain ⟨-, -, hlooking⟩ := hmakes
      rw [hsame, hasleep] at hlooking
      cases hlooking
    · exact hmakes.2 hsame
  rcases h.cases with rfl | hstep
  · exact Or.inr (Or.inr (hidle rfl rfl))
  cases hstep.works with
  | waits hsame hdone hqueue hmore => exact Or.inr (Or.inr (hidle hsame hdone))
  | takes hw hq hw' hdone =>
    refine Or.inr (Or.inl ?_)
    simp [queueRank, ahead, running, hw, hw', hdone, Crew.toGo]
    omega
  | finishes hw hw' hdone hqueue =>
    refine Or.inr (Or.inl ?_)
    simp [queueRank, ahead, running, hw, hw', hdone, Crew.toGo]
  | looks hw hw' hdone hqueue =>
    refine Or.inr (Or.inl ?_)
    rcases hw with hw | hw <;> simp [queueRank, ahead, running, hw, hw', hdone, Crew.toGo]
  | sleeps hw hq hs => exact absurd hq (hwaiting (by simp [running, hw]))
  | leaves hw hq hw' hqueue => exact absurd hq (hwaiting (by simp [running, hw]))
  | exits hw hw' hqueue => exact absurd hw hclosing

/-! ## No call is on its way for ever -/

def callRank (call : Nat) (s : Threads W) : Nat := ((s.stages call).map Stage.toGo).sum

section Flight

variable {before after : List Pending} {a : Submission} {stage stage' : Stage}

theorem stages_of_flight (h : s.inFlight = before ++ ⟨a, stage⟩ :: after) (call : Nat) :
    s.stages call = { s with inFlight := before }.stages call ++
      (if a.call = call then [stage] else []) ++ { s with inFlight := after }.stages call := by
  simp only [stages, h, List.filter_append, List.filter_cons, List.map_append]
  by_cases hcall : a.call = call
  · simp [hcall]
  · simp [hcall]

/-- The call leaves, and no other one moves. -/
theorem stages_left (h : s.inFlight = before ++ ⟨a, stage⟩ :: after)
    (h' : s'.inFlight = before ++ after) (call : Nat) :
    if a.call = call then callRank call s' < callRank call s
    else s'.stages call = s.stages call := by
  have hs' : s'.stages call = { s with inFlight := before }.stages call ++
      { s with inFlight := after }.stages call := by
    simp [stages, h', List.filter_append]
  have hs := stages_of_flight h call
  split
  · rename_i hcall
    have hpos : 0 < stage.toGo := by cases stage <;> simp [Stage.toGo]
    rw [if_pos hcall] at hs
    simp only [callRank, hs, hs', List.map_append, List.map_cons, List.map_nil, List.sum_append,
      List.sum_cons, List.sum_nil]
    omega
  · rename_i hcall
    rw [if_neg hcall, List.append_nil] at hs
    exact hs'.trans hs.symm

/-- The call goes on, and no other one moves. -/
theorem stages_moved (h : s.inFlight = before ++ ⟨a, stage⟩ :: after)
    (h' : s'.inFlight = before ++ ⟨a, stage'⟩ :: after) (hlt : stage'.toGo < stage.toGo)
    (call : Nat) :
    if a.call = call then callRank call s' < callRank call s
    else s'.stages call = s.stages call := by
  have hs := stages_of_flight h call
  have hs' := stages_of_flight h' call
  split
  · rename_i hcall
    rw [if_pos hcall] at hs hs'
    simp only [callRank, hs, hs', List.map_append, List.map_cons, List.map_nil, List.sum_append,
      List.sum_cons, List.sum_nil]
    exact Nat.add_lt_add_right (Nat.add_lt_add_left (by simpa using hlt) _) _
  · rename_i hcall
    rw [if_neg hcall] at hs hs'
    exact hs'.trans hs.symm

end Flight

/-- A call that has been made only comes nearer to the queue or to its handler. -/
theorem Step.flight (h : Step E s s') {call : Nat} (hmade : call ∈ s.made.map Submission.call) :
    s'.stages call = s.stages call ∨ callRank call s' < callRank call s := by
  have hother : ∀ {a : Submission} {stage : Stage}, a.call ∉ s.made.map Submission.call →
      { s with inFlight := ⟨a, stage⟩ :: s.inFlight }.stages call = s.stages call := by
    intro a stage hfresh
    have hne : a.call ≠ call := fun heq => hfresh (heq ▸ hmade)
    simp [stages, hne]
  have heither : ∀ {a : Submission} {s' : Threads W},
      (if a.call = call then callRank call s' < callRank call s
        else s'.stages call = s.stages call) →
      s'.stages call = s.stages call ∨ callRank call s' < callRank call s := by
    intro a s' h
    split at h
    · exact Or.inr h
    · exact Or.inl h
  cases h with
  | call a hfresh hlooks => exact Or.inl (hother hfresh)
  | callDirectly a hfresh hdirect => exact Or.inl (hother hfresh)
  | unknown hin hnone => exact heither (stages_left hin rfl call)
  | lookUp hin hsome => exact heither (stages_moved hin rfl (by simp [Stage.toGo]) call)
  | noBuffer hin hjob hsome => exact heither (stages_left hin rfl call)
  | accept hin ha => exact heither (stages_left hin rfl call)
  | refuse hin ha => exact heither (stages_moved hin rfl (by simp [Stage.toGo]) call)
  | runAborted hin => exact heither (stages_left hin rfl call)
  | _ => exact Or.inl rfl

/-- A call on its way can go on. -/
theorem call_enabled {call : Nat} (hin : s.stages call ≠ []) :
    Enabled (Turn E) (.caller call) s := by
  obtain ⟨⟨a, stage⟩, hp⟩ := List.exists_mem_of_ne_nil _ (mt List.map_eq_nil_iff.mpr hin)
  obtain ⟨hmem, hcall⟩ := List.mem_filter.mp hp
  obtain ⟨before, after, hsplit⟩ := List.append_of_mem hmem
  obtain rfl : a.call = call := of_decide_eq_true hcall
  suffices hnext : ∃ s', Step E s s' ∧ callRank a.call s' < callRank a.call s by
    obtain ⟨s', hstep, hlt⟩ := hnext
    refine ⟨s', hstep, hin, fun hsame => ?_⟩
    rw [callRank, hsame] at hlt
    exact absurd hlt (Nat.lt_irrefl _)
  cases stage with
  | called =>
    cases hfound : s.findStorage a.storage with
    | none => exact ⟨_, .unknown hsplit hfound, by simpa using stages_left hsplit rfl a.call⟩
    | some object =>
      refine ⟨_, .lookUp hsplit hfound, ?_⟩
      simpa using stages_moved hsplit rfl (by simp [Stage.toGo]) a.call
  | found closure =>
    cases ha : s.accepting with
    | true => exact ⟨_, .accept hsplit ha, by simpa using stages_left hsplit rfl a.call⟩
    | false =>
      refine ⟨_, .refuse hsplit ha, ?_⟩
      simpa using stages_moved hsplit rfl (by simp [Stage.toGo]) a.call
  | refused => exact ⟨_, .runAborted hsplit, by simpa using stages_left hsplit rfl a.call⟩

/-! ## What stays -/

/-- What has been made, done and posted stays. -/
theorem Step.grows (h : Step E s s') :
    s.made <+: s'.made ∧ s.done <+: s'.done ∧ s.posted <+: s'.posted := by
  have hmore : ∀ change : Change, s.done <+: (s.changes ++ [change]).filterMap Change.entry := by
    intro change
    rw [performed_append]
    exact List.prefix_append _ _
  refine ⟨?_, ?_, ?_⟩
  · cases h with
    | call | callDirectly => exact List.prefix_append _ _
    | _ => exact List.prefix_rfl
  · cases h with
    | finish | workerCloses | abortCloses | settingsUpdated | refuseTorrent | makeTorrent =>
      exact hmore _
    | _ => exact List.prefix_rfl
  · cases h with
    | unknown | noBuffer | runAborted | finish => exact List.prefix_append _ _
    | _ => exact List.prefix_rfl

/-- A call that is no longer on its way has been answered or accepted. -/
theorem answered_or_accepted (hreach : Backend.Reachable s.toBackend) {call : Nat}
    (hmade : call ∈ s.made.map Submission.call) (hleft : s.stages call = []) :
    s.Answered call ∨ call ∈ s.accepted.filterMap Entry.call := by
  obtain ⟨hplaced, -⟩ := hreach.invariant
  have hplaces := hplaced.places call
  have hpos : 0 < s.toBackend.made.count call := List.count_pos_iff.mpr hmade
  have hnone : (s.toBackend.inFlight.map Prod.fst).count call = 0 := by
    rw [toBackend, List.map_map]
    refine List.count_eq_zero.mpr fun hin => ?_
    obtain ⟨p, hp, hcall⟩ := List.mem_map.mp hin
    refine List.ne_nil_of_mem (List.mem_map_of_mem (List.mem_filter.mpr ⟨hp, ?_⟩)) hleft
    exact decide_eq_true hcall
  by_cases hanswered : 0 < (s.toBackend.posted.map Prod.fst).count call
  · refine Or.inl ?_
    have hin := List.count_pos_iff.mp hanswered
    rwa [toBackend, List.map_map] at hin
  · refine Or.inr ?_
    have hwaits : 0 < s.toBackend.accepted.count call := by
      rw [hplaced.order, List.count_append, List.count_append]
      omega
    exact List.count_pos_iff.mp hwaits

theorem callsOf_queued (entries : List Entry) :
    Backend.callsOf (entries.map Entry.queued) = entries.filterMap Entry.call := by
  induction entries with
  | nil => rfl
  | cons entry rest ih =>
    cases hcall : entry.call with
    | none => simp [Entry.queued, Backend.callsOf, hcall, ih]
    | some call => simp [Entry.queued, Backend.callsOf, hcall, ih]

/-- What has been performed has been answered. -/
theorem answered_of_done (hreach : Backend.Reachable s.toBackend) (hwell : s.WellFormed)
    {call : Nat} (hdone : call ∈ s.done.filterMap Entry.call) : s.Answered call := by
  obtain ⟨hplaced, -⟩ := hreach.invariant
  have hrunning : s.toBackend.runningCalls = s.running.filterMap Entry.call := by
    rw [← callsOf_queued]
    cases hw : s.worker <;>
      simp [Backend.runningCalls, running, toBackend, hw, Crew.worker, Backend.callsOf]
  have horder : s.toBackend.accepted = s.done.filterMap Entry.call ++
      (s.running.filterMap Entry.call ++ s.queue.filterMap Entry.call) := by
    simp [toBackend, hwell.order, List.filterMap_append]
  have hsame : s.toBackend.completed = s.done.filterMap Entry.call := by
    refine List.append_cancel_right (hplaced.order.symm.trans ?_)
    rw [horder, hrunning, ← callsOf_queued s.queue]
    rfl
  rw [← hsame] at hdone
  obtain ⟨post, hin, rfl⟩ := List.mem_map.mp hdone
  obtain ⟨post, hpost, rfl⟩ := List.mem_map.mp (List.mem_filter.mp hin).1
  exact List.mem_map_of_mem hpost

/-! ## `abort` -/

def abortHelper (s : Threads W) : Party :=
  if s.abort = .joining ∧ s.worker ≠ .exited then .worker else .aborter

def abortRank (s : Threads W) : Nat :=
  s.abort.remaining + (3 * s.queue.length + s.worker.toGo)

/-- Nothing but its own steps moves an `abort` that is under way. -/
theorem Step.aborting (h : Step E s s') (hidle : s.abort ≠ .idle) (hunder : s.abort ≠ .returned) :
    s'.abort = s.abort ∨ s'.abort.remaining < s.abort.remaining := by
  cases h with
  | abort ha hrun => exact absurd ha (not_or.mpr ⟨hidle, hunder⟩)
  | abortAgain ha hacc hjoin => exact absurd ha (not_or.mpr ⟨hidle, hunder⟩)
  | notifyAll ha => exact Or.inr (by simp [ha, Abort.remaining])
  | join ha hw => exact Or.inr (by simp [ha, Abort.remaining])
  | abortCloses ha => exact Or.inr (by simp [ha, Abort.remaining])
  | _ => exact Or.inl rfl

/-- Who has returned from `abort` finds nothing more to abort. -/
theorem Step.returned (hguarded : s.toBackend.Guarded) (h : Step E s s')
    (hreturned : s.abort = .returned) : s'.abort = .returned := by
  have hjoined : s.joinable = false := hguarded.closing (Or.inr hreturned)
  have hacc : s.accepting = false := hguarded.aborted (by simp [toBackend, hreturned])
  cases h with
  | abort ha hrun => simp [hjoined, hacc] at hrun
  | abortAgain ha hacc hjoin => rfl
  | notifyAll ha => cases ha.symm.trans hreturned
  | join ha hw => cases ha.symm.trans hreturned
  | abortCloses ha => rfl
  | _ => exact hreturned

/-- An `abort` that has been called is not forgotten. -/
theorem Step.called_abort (h : Step E s s') (hidle : s.abort ≠ .idle) : s'.abort ≠ .idle := by
  cases h with
  | abort | abortAgain | notifyAll | join | abortCloses => nofun
  | _ => exact hidle

theorem abort_enabled (hguarded : s.toBackend.Guarded) (hidle : s.abort ≠ .idle)
    (hunder : s.abort ≠ .returned) : Enabled (Turn E) (abortHelper s) s := by
  have hacc : s.accepting = false := hguarded.aborted hidle
  have hstopping : s.stopping = true := by
    have := hguarded.flags
    simpa [toBackend, hacc] using this
  unfold abortHelper
  cases ha : s.abort with
  | idle => exact absurd ha hidle
  | returned => exact absurd ha hunder
  | notifying => exact ⟨_, .notifyAll ha, hidle, hunder, by simp [ha]⟩
  | closing => exact ⟨_, .abortCloses ha, hidle, hunder, by simp [ha]⟩
  | joining =>
    cases hw : s.worker with
    | exited => exact ⟨_, .join ha fun _ => hw, hidle, hunder, by simp [ha]⟩
    | looking =>
      cases hq : s.queue with
      | nil => exact ⟨_, .leaveLoop hw hq hstopping, by simp [hw], by simp [hw]⟩
      | cons entry rest => exact ⟨_, .take hw hq, by simp [hw], by simp [hw]⟩
    | running entry => exact ⟨_, .finish hw, by simp [hw], by simp [hw]⟩
    | returning => exact ⟨_, .comeBack hw, by simp [hw], by simp [hw]⟩
    | closing => exact ⟨_, .workerCloses hw, by simp [hw], by simp [hw]⟩
    | asleep =>
      -- `notify_all` has been called
      rcases hguarded.woken (by simp [toBackend, hw, Crew.worker]) with hnot | hnot
      · exact absurd hnot hidle
      · cases ha.symm.trans hnot

/-- **One step** brings `abort` nearer to its return, or is not that of whose turn it is. -/
theorem abort_nearer {who : Option Party} (hguarded : s.toBackend.Guarded)
    (hidle : s.abort ≠ .idle) (hunder : s.abort ≠ .returned) (h : Turn E who s s') :
    abortRank s' < abortRank s ∨
      (who ≠ some (abortHelper s) ∧ abortRank s' = abortRank s ∧
        abortHelper s' = abortHelper s) := by
  have hacc : s.accepting = false := hguarded.aborted hidle
  have hstill : s'.abort = s.abort → s'.worker = s.worker → s'.queue = s.queue →
      who ≠ some (abortHelper s) ∧ abortRank s' = abortRank s ∧ abortHelper s' = abortHelper s := by
    intro habort hworker hqueue
    refine ⟨?_, by rw [abortRank, habort, hworker, hqueue, abortRank],
      by rw [abortHelper, habort, hworker, abortHelper]⟩
    rintro rfl
    obtain ⟨-, hmakes⟩ := h
    unfold abortHelper at hmakes
    split at hmakes
    · exact hmakes.2 hworker
    · exact hmakes.2.2 habort
  rcases h.cases with rfl | hstep
  · exact Or.inr (hstill rfl rfl rfl)
  have habort : s'.abort.remaining ≤ s.abort.remaining := by
    rcases hstep.aborting hidle hunder with hsame | hlt
    · exact (congrArg Abort.remaining hsame).le
    · exact hlt.le
  -- the worker's steps leave less to do, whatever `abort` does in them
  have hworks : 3 * s'.queue.length + s'.worker.toGo < 3 * s.queue.length + s.worker.toGo →
      abortRank s' < abortRank s := by
    intro hlt
    unfold abortRank
    omega
  cases hstep.works with
  | waits hsame hdone hqueue hmore =>
    rw [hmore hacc, List.append_nil] at hqueue
    rcases hstep.aborting hidle hunder with hstays | hlt
    · exact Or.inr (hstill hstays hsame hqueue)
    · refine Or.inl ?_
      simp only [abortRank, hsame, hqueue]
      omega
  | takes hw hq hw' hdone =>
    refine Or.inl (hworks ?_)
    simp only [hw, hq, hw', Crew.toGo, List.length_cons]
    omega
  | finishes hw hw' hdone hqueue =>
    exact Or.inl (hworks (by simp [hw, hw', hqueue, Crew.toGo]))
  | looks hw hw' hdone hqueue =>
    refine Or.inl (hworks ?_)
    rcases hw with hw | hw <;> simp [hw, hw', hqueue, Crew.toGo]
  | sleeps hw hq hs =>
    have hflags : s.stopping = !s.accepting := hguarded.flags
    rw [hs, hacc] at hflags
    cases hflags
  | leaves hw hq hw' hqueue => exact Or.inl (hworks (by simp [hw, hw', hqueue, Crew.toGo]))
  | exits hw hw' hqueue => exact Or.inl (hworks (by simp [hw, hw', hqueue, Crew.toGo]))

/-- What is open is in the cache, and after `abort` nothing is. -/
structure Closed (s : Threads W) : Prop where
  owns : Owns [] s.server.disk
  joinable : s.abort = .idle → s.joinable = true
  emptied : s.abort = .returned → s.server.disk.descriptors = []

theorem closed_start (w : W) (filePoolSize : Int) : (start w filePoolSize).Closed :=
  ⟨owns_start w filePoolSize, fun _ => rfl, nofun⟩

theorem Closed.step (h : s.Closed) (hguarded : s.toBackend.Guarded) (hstep : Step E s s') :
    s'.Closed := by
  have hclosed : Owns [] (s.server.closeAll E).disk ∧ (s.server.closeAll E).disk.descriptors = [] :=
    wp_state.mp (wp_mono (closeAll_owns E (F := StorageError) h.owns) (fun _ _ h => h)
      fun _ _ h => h.elim)
  have hworking : s.worker ≠ .exited → s.abort ≠ .returned := by
    intro hworker hreturned
    exact hworker (worker_gone hguarded (Or.inr hreturned)).1
  cases hstep with
  | @finish entry hw =>
    refine ⟨owns_act E true (.perform entry.closure) h.owns, h.joinable, fun hreturned => ?_⟩
    exact absurd hreturned (hworking (by simp [hw]))
  | workerCloses hw => exact ⟨hclosed.1, h.joinable, fun _ => hclosed.2⟩
  | abort ha hrun => exact ⟨h.owns, by simp, by simp⟩
  | abortAgain ha hacc hjoin =>
    refine ⟨h.owns, by simp, fun _ => h.emptied (ha.resolve_left fun hidle => ?_)⟩
    rw [h.joinable hidle] at hjoin
    cases hjoin
  | notifyAll ha => exact ⟨h.owns, by simp, by simp⟩
  | join ha hw => exact ⟨h.owns, by simp, by simp⟩
  | abortCloses ha => exact ⟨hclosed.1, by simp, fun _ => hclosed.2⟩
  | settingsUpdated filePoolSize => exact ⟨h.owns, h.joinable, h.emptied⟩
  | refuseTorrent params hnew | makeTorrent params hnew =>
    refine ⟨owns_act E true (.newTorrent params) h.owns, h.joinable, fun hreturned => ?_⟩
    have hempty := h.emptied hreturned
    simp only [Server.act]
    split <;> exact hempty
  | _ => exact ⟨h.owns, h.joinable, h.emptied⟩

theorem Steps.closed {w : W} {filePoolSize : Int} (h : Steps E (start w filePoolSize) s) :
    s.Closed := by
  induction h with
  | refl => exact closed_start w filePoolSize
  | step hsteps hstep ih => exact ih.step hsteps.from_start.2.1.invariant.2 hstep

/-! ## Endless executions -/

section Executions

variable (x : Execution (Turn E)) {w : W} {filePoolSize : Int}

/-- What the steps keep, stays. -/
theorem stays {P : Threads W → Prop} {i j : Nat} (hij : i ≤ j) (hi : P (x.state i))
    (hstep : ∀ k, P (x.state k) → Step E (x.state k) (x.state (k + 1)) → P (x.state (k + 1))) :
    P (x.state j) := by
  refine x.onwards hij hi fun k h => ?_
  rcases (x.step k).cases with hsame | hnext
  · rwa [hsame]
  · exact hstep k h hnext

theorem grown {i j : Nat} (hij : i ≤ j) : (x.state i).made <+: (x.state j).made ∧
    (x.state i).accepted <+: (x.state j).accepted ∧ (x.state i).done <+: (x.state j).done ∧
    (x.state i).posted <+: (x.state j).posted := by
  refine stays x (P := fun s => (x.state i).made <+: s.made ∧
    (x.state i).accepted <+: s.accepted ∧ (x.state i).done <+: s.done ∧
    (x.state i).posted <+: s.posted) hij
    ⟨List.prefix_rfl, List.prefix_rfl, List.prefix_rfl, List.prefix_rfl⟩ fun k h hstep => ?_
  obtain ⟨hmade, haccepted, hdone, hposted⟩ := h
  obtain ⟨hmade', hdone', hposted'⟩ := hstep.grows
  exact ⟨hmade.trans hmade', haccepted.trans (Steps.refl.step hstep).accepted,
    hdone.trans hdone', hposted.trans hposted'⟩

theorem Answered.stays {call i j : Nat} (h : (x.state i).Answered call) (hij : i ≤ j) :
    (x.state j).Answered call :=
  ((grown x hij).2.2.2.map Post.call).subset h

variable {x} (hstart : x.state 0 = start w filePoolSize)

theorem off_its_way (hfair : x.Fair) {i call : Nat}
    (hmade : call ∈ (x.state i).made.map Submission.call) :
    ∃ j ≥ i, (x.state j).stages call = [] := by
  have hnears : Nears (Turn E) (fun _ => True)
      (fun s => call ∈ s.made.map Submission.call → s.stages call = [])
      (fun _ => .caller call) (callRank call) := by
    constructor
    · intro s _ hleft
      exact call_enabled (Classical.not_imp.mp hleft).2
    · intro who s s' _ hleft hturn
      obtain ⟨hmade, -⟩ := Classical.not_imp.mp hleft
      have hsame : s'.stages call = s.stages call →
          who ≠ some (.caller call) ∧ callRank call s' = callRank call s := by
        intro hsame
        refine ⟨?_, by rw [callRank, hsame, callRank]⟩
        rintro rfl
        exact hturn.2.2 hsame
      rcases hturn.cases with rfl | hstep
      · exact Or.inr (Or.inr ⟨(hsame rfl).1, rfl, rfl⟩)
      · rcases hstep.flight hmade with hstays | hnearer
        · exact Or.inr (Or.inr ⟨(hsame hstays).1, (hsame hstays).2, rfl⟩)
        · exact Or.inr (Or.inl hnearer)
  obtain ⟨j, hij, hleft⟩ := hnears.reaches x (fun _ => trivial) hfair i
  exact ⟨j, hij, hleft (((grown x hij).1.map Submission.call).subset hmade)⟩

include hstart

theorem reached (i : Nat) : Steps E (start w filePoolSize) (x.state i) :=
  x.always (hstart ▸ .refl) (fun _ _ _ hsteps hturn => hturn.steps hsteps) i

theorem performed (hfair : x.Fair) (i : Nat) :
    ∃ j ≥ i, (x.state i).accepted <+: (x.state j).done := by
  have hnears : Nears (Turn E) (Steps E (start w filePoolSize))
      (fun s => (x.state i).accepted.length ≤ s.accepted.length →
        (x.state i).accepted.length ≤ s.done.length)
      queueHelper (queueRank (x.state i).accepted.length) := by
    constructor
    · intro s hsteps hleft
      obtain ⟨hwell, hreach, -⟩ := hsteps.from_start
      obtain ⟨hn, hleft⟩ := Classical.not_imp.mp hleft
      exact queue_enabled hreach hwell (by omega)
    · intro who s s' hsteps hleft hturn
      obtain ⟨hwell, hreach, -⟩ := hsteps.from_start
      obtain ⟨hn, hleft⟩ := Classical.not_imp.mp hleft
      exact (queue_nearer hreach hwell hn hleft hturn).imp_left fun hdone _ => hdone
  obtain ⟨j, hij, hdone⟩ := hnears.reaches x (reached hstart) hfair i
  obtain ⟨-, haccepted, -, -⟩ := grown x hij
  obtain ⟨hwell, -, -⟩ := (reached hstart j).from_start
  refine ⟨j, hij, List.prefix_of_prefix_length_le haccepted ?_ (hdone haccepted.length_le)⟩
  exact ⟨(x.state j).running ++ (x.state j).queue, hwell.order.symm⟩

theorem answered (hfair : x.Fair) {i call : Nat}
    (hmade : call ∈ (x.state i).made.map Submission.call) :
    ∃ j ≥ i, (x.state j).Answered call := by
  obtain ⟨j, hij, hleft⟩ := off_its_way hfair hmade
  obtain ⟨-, hreach, -⟩ := (reached hstart j).from_start
  have hmade := ((grown x hij).1.map Submission.call).subset hmade
  rcases answered_or_accepted hreach hmade hleft with hanswered | haccepted
  · exact ⟨j, hij, hanswered⟩
  · obtain ⟨k, hjk, hdone⟩ := performed hstart hfair j
    obtain ⟨hwell, hreach, -⟩ := (reached hstart k).from_start
    exact ⟨k, hij.trans hjk,
      answered_of_done hreach hwell ((hdone.filterMap Entry.call).subset haccepted)⟩

/-- There is one moment for any number of calls. -/
theorem all_answered (hfair : x.Fair) (i : Nat) (calls : List Nat)
    (hmade : ∀ call ∈ calls, call ∈ (x.state i).made.map Submission.call) :
    ∃ j ≥ i, ∀ call ∈ calls, (x.state j).Answered call := by
  induction calls with
  | nil => exact ⟨i, le_rfl, fun _ hin => absurd hin List.not_mem_nil⟩
  | cons call rest ih =>
    obtain ⟨hfirst, hrest⟩ := List.forall_mem_cons.mp hmade
    obtain ⟨j, hij, hanswered⟩ := answered hstart hfair hfirst
    obtain ⟨k, hik, hothers⟩ := ih hrest
    refine ⟨max j k, hij.trans (le_max_left j k), List.forall_mem_cons.mpr ⟨?_, ?_⟩⟩
    · exact hanswered.stays x (le_max_left j k)
    · intro other hother
      exact (hothers other hother).stays x (le_max_right j k)

/-- **Every call is answered**, however many others come: from some moment on all calls made by
    now have been told something, and what has been accepted by now has been performed before
    anything that is accepted later. -/
theorem every_call_is_answered (hfair : x.Fair) (i : Nat) :
    ∃ j ≥ i, ∀ k ≥ j, (∀ a ∈ (x.state i).made, (x.state k).Answered a.call) ∧
      (x.state i).accepted <+: (x.state k).done := by
  obtain ⟨j, hij, hanswered⟩ := all_answered hstart hfair i _ fun _ hin => hin
  obtain ⟨j', hij', hdone⟩ := performed hstart hfair i
  refine ⟨max j j', hij.trans (le_max_left j j'), fun k hk => ⟨fun a ha => ?_, ?_⟩⟩
  · exact (hanswered a.call (List.mem_map_of_mem ha)).stays x ((le_max_left j j').trans hk)
  · exact hdone.trans (grown x ((le_max_right j j').trans hk)).2.2.1

/-- **`abort` returns**, whatever is still queued and however many calls still come, and leaves
    nothing behind: from some moment on the worker has exited, all that was accepted has been
    performed, no descriptor is cached and none is open. -/
theorem abort_returns (hfair : x.Fair) {i : Nat} (hcalled : (x.state i).abort ≠ .idle) :
    ∃ j ≥ i, ∀ k ≥ j, let s := x.state k
      s.abort = .returned ∧ s.worker = .exited ∧ s.accepted = s.done ∧
      s.server.disk.descriptors = [] ∧
      (Fresh (ledger s.server.disk.trace) → held (ledger s.server.disk.trace) = []) := by
  have hnears : Nears (Turn E) (Steps E (start w filePoolSize))
      (fun s => s.abort ≠ .idle → s.abort = .returned) abortHelper abortRank := by
    constructor
    · intro s hsteps hunder
      obtain ⟨hidle, hunder⟩ := Classical.not_imp.mp hunder
      exact abort_enabled hsteps.from_start.2.1.invariant.2 hidle hunder
    · intro who s s' hsteps hunder hturn
      obtain ⟨hidle, hunder⟩ := Classical.not_imp.mp hunder
      exact Or.inr (abort_nearer hsteps.from_start.2.1.invariant.2 hidle hunder hturn)
  obtain ⟨j, hij, hreturned⟩ := hnears.reaches x (reached hstart) hfair i
  have hcalled : (x.state j).abort ≠ .idle :=
    stays x (P := fun s => s.abort ≠ .idle) hij hcalled fun _ h hstep => hstep.called_abort h
  refine ⟨j, hij, fun k hjk => ?_⟩
  have hreturned : (x.state k).abort = .returned := by
    refine stays x (P := fun s => s.abort = .returned) hjk (hreturned hcalled) fun l h hstep => ?_
    exact hstep.returned (reached hstart l).from_start.2.1.invariant.2 h
  obtain ⟨hwell, hreach, -⟩ := (reached hstart k).from_start
  obtain ⟨-, hguarded⟩ := hreach.invariant
  obtain ⟨hworker, -⟩ := worker_gone hguarded (Or.inr hreturned)
  have hclosed := (reached hstart k).closed
  have hempty := hclosed.emptied hreturned
  refine ⟨hreturned, hworker, hwell.all_done hguarded (Or.inr hreturned), hempty, ?_⟩
  intro hfresh
  obtain ⟨-, hheld⟩ := hclosed.owns.holds hfresh
  simpa [Disk.cached, hempty] using hheld

end Executions

/-! ### A run that comes to its end -/

/-- A run that leads to the beginning of a fair execution is the beginning of one. -/
theorem Steps.execution (h : Steps E s s') (x : Execution (Turn E)) (hx : x.state 0 = s')
    (hfair : x.Fair) : ∃ y : Execution (Turn E), y.state 0 = s ∧ y.Fair ∧
      ∃ i, ∀ j, y.state (i + j) = x.state j := by
  induction h generalizing x with
  | refl => exact ⟨x, hx, hfair, 0, fun j => by rw [Nat.zero_add]⟩
  | @step middle s'' hsteps hstep ih =>
    obtain ⟨y, hy, hyfair, i, hstates⟩ :=
      ih (x.cons none middle (Or.inr (hx ▸ hstep))) rfl (hfair.cons _)
    refine ⟨y, hy, hyfair, i + 1, fun j => ?_⟩
    rw [Nat.add_right_comm]
    exact hstates (j + 1)

/-- Nobody can go on: the worker has nothing to do, or is gone. -/
theorem halted (hflight : s.inFlight = []) (hqueue : s.queue = [])
    (hworker : s.worker = .asleep ∨ s.worker = .exited)
    (habort : s.abort = .idle ∨ s.abort = .returned) (party : Party) :
    ¬ Enabled (Turn E) party s := by
  rintro ⟨s', hstep, hmakes⟩
  cases party with
  | caller call => exact hmakes.1 (by simp [stages, hflight])
  | submitter => exact hmakes.1 hqueue
  | aborter => exact habort.elim hmakes.1 hmakes.2.1
  | worker =>
    have hexited := hworker.resolve_left hmakes.1
    cases hstep.works with
    | waits hsame hdone hqueue hmore => exact hmakes.2 hsame
    | looks hw hw' hdone hqueue => rcases hw with hw | hw <;> cases hw.symm.trans hexited
    | takes hw | finishes hw | sleeps hw | leaves hw | exits hw => cases hw.symm.trans hexited

/-- A run after which nobody can go on is the beginning of a fair execution. -/
theorem Steps.exists_fair {s₀ : Threads W} (h₀ : Steps E s₀ s) (h : Steps E s s')
    (hhalt : ∀ party, ¬ Enabled (Turn E) party s') :
    ∃ x : Execution (Turn E), x.state 0 = s₀ ∧ x.Fair ∧ ∃ i, x.state i = s := by
  obtain ⟨y, hy, hyfair, -⟩ :=
    h.execution (.idle s' (Or.inl rfl)) rfl (Execution.idle_fair hhalt)
  obtain ⟨x, hx, hfair, i, hstates⟩ := h₀.execution y hy hyfair
  exact ⟨x, hx, hfair, i, (hstates 0).trans hy⟩

namespace Removed

theorem every_call_is_answered_overtaken : ∃ x : Execution (Turn env),
    x.state 0 = start world 2 ∧ ∃ i, x.state i = overtaken ∧ ∃ j ≥ i, (x.state j).Answered 0 := by
  have hrest := ((Steps.refl (E := env) (s := overtaken)).step (.take rfl rfl)).step (.finish rfl)
  have hslept := (hrest.step (.comeBack rfl)).step (.fallAsleep rfl rfl rfl)
  obtain ⟨x, hx, hfair, i, hi⟩ := steps_overtaken.exists_fair hslept
    (halted rfl rfl (Or.inl rfl) (Or.inl rfl))
  obtain ⟨j, hij, hanswered⟩ := every_call_is_answered hx hfair i
  exact ⟨x, hx, i, hi, j, hij, (hanswered j le_rfl).1 read (by simp [hi, overtaken])⟩

/-- `abort` while the read is still in the queue. -/
def aborting : Threads World :=
  { overtaken with accepting := false, stopping := true, abort := .notifying }

theorem abort_returns_aborting : ∃ x : Execution (Turn env), x.state 0 = start world 2 ∧
    ∃ i, x.state i = aborting ∧ ∃ j ≥ i, (x.state j).abort = .returned ∧
      (x.state j).accepted = (x.state j).done ∧ (x.state j).server.disk.descriptors = [] := by
  have haborting : Steps env (start world 2) aborting :=
    steps_overtaken.step (.abort (Or.inl rfl) (Or.inl rfl))
  have hread := (((Steps.refl (E := env) (s := aborting)).step (.notifyAll rfl)).step
    (.take rfl rfl)).step (.finish rfl)
  have hexited := ((hread.step (.comeBack rfl)).step (.leaveLoop rfl rfl rfl)).step
    (.workerCloses rfl)
  have hreturned := (hexited.step (.join rfl fun _ => rfl)).step (.abortCloses rfl)
  obtain ⟨x, hx, hfair, i, hi⟩ := haborting.exists_fair hreturned
    (halted rfl rfl (Or.inr rfl) (Or.inr rfl))
  obtain ⟨j, hij, hstays⟩ := abort_returns hx hfair (i := i) (by simp [hi, aborting])
  obtain ⟨hreturned, -, hdone, hempty, -⟩ := hstays j le_rfl
  exact ⟨x, hx, i, hi, j, hij, hreturned, hdone, hempty⟩

end Removed

end Threads

end Saf
end Libtorrent4j
