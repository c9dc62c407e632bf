import Mathlib.Tactic

/-!
# The work queue

Who hands what to whom. Any number of client threads call `async_*` functions, the worker
thread runs `worker_loop`, one thread calls `abort`, once or several times. What is shared
is the queue and the two flags, and every access to them is one step under
`m_queue_mutex`.

A call is a number. It is looked up, then accepted or refused by `enqueue_or_abort`; its
handler is posted by the operation, by the abort closure, or at once. The condition
variable is part of the model: a worker that finds nothing to do **falls asleep**, and only
a notification (`submit_jobs`, `abort`) or a spurious wake-up makes it look again, because
`enqueue_or_abort` notifies nobody.

`Backend.Step` is the interleaving of all of them. `exactly_once` is the file's point.
-/

namespace Libtorrent4j
namespace Saf

/-- Where a call is that is neither queued nor finished. -/
inductive Phase where
  | called
  /-- The storage is known, and a read has its buffer. -/
  | found
  /-- `enqueue_or_abort` has released the lock without queueing it. -/
  | refused
deriving DecidableEq, Repr

/-- Who posted a handler. -/
inductive Origin where
  | operation | abortClosure | unknownStorage | noBuffer
deriving DecidableEq, Repr

/-- An element of `m_jobs`: a call's operation, or the `close_storage` of `remove_torrent`. -/
inductive Queued where
  | call (n : Nat)
  | closeStorage
deriving DecidableEq, Repr

/-- A bound on the steps a call still takes before it is queued or posted, and on those its
    queue element takes then. -/
def Phase.remaining : Phase → Nat
  | .called => 9
  | .found => 8
  | .refused => 1

inductive Worker where
  /-- Awake, about to look at the queue under the lock. -/
  | looking
  /-- Blocked in `m_queue_condition.wait`. -/
  | asleep
  | running (job : Queued)
  /-- The operation has posted its handler and is about to return. -/
  | returning
  | closing
  | exited
deriving DecidableEq, Repr

inductive Abort where
  | idle | notifying | joining | closing | returned
deriving DecidableEq, Repr

/-- A bound on the steps `abort` still takes, and on those of the worker it wakes. -/
def Abort.remaining : Abort → Nat
  | .notifying => 4
  | .joining => 2
  | .closing => 1
  | .idle | .returned => 0

structure Backend where
  accepting : Bool := true
  stopping : Bool := false
  joinable : Bool := true
  jobs : List Queued := []
  worker : Worker := .looking
  abort : Abort := .idle
  inFlight : List (Nat × Phase) := []
  /-- Ghosts: the calls made, accepted and refused so far, and the handlers posted, each in
      order. -/
  made : List Nat := []
  accepted : List Nat := []
  refused : List Nat := []
  posted : List (Nat × Origin) := []

namespace Backend

/-- The calls among some queue elements. -/
def callsOf : List Queued → List Nat
  | [] => []
  | .call n :: rest => n :: callsOf rest
  | .closeStorage :: rest => callsOf rest

@[simp] theorem callsOf_append (xs ys : List Queued) :
    callsOf (xs ++ ys) = callsOf xs ++ callsOf ys := by
  induction xs with
  | nil => rfl
  | cons x rest ih => cases x <;> simp [callsOf, ih]

/-- The call the worker is running. -/
def runningCalls (s : Backend) : List Nat :=
  match s.worker with
  | .running job => callsOf [job]
  | _ => []

/-- What is posted when an operation ends; a `close_storage` has no handler. -/
def completion : Queued → List (Nat × Origin)
  | .call n => [(n, .operation)]
  | .closeStorage => []

/-- The calls whose operation has posted, in that order. -/
def completed (s : Backend) : List Nat :=
  (s.posted.filter fun post => post.2 = .operation).map Prod.fst

/-- The steps of the backend itself: of a call in progress, of the worker, of `abort`. Each
    takes something nearer its end. -/
inductive Internal : Backend → Backend → Prop
  | unknown {s before n after} (h : s.inFlight = before ++ (n, .called) :: after) :
      Internal s { s with
        inFlight := before ++ after
        posted := s.posted ++ [(n, .unknownStorage)] }
  | lookUp {s before n after} (h : s.inFlight = before ++ (n, .called) :: after) :
      Internal s { s with inFlight := before ++ (n, .found) :: after }
  | noBuffer {s before n after} (h : s.inFlight = before ++ (n, .called) :: after) :
      Internal s { s with
        inFlight := before ++ after
        posted := s.posted ++ [(n, .noBuffer)] }
  | accept {s before n after} (h : s.inFlight = before ++ (n, .found) :: after)
      (ha : s.accepting = true) :
      Internal s { s with
        inFlight := before ++ after
        jobs := s.jobs ++ [.call n]
        accepted := s.accepted ++ [n] }
  | refuse {s before n after} (h : s.inFlight = before ++ (n, .found) :: after)
      (ha : s.accepting = false) :
      Internal s { s with
        inFlight := before ++ (n, .refused) :: after
        refused := s.refused ++ [n] }
  | runAborted {s before n after} (h : s.inFlight = before ++ (n, .refused) :: after) :
      Internal s { s with
        inFlight := before ++ after
        posted := s.posted ++ [(n, .abortClosure)] }
  | take {s job rest} (hw : s.worker = .looking) (hj : s.jobs = job :: rest) :
      Internal s { s with worker := .running job, jobs := rest }
  | finish {s job} (hw : s.worker = .running job) :
      Internal s { s with worker := .returning, posted := s.posted ++ completion job }
  | comeBack {s} (hw : s.worker = .returning) : Internal s { s with worker := .looking }
  | fallAsleep {s} (hw : s.worker = .looking) (hj : s.jobs = []) (hs : s.stopping = false) :
      Internal s { s with worker := .asleep }
  /-- `submit_jobs`, which libtorrent calls after it has queued something. -/
  | submitJobs {s} (hw : s.worker = .asleep) (hj : s.jobs ≠ []) :
      Internal s { s with worker := .looking }
  | leaveLoop {s} (hw : s.worker = .looking) (hj : s.jobs = []) (hs : s.stopping = true) :
      Internal s { s with worker := .closing }
  | workerCloses {s} (hw : s.worker = .closing) : Internal s { s with worker := .exited }
  | notifyAll {s} (ha : s.abort = .notifying) :
      Internal s { s with
        abort := .joining
        worker := if s.worker = .asleep then .looking else s.worker }
  | join {s} (ha : s.abort = .joining) (hw : s.joinable = true → s.worker = .exited) :
      Internal s { s with abort := .closing, joinable := false }
  | abortCloses {s} (ha : s.abort = .closing) : Internal s { s with abort := .returned }

/-- What comes from outside: new calls, `remove_torrent`, `abort`, spurious wake-ups. -/
inductive External : Backend → Backend → Prop
  | call {s} (n : Nat) (h : n ∉ s.made) :
      External s { s with inFlight := (n, .called) :: s.inFlight, made := s.made ++ [n] }
  /-- The calls that look nothing up. -/
  | callDirectly {s} (n : Nat) (h : n ∉ s.made) :
      External s { s with inFlight := (n, .found) :: s.inFlight, made := s.made ++ [n] }
  | removeTorrent {s} :
      External s { s with
        jobs := if s.accepting = true then s.jobs ++ [.closeStorage] else s.jobs }
  | abort {s} (ha : s.abort = .idle ∨ s.abort = .returned)
      (hrun : s.accepting = true ∨ s.joinable = true) :
      External s { s with accepting := false, stopping := true, abort := .notifying }
  | abortAgain {s} (ha : s.abort = .idle ∨ s.abort = .returned) (hacc : s.accepting = false)
      (hjoin : s.joinable = false) : External s { s with abort := .returned }
  | wake {s} (hw : s.worker = .asleep) : External s { s with worker := .looking }

def Step (s s' : Backend) : Prop := Internal s s' ∨ External s s'

/-- The states any interleaving leads to. -/
inductive Reachable : Backend → Prop
  | start : Reachable {}
  | step {s s' : Backend} (h : Reachable s) (hstep : Step s s') : Reachable s'

/-! ## The invariant -/

/-- Where the calls are. -/
structure Placed (s : Backend) : Prop where
  fresh : s.made.Nodup
  /-- Every call made is in exactly one place. -/
  places : ∀ n, s.made.count n = (s.inFlight.map Prod.fst).count n + (callsOf s.jobs).count n +
    s.runningCalls.count n + (s.posted.map Prod.fst).count n
  /-- The queue is first in, first out. -/
  order : s.accepted = s.completed ++ (s.runningCalls ++ callsOf s.jobs)
  /-- A refused call is on its way to its abort closure or has been through it. -/
  refusals : ∀ n, s.refused.count n =
    s.inFlight.count (n, .refused) + s.posted.count (n, .abortClosure)

/-- How the two flags, the worker and `abort` go together. -/
structure Guarded (s : Backend) : Prop where
  flags : s.stopping = !s.accepting
  leaving : s.worker = .closing ∨ s.worker = .exited → s.jobs = [] ∧ s.accepting = false
  aborted : s.abort ≠ .idle → s.accepting = false
  woken : s.worker = .asleep → s.abort = .idle ∨ s.abort = .notifying
  joined : s.joinable = false → s.worker = .exited
  closing : s.abort = .closing ∨ s.abort = .returned → s.joinable = false

theorem placed_start : Placed {} := by
  constructor <;> simp [callsOf, runningCalls, completed]

theorem guarded_start : Guarded {} := by
  constructor <;> simp

/-- A post at once, or by an abort closure: the call leaves its place in flight. -/
theorem Placed.post {s : Backend} (h : Placed s) {before after : List (Nat × Phase)} {n : Nat}
    {phase : Phase} (hin : s.inFlight = before ++ (n, phase) :: after) {origin : Origin}
    (ho : origin ≠ .operation) (hr : phase = .refused ↔ origin = .abortClosure) :
    Placed { s with inFlight := before ++ after, posted := s.posted ++ [(n, origin)] } := by
  refine ⟨h.fresh, fun m => ?_, ?_, fun m => ?_⟩
  · have := h.places m
    simp only [hin, List.map_append, List.map_cons, List.map_nil, List.count_append,
      List.count_cons, List.count_nil, runningCalls] at this ⊢
    omega
  · simpa [completed, runningCalls, ho] using h.order
  · have := h.refusals m
    simp only [hin, List.count_append, List.count_cons, List.count_nil, beq_iff_eq,
      Prod.mk.injEq, hr] at this ⊢
    omega

/-- The worker goes from one place to another, without a job in its hands at either. -/
theorem Placed.moveWorker {s : Backend} (h : Placed s) {worker : Worker}
    (hbefore : s.runningCalls = [])
    (hafter : ({ s with worker := worker } : Backend).runningCalls = []) :
    Placed { s with worker := worker } := by
  refine ⟨h.fresh, fun m => ?_, ?_, h.refusals⟩
  · rw [hafter, ← hbefore]
    exact h.places m
  · rw [hafter, ← hbefore]
    exact h.order

theorem Placed.internal {s s' : Backend} (h : Placed s) (hstep : Internal s s') : Placed s' := by
  cases hstep with
  | unknown hin => exact h.post hin (by simp) (by simp)
  | noBuffer hin => exact h.post hin (by simp) (by simp)
  | runAborted hin => exact h.post hin (by simp) (by simp)
  | @lookUp before n after hin =>
    refine ⟨h.fresh, fun m => ?_, h.order, fun m => ?_⟩
    · have := h.places m
      simpa [hin, runningCalls] using this
    · have := h.refusals m
      simpa [hin, List.count_append, List.count_cons] using this
  | @accept before n after hin ha =>
    -- from flight to the end of the queue
    refine ⟨h.fresh, fun m => ?_, ?_, fun m => ?_⟩
    · have := h.places m
      simp only [hin, callsOf_append, callsOf, List.map_append, List.map_cons, List.count_append,
        List.count_cons, List.count_nil, runningCalls] at this ⊢
      omega
    · simp only [h.order, completed, runningCalls, callsOf_append, callsOf, List.append_assoc]
    · have := h.refusals m
      simpa [hin, List.count_append, List.count_cons] using this
  | @refuse before n after hin ha =>
    -- the call stays in flight, on its way to the abort closure
    refine ⟨h.fresh, fun m => ?_, h.order, fun m => ?_⟩
    · have := h.places m
      simpa [hin, runningCalls] using this
    · have := h.refusals m
      simp [hin, List.count_append, List.count_cons] at this ⊢
      omega
  | @take job rest hw hj =>
    -- from the head of the queue to the worker; a `close_storage` is no call
    refine ⟨h.fresh, fun m => ?_, ?_, h.refusals⟩
    · have := h.places m
      cases job <;>
        simp only [hj, runningCalls, hw, callsOf, List.count_cons, List.count_nil] at this ⊢ <;>
        omega
    · have := h.order
      cases job <;> simpa [hj, runningCalls, hw, callsOf, completed] using this
  | @finish job hw =>
    -- from the worker to the handlers posted
    refine ⟨h.fresh, fun m => ?_, ?_, fun m => ?_⟩
    · have := h.places m
      cases job <;>
        simp only [runningCalls, hw, callsOf, completion, List.map_append, List.map_cons,
          List.map_nil, List.count_append, List.count_cons, List.count_nil] at this ⊢ <;>
        omega
    · have := h.order
      cases job <;> simpa [runningCalls, hw, callsOf, completed, completion] using this
    · have := h.refusals m
      cases job <;> simpa [completion, List.count_append, List.count_cons] using this
  | comeBack hw => exact h.moveWorker (by simp [runningCalls, hw]) rfl
  | fallAsleep hw hj hs => exact h.moveWorker (by simp [runningCalls, hw]) rfl
  | submitJobs hw hj => exact h.moveWorker (by simp [runningCalls, hw]) rfl
  | leaveLoop hw hj hs => exact h.moveWorker (by simp [runningCalls, hw]) rfl
  | workerCloses hw => exact h.moveWorker (by simp [runningCalls, hw]) rfl
  | notifyAll ha =>
    have hjoining : Placed { s with abort := .joining } :=
      ⟨h.fresh, h.places, h.order, h.refusals⟩
    by_cases hw : s.worker = .asleep
    · rw [if_pos hw]
      exact hjoining.moveWorker (by simp [runningCalls, hw]) rfl
    · rw [if_neg hw]
      exact hjoining
  | join ha hw => exact ⟨h.fresh, h.places, h.order, h.refusals⟩
  | abortCloses ha => exact ⟨h.fresh, h.places, h.order, h.refusals⟩

theorem Placed.external {s s' : Backend} (h : Placed s) (hstep : External s s') : Placed s' := by
  have hcall : ∀ n phase, n ∉ s.made → phase ≠ Phase.refused →
      Placed { s with inFlight := (n, phase) :: s.inFlight, made := s.made ++ [n] } := by
    intro n phase hn hphase
    refine ⟨List.nodup_append.mpr ⟨h.fresh, List.nodup_singleton n, ?_⟩, fun m => ?_,
      h.order, fun m => ?_⟩
    · intro a ha b hb hab
      rw [List.mem_singleton] at hb
      exact hn (hb ▸ hab ▸ ha)
    · have := h.places m
      simp only [List.map_cons, List.count_append, List.count_cons, List.count_nil,
        runningCalls] at this ⊢
      omega
    · have := h.refusals m
      simpa [List.count_cons, hphase] using this
  cases hstep with
  | call n hn => exact hcall n _ hn (by simp)
  | callDirectly n hn => exact hcall n _ hn (by simp)
  | removeTorrent =>
    refine ⟨h.fresh, fun m => ?_, ?_, h.refusals⟩
    · have := h.places m
      simp only
      split <;> simpa [runningCalls, callsOf] using this
    · have := h.order
      simp only
      split <;> simpa [runningCalls, completed, callsOf] using this
  | abort ha hrun => exact ⟨h.fresh, h.places, h.order, h.refusals⟩
  | abortAgain ha hacc hjoin => exact ⟨h.fresh, h.places, h.order, h.refusals⟩
  | wake hw => exact h.moveWorker (by simp [runningCalls, hw]) rfl

/-- The worker goes on, or leaves when it may; it has not exited, so `joinable` still holds. -/
theorem Guarded.moveWorker {s : Backend} (h : Guarded s) {worker : Worker}
    (hworking : s.worker ≠ .exited)
    (hleaving : worker = .closing ∨ worker = .exited → s.jobs = [] ∧ s.accepting = false)
    (hwoken : worker = .asleep → s.abort = .idle ∨ s.abort = .notifying) :
    Guarded { s with worker := worker } where
  flags := h.flags
  leaving := hleaving
  aborted := h.aborted
  woken := hwoken
  joined hj := absurd (h.joined hj) hworking
  closing := h.closing

theorem Guarded.internal {s s' : Backend} (h : Guarded s) (hstep : Internal s s') :
    Guarded s' := by
  obtain ⟨hflags, hleaving, haborted, hwoken, hjoined, hclosing⟩ := id h
  cases hstep with
  | unknown | lookUp | noBuffer | refuse | runAborted =>
    exact ⟨hflags, hleaving, haborted, hwoken, hjoined, hclosing⟩
  | accept hin ha =>
    -- while calls are accepted the worker does not leave
    refine ⟨hflags, fun hw => ?_, haborted, hwoken, hjoined, hclosing⟩
    rw [(hleaving hw).2] at ha
    cases ha
  | @take job rest hw hj =>
    have htaken : Guarded { s with jobs := rest } := by
      refine ⟨hflags, fun hw' => ?_, haborted, hwoken, hjoined, hclosing⟩
      rw [(hleaving hw').1] at hj
      cases hj
    exact htaken.moveWorker (by simp [hw]) (by simp) nofun
  | @finish job hw =>
    have hposted : Guarded { s with posted := s.posted ++ completion job } :=
      ⟨hflags, hleaving, haborted, hwoken, hjoined, hclosing⟩
    exact hposted.moveWorker (by simp [hw]) (by simp) nofun
  | comeBack hw => exact h.moveWorker (by simp [hw]) (by simp) nofun
  | submitJobs hw hj => exact h.moveWorker (by simp [hw]) (by simp) nofun
  | fallAsleep hw hj hs =>
    refine h.moveWorker (by simp [hw]) (by simp) fun _ => Or.inl ?_
    -- nothing is to stop, so `abort` has not been called
    by_contra hcalled
    rw [hflags, haborted hcalled] at hs
    cases hs
  | leaveLoop hw hj hs =>
    refine h.moveWorker (by simp [hw]) (fun _ => ⟨hj, ?_⟩) nofun
    rw [hflags] at hs
    simpa using hs
  | workerCloses hw =>
    exact h.moveWorker (by simp [hw]) (fun _ => hleaving (Or.inl hw)) nofun
  | notifyAll ha =>
    have hstopped : s.accepting = false := haborted (by simp [ha])
    refine ⟨hflags, fun hw => ?_, fun _ => hstopped, fun hw => ?_, fun hj => ?_, by simp⟩
    · split at hw
      · simp at hw
      · exact hleaving hw
    · -- nobody is asleep any more
      split at hw
      · cases hw
      · exact absurd hw ‹_›
    · have hexited := hjoined hj
      simp [hexited]
  | join ha hw =>
    have hexited : s.worker = .exited := by
      cases hj : s.joinable with
      | true => exact hw hj
      | false => exact hjoined hj
    refine ⟨hflags, hleaving, fun _ => haborted (by simp [ha]), fun hasleep => ?_,
      fun _ => hexited, fun _ => rfl⟩
    rw [hexited] at hasleep
    cases hasleep
  | abortCloses ha =>
    refine ⟨hflags, hleaving, fun _ => haborted (by simp [ha]), fun hasleep => ?_, hjoined,
      fun _ => hclosing (Or.inl ha)⟩
    rcases hwoken hasleep with hidle | hnotifying
    · rw [ha] at hidle
      cases hidle
    · rw [ha] at hnotifying
      cases hnotifying

theorem Guarded.external {s s' : Backend} (h : Guarded s) (hstep : External s s') :
    Guarded s' := by
  obtain ⟨hflags, hleaving, haborted, hwoken, hjoined, hclosing⟩ := id h
  cases hstep with
  | call | callDirectly => exact ⟨hflags, hleaving, haborted, hwoken, hjoined, hclosing⟩
  | removeTorrent =>
    refine ⟨hflags, fun hw => ?_, haborted, hwoken, hjoined, hclosing⟩
    obtain ⟨hempty, hstopped⟩ := hleaving hw
    exact ⟨by simpa [hstopped] using hempty, hstopped⟩
  | abort ha hrun =>
    refine ⟨rfl, fun hw => ⟨(hleaving hw).1, rfl⟩, fun _ => rfl, fun _ => Or.inr rfl, hjoined, ?_⟩
    simp
  | abortAgain ha hacc hjoin =>
    refine ⟨hflags, hleaving, fun _ => hacc, fun hasleep => ?_, hjoined, fun _ => hjoin⟩
    rw [hjoined hjoin] at hasleep
    cases hasleep
  | wake hw => exact h.moveWorker (by simp [hw]) (by simp) nofun

theorem Reachable.invariant {s : Backend} (h : Reachable s) : Placed s ∧ Guarded s := by
  induction h with
  | start => exact ⟨placed_start, guarded_start⟩
  | step _ hstep ih =>
    rcases hstep with hstep | hstep
    · exact ⟨ih.1.internal hstep, ih.2.internal hstep⟩
    · exact ⟨ih.1.external hstep, ih.2.external hstep⟩

/-! ## Progress

Left to itself the backend comes to rest: every internal step lowers `remaining`, and a
backend without an internal step has posted every call. -/

/-- The steps the worker still takes besides those its queue asks for. -/
def workerRemaining (s : Backend) : Nat :=
  match s.worker with
  | .running _ => 6
  | .returning => 5
  | .looking => if s.jobs = [] ∧ s.stopping = false then 3 else 2
  | .asleep => if s.jobs = [] ∧ s.stopping = false then 2 else 3
  | .closing => 1
  | .exited => 0

def flightRemaining (calls : List (Nat × Phase)) : Nat :=
  (calls.map fun entry => entry.2.remaining).sum

def remaining (s : Backend) : Nat :=
  flightRemaining s.inFlight + 6 * s.jobs.length + s.workerRemaining + s.abort.remaining

@[simp] theorem flightRemaining_insert (before after : List (Nat × Phase)) (n : Nat)
    (phase : Phase) :
    flightRemaining (before ++ (n, phase) :: after) =
      flightRemaining (before ++ after) + phase.remaining := by
  simp only [flightRemaining, List.map_append, List.map_cons, List.sum_append, List.sum_cons]
  omega

theorem Phase.remaining_pos (phase : Phase) : 0 < phase.remaining := by
  cases phase <;> decide

/-- A new queue element costs the worker its six steps and a wake-up. -/
theorem workerRemaining_enqueue (s s' : Backend) (hw : s'.worker = s.worker)
    (hs : s'.stopping = s.stopping) : s'.workerRemaining ≤ s.workerRemaining + 1 := by
  unfold workerRemaining
  rw [hw, hs]
  cases s.worker with
  | looking => simp only; split <;> split <;> omega
  | asleep => simp only; split <;> split <;> omega
  | _ => exact Nat.le_succ _

theorem workerRemaining_notify (s s' : Backend) (hj : s'.jobs = s.jobs)
    (hs : s'.stopping = s.stopping)
    (hw : s'.worker = if s.worker = .asleep then .looking else s.worker) :
    s'.workerRemaining ≤ s.workerRemaining + 1 := by
  unfold workerRemaining
  rw [hw, hj, hs]
  cases s.worker with
  | asleep => simp only [if_true]; split <;> omega
  | _ => exact Nat.le_succ _

theorem Internal.remaining_lt {s s' : Backend} (h : Internal s s') :
    s'.remaining < s.remaining := by
  cases h with
  | @unknown before n after h | @noBuffer before n after h | @runAborted before n after h =>
    have := Phase.remaining_pos
    simp only [remaining, h, flightRemaining_insert]
    refine Nat.add_lt_add_right (Nat.add_lt_add_right (Nat.add_lt_add_right ?_ _) _) _
    exact Nat.lt_add_of_pos_right (this _)
  | lookUp h | refuse h _ =>
    simp only [remaining, h, flightRemaining_insert]
    refine Nat.add_lt_add_right (Nat.add_lt_add_right (Nat.add_lt_add_right ?_ _) _) _
    exact Nat.add_lt_add_left (by decide) _
  | @accept before n after h ha =>
    have hw := workerRemaining_enqueue s { s with
        inFlight := before ++ after
        jobs := s.jobs ++ [.call n]
        accepted := s.accepted ++ [n] } rfl rfl
    have hphase : Phase.found.remaining = 8 := rfl
    simp only [remaining, h, flightRemaining_insert, List.length_append, List.length_cons,
      List.length_nil]
    omega
  | @take job rest hw hj =>
    have hlooking : s.workerRemaining = 2 := by simp [workerRemaining, hw, hj]
    have hrunning : workerRemaining { s with worker := .running job, jobs := rest } = 6 := rfl
    simp only [remaining, hj, hlooking, hrunning, List.length_cons]
    omega
  | finish hw | comeBack hw | fallAsleep hw hj hs | submitJobs hw hj | leaveLoop hw hj hs
  | workerCloses hw =>
    simp_all [remaining, workerRemaining]
    try split <;> omega
  | notifyAll ha =>
    have hw := workerRemaining_notify s { s with
        abort := .joining
        worker := if s.worker = .asleep then .looking else s.worker } rfl rfl rfl
    have hnotifying : s.abort.remaining = 4 := by rw [ha]; rfl
    have hjoining : Abort.joining.remaining = 2 := rfl
    simp only [remaining]
    omega
  | join ha hw | abortCloses ha =>
    simp only [remaining, workerRemaining, ha, Abort.remaining]
    omega

/-- A backend at rest has nothing in flight, queued or running: each of these has a step. -/
theorem at_rest {s : Backend} (hg : Guarded s) (h : ∀ s', ¬ Internal s s') :
    s.inFlight = [] ∧ s.jobs = [] ∧ s.runningCalls = [] := by
  have hflight : s.inFlight = [] := by
    match hin : s.inFlight with
    | [] => rfl
    | (n, .called) :: after => exact absurd (@Internal.lookUp s [] n after hin) (h _)
    | (n, .found) :: after =>
      cases hacc : s.accepting with
      | true => exact absurd (@Internal.accept s [] n after hin hacc) (h _)
      | false => exact absurd (@Internal.refuse s [] n after hin hacc) (h _)
    | (n, .refused) :: after => exact absurd (@Internal.runAborted s [] n after hin) (h _)
  have hjobs : s.worker = .looking ∨ s.worker = .asleep → s.jobs = [] := by
    intro hw
    match hj : s.jobs with
    | [] => rfl
    | job :: rest =>
      rcases hw with hw | hw
      · exact absurd (.take hw hj) (h _)
      · exact absurd (.submitJobs hw (by simp [hj])) (h _)
  refine ⟨hflight, ?_⟩
  cases hw : s.worker with
  | looking => exact ⟨hjobs (.inl hw), by simp [runningCalls, hw]⟩
  | asleep => exact ⟨hjobs (.inr hw), by simp [runningCalls, hw]⟩
  | running job => exact absurd (.finish hw) (h _)
  | returning => exact absurd (.comeBack hw) (h _)
  | closing => exact ⟨(hg.leaving (.inl hw)).1, by simp [runningCalls, hw]⟩
  | exited => exact ⟨(hg.leaving (.inr hw)).1, by simp [runningCalls, hw]⟩

theorem posted_le_made {s : Backend} (h : Placed s) (n : Nat) :
    (s.posted.map Prod.fst).count n ≤ s.made.count n := by
  have := h.places n
  omega

theorem posted_nodup {s : Backend} (h : Placed s) : (s.posted.map Prod.fst).Nodup := by
  refine List.nodup_iff_count_le_one.mpr fun n => ?_
  exact (posted_le_made h n).trans (List.nodup_iff_count_le_one.mp h.fresh n)

/-- A handler posted is posted by the operation exactly if the call was accepted. -/
theorem operation_iff_accepted {s : Backend} (h : Placed s) {n : Nat} {origin : Origin}
    (hpost : (n, origin) ∈ s.posted) : origin = .operation ↔ n ∈ s.accepted := by
  have hmem : n ∈ s.posted.map Prod.fst := List.mem_map_of_mem hpost
  rw [h.order, List.mem_append]
  constructor
  · rintro rfl
    exact .inl (List.mem_map.mpr ⟨_, List.mem_filter.mpr ⟨hpost, by simp⟩, rfl⟩)
  · rintro (hdone | hwaiting)
    · obtain ⟨post, hin, rfl⟩ := List.mem_map.mp hdone
      obtain ⟨hin, horigin⟩ := List.mem_filter.mp hin
      have := List.inj_on_of_nodup_map (posted_nodup h) hpost hin rfl
      rw [← this] at horigin
      simpa using horigin
    · -- still running or queued: then no post of it can be there
      have hplaces := h.places n
      have honce := List.nodup_iff_count_le_one.mp h.fresh n
      have := List.count_pos_iff.mpr hmem
      have := List.count_pos_iff.mpr hwaiting
      rw [List.count_append] at this
      omega

theorem abortClosure_iff_refused {s : Backend} (h : Placed s) {n : Nat} {origin : Origin}
    (hpost : (n, origin) ∈ s.posted) : origin = .abortClosure ↔ n ∈ s.refused := by
  have hmem : n ∈ s.posted.map Prod.fst := List.mem_map_of_mem hpost
  have hrefusals := h.refusals n
  rw [← List.count_pos_iff, hrefusals]
  constructor
  · rintro rfl
    have := List.count_pos_iff.mpr hpost
    omega
  · intro hpos
    by_cases hflight : s.inFlight.count (n, .refused) = 0
    · have hin : (n, Origin.abortClosure) ∈ s.posted := List.count_pos_iff.mp (by omega)
      exact congrArg Prod.snd (List.inj_on_of_nodup_map (posted_nodup h) hpost hin rfl)
    · -- still in flight: then no post of it can be there
      have hin : n ∈ s.inFlight.map Prod.fst :=
        List.mem_map_of_mem (List.count_pos_iff.mp (Nat.pos_of_ne_zero hflight))
      have hplaces := h.places n
      have honce := List.nodup_iff_count_le_one.mp h.fresh n
      have := List.count_pos_iff.mpr hmem
      have := List.count_pos_iff.mpr hin
      omega

/-- **Every call completes exactly once.** In every state any interleaving reaches:

* no handler is posted twice, and none without a call;
* an accepted call's is posted by its operation, a refused call's by its abort closure, and
  any other at once;
* the accepted calls are, in the order of acceptance, those that have posted, the one that
  runs and those that wait;
* once `abort` has returned the queue is empty, the worker has exited and every accepted call
  has posted;
* a backend that has come to rest has posted every call, and left to itself it does come to
  rest. -/
theorem exactly_once {s : Backend} (h : Reachable s) :
    (∀ n, (s.posted.map Prod.fst).count n ≤ s.made.count n ∧ s.made.count n ≤ 1) ∧
    (∀ n origin, (n, origin) ∈ s.posted →
      (origin = .operation ↔ n ∈ s.accepted) ∧ (origin = .abortClosure ↔ n ∈ s.refused)) ∧
    s.accepted = s.completed ++ (s.runningCalls ++ callsOf s.jobs) ∧
    (s.abort = .returned → s.jobs = [] ∧ s.worker = .exited ∧ s.accepted = s.completed) ∧
    ((∀ s', ¬ Internal s s') → ∀ n, (s.posted.map Prod.fst).count n = s.made.count n) ∧
    Acc (fun later earlier => Internal earlier later) s := by
  obtain ⟨hplaced, hguarded⟩ := h.invariant
  refine ⟨fun n => ⟨posted_le_made hplaced n, List.nodup_iff_count_le_one.mp hplaced.fresh n⟩,
    fun n origin hpost => ⟨operation_iff_accepted hplaced hpost,
      abortClosure_iff_refused hplaced hpost⟩, hplaced.order, fun habort => ?_, fun hrest n => ?_,
    ?_⟩
  · have hexited := hguarded.joined (hguarded.closing (.inr habort))
    obtain ⟨hjobs, -⟩ := hguarded.leaving (.inr hexited)
    refine ⟨hjobs, hexited, ?_⟩
    have := hplaced.order
    simpa [runningCalls, hexited, hjobs, callsOf] using this
  · obtain ⟨hflight, hjobs, hrunning⟩ := at_rest hguarded hrest
    have := hplaced.places n
    simpa [hflight, hjobs, hrunning, callsOf] using this.symm
  · refine Subrelation.accessible (fun hstep => hstep.remaining_lt) ?_
    exact (InvImage.wf remaining Nat.lt_wfRel.wf).apply s

/-- Two calls: the first is queued before `abort`, the second comes to the queue after it. -/
def drained : Backend where
  accepting := false
  stopping := true
  joinable := false
  worker := .exited
  abort := .returned
  made := [0, 1]
  accepted := [0]
  refused := [1]
  posted := [(1, .abortClosure), (0, .operation)]

theorem reachable_drained : Reachable drained := by
  have hsecond := (((Reachable.start.step (.inr (.callDirectly 0 (by decide)))).step
    (.inl (@Internal.accept _ [] 0 [] rfl rfl))).step (.inr (.callDirectly 1 (by decide))))
  have habort := hsecond.step (.inr (.abort (.inl rfl) (.inl rfl)))
  have hrefused := (habort.step (.inl (@Internal.refuse _ [] 1 [] rfl rfl))).step
    (.inl (@Internal.runAborted _ [] 1 [] rfl))
  have hran := ((hrefused.step (.inl (.take rfl rfl))).step (.inl (.finish rfl))).step
    (.inl (.comeBack rfl))
  have hexited := (hran.step (.inl (.leaveLoop rfl rfl rfl))).step (.inl (.workerCloses rfl))
  exact ((hexited.step (.inl (.notifyAll rfl))).step (.inl (.join rfl (fun _ => rfl)))).step
    (.inl (.abortCloses rfl))

theorem exactly_once_drained :
    drained.jobs = [] ∧ drained.worker = .exited ∧ drained.accepted = drained.completed :=
  (exactly_once reachable_drained).2.2.2.1 rfl

end Backend

end Saf
end Libtorrent4j
