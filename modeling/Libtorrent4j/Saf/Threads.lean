import Libtorrent4j.Saf.Naming
import Libtorrent4j.Saf.Slots
import Libtorrent4j.Saf.WorkQueue

/-!
# The threads do what one thread would do

`Backend` is who hands what to whom. Here the queue has its closures again, the slots their
storage objects, and the handlers what they are told: any number of client threads look
storages up and enqueue, torrents come and go, settings change, the worker performs what it
has taken, and somebody may call `abort`. A step is what happens under one lock or in one
operation of the worker; `new_torrent` is two, for it makes the storage before it takes the lock.
An operation is one step, so a change of settings takes effect between two of them. In the source
a running operation reads `m_descriptor_limit` again at every `open_file`, and may go on under
another limit than it began with.

**All of it is one thread's work** (`linearizable`): the operations in the order in which the
queue has accepted them, with the other changes in between. No call is moved before another one
that had been answered when it was made. `toBackend` forgets the data again, which gives these
threads everything that is known of the queue.
-/

namespace Libtorrent4j
namespace Saf

open Lib

/-- A call of an `async_*` function; the number stands for its handler. -/
structure Submission where
  call : Nat
  storage : Nat
  job : Job
deriving DecidableEq

/-- An element of `m_jobs`, and the call whose handler it posts: the `close_storage` of a removal
    posts none. -/
structure Entry where
  call : Option Nat
  closure : QueuedJob
deriving DecidableEq

inductive Stage where
  | called
  | found (closure : QueuedJob)
  | refused (closure : QueuedJob)
deriving DecidableEq

structure Pending where
  submission : Submission
  stage : Stage
deriving DecidableEq

/-- A handler that has been posted, by whom and with what. -/
structure Post where
  call : Nat
  origin : Origin
  report : Report
deriving DecidableEq

inductive Crew where
  | looking
  | asleep
  | running (entry : Entry)
  | returning
  | closing
  | exited
deriving DecidableEq

/-- The closure of a call that looks nothing up. -/
def Submission.direct (a : Submission) : Option QueuedJob :=
  match a.job with
  | .releaseFiles | .stopTorrent => some (.release a.storage)
  | .clearPiece piece => some (.clearPiece piece)
  | _ => none

/-- What a read is told when there is no buffer for it. -/
def noBufferReport : Report := .read [] (some { ec := .noMemory, operation := .allocCachePiece })

/-- What is posted when an operation ends. -/
def Entry.posts (entry : Entry) (report : Option Report) : List Post :=
  match entry.call, report with
  | some call, some report => [{ call, origin := .operation, report }]
  | _, _ => []

/-- What changes the server. -/
inductive Change where
  | performed (entry : Entry)
  | settings (filePoolSize : Int)
  | newTorrent (params : StorageParams)
  | closeAll

def Change.entry : Change → Option Entry
  | .performed entry => some entry
  | _ => none

def Change.action : Change → Option Action
  | .performed entry => some (.perform entry.closure)
  | .settings filePoolSize => some (.settings filePoolSize)
  | .newTorrent params => some (.newTorrent params)
  | .closeAll => none

theorem performed_append (changes : List Change) (change : Change) :
    (changes ++ [change]).filterMap Change.entry =
      changes.filterMap Change.entry ++ change.entry.toList := by
  rw [List.filterMap_append]
  cases hentry : change.entry with
  | none => simp [hentry]
  | some entry => simp [hentry]

section Turns

variable {W : Type} (E : Env W)

/-- `close_all`. -/
def Server.closeAll (server : Server W) : Server W :=
  let close : Exec (Disk W) StorageError Unit := Saf.closeAll E
  { server with disk := (close server.disk).2 }

def Server.change (server : Server W) : Change → List Post × Server W
  | .performed entry =>
      (entry.posts (server.perform E true entry.closure).1,
        (server.perform E true entry.closure).2)
  | .settings filePoolSize => ([], server.act E true (.settings filePoolSize))
  | .newTorrent params => ([], server.act E true (.newTorrent params))
  | .closeAll => ([], server.closeAll E)

/-- One thread takes all the changes. -/
def Server.serial (server : Server W) : List Change → List Post × Server W
  | [] => ([], server)
  | change :: rest =>
      let last := (server.change E change).2.serial rest
      ((server.change E change).1 ++ last.1, last.2)

theorem Server.serial_append (server : Server W) (first last : List Change) :
    server.serial E (first ++ last) =
      ((server.serial E first).1 ++ ((server.serial E first).2.serial E last).1,
        ((server.serial E first).2.serial E last).2) := by
  induction first generalizing server with
  | nil => simp [Server.serial]
  | cons change rest ih => simp [Server.serial, ih]

end Turns

structure Threads (W : Type) where
  server : Server W
  torrents : List (Option Nat) := []
  freeStorage : List Nat := []
  /-- The storages that `new_torrent` has made and not yet stored. -/
  unstored : List Nat := []
  queue : List Entry := []
  accepting : Bool := true
  stopping : Bool := false
  joinable : Bool := true
  worker : Crew := .looking
  abort : Abort := .idle
  inFlight : List Pending := []
  /-- Ghosts: the calls made, the elements accepted, the calls refused, the changes of the server
      and the handlers posted, each in order. -/
  made : List Submission := []
  accepted : List Entry := []
  changes : List Change := []
  refused : List Nat := []
  posted : List Post := []

namespace Threads

variable {W : Type}

/-- The two tables under the storage lock. -/
def tables (s : Threads W) : DiskIo W :=
  { server := s.server, torrents := s.torrents, freeStorage := s.freeStorage }

def findStorage (s : Threads W) (storage : Nat) : Option Nat := s.tables.findStorage storage

/-- The element in the worker's hands. -/
def running (s : Threads W) : List Entry :=
  match s.worker with
  | .running entry => [entry]
  | _ => []

/-- The elements performed. -/
def done (s : Threads W) : List Entry := s.changes.filterMap Change.entry

variable (E : Env W)

/-- One step of one thread. -/
inductive Step : Threads W → Threads W → Prop
  | call {s : Threads W} (a : Submission) (hfresh : a.call ∉ s.made.map Submission.call)
      (hlooks : a.direct = none) :
      Step s { s with
        inFlight := ⟨a, .called⟩ :: s.inFlight
        made := s.made ++ [a] }
  | callDirectly {s : Threads W} (a : Submission) {closure : QueuedJob}
      (hfresh : a.call ∉ s.made.map Submission.call) (hdirect : a.direct = some closure) :
      Step s { s with
        inFlight := ⟨a, .found closure⟩ :: s.inFlight
        made := s.made ++ [a] }
  | unknown {s : Threads W} {before after : List Pending} {a : Submission}
      (h : s.inFlight = before ++ ⟨a, .called⟩ :: after) (hnone : s.findStorage a.storage = none) :
      Step s { s with
        inFlight := before ++ after
        posted := s.posted ++ [⟨a.call, .unknownStorage, a.job.aborted⟩] }
  | lookUp {s : Threads W} {before after : List Pending} {a : Submission} {object : Nat}
      (h : s.inFlight = before ++ ⟨a, .called⟩ :: after)
      (hsome : s.findStorage a.storage = some object) :
      Step s { s with inFlight := before ++ ⟨a, .found (.run object a.storage a.job)⟩ :: after }
  | noBuffer {s : Threads W} {before after : List Pending} {a : Submission} {request : Request}
      (h : s.inFlight = before ++ ⟨a, .called⟩ :: after) (hjob : a.job = .read request)
      (hsome : s.findStorage a.storage ≠ none) :
      Step s { s with
        inFlight := before ++ after
        posted := s.posted ++ [⟨a.call, .noBuffer, noBufferReport⟩] }
  | accept {s : Threads W} {before after : List Pending} {a : Submission} {closure : QueuedJob}
      (h : s.inFlight = before ++ ⟨a, .found closure⟩ :: after) (ha : s.accepting = true) :
      Step s { s with
        inFlight := before ++ after
        queue := s.queue ++ [⟨some a.call, closure⟩]
        accepted := s.accepted ++ [⟨some a.call, closure⟩] }
  | refuse {s : Threads W} {before after : List Pending} {a : Submission} {closure : QueuedJob}
      (h : s.inFlight = before ++ ⟨a, .found closure⟩ :: after) (ha : s.accepting = false) :
      Step s { s with
        inFlight := before ++ ⟨a, .refused closure⟩ :: after
        refused := s.refused ++ [a.call] }
  | runAborted {s : Threads W} {before after : List Pending} {a : Submission}
      {closure : QueuedJob} (h : s.inFlight = before ++ ⟨a, .refused closure⟩ :: after) :
      Step s { s with
        inFlight := before ++ after
        posted := s.posted ++ [⟨a.call, .abortClosure, s.server.refused a.job closure⟩] }
  | take {s : Threads W} {entry : Entry} {rest : List Entry} (hw : s.worker = .looking)
      (hq : s.queue = entry :: rest) :
      Step s { s with worker := .running entry, queue := rest }
  | finish {s : Threads W} {entry : Entry} (hw : s.worker = .running entry) :
      Step s { s with
        worker := .returning
        server := (s.server.change E (.performed entry)).2
        changes := s.changes ++ [.performed entry]
        posted := s.posted ++ (s.server.change E (.performed entry)).1 }
  | comeBack {s : Threads W} (hw : s.worker = .returning) : Step s { s with worker := .looking }
  | fallAsleep {s : Threads W} (hw : s.worker = .looking) (hq : s.queue = [])
      (hs : s.stopping = false) : Step s { s with worker := .asleep }
  | submitJobs {s : Threads W} (hw : s.worker = .asleep) (hq : s.queue ≠ []) :
      Step s { s with worker := .looking }
  | wake {s : Threads W} (hw : s.worker = .asleep) : Step s { s with worker := .looking }
  | leaveLoop {s : Threads W} (hw : s.worker = .looking) (hq : s.queue = [])
      (hs : s.stopping = true) : Step s { s with worker := .closing }
  | workerCloses {s : Threads W} (hw : s.worker = .closing) :
      Step s { s with
        worker := .exited
        server := s.server.closeAll E
        changes := s.changes ++ [.closeAll] }
  | abort {s : Threads W} (ha : s.abort = .idle ∨ s.abort = .returned)
      (hrun : s.accepting = true ∨ s.joinable = true) :
      Step s { s with accepting := false, stopping := true, abort := .notifying }
  | abortAgain {s : Threads W} (ha : s.abort = .idle ∨ s.abort = .returned)
      (hacc : s.accepting = false) (hjoin : s.joinable = false) :
      Step s { s with abort := .returned }
  | notifyAll {s : Threads W} (ha : s.abort = .notifying) :
      Step s { s with
        abort := .joining
        worker := if s.worker = .asleep then .looking else s.worker }
  | join {s : Threads W} (ha : s.abort = .joining)
      (hw : s.joinable = true → s.worker = .exited) :
      Step s { s with abort := .closing, joinable := false }
  | abortCloses {s : Threads W} (ha : s.abort = .closing) :
      Step s { s with
        abort := .returned
        server := s.server.closeAll E
        changes := s.changes ++ [.closeAll] }
  /-- Never inside an operation: the one in the worker's hands is performed as a whole, at
      `finish`. -/
  | settingsUpdated {s : Threads W} (filePoolSize : Int) :
      Step s { s with
        server := s.server.act E true (.settings filePoolSize)
        changes := s.changes ++ [.settings filePoolSize] }
  | refuseTorrent {s : Threads W} (params : StorageParams) {e : NewTorrentError}
      (hnew : (TorrentStorage.new E params s.server.disk.world).1 = .error e) :
      Step s { s with
        server := s.server.act E true (.newTorrent params)
        changes := s.changes ++ [.newTorrent params] }
  | makeTorrent {s : Threads W} (params : StorageParams) {t : TorrentStorage}
      (hnew : (TorrentStorage.new E params s.server.disk.world).1 = .ok t) :
      Step s { s with
        server := s.server.act E true (.newTorrent params)
        unstored := s.server.objects.length :: s.unstored
        changes := s.changes ++ [.newTorrent params] }
  | storeTorrent {s : Threads W} {before after : List Nat} {object : Nat}
      (h : s.unstored = before ++ object :: after) :
      Step s { s with
        unstored := before ++ after
        torrents := (s.tables.store object).2.torrents
        freeStorage := (s.tables.store object).2.freeStorage }
  | removeTorrent {s : Threads W} (index : Nat) (hsome : s.findStorage index ≠ none) :
      Step s { s with
        torrents := s.torrents.set index none
        freeStorage := s.freeStorage ++ [index]
        queue := if s.accepting then s.queue ++ [⟨none, .closeStorage index⟩] else s.queue
        accepted :=
          if s.accepting then s.accepted ++ [⟨none, .closeStorage index⟩] else s.accepted }

def start (w : W) (filePoolSize : Int) : Threads W := { server := .start w filePoolSize }

/-- The states any interleaving leads to from another one. -/
inductive Steps (s : Threads W) : Threads W → Prop
  | refl : Steps s s
  | step {s' s'' : Threads W} (h : Steps s s') (hstep : Step E s' s'') : Steps s s''

/-! ## Forgetting the data -/

end Threads

def Stage.phase : Stage → Phase
  | .called => .called
  | .found _ => .found
  | .refused _ => .refused

def Entry.queued (entry : Entry) : Queued :=
  match entry.call with
  | some call => .call call
  | none => .closeStorage

def Crew.worker : Crew → Worker
  | .looking => .looking
  | .asleep => .asleep
  | .running entry => .running entry.queued
  | .returning => .returning
  | .closing => .closing
  | .exited => .exited

def Pending.phased (pending : Pending) : Nat × Phase :=
  (pending.submission.call, pending.stage.phase)

def Post.origins (post : Post) : Nat × Origin := (post.call, post.origin)

namespace Threads

variable {W : Type}

def toBackend (s : Threads W) : Backend where
  accepting := s.accepting
  stopping := s.stopping
  joinable := s.joinable
  jobs := s.queue.map Entry.queued
  worker := s.worker.worker
  abort := s.abort
  inFlight := s.inFlight.map Pending.phased
  made := s.made.map Submission.call
  accepted := s.accepted.filterMap Entry.call
  refused := s.refused
  posted := s.posted.map Post.origins

end Threads

/-! ## What the elements are about -/

/-- The closure is the one the call asks for, on one of the storages built. -/
def QueuedJob.Serves (closure : QueuedJob) (a : Submission) (objects : Nat) : Prop :=
  a.direct = some closure ∨
    a.direct = none ∧ ∃ object < objects, closure = .run object a.storage a.job

/-- The element is that of a call made, or of a removal. -/
def Entry.Serves (entry : Entry) (made : List Submission) (objects : Nat) : Prop :=
  (entry.call = none ∧ ∃ index, entry.closure = .closeStorage index) ∨
    ∃ a ∈ made, entry.call = some a.call ∧ entry.closure.Serves a objects

/-- What is known of a call on its way. -/
def Stage.Serves (stage : Stage) (a : Submission) (objects : Nat) : Prop :=
  match stage with
  | .called => a.direct = none
  | .found closure | .refused closure => closure.Serves a objects

theorem QueuedJob.Serves.mono {closure : QueuedJob} {a : Submission} {n m : Nat}
    (h : closure.Serves a n) (hle : n ≤ m) : closure.Serves a m :=
  h.imp_right fun ⟨hdirect, object, hlt, heq⟩ => ⟨hdirect, object, by omega, heq⟩

theorem Stage.Serves.mono {stage : Stage} {a : Submission} {n m : Nat} (h : stage.Serves a n)
    (hle : n ≤ m) : stage.Serves a m := by
  cases stage with
  | called => exact h
  | found closure | refused closure => exact QueuedJob.Serves.mono h hle

theorem Entry.Serves.mono {entry : Entry} {made more : List Submission} {n m : Nat}
    (h : entry.Serves made n) (hle : n ≤ m) : entry.Serves (made ++ more) m :=
  h.imp_right fun ⟨a, ha, hcall, hserves⟩ => ⟨a, List.mem_append_left _ ha, hcall, hserves.mono hle⟩

section Perform

variable {W : Type} (E : Env W)

theorem perform_objects (server : Server W) (closure : QueuedJob) :
    (server.perform E true closure).2.objects.length = server.objects.length := by
  cases closure with
  | run object storage job =>
    simp only [Server.perform]
    split
    · rfl
    · rw [List.length_set]
  | _ => rfl

/-- The operation of a call reports something. -/
theorem Entry.Serves.posts {entry : Entry} {made : List Submission} {server : Server W}
    (h : entry.Serves made server.objects.length) :
    (entry.posts (server.perform E true entry.closure).1).map Post.origins =
      Backend.completion entry.queued := by
  obtain ⟨call, closure⟩ := entry
  rcases h with ⟨hcall, -⟩ | ⟨a, -, hcall, hserves⟩
  · obtain rfl : call = none := hcall
    rfl
  · obtain rfl : call = some a.call := hcall
    suffices hreport : ∃ report, (server.perform E true closure).1 = some report by
      obtain ⟨report, hreport⟩ := hreport
      simp [Entry.posts, Entry.queued, Post.origins, Backend.completion, hreport]
    rcases hserves with hdirect | ⟨-, object, hlt, rfl⟩
    · unfold Submission.direct at hdirect
      split at hdirect
      · obtain rfl := Option.some.inj hdirect
        exact ⟨_, rfl⟩
      · obtain rfl := Option.some.inj hdirect
        exact ⟨_, rfl⟩
      · obtain rfl := Option.some.inj hdirect
        exact ⟨_, rfl⟩
      · cases hdirect
    · simp only [Server.perform, List.getElem?_eq_getElem hlt]
      exact ⟨_, rfl⟩

/-- The storages stay, each with its files, and others may have come. -/
def Server.Grows (server server' : Server W) : Prop :=
  ∀ (object : Nat) (t : TorrentStorage), server.objects[object]? = some t →
    ∃ t' : TorrentStorage, server'.objects[object]? = some t' ∧ t'.files = t.files

namespace Server.Grows

variable {server server' : Server W}

theorem of_objects (h : server'.objects = server.objects) : server.Grows server' :=
  fun _ t hobject => ⟨t, h ▸ hobject, rfl⟩

theorem length (h : server.Grows server') : server.objects.length ≤ server'.objects.length := by
  by_contra hlt
  have hobject := List.getElem?_eq_getElem (Nat.lt_of_not_le hlt)
  obtain ⟨t', ht', -⟩ := h _ _ hobject
  exact absurd (List.getElem?_eq_some_iff.mp ht').1 (by omega)

/-- A refused call is told the same later on. -/
theorem refused (h : server.Grows server') {closure : QueuedJob} {a : Submission}
    (hserves : closure.Serves a server.objects.length) :
    server'.refused a.job closure = server.refused a.job closure := by
  rcases hserves with hdirect | ⟨-, object, hlt, rfl⟩
  · unfold Submission.direct at hdirect
    split at hdirect <;> cases hdirect <;> rfl
  · obtain ⟨t', ht', hfiles⟩ := h object _ (List.getElem?_eq_getElem hlt)
    simp only [Server.refused, ht', List.getElem?_eq_getElem hlt, TorrentStorage.numFiles, hfiles]

end Server.Grows

theorem act_grows (server : Server W) (action : Action) :
    server.Grows (server.act E true action) := by
  cases action with
  | perform closure =>
    cases closure with
    | run object storage job =>
      simp only [Server.act, Server.perform]
      split
      · exact .of_objects rfl
      · rename_i torrent htorrent
        intro other t hother
        by_cases heq : object = other
        · subst heq
          obtain rfl : torrent = t := Option.some.inj (htorrent.symm.trans hother)
          exact ⟨_, List.getElem?_set_self (List.getElem?_eq_some_iff.mp htorrent).1,
            (runJob_step E true storage job _).files⟩
        · exact ⟨t, (List.getElem?_set_ne heq).trans hother, rfl⟩
    | _ => exact .of_objects rfl
  | settings filePoolSize => exact .of_objects rfl
  | newTorrent params =>
    simp only [Server.act]
    split
    · intro object t hobject
      exact ⟨t, List.getElem?_append_left (List.getElem?_eq_some_iff.mp hobject).1 ▸ hobject, rfl⟩
    · exact .of_objects rfl

/-- So does any change. -/
theorem change_grows (server : Server W) (change : Change) :
    server.Grows (server.change E change).2 := by
  cases change with
  | performed entry => exact act_grows E server (.perform entry.closure)
  | settings filePoolSize => exact act_grows E server (.settings filePoolSize)
  | newTorrent params => exact act_grows E server (.newTorrent params)
  | closeAll => exact .of_objects rfl

theorem act_newTorrent {server : Server W} {params : StorageParams} {t : TorrentStorage}
    (hnew : (TorrentStorage.new E params server.disk.world).1 = .ok t) :
    (server.act E true (.newTorrent params)).objects = server.objects ++ [t] := by
  simp only [Server.act]
  split
  · rename_i t' w hrun
    rw [hrun] at hnew
    rw [Except.ok.inj hnew]
  · rename_i e w hrun
    rw [hrun] at hnew
    cases hnew

end Perform

namespace Threads

variable {W : Type} (E : Env W)

/-! ## The invariant -/

/-- Every element serves its call, and nobody holds a storage that has not been made. -/
structure WellFormed (s : Threads W) : Prop where
  slots : s.tables.Sound
  known : ∀ storage object, s.findStorage storage = some object →
    object < s.server.objects.length
  unstored : ∀ object ∈ s.unstored, object < s.server.objects.length
  pending : ∀ p ∈ s.inFlight,
    p.submission ∈ s.made ∧ p.stage.Serves p.submission s.server.objects.length
  entries : ∀ entry ∈ s.accepted, entry.Serves s.made s.server.objects.length
  order : s.accepted = s.done ++ (s.running ++ s.queue)

theorem wellFormed_start (w : W) (filePoolSize : Int) : (start w filePoolSize).WellFormed := by
  refine ⟨DiskIo.sound_start w filePoolSize, ?_, ?_, ?_, ?_, rfl⟩
  · intro storage object h
    rw [findStorage, DiskIo.findStorage_eq] at h
    simp [tables, start] at h
  · simp [start]
  · simp [start]
  · simp [start]

namespace WellFormed

variable {E} {s s' : Threads W}

/-- A call that leaves its place, or comes to another one. -/
theorem of_flight (h : s.WellFormed) {inFlight : List Pending} {posted : List Post}
    {refused : List Nat} (hmem : ∀ p ∈ inFlight, p ∈ s.inFlight ∨ ∃ q ∈ s.inFlight,
      p.submission = q.submission ∧ p.stage.Serves p.submission s.server.objects.length) :
    WellFormed { s with inFlight, posted, refused } := by
  refine ⟨h.slots, h.known, h.unstored, fun p hp => ?_, h.entries, h.order⟩
  rcases hmem p hp with hin | ⟨q, hq, hsame, hserves⟩
  · exact h.pending p hin
  · exact ⟨hsame ▸ (h.pending q hq).1, hserves⟩

/-- A change of the server: it may have one storage more, the tables stay. -/
theorem of_change (h : s.WellFormed) {server : Server W} {unstored : List Nat} {worker : Crew}
    {abort : Abort} {changes : List Change} {posted : List Post}
    (hobjects : s.server.objects.length ≤ server.objects.length)
    (hunstored : ∀ object ∈ unstored, object ∈ s.unstored ∨ object < server.objects.length)
    (horder : s.accepted = changes.filterMap Change.entry ++
      (({ s with worker := worker } : Threads W).running ++ s.queue)) :
    WellFormed { s with server, unstored, worker, abort, changes, posted } := by
  have hsame : s.tables.SameSlots ({ s with server := server } : Threads W).tables := ⟨rfl, rfl⟩
  refine ⟨hsame.sound h.slots, fun storage object hfind => ?_, fun object hin => ?_,
    fun p hp => ?_, fun entry hentry => ?_, horder⟩
  · have := h.known storage object ((hsame.findStorage storage).symm.trans hfind)
    exact this.trans_le hobjects
  · rcases hunstored object hin with hold | hlt
    · exact (h.unstored object hold).trans_le hobjects
    · exact hlt
  · obtain ⟨hmem, hserves⟩ := h.pending p hp
    exact ⟨hmem, hserves.mono hobjects⟩
  · have hserves : entry.Serves (s.made ++ []) server.objects.length :=
      (h.entries entry hentry).mono hobjects
    rwa [List.append_nil] at hserves

/-- The worker goes from one place to another, without an element in its hands at either. -/
theorem of_worker (h : s.WellFormed) {worker : Crew} (hbefore : s.running = [])
    (hafter : ({ s with worker := worker } : Threads W).running = []) :
    WellFormed { s with worker := worker } := by
  refine h.of_change le_rfl (fun _ hin => Or.inl hin) ?_
  rw [hafter, ← hbefore]
  exact h.order

theorem of_call (h : s.WellFormed) {a : Submission} {stage : Stage}
    (hserves : stage.Serves a s.server.objects.length) :
    WellFormed { s with inFlight := ⟨a, stage⟩ :: s.inFlight, made := s.made ++ [a] } := by
  refine ⟨h.slots, h.known, h.unstored, fun p hp => ?_,
    fun entry hentry => (h.entries entry hentry).mono le_rfl, h.order⟩
  rcases List.mem_cons.mp hp with rfl | hp
  · exact ⟨List.mem_append_right _ (List.mem_singleton_self _), hserves⟩
  · obtain ⟨hmem, hpending⟩ := h.pending p hp
    exact ⟨List.mem_append_left _ hmem, hpending⟩

theorem of_store (h : s.WellFormed) {before after : List Nat} {object : Nat}
    (hin : s.unstored = before ++ object :: after) :
    WellFormed { s with
      unstored := before ++ after
      torrents := (s.tables.store object).2.torrents
      freeStorage := (s.tables.store object).2.freeStorage } := by
  obtain ⟨hsound, -, hfind⟩ := DiskIo.store_spec h.slots object
  have hsame : (s.tables.store object).2.SameSlots (DiskIo.mk s.server
      (s.tables.store object).2.torrents (s.tables.store object).2.freeStorage [] true []) :=
    ⟨rfl, rfl⟩
  refine ⟨hsame.sound hsound, fun storage object' hknown => ?_, fun object' hmem => ?_,
    h.pending, h.entries, h.order⟩
  · have hknown := (hsame.findStorage storage).symm.trans hknown
    rw [hfind] at hknown
    split at hknown
    · obtain rfl := Option.some.inj hknown
      exact h.unstored object (by simp [hin])
    · exact h.known storage object' hknown
  · refine h.unstored object' ?_
    rw [hin]
    rcases List.mem_append.mp hmem with hmem | hmem
    · exact List.mem_append_left _ hmem
    · exact List.mem_append_right _ (List.mem_cons_of_mem _ hmem)

theorem of_removal (h : s.WellFormed) {index : Nat} (hsome : s.findStorage index ≠ none) :
    WellFormed { s with
      torrents := s.torrents.set index none
      freeStorage := s.freeStorage ++ [index]
      queue := if s.accepting then s.queue ++ [⟨none, .closeStorage index⟩] else s.queue
      accepted :=
        if s.accepting then s.accepted ++ [⟨none, .closeStorage index⟩] else s.accepted } := by
  obtain ⟨object, hobject⟩ := Option.ne_none_iff_exists'.mp hsome
  obtain ⟨hsound, hfind⟩ := DiskIo.removeTorrent_spec h.slots index
  let vacated : DiskIo W := { s.tables with
    torrents := s.torrents.set index none
    freeStorage := s.freeStorage ++ [index] }
  have hvacated : s.tables.removeTorrent index = vacated.enqueue (.closeStorage index) :=
    DiskIo.removeTorrent_of_some hobject
  have hsame : (s.tables.removeTorrent index).SameSlots vacated := by
    rw [hvacated]
    obtain ⟨htorrents, hfree⟩ := vacated.sameSlots_enqueue (.closeStorage index)
    exact ⟨htorrents.symm, hfree.symm⟩
  refine ⟨hsame.sound hsound, fun storage object' hknown => ?_, h.unstored, h.pending,
    fun entry hentry => ?_, ?_⟩
  · have hknown := (hsame.findStorage storage).symm.trans hknown
    rw [hfind] at hknown
    split at hknown
    · cases hknown
    · exact h.known storage object' hknown
  · dsimp only at hentry
    split at hentry
    · rcases List.mem_append.mp hentry with hold | hnew
      · exact h.entries entry hold
      · obtain rfl := List.mem_singleton.mp hnew
        exact Or.inl ⟨rfl, index, rfl⟩
    · exact h.entries entry hentry
  · dsimp only
    split
    · rw [h.order]
      simp [running, done]
    · exact h.order

theorem step (h : s.WellFormed) (hstep : Step E s s') : s'.WellFormed := by
  have hleft : ∀ {before after : List Pending} {p : Pending},
      s.inFlight = before ++ p :: after → ∀ q ∈ before ++ after, q ∈ s.inFlight := by
    intro before after p hin q hq
    rw [hin]
    rcases List.mem_append.mp hq with hq | hq
    · exact List.mem_append_left _ hq
    · exact List.mem_append_right _ (List.mem_cons_of_mem _ hq)
  have hmoved : ∀ {before after : List Pending} {a : Submission} {stage stage' : Stage},
      s.inFlight = before ++ ⟨a, stage⟩ :: after →
      stage'.Serves a s.server.objects.length →
      ∀ p ∈ before ++ ⟨a, stage'⟩ :: after, p ∈ s.inFlight ∨ ∃ q ∈ s.inFlight,
        p.submission = q.submission ∧ p.stage.Serves p.submission s.server.objects.length := by
    intro before after a stage stage' hin hserves p hp
    rcases List.mem_append.mp hp with hp | hp
    · exact Or.inl (hleft hin p (List.mem_append_left _ hp))
    · rcases List.mem_cons.mp hp with rfl | hp
      · exact Or.inr ⟨⟨a, stage⟩, by simp [hin], rfl, hserves⟩
      · exact Or.inl (hleft hin p (List.mem_append_right _ hp))
  cases hstep with
  | call a hfresh hlooks => exact h.of_call hlooks
  | callDirectly a hfresh hdirect => exact h.of_call (Or.inl hdirect)
  | unknown hin hnone => exact h.of_flight fun p hp => Or.inl (hleft hin p hp)
  | noBuffer hin hjob hsome => exact h.of_flight fun p hp => Or.inl (hleft hin p hp)
  | runAborted hin => exact h.of_flight fun p hp => Or.inl (hleft hin p hp)
  | @lookUp before after a object hin hsome =>
    obtain ⟨-, hlooks⟩ := h.pending ⟨a, .called⟩ (by simp [hin])
    exact h.of_flight (hmoved hin (Or.inr ⟨hlooks, object, h.known _ _ hsome, rfl⟩))
  | @accept before after a closure hin ha =>
    obtain ⟨hmem, hserves⟩ := h.pending ⟨a, .found closure⟩ (by simp [hin])
    refine ⟨h.slots, h.known, h.unstored, fun p hp => h.pending p (hleft hin p hp),
      fun entry hentry => ?_, ?_⟩
    · rcases List.mem_append.mp hentry with hold | hnew
      · exact h.entries entry hold
      · obtain rfl := List.mem_singleton.mp hnew
        exact Or.inr ⟨a, hmem, rfl, hserves⟩
    · have := h.order
      simp [running, done, this]
  | @refuse before after a closure hin ha =>
    exact h.of_flight (hmoved hin (h.pending ⟨a, .found closure⟩ (by simp [hin])).2)
  | take hw hq =>
    refine ⟨h.slots, h.known, h.unstored, h.pending, h.entries, ?_⟩
    simpa [running, done, hw, hq] using h.order
  | @finish entry hw =>
    refine h.of_change (act_grows E s.server (.perform entry.closure)).length
      (fun _ hin => Or.inl hin) ?_
    rw [performed_append]
    simpa [running, done, hw, Change.entry] using h.order
  | comeBack hw => exact h.of_worker (by simp [running, hw]) rfl
  | fallAsleep hw hq hs => exact h.of_worker (by simp [running, hw]) rfl
  | submitJobs hw hq => exact h.of_worker (by simp [running, hw]) rfl
  | wake hw => exact h.of_worker (by simp [running, hw]) rfl
  | leaveLoop hw hq hs => exact h.of_worker (by simp [running, hw]) rfl
  | workerCloses hw =>
    refine h.of_change le_rfl (fun _ hin => Or.inl hin) ?_
    rw [performed_append]
    simpa [running, done, hw, Change.entry] using h.order
  | abort ha hrun => exact ⟨h.slots, h.known, h.unstored, h.pending, h.entries, h.order⟩
  | abortAgain ha hacc hjoin =>
    exact ⟨h.slots, h.known, h.unstored, h.pending, h.entries, h.order⟩
  | notifyAll ha =>
    refine h.of_change le_rfl (fun _ hin => Or.inl hin) (h.order.trans ?_)
    by_cases hw : s.worker = .asleep
    · simp [running, done, hw]
    · simp [running, done, hw]
  | join ha hw => exact ⟨h.slots, h.known, h.unstored, h.pending, h.entries, h.order⟩
  | abortCloses ha =>
    refine h.of_change le_rfl (fun _ hin => Or.inl hin) ?_
    rw [performed_append]
    simpa [running, done, Change.entry] using h.order
  | settingsUpdated filePoolSize =>
    refine h.of_change le_rfl (fun _ hin => Or.inl hin) ?_
    rw [performed_append]
    simpa [running, done, Change.entry] using h.order
  | refuseTorrent params hnew =>
    refine h.of_change (act_grows E s.server (.newTorrent params)).length (fun _ hin => Or.inl hin)
      ?_
    rw [performed_append]
    simpa [running, done, Change.entry] using h.order
  | makeTorrent params hnew =>
    have hobjects := act_newTorrent E hnew
    refine h.of_change (act_grows E s.server (.newTorrent params)).length (fun object hin => ?_) ?_
    · rcases List.mem_cons.mp hin with rfl | hin
      · exact Or.inr (by simp [hobjects])
      · exact Or.inl hin
    · rw [performed_append]
      simpa [running, done, Change.entry] using h.order
  | storeTorrent hin => exact h.of_store hin
  | removeTorrent index hsome => exact h.of_removal hsome

end WellFormed

/-! ## The queue without the data -/

/-- Where a call is, with the data and without. -/
theorem phased {s : Threads W} {before after : List Pending} {p : Pending}
    (h : s.inFlight = before ++ p :: after) :
    s.toBackend.inFlight = before.map Pending.phased ++ p.phased :: after.map Pending.phased := by
  simp [toBackend, h]

/-- Without the data a step is a step of the queue, or none of its business. -/
theorem toBackend_step {s s' : Threads W} (h : s.WellFormed) (hstep : Step E s s') :
    s'.toBackend = s.toBackend ∨ Backend.Step s.toBackend s'.toBackend := by
  cases hstep with
  | call a hfresh hlooks =>
    refine Or.inr (Or.inr ?_)
    simpa [toBackend, Pending.phased, Stage.phase] using
      Backend.External.call (s := s.toBackend) a.call hfresh
  | callDirectly a hfresh hdirect =>
    refine Or.inr (Or.inr ?_)
    simpa [toBackend, Pending.phased, Stage.phase] using
      Backend.External.callDirectly (s := s.toBackend) a.call hfresh
  | unknown hin hnone =>
    refine Or.inr (Or.inl ?_)
    simpa [toBackend, Post.origins] using Backend.Internal.unknown (phased hin)
  | noBuffer hin hjob hsome =>
    refine Or.inr (Or.inl ?_)
    simpa [toBackend, Post.origins] using Backend.Internal.noBuffer (phased hin)
  | lookUp hin hsome =>
    refine Or.inr (Or.inl ?_)
    simpa [toBackend, Pending.phased, Stage.phase] using Backend.Internal.lookUp (phased hin)
  | accept hin ha =>
    refine Or.inr (Or.inl ?_)
    simpa [toBackend, Entry.queued] using Backend.Internal.accept (phased hin) ha
  | refuse hin ha =>
    refine Or.inr (Or.inl ?_)
    simpa [toBackend, Pending.phased, Stage.phase] using Backend.Internal.refuse (phased hin) ha
  | runAborted hin =>
    refine Or.inr (Or.inl ?_)
    simpa [toBackend, Post.origins] using Backend.Internal.runAborted (phased hin)
  | @take entry rest hw hq =>
    refine Or.inr (Or.inl ?_)
    exact @Backend.Internal.take s.toBackend entry.queued (rest.map Entry.queued)
      (by simp [toBackend, hw, Crew.worker]) (by simp [toBackend, hq])
  | @finish entry hw =>
    refine Or.inr (Or.inl ?_)
    -- the element in the worker's hands has been accepted, so its call is told something
    have hserves := h.entries entry (by simp [h.order, running, hw])
    have hposts := hserves.posts E
    have hfinish := @Backend.Internal.finish s.toBackend entry.queued
      (by simp [toBackend, hw, Crew.worker])
    rw [← hposts] at hfinish
    simpa [toBackend, Crew.worker, Server.change] using hfinish
  | comeBack hw =>
    exact Or.inr (Or.inl (Backend.Internal.comeBack (by simp [toBackend, hw, Crew.worker])))
  | fallAsleep hw hq hs =>
    exact Or.inr (Or.inl (Backend.Internal.fallAsleep (by simp [toBackend, hw, Crew.worker])
      (by simp [toBackend, hq]) hs))
  | submitJobs hw hq =>
    exact Or.inr (Or.inl (Backend.Internal.submitJobs (by simp [toBackend, hw, Crew.worker])
      (by simpa [toBackend] using hq)))
  | wake hw => exact Or.inr (Or.inr (Backend.External.wake (by simp [toBackend, hw, Crew.worker])))
  | leaveLoop hw hq hs =>
    exact Or.inr (Or.inl (Backend.Internal.leaveLoop (by simp [toBackend, hw, Crew.worker])
      (by simp [toBackend, hq]) hs))
  | workerCloses hw =>
    exact Or.inr (Or.inl (Backend.Internal.workerCloses (by simp [toBackend, hw, Crew.worker])))
  | abort ha hrun => exact Or.inr (Or.inr (Backend.External.abort ha hrun))
  | abortAgain ha hacc hjoin => exact Or.inr (Or.inr (Backend.External.abortAgain ha hacc hjoin))
  | notifyAll ha =>
    refine Or.inr (Or.inl ?_)
    have := Backend.Internal.notifyAll (s := s.toBackend) ha
    cases hw : s.worker <;> simpa [toBackend, hw, Crew.worker] using this
  | join ha hw =>
    refine Or.inr (Or.inl (Backend.Internal.join ha fun hjoin => ?_))
    simp [toBackend, hw hjoin, Crew.worker]
  | abortCloses ha => exact Or.inr (Or.inl (Backend.Internal.abortCloses ha))
  | settingsUpdated filePoolSize => exact Or.inl rfl
  | refuseTorrent params hnew => exact Or.inl rfl
  | makeTorrent params hnew => exact Or.inl rfl
  | storeTorrent hin => exact Or.inl rfl
  | removeTorrent index hsome =>
    refine Or.inr (Or.inr ?_)
    have := Backend.External.removeTorrent (s := s.toBackend)
    cases ha : s.accepting <;> simpa [toBackend, ha, Entry.queued] using this

/-- Once `abort` has joined the worker, it is gone and the queue is empty. -/
theorem worker_gone {s : Threads W} (h : s.toBackend.Guarded)
    (habort : s.abort = .closing ∨ s.abort = .returned) : s.worker = .exited ∧ s.queue = [] := by
  have hexited : s.worker.worker = .exited := h.joined (h.closing habort)
  constructor
  · cases hw : s.worker <;> simp [hw, Crew.worker] at hexited ⊢
  · exact List.map_eq_nil_iff.mp (h.leaving (Or.inr hexited)).1

/-- Then all that was accepted has been performed. -/
theorem WellFormed.all_done {s : Threads W} (hwell : s.WellFormed) (h : s.toBackend.Guarded)
    (habort : s.abort = .closing ∨ s.abort = .returned) : s.accepted = s.done := by
  obtain ⟨hworker, hqueue⟩ := worker_gone h habort
  have horder := hwell.order
  rw [hqueue, running, hworker] at horder
  simpa using horder

/-! ## One thread would have done the same -/

end Threads

section Early

variable {W : Type}

/-- What a handler is told that no operation has posted: the storage was unknown, the queue took
    no more, or a read found no buffer. -/
def Post.AnswersEarly (post : Post) (made : List Submission) (server : Server W) : Prop :=
  ∃ a ∈ made, a.call = post.call ∧
    (post.origin = .unknownStorage ∧ post.report = a.job.aborted ∨
      (post.origin = .abortClosure ∧ ∃ closure : QueuedJob,
        closure.Serves a server.objects.length ∧ post.report = server.refused a.job closure) ∨
      post.origin = .noBuffer ∧ post.report = noBufferReport ∧ ∃ request, a.job = .read request)

theorem Post.AnswersEarly.mono {post : Post} {made more : List Submission}
    {server server' : Server W} (h : post.AnswersEarly made server)
    (hgrows : server.Grows server') :
    post.AnswersEarly (made ++ more) server' := by
  obtain ⟨a, ha, hcall, hanswer⟩ := h
  refine ⟨a, List.mem_append_left _ ha, hcall, hanswer.imp_right fun hlate => ?_⟩
  refine hlate.imp_left fun ⟨horigin, closure, hserves, hreport⟩ => ?_
  exact ⟨horigin, closure, hserves.mono hgrows.length, hreport.trans (hgrows.refused hserves).symm⟩

end Early

def Post.ofOperation (post : Post) : Bool := post.origin = .operation

theorem Entry.posts_ofOperation (entry : Entry) (report : Option Report) :
    (entry.posts report).filter Post.ofOperation = entry.posts report := by
  unfold Entry.posts
  split <;> simp [Post.ofOperation]

namespace Threads

variable {W : Type} (E : Env W)

/-- The server and the handlers are those of one thread that takes the changes. -/
structure Serial (server : Server W) (s : Threads W) : Prop where
  state : s.server = (server.serial E s.changes).2
  posted : s.posted.filter Post.ofOperation = (server.serial E s.changes).1
  early : ∀ post ∈ s.posted, post.ofOperation = false → post.AnswersEarly s.made s.server
  /-- Nobody closes everything as long as the worker is at work. -/
  closed : s.worker ≠ .exited → .closeAll ∉ s.changes

theorem serial_start (w : W) (filePoolSize : Int) :
    Serial E (.start w filePoolSize) (start w filePoolSize) :=
  ⟨rfl, rfl, fun _ hpost => absurd hpost List.not_mem_nil,
    fun _ hclosed => absurd hclosed List.not_mem_nil⟩

namespace Serial

variable {E} {server : Server W} {s s' : Threads W}

/-- A step that is no change: what it posts is no operation's. -/
theorem of_quiet (h : Serial E server s) (hserver : s'.server = s.server)
    (hchanges : s'.changes = s.changes) (hexited : s'.worker = .exited ↔ s.worker = .exited)
    (hmade : ∃ more, s'.made = s.made ++ more) {posts : List Post}
    (hposted : s'.posted = s.posted ++ posts)
    (hposts : ∀ post ∈ posts, post.ofOperation = false ∧ post.AnswersEarly s.made s.server) :
    Serial E server s' := by
  obtain ⟨more, hmade⟩ := hmade
  have hmore : ∀ post : Post, post.AnswersEarly s.made s.server →
      post.AnswersEarly s'.made s'.server := by
    intro post hanswers
    rw [hmade, hserver]
    exact hanswers.mono (.of_objects rfl)
  refine ⟨by rw [hserver, hchanges, h.state], ?_, fun post hpost hearly => ?_, ?_⟩
  · have hnone : posts.filter Post.ofOperation = [] := by
      rw [List.filter_eq_nil_iff]
      intro post hpost
      simp [(hposts post hpost).1]
    rw [hposted, List.filter_append, hnone, List.append_nil, hchanges, h.posted]
  · rw [hposted] at hpost
    rcases List.mem_append.mp hpost with hold | hnew
    · exact hmore post (h.early post hold hearly)
    · exact hmore post (hposts post hnew).2
  · rw [hchanges, Ne, hexited]
    exact h.closed

theorem of_silent (h : Serial E server s) (hserver : s'.server = s.server)
    (hchanges : s'.changes = s.changes) (hexited : s'.worker = .exited ↔ s.worker = .exited)
    (hmade : ∃ more, s'.made = s.made ++ more) (hposted : s'.posted = s.posted) :
    Serial E server s' := by
  refine h.of_quiet hserver hchanges hexited hmade (hposted.trans (List.append_nil _).symm) ?_
  intro post hpost
  exact absurd hpost List.not_mem_nil

/-- A change. -/
theorem of_change (h : Serial E server s) (change : Change)
    (hserver : s'.server = (s.server.change E change).2)
    (hchanges : s'.changes = s.changes ++ [change]) (hmade : s'.made = s.made)
    (hposted : s'.posted = s.posted ++ (s.server.change E change).1)
    (hclosed : s'.worker ≠ .exited → s.worker ≠ .exited ∧ change ≠ .closeAll) :
    Serial E server s' := by
  have hof :
      (s.server.change E change).1.filter Post.ofOperation = (s.server.change E change).1 := by
    cases change with
    | performed entry => exact entry.posts_ofOperation _
    | settings filePoolSize => rfl
    | newTorrent params => rfl
    | closeAll => rfl
  refine ⟨?_, ?_, fun post hpost hearly => ?_, fun hexited hmem => ?_⟩
  · rw [hserver, hchanges, Server.serial_append, ← h.state]
    rfl
  · rw [hposted, List.filter_append, hof, h.posted, hchanges, Server.serial_append, ← h.state]
    simp [Server.serial]
  · rw [hposted] at hpost
    rw [hmade, hserver]
    rcases List.mem_append.mp hpost with hold | hnew
    · have hanswers : post.AnswersEarly (s.made ++ []) (s.server.change E change).2 :=
        (h.early post hold hearly).mono (change_grows E s.server change)
      rwa [List.append_nil] at hanswers
    · rw [← hof, List.mem_filter, hearly] at hnew
      exact absurd hnew.2 (by simp)
  · obtain ⟨hworking, hne⟩ := hclosed hexited
    rw [hchanges] at hmem
    rcases List.mem_append.mp hmem with hold | hnew
    · exact h.closed hworking hold
    · exact hne (List.mem_singleton.mp hnew).symm

theorem step (h : Serial E server s) (hwell : s.WellFormed) (hguarded : s.toBackend.Guarded)
    (hstep : Step E s s') : Serial E server s' := by
  have hsame : ∃ more, s.made = s.made ++ more := ⟨[], (List.append_nil _).symm⟩
  have hnone : ∀ posted : List Post, posted = posted ++ [] := fun _ => (List.append_nil _).symm
  have hpending : ∀ {before after : List Pending} {a : Submission} {stage : Stage},
      s.inFlight = before ++ ⟨a, stage⟩ :: after → a ∈ s.made := by
    intro before after a stage hin
    exact (hwell.pending ⟨a, stage⟩ (by simp [hin])).1
  cases hstep with
  | call a hfresh hlooks => exact h.of_silent rfl rfl Iff.rfl ⟨[a], rfl⟩ rfl
  | callDirectly a hfresh hdirect => exact h.of_silent rfl rfl Iff.rfl ⟨[a], rfl⟩ rfl
  | @unknown before after a hin hunknown =>
    refine h.of_quiet rfl rfl Iff.rfl hsame rfl fun post hpost => ?_
    obtain rfl := List.mem_singleton.mp hpost
    exact ⟨rfl, a, hpending hin, rfl, Or.inl ⟨rfl, rfl⟩⟩
  | @noBuffer before after a request hin hjob hsome =>
    refine h.of_quiet rfl rfl Iff.rfl hsame rfl fun post hpost => ?_
    obtain rfl := List.mem_singleton.mp hpost
    exact ⟨rfl, a, hpending hin, rfl, Or.inr (Or.inr ⟨rfl, rfl, request, hjob⟩)⟩
  | @runAborted before after a closure hin =>
    have hserves := (hwell.pending ⟨a, .refused closure⟩ (by simp [hin])).2
    refine h.of_quiet rfl rfl Iff.rfl hsame rfl fun post hpost => ?_
    obtain rfl := List.mem_singleton.mp hpost
    exact ⟨rfl, a, hpending hin, rfl, Or.inr (Or.inl ⟨rfl, closure, hserves, rfl⟩)⟩
  | lookUp hin hsome => exact h.of_silent rfl rfl Iff.rfl hsame rfl
  | accept hin ha => exact h.of_silent rfl rfl Iff.rfl hsame rfl
  | refuse hin ha => exact h.of_silent rfl rfl Iff.rfl hsame rfl
  | take hw hq => exact h.of_silent rfl rfl (by simp [hw]) hsame rfl
  | @finish entry hw =>
    exact h.of_change (.performed entry) rfl rfl rfl rfl fun _ => ⟨by simp [hw], nofun⟩
  | comeBack hw => exact h.of_silent rfl rfl (by simp [hw]) hsame rfl
  | fallAsleep hw hq hs => exact h.of_silent rfl rfl (by simp [hw]) hsame rfl
  | submitJobs hw hq => exact h.of_silent rfl rfl (by simp [hw]) hsame rfl
  | wake hw => exact h.of_silent rfl rfl (by simp [hw]) hsame rfl
  | leaveLoop hw hq hs => exact h.of_silent rfl rfl (by simp [hw]) hsame rfl
  | workerCloses hw =>
    exact h.of_change .closeAll rfl rfl rfl (hnone _) fun hexited => absurd rfl hexited
  | abort ha hrun => exact h.of_silent rfl rfl Iff.rfl hsame rfl
  | abortAgain ha hacc hjoin => exact h.of_silent rfl rfl Iff.rfl hsame rfl
  | notifyAll ha =>
    refine h.of_silent rfl rfl ?_ hsame rfl
    by_cases hw : s.worker = .asleep
    · simp [hw]
    · simp [hw]
  | join ha hw => exact h.of_silent rfl rfl Iff.rfl hsame rfl
  | abortCloses ha =>
    -- `abort` closes everything only after it has joined the worker
    obtain ⟨hworker, -⟩ := worker_gone hguarded (Or.inl ha)
    exact h.of_change .closeAll rfl rfl rfl (hnone _) fun hexited => absurd hworker hexited
  | settingsUpdated filePoolSize =>
    exact h.of_change (.settings filePoolSize) rfl rfl rfl (hnone _) fun hexited => ⟨hexited, nofun⟩
  | refuseTorrent params hnew =>
    exact h.of_change (.newTorrent params) rfl rfl rfl (hnone _) fun hexited => ⟨hexited, nofun⟩
  | makeTorrent params hnew =>
    exact h.of_change (.newTorrent params) rfl rfl rfl (hnone _) fun hexited => ⟨hexited, nofun⟩
  | storeTorrent hin => exact h.of_silent rfl rfl Iff.rfl hsame rfl
  | removeTorrent index hsome => exact h.of_silent rfl rfl Iff.rfl hsame rfl

end Serial

/-! ## Any interleaving -/

/-- Where any interleaving leads to. -/
theorem Steps.from_start {E : Env W} {w : W} {filePoolSize : Int} {s : Threads W}
    (h : Steps E (start w filePoolSize) s) :
    s.WellFormed ∧ Backend.Reachable s.toBackend ∧ Serial E (.start w filePoolSize) s := by
  induction h with
  | refl => exact ⟨wellFormed_start w filePoolSize, .start, serial_start E w filePoolSize⟩
  | step _ hstep ih =>
    obtain ⟨hwell, hreach, hserial⟩ := ih
    refine ⟨hwell.step hstep, ?_, hserial.step hwell hreach.invariant.2 hstep⟩
    rcases toBackend_step E hwell hstep with hsame | hnext
    · rw [hsame]
      exact hreach
    · exact hreach.step hnext

/-- What has been accepted stays accepted, and comes first. -/
theorem Steps.accepted {E : Env W} {s s' : Threads W} (h : Steps E s s') :
    s.accepted <+: s'.accepted := by
  induction h with
  | refl => exact List.prefix_rfl
  | step _ hstep ih =>
    refine ih.trans ?_
    cases hstep with
    | accept hin ha => exact List.prefix_append _ _
    | removeTorrent index hsome =>
      dsimp only
      split
      · exact List.prefix_append _ _
      · exact List.prefix_rfl
    | _ => exact List.prefix_rfl

namespace Removed

def params : StorageParams where
  files := FileStorage.ofEntries [{ size := 3, pad := false }] 4
  filePath _ := str "a"
  path := flowSessionRoot
  priorities := []
  infoHash := List.replicate 20 171

def env : Env World := provider .next id id
def world : World := World.holding [(str "a", [1, 2, 3])]

/-- A read that has found its storage, whose removal has then overtaken it in the queue. -/
def read : Submission :=
  { call := 0, storage := 0, job := .read { piece := 0, start := 0, length := 3 } }

def clear : Submission := { call := 1, storage := 0, job := .clearPiece 5 }
def changes : List Change :=
  [.newTorrent params, .performed ⟨none, .closeStorage 0⟩, .performed ⟨some 1, .clearPiece 5⟩]

def overtaken : Threads World where
  server := ((Server.start world 2).serial env changes).2
  torrents := [none]
  freeStorage := [0]
  queue := [⟨some 0, .run 0 0 read.job⟩]
  worker := .looking
  made := [read, clear]
  accepted := [⟨none, .closeStorage 0⟩, ⟨some 1, .clearPiece 5⟩, ⟨some 0, .run 0 0 read.job⟩]
  changes := changes
  posted := [⟨1, .operation, .cleared 5⟩]

theorem steps_overtaken : Steps env (start world 2) overtaken := by
  have hnew : (TorrentStorage.new env params (start world 2).server.disk.world).1 =
      .ok (TorrentStorage.build params []) := rfl
  have hstored := (Steps.refl.step (.makeTorrent params hnew)).step
    (@Step.storeTorrent _ _ _ [] [] 0 rfl)
  have hfound := (hstored.step (.call read (by simp [start]) rfl)).step
    (@Step.lookUp _ _ _ [] [] read 0 rfl rfl)
  have hremoved := hfound.step (.removeTorrent 0 nofun)
  have hclear := (hremoved.step (.callDirectly clear (by decide) rfl)).step
    (@Step.accept _ _ _ [] [_] clear (.clearPiece 5) rfl rfl)
  have hread := hclear.step (@Step.accept _ _ _ [] [] read (.run 0 0 read.job) rfl rfl)
  have hclosed := ((hread.step (.take rfl rfl)).step (.finish rfl)).step (.comeBack rfl)
  exact ((hclosed.step (.take rfl rfl)).step (.finish rfl)).step (.comeBack rfl)

end Removed

end Threads

end Saf
end Libtorrent4j
