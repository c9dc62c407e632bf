import Libtorrent4j.Saf.Operations

/-!
# Jobs and runs

A `Job` is one `async_*` call with its arguments, a `Report` what its handler receives.
`runJob` is the operation the call queues, run on one torrent.

A `Server` is the worker's side of the backend: the disk and every `torrent_storage` built so
far, named by its position in the list, the way the queued closures hold it by a
`shared_ptr`. The slot a storage was given is only a number to the operations: it keys the
descriptor cache.
-/

namespace Libtorrent4j
namespace Saf

open Lib Lib.Exec

inductive Job where
  | read (request : Request)
  | write (request : Request) (bytes : List Byte)
  | hash (piece : Nat) (v1 : Bool) (room : Nat)
  | hash2 (piece offset : Nat)
  | moveStorage (path : Path) (flags : MoveFlags)
  | releaseFiles
  | checkFiles (resume : Option Resume) (links : List Path)
  | stopTorrent
  | renameFile (index : Int) (name : Path)
  | deleteFiles (deleteFiles deletePartfile : Bool)
  | setFilePriority (priorities : List Priority)
  | clearPiece (piece : Nat)
deriving DecidableEq, Repr

inductive Report where
  | read (bytes : List Byte) (error : Option StorageError)
  | written (error : Option StorageError)
  | hashed (piece : Nat) (result : List Byte) (blockHashes : List (List Byte))
      (error : Option StorageError)
  | hashed2 (piece : Nat) (result : List Byte) (error : Option StorageError)
  | moved (status : Status) (path : Path) (error : Option StorageError)
  | released
  | checked (status : Status) (error : Option StorageError)
  | renamed (name : Path) (index : Int) (error : Option StorageError)
  | deleted (error : Option StorageError)
  | prioritised (error : Option StorageError) (current : List Priority)
  | cleared (piece : Nat)
deriving DecidableEq, Repr

/-- What a call reports at once when its storage is unknown. -/
def Job.aborted : Job → Report
  | .read _ => .read [] (some (abortedError .fileRead))
  | .write _ _ => .written (some (abortedError .fileWrite))
  | .hash piece _ _ => .hashed piece zeroSha1 [] (some (abortedError .fileRead))
  | .hash2 piece _ => .hashed2 piece zeroSha256 (some (abortedError .fileRead))
  | .moveStorage path _ =>
      .moved { fatalDiskError := true } path (some (abortedError .fileRename))
  | .releaseFiles => .released
  | .checkFiles _ _ => .checked { fatalDiskError := true } (some (abortedError .checkResume))
  | .stopTorrent => .released
  | .renameFile index name => .renamed name index (some (abortedError .fileRename))
  | .deleteFiles _ _ => .deleted (some (abortedError .fileRemove))
  | .setFilePriority priorities => .prioritised (some (abortedError .fileWrite)) priorities
  | .clearPiece piece => .cleared piece

/-- What a call reports through its abort closure when it has found a storage of so many files.
    The closure of `async_set_file_priority` has the vector as it was resized before. -/
def Job.refused (numFiles : Nat) : Job → Report
  | .setFilePriority priorities =>
      .prioritised (some (abortedError .fileWrite)) (resizePriorities priorities numFiles)
  | job => job.aborted

section RunJob

variable {W : Type} (E : Env W) (reuse : Bool) (storage : Nat)

/-- The report of a read: a transfer that stopped short without an error is an `eof`. -/
def readReport (request : Request) : Except (List Byte × StorageError) (List Byte) → Report
  | .ok out =>
      if out.length ≠ request.length then
        .read out (some { ec := .eof, operation := .fileRead })
      else .read out none
  | .error (out, error) => .read out (some error)

def unitError : Except StorageError Unit → Option StorageError
  | .ok _ => none
  | .error error => some error

def hashReport (piece : Nat) : Except StorageError (List Byte × List (List Byte)) → Report
  | .ok (result, blockHashes) => .hashed piece result blockHashes none
  | .error error => .hashed piece zeroSha1 [] (some error)

def hash2Report (piece : Nat) : Except StorageError (List Byte) → Report
  | .ok result => .hashed2 piece result none
  | .error error => .hashed2 piece zeroSha256 (some error)

def movedReport (path : Path) : Except Failure Status → Report
  | .ok status => .moved status path none
  | .error (status, error) => .moved status path (some error)

def checkedReport : Except Failure Status → Report
  | .ok status => .checked status none
  | .error (status, error) => .checked status (some error)

/-- The operation a job queues, and the report its handler is posted with. `async_read` gets a
    pool buffer of `default_block_size` bytes whatever the request's length: that a request is no
    longer than a block is for its caller to see to, and here the buffer is as long as asked for. -/
def runJob (job : Job) (s : Sys W) : Report × Sys W :=
  match job with
  | .read request =>
      let r := onDisk (readBlock E reuse s.torrent storage request) s
      (readReport request r.1, r.2)
  | .write request bytes =>
      let r := onDisk (writeBlock E reuse s.torrent storage request bytes) s
      (.written (unitError r.1), r.2)
  | .hash piece v1 room =>
      let r := onDisk (asyncHash E reuse s.torrent storage piece v1 room) s
      (hashReport piece r.1, r.2)
  | .hash2 piece offset =>
      let r := onDisk (asyncHash2 E reuse s.torrent storage piece offset) s
      (hash2Report piece r.1, r.2)
  | .moveStorage path flags =>
      let r := asyncMoveStorage E storage path flags s
      (movedReport path r.1, r.2)
  | .releaseFiles =>
      (.released, (onDisk (closeStorage E storage : Exec (Disk W) StorageError Unit) s).2)
  | .checkFiles resume links =>
      let r := onDisk (asyncCheckFiles E reuse s.torrent storage resume links) s
      (checkedReport r.1, r.2)
  | .stopTorrent =>
      (.released, (onDisk (closeStorage E storage : Exec (Disk W) StorageError Unit) s).2)
  | .renameFile index name =>
      let r := asyncRenameFile E storage index name s
      (.renamed name index (unitError r.1), r.2)
  | .deleteFiles deleteFiles deletePartfile =>
      let r := onDisk (asyncDeleteFiles E s.torrent storage deleteFiles deletePartfile) s
      (.deleted (unitError r.1), r.2)
  | .setFilePriority priorities =>
      let r := asyncSetFilePriority E storage priorities s
      (.prioritised (unitError r.1) r.2.torrent.priorities, r.2)
  | .clearPiece piece => (.cleared piece, s)

/-- The jobs of one storage, one after the other. -/
def runJobs : List Job → Sys W → List Report × Sys W
  | [], s => ([], s)
  | job :: rest, s =>
      ((runJob E reuse storage job s).1 :: (runJobs rest (runJob E reuse storage job s).2).1,
        (runJobs rest (runJob E reuse storage job s).2).2)

@[simp] theorem runJobs_nil (s : Sys W) : runJobs E reuse storage [] s = ([], s) := rfl

/-- What every job keeps, every run of jobs keeps. -/
theorem runJobs_induct {I : Sys W → Prop} {jobs : List Job}
    (hstep : ∀ job ∈ jobs, ∀ s, I s → I (runJob E reuse storage job s).2) {s : Sys W} (hs : I s) :
    I (runJobs E reuse storage jobs s).2 := by
  induction jobs generalizing s with
  | nil => exact hs
  | cons job rest ih =>
    simp only [runJobs]
    exact ih (fun j hj => hstep j (by simp [hj])) (hstep job (by simp) s hs)

/-- `P` holds of the torrent and the job at every step of the run. -/
def EveryStep (P : TorrentStorage → Job → Prop) : List Job → Sys W → Prop
  | [], _ => True
  | job :: rest, s => P s.torrent job ∧ EveryStep P rest (runJob E reuse storage job s).2

theorem everyStep_append {P : TorrentStorage → Job → Prop} {jobs jobs' : List Job} {s : Sys W} :
    EveryStep E reuse storage P (jobs ++ jobs') s ↔ EveryStep E reuse storage P jobs s ∧
      EveryStep E reuse storage P jobs' (runJobs E reuse storage jobs s).2 := by
  induction jobs generalizing s with
  | nil => simp [EveryStep]
  | cons job rest ih => simp only [List.cons_append, EveryStep, runJobs, ih, and_assoc]

/-- What every step that meets the condition keeps, every run of such steps keeps. -/
theorem runJobs_induct_every {I : Sys W → Prop} {P : TorrentStorage → Job → Prop} {jobs : List Job}
    (hstep : ∀ job s, P s.torrent job → I s → I (runJob E reuse storage job s).2) {s : Sys W}
    (hrun : EveryStep E reuse storage P jobs s) (hs : I s) :
    I (runJobs E reuse storage jobs s).2 := by
  induction jobs generalizing s with
  | nil => exact hs
  | cons job rest ih => exact ih hrun.2 (hstep job s hrun.1 hs)

/-- `P` holds of the state, the job and its report at every step of the run. -/
def Along (P : Sys W → Job → Report → Prop) : List Job → Sys W → Prop
  | [], _ => True
  | job :: rest, s =>
      P s job (runJob E reuse storage job s).1 ∧ Along P rest (runJob E reuse storage job s).2

/-- A condition on every step is one whatever is reported. -/
theorem EveryStep.along {P : TorrentStorage → Job → Prop} {Q : Sys W → Job → Report → Prop}
    {jobs : List Job} {s : Sys W} (h : EveryStep E reuse storage P jobs s)
    (hPQ : ∀ s job report, P s.torrent job → Q s job report) :
    Along E reuse storage Q jobs s := by
  induction jobs generalizing s with
  | nil => trivial
  | cons job rest ih => exact ⟨hPQ s job _ h.1, ih h.2⟩

theorem runJobs_along {I : Sys W → Prop} {P : Sys W → Job → Report → Prop} {jobs : List Job}
    (hstep : ∀ job s, P s job (runJob E reuse storage job s).1 → I s →
      I (runJob E reuse storage job s).2) {s : Sys W}
    (hrun : Along E reuse storage P jobs s) (hs : I s) :
    I (runJobs E reuse storage jobs s).2 := by
  induction jobs generalizing s with
  | nil => exact hs
  | cons job rest ih => exact ih hrun.2 (hstep job s hrun.1 hs)

end RunJob

/-! ## The worker's side of the backend -/

structure Server (W : Type) where
  disk : Disk W
  objects : List TorrentStorage := []

/-- A closure in the queue: the operation of a job on the storage object it holds, with the
    slot number the call was made with; or the `close_storage` of a removed torrent. The three
    calls that look nothing up hold no object. -/
inductive QueuedJob where
  | run (object : Nat) (storage : Nat) (job : Job)
  | release (storage : Nat)
  | clearPiece (piece : Nat)
  | closeStorage (storage : Nat)
deriving DecidableEq, Repr

section Server

variable {W : Type} (E : Env W) (reuse : Bool)

/-- `close_storage` as a closure of its own. -/
def Server.close (server : Server W) (storage : Nat) : Server W :=
  let close : Exec (Disk W) StorageError Unit := closeStorage E storage
  { server with disk := (close server.disk).2 }

/-- The worker runs one closure; `close_storage` alone reports to nobody. -/
def Server.perform (server : Server W) : QueuedJob → Option Report × Server W
  | .run object storage job =>
      match server.objects[object]? with
      | none => (none, server)
      | some torrent =>
          let r := runJob E reuse storage job { torrent, disk := server.disk }
          (some r.1,
            { disk := r.2.disk, objects := server.objects.set object r.2.torrent })
  | .release storage => (some .released, server.close E storage)
  | .clearPiece piece => (some (.cleared piece), server)
  | .closeStorage storage => (none, server.close E storage)

/-- What the abort closure that goes with a closure posts when the queue takes no more. -/
def Server.refused (server : Server W) (job : Job) : QueuedJob → Report
  | .run object _ _ =>
      match server.objects[object]? with
      | none => job.aborted
      | some torrent => job.refused torrent.numFiles
  | _ => job.aborted

/-- What changes the server: the worker running a closure, new settings, a new torrent. -/
inductive Action where
  | perform (job : QueuedJob)
  | settings (filePoolSize : Int)
  | newTorrent (params : StorageParams)

def Server.act (server : Server W) : Action → Server W
  | .perform job => (server.perform E reuse job).2
  | .settings filePoolSize => { server with disk := server.disk.settingsUpdated filePoolSize }
  | .newTorrent params =>
      match TorrentStorage.new E params server.disk.world with
      | (.ok torrent, w) =>
          { disk := { server.disk with world := w }, objects := server.objects ++ [torrent] }
      | (.error _, w) => { server with disk := { server.disk with world := w } }

def Server.run (server : Server W) (actions : List Action) : Server W :=
  actions.foldl (Server.act E reuse) server

/-- The constructor of `flow_saf_disk_io`: no torrents, nothing open. -/
def Server.start (w : W) (filePoolSize : Int) : Server W :=
  { disk := Disk.settingsUpdated { world := w } filePoolSize }

/-- `abort`, seen from the disk: the worker closes all before it ends, `abort` once more. -/
def Server.abort (server : Server W) : Server W :=
  let close : Exec (Disk W) StorageError Unit := closeAll E
  { server with disk := (close (close server.disk).2).2 }

/-- What every action keeps, every run keeps. -/
theorem Server.run_induct {I : Server W → Prop} {actions : List Action}
    (hstep : ∀ action server, I server → I (Server.act E reuse server action))
    {server : Server W} (hs : I server) : I (server.run E reuse actions) := by
  unfold Server.run
  induction actions generalizing server with
  | nil => exact hs
  | cons action rest ih => exact ih (hstep action server hs)

end Server

end Saf
end Libtorrent4j
