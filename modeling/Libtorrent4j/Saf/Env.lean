import Libtorrent4j.Lib.Exec
import Libtorrent4j.Saf.Path

/-!
# What the backend runs against

Everything the backend calls and does not define: the six callbacks of `flow_saf_storage`,
the four system calls on the descriptors the bridge hands out, and the two hash functions.
They are the fields of `Env`, over an arbitrary type `W` of worlds, so a theorem stated for
every `Env` holds **whatever the bridge and the kernel answer**.

The only law asked of an `Env` is that it does not interrupt a transfer for ever: `patience`
bounds the `eintr`s still to come. It is what makes the retry loops total.
-/

namespace Libtorrent4j
namespace Saf

open Lib Lib.Exec

/-! ## Errors -/

def ebadf : Nat := 9
def enoent : Nat := 2
def eintr : Nat := 4
def eio : Nat := 5
def eexist : Nat := 17
def einval : Nat := 22
def eopnotsupp : Nat := 95

/-- The `errno` of a call that failed; a failing call never leaves it 0. -/
structure Errno where
  code : Nat
  pos : 0 < code
deriving DecidableEq

theorem eio_pos : 0 < eio := by decide

/-- The values of `error_code` the backend produces: `errno` in the generic category, two of
    asio's and one of libtorrent's own. -/
inductive ErrorCode where
  | errno (value : Nat)
  | eof
  | operationAborted
  | noMemory
deriving DecidableEq, Repr

/-- The members of `operation_t` in use. -/
inductive Operation where
  | fileRead | fileWrite | partfileRead | partfileWrite | fileOpen | fileRename | fileRemove
  | fileStat | fileTruncate | fileHardLink | mkdir | checkResume | allocCachePiece
deriving DecidableEq, Repr

/-- `storage_error`: what went wrong, for which file, in which operation. -/
structure StorageError where
  ec : ErrorCode
  file : Int := -1
  operation : Operation
deriving DecidableEq, Repr

def intMax : Nat := 2147483647

/-- `from_bridge_result`: a negative result is an `errno` with its sign turned, and none of them is
    beyond `INT_MAX`. -/
def fromBridgeResult (result : Int) : ErrorCode :=
  if 0 ≤ result then .errno 0 else .errno (min (-result).toNat intMax)

/-- `make_error`. -/
def makeError (result : Int) (file : Int) (operation : Operation) : StorageError :=
  { ec := fromBridgeResult result, file := file, operation := operation }

/-- `aborted_error`: of no file in particular. -/
def abortedError (operation : Operation) : StorageError :=
  { ec := .operationAborted, operation := operation }

/-- The error of an index or a path that is refused without asking anybody. -/
def invalidArgument (file : Int) (operation : Operation) : StorageError :=
  { ec := .errno einval, file := file, operation := operation }

/-! ## The surroundings -/

/-- `bridge_open_read` and `bridge_open_read_write`. -/
inductive Mode where
  | read | readWrite
deriving DecidableEq, Repr

/-- All that the backend calls: the bridge, the transfers on a descriptor and the hash
    functions. What they do to the world `W` is theirs, but for one thing: no transfer is
    interrupted for ever, and `patience` bounds how often it still may be. -/
structure Env (W : Type) where
  validatePath : Path → W → Int × W
  createDirectory : Path → W → Int × W
  openFile : Path → Mode → W → Int × W
  fileSize : Path → W → Int × W
  rename : Path → Path → W → Int × W
  remove : Path → Bool → W → Int × W
  /-- `pread(fd, _, count, offset)`: the bytes stored in the buffer, or the `errno`. -/
  pread : Int → Nat → Nat → W → Except Errno (List Byte) × W
  /-- `pwrite(fd, data, _, offset)`: the count written, or the `errno`. -/
  pwrite : Int → List Byte → Nat → W → Except Errno Nat × W
  ftruncate : Int → Nat → W → Except Errno Unit × W
  close : Int → W → W
  hasher : List Byte → List Byte
  hasher256 : List Byte → List Byte
  patience : W → Nat
  pread_le : ∀ fd n off w, patience (pread fd n off w).2 ≤ patience w
  pread_retry : ∀ fd n off w e, (pread fd n off w).1 = .error e → e.code = eintr →
    patience (pread fd n off w).2 < patience w
  pwrite_le : ∀ fd data off w, patience (pwrite fd data off w).2 ≤ patience w
  pwrite_retry : ∀ fd data off w e, (pwrite fd data off w).1 = .error e → e.code = eintr →
    patience (pwrite fd data off w).2 < patience w

/-! ## The state of the disk thread -/

/-- What the backend did, as an observer of the bridge and of the kernel sees it, and two
    notes on the descriptor cache: a descriptor handed out again, with the world at that
    moment, and an entry added, with the number of entries and the limit then in force. -/
inductive Event (W : Type) where
  | validatePath (path : Path) (result : Int)
  | createDirectory (path : Path) (result : Int)
  | openFile (path : Path) (mode : Mode) (result : Int)
  | fileSize (path : Path) (result : Int)
  | rename (old new : Path) (result : Int)
  | remove (path : Path) (recursive : Bool) (result : Int)
  | pread (descriptor : Int)
  | pwrite (descriptor : Int)
  | ftruncate (descriptor : Int)
  | close (descriptor : Int)
  | reused (descriptor : Int) (path : Path) (world : W)
  | stored (entries limit : Nat)

/-- An entry of `m_descriptors`; the part file has index `-1`. -/
structure OpenDescriptor where
  storage : Nat
  file : Int
  path : Path
  descriptor : Int
  writable : Bool
  lastUse : Nat
deriving DecidableEq, Repr

/-- The limit before the first settings is not 0. -/
theorem limit_initial : 0 < 40 := by decide

/-- The world and the members of `flow_saf_disk_io` that the worker's operations change. The
    limit is never below 1 (`settings_updated`). `trace` is a ghost, newest first. -/
structure Disk (W : Type) where
  world : W
  descriptors : List OpenDescriptor := []
  useCounter : Nat := 0
  limit : Nat := 40
  limit_pos : 0 < limit := by first | exact limit_initial | decide
  trace : List (Event W) := []

variable {W ε α : Type}

/-- `settings_updated`: the pool size asked for, at least 1. -/
def Disk.settingsUpdated (d : Disk W) (filePoolSize : Int) : Disk W :=
  { d with limit := (max 1 filePoolSize).toNat, limit_pos := by omega }

/-- The state after a call that left the world `w`. -/
def Disk.note (d : Disk W) (w : W) (event : Event W) : Disk W :=
  { d with world := w, trace := event :: d.trace }

@[simp] theorem Disk.note_world (d : Disk W) (w : W) (event : Event W) :
    (d.note w event).world = w := rfl
@[simp] theorem Disk.note_descriptors (d : Disk W) (w : W) (event : Event W) :
    (d.note w event).descriptors = d.descriptors := rfl
@[simp] theorem Disk.note_trace (d : Disk W) (w : W) (event : Event W) :
    (d.note w event).trace = event :: d.trace := rfl
@[simp] theorem Disk.note_limit (d : Disk W) (w : W) (event : Event W) :
    (d.note w event).limit = d.limit := rfl

/-! ## The calls -/

/-- One call to the surroundings, recorded. -/
def ask (call : W → α × W) (event : α → Event W) : Exec (Disk W) ε α :=
  prim fun d => ((call d.world).1, d.note (call d.world).2 (event (call d.world).1))

/-- A call of the bridge goes into the log with its answer. -/
@[simp] theorem wp_ask {call : W → α × W} {event : α → Event W} {Q : α → Disk W → Prop}
    {R : ε → Disk W → Prop} {d : Disk W} :
    wp (ask call event) Q R d ↔
      Q (call d.world).1 (d.note (call d.world).2 (event (call d.world).1)) := Iff.rfl

section Calls

variable (E : Env W)

def callValidatePath (path : Path) : Exec (Disk W) ε Int :=
  ask (E.validatePath path) (.validatePath path)

def callCreateDirectory (path : Path) : Exec (Disk W) ε Int :=
  ask (E.createDirectory path) (.createDirectory path)

def callOpenFile (path : Path) (mode : Mode) : Exec (Disk W) ε Int :=
  ask (E.openFile path mode) (.openFile path mode)

def callFileSize (path : Path) : Exec (Disk W) ε Int :=
  ask (E.fileSize path) (.fileSize path)

def callRename (old new : Path) : Exec (Disk W) ε Int :=
  ask (E.rename old new) (.rename old new)

def callRemove (path : Path) (recursive : Bool) : Exec (Disk W) ε Int :=
  ask (E.remove path recursive) (.remove path recursive)

def callFtruncate (descriptor : Int) (size : Nat) : Exec (Disk W) ε (Except Errno Unit) :=
  ask (E.ftruncate descriptor size) fun _ => .ftruncate descriptor

def callClose (descriptor : Int) : Exec (Disk W) ε Unit :=
  ask (fun w => ((), E.close descriptor w)) fun _ => .close descriptor

/-- `scoped_descriptor::reset`: nothing to close for a failed open. -/
def resetScoped (descriptor : Int) : Exec (Disk W) ε Unit :=
  if 0 ≤ descriptor then callClose E descriptor else ret ()

@[simp] theorem wp_resetScoped {descriptor : Int} {Q : Unit → Disk W → Prop}
    {R : ε → Disk W → Prop} {d : Disk W} :
    wp (resetScoped E descriptor : Exec (Disk W) ε Unit) Q R d ↔
      Q () ((resetScoped E descriptor : Exec (Disk W) ε Unit) d).2 := by
  unfold resetScoped
  split <;> rfl

/-- A block that owns a `scoped_descriptor`: it is closed however the block is left. -/
def withScoped (descriptor : Int) (block : Exec (Disk W) ε α) : Exec (Disk W) ε α :=
  ensuring block (resetScoped E descriptor : Exec (Disk W) ε Unit)

end Calls

/-! ## Parent directories -/

/-- The `ensure_parent_directories` member function. -/
def ensureParentDirectories (E : Env W) (path : Path) (file : Int) :
    Exec (Disk W) StorageError Unit := do
  throwIf (safeRelativePath path = false) (invalidArgument file .mkdir)
  forEach (parentDirectories path) fun directory => do
    let result ← callCreateDirectory E directory
    throwIf (result < 0 ∧ result ≠ -eexist) (makeError result file .mkdir)

/-- A path whose parents exist is a safe one. -/
theorem ensureParentDirectories_ok (E : Env W) (path : Path) (file : Int) (d : Disk W) :
    wp (ensureParentDirectories E path file) (fun _ _ => safeRelativePath path = true)
      (fun _ _ => True) d := by
  simp only [ensureParentDirectories, wp_bind, wp_throwIf]
  refine ⟨fun _ => trivial, fun hsafe => ?_⟩
  exact wp_any (fun _ _ => by simpa using hsafe) fun _ _ => trivial

end Saf
end Libtorrent4j
