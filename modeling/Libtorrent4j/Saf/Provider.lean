import Libtorrent4j.Lib.Doc
import Libtorrent4j.Saf.Env

/-!
# A document provider that can fail

The surroundings the data-safety claims are about: a tree of documents behind the bridge and
a kernel with a table of open descriptors. A path names a *node*; a descriptor refers to a
node too, and goes on doing so after the node has been renamed or removed. That is what makes
a stale cached descriptor expressible.

Failures are scripts: one entry for each call still to come, and ordinary behaviour once the
script is used up. A script is a list, so every behaviour of a run that ends is one of them.

Three conventions, each from the bridge contract:

* a failing call leaves the documents as they are, except that a failing `pwrite` may have
  written a prefix;
* `-enoent` is never said of a document that exists;
* the kernel's choice of a descriptor number is any function that avoids the open ones
  (`FdPicker`).

Directories hold no data and are not modelled: `create_directory` only answers.
-/

namespace Libtorrent4j
namespace Saf

open Lib

inductive BridgeFault where
  | ok
  | fail (errno : Errno)
deriving DecidableEq

/-- The outcome of a `pread`, a `pwrite` or an `ftruncate` on an open descriptor. -/
inductive IoFault where
  | whole
  | short (more : Nat)
  | interrupted
  | nothing
  | fail (errno : Errno) (written : Nat)
deriving DecidableEq

structure OpenFile where
  node : Nat
  writable : Bool
deriving DecidableEq, Repr

structure World where
  docs : Path → Option Nat
  node : Nat → List Byte
  nextNode : Nat
  fds : List (Int × OpenFile) := []
  /-- The answer of `validate_path`, a pure check. -/
  validate : Path → Int := fun _ => 0
  bridge : List BridgeFault := []
  io : List IoFault := []

/-- How the kernel numbers a new descriptor. -/
structure FdPicker where
  pick : List Int → Int
  pick_nonneg : ∀ inUse, 0 ≤ pick inUse
  pick_fresh : ∀ inUse, pick inUse ∉ inUse

/-- One above every number in use; the least free number would do as well. -/
def FdPicker.next : FdPicker where
  pick inUse := inUse.foldr (fun fd above => max above (fd + 1)) 0
  pick_nonneg inUse := by
    induction inUse with
    | nil => simp
    | cons fd rest ih => simp only [List.foldr_cons]; omega
  pick_fresh inUse := by
    have key : ∀ fd ∈ inUse, fd < inUse.foldr (fun fd above => max above (fd + 1)) 0 := by
      induction inUse with
      | nil => simp
      | cons fd rest ih =>
        intro x hx
        simp only [List.foldr_cons]
        rcases List.mem_cons.mp hx with rfl | hx
        · omega
        · have := ih x hx
          omega
    exact fun h => lt_irrefl _ (key _ h)

namespace World

/-- A world in which just the given documents are stored. -/
def holding (documents : List (Path × List Byte)) : World where
  docs path := documents.findIdx? (·.1 == path)
  node index := (documents[index]?.map (·.2)).getD []
  nextNode := documents.length

/-- What is stored under a path. -/
def content (w : World) (path : Path) : Option (List Byte) := (w.docs path).map w.node

/-- The open file behind a descriptor. -/
def file (w : World) (fd : Int) : Option OpenFile := (w.fds.find? (·.1 == fd)).map (·.2)

def popBridge (w : World) : BridgeFault × World :=
  match w.bridge with
  | [] => (.ok, w)
  | fault :: rest => (fault, { w with bridge := rest })

def popIo (w : World) : IoFault × World :=
  match w.io with
  | [] => (.whole, w)
  | fault :: rest => (fault, { w with io := rest })

/-- A bridge call about the document at `path`: its scheduled failure, unless it is an
    `-enoent` about a document that exists. -/
def bridgeCall (w : World) (path : Path) (act : World → Int × World) : Int × World :=
  match w.popBridge with
  | (.ok, w') => act w'
  | (.fail errno, w') =>
      if errno.code = enoent ∧ (w.docs path).isSome then act w' else (-errno.code, w')

def validatePath (path : Path) (w : World) : Int × World :=
  match w.popBridge with
  | (.ok, w') => (w.validate path, w')
  | (.fail errno, w') => (-errno.code, w')

def createDirectory (_ : Path) (w : World) : Int × World :=
  match w.popBridge with
  | (.ok, w') => (0, w')
  | (.fail errno, w') => (-errno.code, w')

def openNode (K : FdPicker) (node : Nat) (writable : Bool) (w : World) : Int × World :=
  let fd := K.pick (w.fds.map (·.1))
  (fd, { w with fds := (fd, { node, writable }) :: w.fds })

/-- Mode 0 opens what exists; mode 2 creates an empty document where there is none. -/
def openFile (K : FdPicker) (path : Path) (mode : Mode) (w : World) : Int × World :=
  w.bridgeCall path fun w =>
    match w.docs path, mode with
    | some node, .read => w.openNode K node false
    | some node, .readWrite => w.openNode K node true
    | none, .read => (-enoent, w)
    | none, .readWrite =>
        openNode K w.nextNode true
          { w with
            docs := Function.update w.docs path (some w.nextNode)
            node := Function.update w.node w.nextNode []
            nextNode := w.nextNode + 1 }

def fileSize (path : Path) (w : World) : Int × World :=
  w.bridgeCall path fun w =>
    match w.content path with
    | some doc => (doc.length, w)
    | none => (-enoent, w)

/-- A rename takes the place of what was at the new path. -/
def rename (old new : Path) (w : World) : Int × World :=
  w.bridgeCall old fun w =>
    match w.docs old with
    | some node =>
        (0, { w with docs := Function.update (Function.update w.docs old none) new (some node) })
    | none => (-enoent, w)

def remove (path : Path) (_ : Bool) (w : World) : Int × World :=
  w.bridgeCall path fun w =>
    match w.docs path with
    | some _ => (0, { w with docs := Function.update w.docs path none })
    | none => (-enoent, w)

def ebadfErrno : Errno := ⟨ebadf, by decide⟩
def eintrErrno : Errno := ⟨eintr, by decide⟩

def pread (fd : Int) (count offset : Nat) (w : World) : Except Errno (List Byte) × World :=
  match w.file fd with
  | none => (.error ebadfErrno, w)
  | some open' =>
      let doc := w.node open'.node
      match w.popIo with
      | (.whole, w') => (.ok (Doc.slice doc offset count), w')
      | (.short more, w') => (.ok (Doc.slice doc offset (min count (more + 1))), w')
      | (.interrupted, w') => (.error eintrErrno, w')
      | (.nothing, w') => (.ok [], w')
      | (.fail errno _, w') => (.error errno, w')

/-- `data` written at `offset` of a node. -/
def store (w : World) (node : Nat) (offset : Nat) (data : List Byte) : World :=
  { w with node := Function.update w.node node (Doc.splice (w.node node) offset data) }

def pwrite (fd : Int) (data : List Byte) (offset : Nat) (w : World) : Except Errno Nat × World :=
  match w.file fd with
  | none => (.error ebadfErrno, w)
  | some open' =>
      if open'.writable = false then (.error ebadfErrno, w)
      else
        match w.popIo with
        | (.whole, w') => (.ok data.length, w'.store open'.node offset data)
        | (.short more, w') =>
            (.ok (min data.length (more + 1)), w'.store open'.node offset (data.take (more + 1)))
        | (.interrupted, w') => (.error eintrErrno, w')
        | (.nothing, w') => (.ok 0, w')
        | (.fail errno written, w') =>
            (.error errno, w'.store open'.node offset (data.take written))

/-- Only a scheduled failure stops a truncation; the other outcomes are of transfers. -/
def ftruncate (fd : Int) (size : Nat) (w : World) : Except Errno Unit × World :=
  match w.file fd with
  | none => (.error ebadfErrno, w)
  | some open' =>
      if open'.writable = false then (.error ebadfErrno, w)
      else
        match w.popIo with
        | (.fail errno _, w') => (.error errno, w')
        | (_, w') =>
            (.ok (), { w' with
              node := Function.update w'.node open'.node (Doc.resize (w'.node open'.node) size) })

def close (fd : Int) (w : World) : World := { w with fds := w.fds.filter (·.1 != fd) }

/-! ## The provider as surroundings -/

theorem popIo_length (w : World) : w.popIo.2.io.length ≤ w.io.length := by
  unfold popIo
  split <;> simp_all

theorem popIo_length_lt {w : World} {fault : IoFault} {w' : World} (h : w.popIo = (fault, w'))
    (hf : fault ≠ .whole) : w'.io.length < w.io.length := by
  unfold popIo at h
  split at h
  · simp_all
  · rename_i f rest hio
    simp only [Prod.mk.injEq] at h
    rw [← h.2, hio]
    simp

@[simp] theorem store_io (w : World) (node offset : Nat) (data : List Byte) :
    (w.store node offset data).io = w.io := rfl

theorem pread_io_le (fd : Int) (count offset : Nat) (w : World) :
    (w.pread fd count offset).2.io.length ≤ w.io.length := by
  have := w.popIo_length
  unfold pread
  split
  · exact le_rfl
  · dsimp only
    split <;> simp_all

theorem pread_io_lt {fd : Int} {count offset : Nat} {w : World} {e : Errno}
    (h : (w.pread fd count offset).1 = .error e) (he : e.code = eintr) :
    (w.pread fd count offset).2.io.length < w.io.length := by
  unfold pread at h ⊢
  split at h
  · simp only [Except.error.injEq] at h
    subst h
    simp [ebadfErrno, ebadf, eintr] at he
  · dsimp only at h ⊢
    split at h <;> rename_i hpop <;> simp_all [popIo_length_lt hpop]

theorem pwrite_io_le (fd : Int) (data : List Byte) (offset : Nat) (w : World) :
    (w.pwrite fd data offset).2.io.length ≤ w.io.length := by
  have := w.popIo_length
  unfold pwrite
  split
  · exact le_rfl
  · split
    · exact le_rfl
    · split <;> simp_all

theorem pwrite_io_lt {fd : Int} {data : List Byte} {offset : Nat} {w : World} {e : Errno}
    (h : (w.pwrite fd data offset).1 = .error e) (he : e.code = eintr) :
    (w.pwrite fd data offset).2.io.length < w.io.length := by
  unfold pwrite at h ⊢
  split at h
  · simp only [Except.error.injEq] at h
    subst h
    simp [ebadfErrno, ebadf, eintr] at he
  · split at h
    · simp only [Except.error.injEq] at h
      subst h
      simp [ebadfErrno, ebadf, eintr] at he
    · split at h <;> rename_i hpop <;> simp_all [popIo_length_lt hpop]

end World

/-- The document provider and the kernel, with two hash functions of one's choice. -/
def provider (K : FdPicker) (hasher hasher256 : List Byte → List Byte) : Env World where
  validatePath := World.validatePath
  createDirectory := World.createDirectory
  openFile := World.openFile K
  fileSize := World.fileSize
  rename := World.rename
  remove := World.remove
  pread fd count offset w := w.pread fd count offset
  pwrite fd data offset w := w.pwrite fd data offset
  ftruncate := World.ftruncate
  close := World.close
  hasher := hasher
  hasher256 := hasher256
  patience w := w.io.length
  pread_le fd n off w := w.pread_io_le fd n off
  pread_retry _ _ _ _ _ h he := World.pread_io_lt h he
  pwrite_le fd data off w := w.pwrite_io_le fd data off
  pwrite_retry _ _ _ _ _ h he := World.pwrite_io_lt h he

end Saf
end Libtorrent4j
