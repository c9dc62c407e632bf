import Libtorrent4j.Lib.Doc
import Libtorrent4j.Saf.Storage
import Libtorrent4j.Saf.Transfer

/-!
# Reading, writing and moving a file's bytes

`read_block`, `write_block`, `copy_public_file` and `migrate_priority`.

The *home* of a file is where the backend keeps its bytes now: its own document at its
current path, or, for a skipped file, the part file at the file's offset in the torrent.
`read_block` and `write_block` compute it each for themselves; the model computes it once.
-/

namespace Libtorrent4j
namespace Saf

open Lib Lib.Exec

namespace TorrentStorage

variable (t : TorrentStorage)

/-- The document that holds the file's bytes. -/
def homePath (index : Nat) : Path := if t.skipped index then t.partPath else t.pathFor index

/-- The file index that document has in the descriptor cache. -/
def homeKey (index : Nat) : Int := if t.skipped index then -1 else (index : Int)

/-- Where byte `offset` of the file is in that document. -/
def homeOffset (index offset : Nat) : Nat :=
  if t.skipped index then t.files.fileOffset index + offset else offset

def readOperation (index : Nat) : Operation :=
  if t.skipped index then .partfileRead else .fileRead

def writeOperation (index : Nat) : Operation :=
  if t.skipped index then .partfileWrite else .fileWrite

end TorrentStorage

variable {W : Type} (E : Env W) (reuse : Bool)

/-! ## `read_block` and `write_block` -/

/-- One turn of `read_block` for a slice of a file that is not a pad file. -/
def readSlice (t : TorrentStorage) (storage : Nat) (slice : FileSlice) :
    Exec (Disk W) (List Byte × StorageError) (List Byte) := do
  let descriptor ← mapError (fun e => ([], e))
    (openFile E reuse storage (t.homeKey slice.fileIndex) (t.homePath slice.fileIndex) false
      (t.readOperation slice.fileIndex))
  readWhole E descriptor (t.homeOffset slice.fileIndex slice.offset) slice.size slice.fileIndex
    (t.readOperation slice.fileIndex)

/-- `for (auto const& slice : slices)` of `read_block`; `out` is the output so far. -/
def readSlices (t : TorrentStorage) (storage : Nat) :
    List FileSlice → List Byte → Exec (Disk W) (List Byte × StorageError) (List Byte)
  | [], out => ret out
  | slice :: rest, out =>
      if t.files.padFileAt slice.fileIndex then
        readSlices t storage rest (out ++ List.replicate slice.size 0)
      else do
        let bytes ← mapError (fun failed => (out ++ failed.1, failed.2))
          (readSlice E reuse t storage slice)
        readSlices t storage rest (out ++ bytes)

/-- The bytes delivered; with an error, those delivered before it. -/
def readBlock (t : TorrentStorage) (storage : Nat) (request : Request) :
    Exec (Disk W) (List Byte × StorageError) (List Byte) :=
  readSlices E reuse t storage
    (t.files.mapBlock request.piece request.start request.length) []

/-- One turn of `write_block` for a slice of a file that is not a pad file. -/
def writeSlice (t : TorrentStorage) (storage : Nat) (slice : FileSlice) (data : List Byte) :
    Exec (Disk W) StorageError Unit := do
  let descriptor ← openFile E reuse storage (t.homeKey slice.fileIndex)
    (t.homePath slice.fileIndex) true (t.writeOperation slice.fileIndex)
  writeWhole E descriptor (t.homeOffset slice.fileIndex slice.offset) slice.size slice.fileIndex
    (t.writeOperation slice.fileIndex) data

/-- `for (auto const& slice : slices)` of `write_block`; `input` is what is left to write. -/
def writeSlices (t : TorrentStorage) (storage : Nat) :
    List FileSlice → List Byte → Exec (Disk W) StorageError Unit
  | [], _ => ret ()
  | slice :: rest, input =>
      if t.files.padFileAt slice.fileIndex then
        writeSlices t storage rest (input.drop slice.size)
      else do
        writeSlice E reuse t storage slice (input.take slice.size)
        writeSlices t storage rest (input.drop slice.size)

def writeBlock (t : TorrentStorage) (storage : Nat) (request : Request) (input : List Byte) :
    Exec (Disk W) StorageError Unit :=
  writeSlices E reuse t storage
    (t.files.mapBlock request.piece request.start request.length) input

/-! ## Copies -/

/-- `if (::ftruncate(descriptor, size) != 0)` and the error it makes. -/
def truncateTo (descriptor : Int) (size index : Nat) : Exec (Disk W) StorageError Unit := do
  match ← callFtruncate E descriptor size with
  | .ok _ => ret ()
  | .error e => throw (makeError (-e.code) index .fileTruncate)

def copyPublicFile (sourcePath destinationPath : Path) (size index : Nat) :
    Exec (Disk W) StorageError Unit := do
  throwIf (safeRelativePath sourcePath = false ∨ safeRelativePath destinationPath = false)
    (invalidArgument index .fileRename)
  ensureParentDirectories E destinationPath index
  let sourceResult ← callOpenFile E sourcePath .read
  withScoped E sourceResult do
    throwIf (sourceResult < 0) (makeError sourceResult index .fileRead)
    let destinationResult ← callOpenFile E destinationPath .readWrite
    withScoped E destinationResult do
      throwIf (destinationResult < 0) (makeError destinationResult index .fileWrite)
      truncateTo E destinationResult size index
      copyLoop E (some (sourceResult, 0)) destinationResult 0 size
        (makeError · index .fileRead) (makeError · index .fileWrite) 0

/-- The copying part of `migrate_priority`, with both descriptors at hand. -/
def migrateBytes (t : TorrentStorage) (index : Nat) (toPart : Bool) (source destination : Int) :
    Exec (Disk W) StorageError Unit := do
  throwIf (destination < 0)
    (makeError destination index (if toPart then .partfileWrite else .fileWrite))
  onlyIf (toPart = false) (truncateTo E destination (t.files.fileSize index) index)
  copyLoop E
    (if 0 ≤ source then some (source, if toPart then 0 else t.files.fileOffset index) else none)
    destination (if toPart then t.files.fileOffset index else 0) (t.files.fileSize index)
    (makeError · index (if toPart then .fileRead else .partfileRead))
    (makeError · index (if toPart then .partfileWrite else .fileWrite)) 0

/-- The document a migration reads and the one it writes. -/
def TorrentStorage.migrationSource (t : TorrentStorage) (index : Nat) (toPart : Bool) : Path :=
  if toPart then t.pathFor index else t.partPath

def TorrentStorage.migrationTarget (t : TorrentStorage) (index : Nat) (toPart : Bool) : Path :=
  if toPart then t.partPath else t.pathFor index

/-- Copy, and give up both descriptors: in order after a copy, the other way round on the way
    out of an error. -/
def migrateTo (t : TorrentStorage) (index : Nat) (toPart : Bool) (source destination : Int) :
    Exec (Disk W) StorageError Unit := do
  match ← attempt (migrateBytes E t index toPart source destination) with
  | .error e => do
      resetScoped E destination
      resetScoped E source
      throw e
  | .ok _ => do
      resetScoped E source
      resetScoped E destination

/-- `migrate_priority` once the source is open, or known not to exist. -/
def migrateFrom (t : TorrentStorage) (index : Nat) (toPart : Bool) (source : Int) :
    Exec (Disk W) StorageError Unit := do
  match ← attempt (do
      ensureParentDirectories E (t.migrationTarget index toPart) index
      callOpenFile E (t.migrationTarget index toPart) .readWrite) with
  | .error e => do
      resetScoped E source
      throw e
  | .ok destination => migrateTo E t index toPart source destination

/-- `migrate_priority` up to the resets of both descriptors. A source that does not exist is a
    document of zeros. -/
def migrateCopy (t : TorrentStorage) (index : Nat) (toPart : Bool) :
    Exec (Disk W) StorageError Unit := do
  let source ← callOpenFile E (t.migrationSource index toPart) .read
  throwIf (source < 0 ∧ source ≠ -enoent)
    (makeError source index (if toPart then .fileRead else .partfileRead))
  migrateFrom E t index toPart source

/-- The end of a migration to the part file: the public document goes. -/
def removeMigrated (path : Path) (index : Nat) : Exec (Disk W) StorageError Unit := do
  let result ← callRemove E path false
  throwIf (result < 0 ∧ result ≠ -enoent) (makeError result index .fileRemove)

/-- `migrate_priority`: both documents' cached descriptors are closed first. -/
def migratePriority (t : TorrentStorage) (storage index : Nat) (toPart : Bool) :
    Exec (Disk W) StorageError Unit :=
  if t.files.fileSize index = 0 then ret ()
  else do
    closeFile E storage (if toPart then (index : Int) else -1)
    closeFile E storage (if toPart then -1 else (index : Int))
    migrateCopy E t index toPart
    onlyIf (toPart = true) (removeMigrated E (t.pathFor index) index)

end Saf
end Libtorrent4j
