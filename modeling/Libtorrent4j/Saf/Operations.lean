import Libtorrent4j.Saf.Blocks

/-!
# The operations of the disk thread

What each `async_*` member function queues, as a program over the torrent and the disk. An
operation that can fail stops with the `storage_error` it reports, and for `move_storage`
and the checks with the status bits it has set by then.

`move_storage` is cut at the two places the safety argument needs: `checkMove` is everything
up to the validation of the root, `statMove` the passes that only look, and the copies come
after both.
-/

namespace Libtorrent4j
namespace Saf

open Lib Lib.Exec

/-- The bits of `status_t` in use. -/
structure Status where
  fatalDiskError : Bool := false
  needFullCheck : Bool := false
  fileExist : Bool := false
  oversizedFile : Bool := false
deriving DecidableEq, Repr

/-- `status |= disk_status::fatal_disk_error`. -/
def Status.fatal (status : Status) : Status := { status with fatalDiskError := true }

inductive MoveFlags where
  | alwaysReplaceFiles | failIfExist | dontReplace | resetSavePath | resetSavePathUnchecked
deriving DecidableEq, Repr

/-- What `validate_resume` reads of an `add_torrent_params`. -/
structure Resume where
  seedMode : Bool
  havePieces : List Bool
deriving DecidableEq, Repr

abbrev Failure := Status × StorageError

variable {W : Type} (E : Env W)

/-! ## `move_storage` -/

structure MoveOperation where
  index : Nat
  source : Path
  destination : Path
  sourceSize : Int := -enoent
  destinationSize : Int := -enoent
  copy : Bool := false
  cleanup : Bool := false
deriving DecidableEq, Repr

def TorrentStorage.destination (t : TorrentStorage) (root : Path) (index : Nat) : Path :=
  rootedPath root (t.logicalPath index)

/-- The `destinations` vector: one for every file, pad files too. -/
def TorrentStorage.destinations (t : TorrentStorage) (root : Path) : List Path :=
  t.files.indices.map (t.destination root)

def TorrentStorage.moveOperations (t : TorrentStorage) (root : Path) : List MoveOperation :=
  t.files.indices.filterMap fun index =>
    if t.files.padFileAt index then none
    else if t.pathFor index = t.destination root index then none
    else some { index, source := t.pathFor index, destination := t.destination root index }

/-- The destination is the current path of another file that is not a pad file. -/
def TorrentStorage.collides (t : TorrentStorage) (operation : MoveOperation) : Bool :=
  t.files.indices.any fun source =>
    source != operation.index && !t.files.padFileAt source &&
      operation.destination == t.pathFor source

/-- The granted tree's own root needs no validation. -/
def validateRoot (root : Path) : Exec (Disk W) Failure Int :=
  if root.isEmpty then ret 0 else callValidatePath E root

/-- `move_storage` up to the validation of the destination root. -/
def checkMove (t : TorrentStorage) (storage : Nat) (root : Path) :
    Exec (Disk W) Failure (List MoveOperation) := do
  closeStorage E storage
  forEach t.files.indices fun offset =>
    throwIf (safeRelativePath (t.logicalPath offset) = false ∨
        safeRelativePath (t.pathFor offset) = false)
      ({ fatalDiskError := true }, invalidArgument offset .fileRename)
  let operations := t.moveOperations root
  forEach operations fun operation =>
    throwIf (t.collides operation = true)
      ({ fatalDiskError := true }, invalidArgument operation.index .fileRename)
  let validation ← validateRoot E root
  throwIf (validation < 0)
    ({ fatalDiskError := true },
      { ec := if validation = -einval then .errno einval else fromBridgeResult validation,
        operation := .fileRename })
  ret operations

/-- The pass of `fail_if_exist` over every destination. -/
def refuseExisting (t : TorrentStorage) (root : Path) : Exec (Disk W) Failure Unit :=
  forEach t.files.indices fun index =>
    if t.files.padFileAt index then ret ()
    else do
      let size ← callFileSize E (t.destination root index)
      throwIf (0 ≤ size)
        ({ fileExist := true }, { ec := .errno eexist, file := index, operation := .fileStat })
      throwIf (size ≠ -enoent) ({ fatalDiskError := true }, makeError size index .fileStat)

/-- `for (auto& operation : operations)`, the stat pass. -/
def statOperations (flags : MoveFlags) :
    List MoveOperation → Status → Exec (Disk W) Failure (List MoveOperation × Status)
  | [], status => ret ([], status)
  | operation :: rest, status => do
      let destinationSize ← callFileSize E operation.destination
      throwIf (destinationSize < 0 ∧ destinationSize ≠ -enoent)
        (status.fatal, makeError destinationSize operation.index .fileStat)
      let sourceSize ← callFileSize E operation.source
      throwIf (sourceSize < 0 ∧ sourceSize ≠ -enoent)
        (status.fatal, makeError sourceSize operation.index .fileStat)
      let kept := decide (flags = .dontReplace ∧ 0 ≤ destinationSize)
      let (rest, status) ← statOperations flags rest
        { status with needFullCheck := status.needFullCheck || kept }
      ret ({ operation with
             sourceSize, destinationSize,
             cleanup := decide (0 ≤ sourceSize)
             copy := !kept && decide (0 ≤ sourceSize) } :: rest, status)

/-- The passes of `move_storage` that only look at sizes. -/
def statMove (t : TorrentStorage) (root : Path) (flags : MoveFlags)
    (operations : List MoveOperation) :
    Exec (Disk W) Failure (List MoveOperation × Status) := do
  onlyIf (flags = .failIfExist) (refuseExisting E t root)
  statOperations E flags operations {}

def copyOperations (operations : List MoveOperation) (status : Status) :
    Exec (Disk W) Failure Unit :=
  forEach operations fun operation =>
    onlyIf (operation.copy = true)
      (mapError (fun error => (status.fatal, error))
        (copyPublicFile E operation.source operation.destination operation.sourceSize.toNat
          operation.index))

def removeSources (operations : List MoveOperation) (destinations : List Path) :
    Exec (Disk W) Failure Unit :=
  forEach operations fun operation =>
    onlyIf (operation.cleanup = true ∧ operation.source ∉ destinations) do
      let _ ← callRemove E operation.source false
      ret ()

def moveStorage (storage : Nat) (destinationRoot : Path) (flags : MoveFlags) :
    Exec (Sys W) Failure Status := do
  let s ← get
  let t := s.torrent
  let root := normalizedSaveRoot destinationRoot
  let operations ← onDisk (checkMove E t storage root)
  if flags = .resetSavePath ∨ flags = .resetSavePathUnchecked then do
    updateTorrent (·.setSaveRoot root)
    ret { needFullCheck := decide (flags = .resetSavePath) }
  else do
    let (operations, status) ← onDisk (statMove E t root flags operations)
    onDisk (copyOperations E operations status)
    updateTorrent (·.setSaveRoot root)
    onDisk (removeSources E operations (t.destinations root))
    ret status

/-- The operation of `async_move_storage`. -/
def asyncMoveStorage (storage : Nat) (path : Path) (flags : MoveFlags) :
    Exec (Sys W) Failure Status := do
  throwIf (safeRelativePath path = false)
    ({ fatalDiskError := true }, invalidArgument (-1) .fileRename)
  moveStorage E storage path flags

/-! ### What each part of a move has established -/

/-- The checks of a move that look only at the torrent. -/
def TorrentStorage.MoveAccepted (t : TorrentStorage) (root : Path) : Prop :=
  (∀ i < t.numFiles, safeRelativePath (t.logicalPath i) = true ∧
    safeRelativePath (t.pathFor i) = true) ∧
  ∀ operation ∈ t.moveOperations root, t.collides operation = false

theorem mem_moveOperations {t : TorrentStorage} {root : Path} {operation : MoveOperation} :
    operation ∈ t.moveOperations root ↔
      ∃ i < t.numFiles, t.files.padFileAt i = false ∧ t.pathFor i ≠ t.destination root i ∧
        operation = { index := i, source := t.pathFor i, destination := t.destination root i } := by
  simp only [TorrentStorage.moveOperations, List.mem_filterMap, FileStorage.mem_indices,
    TorrentStorage.numFiles]
  constructor
  · rintro ⟨i, hi, hop⟩
    split at hop
    · simp at hop
    rename_i hpad
    split at hop
    · simp at hop
    rename_i hne
    exact ⟨i, hi, by simpa using hpad, hne, by simpa using hop.symm⟩
  · rintro ⟨i, hi, hpad, hne, rfl⟩
    exact ⟨i, hi, by simp [hpad, hne]⟩

/-- When the checks let a move go on, the bridge has just accepted the root. -/
theorem checkMove_ok (t : TorrentStorage) (storage : Nat) (root : Path) (d : Disk W) :
    wp (checkMove E t storage root)
      (fun operations d' => operations = t.moveOperations root ∧ t.MoveAccepted root ∧
        (root = [] ∨ ∃ result, 0 ≤ result ∧ Event.validatePath root result ∈ d'.trace))
      (fun _ _ => True) d := by
  simp only [checkMove, wp_bind]
  refine wp_any (fun _ d₁ => ?_) fun _ _ => trivial
  refine wp_forEach_throwIf (fun _ _ _ => trivial) fun hsafe => ?_
  refine wp_forEach_throwIf (fun _ _ _ => trivial) fun hclear => ?_
  have haccepted : t.MoveAccepted root := by
    refine ⟨fun i hi => ?_, fun operation hop => by simpa using hclear operation hop⟩
    have := hsafe i (t.files.mem_indices.mpr hi)
    simpa [not_or] using this
  by_cases hroot : root.isEmpty = true
  · simp only [validateRoot, hroot, if_true, wp_ret, wp_throwIf]
    exact ⟨fun _ => trivial, fun _ => ⟨trivial, haccepted, Or.inl (by simpa using hroot)⟩⟩
  · simp only [validateRoot, hroot, Bool.false_eq_true, if_false, callValidatePath, wp_ask,
      wp_throwIf, wp_ret]
    refine ⟨fun _ => trivial, fun hval => ⟨trivial, haccepted, Or.inr ?_⟩⟩
    exact ⟨_, Int.not_lt.mp hval, List.mem_cons_self⟩

/-- The stat pass changes only what it finds out. -/
def MoveOperation.SameFile (operation operation' : MoveOperation) : Prop :=
  operation'.index = operation.index ∧ operation'.source = operation.source ∧
    operation'.destination = operation.destination

theorem exists_right {α β : Type} {R : α → β → Prop} {as : List α} {bs : List β}
    (h : List.Forall₂ R as bs) {a : α} (ha : a ∈ as) : ∃ b ∈ bs, R a b := by
  induction h with
  | nil => cases ha
  | cons hfirst _ ih =>
    rcases List.mem_cons.mp ha with rfl | ha
    · exact ⟨_, List.mem_cons_self, hfirst⟩
    · obtain ⟨b, hb, hR⟩ := ih ha
      exact ⟨b, List.mem_cons_of_mem _ hb, hR⟩

theorem exists_left {α β : Type} {R : α → β → Prop} {as : List α} {bs : List β}
    (h : List.Forall₂ R as bs) {b : β} (hb : b ∈ bs) : ∃ a ∈ as, R a b :=
  exists_right (R := fun b a => R a b) h.flip hb

theorem statOperations_ok (flags : MoveFlags) (operations : List MoveOperation) (status : Status)
    (d : Disk W) :
    wp (statOperations E flags operations status)
      (fun answer _ => List.Forall₂ MoveOperation.SameFile operations answer.1)
      (fun _ _ => True) d := by
  induction operations generalizing status d with
  | nil => exact List.Forall₂.nil
  | cons operation rest ih =>
    simp only [statOperations, callFileSize, wp_bind, wp_ask, wp_throwIf, wp_ret]
    refine ⟨fun _ => trivial, fun _ => ⟨fun _ => trivial, fun _ => ?_⟩⟩
    refine wp_mono (ih _ _) (fun answer _ h => ?_) fun _ _ h => h
    exact List.Forall₂.cons ⟨rfl, rfl, rfl⟩ h

theorem statMove_ok (t : TorrentStorage) (root : Path) (flags : MoveFlags)
    (operations : List MoveOperation) (d : Disk W) :
    wp (statMove E t root flags operations)
      (fun answer _ => List.Forall₂ MoveOperation.SameFile operations answer.1)
      (fun _ _ => True) d := by
  simp only [statMove, wp_bind]
  exact wp_any (fun _ d' => statOperations_ok E flags operations {} d') fun _ _ => trivial

/-- A source that cannot be removed is no error. -/
theorem removeSources_ok (operations : List MoveOperation) (destinations : List Path)
    (d : Disk W) :
    wp (removeSources E operations destinations) (fun _ _ => True) (fun _ _ => False) d := by
  refine wp_forEach_inv (fun _ => True) trivial (fun operation _ d _ => ?_) fun _ _ => trivial
  simp [callRemove]

/-! ## The checks -/

/-- `initialize_files`. -/
def initializeFiles (reuse : Bool) (t : TorrentStorage) (storage : Nat) :
    Exec (Disk W) Failure Status := do
  let existed ← mapEach
    (t.files.indices.filter fun index => !(t.files.padFileAt index || t.skipped index))
    fun index => do
      let existing ← callFileSize E (t.pathFor index)
      mapError (fun error => ({ fatalDiskError := true }, error)) do
        let descriptor ← openFile E reuse storage index (t.pathFor index) true .fileOpen
        truncateTo E descriptor (t.files.fileSize index) index
      ret (decide (0 ≤ existing))
  ret { needFullCheck := existed.any id }

/-- The `check_file` lambda of `validate_resume` over a list of files. -/
def checkResumeFiles (t : TorrentStorage) (seed exactSize : Bool) :
    List Nat → Status → Exec (Disk W) Failure Status
  | [], status => ret status
  | index :: rest, status =>
      if t.files.padFileAt index || (!seed && t.skipped index) then
        checkResumeFiles t seed exactSize rest status
      else do
        let size ← callFileSize E (t.pathFor index)
        throwIf (size < 0 ∧ size ≠ -enoent) (status.fatal, makeError size index .fileStat)
        let wrong := decide (size = -enoent ∨
          (exactSize = true ∧ size ≠ (t.files.fileSize index : Int)))
        checkResumeFiles t seed exactSize rest
          { status with
            needFullCheck := status.needFullCheck || wrong
            oversizedFile := status.oversizedFile ||
              (wrong && decide ((t.files.fileSize index : Int) < size)) }

/-- The indices of a list that are met for the first time; `checked` are those met before. -/
def firstMet : List Nat → List Nat → List Nat
  | _, [] => []
  | checked, index :: rest =>
      if index ∈ checked then firstMet checked rest
      else index :: firstMet (index :: checked) rest

/-- The files that overlap a claimed piece, in the order the loop over pieces meets them. -/
def claimedFiles (files : FileStorage) (havePieces : List Bool) : List Nat :=
  firstMet [] <|
    (List.range (min havePieces.length files.numPieces)).flatMap fun piece =>
      if havePieces.getD piece false then
        (files.mapBlock piece 0 (files.pieceSize piece)).map (·.fileIndex)
      else []

theorem mem_of_firstMet {checked files : List Nat} {index : Nat}
    (h : index ∈ firstMet checked files) : index ∈ files := by
  induction files generalizing checked with
  | nil => exact h
  | cons first rest ih =>
    unfold firstMet at h
    split at h
    · exact List.mem_cons_of_mem _ (ih h)
    · rcases List.mem_cons.mp h with rfl | h
      · exact List.mem_cons_self
      · exact List.mem_cons_of_mem _ (ih h)

theorem Covers.lt_of_mem {entries : List FileEntry} {slices : List FileSlice} {pos len : Nat}
    (h : Covers entries pos len slices) {slice : FileSlice} (hs : slice ∈ slices) :
    slice.fileIndex < entries.length := by
  induction slices generalizing pos len with
  | nil => simp at hs
  | cons first rest ih =>
    rcases List.mem_cons.mp hs with rfl | hs
    · exact h.1
    · exact ih h.2.2.2.2.2 hs

/-- A claimed piece maps to files the torrent has. -/
theorem lt_of_mem_claimedFiles {files : FileStorage} {havePieces : List Bool} {index : Nat}
    (h : index ∈ claimedFiles files havePieces) : index < files.numFiles := by
  obtain ⟨piece, hpiece, hmem⟩ := List.mem_flatMap.mp (mem_of_firstMet h)
  split at hmem
  · obtain ⟨slice, hslice, rfl⟩ := List.mem_map.mp hmem
    have hlt : piece < files.numPieces := by
      have := List.mem_range.mp hpiece
      omega
    refine (files.mapBlock_covers piece 0 _ ?_).lt_of_mem hslice
    simpa using files.pieceSize_le piece hlt
  · simp at hmem

/-- `validate_resume`. -/
def validateResume (t : TorrentStorage) (resume : Resume) : Exec (Disk W) Failure Status :=
  let seed := resume.seedMode
  let full := seed ||
    (decide (t.files.numPieces ≤ resume.havePieces.length) && resume.havePieces.all id)
  if full then checkResumeFiles E t seed true t.files.indices {}
  else checkResumeFiles E t seed false (claimedFiles t.files resume.havePieces) {}

/-- The operation of `async_check_files`. -/
def asyncCheckFiles (reuse : Bool) (t : TorrentStorage) (storage : Nat) (resume : Option Resume)
    (links : List Path) : Exec (Disk W) Failure Status := do
  throwIf (links ≠ [])
    ({ fatalDiskError := true }, { ec := .errno eopnotsupp, operation := .fileHardLink })
  match resume with
  | some resume =>
      if resume.seedMode ∨ 0 < resume.havePieces.length then validateResume E t resume
      else initializeFiles E reuse t storage
  | none => initializeFiles E reuse t storage

/-! ## Renaming, deleting, priorities -/

/-- The operation of `async_rename_file`. -/
def asyncRenameFile (storage : Nat) (index : Int) (name : Path) :
    Exec (Sys W) StorageError Unit := do
  let s ← get
  let t := s.torrent
  throwIf (index < 0 ∨ (t.numFiles : Int) ≤ index ∨ safeRelativePath name = false)
    (invalidArgument index .fileRename)
  onDisk (closeFile E storage index)
  let destination := rootedPath t.saveRoot name
  onDisk (ensureParentDirectories E destination index)
  let result ← onDisk (callRename E (t.pathFor index.toNat) destination)
  throwIf (result < 0) (makeError result index .fileRename)
  updateTorrent (·.renameFile index.toNat name destination)

/-- `result < 0 && result != -enoent` of a removal, as the error it makes. -/
def removeError (result : Int) (file : Int) : Option StorageError :=
  if result < 0 ∧ result ≠ -enoent then some (makeError result file .fileRemove) else none

/-- Remove a document; the error a failure makes is kept for later. -/
def removeLater (path : Path) (file : Int) : Exec (Disk W) StorageError (Option StorageError) := do
  let result ← callRemove E path false
  ret (removeError result file)

/-- The operation of `async_delete_files`; the first error is the one reported. -/
def asyncDeleteFiles (t : TorrentStorage) (storage : Nat) (deleteFiles deletePartfile : Bool) :
    Exec (Disk W) StorageError Unit := do
  closeStorage E storage
  let files ← mapEach
    (if deleteFiles then t.files.indices.filter fun index => !t.files.padFileAt index else [])
    fun index => removeLater E (t.pathFor index) index
  let part ← mapEach (if deletePartfile || deleteFiles then [t.partPath] else [])
    fun path => removeLater E path (-1)
  match (files ++ part).findSome? id with
  | some error => throw error
  | none => ret ()

/-- The turn of `async_set_file_priority` for one file. -/
def setPriorityAt (storage : Nat) (requested : List Priority) (index : Nat) :
    Exec (Sys W) StorageError Unit := do
  let s ← get
  let t := s.torrent
  let priority := requested.getD index defaultPriority
  let nowSkipped := priority == dontDownload
  onlyIf (t.files.padFileAt index = false ∧ (t.priority index == dontDownload) ≠ nowSkipped)
    (onDisk (migratePriority E t storage index nowSkipped))
  updateTorrent (·.setPriority index priority)

/-- The end of `async_set_file_priority` when no file is skipped any more. -/
def removePartFile (t : TorrentStorage) (storage : Nat) : Exec (Disk W) StorageError Unit := do
  closeFile E storage (-1)
  let result ← callRemove E t.partPath false
  throwIf (result < 0 ∧ result ≠ -enoent) (makeError result (-1) .fileRemove)

/-- The operation of `async_set_file_priority`. -/
def asyncSetFilePriority (storage : Nat) (priorities : List Priority) :
    Exec (Sys W) StorageError Unit := do
  let s ← get
  let requested := resizePriorities priorities s.torrent.numFiles
  forEach s.torrent.files.indices (setPriorityAt E storage requested)
  let s ← get
  onlyIf (dontDownload ∉ s.torrent.priorities) (onDisk (removePartFile E s.torrent storage))

/-! ## Hashing -/

/-- `sha1_hash{}` and `sha256_hash{}`. -/
def zeroSha1 : List Byte := List.replicate 20 0
def zeroSha256 : List Byte := List.replicate 32 0

/-- The read of `async_hash`: none at all when no hash is asked for. -/
def readForHash (reuse : Bool) (t : TorrentStorage) (storage : Nat) (request : Request) :
    Exec (Disk W) StorageError (List Byte) :=
  if 0 < request.length then mapError Prod.snd (readBlock E reuse t storage request) else ret []

/-- The operation of `async_hash`: the v1 hash and the entries written to `block_hashes`,
    which has room for `room` of them. -/
def asyncHash (reuse : Bool) (t : TorrentStorage) (storage piece : Nat) (v1 : Bool) (room : Nat) :
    Exec (Disk W) StorageError (List Byte × List (List Byte)) := do
  let v2 := decide (0 < room)
  let pieceSize := if v1 then t.files.pieceSize piece else 0
  let pieceSize2 := if v2 then t.files.pieceSize2 piece else 0
  let bytesToRead := max pieceSize pieceSize2
  let out ← readForHash E reuse t storage { piece, start := 0, length := bytesToRead }
  -- the vector is as long as asked for, whatever part of it was delivered
  let bytes := Doc.resize out bytesToRead
  let blocks := if v2 then t.files.blocksInPiece2 piece else 0
  throwIf (room < blocks) (invalidArgument (-1) .fileRead)
  ret (if v1 then E.hasher (bytes.take pieceSize) else zeroSha1,
    (List.range blocks).map fun block =>
      E.hasher256 (Doc.slice bytes (block * defaultBlockSize)
        (min defaultBlockSize (pieceSize2 - block * defaultBlockSize))))

/-- The operation of `async_hash2`. -/
def asyncHash2 (reuse : Bool) (t : TorrentStorage) (storage piece offset : Nat) :
    Exec (Disk W) StorageError (List Byte) := do
  let length := min defaultBlockSize (t.files.pieceSize2 piece - offset)
  throwIf (length = 0) (invalidArgument (-1) .fileRead)
  let out ← mapError Prod.snd (readBlock E reuse t storage { piece, start := offset, length })
  ret (E.hasher256 (Doc.resize out length))

end Saf
end Libtorrent4j
