import Libtorrent4j.Saf.Layout
import Libtorrent4j.Saf.Env

/-!
# `torrent_storage`

The per-torrent state the worker's operations share: the layout, the priorities, and three
redundant descriptions of where the files are (`saveRoot`, `logicalPaths`, `paths`). That
the last three agree is *not* a field: two operations rewrite them separately, and their
agreement is a theorem about runs.

What is a field is what the constructor establishes and nothing can break: one entry of each
vector for every file, and the part file's path being the one of the info-hash.
-/

namespace Libtorrent4j
namespace Saf

open Lib Lib.Exec

/-- `download_priority_t`. -/
abbrev Priority := Nat

/-- `dont_download`: the bytes of the file go into the part file. -/
def dontDownload : Priority := 0
def defaultPriority : Priority := 4

/-- `priorities.resize(num_files, default_priority)`. -/
def resizePriorities (priorities : List Priority) (numFiles : Nat) : List Priority :=
  (priorities ++ List.replicate (numFiles - priorities.length) defaultPriority).take numFiles

@[simp] theorem resizePriorities_length (priorities : List Priority) (numFiles : Nat) :
    (resizePriorities priorities numFiles).length = numFiles := by
  simp [resizePriorities]; omega

/-- The members of `torrent_storage` that the operations read. The mutex is not modelled: one
    worker runs all operations. -/
structure TorrentStorage where
  files : FileStorage
  priorities : List Priority
  logicalPaths : List Path
  paths : List Path
  saveRoot : Path
  infoHash : List Byte
  partPath : Path
  priorities_length : priorities.length = files.numFiles
  logicalPaths_length : logicalPaths.length = files.numFiles
  paths_length : paths.length = files.numFiles
  partPath_eq : partPath = partPathOf infoHash

/-- The `storage_params` in use; `filePath` is `renamed_files.file_path(files, ·)`. -/
structure StorageParams where
  files : FileStorage
  filePath : Nat → Path
  path : Path
  priorities : List Priority
  infoHash : List Byte

/-- What the constructor throws. -/
inductive NewTorrentError where
  | invalidArgument (what : String)
  | systemError (code : ErrorCode) (what : String)
deriving DecidableEq, Repr

namespace TorrentStorage

/-- The `path_for` member function: where the file is now. -/
def pathFor (t : TorrentStorage) (index : Nat) : Path := t.paths.getD index []

/-- The name of the file inside the torrent, as far as it has been renamed. -/
def logicalPath (t : TorrentStorage) (index : Nat) : Path := t.logicalPaths.getD index []

/-- The priority last set for the file. -/
def priority (t : TorrentStorage) (index : Nat) : Priority :=
  t.priorities.getD index defaultPriority

/-- The `skipped` member function. -/
def skipped (t : TorrentStorage) (index : Nat) : Bool :=
  decide (index < t.priorities.length) && t.priority index == dontDownload

/-- The number of files of the layout. It never changes. -/
def numFiles (t : TorrentStorage) : Nat := t.files.numFiles

/-- The members a freshly constructed storage has under an accepted root. -/
def build (params : StorageParams) (saveRoot : Path) : TorrentStorage where
  files := params.files
  priorities := resizePriorities params.priorities params.files.numFiles
  logicalPaths := params.files.indices.map params.filePath
  paths := params.files.indices.map fun index => rootedPath saveRoot (params.filePath index)
  saveRoot := saveRoot
  infoHash := params.infoHash
  partPath := partPathOf params.infoHash
  priorities_length := by simp
  logicalPaths_length := by simp [FileStorage.indices]
  paths_length := by simp [FileStorage.indices]
  partPath_eq := rfl

/-- The constructor; `validate_path` runs on the caller's thread. -/
def new {W : Type} (E : Env W) (params : StorageParams) (w : W) :
    Except NewTorrentError TorrentStorage × W :=
  let saveRoot := normalizedSaveRoot params.path
  if saveRoot.isEmpty then (.ok (build params saveRoot), w)
  else if safeRelativePath saveRoot = false then
    (.error (.invalidArgument "Flow SAF save root must be empty or relative"), w)
  else
    let result := (E.validatePath saveRoot w).1
    let w' := (E.validatePath saveRoot w).2
    if result = -einval then
      (.error (.invalidArgument "Flow SAF save root was rejected by storage"), w')
    else if result < 0 then
      (.error (.systemError (fromBridgeResult result) "Flow SAF save root validation failed"), w')
    else (.ok (build params saveRoot), w')

/-! ## The updates -/

/-- `set_save_root`. -/
def setSaveRoot (t : TorrentStorage) (root : Path) : TorrentStorage :=
  { t with
    saveRoot := normalizedSaveRoot root
    paths := t.logicalPaths.map (rootedPath (normalizedSaveRoot root))
    paths_length := by simp [t.logicalPaths_length] }

/-- What a successful rename stores. -/
def renameFile (t : TorrentStorage) (index : Nat) (name destination : Path) : TorrentStorage :=
  { t with
    logicalPaths := t.logicalPaths.set index name
    paths := t.paths.set index destination
    logicalPaths_length := by simp [t.logicalPaths_length]
    paths_length := by simp [t.paths_length] }

/-- `torrent->priorities[index] = priority`. -/
def setPriority (t : TorrentStorage) (index : Nat) (priority : Priority) : TorrentStorage :=
  { t with
    priorities := t.priorities.set index priority
    priorities_length := by simp [t.priorities_length] }

section Lemmas

variable (t : TorrentStorage)

/-- A new root changes the paths and nothing else. -/
@[simp] theorem setSaveRoot_files (root : Path) : (t.setSaveRoot root).files = t.files := rfl
@[simp] theorem setSaveRoot_logicalPaths (root : Path) :
    (t.setSaveRoot root).logicalPaths = t.logicalPaths := rfl
@[simp] theorem setSaveRoot_priorities (root : Path) :
    (t.setSaveRoot root).priorities = t.priorities := rfl
@[simp] theorem setSaveRoot_partPath (root : Path) : (t.setSaveRoot root).partPath = t.partPath :=
  rfl
@[simp] theorem setSaveRoot_saveRoot (root : Path) :
    (t.setSaveRoot root).saveRoot = normalizedSaveRoot root := rfl
@[simp] theorem setSaveRoot_skipped (root : Path) (index : Nat) :
    (t.setSaveRoot root).skipped index = t.skipped index := rfl

/-- A rename changes one name and one path. -/
@[simp] theorem renameFile_files (index : Nat) (name destination : Path) :
    (t.renameFile index name destination).files = t.files := rfl
@[simp] theorem renameFile_priorities (index : Nat) (name destination : Path) :
    (t.renameFile index name destination).priorities = t.priorities := rfl
@[simp] theorem renameFile_partPath (index : Nat) (name destination : Path) :
    (t.renameFile index name destination).partPath = t.partPath := rfl
@[simp] theorem renameFile_saveRoot (index : Nat) (name destination : Path) :
    (t.renameFile index name destination).saveRoot = t.saveRoot := rfl
@[simp] theorem renameFile_skipped (index : Nat) (name destination : Path) (i : Nat) :
    (t.renameFile index name destination).skipped i = t.skipped i := rfl

/-- A priority has nothing to do with paths. -/
@[simp] theorem setPriority_files (index : Nat) (priority : Priority) :
    (t.setPriority index priority).files = t.files := rfl
@[simp] theorem setPriority_paths (index : Nat) (priority : Priority) :
    (t.setPriority index priority).paths = t.paths := rfl
@[simp] theorem setPriority_logicalPaths (index : Nat) (priority : Priority) :
    (t.setPriority index priority).logicalPaths = t.logicalPaths := rfl
@[simp] theorem setPriority_partPath (index : Nat) (priority : Priority) :
    (t.setPriority index priority).partPath = t.partPath := rfl
@[simp] theorem setPriority_saveRoot (index : Nat) (priority : Priority) :
    (t.setPriority index priority).saveRoot = t.saveRoot := rfl
@[simp] theorem setPriority_pathFor (index : Nat) (priority : Priority) (i : Nat) :
    (t.setPriority index priority).pathFor i = t.pathFor i := rfl
@[simp] theorem setPriority_logicalPath (index : Nat) (priority : Priority) (i : Nat) :
    (t.setPriority index priority).logicalPath i = t.logicalPath i := rfl

/-- None of the three changes how many files there are. -/
@[simp] theorem setSaveRoot_numFiles (root : Path) : (t.setSaveRoot root).numFiles = t.numFiles :=
  rfl
@[simp] theorem renameFile_numFiles (index : Nat) (name destination : Path) :
    (t.renameFile index name destination).numFiles = t.numFiles := rfl
@[simp] theorem setPriority_numFiles (index : Nat) (priority : Priority) :
    (t.setPriority index priority).numFiles = t.numFiles := rfl

@[simp] theorem setSaveRoot_logicalPath (root : Path) (i : Nat) :
    (t.setSaveRoot root).logicalPath i = t.logicalPath i := rfl

/-- Under a new root every path is made anew from the name. -/
theorem setSaveRoot_pathFor (root : Path) {i : Nat} (h : i < t.numFiles) :
    (t.setSaveRoot root).pathFor i = rootedPath (normalizedSaveRoot root) (t.logicalPath i) := by
  have hl : i < t.logicalPaths.length := by rw [t.logicalPaths_length]; exact h
  simp [pathFor, logicalPath, setSaveRoot, List.getD_eq_getElem?_getD, List.getElem?_eq_getElem hl]

/-- Reading a vector after an update, inside its bounds. -/
theorem getD_set {α : Type} {l : List α} {i : Nat} (h : i < l.length) (index : Nat) (a d : α) :
    (l.set index a).getD i d = if i = index then a else l.getD i d := by
  rw [List.getD_eq_getElem?_getD, List.getD_eq_getElem?_getD, List.getElem?_set]
  by_cases heq : i = index
  · subst heq
    simp [h]
  · rw [if_neg (Ne.symm heq), if_neg heq]

/-- After a rename the file is at the destination; the others are where they were. -/
theorem renameFile_pathFor (index : Nat) (name destination : Path) {i : Nat}
    (h : i < t.numFiles) :
    (t.renameFile index name destination).pathFor i =
      if i = index then destination else t.pathFor i :=
  getD_set (by rw [t.paths_length]; exact h) index destination []

/-- And so with the names. -/
theorem renameFile_logicalPath (index : Nat) (name destination : Path) {i : Nat}
    (h : i < t.numFiles) :
    (t.renameFile index name destination).logicalPath i =
      if i = index then name else t.logicalPath i :=
  getD_set (by rw [t.logicalPaths_length]; exact h) index name []

/-- For a file there is, only its priority counts. -/
theorem skipped_of_lt {i : Nat} (h : i < t.numFiles) :
    t.skipped i = (t.priority i == dontDownload) := by
  have hp : i < t.priorities.length := by rw [t.priorities_length]; exact h
  simp [skipped, hp]

/-- The part file is always at a path of the bridge. -/
theorem safe_partPath : safeRelativePath t.partPath = true := by
  rw [t.partPath_eq]; exact safe_partPathOf _

/-- Out of range there is the empty path, -/
theorem pathFor_of_not_lt {i : Nat} (h : ¬ i < t.numFiles) : t.pathFor i = [] := by
  have hp : t.paths.length ≤ i := by rw [t.paths_length]; exact Nat.le_of_not_lt h
  simp [pathFor, List.getD_eq_getElem?_getD, List.getElem?_eq_none hp]

/-- which no check accepts. -/
theorem lt_of_safe_pathFor {i : Nat} (h : safeRelativePath (t.pathFor i) = true) :
    i < t.numFiles := by
  by_contra hn
  rw [t.pathFor_of_not_lt hn] at h
  simp [not_safe_nil] at h

end Lemmas

/-- Everything but the priorities. -/
structure SamePaths (t t' : TorrentStorage) : Prop where
  files : t'.files = t.files
  logicalPaths : t'.logicalPaths = t.logicalPaths
  paths : t'.paths = t.paths
  saveRoot : t'.saveRoot = t.saveRoot
  infoHash : t'.infoHash = t.infoHash
  partPath : t'.partPath = t.partPath

namespace SamePaths

theorem refl (t : TorrentStorage) : SamePaths t t := ⟨rfl, rfl, rfl, rfl, rfl, rfl⟩

theorem trans {t t' t'' : TorrentStorage} (h : SamePaths t t') (h' : SamePaths t' t'') :
    SamePaths t t'' :=
  ⟨h'.files.trans h.files, h'.logicalPaths.trans h.logicalPaths, h'.paths.trans h.paths,
    h'.saveRoot.trans h.saveRoot, h'.infoHash.trans h.infoHash, h'.partPath.trans h.partPath⟩

theorem setPriority (t : TorrentStorage) (index : Nat) (priority : Priority) :
    SamePaths t (t.setPriority index priority) := ⟨rfl, rfl, rfl, rfl, rfl, rfl⟩

variable {t t' : TorrentStorage}

theorem pathFor (h : SamePaths t t') (i : Nat) : t'.pathFor i = t.pathFor i := by
  rw [TorrentStorage.pathFor, h.paths]; rfl

theorem logicalPath (h : SamePaths t t') (i : Nat) : t'.logicalPath i = t.logicalPath i := by
  rw [TorrentStorage.logicalPath, h.logicalPaths]; rfl

theorem numFiles (h : SamePaths t t') : t'.numFiles = t.numFiles := by
  rw [TorrentStorage.numFiles, h.files]; rfl

end SamePaths

/-! ## What the constructor accepts -/

variable {W : Type} {E : Env W} {params : StorageParams} {w w' : W} {t : TorrentStorage}

/-- What a constructor that does not throw has built. -/
theorem new_ok (h : new E params w = (.ok t, w')) :
    t = build params (normalizedSaveRoot params.path) ∧
      RootOk (normalizedSaveRoot params.path) := by
  simp only [new] at h
  split at h
  · rename_i hemp
    simp only [Prod.mk.injEq, Except.ok.injEq] at h
    exact ⟨h.1.symm, Or.inl (List.isEmpty_iff.mp hemp)⟩
  split at h
  · simp at h
  rename_i hsafe
  split at h
  · simp at h
  split at h
  · simp at h
  simp only [Prod.mk.injEq, Except.ok.injEq] at h
  exact ⟨h.1.symm, Or.inr (by simpa using hsafe)⟩

/-- A fresh storage has its files under the root it was given. -/
@[simp] theorem build_pathFor (saveRoot : Path) {i : Nat} (h : i < params.files.numFiles) :
    (build params saveRoot).pathFor i = rootedPath saveRoot (params.filePath i) := by
  simp [pathFor, build, FileStorage.indices, List.getD_eq_getElem?_getD, h]

@[simp] theorem build_logicalPath (saveRoot : Path) {i : Nat} (h : i < params.files.numFiles) :
    (build params saveRoot).logicalPath i = params.filePath i := by
  simp [logicalPath, build, FileStorage.indices, List.getD_eq_getElem?_getD, h]

end TorrentStorage

/-! ## A torrent and the disk -/

/-- The state one torrent's operations run on. -/
structure Sys (W : Type) where
  torrent : TorrentStorage
  disk : Disk W

section Sys

variable {W ε α : Type}

/-- An operation that reads or changes only the disk thread's own state. -/
def onDisk (m : Exec (Disk W) ε α) : Exec (Sys W) ε α :=
  zoom Sys.disk (fun d s => { s with disk := d }) m

/-- An operation on the disk leaves the torrent as it is. -/
@[simp] theorem wp_onDisk {m : Exec (Disk W) ε α} {Q : α → Sys W → Prop} {R : ε → Sys W → Prop}
    {s : Sys W} :
    wp (onDisk m) Q R s ↔
      wp m (fun a d => Q a { s with disk := d }) (fun e d => R e { s with disk := d }) s.disk :=
  wp_zoom

/-- Whatever happens on the disk, the torrent stays. -/
theorem wp_onDisk_any {m : Exec (Disk W) ε α} {Q : α → Sys W → Prop} {R : ε → Sys W → Prop}
    {s : Sys W} (hQ : ∀ a d, Q a { s with disk := d }) (hR : ∀ e d, R e { s with disk := d }) :
    wp (onDisk m) Q R s :=
  wp_onDisk.mpr (wp_any hQ hR)

/-- A change of the members of `torrent_storage`, made when nothing can fail any more. -/
def updateTorrent (f : TorrentStorage → TorrentStorage) : Exec (Sys W) ε Unit :=
  modify fun s => { s with torrent := f s.torrent }

@[simp] theorem wp_updateTorrent {f : TorrentStorage → TorrentStorage} {Q : Unit → Sys W → Prop}
    {R : ε → Sys W → Prop} {s : Sys W} :
    wp (updateTorrent f : Exec (Sys W) ε Unit) Q R s ↔
      Q () { s with torrent := f s.torrent } := Iff.rfl

end Sys

end Saf
end Libtorrent4j
