import Libtorrent4j.Saf.Checking
import Libtorrent4j.Saf.Priorities

/-!
# A storage that owns its documents

As long as the paths of a storage's files are different from one another and from the part
file's (pad files are never opened), its cache entries are told apart by their paths, and no
operation on one file reaches another one's document. `Owned` is that state. This module says
**for each job what it does to the documents of an owned storage**, and that it stays owned:
what holds along whole runs is then a case analysis over jobs.
-/

namespace Libtorrent4j
namespace Saf

open Lib Lib.Exec TorrentStorage

/-! ## Paths -/

/-- All files, pad files too, have different paths, and none is the part file's. -/
structure AllApart (t : TorrentStorage) : Prop where
  distinct : ∀ i < t.numFiles, ∀ j < t.numFiles, t.pathFor i = t.pathFor j → i = j
  notPart : ∀ i < t.numFiles, t.pathFor i ≠ t.partPath

/-- Paths that are all different are so for the files that have documents. -/
theorem AllApart.apart {t : TorrentStorage} (h : AllApart t) : Apart t :=
  ⟨fun i hi j hj _ _ heq => h.distinct i hi j hj heq, fun i hi _ => h.notPart i hi⟩

/-- The path is neither the part file's nor that of another file than `i`. -/
def TorrentStorage.FreeFor (t : TorrentStorage) (i : Nat) (path : Path) : Prop :=
  path ≠ t.partPath ∧ ∀ j < t.numFiles, j ≠ i → path ≠ t.pathFor j

/-- The path is no key of another file than `i`: pad files are never opened. -/
def TorrentStorage.SpareFor (t : TorrentStorage) (i : Nat) (path : Path) : Prop :=
  path ≠ t.partPath ∧
    ∀ j < t.numFiles, j ≠ i → t.files.padFileAt j = false → path ≠ t.pathFor j

/-- A path that nothing at all is on is one that no document is on. -/
theorem TorrentStorage.FreeFor.spare {t : TorrentStorage} {i : Nat} {path : Path}
    (h : t.FreeFor i path) : t.SpareFor i path :=
  ⟨h.1, fun j hj hji _ => h.2 j hj hji⟩

/-- The job gives no file the path of another one, or the part file's. -/
def KeepsAllApart (t : TorrentStorage) : Job → Prop
  | .renameFile index name =>
      ∀ i < t.numFiles, index = i → safeRelativePath name = true →
        t.FreeFor i (rootedPath t.saveRoot name)
  | .moveStorage path _ =>
      safeRelativePath path = true → t.MoveAccepted (normalizedSaveRoot path) →
        ∀ i < t.numFiles, t.destination (normalizedSaveRoot path) i ≠ t.partPath
  | _ => True

instance (t : TorrentStorage) (root : Path) : Decidable (t.MoveAccepted root) :=
  inferInstanceAs (Decidable (_ ∧ _))

instance (t : TorrentStorage) (i : Nat) (path : Path) : Decidable (t.FreeFor i path) :=
  inferInstanceAs (Decidable (_ ∧ _))

instance (t : TorrentStorage) : (job : Job) → Decidable (KeepsAllApart t job)
  | .renameFile index name => inferInstanceAs (Decidable
      (∀ i < t.numFiles, index = i → safeRelativePath name = true →
        t.FreeFor i (rootedPath t.saveRoot name)))
  | .moveStorage path _ => inferInstanceAs (Decidable
      (safeRelativePath path = true → t.MoveAccepted (normalizedSaveRoot path) →
        ∀ i < t.numFiles, t.destination (normalizedSaveRoot path) i ≠ t.partPath))
  | .read _ | .write _ _ | .hash _ _ _ | .hash2 _ _ | .releaseFiles | .checkFiles _ _
  | .stopTorrent | .deleteFiles _ _ | .setFilePriority _ | .clearPiece _ =>
      inferInstanceAs (Decidable True)

/-- It depends on the paths of the torrent alone. -/
theorem TorrentStorage.FreeFor.same {t t' : TorrentStorage} {i : Nat} {path : Path}
    (h : t.FreeFor i path) (hsame : SamePaths t t') : t'.FreeFor i path := by
  refine ⟨by rw [hsame.partPath]; exact h.1, fun j hj hji => ?_⟩
  rw [hsame.numFiles] at hj
  rw [hsame.pathFor]
  exact h.2 j hj hji

theorem AllApart.same {t t' : TorrentStorage} (h : AllApart t) (hsame : SamePaths t t') :
    AllApart t' := by
  obtain ⟨hdistinct, hpart⟩ := h
  constructor
  · intro i hi j hj
    rw [hsame.numFiles] at hi hj
    rw [hsame.pathFor, hsame.pathFor]
    exact hdistinct i hi j hj
  · intro i hi
    rw [hsame.numFiles] at hi
    rw [hsame.pathFor, hsame.partPath]
    exact hpart i hi

/-- A file's own path is free for it to stay on. -/
theorem AllApart.spare {t : TorrentStorage} (h : AllApart t) {i : Nat} (hi : i < t.numFiles) :
    t.SpareFor i (t.pathFor i) :=
  ⟨h.notPart i hi, fun j hj hji _ heq => hji (h.distinct i hi j hj heq).symm⟩

theorem Apart.spare {t : TorrentStorage} (h : Apart t) {i : Nat} (hi : i < t.numFiles)
    (hpad : t.files.padFileAt i = false) : t.SpareFor i (t.pathFor i) :=
  ⟨h.notPart i hi hpad, fun j hj hji hpj heq => hji (h.distinct i hi j hj hpad hpj heq).symm⟩

variable {W : Type}

theorem TorrentStorage.Rooted.step {log : List (Event W)} {t t' : TorrentStorage} {job : Job}
    {report : Report} (h : t.Rooted) (hstep : Step log t job report t') : t'.Rooted := by
  cases hstep with
  | @renamed index name hlt hsafe =>
    intro i hi
    rw [renameFile_numFiles] at hi
    rw [t.renameFile_pathFor _ _ _ hi, t.renameFile_logicalPath _ _ _ hi, renameFile_saveRoot]
    split
    · rfl
    · exact h i hi
  | moved hsafe haccepted hvalid =>
    intro i hi
    rw [t.setSaveRoot_pathFor _ hi]
    rfl
  | notRenamed error => exact h
  | notMoved error => exact h
  | prioritised hsame =>
    intro i hi
    rw [hsame.numFiles] at hi
    rw [hsame.pathFor, hsame.logicalPath, hsame.saveRoot]
    exact h i hi
  | other _ _ _ _ => exact h

/-- A renaming and a move go to paths that are free; nothing else changes one. -/
theorem AllApart.step {log : List (Event W)} {t t' : TorrentStorage} {job : Job} {report : Report}
    (h : AllApart t) (hrooted : t.Rooted) (hstep : Step log t job report t')
    (hjob : KeepsAllApart t job) : AllApart t' := by
  cases hstep with
  | @renamed index name hlt hsafe =>
    obtain ⟨hpart, hfree⟩ := hjob index hlt rfl hsafe
    constructor
    · intro i hi j hj heq
      rw [renameFile_numFiles] at hi hj
      rw [t.renameFile_pathFor _ _ _ hi, t.renameFile_pathFor _ _ _ hj] at heq
      -- only the file renamed has a new path, and that is free
      by_cases hii : i = index <;> by_cases hjj : j = index
      · rw [hii, hjj]
      · rw [if_pos hii, if_neg hjj] at heq
        exact absurd heq (hfree j hj hjj)
      · rw [if_neg hii, if_pos hjj] at heq
        exact absurd heq.symm (hfree i hi hii)
      · rw [if_neg hii, if_neg hjj] at heq
        exact h.distinct i hi j hj heq
    · intro i hi
      rw [renameFile_numFiles] at hi
      rw [t.renameFile_pathFor _ _ _ hi, renameFile_partPath]
      split
      · exact hpart
      · exact h.notPart i hi
  | @moved path flags status hsafe haccepted hvalid =>
    constructor
    · intro i hi j hj heq
      rw [t.setSaveRoot_pathFor _ hi, t.setSaveRoot_pathFor _ hj, rootedPath_inj] at heq
      refine h.distinct i hi j hj ?_
      rw [hrooted i hi, hrooted j hj, heq]
    · intro i hi
      rw [t.setSaveRoot_pathFor _ hi, normalizedSaveRoot_idem, setSaveRoot_partPath]
      exact hjob hsafe haccepted i hi
  | notRenamed error => exact h
  | notMoved error => exact h
  | prioritised hsame => exact h.same hsame
  | other _ _ _ _ => exact h

/-! ## Keys -/

section Keys

variable {t t' : TorrentStorage} {storage slot : Nat} {file : Int}

/-- Nothing but the part file is open on `part_path`. -/
theorem keys_part (hapart : Apart t) (h : t.keys storage slot file t.partPath) :
    slot = storage ∧ file = -1 := by
  obtain ⟨hslot, ⟨hfile, -⟩ | ⟨i, hi, hpad, -, heq⟩⟩ := h
  · exact ⟨hslot, hfile⟩
  · exact absurd heq.symm (hapart.notPart i hi hpad)

/-- A path spare for file `i` can only be a key of that file. -/
theorem keys_spare {i : Nat} {path : Path} (hspare : t.SpareFor i path)
    (h : t.keys storage slot file path) : slot = storage ∧ file = i := by
  obtain ⟨hslot, ⟨-, heq⟩ | ⟨j, hj, hpad, hfile, heq⟩⟩ := h
  · exact absurd heq hspare.1
  · by_cases hji : j = i
    · exact ⟨hslot, hji ▸ hfile⟩
    · exact absurd heq (hspare.2 j hj hji hpad)

/-- A rename changes the keys of its file alone. -/
theorem keys_renamed {i : Nat} (name new : Path) {path : Path} (h : t.keys storage slot file path)
    (hother : ¬ (slot = storage ∧ file = i)) :
    (t.renameFile i name new).keys storage slot file path := by
  obtain ⟨hslot, hpart | ⟨j, hj, hpad, hfile, hpath⟩⟩ := h
  · exact ⟨hslot, Or.inl hpart⟩
  · refine ⟨hslot, Or.inr ⟨j, hj, hpad, hfile, ?_⟩⟩
    rw [t.renameFile_pathFor _ _ _ hj, if_neg]
    · exact hpath
    · rintro rfl
      exact hother ⟨hslot, hfile⟩

/-- What may be cached depends on the paths alone. -/
theorem TorrentStorage.SamePaths.keys (h : SamePaths t t') (storage : Nat) :
    t'.keys storage = t.keys storage := by
  funext slot file path
  simp only [TorrentStorage.keys, h.partPath, h.numFiles, h.files, h.pathFor]

end Keys

/-! ## Storages that own their documents -/

/-- `KeepsApart`, and what it leaves out: a pad file that is renamed takes no other file's
    document and no other file's name. -/
def KeepsDocuments (t : TorrentStorage) : Job → Prop
  | .renameFile index name =>
      ∀ i < t.numFiles, index = i → safeRelativePath name = true →
        t.SpareFor i (t.pathFor i) ∧ t.SpareFor i (rootedPath t.saveRoot name)
  | job => KeepsApart t job

/-- To spare the documents is more than to keep the paths apart. -/
theorem KeepsDocuments.keepsApart {t : TorrentStorage} {job : Job} (h : KeepsDocuments t job) :
    KeepsApart t job := by
  cases job with
  | renameFile index name => exact fun i hi heq _ hsafe => (h i hi heq hsafe).2
  | _ => exact h

/-- With all paths apart, a free destination has no document of the torrent. -/
theorem AllApart.keepsDocuments {t : TorrentStorage} {job : Job} (h : AllApart t)
    (hjob : KeepsAllApart t job) : KeepsDocuments t job := by
  cases job with
  | renameFile index name => exact fun i hi heq hsafe => ⟨h.spare hi, (hjob i hi heq hsafe).spare⟩
  | moveStorage path flags => exact fun hsafe haccepted i hi _ => hjob hsafe haccepted i hi
  | _ => trivial

/-- The storage's documents are its own, and its cache entries refer to them. -/
structure Owned (storage : Nat) (s : Sys World) : Prop where
  apart : Apart s.torrent
  rooted : s.torrent.Rooted
  coherent : Coherent (s.torrent.keys storage) s.disk

/-! ## What each job does -/

namespace Owned

variable (G : Host) {storage : Nat} {s : Sys World}

theorem paths (h : Owned storage s) {job : Job} (hjob : KeepsDocuments s.torrent job) :
    Apart (runJob G.env true storage job s).2.torrent ∧
      (runJob G.env true storage job s).2.torrent.Rooted :=
  have hstep := runJob_step G.env true storage job s
  ⟨h.apart.step h.rooted hstep fun _ => hjob.keepsApart, h.rooted.step hstep⟩

theorem allApart (h : Owned storage s) (hapart : AllApart s.torrent) {job : Job}
    (hjob : KeepsAllApart s.torrent job) :
    AllApart (runJob G.env true storage job s).2.torrent :=
  hapart.step h.rooted (runJob_step G.env true storage job s) hjob

/-- A job that leaves the torrent as it is. -/
theorem still {s' : Sys World} (h : Owned storage s) (htorrent : s'.torrent = s.torrent)
    (hcoherent : Coherent (s.torrent.keys storage) s'.disk) : Owned storage s' :=
  ⟨htorrent ▸ h.apart, htorrent ▸ h.rooted, htorrent ▸ hcoherent⟩

/-- A write touches no byte outside its request. -/
theorem write (h : Owned storage s) {request : Request} (hrange : request.InRange s.torrent.files)
    {input : List Byte} (hinput : input.length = request.length) :
    let r := runJob G.env true storage (.write request input) s
    Owned storage r.2 ∧ r.2.torrent = s.torrent ∧
      Proceeds (s.torrent.keys storage) s.disk r.2.disk ∧
      Framed s.torrent (s.torrent.files.mapBlock request.piece request.start request.length)
        s.disk.tree r.2.disk.tree := by
  intro r
  obtain ⟨htorrent, hproceeds, hframe, -⟩ := writeJob_spec G true h.coherent h.apart
    (fun _ _ hkey => hkey) hrange hinput
  exact ⟨h.still htorrent hproceeds.coherent, htorrent, hproceeds, hframe⟩

/-- Files may be made and sized; nothing else happens. -/
theorem check (h : Owned storage s) (resume : Option Resume) (links : List Path) :
    let r := runJob G.env true storage (.checkFiles resume links) s
    Owned storage r.2 ∧ r.2.torrent = s.torrent ∧
      Proceeds (s.torrent.keys storage) s.disk r.2.disk ∧
      MadeUp s.torrent s.disk.tree r.2.disk.tree ∧
      (resume = none → ∀ status, r.1 = .checked status none → ∀ i, s.torrent.Public i →
        r.2.disk.tree (s.torrent.pathFor i) =
          sized (s.disk.tree (s.torrent.pathFor i)) (s.torrent.files.fileSize i)) := by
  have hspec := asyncCheckFiles_spec G true h.coherent h.apart (fun _ _ hkey => hkey)
    resume links
  simp only [runJob, onDisk, zoom]
  rcases hrun : asyncCheckFiles G.env true s.torrent storage resume links s.disk with ⟨_ | _, d'⟩
  · obtain ⟨hproceeds, hmade⟩ := wp_error hspec hrun
    refine ⟨h.still rfl hproceeds.coherent, trivial, hproceeds, hmade, fun _ status hreport => ?_⟩
    simp [checkedReport] at hreport
  · obtain ⟨hproceeds, hmade, hsized⟩ := wp_ok hspec hrun
    exact ⟨h.still rfl hproceeds.coherent, trivial, hproceeds, hmade, fun hnone _ _ => hsized hnone⟩

/-- A rename has renamed one document, or nothing has changed. -/
theorem rename (h : Owned storage s) {index : Int} {name : Path}
    (hjob : KeepsDocuments s.torrent (.renameFile index name)) :
    let r := runJob G.env true storage (.renameFile index name) s
    Owned storage r.2 ∧ s.disk.Kept r.2.disk ∧
      ((∃ i : Nat, index = i ∧ i < s.torrent.numFiles ∧ safeRelativePath name = true ∧
        r.1 = .renamed name index none ∧
        r.2.torrent = s.torrent.renameFile i name (rootedPath s.torrent.saveRoot name) ∧
        Renamed s.disk r.2.disk (s.torrent.pathFor i) (rootedPath s.torrent.saveRoot name)) ∨
      ((∃ error, r.1 = .renamed name index (some error)) ∧ r.2.torrent = s.torrent ∧
        Undisturbed (s.torrent.keys storage) s.disk r.2.disk)) := by
  have hold : ∀ i : Nat, index = i → i < s.torrent.numFiles → safeRelativePath name = true →
      ∀ slot file, s.torrent.keys storage slot file (s.torrent.pathFor i) →
        slot = storage ∧ file = i :=
    fun i hindex hi hsafe slot file hkey => keys_spare (hjob i hi hindex hsafe).1 hkey
  have hspec := asyncRenameFile_spec G h.coherent index name hold
  have hpaths := h.paths G hjob
  simp only [runJob] at hpaths ⊢
  rcases hrun : asyncRenameFile G.env storage index name s with ⟨_ | _, s'⟩
  · obtain ⟨htorrent, hundisturbed⟩ := wp_error hspec hrun
    exact ⟨h.still htorrent hundisturbed.coherent, hundisturbed.kept,
      Or.inr ⟨⟨_, rfl⟩, htorrent, hundisturbed⟩⟩
  · obtain ⟨i, rfl, hi, hsafe, htorrent, hcoherent, hkept, hrenamed⟩ := wp_ok hspec hrun
    rw [hrun] at hpaths
    refine ⟨⟨hpaths.1, hpaths.2, ?_⟩, hkept, Or.inl ⟨i, rfl, hi, hsafe, rfl, htorrent, hrenamed⟩⟩
    exact (hcoherent fun _ _ => keys_spare (hjob i hi rfl hsafe).2).mono fun _ _ hkey => htorrent ▸
      keys_renamed name (rootedPath s.torrent.saveRoot name) hkey.1 hkey.2

/-- The files are under the new root, or the torrent is what it was. -/
theorem move (h : Owned storage s) {path : Path} {flags : MoveFlags}
    (hjob : KeepsDocuments s.torrent (.moveStorage path flags)) :
    let r := runJob G.env true storage (.moveStorage path flags) s
    Owned storage r.2 ∧
      ((∃ status, r.1 = .moved status path none ∧
        r.2.torrent = s.torrent.setSaveRoot (normalizedSaveRoot path) ∧
        safeRelativePath path = true ∧
        s.torrent.MoveAllowed (normalizedSaveRoot path) flags s.disk ∧
        Moved s.torrent storage (normalizedSaveRoot path) flags status s.disk r.2.disk) ∨
      ((∃ status error, r.1 = .moved status path (some error)) ∧ r.2.torrent = s.torrent ∧
        NotMoved s.torrent path flags s.disk r.2.disk)) := by
  have hspec := asyncMoveStorage_spec G h.rooted h.apart.distinct storage path flags
    h.coherent.sound
  have hpaths := h.paths G hjob
  simp only [runJob] at hpaths ⊢
  rcases hrun : asyncMoveStorage G.env storage path flags s with ⟨⟨_, _⟩ | _, s'⟩
  · obtain ⟨htorrent, hnot⟩ := wp_error hspec hrun
    exact ⟨h.still htorrent (hnot.coherent h.coherent), Or.inr ⟨⟨_, _, rfl⟩, htorrent, hnot⟩⟩
  · obtain ⟨htorrent, hsafe, hallowed, hmoved⟩ := wp_ok hspec hrun
    rw [hrun] at hpaths
    refine ⟨⟨hpaths.1, hpaths.2, ?_⟩, Or.inl ⟨_, rfl, htorrent, hsafe, hallowed, hmoved⟩⟩
    -- a move leaves no entry of the slot behind
    exact (hmoved.coherent h.coherent fun _ _ _ hkey hne => absurd hkey.1 hne).mono
      fun _ _ hkey => absurd hkey.1.1 hkey.2

/-- A priority change, with an invariant of its loop. -/
theorem prioritise (h : Owned storage s) (priorities : List Priority) {requested : List Priority}
    (hrequested : requested = resizePriorities priorities s.torrent.numFiles)
    (I : Nat → Tree → Prop) (h0 : I 0 s.disk.tree)
    (hstays : ∀ k < s.torrent.numFiles, ∀ tree, I k tree → ¬ s.torrent.Turns requested k →
      I (k + 1) tree)
    (hturns : ∀ k < s.torrent.numFiles, ∀ tree tree', I k tree → s.torrent.Turns requested k →
      s.torrent.HasMigrated k (skips requested k) tree tree' → I (k + 1) tree') :
    let r := runJob G.env true storage (.setFilePriority priorities) s
    Owned storage r.2 ∧ s.disk.Kept r.2.disk ∧
      ((r.1 = .prioritised none requested ∧ Reprioritised storage requested s r.2 ∧
        ∃ tree, I s.torrent.numFiles tree ∧
          r.2.disk.tree = s.torrent.withoutPart requested tree) ∨
      ((∃ error, r.1 = .prioritised (some error) r.2.torrent.priorities) ∧
        ((∃ k < s.torrent.numFiles, Committed storage requested k s r.2 ∧
          s.torrent.Turns requested k ∧ ∃ tree, I k tree ∧
            s.torrent.Unharmed k (skips requested k) tree r.2.disk.tree) ∨
        Committed storage requested s.torrent.numFiles s r.2 ∧
          I s.torrent.numFiles r.2.disk.tree))) := by
  have hspec := asyncSetFilePriority_spec G storage priorities h.coherent.sound h.apart
    hrequested I h0 hstays hturns
  have howned : ∀ {s' : Sys World}, SamePaths s.torrent s'.torrent →
      s.disk.Rearranges s.torrent storage s'.disk → Owned storage s' := by
    intro s' hsame hrearranges
    refine ⟨h.apart.same hsame, fun i hi => ?_, hsame.keys storage ▸ hrearranges.coherent
      (fun _ _ hkey => keys_part h.apart hkey)
      (fun i hi hpad _ _ hkey => keys_spare (h.apart.spare hi hpad) hkey) h.coherent⟩
    rw [hsame.pathFor, hsame.saveRoot, hsame.logicalPath]
    exact h.rooted i (hsame.numFiles ▸ hi)
  simp only [runJob]
  rcases hrun : asyncSetFilePriority G.env storage priorities s with ⟨_ | _, s'⟩
  · rcases wp_error hspec hrun with ⟨k, hk, hcommitted, ht, tree, hI, hunharmed, -⟩ |
      ⟨hcommitted, hI, -⟩
    · exact ⟨howned hcommitted.same hcommitted.migrates.rearranges, hcommitted.migrates.kept,
        Or.inr ⟨⟨_, rfl⟩, Or.inl ⟨k, hk, hcommitted, ht, tree, hI, hunharmed⟩⟩⟩
    · exact ⟨howned hcommitted.same hcommitted.migrates.rearranges, hcommitted.migrates.kept,
        Or.inr ⟨⟨_, rfl⟩, Or.inr ⟨hcommitted, hI⟩⟩⟩
  · obtain ⟨hdone, -, htree⟩ := wp_ok hspec hrun
    exact ⟨howned hdone.same hdone.rearranges, hdone.rearranges.kept,
      Or.inl ⟨by rw [hdone.priorities]; rfl, hdone, htree⟩⟩

/-- Releasing the files, or stopping the torrent, closes descriptors. -/
theorem release (h : Owned storage s) {job : Job}
    (hjob : job = .releaseFiles ∨ job = .stopTorrent) :
    let r := runJob G.env true storage job s
    Owned storage r.2 ∧ r.2.torrent = s.torrent ∧
      Undisturbed (s.torrent.keys storage) s.disk r.2.disk := by
  have hspec := closeStorage_spec (F := StorageError) (R := fun _ _ => False) G storage h.coherent
  have hclosed : Settled (s.torrent.keys storage) s.disk
      ((closeStorage G.env storage : Exec (Disk World) StorageError Unit) s.disk).2 := by
    refine wp_state.mp (wp_mono hspec (fun _ _ hs => ?_) fun _ _ hf => hf.elim)
    exact ⟨⟨⟨hs.coherent.mono fun _ _ hkey => hkey.1, hs.kept, hs.names⟩, hs.tree⟩, hs.io⟩
  rcases hjob with rfl | rfl <;>
    exact ⟨h.still rfl hclosed.coherent, rfl, hclosed.toUndisturbed⟩

/-- A read changes nothing but the cache. -/
theorem read (h : Owned storage s) {request : Request} (hrange : request.InRange s.torrent.files) :
    let r := runJob G.env true storage (.read request) s
    Owned storage r.2 ∧ r.2.torrent = s.torrent ∧
      Undisturbed (s.torrent.keys storage) s.disk r.2.disk := by
  obtain ⟨htorrent, hundisturbed, -, -⟩ :=
    readJob_spec G true h.coherent (fun _ _ hkey => hkey) hrange
  exact ⟨h.still htorrent hundisturbed.coherent, htorrent, hundisturbed⟩

end Owned

end Saf
end Libtorrent4j
