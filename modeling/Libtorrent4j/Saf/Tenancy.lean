import Libtorrent4j.Saf.Hashing
import Libtorrent4j.Saf.Orphans
import Libtorrent4j.Saf.Preserving
import Libtorrent4j.Saf.TornWrites
import Libtorrent4j.Saf.Transparency

/-!
# One storage among others, whatever fails

The disk thread and its descriptor cache serve several storages, and any call may fail. What a
job does is then said in three parts, **for every script of failures**:

* the cache stays coherent, also for the entries of the others (`Leaves.coherent`);
* documents at paths that are not the storage's are left alone (`Leaves.frame`);
* a job that only reorganises loses no byte of the storage (`Preserved`).

`Tenancy` is what a job needs for it, and leaves behind.
-/

namespace Libtorrent4j
namespace Saf

open Lib Lib.Exec TorrentStorage

/-! ## Proper jobs -/

/-- The job stays within the torrent, and gives no file the path of another one or of the part
    file. -/
def Proper (t : TorrentStorage) : Job → Prop
  | .read request => request.InRange t.files
  | .write request input => request.InRange t.files ∧ input.length = request.length
  | .hash piece _ _ => piece < t.files.numPieces ∧
      pieceStart t piece + t.files.pieceSize2 piece ≤ totalSize t.files.entries
  | .hash2 piece _ => pieceStart t piece + t.files.pieceSize2 piece ≤ totalSize t.files.entries
  | .renameFile index name => KeepsAllApart t (.renameFile index name)
  | .moveStorage path _ =>
      ∀ i < t.numFiles, t.destination (normalizedSaveRoot path) i ≠ t.partPath
  | _ => True

instance (t : TorrentStorage) : (job : Job) → Decidable (Proper t job)
  | .read request => inferInstanceAs (Decidable (request.InRange t.files))
  | .write request input =>
      inferInstanceAs (Decidable (request.InRange t.files ∧ input.length = request.length))
  | .hash piece _ _ => inferInstanceAs (Decidable (piece < t.files.numPieces ∧
      pieceStart t piece + t.files.pieceSize2 piece ≤ totalSize t.files.entries))
  | .hash2 piece _ => inferInstanceAs (Decidable
      (pieceStart t piece + t.files.pieceSize2 piece ≤ totalSize t.files.entries))
  | .renameFile index name => inferInstanceAs (Decidable (KeepsAllApart t (.renameFile index name)))
  | .moveStorage path _ => inferInstanceAs (Decidable
      (∀ i < t.numFiles, t.destination (normalizedSaveRoot path) i ≠ t.partPath))
  | .releaseFiles | .checkFiles _ _ | .stopTorrent | .deleteFiles _ _ | .setFilePriority _
  | .clearPiece _ => inferInstanceAs (Decidable True)

theorem Proper.keepsAllApart {t : TorrentStorage} {job : Job} (h : Proper t job) :
    KeepsAllApart t job := by
  cases job with
  | renameFile index name => exact h
  | moveStorage path flags => exact fun _ _ => h
  | _ => trivial

/-! ## Keys -/

namespace Keys

variable {K : Keys} {storage : Nat} {t t' : TorrentStorage}

theorem own_assign (K : Keys) (storage : Nat) (t : TorrentStorage) :
    (K.assign storage t).Own storage t := by
  intro file path
  unfold assign
  rw [if_pos rfl]

theorem Clear.assign (h : K.Clear storage t) : (K.assign storage t).Clear storage t :=
  fun slot file path hkey hne => h slot file path ((assign_of_ne hne).mp hkey) hne

/-- The keys of one storage alone. -/
theorem own_keys (t : TorrentStorage) (storage : Nat) : (t.keys storage).Own storage t :=
  fun _ _ => Iff.rfl

theorem clear_keys (t t' : TorrentStorage) (storage : Nat) : (t.keys storage).Clear storage t' :=
  fun _ _ _ hkey hne => absurd hkey.1 hne

theorem assign_keys (t t' : TorrentStorage) (storage : Nat) :
    (t.keys storage).assign storage t' = t'.keys storage := by
  funext slot file path
  unfold assign
  split
  · rename_i hslot
    rw [hslot]
  · rename_i hslot
    have hnot : ∀ t : TorrentStorage, ¬ t.keys storage slot file path := fun t hkey => hslot hkey.1
    exact propext ⟨fun h => absurd h (hnot t), fun h => absurd h (hnot t')⟩

end Keys

/-! ## Hashing reads the array -/

section Hash

variable (G : Host) {K : Keys} {t : TorrentStorage} {storage : Nat} {d : Disk World}

/-- The hashes of a piece are hashes of what the array holds there, as much as is asked for. -/
theorem asyncHash_reads (reuse : Bool) (h : Coherent K d)
    (hK : ∀ file path, t.keys storage storage file path → K storage file path) {piece : Nat}
    (hpiece : piece < t.files.numPieces)
    (hsize2 : pieceStart t piece + t.files.pieceSize2 piece ≤ totalSize t.files.entries)
    (v1 : Bool) (room : Nat) :
    wp (asyncHash G.env reuse t storage piece v1 room)
      (fun answer d' => Undisturbed K d d' ∧ ∃ bytes,
        (v1 = true → t.files.pieceSize piece ≤ bytes.length) ∧
        (0 < room → t.files.pieceSize2 piece ≤ bytes.length) ∧
        t.Holds d.tree (pieceStart t piece) bytes ∧
        (v1 = true → answer.1 = G.env.hasher (bytes.take (t.files.pieceSize piece))) ∧
        (0 < room → answer.2 = (List.range (t.files.blocksInPiece2 piece)).map fun block =>
          G.env.hasher256 (blockAt bytes (t.files.pieceSize2 piece) block)))
      (fun _ d' => Undisturbed K d d') d := by
  have hsize := t.files.pieceSize_le piece hpiece
  rw [asyncHash]
  simp only [wp_bind]
  refine wp_mono (readForHash_spec G reuse h hK ?_) ?_ fun _ _ hund => hund
  · unfold pieceStart at *
    split <;> split <;> omega
  · rintro out d' ⟨hund, hlen, hholds⟩
    rw [wp_throwIf]
    refine ⟨fun _ => hund, fun _ => ⟨hund, out, ?_, ?_, hholds, ?_, ?_⟩⟩
    · rintro rfl
      rw [hlen, if_pos rfl]
      exact le_max_left _ _
    · intro hroom
      rw [hlen, if_pos (decide_eq_true hroom)]
      exact le_max_right _ _
    · rintro rfl
      rw [← hlen, Doc.resize_length, if_pos rfl, if_pos rfl]
    · intro hroom
      have hv2 : decide (0 < room) = true := decide_eq_true hroom
      rw [← hlen, Doc.resize_length]
      simp only [hv2, if_true]
      rfl

theorem asyncHash2_reads (reuse : Bool) (h : Coherent K d)
    (hK : ∀ file path, t.keys storage storage file path → K storage file path) {piece : Nat}
    (hsize2 : pieceStart t piece + t.files.pieceSize2 piece ≤ totalSize t.files.entries)
    (offset : Nat) :
    wp (asyncHash2 G.env reuse t storage piece offset)
      (fun answer d' => Undisturbed K d d' ∧ ∃ bytes,
        bytes.length = min defaultBlockSize (t.files.pieceSize2 piece - offset) ∧
        t.Holds d.tree (pieceStart t piece + offset) bytes ∧ answer = G.env.hasher256 bytes)
      (fun _ d' => Undisturbed K d d') d := by
  rw [asyncHash2, wp_bind, wp_throwIf]
  refine ⟨fun _ => .refl h, fun hne => ?_⟩
  let length := min defaultBlockSize (t.files.pieceSize2 piece - offset)
  have hin : Request.InRange t.files { piece, start := offset, length } := by
    simp only [length, Request.InRange, Request.pos]
    unfold pieceStart at hsize2
    omega
  rw [wp_bind, wp_mapError]
  refine wp_mono (readSlices_spec G reuse h hK hin.covers []) ?_ ?_
  · rintro out d' ⟨hund, bytes, hout, hlen, hholds⟩
    obtain rfl : out = bytes := hout
    replace hlen : out.length = min defaultBlockSize (t.files.pieceSize2 piece - offset) := hlen
    rw [wp_ret]
    refine ⟨hund, out, hlen, hholds, ?_⟩
    rw [← hlen, Doc.resize_length]
  · rintro e d' ⟨hund, -, -⟩
    exact hund

end Hash

/-! ## Tenancy -/

/-- The storage has its slot's keys, no other slot has its paths, and the cache they share is
    coherent. -/
structure Tenancy (K : Keys) (storage : Nat) (s : Sys World) : Prop where
  coherent : Coherent K s.disk
  own : K.Own storage s.torrent
  clear : K.Clear storage s.torrent
  apart : AllApart s.torrent
  rooted : s.torrent.Rooted

/-- What a job leaves of the disk; `F` are the paths it may use. -/
structure Leaves (K : Keys) (storage : Nat) (F : Path → Prop) (s s' : Sys World) : Prop where
  coherent : Coherent (K.assign storage s'.torrent) s'.disk
  kept : s.disk.Kept s'.disk
  frame : ∀ path, ¬ F path → s'.disk.tree path = s.disk.tree path

variable {K : Keys} {storage : Nat} {F : Path → Prop} {s s' : Sys World}

namespace Tenancy

variable (G : Host)

theorem keys (h : Tenancy K storage s) (file : Int) (path : Path)
    (hkey : s.torrent.keys storage storage file path) : K storage file path :=
  (h.own file path).mpr hkey

theorem scripted (h : Tenancy K storage s) (bridge : List BridgeFault) (io : List IoFault) :
    Tenancy K storage { torrent := s.torrent, disk := s.disk.scripted bridge io } :=
  ⟨h.coherent.scripted bridge io, h.own, h.clear, h.apart, h.rooted⟩

theorem after (h : Tenancy K storage s) {job : Job} (hproper : Proper s.torrent job)
    (hleaves : Leaves K storage F s (runJob G.env true storage job s).2)
    (hclear : K.Clear storage (runJob G.env true storage job s).2.torrent) :
    Tenancy (K.assign storage (runJob G.env true storage job s).2.torrent) storage
      (runJob G.env true storage job s).2 :=
  have hstep := runJob_step G.env true storage job s
  ⟨hleaves.coherent, Keys.own_assign _ _ _, hclear.assign,
    h.apart.step h.rooted hstep hproper.keepsAllApart, h.rooted.step hstep⟩

/-! ## Jobs that leave the torrent as it is -/

theorem leaves_proceeds (h : Tenancy K storage s) (htorrent : s'.torrent = s.torrent)
    (hproceeds : Proceeds K s.disk s'.disk)
    (hframe : ∀ path, ¬ F path → s'.disk.tree path = s.disk.tree path) :
    Leaves K storage F s s' := by
  refine ⟨?_, hproceeds.kept, hframe⟩
  rw [htorrent, Keys.assign_self h.own]
  exact hproceeds.coherent

theorem leaves_undisturbed (h : Tenancy K storage s) (htorrent : s'.torrent = s.torrent)
    (hundisturbed : Undisturbed K s.disk s'.disk) : Leaves K storage F s s' :=
  h.leaves_proceeds htorrent hundisturbed.toProceeds fun path _ => congrFun hundisturbed.tree path

theorem release (h : Tenancy K storage s) {job : Job}
    (hjob : job = .releaseFiles ∨ job = .stopTorrent) :
    let r := runJob G.env true storage job s
    r.2.torrent = s.torrent ∧ Undisturbed K s.disk r.2.disk := by
  have hspec := closeStorage_spec (F := StorageError) (R := fun _ _ => False) G storage h.coherent
  have hclosed : Undisturbed K s.disk
      ((closeStorage G.env storage : Exec (Disk World) StorageError Unit) s.disk).2 := by
    refine wp_state.mp (wp_mono hspec (fun _ _ hs => ?_) fun _ _ hf => hf.elim)
    exact ⟨⟨hs.coherent.mono fun _ _ hkey => hkey.1, hs.kept, hs.names⟩, hs.tree⟩
  rcases hjob with rfl | rfl <;> exact ⟨rfl, hclosed⟩

variable (hF : ∀ path ∈ s.torrent.usedPaths, F path)

include hF in
theorem write (h : Tenancy K storage s) {request : Request}
    (hrange : request.InRange s.torrent.files) {input : List Byte}
    (hinput : input.length = request.length) :
    Leaves K storage F s (runJob G.env true storage (.write request input) s).2 := by
  obtain ⟨htorrent, hproceeds, hframe, -⟩ :=
    writeJob_spec G true h.coherent h.apart.apart h.keys hrange hinput
  refine h.leaves_proceeds htorrent hproceeds fun path hpath => hframe path ?_
  intro slice hslice hpad heq
  refine hpath (hF path ?_)
  rw [heq, homePath]
  split
  · exact s.torrent.partPath_mem
  · exact pathFor_mem (hrange.covers.lt_of_mem hslice)

/-- A check makes documents longer, or cuts them at the end of the file. -/
theorem check (h : Tenancy K storage s) (resume : Option Resume) (links : List Path) :
    let r := runJob G.env true storage (.checkFiles resume links) s
    r.2.torrent = s.torrent ∧ Proceeds K s.disk r.2.disk ∧
      MadeUp s.torrent s.disk.tree r.2.disk.tree := by
  have hspec := asyncCheckFiles_spec G true h.coherent h.apart.apart h.keys resume links
  refine ⟨rfl, ?_⟩
  exact wp_state.mp (wp_mono hspec (fun _ _ hok => ⟨hok.1, hok.2.1⟩) fun _ _ herror => herror)

include hF in
theorem check_leaves (h : Tenancy K storage s) (resume : Option Resume) (links : List Path) :
    Leaves K storage F s (runJob G.env true storage (.checkFiles resume links) s).2 := by
  obtain ⟨htorrent, hproceeds, hmade⟩ := h.check G resume links
  refine h.leaves_proceeds htorrent hproceeds fun path hpath => hmade.frame path ?_
  rintro i hi rfl
  exact hpath (hF _ (pathFor_mem hi.1))

theorem check_preserves (h : Tenancy K storage s) (resume : Option Resume) (links : List Path) :
    Preserved s (runJob G.env true storage (.checkFiles resume links) s).2 := by
  obtain ⟨htorrent, -, hmade⟩ := h.check G resume links
  refine preserved_in_place (congrArg _ htorrent) (fun _ => by rw [htorrent]) ?_
    fun i hi hpad hskipped hsafe doc hdoc => ?_
  · rw [htorrent, hmade.frame _ fun j hj => (h.apart.notPart j hj.1).symm]
  · rw [htorrent]
    refine ⟨hsafe, ?_⟩
    rcases hmade.each i ⟨hi, hpad, hskipped⟩ with hsame | hthere | hsized
    · exact ⟨doc, hsame.trans hdoc, fun _ _ _ hbyte => hbyte⟩
    · exact ⟨doc, by rw [hthere, hdoc, Option.getD_some], fun _ _ _ hbyte => hbyte⟩
    · refine ⟨_, hsized, fun offset hoffset b hbyte => ?_⟩
      rw [hdoc, Option.getD_some]
      exact Doc.getElem?_resize_of_some hbyte hoffset

/-! ## Deleting -/

/-- A deletion changes no document but those it removes. -/
theorem delete (s : Sys World) (storage : Nat) (deleteFiles deletePartfile : Bool) :
    let r := runJob G.env true storage (.deleteFiles deleteFiles deletePartfile) s
    r.2.torrent = s.torrent ∧ s.disk.Kept r.2.disk ∧
      ∀ path, path ∉ (s.torrent.deleteTargets deleteFiles deletePartfile).map Prod.snd →
        r.2.disk.tree path = s.disk.tree path := by
  refine ⟨rfl, ?_⟩
  refine (wp_state (P := fun d' : Disk World => s.disk.Kept d' ∧ ∀ path,
    path ∉ (s.torrent.deleteTargets deleteFiles deletePartfile).map Prod.snd →
      d'.tree path = s.disk.tree path)).mp ?_
  rw [asyncDeleteFiles, wp_bind]
  refine wp_mono (R := fun _ _ => False) (closeStorage_still G storage) ?_ fun _ _ h => h.elim
  rintro _ d₁ ⟨hstill, -⟩
  rw [wp_bind]
  refine wp_mono (removeEach_spec G _ s.torrent.pathFor (fun index => (index : Int)) d₁) ?_
    fun _ _ h => h.elim
  rintro _ d₂ ⟨files, hfiles, -, hremoved⟩
  rw [wp_bind]
  refine wp_mono (removeEach_spec G _ (fun path => path) (fun _ => -1) d₂) ?_ fun _ _ h => h.elim
  rintro _ d₃ ⟨part, hpart, -, hremoved'⟩
  have hall := hremoved.trans hremoved'
  have hframe : s.disk.Kept d₃ ∧ ∀ path,
      path ∉ (s.torrent.deleteTargets deleteFiles deletePartfile).map Prod.snd →
        d₃.tree path = s.disk.tree path := by
    refine ⟨hstill.kept.trans hall.spares.kept, fun path hpath => ?_⟩
    rcases hall.frame path with ⟨-, htree⟩ | ⟨-, removal, hin, rfl⟩
    · rw [htree, hstill.tree]
    · refine absurd ?_ hpath
      have heach : (files ++ part).map (fun removal => (removal.file, removal.path)) =
          s.torrent.deleteTargets deleteFiles deletePartfile := by
        rw [List.map_append, hfiles, hpart]
        rfl
      rw [← heach, List.map_map]
      exact List.mem_map_of_mem hin
  split
  · exact hframe
  · exact hframe

theorem deleteTargets_used {t : TorrentStorage} {deleteFiles deletePartfile : Bool} {path : Path}
    (h : path ∈ (t.deleteTargets deleteFiles deletePartfile).map Prod.snd) :
    path ∈ t.usedPaths := by
  simp only [deleteTargets, List.map_append, List.map_map, List.mem_append, List.mem_map] at h
  rcases h with ⟨i, hi, rfl⟩ | ⟨p, hp, rfl⟩
  · split at hi
    · exact pathFor_mem (t.files.mem_indices.mp (List.mem_filter.mp hi).1)
    · cases hi
  · split at hp
    · obtain rfl := List.mem_singleton.mp hp
      exact t.partPath_mem
    · cases hp

include hF in
theorem delete_leaves (h : Tenancy K storage s) (deleteFiles deletePartfile : Bool) :
    Leaves K storage F s
      (runJob G.env true storage (.deleteFiles deleteFiles deletePartfile) s).2 := by
  obtain ⟨-, hkept, hframe⟩ := delete G s storage deleteFiles deletePartfile
  exact ⟨coherent_delete G h.coherent h.clear deleteFiles deletePartfile, hkept,
    fun path hpath => hframe path fun hin => hpath (hF path (deleteTargets_used hin))⟩

/-! ## Renaming and moving -/

/-- A rename has renamed one document, or nothing has changed. -/
theorem rename (h : Tenancy K storage s) (index : Int) (name : Path) :
    let r := runJob G.env true storage (.renameFile index name) s
    s.disk.Kept r.2.disk ∧
      ((∃ i : Nat, index = i ∧ i < s.torrent.numFiles ∧ safeRelativePath name = true ∧
        r.2.torrent = s.torrent.renameFile i name (rootedPath s.torrent.saveRoot name) ∧
        Renamed s.disk r.2.disk (s.torrent.pathFor i) (rootedPath s.torrent.saveRoot name)) ∨
      r.2.torrent = s.torrent ∧ r.2.disk.tree = s.disk.tree) := by
  have hspec : wp (asyncRenameFile G.env storage index name) _ _ s :=
    asyncRenameFile_spec G h.coherent index name
      fun i _ hi _ _ _ => h.own.spare h.clear (h.apart.spare hi) (pathFor_mem hi)
  simp only [runJob]
  rcases hrun : asyncRenameFile G.env storage index name s with ⟨_ | _, s'⟩
  · obtain ⟨htorrent, hundisturbed⟩ := wp_error hspec hrun
    exact ⟨hundisturbed.kept, Or.inr ⟨htorrent, hundisturbed.tree⟩⟩
  · obtain ⟨i, rfl, hi, hsafe, htorrent, -, hkept, hrenamed⟩ := wp_ok hspec hrun
    exact ⟨hkept, Or.inl ⟨i, rfl, hi, hsafe, htorrent, hrenamed⟩⟩

include hF in
theorem rename_leaves (h : Tenancy K storage s) {index : Int} {name : Path}
    (hproper : Proper s.torrent (.renameFile index name))
    (hwithin : (Job.renameFile index name).Within F s.torrent)
    (hclear : K.Clear storage (runJob G.env true storage (.renameFile index name) s).2.torrent) :
    Leaves K storage F s (runJob G.env true storage (.renameFile index name) s).2 := by
  have hstep := runJob_step G.env true storage (.renameFile index name) s
  have hspares := h.apart.spares (h.apart.step h.rooted hstep hproper.keepsAllApart) hstep
  obtain ⟨hkept, hcases⟩ := h.rename G index name
  refine ⟨coherent_rename G h.coherent h.own h.clear index name hspares hclear, hkept,
    fun path hpath => ?_⟩
  rcases hcases with ⟨i, hindex, hi, hsafe, -, hrenamed⟩ | ⟨-, htree⟩
  · rw [hrenamed.tree, Function.update_of_ne, Function.update_of_ne]
    · rintro rfl
      exact hpath (hF _ (pathFor_mem hi))
    · rintro rfl
      exact hpath (hwithin i hindex hi hsafe)
  · exact congrFun htree path

theorem rename_preserves (h : Tenancy K storage s) {index : Int} {name : Path}
    (hproper : Proper s.torrent (.renameFile index name)) :
    Preserved s (runJob G.env true storage (.renameFile index name) s).2 := by
  obtain ⟨-, ⟨i, hindex, hi, hsafe, htorrent, hrenamed⟩ | ⟨htorrent, htree⟩⟩ :=
    h.rename G index name
  · obtain ⟨hpart, hnew⟩ := hproper i hi hindex hsafe
    refine preserved_in_place (by rw [htorrent, renameFile_files])
      (fun _ => by rw [htorrent, renameFile_skipped]) ?_ fun j hj hpad _ hsafe' doc hdoc => ?_
    · -- neither path is the part file's
      rw [htorrent, renameFile_partPath, hrenamed.tree, Function.update_of_ne hpart.symm,
        Function.update_of_ne (h.apart.notPart i hi).symm]
    · rw [htorrent, s.torrent.renameFile_pathFor _ _ _ hj, hrenamed.tree]
      by_cases hji : j = i
      · subst hji
        rw [if_pos rfl, Function.update_self]
        rw [h.rooted j hj] at hsafe'
        exact ⟨safe_rootedPath_of hsafe' hsafe, doc, hdoc, fun _ _ _ hbyte => hbyte⟩
      · rw [if_neg hji, Function.update_of_ne (hnew j hj hji).symm,
          Function.update_of_ne fun heq => hji (h.apart.distinct j hj i hi heq)]
        exact ⟨hsafe', doc, hdoc, fun _ _ _ hbyte => hbyte⟩
  · exact preserved_of_same htorrent htree

/-- A move has been made, or some copies at most. -/
theorem move (h : Tenancy K storage s) (path : Path) (flags : MoveFlags) :
    let r := runJob G.env true storage (.moveStorage path flags) s
    (∃ status, r.1 = .moved status path none ∧
        r.2.torrent = s.torrent.setSaveRoot (normalizedSaveRoot path) ∧
        safeRelativePath path = true ∧
        s.torrent.MoveAllowed (normalizedSaveRoot path) flags s.disk ∧
        Moved s.torrent storage (normalizedSaveRoot path) flags status s.disk r.2.disk) ∨
      ((∃ status error, r.1 = .moved status path (some error)) ∧ r.2.torrent = s.torrent ∧
        NotMoved s.torrent path flags s.disk r.2.disk) := by
  have hspec := asyncMoveStorage_spec G h.rooted h.apart.apart.distinct storage path flags
    h.coherent.sound
  simp only [runJob]
  rcases hrun : asyncMoveStorage G.env storage path flags s with ⟨⟨_, _⟩ | _, s'⟩
  · obtain ⟨htorrent, hnot⟩ := wp_error hspec hrun
    exact Or.inr ⟨⟨_, _, rfl⟩, htorrent, hnot⟩
  · obtain ⟨htorrent, hsafe, hallowed, hmoved⟩ := wp_ok hspec hrun
    exact Or.inl ⟨_, rfl, htorrent, hsafe, hallowed, hmoved⟩

include hF in
theorem move_leaves (h : Tenancy K storage s) {path : Path} {flags : MoveFlags}
    (hwithin : (Job.moveStorage path flags).Within F s.torrent) :
    Leaves K storage F s (runJob G.env true storage (.moveStorage path flags) s).2 := by
  by_cases hsafe : safeRelativePath path = true
  · have hcoherent := coherent_move G h.coherent h.own h.clear h.apart.apart h.rooted path flags
    rcases h.move G path flags with ⟨status, -, -, -, -, hmoved⟩ | ⟨-, -, hnot⟩
    · refine ⟨hcoherent, hmoved.kept, fun p hp => ?_⟩
      rcases hmoved.frame p fun i hi _ heq => hp (heq ▸ hwithin hsafe i hi) with
        hsame | ⟨-, ⟨i, hi, -, rfl⟩, -⟩
      · exact hsame
      · exact absurd (hF _ (pathFor_mem hi)) hp
    · refine ⟨hcoherent, hnot.kept, fun p hp => ?_⟩
      rcases hnot.copied with htree | ⟨-, hframe, -⟩
      · exact congrFun htree p
      · exact hframe p fun i hi _ _ heq => hp (heq ▸ hwithin hsafe i hi)
  · -- such a path is refused before anything is done
    have hrefused : (runJob G.env true storage (.moveStorage path flags) s).2 = s := by
      have hfalse : safeRelativePath path = false := by simpa using hsafe
      simp only [runJob, asyncMoveStorage, throwIf, hfalse, if_true]
      rfl
    rw [hrefused]
    exact h.leaves_undisturbed rfl (.refl h.coherent)

/-! ## Priorities -/

/-- A priority change, with an invariant of its loop. -/
theorem prioritise (h : Tenancy K storage s) (priorities : List Priority)
    {requested : List Priority}
    (hrequested : requested = resizePriorities priorities s.torrent.numFiles)
    (I : Nat → Tree → Prop) (h0 : I 0 s.disk.tree)
    (hstays : ∀ k < s.torrent.numFiles, ∀ tree, I k tree → ¬ s.torrent.Turns requested k →
      I (k + 1) tree)
    (hturns : ∀ k < s.torrent.numFiles, ∀ tree tree', I k tree → s.torrent.Turns requested k →
      s.torrent.HasMigrated k (skips requested k) tree tree' → I (k + 1) tree') :
    let s' := (runJob G.env true storage (.setFilePriority priorities) s).2
    s.disk.Kept s'.disk ∧
      ((Reprioritised storage requested s s' ∧ ∃ tree, I s.torrent.numFiles tree ∧
          s'.disk.tree = s.torrent.withoutPart requested tree) ∨
      (∃ k < s.torrent.numFiles, Committed storage requested k s s' ∧
        s.torrent.Turns requested k ∧ ∃ tree, I k tree ∧
          s.torrent.Unharmed k (skips requested k) tree s'.disk.tree) ∨
      Committed storage requested s.torrent.numFiles s s' ∧
        I s.torrent.numFiles s'.disk.tree) := by
  have hspec := asyncSetFilePriority_spec G storage priorities h.coherent.sound h.apart.apart
    hrequested I h0 hstays hturns
  simp only [runJob]
  rcases hrun : asyncSetFilePriority G.env storage priorities s with ⟨_ | _, s'⟩
  · rcases wp_error hspec hrun with ⟨k, hk, hcommitted, ht, tree, hI, hunharmed, -⟩ |
      ⟨hcommitted, hI, -⟩
    · exact ⟨hcommitted.migrates.kept,
        Or.inr (Or.inl ⟨k, hk, hcommitted, ht, tree, hI, hunharmed⟩)⟩
    · exact ⟨hcommitted.migrates.kept, Or.inr (Or.inr ⟨hcommitted, hI⟩)⟩
  · obtain ⟨hdone, -, htree⟩ := wp_ok hspec hrun
    exact ⟨hdone.rearranges.kept, Or.inl ⟨hdone, htree⟩⟩

include hF in
theorem prioritise_leaves (h : Tenancy K storage s) (priorities : List Priority) :
    Leaves K storage F s (runJob G.env true storage (.setFilePriority priorities) s).2 := by
  have hcoherent := (coherent_prioritise G h.coherent h.own h.clear h.apart.apart priorities).2
  have hfile : ∀ i < s.torrent.numFiles, ∀ path, ¬ F path → path ≠ s.torrent.pathFor i := by
    rintro i hi path hpath rfl
    exact hpath (hF _ (pathFor_mem hi))
  have hpart : ∀ path, ¬ F path → path ≠ s.torrent.partPath := by
    rintro path hpath rfl
    exact hpath (hF _ s.torrent.partPath_mem)
  obtain ⟨hkept, hcases⟩ := h.prioritise G priorities rfl
    (fun _ tree => ∀ path, ¬ F path → tree path = s.disk.tree path) (fun _ _ => rfl)
    (fun _ _ _ hI _ => hI) fun k hk tree tree' hI ht hm path hpath =>
      (hm.other (hfile k hk path hpath) (hpart path hpath)).trans (hI path hpath)
  refine ⟨hcoherent, hkept, ?_⟩
  rcases hcases with ⟨-, tree, hI, htree⟩ | ⟨k, hk, -, ht, tree, hI, hunharmed⟩ | ⟨-, hI⟩
  · intro path hpath
    rw [htree, withoutPart_of_ne (hpart path hpath)]
    exact hI path hpath
  · intro path hpath
    rw [hunharmed.other (hfile k hk path hpath) (hpart path hpath)]
    exact hI path hpath
  · exact hI

theorem prioritise_preserves (h : Tenancy K storage s) (priorities : List Priority) :
    Preserved s (runJob G.env true storage (.setFilePriority priorities) s).2 := by
  have hlen : (resizePriorities priorities s.torrent.numFiles).length = s.torrent.numFiles :=
    resizePriorities_length _ _
  have hapart := h.apart.apart
  obtain ⟨-, hcases⟩ := h.prioritise G priorities rfl
    (s.torrent.StillKept (resizePriorities priorities s.torrent.numFiles) s.disk.tree) .zero
    (fun _ _ _ hI hnot => hI.stay hnot) fun _ hk _ _ hI ht hm => hI.turn hapart hk ht hm
  have hkept : ∀ {k : Nat} {s' : Sys World},
      Committed storage (resizePriorities priorities s.torrent.numFiles) k s s' →
      s.torrent.StillKept (resizePriorities priorities s.torrent.numFiles) s.disk.tree k
        s'.disk.tree → Preserved s s' := by
    intro k s' hcommitted hI
    refine preserved_of hcommitted.same.files fun i hi hpad offset hoffset b hb => ?_
    have hthere := hI i hi hpad offset hoffset b hb
    rw [← hcommitted.skipped_eq hlen hi] at hthere
    rw [hcommitted.same.keptAt]
    exact hthere
  rcases hcases with ⟨hdone, tree, hI, htree⟩ | ⟨k, hk, hcommitted, ht, tree, hI, hunharmed⟩ |
    ⟨hcommitted, hI⟩
  · refine preserved_of hdone.same.files fun i hi hpad offset hoffset b hb => ?_
    have hthere := hI i hi hpad offset hoffset b hb
    rw [if_pos hi] at hthere
    rw [hdone.same.keptAt, htree, (_ : TorrentStorage).skipped_of_lt (hdone.same.numFiles ▸ hi),
      TorrentStorage.priority, hdone.priorities]
    exact keptAt_withoutPart hapart hlen hi hpad hthere
  · exact hkept hcommitted (hI.failed hapart hk ht hunharmed)
  · exact hkept hcommitted hI

include hF in
/-- **A job leaves the disk to the others**, whatever fails in it. -/
theorem leaves (h : Tenancy K storage s) {job : Job} (hproper : Proper s.torrent job)
    (hwithin : job.Within F s.torrent)
    (hclear : K.Clear storage (runJob G.env true storage job s).2.torrent) :
    Leaves K storage F s (runJob G.env true storage job s).2 := by
  cases job with
  | read request =>
    obtain ⟨htorrent, hundisturbed, -⟩ := readJob_spec G true h.coherent h.keys hproper
    exact h.leaves_undisturbed htorrent hundisturbed
  | write request input => exact h.write G hF hproper.1 hproper.2
  | hash piece v1 room =>
    exact h.leaves_undisturbed rfl (wp_state.mp (wp_mono (asyncHash_reads G true h.coherent h.keys
      hproper.1 hproper.2 v1 room) (fun _ _ hok => hok.1) fun _ _ herr => herr))
  | hash2 piece offset =>
    exact h.leaves_undisturbed rfl (wp_state.mp (wp_mono (asyncHash2_reads G true h.coherent h.keys
      hproper offset) (fun _ _ hok => hok.1) fun _ _ herr => herr))
  | moveStorage path flags => exact h.move_leaves G hF hwithin
  | releaseFiles =>
    obtain ⟨htorrent, hundisturbed⟩ := h.release G (Or.inl rfl)
    exact h.leaves_undisturbed htorrent hundisturbed
  | checkFiles resume links => exact h.check_leaves G hF resume links
  | stopTorrent =>
    obtain ⟨htorrent, hundisturbed⟩ := h.release G (Or.inr rfl)
    exact h.leaves_undisturbed htorrent hundisturbed
  | renameFile index name => exact h.rename_leaves G hF hproper hwithin hclear
  | deleteFiles files part => exact h.delete_leaves G hF files part
  | setFilePriority priorities => exact h.prioritise_leaves G hF priorities
  | clearPiece piece => exact h.leaves_undisturbed rfl (.refl h.coherent)

theorem step (h : Tenancy K storage s) {job : Job} (hproper : Proper s.torrent job)
    (hclear : K.Clear storage (runJob G.env true storage job s).2.torrent) :
    Tenancy (K.assign storage (runJob G.env true storage job s).2.torrent) storage
      (runJob G.env true storage job s).2 :=
  h.after G hproper (h.leaves G (F := fun _ => True) (fun _ _ => trivial) hproper
    (job.within_all s.torrent) hclear) hclear

end Tenancy

end Saf
end Libtorrent4j
