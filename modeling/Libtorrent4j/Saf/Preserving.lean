import Libtorrent4j.Saf.Owning
import Libtorrent4j.Saf.PriorityChange
import Libtorrent4j.Saf.Readable

/-!
# No reorganising operation loses data

Checks, renames, moves, priority changes and the closing jobs change where a byte is kept: under
the file's path, under a new one, or in the part file. **None of them loses a byte**, wherever
it stops: what `read_block` could return before is returned after.

A priority change is the one that moves bytes inside the torrent. `keptAt` is a byte of a file
under either home, so that the loop's invariant can say which home counts before the priorities
are all set.
-/

namespace Libtorrent4j
namespace Saf

open Lib Lib.Exec TorrentStorage

namespace TorrentStorage

/-- A byte of a file in the part file, or under the file's own path. -/
def keptAt (t : TorrentStorage) (tree : Tree) (skipped : Bool) (i offset : Nat) : Option Byte :=
  if skipped then (tree t.partPath).bind fun doc => doc[t.files.fileOffset i + offset]?
  else if safeRelativePath (t.pathFor i) then (tree (t.pathFor i)).bind fun doc => doc[offset]?
  else none

variable {t t' : TorrentStorage} {tree tree' : Tree} {i offset : Nat} {b : Byte}

theorem byteAt_eq_keptAt {q : Nat} (h : LiesAt t.files.entries q i offset)
    (hpad : t.files.padFileAt i = false) :
    t.byteAt tree q = t.keptAt tree (t.skipped i) i offset := by
  rw [byteAt, locate_eq_some_iff.mpr h, keptAt]
  dsimp only
  rw [hpad, if_neg Bool.false_ne_true, homePath]
  simp only [homeOffset]
  cases hskipped : t.skipped i with
  | true => simp [t.safe_partPath]
  | false => simp

theorem keptAt_part : t.keptAt tree true i offset = some b ↔
    ∃ doc, tree t.partPath = some doc ∧ doc[t.files.fileOffset i + offset]? = some b := by
  rw [keptAt, if_pos rfl, Option.bind_eq_some_iff]

theorem keptAt_file : t.keptAt tree false i offset = some b ↔
    safeRelativePath (t.pathFor i) = true ∧
      ∃ doc, tree (t.pathFor i) = some doc ∧ doc[offset]? = some b := by
  rw [keptAt, if_neg Bool.false_ne_true]
  cases hsafe : safeRelativePath (t.pathFor i) with
  | true => simp [Option.bind_eq_some_iff]
  | false => simp

theorem SamePaths.keptAt (h : SamePaths t t') : t'.keptAt = t.keptAt := by
  funext tree skipped i offset
  simp only [TorrentStorage.keptAt, h.partPath, h.files, h.pathFor]

/-- Bytes of different files are at different places of the part file. -/
theorem part_apart {j : Nat} (hi : i < t.numFiles) (hj : j < t.numFiles)
    (hoffset : offset < t.files.fileSize i) (hij : i ≠ j) :
    t.files.fileOffset i + offset < t.files.fileOffset j ∨
      t.files.fileOffset j + t.files.fileSize j ≤ t.files.fileOffset i + offset := by
  by_contra hnot
  push Not at hnot
  have hlies : LiesAt t.files.entries (t.files.fileOffset i + offset) i offset := ⟨hi, hoffset, rfl⟩
  have hlies' : LiesAt t.files.entries (t.files.fileOffset i + offset) j
      (t.files.fileOffset i + offset - t.files.fileOffset j) := by
    refine ⟨hj, ?_, ?_⟩
    · have := hnot.2
      unfold FileStorage.fileSize at this
      omega
    · have := hnot.1
      unfold FileStorage.fileOffset at *
      omega
  exact hij (hlies.unique hlies').1

end TorrentStorage

/-- Every byte that could be read can still be read. -/
def Preserved (s s' : Sys World) : Prop :=
  ∀ q b, s.torrent.byteAt s.disk.tree q = some b → s'.torrent.byteAt s'.disk.tree q = some b

/-- It is enough to look at the files that are not pad files. -/
theorem preserved_of {s s' : Sys World} (hfiles : s'.torrent.files = s.torrent.files)
    (h : ∀ i < s.torrent.numFiles, s.torrent.files.padFileAt i = false →
      ∀ offset < s.torrent.files.fileSize i, ∀ b,
        s.torrent.keptAt s.disk.tree (s.torrent.skipped i) i offset = some b →
          s'.torrent.keptAt s'.disk.tree (s'.torrent.skipped i) i offset = some b) :
    Preserved s s' := by
  intro q b hb
  cases hat : locate s.torrent.files.entries q with
  | none =>
    rw [TorrentStorage.byteAt, hat] at hb
    cases hb
  | some place =>
    obtain ⟨i, offset⟩ := place
    have hlies := locate_eq_some_iff.mp hat
    have hlies' : LiesAt s'.torrent.files.entries q i offset := hfiles ▸ hlies
    cases hpad : s.torrent.files.padFileAt i with
    | true =>
      rw [byteAt_pad hlies hpad] at hb
      rw [byteAt_pad hlies' (hfiles ▸ hpad), hb]
    | false =>
      rw [byteAt_eq_keptAt hlies hpad] at hb
      rw [byteAt_eq_keptAt hlies' (hfiles ▸ hpad)]
      exact h i hlies.1 hpad offset hlies.2.1 b hb

theorem preserved_of_same {s s' : Sys World} (htorrent : s'.torrent = s.torrent)
    (htree : s'.disk.tree = s.disk.tree) : Preserved s s' := by
  intro q b hb
  rw [htorrent, htree]
  exact hb

/-- What is enough when every file stays where it was, public or in the part file. -/
theorem preserved_in_place {s s' : Sys World} (hfiles : s'.torrent.files = s.torrent.files)
    (hskipped : ∀ i, s'.torrent.skipped i = s.torrent.skipped i)
    (hpart : s'.disk.tree s'.torrent.partPath = s.disk.tree s.torrent.partPath)
    (hpublic : ∀ i < s.torrent.numFiles, s.torrent.files.padFileAt i = false →
      s.torrent.skipped i = false → safeRelativePath (s.torrent.pathFor i) = true →
      ∀ doc, s.disk.tree (s.torrent.pathFor i) = some doc →
        safeRelativePath (s'.torrent.pathFor i) = true ∧
          ∃ doc', s'.disk.tree (s'.torrent.pathFor i) = some doc' ∧
            ∀ offset < s.torrent.files.fileSize i, ∀ b, doc[offset]? = some b →
              doc'[offset]? = some b) :
    Preserved s s' := by
  refine preserved_of hfiles fun i hi hpad offset hoffset b hb => ?_
  rw [hskipped]
  cases hskips : s.torrent.skipped i with
  | true =>
    rw [hskips] at hb
    obtain ⟨doc, hdoc, hbyte⟩ := keptAt_part.mp hb
    refine keptAt_part.mpr ⟨doc, hpart.trans hdoc, ?_⟩
    rw [hfiles]
    exact hbyte
  | false =>
    rw [hskips] at hb
    obtain ⟨hsafe, doc, hdoc, hbyte⟩ := keptAt_file.mp hb
    obtain ⟨hsafe', doc', hdoc', hbytes⟩ := hpublic i hi hpad hskips hsafe doc hdoc
    exact keptAt_file.mpr ⟨hsafe', doc', hdoc', hbytes offset hoffset b hbyte⟩

/-! ## Priority changes -/

namespace TorrentStorage

/-- What was readable is kept at the home that counts when the loop has come to file `k`. -/
def StillKept (t : TorrentStorage) (requested : List Priority) (tree₀ : Tree) (k : Nat)
    (tree : Tree) : Prop :=
  ∀ i < t.numFiles, t.files.padFileAt i = false → ∀ offset < t.files.fileSize i, ∀ b,
    t.keptAt tree₀ (t.skipped i) i offset = some b →
      t.keptAt tree (if i < k then skips requested i else t.skipped i) i offset = some b

variable {t : TorrentStorage} {requested : List Priority} {tree₀ tree tree' : Tree} {k : Nat}

/-- A byte of a file that is not migrated stays where it is. -/
theorem HasMigrated.keeps (h : t.HasMigrated k (skips requested k) tree tree') (hapart : Apart t)
    (hk : k < t.numFiles) (hpadk : t.files.padFileAt k = false) {i offset : Nat}
    (hi : i < t.numFiles) (hpad : t.files.padFileAt i = false) (hik : i ≠ k)
    (hoffset : offset < t.files.fileSize i) {skipped : Bool} {b : Byte}
    (hb : t.keptAt tree skipped i offset = some b) : t.keptAt tree' skipped i offset = some b := by
  have hfile : t.pathFor i ≠ t.pathFor k :=
    fun heq => hik (hapart.distinct i hi k hk hpad hpadk heq)
  have hpart : t.pathFor i ≠ t.partPath := hapart.notPart i hi hpad
  cases skipped with
  | false =>
    obtain ⟨hsafe, doc, hdoc, hbyte⟩ := keptAt_file.mp hb
    exact keptAt_file.mpr ⟨hsafe, doc, (h.other hfile hpart).trans hdoc, hbyte⟩
  | true =>
    obtain ⟨doc, hdoc, hbyte⟩ := keptAt_part.mp hb
    have hpartk : t.partPath ≠ t.pathFor k := (hapart.notPart k hk hpadk).symm
    obtain ⟨-, bytes, hlen, -, htree⟩ := h
    rw [keptAt_part, htree, migratedTree]
    cases skips requested k with
    | true =>
      rw [if_pos rfl, Function.update_of_ne hpartk, Function.update_self, hdoc, Option.getD_some]
      refine ⟨_, rfl, Doc.getElem?_splice_outside hbyte ?_⟩
      rw [hlen]
      exact part_apart hi hk hoffset hik
    | false =>
      rw [if_neg Bool.false_ne_true, Function.update_of_ne hpartk]
      exact ⟨doc, hdoc, hbyte⟩

/-- A migration takes the bytes of its file to their new home. -/
theorem HasMigrated.takes (h : t.HasMigrated k (skips requested k) tree tree') (hapart : Apart t)
    (hk : k < t.numFiles) (hpad : t.files.padFileAt k = false) {offset : Nat}
    (hoffset : offset < t.files.fileSize k) {b : Byte}
    (hb : t.keptAt tree (!skips requested k) k offset = some b) :
    t.keptAt tree' (skips requested k) k offset = some b := by
  have hpart : t.partPath ≠ t.pathFor k := (hapart.notPart k hk hpad).symm
  obtain ⟨hfails, bytes, hlen, hbytes, htree⟩ := h
  rw [MigrationFails, not_or] at hfails
  cases hskips : skips requested k with
  | true =>
    rw [hskips] at hb hbytes
    obtain ⟨-, doc, hdoc, hbyte⟩ := keptAt_file.mp hb
    have hslice := hbytes doc hdoc
    rw [if_pos rfl] at hslice
    rw [keptAt_part, htree, migratedTree, hskips, if_pos rfl, Function.update_of_ne hpart,
      Function.update_self]
    refine ⟨_, rfl, ?_⟩
    rw [Doc.getElem?_splice_inside (by omega) (by omega), Nat.add_sub_cancel_left, hslice,
      Doc.getElem?_slice, if_pos hoffset, Nat.zero_add]
    exact hbyte
  | false =>
    rw [hskips] at hb hbytes hfails
    obtain ⟨doc, hdoc, hbyte⟩ := keptAt_part.mp hb
    have hslice := hbytes doc hdoc
    rw [if_neg Bool.false_ne_true] at hslice
    have hsafe : safeRelativePath (t.pathFor k) = true := by
      simpa [migrationTarget] using hfails.1
    rw [keptAt_file, htree, migratedTree, hskips, if_neg Bool.false_ne_true, Function.update_self]
    refine ⟨hsafe, _, rfl, ?_⟩
    rw [hslice, Doc.getElem?_slice, if_pos hoffset]
    exact hbyte

/-- A migration that failed has left every byte at the home that counts. -/
theorem Unharmed.keeps (h : t.Unharmed k (skips requested k) tree tree') (hapart : Apart t)
    (hk : k < t.numFiles) (ht : t.Turns requested k) {i offset : Nat} (hi : i < t.numFiles)
    (hpad : t.files.padFileAt i = false) (hoffset : offset < t.files.fileSize i) {skipped : Bool}
    (hskipped : i = k → skipped = t.skipped k) {b : Byte}
    (hb : t.keptAt tree skipped i offset = some b) : t.keptAt tree' skipped i offset = some b := by
  obtain ⟨hframe, hbytes⟩ := h
  have hpart : t.pathFor i ≠ t.partPath := hapart.notPart i hi hpad
  cases hskips : skips requested k with
  | true =>
    rw [hskips] at hframe hbytes
    cases skipped with
    | false =>
      obtain ⟨hsafe, doc, hdoc, hbyte⟩ := keptAt_file.mp hb
      exact keptAt_file.mpr ⟨hsafe, doc, (hframe _ hpart).trans hdoc, hbyte⟩
    | true =>
      obtain ⟨doc, hdoc, hbyte⟩ := keptAt_part.mp hb
      have hik : i ≠ k := fun heq => ht.2.2 (by rw [← hskipped heq, hskips])
      rw [keptAt_part]
      obtain ⟨bytes, hlen, hsame | hsplice⟩ := hbytes rfl
      · exact ⟨doc, by rw [hsame, hdoc], hbyte⟩
      · rw [hsplice, hdoc, Option.getD_some]
        refine ⟨_, rfl, Doc.getElem?_splice_outside hbyte ?_⟩
        rcases part_apart hi hk hoffset hik with hbelow | habove
        · exact Or.inl hbelow
        · exact Or.inr (by omega)
  | false =>
    rw [hskips] at hframe
    cases skipped with
    | true =>
      obtain ⟨doc, hdoc, hbyte⟩ := keptAt_part.mp hb
      exact keptAt_part.mpr ⟨doc, (hframe _ (hapart.notPart k hk ht.1).symm).trans hdoc, hbyte⟩
    | false =>
      obtain ⟨hsafe, doc, hdoc, hbyte⟩ := keptAt_file.mp hb
      have hik : i ≠ k := fun heq => ht.2.2 (by rw [← hskipped heq, hskips])
      have hfile : t.pathFor i ≠ t.pathFor k := fun heq =>
        hik (hapart.distinct i hi k hk hpad ht.1 heq)
      exact keptAt_file.mpr ⟨hsafe, doc, (hframe _ hfile).trans hdoc, hbyte⟩

namespace StillKept

theorem zero : t.StillKept requested tree 0 tree := fun _ _ _ _ _ _ hb => hb

theorem stay (h : t.StillKept requested tree₀ k tree) (hnot : ¬ t.Turns requested k) :
    t.StillKept requested tree₀ (k + 1) tree := by
  intro i hi hpad offset hoffset b hb
  have hkept := h i hi hpad offset hoffset b hb
  by_cases hik : i = k
  · subst hik
    have hsame : t.skipped i = skips requested i := by
      by_contra hne
      exact hnot ⟨hpad, by omega, hne⟩
    rw [if_neg (lt_irrefl i), hsame] at hkept
    rwa [if_pos (Nat.lt_succ_self i)]
  · have hiff : i < k + 1 ↔ i < k := by omega
    simpa only [hiff] using hkept

theorem turn (h : t.StillKept requested tree₀ k tree) (hapart : Apart t) (hk : k < t.numFiles)
    (ht : t.Turns requested k) (hm : t.HasMigrated k (skips requested k) tree tree') :
    t.StillKept requested tree₀ (k + 1) tree' := by
  intro i hi hpad offset hoffset b hb
  have hkept := h i hi hpad offset hoffset b hb
  by_cases hik : i = k
  · subst hik
    have hturned : t.skipped i = !skips requested i := by
      have := ht.2.2
      revert this
      cases t.skipped i <;> cases skips requested i <;> decide
    rw [if_neg (lt_irrefl i), hturned] at hkept
    rw [if_pos (Nat.lt_succ_self i)]
    exact hm.takes hapart hi hpad hoffset hkept
  · have hiff : i < k + 1 ↔ i < k := by omega
    simp only [hiff]
    exact hm.keeps hapart hk ht.1 hi hpad hik hoffset hkept

/-- The turn for file `k` has failed. -/
theorem failed (h : t.StillKept requested tree₀ k tree) (hapart : Apart t) (hk : k < t.numFiles)
    (ht : t.Turns requested k) (hu : t.Unharmed k (skips requested k) tree tree') :
    t.StillKept requested tree₀ k tree' := by
  intro i hi hpad offset hoffset b hb
  refine hu.keeps hapart hk ht hi hpad hoffset ?_ (h i hi hpad offset hoffset b hb)
  rintro rfl
  exact if_neg (lt_irrefl i)

end StillKept

end TorrentStorage

/-- Which files are skipped when the loop has come to file `k`. -/
theorem Committed.skipped_eq {storage : Nat} {requested : List Priority} {k : Nat}
    {s s' : Sys World}
    (h : Committed storage requested k s s') (hlen : requested.length = s.torrent.numFiles)
    {i : Nat}
    (hi : i < s.torrent.numFiles) :
    s'.torrent.skipped i = if i < k then skips requested i else s.torrent.skipped i := by
  split
  · have hold : s.torrent.priorities.length = s.torrent.numFiles := s.torrent.priorities_length
    have hik : i < (requested.take k).length := by
      rw [List.length_take]
      omega
    rw [s'.torrent.skipped_of_lt (h.same.numFiles ▸ hi), TorrentStorage.priority, h.priorities,
      committed, List.getD_eq_getElem?_getD, List.getElem?_append_left hik, List.getElem?_take,
      if_pos ‹_›, ← List.getD_eq_getElem?_getD]
  · exact h.skipped hlen (by omega) hi

/-- When no file is skipped the part file keeps none of the bytes that count. -/
theorem keptAt_withoutPart {t : TorrentStorage} {requested : List Priority} (hapart : Apart t)
    (hlen : requested.length = t.numFiles) {i offset : Nat} (hi : i < t.numFiles)
    (hpad : t.files.padFileAt i = false) {tree : Tree} {b : Byte}
    (hb : t.keptAt tree (skips requested i) i offset = some b) :
    t.keptAt (t.withoutPart requested tree) (skips requested i) i offset = some b := by
  rw [withoutPart]
  split
  · exact hb
  · rename_i hunused
    have hskips : skips requested i = false := by
      rw [skips, beq_eq_false_iff_ne]
      intro heq
      refine hunused (heq ▸ ?_)
      rw [List.getD_eq_getElem?_getD, List.getElem?_eq_getElem (hlen ▸ hi), Option.getD_some]
      exact List.getElem_mem _
    rw [hskips] at hb ⊢
    obtain ⟨hsafe, doc, hdoc, hbyte⟩ := keptAt_file.mp hb
    refine keptAt_file.mpr ⟨hsafe, doc, ?_, hbyte⟩
    rw [Function.update_of_ne (hapart.notPart i hi hpad), hdoc]

/-! ## Jobs -/

/-- A job that reorganises the storage, or reads from it. -/
def Reorganises (t : TorrentStorage) : Job → Prop
  | .checkFiles _ _ | .setFilePriority _ | .releaseFiles | .stopTorrent => True
  | .read request => request.InRange t.files
  | .renameFile index name => KeepsAllApart t (.renameFile index name)
  | .moveStorage path flags => (flags = .alwaysReplaceFiles ∨ flags = .failIfExist) ∧
      ∀ i < t.numFiles, t.destination (normalizedSaveRoot path) i ≠ t.partPath
  | _ => False

theorem Reorganises.keepsAllApart {t : TorrentStorage} {job : Job} (h : Reorganises t job) :
    KeepsAllApart t job := by
  cases job with
  | renameFile index name => exact h
  | moveStorage path flags => exact fun _ _ => h.2
  | _ => trivial

namespace Owned

variable (G : Host) {storage : Nat} {s : Sys World}

/-- A check makes documents longer, or cuts them at the end of the file. -/
theorem check_preserves (h : Owned storage s) (resume : Option Resume) (links : List Path) :
    Preserved s (runJob G.env true storage (.checkFiles resume links) s).2 := by
  obtain ⟨-, htorrent, -, hmade, -⟩ := h.check G resume links
  refine preserved_in_place (congrArg _ htorrent) (fun _ => by rw [htorrent]) ?_
    fun i hi hpad hskipped hsafe doc hdoc => ?_
  · rw [htorrent, hmade.frame _ fun j hj => (h.apart.notPart j hj.1 hj.2.1).symm]
  · rw [htorrent]
    refine ⟨hsafe, ?_⟩
    rcases hmade.each i ⟨hi, hpad, hskipped⟩ with hsame | hthere | hsized
    · exact ⟨doc, hsame.trans hdoc, fun _ _ _ hbyte => hbyte⟩
    · exact ⟨doc, by rw [hthere, hdoc, Option.getD_some], fun _ _ _ hbyte => hbyte⟩
    · refine ⟨_, hsized, fun offset hoffset b hbyte => ?_⟩
      rw [hdoc, Option.getD_some]
      exact Doc.getElem?_resize_of_some hbyte hoffset

theorem rename_preserves (h : Owned storage s) {index : Int} {name : Path}
    (hjob : KeepsDocuments s.torrent (.renameFile index name)) :
    Preserved s (runJob G.env true storage (.renameFile index name) s).2 := by
  obtain ⟨-, -, ⟨i, hindex, hi, hsafe, -, htorrent, hrenamed⟩ | ⟨-, htorrent, hundisturbed⟩⟩ :=
    h.rename G hjob
  · obtain ⟨⟨hpart, hold⟩, ⟨hpart', hnew⟩⟩ := hjob i hi hindex hsafe
    refine preserved_in_place (by rw [htorrent, renameFile_files])
      (fun _ => by rw [htorrent, renameFile_skipped]) ?_ fun j hj hpad _ hsafe' doc hdoc => ?_
    · -- neither path is the part file's
      rw [htorrent, renameFile_partPath, hrenamed.tree, Function.update_of_ne hpart'.symm,
        Function.update_of_ne hpart.symm]
    · rw [htorrent, s.torrent.renameFile_pathFor _ _ _ hj, hrenamed.tree]
      by_cases hji : j = i
      · subst hji
        rw [if_pos rfl, Function.update_self]
        rw [h.rooted j hj] at hsafe'
        exact ⟨safe_rootedPath_of hsafe' hsafe, doc, hdoc, fun _ _ _ hbyte => hbyte⟩
      · rw [if_neg hji, Function.update_of_ne (hnew j hj hji hpad).symm,
          Function.update_of_ne (hold j hj hji hpad).symm]
        exact ⟨hsafe', doc, hdoc, fun _ _ _ hbyte => hbyte⟩
  · exact preserved_of_same htorrent hundisturbed.tree

theorem move_preserves (h : Owned storage s) {path : Path} {flags : MoveFlags}
    (hjob : Reorganises s.torrent (.moveStorage path flags)) :
    Preserved s (runJob G.env true storage (.moveStorage path flags) s).2 := by
  obtain ⟨hflags, hpart⟩ := hjob
  obtain ⟨-, ⟨status, -, htorrent, hsafe, hallowed, hmoved⟩ | ⟨-, htorrent, hnot⟩⟩ :=
    h.move G fun _ _ i hi _ => hpart i hi
  · refine preserved_in_place (by rw [htorrent, setSaveRoot_files])
      (fun _ => by rw [htorrent, setSaveRoot_skipped]) ?_ fun i hi hpad _ _ doc hdoc => ?_
    · rw [htorrent, setSaveRoot_partPath]
      rcases hmoved.frame s.torrent.partPath fun j hj _ => (hpart j hj).symm with
        hsame | ⟨-, ⟨j, hj, hpj, heq⟩, -⟩
      · exact hsame
      · exact absurd heq (h.apart.notPart j hj hpj)
    · rw [htorrent, s.torrent.setSaveRoot_pathFor _ hi, normalizedSaveRoot_idem]
      refine ⟨(safe_rootedPath (rootOk_normalized hsafe)).mpr (hallowed.accepted.1 i hi).1, doc,
        ?_, fun _ _ _ hbyte => hbyte⟩
      have hthere := hmoved.there (by rcases hflags with rfl | rfl <;> rfl) i hi hpad
      rw [arrived, if_neg, hdoc] at hthere
      · exact hthere
      · rintro (hnone | ⟨rfl, -⟩)
        · simp [hdoc] at hnone
        · rcases hflags with hf | hf <;> cases hf
  · rcases hnot.copied with htree | ⟨hallowed, hframe, -⟩
    · exact preserved_of_same htorrent htree
    · -- the copies made are at no file's path, and not at the part file's
      refine preserved_in_place (congrArg _ htorrent) (fun _ => by rw [htorrent]) ?_
        fun i hi hpad _ hsafe doc hdoc => ?_
      · rw [htorrent, hframe _ fun j hj _ _ => (hpart j hj).symm]
      · rw [htorrent, hframe _ fun j hj hpj hmoves => hallowed.accepted.clear hi hpad hj hpj hmoves]
        exact ⟨hsafe, doc, hdoc, fun _ _ _ hbyte => hbyte⟩

theorem prioritise_preserves (h : Owned storage s) (priorities : List Priority) :
    Preserved s (runJob G.env true storage (.setFilePriority priorities) s).2 := by
  have hlen : (resizePriorities priorities s.torrent.numFiles).length = s.torrent.numFiles :=
    resizePriorities_length _ _
  have hapart := h.apart
  obtain ⟨-, -, hcases⟩ := h.prioritise G priorities rfl
    (s.torrent.StillKept (resizePriorities priorities s.torrent.numFiles) s.disk.tree) .zero
    (fun _ _ _ hI hnot => hI.stay hnot) fun _ hk _ _ hI ht hm => hI.turn hapart hk ht hm
  have hkept : ∀ {k : Nat} {s' : Sys World},
      Committed storage (resizePriorities priorities s.torrent.numFiles) k s s' →
      s.torrent.StillKept (resizePriorities priorities s.torrent.numFiles) s.disk.tree k
        s'.disk.tree → Preserved s s' := by
    intro k s' hcommitted hI
    refine preserved_of hcommitted.same.files fun i hi hpad offset hoffset b hb => ?_
    have := hI i hi hpad offset hoffset b hb
    rw [← hcommitted.skipped_eq hlen hi] at this
    rw [hcommitted.same.keptAt]
    exact this
  rcases hcases with ⟨-, hdone, tree, hI, htree⟩ |
    ⟨-, ⟨k, hk, hcommitted, ht, tree, hI, hunharmed⟩ | ⟨hcommitted, hI⟩⟩
  · refine preserved_of hdone.same.files fun i hi hpad offset hoffset b hb => ?_
    have := hI i hi hpad offset hoffset b hb
    rw [if_pos hi] at this
    rw [hdone.same.keptAt, htree, (_ : TorrentStorage).skipped_of_lt (hdone.same.numFiles ▸ hi),
      TorrentStorage.priority, hdone.priorities]
    exact keptAt_withoutPart hapart hlen hi hpad this
  · exact hkept hcommitted (hI.failed hapart hk ht hunharmed)
  · exact hkept hcommitted hI

/-- **One step**: nothing readable is lost, and the storage goes on owning its documents. -/
theorem step_preserves (h : Owned storage s) (hapart : AllApart s.torrent) {job : Job}
    (hjob : Reorganises s.torrent job) :
    Owned storage (runJob G.env true storage job s).2 ∧
      Preserved s (runJob G.env true storage job s).2 := by
  cases job with
  | checkFiles resume links =>
    exact ⟨(h.check G resume links).1, h.check_preserves G resume links⟩
  | setFilePriority priorities =>
    obtain ⟨howned, -⟩ := h.prioritise G priorities rfl (fun _ _ => True) trivial
      (fun _ _ _ _ _ => trivial) fun _ _ _ _ _ _ _ => trivial
    exact ⟨howned, h.prioritise_preserves G priorities⟩
  | renameFile index name =>
    have hkeeps := hapart.keepsDocuments hjob.keepsAllApart
    exact ⟨(h.rename G hkeeps).1, h.rename_preserves G hkeeps⟩
  | moveStorage path flags =>
    exact ⟨(h.move G fun _ _ i hi _ => hjob.2 i hi).1, h.move_preserves G hjob⟩
  | releaseFiles =>
    obtain ⟨howned, htorrent, hundisturbed⟩ := h.release G (Or.inl rfl)
    exact ⟨howned, preserved_of_same htorrent hundisturbed.tree⟩
  | stopTorrent =>
    obtain ⟨howned, htorrent, hundisturbed⟩ := h.release G (Or.inr rfl)
    exact ⟨howned, preserved_of_same htorrent hundisturbed.tree⟩
  | read request =>
    obtain ⟨howned, htorrent, hundisturbed⟩ := h.read G hjob
    exact ⟨howned, preserved_of_same htorrent hundisturbed.tree⟩
  | _ => exact hjob.elim

end Owned

/-- **No reorganising operation loses data.** Along every run of reorganising jobs, whatever
    fails in it, a byte that some read could deliver just before a job is delivered with the same
    value by a read without failures just after it. -/
theorem reorganising_preserves (G : Host) {t : TorrentStorage} (hreach : t.Reachable)
    (hapart : AllApart t) {storage : Nat} {d : Disk World} (hc : Coherent (t.keys storage) d)
    {jobs : List Job} {job : Job}
    (hrun : EveryStep G.env true storage Reorganises (jobs ++ [job]) { torrent := t, disk := d }) :
    let s := (runJobs G.env true storage jobs { torrent := t, disk := d }).2
    let s' := (runJob G.env true storage job s).2
    ∀ q b bridge io, Reads G storage bridge io s.torrent s.disk q b →
      Reads G storage [] [] s'.torrent s'.disk q b := by
  intro s s' q b bridge io hread
  obtain ⟨hjobs, hjob, -⟩ := (everyStep_append G.env true storage).mp hrun
  have hstart : Owned storage { torrent := t, disk := d } :=
    ⟨hapart.apart, fun i hi => hreach.rooted hi, hc⟩
  obtain ⟨hapart', howned⟩ : AllApart s.torrent ∧ Owned storage s :=
    runJobs_induct_every G.env true storage (I := fun s => AllApart s.torrent ∧ Owned storage s)
      (fun job s hjob hs =>
        ⟨hs.2.allApart G hs.1 hjob.keepsAllApart, (hs.2.step_preserves G hs.1 hjob).1⟩)
      hjobs ⟨hapart, hstart⟩
  obtain ⟨howned', hpreserved⟩ := howned.step_preserves G hapart' hjob
  have hbyte := hpreserved q b (hread.byteAt howned.coherent fun _ _ hkey => hkey)
  exact reads_of_byteAt hbyte howned'.coherent fun _ _ hkey => hkey

namespace Restart

theorem allApart_params : AllApart (build params []) := by
  constructor <;> decide +kernel

/-- The change that fails for the second file has taken the first to the part file, where its
    bytes are still read. -/
theorem reorganising_preserves_halfWay :
    let s := (runJobs (Host.env ⟨.next, id, id⟩) true 0 [.releaseFiles]
      { torrent := build params [], disk := halfWay }).2
    let s' := (runJob (Host.env ⟨.next, id, id⟩) true 0 (.setFilePriority [0, 0]) s).2
    Reads ⟨.next, id, id⟩ 0 [] [] s'.torrent s'.disk 0 1 := by
  intro s s'
  have hread : Reads ⟨.next, id, id⟩ 0 [] [] s.torrent s.disk 0 1 :=
    ⟨{ piece := 0, start := 0, length := 3 }, [1, 2, 3], none, by decide +kernel, Nat.zero_le _,
      rfl, by decide +kernel⟩
  have hrun : EveryStep (Host.env ⟨.next, id, id⟩) true 0 Reorganises
      ([.releaseFiles] ++ [.setFilePriority [0, 0]])
      { torrent := build params [], disk := halfWay } :=
    ⟨trivial, trivial, trivial⟩
  exact reorganising_preserves ⟨.next, id, id⟩ reachable_params allApart_params
    (coherent_fresh sound_halfWay _) hrun 0 1 [] [] hread

end Restart

end Saf
end Libtorrent4j
