import Libtorrent4j.Saf.Operations

/-!
# What resume validation asks for

`validate_resume` looks at sizes and at nothing else. Which files it looks at is the whole
of its meaning: **every file the resume data claims, once, and no other**. `Resume.Requires`
says which those are without any loop, by the bytes a file and a claimed piece share, and
`Resume.Before` in which order they come.

The loop over the pieces meets a file once for each piece it overlaps and sometimes more than
once in one piece. What makes the order a fact about pieces is that the stream of files met is
sorted by piece, and inside a piece by file, so that the first meeting is the least one.
-/

namespace Libtorrent4j
namespace Saf

open Lib Lib.Exec

/-! ## The files a piece overlaps -/

/-- The file has a byte in the piece. -/
def FileStorage.Overlaps (files : FileStorage) (piece index : Nat) : Prop :=
  ∃ k < files.pieceSize piece, ∃ off,
    LiesAt files.entries (piece * files.pieceLength + k) index off

namespace Covers

variable {entries : List FileEntry} {slices : List FileSlice} {pos len : Nat}

/-- The files of a cover are those that have a byte in the range. -/
theorem mem_files_iff (h : Covers entries pos len slices) {i : Nat} :
    i ∈ slices.map (·.fileIndex) ↔ ∃ k < len, ∃ off, LiesAt entries (pos + k) i off := by
  induction slices generalizing pos len with
  | nil =>
    obtain rfl : len = 0 := h
    simp
  | cons slice rest ih =>
    have hhead := fun j (hj : j < slice.size) => h.head_liesAt hj
    obtain ⟨-, hpos, -, -, hle, hrest⟩ := h
    rw [List.map_cons, List.mem_cons, ih hrest]
    constructor
    · rintro (rfl | ⟨k, hk, off, hat⟩)
      · exact ⟨0, by omega, _, hhead 0 hpos⟩
      · exact ⟨slice.size + k, by omega, off, by rwa [← Nat.add_assoc]⟩
    · rintro ⟨k, hk, off, hat⟩
      rcases Nat.lt_or_ge k slice.size with hlt | hge
      · exact Or.inl (hat.unique (hhead k hlt)).1
      · refine Or.inr ⟨k - slice.size, by omega, off, ?_⟩
        rwa [show pos + slice.size + (k - slice.size) = pos + k by omega]

/-- They come in the order of the torrent. -/
theorem sorted (h : Covers entries pos len slices) :
    (slices.map (·.fileIndex)).Pairwise (· ≤ ·) := by
  induction slices generalizing pos len with
  | nil => exact List.Pairwise.nil
  | cons slice rest ih =>
    have hat := h.head_liesAt h.2.1
    rw [List.map_cons, List.pairwise_cons]
    refine ⟨fun j hj => ?_, ih h.2.2.2.2.2⟩
    obtain ⟨k, -, off, hat'⟩ := h.2.2.2.2.2.mem_files_iff.mp hj
    exact hat.mono hat' (by omega)

end Covers

/-! ## The order of first meeting -/

theorem not_mem_of_firstMet {checked files : List Nat} {index : Nat}
    (h : index ∈ firstMet checked files) : index ∉ checked := by
  induction files generalizing checked with
  | nil => cases h
  | cons first rest ih =>
    unfold firstMet at h
    split at h
    · exact ih h
    · rcases List.mem_cons.mp h with rfl | h
      · assumption
      · exact fun hin => ih h (List.mem_cons_of_mem _ hin)

theorem mem_firstMet_iff {checked files : List Nat} {index : Nat} :
    index ∈ firstMet checked files ↔ index ∈ files ∧ index ∉ checked := by
  refine ⟨fun h => ⟨mem_of_firstMet h, not_mem_of_firstMet h⟩, ?_⟩
  rintro ⟨hin, hnew⟩
  induction files generalizing checked with
  | nil => cases hin
  | cons first rest ih =>
    unfold firstMet
    rcases List.mem_cons.mp hin with rfl | hin
    · rw [if_neg hnew]
      exact List.mem_cons_self
    split
    · exact ih hin hnew
    · by_cases heq : index = first
      · exact heq ▸ List.mem_cons_self
      · have hnew' : index ∉ first :: checked := fun hin' =>
          (List.mem_cons.mp hin').elim heq hnew
        exact List.mem_cons_of_mem _ (ih hin hnew')

theorem nodup_firstMet (checked files : List Nat) : (firstMet checked files).Nodup := by
  induction files generalizing checked with
  | nil => exact List.nodup_nil
  | cons first rest ih =>
    unfold firstMet
    split
    · exact ih checked
    · refine List.nodup_cons.mpr ⟨fun h => ?_, ih _⟩
      exact not_mem_of_firstMet h List.mem_cons_self

/-- A meeting: the piece and the file. -/
abbrev Meeting := Nat × Nat

/-- By piece, and inside a piece by file. -/
def Meeting.le (a b : Meeting) : Prop := a.1 < b.1 ∨ a.1 = b.1 ∧ a.2 ≤ b.2

/-- In a sorted stream the file met first has a meeting before all of the other's. -/
theorem firstMet_pairwise (checked : List Nat) {stream : List Meeting}
    (hsorted : stream.Pairwise Meeting.le) :
    (firstMet checked (stream.map Prod.snd)).Pairwise fun i j =>
      ∃ p, (p, i) ∈ stream ∧ ∀ q, (q, j) ∈ stream → Meeting.le (p, i) (q, j) := by
  induction stream generalizing checked with
  | nil => exact List.Pairwise.nil
  | cons first rest ih =>
    obtain ⟨hfirst, hrest⟩ := List.pairwise_cons.mp hsorted
    -- a meeting of `j` is never the head when `j` is met later on
    have hlift : ∀ {checked' : List Nat}, first.2 ∈ checked' →
        (firstMet checked' (rest.map Prod.snd)).Pairwise fun i j =>
          ∃ p, (p, i) ∈ first :: rest ∧
            ∀ q, (q, j) ∈ first :: rest → Meeting.le (p, i) (q, j) := by
      intro checked' hin
      refine List.Pairwise.imp_of_mem ?_ (ih checked' hrest)
      rintro i j - hj ⟨p, hp, hle⟩
      refine ⟨p, List.mem_cons_of_mem _ hp, fun q hq => ?_⟩
      rcases List.mem_cons.mp hq with heq | hq
      · subst heq
        exact absurd hin (not_mem_of_firstMet hj)
      · exact hle q hq
    rw [List.map_cons]
    unfold firstMet
    split
    · exact hlift ‹_›
    · refine List.pairwise_cons.mpr ⟨fun j hj => ?_, hlift List.mem_cons_self⟩
      refine ⟨first.1, List.mem_cons_self, fun q hq => ?_⟩
      rcases List.mem_cons.mp hq with heq | hq
      · subst heq
        exact absurd List.mem_cons_self (not_mem_of_firstMet hj)
      · exact hfirst _ hq

/-! ## The files the resume data claims -/

namespace Resume

variable (resume : Resume) (files : FileStorage) (t : TorrentStorage)

/-- `end_piece` is the smaller of the two ends. -/
def Claims (piece : Nat) : Prop :=
  piece < min resume.havePieces.length files.numPieces ∧
    resume.havePieces.getD piece false = true

def AllClaimed : Prop :=
  files.numPieces ≤ resume.havePieces.length ∧ ∀ bit ∈ resume.havePieces, bit = true

/-- The sizes have to be the nominal ones. -/
def Exact : Prop := resume.seedMode = true ∨ resume.AllClaimed files

def FirstClaimed (index piece : Nat) : Prop :=
  resume.Claims files piece ∧ files.Overlaps piece index ∧
    ∀ p < piece, resume.Claims files p → ¬ files.Overlaps p index

/-- What the resume data promises to find. -/
def Requires (index : Nat) : Prop :=
  index < t.numFiles ∧ t.files.padFileAt index = false ∧
    (resume.seedMode = true ∨ t.skipped index = false ∧
      (resume.AllClaimed t.files ∨
        ∃ piece, resume.Claims t.files piece ∧ t.files.Overlaps piece index))

/-- The order in which it is looked for. -/
def Before (i j : Nat) : Prop :=
  (resume.Exact files → i < j) ∧
    (¬ resume.Exact files → ∀ p q, resume.FirstClaimed files i p → resume.FirstClaimed files j q →
      p < q ∨ p = q ∧ i < j)

end Resume

variable {files : FileStorage}

/-- The loop over the pieces, with the piece each file is met in. -/
def meetings (files : FileStorage) (havePieces : List Bool) : List Meeting :=
  (List.range (min havePieces.length files.numPieces)).flatMap fun piece =>
    if havePieces.getD piece false then
      (files.mapBlock piece 0 (files.pieceSize piece)).map fun slice => (piece, slice.fileIndex)
    else []

theorem claimedFiles_eq (havePieces : List Bool) :
    claimedFiles files havePieces = firstMet [] ((meetings files havePieces).map Prod.snd) := by
  rw [claimedFiles, meetings, List.map_flatMap]
  congr 2
  funext piece
  split
  · rw [List.map_map]; rfl
  · rfl

theorem pieceCovers {piece : Nat} (hpiece : piece < files.numPieces) :
    Covers files.entries (piece * files.pieceLength) (files.pieceSize piece)
      (files.mapBlock piece 0 (files.pieceSize piece)) :=
  files.mapBlock_covers piece 0 _ (files.pieceSize_le piece hpiece)

theorem mem_meetings_iff {resume : Resume} {piece index : Nat} :
    (piece, index) ∈ meetings files resume.havePieces ↔
      resume.Claims files piece ∧ files.Overlaps piece index := by
  simp only [meetings, List.mem_flatMap, List.mem_range]
  constructor
  · rintro ⟨p, hp, hin⟩
    split at hin
    · obtain ⟨slice, hslice, heq⟩ := List.mem_map.mp hin
      obtain ⟨rfl, rfl⟩ := Prod.mk.inj heq
      refine ⟨⟨hp, ‹_›⟩, ?_⟩
      exact (pieceCovers (by omega)).mem_files_iff.mp (List.mem_map_of_mem hslice)
    · cases hin
  · rintro ⟨⟨hp, hbit⟩, hover⟩
    refine ⟨piece, hp, ?_⟩
    rw [if_pos hbit]
    obtain ⟨slice, hslice, rfl⟩ := List.mem_map.mp
      ((pieceCovers (show piece < files.numPieces by omega)).mem_files_iff.mpr hover)
    exact List.mem_map.mpr ⟨slice, hslice, rfl⟩

theorem meetings_sorted (havePieces : List Bool) :
    (meetings files havePieces).Pairwise Meeting.le := by
  rw [meetings, List.pairwise_flatMap]
  refine ⟨fun piece hpiece => ?_, List.pairwise_lt_range.imp fun hlt a ha b hb => Or.inl ?_⟩
  · split
    · have hlt : piece < files.numPieces := by
        have := List.mem_range.mp hpiece
        omega
      have hsorted := (pieceCovers hlt).sorted
      rw [List.pairwise_map] at hsorted ⊢
      exact hsorted.imp fun hle => Or.inr ⟨rfl, hle⟩
    · exact List.Pairwise.nil
  · split at ha <;> split at hb
    · obtain ⟨_, -, rfl⟩ := List.mem_map.mp ha
      obtain ⟨_, -, rfl⟩ := List.mem_map.mp hb
      exact hlt
    all_goals first | cases ha | cases hb

theorem mem_claimedFiles_iff {resume : Resume} {index : Nat} :
    index ∈ claimedFiles files resume.havePieces ↔
      ∃ piece, resume.Claims files piece ∧ files.Overlaps piece index := by
  rw [claimedFiles_eq, mem_firstMet_iff]
  simp only [List.not_mem_nil, not_false_eq_true, and_true, List.mem_map]
  constructor
  · rintro ⟨⟨piece, i⟩, hin, rfl⟩
    exact ⟨piece, mem_meetings_iff.mp hin⟩
  · rintro ⟨piece, h⟩
    exact ⟨(piece, index), mem_meetings_iff.mpr h, rfl⟩

/-- Files are met in the order of the first claimed piece they overlap. -/
theorem claimedFiles_pairwise (resume : Resume) :
    (claimedFiles files resume.havePieces).Pairwise fun i j => ∀ p q,
      resume.FirstClaimed files i p → resume.FirstClaimed files j q → p < q ∨ p = q ∧ i < j := by
  have hnodup : (claimedFiles files resume.havePieces).Nodup := nodup_firstMet _ _
  have hsorted : (meetings files resume.havePieces).Pairwise Meeting.le := meetings_sorted _
  have hmet := firstMet_pairwise [] hsorted
  rw [← claimedFiles_eq] at hmet
  refine (hmet.and hnodup).imp ?_
  rintro i j ⟨⟨p', hin, hle⟩, hne⟩ p q hp hq
  obtain ⟨hclaims, hover⟩ := mem_meetings_iff.mp hin
  have hpp' : p ≤ p' := by
    by_contra hlt
    exact hp.2.2 p' (Nat.not_le.mp hlt) hclaims hover
  rcases hle q (mem_meetings_iff.mpr ⟨hq.1, hq.2.1⟩) with hlt | ⟨heq, hij⟩
  · exact Or.inl (Nat.lt_of_le_of_lt hpp' hlt)
  · obtain rfl : p' = q := heq
    rcases Nat.lt_or_eq_of_le hpp' with hlt | rfl
    · exact Or.inl hlt
    · exact Or.inr ⟨rfl, Nat.lt_of_le_of_ne hij hne⟩

/-! ## The questions and the verdict -/

section Verdict

variable {W : Type} (E : Env W) (t : TorrentStorage) (resume : Resume)

/-- Only sizes have been asked for, with these answers, in this order. -/
def Asked (answers : List (Nat × Int)) (d d' : Disk W) : Prop :=
  ∃ w, d' = { d with
    world := w
    trace :=
      (answers.map fun answer => .fileSize (t.pathFor answer.1) answer.2).reverse ++ d.trace }

/-- An answer that stops the validation. -/
def StatFails (size : Int) : Prop := size < 0 ∧ size ≠ -enoent

/-- The document is missing, or its size is not the one it has to be. -/
def WrongSize (exactSize : Prop) (answer : Nat × Int) : Prop :=
  answer.2 = -enoent ∨ exactSize ∧ answer.2 ≠ (t.files.fileSize answer.1 : Int)

def Oversized (exactSize : Prop) (answer : Nat × Int) : Prop :=
  exactSize ∧ (t.files.fileSize answer.1 : Int) < answer.2

variable {t}

theorem Asked.nil (d : Disk W) : Asked t [] d d := ⟨d.world, rfl⟩

theorem Asked.cons {index : Nat} {size : Int} {w : W} {answers : List (Nat × Int)} {d d' : Disk W}
    (h : Asked t answers (d.note w (.fileSize (t.pathFor index) size)) d') :
    Asked t ((index, size) :: answers) d d' := by
  obtain ⟨w', rfl⟩ := h
  exact ⟨w', by simp [Disk.note]⟩

/-- `check_file` asks for the size of the file. -/
def TorrentStorage.looksAt (t : TorrentStorage) (seed : Bool) (index : Nat) : Bool :=
  !(t.files.padFileAt index || (!seed && t.skipped index))

/-- **One pass over the files**: each is asked for once, in order, up to the first failure. -/
theorem checkResumeFiles_spec (seed exactSize : Bool) (indices : List Nat) (status : Status)
    (d : Disk W) :
    wp (checkResumeFiles E t seed exactSize indices status)
      (fun status' d' => ∃ answers : List (Nat × Int),
        answers.map Prod.fst = indices.filter (t.looksAt seed) ∧
        Asked t answers d d' ∧ (∀ answer ∈ answers, ¬ StatFails answer.2) ∧
        status'.fatalDiskError = status.fatalDiskError ∧ status'.fileExist = status.fileExist ∧
        (status'.needFullCheck = true ↔ status.needFullCheck = true ∨
          ∃ answer ∈ answers, WrongSize t (exactSize = true) answer) ∧
        (status'.oversizedFile = true ↔ status.oversizedFile = true ∨
          ∃ answer ∈ answers, Oversized t (exactSize = true) answer))
      (fun failure d' =>
        ∃ (answers : List (Nat × Int)) (index : Nat) (size : Int) (after : List Nat),
        answers.map Prod.fst ++ index :: after = indices.filter (t.looksAt seed) ∧
        Asked t (answers ++ [(index, size)]) d d' ∧ (∀ answer ∈ answers, ¬ StatFails answer.2) ∧
        StatFails size ∧ failure.1.fatalDiskError = true ∧
        failure.2 = makeError size index .fileStat) d := by
  induction indices generalizing status d with
  | nil => exact ⟨[], rfl, Asked.nil d, by simp, rfl, rfl, by simp, by simp⟩
  | cons index rest ih =>
    unfold checkResumeFiles
    split
    · rename_i hpassed
      rw [List.filter_cons_of_neg (by simp [TorrentStorage.looksAt, hpassed])]
      exact ih status d
    rename_i hlooks
    have hlooks : t.looksAt seed index = true := by
      simp [TorrentStorage.looksAt, Bool.eq_false_iff.mpr hlooks]
    rw [List.filter_cons_of_pos hlooks, callFileSize, wp_bind, wp_ask, wp_bind, wp_throwIf]
    generalize (E.fileSize (t.pathFor index) d.world).1 = size
    refine ⟨fun hfails => ?_, fun hgood => ?_⟩
    · exact ⟨[], index, size, _, rfl, (Asked.nil _).cons, by simp, hfails, rfl, rfl⟩
    refine wp_mono (ih _ _) ?_ ?_
    · rintro status' d' ⟨answers, hfst, hasked, hall, hfatal, hexist, hneed, hover⟩
      refine ⟨(index, size) :: answers, by rw [List.map_cons, hfst], hasked.cons, ?_, hfatal,
        hexist, ?_, ?_⟩
      · intro answer hin
        rcases List.mem_cons.mp hin with rfl | hin
        · exact hgood
        · exact hall answer hin
      · rw [hneed, List.exists_mem_cons_iff]
        simp [WrongSize, or_assoc]
      · rw [hover, List.exists_mem_cons_iff]
        have hmissing : ¬ ((t.files.fileSize index : Int) < size ∧ size = -enoent) := by
          simp only [enoent]; omega
        simp only [Oversized, Bool.or_eq_true, Bool.and_eq_true, decide_eq_true_eq, or_assoc]
        refine or_congr Iff.rfl (or_congr ?_ Iff.rfl)
        constructor
        · rintro ⟨hmiss | hexact, hlt⟩
          · exact absurd ⟨hlt, hmiss⟩ hmissing
          · exact ⟨hexact.1, hlt⟩
        · rintro ⟨hexact, hlt⟩
          exact ⟨Or.inr ⟨hexact, hlt.ne'⟩, hlt⟩
    · rintro failure d' ⟨answers, index', size', after, hfst, hasked, hall, hfails, hfatal, herr⟩
      refine ⟨(index, size) :: answers, index', size', after, by rw [← hfst]; rfl, hasked.cons, ?_,
        hfails, hfatal, herr⟩
      intro answer hin
      rcases List.mem_cons.mp hin with rfl | hin
      · exact hgood
      · exact hall answer hin

/-- The same for the whole check, which begins with a clean status. -/
theorem checkResumeFiles_clean (seed exactSize : Bool) (indices : List Nat) {exact : Prop}
    (hexact : exactSize = true ↔ exact) (d : Disk W) :
    wp (checkResumeFiles E t seed exactSize indices {})
      (fun status d' => ∃ answers : List (Nat × Int),
        answers.map Prod.fst = indices.filter (t.looksAt seed) ∧
        Asked t answers d d' ∧ (∀ answer ∈ answers, ¬ StatFails answer.2) ∧
        status.fatalDiskError = false ∧ status.fileExist = false ∧
        (status.needFullCheck = true ↔ ∃ answer ∈ answers, WrongSize t exact answer) ∧
        (status.oversizedFile = true ↔ ∃ answer ∈ answers, Oversized t exact answer))
      (fun failure d' =>
        ∃ (answers : List (Nat × Int)) (index : Nat) (size : Int) (after : List Nat),
        answers.map Prod.fst ++ index :: after = indices.filter (t.looksAt seed) ∧
        Asked t (answers ++ [(index, size)]) d d' ∧ (∀ answer ∈ answers, ¬ StatFails answer.2) ∧
        StatFails size ∧ failure.1.fatalDiskError = true ∧
        failure.2 = makeError size index .fileStat) d := by
  refine wp_mono (checkResumeFiles_spec E seed exactSize indices {} d) ?_ fun _ _ h => h
  rintro status d' ⟨answers, hfst, hasked, hgood, hfatal, hexist, hneed, hover⟩
  refine ⟨answers, hfst, hasked, hgood, hfatal, hexist, ?_, ?_⟩
  · simpa [WrongSize, hexact] using hneed
  · simpa [Oversized, hexact] using hover

variable (t)

/-- **Validation demands exactly the files the resume data claims**: it asks for sizes only,
    for each required file once and in order, stops at the first answer that is an error, and
    otherwise judges by all of them. -/
theorem validation_demands_claimed (d : Disk W) :
    ∃ required : List Nat,
      required.Nodup ∧ (∀ index, index ∈ required ↔ resume.Requires t index) ∧
      required.Pairwise (resume.Before t.files) ∧
      wp (validateResume E t resume)
        (fun status d' => ∃ answers : List (Nat × Int),
          answers.map Prod.fst = required ∧ Asked t answers d d' ∧
          (∀ answer ∈ answers, ¬ StatFails answer.2) ∧
          status.fatalDiskError = false ∧ status.fileExist = false ∧
          (status.needFullCheck = true ↔
            ∃ answer ∈ answers, WrongSize t (resume.Exact t.files) answer) ∧
          (status.oversizedFile = true ↔
            ∃ answer ∈ answers, Oversized t (resume.Exact t.files) answer))
        (fun failure d' => ∃ (answers : List (Nat × Int)) (index : Nat) (size : Int)
            (after : List Nat),
          answers.map Prod.fst ++ index :: after = required ∧
          Asked t (answers ++ [(index, size)]) d d' ∧
          (∀ answer ∈ answers, ¬ StatFails answer.2) ∧ StatFails size ∧
          failure.1.fatalDiskError = true ∧
          failure.2 = makeError size index .fileStat) d := by
  have hall : resume.AllClaimed t.files ↔
      (decide (t.files.numPieces ≤ resume.havePieces.length) && resume.havePieces.all id) =
        true := by
    simp [Resume.AllClaimed]
  have hfull : resume.Exact t.files ↔ (resume.seedMode ||
      (decide (t.files.numPieces ≤ resume.havePieces.length) && resume.havePieces.all id)) =
        true := by
    rw [Resume.Exact, hall, Bool.or_eq_true]
  -- everything is claimed and looked at in the torrent's order, or the claimed files as first met
  by_cases hexact : resume.Exact t.files
  · refine ⟨t.files.indices.filter (t.looksAt resume.seedMode), List.nodup_range.filter _, ?_, ?_,
      ?_⟩
    · intro index
      rw [List.mem_filter, FileStorage.mem_indices]
      simp only [Resume.Requires, TorrentStorage.looksAt, TorrentStorage.numFiles]
      rcases hexact with hseed | hclaims
      · simp [hseed]
      · simp [hclaims]
    · refine (List.pairwise_lt_range.filter _).imp fun hlt => ⟨fun _ => hlt, ?_⟩
      exact fun hn => absurd hexact hn
    · rw [validateResume, if_pos (hfull.mp hexact)]
      exact checkResumeFiles_clean E resume.seedMode true _ (iff_of_true rfl hexact) d
  · have hseed : resume.seedMode = false := by
      simpa using fun h => hexact (Or.inl h)
    have hnot : ¬ resume.AllClaimed t.files := fun h => hexact (Or.inr h)
    refine ⟨(claimedFiles t.files resume.havePieces).filter (t.looksAt false),
      (nodup_firstMet _ _).filter _, ?_, ?_, ?_⟩
    · intro index
      rw [List.mem_filter]
      have hlt : index ∈ claimedFiles t.files resume.havePieces → index < t.numFiles :=
        fun h => lt_of_mem_claimedFiles h
      rw [mem_claimedFiles_iff] at *
      simp only [Resume.Requires, TorrentStorage.looksAt, hseed, hnot]
      constructor
      · rintro ⟨hclaimed, hlooks⟩
        exact ⟨hlt hclaimed, by simpa [hclaimed] using hlooks⟩
      · rintro ⟨-, hpad, hskip⟩
        simp only [Bool.false_eq_true, false_or] at hskip
        exact ⟨hskip.2, by simp [hpad, hskip.1]⟩
    · refine ((claimedFiles_pairwise resume).filter _).imp fun h => ⟨?_, fun _ => h⟩
      exact fun h => absurd h hexact
    · rw [validateResume, if_neg fun h => hexact (hfull.mpr h), hseed]
      exact checkResumeFiles_clean E false false _ (iff_of_false (by decide) hexact) d

end Verdict

end Saf
end Libtorrent4j
