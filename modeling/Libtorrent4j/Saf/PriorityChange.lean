import Libtorrent4j.Saf.Priorities

/-!
# What a priority change promises

Two results about `async_set_file_priority` as a whole. Whatever fails, **the vector it stores
and reports has a requested beginning and an old rest**, and the documents of the files in the
beginning are where the vector says (`prefix_committed`). When nothing fails it still need not
succeed: a migration reads the file's whole nominal size, and a part file or a document that
was never written so far ends too early (`priorities_change_iff`).
-/

namespace Libtorrent4j
namespace Saf

open Lib Lib.Exec TorrentStorage

namespace TorrentStorage

/-- Where a file is that has been migrated: nowhere in public, or in a document of its size. -/
def HasTurned (t : TorrentStorage) (index : Nat) (toPart : Bool) (tree : Tree) : Prop :=
  if toPart then tree (t.pathFor index) = none
  else ∃ doc, tree (t.pathFor index) = some doc ∧ doc.length = t.files.fileSize index

variable {t : TorrentStorage} {index : Nat} {toPart : Bool} {tree tree' : Tree}

/-- After a migration the file is public or not, as it should be. -/
theorem HasMigrated.turned (h : t.HasMigrated index toPart tree tree') :
    t.HasTurned index toPart tree' := by
  obtain ⟨-, bytes, hlen, -, rfl⟩ := h
  unfold HasTurned migratedTree
  cases toPart with
  | true => simp
  | false => exact ⟨bytes, by simp, hlen⟩

/-- A migration is about one file and the part file. -/
theorem HasMigrated.other (h : t.HasMigrated index toPart tree tree') {path : Path}
    (hpath : path ≠ t.pathFor index) (hpart : path ≠ t.partPath) : tree' path = tree path := by
  obtain ⟨-, bytes, -, -, rfl⟩ := h
  unfold migratedTree
  cases toPart with
  | true => simp [Function.update_of_ne hpath, Function.update_of_ne hpart]
  | false => simp [Function.update_of_ne hpath]

/-- A migration that fails touches its two documents at most. -/
theorem Unharmed.other (h : t.Unharmed index toPart tree tree') {path : Path}
    (hpath : path ≠ t.pathFor index) (hpart : path ≠ t.partPath) : tree' path = tree path := by
  refine h.1 path ?_
  cases toPart with
  | true => exact hpart
  | false => exact hpath

/-- Where a file is depends on its own document only. -/
theorem HasTurned.congr (h : t.HasTurned index toPart tree)
    (hsame : tree' (t.pathFor index) = tree (t.pathFor index)) :
    t.HasTurned index toPart tree' := by
  unfold HasTurned at *
  rwa [hsame]

/-- The files below `k` whose bytes had to move have moved. -/
def TurnedBelow (t : TorrentStorage) (requested : List Priority) (k : Nat) (tree : Tree) : Prop :=
  ∀ i < k, t.Turns requested i → t.HasTurned i (skips requested i) tree

variable {requested : List Priority} {k : Nat}

/-- And so do all files below `k`. -/
theorem TurnedBelow.congr (h : t.TurnedBelow requested k tree)
    (hsame : ∀ i < k, t.files.padFileAt i = false → tree' (t.pathFor i) = tree (t.pathFor i)) :
    t.TurnedBelow requested k tree' :=
  fun i hi ht => (h i hi ht).congr (hsame i hi ht.1)

/-- The documents when the loop has come to file `k`: what had to move has moved, and no other
    document has changed but the part file. -/
structure Halfway (t : TorrentStorage) (requested : List Priority) (tree₀ : Tree) (k : Nat)
    (tree : Tree) : Prop where
  turned : t.TurnedBelow requested k tree
  others : ∀ i < t.numFiles, t.files.padFileAt i = false →
    (i < k → ¬ t.Turns requested i) → tree (t.pathFor i) = tree₀ (t.pathFor i)
  frame : ∀ p, p ≠ t.partPath → (∀ i < t.numFiles, t.files.padFileAt i = false →
    p ≠ t.pathFor i) → tree p = tree₀ p

/-- The next migration leaves those before it as they are, for the paths are apart. -/
theorem TurnedBelow.step (hapart : Apart t) (hk : k < t.numFiles)
    (h : t.TurnedBelow requested k tree) (ht : t.Turns requested k)
    (hm : t.HasMigrated k (skips requested k) tree tree') :
    t.TurnedBelow requested (k + 1) tree' := by
  intro i hi hti
  rcases Nat.lt_succ_iff_lt_or_eq.mp hi with hlt | rfl
  · refine (h i hlt hti).congr (hm.other (fun heq => ?_) ?_)
    · exact hlt.ne (hapart.distinct i (hlt.trans hk) k hk hti.1 ht.1 heq)
    · exact hapart.notPart i (hlt.trans hk) hti.1
  · exact hm.turned

namespace Halfway

variable {tree₀ : Tree}

/-- Before the first turn nothing has moved. -/
theorem zero : t.Halfway requested tree 0 tree :=
  ⟨fun i hi => absurd hi (Nat.not_lt_zero i), fun _ _ _ _ => rfl, fun _ _ _ => rfl⟩

/-- A file whose priority stays on its side does not move. -/
theorem stay (h : t.Halfway requested tree₀ k tree) (hnot : ¬ t.Turns requested k) :
    t.Halfway requested tree₀ (k + 1) tree := by
  have hlt : ∀ i < k + 1, t.Turns requested i → i < k := fun i hi ht => by
    rcases Nat.lt_succ_iff_lt_or_eq.mp hi with hi | rfl
    · exact hi
    · exact absurd ht hnot
  exact ⟨fun i hi ht => h.turned i (hlt i hi ht) ht,
    fun i hi hpad hti => h.others i hi hpad fun hik =>
      hti (hik.trans (Nat.lt_succ_self k)), h.frame⟩

/-- A file that changes sides moves, and the files before it stay where they have come to. -/
theorem turn (h : t.Halfway requested tree₀ k tree) (hapart : Apart t) (hk : k < t.numFiles)
    (ht : t.Turns requested k) (hm : t.HasMigrated k (skips requested k) tree tree') :
    t.Halfway requested tree₀ (k + 1) tree' := by
  refine ⟨h.turned.step hapart hk ht hm, fun i hi hpad hti => ?_, fun p hpart hfree => ?_⟩
  · rw [hm.other (fun heq => ?_) (hapart.notPart i hi hpad),
      h.others i hi hpad fun hik => hti (hik.trans (Nat.lt_succ_self k))]
    obtain rfl := hapart.distinct i hi k hk hpad ht.1 heq
    exact hti (Nat.lt_succ_self _) ht
  · rw [hm.other (hfree k hk ht.1) hpart]
    exact h.frame p hpart hfree

end Halfway

end TorrentStorage

/-! ## A beginning is committed -/

variable (G : Host) {t : TorrentStorage} {d : Disk World}

/-- What of a changed priority vector is committed, and where its files are. -/
structure PrefixCommitted (t : TorrentStorage) (requested : List Priority) (k : Nat)
    (d d' : Disk World) (current : List Priority) : Prop where
  vector : current = committed k requested t.priorities
  part : dontDownload ∈ current → ∀ n, d.world.docs t.partPath = some n →
    d'.world.docs t.partPath = some n
  turned : t.TurnedBelow requested k d'.tree

section Turned

variable {requested current : List Priority} {k i : Nat} {d' : Disk World}

theorem PrefixCommitted.newlySkipped (h : PrefixCommitted t requested k d d' current)
    (hk : k ≤ t.numFiles) (hi : i < k) (hpad : t.files.padFileAt i = false)
    (hsize : t.files.fileSize i ≠ 0) (hwanted : t.priority i ≠ dontDownload)
    (hskip : requested.getD i defaultPriority = dontDownload) :
    d'.tree (t.pathFor i) = none := by
  have hskips : skips requested i = true := beq_iff_eq.mpr hskip
  have hold : t.skipped i = false := by
    rw [t.skipped_of_lt (hi.trans_le hk)]
    exact beq_eq_false_iff_ne.mpr hwanted
  have := h.turned i hi ⟨hpad, hsize, by rw [hold, hskips]; decide⟩
  rwa [HasTurned, if_pos hskips] at this

theorem PrefixCommitted.newlyWanted (h : PrefixCommitted t requested k d d' current)
    (hk : k ≤ t.numFiles) (hi : i < k) (hpad : t.files.padFileAt i = false)
    (hsize : t.files.fileSize i ≠ 0) (hskip : t.priority i = dontDownload)
    (hwanted : requested.getD i defaultPriority ≠ dontDownload) :
    ∃ doc, d'.tree (t.pathFor i) = some doc ∧ doc.length = t.files.fileSize i := by
  have hskips : skips requested i = false := beq_eq_false_iff_ne.mpr hwanted
  have hold : t.skipped i = true := by
    rw [t.skipped_of_lt (hi.trans_le hk)]
    exact beq_iff_eq.mpr hskip
  have := h.turned i hi ⟨hpad, hsize, by rw [hold, hskips]; decide⟩
  rwa [HasTurned, hskips, if_neg Bool.false_ne_true] at this

end Turned

theorem Committed.beginning {storage : Nat} {requested : List Priority} {k : Nat} {s s' : Sys World}
    (h : Committed storage requested k s s') (hapart : Apart s.torrent)
    (hturned : s.torrent.TurnedBelow requested k s'.disk.tree) :
    PrefixCommitted s.torrent requested k s.disk s'.disk s'.torrent.priorities :=
  ⟨h.priorities, fun _ _ hp => h.migrates.names hp fun i hi hpad => (hapart.notPart i hi hpad).symm,
    hturned⟩

/-- The loop, with its invariant, and the removal of the part file at its end. -/
theorem asyncSetFilePriority_prefix (storage : Nat) (priorities : List Priority) {s : Sys World}
    (hs : s.disk.world.Sound) (hapart : Apart s.torrent) {requested : List Priority}
    (hrequested : requested = resizePriorities priorities s.torrent.numFiles) :
    wp (asyncSetFilePriority G.env storage priorities)
      (fun _ s' => PrefixCommitted s.torrent requested s.torrent.numFiles s.disk s'.disk
          s'.torrent.priorities ∧
        ¬ (dontDownload ∉ s'.torrent.priorities ∧ s.torrent.RemovalFailed s'.disk))
      (fun _ s' => ∃ k ≤ s.torrent.numFiles,
        PrefixCommitted s.torrent requested k s.disk s'.disk s'.torrent.priorities ∧
        (k < s.torrent.numFiles ∨
          dontDownload ∉ s'.torrent.priorities ∧ s.torrent.RemovalFailed s'.disk)) s := by
  have hlen : requested.length = s.torrent.priorities.length := by
    rw [hrequested, resizePriorities_length, s.torrent.priorities_length]
    rfl
  have hall : requested = committed s.torrent.numFiles requested s.torrent.priorities := by
    rw [show s.torrent.numFiles = _ from s.torrent.priorities_length.symm, committed_all hlen]
  refine wp_mono (asyncSetFilePriority_spec G storage priorities hs hapart hrequested
    (s.torrent.TurnedBelow requested) (fun i hi => absurd hi (Nat.not_lt_zero i)) ?_
    fun k hk tree tree' h ht hm => h.step hapart hk ht hm) ?_ ?_
  · intro k _ tree h hnot i hi ht
    rcases Nat.lt_succ_iff_lt_or_eq.mp hi with hlt | rfl
    · exact h i hlt ht
    · exact absurd ht hnot
  · rintro _ s' ⟨hdone, hremoval, tree, hturned, htree⟩
    rw [hdone.priorities]
    refine ⟨⟨hall, fun hused n hp => ?_, ?_⟩, hremoval⟩
    · exact (hdone.kept hused).names hp fun i hi hpad => (hapart.notPart i hi hpad).symm
    · refine hturned.congr fun i hi hpad => ?_
      rw [htree, withoutPart_of_ne (hapart.notPart i hi hpad)]
  · rintro _ s' (⟨k, hk, hcommitted, ht, tree, hturned, hunharmed, -⟩ |
      ⟨hcommitted, hturned, hunused, hremoval, -⟩)
    · refine ⟨k, hk.le, hcommitted.beginning hapart (hturned.congr fun i hi hpad => ?_), Or.inl hk⟩
      refine hunharmed.other (fun heq => ?_) (hapart.notPart i (hi.trans hk) hpad)
      exact hi.ne (hapart.distinct i (hi.trans hk) k hk hpad ht.1 heq)
    · refine ⟨_, le_rfl, hcommitted.beginning hapart hturned, Or.inr ⟨?_, hremoval⟩⟩
      rwa [hcommitted.priorities, ← hall]

/-- The job reports the priorities that the operation has left. -/
theorem runJob_setFilePriority (reuse : Bool) (storage : Nat) (priorities : List Priority)
    (s : Sys World) :
    runJob G.env reuse storage (.setFilePriority priorities) s =
      (.prioritised (unitError (asyncSetFilePriority G.env storage priorities s).1)
          (asyncSetFilePriority G.env storage priorities s).2.torrent.priorities,
        (asyncSetFilePriority G.env storage priorities s).2) :=
  rfl

/-- **A priority change commits a beginning of the request**, whatever fails. -/
theorem prefix_committed (hs : d.world.Sound) (hapart : Apart t) (reuse : Bool) (storage : Nat)
    (priorities : List Priority) :
    let requested := resizePriorities priorities t.numFiles
    let r := runJob G.env reuse storage (.setFilePriority priorities) { torrent := t, disk := d }
    ∃ k ≤ t.numFiles, ∃ error,
      r.1 = .prioritised error r.2.torrent.priorities ∧
      r.2.torrent.priorities = requested.take k ++ t.priorities.drop k ∧
      (error ≠ none ↔ k < t.numFiles ∨
        dontDownload ∉ r.2.torrent.priorities ∧ t.RemovalFailed r.2.disk) ∧
      (dontDownload ∈ r.2.torrent.priorities → ∀ n, d.world.docs t.partPath = some n →
        r.2.disk.world.docs t.partPath = some n) ∧
      ∀ i < k, t.files.padFileAt i = false → t.files.fileSize i ≠ 0 →
        (t.priority i ≠ dontDownload → requested.getD i defaultPriority = dontDownload →
          r.2.disk.tree (t.pathFor i) = none) ∧
        (t.priority i = dontDownload → requested.getD i defaultPriority ≠ dontDownload →
          ∃ doc, r.2.disk.tree (t.pathFor i) = some doc ∧
            doc.length = t.files.fileSize i) := by
  intro requested r
  have hspec := asyncSetFilePriority_prefix G storage priorities (s := { torrent := t, disk := d })
    hs hapart rfl
  rw [show r = _ from runJob_setFilePriority G reuse storage priorities _]
  rcases hrun : asyncSetFilePriority G.env storage priorities { torrent := t, disk := d } with
    ⟨_ | _, s'⟩
  · obtain ⟨k, hk, hbeginning, hreason⟩ := wp_error hspec hrun
    exact ⟨k, hk, _, rfl, hbeginning.vector, ⟨fun _ => hreason, fun _ => nofun⟩, hbeginning.part,
      fun i hi hpad hsize => ⟨hbeginning.newlySkipped hk hi hpad hsize,
        hbeginning.newlyWanted hk hi hpad hsize⟩⟩
  · obtain ⟨hbeginning, hremoval⟩ := wp_ok hspec hrun
    refine ⟨_, le_rfl, _, rfl, hbeginning.vector, ⟨fun h => absurd rfl h, ?_⟩, hbeginning.part,
      fun i hi hpad hsize => ⟨hbeginning.newlySkipped le_rfl hi hpad hsize,
        hbeginning.newlyWanted le_rfl hi hpad hsize⟩⟩
    rintro (hlt | hremoved)
    · exact absurd hlt (lt_irrefl _)
    · exact absurd hremoved hremoval

namespace Restart

/-- Both files are stored; skipping the second one will fail. -/
def halfWay : Disk World :=
  { world := { World.holding [(str "a", [1, 2, 3]), (str "b", [4, 5])] with
      bridge := List.replicate 4 .ok ++ [.fail ⟨eio, eio_pos⟩] } }

theorem sound_halfWay : halfWay.world.Sound :=
  have hs := World.sound_holding [(str "a", [1, 2, 3]), (str "b", [4, 5])]
  ⟨hs.inj, hs.bound⟩

/-- Only the first file is skipped, and its document is gone. -/
theorem prefix_committed_halfWay :
    (runJob (Host.env ⟨.next, id, id⟩) true 0 (.setFilePriority [0, 0])
      { torrent := build params [], disk := halfWay }).2.torrent.priorities = [0, 4] ∧
    (runJob (Host.env ⟨.next, id, id⟩) true 0 (.setFilePriority [0, 0])
      { torrent := build params [], disk := halfWay }).2.disk.tree (str "a") = none := by
  have hvector : (runJob (Host.env ⟨.next, id, id⟩) true 0 (.setFilePriority [0, 0])
      { torrent := build params [], disk := halfWay }).2.torrent.priorities = [0, 4] := by
    decide +kernel
  obtain ⟨k, hk, error, -, hbeginning, -, -, hfiles⟩ :=
    prefix_committed ⟨.next, id, id⟩ sound_halfWay apart_params true 0 [0, 0]
  have hk' : 0 < k := by
    rcases Nat.eq_zero_or_pos k with rfl | hpos
    · rw [hvector] at hbeginning
      exact absurd hbeginning (by decide)
    · exact hpos
  exact ⟨hvector, (hfiles 0 hk' (by decide) (by decide)).1 (by decide) (by decide)⟩

end Restart

/-! ## Whether a change succeeds -/

namespace TorrentStorage

/-- The bytes the migration of a file reads are all there: the file's document is not shorter
    than the file, or the part file reaches to the file's end, or there is nothing to read. -/
def Supplies (t : TorrentStorage) (requested : List Priority) (tree : Tree) (i : Nat) : Prop :=
  if skips requested i then
    ∀ doc, tree (t.pathFor i) = some doc → t.files.fileSize i ≤ doc.length
  else safeRelativePath (t.pathFor i) = true ∧
    ((tree t.partPath = none ∧ ∀ j < i, t.Turns requested j → skips requested j = false) ∨
      ∃ doc, tree t.partPath = some doc ∧ t.files.fileOffset i + t.files.fileSize i ≤ doc.length)

/-- The documents when the loop has come to file `k`: files ahead are untouched, and the part
    file reaches beyond the file's beginning as far as it did. -/
structure SoFar (t : TorrentStorage) (requested : List Priority) (tree₀ : Tree) (k : Nat)
    (tree : Tree) : Prop where
  ahead : ∀ i < t.numFiles, k ≤ i → t.files.padFileAt i = false →
    tree (t.pathFor i) = tree₀ (t.pathFor i)
  unwritten : tree t.partPath = none ↔
    tree₀ t.partPath = none ∧ ∀ j < k, t.Turns requested j → skips requested j = false
  reaches : ∀ doc, tree t.partPath = some doc → ∀ m, t.files.fileOffset k < m →
    (m ≤ doc.length ↔ ∃ doc₀, tree₀ t.partPath = some doc₀ ∧ m ≤ doc₀.length)
  supplied : ∀ i < k, t.Turns requested i → t.Supplies requested tree₀ i

namespace SoFar

variable {t : TorrentStorage} {requested : List Priority} {tree₀ tree tree' : Tree} {k : Nat}

theorem zero : t.SoFar requested tree 0 tree := by
  refine ⟨fun _ _ _ _ => rfl, by simp, fun doc hdoc m _ => ?_, by simp⟩
  rw [hdoc]
  simp

/-- A migration fails when its source ends too early. -/
theorem fails_iff (h : t.SoFar requested tree₀ k tree) (hk : k < t.numFiles)
    (ht : t.Turns requested k) :
    t.MigrationFails k (skips requested k) tree ↔ ¬ t.Supplies requested tree₀ k := by
  obtain ⟨hpad, hsize, -⟩ := ht
  cases hskips : skips requested k with
  | true =>
    simp only [MigrationFails, migrationTarget, migrationSource, Supplies, hskips, if_true,
      t.safe_partPath, h.ahead k hk le_rfl hpad]
    simp
  | false =>
    simp only [MigrationFails, migrationTarget, migrationSource, Supplies, hskips,
      Bool.false_eq_true, if_false]
    rw [not_and_or, Bool.not_eq_true]
    refine or_congr_right ?_
    cases hpart : tree t.partPath with
    | none =>
      have hnothing := h.unwritten.mp hpart
      constructor
      · rintro ⟨_, hdoc, _⟩
        cases hdoc
      · intro hshort
        exact absurd (Or.inl hnothing) hshort
    | some doc =>
      have hwritten := h.unwritten.not.mp (by rw [hpart]; simp)
      have hreaches := h.reaches doc hpart (t.files.fileOffset k + t.files.fileSize k) (by omega)
      rw [← hreaches, not_or]
      simp only [hwritten, not_false_eq_true, true_and, Option.some.injEq, exists_eq_left', not_le]

theorem stay (h : t.SoFar requested tree₀ k tree) (hk : k < t.numFiles)
    (hnot : ¬ t.Turns requested k) : t.SoFar requested tree₀ (k + 1) tree := by
  have hlt : ∀ j < k + 1, t.Turns requested j → j < k := fun j hj ht => by
    rcases Nat.lt_succ_iff_lt_or_eq.mp hj with hj | rfl
    · exact hj
    · exact absurd ht hnot
  refine ⟨fun i hi hki => h.ahead i hi (by omega), ?_, fun doc hdoc m hm => h.reaches doc hdoc m ?_,
    fun i hi ht => h.supplied i (hlt i hi ht) ht⟩
  · rw [h.unwritten]
    exact and_congr_right fun _ => ⟨fun hj j hlt' ht => hj j (hlt j hlt' ht) ht,
      fun hj j hlt' => hj j (by omega)⟩
  · have hk' : k < t.files.entries.length := hk
    have := offsetAt_succ hk'
    unfold FileStorage.fileOffset at *
    omega

theorem turn (h : t.SoFar requested tree₀ k tree) (hapart : Apart t) (hk : k < t.numFiles)
    (ht : t.Turns requested k) (hm : t.HasMigrated k (skips requested k) tree tree') :
    t.SoFar requested tree₀ (k + 1) tree' := by
  have hpart : t.partPath ≠ t.pathFor k := (hapart.notPart k hk ht.1).symm
  have hnext : t.files.fileOffset (k + 1) = t.files.fileOffset k + t.files.fileSize k :=
    offsetAt_succ hk
  have hahead : ∀ i < t.numFiles, k + 1 ≤ i → t.files.padFileAt i = false →
      tree' (t.pathFor i) = tree₀ (t.pathFor i) := by
    intro i hi hki hpad
    rw [hm.other (fun heq => ?_) (hapart.notPart i hi hpad), h.ahead i hi (by omega) hpad]
    have := hapart.distinct i hi k hk hpad ht.1 heq
    omega
  have hsupplied : ∀ i < k + 1, t.Turns requested i → t.Supplies requested tree₀ i := by
    intro i hi hti
    rcases Nat.lt_succ_iff_lt_or_eq.mp hi with hlt | rfl
    · exact h.supplied i hlt hti
    · exact not_not.mp ((h.fails_iff hk ht).not.mp hm.1)
  obtain ⟨-, bytes, hlen, -, htree⟩ := hm
  cases hskips : skips requested k with
  | false =>
    have hsame : tree' t.partPath = tree t.partPath := by
      rw [htree, migratedTree, hskips, if_neg Bool.false_ne_true, Function.update_of_ne hpart]
    refine ⟨hahead, ?_, fun doc hdoc m hm => h.reaches doc (hsame ▸ hdoc) m (by omega), hsupplied⟩
    rw [hsame, h.unwritten]
    refine and_congr_right fun _ => ⟨fun hj j hlt htj => ?_, fun hj j hlt => hj j (by omega)⟩
    rcases Nat.lt_succ_iff_lt_or_eq.mp hlt with hlt | rfl
    · exact hj j hlt htj
    · exact hskips
  | true =>
    have hsome : tree' t.partPath = some (Doc.splice ((tree t.partPath).getD [])
        (t.files.fileOffset k) bytes) := by
      rw [htree, migratedTree, hskips, if_pos rfl, Function.update_of_ne hpart,
        Function.update_self]
    have hne : bytes ≠ [] := by
      rintro rfl
      exact ht.2.1 hlen.symm
    refine ⟨hahead, ?_, fun doc hdoc m hm => ?_, hsupplied⟩
    · rw [hsome]
      refine ⟨fun hnone => absurd hnone (Option.some_ne_none _), fun hnone => ?_⟩
      rw [hnone.2 k (Nat.lt_succ_self k) ht] at hskips
      cases hskips
    · obtain rfl : _ = doc := Option.some.inj (hsome.symm.trans hdoc)
      rw [Doc.length_splice hne, hlen]
      -- the file's own bytes end where the next file begins
      have hdrop : ∀ n, m ≤ max n (t.files.fileOffset k + t.files.fileSize k) ↔ m ≤ n := by omega
      rw [hdrop]
      cases hold : tree t.partPath with
      | none =>
        rw [(h.unwritten.mp hold).1]
        simp only [Option.getD_none, List.length_nil]
        constructor
        · omega
        · rintro ⟨_, hnone, -⟩
          cases hnone
      | some doc => exact h.reaches doc hold m (by omega)

end SoFar

end TorrentStorage

/-- **When a priority change succeeds**, nothing failing. -/
theorem priorities_change_iff (hs : d.world.Sound) (hapart : Apart t) (hwilling : d.world.Willing)
    (hsmooth : d.world.Smooth) (reuse : Bool) (storage : Nat) (priorities : List Priority) :
    let requested := resizePriorities priorities t.numFiles
    let r := runJob G.env reuse storage (.setFilePriority priorities) { torrent := t, disk := d }
    (r.1 = .prioritised none requested ∧ r.2.torrent.priorities = requested) ↔
      ∀ i < t.numFiles, t.Turns requested i → t.Supplies requested d.tree i := by
  intro requested r
  have hspec := asyncSetFilePriority_spec G storage priorities (s := { torrent := t, disk := d })
    hs hapart rfl (t.SoFar requested d.tree) .zero (fun k hk tree h hnot => h.stay hk hnot)
    fun k hk tree tree' h ht hm => h.turn hapart hk ht hm
  rw [show r = _ from runJob_setFilePriority G reuse storage priorities _]
  rcases hrun : asyncSetFilePriority G.env storage priorities { torrent := t, disk := d } with
    ⟨error | _, s'⟩
  · refine ⟨fun h => ?_, fun hsupplies => ?_⟩
    · cases h.1
    rcases wp_error hspec hrun with
      ⟨k, hk, -, ht, tree, hsofar, -, hreason⟩ | ⟨-, -, -, -, hunwilling⟩
    · exact absurd (hsupplies k hk ht)
        ((hsofar.fails_iff hk ht).mp (hreason hwilling hsmooth))
    · exact absurd hwilling hunwilling
  · obtain ⟨hdone, -, tree, hsofar, -⟩ := wp_ok hspec hrun
    exact ⟨fun _ => hsofar.supplied, fun _ => ⟨by rw [hdone.priorities]; rfl, hdone.priorities⟩⟩

namespace Restart

/-- Both files are stored, and nothing fails. -/
def stored : Disk World := { world := World.holding [(str "a", [1, 2, 3]), (str "b", [4, 5])] }

/-- The first file can be skipped. -/
theorem priorities_change_stored :
    (runJob (Host.env ⟨.next, id, id⟩) true 0 (.setFilePriority [0, 4])
      { torrent := build params [], disk := stored }).2.torrent.priorities = [0, 4] := by
  refine ((priorities_change_iff ⟨.next, id, id⟩ (World.sound_holding _) apart_params
    (by simp [World.Willing, stored, World.holding])
    (by simp [World.Smooth, stored, World.holding]) true 0 [0, 4]).mpr fun i hi ht => ?_).2
  have hlt : i < 2 := hi
  interval_cases i
  · exact fun doc hdoc => by
      obtain rfl : [1, 2, 3] = doc := Option.some.inj hdoc
      decide
  · exact absurd ht.2.2 (by decide)

end Restart

namespace Sparse

/-- One file of four bytes, skipped from the start. -/
def params : StorageParams where
  files := FileStorage.ofEntries [{ size := 4, pad := false }] 4
  filePath _ := str "a"
  path := flowSessionRoot
  priorities := [dontDownload]
  infoHash := List.replicate 20 171

def world : World := World.holding []

def jobs : List Job := [.write { piece := 0, start := 0, length := 2 } [1, 2], .setFilePriority [4]]

/-- Half of the skipped file is written, and nothing fails: the file cannot be wanted again. -/
theorem half_written_file_refused :
    TorrentStorage.new (provider .next id id) params world = (.ok (build params []), world) ∧
    world.Willing ∧ world.Smooth ∧ Apart (build params []) ∧
    (runJobs (provider .next id id) true 0 jobs
      { torrent := build params [], disk := { world } }).1 =
      [.written none, .prioritised (some (makeError (-eio) 0 .partfileRead)) [dontDownload]] := by
  refine ⟨rfl, by simp [World.Willing, world, World.holding],
    by simp [World.Smooth, world, World.holding], ?_, by decide +kernel⟩
  constructor <;> decide +kernel

end Sparse

end Saf
end Libtorrent4j
