import Libtorrent4j.Saf.Moving
import Libtorrent4j.Saf.Readable

/-!
# Foreign data after a move

A move copies what it finds at the files' paths. What it does not look for is a document that
is already at a destination and has nothing to be replaced by: **where a file has no document
and its destination has one, that document is the file's from then on**, under
`always_replace_files` without a word. `move_adopts_nothing_iff` says exactly when this shows.
-/

namespace Libtorrent4j
namespace Saf

open Lib Lib.Exec TorrentStorage

/-- The move is let through and leaves nothing to be checked. -/
structure TorrentStorage.MoveSilent (t : TorrentStorage) (path : Path) (flags : MoveFlags)
    (d : Disk World) : Prop where
  safe : safeRelativePath path = true
  allowed : t.MoveAllowed (normalizedSaveRoot path) flags d
  free : flags = .dontReplace → ∀ i < t.numFiles, t.files.padFileAt i = false →
    t.pathFor i ≠ t.destination (normalizedSaveRoot path) i →
    d.tree (t.destination (normalizedSaveRoot path) i) = none

/-- Nothing foreign comes to be read: a file that is not skipped and has no document meets none
    that is not empty, and a document moved over the part file has the skipped files' bytes. -/
structure TorrentStorage.AdoptsNothing (t : TorrentStorage) (root : Path) (tree : Tree) : Prop where
  missing : ∀ i < t.numFiles, t.files.padFileAt i = false → t.skipped i = false →
    t.files.fileSize i ≠ 0 → t.pathFor i ≠ t.destination root i → tree (t.pathFor i) = none →
    ∀ doc, tree (t.destination root i) = some doc → doc = []
  part : ∀ i < t.numFiles, t.files.padFileAt i = false → t.pathFor i ≠ t.destination root i →
    t.destination root i = t.partPath → ∀ doc, tree (t.pathFor i) = some doc →
    ∀ j < t.numFiles, t.files.padFileAt j = false → t.skipped j = true →
      ∀ offset < t.files.fileSize j, doc[t.files.fileOffset j + offset]? =
        (tree t.partPath).bind fun part => part[t.files.fileOffset j + offset]?

/-- The array of a storage, read off another tree, is the same where every home has the same
    bytes. -/
theorem byteAt_congr {t t' : TorrentStorage} {tree tree' : Tree} {q : Nat}
    (hfiles : t'.files = t.files)
    (h : ∀ i offset, LiesAt t.files.entries q i offset → t.files.padFileAt i = false →
      (if safeRelativePath (t'.homePath i) then
        (tree' (t'.homePath i)).bind fun doc => doc[t'.homeOffset i offset]? else none) =
      (if safeRelativePath (t.homePath i) then
        (tree (t.homePath i)).bind fun doc => doc[t.homeOffset i offset]? else none)) :
    t'.byteAt tree' q = t.byteAt tree q := by
  unfold TorrentStorage.byteAt
  rw [hfiles]
  cases hat : locate t.files.entries q with
  | none => rfl
  | some at' =>
    obtain ⟨i, offset⟩ := at'
    dsimp only
    by_cases hpad : t.files.padFileAt i = true
    · rw [if_pos hpad, if_pos hpad]
    · rw [if_neg hpad, if_neg hpad]
      exact h i offset (locate_eq_some_iff.mp hat) (by simpa using hpad)

variable {G : Host} {t : TorrentStorage} {storage : Nat} {path : Path} {flags : MoveFlags}
  {status : Status} {d d' : Disk World}

section Arrived

variable {root : Path}

/-- In a silent move a document arrives that was at the file's path, unless there was none. -/
theorem arrived_silent
    (hfree : flags = .dontReplace → ∀ i < t.numFiles, t.files.padFileAt i = false →
      t.pathFor i ≠ t.destination root i → d.tree (t.destination root i) = none)
    {i : Nat} (hi : i < t.numFiles) (hpad : t.files.padFileAt i = false) :
    t.arrived root flags d.tree i =
      (d.tree (t.pathFor i)).or (d.tree (t.destination root i)) := by
  unfold TorrentStorage.arrived
  cases hdoc : d.tree (t.pathFor i) with
  | none => simp
  | some doc =>
    rw [Option.some_or]
    by_cases hmoves : t.pathFor i = t.destination root i
    · rw [← hmoves, hdoc]
      split <;> rfl
    · rw [if_neg]
      rintro (hnone | ⟨hflags, hsome⟩)
      · simp at hnone
      · rw [hfree hflags i hi hpad hmoves] at hsome
        simp at hsome

theorem homePath_setSaveRoot {i : Nat} (hi : i < t.numFiles) :
    (t.setSaveRoot root).homePath i =
      if t.skipped i then t.partPath
      else rootedPath (normalizedSaveRoot root) (t.logicalPath i) := by
  rw [homePath, setSaveRoot_skipped, setSaveRoot_partPath, t.setSaveRoot_pathFor root hi]

theorem homeOffset_setSaveRoot (i offset : Nat) :
    (t.setSaveRoot root).homeOffset i offset = t.homeOffset i offset := rfl

end Arrived

/-- What the part file's path holds after a silent move. -/
theorem Moved.partPath (hapart : Apart t)
    (h : Moved t storage (normalizedSaveRoot path) flags status d d')
    (hnoreset : flags.isReset = false)
    (hfree : flags = .dontReplace → ∀ i < t.numFiles, t.files.padFileAt i = false →
      t.pathFor i ≠ t.destination (normalizedSaveRoot path) i →
      d.tree (t.destination (normalizedSaveRoot path) i) = none) :
    d'.tree t.partPath = d.tree t.partPath ∨
      ∃ i < t.numFiles, t.files.padFileAt i = false ∧
        t.pathFor i ≠ t.destination (normalizedSaveRoot path) i ∧
        t.destination (normalizedSaveRoot path) i = t.partPath ∧
        ∃ doc, d.tree (t.pathFor i) = some doc ∧ d'.tree t.partPath = some doc := by
  by_cases hdest : ∃ i < t.numFiles, t.files.padFileAt i = false ∧
      t.destination (normalizedSaveRoot path) i = t.partPath
  · obtain ⟨i, hi, hpad, hpart⟩ := hdest
    have harrived := h.there hnoreset i hi hpad
    rw [arrived_silent hfree hi hpad, hpart] at harrived
    cases hdoc : d.tree (t.pathFor i) with
    | none => exact Or.inl (by rw [harrived, hdoc, Option.none_or])
    | some doc =>
      refine Or.inr ⟨i, hi, hpad, fun heq => ?_, hpart, doc, hdoc, ?_⟩
      · exact hapart.notPart i hi hpad (heq.trans hpart)
      · rw [harrived, hdoc, Option.some_or]
  · push Not at hdest
    rcases h.frame t.partPath fun i hi hpad heq => hdest i hi hpad heq.symm with
      hsame | ⟨-, ⟨i, hi, hpad, heq⟩, -⟩
    · exact Or.inl hsame
    · exact absurd heq (hapart.notPart i hi hpad)

/-- After a silent move that adopts nothing, the array is what it was. -/
theorem byteAt_moved (hapart : Apart t) (hsilent : t.MoveSilent path flags d)
    (hnoreset : flags.isReset = false)
    (hadopts : t.AdoptsNothing (normalizedSaveRoot path) d.tree)
    (h : Moved t storage (normalizedSaveRoot path) flags status d d') (q : Nat) :
    (t.setSaveRoot (normalizedSaveRoot path)).byteAt d'.tree q = t.byteAt d.tree q := by
  refine byteAt_congr rfl fun i offset hlies hpad => ?_
  have hi : i < t.numFiles := hlies.1
  have hoff : offset < t.files.fileSize i := hlies.2.1
  obtain ⟨hlogical, hpath⟩ := hsilent.allowed.accepted.1 i hi
  rw [homeOffset_setSaveRoot, homePath_setSaveRoot hi, normalizedSaveRoot_idem, homePath,
    homeOffset]
  cases hskipped : t.skipped i with
  | true =>
    simp only [if_true, t.safe_partPath]
    rcases h.partPath hapart hnoreset hsilent.free with
      hsame | ⟨j, hj, hpj, hmoves, hpart, doc, hdoc, hthere⟩
    · rw [hsame]
    · rw [hthere, ← hadopts.part j hj hpj hmoves hpart doc hdoc i hi hpad hskipped offset hoff]
      rfl
  | false =>
    have hdest : safeRelativePath (rootedPath (normalizedSaveRoot path) (t.logicalPath i)) = true :=
      (safe_rootedPath (rootOk_normalized hsilent.safe)).mpr hlogical
    have hthere := h.there hnoreset i hi hpad
    rw [arrived_silent hsilent.free hi hpad, TorrentStorage.destination] at hthere
    simp only [Bool.false_eq_true, if_false, hpath, hdest, if_true, hthere]
    cases hdoc : d.tree (t.pathFor i) with
    | some doc => rfl
    | none =>
      rw [Option.none_or]
      by_cases hmoves : t.pathFor i = t.destination (normalizedSaveRoot path) i
      · rw [hmoves, TorrentStorage.destination] at hdoc
        rw [hdoc]
      · cases hat : d.tree (rootedPath (normalizedSaveRoot path) (t.logicalPath i)) with
        | none => rfl
        | some doc =>
          obtain rfl := hadopts.missing i hi hpad hskipped (by omega) hmoves hdoc doc hat
          rfl

/-- Where the array is what it was, nothing has been adopted. -/
theorem adoptsNothing_of_byteAt (hsilent : t.MoveSilent path flags d)
    (hnoreset : flags.isReset = false)
    (h : Moved t storage (normalizedSaveRoot path) flags status d d')
    (hsame : ∀ q, (t.setSaveRoot (normalizedSaveRoot path)).byteAt d'.tree q = t.byteAt d.tree q) :
    t.AdoptsNothing (normalizedSaveRoot path) d.tree := by
  have hlies : ∀ {i offset}, i < t.numFiles → offset < t.files.fileSize i →
      LiesAt t.files.entries (t.files.fileOffset i + offset) i offset :=
    fun hi hoff => ⟨hi, hoff, rfl⟩
  constructor
  · -- the first byte of a file that had no document, read at the destination after the move
    intro i hi hpad hskipped hsize hmoves hnone doc hdoc
    have hq := hlies hi (Nat.pos_of_ne_zero hsize)
    have hbefore : t.byteAt d.tree (t.files.fileOffset i + 0) = none :=
      byteAt_eq_none hq hpad (Or.inr (by rw [homePath, hskipped]; exact hnone))
    have hthere := h.there hnoreset i hi hpad
    rw [arrived_silent hsilent.free hi hpad, hnone, Option.none_or, hdoc] at hthere
    have hhome : (t.setSaveRoot (normalizedSaveRoot path)).homePath i =
        t.destination (normalizedSaveRoot path) i := by
      rw [homePath_setSaveRoot hi, hskipped, normalizedSaveRoot_idem]
      rfl
    have hsafe : safeRelativePath (t.destination (normalizedSaveRoot path) i) = true :=
      (safe_rootedPath (rootOk_normalized hsilent.safe)).mpr (hsilent.allowed.accepted.1 i hi).1
    have hafter : (t.setSaveRoot (normalizedSaveRoot path)).byteAt d'.tree
        (t.files.fileOffset i + 0) = doc[t.homeOffset i 0]? :=
      byteAt_of_liesAt (t := t.setSaveRoot (normalizedSaveRoot path)) hq hpad
        (by rw [hhome]; exact hsafe) (by rw [hhome]; exact hthere)
    rw [hsame, hbefore, homeOffset, hskipped] at hafter
    simpa using hafter.symm
  · -- a byte of a skipped file, which lies in the part file before and after
    intro i hi hpad hmoves hpart doc hdoc j hj hpj hskipped offset hoff
    have hq := hlies hj hoff
    have hthere := h.there hnoreset i hi hpad
    rw [arrived_silent hsilent.free hi hpad, hdoc, Option.some_or, hpart] at hthere
    have hhome : (t.setSaveRoot (normalizedSaveRoot path)).homePath j = t.partPath := by
      rw [homePath_setSaveRoot hj, hskipped]
      rfl
    have hafter : (t.setSaveRoot (normalizedSaveRoot path)).byteAt d'.tree
        (t.files.fileOffset j + offset) = doc[t.homeOffset j offset]? :=
      byteAt_of_liesAt (t := t.setSaveRoot (normalizedSaveRoot path)) hq hpj
        (by rw [hhome]; exact t.safe_partPath) (by rw [hhome]; exact hthere)
    have hbefore : t.byteAt d.tree (t.files.fileOffset j + offset) =
        (d.tree t.partPath).bind fun part => part[t.files.fileOffset j + offset]? := by
      rw [TorrentStorage.byteAt, locate_eq_some_iff.mpr hq]
      simp [hpj, homePath, homeOffset, hskipped, t.safe_partPath]
    rw [hsame, hbefore, homeOffset, hskipped, if_pos rfl] at hafter
    exact hafter.symm

/-- **When a move adopts foreign data.** For every reachable storage with different paths and a
    coherent cache, under every flag but the two resets: if a silent move adopts nothing, then
    for every scheduled failure a move without an error and without `need_full_check` leaves
    readable exactly what was readable; and where nothing fails, only then. -/
theorem move_adopts_nothing_iff (G : Host) {t : TorrentStorage} (hreach : t.Reachable)
    (hapart : Apart t) {K : Keys} {d : Disk World} (hc : Coherent K d) {storage : Nat}
    (hK : ∀ file p, t.keys storage storage file p → K storage file p)
    (hothers : ∀ s file p, K s file p → s ≠ storage → ∀ i < t.numFiles, p ≠ t.pathFor i)
    (path : Path) {flags : MoveFlags}
    (hflags : flags ≠ .resetSavePath ∧ flags ≠ .resetSavePathUnchecked) :
    let r := runJob G.env true storage (.moveStorage path flags) { torrent := t, disk := d }
    let same := ∀ status, r.1 = .moved status path none → status.needFullCheck = false →
      ∀ q b, Reads G storage [] [] r.2.torrent r.2.disk q b ↔ Reads G storage [] [] t d q b
    let adopts := t.MoveSilent path flags d →
      t.AdoptsNothing (normalizedSaveRoot path) d.tree
    (adopts → same) ∧ (d.world.Willing → d.world.Smooth → same → adopts) := by
  have hrooted : t.Rooted := fun i hi => hreach.rooted hi
  have hspec := asyncMoveStorage_spec G hrooted hapart.distinct storage path flags hc.sound
  have hnoreset : flags.isReset = false := by
    cases flags <;> simp_all [MoveFlags.isReset]
  intro r same adopts
  have hr : r = (movedReport path
      (asyncMoveStorage G.env storage path flags { torrent := t, disk := d }).1,
      (asyncMoveStorage G.env storage path flags { torrent := t, disk := d }).2) := rfl
  rcases hrun : asyncMoveStorage G.env storage path flags { torrent := t, disk := d } with
    ⟨e | status, s'⟩ <;> rw [hrun] at hr
  · obtain ⟨-, hnot⟩ := wp_error hspec hrun
    refine ⟨fun _ status hreport => ?_, fun hw hsm _ hsilent => ?_⟩
    · rw [hr] at hreport
      simp [movedReport] at hreport
    · exact absurd ⟨hsilent.safe, hsilent.allowed⟩ (hnot.willing hw hsm).2
  obtain ⟨htorrent, hsafe, hallowed, hmoved⟩ := wp_ok hspec hrun
  obtain ⟨-, hstatus⟩ := hmoved.status hnoreset
  -- a move without `need_full_check` is a silent one
  have hsilent : status.needFullCheck = false → t.MoveSilent path flags d := by
    refine fun hkept => ⟨hsafe, hallowed, fun hf i hi hpad hmoves => ?_⟩
    by_contra hexists
    rw [hstatus.mpr ⟨hf, i, hi, hpad, hmoves, hexists⟩] at hkept
    cases hkept
  have hcoherent : Coherent (fun s file p => (K s file p ∧ s ≠ storage) ∨
      s'.torrent.keys storage s file p) s'.disk := by
    refine (hmoved.coherent hc fun s file p hkey hs hleft => ?_).mono fun _ _ h => Or.inl h
    obtain ⟨⟨i, hi, -, hpath⟩, -⟩ := hleft
    exact hothers s file p hkey hs i hi hpath.symm
  have hreads : ∀ q b, (Reads G storage [] [] s'.torrent s'.disk q b ↔
      s'.torrent.byteAt s'.disk.tree q = some b) ∧
      (Reads G storage [] [] t d q b ↔ t.byteAt d.tree q = some b) := fun q b =>
    ⟨reads_iff hcoherent fun file p hkey => Or.inr hkey, reads_iff hc hK⟩
  refine ⟨fun hadopts status' hreport hkept q b => ?_, fun _ _ hsame hsil => ?_⟩
  · rw [hr] at hreport ⊢
    obtain rfl : status = status' := by simpa [movedReport] using hreport
    rw [(hreads q b).1, (hreads q b).2, htorrent,
      byteAt_moved hapart (hsilent hkept) hnoreset (hadopts (hsilent hkept)) hmoved q]
  · refine adoptsNothing_of_byteAt hsil hnoreset hmoved fun q => ?_
    have hkept : status.needFullCheck = false := by
      by_contra hkept
      obtain ⟨hf, i, hi, hpad, hmoves, hexists⟩ := hstatus.mp (by simpa using hkept)
      exact hexists (hsil.free hf i hi hpad hmoves)
    have := hsame status (by rw [hr]; rfl) hkept q
    rw [hr] at this
    refine Option.ext fun b => ?_
    rw [← htorrent, ← (hreads q b).1, ← (hreads q b).2]
    exact this b

namespace Adopted

open Restart

/-- `b` was never written, and a foreign document is where the move takes it. -/
def disk : Disk World := { world := World.holding [(str "a", [1, 2, 3]), (str "d/b", [7, 7])] }

theorem coherent_disk : Coherent ((build Restart.params []).keys 0) disk :=
  coherent_fresh (World.sound_holding _) _

/-- The move of `a` and `b` to `d` succeeds without a word, and torrent position 3, which could
    not be read before, then reads as the foreign byte. -/
theorem foreign_document_adopted :
    (build Restart.params []).Reachable ∧ Apart (build Restart.params []) ∧
    Coherent ((build Restart.params []).keys 0) disk ∧ disk.world.Willing ∧
    (runJob (Host.env ⟨.next, id, id⟩) true 0 (.moveStorage (str "d") .alwaysReplaceFiles)
      { torrent := build Restart.params [], disk }).1 = .moved {} (str "d") none ∧
    Reads ⟨.next, id, id⟩ 0 [] []
      (runJob (Host.env ⟨.next, id, id⟩) true 0 (.moveStorage (str "d") .alwaysReplaceFiles)
        { torrent := build Restart.params [], disk }).2.torrent
      (runJob (Host.env ⟨.next, id, id⟩) true 0 (.moveStorage (str "d") .alwaysReplaceFiles)
        { torrent := build Restart.params [], disk }).2.disk 3 7 ∧
    ¬ Reads ⟨.next, id, id⟩ 0 [] [] (build Restart.params []) disk 3 7 := by
  refine ⟨reachable_params, Restart.apart_params, coherent_disk,
    by simp [World.Willing, disk, World.holding],
    by decide +kernel, ⟨{ piece := 0, start := 3, length := 1 }, [7], none, by decide +kernel,
      by decide +kernel, by decide +kernel, by decide +kernel⟩, fun h => ?_⟩
  have := h.byteAt coherent_disk fun _ _ h => h
  exact absurd this (by decide +kernel)

/-- Both files are there: moving them shows nothing new. -/
def present : Disk World := { world := World.holding [(str "a", [1, 2, 3]), (str "b", [4, 5])] }

theorem coherent_present : Coherent ((build Restart.params []).keys 0) present :=
  coherent_fresh (World.sound_holding _) _

theorem adopts_nothing_present :
    (build Restart.params []).AdoptsNothing (str "d") present.tree := by
  constructor
  · intro i hi _ _ _ _ hnone
    exact absurd hnone ((by decide +kernel : ∀ i < (build Restart.params []).numFiles,
      present.tree ((build Restart.params []).pathFor i) ≠ none) i hi)
  · intro i hi _ _ hpart
    exact absurd hpart ((by decide +kernel : ∀ i < (build Restart.params []).numFiles,
      (build Restart.params []).destination (str "d") i ≠ (build Restart.params []).partPath) i hi)

/-- What could be read of the files that are there can be read after their move. -/
theorem move_adopts_nothing_present :
    Reads ⟨.next, id, id⟩ 0 [] []
      (runJob (Host.env ⟨.next, id, id⟩) true 0 (.moveStorage (str "d") .alwaysReplaceFiles)
        { torrent := build Restart.params [], disk := present }).2.torrent
      (runJob (Host.env ⟨.next, id, id⟩) true 0 (.moveStorage (str "d") .alwaysReplaceFiles)
        { torrent := build Restart.params [], disk := present }).2.disk 3 4 := by
  obtain ⟨hsame, -⟩ := move_adopts_nothing_iff ⟨.next, id, id⟩ reachable_params Restart.apart_params
    coherent_present (fun _ _ h => h) (fun _ _ _ h hne => absurd h.1 hne) (str "d")
    (by decide : MoveFlags.alwaysReplaceFiles ≠ .resetSavePath ∧
      MoveFlags.alwaysReplaceFiles ≠ .resetSavePathUnchecked)
  refine (hsame (fun _ => adopts_nothing_present) {} (by decide +kernel) rfl 3 4).mpr ?_
  exact reads_of_byteAt (by decide +kernel) coherent_present fun _ _ h => h

end Adopted

end Saf
end Libtorrent4j
