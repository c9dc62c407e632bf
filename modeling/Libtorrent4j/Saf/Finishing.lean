import Libtorrent4j.Saf.Owning
import Libtorrent4j.Saf.PriorityChange
import Libtorrent4j.Saf.Resuming

/-!
# A finished torrent is recognised

A resume check that claims every piece demands a document of exactly the nominal size for every
wanted file. The first check of a torrent makes these documents, and **every operation hands
the sizes on**: a write stays inside its file, a rename and a move take the whole document
along, a migration back from the part file is preceded by a truncation. The one gap is an empty
file that was skipped: nothing is migrated for it, so nothing makes its document.
-/

namespace Libtorrent4j
namespace Saf

open Lib Lib.Exec TorrentStorage

/-- Every public file has a document of its size. -/
def AllSized (t : TorrentStorage) (tree : Tree) : Prop :=
  ∀ i, t.Public i → ∃ doc, tree (t.pathFor i) = some doc ∧ doc.length = t.files.fileSize i

/-! ## The first check -/

theorem allSized_of_sized {t : TorrentStorage} {tree tree' : Tree}
    (h : ∀ i, t.Public i →
      tree' (t.pathFor i) = sized (tree (t.pathFor i)) (t.files.fileSize i)) : AllSized t tree' :=
  fun i hi => ⟨_, h i hi, Doc.length_resize _ _⟩

/-! ## Writes -/

section Write

variable (G : Host) {t : TorrentStorage} {storage : Nat} {K : Keys}

/-- A slice ends inside its file, so a document of the file's size keeps it. -/
theorem AllSized.written {tree : Tree} {pos len : Nat} {slice : FileSlice} {rest : List FileSlice}
    {data : List Byte} (h : AllSized t tree) (hapart : Apart t)
    (hcover : Covers t.files.entries pos len (slice :: rest))
    (hpad : t.files.padFileAt slice.fileIndex = false) (hlen : data.length = slice.size) :
    AllSized t (t.written tree slice data) := by
  obtain ⟨hslice, hpos, hfit, -⟩ := hcover
  intro i hi
  obtain ⟨doc, hdoc, hsize⟩ := h i hi
  by_cases hhome : t.pathFor i = t.homePath slice.fileIndex
  · cases hskipped : t.skipped slice.fileIndex with
    | true =>
      rw [homePath, if_pos hskipped] at hhome
      exact absurd hhome (hapart.notPart i hi.1 hi.2.1)
    | false =>
      have hpath : t.homePath slice.fileIndex = t.pathFor slice.fileIndex := by
        rw [homePath, if_neg (by simp [hskipped])]
      rw [hpath] at hhome
      obtain rfl := hapart.distinct i hi.1 slice.fileIndex hslice hi.2.1 hpad hhome
      refine ⟨_, by rw [TorrentStorage.written, hpath, Function.update_self], ?_⟩
      have hne : data ≠ [] := by
        rintro rfl
        simp at hlen
        omega
      rw [hdoc, Option.getD_some, Doc.length_splice hne, hsize, homeOffset,
        if_neg (by simp [hskipped]), hlen]
      exact max_eq_left hfit
  · exact ⟨doc, by rw [TorrentStorage.written, Function.update_of_ne hhome, hdoc], hsize⟩

theorem writeSlices_sized (reuse : Bool) {d : Disk World} (h : Coherent K d) (hapart : Apart t)
    (hK : ∀ file path, t.keys storage storage file path → K storage file path)
    {slices : List FileSlice} {pos : Nat} {input : List Byte}
    (hcover : Covers t.files.entries pos input.length slices) (hsized : AllSized t d.tree) :
    wp (writeSlices G.env reuse t storage slices input)
      (fun _ d' => AllSized t d'.tree) (fun _ _ => True) d := by
  induction slices generalizing d pos input with
  | nil => exact hsized
  | cons slice rest ih =>
    have hrest : Covers t.files.entries (pos + slice.size) (input.drop slice.size).length rest := by
      rw [List.length_drop]
      exact hcover.2.2.2.2.2
    have htake : (input.take slice.size).length = slice.size :=
      List.length_take_of_le hcover.2.2.2.2.1
    rw [writeSlices, wp_ite]
    refine ⟨fun _ => ih h hrest hsized, fun hpad => ?_⟩
    have hpad' : t.files.padFileAt slice.fileIndex = false := by simpa using hpad
    rw [wp_bind]
    refine wp_mono (writeSlice_spec G reuse h hK slice hpad' htake) ?_ fun _ _ _ => trivial
    rintro _ d₁ ⟨hproceeds, -, htree⟩
    exact ih hproceeds.coherent hrest (htree ▸ hsized.written hapart hcover hpad' htake)

end Write

/-! ## Steps -/

/-- The storage is owned, the bridge is willing, and every public file has its size. -/
structure Complete (storage : Nat) (s : Sys World) : Prop where
  owned : Owned storage s
  willing : s.disk.world.Willing
  sized : AllSized s.torrent s.disk.tree

/-- A job of a session that goes well: it reports neither an error nor a status. -/
def GoesWell (s : Sys World) (job : Job) (report : Report) : Prop :=
  KeepsAllApart s.torrent job ∧
  match job with
  | .write request input => request.InRange s.torrent.files ∧ input.length = request.length ∧
      report = .written none
  | .setFilePriority _ => ∃ current, report = .prioritised none current
  | .renameFile index name => report = .renamed name index none
  | .moveStorage path flags => (flags = .alwaysReplaceFiles ∨ flags = .failIfExist) ∧
      report = .moved {} path none
  | _ => False

/-- The file is empty, and is not to be skipped any more. -/
def TorrentStorage.WantsEmpty (t : TorrentStorage) (requested : List Priority) (i : Nat) : Prop :=
  t.files.padFileAt i = false ∧ t.files.fileSize i = 0 ∧ t.skipped i = true ∧
    skips requested i = false

/-- An empty file that is not to be skipped any more has its empty document already. -/
def HasEmpty (s : Sys World) : Job → Prop
  | .setFilePriority priorities => ∀ i < s.torrent.numFiles,
      s.torrent.WantsEmpty (resizePriorities priorities s.torrent.numFiles) i →
        s.disk.tree (s.torrent.pathFor i) = some []
  | _ => True

instance (t : TorrentStorage) (requested : List Priority) (i : Nat) :
    Decidable (t.WantsEmpty requested i) :=
  inferInstanceAs (Decidable (_ ∧ _))

instance (s : Sys World) : (job : Job) → Decidable (HasEmpty s job)
  | .setFilePriority priorities => inferInstanceAs (Decidable (∀ i < s.torrent.numFiles,
      s.torrent.WantsEmpty (resizePriorities priorities s.torrent.numFiles) i →
        s.disk.tree (s.torrent.pathFor i) = some []))
  | .read _ | .write _ _ | .hash _ _ _ | .hash2 _ _ | .releaseFiles | .checkFiles _ _
  | .stopTorrent | .deleteFiles _ _ | .renameFile _ _ | .moveStorage _ _ | .clearPiece _ =>
      inferInstanceAs (Decidable True)

namespace Complete

variable (G : Host) {storage : Nat} {s : Sys World}

theorem write (h : Complete storage s) {request : Request} {input : List Byte}
    (hrange : request.InRange s.torrent.files) (hinput : input.length = request.length)
    (hreport : (runJob G.env true storage (.write request input) s).1 = .written none) :
    Complete storage (runJob G.env true storage (.write request input) s).2 := by
  obtain ⟨howned, htorrent, hproceeds, -⟩ := h.owned.write G hrange hinput
  refine ⟨howned, hproceeds.kept.willing h.willing, ?_⟩
  rw [htorrent]
  have hcover := hrange.covers
  rw [← hinput] at hcover
  have hspec := writeSlices_sized G true h.owned.coherent h.owned.apart
    (fun _ _ hkey => hkey) hcover h.sized
  rw [hinput] at hspec
  simp only [runJob, onDisk, zoom, writeBlock] at hreport ⊢
  rcases hrun : writeSlices G.env true s.torrent storage (s.torrent.files.mapBlock request.piece
    request.start request.length) input s.disk with ⟨_ | _, d'⟩
  · rw [hrun] at hreport
    cases hreport
  · have hsized := wp_ok hspec hrun
    exact hsized

theorem rename (h : Complete storage s) {index : Int} {name : Path}
    (hjob : KeepsDocuments s.torrent (.renameFile index name))
    (hreport : (runJob G.env true storage (.renameFile index name) s).1 =
      .renamed name index none) :
    Complete storage (runJob G.env true storage (.renameFile index name) s).2 := by
  obtain ⟨howned, hkept, ⟨i, hindex, hi, hsafe, -, htorrent, hrenamed⟩ | ⟨⟨e, herror⟩, -⟩⟩ :=
    h.owned.rename G hjob
  · refine ⟨howned, hkept.willing h.willing, fun j hj => ?_⟩
    obtain ⟨⟨-, hold⟩, ⟨-, hnew⟩⟩ := hjob i hi hindex hsafe
    rw [htorrent] at hj ⊢
    have hjn : j < s.torrent.numFiles := hj.1
    obtain ⟨doc, hdoc, hsize⟩ := h.sized j ⟨hjn, hj.2⟩
    refine ⟨doc, ?_, hsize⟩
    rw [s.torrent.renameFile_pathFor _ _ _ hjn, hrenamed.tree]
    -- the document goes with its file, the others stay
    by_cases hji : j = i
    · rw [if_pos hji, Function.update_self, ← hji, hdoc]
    · rw [if_neg hji, Function.update_of_ne (hnew j hjn hji hj.2.1).symm,
        Function.update_of_ne (hold j hjn hji hj.2.1).symm, hdoc]
  · rw [herror] at hreport
    cases hreport

theorem move (h : Complete storage s) {path : Path} {flags : MoveFlags} {status : Status}
    (hjob : KeepsDocuments s.torrent (.moveStorage path flags))
    (hflags : flags = .alwaysReplaceFiles ∨ flags = .failIfExist)
    (hreport : (runJob G.env true storage (.moveStorage path flags) s).1 =
      .moved status path none) :
    Complete storage (runJob G.env true storage (.moveStorage path flags) s).2 := by
  obtain ⟨howned, ⟨_, -, htorrent, -, -, hmoved⟩ | ⟨⟨_, e, herror⟩, -⟩⟩ := h.owned.move G hjob
  · refine ⟨howned, hmoved.kept.willing h.willing, fun i hi => ?_⟩
    rw [htorrent] at hi ⊢
    have hin : i < s.torrent.numFiles := hi.1
    obtain ⟨doc, hdoc, hsize⟩ := h.sized i ⟨hin, hi.2⟩
    refine ⟨doc, ?_, hsize⟩
    rw [s.torrent.setSaveRoot_pathFor _ hin, normalizedSaveRoot_idem]
    have hthere := hmoved.there (by rcases hflags with rfl | rfl <;> rfl) i hin hi.2.1
    rw [arrived, if_neg, hdoc] at hthere
    · exact hthere
    · rintro (hnone | ⟨rfl, -⟩)
      · simp [hdoc] at hnone
      · rcases hflags with hf | hf <;> cases hf
  · rw [herror] at hreport
    cases hreport

theorem prioritise (h : Complete storage s) {priorities current : List Priority}
    (hempty : HasEmpty s (.setFilePriority priorities))
    (hreport : (runJob G.env true storage (.setFilePriority priorities) s).1 =
      .prioritised none current) :
    Complete storage (runJob G.env true storage (.setFilePriority priorities) s).2 := by
  obtain ⟨howned, hkept, ⟨-, hdone, tree, hhalf, htree⟩ | ⟨⟨e, herror⟩, -⟩⟩ :=
    h.owned.prioritise G priorities rfl
      (s.torrent.Halfway (resizePriorities priorities s.torrent.numFiles) s.disk.tree) .zero
      (fun k _ tree hI hnot => hI.stay hnot)
      fun k hk tree tree' hI ht hm => hI.turn h.owned.apart hk ht hm
  · refine ⟨howned, hkept.willing h.willing, fun i hi => ?_⟩
    have hin : i < s.torrent.numFiles := hdone.same.numFiles ▸ hi.1
    have hpad : s.torrent.files.padFileAt i = false := hdone.same.files ▸ hi.2.1
    have hpart := h.owned.apart.notPart i hin hpad
    have hskips : skips (resizePriorities priorities s.torrent.numFiles) i = false := by
      have := hi.2.2
      rwa [TorrentStorage.skipped_of_lt _ hi.1, TorrentStorage.priority, hdone.priorities] at this
    have hthere : (runJob G.env true storage (.setFilePriority priorities) s).2.disk.tree
        (s.torrent.pathFor i) = tree (s.torrent.pathFor i) := by
      rw [htree, withoutPart_of_ne hpart]
    rw [hdone.same.pathFor, hdone.same.files, hthere]
    by_cases ht : s.torrent.Turns (resizePriorities priorities s.torrent.numFiles) i
    · -- the file has been migrated back to a document of its size
      have := hhalf.turned i hin ht
      rwa [HasTurned, hskips, if_neg Bool.false_ne_true] at this
    · rw [hhalf.others i hin hpad fun _ => ht]
      cases hskipped : s.torrent.skipped i with
      | false => exact h.sized i ⟨hin, hpad, hskipped⟩
      | true =>
        have hsize : s.torrent.files.fileSize i = 0 := by
          by_contra hne
          exact ht ⟨hpad, hne, by rw [hskipped, hskips]; decide⟩
        exact ⟨[], hempty i hin ⟨hpad, hsize, hskipped, hskips⟩, hsize.symm⟩
  · rw [herror] at hreport
    cases hreport

/-- **One step** of a session that goes well. -/
theorem step (h : Complete storage s) (hapart : AllApart s.torrent) {job : Job}
    (hwell : GoesWell s job (runJob G.env true storage job s).1) (hempty : HasEmpty s job) :
    Complete storage (runJob G.env true storage job s).2 := by
  obtain ⟨hkeeps, hwell⟩ := hwell
  cases job with
  | write request input => exact h.write G hwell.1 hwell.2.1 hwell.2.2
  | setFilePriority priorities =>
    obtain ⟨current, hreport⟩ := hwell
    exact h.prioritise G hempty hreport
  | renameFile index name => exact h.rename G (hapart.keepsDocuments hkeeps) hwell
  | moveStorage path flags => exact h.move G (hapart.keepsDocuments hkeeps) hwell.1 hwell.2
  | _ => exact hwell.elim

end Complete

/-! ## Runs -/

/-- What the resume data of a finished torrent says. -/
structure Resume.Finished (resume : Resume) (t : TorrentStorage) : Prop where
  noSeed : resume.seedMode = false
  some : resume.havePieces ≠ []
  all : resume.AllClaimed t.files

theorem recognised (G : Host) {storage : Nat} {s : Sys World} (h : Complete storage s)
    {resume : Resume} (hresume : resume.Finished s.torrent) :
    (runJob G.env true storage (.checkFiles (some resume) []) s).1 = .checked {} none := by
  have hpos : 0 < resume.havePieces.length := List.length_pos_of_ne_nil hresume.some
  have hfull : (resume.seedMode || (decide (s.torrent.files.numPieces ≤ resume.havePieces.length) &&
      resume.havePieces.all id)) = true := by
    have := hresume.all
    simp [Resume.AllClaimed] at this
    simp [this]
  have hspec : wp (asyncCheckFiles G.env true s.torrent storage (some resume) [])
      (fun status _ => status = {}) (fun _ _ => False) s.disk := by
    rw [asyncCheckFiles, wp_bind, wp_throwIf]
    refine ⟨fun hne => absurd rfl hne, fun _ => ?_⟩
    rw [wp_ite]
    refine ⟨fun _ => ?_, fun hnot => absurd (Or.inr hpos) hnot⟩
    rw [validateResume, if_pos hfull]
    refine wp_mono (checkResumeFiles_docs G resume.seedMode true s.torrent.files.indices {} s.disk)
      (fun _ _ hclean => hclean.2 h.willing fun i hi hpad hlooks => ?_)
      fun _ _ hfault => hfault.2 h.willing
    refine h.sized i ⟨s.torrent.files.mem_indices.mp hi, hpad, ?_⟩
    rcases hlooks with hseed | hskipped
    · rw [hresume.noSeed] at hseed
      cases hseed
    · exact hskipped
  have hanswer := wp_answer hspec
  simp only [runJob, onDisk, zoom, hanswer, checkedReport]

/-- **A finished torrent is recognised as finished**, if no empty file is left without its
    document when it is wanted again. -/
theorem finished_recognised (G : Host) {t : TorrentStorage} (hreach : t.Reachable)
    (hapart : AllApart t) {storage : Nat} {d : Disk World} (hc : Coherent (t.keys storage) d)
    (hwilling : d.world.Willing) {status : Status} {jobs : List Job}
    (hcheck : (runJob G.env true storage (.checkFiles none []) { torrent := t, disk := d }).1 =
      .checked status none)
    (hrun : Along G.env true storage
      (fun s job report => GoesWell s job report ∧ HasEmpty s job) jobs
      (runJob G.env true storage (.checkFiles none []) { torrent := t, disk := d }).2) :
    let s := (runJobs G.env true storage (.checkFiles none [] :: jobs)
      { torrent := t, disk := d }).2
    (∀ i < s.torrent.numFiles, s.torrent.files.padFileAt i = false →
      s.torrent.skipped i = false → ∃ doc, s.disk.tree (s.torrent.pathFor i) = some doc ∧
        doc.length = s.torrent.files.fileSize i) ∧
    ∀ resume : Resume, resume.Finished s.torrent →
      (runJob G.env true storage (.checkFiles (some resume) []) s).1 = .checked {} none := by
  intro s
  have howned : Owned storage { torrent := t, disk := d } :=
    ⟨hapart.apart, fun i hi => hreach.rooted hi, hc⟩
  obtain ⟨howned', htorrent, hproceeds, -, hsized⟩ := howned.check G none []
  -- the check has given every public file its size
  have hstart : Complete storage
      (runJob G.env true storage (.checkFiles none []) { torrent := t, disk := d }).2 := by
    refine ⟨howned', hproceeds.kept.willing hwilling, ?_⟩
    rw [htorrent]
    exact allSized_of_sized (hsized rfl status hcheck)
  have hrest := runJobs_along G.env true storage
    (I := fun s => AllApart s.torrent ∧ Complete storage s)
    (fun job s hstep hs =>
      ⟨hs.2.owned.allApart G hs.1 hstep.1.1, hs.2.step G hs.1 hstep.1 hstep.2⟩)
    hrun ⟨htorrent ▸ hapart, hstart⟩
  have hend : Complete storage s := hrest.2
  exact ⟨fun i hi hpad hskipped => hend.sized i ⟨hi, hpad, hskipped⟩,
    fun resume hresume => recognised G hend hresume⟩

namespace EmptyFile

/-- An ordinary file, and an empty one that is skipped from the start. -/
def params : StorageParams where
  files := FileStorage.ofEntries [{ size := 2, pad := false }, { size := 0, pad := false }] 2
  filePath i := if i = 0 then str "a" else str "b"
  path := flowSessionRoot
  priorities := [defaultPriority, dontDownload]
  infoHash := List.replicate 20 171

def world : World := World.holding []

theorem reachable_params : (build params []).Reachable :=
  ⟨World, provider .next id id, params, world, world, _, 0, { world }, [], rfl, rfl⟩

theorem allApart_params : AllApart (build params []) := by
  constructor <;> decide +kernel

def written : Job := .write { piece := 0, start := 0, length := 2 } [1, 2]

/-- The ordinary file is written, renamed, skipped and wanted again. -/
def jobs : List Job :=
  [written, .renameFile 0 (str "c"), .setFilePriority [0, 0], .setFilePriority [4, 0]]

theorem jobs_goWell : Along (provider .next id id) true 0
    (fun s job report => GoesWell s job report ∧ HasEmpty s job) jobs
    (runJob (provider .next id id) true 0 (.checkFiles none [])
      { torrent := build params [], disk := { world } }).2 := by
  refine ⟨⟨⟨trivial, ?_, ?_, ?_⟩, trivial⟩, ⟨⟨?_, ?_⟩, trivial⟩, ⟨⟨trivial, [0, 0], ?_⟩, ?_⟩,
    ⟨⟨trivial, [4, 0], ?_⟩, ?_⟩, trivial⟩ <;> decide +kernel

theorem checked_none :
    (runJob (provider .next id id) true 0 (.checkFiles none [])
      { torrent := build params [], disk := { world } }).1 = .checked {} none := by
  decide +kernel

theorem finished_recognised_renamed :
    (runJob (provider .next id id) true 0
      (.checkFiles (some { seedMode := false, havePieces := [true] }) [])
      (runJobs (provider .next id id) true 0 (.checkFiles none [] :: jobs)
        { torrent := build params [], disk := { world } }).2).1 = .checked {} none := by
  refine (finished_recognised ⟨.next, id, id⟩ reachable_params allApart_params
    (coherent_fresh (World.sound_holding _) _) (by simp [World.Willing, World.holding])
    checked_none jobs_goWell).2 _ ⟨rfl, by simp, ?_⟩
  simp only [Resume.AllClaimed]
  decide +kernel

/-- Wanting the empty file makes no document for it, and the torrent is to be checked again. -/
theorem finished_torrent_rechecked :
    TorrentStorage.new (provider .next id id) params world = (.ok (build params []), world) ∧
    (runJobs (provider .next id id) true 0 [.checkFiles none [], written, .setFilePriority [4, 4],
      .checkFiles (some { seedMode := false, havePieces := [true] }) []]
      { torrent := build params [], disk := { world } }).1 =
      [.checked {} none, .written none, .prioritised none [4, 4],
        .checked { needFullCheck := true } none] := by
  exact ⟨rfl, by decide +kernel⟩

end EmptyFile

end Saf
end Libtorrent4j
