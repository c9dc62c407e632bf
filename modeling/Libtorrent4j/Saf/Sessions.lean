import Libtorrent4j.Saf.Acknowledged

/-!
# From one session to the next

The backend stores nothing about itself: after a restart a `torrent_storage` is built from the
arguments the client has kept. These are the arguments of the session before, with what the
handlers have reported since: names, save paths and priorities. Built from them, **the storage
is the one that was there when the last session stopped** (`Resumes.built`), so that what
was acknowledged in any session is answered in every later one.
-/

namespace Libtorrent4j
namespace Saf

open Lib Lib.Exec TorrentStorage

/-- The arguments a client passes next that keeps the priorities reported too. -/
def StorageParams.kept (params : StorageParams) : Report → StorageParams
  | .prioritised _ current => { params with priorities := current }
  | report => params.after report

/-- The arguments describe the storage: built from them it would have these paths and these
    priorities. -/
structure Resumes (params : StorageParams) (t : TorrentStorage) : Prop where
  describes : Describes params t
  priorities : resizePriorities params.priorities t.numFiles = t.priorities

/-- A vector of the right length is not resized. -/
theorem resizePriorities_self {priorities : List Priority} {n : Nat} (h : priorities.length = n) :
    resizePriorities priorities n = priorities := by
  rw [resizePriorities, h, Nat.sub_self, List.replicate_zero, List.append_nil, ← h,
    List.take_length]

/-- Only a priority change changes priorities. -/
theorem TorrentStorage.Step.priorities {W : Type} {log : List (Event W)} {t t' : TorrentStorage}
    {job : Job} {report : Report} (h : Step log t job report t')
    (hjob : ∀ priorities, job ≠ .setFilePriority priorities) :
    t'.priorities = t.priorities ∧ t'.numFiles = t.numFiles := by
  cases h with
  | prioritised hsame => exact absurd rfl (hjob _)
  | _ => exact ⟨rfl, rfl⟩

/-- Only a priority change reports priorities. -/
theorem runJob_not_prioritised {W : Type} (E : Env W) (reuse : Bool) (storage : Nat) {job : Job}
    {s : Sys W} (hjob : ∀ priorities, job ≠ .setFilePriority priorities)
    (error : Option StorageError) (current : List Priority) :
    (runJob E reuse storage job s).1 ≠ .prioritised error current := by
  cases job with
  | setFilePriority priorities => exact absurd rfl (hjob priorities)
  | read request =>
    obtain ⟨out, stopped, hread⟩ := readReport_eq request
      (onDisk (readBlock E reuse s.torrent storage request) s).1
    simp [runJob, hread]
  | hash piece v1 room =>
    simp only [runJob, hashReport]
    split <;> simp
  | hash2 piece offset =>
    simp only [runJob, hash2Report]
    split <;> simp
  | moveStorage path flags =>
    simp only [runJob, movedReport]
    split <;> simp
  | checkFiles resume links =>
    simp only [runJob, checkedReport]
    split <;> simp
  | _ => simp [runJob]

namespace Resumes

variable {W : Type} (E : Env W) {params : StorageParams} {s : Sys W} {t t' : TorrentStorage}

/-- A storage begins with what its parameters say. -/
theorem new {w w' : W} (h : TorrentStorage.new E params w = (.ok t, w')) : Resumes params t := by
  obtain ⟨rfl, -⟩ := new_ok h
  exact ⟨.refl _, rfl⟩

/-- What a job changes it reports. -/
theorem step (h : Resumes params s.torrent) (reuse : Bool) (storage : Nat) (job : Job) :
    let r := runJob E reuse storage job s
    Resumes (params.kept r.1) r.2.torrent := by
  intro r
  have hstep := runJob_step E reuse storage job s
  have hdescribes : Describes (params.after r.1) r.2.torrent := h.describes.step hstep
  by_cases hjob : ∃ priorities, job = .setFilePriority priorities
  · -- the report carries the priorities the storage is left with
    obtain ⟨priorities, rfl⟩ := hjob
    have hpaths : Describes params r.2.torrent := hdescribes
    exact ⟨⟨hpaths.files, hpaths.logicalPaths, hpaths.paths, hpaths.saveRoot, hpaths.infoHash,
      hpaths.partPath⟩, resizePriorities_self r.2.torrent.priorities_length⟩
  · have hother : ∀ priorities, job ≠ .setFilePriority priorities := by
      rintro priorities rfl
      exact hjob ⟨priorities, rfl⟩
    obtain ⟨hpriorities, hfiles⟩ := hstep.priorities hother
    have hkept : params.kept r.1 = params.after r.1 := by
      unfold StorageParams.kept
      split
      · rename_i error current hreport
        exact absurd hreport (runJob_not_prioritised E reuse storage hother error current)
      · rfl
    have hsame : (params.after r.1).priorities = params.priorities := by
      unfold StorageParams.after
      split <;> rfl
    rw [hkept]
    refine ⟨hdescribes, ?_⟩
    rw [hsame, show r.2.torrent.numFiles = s.torrent.numFiles from hfiles, h.priorities]
    exact hpriorities.symm

/-- Induction on the jobs: after each of them the parameters kept say what the storage has. -/
theorem run (h : Resumes params s.torrent) (storage : Nat) (jobs : List Job) :
    Resumes ((runJobs E true storage jobs s).1.foldl StorageParams.kept params)
      (runJobs E true storage jobs s).2.torrent := by
  induction jobs generalizing params s with
  | nil => exact h
  | cons job rest ih => exact ih (h.step E true storage job)

/-- **Built from what was kept, the storage is the one that was there.** -/
theorem built (h : Resumes params t) : build params (normalizedSaveRoot params.path) = t := by
  obtain ⟨⟨hfiles, hlogical, hpaths, hroot, hhash, hpart⟩, hpriorities⟩ := h
  cases t
  simp only [TorrentStorage.numFiles] at hpriorities
  simp only at hfiles hlogical hpaths hroot hhash hpart
  subst hfiles hlogical hpaths hroot hhash hpart hpriorities
  rfl

end Resumes

/-! ## Sessions -/

/-- Building a storage opens and changes nothing. -/
theorem new_world {G : Host} {params : StorageParams} {w w' : World} {t : TorrentStorage}
    (h : TorrentStorage.new G.env params w = (.ok t, w')) (hs : w.Sound) :
    w'.Sound ∧ w'.content = w.content := by
  have hasked : (G.env.validatePath (normalizedSaveRoot params.path) w).2 = w.afterBridge :=
    (World.validatePath_spec (normalizedSaveRoot params.path) w).1
  have hafter : w.afterBridge.Sound ∧ w.afterBridge.content = w.content :=
    ⟨w.grows_afterBridge.sound hs, rfl⟩
  simp only [TorrentStorage.new] at h
  split at h
  · obtain ⟨-, rfl⟩ := Prod.mk.inj h
    exact ⟨hs, rfl⟩
  split at h
  · cases h
  split at h
  · cases h
  split at h
  · cases h
  · obtain ⟨-, rfl⟩ := Prod.mk.inj h
    rw [hasked]
    exact hafter

/-- The state a session starts in: nothing is open. -/
def opening (t : TorrentStorage) (w : World) (filePoolSize : Int) : Sys World :=
  { torrent := t, disk := Disk.settingsUpdated { world := w } filePoolSize }

/-- What a client may know after some sessions over the same documents, and the arguments it has
    kept; each session has a bridge, transfers and a slot of its own. -/
inductive Sessions (G : Host) : StorageParams → Tree → Memory Byte → Prop
  | none {params : StorageParams} {tree : Tree}
      (hapart : AllApart (build params (normalizedSaveRoot params.path))) :
      Sessions G params tree Memory.blank
  | next {params : StorageParams} {known : Memory Byte} {w w' : World} {t : TorrentStorage}
      {storage : Nat} {filePoolSize : Int} {jobs : List Job}
      (before : Sessions G params w.content known) (hsound : w.Sound)
      (hnew : TorrentStorage.new G.env params w = (.ok t, w'))
      (hrun : EveryStep G.env true storage Proper jobs (opening t w' filePoolSize)) :
      Sessions G
        ((runJobs G.env true storage jobs (opening t w' filePoolSize)).1.foldl
          StorageParams.kept params)
        (runJobs G.env true storage jobs (opening t w' filePoolSize)).2.disk.tree
        (remember G.env storage jobs (opening t w' filePoolSize) known)

/-- The client is right about the documents when it starts a session. -/
theorem knows_opening {G : Host} {params : StorageParams} {known : Memory Byte} {w w' : World}
    {t : TorrentStorage} (hsound : w.Sound)
    (hnew : TorrentStorage.new G.env params w = (.ok t, w'))
    (hapart : AllApart (build params (normalizedSaveRoot params.path)))
    (hbelow : known.Below ((build params (normalizedSaveRoot params.path)).byteAt w.content))
    (storage : Nat) (filePoolSize : Int) :
    Knows (t.keys storage) storage known (opening t w' filePoolSize) := by
  obtain ⟨hsound', hcontent⟩ := new_world hnew hsound
  obtain ⟨rfl, -⟩ := new_ok hnew
  refine ⟨⟨?_, Keys.own_keys _ _, Keys.clear_keys _ _ _, hapart, fun i hi => ?_⟩, ?_⟩
  · exact (coherent_fresh hsound' _).settingsUpdated filePoolSize
  · exact Describes.pathFor (.refl (build params (normalizedSaveRoot params.path))) hi
  · change known.Below ((build params (normalizedSaveRoot params.path)).byteAt w'.content)
    rw [hcontent]
    exact hbelow

/-- Induction on the sessions: the paths are apart, and what is known is on the documents. -/
theorem Sessions.known {G : Host} {params : StorageParams} {tree : Tree} {known : Memory Byte}
    (h : Sessions G params tree known) :
    AllApart (build params (normalizedSaveRoot params.path)) ∧
      known.Below ((build params (normalizedSaveRoot params.path)).byteAt tree) := by
  induction h with
  | none hapart => exact ⟨hapart, Memory.blank_below _⟩
  | @next params known w w' t storage filePoolSize jobs before hsound hnew hrun ih =>
    obtain ⟨hapart, hbelow⟩ := ih
    have hend := (knows_opening hsound hnew hapart hbelow storage filePoolSize).run G hrun
    have hresumes := Resumes.run G.env (s := opening t w' filePoolSize)
      (.new (E := G.env) hnew) storage jobs
    -- the storage of the next session is the one this session ends with
    have hsame := hresumes.built
    rw [hsame]
    exact ⟨hend.apart, hend.below⟩

/-- **What is acknowledged in one session is answered in every later one**, at any point of it. -/
theorem acknowledged_across_restarts (G : Host) {params : StorageParams} {known : Memory Byte}
    {w w' : World} {t : TorrentStorage} (h : Sessions G params w.content known) (hsound : w.Sound)
    (hnew : TorrentStorage.new G.env params w = (.ok t, w')) {storage : Nat} {filePoolSize : Int}
    {jobs : List Job}
    (hrun : EveryStep G.env true storage Proper jobs (opening t w' filePoolSize)) :
    let s := (runJobs G.env true storage jobs (opening t w' filePoolSize)).2
    AnswersAs G (remember G.env storage jobs (opening t w' filePoolSize) known) s.torrent
      (s.Answers G storage) := by
  obtain ⟨hapart, hbelow⟩ := h.known
  exact ((knows_opening hsound hnew hapart hbelow storage filePoolSize).run G hrun).answers G

/-! ## Resume data -/

/-- When sizes need not be exact, a document that is there is not missed. -/
theorem checkResumeFiles_found (G : Host) {t : TorrentStorage} (indices : List Nat)
    (status : Status)
    (d : Disk World)
    (hfound : ∀ i ∈ indices, t.looksAt false i = true → d.tree (t.pathFor i) ≠ none) :
    wp (checkResumeFiles G.env t false false indices status)
      (fun status' _ => status' = status) (fun _ _ => ¬ d.world.Willing) d := by
  induction indices generalizing status d with
  | nil => rfl
  | cons index rest ih =>
    have hrest : ∀ i ∈ rest, t.looksAt false i = true → d.tree (t.pathFor i) ≠ none :=
      fun i hi => hfound i (List.mem_cons_of_mem _ hi)
    unfold checkResumeFiles
    split
    · exact ih status d hrest
    · rename_i hlooks
      have hthere : d.tree (t.pathFor index) ≠ none := by
        refine hfound index List.mem_cons_self ?_
        simpa [TorrentStorage.looksAt] using hlooks
      rw [wp_bind]
      refine callFileSize_spec G _ fun size d₁ hquiet _ _ hnone hwilling => ?_
      rw [wp_bind, wp_throwIf]
      refine ⟨fun hfails hw => World.sizeAnswer_benign _ (hwilling hw ▸ hfails), fun _ => ?_⟩
      have hsize : size ≠ -enoent := fun heq => hthere (hnone heq)
      refine wp_mono (ih _ d₁ ?_) ?_ fun _ _ h hw => h (hquiet.world.willing hw)
      · rw [hquiet.tree]
        exact hrest
      · rintro status' d₂ rfl
        simp [hsize]

/-- **Resume data that claims acknowledged pieces only is believed**: a check of it asks for no
    full check whatever the bridge does, and on a willing bridge it reports no error. -/
theorem acknowledged_pieces_are_believed (G : Host) {params : StorageParams} {known : Memory Byte}
    {w w' : World} {t : TorrentStorage} (h : Sessions G params w.content known) (hsound : w.Sound)
    (hnew : TorrentStorage.new G.env params w = (.ok t, w')) {resume : Resume}
    (hsome : 0 < resume.havePieces.length) (hcut : ¬ resume.Exact t.files)
    (hclaims : ∀ piece, resume.Claims t.files piece → ∀ k < t.files.pieceSize piece,
      known (piece * t.files.pieceLength + k) ≠ none)
    (storage : Nat) (filePoolSize : Int) :
    let r := runJob G.env true storage (.checkFiles (some resume) []) (opening t w' filePoolSize)
    (∀ status, r.1 = .checked status none → status = {}) ∧
      (w'.Willing → r.1 = .checked {} none) := by
  intro r
  obtain ⟨hapart, hbelow⟩ := h.known
  have hknows := knows_opening hsound hnew hapart hbelow storage filePoolSize
  have hseed : resume.seedMode = false := by
    simpa using fun hseed => hcut (Or.inl hseed)
  have hnotFull : (resume.seedMode ||
      (decide (t.files.numPieces ≤ resume.havePieces.length) && resume.havePieces.all id)) =
        false := by
    rw [hseed, Bool.false_or, ← Bool.not_eq_true]
    exact fun hall => hcut (Or.inr (by simpa [Resume.AllClaimed] using hall))
  -- a claimed file that is public has a byte that is known, so it has a document
  have hfound : ∀ i ∈ claimedFiles t.files resume.havePieces, t.looksAt false i = true →
      (opening t w' filePoolSize).disk.tree (t.pathFor i) ≠ none := by
    intro i hi hlooks
    obtain ⟨piece, hclaimed, k, hk, offset, hlies⟩ := mem_claimedFiles_iff.mp hi
    obtain ⟨b, hb⟩ := Option.ne_none_iff_exists'.mp (hclaims piece hclaimed k hk)
    have hpublic : t.files.padFileAt i = false ∧ t.skipped i = false := by
      simpa [TorrentStorage.looksAt] using hlooks
    have hbyte : t.byteAt (opening t w' filePoolSize).disk.tree
        (piece * t.files.pieceLength + k) = some b := hknows.below _ b hb
    rw [byteAt_eq_keptAt hlies hpublic.1, hpublic.2] at hbyte
    obtain ⟨-, doc, hdoc, -⟩ := keptAt_file.mp hbyte
    rw [hdoc]
    exact Option.some_ne_none doc
  have hspec := checkResumeFiles_found G _ {} _ hfound
  have hrun : asyncCheckFiles G.env true t storage (some resume) []
      (opening t w' filePoolSize).disk = checkResumeFiles G.env t false false
        (claimedFiles t.files resume.havePieces) {} (opening t w' filePoolSize).disk := by
    rw [asyncCheckFiles_resumed G true (Or.inr hsome), validateResume, hnotFull, hseed]
    rfl
  have hreport : r.1 = checkedReport (checkResumeFiles G.env t false false
      (claimedFiles t.files resume.havePieces) {} (opening t w' filePoolSize).disk).1 := by
    rw [← hrun]
    rfl
  rw [hreport]
  rcases hcheck : checkResumeFiles G.env t false false (claimedFiles t.files resume.havePieces) {}
    (opening t w' filePoolSize).disk with ⟨failure | status, d'⟩
  · refine ⟨fun status hnone => ?_, fun hw => absurd hw (wp_error hspec hcheck)⟩
    simp [checkedReport] at hnone
  · have hclean := wp_ok hspec hcheck
    obtain rfl : status = {} := hclean
    refine ⟨fun status' heq => ?_, fun _ => rfl⟩
    simp only [checkedReport, Report.checked.injEq, and_true] at heq
    exact heq.symm

namespace Restart

def host : Host := ⟨.next, id, id⟩

/-- The transfers of the first session are split and interrupted. -/
def firstWorld : World :=
  { World.holding [(str "a", [1, 2, 3])] with io := [.short 0, .interrupted, .short 1] }

theorem sound_first : firstWorld.Sound :=
  have hs := World.sound_holding [(str "a", [1, 2, 3])]
  ⟨hs.inj, hs.bound⟩

theorem new_first : TorrentStorage.new host.env params firstWorld =
    (.ok (build params []), firstWorld) := rfl

def firstStart : Sys World := opening (build params []) firstWorld 2

/-- The first session writes a piece, stops wanting `a` and moves to `d`. -/
def firstJobs : List Job :=
  [.write { piece := 0, start := 0, length := 4 } [7, 8, 9, 6], .setFilePriority [0], moved]

theorem everyStep_first : EveryStep host.env true 0 Proper firstJobs firstStart :=
  ⟨by decide +kernel, by decide +kernel, by decide +kernel, trivial⟩

def firstEnd : List Report × Sys World := runJobs host.env true 0 firstJobs firstStart

def firstKnown : Memory Byte := remember host.env 0 firstJobs firstStart Memory.blank

/-- The second session finds the documents as the first one has left them. -/
def secondWorld : World := { firstEnd.2.disk.world with fds := [], bridge := [], io := [] }

def secondParams : StorageParams := firstEnd.1.foldl StorageParams.kept params

def second : TorrentStorage := build secondParams (normalizedSaveRoot secondParams.path)

theorem sound_second : secondWorld.Sound := by
  have hend := (knows_opening sound_first new_first allApart_params (Memory.blank_below _) 0 2).run
    host everyStep_first
  exact ⟨hend.coherent.sound.inj, hend.coherent.sound.bound⟩

theorem new_second :
    TorrentStorage.new host.env secondParams secondWorld =
      (.ok second, secondWorld.afterBridge) := by
  have hasked : host.env.validatePath (normalizedSaveRoot secondParams.path) secondWorld =
      (0, secondWorld.afterBridge) :=
    Prod.ext (by decide +kernel) (World.validatePath_spec _ secondWorld).1
  simp only [TorrentStorage.new, hasked]
  rw [if_neg (by decide +kernel), if_neg (by decide +kernel), if_neg (by decide),
    if_neg (by decide)]
  rfl

theorem sessions_second : Sessions host secondParams secondWorld.content firstKnown :=
  .next (.none allApart_params) sound_first new_first everyStep_first

/-- The second session reads from the part file and from `d/b` what the first one has written. -/
theorem acknowledged_across_restarts_second :
    (runJob host.env true 7 (.read { piece := 0, start := 0, length := 4 })
      { torrent := second,
        disk := (opening second secondWorld.afterBridge 2).disk.scripted [] [] }).1 =
        .read [7, 8, 9, 6] none ∧ firstKnown.Agrees 0 [7, 8, 9, 6] := by
  have hread : (runJob host.env true 7 (.read { piece := 0, start := 0, length := 4 })
      { torrent := second,
        disk := (opening second secondWorld.afterBridge 2).disk.scripted [] [] }).1 =
      .read [7, 8, 9, 6] none := by decide +kernel
  have hrun : EveryStep host.env true 7 Proper [] (opening second secondWorld.afterBridge 2) :=
    trivial
  have hanswers := acknowledged_across_restarts host sessions_second sound_second new_second hrun
  have hpos : Request.pos second.files { piece := 0, start := 0, length := 4 } = 0 := by
    decide +kernel
  refine ⟨hread, hpos ▸ hanswers.read [] [] { piece := 0, start := 0, length := 4 } ?_
    [7, 8, 9, 6] none hread⟩
  decide +kernel

/-- The first piece is claimed. -/
def firstPiece : Resume := { seedMode := false, havePieces := [true, false] }

theorem firstPiece_partial : ¬ firstPiece.Exact second.files := by
  rintro (hseed | ⟨-, hall⟩)
  · cases hseed
  · cases hall false (List.mem_cons_of_mem _ List.mem_cons_self)

/-- The bytes of the piece were written in the first session. -/
theorem firstPiece_known : ∀ piece, firstPiece.Claims second.files piece →
    ∀ k < second.files.pieceSize piece,
      firstKnown (piece * second.files.pieceLength + k) ≠ none := by
  rintro piece ⟨hpiece, hbit⟩
  obtain rfl : piece = 0 := by
    have htwo : piece < 2 := lt_of_lt_of_le hpiece (Nat.min_le_left _ _)
    interval_cases piece
    · rfl
    · cases hbit
  decide +kernel

/-- `d/b` is the only file looked for. -/
theorem acknowledged_pieces_are_believed_second :
    (runJob host.env true 7 (.checkFiles (some firstPiece) [])
      (opening second secondWorld.afterBridge 2)).1 = .checked {} none :=
  (acknowledged_pieces_are_believed host sessions_second sound_second new_second (by decide)
    firstPiece_partial firstPiece_known 7 2).2
      (by simp [World.Willing, World.afterBridge, secondWorld])

end Restart

end Saf
end Libtorrent4j
