import Libtorrent4j.Saf.Log
import Libtorrent4j.Saf.Provider

/-!
# Where a torrent's files are

Two operations rewrite the paths of a torrent: a rename one of them, a move all of them.
`runJob_step` says once what any job can do to the torrent and under which checks, and
everything below is a case analysis on it:

* the three redundant descriptions of the paths always agree, and a storage rebuilt from
  what the handlers were told describes the same paths (`restart_resumes`);
* two files share a document only after a rename or a move that none of the checks looks
  for (`apart_of_run`);
* the constructor and a move accept the same save paths but for those that stand for the
  granted tree's own root (`save_paths_agree_iff`).
-/

namespace Libtorrent4j
namespace Saf

open Lib Lib.Exec

variable {W : Type}

namespace TorrentStorage

/-! ## What a job does to the torrent -/

/-- **What a job can do to the torrent**, with what the job has checked and what it reports
    when it does; `log` is the log it leaves. -/
inductive Step (log : List (Event W)) (t : TorrentStorage) : Job → Report → TorrentStorage → Prop
  | renamed {index : Nat} {name : Path} (hlt : index < t.numFiles)
      (hsafe : safeRelativePath name = true) :
      Step log t (.renameFile index name) (.renamed name index none)
        (t.renameFile index name (rootedPath t.saveRoot name))
  | notRenamed {index : Int} {name : Path} (error : StorageError) :
      Step log t (.renameFile index name) (.renamed name index (some error)) t
  | moved {path : Path} {flags : MoveFlags} {status : Status}
      (hsafe : safeRelativePath path = true)
      (haccepted : t.MoveAccepted (normalizedSaveRoot path))
      (hvalid : normalizedSaveRoot path = [] ∨
        ∃ result, 0 ≤ result ∧ .validatePath (normalizedSaveRoot path) result ∈ log) :
      Step log t (.moveStorage path flags) (.moved status path none)
        (t.setSaveRoot (normalizedSaveRoot path))
  | notMoved {path : Path} {flags : MoveFlags} {status : Status} (error : StorageError) :
      Step log t (.moveStorage path flags) (.moved status path (some error)) t
  | prioritised {priorities current : List Priority} {error : Option StorageError}
      {t' : TorrentStorage} (hsame : SamePaths t t') :
      Step log t (.setFilePriority priorities) (.prioritised error current) t'
  | other {job : Job} {report : Report} (hrename : ∀ index name, job ≠ .renameFile index name)
      (hmove : ∀ path flags, job ≠ .moveStorage path flags)
      (hrenamed : ∀ name index, report ≠ .renamed name index none)
      (hmoved : ∀ status path, report ≠ .moved status path none) : Step log t job report t

end TorrentStorage

open TorrentStorage

section Operations

variable (E : Env W) (reuse : Bool) (storage : Nat)

theorem asyncRenameFile_torrent (index : Int) (name : Path) (s : Sys W) :
    wp (asyncRenameFile E storage index name)
      (fun _ s' => ∃ i : Nat, index = i ∧ i < s.torrent.numFiles ∧
        safeRelativePath name = true ∧
        s'.torrent = s.torrent.renameFile i name (rootedPath s.torrent.saveRoot name))
      (fun _ s' => s'.torrent = s.torrent) s := by
  simp only [asyncRenameFile, wp_bind, wp_get, wp_throwIf]
  refine ⟨fun _ => trivial, fun hchecked => ?_⟩
  push Not at hchecked
  obtain ⟨hpos, hlt, hsafe⟩ := hchecked
  refine wp_onDisk_any (fun _ d₁ => ?_) fun _ _ => rfl
  refine wp_onDisk_any (fun _ d₂ => ?_) fun _ _ => rfl
  refine wp_onDisk_any (fun result d₃ => ⟨fun _ => rfl, fun _ => ?_⟩) fun _ _ => rfl
  exact ⟨index.toNat, by omega, by omega, by simpa using hsafe, rfl⟩

theorem moveStorage_torrent (path : Path) (flags : MoveFlags) (s : Sys W) :
    wp (moveStorage E storage path flags)
      (fun _ s' => s.torrent.MoveAccepted (normalizedSaveRoot path) ∧
        (normalizedSaveRoot path = [] ∨
          ∃ result, 0 ≤ result ∧
            .validatePath (normalizedSaveRoot path) result ∈ s'.disk.trace) ∧
        s'.torrent = s.torrent.setSaveRoot (normalizedSaveRoot path))
      (fun _ s' => s'.torrent = s.torrent) s := by
  simp only [moveStorage, wp_bind, wp_get, wp_onDisk]
  refine wp_mono (checkMove_ok E s.torrent storage (normalizedSaveRoot path) s.disk) ?_
    fun _ _ _ => trivial
  rintro operations d₁ ⟨-, haccepted, hvalid⟩
  rw [wp_ite]
  refine ⟨fun _ => ⟨haccepted, hvalid, rfl⟩, fun _ => ?_⟩
  simp only [wp_bind, wp_onDisk, wp_updateTorrent]
  have hgrows := logs_grows d₁.trace
  refine wp_mono ((hgrows.statMove E s.torrent flags (fun _ _ => trivial)
    fun _ _ => ⟨trivial, trivial⟩).wp (List.suffix_refl _)) ?_ fun _ _ _ => trivial
  intro _ d₂ hd₂
  refine wp_mono ((hgrows.copyOperations E _ _).wp hd₂) ?_ fun _ _ _ => trivial
  intro _ d₃ hd₃
  refine wp_mono (wp_and (removeSources_ok E _ _ _)
    ((hgrows.removeSources E _ fun _ _ => trivial).wp hd₃)) ?_ fun _ _ h => h.1.elim
  rintro _ d₄ ⟨-, hd₄⟩
  refine ⟨haccepted, hvalid.imp_right ?_, rfl⟩
  rintro ⟨result, hresult, hmem⟩
  exact ⟨result, hresult, hd₄.subset hmem⟩

theorem asyncMoveStorage_torrent (path : Path) (flags : MoveFlags) (s : Sys W) :
    wp (asyncMoveStorage E storage path flags)
      (fun _ s' => safeRelativePath path = true ∧
        s.torrent.MoveAccepted (normalizedSaveRoot path) ∧
        (normalizedSaveRoot path = [] ∨
          ∃ result, 0 ≤ result ∧
            .validatePath (normalizedSaveRoot path) result ∈ s'.disk.trace) ∧
        s'.torrent = s.torrent.setSaveRoot (normalizedSaveRoot path))
      (fun _ s' => s'.torrent = s.torrent) s := by
  simp only [asyncMoveStorage, wp_bind, wp_throwIf]
  refine ⟨fun _ => trivial, fun hsafe => ?_⟩
  refine wp_mono (moveStorage_torrent E storage path flags s) ?_ fun _ _ h => h
  exact fun _ _ h => ⟨by simpa using hsafe, h⟩

/-- Changing priorities changes nothing else, however far the migrations come. -/
theorem asyncSetFilePriority_torrent (priorities : List Priority) (s : Sys W) :
    SamePaths s.torrent (asyncSetFilePriority E storage priorities s).2.torrent := by
  have hturn : ∀ requested index, Keeps (fun s' => SamePaths s.torrent s'.torrent)
      (setPriorityAt E storage requested index) := by
    refine fun requested index => keeps_iff.mpr fun s' hs' => ?_
    simp only [setPriorityAt, wp_bind, wp_get, wp_onlyIf, wp_updateTorrent]
    refine ⟨fun _ => ?_, fun _ => hs'.trans (.setPriority _ _ _)⟩
    exact wp_onDisk_any (fun _ d => hs'.trans (.setPriority _ _ _)) fun _ _ => hs'
  have hspec : wp (asyncSetFilePriority E storage priorities)
      (fun _ s' => SamePaths s.torrent s'.torrent)
      (fun _ s' => SamePaths s.torrent s'.torrent) s := by
    simp only [asyncSetFilePriority, wp_bind, wp_get, wp_onlyIf]
    refine wp_mono ((keeps_forEach fun index _ => hturn _ index).wp (.refl s.torrent)) ?_
      fun _ _ h => h
    intro _ s' hs'
    exact ⟨fun _ => wp_onDisk_any (fun _ _ => hs') fun _ _ => hs', fun _ => hs'⟩
  exact wp_state.mp hspec

/-- The one case analysis behind every result about paths. -/
theorem runJob_step (job : Job) (s : Sys W) :
    Step (runJob E reuse storage job s).2.disk.trace s.torrent job (runJob E reuse storage job s).1
      (runJob E reuse storage job s).2.torrent := by
  cases job with
  | renameFile index name =>
    have hspec := asyncRenameFile_torrent E storage index name s
    simp only [runJob]
    rcases hrun : asyncRenameFile E storage index name s with ⟨_ | _, s'⟩
    · rw [wp_error hspec hrun]
      exact .notRenamed _
    · obtain ⟨i, rfl, hlt, hsafe, htorrent⟩ := wp_ok hspec hrun
      rw [htorrent]
      exact .renamed hlt hsafe
  | moveStorage path flags =>
    have hspec := asyncMoveStorage_torrent E storage path flags s
    simp only [runJob]
    rcases hrun : asyncMoveStorage E storage path flags s with ⟨⟨_, _⟩ | _, s'⟩
    · rw [wp_error hspec hrun]
      exact .notMoved _
    · obtain ⟨hsafe, haccepted, hvalid, htorrent⟩ := wp_ok hspec hrun
      rw [htorrent]
      exact .moved hsafe haccepted hvalid
  | setFilePriority priorities =>
    exact .prioritised (asyncSetFilePriority_torrent E storage priorities s)
  | write request bytes | releaseFiles | stopTorrent | deleteFiles files part | clearPiece piece =>
    exact .other (by simp) (by simp) (by simp [runJob]) (by simp [runJob])
  | read request | hash piece v1 room | hash2 piece offset | checkFiles resume links =>
    refine .other (by simp) (by simp) ?_ ?_ <;> intro _ _ <;>
      simp only [runJob, readReport, hashReport, hash2Report, checkedReport] <;>
      (repeat' split) <;> simp

end Operations

/-- No job gives a torrent other files. -/
theorem TorrentStorage.Step.files {log : List (Event W)} {t t' : TorrentStorage} {job : Job}
    {report : Report} (h : Step log t job report t') : t'.files = t.files := by
  cases h with
  | prioritised hsame => exact hsame.files
  | _ => rfl

/-! ## Restarting

What a session that keeps resume data knows of a storage: the arguments it was built with,
brought up to date with each rename and each move that was reported without an error. -/

/-- The arguments a restarted session would pass after this report. -/
def StorageParams.after (params : StorageParams) : Report → StorageParams
  | .moved _ path none => { params with path := path }
  | .renamed name index none =>
      { params with filePath := Function.update params.filePath index.toNat name }
  | _ => params

/-- The arguments describe the storage: built from them it would have these paths. -/
def Describes (params : StorageParams) (t : TorrentStorage) : Prop :=
  SamePaths (build params (normalizedSaveRoot params.path)) t

/-- The root is one the bridge accepts in the world `w`, or needs no acceptance. -/
def RootAccepted (E : Env W) (w : W) (root : Path) : Prop :=
  root = [] ∨ safeRelativePath root = true ∧ 0 ≤ (E.validatePath root w).1

/-- In the world `w` the bridge still accepts every root the log says it has accepted. -/
def StillAccepts (E : Env W) (w : W) (log : List (Event W)) : Prop :=
  ∀ root result, Event.validatePath root result ∈ log → 0 ≤ result →
    0 ≤ (E.validatePath root w).1

theorem map_update_indices (files : FileStorage) (f : Nat → Path) (i : Nat) (name : Path) :
    files.indices.map (Function.update f i name) = (files.indices.map f).set i name := by
  apply List.ext_getElem?
  intro j
  rw [List.getElem?_set]
  simp only [FileStorage.indices, List.getElem?_map, List.length_map, List.length_range]
  by_cases hij : i = j
  · subst hij
    by_cases hi : i < files.numFiles <;> simp [hi]
  · by_cases hj : j < files.numFiles <;> simp [hj, hij, Function.update_of_ne (Ne.symm hij)]

theorem describes_new {E : Env W} {params : StorageParams} {w w' : W} {t : TorrentStorage}
    (h : TorrentStorage.new E params w = (.ok t, w')) : Describes params t := by
  obtain ⟨rfl, -⟩ := new_ok h
  exact .refl _

/-- Nothing changes that is not reported, and nothing is reported that is not changed. -/
theorem Describes.step {log : List (Event W)} {params : StorageParams} {t t' : TorrentStorage}
    {job : Job} {report : Report} (h : Describes params t) (hstep : Step log t job report t') :
    Describes (params.after report) t' := by
  cases hstep with
  | @renamed index name hlt hsafe =>
    refine ⟨h.files, ?_, ?_, h.saveRoot, h.infoHash, h.partPath⟩
    · simp only [renameFile, StorageParams.after, build, Int.toNat_natCast, map_update_indices,
        h.logicalPaths]
    · have hpaths : (fun i => rootedPath (normalizedSaveRoot params.path)
          (Function.update params.filePath index name i)) =
          Function.update (fun i => rootedPath (normalizedSaveRoot params.path)
            (params.filePath i)) index (rootedPath (normalizedSaveRoot params.path) name) := by
        funext i
        by_cases hi : i = index
        · subst hi; simp
        · simp [Function.update_of_ne hi]
      simp only [renameFile, StorageParams.after, build, Int.toNat_natCast, hpaths,
        map_update_indices, h.paths, h.saveRoot]
  | moved hsafe haccepted hvalid =>
    refine ⟨h.files, h.logicalPaths, ?_, ?_, h.infoHash, h.partPath⟩
    · simp only [setSaveRoot, StorageParams.after, h.logicalPaths, build, List.map_map,
        normalizedSaveRoot_idem]
      rfl
    · simp only [setSaveRoot, StorageParams.after, build, normalizedSaveRoot_idem]
  | notRenamed error => exact h
  | notMoved error => exact h
  | prioritised hsame => exact h.trans hsame
  | other _ _ hrenamed hmoved =>
    -- no other report is an alert that the client takes a name or a path from
    have : params.after report = params := by
      unfold StorageParams.after
      split
      · exact absurd rfl (hmoved _ _)
      · exact absurd rfl (hrenamed _ _)
      · rfl
    rw [this]
    exact h

theorem describes_runJobs (E : Env W) (reuse : Bool) (storage : Nat) (jobs : List Job)
    {params : StorageParams} {s : Sys W} (h : Describes params s.torrent) :
    Describes ((runJobs E reuse storage jobs s).1.foldl StorageParams.after params)
      (runJobs E reuse storage jobs s).2.torrent := by
  induction jobs generalizing params s with
  | nil => exact h
  | cons job rest ih =>
    simp only [runJobs, List.foldl_cons]
    exact ih (h.step (runJob_step E reuse storage job s))

/-- The three descriptions of the paths agree. -/
theorem Describes.pathFor {params : StorageParams} {t : TorrentStorage} (h : Describes params t)
    {i : Nat} (hi : i < t.numFiles) : t.pathFor i = rootedPath t.saveRoot (t.logicalPath i) := by
  have hi' : i < params.files.numFiles := by rw [h.numFiles] at hi; exact hi
  rw [SamePaths.pathFor h, SamePaths.logicalPath h, h.saveRoot, build_pathFor _ hi',
    build_logicalPath _ hi']
  rfl

/-- A storage that some run of jobs has led to, against some surroundings. -/
def TorrentStorage.Reachable (t : TorrentStorage) : Prop :=
  ∃ (W : Type) (E : Env W) (params : StorageParams) (w₀ w₁ : W) (t₀ : TorrentStorage)
    (storage : Nat) (disk : Disk W) (jobs : List Job),
    TorrentStorage.new E params w₀ = (.ok t₀, w₁) ∧
      t = (runJobs E true storage jobs { torrent := t₀, disk }).2.torrent

theorem TorrentStorage.Reachable.describes {t : TorrentStorage} (h : t.Reachable) :
    ∃ params, Describes params t := by
  obtain ⟨W, E, params, w₀, w₁, t₀, storage, disk, jobs, hnew, rfl⟩ := h
  exact ⟨_, describes_runJobs E true storage jobs (describes_new hnew)⟩

/-- The paths of a reachable storage are its root joined with the logical paths. -/
theorem TorrentStorage.Reachable.rooted {t : TorrentStorage} (h : t.Reachable) {i : Nat}
    (hi : i < t.numFiles) : t.pathFor i = rootedPath t.saveRoot (t.logicalPath i) := by
  obtain ⟨params, hdescribes⟩ := h.describes
  exact hdescribes.pathFor hi

theorem rootAccepted_new {E : Env W} {params : StorageParams} {w w₀ w₁ : W} {t : TorrentStorage}
    (h : TorrentStorage.new E params w₀ = (.ok t, w₁))
    (hsame : (E.validatePath (normalizedSaveRoot params.path) w).1 =
      (E.validatePath (normalizedSaveRoot params.path) w₀).1) :
    RootAccepted E w (normalizedSaveRoot params.path) := by
  simp only [TorrentStorage.new] at h
  split at h
  · rename_i hempty
    exact Or.inl (List.isEmpty_iff.mp hempty)
  split at h
  · simp at h
  rename_i hsafe
  split at h
  · simp at h
  split at h
  · simp at h
  rename_i hval
  exact Or.inr ⟨by simpa using hsafe, by rw [hsame]; exact Int.not_lt.mp hval⟩

/-- The root reported last is one the bridge has accepted. -/
theorem rootAccepted_step {E : Env W} {w : W} {log : List (Event W)} {params : StorageParams}
    {t t' : TorrentStorage} {job : Job} {report : Report}
    (h : RootAccepted E w (normalizedSaveRoot params.path)) (hstep : Step log t job report t')
    (hlog : StillAccepts E w log) :
    RootAccepted E w (normalizedSaveRoot (params.after report).path) := by
  cases hstep with
  | moved hsafe haccepted hvalid =>
    rcases rootOk_normalized hsafe with hnil | hok
    · exact Or.inl hnil
    · rcases hvalid with hnil | ⟨result, hresult, hmem⟩
      · exact Or.inl hnil
      · exact Or.inr ⟨hok, hlog _ _ hmem hresult⟩
  | renamed hlt hsafe => exact h
  | notRenamed error => exact h
  | notMoved error => exact h
  | prioritised hsame => exact h
  | other _ _ hrenamed hmoved =>
    unfold StorageParams.after
    split
    · exact absurd rfl (hmoved _ _)
    · exact h
    · exact h

theorem rootAccepted_runJobs (E : Env W) (reuse : Bool) (storage : Nat) {w : W}
    (jobs : List Job) {params : StorageParams} {s : Sys W}
    (h : RootAccepted E w (normalizedSaveRoot params.path))
    (hlog : StillAccepts E w (runJobs E reuse storage jobs s).2.disk.trace) :
    RootAccepted E w (normalizedSaveRoot
      ((runJobs E reuse storage jobs s).1.foldl StorageParams.after params).path) := by
  induction jobs generalizing params s with
  | nil => exact h
  | cons job rest ih =>
    simp only [runJobs, List.foldl_cons] at hlog ⊢
    refine ih (rootAccepted_step h (runJob_step E reuse storage job s) ?_) hlog
    intro root result hmem
    exact hlog root result ((runJobs_trace_suffix E reuse storage rest _).subset hmem)

/-- Arguments with an accepted root build the storage they describe. -/
theorem Describes.rebuilds {E : Env W} {w : W} {params : StorageParams} {t : TorrentStorage}
    (h : Describes params t) (hroot : RootAccepted E w (normalizedSaveRoot params.path)) :
    ∃ t' w', TorrentStorage.new E params w = (.ok t', w') ∧ SamePaths t t' := by
  have hsame : SamePaths t (build params (normalizedSaveRoot params.path)) :=
    ⟨h.files.symm, h.logicalPaths.symm, h.paths.symm, h.saveRoot.symm, h.infoHash.symm,
      h.partPath.symm⟩
  rcases hroot with hnil | ⟨hsafe, hval⟩
  · exact ⟨_, w, by simp [TorrentStorage.new, hnil], hsame⟩
  · have hne : (normalizedSaveRoot params.path).isEmpty = false := by
      simpa using safe_ne_nil hsafe
    have hinval : (E.validatePath (normalizedSaveRoot params.path) w).1 ≠ -einval := by
      simp only [einval]; omega
    refine ⟨_, (E.validatePath (normalizedSaveRoot params.path) w).2, ?_, hsame⟩
    simp only [TorrentStorage.new, hne, Bool.false_eq_true, if_false, hsafe]
    rw [if_neg (by simp), if_neg hinval, if_neg (by omega)]

/-- **A restart resumes where the session stopped.** After any run on an accepted storage the
    paths are the save root joined with the logical paths; and in every world `w` whose bridge
    answers `validate_path` as before, a storage built from what the handlers reported is
    accepted and describes the same paths. -/
theorem restart_resumes (E : Env W) {params : StorageParams} {w₀ w₁ : W} {t : TorrentStorage}
    (hnew : TorrentStorage.new E params w₀ = (.ok t, w₁)) (storage : Nat) (disk : Disk W)
    (jobs : List Job) :
    let run := runJobs E true storage jobs { torrent := t, disk }
    let stopped := run.2.torrent
    (∀ i < stopped.numFiles,
      stopped.pathFor i = rootedPath stopped.saveRoot (stopped.logicalPath i)) ∧
    ∀ w, (E.validatePath (normalizedSaveRoot params.path) w).1 =
        (E.validatePath (normalizedSaveRoot params.path) w₀).1 →
      StillAccepts E w run.2.disk.trace →
      ∃ resumed w', TorrentStorage.new E (run.1.foldl StorageParams.after params) w =
          (.ok resumed, w') ∧
        resumed.saveRoot = stopped.saveRoot ∧ resumed.logicalPaths = stopped.logicalPaths ∧
        resumed.paths = stopped.paths ∧ resumed.partPath = stopped.partPath := by
  intro run stopped
  have hdescribes : Describes (run.1.foldl StorageParams.after params) stopped :=
    describes_runJobs E true storage jobs (describes_new hnew)
  refine ⟨fun i hi => hdescribes.pathFor hi, fun w hsame hlog => ?_⟩
  obtain ⟨resumed, w', hok, h⟩ := hdescribes.rebuilds
    (rootAccepted_runJobs E true storage jobs (rootAccepted_new hnew hsame) hlog)
  exact ⟨resumed, w', hok, h.saveRoot, h.logicalPaths, h.paths, h.partPath⟩

namespace Restart

/-- Two files of three and two bytes, the second under the granted tree's own root. -/
def params : StorageParams where
  files := FileStorage.ofEntries [{ size := 3, pad := false }, { size := 2, pad := false }] 4
  filePath i := if i = 0 then str "a" else str "b"
  path := flowSessionRoot
  priorities := []
  infoHash := List.replicate 20 171

def world : World := World.holding [(str "a", [1, 2, 3])]

theorem new_params : TorrentStorage.new (provider .next id id) params world =
    (.ok (build params []), world) := rfl

theorem reachable_params : (build params []).Reachable :=
  ⟨World, provider .next id id, params, world, world, _, 0, { world }, [], new_params, rfl⟩

def jobs : List Job := [.renameFile 0 (str "c"), .moveStorage (str "d") .alwaysReplaceFiles]

/-- The session that renames `a` to `c` and moves to `d` is resumed under `d`. -/
theorem restart_resumes_moved :
    ∃ resumed w', TorrentStorage.new (provider .next id id)
        ((runJobs (provider .next id id) true 0 jobs
          { torrent := build params [], disk := { world } }).1.foldl StorageParams.after params)
        world = (.ok resumed, w') ∧
      resumed.paths = [str "d/c", str "d/b"] := by
  obtain ⟨resumed, w', hok, -, -, hpaths, -⟩ :=
    (restart_resumes (provider .next id id) new_params 0 { world } jobs).2 world rfl
      fun root result _ _ => by
        simp [provider, World.validatePath, World.popBridge, world, World.holding]
  exact ⟨resumed, w', hok, hpaths.trans (by decide +kernel)⟩

end Restart

/-! ## Files apart

No two files of a torrent should share a document. A move looks for this; a rename does not,
and neither knows of the part file. `KeepsApart` is what they leave unchecked. -/

/-- The documents of the files that are not pad files, and the part file, are different. -/
structure Apart (t : TorrentStorage) : Prop where
  distinct : ∀ i < t.numFiles, ∀ j < t.numFiles, t.files.padFileAt i = false →
    t.files.padFileAt j = false → t.pathFor i = t.pathFor j → i = j
  notPart : ∀ i < t.numFiles, t.files.padFileAt i = false → t.pathFor i ≠ t.partPath

/-- What a rename and a move would have to check of their destinations and do not. -/
def KeepsApart (t : TorrentStorage) : Job → Prop
  | .renameFile index name =>
      ∀ i < t.numFiles, index = i → t.files.padFileAt i = false → safeRelativePath name = true →
        rootedPath t.saveRoot name ≠ t.partPath ∧
        ∀ j < t.numFiles, j ≠ i → t.files.padFileAt j = false →
          rootedPath t.saveRoot name ≠ t.pathFor j
  | .moveStorage path _ =>
      safeRelativePath path = true → t.MoveAccepted (normalizedSaveRoot path) →
        ∀ i < t.numFiles, t.files.padFileAt i = false →
          t.destination (normalizedSaveRoot path) i ≠ t.partPath
  | _ => True

/-- A rename or a move is reported as done. -/
def Report.Arrives : Report → Prop
  | .renamed _ _ error | .moved _ _ error => error = none
  | _ => True

theorem Apart.same {t t' : TorrentStorage} (h : Apart t) (hsame : SamePaths t t') : Apart t' := by
  obtain ⟨hdistinct, hpart⟩ := h
  constructor
  · intro i hi j hj
    rw [hsame.numFiles] at hi hj
    rw [hsame.files, hsame.pathFor, hsame.pathFor]
    exact hdistinct i hi j hj
  · intro i hi
    rw [hsame.numFiles] at hi
    rw [hsame.files, hsame.pathFor, hsame.partPath]
    exact hpart i hi

/-- Files that are apart have different logical paths. -/
theorem Apart.logicalPath {t : TorrentStorage} (h : Apart t)
    (hrooted : ∀ i < t.numFiles, t.pathFor i = rootedPath t.saveRoot (t.logicalPath i))
    {i j : Nat} (hi : i < t.numFiles) (hj : j < t.numFiles) (hpi : t.files.padFileAt i = false)
    (hpj : t.files.padFileAt j = false) (heq : t.logicalPath i = t.logicalPath j) : i = j :=
  h.distinct i hi j hj hpi hpj (by rw [hrooted i hi, hrooted j hj, heq])

/-- One job whose destinations are free, if it gets there, keeps the files apart. -/
theorem Apart.step {log : List (Event W)} {t t' : TorrentStorage} {job : Job} {report : Report}
    (h : Apart t)
    (hrooted : ∀ i < t.numFiles, t.pathFor i = rootedPath t.saveRoot (t.logicalPath i))
    (hstep : Step log t job report t') (hjob : report.Arrives → KeepsApart t job) :
    Apart t' := by
  cases hstep with
  | @renamed index name hlt hsafe =>
    have hfree := hjob rfl index hlt rfl
    constructor
    · intro i hi j hj hpi hpj heq
      simp only [renameFile_numFiles, renameFile_files] at hi hj hpi hpj
      rw [t.renameFile_pathFor _ _ _ hi, t.renameFile_pathFor _ _ _ hj] at heq
      -- only the renamed file can have come to meet another one
      by_cases hii : i = index <;> by_cases hjj : j = index
      · rw [hii, hjj]
      · subst hii
        rw [if_pos rfl, if_neg hjj] at heq
        exact absurd heq ((hfree hpi hsafe).2 j hj hjj hpj)
      · subst hjj
        rw [if_neg hii, if_pos rfl] at heq
        exact absurd heq.symm ((hfree hpj hsafe).2 i hi hii hpi)
      · rw [if_neg hii, if_neg hjj] at heq
        exact h.distinct i hi j hj hpi hpj heq
    · intro i hi hpi
      simp only [renameFile_numFiles, renameFile_files] at hi hpi
      rw [t.renameFile_pathFor _ _ _ hi, renameFile_partPath]
      split
      · rename_i hii
        subst hii
        exact (hfree hpi hsafe).1
      · exact h.notPart i hi hpi
  | @moved path flags status hsafe haccepted hvalid =>
    constructor
    · intro i hi j hj hpi hpj heq
      rw [t.setSaveRoot_pathFor _ hi, t.setSaveRoot_pathFor _ hj, normalizedSaveRoot_idem,
        rootedPath_inj] at heq
      exact h.logicalPath hrooted hi hj hpi hpj heq
    · intro i hi hpi
      rw [t.setSaveRoot_pathFor _ hi, normalizedSaveRoot_idem, setSaveRoot_partPath]
      exact hjob rfl hsafe haccepted i hi hpi
  | notRenamed error => exact h
  | notMoved error => exact h
  | prioritised hsame => exact h.same hsame
  | other _ _ _ _ => exact h

/-- A fresh storage's files are apart when its names are. -/
theorem apart_build {params : StorageParams} {saveRoot : Path}
    (hdistinct : ∀ i < params.files.numFiles, ∀ j < params.files.numFiles,
      params.files.padFileAt i = false → params.files.padFileAt j = false →
      params.filePath i = params.filePath j → i = j)
    (hpart : ∀ i < params.files.numFiles, params.files.padFileAt i = false →
      rootedPath saveRoot (params.filePath i) ≠ partPathOf params.infoHash) :
    Apart (build params saveRoot) := by
  constructor
  · intro i hi j hj hpi hpj heq
    rw [build_pathFor _ hi, build_pathFor _ hj, rootedPath_inj] at heq
    exact hdistinct i hi j hj hpi hpj heq
  · intro i hi hpi
    rw [build_pathFor _ hi]
    exact hpart i hi hpi

/-- A destination that is not reached does not have to be free. -/
theorem apart_along (E : Env W) {params : StorageParams} {s : Sys W}
    (hdescribes : Describes params s.torrent) (hapart : Apart s.torrent) (storage : Nat)
    (jobs : List Job)
    (hrun : Along E true storage (fun s job report => report.Arrives → KeepsApart s.torrent job)
      jobs s) : Apart (runJobs E true storage jobs s).2.torrent := by
  have hkeeps := runJobs_along E true storage
    (I := fun s => (∃ params, Describes params s.torrent) ∧ Apart s.torrent)
    (fun job s hjob hs => ?_) hrun ⟨⟨params, hdescribes⟩, hapart⟩
  · exact hkeeps.2
  · obtain ⟨⟨params', hdescribes⟩, hapart⟩ := hs
    have hstep := runJob_step E true storage job s
    exact ⟨⟨_, hdescribes.step hstep⟩, hapart.step (fun i hi => hdescribes.pathFor hi) hstep hjob⟩

/-- **Files stay apart along every run whose destinations are free.** -/
theorem apart_of_run (E : Env W) {params : StorageParams} {w₀ w₁ : W} {t : TorrentStorage}
    (hnew : TorrentStorage.new E params w₀ = (.ok t, w₁))
    (hdistinct : ∀ i < params.files.numFiles, ∀ j < params.files.numFiles,
      params.files.padFileAt i = false → params.files.padFileAt j = false →
      params.filePath i = params.filePath j → i = j)
    (hpart : ∀ i < params.files.numFiles, params.files.padFileAt i = false →
      t.pathFor i ≠ t.partPath)
    (storage : Nat) (disk : Disk W) (jobs : List Job)
    (hrun : EveryStep E true storage KeepsApart jobs { torrent := t, disk }) :
    Apart (runJobs E true storage jobs { torrent := t, disk }).2.torrent := by
  obtain ⟨rfl, -⟩ := new_ok hnew
  have hstart : Apart (build params (normalizedSaveRoot params.path)) := by
    refine apart_build hdistinct fun i hi hpi => ?_
    have := hpart i hi hpi
    rwa [build_pathFor _ hi] at this
  exact apart_along E (s := { torrent := build params (normalizedSaveRoot params.path), disk })
    (describes_new hnew) hstart storage jobs
    (hrun.along E true storage fun _ _ _ hjob _ => hjob)

namespace Restart

theorem apart_params : Apart (build params []) := by
  constructor <;> decide +kernel

/-- A rename that keeps `a` and `b` apart, and one that does not. -/
def toFree : List Job := [.renameFile 0 (str "c")]
def toTaken : List Job := [.renameFile 0 (str "b")]

theorem apart_of_run_renamed :
    Apart (runJobs (provider .next id id) true 0 toFree
      { torrent := build params [], disk := { world } }).2.torrent :=
  apart_of_run (provider .next id id) new_params (by decide +kernel) (by decide +kernel) 0
    { world } toFree
    ⟨fun i hi h _ _ => by
      obtain rfl : i = 0 := by exact_mod_cast h.symm
      decide +kernel, trivial⟩

/-- Renaming `a` to `b` is reported as done, and both files are then at `b`. -/
theorem renamed_onto_another_file :
    (∃ w, TorrentStorage.new (provider .next id id) params world = (.ok (build params []), w)) ∧
    (∀ i < params.files.numFiles, ∀ j < params.files.numFiles,
      params.filePath i = params.filePath j → i = j) ∧
    (∀ i < params.files.numFiles, (build params []).pathFor i ≠ (build params []).partPath) ∧
    (runJobs (provider .next id id) true 0 toTaken
      { torrent := build params [], disk := { world } }).1 = [.renamed (str "b") 0 none] ∧
    ¬ Apart (runJobs (provider .next id id) true 0 toTaken
      { torrent := build params [], disk := { world } }).2.torrent := by
  refine ⟨⟨_, new_params⟩, by decide +kernel, by decide +kernel, by decide +kernel, fun h => ?_⟩
  have := h.distinct 0 (by decide +kernel) 1 (by decide +kernel) (by decide +kernel)
    (by decide +kernel) (by decide +kernel)
  simp at this

end Restart

/-! ## The save paths that are accepted

The constructor normalizes the save path before it looks at it, and accepts the empty root
without a look. `async_move_storage` looks first: **the empty path, and every path that is not a
safe relative one but ends like the session root, is refused there.** -/

/-- Two paths taken from the same string are accepted alike, and then have led to the same. -/
structure SavePathsAgree (E : Env W) (params : StorageParams) (w : W) (storage : Nat)
    (s : Sys W) : Prop where
  accepted : (∃ t w', TorrentStorage.new E params w = (.ok t, w')) ↔
    ∃ status s', asyncMoveStorage E storage params.path .resetSavePath s = (.ok status, s')
  same : ∀ t w' status s', TorrentStorage.new E params w = (.ok t, w') →
    asyncMoveStorage E storage params.path .resetSavePath s = (.ok status, s') →
    s'.torrent.saveRoot = t.saveRoot ∧ s'.torrent.logicalPaths = t.logicalPaths ∧
      s'.torrent.paths = t.paths

theorem new_accepts_iff {E : Env W} {params : StorageParams} {w : W} :
    (∃ t w', TorrentStorage.new E params w = (.ok t, w')) ↔
      RootAccepted E w (normalizedSaveRoot params.path) := by
  constructor
  · rintro ⟨t, w', hnew⟩
    exact rootAccepted_new hnew rfl
  · intro hroot
    obtain ⟨t, w', hnew, -⟩ := Describes.rebuilds (SamePaths.refl _) hroot
    exact ⟨t, w', hnew⟩

/-- What a move that only resets the save path does, on a torrent that passes its checks. -/
theorem asyncMoveStorage_reset (E : Env W) (storage : Nat) {path : Path} (s : Sys W)
    {answer : Int} (hanswer : ∀ w, (E.validatePath (normalizedSaveRoot path) w).1 = answer)
    (haccepted : s.torrent.MoveAccepted (normalizedSaveRoot path)) :
    wp (asyncMoveStorage E storage path .resetSavePath)
      (fun _ s' => (safeRelativePath path = true ∧ (normalizedSaveRoot path = [] ∨ 0 ≤ answer)) ∧
        s'.torrent = s.torrent.setSaveRoot (normalizedSaveRoot path))
      (fun _ _ => ¬ (safeRelativePath path = true ∧
        (normalizedSaveRoot path = [] ∨ 0 ≤ answer))) s := by
  simp only [asyncMoveStorage, wp_bind, wp_throwIf]
  refine ⟨fun hrefused h => by simp [hrefused] at h, fun hsafe => ?_⟩
  simp only [moveStorage, checkMove, closeStorage, closeWhere, wp_bind, wp_get, wp_onDisk]
  refine wp_forEach_inv (fun _ => True) trivial (fun entry _ d _ => ?_) fun d₁ _ => ?_
  · simp [callClose]
  refine wp_forEach_throwIf (fun index hindex hrefused => ?_) fun _ => ?_
  · obtain ⟨hlogical, hpath⟩ := haccepted.1 index (s.torrent.files.mem_indices.mp hindex)
    simp [hlogical, hpath] at hrefused
  refine wp_forEach_throwIf (fun operation hop hcollides => ?_) fun _ => ?_
  · simp [haccepted.2 operation hop] at hcollides
  simp only [validateRoot]
  by_cases hnil : normalizedSaveRoot path = []
  · simp [hnil, hsafe]
  · simp [hnil, hsafe, callValidatePath, hanswer]

/-- **Creation and a move accept the same save paths** just when the string is a safe relative path
    or does not stand for the granted tree's own root. -/
theorem save_paths_agree_iff (E : Env W) (params : StorageParams) (w : W) (storage : Nat)
    (s : Sys W) (answer : Int)
    (hanswer : ∀ w, (E.validatePath (normalizedSaveRoot params.path) w).1 = answer)
    (hfiles : params.files = s.torrent.files)
    (hnames : ∀ i < s.torrent.numFiles, params.filePath i = s.torrent.logicalPath i)
    (haccepted : s.torrent.MoveAccepted (normalizedSaveRoot params.path)) :
    SavePathsAgree E params w storage s ↔
      safeRelativePath params.path = true ∨ normalizedSaveRoot params.path ≠ [] := by
  have hmove := asyncMoveStorage_reset E storage s hanswer haccepted
  have hmoves : (∃ status s',
      asyncMoveStorage E storage params.path .resetSavePath s = (.ok status, s')) ↔
      safeRelativePath params.path = true ∧
        (normalizedSaveRoot params.path = [] ∨ 0 ≤ answer) := by
    constructor
    · rintro ⟨status, s', hok⟩
      exact (wp_ok hmove hok).1
    · intro h
      rcases hrun : asyncMoveStorage E storage params.path .resetSavePath s with ⟨_ | status, s'⟩
      · exact absurd h (wp_error hmove hrun)
      · exact ⟨status, s', rfl⟩
  constructor
  · intro h
    -- an unsafe path that comes down to the root: a new torrent takes it, a move refuses it
    by_contra hneither
    push Not at hneither
    obtain ⟨hrefused, hnil⟩ := hneither
    obtain ⟨hsafe, -⟩ := hmoves.mp (h.accepted.mp (new_accepts_iff.mpr (Or.inl hnil)))
    exact hrefused hsafe
  · intro hpath
    constructor
    · rw [new_accepts_iff, hmoves, RootAccepted, hanswer]
      rcases normalizedSaveRoot_eq params.path with hnil | hself
      · have hsafe := hpath.resolve_right fun hne => hne hnil
        simp [hnil, hsafe]
      · rw [hself] at hpath ⊢
        rcases hpath with hsafe | hne
        · simp [hsafe]
        · simp [hne]
    · intro t w' status s' hnew hok
      obtain ⟨rfl, -⟩ := new_ok hnew
      rw [(wp_ok hmove hok).2]
      have hlogical : s.torrent.logicalPaths =
          (build params (normalizedSaveRoot params.path)).logicalPaths := by
        refine List.ext_getElem (by simp [build, hfiles, FileStorage.indices,
          s.torrent.logicalPaths_length]) fun i hi _ => ?_
        have hlt : i < s.torrent.numFiles := by
          rw [s.torrent.logicalPaths_length] at hi
          exact hi
        simp only [build, FileStorage.indices, List.getElem_map, List.getElem_range, hnames i hlt]
        rw [logicalPath, List.getD_eq_getElem?_getD, List.getElem?_eq_getElem hi, Option.getD_some]
      refine ⟨by simp [build], hlogical, ?_⟩
      simp only [setSaveRoot, normalizedSaveRoot_idem, hlogical]
      simp [build]

namespace Restart

/-- A bridge that validates every path. -/
def validating : Env World :=
  { provider .next id id with validatePath := fun _ w => (0, w) }

/-- A save path like any other. -/
def plainParams : StorageParams := { params with path := str "d" }

/-- The torrent can be created under `d` and can be moved there. -/
theorem save_paths_agree_iff_plain :
    SavePathsAgree validating plainParams world 0
      { torrent := build params [], disk := { world } } :=
  (save_paths_agree_iff validating plainParams world 0
    { torrent := build params [], disk := { world } }
    0 (fun _ => rfl) rfl (by decide +kernel) ⟨by decide +kernel, by decide +kernel⟩).mpr
    (Or.inl (by decide +kernel))

/-- The granted tree's own root, as it is passed to the constructor. -/
def sentinelParams : StorageParams := { params with path := str "/data/.flow-session-root" }

/-- The torrent is created there, moved to `d`, and cannot be moved back. -/
theorem sentinel_refused :
    TorrentStorage.new validating sentinelParams world = (.ok (build sentinelParams []), world) ∧
    (runJobs validating true 0
      [.moveStorage (str "d") .resetSavePath, .moveStorage sentinelParams.path .resetSavePath]
      { torrent := build sentinelParams [], disk := { world } }).1 =
      [.moved { needFullCheck := true } (str "d") none,
        .moved { fatalDiskError := true } sentinelParams.path
          (some (invalidArgument (-1) .fileRename))] ∧
    ((build sentinelParams []).setSaveRoot (str "d")).MoveAccepted [] ∧
    ¬ SavePathsAgree validating sentinelParams world 0
      { torrent := (build sentinelParams []).setSaveRoot (str "d"), disk := { world } } := by
  have hroot : normalizedSaveRoot sentinelParams.path = [] := by decide +kernel
  refine ⟨?_, by decide +kernel, ⟨by decide +kernel, by decide +kernel⟩, fun h => ?_⟩
  · simp [TorrentStorage.new, hroot]
  · obtain ⟨status, s', hok⟩ := h.accepted.mp (new_accepts_iff.mpr (Or.inl hroot))
    have hsafe := (wp_ok (asyncMoveStorage_torrent validating 0 _ _ _) hok).1
    exact absurd hsafe (by decide +kernel)

end Restart

end Saf
end Libtorrent4j
