import Libtorrent4j.Saf.Naming

/-!
# Path confinement

Every path the backend shows to the bridge should be a safe relative one. The operations
check what they are given and what they create, but several of them pass on a file's current
path as it is, and the constructor does not look at the names it stores. So **confinement
holds exactly when every name the storage was built with is safe** (`confined_iff`).
-/

namespace Libtorrent4j
namespace Saf

open Lib Lib.Exec TorrentStorage

variable {W : Type}

/-- Every path in the log is safe. -/
def Confined (log : List (Event W)) : Prop :=
  ∀ event ∈ log, ∀ path ∈ event.bridgePaths, safeRelativePath path = true

theorem confined_nil : Confined (W := W) [] := by simp [Confined]

theorem logs_confined : Logs (W := W) (fun path => safeRelativePath path = true) Confined :=
  ⟨fun _ h => h, fun event log hevent hlog => by
    intro e he
    rcases List.mem_cons.mp he with rfl | he
    · exact hevent
    · exact hlog e he⟩

/-- Every current path of the torrent is safe, and so is its root. -/
structure SafePaths (t : TorrentStorage) : Prop where
  root : RootOk t.saveRoot
  logicalPath : ∀ i < t.numFiles, safeRelativePath (t.logicalPath i) = true
  pathFor : ∀ i < t.numFiles, safeRelativePath (t.pathFor i) = true

theorem SafePaths.step {log : List (Event W)} {t t' : TorrentStorage} {job : Job}
    {report : Report} (h : SafePaths t) (hstep : Step log t job report t') : SafePaths t' := by
  cases hstep with
  | @renamed index name hlt hsafe =>
    refine ⟨h.root, fun i hi => ?_, fun i hi => ?_⟩
    · rw [t.renameFile_logicalPath _ _ _ hi]
      split
      · exact hsafe
      · exact h.logicalPath i hi
    · rw [t.renameFile_pathFor _ _ _ hi]
      split
      · exact (safe_rootedPath h.root).mpr hsafe
      · exact h.pathFor i hi
  | @moved path flags status hsafe haccepted hvalid =>
    have hroot : RootOk (normalizedSaveRoot path) := rootOk_normalized hsafe
    refine ⟨by simpa using hroot, fun i hi => h.logicalPath i hi, fun i hi => ?_⟩
    rw [t.setSaveRoot_pathFor _ hi, normalizedSaveRoot_idem]
    exact (safe_rootedPath hroot).mpr (h.logicalPath i hi)
  | prioritised hsame =>
    refine ⟨by rw [hsame.saveRoot]; exact h.root, fun i hi => ?_, fun i hi => ?_⟩
    · rw [hsame.logicalPath]
      exact h.logicalPath i (hsame.numFiles ▸ hi)
    · rw [hsame.pathFor]
      exact h.pathFor i (hsame.numFiles ▸ hi)
  | notRenamed error => exact h
  | notMoved error => exact h
  | other _ _ _ _ => exact h

/-- A run on a torrent with safe paths shows the bridge only safe paths. -/
theorem confined_runJobs (E : Env W) (reuse : Bool) (storage : Nat) (jobs : List Job) {s : Sys W}
    (hpaths : SafePaths s.torrent) (hlog : Confined s.disk.trace) :
    Confined (runJobs E reuse storage jobs s).2.disk.trace :=
  (runJobs_induct E reuse storage (I := fun s => SafePaths s.torrent ∧ Confined s.disk.trace)
    (fun job _ s h => ⟨h.1.step (runJob_step E reuse storage job s),
      logs_confined.runJob E reuse storage job h.1.pathFor h.2⟩) ⟨hpaths, hlog⟩).2

theorem safePaths_build {params : StorageParams} {saveRoot : Path} (hroot : RootOk saveRoot)
    (h : ∀ i < params.files.numFiles, safeRelativePath (params.filePath i) = true) :
    SafePaths (build params saveRoot) :=
  ⟨hroot, fun i hi => by rw [build_logicalPath _ hi]; exact h i hi,
    fun i hi => by rw [build_pathFor _ hi]; exact (safe_rootedPath hroot).mpr (h i hi)⟩

/-- On the healthy provider the parents of a safe path can be created. -/
theorem ensureParentDirectories_healthy {path : Path} (hsafe : safeRelativePath path = true)
    (file : Int) {d : Disk World} (hd : d.world.bridge = []) :
    wp (ensureParentDirectories (provider .next id id) path file)
      (fun _ d' => d'.world.bridge = []) (fun _ _ => False) d := by
  simp only [ensureParentDirectories, wp_bind, wp_throwIf, hsafe]
  refine ⟨by simp, fun _ => ?_⟩
  refine wp_forEach_inv (fun d' => d'.world.bridge = []) hd (fun directory _ d' hd' => ?_)
    fun _ h => h
  have hcall : World.createDirectory directory d'.world = (0, d'.world) := by
    simp [World.createDirectory, World.popBridge, hd']
  simp [callCreateDirectory, provider, hcall, hd']

/-- On the healthy provider a rename shows the bridge the old path, whatever it is. -/
theorem rename_shows_old_path {t : TorrentStorage} (hroot : RootOk t.saveRoot) {i : Nat}
    (hi : i < t.numFiles) {name : Path} (hname : safeRelativePath name = true) :
    ∃ event ∈ (runJobs (provider .next id id) true 0 [.renameFile i name]
      { torrent := t, disk := { world := World.holding [] } }).2.disk.trace,
      t.pathFor i ∈ event.bridgePaths := by
  simp only [runJobs, runJob]
  let Shown : Sys World → Prop := fun s =>
    ∃ event ∈ s.disk.trace, t.pathFor i ∈ event.bridgePaths
  refine wp_state.mp (?_ : wp _ (fun _ => Shown) (fun _ => Shown) _)
  simp only [asyncRenameFile, wp_bind, wp_throwIf, wp_get, wp_onDisk, closeFile, closeWhere,
    List.filter_nil, forEach, wp_ret, wp_modify, Int.toNat_natCast]
  refine ⟨fun h => ?_, fun _ => ?_⟩
  · rcases h with h | h | h
    · omega
    · omega
    · simp [hname] at h
  refine wp_mono (ensureParentDirectories_healthy ((safe_rootedPath hroot).mpr hname) i rfl) ?_
    fun _ _ h => h.elim
  intro _ d _
  simp only [callRename, wp_ask]
  have hmem : ∀ result, ∃ event ∈ (Event.rename (t.pathFor i) (rootedPath t.saveRoot name) result
      :: d.trace), t.pathFor i ∈ event.bridgePaths :=
    fun result => ⟨_, List.mem_cons_self, by simp [Event.bridgePaths]⟩
  exact ⟨fun _ => hmem _, fun _ => hmem _⟩

/-- **Path confinement**: an accepted storage shows the bridge only safe paths in every run
    in all surroundings if and only if every name it was built with is a safe path. -/
theorem confined_iff {E : Env W} {params : StorageParams} {w₀ w₁ : W} {t : TorrentStorage}
    (hnew : TorrentStorage.new E params w₀ = (.ok t, w₁)) :
    (∀ (W' : Type) (E' : Env W') (storage : Nat) (disk : Disk W') (jobs : List Job),
      disk.trace = [] →
      Confined (runJobs E' true storage jobs { torrent := t, disk }).2.disk.trace) ↔
    ∀ i < params.files.numFiles, safeRelativePath (params.filePath i) = true := by
  obtain ⟨rfl, hroot⟩ := new_ok hnew
  constructor
  · intro h i hi
    obtain ⟨event, hmem, hpath⟩ := rename_shows_old_path
      (t := build params (normalizedSaveRoot params.path)) hroot hi
      (by decide +kernel : safeRelativePath (str "a") = true)
    have := h World (provider .next id id) 0 { world := World.holding [] }
      [.renameFile i (str "a")] rfl event hmem _ hpath
    rw [build_pathFor _ hi] at this
    exact (safe_rootedPath hroot).mp this
  · intro h W' E' storage disk jobs htrace
    refine confined_runJobs E' true storage jobs (safePaths_build hroot h) ?_
    rw [show ({ torrent := _, disk } : Sys W').disk.trace = [] from htrace]
    exact confined_nil

theorem Restart.confined :
    Confined (runJobs (provider .next id id) true 0 Restart.jobs
      { torrent := build Restart.params [], disk := { world := Restart.world } }).2.disk.trace :=
  (confined_iff Restart.new_params).mpr (by decide +kernel) World _ 0 { world := Restart.world }
    Restart.jobs rfl

namespace Escape

/-- A torrent whose only file was renamed out of the granted tree. -/
def params : StorageParams where
  files := FileStorage.ofEntries [{ size := 1, pad := false }] 1
  filePath _ := str "../x"
  path := str ""
  priorities := []
  infoHash := List.replicate 20 171

def world : World := World.holding [(str "../x", [1])]

/-- Deleting its files asks the bridge to remove `../x`. -/
theorem deletes_outside :
    (∃ w, TorrentStorage.new (provider .next id id) params world =
      (.ok (build params []), w)) ∧
    ¬ Confined (runJobs (provider .next id id) true 0 [.deleteFiles true false]
      { torrent := build params [], disk := { world } }).2.disk.trace := by
  refine ⟨⟨_, rfl⟩, fun h => ?_⟩
  have hshown : str "../x" ∈ (runJobs (provider .next id id) true 0 [.deleteFiles true false]
      { torrent := build params [], disk := { world } }).2.disk.trace.flatMap
        Event.bridgePaths := by
    decide +kernel
  obtain ⟨event, hmem, hpath⟩ := List.mem_flatMap.mp hshown
  exact absurd (h event hmem _ hpath) (by decide +kernel)

end Escape

end Saf
end Libtorrent4j
