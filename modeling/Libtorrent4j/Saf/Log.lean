import Libtorrent4j.Saf.Jobs

/-!
# What the operations log

One pass over every operation, for every property of the trace at once. `Logs P J` says that
`J` survives any event whose bridge paths all satisfy `P`, and that safe paths do; then
**every operation on a torrent whose current paths satisfy `P` keeps `J`**. With `P` the
syntax check this is path confinement; with `P` trivial it says that the log only grows.
-/

namespace Libtorrent4j
namespace Saf

open Lib Lib.Exec

variable {W F α : Type}

/-- The paths an event shows to `create_directory`, `open_file`, `file_size`, `rename` and
    `remove`. -/
def Event.bridgePaths : Event W → List Path
  | .createDirectory path _ | .openFile path _ _ | .fileSize path _ | .remove path _ _ => [path]
  | .rename old new _ => [old, new]
  | _ => []

/-- `J` is a property of the log that allowed events keep. -/
structure Logs (P : Path → Prop) (J : List (Event W) → Prop) : Prop where
  safe : ∀ path, safeRelativePath path = true → P path
  cons : ∀ event trace, (∀ path ∈ event.bridgePaths, P path) → J trace → J (event :: trace)

/-- The program keeps a property of the log. -/
abbrev KeepsLog (J : List (Event W) → Prop) (m : Exec (Disk W) F α) : Prop :=
  Keeps (fun d => J d.trace) m

section Pass

variable {P : Path → Prop} {J : List (Event W) → Prop} (hJ : Logs P J) (E : Env W)

include hJ

/-! ## Calls -/

/-- Every call to the surroundings goes through here: its event has to be an allowed one. -/
theorem Logs.ask {call : W → α × W} {event : α → Event W}
    (h : ∀ a, ∀ path ∈ (event a).bridgePaths, P path) :
    KeepsLog J (ask call event : Exec (Disk W) F α) :=
  fun _ hd => hJ.cons _ _ (h _) hd

theorem Logs.callCreateDirectory {path : Path} (h : P path) :
    KeepsLog J (callCreateDirectory E path : Exec (Disk W) F Int) :=
  hJ.ask fun _ => by simpa [Event.bridgePaths] using h

/-- The calls of the bridge show their paths. -/
theorem Logs.callOpenFile {path : Path} (mode : Mode) (h : P path) :
    KeepsLog J (callOpenFile E path mode : Exec (Disk W) F Int) :=
  hJ.ask fun _ => by simpa [Event.bridgePaths] using h

theorem Logs.callFileSize {path : Path} (h : P path) :
    KeepsLog J (callFileSize E path : Exec (Disk W) F Int) :=
  hJ.ask fun _ => by simpa [Event.bridgePaths] using h

theorem Logs.callRemove {path : Path} (recursive : Bool) (h : P path) :
    KeepsLog J (callRemove E path recursive : Exec (Disk W) F Int) :=
  hJ.ask fun _ => by simpa [Event.bridgePaths] using h

theorem Logs.callRename {old new : Path} (ho : P old) (hn : P new) :
    KeepsLog J (callRename E old new : Exec (Disk W) F Int) :=
  hJ.ask fun _ => by simpa [Event.bridgePaths] using ⟨ho, hn⟩

/-- `validate_path` is not among the calls that are restricted: it only asks. -/
theorem Logs.callValidatePath (path : Path) :
    KeepsLog J (callValidatePath E path : Exec (Disk W) F Int) :=
  hJ.ask fun _ => by simp [Event.bridgePaths]

theorem Logs.callClose (descriptor : Int) :
    KeepsLog J (callClose E descriptor : Exec (Disk W) F Unit) :=
  hJ.ask fun _ => by simp [Event.bridgePaths]

/-- A `scoped_descriptor` closes and shows no path. -/
theorem Logs.resetScoped (descriptor : Int) :
    KeepsLog J (resetScoped E descriptor : Exec (Disk W) F Unit) :=
  keeps_ite (fun _ => hJ.callClose E descriptor) fun _ => keeps_ret ()

theorem Logs.withScoped (descriptor : Int) {block : Exec (Disk W) F α} (h : KeepsLog J block) :
    KeepsLog J (withScoped E descriptor block) :=
  keeps_ensuring h (hJ.resetScoped E descriptor)

/-- The parents of a safe path are safe, and for another one the bridge is not asked. -/
theorem Logs.ensureParentDirectories (path : Path) (file : Int) :
    KeepsLog J (ensureParentDirectories E path file) := by
  unfold Saf.ensureParentDirectories
  by_cases hsafe : safeRelativePath path = true
  · refine keeps_bind (keeps_throwIf _) fun _ => keeps_forEach fun directory hd => ?_
    exact keeps_bind
      (hJ.callCreateDirectory E (hJ.safe _ (safe_parentDirectories hsafe hd)))
      fun _ => keeps_throwIf _
  · simp only [hsafe, throwIf, if_true]
    exact keeps_throw _

/-! ## The descriptor cache -/

/-- Closing shows no path, whichever entries are meant. -/
theorem Logs.closeWhere (p : OpenDescriptor → Bool) :
    KeepsLog J (closeWhere E p : Exec (Disk W) F Unit) :=
  keeps_bind keeps_get fun _ =>
    keeps_bind (keeps_forEach fun _ _ => hJ.callClose E _) fun _ _ h => h

theorem Logs.evictOne : KeepsLog J (evictOne E : Exec (Disk W) F Unit) := by
  refine keeps_bind keeps_get fun d => ?_
  split
  · exact keeps_ret ()
  · exact keeps_bind (hJ.callClose E _) fun _ _ h => h

/-- Nor does making room. -/
theorem Logs.evictToLimit (turns : Nat) :
    KeepsLog J (evictToLimit E turns : Exec (Disk W) F Unit) := by
  induction turns with
  | zero => exact keeps_ret ()
  | succ turns ih =>
    refine keeps_bind keeps_get fun d => keeps_ite (fun _ => ?_) fun _ => keeps_ret ()
    exact keeps_bind (hJ.evictOne E) fun _ => ih

/-- A path that is opened has been checked just before. -/
theorem Logs.openAndStore (storage : Nat) (file : Int) (path : Path) (write : Bool)
    (operation : Operation) : KeepsLog J (openAndStore E storage file path write operation) := by
  refine keeps_throwIf_bind fun hsafe => keeps_bind keeps_get fun d => ?_
  refine keeps_bind (hJ.evictToLimit E _) fun _ => ?_
  refine keeps_bind (hJ.callOpenFile E _ (hJ.safe _ (by simpa using hsafe))) fun result => ?_
  refine keeps_throwIf_bind fun _ => keeps_bind (fun d hd => ?_) fun _ => keeps_ret _
  exact hJ.cons _ _ (by simp [Event.bridgePaths]) hd

theorem Logs.openUncached (storage : Nat) (file : Int) (path : Path) (write : Bool)
    (operation : Operation) : KeepsLog J (openUncached E storage file path write operation) :=
  keeps_ite
    (fun _ => keeps_bind (hJ.ensureParentDirectories E path file) fun _ =>
      hJ.openAndStore E storage file path write operation)
    fun _ => hJ.openAndStore E storage file path write operation

/-- So `open_file` needs nothing of its argument. -/
theorem Logs.openFile (reuse : Bool) (storage : Nat) (file : Int) (path : Path) (write : Bool)
    (operation : Operation) : KeepsLog J (openFile E reuse storage file path write operation) := by
  refine keeps_bind keeps_get fun d => ?_
  split
  · exact hJ.openUncached E storage file path write operation
  · refine keeps_ite (fun _ => keeps_bind (fun d hd => ?_) fun _ => keeps_ret _) fun _ => ?_
    · exact hJ.cons _ _ (by simp [Event.bridgePaths]) hd
    · exact keeps_bind (hJ.callClose E _) fun _ => keeps_bind (fun d hd => hd) fun _ =>
        hJ.openUncached E storage file path write operation

/-! ## Blocks -/

/-- Transfers are not seen by the bridge. -/
theorem Logs.note {event : Event W} (h : event.bridgePaths = [])
    (w : W) (d : Disk W) (hd : J d.trace) : J (d.note w event).trace :=
  hJ.cons _ _ (by simp [h]) hd

variable (reuse : Bool) (t : TorrentStorage) (storage : Nat)

/-- Reading goes through `open_file`, which checks, and through `pread`, which shows no path. -/
theorem Logs.readBlock (request : Request) :
    KeepsLog J (readBlock E reuse t storage request) := by
  suffices key : ∀ slices out, KeepsLog J (readSlices E reuse t storage slices out) from key _ _
  intro slices
  induction slices with
  | nil => exact fun out => keeps_ret _
  | cons slice rest ih =>
    refine fun out => keeps_ite (fun _ => ih _) fun _ => ?_
    refine keeps_bind (keeps_mapError (keeps_bind (keeps_mapError ?_) fun _ => ?_))
      fun bytes => ih _
    · exact hJ.openFile E reuse _ _ _ _ _
    · exact keeps_readWhole E (hJ.note rfl) _ _ _ _

/-- Writing likewise. -/
theorem Logs.writeBlock (request : Request) (input : List Byte) :
    KeepsLog J (writeBlock E reuse t storage request input) := by
  suffices key : ∀ slices input, KeepsLog J (writeSlices E reuse t storage slices input) from
    key _ _
  intro slices
  induction slices with
  | nil => exact fun input => keeps_ret _
  | cons slice rest ih =>
    refine fun input => keeps_ite (fun _ => ih _) fun _ => ?_
    refine keeps_bind (keeps_bind ?_ fun _ => ?_) fun _ => ih _
    · exact hJ.openFile E reuse _ _ _ _ _
    · exact keeps_writeWhole E (hJ.note rfl) _ _ _ _ _

theorem Logs.truncateTo (descriptor : Int) (size index : Nat) :
    KeepsLog J (truncateTo E descriptor size index) := by
  refine keeps_bind (hJ.ask fun _ => by simp [Event.bridgePaths]) fun answer => ?_
  split
  · exact keeps_ret _
  · exact keeps_throw _

theorem Logs.copyLoop (source : Option (Int × Nat)) (destination : Int)
    (destinationOffset size : Nat) (readError writeError : Int → StorageError) (copied : Nat) :
    KeepsLog J
      (copyLoop E source destination destinationOffset size readError writeError copied) :=
  keeps_copyLoop E (fun _ _ => hJ.note rfl)
    (hJ.note rfl) _ _ _ _ _

/-- A copy checks both its paths. -/
theorem Logs.copyPublicFile (source destination : Path) (size index : Nat) :
    KeepsLog J (copyPublicFile E source destination size index) := by
  refine keeps_throwIf_bind fun hsafe => ?_
  push Not at hsafe
  refine keeps_bind (hJ.ensureParentDirectories E _ _) fun _ => ?_
  refine keeps_bind (hJ.callOpenFile E _ (hJ.safe _ (by simpa using hsafe.1))) fun from' => ?_
  refine hJ.withScoped E _ (keeps_throwIf_bind fun _ => ?_)
  refine keeps_bind (hJ.callOpenFile E _ (hJ.safe _ (by simpa using hsafe.2))) fun to' => ?_
  refine hJ.withScoped E _ (keeps_throwIf_bind fun _ => ?_)
  exact keeps_bind (hJ.truncateTo E _ _ _) fun _ => hJ.copyLoop E _ _ _ _ _ _ _

/-- `remove` is called unchecked: here the path itself has to be allowed. -/
theorem Logs.removeLater {path : Path} (file : Int) (h : P path) :
    KeepsLog J (removeLater E path file) :=
  keeps_bind (hJ.callRemove E _ h) fun _ => keeps_ret _

theorem Logs.asyncHash (piece : Nat) (v1 : Bool) (room : Nat) :
    KeepsLog J (asyncHash E reuse t storage piece v1 room) := by
  refine keeps_bind (keeps_ite (fun _ => keeps_mapError ?_) fun _ => keeps_ret _) fun _ =>
    keeps_throwIf_bind fun _ => keeps_ret _
  exact hJ.readBlock E reuse t storage _

theorem Logs.asyncHash2 (piece offset : Nat) :
    KeepsLog J (asyncHash2 E reuse t storage piece offset) :=
  keeps_throwIf_bind fun _ =>
    keeps_bind (keeps_mapError (hJ.readBlock E reuse t storage _)) fun _ => keeps_ret _

section Torrent

variable (hpaths : ∀ i < t.numFiles, P (t.pathFor i))

include hpaths

/-- The source of a migration is asked for unchecked. It is a file's current path, or the part
    file's. -/
theorem Logs.migrateCopy {index : Nat} (hi : index < t.numFiles) (toPart : Bool) :
    KeepsLog J (migrateCopy E t index toPart) := by
  have hpart : P t.partPath := hJ.safe _ t.safe_partPath
  have hsource : P (t.migrationSource index toPart) := by
    cases toPart
    · exact hpart
    · exact hpaths index hi
  have hdestination : P (t.migrationTarget index toPart) := by
    cases toPart
    · exact hpaths index hi
    · exact hpart
  refine keeps_bind (hJ.callOpenFile E _ hsource) fun from' => keeps_throwIf_bind fun _ => ?_
  unfold migrateFrom migrateTo
  refine keeps_bind (keeps_attempt (keeps_bind (hJ.ensureParentDirectories E _ _) fun _ =>
    hJ.callOpenFile E _ hdestination)) fun opened => ?_
  split
  · exact keeps_bind (hJ.resetScoped E _) fun _ => keeps_throw _
  refine keeps_bind (keeps_attempt (keeps_throwIf_bind fun _ => keeps_bind (keeps_onlyIf fun _ =>
    hJ.truncateTo E _ _ _) fun _ => hJ.copyLoop E _ _ _ _ _ _ _)) fun copied => ?_
  split
  · exact keeps_bind (hJ.resetScoped E _) fun _ =>
      keeps_bind (hJ.resetScoped E _) fun _ => keeps_throw _
  · exact keeps_bind (hJ.resetScoped E _) fun _ => hJ.resetScoped E _

theorem Logs.migratePriority {index : Nat} (hi : index < t.numFiles) (toPart : Bool) :
    KeepsLog J (migratePriority E t storage index toPart) := by
  refine keeps_ite (fun _ => keeps_ret _) fun _ => ?_
  refine keeps_bind (hJ.closeWhere E _) fun _ => keeps_bind (hJ.closeWhere E _) fun _ => ?_
  refine keeps_bind (hJ.migrateCopy E t hpaths hi toPart) fun _ => keeps_onlyIf fun _ => ?_
  exact keeps_bind (hJ.callRemove E _ (hpaths index hi)) fun _ => keeps_throwIf _

/-! ## Checks and deletion -/

/-- `file_size` is called on the current paths, unchecked. -/
theorem Logs.initializeFiles : KeepsLog J (initializeFiles E reuse t storage) := by
  refine keeps_bind (keeps_mapEach fun index hindex => ?_) fun _ => keeps_ret _
  have hi : index < t.numFiles := t.files.mem_indices.mp (List.mem_filter.mp hindex).1
  refine keeps_bind (hJ.callFileSize E (hpaths index hi)) fun _ => ?_
  refine keeps_bind (keeps_mapError ?_) fun _ => keeps_ret _
  exact keeps_bind (hJ.openFile E reuse _ _ _ _ _) fun _ => hJ.truncateTo E _ _ _

/-- And so it is by the validation of resume data. -/
theorem Logs.checkResumeFiles (seed exactSize : Bool) {files : List Nat}
    (hfiles : ∀ index ∈ files, index < t.numFiles) (status : Status) :
    KeepsLog J (checkResumeFiles E t seed exactSize files status) := by
  induction files generalizing status with
  | nil => exact keeps_ret _
  | cons index rest ih =>
    have hrest := fun status => ih (fun i hi => hfiles i (List.mem_cons_of_mem _ hi)) status
    refine keeps_ite (fun _ => hrest _) fun _ => ?_
    refine keeps_bind (hJ.callFileSize E (hpaths index (hfiles index List.mem_cons_self)))
      fun _ => ?_
    exact keeps_throwIf_bind fun _ => hrest _

theorem Logs.validateResume (resume : Resume) : KeepsLog J (validateResume E t resume) :=
  keeps_ite
    (fun _ => hJ.checkResumeFiles E t hpaths _ _ (fun _ hi => t.files.mem_indices.mp hi) _)
    fun _ => hJ.checkResumeFiles E t hpaths _ _ (fun _ hi => lt_of_mem_claimedFiles hi) _

theorem Logs.asyncCheckFiles (resume : Option Resume) (links : List Path) :
    KeepsLog J (asyncCheckFiles E reuse t storage resume links) := by
  refine keeps_throwIf_bind fun _ => ?_
  cases resume with
  | none => exact hJ.initializeFiles E reuse t storage hpaths
  | some resume =>
    exact keeps_ite (fun _ => hJ.validateResume E t hpaths resume)
      fun _ => hJ.initializeFiles E reuse t storage hpaths

/-- The paths to delete are the current ones and the part file's. -/
theorem Logs.asyncDeleteFiles (deleteFiles deletePartfile : Bool) :
    KeepsLog J (asyncDeleteFiles E t storage deleteFiles deletePartfile) := by
  refine keeps_bind (hJ.closeWhere E _) fun _ => ?_
  refine keeps_bind (keeps_mapEach fun index hindex => ?_) fun _ => ?_
  · refine hJ.removeLater E _ (hpaths index ?_)
    split at hindex
    · exact t.files.mem_indices.mp (List.mem_filter.mp hindex).1
    · simp at hindex
  refine keeps_bind (keeps_mapEach fun path hpath => ?_) fun _ => ?_
  · refine hJ.removeLater E _ ?_
    split at hpath
    · rw [List.mem_singleton.mp hpath]
      exact hJ.safe _ t.safe_partPath
    · simp at hpath
  · split
    · exact keeps_throw _
    · exact keeps_ret _

end Torrent

/-! ## Moves, renames and priorities -/

/-- The destinations of a move are checked, one after the other, before anything is done. -/
theorem Logs.checkMove (root : Path) : KeepsLog J (checkMove E t storage root) := by
  refine keeps_bind (hJ.closeWhere E _) fun _ => ?_
  refine keeps_bind (keeps_forEach fun _ _ => keeps_throwIf _) fun _ => ?_
  refine keeps_bind (keeps_forEach fun _ _ => keeps_throwIf _) fun _ => ?_
  refine keeps_bind (keeps_ite (fun _ => keeps_ret _) fun _ => hJ.callValidatePath E _) fun _ => ?_
  exact keeps_throwIf_bind fun _ => keeps_ret _

/-- The stat pass asks for sources and destinations. -/
theorem Logs.statOperations (flags : MoveFlags) {operations : List MoveOperation}
    (h : ∀ operation ∈ operations, P operation.source ∧ P operation.destination)
    (status : Status) : KeepsLog J (statOperations E flags operations status) := by
  induction operations generalizing status with
  | nil => exact keeps_ret _
  | cons operation rest ih =>
    have hfirst := h operation List.mem_cons_self
    refine keeps_bind (hJ.callFileSize E hfirst.2) fun _ => keeps_throwIf_bind fun _ => ?_
    refine keeps_bind (hJ.callFileSize E hfirst.1) fun _ => keeps_throwIf_bind fun _ => ?_
    exact keeps_bind (ih (fun op hop => h op (List.mem_cons_of_mem _ hop)) _) fun _ => keeps_ret _

theorem Logs.statMove {root : Path} (flags : MoveFlags)
    (hdestination : ∀ i < t.numFiles, P (t.destination root i))
    {operations : List MoveOperation}
    (h : ∀ operation ∈ operations, P operation.source ∧ P operation.destination) :
    KeepsLog J (statMove E t root flags operations) := by
  refine keeps_bind (keeps_onlyIf fun _ => keeps_forEach fun index hindex => ?_) fun _ =>
    hJ.statOperations E flags h _
  refine keeps_ite (fun _ => keeps_ret _) fun _ => ?_
  have hi : index < t.numFiles := t.files.mem_indices.mp hindex
  refine keeps_bind (hJ.callFileSize E (hdestination index hi)) fun _ => ?_
  exact keeps_throwIf_bind fun _ => keeps_throwIf _

theorem Logs.copyOperations (operations : List MoveOperation) (status : Status) :
    KeepsLog J (copyOperations E operations status) :=
  keeps_forEach fun _ _ => keeps_onlyIf fun _ => keeps_mapError (hJ.copyPublicFile E _ _ _ _)

/-- Only sources are removed. -/
theorem Logs.removeSources {operations : List MoveOperation} (destinations : List Path)
    (h : ∀ operation ∈ operations, P operation.source) :
    KeepsLog J (removeSources E operations destinations) :=
  keeps_forEach fun operation hop => keeps_onlyIf fun _ =>
    keeps_bind (hJ.callRemove E _ (h operation hop)) fun _ => keeps_ret _

/-- The whole move. Its destinations are allowed because they have passed the check. -/
theorem Logs.asyncMoveStorage (path : Path) (flags : MoveFlags) {s : Sys W}
    (hs : J s.disk.trace) : J (asyncMoveStorage E storage path flags s).2.disk.trace := by
  refine wp_state.mp (?_ : wp _ (fun _ s' => J s'.disk.trace) (fun _ s' => J s'.disk.trace) s)
  simp only [Saf.asyncMoveStorage, moveStorage, wp_bind, wp_throwIf, wp_get, wp_onDisk]
  refine ⟨fun _ => hs, fun hpath => ?_⟩
  have hroot : RootOk (normalizedSaveRoot path) := rootOk_normalized (by simpa using hpath)
  refine wp_mono (wp_and (checkMove_ok E s.torrent storage _ s.disk)
    ((hJ.checkMove E s.torrent storage _).wp hs)) ?_ fun _ _ h => h.2
  rintro operations d₁ ⟨⟨rfl, haccepted, -⟩, hd₁⟩
  have hdestination : ∀ i < s.torrent.numFiles,
      P (s.torrent.destination (normalizedSaveRoot path) i) :=
    fun i hi => hJ.safe _ ((safe_rootedPath hroot).mpr (haccepted.1 i hi).1)
  have hoperation : ∀ operation ∈ s.torrent.moveOperations (normalizedSaveRoot path),
      P operation.source ∧ P operation.destination := by
    intro operation hop
    obtain ⟨i, hi, -, -, rfl⟩ := mem_moveOperations.mp hop
    exact ⟨hJ.safe _ (haccepted.1 i hi).2, hdestination i hi⟩
  rw [wp_ite]
  refine ⟨fun _ => hd₁, fun _ => ?_⟩
  simp only [wp_bind, wp_onDisk, wp_updateTorrent]
  refine wp_mono (wp_and (statMove_ok E s.torrent _ flags _ d₁)
    ((hJ.statMove E s.torrent flags hdestination hoperation).wp hd₁)) ?_ fun _ _ h => h.2
  rintro ⟨operations', status⟩ d₂ ⟨hsame, hd₂⟩
  refine wp_mono ((hJ.copyOperations E operations' status).wp hd₂) ?_ fun _ _ h => h
  intro _ d₃ hd₃
  refine wp_mono ((hJ.removeSources E _ fun operation' hop' => ?_).wp hd₃) (fun _ _ h => h)
    fun _ _ h => h
  -- the sources that are removed are among those that were checked
  obtain ⟨operation, hop, hsource⟩ := exists_left hsame hop'
  rw [hsource.2.1]
  exact (hoperation operation hop).1

/-- A rename checks the new name. The old one is a current path. -/
theorem Logs.asyncRenameFile (index : Int) (name : Path) {s : Sys W}
    (hpaths : ∀ i < s.torrent.numFiles, P (s.torrent.pathFor i)) (hs : J s.disk.trace) :
    J (asyncRenameFile E storage index name s).2.disk.trace := by
  refine wp_state.mp (?_ : wp _ (fun _ s' => J s'.disk.trace) (fun _ s' => J s'.disk.trace) s)
  simp only [Saf.asyncRenameFile, wp_bind, wp_throwIf, wp_get, wp_onDisk]
  refine ⟨fun _ => hs, fun hchecked => ?_⟩
  push Not at hchecked
  refine wp_mono ((hJ.closeWhere E _).wp hs) ?_ fun _ _ h => h
  intro _ d₁ hd₁
  refine wp_mono (wp_and (ensureParentDirectories_ok E _ _ d₁)
    ((hJ.ensureParentDirectories E _ _).wp hd₁)) ?_ fun _ _ h => h.2
  rintro _ d₂ ⟨hsafe, hd₂⟩
  refine wp_mono ((hJ.callRename E (hpaths index.toNat (by omega)) (hJ.safe _ hsafe)).wp hd₂) ?_
    fun _ _ h => h
  exact fun _ d₃ hd₃ => ⟨fun _ => hd₃, fun _ => hd₃⟩

/-- The paths are the same in every turn of the loop: a priority is all that a turn changes. -/
theorem Logs.asyncSetFilePriority (priorities : List Priority) {s : Sys W}
    (hpaths : ∀ i < s.torrent.numFiles, P (s.torrent.pathFor i)) (hs : J s.disk.trace) :
    J (asyncSetFilePriority E storage priorities s).2.disk.trace := by
  refine wp_state.mp (?_ : wp _ (fun _ s' => J s'.disk.trace) (fun _ s' => J s'.disk.trace) s)
  simp only [Saf.asyncSetFilePriority, wp_bind, wp_get, wp_onlyIf]
  refine wp_forEach_inv (fun s' => TorrentStorage.SamePaths s.torrent s'.torrent ∧ J s'.disk.trace)
    ⟨.refl _, hs⟩ (fun index hindex s' hs' => ?_) fun s' hs' => ?_
  · have hi : index < s'.torrent.numFiles := by
      rw [hs'.1.numFiles]
      exact s.torrent.files.mem_indices.mp hindex
    have hpaths' : ∀ i < s'.torrent.numFiles, P (s'.torrent.pathFor i) := by
      rw [hs'.1.numFiles]
      exact fun i hi => by rw [hs'.1.pathFor]; exact hpaths i hi
    simp only [setPriorityAt, wp_bind, wp_get, wp_onlyIf, wp_onDisk, wp_updateTorrent]
    have hsame := fun priority => hs'.1.trans (.setPriority s'.torrent index priority)
    refine ⟨fun _ => ?_, fun _ => ⟨hsame _, hs'.2⟩⟩
    exact wp_mono ((hJ.migratePriority E s'.torrent storage hpaths' hi _).wp hs'.2)
      (fun _ _ hd => ⟨hsame _, hd⟩) fun _ _ hd => hd
  · refine ⟨fun _ => ?_, fun _ => hs'.2⟩
    refine wp_onDisk.mpr ((keeps_bind (hJ.closeWhere E _) fun _ => ?_).wp hs'.2)
    exact keeps_bind (hJ.callRemove E _ (hJ.safe _ s'.torrent.safe_partPath)) fun _ =>
      keeps_throwIf _

/-! ## Jobs -/

/-- **Every job keeps every such property of the log.** -/
theorem Logs.runJob (job : Job) {s : Sys W}
    (hpaths : ∀ i < s.torrent.numFiles, P (s.torrent.pathFor i)) (hs : J s.disk.trace) :
    J (runJob E reuse storage job s).2.disk.trace := by
  cases job with
  | read request => exact hJ.readBlock E reuse s.torrent storage request s.disk hs
  | write request bytes => exact hJ.writeBlock E reuse s.torrent storage request bytes s.disk hs
  | hash piece v1 room => exact hJ.asyncHash E reuse s.torrent storage piece v1 room s.disk hs
  | hash2 piece offset => exact hJ.asyncHash2 E reuse s.torrent storage piece offset s.disk hs
  | moveStorage path flags => exact hJ.asyncMoveStorage E storage path flags hs
  | releaseFiles => exact hJ.closeWhere E _ s.disk hs
  | checkFiles resume links =>
    exact hJ.asyncCheckFiles E reuse s.torrent storage hpaths resume links s.disk hs
  | stopTorrent => exact hJ.closeWhere E _ s.disk hs
  | renameFile index name => exact hJ.asyncRenameFile E storage index name hpaths hs
  | deleteFiles files part =>
    exact hJ.asyncDeleteFiles E s.torrent storage hpaths files part s.disk hs
  | setFilePriority priorities => exact hJ.asyncSetFilePriority E storage priorities hpaths hs
  | clearPiece piece => exact hs

end Pass

/-! ## The log only grows -/

/-- The smallest property of all: the log only grows. -/
theorem logs_grows (log : List (Event W)) : Logs (fun _ => True) (fun trace => log <:+ trace) :=
  ⟨fun _ _ => trivial, fun event trace _ h => h.trans (List.suffix_cons event trace)⟩

/-- What has been logged stays logged. -/
theorem runJob_trace_suffix (E : Env W) (reuse : Bool) (storage : Nat) (job : Job) (s : Sys W) :
    s.disk.trace <:+ (runJob E reuse storage job s).2.disk.trace :=
  (logs_grows s.disk.trace).runJob E reuse storage job (fun _ _ => trivial) (List.suffix_refl _)

theorem runJobs_trace_suffix (E : Env W) (reuse : Bool) (storage : Nat) (jobs : List Job)
    (s : Sys W) : s.disk.trace <:+ (runJobs E reuse storage jobs s).2.disk.trace :=
  runJobs_induct E reuse storage (I := fun s' => s.disk.trace <:+ s'.disk.trace)
    (fun job _ s' h => h.trans (runJob_trace_suffix E reuse storage job s')) (List.suffix_refl _)

end Saf
end Libtorrent4j
