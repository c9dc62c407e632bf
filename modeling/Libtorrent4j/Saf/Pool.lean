import Libtorrent4j.Lib.Recency
import Libtorrent4j.Saf.Accounting

/-!
# The pool of descriptors

`m_descriptors` is a vector whose entries carry the number of their last use. What it is for is
said by the same entries **by recency**: a pool of the most recently used descriptors, each under
a key of its own. `Access` is one `open_file` on such a pool. A hit brings the entry to the
front, a miss throws out what is beyond the room left and puts the new entry there, and an entry
that is only readable where a writable one is wanted makes way for a miss.

`PoolInvariant` is what only the operations of the pool have to keep for every job to keep it.
`Neat` is the one in use here: no two entries have the same key, or the same last use.
-/

namespace Libtorrent4j
namespace Saf

open Lib Lib.Exec

variable {W F α : Type}

/-! ## Invariants of the pool

Every job reaches the pool through the same three doors. An invariant that these keep is kept by
all jobs on all their exits. -/

/-- What survives the calls, the closing of entries and `open_file`. -/
structure PoolInvariant (E : Env W) (I : Disk W → Prop) : Prop where
  note : ∀ d w event, I d → I (d.note w event)
  close : ∀ d (p : OpenDescriptor → Bool), I d →
    I { d with descriptors := d.descriptors.filter p }
  openFile : ∀ storage file path write operation,
    Keeps I (openFile E true storage file path write operation)

section Pass

variable {E : Env W} {I : Disk W → Prop} (hI : PoolInvariant E I)

namespace PoolInvariant

include hI

/-- No call of the bridge touches the pool. -/
theorem ask {call : W → α × W} {event : α → Event W} :
    Keeps I (ask call event : Exec (Disk W) F α) := fun d hd => hI.note d _ _ hd

/-- What is closed is what is filtered out. -/
theorem closeWhere (p : OpenDescriptor → Bool) :
    Keeps I (closeWhere E p : Exec (Disk W) F Unit) := by
  refine keeps_bind keeps_get fun _ => keeps_bind (keeps_forEach fun _ _ => hI.ask) fun _ => ?_
  exact fun d hd => hI.close d _ hd

/-- A scoped descriptor has never been in the pool. -/
theorem resetScoped (descriptor : Int) :
    Keeps I (resetScoped E descriptor : Exec (Disk W) F Unit) :=
  keeps_ite (fun _ => hI.ask) fun _ => keeps_ret ()

theorem ensureParentDirectories (path : Path) (file : Int) :
    Keeps I (ensureParentDirectories E path file) :=
  keeps_throwIf_bind fun _ => keeps_forEach fun _ _ => keeps_bind hI.ask fun _ => keeps_throwIf _

theorem truncateTo (descriptor : Int) (size index : Nat) :
    Keeps I (truncateTo E descriptor size index) :=
  keeps_truncateTo E (fun w d hd => hI.note d w _ hd) size index

theorem copyLoop (source : Option (Int × Nat)) (destination : Int)
    (destinationOffset size : Nat) (readError writeError : Int → StorageError) (copied : Nat) :
    Keeps I (copyLoop E source destination destinationOffset size readError writeError copied) :=
  keeps_copyLoop E (fun _ _ w d hd => hI.note d w _ hd) (fun w d hd => hI.note d w _ hd) _ _ _ _ _

/-- Copies open past the pool, in scopes of their own. -/
theorem copyPublicFile (source destination : Path) (size index : Nat) :
    Keeps I (copyPublicFile E source destination size index) := by
  refine keeps_throwIf_bind fun _ => keeps_bind (hI.ensureParentDirectories _ _) fun _ => ?_
  refine keeps_bind hI.ask fun from' => keeps_ensuring (keeps_throwIf_bind fun _ => ?_)
    (hI.resetScoped _)
  refine keeps_bind hI.ask fun to' => keeps_ensuring (keeps_throwIf_bind fun _ => ?_)
    (hI.resetScoped _)
  exact keeps_bind (hI.truncateTo _ _ _) fun _ => hI.copyLoop _ _ _ _ _ _ _

variable (t : TorrentStorage) (storage : Nat)

/-- Only the slices of files go through `open_file`. -/
theorem readBlock (request : Request) : Keeps I (readBlock E true t storage request) := by
  suffices key : ∀ slices out, Keeps I (readSlices E true t storage slices out) from key _ _
  intro slices
  induction slices with
  | nil => exact fun out => keeps_ret _
  | cons slice rest ih =>
    refine fun out => keeps_ite (fun _ => ih _) fun _ => ?_
    refine keeps_bind (keeps_mapError (keeps_bind (keeps_mapError ?_) fun _ => ?_))
      fun bytes => ih _
    · exact hI.openFile _ _ _ _ _
    · exact keeps_readWhole E (fun w d hd => hI.note d w _ hd) _ _ _ _

theorem writeBlock (request : Request) (input : List Byte) :
    Keeps I (writeBlock E true t storage request input) := by
  suffices key : ∀ slices input, Keeps I (writeSlices E true t storage slices input) from
    key _ _
  intro slices
  induction slices with
  | nil => exact fun input => keeps_ret _
  | cons slice rest ih =>
    refine fun input => keeps_ite (fun _ => ih _) fun _ => ?_
    refine keeps_bind (keeps_bind ?_ fun _ => ?_) fun _ => ih _
    · exact hI.openFile _ _ _ _ _
    · exact keeps_writeWhole E (fun w d hd => hI.note d w _ hd) _ _ _ _ _

theorem migrateCopy (index : Nat) (toPart : Bool) : Keeps I (migrateCopy E t index toPart) := by
  refine keeps_bind hI.ask fun from' => keeps_throwIf_bind fun _ => ?_
  unfold migrateFrom migrateTo
  refine keeps_bind (keeps_attempt (keeps_bind (hI.ensureParentDirectories _ _) fun _ =>
    hI.ask)) fun opened => ?_
  split
  · exact keeps_bind (hI.resetScoped _) fun _ => keeps_throw _
  refine keeps_bind (keeps_attempt (keeps_throwIf_bind fun _ => keeps_bind (keeps_onlyIf fun _ =>
    hI.truncateTo _ _ _) fun _ => hI.copyLoop _ _ _ _ _ _ _)) fun copied => ?_
  split
  · exact keeps_bind (hI.resetScoped _) fun _ => keeps_bind (hI.resetScoped _) fun _ =>
      keeps_throw _
  · exact keeps_bind (hI.resetScoped _) fun _ => hI.resetScoped _

/-- The file is closed in the pool first, then migrated past it. -/
theorem migratePriority (index : Nat) (toPart : Bool) :
    Keeps I (migratePriority E t storage index toPart) := by
  refine keeps_ite (fun _ => keeps_ret _) fun _ => ?_
  refine keeps_bind (hI.closeWhere _) fun _ => keeps_bind (hI.closeWhere _) fun _ => ?_
  refine keeps_bind (hI.migrateCopy t index toPart) fun _ => keeps_onlyIf fun _ => ?_
  exact keeps_bind hI.ask fun _ => keeps_throwIf _

theorem initializeFiles : Keeps I (initializeFiles E true t storage) := by
  refine keeps_bind (keeps_mapEach fun index _ => ?_) fun _ => keeps_ret _
  refine keeps_bind hI.ask fun _ => keeps_bind (keeps_mapError ?_) fun _ => keeps_ret _
  exact keeps_bind (hI.openFile _ _ _ _ _) fun _ => hI.truncateTo _ _ _

theorem checkResumeFiles (seed exactSize : Bool) (files : List Nat) (status : Status) :
    Keeps I (checkResumeFiles E t seed exactSize files status) := by
  induction files generalizing status with
  | nil => exact keeps_ret _
  | cons index rest ih =>
    refine keeps_ite (fun _ => ih _) fun _ => keeps_bind hI.ask fun _ => ?_
    exact keeps_throwIf_bind fun _ => ih _

/-- A resume is checked past the pool; files are made through it. -/
theorem asyncCheckFiles (resume : Option Resume) (links : List Path) :
    Keeps I (asyncCheckFiles E true t storage resume links) := by
  refine keeps_throwIf_bind fun _ => ?_
  cases resume with
  | none => exact hI.initializeFiles t storage
  | some resume =>
    refine keeps_ite (fun _ => ?_) fun _ => hI.initializeFiles t storage
    exact keeps_ite (fun _ => hI.checkResumeFiles t _ _ _ _) fun _ =>
      hI.checkResumeFiles t _ _ _ _

/-- The storage leaves the pool before its documents go. -/
theorem asyncDeleteFiles (deleteFiles deletePartfile : Bool) :
    Keeps I (asyncDeleteFiles E t storage deleteFiles deletePartfile) := by
  have hremove : ∀ path file, Keeps I (removeLater E path file) := fun path file =>
    keeps_bind hI.ask fun _ => keeps_ret _
  refine keeps_bind (hI.closeWhere _) fun _ => ?_
  refine keeps_bind (keeps_mapEach fun _ _ => hremove _ _) fun _ => ?_
  refine keeps_bind (keeps_mapEach fun _ _ => hremove _ _) fun _ => ?_
  split
  · exact keeps_throw _
  · exact keeps_ret _

theorem asyncHash (piece : Nat) (v1 : Bool) (room : Nat) :
    Keeps I (asyncHash E true t storage piece v1 room) :=
  keeps_bind
    (keeps_ite (fun _ => keeps_mapError (hI.readBlock t storage _)) fun _ => keeps_ret _)
    fun _ => keeps_throwIf_bind fun _ => keeps_ret _

theorem asyncHash2 (piece offset : Nat) : Keeps I (asyncHash2 E true t storage piece offset) :=
  keeps_throwIf_bind fun _ =>
    keeps_bind (keeps_mapError (hI.readBlock t storage _)) fun _ => keeps_ret _

theorem checkMove (root : Path) : Keeps I (checkMove E t storage root) := by
  refine keeps_bind (hI.closeWhere _) fun _ => ?_
  refine keeps_bind (keeps_forEach fun _ _ => keeps_throwIf _) fun _ => ?_
  refine keeps_bind (keeps_forEach fun _ _ => keeps_throwIf _) fun _ => ?_
  refine keeps_bind (keeps_ite (fun _ => keeps_ret _) fun _ => hI.ask) fun _ => ?_
  exact keeps_throwIf_bind fun _ => keeps_ret _

theorem statOperations (flags : MoveFlags) (operations : List MoveOperation) (status : Status) :
    Keeps I (statOperations E flags operations status) := by
  induction operations generalizing status with
  | nil => exact keeps_ret _
  | cons operation rest ih =>
    refine keeps_bind hI.ask fun _ => keeps_throwIf_bind fun _ => ?_
    refine keeps_bind hI.ask fun _ => keeps_throwIf_bind fun _ => ?_
    exact keeps_bind (ih _) fun _ => keeps_ret _

theorem statMove (root : Path) (flags : MoveFlags) (operations : List MoveOperation) :
    Keeps I (statMove E t root flags operations) := by
  refine keeps_bind (keeps_onlyIf fun _ => keeps_forEach fun _ _ => ?_) fun _ =>
    hI.statOperations flags operations _
  refine keeps_ite (fun _ => keeps_ret _) fun _ => keeps_bind hI.ask fun _ => ?_
  exact keeps_throwIf_bind fun _ => keeps_throwIf _

theorem copyOperations (operations : List MoveOperation) (status : Status) :
    Keeps I (copyOperations E operations status) :=
  keeps_forEach fun _ _ => keeps_onlyIf fun _ => keeps_mapError (hI.copyPublicFile _ _ _ _)

theorem removeSources (operations : List MoveOperation) (destinations : List Path) :
    Keeps I (removeSources E operations destinations) :=
  keeps_forEach fun _ _ => keeps_onlyIf fun _ => keeps_bind hI.ask fun _ => keeps_ret _

omit hI in
theorem onDisk {m : Exec (Disk W) F α} (h : Keeps I m) :
    Keeps (fun s : Sys W => I s.disk) (onDisk m) :=
  keeps_zoom h (fun _ hs => hs) fun _ _ _ hd => hd

omit hI in
theorem updateTorrent (f : TorrentStorage → TorrentStorage) :
    Keeps (fun s : Sys W => I s.disk) (updateTorrent f : Exec (Sys W) F Unit) := fun _ hs => hs

/-- The storage leaves the pool before anything is looked at. -/
theorem asyncMoveStorage (path : Path) (flags : MoveFlags) :
    Keeps (fun s : Sys W => I s.disk) (asyncMoveStorage E storage path flags) := by
  refine keeps_throwIf_bind fun _ => keeps_bind keeps_get fun s => ?_
  refine keeps_bind (onDisk (hI.checkMove _ _ _)) fun operations => ?_
  refine keeps_ite (fun _ => keeps_bind (updateTorrent _) fun _ => keeps_ret _) fun _ => ?_
  refine keeps_bind (onDisk (hI.statMove _ _ _ _)) fun answer => ?_
  refine keeps_bind (onDisk (hI.copyOperations _ _)) fun _ => ?_
  refine keeps_bind (updateTorrent _) fun _ => ?_
  exact keeps_bind (onDisk (hI.removeSources _ _)) fun _ => keeps_ret _

theorem asyncRenameFile (index : Int) (name : Path) :
    Keeps (fun s : Sys W => I s.disk) (asyncRenameFile E storage index name) := by
  refine keeps_bind keeps_get fun s => keeps_throwIf_bind fun _ => ?_
  refine keeps_bind (onDisk (hI.closeWhere _)) fun _ => ?_
  refine keeps_bind (onDisk (hI.ensureParentDirectories _ _)) fun _ => ?_
  refine keeps_bind (onDisk hI.ask) fun _ => ?_
  exact keeps_throwIf_bind fun _ => updateTorrent _

theorem asyncSetFilePriority (priorities : List Priority) :
    Keeps (fun s : Sys W => I s.disk) (asyncSetFilePriority E storage priorities) := by
  refine keeps_bind keeps_get fun s => keeps_bind (keeps_forEach fun index _ => ?_) fun _ => ?_
  · refine keeps_bind keeps_get fun s => keeps_bind (keeps_onlyIf fun _ => ?_) fun _ =>
      updateTorrent _
    exact onDisk (hI.migratePriority _ _ _ _)
  · refine keeps_bind keeps_get fun s => keeps_onlyIf fun _ => onDisk ?_
    exact keeps_bind (hI.closeWhere _) fun _ => keeps_bind hI.ask fun _ => keeps_throwIf _

/-- Every job, on every exit. -/
theorem runJob (job : Job) {s : Sys W} (hs : I s.disk) :
    I (runJob E true storage job s).2.disk := by
  cases job with
  | read request => exact onDisk (hI.readBlock _ storage _) s hs
  | write request bytes => exact onDisk (hI.writeBlock _ storage _ _) s hs
  | hash piece v1 room => exact onDisk (hI.asyncHash _ storage _ _ _) s hs
  | hash2 piece offset => exact onDisk (hI.asyncHash2 _ storage _ _) s hs
  | moveStorage path flags => exact hI.asyncMoveStorage storage path flags s hs
  | releaseFiles => exact onDisk (hI.closeWhere _) s hs
  | checkFiles resume links => exact onDisk (hI.asyncCheckFiles _ storage _ _) s hs
  | stopTorrent => exact onDisk (hI.closeWhere _) s hs
  | renameFile index name => exact hI.asyncRenameFile storage index name s hs
  | deleteFiles files part => exact onDisk (hI.asyncDeleteFiles _ storage _ _) s hs
  | setFilePriority priorities => exact hI.asyncSetFilePriority storage priorities s hs
  | clearPiece piece => exact hs

/-- Every action, if the limit and the world do not matter. -/
theorem act (hlimit : ∀ d filePoolSize, I d → I (Disk.settingsUpdated d filePoolSize))
    (hworld : ∀ d w, I d → I { d with world := w }) (action : Action) {server : Server W}
    (h : I server.disk) : I (server.act E true action).disk := by
  cases action with
  | perform job =>
    cases job with
    | run object storage job =>
      simp only [Server.act, Server.perform]
      split
      · exact h
      · exact hI.runJob storage job h
    | release storage => exact hI.closeWhere _ _ h
    | clearPiece piece => exact h
    | closeStorage storage => exact hI.closeWhere _ _ h
  | settings filePoolSize => exact hlimit _ _ h
  | newTorrent params =>
    simp only [Server.act]
    split
    · exact hworld _ _ h
    · exact hworld _ _ h

end PoolInvariant

end Pass

/-! ## Keys and last uses

The vector is searched by key and evicted by last use. Both find one entry at most, because no
two entries agree in either. -/

/-- What `open_file` searches for. -/
def OpenDescriptor.key (entry : OpenDescriptor) : Nat × Int × Path :=
  (entry.storage, entry.file, entry.path)

/-- The code's test is equality of keys. -/
theorem isFor_iff_key {storage : Nat} {file : Int} {path : Path} {entry : OpenDescriptor} :
    entry.isFor storage file path = true ↔ entry.key = (storage, file, path) := by
  simp [isFor_iff, OpenDescriptor.key]

/-- No two entries have one key, or one last use, and the last uses have been counted. -/
structure Neat (d : Disk W) : Prop where
  keys : (d.descriptors.map OpenDescriptor.key).Nodup
  stamps : (d.descriptors.map (·.lastUse)).Nodup
  counted : ∀ entry ∈ d.descriptors, entry.lastUse ≤ d.useCounter

/-- The entries of the pool by recency. -/
abbrev Disk.Ordered (d : Disk W) (order : List OpenDescriptor) : Prop :=
  ByRecency (·.lastUse) d.descriptors order

/-- The order is about the entries only. -/
theorem Disk.Ordered.congr {d d' : Disk W} {order : List OpenDescriptor} (h : d.Ordered order)
    (hentries : d'.descriptors = d.descriptors) : d'.Ordered order := by
  unfold Disk.Ordered
  rw [hentries]
  exact h

/-- Stamping replaces the entry that is found. -/
theorem perm_touchFirst {p : OpenDescriptor → Bool} {use : Nat} {entries : List OpenDescriptor}
    {entry : OpenDescriptor} (h : entries.find? p = some entry) :
    (touchFirst p use entries).Perm ({ entry with lastUse := use } :: entries.eraseP p) := by
  induction entries with
  | nil => simp at h
  | cons first rest ih =>
    by_cases hp : p first = true
    · rw [List.find?_cons_of_pos hp] at h
      rw [List.eraseP_cons_of_pos hp, touchFirst, if_pos hp, Option.some.inj h]
    · rw [List.find?_cons_of_neg hp] at h
      rw [List.eraseP_cons_of_neg hp, touchFirst, if_neg hp]
      exact ((ih h).cons first).trans (List.Perm.swap _ _ _)

/-- `std::min_element` finds the least last use. -/
theorem oldest_least {entries : List OpenDescriptor} {entry : OpenDescriptor}
    (h : oldest entries = some entry) : ∀ other ∈ entries, entry.lastUse ≤ other.lastUse := by
  induction entries generalizing entry with
  | nil => simp [oldest] at h
  | cons first rest ih =>
    intro other hother
    unfold oldest at h
    split at h
    · rename_i hnone
      obtain rfl := Option.some.inj h
      rw [oldest_eq_none hnone, List.mem_singleton] at hother
      rw [hother]
    · rename_i least hleast
      have hrest := ih hleast
      split at h
      · rename_i hlt
        obtain rfl := Option.some.inj h
        rcases List.mem_cons.mp hother with rfl | hother
        · exact hlt.le
        · exact hrest other hother
      · rename_i hge
        obtain rfl := Option.some.inj h
        rcases List.mem_cons.mp hother with rfl | hother
        · exact le_rfl
        · exact (Nat.le_of_not_lt hge).trans (hrest other hother)

namespace Neat

variable {d d' : Disk W} {order : List OpenDescriptor}

/-- An empty pool is neat. -/
theorem start (w : W) (filePoolSize : Int) : Neat (Server.start w filePoolSize).disk :=
  ⟨List.nodup_nil, List.nodup_nil, nofun⟩

/-- By the last uses, which are different from one another. -/
theorem exists_order (h : Neat d) : ∃ order, d.Ordered order := ByRecency.exists_order h.stamps

/-- What is closed cannot make two entries equal. -/
theorem sublist (h : Neat d) (hentries : d'.descriptors.Sublist d.descriptors)
    (huse : d'.useCounter = d.useCounter) : Neat d' := by
  refine ⟨h.keys.sublist (hentries.map _), h.stamps.sublist (hentries.map _), fun entry he => ?_⟩
  rw [huse]
  exact h.counted entry (hentries.subset he)

/-- A search has at most one answer. -/
theorem eq_of_isFor (h : Neat d) {storage : Nat} {file : Int} {path : Path}
    {a b : OpenDescriptor} (ha : a ∈ d.descriptors) (hb : b ∈ d.descriptors)
    (hfor : a.isFor storage file path = true) (hfor' : b.isFor storage file path = true) :
    a = b := by
  refine List.inj_on_of_nodup_map h.keys ha hb ?_
  rw [isFor_iff_key.mp hfor, isFor_iff_key.mp hfor']

/-- The search finds the same in the vector and in the order. -/
theorem find? (h : Neat d) (horder : d.Ordered order) (storage : Nat) (file : Int) (path : Path) :
    order.find? (·.isFor storage file path) = d.descriptors.find? (·.isFor storage file path) :=
  horder.find? fun _ ha _ hb hfor hfor' => h.eq_of_isFor ha hb hfor hfor'

/-- A new entry, under a key that is not in use. -/
theorem added (h : Neat d) (horder : d.Ordered order) {entry : OpenDescriptor}
    (hkey : entry.key ∉ d.descriptors.map OpenDescriptor.key)
    (huse : entry.lastUse = d.useCounter + 1)
    (hentries : d'.descriptors.Perm (entry :: d.descriptors))
    (hcount : d'.useCounter = d.useCounter + 1) :
    Neat d' ∧ d'.Ordered (entry :: order) := by
  have hordered : d'.Ordered (entry :: order) := by
    refine (horder.push fun b hb => ?_).of_perm
      ((List.perm_append_singleton entry d.descriptors).trans hentries.symm)
    have := h.counted b hb
    rw [huse]
    omega
  refine ⟨⟨?_, hordered.nodup, fun e he => ?_⟩, hordered⟩
  · exact (hentries.map _).nodup_iff.mpr (List.nodup_cons.mpr ⟨hkey, h.keys⟩)
  · rw [hcount]
    rcases List.mem_cons.mp (hentries.mem_iff.mp he) with rfl | he
    · exact huse.le
    · exact (h.counted e he).trans (Nat.le_succ _)

end Neat

/-! ## An access of the pool

The order by recency tells what the vector's counters are for. -/

/-- The pool after an entry under the key has made way: it was only readable. -/
inductive MakesWay (storage : Nat) (file : Int) (path : Path) (write : Bool)
    (order : List OpenDescriptor) : List OpenDescriptor → Prop
  | absent (hnone : order.find? (·.isFor storage file path) = none) : MakesWay storage file path
      write order order
  | readOnly {entry : OpenDescriptor}
      (hfound : order.find? (·.isFor storage file path) = some entry) (hwrite : write = true)
      (hmode : entry.writable = false) : MakesWay storage file path write order (order.erase entry)

/-- Why the bridge is not asked to open the file, and the error told. A write fails on an unsafe
    path when it is about to make the parent directories. -/
inductive Refusal (file : Int) (path : Path) (write : Bool) (operation : Operation) :
    StorageError → Prop
  | unsafePath (hpath : safeRelativePath path = false) :
      Refusal file path write operation
        (invalidArgument file (if write then .mkdir else operation))
  | noDirectory (hwrite : write = true) {result : Int} (hfailed : result < 0)
      (hnew : result ≠ -eexist) :
      Refusal file path write operation (makeError result file .mkdir)

/-- One `open_file` on a pool by recency, with room for `limit` entries: what the bridge has
    answered, if it has been asked to open the file, what `open_file` answers, and the pool
    afterwards. `use` is the number of the use. -/
inductive Access (limit use storage : Nat) (file : Int) (path : Path) (write : Bool)
    (operation : Operation) (order : List OpenDescriptor) :
    Option Int → Except StorageError Int → List OpenDescriptor → Prop
  | hit {entry : OpenDescriptor}
      (hfound : order.find? (·.isFor storage file path) = some entry)
      (hmode : write = false ∨ entry.writable = true) :
      Access limit use storage file path write operation order none (.ok entry.descriptor)
        ({ entry with lastUse := use } :: order.erase entry)
  | miss {base : List OpenDescriptor} (hbase : MakesWay storage file path write order base)
      (hsafe : safeRelativePath path = true) {descriptor : Int} (hopen : 0 ≤ descriptor) :
      Access limit use storage file path write operation order (some descriptor) (.ok descriptor)
        (⟨storage, file, path, descriptor, write, use⟩ :: base.take (limit - 1))
  /-- Nothing is dropped for the new entry. -/
  | refused {base : List OpenDescriptor} (hbase : MakesWay storage file path write order base)
      {error : StorageError} (hrefusal : Refusal file path write operation error) :
      Access limit use storage file path write operation order none (.error error) base
  /-- There is room, but nothing to put there. -/
  | notOpened {base : List OpenDescriptor} (hbase : MakesWay storage file path write order base)
      (hsafe : safeRelativePath path = true) {result : Int} (hfailed : result < 0) :
      Access limit use storage file path write operation order (some result)
        (.error (makeError result file operation)) (base.take (limit - 1))

/-- An answer to `open_file` in the log. -/
def Event.opening : Event W → Option (Path × Mode × Int)
  | .openFile path mode result => some (path, mode, result)
  | _ => none

/-- What the bridge has been asked to open between `d` and `d'`, and its answers. -/
def Disk.Opens (d d' : Disk W) (asked : List (Path × Mode × Int)) : Prop :=
  ∃ new, d'.trace = new ++ d.trace ∧ new.filterMap Event.opening = asked

namespace Disk.Opens

variable {d d' d'' : Disk W} {asked : List (Path × Mode × Int)}

theorem refl (d : Disk W) : d.Opens d [] := ⟨[], rfl, rfl⟩

/-- The log grows at its front, so the later answers stand first. -/
theorem trans {more : List (Path × Mode × Int)} (h : d.Opens d' asked) (h' : d'.Opens d'' more) :
    d.Opens d'' (more ++ asked) := by
  obtain ⟨new, htrace, rfl⟩ := h
  obtain ⟨new', htrace', rfl⟩ := h'
  exact ⟨new' ++ new, by rw [htrace', htrace, List.append_assoc], List.filterMap_append⟩

/-- Any other event. -/
theorem quiet (h : d.Opens d' asked) {event : Event W} (hquiet : event.opening = none)
    (htrace : d''.trace = event :: d'.trace) : d.Opens d'' asked := by
  have hone : d'.Opens d'' [] := ⟨[event], htrace, by simp [hquiet]⟩
  exact h.trans hone

end Disk.Opens

section Open

variable (E : Env W) {d : Disk W} {order : List OpenDescriptor}

/-- Making room leaves the key, the counter and the limit as they are. -/
structure Evicted (d : Disk W) (order : List OpenDescriptor) (d' : Disk W) : Prop where
  neat : Neat d'
  ordered : d'.Ordered order
  sublist : d'.descriptors.Sublist d.descriptors
  useCounter : d'.useCounter = d.useCounter
  limit : d'.limit = d.limit
  opens : d.Opens d' []

/-- The last entry of the order goes, for it has the least last use. -/
theorem evictOne_lru (h : Neat d) (horder : d.Ordered order) :
    wp (evictOne E : Exec (Disk W) F Unit)
      (fun _ d' => Evicted d (order.take (order.length - 1)) d') (fun _ _ => False) d := by
  simp only [evictOne, wp_bind, wp_get]
  split
  · rename_i hnone
    have hempty : order = [] := List.perm_nil.mp (oldest_eq_none hnone ▸ horder.perm)
    rw [hempty] at horder
    rw [wp_ret, hempty]
    exact ⟨h, horder, List.Sublist.refl _, rfl, rfl, .refl d⟩
  · rename_i entry hsome
    have hmem := mem_of_oldest hsome
    simp only [callClose, wp_bind, wp_ask, wp_modify, Disk.note_descriptors]
    exact ⟨h.sublist List.erase_sublist rfl, horder.evict hmem (oldest_least hsome),
      List.erase_sublist, rfl, rfl, (Disk.Opens.refl d).quiet rfl rfl⟩

/-- The most recent entries stay, as many as leave room for one. -/
theorem evictToLimit_lru (turns : Nat) (h : Neat d) (horder : d.Ordered order)
    (hturns : order.length ≤ turns) :
    wp (evictToLimit E turns : Exec (Disk W) F Unit)
      (fun _ d' => Evicted d (order.take (d.limit - 1)) d') (fun _ _ => False) d := by
  have hlen := horder.perm.length_eq
  have hkept : order.length ≤ d.limit - 1 → Evicted d (order.take (d.limit - 1)) d := by
    intro hroom
    rw [List.take_of_length_le hroom]
    exact ⟨h, horder, List.Sublist.refl _, rfl, rfl, .refl d⟩
  induction turns generalizing d order with
  | zero => exact hkept (by omega)
  | succ turns ih =>
    simp only [evictToLimit, wp_bind, wp_get]
    rw [wp_ite]
    refine ⟨fun hfull => ?_, fun hroom => hkept (by omega)⟩
    rw [wp_bind]
    refine wp_mono (evictOne_lru E h horder) ?_ fun _ _ hf => hf
    intro _ d₁ hone
    have hlen₁ := hone.ordered.perm.length_eq
    have hshort : (order.take (order.length - 1)).length ≤ turns := by
      rw [List.length_take]
      omega
    refine wp_mono (ih hone.neat hone.ordered hshort hlen₁ fun hroom => ?_) ?_ fun _ _ hf => hf
    · rw [List.take_of_length_le hroom]
      exact ⟨hone.neat, hone.ordered, List.Sublist.refl _, rfl, rfl, .refl d₁⟩
    · intro _ d₂ hrest
      have hprefix : (order.take (order.length - 1)).take (d₁.limit - 1) =
          order.take (d.limit - 1) := by
        rw [List.take_take, hone.limit, Nat.min_eq_left (by omega)]
      exact ⟨hrest.neat, hprefix ▸ hrest.ordered, hrest.sublist.trans hone.sublist,
        hrest.useCounter.trans hone.useCounter, hrest.limit.trans hone.limit,
        hone.opens.trans hrest.opens⟩

variable (storage : Nat) (file : Int) (path : Path) (write : Bool) (operation : Operation)

/-- The calls of `open_file` that are in the log when the bridge has given this answer, if any. -/
def openingOf (asked : Option Int) : List (Path × Mode × Int) :=
  (asked.map fun result => (path, if write then .readWrite else .read, result)).toList

/-- What is left of a pool, in which nothing is under the key, when the bridge has given this
    answer, if any. -/
inductive OpenedInPool (d : Disk W) (base : List OpenDescriptor) (d' : Disk W) :
    Option Int → Except StorageError Int → Prop
  | refused (hordered : d'.Ordered base) {error : StorageError}
      (hrefusal : Refusal file path write operation error) :
      OpenedInPool d base d' none (.error error)
  | notOpened (hsafe : safeRelativePath path = true) {result : Int} (hfailed : result < 0)
      (hordered : d'.Ordered (base.take (d.limit - 1))) :
      OpenedInPool d base d' (some result) (.error (makeError result file operation))
  | stored (hsafe : safeRelativePath path = true) {descriptor : Int} (hopen : 0 ≤ descriptor)
      (hordered : d'.Ordered (⟨storage, file, path, descriptor, write, d.useCounter + 1⟩ ::
        base.take (d.limit - 1))) :
      OpenedInPool d base d' (some descriptor) (.ok descriptor)

/-- After an open: the pool is neat still, and what is left of it agrees with the log. -/
def AfterOpen (d : Disk W) (base : List OpenDescriptor) (answer : Except StorageError Int)
    (d' : Disk W) : Prop :=
  Neat d' ∧ d'.limit = d.limit ∧ ∃ asked, d.Opens d' (openingOf path write asked) ∧
    OpenedInPool storage file path write operation d base d' asked answer

/-- Room first, then the bridge: a failed open has thrown out an entry all the same. -/
theorem openAndStore_lru (h : Neat d) (horder : d.Ordered order)
    (hkey : (storage, file, path) ∉ d.descriptors.map OpenDescriptor.key)
    (hmade : write = true → safeRelativePath path = true) :
    wp (openAndStore E storage file path write operation)
      (fun descriptor d' => AfterOpen storage file path write operation d order (.ok descriptor) d')
      (fun error d' =>
        AfterOpen storage file path write operation d order (.error error) d') d := by
  simp only [openAndStore, wp_bind, wp_throwIf, wp_get]
  refine ⟨fun hbad => ⟨h, rfl, none, .refl d, .refused horder ?_⟩, fun hsafe => ?_⟩
  · cases write with
    | false => exact .unsafePath hbad
    | true => exact absurd (hmade rfl) (by simp [hbad])
  rw [Bool.not_eq_false] at hsafe
  refine wp_mono (evictToLimit_lru E _ h horder horder.perm.length_eq.le) ?_ fun _ _ hf => hf.elim
  intro _ d₁ hroom
  let mode : Mode := if write then .readWrite else .read
  let result : Int := (E.openFile path mode d₁.world).1
  -- whatever follows the answer of the bridge is no call of `open_file`
  have hasked : d.Opens (d₁.note (E.openFile path mode d₁.world).2 (.openFile path mode result))
      (openingOf path write (some result)) := by
    have hcall : d₁.Opens (d₁.note (E.openFile path mode d₁.world).2
        (.openFile path mode result)) [(path, mode, result)] :=
      ⟨[.openFile path mode result], rfl, rfl⟩
    exact hroom.opens.trans hcall
  simp only [callOpenFile, wp_ask, wp_modify, wp_ret]
  refine ⟨fun hfailed => ⟨hroom.neat.sublist (List.Sublist.refl _) rfl, hroom.limit, some result,
    hasked, .notOpened hsafe hfailed hroom.ordered⟩, fun hopen => ?_⟩
  have hfree : (storage, file, path) ∉ d₁.descriptors.map OpenDescriptor.key :=
    fun hmem => hkey ((hroom.sublist.map _).subset hmem)
  let entry : OpenDescriptor :=
    ⟨storage, file, path, result, write, d₁.useCounter + 1⟩
  have hadded : ∀ d₂ : Disk W, d₂.descriptors = d₁.descriptors ++ [entry] →
      d₂.useCounter = d₁.useCounter + 1 →
        Neat d₂ ∧ d₂.Ordered (entry :: order.take (d.limit - 1)) := by
    intro d₂ hentries huse
    refine hroom.neat.added hroom.ordered hfree rfl ?_ huse
    rw [hentries]
    exact List.perm_append_singleton _ _
  refine ⟨(hadded _ rfl rfl).1, hroom.limit, some result, hasked.quiet rfl rfl,
    .stored hsafe (Int.not_lt.mp hopen) ?_⟩
  rw [← hroom.useCounter]
  exact (hadded _ rfl rfl).2

/-- The pool has not been touched, and nothing has been opened. -/
structure PoolUntouched (d d' : Disk W) : Prop where
  entries : d'.descriptors = d.descriptors
  useCounter : d'.useCounter = d.useCounter
  limit : d'.limit = d.limit
  opens : d.Opens d' []

/-- The creation of directories does not touch the pool. It fails for an unsafe path, or for a
    directory that neither is there nor can be made. -/
theorem ensureParentDirectories_pool (path : Path) (file : Int) (operation : Operation)
    (d : Disk W) :
    wp (ensureParentDirectories E path file)
      (fun _ d' => PoolUntouched d d' ∧ safeRelativePath path = true)
      (fun error d' => PoolUntouched d d' ∧ Refusal file path true operation error) d := by
  have hstart : PoolUntouched d d := ⟨rfl, rfl, rfl, .refl d⟩
  simp only [ensureParentDirectories, wp_bind, wp_throwIf]
  refine ⟨fun hbad => ⟨hstart, .unsafePath hbad⟩, fun hsafe => ?_⟩
  refine wp_forEach_inv (PoolUntouched d) hstart (fun directory _ d₁ h => ?_)
    fun _ h => ⟨h, by simpa using hsafe⟩
  simp only [callCreateDirectory, wp_bind, wp_ask, wp_throwIf]
  have hasked : PoolUntouched d (d₁.note (E.createDirectory directory d₁.world).2
      (.createDirectory directory (E.createDirectory directory d₁.world).1)) :=
    ⟨h.entries, h.useCounter, h.limit, h.opens.quiet rfl rfl⟩
  exact ⟨fun hfailed => ⟨hasked, .noDirectory rfl hfailed.1 hfailed.2⟩, fun _ => hasked⟩

/-- A write makes the parent directories before room is made, so that their failure costs no
    entry. -/
theorem openUncached_lru (h : Neat d) (horder : d.Ordered order)
    (hkey : (storage, file, path) ∉ d.descriptors.map OpenDescriptor.key) :
    wp (openUncached E storage file path write operation)
      (fun descriptor d' => AfterOpen storage file path write operation d order (.ok descriptor) d')
      (fun error d' =>
        AfterOpen storage file path write operation d order (.error error) d') d := by
  have hopen : ∀ d₁ : Disk W, PoolUntouched d d₁ →
      (write = true → safeRelativePath path = true) →
      wp (openAndStore E storage file path write operation)
        (fun descriptor d' =>
          AfterOpen storage file path write operation d order (.ok descriptor) d')
        (fun error d' =>
          AfterOpen storage file path write operation d order (.error error) d') d₁ := by
    rintro d₁ ⟨hentries, huse, hlimit, hopens⟩ hmade
    have hneat : Neat d₁ := h.sublist (hentries ▸ List.Sublist.refl _) huse
    have hsince : ∀ answer d', AfterOpen storage file path write operation d₁ order answer d' →
        AfterOpen storage file path write operation d order answer d' := by
      rintro answer d' ⟨hneat', hlimit', asked, hasked, hleft⟩
      refine ⟨hneat', hlimit'.trans hlimit, asked, by simpa using hopens.trans hasked, ?_⟩
      cases hleft with
      | refused hordered hrefusal => exact .refused hordered hrefusal
      | notOpened hsafe hfailed hordered => exact .notOpened hsafe hfailed (hlimit ▸ hordered)
      | stored hsafe hopen hordered => exact .stored hsafe hopen (huse ▸ hlimit ▸ hordered)
    exact wp_mono (openAndStore_lru E storage file path write operation hneat
      (horder.congr hentries) (hentries ▸ hkey) hmade) (fun _ _ => hsince _ _) fun _ _ => hsince _ _
  cases write with
  | false => exact hopen d ⟨rfl, rfl, rfl, .refl d⟩ fun hwrite => absurd hwrite Bool.false_ne_true
  | true =>
    simp only [openUncached, if_true, wp_bind]
    refine wp_mono (ensureParentDirectories_pool E path file operation d) ?_ ?_
    · intro _ d₁ hmade
      exact hopen d₁ hmade.1 fun _ => hmade.2
    · intro error d₁ hrefused
      have huntouched := hrefused.1
      exact ⟨h.sublist (huntouched.entries ▸ List.Sublist.refl _) huntouched.useCounter,
        huntouched.limit, none, huntouched.opens,
        .refused (horder.congr huntouched.entries) hrefused.2⟩

/-- **`open_file` is an access of the pool.** -/
theorem openFile_lru (h : Neat d) (horder : d.Ordered order) :
    let r := openFile E true storage file path write operation d
    Neat r.2 ∧ r.2.limit = d.limit ∧ ∃ asked order', d.Opens r.2 (openingOf path write asked) ∧
      r.2.Ordered order' ∧ Access d.limit (d.useCounter + 1) storage file path write operation
        order asked r.1 order' := by
  -- after an entry has made way, or when there is none
  have hmiss : ∀ (d₁ : Disk W) (base : List OpenDescriptor), d₁.useCounter = d.useCounter →
      d₁.limit = d.limit → d.Opens d₁ [] → Neat d₁ → d₁.Ordered base →
      MakesWay storage file path write order base →
      (storage, file, path) ∉ d₁.descriptors.map OpenDescriptor.key →
      let r := openUncached E storage file path write operation d₁
      Neat r.2 ∧ r.2.limit = d.limit ∧ ∃ asked order',
        d.Opens r.2 (openingOf path write asked) ∧ r.2.Ordered order' ∧
          Access d.limit (d.useCounter + 1) storage file path write operation order asked r.1
            order' := by
    intro d₁ base huse hlimit hopens hneat hordered hbase hkey r
    have hspec := openUncached_lru E storage file path write operation hneat hordered hkey
    have hopened : AfterOpen storage file path write operation d₁ base r.1 r.2 := by
      rcases hrun :
        openUncached E storage file path write operation d₁ with ⟨error | descriptor, d₂⟩
      · simpa [r, hrun] using wp_error hspec hrun
      · simpa [r, hrun] using wp_ok hspec hrun
    obtain ⟨hneat', hlimit', asked, hasked, hleft⟩ := hopened
    have hlog : d.Opens r.2 (openingOf path write asked) := by
      simpa using hopens.trans hasked
    refine ⟨hneat', hlimit'.trans hlimit, asked, ?_⟩
    rw [← huse, ← hlimit]
    generalize r.1 = answer at hleft ⊢
    cases hleft with
    | refused hold hrefusal => exact ⟨base, hlog, hold, .refused hbase hrefusal⟩
    | notOpened hsafe hfailed hevicted =>
      exact ⟨_, hlog, hevicted, .notOpened hbase hsafe hfailed⟩
    | stored hsafe hopen hnew => exact ⟨_, hlog, hnew, .miss hbase hsafe hopen⟩
  have hfind := h.find? horder storage file path
  intro r
  cases hfound : d.descriptors.find? (·.isFor storage file path) with
  | none =>
    have hr : r = openUncached E storage file path write operation d := by
      simp [r, openFile, Exec.get, bind, andThen, hfound]
    rw [hr]
    refine hmiss d order rfl rfl (.refl d) h horder (.absent (hfind.trans hfound)) fun hmem => ?_
    obtain ⟨entry, hentry, hkey⟩ := List.mem_map.mp hmem
    exact List.find?_eq_none.mp hfound entry hentry (isFor_iff_key.mpr hkey)
  | some entry =>
    have hmem := List.mem_of_find?_eq_some hfound
    have hfor := isFor_iff_key.mp (List.find?_some hfound)
    -- the pool without the entry
    have hsplit := perm_eraseP_of_find? hfound
    have hordered : ByRecency (·.lastUse)
        (d.descriptors.eraseP (·.isFor storage file path)) (order.erase entry) :=
      (horder.erase entry).of_perm
        (List.Perm.cons_inv ((List.perm_cons_erase hmem).symm.trans hsplit))
    have hkey : (storage, file, path) ∉
        (d.descriptors.eraseP (·.isFor storage file path)).map OpenDescriptor.key := by
      have hnodup := (hsplit.map OpenDescriptor.key).nodup_iff.mp h.keys
      rw [List.map_cons, List.nodup_cons, hfor] at hnodup
      exact hnodup.1
    have hneat : ∀ d₁ : Disk W, d₁.useCounter = d.useCounter →
        d₁.descriptors = d.descriptors.eraseP (·.isFor storage file path) → Neat d₁ :=
      fun d₁ huse hentries => h.sublist (hentries ▸ List.eraseP_sublist) huse
    by_cases hmode : write = false ∨ entry.writable = true
    · have hr : r = (.ok entry.descriptor, { d with
          descriptors := touchFirst (·.isFor storage file path) (d.useCounter + 1) d.descriptors
          useCounter := d.useCounter + 1
          trace := .reused entry.descriptor path d.world :: d.trace }) := by
        simp [r, openFile, Exec.get, Exec.modify, ret, bind, andThen, hfound, hmode]
      let used : OpenDescriptor := { entry with lastUse := d.useCounter + 1 }
      have hbase := hneat { d with
        descriptors := d.descriptors.eraseP (·.isFor storage file path) } rfl rfl
      have hfree : used.key ∉
          (d.descriptors.eraseP (·.isFor storage file path)).map OpenDescriptor.key := hfor ▸ hkey
      have hentries : r.2.descriptors.Perm
          (used :: d.descriptors.eraseP (·.isFor storage file path)) := by
        rw [hr]
        exact perm_touchFirst hfound
      obtain ⟨hneat', hordered'⟩ := hbase.added hordered hfree rfl hentries (by rw [hr])
      have hnone : d.Opens r.2 [] := by
        rw [hr]
        exact (Disk.Opens.refl d).quiet rfl rfl
      refine ⟨hneat', by rw [hr], none, _, hnone, hordered', ?_⟩
      rw [hr]
      exact .hit (hfind.trans hfound) hmode
    · have hr : r = openUncached E storage file path write operation
          { d.note (E.close entry.descriptor d.world) (.close entry.descriptor) with
            descriptors := d.descriptors.eraseP (·.isFor storage file path) } := by
        simp [r, openFile, callClose, ask, prim, Exec.get, Exec.modify, bind, andThen, hfound,
          hmode]
      push Not at hmode
      rw [hr]
      exact hmiss _ _ rfl rfl ((Disk.Opens.refl d).quiet rfl rfl) (hneat _ rfl rfl) hordered
        (.readOnly (hfind.trans hfound) (by simpa using hmode.1) (by simpa using hmode.2)) hkey

end Open

/-! ## Any run -/

/-- Neatness asks nothing of the world, and stamping keeps the last uses apart. -/
theorem poolInvariant_neat (E : Env W) : PoolInvariant E Neat where
  note _ _ _ h := h.sublist (List.Sublist.refl _) rfl
  close _ _ h := h.sublist List.filter_sublist rfl
  openFile storage file path write operation := by
    intro d h
    obtain ⟨order, horder⟩ := h.exists_order
    exact (openFile_lru E storage file path write operation h horder).1

theorem Neat.run (E : Env W) (actions : List Action) {server : Server W} (h : Neat server.disk) :
    Neat (server.run E true actions).disk := by
  refine Server.run_induct E true (I := fun server => Neat server.disk)
    (fun action server h => ?_) h
  exact (poolInvariant_neat E).act (fun _ _ h => h.sublist (List.Sublist.refl _) rfl)
    (fun _ _ h => h.sublist (List.Sublist.refl _) rfl) action h

end Saf
end Libtorrent4j
