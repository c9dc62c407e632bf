import Libtorrent4j.Saf.Alike
import Libtorrent4j.Saf.Tenants

/-!
# Jobs on two disks

**A job cannot tell disks apart that hold the same documents at the storage's paths**: it
reports the same, changes the torrent in the same way and leaves such disks again. The slots
may be different ones, one run may use the descriptor cache and the other not, and the caches
may hold what they like as long as both are coherent.

The operations that never use the cache need no more than `Alike`. Those that go through
`open_file` need the two caches to be coherent, and keep them so: that is `Twin`.
-/

namespace Libtorrent4j
namespace Saf

open Lib Lib.Exec TorrentStorage

variable {F : Path → Prop} {base : World} {K K' : Keys} {d d' e e' : Disk World} {ε : Type}

/-- Alike, with a coherent cache on both sides. -/
structure Twin (K K' : Keys) (F : Path → Prop) (base : World) (d d' : Disk World) : Prop
    extends Alike F base d d' where
  coherent : Coherent K d
  coherent' : Coherent K' d'

/-- What has only grown leaves the caches coherent. -/
theorem Twin.ahead (h : Twin K K' F base d d') (hs : Ahead F base d d' e e') :
    Twin K K' F base e e' :=
  ⟨hs.toAlike, h.coherent.grows hs.grows, h.coherent'.grows hs.grows'⟩

/-- A program that lets both disks grow and never looks at the cache. -/
theorem agree_twin {α : Type} {m n : Exec (Disk World) ε α}
    (h : ∀ d d', Agree (Ahead F base d d') m n) : Agree (Twin K K' F base) m n :=
  fun d d' hs => wp2_mono (h d d' d d' (.refl hs.toAlike)) (fun _ _ _ _ h => ⟨h.1, hs.ahead h.2⟩)
    fun _ _ _ h => hs.ahead h

variable (G : Host) (reuse reuse' : Bool)

/-- **The cache cannot be seen**: whether a descriptor is handed out again or not, two calls of
    `open_file` for one path open its document on both sides, or fail alike. -/
theorem wp2_openFile (h : Twin K K' F base d d') {storage storage' : Nat} {file : Int} {path : Path}
    {write : Bool} {operation : Operation}
    (hkey : safeRelativePath path = true → K storage file path)
    (hkey' : safeRelativePath path = true → K' storage' file path)
    (hpath : safeRelativePath path = true → F path)
    {Q : Int → Int → Disk World → Disk World → Prop}
    (hopen : ∀ fd fd' e e', Twin K K' F base e e' → Open F e e' path write fd fd' → Q fd fd' e e') :
    wp2 (openFile G.env reuse storage file path write operation)
      (openFile G.env reuse' storage' file path write operation) Q
      (fun _ => Twin K K' F base) d d' := by
  refine wp2_of_wp (openFile_spec G reuse h.coherent hkey)
    (openFile_spec G reuse' h.coherent' hkey')
    ?_ ?_ ?_ ?_
  · -- both open it
    intro fd fd' e e' ho ho'
    have hF := hpath ho.safe
    refine hopen fd fd' e e' ⟨⟨ho.coherent.sound, ho'.coherent.sound, ho.kept.willing h.willing,
      ho'.kept.willing h.willing', ho.kept.validate.trans h.validate,
      ho'.kept.validate.trans h.validate', ?_, fun p hp => ?_, fun p hp => ?_⟩, ho.coherent,
      ho'.coherent⟩ ⟨hF, ho.refers, ho'.refers⟩
    · rw [ho.io, ho'.io, h.io]
    · rw [ho.tree, ho'.tree]
      exact World.touched_congr hF h.tree _ p hp
    · rw [ho.tree, World.touched_of_ne (by rintro rfl; exact hp hF)]
      exact h.frame p hp
  · -- both fail, and for the same reason
    intro error error' e e' hn hn'
    refine ⟨(hn.reason h.willing).2.trans (hn'.reason h.willing').2.symm,
      ⟨hn.coherent.sound, hn'.coherent.sound, hn.kept.willing h.willing,
        hn'.kept.willing h.willing', hn.kept.validate.trans h.validate,
        hn'.kept.validate.trans h.validate', ?_, fun p hp => ?_, fun p hp => ?_⟩,
      hn.coherent, hn'.coherent⟩
    · rw [hn.io, hn'.io, h.io]
    · rw [hn.tree, hn'.tree, h.tree p hp]
    · rw [hn.tree]
      exact h.frame p hp
  · -- the path is unsafe on both sides, and a document missing on one is missing on the other
    intro fd error e e' ho hn
    rcases (hn.reason h.willing').1 with hunsafe | ⟨hwrite, hnone⟩
    · rw [ho.safe] at hunsafe
      cases hunsafe
    · exact ho.found hwrite ((h.tree path (hpath ho.safe)).trans hnone)
  · intro error fd' e e' hn ho
    rcases (hn.reason h.willing).1 with hunsafe | ⟨hwrite, hnone⟩
    · rw [ho.safe] at hunsafe
      cases hunsafe
    · exact ho.found hwrite ((h.tree path (hpath ho.safe)).symm.trans hnone)

/-! ## Reading, writing, hashing

Whatever goes through `open_file` needs the caches coherent: what is handed out again has to be
the document that an open would have found. -/

section Cached

variable {t : TorrentStorage} {storage storage' : Nat}
  (hK : ∀ file path, t.keys storage storage file path → K storage file path)
  (hK' : ∀ file path, t.keys storage' storage' file path → K' storage' file path)
  (hF : ∀ path ∈ t.usedPaths, F path)

include hK hK' hF

theorem agree_readSlice {slice : FileSlice} (hpad : t.files.padFileAt slice.fileIndex = false) :
    Agree (Twin K K' F base) (readSlice G.env reuse t storage slice)
      (readSlice G.env reuse' t storage' slice) := by
  intro d d' h
  refine wp2_bind (wp2_mapError (wp2_openFile G reuse reuse' h
    (fun hsafe => hK _ _ (keys_home hpad hsafe)) (fun hsafe => hK' _ _ (keys_home hpad hsafe))
    (fun hsafe => hF _ (homePath_mem hsafe)) ?_))
  intro fd fd' e e' hs hopen
  exact wp2_mono (hopen.agree_readWhole G _ _ _ _ e e' (.refl hs.toAlike))
    (fun _ _ _ _ h => ⟨h.1, hs.ahead h.2⟩) fun _ _ _ h => hs.ahead h

/-- Induction on the slices: pad bytes come from nowhere, all others from documents of `F`. -/
theorem agree_readSlices (slices : List FileSlice) (out : List Byte) :
    Agree (Twin K K' F base) (readSlices G.env reuse t storage slices out)
      (readSlices G.env reuse' t storage' slices out) := by
  induction slices generalizing out with
  | nil => exact agree_ret out
  | cons slice rest ih =>
    refine agree_ite (fun _ => ih _) fun hpad => ?_
    refine agree_bind (agree_mapError (agree_readSlice G reuse reuse' hK hK' hF ?_)) fun _ => ih _
    simpa using hpad

theorem agree_readBlock (request : Request) :
    Agree (Twin K K' F base) (readBlock G.env reuse t storage request)
      (readBlock G.env reuse' t storage' request) :=
  agree_readSlices G reuse reuse' hK hK' hF _ _

theorem agree_writeSlice {slice : FileSlice} (hpad : t.files.padFileAt slice.fileIndex = false)
    (data : List Byte) :
    Agree (Twin K K' F base) (writeSlice G.env reuse t storage slice data)
      (writeSlice G.env reuse' t storage' slice data) := by
  intro d d' h
  refine wp2_bind (wp2_openFile G reuse reuse' h
    (fun hsafe => hK _ _ (keys_home hpad hsafe)) (fun hsafe => hK' _ _ (keys_home hpad hsafe))
    (fun hsafe => hF _ (homePath_mem hsafe)) ?_)
  intro fd fd' e e' hs hopen
  exact wp2_mono (hopen.agree_writeWhole G _ _ _ _ _ e e' (.refl hs.toAlike))
    (fun _ _ _ _ h => ⟨h.1, hs.ahead h.2⟩) fun _ _ _ h => hs.ahead h

/-- What lies over a pad file is dropped on both sides. -/
theorem agree_writeSlices (slices : List FileSlice) (input : List Byte) :
    Agree (Twin K K' F base) (writeSlices G.env reuse t storage slices input)
      (writeSlices G.env reuse' t storage' slices input) := by
  induction slices generalizing input with
  | nil => exact agree_ret ()
  | cons slice rest ih =>
    refine agree_ite (fun _ => ih _) fun hpad => ?_
    refine agree_bind (agree_writeSlice G reuse reuse' hK hK' hF ?_ _) fun _ => ih _
    simpa using hpad

theorem agree_writeBlock (request : Request) (input : List Byte) :
    Agree (Twin K K' F base) (writeBlock G.env reuse t storage request input)
      (writeBlock G.env reuse' t storage' request input) :=
  agree_writeSlices G reuse reuse' hK hK' hF _ _

/-- The hash is made of bytes that are the same on both sides. -/
theorem agree_asyncHash (piece : Nat) (v1 : Bool) (room : Nat) :
    Agree (Twin K K' F base) (asyncHash G.env reuse t storage piece v1 room)
      (asyncHash G.env reuse' t storage' piece v1 room) := by
  refine agree_bind (agree_ite (fun _ => ?_) fun _ => agree_ret _) fun _ =>
    agree_bind (agree_throwIf _) fun _ => agree_ret _
  exact agree_mapError (agree_readBlock G reuse reuse' hK hK' hF _)

theorem agree_asyncHash2 (piece offset : Nat) :
    Agree (Twin K K' F base) (asyncHash2 G.env reuse t storage piece offset)
      (asyncHash2 G.env reuse' t storage' piece offset) :=
  agree_bind (agree_throwIf _) fun _ =>
    agree_bind (agree_mapError (agree_readBlock G reuse reuse' hK hK' hF _)) fun _ => agree_ret _

/-! ## Checking

The answers are about documents at paths of `F`, and the files made are made on both sides. -/

/-- What is there decides which files are made, and the same is there. -/
theorem agree_initializeFiles :
    Agree (Twin K K' F base) (initializeFiles G.env reuse t storage)
      (initializeFiles G.env reuse' t storage') := by
  refine agree_bind (agree_mapEach fun index hindex => ?_) fun _ => agree_ret _
  obtain ⟨hmem, hpublic⟩ := List.mem_filter.mp hindex
  have hpad : t.files.padFileAt index = false := by
    simp only [Bool.not_or, Bool.and_eq_true, Bool.not_eq_true'] at hpublic
    exact hpublic.1
  have hused := hF _ (pathFor_mem (t.files.mem_indices.mp hmem))
  have hkeys : ∀ storage, safeRelativePath (t.pathFor index) = true →
      t.keys storage storage index (t.pathFor index) := fun _ _ =>
    ⟨rfl, Or.inr ⟨index, t.files.mem_indices.mp hmem, hpad, rfl, rfl⟩⟩
  refine agree_bind (agree_twin fun _ _ => agree_callFileSize G hused) fun _ =>
    agree_bind (agree_mapError ?_) fun _ => agree_ret _
  intro d d' h
  refine wp2_bind (wp2_openFile G reuse reuse' h (fun hsafe => hK _ _ (hkeys _ hsafe))
    (fun hsafe => hK' _ _ (hkeys _ hsafe)) (fun _ => hused) ?_)
  intro fd fd' e e' hs hopen
  exact wp2_mono (hopen.agree_truncateTo G _ _ e e' (.refl hs.toAlike))
    (fun _ _ _ _ h => ⟨h.1, hs.ahead h.2⟩) fun _ _ _ h => hs.ahead h

omit hK hK' in
theorem agree_checkResumeFiles (seed exactSize : Bool) (files : List Nat)
    (hfiles : ∀ index ∈ files, index < t.numFiles) (status : Status) :
    Agree (Ahead F base d d') (checkResumeFiles G.env t seed exactSize files status)
      (checkResumeFiles G.env t seed exactSize files status) := by
  induction files generalizing status with
  | nil => exact agree_ret status
  | cons index rest ih =>
    have hrest : ∀ index ∈ rest, index < t.numFiles := fun index hindex =>
      hfiles index (List.mem_cons_of_mem _ hindex)
    have hused := hF _ (pathFor_mem (hfiles index List.mem_cons_self))
    refine agree_ite (fun _ => ih hrest _) fun _ => ?_
    exact agree_bind (agree_callFileSize G hused) fun _ =>
      agree_bind (agree_throwIf _) fun _ => ih hrest _

omit hK hK' in
theorem agree_validateResume (resume : Resume) :
    Agree (Ahead F base d d') (validateResume G.env t resume) (validateResume G.env t resume) := by
  refine agree_ite (fun _ => ?_) fun _ => ?_
  · exact agree_checkResumeFiles G hF _ _ _ (fun index hindex => t.files.mem_indices.mp hindex) _
  · exact agree_checkResumeFiles G hF _ _ _ (fun index hindex => lt_of_mem_claimedFiles hindex) _

theorem agree_asyncCheckFiles (resume : Option Resume) (links : List Path) :
    Agree (Twin K K' F base) (asyncCheckFiles G.env reuse t storage resume links)
      (asyncCheckFiles G.env reuse' t storage' resume links) := by
  refine agree_bind (agree_throwIf _) fun _ => ?_
  cases resume with
  | none => exact agree_initializeFiles G reuse reuse' hK hK' hF
  | some resume =>
    exact agree_ite (fun _ => agree_twin fun _ _ => agree_validateResume G hF resume)
      fun _ => agree_initializeFiles G reuse reuse' hK hK' hF

end Cached

/-! ## Deleting

Nothing here uses the cache; a target is there on both sides or on neither. -/

section Uncached

variable {t : TorrentStorage} (storage storage' : Nat)

/-- Nothing but the document's being there decides the answer. -/
theorem agree_removeLater {path : Path} (hpath : F path) (file : Int) :
    Agree (Alike F base) (removeLater G.env path file) (removeLater G.env path file) :=
  agree_bind (agree_callRemove G hpath false) fun _ => agree_ret _

/-- The targets are paths of the torrent; both storages are closed first, whatever was open. -/
theorem agree_asyncDeleteFiles (hF : ∀ path ∈ t.usedPaths, F path)
    (deleteFiles deletePartfile : Bool) :
    Agree (Alike F base) (asyncDeleteFiles G.env t storage deleteFiles deletePartfile)
      (asyncDeleteFiles G.env t storage' deleteFiles deletePartfile) := by
  refine agree_bind (agree_closeWhere G _ _) fun _ =>
    agree_bind (agree_mapEach fun index hindex => ?_) fun files =>
      agree_bind (agree_mapEach fun path hpath => ?_) fun part => ?_
  · split at hindex
    · have hmem := t.files.mem_indices.mp (List.mem_filter.mp hindex).1
      exact agree_removeLater G (hF _ (pathFor_mem hmem)) _
    · cases hindex
  · split at hpath
    · obtain rfl := List.mem_singleton.mp hpath
      exact agree_removeLater G (hF _ t.partPath_mem) _
    · cases hpath
  · cases (files ++ part).findSome? id with
    | none => exact agree_ret ()
    | some error => exact agree_throw error

/-! ## Moving

A move is planned first, by questions only, and then copies and cleans up. The plan is the same
on both sides because every question is about a path of `F`. -/

theorem agree_validateRoot (root : Path) :
    Agree (Alike F base) (validateRoot G.env root) (validateRoot G.env root) :=
  agree_ite (fun _ => agree_ret 0) fun _ => agree_callValidatePath G root

/-- Both close the storage, and the bridge's word on a root is the same on both sides. -/
theorem agree_checkMove (root : Path) :
    Agree (Alike F base) (checkMove G.env t storage root) (checkMove G.env t storage' root) :=
  agree_bind (agree_closeWhere G _ _) fun _ =>
    agree_bind (agree_forEach fun _ _ => agree_throwIf _) fun _ =>
      agree_bind (agree_forEach fun _ _ => agree_throwIf _) fun _ =>
        agree_bind (agree_validateRoot G root) fun _ =>
          agree_bind (agree_throwIf _) fun _ => agree_ret _

/-- The destinations lie in `F`, and so the same of them exist. -/
theorem agree_refuseExisting {root : Path}
    (hF : ∀ i < t.numFiles, F (t.destination root i)) :
    Agree (Ahead F base d d') (refuseExisting G.env t root) (refuseExisting G.env t root) := by
  refine agree_forEach fun index hindex => agree_ite (fun _ => agree_ret ()) fun _ => ?_
  exact agree_bind (agree_callFileSize G (hF index (t.files.mem_indices.mp hindex))) fun _ =>
    agree_bind (agree_throwIf _) fun _ => agree_throwIf _

/-- Both ends of a file's move lie in `F`. -/
def MoveOperation.Inside (F : Path → Prop) (operation : MoveOperation) : Prop :=
  F operation.source ∧ F operation.destination

theorem agree_statOperations (flags : MoveFlags) (operations : List MoveOperation)
    (hF : ∀ operation ∈ operations, operation.Inside F) (status : Status) :
    Agree (Ahead F base d d') (statOperations G.env flags operations status)
      (statOperations G.env flags operations status) := by
  induction operations generalizing status with
  | nil => exact agree_ret _
  | cons operation rest ih =>
    obtain ⟨hsource, hdestination⟩ := hF operation List.mem_cons_self
    refine agree_bind (agree_callFileSize G hdestination) fun _ => agree_bind (agree_throwIf _)
      fun _ => agree_bind (agree_callFileSize G hsource) fun _ => agree_bind (agree_throwIf _)
        fun _ => agree_bind (ih (fun op hop => hF op (List.mem_cons_of_mem _ hop)) _) fun _ => ?_
    exact agree_ret _

/-- Copies have descriptors of their own, from one end in `F` to the other. -/
theorem agree_copyOperations (operations : List MoveOperation)
    (hF : ∀ operation ∈ operations, operation.Inside F) (status : Status) :
    Agree (Alike F base) (copyOperations G.env operations status)
      (copyOperations G.env operations status) :=
  agree_forEach fun operation hop => agree_onlyIf fun _ =>
    agree_mapError (agree_copyPublicFile G (hF operation hop).1 (hF operation hop).2 _ _)

/-- A source that is a destination stays on both sides. -/
theorem agree_removeSources (operations : List MoveOperation)
    (hF : ∀ operation ∈ operations, operation.Inside F) (destinations : List Path) :
    Agree (Alike F base) (removeSources G.env operations destinations)
      (removeSources G.env operations destinations) :=
  agree_forEach fun operation hop => agree_onlyIf fun _ =>
    agree_bind (agree_callRemove G (hF operation hop).1 false) fun _ => agree_ret ()

end Uncached

/-! ## Operations that change the torrent -/

/-- The same torrent, of which `P` holds, on alike disks. -/
structure Together (P : TorrentStorage → Prop) (F : Path → Prop) (base : World)
    (s s' : Sys World) : Prop where
  torrent : s.torrent = s'.torrent
  known : P s.torrent
  disk : Alike F base s.disk s'.disk

section Torrent

variable {α : Type} {P : TorrentStorage → Prop} {t : TorrentStorage} (storage storage' : Nat)

/-- The torrent is not looked at. -/
theorem agree_onDisk {m n : Exec (Disk World) ε α} (hm : Agree (Alike F base) m n) :
    Agree (Together P F base) (onDisk m) (onDisk n) := by
  intro s s' h
  refine wp2_zoom (wp2_mono (hm s.disk s'.disk h.disk) ?_
    fun _ _ _ hd => ⟨h.torrent, h.known, hd⟩)
  rintro a _ d d' ⟨rfl, hd⟩
  exact ⟨rfl, h.torrent, h.known, hd⟩

theorem agree_updateTorrent {f : TorrentStorage → TorrentStorage} (hf : ∀ t, P t → P (f t)) :
    Agree (Together P F base) (updateTorrent f : Exec (Sys World) ε Unit) (updateTorrent f) :=
  fun _ _ h => wp2_modify ⟨rfl, congrArg f h.torrent, hf _ h.known, h.disk⟩

/-- Both ends of every planned operation lie in `F`. -/
def PlanInside (F : Path → Prop) (plan : Option (List MoveOperation × Status)) : Prop :=
  ∀ operations status, plan = some (operations, status) →
    ∀ operation ∈ operations, operation.Inside F

/-- The same plan is made on both sides. -/
theorem wp2_planMove {path : Path} (h : Alike F base d d') (hF : ∀ path ∈ t.usedPaths, F path)
    (hroot : safeRelativePath path = true →
      ∀ i < t.numFiles, F (t.destination (normalizedSaveRoot path) i)) (flags : MoveFlags) :
    wp2 (planMove G.env t storage path flags) (planMove G.env t storage' path flags)
      (fun a b e e' => a = b ∧ PlanInside F a ∧ Alike F base e e')
      (fun _ => Alike F base) d d' := by
  refine wp2_bind (wp2_throwIf Iff.rfl (fun _ => ⟨rfl, h⟩) fun hsafe => ?_)
  have hdestinations := hroot (by simpa using hsafe)
  refine wp2_bind (wp2_mono (wp2_and_wp (agree_checkMove G storage storage' _ d d' h)
    (checkMove_ok G.env t storage _ d)) ?_ fun _ _ _ he => he.1)
  rintro operations _ e e' ⟨⟨rfl, he⟩, rfl, -, -⟩
  have hinside : ∀ operation ∈ t.moveOperations (normalizedSaveRoot path), operation.Inside F := by
    intro operation hop
    obtain ⟨i, hi, -, -, rfl⟩ := mem_moveOperations.mp hop
    exact ⟨hF _ (pathFor_mem hi), hdestinations i hi⟩
  refine wp2_ite Iff.rfl (fun _ => wp2_ret ⟨rfl, fun _ _ heq => ?_, he⟩) fun _ => wp2_bind ?_
  · cases heq
  have hstat : Agree (Alike F base)
      (statMove G.env t (normalizedSaveRoot path) flags
        (t.moveOperations (normalizedSaveRoot path)))
      (statMove G.env t (normalizedSaveRoot path) flags
        (t.moveOperations (normalizedSaveRoot path))) :=
    agree_of_ahead fun _ _ =>
      agree_bind (agree_onlyIf fun _ => agree_refuseExisting G hdestinations)
      fun _ => agree_statOperations G flags _ hinside _
  refine wp2_mono (wp2_and_wp (hstat e e' he) (statMove_ok G.env t _ flags _ e)) ?_
    fun _ _ _ he => he.1
  rintro plan _ f f' ⟨⟨rfl, hf⟩, hsame⟩
  refine wp2_ret ⟨rfl, fun operations status heq operation hop => ?_, hf⟩
  obtain rfl := Option.some.inj heq
  obtain ⟨before, hbefore, -, hsource, hdestination⟩ := exists_left hsame hop
  rw [MoveOperation.Inside, hsource, hdestination]
  exact hinside before hbefore

theorem agree_finishMove {path : Path} {flags : MoveFlags}
    {plan : Option (List MoveOperation × Status)} (hplan : PlanInside F plan) :
    Agree (Together (fun _ => True) F base) (finishMove G.env t path flags plan)
      (finishMove G.env t path flags plan) := by
  cases plan with
  | none => exact agree_bind (agree_updateTorrent fun _ h => h) fun _ => agree_ret _
  | some planned =>
    obtain ⟨operations, status⟩ := planned
    have hinside := hplan operations status rfl
    exact agree_bind (agree_onDisk (agree_copyOperations G operations hinside status)) fun _ =>
      agree_bind (agree_updateTorrent fun _ h => h) fun _ =>
        agree_bind (agree_onDisk (agree_removeSources G operations hinside _)) fun _ => agree_ret _

/-- The plan is the same on both sides, and is carried out on paths of `F` only. -/
theorem wp2_asyncMoveStorage {path : Path} (h : Alike F base d d')
    (hF : ∀ path ∈ t.usedPaths, F path)
    (hroot : safeRelativePath path = true →
      ∀ i < t.numFiles, F (t.destination (normalizedSaveRoot path) i)) (flags : MoveFlags) :
    wp2 (asyncMoveStorage G.env storage path flags) (asyncMoveStorage G.env storage' path flags)
      (fun a b s s' => a = b ∧ Together (fun _ => True) F base s s')
      (fun _ => Together (fun _ => True) F base)
      { torrent := t, disk := d } { torrent := t, disk := d' } := by
  -- a move is its plan and the rest
  have hsplit : ∀ storage d, asyncMoveStorage G.env storage path flags { torrent := t, disk := d } =
      (onDisk (planMove G.env t storage path flags) >>= finishMove G.env t path flags)
        { torrent := t, disk := d } := fun storage d => eq_of_wp fun Q R => by
    rw [wp_asyncMoveStorage, wp_bind]
  refine wp2_congr (hsplit storage d) (hsplit storage' d') (wp2_bind (wp2_zoom ?_))
  refine wp2_mono (wp2_planMove G storage storage' h hF hroot flags) ?_
    fun _ _ _ he => ⟨rfl, trivial, he⟩
  rintro plan _ e e' ⟨rfl, hplan, he⟩
  exact agree_finishMove G hplan _ _ ⟨rfl, trivial, he⟩

/-- A bad index or name is refused on both sides before anything is closed. -/
theorem wp2_asyncRenameFile (h : Alike F base d d') (hF : ∀ path ∈ t.usedPaths, F path)
    (index : Int) (name : Path)
    (hnew : ∀ i : Nat, index = i → i < t.numFiles → safeRelativePath name = true →
      F (rootedPath t.saveRoot name)) :
    wp2 (asyncRenameFile G.env storage index name) (asyncRenameFile G.env storage' index name)
      (fun a b s s' => a = b ∧ Together (fun _ => True) F base s s')
      (fun _ => Together (fun _ => True) F base)
      { torrent := t, disk := d } { torrent := t, disk := d' } := by
  refine wp2_bind (wp2_get (wp2_bind (wp2_throwIf Iff.rfl (fun _ => ⟨rfl, rfl, trivial, h⟩)
    fun hok => ?_)))
  push Not at hok
  obtain ⟨hpos, hlt, hsafe⟩ := hok
  obtain ⟨i, rfl⟩ := Int.eq_ofNat_of_zero_le hpos
  have hi : i < t.numFiles := Int.ofNat_lt.mp hlt
  have hnew' := hnew i rfl hi (by simpa using hsafe)
  refine agree_bind (S := Together (fun _ => True) F base) (agree_onDisk (agree_closeWhere G _ _))
    (fun _ => ?_) _ _ ⟨rfl, trivial, h⟩
  refine agree_bind (agree_onDisk (agree_of_ahead fun _ _ =>
    agree_ensureParentDirectories G _ _)) fun _ => ?_
  refine agree_bind (agree_onDisk (agree_callRename G (hF _ (pathFor_mem hi)) hnew')) fun _ => ?_
  exact agree_bind (agree_throwIf _) fun _ => agree_updateTorrent fun _ h => h

section Priorities

variable (hF : ∀ path ∈ t.usedPaths, F path)

include hF

/-- A migration, if any, runs between the file's path and the part file. -/
theorem agree_setPriorityAt (requested : List Priority) {index : Nat} (hi : index < t.numFiles) :
    Agree (Together (SamePaths t) F base) (setPriorityAt G.env storage requested index)
      (setPriorityAt G.env storage' requested index) := by
  rintro ⟨t₁, d⟩ ⟨t₂, d'⟩ ⟨heq, hsame, h⟩
  obtain rfl : t₁ = t₂ := heq
  have hfile : F (t₁.pathFor index) := by
    rw [SamePaths.pathFor hsame]
    exact hF _ (pathFor_mem hi)
  have hpart : F t₁.partPath := by
    rw [SamePaths.partPath hsame]
    exact hF _ t.partPath_mem
  refine wp2_bind (wp2_get ?_)
  refine agree_bind (S := Together (SamePaths t) F base) (agree_onlyIf fun _ => agree_onDisk
    (agree_migratePriority G hfile hpart storage storage')) (fun _ => ?_) _ _ ⟨rfl, hsame, h⟩
  exact agree_updateTorrent fun t' hsame => hsame.trans (.setPriority t' _ _)

/-- Whether any file is still skipped is a matter of the torrent alone. -/
theorem agree_removePartFile :
    Agree (Alike F base) (removePartFile G.env t storage) (removePartFile G.env t storage') :=
  agree_bind (agree_closeWhere G _ _) fun _ =>
    agree_bind (agree_callRemove G (hF _ t.partPath_mem) false) fun _ => agree_throwIf _

/-- Induction on the files, the torrents staying the same on both sides all the way. -/
theorem wp2_asyncSetFilePriority (h : Alike F base d d') (priorities : List Priority) :
    wp2 (asyncSetFilePriority G.env storage priorities)
      (asyncSetFilePriority G.env storage' priorities)
      (fun a b s s' => a = b ∧ Together (SamePaths t) F base s s')
      (fun _ => Together (SamePaths t) F base)
      { torrent := t, disk := d } { torrent := t, disk := d' } := by
  refine wp2_bind (wp2_get (wp2_bind (wp2_mono (agree_forEach
    (S := Together (SamePaths t) F base)
    (fun index hindex => agree_setPriorityAt G storage storage' hF _
      (t.files.mem_indices.mp hindex)) _ _ ⟨rfl, .refl t, h⟩) ?_ fun _ _ _ h => h)))
  rintro _ _ ⟨t₁, e⟩ ⟨t₂, e'⟩ ⟨-, heq, hsame, he⟩
  obtain rfl : t₁ = t₂ := heq
  refine wp2_bind (wp2_get ?_)
  refine agree_onlyIf (S := Together (SamePaths t) F base) (fun _ => agree_onDisk
    (agree_removePartFile G storage storage' fun path hpath =>
      hF path (by rwa [← hsame.usedPaths])))
    _ _ ⟨rfl, hsame, he⟩

end Priorities

end Torrent

/-! ## Jobs -/

/-- A job that names destinations names paths of `F`. -/
def Job.Within (F : Path → Prop) (t : TorrentStorage) : Job → Prop
  | .renameFile index name =>
      ∀ i : Nat, index = i → i < t.numFiles → safeRelativePath name = true →
        F (rootedPath t.saveRoot name)
  | .moveStorage path _ =>
      safeRelativePath path = true →
        ∀ i < t.numFiles, F (t.destination (normalizedSaveRoot path) i)
  | _ => True

/-- The paths stay in `F`. -/
theorem Job.Within.step {W : Type} {log : List (Event W)} {t t' : TorrentStorage} {job : Job}
    {report : Report} (hjob : job.Within F t) (hF : ∀ path ∈ t.usedPaths, F path)
    (hstep : Step log t job report t') : ∀ path ∈ t'.usedPaths, F path := by
  cases hstep with
  | @renamed index name hlt hsafe =>
    intro path hpath
    rcases mem_usedPaths.mp hpath with rfl | ⟨i, hi, rfl⟩
    · exact hF _ t.partPath_mem
    · rw [renameFile_numFiles] at hi
      rw [t.renameFile_pathFor _ _ _ hi]
      split
      · exact hjob index rfl hlt hsafe
      · exact hF _ (pathFor_mem hi)
  | moved hsafe haccepted hvalid =>
    intro path hpath
    rcases mem_usedPaths.mp hpath with rfl | ⟨i, hi, rfl⟩
    · exact hF _ t.partPath_mem
    · rw [t.setSaveRoot_pathFor _ hi, normalizedSaveRoot_idem]
      exact hjob hsafe i hi
  | notRenamed error => exact hF
  | notMoved error => exact hF
  | prioritised hsame => rwa [hsame.usedPaths]
  | other _ _ _ _ => exact hF

/-- Both slots are the torrent's, and it shares no path with another slot. -/
structure Tenant (K K' : Keys) (storage storage' : Nat) (t : TorrentStorage) : Prop where
  apart : Apart t
  rooted : t.Rooted
  own : K.Own storage t
  own' : K'.Own storage' t
  clear : K.Clear storage t
  clear' : K'.Clear storage' t

variable {t : TorrentStorage} {storage storage' : Nat}

/-- Giving a slot the torrent it has changes nothing. -/
theorem Twin.assign (h : Twin K K' F base d d') (htenant : Tenant K K' storage storage' t) :
    Twin (K.assign storage t) (K'.assign storage' t) F base d d' := by
  rw [Keys.assign_self htenant.own, Keys.assign_self htenant.own']
  exact h

/-- Closing makes room for other keys under the slot's number. -/
theorem Twin.closeStorage (h : Twin K K' F base d d') (t : TorrentStorage) :
    Twin (K.assign storage t) (K'.assign storage' t) F base
      ((Saf.closeStorage G.env storage : Exec (Disk World) StorageError Unit) d).2
      ((Saf.closeStorage G.env storage' : Exec (Disk World) StorageError Unit) d').2 :=
  ⟨(agree_iff.mp (agree_closeWhere G _ _) d d' h.toAlike).2,
    coherent_assign (coherent_closeStorage G h.coherent storage) t,
    coherent_assign (coherent_closeStorage G h.coherent' storage') t⟩

/-- The torrent goes through unchanged. -/
theorem onDisk_eq {α : Type} (m : Exec (Disk World) ε α) (t : TorrentStorage) (d : Disk World) :
    onDisk m { torrent := t, disk := d } = ((m d).1, { torrent := t, disk := (m d).2 }) := rfl

/-- **A job on two disks**: the same report, the same torrent afterwards, and such disks again. -/
theorem runJob_twin (h : Twin K K' F base d d') (htenant : Tenant K K' storage storage' t)
    (hF : ∀ path ∈ t.usedPaths, F path) {job : Job} (hjob : job.Within F t) :
    let r := runJob G.env reuse storage job { torrent := t, disk := d }
    let r' := runJob G.env reuse' storage' job { torrent := t, disk := d' }
    job.Spares t r.2.torrent → K.Clear storage r.2.torrent → K'.Clear storage' r.2.torrent →
      r.1 = r'.1 ∧ r.2.torrent = r'.2.torrent ∧
        Twin (K.assign storage r.2.torrent) (K'.assign storage' r.2.torrent) F base
          r.2.disk r'.2.disk := by
  have hK : ∀ file path, t.keys storage storage file path → K storage file path :=
    fun file path => (htenant.own file path).mpr
  have hK' : ∀ file path, t.keys storage' storage' file path → K' storage' file path :=
    fun file path => (htenant.own' file path).mpr
  -- a program that only works on the disk, and may use the cache
  have hcached : ∀ {ε α : Type} {m n : Exec (Disk World) ε α}, Agree (Twin K K' F base) m n →
      (m d).1 = (n d').1 ∧
        Twin (K.assign storage t) (K'.assign storage' t) F base (m d).2 (n d').2 :=
    fun hagree => ⟨(agree_iff.mp hagree d d' h).1, ((agree_iff.mp hagree d d' h).2).assign htenant⟩
  cases job with
  | read request =>
    simp only [runJob, onDisk_eq]
    obtain ⟨hsame, htwin⟩ := hcached (agree_readBlock G reuse reuse' hK hK' hF request)
    exact fun _ _ _ => ⟨congrArg (readReport request) hsame, trivial, htwin⟩
  | write request bytes =>
    simp only [runJob, onDisk_eq]
    obtain ⟨hsame, htwin⟩ := hcached (agree_writeBlock G reuse reuse' hK hK' hF request bytes)
    exact fun _ _ _ => ⟨congrArg (fun x => Report.written (unitError x)) hsame, trivial, htwin⟩
  | hash piece v1 room =>
    simp only [runJob, onDisk_eq]
    obtain ⟨hsame, htwin⟩ := hcached (agree_asyncHash G reuse reuse' hK hK' hF piece v1 room)
    exact fun _ _ _ => ⟨congrArg (hashReport piece) hsame, trivial, htwin⟩
  | hash2 piece offset =>
    simp only [runJob, onDisk_eq]
    obtain ⟨hsame, htwin⟩ := hcached (agree_asyncHash2 G reuse reuse' hK hK' hF piece offset)
    exact fun _ _ _ => ⟨congrArg (hash2Report piece) hsame, trivial, htwin⟩
  | checkFiles resume links =>
    simp only [runJob, onDisk_eq]
    obtain ⟨hsame, htwin⟩ := hcached (agree_asyncCheckFiles G reuse reuse' hK hK' hF resume links)
    exact fun _ _ _ => ⟨congrArg checkedReport hsame, trivial, htwin⟩
  | clearPiece piece => exact fun _ _ _ => ⟨rfl, rfl, h.assign htenant⟩
  | releaseFiles =>
    simp only [runJob, onDisk_eq]
    exact fun _ _ _ => ⟨trivial, trivial, h.closeStorage G t⟩
  | stopTorrent =>
    simp only [runJob, onDisk_eq]
    exact fun _ _ _ => ⟨trivial, trivial, h.closeStorage G t⟩
  | deleteFiles files part =>
    simp only [runJob, onDisk_eq]
    obtain ⟨hsame, halike⟩ := agree_iff.mp
      (agree_asyncDeleteFiles G storage storage' hF files part) d d' h.toAlike
    exact fun _ _ _ => ⟨congrArg (fun x => Report.deleted (unitError x)) hsame, trivial,
      halike,
      coherent_delete G h.coherent htenant.clear files part,
      coherent_delete G h.coherent' htenant.clear' files part⟩
  | moveStorage path flags =>
    simp only [runJob]
    obtain ⟨hsame, htorrent, -, halike⟩ := wp2_same.mp
      (wp2_asyncMoveStorage G storage storage' h.toAlike hF hjob flags)
    refine fun _ _ _ => ⟨congrArg (movedReport path) hsame, htorrent, halike,
      coherent_move G h.coherent htenant.own htenant.clear htenant.apart htenant.rooted path flags,
      ?_⟩
    rw [htorrent]
    exact coherent_move G h.coherent' htenant.own' htenant.clear' htenant.apart htenant.rooted
      path flags
  | renameFile index name =>
    simp only [runJob]
    obtain ⟨hsame, htorrent, -, halike⟩ := wp2_same.mp
      (wp2_asyncRenameFile G storage storage' h.toAlike hF index name hjob)
    refine fun hspares hclear hclear' =>
      ⟨congrArg (fun x => Report.renamed name index (unitError x)) hsame, htorrent, halike,
        coherent_rename G h.coherent htenant.own htenant.clear index name hspares hclear, ?_⟩
    rw [htorrent] at hspares hclear' ⊢
    exact coherent_rename G h.coherent' htenant.own' htenant.clear' index name hspares hclear'
  | setFilePriority priorities =>
    simp only [runJob]
    obtain ⟨hsame, htorrent, -, halike⟩ := wp2_same.mp
      (wp2_asyncSetFilePriority G storage storage' hF h.toAlike priorities)
    refine fun _ _ _ => ⟨?_, htorrent, halike, (coherent_prioritise G h.coherent htenant.own
      htenant.clear htenant.apart priorities).2, ?_⟩
    · rw [hsame, htorrent]
    · rw [htorrent]
      exact (coherent_prioritise G h.coherent' htenant.own' htenant.clear' htenant.apart
        priorities).2

end Saf
end Libtorrent4j
