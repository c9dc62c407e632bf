import Libtorrent4j.Saf.Effects

/-!
# The descriptor cache is coherent

A cached descriptor is only as good as the name it is kept under: once a document has been
renamed or removed, a descriptor opened before refers to something nobody can reach any more.
`Coherent K` says that this has not happened, that **every entry refers to the document now
stored at the entry's path**, in the mode it is marked with, and that every descriptor handed
out again so far did so at that moment. `K` is the set of keys entries may have; closing
entries makes it smaller.

The specification of `openFile` at the end does not say whether the cache was used. That is
what makes the cache transparent.
-/

namespace Libtorrent4j
namespace Saf

open Lib Lib.Exec

/-- A set of cache keys: storage slot, file index and path. -/
abbrev Keys := Nat → Int → Path → Prop

/-- What the scripts still hold is no worse than it was. -/
structure Disk.Kept (d d' : Disk World) : Prop where
  validate : d'.world.validate = d.world.validate
  willing : d.world.Willing → d'.world.Willing
  smooth : d.world.Smooth → d'.world.Smooth

structure Coherent (K : Keys) (d : Disk World) : Prop where
  sound : d.world.Sound
  key : ∀ entry ∈ d.descriptors, K entry.storage entry.file entry.path
  safe : ∀ entry ∈ d.descriptors, safeRelativePath entry.path = true
  current : ∀ entry ∈ d.descriptors,
    d.world.Refers entry.descriptor entry.path entry.writable
  nodup : (d.descriptors.map (·.descriptor)).Nodup
  hits : ∀ fd path w, Event.reused fd path w ∈ d.trace → ∃ writable, w.Refers fd path writable

variable {K K' : Keys} {d d' d'' : Disk World}

theorem Disk.Kept.refl (d : Disk World) : d.Kept d := ⟨rfl, fun h => h, fun h => h⟩

theorem Disk.Kept.trans (h : d.Kept d') (h' : d'.Kept d'') : d.Kept d'' :=
  ⟨h'.validate.trans h.validate, fun hw => h'.willing (h.willing hw),
    fun hs => h'.smooth (h.smooth hs)⟩

theorem Disk.Grows.kept (h : d.Grows d') : d.Kept d' :=
  ⟨h.world.validate, h.world.willing, h.world.smooth⟩

/-- A descriptor of another document goes on referring to it. -/
theorem Disk.Unlinks.kept {path : Path} (h : d.Unlinks d' path) : d.Kept d' := by
  refine ⟨by rw [h.world]; rfl, fun hw => ?_, fun hs => ?_⟩
  · rw [h.world]
    exact d.world.grows_afterBridge.willing hw
  · rw [h.world]
    exact d.world.grows_afterBridge.smooth hs

/-- A descriptor of neither name goes on referring to its document. -/
theorem Disk.Relinks.kept {old new : Path} (h : d.Relinks d' old new) : d.Kept d' := by
  obtain ⟨node, -, hworld⟩ := h.world
  refine ⟨by rw [hworld]; rfl, fun hw => ?_, fun hs => ?_⟩
  · rw [hworld]
    exact d.world.grows_afterBridge.willing hw
  · rw [hworld]
    exact d.world.grows_afterBridge.smooth hs

/-! ## What keeps it -/

/-- An empty cache is coherent. -/
theorem coherent_fresh {w : World} (hs : w.Sound) (K : Keys) : Coherent K { world := w } := by
  constructor <;> simp [hs]

namespace Coherent

/-- Keys that nothing is open under do not matter. -/
theorem mono (h : Coherent K d)
    (hK : ∀ entry ∈ d.descriptors, K entry.storage entry.file entry.path →
      K' entry.storage entry.file entry.path) : Coherent K' d :=
  ⟨h.sound, fun entry he => hK entry he (h.key entry he), h.safe, h.current, h.nodup, h.hits⟩

/-- Growing documents keep what is cached current. -/
theorem grows (h : Coherent K d) (hg : d.Grows d') : Coherent K d' := by
  refine ⟨hg.world.sound h.sound, ?_, ?_, ?_, ?_, fun fd path w hm => h.hits fd path w (hg.hits hm)⟩
  · rw [hg.descriptors]; exact h.key
  · rw [hg.descriptors]; exact h.safe
  · rw [hg.descriptors]; exact fun entry he => hg.world.refers (h.current entry he)
  · rw [hg.descriptors]; exact h.nodup

/-- The limit is a matter of how many are open, not of which. -/
theorem settingsUpdated (h : Coherent K d) (filePoolSize : Int) :
    Coherent K (d.settingsUpdated filePoolSize) :=
  ⟨h.sound, h.key, h.safe, h.current, h.nodup, h.hits⟩

/-- A removal leaves the cache coherent if no entry has the path. -/
theorem unlinks (h : Coherent K d) {path : Path} (hu : d.Unlinks d' path)
    (hfree : ∀ storage file, ¬ K storage file path) : Coherent K d' := by
  refine ⟨?_, ?_, ?_, ?_, ?_, fun fd path w hm => h.hits fd path w (hu.hits hm)⟩
  · rw [hu.world]; exact (d.world.grows_afterBridge.sound h.sound).unlink path
  · rw [hu.descriptors]; exact h.key
  · rw [hu.descriptors]; exact h.safe
  · rw [hu.descriptors, hu.world]
    intro entry he
    refine (d.world.grows_afterBridge.refers (h.current entry he)).unlink fun heq => ?_
    exact hfree _ _ (heq ▸ h.key entry he)
  · rw [hu.descriptors]; exact h.nodup

/-- A renaming is safe for the cache once neither name is a key in it. -/
theorem relinks (h : Coherent K d) {old new : Path} (hr : d.Relinks d' old new)
    (hold : ∀ storage file, ¬ K storage file old) (hnew : ∀ storage file, ¬ K storage file new) :
    Coherent K d' := by
  obtain ⟨node, hnode, hworld⟩ := hr.world
  refine ⟨?_, ?_, ?_, ?_, ?_, fun fd path w hm => h.hits fd path w (hr.hits hm)⟩
  · rw [hworld]; exact (d.world.grows_afterBridge.sound h.sound).relink hnode
  · rw [hr.descriptors]; exact h.key
  · rw [hr.descriptors]; exact h.safe
  · rw [hr.descriptors, hworld]
    intro entry he
    refine (d.world.grows_afterBridge.refers (h.current entry he)).relink (fun heq => ?_)
      fun heq => ?_
    · exact hold _ _ (heq ▸ h.key entry he)
    · exact hnew _ _ (heq ▸ h.key entry he)
  · rw [hr.descriptors]; exact h.nodup

/-- Closing a descriptor that is not the cache's. -/
theorem close (h : Coherent K d) {fd : Int}
    (hfd : ∀ entry ∈ d.descriptors, entry.descriptor ≠ fd) :
    Coherent K (d.note (d.world.close fd) (.close fd)) := by
  refine ⟨⟨h.sound.inj, h.sound.bound⟩, h.key, h.safe, ?_, h.nodup, fun fd' path w hm => ?_⟩
  · exact fun entry he => (h.current entry he).close (hfd entry he)
  · rcases List.mem_cons.mp hm with heq | hm
    · cases heq
    · exact h.hits fd' path w hm

/-- Fewer entries. -/
theorem sublist (h : Coherent K d) {entries : List OpenDescriptor}
    (hsub : entries.Sublist d.descriptors) : Coherent K { d with descriptors := entries } :=
  ⟨h.sound, fun entry he => h.key entry (hsub.subset he),
    fun entry he => h.safe entry (hsub.subset he),
    fun entry he => h.current entry (hsub.subset he), h.nodup.sublist (hsub.map _), h.hits⟩

/-- Closing an entry's descriptor and dropping the entry. -/
theorem drop (h : Coherent K d) {entry : OpenDescriptor} {rest : List OpenDescriptor}
    (hsub : rest.Sublist d.descriptors) (hrest : d.descriptors.Perm (entry :: rest)) :
    Coherent K { d.note (d.world.close entry.descriptor) (.close entry.descriptor) with
      descriptors := rest } := by
  refine (h.sublist hsub).close (d := { d with descriptors := rest }) fun other ho heq => ?_
  have hnodup := (hrest.map (·.descriptor)).nodup_iff.mp h.nodup
  rw [List.map_cons, List.nodup_cons] at hnodup
  exact hnodup.1 (heq ▸ List.mem_map_of_mem ho)

/-- The descriptor just opened refers to the document of its path. -/
theorem store (h : Coherent K d) {entry : OpenDescriptor}
    (hkey : K entry.storage entry.file entry.path) (hsafe : safeRelativePath entry.path = true)
    (hcurrent : d.world.Refers entry.descriptor entry.path entry.writable)
    (hfresh : ∀ other ∈ d.descriptors, other.descriptor ≠ entry.descriptor)
    (counter entries limit : Nat) :
    Coherent K { d with
      descriptors := d.descriptors ++ [entry]
      useCounter := counter
      trace := .stored entries limit :: d.trace } := by
  refine ⟨h.sound, ?_, ?_, ?_, ?_, fun fd path w hm => ?_⟩
  · intro other ho
    rcases List.mem_append.mp ho with ho | ho
    · exact h.key other ho
    · obtain rfl := List.mem_singleton.mp ho
      exact hkey
  · intro other ho
    rcases List.mem_append.mp ho with ho | ho
    · exact h.safe other ho
    · obtain rfl := List.mem_singleton.mp ho
      exact hsafe
  · intro other ho
    rcases List.mem_append.mp ho with ho | ho
    · exact h.current other ho
    · obtain rfl := List.mem_singleton.mp ho
      exact hcurrent
  · rw [List.map_append, List.map_singleton]
    refine List.nodup_append.mpr ⟨h.nodup, List.nodup_singleton _, ?_⟩
    rintro fd hfd fd' hfd' rfl
    obtain ⟨other, ho, rfl⟩ := List.mem_map.mp hfd
    exact hfresh other ho (List.mem_singleton.mp hfd')
  · rcases List.mem_cons.mp hm with heq | hm
    · cases heq
    · exact h.hits fd path w hm

/-- Stamping an entry and noting that it has been handed out again. -/
theorem touch (h : Coherent K d) {p : OpenDescriptor → Bool} {entry : OpenDescriptor}
    (hentry : entry ∈ d.descriptors) (use counter : Nat) :
    Coherent K { d with
      descriptors := touchFirst p use d.descriptors
      useCounter := counter
      trace := .reused entry.descriptor entry.path d.world :: d.trace } := by
  have hbefore : ∀ {P : OpenDescriptor → Prop}, (∀ e ∈ d.descriptors, P e) →
      (∀ e use, P e → P { e with lastUse := use }) → ∀ e ∈ touchFirst p use d.descriptors, P e := by
    intro P hall hstamp e he
    obtain ⟨before, hb, heq⟩ := mem_touchFirst he
    rw [heq]
    exact hstamp before _ (hall before hb)
  refine ⟨h.sound, hbefore h.key fun _ _ h => h, hbefore h.safe fun _ _ h => h,
    hbefore h.current fun _ _ h => h, ?_, fun fd path w hm => ?_⟩
  · rw [map_descriptor_touchFirst]
    exact h.nodup
  · rcases List.mem_cons.mp hm with heq | hm
    · cases heq
      exact ⟨entry.writable, h.current entry hentry⟩
    · exact h.hits fd path w hm

/-- A descriptor that was not open is none of the cache's. -/
theorem fresh (h : Coherent K d) {fd : Int} (hfd : d.world.file fd = none)
    (entry : OpenDescriptor) (he : entry ∈ d.descriptors) : entry.descriptor ≠ fd := by
  rintro rfl
  obtain ⟨node, -, hfile⟩ := h.current entry he
  rw [hfile] at hfd
  cases hfd

end Coherent

/-! ## Closing entries -/

variable (G : Host)

/-- The cache is coherent and every document still has its name. -/
structure Proceeds (K : Keys) (d d' : Disk World) : Prop where
  coherent : Coherent K d'
  kept : d.Kept d'
  names : ∀ {p n}, d.world.docs p = some n → d'.world.docs p = some n

/-- Besides, the documents are as they were. -/
structure Undisturbed (K : Keys) (d d' : Disk World) : Prop extends Proceeds K d d' where
  tree : d'.tree = d.tree

/-- Besides, no transfer has been made. -/
structure Settled (K : Keys) (d d' : Disk World) : Prop extends Undisturbed K d d' where
  io : d'.world.io = d.world.io

theorem Proceeds.refl (h : Coherent K d) : Proceeds K d d := ⟨h, .refl d, fun h => h⟩

/-- The second part begins with the cache the first one has left. -/
theorem Proceeds.trans (h : Proceeds K' d d') (h' : Proceeds K d' d'') : Proceeds K d d'' :=
  ⟨h'.coherent, h.kept.trans h'.kept, fun hp => h'.names (h.names hp)⟩

theorem proceeds_grows (h : Coherent K d) (hg : d.Grows d') : Proceeds K d d' :=
  ⟨h.grows hg, hg.kept, hg.world.docs⟩

theorem Undisturbed.refl (h : Coherent K d) : Undisturbed K d d := ⟨.refl h, rfl⟩

theorem Undisturbed.trans (h : Undisturbed K' d d') (h' : Undisturbed K d' d'') :
    Undisturbed K d d'' :=
  ⟨h.toProceeds.trans h'.toProceeds, h'.tree.trans h.tree⟩

theorem undisturbed_quiet (h : Coherent K d) (hq : d.Quiet d') : Undisturbed K d d' :=
  ⟨proceeds_grows h hq.toGrows, hq.tree⟩

theorem Settled.refl (h : Coherent K d) : Settled K d d := ⟨.refl h, rfl⟩

theorem Settled.trans (h : Settled K' d d') (h' : Settled K d' d'') : Settled K d d'' :=
  ⟨h.toUndisturbed.trans h'.toUndisturbed, h'.io.trans h.io⟩

theorem settled_quiet (h : Coherent K d) (hq : d.Quiet d') (hio : d'.world.io = d.world.io) :
    Settled K d d' :=
  ⟨undisturbed_quiet h hq, hio⟩

variable {F : Type}

/-- What is closed may lose its key; what stays may not. -/
theorem closeWhere_spec (p : OpenDescriptor → Bool) (h : Coherent K d)
    (hK : ∀ entry ∈ d.descriptors, p entry = false → K entry.storage entry.file entry.path →
      K' entry.storage entry.file entry.path) {R : F → Disk World → Prop} :
    wp (closeWhere G.env p : Exec (Disk World) F Unit) (fun _ d' => Settled K' d d') R d := by
  rw [closeWhere, wp_bind, wp_get, wp_bind]
  set left := d.descriptors.filter fun entry => !p entry with hleft
  have hstart : Coherent K' { d with descriptors := left } :=
    (h.sublist List.filter_sublist).mono fun entry he => by
      obtain ⟨hmem, hp⟩ := List.mem_filter.mp he
      exact hK entry hmem (by simpa using hp)
  refine wp_forEach_inv (fun d' => d'.descriptors = d.descriptors ∧
      Settled K' { d with descriptors := left } { d' with descriptors := left })
    ⟨rfl, .refl hstart⟩ ?_ ?_
  · rintro entry he d' ⟨hdescriptors, hsettled⟩
    obtain ⟨hmem, hp⟩ := List.mem_filter.mp he
    rw [callClose, wp_ask]
    refine ⟨hdescriptors, hsettled.trans ⟨⟨⟨hsettled.coherent.close fun other ho heq => ?_,
      ⟨rfl, fun h => h, fun h => h⟩, fun h => h⟩, rfl⟩, rfl⟩⟩
    obtain ⟨hother, hpo⟩ := List.mem_filter.mp ho
    obtain rfl := List.inj_on_of_nodup_map h.nodup hother hmem heq
    simp [hp] at hpo
  · rintro d' ⟨hdescriptors, hsettled⟩
    rw [wp_modify, hdescriptors]
    exact ⟨⟨⟨hsettled.coherent,
      ⟨hsettled.kept.validate, hsettled.kept.willing, hsettled.kept.smooth⟩, hsettled.names⟩,
      hsettled.tree⟩, hsettled.io⟩

/-- After it nothing is open for the file, under whatever path it was. -/
theorem closeFile_spec (storage : Nat) (file : Int) (h : Coherent K d)
    {R : F → Disk World → Prop} :
    wp (closeFile G.env storage file : Exec (Disk World) F Unit)
      (fun _ d' => Settled (fun s f path => K s f path ∧ ¬ (s = storage ∧ f = file)) d d') R d := by
  refine closeWhere_spec G _ h fun entry _ hp hkey => ⟨hkey, fun ⟨hs, hf⟩ => ?_⟩
  simp [hs, hf] at hp

/-- After it nothing is open for the storage at all. -/
theorem closeStorage_spec (storage : Nat) (h : Coherent K d) {R : F → Disk World → Prop} :
    wp (closeStorage G.env storage : Exec (Disk World) F Unit)
      (fun _ d' => Settled (fun s f path => K s f path ∧ s ≠ storage) d d') R d := by
  refine closeWhere_spec G _ h fun entry _ hp hkey => ⟨hkey, fun hs => ?_⟩
  simp [hs] at hp

/-- Fewer entries, and the ones left as current as before. -/
theorem evictToLimit_spec (turns : Nat) (h : Coherent K d) {R : F → Disk World → Prop} :
    wp (evictToLimit G.env turns : Exec (Disk World) F Unit) (fun _ d' => Settled K d d') R d := by
  induction turns generalizing d with
  | zero => exact .refl h
  | succ turns ih =>
    rw [evictToLimit, wp_bind, wp_get, wp_ite]
    refine ⟨fun _ => ?_, fun _ => .refl h⟩
    rw [wp_bind, evictOne, wp_bind, wp_get]
    cases hold : oldest d.descriptors with
    | none => exact ih h
    | some entry =>
      have hmem := mem_of_oldest hold
      simp only [callClose, wp_bind, wp_ask, wp_modify]
      refine wp_mono (ih (h.drop List.erase_sublist (List.perm_cons_erase hmem))) ?_
        fun _ _ h => h
      intro _ d' hsettled
      exact ⟨⟨⟨hsettled.coherent,
        ⟨hsettled.kept.validate, hsettled.kept.willing, hsettled.kept.smooth⟩, hsettled.names⟩,
        hsettled.tree⟩, hsettled.io⟩

/-! ## `open_file` -/

/-- What `open_file` says on a willing bridge when it opens nothing. -/
def openFailure (file : Int) (path : Path) (write : Bool) (operation : Operation) : StorageError :=
  if safeRelativePath path = false then invalidArgument file (if write then .mkdir else operation)
  else makeError (-enoent) file operation

/-- `open_file` has answered `fd`. -/
structure Opened (K : Keys) (d d' : Disk World) (fd : Int) (path : Path) (write : Bool) : Prop
    extends Proceeds K d d' where
  io : d'.world.io = d.world.io
  tree : d'.tree = World.touched (if write then .readWrite else .read) path d.tree
  refers : ∃ writable, (write = true → writable = true) ∧ d'.world.Refers fd path writable
  safe : safeRelativePath path = true
  found : write = false → d.tree path ≠ none

/-- `open_file` has stopped with `e`. -/
structure NotOpened (K : Keys) (d d' : Disk World) (e : StorageError) (file : Int) (path : Path)
    (write : Bool) (operation : Operation) : Prop extends Settled K d d' where
  reason : d.world.Willing →
    (safeRelativePath path = false ∨ (write = false ∧ d.tree path = none)) ∧
      e = openFailure file path write operation

variable {storage : Nat} {file : Int} {path : Path} {write : Bool} {operation : Operation}

theorem Opened.after (hs : Settled K d d') {fd : Int} (h : Opened K d' d'' fd path write) :
    Opened K d d'' fd path write :=
  ⟨hs.toProceeds.trans h.toProceeds, h.io.trans hs.io, by rw [h.tree, hs.tree], h.refers, h.safe,
    by rw [← hs.tree]; exact h.found⟩

theorem NotOpened.after (hs : Settled K d d') {e : StorageError}
    (h : NotOpened K d' d'' e file path write operation) :
    NotOpened K d d'' e file path write operation :=
  ⟨hs.trans h.toSettled, fun hw => by rw [← hs.tree]; exact h.reason (hs.kept.willing hw)⟩

/-- A miss: room is made, and the bridge is asked. -/
theorem openAndStore_spec (h : Coherent K d)
    (hkey : safeRelativePath path = true → K storage file path)
    (hmkdir : write = true → safeRelativePath path = true) :
    wp (openAndStore G.env storage file path write operation)
      (fun fd d' => Opened K d d' fd path write)
      (fun e d' => NotOpened K d d' e file path write operation) d := by
  rw [openAndStore, wp_bind, wp_throwIf]
  refine ⟨fun hrefused => ⟨.refl h, fun _ => ⟨Or.inl hrefused, ?_⟩⟩, fun hsafe => ?_⟩
  -- a path to be written to was refused earlier, with its directories
  · have hread : write = false := by
      cases write with
      | false => rfl
      | true => rw [hmkdir rfl] at hrefused; cases hrefused
    rw [openFailure, if_pos hrefused, hread]
    rfl
  rw [wp_bind, wp_get, wp_bind]
  refine wp_mono (evictToLimit_spec G d.descriptors.length h) ?_ fun _ _ h => h
  intro _ d₁ hsettled
  rw [wp_bind]
  refine callOpenFile_spec G path _ hsettled.coherent.sound ?_ ?_
  · intro fd d₂ hnonneg hgrows hio hfresh hrefers htree hfound
    simp only [wp_bind, wp_throwIf, wp_modify, wp_ret]
    refine ⟨fun hneg => absurd hneg (by omega), fun _ => ?_⟩
    have hcoherent := hsettled.coherent.grows hgrows
    have hmode :
        decide ((if write = true then Mode.readWrite else .read) = .readWrite) = write := by
      cases write <;> rfl
    rw [hmode] at hrefers
    refine ⟨⟨hcoherent.store (hkey (by simpa using hsafe)) (by simpa using hsafe) hrefers
        (fun other ho => ?_) _ _ _,
      hsettled.kept.trans ⟨hgrows.kept.validate, hgrows.kept.willing, hgrows.kept.smooth⟩,
      fun hp => hgrows.world.docs (hsettled.names hp)⟩, hio.trans hsettled.io, ?_,
      ⟨write, fun h => h, hrefers⟩, by simpa using hsafe, fun hw => ?_⟩
    · rw [hgrows.descriptors] at ho
      exact hsettled.coherent.fresh hfresh other ho
    · exact htree.trans (by rw [hsettled.tree])
    · rw [← hsettled.tree]
      exact hfound (by rw [hw]; rfl)
  · intro result d₂ hneg hquiet hio _ hwilling
    rw [wp_bind, wp_throwIf]
    refine ⟨fun _ => ⟨hsettled.trans (settled_quiet hsettled.coherent hquiet hio), fun hw => ?_⟩,
      fun hn => absurd hneg hn⟩
    obtain ⟨hmode, hnone, rfl⟩ := hwilling (hsettled.kept.willing hw)
    have hread : write = false := by cases write <;> simp_all
    refine ⟨Or.inr ⟨hread, by rw [← hsettled.tree]; exact hnone⟩, ?_⟩
    rw [openFailure, if_neg (by simpa using hsafe)]

/-- Directories are made for a write only, and only on a safe path. -/
theorem openUncached_spec (h : Coherent K d)
    (hkey : safeRelativePath path = true → K storage file path) :
    wp (openUncached G.env storage file path write operation)
      (fun fd d' => Opened K d d' fd path write)
      (fun e d' => NotOpened K d d' e file path write operation) d := by
  rw [openUncached, wp_ite]
  refine ⟨fun hw => ?_, fun hw => openAndStore_spec G h hkey fun hw' => absurd hw' hw⟩
  subst hw
  rw [wp_bind]
  refine wp_mono (ensureParentDirectories_spec G path file d) ?_ ?_
  · rintro _ d₁ ⟨hquiet, hio, hsafe⟩
    have hsettled := settled_quiet h hquiet hio
    refine wp_mono (openAndStore_spec G hsettled.coherent hkey fun _ => hsafe) ?_ ?_
    · exact fun _ _ hopened => hopened.after hsettled
    · exact fun _ _ hfailed => hfailed.after hsettled
  · rintro e d₁ ⟨hquiet, hio, hwilling⟩
    refine ⟨settled_quiet h hquiet hio, fun hw => ?_⟩
    obtain ⟨hrefused, rfl⟩ := hwilling hw
    exact ⟨Or.inl hrefused, by rw [openFailure, if_pos hrefused]; rfl⟩

/-- **`open_file` is transparent**: with or without the cache, the descriptor it answers
    refers to the document stored at the path. -/
theorem openFile_spec (reuse : Bool) (h : Coherent K d)
    (hkey : safeRelativePath path = true → K storage file path) :
    wp (openFile G.env reuse storage file path write operation)
      (fun fd d' => Opened K d d' fd path write)
      (fun e d' => NotOpened K d d' e file path write operation) d := by
  rw [openFile, wp_bind, wp_get]
  cases hfind : (if reuse then d.descriptors.find? (·.isFor storage file path) else none) with
  | none => exact openUncached_spec G h hkey
  | some entry =>
    have hfind' : d.descriptors.find? (·.isFor storage file path) = some entry := by
      cases reuse <;> simp_all
    have hmem := List.mem_of_find?_eq_some hfind'
    obtain ⟨-, -, hpath⟩ := isFor_iff.mp (List.find?_some hfind')
    have hcurrent := h.current entry hmem
    have hsafe := h.safe entry hmem
    rw [hpath] at hcurrent hsafe
    dsimp only
    rw [wp_ite]
    refine ⟨fun husable => ?_, fun _ => ?_⟩
    -- the entry found is good for what is wanted
    · rw [wp_bind, wp_modify, wp_ret]
      obtain ⟨doc, hdoc⟩ := hcurrent.content
      have htouch := h.touch (p := (·.isFor storage file path)) hmem (d.useCounter + 1)
        (d.useCounter + 1)
      rw [hpath] at htouch
      refine ⟨⟨htouch, ⟨rfl, fun h => h, fun h => h⟩, fun h => h⟩, rfl,
        (World.touched_of_some hdoc).symm,
        ⟨entry.writable, fun hw => ?_, hcurrent⟩, hsafe, fun _ hnone => ?_⟩
      · rcases husable with hread | hwritable
        · rw [hw] at hread; cases hread
        · exact hwritable
      · rw [Disk.tree, hdoc] at hnone
        cases hnone
    -- it was opened for reading: it is dropped, closed and opened anew
    · simp only [callClose, wp_bind, wp_ask, wp_modify]
      have hdrop := h.drop List.eraseP_sublist (perm_eraseP_of_find? hfind')
      have hsettled : Settled K d _ :=
        ⟨⟨⟨hdrop, ⟨rfl, fun h => h, fun h => h⟩, fun h => h⟩, rfl⟩, rfl⟩
      refine wp_mono (openUncached_spec G hdrop hkey) ?_ ?_
      · exact fun _ _ hopened => hopened.after hsettled
      · exact fun _ _ hfailed => hfailed.after hsettled

end Saf
end Libtorrent4j
