import Libtorrent4j.Saf.Copies
import Libtorrent4j.Saf.Coherence
import Libtorrent4j.Saf.Naming

/-!
# Moving a storage

`move_storage` plans first and copies then. Planning only looks; what it has found out about
the destinations is what makes the copies and the clean-up safe:

* a destination is no other file's current path, so **no copy writes over a source**;
* two files have two destinations, so no copy writes over another;
* a source that is some file's destination is not cleaned up.

`moveStorage_spec` says what a move leaves at every path, whether it reports an error or not.
-/

namespace Libtorrent4j
namespace Saf

open Lib Lib.Exec TorrentStorage

/-! ## What keeps a cache coherent -/

/-- No document has lost its name but at paths in `S`; a coherent cache without entries there
    stays coherent. -/
structure Disk.Spares (S : Path → Prop) (d d' : Disk World) : Prop where
  sound : d.world.Sound → d'.world.Sound
  kept : d.Kept d'
  names : ∀ {p n}, d.world.docs p = some n → ¬ S p → d'.world.docs p = some n
  coherent : ∀ {K : Keys}, (∀ s f p, K s f p → ¬ S p) → Coherent K d → Coherent K d'

/-- Descriptors were closed; the documents are as they were. -/
structure Disk.Still (d d' : Disk World) : Prop where
  sound : d.world.Sound → d'.world.Sound
  kept : d.Kept d'
  docs : d'.world.docs = d.world.docs
  tree : d'.tree = d.tree

namespace Disk

variable {S : Path → Prop} {d d' d'' : Disk World}

theorem Spares.refl (d : Disk World) : d.Spares S d :=
  ⟨fun h => h, .refl d, fun h _ => h, fun _ h => h⟩

theorem Spares.trans (h : d.Spares S d') (h' : d'.Spares S d'') : d.Spares S d'' :=
  ⟨fun hs => h'.sound (h.sound hs), h.kept.trans h'.kept,
    fun hp hS => h'.names (h.names hp hS) hS,
    fun hK hc => h'.coherent hK (h.coherent hK hc)⟩

theorem Grows.spares (h : d.Grows d') : d.Spares S d' :=
  ⟨h.world.sound, h.kept, fun hp _ => h.world.docs hp, fun _ hc => hc.grows h⟩

theorem Unlinks.spares {path : Path} (h : d.Unlinks d' path) (hS : S path) : d.Spares S d' := by
  refine ⟨fun hs => ?_, h.kept, fun {p n} hp hnot => ?_, fun hK hc => ?_⟩
  · rw [h.world]
    exact (d.world.grows_afterBridge.sound hs).unlink path
  · have hne : p ≠ path := by
      rintro rfl
      exact hnot hS
    rw [h.world]
    change Function.update d.world.docs path none p = some n
    rw [Function.update_of_ne hne]
    exact hp
  · exact hc.unlinks h fun s f hkey => hK s f path hkey hS

theorem Still.refl (d : Disk World) : d.Still d := ⟨fun h => h, .refl d, rfl, rfl⟩

theorem Still.trans (h : d.Still d') (h' : d'.Still d'') : d.Still d'' :=
  ⟨fun hs => h'.sound (h.sound hs), h.kept.trans h'.kept, h'.docs.trans h.docs,
    h'.tree.trans h.tree⟩

/-- Where the documents are as they were, they have their old names. -/
theorem Quiet.still (h : d.Quiet d') : d.Still d' := by
  refine ⟨h.world.sound, h.kept, ?_, h.tree⟩
  funext p
  cases hd : d.world.docs p with
  | some n => exact h.world.docs hd
  | none =>
    have htree : d'.tree p = d.tree p := congrFun h.tree p
    rw [Disk.tree, Disk.tree, World.content_eq_none.mpr hd] at htree
    exact World.content_eq_none.mp htree

end Disk

variable (G : Host) {F : Type} {d d' : Disk World}

/-- Closing entries leaves the documents alone, whatever the entries refer to. -/
theorem closeWhere_still (p : OpenDescriptor → Bool) {R : F → Disk World → Prop} :
    wp (closeWhere G.env p : Exec (Disk World) F Unit) (fun _ d' => d.Still d') R d := by
  rw [closeWhere, wp_bind, wp_get, wp_bind]
  refine wp_forEach_inv (fun d' => d.Still d') (.refl d) ?_ ?_
  · intro entry _ d' hd'
    rw [callClose, wp_ask]
    exact hd'.trans ⟨fun hs => ⟨hs.inj, hs.bound⟩, ⟨rfl, fun h => h, fun h => h⟩, rfl, rfl⟩
  · intro d' hd'
    exact ⟨hd'.sound, ⟨hd'.kept.validate, hd'.kept.willing, hd'.kept.smooth⟩, hd'.docs, hd'.tree⟩

/-- After `close_storage` a coherent cache has no entry of the slot. -/
theorem closeStorage_still (storage : Nat) {R : F → Disk World → Prop} :
    wp (closeStorage G.env storage : Exec (Disk World) F Unit)
      (fun _ d' => d.Still d' ∧ ∀ K : { K : Keys // Coherent K d },
        Coherent (fun s f p => K.1 s f p ∧ s ≠ storage) d') R d := by
  refine wp_mono (wp_and (R := R) (S := fun _ _ => True) (closeWhere_still G _)
    (wp_mono (wp_forall (R := fun _ _ _ => True)
      fun K : { K : Keys // Coherent K d } => closeStorage_spec G storage K.2) (fun _ _ h => h)
      fun _ _ _ => trivial)) ?_ fun _ _ h => h.1
  exact fun _ _ h => ⟨h.1, fun K => (h.2 K).coherent⟩

/-! ## Planning -/

/-- The move's checks are passed: those that look at the torrent, the bridge's, and under
    `fail_if_exist` the one of the destinations. -/
structure TorrentStorage.MoveAllowed (t : TorrentStorage) (root : Path) (flags : MoveFlags)
    (d : Disk World) : Prop where
  accepted : t.MoveAccepted root
  valid : root = [] ∨ 0 ≤ d.world.validate root
  free : flags = .failIfExist → ∀ i < t.numFiles, t.files.padFileAt i = false →
    d.tree (t.destination root i) = none

/-- What the stat pass has found out about a file. -/
structure Planned (flags : MoveFlags) (tree : Path → Option (List Byte))
    (operation operation' : MoveOperation) : Prop where
  same : operation.SameFile operation'
  found : operation'.cleanup = true → ∃ doc, tree operation.source = some doc ∧
    operation'.sourceSize.toNat = doc.length
  missing : operation'.cleanup = false → tree operation.source = none
  copy : operation'.copy = true ↔ operation'.cleanup = true ∧
    ¬ (flags = .dontReplace ∧ tree operation.destination ≠ none)

theorem validateRoot_spec (root : Path) (d : Disk World) :
    wp (validateRoot G.env root)
      (fun result d' => d.Quiet d' ∧ (0 ≤ result → root = [] ∨ 0 ≤ d.world.validate root) ∧
        (d.world.Willing → root = [] ∨ 0 ≤ d.world.validate root → 0 ≤ result))
      (fun _ _ => False) d := by
  rw [validateRoot, wp_ite]
  refine ⟨fun hroot => ?_, fun hroot => ?_⟩
  · exact ⟨.refl d, fun _ => Or.inl (by simpa using hroot), fun _ _ => le_rfl⟩
  · refine callValidatePath_spec G root fun result d' hquiet _ hwilling hnonneg =>
      ⟨hquiet, fun h => Or.inr (hnonneg h ▸ h), fun hw h => ?_⟩
    rcases h with hnil | hvalid
    · simp [hnil] at hroot
    · rw [hwilling hw]
      exact hvalid

/-- `move_storage` has closed the storage and looked; it goes on only if the torrent and the
    bridge allow it. -/
theorem checkMove_spec (t : TorrentStorage) (storage : Nat) (root : Path) (d : Disk World) :
    wp (checkMove G.env t storage root)
      (fun operations d' => operations = t.moveOperations root ∧ t.MoveAccepted root ∧
        (root = [] ∨ 0 ≤ d.world.validate root) ∧ d.Still d' ∧
        ∀ K : { K : Keys // Coherent K d }, Coherent (fun s f p => K.1 s f p ∧ s ≠ storage) d')
      (fun _ d' => d.Still d' ∧
        (∀ K : { K : Keys // Coherent K d }, Coherent (fun s f p => K.1 s f p ∧ s ≠ storage) d') ∧
        (d.world.Willing →
          ¬ (t.MoveAccepted root ∧ (root = [] ∨ 0 ≤ d.world.validate root)))) d := by
  rw [checkMove, wp_bind]
  refine wp_mono (closeStorage_still (R := fun _ _ => False) G storage) ?_ fun _ _ h => h.elim
  rintro _ d₁ ⟨hstill, hclosed⟩
  -- the paths first, then what a destination would collide with, and the root last
  rw [wp_bind]
  refine wp_forEach_throwIf (fun index hindex hrefused => ⟨hstill, hclosed, fun _ haccepted => ?_⟩)
    fun hsafe => ?_
  · obtain ⟨hlogical, hpath⟩ := haccepted.1.1 index (t.files.mem_indices.mp hindex)
    rcases hrefused with h | h <;> simp_all
  rw [wp_bind]
  refine wp_forEach_throwIf
    (fun operation hop hcollides => ⟨hstill, hclosed, fun _ haccepted => ?_⟩)
    fun hclear => ?_
  · rw [haccepted.1.2 operation hop] at hcollides
    cases hcollides
  have haccepted : t.MoveAccepted root := by
    refine ⟨fun i hi => ?_, fun operation hop => by simpa using hclear operation hop⟩
    have := hsafe i (t.files.mem_indices.mpr hi)
    simpa [not_or] using this
  rw [wp_bind]
  refine wp_mono (validateRoot_spec G root d₁) ?_ fun _ _ h => h.elim
  rintro validation d₂ ⟨hquiet, hvalid, hwilling⟩
  have hstill₂ := hstill.trans hquiet.still
  have hclosed₂ := fun K => (hclosed K).grows hquiet.toGrows
  rw [hstill.kept.validate] at hvalid hwilling
  rw [wp_bind, wp_throwIf, wp_ret]
  refine ⟨fun hneg => ⟨hstill₂, hclosed₂, fun hw h => ?_⟩,
    fun hnonneg => ⟨rfl, haccepted, hvalid (by omega), hstill₂, hclosed₂⟩⟩
  have := hwilling (hstill.kept.willing hw) h.2
  omega

/-- The pass of `fail_if_exist` finds every destination free. -/
theorem refuseExisting_spec (t : TorrentStorage) (root : Path) (d : Disk World) :
    wp (refuseExisting G.env t root)
      (fun _ d' => d.Quiet d' ∧
        ∀ i < t.numFiles, t.files.padFileAt i = false → d.tree (t.destination root i) = none)
      (fun _ d' => d.Quiet d' ∧ (d.world.Willing →
        ∃ i < t.numFiles, t.files.padFileAt i = false ∧
          d.tree (t.destination root i) ≠ none)) d := by
  rw [refuseExisting]
  refine wp_forEach (fun done d' => d.Quiet d' ∧ ∀ i ∈ done, t.files.padFileAt i = false →
    d.tree (t.destination root i) = none) ⟨.refl d, by simp⟩ ?_ ?_
  · rintro done index rest d' hlist ⟨hquiet, hfree⟩
    have hindex : index < t.numFiles := t.files.mem_indices.mp (by rw [hlist]; simp)
    have hmore : (t.files.padFileAt index = false → d.tree (t.destination root index) = none) →
        ∀ i ∈ done ++ [index], t.files.padFileAt i = false →
          d.tree (t.destination root i) = none := by
      intro hnew i hi
      rcases List.mem_append.mp hi with hi | hi
      · exact hfree i hi
      · obtain rfl := List.mem_singleton.mp hi
        exact hnew
    rw [wp_ite]
    refine ⟨fun hpad => ⟨hquiet, hmore fun h => by rw [hpad] at h; cases h⟩, fun hpad => ?_⟩
    rw [wp_bind]
    refine callFileSize_spec G _ fun size d'' hcalled _ hnonneg hnone hwilling => ?_
    have hquiet'' := hquiet.trans hcalled
    rw [hquiet.tree] at hnonneg hnone hwilling
    rw [wp_bind, wp_throwIf, wp_throwIf]
    refine ⟨fun hexists =>
        ⟨hquiet'', fun _ => ⟨index, hindex, by simpa using hpad, fun hmissing => ?_⟩⟩,
      fun _ => ⟨fun hother => ⟨hquiet'', fun hw => ⟨index, hindex, by simpa using hpad,
        fun hmissing => ?_⟩⟩,
        fun hmissing => ⟨hquiet'', hmore fun _ => hnone (by simpa using hmissing)⟩⟩⟩
    · obtain ⟨doc, hdoc, -⟩ := World.doc_of_sizeAnswer (hnonneg hexists ▸ hexists)
      rw [hmissing] at hdoc
      cases hdoc
    · have hsize := hwilling (hquiet.world.willing hw)
      rw [hmissing] at hsize
      exact hother hsize
  · rintro d' ⟨hquiet, hfree⟩
    exact ⟨hquiet, fun i hi => hfree i (t.files.mem_indices.mpr hi)⟩

theorem statOperations_spec (flags : MoveFlags) (operations : List MoveOperation)
    (status : Status) (d : Disk World) :
    wp (statOperations G.env flags operations status)
      (fun answer d' => d.Quiet d' ∧
        List.Forall₂ (Planned flags d.tree) operations answer.1 ∧
        answer.2 = { status with needFullCheck := answer.2.needFullCheck } ∧
        (answer.2.needFullCheck = true ↔ status.needFullCheck = true ∨
          flags = .dontReplace ∧ ∃ operation ∈ operations, d.tree operation.destination ≠ none))
      (fun _ d' => d.Quiet d' ∧ ¬ d.world.Willing) d := by
  induction operations generalizing status d with
  | nil => exact ⟨.refl d, .nil, rfl, by simp⟩
  | cons operation rest ih =>
    rw [statOperations, wp_bind]
    refine callFileSize_spec G _ fun destinationSize d₁ hquiet₁ _ hnonneg hnone hwilling => ?_
    rw [wp_bind, wp_throwIf]
    refine ⟨fun hfault => ⟨hquiet₁, fun hw => ?_⟩, fun hdestination => ?_⟩
    · exact World.sizeAnswer_benign _ (hwilling hw ▸ hfault)
    rw [wp_bind]
    refine callFileSize_spec G _ fun sourceSize d₂ hquiet₂ _ hnonneg' hnone' hwilling' => ?_
    rw [hquiet₁.tree] at hnonneg' hnone' hwilling'
    have hquiet := hquiet₁.trans hquiet₂
    rw [wp_bind, wp_throwIf]
    refine ⟨fun hfault => ⟨hquiet, fun hw => ?_⟩, fun hsource => ?_⟩
    · exact World.sizeAnswer_benign _ (hwilling' (hquiet₁.world.willing hw) ▸ hfault)
    -- a size that is not negative is that of a document, any other one means there is none
    have hthere : 0 ≤ destinationSize ↔ d.tree operation.destination ≠ none := by
      constructor
      · intro hpos
        obtain ⟨doc, hdoc, -⟩ := World.doc_of_sizeAnswer (hnonneg hpos ▸ hpos)
        exact Option.ne_none_iff_exists'.mpr ⟨doc, hdoc⟩
      · intro hne
        by_contra hneg
        exact hne (hnone (by omega))
    rw [wp_bind]
    refine wp_mono (ih _ d₂) ?_ fun _ d₃ h =>
      ⟨hquiet.trans h.1, fun hw => h.2 (hquiet.world.willing hw)⟩
    rintro ⟨answer, status'⟩ d₃ ⟨hquiet₃, hplanned, hstatus, hkept⟩
    rw [hquiet.tree] at hplanned hkept
    refine ⟨hquiet.trans hquiet₃, .cons ⟨⟨rfl, rfl, rfl⟩, ?_, ?_, ?_⟩ hplanned, hstatus, ?_⟩
    · intro hcleanup
      have hpos : 0 ≤ sourceSize := by simpa using hcleanup
      obtain ⟨doc, hdoc, hsize⟩ := World.doc_of_sizeAnswer (hnonneg' hpos ▸ hpos)
      refine ⟨doc, hdoc, ?_⟩
      dsimp only
      rw [hnonneg' hpos, hsize]
      rfl
    · intro hcleanup
      have hneg : ¬ 0 ≤ sourceSize := by simpa using hcleanup
      exact hnone' (by omega)
    · rw [← hthere]
      simp only [Bool.and_eq_true, Bool.not_eq_true', decide_eq_false_iff_not, decide_eq_true_eq]
      exact and_comm
    · dsimp only at hkept ⊢
      rw [hkept, Bool.or_eq_true, decide_eq_true_eq, hthere, List.exists_mem_cons_iff, and_or_left,
        or_assoc]

theorem statMove_spec (t : TorrentStorage) (root : Path) (flags : MoveFlags)
    (operations : List MoveOperation) (d : Disk World) :
    wp (statMove G.env t root flags operations)
      (fun answer d' => d.Quiet d' ∧
        List.Forall₂ (Planned flags d.tree) operations answer.1 ∧
        answer.2 = { needFullCheck := answer.2.needFullCheck } ∧
        (answer.2.needFullCheck = true ↔
          flags = .dontReplace ∧ ∃ operation ∈ operations, d.tree operation.destination ≠ none) ∧
        (flags = .failIfExist → ∀ i < t.numFiles, t.files.padFileAt i = false →
          d.tree (t.destination root i) = none))
      (fun _ d' => d.Quiet d' ∧ (d.world.Willing → flags = .failIfExist ∧
        ∃ i < t.numFiles, t.files.padFileAt i = false ∧
          d.tree (t.destination root i) ≠ none)) d := by
  rw [statMove, wp_bind, wp_onlyIf]
  refine ⟨fun hflags => ?_, fun hflags => ?_⟩
  · refine wp_mono (refuseExisting_spec G t root d) ?_ fun _ _ h =>
      ⟨h.1, fun hw => ⟨hflags, h.2 hw⟩⟩
    rintro _ d₁ ⟨hquiet, hfree⟩
    refine wp_mono (statOperations_spec G flags operations {} d₁) ?_ ?_
    · rintro answer d₂ ⟨hquiet₂, hplanned, hstatus, hkept⟩
      rw [hquiet.tree] at hplanned hkept
      exact ⟨hquiet.trans hquiet₂, hplanned, hstatus, by simpa using hkept, fun _ => hfree⟩
    · exact fun _ d₂ h => ⟨hquiet.trans h.1, fun hw => absurd (hquiet.world.willing hw) h.2⟩
  · refine wp_mono (statOperations_spec G flags operations {} d) ?_ ?_
    · rintro answer d₂ ⟨hquiet₂, hplanned, hstatus, hkept⟩
      exact ⟨hquiet₂, hplanned, hstatus, by simpa using hkept, fun h => absurd h hflags⟩
    · exact fun _ d₂ h => ⟨h.1, fun hw => absurd hw h.2⟩

/-! ## Copying and cleaning up -/

/-- No operation writes over a source, or over another operation's destination. -/
structure Separate (operations : List MoveOperation) : Prop where
  sources : ∀ a ∈ operations, ∀ b ∈ operations, a.source ≠ b.destination
  distinct : operations.Pairwise fun a b => a.destination ≠ b.destination

/-- What has been copied is at the destinations, and nothing else has changed. -/
structure Copied (operations : List MoveOperation) (tree tree' : Path → Option (List Byte)) :
    Prop where
  there : ∀ operation ∈ operations, operation.copy = true →
    ∃ doc, tree operation.source = some doc ∧ operation.sourceSize.toNat ≤ doc.length ∧
      tree' operation.destination = some (Doc.slice doc 0 operation.sourceSize.toNat)
  frame : ∀ path, (∀ operation ∈ operations, operation.copy = true → path ≠ operation.destination) →
    tree' path = tree path

theorem copyOperations_spec (hs : d.world.Sound) {operations : List MoveOperation}
    (hseparate : Separate operations) (status : Status) :
    wp (copyOperations G.env operations status)
      (fun _ d' => d.Grows d' ∧ Copied operations d.tree d'.tree)
      (fun _ d' => d.Grows d' ∧
        (∀ path, (∀ operation ∈ operations, operation.copy = true → path ≠ operation.destination) →
          d'.tree path = d.tree path) ∧
        (d.world.Willing → d.world.Smooth → ∃ operation ∈ operations, operation.copy = true ∧
          CopyFails d.tree operation.source operation.destination
            operation.sourceSize.toNat)) d := by
  rw [copyOperations]
  refine wp_forEach (fun done d' => d.Grows d' ∧ Copied done d.tree d'.tree)
    ⟨.refl d, by simp, fun _ _ => rfl⟩ ?_ fun _ h => h
  rintro done operation rest d₁ hlist ⟨hgrows, hcopied⟩
  have hmem : operation ∈ operations := by simp [hlist]
  have hdone : ∀ other ∈ done, other ∈ operations := fun other ho => by simp [hlist, ho]
  have hother : ∀ other ∈ done, other.destination ≠ operation.destination := by
    have := hseparate.distinct
    rw [hlist, List.pairwise_append] at this
    exact fun other ho => this.2.2 other ho operation (by simp)
  -- the source has not been written over so far
  have hsource : d₁.tree operation.source = d.tree operation.source :=
    hcopied.frame _ fun other ho _ => hseparate.sources operation hmem other (hdone other ho)
  rw [wp_onlyIf]
  refine ⟨fun hcopy => ?_, fun hcopy => ⟨hgrows, fun other ho => ?_, fun path hpath => ?_⟩⟩
  · rw [wp_mapError]
    refine wp_mono (copyPublicFile_spec G (hgrows.world.sound hs)
      (hseparate.sources operation hmem operation hmem) _ _) ?_ ?_
    · rintro _ d₂ ⟨hgrows₂, doc, hdoc, hle, htree⟩
      rw [hsource] at hdoc
      refine ⟨hgrows.trans hgrows₂, fun other ho hco => ?_, fun path hpath => ?_⟩
      · rcases List.mem_append.mp ho with ho | ho
        · rw [htree, Function.update_of_ne (hother other ho)]
          exact hcopied.there other ho hco
        · obtain rfl := List.mem_singleton.mp ho
          exact ⟨doc, hdoc, hle, by rw [htree, Function.update_self]⟩
      · rw [htree, Function.update_of_ne (hpath operation (by simp) hcopy)]
        exact hcopied.frame path fun other ho => hpath other (by simp [ho])
    · rintro _ d₂ ⟨hgrows₂, hframe, hfails⟩
      refine ⟨hgrows.trans hgrows₂, fun path hpath => ?_, fun hw hsm =>
        ⟨operation, hmem, hcopy, ?_⟩⟩
      · rw [hframe path (hpath operation hmem hcopy)]
        exact hcopied.frame path fun other ho => hpath other (hdone other ho)
      · have := hfails (hgrows.world.willing hw) (hgrows.world.smooth hsm)
        rwa [CopyFails, hsource] at this
  · rcases List.mem_append.mp ho with ho | ho
    · exact hcopied.there other ho
    · obtain rfl := List.mem_singleton.mp ho
      exact fun h => absurd h hcopy
  · exact hcopied.frame path fun other ho => hpath other (by simp [ho])

/-- The sources the clean-up is about. -/
def Cleaned (operations : List MoveOperation) (destinations : List Path) (path : Path) : Prop :=
  ∃ operation ∈ operations, operation.cleanup = true ∧ operation.source = path ∧
    path ∉ destinations

/-- The clean-up removes sources that are no destination, and nothing else. -/
theorem removeSources_spec (operations : List MoveOperation) (destinations : List Path)
    (d : Disk World) :
    wp (removeSources G.env operations destinations)
      (fun _ d' => d.Spares (Cleaned operations destinations) d' ∧
        (∀ path, d'.tree path = d.tree path ∨
          d'.tree path = none ∧ Cleaned operations destinations path) ∧
        (d.world.Willing → ∀ path, Cleaned operations destinations path → d'.tree path = none))
      (fun _ _ => False) d := by
  rw [removeSources]
  refine wp_forEach (fun done d' => d.Spares (Cleaned operations destinations) d' ∧
    (∀ path, d'.tree path = d.tree path ∨
      d'.tree path = none ∧ Cleaned operations destinations path) ∧
    (d.world.Willing → ∀ path, Cleaned done destinations path → d'.tree path = none))
    ⟨.refl d, fun _ => Or.inl rfl, by simp [Cleaned]⟩ ?_ fun _ h => h
  rintro done operation rest d₁ hlist ⟨hspares, htree, hgone⟩
  have hmem : operation ∈ operations := by simp [hlist]
  rw [wp_onlyIf]
  -- a source that is a destination too holds the file that has been moved there
  refine ⟨fun ⟨hcleanup, hnot⟩ => ?_, fun hskip => ⟨hspares, htree, fun hw path hpath => ?_⟩⟩
  · have hcleaned : Cleaned operations destinations operation.source :=
      ⟨operation, hmem, hcleanup, rfl, hnot⟩
    have hmore : ∀ path, Cleaned (done ++ [operation]) destinations path →
        path = operation.source ∨ Cleaned done destinations path := by
      rintro path ⟨other, ho, hco, hpath, hfree⟩
      rcases List.mem_append.mp ho with ho | ho
      · exact Or.inr ⟨other, ho, hco, hpath, hfree⟩
      · obtain rfl := List.mem_singleton.mp ho
        exact Or.inl hpath.symm
    rw [wp_bind]
    refine callRemove_spec G _ _ ?_ ?_
    · intro d₂ hunlinks _ _
      rw [wp_ret]
      refine ⟨hspares.trans (hunlinks.spares hcleaned), fun path => ?_, fun hw path hpath => ?_⟩
      · by_cases hp : path = operation.source
        · subst hp
          exact Or.inr ⟨by rw [hunlinks.tree, Function.update_self], hcleaned⟩
        · rw [hunlinks.tree, Function.update_of_ne hp]
          exact htree path
      · by_cases hp : path = operation.source
        · rw [hp, hunlinks.tree, Function.update_self]
        · rw [hunlinks.tree, Function.update_of_ne hp]
          exact hgone hw path ((hmore path hpath).resolve_left hp)
    · intro result d₂ _ hquiet _ _ hwilling
      rw [wp_ret, hquiet.tree]
      refine ⟨hspares.trans hquiet.toGrows.spares, htree, fun hw path hpath => ?_⟩
      rcases hmore path hpath with rfl | hpath
      · exact (hwilling (hspares.kept.willing hw)).1
      · exact hgone hw path hpath
  · obtain ⟨other, ho, hco, hsource, hfree⟩ := hpath
    rcases List.mem_append.mp ho with ho | ho
    · exact hgone hw path ⟨other, ho, hco, hsource, hfree⟩
    · obtain rfl := List.mem_singleton.mp ho
      exact absurd ⟨hco, hsource ▸ hfree⟩ hskip

/-! ## The plan -/

def MoveFlags.isReset : MoveFlags → Bool
  | .resetSavePath | .resetSavePathUnchecked => true
  | _ => false

section Plan

variable {W : Type} (E : Env W)

/-- `async_move_storage` up to the first copy: the operations and the status so far, or nothing
    when only the save path is to be reset. -/
def planMove (t : TorrentStorage) (storage : Nat) (path : Path) (flags : MoveFlags) :
    Exec (Disk W) Failure (Option (List MoveOperation × Status)) := do
  throwIf (safeRelativePath path = false)
    ({ fatalDiskError := true }, invalidArgument (-1) .fileRename)
  let operations ← checkMove E t storage (normalizedSaveRoot path)
  if flags.isReset then ret none
  else do
    let plan ← statMove E t (normalizedSaveRoot path) flags operations
    ret (some plan)

/-- The rest of `async_move_storage`. -/
def finishMove (t : TorrentStorage) (path : Path) (flags : MoveFlags) :
    Option (List MoveOperation × Status) → Exec (Sys W) Failure Status
  | none => do
      updateTorrent (·.setSaveRoot (normalizedSaveRoot path))
      ret { needFullCheck := decide (flags = .resetSavePath) }
  | some (operations, status) => do
      onDisk (copyOperations E operations status)
      updateTorrent (·.setSaveRoot (normalizedSaveRoot path))
      onDisk (removeSources E operations (t.destinations (normalizedSaveRoot path)))
      ret status

/-- A move is its plan and the rest. -/
theorem wp_asyncMoveStorage (storage : Nat) (path : Path) (flags : MoveFlags) {s : Sys W}
    {Q : Status → Sys W → Prop} {R : Failure → Sys W → Prop} :
    wp (asyncMoveStorage E storage path flags) Q R s ↔
      wp (onDisk (planMove E s.torrent storage path flags))
        (fun plan => wp (finishMove E s.torrent path flags plan) Q R) R s := by
  have hreset :
      flags.isReset = true ↔ flags = .resetSavePath ∨ flags = .resetSavePathUnchecked := by
    cases flags <;> simp [MoveFlags.isReset]
  simp only [asyncMoveStorage, moveStorage, planMove, finishMove, wp_onDisk, wp_bind, wp_throwIf,
    wp_get, wp_ite, wp_ret, hreset]

end Plan

/-- What a plan is made of when the move only looks. -/
structure PlanOk (t : TorrentStorage) (storage : Nat) (path : Path) (flags : MoveFlags)
    (plan : Option (List MoveOperation × Status)) (d d' : Disk World) : Prop where
  safe : safeRelativePath path = true
  allowed : t.MoveAllowed (normalizedSaveRoot path) flags d
  still : d.Still d'
  closed : ∀ K : { K : Keys // Coherent K d },
    Coherent (fun s f p => K.1 s f p ∧ s ≠ storage) d'
  reset : plan = none ↔ flags.isReset = true
  planned : ∀ operations status, plan = some (operations, status) →
    List.Forall₂ (Planned flags d.tree) (t.moveOperations (normalizedSaveRoot path)) operations ∧
    status = { needFullCheck := status.needFullCheck } ∧
    (status.needFullCheck = true ↔ flags = .dontReplace ∧
      ∃ operation ∈ t.moveOperations (normalizedSaveRoot path),
        d.tree operation.destination ≠ none)

theorem planMove_spec (t : TorrentStorage) (storage : Nat) (path : Path) (flags : MoveFlags)
    (d : Disk World) :
    wp (planMove G.env t storage path flags)
      (fun plan d' => PlanOk t storage path flags plan d d')
      (fun _ d' => d.Still d' ∧ (∀ K : { K : Keys // Coherent K d }, Coherent K.1 d') ∧
        (d.world.Willing → ¬ (safeRelativePath path = true ∧
          t.MoveAllowed (normalizedSaveRoot path) flags d))) d := by
  rw [planMove, wp_bind, wp_throwIf]
  refine ⟨fun hrefused => ⟨.refl d, fun K => K.2, fun _ h => ?_⟩, fun hsafe => ?_⟩
  · rw [h.1] at hrefused
    cases hrefused
  have hsafe' : safeRelativePath path = true := by simpa using hsafe
  rw [wp_bind]
  refine wp_mono (checkMove_spec G t storage _ d) ?_ ?_
  rotate_left
  · rintro _ d₁ ⟨hstill, hclosed, hwilling⟩
    exact ⟨hstill, fun K => (hclosed K).mono fun _ _ h => h.1,
      fun hw h => hwilling hw ⟨h.2.accepted, h.2.valid⟩⟩
  rintro operations d₁ ⟨rfl, haccepted, hvalid, hstill, hclosed⟩
  rw [wp_ite, wp_ret]
  refine ⟨fun hreset => ⟨hsafe', ⟨haccepted, hvalid, ?_⟩, hstill, hclosed, by simp [hreset],
      by simp⟩,
    fun hreset => ?_⟩
  · rintro rfl
    cases hreset
  rw [wp_bind]
  refine wp_mono (statMove_spec G t _ flags _ d₁) ?_ ?_
  · rintro ⟨operations, status⟩ d₂ ⟨hquiet, hplanned, hstatus, hkept, hfree⟩
    rw [hstill.tree] at hplanned hkept hfree
    refine ⟨hsafe', ⟨haccepted, hvalid, hfree⟩, hstill.trans hquiet.still,
      fun K => (hclosed K).grows hquiet.toGrows, by simp [hreset], ?_⟩
    rintro _ _ ⟨⟩
    exact ⟨hplanned, hstatus, hkept⟩
  · rintro _ d₂ ⟨hquiet, hwilling⟩
    refine ⟨hstill.trans hquiet.still,
      fun K => ((hclosed K).mono fun _ _ h => h.1).grows hquiet.toGrows, fun hw h => ?_⟩
    obtain ⟨hflags, i, hi, hpad, hexists⟩ := hwilling (hstill.kept.willing hw)
    rw [hstill.tree] at hexists
    exact hexists (h.2.free hflags i hi hpad)

/-! ## The move -/

/-- The files that are not pad files have different paths. -/
def TorrentStorage.Distinct (t : TorrentStorage) : Prop :=
  ∀ i < t.numFiles, ∀ j < t.numFiles, t.files.padFileAt i = false → t.files.padFileAt j = false →
    t.pathFor i = t.pathFor j → i = j

/-- The paths are the save root joined with the logical paths. -/
def TorrentStorage.Rooted (t : TorrentStorage) : Prop :=
  ∀ i < t.numFiles, t.pathFor i = rootedPath t.saveRoot (t.logicalPath i)

theorem destination_inj {t : TorrentStorage} (hrooted : t.Rooted) (hdistinct : t.Distinct)
    {root : Path} {i j : Nat} (hi : i < t.numFiles) (hj : j < t.numFiles)
    (hpi : t.files.padFileAt i = false) (hpj : t.files.padFileAt j = false)
    (h : t.destination root i = t.destination root j) : i = j := by
  refine hdistinct i hi j hj hpi hpj ?_
  rw [TorrentStorage.destination, TorrentStorage.destination, rootedPath_inj] at h
  rw [hrooted i hi, hrooted j hj, h]

/-- A destination is no other file's current path. -/
theorem TorrentStorage.MoveAccepted.clear {t : TorrentStorage} {root : Path}
    (h : t.MoveAccepted root) {i j : Nat} (hi : i < t.numFiles) (hpi : t.files.padFileAt i = false)
    (hj : j < t.numFiles) (hpj : t.files.padFileAt j = false)
    (hmoves : t.pathFor j ≠ t.destination root j) : t.pathFor i ≠ t.destination root j := by
  intro heq
  by_cases hij : i = j
  · exact hmoves (hij ▸ heq)
  · have hclear := h.2 _ (mem_moveOperations.mpr ⟨j, hj, hpj, hmoves, rfl⟩)
    refine absurd hclear (Bool.eq_false_iff.not.mpr (not_not.mpr ?_))
    exact List.any_eq_true.mpr ⟨i, t.files.mem_indices.mpr hi, by simp [hij, hpi, heq]⟩

/-- **The checks keep the copies apart.** -/
theorem separate_moveOperations {t : TorrentStorage} (hrooted : t.Rooted)
    (hdistinct : t.Distinct) {root : Path} (h : t.MoveAccepted root) :
    Separate (t.moveOperations root) := by
  constructor
  · intro a ha b hb
    obtain ⟨i, hi, hpi, -, rfl⟩ := mem_moveOperations.mp ha
    obtain ⟨j, hj, hpj, hmoves, rfl⟩ := mem_moveOperations.mp hb
    exact h.clear hi hpi hj hpj hmoves
  · have hlt : (t.moveOperations root).Pairwise fun a b => a.index < b.index := by
      refine List.Pairwise.filterMap _ (R := (· < ·)) ?_ List.pairwise_lt_range
      intro i j hij a ha b hb
      split at ha <;> simp at ha
      split at hb <;> simp at hb
      rw [← ha.2, ← hb.2]
      exact hij
    refine hlt.imp_of_mem fun ha hb hab heq => ?_
    obtain ⟨i, hi, hpi, -, rfl⟩ := mem_moveOperations.mp ha
    obtain ⟨j, hj, hpj, -, rfl⟩ := mem_moveOperations.mp hb
    exact hab.ne (destination_inj hrooted hdistinct hi hj hpi hpj heq)

theorem Separate.planned {operations operations' : List MoveOperation}
    (h : Separate operations) (hsame : List.Forall₂ MoveOperation.SameFile operations operations') :
    Separate operations' := by
  constructor
  · intro a' ha' b' hb'
    obtain ⟨a, ha, -, hsource, -⟩ := exists_left hsame ha'
    obtain ⟨b, hb, -, -, hdestination⟩ := exists_left hsame hb'
    rw [hsource, hdestination]
    exact h.sources a ha b hb
  · have hmap : operations'.map (·.destination) = operations.map (·.destination) := by
      clear h
      induction hsame with
      | nil => rfl
      | cons hfirst _ ih => rw [List.map_cons, List.map_cons, hfirst.2.2, ih]
    have hnodup := (List.pairwise_map (f := fun o : MoveOperation => o.destination)
      (R := (· ≠ ·))).mpr h.distinct
    rw [← hmap] at hnodup
    exact List.pairwise_map.mp hnodup

/-- What a move that copies leaves at the file's destination: the document that was at the
    file's path, unless there is none or the one at the destination is to be kept. -/
def TorrentStorage.arrived (t : TorrentStorage) (root : Path) (flags : MoveFlags)
    (tree : Path → Option (List Byte)) (index : Nat) : Option (List Byte) :=
  if (tree (t.pathFor index)).isNone ∨
      (flags = .dontReplace ∧ (tree (t.destination root index)).isSome) then
    tree (t.destination root index)
  else tree (t.pathFor index)

/-- A path the move leaves: a file's, and no file's destination. -/
def TorrentStorage.Left (t : TorrentStorage) (root : Path) (path : Path) : Prop :=
  (∃ i < t.numFiles, t.files.padFileAt i = false ∧ t.pathFor i = path) ∧
    path ∉ t.destinations root

/-- What a move that reports no error has done. -/
structure Moved (t : TorrentStorage) (storage : Nat) (root : Path) (flags : MoveFlags)
    (status : Status) (d d' : Disk World) : Prop where
  sound : d'.world.Sound
  kept : d.Kept d'
  names : ∀ {p n}, d.world.docs p = some n → ¬ t.Left root p → d'.world.docs p = some n
  coherent : ∀ {K : Keys}, Coherent K d → (∀ s f p, K s f p → s ≠ storage → ¬ t.Left root p) →
    Coherent (fun s f p => K s f p ∧ s ≠ storage) d'
  unchanged : flags.isReset = true → d'.tree = d.tree
  there : flags.isReset = false → ∀ i < t.numFiles, t.files.padFileAt i = false →
    d'.tree (t.destination root i) = t.arrived root flags d.tree i
  frame : ∀ path, (∀ i < t.numFiles, t.files.padFileAt i = false → path ≠ t.destination root i) →
    d'.tree path = d.tree path ∨ d'.tree path = none ∧ t.Left root path
  cleaned : flags.isReset = false → d.world.Willing → ∀ path, t.Left root path → d'.tree path = none
  status : flags.isReset = false → status = { needFullCheck := status.needFullCheck } ∧
    (status.needFullCheck = true ↔ flags = .dontReplace ∧
      ∃ i < t.numFiles, t.files.padFileAt i = false ∧ t.pathFor i ≠ t.destination root i ∧
        d.tree (t.destination root i) ≠ none)

/-- What a move that reports an error has done: nothing, or some copies. -/
structure NotMoved (t : TorrentStorage) (path : Path) (flags : MoveFlags) (d d' : Disk World) :
    Prop where
  sound : d'.world.Sound
  kept : d.Kept d'
  names : ∀ {p n}, d.world.docs p = some n → d'.world.docs p = some n
  coherent : ∀ {K : Keys}, Coherent K d → Coherent K d'
  copied : d'.tree = d.tree ∨ t.MoveAllowed (normalizedSaveRoot path) flags d ∧
    (∀ p, (∀ i < t.numFiles, t.files.padFileAt i = false →
      t.pathFor i ≠ t.destination (normalizedSaveRoot path) i →
        p ≠ t.destination (normalizedSaveRoot path) i) → d'.tree p = d.tree p) ∧
    (flags = .failIfExist ∨ flags = .dontReplace → ∀ p, d.tree p ≠ none → d'.tree p = d.tree p)
  willing : d.world.Willing → d.world.Smooth → d'.tree = d.tree ∧
    ¬ (safeRelativePath path = true ∧ t.MoveAllowed (normalizedSaveRoot path) flags d)

section Finish

variable {t : TorrentStorage} {root : Path} {flags : MoveFlags}
  {tree tree' : Path → Option (List Byte)} {operations : List MoveOperation}

/-- The operations as they stand after the stat pass, file by file. -/
theorem planned_at (hplanned : List.Forall₂ (Planned flags tree) (t.moveOperations root) operations)
    {i : Nat} (hi : i < t.numFiles) (hpad : t.files.padFileAt i = false)
    (hmoves : t.pathFor i ≠ t.destination root i) :
    ∃ operation ∈ operations, operation.source = t.pathFor i ∧
      operation.destination = t.destination root i ∧
      (operation.cleanup = false → tree (t.pathFor i) = none) ∧
      (operation.copy = true ↔ operation.cleanup = true ∧
        ¬ (flags = .dontReplace ∧ tree (t.destination root i) ≠ none)) := by
  obtain ⟨operation, hop, h⟩ :=
    exists_right hplanned (mem_moveOperations.mpr ⟨i, hi, hpad, hmoves, rfl⟩)
  exact ⟨operation, hop, h.same.2.1, h.same.2.2, h.missing, h.copy⟩

theorem planned_of_mem
    (hplanned : List.Forall₂ (Planned flags tree) (t.moveOperations root) operations)
    {operation : MoveOperation} (hop : operation ∈ operations) :
    ∃ i < t.numFiles, t.files.padFileAt i = false ∧ t.pathFor i ≠ t.destination root i ∧
      operation.source = t.pathFor i ∧ operation.destination = t.destination root i ∧
      (operation.cleanup = true → ∃ doc, tree (t.pathFor i) = some doc ∧
        operation.sourceSize.toNat = doc.length) ∧
      (operation.copy = true → operation.cleanup = true ∧
        ¬ (flags = .dontReplace ∧ tree (t.destination root i) ≠ none)) := by
  obtain ⟨before, hbefore, h⟩ := exists_left hplanned hop
  obtain ⟨i, hi, hpad, hmoves, rfl⟩ := mem_moveOperations.mp hbefore
  exact ⟨i, hi, hpad, hmoves, h.same.2.1, h.same.2.2, h.found, h.copy.mp⟩

/-- After the copies every file's destination holds what is to arrive there. -/
theorem Copied.arrived (hcopied : Copied operations tree tree') (hrooted : t.Rooted)
    (hdistinct : t.Distinct)
    (hplanned : List.Forall₂ (Planned flags tree) (t.moveOperations root) operations)
    {i : Nat} (hi : i < t.numFiles) (hpad : t.files.padFileAt i = false) :
    tree' (t.destination root i) = t.arrived root flags tree i := by
  -- a destination nothing is copied to
  have hnot : ∀ P : Prop, (∀ operation ∈ operations, operation.copy = true →
      operation.destination = t.destination root i → P) → ¬ P →
      tree' (t.destination root i) = tree (t.destination root i) := fun P h hP =>
    hcopied.frame _ fun operation hop hcopy heq => hP (h operation hop hcopy heq.symm)
  unfold TorrentStorage.arrived
  by_cases hmoves : t.pathFor i = t.destination root i
  · have hsame := hnot False (fun operation hop _ heq => by
      obtain ⟨j, hj, hpj, hmj, -, hdest, -⟩ := planned_of_mem hplanned hop
      obtain rfl := destination_inj hrooted hdistinct hj hi hpj hpad (hdest.symm.trans heq)
      exact hmj hmoves) id
    rw [hsame]
    split
    · rfl
    · rw [hmoves]
  obtain ⟨operation, hop, hsource, hdest, hmissing, hcopy⟩ := planned_at hplanned hi hpad hmoves
  by_cases hco : operation.copy = true
  · obtain ⟨hcleanup, hreplace⟩ := hcopy.mp hco
    obtain ⟨doc, hdoc, hle, hthere⟩ := hcopied.there operation hop hco
    obtain ⟨j, hj, hpj, -, hsource', hdest', hfound, -⟩ := planned_of_mem hplanned hop
    obtain rfl := destination_inj hrooted hdistinct hj hi hpj hpad (hdest'.symm.trans hdest)
    obtain ⟨doc', hdoc', hsize⟩ := hfound hcleanup
    rw [hsource, hdoc'] at hdoc
    cases hdoc
    rw [if_neg, ← hdest, hthere, hdoc', hsize, Doc.slice, List.drop_zero, List.take_length]
    rintro (hnone | ⟨hflags, hsome⟩)
    · simp [hdoc'] at hnone
    · exact hreplace ⟨hflags, fun h => by simp [h] at hsome⟩
  · have hkeep : (tree (t.pathFor i)).isNone ∨
        (flags = .dontReplace ∧ (tree (t.destination root i)).isSome) := by
      by_cases hreplace : flags = .dontReplace ∧ tree (t.destination root i) ≠ none
      · exact Or.inr ⟨hreplace.1, Option.isSome_iff_ne_none.mpr hreplace.2⟩
      · refine Or.inl (Option.isNone_iff_eq_none.mpr (hmissing ?_))
        by_contra hcleanup
        exact hco (hcopy.mpr ⟨by simpa using hcleanup, hreplace⟩)
    have hsame := hnot False (fun other ho hcopied' heq => by
      obtain ⟨j, hj, hpj, -, -, hdest', hfound, hallowed⟩ := planned_of_mem hplanned ho
      obtain rfl := destination_inj hrooted hdistinct hj hi hpj hpad (hdest'.symm.trans heq)
      obtain ⟨hcleanup, hreplace⟩ := hallowed hcopied'
      obtain ⟨doc, hdoc, -⟩ := hfound hcleanup
      rcases hkeep with hnone | ⟨hflags, hsome⟩
      · simp [hdoc] at hnone
      · exact hreplace ⟨hflags, Option.isSome_iff_ne_none.mp hsome⟩) id
    rw [hsame, if_pos hkeep]

/-- What the clean-up is about has been left. -/
theorem left_of_cleaned
    (hplanned : List.Forall₂ (Planned flags tree) (t.moveOperations root) operations) {path : Path}
    (h : Cleaned operations (t.destinations root) path) : t.Left root path := by
  obtain ⟨operation, hop, -, hsource, hfree⟩ := h
  obtain ⟨i, hi, hpad, -, hsource', -⟩ := planned_of_mem hplanned hop
  exact ⟨⟨i, hi, hpad, hsource'.symm.trans hsource⟩, hfree⟩

theorem destination_mem {i : Nat} (hi : i < t.numFiles) :
    t.destination root i ∈ t.destinations root :=
  List.mem_map.mpr ⟨i, t.files.mem_indices.mpr hi, rfl⟩

/-- A path that is left is cleaned up, or there was nothing at it. -/
theorem cleaned_of_left
    (hplanned : List.Forall₂ (Planned flags tree) (t.moveOperations root) operations) {path : Path}
    (h : t.Left root path) :
    Cleaned operations (t.destinations root) path ∨ tree path = none := by
  obtain ⟨⟨i, hi, hpad, rfl⟩, hfree⟩ := h
  have hmoves : t.pathFor i ≠ t.destination root i := fun heq =>
    hfree (heq ▸ destination_mem hi)
  obtain ⟨operation, hop, hsource, -, hmissing, -⟩ := planned_at hplanned hi hpad hmoves
  cases hcleanup : operation.cleanup with
  | false => exact Or.inr (hmissing hcleanup)
  | true => exact Or.inl ⟨operation, hop, hcleanup, hsource, hfree⟩

end Finish

section Spec

variable {t : TorrentStorage} {storage : Nat} {path : Path} {flags : MoveFlags}
  {d d₁ d₂ : Disk World} {operations : List MoveOperation} {status : Status}

/-- What is planned does not fail when the bridge and the transfers are healthy. -/
theorem PlanOk.not_fails
    (hplan : PlanOk t storage path flags (some (operations, status)) d d₁)
    {operation : MoveOperation} (hop : operation ∈ operations) (hcopy : operation.copy = true) :
    ¬ CopyFails d.tree operation.source operation.destination operation.sourceSize.toNat := by
  obtain ⟨hplanned, -⟩ := hplan.planned _ _ rfl
  obtain ⟨i, hi, -, -, hsource, hdest, hfound, hallowed⟩ := planned_of_mem hplanned hop
  obtain ⟨hlogical, hpath⟩ := hplan.allowed.accepted.1 i hi
  obtain ⟨doc, hdoc, hsize⟩ := hfound (hallowed hcopy).1
  rw [hsource, hdest]
  rintro (hrefused | hrefused | hshort)
  · rw [hpath] at hrefused
    cases hrefused
  · rw [TorrentStorage.destination,
      (safe_rootedPath (rootOk_normalized hplan.safe)).mpr hlogical] at hrefused
    cases hrefused
  · have := hshort doc hdoc
    omega

/-- The copies stopped on the way. -/
theorem PlanOk.notMoved
    (hplan : PlanOk t storage path flags (some (operations, status)) d d₁) (hs : d.world.Sound)
    (hgrows : d₁.Grows d₂)
    (hframe : ∀ p, (∀ operation ∈ operations, operation.copy = true → p ≠ operation.destination) →
      d₂.tree p = d₁.tree p)
    (hfails : d₁.world.Willing → d₁.world.Smooth → ∃ operation ∈ operations,
      operation.copy = true ∧
        CopyFails d₁.tree operation.source operation.destination operation.sourceSize.toNat) :
    NotMoved t path flags d d₂ := by
  obtain ⟨hplanned, -⟩ := hplan.planned _ _ rfl
  have hstill := hplan.still
  refine ⟨hgrows.world.sound (hstill.sound hs), hstill.kept.trans hgrows.kept,
    fun hp => hgrows.world.docs (hstill.docs ▸ hp),
    fun hc => ((hplan.closed ⟨_, hc⟩).mono fun _ _ h => h.1).grows hgrows,
    Or.inr ⟨hplan.allowed, fun p hp => ?_, fun hflags p hexists => ?_⟩, fun hw hsm => ?_⟩
  · rw [← hstill.tree]
    refine hframe p fun operation hop _ => ?_
    obtain ⟨i, hi, hpad, hmoves, -, hdest, -⟩ := planned_of_mem hplanned hop
    rw [hdest]
    exact hp i hi hpad hmoves
  · rw [← hstill.tree]
    refine hframe p fun operation hop hcopy heq => ?_
    obtain ⟨i, hi, hpad, -, -, hdest, -, hallowed⟩ := planned_of_mem hplanned hop
    rw [heq, hdest] at hexists
    rcases hflags with hflags | hflags
    · exact hexists (hplan.allowed.free hflags i hi hpad)
    · exact (hallowed hcopy).2 ⟨hflags, hexists⟩
  · obtain ⟨operation, hop, hcopy, hfail⟩ :=
      hfails (hstill.kept.willing hw) (hstill.kept.smooth hsm)
    rw [hstill.tree] at hfail
    exact absurd hfail (hplan.not_fails hop hcopy)

/-- The copies were made and the sources cleaned up. -/
theorem PlanOk.moved {d₃ : Disk World}
    (hplan : PlanOk t storage path flags (some (operations, status)) d d₁) (hs : d.world.Sound)
    (hrooted : t.Rooted) (hdistinct : t.Distinct) (hgrows : d₁.Grows d₂)
    (hcopied : Copied operations d₁.tree d₂.tree)
    (hspares : d₂.Spares (Cleaned operations (t.destinations (normalizedSaveRoot path))) d₃)
    (htree : ∀ p, d₃.tree p = d₂.tree p ∨
      d₃.tree p = none ∧ Cleaned operations (t.destinations (normalizedSaveRoot path)) p)
    (hgone : d₂.world.Willing → ∀ p,
      Cleaned operations (t.destinations (normalizedSaveRoot path)) p → d₃.tree p = none) :
    Moved t storage (normalizedSaveRoot path) flags status d d₃ := by
  obtain ⟨hplanned, hstatus, hkept⟩ := hplan.planned _ _ rfl
  have hstill := hplan.still
  rw [hstill.tree] at hcopied
  -- a plan with operations is not a reset
  have hnoreset : flags.isReset = false := by
    cases hr : flags.isReset with
    | false => rfl
    | true => exact absurd (hplan.reset.mpr hr) (by simp)
  have hkept₂ := hstill.kept.trans hgrows.kept
  have hframe : ∀ p, (∀ i < t.numFiles, t.files.padFileAt i = false →
      p ≠ t.destination (normalizedSaveRoot path) i) → d₂.tree p = d.tree p := by
    refine fun p hp => hcopied.frame p fun operation hop _ => ?_
    obtain ⟨i, hi, hpad, -, -, hdest, -⟩ := planned_of_mem hplanned hop
    rw [hdest]
    exact hp i hi hpad
  refine ⟨hspares.sound (hgrows.world.sound (hstill.sound hs)), hkept₂.trans hspares.kept,
    fun hp hleft => hspares.names (hgrows.world.docs (hstill.docs ▸ hp))
      fun h => hleft (left_of_cleaned hplanned h),
    fun hc havoid => hspares.coherent
      (fun s f p hK h => havoid s f p hK.1 hK.2 (left_of_cleaned hplanned h))
      ((hplan.closed ⟨_, hc⟩).grows hgrows),
    fun hr => absurd hr (by simp [hnoreset]), fun _ i hi hpad => ?_, fun p hp => ?_,
    fun _ hw p hleft => ?_, fun _ => ⟨hstatus, hkept.trans ?_⟩⟩
  -- no destination is among the sources that are removed
  · rcases htree (t.destination (normalizedSaveRoot path) i) with heq | ⟨-, hcleaned⟩
    · rw [heq]
      exact hcopied.arrived hrooted hdistinct hplanned hi hpad
    · exact absurd (destination_mem hi) (left_of_cleaned hplanned hcleaned).2
  · rcases htree p with heq | ⟨hnone, hcleaned⟩
    · exact Or.inl (heq.trans (hframe p hp))
    · exact Or.inr ⟨hnone, left_of_cleaned hplanned hcleaned⟩
  · rcases cleaned_of_left hplanned hleft with hcleaned | hnone
    · exact hgone (hkept₂.willing hw) p hcleaned
    · rcases htree p with heq | ⟨hnone', -⟩
      · rw [heq, hframe p fun i hi _ heq => hleft.2 (heq ▸ destination_mem hi), hnone]
      · exact hnone'
  · refine and_congr_right fun _ => ⟨?_, ?_⟩
    · rintro ⟨operation, hop, hexists⟩
      obtain ⟨i, hi, hpad, hmoves, rfl⟩ := mem_moveOperations.mp hop
      exact ⟨i, hi, hpad, hmoves, hexists⟩
    · rintro ⟨i, hi, hpad, hmoves, hexists⟩
      exact ⟨_, mem_moveOperations.mpr ⟨i, hi, hpad, hmoves, rfl⟩, hexists⟩

/-- **What a move leaves at every path**, for every scheduled failure. -/
theorem asyncMoveStorage_spec (hrooted : t.Rooted) (hdistinct : t.Distinct) (storage : Nat)
    (path : Path) (flags : MoveFlags) (hs : d.world.Sound) :
    wp (asyncMoveStorage G.env storage path flags)
      (fun status s' => s'.torrent = t.setSaveRoot (normalizedSaveRoot path) ∧
        safeRelativePath path = true ∧ t.MoveAllowed (normalizedSaveRoot path) flags d ∧
        Moved t storage (normalizedSaveRoot path) flags status d s'.disk)
      (fun _ s' => s'.torrent = t ∧ NotMoved t path flags d s'.disk)
      { torrent := t, disk := d } := by
  rw [wp_asyncMoveStorage, wp_onDisk]
  refine wp_mono (planMove_spec G t storage path flags d) ?_ ?_
  · rintro plan d₁ hplan
    cases plan with
    | none =>
      -- a reset moves nothing and is done
      have hstill := hplan.still
      have hreset := hplan.reset.mp rfl
      have hnot : ∀ {P : Prop}, flags.isReset = false → P := fun h => by
        rw [hreset] at h
        cases h
      rw [finishMove, wp_bind, wp_updateTorrent, wp_ret]
      exact ⟨rfl, hplan.safe, hplan.allowed, hstill.sound hs, hstill.kept,
        fun hp _ => hstill.docs ▸ hp, fun hc _ => hplan.closed ⟨_, hc⟩, fun _ => hstill.tree,
        fun h => hnot h, fun p _ => Or.inl (congrFun hstill.tree p), fun h => hnot h,
        fun h => hnot h⟩
    | some plan =>
      obtain ⟨operations, status⟩ := plan
      obtain ⟨hplanned, -⟩ := hplan.planned _ _ rfl
      have hseparate := (separate_moveOperations hrooted hdistinct hplan.allowed.accepted).planned
        (hplanned.imp fun _ _ h => h.same)
      rw [finishMove, wp_bind, wp_onDisk]
      refine wp_mono (copyOperations_spec G (hplan.still.sound hs) hseparate status) ?_ ?_
      · rintro _ d₂ ⟨hgrows, hcopied⟩
        rw [wp_bind, wp_updateTorrent, wp_bind, wp_onDisk]
        refine wp_mono (removeSources_spec G operations _ d₂) ?_ fun _ _ h => h.elim
        rintro _ d₃ ⟨hspares, htree, hgone⟩
        exact ⟨rfl, hplan.safe, hplan.allowed,
          hplan.moved hs hrooted hdistinct hgrows hcopied hspares htree hgone⟩
      · rintro _ d₂ ⟨hgrows, hframe, hfails⟩
        exact ⟨rfl, hplan.notMoved hs hgrows hframe hfails⟩
  · rintro _ d₁ ⟨hstill, hcoherent, hrefused⟩
    exact ⟨rfl, hstill.sound hs, hstill.kept, fun hp => hstill.docs ▸ hp,
      fun hc => hcoherent ⟨_, hc⟩, Or.inl hstill.tree, fun hw _ => ⟨hstill.tree, hrefused hw⟩⟩

end Spec

end Saf
end Libtorrent4j
