import Libtorrent4j.Saf.Effects

/-!
# Copies

`copy_public_file` and `migrate_priority` on the document provider. Both open a source and a
target, cut the target to size and go through the same block loop; **when they stop, the
source still has its bytes**, and with a willing bridge and smooth transfers they stop only
for a path that is not safe or a source that is too short.
-/

namespace Libtorrent4j
namespace Saf

open Lib Lib.Exec

variable (G : Host)

/-! ## Copies -/

section Copying

variable {d d' : Disk World} {path : Path} {doc : List Byte}

theorem truncateTo_spec (hs : d.world.Sound) {fd : Int} (h : d.world.Refers fd path true)
    (hdoc : d.tree path = some doc) (size index : Nat) :
    wp (truncateTo G.env fd size index)
      (fun _ d' => d.Puts d' path (Doc.resize doc size))
      (fun _ d' => d.Quiet d' ∧ ¬ d.world.Smooth) d := by
  obtain ⟨hanswer, hgrows, -, hcontent⟩ := World.ftruncate_spec hs h hdoc size
  have hnote : d.Grows (d.note (d.world.ftruncate fd size).2 (.ftruncate fd)) :=
    Disk.grows_note hgrows (by simp)
  simp only [truncateTo, callFtruncate, wp_bind, wp_ask]
  have hanswer' : (G.env.ftruncate fd size d.world).1 = _ := hanswer
  rw [hanswer']
  cases hfault : d.world.io.headD .whole with
  | fail errno written =>
    rw [hfault] at hcontent
    refine ⟨⟨hnote, hcontent⟩, fun hsmooth => ?_⟩
    have := hsmooth.headD
    rw [hfault] at this
    exact this
  | whole | short _ | interrupted | nothing =>
    rw [hfault] at hcontent
    exact ⟨hnote, hcontent⟩

/-- What a copy reads: a document other than the one it writes, or zeros. `supply n` is the
    first `n` bytes of it. -/
inductive Source (d : Disk World) (target : Path) : Option (Int × Nat) → (Nat → List Byte) → Prop
  | file {fd : Int} {path : Path} {writable : Bool} {doc : List Byte} (offset : Nat)
      (hne : path ≠ target) (h : d.world.Refers fd path writable) (hdoc : d.tree path = some doc) :
      Source d target (some (fd, offset)) (Doc.slice doc offset)
  | zeros : Source d target none (fun n => List.replicate n 0)

variable {target : Path} {source : Option (Int × Nat)} {supply : Nat → List Byte}

theorem Source.grows (h : Source d target source supply) (hgrows : d.Grows d')
    (htree : ∀ path, path ≠ target → d'.tree path = d.tree path) :
    Source d' target source supply := by
  cases h with
  | file offset hne href hdoc =>
    exact .file offset hne (hgrows.world.refers href) (by rw [htree _ hne, hdoc])
  | zeros => exact .zeros

theorem Source.puts (h : Source d target source supply) (hputs : d.Puts d' target doc) :
    Source d' target source supply :=
  h.grows hputs.toGrows fun path hpath => by rw [hputs.tree, Function.update_of_ne hpath]

theorem Source.supply_zero (h : Source d target source supply) : supply 0 = [] := by
  cases h <;> simp

/-- A source that is too short for a part is too short for the whole. -/
theorem Source.short (h : Source d target source supply) {n m : Nat}
    (hn : (supply n).length < n) (hm : n ≤ m) : (supply m).length < m := by
  cases h with
  | zeros => simp at hn
  | file offset hne href hdoc =>
    rw [Doc.length_slice] at hn ⊢
    omega

/-- A block is the next part of the source. -/
theorem copyBlock_spec (h : Source d target source supply) (readError : Int → StorageError)
    {length : Nat} (hpos : 0 < length) (copied : Nat) :
    wp (copyBlock G.env source readError length copied)
      (fun buffer d' => d.Quiet d' ∧ supply copied ++ buffer = supply (copied + length) ∧
        buffer.length = length)
      (fun _ d' => d.Quiet d' ∧
        (d.world.Smooth → (supply (copied + length)).length < copied + length)) d := by
  cases h with
  | zeros => exact ⟨.refl d, by rw [List.replicate_append_replicate], by simp⟩
  | @file fd path writable doc offset hne href hdoc =>
    simp only [copyBlock, wp_bind, wp_prim, wp_throwIf, wp_ret]
    obtain ⟨hquiet, ⟨hsize, hbuffer, hlen⟩ | ⟨hneg, hshort⟩⟩ :=
      preadAll_spec G href hdoc length (offset + copied)
    · exact ⟨fun hneg => absurd hneg (by omega),
        fun _ => ⟨hquiet, by rw [hbuffer, Doc.slice_append], hlen⟩⟩
    · refine ⟨fun _ => ⟨hquiet, fun hsmooth => ?_⟩, fun hn => absurd hneg hn⟩
      have := (hshort hsmooth).1
      rw [Doc.length_slice]
      omega

/-- The copying loop writes the source to the target, or some bytes that reach no further.
    Smooth transfers stop only where the source ends. -/
theorem copyLoop_spec (hs : d.world.Sound) {destination : Int}
    (hdest : d.world.Refers destination target true) (hdoc : d.tree target = some doc)
    (hsource : Source d target source supply) (offset size : Nat)
    (readError writeError : Int → StorageError) :
    wp (copyLoop G.env source destination offset size readError writeError 0)
      (fun _ d' => d.Puts d' target (Doc.splice doc offset (supply size)) ∧
        (supply size).length = size)
      (fun _ d' => (∃ data : List Byte, data.length ≤ size ∧
        d.Puts d' target (Doc.splice doc offset data)) ∧
        (d.world.Smooth → (supply size).length < size)) d := by
  suffices key : ∀ copied (d' : Disk World), copied ≤ size → (supply copied).length = copied →
      d.Puts d' target (Doc.splice doc offset (supply copied)) →
      wp (copyLoop G.env source destination offset size readError writeError copied)
        (fun _ d' => d.Puts d' target (Doc.splice doc offset (supply size)) ∧
          (supply size).length = size)
        (fun _ d' => (∃ data : List Byte, data.length ≤ size ∧
          d.Puts d' target (Doc.splice doc offset data)) ∧
          (d.world.Smooth → (supply size).length < size)) d' from
    key 0 d (Nat.zero_le _) (by simp [hsource.supply_zero])
      (by simpa [hsource.supply_zero] using .refl hdoc)
  intro copied d' hle hlen hputs
  fun_induction copyLoop G.env source destination offset size readError writeError copied
    generalizing d' with
  | case1 copied hlt length ih =>
    have hmin : length ≤ size - copied := Nat.min_le_right _ _
    have hpos : 0 < length := Nat.lt_min.mpr ⟨by decide, by omega⟩
    rw [wp_bind]
    refine wp_mono (copyBlock_spec G (hsource.puts hputs) readError hpos copied) ?_ ?_
    rotate_left
    · rintro _ d₁ ⟨hquiet, hshort⟩
      refine ⟨⟨supply copied, by omega, hputs.toGrows.trans hquiet.toGrows,
        by rw [hquiet.tree, hputs.tree]⟩, fun hsmooth => ?_⟩
      exact hsource.short (hshort (hputs.world.smooth hsmooth)) (by omega)
    rintro buffer d₁ ⟨hquiet, hsupply, hbuffer⟩
    have hputs₁ : d.Puts d₁ target (Doc.splice doc offset (supply copied)) :=
      ⟨hputs.toGrows.trans hquiet.toGrows, by rw [hquiet.tree, hputs.tree]⟩
    simp only [wp_bind, wp_prim, wp_throwIf]
    -- this round's bytes go on where the last round's stopped
    have hsplice : ∀ data,
        Doc.splice (Doc.splice doc offset (supply copied)) (offset + copied) data =
          Doc.splice doc offset (supply copied ++ data) := fun data => by
      rw [← Doc.splice_splice, hlen]
    rcases pwriteAll_spec G (hputs₁.world.sound hs) (hputs₁.world.refers hdest) hputs₁.at buffer
      (offset + copied) with ⟨hok, hwrote⟩ | ⟨hneg, ⟨n, hn, hwrote⟩, hrough⟩
    · refine ⟨fun hneg => absurd hneg (by omega), fun _ => ?_⟩
      have hall := hputs₁.trans hwrote
      rw [hsplice, hsupply] at hall
      exact ih _ (by omega) (by rw [← hsupply, List.length_append, hlen, hbuffer]) hall
    · refine ⟨fun _ => ⟨⟨supply copied ++ buffer.take n, ?_, ?_⟩, fun hsmooth => ?_⟩,
        fun hn => absurd hneg hn⟩
      · rw [List.length_append, List.length_take]
        omega
      · have hall := hputs₁.trans hwrote
        rwa [hsplice] at hall
      · exact absurd (hputs₁.world.smooth hsmooth) hrough
  | case2 copied hge =>
    obtain rfl : copied = size := by omega
    exact ⟨hputs, hlen⟩

theorem Disk.Grows.fresh (h : d.Grows d') {fd : Int} (hfd : d'.world.file fd = none) :
    d.world.file fd = none := by
  cases hf : d.world.file fd with
  | none => rfl
  | some f => rw [h.world.file hf] at hfd; cases hfd

/-- A scoped descriptor that was not open at the start is closed without a trace. -/
theorem Disk.Grows.reset {F : Type} (h : d.Grows d') {fd : Int}
    (hfd : 0 ≤ fd → d.world.file fd = none) :
    d.Grows ((resetScoped G.env fd : Exec (Disk World) F Unit) d').2 ∧
      ((resetScoped G.env fd : Exec (Disk World) F Unit) d').2.tree = d'.tree := by
  unfold resetScoped
  split
  · exact ⟨h.close (hfd ‹_›), rfl⟩
  · exact ⟨h, rfl⟩

/-- A block that owns a descriptor which was not open at the start closes it without a trace. -/
theorem wp_withScoped {F α : Type} {fd : Int} (hfd : d.world.file fd = none)
    {block : Exec (Disk World) F α} {Q : α → (Path → Option (List Byte)) → Prop}
    {R : F → (Path → Option (List Byte)) → Prop} {d₁ : Disk World}
    (h : wp block (fun a d' => d.Grows d' ∧ Q a d'.tree)
      (fun e d' => d.Grows d' ∧ R e d'.tree) d₁) :
    wp (withScoped G.env fd block) (fun a d' => d.Grows d' ∧ Q a d'.tree)
      (fun e d' => d.Grows d' ∧ R e d'.tree) d₁ := by
  rw [withScoped, wp_ensuring]
  refine wp_mono h ?_ ?_
  · rintro a d' ⟨hgrows, hQ⟩
    obtain ⟨hreset, htree⟩ := hgrows.reset (F := F) G fun _ => hfd
    exact ⟨hreset, by rwa [htree]⟩
  · rintro e d' ⟨hgrows, hR⟩
    obtain ⟨hreset, htree⟩ := hgrows.reset (F := F) G fun _ => hfd
    exact ⟨hreset, by rwa [htree]⟩

/-- There is nothing to close after a failed open. -/
theorem wp_withScoped_neg {F α : Type} {fd : Int} (h : fd < 0) {block : Exec (Disk World) F α}
    {Q : α → Disk World → Prop} {R : F → Disk World → Prop} (hblock : wp block Q R d) :
    wp (withScoped G.env fd block) Q R d := by
  have hnone : ∀ d' : Disk World,
      ((resetScoped G.env fd : Exec (Disk World) F Unit) d').2 = d' := by
    intro d'
    rw [resetScoped, if_neg (by omega)]
    rfl
  rw [withScoped, wp_ensuring]
  refine wp_mono hblock ?_ ?_ <;> exact fun _ d' h => by rwa [hnone]

/-- Why a copy stops on a willing bridge with smooth transfers. -/
def CopyFails (tree : Path → Option (List Byte)) (source destination : Path) (size : Nat) : Prop :=
  safeRelativePath source = false ∨ safeRelativePath destination = false ∨
    ∀ doc, tree source = some doc → doc.length < size

/-- The part of `copy_public_file` that has both documents open. -/
theorem copyOpened_spec (hs : d.world.Sound) {source destination : Path}
    (hne : source ≠ destination) {fd fd' : Int} {readOnly : Bool} {doc old : List Byte}
    (hrefers : d.world.Refers fd source readOnly) (hrefers' : d.world.Refers fd' destination true)
    (hdoc : d.tree source = some doc) (hold : d.tree destination = some old) (size index : Nat) :
    wp (truncateTo G.env fd' size index >>= fun _ =>
        copyLoop G.env (some (fd, 0)) fd' 0 size (makeError · index .fileRead)
          (makeError · index .fileWrite) 0)
      (fun _ d' => size ≤ doc.length ∧ d.Puts d' destination (Doc.slice doc 0 size))
      (fun _ d' => (∃ data, d.Puts d' destination data) ∧
        (d.world.Smooth → doc.length < size)) d := by
  rw [wp_bind]
  refine wp_mono (truncateTo_spec G hs hrefers' hold size index) ?_ ?_
  rotate_left
  · rintro _ d' ⟨hquiet, hrough⟩
    refine ⟨⟨old, hquiet.toGrows, ?_⟩, fun hsm => absurd hsm hrough⟩
    rw [hquiet.tree, ← hold, Function.update_eq_self]
  intro _ d₁ hputs₁
  have hsource : Source d₁ destination (some (fd, 0)) (Doc.slice doc 0) := by
    refine .file 0 hne (hputs₁.world.refers hrefers) ?_
    rw [hputs₁.tree, Function.update_of_ne hne, hdoc]
  refine wp_mono (copyLoop_spec G (hputs₁.world.sound hs) (hputs₁.world.refers hrefers') hputs₁.at
    hsource 0 size _ _) ?_ ?_
  · rintro _ d₂ ⟨hputs₂, hlen⟩
    have hall := hputs₁.trans hputs₂
    -- all that the truncation has left is overwritten
    rw [Doc.splice_whole (by rw [Doc.length_resize, hlen])] at hall
    rw [Doc.length_slice] at hlen
    exact ⟨by omega, hall⟩
  · rintro _ d₂ ⟨⟨data, -, hputs₂⟩, hshort⟩
    refine ⟨⟨_, hputs₁.trans hputs₂⟩, fun hsm => ?_⟩
    have := hshort (hputs₁.world.smooth hsm)
    rw [Doc.length_slice] at this
    omega

/-- `copy_public_file` leaves the first `size` bytes of the source at the destination. If it
    fails, every other document is as it was. -/
theorem copyPublicFile_spec (hs : d.world.Sound) {source destination : Path}
    (hne : source ≠ destination) (size index : Nat) :
    wp (copyPublicFile G.env source destination size index)
      (fun _ d' => d.Grows d' ∧ ∃ doc, d.tree source = some doc ∧ size ≤ doc.length ∧
        d'.tree = Function.update d.tree destination (some (Doc.slice doc 0 size)))
      (fun _ d' => d.Grows d' ∧ (∀ path, path ≠ destination → d'.tree path = d.tree path) ∧
        (d.world.Willing → d.world.Smooth → CopyFails d.tree source destination size)) d := by
  rw [copyPublicFile, wp_bind, wp_throwIf]
  refine ⟨fun hrefused => ⟨.refl d, fun _ _ => rfl, fun _ _ => ?_⟩, fun _ => ?_⟩
  · exact hrefused.imp_right Or.inl
  rw [wp_bind]
  refine wp_mono (ensureParentDirectories_spec G destination index d) ?_ ?_
  rotate_left
  · rintro _ d₁ ⟨hquiet, -, hwilling⟩
    exact ⟨hquiet.toGrows, fun _ _ => by rw [hquiet.tree],
      fun hw _ => Or.inr (Or.inl (hwilling hw).1)⟩
  rintro _ d₁ ⟨hquiet₁, -, -⟩
  rw [← hquiet₁.tree]
  suffices hcopy : wp _ (fun _ d' => d₁.Grows d' ∧ _) (fun _ d' => d₁.Grows d' ∧ _ ∧
      (d₁.world.Willing → d₁.world.Smooth → CopyFails d₁.tree source destination size)) d₁ from
    wp_mono hcopy (fun _ _ h => ⟨hquiet₁.toGrows.trans h.1, h.2⟩)
      fun _ _ h => ⟨hquiet₁.toGrows.trans h.1, h.2.1,
        fun hw hsm => h.2.2 (hquiet₁.world.willing hw) (hquiet₁.world.smooth hsm)⟩
  have hs₁ := hquiet₁.world.sound hs
  rw [wp_bind]
  refine callOpenFile_spec G source .read hs₁ ?_ ?_
  rotate_left
  · intro result d₂ hneg hquiet₂ _ _ hwilling
    refine wp_withScoped_neg G hneg ?_
    rw [wp_bind, wp_throwIf]
    refine ⟨fun _ => ⟨hquiet₂.toGrows, fun _ _ => by rw [hquiet₂.tree], fun hw _ => ?_⟩,
      fun hn => absurd hneg hn⟩
    exact Or.inr (Or.inr fun doc hdoc => by simp [(hwilling hw).2.1] at hdoc)
  intro fd d₂ hfd hgrows₂ _ hfresh hrefers htree₂ hsome
  obtain ⟨doc, hdoc⟩ := Option.ne_none_iff_exists'.mp (hsome rfl)
  let Q : Unit → (Path → Option (List Byte)) → Prop := fun _ tree =>
    ∃ doc, d₁.tree source = some doc ∧ size ≤ doc.length ∧
      tree = Function.update d₁.tree destination (some (Doc.slice doc 0 size))
  let R : StorageError → (Path → Option (List Byte)) → Prop := fun _ tree =>
    (∀ path, path ≠ destination → tree path = d₁.tree path) ∧
      (d₁.world.Willing → d₁.world.Smooth → CopyFails d₁.tree source destination size)
  refine wp_withScoped (Q := Q) (R := R) G hfresh ?_
  rw [wp_bind, wp_throwIf]
  refine ⟨fun hneg => absurd hneg (by omega), fun _ => ?_⟩
  rw [wp_bind]
  refine callOpenFile_spec G destination .readWrite (hgrows₂.world.sound hs₁) ?_ ?_
  rotate_left
  · intro result d₃ hneg hquiet₃ _ _ hwilling
    refine wp_withScoped_neg G hneg ?_
    rw [wp_bind, wp_throwIf]
    refine ⟨fun _ => ⟨hgrows₂.trans hquiet₃.toGrows, fun _ _ => by rw [hquiet₃.tree, htree₂]; rfl,
      fun hw _ => ?_⟩, fun hn => absurd hneg hn⟩
    cases (hwilling (hgrows₂.world.willing hw)).1
  intro fd' d₃ hfd' hgrows₃ _ hfresh' hrefers' htree₃ _
  have hgrows := hgrows₂.trans hgrows₃
  refine wp_withScoped (Q := Q) (R := R) G (hgrows₂.fresh hfresh') ?_
  rw [wp_bind, wp_throwIf]
  refine ⟨fun hneg => absurd hneg (by omega), fun _ => ?_⟩
  -- both are open
  have htouched : d₃.tree = Function.update d₁.tree destination
      (some ((d₁.tree destination).getD [])) := by
    rw [htree₃, htree₂]
    rfl
  have hputs : ∀ {d' data}, d₃.Puts d' destination data → d₁.Puts d' destination data := fun h =>
    ⟨hgrows.trans h.toGrows, by rw [h.tree, htouched, Function.update_idem]⟩
  have hsource₃ : d₃.tree source = some doc := by
    rw [htouched, Function.update_of_ne hne, hdoc]
  have hdest₃ : d₃.tree destination = some ((d₁.tree destination).getD []) := by
    rw [htouched, Function.update_self]
  refine wp_mono (copyOpened_spec G (hgrows.world.sound hs₁) hne (hgrows₃.world.refers hrefers)
    hrefers' hsource₃ hdest₃ size index) ?_ ?_
  · rintro _ d₄ ⟨hsize, hputs₄⟩
    exact ⟨(hputs hputs₄).toGrows, doc, hdoc, hsize, (hputs hputs₄).tree⟩
  · rintro _ d₄ ⟨⟨data, hputs₄⟩, hshort⟩
    refine ⟨(hputs hputs₄).toGrows, fun path hpath => ?_, fun _ hsm => Or.inr (Or.inr ?_)⟩
    · rw [(hputs hputs₄).tree, Function.update_of_ne hpath]
    · intro doc' hdoc'
      obtain rfl : doc = doc' := Option.some.inj (hdoc.symm.trans hdoc')
      exact hshort (hgrows.world.smooth hsm)

/-! ### Migrations -/

/-- What a migration has stored in its target when it is done: a public document gets the
    file's size, the part file is written at the file's offset. -/
def TorrentStorage.migrated (t : TorrentStorage) (index : Nat) (toPart : Bool)
    (old bytes : List Byte) : List Byte :=
  if toPart then Doc.splice old (t.files.fileOffset index) bytes
  else bytes

/-- The bytes at the target of a migration that failed: those of other files in the part
    file are as they were. -/
def TorrentStorage.Unharmed (t : TorrentStorage) (index : Nat) (toPart : Bool)
    (tree tree' : Path → Option (List Byte)) : Prop :=
  (∀ path, path ≠ t.migrationTarget index toPart → tree' path = tree path) ∧
    (toPart = true → ∃ bytes : List Byte, bytes.length ≤ t.files.fileSize index ∧
      (tree' = tree ∨ tree' t.partPath = some
        (Doc.splice ((tree t.partPath).getD []) (t.files.fileOffset index) bytes)))

variable {t : TorrentStorage} {index : Nat} {toPart : Bool}

theorem TorrentStorage.Unharmed.refl (tree : Path → Option (List Byte)) :
    t.Unharmed index toPart tree tree :=
  ⟨fun _ _ => rfl, fun _ => ⟨[], Nat.zero_le _, Or.inl rfl⟩⟩

/-- Truncating and copying, with both descriptors at hand. -/
theorem migrateBytes_spec (hs : d.world.Sound) {source destination : Int}
    (hdest : 0 ≤ destination →
      d.world.Refers destination (t.migrationTarget index toPart) true ∧
        d.tree (t.migrationTarget index toPart) = some doc)
    (hsource : Source d (t.migrationTarget index toPart)
      (if 0 ≤ source then some (source, if toPart then 0 else t.files.fileOffset index) else none)
      supply) :
    wp (migrateBytes G.env t index toPart source destination)
      (fun _ d' => (supply (t.files.fileSize index)).length = t.files.fileSize index ∧
        d.Puts d' (t.migrationTarget index toPart)
          (t.migrated index toPart doc (supply (t.files.fileSize index))))
      (fun _ d' => (d.Quiet d' ∨ ∃ doc', d.Puts d' (t.migrationTarget index toPart) doc' ∧
          (toPart = true → ∃ bytes : List Byte, bytes.length ≤ t.files.fileSize index ∧
            doc' = Doc.splice doc (t.files.fileOffset index) bytes)) ∧
        (d.world.Smooth → destination < 0 ∨
          (supply (t.files.fileSize index)).length < t.files.fileSize index)) d := by
  rw [migrateBytes, wp_bind, wp_throwIf]
  refine ⟨fun hneg => ⟨Or.inl (.refl d), fun _ => Or.inl hneg⟩, fun hnonneg => ?_⟩
  obtain ⟨hrefers, hdoc⟩ := hdest (by omega)
  rw [wp_bind, wp_onlyIf]
  cases toPart with
  | true =>
    refine ⟨nofun, fun _ => ?_⟩
    refine wp_mono (copyLoop_spec G hs hrefers hdoc hsource _ _ _ _) ?_ ?_
    · exact fun _ d' h => ⟨h.2, h.1⟩
    · rintro _ d' ⟨⟨bytes, hlen, hputs⟩, hshort⟩
      exact ⟨Or.inr ⟨_, hputs, fun _ => ⟨bytes, hlen, rfl⟩⟩, fun hsm => Or.inr (hshort hsm)⟩
  | false =>
    refine ⟨fun _ => ?_, fun h => absurd rfl h⟩
    refine wp_mono (truncateTo_spec G hs hrefers hdoc _ _) ?_ fun _ d' h =>
      ⟨Or.inl h.1, fun hsm => absurd hsm h.2⟩
    intro _ d₁ hputs₁
    refine wp_mono (copyLoop_spec G (hputs₁.world.sound hs) (hputs₁.world.refers hrefers) hputs₁.at
      (hsource.puts hputs₁) _ _ _ _) ?_ ?_
    · rintro _ d' ⟨hputs₂, hlen⟩
      have hall := hputs₁.trans hputs₂
      exact ⟨hlen, by
        simpa [TorrentStorage.migrated, Doc.splice_whole
          (by rw [Doc.length_resize, hlen] : (Doc.resize doc (t.files.fileSize index)).length ≤
            (supply (t.files.fileSize index)).length)] using hall⟩
    · rintro _ d' ⟨⟨bytes, -, hputs₂⟩, hshort⟩
      exact ⟨Or.inr ⟨_, hputs₁.trans hputs₂, nofun⟩,
        fun hsm => Or.inr (hshort (hputs₁.world.smooth hsm))⟩

/-- What a migration started with: its target, and what it reads. -/
structure MigrationStart (t : TorrentStorage) (index : Nat) (toPart : Bool) (d : Disk World)
    (source : Int) (supply : Nat → List Byte) (d₁ : Disk World) : Prop where
  sound : d.world.Sound
  grows : d.Grows d₁
  tree : d₁.tree = d.tree
  fresh : 0 ≤ source → d.world.file source = none
  source : Source d₁ (t.migrationTarget index toPart)
    (if 0 ≤ source then some (source, if toPart then 0 else t.files.fileOffset index) else none)
    supply

theorem migrateTo_spec {d₁ d₃ : Disk World} {source destination : Int}
    (h : MigrationStart t index toPart d source supply d₁) (hgrows : d₁.Grows d₃)
    (hdest : 0 ≤ destination → d.world.file destination = none ∧
      d₃.world.Refers destination (t.migrationTarget index toPart) true)
    (htree : (destination < 0 ∧ d₃.tree = d.tree) ∨ d₃.tree = Function.update d.tree
      (t.migrationTarget index toPart) (some ((d.tree (t.migrationTarget index toPart)).getD []))) :
    wp (migrateTo G.env t index toPart source destination)
      (fun _ d' => d.Grows d' ∧ (supply (t.files.fileSize index)).length = t.files.fileSize index ∧
        d'.tree = Function.update d.tree (t.migrationTarget index toPart) (some
          (t.migrated index toPart ((d.tree (t.migrationTarget index toPart)).getD [])
            (supply (t.files.fileSize index)))))
      (fun _ d' => d.Grows d' ∧ t.Unharmed index toPart d.tree d'.tree ∧
        (d.world.Smooth → destination < 0 ∨
          (supply (t.files.fileSize index)).length < t.files.fileSize index)) d₃ := by
  set target := t.migrationTarget index toPart with htarget
  set old := (d.tree target).getD [] with hold
  have hgrows₃ := h.grows.trans hgrows
  -- opening the target has at most created it, empty
  have hother : ∀ path, path ≠ target → d₃.tree path = d.tree path := by
    intro path hpath
    rcases htree with ⟨-, htree⟩ | htree
    · rw [htree]
    · rw [htree, Function.update_of_ne hpath]
  have hupdate : ∀ doc, Function.update d₃.tree target (some doc) =
      Function.update d.tree target (some doc) := by
    intro doc
    rcases htree with ⟨-, htree⟩ | htree
    · rw [htree]
    · rw [htree, Function.update_idem]
  have hdoc : 0 ≤ destination → d₃.tree target = some old := by
    intro hnonneg
    rcases htree with ⟨hneg, -⟩ | htree
    · omega
    · rw [htree, Function.update_self]
  have hsource : Source d₃ target
      (if 0 ≤ source then some (source, if toPart then 0 else t.files.fileOffset index) else none)
      supply := h.source.grows hgrows fun path hpath => by rw [hother path hpath, h.tree]
  rw [migrateTo, wp_bind, wp_attempt]
  refine wp_mono (migrateBytes_spec G (hgrows₃.world.sound h.sound)
    (fun hnonneg => ⟨(hdest hnonneg).2, hdoc hnonneg⟩) hsource) ?_ ?_
  · -- the bytes are over: the two files are closed, the source first
    rintro _ d₄ ⟨hlen, hputs⟩
    rw [wp_bind, wp_resetScoped, wp_resetScoped]
    obtain ⟨hgrows₅, htree₅⟩ := (hgrows₃.trans hputs.toGrows).reset (F := StorageError) G h.fresh
    obtain ⟨hgrows₆, htree₆⟩ :=
      hgrows₅.reset (F := StorageError) G fun hnonneg => (hdest hnonneg).1
    exact ⟨hgrows₆, hlen, by rw [htree₆, htree₅, hputs.tree, hupdate]⟩
  · -- on the way out of an error they are closed the other way round
    rintro _ d₄ ⟨hfailed, hreason⟩
    rw [wp_bind, wp_resetScoped, wp_bind, wp_resetScoped, wp_throw]
    have hgrows₄ : d.Grows d₄ := by
      rcases hfailed with hquiet | ⟨doc', hputs, -⟩
      · exact hgrows₃.trans hquiet.toGrows
      · exact hgrows₃.trans hputs.toGrows
    obtain ⟨hgrows₅, htree₅⟩ :=
      hgrows₄.reset (F := StorageError) G fun hnonneg => (hdest hnonneg).1
    obtain ⟨hgrows₆, htree₆⟩ := hgrows₅.reset (F := StorageError) G h.fresh
    refine ⟨hgrows₆, ?_, fun hsm => hreason (hgrows₃.world.smooth hsm)⟩
    rw [htree₆, htree₅]
    have hpart : toPart = true → target = t.partPath := by rintro rfl; rfl
    rcases hfailed with hquiet | ⟨doc', hputs, hbytes⟩
    · rw [hquiet.tree]
      refine ⟨hother, fun hto => ⟨[], Nat.zero_le _, ?_⟩⟩
      rcases htree with ⟨-, htree⟩ | htree
      · exact Or.inl htree
      · right
        rw [htree, ← hpart hto, Function.update_self, Doc.splice_nil]
    · refine ⟨fun path hpath => ?_, fun hto => ?_⟩
      · rw [hputs.tree, Function.update_of_ne hpath, hother path hpath]
      · obtain ⟨bytes, hlen, hdoc'⟩ := hbytes hto
        refine ⟨bytes, hlen, Or.inr ?_⟩
        rw [hputs.tree, ← hpart hto, Function.update_self, hdoc']

theorem migrateFrom_spec {d₁ : Disk World} {source : Int}
    (h : MigrationStart t index toPart d source supply d₁) :
    wp (migrateFrom G.env t index toPart source)
      (fun _ d' => d.Grows d' ∧ safeRelativePath (t.migrationTarget index toPart) = true ∧
        (supply (t.files.fileSize index)).length = t.files.fileSize index ∧
        d'.tree = Function.update d.tree (t.migrationTarget index toPart) (some
          (t.migrated index toPart ((d.tree (t.migrationTarget index toPart)).getD [])
            (supply (t.files.fileSize index)))))
      (fun _ d' => d.Grows d' ∧ t.Unharmed index toPart d.tree d'.tree ∧
        (d.world.Willing → d.world.Smooth →
          safeRelativePath (t.migrationTarget index toPart) = false ∨
            (supply (t.files.fileSize index)).length < t.files.fileSize index)) d₁ := by
  have hs₁ := h.grows.world.sound h.sound
  rw [migrateFrom, wp_bind, wp_attempt, wp_bind]
  refine wp_mono (ensureParentDirectories_spec G _ index d₁) ?_ ?_
  · rintro _ d₂ ⟨hquiet, -, hsafe⟩
    have hgrows₂ := h.grows.trans hquiet.toGrows
    refine callOpenFile_spec G _ .readWrite (hquiet.world.sound hs₁) ?_ ?_
    · intro destination d₃ hnonneg hgrows _ hfresh hrefers htree _
      refine wp_mono (migrateTo_spec G h (hquiet.toGrows.trans hgrows)
        (fun _ => ⟨hgrows₂.fresh hfresh, hrefers⟩) (Or.inr ?_)) ?_ ?_
      · rw [htree, hquiet.tree, h.tree]
        rfl
      · exact fun _ _ hdone => ⟨hdone.1, hsafe, hdone.2⟩
      · rintro _ d₄ ⟨hgrows₄, hunharmed, hreason⟩
        refine ⟨hgrows₄, hunharmed, fun _ hsm => Or.inr ((hreason hsm).resolve_left ?_)⟩
        omega
    · intro destination d₃ hneg hquiet' _ _ hwilling
      refine wp_mono (migrateTo_spec G h (hquiet.trans hquiet').toGrows
        (fun hn => absurd hneg (by omega)) (Or.inl ⟨hneg, ?_⟩)) ?_ ?_
      · rw [hquiet'.tree, hquiet.tree, h.tree]
      · exact fun _ _ hdone => ⟨hdone.1, hsafe, hdone.2⟩
      · rintro _ d₄ ⟨hgrows₄, hunharmed, -⟩
        refine ⟨hgrows₄, hunharmed, fun hw _ => ?_⟩
        cases (hwilling (hgrows₂.world.willing hw)).1
  · rintro e d₂ ⟨hquiet, -, hwilling⟩
    rw [wp_bind, wp_resetScoped, wp_throw]
    obtain ⟨hgrows, htree⟩ :=
      (h.grows.trans hquiet.toGrows).reset (F := StorageError) G h.fresh
    refine ⟨hgrows, by rw [htree, hquiet.tree, h.tree]; exact .refl _, fun hw _ => ?_⟩
    exact Or.inl (hwilling (h.grows.world.willing hw)).1

/-- Why a migration stops on a willing bridge with smooth transfers. -/
def TorrentStorage.MigrationFails (t : TorrentStorage) (index : Nat) (toPart : Bool)
    (tree : Path → Option (List Byte)) : Prop :=
  safeRelativePath (t.migrationTarget index toPart) = false ∨
    ∃ doc, tree (t.migrationSource index toPart) = some doc ∧
      doc.length < (if toPart then 0 else t.files.fileOffset index) + t.files.fileSize index

/-- **A migration copies the file's bytes, or leaves those that count where they were.** -/
theorem migrateCopy_spec (hs : d.world.Sound)
    (hne : t.migrationSource index toPart ≠ t.migrationTarget index toPart)
    (hsize : t.files.fileSize index ≠ 0) :
    wp (migrateCopy G.env t index toPart)
      (fun _ d' => d.Grows d' ∧ ¬ t.MigrationFails index toPart d.tree ∧
        ∃ bytes : List Byte, bytes.length = t.files.fileSize index ∧
        (∀ doc, d.tree (t.migrationSource index toPart) = some doc → bytes =
          Doc.slice doc (if toPart then 0 else t.files.fileOffset index)
            (t.files.fileSize index)) ∧
        d'.tree = Function.update d.tree (t.migrationTarget index toPart) (some
          (t.migrated index toPart ((d.tree (t.migrationTarget index toPart)).getD []) bytes)))
      (fun _ d' => d.Grows d' ∧ t.Unharmed index toPart d.tree d'.tree ∧
        (d.world.Willing → d.world.Smooth → t.MigrationFails index toPart d.tree)) d := by
  rw [migrateCopy, wp_bind]
  refine callOpenFile_spec G _ .read hs ?_ ?_
  · -- there is a source, and its bytes are copied
    intro source d₁ hnonneg hgrows _ hfresh hrefers htree hsome
    obtain ⟨doc, hdoc⟩ := Option.ne_none_iff_exists'.mp (hsome rfl)
    rw [wp_bind, wp_throwIf]
    refine ⟨fun hneg => absurd hneg.1 (by omega), fun _ => ?_⟩
    have hsource : Source d₁ (t.migrationTarget index toPart) _ _ :=
      .file (if toPart then 0 else t.files.fileOffset index) hne hrefers (by rw [htree]; exact hdoc)
    refine wp_mono (migrateFrom_spec G ⟨hs, hgrows, htree, fun _ => hfresh,
      (by rwa [if_pos hnonneg])⟩) ?_ ?_
    · rintro _ d' ⟨hgrows', hsafe, hlen, htree'⟩
      refine ⟨hgrows', ?_, _, hlen, fun doc' hdoc' => ?_, htree'⟩
      · rintro (hrefused | ⟨doc', hdoc', hshort⟩)
        · rw [hsafe] at hrefused
          cases hrefused
        · rw [hdoc] at hdoc'
          cases hdoc'
          rw [Doc.length_slice] at hlen
          omega
      · rw [hdoc] at hdoc'
        cases hdoc'
        rfl
    · rintro _ d' ⟨hgrows', hunharmed, hreason⟩
      refine ⟨hgrows', hunharmed, fun hw hsm => (hreason hw hsm).imp_right fun hshort => ?_⟩
      rw [Doc.length_slice] at hshort
      exact ⟨doc, hdoc, by omega⟩
  · -- a source that is missing counts as zeros, any other failure stops the migration
    intro source d₁ hneg hquiet _ hnone hwilling
    rw [wp_bind, wp_throwIf]
    refine ⟨fun hother => ⟨hquiet.toGrows, by rw [hquiet.tree]; exact .refl _, fun hw _ => ?_⟩,
      fun hmissing => ?_⟩
    · exact absurd (hwilling hw).2.2 hother.2
    have hdoc := hnone (by
      by_contra hne
      exact hmissing ⟨hneg, hne⟩)
    have hsource : Source d₁ (t.migrationTarget index toPart) _ _ := .zeros
    refine wp_mono (migrateFrom_spec G ⟨hs, hquiet.toGrows, hquiet.tree,
      fun hn => absurd hneg (by omega), (by rwa [if_neg (by omega)])⟩) ?_ ?_
    · rintro _ d' ⟨hgrows', hsafe, hlen, htree'⟩
      refine ⟨hgrows', ?_, _, hlen, fun doc' hdoc' => by simp [hdoc] at hdoc', htree'⟩
      rintro (hrefused | ⟨doc', hdoc', -⟩)
      · rw [hsafe] at hrefused
        cases hrefused
      · rw [hdoc] at hdoc'
        cases hdoc'
    · rintro _ d' ⟨hgrows', hunharmed, hreason⟩
      refine ⟨hgrows', hunharmed, fun hw hsm => (hreason hw hsm).imp_right fun hshort => ?_⟩
      simp at hshort

end Copying

end Saf
end Libtorrent4j
