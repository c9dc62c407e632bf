import Libtorrent4j.Saf.ByteArray
import Libtorrent4j.Saf.Log
import Libtorrent4j.Saf.Moving
import Libtorrent4j.Saf.Resuming

/-!
# `initialize_files`

A check that has no resume data to go by gives every wanted file a document of its size, one
file after the other. A turn asks for the size, opens, and truncates; it answers whether there
was a document before, **which it takes from the sign of the size alone**. What a turn does to
the documents is said on a coherent cache. What it answers, and where it stops, needs no
assumption on the cache at all.
-/

namespace Libtorrent4j
namespace Saf

open Lib Lib.Exec TorrentStorage

/-! ## Opening a file, whatever the cache holds -/

namespace World
/-- An open takes no document its name, and one that fails only uses up the fault. -/
theorem openFile_cases (K : FdPicker) (path : Path) (mode : Mode) (w : World) :
    (∀ {p n}, w.docs p = some n → (w.openFile K path mode).2.docs p = some n) ∧
      ((w.openFile K path mode).1 < 0 → (w.openFile K path mode).2 = w.afterBridge) := by
  unfold openFile
  rcases w.bridgeCall_cases path _ with heq | ⟨errno, heq, -, -⟩
  · rw [heq]
    cases hdocs : w.docs path with
    | some node =>
      simp only [afterBridge, hdocs]
      cases mode with
      | read => exact ⟨fun h => h, fun hneg => absurd hneg (Int.not_lt.mpr (K.pick_nonneg _))⟩
      | readWrite => exact ⟨fun h => h, fun hneg => absurd hneg (Int.not_lt.mpr (K.pick_nonneg _))⟩
    | none =>
      simp only [afterBridge, hdocs]
      cases mode with
      | read => exact ⟨fun h => h, fun _ => rfl⟩
      | readWrite =>
        refine ⟨fun {p n} hp => ?_, fun hneg => absurd hneg (Int.not_lt.mpr (K.pick_nonneg _))⟩
        have hne : p ≠ path := by
          rintro rfl
          rw [hdocs] at hp
          cases hp
        exact (Function.update_of_ne hne _ _).trans hp
  · rw [heq]
    exact ⟨fun h => h, fun _ => rfl⟩
end World

theorem ensureParentDirectories_names {W : Type} (E : Env W) (path : Path) (file : Int)
    (d : Disk W) :
    wp (ensureParentDirectories E path file) (fun _ _ => True) (fun e _ => e.file = file) d := by
  rw [ensureParentDirectories, wp_bind, wp_throwIf]
  refine ⟨fun _ => rfl, fun _ => ?_⟩
  refine wp_forEach_inv (fun _ => True) trivial (fun directory _ d' _ => ?_) fun _ _ => trivial
  simp only [callCreateDirectory, wp_bind, wp_ask, wp_throwIf]
  exact ⟨fun _ => rfl, fun _ => trivial⟩

variable (G : Host) {F : Type} {d : Disk World}

theorem evictToLimit_still (turns : Nat) {R : F → Disk World → Prop} :
    wp (evictToLimit G.env turns : Exec (Disk World) F Unit) (fun _ d' => d.Still d') R d := by
  induction turns generalizing d with
  | zero => exact .refl d
  | succ turns ih =>
    rw [evictToLimit, wp_bind, wp_get, wp_ite]
    refine ⟨fun _ => ?_, fun _ => .refl d⟩
    rw [wp_bind, evictOne, wp_bind, wp_get]
    cases oldest d.descriptors with
    | none => exact ih
    | some entry =>
      simp only [callClose, wp_bind, wp_ask, wp_modify]
      refine wp_mono ih (fun _ d' h => ?_) fun _ _ h => h
      exact ⟨fun hs => h.sound ⟨hs.inj, hs.bound⟩,
        ⟨h.kept.validate, h.kept.willing, h.kept.smooth⟩, h.docs, h.tree⟩

/-- Whatever the cache holds, `open_file` takes no document its name, and when it fails it names
    the file and has left all documents as they were. -/
theorem openFile_cases (reuse : Bool) (storage : Nat) (file : Int) (path : Path) (write : Bool)
    (operation : Operation) (d : Disk World) :
    wp (openFile G.env reuse storage file path write operation)
      (fun _ d' => ∀ {p n}, d.world.docs p = some n → d'.world.docs p = some n)
      (fun e d' => e.file = file ∧ d.Still d') d := by
  -- innermost first: the document is opened, after its parents, after the cached one is closed
  have hstore : ∀ d : Disk World, wp (openAndStore G.env storage file path write operation)
      (fun _ d' => ∀ {p n}, d.world.docs p = some n → d'.world.docs p = some n)
      (fun e d' => e.file = file ∧ d.Still d') d := by
    intro d
    rw [openAndStore, wp_bind, wp_throwIf]
    refine ⟨fun _ => ⟨rfl, .refl d⟩, fun _ => ?_⟩
    rw [wp_bind, wp_get, wp_bind]
    refine wp_mono (evictToLimit_still G d.descriptors.length) ?_ fun _ _ h => h
    intro _ d₁ hstill
    simp only [callOpenFile, wp_bind, wp_ask, wp_throwIf, wp_modify, wp_ret]
    obtain ⟨hnames, hfailed⟩ := World.openFile_cases G.picker path
      (if write then .readWrite else .read) d₁.world
    refine ⟨fun hneg => ⟨rfl, hstill.trans ?_⟩, fun _ p n hp => ?_⟩
    · exact (Disk.quiet_call (hfailed hneg) (by simp)).1.still
    · exact hnames (hstill.docs ▸ hp)
  have huncached : ∀ d : Disk World, wp (openUncached G.env storage file path write operation)
      (fun _ d' => ∀ {p n}, d.world.docs p = some n → d'.world.docs p = some n)
      (fun e d' => e.file = file ∧ d.Still d') d := by
    intro d
    rw [openUncached, wp_ite]
    refine ⟨fun _ => ?_, fun _ => hstore d⟩
    rw [wp_bind]
    refine wp_mono (wp_and (ensureParentDirectories_spec G path file d)
      (ensureParentDirectories_names G.env path file d)) ?_ ?_
    · rintro _ d₁ ⟨⟨hquiet, -, -⟩, -⟩
      refine wp_mono (hstore d₁) (fun _ _ h p n hp => h (hquiet.world.docs hp)) ?_
      exact fun _ _ h => ⟨h.1, hquiet.still.trans h.2⟩
    · rintro _ d₁ ⟨⟨hquiet, -, -⟩, hfile⟩
      exact ⟨hfile, hquiet.still⟩
  rw [openFile, wp_bind, wp_get]
  cases (if reuse then d.descriptors.find? (·.isFor storage file path) else none) with
  | none => exact huncached d
  | some entry =>
    dsimp only
    rw [wp_ite]
    refine ⟨fun _ => ?_, fun _ => ?_⟩
    · rw [wp_bind, wp_modify, wp_ret]
      exact fun hp => hp
    · simp only [callClose, wp_bind, wp_ask, wp_modify]
      refine wp_mono (huncached _) (fun _ _ h => h) fun _ _ h => ⟨h.1, ?_⟩
      exact ⟨fun hs => h.2.sound ⟨hs.inj, hs.bound⟩,
        ⟨h.2.kept.validate, h.2.kept.willing, h.2.kept.smooth⟩, h.2.docs, h.2.tree⟩

/-! ## The log -/

/-- The event has been logged on the way. -/
def Disk.Logged {W : Type} (d d' : Disk W) (event : Event W) : Prop :=
  ∃ new, d'.trace = new ++ d.trace ∧ event ∈ new

theorem Disk.Logged.suffix {W : Type} {d d' : Disk W} {event : Event W} (h : d.Logged d' event) :
    d.trace <:+ d'.trace := by
  obtain ⟨new, htrace, -⟩ := h
  exact ⟨new, htrace.symm⟩

theorem Disk.Logged.later {W : Type} {d₁ d₂ d₃ d₄ : Disk W} {event : Event W}
    (h : d₂.Logged d₃ event) (hbefore : d₁.trace <:+ d₂.trace) (hafter : d₃.trace <:+ d₄.trace) :
    d₁.Logged d₄ event := by
  obtain ⟨new, htrace, hmem⟩ := h
  obtain ⟨early, hearly⟩ := hbefore
  obtain ⟨late, hlate⟩ := hafter
  refine ⟨late ++ (new ++ early), ?_, by simp [hmem]⟩
  rw [← hlate, htrace, ← hearly]
  simp

/-! ## One file -/

/-- The file's document is kept public and made up. -/
def TorrentStorage.Public (t : TorrentStorage) (index : Nat) : Prop :=
  index < t.numFiles ∧ t.files.padFileAt index = false ∧ t.skipped index = false

def TorrentStorage.publicFiles (t : TorrentStorage) : List Nat :=
  t.files.indices.filter fun index => !(t.files.padFileAt index || t.skipped index)

theorem TorrentStorage.mem_publicFiles (t : TorrentStorage) {i : Nat} :
    i ∈ t.publicFiles ↔ t.Public i := by
  simp [TorrentStorage.publicFiles, TorrentStorage.Public, TorrentStorage.numFiles]

/-- A document cut to size, or made longer with zeros. -/
def sized (doc : Option (List Byte)) (size : Nat) : Option (List Byte) :=
  some (Doc.resize (doc.getD []) size)

/-- What `initialize_files` may have made of a document when it stops. -/
def Prepared (size : Nat) (old new : Option (List Byte)) : Prop :=
  new = old ∨ new = some (old.getD []) ∨ new = sized old size

/-- What `initialize_files` may have made of the documents when it stops. -/
structure MadeUp (t : TorrentStorage) (tree tree' : Tree) : Prop where
  each : ∀ i, t.Public i →
    Prepared (t.files.fileSize i) (tree (t.pathFor i)) (tree' (t.pathFor i))
  frame : ∀ p, (∀ i, t.Public i → p ≠ t.pathFor i) → tree' p = tree p

theorem madeUp_of_eq {tree tree' : Tree} (h : tree' = tree) : MadeUp t tree tree' := by
  subst h
  exact ⟨fun _ _ => Or.inl rfl, fun _ _ => rfl⟩

variable {t : TorrentStorage} {storage : Nat} {K : Keys}

/-- The turn of `initialize_files` for one file. -/
def initializeFile {W : Type} (E : Env W) (reuse : Bool) (t : TorrentStorage)
    (storage index : Nat) :
    Exec (Disk W) Failure Bool := do
  let existing ← callFileSize E (t.pathFor index)
  mapError (fun error => ({ fatalDiskError := true }, error)) do
    let descriptor ← openFile E reuse storage index (t.pathFor index) true .fileOpen
    truncateTo E descriptor (t.files.fileSize index) index
  ret (decide (0 ≤ existing))

theorem initializeFiles_eq {W : Type} (E : Env W) (reuse : Bool) (t : TorrentStorage)
    (storage : Nat) :
    initializeFiles E reuse t storage =
      (mapEach t.publicFiles (initializeFile E reuse t storage) >>= fun existed =>
        ret { needFullCheck := existed.any id }) := rfl

theorem truncateTo_cases (fd : Int) (size index : Nat) (d : Disk World) :
    wp (truncateTo G.env fd size index)
      (fun _ d' => d'.world.docs = d.world.docs ∧
        ∃ w, G.env.ftruncate fd size d.world = (.ok (), w))
      (fun e d' => e.file = index ∧ d'.world.docs = d.world.docs ∧
        ∃ errno w, G.env.ftruncate fd size d.world = (.error errno, w)) d := by
  have hdocs : (d.world.ftruncate fd size).2.docs = d.world.docs := by
    unfold World.ftruncate
    cases d.world.file fd with
    | none => rfl
    | some open' =>
      dsimp only
      split
      · rfl
      · rw [World.popIo_eq]
        cases d.world.io.headD .whole <;> rfl
  simp only [truncateTo, callFtruncate, wp_bind, wp_ask]
  rcases hcall : G.env.ftruncate fd size d.world with ⟨errno | _, w⟩
  · have hw : w = (d.world.ftruncate fd size).2 := (congrArg Prod.snd hcall).symm
    exact ⟨rfl, hw ▸ hdocs, errno, w, rfl⟩
  · have hw : w = (d.world.ftruncate fd size).2 := (congrArg Prod.snd hcall).symm
    exact ⟨hw ▸ hdocs, w, rfl⟩

/-- What `file_size` answers at this moment. -/
def Disk.stat {W : Type} (d : Disk W) (E : Env W) (path : Path) : Int :=
  (E.fileSize path d.world).1

theorem Disk.stat_spec (d : Disk World) (path : Path) :
    (0 ≤ d.stat G.env path → d.tree path ≠ none) ∧
      (d.stat G.env path = -enoent → d.tree path = none) := by
  obtain ⟨-, -, hsome, hnone⟩ := d.world.fileSize_spec path
  refine ⟨fun (hnonneg : 0 ≤ (d.world.fileSize path).1) hdoc => ?_, hnone⟩
  obtain ⟨doc, hsome', -⟩ := World.doc_of_sizeAnswer (hsome hnonneg ▸ hnonneg)
  have hlocal : d.world.content path = none := hdoc
  rw [hlocal] at hsome'
  cases hsome'

/-- What the turn answers, and where it stops. -/
theorem initializeFile_cases (reuse : Bool) (index : Nat) (d : Disk World) :
    wp (initializeFile G.env reuse t storage index)
      (fun existed d' => existed = decide (0 ≤ d.stat G.env (t.pathFor index)) ∧
        d.Logged d' (.fileSize (t.pathFor index) (d.stat G.env (t.pathFor index))) ∧
        ∀ {p n}, d.world.docs p = some n → d'.world.docs p = some n)
      (fun failure _ => failure.1.fatalDiskError = true ∧ failure.2.file = index) d := by
  rw [initializeFile, wp_bind, callFileSize, wp_ask]
  set d₁ := d.note (G.env.fileSize (t.pathFor index) d.world).2
    (.fileSize (t.pathFor index) (G.env.fileSize (t.pathFor index) d.world).1) with hd₁
  have hdocs : d₁.world.docs = d.world.docs := by
    have hworld := (d.world.fileSize_spec (t.pathFor index)).1
    exact (congrArg World.docs hworld : (d.world.fileSize (t.pathFor index)).2.docs = _)
  rw [wp_bind, wp_mapError, wp_bind]
  have hlogs := logs_grows d₁.trace
  refine wp_mono (wp_and (openFile_cases G reuse storage index (t.pathFor index) true .fileOpen d₁)
    ((hlogs.openFile G.env reuse storage index (t.pathFor index) true .fileOpen).wp
      (List.suffix_refl _))) ?_ ?_
  · rintro fd d₂ ⟨hnames, hsuffix⟩
    refine wp_mono (wp_and (truncateTo_cases G fd (t.files.fileSize index) index d₂)
      ((hlogs.truncateTo G.env fd (t.files.fileSize index) index).wp hsuffix)) ?_ ?_
    · rintro _ d₃ ⟨⟨hsame, -⟩, hsuffix₃⟩
      refine ⟨rfl, ?_, fun hp => ?_⟩
      · obtain ⟨late, hlate⟩ := hsuffix₃
        exact ⟨late ++ [.fileSize _ _], by rw [← hlate, List.append_assoc]; rfl,
          List.mem_append_right _ List.mem_cons_self⟩
      · rw [hsame]
        exact hnames (hdocs ▸ hp)
    · exact fun _ _ h => ⟨rfl, h.1.1⟩
  · exact fun _ _ h => ⟨rfl, h.1.1⟩

/-- What the turn does to the documents, on a coherent cache. -/
theorem initializeFile_spec (reuse : Bool) (h : Coherent K d) {index : Nat}
    (hkey : K storage index (t.pathFor index)) :
    wp (initializeFile G.env reuse t storage index)
      (fun _ d' => Proceeds K d d' ∧ d'.tree = Function.update d.tree (t.pathFor index)
        (sized (d.tree (t.pathFor index)) (t.files.fileSize index)))
      (fun _ d' => Proceeds K d d' ∧ ∃ new,
        Prepared (t.files.fileSize index) (d.tree (t.pathFor index)) new ∧
        d'.tree = Function.update d.tree (t.pathFor index) new) d := by
  rw [initializeFile, wp_bind]
  refine callFileSize_spec G _ fun existing d₁ hquiet _ _ _ _ => ?_
  have hundisturbed := undisturbed_quiet h hquiet
  rw [wp_bind, wp_mapError, wp_bind]
  refine wp_mono (openFile_spec G reuse hundisturbed.coherent fun _ => hkey) ?_ ?_
  · intro fd d₂ hopened
    obtain ⟨writable, hwritable, hrefers⟩ := hopened.refers
    rw [hwritable rfl] at hrefers
    have htree : d₂.tree = Function.update d.tree (t.pathFor index)
        (some ((d.tree (t.pathFor index)).getD [])) := by
      rw [hopened.tree, hundisturbed.tree]
      rfl
    have hproceeds := hundisturbed.toProceeds.trans hopened.toProceeds
    refine wp_mono (truncateTo_spec G hopened.coherent.sound hrefers
      (by rw [htree, Function.update_self]) _ _) ?_ ?_
    · intro _ d₃ hputs
      refine ⟨hproceeds.trans (proceeds_grows hopened.coherent hputs.toGrows), ?_⟩
      rw [hputs.tree, htree, Function.update_idem]
      rfl
    · rintro _ d₃ ⟨hquiet₃, -⟩
      exact ⟨hproceeds.trans (proceeds_grows hopened.coherent hquiet₃.toGrows), _,
        Or.inr (Or.inl rfl), hquiet₃.tree.trans htree⟩
  · intro e d₂ hfailed
    refine ⟨hundisturbed.toProceeds.trans hfailed.toProceeds, _, Or.inl rfl, ?_⟩
    rw [hfailed.tree, hundisturbed.tree, Function.update_eq_self]

/-! ## All files -/

/-- The public files before `k` are of their size; nothing else has changed. -/
structure PreparedTo (t : TorrentStorage) (k : Nat) (tree tree' : Tree) : Prop where
  sized : ∀ i < k, t.Public i →
    tree' (t.pathFor i) = Saf.sized (tree (t.pathFor i)) (t.files.fileSize i)
  frame : ∀ p, (∀ i < k, t.Public i → p ≠ t.pathFor i) → tree' p = tree p

/-- So it is, but that the document of file `k` may be half done. -/
structure StoppedAt (t : TorrentStorage) (k : Nat) (tree tree' : Tree) : Prop where
  sized : ∀ i < k, t.Public i →
    tree' (t.pathFor i) = Saf.sized (tree (t.pathFor i)) (t.files.fileSize i)
  here : Prepared (t.files.fileSize k) (tree (t.pathFor k)) (tree' (t.pathFor k))
  frame : ∀ p, (∀ i ≤ k, t.Public i → p ≠ t.pathFor i) → tree' p = tree p

/-- The paths of the public files are different. -/
def TorrentStorage.PublicApart (t : TorrentStorage) : Prop :=
  ∀ i j, t.Public i → t.Public j → t.pathFor i = t.pathFor j → i = j

theorem Apart.publicApart (h : Apart t) : t.PublicApart :=
  fun i j hi hj heq => h.distinct i hi.1 j hj.1 hi.2.1 hj.2.1 heq

theorem StoppedAt.madeUp {k : Nat} {tree tree' : Tree} (h : StoppedAt t k tree tree')
    (hdistinct : t.PublicApart) (hk : t.Public k) : MadeUp t tree tree' := by
  refine ⟨fun i hi => ?_, fun p hp => h.frame p fun i _ hi => hp i hi⟩
  rcases lt_trichotomy i k with hlt | rfl | hgt
  · exact Or.inr (Or.inr (h.sized i hlt hi))
  · exact h.here
  · refine Or.inl (h.frame _ fun j hj hpublic heq => ?_)
    have := hdistinct i j hi hpublic heq
    omega

theorem PreparedTo.madeUp {tree tree' : Tree} (h : PreparedTo t t.numFiles tree tree') :
    MadeUp t tree tree' :=
  ⟨fun i hi => Or.inr (Or.inr (h.sized i hi.1 hi)), fun p hp => h.frame p fun i _ hi => hp i hi⟩

/-- The loop takes the public files in their order. -/
theorem TorrentStorage.mem_done (t : TorrentStorage) {done rest : List Nat} {k : Nat}
    (h : t.publicFiles = done ++ k :: rest) {i : Nat} : i ∈ done ↔ t.Public i ∧ i < k := by
  have hsorted : t.publicFiles.Pairwise (· < ·) := List.pairwise_lt_range.filter _
  rw [h, List.pairwise_append] at hsorted
  obtain ⟨-, hrest, hdone⟩ := hsorted
  rw [← t.mem_publicFiles, h, List.mem_append, List.mem_cons]
  constructor
  · exact fun hi => ⟨Or.inl hi, hdone i hi k List.mem_cons_self⟩
  · rintro ⟨hi | rfl | hi, hlt⟩
    · exact hi
    · exact absurd hlt (lt_irrefl i)
    · exact absurd hlt (Nat.lt_asymm ((List.pairwise_cons.mp hrest).1 i hi))

/-- What the turn for a file has found out: the size asked for is in the log. -/
def FoundOut (t : TorrentStorage) (d d' : Disk World) (index : Nat) (existed : Bool) : Prop :=
  ∃ size, d.Logged d' (.fileSize (t.pathFor index) size) ∧ existed = decide (0 ≤ size) ∧
    (0 ≤ size → d.tree (t.pathFor index) ≠ none) ∧
    (size = -enoent → d.tree (t.pathFor index) = none)

/-- If `file_size` has failed for missing documents only, the flag says whether there was one. -/
theorem any_existed_iff {d' : Disk World} {files : List Nat} {existed : List Bool}
    (h : List.Forall₂ (FoundOut t d d') files existed)
    (hstat : ∀ path size, d.Logged d' (.fileSize path size) → ¬ StatFails size) :
    existed.any id = true ↔ ∃ i ∈ files, d.tree (t.pathFor i) ≠ none := by
  induction h with
  | nil => simp
  | @cons index first files existed hfirst _ ih =>
    obtain ⟨size, hlogged, rfl, hsome, hnone⟩ := hfirst
    have hgood := hstat _ _ hlogged
    rw [List.any_cons, Bool.or_eq_true, ih, List.exists_mem_cons_iff, id, decide_eq_true_eq]
    refine or_congr ⟨hsome, fun hdoc => ?_⟩ Iff.rfl
    by_contra hneg
    exact hdoc (hnone (by_contra fun hne => hgood ⟨Int.not_le.mp hneg, hne⟩))

/-- **`initialize_files`**: every public file has a document of its size, and the flag is right;
    or it has stopped at a public file. -/
theorem initializeFiles_spec (reuse : Bool) (h : Coherent K d) (hdistinct : t.PublicApart)
    (hK : ∀ i, t.Public i → K storage i (t.pathFor i)) :
    wp (initializeFiles G.env reuse t storage)
      (fun status d' => Proceeds K d d' ∧ PreparedTo t t.numFiles d.tree d'.tree ∧
        ((∀ path size, d.Logged d' (.fileSize path size) → ¬ StatFails size) →
          (status.needFullCheck = true ↔ ∃ i, t.Public i ∧ d.tree (t.pathFor i) ≠ none)))
      (fun failure d' => failure.1.fatalDiskError = true ∧ Proceeds K d d' ∧
        ∃ k : Nat, t.Public k ∧ failure.2.file = k ∧ StoppedAt t k d.tree d'.tree) d := by
  rw [initializeFiles_eq, wp_bind]
  refine wp_mapEach (fun done existed d' => Proceeds K d d' ∧ d.trace <:+ d'.trace ∧
      (∀ i ∈ done, d'.tree (t.pathFor i) = sized (d.tree (t.pathFor i)) (t.files.fileSize i)) ∧
      (∀ p, (∀ i ∈ done, p ≠ t.pathFor i) → d'.tree p = d.tree p) ∧
      List.Forall₂ (FoundOut t d d') done existed)
    ⟨.refl h, List.suffix_refl _, by simp, fun _ _ => rfl, List.Forall₂.nil⟩ ?_ ?_
  · rintro done existed index rest d₁ hlist ⟨hproceeds, hsuffix, hdone, hframe, hfound⟩
    have hindex : t.Public index := t.mem_publicFiles.mp (hlist ▸ List.mem_append_cons_self)
    -- the paths handled so far are others
    have hother : ∀ i ∈ done, t.pathFor index ≠ t.pathFor i := by
      intro i hi heq
      obtain ⟨hpublic, hlt⟩ := (t.mem_done hlist).mp hi
      have := hdistinct index i hindex hpublic heq
      omega
    have hat := hframe _ hother
    refine wp_mono (wp_and (initializeFile_spec G reuse hproceeds.coherent (hK index hindex))
      (initializeFile_cases G reuse index d₁)) ?_ ?_
    · rintro existed' d₂ ⟨⟨hproceeds₂, htree⟩, rfl, hlogged, -⟩
      have hsuffix₂ : d₁.trace <:+ d₂.trace := hlogged.suffix
      refine ⟨hproceeds.trans hproceeds₂, hsuffix.trans hsuffix₂, fun i hi => ?_, fun p hp => ?_,
        ?_⟩
      · rcases List.mem_append.mp hi with hi | hi
        · rw [htree, Function.update_of_ne (hother i hi).symm]
          exact hdone i hi
        · obtain rfl := List.mem_singleton.mp hi
          rw [htree, Function.update_self, hat]
      · rw [htree, Function.update_of_ne (hp index (by simp))]
        exact hframe p fun i hi => hp i (by simp [hi])
      · refine List.rel_append (hfound.imp ?_) (.cons ?_ .nil)
        · rintro i y ⟨size, hlog, hrest⟩
          exact ⟨size, hlog.later (List.suffix_refl _) hsuffix₂, hrest⟩
        · have hspec := d₁.stat_spec G (t.pathFor index)
          rw [hat] at hspec
          exact ⟨_, hlogged.later hsuffix (List.suffix_refl _), rfl, hspec⟩
    · rintro failure d₂ ⟨⟨hproceeds₂, new, hnew, htree⟩, hfatal, hfile⟩
      rw [hat] at hnew
      refine ⟨hfatal, hproceeds.trans hproceeds₂, index, hindex, hfile, fun i hlt hi => ?_, ?_, ?_⟩
      · have hin := (t.mem_done hlist).mpr ⟨hi, hlt⟩
        rw [htree, Function.update_of_ne (hother i hin).symm]
        exact hdone i hin
      · rw [htree, Function.update_self]
        exact hnew
      · intro p hp
        rw [htree, Function.update_of_ne (hp index le_rfl hindex)]
        refine hframe p fun i hi => ?_
        obtain ⟨hpublic, hlt⟩ := (t.mem_done hlist).mp hi
        exact hp i hlt.le hpublic
  · rintro existed d' ⟨hproceeds, -, hdone, hframe, hfound⟩
    refine ⟨hproceeds, ⟨fun i _ hi => hdone i (t.mem_publicFiles.mpr hi), fun p hp => ?_⟩,
      fun hstat => ?_⟩
    · refine hframe p fun i hi => ?_
      have hpublic := t.mem_publicFiles.mp hi
      exact hp i hpublic.1 hpublic
    · rw [any_existed_iff hfound hstat]
      simp only [t.mem_publicFiles]

end Saf
end Libtorrent4j
