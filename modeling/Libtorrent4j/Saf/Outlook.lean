import Libtorrent4j.Saf.Pool
import Libtorrent4j.Saf.Preparing

/-!
# What is to come

How `open_file` and `ftruncate` will go can be told before they are called: from the answers that
are scheduled for the bridge and for the transfers, from which documents there are, and from the
pool of descriptors, which decides whether the bridge is asked at all. An `Outlook` is these four.

`Foresees.openFile` and `Foresees.truncateTo` say that both go as foreseen, and what there is to
expect after them.
-/

namespace Libtorrent4j
namespace Saf

open Lib Lib.Exec

/-! ## Scheduled answers -/

namespace BridgeFault

/-- A `file_size` that fails otherwise than for want of a document. -/
def unknown : BridgeFault → Bool
  | .ok => false
  | .fail errno => errno.code != enoent

/-- A `create_directory` after which its caller goes on. -/
def makes : BridgeFault → Bool
  | .ok => true
  | .fail errno => errno.code == eexist

/-- An `open_file` for writing that opens. `-enoent` is not said of a document that exists. -/
def opens (stored : Bool) : BridgeFault → Bool
  | .ok => true
  | .fail errno => errno.code == enoent && stored

end BridgeFault

/-- An `ftruncate` that does what it should. -/
def IoFault.truncates : IoFault → Bool
  | .fail _ _ => false
  | _ => true

namespace World

theorem statFails_fileSize_iff (path : Path) (w : World) :
    StatFails (w.fileSize path).1 ↔ (w.bridge.headD .ok).unknown = true := by
  rw [fileSize_eq, bridgeCall, popBridge_eq]
  cases hfault : w.bridge.headD .ok with
  | ok => exact iff_of_false (sizeAnswer_benign _) (by decide)
  | fail errno =>
    have hpos := errno.pos
    dsimp only
    split
    · rename_i hexists
      exact iff_of_false (sizeAnswer_benign _) (by simp [BridgeFault.unknown, hexists.1])
    · simp only [StatFails, BridgeFault.unknown, bne_iff_ne, ne_eq]
      omega

theorem createDirectory_stops_iff (path : Path) (w : World) :
    ((w.createDirectory path).1 < 0 ∧ (w.createDirectory path).1 ≠ -eexist) ↔
      (w.bridge.headD .ok).makes = false := by
  unfold createDirectory
  rw [popBridge_eq]
  cases hfault : w.bridge.headD .ok with
  | ok => simp [BridgeFault.makes]
  | fail errno =>
    have hpos := errno.pos
    simp only [BridgeFault.makes, beq_eq_false_iff_ne, ne_eq]
    omega

/-- What an open for writing leaves, if it opens. -/
structure OpensFor (w : World) (path : Path) (fd : Int) (w' : World) : Prop where
  nonneg : 0 ≤ fd
  fresh : w.file fd = none
  opened : ∃ node, w'.file fd = some { node, writable := true }
  others : ∀ {fd f}, w.file fd = some f → w'.file fd = some f
  stored : ∀ p, (w'.docs p).isSome = Function.update (fun p => (w.docs p).isSome) path true p
  bridge : w'.bridge = w.bridge.tail
  io : w'.io = w.io

theorem openFile_foreseen (K : FdPicker) (path : Path) (w : World) :
    let r := w.openFile K path .readWrite
    ((w.bridge.headD .ok).opens (w.docs path).isSome = true → w.OpensFor path r.1 r.2) ∧
      ((w.bridge.headD .ok).opens (w.docs path).isSome = false → r.1 < 0) := by
  intro r
  -- the bridge acts: it opens what is there, or makes it
  have hopens : ∀ node, w.docs path = some node → r = w.afterBridge.openNode K node true →
      w.OpensFor path r.1 r.2 := by
    intro node hdocs hr
    rw [hr]
    refine ⟨K.pick_nonneg _, openNode_fresh K w.afterBridge node _, ⟨node, openNode_file K _ _ _⟩,
      fun h => file_openNode (K := K) (w := w.afterBridge) h, fun p => ?_, rfl, rfl⟩
    by_cases hp : p = path
    · subst hp
      simp [openNode, afterBridge, hdocs]
    · rw [Function.update_of_ne hp]
      rfl
  have hmakes : r = (w.afterBridge.create path).openNode K w.nextNode true →
      w.OpensFor path r.1 r.2 := by
    intro hr
    rw [hr]
    refine ⟨K.pick_nonneg _, openNode_fresh K (w.afterBridge.create path) _ _,
      ⟨_, openNode_file K _ _ _⟩,
      fun h => file_openNode (K := K) (w := w.afterBridge.create path) h,
      fun p => ?_, rfl, rfl⟩
    by_cases hp : p = path
    · subst hp
      simp [openNode, create]
    · simp [openNode, create, Function.update_of_ne hp, afterBridge]
  have hr : r = w.openFile K path .readWrite := rfl
  unfold openFile bridgeCall at hr
  rw [popBridge_eq] at hr
  cases hfault : w.bridge.headD .ok with
  | ok =>
    rw [hfault] at hr
    refine ⟨fun _ => ?_, fun hnot => by simp [BridgeFault.opens] at hnot⟩
    cases hdocs : w.docs path with
    | none => exact hmakes (by simpa [afterBridge, create, hdocs] using hr)
    | some node => exact hopens node hdocs (by simpa [afterBridge, hdocs] using hr)
  | fail errno =>
    have hpos := errno.pos
    simp only [hfault, BridgeFault.opens, Bool.and_eq_true, beq_iff_eq] at hr ⊢
    split at hr
    · rename_i hexists
      obtain ⟨node, hdocs⟩ := Option.isSome_iff_exists.mp hexists.2
      refine ⟨fun _ => hopens node hdocs ?_, fun hnot => by simp [hexists] at hnot⟩
      simpa [afterBridge, hdocs] using hr
    · rename_i hnot
      refine ⟨fun hopens => absurd hopens hnot, fun _ => ?_⟩
      rw [hr]
      dsimp only
      omega

theorem ftruncate_foreseen {w : World} {fd : Int} {node : Nat}
    (h : w.file fd = some { node, writable := true }) (size : Nat) :
    let r := w.ftruncate fd size
    (r.1.isOk = (w.io.headD .whole).truncates) ∧ r.2.docs = w.docs ∧ r.2.fds = w.fds ∧
      r.2.bridge = w.bridge ∧ r.2.io = w.io.tail := by
  intro r
  simp only [r, ftruncate, h, popIo_eq, Bool.true_eq_false, if_false]
  cases w.io.headD .whole <;> exact ⟨rfl, rfl, rfl, rfl, rfl⟩

end World

/-! ## Open descriptors -/

/-- Every cached descriptor is open as its entry says, under a number of its own. -/
structure Disk.Live (d : Disk World) : Prop where
  numbers : (d.descriptors.map (·.descriptor)).Nodup
  opened : ∀ entry ∈ d.descriptors, ∃ node,
    d.world.file entry.descriptor = some { node, writable := entry.writable }

/-- A coherent cache is one of open descriptors. -/
theorem Coherent.live {K : Keys} {d : Disk World} (h : Coherent K d) : d.Live :=
  ⟨h.nodup, fun entry he => (h.current entry he).imp fun _ hrefers => hrefers.2⟩

/-- The same documents and scheduled answers. -/
structure World.SameAnswers (w w' : World) : Prop where
  docs : w'.docs = w.docs
  bridge : w'.bridge = w.bridge
  io : w'.io = w.io

namespace Disk.Live

variable {d d' : Disk World}

theorem of_eq (h : d.Live) (hentries : d'.descriptors = d.descriptors)
    (hfile : ∀ {fd f}, d.world.file fd = some f → d'.world.file fd = some f) : d'.Live := by
  refine ⟨hentries ▸ h.numbers, fun entry he => ?_⟩
  exact (h.opened entry (hentries ▸ he)).imp fun _ hopen => hfile hopen

/-- An entry leaves the cache and its descriptor is closed. -/
theorem close (h : d.Live) {entry : OpenDescriptor} {rest : List OpenDescriptor}
    (hperm : d.descriptors.Perm (entry :: rest)) (event : Event World) :
    Disk.Live { d.note (d.world.close entry.descriptor) event with descriptors := rest } := by
  have hnumbers := (hperm.map (·.descriptor)).nodup_iff.mp h.numbers
  rw [List.map_cons, List.nodup_cons] at hnumbers
  refine ⟨hnumbers.2, fun other ho => ?_⟩
  obtain ⟨node, hopen⟩ := h.opened other (hperm.mem_iff.mpr (List.mem_cons_of_mem _ ho))
  have hne : other.descriptor ≠ entry.descriptor :=
    fun heq => hnumbers.1 (heq ▸ List.mem_map_of_mem ho)
  exact ⟨node, (World.file_close hne).trans hopen⟩

/-- Stamping an entry changes no descriptor. -/
theorem touch (h : d.Live) (p : OpenDescriptor → Bool) (use : Nat)
    (hentries : d'.descriptors = touchFirst p use d.descriptors) (hworld : d'.world = d.world) :
    d'.Live := by
  refine ⟨by rw [hentries, map_descriptor_touchFirst]; exact h.numbers, fun entry he => ?_⟩
  obtain ⟨before, hbefore, heq⟩ := mem_touchFirst (hentries ▸ he)
  rw [heq, hworld]
  exact h.opened before hbefore

/-- A descriptor that has just been opened is a new one. -/
theorem add (h : d.Live) {entry : OpenDescriptor} (hfresh : d.world.file entry.descriptor = none)
    (hentries : d'.descriptors = d.descriptors ++ [entry])
    (hothers : ∀ {fd f}, d.world.file fd = some f → d'.world.file fd = some f)
    (hopen : ∃ node, d'.world.file entry.descriptor = some { node, writable := entry.writable }) :
    d'.Live := by
  refine ⟨?_, fun other ho => ?_⟩
  · rw [hentries, List.map_append, List.map_singleton]
    refine List.Nodup.append h.numbers (List.nodup_singleton _) ?_
    rw [List.disjoint_singleton, List.mem_map]
    rintro ⟨other, ho, heq⟩
    obtain ⟨node, hother⟩ := h.opened other ho
    rw [heq, hfresh] at hother
    cases hother
  · rcases List.mem_append.mp (hentries ▸ ho) with ho | ho
    · exact (h.opened other ho).imp fun _ hother => hothers hother
    · exact List.mem_singleton.mp ho ▸ hopen

end Disk.Live

/-! ## Opening for writing -/

section Open

variable (G : Host) {F : Type} {d : Disk World}

/-- Making room changes no answer to come. -/
theorem evictToLimit_live (turns : Nat) {R : F → Disk World → Prop} (h : d.Live) :
    wp (evictToLimit G.env turns : Exec (Disk World) F Unit)
      (fun _ d' => d'.Live ∧ d.world.SameAnswers d'.world) R d := by
  induction turns generalizing d with
  | zero => exact ⟨h, rfl, rfl, rfl⟩
  | succ turns ih =>
    rw [evictToLimit, wp_bind, wp_get, wp_ite]
    refine ⟨fun _ => ?_, fun _ => ⟨h, rfl, rfl, rfl⟩⟩
    rw [wp_bind, evictOne, wp_bind, wp_get]
    cases holdest : oldest d.descriptors with
    | none => exact ih h
    | some entry =>
      simp only [callClose, wp_bind, wp_ask, wp_modify]
      have hclosed := h.close (List.perm_cons_erase (mem_of_oldest holdest))
        (.close entry.descriptor)
      refine wp_mono (ih hclosed) (fun _ d' h' => ?_) fun _ _ hR => hR
      exact ⟨h'.1, h'.2.docs, h'.2.bridge, h'.2.io⟩

/-- How many answers the parents of a path take. -/
def parentCount (path : Path) : Nat := (parentDirectories path).length

/-- The answers to an open for writing that the pool cannot serve: those about the parents, and
    the one about the document. -/
def opensAnew (path : Path) (stored : Bool) (bridge : List BridgeFault) : Bool :=
  safeRelativePath path && (bridge.take (parentCount path)).all BridgeFault.makes &&
    ((bridge.drop (parentCount path)).headD .ok).opens stored

/-- The creation of directories uses up an answer for each, and nothing else. -/
structure Disk.Asked (d : Disk World) (answers : Nat) (d' : Disk World) : Prop where
  descriptors : d'.descriptors = d.descriptors
  docs : d'.world.docs = d.world.docs
  fds : d'.world.fds = d.world.fds
  bridge : d'.world.bridge = d.world.bridge.drop answers
  io : d'.world.io = d.world.io

theorem createEach_foreseen (directories : List Path) (file : Int) (d : Disk World) :
    wp (forEach directories fun directory => do
        let result ← callCreateDirectory G.env directory
        throwIf (result < 0 ∧ result ≠ -eexist) (makeError result file .mkdir))
      (fun _ d' => (d.world.bridge.take directories.length).all BridgeFault.makes = true ∧
        d.Asked directories.length d')
      (fun _ _ => (d.world.bridge.take directories.length).all BridgeFault.makes = false) d := by
  induction directories generalizing d with
  | nil => exact ⟨by simp, rfl, rfl, rfl, rfl, rfl⟩
  | cons directory rest ih =>
    rw [forEach, wp_andThen, wp_bind, callCreateDirectory, wp_ask, wp_throwIf]
    have hstops := World.createDirectory_stops_iff directory d.world
    set d₁ := d.note (G.env.createDirectory directory d.world).2
      (.createDirectory directory (G.env.createDirectory directory d.world).1) with hd₁
    have hworld : d₁.world = d.world.afterBridge := (d.world.createDirectory_spec directory).1
    -- an answer that is not scheduled lets the loop go on
    have hall : (d.world.bridge.take (rest.length + 1)).all BridgeFault.makes =
        ((d.world.bridge.headD .ok).makes &&
          (d.world.bridge.tail.take rest.length).all BridgeFault.makes) := by
      cases d.world.bridge with
      | nil => simp [BridgeFault.makes]
      | cons fault later => simp
    rw [List.length_cons, hall]
    refine ⟨fun hfails => ?_, fun hgoes => ?_⟩
    · rw [hstops.mp hfails, Bool.false_and]
    · have hmakes : (d.world.bridge.headD .ok).makes = true := by
        rw [← Bool.not_eq_false]
        exact fun hfalse => hgoes (hstops.mpr hfalse)
      rw [hmakes, Bool.true_and]
      have hrest := ih d₁
      rw [hworld] at hrest
      refine wp_mono hrest (fun _ d' h => ⟨h.1, ?_⟩) fun _ _ h => h
      obtain ⟨-, hasked⟩ := h
      exact ⟨hasked.descriptors, hasked.docs.trans (by rw [hworld]; rfl),
        hasked.fds.trans (by rw [hworld]; rfl),
        hasked.bridge.trans (by rw [hworld]; exact List.drop_tail),
        hasked.io.trans (by rw [hworld]; rfl)⟩

/-- What `open_file` for writing leaves when the bridge has opened the document. -/
structure OpenedAnew (path : Path) (d : Disk World) (fd : Int) (d' : Disk World) : Prop where
  live : d'.Live
  opened : ∃ node, d'.world.file fd = some { node, writable := true }
  stored : ∀ p, (d'.world.docs p).isSome =
    Function.update (fun p => (d.world.docs p).isSome) path true p
  bridge : d'.world.bridge = d.world.bridge.drop (parentCount path + 1)
  io : d'.world.io = d.world.io

theorem openUncached_foreseen (storage : Nat) (file : Int) (path : Path) (operation : Operation)
    (h : d.Live) :
    wp (openUncached G.env storage file path true operation)
      (fun fd d' => opensAnew path (d.world.docs path).isSome d.world.bridge = true ∧
        OpenedAnew path d fd d')
      (fun _ _ => opensAnew path (d.world.docs path).isSome d.world.bridge = false) d := by
  simp only [openUncached, if_true, ensureParentDirectories, openAndStore, wp_bind, wp_throwIf]
  refine ⟨fun hunsafe => by simp [opensAnew, hunsafe], fun hsafe => ?_⟩
  have hsafe' : safeRelativePath path = true := by simpa using hsafe
  refine wp_mono (createEach_foreseen G (parentDirectories path) file d) ?_ ?_
  · rintro _ d₁ ⟨hmakes, hasked⟩
    refine ⟨fun hunsafe => absurd hunsafe hsafe, fun _ => ?_⟩
    rw [wp_get]
    have hlive₁ : d₁.Live := h.of_eq hasked.descriptors fun hopen => by
      simpa [World.file, hasked.fds] using hopen
    refine wp_mono (evictToLimit_live G d₁.descriptors.length hlive₁) ?_ fun _ _ hR => hR
    rintro _ d₂ ⟨hlive₂, hsame⟩
    have hbridge : d₂.world.bridge = d.world.bridge.drop (parentCount path) :=
      hsame.bridge.trans hasked.bridge
    have hdocs : d₂.world.docs = d.world.docs := hsame.docs.trans hasked.docs
    have hopens : opensAnew path (d.world.docs path).isSome d.world.bridge =
        (d₂.world.bridge.headD .ok).opens (d₂.world.docs path).isSome := by
      rw [opensAnew, hsafe', Bool.true_and, parentCount, hmakes, Bool.true_and, hbridge, hdocs]
      rfl
    obtain ⟨hyes, hno⟩ := World.openFile_foreseen G.picker path d₂.world
    simp only [callOpenFile, wp_ask, wp_modify, wp_ret]
    rw [hopens]
    cases hanswer : (d₂.world.bridge.headD .ok).opens (d₂.world.docs path).isSome with
    | false => exact ⟨fun _ => rfl, fun hopened => absurd (hno hanswer) hopened⟩
    | true =>
      have hopened := hyes hanswer
      refine ⟨fun hneg => absurd hneg (Int.not_lt.mpr hopened.nonneg), fun _ => ⟨rfl, ?_⟩⟩
      refine ⟨hlive₂.add hopened.fresh rfl hopened.others hopened.opened, hopened.opened, ?_, ?_,
        hopened.io.trans (hsame.io.trans hasked.io)⟩
      · rw [← hdocs]
        exact hopened.stored
      · refine hopened.bridge.trans ?_
        rw [hbridge, List.tail_drop]
  · intro error d₁ hfails
    rw [opensAnew, hsafe', Bool.true_and, parentCount, hfails, Bool.false_and]

/-- `open_file` for writing takes a writable descriptor from the pool, or has the bridge open
    one. -/
theorem openFile_live (storage : Nat) (file : Int) (path : Path) (operation : Operation)
    (h : d.Live) :
    wp (openFile G.env true storage file path true operation)
      (fun fd d' => d'.Live ∧ (∃ node, d'.world.file fd = some { node, writable := true }) ∧
        ((∃ entry, d.descriptors.find? (·.isFor storage file path) = some entry ∧
            entry.writable = true) ∧ d'.world = d.world ∨
          (∀ entry, d.descriptors.find? (·.isFor storage file path) = some entry →
            entry.writable = false) ∧
          opensAnew path (d.world.docs path).isSome d.world.bridge = true ∧
          OpenedAnew path d fd d'))
      (fun _ _ => (∀ entry, d.descriptors.find? (·.isFor storage file path) = some entry →
          entry.writable = false) ∧
        opensAnew path (d.world.docs path).isSome d.world.bridge = false) d := by
  rw [openFile, wp_bind, wp_get, if_pos rfl]
  cases hfound : d.descriptors.find? (·.isFor storage file path) with
  | none =>
    refine wp_mono (openUncached_foreseen G storage file path operation h) ?_ ?_
    · rintro fd d' ⟨hopens, hnew⟩
      exact ⟨hnew.live, hnew.opened, Or.inr ⟨by simp, hopens, hnew⟩⟩
    · intro error d' hfails
      exact ⟨by simp, hfails⟩
  | some entry =>
    dsimp only
    rw [wp_ite]
    refine ⟨fun hmode => ?_, fun hmode => ?_⟩
    · have hwritable : entry.writable = true := hmode.resolve_left (by decide)
      rw [wp_bind, wp_modify, wp_ret]
      refine ⟨h.touch _ _ rfl rfl, ?_, Or.inl ⟨⟨entry, rfl, hwritable⟩, rfl⟩⟩
      obtain ⟨node, hopen⟩ := h.opened entry (List.mem_of_find?_eq_some hfound)
      exact ⟨node, hwritable ▸ hopen⟩
    · have hreadable : ∀ other, some entry = some other → other.writable = false := by
        rintro other heq
        obtain rfl := Option.some.inj heq
        simpa using hmode
      simp only [callClose, wp_bind, wp_ask, wp_modify]
      have hclosed := h.close (perm_eraseP_of_find? hfound) (.close entry.descriptor)
      refine wp_mono (openUncached_foreseen G storage file path operation hclosed) ?_ ?_
      · rintro fd d' ⟨hopens, hnew⟩
        exact ⟨hnew.live, hnew.opened, Or.inr ⟨hreadable, hopens, hnew.live, hnew.opened,
          hnew.stored, hnew.bridge, hnew.io⟩⟩
      · intro error d' hfails
        exact ⟨hreadable, hfails⟩

end Open

/-! ## The outlook -/

/-- What an entry is in the pool for. -/
def OpenDescriptor.slot (entry : OpenDescriptor) : (Nat × Int × Path) × Bool :=
  (entry.key, entry.writable)

/-- What decides how the calls to come will go. The pool is by recency. -/
structure Outlook where
  bridge : List BridgeFault
  io : List IoFault
  stored : Path → Bool
  pool : List ((Nat × Int × Path) × Bool)
  limit : Nat

namespace Outlook

/-- What there is to expect in a state, whose cache is in this order. -/
def of (d : Disk World) (order : List OpenDescriptor) : Outlook where
  bridge := d.world.bridge
  io := d.world.io
  stored path := (d.world.docs path).isSome
  pool := order.map OpenDescriptor.slot
  limit := d.limit

variable (o : Outlook) (storage : Nat) (file : Int) (path : Path)

/-- Nothing is known of the document that `file_size` will be asked for next. -/
def unknown : Bool := (o.bridge.headD .ok).unknown

/-- After `file_size`. -/
def asked : Outlook := { o with bridge := o.bridge.tail }

/-- The pool has a descriptor for writing. -/
def cached : Bool := decide (((storage, file, path), true) ∈ o.pool)

/-- `open_file` for writing will answer with a descriptor. -/
def opens : Bool := o.cached storage file path || opensAnew path (o.stored path) o.bridge

/-- After it has. -/
def opened : Outlook :=
  let others := o.pool.filter (·.1 ≠ (storage, file, path))
  if o.cached storage file path then { o with pool := ((storage, file, path), true) :: others }
  else
    { o with
      bridge := o.bridge.drop (parentCount path + 1)
      stored := Function.update o.stored path true
      pool := ((storage, file, path), true) :: others.take (o.limit - 1) }

/-- `ftruncate` will succeed. -/
def truncates : Bool := (o.io.headD .whole).truncates

/-- After `ftruncate`. -/
def truncated : Outlook := { o with io := o.io.tail }

/-- The outlook is that of the state. -/
structure Foresees (o : Outlook) (d : Disk World) : Prop where
  neat : Neat d
  live : d.Live
  pool : ∃ order, d.Ordered order ∧ o.pool = order.map OpenDescriptor.slot
  bridge : o.bridge = d.world.bridge
  io : o.io = d.world.io
  stored : ∀ p, o.stored p = (d.world.docs p).isSome
  limit : o.limit = d.limit

namespace Foresees

variable {o : Outlook} {d : Disk World} {order : List OpenDescriptor}

theorem of_disk (hneat : Neat d) (hlive : d.Live) (horder : d.Ordered order) :
    (Outlook.of d order).Foresees d :=
  ⟨hneat, hlive, ⟨order, horder, rfl⟩, rfl, rfl, fun _ => rfl, rfl⟩

/-- The pool has a writable descriptor just when the search finds one. -/
theorem cached_iff (h : o.Foresees d) (storage : Nat) (file : Int) (path : Path) :
    o.cached storage file path = true ↔
      ∃ entry, d.descriptors.find? (·.isFor storage file path) = some entry ∧
        entry.writable = true := by
  obtain ⟨order, horder, hpool⟩ := h.pool
  rw [cached, decide_eq_true_eq, hpool, List.mem_map]
  constructor
  · rintro ⟨entry, he, hslot⟩
    obtain ⟨hkey, hwritable⟩ := Prod.mk.inj hslot
    have hmem := horder.perm.mem_iff.mp he
    have hfor := isFor_iff_key.mpr hkey
    cases hfound : d.descriptors.find? (·.isFor storage file path) with
    | none => exact absurd hfor (List.find?_eq_none.mp hfound entry hmem)
    | some other =>
      obtain rfl := h.neat.eq_of_isFor (List.mem_of_find?_eq_some hfound) hmem
        (List.find?_some hfound) hfor
      exact ⟨other, rfl, hwritable⟩
  · rintro ⟨entry, hfound, hwritable⟩
    refine ⟨entry, horder.perm.mem_iff.mpr (List.mem_of_find?_eq_some hfound), ?_⟩
    rw [OpenDescriptor.slot, isFor_iff_key.mp (List.find?_some hfound), hwritable]

/-- Without the entry under a key. -/
theorem slots_erase (hkeys : (order.map OpenDescriptor.key).Nodup) {entry : OpenDescriptor}
    (he : entry ∈ order) :
    (order.erase entry).map OpenDescriptor.slot =
      (order.map OpenDescriptor.slot).filter (·.1 ≠ entry.key) := by
  rw [hkeys.of_map.erase_eq_filter, List.filter_map]
  congr 1
  refine List.filter_congr fun other ho => ?_
  by_cases heq : other = entry
  · simp [OpenDescriptor.slot, heq]
  · have hkey : other.key ≠ entry.key := mt (List.inj_on_of_nodup_map hkeys ho he) heq
    simp [OpenDescriptor.slot, heq, hkey]

/-- There is none. -/
theorem slots_absent {key : Nat × Int × Path} (hnone : ∀ entry ∈ order, entry.key ≠ key) :
    (order.map OpenDescriptor.slot).filter (·.1 ≠ key) = order.map OpenDescriptor.slot := by
  rw [List.filter_eq_self]
  intro slot hslot
  obtain ⟨entry, he, rfl⟩ := List.mem_map.mp hslot
  exact decide_eq_true (hnone entry he)

/-- An access of the pool brings the slot to the front. -/
theorem slots_access {limit use storage : Nat} {file : Int} {path : Path} {operation : Operation}
    {asked : Option Int} {fd : Int} {order' : List OpenDescriptor}
    (hkeys : (order.map OpenDescriptor.key).Nodup)
    (h : Access limit use storage file path true operation order asked (.ok fd) order') :
    let others := (order.map OpenDescriptor.slot).filter (·.1 ≠ (storage, file, path))
    order'.map OpenDescriptor.slot = ((storage, file, path), true) ::
      if ((storage, file, path), true) ∈ order.map OpenDescriptor.slot then others
      else others.take (limit - 1) := by
  intro others
  have hothers : ∀ {entry}, order.find? (·.isFor storage file path) = some entry →
      (order.erase entry).map OpenDescriptor.slot = others := by
    intro entry hfound
    rw [slots_erase hkeys (List.mem_of_find?_eq_some hfound),
      isFor_iff_key.mp (List.find?_some hfound)]
  cases h with
  | @hit entry hfound hmode =>
    have hwritable : entry.writable = true := hmode.resolve_left (by decide)
    have hslot : entry.slot = ((storage, file, path), true) := by
      rw [OpenDescriptor.slot, isFor_iff_key.mp (List.find?_some hfound), hwritable]
    rw [if_pos (hslot ▸ List.mem_map_of_mem (List.mem_of_find?_eq_some hfound)), List.map_cons,
      hothers hfound]
    exact congrArg (· :: others) hslot
  | @miss base hbase hsafe _ hopen =>
    have hrest : ((storage, file, path), true) ∉ order.map OpenDescriptor.slot ∧
        base.map OpenDescriptor.slot = others := by
      cases hbase with
      | absent hnone =>
        have hkey : ∀ entry ∈ order, entry.key ≠ (storage, file, path) := fun entry he hkey =>
          List.find?_eq_none.mp hnone entry he (isFor_iff_key.mpr hkey)
        refine ⟨fun hmem => ?_, (slots_absent hkey).symm⟩
        obtain ⟨entry, he, hslot⟩ := List.mem_map.mp hmem
        exact hkey entry he (Prod.mk.inj hslot).1
      | @readOnly entry hfound _ hmode =>
        refine ⟨fun hmem => ?_, hothers hfound⟩
        obtain ⟨other, ho, hslot⟩ := List.mem_map.mp hmem
        obtain ⟨hkey, hwritable⟩ := Prod.mk.inj hslot
        obtain rfl : other = entry := List.inj_on_of_nodup_map hkeys ho
          (List.mem_of_find?_eq_some hfound)
          (hkey.trans (isFor_iff_key.mp (List.find?_some hfound)).symm)
        rw [hmode] at hwritable
        cases hwritable
    rw [if_neg hrest.1, List.map_cons, List.map_take, hrest.2]
    rfl

variable (G : Host) (storage : Nat) (file : Int) (path : Path) (operation : Operation)

/-- **`open_file` for writing goes as foreseen.** -/
theorem openFile (h : o.Foresees d) :
    wp (Saf.openFile G.env true storage file path true operation)
      (fun fd d' => o.opens storage file path = true ∧
        (o.opened storage file path).Foresees d' ∧
        (∃ node, d'.world.file fd = some { node, writable := true }) ∧
        (o.cached storage file path = true → d'.world.docs = d.world.docs))
      (fun _ _ => o.opens storage file path = false) d := by
  obtain ⟨order, horder, hpool⟩ := h.pool
  obtain ⟨hneat, hlimit, asked, order', -, horder', haccess⟩ :=
    openFile_lru G.env storage file path true operation h.neat horder
  have hkeys := (horder.perm.map OpenDescriptor.key).nodup_iff.mpr h.neat.keys
  have hcached := h.cached_iff storage file path
  refine wp_mono (wp_and (openFile_live G storage file path operation h.live) (wp_of
    (Q := fun fd d' => Saf.openFile G.env true storage file path true operation d = (.ok fd, d'))
    (R := fun _ _ => True) (fun _ _ hrun => hrun) fun _ _ _ => trivial)) ?_ ?_
  · rintro fd d' ⟨⟨hlive, hopen, hcases⟩, hrun⟩
    rw [hrun] at hneat hlimit horder' haccess
    have hslots := slots_access hkeys haccess
    dsimp only at hslots
    rw [← hpool] at hslots
    rcases hcases with ⟨hfound, hworld⟩ | ⟨hnone, hopens, hnew⟩
    · have hin : o.cached storage file path = true := hcached.mpr hfound
      rw [if_pos (of_decide_eq_true hin)] at hslots
      refine ⟨by rw [opens, hin, Bool.true_or], ?_, hopen, fun _ => by rw [hworld]⟩
      rw [opened, if_pos hin]
      exact ⟨hneat, hlive, ⟨order', horder', hslots.symm⟩, by rw [hworld]; exact h.bridge,
        by rw [hworld]; exact h.io, fun p => by rw [hworld]; exact h.stored p,
        h.limit.trans hlimit.symm⟩
    · have hout : o.cached storage file path = false := by
        rw [← Bool.not_eq_true, hcached]
        rintro ⟨entry, hfound, hwritable⟩
        rw [hnone entry hfound] at hwritable
        cases hwritable
      have hstored : o.stored = fun p => (d.world.docs p).isSome := funext h.stored
      rw [if_neg (of_decide_eq_false hout)] at hslots
      refine ⟨?_, ?_, hopen, fun hin => by rw [hout] at hin; cases hin⟩
      · rw [opens, hout, Bool.false_or, h.stored, h.bridge]
        exact hopens
      · rw [opened, if_neg (by rw [hout]; decide)]
        refine ⟨hneat, hlive, ⟨order', horder', ?_⟩, ?_, h.io.trans hnew.io.symm, fun p => ?_,
          h.limit.trans hlimit.symm⟩
        · rw [hslots, h.limit]
        · rw [hnew.bridge, ← h.bridge]
        · rw [hnew.stored, ← hstored]
  · rintro error d' ⟨⟨hnone, hopens⟩, -⟩
    rw [opens, Bool.or_eq_false_iff, h.stored, h.bridge, ← Bool.not_eq_true, hcached]
    refine ⟨?_, hopens⟩
    rintro ⟨entry, hfound, hwritable⟩
    rw [hnone entry hfound] at hwritable
    cases hwritable

omit G in
/-- `file_size` is asked. -/
theorem asked (h : o.Foresees d) {w : World} (hworld : w = d.world.afterBridge)
    (event : Event World) : o.asked.Foresees (d.note w event) := by
  subst hworld
  obtain ⟨order, horder, hpool⟩ := h.pool
  exact ⟨h.neat.sublist (List.Sublist.refl _) rfl, h.live.of_eq rfl fun hopen => hopen,
    ⟨order, horder.congr rfl, hpool⟩, congrArg List.tail h.bridge, h.io, h.stored, h.limit⟩

theorem unknown_iff (h : o.Foresees d) (path : Path) :
    StatFails (d.stat G.env path) ↔ o.unknown = true := by
  rw [Outlook.unknown, h.bridge]
  exact World.statFails_fileSize_iff path d.world

/-- **A truncation goes as foreseen.** -/
theorem truncateTo (h : o.Foresees d) {fd : Int}
    (hfd : ∃ node, d.world.file fd = some { node, writable := true }) (size index : Nat) :
    (∀ r w, G.env.ftruncate fd size d.world = (r, w) → r.isOk = o.truncates) ∧
      wp (Saf.truncateTo G.env fd size index)
        (fun _ d' => o.truncates = true ∧ o.truncated.Foresees d')
        (fun _ _ => o.truncates = false) d := by
  obtain ⟨node, hopen⟩ := hfd
  obtain ⟨hanswer, hdocs, hfds, hbridge, hio⟩ := World.ftruncate_foreseen hopen size
  rw [← h.io] at hanswer
  have hafter : ∀ w event, G.env.ftruncate fd size d.world = (.ok (), w) →
      o.truncated.Foresees (d.note w event) := by
    intro w event hcall
    have hw : (d.world.ftruncate fd size).2 = w := congrArg Prod.snd hcall
    rw [hw] at hdocs hfds hbridge hio
    obtain ⟨order, horder, hpool⟩ := h.pool
    refine ⟨h.neat.sublist (List.Sublist.refl _) rfl, h.live.of_eq rfl fun hother => ?_,
      ⟨order, horder.congr rfl, hpool⟩, h.bridge.trans hbridge.symm, ?_, fun p => ?_, h.limit⟩
    · simpa [World.file, hfds] using hother
    · rw [truncated, h.io]
      exact hio.symm
    · rw [Disk.note_world, hdocs]
      exact h.stored p
  refine ⟨fun r w hcall => ?_, ?_⟩
  · have hr : (d.world.ftruncate fd size).1 = r := congrArg Prod.fst hcall
    rw [← hr]
    exact hanswer
  · simp only [Saf.truncateTo, callFtruncate, wp_bind, wp_ask]
    rcases hcall : G.env.ftruncate fd size d.world with ⟨errno | _, w⟩
    · have hr : (d.world.ftruncate fd size).1 = .error errno := congrArg Prod.fst hcall
      rw [hr] at hanswer
      exact hanswer.symm
    · have hr : (d.world.ftruncate fd size).1 = .ok () := congrArg Prod.fst hcall
      rw [hr] at hanswer
      exact ⟨hanswer.symm, hafter w _ hcall⟩

end Foresees

end Outlook

end Saf
end Libtorrent4j
