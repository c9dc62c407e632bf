import Libtorrent4j.Saf.ByteArray
import Libtorrent4j.Saf.Copies
import Libtorrent4j.Saf.Operations

/-!
# Two disks with the same documents

What a program does to two disks at once. `Alike F base d d'` says that the disks hold the
same documents at the paths of `F`, while **whatever else differs between them**: what is
open, under which numbers, in which cache, and what lies at other paths. A program that
touches no path outside `F` cannot tell such disks apart, and leaves alone what the first
disk holds there.

Opening is where the two runs part: they get two numbers, and from then on it only matters
that both refer to the document of the same path. `Ahead` is how far they have come since.
-/

namespace Libtorrent4j
namespace Saf

open Lib Lib.Exec

variable {F : Path → Prop} {base : World} {d d' e e' : Disk World} {path : Path} {ε : Type}

/-- The same documents at the paths of `F`, two fault-free bridges and the same transfer faults
    to come; outside `F` the first disk holds what `base` says. -/
structure Alike (F : Path → Prop) (base : World) (d d' : Disk World) : Prop where
  sound : d.world.Sound
  sound' : d'.world.Sound
  willing : d.world.Willing
  willing' : d'.world.Willing
  validate : d.world.validate = base.validate
  validate' : d'.world.validate = base.validate
  io : d.world.io = d'.world.io
  tree : ∀ path, F path → d.tree path = d'.tree path
  frame : ∀ path, ¬ F path → d.tree path = base.content path

namespace Alike

/-- Both disks have grown, and the documents have changed alike. -/
theorem grow (h : Alike F base d d') (hg : d.Grows e) (hg' : d'.Grows e')
    (hio : e.world.io = e'.world.io) (htree : ∀ path, F path → e.tree path = e'.tree path)
    (hframe : ∀ path, ¬ F path → e.tree path = d.tree path) : Alike F base e e' :=
  ⟨hg.world.sound h.sound, hg'.world.sound h.sound', hg.world.willing h.willing,
    hg'.world.willing h.willing', hg.world.validate.trans h.validate,
    hg'.world.validate.trans h.validate', hio,
    htree, fun path hpath => (hframe path hpath).trans (h.frame path hpath)⟩

/-- Neither side has changed a document. -/
theorem quiet (h : Alike F base d d') (hq : d.Quiet e) (hq' : d'.Quiet e')
    (hio : e.world.io = e'.world.io) : Alike F base e e' :=
  h.grow hq.toGrows hq'.toGrows hio (fun path hpath => by rw [hq.tree, hq'.tree, h.tree path hpath])
    fun path _ => by rw [hq.tree]

/-- The same new content at a path of `F`. -/
theorem puts (h : Alike F base d d') (hpath : F path) {doc : List Byte} (hp : d.Puts e path doc)
    (hp' : d'.Puts e' path doc) (hio : e.world.io = e'.world.io) : Alike F base e e' := by
  refine h.grow hp.toGrows hp'.toGrows hio (fun p hF => ?_) fun p hF => ?_
  · rw [hp.tree, hp'.tree, Function.update_apply, Function.update_apply, h.tree p hF]
  · rw [hp.tree, Function.update_of_ne (by rintro rfl; exact hF hpath)]

/-- A call that has only used up a fault, on both sides. -/
theorem asked (h : Alike F base d d') {w w' : World} (hw : w = d.world.afterBridge)
    (hw' : w' = d'.world.afterBridge) (event event' : Event World) :
    Alike F base (d.note w event) (d'.note w' event') := by
  subst hw hw'
  exact ⟨d.world.grows_afterBridge.sound h.sound, d'.world.grows_afterBridge.sound h.sound',
    d.world.grows_afterBridge.willing h.willing, d'.world.grows_afterBridge.willing h.willing',
    h.validate, h.validate', h.io, h.tree, h.frame⟩

/-- A document has been removed on both sides. -/
theorem unlinked (h : Alike F base d d') (hpath : F path) {w w' : World}
    (hw : w = d.world.afterBridge.unlink path) (hw' : w' = d'.world.afterBridge.unlink path)
    (event event' : Event World) : Alike F base (d.note w event) (d'.note w' event') := by
  have htree : (d.note w event).tree = Function.update d.tree path none := by
    rw [Disk.tree, Disk.note_world, hw, World.content_unlink]
    rfl
  have htree' : (d'.note w' event').tree = Function.update d'.tree path none := by
    rw [Disk.tree, Disk.note_world, hw', World.content_unlink]
    rfl
  subst hw hw'
  refine ⟨(d.world.grows_afterBridge.sound h.sound).unlink path,
    (d'.world.grows_afterBridge.sound h.sound').unlink path,
    d.world.grows_afterBridge.willing h.willing, d'.world.grows_afterBridge.willing h.willing',
    h.validate, h.validate', h.io, fun p hp => ?_, fun p hp => ?_⟩
  · rw [htree, htree', Function.update_apply, Function.update_apply, h.tree p hp]
  · rw [htree, Function.update_of_ne (by rintro rfl; exact hp hpath)]
    exact h.frame p hp

/-- A document has been given another name on both sides. -/
theorem relinked (h : Alike F base d d') {old new : Path} (hold : F old) (hnew : F new)
    {node node' : Nat} (hnode : d.world.docs old = some node)
    (hnode' : d'.world.docs old = some node') {w w' : World}
    (hw : w = d.world.afterBridge.relink old new node)
    (hw' : w' = d'.world.afterBridge.relink old new node') (event event' : Event World) :
    Alike F base (d.note w event) (d'.note w' event') := by
  have htree : (d.note w event).tree =
      Function.update (Function.update d.tree old none) new (d.tree old) := by
    rw [Disk.tree, Disk.note_world, hw, World.content_relink (by exact hnode)]
    rfl
  have htree' : (d'.note w' event').tree =
      Function.update (Function.update d'.tree old none) new (d'.tree old) := by
    rw [Disk.tree, Disk.note_world, hw', World.content_relink (by exact hnode')]
    rfl
  subst hw hw'
  refine ⟨(d.world.grows_afterBridge.sound h.sound).relink hnode,
    (d'.world.grows_afterBridge.sound h.sound').relink hnode',
    d.world.grows_afterBridge.willing h.willing, d'.world.grows_afterBridge.willing h.willing',
    h.validate, h.validate', h.io, fun p hp => ?_, fun p hp => ?_⟩
  · rw [htree, htree']
    simp only [Function.update_apply, h.tree p hp, h.tree old hold]
  · rw [htree, Function.update_of_ne (by rintro rfl; exact hp hnew),
      Function.update_of_ne (by rintro rfl; exact hp hold)]
    exact h.frame p hp

/-- What is open does not matter. -/
theorem fds (h : Alike F base d d') {fds fds' : List (Int × OpenFile)}
    (hw : e.world = { d.world with fds := fds }) (hw' : e'.world = { d'.world with fds := fds' }) :
    Alike F base e e' := by
  obtain ⟨hs, hs', hwi, hwi', hv, hv', hio, htree, hframe⟩ := h
  constructor
  · rw [hw]; exact ⟨hs.inj, hs.bound⟩
  · rw [hw']; exact ⟨hs'.inj, hs'.bound⟩
  · rw [hw]; exact hwi
  · rw [hw']; exact hwi'
  · rw [hw]; exact hv
  · rw [hw']; exact hv'
  · rw [hw, hw']; exact hio
  · rw [Disk.tree, Disk.tree, hw, hw']; exact htree
  · rw [Disk.tree, hw]; exact hframe

/-- Whether there is a document at all. -/
theorem docs_iff (h : Alike F base d d') (hpath : F path) :
    d.world.docs path = none ↔ d'.world.docs path = none := by
  rw [← World.content_eq_none, ← World.content_eq_none]
  exact iff_of_eq (congrArg (· = none) (h.tree path hpath))

end Alike

variable (G : Host)

/-! ## Calls that answer

Two willing bridges answer a call by the document it is about, and both sides have that one. -/

/-- One call on each side, and a rule about the two answers. -/
theorem wp2_ask {α : Type} {call call' : World → α × World} {event event' : α → Event World}
    {Q : α → α → Disk World → Disk World → Prop} {R : ε → Disk World → Disk World → Prop}
    (h : Q (call d.world).1 (call' d'.world).1
      (d.note (call d.world).2 (event (call d.world).1))
      (d'.note (call' d'.world).2 (event' (call' d'.world).1))) :
    wp2 (ask call event) (ask call' event') Q R d d' := h

theorem agree_callValidatePath (path : Path) :
    Agree (Alike F base) (callValidatePath G.env path : Exec (Disk World) ε Int)
      (callValidatePath G.env path) := by
  intro d d' h
  obtain ⟨hworld, hanswer, -⟩ := World.validatePath_spec path d.world
  obtain ⟨hworld', hanswer', -⟩ := World.validatePath_spec path d'.world
  refine wp2_ask ⟨(hanswer h.willing).trans ?_, h.asked hworld hworld' _ _⟩
  rw [h.validate, ← h.validate']
  exact (hanswer' h.willing').symm

/-- The same answer; if it was no error, the document is gone on both sides. -/
theorem agree_callRemove (hpath : F path) (recursive : Bool) :
    Agree (Alike F base) (callRemove G.env path recursive : Exec (Disk World) ε Int)
      (callRemove G.env path recursive) := by
  intro d d' h
  refine wp2_ask ?_
  rcases World.remove_spec path recursive d.world with
    ⟨hzero, hsome, hworld⟩ | ⟨-, hworld, -, hfails⟩ <;>
    rcases World.remove_spec path recursive d'.world with
      ⟨hzero', hsome', hworld'⟩ | ⟨-, hworld', -, hfails'⟩
  · exact ⟨hzero.trans hzero'.symm, h.unlinked hpath hworld hworld' _ _⟩
  · rw [(h.docs_iff hpath).mpr (hfails' h.willing').1] at hsome
    cases hsome
  · rw [(h.docs_iff hpath).mp (hfails h.willing).1] at hsome'
    cases hsome'
  · exact ⟨(hfails h.willing).2.trans (hfails' h.willing').2.symm, h.asked hworld hworld' _ _⟩

/-- Both names have to lie in `F`: the new one's document is overwritten on both sides. -/
theorem agree_callRename {old new : Path} (hold : F old) (hnew : F new) :
    Agree (Alike F base) (callRename G.env old new : Exec (Disk World) ε Int)
      (callRename G.env old new) := by
  intro d d' h
  refine wp2_ask ?_
  rcases World.rename_spec old new d.world with
    ⟨node, hzero, hdocs, hworld⟩ | ⟨-, hworld, hfails⟩ <;>
    rcases World.rename_spec old new d'.world with
      ⟨node', hzero', hdocs', hworld'⟩ | ⟨-, hworld', hfails'⟩
  · exact ⟨hzero.trans hzero'.symm, h.relinked hold hnew hdocs hdocs' hworld hworld' _ _⟩
  · rw [(h.docs_iff hold).mpr (hfails' h.willing').1] at hdocs
    cases hdocs
  · rw [(h.docs_iff hold).mp (hfails h.willing).1] at hdocs'
    cases hdocs'
  · exact ⟨(hfails h.willing).2.trans (hfails' h.willing').2.symm, h.asked hworld hworld' _ _⟩

/-! ## Going on -/

/-- How far two runs have come since `d` and `d'`: what was open still is. -/
structure Ahead (F : Path → Prop) (base : World) (d d' e e' : Disk World) : Prop
    extends Alike F base e e' where
  grows : d.Grows e
  grows' : d'.Grows e'

theorem Ahead.refl (h : Alike F base d d') : Ahead F base d d' d d' := ⟨h, .refl d, .refl d'⟩

/-- What was open at first still is at the end. -/
theorem Ahead.trans {f f' : Disk World} (h : Ahead F base d d' e e')
    (h' : Ahead F base e e' f f') : Ahead F base d d' f f' :=
  ⟨h'.toAlike, h.grows.trans h'.grows, h.grows'.trans h'.grows'⟩

/-- A program that lets both disks grow. -/
theorem agree_of_ahead {α : Type} {m n : Exec (Disk World) ε α}
    (h : ∀ d d', Agree (Ahead F base d d') m n) : Agree (Alike F base) m n :=
  fun d d' hs => wp2_mono (h d d' d d' (.refl hs)) (fun _ _ _ _ h => ⟨h.1, h.2.toAlike⟩)
    fun _ _ _ h => h.toAlike

/-- An answer about a document that both sides have alike. -/
theorem agree_callFileSize (hpath : F path) :
    Agree (Ahead F base d d') (callFileSize G.env path : Exec (Disk World) ε Int)
      (callFileSize G.env path) := by
  intro e e' hs
  obtain ⟨hworld, hanswer, -⟩ := World.fileSize_spec path e.world
  obtain ⟨hworld', hanswer', -⟩ := World.fileSize_spec path e'.world
  have htree : World.sizeAnswer (e.world.content path) = World.sizeAnswer (e'.world.content path) :=
    congrArg World.sizeAnswer (hs.tree path hpath)
  refine wp2_ask ⟨(hanswer hs.willing).trans (htree.trans (hanswer' hs.willing').symm),
    hs.toAlike.asked hworld hworld' _ _, hs.grows.trans ?_, hs.grows'.trans ?_⟩
  · exact (Disk.quiet_call hworld (by simp)).1.toGrows
  · exact (Disk.quiet_call hworld' (by simp)).1.toGrows

theorem agree_callCreateDirectory (path : Path) :
    Agree (Ahead F base d d') (callCreateDirectory G.env path : Exec (Disk World) ε Int)
      (callCreateDirectory G.env path) := by
  intro e e' hs
  obtain ⟨hworld, hanswer⟩ := e.world.createDirectory_spec path
  obtain ⟨hworld', hanswer'⟩ := e'.world.createDirectory_spec path
  refine wp2_ask ⟨(hanswer hs.willing).trans (hanswer' hs.willing').symm,
    hs.toAlike.asked hworld hworld' _ _, hs.grows.trans ?_, hs.grows'.trans ?_⟩
  · exact (Disk.quiet_call hworld (by simp)).1.toGrows
  · exact (Disk.quiet_call hworld' (by simp)).1.toGrows

theorem agree_ensureParentDirectories (path : Path) (file : Int) :
    Agree (Ahead F base d d') (ensureParentDirectories G.env path file)
      (ensureParentDirectories G.env path file) := by
  refine agree_bind (agree_throwIf _) fun _ => agree_forEach fun directory _ => ?_
  exact agree_bind (agree_callCreateDirectory G directory) fun _ => agree_throwIf _

/-! ## Closing

What is open may differ, so one side may close more than the other. The documents are not
touched. -/

/-- Nothing of a disk but what is open changes by closing. -/
theorem closeWhere_fds (p : OpenDescriptor → Bool) (d : Disk World) {R : ε → Disk World → Prop} :
    wp (closeWhere G.env p : Exec (Disk World) ε Unit)
      (fun _ e => ∃ fds, e.world = { d.world with fds := fds }) R d := by
  rw [closeWhere, wp_bind, wp_get, wp_bind]
  refine wp_forEach_inv (fun e => ∃ fds, e.world = { d.world with fds := fds })
    ⟨d.world.fds, rfl⟩ ?_ fun e he => he
  rintro entry - e ⟨fds, he⟩
  rw [callClose, wp_ask]
  refine ⟨fds.filter (·.1 != entry.descriptor), ?_⟩
  change e.world.close entry.descriptor = _
  rw [he]
  rfl

/-- The two sides may close different entries. -/
theorem agree_closeWhere (p p' : OpenDescriptor → Bool) :
    Agree (Alike F base) (closeWhere G.env p : Exec (Disk World) ε Unit)
      (closeWhere G.env p') := by
  intro d d' h
  refine wp2_of_returns (closeWhere_fds G p d) (closeWhere_fds G p' d') ?_
  rintro _ _ e e' ⟨fds, he⟩ ⟨fds', he'⟩
  exact ⟨rfl, h.fds he he'⟩

theorem Alike.reset (h : Alike F base d d') (fd fd' : Int) :
    Alike F base ((resetScoped G.env fd : Exec (Disk World) ε Unit) d).2
      ((resetScoped G.env fd' : Exec (Disk World) ε Unit) d').2 := by
  have hone : ∀ (d : Disk World) (fd : Int), ∃ fds,
      ((resetScoped G.env fd : Exec (Disk World) ε Unit) d).2.world =
        { d.world with fds := fds } := by
    intro d fd
    unfold resetScoped
    split
    · exact ⟨_, rfl⟩
    · exact ⟨d.world.fds, rfl⟩
  obtain ⟨fds, hd⟩ := hone d fd
  obtain ⟨fds', hd'⟩ := hone d' fd'
  exact h.fds hd hd'

/-- One side may own a descriptor where the other's open has failed. -/
theorem wp2_resetScoped (h : Alike F base d d') (fd fd' : Int)
    {Q : Unit → Unit → Disk World → Disk World → Prop} {R : ε → Disk World → Disk World → Prop}
    (hQ : ∀ e e', Alike F base e e' → Q () () e e') :
    wp2 (resetScoped G.env fd : Exec (Disk World) ε Unit) (resetScoped G.env fd') Q R d d' := by
  refine wp2_of_returns
    (A := fun _ e => e = ((resetScoped G.env fd : Exec (Disk World) ε Unit) d).2)
    (B := fun _ e => e = ((resetScoped G.env fd' : Exec (Disk World) ε Unit) d').2)
    ((wp_resetScoped G.env).mpr rfl) ((wp_resetScoped G.env).mpr rfl) ?_
  rintro _ _ e e' rfl rfl
  exact hQ _ _ (h.reset G fd fd')

/-- Blocks that own a descriptor each. -/
theorem wp2_withScoped {α : Type} {block block' : Exec (Disk World) ε α} (fd fd' : Int)
    (h : wp2 block block' (fun a b e e' => a = b ∧ Alike F base e e')
      (fun _ => Alike F base) d d') :
    wp2 (withScoped G.env fd block) (withScoped G.env fd' block')
      (fun a b e e' => a = b ∧ Alike F base e e') (fun _ => Alike F base) d d' :=
  wp2_ensuring (wp2_mono h (fun _ _ _ _ h => ⟨h.1, h.2.reset G fd fd'⟩)
    fun _ _ _ h => h.reset G fd fd')

/-! ## Opening

The two sides get two numbers. What they have in common from now on is the path. -/

/-- Two descriptors for the document of one path. -/
structure Open (F : Path → Prop) (d d' : Disk World) (path : Path) (writable : Bool)
    (fd fd' : Int) : Prop where
  inside : F path
  refers : ∃ mode, (writable = true → mode = true) ∧ d.world.Refers fd path mode
  refers' : ∃ mode, (writable = true → mode = true) ∧ d'.world.Refers fd' path mode

variable {fd fd' : Int} {writable : Bool}

/-- A number goes on referring to its document while the disk only grows. -/
theorem Open.grow (h : Open F d d' path writable fd fd') (hg : d.Grows e) (hg' : d'.Grows e') :
    Open F e e' path writable fd fd' := by
  obtain ⟨hF, ⟨mode, hmode, hr⟩, mode', hmode', hr'⟩ := h
  exact ⟨hF, ⟨mode, hmode, hg.world.refers hr⟩, mode', hmode', hg'.world.refers hr'⟩

/-- Both opens find a document, or neither does. -/
theorem wp2_callOpenFile (h : Alike F base d d') (hpath : F path) (mode : Mode)
    {Q : Int → Int → Disk World → Disk World → Prop} {R : ε → Disk World → Disk World → Prop}
    (hopen : ∀ fd fd' e e', 0 ≤ fd → 0 ≤ fd' → Ahead F base d d' e e' →
      Open F e e' path (decide (mode = .readWrite)) fd fd' → Q fd fd' e e')
    (hnone : mode = .read → ∀ e e', Ahead F base d d' e e' → Q (-enoent) (-enoent) e e') :
    wp2 (callOpenFile G.env path mode) (callOpenFile G.env path mode) Q R d d' := by
  let P := fun (d : Disk World) (fd : Int) (e : Disk World) =>
    d.Grows e ∧ e.world.io = d.world.io ∧
      ((0 ≤ fd ∧ e.world.Refers fd path (decide (mode = .readWrite)) ∧
          e.tree = World.touched mode path d.tree ∧ (mode = .read → d.tree path ≠ none)) ∨
        (mode = .read ∧ fd = -enoent ∧ e.tree = d.tree ∧ d.tree path = none))
  have hone : ∀ d : Disk World, d.world.Sound → d.world.Willing →
      wp (callOpenFile G.env path mode : Exec (Disk World) ε Int) (P d) (fun _ _ => False) d := by
    intro d hs hw
    refine callOpenFile_spec G path mode hs ?_ ?_
    · intro fd e hnonneg hgrows hio _ hrefers htree hsome
      exact ⟨hgrows, hio, Or.inl ⟨hnonneg, hrefers, htree, hsome⟩⟩
    · intro result e _ hquiet hio _ hwilling
      obtain ⟨hmode, hmissing, hresult⟩ := hwilling hw
      exact ⟨hquiet.toGrows, hio, Or.inr ⟨hmode, hresult, hquiet.tree, hmissing⟩⟩
  refine wp2_of_returns (hone d h.sound h.willing) (hone d' h.sound' h.willing') ?_
  rintro fd fd' e e' ⟨hg, hio, hcase⟩ ⟨hg', hio', hcase'⟩
  have hio'' : e.world.io = e'.world.io := by rw [hio, hio', h.io]
  rcases hcase with ⟨hn, hr, htree, hsome⟩ | ⟨hmode, rfl, htree, hmissing⟩ <;>
    rcases hcase' with ⟨hn', hr', htree', hsome'⟩ | ⟨hmode', rfl, htree', hmissing'⟩
  · refine hopen fd fd' e e' hn hn' ⟨h.grow hg hg' hio'' (fun p hp => ?_) (fun p hp => ?_), hg, hg'⟩
      ⟨hpath, ⟨_, fun h => h, hr⟩, _, fun h => h, hr'⟩
    · rw [htree, htree']
      exact World.touched_congr hpath h.tree mode p hp
    · rw [htree, World.touched_of_ne (by rintro rfl; exact hp hpath)]
  · exact absurd ((h.tree path hpath).trans hmissing') (hsome hmode')
  · exact absurd ((h.tree path hpath).symm.trans hmissing) (hsome' hmode)
  · refine hnone hmode e e' ⟨h.grow hg hg' hio'' (fun p hp => ?_) fun p _ => ?_, hg, hg'⟩
    · rw [htree, htree', h.tree p hp]
    · rw [htree]

/-! ## Transfers

A transfer looks at its descriptor's document, at the faults to come and at nothing else. -/

namespace Open

/-- The same bytes, and the same error where the faults say so. -/
theorem pread (h : Open F d d' path writable fd fd') (hs : Ahead F base d d' e e')
    (count offset : Nat) :
    (G.env.pread fd count offset e.world).1 = (G.env.pread fd' count offset e'.world).1 ∧
      Ahead F base d d' (e.note (G.env.pread fd count offset e.world).2 (.pread fd))
        (e'.note (G.env.pread fd' count offset e'.world).2 (.pread fd')) := by
  obtain ⟨hF, ⟨mode, -, hr⟩, mode', -, hr'⟩ := h.grow hs.grows hs.grows'
  obtain ⟨doc, hdoc⟩ := hr.content
  have hdoc' : e'.tree path = some doc := (hs.tree path hF).symm.trans hdoc
  rcases hcall : G.env.pread fd count offset e.world with ⟨answer, w⟩
  rcases hcall' : G.env.pread fd' count offset e'.world with ⟨answer', w'⟩
  obtain ⟨rfl, hquiet, hio⟩ := pread_note G hr hdoc count offset hcall
  obtain ⟨rfl, hquiet', hio'⟩ := pread_note G hr' hdoc' count offset hcall'
  refine ⟨by rw [hs.io], hs.toAlike.quiet hquiet hquiet' ?_, hs.grows.trans hquiet.toGrows,
    hs.grows'.trans hquiet'.toGrows⟩
  rw [Disk.note_world, Disk.note_world, hio, hio', hs.io]

/-- As many bytes are taken on both sides, and the documents stay alike even when the transfer
    fails in the middle. -/
theorem pwrite (h : Open F d d' path true fd fd') (hs : Ahead F base d d' e e')
    (data : List Byte) (offset : Nat) :
    (G.env.pwrite fd data offset e.world).1 = (G.env.pwrite fd' data offset e'.world).1 ∧
      Ahead F base d d' (e.note (G.env.pwrite fd data offset e.world).2 (.pwrite fd))
        (e'.note (G.env.pwrite fd' data offset e'.world).2 (.pwrite fd')) := by
  obtain ⟨hF, ⟨mode, hmode, hr⟩, mode', hmode', hr'⟩ := h.grow hs.grows hs.grows'
  obtain rfl := hmode rfl
  obtain rfl := hmode' rfl
  obtain ⟨doc, hdoc⟩ := hr.content
  have hdoc' : e'.tree path = some doc := (hs.tree path hF).symm.trans hdoc
  rcases hcall : G.env.pwrite fd data offset e.world with ⟨answer, w⟩
  rcases hcall' : G.env.pwrite fd' data offset e'.world with ⟨answer', w'⟩
  obtain ⟨rfl, hio, hputs⟩ := pwrite_note G hs.sound hr hdoc data offset hcall
  obtain ⟨rfl, hio', hputs'⟩ := pwrite_note G hs.sound' hr' hdoc' data offset hcall'
  rw [← hs.io] at hputs'
  refine ⟨by rw [hs.io], hs.toAlike.puts hF hputs hputs' ?_, hs.grows.trans hputs.toGrows,
    hs.grows'.trans hputs'.toGrows⟩
  rw [Disk.note_world, Disk.note_world, hio, hio', hs.io]

theorem agree_readWhole (h : Open F d d' path writable fd fd') (fileOffset size : Nat) (file : Int)
    (operation : Operation) :
    Agree (Ahead F base d d') (readWhole G.env fd fileOffset size file operation)
      (readWhole G.env fd' fileOffset size file operation) :=
  Saf.agree_readWhole G.env (fun count offset _ _ hs => h.pread G hs count offset) _ _ _ _

theorem agree_writeWhole (h : Open F d d' path true fd fd') (fileOffset size : Nat) (file : Int)
    (operation : Operation) (data : List Byte) :
    Agree (Ahead F base d d') (writeWhole G.env fd fileOffset size file operation data)
      (writeWhole G.env fd' fileOffset size file operation data) :=
  Saf.agree_writeWhole G.env (fun data offset _ _ hs => h.pwrite G hs data offset) _ _ _ _ _

theorem agree_preadAll (h : Open F d d' path writable fd fd') (size offset : Nat) :
    Agree (Ahead F base d d')
      (prim (preadAll (diskReader G.env fd) size offset) : Exec (Disk World) ε (Int × List Byte))
      (prim (preadAll (diskReader G.env fd') size offset)) := by
  refine Saf.agree_preadAll (fun count offset e e' hs => ?_) size offset
  obtain ⟨hanswer, hs'⟩ := h.pread G hs count offset
  exact ⟨congrArg (Except.mapError Errno.code) hanswer, hs'⟩

theorem agree_pwriteAll (h : Open F d d' path true fd fd') (data : List Byte) (offset : Nat) :
    Agree (Ahead F base d d')
      (prim (pwriteAll (diskWriter G.env fd) data offset) : Exec (Disk World) ε Int)
      (prim (pwriteAll (diskWriter G.env fd') data offset)) := by
  refine Saf.agree_pwriteAll (fun data offset e e' hs => ?_) data offset
  obtain ⟨hanswer, hs'⟩ := h.pwrite G hs data offset
  exact ⟨congrArg (Except.mapError Errno.code) hanswer, hs'⟩

theorem agree_truncateTo (h : Open F d d' path true fd fd') (size index : Nat) :
    Agree (Ahead F base d d') (truncateTo G.env fd size index)
      (truncateTo G.env fd' size index) := by
  intro e e' hs
  obtain ⟨hF, ⟨mode, hmode, hr⟩, mode', hmode', hr'⟩ := h.grow hs.grows hs.grows'
  obtain rfl := hmode rfl
  obtain rfl := hmode' rfl
  obtain ⟨doc, hdoc⟩ := hr.content
  have hdoc' : e'.tree path = some doc := (hs.tree path hF).symm.trans hdoc
  obtain ⟨hanswer, hgrows, hio, hcontent⟩ := World.ftruncate_spec hs.sound hr hdoc size
  obtain ⟨hanswer', hgrows', hio', hcontent'⟩ := World.ftruncate_spec hs.sound' hr' hdoc' size
  rw [← hs.io] at hanswer' hcontent'
  have hg : e.Grows (e.note (e.world.ftruncate fd size).2 (.ftruncate fd)) :=
    Disk.grows_note hgrows (by simp)
  have hg' : e'.Grows (e'.note (e'.world.ftruncate fd' size).2 (.ftruncate fd')) :=
    Disk.grows_note hgrows' (by simp)
  have hio'' : (e.world.ftruncate fd size).2.io = (e'.world.ftruncate fd' size).2.io := by
    rw [hio, hio', hs.io]
  refine wp2_bind (wp2_ask ?_)
  have hcall : (G.env.ftruncate fd size e.world).1 = _ := hanswer
  have hcall' : (G.env.ftruncate fd' size e'.world).1 = _ := hanswer'
  rw [hcall, hcall']
  cases hfault : World.truncateAnswer (e.world.io.headD .whole) with
  | ok _ =>
    rw [hfault] at hcontent hcontent'
    exact ⟨rfl, hs.toAlike.puts hF ⟨hg, hcontent⟩ ⟨hg', hcontent'⟩ hio'', hs.grows.trans hg,
      hs.grows'.trans hg'⟩
  | error errno =>
    rw [hfault] at hcontent hcontent'
    exact ⟨rfl, hs.toAlike.quiet ⟨hg, hcontent⟩ ⟨hg', hcontent'⟩ hio'', hs.grows.trans hg,
      hs.grows'.trans hg'⟩

end Open

/-! ## Copies

The loop of `copy_public_file`, which the migrations share. -/

/-- What two copies read: the document of one path, or zeros. -/
inductive Sources (F : Path → Prop) (d d' : Disk World) :
    Option (Int × Nat) → Option (Int × Nat) → Prop
  | file {path : Path} {writable : Bool} {fd fd' : Int} (offset : Nat)
      (h : Open F d d' path writable fd fd') :
        Sources F d d' (some (fd, offset)) (some (fd', offset))
  | zeros : Sources F d d' none none

variable {source source' : Option (Int × Nat)}

/-- The source of a copy stays what it is while the destination is written. -/
theorem Sources.grow (h : Sources F d d' source source') (hg : d.Grows e) (hg' : d'.Grows e') :
    Sources F e e' source source' := by
  cases h with
  | file offset h => exact .file offset (h.grow hg hg')
  | zeros => exact .zeros

theorem agree_copyBlock (h : Sources F d d' source source') (readError : Int → StorageError)
    (length copied : Nat) :
    Agree (Ahead F base d d') (copyBlock G.env source readError length copied)
      (copyBlock G.env source' readError length copied) := by
  cases h with
  | zeros => exact agree_ret _
  | file offset h =>
    exact agree_bind (h.agree_preadAll G _ _) fun _ =>
      agree_bind (agree_throwIf _) fun _ => agree_ret _

/-- Induction on what is left to copy: after every block the documents are alike. -/
theorem agree_copyLoop (h : Sources F d d' source source') {destination destination' : Int}
    (hdest : Open F d d' path true destination destination') (offset size : Nat)
    (readError writeError : Int → StorageError) (copied : Nat) :
    Agree (Ahead F base d d')
      (copyLoop G.env source destination offset size readError writeError copied)
      (copyLoop G.env source' destination' offset size readError writeError copied) := by
  fun_induction copyLoop G.env source destination offset size readError writeError copied with
  | case1 copied hlt length ih =>
    fun_cases copyLoop G.env source' destination' offset size readError writeError copied with
    | case1 hlt' length' =>
      exact agree_bind (agree_copyBlock G h _ _ _) fun buffer =>
        agree_bind (hdest.agree_pwriteAll G _ _) fun _ => agree_bind (agree_throwIf _) fun _ => ih
    | case2 hge => exact absurd hlt hge
  | case2 copied hge =>
    fun_cases copyLoop G.env source' destination' offset size readError writeError copied with
    | case1 hlt length' => exact absurd hlt hge
    | case2 hge' => exact agree_ret ()

theorem agree_copyPublicFile {old new : Path} (hold : F old) (hnew : F new) (size index : Nat) :
    Agree (Alike F base) (copyPublicFile G.env old new size index)
      (copyPublicFile G.env old new size index) := by
  refine agree_bind (agree_throwIf _) fun _ =>
    agree_bind (agree_of_ahead fun _ _ => agree_ensureParentDirectories G _ _) fun _ => ?_
  intro d d' h
  refine wp2_bind (wp2_callOpenFile G h hold .read ?_ ?_)
  · intro fd fd' e e' hn hn' hs hopen
    refine wp2_withScoped G fd fd' (wp2_bind (wp2_throwIf ?_ ?_ fun _ => ?_))
    · exact iff_of_false (not_lt.mpr hn) (not_lt.mpr hn')
    · exact fun hneg => absurd hneg (not_lt.mpr hn)
    refine wp2_bind (wp2_callOpenFile G hs.toAlike hnew .readWrite ?_ fun hmode => by cases hmode)
    intro fd₂ fd₂' f f' hn₂ hn₂' hs₂ hopen₂
    refine wp2_withScoped G fd₂ fd₂' (wp2_bind (wp2_throwIf ?_ ?_ fun _ => ?_))
    · exact iff_of_false (not_lt.mpr hn₂) (not_lt.mpr hn₂')
    · exact fun hneg => absurd hneg (not_lt.mpr hn₂)
    -- both are open on both sides
    have hsources : Sources F f f' (some (fd, 0)) (some (fd', 0)) :=
      .file 0 (hopen.grow hs₂.grows hs₂.grows')
    refine wp2_mono (agree_bind (S := Ahead F base f f') (hopen₂.agree_truncateTo G size index)
      (fun _ => agree_copyLoop G hsources hopen₂ 0 size _ _ 0) f f' (.refl hs₂.toAlike)) ?_ ?_
    · exact fun _ _ _ _ h => ⟨h.1, h.2.toAlike⟩
    · exact fun _ _ _ h => h.toAlike
  · intro _ e e' hs
    exact wp2_withScoped G _ _ (wp2_bind (wp2_throwIf Iff.rfl (fun _ => ⟨rfl, hs.toAlike⟩)
      fun hn => absurd (by decide) hn))

/-! ## Migrations

From a file to its place in the part file, or back. The source may be absent, and then zeros are
written. -/

section Migrations

variable {t : TorrentStorage} {index : Nat} {toPart : Bool}

theorem agree_migrateBytes {from₁ from₂ to₁ to₂ : Int}
    (hsource : Sources F d d'
      (if 0 ≤ from₁ then some (from₁, if toPart then 0 else t.files.fileOffset index) else none)
      (if 0 ≤ from₂ then some (from₂, if toPart then 0 else t.files.fileOffset index) else none))
    (hdest : Open F d d' path true to₁ to₂) (hn : 0 ≤ to₁) (hn' : 0 ≤ to₂) :
    Agree (Ahead F base d d') (migrateBytes G.env t index toPart from₁ to₁)
      (migrateBytes G.env t index toPart from₂ to₂) := by
  intro e e' hs
  refine wp2_bind (wp2_throwIf ?_ ?_ fun _ => ?_)
  · exact iff_of_false (not_lt.mpr hn) (not_lt.mpr hn')
  · exact fun hneg => absurd hneg (not_lt.mpr hn)
  refine agree_bind (S := Ahead F base d d') (agree_onlyIf fun _ => ?_) (fun _ => ?_) e e' hs
  · exact hdest.agree_truncateTo G _ _
  · exact agree_copyLoop G hsource hdest _ _ _ _ 0

/-- The copy, and the two resets in the order in which it has ended. -/
theorem wp2_migrateTo {from₁ from₂ to₁ to₂ : Int} (h : Alike F base d d')
    (hsource : Sources F d d'
      (if 0 ≤ from₁ then some (from₁, if toPart then 0 else t.files.fileOffset index) else none)
      (if 0 ≤ from₂ then some (from₂, if toPart then 0 else t.files.fileOffset index) else none))
    (hdest : Open F d d' path true to₁ to₂) (hn : 0 ≤ to₁) (hn' : 0 ≤ to₂) :
    wp2 (migrateTo G.env t index toPart from₁ to₁) (migrateTo G.env t index toPart from₂ to₂)
      (fun a b e e' => a = b ∧ Alike F base e e') (fun _ => Alike F base) d d' := by
  refine wp2_bind (wp2_attempt (wp2_mono
    (agree_migrateBytes G hsource hdest hn hn' d d' (.refl h)) ?_ ?_))
  · intro _ _ e e' hs
    exact wp2_bind (wp2_resetScoped G hs.2.toAlike _ _ fun f f' hf =>
      wp2_resetScoped G hf _ _ fun _ _ hend => ⟨rfl, hend⟩)
  · intro error e e' hs
    exact wp2_bind (wp2_resetScoped G hs.toAlike _ _ fun f f' hf =>
      wp2_bind (wp2_resetScoped G hf _ _ fun _ _ hend => wp2_throw hend))

theorem wp2_migrateFrom {from₁ from₂ : Int} (h : Alike F base d d')
    (hpath : F (t.migrationTarget index toPart))
    (hsource : Sources F d d'
      (if 0 ≤ from₁ then some (from₁, if toPart then 0 else t.files.fileOffset index) else none)
      (if 0 ≤ from₂ then some (from₂, if toPart then 0 else t.files.fileOffset index) else none)) :
    wp2 (migrateFrom G.env t index toPart from₁) (migrateFrom G.env t index toPart from₂)
      (fun a b e e' => a = b ∧ Alike F base e e') (fun _ => Alike F base) d d' := by
  refine wp2_bind (wp2_attempt (wp2_bind (wp2_mono
    (agree_ensureParentDirectories G _ _ d d' (.refl h)) ?_ ?_)))
  · rintro _ _ e e' ⟨-, hs⟩
    refine wp2_callOpenFile G hs.toAlike hpath .readWrite ?_ fun hmode => by cases hmode
    intro to₁ to₂ f f' hn hn' hs₂ hopen
    have hall := hs.trans hs₂
    exact wp2_migrateTo G hs₂.toAlike (hsource.grow hall.grows hall.grows') hopen hn hn'
  · intro error e e' hs
    exact wp2_bind (wp2_resetScoped G hs.toAlike _ _ fun _ _ hend => wp2_throw hend)

theorem agree_migrateCopy (hfile : F (t.pathFor index)) (hpart : F t.partPath) :
    Agree (Alike F base) (migrateCopy G.env t index toPart) (migrateCopy G.env t index toPart) := by
  have hsource : F (t.migrationSource index toPart) := by
    unfold TorrentStorage.migrationSource
    split
    · exact hfile
    · exact hpart
  have htarget : F (t.migrationTarget index toPart) := by
    unfold TorrentStorage.migrationTarget
    split
    · exact hpart
    · exact hfile
  intro d d' h
  refine wp2_bind (wp2_callOpenFile G h hsource .read ?_ ?_)
  · intro fd fd' e e' hn hn' hs hopen
    refine wp2_bind (wp2_throwIf ?_ ?_ fun _ => wp2_migrateFrom G hs.toAlike htarget ?_)
    · exact iff_of_false (fun hneg => absurd hneg.1 (not_lt.mpr hn))
        fun hneg => absurd hneg.1 (not_lt.mpr hn')
    · exact fun hneg => absurd hneg.1 (not_lt.mpr hn)
    · rw [if_pos hn, if_pos hn']
      exact .file _ hopen
  · intro _ e e' hs
    exact wp2_bind (wp2_throwIf Iff.rfl (fun hc => absurd rfl hc.2) fun _ =>
      wp2_migrateFrom G hs.toAlike htarget .zeros)

/-- The storage's number matters for the cache only, and the cache does not matter here. -/
theorem agree_migratePriority (hfile : F (t.pathFor index)) (hpart : F t.partPath)
    (storage storage' : Nat) :
    Agree (Alike F base) (migratePriority G.env t storage index toPart)
      (migratePriority G.env t storage' index toPart) := by
  refine agree_ite (fun _ => agree_ret ()) fun _ => ?_
  refine agree_bind (agree_closeWhere G _ _) fun _ => agree_bind (agree_closeWhere G _ _) fun _ =>
    agree_bind (agree_migrateCopy G hfile hpart) fun _ => agree_onlyIf fun _ => ?_
  exact agree_bind (agree_callRemove G hfile false) fun _ => agree_throwIf _

end Migrations

end Saf
end Libtorrent4j
