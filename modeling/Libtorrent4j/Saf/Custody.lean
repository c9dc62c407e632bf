import Libtorrent4j.Saf.Acknowledged
import Libtorrent4j.Saf.Interference
import Libtorrent4j.Saf.Threads

/-!
# Torrents come and go

The storages of `Together` are there from the start and have a slot each for good. Here torrents
are added and removed, a slot that has become free is given to the next one, and somebody may
have closed everything in between; and any call may fail.

What clients know is kept for each storage object: the report of a job adds to it, the
`close_storage` of a removal ends it, for then the documents are anybody's. As long as a job finds
in its slot nobody else (`InOrder`, which the queue guarantees) and keeps to paths that no
torrent in use has, **all clients are right at once** (`Custody.change`).
-/

namespace Libtorrent4j
namespace Saf

open Lib Lib.Exec TorrentStorage

/-! ## Slots -/

section Slots

variable {objects : List TorrentStorage} {rest : List (Nat × Nat)} {storage object : Nat}
  {t t' : TorrentStorage}

theorem nodup_of_allApart (h : AllApart t) : t.usedPaths.Nodup := by
  have hget : ∀ i (hi : i < t.paths.length), t.paths[i] = t.pathFor i := by
    intro i hi
    rw [pathFor, List.getD_eq_getElem?_getD, List.getElem?_eq_getElem hi]
    rfl
  have hnum : t.paths.length = t.numFiles := t.paths_length
  refine List.nodup_cons.mpr ⟨fun hmem => ?_, List.pairwise_iff_getElem.mpr ?_⟩
  · obtain ⟨i, hi, heq⟩ := List.mem_iff_getElem.mp hmem
    rw [hget i hi] at heq
    exact h.notPart i (hnum ▸ hi) heq
  · intro i j hi hj hlt heq
    rw [hget i hi, hget j hj] at heq
    exact absurd (h.distinct i (hnum ▸ hi) j (hnum ▸ hj) heq) hlt.ne

namespace Heads

/-- No other slot has the object: there would be its part path twice. -/
theorem other (h : Heads objects rest storage object t) : ∀ slot ∈ rest, slot.2 ≠ object := by
  rintro ⟨slot, object'⟩ hmem rfl
  exact h.disjoint.2 _ t.partPath_mem (mem_pathsIn hmem h.found t.partPath_mem)

theorem pathsIn_set (h : Heads objects rest storage object t) (t' : TorrentStorage) :
    pathsIn (objects.set object t') rest = pathsIn objects rest := by
  unfold pathsIn
  congr 1
  refine List.filterMap_congr fun slot hmem => ?_
  exact List.getElem?_set_ne (h.other slot hmem).symm

/-- The torrent has become another one, away from the others. -/
theorem set (h : Heads objects rest storage object t) (hapart : AllApart t')
    (hout : ∀ path ∈ t'.usedPaths, path ∉ pathsIn objects rest) :
    Heads (objects.set object t') rest storage object t' := by
  have hlt : object < objects.length := (List.getElem?_eq_some_iff.mp h.found).1
  have hfound : (objects.set object t')[object]? = some t' := List.getElem?_set_self hlt
  refine ⟨hfound, ?_, h.slots⟩
  have hnodup := h.nodup
  rw [pathsIn_cons h.found, List.nodup_append] at hnodup
  rw [pathsIn_cons hfound, h.pathsIn_set, List.nodup_append]
  refine ⟨nodup_of_allApart hapart, hnodup.2.1, fun path hpath other hother heq => ?_⟩
  subst heq
  exact hout path hpath hother

end Heads

/-- Slots and objects that were in use, still are when an object comes to its own slot. -/
theorem mem_serve {slots : List (Nat × Nat)} (job : Job)
    (hslot : ∀ object', (storage, object') ∈ slots → object' = object) {slot object' : Nat}
    (hmem : (slot, object') ∈ slots) :
    (slot, object') ∈ QueuedJob.serve slots (.run object storage job) := by
  by_cases heq : slot = storage
  · subst heq
    rw [hslot object' hmem]
    exact List.mem_cons_self
  · exact List.mem_cons_of_mem _ (List.mem_filter.mpr ⟨hmem, by simpa using heq⟩)

theorem InOrder.first {closures more : List QueuedJob} (h : InOrder (closures ++ more)) :
    InOrder closures := by
  intro before object storage job after heq
  refine h before object storage job (after ++ more) ?_
  rw [heq, List.append_assoc]
  rfl

end Slots

/-! ## What is known of everybody -/

def Change.closure (change : Change) : Option QueuedJob := change.entry.map Entry.closure

/-- The server, the slots in use with their objects, and what is known of each object. -/
structure Affairs where
  server : Server World
  slots : List (Nat × Nat) := []
  known : Nat → Memory Byte := fun _ => Memory.blank

namespace Affairs

variable (G : Host)

/-- What the clients conclude: from the report of a job, and from a removal that there is no more
    to know. -/
def conclude (a : Affairs) : QueuedJob → Nat → Memory Byte
  | .run object storage job =>
      match a.server.objects[object]?,
        (a.server.perform G.env true (.run object storage job)).1 with
      | some t, some report =>
          Function.update a.known object (t.learn (a.known object) job report)
      | _, _ => a.known
  | .closeStorage storage => fun object =>
      if (storage, object) ∈ a.slots then Memory.blank else a.known object
  | .release _ | .clearPiece _ => a.known

def change (a : Affairs) (change : Change) : Affairs where
  server := (a.server.change G.env change).2
  slots := change.closure.elim a.slots (QueuedJob.serve a.slots)
  known := change.closure.elim a.known (a.conclude G)

def after (a : Affairs) (changes : List Change) : Affairs := changes.foldl (change G) a

/-- The other torrents in use. -/
def others (a : Affairs) (storage : Nat) : List (Nat × Nat) :=
  a.slots.filter fun slot => slot.1 != storage

/-- A job finds the paths of the torrents in use apart, stays within its torrent and names no path
    of another one. -/
def Minds (a : Affairs) : Change → Prop
  | .performed ⟨_, .run object storage job⟩ =>
      (pathsIn a.server.objects ((storage, object) :: a.others storage)).Nodup ∧
        match a.server.objects[object]? with
        | some t => Proper t job ∧
            job.Within (fun path => path ∉ pathsIn a.server.objects (a.others storage)) t
        | none => True
  | _ => True

def AllMind : Affairs → List Change → Prop
  | _, [] => True
  | a, first :: rest => a.Minds first ∧ AllMind (a.change G first) rest

/-- What the job of the object would report next, with these faults. -/
def Answers (a : Affairs) (object storage : Nat) (bridge : List BridgeFault) (io : List IoFault)
    (job : Job) (report : Report) : Prop :=
  let server := { a.server with disk := a.server.disk.scripted bridge io }
  (server.perform G.env true (.run object storage job)).1 = some report

/-- What is known is right. -/
structure Custody (a : Affairs) : Prop where
  rooted : ∀ t ∈ a.server.objects, t.Rooted
  coherent : Coherent (keysIn a.server.objects a.slots) a.server.disk
  below : ∀ slot object t, (slot, object) ∈ a.slots → a.server.objects[object]? = some t →
    (a.known object).Below (t.byteAt a.server.disk.tree)
  nothing : ∀ object, (∀ slot, (slot, object) ∉ a.slots) ∨ a.server.objects[object]? = none →
    a.known object = Memory.blank

theorem custody_start {w : World} (hs : w.Sound) (filePoolSize : Int) :
    Custody { server := .start w filePoolSize } where
  rooted := fun t ht => by cases ht
  coherent := (coherent_fresh hs _).settingsUpdated filePoolSize
  below := fun slot object t hmem => by cases hmem
  nothing := fun _ _ => rfl

variable {a : Affairs}

/-! ## One job -/

section Run

variable {object storage : Nat} {job : Job} {t : TorrentStorage} {call : Option Nat}

/-- What the object's job finds. -/
theorem Custody.knows (h : Custody a) (hslot : ∀ object', (storage, object') ∈ a.slots →
      object' = object) (hheads : Heads a.server.objects (a.others storage) storage object t) :
    Knows (keysIn a.server.objects ((storage, object) :: a.others storage)) storage
      (a.known object) { torrent := t, disk := a.server.disk } := by
  have hcoherent := h.coherent.mono fun _ _ => keysIn_mono
    (fun _ hmem => mem_serve .stopTorrent hslot hmem) fun _ _ hfound => hfound
  have hrooted := h.rooted t (List.mem_of_getElem? hheads.found)
  refine ⟨⟨hcoherent, hheads.own, hheads.clear, hheads.apart, hrooted⟩, ?_⟩
  -- nothing is known of a torrent that comes into use
  by_cases hused : ∃ slot, (slot, object) ∈ a.slots
  · obtain ⟨slot, hmem⟩ := hused
    exact h.below slot object t hmem hheads.found
  · rw [h.nothing object (Or.inl (not_exists.mp hused))]
    exact Memory.blank_below _

theorem heads_of_minds (hminds : a.Minds (.performed ⟨call, .run object storage job⟩))
    (hobject : a.server.objects[object]? = some t) :
    Heads a.server.objects (a.others storage) storage object t :=
  ⟨hobject, hminds.1, fun slot hmem => by simpa using (List.mem_filter.mp hmem).2⟩

theorem change_run (hobject : a.server.objects[object]? = some t) :
    let r := runJob G.env true storage job { torrent := t, disk := a.server.disk }
    a.change G (.performed ⟨call, .run object storage job⟩) = {
      server := { disk := r.2.disk, objects := a.server.objects.set object r.2.torrent }
      slots := (storage, object) :: a.others storage
      known := Function.update a.known object (t.learn (a.known object) job r.1) } := by
  simp [change, Server.change, Server.perform, Change.closure, Change.entry, conclude, hobject,
    QueuedJob.serve, others]

/-- There is no such object. -/
theorem change_run_none (hobject : a.server.objects[object]? = none) :
    a.change G (.performed ⟨call, .run object storage job⟩) =
      { a with slots := (storage, object) :: a.others storage } := by
  simp [change, Server.change, Server.perform, Change.closure, Change.entry, conclude, hobject,
    QueuedJob.serve, others]

/-- The object's own job: what is then known of it is right, and the others have been left
    alone. -/
theorem Custody.run (h : Custody a)
    (hslot : ∀ object', (storage, object') ∈ a.slots → object' = object)
    (hminds : a.Minds (.performed ⟨call, .run object storage job⟩)) :
    Custody (a.change G (.performed ⟨call, .run object storage job⟩)) := by
  have hkeep : ∀ slot object', (slot, object') ∈ a.slots →
      (slot, object') ∈ (storage, object) :: a.others storage :=
    fun slot object' hmem => mem_serve job hslot hmem
  have hmem_others :
      ∀ slot object', (slot, object') ∈ a.others storage → (slot, object') ∈ a.slots :=
    fun slot object' hmem => (List.mem_filter.mp hmem).1
  cases hobject : a.server.objects[object]? with
  | none =>
    rw [change_run_none G hobject]
    refine ⟨h.rooted, h.coherent.mono fun _ _ => keysIn_mono (hkeep _) fun _ _ hfound => hfound,
      fun slot object' t hmem hfound => ?_, fun object' hnot => h.nothing object' ?_⟩
    · rcases List.mem_cons.mp hmem with heq | hmem
      · cases heq
        rw [hobject] at hfound
        cases hfound
      · exact h.below slot object' t (hmem_others _ _ hmem) hfound
    · exact hnot.imp_left fun hnot slot hmem => hnot slot (hkeep slot object' hmem)
  | some t =>
    have hheads := heads_of_minds hminds hobject
    obtain ⟨-, hjob⟩ := hminds
    rw [hobject] at hjob
    obtain ⟨hproper, hwithin⟩ := hjob
    have hknows := h.knows hslot hheads
    rw [change_run G hobject]
    set r := runJob G.env true storage job { torrent := t, disk := a.server.disk } with hr
    have hstep := runJob_step G.env true storage job { torrent := t, disk := a.server.disk }
    have hout := hwithin.step hheads.disjoint.2 hstep
    have hheads' := hheads.set (hheads.apart.step hknows.rooted hstep hproper.keepsAllApart) hout
    have hclear : (keysIn a.server.objects ((storage, object) :: a.others storage)).Clear storage
        r.2.torrent := fun slot file path hkey hne =>
      hheads'.clear slot file path (hheads.keysIn_set _ hne hkey) hne
    have hleaves := hknows.toTenancy.leaves G hheads.disjoint.2 hproper hwithin hclear
    have hlearnt := (hknows.step G hproper hclear).below
    refine ⟨fun u hu => ?_, hleaves.coherent.mono fun entry _ hkey => ?_,
      fun slot object' u hmem hfound => ?_, fun object' hnot => ?_⟩
    · rcases List.mem_or_eq_of_mem_set hu with hold | rfl
      · exact h.rooted u hold
      · exact hknows.rooted.step hstep
    · -- the slot's keys are the new torrent's, the others are as they were
      by_cases hs : entry.storage = storage
      · rw [hs] at hkey ⊢
        exact (hheads'.own _ _).mpr ((Keys.own_assign _ _ _ _ _).mp hkey)
      · exact hheads.keysIn_set _ hs ((Keys.assign_of_ne hs).mp hkey)
    · rcases List.mem_cons.mp hmem with heq | hmem
      · cases heq
        rw [hheads'.found] at hfound
        cases hfound
        dsimp only
        rw [Function.update_self]
        exact hlearnt
      · -- the documents of another torrent are not the job's
        have hne : object' ≠ object := hheads.other (slot, object') hmem
        replace hfound : a.server.objects[object']? = some u := by
          rwa [List.getElem?_set_ne (Ne.symm hne)] at hfound
        dsimp only
        rw [Function.update_of_ne hne, byteAt_frame fun path hpath =>
          hleaves.frame path (not_not.mpr (mem_pathsIn hmem hfound hpath))]
        exact h.below slot object' u (hmem_others _ _ hmem) hfound
    · have hne : object' ≠ object := by
        rintro rfl
        rcases hnot with hnot | hnot
        · exact hnot storage List.mem_cons_self
        · rw [hheads'.found] at hnot
          cases hnot
      dsimp only at hnot ⊢
      rw [Function.update_of_ne hne]
      refine h.nothing object' (hnot.imp (fun hnot slot hmem => hnot slot (hkeep slot object' hmem))
        fun hnone => ?_)
      rwa [List.getElem?_set_ne (Ne.symm hne)] at hnone

end Run

/-! ## Everything else -/

/-- A change of the cache, the settings or the script that leaves objects and documents alone. -/
theorem Custody.quiet (h : Custody a) {a' : Affairs}
    (hobjects : a'.server.objects = a.server.objects) (hslots : a'.slots = a.slots)
    (hknown : a'.known = a.known) (htree : a'.server.disk.tree = a.server.disk.tree)
    (hcoherent : Coherent (keysIn a.server.objects a.slots) a'.server.disk) : Custody a' where
  rooted := hobjects ▸ h.rooted
  coherent := by
    rw [hobjects, hslots]
    exact hcoherent
  below slot object t hmem hobject := by
    rw [hslots] at hmem
    rw [hobjects] at hobject
    rw [hknown, htree]
    exact h.below slot object t hmem hobject
  nothing object hnot := by
    rw [hslots, hobjects] at hnot
    rw [hknown]
    exact h.nothing object hnot

/-- Closing entries changes no document. -/
theorem closed_settled {K K' : Keys} {d : Disk World} (p : OpenDescriptor → Bool)
    (h : Coherent K d) (hK : ∀ entry ∈ d.descriptors, p entry = false →
      K entry.storage entry.file entry.path → K' entry.storage entry.file entry.path) :
    Settled K' d ((closeWhere G.env p : Exec (Disk World) StorageError Unit) d).2 :=
  wp_state.mp (wp_mono (closeWhere_spec (R := fun _ _ => False) G p h hK) (fun _ _ hs => hs)
    fun _ _ hf => hf.elim)

theorem Custody.release (h : Custody a) {call : Option Nat} (storage : Nat) :
    Custody (a.change G (.performed ⟨call, .release storage⟩)) := by
  have hclosed := closed_settled G (fun entry => entry.storage == storage) h.coherent
    fun _ _ _ hkey => hkey
  exact h.quiet rfl rfl rfl hclosed.tree hclosed.coherent

/-- A removal: the slot is free, and its torrent is no longer anybody's. -/
theorem Custody.closeStorage (h : Custody a) {call : Option Nat} (storage : Nat) :
    Custody (a.change G (.performed ⟨call, .closeStorage storage⟩)) := by
  have hclosed : Settled (keysIn a.server.objects (a.others storage)) a.server.disk
      (a.server.close G.env storage).disk :=
    closed_settled G _ h.coherent fun entry _ hother hkey =>
      keysIn_mono (fun object hmem => List.mem_filter.mpr ⟨hmem, by simpa using hother⟩)
        (fun _ _ hfound => hfound) hkey
  refine ⟨h.rooted, hclosed.coherent, fun slot object t hmem hfound => ?_, fun object hnot => ?_⟩
  · change (if (storage, object) ∈ a.slots then Memory.blank else a.known object).Below
      (t.byteAt (a.change G (.performed ⟨call, .closeStorage storage⟩)).server.disk.tree)
    rw [show (a.change G (.performed ⟨call, .closeStorage storage⟩)).server.disk.tree =
      a.server.disk.tree from hclosed.tree]
    split
    · exact Memory.blank_below _
    · exact h.below slot object t (List.mem_filter.mp hmem).1 hfound
  · change (if (storage, object) ∈ a.slots then Memory.blank else a.known object) = _
    split
    · rfl
    · rename_i hout
      refine h.nothing object (hnot.imp_left fun hnot slot hmem => ?_)
      by_cases hs : slot = storage
      · exact hout (hs ▸ hmem)
      · exact hnot slot (List.mem_filter.mpr ⟨hmem, by simpa using hs⟩)

theorem Custody.closeAll (h : Custody a) : Custody (a.change G .closeAll) := by
  have hclosed := closed_settled G (fun _ => true) h.coherent fun _ _ _ hkey => hkey
  exact h.quiet rfl rfl rfl hclosed.tree hclosed.coherent

/-- Making a storage asks for its root to be validated at most. -/
theorem new_asks (params : StorageParams) (w : World) :
    (TorrentStorage.new G.env params w).2 = w ∨
      (TorrentStorage.new G.env params w).2 = w.afterBridge := by
  have hasked : (G.env.validatePath (normalizedSaveRoot params.path) w).2 = w.afterBridge :=
    (World.validatePath_spec (normalizedSaveRoot params.path) w).1
  simp only [TorrentStorage.new, hasked]
  split
  · exact Or.inl rfl
  split
  · exact Or.inl rfl
  split
  · exact Or.inr rfl
  split
  · exact Or.inr rfl
  · exact Or.inr rfl

theorem Custody.newTorrent (h : Custody a) (params : StorageParams) :
    Custody (a.change G (.newTorrent params)) := by
  have hgrows : a.server.disk.Grows { a.server.disk with
      world := (TorrentStorage.new G.env params a.server.disk.world).2 } ∧
      (TorrentStorage.new G.env params a.server.disk.world).2.content =
        a.server.disk.world.content := by
    rcases new_asks G params a.server.disk.world with hsame | hasked
    · rw [hsame]
      exact ⟨.refl _, rfl⟩
    · rw [hasked]
      exact ⟨⟨a.server.disk.world.grows_afterBridge, rfl, fun hm => hm⟩, rfl⟩
  obtain ⟨hgrows, hcontent⟩ := hgrows
  cases hnew : TorrentStorage.new G.env params a.server.disk.world with
  | mk made w =>
    rw [hnew] at hgrows hcontent
    have hcoherent := h.coherent.grows hgrows
    cases made with
    | error e =>
      have hafter : (a.change G (.newTorrent params)).server =
          { a.server with disk.world := w } := by
        simp [change, Server.change, Server.act, hnew]
      refine h.quiet (by rw [hafter]) rfl rfl (by rw [hafter]; exact hcontent) ?_
      rw [hafter]
      exact hcoherent
    | ok t =>
      have hafter : (a.change G (.newTorrent params)).server =
          { disk := { a.server.disk with world := w }, objects := a.server.objects ++ [t] } := by
        simp [change, Server.change, Server.act, hnew]
      have hold : ∀ (object : Nat) u, a.server.objects[object]? = some u →
          (a.server.objects ++ [t])[object]? = some u := by
        intro object u hobject
        rw [List.getElem?_append_left (List.getElem?_eq_some_iff.mp hobject).1]
        exact hobject
      constructor
      · rw [hafter]
        intro u hu
        rcases List.mem_append.mp hu with hthere | hlast
        · exact h.rooted u hthere
        · obtain rfl := List.mem_singleton.mp hlast
          exact fun i hi => (describes_new hnew).pathFor hi
      · rw [hafter]
        exact hcoherent.mono fun _ _ => keysIn_mono (fun _ hmem => hmem) hold
      · rw [hafter]
        intro slot object u hmem hobject
        change (a.known object).Below (u.byteAt w.content)
        rw [hcontent]
        -- the new torrent's number has not been used
        cases hwas : a.server.objects[object]? with
        | none =>
          rw [h.nothing object (Or.inr hwas)]
          exact Memory.blank_below _
        | some u' =>
          obtain rfl : u' = u := Option.some.inj ((hold object u' hwas).symm.trans hobject)
          exact h.below slot object u' hmem hwas
      · rw [hafter]
        intro object hnot
        refine h.nothing object (hnot.imp_right fun hnone => ?_)
        cases hwas : a.server.objects[object]? with
        | none => rfl
        | some u =>
          rw [hold object u hwas] at hnone
          cases hnone

/-- **One change**, whatever fails in it. -/
theorem Custody.change (h : Custody a) {change : Change}
    (hslot : ∀ object storage job, change.closure = some (.run object storage job) →
      ∀ object', (storage, object') ∈ a.slots → object' = object)
    (hminds : a.Minds change) : Custody (a.change G change) := by
  cases change with
  | performed entry =>
    obtain ⟨call, closure⟩ := entry
    cases closure with
    | run object storage job => exact h.run G (hslot object storage job rfl) hminds
    | release storage => exact h.release G storage
    | clearPiece piece => exact h.quiet rfl rfl rfl rfl h.coherent
    | closeStorage storage => exact h.closeStorage G storage
  | settings filePoolSize =>
    exact h.quiet rfl rfl rfl rfl (h.coherent.settingsUpdated filePoolSize)
  | newTorrent params => exact h.newTorrent G params
  | closeAll => exact h.closeAll G

/-! ## Whole runs -/

theorem after_cons (a : Affairs) (first : Change) (rest : List Change) :
    a.after G (first :: rest) = (a.change G first).after G rest := rfl

theorem after_server (a : Affairs) (changes : List Change) :
    (a.after G changes).server = (a.server.serial G.env changes).2 := by
  induction changes generalizing a with
  | nil => rfl
  | cons first rest ih =>
    rw [after_cons, ih]
    rfl

theorem allMind_append {before after : List Change} (h : AllMind G a (before ++ after)) :
    AllMind G a before ∧ AllMind G (a.after G before) after := by
  induction before generalizing a with
  | nil => exact ⟨trivial, h⟩
  | cons first rest ih =>
    obtain ⟨hfirst, hrest⟩ := h
    obtain ⟨hbefore, hafter⟩ := ih hrest
    exact ⟨⟨hfirst, hbefore⟩, hafter⟩

/-- **Whole runs**, from slots that some closures have left in use. -/
theorem Custody.after (h : Custody a) {closures : List QueuedJob}
    (hslots : a.slots = served closures)
    {changes : List Change} (horder : InOrder (closures ++ changes.filterMap Change.closure))
    (hminds : AllMind G a changes) :
    Custody (a.after G changes) ∧
      (a.after G changes).slots = served (closures ++ changes.filterMap Change.closure) := by
  induction changes generalizing a closures with
  | nil =>
    refine ⟨h, ?_⟩
    rw [List.filterMap_nil, List.append_nil]
    exact hslots
  | cons first rest ih =>
    obtain ⟨hfirst, hrest⟩ := hminds
    cases hclosure : first.closure with
    | none =>
      rw [List.filterMap_cons_none hclosure] at horder ⊢
      refine ih (h.change G (fun _ _ _ heq => ?_) hfirst) ?_ horder hrest
      · rw [hclosure] at heq
        cases heq
      · simp [Affairs.change, hclosure, hslots]
    | some operation =>
      have hsplit : closures ++ (first :: rest).filterMap Change.closure =
          (closures ++ [operation]) ++ rest.filterMap Change.closure := by
        rw [List.filterMap_cons_some hclosure, List.append_assoc]
        rfl
      rw [hsplit] at horder ⊢
      refine ih (h.change G (fun object storage job heq => ?_) hfirst) ?_ horder hrest
      · obtain rfl : operation = .run object storage job :=
          Option.some.inj (hclosure.symm.trans heq)
        rw [hslots]
        refine horder closures object storage job (rest.filterMap Change.closure) ?_
        rw [List.append_assoc]
        rfl
      · simp [Affairs.change, hclosure, hslots, served_append]

/-- **The next job's answer**, whoever's it is. -/
theorem Custody.answers (h : Custody a) {object storage : Nat} {job : Job} {call : Option Nat}
    {t : TorrentStorage} (hslot : ∀ object', (storage, object') ∈ a.slots → object' = object)
    (hminds : a.Minds (.performed ⟨call, .run object storage job⟩))
    (hobject : a.server.objects[object]? = some t) :
    AnswersAs G (a.known object) t (a.Answers G object storage) := by
  have hsame : a.Answers G object storage =
      Sys.Answers G storage { torrent := t, disk := a.server.disk } := by
    funext bridge io job report
    simp [Answers, Sys.Answers, Server.perform, hobject]
  rw [hsame]
  exact (h.knows hslot (heads_of_minds hminds hobject)).answers G

instance (a : Affairs) : (change : Change) → Decidable (a.Minds change)
  | .performed ⟨_, .run object storage job⟩ =>
      @instDecidableAnd _ _ inferInstance <|
        match a.server.objects[object]? with
        | some t =>
            have : DecidablePred fun path => path ∉ pathsIn a.server.objects (a.others storage) :=
              fun _ => decidable_of_iff _ List.forall_mem_ne
            inferInstanceAs (Decidable (Proper t job ∧
              job.Within (fun path => path ∉ pathsIn a.server.objects (a.others storage)) t))
        | none => isTrue trivial
  | .performed ⟨_, .release _⟩ => isTrue trivial
  | .performed ⟨_, .clearPiece _⟩ => isTrue trivial
  | .performed ⟨_, .closeStorage _⟩ => isTrue trivial
  | .settings _ => isTrue trivial
  | .newTorrent _ => isTrue trivial
  | .closeAll => isTrue trivial

instance : (a : Affairs) → (changes : List Change) → Decidable (AllMind G a changes)
  | _, [] => isTrue trivial
  | a, first :: rest =>
      have := instDecidableAllMind (a.change G first) rest
      inferInstanceAs (Decidable (a.Minds first ∧ AllMind G (a.change G first) rest))

end Affairs

end Saf
end Libtorrent4j
