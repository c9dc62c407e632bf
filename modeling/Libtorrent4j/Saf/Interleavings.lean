import Libtorrent4j.Saf.Custody

/-!
# Nothing acknowledged is lost, in any interleaving

The backend as a whole: client threads that look storages up and enqueue, torrents that come and
go and hand on their slots, the worker, new settings, `abort`; with whatever fails on the disk.

A call that has found its storage when the torrent is removed may be enqueued behind the
`close_storage` of its slot; what it then leaves in the cache would be found by the slot's next
torrent. So a client lets its calls enqueue before it removes the torrent (`Spares`); it need not
wait for their answers. With such clients the queue keeps every slot's jobs in order
(`Orderly`), and then **every answer that is posted is one that the answers before it have made
the clients expect**.
-/

namespace Libtorrent4j
namespace Saf

open Lib TorrentStorage

namespace Threads

variable {W : Type} (E : Env W)

/-! ## Considerate clients -/

/-- No call on its way has found a torrent that is removed in this step. -/
def Spares (s s' : Threads W) : Prop :=
  ∀ index, s.findStorage index ≠ none → s'.findStorage index = none →
    ∀ p ∈ s.inFlight, ∀ object job, p.stage ≠ .found (.run object index job)

inductive CarefulSteps (s : Threads W) : Threads W → Prop
  | refl : CarefulSteps s s
  | step {s' s'' : Threads W} (h : CarefulSteps s s') (hstep : Step E s' s'')
      (hspares : s'.Spares s'') : CarefulSteps s s''

variable {E} {s s' : Threads W}

theorem CarefulSteps.steps (h : CarefulSteps E s s') : Steps E s s' := by
  induction h with
  | refl => exact .refl
  | step _ hstep _ ih => exact ih.step hstep

/-- Without a removal there is nobody to be spared. -/
theorem spares_same (h : s'.torrents = s.torrents) : s.Spares s' := by
  intro index hsome hnone
  rw [findStorage, DiskIo.findStorage_eq, tables, h] at hnone
  rw [findStorage, DiskIo.findStorage_eq] at hsome
  exact absurd hnone hsome

theorem spares_idle (h : s.inFlight = []) : s.Spares s' := by
  intro index _ _ p hp
  rw [h] at hp
  cases hp

/-! ## Slots in order -/

/-- The tables with the closures in the order in which they have been accepted. -/
def toDiskIo (s : Threads W) : DiskIo W :=
  { s.tables with accepting := s.accepting, taken := s.accepted.map Entry.closure }

/-- The accepted jobs find their own objects in the slots, and so will those on their way. -/
structure Orderly (s : Threads W) : Prop where
  settles : s.toDiskIo.Settles
  pending : ∀ p ∈ s.inFlight, ∀ object storage job, p.stage = .found (.run object storage job) →
    s.findStorage storage = some object

theorem orderly_start (w : W) (filePoolSize : Int) : Orderly (start w filePoolSize) where
  settles := DiskIo.settles_start w filePoolSize
  pending := fun p hp => by cases hp

theorem submitted_toDiskIo (s : Threads W) :
    s.toDiskIo.submitted = s.accepted.map Entry.closure := List.append_nil _

namespace Orderly

/-- Nothing is accepted, and no slot loses its torrent. -/
theorem of_find (h : Orderly s) (hsound : s'.tables.Sound) (haccepted : s'.accepted = s.accepted)
    (haccepting : s'.accepting = true → s.accepting = true)
    (hfind : ∀ slot object, s.findStorage slot = some object → s'.findStorage slot = some object)
    (hflight : ∀ p ∈ s'.inFlight, p ∈ s.inFlight ∨
      ∀ object storage job, p.stage = .found (.run object storage job) →
        s'.findStorage storage = some object) : Orderly s' where
  settles := h.settles.quiet ⟨hsound.nodup, hsound.free⟩
    (by rw [submitted_toDiskIo, submitted_toDiskIo, haccepted]) haccepting hfind
  pending p hp object storage job hstage := by
    rcases hflight p hp with hold | hnew
    · exact hfind storage object (h.pending p hold object storage job hstage)
    · exact hnew object storage job hstage

/-- A step of the worker, of `abort` or of the server. -/
theorem of_tables (h : Orderly s) (htables : s.tables.SameSlots s'.tables)
    (haccepted : s'.accepted = s.accepted)
    (haccepting : s'.accepting = true → s.accepting = true)
    (hflight : ∀ p ∈ s'.inFlight, p ∈ s.inFlight ∨
      ∀ object storage job, p.stage ≠ .found (.run object storage job)) : Orderly s' := by
  have hsound : s.tables.Sound := ⟨h.settles.sound.nodup, h.settles.sound.free⟩
  refine h.of_find (htables.sound hsound) haccepted haccepting (fun slot object hat => ?_)
    fun p hp => (hflight p hp).imp_right fun hnot object storage job hstage =>
      absurd hstage (hnot object storage job)
  exact (htables.findStorage slot).trans hat

/-- A call leaves its place. -/
theorem of_leaving (h : Orderly s) {before after : List Pending} {p : Pending}
    (hin : s.inFlight = before ++ p :: after) (htables : s.tables.SameSlots s'.tables)
    (haccepted : s'.accepted = s.accepted) (haccepting : s'.accepting = s.accepting)
    (hflight : s'.inFlight = before ++ after) : Orderly s' := by
  refine h.of_tables htables haccepted (fun ha => haccepting ▸ ha) fun q hq => Or.inl ?_
  rw [hflight] at hq
  rw [hin]
  exact List.mem_append.mpr ((List.mem_append.mp hq).imp_right (List.mem_cons_of_mem _))

/-- A call that has found its storage is enqueued. -/
theorem accept (h : Orderly s) {before after : List Pending} {a : Submission} {closure : QueuedJob}
    (hin : s.inFlight = before ++ ⟨a, .found closure⟩ :: after) (ha : s.accepting = true)
    (hclose : ∀ index, closure ≠ .closeStorage index) :
    Orderly { s with
      inFlight := before ++ after
      queue := s.queue ++ [⟨some a.call, closure⟩]
      accepted := s.accepted ++ [⟨some a.call, closure⟩] } := by
  have hmem : (⟨a, .found closure⟩ : Pending) ∈ s.inFlight := by simp [hin]
  have henqueued := h.settles.enqueue hclose fun object storage job heq =>
    h.pending _ hmem object storage job (by rw [heq])
  have haccepting : s.toDiskIo.accepting = true := ha
  refine ⟨henqueued.quiet ⟨h.settles.sound.nodup, h.settles.sound.free⟩ ?_ (fun _ => ?_)
    fun slot object hat => ?_, fun p hp => h.pending p ?_⟩
  · rw [submitted_toDiskIo, DiskIo.enqueue_submitted, if_pos haccepting, submitted_toDiskIo]
    simp
  · rw [DiskIo.enqueue, if_pos haccepting]
    exact ha
  · rw [(s.toDiskIo.sameSlots_enqueue closure).findStorage] at hat
    exact hat
  · rw [hin]
    exact List.mem_append.mpr ((List.mem_append.mp hp).imp_right (List.mem_cons_of_mem _))

end Orderly

/-- A torrent comes to a slot that had none. -/
theorem Orderly.store (h : Orderly s) {before after : List Nat} {object : Nat} :
    Orderly { s with
      unstored := before ++ after
      torrents := (s.tables.store object).2.torrents
      freeStorage := (s.tables.store object).2.freeStorage } := by
  have htables : s.tables.Sound := ⟨h.settles.sound.nodup, h.settles.sound.free⟩
  obtain ⟨hsound, hempty, hfind⟩ := DiskIo.store_spec htables object
  refine h.of_find ⟨hsound.nodup, hsound.free⟩ rfl (fun ha => ha) (fun slot object' hat => ?_)
    fun p hp => Or.inl hp
  have hstored := hfind slot
  rw [if_neg] at hstored
  · exact hstored.trans hat
  · rintro rfl
    exact absurd (hempty.symm.trans hat) nofun

theorem find_removed (hs : s.tables.Sound) {index : Nat} (hsome : s.findStorage index ≠ none)
    (htorrents : s'.torrents = s.torrents.set index none)
    (hfree : s'.freeStorage = s.freeStorage ++ [index]) :
    s'.tables.Sound ∧
      ∀ slot, s'.findStorage slot = if index = slot then none else s.findStorage slot := by
  obtain ⟨object, hobject⟩ := Option.ne_none_iff_exists'.mp hsome
  obtain ⟨hsound, hfind⟩ := DiskIo.removeTorrent_spec hs index
  have hsame : (s.tables.removeTorrent index).SameSlots s'.tables := by
    rw [DiskIo.removeTorrent_of_some hobject]
    exact ⟨htorrents, hfree⟩
  exact ⟨hsame.sound hsound, fun slot => (hsame.findStorage slot).trans (hfind slot)⟩

/-- A removal enqueues its `close_storage` while it holds the lock on the slots. -/
theorem Orderly.remove (h : Orderly s) {index : Nat} (hsome : s.findStorage index ≠ none)
    (htorrents : s'.torrents = s.torrents.set index none)
    (hfree : s'.freeStorage = s.freeStorage ++ [index]) (hflight : s'.inFlight = s.inFlight)
    (haccepting : s'.accepting = s.accepting)
    (haccepted : s'.accepted =
      if s.accepting then s.accepted ++ [⟨none, .closeStorage index⟩] else s.accepted)
    (hspares : s.Spares s') : Orderly s' := by
  obtain ⟨hsound, hfind⟩ :=
    find_removed ⟨h.settles.sound.nodup, h.settles.sound.free⟩ hsome htorrents hfree
  have hspared := hspares index hsome (by rw [hfind, if_pos rfl])
  refine ⟨⟨⟨hsound.nodup, hsound.free⟩, ?_, fun ha slot object hmem => ?_⟩,
    fun p hp object storage job hstage => ?_⟩
  · have horder := h.settles.orderly
    rw [submitted_toDiskIo] at horder ⊢
    rw [haccepted]
    split
    · rw [List.map_append]
      exact horder.snoc fun _ _ _ heq => by cases heq
    · exact horder
  · have ha' : s.accepting = true := haccepting ▸ ha
    rw [submitted_toDiskIo, haccepted, if_pos ha', List.map_append, List.map_singleton,
      served_append] at hmem
    obtain ⟨hmem, hne⟩ := List.mem_filter.mp hmem
    have hat := h.settles.current ha' slot object (by rwa [submitted_toDiskIo])
    refine (hfind slot).trans ?_
    rw [if_neg (Ne.symm (by simpa using hne))]
    exact hat
  · rw [hflight] at hp
    have hne : index ≠ storage := by
      rintro rfl
      exact hspared p hp object job hstage
    rw [hfind, if_neg hne]
    exact h.pending p hp object storage job hstage

/-- No call enqueues a `close_storage`. -/
theorem WellFormed.no_close (h : s.WellFormed) {before after : List Pending} {a : Submission}
    {closure : QueuedJob} (hin : s.inFlight = before ++ ⟨a, .found closure⟩ :: after)
    (index : Nat) :
    closure ≠ .closeStorage index := by
  rintro rfl
  rcases (h.pending ⟨a, .found (.closeStorage index)⟩ (by simp [hin])).2 with
    hdirect | ⟨-, _, -, heq⟩
  · unfold Submission.direct at hdirect
    split at hdirect <;> cases hdirect
  · cases heq

theorem Orderly.step (h : Orderly s) (hwell : s.WellFormed) (hstep : Step E s s')
    (hspares : s.Spares s') : Orderly s' := by
  have hsame : ∀ {s' : Threads W}, s'.torrents = s.torrents → s'.freeStorage = s.freeStorage →
      s.tables.SameSlots s'.tables := fun htorrents hfree => ⟨htorrents, hfree⟩
  cases hstep with
  | call a hfresh hlooks =>
    refine h.of_tables (hsame rfl rfl) rfl (fun ha => ha) fun p hp => ?_
    rcases List.mem_cons.mp hp with rfl | hp
    · exact Or.inr fun _ _ _ => nofun
    · exact Or.inl hp
  | callDirectly a hfresh hdirect =>
    refine h.of_tables (hsame rfl rfl) rfl (fun ha => ha) fun p hp => ?_
    rcases List.mem_cons.mp hp with rfl | hp
    · right
      rintro object storage job heq
      obtain rfl := Stage.found.inj heq
      unfold Submission.direct at hdirect
      split at hdirect <;> cases hdirect
    · exact Or.inl hp
  | unknown hin hnone => exact h.of_leaving hin (hsame rfl rfl) rfl rfl rfl
  | @lookUp before after a object hin hsome =>
    have hsound : s.tables.Sound := ⟨h.settles.sound.nodup, h.settles.sound.free⟩
    refine h.of_find hsound rfl (fun ha => ha) (fun _ _ hat => hat) fun p hp => ?_
    rcases List.mem_append.mp hp with hp | hp
    · exact Or.inl (by simp [hin, hp])
    · rcases List.mem_cons.mp hp with rfl | hp
      · right
        intro object' storage job heq
        cases heq
        exact hsome
      · exact Or.inl (by simp [hin, hp])
  | noBuffer hin hjob hsome => exact h.of_leaving hin (hsame rfl rfl) rfl rfl rfl
  | accept hin ha => exact h.accept hin ha (hwell.no_close hin)
  | @refuse before after a closure hin ha =>
    refine h.of_tables (hsame rfl rfl) rfl (fun ha => ha) fun p hp => ?_
    rcases List.mem_append.mp hp with hp | hp
    · exact Or.inl (by simp [hin, hp])
    · rcases List.mem_cons.mp hp with rfl | hp
      · exact Or.inr fun _ _ _ => nofun
      · exact Or.inl (by simp [hin, hp])
  | runAborted hin => exact h.of_leaving hin (hsame rfl rfl) rfl rfl rfl
  | storeTorrent hin => exact h.store
  | removeTorrent index hsome => exact h.remove hsome rfl rfl rfl rfl rfl hspares
  | abort ha hrun =>
    exact h.of_tables (hsame rfl rfl) rfl (fun ha => by cases ha) fun p hp => Or.inl hp
  | _ => exact h.of_tables (hsame rfl rfl) rfl (fun ha => ha) fun p hp => Or.inl hp

theorem CarefulSteps.orderly {w : W} {filePoolSize : Int}
    (h : CarefulSteps E (start w filePoolSize) s) : Orderly s := by
  induction h with
  | refl => exact orderly_start w filePoolSize
  | step h hstep hspares ih => exact ih.step h.steps.from_start.1 hstep hspares

theorem closures_eq (changes : List Change) : changes.filterMap Change.closure =
    (changes.filterMap Change.entry).map Entry.closure := List.map_filterMap.symm

/-- What has been performed is the first of what has been accepted. -/
theorem Orderly.performed (h : Orderly s) (hwell : s.WellFormed) :
    InOrder (s.changes.filterMap Change.closure) := by
  have horder := h.settles.orderly
  rw [submitted_toDiskIo, hwell.order, List.map_append] at horder
  rw [closures_eq]
  exact horder.first

/-! ## Every element performed is a call's -/

theorem Step.changes (hstep : Step E s s') : s'.changes = s.changes ∨ ∃ change,
    s'.changes = s.changes ++ [change] ∧
      ∀ entry, change = .performed entry → s.worker = .running entry := by
  cases hstep with
  | finish hw =>
    refine Or.inr ⟨_, rfl, fun entry heq => ?_⟩
    rw [← Change.performed.inj heq]
    exact hw
  | workerCloses hw => exact Or.inr ⟨_, rfl, fun _ => nofun⟩
  | abortCloses ha => exact Or.inr ⟨_, rfl, fun _ => nofun⟩
  | settingsUpdated filePoolSize => exact Or.inr ⟨_, rfl, fun _ => nofun⟩
  | refuseTorrent params hnew => exact Or.inr ⟨_, rfl, fun _ => nofun⟩
  | makeTorrent params hnew => exact Or.inr ⟨_, rfl, fun _ => nofun⟩
  | _ => exact Or.inl rfl

/-- When an element is performed, its object is there. -/
theorem Steps.serves {w : W} {filePoolSize : Int} (h : Steps E (start w filePoolSize) s)
    {before after : List Change} {entry : Entry}
    (hchanges : s.changes = before ++ .performed entry :: after) :
    ∃ made, entry.Serves made ((Server.start w filePoolSize).serial E before).2.objects.length := by
  induction h generalizing after with
  | refl => simp [start] at hchanges
  | @step s₁ s₂ h hstep ih =>
    rcases hstep.changes with hsame | ⟨change, hadded, hrunning⟩
    · exact ih (hsame ▸ hchanges)
    · rw [hadded] at hchanges
      rcases List.eq_nil_or_concat after with rfl | ⟨rest, last, rfl⟩
      · obtain ⟨rfl, hlast⟩ := List.append_inj' hchanges rfl
        obtain ⟨hwell, -, hserial⟩ := h.from_start
        have hworker := hrunning entry (List.singleton_inj.mp hlast)
        rw [← hserial.state]
        refine ⟨s₁.made, hwell.entries entry ?_⟩
        rw [hwell.order]
        simp [running, hworker]
      · rw [List.concat_eq_append, ← List.cons_append, ← List.append_assoc] at hchanges
        exact ih (List.append_inj' hchanges rfl).1

/-- The element of a call that looks its storage up. -/
theorem serves_run {call object storage n : Nat} {job : Job} {made : List Submission}
    (h : Entry.Serves ⟨some call, .run object storage job⟩ made n) :
    ⟨call, storage, job⟩ ∈ made ∧ object < n := by
  rcases h with ⟨hcall, -⟩ | ⟨a, ha, hcall, hdirect | ⟨-, object', hlt, heq⟩⟩
  · cases hcall
  · unfold Submission.direct at hdirect
    split at hdirect <;> cases hdirect
  · obtain rfl : call = a.call := Option.some.inj hcall
    cases heq
    exact ⟨ha, hlt⟩

/-! ## In any interleaving -/

section Runs

variable (G : Host) {w : World} {filePoolSize : Int} {s : Threads World}
  (h : CarefulSteps G.env (start w filePoolSize) s)

include h

/-- The jobs before this one have left nobody else's in its slot. -/
theorem slot_of_steps {before after : List Change} {call : Option Nat} {object storage : Nat}
    {job : Job}
    (hchanges : s.changes = before ++ .performed ⟨call, .run object storage job⟩ :: after) :
    ∀ object', (storage, object') ∈ served (before.filterMap Change.closure) →
      object' = object := by
  obtain ⟨hwell, -⟩ := h.steps.from_start
  refine h.orderly.performed hwell _ object storage job (after.filterMap Change.closure) ?_
  rw [hchanges, List.filterMap_append]
  rfl

variable (hs : w.Sound)
  (hminds : Affairs.AllMind G { server := .start w filePoolSize } s.changes)

include hs hminds

/-- What the clients know is right at every moment. -/
theorem custody_of_steps {before after : List Change} (hchanges : s.changes = before ++ after) :
    let a := Affairs.after G { server := .start w filePoolSize } before
    a.Custody ∧ a.slots = served (before.filterMap Change.closure) ∧ Affairs.AllMind G a after := by
  obtain ⟨hwell, -⟩ := h.steps.from_start
  have horder := h.orderly.performed hwell
  rw [hchanges, List.filterMap_append] at horder
  rw [hchanges] at hminds
  obtain ⟨hbefore, hafter⟩ := Affairs.allMind_append G hminds
  have hfirst : InOrder ([] ++ before.filterMap Change.closure) := horder.first
  obtain ⟨hcustody, hslots⟩ :=
    (Affairs.custody_start hs filePoolSize).after G (show [] = served [] from rfl) hfirst hbefore
  exact ⟨hcustody, hslots, hafter⟩

/-- **Nothing acknowledged is lost, in any interleaving** of careful clients' calls, of the worker's
    steps, of torrents that come and go and of `abort`, whatever fails. When a job is performed that
    a call has asked for, its storage answers as all the reports about it before have made the
    clients expect, and what it answers is what the call's handler is posted. -/
theorem acknowledged_in_any_interleaving {before after : List Change} {call object storage : Nat}
    {job : Job}
    (hchanges : s.changes = before ++ .performed ⟨some call, .run object storage job⟩ :: after) :
    let a := Affairs.after G { server := .start w filePoolSize } before
    ∃ t report, a.server.objects[object]? = some t ∧
      AnswersAs G (a.known object) t (a.Answers G object storage) ∧
      a.Answers G object storage a.server.disk.world.bridge a.server.disk.world.io job report ∧
      ⟨call, storage, job⟩ ∈ s.made ∧ ⟨call, .operation, report⟩ ∈ s.posted := by
  intro a
  obtain ⟨hwell, -, hserial⟩ := h.steps.from_start
  obtain ⟨hcustody, hslots, hrest⟩ := custody_of_steps G h hs hminds hchanges
  have hserver : a.server = ((Server.start w filePoolSize).serial G.env before).2 :=
    Affairs.after_server G _ _
  -- the object has been there when its job was taken
  obtain ⟨made, hserves⟩ := h.steps.serves hchanges
  rw [← hserver] at hserves
  obtain ⟨t, hobject⟩ : ∃ t, a.server.objects[object]? = some t :=
    ⟨_, List.getElem?_eq_getElem (serves_run hserves).2⟩
  have hslot := slot_of_steps G h hchanges
  rw [← hslots] at hslot
  set r := runJob G.env true storage job { torrent := t, disk := a.server.disk } with hr
  have hanswers : (a.server.perform G.env true (.run object storage job)).1 = some r.1 := by
    simp [Server.perform, hobject, hr]
  refine ⟨t, r.1, hobject, hcustody.answers G hslot hrest.1 hobject, hanswers, ?_, ?_⟩
  · have hentry : ⟨some call, .run object storage job⟩ ∈ s.accepted := by
      rw [hwell.order, done, hchanges, List.filterMap_append]
      simp [Change.entry]
    exact (serves_run (hwell.entries _ hentry)).1
  · -- the reports are what the operations have posted
    have hposted : (⟨call, .operation, r.1⟩ : Post) ∈ s.posted.filter Post.ofOperation := by
      rw [hserial.posted, hchanges, Server.serial_append, List.mem_append]
      right
      simp only [Server.serial, Server.change, ← hserver, hanswers, Entry.posts]
      exact List.mem_append_left _ (List.mem_singleton_self _)
    exact (List.mem_filter.mp hposted).1

end Runs

namespace HandedOn

open Threads.Removed

def host : Host := ⟨.next, id, id⟩

/-- The first transfer stops early, and the next one is interrupted. -/
def torn : World := { world with io := [.short 1, .interrupted] }

def write : Submission :=
  { call := 1, storage := 0, job := .write { piece := 0, start := 0, length := 3 } [7, 8, 9] }

def again : Submission :=
  { call := 2, storage := 0, job := .read { piece := 0, start := 0, length := 3 } }

/-- The torrent is removed and its slot given to the next one before the worker begins. -/
def changes : List Change :=
  [.newTorrent params, .newTorrent params, .performed ⟨some 1, .run 0 0 write.job⟩,
    .performed ⟨some 0, .run 0 0 read.job⟩, .performed ⟨none, .closeStorage 0⟩,
    .performed ⟨some 2, .run 1 0 again.job⟩]

theorem careful_changes :
    ∃ s, CarefulSteps host.env (start torn 2) s ∧ s.changes = changes := by
  have hnew : ∀ w,
      (TorrentStorage.new host.env params w).1 = .ok (TorrentStorage.build params []) :=
    fun _ => rfl
  have hstart : CarefulSteps host.env (start torn 2) (start torn 2) := .refl
  have hstored := (hstart.step (.makeTorrent params (hnew _)) (spares_idle rfl)).step
    (@Step.storeTorrent _ _ _ [] [] 0 rfl) (spares_idle rfl)
  -- the calls of two threads
  have hcalled := (hstored.step (.call write (by simp [start]) rfl) (spares_same rfl)).step
    (.call read (by decide) rfl) (spares_same rfl)
  have hfound := (hcalled.step (@Step.lookUp _ _ _ [⟨read, .called⟩] [] write 0 rfl rfl)
    (spares_same rfl)).step (@Step.lookUp _ _ _ [] _ read 0 rfl rfl) (spares_same rfl)
  have hqueued := (hfound.step (@Step.accept _ _ _ [_] [] write _ rfl rfl) (spares_same rfl)).step
    (@Step.accept _ _ _ [] [] read _ rfl rfl) (spares_same rfl)
  have hremoved := hqueued.step (.removeTorrent 0 (Option.some_ne_none _)) (spares_idle rfl)
  have hnext := (hremoved.step (.makeTorrent params (hnew _)) (spares_idle rfl)).step
    (@Step.storeTorrent _ _ _ [] [] 1 rfl) (spares_idle rfl)
  have hagain := ((hnext.step (.call again (by decide) rfl) (spares_same rfl)).step
    (@Step.lookUp _ _ _ [] [] again 1 rfl rfl) (spares_same rfl)).step
    (@Step.accept _ _ _ [] [] again _ rfl rfl) (spares_same rfl)
  have hfirst := ((hagain.step (.take rfl rfl) (spares_same rfl)).step (.finish rfl)
    (spares_same rfl)).step (.comeBack rfl) (spares_same rfl)
  have hsecond := ((hfirst.step (.take rfl rfl) (spares_same rfl)).step (.finish rfl)
    (spares_same rfl)).step (.comeBack rfl) (spares_same rfl)
  have hclosed := ((hsecond.step (.take rfl rfl) (spares_same rfl)).step (.finish rfl)
    (spares_same rfl)).step (.comeBack rfl) (spares_same rfl)
  have hlast := (hclosed.step (.take rfl rfl) (spares_same rfl)).step (.finish rfl)
    (spares_same rfl)
  exact ⟨_, hlast, rfl⟩

theorem sound_torn : torn.Sound := ⟨(World.sound_holding _).inj, (World.sound_holding _).bound⟩

theorem minds_changes : Affairs.AllMind host { server := .start torn 2 } changes := by
  decide +kernel

/-- The read is posted what the write before it was told to have stored, though its torrent has
    been removed meanwhile. -/
theorem acknowledged_in_any_interleaving_handed_on :
    ∃ s, CarefulSteps host.env (start torn 2) s ∧ s.changes = changes ∧
      ⟨0, .operation, .read [7, 8, 9] none⟩ ∈ s.posted := by
  obtain ⟨s, hsteps, hchanges⟩ := careful_changes
  have hsplit : s.changes =
      changes.take 3 ++ .performed ⟨some 0, .run 0 0 read.job⟩ :: changes.drop 4 := hchanges
  obtain ⟨t, report, -, -, hanswers, -, hposted⟩ :=
    acknowledged_in_any_interleaving host hsteps sound_torn (hchanges ▸ minds_changes) hsplit
  have hread : report = .read [7, 8, 9] none := by
    refine Option.some.inj (hanswers.symm.trans ?_)
    decide +kernel
  exact ⟨s, hsteps, hchanges, hread ▸ hposted⟩

end HandedOn

section Runs

variable (G : Host) {w : World} {filePoolSize : Int} {s : Threads World}
  (h : CarefulSteps G.env (start w filePoolSize) s) (hs : w.Sound)
  (hminds : Affairs.AllMind G { server := .start w filePoolSize } s.changes)

include h hs hminds

/-- **No descriptor is ever stale**, in any interleaving, whatever fails: a cached one is that of a
    torrent in use, under the path that its file has now, and refers to the document stored there
    now; and a job finds none in its slot but those of its own torrent. -/
theorem no_stale_descriptor {before after : List Change} (hchanges : s.changes = before ++ after) :
    let a := Affairs.after G { server := .start w filePoolSize } before
    ∀ entry ∈ a.server.disk.descriptors, ∃ object t,
      (entry.storage, object) ∈ served (before.filterMap Change.closure) ∧
      a.server.objects[object]? = some t ∧
      ((entry.file = -1 ∧ entry.path = t.partPath) ∨
        ∃ i < t.numFiles, t.files.padFileAt i = false ∧ entry.file = i ∧
          entry.path = t.pathFor i) ∧
      a.server.disk.world.Refers entry.descriptor entry.path entry.writable ∧
      ∀ call object' job rest, after = .performed ⟨call, .run object' entry.storage job⟩ :: rest →
        object' = object := by
  intro a entry hentry
  obtain ⟨hcustody, hslots, -⟩ := custody_of_steps G h hs hminds hchanges
  obtain ⟨object, t, hmem, hobject, hkey⟩ := hcustody.coherent.key entry hentry
  rw [hslots] at hmem
  refine ⟨object, t, hmem, hobject, hkey.2, hcustody.coherent.current entry hentry,
    fun call object' job rest heq => ?_⟩
  subst heq
  exact (slot_of_steps G h hchanges object hmem).symm

end Runs

namespace HandedOn

/-- After the removal nothing of the first torrent is left for the next one. -/
theorem no_stale_descriptor_handed_on :
    let a := Affairs.after host { server := .start torn 2 }
    (∃ entry ∈ (a (changes.take 4)).server.disk.descriptors,
      (a (changes.take 4)).server.disk.world.Refers entry.descriptor (str "a") true) ∧
    (a (changes.take 5)).server.disk.descriptors = [] := by
  intro a
  obtain ⟨s, hsteps, hchanges⟩ := careful_changes
  have hminds : Affairs.AllMind host { server := .start torn 2 } s.changes :=
    hchanges ▸ minds_changes
  have hfour : s.changes = changes.take 4 ++ changes.drop 4 := hchanges
  have hfive : s.changes = changes.take 5 ++ changes.drop 5 := hchanges
  constructor
  · have hkeys : (a (changes.take 4)).server.disk.descriptors.map (fun entry =>
        (entry.path, entry.writable)) = [(str "a", true)] := by decide +kernel
    obtain ⟨entry, hentry, hkey⟩ := List.mem_map.mp (hkeys ▸ List.mem_singleton_self _)
    obtain ⟨hpath, hwritable⟩ := Prod.mk.inj hkey
    obtain ⟨-, -, -, -, -, hrefers, -⟩ :=
      no_stale_descriptor host hsteps sound_torn hminds hfour entry hentry
    rw [hpath, hwritable] at hrefers
    exact ⟨entry, hentry, hrefers⟩
  · refine List.eq_nil_iff_forall_not_mem.mpr fun entry hentry => ?_
    obtain ⟨object, t, hmem, -⟩ :=
      no_stale_descriptor host hsteps sound_torn hminds hfive entry hentry
    cases hmem

end HandedOn

end Threads

end Saf
end Libtorrent4j
