import Libtorrent4j.Saf.Slots
import Libtorrent4j.Saf.Twins

/-!
# The descriptor cache is transparent

One client thread makes its calls in program order, the worker takes its turns in between, and
slots are emptied and given to new torrents. As long as no two files in use have the same path,
**nobody can tell the cache from opening every path afresh**: every call gets the same answer,
every closure makes the same report, and the provider holds the same documents.

The worker is behind the client, so a torrent is in use from the first job the worker runs for
it to the `close_storage` of its slot. `Settles` is what the queue guarantees about that: a slot's
jobs are one torrent's until the slot is closed.
-/

namespace Libtorrent4j
namespace Saf

open Lib Lib.Exec TorrentStorage

variable {W : Type}

/-- A call of the client thread, or the worker's turn. A function that takes a storage finds its
    object and enqueues at once. -/
inductive ClientCall where
  | newTorrent (params : StorageParams)
  | removeTorrent (index : Nat)
  | async (storage : Nat) (job : Job)
  | settingsUpdated (filePoolSize : Int)
  | abort
  | work

def ClientCall.isWork : ClientCall → Bool
  | .work => true
  | _ => false

/-- What a call returns, and what is reported to a handler during it. -/
structure Answer where
  outcome : Outcome := .nothing
  report : Option Report := none
deriving DecidableEq

namespace DiskIo

variable (E : Env W) (reuse : Bool)

/-- The closure a call queues; none when it needs an object and the storage is unknown. -/
def closureFor (io : DiskIo W) (storage : Nat) : Job → Option QueuedJob
  | .releaseFiles | .stopTorrent => some (.release storage)
  | .clearPiece piece => some (.clearPiece piece)
  | job => (io.findStorage storage).map fun object => .run object storage job

/-- The report of the closure that is next. -/
def nextReport (io : DiskIo W) : Option Report :=
  io.jobs.head?.bind fun operation => (io.server.perform E reuse operation).1

/-- One call of a client, or one turn of the worker. -/
def clientCall (io : DiskIo W) : ClientCall → Answer × DiskIo W
  | .newTorrent params =>
      let r := io.call E reuse (.newTorrent params)
      ({ outcome := r.1 }, r.2)
  | .removeTorrent index => ({ outcome := .removed index }, io.removeTorrent index)
  | .async storage job =>
      match io.closureFor storage job with
      | none => ({ report := some job.aborted }, io)
      | some closure =>
          ({ report := if io.accepting then none else some (io.server.refused job closure) },
            io.enqueue closure)
  | .settingsUpdated filePoolSize =>
      ({}, { io with server.disk := io.server.disk.settingsUpdated filePoolSize })
  | .abort => ({}, { io with accepting := false })
  | .work => ({ report := io.nextReport E reuse }, io.work E reuse)

/-- The calls of a session, and what has been answered. -/
def session (io : DiskIo W) : List ClientCall → List Answer × DiskIo W
  | [] => ([], io)
  | call :: rest =>
      let first := io.clientCall E reuse call
      let last := session first.2 rest
      (first.1 :: last.1, last.2)

end DiskIo

/-! ## Torrents in use -/

/-- Slots in use, each with its object, after a closure: a job brings its object to its slot, a
    `close_storage` empties the slot. -/
def QueuedJob.serve (slots : List (Nat × Nat)) : QueuedJob → List (Nat × Nat)
  | .run object storage _ => (storage, object) :: slots.filter fun slot => slot.1 != storage
  | .closeStorage storage => slots.filter fun slot => slot.1 != storage
  | .release _ | .clearPiece _ => slots

/-- The slots and their storages once all closures have been performed. -/
def served (closures : List QueuedJob) : List (Nat × Nat) := closures.foldl QueuedJob.serve []

/-- The files' paths and the part paths of the torrents in use. -/
def pathsIn (objects : List TorrentStorage) (slots : List (Nat × Nat)) : List Path :=
  (slots.filterMap fun slot => objects[slot.2]?).flatMap usedPaths

/-- Before and after the next turn of the worker all these paths are different. -/
def DiskIo.KeepsApart (E : Env W) (reuse : Bool) (io : DiskIo W) : Prop :=
  match io.jobs with
  | .run object storage job :: _ =>
      let slots := served (io.taken ++ [.run object storage job])
      (pathsIn io.server.objects slots).Nodup ∧
        (pathsIn (io.work E reuse).server.objects slots).Nodup
  | _ => True

/-- The keys of the slots in use. -/
def keysIn (objects : List TorrentStorage) (slots : List (Nat × Nat)) : Keys :=
  fun slot file path => ∃ object t, (slot, object) ∈ slots ∧ objects[object]? = some t ∧
    t.keys slot slot file path

/-! ## The keys in use -/

section Keys

variable {objects objects' : List TorrentStorage} {slots slots' rest : List (Nat × Nat)}
  {storage object slot : Nat} {t : TorrentStorage} {file : Int} {path : Path}

/-- More slots and more storages allow more keys. -/
theorem keysIn_mono (hslots : ∀ object, (slot, object) ∈ slots → (slot, object) ∈ slots')
    (hobjects : ∀ (object : Nat) t, objects[object]? = some t → objects'[object]? = some t)
    (h : keysIn objects slots slot file path) : keysIn objects' slots' slot file path := by
  obtain ⟨object, t, hmem, hobject, hkey⟩ := h
  exact ⟨object, t, hslots object hmem, hobjects object t hobject, hkey⟩

/-- A list of paths without a repetition, the part file's among them. -/
theorem allApart_of_nodup (h : t.usedPaths.Nodup) : AllApart t := by
  obtain ⟨hpart, hpaths⟩ := List.nodup_cons.mp h
  have hget : ∀ i < t.numFiles, ∃ hlt : i < t.paths.length, t.pathFor i = t.paths[i] := by
    intro i hi
    have hlt : i < t.paths.length := by rw [t.paths_length]; exact hi
    refine ⟨hlt, ?_⟩
    rw [pathFor, List.getD_eq_getElem?_getD, List.getElem?_eq_getElem hlt]
    rfl
  refine ⟨fun i hi j hj heq => ?_, fun i hi heq => ?_⟩
  · obtain ⟨hi', hat⟩ := hget i hi
    obtain ⟨hj', hat'⟩ := hget j hj
    rw [hat, hat'] at heq
    exact (hpaths.getElem_inj_iff).mp heq
  · obtain ⟨hi', hat⟩ := hget i hi
    rw [← heq, hat] at hpart
    exact hpart (List.getElem_mem hi')

theorem pathsIn_cons (hobject : objects[object]? = some t) :
    pathsIn objects ((storage, object) :: rest) = t.usedPaths ++ pathsIn objects rest := by
  simp [pathsIn, hobject]

theorem mem_pathsIn (hmem : (slot, object) ∈ slots) (hobject : objects[object]? = some t)
    (hpath : path ∈ t.usedPaths) : path ∈ pathsIn objects slots :=
  List.mem_flatMap.mpr ⟨t, List.mem_filterMap.mpr ⟨(slot, object), hmem, hobject⟩, hpath⟩

/-- The slots at the head of which a torrent's slot is. -/
structure Heads (objects : List TorrentStorage) (rest : List (Nat × Nat)) (storage object : Nat)
    (t : TorrentStorage) : Prop where
  found : objects[object]? = some t
  nodup : (pathsIn objects ((storage, object) :: rest)).Nodup
  slots : ∀ slot ∈ rest, slot.1 ≠ storage

namespace Heads

/-- A torrent's paths differ from one another and from those of every other slot. -/
theorem disjoint (h : Heads objects rest storage object t) :
    t.usedPaths.Nodup ∧ ∀ path ∈ t.usedPaths, path ∉ pathsIn objects rest := by
  have hnodup := h.nodup
  rw [pathsIn_cons h.found, List.nodup_append] at hnodup
  exact ⟨hnodup.1, fun path hpath hmem => hnodup.2.2 path hpath path hmem rfl⟩

theorem apart (h : Heads objects rest storage object t) : AllApart t :=
  allApart_of_nodup h.disjoint.1

theorem own (h : Heads objects rest storage object t) :
    (keysIn objects ((storage, object) :: rest)).Own storage t := by
  intro file path
  constructor
  · rintro ⟨object', t', hmem, hobject, hkey⟩
    rcases List.mem_cons.mp hmem with heq | hmem
    · cases heq
      rw [h.found] at hobject
      cases hobject
      exact hkey
    · exact absurd rfl (h.slots _ hmem)
  · exact fun hkey => ⟨object, t, List.mem_cons_self, h.found, hkey⟩

theorem clear (h : Heads objects rest storage object t) :
    (keysIn objects ((storage, object) :: rest)).Clear storage t := by
  rintro slot file path ⟨object', t', hmem, hobject, hkey⟩ hne hpath
  rcases List.mem_cons.mp hmem with heq | hmem
  · cases heq
    exact hne rfl
  · exact h.disjoint.2 path hpath (mem_pathsIn hmem hobject (usedPaths_of_keys hkey))

/-- The other slots do not see what the torrent becomes. -/
theorem keysIn_set (h : Heads objects rest storage object t) (t' : TorrentStorage)
    (hne : slot ≠ storage) (hkey : keysIn objects ((storage, object) :: rest) slot file path) :
    keysIn (objects.set object t') ((storage, object) :: rest) slot file path := by
  obtain ⟨object', u, hmem, hobject, hkey⟩ := hkey
  refine ⟨object', u, hmem, ?_, hkey⟩
  rcases List.mem_cons.mp hmem with heq | hmem
  · cases heq
    exact absurd rfl hne
  · rw [List.getElem?_set_ne]
    · exact hobject
    · rintro rfl
      -- one object in two slots would have its part path twice
      exact h.disjoint.2 _ t.partPath_mem (mem_pathsIn hmem h.found t.partPath_mem)

end Heads

end Keys

/-! ## The worker's turn -/

theorem Twin.mono {K K' K₁ K₁' : Keys} {F : Path → Prop} {base : World} {d d' : Disk World}
    (h : Twin K K' F base d d') (hK : ∀ slot file path, K slot file path → K₁ slot file path)
    (hK' : ∀ slot file path, K' slot file path → K₁' slot file path) : Twin K₁ K₁' F base d d' :=
  ⟨h.toAlike, h.coherent.mono fun _ _ => hK _ _ _, h.coherent'.mono fun _ _ => hK' _ _ _⟩

variable (G : Host) (reuse reuse' : Bool) {base : World}

theorem Job.within_all (job : Job) (t : TorrentStorage) : job.Within (fun _ => True) t := by
  cases job with
  | renameFile index name => exact fun _ _ _ _ => trivial
  | moveStorage path flags => exact fun _ _ _ => trivial
  | _ => trivial

/-- Two servers with the same objects and alike disks. -/
structure ServersAlike (base : World) (slots : List (Nat × Nat)) (server server' : Server World) :
    Prop where
  objects : server.objects = server'.objects
  rooted : ∀ t ∈ server.objects, t.Rooted
  twin : Twin (keysIn server.objects slots) (keysIn server.objects slots) (fun _ => True)
    base server.disk server'.disk

/-- One job on both servers: `Twin` for its storage, and the others not touched. -/
theorem ServersAlike.run {slots : List (Nat × Nat)} {server server' : Server World}
    (h : ServersAlike base slots server server') {object storage : Nat} {job : Job}
    (hslot : ∀ object', (storage, object') ∈ slots → object' = object)
    (hbefore : (pathsIn server.objects
      (QueuedJob.serve slots (.run object storage job))).Nodup)
    (hafter : (pathsIn (server.perform G.env reuse (.run object storage job)).2.objects
      (QueuedJob.serve slots (.run object storage job))).Nodup) :
    (server.perform G.env reuse (.run object storage job)).1 =
      (server'.perform G.env reuse' (.run object storage job)).1 ∧
    ServersAlike base (QueuedJob.serve slots (.run object storage job))
      (server.perform G.env reuse (.run object storage job)).2
      (server'.perform G.env reuse' (.run object storage job)).2 := by
  -- the slot may have been in use by this object before; it is now
  have hkeep : ∀ slot object', (slot, object') ∈ slots →
      (slot, object') ∈ QueuedJob.serve slots (.run object storage job) := by
    intro slot object' hmem
    by_cases heq : slot = storage
    · subst heq
      rw [hslot object' hmem]
      exact List.mem_cons_self
    · exact List.mem_cons_of_mem _ (List.mem_filter.mpr ⟨hmem, by simpa using heq⟩)
  have hbeside := h.twin.mono (fun _ _ _ => keysIn_mono (hkeep _) fun _ _ h => h)
    fun _ _ _ => keysIn_mono (hkeep _) fun _ _ h => h
  simp only [Server.perform, ← h.objects] at hafter ⊢
  cases hobject : server.objects[object]? with
  | none => exact ⟨rfl, h.objects, h.rooted, hbeside⟩
  | some t =>
    simp only [hobject] at hafter ⊢
    set r := runJob G.env reuse storage job { torrent := t, disk := server.disk } with hr
    have hrest : ∀ slot ∈ slots.filter (fun slot => slot.1 != storage), slot.1 ≠ storage :=
      fun slot hmem => by simpa using (List.mem_filter.mp hmem).2
    have hlt : object < server.objects.length := (List.getElem?_eq_some_iff.mp hobject).1
    have heads : Heads server.objects _ storage object t := ⟨hobject, hbefore, hrest⟩
    have heads' : Heads (server.objects.set object r.2.torrent) _ storage object r.2.torrent :=
      ⟨List.getElem?_set_self hlt, hafter, hrest⟩
    have hclear : (keysIn server.objects (QueuedJob.serve slots (.run object storage job))).Clear
        storage r.2.torrent := fun slot file path hkey hne =>
      heads'.clear slot file path (heads.keysIn_set _ hne hkey) hne
    have hrooted := h.rooted t (List.mem_of_getElem? hobject)
    obtain ⟨hreport, htorrent, htwin⟩ := runJob_twin G reuse reuse' hbeside
      ⟨heads.apart.apart, hrooted, heads.own, heads.own, heads.clear, heads.clear⟩
      (fun _ _ => trivial) (job.within_all t)
      (heads.apart.spares heads'.apart
        (runJob_step G.env reuse storage job { torrent := t, disk := server.disk })) hclear hclear
    -- the slot's keys are the new torrent's, the others are as they were
    have hkeys : ∀ slot file path,
        (keysIn server.objects (QueuedJob.serve slots (.run object storage job))).assign storage
          r.2.torrent slot file path →
        keysIn (server.objects.set object r.2.torrent)
          (QueuedJob.serve slots (.run object storage job)) slot file path := by
      intro slot file path hkey
      by_cases hslot : slot = storage
      · subst hslot
        rw [Keys.assign, if_pos rfl] at hkey
        exact (heads'.own file path).mpr hkey
      · exact heads.keysIn_set _ hslot ((Keys.assign_of_ne hslot).mp hkey)
    refine ⟨congrArg some hreport, by rw [htorrent], fun u hu => ?_, htwin.mono hkeys hkeys⟩
    rcases List.mem_or_eq_of_mem_set hu with hold | rfl
    · exact h.rooted u hold
    · exact hrooted.step (runJob_step G.env reuse storage job { torrent := t, disk := server.disk })

/-- A `close_storage`, with the slot emptied or not. -/
theorem ServersAlike.close {slots slots' : List (Nat × Nat)} {server server' : Server World}
    (h : ServersAlike base slots server server') (storage : Nat)
    (hslots : ∀ slot object, slot ≠ storage → (slot, object) ∈ slots → (slot, object) ∈ slots') :
    ServersAlike base slots' (server.close G.env storage) (server'.close G.env storage) := by
  have hkeys : ∀ slot file path, keysIn server.objects slots slot file path ∧ slot ≠ storage →
      keysIn server.objects slots' slot file path :=
    fun slot file path hkey => keysIn_mono (hslots slot · hkey.2) (fun _ _ h => h) hkey.1
  exact ⟨h.objects, h.rooted, (agree_iff.mp (agree_closeWhere G _ _) _ _ h.twin.toAlike).2,
    (coherent_closeStorage G h.twin.coherent storage).mono fun _ _ => hkeys _ _ _,
    (coherent_closeStorage G h.twin.coherent' storage).mono fun _ _ => hkeys _ _ _⟩

/-! ## What the queue guarantees -/

/-- A job finds its slot empty or in use by its own object. -/
def InOrder (closures : List QueuedJob) : Prop :=
  ∀ before object storage job after, closures = before ++ .run object storage job :: after →
    ∀ object', (storage, object') ∈ served before → object' = object

theorem served_append (closures : List QueuedJob) (operation : QueuedJob) :
    served (closures ++ [operation]) = QueuedJob.serve (served closures) operation := by
  simp [served]

/-- A new closure at the end of the queue finds the slots as the others will have left them. -/
theorem InOrder.snoc {closures : List QueuedJob} (h : InOrder closures) {operation : QueuedJob}
    (hoperation : ∀ object storage job, operation = .run object storage job →
      ∀ object', (storage, object') ∈ served closures → object' = object) :
    InOrder (closures ++ [operation]) := by
  intro before object storage job after heq
  rcases List.eq_nil_or_concat after with rfl | ⟨after, last, rfl⟩
  · obtain ⟨rfl, hlast⟩ := List.append_inj' heq rfl
    cases hlast
    exact hoperation object storage job rfl
  · rw [List.concat_eq_append, ← List.cons_append, ← List.append_assoc] at heq
    exact h before object storage job after (List.append_inj' heq rfl).1

namespace DiskIo

variable {io io' : DiskIo W}

/-- The tables and the queue: the slots in use once all closures have been run are the
    clients'. -/
structure Settles (io : DiskIo W) : Prop where
  sound : io.Sound
  orderly : InOrder io.submitted
  current : io.accepting = true → ∀ slot object, (slot, object) ∈ served io.submitted →
    io.findStorage slot = some object

theorem settles_start (w : W) (filePoolSize : Int) : (start w filePoolSize).Settles := by
  refine ⟨sound_start w filePoolSize, ?_, ?_⟩
  · intro before object storage job after heq
    simp [submitted, start] at heq
  · intro _ slot object hmem
    simp [submitted, start, served] at hmem

/-- Nothing has been enqueued, and the slots in use are where they were. -/
theorem Settles.quiet (h : io.Settles) (hsound : io'.Sound)
    (hsubmitted : io'.submitted = io.submitted)
    (haccepting : io'.accepting = true → io.accepting = true)
    (hfind : ∀ slot object, io.findStorage slot = some object →
      io'.findStorage slot = some object) :
    io'.Settles := by
  refine ⟨hsound, hsubmitted ▸ h.orderly, fun ha slot object hmem => ?_⟩
  rw [hsubmitted] at hmem
  exact hfind slot object (h.current (haccepting ha) slot object hmem)

/-- A closure that needs an object is enqueued with the object its slot has. -/
theorem Settles.enqueue (h : io.Settles) {operation : QueuedJob}
    (hclose : ∀ storage, operation ≠ .closeStorage storage)
    (hrun : ∀ object storage job, operation = .run object storage job →
      io.findStorage storage = some object) : (io.enqueue operation).Settles := by
  have hsame : io.SameSlots (io.enqueue operation) := sameSlots_enqueue operation
  -- a backend that is shutting down takes no more closures
  by_cases ha : io.accepting = true
  · have hsubmitted : (io.enqueue operation).submitted = io.submitted ++ [operation] := by
      rw [enqueue_submitted, if_pos ha]
    refine ⟨hsame.sound h.sound, ?_, fun _ slot object hmem => ?_⟩
    · rw [hsubmitted]
      refine h.orderly.snoc fun object storage job heq object' hmem => ?_
      have hfind := h.current ha storage object' hmem
      rw [hrun object storage job heq] at hfind
      exact (Option.some.inj hfind).symm
    · rw [hsubmitted, served_append] at hmem
      rw [hsame.findStorage]
      cases operation with
      | run object' storage job =>
        rcases List.mem_cons.mp hmem with heq | hmem
        · cases heq
          exact hrun object slot job rfl
        · exact h.current ha slot object (List.mem_filter.mp hmem).1
      | closeStorage storage => exact absurd rfl (hclose storage)
      | release storage => exact h.current ha slot object hmem
      | clearPiece piece => exact h.current ha slot object hmem
  · have hnone : io.enqueue operation = io := by
      unfold DiskIo.enqueue
      rw [if_neg ha]
    rw [hnone]
    exact h

theorem removeTorrent_accepting (index : Nat) :
    (io.removeTorrent index).accepting = io.accepting := by
  unfold removeTorrent DiskIo.enqueue
  split
  · rfl
  · split <;> rfl

/-- The slot is empty for callers at once, for the worker when it has closed the storage. -/
theorem Settles.removeTorrent (h : io.Settles) (index : Nat) :
    (io.removeTorrent index).Settles := by
  obtain ⟨hsound, hfind⟩ := removeTorrent_spec h.sound index
  have hsubmitted : (io.removeTorrent index).submitted = io.submitted ++
      if io.accepting = true ∧ io.findStorage index ≠ none then [.closeStorage index] else [] :=
    removeTorrent_submitted index
  by_cases hclose : io.accepting = true ∧ io.findStorage index ≠ none
  · rw [if_pos hclose] at hsubmitted
    refine ⟨hsound, ?_, fun _ slot object hmem => ?_⟩
    · rw [hsubmitted]
      exact h.orderly.snoc fun _ _ _ heq => by cases heq
    · rw [hsubmitted, served_append] at hmem
      obtain ⟨hmem, hne⟩ := List.mem_filter.mp hmem
      rw [hfind, if_neg (by simpa using Ne.symm (by simpa using hne))]
      exact h.current hclose.1 slot object hmem
  · rw [if_neg hclose, List.append_nil] at hsubmitted
    refine ⟨hsound, hsubmitted ▸ h.orderly, fun ha slot object hmem => ?_⟩
    rw [removeTorrent_accepting] at ha
    rw [hsubmitted] at hmem
    have hat := h.current ha slot object hmem
    rw [hfind, if_neg]
    · exact hat
    · rintro rfl
      exact hclose ⟨ha, by rw [hat]; simp⟩

theorem newTorrent_accepting (io : DiskIo W) (E : Env W) (params : StorageParams) :
    (io.newTorrent E params).2.accepting = io.accepting := by
  unfold newTorrent store
  split
  · rfl
  · dsimp only
    split <;> rfl

theorem Settles.newTorrent (h : io.Settles) (E : Env W) (params : StorageParams) :
    (io.newTorrent E params).2.Settles := by
  have hsubmitted := newTorrent_submitted E io params
  have haccepting := newTorrent_accepting io E params
  rcases newTorrent_spec E h.sound params with
    ⟨-, -, hsame, -⟩ | ⟨index, -, hsound, hempty, -, hfind⟩
  · refine h.quiet (hsame.sound h.sound) hsubmitted (fun ha => haccepting ▸ ha)
      fun slot object hat => ?_
    rw [hsame.findStorage]
    exact hat
  · refine h.quiet hsound hsubmitted (fun ha => haccepting ▸ ha) fun slot object hat => ?_
    rw [hfind, if_neg]
    · exact hat
    · rintro rfl
      rw [hempty] at hat
      cases hat

/-- Performing a closure does not change what has been submitted, and in which order. -/
theorem Settles.work (h : io.Settles) (E : Env W) (reuse : Bool) :
    (io.work E reuse).Settles := by
  have hslots : io.SameSlots (io.work E reuse) ∧ (io.work E reuse).accepting = io.accepting := by
    unfold DiskIo.work
    split <;> exact ⟨⟨rfl, rfl⟩, rfl⟩
  refine h.quiet (hslots.1.sound h.sound) (work_submitted E reuse)
    (fun ha => hslots.2 ▸ ha) fun slot object hat => ?_
  rw [hslots.1.findStorage]
  exact hat

end DiskIo

/-! ## Two sessions -/

/-! What is done to the tables does not depend on the server. -/

namespace DiskIo

theorem store_withServer (io : DiskIo W) (server : Server W) (object : Nat) :
    ({ io with server := server } : DiskIo W).store object =
      ((io.store object).1, { (io.store object).2 with server := server }) := by
  unfold store
  dsimp only
  cases io.freeStorage.getLast? <;> rfl

theorem enqueue_withServer (io : DiskIo W) (server : Server W) (operation : QueuedJob) :
    ({ io with server := server } : DiskIo W).enqueue operation =
      { io.enqueue operation with server := server } := by
  unfold DiskIo.enqueue
  dsimp only
  split <;> rfl

theorem removeTorrent_withServer (io : DiskIo W) (server : Server W) (index : Nat) :
    ({ io with server := server } : DiskIo W).removeTorrent index =
      { io.removeTorrent index with server := server } := by
  unfold removeTorrent
  dsimp only
  split
  · rfl
  · exact enqueue_withServer { io with
      torrents := io.torrents.set index none
      freeStorage := io.freeStorage ++ [index] } server (.closeStorage index)

theorem enqueue_taken (io : DiskIo W) (operation : QueuedJob) :
    (io.enqueue operation).taken = io.taken := by
  unfold DiskIo.enqueue
  split <;> rfl

theorem removeTorrent_taken (io : DiskIo W) (index : Nat) :
    (io.removeTorrent index).taken = io.taken := by
  unfold removeTorrent
  split
  · rfl
  · exact enqueue_taken _ _

theorem store_taken (io : DiskIo W) (object : Nat) : (io.store object).2.taken = io.taken := by
  unfold store
  split <;> rfl

theorem closureFor_withServer (io : DiskIo W) (server : Server W) (storage : Nat) (job : Job) :
    ({ io with server := server } : DiskIo W).closureFor storage job =
      io.closureFor storage job := by
  cases job <;> rfl

/-- A closure that holds an object holds the one its slot has. -/
theorem closureFor_run {io : DiskIo W} {storage object storage' : Nat} {job job' : Job}
    (h : io.closureFor storage job = some (.run object storage' job')) :
    io.findStorage storage' = some object := by
  cases job <;> simp [closureFor] at h
  all_goals
    obtain ⟨hfind, rfl, -⟩ := h
    exact hfind

theorem closureFor_ne (io : DiskIo W) (storage : Nat) (job : Job) (index : Nat) :
    io.closureFor storage job ≠ some (.closeStorage index) := by
  cases job <;> simp [closureFor]

end DiskIo

/-- A new torrent is accepted on both sides or on none. -/
theorem ServersAlike.new {slots : List (Nat × Nat)} {server server' : Server World}
    (h : ServersAlike base slots server server') (params : StorageParams) :
    let r := TorrentStorage.new G.env params server.disk.world
    let r' := TorrentStorage.new G.env params server'.disk.world
    r.1 = r'.1 ∧ ServersAlike base slots
      { server with disk.world := r.2 } { server' with disk.world := r'.2 } := by
  obtain ⟨hobjects, hrooted, htwin⟩ := h
  -- the root is validated on both sides or on none
  have hasked : Twin (keysIn server.objects slots) (keysIn server.objects slots) (fun _ => True)
      base { server.disk with world := server.disk.world.afterBridge }
      { server'.disk with world := server'.disk.world.afterBridge } := by
    have hgrows : ∀ d : Disk World, d.Grows { d with world := d.world.afterBridge } :=
      fun d => ⟨d.world.grows_afterBridge, rfl, fun hm => hm⟩
    exact ⟨htwin.toAlike.grow (hgrows _) (hgrows _) htwin.io htwin.tree fun _ _ => rfl,
      htwin.coherent.grows (hgrows _), htwin.coherent'.grows (hgrows _)⟩
  obtain ⟨hworld, hanswer, -⟩ :=
    World.validatePath_spec (normalizedSaveRoot params.path) server.disk.world
  obtain ⟨hworld', hanswer', -⟩ :=
    World.validatePath_spec (normalizedSaveRoot params.path) server'.disk.world
  have hsame : (G.env.validatePath (normalizedSaveRoot params.path) server.disk.world).1 =
      (G.env.validatePath (normalizedSaveRoot params.path) server'.disk.world).1 := by
    refine (hanswer htwin.willing).trans (Eq.trans ?_ (hanswer' htwin.willing').symm)
    rw [htwin.validate, htwin.validate']
  simp only [TorrentStorage.new]
  split
  · exact ⟨rfl, hobjects, hrooted, htwin⟩
  split
  · exact ⟨rfl, hobjects, hrooted, htwin⟩
  have hafter : ServersAlike base slots
      { server with disk.world :=
          (G.env.validatePath (normalizedSaveRoot params.path) server.disk.world).2 }
      { server' with disk.world :=
          (G.env.validatePath (normalizedSaveRoot params.path) server'.disk.world).2 } := by
    refine ⟨hobjects, hrooted, ?_⟩
    rw [show (G.env.validatePath (normalizedSaveRoot params.path) server.disk.world).2 = _ from
      hworld,
      show (G.env.validatePath (normalizedSaveRoot params.path) server'.disk.world).2 = _ from
      hworld']
    exact hasked
  rw [← hsame]
  split
  · exact ⟨rfl, hafter⟩
  · split
    · exact ⟨rfl, hafter⟩
    · exact ⟨rfl, hafter⟩

theorem ServersAlike.append {slots : List (Nat × Nat)} {server server' : Server World}
    (h : ServersAlike base slots server server') {t : TorrentStorage} (ht : t.Rooted) :
    ServersAlike base slots { server with objects := server.objects ++ [t] }
      { server' with objects := server'.objects ++ [t] } := by
  have hkeys : ∀ slot file path, keysIn server.objects slots slot file path →
      keysIn (server.objects ++ [t]) slots slot file path := by
    refine fun _ _ _ => keysIn_mono (fun _ hmem => hmem) fun object u hobject => ?_
    rw [List.getElem?_append_left (List.getElem?_eq_some_iff.mp hobject).1]
    exact hobject
  refine ⟨by rw [h.objects], fun u hu => ?_, h.twin.mono hkeys hkeys⟩
  rcases List.mem_append.mp hu with hold | hnew
  · exact h.rooted u hold
  · obtain rfl := List.mem_singleton.mp hnew
    exact ht

theorem ServersAlike.settingsUpdated {slots : List (Nat × Nat)} {server server' : Server World}
    (h : ServersAlike base slots server server') (filePoolSize : Int) :
    ServersAlike base slots
      { server with disk := server.disk.settingsUpdated filePoolSize }
      { server' with disk := server'.disk.settingsUpdated filePoolSize } := by
  obtain ⟨hobjects, hrooted, halike, hc, hc'⟩ := h
  exact ⟨hobjects, hrooted, ⟨halike.sound, halike.sound', halike.willing, halike.willing',
    halike.validate, halike.validate', halike.io, halike.tree, halike.frame⟩,
    hc.settingsUpdated filePoolSize, hc'.settingsUpdated filePoolSize⟩

/-- The same tables and the same queue, and servers alike. -/
structure SessionsAlike (base : World) (io io' : DiskIo World) : Prop where
  settles : io.Settles
  same : io' = { io with server := io'.server }
  servers : ServersAlike base (served io.taken) io.server io'.server

namespace SessionsAlike

variable {io io' : DiskIo World}

/-- The same slot is given on both sides, for the tables are the same. -/
theorem newTorrent (h : SessionsAlike base io io') (params : StorageParams) :
    (io.clientCall G.env reuse (.newTorrent params)).1 =
        (io'.clientCall G.env reuse' (.newTorrent params)).1 ∧
      SessionsAlike base (io.clientCall G.env reuse (.newTorrent params)).2
        (io'.clientCall G.env reuse' (.newTorrent params)).2 := by
  obtain ⟨hsettles, hsame, hservers⟩ := h
  obtain ⟨server', rfl⟩ : ∃ server', io' = { io with server := server' } := ⟨_, hsame⟩
  have hnew := hservers.new G params
  have hsettled := hsettles.newTorrent G.env params
  simp only [DiskIo.clientCall, DiskIo.call, DiskIo.newTorrent] at hsettled ⊢
  rcases hrun : TorrentStorage.new G.env params io.server.disk.world with ⟨e | t, w⟩ <;>
    rcases hrun' : TorrentStorage.new G.env params server'.disk.world with ⟨e' | t', w'⟩ <;>
    rw [hrun, hrun'] at hnew <;> obtain ⟨heq, halike⟩ := hnew <;> cases heq
  · rw [hrun] at hsettled
    exact ⟨rfl, hsettled, rfl, halike⟩
  · rw [hrun] at hsettled
    have happended := halike.append fun i hi => (describes_new hrun).pathFor hi
    have hobjects : server'.objects = io.server.objects := hservers.objects.symm
    simp only [hobjects, DiskIo.store_withServer] at happended hsettled ⊢
    refine ⟨trivial, hsettled, rfl, ?_⟩
    rw [DiskIo.store_taken]
    exact happended

/-- The worker takes the same closure in both sessions. -/
theorem work (h : SessionsAlike base io io') (hkeeps : io.KeepsApart G.env reuse) :
    (io.clientCall G.env reuse .work).1 = (io'.clientCall G.env reuse' .work).1 ∧
      SessionsAlike base (io.clientCall G.env reuse .work).2
        (io'.clientCall G.env reuse' .work).2 := by
  obtain ⟨hsettles, hsame, hservers⟩ := h
  obtain ⟨server', rfl⟩ : ∃ server', io' = { io with server := server' } := ⟨_, hsame⟩
  have hsettled := hsettles.work G.env reuse
  cases hjobs : io.jobs with
  | nil =>
    simp only [DiskIo.clientCall, DiskIo.nextReport, DiskIo.work, hjobs] at hsettled ⊢
    exact ⟨rfl, hsettled, by rw [hjobs], hservers⟩
  | cons operation rest =>
    simp only [DiskIo.clientCall, DiskIo.nextReport, DiskIo.work, hjobs, DiskIo.KeepsApart,
      List.head?_cons, Option.bind_some] at hsettled hkeeps ⊢
    suffices hperform : (io.server.perform G.env reuse operation).1 =
        (server'.perform G.env reuse' operation).1 ∧
        ServersAlike base (served (io.taken ++ [operation]))
          (io.server.perform G.env reuse operation).2
          (server'.perform G.env reuse' operation).2 by
      rw [hperform.1]
      exact ⟨rfl, hsettled, rfl, hperform.2⟩
    rw [served_append]
    cases operation with
    | run object storage job =>
      dsimp only at hkeeps
      rw [served_append] at hkeeps
      -- the queue has the job of the object that is in the slot
      refine hservers.run G reuse reuse' ?_ hkeeps.1 hkeeps.2
      exact hsettles.orderly io.taken object storage job rest (by rw [DiskIo.submitted, hjobs])
    | release storage => exact ⟨rfl, hservers.close G storage fun _ _ _ hmem => hmem⟩
    | clearPiece piece => exact ⟨rfl, hservers⟩
    | closeStorage storage =>
      refine ⟨rfl, hservers.close G storage fun slot object hne hmem => ?_⟩
      exact List.mem_filter.mpr ⟨hmem, by simpa using hne⟩

/-- One call: the same answer, and sessions alike again. -/
theorem call (h : SessionsAlike base io io') (call : ClientCall)
    (hcall : call.isWork = true → io.KeepsApart G.env reuse) :
    (io.clientCall G.env reuse call).1 = (io'.clientCall G.env reuse' call).1 ∧
      SessionsAlike base (io.clientCall G.env reuse call).2
        (io'.clientCall G.env reuse' call).2 := by
  cases call with
  | newTorrent params => exact h.newTorrent G reuse reuse' params
  | work => exact h.work G reuse reuse' (hcall rfl)
  | removeTorrent index =>
    obtain ⟨hsettles, hsame, hservers⟩ := h
    rw [hsame]
    simp only [DiskIo.clientCall, DiskIo.removeTorrent_withServer]
    refine ⟨trivial, hsettles.removeTorrent index, rfl, ?_⟩
    rw [DiskIo.removeTorrent_taken, DiskIo.removeTorrent_server]
    exact hservers
  | async storage job =>
    obtain ⟨hsettles, hsame, hservers⟩ := h
    rw [hsame]
    simp only [DiskIo.clientCall, DiskIo.closureFor_withServer]
    cases hclosure : io.closureFor storage job with
    | none => exact ⟨rfl, hsettles, rfl, hservers⟩
    | some closure =>
      have hrefused : io'.server.refused job closure = io.server.refused job closure := by
        unfold Server.refused
        rw [hservers.objects]
      simp only [DiskIo.enqueue_withServer, hrefused]
      refine ⟨trivial, hsettles.enqueue (fun index heq => ?_) (fun object storage' job' heq => ?_),
        rfl, ?_⟩
      · exact io.closureFor_ne storage job index (heq ▸ hclosure)
      · exact DiskIo.closureFor_run (heq ▸ hclosure)
      · rw [DiskIo.enqueue_taken, DiskIo.enqueue_server]
        exact hservers
  | settingsUpdated filePoolSize =>
    obtain ⟨hsettles, hsame, hservers⟩ := h
    rw [hsame]
    refine ⟨rfl, hsettles.quiet ⟨hsettles.sound.nodup, hsettles.sound.free⟩ rfl (fun ha => ha)
      fun _ _ hat => hat, rfl, hservers.settingsUpdated filePoolSize⟩
  | abort =>
    obtain ⟨hsettles, hsame, hservers⟩ := h
    rw [hsame]
    exact ⟨rfl, hsettles.quiet ⟨hsettles.sound.nodup, hsettles.sound.free⟩ rfl
      (fun ha => by cases ha) fun _ _ hat => hat, rfl, hservers⟩

end SessionsAlike

/-- Every turn of the worker in the session meets `KeepsApart`. -/
def EveryTurnApart (io : DiskIo World) : List ClientCall → Prop
  | [] => True
  | call :: rest =>
      (call.isWork = true → io.KeepsApart G.env reuse) ∧
        EveryTurnApart (io.clientCall G.env reuse call).2 rest

/-- Induction on the calls: every answer is the same, and the next call finds the sides alike. -/
theorem SessionsAlike.session {io io' : DiskIo World} (h : SessionsAlike base io io')
    {calls : List ClientCall} (hcalls : EveryTurnApart G reuse io calls) :
    (io.session G.env reuse calls).1 = (io'.session G.env reuse' calls).1 ∧
      SessionsAlike base (io.session G.env reuse calls).2 (io'.session G.env reuse' calls).2 := by
  induction calls generalizing io io' with
  | nil => exact ⟨rfl, h⟩
  | cons call rest ih =>
    obtain ⟨hcall, hrest⟩ := hcalls
    obtain ⟨hanswer, hnext⟩ := h.call G reuse reuse' call hcall
    obtain ⟨hanswers, hlast⟩ := ih hnext hrest
    simp only [DiskIo.session]
    exact ⟨by rw [hanswer, hanswers], hlast⟩

/-- A beginning of a session asks no more than the whole of it. -/
theorem everyTurnApart_before {io : DiskIo World} {before calls : List ClientCall}
    (hbefore : before <+: calls) (h : EveryTurnApart G reuse io calls) :
    EveryTurnApart G reuse io before := by
  induction before generalizing io calls with
  | nil => trivial
  | cons call rest ih =>
    obtain ⟨after, rfl⟩ := hbefore
    exact ⟨h.1, ih (List.prefix_append rest after) h.2⟩

/-- **The descriptor cache is transparent.** In every session whose turns keep the paths of the
    files and the part files in use apart, a descriptor that is handed out again refers to the
    document then stored at the path asked for; and after any number of calls the answers, the
    reports and the provider's documents are those of the same session without the cache. -/
theorem cache_transparent {w : World} (hs : w.Sound) (hw : w.Willing) (filePoolSize : Int)
    {calls : List ClientCall} (hcalls : EveryTurnApart G true (.start w filePoolSize) calls) :
    ∀ before, before <+: calls →
      let cached := (DiskIo.start w filePoolSize).session G.env true before
      let fresh := (DiskIo.start w filePoolSize).session G.env false before
      (∀ fd path w', .reused fd path w' ∈ cached.2.server.disk.trace →
        ∃ writable, w'.Refers fd path writable) ∧
      cached.1 = fresh.1 ∧ cached.2.server.disk.tree = fresh.2.server.disk.tree := by
  intro before hbefore cached fresh
  have hfresh : ServersAlike w (served []) { disk := { world := w } } { disk := { world := w } } :=
    ⟨rfl, fun t ht => (by cases ht),
      ⟨hs, hs, hw, hw, rfl, rfl, rfl, fun _ _ => rfl, fun path hpath => absurd trivial hpath⟩,
      coherent_fresh hs _, coherent_fresh hs _⟩
  have hstart : SessionsAlike w (.start w filePoolSize) (.start w filePoolSize) :=
    ⟨DiskIo.settles_start w filePoolSize, rfl, hfresh.settingsUpdated filePoolSize⟩
  obtain ⟨hanswers, -, -, hservers⟩ :=
    hstart.session G true false (everyTurnApart_before G true hbefore hcalls)
  exact ⟨hservers.twin.coherent.hits, hanswers,
    funext fun path => hservers.twin.tree path trivial⟩

/-! ## Sessions -/

instance (E : Env W) (reuse : Bool) (io : DiskIo W) : Decidable (io.KeepsApart E reuse) :=
  match h : io.jobs with
  | .run object storage job :: rest =>
      let slots := served (io.taken ++ [.run object storage job])
      decidable_of_iff ((pathsIn io.server.objects slots).Nodup ∧
        (pathsIn (io.work E reuse).server.objects slots).Nodup) (by rw [DiskIo.KeepsApart, h])
  | [] => isTrue (by rw [DiskIo.KeepsApart, h]; trivial)
  | .release storage :: rest => isTrue (by rw [DiskIo.KeepsApart, h]; trivial)
  | .clearPiece piece :: rest => isTrue (by rw [DiskIo.KeepsApart, h]; trivial)
  | .closeStorage storage :: rest => isTrue (by rw [DiskIo.KeepsApart, h]; trivial)

instance : (io : DiskIo World) → (calls : List ClientCall) →
    Decidable (EveryTurnApart G reuse io calls)
  | _, [] => isTrue trivial
  | io, call :: rest =>
      have := instDecidableEveryTurnApart (io.clientCall G.env reuse call).2 rest
      inferInstanceAs (Decidable (_ ∧ _))

namespace Reused

open Restart

def host : Host := ⟨.next, id, id⟩

/-- The slot of a torrent is given to another one, which writes and reads twice. -/
def calls : List ClientCall :=
  [.newTorrent params, .async 0 (.read { piece := 0, start := 0, length := 3 }), .work,
    .removeTorrent 0, .newTorrent params, .work,
    .async 0 (.write { piece := 0, start := 3, length := 1 } [9]), .work,
    .async 0 (.read { piece := 0, start := 3, length := 1 }), .work]

theorem cache_transparent_reused :
    (DiskIo.session host.env true (.start world 1) calls).1 =
      (DiskIo.session host.env false (.start world 1) calls).1 :=
  (cache_transparent host (World.sound_holding _) (by simp [World.Willing, World.holding]) 1
    (by decide +kernel) calls (List.prefix_refl _)).2.1

/-- The first file takes the name of the part file that holds the second one's byte. -/
def ontoPartFile : List ClientCall :=
  [.newTorrent { params with priorities := [4, dontDownload] },
    .async 0 (.write { piece := 0, start := 3, length := 1 } [9]), .work,
    .async 0 (.renameFile 0 (partPathOf params.infoHash)), .work,
    .async 0 (.read { piece := 0, start := 3, length := 1 }), .work]

/-- No two files ever have one path, and the cache still reads the document that has been
    replaced. -/
theorem renamed_onto_part_file :
    world.Sound ∧ world.Willing ∧
    (∀ n ≤ ontoPartFile.length, ((DiskIo.session host.env true (.start world 10)
      (ontoPartFile.take n)).2.server.objects.flatMap (·.paths)).Nodup) ∧
    (DiskIo.session host.env true (.start world 10) ontoPartFile).1.getLast? =
      some { report := some (.read [9] none) } ∧
    (DiskIo.session host.env false (.start world 10) ontoPartFile).1.getLast? =
      some { report := some (.read []
        (some { ec := .eof, file := 1, operation := .partfileRead })) } ∧
    (DiskIo.session host.env true (.start world 10) ontoPartFile).1 ≠
      (DiskIo.session host.env false (.start world 10) ontoPartFile).1 := by
  have hcached : (DiskIo.session host.env true (.start world 10) ontoPartFile).1.getLast? =
      some { report := some (.read [9] none) } := by decide +kernel
  have hfresh : (DiskIo.session host.env false (.start world 10) ontoPartFile).1.getLast? =
      some { report := some (.read [] (some
        { ec := .eof, file := 1, operation := .partfileRead })) } := by decide +kernel
  refine ⟨World.sound_holding _, by simp [World.Willing, world, World.holding], by decide +kernel,
    hcached, hfresh, fun heq => ?_⟩
  rw [heq, hfresh] at hcached
  cases hcached

end Reused

end Saf
end Libtorrent4j
