import Libtorrent4j.Saf.Jobs

/-!
# Storage slots

`new_torrent` puts a storage object into `m_torrents`, in a slot that `remove_torrent` has emptied
if there is one, else in a new one. Calls find their object by the number of its slot, so the number
is used again for another torrent, and what the worker still has to close under it must come
before anything of the new owner: the queue does that, because the removal enqueues its
`close_storage` while it still holds the lock on the slots.

`DiskIo.Tells` is the invariant of the two tables over every history of calls,
`slots_never_confused` what it is for.
-/

namespace Libtorrent4j
namespace Saf

variable {W : Type}

/-- The members of `flow_saf_disk_io` in use; a slot holds the number of a storage object.
    `taken` is a ghost: the closures the worker has taken so far. -/
structure DiskIo (W : Type) where
  server : Server W
  torrents : List (Option Nat) := []
  freeStorage : List Nat := []
  jobs : List QueuedJob := []
  accepting : Bool := true
  taken : List QueuedJob := []

namespace DiskIo

def findStorage (io : DiskIo W) (storage : Nat) : Option Nat :=
  if storage < io.torrents.length then io.torrents.getD storage none else none

def enqueue (io : DiskIo W) (operation : QueuedJob) : DiskIo W :=
  if io.accepting then { io with jobs := io.jobs ++ [operation] } else io

/-- The part of `new_torrent` under the lock. -/
def store (io : DiskIo W) (object : Nat) : Nat × DiskIo W :=
  match io.freeStorage.getLast? with
  | none => (io.torrents.length, { io with torrents := io.torrents ++ [some object] })
  | some index =>
      (index, { io with
        freeStorage := io.freeStorage.dropLast
        torrents := io.torrents.set index (some object) })

variable (E : Env W)

/-- The storage object is made before the lock is taken. -/
def newTorrent (io : DiskIo W) (params : StorageParams) :
    Except NewTorrentError Nat × DiskIo W :=
  match TorrentStorage.new E params io.server.disk.world with
  | (.error e, w) =>
      (.error e, { io with server.disk := { io.server.disk with world := w } })
  | (.ok torrent, w) =>
      let made := { io with
        server.disk := { io.server.disk with world := w }
        server.objects := io.server.objects ++ [torrent] }
      let stored := made.store io.server.objects.length
      (.ok stored.1, stored.2)

def removeTorrent (io : DiskIo W) (index : Nat) : DiskIo W :=
  if io.torrents.length ≤ index ∨ io.torrents.getD index none = none then io
  else
    enqueue { io with
      torrents := io.torrents.set index none
      freeStorage := io.freeStorage ++ [index] } (.closeStorage index)

/-- One turn of `worker_loop`. -/
def work (reuse : Bool) (io : DiskIo W) : DiskIo W :=
  match io.jobs with
  | [] => io
  | operation :: rest =>
      { io with
        server := (io.server.perform E reuse operation).2
        jobs := rest
        taken := io.taken ++ [operation] }

end DiskIo

/-- A call, or the worker's turn. A function that takes a storage finds its object first and
    enqueues later, so `submit` is about any object found at any time before. -/
inductive Call where
  | newTorrent (params : StorageParams)
  | removeTorrent (index : Nat)
  | findStorage (storage : Nat)
  | submit (object storage : Nat) (job : Job)
  | releaseFiles (storage : Nat)
  | clearPiece (piece : Nat)
  | work
  | abort

/-- What a call tells about the slots. -/
inductive Outcome where
  | created (object index : Nat)
  | refused (error : NewTorrentError)
  | removed (index : Nat)
  | found (object : Option Nat)
  | nothing
deriving DecidableEq, Repr

namespace DiskIo

variable (E : Env W) (reuse : Bool)

def call (io : DiskIo W) : Call → Outcome × DiskIo W
  | .newTorrent params =>
      match io.newTorrent E params with
      | (.ok index, io') => (.created io.server.objects.length index, io')
      | (.error e, io') => (.refused e, io')
  | .removeTorrent index => (.removed index, io.removeTorrent index)
  | .findStorage storage => (.found (io.findStorage storage), io)
  | .submit object storage job => (.nothing, io.enqueue (.run object storage job))
  | .releaseFiles storage => (.nothing, io.enqueue (.release storage))
  | .clearPiece piece => (.nothing, io.enqueue (.clearPiece piece))
  | .work => (.nothing, io.work E reuse)
  | .abort => (.nothing, { io with accepting := false })

/-- A history of calls, and what they have told. -/
def run (io : DiskIo W) : List Call → List Outcome × DiskIo W
  | [] => ([], io)
  | call :: rest =>
      let first := io.call E reuse call
      let last := run first.2 rest
      (first.1 :: last.1, last.2)

def start (w : W) (filePoolSize : Int) : DiskIo W := { server := .start w filePoolSize }

/-- What the worker has to do, in order: done or still in the queue. -/
def submitted (io : DiskIo W) : List QueuedJob := io.taken ++ io.jobs

end DiskIo

/-- What an outcome says about one slot. -/
def Outcome.slot (index : Nat) : Outcome → Option (Option Nat)
  | .created object index' => if index' = index then some (some object) else none
  | .removed index' => if index' = index then some none else none
  | _ => none

/-- The object most recently created in the slot, unless it has been removed since. -/
def ownerAfter (outcomes : List Outcome) (index : Nat) : Option Nat :=
  (outcomes.filterMap (Outcome.slot index)).getLast?.join

/-! ## The tables -/

namespace DiskIo

/-- The free list is the empty slots, each once. -/
structure Sound (io : DiskIo W) : Prop where
  nodup : io.freeStorage.Nodup
  free : ∀ index, index ∈ io.freeStorage ↔ io.torrents[index]? = some none

variable {io : DiskIo W}

theorem findStorage_eq (storage : Nat) :
    io.findStorage storage = io.torrents[storage]?.join := by
  unfold findStorage
  split
  · rename_i hlt
    rw [List.getD_eq_getElem?_getD, List.getElem?_eq_getElem hlt]
    rfl
  · rename_i hge
    rw [List.getElem?_eq_none (by omega)]
    rfl

theorem sound_start (w : W) (filePoolSize : Int) : (start w filePoolSize).Sound :=
  ⟨List.nodup_nil, fun index => by simp [start]⟩

/-- Two states with the same tables. -/
structure SameSlots (io io' : DiskIo W) : Prop where
  torrents : io'.torrents = io.torrents
  freeStorage : io'.freeStorage = io.freeStorage

theorem SameSlots.sound {io' : DiskIo W} (h : io.SameSlots io') (hs : io.Sound) : io'.Sound := by
  refine ⟨by rw [h.freeStorage]; exact hs.nodup, fun index => ?_⟩
  rw [h.freeStorage, h.torrents]
  exact hs.free index

theorem SameSlots.findStorage {io' : DiskIo W} (h : io.SameSlots io') (storage : Nat) :
    io'.findStorage storage = io.findStorage storage := by
  rw [findStorage_eq, findStorage_eq, h.torrents]

theorem sameSlots_enqueue (operation : QueuedJob) : io.SameSlots (io.enqueue operation) := by
  unfold enqueue
  split
  · exact ⟨rfl, rfl⟩
  · exact ⟨rfl, rfl⟩

theorem store_server (object : Nat) : (io.store object).2.server = io.server := by
  unfold store
  split <;> rfl

/-- Storing: a slot that was empty or new, which now has the object; the others stay. -/
theorem store_spec (hs : io.Sound) (object : Nat) :
    (io.store object).2.Sound ∧ io.findStorage (io.store object).1 = none ∧
      ∀ storage, (io.store object).2.findStorage storage =
        if (io.store object).1 = storage then some object else io.findStorage storage := by
  simp only [findStorage_eq]
  unfold store
  split
  -- no slot is free: the table grows
  · rename_i hnone
    have hempty : io.freeStorage = [] := List.getLast?_eq_none_iff.mp hnone
    refine ⟨⟨hs.nodup, fun index => ?_⟩, by simp, fun storage => ?_⟩
    · rw [hs.free, List.getElem?_append]
      split
      · rfl
      · rename_i hge
        rw [List.getElem?_eq_none (by omega)]
        cases hsub : index - io.torrents.length <;> simp
    · dsimp only
      rw [List.getElem?_append]
      by_cases heq : io.torrents.length = storage
      · subst heq
        simp
      · rw [if_neg heq]
        split
        · rfl
        · rename_i hge
          rw [List.getElem?_eq_none (by simp; omega), List.getElem?_eq_none (by omega)]
  -- the slot that has been free the shortest is taken
  · rename_i index hlast
    have hsplit : io.freeStorage.dropLast ++ [index] = io.freeStorage :=
      List.dropLast_append_getLast? _ hlast
    have hnodup := hs.nodup
    rw [← hsplit, List.nodup_append] at hnodup
    have hempty : io.torrents[index]? = some none :=
      (hs.free index).mp (by rw [← hsplit]; simp)
    have hlt : index < io.torrents.length := (List.getElem?_eq_some_iff.mp hempty).1
    refine ⟨⟨hnodup.1, fun i => ?_⟩, by simp [hempty], fun storage => ?_⟩
    · have hfree := hs.free i
      rw [← hsplit, List.mem_append, List.mem_singleton] at hfree
      rw [List.getElem?_set]
      by_cases heq : index = i
      · subst heq
        have hout : index ∉ io.freeStorage.dropLast := fun hmem =>
          hnodup.2.2 index hmem index (by simp) rfl
        simp [hout, hlt]
      · rw [if_neg heq, ← hfree]
        simp [Ne.symm heq]
    · rw [List.getElem?_set]
      by_cases heq : index = storage
      · subst heq
        simp [hlt]
      · rw [if_neg heq, if_neg heq]

/-- Whether a removal finds a torrent. -/
theorem removeTorrent_of_none (index : Nat) (hnone : io.findStorage index = none) :
    io.removeTorrent index = io := by
  unfold removeTorrent
  rw [if_pos]
  rw [findStorage] at hnone
  by_cases hlt : index < io.torrents.length
  · rw [if_pos hlt] at hnone
    exact Or.inr hnone
  · exact Or.inl (by omega)

theorem removeTorrent_of_some {index object : Nat} (hsome : io.findStorage index = some object) :
    io.removeTorrent index = enqueue { io with
      torrents := io.torrents.set index none
      freeStorage := io.freeStorage ++ [index] } (.closeStorage index) := by
  unfold removeTorrent
  rw [if_neg]
  rw [findStorage] at hsome
  split at hsome
  · rename_i hlt
    rintro (hge | hnone)
    · omega
    · rw [hnone] at hsome
      cases hsome
  · cases hsome

/-- A removal empties its slot, if it was not empty, and leaves the others alone. -/
theorem removeTorrent_spec (hs : io.Sound) (index : Nat) :
    (io.removeTorrent index).Sound ∧ ∀ storage, (io.removeTorrent index).findStorage storage =
      if index = storage then none else io.findStorage storage := by
  cases hfind : io.findStorage index with
  | none =>
    rw [removeTorrent_of_none index hfind]
    refine ⟨hs, fun storage => ?_⟩
    split
    · rename_i heq
      rw [← heq, hfind]
    · rfl
  | some object =>
    rw [removeTorrent_of_some hfind]
    rw [findStorage_eq] at hfind
    obtain ⟨slot, hslot, hobject⟩ :
        ∃ slot, io.torrents[index]? = some slot ∧ slot = some object := by
      cases hat : io.torrents[index]? with
      | none => rw [hat] at hfind; cases hfind
      | some slot => rw [hat] at hfind; exact ⟨slot, rfl, hfind⟩
    have hlt : index < io.torrents.length := (List.getElem?_eq_some_iff.mp hslot).1
    -- a slot in use is not free yet
    have hout : index ∉ io.freeStorage := by
      rw [hs.free, hslot, hobject]
      simp
    have hsame : SameSlots { io with
        torrents := io.torrents.set index none
        freeStorage := io.freeStorage ++ [index] } _ := sameSlots_enqueue (.closeStorage index)
    refine ⟨hsame.sound ⟨?_, fun i => ?_⟩, fun storage => ?_⟩
    · exact List.nodup_append.mpr ⟨hs.nodup, List.nodup_singleton _, fun a ha b hb hab =>
        hout (by rw [List.mem_singleton] at hb; exact hb ▸ hab ▸ ha)⟩
    · rw [List.mem_append, List.mem_singleton, hs.free, List.getElem?_set]
      by_cases heq : index = i
      · subst heq
        simp [hlt]
      · simp [heq, Ne.symm heq]
    · rw [hsame.findStorage, findStorage_eq, findStorage_eq, List.getElem?_set]
      by_cases heq : index = storage
      · subst heq
        simp [hlt]
      · rw [if_neg heq, if_neg heq]

section Calls

variable (E : Env W) (reuse : Bool)

/-- `new_torrent` throws and leaves the tables alone, or stores a new object in an empty slot. -/
theorem newTorrent_spec (hs : io.Sound) (params : StorageParams) :
    (∃ e, (io.newTorrent E params).1 = .error e ∧ io.SameSlots (io.newTorrent E params).2 ∧
      (io.newTorrent E params).2.server.objects = io.server.objects) ∨
    ∃ index, (io.newTorrent E params).1 = .ok index ∧ (io.newTorrent E params).2.Sound ∧
      io.findStorage index = none ∧
      (io.newTorrent E params).2.server.objects.length = io.server.objects.length + 1 ∧
      ∀ storage, (io.newTorrent E params).2.findStorage storage =
        if index = storage then some io.server.objects.length else io.findStorage storage := by
  unfold newTorrent
  split
  · exact Or.inl ⟨_, rfl, ⟨rfl, rfl⟩, rfl⟩
  · rename_i torrent w _
    refine Or.inr ⟨_, rfl, ?_⟩
    have hsame : io.SameSlots { io with
        server := { disk := { io.server.disk with world := w },
                    objects := io.server.objects ++ [torrent] } } := ⟨rfl, rfl⟩
    obtain ⟨hsound, hempty, hfind⟩ := store_spec (hsame.sound hs) io.server.objects.length
    refine ⟨hsound, ?_, ?_, fun storage => ?_⟩
    · rw [← hsame.findStorage]
      exact hempty
    · dsimp only
      rw [store_server]
      simp
    · rw [← hsame.findStorage]
      exact hfind storage

/-- What is known of the tables after a history. -/
structure Tells (io : DiskIo W) (outcomes : List Outcome) : Prop where
  sound : io.Sound
  owner : ∀ index, io.findStorage index = ownerAfter outcomes index
  older : ∀ object index, .created object index ∈ outcomes → object < io.server.objects.length

theorem tells_start (w : W) (filePoolSize : Int) : (start w filePoolSize).Tells [] :=
  ⟨sound_start w filePoolSize, fun index => by simp [findStorage_eq, start, ownerAfter],
    fun object index hmem => by cases hmem⟩

theorem ownerAfter_append (outcomes : List Outcome) (outcome : Outcome) (index : Nat) :
    ownerAfter (outcomes ++ [outcome]) index =
      (outcome.slot index).getD (ownerAfter outcomes index) := by
  unfold ownerAfter
  rw [List.filterMap_append, List.getLast?_append]
  cases htells : outcome.slot index <;> simp [htells]

/-- An outcome that is silent about the slots, of a call that leaves them alone. -/
theorem Tells.quiet {io' : DiskIo W} {outcomes : List Outcome} {outcome : Outcome}
    (h : io.Tells outcomes) (hsame : io.SameSlots io')
    (hobjects : io'.server.objects.length = io.server.objects.length)
    (htells : ∀ index, outcome.slot index = none)
    (hcreated : ∀ object index, outcome ≠ .created object index) :
    io'.Tells (outcomes ++ [outcome]) := by
  refine ⟨hsame.sound h.sound, fun index => ?_, fun object index hmem => ?_⟩
  · rw [hsame.findStorage, ownerAfter_append, htells]
    exact h.owner index
  · rcases List.mem_append.mp hmem with hold | hnew
    · rw [hobjects]
      exact h.older object index hold
    · exact absurd (List.mem_singleton.mp hnew).symm (hcreated object index)

theorem perform_objects (server : Server W) (operation : QueuedJob) :
    (server.perform E reuse operation).2.objects.length = server.objects.length := by
  cases operation with
  | run object storage job =>
    simp only [Server.perform]
    split <;> simp
  | release storage | clearPiece piece | closeStorage storage => rfl

theorem enqueue_server (operation : QueuedJob) : (io.enqueue operation).server = io.server := by
  unfold enqueue
  split <;> rfl

theorem removeTorrent_server (index : Nat) : (io.removeTorrent index).server = io.server := by
  unfold removeTorrent
  split
  · rfl
  · exact enqueue_server _

/-- The step: one call. -/
theorem Tells.call {outcomes : List Outcome} (h : io.Tells outcomes) (call : Call) :
    (io.call E reuse call).2.Tells (outcomes ++ [(io.call E reuse call).1]) := by
  -- only two calls touch the slots
  have henqueue : ∀ operation, (io.enqueue operation).Tells (outcomes ++ [.nothing]) :=
    fun operation => h.quiet (sameSlots_enqueue operation) (by rw [enqueue_server])
      (fun _ => rfl) fun _ _ => by simp
  cases call with
  | newTorrent params =>
    simp only [DiskIo.call]
    rcases newTorrent_spec E h.sound params with ⟨e, hresult, hsame, hobjects⟩ |
      ⟨index, hresult, hsound, -, hobjects, hfind⟩
    · rcases hrun : io.newTorrent E params with ⟨result, io'⟩
      rw [hrun] at hresult hsame hobjects
      obtain rfl : result = .error e := hresult
      exact h.quiet hsame (by rw [hobjects]) (fun _ => rfl) fun _ _ => by simp
    · rcases hrun : io.newTorrent E params with ⟨result, io'⟩
      rw [hrun] at hresult hsound hobjects hfind
      obtain rfl : result = .ok index := hresult
      refine ⟨hsound, fun storage => ?_, fun object index' hmem => ?_⟩
      · rw [hfind, ownerAfter_append, Outcome.slot]
        split
        · rfl
        · exact h.owner storage
      · -- the new object is younger than all the older jobs' objects
        dsimp only at hobjects
        rw [hobjects]
        rcases List.mem_append.mp hmem with hold | hnew
        · have := h.older object index' hold
          omega
        · cases List.mem_singleton.mp hnew
          omega
  | removeTorrent index =>
    obtain ⟨hsound, hfind⟩ := removeTorrent_spec h.sound index
    refine ⟨hsound, fun storage => ?_, fun object index' hmem => ?_⟩
    · simp only [DiskIo.call]
      rw [hfind, ownerAfter_append, Outcome.slot]
      split
      · rfl
      · exact h.owner storage
    · simp only [DiskIo.call, removeTorrent_server] at hmem ⊢
      refine h.older object index' ?_
      simpa using hmem
  | findStorage storage =>
    exact h.quiet ⟨rfl, rfl⟩ rfl (fun _ => rfl) fun _ _ => by simp [DiskIo.call]
  | submit object storage job => exact henqueue _
  | releaseFiles storage => exact henqueue _
  | clearPiece piece => exact henqueue _
  | abort => exact h.quiet ⟨rfl, rfl⟩ rfl (fun _ => rfl) fun _ _ => by simp [DiskIo.call]
  | work =>
    refine h.quiet ?_ ?_ (fun _ => rfl) fun _ _ => by simp [DiskIo.call]
    · simp only [DiskIo.call, work]
      split <;> exact ⟨rfl, rfl⟩
    · simp only [DiskIo.call, work]
      split
      · rfl
      · exact perform_objects E reuse _ _

theorem Tells.run {outcomes : List Outcome} (h : io.Tells outcomes) (calls : List Call) :
    (io.run E reuse calls).2.Tells (outcomes ++ (io.run E reuse calls).1) := by
  induction calls generalizing io outcomes with
  | nil => simpa [DiskIo.run] using h
  | cons call rest ih =>
    simp only [DiskIo.run]
    have := ih (h.call E reuse call)
    rwa [List.append_assoc, List.singleton_append] at this

/-! ## The closing of a slot -/

theorem enqueue_submitted (operation : QueuedJob) :
    (io.enqueue operation).submitted =
      io.submitted ++ if io.accepting then [operation] else [] := by
  unfold enqueue submitted
  split <;> simp

theorem removeTorrent_submitted (index : Nat) : (io.removeTorrent index).submitted = io.submitted ++
      if io.accepting = true ∧ io.findStorage index ≠ none then [.closeStorage index] else [] := by
  cases hfind : io.findStorage index with
  | none => simp [removeTorrent_of_none index hfind]
  | some object =>
    rw [removeTorrent_of_some hfind, enqueue_submitted]
    simp [submitted]

theorem newTorrent_submitted (io : DiskIo W) (params : StorageParams) :
    (io.newTorrent E params).2.submitted = io.submitted := by
  have hstore : ∀ (made : DiskIo W) (object : Nat),
      (made.store object).2.submitted = made.submitted := by
    intro made object
    unfold store
    split <;> rfl
  unfold newTorrent
  split
  · rfl
  · exact hstore _ _

theorem work_submitted : (io.work E reuse).submitted = io.submitted := by
  unfold work
  split
  · rfl
  · rename_i hjobs
    simp [submitted, hjobs]

/-- What is submitted is never withdrawn, and only a removal submits a `close_storage`. -/
theorem call_submitted (io : DiskIo W) (call : Call) : ∃ more,
    (io.call E reuse call).2.submitted = io.submitted ++ more ∧
      ((∀ index, call ≠ .removeTorrent index) → ∀ storage, .closeStorage storage ∉ more) := by
  have henqueue : ∀ operation, (∀ storage, operation ≠ .closeStorage storage) → ∃ more,
      (io.enqueue operation).submitted = io.submitted ++ more ∧
        ∀ storage, .closeStorage storage ∉ more := by
    refine fun operation hne => ⟨_, enqueue_submitted operation, fun storage hmem => ?_⟩
    split at hmem
    · exact hne storage (List.mem_singleton.mp hmem).symm
    · cases hmem
  have hsame : ∀ io' : DiskIo W, io'.submitted = io.submitted → ∃ more,
      io'.submitted = io.submitted ++ more ∧ ∀ storage, .closeStorage storage ∉ more :=
    fun io' h => ⟨[], by simp [h], by simp⟩
  cases call with
  | removeTorrent index => exact ⟨_, removeTorrent_submitted index, fun h => absurd rfl (h index)⟩
  | submit object storage job =>
    obtain ⟨more, heq, hnot⟩ := henqueue (.run object storage job) (by simp)
    exact ⟨more, heq, fun _ => hnot⟩
  | releaseFiles storage =>
    obtain ⟨more, heq, hnot⟩ := henqueue (.release storage) (by simp)
    exact ⟨more, heq, fun _ => hnot⟩
  | clearPiece piece =>
    obtain ⟨more, heq, hnot⟩ := henqueue (.clearPiece piece) (by simp)
    exact ⟨more, heq, fun _ => hnot⟩
  | newTorrent params =>
    have hnew : (io.call E reuse (.newTorrent params)).2 = (io.newTorrent E params).2 := by
      simp only [DiskIo.call]
      rcases io.newTorrent E params with ⟨_ | _, io'⟩ <;> rfl
    obtain ⟨more, heq, hnot⟩ := hsame _ (newTorrent_submitted E io params)
    exact ⟨more, by rw [hnew, heq], fun _ => hnot⟩
  | findStorage storage =>
    obtain ⟨more, heq, hnot⟩ := hsame io rfl
    exact ⟨more, heq, fun _ => hnot⟩
  | abort =>
    obtain ⟨more, heq, hnot⟩ := hsame (io.call E reuse .abort).2 rfl
    exact ⟨more, heq, fun _ => hnot⟩
  | work =>
    obtain ⟨more, heq, hnot⟩ := hsame (io.call E reuse .work).2 (work_submitted E reuse)
    exact ⟨more, heq, fun _ => hnot⟩

theorem run_submitted (io : DiskIo W) (calls : List Call) :
    ∃ more, (io.run E reuse calls).2.submitted = io.submitted ++ more := by
  induction calls generalizing io with
  | nil => exact ⟨[], by simp [DiskIo.run]⟩
  | cons call rest ih =>
    obtain ⟨first, hfirst, -⟩ := call_submitted E reuse io call
    obtain ⟨more, hmore⟩ := ih (io.call E reuse call).2
    exact ⟨first ++ more, by rw [DiskIo.run, hmore, hfirst, List.append_assoc]⟩

end Calls

end DiskIo

/-- **Storage slots are never confused.** After any history of calls the free list is the empty
    slots, each once. A further `new_torrent` throws and leaves both tables alone, or stores an
    object that was never stored before in a slot that was empty. `find_storage` gives the object
    created last in the slot, unless it has been removed. A removal that finds a torrent while
    the queue accepts submits one `close_storage`, before all that is submitted later; nothing
    else ever submits one. -/
theorem slots_never_confused (E : Env W) (reuse : Bool) (w : W) (filePoolSize : Int)
    (calls : List Call) :
    let history := (DiskIo.start w filePoolSize).run E reuse calls
    let io := history.2
    (io.freeStorage.Nodup ∧ ∀ index, index ∈ io.freeStorage ↔ io.torrents[index]? = some none) ∧
    (∀ params, (∃ e, (io.newTorrent E params).1 = .error e ∧
        (io.newTorrent E params).2.torrents = io.torrents ∧
        (io.newTorrent E params).2.freeStorage = io.freeStorage) ∨
      ∃ index, (io.newTorrent E params).1 = .ok index ∧ io.findStorage index = none ∧
        (io.newTorrent E params).2.findStorage index = some io.server.objects.length ∧
        ∀ index', .created io.server.objects.length index' ∉ history.1) ∧
    (∀ index, io.findStorage index = ownerAfter history.1 index) ∧
    (∀ index, (io.removeTorrent index).submitted = io.submitted ++
      if io.accepting = true ∧ io.findStorage index ≠ none then [.closeStorage index] else []) ∧
    (∀ call, (∀ index, call ≠ .removeTorrent index) → ∃ more,
      (io.call E reuse call).2.submitted = io.submitted ++ more ∧
        ∀ storage, .closeStorage storage ∉ more) ∧
    ∀ index later, ∃ more, ((io.removeTorrent index).run E reuse later).2.submitted =
      (io.removeTorrent index).submitted ++ more := by
  intro history io
  have htells : io.Tells history.1 := by
    simpa using (DiskIo.tells_start w filePoolSize).run E reuse calls
  refine ⟨⟨htells.sound.nodup, htells.sound.free⟩, fun params => ?_, htells.owner,
    DiskIo.removeTorrent_submitted, fun call hcall => ?_,
    fun index later => DiskIo.run_submitted E reuse _ later⟩
  · rcases DiskIo.newTorrent_spec E htells.sound params with ⟨e, hresult, hsame, -⟩ |
      ⟨index, hresult, -, hempty, -, hfind⟩
    · exact Or.inl ⟨e, hresult, hsame.torrents, hsame.freeStorage⟩
    · refine Or.inr ⟨index, hresult, hempty, ?_, fun index' hmem => ?_⟩
      · rw [hfind, if_pos rfl]
      · exact absurd (htells.older _ _ hmem) (Nat.lt_irrefl _)
  · obtain ⟨more, heq, hnot⟩ := DiskIo.call_submitted E reuse io call
    exact ⟨more, heq, hnot hcall⟩

end Saf
end Libtorrent4j
