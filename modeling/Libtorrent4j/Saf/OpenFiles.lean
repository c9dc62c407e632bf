import Libtorrent4j.Saf.Failures
import Libtorrent4j.Saf.Pool

/-!
# The status of open files

`get_status` lists what is open of a torrent, straight from the pool. The pool knows slots,
numbers and paths, so that the list is one of **files of the torrent** is a fact about runs: every
job has to take its entries out of the pool before it gives a file another path, and an entry of
a slot's former owner has to be gone before the slot is used again.

`last_use_time` is left out: it is the time at which the clock was read.
-/

namespace Libtorrent4j
namespace Saf

open Lib Lib.Exec

/-- The `file_open_mode` of a status. -/
inductive OpenMode where
  | readOnly | readWrite
deriving DecidableEq, Repr

structure OpenFileState where
  file : Nat
  mode : OpenMode
deriving DecidableEq, Repr

/-- What is listed of an entry; the part file is not. -/
def OpenDescriptor.status (storage : Nat) (entry : OpenDescriptor) : Option OpenFileState :=
  if entry.storage ≠ storage ∨ entry.file < 0 then none
  else some {
    file := entry.file.toNat
    mode := if entry.writable then .readWrite else .readOnly }

def getStatus {W : Type} (d : Disk W) (storage : Nat) : List OpenFileState :=
  d.descriptors.filterMap (·.status storage)

theorem status_eq_some {storage : Nat} {entry : OpenDescriptor} {state : OpenFileState} :
    entry.status storage = some state ↔ entry.storage = storage ∧ entry.file = state.file ∧
      (entry.writable = true ↔ state.mode = .readWrite) := by
  obtain ⟨file, mode⟩ := state
  unfold OpenDescriptor.status
  split
  · rename_i hskipped
    refine ⟨nofun, fun ⟨hstorage, hfile, _⟩ => ?_⟩
    rcases hskipped with hne | hneg
    · exact absurd hstorage hne
    · dsimp only at hfile
      omega
  · rename_i hlisted
    push Not at hlisted
    have hnat : entry.file.toNat = file ↔ entry.file = file := by omega
    cases hwritable : entry.writable <;> cases mode <;> simp [hlisted.1, hnat]

section Status

variable {W : Type} {d : Disk W} {storage : Nat}

/-- A status lists no file twice where a slot has one path for a file. -/
theorem nodup_getStatus (h : Neat d)
    (hpath : ∀ entry ∈ d.descriptors, ∀ other ∈ d.descriptors, entry.storage = storage →
      other.storage = storage → entry.file = other.file → entry.path = other.path) :
    ((getStatus d storage).map (·.file)).Nodup := by
  refine List.pairwise_map.mpr (List.pairwise_filterMap.mpr ?_)
  refine (List.pairwise_map.mp h.keys).imp_of_mem
    fun {a b} ha hb hne state hstate state' hstate' heq => ?_
  obtain ⟨hstorage, hfile, -⟩ := status_eq_some.mp hstate
  obtain ⟨hstorage', hfile', -⟩ := status_eq_some.mp hstate'
  have hsame : a.file = b.file := by
    rw [hfile, hfile', heq]
  refine hne ?_
  rw [OpenDescriptor.key, OpenDescriptor.key, hstorage, hstorage', hsame,
    hpath a ha b hb hstorage hstorage' hsame]

theorem getStatus_eq_nil (h : ∀ entry ∈ d.descriptors, entry.storage ≠ storage) :
    getStatus d storage = [] := by
  rw [getStatus, List.filterMap_eq_nil_iff]
  intro entry hentry
  exact if_pos (Or.inl (h entry hentry))

end Status

/-! ## Jobs that leave nothing open -/

/-- The jobs that end with nothing of their torrent open. -/
def Job.leavesNothing : Job → Bool
  | .releaseFiles | .stopTorrent | .deleteFiles _ _ => true
  | _ => false

section Nothing

variable {W : Type} (E : Env W) (storage : Nat)

/-- Nothing of the slot is open. -/
def Disk.Closed (d : Disk W) : Prop := ∀ entry ∈ d.descriptors, entry.storage ≠ storage

theorem closeStorage_closed {F : Type} (d : Disk W) :
    Disk.Closed storage ((closeStorage E storage : Exec (Disk W) F Unit) d).2 := by
  refine (wp_state (P := Disk.Closed storage)).mp ?_
  rw [closeStorage, closeWhere, wp_bind, wp_get, wp_bind]
  refine wp_forEach_inv (fun _ => True) trivial (fun entry _ d₁ _ => ?_) fun d₁ _ => ?_
  · simp [callClose]
  · intro entry hentry
    simpa using (List.mem_filter.mp hentry).2

theorem runJob_closed {job : Job} (hjob : job.leavesNothing = true) (s : Sys W) :
    Disk.Closed storage (runJob E true storage job s).2.disk := by
  cases job with
  | releaseFiles => exact closeStorage_closed E storage s.disk
  | stopTorrent => exact closeStorage_closed E storage s.disk
  | deleteFiles files part =>
    -- what follows the closing opens nothing
    have hremove : ∀ path file,
        Keeps (Disk.Closed (W := W) storage) (removeLater E path file) :=
      fun path file => keeps_bind (fun _ hd => hd) fun _ => keeps_ret _
    suffices hafter : ∀ d : Disk W,
        Disk.Closed storage (asyncDeleteFiles E s.torrent storage files part d).2 from hafter s.disk
    intro d
    refine (wp_state (P := Disk.Closed storage)).mp ?_
    rw [asyncDeleteFiles, wp_bind]
    refine wp_mono (wp_state.mpr (closeStorage_closed E storage d)) (fun _ d₁ hd₁ => ?_)
      fun _ _ hd => hd
    refine Keeps.wp (keeps_bind (keeps_mapEach fun _ _ => hremove _ _) fun _ =>
      keeps_bind (keeps_mapEach fun _ _ => hremove _ _) fun _ => ?_) hd₁
    split
    · exact keeps_throw _
    · exact keeps_ret _
  | _ => cases hjob

end Nothing

/-! ## Runs -/

section Runs

variable (G : Host) {slot : Nat → Nat} {F : Nat → Path → Prop} {server : Server World}
  (hslot : Function.Injective slot) (hF : ∀ k l path, F k path → F l path → k = l)

theorem Neat.round (h : Neat server.disk) (round : Round) :
    Neat (server.round G slot round).2.disk := by
  have hscripted : ∀ bridge io, Neat (server.disk.scripted bridge io) := fun bridge io =>
    h.sublist (List.Sublist.refl _) rfl
  cases round with
  | settingsUpdated filePoolSize => exact h.sublist (List.Sublist.refl _) rfl
  | run object job bridge io =>
    simp only [Server.round, Server.perform]
    split
    · exact hscripted bridge io
    · exact (poolInvariant_neat G.env).runJob _ job (hscripted bridge io)

theorem Neat.rounds (h : Neat server.disk) (rounds : List Round) :
    Neat (server.rounds G slot rounds).2.disk := by
  induction rounds generalizing server with
  | nil => exact h
  | cons round rest ih => exact ih (h.round G round)

include hslot hF

/-- **A status lists the torrent's files**: each of them once, none that is a pad file, and each
    with a descriptor that refers to the path the file has now and is open in the mode listed.
    Nothing is listed after the files have been released, the torrent stopped or its files
    deleted. -/
theorem status_lists_open_files
    (hreach : ∀ (object : Nat) t, server.objects[object]? = some t → t.Reachable)
    (hapart : ∀ (object : Nat) t, server.objects[object]? = some t → AllApart t)
    (hused : ∀ (object : Nat) t, server.objects[object]? = some t →
      ∀ path ∈ t.usedPaths, F object path)
    (hcoherent : Coherent (keysFor slot server.objects) server.disk) (hneat : Neat server.disk)
    {rounds : List Round} (hrounds : EveryRound G slot (Behaves F) server rounds)
    {k : Nat} {t : TorrentStorage}
    (hobject : (server.rounds G slot rounds).2.objects[k]? = some t) :
    let after := (server.rounds G slot rounds).2
    ((getStatus after.disk (slot k)).map (·.file)).Nodup ∧
      (∀ state ∈ getStatus after.disk (slot k),
        state.file < t.numFiles ∧ t.files.padFileAt state.file = false ∧
          ∃ fd, after.disk.world.Refers fd (t.pathFor state.file)
            (decide (state.mode = .readWrite))) ∧
      ∀ job bridge io, job.leavesNothing = true →
        getStatus (after.round G slot (.run k job bridge io)).2.disk (slot k) = [] := by
  intro after
  have hstart := housed_start hreach hapart hused hcoherent
  have hfine := hstart.rounds G hslot hF hrounds
  have hneat' : Neat after.disk := hneat.rounds G rounds
  have hown := keysFor_own hslot hobject
  have hkey : ∀ entry ∈ after.disk.descriptors, entry.storage = slot k →
      t.keys (slot k) (slot k) entry.file entry.path := by
    intro entry hentry hstorage
    have := hfine.coherent.key entry hentry
    rw [hstorage] at this
    exact (hown _ _).mp this
  refine ⟨nodup_getStatus hneat' fun a ha b hb hsa hsb hfile => ?_, fun state hstate => ?_,
    fun job bridge io hjob => ?_⟩
  · -- a key of the torrent has one path for a file
    obtain ⟨-, ⟨hpart, hpath⟩ | ⟨i, hi, -, hfile', hpath⟩⟩ := hkey a ha hsa
    · obtain ⟨-, ⟨-, hpath'⟩ | ⟨j, -, -, hfile'', -⟩⟩ := hkey b hb hsb
      · rw [hpath, hpath']
      · omega
    · obtain ⟨-, ⟨hpart, -⟩ | ⟨j, -, -, hfile'', hpath'⟩⟩ := hkey b hb hsb
      · omega
      · obtain rfl : i = j := by omega
        rw [hpath, hpath']
  · obtain ⟨entry, hentry, hstatus⟩ := List.mem_filterMap.mp hstate
    obtain ⟨hstorage, hfile, hmode⟩ := status_eq_some.mp hstatus
    obtain ⟨-, ⟨hpart, -⟩ | ⟨i, hi, hpad, hfile', hpath⟩⟩ := hkey entry hentry hstorage
    · omega
    · obtain rfl : state.file = i := by omega
      have hrefers := hfine.coherent.current entry hentry
      have hwritable : decide (state.mode = .readWrite) = entry.writable := by
        cases hw : entry.writable <;> simp [← hmode, hw]
      rw [hpath, ← hwritable] at hrefers
      exact ⟨hi, hpad, entry.descriptor, hrefers⟩
  · refine getStatus_eq_nil ?_
    have hrun := runJob_closed G.env (slot k) hjob
      { torrent := t, disk := after.disk.scripted bridge io }
    rw [Server.round_run G hobject]
    exact hrun

end Runs

namespace Neighbours

open Restart TorrentStorage

/-- Both storages have files open; the second file of the first one is written, and a rename of it
    fails. -/
def opening : List Round :=
  [.settingsUpdated 5,
    .run 0 (.read { piece := 0, start := 0, length := 3 }) [] [],
    .run 1 (.read { piece := 0, start := 0, length := 1 }) [] [],
    .run 0 (.renameFile 1 (str "c")) [denied, denied] [],
    .run 0 (.write { piece := 0, start := 3, length := 1 } [8]) [] []]

def opened : Server World := (both.rounds host id opening).2

theorem isSome_opened : (opened.objects[0]?).isSome = true := by decide +kernel

theorem status_lists_open_files_both :
    getStatus opened.disk 0 = [⟨0, .readOnly⟩, ⟨1, .readWrite⟩] ∧
      ∀ files part bridge io, getStatus
        (opened.round host id (.run 0 (.deleteFiles files part) bridge io)).2.disk 0 = [] := by
  have hneat : Neat both.disk := ⟨List.nodup_nil, List.nodup_nil, nofun⟩
  have hrounds : EveryRound host id (Behaves fun object path => path ∈ footprint object) both
      opening := by
    decide +kernel
  obtain ⟨-, -, hnothing⟩ := status_lists_open_files host Function.injective_id
    footprints_disjoint reachable_both allApart_both used_both
    ((coherent_fresh (World.sound_holding _) _).settingsUpdated 1) hneat hrounds
    (Option.some_get isSome_opened).symm
  exact ⟨by decide +kernel, fun files part bridge io =>
    hnothing (.deleteFiles files part) bridge io rfl⟩

end Neighbours

end Saf
end Libtorrent4j
