import Libtorrent4j.Saf.Interference
import Libtorrent4j.Saf.Tenancy

/-!
# Failures stay at home

Several storages share the worker and the descriptor cache, and now everything may fail: each job
comes with scripts for the bridge and for the transfers. **Whatever fails for one storage, no
other one is touched by it**: its documents, its paths and its cache entries stay as they are,
and the same is reported to its client as if it were alone (`failures_stay_at_home`).

For a storage to be told the same its own bridge has to answer: whether a call that fails is made
at all may depend on what is cached, and that on the others. `Housed` is what every round keeps,
without any such condition.
-/

namespace Libtorrent4j
namespace Saf

open Lib Lib.Exec TorrentStorage

/-- A job of one of the storages, with what the bridge and the transfers will do meanwhile; or new
    settings. -/
inductive Round where
  | run (object : Nat) (job : Job) (bridge : List BridgeFault) (io : List IoFault)
  | settingsUpdated (filePoolSize : Int)

namespace Round

/-- The round is one of the storage's. -/
def isOf (k : Nat) : Round → Bool
  | .run object _ _ _ => object == k
  | .settingsUpdated _ => false

def bridge : Round → List BridgeFault
  | .run _ _ bridge _ => bridge
  | .settingsUpdated _ => []

end Round

variable (G : Host) (slot : Nat → Nat)

def Server.round (server : Server World) : Round → List (Nat × Option Report) × Server World
  | .run object job bridge io =>
      let server := { server with disk := server.disk.scripted bridge io }
      let r := server.perform G.env true (.run object (slot object) job)
      ([(object, r.1)], r.2)
  | .settingsUpdated filePoolSize =>
      ([], { server with disk := server.disk.settingsUpdated filePoolSize })

def Server.rounds (server : Server World) : List Round → List (Nat × Option Report) × Server World
  | [] => ([], server)
  | round :: rest =>
      let first := server.round G slot round
      let last := rounds first.2 rest
      (first.1 ++ last.1, last.2)

/-- `P` holds of the object, its torrent and the job in every round. -/
def EveryRound (P : Nat → TorrentStorage → Job → Prop) : Server World → List Round → Prop
  | _, [] => True
  | server, round :: rest =>
      (match round with
        | .run object job _ _ =>
            match server.objects[object]? with
            | some t => P object t job
            | none => True
        | .settingsUpdated _ => True) ∧
      EveryRound P (server.round G slot round).2 rest

/-- Every job is proper and stays within the paths of its storage. -/
def Behaves (F : Nat → Path → Prop) (object : Nat) (t : TorrentStorage) (job : Job) : Prop :=
  job.Within (F object) t ∧ Proper t job

variable {slot} {F : Nat → Path → Prop} {server server' : Server World} {object k : Nat}
  {t : TorrentStorage}

/-- All storages keep to paths of their own, where no two files share one. -/
structure Housed (slot : Nat → Nat) (F : Nat → Path → Prop) (server : Server World) : Prop
    extends Fine slot F server where
  allApart : ∀ (object : Nat) t, server.objects[object]? = some t → AllApart t

theorem housed_start
    (hreach : ∀ (object : Nat) t, server.objects[object]? = some t → t.Reachable)
    (hapart : ∀ (object : Nat) t, server.objects[object]? = some t → AllApart t)
    (hused : ∀ (object : Nat) t, server.objects[object]? = some t →
      ∀ path ∈ t.usedPaths, F object path)
    (hcoherent : Coherent (keysFor slot server.objects) server.disk) : Housed slot F server :=
  ⟨⟨fun object t hobject => (hapart object t hobject).apart,
    fun object t hobject _ hi => (hreach object t hobject).rooted hi, hused, hcoherent⟩, hapart⟩

theorem EveryRound.job {P : Nat → TorrentStorage → Job → Prop} {job : Job}
    {bridge : List BridgeFault} {io : List IoFault} {rest : List Round}
    (h : EveryRound G slot P server (.run object job bridge io :: rest))
    (hobject : server.objects[object]? = some t) : P object t job := by
  have hfirst := h.1
  dsimp only at hfirst
  rwa [hobject] at hfirst

/-- The report of a job and the storages after it. -/
theorem Server.round_run (hobject : server.objects[object]? = some t) (job : Job)
    (bridge : List BridgeFault) (io : List IoFault) :
    let r := runJob G.env true (slot object) job
      { torrent := t, disk := server.disk.scripted bridge io }
    server.round G slot (.run object job bridge io) =
      ([(object, some r.1)],
        { disk := r.2.disk, objects := server.objects.set object r.2.torrent }) := by
  simp only [Server.round, Server.perform, hobject]

namespace Housed

variable (hslot : Function.Injective slot) (hF : ∀ k l path, F k path → F l path → k = l)

theorem scripted (h : Housed slot F server) (bridge : List BridgeFault) (io : List IoFault) :
    Housed slot F { server with disk := server.disk.scripted bridge io } :=
  ⟨⟨h.apart, h.rooted, h.within, h.coherent.scripted bridge io⟩, h.allApart⟩

theorem settingsUpdated (h : Housed slot F server) (filePoolSize : Int) :
    Housed slot F { server with disk := server.disk.settingsUpdated filePoolSize } :=
  ⟨h.toFine.settingsUpdated filePoolSize, h.allApart⟩

include hslot hF

theorem tenancy (h : Housed slot F server) (hobject : server.objects[object]? = some t) :
    Tenancy (keysFor slot server.objects) (slot object) { torrent := t, disk := server.disk } :=
  ⟨h.coherent, keysFor_own hslot hobject, h.toFine.clear hF (h.within object t hobject),
    h.allApart object t hobject, h.rooted object t hobject⟩

/-- **One job**, whatever fails in it: all storages are housed as before, and nothing is touched
    that is not the storage's. -/
theorem run (h : Housed slot F server) (hobject : server.objects[object]? = some t) {job : Job}
    (hjob : Behaves F object t job) (bridge : List BridgeFault) (io : List IoFault) :
    let r := server.round G slot (.run object job bridge io)
    Housed slot F r.2 ∧ r.2.disk.world.validate = server.disk.world.validate ∧
      (∀ path, ¬ F object path → r.2.disk.tree path = server.disk.tree path) ∧
      ∀ other, other ≠ object → r.2.objects[other]? = server.objects[other]? := by
  obtain ⟨hwithin, hproper⟩ := hjob
  have hlt : object < server.objects.length := (List.getElem?_eq_some_iff.mp hobject).1
  have htenancy := (h.tenancy hslot hF hobject).scripted bridge io
  have hstep := runJob_step G.env true (slot object) job
    { torrent := t, disk := server.disk.scripted bridge io }
  have hwithin' := hwithin.step (h.within object t hobject) hstep
  have hclear' := h.toFine.clear hF hwithin'
  have hleaves := htenancy.leaves G (h.within object t hobject) hproper hwithin hclear'
  have hafter := htenancy.after G hproper hleaves hclear'
  simp only [Server.round_run G hobject]
  refine ⟨⟨h.toFine.set hslot hlt hafter.apart.apart hafter.rooted hwithin' hafter.coherent,
    fun other u hat => ?_⟩, hleaves.kept.validate, hleaves.frame, fun other hne => ?_⟩
  · by_cases heq : other = object
    · subst heq
      rw [List.getElem?_set_self hlt] at hat
      obtain rfl := Option.some.inj hat
      exact hafter.apart
    · rw [List.getElem?_set_ne (Ne.symm heq)] at hat
      exact h.allApart other u hat
  · exact List.getElem?_set_ne (Ne.symm hne)

/-- **One round.** -/
theorem round (h : Housed slot F server) {round : Round} {rest : List Round}
    (hround : EveryRound G slot (Behaves F) server (round :: rest)) :
    Housed slot F (server.round G slot round).2 := by
  cases round with
  | settingsUpdated filePoolSize => exact h.settingsUpdated filePoolSize
  | run object job bridge io =>
    cases hobject : server.objects[object]? with
    | none =>
      simp only [Server.round, Server.perform, hobject]
      exact h.scripted bridge io
    | some t => exact (h.run G hslot hF hobject (hround.job G hobject) bridge io).1

/-- **Whole runs.** -/
theorem rounds (h : Housed slot F server) {rounds : List Round}
    (hrounds : EveryRound G slot (Behaves F) server rounds) :
    Housed slot F (server.rounds G slot rounds).2 := by
  induction rounds generalizing server with
  | nil => exact h
  | cons round rest ih => exact ih (h.round G hslot hF hrounds) hrounds.2

end Housed

/-! ## Beside a run without the others -/

section Beside

variable (hslot : Function.Injective slot) (hF : ∀ k l path, F k path → F l path → k = l)

include hslot hF

/-- Another storage's job moves one of the two runs, and leaves the storage's paths alone. -/
theorem Beside.fails (h : Beside slot F k server server') (hhoused : Housed slot F server)
    {l : Nat} (hne : l ≠ k) {job : Job}
    (hjob : ∀ t, server.objects[l]? = some t → Behaves F l t job) (bridge : List BridgeFault)
    (io : List IoFault) :
    Beside slot F k (server.round G slot (.run l job bridge io)).2 server' := by
  cases hobject : server.objects[l]? with
  | none =>
    simp only [Server.round, Server.perform, hobject]
    exact ⟨(hhoused.scripted bridge io).toFine, h.fine', h.same, h.validate, h.tree⟩
  | some t =>
    obtain ⟨hhoused', hvalidate, hframe, hothers⟩ :=
      hhoused.run G hslot hF hobject (hjob t hobject) bridge io
    refine ⟨hhoused'.toFine, h.fine', (hothers k (Ne.symm hne)).trans h.same,
      hvalidate.trans h.validate, fun path hpath => ?_⟩
    have hout : ¬ F l path := fun hl => hne (hF l k path hl hpath)
    exact (hframe path hout).trans (h.tree path hpath)

/-- The whole run beside the storage's own rounds. -/
theorem Beside.rounds (h : Beside slot F k server server') (hhoused : Housed slot F server)
    {rounds : List Round} (hrounds : EveryRound G slot (Behaves F) server rounds)
    (hanswers : ∀ job bridge io, .run k job bridge io ∈ rounds → bridge = []) :
    reportsOf k (server.rounds G slot rounds).1 =
        reportsOf k (server'.rounds G slot (rounds.filter (Round.isOf k))).1 ∧
      Beside slot F k (server.rounds G slot rounds).2
        (server'.rounds G slot (rounds.filter (Round.isOf k))).2 := by
  induction rounds generalizing server server' with
  | nil => exact ⟨rfl, h⟩
  | cons round rest ih =>
    have hrest : ∀ job bridge io, .run k job bridge io ∈ rest → bridge = [] :=
      fun job bridge io hmem => hanswers job bridge io (List.mem_cons_of_mem _ hmem)
    have hhoused' := hhoused.round G hslot hF hrounds
    cases round with
    | settingsUpdated filePoolSize =>
      exact ih (h.settingsUpdated filePoolSize) hhoused' hrounds.2 hrest
    | run object job bridge io =>
      by_cases heq : object = k
      · subst heq
        -- on an answering bridge the storage is told the same in both runs
        obtain rfl : bridge = [] := hanswers job bridge io List.mem_cons_self
        obtain ⟨hreport, hbeside⟩ : (server.round G slot (.run object job [] io)).1 =
            (server'.round G slot (.run object job [] io)).1 ∧
              Beside slot F object (server.round G slot (.run object job [] io)).2
                (server'.round G slot (.run object job [] io)).2 :=
          h.job G hslot hF fun t hobject =>
            have hjob := hrounds.job G hobject
            ⟨hjob.1, (hhoused.allApart object t hobject).keepsDocuments hjob.2.keepsAllApart⟩
        obtain ⟨hreports, hbeside⟩ := ih hbeside hhoused' hrounds.2 hrest
        have hown : Round.isOf object (.run object job [] io) = true := by simp [Round.isOf]
        rw [List.filter_cons_of_pos hown]
        refine ⟨?_, hbeside⟩
        simp only [Server.rounds]
        rw [reportsOf_append, reportsOf_append, hreport, hreports]
      · have hother : ¬ Round.isOf k (.run object job bridge io) = true := by
          simpa [Round.isOf] using heq
        obtain ⟨hreports, hbeside⟩ := ih (h.fails G hslot hF hhoused heq
          (fun t hobject => hrounds.job G hobject) bridge io) hhoused' hrounds.2 hrest
        rw [List.filter_cons_of_neg hother]
        refine ⟨?_, hbeside⟩
        have hnone : reportsOf k (server.round G slot (.run object job bridge io)).1 = [] := by
          simp [Server.round, reportsOf, heq]
        simp only [Server.rounds]
        rw [reportsOf_append, hnone, List.nil_append, hreports]

/-- **Failures stay at home.** Storages with paths of their own share the worker and the cache, and
    any call may fail for any of them. A storage whose own bridge calls are answered is reported
    the same as in a run of its jobs alone, whatever fails for the others, and the documents at
    its paths end up the same. A storage that runs no jobs has them as they were. -/
theorem failures_stay_at_home
    (hreach : ∀ (object : Nat) t, server.objects[object]? = some t → t.Reachable)
    (hapart : ∀ (object : Nat) t, server.objects[object]? = some t → AllApart t)
    (hused : ∀ (object : Nat) t, server.objects[object]? = some t →
      ∀ path ∈ t.usedPaths, F object path)
    (hcoherent : Coherent (keysFor slot server.objects) server.disk) {rounds : List Round}
    (hrounds : EveryRound G slot (Behaves F) server rounds) (k : Nat)
    (hanswers : ∀ job bridge io, .run k job bridge io ∈ rounds → bridge = []) :
    let all := server.rounds G slot rounds
    let own := server.rounds G slot (rounds.filter (Round.isOf k))
    reportsOf k all.1 = reportsOf k own.1 ∧
      ∀ path, F k path → all.2.disk.tree path = own.2.disk.tree path := by
  intro all own
  have hhoused := housed_start hreach hapart hused hcoherent
  have hself : Beside slot F k server server :=
    ⟨hhoused.toFine, hhoused.toFine, rfl, rfl, fun _ _ => rfl⟩
  obtain ⟨hreports, hbeside⟩ := hself.rounds G hslot hF hhoused hrounds hanswers
  exact ⟨hreports, hbeside.tree⟩

end Beside

instance (F : Nat → Path → Prop) [∀ object path, Decidable (F object path)] (object : Nat)
    (t : TorrentStorage) (job : Job) : Decidable (Behaves F object t job) :=
  inferInstanceAs (Decidable (job.Within (F object) t ∧ Proper t job))

instance (P : Nat → TorrentStorage → Job → Prop) [∀ object t job, Decidable (P object t job)] :
    (server : Server World) → (rounds : List Round) → Decidable (EveryRound G slot P server rounds)
  | _, [] => isTrue trivial
  | server, .settingsUpdated filePoolSize :: rest =>
      have := instDecidableEveryRound P (server.round G slot (.settingsUpdated filePoolSize)).2 rest
      inferInstanceAs (Decidable (True ∧ _))
  | server, .run object job bridge io :: rest =>
      have := instDecidableEveryRound P (server.round G slot (.run object job bridge io)).2 rest
      match h : server.objects[object]? with
      | some t => decidable_of_iff (P object t job ∧
          EveryRound G slot P (server.round G slot (.run object job bridge io)).2 rest)
          (by rw [EveryRound, h])
      | none => decidable_of_iff (True ∧
          EveryRound G slot P (server.round G slot (.run object job bridge io)).2 rest)
          (by rw [EveryRound, h])

namespace Neighbours

open Restart

theorem allApart_both :
    ∀ (object : Nat) t, both.objects[object]? = some t → AllApart t :=
  of_both allApart_params ⟨by decide +kernel, by decide +kernel⟩

def denied : BridgeFault := .fail ⟨eio, eio_pos⟩

/-- The second storage's jobs fail, some at their first call, between those of the first one. -/
def failing : List Round :=
  [.run 1 (.read { piece := 0, start := 0, length := 1 }) [] [],
    .run 0 (.write { piece := 0, start := 0, length := 3 } [7, 8, 9]) [] [.short 0, .interrupted],
    .run 1 (.setFilePriority [0]) [.ok, .ok, denied] [],
    .run 1 (.write { piece := 0, start := 0, length := 1 } [9]) [denied] [],
    .settingsUpdated 3,
    .run 1 (.deleteFiles true true) [denied, denied] [],
    .run 0 (.read { piece := 0, start := 0, length := 3 }) [] []]

theorem answered_failing : ∀ job bridge io, Round.run 0 job bridge io ∈ failing → bridge = [] := by
  intro job bridge io hmem
  have hall : ∀ round ∈ failing, round.isOf 0 = true → round.bridge = [] := by decide +kernel
  exact hall _ hmem rfl

theorem failures_stay_at_home_denied :
    reportsOf 0 (both.rounds host id failing).1 =
        reportsOf 0 (both.rounds host id (failing.filter (Round.isOf 0))).1 ∧
      reportsOf 0 (both.rounds host id failing).1 =
        [some (.written none), some (.read [7, 8, 9] none)] := by
  refine ⟨?_, by decide +kernel⟩
  exact (failures_stay_at_home host Function.injective_id
    (F := fun object path => path ∈ footprint object) footprints_disjoint reachable_both
    allApart_both used_both ((coherent_fresh (World.sound_holding _) _).settingsUpdated 1)
    (by decide +kernel) 0 answered_failing).1

end Neighbours

end Saf
end Libtorrent4j
