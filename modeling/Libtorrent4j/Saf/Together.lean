import Libtorrent4j.Saf.Acknowledged
import Libtorrent4j.Saf.Failures

/-!
# Nothing acknowledged is lost, with others around

The worker and the descriptor cache are shared: between two jobs of a torrent there are jobs of
others, which have entries of the first one evicted, documents made and removed, and settings
changed, and any of them may fail as any of its own may. What a client of the first one has
concluded from its own reports **stays right nevertheless**, as long as each torrent has paths
of its own.

A job of the torrent's is one more job for `Knows`, with the keys of all storages. A job of
another one leaves the torrent's documents alone, and with them every byte of its array.
-/

namespace Libtorrent4j
namespace Saf

open Lib Lib.Exec TorrentStorage

variable (G : Host) (slot : Nat → Nat)

/-- What the next job of storage `k` reports, with these faults. -/
def Server.Answers (k : Nat) (server : Server World) (bridge : List BridgeFault)
    (io : List IoFault) (job : Job) (report : Report) : Prop :=
  (server.round G slot (.run k job bridge io)).1 = [(k, some report)]

/-- What the client of storage `k` concludes from a round: it sees its own jobs and their
    reports. -/
def conclude (k : Nat) (server : Server World) (round : Round) (known : Memory Byte) :
    Memory Byte :=
  match round, server.objects[k]?, reportsOf k (server.round G slot round).1 with
  | .run _ job _ _, some t, [some report] => t.learn known job report
  | _, _, _ => known

def recollect (k : Nat) : Server World → List Round → Memory Byte → Memory Byte
  | _, [], known => known
  | server, round :: rest, known =>
      recollect k (server.round G slot round).2 rest (conclude G slot k server round known)

variable {slot} {F : Nat → Path → Prop} {server : Server World} {k : Nat} {known : Memory Byte}

/-- What is known of storage `k` is in its array. -/
structure Recalls (slot : Nat → Nat) (F : Nat → Path → Prop) (k : Nat) (known : Memory Byte)
    (server : Server World) : Prop extends Housed slot F server where
  below : ∀ t, server.objects[k]? = some t → known.Below (t.byteAt server.disk.tree)

namespace Recalls

variable (hslot : Function.Injective slot) (hF : ∀ k l path, F k path → F l path → k = l)

include hslot hF

theorem knows (h : Recalls slot F k known server) {t : TorrentStorage}
    (hobject : server.objects[k]? = some t) :
    Knows (keysFor slot server.objects) (slot k) known { torrent := t, disk := server.disk } :=
  ⟨h.toHoused.tenancy hslot hF hobject, h.below t hobject⟩

/-- The storage's own job. -/
theorem own (h : Recalls slot F k known server) {t : TorrentStorage}
    (hobject : server.objects[k]? = some t) {job : Job} (hjob : Behaves F k t job)
    (bridge : List BridgeFault) (io : List IoFault) :
    Recalls slot F k (conclude G slot k server (.run k job bridge io) known)
      (server.round G slot (.run k job bridge io)).2 := by
  refine ⟨(h.toHoused.run G hslot hF hobject hjob bridge io).1, fun t' hobject' => ?_⟩
  have hknows := h.knows hslot hF hobject
  have hscripted : Knows (keysFor slot server.objects) (slot k) known
      { torrent := t, disk := server.disk.scripted bridge io } :=
    ⟨hknows.toTenancy.scripted bridge io, hknows.below⟩
  have hstep := runJob_step G.env true (slot k) job
    { torrent := t, disk := server.disk.scripted bridge io }
  have hwithin' := hjob.1.step (h.within k t hobject) hstep
  have hlearnt := (hscripted.step G hjob.2 (h.toFine.clear hF hwithin')).below
  have hconclude : conclude G slot k server (.run k job bridge io) known =
      t.learn known job (runJob G.env true (slot k) job
        { torrent := t, disk := server.disk.scripted bridge io }).1 := by
    simp [conclude, hobject, Server.round_run G hobject, reportsOf]
  have hlt : k < server.objects.length := (List.getElem?_eq_some_iff.mp hobject).1
  rw [Server.round_run G hobject] at hobject' ⊢
  rw [List.getElem?_set_self hlt] at hobject'
  obtain rfl := Option.some.inj hobject'
  rw [hconclude]
  exact hlearnt

/-- A job of another storage, from which nothing is concluded. -/
theorem other (h : Recalls slot F k known server) {l : Nat} (hne : l ≠ k) {u : TorrentStorage}
    (hobject : server.objects[l]? = some u) {job : Job} (hjob : Behaves F l u job)
    (bridge : List BridgeFault) (io : List IoFault) :
    Recalls slot F k known (server.round G slot (.run l job bridge io)).2 := by
  obtain ⟨hhoused, -, hframe, hothers⟩ := h.toHoused.run G hslot hF hobject hjob bridge io
  refine ⟨hhoused, fun t hthere => ?_⟩
  rw [hothers k (Ne.symm hne)] at hthere
  rw [byteAt_frame fun path hpath => hframe path fun hl =>
    hne (hF l k path hl (h.within k t hthere path hpath))]
  exact h.below t hthere

/-- **One round**, whoever has it. -/
theorem step (h : Recalls slot F k known server) {round : Round} {rest : List Round}
    (hround : EveryRound G slot (Behaves F) server (round :: rest)) :
    Recalls slot F k (conclude G slot k server round known) (server.round G slot round).2 := by
  cases round with
  | settingsUpdated filePoolSize =>
    exact ⟨h.toHoused.settingsUpdated filePoolSize, h.below⟩
  | run object job bridge io =>
    by_cases hown : object = k
    · subst hown
      cases hobject : server.objects[object]? with
      | none =>
        -- there is no such storage
        have hsilent : conclude G slot object server (.run object job bridge io) known = known := by
          simp [conclude, hobject]
        rw [hsilent]
        simp only [Server.round, Server.perform, hobject]
        exact ⟨h.toHoused.scripted bridge io, h.below⟩
      | some t => exact h.own G hslot hF hobject (hround.job G hobject) bridge io
    · have hsilent : conclude G slot k server (.run object job bridge io) known = known := by
        simp [conclude, Server.round, reportsOf, hown]
      rw [hsilent]
      cases hobject : server.objects[object]? with
      | none =>
        simp only [Server.round, Server.perform, hobject]
        exact ⟨h.toHoused.scripted bridge io, h.below⟩
      | some u => exact h.other G hslot hF hown hobject (hround.job G hobject) bridge io

/-- **Whole runs.** -/
theorem run (h : Recalls slot F k known server) {rounds : List Round}
    (hrounds : EveryRound G slot (Behaves F) server rounds) :
    Recalls slot F k (recollect G slot k server rounds known) (server.rounds G slot rounds).2 := by
  induction rounds generalizing server known with
  | nil => exact h
  | cons round rest ih => exact ih (h.step G hslot hF hrounds) hrounds.2

/-- What is known is what is answered. -/
theorem answers (h : Recalls slot F k known server) {t : TorrentStorage}
    (hobject : server.objects[k]? = some t) :
    AnswersAs G known t (server.Answers G slot k) := by
  have hsame : server.Answers G slot k =
      Sys.Answers G (slot k) { torrent := t, disk := server.disk } := by
    funext bridge io job report
    simp [Server.Answers, Sys.Answers, Server.round_run G hobject]
  rw [hsame]
  exact (h.knows hslot hF hobject).answers G

end Recalls

/-- **Nothing acknowledged is lost among others.** Storages with paths of their own share the
    worker and the cache. However their jobs alternate and whatever fails for any of them, a
    storage answers as the reports of its own jobs have made its client expect. -/
theorem acknowledged_among_others (hslot : Function.Injective slot)
    (hF : ∀ k l path, F k path → F l path → k = l)
    (hreach : ∀ (object : Nat) t, server.objects[object]? = some t → t.Reachable)
    (hapart : ∀ (object : Nat) t, server.objects[object]? = some t → AllApart t)
    (hused : ∀ (object : Nat) t, server.objects[object]? = some t →
      ∀ path ∈ t.usedPaths, F object path)
    (hcoherent : Coherent (keysFor slot server.objects) server.disk) {rounds : List Round}
    (hrounds : EveryRound G slot (Behaves F) server rounds) {t : TorrentStorage}
    (hobject : (server.rounds G slot rounds).2.objects[k]? = some t) :
    AnswersAs G (recollect G slot k server rounds Memory.blank) t
      ((server.rounds G slot rounds).2.Answers G slot k) := by
  have hhoused := housed_start hreach hapart hused hcoherent
  have hstart : Recalls slot F k Memory.blank server :=
    ⟨hhoused, fun t _ => Memory.blank_below _⟩
  exact (hstart.run G hslot hF hrounds).answers G hslot hF hobject

namespace Neighbours

open Restart

/-- The first storage writes `a` and renames it; between and before, jobs of both fail. -/
def writtenAmongOthers : List Round :=
  [.run 0 (.write { piece := 0, start := 0, length := 3 } [7, 8, 9]) [] [.short 0, .interrupted],
    .run 1 (.write { piece := 0, start := 0, length := 1 } [9]) [denied] [],
    .settingsUpdated 5,
    .run 0 (.setFilePriority [0]) [.ok, denied] [],
    .run 1 (.deleteFiles true true) [denied] [],
    .run 0 (.renameFile 0 (str "c")) [] []]

def afterOthers : Server World := (both.rounds host id writtenAmongOthers).2

theorem isSome_afterOthers : (afterOthers.objects[0]?).isSome = true := by decide +kernel

theorem acknowledged_among_others_renamed :
    (afterOthers.round host id (.run 0 (.read { piece := 0, start := 0, length := 3 }) [] [])).1 =
        [(0, some (.read [7, 8, 9] none))] ∧
      (recollect host id 0 both writtenAmongOthers Memory.blank).Agrees 0 [7, 8, 9] := by
  have hread : (afterOthers.round host id
      (.run 0 (.read { piece := 0, start := 0, length := 3 }) [] [])).1 =
        [(0, some (.read [7, 8, 9] none))] := by decide +kernel
  have hrounds : EveryRound host id (Behaves fun object path => path ∈ footprint object) both
      writtenAmongOthers := by decide +kernel
  have hanswers := acknowledged_among_others host Function.injective_id footprints_disjoint
    reachable_both allApart_both used_both
    ((coherent_fresh (World.sound_holding _) _).settingsUpdated 1) hrounds
    (Option.some_get isSome_afterOthers).symm
  have hpos : Request.pos ((afterOthers.objects[0]?).get isSome_afterOthers).files
      { piece := 0, start := 0, length := 3 } = 0 := by decide +kernel
  have hagrees := hanswers.read [] [] { piece := 0, start := 0, length := 3 } (by decide +kernel)
    [7, 8, 9] none hread
  rw [hpos] at hagrees
  exact ⟨hread, hagrees⟩

end Neighbours

end Saf
end Libtorrent4j
