import Libtorrent4j.Saf.Twins
import Libtorrent4j.Saf.Readable

/-!
# Torrents do not interfere

Several storages, each in a slot of its own, share the worker, the descriptor cache and its
limit. As long as each has paths of its own, **a storage cannot tell whether the others are
there**: its jobs report the same as in a run that executes them alone, and its documents end up
the same. What the others do to the cache changes which descriptors are open, never what a job
reads or writes.

The two runs are related by `Beside`: the storage is the same, and the disks are alike at its
paths. A job of another storage moves only one of the runs and stays outside these paths.
-/

namespace Libtorrent4j
namespace Saf

open Lib Lib.Exec TorrentStorage

/-- A job of one of the storages, with what the transfers will do meanwhile; or new settings. -/
inductive Turn where
  | run (object : Nat) (job : Job) (io : List IoFault)
  | settingsUpdated (filePoolSize : Int)

variable (G : Host) (slot : Nat → Nat)

/-- The worker's turn on a bridge that does not fail. -/
def Server.turn (server : Server World) : Turn → List (Nat × Option Report) × Server World
  | .run object job io =>
      let server := { server with disk := server.disk.scripted [] io }
      let r := server.perform G.env true (.run object (slot object) job)
      ([(object, r.1)], r.2)
  | .settingsUpdated filePoolSize =>
      ([], { server with disk := server.disk.settingsUpdated filePoolSize })

/-- The turns one after the other, with every report and whose it is. -/
def Server.turns (server : Server World) : List Turn → List (Nat × Option Report) × Server World
  | [] => ([], server)
  | turn :: rest =>
      let first := server.turn G slot turn
      let last := turns first.2 rest
      (first.1 ++ last.1, last.2)

/-- What is reported of one storage. -/
def reportsOf (object : Nat) (log : List (Nat × Option Report)) : List (Option Report) :=
  log.filterMap fun entry => if entry.1 = object then some entry.2 else none

/-- The jobs of one storage. -/
def Turn.jobOf (object : Nat) : Turn → Option (Job × List IoFault)
  | .run object' job io => if object' = object then some (job, io) else none
  | .settingsUpdated _ => none

/-- `P` holds of the object, its torrent and the job at every turn. -/
def EveryTurn (P : Nat → TorrentStorage → Job → Prop) : Server World → List Turn → Prop
  | _, [] => True
  | server, turn :: rest =>
      (match turn with
        | .run object job _ =>
            match server.objects[object]? with
            | some t => P object t job
            | none => True
        | .settingsUpdated _ => True) ∧
      EveryTurn P (server.turn G slot turn).2 rest

/-- The keys of all storages. -/
def keysFor (objects : List TorrentStorage) : Keys := fun slot' file path =>
  ∃ object t, slot' = slot object ∧ objects[object]? = some t ∧ t.keys slot' slot' file path

section KeepsDocuments

variable {t t' : TorrentStorage} {job : Job}

/-- Neither end of a rename is a key of another file, whether or not it is done. -/
theorem KeepsDocuments.spares {W : Type} {log : List (Event W)} {report : Report}
    (h : KeepsDocuments t job) (hstep : Step log t job report t') : job.Spares t t' := by
  cases hstep with
  | @renamed index name hlt hsafe =>
    intro i hi heq _
    obtain ⟨hold, hnew⟩ := h i hi heq hsafe
    obtain rfl := Int.ofNat.inj heq
    rw [t.renameFile_pathFor _ _ _ hi, if_pos rfl]
    exact ⟨hold, hnew⟩
  | notRenamed error =>
    intro i hi heq hsafe
    have hold := (h i hi heq hsafe).1
    exact ⟨hold, hold⟩
  | moved _ _ _ => trivial
  | notMoved error => trivial
  | prioritised _ => trivial
  | other hrename _ _ _ =>
    cases job with
    | renameFile index name => exact absurd rfl (hrename index name)
    | _ => trivial

end KeepsDocuments

/-! ## Storages with paths of their own -/

/-- Each storage keeps its own paths apart and within its footprint `F`, and the cache is
    coherent. -/
structure Fine (F : Nat → Path → Prop) (server : Server World) : Prop where
  apart : ∀ (object : Nat) t, server.objects[object]? = some t → Apart t
  rooted : ∀ (object : Nat) t, server.objects[object]? = some t → t.Rooted
  within : ∀ (object : Nat) t, server.objects[object]? = some t →
    ∀ path ∈ t.usedPaths, F object path
  coherent : Coherent (keysFor slot server.objects) server.disk

variable {slot} {F : Nat → Path → Prop} {server server' : Server World} {object : Nat}
  {t : TorrentStorage}

section Keys

variable {objects : List TorrentStorage} (hslot : Function.Injective slot)

include hslot

/-- Under its own slot a storage's keys are those of its torrent. -/
theorem keysFor_own (hobject : objects[object]? = some t) :
    (keysFor slot objects).Own (slot object) t := by
  intro file path
  constructor
  · rintro ⟨object', t', heq, hobject', hkey⟩
    obtain rfl := hslot heq
    rw [hobject] at hobject'
    cases hobject'
    exact hkey
  · exact fun hkey => ⟨object, t, rfl, hobject, hkey⟩

/-- A torrent that has changed changes the keys of its slot only. -/
theorem keysFor_assign (hlt : object < objects.length) (t : TorrentStorage) :
    (keysFor slot objects).assign (slot object) t = keysFor slot (objects.set object t) := by
  funext slot' file path
  unfold Keys.assign
  split
  · rename_i heq
    subst heq
    have hset : (objects.set object t)[object]? = some t := List.getElem?_set_self hlt
    exact propext (keysFor_own hslot hset file path).symm
  · rename_i hne
    refine propext (exists_congr fun object' => exists_congr fun t' => ?_)
    constructor
    · rintro ⟨rfl, hobject, hkey⟩
      refine ⟨rfl, ?_, hkey⟩
      rw [List.getElem?_set_ne]
      · exact hobject
      · rintro rfl
        exact hne rfl
    · rintro ⟨rfl, hobject, hkey⟩
      refine ⟨rfl, ?_, hkey⟩
      rw [List.getElem?_set_ne] at hobject
      · exact hobject
      · rintro rfl
        exact hne rfl

end Keys

/-! ## A job of one storage -/

variable (hslot : Function.Injective slot) (hF : ∀ k l path, F k path → F l path → k = l)

section Job

include hF in
/-- Nobody else has one of the paths. -/
theorem Fine.clear (h : Fine slot F server) {t : TorrentStorage}
    (ht : ∀ path ∈ t.usedPaths, F object path) :
    (keysFor slot server.objects).Clear (slot object) t := by
  rintro slot' file path ⟨object', u, rfl, hobject', hkey⟩ hne hpath
  have hother := h.within object' u hobject' path (usedPaths_of_keys hkey)
  exact hne (congrArg slot (hF _ _ path hother (ht path hpath)))

theorem Fine.scripted (h : Fine slot F server) (io : List IoFault) :
    Fine slot F { server with disk := server.disk.scripted [] io } :=
  ⟨h.apart, h.rooted, h.within, h.coherent.scripted [] io⟩

/-- Neither paths nor the cache's entries depend on the limit. -/
theorem Fine.settingsUpdated (h : Fine slot F server) (filePoolSize : Int) :
    Fine slot F { server with disk := server.disk.settingsUpdated filePoolSize } :=
  ⟨h.apart, h.rooted, h.within, h.coherent.settingsUpdated filePoolSize⟩

include hslot in
/-- The torrent and the disk a job has left. -/
theorem Fine.set (h : Fine slot F server) (hlt : object < server.objects.length)
    {t : TorrentStorage} {d : Disk World} (hapart : Apart t) (hrooted : t.Rooted)
    (hwithin : ∀ path ∈ t.usedPaths, F object path)
    (hcoherent : Coherent ((keysFor slot server.objects).assign (slot object) t) d) :
    Fine slot F { disk := d, objects := server.objects.set object t } := by
  have hcases : ∀ (other : Nat) u, (server.objects.set object t)[other]? = some u →
      other = object ∧ u = t ∨ server.objects[other]? = some u := by
    intro other u hat
    by_cases heq : other = object
    · subst heq
      rw [List.getElem?_set_self hlt] at hat
      exact Or.inl ⟨rfl, (Option.some.inj hat).symm⟩
    · rw [List.getElem?_set_ne (Ne.symm heq)] at hat
      exact Or.inr hat
  rw [keysFor_assign hslot hlt] at hcoherent
  refine ⟨fun other u hat => ?_, fun other u hat => ?_, fun other u hat => ?_, hcoherent⟩
  · rcases hcases other u hat with ⟨rfl, rfl⟩ | hold
    · exact hapart
    · exact h.apart other u hold
  · rcases hcases other u hat with ⟨rfl, rfl⟩ | hold
    · exact hrooted
    · exact h.rooted other u hold
  · rcases hcases other u hat with ⟨rfl, rfl⟩ | hold
    · exact hwithin
    · exact h.within other u hold

include hslot hF

/-- Two runs make the same job of a storage that is the same in both. -/
theorem Fine.run (h : Fine slot F server) (h' : Fine slot F server') {base : World}
    (hobject : server.objects[object]? = some t) (hobject' : server'.objects[object]? = some t)
    {job : Job} {io : List IoFault} (hwithin : job.Within (F object) t)
    (hkeeps : KeepsDocuments t job)
    (halike : Alike (F object) base (server.disk.scripted [] io) (server'.disk.scripted [] io)) :
    let r := server.turn G slot (.run object job io)
    let r' := server'.turn G slot (.run object job io)
    r.1 = r'.1 ∧ Fine slot F r.2 ∧ Fine slot F r'.2 ∧
      r.2.objects[object]? = r'.2.objects[object]? ∧ Alike (F object) base r.2.disk r'.2.disk ∧
      ∀ other, other ≠ object → r.2.objects[other]? = server.objects[other]? := by
  have hlt : object < server.objects.length := (List.getElem?_eq_some_iff.mp hobject).1
  have hlt' : object < server'.objects.length := (List.getElem?_eq_some_iff.mp hobject').1
  have hstep := runJob_step G.env true (slot object) job
    { torrent := t, disk := server.disk.scripted [] io }
  -- what the job makes of the torrent is the same in both runs
  have hwithin' := hwithin.step (h.within object t hobject) hstep
  have hapart' := (h.apart object t hobject).step (h.rooted object t hobject) hstep
    fun _ => hkeeps.keepsApart
  have hrooted' := (h.rooted object t hobject).step hstep
  obtain ⟨hreport, htorrent, htwin⟩ := runJob_twin G true true
    ⟨halike, h.coherent.scripted [] io, h'.coherent.scripted [] io⟩
    ⟨h.apart object t hobject, h.rooted object t hobject, keysFor_own hslot hobject,
      keysFor_own hslot hobject', h.clear hF (h.within object t hobject),
      h'.clear hF (h.within object t hobject)⟩
    (h.within object t hobject) hwithin (hkeeps.spares hstep) (h.clear hF hwithin')
    (h'.clear hF hwithin')
  simp only [Server.turn, Server.perform, hobject, hobject']
  have hfine := h.set hslot hlt hapart' hrooted' hwithin' htwin.coherent
  have hfine' := h'.set hslot hlt' hapart' hrooted' hwithin' htwin.coherent'
  rw [hreport, ← htorrent]
  refine ⟨rfl, hfine, hfine', ?_, htwin.toAlike, fun other hne => ?_⟩
  · rw [List.getElem?_set_self hlt, List.getElem?_set_self hlt']
  · rw [List.getElem?_set_ne (Ne.symm hne)]

end Job

/-! ## Two runs side by side -/

/-- The storage `k` is the same in both runs, and the disks hold the same documents at its
    paths. -/
structure Beside (slot : Nat → Nat) (F : Nat → Path → Prop) (k : Nat)
    (server server' : Server World) : Prop where
  fine : Fine slot F server
  fine' : Fine slot F server'
  same : server.objects[k]? = server'.objects[k]?
  validate : server.disk.world.validate = server'.disk.world.validate
  tree : ∀ path, F k path → server.disk.tree path = server'.disk.tree path

namespace Beside

variable {k : Nat}

/-- The two disks of a storage's own turn, with the answers scheduled for it. -/
theorem alike (h : Beside slot F k server server') (io : List IoFault) :
    Alike (F k) server.disk.world (server.disk.scripted [] io) (server'.disk.scripted [] io) where
  sound := ⟨h.fine.coherent.sound.inj, h.fine.coherent.sound.bound⟩
  sound' := ⟨h.fine'.coherent.sound.inj, h.fine'.coherent.sound.bound⟩
  willing := by simp [World.Willing, Disk.scripted]
  willing' := by simp [World.Willing, Disk.scripted]
  validate := rfl
  validate' := h.validate.symm
  io := rfl
  tree := h.tree
  frame _ _ := rfl

include hslot hF

/-- The storage's own job moves both runs. -/
theorem job (h : Beside slot F k server server') {job : Job} {io : List IoFault}
    (hjob : ∀ t, server.objects[k]? = some t → job.Within (F k) t ∧ KeepsDocuments t job) :
    (server.turn G slot (.run k job io)).1 = (server'.turn G slot (.run k job io)).1 ∧
      Beside slot F k (server.turn G slot (.run k job io)).2
        (server'.turn G slot (.run k job io)).2 := by
  cases hobject : server.objects[k]? with
  | none =>
    have hobject' := h.same.symm.trans hobject
    simp only [Server.turn, Server.perform, hobject, hobject']
    exact ⟨trivial, h.fine.scripted io, h.fine'.scripted io, h.same, h.validate, h.tree⟩
  | some t =>
    obtain ⟨hwithin, hkeeps⟩ := hjob t hobject
    obtain ⟨hreport, hfine, hfine', hsame, halike, -⟩ := h.fine.run G hslot hF h.fine' hobject
      (h.same.symm.trans hobject) hwithin hkeeps (h.alike io)
    exact ⟨hreport, hfine, hfine', hsame, halike.validate.trans halike.validate'.symm,
      halike.tree⟩

/-- Another storage's job moves one of them, and leaves the storage's paths alone. -/
theorem other (h : Beside slot F k server server') {l : Nat} (hne : l ≠ k) {job : Job}
    {io : List IoFault}
    (hjob : ∀ t, server.objects[l]? = some t → job.Within (F l) t ∧ KeepsDocuments t job) :
    Beside slot F k (server.turn G slot (.run l job io)).2 server' := by
  cases hobject : server.objects[l]? with
  | none =>
    simp only [Server.turn, Server.perform, hobject]
    exact ⟨h.fine.scripted io, h.fine', h.same, h.validate, h.tree⟩
  | some t =>
    obtain ⟨hwithin, hkeeps⟩ := hjob t hobject
    -- the job beside itself
    have hself : Beside slot F l server server := ⟨h.fine, h.fine, rfl, rfl, fun _ _ => rfl⟩
    obtain ⟨-, hfine, -, -, halike, hothers⟩ :=
      h.fine.run G hslot hF h.fine hobject hobject hwithin hkeeps (hself.alike io)
    refine ⟨hfine, h.fine', (hothers k (Ne.symm hne)).trans h.same,
      halike.validate.trans h.validate, fun path hpath => ?_⟩
    have hout : ¬ F l path := fun hl => hne (hF l k path hl hpath)
    exact (halike.frame path hout).trans (h.tree path hpath)

omit hslot hF in
theorem settingsUpdated (h : Beside slot F k server server') (filePoolSize : Int) :
    Beside slot F k { server with disk := server.disk.settingsUpdated filePoolSize } server' :=
  ⟨h.fine.settingsUpdated filePoolSize, h.fine', h.same, h.validate, h.tree⟩

omit hslot hF in
theorem symm (h : Beside slot F k server server') : Beside slot F k server' server :=
  ⟨h.fine', h.fine, h.same.symm, h.validate.symm, fun path hpath => (h.tree path hpath).symm⟩

end Beside

/-- The storage alone: settings may change, and no other storage has a job. -/
theorem Beside.waits {k : Nat} (h : Beside slot F k server server') {turns : List Turn}
    (hturns : ∀ turn ∈ turns, ∃ filePoolSize, turn = .settingsUpdated filePoolSize) :
    (server'.turns G slot turns).1 = [] ∧
      Beside slot F k server (server'.turns G slot turns).2 := by
  induction turns generalizing server' with
  | nil => exact ⟨rfl, h⟩
  | cons turn rest ih =>
    obtain ⟨filePoolSize, rfl⟩ := hturns turn List.mem_cons_self
    simp only [Server.turns, Server.turn, List.nil_append]
    exact ih (h.symm.settingsUpdated filePoolSize).symm fun turn hturn =>
      hturns turn (List.mem_cons_of_mem _ hturn)

theorem turns_append (server : Server World) (turns turns' : List Turn) :
    server.turns G slot (turns ++ turns') =
      ((server.turns G slot turns).1 ++ ((server.turns G slot turns).2.turns G slot turns').1,
        ((server.turns G slot turns).2.turns G slot turns').2) := by
  induction turns generalizing server with
  | nil => rfl
  | cons turn rest ih => simp only [List.cons_append, Server.turns, ih, List.append_assoc]

theorem reportsOf_append (k : Nat) (log log' : List (Nat × Option Report)) :
    reportsOf k (log ++ log') = reportsOf k log ++ reportsOf k log' :=
  List.filterMap_append

/-- Another storage's turn reports nothing to this one. -/
theorem reportsOf_run_ne {object k : Nat} (hne : object ≠ k) (server : Server World) (job : Job)
    (io : List IoFault) : reportsOf k (server.turn G slot (.run object job io)).1 = [] := by
  simp [Server.turn, reportsOf, hne]

/-- The turns of `alone` are jobs of the storage and new settings. -/
def Alone (k : Nat) (alone : List Turn) : Prop :=
  ∀ turn ∈ alone, (∃ filePoolSize, turn = .settingsUpdated filePoolSize) ∨
    ∃ job io, turn = .run k job io

/-- A storage's run of its own, while it has no job. -/
theorem Alone.waits {k : Nat} {alone : List Turn} (h : Alone k alone)
    (hnone : ∀ turn ∈ alone, turn.jobOf k = none) :
    ∀ turn ∈ alone, ∃ filePoolSize, turn = .settingsUpdated filePoolSize := by
  intro turn hturn
  rcases h turn hturn with hsettings | ⟨job, io, rfl⟩
  · exact hsettings
  · have hjob := hnone _ hturn
    simp [Turn.jobOf] at hjob

theorem jobOf_eq_some {k : Nat} {turn : Turn} {job : Job} {io : List IoFault}
    (h : turn.jobOf k = some (job, io)) : turn = .run k job io := by
  cases turn with
  | run object job' io' =>
    simp only [Turn.jobOf, Option.ite_none_right_eq_some, Option.some.injEq, Prod.mk.injEq] at h
    obtain ⟨rfl, rfl, rfl⟩ := h
    rfl
  | settingsUpdated filePoolSize => cases h

include hslot hF

/-- The whole run beside the run of the storage's jobs alone. -/
theorem Beside.turns {k : Nat} (h : Beside slot F k server server') {turns alone : List Turn}
    (hwithin : EveryTurn G slot (fun object t job => job.Within (F object) t) server turns)
    (hkeeps : EveryTurn G slot (fun _ t job => KeepsDocuments t job) server turns)
    (hjobs : alone.filterMap (Turn.jobOf k) = turns.filterMap (Turn.jobOf k))
    (halone : Alone k alone) :
    reportsOf k (server.turns G slot turns).1 = reportsOf k (server'.turns G slot alone).1 ∧
      Beside slot F k (server.turns G slot turns).2 (server'.turns G slot alone).2 := by
  induction turns generalizing server server' alone with
  | nil =>
    obtain ⟨hreports, hbeside⟩ :=
      h.waits G (halone.waits (List.filterMap_eq_nil_iff.mp hjobs))
    rw [hreports]
    exact ⟨rfl, hbeside⟩
  | cons turn rest ih =>
    obtain ⟨hwithin₀, hwithin⟩ := hwithin
    obtain ⟨hkeeps₀, hkeeps⟩ := hkeeps
    cases turn with
    | settingsUpdated filePoolSize =>
      simp only [Server.turns, Server.turn, List.nil_append]
      exact ih (h.settingsUpdated filePoolSize) hwithin hkeeps hjobs halone
    | run object job io =>
      have hjob : ∀ t, server.objects[object]? = some t →
          job.Within (F object) t ∧ KeepsDocuments t job := by
        intro t hobject
        dsimp only at hwithin₀ hkeeps₀
        rw [hobject] at hwithin₀ hkeeps₀
        exact ⟨hwithin₀, hkeeps₀⟩
      by_cases heq : object = k
      · subst heq
        have hfirst : Turn.jobOf object (.run object job io) = some (job, io) := if_pos rfl
        rw [List.filterMap_cons_some hfirst, List.filterMap_eq_cons_iff] at hjobs
        obtain ⟨before, turn, after, rfl, hbefore, hturn, hafter⟩ := hjobs
        obtain rfl := jobOf_eq_some hturn
        -- new settings, the same job, and the rest
        have hmem : ∀ turn ∈ before, turn ∈ before ++ .run object job io :: after :=
          fun turn hturn => List.mem_append_left _ hturn
        obtain ⟨hquiet, hbeside⟩ := h.waits G (Alone.waits
          (fun turn hturn => halone turn (hmem turn hturn)) hbefore)
        obtain ⟨hreport, hbeside⟩ := hbeside.job G hslot hF hjob
        obtain ⟨hreports, hbeside⟩ := ih hbeside hwithin hkeeps hafter fun turn hturn =>
          halone turn (List.mem_append_right _ (List.mem_cons_of_mem _ hturn))
        rw [turns_append, hquiet, List.nil_append]
        refine ⟨?_, hbeside⟩
        simp only [Server.turns]
        rw [reportsOf_append, reportsOf_append, hreport, hreports]
      · have hskip : Turn.jobOf k (.run object job io) = none := if_neg heq
        rw [List.filterMap_cons_none hskip] at hjobs
        obtain ⟨hreports, hbeside⟩ := ih (h.other G hslot hF heq hjob) hwithin hkeeps hjobs halone
        refine ⟨?_, hbeside⟩
        simp only [Server.turns]
        rw [reportsOf_append, reportsOf_run_ne G heq, List.nil_append, hreports]

/-- **Torrents do not interfere.** Of a storage whose files keep documents of their own, the same is
    reported as when its jobs are run alone, and the documents at its paths end up the same:
    whatever the other storages do at theirs, and whatever the limits of the cache. -/
theorem torrents_do_not_interfere
    (hreach : ∀ (object : Nat) t, server.objects[object]? = some t → t.Reachable)
    (hapart : ∀ (object : Nat) t, server.objects[object]? = some t → Apart t)
    (hused : ∀ (object : Nat) t, server.objects[object]? = some t →
      ∀ path ∈ t.usedPaths, F object path)
    (hcoherent : Coherent (keysFor slot server.objects) server.disk) {turns : List Turn}
    (hwithin : EveryTurn G slot (fun object t job => job.Within (F object) t) server turns)
    (hkeeps : EveryTurn G slot (fun _ t job => KeepsDocuments t job) server turns)
    (k : Nat) {alone : List Turn} (halone : Alone k alone)
    (hjobs : alone.filterMap (Turn.jobOf k) = turns.filterMap (Turn.jobOf k)) :
    let all := server.turns G slot turns
    let only := server.turns G slot alone
    reportsOf k all.1 = reportsOf k only.1 ∧
      ∀ path, F k path → all.2.disk.tree path = only.2.disk.tree path := by
  intro all only
  have hfine : Fine slot F server :=
    ⟨hapart, fun object t hobject i hi => (hreach object t hobject).rooted hi, hused, hcoherent⟩
  have hself : Beside slot F k server server := ⟨hfine, hfine, rfl, rfl, fun _ _ => rfl⟩
  obtain ⟨hreports, hbeside⟩ := hself.turns G hslot hF hwithin hkeeps hjobs halone
  exact ⟨hreports, hbeside.tree⟩

/-! ## Two storages -/

omit hslot hF

instance (t : TorrentStorage) (i : Nat) (path : Path) : Decidable (t.SpareFor i path) :=
  inferInstanceAs (Decidable (_ ∧ _))

instance (t : TorrentStorage) : (job : Job) → Decidable (KeepsDocuments t job)
  | .renameFile index name => inferInstanceAs (Decidable
      (∀ i < t.numFiles, index = i → safeRelativePath name = true →
        t.SpareFor i (t.pathFor i) ∧ t.SpareFor i (rootedPath t.saveRoot name)))
  | .moveStorage path _ => inferInstanceAs (Decidable
      (safeRelativePath path = true → t.MoveAccepted (normalizedSaveRoot path) →
        ∀ i < t.numFiles, t.files.padFileAt i = false →
          t.destination (normalizedSaveRoot path) i ≠ t.partPath))
  | .read _ | .write _ _ | .hash _ _ _ | .hash2 _ _ | .releaseFiles | .checkFiles _ _
  | .stopTorrent | .deleteFiles _ _ | .setFilePriority _ | .clearPiece _ =>
      inferInstanceAs (Decidable True)

instance (P : Path → Prop) [∀ path, Decidable (P path)] (t : TorrentStorage) :
    (job : Job) → Decidable (job.Within P t)
  | .renameFile index name => decidable_of_iff
      (∀ i < t.numFiles, index = i → safeRelativePath name = true →
        P (rootedPath t.saveRoot name))
      ⟨fun h i heq hlt => h i hlt heq, fun h i hlt heq => h i heq hlt⟩
  | .moveStorage path _ => inferInstanceAs (Decidable
      (safeRelativePath path = true →
        ∀ i < t.numFiles, P (t.destination (normalizedSaveRoot path) i)))
  | .read _ | .write _ _ | .hash _ _ _ | .hash2 _ _ | .releaseFiles | .checkFiles _ _
  | .stopTorrent | .deleteFiles _ _ | .setFilePriority _ | .clearPiece _ =>
      inferInstanceAs (Decidable True)

instance (P : Nat → TorrentStorage → Job → Prop) [∀ object t job, Decidable (P object t job)] :
    (server : Server World) → (turns : List Turn) → Decidable (EveryTurn G slot P server turns)
  | _, [] => isTrue trivial
  | server, .settingsUpdated filePoolSize :: rest =>
      have := instDecidableEveryTurn P (server.turn G slot (.settingsUpdated filePoolSize)).2 rest
      inferInstanceAs (Decidable (True ∧ _))
  | server, .run object job io :: rest =>
      have := instDecidableEveryTurn P (server.turn G slot (.run object job io)).2 rest
      match h : server.objects[object]? with
      | some t => decidable_of_iff (P object t job ∧
          EveryTurn G slot P (server.turn G slot (.run object job io)).2 rest)
          (by rw [EveryTurn, h])
      | none => decidable_of_iff (True ∧
          EveryTurn G slot P (server.turn G slot (.run object job io)).2 rest)
          (by rw [EveryTurn, h])

namespace Neighbours

open Restart

def host : Host := ⟨.next, id, id⟩

/-- A torrent of one file beside the one of `a` and `b`. -/
def other : StorageParams where
  files := FileStorage.ofEntries [{ size := 1, pad := false }] 4
  filePath _ := str "z"
  path := flowSessionRoot
  priorities := []
  infoHash := List.replicate 20 172

def both : Server World where
  disk := Disk.settingsUpdated
    { world := .holding [(str "a", [1, 2, 3]), (str "b", [4, 5]), (str "z", [7])] } 1
  objects := [build params [], build other []]

/-- The paths of the two, and the name one of the files is given. -/
def footprint : Nat → List Path
  | 0 => [str "a", str "b", str "c", partPathOf params.infoHash]
  | 1 => [str "z", partPathOf other.infoHash]
  | _ => []

theorem footprints_disjoint (k l : Nat) (path : Path) (hk : path ∈ footprint k)
    (hl : path ∈ footprint l) : k = l := by
  have hapart : ∀ path ∈ footprint 0, path ∉ footprint 1 := by decide +kernel
  rcases k with _ | _ | k <;> rcases l with _ | _ | l
  · rfl
  · exact absurd hl (hapart path hk)
  · cases hl
  · exact absurd hk (hapart path hl)
  · rfl
  · cases hl
  all_goals cases hk

/-- A property of both storages. -/
theorem of_both {P : Nat → TorrentStorage → Prop} (h₀ : P 0 (build params []))
    (h₁ : P 1 (build other [])) :
    ∀ (object : Nat) t, both.objects[object]? = some t → P object t := by
  intro object t hobject
  rcases object with _ | _ | object
  · cases hobject
    exact h₀
  · cases hobject
    exact h₁
  · cases hobject

theorem reachable_both :
    ∀ (object : Nat) t, both.objects[object]? = some t → t.Reachable :=
  of_both reachable_params
    ⟨World, provider .next id id, other, world, world, _, 0, { world }, [], rfl, rfl⟩

theorem apart_both : ∀ (object : Nat) t, both.objects[object]? = some t → Apart t :=
  of_both ⟨by decide +kernel, by decide +kernel⟩ ⟨by decide +kernel, by decide +kernel⟩

theorem used_both : ∀ (object : Nat) t, both.objects[object]? = some t →
    ∀ path ∈ t.usedPaths, path ∈ footprint object :=
  of_both (by decide +kernel) (by decide +kernel)

/-- The first storage's jobs, with and without the second storage between them. -/
def toOwnName : List Turn :=
  [.run 0 (.read { piece := 0, start := 3, length := 1 }) [],
    .run 1 (.write { piece := 0, start := 0, length := 1 } [9]) [], .settingsUpdated 5,
    .run 0 (.renameFile 0 (str "c")) [],
    .run 0 (.read { piece := 0, start := 0, length := 3 }) []]

def toOwnNameAlone : List Turn :=
  [.run 0 (.read { piece := 0, start := 3, length := 1 }) [],
    .run 0 (.renameFile 0 (str "c")) [], .settingsUpdated 2,
    .run 0 (.read { piece := 0, start := 0, length := 3 }) []]

theorem alone_toOwnName : Alone 0 toOwnNameAlone := by
  simp [Alone, toOwnNameAlone]

theorem do_not_interfere_renamed :
    reportsOf 0 (both.turns host id toOwnName).1 =
      reportsOf 0 (both.turns host id toOwnNameAlone).1 :=
  (torrents_do_not_interfere host Function.injective_id
    (F := fun object path => path ∈ footprint object) footprints_disjoint reachable_both apart_both
    used_both
    ((coherent_fresh (World.sound_holding _) _).settingsUpdated 1) (by decide +kernel)
    (by decide +kernel) 0 alone_toOwnName (by decide +kernel)).1

/-- `a` takes the name of `b`, whose descriptor is open unless the other storage had it closed. -/
def ontoOwnFile : List Turn :=
  [.run 0 (.read { piece := 0, start := 3, length := 1 }) [],
    .run 0 (.renameFile 0 (str "b")) [],
    .run 1 (.read { piece := 0, start := 0, length := 1 }) [],
    .run 0 (.read { piece := 0, start := 3, length := 1 }) []]

def ontoOwnFileAlone : List Turn :=
  [.run 0 (.read { piece := 0, start := 3, length := 1 }) [],
    .run 0 (.renameFile 0 (str "b")) [],
    .run 0 (.read { piece := 0, start := 3, length := 1 }) []]

/-- The paths of the two never meet, and yet the first one reads another byte alone. -/
theorem evicted_between_reads :
    params.infoHash ≠ other.infoHash ∧
    (∀ path ∈ footprint 0, ∀ path' ∈ footprint 1, ¬ path <+: path' ∧ ¬ path' <+: path) ∧
    (∀ (object : Nat) t, both.objects[object]? = some t → t.Reachable ∧ Apart t ∧
      ∀ path ∈ t.usedPaths, path ∈ footprint object) ∧
    EveryTurn host id (fun object t job => job.Within (· ∈ footprint object) t) both ontoOwnFile ∧
    ontoOwnFileAlone.filterMap (Turn.jobOf 0) = ontoOwnFile.filterMap (Turn.jobOf 0) ∧
    (reportsOf 0 (both.turns host id ontoOwnFile).1).getLast? =
      some (some (.read [1] none)) ∧
    (reportsOf 0 (both.turns host id ontoOwnFileAlone).1).getLast? =
      some (some (.read [4] none)) ∧
    reportsOf 0 (both.turns host id ontoOwnFile).1 ≠
      reportsOf 0 (both.turns host id ontoOwnFileAlone).1 := by
  have hall : (reportsOf 0 (both.turns host id ontoOwnFile).1).getLast? =
      some (some (.read [1] none)) := by decide +kernel
  have halone : (reportsOf 0 (both.turns host id ontoOwnFileAlone).1).getLast? =
      some (some (.read [4] none)) := by decide +kernel
  refine ⟨by decide +kernel, by decide +kernel, fun object t hobject =>
    ⟨reachable_both object t hobject, apart_both object t hobject, used_both object t hobject⟩,
    by decide +kernel, by decide +kernel, hall, halone, fun heq => ?_⟩
  rw [heq, halone] at hall
  cases hall

end Neighbours

end Saf
end Libtorrent4j
