import Libtorrent4j.Saf.Moving
import Libtorrent4j.Saf.ByteArray

/-!
# What a move never does

`move_safe`: a move that reports an error leaves the storage and the documents at its current
paths as they were, one that fails before the first copy has only looked, and under
`fail_if_exist` and `dont_replace` no document at a destination is touched.
-/

namespace Libtorrent4j
namespace Saf

open Lib Lib.Exec TorrentStorage

/-! ## Looking only -/

section Looking

variable {W F : Type}

/-- The calls that change documents or directories. -/
def Event.Alters : Event W → Prop
  | .createDirectory _ _ | .openFile _ .readWrite _ | .rename _ _ _ | .remove _ _ _ | .pwrite _
  | .ftruncate _ => True
  | _ => False

/-- Since `d` nothing has been called that changes a document or a directory. -/
def Looked (d d' : Disk W) : Prop :=
  ∃ calls, d'.trace = calls ++ d.trace ∧ ∀ call ∈ calls, ¬ call.Alters

theorem Looked.refl (d : Disk W) : Looked d d := ⟨[], rfl, by simp⟩

variable {d : Disk W} (E : Env W)

theorem looked_ask {α : Type} {call : W → α × W} {event : α → Event W}
    (h : ∀ a, ¬ (event a).Alters) : Keeps (Looked d) (ask call event : Exec (Disk W) F α) := by
  rintro d' ⟨calls, htrace, hcalls⟩
  refine ⟨event (call d'.world).1 :: calls, ?_, List.forall_mem_cons.mpr ⟨h _, hcalls⟩⟩
  rw [List.cons_append, ← htrace]
  rfl

theorem looked_callFileSize (path : Path) :
    Keeps (Looked d) (callFileSize E path : Exec (Disk W) F Int) :=
  looked_ask fun _ => id

theorem looked_checkMove (t : TorrentStorage) (storage : Nat) (root : Path) :
    Keeps (Looked d) (checkMove E t storage root) := by
  refine keeps_bind (keeps_bind keeps_get fun _ => keeps_bind (keeps_forEach fun entry _ =>
    looked_ask fun _ => id) fun _ _ h => h) fun _ => ?_
  refine keeps_bind (keeps_forEach fun _ _ => keeps_throwIf _) fun _ => ?_
  refine keeps_bind (keeps_forEach fun _ _ => keeps_throwIf _) fun _ => ?_
  refine keeps_bind (keeps_ite (fun _ => keeps_ret 0) fun _ => looked_ask fun _ => id) fun _ => ?_
  exact keeps_bind (keeps_throwIf _) fun _ => keeps_ret _

theorem looked_statOperations (flags : MoveFlags) (operations : List MoveOperation)
    (status : Status) : Keeps (Looked d) (statOperations E flags operations status) := by
  induction operations generalizing status with
  | nil => exact keeps_ret _
  | cons operation rest ih =>
    refine keeps_bind (looked_callFileSize E _) fun _ => keeps_bind (keeps_throwIf _) fun _ => ?_
    refine keeps_bind (looked_callFileSize E _) fun _ => keeps_bind (keeps_throwIf _) fun _ => ?_
    exact keeps_bind (ih _) fun _ => keeps_ret _

theorem looked_statMove (t : TorrentStorage) (root : Path) (flags : MoveFlags)
    (operations : List MoveOperation) :
    Keeps (Looked d) (statMove E t root flags operations) := by
  refine keeps_bind (keeps_onlyIf fun _ => keeps_forEach fun index _ => ?_) fun _ =>
    looked_statOperations E flags operations {}
  refine keeps_ite (fun _ => keeps_ret ()) fun _ => keeps_bind (looked_callFileSize E _) fun _ => ?_
  exact keeps_bind (keeps_throwIf _) fun _ => keeps_throwIf _

/-- **A plan only looks**, whatever the bridge answers. -/
theorem looked_planMove (t : TorrentStorage) (storage : Nat) (path : Path) (flags : MoveFlags) :
    Keeps (Looked d) (planMove E t storage path flags) := by
  refine keeps_bind (keeps_throwIf _) fun _ =>
    keeps_bind (looked_checkMove E t storage _) fun _ => ?_
  refine keeps_ite (fun _ => keeps_ret none) fun _ => ?_
  exact keeps_bind (looked_statMove E t _ flags _) fun _ => keeps_ret _

/-- An error of the plan is the move's own, and nothing more is done. -/
theorem asyncMoveStorage_of_plan {t : TorrentStorage} {storage : Nat} {path : Path}
    {flags : MoveFlags} {e : Failure} {d' : Disk W}
    (h : planMove E t storage path flags d = (.error e, d')) :
    asyncMoveStorage E storage path flags { torrent := t, disk := d } =
      (.error e, { torrent := t, disk := d' }) := by
  have hwp : wp (asyncMoveStorage E storage path flags) (fun _ _ => False)
      (fun e' s' => e' = e ∧ s' = { torrent := t, disk := d' }) { torrent := t, disk := d } := by
    rw [wp_asyncMoveStorage, wp_onDisk]
    unfold wp
    rw [h]
    exact ⟨rfl, rfl⟩
  unfold wp at hwp
  split at hwp
  · exact hwp.elim
  · rename_i e' s' hrun
    obtain ⟨rfl, rfl⟩ := hwp
    exact hrun

end Looking

/-! ## Safety -/

/-- **A move is safe on failure and respects its flags**, for every reachable storage with
    different paths, every root, every flag and every scheduled failure. -/
theorem move_safe (G : Host) {t : TorrentStorage} (hreach : t.Reachable)
    (hdistinct : ∀ i < t.numFiles, ∀ j < t.numFiles, t.pathFor i = t.pathFor j → i = j)
    {d : Disk World} (hs : d.world.Sound) (storage : Nat) (path : Path) (flags : MoveFlags) :
    let root := normalizedSaveRoot path
    let r := runJob G.env true storage (.moveStorage path flags) { torrent := t, disk := d }
    (∀ status error, r.1 = .moved status path (some error) →
      r.2.torrent = t ∧ ∀ i < t.numFiles,
        (t.files.padFileAt i = true → ∀ j < t.numFiles, t.files.padFileAt j = false →
          t.pathFor i ≠ t.destination root j) →
        r.2.disk.tree (t.pathFor i) = d.tree (t.pathFor i)) ∧
    (∀ status error d', planMove G.env t storage path flags d = (.error (status, error), d') →
      r.1 = .moved status path (some error) ∧ Looked d r.2.disk) ∧
    (flags = .failIfExist ∨ flags = .dontReplace → ∀ i < t.numFiles, ∀ doc,
      d.tree (t.destination root i) = some doc →
        r.2.disk.tree (t.destination root i) = some doc) := by
  have hrooted : t.Rooted := fun i hi => hreach.rooted hi
  have hdistinct' : t.Distinct := fun i hi j hj _ _ => hdistinct i hi j hj
  have hspec := asyncMoveStorage_spec G hrooted hdistinct' storage path flags hs
  intro root r
  -- a pad file's destination is no other file's
  have hpads : ∀ i < t.numFiles, ∀ j < t.numFiles, t.destination root i = t.destination root j →
      i = j := by
    intro i hi j hj h
    rw [TorrentStorage.destination, TorrentStorage.destination, rootedPath_inj] at h
    exact hdistinct i hi j hj (by rw [hrooted i hi, hrooted j hj, h])
  have hr : r = ((movedReport path
      (asyncMoveStorage G.env storage path flags { torrent := t, disk := d }).1),
      (asyncMoveStorage G.env storage path flags { torrent := t, disk := d }).2) := rfl
  refine ⟨?_, fun status error d' hplan => ?_, fun hflags i hi doc hdoc => ?_⟩
  · intro status error herror
    rw [hr] at herror ⊢
    rcases hrun : asyncMoveStorage G.env storage path flags { torrent := t, disk := d } with
      ⟨e | status', s'⟩ <;> rw [hrun] at herror
    · obtain ⟨htorrent, hnot⟩ := wp_error hspec hrun
      refine ⟨htorrent, fun i hi hfree => ?_⟩
      rcases hnot.copied with hsame | ⟨hallowed, hframe, -⟩
      · exact congrFun hsame _
      · refine hframe _ fun j hj hpj hmoves heq => ?_
        cases hpi : t.files.padFileAt i with
        | true => exact hfree hpi j hj hpj heq
        | false => exact hallowed.accepted.clear hi hpi hj hpj hmoves heq
    · simp [movedReport] at herror
  · have hrun := asyncMoveStorage_of_plan G.env hplan
    rw [hr, hrun]
    refine ⟨rfl, ?_⟩
    have := looked_planMove G.env t storage path flags d (.refl d)
    rwa [hplan] at this
  · rw [hr]
    rcases hrun : asyncMoveStorage G.env storage path flags { torrent := t, disk := d } with
      ⟨e | status', s'⟩
    · obtain ⟨-, hnot⟩ := wp_error hspec hrun
      rcases hnot.copied with hsame | ⟨-, -, hkept⟩
      · rw [hsame, hdoc]
      · rw [hkept hflags _ (by rw [hdoc]; simp), hdoc]
    · obtain ⟨-, -, hallowed, hmoved⟩ := wp_ok hspec hrun
      have hnoreset : flags.isReset = false := by rcases hflags with rfl | rfl <;> rfl
      cases hpi : t.files.padFileAt i with
      | false =>
        rw [hmoved.there hnoreset i hi hpi, arrived, if_pos, hdoc]
        rcases hflags with hflags | hflags
        · rw [hallowed.free hflags i hi hpi] at hdoc
          cases hdoc
        · exact Or.inr ⟨hflags, by rw [hdoc]; rfl⟩
      | true =>
        have hnot : ∀ j < t.numFiles, t.files.padFileAt j = false →
            t.destination root i ≠ t.destination root j := by
          intro j hj hpj heq
          rw [← hpads i hi j hj heq, hpi] at hpj
          cases hpj
        rcases hmoved.frame _ hnot with hsame | ⟨-, hleft⟩
        · exact hsame.trans hdoc
        · exact absurd (destination_mem hi) hleft.2

namespace Restart

/-- The first copy of a move of `a` and `b` to `d` cannot open its destination. -/
def interrupted : Disk World :=
  { world := { world with bridge := List.replicate 7 .ok ++ [.fail ⟨eio, eio_pos⟩] } }

theorem sound_interrupted : interrupted.world.Sound :=
  have hs := World.sound_holding [(str "a", [1, 2, 3])]
  ⟨hs.inj, hs.bound⟩

theorem move_safe_interrupted :
    (runJob (Host.env ⟨.next, id, id⟩) true 0 (.moveStorage (str "d") .alwaysReplaceFiles)
      { torrent := build params [], disk := interrupted }).2.disk.tree (str "a") =
        some [1, 2, 3] := by
  have hfails : (runJob (Host.env ⟨.next, id, id⟩) true 0
      (.moveStorage (str "d") .alwaysReplaceFiles)
      { torrent := build params [], disk := interrupted }).1 =
      .moved { fatalDiskError := true } (str "d")
        (some (makeError (-eio) 0 .fileWrite)) := by decide +kernel
  obtain ⟨hsafe, -, -⟩ := move_safe ⟨.next, id, id⟩ reachable_params (by decide +kernel)
    sound_interrupted 0 (str "d") .alwaysReplaceFiles
  exact (hsafe _ _ hfails).2 0 (by decide +kernel) (by decide +kernel)

end Restart

namespace Occupied

/-- `a`, a pad file whose path is where `a` is moved to, and `b`. -/
def params : StorageParams where
  files := FileStorage.ofEntries
    [{ size := 1, pad := false }, { size := 1, pad := true }, { size := 1, pad := false }] 4
  filePath i := if i = 0 then str "a" else if i = 1 then str "d/a" else str "b"
  path := flowSessionRoot
  priorities := []
  infoHash := List.replicate 20 171

/-- A document of somebody else's is at the pad file's path; the second copy fails. -/
def disk : Disk World :=
  { world := { World.holding [(str "a", [1]), (str "d/a", [9]), (str "b", [2])] with
      bridge := List.replicate 8 .ok ++ [.fail ⟨eio, eio_pos⟩] } }

/-- A move that reports an error has replaced the document at a pad file's current path. -/
theorem pad_document_replaced :
    (∃ w, TorrentStorage.new (provider .next id id) params disk.world =
      (.ok (build params []), w)) ∧
    (∀ i < params.files.numFiles, ∀ j < params.files.numFiles,
      (build params []).pathFor i = (build params []).pathFor j → i = j) ∧
    (∀ i < params.files.numFiles,
      (build params []).destination (str "d") i ≠ (build params []).partPath) ∧
    (∃ status error, (runJob (provider .next id id) true 0
      (.moveStorage (str "d") .alwaysReplaceFiles) { torrent := build params [], disk }).1 =
        .moved status (str "d") (some error)) ∧
    disk.tree ((build params []).pathFor 1) = some [9] ∧
    (runJob (provider .next id id) true 0 (.moveStorage (str "d") .alwaysReplaceFiles)
      { torrent := build params [], disk }).2.disk.tree ((build params []).pathFor 1) =
        some [1] := by
  refine ⟨⟨_, rfl⟩, by decide +kernel, by decide +kernel,
    ⟨{ fatalDiskError := true }, makeError (-eio) 2 .mkdir, by decide +kernel⟩, by decide +kernel,
    by decide +kernel⟩

end Occupied

end Saf
end Libtorrent4j
