import Libtorrent4j.Saf.Checking

/-!
# A fresh check

`async_check_files` without usable resume data, as its caller sees it. It gives every wanted
file a document of its size **and loses no byte that fits**, and its `need_full_check` says
whether there was a document before, provided that `file_size` fails for missing documents only.
`UnknownSizes` is about the other case.
-/

namespace Libtorrent4j
namespace Saf

open Lib Lib.Exec TorrentStorage

variable (G : Host) {t : TorrentStorage} {storage : Nat} {d : Disk World} {resume : Option Resume}

/-! ## Nothing is lost -/

/-- A document of the size: as much of the old one as fits, and zeros. -/
def SizedFrom (size : Nat) (old new : Option (List Byte)) : Prop :=
  ∃ doc, new = some doc ∧ doc.length = size ∧
    (∀ n < min (old.getD []).length size, doc[n]? = (old.getD [])[n]?) ∧
    ∀ n < size, (old.getD []).length ≤ n → doc[n]? = some 0

theorem sizedFrom_sized (size : Nat) (old : Option (List Byte)) :
    SizedFrom size old (sized old size) := by
  refine ⟨_, rfl, Doc.length_resize _ _, fun n hn => ?_, fun n hn hend => ?_⟩
  · have hlt : n < (old.getD []).length := by omega
    rw [Doc.getElem?_resize, if_pos (by omega), List.getElem?_eq_getElem hlt]
    rfl
  · rw [Doc.getElem?_resize, if_pos hn, List.getElem?_eq_none hend]
    rfl

/-- **A fresh check prepares every wanted file**, or stops at one: it has then prepared those
    before it and left those after it alone. -/
theorem fresh_check_prepares (storage : Nat) (hc : Coherent (fun _ _ _ => True) d)
    (hdistinct : ∀ i < t.numFiles, ∀ j < t.numFiles, t.pathFor i = t.pathFor j → i = j)
    (hresume : ¬ Usable resume) (links : List Path) :
    let r := runJob G.env true storage (.checkFiles resume links) { torrent := t, disk := d }
    (∀ status, r.1 = .checked status none →
      (∀ i, t.Public i →
        SizedFrom (t.files.fileSize i) (d.tree (t.pathFor i)) (r.2.disk.tree (t.pathFor i))) ∧
      (∀ p, (∀ i, t.Public i → p ≠ t.pathFor i) → r.2.disk.tree p = d.tree p) ∧
      ((∀ path size, d.Logged r.2.disk (.fileSize path size) → ¬ StatFails size) →
        (status.needFullCheck = true ↔ ∃ i, t.Public i ∧ d.tree (t.pathFor i) ≠ none))) ∧
    ∀ status error, r.1 = .checked status (some error) →
      (links ≠ [] ∧ r.2.disk.tree = d.tree) ∨
      ∃ k : Nat, t.Public k ∧ error.file = k ∧
        (∀ i < k, t.Public i →
          SizedFrom (t.files.fileSize i) (d.tree (t.pathFor i)) (r.2.disk.tree (t.pathFor i))) ∧
        ∀ i < t.numFiles, k < i → r.2.disk.tree (t.pathFor i) = d.tree (t.pathFor i) := by
  intro r
  have hr : r = (checkedReport (asyncCheckFiles G.env true t storage resume links d).1,
      { torrent := t, disk := (asyncCheckFiles G.env true t storage resume links d).2 }) := rfl
  have hpublic : t.PublicApart := fun i j hi hj heq => hdistinct i hi.1 j hj.1 heq
  by_cases hlinks : links = []
  · subst hlinks
    rw [asyncCheckFiles_fresh G true hresume] at hr
    have hspec : wp (initializeFiles G.env true t storage) _ _ d :=
      initializeFiles_spec G true hc hpublic fun _ _ => trivial
    rcases hrun : initializeFiles G.env true t storage d with ⟨failure | status, d'⟩
    · obtain ⟨-, -, k, hk, hfile, hstopped⟩ := wp_error hspec hrun
      rw [hrun] at hr
      rw [hr]
      refine ⟨fun status hreport => by simp [checkedReport] at hreport,
        fun status error hreport => ?_⟩
      obtain ⟨-, rfl⟩ : failure.1 = status ∧ failure.2 = error := by
        simpa [checkedReport] using hreport
      refine Or.inr ⟨k, hk, hfile, fun i hlt hi => ?_, fun i hi hlt => ?_⟩
      · rw [hstopped.sized i hlt hi]
        exact sizedFrom_sized _ _
      · refine hstopped.frame _ fun j hjk hj heq => ?_
        -- a file before `k` has another path than one after it
        have := hdistinct i hi j hj.1 heq
        omega
    · obtain ⟨-, hprepared, hflag⟩ := wp_ok hspec hrun
      rw [hrun] at hr
      rw [hr]
      refine ⟨fun status' hreport => ?_, fun _ _ hreport => by simp [checkedReport] at hreport⟩
      obtain rfl : status = status' := by simpa [checkedReport] using hreport
      refine ⟨fun i hi => ?_, fun p hp => hprepared.frame p fun i _ hi => hp i hi, hflag⟩
      rw [hprepared.sized i hi.1 hi]
      exact sizedFrom_sized _ _
  · rw [asyncCheckFiles_links G true resume hlinks] at hr
    rw [hr]
    exact ⟨fun _ hreport => by simp [checkedReport] at hreport,
      fun _ _ _ => Or.inl ⟨hlinks, rfl⟩⟩

/-! ## One document -/

namespace Revoked

/-- One file of three bytes. -/
def params : StorageParams where
  files := FileStorage.ofEntries [{ size := 3, pad := false }] 4
  filePath _ := str "a"
  path := flowSessionRoot
  priorities := []
  infoHash := List.replicate 20 171

def host : Host := ⟨.next, id, id⟩

/-- A longer document is stored under its name. -/
def stored : Disk World := { world := World.holding [(str "a", [1, 2, 3, 4, 5])] }

theorem fresh_check_prepares_shrunk :
    SizedFrom 3 (some [1, 2, 3, 4, 5])
      ((runJob host.env true 0 (.checkFiles none [])
        { torrent := build params [], disk := stored }).2.disk.tree (str "a")) := by
  have hresume : ¬ Usable none := fun h => h
  have hrun := (fresh_check_prepares host (t := build params []) (d := stored) 0
    (coherent_fresh (World.sound_holding _) _) (by decide +kernel) hresume []).1
    { needFullCheck := true } (by decide +kernel)
  exact hrun.1 0 ⟨by decide, by decide, by decide⟩

end Revoked

end Saf
end Libtorrent4j
