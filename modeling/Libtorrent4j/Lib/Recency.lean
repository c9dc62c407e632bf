import Mathlib.Data.List.Sort
import Mathlib.Tactic

/-!
# A list by recency

A pool whose elements carry the number of their last use is a list in no particular order. Its
meaning is the same elements **by recency**, the most recently used first: there is one such
order as long as no two carry the same number, and what a pool does to its list is then easy to
say. A new element comes to the front, a use moves one there, what is thrown out for lack of room
is the tail, and whoever takes elements away leaves the order of the others alone.
-/

namespace Libtorrent4j
namespace Lib

variable {α : Type*} {stamp : α → ℕ} {l order : List α} {a : α}

/-- `order` has the elements of `l`, the most recent one first. -/
structure ByRecency (stamp : α → ℕ) (l order : List α) : Prop where
  perm : order.Perm l
  recent : order.Pairwise fun a b => stamp b < stamp a

namespace ByRecency

theorem nil : ByRecency stamp [] [] := ⟨.refl _, .nil⟩

theorem nodup (h : ByRecency stamp l order) : (l.map stamp).Nodup := by
  refine (h.perm.map stamp).nodup_iff.mp ?_
  exact List.pairwise_map.mpr (h.recent.imp fun hlt => ne_of_gt hlt)

/-- There is one order. -/
theorem unique {order' : List α} (h : ByRecency stamp l order) (h' : ByRecency stamp l order') :
    order = order' := by
  refine (h.perm.trans h'.perm.symm).eq_of_pairwise ?_ h.recent h'.recent
  intro a b _ _ hab hba
  exact absurd hab (lt_asymm hba)

/-- Distinct numbers can be put in order. -/
theorem exists_order (h : (l.map stamp).Nodup) : ∃ order, ByRecency stamp l order := by
  let newer : α → α → Bool := fun a b => stamp b ≤ stamp a
  have hperm : (l.mergeSort newer).Perm l := List.mergeSort_perm l newer
  have hsorted : (l.mergeSort newer).Pairwise fun a b => newer a b = true := by
    refine List.pairwise_mergeSort (fun a b c hab hbc => ?_) (fun a b => ?_) l
    · simp only [newer, decide_eq_true_eq] at hab hbc ⊢
      exact hbc.trans hab
    · simp only [newer, Bool.or_eq_true, decide_eq_true_eq]
      exact Nat.le_total _ _
  have hdistinct : (l.mergeSort newer).Pairwise fun a b => stamp a ≠ stamp b :=
    List.pairwise_map.mp ((hperm.map stamp).nodup_iff.mpr h)
  refine ⟨l.mergeSort newer, hperm, hsorted.imp₂ (fun a b hle hne => ?_) hdistinct⟩
  simp only [newer, decide_eq_true_eq] at hle
  exact lt_of_le_of_ne hle (Ne.symm hne)

/-- How the list is arranged does not matter. -/
theorem of_perm {l' : List α} (h : ByRecency stamp l order) (hl : l.Perm l') :
    ByRecency stamp l' order := ⟨h.perm.trans hl, h.recent⟩

/-- What is newer than all comes first. -/
theorem push (h : ByRecency stamp l order) (hnew : ∀ b ∈ l, stamp b < stamp a) :
    ByRecency stamp (l ++ [a]) (a :: order) :=
  ⟨(h.perm.cons a).trans (List.perm_append_singleton a l).symm,
    List.pairwise_cons.mpr ⟨fun b hb => hnew b (h.perm.mem_iff.mp hb), h.recent⟩⟩

/-- Taking elements away leaves the order of the others. -/
theorem filter (h : ByRecency stamp l order) (p : α → Bool) :
    ByRecency stamp (l.filter p) (order.filter p) :=
  ⟨h.perm.filter p, h.recent.filter p⟩

theorem erase [BEq α] [LawfulBEq α] (h : ByRecency stamp l order) (a : α) :
    ByRecency stamp (l.erase a) (order.erase a) :=
  ⟨h.perm.erase a, h.recent.sublist List.erase_sublist⟩

/-- The least recent element is the last one. -/
theorem eq_concat (h : ByRecency stamp l order) (hmem : a ∈ l)
    (hleast : ∀ b ∈ l, stamp a ≤ stamp b) : ∃ newer, order = newer ++ [a] := by
  obtain ⟨newer, older, hsplit⟩ := List.append_of_mem (h.perm.mem_iff.mpr hmem)
  have hrecent := h.recent
  rw [hsplit, List.pairwise_append] at hrecent
  cases older with
  | nil => exact ⟨newer, hsplit⟩
  | cons b tail =>
    have hlt := List.rel_of_pairwise_cons hrecent.2.1 List.mem_cons_self
    have hb : b ∈ l := h.perm.mem_iff.mp (by simp [hsplit])
    exact absurd hlt (Nat.not_lt.mpr (hleast b hb))

/-- Throwing out the least recent element leaves the others before it. -/
theorem evict [BEq α] [LawfulBEq α] (h : ByRecency stamp l order) (hmem : a ∈ l)
    (hleast : ∀ b ∈ l, stamp a ≤ stamp b) :
    ByRecency stamp (l.erase a) (order.take (order.length - 1)) := by
  obtain ⟨newer, rfl⟩ := h.eq_concat hmem hleast
  have hnew : a ∉ newer := by
    intro hin
    exact lt_irrefl _ ((List.pairwise_append.mp h.recent).2.2 a hin a (List.mem_singleton_self a))
  have herase := h.erase a
  rw [List.erase_append_right _ hnew, List.erase_cons_head, List.append_nil] at herase
  simpa using herase

/-- An element is looked up in the list or in the order, if at most one qualifies. -/
theorem find? (h : ByRecency stamp l order) {p : α → Bool}
    (hone : ∀ a ∈ l, ∀ b ∈ l, p a = true → p b = true → a = b) : order.find? p = l.find? p := by
  cases hfind : l.find? p with
  | none =>
    rw [List.find?_eq_none] at hfind ⊢
    exact fun a ha => hfind a (h.perm.mem_iff.mp ha)
  | some a =>
    have ha := List.mem_of_find?_eq_some hfind
    cases hfind' : order.find? p with
    | none =>
      rw [List.find?_eq_none] at hfind'
      exact absurd (List.find?_some hfind) (hfind' a (h.perm.mem_iff.mpr ha))
    | some b =>
      have hb := h.perm.mem_iff.mp (List.mem_of_find?_eq_some hfind')
      rw [hone a ha b hb (List.find?_some hfind) (List.find?_some hfind')]

end ByRecency

end Lib
end Libtorrent4j
