import Mathlib.Tactic

/-!
# What is known of an array

Whoever writes an array through calls that may fail part-way knows some of its elements and
not others. A `Memory` is that knowledge: a position is mapped to its element, or to nothing.
An array that may have holes is a memory too, so that **being right is an order**:
`m.Below a` says that what `m` knows is there in `a`.

A write that is known to have happened is stored. One that may have stopped anywhere makes
its range doubtful, but not where it was about to write what was there already.
-/

namespace Libtorrent4j
namespace Lib

abbrev Memory (α : Type) := Nat → Option α

namespace Memory

variable {α : Type}

/-- Nothing is known. -/
def blank : Memory α := fun _ => none

def Below (m a : Memory α) : Prop := ∀ q x, m q = some x → a q = some x

/-- The elements of `data` from `pos` on, whatever was known of them. -/
def store (m : Memory α) (pos : Nat) (data : List α) : Memory α := fun q =>
  if pos ≤ q ∧ q < pos + data.length then data[q - pos]? else m q

def forget (m : Memory α) (p : Nat → Bool) : Memory α := fun q => if p q then none else m q

/-- `data` may have been written from `pos` on, or any part of it. -/
def doubt [DecidableEq α] (m : Memory α) (pos : Nat) (data : List α) : Memory α := fun q =>
  if pos ≤ q ∧ q < pos + data.length ∧ m q ≠ data[q - pos]? then none else m q

variable {m m' a a' : Memory α} {pos : Nat} {data : List α}

/-! ## The order -/

theorem blank_below (a : Memory α) : blank.Below a := by
  intro q x h
  cases h

theorem Below.refl (m : Memory α) : m.Below m := fun _ _ h => h

theorem Below.trans (h : m.Below m') (h' : m'.Below a) : m.Below a :=
  fun q x hq => h' q x (h q x hq)

theorem forget_below (m : Memory α) (p : Nat → Bool) : (m.forget p).Below m := by
  intro q x h
  unfold forget at h
  split at h
  · cases h
  · exact h

theorem doubt_below [DecidableEq α] (m : Memory α) (pos : Nat) (data : List α) :
    (m.doubt pos data).Below m := by
  intro q x h
  unfold doubt at h
  split at h
  · cases h
  · exact h

/-- What has not been forgotten is still there. -/
theorem Below.forget {p : Nat → Bool} (h : m.Below a)
    (hkeep : ∀ q x, p q = false → a q = some x → a' q = some x) : (m.forget p).Below a' := by
  intro q x hq
  have hm : m q = some x := m.forget_below p q x hq
  refine hkeep q x ?_ (h q x hm)
  cases hp : p q with
  | false => rfl
  | true =>
    rw [Memory.forget, if_pos hp] at hq
    cases hq

/-! ## Writing -/

theorem store_inside (m : Memory α) {k : Nat} (hk : k < data.length) :
    m.store pos data (pos + k) = data[k]? := by
  rw [store, if_pos ⟨by omega, by omega⟩, Nat.add_sub_cancel_left]

theorem store_outside (m : Memory α) {q : Nat} (hq : q < pos ∨ pos + data.length ≤ q) :
    m.store pos data q = m q := by
  rw [store, if_neg]
  omega

/-- `a'` has the elements of `data` from `pos` on, and otherwise at least those of `a`. -/
structure Overwrites (a a' : Memory α) (pos : Nat) (data : List α) : Prop where
  inside : ∀ k < data.length, a' (pos + k) = data[k]?
  outside : ∀ q x, q < pos ∨ pos + data.length ≤ q → a q = some x → a' q = some x

theorem Overwrites.nil (a : Memory α) (pos : Nat) : Overwrites a a pos [] :=
  ⟨fun _ hk => absurd hk (Nat.not_lt_zero _), fun _ _ _ h => h⟩

/-- What has been written is known. -/
theorem Below.store (h : m.Below a) (hwrites : Overwrites a a' pos data) :
    (m.store pos data).Below a' := by
  intro q x hq
  by_cases hin : pos ≤ q ∧ q < pos + data.length
  · obtain ⟨k, rfl⟩ := Nat.exists_eq_add_of_le hin.1
    have hk : k < data.length := by omega
    rw [m.store_inside hk] at hq
    rw [hwrites.inside k hk, hq]
  · have hout : q < pos ∨ pos + data.length ≤ q := by omega
    rw [m.store_outside hout] at hq
    exact hwrites.outside q x hout (h q x hq)

/-- What was read is known. -/
theorem Below.learn (h : m.Below a) (hread : ∀ k < data.length, a (pos + k) = data[k]?) :
    (m.store pos data).Below a :=
  h.store ⟨hread, fun _ _ _ hx => hx⟩

/-- Wherever the write has stopped, what is not doubtful is there. -/
theorem Below.doubt [DecidableEq α] (h : m.Below a) {n : Nat}
    (hwrites : Overwrites a a' pos (data.take n)) : (m.doubt pos data).Below a' := by
  intro q x hq
  have hm : m q = some x := m.doubt_below pos data q x hq
  by_cases hin : pos ≤ q ∧ q < pos + (data.take n).length
  · obtain ⟨k, rfl⟩ := Nat.exists_eq_add_of_le hin.1
    have hk : k < (data.take n).length := by omega
    have hsame : m (pos + k) = data[k]? := by
      by_contra hne
      have hlen : (data.take n).length ≤ data.length := List.length_take_le' n data
      rw [Memory.doubt, Nat.add_sub_cancel_left, if_pos ⟨by omega, by omega, hne⟩] at hq
      cases hq
    rw [hwrites.inside k hk, List.getElem?_take, if_pos (by rw [List.length_take] at hk; omega),
      ← hsame, hm]
  · exact hwrites.outside q x (by omega) (h q x hm)

/-! ## Reading -/

/-- What is known of the range is in the elements. -/
def Agrees (m : Memory α) (pos : Nat) (data : List α) : Prop :=
  ∀ k < data.length, ∀ x, m (pos + k) = some x → data[k]? = some x

theorem Below.agrees (h : m.Below a) (hread : ∀ k < data.length, a (pos + k) = data[k]?) :
    m.Agrees pos data := by
  intro k hk x hx
  rw [← hread k hk]
  exact h (pos + k) x hx

end Memory

end Lib
end Libtorrent4j
