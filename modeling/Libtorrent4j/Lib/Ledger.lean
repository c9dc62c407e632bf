import Mathlib.Tactic

/-!
# A ledger of acquired and released resources

A ledger is the log, **newest entry first**, of who acquired, used and released what. `held`
is what it leaves in hand. Two conditions, one for each side of the contract:

* `Fresh`, the allocator's: it never hands out what is still held;
* `Disciplined`, the client's: it uses and releases only what it holds. Releasing twice, or
  using after releasing, is a breach of it.

Under both, what is held has no duplicates; and once nothing is held, every resource has
been released as often as it was acquired (`released_as_acquired`).
-/

namespace Libtorrent4j
namespace Lib

inductive LedgerEntry (R : Type) where
  | acquire (r : R)
  | use (r : R)
  | release (r : R)
deriving DecidableEq

namespace Ledger

variable {R : Type} [DecidableEq R]

/-- What has been acquired and not released. -/
def held : List (LedgerEntry R) → List R
  | [] => []
  | .acquire r :: log => r :: held log
  | .use _ :: log => held log
  | .release r :: log => (held log).erase r

/-- Nothing is acquired that is still held. -/
def Fresh : List (LedgerEntry R) → Prop
  | [] => True
  | .acquire r :: log => r ∉ held log ∧ Fresh log
  | _ :: log => Fresh log

instance decidableFresh : (log : List (LedgerEntry R)) → Decidable (Fresh log)
  | [] => .isTrue trivial
  | .acquire r :: log =>
      have := decidableFresh log
      inferInstanceAs (Decidable (r ∉ held log ∧ Fresh log))
  | .use _ :: log => decidableFresh log
  | .release _ :: log => decidableFresh log

/-- Nothing is used or released that is not held. -/
def Disciplined : List (LedgerEntry R) → Prop
  | [] => True
  | .acquire _ :: log => Disciplined log
  | .use r :: log => r ∈ held log ∧ Disciplined log
  | .release r :: log => r ∈ held log ∧ Disciplined log

theorem Fresh.tail {entry : LedgerEntry R} {log : List (LedgerEntry R)}
    (h : Fresh (entry :: log)) : Fresh log := by
  cases entry with
  | acquire r => exact h.2
  | use r => exact h
  | release r => exact h

theorem Fresh.of_suffix {log log' : List (LedgerEntry R)} (hs : log <:+ log')
    (h : Fresh log') : Fresh log := by
  induction log' with
  | nil =>
    rw [List.suffix_nil.mp hs]
    exact h
  | cons entry rest ih =>
    rcases List.suffix_cons_iff.mp hs with rfl | hs
    · exact h
    · exact ih hs h.tail

theorem nodup_held {log : List (LedgerEntry R)} (h : Fresh log) : (held log).Nodup := by
  induction log with
  | nil => exact List.nodup_nil
  | cons entry log ih =>
    cases entry with
    | acquire r => exact List.nodup_cons.mpr ⟨h.1, ih h.2⟩
    | use r => exact ih h
    | release r => exact (ih h).erase r

/-- Every acquisition is either matched by a release or still held. -/
theorem count_acquire {log : List (LedgerEntry R)} (h : Disciplined log) (r : R) :
    log.count (.acquire r) = log.count (.release r) + (held log).count r := by
  induction log with
  | nil => rfl
  | cons entry log ih =>
    cases entry with
    | acquire q =>
      have hrest := ih h
      by_cases hq : q = r
      · subst hq
        simp only [held, List.count_cons_self]
        rw [List.count_cons_of_ne (by simp)]
        omega
      · rw [List.count_cons_of_ne (by simpa using hq), List.count_cons_of_ne (by simp), held,
          List.count_cons_of_ne hq]
        exact hrest
    | use q =>
      rw [List.count_cons_of_ne (by simp), List.count_cons_of_ne (by simp)]
      exact ih h.2
    | release q =>
      have hrest := ih h.2
      rw [List.count_cons_of_ne (by simp), held]
      by_cases hq : q = r
      · subst hq
        rw [List.count_cons_self, List.count_erase_self]
        have : 0 < (held log).count q := List.count_pos_iff.mpr h.1
        omega
      · rw [List.count_cons_of_ne (by simpa using hq), List.count_erase_of_ne (Ne.symm hq)]
        exact hrest

/-- **When nothing is held any more, every resource was released as often as acquired.** -/
theorem released_as_acquired {log : List (LedgerEntry R)} (h : Disciplined log)
    (hheld : held log = []) (r : R) : log.count (.release r) = log.count (.acquire r) := by
  rw [count_acquire h r, hheld]
  rfl

/-! ## Keeping the books

`Holds L log`: as long as the allocator keeps its side, the client has kept its own and holds
exactly `L`, in some order. -/

def Holds (L : List R) (log : List (LedgerEntry R)) : Prop :=
  Fresh log → Disciplined log ∧ (held log).Perm L

theorem Holds.nil : Holds ([] : List R) [] := fun _ => ⟨trivial, .refl _⟩

theorem Holds.perm {L L' : List R} {log : List (LedgerEntry R)} (h : Holds L log)
    (hL : L.Perm L') : Holds L' log := fun hf => ⟨(h hf).1, (h hf).2.trans hL⟩

theorem Holds.acquire {L : List R} {log : List (LedgerEntry R)} (h : Holds L log) (r : R) :
    Holds (r :: L) (.acquire r :: log) :=
  fun hf => ⟨(h hf.2).1, (h hf.2).2.cons r⟩

theorem Holds.use {L : List R} {log : List (LedgerEntry R)} (h : Holds L log) {r : R}
    (hr : r ∈ L) : Holds L (.use r :: log) :=
  fun hf => ⟨⟨(h hf).2.mem_iff.mpr hr, (h hf).1⟩, (h hf).2⟩

theorem Holds.release {L : List R} {r : R} {log : List (LedgerEntry R)}
    (h : Holds (r :: L) log) : Holds L (.release r :: log) := by
  intro hf
  obtain ⟨hd, hp⟩ := h hf
  refine ⟨⟨hp.mem_iff.mpr List.mem_cons_self, hd⟩, ?_⟩
  have := hp.erase r
  rwa [List.erase_cons_head] at this

end Ledger
end Lib
end Libtorrent4j
