import Mathlib.Tactic

/-!
# Loops that fill a buffer

A transfer that may do part of what it is asked for, be interrupted, or fail, is called again and
again until the whole buffer has been handled. `fill` is that loop, over any device and any
judgement of its answers, and `fill_rule` is its proof rule: an invariant over what has been
transferred so far, with one obligation for each of the three things an answer can mean.

The rest is about the pieces such a loop leaves behind. Laid end to end, **they meet every element
exactly once**, and stored one after another they are one store.
-/

namespace Libtorrent4j
namespace Lib
namespace Fill

variable {σ ρ ε α κ : Type}

/-- What the loop makes of an answer. -/
inductive Verdict (ε : Type) where
  | again
  | took (count : Nat)
  | stop (e : ε)

/-- A device is called with a position in the buffer and a count. Its answers are judged against the
    count asked for. Only finitely many calls are to be made again, and what is taken of an answer
    is something and fits. -/
structure Device (σ ρ ε : Type) where
  call : Nat → Nat → σ → ρ × σ
  judge : Nat → ρ → Verdict ε
  patience : σ → Nat
  call_le : ∀ position count s, patience (call position count s).2 ≤ patience s
  call_again : ∀ position count s, judge count (call position count s).1 = .again →
    patience (call position count s).2 < patience s
  took_pos : ∀ position count s n, judge count (call position count s).1 = .took n → 0 < n
  took_le : ∀ position count s n, judge count (call position count s).1 = .took n → n ≤ count

/-- The loop from the moment `done` elements have been transferred. -/
def fill (dev : Device σ ρ ε) (size done : Nat) (s : σ) : Except ε Nat × σ :=
  if done < size then
    match _h : dev.judge (size - done) (dev.call done (size - done) s).1 with
    | .again => fill dev size done (dev.call done (size - done) s).2
    | .took n => fill dev size (done + n) (dev.call done (size - done) s).2
    | .stop e => (.error e, (dev.call done (size - done) s).2)
  else (.ok done, s)
termination_by (size - done) + dev.patience s
decreasing_by
  · have := dev.call_again done (size - done) s _h
    omega
  · have := dev.call_le done (size - done) s
    have := dev.took_pos done (size - done) s n _h
    omega

section Turns

variable {dev : Device σ ρ ε} {size done : Nat} {s : σ}

theorem fill_of_again (hlt : done < size)
    (h : dev.judge (size - done) (dev.call done (size - done) s).1 = .again) :
    fill dev size done s = fill dev size done (dev.call done (size - done) s).2 := by
  conv_lhs => rw [fill, if_pos hlt]
  split <;> simp_all

theorem fill_of_took {n : Nat} (hlt : done < size)
    (h : dev.judge (size - done) (dev.call done (size - done) s).1 = .took n) :
    fill dev size done s = fill dev size (done + n) (dev.call done (size - done) s).2 := by
  conv_lhs => rw [fill, if_pos hlt]
  split <;> simp_all

theorem fill_of_stop {e : ε} (hlt : done < size)
    (h : dev.judge (size - done) (dev.call done (size - done) s).1 = .stop e) :
    fill dev size done s = (.error e, (dev.call done (size - done) s).2) := by
  rw [fill, if_pos hlt]
  split <;> simp_all

theorem fill_of_le (hle : size ≤ done) : fill dev size done s = (.ok done, s) := by
  rw [fill, if_neg (by omega)]

end Turns

/-- The rule of the loop. `I done s` is the invariant, and the loop ends in `Q`. -/
theorem fill_rule (dev : Device σ ρ ε) (size : Nat) (I : Nat → σ → Prop)
    {Q : Except ε Nat → σ → Prop}
    (hagain : ∀ done s, done < size → I done s →
      dev.judge (size - done) (dev.call done (size - done) s).1 = .again →
      I done (dev.call done (size - done) s).2)
    (htook : ∀ done s n, done < size → I done s →
      dev.judge (size - done) (dev.call done (size - done) s).1 = .took n → done + n ≤ size →
      I (done + n) (dev.call done (size - done) s).2)
    (hstop : ∀ done s e, done < size → I done s →
      dev.judge (size - done) (dev.call done (size - done) s).1 = .stop e →
      Q (.error e) (dev.call done (size - done) s).2)
    (hdone : ∀ s, I size s → Q (.ok size) s) {done : Nat} {s : σ} (hle : done ≤ size)
    (hI : I done s) : Q (fill dev size done s).1 (fill dev size done s).2 := by
  fun_induction fill dev size done s with
  | case1 done s hlt hjudge ih => exact ih hle (hagain done s hlt hI hjudge)
  | case2 done s hlt n hjudge ih =>
    have hfits := dev.took_le done (size - done) s n hjudge
    exact ih (by omega) (htook done s n hlt hI hjudge (by omega))
  | case3 done s hlt e hjudge => exact hstop done s e hlt hI hjudge
  | case4 done s hge =>
    obtain rfl : done = size := by omega
    exact hdone s hI

/-- Two devices that give related states the same verdicts fill alike. -/
theorem fill_related {τ ρ' : Type} (dev : Device σ ρ ε) (dev' : Device τ ρ' ε) (size : Nat)
    (S : σ → τ → Prop)
    (h : ∀ done s t, done < size → S s t →
      dev.judge (size - done) (dev.call done (size - done) s).1 =
          dev'.judge (size - done) (dev'.call done (size - done) t).1 ∧
        S (dev.call done (size - done) s).2 (dev'.call done (size - done) t).2)
    {done : Nat} {s : σ} {t : τ} (hS : S s t) :
    (fill dev size done s).1 = (fill dev' size done t).1 ∧
      S (fill dev size done s).2 (fill dev' size done t).2 := by
  fun_induction fill dev size done s generalizing t with
  | case1 done s hlt hjudge ih =>
    obtain ⟨hsame, hS'⟩ := h done s t hlt hS
    rw [fill_of_again hlt (hsame.symm.trans hjudge)]
    exact ih hS'
  | case2 done s hlt n hjudge ih =>
    obtain ⟨hsame, hS'⟩ := h done s t hlt hS
    rw [fill_of_took hlt (hsame.symm.trans hjudge)]
    exact ih hS'
  | case3 done s hlt e hjudge =>
    obtain ⟨hsame, hS'⟩ := h done s t hlt hS
    rw [fill_of_stop hlt (hsame.symm.trans hjudge)]
    exact ⟨rfl, hS'⟩
  | case4 done s hge =>
    rw [fill_of_le (by omega)]
    exact ⟨rfl, hS⟩

/-! ## Pieces laid end to end -/

/-- What holds of every piece and those before it, piece by piece from the end. -/
theorem forall_splits_concat {P : List κ → κ → Prop} {pieces : List κ} {last : κ} :
    (∀ before piece after, pieces ++ [last] = before ++ piece :: after → P before piece) ↔
      (∀ before piece after, pieces = before ++ piece :: after → P before piece) ∧
        P pieces last := by
  constructor
  · intro h
    exact ⟨fun before piece after heq => h before piece (after ++ [last]) (by simp [heq]),
      h pieces last [] rfl⟩
  · rintro ⟨hall, hlast⟩ before piece after heq
    rcases List.eq_nil_or_concat after with rfl | ⟨after', last', rfl⟩
    · obtain ⟨rfl, hsame⟩ := List.append_inj' heq rfl
      obtain rfl : last = piece := by simpa using hsame
      exact hlast
    · have heq' : pieces ++ [last] = (before ++ piece :: after') ++ [last'] := by simpa using heq
      exact hall before piece after' (List.append_inj' heq' rfl).1

/-- Pieces laid end to end meet each element below their total once. -/
theorem existsUnique_piece (lengths : List Nat) {j : Nat} (hj : j < lengths.sum) :
    ∃! k, k < lengths.length ∧ (lengths.take k).sum ≤ j ∧ j < (lengths.take (k + 1)).sum := by
  have hmono := List.monotone_sum_take lengths
  have hex : ∃ k, j < (lengths.take (k + 1)).sum :=
    ⟨lengths.length, by rwa [List.take_of_length_le (by omega)]⟩
  classical
  have hspec := Nat.find_spec hex
  refine ⟨Nat.find hex, ⟨?_, ?_, hspec⟩, ?_⟩
  · by_contra hge
    -- past the end there is nothing more to take
    have hpos : lengths ≠ [] := by
      rintro rfl
      simp at hj
    have hlen := List.length_pos_iff.mpr hpos
    have := Nat.find_min hex (m := lengths.length - 1) (by omega)
    rw [Nat.sub_add_cancel hlen, List.take_of_length_le le_rfl] at this
    exact this hj
  · cases hfind : Nat.find hex with
    | zero => simp
    | succ k =>
      have := Nat.find_min hex (m := k) (by omega)
      omega
  · rintro k ⟨_, hle, hlt⟩
    refine le_antisymm ?_ (Nat.find_min' hex hlt)
    by_contra hgt
    have := hmono (show Nat.find hex + 1 ≤ k by omega)
    dsimp only at this
    omega

/-! ## Stores -/

/-- `data` written into memory from `position` on. -/
def store (memory : Nat → α) (position : Nat) (data : List α) : Nat → α := fun j =>
  if position ≤ j then (data[j - position]?).getD (memory j) else memory j

@[simp] theorem store_nil (memory : Nat → α) (position : Nat) :
    store memory position [] = memory := by
  funext j
  simp [store]

theorem store_inside (memory : Nat → α) (position : Nat) {data : List α} {j : Nat} {a : α}
    (h : data[j]? = some a) : store memory position data (position + j) = a := by
  simp [store, h]

theorem store_outside (memory : Nat → α) {position : Nat} {data : List α} {j : Nat}
    (h : j < position ∨ position + data.length ≤ j) : store memory position data j = memory j := by
  unfold store
  split
  · rw [List.getElem?_eq_none (by omega)]
    rfl
  · rfl

/-- Two stores, the second where the first ends. -/
theorem store_store (memory : Nat → α) (position : Nat) (first second : List α) :
    store (store memory position first) (position + first.length) second =
      store memory position (first ++ second) := by
  funext j
  by_cases hlow : j < position
  · rw [store_outside _ (by omega), store_outside _ (by omega), store_outside _ (by omega)]
  · by_cases hin : j < position + first.length
    · rw [store_outside _ (by omega)]
      unfold store
      rw [if_pos (by omega), if_pos (by omega), List.getElem?_append_left (by omega)]
    · have hsub : j - position - first.length = j - (position + first.length) := by omega
      unfold store
      rw [if_pos (by omega), if_pos (by omega), if_pos (by omega),
        List.getElem?_append_right (by omega), hsub, List.getElem?_eq_none (l := first) (by omega)]
      rfl

end Fill
end Lib
end Libtorrent4j
