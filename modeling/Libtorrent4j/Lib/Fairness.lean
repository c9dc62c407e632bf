import Mathlib.Order.WellFounded
import Mathlib.Order.RelClasses
import Mathlib.Data.Nat.Init

/-!
# Progress under weak fairness

Something is bound to happen when in every state before it there is one party whose step brings it
nearer, this party can make its step, and the others' steps neither take it further away nor
choose another party. Then **no run in which nobody is passed over for ever avoids it**
(`Nears.reaches`), in whatever order the parties take their steps.
-/

namespace Libtorrent4j
namespace Lib

variable {σ τ α : Type*} {Step : Option τ → σ → σ → Prop}

def Enabled (Step : Option τ → σ → σ → Prop) (t : τ) (s : σ) : Prop := ∃ s', Step (some t) s s'

/-- An endless run, and who makes its steps. What nobody does is done from outside. -/
structure Execution (Step : Option τ → σ → σ → Prop) where
  state : Nat → σ
  who : Nat → Option τ
  step : ∀ i, Step (who i) (state i) (state (i + 1))

/-- Weak fairness: who can go on all the time does so at some time. -/
def Execution.Fair (x : Execution Step) : Prop :=
  ∀ t i, ∃ j ≥ i, x.who j = some t ∨ ¬ Enabled Step t (x.state j)

/-- One step more at the beginning. -/
def Execution.cons (t : Option τ) (s : σ) (x : Execution Step) (h : Step t s (x.state 0)) :
    Execution Step where
  state
    | 0 => s
    | i + 1 => x.state i
  who
    | 0 => t
    | i + 1 => x.who i
  step
    | 0 => h
    | i + 1 => x.step i

theorem Execution.Fair.cons {t : Option τ} {s : σ} {x : Execution Step} (hx : x.Fair)
    (h : Step t s (x.state 0)) : (x.cons t s h).Fair := by
  intro t' i
  obtain ⟨j, hij, hturn⟩ := hx t' i
  exact ⟨j + 1, Nat.le_succ_of_le hij, hturn⟩

/-- Nothing happens any more. -/
def Execution.idle (s : σ) (h : Step none s s) : Execution Step where
  state _ := s
  who _ := none
  step _ := h

theorem Execution.idle_fair {s : σ} {h : Step none s s} (hhalt : ∀ t, ¬ Enabled Step t s) :
    (Execution.idle s h).Fair :=
  fun t i => ⟨i, le_rfl, Or.inr (hhalt t)⟩

/-- What every step keeps holds from any moment at which it holds on. -/
theorem Execution.onwards (x : Execution Step) {P : σ → Prop} {i j : Nat} (hij : i ≤ j)
    (hi : P (x.state i)) (hstep : ∀ k, P (x.state k) → P (x.state (k + 1))) : P (x.state j) := by
  induction j, hij using Nat.le_induction with
  | base => exact hi
  | succ j hij ih => exact hstep j ih

/-- Whatever holds at first and is kept by every step holds all along. -/
theorem Execution.always (x : Execution Step) {I : σ → Prop} (hstart : I (x.state 0))
    (hstep : ∀ who s s', I s → Step who s s' → I s') (i : Nat) : I (x.state i) :=
  x.onwards (Nat.zero_le i) hstart fun k h => hstep _ _ _ h (x.step k)

/-- Every step brings the goal about, or brings it nearer, or is not the helper's and leaves all
    as it is. -/
structure Nears [LT α] (Step : Option τ → σ → σ → Prop) (I goal : σ → Prop) (helper : σ → τ)
    (rank : σ → α) : Prop where
  enabled : ∀ s, I s → ¬ goal s → Enabled Step (helper s) s
  step : ∀ who s s', I s → ¬ goal s → Step who s s' → goal s' ∨ rank s' < rank s ∨
    (who ≠ some (helper s) ∧ rank s' = rank s ∧ helper s' = helper s)

namespace Nears

variable [LT α] {I goal : σ → Prop} {helper : σ → τ} {rank : σ → α}
  (h : Nears Step I goal helper rank)
  (x : Execution Step)

include h

/-- As long as nothing has come nearer the helper is the same one and has not made a step. -/
theorem unless_nearer (hI : ∀ i, I (x.state i)) {i j : Nat} (hij : i ≤ j) :
    (∃ k ≥ i, goal (x.state k) ∨ rank (x.state k) < rank (x.state i)) ∨
      (rank (x.state j) = rank (x.state i) ∧ helper (x.state j) = helper (x.state i) ∧
        ∀ k, i ≤ k → k < j → x.who k ≠ some (helper (x.state i))) := by
  induction j, hij using Nat.le_induction with
  | base => exact Or.inr ⟨rfl, rfl, fun k hk hk' => absurd hk' (Nat.not_lt.mpr hk)⟩
  | succ j hij ih =>
    rcases ih with hdone | ⟨hrank, hhelper, hpassed⟩
    · exact Or.inl hdone
    · by_cases hgoal : goal (x.state j)
      · exact Or.inl ⟨j, hij, Or.inl hgoal⟩
      · rcases h.step _ _ _ (hI j) hgoal (x.step j) with hreached | hnearer | ⟨hwho, hsame, hstays⟩
        · exact Or.inl ⟨j + 1, Nat.le_succ_of_le hij, Or.inl hreached⟩
        · exact Or.inl ⟨j + 1, Nat.le_succ_of_le hij, Or.inr (hrank ▸ hnearer)⟩
        · refine Or.inr ⟨hsame.trans hrank, hstays.trans hhelper, fun k hk hk' => ?_⟩
          rcases Nat.lt_succ_iff_lt_or_eq.mp hk' with hbefore | rfl
          · exact hpassed k hk hbefore
          · exact hhelper ▸ hwho

/-- The helper is not passed over for ever, so something comes nearer. -/
theorem comes_nearer (hI : ∀ i, I (x.state i)) (hfair : x.Fair) (i : Nat) :
    ∃ k ≥ i, goal (x.state k) ∨ rank (x.state k) < rank (x.state i) := by
  obtain ⟨j, hij, hturn⟩ := hfair (helper (x.state i)) i
  rcases h.unless_nearer x hI (Nat.le_succ_of_le hij) with hdone | ⟨-, -, hpassed⟩
  · exact hdone
  · rcases h.unless_nearer x hI hij with hdone | ⟨-, hhelper, -⟩
    · exact hdone
    · rcases hturn with hwho | hblocked
      · exact absurd hwho (hpassed j hij (Nat.lt_succ_self j))
      · by_cases hgoal : goal (x.state j)
        · exact ⟨j, hij, Or.inl hgoal⟩
        · exact absurd (hhelper ▸ h.enabled _ (hI j) hgoal) hblocked

/-- **No fair run avoids the goal**, from any moment on. -/
theorem reaches [WellFoundedLT α] (hI : ∀ i, I (x.state i)) (hfair : x.Fair) (i : Nat) :
    ∃ j ≥ i, goal (x.state j) := by
  induction hr : rank (x.state i) using WellFoundedLT.induction generalizing i with
  | ind r ih =>
    obtain ⟨k, hik, hgoal | hnearer⟩ := h.comes_nearer x hI hfair i
    · exact ⟨k, hik, hgoal⟩
    · obtain ⟨j, hkj, hgoal⟩ := ih _ (hr ▸ hnearer) k rfl
      exact ⟨j, hik.trans hkj, hgoal⟩

end Nears

end Lib
end Libtorrent4j
