import Mathlib.Tactic.Lemma
import Mathlib.Tactic.SplitIfs

/-!
# Reentrant locks

A lock a thread may take again while it has it. It is free once it has been given back as often as
it has been taken; no lemma here is about what it protects.
-/

namespace Libtorrent4j
namespace Lib

variable {τ : Type*}

/-- Who has the lock, and how often it has been taken. -/
structure Hold (τ : Type*) where
  owner : τ
  count : Nat
  pos : 0 < count

abbrev ReentrantLock (τ : Type*) := Option (Hold τ)

namespace ReentrantLock

/-- How often the thread has to unlock. -/
def heldBy [DecidableEq τ] (l : ReentrantLock τ) (t : τ) : Nat :=
  match l with
  | some h => if h.owner = t then h.count else 0
  | none => 0

/-- Nothing as long as another thread has the lock. -/
def lock [DecidableEq τ] (l : ReentrantLock τ) (t : τ) : Option (ReentrantLock τ) :=
  match l with
  | none => some (some ⟨t, 1, Nat.one_pos⟩)
  | some h => if h.owner = t then some (some ⟨t, h.count + 1, Nat.succ_pos _⟩) else none

/-- Called by the owner. -/
def unlock (l : ReentrantLock τ) : ReentrantLock τ :=
  match l with
  | none => none
  | some h => if hlast : h.count = 1 then none else
      some ⟨h.owner, h.count - 1, Nat.sub_pos_of_lt (Nat.lt_of_le_of_ne h.pos (Ne.symm hlast))⟩

variable {l l' : ReentrantLock τ} {hold : Hold τ} {t u : τ}

/-- The last of the holds gives the lock back. -/
theorem unlock_last (hlast : hold.count = 1) : unlock (some hold) = none := dif_pos hlast

/-- Any other hold only counts down, and the owner stays. -/
theorem unlock_more (hmore : hold.count ≠ 1) : ∃ pos, unlock (some hold) =
    some ⟨hold.owner, hold.count - 1, pos⟩ :=
  ⟨_, dif_neg hmore⟩

/-- A lock that is still held is held by the same owner. -/
theorem owner_of_unlock (h : l.unlock = some hold) :
    ∃ before, l = some before ∧ before.owner = hold.owner := by
  cases l with
  | none => cases h
  | some before =>
    by_cases hlast : before.count = 1
    · rw [unlock_last hlast] at h
      cases h
    · obtain ⟨pos, hunlock⟩ := unlock_more hlast
      rw [hunlock] at h
      cases h
      exact ⟨before, rfl, rfl⟩

variable [DecidableEq τ]

@[simp] theorem heldBy_none : heldBy none t = 0 := rfl

@[simp] theorem heldBy_some : heldBy (some hold) t = if hold.owner = t then hold.count else 0 := rfl

@[simp] theorem lock_none : lock none t = some (some ⟨t, 1, Nat.one_pos⟩) := rfl

@[simp] theorem lock_some : lock (some hold) t =
    if hold.owner = t then some (some ⟨t, hold.count + 1, Nat.succ_pos _⟩) else none := rfl

/-- Who holds it at least once is its owner. -/
theorem heldBy_pos : 0 < l.heldBy t ↔ ∃ h, l = some h ∧ h.owner = t := by
  cases l with
  | none => simp
  | some h => by_cases howner : h.owner = t <;> simp [howner, h.pos]

/-- Two threads do not have the lock at a time. -/
theorem heldBy_unique (ht : 0 < l.heldBy t) (hu : 0 < l.heldBy u) : t = u := by
  obtain ⟨h, rfl, rfl⟩ := heldBy_pos.mp ht
  obtain ⟨h', heq, rfl⟩ := heldBy_pos.mp hu
  cases heq
  rfl

/-- A thread waits only for another one. -/
theorem lock_eq_none : l.lock t = none ↔ ∃ h, l = some h ∧ h.owner ≠ t := by
  cases l with
  | none => simp
  | some h => by_cases howner : h.owner = t <;> simp [howner]

/-- Who takes the lock has it once more, and nobody else has it. -/
theorem heldBy_lock (h : l.lock t = some l') :
    l'.heldBy t = l.heldBy t + 1 ∧ ∀ u, u ≠ t → l'.heldBy u = l.heldBy u ∧ l.heldBy u = 0 := by
  cases l with
  | none =>
    cases h
    exact ⟨by simp, fun u hu => by simp [hu.symm]⟩
  | some hold =>
    by_cases howner : hold.owner = t
    · rw [lock_some, if_pos howner] at h
      cases h
      exact ⟨by simp [howner], fun u hu => by simp [howner, hu.symm]⟩
    · simp [howner] at h

/-- Who has locked it is the owner. -/
theorem owner_of_lock (h : l.lock t = some l') : ∃ hold, l' = some hold ∧ hold.owner = t :=
  heldBy_pos.mp (by rw [(heldBy_lock h).1]; exact Nat.succ_pos _)

/-- Who gives the lock back has it once less. -/
theorem heldBy_unlock (h : 0 < l.heldBy t) :
    l.unlock.heldBy t = l.heldBy t - 1 ∧ ∀ u, u ≠ t → l.unlock.heldBy u = l.heldBy u := by
  obtain ⟨hold, rfl, rfl⟩ := heldBy_pos.mp h
  by_cases hlast : hold.count = 1
  · rw [unlock_last hlast]
    exact ⟨by simp [hlast], fun u hu => by simp [hu.symm]⟩
  · obtain ⟨pos, hunlock⟩ := unlock_more hlast
    rw [hunlock]
    exact ⟨by simp, fun u hu => by simp [hu.symm]⟩

end ReentrantLock

end Lib
end Libtorrent4j
