import Mathlib.Tactic

/-!
# Computations over a state that may stop with an error

`Exec σ ε α` is a program that reads and updates a state `σ` and either returns an `α` or
stops with an `ε`. **The state survives the error**, which is the point of the type: a
program that fails half way has still changed the world, and what it has changed by then
is what a safety theorem is about.

Two logics are developed over it, and they are the only way programs are reasoned about
in this project:

* `wp m Q R s`: from `s`, `m` returns into `Q` or stops into `R`. One rule per
  combinator; a program is verified by rewriting with the rules and citing the
  specification of each function it calls.
* `wp2 m n Q R s t`, and its special case `Agree S m n`: from two states the two programs
  do the same and end in related states. This is the two-run logic, for transparency and
  non-interference.
-/

namespace Libtorrent4j
namespace Lib

/-- A program over the state `σ`; the state reached is kept when it stops with an error. -/
def Exec (σ ε α : Type) : Type := σ → Except ε α × σ

namespace Exec

variable {σ τ ε ε' α β ι : Type}

/-! ## The combinators -/

/-- The program that does nothing. -/
def ret (a : α) : Exec σ ε α := fun s => (.ok a, s)

/-- First `m`, and then `f` on what it returns. If `m` stops, so does the whole. -/
def andThen (m : Exec σ ε α) (f : α → Exec σ ε β) : Exec σ ε β := fun s =>
  match m s with
  | (.ok a, s') => f a s'
  | (.error e, s') => (.error e, s')

instance : Monad (Exec σ ε) where
  pure := ret
  bind := andThen

/-- The program that stops at once. -/
def throw (e : ε) : Exec σ ε α := fun s => (.error e, s)

/-- Stop with `e` when the condition holds. -/
def throwIf (c : Prop) [Decidable c] (e : ε) : Exec σ ε Unit := if c then throw e else ret ()

/-- Run `m` only when the condition holds. -/
def onlyIf (c : Prop) [Decidable c] (m : Exec σ ε Unit) : Exec σ ε Unit :=
  if c then m else ret ()

def get : Exec σ ε σ := fun s => (.ok s, s)

def modify (f : σ → σ) : Exec σ ε Unit := fun s => (.ok (), f s)

/-- A primitive step: an answer and the next state, never an error. -/
def prim (f : σ → α × σ) : Exec σ ε α := fun s => (.ok (f s).1, (f s).2)

def mapError (g : ε → ε') (m : Exec σ ε α) : Exec σ ε' α := fun s =>
  match m s with
  | (.ok a, s') => (.ok a, s')
  | (.error e, s') => (.error (g e), s')

/-- Run `m` and hand its outcome on as a value. -/
def attempt (m : Exec σ ε α) : Exec σ ε' (Except ε α) := fun s => (.ok (m s).1, (m s).2)

/-- Run `m` and then `last`, whether `m` returned or stopped: a destructor. -/
def ensuring (m : Exec σ ε α) (last : Exec σ ε' Unit) : Exec σ ε α := fun s =>
  ((m s).1, (last (m s).2).2)

/-- Run a program over a part of the state. -/
def zoom (part : σ → τ) (put : τ → σ → σ) (m : Exec τ ε α) : Exec σ ε α := fun s =>
  ((m (part s)).1, put (m (part s)).2 s)

/-- `for x in xs`, left at the first error. -/
def forEach (xs : List ι) (body : ι → Exec σ ε Unit) : Exec σ ε Unit :=
  match xs with
  | [] => ret ()
  | x :: rest => andThen (body x) fun _ => forEach rest body

/-- `for x in xs`, collecting what the body returns. -/
def mapEach (xs : List ι) (body : ι → Exec σ ε β) : Exec σ ε (List β) :=
  match xs with
  | [] => ret []
  | x :: rest => andThen (body x) fun y => andThen (mapEach rest body) fun ys => ret (y :: ys)

/-! ## Weakest preconditions -/

/-- From `s`, `m` returns into `Q` or stops into `R`. -/
def wp (m : Exec σ ε α) (Q : α → σ → Prop) (R : ε → σ → Prop) (s : σ) : Prop :=
  match m s with
  | (.ok a, s') => Q a s'
  | (.error e, s') => R e s'

variable {Q Q' : α → σ → Prop} {R R' : ε → σ → Prop} {s : σ}

/-- From the outcome to the postcondition, for a run that returns, -/
theorem wp_ok {m : Exec σ ε α} {a : α} {s' : σ} (h : wp m Q R s) (hm : m s = (.ok a, s')) :
    Q a s' := by
  simpa [wp, hm] using h

/-- and for one that stops. -/
theorem wp_error {m : Exec σ ε α} {e : ε} {s' : σ} (h : wp m Q R s)
    (hm : m s = (.error e, s')) : R e s' := by
  simpa [wp, hm] using h

/-- And back: whatever is known of the run may be used as a specification. -/
theorem wp_of {m : Exec σ ε α} (hok : ∀ a s', m s = (.ok a, s') → Q a s')
    (herr : ∀ e s', m s = (.error e, s') → R e s') : wp m Q R s := by
  unfold wp
  split
  · exact hok _ _ ‹_›
  · exact herr _ _ ‹_›

/-- A postcondition that ignores the outcome is a statement about the final state. -/
theorem wp_state {m : Exec σ ε α} {P : σ → Prop} :
    wp m (fun _ => P) (fun _ => P) s ↔ P (m s).2 := by
  unfold wp
  split <;> simp_all

/-- A program that can only return `x` does. -/
theorem wp_answer {m : Exec σ ε α} {x : α} (h : wp m (fun a _ => a = x) (fun _ _ => False) s) :
    (m s).1 = .ok x := by
  unfold wp at h
  split at h
  · rename_i heq
    rw [heq, h]
  · exact h.elim

/-- Programs with the same specifications do the same. -/
theorem eq_of_wp {m n : Exec σ ε α} {s : σ}
    (h : ∀ (Q : α → σ → Prop) (R : ε → σ → Prop), wp m Q R s ↔ wp n Q R s) : m s = n s := by
  have hm : wp m (fun a s' => n s = (.ok a, s')) (fun e s' => n s = (.error e, s')) s :=
    (h _ _).mpr (wp_of (fun _ _ h => h) fun _ _ h => h)
  rcases hrun : m s with ⟨_ | _, s'⟩
  · exact (wp_error hm hrun).symm
  · exact (wp_ok hm hrun).symm

/-- Weaker postconditions. -/
theorem wp_mono {m : Exec σ ε α} (h : wp m Q R s) (hQ : ∀ a s', Q a s' → Q' a s')
    (hR : ∀ e s', R e s' → R' e s') : wp m Q' R' s := by
  unfold wp at *
  split at h
  · exact hQ _ _ h
  · exact hR _ _ h

/-- A postcondition that holds everywhere needs nothing of the program. -/
theorem wp_any {m : Exec σ ε α} (hQ : ∀ a s', Q a s') (hR : ∀ e s', R e s') : wp m Q R s :=
  wp_of (fun a s' _ => hQ a s') fun e s' _ => hR e s'

/-- Two specifications of one run hold together. -/
theorem wp_and {m : Exec σ ε α} {S : ε → σ → Prop} (h : wp m Q R s) (h' : wp m Q' S s) :
    wp m (fun a s' => Q a s' ∧ Q' a s') (fun e s' => R e s' ∧ S e s') s := by
  unfold wp at *
  split at h <;> simp_all

/-- What holds of the outcome for each `i` holds of it for all of them: there is one outcome. -/
theorem wp_forall {m : Exec σ ε α} {ι : Sort*} {Q : ι → α → σ → Prop} {R : ι → ε → σ → Prop}
    (h : ∀ i, wp m (Q i) (R i) s) :
    wp m (fun a s' => ∀ i, Q i a s') (fun e s' => ∀ i, R i e s') s :=
  wp_of (fun _ _ hm i => wp_ok (h i) hm) fun _ _ hm i => wp_error (h i) hm

/-- One rewrite rule for each way to build a program. Specifications are proved by unfolding
    along them. -/
@[simp] theorem wp_ret (a : α) : wp (ret a : Exec σ ε α) Q R s ↔ Q a s := Iff.rfl

@[simp] theorem wp_pure (a : α) : wp (pure a : Exec σ ε α) Q R s ↔ Q a s := Iff.rfl

@[simp] theorem wp_andThen {m : Exec σ ε α} {f : α → Exec σ ε β} {Q : β → σ → Prop} :
    wp (andThen m f) Q R s ↔ wp m (fun a s' => wp (f a) Q R s') R s := by
  unfold wp andThen
  rcases m s with ⟨_ | _, _⟩ <;> rfl

@[simp] theorem wp_bind {m : Exec σ ε α} {f : α → Exec σ ε β} {Q : β → σ → Prop} :
    wp (m >>= f) Q R s ↔ wp m (fun a s' => wp (f a) Q R s') R s := wp_andThen

@[simp] theorem wp_throw (e : ε) : wp (throw e : Exec σ ε α) Q R s ↔ R e s := Iff.rfl

@[simp] theorem wp_throwIf {c : Prop} [Decidable c] (e : ε) {Q : Unit → σ → Prop} :
    wp (throwIf c e : Exec σ ε Unit) Q R s ↔ (c → R e s) ∧ (¬ c → Q () s) := by
  by_cases h : c <;> simp [throwIf, h]

@[simp] theorem wp_onlyIf {c : Prop} [Decidable c] {m : Exec σ ε Unit} {Q : Unit → σ → Prop} :
    wp (onlyIf c m) Q R s ↔ (c → wp m Q R s) ∧ (¬ c → Q () s) := by
  by_cases h : c <;> simp [onlyIf, h]

@[simp] theorem wp_get {Q : σ → σ → Prop} : wp (get : Exec σ ε σ) Q R s ↔ Q s s := Iff.rfl

@[simp] theorem wp_modify {f : σ → σ} {Q : Unit → σ → Prop} :
    wp (modify f : Exec σ ε Unit) Q R s ↔ Q () (f s) := Iff.rfl

@[simp] theorem wp_prim {f : σ → α × σ} :
    wp (prim f : Exec σ ε α) Q R s ↔ Q (f s).1 (f s).2 := Iff.rfl

@[simp] theorem wp_mapError {g : ε → ε'} {m : Exec σ ε α} {R : ε' → σ → Prop} :
    wp (mapError g m) Q R s ↔ wp m Q (fun e => R (g e)) s := by
  unfold wp mapError
  rcases m s with ⟨_ | _, _⟩ <;> rfl

@[simp] theorem wp_attempt {m : Exec σ ε α} {Q : Except ε α → σ → Prop} {R : ε' → σ → Prop} :
    wp (attempt m) Q R s ↔ wp m (fun a => Q (.ok a)) (fun e => Q (.error e)) s := by
  unfold wp attempt
  rcases m s with ⟨_ | _, _⟩ <;> rfl

theorem wp_ensuring {m : Exec σ ε α} {last : Exec σ ε' Unit} :
    wp (ensuring m last) Q R s ↔
      wp m (fun a s' => Q a (last s').2) (fun e s' => R e (last s').2) s := by
  unfold wp ensuring
  rcases m s with ⟨_ | _, _⟩ <;> rfl

@[simp] theorem wp_zoom {part : σ → τ} {put : τ → σ → σ} {m : Exec τ ε α} :
    wp (zoom part put m) Q R s ↔
      wp m (fun a t => Q a (put t s)) (fun e t => R e (put t s)) (part s) := by
  unfold wp zoom
  rcases m (part s) with ⟨_ | _, _⟩ <;> rfl

theorem wp_ite {c : Prop} [Decidable c] {m m' : Exec σ ε α} :
    wp (if c then m else m') Q R s ↔ (c → wp m Q R s) ∧ (¬ c → wp m' Q R s) := by
  by_cases h : c <;> simp [h]

/-! ### Loops

The invariant is indexed by the elements already handled, so that it can say what has been
done so far; `rest` being what is left keeps the rule usable for a loop over a fixed list. -/

/-- The rule of a loop over a list: an invariant of what has been handled, and one turn that
    keeps it. -/
theorem wp_forEach {xs : List ι} {body : ι → Exec σ ε Unit} {Q : Unit → σ → Prop}
    (I : List ι → σ → Prop) (h0 : I [] s)
    (hstep : ∀ done x rest s, xs = done ++ x :: rest → I done s →
      wp (body x) (fun _ s' => I (done ++ [x]) s') R s)
    (hend : ∀ s, I xs s → Q () s) : wp (forEach xs body) Q R s := by
  suffices key : ∀ rest done s, xs = done ++ rest → I done s → wp (forEach rest body) Q R s from
    key xs [] s rfl h0
  intro rest
  induction rest with
  | nil =>
    intro done s hxs hI
    rw [List.append_nil] at hxs
    exact hend s (hxs ▸ hI)
  | cons x rest ih =>
    intro done s hxs hI
    rw [forEach, wp_andThen]
    refine wp_mono (hstep done x rest s hxs hI) ?_ fun _ _ h => h
    intro _ s' hI'
    exact ih (done ++ [x]) s' (by simp [hxs]) hI'

/-- A loop over the numbers below `n`; the invariant is indexed by the next one. -/
theorem wp_forEach_range {n : Nat} {body : Nat → Exec σ ε Unit} {Q : Unit → σ → Prop}
    (I : Nat → σ → Prop) (h0 : I 0 s)
    (hstep : ∀ k < n, ∀ s, I k s → wp (body k) (fun _ s' => I (k + 1) s') R s)
    (hend : ∀ s, I n s → Q () s) : wp (forEach (List.range n) body) Q R s := by
  refine wp_forEach (fun done => I done.length) h0 ?_ fun s hs => hend s ?_
  · intro done k rest s hxs hs
    have hk : done.length < n := by
      have := congrArg List.length hxs
      simp at this
      omega
    obtain rfl : k = done.length := by
      have := congrArg (·[done.length]?) hxs
      simpa [hk] using this.symm
    simpa using hstep done.length hk s hs
  · simpa using hs

/-- A loop invariant that does not depend on how far the loop has come. -/
theorem wp_forEach_inv {xs : List ι} {body : ι → Exec σ ε Unit} {Q : Unit → σ → Prop}
    (I : σ → Prop) (h0 : I s)
    (hstep : ∀ x ∈ xs, ∀ s, I s → wp (body x) (fun _ => I) R s)
    (hend : ∀ s, I s → Q () s) : wp (forEach xs body) Q R s :=
  wp_forEach (fun _ => I) h0
    (fun done x rest s hxs hI => hstep x (by simp [hxs]) s hI) hend

/-- A loop of checks leaves the state alone: it stops at the first element that fails. -/
theorem wp_forEach_throwIf {xs : List ι} {c : ι → Prop} [DecidablePred c] {e : ι → ε}
    {Q : Unit → σ → Prop} (herr : ∀ x ∈ xs, c x → R (e x) s)
    (hok : (∀ x ∈ xs, ¬ c x) → Q () s) :
    wp (forEach xs fun x => throwIf (c x) (e x)) Q R s := by
  refine wp_forEach (fun done t => t = s ∧ ∀ x ∈ done, ¬ c x) (by simp) ?_ ?_
  · rintro done x rest t rfl ⟨rfl, hdone⟩
    rw [wp_throwIf]
    refine ⟨herr x (by simp), fun hc => ⟨rfl, ?_⟩⟩
    intro y hy
    rcases List.mem_append.mp hy with hy | hy
    · exact hdone y hy
    · obtain rfl : y = x := by simpa using hy
      exact hc
  · rintro t ⟨rfl, hall⟩
    exact hok hall

/-- The same for a loop that collects. The invariant sees what has been collected. -/
theorem wp_mapEach {xs : List ι} {body : ι → Exec σ ε β} {Q : List β → σ → Prop}
    (I : List ι → List β → σ → Prop) (h0 : I [] [] s)
    (hstep : ∀ done ys x rest s, xs = done ++ x :: rest → I done ys s →
      wp (body x) (fun y s' => I (done ++ [x]) (ys ++ [y]) s') R s)
    (hend : ∀ ys s, I xs ys s → Q ys s) : wp (mapEach xs body) Q R s := by
  suffices key : ∀ rest done ys s, xs = done ++ rest → I done ys s →
      wp (mapEach rest body) (fun ys' s' => Q (ys ++ ys') s') R s by
    simpa using key xs [] [] s rfl h0
  intro rest
  induction rest with
  | nil =>
    intro done ys s hxs hI
    rw [List.append_nil] at hxs
    simpa [mapEach] using hend ys s (hxs ▸ hI)
  | cons x rest ih =>
    intro done ys s hxs hI
    simp only [mapEach, wp_andThen, wp_ret]
    refine wp_mono (hstep done ys x rest s hxs hI) ?_ fun _ _ h => h
    intro y s' hI'
    refine wp_mono (ih (done ++ [x]) (ys ++ [y]) s' (by simp [hxs]) hI') ?_ fun _ _ h => h
    intro ys' s'' hQ
    simpa using hQ

/-! ### How far a loop comes -/

/-- The loop over `xs` comes to `x` in the state `s'`, with `rest` still ahead. -/
def Reaches (xs : List ι) (body : ι → Exec σ ε β) (s : σ) (x : ι) (rest : List ι) (s' : σ) : Prop :=
  ∃ done ys, xs = done ++ x :: rest ∧ mapEach done body s = (.ok ys, s')

namespace Reaches

variable {xs rest later : List ι} {body : ι → Exec σ ε β} {x z : ι} {y : β} {e : ε} {s' s'' : σ}

/-- The loop starts with its first element. -/
theorem here : Reaches (x :: rest) body s x rest s := ⟨[], [], rfl, rfl⟩

/-- Past a turn that returns. -/
theorem cons (h : Reaches rest body s' z later s'') (hturn : body x s = (.ok y, s')) :
    Reaches (x :: rest) body s z later s'' := by
  obtain ⟨done, ys, rfl, hdone⟩ := h
  exact ⟨x :: done, y :: ys, rfl, by simp [mapEach, andThen, hturn, hdone, ret]⟩

/-- The loop stops where a turn does. -/
theorem stops (h : Reaches xs body s x rest s') (hturn : body x s' = (.error e, s'')) :
    mapEach xs body s = (.error e, s'') := by
  obtain ⟨done, ys, rfl, hdone⟩ := h
  induction done generalizing s ys with
  | nil =>
    obtain rfl : s = s' := congrArg Prod.snd hdone
    simp [mapEach, andThen, hturn]
  | cons first done ih =>
    rcases hfirst : body first s with ⟨_ | y, s₁⟩
    · simp [mapEach, andThen, hfirst] at hdone
    · rcases hrest : mapEach done body s₁ with ⟨_ | ys', s₂⟩
      · simp [mapEach, andThen, hfirst, hrest] at hdone
      · simp only [mapEach, andThen, hfirst, hrest, ret, Prod.mk.injEq] at hdone
        obtain ⟨-, rfl⟩ := hdone
        simp [mapEach, andThen, hfirst, ih ys' hrest]

/-- The first turn, or one that the loop comes to after it. -/
theorem uncons (h : Reaches (x :: rest) body s z later s') :
    (z = x ∧ later = rest ∧ s' = s) ∨
      ∃ y s₁, body x s = (.ok y, s₁) ∧ Reaches rest body s₁ z later s' := by
  obtain ⟨done, ys, hxs, hdone⟩ := h
  cases done with
  | nil =>
    obtain ⟨rfl, rfl⟩ := List.cons.inj hxs
    exact Or.inl ⟨rfl, rfl, (congrArg Prod.snd hdone).symm⟩
  | cons first done =>
    obtain ⟨rfl, hrest⟩ := List.cons.inj hxs
    rcases hfirst : body x s with ⟨_ | y, s₁⟩
    · simp [mapEach, andThen, hfirst] at hdone
    · rcases hlater : mapEach done body s₁ with ⟨_ | ys', s₂⟩
      · simp [mapEach, andThen, hfirst, hlater] at hdone
      · simp only [mapEach, andThen, hfirst, hlater, ret, Prod.mk.injEq] at hdone
        obtain ⟨-, rfl⟩ := hdone
        exact Or.inr ⟨y, s₁, rfl, done, ys', hrest, hlater⟩

/-- A loop whose first turn stops comes to no other. -/
theorem eq_of_error (h : Reaches (x :: rest) body s z later s')
    (hturn : body x s = (.error e, s'')) : z = x ∧ s' = s := by
  rcases h.uncons with ⟨hz, -, hs⟩ | ⟨y, s₁, hfirst, -⟩
  · exact ⟨hz, hs⟩
  · rw [hturn] at hfirst
    cases (Prod.mk.inj hfirst).1

end Reaches

/-! ## Invariants

`Keeps I m`: whatever `m` answers, it ends in `I` when it starts in `I`. -/

/-- The program keeps the invariant, on every exit. -/
def Keeps (I : σ → Prop) (m : Exec σ ε α) : Prop := ∀ s, I s → I (m s).2

/-- An invariant that is kept is a specification, -/
theorem Keeps.wp {I : σ → Prop} {m : Exec σ ε α} (h : Keeps I m) (hs : I s) :
    wp m (fun _ => I) (fun _ => I) s := wp_state.mpr (h s hs)

/-- and the other way round. -/
theorem keeps_iff {I : σ → Prop} {m : Exec σ ε α} :
    Keeps I m ↔ ∀ s, I s → Exec.wp m (fun _ => I) (fun _ => I) s :=
  forall₂_congr fun _ _ => wp_state.symm

/-- One rule for each way to build a program, again: to show that a program keeps an invariant
    is to walk along its text. -/
theorem keeps_ret {I : σ → Prop} (a : α) : Keeps I (ret a : Exec σ ε α) := fun _ h => h

theorem keeps_throw {I : σ → Prop} (e : ε) : Keeps I (throw e : Exec σ ε α) := fun _ h => h

theorem keeps_throwIf {I : σ → Prop} {c : Prop} [Decidable c] (e : ε) :
    Keeps I (throwIf c e : Exec σ ε Unit) := by
  unfold throwIf
  split
  · exact keeps_throw e
  · exact keeps_ret ()

theorem keeps_onlyIf {I : σ → Prop} {c : Prop} [Decidable c] {m : Exec σ ε Unit}
    (hm : c → Keeps I m) : Keeps I (onlyIf c m) := by
  unfold onlyIf
  split
  · exact hm ‹_›
  · exact keeps_ret ()

theorem keeps_get {I : σ → Prop} : Keeps I (get : Exec σ ε σ) := fun _ h => h

theorem keeps_andThen {I : σ → Prop} {m : Exec σ ε α} {f : α → Exec σ ε β}
    (hm : Keeps I m) (hf : ∀ a, Keeps I (f a)) : Keeps I (andThen m f) := by
  intro s hs
  have hm' := hm s hs
  unfold andThen
  split
  · rename_i a s' h
    rw [h] at hm'
    exact hf a s' hm'
  · rename_i e s' h
    rw [h] at hm'
    exact hm'

theorem keeps_bind {I : σ → Prop} {m : Exec σ ε α} {f : α → Exec σ ε β}
    (hm : Keeps I m) (hf : ∀ a, Keeps I (f a)) : Keeps I (m >>= f) := keeps_andThen hm hf

/-- After a check its negation is known. -/
theorem keeps_throwIf_bind {I : σ → Prop} {c : Prop} [Decidable c] {e : ε}
    {f : Unit → Exec σ ε α} (h : ¬ c → Keeps I (f ())) : Keeps I (throwIf c e >>= f) := by
  by_cases hc : c
  · simp only [throwIf, hc, if_true]
    exact keeps_throw e
  · simp only [throwIf, hc, if_false]
    exact h hc

theorem keeps_mapError {I : σ → Prop} {g : ε → ε'} {m : Exec σ ε α} (hm : Keeps I m) :
    Keeps I (mapError g m) := by
  intro s hs
  have hm' := hm s hs
  unfold mapError
  split <;> simp_all

theorem keeps_attempt {I : σ → Prop} {m : Exec σ ε α} (hm : Keeps I m) :
    Keeps I (attempt m : Exec σ ε' (Except ε α)) := hm

theorem keeps_ensuring {I : σ → Prop} {m : Exec σ ε α} {last : Exec σ ε' Unit}
    (hm : Keeps I m) (hl : Keeps I last) : Keeps I (ensuring m last) :=
  fun s hs => hl _ (hm s hs)

/-- On a part of the state it is enough to keep what the invariant says of the part. -/
theorem keeps_zoom {I : σ → Prop} {J : τ → Prop} {part : σ → τ} {put : τ → σ → σ}
    {m : Exec τ ε α} (hm : Keeps J m) (hpart : ∀ s, I s → J (part s))
    (hput : ∀ s t, I s → J t → I (put t s)) : Keeps I (zoom part put m) :=
  fun s hs => hput s _ hs (hm _ (hpart s hs))

theorem keeps_ite {I : σ → Prop} {c : Prop} [Decidable c] {m m' : Exec σ ε α}
    (hm : c → Keeps I m) (hm' : ¬ c → Keeps I m') : Keeps I (if c then m else m') := by
  split
  · exact hm ‹_›
  · exact hm' ‹_›

theorem keeps_forEach {I : σ → Prop} {xs : List ι} {body : ι → Exec σ ε Unit}
    (h : ∀ x ∈ xs, Keeps I (body x)) : Keeps I (forEach xs body) := by
  induction xs with
  | nil => exact keeps_ret ()
  | cons x rest ih =>
    exact keeps_andThen (h x (by simp)) fun _ => ih fun y hy => h y (by simp [hy])

theorem keeps_mapEach {I : σ → Prop} {xs : List ι} {body : ι → Exec σ ε β}
    (h : ∀ x ∈ xs, Keeps I (body x)) : Keeps I (mapEach xs body) := by
  induction xs with
  | nil => exact keeps_ret []
  | cons x rest ih =>
    exact keeps_andThen (h x (by simp)) fun _ =>
      keeps_andThen (ih fun y hy => h y (by simp [hy])) fun _ => keeps_ret _

/-! ## Two runs

`wp2 m n Q R s t`: from `s` and `t`, `m` and `n` both return, into `Q`, or both stop with the
same error, into `R`. What they return need not be the same, nor the types of their states:
a descriptor opened twice may have two numbers. -/

/-- Two programs run side by side: both return, into `Q`, or both stop with the same error,
    into `R`. -/
def wp2 (m : Exec σ ε α) (n : Exec τ ε β) (Q : α → β → σ → τ → Prop) (R : ε → σ → τ → Prop)
    (s : σ) (t : τ) : Prop :=
  match m s, n t with
  | (.ok a, s'), (.ok b, t') => Q a b s' t'
  | (.error e, s'), (.error e', t') => e = e' ∧ R e s' t'
  | _, _ => False

section TwoRuns

variable {α' β' : Type} {m : Exec σ ε α} {n : Exec τ ε β} {Q Q' : α → β → σ → τ → Prop}
  {R R' : ε → σ → τ → Prop} {s : σ} {t : τ}

/-- Weaker relations. -/
theorem wp2_mono (h : wp2 m n Q R s t) (hQ : ∀ a b s' t', Q a b s' t' → Q' a b s' t')
    (hR : ∀ e s' t', R e s' t' → R' e s' t') : wp2 m n Q' R' s t := by
  unfold wp2 at *
  split at h
  · exact hQ _ _ _ _ h
  · exact ⟨h.1, hR _ _ _ h.2⟩
  · exact h

/-- Only what the programs do in these two states counts. -/
theorem wp2_congr {m' : Exec σ ε α} {n' : Exec τ ε β} (hm : m s = m' s) (hn : n t = n' t)
    (h : wp2 m' n' Q R s t) : wp2 m n Q R s t := by
  unfold wp2 at *
  rw [hm, hn]
  exact h

/-- What each run does by itself, put together. -/
theorem wp2_of_wp {A : α → σ → Prop} {E : ε → σ → Prop} {B : β → τ → Prop} {F : ε → τ → Prop}
    (hm : wp m A E s) (hn : wp n B F t)
    (hok : ∀ a b s' t', A a s' → B b t' → Q a b s' t')
    (herr : ∀ e e' s' t', E e s' → F e' t' → e = e' ∧ R e s' t')
    (hleft : ∀ a e s' t', A a s' → F e t' → False)
    (hright : ∀ e b s' t', E e s' → B b t' → False) : wp2 m n Q R s t := by
  revert hm hn
  unfold wp wp2
  rcases m s with ⟨_ | _, _⟩ <;> rcases n t with ⟨_ | _, _⟩ <;> intro hm hn
  · exact herr _ _ _ _ hm hn
  · exact (hright _ _ _ _ hm hn).elim
  · exact (hleft _ _ _ _ hm hn).elim
  · exact hok _ _ _ _ hm hn

/-- Two programs that return. -/
theorem wp2_of_returns {A : α → σ → Prop} {B : β → τ → Prop}
    (hm : wp m A (fun _ _ => False) s) (hn : wp n B (fun _ _ => False) t)
    (hok : ∀ a b s' t', A a s' → B b t' → Q a b s' t') : wp2 m n Q R s t :=
  wp2_of_wp hm hn hok (fun _ _ _ _ h => h.elim) (fun _ _ _ _ _ h => h.elim)
    fun _ _ _ _ h => h.elim

/-- Besides, what the first run does by itself. -/
theorem wp2_and_wp {A : α → σ → Prop} {E : ε → σ → Prop} (h : wp2 m n Q R s t) (hm : wp m A E s) :
    wp2 m n (fun a b s' t' => Q a b s' t' ∧ A a s') (fun e s' t' => R e s' t' ∧ E e s') s t := by
  revert h hm
  unfold wp wp2
  rcases m s with ⟨_ | _, _⟩ <;> rcases n t with ⟨_ | _, _⟩ <;> intro h hm
  · exact ⟨h.1, h.2, hm⟩
  · exact h.elim
  · exact h.elim
  · exact ⟨h, hm⟩

theorem wp2_ret {a : α} {b : β} (h : Q a b s t) : wp2 (ret a) (ret b) Q R s t := h

theorem wp2_throw {e : ε} (h : R e s t) : wp2 (throw e) (throw e) Q R s t := ⟨rfl, h⟩

/-- What comes after may rely on what the first two have established. -/
theorem wp2_andThen {f : α → Exec σ ε α'} {g : β → Exec τ ε β'} {Q : α' → β' → σ → τ → Prop}
    (h : wp2 m n (fun a b s' t' => wp2 (f a) (g b) Q R s' t') R s t) :
    wp2 (andThen m f) (andThen n g) Q R s t := by
  revert h
  unfold wp2 andThen
  rcases m s with ⟨_ | _, _⟩ <;> rcases n t with ⟨_ | _, _⟩ <;> intro h
  · exact h
  · exact h.elim
  · exact h.elim
  · exact h

theorem wp2_bind {f : α → Exec σ ε α'} {g : β → Exec τ ε β'} {Q : α' → β' → σ → τ → Prop}
    (h : wp2 m n (fun a b s' t' => wp2 (f a) (g b) Q R s' t') R s t) :
    wp2 (m >>= f) (n >>= g) Q R s t := wp2_andThen h

/-- The two runs make the same choice. -/
theorem wp2_ite {c c' : Prop} [Decidable c] [Decidable c'] {m' : Exec σ ε α} {n' : Exec τ ε β}
    (hc : c ↔ c') (hm : c → wp2 m n Q R s t) (hm' : ¬ c → wp2 m' n' Q R s t) :
    wp2 (if c then m else m') (if c' then n else n') Q R s t := by
  by_cases h : c
  · rw [if_pos h, if_pos (hc.mp h)]
    exact hm h
  · rw [if_neg h, if_neg fun h' => h (hc.mpr h')]
    exact hm' h

theorem wp2_throwIf {c c' : Prop} [Decidable c] [Decidable c'] {e e' : ε}
    {Q : Unit → Unit → σ → τ → Prop} (hc : c ↔ c') (he : c → e = e' ∧ R e s t)
    (hok : ¬ c → Q () () s t) : wp2 (throwIf c e) (throwIf c' e') Q R s t :=
  wp2_ite hc he hok

theorem wp2_mapError {g : ε → ε'} {R : ε' → σ → τ → Prop}
    (h : wp2 m n Q (fun e => R (g e)) s t) : wp2 (mapError g m) (mapError g n) Q R s t := by
  revert h
  unfold wp2 mapError
  rcases m s with ⟨_ | _, _⟩ <;> rcases n t with ⟨_ | _, _⟩ <;> intro h
  · exact ⟨congrArg g h.1, h.2⟩
  · exact h.elim
  · exact h.elim
  · exact h

theorem wp2_attempt {Q : Except ε α → Except ε β → σ → τ → Prop} {R : ε' → σ → τ → Prop}
    (h : wp2 m n (fun a b => Q (.ok a) (.ok b)) (fun e => Q (.error e) (.error e)) s t) :
    wp2 (attempt m) (attempt n) Q R s t := by
  revert h
  unfold wp2 attempt
  rcases m s with ⟨_ | _, _⟩ <;> rcases n t with ⟨_ | _, _⟩ <;> intro h
  · obtain ⟨rfl, h⟩ := h
    exact h
  · exact h.elim
  · exact h.elim
  · exact h

theorem wp2_ensuring {last : Exec σ ε' Unit} {last' : Exec τ ε' Unit}
    (h : wp2 m n (fun a b s' t' => Q a b (last s').2 (last' t').2)
      (fun e s' t' => R e (last s').2 (last' t').2) s t) :
    wp2 (ensuring m last) (ensuring n last') Q R s t := by
  revert h
  unfold wp2 ensuring
  rcases m s with ⟨_ | _, _⟩ <;> rcases n t with ⟨_ | _, _⟩ <;> intro h
  · exact h
  · exact h.elim
  · exact h.elim
  · exact h

theorem wp2_get {Q : σ → τ → σ → τ → Prop} (h : Q s t s t) :
    wp2 (get : Exec σ ε σ) (get : Exec τ ε τ) Q R s t := h

theorem wp2_modify {f : σ → σ} {g : τ → τ} {Q : Unit → Unit → σ → τ → Prop}
    (h : Q () () (f s) (g t)) : wp2 (modify f : Exec σ ε Unit) (modify g) Q R s t := h

/-- Each over a part of its own state. -/
theorem wp2_zoom {σ' τ' : Type} {part : σ → σ'} {put : σ' → σ → σ} {part' : τ → τ'}
    {put' : τ' → τ → τ} {m : Exec σ' ε α} {n : Exec τ' ε β}
    (h : wp2 m n (fun a b s' t' => Q a b (put s' s) (put' t' t))
      (fun e s' t' => R e (put s' s) (put' t' t)) (part s) (part' t)) :
    wp2 (zoom part put m) (zoom part' put' n) Q R s t := by
  revert h
  unfold wp2 zoom
  rcases m (part s) with ⟨_ | _, _⟩ <;> rcases n (part' t) with ⟨_ | _, _⟩ <;> intro h
  · exact h
  · exact h.elim
  · exact h.elim
  · exact h

end TwoRuns

/-- From states related by `S`, the two programs give the same answer and end related. -/
def Agree (S : σ → τ → Prop) (m : Exec σ ε α) (n : Exec τ ε α) : Prop :=
  ∀ s t, S s t → wp2 m n (fun a b s' t' => a = b ∧ S s' t') (fun _ => S) s t

section Agree

variable {S : σ → τ → Prop} {m : Exec σ ε α} {n : Exec τ ε α}

theorem wp2_same {s : σ} {t : τ} :
    wp2 m n (fun a b s' t' => a = b ∧ S s' t') (fun _ => S) s t ↔
      (m s).1 = (n t).1 ∧ S (m s).2 (n t).2 := by
  unfold wp2
  rcases m s with ⟨_ | _, _⟩ <;> rcases n t with ⟨_ | _, _⟩ <;> simp

/-- Agreement in terms of the runs: the same answers, and related states at the end. -/
theorem agree_iff : Agree S m n ↔ ∀ s t, S s t → (m s).1 = (n t).1 ∧ S (m s).2 (n t).2 :=
  forall₃_congr fun _ _ _ => wp2_same

/-- The rules for programs of the same text. Where the states are related the branches are the
    same. -/
theorem agree_ret (a : α) : Agree S (ret a : Exec σ ε α) (ret a : Exec τ ε α) :=
  fun _ _ h => wp2_ret ⟨rfl, h⟩

theorem agree_throw (e : ε) : Agree S (throw e : Exec σ ε α) (throw e : Exec τ ε α) :=
  fun _ _ h => wp2_throw h

theorem agree_throwIf {c : Prop} [Decidable c] (e : ε) :
    Agree S (throwIf c e : Exec σ ε Unit) (throwIf c e : Exec τ ε Unit) :=
  fun _ _ h => wp2_throwIf Iff.rfl (fun _ => ⟨rfl, h⟩) fun _ => ⟨rfl, h⟩

theorem agree_andThen {f : α → Exec σ ε β} {g : α → Exec τ ε β} (hm : Agree S m n)
    (hf : ∀ a, Agree S (f a) (g a)) : Agree S (andThen m f) (andThen n g) := by
  intro s t hs
  refine wp2_andThen (wp2_mono (hm s t hs) ?_ fun _ _ _ h => h)
  rintro a _ s' t' ⟨rfl, hs'⟩
  exact hf a s' t' hs'

theorem agree_bind {f : α → Exec σ ε β} {g : α → Exec τ ε β} (hm : Agree S m n)
    (hf : ∀ a, Agree S (f a) (g a)) : Agree S (m >>= f) (n >>= g) := agree_andThen hm hf

theorem agree_ite {c : Prop} [Decidable c] {m' : Exec σ ε α} {n' : Exec τ ε α}
    (hm : c → Agree S m n) (hm' : ¬ c → Agree S m' n') :
    Agree S (if c then m else m') (if c then n else n') :=
  fun s t hs => wp2_ite Iff.rfl (fun hc => hm hc s t hs) fun hc => hm' hc s t hs

theorem agree_onlyIf {c : Prop} [Decidable c] {m : Exec σ ε Unit} {n : Exec τ ε Unit}
    (hm : c → Agree S m n) : Agree S (onlyIf c m) (onlyIf c n) :=
  agree_ite hm fun _ => agree_ret ()

theorem agree_mapError {g : ε → ε'} (hm : Agree S m n) :
    Agree S (mapError g m) (mapError g n) := fun s t hs => wp2_mapError (hm s t hs)

theorem agree_forEach {xs : List ι} {body : ι → Exec σ ε Unit} {body' : ι → Exec τ ε Unit}
    (h : ∀ x ∈ xs, Agree S (body x) (body' x)) :
    Agree S (forEach xs body) (forEach xs body') := by
  induction xs with
  | nil => exact agree_ret ()
  | cons x rest ih =>
    exact agree_andThen (h x (by simp)) fun _ => ih fun y hy => h y (by simp [hy])

theorem agree_mapEach {xs : List ι} {body : ι → Exec σ ε β} {body' : ι → Exec τ ε β}
    (h : ∀ x ∈ xs, Agree S (body x) (body' x)) :
    Agree S (mapEach xs body) (mapEach xs body') := by
  induction xs with
  | nil => exact agree_ret []
  | cons x rest ih =>
    exact agree_andThen (h x (by simp)) fun _ =>
      agree_andThen (ih fun y hy => h y (by simp [hy])) fun _ => agree_ret _

end Agree

end Exec
end Lib
end Libtorrent4j
