import Mathlib.Tactic

/-!
# The circular series

`IntSeries` keeps samples in a ring: `head` and `end` are indices, -1 before the first sample, and
`size` counts up to the capacity and stays there. Whatever has been added, **the ring holds the
newest values in order**, as long as an index and a capacity add up to an `int`.

`last` does not ask the same ring. It takes index 0 for the empty state, where the code elsewhere
takes -1, so it throws on an empty series and answers 0 each time the ring starts over.
-/

namespace Libtorrent4j
namespace Session

/-- What an `int` keeps of a sum or a difference. -/
def wrapInt (x : Int) : Int := x.bmod (2 ^ 32)

theorem wrapInt_eq_self {x : Int} (hlow : -(2 ^ 31) ≤ x) (hhigh : x < 2 ^ 31) : wrapInt x = x :=
  Int.bmod_eq_of_le (by omega) (by omega)

/-- An array store and an array load; out of bounds they throw. -/
def storeAt {c : Nat} (buffer : Vector Int64 c) (index : Int) (value : Int64) :
    Option (Vector Int64 c) :=
  if h : 0 ≤ index ∧ index.toNat < c then some (buffer.set index.toNat value h.2) else none

def loadAt {c : Nat} (buffer : Vector Int64 c) (index : Int) : Option Int64 :=
  if 0 ≤ index then buffer[index.toNat]? else none

/-- A series over an array of length `c`; `endIndex` is the field `end`. -/
structure IntSeries (c : Nat) where
  buffer : Vector Int64 c
  head : Int
  endIndex : Int
  size : Int

namespace IntSeries

variable {c : Nat}

/-- The constructor on an array, which throws when it is empty. -/
def ofBuffer (buffer : Vector Int64 c) : Option (IntSeries c) :=
  if c = 0 then none
  else some { buffer := buffer, head := -1, endIndex := -1, size := 0 }

def ofCapacity (capacity : Nat) : Option (IntSeries capacity) :=
  ofBuffer (Vector.replicate capacity 0)

def add (s : IntSeries c) (value : Int64) : Option (IntSeries c) :=
  if s.head = -1 then do
    let buffer ← storeAt s.buffer 0 value
    some { buffer := buffer, head := 0, endIndex := 0, size := 1 }
  else do
    let endIndex := (wrapInt (s.endIndex + 1)).tmod c
    let buffer ← storeAt s.buffer endIndex value
    let head := if endIndex ≤ s.head then (wrapInt (s.head + 1)).tmod c else s.head
    let size := if head ≤ endIndex then wrapInt (1 + wrapInt (endIndex - head)) else (c : Int)
    some { buffer := buffer, head := head, endIndex := endIndex, size := size }

/-- A remainder by 0 throws. -/
def get (s : IntSeries c) (index : Int) : Option Int64 :=
  if s.size = 0 then none else loadAt s.buffer ((wrapInt (s.head + index)).tmod s.size)

def last (s : IntSeries c) : Option Int64 :=
  if s.endIndex ≠ 0 then loadAt s.buffer s.endIndex else some 0

/-- A sequence of adds to a new series. -/
def run (new : Option (IntSeries c)) (values : List Int64) : Option (IntSeries c) := do
  let s ← new
  values.foldlM add s

end IntSeries

/-! ## Where the ring stands -/

open IntSeries

variable {c : Nat}

/-- Where the head is after `n` adds: at 0 while the ring fills, then one ahead of `end`. -/
def headAfter (c n : Nat) : Int := if n ≤ c then 0 else ((n % c : Nat) : Int)

/-- The ring after `values`: where the two indices are, and what is in the cells that count. -/
structure Ring (s : IntSeries c) (values : List Int64) : Prop where
  empty : values = [] → s.head = -1 ∧ s.endIndex = -1
  head : values ≠ [] → s.head = headAfter c values.length
  endIndex : values ≠ [] → s.endIndex = ((values.length - 1) % c : Nat)
  size : s.size = (min values.length c : Nat)
  cells : ∀ j < values.length, values.length ≤ j + c → s.buffer[j % c]? = values[j]?

theorem loadAt_natCast (buffer : Vector Int64 c) (i : Nat) : loadAt buffer i = buffer[i]? := by
  simp [loadAt]

theorem storeAt_natCast (buffer : Vector Int64 c) {i : Nat} (hi : i < c) (value : Int64) :
    storeAt buffer i value = some (buffer.set i value hi) := by
  simp [storeAt, hi]

theorem tmod_natCast (x m : Nat) : ((x : Int)).tmod m = (x % m : Nat) := by
  rw [Int.tmod_eq_emod_of_nonneg (by omega), Int.natCast_emod]

/-- Writing the next cell of the ring. -/
theorem cells_concat {buffer : Vector Int64 c} {values : List Int64} (hc : 0 < c)
    (hcells : ∀ j < values.length, values.length ≤ j + c → buffer[j % c]? = values[j]?)
    (value : Int64) :
    ∀ j < (values ++ [value]).length, (values ++ [value]).length ≤ j + c →
      (buffer.set (values.length % c) value (Nat.mod_lt _ hc))[j % c]? =
        (values ++ [value])[j]? := by
  intro j hj hlow
  rw [List.length_append, List.length_singleton] at hj hlow
  by_cases hlast : j = values.length
  · subst hlast
    simp [Nat.mod_lt _ hc]
  · -- two cells less than one round apart are different cells
    have hne : values.length % c ≠ j % c := by
      intro heq
      have hdvd := (Nat.modEq_iff_dvd' (by omega : j ≤ values.length)).mp heq.symm
      have := Nat.le_of_dvd (by omega) hdvd
      omega
    rw [Vector.getElem?_set_ne _ hne, hcells j (by omega) (by omega),
      List.getElem?_append_left (by omega)]

/-- `(x % c + 1) % c`, on the way through an `int`. -/
theorem next_index (hc : 0 < c) (hint : c < 2 ^ 31) (x : Nat) :
    (wrapInt (((x % c : Nat) : Int) + 1)).tmod c = ((x + 1) % c : Nat) := by
  have hlt := Nat.mod_lt x hc
  rw [wrapInt_eq_self (by omega) (by omega), ← Nat.cast_succ, tmod_natCast, Nat.succ_eq_add_one,
    Nat.mod_add_mod]

theorem head_step (hc : 0 < c) (hint : c < 2 ^ 31) {n : Nat} (hn : 0 < n) :
    (if ((n % c : Nat) : Int) ≤ headAfter c n then (wrapInt (headAfter c n + 1)).tmod c
      else headAfter c n) = headAfter c (n + 1) := by
  by_cases hfill : n + 1 ≤ c
  · have hhead : headAfter c n = 0 := if_pos (by omega)
    rw [hhead, Nat.mod_eq_of_lt (by omega), if_neg (by omega), headAfter, if_pos hfill]
  · have hhead : headAfter c n = (n % c : Nat) := by
      unfold headAfter
      split
      -- full for the first time: the head is still at 0
      · rw [show n = c by omega, Nat.mod_self]
        rfl
      · rfl
    rw [hhead, if_pos le_rfl, next_index hc hint, headAfter, if_neg hfill]

theorem wrapInt_span {m : Nat} (hm : m + 1 < 2 ^ 31) :
    wrapInt (1 + wrapInt ((m : Int) - 0)) = (m + 1 : Nat) := by
  rw [Int.sub_zero, wrapInt_eq_self (x := (m : Int)) (by omega) (by omega),
    wrapInt_eq_self (by omega) (by omega)]
  omega

theorem size_step (hc : 0 < c) (hint : c < 2 ^ 31) (n : Nat) :
    (if headAfter c (n + 1) ≤ ((n % c : Nat) : Int) then
        wrapInt (1 + wrapInt (((n % c : Nat) : Int) - headAfter c (n + 1))) else (c : Int)) =
      (min (n + 1) c : Nat) := by
  have hlt := Nat.mod_lt n hc
  unfold headAfter
  by_cases hfill : n + 1 ≤ c
  · rw [if_pos hfill, Nat.mod_eq_of_lt (by omega), if_pos (by omega), wrapInt_span (by omega),
      Nat.min_eq_left hfill]
  · rw [if_neg hfill, ← Nat.mod_add_mod]
    by_cases hround : n % c + 1 = c
    -- the write index is at the end of the array, and the head at its start
    · rw [hround, Nat.mod_self, if_pos (by omega), Nat.cast_zero, wrapInt_span (by omega), hround,
        Nat.min_eq_right (by omega)]
    · rw [Nat.mod_eq_of_lt (by omega : n % c + 1 < c), if_neg (by omega)]
      omega

theorem ring_ofBuffer (hc : 0 < c) (buffer : Vector Int64 c) :
    ∃ s, ofBuffer buffer = some s ∧ Ring s [] := by
  refine ⟨_, if_neg (by omega), fun _ => ⟨rfl, rfl⟩, fun h => absurd rfl h, fun h => absurd rfl h,
    ?_, fun j hj => absurd hj (Nat.not_lt_zero j)⟩
  simp

namespace Ring

variable {s : IntSeries c} {values : List Int64}

theorem add_first (hc : 0 < c) (h : Ring s []) (value : Int64) :
    ∃ s', s.add value = some s' ∧ Ring s' [value] := by
  have hcells := cells_concat hc h.cells value
  have hstore : storeAt s.buffer 0 value = some (s.buffer.set 0 value hc) :=
    storeAt_natCast s.buffer hc value
  refine ⟨{ buffer := s.buffer.set 0 value hc, head := 0, endIndex := 0, size := 1 }, ?_,
    fun hnil => by simp at hnil, fun _ => ?_, fun _ => ?_, ?_, ?_⟩
  · rw [IntSeries.add, if_pos (h.empty rfl).1, hstore]
    rfl
  · exact (if_pos (Nat.succ_le_of_lt hc)).symm
  · simp
  · have hmin : min [value].length c = 1 := by
      rw [List.length_singleton]
      omega
    rw [hmin]
    rfl
  · exact hcells

theorem add_next (hc : 0 < c) (hint : c < 2 ^ 31) (h : Ring s values) (hne : values ≠ [])
    (value : Int64) : ∃ s', s.add value = some s' ∧ Ring s' (values ++ [value]) := by
  have hpos := List.length_pos_iff.mpr hne
  have hlt := Nat.mod_lt values.length hc
  have hlen : (values ++ [value]).length = values.length + 1 := by simp
  have hend : (wrapInt (s.endIndex + 1)).tmod c = (values.length % c : Nat) := by
    rw [h.endIndex hne, next_index hc hint, Nat.sub_add_cancel hpos]
  have hstarted : s.head ≠ -1 := by
    rw [h.head hne, headAfter]
    split <;> omega
  have hstore := storeAt_natCast s.buffer hlt value
  refine ⟨{ buffer := s.buffer.set (values.length % c) value hlt
            head := headAfter c (values.length + 1)
            endIndex := (values.length % c : Nat)
            size := (min (values.length + 1) c : Nat) }, ?_,
    fun hnil => by simp at hnil, fun _ => ?_, fun _ => ?_, ?_, ?_⟩
  · rw [IntSeries.add, if_neg hstarted]
    simp only [hend, hstore, h.head hne, head_step hc hint hpos, size_step hc hint]
    rfl
  · rw [hlen]
  · rw [hlen, Nat.add_sub_cancel]
  · rw [hlen]
  · exact cells_concat hc h.cells value

theorem add (hc : 0 < c) (hint : c < 2 ^ 31) (h : Ring s values) (value : Int64) :
    ∃ s', s.add value = some s' ∧ Ring s' (values ++ [value]) := by
  by_cases hne : values = []
  · subst hne
    exact add_first hc h value
  · exact add_next hc hint h hne value

theorem adds (hc : 0 < c) (hint : c < 2 ^ 31) (h : Ring s values) (more : List Int64) :
    ∃ s', more.foldlM IntSeries.add s = some s' ∧ Ring s' (values ++ more) := by
  induction more generalizing s values with
  | nil => exact ⟨s, rfl, by rwa [List.append_nil]⟩
  | cons value more ih =>
    obtain ⟨s₁, hadd, hring⟩ := add hc hint h value
    obtain ⟨s₂, hadds, hring₂⟩ := ih hring
    refine ⟨s₂, ?_, by simpa using hring₂⟩
    rw [List.foldlM_cons, hadd]
    exact hadds

end Ring

/-- Every sequence of adds ends, and in the ring of its values. -/
theorem ring_of_run (hc : 0 < c) (hint : c < 2 ^ 31) (buffer : Vector Int64 c)
    (values : List Int64) : ∃ s, run (ofBuffer buffer) values = some s ∧ Ring s values := by
  obtain ⟨s, hnew, hring⟩ := ring_ofBuffer hc buffer
  obtain ⟨s', hadds, hring'⟩ := hring.adds hc hint values
  refine ⟨s', ?_, hring'⟩
  rw [run, hnew]
  exact hadds

/-! ## Reading the ring -/

namespace Ring

variable {s : IntSeries c} {values : List Int64}

/-- Where the value `i` places after the oldest one is. -/
theorem cell_at (h : Ring s values) {i : Nat} (hi : i < min values.length c) :
    s.buffer[(values.length - min values.length c + i) % c]? =
      values[values.length - min values.length c + i]? :=
  h.cells _ (by omega) (by omega)

theorem get (h : Ring s values) {i : Nat} (hi : i < min values.length c)
    (hfits : headAfter c values.length + i < 2 ^ 31) :
    s.get i = values[values.length - min values.length c + i]? := by
  have hne : values ≠ [] := by
    rintro rfl
    simp at hi
  have hsize : s.size ≠ 0 := by
    rw [h.size]
    omega
  have hlow : 0 ≤ headAfter c values.length := by
    unfold headAfter
    split <;> omega
  rw [IntSeries.get, if_neg hsize, h.size, h.head hne, wrapInt_eq_self (by omega) hfits,
    ← h.cell_at hi]
  by_cases hfill : values.length ≤ c
  · have hmin : min values.length c = values.length := Nat.min_eq_left hfill
    rw [hmin] at hi ⊢
    rw [headAfter, if_pos hfill, Int.zero_add, tmod_natCast, loadAt_natCast, Nat.mod_eq_of_lt hi,
      Nat.sub_self, Nat.zero_add, Nat.mod_eq_of_lt (by omega)]
  · have hmin : min values.length c = c := Nat.min_eq_right (by omega)
    rw [hmin] at hi ⊢
    have hsame : (values.length % c + i) % c = (values.length - c + i) % c := by
      rw [Nat.mod_add_mod, ← Nat.add_mod_right (values.length - c + i)]
      congr 1
      omega
    rw [headAfter, if_neg hfill, ← Nat.cast_add, tmod_natCast, loadAt_natCast, hsame]

end Ring

/-- **The series keeps the newest values**, in order. -/
theorem newest_kept (c : Nat) (hc : 1 ≤ c) (hint : c ≤ 2 ^ 30) (buffer : Vector Int64 c)
    (values : List Int64) :
    ∃ s, run (ofBuffer buffer) values = some s ∧ s.size = (min values.length c : Nat) ∧
      ∀ i : Nat, (i : Int) < s.size →
        s.get i = values[values.length - min values.length c + i]? := by
  obtain ⟨s, hrun, hring⟩ := ring_of_run hc (by omega) buffer values
  refine ⟨s, hrun, hring.size, fun i hi => ?_⟩
  rw [hring.size] at hi
  refine hring.get (by omega) ?_
  have := Nat.mod_lt values.length hc
  unfold headAfter
  split <;> omega

/-- Four values in a ring of three. -/
theorem newest_kept_wrapped :
    ∃ s, run (ofCapacity 3) [1, 2, 3, 4] = some s ∧ s.size = 3 ∧ s.get 0 = some 2 ∧
      s.get 2 = some 4 := by
  obtain ⟨s, hrun, hsize, hget⟩ :=
    newest_kept 3 (by decide) (by decide) (Vector.replicate 3 0) [1, 2, 3, 4]
  exact ⟨s, hrun, hsize, hget 0 (by rw [hsize]; decide), hget 2 (by rw [hsize]; decide)⟩

/-! ## The last value -/

/-- What `last` is documented to return: 0 for an empty series, else the value added last, which
    is also the one at `size() - 1`. -/
structure LastAvailable (s : IntSeries c) (values : List Int64) : Prop where
  last : s.last = some (values.getLast?.getD 0)
  newest : values ≠ [] → s.get (wrapInt (s.size - 1)) = values.getLast?

/-- The index of `size() - 1` is an `int`; or it wraps around, and the sum is such that `get` comes
    to the start of the array, where the same value happens to be. -/
def IndexWorks (c : Nat) (values : List Int64) : Prop :=
  values.length ≤ c ∨ values.length % c + c ≤ 2 ^ 31 ∨
    values.length % c + 2 * c = 2 ^ 32 + 1 ∧
      values[(values.length - 1) / c * c]? = values.getLast?

/-- Something has been added, and not into the first cell of the ring unless it is 0. -/
def LastWorks (c : Nat) (values : List Int64) : Prop :=
  values ≠ [] ∧ ((values.length - 1) % c ≠ 0 ∨ values.getLast? = some 0) ∧ IndexWorks c values

theorem wrapInt_of_over {x : Int} (hlow : 2 ^ 31 ≤ x) (hhigh : x < 2 ^ 32) :
    wrapInt x = x - 2 ^ 32 := by
  rw [wrapInt, Int.bmod_def]
  omega

/-- A negative remainder is no index. -/
theorem loadAt_tmod_neg (buffer : Vector Int64 c) {y : Int} (hneg : y < 0) (hlow : -(2 * c) < y) :
    loadAt buffer (y.tmod c) = if y = -c then buffer[0]? else none := by
  obtain ⟨m, rfl⟩ : ∃ m : Nat, y = -m := ⟨y.natAbs, by omega⟩
  rw [Int.neg_tmod, tmod_natCast]
  have hmod : (-((m % c : Nat) : Int) = 0) ↔ m = c := by
    by_cases hlt : m < c
    · rw [Nat.mod_eq_of_lt hlt]
      omega
    · rw [Nat.mod_eq_sub_mod (by omega), Nat.mod_eq_of_lt (by omega)]
      omega
  by_cases heq : m = c
  · rw [hmod.mpr heq, if_pos (by rw [heq])]
    exact loadAt_natCast buffer 0
  · have hne := mt hmod.mp heq
    rw [loadAt, if_neg (by omega), if_neg (by omega)]

namespace Ring

variable {s : IntSeries c} {values : List Int64}

/-- The cell written last holds the value added last. -/
theorem last_cell (hc : 0 < c) (h : Ring s values) (hne : values ≠ []) :
    s.buffer[(values.length - 1) % c]? = values.getLast? := by
  have hpos := List.length_pos_iff.mpr hne
  rw [h.cells _ (by omega) (by omega), List.getLast?_eq_getElem?]

theorem last_iff (hc : 0 < c) (h : Ring s values) (hne : values ≠ []) :
    s.last = some (values.getLast?.getD 0) ↔
      (values.length - 1) % c ≠ 0 ∨ values.getLast? = some 0 := by
  obtain ⟨v, hv⟩ : ∃ v, values.getLast? = some v := ⟨_, List.getLast?_eq_some_getLast hne⟩
  rw [IntSeries.last, h.endIndex hne, loadAt_natCast, h.last_cell hc hne, hv]
  by_cases hzero : (values.length - 1) % c = 0
  · simp [hzero, eq_comm]
  · rw [if_pos (by omega)]
    simp [hzero]

theorem newest_iff (hc : 0 < c) (hint : c < 2 ^ 31) (h : Ring s values) (hne : values ≠ []) :
    s.get (wrapInt (s.size - 1)) = values.getLast? ↔ IndexWorks c values := by
  have hpos := List.length_pos_iff.mpr hne
  have hlt := Nat.mod_lt values.length hc
  have hindex : wrapInt (s.size - 1) = ((min values.length c - 1 : Nat) : Int) := by
    rw [h.size, wrapInt_eq_self (by omega) (by omega)]
    omega
  rw [hindex]
  by_cases hfits : headAfter c values.length + ((min values.length c - 1 : Nat) : Int) < 2 ^ 31
  · have hplace : values.length - min values.length c + (min values.length c - 1) =
        values.length - 1 := by omega
    rw [h.get (by omega) hfits, hplace, ← List.getLast?_eq_getElem?]
    refine iff_of_true rfl ?_
    unfold headAfter at hfits
    split at hfits
    · exact Or.inl ‹_›
    · exact Or.inr (Or.inl (by omega))
  -- the sum wraps around, which takes a full ring of more than `2 ^ 30` cells
  · have hfull : ¬ values.length ≤ c := by
      intro hfill
      rw [headAfter, if_pos hfill] at hfits
      omega
    have hmin : min values.length c = c := Nat.min_eq_right (by omega)
    have hhead : headAfter c values.length = (values.length % c : Nat) := if_neg hfull
    rw [hhead, hmin] at hfits
    have hsize : s.size = (c : Int) := by rw [h.size, hmin]
    have hfirst := h.cells ((values.length - 1) / c * c)
      (by have := Nat.div_mul_le_self (values.length - 1) c; omega)
      (by have := Nat.lt_div_mul_add (a := values.length - 1) hc; omega)
    rw [Nat.mul_mod_left] at hfirst
    rw [IntSeries.get, if_neg (by omega), h.head hne, hhead, hsize, hmin,
      wrapInt_of_over (by omega) (by omega), loadAt_tmod_neg _ (by omega) (by omega), hfirst]
    constructor
    · intro heq
      split at heq
      · exact Or.inr (Or.inr ⟨by omega, heq⟩)
      · exact absurd (List.getLast?_eq_none_iff.mp heq.symm) hne
    · rintro (hfill | hfits' | ⟨hsum, heq⟩)
      · exact absurd hfill hfull
      · omega
      · rw [if_pos (by omega)]
        exact heq

end Ring

/-- **`last` is available just when** something has been added and the ring has not just come to its
    first cell. -/
theorem last_available_iff (c : Nat) (hc : 1 ≤ c) (hint : c < 2 ^ 31) (buffer : Vector Int64 c)
    (values : List Int64) :
    ∃ s, run (ofBuffer buffer) values = some s ∧ (LastAvailable s values ↔ LastWorks c values) := by
  obtain ⟨s, hrun, hring⟩ := ring_of_run hc hint buffer values
  refine ⟨s, hrun, ?_⟩
  by_cases hne : values = []
  · -- the load at -1 throws
    have hlast : s.last = none := by
      rw [IntSeries.last, (hring.empty hne).2]
      rfl
    refine iff_of_false (fun havailable => ?_) fun hworks => hworks.1 hne
    have := havailable.last
    rw [hlast] at this
    cases this
  · have hlast := hring.last_iff hc hne
    have hnewest := hring.newest_iff hc hint hne
    exact ⟨fun ⟨h₁, h₂⟩ => ⟨hne, hlast.mp h₁, hnewest.mp (h₂ hne)⟩,
      fun ⟨_, h₁, h₂⟩ => ⟨hlast.mpr h₁, fun _ => hnewest.mpr h₂⟩⟩

/-- The second value of a ring of three is available. -/
theorem last_available_second :
    ∃ s, run (ofCapacity 3) [5, 6] = some s ∧ LastAvailable s [5, 6] := by
  obtain ⟨s, hrun, hiff⟩ :=
    last_available_iff 3 (by decide) (by decide) (Vector.replicate 3 0) [5, 6]
  refine ⟨s, hrun, hiff.mpr ⟨by simp, Or.inl (by decide), Or.inl (by decide)⟩⟩

/-- An empty series throws, and after one add the answer is still 0. -/
theorem first_value_lost :
    ((run (ofCapacity 3) []).bind IntSeries.last = none) ∧
      ((run (ofCapacity 3) [5]).bind IntSeries.last = some 0) ∧
      ((run (ofCapacity 3) [5]).bind fun s => s.get (s.size - 1)) = some 5 := by
  decide +kernel

end Session
end Libtorrent4j
