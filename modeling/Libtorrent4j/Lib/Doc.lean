import Mathlib.Tactic

/-!
# Sparse documents

What a file system keeps under a name: a list of elements that can be read at any offset,
overwritten at any offset (the gap up to it reads as zero) and cut or grown to a size. The
lemmas say where each element of the result comes from; nothing else about the definitions
is used afterwards.
-/

namespace Libtorrent4j
namespace Lib
namespace Doc

variable {α : Type} [Zero α]

/-- The `len` elements from `offset` on, or as many of them as there are. -/
def slice (doc : List α) (offset len : Nat) : List α := (doc.drop offset).take len

/-- The document cut or zero-extended to `size`. -/
def resize (doc : List α) (size : Nat) : List α :=
  (doc ++ List.replicate (size - doc.length) 0).take size

/-- `data` written at `offset`; writing nothing changes nothing. -/
def splice (doc : List α) (offset : Nat) (data : List α) : List α :=
  if data.isEmpty then doc
  else resize doc offset ++ data ++ doc.drop (offset + data.length)

/-! ## Reading -/

omit [Zero α] in
@[simp] theorem slice_zero (doc : List α) (offset : Nat) : slice doc offset 0 = [] := by
  simp [slice]

omit [Zero α] in
theorem getElem?_slice (doc : List α) (offset len i : Nat) :
    (slice doc offset len)[i]? = if i < len then doc[offset + i]? else none := by
  simp [slice, List.getElem?_take, List.getElem?_drop]

omit [Zero α] in
theorem length_slice (doc : List α) (offset len : Nat) :
    (slice doc offset len).length = min len (doc.length - offset) := by
  simp [slice]

omit [Zero α] in
theorem length_slice_of_le {doc : List α} {offset len : Nat} (h : offset + len ≤ doc.length) :
    (slice doc offset len).length = len := by
  rw [length_slice]; omega

omit [Zero α] in
theorem slice_append (doc : List α) (offset n m : Nat) :
    slice doc offset n ++ slice doc (offset + n) m = slice doc offset (n + m) := by
  simp only [slice]
  rw [List.take_add, List.drop_drop]

omit [Zero α] in
/-- A short slice ends where the document ends. -/
theorem slice_eq_of_short {doc : List α} {offset n m : Nat} (h : doc.length ≤ offset + n)
    (hm : n ≤ m) : slice doc offset m = slice doc offset n := by
  apply List.ext_getElem?
  intro i
  simp only [getElem?_slice]
  by_cases hi : i < n
  · rw [if_pos hi, if_pos (by omega)]
  · rw [if_neg hi]
    split
    · exact List.getElem?_eq_none (by omega)
    · rfl

omit [Zero α] in
/-- A slice is the slice of its own length. -/
theorem slice_exact {doc bytes : List α} {offset n : Nat} (h : bytes = slice doc offset n) :
    bytes = slice doc offset bytes.length := by
  have hlen := length_slice doc offset n
  rw [← h] at hlen
  by_cases hfull : bytes.length = n
  · rw [hfull]
    exact h
  · exact h.trans (slice_eq_of_short (by omega) (by omega))

/-! ## Resizing -/

@[simp] theorem length_resize (doc : List α) (size : Nat) : (resize doc size).length = size := by
  simp [resize]; omega

theorem getElem?_resize (doc : List α) (size i : Nat) :
    (resize doc size)[i]? = if i < size then some (doc[i]?.getD 0) else none := by
  simp only [resize, List.getElem?_take, List.getElem?_append, List.getElem?_replicate]
  by_cases hi : i < size
  · simp only [if_pos hi]
    by_cases hd : i < doc.length
    · simp [hd]
    · rw [if_neg hd, if_pos (by omega), List.getElem?_eq_none (by omega)]
      rfl
  · simp [hi]

theorem getElem?_resize_of_some {doc : List α} {size i : Nat} {a : α} (h : doc[i]? = some a)
    (hi : i < size) : (resize doc size)[i]? = some a := by
  rw [getElem?_resize, if_pos hi, h]
  rfl

theorem resize_length (doc : List α) : resize doc doc.length = doc := by
  simp [resize]

/-! ## Writing -/

@[simp] theorem splice_nil (doc : List α) (offset : Nat) : splice doc offset [] = doc := rfl

theorem getElem?_splice {data : List α} (hdata : data ≠ []) (doc : List α) (offset i : Nat) :
    (splice doc offset data)[i]? =
      if i < offset then some (doc[i]?.getD 0)
      else if i < offset + data.length then data[i - offset]?
      else doc[i]? := by
  have hemp : data.isEmpty = false := by cases data <;> simp_all
  rw [splice, hemp, if_neg (by decide), List.append_assoc]
  simp only [List.getElem?_append, length_resize, getElem?_resize, List.getElem?_drop]
  by_cases h₁ : i < offset
  · simp [h₁]
  · rw [if_neg h₁, if_neg h₁]
    by_cases h₂ : i < offset + data.length
    · rw [if_pos h₂, if_pos (by omega)]
    · have hback : offset + data.length + (i - offset - data.length) = i := by omega
      rw [if_neg h₂, if_neg (by omega), hback]

/-- Inside the written range the new data is read. -/
theorem getElem?_splice_inside {doc data : List α} {offset i : Nat} (h₁ : offset ≤ i)
    (h₂ : i < offset + data.length) : (splice doc offset data)[i]? = data[i - offset]? := by
  have hne : data ≠ [] := by rintro rfl; simp at h₂; omega
  rw [getElem?_splice hne, if_neg (by omega), if_pos h₂]

/-- Outside the written range what was there is still read. -/
theorem getElem?_splice_outside {doc data : List α} {offset i : Nat} {a : α}
    (h : doc[i]? = some a) (ho : i < offset ∨ offset + data.length ≤ i) :
    (splice doc offset data)[i]? = some a := by
  by_cases hne : data = []
  · simpa [hne] using h
  · rw [getElem?_splice hne]
    split
    · simp [h]
    · rw [if_neg (by omega), h]

theorem length_splice {doc data : List α} {offset : Nat} (hne : data ≠ []) :
    (splice doc offset data).length = max doc.length (offset + data.length) := by
  have hemp : data.isEmpty = false := by cases data <;> simp_all
  rw [splice, hemp, if_neg (by decide)]
  simp only [List.length_append, length_resize, List.length_drop]
  omega

/-- Two writes one after the other are one write of both. -/
theorem splice_splice (doc x y : List α) (offset : Nat) :
    splice (splice doc offset x) (offset + x.length) y = splice doc offset (x ++ y) := by
  by_cases hx : x = []
  · simp [hx]
  by_cases hy : y = []
  · simp [hy]
  have hxy : x ++ y ≠ [] := by simp [hx]
  apply List.ext_getElem?
  intro i
  rw [getElem?_splice hy, getElem?_splice hx, getElem?_splice hxy]
  simp only [List.length_append, List.getElem?_append]
  by_cases h₁ : i < offset
  · simp [h₁, show i < offset + x.length by omega]
  · simp only [if_neg h₁]
    by_cases h₂ : i < offset + x.length
    · rw [if_pos h₂, if_pos h₂, if_pos (by omega), if_pos (by omega)]
      have : i - offset < x.length := by omega
      simp [List.getElem?_eq_getElem this]
    · rw [if_neg h₂, if_neg h₂]
      by_cases h₃ : i < offset + x.length + y.length
      · rw [if_pos h₃, if_pos (by omega), if_neg (by omega),
          show i - (offset + x.length) = i - offset - x.length by omega]
      · rw [if_neg h₃, if_neg (by omega)]

/-- Writing a part of `data` again, from inside what has been written of it, writes no more
    than a longer part of it. -/
theorem splice_again {doc data : List α} {offset i j n : Nat} (hij : i ≤ j)
    (hj : j ≤ data.length) :
    splice (splice doc offset (data.take j)) (offset + i) ((data.drop i).take n) =
      splice doc offset (data.take (max j (min (i + n) data.length))) := by
  have hlast : ((data.drop i).take n).length = min n (data.length - i) := by simp
  by_cases hn : (data.drop i).take n = []
  · have : max j (min (i + n) data.length) = j := by
      rw [hn, List.length_nil] at hlast
      omega
    rw [hn, splice_nil, this]
  have hne : data.take (max j (min (i + n) data.length)) ≠ [] := by
    have hpos := List.length_pos_iff.mpr hn
    refine List.length_pos_iff.mp ?_
    rw [List.length_take]
    omega
  apply List.ext_getElem?
  intro x
  rw [getElem?_splice hn, getElem?_splice hne, hlast, List.length_take]
  simp only [List.getElem?_take, List.getElem?_drop]
  -- the part written first is empty only if `j` is 0, and then so is `i`
  by_cases hj0 : j = 0
  · obtain rfl : i = 0 := by omega
    subst hj0
    simp only [List.take_zero, splice_nil, Nat.add_zero, Nat.zero_add, Nat.sub_zero]
    rw [show max 0 (min n data.length) = min n data.length by omega]
    by_cases h₁ : x < offset
    · rw [if_pos h₁, if_pos h₁]
    · rw [if_neg h₁, if_neg h₁]
      by_cases h₂ : x < offset + min n data.length
      · rw [if_pos h₂, if_pos (by omega), if_pos (by omega), if_pos (by omega)]
      · rw [if_neg h₂, if_neg (by omega)]
  · have hjne : data.take j ≠ [] := by
      refine List.length_pos_iff.mp ?_
      rw [List.length_take]
      omega
    rw [getElem?_splice hjne]
    simp only [List.getElem?_take, List.length_take]
    by_cases h₁ : x < offset
    · rw [if_pos (by omega), if_pos h₁, if_pos h₁]
      rfl
    · rw [if_neg h₁, if_neg h₁]
      by_cases h₂ : x < offset + i
      · rw [if_pos h₂, if_pos (by omega), if_pos (by omega), if_pos (by omega), if_pos (by omega)]
        have : x - offset < data.length := by omega
        simp [List.getElem?_eq_getElem this]
      · rw [if_neg h₂]
        by_cases h₃ : x < offset + i + min n (data.length - i)
        · rw [if_pos h₃, if_pos (by omega), if_pos (by omega), if_pos (by omega),
            show i + (x - (offset + i)) = x - offset by omega]
        · rw [if_neg h₃]
          by_cases h₄ : x < offset + min j data.length
          · rw [if_pos h₄, if_pos (by omega), if_pos (by omega), if_pos (by omega)]
          · rw [if_neg h₄, if_neg (by omega)]

/-- Writing a whole document over one of its size is that document. -/
theorem splice_whole {doc data : List α} (h : doc.length ≤ data.length) :
    splice doc 0 data = data := by
  by_cases hne : data = []
  · subst hne
    have : doc = [] := by simpa using h
    simp [this]
  · apply List.ext_getElem?
    intro i
    rw [getElem?_splice hne]
    simp only [Nat.not_lt_zero, if_false, Nat.zero_add, Nat.sub_zero]
    split
    · rfl
    · rw [List.getElem?_eq_none (by omega), List.getElem?_eq_none (by omega)]

end Doc
end Lib
end Libtorrent4j
