import Mathlib.Tactic

/-!
# The file layout of a torrent

libtorrent's `file_storage`, as far as the backend asks it: sizes, pad flags, the offset of
each file in the torrent, and `map_block`. The library itself is not part of this
repository, so `mapBlock` is a *field* of the structure and what the backend relies on is
the field `mapBlock_covers`: **the slices of an in-range request are its in-order contiguous
cover by non-empty pieces of files**. That a piece ends inside the torrent is a field too.
`FileStorage.ofEntries` builds one such layout from a list of files, so the assumptions are
never empty.
-/

namespace Libtorrent4j
namespace Saf

/-- A file of the torrent; a pad file has a size and no document. -/
structure FileEntry where
  size : Nat
  pad : Bool
deriving DecidableEq, Repr

/-- A part of a block that lies in one file. -/
structure FileSlice where
  fileIndex : Nat
  offset : Nat
  size : Nat
deriving DecidableEq, Repr

/-- Where file `i` starts in the torrent. -/
def offsetAt (entries : List FileEntry) (i : Nat) : Nat := ((entries.take i).map (·.size)).sum

/-- The files follow one another without gaps. -/
def totalSize (entries : List FileEntry) : Nat := (entries.map (·.size)).sum

def sizeAt (entries : List FileEntry) (i : Nat) : Nat := (entries[i]?.map (·.size)).getD 0

/-- The slices cut the `len` bytes from torrent position `pos` on, in order and without gaps. -/
def Covers (entries : List FileEntry) : Nat → Nat → List FileSlice → Prop
  | _, len, [] => len = 0
  | pos, len, slice :: rest =>
      slice.fileIndex < entries.length ∧ 0 < slice.size ∧
      slice.offset + slice.size ≤ sizeAt entries slice.fileIndex ∧
      offsetAt entries slice.fileIndex + slice.offset = pos ∧ slice.size ≤ len ∧
      Covers entries (pos + slice.size) (len - slice.size) rest

/-! ## Positions -/

/-- Torrent position `pos` is byte `off` of file `i`. -/
def LiesAt (entries : List FileEntry) (pos i off : Nat) : Prop :=
  i < entries.length ∧ off < sizeAt entries i ∧ offsetAt entries i + off = pos

/-- The file and the offset in it that a torrent position belongs to. -/
def locate : List FileEntry → Nat → Option (Nat × Nat)
  | [], _ => none
  | entry :: rest, pos =>
      if pos < entry.size then some (0, pos)
      else (locate rest (pos - entry.size)).map fun at' => (at'.1 + 1, at'.2)

@[simp] theorem offsetAt_zero (entries : List FileEntry) : offsetAt entries 0 = 0 := by
  simp [offsetAt]

@[simp] theorem offsetAt_cons_succ (entry : FileEntry) (rest : List FileEntry) (i : Nat) :
    offsetAt (entry :: rest) (i + 1) = entry.size + offsetAt rest i := by
  simp [offsetAt]

@[simp] theorem sizeAt_cons_zero (entry : FileEntry) (rest : List FileEntry) :
    sizeAt (entry :: rest) 0 = entry.size := rfl

@[simp] theorem sizeAt_cons_succ (entry : FileEntry) (rest : List FileEntry) (i : Nat) :
    sizeAt (entry :: rest) (i + 1) = sizeAt rest i := by
  simp [sizeAt]

@[simp] theorem totalSize_cons (entry : FileEntry) (rest : List FileEntry) :
    totalSize (entry :: rest) = entry.size + totalSize rest := by
  simp [totalSize]

/-- A position beyond the first file is one of the rest. -/
theorem liesAt_cons_succ {entry : FileEntry} {rest : List FileEntry} {pos i off : Nat} :
    LiesAt (entry :: rest) pos (i + 1) off ↔
      entry.size ≤ pos ∧ LiesAt rest (pos - entry.size) i off := by
  simp only [LiesAt, List.length_cons, sizeAt_cons_succ, offsetAt_cons_succ]
  omega

/-- **Positions and file offsets determine each other.** -/
theorem locate_eq_some_iff {entries : List FileEntry} {pos i off : Nat} :
    locate entries pos = some (i, off) ↔ LiesAt entries pos i off := by
  induction entries generalizing pos i with
  | nil => simp [locate, LiesAt]
  | cons entry rest ih =>
    unfold locate
    split
    -- the position is in the first entry
    · rename_i hlt
      cases i with
      | zero =>
        simp only [Option.some.injEq, Prod.mk.injEq, true_and, LiesAt, List.length_cons,
          sizeAt_cons_zero, offsetAt_zero]
        omega
      | succ i =>
        rw [liesAt_cons_succ]
        simp only [Option.some.injEq, Prod.mk.injEq]
        omega
    · rename_i hge
      cases i with
      | zero =>
        simp only [LiesAt, List.length_cons, sizeAt_cons_zero, offsetAt_zero]
        cases locate rest (pos - entry.size) <;> simp <;> omega
      | succ i =>
        rw [liesAt_cons_succ, ← ih]
        cases locate rest (pos - entry.size) with
        | none => simp
        | some at' =>
          obtain ⟨i', off'⟩ := at'
          simp only [Option.map_some, Option.some.injEq, Prod.mk.injEq]
          omega

/-- No byte of the torrent lies in two files. -/
theorem LiesAt.unique {entries : List FileEntry} {pos i off i' off' : Nat}
    (h : LiesAt entries pos i off) (h' : LiesAt entries pos i' off') : i = i' ∧ off = off' := by
  have := (locate_eq_some_iff.mpr h).symm.trans (locate_eq_some_iff.mpr h')
  simpa using this

/-- Every byte of the torrent lies in a file. -/
theorem locate_isSome_iff {entries : List FileEntry} {pos : Nat} :
    (locate entries pos).isSome ↔ pos < totalSize entries := by
  induction entries generalizing pos with
  | nil => simp [locate, totalSize]
  | cons entry rest ih =>
    unfold locate
    split
    · simp; omega
    · simp only [Option.isSome_map, ih, totalSize_cons]; omega

/-- A byte inside a slice of a cover lies in that slice's file. -/
theorem Covers.head_liesAt {entries : List FileEntry} {pos len : Nat} {slice : FileSlice}
    {rest : List FileSlice} (h : Covers entries pos len (slice :: rest)) {j : Nat}
    (hj : j < slice.size) : LiesAt entries (pos + j) slice.fileIndex (slice.offset + j) := by
  obtain ⟨hi, _, hfit, hpos, _, _⟩ := h
  exact ⟨hi, by omega, by omega⟩

/-- A file begins where the one before it ends. -/
theorem offsetAt_succ {entries : List FileEntry} {i : Nat} (hi : i < entries.length) :
    offsetAt entries (i + 1) = offsetAt entries i + sizeAt entries i := by
  simp only [offsetAt, sizeAt, List.take_add_one, List.map_append, List.sum_append,
    List.getElem?_eq_getElem hi]
  simp

/-- Files lie one after the other. -/
theorem offsetAt_mono {entries : List FileEntry} {i j : Nat} (hij : i < j)
    (hj : j ≤ entries.length) : offsetAt entries i + sizeAt entries i ≤ offsetAt entries j := by
  induction j, hij using Nat.le_induction with
  | base => rw [offsetAt_succ hj]
  | succ j hij ih =>
    rw [offsetAt_succ (by omega)]
    exact Nat.le_trans (ih (by omega)) (Nat.le_add_right _ _)

/-- Later bytes lie in the same file or a later one. -/
theorem LiesAt.mono {entries : List FileEntry} {pos pos' i off i' off' : Nat}
    (h : LiesAt entries pos i off) (h' : LiesAt entries pos' i' off') (hpos : pos ≤ pos') :
    i ≤ i' := by
  by_contra hlt
  have := offsetAt_mono (Nat.not_le.mp hlt) (Nat.le_of_lt h.1)
  have := h.2.2
  have := h'.2.2
  have := h'.2.1
  omega

/-! ## The layout -/

/-- `file_storage`, with its layout as a list of files and the pieces over it. -/
structure FileStorage where
  entries : List FileEntry
  pieceLength : Nat
  numPieces : Nat
  pieceSize : Nat → Nat
  /-- `piece_size2`: the bytes of the piece that belong to its first file. -/
  pieceSize2 : Nat → Nat
  blocksInPiece2 : Nat → Nat
  mapBlock : Nat → Nat → Nat → List FileSlice
  mapBlock_covers : ∀ piece start length,
    piece * pieceLength + start + length ≤ totalSize entries →
      Covers entries (piece * pieceLength + start) length (mapBlock piece start length)
  pieceSize_le : ∀ piece, piece < numPieces →
    piece * pieceLength + pieceSize piece ≤ totalSize entries

namespace FileStorage

variable (files : FileStorage)

def numFiles : Nat := files.entries.length
def fileSize (i : Nat) : Nat := sizeAt files.entries i
def fileOffset (i : Nat) : Nat := offsetAt files.entries i
def padFileAt (i : Nat) : Bool := (files.entries[i]?.map (·.pad)).getD false

/-- `file_index_t{0} … end_file()`. -/
def indices : List Nat := List.range files.numFiles

@[simp] theorem mem_indices {i : Nat} : i ∈ files.indices ↔ i < files.numFiles := List.mem_range

end FileStorage

/-- A `peer_request`. -/
structure Request where
  piece : Nat
  start : Nat
  length : Nat
deriving DecidableEq, Repr

namespace Request

/-- The torrent position of the request's first byte. -/
def pos (files : FileStorage) (request : Request) : Nat :=
  request.piece * files.pieceLength + request.start

/-- The block ends within the torrent. -/
def InRange (files : FileStorage) (request : Request) : Prop :=
  request.pos files + request.length ≤ totalSize files.entries

instance (files : FileStorage) (request : Request) : Decidable (request.InRange files) :=
  inferInstanceAs (Decidable (_ ≤ _))

/-- What `map_block` answers covers the block, without gaps and in order. -/
theorem InRange.covers {files : FileStorage} {request : Request} (h : request.InRange files) :
    Covers files.entries (request.pos files) request.length
      (files.mapBlock request.piece request.start request.length) :=
  files.mapBlock_covers _ _ _ h

end Request

/-! ## A layout cut from a list of files -/

/-- The cover of `len` bytes from `pos` on, `pos` counted from file `i`, the first entry. -/
def cutBlock : Nat → List FileEntry → Nat → Nat → List FileSlice
  | _, [], _, _ => []
  | i, entry :: rest, pos, len =>
      if len = 0 then []
      else if pos < entry.size then
        { fileIndex := i, offset := pos, size := min (entry.size - pos) len } ::
          cutBlock (i + 1) rest 0 (len - min (entry.size - pos) len)
      else cutBlock (i + 1) rest (pos - entry.size) len

/-- Induction on the files: the block begins in the first one, or beyond it. -/
theorem cutBlock_covers (before : List FileEntry) :
    ∀ (entries : List FileEntry) (pos len : Nat), pos + len ≤ totalSize entries →
      Covers (before ++ entries) (totalSize before + pos) len
        (cutBlock before.length entries pos len) := by
  intro entries
  induction entries generalizing before with
  | nil =>
    intro pos len h
    simp only [cutBlock, Covers]
    simp [totalSize] at h
    omega
  | cons entry rest ih =>
    intro pos len h
    have hlen : (before ++ [entry]).length = before.length + 1 := by simp
    have htot : totalSize (before ++ [entry]) = totalSize before + entry.size := by
      simp [totalSize]
    have happ : before ++ entry :: rest = (before ++ [entry]) ++ rest := by simp
    rw [totalSize_cons] at h
    unfold cutBlock
    split
    · rename_i hz
      simpa [Covers] using hz
    split
    · rename_i hz hlt
      have hat : (before ++ entry :: rest)[before.length]? = some entry := by simp
      have hoff : offsetAt (before ++ entry :: rest) before.length = totalSize before := by
        simp [offsetAt, totalSize]
      simp only [Covers]
      refine ⟨by simp, by omega, ?_, by omega, by omega, ?_⟩
      · simp only [sizeAt, hat, Option.map_some, Option.getD_some]
        omega
      -- the slice ends with its file, or is the last one
      · by_cases hfull : entry.size - pos ≤ len
        · have := ih (before ++ [entry]) 0 (len - min (entry.size - pos) len) (by omega)
          rw [hlen, htot, ← happ] at this
          rwa [show totalSize before + pos + min (entry.size - pos) len =
            totalSize before + entry.size + 0 by omega]
        · have hz' : len - min (entry.size - pos) len = 0 := by omega
          rw [hz']
          cases rest <;> simp [cutBlock, Covers]
    · rename_i hz hge
      have := ih (before ++ [entry]) (pos - entry.size) len (by omega)
      rw [hlen, htot, ← happ] at this
      rwa [show totalSize before + pos =
        totalSize before + entry.size + (pos - entry.size) by omega]

/-- The last piece ends with the torrent. -/
theorem last_piece_le {total pieceLength piece : Nat}
    (h : piece < (total + pieceLength - 1) / pieceLength) :
    piece * pieceLength + min pieceLength (total - piece * pieceLength) ≤ total := by
  rcases Nat.eq_zero_or_pos pieceLength with rfl | hpos
  · simp
  · have hp : piece * pieceLength < total := by
      have := (Nat.le_div_iff_mul_le hpos).mp (Nat.succ_le_of_lt h)
      rw [Nat.succ_mul] at this
      omega
    omega

/-- The layout of a plain list of files; every piece starts at the file it is counted in. -/
def FileStorage.ofEntries (entries : List FileEntry) (pieceLength : Nat) : FileStorage where
  entries := entries
  pieceLength := pieceLength
  numPieces := (totalSize entries + pieceLength - 1) / pieceLength
  pieceSize piece := min pieceLength (totalSize entries - piece * pieceLength)
  pieceSize2 piece := min pieceLength (totalSize entries - piece * pieceLength)
  blocksInPiece2 piece :=
    (min pieceLength (totalSize entries - piece * pieceLength) + 16383) / 16384
  mapBlock piece start length := cutBlock 0 entries (piece * pieceLength + start) length
  mapBlock_covers piece start length h := by
    simpa [totalSize] using cutBlock_covers [] entries (piece * pieceLength + start) length h
  pieceSize_le _ h := last_piece_le h

end Saf
end Libtorrent4j
