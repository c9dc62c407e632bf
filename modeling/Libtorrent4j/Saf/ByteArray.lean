import Libtorrent4j.Saf.Coherence
import Libtorrent4j.Saf.Naming

/-!
# A storage is one byte array

What the slices, the pad files, the part file and the retry loops are for: the storage is
**one array of bytes**, indexed by the position in the torrent. `byteAt` is that array, read
off the documents. `readSlices_spec` and `writeSlices_spec` say that the two slice loops read
and write it, however the transfers are split; `byte_array` is what a caller sees.

A skipped file's bytes are in the part file at their torrent position, so bytes of different
skipped files never meet there.
-/

namespace Libtorrent4j
namespace Saf

open Lib Lib.Exec TorrentStorage

abbrev Tree := Path → Option (List Byte)

namespace TorrentStorage

/-- The byte at a torrent position, if there is one to be read. -/
def byteAt (t : TorrentStorage) (tree : Tree) (q : Nat) : Option Byte :=
  match locate t.files.entries q with
  | none => none
  | some (index, offset) =>
      if t.files.padFileAt index then some 0
      else if safeRelativePath (t.homePath index) then
        (tree (t.homePath index)).bind fun doc => doc[t.homeOffset index offset]?
      else none

/-- The cache keys of a storage in a slot. -/
def keys (t : TorrentStorage) (storage : Nat) : Keys := fun s file path =>
  s = storage ∧ ((file = -1 ∧ path = t.partPath) ∨
    ∃ i < t.numFiles, t.files.padFileAt i = false ∧ file = i ∧ path = t.pathFor i)

variable {t : TorrentStorage}

/-- What is opened for a file that is not a pad file is opened under a key of the storage. -/
theorem keys_home {storage i : Nat} (hpad : t.files.padFileAt i = false)
    (hsafe : safeRelativePath (t.homePath i) = true) :
    t.keys storage storage (t.homeKey i) (t.homePath i) := by
  refine ⟨rfl, ?_⟩
  unfold homeKey homePath at *
  split at hsafe
  · rename_i hskipped
    rw [if_pos hskipped, if_pos hskipped]
    exact Or.inl ⟨rfl, rfl⟩
  · rename_i hskipped
    rw [if_neg hskipped, if_neg hskipped]
    exact Or.inr ⟨i, t.lt_of_safe_pathFor hsafe, hpad, rfl, rfl⟩

theorem homeOffset_add (i offset k : Nat) :
    t.homeOffset i (offset + k) = t.homeOffset i offset + k := by
  unfold homeOffset
  split <;> omega

theorem byteAt_of_liesAt {tree : Tree} {q i offset : Nat} (h : LiesAt t.files.entries q i offset)
    (hpad : t.files.padFileAt i = false) (hsafe : safeRelativePath (t.homePath i) = true)
    {doc : List Byte} (hdoc : tree (t.homePath i) = some doc) :
    t.byteAt tree q = doc[t.homeOffset i offset]? := by
  simp [byteAt, locate_eq_some_iff.mpr h, hpad, hsafe, hdoc]

theorem byteAt_eq_none {tree : Tree} {q i offset : Nat} (h : LiesAt t.files.entries q i offset)
    (hpad : t.files.padFileAt i = false)
    (hmiss : safeRelativePath (t.homePath i) = false ∨ tree (t.homePath i) = none) :
    t.byteAt tree q = none := by
  rcases hmiss with hrefused | hnone
  · simp [byteAt, locate_eq_some_iff.mpr h, hpad, hrefused]
  · simp [byteAt, locate_eq_some_iff.mpr h, hpad, hnone]

theorem byteAt_pad {tree : Tree} {q i offset : Nat} (h : LiesAt t.files.entries q i offset)
    (hpad : t.files.padFileAt i = true) : t.byteAt tree q = some 0 := by
  simp [byteAt, locate_eq_some_iff.mpr h, hpad]

/-- **Two positions kept in one document keep their distance there.** -/
theorem homeOffset_distance (hapart : Apart t) {q q' i i' offset offset' : Nat}
    (h : LiesAt t.files.entries q i offset) (h' : LiesAt t.files.entries q' i' offset')
    (hpad : t.files.padFileAt i = false) (hpad' : t.files.padFileAt i' = false)
    (hhome : t.homePath i = t.homePath i') :
    t.homeOffset i offset + q' = t.homeOffset i' offset' + q := by
  obtain ⟨hi, -, hq⟩ := h
  obtain ⟨hi', -, hq'⟩ := h'
  unfold homePath at hhome
  unfold homeOffset FileStorage.fileOffset
  split at hhome <;> split at hhome
  · rw [if_pos ‹_›, if_pos ‹_›]
    omega
  · exact absurd hhome.symm (hapart.notPart i' hi' hpad')
  · exact absurd hhome (hapart.notPart i hi hpad)
  · obtain rfl := hapart.distinct i hi i' hi' hpad hpad' hhome
    rw [if_neg ‹_›, if_neg ‹_›]
    omega

end TorrentStorage

/-! ## Reading -/

variable (G : Host) {t : TorrentStorage} {storage : Nat} {K : Keys} {d : Disk World}

/-- The bytes are those of the array from `pos` on. -/
def TorrentStorage.Holds (t : TorrentStorage) (tree : Tree) (pos : Nat) (bytes : List Byte) :
    Prop :=
  ∀ k < bytes.length, t.byteAt tree (pos + k) = bytes[k]?

/-- The first `n` bytes of a slice as its document has them, or nothing at all. -/
def TorrentStorage.Delivers (t : TorrentStorage) (tree : Tree) (slice : FileSlice) (n : Nat)
    (bytes : List Byte) : Prop :=
  bytes = [] ∨ (safeRelativePath (t.homePath slice.fileIndex) = true ∧
    ∃ doc, tree (t.homePath slice.fileIndex) = some doc ∧
      bytes = Doc.slice doc (t.homeOffset slice.fileIndex slice.offset) n)

/-- There is no document for the slice, or it ends inside the slice. -/
def TorrentStorage.EndsIn (t : TorrentStorage) (tree : Tree) (slice : FileSlice) : Prop :=
  safeRelativePath (t.homePath slice.fileIndex) = false ∨
    ∀ doc, tree (t.homePath slice.fileIndex) = some doc →
      doc.length < t.homeOffset slice.fileIndex slice.offset + slice.size

theorem TorrentStorage.Holds.append {tree : Tree} {pos : Nat} {bytes more : List Byte}
    (h : t.Holds tree pos bytes) (h' : t.Holds tree (pos + bytes.length) more) :
    t.Holds tree pos (bytes ++ more) := by
  intro k hk
  rw [List.length_append] at hk
  by_cases hlt : k < bytes.length
  · rw [List.getElem?_append_left hlt]
    exact h k hlt
  · rw [List.getElem?_append_right (by omega), ← h' (k - bytes.length) (by omega)]
    congr 1
    omega

/-- One slice of a file that is not a pad file: the bytes of its document, or a first part. -/
theorem readSlice_spec (reuse : Bool) (h : Coherent K d)
    (hK : ∀ file path, t.keys storage storage file path → K storage file path)
    (slice : FileSlice) (hpad : t.files.padFileAt slice.fileIndex = false) :
    wp (readSlice G.env reuse t storage slice)
      (fun bytes d' => Undisturbed K d d' ∧ bytes.length = slice.size ∧
        t.Delivers d.tree slice slice.size bytes)
      (fun e d' => Undisturbed K d d' ∧ (∃ n ≤ slice.size, t.Delivers d.tree slice n e.1) ∧
        (d.world.Willing → d.world.Smooth → t.EndsIn d.tree slice)) d := by
  rw [readSlice, wp_bind, wp_mapError]
  refine wp_mono (openFile_spec G reuse h fun hsafe => hK _ _ (keys_home hpad hsafe)) ?_ ?_
  · intro fd d₁ hopened
    obtain ⟨writable, -, hrefers⟩ := hopened.refers
    have htree : d₁.tree = d.tree := hopened.tree
    obtain ⟨doc, hdoc⟩ := hrefers.content
    have hdoc' : d.tree (t.homePath slice.fileIndex) = some doc := htree ▸ hdoc
    have hunchanged : Undisturbed K d d₁ := ⟨hopened.toProceeds, htree⟩
    refine wp_mono (readWhole_spec G hrefers hdoc _ _ _ _) ?_ ?_
    · rintro out d₂ ⟨hquiet, hout, hlen⟩
      exact ⟨hunchanged.trans (undisturbed_quiet hopened.coherent hquiet), hlen,
        Or.inr ⟨hopened.safe, doc, hdoc', hout⟩⟩
    · rintro e d₂ ⟨hquiet, ⟨n, hn, he, -⟩, hshort⟩
      refine ⟨hunchanged.trans (undisturbed_quiet hopened.coherent hquiet),
        ⟨n, hn, Or.inr ⟨hopened.safe, doc, hdoc', he⟩⟩, fun _ hsmooth => Or.inr fun doc' h' => ?_⟩
      obtain rfl : doc = doc' := Option.some.inj (hdoc'.symm.trans h')
      exact (hshort (hopened.kept.smooth hsmooth)).1
  · rintro e d₁ hfailed
    -- nothing was opened, so nothing was read
    refine ⟨hfailed.toUndisturbed, ⟨0, Nat.zero_le _, Or.inl rfl⟩, fun hwilling _ => ?_⟩
    obtain ⟨hrefused | ⟨-, hnone⟩, -⟩ := hfailed.reason hwilling
    · exact Or.inl hrefused
    · exact Or.inr fun doc hdoc => by rw [hnone] at hdoc; cases hdoc

section Cover

variable {tree : Tree} {pos len n : Nat} {slice : FileSlice} {rest : List FileSlice}
  {bytes : List Byte}

theorem TorrentStorage.Delivers.holds (h : t.Delivers tree slice n bytes) (hn : n ≤ slice.size)
    (hcover : Covers t.files.entries pos len (slice :: rest))
    (hpad : t.files.padFileAt slice.fileIndex = false) :
    t.Holds tree pos bytes ∧ bytes.length ≤ slice.size := by
  rcases h with rfl | ⟨hsafe, doc, hdoc, rfl⟩
  · exact ⟨fun k hk => absurd hk (Nat.not_lt_zero k), Nat.zero_le _⟩
  · have hlen := Doc.length_slice doc (t.homeOffset slice.fileIndex slice.offset) n
    refine ⟨fun k hk => ?_, by omega⟩
    rw [byteAt_of_liesAt (hcover.head_liesAt (by omega)) hpad hsafe hdoc, homeOffset_add,
      Doc.getElem?_slice, if_pos (by omega)]

/-- Where the document ends inside a slice there is a byte that cannot be read. -/
theorem TorrentStorage.EndsIn.missing (h : t.EndsIn tree slice)
    (hcover : Covers t.files.entries pos len (slice :: rest))
    (hpad : t.files.padFileAt slice.fileIndex = false) :
    ∃ k < slice.size, t.byteAt tree (pos + k) = none := by
  have hpos : 0 < slice.size := hcover.2.1
  rcases h with hrefused | hend
  · exact ⟨0, hpos, byteAt_eq_none (hcover.head_liesAt hpos) hpad (Or.inl hrefused)⟩
  · cases hdoc : tree (t.homePath slice.fileIndex) with
    | none => exact ⟨0, hpos, byteAt_eq_none (hcover.head_liesAt hpos) hpad (Or.inr hdoc)⟩
    | some doc =>
      have := hend doc hdoc
      refine ⟨slice.size - 1, by omega, ?_⟩
      cases hsafe : safeRelativePath (t.homePath slice.fileIndex) with
      | false =>
        exact byteAt_eq_none (hcover.head_liesAt (by omega)) hpad (Or.inl hsafe)
      | true =>
        rw [byteAt_of_liesAt (hcover.head_liesAt (by omega)) hpad hsafe hdoc, homeOffset_add]
        exact List.getElem?_eq_none (by omega)

end Cover

/-- **The slice loop of `read_block` reads the array**: what is delivered are its bytes, and on
    a healthy provider the loop stops only at one that is not there. -/
theorem readSlices_spec (reuse : Bool) {d : Disk World} (h : Coherent K d)
    (hK : ∀ file path, t.keys storage storage file path → K storage file path)
    {slices : List FileSlice} {pos len : Nat} (hcover : Covers t.files.entries pos len slices)
    (out : List Byte) :
    wp (readSlices G.env reuse t storage slices out)
      (fun out' d' => Undisturbed K d d' ∧ ∃ bytes, out' = out ++ bytes ∧ bytes.length = len ∧
        t.Holds d.tree pos bytes)
      (fun e d' => Undisturbed K d d' ∧ (∃ bytes, e.1 = out ++ bytes ∧ bytes.length ≤ len ∧
        t.Holds d.tree pos bytes) ∧
        (d.world.Willing → d.world.Smooth → ∃ k < len, t.byteAt d.tree (pos + k) = none)) d := by
  induction slices generalizing d pos len out with
  | nil =>
    obtain rfl : len = 0 := hcover
    exact ⟨.refl h, [], by simp, rfl, fun k hk => absurd hk (Nat.not_lt_zero k)⟩
  | cons slice rest ih =>
    have hle : slice.size ≤ len := hcover.2.2.2.2.1
    have hrest := hcover.2.2.2.2.2
    -- what the rest delivers follows what this slice has delivered
    have hcontinue : ∀ {first : List Byte} {d₁}, Undisturbed K d d₁ → first.length = slice.size →
        t.Holds d.tree pos first →
        wp (readSlices G.env reuse t storage rest (out ++ first))
          (fun out' d' => Undisturbed K d d' ∧ ∃ bytes, out' = out ++ bytes ∧ bytes.length = len ∧
            t.Holds d.tree pos bytes)
          (fun e d' => Undisturbed K d d' ∧ (∃ bytes, e.1 = out ++ bytes ∧ bytes.length ≤ len ∧
            t.Holds d.tree pos bytes) ∧
            (d.world.Willing → d.world.Smooth → ∃ k < len, t.byteAt d.tree (pos + k) = none))
          d₁ := by
      intro first d₁ hfirst hlen hholds
      refine wp_mono (ih hfirst.coherent hrest (out ++ first)) ?_ ?_
      · rintro out' d₂ ⟨hsecond, bytes, rfl, hbytes, hmore⟩
        rw [hfirst.tree, ← hlen] at hmore
        exact ⟨hfirst.trans hsecond, first ++ bytes, by simp, by simp; omega, hholds.append hmore⟩
      · rintro e d₂ ⟨hsecond, ⟨bytes, he, hbytes, hmore⟩, hmissing⟩
        rw [hfirst.tree, ← hlen] at hmore
        refine ⟨hfirst.trans hsecond, ⟨first ++ bytes, by simpa using he, by simp; omega,
          hholds.append hmore⟩, fun hwilling hsmooth => ?_⟩
        obtain ⟨k, hk, hnone⟩ :=
          hmissing (hfirst.kept.willing hwilling) (hfirst.kept.smooth hsmooth)
        rw [hfirst.tree] at hnone
        exact ⟨slice.size + k, by omega, by rwa [← Nat.add_assoc]⟩
    rw [readSlices, wp_ite]
    refine ⟨fun hpad => ?_, fun hpad => ?_⟩
    · refine hcontinue (.refl h) (by simp) fun k hk => ?_
      rw [List.length_replicate] at hk
      rw [byteAt_pad (hcover.head_liesAt hk) hpad, List.getElem?_replicate, if_pos hk]
    · have hpad' : t.files.padFileAt slice.fileIndex = false := by simpa using hpad
      rw [wp_bind, wp_mapError]
      refine wp_mono (readSlice_spec G reuse h hK slice hpad') ?_ ?_
      · rintro first d₁ ⟨hfirst, hlen, hdelivers⟩
        exact hcontinue hfirst hlen (hdelivers.holds le_rfl hcover hpad').1
      · rintro e d₁ ⟨hfirst, ⟨n, hn, hdelivers⟩, hmissing⟩
        obtain ⟨hholds, hlen⟩ := hdelivers.holds hn hcover hpad'
        refine ⟨hfirst, ⟨e.1, rfl, by omega, hholds⟩, fun hwilling hsmooth => ?_⟩
        obtain ⟨k, hk, hnone⟩ := (hmissing hwilling hsmooth).missing hcover hpad'
        exact ⟨k, by omega, hnone⟩

/-! ## Writing -/

/-- The documents after a slice has been written. -/
def TorrentStorage.written (t : TorrentStorage) (tree : Tree) (slice : FileSlice)
    (data : List Byte) : Tree :=
  Function.update tree (t.homePath slice.fileIndex) (some (Doc.splice
    ((tree (t.homePath slice.fileIndex)).getD []) (t.homeOffset slice.fileIndex slice.offset) data))

section Cover

variable {tree : Tree} {pos len : Nat} {slice : FileSlice} {rest : List FileSlice}
  {data : List Byte}

theorem byteAt_written_inside (hcover : Covers t.files.entries pos len (slice :: rest))
    (hpad : t.files.padFileAt slice.fileIndex = false)
    (hsafe : safeRelativePath (t.homePath slice.fileIndex) = true)
    (hlen : data.length = slice.size) {k : Nat} (hk : k < slice.size) :
    t.byteAt (t.written tree slice data) (pos + k) = data[k]? := by
  have hdoc : t.written tree slice data (t.homePath slice.fileIndex) = some _ :=
    Function.update_self _ _ _
  rw [byteAt_of_liesAt (hcover.head_liesAt hk) hpad hsafe hdoc, homeOffset_add,
    Doc.getElem?_splice_inside (by omega) (by omega)]
  congr 1
  omega

/-- Every other byte is still there: in another document, or at another place in this one. -/
theorem byteAt_written_outside (hapart : Apart t)
    (hcover : Covers t.files.entries pos len (slice :: rest))
    (hpad : t.files.padFileAt slice.fileIndex = false) (hlen : data.length = slice.size) {q : Nat}
    {b : Byte} (hb : t.byteAt tree q = some b) (hq : q < pos ∨ pos + slice.size ≤ q) :
    t.byteAt (t.written tree slice data) q = some b := by
  have hfirst := hcover.head_liesAt hcover.2.1
  unfold byteAt at hb ⊢
  cases hat : locate t.files.entries q with
  | none => rw [hat] at hb; cases hb
  | some at' =>
    obtain ⟨i, offset⟩ := at'
    rw [hat] at hb
    dsimp only at hb ⊢
    split at hb
    · rwa [if_pos ‹_›]
    rename_i hpadi
    have hpadi' : t.files.padFileAt i = false := by simpa using hpadi
    rw [if_neg hpadi]
    split at hb
    · rename_i hsafe
      rw [if_pos hsafe]
      -- only the home that has been written can have changed
      by_cases hhome : t.homePath i = t.homePath slice.fileIndex
      · obtain ⟨doc, hdoc, hget⟩ := Option.bind_eq_some_iff.mp hb
        rw [hhome] at hdoc
        have hdistance := homeOffset_distance hapart (locate_eq_some_iff.mp hat) hfirst hpadi'
          hpad hhome
        rw [homeOffset_add] at hdistance
        rw [hhome, TorrentStorage.written, Function.update_self, hdoc]
        exact Doc.getElem?_splice_outside hget (by omega)
      · rwa [TorrentStorage.written, Function.update_of_ne hhome]
    · cases hb

end Cover

/-- One slice of a file that is not a pad file: all of it is written, or only its document has
    changed. -/
theorem writeSlice_spec (reuse : Bool) (h : Coherent K d)
    (hK : ∀ file path, t.keys storage storage file path → K storage file path)
    (slice : FileSlice) (hpad : t.files.padFileAt slice.fileIndex = false) {data : List Byte}
    (hlen : data.length = slice.size) :
    wp (writeSlice G.env reuse t storage slice data)
      (fun _ d' => Proceeds K d d' ∧ safeRelativePath (t.homePath slice.fileIndex) = true ∧
        d'.tree = t.written d.tree slice data)
      (fun _ d' => Proceeds K d d' ∧
        ∀ path, path ≠ t.homePath slice.fileIndex → d'.tree path = d.tree path) d := by
  rw [writeSlice, wp_bind]
  refine wp_mono (openFile_spec G reuse h fun hsafe => hK _ _ (keys_home hpad hsafe)) ?_ ?_
  · intro fd d₁ hopened
    obtain ⟨writable, hwritable, hrefers⟩ := hopened.refers
    rw [hwritable rfl] at hrefers
    have htree : d₁.tree = Function.update d.tree (t.homePath slice.fileIndex)
        (some ((d.tree (t.homePath slice.fileIndex)).getD [])) := hopened.tree
    have hdoc : d₁.tree (t.homePath slice.fileIndex) =
        some ((d.tree (t.homePath slice.fileIndex)).getD []) := by
      rw [htree, Function.update_self]
    refine wp_mono (writeWhole_spec G hopened.coherent.sound hrefers hdoc _ _ _ _ hlen.le) ?_ ?_
    · intro _ d₂ hputs
      refine ⟨hopened.toProceeds.trans (proceeds_grows hopened.coherent hputs.toGrows),
        hopened.safe, ?_⟩
      rw [hputs.tree, htree, Function.update_idem, TorrentStorage.written, hlen, Nat.sub_self,
        Nat.add_zero]
    · rintro _ d₂ ⟨⟨n, -, hputs⟩, -⟩
      refine ⟨hopened.toProceeds.trans (proceeds_grows hopened.coherent hputs.toGrows),
        fun path hpath => ?_⟩
      rw [hputs.tree, htree, Function.update_of_ne hpath, Function.update_of_ne hpath]
  · intro e d₁ hfailed
    exact ⟨hfailed.toProceeds, fun path _ => by rw [hfailed.tree]⟩

/-- The position belongs to a pad file. -/
def FileStorage.isPad (files : FileStorage) (q : Nat) : Bool :=
  (locate files.entries q).any fun at' => files.padFileAt at'.1

theorem isPad_of_liesAt {q i offset : Nat} (h : LiesAt t.files.entries q i offset) :
    t.files.isPad q = t.files.padFileAt i := by
  simp [FileStorage.isPad, locate_eq_some_iff.mpr h]

theorem byteAt_isPad {tree : Tree} {q : Nat} (h : t.files.isPad q = true) :
    t.byteAt tree q = some 0 := by
  unfold FileStorage.isPad at h
  cases hat : locate t.files.entries q with
  | none => rw [hat] at h; cases h
  | some at' =>
    rw [hat] at h
    exact byteAt_pad (locate_eq_some_iff.mp hat) h

/-- The array after `input` has been written from `pos` on. -/
structure Stored (t : TorrentStorage) (tree tree' : Tree) (pos : Nat) (input : List Byte) :
    Prop where
  inside : ∀ k < input.length, t.byteAt tree' (pos + k) =
    if t.files.isPad (pos + k) then some 0 else input[k]?
  outside : ∀ q b, q < pos ∨ pos + input.length ≤ q → t.byteAt tree q = some b →
    t.byteAt tree' q = some b

/-- No document but those the slices are kept in has changed. -/
def Framed (t : TorrentStorage) (slices : List FileSlice) (tree tree' : Tree) : Prop :=
  ∀ path, (∀ slice ∈ slices, t.files.padFileAt slice.fileIndex = false →
    path ≠ t.homePath slice.fileIndex) → tree' path = tree path

/-- **The slice loop of `write_block` writes the array**, and no document besides. -/
theorem writeSlices_spec (reuse : Bool) {d : Disk World} (h : Coherent K d) (hapart : Apart t)
    (hK : ∀ file path, t.keys storage storage file path → K storage file path)
    {slices : List FileSlice} {pos : Nat} {input : List Byte}
    (hcover : Covers t.files.entries pos input.length slices) :
    wp (writeSlices G.env reuse t storage slices input)
      (fun _ d' => Proceeds K d d' ∧ Stored t d.tree d'.tree pos input ∧
        Framed t slices d.tree d'.tree)
      (fun _ d' => Proceeds K d d' ∧ Framed t slices d.tree d'.tree) d := by
  induction slices generalizing d pos input with
  | nil =>
    have hnil : input.length = 0 := hcover
    exact ⟨.refl h, ⟨fun k hk => by omega, fun _ _ _ h => h⟩, fun _ _ => rfl⟩
  | cons slice rest ih =>
    have hle : slice.size ≤ input.length := hcover.2.2.2.2.1
    have hrest : Covers t.files.entries (pos + slice.size) (input.drop slice.size).length rest := by
      rw [List.length_drop]
      exact hcover.2.2.2.2.2
    have htake : (input.take slice.size).length = slice.size := by
      rw [List.length_take]
      omega
    have hdrop : (input.drop slice.size).length = input.length - slice.size := List.length_drop
    -- this slice first, then the rest
    have hcontinue : ∀ {d₁}, Proceeds K d d₁ →
        (∀ k < slice.size, t.byteAt d₁.tree (pos + k) =
          if t.files.isPad (pos + k) then some 0 else input[k]?) →
        (∀ q b, q < pos ∨ pos + slice.size ≤ q → t.byteAt d.tree q = some b →
          t.byteAt d₁.tree q = some b) →
        Framed t [slice] d.tree d₁.tree →
        wp (writeSlices G.env reuse t storage rest (input.drop slice.size))
          (fun _ d' => Proceeds K d d' ∧ Stored t d.tree d'.tree pos input ∧
            Framed t (slice :: rest) d.tree d'.tree)
          (fun _ d' => Proceeds K d d' ∧ Framed t (slice :: rest) d.tree d'.tree) d₁ := by
      intro d₁ hproceeds hinside houtside hframe
      have hframes :
          ∀ {tree}, Framed t rest d₁.tree tree → Framed t (slice :: rest) d.tree tree := by
        intro tree hrest path hpath
        rw [hrest path fun s hs => hpath s (List.mem_cons_of_mem _ hs)]
        exact hframe path fun s hs => hpath s (by simp_all)
      refine wp_mono (ih hproceeds.coherent hrest) ?_ ?_
      · rintro _ d₂ ⟨hproceeds₂, hstored, hframe₂⟩
        refine ⟨hproceeds.trans hproceeds₂, ⟨fun k hk => ?_, fun q b hq hb => ?_⟩,
          hframes hframe₂⟩
        · by_cases hfirst : k < slice.size
          · obtain ⟨b, hb⟩ : ∃ b, t.byteAt d₁.tree (pos + k) = some b := by
              rw [hinside k hfirst]
              split
              · exact ⟨0, rfl⟩
              · exact ⟨_, List.getElem?_eq_getElem hk⟩
            rw [hstored.outside _ b (by omega) hb, ← hb, hinside k hfirst]
          · have := hstored.inside (k - slice.size) (by omega)
            rw [List.getElem?_drop, Nat.add_assoc, Nat.add_sub_cancel' (by omega)] at this
            exact this
        · exact hstored.outside q b (by omega) (houtside q b (by omega) hb)
      · rintro _ d₂ ⟨hproceeds₂, hframe₂⟩
        exact ⟨hproceeds.trans hproceeds₂, hframes hframe₂⟩
    rw [writeSlices, wp_ite]
    refine ⟨fun hpad => ?_, fun hpad => ?_⟩
    · refine hcontinue (.refl h) (fun k hk => ?_) (fun _ _ _ hb => hb) fun _ _ => rfl
      have hlies := hcover.head_liesAt hk
      rw [byteAt_pad hlies hpad, isPad_of_liesAt hlies, if_pos hpad]
    · have hpad' : t.files.padFileAt slice.fileIndex = false := by simpa using hpad
      rw [wp_bind]
      refine wp_mono (writeSlice_spec G reuse h hK slice hpad' htake) ?_ ?_
      · rintro _ d₁ ⟨hproceeds, hsafe, htree⟩
        refine hcontinue hproceeds (fun k hk => ?_) (fun q b hq hb => ?_) fun path hpath => ?_
        · rw [htree, byteAt_written_inside hcover hpad' hsafe htake hk,
            isPad_of_liesAt (hcover.head_liesAt hk), if_neg hpad, List.getElem?_take, if_pos hk]
        · rw [htree]
          exact byteAt_written_outside hapart hcover hpad' htake hb hq
        · rw [htree, TorrentStorage.written, Function.update_of_ne (hpath slice (by simp) hpad')]
      · rintro _ d₁ ⟨hproceeds, hframe⟩
        exact ⟨hproceeds, fun path hpath => hframe path (hpath slice (by simp) hpad')⟩

/-! ## Jobs -/

/-- A read job delivers bytes of the array, all that were asked for if it reports no error, and
    on a healthy provider it reports none when they are all there. -/
theorem readJob_spec (reuse : Bool) (h : Coherent K d)
    (hK : ∀ file path, t.keys storage storage file path → K storage file path)
    {request : Request} (hrange : request.InRange t.files) :
    let r := runJob G.env reuse storage (.read request) { torrent := t, disk := d }
    r.2.torrent = t ∧ Undisturbed K d r.2.disk ∧
      (∀ out error, r.1 = .read out error → out.length ≤ request.length ∧
        t.Holds d.tree (request.pos t.files) out ∧
        (error = none → out.length = request.length)) ∧
      (d.world.Willing → d.world.Smooth →
        (∀ k < request.length, t.byteAt d.tree (request.pos t.files + k) ≠ none) →
        ∃ out, r.1 = .read out none) := by
  have hspec := readSlices_spec G reuse h hK hrange.covers []
  unfold wp at hspec
  simp only [runJob, onDisk, zoom, readBlock]
  rcases hres : readSlices G.env reuse t storage
    (t.files.mapBlock request.piece request.start request.length) [] d with ⟨out | out, d'⟩ <;>
    rw [hres] at hspec
  · obtain ⟨hundisturbed, ⟨bytes, hbytes, hlen, hholds⟩, hmissing⟩ := hspec
    rw [List.nil_append] at hbytes
    refine ⟨trivial, hundisturbed, fun out' error heq => ?_, fun hwilling hsmooth hall => ?_⟩
    · simp only [readReport, Report.read.injEq] at heq
      rw [← heq.1, hbytes]
      exact ⟨hlen, hholds, fun hnone => by rw [hnone] at heq; simp at heq⟩
    · obtain ⟨k, hk, hnone⟩ := hmissing hwilling hsmooth
      exact absurd hnone (hall k hk)
  · obtain ⟨hundisturbed, bytes, hbytes, hlen, hholds⟩ := hspec
    rw [List.nil_append] at hbytes
    subst hbytes
    simp only [readReport, hlen, ne_eq, not_true_eq_false, if_false]
    refine ⟨trivial, hundisturbed, fun out' error heq => ?_, fun _ _ _ => ⟨_, rfl⟩⟩
    simp only [Report.read.injEq] at heq
    rw [← heq.1]
    exact ⟨hlen.le, hholds, fun _ => hlen⟩

/-- Reads leave the documents alone. -/
theorem readJobs_spec (reuse : Bool) (h : Coherent K d)
    (hK : ∀ file path, t.keys storage storage file path → K storage file path)
    {reads : List Request} (hrange : ∀ request ∈ reads, request.InRange t.files) :
    let s := (runJobs G.env reuse storage (reads.map Job.read) { torrent := t, disk := d }).2
    s.torrent = t ∧ Undisturbed K d s.disk := by
  refine runJobs_induct G.env reuse storage
    (I := fun s => s.torrent = t ∧ Undisturbed K d s.disk) ?_ ⟨rfl, .refl h⟩
  rintro job hjob ⟨torrent, d'⟩ ⟨rfl, hd'⟩
  obtain ⟨request, hrequest, rfl⟩ := List.mem_map.mp hjob
  obtain ⟨htorrent, hread, -, -⟩ := readJob_spec G reuse hd'.coherent hK (hrange request hrequest)
  exact ⟨htorrent, hd'.trans hread⟩

/-- A write job that reports no error has written the array. -/
theorem writeJob_spec (reuse : Bool) (h : Coherent K d) (hapart : Apart t)
    (hK : ∀ file path, t.keys storage storage file path → K storage file path)
    {request : Request} (hrange : request.InRange t.files) {input : List Byte}
    (hinput : input.length = request.length) :
    let r := runJob G.env reuse storage (.write request input) { torrent := t, disk := d }
    r.2.torrent = t ∧ Proceeds K d r.2.disk ∧
      Framed t (t.files.mapBlock request.piece request.start request.length) d.tree r.2.disk.tree ∧
      (r.1 = .written none → Stored t d.tree r.2.disk.tree (request.pos t.files) input) := by
  have hcover := hrange.covers
  rw [← hinput] at hcover ⊢
  have hspec := writeSlices_spec G reuse h hapart hK hcover
  unfold wp at hspec
  simp only [runJob, onDisk, zoom, writeBlock, ← hinput]
  rcases hres : writeSlices G.env reuse t storage
    (t.files.mapBlock request.piece request.start input.length) input d with ⟨e | _, d'⟩ <;>
    rw [hres] at hspec
  · exact ⟨trivial, hspec.1, hspec.2, by simp [unitError]⟩
  · exact ⟨trivial, hspec.1, hspec.2.2, fun _ => hspec.2.1⟩

/-- **A storage is one byte array.** After a write that reports no error, and after any reads
    that follow it:

* no document has changed but those the written range is kept in;
* on a healthy provider, reading the written range succeeds;
* a read that reports no error delivers what was written inside the range, zeros for pad
  files, and otherwise the byte that could be read before the write. -/
theorem byte_array (h : Coherent K d) (hapart : Apart t)
    (hK : ∀ file path, t.keys storage storage file path → K storage file path)
    {request : Request} (hrange : request.InRange t.files) {input : List Byte}
    (hinput : input.length = request.length)
    (hwrite : (runJob G.env true storage (.write request input) { torrent := t, disk := d }).1 =
      .written none)
    {reads : List Request} (hreads : ∀ other ∈ reads, other.InRange t.files) :
    let wrote := (runJob G.env true storage (.write request input) { torrent := t, disk := d }).2
    let s := (runJobs G.env true storage (reads.map Job.read) wrote).2
    Framed t (t.files.mapBlock request.piece request.start request.length) d.tree s.disk.tree ∧
    (d.world.Willing → d.world.Smooth →
      ∃ out, (runJob G.env true storage (.read request) s).1 = .read out none) ∧
    ∀ other : Request, other.InRange t.files → ∀ out,
      (runJob G.env true storage (.read other) s).1 = .read out none →
      out.length = other.length ∧ ∀ k < other.length,
        let q := other.pos t.files + k
        (t.files.isPad q = true → out[k]? = some 0) ∧
        (t.files.isPad q = false → request.pos t.files ≤ q →
          q < request.pos t.files + request.length → out[k]? = input[q - request.pos t.files]?) ∧
        (q < request.pos t.files ∨ request.pos t.files + request.length ≤ q →
          ∀ b, t.byteAt d.tree q = some b → out[k]? = some b) := by
  intro wrote s
  -- the write leaves a tree with the bytes in it, and the reads leave the tree as it is
  obtain ⟨htorrent, hproceeds, hframe, hstored⟩ :=
    writeJob_spec G true h hapart hK hrange hinput
  change wrote.torrent = t at htorrent
  change Proceeds K d wrote.disk at hproceeds
  replace hstored : Stored t d.tree wrote.disk.tree (request.pos t.files) input := hstored hwrite
  have hwrote : wrote = { torrent := t, disk := wrote.disk } := by rw [← htorrent]
  obtain ⟨hsame, hs⟩ := readJobs_spec (t := t) G true hproceeds.coherent hK hreads
  have hstate : s = { torrent := t, disk := s.disk } := by
    simp only [s]
    rw [hwrote]
    exact congrArg (Sys.mk · _) hsame
  rw [← hwrote] at hs
  have htree : s.disk.tree = wrote.disk.tree := hs.tree
  refine ⟨by rw [htree]; exact hframe, fun hwilling hsmooth => ?_, fun other hother out hread => ?_⟩
  · rw [hstate]
    obtain ⟨-, -, -, hsucceeds⟩ := readJob_spec G true hs.coherent hK hrange
    refine hsucceeds (hs.kept.willing (hproceeds.kept.willing hwilling))
      (hs.kept.smooth (hproceeds.kept.smooth hsmooth)) fun k hk => ?_
    rw [htree, hstored.inside k (by omega)]
    split
    · simp
    · simp [hinput ▸ hk]
  · rw [hstate] at hread
    obtain ⟨-, -, hdelivers, -⟩ := readJob_spec G true hs.coherent hK hother
    obtain ⟨-, hholds, hlen⟩ := hdelivers out none hread
    refine ⟨hlen rfl, fun k hk => ?_⟩
    rw [← hholds k (by rw [hlen rfl]; exact hk), htree]
    have hat : ∀ q, request.pos t.files ≤ q → q < request.pos t.files + request.length →
        t.byteAt wrote.disk.tree q =
          if t.files.isPad q then some 0 else input[q - request.pos t.files]? := by
      intro q hlow hhigh
      have := hstored.inside (q - request.pos t.files) (by omega)
      rwa [Nat.add_sub_cancel' hlow] at this
    refine ⟨fun hpad => ?_, fun hpad hlow hhigh => ?_, fun hout b hb => ?_⟩
    · exact byteAt_isPad hpad
    · rw [hat _ hlow hhigh, if_neg (by simp [hpad])]
    · exact hstored.outside _ b (by omega) hb

namespace Split

/-- Three bytes, a pad byte, an empty file and four bytes that are skipped. -/
def params : StorageParams where
  files := FileStorage.ofEntries [{ size := 3, pad := false }, { size := 1, pad := true },
    { size := 0, pad := false }, { size := 4, pad := false }] 8
  filePath i := str (if i = 0 then "a" else if i = 1 then "pad" else if i = 2 then "empty" else "b")
  path := flowSessionRoot
  priorities := [4, 4, 4, 0]
  infoHash := List.replicate 20 171

def disk : Disk World :=
  { world := { World.holding [(str "a", [1, 2, 3])] with io := [.short 0, .interrupted] } }

def request : Request := { piece := 0, start := 1, length := 5 }

theorem apart_params : Apart (build params []) := by
  constructor
  · decide +kernel
  · decide +kernel

def host : Host := ⟨.next, id, id⟩

def later : List Request := [{ piece := 0, start := 4, length := 1 }]

theorem later_inRange : ∀ other ∈ later, other.InRange (build params []).files := by
  decide +kernel

theorem coherent_disk : Coherent (fun _ _ _ => True) disk := by
  have hs := World.sound_holding [(str "a", [1, 2, 3])]
  exact coherent_fresh (w := disk.world) ⟨hs.inj, hs.bound⟩ _

/-- Written through a split and an interrupted transfer, the range can be read afterwards. -/
theorem byte_array_split :
    ∃ out, (runJob host.env true 0 (.read request)
      (runJobs host.env true 0 (later.map Job.read)
        (runJob host.env true 0 (.write request [7, 8, 9, 10, 11])
          { torrent := build params [], disk := disk }).2).2).1 = .read out none := by
  have hrange : request.InRange (build params []).files := by decide +kernel
  have hwrite : (runJob host.env true 0 (.write request [7, 8, 9, 10, 11])
      { torrent := build params [], disk := disk }).1 = .written none := by decide +kernel
  obtain ⟨-, hread, -⟩ := byte_array host coherent_disk apart_params (fun _ _ _ => trivial) hrange
    rfl hwrite later_inRange
  exact hread (by simp [World.Willing, disk, World.holding])
    (by simp [World.Smooth, disk, World.holding, IoFault.Benign])

end Split

end Saf
end Libtorrent4j
