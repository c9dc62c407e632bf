import Libtorrent4j.Lib.Memory
import Libtorrent4j.Saf.Preserving

/-!
# What a write that fails leaves behind

`writeSlices_spec` says what a write does that reports no error. A write that fails may have
failed in any slice and in the middle of it, yet the slices are written in their order and
each from its start. So **a write, failed or not, has stored the first part of its input**, and
every other byte can still be read.
-/

namespace Libtorrent4j
namespace Saf

open Lib Lib.Exec TorrentStorage

/-! ## Stored ranges -/

section Stored

variable {t : TorrentStorage} {tree tree' tree'' : Tree} {pos : Nat} {input more : List Byte}

theorem Stored.nothing (h : ∀ q b, t.byteAt tree q = some b → t.byteAt tree' q = some b) :
    Stored t tree tree' pos [] :=
  ⟨fun _ hk => absurd hk (Nat.not_lt_zero _), fun q b _ hb => h q b hb⟩

/-- One range, then the one that follows it. -/
theorem Stored.append (h : Stored t tree tree' pos input)
    (h' : Stored t tree' tree'' (pos + input.length) more) :
    Stored t tree tree'' pos (input ++ more) := by
  constructor
  · intro k hk
    rw [List.length_append] at hk
    by_cases hfirst : k < input.length
    · have hthere := h.inside k hfirst
      rw [List.getElem?_append_left hfirst, ← hthere]
      -- the first range is outside of the second
      cases hbyte : t.byteAt tree' (pos + k) with
      | some b => exact h'.outside _ b (by omega) hbyte
      | none =>
        rw [hbyte] at hthere
        split at hthere
        · cases hthere
        · rw [List.getElem?_eq_getElem hfirst] at hthere
          cases hthere
    · have hrest := h'.inside (k - input.length) (by omega)
      rw [Nat.add_assoc, Nat.add_sub_cancel' (by omega)] at hrest
      rw [hrest, List.getElem?_append_right (by omega)]
  · intro q b hq hb
    rw [List.length_append] at hq
    exact h'.outside q b (by omega) (h.outside q b (by omega) hb)

/-- The input as it is stored: zeros for the pad files. -/
def FileStorage.masked (files : FileStorage) (pos : Nat) (input : List Byte) : List Byte :=
  input.mapIdx fun k b => if files.isPad (pos + k) then 0 else b

@[simp] theorem length_masked (files : FileStorage) (pos : Nat) (input : List Byte) :
    (files.masked pos input).length = input.length :=
  List.length_mapIdx

theorem getElem?_masked (files : FileStorage) (pos : Nat) {input : List Byte} {k : Nat}
    (hk : k < input.length) :
    (files.masked pos input)[k]? = if files.isPad (pos + k) then some 0 else input[k]? := by
  rw [FileStorage.masked, List.getElem?_mapIdx, List.getElem?_eq_getElem hk, Option.map_some]
  split <;> rfl

theorem masked_take (files : FileStorage) (pos : Nat) (input : List Byte) (n : Nat) :
    files.masked pos (input.take n) = (files.masked pos input).take n := by
  apply List.ext_getElem?
  intro k
  rw [List.getElem?_take, FileStorage.masked, FileStorage.masked, List.getElem?_mapIdx,
    List.getElem?_mapIdx, List.getElem?_take]
  by_cases hk : k < n
  · rw [if_pos hk, if_pos hk]
  · rw [if_neg hk, if_neg hk, Option.map_none]

theorem Stored.overwrites (h : Stored t tree tree' pos input) :
    Memory.Overwrites (t.byteAt tree) (t.byteAt tree') pos (t.files.masked pos input) := by
  constructor
  · intro k hk
    rw [length_masked] at hk
    rw [getElem?_masked t.files pos hk, h.inside k hk]
  · intro q b hq hb
    rw [length_masked] at hq
    exact h.outside q b hq hb

end Stored

/-! ## One slice -/

section Cover

variable {t : TorrentStorage} {tree : Tree} {pos len : Nat} {slice : FileSlice}
  {rest : List FileSlice} {data : List Byte}

/-- The first bytes of a cover, as a cover of their own. -/
theorem Covers.shorten {entries : List FileEntry} (h : Covers entries pos len (slice :: rest))
    {n : Nat} (hpos : 0 < n) (hn : n ≤ slice.size) :
    Covers entries pos n [{ slice with size := n }] := by
  obtain ⟨hi, -, hfit, hat, -, -⟩ := h
  exact ⟨hi, hpos, by dsimp only; omega, hat, le_rfl, Nat.sub_self n⟩

/-- A document that is made and left empty hides no byte. -/
theorem byteAt_touched (t : TorrentStorage) (tree : Tree) (path : Path) {q : Nat} {b : Byte}
    (hb : t.byteAt tree q = some b) :
    t.byteAt (Function.update tree path (some ((tree path).getD []))) q = some b := by
  unfold byteAt at hb ⊢
  cases hat : locate t.files.entries q with
  | none => rw [hat] at hb; cases hb
  | some at' =>
    obtain ⟨i, offset⟩ := at'
    rw [hat] at hb
    dsimp only at hb ⊢
    split at hb
    · rwa [if_pos ‹_›]
    · rw [if_neg ‹_›]
      split at hb
      · rw [if_pos ‹_›]
        by_cases hhome : t.homePath i = path
        · obtain ⟨doc, hdoc, hget⟩ := Option.bind_eq_some_iff.mp hb
          rw [hhome, Function.update_self, ← hhome, hdoc]
          exact hget
        · rwa [Function.update_of_ne hhome]
      · cases hb

/-- The first bytes of a slice have been written. -/
theorem stored_slice (hapart : Apart t) (hcover : Covers t.files.entries pos len (slice :: rest))
    (hpad : t.files.padFileAt slice.fileIndex = false)
    (hsafe : safeRelativePath (t.homePath slice.fileIndex) = true)
    (hlen : data.length ≤ slice.size) : Stored t tree (t.written tree slice data) pos data := by
  rcases Nat.eq_zero_or_pos data.length with hzero | hpos
  · obtain rfl := List.eq_nil_of_length_eq_zero hzero
    refine .nothing fun q b hb => ?_
    rw [TorrentStorage.written, Doc.splice_nil]
    exact byteAt_touched t tree _ hb
  · -- a slice that ends with the data covers just that
    have hshort := hcover.shorten hpos hlen
    constructor
    · intro k hk
      rw [show t.written tree slice data = t.written tree { slice with size := data.length } data
        from rfl, byteAt_written_inside hshort hpad hsafe rfl hk,
        isPad_of_liesAt (hcover.head_liesAt (by omega)), if_neg (by simp [hpad])]
    · intro q b hq hb
      exact byteAt_written_outside hapart hshort hpad rfl hb hq

end Cover

/-! ## The loop -/

variable (G : Host) {t : TorrentStorage} {storage : Nat} {K : Keys} {d : Disk World}

/-- A slice that could not be written has been written up to some byte, or not at all. -/
theorem writeSlice_torn (reuse : Bool) (h : Coherent K d) (hapart : Apart t)
    (hK : ∀ file path, t.keys storage storage file path → K storage file path)
    {pos len : Nat} {slice : FileSlice} {rest : List FileSlice}
    (hcover : Covers t.files.entries pos len (slice :: rest))
    (hpad : t.files.padFileAt slice.fileIndex = false) {data : List Byte}
    (hlen : data.length = slice.size) :
    wp (writeSlice G.env reuse t storage slice data)
      (fun _ d' => Proceeds K d d' ∧ Stored t d.tree d'.tree pos data)
      (fun _ d' => ∃ n ≤ data.length, Stored t d.tree d'.tree pos (data.take n)) d := by
  rw [writeSlice, wp_bind]
  refine wp_mono (openFile_spec G reuse h fun hsafe => hK _ _ (keys_home hpad hsafe)) ?_ ?_
  · intro fd d₁ hopened
    obtain ⟨writable, hwritable, hrefers⟩ := hopened.refers
    rw [hwritable rfl] at hrefers
    have htree : d₁.tree = Function.update d.tree (t.homePath slice.fileIndex)
        (some ((d.tree (t.homePath slice.fileIndex)).getD [])) := hopened.tree
    have hdoc : d₁.tree (t.homePath slice.fileIndex) =
        some ((d.tree (t.homePath slice.fileIndex)).getD []) := by
      rw [htree, Function.update_self]
    have hputs : ∀ {n : Nat} {d₂ : Disk World}, d₁.Puts d₂ (t.homePath slice.fileIndex)
        (Doc.splice ((d.tree (t.homePath slice.fileIndex)).getD [])
          (t.homeOffset slice.fileIndex slice.offset + (slice.size - data.length))
          (data.take n)) → Stored t d.tree d₂.tree pos (data.take n) := by
      intro n d₂ hputs
      have hwritten : d₂.tree = t.written d.tree slice (data.take n) := by
        rw [hputs.tree, htree, Function.update_idem, TorrentStorage.written, hlen, Nat.sub_self,
          Nat.add_zero]
      rw [hwritten]
      refine stored_slice hapart hcover hpad hopened.safe ?_
      rw [List.length_take]
      omega
    refine wp_mono (writeWhole_spec G hopened.coherent.sound hrefers hdoc _ _ _ _ hlen.le) ?_ ?_
    · intro _ d₂ hwhole
      refine ⟨hopened.toProceeds.trans (proceeds_grows hopened.coherent hwhole.toGrows), ?_⟩
      have hall : data.take data.length = data := List.take_length
      rw [← hall]
      exact hputs (by rw [hall]; exact hwhole)
    · rintro _ d₂ ⟨⟨n, hn, hpart⟩, -⟩
      exact ⟨n, hn, hputs hpart⟩
  · intro e d₁ hfailed
    exact ⟨0, Nat.zero_le _, .nothing fun q b hb => by rw [hfailed.tree]; exact hb⟩

/-- **The slice loop of `write_block` stores a first part of the input.** -/
theorem writeSlices_torn (reuse : Bool) {d : Disk World} (h : Coherent K d) (hapart : Apart t)
    (hK : ∀ file path, t.keys storage storage file path → K storage file path)
    {slices : List FileSlice} {pos : Nat} {input : List Byte}
    (hcover : Covers t.files.entries pos input.length slices) :
    wp (writeSlices G.env reuse t storage slices input)
      (fun _ d' => Stored t d.tree d'.tree pos input)
      (fun _ d' => ∃ n ≤ input.length, Stored t d.tree d'.tree pos (input.take n)) d := by
  induction slices generalizing d pos input with
  | nil =>
    have hnil : input.length = 0 := hcover
    obtain rfl := List.eq_nil_of_length_eq_zero hnil
    exact Stored.nothing fun _ _ hb => hb
  | cons slice rest ih =>
    have hle : slice.size ≤ input.length := hcover.2.2.2.2.1
    have hrest : Covers t.files.entries (pos + slice.size) (input.drop slice.size).length rest := by
      rw [List.length_drop]
      exact hcover.2.2.2.2.2
    have htake : (input.take slice.size).length = slice.size := by
      rw [List.length_take]
      omega
    -- this slice is stored, then the rest is, or a first part of the rest
    have hcontinue : ∀ {d₁}, Coherent K d₁ →
        Stored t d.tree d₁.tree pos (input.take slice.size) →
        wp (writeSlices G.env reuse t storage rest (input.drop slice.size))
          (fun _ d' => Stored t d.tree d'.tree pos input)
          (fun _ d' => ∃ n ≤ input.length, Stored t d.tree d'.tree pos (input.take n)) d₁ := by
      intro d₁ hcoherent hstored
      refine wp_mono (ih hcoherent hrest) ?_ ?_
      · intro _ d₂ hmore
        have hall : Stored t d.tree d₂.tree pos
            (input.take slice.size ++ input.drop slice.size) :=
          hstored.append (by rw [htake]; exact hmore)
        rwa [List.take_append_drop] at hall
      · rintro _ d₂ ⟨n, hn, hmore⟩
        rw [List.length_drop] at hn
        refine ⟨slice.size + n, by omega, ?_⟩
        rw [List.take_add]
        exact hstored.append (by rw [htake]; exact hmore)
    rw [writeSlices, wp_ite]
    refine ⟨fun hpad => hcontinue h ⟨fun k hk => ?_, fun _ _ _ hb => hb⟩, fun hpad => ?_⟩
    · rw [htake] at hk
      have hlies := hcover.head_liesAt hk
      rw [byteAt_pad hlies hpad, isPad_of_liesAt hlies, if_pos hpad]
    · have hpad' : t.files.padFileAt slice.fileIndex = false := by simpa using hpad
      rw [wp_bind]
      refine wp_mono (writeSlice_torn G reuse h hapart hK hcover hpad' htake) ?_ ?_
      · rintro _ d₁ ⟨hproceeds, hstored⟩
        exact hcontinue hproceeds.coherent hstored
      · rintro _ d₁ ⟨n, hn, hstored⟩
        rw [htake] at hn
        refine ⟨n, by omega, ?_⟩
        rwa [List.take_take, Nat.min_eq_left hn] at hstored

/-- A write job has stored a first part of its input, all of it if it reports no error. -/
theorem writeJob_torn (reuse : Bool) (h : Coherent K d) (hapart : Apart t)
    (hK : ∀ file path, t.keys storage storage file path → K storage file path)
    {request : Request} (hrange : request.InRange t.files) {input : List Byte}
    (hinput : input.length = request.length) :
    let r := runJob G.env reuse storage (.write request input) { torrent := t, disk := d }
    ∃ n ≤ input.length, Stored t d.tree r.2.disk.tree (request.pos t.files) (input.take n) ∧
      (r.1 = .written none → n = input.length) := by
  have hcover := hrange.covers
  rw [← hinput] at hcover
  have hspec := writeSlices_torn G reuse h hapart hK hcover
  simp only [runJob, onDisk, zoom, writeBlock, ← hinput]
  rcases hrun : writeSlices G.env reuse t storage
    (t.files.mapBlock request.piece request.start input.length) input d with ⟨e | _, d'⟩
  · obtain ⟨n, hn, hstored⟩ := wp_error hspec hrun
    exact ⟨n, hn, hstored, fun hnone => by simp [unitError] at hnone⟩
  · have hstored := wp_ok hspec hrun
    refine ⟨input.length, le_rfl, ?_, fun _ => rfl⟩
    rw [List.take_length]
    exact hstored

end Saf
end Libtorrent4j
