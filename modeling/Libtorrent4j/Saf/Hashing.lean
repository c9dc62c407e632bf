import Libtorrent4j.Saf.ByteArray

/-!
# Hashing agrees with reading

`async_hash` reads a piece in one go, as far as the longer of its two sizes; `async_hash2`
reads one block of it; a peer's request reads any part. All three read the same array, and
**that is the whole argument**: a range of the array has only one content, so the bytes hashed
by one call are a slice of the bytes hashed by another.

`readBlock_exact` is the form in which the array is used here: on a healthy provider a request
whose bytes are known delivers them.
-/

namespace Libtorrent4j
namespace Saf

open Lib Lib.Exec TorrentStorage

/-! ## One range, one content -/

section Holds

variable {t : TorrentStorage} {tree : Tree} {pos : Nat} {bytes bytes' : List Byte}

theorem TorrentStorage.Holds.unique (h : t.Holds tree pos bytes) (h' : t.Holds tree pos bytes')
    (hlen : bytes.length = bytes'.length) : bytes = bytes' := by
  apply List.ext_getElem?
  intro k
  by_cases hk : k < bytes.length
  · rw [← h k hk, h' k (hlen ▸ hk)]
  · rw [List.getElem?_eq_none (by omega), List.getElem?_eq_none (by omega)]

theorem TorrentStorage.Holds.slice (h : t.Holds tree pos bytes) (start len : Nat) :
    t.Holds tree (pos + start) (Doc.slice bytes start len) := by
  intro k hk
  rw [Doc.length_slice] at hk
  rw [Nat.add_assoc, h (start + k) (by omega), Doc.getElem?_slice, if_pos (by omega)]

theorem TorrentStorage.Holds.take (h : t.Holds tree pos bytes) (len : Nat) :
    t.Holds tree pos (bytes.take len) := by
  have := h.slice 0 len
  rwa [Nat.add_zero, Doc.slice, List.drop_zero] at this

end Holds

variable (G : Host) {K : Keys} {t : TorrentStorage} {storage : Nat} {d : Disk World}

/-- What is known to be in a range is what a request for it delivers. -/
theorem readBlock_exact (reuse : Bool) (h : Coherent K d)
    (hK : ∀ file path, t.keys storage storage file path → K storage file path)
    {request : Request} (hrange : request.InRange t.files) {bytes : List Byte}
    (hlen : bytes.length = request.length) (hholds : t.Holds d.tree (request.pos t.files) bytes)
    (hwilling : d.world.Willing) (hsmooth : d.world.Smooth) :
    (readBlock G.env reuse t storage request d).1 = .ok bytes := by
  refine wp_answer (wp_mono (readSlices_spec G reuse h hK hrange.covers []) ?_ ?_)
  · rintro out d' ⟨-, out', rfl, hout, hread⟩
    exact hread.unique hholds (hout.trans hlen.symm)
  · rintro e d' ⟨-, -, hmissing⟩
    obtain ⟨k, hk, hnone⟩ := hmissing hwilling hsmooth
    rw [hholds k (hlen ▸ hk), List.getElem?_eq_none_iff] at hnone
    exact absurd hk (by omega)

theorem readJob_exact (reuse : Bool) (h : Coherent K d)
    (hK : ∀ file path, t.keys storage storage file path → K storage file path)
    {request : Request} (hrange : request.InRange t.files) {bytes : List Byte}
    (hlen : bytes.length = request.length) (hholds : t.Holds d.tree (request.pos t.files) bytes)
    (hwilling : d.world.Willing) (hsmooth : d.world.Smooth) :
    (runJob G.env reuse storage (.read request) { torrent := t, disk := d }).1 =
      .read bytes none := by
  have hread := readBlock_exact G reuse h hK hrange hlen hholds hwilling hsmooth
  simp only [runJob, onDisk, zoom, hread]
  rw [readReport, if_neg (by omega)]

/-! ## What is hashed -/

/-- The bytes of the piece from the start on. -/
def pieceStart (t : TorrentStorage) (piece : Nat) : Nat := piece * t.files.pieceLength

/-- The read of `async_hash` is one read of the array, also when nothing is asked for. -/
theorem readForHash_spec (reuse : Bool) (h : Coherent K d)
    (hK : ∀ file path, t.keys storage storage file path → K storage file path)
    {piece length : Nat} (hrange : pieceStart t piece + length ≤ totalSize t.files.entries) :
    wp (readForHash G.env reuse t storage { piece, start := 0, length })
      (fun out d' => Undisturbed K d d' ∧ out.length = length ∧
        t.Holds d.tree (pieceStart t piece) out)
      (fun _ d' => Undisturbed K d d') d := by
  rw [readForHash, wp_ite]
  refine ⟨fun _ => ?_, fun hzero => ⟨.refl h, ?_, fun k hk => absurd hk (Nat.not_lt_zero k)⟩⟩
  · have hin : Request.InRange t.files { piece, start := 0, length } := hrange
    rw [wp_mapError]
    refine wp_mono (readSlices_spec G reuse h hK hin.covers []) ?_ ?_
    · rintro out d' ⟨hund, bytes, rfl, hlen, hholds⟩
      exact ⟨hund, hlen, hholds⟩
    · rintro e d' ⟨hund, -, -⟩
      exact hund
  · exact (Nat.eq_zero_of_not_pos hzero).symm

/-- The blocks of the first `size` bytes, as `async_hash` cuts them. -/
def blockAt (bytes : List Byte) (size block : Nat) : List Byte :=
  Doc.slice bytes (block * defaultBlockSize)
    (min defaultBlockSize (size - block * defaultBlockSize))

/-- Both hashes are hashes of one content of the piece. -/
theorem asyncHash_spec (reuse : Bool) (h : Coherent K d)
    (hK : ∀ file path, t.keys storage storage file path → K storage file path)
    {piece room : Nat} (hpiece : piece < t.files.numPieces)
    (hsize2 : pieceStart t piece + t.files.pieceSize2 piece ≤ totalSize t.files.entries)
    (hroom : 0 < room) :
    wp (asyncHash G.env reuse t storage piece true room)
      (fun answer d' => Undisturbed K d d' ∧ t.files.blocksInPiece2 piece ≤ room ∧
        ∃ bytes, bytes.length = max (t.files.pieceSize piece) (t.files.pieceSize2 piece) ∧
          t.Holds d.tree (pieceStart t piece) bytes ∧
          answer = (G.env.hasher (bytes.take (t.files.pieceSize piece)),
            (List.range (t.files.blocksInPiece2 piece)).map fun block =>
              G.env.hasher256 (blockAt bytes (t.files.pieceSize2 piece) block)))
      (fun _ d' => Undisturbed K d d') d := by
  have hsize := t.files.pieceSize_le piece hpiece
  have hv2 : decide (0 < room) = true := decide_eq_true hroom
  rw [asyncHash]
  simp only [hv2, if_true, wp_bind]
  refine wp_mono (readForHash_spec G reuse h hK ?_) ?_ fun _ _ hund => hund
  · rw [pieceStart] at *
    omega
  · rintro out d' ⟨hund, hlen, hholds⟩
    rw [wp_throwIf]
    refine ⟨fun _ => hund, fun hfits => ⟨hund, by simpa [hroom] using hfits, out, hlen, hholds, ?_⟩⟩
    rw [← hlen, Doc.resize_length]
    rfl

/-! ## The agreement -/

/-- Whatever the surroundings do, a failed hash has written nothing and answers zeros. -/
theorem hash_failed {W : Type} {E : Env W} {reuse : Bool} {s : Sys W} {piece piece' room : Nat}
    {v1 : Bool} {result : List Byte} {blockHashes : List (List Byte)} {error : StorageError}
    (h : (runJob E reuse storage (.hash piece v1 room) s).1 =
      .hashed piece' result blockHashes (some error)) : result = zeroSha1 ∧ blockHashes = [] := by
  simp only [runJob] at h
  generalize (onDisk (asyncHash E reuse s.torrent storage piece v1 room) s).1 = outcome at h
  cases outcome with
  | ok answer => simp [hashReport] at h
  | error e =>
    simp only [hashReport, Report.hashed.injEq] at h
    exact ⟨h.2.1.symm, h.2.2.1.symm⟩

theorem block_in_piece {size block : Nat}
    (hblock : block < (size + (defaultBlockSize - 1)) / defaultBlockSize) :
    block * defaultBlockSize < size := by
  have := (Nat.lt_div_iff_mul_lt (by decide)).mp hblock
  simp only [defaultBlockSize] at *
  omega

/-- A block asked for by itself hashes to the same value. -/
theorem hash2Job_spec (reuse : Bool) (h : Coherent K d)
    (hK : ∀ file path, t.keys storage storage file path → K storage file path)
    {piece block : Nat}
    (hsize2 : pieceStart t piece + t.files.pieceSize2 piece ≤ totalSize t.files.entries)
    (hblock : block * defaultBlockSize < t.files.pieceSize2 piece) {bytes : List Byte}
    (hlen : t.files.pieceSize2 piece ≤ bytes.length)
    (hholds : t.Holds d.tree (pieceStart t piece) bytes)
    (hwilling : d.world.Willing) (hsmooth : d.world.Smooth) :
    (runJob G.env reuse storage (.hash2 piece (block * defaultBlockSize))
      { torrent := t, disk := d }).1 =
      .hashed2 piece (G.env.hasher256 (blockAt bytes (t.files.pieceSize2 piece) block)) none := by
  have hpos : 0 < defaultBlockSize := by decide
  have hslice : (blockAt bytes (t.files.pieceSize2 piece) block).length =
      min defaultBlockSize (t.files.pieceSize2 piece - block * defaultBlockSize) :=
    Doc.length_slice_of_le (by omega)
  let length := min defaultBlockSize (t.files.pieceSize2 piece - block * defaultBlockSize)
  let request : Request := { piece, start := block * defaultBlockSize, length }
  have hrange : request.InRange t.files := by
    simp only [request, length, Request.InRange, Request.pos]
    rw [pieceStart] at hsize2
    omega
  have hread := readBlock_exact G reuse h hK hrange hslice (hholds.slice _ _) hwilling hsmooth
  have hhash : (asyncHash2 G.env reuse t storage piece (block * defaultBlockSize) d).1 =
      .ok (G.env.hasher256 (blockAt bytes (t.files.pieceSize2 piece) block)) := by
    refine wp_answer ?_
    rw [asyncHash2, wp_bind, wp_throwIf]
    refine ⟨fun hzero => absurd hzero (by omega), fun _ => ?_⟩
    rw [wp_bind, wp_mapError]
    refine wp_of (fun out d' hout => ?_) fun e d' herr => ?_
    · rw [hout] at hread
      obtain rfl := Except.ok.inj hread
      rw [wp_ret, ← hslice, Doc.resize_length]
    · rw [herr] at hread
      cases hread
  simp only [runJob, onDisk, zoom, hhash]
  rfl

/-- **Hashing agrees with reading and with itself.** When `async_hash` succeeds, its v1 result is
    the hash of the piece as reads return it, and each entry of `block_hashes` is what
    `async_hash2` answers for that block, now or in any later state with the same documents. When
    it fails, nothing has been written. -/
theorem hash_agrees (reuse : Bool) (h : Coherent K d)
    (hK : ∀ file path, t.keys storage storage file path → K storage file path)
    {piece room : Nat} (hpiece : piece < t.files.numPieces)
    (hsize2 : piece * t.files.pieceLength + t.files.pieceSize2 piece ≤ totalSize t.files.entries)
    (hblocks : t.files.blocksInPiece2 piece =
      (t.files.pieceSize2 piece + (defaultBlockSize - 1)) / defaultBlockSize)
    (hroom : 0 < room) :
    let r := runJob G.env reuse storage (.hash piece true room) { torrent := t, disk := d }
    Undisturbed K d r.2.disk ∧
      (∀ result blockHashes, r.1 = .hashed piece result blockHashes none →
        ∃ bytes, bytes.length = t.files.pieceSize piece ∧ result = G.env.hasher bytes ∧
          blockHashes.length = t.files.blocksInPiece2 piece ∧ blockHashes.length ≤ room ∧
          ∀ d', Coherent K d' → d'.tree = d.tree → d'.world.Willing → d'.world.Smooth →
            (∀ start length, start + length ≤ t.files.pieceSize piece →
              (runJob G.env reuse storage (.read { piece, start, length })
                { torrent := t, disk := d' }).1 = .read (Doc.slice bytes start length) none) ∧
            ∀ block (hblock : block < blockHashes.length),
              (runJob G.env reuse storage (.hash2 piece (block * defaultBlockSize))
                { torrent := t, disk := d' }).1 = .hashed2 piece blockHashes[block] none) ∧
      ∀ {W : Type} (E : Env W) (s : Sys W) (v1 : Bool)
        (room' piece' : Nat) result blockHashes error,
        (runJob E reuse storage (.hash piece v1 room') s).1 =
          .hashed piece' result blockHashes (some error) →
            result = zeroSha1 ∧ blockHashes = [] := by
  have hspec := asyncHash_spec G reuse h hK hpiece hsize2 hroom
  have hsize := t.files.pieceSize_le piece hpiece
  refine ⟨?_, fun result blockHashes hreport => ?_, fun E s v1 room' piece' _ _ _ => hash_failed⟩
  · exact wp_state.mp (wp_mono hspec (fun _ _ hok => hok.1) fun _ _ herr => herr)
  cases houtcome : (asyncHash G.env reuse t storage piece true room d).1 with
  | error e => simp [runJob, onDisk, zoom, houtcome, hashReport] at hreport
  | ok answer =>
    obtain ⟨-, hfits, bytes, hlen, hholds, rfl⟩ := wp_ok hspec (Prod.ext houtcome rfl)
    simp only [runJob, onDisk, zoom, houtcome, hashReport, Report.hashed.injEq] at hreport
    obtain ⟨-, rfl, rfl, -⟩ := hreport
    -- what is read is as long as the longer of the two sizes; this hash is over the first of them
    refine ⟨bytes.take (t.files.pieceSize piece), by simp [hlen], rfl, by simp,
      by simpa using hfits,
      fun d' hc htree hwilling hsmooth => ⟨fun start length hin => ?_, fun block hblock => ?_⟩⟩
    · have hpart := (hholds.take (t.files.pieceSize piece)).slice start length
      rw [← htree] at hpart
      refine readJob_exact G reuse hc hK ?_ (Doc.length_slice_of_le ?_) hpart hwilling hsmooth
      · simp only [Request.InRange, Request.pos]
        omega
      · simp only [List.length_take]
        omega
    · simp only [List.length_map, List.length_range] at hblock
      rw [List.getElem_map, List.getElem_range]
      rw [← htree] at hholds
      refine hash2Job_spec G reuse hc hK hsize2 (block_in_piece ?_) (by omega) hholds hwilling
        hsmooth
      exact hblocks ▸ hblock

namespace Hybrid

/-- The first file ends inside the first piece, so its two sizes differ; the second file is
    skipped. -/
def params : StorageParams where
  files := { FileStorage.ofEntries [{ size := 5, pad := false }, { size := 6, pad := false }] 8 with
    pieceSize2 := fun piece => if piece = 0 then 5 else 3 }
  filePath i := str (if i = 0 then "a" else "b")
  path := flowSessionRoot
  priorities := [4, 0]
  infoHash := List.replicate 20 171

def torrent : TorrentStorage := build params []

def disk : Disk World :=
  { world := World.holding [(str "a", [1, 2, 3, 4, 5]),
      (torrent.partPath, [0, 0, 0, 0, 0, 6, 7, 8])] }

def host : Host := ⟨.next, id, List.reverse⟩

theorem coherent_disk : Coherent (fun _ _ _ => True) disk :=
  coherent_fresh (World.sound_holding _) _

/-- Eight bytes are hashed for v1 and five for v2. -/
theorem hash_agrees_hybrid :
    ∃ bytes, bytes.length = 8 ∧
      (runJob host.env true 0 (.read { piece := 0, start := 4, length := 3 })
        { torrent := torrent, disk := disk }).1 = .read (Doc.slice bytes 4 3) none ∧
      (runJob host.env true 0 (.hash2 0 0) { torrent := torrent, disk := disk }).1 =
        .hashed2 0 [5, 4, 3, 2, 1] none := by
  have hhash : (runJob host.env true 0 (.hash 0 true 2) { torrent := torrent, disk := disk }).1 =
      .hashed 0 [1, 2, 3, 4, 5, 6, 7, 8] [[5, 4, 3, 2, 1]] none := by decide +kernel
  have hpiece : 0 < torrent.files.numPieces := by decide +kernel
  obtain ⟨-, hok, -⟩ := hash_agrees host true coherent_disk (fun _ _ _ => trivial) hpiece
    (by decide +kernel) (by decide +kernel) Nat.two_pos
  obtain ⟨bytes, hlen, -, -, -, hlater⟩ := hok _ _ hhash
  obtain ⟨hreads, hblocks⟩ := hlater disk coherent_disk rfl
    (by simp [World.Willing, disk, World.holding])
    (by simp [World.Smooth, disk, World.holding])
  refine ⟨bytes, hlen, hreads 4 3 (by decide +kernel), ?_⟩
  exact hblocks 0 (by decide)

end Hybrid

end Saf
end Libtorrent4j
