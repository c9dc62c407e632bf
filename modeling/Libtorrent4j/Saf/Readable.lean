import Libtorrent4j.Saf.ByteArray

/-!
# What `read_block` can read

`Reads` is the observer's view of the byte array: a byte is readable at a position if some
read job that covers the position delivers it. On a coherent cache it is the array itself, so
two states with the same array cannot be told apart by reading.
-/

namespace Libtorrent4j
namespace Saf

open Lib Lib.Exec TorrentStorage

/-- The disk with other failures ahead of it. -/
def Disk.scripted (d : Disk World) (bridge : List BridgeFault) (io : List IoFault) : Disk World :=
  { d with world := { d.world with bridge, io } }

@[simp] theorem Disk.scripted_tree (d : Disk World) (bridge : List BridgeFault)
    (io : List IoFault) : (d.scripted bridge io).tree = d.tree := rfl

theorem Coherent.scripted {K : Keys} {d : Disk World} (h : Coherent K d)
    (bridge : List BridgeFault) (io : List IoFault) : Coherent K (d.scripted bridge io) :=
  ⟨⟨h.sound.inj, h.sound.bound⟩, h.key, h.safe, h.current, h.nodup, h.hits⟩

/-- A read with these failures ahead of it delivers the byte `b` of position `q`. -/
def Reads (G : Host) (storage : Nat) (bridge : List BridgeFault) (io : List IoFault)
    (t : TorrentStorage) (d : Disk World) (q : Nat) (b : Byte) : Prop :=
  ∃ (request : Request) (out : List Byte) (error : Option StorageError),
    request.InRange t.files ∧ request.pos t.files ≤ q ∧ out[q - request.pos t.files]? = some b ∧
    (runJob G.env true storage (.read request)
      { torrent := t, disk := d.scripted bridge io }).1 = .read out error

variable {G : Host} {K : Keys} {t : TorrentStorage} {storage : Nat} {d : Disk World} {q : Nat}
  {b : Byte}

/-- What is read is the array's byte. -/
theorem Reads.byteAt {bridge : List BridgeFault} {io : List IoFault}
    (h : Reads G storage bridge io t d q b) (hc : Coherent K d)
    (hK : ∀ file path, t.keys storage storage file path → K storage file path) :
    t.byteAt d.tree q = some b := by
  obtain ⟨request, out, error, hrange, hpos, hb, hread⟩ := h
  obtain ⟨-, -, hdelivers, -⟩ := readJob_spec G true (hc.scripted bridge io) hK hrange
  obtain ⟨-, hholds, -⟩ := hdelivers out error hread
  have hlt : q - request.pos t.files < out.length := (List.getElem?_eq_some_iff.mp hb).1
  have := hholds _ hlt
  rw [hb, Nat.add_sub_cancel' hpos] at this
  exact this

theorem lt_of_byteAt {tree : Tree} (h : t.byteAt tree q = some b) :
    q < totalSize t.files.entries := by
  rw [← locate_isSome_iff]
  unfold TorrentStorage.byteAt at h
  cases hat : locate t.files.entries q with
  | none => rw [hat] at h; cases h
  | some at' => rfl

/-- A byte of the array can be read when nothing fails. -/
theorem reads_of_byteAt (h : t.byteAt d.tree q = some b) (hc : Coherent K d)
    (hK : ∀ file path, t.keys storage storage file path → K storage file path) :
    Reads G storage [] [] t d q b := by
  have hlt := lt_of_byteAt h
  let request : Request := { piece := 0, start := q, length := 1 }
  have hpos : request.pos t.files = q := by simp [request, Request.pos]
  have hrange : request.InRange t.files := by
    rw [Request.InRange, hpos]
    exact hlt
  obtain ⟨-, -, hdelivers, hsucceeds⟩ := readJob_spec G true (hc.scripted [] []) hK hrange
  obtain ⟨out, hread⟩ := hsucceeds (by simp [World.Willing, Disk.scripted])
    (by simp [World.Smooth, Disk.scripted]) fun k hk => by
      obtain rfl : k = 0 := Nat.lt_one_iff.mp hk
      rw [hpos, Nat.add_zero, Disk.scripted_tree, h]
      simp
  obtain ⟨-, hholds, hlen⟩ := hdelivers out none hread
  have hone : out.length = 1 := hlen rfl
  refine ⟨request, out, none, hrange, hpos.le, ?_, hread⟩
  rw [hpos, Nat.sub_self, ← hholds 0 (by omega), hpos, Nat.add_zero, Disk.scripted_tree, h]

/-- **Reading is reading the array.** -/
theorem reads_iff (hc : Coherent K d)
    (hK : ∀ file path, t.keys storage storage file path → K storage file path) :
    Reads G storage [] [] t d q b ↔ t.byteAt d.tree q = some b :=
  ⟨fun h => h.byteAt hc hK, fun h => reads_of_byteAt h hc hK⟩

end Saf
end Libtorrent4j
