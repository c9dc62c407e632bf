import Libtorrent4j.Saf.Descriptors

/-!
# Transfers

The loops that move bytes through a descriptor: `pread_all` and `pwrite_all` of
`flow_saf_disk_io.hpp`, generic in the reader and the writer; the loops inside `read_block`
and `write_block`, which treat a short count and the end of the file differently; and the
block-by-block copy that `copy_public_file` and `migrate_priority` share.

Each loop goes on while it transfers something or is interrupted, so the bytes left plus
the interruptions still to come go down at every turn.
-/

namespace Libtorrent4j
namespace Saf

open Lib Lib.Exec

/-! ## `pread_all` and `pwrite_all` -/

/-- The `reader` argument of `pread_all`: `call count offset` answers the bytes stored, or
    the `errno` of a failure. Only finitely many calls in a row are interrupted. -/
structure Reader (σ : Type) where
  call : Nat → Nat → σ → Except Nat (List Byte) × σ
  patience : σ → Nat
  call_le : ∀ count offset s, patience (call count offset s).2 ≤ patience s
  call_retry : ∀ count offset s, (call count offset s).1 = .error eintr →
    patience (call count offset s).2 < patience s

/-- The `writer` argument of `pwrite_all`: `call data offset` answers the count written. -/
structure Writer (σ : Type) where
  call : List Byte → Nat → σ → Except Nat Nat × σ
  patience : σ → Nat
  call_le : ∀ data offset s, patience (call data offset s).2 ≤ patience s
  call_retry : ∀ data offset s, (call data offset s).1 = .error eintr →
    patience (call data offset s).2 < patience s

section All

variable {σ : Type}

/-- `pread_all` from the moment `buffer` holds what has been transferred. -/
def preadLoop (reader : Reader σ) (size offset : Nat) (buffer : List Byte) (s : σ) :
    (Int × List Byte) × σ :=
  if buffer.length < size then
    match _h : reader.call (size - buffer.length) (offset + buffer.length) s with
    | (.error errno, s') =>
        if errno = eintr then preadLoop reader size offset buffer s'
        else ((-((if errno = 0 then eio else errno : Nat) : Int), buffer), s')
    | (.ok bytes, s') =>
        if bytes.length = 0 ∨ size - buffer.length < bytes.length then ((-(eio : Int), buffer), s')
        else preadLoop reader size offset (buffer ++ bytes) s'
  else ((buffer.length, buffer), s)
termination_by (size - buffer.length) + reader.patience s
decreasing_by
  · rename_i herr
    have := reader.call_retry (size - buffer.length) (offset + buffer.length) s (by rw [_h, herr])
    rw [_h] at this
    dsimp only at this
    omega
  · rename_i hne
    have := reader.call_le (size - buffer.length) (offset + buffer.length) s
    rw [_h] at this
    simp only [List.length_append]
    dsimp only at this
    omega

/-- The result is the size or a negative `errno`; the bytes are what the buffer then holds. -/
def preadAll (reader : Reader σ) (size offset : Nat) (s : σ) : (Int × List Byte) × σ :=
  preadLoop reader size offset [] s

def pwriteLoop (writer : Writer σ) (data : List Byte) (offset transferred : Nat) (s : σ) :
    Int × σ :=
  if transferred < data.length then
    match _h : writer.call (data.drop transferred) (offset + transferred) s with
    | (.error errno, s') =>
        if errno = eintr then pwriteLoop writer data offset transferred s'
        else (-((if errno = 0 then eio else errno : Nat) : Int), s')
    | (.ok count, s') =>
        if count = 0 ∨ data.length - transferred < count then (-(eio : Int), s')
        else pwriteLoop writer data offset (transferred + count) s'
  else (transferred, s)
termination_by (data.length - transferred) + writer.patience s
decreasing_by
  · rename_i herr
    have := writer.call_retry (data.drop transferred) (offset + transferred) s (by rw [_h, herr])
    rw [_h] at this
    dsimp only at this
    omega
  · rename_i hne
    have := writer.call_le (data.drop transferred) (offset + transferred) s
    rw [_h] at this
    dsimp only at this
    omega

def pwriteAll (writer : Writer σ) (data : List Byte) (offset : Nat) (s : σ) : Int × σ :=
  pwriteLoop writer data offset 0 s

end All

/-! ## The system calls as readers and writers -/

variable {W ε : Type} (E : Env W)

/-- `::pread` on a descriptor. -/
def diskReader (descriptor : Int) : Reader (Disk W) where
  call count offset d :=
    ((E.pread descriptor count offset d.world).1.mapError Errno.code,
      d.note (E.pread descriptor count offset d.world).2 (.pread descriptor))
  patience d := E.patience d.world
  call_le count offset d := E.pread_le descriptor count offset d.world
  call_retry count offset d h := by
    cases hans : (E.pread descriptor count offset d.world).1 with
    | ok bytes => simp [hans, Except.mapError] at h
    | error e =>
      refine E.pread_retry descriptor count offset d.world e hans ?_
      simpa [hans, Except.mapError] using h

/-- `::pwrite` on a descriptor. -/
def diskWriter (descriptor : Int) : Writer (Disk W) where
  call data offset d :=
    ((E.pwrite descriptor data offset d.world).1.mapError Errno.code,
      d.note (E.pwrite descriptor data offset d.world).2 (.pwrite descriptor))
  patience d := E.patience d.world
  call_le data offset d := E.pwrite_le descriptor data offset d.world
  call_retry data offset d h := by
    cases hans : (E.pwrite descriptor data offset d.world).1 with
    | ok count => simp [hans, Except.mapError] at h
    | error e =>
      refine E.pwrite_retry descriptor data offset d.world e hans ?_
      simpa [hans, Except.mapError] using h

/-! ## The loops of `read_block` and `write_block` -/

/-- `while (remaining > 0)` of `read_block`, for one slice; `out` is what the slice has
    delivered, and it is handed back with the error too. -/
def readLoop (descriptor : Int) (fileOffset size : Nat) (file : Int) (operation : Operation)
    (remaining : Nat) (out : List Byte) (d : Disk W) :
    Except (List Byte × StorageError) (List Byte) × Disk W :=
  if remaining = 0 then (.ok out, d)
  else
    match _h : E.pread descriptor remaining (fileOffset + (size - remaining)) d.world with
    | (.error e, w) =>
        if e.code = eintr then
          readLoop descriptor fileOffset size file operation remaining out
            (d.note w (.pread descriptor))
        else (.error (out, makeError (-e.code) file operation), d.note w (.pread descriptor))
    | (.ok bytes, w) =>
        if bytes.length = 0 then
          (.error (out, { ec := .eof, file := file, operation := operation }),
            d.note w (.pread descriptor))
        else
          readLoop descriptor fileOffset size file operation (remaining - bytes.length)
            (out ++ bytes) (d.note w (.pread descriptor))
termination_by remaining + E.patience d.world
decreasing_by
  · rename_i herr
    have := E.pread_retry descriptor remaining (fileOffset + (size - remaining)) d.world e
      (by rw [_h]) herr
    rw [_h] at this
    simp only [Disk.note_world]
    dsimp only at this
    omega
  · rename_i hne
    have := E.pread_le descriptor remaining (fileOffset + (size - remaining)) d.world
    rw [_h] at this
    simp only [Disk.note_world]
    dsimp only at this
    omega

/-- `while (remaining > 0)` of `write_block`, for one slice; `data` is what is left of it. -/
def writeLoop (descriptor : Int) (fileOffset size : Nat) (file : Int) (operation : Operation)
    (data : List Byte) (d : Disk W) : Except StorageError Unit × Disk W :=
  if data.length = 0 then (.ok (), d)
  else
    match _h : E.pwrite descriptor data (fileOffset + (size - data.length)) d.world with
    | (.error e, w) =>
        if e.code = eintr then
          writeLoop descriptor fileOffset size file operation data
            (d.note w (.pwrite descriptor))
        else (.error (makeError (-e.code) file operation), d.note w (.pwrite descriptor))
    | (.ok count, w) =>
        if count = 0 then
          (.error (makeError (-eio) file operation), d.note w (.pwrite descriptor))
        else
          writeLoop descriptor fileOffset size file operation (data.drop count)
            (d.note w (.pwrite descriptor))
termination_by data.length + E.patience d.world
decreasing_by
  · rename_i herr
    have := E.pwrite_retry descriptor data (fileOffset + (size - data.length)) d.world e
      (by rw [_h]) herr
    rw [_h] at this
    simp only [Disk.note_world]
    dsimp only at this
    omega
  · rename_i hne
    have := E.pwrite_le descriptor data (fileOffset + (size - data.length)) d.world
    rw [_h] at this
    simp only [Disk.note_world, List.length_drop]
    dsimp only at this
    omega

/-- The loop of `read_block` for a whole slice. -/
def readWhole (descriptor : Int) (fileOffset size : Nat) (file : Int) (operation : Operation) :
    Exec (Disk W) (List Byte × StorageError) (List Byte) :=
  fun d => readLoop E descriptor fileOffset size file operation size [] d

/-- The loop of `write_block` for a whole slice. -/
def writeWhole (descriptor : Int) (fileOffset size : Nat) (file : Int) (operation : Operation)
    (data : List Byte) : Exec (Disk W) StorageError Unit :=
  fun d => writeLoop E descriptor fileOffset size file operation data d

/-! ## The copying loop -/

def defaultBlockSize : Nat := 16384

/-- What the loop puts in its buffer: a block of the source at `sourceOffset + copied`, or
    zeros where there is no source. -/
def copyBlock (source : Option (Int × Nat)) (readError : Int → StorageError)
    (length copied : Nat) : Exec (Disk W) StorageError (List Byte) :=
  match source with
  | some (descriptor, sourceOffset) => do
      let (result, buffer) ←
        prim (preadAll (diskReader E descriptor) length (sourceOffset + copied))
      throwIf (result < 0) (readError result)
      ret buffer
  | none => ret (List.replicate length 0)

/-- `while (copied < size)` of `copy_public_file` and `migrate_priority`: each block is
    written at `destinationOffset + copied`. -/
def copyLoop (source : Option (Int × Nat)) (destination : Int) (destinationOffset size : Nat)
    (readError writeError : Int → StorageError) (copied : Nat) :
    Exec (Disk W) StorageError Unit :=
  if copied < size then do
    let length := min defaultBlockSize (size - copied)
    let buffer ← copyBlock E source readError length copied
    let result ← prim (pwriteAll (diskWriter E destination) buffer (destinationOffset + copied))
    throwIf (result < 0) (writeError result)
    copyLoop source destination destinationOffset size readError writeError (copied + length)
  else ret ()
termination_by size - copied
decreasing_by
  simp only [defaultBlockSize]
  omega

/-! ## What the calls of a loop keep, the loop keeps -/

section Keeps

variable {σ : Type}

theorem keeps_preadAll {I : σ → Prop} {reader : Reader σ}
    (h : ∀ count offset s, I s → I (reader.call count offset s).2) (size offset : Nat) {s : σ}
    (hs : I s) : I (preadAll reader size offset s).2 := by
  suffices key : ∀ buffer s, I s → I (preadLoop reader size offset buffer s).2 from key [] s hs
  intro buffer s hs
  fun_induction preadLoop reader size offset buffer s with
  | case1 buffer s hlt s' hcall ih | case4 buffer s hlt bytes s' hcall hsize ih =>
    refine ih ?_
    simpa [hcall] using h (size - buffer.length) (offset + buffer.length) s hs
  | case2 buffer s hlt errno s' hcall heintr | case3 buffer s hlt bytes s' hcall hsize =>
    simpa [hcall] using h (size - buffer.length) (offset + buffer.length) s hs
  | case5 buffer s hge => exact hs

theorem keeps_pwriteAll {I : σ → Prop} {writer : Writer σ}
    (h : ∀ data offset s, I s → I (writer.call data offset s).2) (data : List Byte)
    (offset : Nat) {s : σ} (hs : I s) : I (pwriteAll writer data offset s).2 := by
  suffices key : ∀ transferred s, I s → I (pwriteLoop writer data offset transferred s).2 from
    key 0 s hs
  intro transferred s hs
  fun_induction pwriteLoop writer data offset transferred s with
  | case1 transferred s hlt s' hcall ih | case4 transferred s hlt count s' hcall hsize ih =>
    refine ih ?_
    simpa [hcall] using h (data.drop transferred) (offset + transferred) s hs
  | case2 transferred s hlt errno s' hcall heintr | case3 transferred s hlt count s' hcall hsize =>
    simpa [hcall] using h (data.drop transferred) (offset + transferred) s hs
  | case5 transferred s hge => exact hs

variable {I : Disk W → Prop}

theorem keeps_readWhole {descriptor : Int}
    (h : ∀ w d, I d → I (d.note w (.pread descriptor))) (fileOffset size : Nat) (file : Int)
    (operation : Operation) : Keeps I (readWhole E descriptor fileOffset size file operation) := by
  suffices key : ∀ remaining out d, I d →
      I (readLoop E descriptor fileOffset size file operation remaining out d).2 from key size []
  intro remaining out d hd
  fun_induction readLoop E descriptor fileOffset size file operation remaining out d with
  | case1 out d => exact hd
  | case2 remaining out d hne e w hcall heintr ih
  | case5 remaining out d hne bytes w hcall hsize ih =>
    exact ih (h w d hd)
  | case3 remaining out d hne e w hcall heintr | case4 remaining out d hne bytes w hcall hsize =>
    exact h w d hd

theorem keeps_writeWhole {descriptor : Int}
    (h : ∀ w d, I d → I (d.note w (.pwrite descriptor))) (fileOffset size : Nat) (file : Int)
    (operation : Operation) (data : List Byte) :
    Keeps I (writeWhole E descriptor fileOffset size file operation data) := by
  suffices key : ∀ data d, I d →
      I (writeLoop E descriptor fileOffset size file operation data d).2 from key data
  intro data d hd
  fun_induction writeLoop E descriptor fileOffset size file operation data d with
  | case1 data d => exact hd
  | case2 data d hne e w hcall heintr ih | case5 data d hne count w hcall hsize ih =>
    exact ih (h w d hd)
  | case3 data d hne e w hcall heintr | case4 data d hne w hcall =>
    exact h w d hd

theorem keeps_copyLoop {source : Option (Int × Nat)} {destination : Int}
    (hread : ∀ from', source = some from' → ∀ w d, I d → I (d.note w (.pread from'.1)))
    (hwrite : ∀ w d, I d → I (d.note w (.pwrite destination)))
    (destinationOffset size : Nat) (readError writeError : Int → StorageError) (copied : Nat) :
    Keeps I (copyLoop E source destination destinationOffset size readError writeError copied) := by
  have hblock : ∀ length copied, Keeps I (copyBlock E source readError length copied) := by
    intro length copied
    cases source with
    | none => exact keeps_ret _
    | some from' =>
      refine keeps_bind (fun d hd => ?_) fun answer => keeps_throwIf_bind fun _ => keeps_ret _
      exact keeps_preadAll (fun _ _ d hd => hread from' rfl _ d hd) _ _ hd
  fun_induction copyLoop E source destination destinationOffset size readError writeError
      copied with
  | case1 copied hlt length ih =>
    refine keeps_bind (hblock length copied) fun buffer => keeps_bind (fun d hd => ?_)
      fun result => keeps_throwIf_bind fun _ => ih
    exact keeps_pwriteAll (fun _ _ d hd => hwrite _ d hd) buffer _ hd
  | case2 copied hge => exact keeps_ret ()

end Keeps

/-! ## Where the calls of two loops agree, the loops agree -/

section Agree

variable {σ τ : Type}

theorem agree_preadAll {S : σ → τ → Prop} {reader : Reader σ} {reader' : Reader τ}
    (h : ∀ count offset s t, S s t →
      (reader.call count offset s).1 = (reader'.call count offset t).1 ∧
        S (reader.call count offset s).2 (reader'.call count offset t).2)
    (size offset : Nat) :
    Agree S (prim (preadAll reader size offset) : Exec σ ε (Int × List Byte))
      (prim (preadAll reader' size offset)) := by
  suffices key : ∀ buffer s t, S s t →
      (preadLoop reader size offset buffer s).1 = (preadLoop reader' size offset buffer t).1 ∧
        S (preadLoop reader size offset buffer s).2 (preadLoop reader' size offset buffer t).2 from
    fun s t hs => key [] s t hs
  intro buffer s t hs
  fun_induction preadLoop reader size offset buffer s generalizing t with
  | case1 buffer s hlt s' hcall ih =>
    have hone := h (size - buffer.length) (offset + buffer.length) s t hs
    fun_cases preadLoop reader' size offset buffer t <;> grind
  | case2 buffer s hlt errno s' hcall heintr =>
    have hone := h (size - buffer.length) (offset + buffer.length) s t hs
    fun_cases preadLoop reader' size offset buffer t <;> grind
  | case3 buffer s hlt bytes s' hcall hsize =>
    have hone := h (size - buffer.length) (offset + buffer.length) s t hs
    fun_cases preadLoop reader' size offset buffer t <;> grind
  | case4 buffer s hlt bytes s' hcall hsize ih =>
    have hone := h (size - buffer.length) (offset + buffer.length) s t hs
    fun_cases preadLoop reader' size offset buffer t <;> grind
  | case5 buffer s hge => fun_cases preadLoop reader' size offset buffer t <;> grind

theorem agree_pwriteAll {S : σ → τ → Prop} {writer : Writer σ} {writer' : Writer τ}
    (h : ∀ data offset s t, S s t →
      (writer.call data offset s).1 = (writer'.call data offset t).1 ∧
        S (writer.call data offset s).2 (writer'.call data offset t).2)
    (data : List Byte) (offset : Nat) :
    Agree S (prim (pwriteAll writer data offset) : Exec σ ε Int)
      (prim (pwriteAll writer' data offset)) := by
  suffices key : ∀ transferred s t, S s t →
      (pwriteLoop writer data offset transferred s).1 =
          (pwriteLoop writer' data offset transferred t).1 ∧
        S (pwriteLoop writer data offset transferred s).2
          (pwriteLoop writer' data offset transferred t).2 from
    fun s t hs => key 0 s t hs
  intro transferred s t hs
  fun_induction pwriteLoop writer data offset transferred s generalizing t with
  | case1 transferred s hlt s' hcall ih =>
    have hone := h (data.drop transferred) (offset + transferred) s t hs
    fun_cases pwriteLoop writer' data offset transferred t <;> grind
  | case2 transferred s hlt errno s' hcall heintr =>
    have hone := h (data.drop transferred) (offset + transferred) s t hs
    fun_cases pwriteLoop writer' data offset transferred t <;> grind
  | case3 transferred s hlt count s' hcall hsize =>
    have hone := h (data.drop transferred) (offset + transferred) s t hs
    fun_cases pwriteLoop writer' data offset transferred t <;> grind
  | case4 transferred s hlt count s' hcall hsize ih =>
    have hone := h (data.drop transferred) (offset + transferred) s t hs
    fun_cases pwriteLoop writer' data offset transferred t <;> grind
  | case5 transferred s hge => fun_cases pwriteLoop writer' data offset transferred t <;> grind

variable {S : Disk W → Disk W → Prop} {fd fd' : Int}

theorem agree_readWhole
    (h : ∀ count offset d d', S d d' →
      (E.pread fd count offset d.world).1 = (E.pread fd' count offset d'.world).1 ∧
        S (d.note (E.pread fd count offset d.world).2 (.pread fd))
          (d'.note (E.pread fd' count offset d'.world).2 (.pread fd')))
    (fileOffset size : Nat) (file : Int) (operation : Operation) :
    Agree S (readWhole E fd fileOffset size file operation)
      (readWhole E fd' fileOffset size file operation) := by
  rw [agree_iff]
  suffices key : ∀ remaining out d d', S d d' →
      (readLoop E fd fileOffset size file operation remaining out d).1 =
          (readLoop E fd' fileOffset size file operation remaining out d').1 ∧
        S (readLoop E fd fileOffset size file operation remaining out d).2
          (readLoop E fd' fileOffset size file operation remaining out d').2 from key size []
  intro remaining out d d' hd
  fun_induction readLoop E fd fileOffset size file operation remaining out d generalizing d' with
  | case1 out d => fun_cases readLoop E fd' fileOffset size file operation 0 out d' <;> grind
  | case2 remaining out d hne e w hcall heintr ih =>
    have hone := h remaining (fileOffset + (size - remaining)) d d' hd
    fun_cases readLoop E fd' fileOffset size file operation remaining out d' <;> grind
  | case3 remaining out d hne e w hcall heintr =>
    have hone := h remaining (fileOffset + (size - remaining)) d d' hd
    fun_cases readLoop E fd' fileOffset size file operation remaining out d' <;> grind
  | case4 remaining out d hne bytes w hcall hempty =>
    have hone := h remaining (fileOffset + (size - remaining)) d d' hd
    fun_cases readLoop E fd' fileOffset size file operation remaining out d' <;> grind
  | case5 remaining out d hne bytes w hcall hsize ih =>
    have hone := h remaining (fileOffset + (size - remaining)) d d' hd
    fun_cases readLoop E fd' fileOffset size file operation remaining out d' <;> grind

theorem agree_writeWhole
    (h : ∀ data offset d d', S d d' →
      (E.pwrite fd data offset d.world).1 = (E.pwrite fd' data offset d'.world).1 ∧
        S (d.note (E.pwrite fd data offset d.world).2 (.pwrite fd))
          (d'.note (E.pwrite fd' data offset d'.world).2 (.pwrite fd')))
    (fileOffset size : Nat) (file : Int) (operation : Operation) (data : List Byte) :
    Agree S (writeWhole E fd fileOffset size file operation data)
      (writeWhole E fd' fileOffset size file operation data) := by
  rw [agree_iff]
  suffices key : ∀ data d d', S d d' →
      (writeLoop E fd fileOffset size file operation data d).1 =
          (writeLoop E fd' fileOffset size file operation data d').1 ∧
        S (writeLoop E fd fileOffset size file operation data d).2
          (writeLoop E fd' fileOffset size file operation data d').2 from key data
  intro data d d' hd
  fun_induction writeLoop E fd fileOffset size file operation data d generalizing d' with
  | case1 data d hempty =>
      fun_cases writeLoop E fd' fileOffset size file operation data d' <;> grind
  | case2 data d hne e w hcall heintr ih =>
    have hone := h data (fileOffset + (size - data.length)) d d' hd
    fun_cases writeLoop E fd' fileOffset size file operation data d' <;> grind
  | case3 data d hne e w hcall heintr =>
    have hone := h data (fileOffset + (size - data.length)) d d' hd
    fun_cases writeLoop E fd' fileOffset size file operation data d' <;> grind
  | case4 data d hne w hcall =>
    have hone := h data (fileOffset + (size - data.length)) d d' hd
    fun_cases writeLoop E fd' fileOffset size file operation data d' <;> grind
  | case5 data d hne count w hcall hsize ih =>
    have hone := h data (fileOffset + (size - data.length)) d d' hd
    fun_cases writeLoop E fd' fileOffset size file operation data d' <;> grind

end Agree

end Saf
end Libtorrent4j
