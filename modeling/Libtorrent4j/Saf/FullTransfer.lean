import Libtorrent4j.Lib.Fill
import Libtorrent4j.Saf.Transfer

/-!
# Full transfers, call by call

`pread_all` and `pwrite_all` as the compiler sees them: a reader or a writer is called with a place
in the buffer, a size and an offset in the file, returns a signed count and leaves an `errno`.
Nothing is known of it but that it is not interrupted for ever. The two functions are one loop,
and what it calls is **exactly the rest of the transfer, each time**.

`Transfer` has the same loops over lists of bytes, which is what the rest of the backend is
written in. `preadAll_eq_raw` and `pwriteAll_eq_raw` say that they are these.
-/

namespace Libtorrent4j
namespace Saf

open Lib Lib.Fill

/-- What a call returns, and the `errno` it leaves. -/
structure PortAnswer where
  result : Int
  errno : Nat
deriving DecidableEq, Repr

/-- The `reader` or the `writer`: `call position count offset`, the position being that in the
    buffer. What it does to the buffer and to the file is a change of the state. -/
structure Port (σ : Type) where
  call : Nat → Nat → Int → σ → PortAnswer × σ
  patience : σ → Nat
  call_le : ∀ position count offset s, patience (call position count offset s).2 ≤ patience s
  call_retry : ∀ position count offset s, (call position count offset s).1.result < 0 →
    (call position count offset s).1.errno = eintr →
    patience (call position count offset s).2 < patience s

namespace Raw

/-- The body of the `while` loop, after the call. -/
def turn (count : Nat) (answer : PortAnswer) : Verdict Int :=
  if answer.result < 0 ∧ answer.errno = eintr then .again
  else if answer.result < 0 then
    .stop (-((if answer.errno = 0 then eio else answer.errno : Nat) : Int))
  else if answer.result = 0 ∨ count < answer.result.toNat then .stop (-(eio : Int))
  else .took answer.result.toNat

end Raw

/-- What the loop adds to the count on an answer. -/
def PortAnswer.accepted (count : Nat) (answer : PortAnswer) : Nat :=
  if answer.result ≤ count then answer.result.toNat else 0

namespace Raw

/-- Only `EINTR` makes the loop ask again. -/
theorem turn_again {count : Nat} {answer : PortAnswer} (h : turn count answer = .again) :
    answer.result < 0 ∧ answer.errno = eintr := by
  unfold turn at h
  split at h
  · assumption
  · split at h
    · simp at h
    · split at h <;> simp at h

/-- A positive count is believed only up to what was asked for. -/
theorem turn_took {count n : Nat} {answer : PortAnswer} (h : turn count answer = .took n) :
    0 < n ∧ n ≤ count ∧ answer.accepted count = n := by
  unfold turn at h
  split at h
  · simp at h
  · split at h
    · simp at h
    · split at h
      · simp at h
      · obtain rfl : answer.result.toNat = n := by simpa using h
        refine ⟨by omega, by omega, ?_⟩
        rw [PortAnswer.accepted, if_pos (by omega)]

section Loop

variable {σ : Type}

/-- The port at the place the loop has come to: `buffer + transferred`, `offset + transferred`. -/
def device (port : Port σ) (offset : Int) : Device σ PortAnswer Int where
  call transferred rest s := port.call transferred rest (offset + transferred) s
  judge := turn
  patience := port.patience
  call_le transferred rest s := port.call_le transferred rest (offset + transferred) s
  call_again transferred rest s h :=
    port.call_retry transferred rest (offset + transferred) s (turn_again h).1 (turn_again h).2
  took_pos _ _ _ _ h := (turn_took h).1
  took_le _ _ _ _ h := (turn_took h).2.1

/-- The value returned, by either `return` of the loop or by the last one. -/
def returned : Except Int Nat → Int
  | .ok transferred => transferred
  | .error result => result

/-- The body that the two functions share. -/
def transferAll (port : Port σ) (size : Nat) (offset : Int) (s : σ) : Int × σ :=
  (returned (fill (device port offset) size 0 s).1, (fill (device port offset) size 0 s).2)

/-- `pread_all` as the source has it. -/
def preadAll (reader : Port σ) (size : Nat) (offset : Int) (s : σ) : Int × σ :=
  transferAll reader size offset s

/-- `pwrite_all`, the same loop over a writer. -/
def pwriteAll (writer : Port σ) (size : Nat) (offset : Int) (s : σ) : Int × σ :=
  transferAll writer size offset s

end Loop

end Raw

/-! ## The calls -/

/-- One call, with its answer. -/
structure PortCall where
  position : Nat
  count : Nat
  offset : Int
  answer : PortAnswer
deriving DecidableEq, Repr

namespace PortCall

/-- How far this call has brought the transfer. -/
def accepted (call : PortCall) : Nat := call.answer.accepted call.count

/-- The call moves the byte `j` of the buffer, to or from its own place in the file. -/
def Moves (offset : Int) (j : Nat) (call : PortCall) : Prop :=
  call.position ≤ j ∧ j < call.position + call.accepted ∧
    call.offset + (j - call.position) = offset + j

/-- The call is answered by a failure, and what the transfer then returns. -/
inductive Fails (call : PortCall) : Int → Prop where
  | errno (negative : call.answer.result < 0) (other : call.answer.errno ≠ eintr)
      (nonzero : call.answer.errno ≠ 0) : Fails call (-call.answer.errno)
  | noErrno (negative : call.answer.result < 0) (zero : call.answer.errno = 0) :
      Fails call (-eio)
  | nothing (zero : call.answer.result = 0) : Fails call (-eio)
  | tooMuch (more : call.count < call.answer.result) : Fails call (-eio)

/-- What a failure makes the transfer return is an `errno` with its sign turned. -/
theorem Fails.negative {call : PortCall} {result : Int} (h : call.Fails result) : result < 0 := by
  have heio := eio_pos
  cases h <;> omega

end PortCall

/-- The bytes that the calls have moved. -/
def accepted (calls : List PortCall) : Nat := (calls.map PortCall.accepted).sum

@[simp] theorem accepted_concat (calls : List PortCall) (call : PortCall) :
    accepted (calls ++ [call]) = accepted calls + call.accepted := by
  simp [accepted]

/-- A port that keeps what it was called with. -/
def Port.recorded {σ : Type} (port : Port σ) : Port (σ × List PortCall) where
  call position count offset s :=
    ((port.call position count offset s.1).1,
      ((port.call position count offset s.1).2,
        s.2 ++ [⟨position, count, offset, (port.call position count offset s.1).1⟩]))
  patience s := port.patience s.1
  call_le position count offset s := port.call_le position count offset s.1
  call_retry position count offset s := port.call_retry position count offset s.1

/-- Each call is for the rest of the transfer, and there is one only while there is a rest. -/
def Placed (size : Nat) (offset : Int) (calls : List PortCall) : Prop :=
  ∀ before call after, calls = before ++ call :: after →
    call.position = accepted before ∧ call.count = size - accepted before ∧
      call.offset = offset + accepted before ∧ accepted before < size

/-- The next call is for the rest, so it lies where the ones before it have come to. -/
theorem placed_concat {size : Nat} {offset : Int} {calls : List PortCall}
    (h : Placed size offset calls) (hlt : accepted calls < size) (answer : PortAnswer) :
    Placed size offset (calls ++ [⟨accepted calls, size - accepted calls, offset + accepted calls,
      answer⟩]) :=
  forall_splits_concat.mpr ⟨h, rfl, rfl, rfl, hlt⟩

/-- Calls placed so move every byte they have counted, once. -/
theorem Placed.existsUnique_moves {size : Nat} {offset : Int} {calls : List PortCall}
    (h : Placed size offset calls) {j : Nat} (hj : j < accepted calls) :
    ∃! k : Nat, ∃ call : PortCall, calls[k]? = some call ∧ call.Moves offset j := by
  have hpiece : ∀ k, (k < (calls.map PortCall.accepted).length ∧
      ((calls.map PortCall.accepted).take k).sum ≤ j ∧
        j < ((calls.map PortCall.accepted).take (k + 1)).sum) ↔
      ∃ call : PortCall, calls[k]? = some call ∧ call.Moves offset j := by
    intro k
    constructor
    · rintro ⟨hk, hle, hlt⟩
      rw [List.length_map] at hk
      have hsplit : calls = calls.take k ++ calls[k] :: calls.drop (k + 1) := by
        rw [← List.drop_eq_getElem_cons hk, List.take_append_drop]
      obtain ⟨hpos, _, hoff, _⟩ := h _ _ _ hsplit
      rw [List.sum_take_succ _ _ (by simpa using hk)] at hlt
      simp only [← List.map_take, List.getElem_map] at hle hlt
      refine ⟨calls[k], List.getElem?_eq_getElem hk, ?_, ?_, ?_⟩
      · rw [hpos]
        exact hle
      · rw [hpos]
        exact hlt
      · rw [hpos, hoff]
        omega
    · rintro ⟨call, hk, hle, hlt, _⟩
      obtain ⟨hlen, rfl⟩ := List.getElem?_eq_some_iff.mp hk
      have hsplit : calls = calls.take k ++ calls[k] :: calls.drop (k + 1) := by
        rw [← List.drop_eq_getElem_cons hlen, List.take_append_drop]
      obtain ⟨hpos, _, _, _⟩ := h _ _ _ hsplit
      rw [hpos] at hle hlt
      rw [List.sum_take_succ _ _ (by simpa using hlen)]
      simp only [← List.map_take, List.getElem_map, List.length_map]
      exact ⟨hlen, hle, hlt⟩
  simpa only [hpiece] using existsUnique_piece (calls.map PortCall.accepted) hj

/-! ## What a transfer comes to -/

/-- None of the calls has failed. One that is interrupted has not. -/
def Unfailed (calls : List PortCall) : Prop := ∀ call ∈ calls, ∀ result, ¬ call.Fails result

theorem Unfailed.concat {calls : List PortCall} (h : Unfailed calls) {call : PortCall}
    (hcall : ∀ result, ¬ call.Fails result) : Unfailed (calls ++ [call]) := by
  intro other hother
  rcases List.mem_append.mp hother with hother | hother
  · exact h other hother
  · exact List.mem_singleton.mp hother ▸ hcall

/-- What the calls of a transfer and its result have to do with each other. -/
structure Exact (size : Nat) (offset : Int) (calls : List PortCall) (result : Int) : Prop where
  placed : Placed size offset calls
  bounded : accepted calls ≤ size
  whole : result = size ↔
    ∀ j < size, ∃! k : Nat, ∃ call : PortCall, calls[k]? = some call ∧ call.Moves offset j
  failed : result ≠ size → result < 0 ∧ ∃ before call, calls = before ++ [call] ∧ call.Fails result
  /-- A call that fails is the last one. -/
  onlyLast : calls.Pairwise fun call _ => ∀ result, ¬ call.Fails result

/-- A byte that is moved is among those counted. -/
theorem Placed.lt_of_moves {size : Nat} {offset : Int} {calls : List PortCall}
    (h : Placed size offset calls) {k j : Nat} {call : PortCall} (hk : calls[k]? = some call)
    (hmoves : call.Moves offset j) : j < accepted calls := by
  obtain ⟨hlen, rfl⟩ := List.getElem?_eq_some_iff.mp hk
  have hsplit : calls = calls.take k ++ calls[k] :: calls.drop (k + 1) := by
    rw [← List.drop_eq_getElem_cons hlen, List.take_append_drop]
  obtain ⟨hpos, _⟩ := h _ _ _ hsplit
  have htotal := congrArg accepted hsplit
  simp only [accepted, List.map_append, List.map_cons, List.sum_append, List.sum_cons]
    at htotal hpos ⊢
  have := hmoves.2.1
  omega

/-- All has been transferred, and no call has failed. -/
theorem exact_of_whole {size : Nat} {offset : Int} {calls : List PortCall}
    (h : Placed size offset calls) (hall : accepted calls = size) (hunfailed : Unfailed calls) :
    Exact size offset calls size where
  placed := h
  bounded := hall.le
  whole := ⟨fun _ j hj => h.existsUnique_moves (by omega), fun _ => rfl⟩
  failed hne := absurd rfl hne
  onlyLast := List.pairwise_of_forall_mem_list fun call hcall _ _ => hunfailed call hcall

/-- The last call has failed, and those before it have not. -/
theorem exact_of_fails {size : Nat} {offset result : Int} {before : List PortCall} {call : PortCall}
    (h : Placed size offset (before ++ [call])) (hnone : call.accepted = 0)
    (hunfailed : Unfailed before) (hfails : call.Fails result) :
    Exact size offset (before ++ [call]) result := by
  have hlt : accepted (before ++ [call]) < size := by
    rw [accepted_concat, hnone, Nat.add_zero]
    exact (h before call [] rfl).2.2.2
  have hneg := hfails.negative
  refine ⟨h, hlt.le, ⟨fun hsize => ?_, fun hmoved => ?_⟩,
    fun _ => ⟨hneg, before, call, rfl, hfails⟩, ?_⟩
  · omega
  -- the byte after those counted has not been moved
  · obtain ⟨k, ⟨c, hk, hmoves⟩, _⟩ := hmoved _ hlt
    exact absurd (h.lt_of_moves hk hmoves) (lt_irrefl _)
  · rw [List.pairwise_append]
    refine ⟨List.pairwise_of_forall_mem_list fun c hc _ _ => hunfailed c hc,
      List.pairwise_singleton _ _, fun c hc _ _ => hunfailed c hc⟩

/-- Where the loop stops, the call has failed, and accepted nothing. -/
theorem fails_of_stop (call : PortCall) {result : Int}
    (h : Raw.turn call.count call.answer = .stop result) :
    call.accepted = 0 ∧ call.Fails result := by
  unfold Raw.turn at h
  split at h
  · simp at h
  rename_i hretry
  split at h
  · rename_i hneg
    have hnone : call.accepted = 0 := by
      simp only [PortCall.accepted, PortAnswer.accepted]
      split <;> omega
    split at h
    · rename_i hzero
      obtain rfl : -(eio : Int) = result := by simpa using h
      exact ⟨hnone, .noErrno hneg hzero⟩
    · rename_i hnonzero
      obtain rfl : -(call.answer.errno : Int) = result := by simpa using h
      exact ⟨hnone, .errno hneg (fun heq => hretry ⟨hneg, heq⟩) hnonzero⟩
  · split at h
    · rename_i hbad
      obtain rfl : -(eio : Int) = result := by simpa using h
      rcases hbad with hzero | hmore
      · exact ⟨by simp [PortCall.accepted, PortAnswer.accepted, hzero], .nothing hzero⟩
      · refine ⟨?_, .tooMuch (by omega)⟩
        rw [PortCall.accepted, PortAnswer.accepted, if_neg (by omega)]
    · simp at h

/-- And on nothing else does the loop stop. -/
theorem PortCall.Fails.turn_eq {call : PortCall} {result : Int} (h : call.Fails result) :
    Raw.turn call.count call.answer = .stop result := by
  unfold Raw.turn
  cases h with
  | errno negative other nonzero =>
    rw [if_neg fun hretry => other hretry.2, if_pos negative, if_neg nonzero]
  | noErrno negative zero =>
    have hretry : ¬ (call.answer.result < 0 ∧ call.answer.errno = eintr) := by
      rw [zero]
      exact fun h => absurd h.2 (by decide)
    rw [if_neg hretry, if_pos negative, if_pos zero]
  | nothing zero =>
    rw [if_neg (by omega), if_neg (by omega), if_pos (Or.inl zero)]
  | tooMuch more =>
    rw [if_neg (by omega), if_neg (by omega), if_pos (Or.inr (by omega))]

section Exactness

variable {σ : Type}

/-- Induction on the loop, with what has been recorded so far in front. -/
theorem Raw.transferAll_exact (port : Port σ) (size : Nat) (offset : Int) (s : σ) :
    Exact size offset (transferAll port.recorded size offset (s, [])).2.2
      (transferAll port.recorded size offset (s, [])).1 := by
  have key := fill_rule (device port.recorded offset) size
    (fun done s => accepted s.2 = done ∧ Placed size offset s.2 ∧ Unfailed s.2)
    (Q := fun outcome s => Exact size offset s.2 (returned outcome))
    ?again ?took ?stop ?done (Nat.zero_le size) (s := (s, [])) ⟨rfl, ?start⟩
  case again =>
    rintro _ ⟨s, calls⟩ hlt ⟨rfl, hplaced, hunfailed⟩ hturn
    obtain ⟨hneg, _⟩ := turn_again hturn
    refine ⟨?_, placed_concat hplaced hlt _, hunfailed.concat fun result hfails => ?_⟩
    · have hnone : PortAnswer.accepted (size - accepted calls)
          (port.call (accepted calls) (size - accepted calls) (offset + accepted calls) s).1 =
            0 := by
        have hneg' : (port.call (accepted calls) (size - accepted calls)
          (offset + accepted calls) s).1.result < 0 := hneg
        unfold PortAnswer.accepted
        split <;> omega
      exact (accepted_concat calls _).trans (by rw [PortCall.accepted, hnone, Nat.add_zero])
    · have hstop := hfails.turn_eq.symm.trans hturn
      cases hstop
  case took =>
    rintro _ ⟨s, calls⟩ n hlt ⟨rfl, hplaced, hunfailed⟩ hturn hfits
    refine ⟨?_, placed_concat hplaced hlt _, hunfailed.concat fun result hfails => ?_⟩
    · obtain ⟨_, _, htook⟩ := turn_took hturn
      exact (accepted_concat calls _).trans (congrArg (accepted calls + ·) htook)
    · have hstop := hfails.turn_eq.symm.trans hturn
      cases hstop
  case stop =>
    rintro _ ⟨s, calls⟩ result hlt ⟨rfl, hplaced, hunfailed⟩ hturn
    obtain ⟨hnone, hfails⟩ := fails_of_stop
      ⟨accepted calls, size - accepted calls, offset + accepted calls, _⟩ hturn
    exact exact_of_fails (placed_concat hplaced hlt _) hnone hunfailed hfails
  case done =>
    rintro ⟨s, calls⟩ ⟨hall, hplaced, hunfailed⟩
    exact exact_of_whole hplaced hall hunfailed
  case start =>
    refine ⟨fun before call after heq => ?_, fun call hcall => ?_⟩
    · simp at heq
    · cases hcall
  exact key

/-- Keeping the calls changes nothing. -/
theorem Raw.transferAll_recorded (port : Port σ) (size : Nat) (offset : Int) (s : σ) :
    transferAll port size offset s =
      ((transferAll port.recorded size offset (s, [])).1,
        (transferAll port.recorded size offset (s, [])).2.1) := by
  obtain ⟨hsame, hstate⟩ := fill_related (device port offset) (device port.recorded offset)
    size (fun s t => s = t.1)
    (by rintro done s ⟨_, calls⟩ _ rfl; exact ⟨rfl, rfl⟩) (s := s) (t := (s, [])) rfl
  rw [transferAll, transferAll, hsame, hstate]

/-- **Full transfers are exact**, whatever the reader or the writer answers. -/
theorem transfers_exact (port : Port σ) (size : Nat) (offset : Int) (s : σ) :
    Exact size offset (Raw.preadAll port.recorded size offset (s, [])).2.2
        (Raw.preadAll port size offset s).1 ∧
      Exact size offset (Raw.pwriteAll port.recorded size offset (s, [])).2.2
        (Raw.pwriteAll port size offset s).1 := by
  have hsame := congrArg Prod.fst (Raw.transferAll_recorded port size offset s)
  have hexact := Raw.transferAll_exact port size offset s
  rw [← hsame] at hexact
  exact ⟨hexact, hexact⟩

/-- A port that plays a list of answers and then fails. -/
def Port.script : Port (List PortAnswer) where
  call _ _ _ answers := (answers.headD ⟨-1, eio⟩, answers.tail)
  patience answers := answers.countP fun answer => answer.errno = eintr
  call_le _ _ _ answers := by
    cases answers with
    | nil => rfl
    | cons answer rest => simp [List.countP_cons]
  call_retry _ _ _ answers _ heintr := by
    cases answers with
    | nil => simp [eio, eintr] at heintr
    | cons answer rest =>
      have heintr' : answer.errno = eintr := heintr
      simp [heintr']

example : (Raw.preadAll .script 6 10 [⟨-1, eintr⟩, ⟨2, 0⟩, ⟨4, 0⟩, ⟨1, 0⟩]) = (6, [⟨1, 0⟩]) := by
  decide +kernel
example : (Raw.pwriteAll .script 6 10 [⟨2, 0⟩, ⟨5, 0⟩]).1 = -eio := by decide +kernel

end Exactness

/-! ## The loops over lists of bytes -/

section Lists

variable {σ : Type}

/-- The count or the failure, as the caller sees it. -/
def PortAnswer.of : Except Nat Nat → PortAnswer
  | .error errno => ⟨-1, errno⟩
  | .ok count => ⟨count, 0⟩

/-- What a read leaves in memory. -/
def stored (memory : Nat → Byte) (position : Nat) : Except Nat (List Byte) → Nat → Byte
  | .error _ => memory
  | .ok bytes => store memory position bytes

/-- An answer that is made again is one of `EINTR`. -/
theorem PortAnswer.of_retry {α : Type} {f : α → Nat} {outcome : Except Nat α}
    (hneg : (PortAnswer.of (outcome.map f)).result < 0)
    (heintr : (PortAnswer.of (outcome.map f)).errno = eintr) : outcome = .error eintr := by
  cases outcome with
  | error errno => exact congrArg Except.error heintr
  | ok a => exact absurd hneg (Int.not_lt.mpr (Int.natCast_nonneg (f a)))

/-- A reader over lists, as a port: what it answers is stored in memory. -/
def Reader.port (reader : Reader σ) : Port (σ × (Nat → Byte)) where
  call position count offset s :=
    (PortAnswer.of ((reader.call count offset.toNat s.1).1.map List.length),
      ((reader.call count offset.toNat s.1).2,
        stored s.2 position (reader.call count offset.toNat s.1).1))
  patience s := reader.patience s.1
  call_le _ count offset s := reader.call_le count offset.toNat s.1
  call_retry _ count offset s hneg heintr :=
    reader.call_retry count offset.toNat s.1 (PortAnswer.of_retry hneg heintr)

/-- A writer over lists, as a port on the buffer `data`. -/
def Writer.port (writer : Writer σ) (data : List Byte) : Port σ where
  call position count offset s :=
    (PortAnswer.of ((writer.call ((data.drop position).take count) offset.toNat s).1.map id),
      (writer.call ((data.drop position).take count) offset.toNat s).2)
  patience := writer.patience
  call_le _ _ offset s := writer.call_le _ offset.toNat s
  call_retry _ _ offset s hneg heintr :=
    writer.call_retry _ offset.toNat s (PortAnswer.of_retry hneg heintr)

namespace Raw

theorem turn_interrupted (count : Nat) : turn count (.of (.error eintr)) = .again := by
  simp [turn, PortAnswer.of]

/-- An `errno` of zero is an I/O error. -/
theorem turn_error {errno : Nat} (count : Nat) (h : errno ≠ eintr) :
    turn count (.of (.error errno)) =
      .stop (-((if errno = 0 then eio else errno : Nat) : Int)) := by
  have hneg : (PortAnswer.of (.error errno)).result < 0 := neg_one_lt_zero
  rw [turn, if_neg fun hretry => h hretry.2, if_pos hneg]
  rfl

/-- A count of nothing, or of more than was asked for, is an I/O error. -/
theorem turn_refused {n count : Nat} (h : n = 0 ∨ count < n) :
    turn count (.of (.ok n)) = .stop (-(eio : Int)) := by
  have hnonneg : ¬ (n : Int) < 0 := by omega
  simp [turn, PortAnswer.of, hnonneg, h]

theorem turn_accepted {n count : Nat} (h : ¬ (n = 0 ∨ count < n)) :
    turn count (.of (.ok n)) = .took n := by
  have hnonneg : ¬ (n : Int) < 0 := by omega
  simp [turn, PortAnswer.of, hnonneg, h]

end Raw

/-- The bytes delivered are stored where the transfer has come to. -/
theorem Reader.device_call (reader : Reader σ) (offset position count : Nat) (memory : Nat → Byte)
    {s s' : σ} {outcome : Except Nat (List Byte)}
    (h : reader.call count (offset + position) s = (outcome, s')) :
    (Raw.device reader.port offset).call position count (s, memory) =
      (PortAnswer.of (outcome.map List.length), (s', stored memory position outcome)) := by
  have hoffset : ((offset : Int) + (position : Int)).toNat = offset + position := by omega
  simp only [Raw.device, Reader.port, hoffset, h]

/-- Induction on the loop of `preadAll`, the memory holding the buffer. -/
theorem preadLoop_eq_fill (reader : Reader σ) (size offset : Nat) (memory : Nat → Byte)
    (buffer : List Byte) (s : σ) :
    let run := fill (Raw.device reader.port offset) size buffer.length (s, store memory 0 buffer)
    Raw.returned run.1 = (preadLoop reader size offset buffer s).1.1 ∧
      run.2.1 = (preadLoop reader size offset buffer s).2 ∧
      (0 ≤ Raw.returned run.1 →
        run.2.2 = store memory 0 (preadLoop reader size offset buffer s).1.2) := by
  have heio := eio_pos
  fun_induction preadLoop reader size offset buffer s with
  | case1 buffer s hlt s' hcall ih =>
    have hport := reader.device_call offset buffer.length _ (store memory 0 buffer) hcall
    rw [fill_of_again hlt (by rw [hport]; exact Raw.turn_interrupted (size - buffer.length)), hport]
    exact ih
  | case2 buffer s hlt errno s' hcall heintr =>
    have hport := reader.device_call offset buffer.length _ (store memory 0 buffer) hcall
    rw [fill_of_stop hlt (by rw [hport]; exact Raw.turn_error (size - buffer.length) heintr), hport]
    refine ⟨rfl, rfl, fun hpos => ?_⟩
    simp only [Raw.returned] at hpos
    split at hpos <;> omega
  | case3 buffer s hlt bytes s' hcall hsize =>
    have hport := reader.device_call offset buffer.length _ (store memory 0 buffer) hcall
    rw [fill_of_stop hlt (by rw [hport]; exact Raw.turn_refused hsize), hport]
    refine ⟨rfl, rfl, fun hpos => ?_⟩
    simp only [Raw.returned] at hpos
    omega
  | case4 buffer s hlt bytes s' hcall hsize ih =>
    have hport := reader.device_call offset buffer.length _ (store memory 0 buffer) hcall
    rw [fill_of_took hlt (by rw [hport]; exact Raw.turn_accepted hsize), hport]
    have hstore := store_store memory 0 buffer bytes
    rw [Nat.zero_add] at hstore
    simpa only [stored, hstore, List.length_append] using ih
  | case5 buffer s hge =>
    rw [fill_of_le (by omega)]
    exact ⟨rfl, rfl, fun _ => rfl⟩

/-- `preadAll` over lists is the loop of the source on a reader that stores into memory. -/
theorem preadAll_eq_raw (reader : Reader σ) (size offset : Nat) (memory : Nat → Byte) (s : σ) :
    let run := Raw.preadAll reader.port size offset (s, memory)
    run.1 = (preadAll reader size offset s).1.1 ∧ run.2.1 = (preadAll reader size offset s).2 ∧
      (0 ≤ run.1 → run.2.2 = store memory 0 (preadAll reader size offset s).1.2) := by
  have h := preadLoop_eq_fill reader size offset memory [] s
  rw [store_nil] at h
  exact h

/-- The bytes offered are those from where the transfer has come to. -/
theorem Writer.device_call (writer : Writer σ) (data : List Byte) (offset position : Nat)
    {s s' : σ} {outcome : Except Nat Nat}
    (h : writer.call (data.drop position) (offset + position) s = (outcome, s')) :
    (Raw.device (writer.port data) offset).call position (data.length - position) s =
      (PortAnswer.of (outcome.map id), s') := by
  have hoffset : ((offset : Int) + (position : Int)).toNat = offset + position := by omega
  have hrest : (data.drop position).take (data.length - position) = data.drop position :=
    List.take_of_length_le (by simp)
  simp only [Raw.device, Writer.port, hoffset, hrest, h]

/-- Induction on the loop of `pwriteAll`. -/
theorem pwriteLoop_eq_fill (writer : Writer σ) (data : List Byte) (offset transferred : Nat)
    (s : σ) :
    let run := fill (Raw.device (writer.port data) offset) data.length transferred s
    (Raw.returned run.1, run.2) = pwriteLoop writer data offset transferred s := by
  fun_induction pwriteLoop writer data offset transferred s with
  | case1 transferred s hlt s' hcall ih =>
    have hport := writer.device_call data offset transferred hcall
    rw [fill_of_again hlt (by rw [hport]; exact Raw.turn_interrupted (data.length - transferred)),
      hport]
    exact ih
  | case2 transferred s hlt errno s' hcall heintr =>
    have hport := writer.device_call data offset transferred hcall
    rw [fill_of_stop hlt (by rw [hport]; exact Raw.turn_error (data.length - transferred) heintr),
      hport]
    rfl
  | case3 transferred s hlt count s' hcall hsize =>
    have hport := writer.device_call data offset transferred hcall
    rw [fill_of_stop hlt (by rw [hport]; exact Raw.turn_refused hsize), hport]
    rfl
  | case4 transferred s hlt count s' hcall hsize ih =>
    have hport := writer.device_call data offset transferred hcall
    rw [fill_of_took hlt (by rw [hport]; exact Raw.turn_accepted hsize), hport]
    exact ih
  | case5 transferred s hge =>
    rw [fill_of_le (by omega)]
    rfl

/-- `pwriteAll` over lists is the loop of the source on a writer that looks into the buffer. -/
theorem pwriteAll_eq_raw (writer : Writer σ) (data : List Byte) (offset : Nat) (s : σ) :
    Raw.pwriteAll (writer.port data) data.length offset s = pwriteAll writer data offset s :=
  pwriteLoop_eq_fill writer data offset 0 s

end Lists

end Saf
end Libtorrent4j
