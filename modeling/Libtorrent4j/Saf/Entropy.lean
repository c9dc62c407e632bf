import Libtorrent4j.Lib.Fill
import Libtorrent4j.Saf.Env

/-!
# The entropy shim

`getentropy` of `flow_saf_storage.cpp`, which old Android levels are linked with: it opens the
random device, reads until the buffer is full and closes. The device may interrupt, answer less
than it is asked for, end or fail, and `close` may leave any `errno`.

**What it hands out has been read**: on success every byte of the buffer came from the device, and
no failure is lost on the way out.
-/

namespace Libtorrent4j
namespace Saf

open Lib Lib.Fill

/-- The system calls in use. `close` is told the `errno` it finds and answers the one it leaves. A
    read never answers more than it is asked for. -/
structure Kernel (σ : Type) where
  openDevice : σ → Except Nat Nat × σ
  read : Nat → Nat → σ → Except Nat (List Byte) × σ
  close : Nat → Nat → σ → Nat × σ
  patience : σ → Nat
  open_retry : ∀ s, (openDevice s).1 = .error eintr → patience (openDevice s).2 < patience s
  read_le : ∀ descriptor count s, patience (read descriptor count s).2 ≤ patience s
  read_retry : ∀ descriptor count s, (read descriptor count s).1 = .error eintr →
    patience (read descriptor count s).2 < patience s
  read_fits : ∀ descriptor count s bytes, (read descriptor count s).1 = .ok bytes →
    bytes.length ≤ count

/-- A system call of the function with what it was answered, in the order made. -/
inductive SystemCall where
  | opened (outcome : Except Nat Nat)
  | read (descriptor position count : Nat) (outcome : Except Nat (List Byte))
  | closed (descriptor : Nat)

/-- `buffer` is the memory from the argument of that name on; `calls` is a ghost. -/
structure Process (σ : Type) where
  kernel : σ
  errno : Nat
  buffer : Nat → Byte
  calls : List SystemCall

namespace Entropy

variable {σ : Type} (K : Kernel σ)

/-- `do descriptor = ::open(...); while (descriptor < 0 && errno == EINTR);` -/
def openDevice (p : Process σ) : Option Nat × Process σ :=
  match _h : K.openDevice p.kernel with
  | (.ok descriptor, kernel) =>
      (some descriptor,
        { p with kernel := kernel, calls := p.calls ++ [.opened (.ok descriptor)] })
  | (.error errno, kernel) =>
      if errno = eintr then
        openDevice
          { p with kernel := kernel, errno := errno, calls := p.calls ++ [.opened (.error errno)] }
      else
        (none,
          { p with kernel := kernel, errno := errno, calls := p.calls ++ [.opened (.error errno)] })
termination_by K.patience p.kernel
decreasing_by
  rename_i heintr
  have := K.open_retry p.kernel (by rw [_h, heintr])
  rw [_h] at this
  exact this

/-- The process after a read into `output + consumed`. -/
def afterRead (descriptor consumed rest : Nat) (p : Process σ) : Process σ where
  kernel := (K.read descriptor rest p.kernel).2
  errno := match (K.read descriptor rest p.kernel).1 with
    | .ok _ => p.errno
    | .error errno => errno
  buffer := match (K.read descriptor rest p.kernel).1 with
    | .ok bytes => store p.buffer consumed bytes
    | .error _ => p.buffer
  calls := p.calls ++ [.read descriptor consumed rest (K.read descriptor rest p.kernel).1]

/-- The body of `while (consumed < length)`, after the call; `stop` is `read_error`. -/
def turn : Except Nat (List Byte) → Verdict Nat
  | .ok bytes => if 0 < bytes.length then .took bytes.length else .stop eio
  | .error errno => if errno = eintr then .again else .stop errno

/-- Only an interrupted read is made again. -/
theorem turn_again {outcome : Except Nat (List Byte)} (h : turn outcome = .again) :
    outcome = .error eintr := by
  cases outcome with
  | ok bytes =>
    simp only [turn] at h
    split at h <;> simp at h
  | error errno =>
    simp only [turn] at h
    split at h
    · rw [‹errno = eintr›]
    · simp at h

/-- A read that goes on has delivered something. -/
theorem turn_took {outcome : Except Nat (List Byte)} {n : Nat} (h : turn outcome = .took n) :
    ∃ bytes, outcome = .ok bytes ∧ bytes.length = n ∧ 0 < n := by
  cases outcome with
  | ok bytes =>
    simp only [turn] at h
    split at h
    · obtain rfl : bytes.length = n := by simpa using h
      exact ⟨bytes, rfl, rfl, ‹_›⟩
    · simp at h
  | error errno =>
    simp only [turn] at h
    split at h <;> simp at h

/-- The device is at its end, which is an I/O error here, or the read has failed. -/
theorem turn_stop {outcome : Except Nat (List Byte)} {errno : Nat}
    (h : turn outcome = .stop errno) :
    outcome = .ok [] ∧ errno = eio ∨ outcome = .error errno ∧ errno ≠ eintr := by
  cases outcome with
  | ok bytes =>
    simp only [turn] at h
    split at h
    · simp at h
    · obtain rfl : bytes = [] := List.eq_nil_of_length_eq_zero (by omega)
      exact Or.inl ⟨rfl, by simpa using h.symm⟩
  | error errno' =>
    simp only [turn] at h
    split at h
    · simp at h
    · obtain rfl : errno' = errno := by simpa using h
      exact Or.inr ⟨rfl, ‹_›⟩

/-- What `read` of the descriptor is to the loop that fills the buffer. -/
def device (descriptor : Nat) : Device (Process σ) (Except Nat (List Byte)) Nat where
  call consumed rest p :=
    ((K.read descriptor rest p.kernel).1, afterRead K descriptor consumed rest p)
  judge _ := turn
  patience p := K.patience p.kernel
  call_le _ rest p := K.read_le descriptor rest p.kernel
  call_again _ rest p h := K.read_retry descriptor rest p.kernel (turn_again h)
  took_pos _ _ _ _ h := by
    obtain ⟨_, _, _, hpos⟩ := turn_took h
    exact hpos
  took_le _ rest p _ h := by
    obtain ⟨bytes, hread, rfl, _⟩ := turn_took h
    exact K.read_fits descriptor rest p.kernel bytes hread

/-- The answer of `close` is not looked at. -/
def close (descriptor : Nat) (p : Process σ) : Process σ :=
  { p with
    kernel := (K.close descriptor p.errno p.kernel).2
    errno := (K.close descriptor p.errno p.kernel).1
    calls := p.calls ++ [.closed descriptor] }

/-- `getentropy`, from the check of the length to the `errno` it leaves. -/
def getentropy (length : Nat) (p : Process σ) : Int × Process σ :=
  if 256 < length then (-1, { p with errno := eio })
  else
    match openDevice K p with
    | (none, p) => (-1, p)
    | (some descriptor, p) =>
        match fill (device K descriptor) length 0 p with
        | (.ok _, p) => (0, close K descriptor p)
        | (.error readError, p) => (-1, { close K descriptor p with errno := readError })

/-! ## The calls -/

/-- The bytes that the reads delivered, in order. -/
def delivered (calls : List SystemCall) : List Byte :=
  calls.flatMap fun call => match call with
    | .read _ _ _ (.ok bytes) => bytes
    | _ => []

/-- The descriptors that were opened. -/
def descriptors (calls : List SystemCall) : List Nat :=
  calls.filterMap fun call => match call with
    | .opened (.ok descriptor) => some descriptor
    | _ => none

/-- The descriptors that were closed. -/
def closes (calls : List SystemCall) : List Nat :=
  calls.filterMap fun call => match call with
    | .closed descriptor => some descriptor
    | _ => none

/-- Reads of one descriptor and nothing else. -/
def OnlyReads (descriptor : Nat) (calls : List SystemCall) : Prop :=
  ∀ call ∈ calls, ∃ position count outcome, call = .read descriptor position count outcome

/-- A call that ends the attempt. One that is interrupted does not. -/
inductive Fails : SystemCall → Prop where
  | opening {errno : Nat} (h : errno ≠ eintr) : Fails (.opened (.error errno))
  | reading {descriptor position count errno : Nat} (h : errno ≠ eintr) :
      Fails (.read descriptor position count (.error errno))
  | endOfFile {descriptor position count : Nat} : Fails (.read descriptor position count (.ok []))

/-- Opening that was interrupted and nothing else. -/
def Interrupted (calls : List SystemCall) : Prop := ∀ call ∈ calls, call = .opened (.error eintr)

section Calls

variable {calls before after : List SystemCall}

@[simp] theorem delivered_append :
    delivered (before ++ after) = delivered before ++ delivered after := List.flatMap_append

@[simp] theorem delivered_ok {descriptor position count : Nat} {bytes : List Byte} :
    delivered [.read descriptor position count (.ok bytes)] = bytes := List.append_nil bytes

@[simp] theorem delivered_error {descriptor position count errno : Nat} :
    delivered [.read descriptor position count (.error errno)] = [] := rfl

@[simp] theorem descriptors_append :
    descriptors (before ++ after) = descriptors before ++ descriptors after :=
  List.filterMap_append

@[simp] theorem closes_append : closes (before ++ after) = closes before ++ closes after :=
  List.filterMap_append

/-- Interrupted opens deliver nothing, hold nothing and close nothing. -/
theorem Interrupted.silent (h : Interrupted calls) :
    delivered calls = [] ∧ descriptors calls = [] ∧ closes calls = [] := by
  refine ⟨List.flatMap_eq_nil_iff.mpr ?_, List.filterMap_eq_nil_iff.mpr ?_,
    List.filterMap_eq_nil_iff.mpr ?_⟩ <;> intro call hcall <;> rw [h call hcall]

theorem Interrupted.not_fails (h : Interrupted calls) {call : SystemCall} (hcall : call ∈ calls) :
    ¬ Fails call := by
  rw [h call hcall]
  rintro (hne | _)
  exact hne rfl

/-- Reads neither acquire nor give back a descriptor. -/
theorem OnlyReads.silent {descriptor : Nat} (h : OnlyReads descriptor calls) :
    descriptors calls = [] ∧ closes calls = [] := by
  refine ⟨List.filterMap_eq_nil_iff.mpr ?_, List.filterMap_eq_nil_iff.mpr ?_⟩ <;> intro call hcall
  · obtain ⟨_, _, _, rfl⟩ := h call hcall
    rfl
  · obtain ⟨_, _, _, rfl⟩ := h call hcall
    rfl

theorem OnlyReads.concat {descriptor position count : Nat} {outcome : Except Nat (List Byte)}
    (h : OnlyReads descriptor calls) :
    OnlyReads descriptor (calls ++ [.read descriptor position count outcome]) := by
  intro call hcall
  rcases List.mem_append.mp hcall with hcall | hcall
  · exact h call hcall
  · exact ⟨position, count, outcome, List.mem_singleton.mp hcall⟩

end Calls

/-! ## The two loops -/

/-- The retries, and the one answer that is not an interruption. -/
theorem openDevice_spec (p : Process σ) :
    ∃ retries outcome, Interrupted retries ∧
      (openDevice K p).2.calls = p.calls ++ (retries ++ [SystemCall.opened outcome]) ∧
      (openDevice K p).2.buffer = p.buffer ∧
      ((∃ descriptor, outcome = .ok descriptor ∧ (openDevice K p).1 = some descriptor) ∨
        ∃ errno, outcome = .error errno ∧ errno ≠ eintr ∧ (openDevice K p).1 = none ∧
          (openDevice K p).2.errno = errno) := by
  fun_induction openDevice K p with
  | case1 p descriptor kernel hopen =>
    exact ⟨[], .ok descriptor, by simp [Interrupted], rfl, rfl, Or.inl ⟨descriptor, rfl, rfl⟩⟩
  | case2 p kernel hopen ih =>
    obtain ⟨retries, outcome, hretries, hcalls, hbuffer, hend⟩ := ih
    refine ⟨.opened (.error eintr) :: retries, outcome, ?_, ?_, hbuffer, hend⟩
    · exact List.forall_mem_cons.mpr ⟨rfl, hretries⟩
    · rw [hcalls]
      simp
  | case3 p errno kernel hopen heintr =>
    exact ⟨[], .error errno, by simp [Interrupted], rfl, rfl,
      Or.inr ⟨errno, rfl, heintr, rfl, rfl⟩⟩

/-- What a failed read leaves as the last call, and the `read_error` it comes to. -/
def ReadFails (descriptor : Nat) (calls : List SystemCall) (errno : Nat) : Prop :=
  ∃ before position count outcome,
    calls = before ++ [.read descriptor position count outcome] ∧
      (outcome = .ok [] ∧ errno = eio ∨ outcome = .error errno ∧ errno ≠ eintr)

/-- The process after `reads`, all of them stored end to end. -/
structure After (descriptor : Nat) (p : Process σ) (reads : List SystemCall) (p' : Process σ) :
    Prop where
  onlyReads : OnlyReads descriptor reads
  calls : p'.calls = p.calls ++ reads
  buffer : p'.buffer = store p.buffer 0 (delivered reads)

/-- One more read, for the rest and behind what those before it have delivered. -/
theorem After.read {descriptor rest : Nat} {p p' : Process σ} {reads : List SystemCall}
    (h : After descriptor p reads p') :
    After descriptor p (reads ++ [SystemCall.read descriptor (delivered reads).length rest
        (K.read descriptor rest p'.kernel).1])
      (afterRead K descriptor (delivered reads).length rest p') := by
  refine ⟨h.onlyReads.concat, ?_, ?_⟩
  · simp only [afterRead, h.calls, List.append_assoc]
  · simp only [afterRead, h.buffer]
    cases (K.read descriptor rest p'.kernel).1 with
    | ok bytes =>
      have hstore := store_store p.buffer 0 (delivered reads) bytes
      rw [Nat.zero_add] at hstore
      simpa using hstore
    | error errno => simp

/-- Induction on the loop: as far as it has come, the buffer holds what the reads delivered. -/
theorem readLoop_spec (descriptor length : Nat) (p : Process σ) :
    ∃ reads, After descriptor p reads (fill (device K descriptor) length 0 p).2 ∧
      reads.Pairwise (fun call _ => ¬ Fails call) ∧
      match (fill (device K descriptor) length 0 p).1 with
      | .ok _ => (delivered reads).length = length
      | .error errno => (delivered reads).length < length ∧ ReadFails descriptor reads errno := by
  refine fill_rule (device K descriptor) length
    (fun done p' => ∃ reads, After descriptor p reads p' ∧ (delivered reads).length = done ∧
      ∀ call ∈ reads, ¬ Fails call)
    (Q := fun outcome p' => ∃ reads, After descriptor p reads p' ∧
      reads.Pairwise (fun call _ => ¬ Fails call) ∧ match outcome with
      | .ok _ => (delivered reads).length = length
      | .error errno => (delivered reads).length < length ∧ ReadFails descriptor reads errno)
    ?again ?took ?stop ?done (Nat.zero_le length) ⟨[], ?start, rfl, by simp⟩
  case again =>
    rintro _ p' hlt ⟨reads, hafter, rfl, hgood⟩ hturn
    have herror : (K.read descriptor (length - (delivered reads).length) p'.kernel).1 =
        .error eintr := turn_again hturn
    refine ⟨_, hafter.read K, ?_, ?_⟩
    · rw [herror, delivered_append, delivered_error, List.append_nil]
    · rw [herror, List.forall_mem_append, List.forall_mem_singleton]
      refine ⟨hgood, ?_⟩
      rintro (_ | hne)
      exact hne rfl
  case took =>
    rintro _ p' n hlt ⟨reads, hafter, rfl, hgood⟩ hturn _
    obtain ⟨bytes, hok, rfl, hpos⟩ := turn_took hturn
    have hok' : (K.read descriptor (length - (delivered reads).length) p'.kernel).1 =
        .ok bytes := hok
    refine ⟨_, hafter.read K, ?_, ?_⟩
    · rw [hok', delivered_append, delivered_ok, List.length_append]
    · rw [hok', List.forall_mem_append, List.forall_mem_singleton]
      refine ⟨hgood, fun hfails => ?_⟩
      cases hfails
      exact absurd hpos (lt_irrefl 0)
  case stop =>
    rintro _ p' errno hlt ⟨reads, hafter, rfl, hgood⟩ hturn
    have hlast : (K.read descriptor (length - (delivered reads).length) p'.kernel).1 = .ok [] ∧
        errno = eio ∨
      (K.read descriptor (length - (delivered reads).length) p'.kernel).1 = .error errno ∧
        errno ≠ eintr := turn_stop hturn
    refine ⟨_, hafter.read K, ?_, ?_, reads, _, _, _, rfl, hlast⟩
    · rw [List.pairwise_append]
      exact ⟨List.pairwise_of_forall_mem_list fun call hcall _ _ => hgood call hcall,
        List.pairwise_singleton _ _, fun call hcall _ _ => hgood call hcall⟩
    -- neither an empty answer nor a failure adds to what has been delivered
    · rw [delivered_append, List.length_append]
      rcases hlast with ⟨hend, _⟩ | ⟨herror, _⟩
      · rw [hend, delivered_ok]
        exact hlt
      · rw [herror, delivered_error]
        exact hlt
  case done =>
    rintro p' ⟨reads, hafter, hall, hgood⟩
    exact ⟨reads, hafter,
      List.pairwise_of_forall_mem_list fun call hcall _ _ => hgood call hcall, hall⟩
  case start => exact ⟨by simp [OnlyReads], by simp, by simp [delivered]⟩

/-! ## The whole -/

/-- The call that failed, and the `errno` to report for it. -/
inductive FailedWith (length : Nat) : List SystemCall → Nat → Prop where
  | tooLong (h : 256 < length) : FailedWith length [] eio
  | opening (retries : List SystemCall) (errno : Nat) (h : errno ≠ eintr) :
      FailedWith length (retries ++ [.opened (.error errno)]) errno
  | reading (before : List SystemCall) (descriptor position count errno : Nat)
      (h : errno ≠ eintr) :
      FailedWith length
        (before ++ [.read descriptor position count (.error errno), .closed descriptor]) errno
  | endOfFile (before : List SystemCall) (descriptor position count : Nat) :
      FailedWith length
        (before ++ [.read descriptor position count (.ok []), .closed descriptor]) eio

/-- What a run with the calls `calls` and the result `result` has done. -/
structure Sound (length : Nat) (p p' : Process σ) (result : Int) (calls : List SystemCall) :
    Prop where
  made : p'.calls = p.calls ++ calls
  contiguous : p'.buffer = store p.buffer 0 (delivered calls)
  within : (delivered calls).length ≤ length
  beyond : ∀ j, length ≤ j → p'.buffer j = p.buffer j
  filled : result = 0 ↔ descriptors calls ≠ [] ∧ (delivered calls).length = length
  failed : result ≠ 0 → result = -1 ∧ FailedWith length calls p'.errno
  closedOnce : closes calls = descriptors calls ∧ (descriptors calls).length ≤ 1
  fromDevice : ∀ descriptor position count outcome,
    .read descriptor position count outcome ∈ calls → descriptor ∈ descriptors calls
  tooLong : 256 < length → calls = [] ∧ result = -1 ∧ p'.errno = eio
  /-- After a call that fails there is nothing but the `close`. -/
  onlyLast : calls.Pairwise fun call later => Fails call → ∃ descriptor, later = .closed descriptor

/-- The calls of a run that opens the device. -/
def served (retries : List SystemCall) (descriptor : Nat) (reads : List SystemCall) :
    List SystemCall :=
  retries ++ [SystemCall.opened (.ok descriptor)] ++ reads ++ [SystemCall.closed descriptor]

/-- Of all calls only the reads deliver, and the descriptor is opened and closed once. -/
theorem calls_of_served {retries reads : List SystemCall} {descriptor : Nat}
    (hretries : Interrupted retries) (hreads : OnlyReads descriptor reads) :
    delivered (served retries descriptor reads) = delivered reads ∧
      descriptors (served retries descriptor reads) = [descriptor] ∧
      closes (served retries descriptor reads) = [descriptor] ∧
      ∀ descriptor' position count outcome,
        .read descriptor' position count outcome ∈ served retries descriptor reads →
          descriptor' = descriptor := by
  obtain ⟨hnone, hnoDescriptor, hnoClose⟩ := hretries.silent
  obtain ⟨hnoDescriptor', hnoClose'⟩ := hreads.silent
  refine ⟨?_, ?_, ?_, ?_⟩
  · simp only [served, delivered_append, hnone]
    exact List.append_nil (delivered reads)
  · simp only [served, descriptors_append, hnoDescriptor, hnoDescriptor']
    rfl
  · simp only [served, closes_append, hnoClose, hnoClose']
    rfl
  · intro descriptor' position count outcome hmem
    simp only [served, List.mem_append, List.mem_singleton, reduceCtorEq, or_false] at hmem
    rcases hmem with hmem | hmem
    · simpa using hretries _ hmem
    · obtain ⟨_, _, _, heq⟩ := hreads _ hmem
      exact (SystemCall.read.injEq .. ▸ heq).1

/-- A call that fails is followed by the `close` of its descriptor, if by anything. -/
theorem onlyLast_of_served {retries reads : List SystemCall} {descriptor : Nat}
    (hretries : Interrupted retries) (hgood : reads.Pairwise fun call _ => ¬ Fails call) :
    (served retries descriptor reads).Pairwise fun call later =>
      Fails call → ∃ descriptor, later = .closed descriptor := by
  have hopened : ¬ Fails (.opened (.ok descriptor)) := by
    intro h
    cases h
  have hbefore : ∀ call ∈ retries ++ [SystemCall.opened (.ok descriptor)], ¬ Fails call := by
    intro call hcall
    rcases List.mem_append.mp hcall with hcall | hcall
    · exact hretries.not_fails hcall
    · exact List.mem_singleton.mp hcall ▸ hopened
  rw [served, List.pairwise_append]
  refine ⟨?_, List.pairwise_singleton _ _, fun _ _ later hlater _ =>
    ⟨descriptor, List.mem_singleton.mp hlater⟩⟩
  rw [List.pairwise_append]
  exact ⟨List.pairwise_of_forall_mem_list fun call hcall _ _ h => absurd h (hbefore call hcall),
    hgood.imp fun hnot h => absurd h hnot, fun call hcall _ _ h => absurd h (hbefore call hcall)⟩

/-- The device was opened: the reads, and then the `close`, whatever they came to. -/
theorem sound_of_opened {length descriptor : Nat} {p p' : Process σ} {result : Int}
    {retries reads : List SystemCall} (hshort : ¬ 256 < length) (hretries : Interrupted retries)
    (hreads : OnlyReads descriptor reads) (hgood : reads.Pairwise fun call _ => ¬ Fails call)
    (hmade : p'.calls = p.calls ++ served retries descriptor reads)
    (hbuffer : p'.buffer = store p.buffer 0 (delivered reads))
    (hwithin : (delivered reads).length ≤ length)
    (hfilled : result = 0 ↔ (delivered reads).length = length)
    (hfailed : result ≠ 0 → result = -1 ∧ ReadFails descriptor reads p'.errno) :
    Sound length p p' result (served retries descriptor reads) := by
  obtain ⟨hdelivered, hdescriptors, hcloses, hfrom⟩ := calls_of_served hretries hreads
  refine ⟨hmade, ?_, ?_, fun j hj => ?_, ?_, fun hne => ?_, ?_, ?_,
    fun hlong => absurd hlong hshort, onlyLast_of_served hretries hgood⟩
  · rw [hbuffer, hdelivered]
  · rw [hdelivered]
    exact hwithin
  · rw [hbuffer, store_outside _ (by omega)]
  · rw [hdelivered, hdescriptors, hfilled]
    simp
  · obtain ⟨hresult, before, position, count, outcome, rfl, hlast⟩ := hfailed hne
    refine ⟨hresult, ?_⟩
    have hcalls : ∀ call : SystemCall, served retries descriptor (before ++ [call]) =
        (retries ++ [SystemCall.opened (.ok descriptor)] ++ before) ++
          [call, .closed descriptor] := by
      intro call
      simp [served]
    rw [hcalls]
    rcases hlast with ⟨rfl, herrno⟩ | ⟨rfl, heintr⟩
    · rw [herrno]
      exact .endOfFile _ descriptor position count
    · exact .reading _ descriptor position count _ heintr
  · rw [hcloses, hdescriptors]
    exact ⟨rfl, le_rfl⟩
  · intro descriptor' position count outcome hmem
    rw [hfrom descriptor' position count outcome hmem, hdescriptors]
    exact List.mem_singleton_self descriptor

/-- The device could not be opened, and so there is nothing to close. -/
theorem sound_of_denied {length errno : Nat} {p p' : Process σ} {retries : List SystemCall}
    (hshort : ¬ 256 < length) (hretries : Interrupted retries) (heintr : errno ≠ eintr)
    (hmade : p'.calls = p.calls ++ (retries ++ [SystemCall.opened (.error errno)]))
    (hbuffer : p'.buffer = p.buffer) (herrno : p'.errno = errno) :
    Sound length p p' (-1) (retries ++ [SystemCall.opened (.error errno)]) := by
  obtain ⟨hnone, hnoDescriptor, hnoClose⟩ := hretries.silent
  have hdelivered : delivered (retries ++ [SystemCall.opened (.error errno)]) = [] := by
    rw [delivered_append, hnone]
    rfl
  have hdescriptors : descriptors (retries ++ [SystemCall.opened (.error errno)]) = [] := by
    rw [descriptors_append, hnoDescriptor]
    rfl
  have hcloses : closes (retries ++ [SystemCall.opened (.error errno)]) = [] := by
    rw [closes_append, hnoClose]
    rfl
  refine ⟨hmade, ?_, ?_, fun _ _ => by rw [hbuffer], ?_, fun _ => ⟨rfl, ?_⟩, ?_, ?_,
    fun hlong => absurd hlong hshort, ?_⟩
  · rw [hbuffer, hdelivered, store_nil]
  · rw [hdelivered]
    exact Nat.zero_le length
  · simp [hdescriptors]
  · rw [herrno]
    exact .opening retries errno heintr
  · rw [hcloses, hdescriptors]
    exact ⟨rfl, Nat.zero_le 1⟩
  · intro descriptor position count outcome hmem
    rcases List.mem_append.mp hmem with hmem | hmem
    · simpa using hretries _ hmem
    · simp at hmem
  · rw [List.pairwise_append]
    exact ⟨List.pairwise_of_forall_mem_list fun call hcall _ _ h =>
        absurd h (hretries.not_fails hcall),
      List.pairwise_singleton _ _, fun call hcall _ _ h => absurd h (hretries.not_fails hcall)⟩

/-- A request of more than 256 bytes makes no call at all. -/
theorem sound_of_tooLong {length : Nat} (p : Process σ) (hlong : 256 < length) :
    Sound length p { p with errno := eio } (-1) [] := by
  refine ⟨(List.append_nil p.calls).symm, (store_nil p.buffer 0).symm, Nat.zero_le length,
    fun _ _ => rfl, ?_, fun _ => ⟨rfl, .tooLong hlong⟩, ⟨rfl, Nat.zero_le 1⟩, ?_,
    fun _ => ⟨rfl, rfl, rfl⟩, .nil⟩
  · simp [descriptors]
  · intro descriptor position count outcome hmem
    simp at hmem

/-- **The shim hands out only what it has read**, whatever the system calls answer. -/
theorem entropy_filled (length : Nat) (p : Process σ) :
    ∃ calls, Sound length p (getentropy K length p).2 (getentropy K length p).1 calls := by
  by_cases hlong : 256 < length
  · rw [getentropy, if_pos hlong]
    exact ⟨[], sound_of_tooLong p hlong⟩
  obtain ⟨retries, outcome, hretries, hcalls, hbuffer, hend⟩ := openDevice_spec K p
  rcases hopen : openDevice K p with ⟨opened, p₁⟩
  rw [hopen] at hcalls hbuffer hend
  rcases hend with ⟨descriptor, rfl, hsome⟩ | ⟨errno, rfl, heintr, hnone, herrno⟩
  · obtain rfl : opened = some descriptor := hsome
    -- opened: the loop has stored what it was delivered, and the descriptor is closed after it
    obtain ⟨reads, ⟨hreads, hcalls₂, hbuffer₂⟩, hgood, houtcome⟩ :=
      readLoop_spec K descriptor length p₁
    rcases hfill : fill (device K descriptor) length 0 p₁ with ⟨filled, p₂⟩
    rw [hfill] at hcalls₂ hbuffer₂ houtcome
    have hmade : p₂.calls ++ [SystemCall.closed descriptor] =
        p.calls ++ served retries descriptor reads := by
      rw [show p₂.calls = _ from hcalls₂, show p₁.calls = _ from hcalls]
      simp [served]
    have hstored : p₂.buffer = store p.buffer 0 (delivered reads) := by
      rw [show p₂.buffer = _ from hbuffer₂, show p₁.buffer = _ from hbuffer]
    refine ⟨served retries descriptor reads, ?_⟩
    cases filled with
    | ok n =>
      have hall : (delivered reads).length = length := houtcome
      have hrun : getentropy K length p = (0, close K descriptor p₂) := by
        simp only [getentropy, if_neg hlong, hopen, hfill]
      rw [hrun]
      refine sound_of_opened hlong hretries hreads hgood hmade hstored hall.le ?_ fun hne => ?_
      · simp [hall]
      · exact absurd rfl hne
    | error readError =>
      obtain ⟨hlt, hfails⟩ := houtcome
      have hrun : getentropy K length p =
          (-1, { close K descriptor p₂ with errno := readError }) := by
        simp only [getentropy, if_neg hlong, hopen, hfill]
      rw [hrun]
      refine sound_of_opened hlong hretries hreads hgood hmade hstored hlt.le ?_ fun _ =>
        ⟨rfl, hfails⟩
      simp only [Int.reduceNeg, Int.reduceEq, false_iff]
      omega
  · -- not opened: there is nothing to close
    obtain rfl : opened = none := hnone
    have hrun : getentropy K length p = (-1, p₁) := by
      simp only [getentropy, if_neg hlong, hopen]
    rw [hrun]
    exact ⟨_, sound_of_denied hlong hretries heintr hcalls hbuffer herrno⟩

/-- A kernel that plays a list of answers: opening gives the descriptor 3 and takes none, and
    there is nothing to read after the last one. -/
def scripted : Kernel (List (Except Nat (List Byte))) where
  openDevice answers := (.ok 3, answers)
  read _ count answers := ((answers.headD (.ok [])).map (·.take count), answers.tail)
  close _ errno answers := (errno, answers)
  patience answers := answers.length
  open_retry _ h := by simp at h
  read_le _ _ answers := by simp
  read_retry _ _ answers h := by
    cases answers with
    | nil => simp [Except.map] at h
    | cons answer rest => simp
  read_fits _ count answers bytes h := by
    change (answers.headD (.ok [])).map (·.take count) = .ok bytes at h
    cases hanswer : answers.headD (.ok []) with
    | error errno =>
      rw [hanswer] at h
      cases h
    | ok all =>
      rw [hanswer] at h
      obtain rfl := Except.ok.inj h
      exact List.length_take_le count all

/-- Interrupted, then two bytes, then more than the two that are missing. -/
example : (getentropy scripted 4
      ⟨[.error eintr, .ok [1, 2], .ok [3, 4, 5]], 0, fun _ => 0, []⟩).1 = 0 ∧
    (List.range 5).map (getentropy scripted 4
      ⟨[.error eintr, .ok [1, 2], .ok [3, 4, 5]], 0, fun _ => 0, []⟩).2.buffer =
        [1, 2, 3, 4, 0] := by
  decide +kernel

/-! ## Nothing asked for -/

/-- A kernel that has no random device. -/
def noDevice : Kernel Unit where
  openDevice _ := (.error 13, ())
  read _ _ _ := (.ok [], ())
  close _ errno _ := (errno, ())
  patience _ := 0
  open_retry _ h := by simp [eintr] at h
  read_le _ _ _ := le_rfl
  read_retry _ _ _ h := by simp at h
  read_fits _ count _ bytes h := by
    obtain rfl : [] = bytes := by simpa using h
    exact Nat.zero_le count

/-- An empty request opens the device all the same. All of its no bytes are there, and it fails. -/
theorem empty_request_fails :
    (getentropy noDevice 0 ⟨(), 0, fun _ => 0, []⟩).1 = -1 ∧
      ¬ ((getentropy noDevice 0 ⟨(), 0, fun _ => 0, []⟩).1 = 0 ↔
        (delivered (getentropy noDevice 0 ⟨(), 0, fun _ => 0, []⟩).2.calls).length = 0) := by
  simp [getentropy, openDevice, noDevice, eintr, delivered]

end Entropy

end Saf
end Libtorrent4j
