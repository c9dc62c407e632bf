import Libtorrent4j.Session.Listeners

/-!
# Requests to the DHT

`dhtGetItem` and `dhtGetPeers` make a listener, register it, ask the native session, wait for the
listener to count a latch down or for the time to be over, take the listener out and return what it
has kept. The answers come as alerts on the thread of the alerts loop, which takes the tree of
listeners out of the slot and then calls one after the other. So **what a request hears is not
what is dispatched while it is registered, but what is dispatched to a tree it was in**: the
alert that is being delivered when the listener is taken out still reaches it. `dhtGetItem` returns
what its `AtomicReference` holds then, but `dhtGetPeers` the very `ArrayList` of its listener, and
its caller sees the peers that come late.

`heard_in_window` says what a request has heard at any moment of any run, with any number of
requests and other listeners. Listeners of requests do not throw; others may, and then the rest of
the slot hears nothing.
-/

namespace Libtorrent4j
namespace Session
namespace Dht

/-- What an alert is about, and a request asks for. -/
inductive Target where
  | sha1 (hash : List UInt8)
  | mutable (key salt : List UInt8)
deriving DecidableEq, Repr

/-- An `AtomicReference` has the last item, an `ArrayList` all peers. -/
inductive Keeping where
  | last | all
deriving DecidableEq, Repr

/-- The listener of a request. -/
structure Request where
  type : Nat
  target : Target
  keeping : Keeping
  own : type ≠ numAlertTypes

/-- An alert; the content of one that brings an item is that item. -/
structure Reply (α : Type*) where
  type : Nat
  target : Target
  content : List α
deriving DecidableEq, Repr

def dhtGetItem (sha1 : List UInt8) : Request where
  type := 74
  target := .sha1 sha1
  keeping := .last
  own := by decide

def dhtGetMutableItem (key salt : List UInt8) : Request where
  type := 75
  target := .mutable key salt
  keeping := .last
  own := by decide

def dhtGetPeers (sha1 : List UInt8) : Request where
  type := 87
  target := .sha1 sha1
  keeping := .all
  own := by decide

namespace Request

variable {α : Type*} (r : Request)

def fits (a : Reply α) : Bool := r.target = a.target

/-- The listener's `alert`, on what it has kept so far. -/
def keep (result : List α) (a : Reply α) : List α :=
  if r.fits a then
    match r.keeping with
    | .last => a.content
    | .all => result ++ a.content
  else result

/-- What is kept of these alerts. -/
def collect (heard : List (Reply α)) : List α := heard.foldl r.keep []

theorem collect_concat (heard : List (Reply α)) (a : Reply α) :
    r.collect (heard ++ [a]) = r.keep (r.collect heard) a := by
  simp [collect]

end Request

/-- What a caller gets: the item that the `AtomicReference` holds when it is asked for it, or the
    very `ArrayList` that the listener fills. What the list had in it then is a ghost. -/
inductive Handed (α : Type*) where
  | item (value : List α)
  | list (atReturn : List α)
deriving DecidableEq, Repr

/-- What a call returns when its listener has kept so much. -/
def Request.hand {α : Type*} (r : Request) (result : List α) : Handed α :=
  match r.keeping with
  | .last => .item result
  | .all => .list result

/-- What the caller finds in it now that the listener has kept so much. -/
def Handed.now {α : Type*} (result : List α) : Handed α → List α
  | .item value => value
  | .list _ => result

theorem Handed.now_hand {α : Type*} (r : Request) (first result : List α) :
    (r.hand first).now result = if r.keeping = .all then result else first := by
  unfold Request.hand
  cases r.keeping <;> rfl

/-- How far a call has come. -/
inductive CallPoint (α : Type*) where
  | ready
  | listening
  | waiting
  | leaving
  | removed
  | returned (handed : Handed α)
deriving DecidableEq, Repr

/-- The listener is registered. -/
def CallPoint.registered {α : Type*} : CallPoint α → Bool
  | listening | waiting | leaving => true
  | _ => false

structure Call (α : Type*) where
  point : CallPoint α := .ready
  result : List α := []
  /-- The latch has been counted down. -/
  signalled : Bool := false

/-- The alert the loop is delivering, whether to the slot of its type, and the listeners it is still
    to call there. -/
structure Dispatch (α : Type*) where
  alert : Reply α
  ownSlot : Bool
  left : List ListenerId

structure State (α : Type*) where
  slots : Listeners := fun _ => none
  loop : Option (Dispatch α) := none
  calls : ListenerId → Call α := fun _ => {}

/-- What the threads do. The alerts of temporary torrents, which are not delivered, are left out. -/
inductive Event (α : Type*) where
  | add (i : ListenerId)
  /-- The native call, which may throw. -/
  | ask (i : ListenerId) (ok : Bool)
  /-- `await` returns, because of the signal or without it. -/
  | wake (i : ListenerId) (signal : Bool)
  | remove (i : ListenerId)
  | get (i : ListenerId)
  /-- Another listener is added to a slot, or removed. -/
  | modify (add : Bool) (listener : ListenerId) (type : Nat)
  | take (a : Reply α)
  | call (throws : Bool)
  | next

variable {α : Type*} (requests : ListenerId → Option Request)

namespace State

def setCall (s : State α) (i : ListenerId) (c : Call α) : State α :=
  { s with calls := Function.update s.calls i c }

/-- The loop's call of a listener; that of a request does not throw. -/
def hear (s : State α) (d : Dispatch α) (i : ListenerId) (rest : List ListenerId) (throws : Bool) :
    State α :=
  match requests i with
  | some r => setCall { s with loop := some { d with left := rest } } i { s.calls i with
      result := r.keep (s.calls i).result d.alert
      signalled := (s.calls i).signalled || r.fits d.alert }
  | none => { s with loop := some { d with left := if throws then [] else rest } }

/-- After the slot of the alert's type comes that of all types. -/
def secondSlot (s : State α) (a : Reply α) : Option (Dispatch α) :=
  if isSpecialType a.type then none else some ⟨a, false, leavesOf (s.slots numAlertTypes)⟩

def step (s : State α) : Event α → Option (State α)
  | .add i =>
      match requests i, (s.calls i).point with
      | some r, .ready => some (setCall { s with slots := modifySlot true i s.slots r.type } i
          { s.calls i with point := .listening })
      | _, _ => none
  | .ask i ok =>
      match (s.calls i).point with
      | .listening => some (s.setCall i
          { s.calls i with point := if ok then .waiting else .leaving })
      | _ => none
  | .wake i signal =>
      match (s.calls i).point with
      | .waiting => if signal && !(s.calls i).signalled then none
          else some (s.setCall i { s.calls i with point := .leaving })
      | _ => none
  | .remove i =>
      match requests i, (s.calls i).point with
      | some r, .leaving => some (setCall { s with slots := modifySlot false i s.slots r.type } i
          { s.calls i with point := .removed })
      | _, _ => none
  | .get i =>
      match requests i, (s.calls i).point with
      | some r, .removed => some (s.setCall i
          { s.calls i with point := .returned (r.hand (s.calls i).result) })
      | _, _ => none
  | .modify add listener type =>
      if (requests listener).isSome then none
      else some { s with slots := modifySlot add listener s.slots type }
  | .take a =>
      match s.loop with
      | none => some { s with loop := some ⟨a, true, leavesOf (s.slots a.type)⟩ }
      | some _ => none
  | .call throws =>
      match s.loop with
      | some ⟨a, own, i :: rest⟩ =>
          if (requests i).isSome && throws then none
          else some (s.hear requests ⟨a, own, i :: rest⟩ i rest throws)
      | _ => none
  | .next =>
      match s.loop with
      | some ⟨a, true, []⟩ => some { s with loop := s.secondSlot a }
      | some ⟨_, false, []⟩ => some { s with loop := none }
      | _ => none

end State

/-- Any order of steps, from no listeners at all. -/
def run (events : List (Event α)) : Option (State α) := events.foldlM (State.step requests) {}

/-! ## Windows -/

/-- Whether the request is registered, and the alerts of its type that have been taken while it
    was. -/
def windowStep (i : ListenerId) (r : Request) : Bool × List (Reply α) → Event α →
    Bool × List (Reply α)
  | (isOpen, taken), .add j => (isOpen || decide (j = i), taken)
  | (isOpen, taken), .remove j => (isOpen && decide (j ≠ i), taken)
  | (isOpen, taken), .take a => (isOpen, if isOpen && a.type = r.type then taken ++ [a] else taken)
  | window, _ => window

def windows (i : ListenerId) (r : Request) (events : List (Event α)) : Bool × List (Reply α) :=
  events.foldl (windowStep i r) (false, [])

/-- The alerts that are dispatched while the request is registered for them. -/
def window (i : ListenerId) (r : Request) (events : List (Event α)) : List (Reply α) :=
  (windows i r events).2

def Event.throws : Event α → Bool
  | .call throws => throws
  | _ => false

/-- The alert that is on its way to the listener. -/
def State.coming (s : State α) (i : ListenerId) : List (Reply α) :=
  match s.loop with
  | some d => if i ∈ d.left then [d.alert] else []
  | none => []

/-- The registrations of all other listeners. -/
def othersStep (registered : Registrations) : Event α → Registrations
  | .modify add listener type => Function.update registered type
      (if add then registered type ++ [listener] else unregister listener (registered type))
  | _ => registered

def others (events : List (Event α)) : Registrations := events.foldl othersStep fun _ => []

/-! ## What a request has heard -/

theorem windows_concat (i : ListenerId) (r : Request) (events : List (Event α)) (e : Event α) :
    windows i r (events ++ [e]) = windowStep i r (windows i r events) e := by
  simp [windows]

/-! ### Slots -/

theorem count_unregister (i j : ListenerId) (registered : List ListenerId) :
    (unregister j registered).count i = registered.count i - if i = j then 1 else 0 := by
  unfold unregister
  rw [List.count_reverse]
  by_cases heq : i = j
  · simp [heq]
  · simp [heq, List.count_erase_of_ne]

/-- Registrations of others are not taken out. -/
theorem filter_unregister (p : ListenerId → Bool) (j : ListenerId) (registered : List ListenerId) :
    (unregister j registered).filter p =
      if p j then unregister j (registered.filter p) else registered.filter p := by
  unfold unregister
  rw [List.filter_reverse, ← List.erase_filter, List.filter_reverse]
  split
  · rfl
  · rename_i hp
    rw [List.erase_of_not_mem (by simp [hp]), List.reverse_reverse]

section Slots

variable {slots : Listeners} (h : ∀ type, SlotLeans (slots type)) (add : Bool) (j : ListenerId)
  (type : Nat)

include h

theorem leans_modifySlot (type' : Nat) : SlotLeans (modifySlot add j slots type type') :=
  (Represents.modifySlot ⟨h, fun _ => rfl⟩ add j type).leans type'

theorem leavesOf_modifySlot (type' : Nat) : leavesOf (modifySlot add j slots type type') =
    if type' = type then
      if add then leavesOf (slots type) ++ [j] else unregister j (leavesOf (slots type))
    else leavesOf (slots type') := by
  rw [(Represents.modifySlot ⟨h, fun _ => rfl⟩ add j type).leaves type', Function.update_apply]

theorem count_modifySlot {i : ListenerId} (hne : i ≠ j) (type' : Nat) :
    (leavesOf (modifySlot add j slots type type')).count i = (leavesOf (slots type')).count i := by
  rw [leavesOf_modifySlot h]
  split
  · rename_i heq
    subst heq
    cases add
    · simp [count_unregister, hne]
    · simp [hne.symm]
  · rfl

end Slots

/-- What request `i` has heard after these events, and what it has made of it. -/
structure Hears (events : List (Event α)) (s : State α) (i : ListenerId) (r : Request)
    (heard : List (Reply α)) : Prop where
  isOpen : (windows i r events).1 = (s.calls i).point.registered
  result : (s.calls i).result = r.collect heard
  signalled : (s.calls i).signalled = heard.any r.fits
  woken : .wake i true ∈ events → heard.any r.fits = true
  counted : ∀ type, (leavesOf (s.slots type)).count i =
    if (s.calls i).point.registered = true ∧ type = r.type then 1 else 0
  once : ∀ d, s.loop = some d → d.left.count i ≤ 1
  taken : (heard ++ s.coming i).Sublist (window i r events)
  whole : (∀ e ∈ events, e.throws = false) → heard ++ s.coming i = window i r events
  returned : ∀ v, (s.calls i).point = .returned v → ∃ before later, heard = before ++ later ∧
    v = r.hand (r.collect before) ∧ (.wake i true ∈ events → before.any r.fits = true) ∧
    later.length + (s.coming i).length ≤ 1

theorem coming_le_one (s : State α) (i : ListenerId) : (s.coming i).length ≤ 1 := by
  unfold State.coming
  split
  · split <;> simp
  · simp

namespace Hears

variable {events : List (Event α)} {e : Event α} {s s' : State α} {i : ListenerId} {r : Request}
  {heard : List (Reply α)}

theorem start (i : ListenerId) (r : Request) : Hears [] ({} : State α) i r [] where
  isOpen := rfl
  result := rfl
  signalled := rfl
  woken h := by cases h
  counted _ := rfl
  once _ h := by cases h
  taken := List.Sublist.refl _
  whole _ := rfl
  returned _ h := by cases h

/-- Steps that neither begin nor end the window and bring nothing. -/
theorem keeps (h : Hears events s i r heard)
    (hwindow : ∀ w : Bool × List (Reply α), windowStep i r w e = w)
    (hwoken : e = .wake i true → (s.calls i).signalled = true ∧
      ∀ v, (s'.calls i).point ≠ .returned v)
    (hresult : (s'.calls i).result = (s.calls i).result)
    (hsignalled : (s'.calls i).signalled = (s.calls i).signalled)
    (hregistered : (s'.calls i).point.registered = (s.calls i).point.registered)
    (hreturned : ∀ v, (s'.calls i).point = .returned v →
      (s.calls i).point = .returned v ∨ v = r.hand (s.calls i).result)
    (hcounted : ∀ type, (leavesOf (s'.slots type)).count i = (leavesOf (s.slots type)).count i)
    (honce : ∀ d, s'.loop = some d → d.left.count i ≤ 1) (hcoming : s'.coming i = s.coming i) :
    Hears (events ++ [e]) s' i r heard := by
  have hsame : window i r (events ++ [e]) = window i r events :=
    congrArg Prod.snd ((windows_concat i r events e).trans (hwindow _))
  have hwoken' : .wake i true ∈ events ++ [e] → heard.any r.fits = true := by
    intro hmem
    rcases List.mem_append.mp hmem with hmem | hmem
    · exact h.woken hmem
    · rw [← h.signalled]
      exact (hwoken (List.mem_singleton.mp hmem).symm).1
  refine ⟨?_, hresult.trans h.result, hsignalled.trans h.signalled, hwoken', fun type => ?_, honce,
    ?_, fun hno => ?_, fun v hv => ?_⟩
  · rw [windows_concat, hwindow, hregistered, h.isOpen]
  · rw [hcounted, h.counted, hregistered]
  · rw [hcoming, hsame]
    exact h.taken
  · rw [hcoming, hsame]
    exact h.whole fun e' he' => hno e' (List.mem_append_left _ he')
  · rw [hcoming]
    rcases hreturned v hv with hold | rfl
    · obtain ⟨before, later, hheard, hvalue, hbefore, hlater⟩ := h.returned v hold
      refine ⟨before, later, hheard, hvalue, fun hmem => ?_, hlater⟩
      rcases List.mem_append.mp hmem with hmem | hmem
      · exact hbefore hmem
      · exact absurd hv ((hwoken (List.mem_singleton.mp hmem).symm).2 v)
    · exact ⟨heard, [], (List.append_nil _).symm, congrArg r.hand h.result, hwoken',
        by simpa using coming_le_one s i⟩

/-- A call goes on, or the registrations of others change. -/
theorem keeps_call (h : Hears events s i r heard)
    (hwindow : ∀ w : Bool × List (Reply α), windowStep i r w e = w) {slots : Listeners}
    {j : ListenerId} {c : Call α}
    (hcounted : ∀ type, (leavesOf (slots type)).count i = (leavesOf (s.slots type)).count i)
    (hwoken : e = .wake i true → i = j ∧ (s.calls i).signalled = true ∧ ∀ v, c.point ≠ .returned v)
    (hc : i = j → c.result = (s.calls i).result ∧ c.signalled = (s.calls i).signalled ∧
      c.point.registered = (s.calls i).point.registered ∧
      ∀ v, c.point = .returned v → v = r.hand (s.calls i).result) :
    Hears (events ++ [e]) (State.setCall { s with slots := slots } j c) i r heard := by
  by_cases heq : i = j
  · subst heq
    obtain ⟨hresult, hsignalled, hregistered, hreturned⟩ := hc rfl
    have hcall : (State.setCall { s with slots := slots } i c).calls i = c :=
      Function.update_self ..
    refine h.keeps hwindow ?_ ?_ ?_ ?_ ?_ hcounted h.once rfl <;> rw [hcall]
    · exact fun he => (hwoken he).2
    · exact hresult
    · exact hsignalled
    · exact hregistered
    · exact fun v hv => Or.inr (hreturned v hv)
  · have hcall : (State.setCall { s with slots := slots } j c).calls i = s.calls i :=
      Function.update_of_ne heq ..
    refine h.keeps hwindow (fun he => absurd (hwoken he).1 heq) ?_ ?_ ?_ ?_ hcounted h.once rfl <;>
      rw [hcall]
    exact fun v hv => Or.inl hv

theorem mem_slot_iff (h : Hears events s i r heard) (type : Nat) :
    i ∈ leavesOf (s.slots type) ↔ (s.calls i).point.registered = true ∧ type = r.type := by
  rw [← List.count_pos_iff, h.counted]
  split <;> simp [*]

/-- The request's listener is registered, or taken out. -/
theorem modifies (h : Hears events s i r heard) (hleans : ∀ type, SlotLeans (s.slots type))
    (add : Bool) {p : CallPoint α} (hwindow : ∀ w : Bool × List (Reply α),
      windowStep i r w e = (add, w.2)) (he : e ≠ .wake i true)
    (hbefore : (s.calls i).point.registered = !add)
    (hp : p.registered = add) (hnot : ∀ v, p ≠ .returned v) :
    Hears (events ++ [e]) (State.setCall { s with slots := modifySlot add i s.slots r.type } i
      { s.calls i with point := p }) i r heard := by
  have hcall : (State.setCall { s with slots := modifySlot add i s.slots r.type } i
      { s.calls i with point := p }).calls i = { s.calls i with point := p } :=
    Function.update_self ..
  have hsame : window i r (events ++ [e]) = window i r events := by
    rw [window, windows_concat, hwindow, window]
  refine ⟨?_, ?_, ?_, fun hmem => ?_, fun type => ?_, h.once, hsame ▸ h.taken, fun hno => ?_,
    fun v hv => ?_⟩
  · rw [windows_concat, hwindow, hcall, hp]
  · rw [hcall]
    exact h.result
  · rw [hcall]
    exact h.signalled
  · exact h.woken
      ((List.mem_append.mp hmem).resolve_right fun h => he (List.mem_singleton.mp h).symm)
  · have hcount := h.counted type
    rw [hbefore] at hcount
    change (leavesOf (modifySlot add i s.slots r.type type)).count i = _
    rw [leavesOf_modifySlot hleans, hcall]
    dsimp only
    rw [hp]
    by_cases htype : type = r.type
    · subst htype
      cases add <;> simp_all [count_unregister]
    · simpa [htype] using hcount
  · rw [hsame]
    exact h.whole fun e he => hno e (List.mem_append_left _ he)
  · rw [hcall] at hv
    exact absurd hv (hnot v)

/-- The loop takes the listeners out of the slot, and with them the request if it is there. -/
theorem take (h : Hears events s i r heard) (hidle : s.loop = none) (a : Reply α) :
    Hears (events ++ [.take a]) { s with loop := some ⟨a, true, leavesOf (s.slots a.type)⟩ } i r
      heard := by
  have hnothing : s.coming i = [] := by
    unfold State.coming
    rw [hidle]
  have hopen := h.isOpen
  have hcoming : State.coming { s with loop := some ⟨a, true, leavesOf (s.slots a.type)⟩ } i =
      if (s.calls i).point.registered = true ∧ a.type = r.type then [a] else [] := by
    unfold State.coming
    exact if_congr (h.mem_slot_iff a.type) rfl rfl
  have hwindow : window i r (events ++ [.take a]) = window i r events ++
      if (s.calls i).point.registered = true ∧ a.type = r.type then [a] else [] := by
    rw [window, windows_concat, windowStep, hopen, window]
    split <;> simp_all
  have htaken := h.taken
  rw [hnothing, List.append_nil] at htaken
  have hwoken : .wake i true ∈ events ++ [.take a] ↔ .wake i true ∈ events := by simp
  refine ⟨?_, h.result, h.signalled, h.woken ∘ hwoken.mp, h.counted, fun d hd => ?_, ?_,
    fun hno => ?_,
    fun v hv => ?_⟩
  · rw [windows_concat]
    exact hopen
  · cases hd
    rw [h.counted]
    split <;> simp
  · rw [hcoming, hwindow]
    exact htaken.append_right _
  · have hwhole := h.whole fun e he => hno e (List.mem_append_left _ he)
    rw [hnothing, List.append_nil] at hwhole
    rw [hcoming, hwindow, hwhole]
  · obtain ⟨before, later, hheard, hvalue, hbefore, hlater⟩ := h.returned v hv
    refine ⟨before, later, hheard, hvalue, hbefore ∘ hwoken.mp, ?_⟩
    have hv : (s.calls i).point = .returned v := hv
    rw [hcoming, hv]
    simpa [hnothing, CallPoint.registered] using hlater

section Calls

variable {a : Reply α} {own throws : Bool} {rest : List ListenerId}

theorem window_call (events : List (Event α)) (throws : Bool) (i : ListenerId) (r : Request) :
    window i r (events ++ [.call throws]) = window i r events := by
  rw [window, windows_concat]
  rfl

theorem wake_mem_call (events : List (Event α)) (throws : Bool) (i : ListenerId) :
    .wake i true ∈ events ++ [.call throws] ↔ .wake i true ∈ events := by
  simp

/-- The request hears the alert that was on its way. -/
theorem hear (h : Hears events s i r heard) (hloop : s.loop = some ⟨a, own, i :: rest⟩)
    (hr : requests i = some r) :
    Hears (events ++ [.call throws]) (s.hear requests ⟨a, own, i :: rest⟩ i rest throws) i r
      (heard ++ [a]) := by
  have honce : rest.count i = 0 := by
    have := h.once _ hloop
    simpa using this
  have hcoming : s.coming i = [a] := by
    simp [State.coming, hloop]
  have hnothing : State.coming { s with loop := some ⟨a, own, rest⟩ } i = [] := by
    have hnot : i ∉ rest := List.count_eq_zero.mp honce
    simp [State.coming, hnot]
  have hwindow := window_call events throws i r
  have hwoken := wake_mem_call events throws i
  have htaken := h.taken
  rw [hcoming] at htaken
  unfold State.hear
  rw [hr]
  dsimp only
  have hcall : ∀ c, (State.setCall { s with loop := some ⟨a, own, rest⟩ } i c).calls i = c :=
    fun c => Function.update_self ..
  refine ⟨?_, ?_, ?_, fun hmem => ?_, ?_, fun d hd => ?_, ?_, fun hno => ?_, fun v hv => ?_⟩
  · rw [windows_concat, hcall]
    exact h.isOpen
  · rw [hcall, r.collect_concat, ← h.result]
  · rw [hcall, List.any_append, ← h.signalled]
    simp
  · rw [List.any_append, h.woken (hwoken.mp hmem), Bool.true_or]
  · rw [hcall]
    exact h.counted
  · cases hd
    exact honce.le.trans (Nat.zero_le 1)
  · change (heard ++ [a] ++ State.coming { s with loop := some ⟨a, own, rest⟩ } i).Sublist _
    rwa [hnothing, List.append_nil, hwindow]
  · change heard ++ [a] ++ State.coming { s with loop := some ⟨a, own, rest⟩ } i = _
    rw [hnothing, List.append_nil, hwindow, ← h.whole fun e he => hno e (List.mem_append_left _ he),
      hcoming]
  · rw [hcall] at hv
    obtain ⟨before, later, hheard, hvalue, hbefore, hlater⟩ := h.returned v hv
    rw [hcoming] at hlater
    refine ⟨before, later ++ [a], by rw [hheard, List.append_assoc], hvalue, hbefore ∘ hwoken.mp,
      ?_⟩
    change (later ++ [a]).length +
      (State.coming { s with loop := some ⟨a, own, rest⟩ } i).length ≤ 1
    rw [hnothing]
    simpa using hlater

/-- A listener has thrown, and what was on its way to the request is lost. -/
theorem lose (h : Hears events s i r heard) :
    Hears (events ++ [.call true]) { s with loop := some ⟨a, own, []⟩ } i r heard := by
  have hnothing : State.coming { s with loop := some ⟨a, own, []⟩ } i = [] := by
    simp [State.coming]
  have hwoken := wake_mem_call events true i
  refine ⟨?_, h.result, h.signalled, h.woken ∘ hwoken.mp, h.counted, fun d hd => ?_, ?_,
    fun hno => ?_,
    fun v hv => ?_⟩
  · rw [windows_concat]
    exact h.isOpen
  · cases hd
    exact Nat.zero_le 1
  · rw [hnothing, window_call]
    exact ((List.prefix_append _ _).sublist).trans (by simpa using h.taken)
  · exact absurd (hno (.call true) (by simp)) (by simp [Event.throws])
  · obtain ⟨before, later, hheard, hvalue, hbefore, hlater⟩ := h.returned v hv
    refine ⟨before, later, hheard, hvalue, hbefore ∘ hwoken.mp, ?_⟩
    rw [hnothing]
    exact (Nat.le_add_right _ _).trans hlater

/-- The loop calls another listener. -/
theorem hear_other (h : Hears events s i r heard) {j : ListenerId}
    (hloop : s.loop = some ⟨a, own, j :: rest⟩) (hne : i ≠ j)
    (hthrows : ((requests j).isSome && throws) = false) :
    Hears (events ++ [.call throws]) (s.hear requests ⟨a, own, j :: rest⟩ j rest throws) i r
      heard := by
  have honce : ∀ d : Dispatch α, some ⟨a, own, rest⟩ = some d → d.left.count i ≤ 1 := by
    intro d hd
    cases hd
    have := h.once _ hloop
    simpa [hne.symm] using this
  have hcoming : State.coming { s with loop := some ⟨a, own, rest⟩ } i = s.coming i := by
    simp [State.coming, hloop, hne]
  unfold State.hear
  cases hj : requests j with
  | none =>
    cases throws with
    | true => exact h.lose
    | false =>
      exact h.keeps (fun _ => rfl) (fun he => by cases he) rfl rfl rfl (fun v hv => Or.inl hv)
        (fun _ => rfl) honce hcoming
  | some r' =>
    have hcall : ∀ c, (State.setCall { s with loop := some ⟨a, own, rest⟩ } j c).calls i =
      s.calls i := fun c => Function.update_of_ne hne ..
    refine h.keeps (fun _ => rfl) (fun he => by cases he) ?_ ?_ ?_ ?_
      (fun _ => rfl) honce hcoming <;>
      rw [hcall]
    exact fun v hv => Or.inl hv

end Calls

end Hears

/-! ### Runs -/

/-- Every request has heard what it should, and the other listeners are where they were put. -/
structure Sound (events : List (Event α)) (s : State α) : Prop where
  leans : ∀ type, SlotLeans (s.slots type)
  others : ∀ type, (leavesOf (s.slots type)).filter (fun j => (requests j).isNone) =
    others events type
  hears : ∀ i r, requests i = some r → ∃ heard, Hears events s i r heard

variable {requests} {events : List (Event α)} {s s' : State α} {e : Event α}

theorem sound_start : Sound requests [] ({} : State α) where
  leans _ := by rintro _ ⟨⟩
  others _ := rfl
  hears i r _ := ⟨[], .start i r⟩

theorem others_concat (events : List (Event α)) (e : Event α) :
    others (events ++ [e]) = othersStep (others events) e := by
  simp [others]

namespace Sound

/-- Steps that leave the slots alone. -/
theorem of_slots (h : Sound requests events s) (hslots : s'.slots = s.slots)
    (he : ∀ registered, othersStep registered e = registered)
    (hhears : ∀ i r heard, requests i = some r → Hears events s i r heard →
      ∃ heard', Hears (events ++ [e]) s' i r heard') : Sound requests (events ++ [e]) s' where
  leans type := hslots ▸ h.leans type
  others type := by rw [hslots, others_concat, he, h.others]
  hears i r hr := by
    obtain ⟨heard, hheard⟩ := h.hears i r hr
    exact hhears i r heard hr hheard

/-- The call's own steps between its registration and its removal, and after it. -/
theorem call_moves (h : Sound requests events s) {j : ListenerId} {p : CallPoint α}
    (hwindow : ∀ i r, ∀ w : Bool × List (Reply α), windowStep i r w e = w)
    (hothers : ∀ registered, othersStep registered e = registered)
    (hregistered : p.registered = (s.calls j).point.registered)
    (hreturned : ∀ r, requests j = some r → ∀ v, p = .returned v → v = r.hand (s.calls j).result)
    (hwoken : ∀ i, e = .wake i true → i = j ∧ (s.calls i).signalled = true ∧ ∀ v, p ≠ .returned v) :
    Sound requests (events ++ [e]) (s.setCall j { s.calls j with point := p }) := by
  refine h.of_slots rfl hothers fun i r heard hr hheard => ⟨heard, ?_⟩
  refine hheard.keeps_call (hwindow i r) (fun _ => rfl) (hwoken i) ?_
  rintro rfl
  exact ⟨rfl, rfl, hregistered, hreturned r hr⟩

/-- A request's listener is registered, or taken out. -/
theorem request_modifies (h : Sound requests events s) (add : Bool) {j : ListenerId} {r : Request}
    {p : CallPoint α} (hr : requests j = some r)
    (hwindow : ∀ i r, ∀ w : Bool × List (Reply α),
      windowStep i r w e = (if i = j then add else w.1, w.2))
    (hothers : ∀ registered, othersStep registered e = registered)
    (he : ∀ i, e ≠ .wake i true) (hbefore : (s.calls j).point.registered = !add)
    (hp : p.registered = add) (hnot : ∀ v, p ≠ .returned v) :
    Sound requests (events ++ [e])
      (State.setCall { s with slots := modifySlot add j s.slots r.type }
      j { s.calls j with point := p }) where
  leans := leans_modifySlot h.leans add j r.type
  others type := by
    rw [others_concat, hothers, ← h.others]
    change (leavesOf (modifySlot add j s.slots r.type type)).filter _ = _
    rw [leavesOf_modifySlot h.leans]
    split
    · rename_i htype
      subst htype
      cases add <;> simp [filter_unregister, hr]
    · rfl
  hears i r' hr' := by
    obtain ⟨heard, hheard⟩ := h.hears i r' hr'
    refine ⟨heard, ?_⟩
    by_cases heq : i = j
    · subst heq
      obtain rfl : r = r' := Option.some.inj (hr.symm.trans hr')
      refine hheard.modifies h.leans add (fun w => ?_) (he i) hbefore hp hnot
      rw [hwindow, if_pos rfl]
    · refine hheard.keeps_call (fun w => ?_) (count_modifySlot h.leans add j r.type heq)
        (fun hwake => absurd hwake (he i)) fun h => absurd h heq
      rw [hwindow, if_neg heq]

theorem modify (h : Sound requests events s) (add : Bool) {listener : ListenerId} (type : Nat)
    (hnot : requests listener = none) :
    Sound requests (events ++ [.modify add listener type])
      { s with slots := modifySlot add listener s.slots type } where
  leans := leans_modifySlot h.leans add listener type
  others type' := by
    rw [others_concat, othersStep, Function.update_apply, leavesOf_modifySlot h.leans, ← h.others,
      ← h.others]
    split
    · cases add <;> simp [filter_unregister, hnot]
    · rfl
  hears i r hr := by
    obtain ⟨heard, hheard⟩ := h.hears i r hr
    have hne : i ≠ listener := by
      rintro rfl
      rw [hnot] at hr
      cases hr
    exact ⟨heard, hheard.keeps (fun _ => rfl) (fun he => by cases he) rfl rfl rfl
      (fun v hv => Or.inl hv) (count_modifySlot h.leans add listener type hne) hheard.once rfl⟩

/-- The second slot has none of the requests in it. -/
theorem next_slot (h : Sound requests events s) {a : Reply α}
    (hloop : s.loop = some ⟨a, true, []⟩) :
    Sound requests (events ++ [.next]) { s with loop := s.secondSlot a } := by
  refine h.of_slots rfl (fun _ => rfl) fun i r heard _ hheard => ⟨heard, ?_⟩
  have hnot : (leavesOf (s.slots numAlertTypes)).count i = 0 := by
    rw [hheard.counted]
    exact if_neg fun ⟨_, htype⟩ => r.own htype.symm
  have honce : ∀ d, s.secondSlot a = some d → d.left.count i = 0 := by
    unfold State.secondSlot
    intro d hd
    split at hd
    · cases hd
    · cases hd
      exact hnot
  have hcoming : State.coming { s with loop := s.secondSlot a } i = s.coming i := by
    have hnothing : s.coming i = [] := by
      simp [State.coming, hloop]
    rw [hnothing]
    unfold State.coming
    dsimp only
    split
    · rename_i d hd
      exact if_neg (List.count_eq_zero.mp (honce d hd))
    · rfl
  exact hheard.keeps (fun _ => rfl) (fun he => by cases he) rfl rfl rfl (fun v hv => Or.inl hv)
    (fun _ => rfl) (fun d hd => (honce d hd).le.trans (Nat.zero_le 1)) hcoming

theorem next_alert (h : Sound requests events s) {a : Reply α}
    (hloop : s.loop = some ⟨a, false, []⟩) :
    Sound requests (events ++ [.next]) { s with loop := none } := by
  refine h.of_slots rfl (fun _ => rfl) fun i r heard _ hheard => ⟨heard, ?_⟩
  exact hheard.keeps (fun _ => rfl) (fun he => by cases he) rfl rfl rfl (fun v hv => Or.inl hv)
    (fun _ => rfl) (fun d hd => by cases hd) (by simp [State.coming, hloop])

end Sound

theorem Sound.step (h : Sound requests events s) (hstep : s.step requests e = some s') :
    Sound requests (events ++ [e]) s' := by
  cases e with
  | add j =>
    simp only [State.step] at hstep
    split at hstep
    · rename_i r hr hready
      cases hstep
      refine h.request_modifies true hr (fun i r w => ?_) (fun _ => rfl) (fun _ he => by cases he)
        (by rw [hready]; rfl) rfl (fun v hv => by cases hv)
      by_cases heq : i = j <;> simp [windowStep, heq, Ne.symm]
    · cases hstep
  | ask j ok =>
    simp only [State.step] at hstep
    split at hstep
    · rename_i hpoint
      cases hstep
      refine h.call_moves (fun _ _ _ => rfl) (fun _ => rfl) ?_ ?_ (fun _ he => by cases he)
      · rw [hpoint]
        cases ok <;> rfl
      · cases ok <;> rintro r - v ⟨⟩
    · cases hstep
  | wake j signal =>
    simp only [State.step] at hstep
    split at hstep
    · rename_i hpoint
      split at hstep
      · cases hstep
      · rename_i hsignal
        cases hstep
        refine h.call_moves (fun _ _ _ => rfl) (fun _ => rfl) (by rw [hpoint]; rfl)
          (fun _ _ v hv => by cases hv) fun i he => ?_
        cases he
        exact ⟨rfl, by simpa using hsignal, fun v hv => by cases hv⟩
    · cases hstep
  | remove j =>
    simp only [State.step] at hstep
    split at hstep
    · rename_i r hr hleaving
      cases hstep
      refine h.request_modifies false hr (fun i r w => ?_) (fun _ => rfl) (fun _ he => by cases he)
        (by rw [hleaving]; rfl) rfl (fun v hv => by cases hv)
      by_cases heq : i = j <;> simp [windowStep, heq, Ne.symm]
    · cases hstep
  | get j =>
    simp only [State.step] at hstep
    split at hstep
    · rename_i r hr hpoint
      cases hstep
      refine h.call_moves (fun _ _ _ => rfl) (fun _ => rfl) (by rw [hpoint]; rfl) ?_
        (fun _ he => by cases he)
      rintro r' hr' v ⟨⟩
      rw [Option.some.inj (hr.symm.trans hr')]
    · cases hstep
  | modify add listener type =>
    simp only [State.step] at hstep
    split at hstep
    · cases hstep
    · rename_i hnot
      cases hstep
      exact h.modify add type (by simpa using hnot)
  | take a =>
    simp only [State.step] at hstep
    split at hstep
    · rename_i hidle
      cases hstep
      exact h.of_slots rfl (fun _ => rfl) fun i r heard _ hheard => ⟨heard, hheard.take hidle a⟩
    · cases hstep
  | call throws =>
    simp only [State.step] at hstep
    split at hstep
    · rename_i a own j rest hloop
      split at hstep
      · cases hstep
      · rename_i hthrows
        cases hstep
        refine h.of_slots (by unfold State.hear; split <;> rfl) (fun _ => rfl)
          fun i r heard hr hheard => ?_
        by_cases heq : i = j
        · subst heq
          exact ⟨heard ++ [a], hheard.hear requests hloop hr⟩
        · exact ⟨heard, hheard.hear_other requests hloop heq (by simpa using hthrows)⟩
    · cases hstep
  | next =>
    simp only [State.step] at hstep
    split at hstep
    · rename_i a hloop
      cases hstep
      exact h.next_slot hloop
    · rename_i a hloop
      cases hstep
      exact h.next_alert hloop
    · cases hstep

theorem run_concat (requests : ListenerId → Option Request) (events : List (Event α))
    (e : Event α) :
    run requests (events ++ [e]) = (run requests events).bind fun s => s.step requests e := by
  simp only [run, List.foldlM_append, List.foldlM_cons, List.foldlM_nil, bind_pure]
  rfl

theorem sound_of_run (h : run requests events = some s) : Sound requests events s := by
  induction events using List.reverseRecOn generalizing s with
  | nil =>
    cases h
    exact sound_start
  | append_singleton events e ih =>
    rw [run_concat, Option.bind_eq_some_iff] at h
    obtain ⟨s₁, hs₁, hstep⟩ := h
    exact (ih hs₁).step hstep

/-- **What a request hears.** At any moment of any run it has heard a part of the alerts that were
    taken while it was registered, in their order, and all of them unless a listener has thrown.
    Its result is what these bring. What its caller gets is what they had brought by then, and at
    most one more alert ever comes to it, which a list of peers shows and an item does not; a caller
    woken up by the signal has an answer. -/
theorem heard_in_window (h : run requests events = some s) {i : ListenerId} {r : Request}
    (hr : requests i = some r) : ∃ heard,
      (heard ++ s.coming i).Sublist (window i r events) ∧
      ((∀ e ∈ events, e.throws = false) → heard ++ s.coming i = window i r events) ∧
      (s.calls i).result = r.collect heard ∧ (s.calls i).signalled = heard.any r.fits ∧
      ∀ v, (s.calls i).point = .returned v → ∃ before later, heard = before ++ later ∧
        v = r.hand (r.collect before) ∧
        v.now (s.calls i).result =
          (if r.keeping = .all then r.collect (before ++ later) else r.collect before) ∧
        (.wake i true ∈ events → before.any r.fits = true) ∧
        later.length + (s.coming i).length ≤ 1 := by
  obtain ⟨heard, hheard⟩ := (sound_of_run h).hears i r hr
  refine ⟨heard, hheard.taken, hheard.whole, hheard.result, hheard.signalled, fun v hv => ?_⟩
  obtain ⟨before, later, hsplit, rfl, hbefore, hlater⟩ := hheard.returned v hv
  refine ⟨before, later, hsplit, rfl, ?_, hbefore, hlater⟩
  rw [Handed.now_hand, hheard.result, hsplit]

namespace TooLate

/-- A request for peers; listener 1 is the user's. -/
def asked : ListenerId → Option Request
  | 0 => some (dhtGetPeers [7])
  | _ => none

def reply : Reply Nat := ⟨87, .sha1 [7], [5, 6]⟩

/-- The time is over while the loop is calling the user's listener. -/
def history : List (Event Nat) :=
  [.modify true 1 87, .add 0, .ask 0 true, .take reply, .wake 0 false, .remove 0, .get 0,
    .call false, .call false]

theorem isSome_run : (run asked history).isSome = true := by decide +kernel

def state : State Nat := (run asked history).get isSome_run

theorem heard_in_window_too_late : (state.calls 0).point = .returned (.list []) ∧
    ∃ before later, before ++ later = [reply] ∧ (dhtGetPeers [7]).collect before = [] ∧
      (Handed.list []).now (state.calls 0).result = [5, 6] := by
  have hrun : run asked history = some state := (Option.some_get isSome_run).symm
  have hpoint : (state.calls 0).point = .returned (.list []) := by decide +kernel
  obtain ⟨heard, -, hwhole, -, -, hreturned⟩ := heard_in_window hrun (i := 0) rfl
  obtain ⟨before, later, hsplit, hgiven, hnow, -⟩ := hreturned _ hpoint
  have hnothing : state.coming 0 = [] := by decide +kernel
  have hno : ∀ e ∈ history, e.throws = false := by decide +kernel
  have hheard : before ++ later = [reply] := by
    rw [← hsplit, ← List.append_nil heard, ← hnothing, hwhole hno]
    decide +kernel
  refine ⟨hpoint, before, later, hheard, ?_, ?_⟩
  · exact (Handed.list.inj hgiven).symm
  · rw [hnow, hheard]
    exact (if_pos rfl).trans (by decide +kernel)

end TooLate

/-- **Requests leave nothing behind.** However the calls end, the listeners of requests that are not
    under way are in no slot, the others are in their slots as they were put there, and when no
    request is under way there is nobody else. -/
theorem nothing_left_behind (h : run requests events = some s) (type : Nat) :
    (leavesOf (s.slots type)).filter (fun j => (requests j).isNone) = others events type ∧
      (∀ i r, requests i = some r → (leavesOf (s.slots type)).count i =
        if (s.calls i).point.registered = true ∧ type = r.type then 1 else 0) ∧
      ((∀ i r, requests i = some r → (s.calls i).point.registered = false) →
        leavesOf (s.slots type) = others events type) := by
  have hsound := sound_of_run h
  have hcounted : ∀ i r, requests i = some r → (leavesOf (s.slots type)).count i =
      if (s.calls i).point.registered = true ∧ type = r.type then 1 else 0 := by
    intro i r hr
    obtain ⟨heard, hheard⟩ := hsound.hears i r hr
    exact hheard.counted type
  refine ⟨hsound.others type, hcounted, fun hnone => ?_⟩
  rw [← hsound.others type, eq_comm, List.filter_eq_self]
  intro j hj
  cases hr : requests j with
  | none => rfl
  | some r =>
    have hzero := hcounted j r hr
    rw [hnone j r hr] at hzero
    exact absurd hj (List.count_eq_zero.mp (by simpa using hzero))

namespace TooLate

theorem nothing_left_behind_too_late : leavesOf (state.slots 87) = [1] := by
  have hrun : run asked history = some state := (Option.some_get isSome_run).symm
  have hnone : ∀ i r, asked i = some r → (state.calls i).point.registered = false := by
    intro i r hr
    cases i with
    | zero => decide +kernel
    | succ i => cases hr
  rw [(nothing_left_behind hrun 87).2.2 hnone]
  decide +kernel

end TooLate

end Dht
end Session
end Libtorrent4j
