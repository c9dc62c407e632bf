import Mathlib.Tactic

/-!
# Peer hints

`magnetPeers` is put together from three fields that two kinds of alerts fill:
`externalAddress` by `EXTERNAL_IP`, `externalPort` by `LISTEN_SUCCEEDED`, and the map
`listenEndpoints` by `LISTEN_SUCCEEDED` too. `resetState` separates the sessions, and it clears
the first and the third. **The port survives**: an external address that is reported before the
new session has listened on an IPv4 address is paired with the port of a session stopped before.

`hints_current_iff` says when that does not happen, for every history of starts, stops and
alerts. `reflectsTcp_iff` is about the second and the third field in one session: they are meant
for the TCP listeners, and the filter on the socket type is the wrong way round.
-/

namespace Libtorrent4j
namespace Session

/-- What the code asks of a native address. -/
structure Address where
  text : String
  isV4 : Bool
  isV6 : Bool
  isLoopback : Bool := false
  isMulticast : Bool := false
  isUnspecified : Bool := false
deriving DecidableEq, Repr

/-- The two kinds of alerts that carry addresses. -/
inductive PeerAlert where
  | listenSucceeded (tcp : Bool) (address : Address) (port : Int)
  | externalIp (address : Address)
deriving DecidableEq, Repr

/-- One `&x.pe=` part of a magnet link. -/
structure Hint where
  address : String
  port : Int
deriving DecidableEq, Repr

/-- `address:port`, as it is joined into the string. -/
def Hint.text (hint : Hint) : String := hint.address ++ ":" ++ toString hint.port

/-- The fields of `SessionManager` in use; `running` stands for `session != null`. The map keeps
    what the text of an endpoint is made of. -/
structure Manager where
  running : Bool := false
  listenEndpoints : List (String × Hint) := []
  externalAddress : Option String := none
  externalPort : Int := 0
deriving DecidableEq, Repr

/-- `HashMap.put`. -/
def put (map : List (String × Hint)) (key : String) (value : Hint) : List (String × Hint) :=
  (key, value) :: map.filter (·.1 != key)

/-- An IPv6 address is put in brackets. -/
def Address.endpoint (addr : Address) : String :=
  if addr.isV6 then "[" ++ addr.text ++ "]" else addr.text

namespace Manager

/-- `resetState`, as far as the hints go. -/
def resetState (m : Manager) : Manager :=
  { m with listenEndpoints := [], externalAddress := none }

/-- `onListenSucceeded`: an endpoint is stored unless the socket is TCP. -/
def onListenSucceeded (m : Manager) (tcp : Bool) (addr : Address) (port : Int) : Manager :=
  if tcp then m
  else
    let m := if addr.isV4 then { m with externalPort := port } else m
    if addr.isLoopback || addr.isMulticast || addr.isUnspecified then m
    else if "127.".isPrefixOf addr.text || "fe80::".isPrefixOf addr.text then m
    else { m with
      listenEndpoints := put m.listenEndpoints addr.text { address := addr.endpoint, port } }

/-- `onExternalIpAlert`: IPv4 only. -/
def onExternalIpAlert (m : Manager) (addr : Address) : Manager :=
  if addr.isV4 then { m with externalAddress := some addr.text } else m

def onAlert (m : Manager) : PeerAlert → Manager
  | .listenSucceeded tcp addr port => m.onListenSucceeded tcp addr port
  | .externalIp addr => m.onExternalIpAlert addr

/-- A session begins with what `resetState` leaves. -/
def start (m : Manager) : Manager :=
  if m.running then m else { m.resetState with running := true }

/-- The alerts loop has ended before the fields are reset. -/
def stop (m : Manager) : Manager :=
  if m.running then { m with running := false }.resetState else m

/-- The parts of the result, in order. -/
def hints (m : Manager) : List Hint :=
  (match m.externalAddress with
    | some address => if 0 < m.externalPort then [{ address, port := m.externalPort }] else []
    | none => []) ++ m.listenEndpoints.map Prod.snd

/-- `magnetPeers`: each hint as a parameter of the uri. -/
def magnetPeers (m : Manager) : String :=
  if m.running then String.join (m.hints.map fun hint => "&x.pe=" ++ hint.text) else ""

end Manager

/-- What the hints depend on, in the order it happens. -/
inductive PeerEvent where
  | start
  | stop
  | alert (alert : PeerAlert)
deriving DecidableEq, Repr

/-- There is an alerts loop only while a session runs. -/
def Manager.act (m : Manager) : PeerEvent → Manager
  | .start => m.start
  | .stop => m.stop
  | .alert alert => if m.running then m.onAlert alert else m

/-! ## What a history has reported -/

/-- The IPv4 port an alert reports to listen on. -/
def PeerAlert.v4Port : PeerAlert → Option Int
  | .listenSucceeded tcp addr port => if tcp = false ∧ addr.isV4 = true then some port else none
  | .externalIp _ => none

/-- A manager and what it has been told: the alerts of the session that runs, and the last IPv4
    port reported in any session. -/
structure Reported where
  manager : Manager := {}
  session : List PeerAlert := []
  lastPort : Int := 0

def Reported.act (r : Reported) (event : PeerEvent) : Reported where
  manager := r.manager.act event
  session :=
    match event with
    | .start => if r.manager.running then r.session else []
    | .stop => []
    | .alert alert => if r.manager.running then r.session ++ [alert] else r.session
  lastPort :=
    match event with
    | .alert alert => if r.manager.running then alert.v4Port.getD r.lastPort else r.lastPort
    | _ => r.lastPort

def Reported.run (events : List PeerEvent) : Reported := events.foldl Reported.act {}

/-- The ghost fields change nothing of the manager. -/
theorem Reported.run_manager (events : List PeerEvent) :
    (Reported.run events).manager = events.foldl Manager.act {} := by
  suffices key : ∀ r : Reported,
      (events.foldl Reported.act r).manager = events.foldl Manager.act r.manager from key {}
  induction events with
  | nil => exact fun _ => rfl
  | cons event rest ih => exact fun r => ih (r.act event)

/-- The alert names the address. -/
def PeerAlert.SuppliesAddress (address : String) : PeerAlert → Prop
  | .listenSucceeded tcp addr _ => tcp = false ∧ addr.endpoint = address
  | .externalIp addr => addr.isV4 = true ∧ addr.text = address

/-- The alert names the port. -/
def PeerAlert.SuppliesPort (port : Int) : PeerAlert → Prop
  | .listenSucceeded tcp _ port' => tcp = false ∧ port' = port
  | .externalIp _ => False

/-- Both parts of the hint come from alerts of the session. -/
def Hint.From (session : List PeerAlert) (hint : Hint) : Prop :=
  (∃ alert ∈ session, alert.SuppliesAddress hint.address) ∧
    ∃ alert ∈ session, alert.SuppliesPort hint.port

/-- Every hint is one that the running session has reported. -/
def Manager.HintsCurrent (m : Manager) (session : List PeerAlert) : Prop :=
  m.running = true → ∀ hint ∈ m.hints, hint.From session

/-- What `magnetPeers` writes out: the hints are current when all of its parts are. -/
theorem Manager.magnetPeers_parts (m : Manager) (session : List PeerAlert) :
    ∃ parts : List Hint,
      m.magnetPeers = String.join (parts.map fun hint => "&x.pe=" ++ hint.text) ∧
        (m.HintsCurrent session ↔ ∀ hint ∈ parts, hint.From session) := by
  cases hrun : m.running with
  | false =>
    refine ⟨[], by rw [magnetPeers, hrun]; rfl, ?_⟩
    simp [HintsCurrent, hrun]
  | true =>
    refine ⟨m.hints, by rw [magnetPeers, hrun]; rfl, ?_⟩
    simp [HintsCurrent, hrun]

/-- More alerts make no hint stale. -/
theorem Hint.From.mono {session session' : List PeerAlert} {hint : Hint}
    (h : hint.From session) (hsub : session ⊆ session') : hint.From session' := by
  obtain ⟨⟨a, ha, haddress⟩, b, hb, hport⟩ := h
  exact ⟨⟨a, hsub ha, haddress⟩, b, hsub hb, hport⟩

/-! ## The invariant -/

/-- The session has reported an external IPv4 address. -/
def ExternalReported (session : List PeerAlert) : Prop :=
  ∃ addr : Address, addr.isV4 = true ∧ PeerAlert.externalIp addr ∈ session

/-- What the fields are: the endpoints and the address are the session's, the port is the last
    one of any session. -/
structure Reported.Inv (r : Reported) : Prop where
  stopped : r.manager.running = false → r.session = []
  port : r.manager.externalPort = r.lastPort
  endpoints : ∀ entry ∈ r.manager.listenEndpoints, entry.2.From r.session
  address : ∀ address, r.manager.externalAddress = some address →
    ∃ alert ∈ r.session, alert.SuppliesAddress address
  reported : r.manager.externalAddress ≠ none ↔ ExternalReported r.session

theorem not_externalReported_nil : ¬ ExternalReported [] := by
  rintro ⟨addr, -, h⟩
  cases h

theorem Reported.inv_initial : Reported.Inv {} := by
  refine ⟨fun _ => rfl, rfl, ?_, ?_, ?_⟩
  · rintro _ ⟨⟩
  · rintro _ ⟨⟩
  · simp [not_externalReported_nil]

/-- One more alert. -/
theorem externalReported_append {session : List PeerAlert} {alert : PeerAlert} :
    ExternalReported (session ++ [alert]) ↔ ExternalReported session ∨
      ∃ addr : Address, addr.isV4 = true ∧ alert = .externalIp addr := by
  simp only [ExternalReported, List.mem_append, List.mem_singleton, and_or_left, exists_or, eq_comm]

/-- A listen alert that is not TCP changes the port and the endpoints, and nothing else. -/
theorem Manager.onListenSucceeded_spec (m : Manager) (addr : Address) (port : Int) :
    let m' := m.onListenSucceeded false addr port
    m'.running = m.running ∧ m'.externalAddress = m.externalAddress ∧
      m'.externalPort = (if addr.isV4 then port else m.externalPort) ∧
      ∀ entry ∈ m'.listenEndpoints, entry ∈ m.listenEndpoints ∨
        entry.2 = { address := addr.endpoint, port } := by
  unfold Manager.onListenSucceeded
  rw [if_neg Bool.false_ne_true]
  have hput : ∀ entry ∈ put m.listenEndpoints addr.text { address := addr.endpoint, port },
      entry ∈ m.listenEndpoints ∨ entry.2 = { address := addr.endpoint, port } := by
    intro entry hentry
    rcases List.mem_cons.mp hentry with rfl | hentry
    · exact Or.inr rfl
    · exact Or.inl (List.mem_filter.mp hentry).1
  cases addr.isV4 <;> dsimp only <;> (repeat' split) <;>
    first
      | exact ⟨rfl, rfl, rfl, fun _ h => Or.inl h⟩
      | exact ⟨rfl, rfl, rfl, hput⟩

namespace Reported

variable {r : Reported}

/-- The loop's turn for a listen alert. -/
theorem Inv.listenSucceeded (h : r.Inv) (hrun : r.manager.running = true) (addr : Address)
    (port : Int) : (r.act (.alert (.listenSucceeded false addr port))).Inv := by
  obtain ⟨hrunning, haddress, hport, hendpoints⟩ := r.manager.onListenSucceeded_spec addr port
  have hsub : r.session ⊆ r.session ++ [.listenSucceeded false addr port] :=
    List.subset_append_left _ _
  have hnew : .listenSucceeded false addr port ∈ r.session ++ [.listenSucceeded false addr port] :=
    List.mem_append_right _ List.mem_cons_self
  refine ⟨?_, ?_, ?_, ?_, ?_⟩ <;>
    simp only [act, Manager.act, hrun, if_true, Manager.onAlert, PeerAlert.v4Port, true_and]
  · rw [hrunning, hrun]
    simp
  · rw [hport, h.port]
    cases addr.isV4 <;> rfl
  · intro entry hentry
    rcases hendpoints entry hentry with hold | hentry
    · exact (h.endpoints entry hold).mono hsub
    · rw [hentry]
      exact ⟨⟨_, hnew, rfl, rfl⟩, _, hnew, rfl, rfl⟩
  · rw [haddress]
    intro address hsome
    obtain ⟨alert, halert, hsupplies⟩ := h.address address hsome
    exact ⟨alert, hsub halert, hsupplies⟩
  · rw [haddress, h.reported, externalReported_append]
    simp

/-- The loop's turn for an external address. -/
theorem Inv.externalIp (h : r.Inv) (hrun : r.manager.running = true) (addr : Address) :
    (r.act (.alert (.externalIp addr))).Inv := by
  have hsub : r.session ⊆ r.session ++ [.externalIp addr] := List.subset_append_left _ _
  refine ⟨?_, ?_, ?_, ?_, ?_⟩ <;>
    simp only [act, Manager.act, hrun, if_true, Manager.onAlert, Manager.onExternalIpAlert,
      PeerAlert.v4Port, Option.getD_none]
  · split <;> simp [hrun]
  · split <;> exact h.port
  · intro entry hentry
    refine (h.endpoints entry ?_).mono hsub
    split at hentry <;> exact hentry
  · intro address hsome
    split at hsome
    · rename_i hv4
      exact ⟨_, List.mem_append_right _ List.mem_cons_self, hv4, Option.some.inj hsome⟩
    · obtain ⟨alert, halert, hsupplies⟩ := h.address address hsome
      exact ⟨alert, hsub halert, hsupplies⟩
  · rw [externalReported_append]
    split
    · rename_i hv4
      simp [hv4]
    · rename_i hv4
      rw [h.reported]
      constructor
      · exact Or.inl
      · rintro (hold | ⟨addr', hv4', heq⟩)
        · exact hold
        · obtain rfl := PeerAlert.externalIp.inj heq
          exact absurd hv4' hv4

/-- A TCP endpoint is passed over, but it is an alert of the session. -/
theorem Inv.tcp (h : r.Inv) (hrun : r.manager.running = true) (addr : Address) (port : Int) :
    (r.act (.alert (.listenSucceeded true addr port))).Inv := by
  have hsub : r.session ⊆ r.session ++ [.listenSucceeded true addr port] :=
    List.subset_append_left _ _
  refine ⟨?_, ?_, ?_, ?_, ?_⟩ <;>
    simp only [act, Manager.act, hrun, if_true, Manager.onAlert, Manager.onListenSucceeded,
      PeerAlert.v4Port]
  · simp
  · exact h.port
  · exact fun entry hentry => (h.endpoints entry hentry).mono hsub
  · intro address hsome
    obtain ⟨alert, halert, hsupplies⟩ := h.address address hsome
    exact ⟨alert, hsub halert, hsupplies⟩
  · rw [h.reported, externalReported_append]
    simp

/-- What a session that has just begun or ended has. -/
theorem Inv.reset (h : r.Inv) (running : Bool) :
    Inv { manager := { r.manager.resetState with running }, session := [],
          lastPort := r.lastPort } := by
  refine ⟨fun _ => rfl, h.port, ?_, ?_, ?_⟩
  · rintro _ ⟨⟩
  · rintro _ ⟨⟩
  · simp [Manager.resetState, not_externalReported_nil]

/-- One case for each event. -/
theorem Inv.act (h : r.Inv) (event : PeerEvent) : (r.act event).Inv := by
  cases hrun : r.manager.running with
  | false =>
    have hnil := h.stopped hrun
    cases event with
    | start =>
      have := h.reset true
      simpa [Reported.act, Manager.act, Manager.start, hrun] using this
    | stop =>
      have hsame : r.act .stop = r := by
        rw [Reported.act, ← hnil]
        simp [Manager.act, Manager.stop, hrun]
      rwa [hsame]
    | alert alert =>
      have hsame : r.act (.alert alert) = r := by
        simp [Reported.act, Manager.act, hrun]
      rwa [hsame]
  | true =>
    cases event with
    | start =>
      have hsame : r.act .start = r := by
        simp [Reported.act, Manager.act, Manager.start, hrun]
      rwa [hsame]
    | stop =>
      have := h.reset false
      simpa [Reported.act, Manager.act, Manager.stop, Manager.resetState, hrun] using this
    | alert alert =>
      cases alert with
      | externalIp addr => exact h.externalIp hrun addr
      | listenSucceeded tcp addr port =>
        cases tcp with
        | false => exact h.listenSucceeded hrun addr port
        | true => exact h.tcp hrun addr port

/-- Induction on the events. -/
theorem inv_run (events : List PeerEvent) : (run events).Inv := by
  suffices key : ∀ r : Reported, r.Inv → (events.foldl act r).Inv from key {} inv_initial
  induction events with
  | nil => exact fun _ h => h
  | cons event rest ih => exact fun r h => ih (r.act event) (h.act event)

/-! ## Where the hints come from -/

/-- Of the three sources of a hint only `externalPort` outlives its session. -/
theorem Inv.hintsCurrent_iff (h : r.Inv) :
    r.manager.HintsCurrent r.session ↔
      (r.manager.running = true → ExternalReported r.session → 0 < r.lastPort →
        ∃ alert ∈ r.session, alert.SuppliesPort r.lastPort) := by
  constructor
  · intro hcurrent hrun hreported hpositive
    obtain ⟨address, haddress⟩ := Option.ne_none_iff_exists'.mp (h.reported.mpr hreported)
    refine (hcurrent hrun { address, port := r.lastPort } ?_).2
    rw [Manager.hints, haddress]
    refine List.mem_append_left _ ?_
    dsimp only
    rw [h.port, if_pos hpositive]
    exact List.mem_cons_self
  · intro hsupplied hrun hint hmem
    rcases List.mem_append.mp hmem with hexternal | hendpoint
    -- the first hint is made of an address and a port that two alerts may have brought
    · cases haddress : r.manager.externalAddress with
      | none => rw [haddress] at hexternal; cases hexternal
      | some address =>
        rw [haddress] at hexternal
        dsimp only at hexternal
        split at hexternal
        · rename_i hpositive
          obtain rfl := List.mem_singleton.mp hexternal
          rw [h.port] at hpositive
          refine ⟨h.address address haddress, ?_⟩
          rw [h.port]
          exact hsupplied hrun (h.reported.mp (by simp [haddress])) hpositive
        · cases hexternal
    · obtain ⟨entry, hentry, rfl⟩ := List.mem_map.mp hendpoint
      exact h.endpoints entry hentry

end Reported

/-- **Peer hints come from the session that runs** just when a session that has reported an
    external IPv4 address has also reported the port that is stored by then, the last IPv4 port
    of any session. -/
theorem hints_current_iff (events : List PeerEvent) :
    let r := Reported.run events
    (events.foldl Manager.act {}).HintsCurrent r.session ↔
      ((events.foldl Manager.act {}).running = true → ExternalReported r.session →
        0 < r.lastPort → ∃ alert ∈ r.session, alert.SuppliesPort r.lastPort) := by
  rw [← Reported.run_manager]
  exact (Reported.inv_run events).hintsCurrent_iff

/-- A session that listens on port 6881, and a second one that learns its address first. -/
def restartedHistory : List PeerEvent :=
  [.start, .alert (.listenSucceeded false { text := "10.0.0.2", isV4 := true, isV6 := false } 6881),
    .stop, .start, .alert (.externalIp { text := "203.0.113.7", isV4 := true, isV6 := false })]

/-- The port of the first session is hinted with the address of the second. -/
theorem stale_port_hinted :
    (restartedHistory.foldl Manager.act {}).hints = [{ address := "203.0.113.7", port := 6881 }] ∧
      (Reported.run restartedHistory).session =
        [.externalIp { text := "203.0.113.7", isV4 := true, isV6 := false }] ∧
      ¬ (restartedHistory.foldl Manager.act {}).HintsCurrent
        (Reported.run restartedHistory).session := by
  refine ⟨by decide +kernel, by decide +kernel, fun hcurrent => ?_⟩
  obtain ⟨-, alert, halert, hport⟩ := hcurrent (by decide +kernel)
    { address := "203.0.113.7", port := 6881 } (by decide +kernel)
  have hsession : (Reported.run restartedHistory).session =
      [.externalIp { text := "203.0.113.7", isV4 := true, isV6 := false }] := by decide +kernel
  rw [hsession] at halert
  obtain rfl := List.mem_singleton.mp halert
  exact hport

/-! ## The endpoints of a session

`onListenSucceeded` says that it only stores TCP endpoints, and leaves at once for an alert that
**is** TCP. -/

/-- The socket types of a listen alert. -/
inductive SocketType where
  | tcp | tcpSsl | utp | i2p | socks5 | socks5Ssl | utpSsl | http | httpSsl | rtc | unknown
deriving DecidableEq, Repr

/-- A `LISTEN_SUCCEEDED` alert. -/
structure ListenSucceeded where
  socketType : SocketType
  address : Address
  port : Int
deriving DecidableEq, Repr

/-- The alert as the manager takes it. -/
def ListenSucceeded.event (alert : ListenSucceeded) : PeerEvent :=
  .alert (.listenSucceeded (alert.socketType == .tcp) alert.address alert.port)

/-- A session that begins with the manager as it is, and the listen alerts it posts. -/
def Manager.listening (m : Manager) (alerts : List ListenSucceeded) : Manager :=
  alerts.foldl (fun m alert => m.act alert.event) m.stop.start

/-- An address that peers can be told: not loopback, multicast, unspecified or link-local. -/
def Address.Reachable (addr : Address) : Prop :=
  addr.isLoopback = false ∧ addr.isMulticast = false ∧ addr.isUnspecified = false ∧
    "fe80::".isPrefixOf addr.text = false

instance (addr : Address) : Decidable addr.Reachable :=
  inferInstanceAs (Decidable (_ ∧ _ ∧ _ ∧ _))

/-- `listenEndpoints.get`: the text of the endpoint. -/
def Manager.endpointAt (m : Manager) (text : String) : Option String :=
  (m.listenEndpoints.lookup text).map Hint.text

/-- The last alert of the list with a property. -/
def lastWith (p : ListenSucceeded → Prop) [DecidablePred p] (alerts : List ListenSucceeded) :
    Option ListenSucceeded :=
  alerts.reverse.find? fun alert => p alert

/-- The endpoint text of an alert. -/
def ListenSucceeded.endpoint (alert : ListenSucceeded) : String :=
  alert.address.endpoint ++ ":" ++ toString alert.port

/-- A TCP listener at the endpoint with this text. -/
def ListenSucceeded.TcpAt (text : String) (alert : ListenSucceeded) : Prop :=
  alert.socketType = .tcp ∧ alert.address.Reachable ∧ alert.address.text = text

/-- A TCP listener on an IPv4 address. -/
def ListenSucceeded.TcpV4 (alert : ListenSucceeded) : Prop :=
  alert.socketType = .tcp ∧ alert.address.isV4 = true

instance (text : String) : DecidablePred (ListenSucceeded.TcpAt text) := fun _ =>
  inferInstanceAs (Decidable (_ ∧ _ ∧ _))

instance : DecidablePred ListenSucceeded.TcpV4 := fun _ => inferInstanceAs (Decidable (_ ∧ _))

/-- The two fields show the TCP listeners, and no other alert has changed them. -/
structure Manager.ReflectsTcp (m : Manager) (alerts : List ListenSucceeded) : Prop where
  endpoints : ∀ text, (m.listening alerts).endpointAt text =
    (lastWith (ListenSucceeded.TcpAt text) alerts).map ListenSucceeded.endpoint
  port : (m.listening alerts).externalPort =
    ((lastWith ListenSucceeded.TcpV4 alerts).map ListenSucceeded.port).getD 0
  others : ∀ before alert after, alerts = before ++ alert :: after → alert.socketType ≠ .tcp →
    (m.listening (before ++ [alert])).externalPort = (m.listening before).externalPort ∧
      ∀ text, (m.listening (before ++ [alert])).endpointAt text =
        (m.listening before).endpointAt text

/-- The code writes the endpoint down. -/
def ListenSucceeded.Stored (alert : ListenSucceeded) : Prop :=
  alert.socketType ≠ .tcp ∧ alert.address.Reachable ∧
    "127.".isPrefixOf alert.address.text = false

instance : DecidablePred ListenSucceeded.Stored := fun _ =>
  inferInstanceAs (Decidable (_ ∧ _ ∧ _))

/-- A key is looked up in what was put there last. -/
theorem lookup_put (map : List (String × Hint)) (key text : String) (value : Hint) :
    (put map key value).lookup text = if text = key then some value else map.lookup text := by
  rw [put, List.lookup_cons]
  split
  · rename_i heq
    rw [if_pos (eq_of_beq heq)]
  · rename_i hne
    rw [if_neg (ne_of_beq_false hne)]
    induction map with
    | nil => rfl
    | cons entry rest ih =>
      rw [List.filter_cons]
      split
      · rw [List.lookup_cons, List.lookup_cons, ih]
      · rename_i hkey
        have hentry : entry.1 = key := by simpa using hkey
        rw [List.lookup_cons, hentry, hne, ih]

namespace Manager

variable {m : Manager}

@[simp] theorem listening_nil_port : (m.listening []).externalPort = m.externalPort := by
  simp only [listening, List.foldl_nil, start, stop, resetState]
  (repeat' split) <;> rfl

@[simp] theorem listening_nil_endpointAt (text : String) :
    (m.listening []).endpointAt text = none := by
  have hnil : (m.listening []).listenEndpoints = [] := by
    cases hrun : m.running <;> simp [listening, start, stop, resetState, hrun]
  rw [endpointAt, hnil]
  rfl

/-- Alerts are taken one by one. -/
theorem listening_append (alerts : List ListenSucceeded) (alert : ListenSucceeded) :
    m.listening (alerts ++ [alert]) = (m.listening alerts).act alert.event := by
  rw [listening, List.foldl_append]
  rfl

theorem onListenSucceeded_running (tcp : Bool) (addr : Address) (port : Int) :
    (m.onListenSucceeded tcp addr port).running = m.running := by
  cases tcp with
  | true => rfl
  | false => exact (m.onListenSucceeded_spec addr port).1

theorem listening_running (alerts : List ListenSucceeded) :
    (m.listening alerts).running = true := by
  induction alerts using List.reverseRecOn with
  | nil =>
    simp only [listening, List.foldl_nil, start]
    split
    · assumption
    · rfl
  | append_singleton alerts alert ih =>
    rw [listening_append, ListenSucceeded.event, act, if_pos ih]
    exact (onListenSucceeded_running ..).trans ih

/-- The loop's turn for a TCP alert changes nothing. -/
theorem listening_tcp (alerts : List ListenSucceeded) {alert : ListenSucceeded}
    (htcp : alert.socketType = .tcp) : m.listening (alerts ++ [alert]) = m.listening alerts := by
  rw [listening_append, ListenSucceeded.event, act, if_pos (listening_running alerts), htcp]
  rfl

/-- The loop's turn for any other alert. -/
theorem listening_other (alerts : List ListenSucceeded) {alert : ListenSucceeded}
    (hother : alert.socketType ≠ .tcp) :
    (m.listening (alerts ++ [alert])).externalPort =
        (if alert.address.isV4 then alert.port else (m.listening alerts).externalPort) ∧
      ∀ text, (m.listening (alerts ++ [alert])).endpointAt text =
        if alert.Stored ∧ text = alert.address.text then some alert.endpoint
        else (m.listening alerts).endpointAt text := by
  have hturn : m.listening (alerts ++ [alert]) =
      (m.listening alerts).onListenSucceeded false alert.address alert.port := by
    rw [listening_append, ListenSucceeded.event, act, if_pos (listening_running alerts),
      beq_false_of_ne hother]
    rfl
  rw [hturn]
  generalize m.listening alerts = m'
  refine ⟨(m'.onListenSucceeded_spec alert.address alert.port).2.2.1, fun text => ?_⟩
  unfold onListenSucceeded
  rw [if_neg Bool.false_ne_true]
  dsimp only
  -- The port does not matter for the map.
  have hport : (if alert.address.isV4 then { m' with externalPort := alert.port }
      else m').endpointAt text = m'.endpointAt text := by split <;> rfl
  by_cases hstored : alert.Stored
  · have hkeep := hstored
    obtain ⟨-, ⟨hloopback, hmulticast, hunspecified, hlocal⟩, hhost⟩ := hkeep
    rw [if_neg (by simp [hloopback, hmulticast, hunspecified]), if_neg (by simp [hlocal, hhost]),
      ← hport]
    simp only [endpointAt, lookup_put, hstored, true_and]
    split <;> rfl
  · have hright : (if alert.Stored ∧ text = alert.address.text then some alert.endpoint
        else m'.endpointAt text) = m'.endpointAt text := if_neg fun h => hstored h.1
    rw [hright]
    refine Eq.trans ?_ hport
    congr 1
    split
    · rfl
    · rename_i hclass
      refine if_pos (by_contra fun hlocal => hstored ⟨hother, ?_⟩)
      simp only [Bool.or_eq_true, not_or, Bool.not_eq_true] at hclass hlocal
      exact ⟨⟨hclass.1.1, hclass.1.2, hclass.2, hlocal.2⟩, hlocal.1⟩

end Manager

/-- No alert of the kind. -/
theorem lastWith_eq_none {p : ListenSucceeded → Prop} [DecidablePred p]
    {alerts : List ListenSucceeded} : lastWith p alerts = none ↔ ∀ alert ∈ alerts, ¬ p alert := by
  simp [lastWith]

/-- Nothing has changed since the session began. -/
def Manager.Untouched (m : Manager) (alerts : List ListenSucceeded) : Prop :=
  (m.listening alerts).externalPort = m.externalPort ∧
    ∀ text, (m.listening alerts).endpointAt text = none

/-- Where the alerts of other socket types change nothing, nothing ever changes. -/
theorem Manager.ReflectsTcp.untouched {m : Manager} {alerts : List ListenSucceeded}
    (h : m.ReflectsTcp alerts) : ∀ before after, alerts = before ++ after →
      m.Untouched before := by
  intro before
  induction before using List.reverseRecOn with
  | nil => exact fun _ _ => ⟨listening_nil_port, listening_nil_endpointAt⟩
  | append_singleton before alert ih =>
    intro after hsplit
    rw [List.append_assoc, List.singleton_append] at hsplit
    obtain ⟨hport, hmap⟩ := ih _ hsplit
    by_cases htcp : alert.socketType = .tcp
    · rw [Untouched, listening_tcp before htcp]
      exact ⟨hport, hmap⟩
    · obtain ⟨hport', hmap'⟩ := h.others before alert after hsplit htcp
      exact ⟨hport'.trans hport, fun text => (hmap' text).trans (hmap text)⟩

/-- Alerts that have nothing to say change nothing. -/
theorem Manager.untouched_of_silent {m : Manager} {alerts : List ListenSucceeded}
    (hstored : ∀ alert ∈ alerts, ¬ alert.Stored)
    (hv4 : ∀ alert ∈ alerts, alert.socketType ≠ .tcp → alert.address.isV4 = true →
      alert.port = m.externalPort) : m.Untouched alerts := by
  induction alerts using List.reverseRecOn with
  | nil => exact ⟨listening_nil_port, listening_nil_endpointAt⟩
  | append_singleton alerts alert ih =>
    obtain ⟨hport, hmap⟩ := ih (fun a ha => hstored a (List.mem_append_left _ ha))
      fun a ha => hv4 a (List.mem_append_left _ ha)
    have hlast : alert ∈ alerts ++ [alert] := List.mem_append_right _ List.mem_cons_self
    by_cases htcp : alert.socketType = .tcp
    · rw [Untouched, listening_tcp alerts htcp]
      exact ⟨hport, hmap⟩
    · obtain ⟨hport', hmap'⟩ := listening_other (m := m) alerts htcp
      constructor
      · rw [hport']
        split
        · exact hv4 alert hlast htcp ‹_›
        · exact hport
      · intro text
        rw [hmap', if_neg fun h => hstored alert hlast h.1]
        exact hmap text

/-- **Listen endpoints show the TCP listeners** just when there is nothing to show: no alert has an
    address that peers can be told, and every IPv4 port of another socket type, like that of the
    last TCP alert (0 if there is none), is the port stored when the session begins. -/
theorem reflectsTcp_iff (m : Manager) (alerts : List ListenSucceeded) :
    m.ReflectsTcp alerts ↔
      (∀ alert ∈ alerts, alert.socketType = .tcp → ¬ alert.address.Reachable) ∧
      (∀ alert ∈ alerts, ¬ alert.Stored) ∧
      (∀ alert ∈ alerts, alert.socketType ≠ .tcp → alert.address.isV4 = true →
        alert.port = m.externalPort) ∧
      ((lastWith ListenSucceeded.TcpV4 alerts).map ListenSucceeded.port).getD 0 =
        m.externalPort := by
  constructor
  · intro h
    obtain ⟨hport, hmap⟩ := h.untouched alerts [] (List.append_nil _).symm
    refine ⟨?_, ?_, ?_, h.port.symm.trans hport⟩
    · intro alert halert htcp hreachable
      have hnone := (h.endpoints alert.address.text).symm.trans (hmap _)
      rw [Option.map_eq_none_iff, lastWith_eq_none] at hnone
      exact hnone alert halert ⟨htcp, hreachable, rfl⟩
    -- looked at right after the alert, the map must not have changed
    · intro alert halert hstored
      obtain ⟨before, after, hsplit⟩ := List.append_of_mem halert
      have hnone := (h.untouched (before ++ [alert]) after (by simp [hsplit])).2 alert.address.text
      rw [(Manager.listening_other before hstored.1).2, if_pos ⟨hstored, rfl⟩] at hnone
      cases hnone
    · intro alert halert htcp hv4
      obtain ⟨before, after, hsplit⟩ := List.append_of_mem halert
      have hkept := (h.untouched (before ++ [alert]) after (by simp [hsplit])).1
      rwa [(Manager.listening_other before htcp).1, if_pos hv4] at hkept
  · rintro ⟨htcp, hstored, hv4, hlast⟩
    obtain ⟨hport, hmap⟩ := m.untouched_of_silent hstored hv4
    refine ⟨fun text => ?_, hport.trans hlast.symm, ?_⟩
    · have hnone : lastWith (ListenSucceeded.TcpAt text) alerts = none :=
        lastWith_eq_none.mpr fun alert halert h => htcp alert halert h.1 h.2.1
      rw [hmap, hnone]
      rfl
    · rintro before alert after rfl hother
      have hmem : alert ∈ before ++ alert :: after := by simp
      have hbefore := m.untouched_of_silent (fun a ha => hstored a (List.mem_append_left _ ha))
        fun a ha => hv4 a (List.mem_append_left _ ha)
      obtain ⟨hport', hmap'⟩ := Manager.listening_other (m := m) before hother
      constructor
      · rw [hport', hbefore.1]
        split
        · exact hv4 alert hmem hother ‹_›
        · rfl
      · intro text
        rw [hmap', if_neg fun h => hstored alert hmem h.1]

/-- One TCP listener with an ordinary address. -/
def lanListener : ListenSucceeded where
  socketType := .tcp
  address := { text := "10.0.0.2", isV4 := true, isV6 := false }
  port := 6881

/-- One TCP listener, which is neither stored nor gives its port. -/
theorem tcp_listener_missed :
    (Manager.listening {} [lanListener]).endpointAt "10.0.0.2" = none ∧
      (Manager.listening {} [lanListener]).externalPort = 0 ∧
      ¬ Manager.ReflectsTcp {} [lanListener] := by
  refine ⟨by decide +kernel, by decide +kernel, fun h => ?_⟩
  exact absurd h.port (by decide +kernel)

end Session
end Libtorrent4j
