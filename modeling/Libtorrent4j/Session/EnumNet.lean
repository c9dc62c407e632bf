import Mathlib.Data.List.TakeWhile
import Mathlib.Tactic

/-!
# Interface and route names

`EnumNet` lists the network interfaces and routes, and hands an interface and routes back to ask for
a gateway, which are matched by name. On the way a name is a `char` array, a vector of signed bytes,
a `String`, again a vector, and again an array. The array comes back with other bytes behind the
terminator, which no C string sees.

The `String` is made and taken apart in US-ASCII, and **a byte outside of it comes back as a
question mark**. `names_survive_iff` says that nothing else is lost.
-/

namespace Libtorrent4j
namespace Session

/-! ## The conversions of a name

Five forms of a name: the array, the signed bytes of the bindings, the `String`, and the two
again on the way back. -/

/-- A `char[n]`. -/
abbrev CharArray (n : Nat) := Vector UInt8 n

/-- What a C string function sees of an array: the bytes up to the first NUL. -/
def cString {n : Nat} (array : CharArray n) : List UInt8 := array.toList.takeWhile (· != 0)

/-- `{e.name, e.name + sizeof(e.name)}`. -/
def byteVector {n : Nat} (array : CharArray n) : List Int8 := array.toList.map UInt8.toInt8

/-- How `String` decodes and encodes bytes under a charset name. -/
structure Charset where
  decode : List Int8 → String
  encode : String → List Int8

/-- A malformed byte decodes to the replacement character. -/
def asciiChar (b : Int8) : Char := if b < 0 then Char.ofNat 0xFFFD else Char.ofNat b.toInt.toNat

/-- A character without an encoding becomes a question mark. -/
def asciiByte (ch : Char) : Int8 := if ch.toNat < 128 then Int8.ofNat ch.toNat else 63

/-- "US-ASCII", as `String` decodes and encodes it. -/
def usAscii : Charset where
  decode bytes := String.ofList (bytes.map asciiChar)
  encode s := s.toList.map asciiByte

/-- The bytes up to the first NUL; a vector without one is taken whole. -/
def byteVector2string (v : List Int8) (encoding : Charset) : String :=
  let n := (v.takeWhile (· != 0)).length
  if n = 0 then "" else encoding.decode (v.take n)

def byteVector2ascii (v : List Int8) : String := byteVector2string v usAscii

def string2byteVector (s : String) (encoding : Charset) : List Int8 := encoding.encode s

/-- Nothing terminates the vector: the array it is copied to has zeros behind it. -/
def ascii2byteVector (s : String) : List Int8 := string2byteVector s usAscii

/-- `mem_copy`: zeros, and over them as much of the source as fits. -/
def memCopy (source : List Int8) (targetSize : Nat) : CharArray targetSize :=
  Vector.ofFn fun i => (source[i.val]?.map Int8.toUInt8).getD 0

/-! ## Interfaces and routes

The records of libtorrent, of the bindings and of Java. All but the names goes through as it is;
an address is any type. -/

variable {A : Type}

/-- The `ip_interface` of libtorrent. -/
structure NativeInterface (A : Type) where
  interfaceAddress : A
  netmask : A
  name : CharArray 64
  friendlyName : CharArray 128
  description : CharArray 128
  preferred : Bool

/-- The `ip_route` of libtorrent. -/
structure NativeRoute (A : Type) where
  destination : A
  netmask : A
  gateway : A
  sourceHint : A
  name : CharArray 64
  mtu : Int

/-- The `ip_interface` of the bindings. -/
structure SwigInterface (A : Type) where
  interfaceAddress : A
  netmask : A
  name : List Int8
  friendlyName : List Int8
  description : List Int8
  preferred : Bool

/-- The `ip_route` of the bindings. -/
structure SwigRoute (A : Type) where
  destination : A
  netmask : A
  gateway : A
  sourceHint : A
  name : List Int8
  mtu : Int

/-- The `IpInterface` of Java, with its names decoded. -/
structure IpInterface (A : Type) where
  interfaceAddress : A
  netmask : A
  name : String
  friendlyName : String
  description : String
  preferred : Bool

/-- The `IpRoute` of Java. -/
structure IpRoute (A : Type) where
  destination : A
  netmask : A
  gateway : A
  sourceHint : A
  name : String
  mtu : Int

/-- `enum_net_interfaces` of the bindings: the whole arrays, with what lies behind the
    terminators. -/
def enumNetInterfaces (v : List (NativeInterface A)) : List (SwigInterface A) :=
  v.map fun e =>
    { interfaceAddress := e.interfaceAddress
      netmask := e.netmask
      name := byteVector e.name
      friendlyName := byteVector e.friendlyName
      description := byteVector e.description
      preferred := e.preferred }

/-- `enum_routes` of the bindings. -/
def enumRoutes (v : List (NativeRoute A)) : List (SwigRoute A) :=
  v.map fun e =>
    { destination := e.destination
      netmask := e.netmask
      gateway := e.gateway
      sourceHint := e.sourceHint
      name := byteVector e.name
      mtu := e.mtu }

/-- The constructor. -/
def IpInterface.ofSwig (iface : SwigInterface A) : IpInterface A where
  interfaceAddress := iface.interfaceAddress
  netmask := iface.netmask
  name := byteVector2ascii iface.name
  friendlyName := byteVector2ascii iface.friendlyName
  description := byteVector2ascii iface.description
  preferred := iface.preferred

/-- The `swig` method, on the way back down. -/
def IpInterface.toSwig (iface : IpInterface A) : SwigInterface A where
  interfaceAddress := iface.interfaceAddress
  netmask := iface.netmask
  name := ascii2byteVector iface.name
  friendlyName := ascii2byteVector iface.friendlyName
  description := ascii2byteVector iface.description
  preferred := iface.preferred

/-- The constructor. -/
def IpRoute.ofSwig (route : SwigRoute A) : IpRoute A where
  destination := route.destination
  netmask := route.netmask
  gateway := route.gateway
  sourceHint := route.sourceHint
  name := byteVector2ascii route.name
  mtu := route.mtu

def IpRoute.toSwig (route : IpRoute A) : SwigRoute A where
  destination := route.destination
  netmask := route.netmask
  gateway := route.gateway
  sourceHint := route.sourceHint
  name := ascii2byteVector route.name
  mtu := route.mtu

/-- `EnumNet.enumInterfaces`. -/
def enumInterfaces (v : List (NativeInterface A)) : List (IpInterface A) :=
  (enumNetInterfaces v).map IpInterface.ofSwig

def EnumNet.enumRoutes (v : List (NativeRoute A)) : List (IpRoute A) :=
  (Session.enumRoutes v).map IpRoute.ofSwig

/-- `lt_iface` of `get_gateway`. -/
def ltInterface (iface : SwigInterface A) : NativeInterface A where
  interfaceAddress := iface.interfaceAddress
  netmask := iface.netmask
  name := memCopy iface.name 64
  friendlyName := memCopy iface.friendlyName 128
  description := memCopy iface.description 128
  preferred := iface.preferred

/-- `lt_ip_route` of `get_gateway`. -/
def ltRoute (route : SwigRoute A) : NativeRoute A where
  destination := route.destination
  netmask := route.netmask
  gateway := route.gateway
  sourceHint := route.sourceHint
  name := memCopy route.name 64
  mtu := route.mtu

/-- The function of libtorrent that `get_gateway` calls. -/
abbrev LtGateway (A : Type) := NativeInterface A → List (NativeRoute A) → Option A

/-- `empty` is `lt::address{}`. -/
def getGateway (ltGateway : LtGateway A) (empty : A) (iface : SwigInterface A)
    (routes : List (SwigRoute A)) : A :=
  (ltGateway (ltInterface iface) (routes.map ltRoute)).getD empty

/-- `EnumNet.getGateway`: every route is encoded again for the call. -/
def EnumNet.getGateway (ltGateway : LtGateway A) (empty : A) (iface : IpInterface A)
    (routes : List (IpRoute A)) : A :=
  Session.getGateway ltGateway empty iface.toSwig (routes.map IpRoute.toSwig)

/-! ## A name, there and back

What one name is afterwards, whatever array it came in. -/

/-- What the charset makes of a byte on the way to a character and back. -/
def asciiOr (b : UInt8) : UInt8 := if b < 128 then b else 63

/-- A malformed byte is decoded to a character that no byte encodes. -/
theorem asciiByte_asciiChar (b : UInt8) : (asciiByte (asciiChar b.toInt8)).toUInt8 = asciiOr b := by
  -- a byte is a byte: all of them are tried
  have hall : ∀ n : Fin 256,
      (asciiByte (asciiChar (UInt8.ofNat n).toInt8)).toUInt8 = asciiOr (UInt8.ofNat n) := by
    decide +kernel
  simpa using hall ⟨b.toNat, b.toNat_lt⟩

/-- No terminator is made on the way, so a name keeps its length. -/
theorem asciiOr_ne_zero {b : UInt8} (h : b ≠ 0) : asciiOr b ≠ 0 := by
  unfold asciiOr
  split
  · exact h
  · decide

/-- A question mark is a byte of ASCII itself, so a byte outside never comes back as it was. -/
theorem asciiOr_eq_self_iff (b : UInt8) : asciiOr b = b ↔ b < 128 := by
  refine ⟨fun h => ?_, fun h => if_pos h⟩
  by_contra hge
  rw [asciiOr, if_neg hge] at h
  exact hge (by rw [← h]; decide)

theorem map_asciiOr_eq_self_iff (l : List UInt8) : l.map asciiOr = l ↔ ∀ b ∈ l, b < 128 := by
  conv_lhs => rhs; rw [← List.map_id l]
  rw [List.map_inj_left]
  exact forall₂_congr fun b _ => asciiOr_eq_self_iff b

theorem toInt8_ne_zero (b : UInt8) : b.toInt8 ≠ 0 ↔ b ≠ 0 := by
  refine not_congr ⟨fun h => ?_, fun h => by rw [h]; rfl⟩
  rw [← b.toUInt8_toInt8, h]
  rfl

theorem cString_ne_zero {n : Nat} {array : CharArray n} {b : UInt8} (h : b ∈ cString array) :
    b ≠ 0 := by
  simpa using List.mem_takeWhile_imp h

/-- A name fits into the array it came from. -/
theorem cString_length_le {n : Nat} (array : CharArray n) : (cString array).length ≤ n :=
  (List.takeWhile_prefix _).length_le.trans_eq array.length_toList

/-- A `String` is made of the bytes before the terminator. -/
theorem byteVector2ascii_byteVector {n : Nat} (array : CharArray n) :
    byteVector2ascii (byteVector array) =
      String.ofList ((cString array).map fun b => asciiChar b.toInt8) := by
  have hread : (byteVector array).takeWhile (· != 0) = (cString array).map UInt8.toInt8 := by
    have hzero : ((fun x : Int8 => x != 0) ∘ UInt8.toInt8) = fun b : UInt8 => b != 0 := by
      funext b
      rw [Function.comp_apply, Bool.eq_iff_iff, bne_iff_ne, bne_iff_ne, toInt8_ne_zero]
    rw [byteVector, List.takeWhile_map, hzero, cString]
  have htake : (byteVector array).take ((byteVector array).takeWhile (· != 0)).length =
      (cString array).map UInt8.toInt8 := by
    rw [← List.prefix_iff_eq_take.mp (List.takeWhile_prefix _), hread]
  simp only [byteVector2ascii, byteVector2string]
  split
  -- the empty name is not decoded at all
  · rename_i hnone
    rw [hread, List.length_map, List.length_eq_zero_iff] at hnone
    rw [hnone]
    rfl
  · rw [htake]
    simp only [usAscii, List.map_map]
    rfl

/-- `mem_copy` of a source that fits, read as a C string: the zeros behind it end it. -/
theorem cString_memCopy {source : List Int8} {n : Nat} (hfits : source.length ≤ n)
    (hsource : ∀ x ∈ source, x.toUInt8 ≠ 0) :
    cString (memCopy source n) = source.map Int8.toUInt8 := by
  have hlist : (memCopy source n).toList =
      source.map Int8.toUInt8 ++ List.replicate (n - source.length) 0 := by
    apply List.ext_getElem
    · simp only [Vector.length_toList, List.length_append, List.length_map, List.length_replicate]
      omega
    · intro i h₁ h₂
      simp [memCopy, List.getElem_append]
      grind
  rw [cString, hlist, List.takeWhile_append_of_pos, List.takeWhile_replicate]
  · simp
  · simpa using hsource

/-- **A name after its trip**, whatever was in the array. -/
theorem cString_trip {n : Nat} (array : CharArray n) :
    cString (memCopy (ascii2byteVector (byteVector2ascii (byteVector array))) n) =
      (cString array).map asciiOr := by
  have hbytes : ascii2byteVector (byteVector2ascii (byteVector array)) =
      (cString array).map fun b => asciiByte (asciiChar b.toInt8) := by
    rw [byteVector2ascii_byteVector, ascii2byteVector, string2byteVector, usAscii]
    simp only [String.toList_ofList, List.map_map]
    rfl
  -- the vector is no longer than the array it came from, so nothing is cut off
  rw [hbytes, cString_memCopy]
  · rw [List.map_map]
    exact List.map_congr_left fun b _ => asciiByte_asciiChar b
  · rw [List.length_map]
    exact cString_length_le array
  · intro x hx
    obtain ⟨b, hb, rfl⟩ := List.mem_map.mp hx
    rw [asciiByte_asciiChar]
    exact asciiOr_ne_zero (cString_ne_zero hb)

/-! ## What the gateway is asked with

Seen through C strings, what comes back is what was reported with its names made ASCII. -/

/-- What a reader of C strings sees of an interface. -/
structure InterfaceSeen (A : Type) where
  interfaceAddress : A
  netmask : A
  name : List UInt8
  friendlyName : List UInt8
  description : List UInt8
  preferred : Bool

/-- What a reader of C strings sees of a route. -/
structure RouteSeen (A : Type) where
  destination : A
  netmask : A
  gateway : A
  sourceHint : A
  name : List UInt8
  mtu : Int

def NativeInterface.seen (e : NativeInterface A) : InterfaceSeen A where
  interfaceAddress := e.interfaceAddress
  netmask := e.netmask
  name := cString e.name
  friendlyName := cString e.friendlyName
  description := cString e.description
  preferred := e.preferred

def NativeRoute.seen (e : NativeRoute A) : RouteSeen A where
  destination := e.destination
  netmask := e.netmask
  gateway := e.gateway
  sourceHint := e.sourceHint
  name := cString e.name
  mtu := e.mtu

/-- `lt::aux::get_gateway` compares names with `strcmp`. -/
def ReadsStrings (ltGateway : LtGateway A) : Prop :=
  ∀ iface iface' routes routes', NativeInterface.seen iface = NativeInterface.seen iface' →
    routes.map NativeRoute.seen = routes'.map NativeRoute.seen →
    ltGateway iface routes = ltGateway iface' routes'

/-- All the names. -/
def names (interfaces : List (InterfaceSeen A)) (routes : List (RouteSeen A)) :
    List (List UInt8) :=
  interfaces.flatMap (fun e => [e.name, e.friendlyName, e.description]) ++ routes.map RouteSeen.name

/-- The names of what libtorrent reports. -/
def reported (interfaces : List (NativeInterface A)) (routes : List (NativeRoute A)) :
    List (List UInt8) :=
  names (interfaces.map NativeInterface.seen) (routes.map NativeRoute.seen)

/-- What becomes of the interfaces and routes on the way to a `String` and back. -/
def backInterfaces (interfaces : List (NativeInterface A)) : List (NativeInterface A) :=
  (enumInterfaces interfaces).map fun iface => ltInterface iface.toSwig

/-- The routes, likewise. -/
def backRoutes (routes : List (NativeRoute A)) : List (NativeRoute A) :=
  ((EnumNet.enumRoutes routes).map IpRoute.toSwig).map ltRoute

/-- The names survive: as C strings they come back as they were, so that two of them compare as they
    did, and the gateway of an interface is found in the routes that were there. -/
structure NamesSurvive (ltGateway : LtGateway A) (empty : A) (interfaces : List (NativeInterface A))
    (routes : List (NativeRoute A)) : Prop where
  sameInterfaces : (backInterfaces interfaces).map NativeInterface.seen =
    interfaces.map NativeInterface.seen
  sameRoutes : (backRoutes routes).map NativeRoute.seen = routes.map NativeRoute.seen
  comparison : ∀ i j : Nat,
    (reported (backInterfaces interfaces) (backRoutes routes))[i]? =
        (reported (backInterfaces interfaces) (backRoutes routes))[j]? ↔
      (reported interfaces routes)[i]? = (reported interfaces routes)[j]?
  gateway : (enumInterfaces interfaces).map
      (fun iface => EnumNet.getGateway ltGateway empty iface (EnumNet.enumRoutes routes)) =
    interfaces.map fun iface => (ltGateway iface routes).getD empty

/-- An interface whose names have gone through US-ASCII. -/
def InterfaceSeen.ascii (e : InterfaceSeen A) : InterfaceSeen A :=
  { e with
    name := e.name.map asciiOr
    friendlyName := e.friendlyName.map asciiOr
    description := e.description.map asciiOr }

def RouteSeen.ascii (e : RouteSeen A) : RouteSeen A := { e with name := e.name.map asciiOr }

/-- Behind the terminators the arrays differ, which nobody sees. -/
theorem backInterfaces_seen (interfaces : List (NativeInterface A)) :
    (backInterfaces interfaces).map NativeInterface.seen =
      (interfaces.map NativeInterface.seen).map InterfaceSeen.ascii := by
  simp only [backInterfaces, enumInterfaces, enumNetInterfaces, List.map_map]
  refine List.map_congr_left fun e _ => ?_
  simp only [Function.comp_apply, NativeInterface.seen, ltInterface, IpInterface.toSwig,
    IpInterface.ofSwig, cString_trip, InterfaceSeen.ascii]

theorem backRoutes_seen (routes : List (NativeRoute A)) :
    (backRoutes routes).map NativeRoute.seen =
      (routes.map NativeRoute.seen).map RouteSeen.ascii := by
  simp only [backRoutes, EnumNet.enumRoutes, enumRoutes, List.map_map]
  refine List.map_congr_left fun e _ => ?_
  simp only [Function.comp_apply, NativeRoute.seen, ltRoute, IpRoute.toSwig, IpRoute.ofSwig,
    cString_trip, RouteSeen.ascii]

theorem InterfaceSeen.ascii_eq_self_iff (e : InterfaceSeen A) :
    e.ascii = e ↔ ∀ name ∈ [e.name, e.friendlyName, e.description], ∀ b ∈ name, b < 128 := by
  rw [List.forall_mem_cons, List.forall_mem_cons, List.forall_mem_singleton,
    ← map_asciiOr_eq_self_iff, ← map_asciiOr_eq_self_iff, ← map_asciiOr_eq_self_iff]
  cases e
  simp [InterfaceSeen.ascii]

theorem RouteSeen.ascii_eq_self_iff (e : RouteSeen A) :
    e.ascii = e ↔ ∀ b ∈ e.name, b < 128 := by
  rw [← map_asciiOr_eq_self_iff]
  cases e
  simp [RouteSeen.ascii]

theorem map_eq_self_iff {T : Type} (f : T → T) (l : List T) : l.map f = l ↔ ∀ x ∈ l, f x = x := by
  conv_lhs => rhs; rw [← List.map_id l]
  exact List.map_inj_left

/-- All entries come back as they were if and only if every name is one of ASCII bytes. -/
theorem same_iff (interfaces : List (NativeInterface A)) (routes : List (NativeRoute A)) :
    (backInterfaces interfaces).map NativeInterface.seen = interfaces.map NativeInterface.seen ∧
        (backRoutes routes).map NativeRoute.seen = routes.map NativeRoute.seen ↔
      ∀ name ∈ reported interfaces routes, ∀ b ∈ name, b < 128 := by
  rw [backInterfaces_seen, backRoutes_seen, map_eq_self_iff, map_eq_self_iff, reported, names,
    List.forall_mem_append, List.forall_mem_flatMap, List.forall_mem_map (f := RouteSeen.name)]
  simp only [InterfaceSeen.ascii_eq_self_iff, RouteSeen.ascii_eq_self_iff]

/-- A gateway for what has come back is one for what was reported. -/
theorem getGateway_back {ltGateway : LtGateway A} (hreads : ReadsStrings ltGateway) (empty : A)
    {interfaces : List (NativeInterface A)} {routes : List (NativeRoute A)}
    (hinterfaces : (backInterfaces interfaces).map NativeInterface.seen =
      interfaces.map NativeInterface.seen)
    (hroutes : (backRoutes routes).map NativeRoute.seen = routes.map NativeRoute.seen) :
    (enumInterfaces interfaces).map
        (fun iface => EnumNet.getGateway ltGateway empty iface (EnumNet.enumRoutes routes)) =
      interfaces.map fun iface => (ltGateway iface routes).getD empty := by
  simp only [backInterfaces, enumInterfaces, enumNetInterfaces, List.map_map] at hinterfaces ⊢
  refine List.map_congr_left fun e he => ?_
  have hiface := List.map_inj_left.mp hinterfaces e he
  have hgateway := hreads _ _ _ _ hiface hroutes
  exact congrArg (Option.getD · empty) hgateway

/-- **The names survive when they are ASCII, and only then.** -/
theorem names_survive_iff (ltGateway : LtGateway A) (hreads : ReadsStrings ltGateway) (empty : A)
    (interfaces : List (NativeInterface A)) (routes : List (NativeRoute A)) :
    NamesSurvive ltGateway empty interfaces routes ↔
      ∀ name ∈ reported interfaces routes, ∀ b ∈ name, b < 128 := by
  rw [← same_iff]
  constructor
  · exact fun h => ⟨h.sameInterfaces, h.sameRoutes⟩
  · -- the same strings compare as they did, and find the same gateways
    rintro ⟨hinterfaces, hroutes⟩
    refine ⟨hinterfaces, hroutes, fun i j => ?_, getGateway_back hreads empty hinterfaces hroutes⟩
    rw [reported, hinterfaces, hroutes, ← reported]

/-- An address of either family; 0 is the unspecified one. -/
structure Ip where
  v4 : Bool
  bits : Nat
  deriving DecidableEq

/-- The gateway of the first default route of the interface, in its family. -/
def defaultGateway (iface : InterfaceSeen Ip) (routes : List (RouteSeen Ip)) : Option Ip :=
  (routes.find? fun r => r.destination.bits == 0 && r.destination.v4 == iface.interfaceAddress.v4 &&
    r.gateway.bits != 0 && r.name == iface.name).map RouteSeen.gateway

/-- It is asked with arrays, and looks at them as C strings. -/
def strcmpGateway : LtGateway Ip := fun iface routes =>
  defaultGateway iface.seen (routes.map NativeRoute.seen)

/-- What lies behind a terminator does not matter to it. -/
theorem strcmpGateway_reads : ReadsStrings strcmpGateway := by
  intro iface iface' routes routes' hiface hroutes
  rw [strcmpGateway, strcmpGateway, hiface, hroutes]

def Ip.unspecified : Ip := ⟨true, 0⟩

/-- An interface and a default route of a name. -/
def interfaceNamed (name : List Int8) : NativeInterface Ip where
  interfaceAddress := ⟨true, 5⟩
  netmask := ⟨true, 255⟩
  name := memCopy name 64
  friendlyName := memCopy [] 128
  description := memCopy [] 128
  preferred := true

def routeNamed (name : List Int8) (gateway : Nat) : NativeRoute Ip where
  destination := Ip.unspecified
  netmask := Ip.unspecified
  gateway := ⟨true, gateway⟩
  sourceHint := Ip.unspecified
  name := memCopy name 64
  mtu := 1500

/-- `eth0` and its route. -/
theorem names_survive_eth :
    NamesSurvive strcmpGateway Ip.unspecified [interfaceNamed [101, 116, 104, 48]]
      [routeNamed [101, 116, 104, 48] 1] :=
  (names_survive_iff strcmpGateway strcmpGateway_reads _ _ _).mpr (by decide +kernel)

/-- Two names with an accent become one, and the first of their routes is found for both. -/
theorem accents_lost :
    ¬ NamesSurvive strcmpGateway Ip.unspecified [interfaceNamed [-61, -88]]
      [routeNamed [-61, -87] 1, routeNamed [-61, -88] 2] := by
  intro h
  have hgateway := h.gateway
  revert hgateway
  decide +kernel

end Session
end Libtorrent4j
