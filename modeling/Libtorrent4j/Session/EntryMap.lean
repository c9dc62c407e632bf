import Mathlib.Data.Finmap
import Libtorrent4j.Session.JavaStrings

/-!
# The dictionary view

`Entry.dictionary` hands out a `Map` over the native dictionary. Looking a key up in the native map
creates it, and what comes back is a reference to the entry inside, so the view has to ask first
and its answers live on in the map.

Asking first is done everywhere, and no key is ever created by a question. But `put` looks at the
old entry **through the reference it is about to write to**: what it returns shows the new entry.
And a dictionary that was decoded may have keys without a Java name, which `keySet` lists under some
other one and `size` counts, while no question finds them. `dictionary_is_map_iff` says that this is
what can go wrong, beside a reference into a map that has been cleared since and more keys than an
`int` counts.

The view copies entries and never looks into one, so `Content` is any type of what entries hold, in
which equal entries are equal. `EntryContent` is the one of the native `entry`.
-/

namespace Libtorrent4j
namespace Session

/-! ## The native map -/

/-- What a native `entry` holds. A dictionary is what it has under each key: the native map is
    sorted, and no two of the same keys and entries differ. -/
inductive EntryContent where
  | integer (n : Int64)
  | string (bytes : NativeString)
  | list (d : List EntryContent)
  | dictionary (find : NativeString → Option EntryContent)
  | undefined
  | preformatted (bytes : NativeString)

instance : Inhabited EntryContent := ⟨.undefined⟩

/-- A node of the native map. -/
structure Node (Content : Type) where
  address : Nat
  key : NativeString
  entry : Content

/-- `boost::container::map<std::string, entry>`. A node stays where it is until it is removed, and
    no two nodes are ever at one address; `next` is one that has not been in use. -/
structure BoostMap (Content : Type) where
  nodes : List (Node Content)
  next : Nat
  keys_nodup : (nodes.map Node.key).Nodup
  addresses_nodup : (nodes.map Node.address).Nodup
  fresh : ∀ node ∈ nodes, node.address < next

variable {Content : Type}

namespace BoostMap

/-- The dictionary of a new entry. -/
def new : BoostMap Content where
  nodes := []
  next := 0
  keys_nodup := List.nodup_nil
  addresses_nodup := List.nodup_nil
  fresh := by simp

variable (m : BoostMap Content)

def find (k : NativeString) : Option (Node Content) := m.nodes.find? (·.key = k)

theorem find_eq_none {m : BoostMap Content} {k : NativeString} :
    m.find k = none ↔ ∀ node ∈ m.nodes, node.key ≠ k := by
  simp [find, List.find?_eq_none]

/-- A default entry under a new key. -/
def insert [Inhabited Content] (k : NativeString) (h : m.find k = none) : BoostMap Content where
  nodes := m.nodes ++ [⟨m.next, k, default⟩]
  next := m.next + 1
  keys_nodup := by
    rw [List.map_append, List.map_singleton]
    refine List.Nodup.append m.keys_nodup (List.nodup_singleton k) ?_
    rw [List.disjoint_singleton, List.mem_map]
    rintro ⟨node, hnode, rfl⟩
    exact find_eq_none.mp h node hnode rfl
  addresses_nodup := by
    rw [List.map_append, List.map_singleton]
    refine List.Nodup.append m.addresses_nodup (List.nodup_singleton m.next) ?_
    rw [List.disjoint_singleton, List.mem_map]
    rintro ⟨node, hnode, heq⟩
    exact absurd heq (m.fresh node hnode).ne
  fresh := by
    intro node hnode
    rcases List.mem_append.mp hnode with hnode | hnode
    · have := m.fresh node hnode
      omega
    · rw [List.mem_singleton.mp hnode]
      exact Nat.lt_succ_self m.next

/-- `operator[]`: the address of the key's entry, which is made if it is not there. -/
def subscript [Inhabited Content] (k : NativeString) : Nat × BoostMap Content :=
  match h : m.find k with
  | some node => (node.address, m)
  | none => (m.next, m.insert k h)

/-- The assignment through a reference. -/
def assign (address : Nat) (v : Content) : BoostMap Content where
  nodes := m.nodes.map fun node => if node.address = address then { node with entry := v } else node
  next := m.next
  keys_nodup := by
    rw [List.map_map]
    have hkey : Node.key ∘ (fun node => if node.address = address then { node with entry := v }
        else node) = Node.key := by
      funext node
      simp only [Function.comp_apply]
      split <;> rfl
    rw [hkey]
    exact m.keys_nodup
  addresses_nodup := by
    rw [List.map_map]
    have haddress : Node.address ∘ (fun node => if node.address = address then
        { node with entry := v } else node) = Node.address := by
      funext node
      simp only [Function.comp_apply]
      split <;> rfl
    rw [haddress]
    exact m.addresses_nodup
  fresh := by
    intro node hnode
    obtain ⟨before, hbefore, rfl⟩ := List.mem_map.mp hnode
    have := m.fresh before hbefore
    split <;> exact this

def contains (k : NativeString) : Bool := (m.find k).isSome

def put [Inhabited Content] (k : NativeString) (v : Content) : BoostMap Content :=
  (m.subscript k).2.assign (m.subscript k).1 v

/-- The result is a reference. -/
def get [Inhabited Content] (k : NativeString) : Nat × BoostMap Content := m.subscript k

def keys : List NativeString := m.nodes.map Node.key

def size : Int := m.nodes.length

def empty : Bool := m.nodes.isEmpty

def clear : BoostMap Content where
  nodes := []
  next := m.next
  keys_nodup := List.nodup_nil
  addresses_nodup := List.nodup_nil
  fresh := by simp

end BoostMap

/-- What a Java `Entry` holds: an entry of its own, or a reference into the map. -/
inductive EntryRef (Content : Type) where
  | own (e : Content)
  | slot (address : Nat)

/-- The entry seen through the reference; a node that is gone leaves it dangling. -/
def BoostMap.deref (m : BoostMap Content) : EntryRef Content → Option Content
  | .own e => some e
  | .slot address => (m.nodes.find? (·.address = address)).map Node.entry

/-! ## The view -/

/-- The methods of the class `EntryMap` over the native map. -/
structure EntryMap (Content : Type) where
  m : BoostMap Content

namespace EntryMap

variable [Inhabited Content] (jni : Jni) (v : EntryMap Content)

def get (key : JavaString) : Option (EntryRef Content) × EntryMap Content :=
  if v.m.contains (jni.toNative key) then
    (some (.slot (v.m.get (jni.toNative key)).1), ⟨(v.m.get (jni.toNative key)).2⟩)
  else (none, v)

/-- `none` when the argument is a dangling reference, which is read all the same. -/
def put (key : JavaString) (value : EntryRef Content) :
    Option (Option (EntryRef Content) × EntryMap Content) :=
  let r := v.get jni key
  (r.2.m.deref value).map fun e => (r.1, ⟨r.2.m.put (jni.toNative key) e⟩)

/-- The cast to `int`. -/
def size : Int := v.m.size.bmod (2 ^ 32)

def clear : EntryMap Content := ⟨v.m.clear⟩

def containsKey (key : JavaString) : Bool := v.m.contains (jni.toNative key)

def isEmpty : Bool := v.m.empty

/-- The size of the native vector of keys is checked: one that is no `int` throws. -/
def keySet : Option (Finset JavaString) :=
  if v.m.keys.length < 2 ^ 31 then some (v.m.keys.map jni.toJava).toFinset else none

end EntryMap

/-! ## Sequences of calls -/

/-- An entry given to `put`: the caller's own, or one that an earlier call of the sequence handed
    out. -/
inductive Arg (Content : Type) where
  | own (e : Content)
  | earlier (i : Nat)

inductive Call (Content : Type) where
  | put (key : JavaString) (value : Arg Content)
  | get (key : JavaString)
  | containsKey (key : JavaString)
  | size
  | isEmpty
  | keySet
  | clear

/-- What a call shows its caller. An entry is shown by its content; `entry none` is `null`, and
    `undefined` a look through a dangling reference. -/
inductive Result (Content : Type) where
  | entry (e : Option Content)
  | bool (b : Bool)
  | int (n : Int)
  | keys (ks : Finset JavaString)
  | void
  | thrown
  | undefined

/-- The view and the entries it has handed out. -/
structure ViewState (Content : Type) where
  view : EntryMap Content
  handed : List (EntryRef Content)

def Arg.ref (handed : List (EntryRef Content)) : Arg Content → Option (EntryRef Content)
  | own e => some (.own e)
  | earlier i => handed[i]?

/-- What the caller sees of an entry it is handed. -/
def shown (m : BoostMap Content) : Option (EntryRef Content) → Result Content
  | none => .entry none
  | some r => match m.deref r with
    | some e => .entry (some e)
    | none => .undefined

namespace ViewState

variable [Inhabited Content] (jni : Jni)

/-- One call. There is no entry to pass where nothing was handed out: `put` throws. -/
def step (s : ViewState Content) : Call Content → Result Content × ViewState Content
  | .put key value =>
      match value.ref s.handed with
      | none => (.thrown, s)
      | some r => match s.view.put jni key r with
        | none => (.undefined, s)
        | some (old, view) => (shown view.m old, ⟨view, s.handed ++ old.toList⟩)
  | .get key =>
      let r := s.view.get jni key
      (shown r.2.m r.1, ⟨r.2, s.handed ++ r.1.toList⟩)
  | .containsKey key => (.bool (s.view.containsKey jni key), s)
  | .size => (.int s.view.size, s)
  | .isEmpty => (.bool s.view.isEmpty, s)
  | .keySet => match s.view.keySet jni with
    | some keys => (.keys keys, s)
    | none => (.thrown, s)
  | .clear => (.void, ⟨s.view.clear, s.handed⟩)

def run (s : ViewState Content) : List (Call Content) → List (Result Content) × ViewState Content
  | [] => ([], s)
  | call :: rest =>
      let last := run (s.step jni call).2 rest
      ((s.step jni call).1 :: last.1, last.2)

end ViewState

/-! ## The finite map -/

/-- What the view should be: a finite map, and the contents of the entries handed out. -/
structure FiniteMap (Content : Type) where
  map : Finmap fun _ : JavaString => Content
  handed : List Content

namespace FiniteMap

def content (handed : List Content) : Arg Content → Option Content
  | .own e => some e
  | .earlier i => handed[i]?

def step (f : FiniteMap Content) : Call Content → Result Content × FiniteMap Content
  | .put key value =>
      match content f.handed value with
      | none => (.thrown, f)
      | some e =>
          (.entry (f.map.lookup key),
            ⟨f.map.insert key e, f.handed ++ (f.map.lookup key).toList⟩)
  | .get key => (.entry (f.map.lookup key), ⟨f.map, f.handed ++ (f.map.lookup key).toList⟩)
  | .containsKey key => (.bool (decide (key ∈ f.map)), f)
  | .size => (.int f.map.keys.card, f)
  | .isEmpty => (.bool (decide (f.map.keys = ∅)), f)
  | .keySet => (.keys f.map.keys, f)
  | .clear => (.void, ⟨∅, f.handed⟩)

def run (f : FiniteMap Content) : List (Call Content) → List (Result Content) × FiniteMap Content
  | [] => ([], f)
  | call :: rest =>
      let last := run (f.step call).2 rest
      ((f.step call).1 :: last.1, last.2)

end FiniteMap

namespace BoostMap

variable (jni : Jni) (m : BoostMap Content)

/-- The nodes whose keys some Java string asks for, and the others. -/
def named : List (Node Content) := m.nodes.filter fun node => jni.Named node.key

def unnamed : List (Node Content) := m.nodes.filter fun node => ¬ jni.Named node.key

/-- The finite map that the native one stands for: an entry under each key that can be asked for. -/
def abstract : Finmap fun _ : JavaString => Content :=
  ((m.named jni).map fun node =>
    (⟨jni.toJava node.key, node.entry⟩ : Σ _ : JavaString, Content)).toFinmap

end BoostMap

/-! ## What the methods do to the nodes -/

/-- Among distinct labels the first hit is the only one. -/
theorem find?_of_nodup {α β : Type} [DecidableEq β] {label : α → β} {xs : List α} {x : α}
    (hnodup : (xs.map label).Nodup) (hx : x ∈ xs) :
    xs.find? (fun y => label y = label x) = some x := by
  induction xs with
  | nil => cases hx
  | cons y rest ih =>
    rw [List.map_cons, List.nodup_cons] at hnodup
    rcases List.mem_cons.mp hx with rfl | hx
    · simp
    · have hne : label y ≠ label x := fun heq => hnodup.1 (heq ▸ List.mem_map_of_mem hx)
      rw [List.find?_cons_of_neg (by simpa using hne)]
      exact ih hnodup.2 hx

namespace BoostMap

variable {m : BoostMap Content} {k : NativeString} {node : Node Content}

theorem mem_of_find (h : m.find k = some node) : node ∈ m.nodes ∧ node.key = k :=
  ⟨List.mem_of_find?_eq_some h, by simpa using List.find?_some h⟩

theorem find_of_mem (h : node ∈ m.nodes) : m.find node.key = some node :=
  find?_of_nodup m.keys_nodup h

theorem deref_slot (h : node ∈ m.nodes) : m.deref (.slot node.address) = some node.entry := by
  rw [deref, find?_of_nodup m.addresses_nodup h]
  rfl

theorem eq_of_address (h : node ∈ m.nodes) {other : Node Content} (hother : other ∈ m.nodes)
    (heq : other.address = node.address) : other = node := by
  have h₁ := find?_of_nodup m.addresses_nodup h
  have h₂ := find?_of_nodup m.addresses_nodup hother
  rw [heq, h₁] at h₂
  exact (Option.some.inj h₂).symm

variable [Inhabited Content]

theorem subscript_of_some (h : m.find k = some node) : m.subscript k = (node.address, m) := by
  unfold subscript
  split
  · rename_i other hother
    rw [h] at hother
    rw [Option.some.inj hother]
  · rename_i hnone
    rw [h] at hnone
    cases hnone

theorem subscript_of_none (h : m.find k = none) : m.subscript k = (m.next, m.insert k h) := by
  unfold subscript
  split
  · rename_i other hother
    rw [h] at hother
    cases hother
  · rfl

/-- Writing what is there changes nothing. -/
theorem put_same (h : m.find k = some node) : m.put k node.entry = m := by
  obtain ⟨hmem, _⟩ := mem_of_find h
  have hnodes : (m.nodes.map fun other => if other.address = node.address then
      { other with entry := node.entry } else other) = m.nodes := by
    refine (List.map_congr_left fun other hother => ?_).trans (List.map_id m.nodes)
    split
    · rw [eq_of_address hmem hother ‹_›]
      rfl
    · rfl
  rw [put, subscript_of_some h]
  cases m
  simpa [assign] using hnodes

/-- A new key gets a node of its own. -/
theorem nodes_put_new (h : m.find k = none) (e : Content) :
    (m.put k e).nodes = m.nodes ++ [⟨m.next, k, e⟩] ∧ (m.put k e).next = m.next + 1 := by
  rw [put, subscript_of_none h]
  refine ⟨?_, rfl⟩
  simp only [assign, insert, List.map_append, List.map_cons, List.map_nil, if_pos]
  congr 1
  refine (List.map_congr_left fun other hother => ?_).trans (List.map_id m.nodes)
  rw [if_neg (m.fresh other hother).ne]
  rfl

/-- Through the reference to an old node the new entry is seen. -/
theorem deref_put (h : m.find k = some node) (e : Content) :
    (m.put k e).deref (.slot node.address) = some e := by
  obtain ⟨hmem, _⟩ := mem_of_find h
  rw [put, subscript_of_some h]
  have hnode : { node with entry := e } ∈ (m.assign node.address e).nodes :=
    List.mem_map.mpr ⟨node, hmem, by rw [if_pos rfl]⟩
  exact deref_slot hnode

end BoostMap

namespace EntryMap

variable [Inhabited Content] {jni : Jni} {v : EntryMap Content} {key : JavaString}

theorem get_of_some {node : Node Content} (h : v.m.find (jni.toNative key) = some node) :
    v.get jni key = (some (.slot node.address), v) := by
  rw [get, BoostMap.contains, h, BoostMap.get, BoostMap.subscript_of_some h]
  rfl

theorem get_of_none (h : v.m.find (jni.toNative key) = none) : v.get jni key = (none, v) := by
  rw [get, BoostMap.contains, h]
  rfl

/-- No question changes the native map. -/
theorem get_unchanged : (v.get jni key).2 = v := by
  cases h : v.m.find (jni.toNative key) with
  | none => rw [get_of_none h]
  | some node => rw [get_of_some h]

theorem put_eq {r : EntryRef Content} : v.put jni key r =
    (v.m.deref r).map fun e => ((v.get jni key).1, ⟨v.m.put (jni.toNative key) e⟩) := by
  rw [put, get_unchanged]

end EntryMap

/-! ## The view simulates the map -/

/-- The reference was handed out for an entry with the content `e`, and shows it while its node is
    there. -/
def Shows (m : BoostMap Content) (r : EntryRef Content) (e : Content) : Prop :=
  ∃ address < m.next, r = .slot address ∧ ∀ node ∈ m.nodes, node.address = address → node.entry = e

structure Simulates (jni : Jni) (s : ViewState Content) (f : FiniteMap Content) : Prop where
  lookup : ∀ k, f.map.lookup k = (s.view.m.find (jni.toNative k)).map Node.entry
  handed : List.Forall₂ (Shows s.view.m) s.handed f.handed

/-- When a call in the state `s` does what a finite map does:

* `put` is given an entry that is still there, and for a key that is either new or has that entry
  already;
* `size` is asked while there are no more keys with a name than an `int` holds, and no others (or
  so many that the cast hides them), and `isEmpty` while there is no key at all, or one with a name;
* `keySet` is asked while an `int` counts the keys, and each of them comes up under a name that a
  key has. -/
def Fits (jni : Jni) (s : ViewState Content) : Call Content → Prop
  | .put key value => ∀ r, value.ref s.handed = some r →
      ∃ e, s.view.m.deref r = some e ∧
        ∀ node, s.view.m.find (jni.toNative key) = some node → node.entry = e
  | .size => (s.view.m.named jni).length < 2 ^ 31 ∧ 2 ^ 32 ∣ (s.view.m.unnamed jni).length
  | .isEmpty => s.view.m.nodes = [] ∨ s.view.m.named jni ≠ []
  | .keySet => s.view.m.keys.length < 2 ^ 31 ∧
      ∀ key ∈ s.view.m.keys, jni.toNative (jni.toJava key) ∈ s.view.m.keys
  | _ => True

/-- Each call of the sequence, in the state that those before it have led to. -/
def AllFit [Inhabited Content] (jni : Jni) (s : ViewState Content) : List (Call Content) → Prop
  | [] => True
  | call :: rest => Fits jni s call ∧ AllFit jni (s.step jni call).2 rest

namespace BoostMap

variable {jni : Jni} {m : BoostMap Content}

theorem find_isSome_iff {k : NativeString} : (m.find k).isSome ↔ k ∈ m.keys := by
  rw [keys, List.mem_map, Option.isSome_iff_exists]
  constructor
  · rintro ⟨node, hnode⟩
    exact ⟨node, mem_of_find hnode⟩
  · rintro ⟨node, hnode, rfl⟩
    exact ⟨node, find_of_mem hnode⟩

theorem mem_named {node : Node Content} :
    node ∈ m.named jni ↔ node ∈ m.nodes ∧ jni.Named node.key := by
  simp [named]

/-- Keys with a name have different ones. -/
theorem names_nodup : ((m.named jni).map fun node => jni.toJava node.key).Nodup := by
  have hkeys : ((m.named jni).map Node.key).Nodup :=
    m.keys_nodup.sublist (List.filter_sublist.map Node.key)
  refine List.pairwise_map.mpr ((List.pairwise_map.mp hkeys).imp_of_mem ?_)
  intro node other hnode hother hne heq
  refine hne ((((mem_named.mp hnode).2).toJava_eq_iff _).mp heq |>.trans ?_)
  exact (mem_named.mp hother).2

theorem length_named_add_unnamed :
    (m.named jni).length + (m.unnamed jni).length = m.nodes.length := by
  simpa [named, unnamed] using (List.length_eq_length_filter_add
    (l := m.nodes) fun node => decide (jni.Named node.key)).symm

end BoostMap

namespace Simulates

variable {jni : Jni} {s : ViewState Content} {f : FiniteMap Content}

theorem mem_iff (h : Simulates jni s f) {k : JavaString} :
    k ∈ f.map ↔ jni.toNative k ∈ s.view.m.keys := by
  rw [← Finmap.lookup_isSome, h.lookup, Option.isSome_map, BoostMap.find_isSome_iff]

theorem keys_eq (h : Simulates jni s f) :
    f.map.keys = ((s.view.m.named jni).map fun node => jni.toJava node.key).toFinset := by
  ext k
  rw [Finmap.mem_keys, h.mem_iff, List.mem_toFinset, BoostMap.keys, List.mem_map, List.mem_map]
  constructor
  · rintro ⟨node, hnode, hkey⟩
    have hnamed : jni.Named node.key := hkey ▸ jni.named_toNative k
    exact ⟨node, BoostMap.mem_named.mpr ⟨hnode, hnamed⟩, (hnamed.toJava_eq_iff k).mpr hkey⟩
  · rintro ⟨node, hnode, rfl⟩
    obtain ⟨hmem, hnamed⟩ := BoostMap.mem_named.mp hnode
    exact ⟨node, hmem, hnamed.symm⟩

theorem card_eq (h : Simulates jni s f) : f.map.keys.card = (s.view.m.named jni).length := by
  rw [h.keys_eq, List.toFinset_card_of_nodup BoostMap.names_nodup, List.length_map]

theorem size_iff (h : Simulates jni s f) :
    s.view.size = f.map.keys.card ↔ Fits jni s .size := by
  have hlen : (s.view.m.named jni).length + (s.view.m.unnamed jni).length =
      s.view.m.nodes.length := s.view.m.length_named_add_unnamed
  rw [EntryMap.size, BoostMap.size, h.card_eq, ← hlen, Fits]
  generalize (s.view.m.named jni).length = named
  generalize (s.view.m.unnamed jni).length = unnamed
  have hlt := Int.bmod_lt (x := ((named + unnamed : Nat) : Int)) (m := 2 ^ 32) (by decide)
  constructor
  · intro heq
    have hmod := Int.bmod_emod (x := ((named + unnamed : Nat) : Int)) (m := 2 ^ 32)
    rw [heq] at hmod hlt
    omega
  · rintro ⟨hsmall, hdvd⟩
    obtain ⟨k, rfl⟩ := hdvd
    rw [Nat.cast_add, Nat.cast_mul, Int.add_mul_bmod_self_left]
    exact Int.bmod_eq_of_le (by omega) (by omega)

theorem isEmpty_iff (h : Simulates jni s f) :
    s.view.isEmpty = decide (f.map.keys = ∅) ↔ Fits jni s .isEmpty := by
  rw [EntryMap.isEmpty, BoostMap.empty, Bool.eq_iff_iff, List.isEmpty_iff, decide_eq_true_iff,
    ← Finset.card_eq_zero, h.card_eq, List.length_eq_zero_iff, Fits]
  have hnone : s.view.m.nodes = [] → s.view.m.named jni = [] := by
    intro hnil
    rw [BoostMap.named, hnil]
    rfl
  tauto

theorem keySet_iff (h : Simulates jni s f) :
    s.view.keySet jni = some f.map.keys ↔ Fits jni s .keySet := by
  unfold EntryMap.keySet Fits
  split
  · rename_i hlt
    simp only [hlt, true_and, Option.some.injEq]
    constructor
    · intro heq key hkey
      rw [← h.mem_iff, ← Finmap.mem_keys, ← heq, List.mem_toFinset]
      exact List.mem_map_of_mem hkey
    · intro hnames
      ext k
      rw [List.mem_toFinset, List.mem_map, Finmap.mem_keys, h.mem_iff]
      constructor
      · rintro ⟨key, hkey, rfl⟩
        exact hnames key hkey
      · exact fun hmem => ⟨_, hmem, jni.toJava_toNative k⟩
  · rename_i hge
    exact iff_of_false nofun fun hfits => hge hfits.1

variable [Inhabited Content]

/-- What `get` shows, and what it hands out. -/
theorem get (h : Simulates jni s f) (key : JavaString) :
    shown s.view.m (s.view.get jni key).1 = .entry (f.map.lookup key) ∧
      List.Forall₂ (Shows s.view.m) (s.view.get jni key).1.toList (f.map.lookup key).toList := by
  rw [h.lookup]
  cases hfind : s.view.m.find (jni.toNative key) with
  | none =>
    rw [EntryMap.get_of_none hfind]
    exact ⟨rfl, .nil⟩
  | some node =>
    obtain ⟨hmem, _⟩ := BoostMap.mem_of_find hfind
    rw [EntryMap.get_of_some hfind]
    refine ⟨?_,
      .cons ⟨node.address, s.view.m.fresh node hmem, rfl, fun other hother heq => ?_⟩ .nil⟩
    · rw [shown, BoostMap.deref_slot hmem]
      rfl
    · rw [BoostMap.eq_of_address hmem hother heq]

omit [Inhabited Content] in
/-- An argument that is still there has the content the caller means. -/
theorem arg (h : Simulates jni s f) (value : Arg Content) :
    (value.ref s.handed = none ∧ FiniteMap.content f.handed value = none) ∨
      ∃ r e, value.ref s.handed = some r ∧ FiniteMap.content f.handed value = some e ∧
        ∀ e', s.view.m.deref r = some e' → e' = e := by
  cases value with
  | own e => exact Or.inr ⟨.own e, e, rfl, rfl, fun e' he' => (Option.some.inj he').symm⟩
  | earlier i =>
    have hlen := h.handed.length_eq
    by_cases hi : i < s.handed.length
    · have hi' : i < f.handed.length := by omega
      obtain ⟨address, _, hr, hshows⟩ := h.handed.get hi hi'
      refine Or.inr ⟨s.handed[i], f.handed[i], List.getElem?_eq_getElem hi,
        List.getElem?_eq_getElem hi', fun e' he' => ?_⟩
      rw [show s.handed[i] = .slot address from hr] at he'
      obtain ⟨node, hfind, rfl⟩ := Option.map_eq_some_iff.mp he'
      exact hshows node (List.mem_of_find?_eq_some hfind) (by simpa using List.find?_some hfind)
    · exact Or.inl ⟨List.getElem?_eq_none (by omega), List.getElem?_eq_none (by omega)⟩

end Simulates

variable [Inhabited Content]

/-- A handed-out reference keeps showing its entry when a node is added. -/
theorem Shows.put_new {m : BoostMap Content} {r : EntryRef Content} {e new : Content}
    {k : NativeString}
    (h : Shows m r e) (hnone : m.find k = none) : Shows (m.put k new) r e := by
  obtain ⟨address, hlt, rfl, hshows⟩ := h
  obtain ⟨hnodes, hnext⟩ := BoostMap.nodes_put_new hnone new
  refine ⟨address, by omega, rfl, fun node hnode heq => ?_⟩
  rw [hnodes] at hnode
  rcases List.mem_append.mp hnode with hnode | hnode
  · exact hshows node hnode heq
  · rw [List.mem_singleton.mp hnode] at heq
    exact absurd hlt (heq ▸ lt_irrefl _)

theorem find_put_new {m : BoostMap Content} {k : NativeString} (hnone : m.find k = none)
    (e : Content) (k' : NativeString) : ((m.put k e).find k').map Node.entry =
      if k' = k then some e else (m.find k').map Node.entry := by
  obtain ⟨hnodes, _⟩ := BoostMap.nodes_put_new hnone e
  rw [BoostMap.find, hnodes, List.find?_append]
  by_cases hk : k' = k
  · subst hk
    have hnone' : m.nodes.find? (·.key = k') = none := hnone
    simp [hnone']
  · have hne : k ≠ k' := fun heq => hk heq.symm
    simp [hk, hne, BoostMap.find]

namespace Simulates

variable {jni : Jni} {s : ViewState Content} {f : FiniteMap Content}

theorem put_new (h : Simulates jni s f) {key : JavaString}
    (hnone : s.view.m.find (jni.toNative key) = none) (e : Content) :
    Simulates jni ⟨⟨s.view.m.put (jni.toNative key) e⟩, s.handed⟩
      ⟨f.map.insert key e, f.handed⟩ := by
  refine ⟨fun k => ?_, h.handed.imp fun r e' hshows => hshows.put_new hnone⟩
  rw [find_put_new hnone]
  by_cases hk : k = key
  · rw [hk, if_pos rfl, Finmap.lookup_insert]
  · have hne : jni.toNative k ≠ jni.toNative key := by
      intro heq
      exact hk (by rw [← jni.toJava_toNative k, heq, jni.toJava_toNative])
    rw [if_neg hne, Finmap.lookup_insert_of_ne f.map hk, h.lookup]

theorem put_same (h : Simulates jni s f) {key : JavaString} {node : Node Content}
    (hfind : s.view.m.find (jni.toNative key) = some node) :
    Simulates jni ⟨⟨s.view.m.put (jni.toNative key) node.entry⟩, s.handed⟩
      ⟨f.map.insert key node.entry, f.handed⟩ := by
  rw [BoostMap.put_same hfind]
  refine ⟨fun k => ?_, h.handed⟩
  by_cases hk : k = key
  · rw [hk, Finmap.lookup_insert, hfind]
    rfl
  · rw [Finmap.lookup_insert_of_ne f.map hk, h.lookup]

omit [Inhabited Content] in
theorem hand_out (h : Simulates jni s f) {rs : List (EntryRef Content)} {es : List Content}
    (hmore : List.Forall₂ (Shows s.view.m) rs es) :
    Simulates jni ⟨s.view, s.handed ++ rs⟩ ⟨f.map, f.handed ++ es⟩ :=
  ⟨h.lookup, List.rel_append h.handed hmore⟩

end Simulates

section Steps

variable {jni : Jni} {s : ViewState Content} {f : FiniteMap Content} {call : Call Content}

/-- A call that fits does what the finite map does. -/
theorem step_of_fits (h : Simulates jni s f) (hfits : Fits jni s call) :
    (s.step jni call).1 = (f.step call).1 ∧
      Simulates jni (s.step jni call).2 (f.step call).2 := by
  cases call with
  | put key value =>
    rcases h.arg value with ⟨hr, hcontent⟩ | ⟨r, e, hr, hcontent, hsame⟩
    -- no such entry has been handed out: both throw
    · simp only [ViewState.step, FiniteMap.step, hr, hcontent]
      exact ⟨trivial, h⟩
    · obtain ⟨e', hderef, hold⟩ := hfits r hr
      obtain rfl := hsame e' hderef
      obtain ⟨hshown, hhanded⟩ := h.get key
      simp only [ViewState.step, FiniteMap.step, hr, hcontent, EntryMap.put_eq, hderef,
        Option.map_some]
      cases hfind : s.view.m.find (jni.toNative key) with
      | none =>
        have hlookup : f.map.lookup key = none := by
          rw [h.lookup, hfind]
          rfl
        rw [EntryMap.get_of_none hfind, hlookup]
        exact ⟨rfl, (h.put_new hfind e').hand_out .nil⟩
      | some node =>
        -- the entry is there already, so the native map stays as it is
        obtain rfl := hold node hfind
        rw [BoostMap.put_same hfind]
        refine ⟨hshown, ?_⟩
        have hput := h.put_same hfind
        rw [BoostMap.put_same hfind] at hput
        exact hput.hand_out hhanded
  | get key =>
    obtain ⟨hshown, hhanded⟩ := h.get key
    simp only [ViewState.step, FiniteMap.step, EntryMap.get_unchanged]
    exact ⟨hshown, h.hand_out hhanded⟩
  | containsKey key =>
    refine ⟨congrArg Result.bool ?_, h⟩
    rw [EntryMap.containsKey, BoostMap.contains, Bool.eq_iff_iff, decide_eq_true_iff, h.mem_iff,
      BoostMap.find_isSome_iff]
  | size => exact ⟨congrArg Result.int (h.size_iff.mpr hfits), h⟩
  | isEmpty => exact ⟨congrArg Result.bool (h.isEmpty_iff.mpr hfits), h⟩
  | keySet =>
    simp only [ViewState.step, FiniteMap.step, h.keySet_iff.mpr hfits]
    exact ⟨trivial, h⟩
  | clear =>
    -- what has been handed out dangles; no new node will take its address
    refine ⟨rfl, fun k => rfl, h.handed.imp fun r e hshows => ?_⟩
    obtain ⟨address, hlt, rfl, _⟩ := hshows
    exact ⟨address, hlt, rfl, fun node hnode => by cases hnode⟩

/-- A call that does not fit shows its caller something else. -/
theorem step_of_not_fits (h : Simulates jni s f) (hfits : ¬ Fits jni s call) :
    (s.step jni call).1 ≠ (f.step call).1 := by
  cases call with
  | put key value =>
    rcases h.arg value with ⟨hr, _⟩ | ⟨r, e, hr, hcontent, hsame⟩
    · refine absurd (fun r' hr' => ?_) hfits
      rw [hr] at hr'
      cases hr'
    · simp only [ViewState.step, FiniteMap.step, hr, hcontent, EntryMap.put_eq]
      cases hderef : s.view.m.deref r with
      | none => simp
      | some e' =>
        obtain rfl := hsame e' hderef
        cases hfind : s.view.m.find (jni.toNative key) with
        | none =>
          refine absurd (fun r' hr' => ⟨e', ?_, fun node hnode => ?_⟩) hfits
          · rw [← Option.some.inj (hr.symm.trans hr'), hderef]
          · rw [hfind] at hnode
            cases hnode
        | some node =>
          -- the old entry is shown with its new content
          rw [Option.map_some, EntryMap.get_of_some hfind, h.lookup, hfind]
          simp only [shown, BoostMap.deref_put hfind, Option.map_some, ne_eq, Result.entry.injEq,
            Option.some.injEq]
          rintro rfl
          refine hfits fun r' hr' => ⟨node.entry, ?_, fun other hother => ?_⟩
          · rw [← Option.some.inj (hr.symm.trans hr'), hderef]
          · rw [Option.some.inj (hfind.symm.trans hother)]
  | size => exact fun heq => hfits (h.size_iff.mp (Result.int.inj heq))
  | isEmpty => exact fun heq => hfits (h.isEmpty_iff.mp (Result.bool.inj heq))
  | keySet =>
    simp only [ViewState.step, FiniteMap.step]
    split
    · rename_i keys hkeys
      exact fun heq => hfits (h.keySet_iff.mp (hkeys.trans (congrArg some (Result.keys.inj heq))))
    · simp
  | get key => exact absurd trivial hfits
  | containsKey key => exact absurd trivial hfits
  | clear => exact absurd trivial hfits

/-! ## Whole sequences -/

omit [Inhabited Content] in
theorem simulates_abstract (jni : Jni) (m : BoostMap Content) :
    Simulates jni ⟨⟨m⟩, []⟩ ⟨m.abstract jni, []⟩ := by
  refine ⟨fun k => ?_, .nil⟩
  have hlookup : ∀ nodes : List (Node Content),
      ((nodes.filter fun node => jni.Named node.key).map fun node =>
          (⟨jni.toJava node.key, node.entry⟩ : Σ _ : JavaString, Content)).dlookup k =
        (nodes.find? (·.key = jni.toNative k)).map Node.entry := by
    intro nodes
    induction nodes with
    | nil => rfl
    | cons node rest ih =>
      by_cases hnamed : jni.Named node.key
      · rw [List.filter_cons_of_pos (by simpa using hnamed), List.map_cons]
        by_cases hk : node.key = jni.toNative k
        · obtain rfl := (hnamed.toJava_eq_iff k).mpr hk
          rw [List.dlookup_cons_eq, List.find?_cons_of_pos (by simpa using hk)]
          rfl
        · have hne : k ≠ jni.toJava node.key := fun heq => hk ((hnamed.toJava_eq_iff k).mp heq.symm)
          rw [List.dlookup_cons_ne _ _ hne, List.find?_cons_of_neg (by simpa using hk), ih]
      · rw [List.filter_cons_of_neg (by simpa using hnamed), ih, List.find?_cons_of_neg]
        simpa using Jni.ne_toNative_of_not_named hnamed k
  exact (Finmap.dlookup_list_toFinmap k _).trans (hlookup m.nodes)

theorem run_iff (h : Simulates jni s f) (calls : List (Call Content)) :
    (s.run jni calls).1 = (f.run calls).1 ↔ AllFit jni s calls := by
  induction calls generalizing s f with
  | nil => exact iff_of_true rfl trivial
  | cons call rest ih =>
    rw [ViewState.run, FiniteMap.run, AllFit, List.cons.injEq]
    by_cases hfits : Fits jni s call
    · obtain ⟨hresult, hnext⟩ := step_of_fits h hfits
      rw [ih hnext]
      exact and_congr_left fun _ => iff_of_true hresult hfits
    · exact iff_of_false (fun heq => step_of_not_fits h hfits heq.1) fun hall => hfits hall.1

end Steps

/-- **The view behaves as a finite map** just when each call of the sequence fits. -/
theorem dictionary_is_map_iff (jni : Jni) (m : BoostMap Content) (calls : List (Call Content)) :
    ((⟨⟨m⟩, []⟩ : ViewState Content).run jni calls).1 =
        ((⟨m.abstract jni, []⟩ : FiniteMap Content).run calls).1 ↔
      AllFit jni ⟨⟨m⟩, []⟩ calls :=
  run_iff (simulates_abstract jni m) calls

/-- A decoded key with a NUL in it: `keySet` has the name `a`, which no question finds. -/
example : ((⟨⟨BoostMap.new.put [0x61, 0, 0x62] (.integer 1)⟩, []⟩ : ViewState EntryContent).run
    .modifiedUtf8 [.keySet, .containsKey [0x61]]).1 = [.keys {[0x61]}, .bool false] := rfl

/-- `put` on a key that is there returns the entry it has just put. -/
theorem replaced_entry_lost :
    ((⟨⟨.new⟩, []⟩ : ViewState EntryContent).run .modifiedUtf8
        [.put [0x6B] (.own (.integer 1)), .put [0x6B] (.own (.integer 2))]).1 =
      [.entry none, .entry (some (.integer 2))] ∧
    ((⟨BoostMap.new.abstract .modifiedUtf8, []⟩ : FiniteMap EntryContent).run
        [.put [0x6B] (.own (.integer 1)), .put [0x6B] (.own (.integer 2))]).1 =
      [.entry none, .entry (some (.integer 1))] := by
  refine ⟨rfl, ?_⟩
  simp [FiniteMap.run, FiniteMap.step, FiniteMap.content, BoostMap.abstract, BoostMap.named,
    BoostMap.new]

end Session
end Libtorrent4j
