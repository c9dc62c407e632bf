import Mathlib.Tactic

/-!
# Java trees as bencoded trees

`Entry.fromMap` and `Entry.fromList` turn a tree of Java collections into a bencoded one. Both go
through the same chain of type tests, whose last branch stores `toString()`. Of the integral
numbers the chain knows `Integer` alone: **a `Byte`, a `Short` or a `Long` becomes a string**.

`same_tree_iff` says that this is all that can go wrong, at any depth.
-/

namespace Libtorrent4j
namespace Session

/-- The native `entry`. The keys of a dictionary are distinct. The native map sorts them; here
    they stand in the order of their insertion, and a dictionary is compared by its keys and what
    is found under each (`SameFields`). -/
inductive NativeEntry where
  | integer (n : Int64)
  | string (s : String)
  | list (d : List NativeEntry)
  | dictionary (d : List (String × NativeEntry))
  | undefined
  | preformatted (bytes : List UInt8)

/-- The class around it. -/
structure Entry where
  swig : NativeEntry

/-- `boost_string_entry_map.put`. -/
def putEntry (d : List (String × NativeEntry)) (k : String) (v : NativeEntry) :
    List (String × NativeEntry) :=
  d.filter (·.1 != k) ++ [(k, v)]

namespace Entry

/-- An accessor of another type throws. -/
def string (e : Entry) : Option String :=
  match e.swig with
  | .string s => some s
  | _ => none

def integer (e : Entry) : Option Int64 :=
  match e.swig with
  | .integer n => some n
  | _ => none

def list (e : Entry) : Option (List Entry) :=
  match e.swig with
  | .list d => some (d.map Entry.mk)
  | _ => none

def dictionary (e : Entry) : Option (List (String × Entry)) :=
  match e.swig with
  | .dictionary d => some (d.map fun field => (field.1, ⟨field.2⟩))
  | _ => none

end Entry

/-- The integral number classes. -/
inductive JavaNumber where
  | byte (n : Int8)
  | short (n : Int16)
  | integer (n : Int32)
  | long (n : Int64)
deriving DecidableEq

namespace JavaNumber

def longValue : JavaNumber → Int64
  | byte n => n.toInt64
  | short n => n.toInt64
  | integer n => n.toInt64
  | long n => n

def toString (n : JavaNumber) : String := ToString.toString n.longValue.toInt

def IsInteger : JavaNumber → Prop
  | integer _ => True
  | _ => False

end JavaNumber

/-- A Java tree. A map is its keys and values in the order of `keySet`. -/
inductive JavaObject where
  | string (s : String)
  | number (n : JavaNumber)
  | entry (v : Entry)
  | native (v : NativeEntry)
  | list (vs : List JavaObject)
  | map (fields : List (String × JavaObject))

/-! ## The conversion -/

mutual

/-- The loop of `fromList`. -/
def addAll (d : List NativeEntry) : List JavaObject → List NativeEntry
  | [] => d
  | .string s :: rest => addAll (d ++ [.string s]) rest
  | .number (.integer n) :: rest => addAll (d ++ [.integer n.toInt64]) rest
  | .entry v :: rest => addAll (d ++ [v.swig]) rest
  | .native v :: rest => addAll (d ++ [v]) rest
  | .list vs :: rest => addAll (d ++ [.list (addAll [] vs)]) rest
  | .map fields :: rest => addAll (d ++ [.dictionary (putAll [] fields)]) rest
  -- The last branch: whatever is left has a text.
  | .number n :: rest => addAll (d ++ [.string n.toString]) rest

/-- The loop of `fromMap`. -/
def putAll (d : List (String × NativeEntry)) :
    List (String × JavaObject) → List (String × NativeEntry)
  | [] => d
  | (k, .string s) :: rest => putAll (putEntry d k (.string s)) rest
  | (k, .number (.integer n)) :: rest => putAll (putEntry d k (.integer n.toInt64)) rest
  | (k, .entry v) :: rest => putAll (putEntry d k v.swig) rest
  | (k, .native v) :: rest => putAll (putEntry d k v) rest
  | (k, .list vs) :: rest => putAll (putEntry d k (.list (addAll [] vs))) rest
  | (k, .map fields) :: rest => putAll (putEntry d k (.dictionary (putAll [] fields))) rest
  | (k, .number n) :: rest => putAll (putEntry d k (.string n.toString)) rest

end

/-- `Entry.fromList`: one element after the other is converted and appended. -/
def Entry.fromList (list : List JavaObject) : Entry := ⟨.list (addAll [] list)⟩

/-- `Entry.fromMap`: a later field of the same key replaces an earlier one. -/
def Entry.fromMap (map : List (String × JavaObject)) : Entry := ⟨.dictionary (putAll [] map)⟩

/-! ## The same shape -/

mutual

/-- Reading the entry back gives the tree. -/
def JavaObject.SameShape : JavaObject → Entry → Prop
  | .string s, e => e.string = some s
  | .number n, e => e.integer = some n.longValue
  | .entry v, e => e = v
  | .native v, e => e.swig = v
  | .list vs, e => ∃ es, e.list = some es ∧ SameShapes vs es
  | .map fields, e => ∃ d, e.dictionary = some d ∧
      (d.map Prod.fst).Perm (fields.map Prod.fst) ∧ SameFields fields d

/-- Element by element, and as many of them. -/
def SameShapes : List JavaObject → List Entry → Prop
  | [], es => es = []
  | v :: vs, es => ∃ e rest, es = e :: rest ∧ v.SameShape e ∧ SameShapes vs rest

/-- The field of every key is there, in the same shape. -/
def SameFields : List (String × JavaObject) → List (String × Entry) → Prop
  | [], _ => True
  | (k, v) :: rest, d => (∃ e, d.lookup k = some e ∧ v.SameShape e) ∧ SameFields rest d

end

mutual

/-- The keys of every map are distinct. -/
def JavaObject.WellFormed : JavaObject → Prop
  | .list vs => WellFormedList vs
  | .map fields => (fields.map Prod.fst).Nodup ∧ WellFormedFields fields
  | _ => True

def WellFormedList : List JavaObject → Prop
  | [] => True
  | v :: rest => v.WellFormed ∧ WellFormedList rest

def WellFormedFields : List (String × JavaObject) → Prop
  | [] => True
  | (_, v) :: rest => v.WellFormed ∧ WellFormedFields rest

end

mutual

/-- Every number of the tree is an `Integer`. -/
def JavaObject.OnlyIntegers : JavaObject → Prop
  | .number n => n.IsInteger
  | .list vs => OnlyIntegersList vs
  | .map fields => OnlyIntegersFields fields
  | _ => True

def OnlyIntegersList : List JavaObject → Prop
  | [] => True
  | v :: rest => v.OnlyIntegers ∧ OnlyIntegersList rest

def OnlyIntegersFields : List (String × JavaObject) → Prop
  | [] => True
  | (_, v) :: rest => v.OnlyIntegers ∧ OnlyIntegersFields rest

end

/-! ## What the two chains do -/

/-- The entry that both chains make of an object. -/
def JavaObject.converted : JavaObject → NativeEntry
  | .string s => .string s
  | .number (.integer n) => .integer n.toInt64
  | .entry v => v.swig
  | .native v => v
  | .list vs => (Entry.fromList vs).swig
  | .map fields => (Entry.fromMap fields).swig
  | .number n => .string n.toString

theorem addAll_cons (d : List NativeEntry) (v : JavaObject) (rest : List JavaObject) :
    addAll d (v :: rest) = addAll (d ++ [v.converted]) rest := by
  cases v with
  | number n =>
    cases n <;>
      simp only [addAll, JavaObject.converted]
  | _ => simp only [addAll, JavaObject.converted, Entry.fromList, Entry.fromMap]

theorem putAll_cons (d : List (String × NativeEntry)) (k : String) (v : JavaObject)
    (rest : List (String × JavaObject)) :
    putAll d ((k, v) :: rest) = putAll (putEntry d k v.converted) rest := by
  cases v with
  | number n =>
    cases n <;>
      simp only [putAll, JavaObject.converted]
  | _ => simp only [putAll, JavaObject.converted, Entry.fromList, Entry.fromMap]

/-- Induction on the list. -/
theorem addAll_eq (d : List NativeEntry) (vs : List JavaObject) :
    addAll d vs = d ++ vs.map JavaObject.converted := by
  induction vs generalizing d with
  | nil => simp [addAll]
  | cons v rest ih => rw [addAll_cons, ih, List.append_assoc, List.map_cons, List.singleton_append]

/-- A key that is not there yet comes last. -/
theorem putEntry_of_new {d : List (String × NativeEntry)} {k : String}
    (hnew : k ∉ d.map Prod.fst) (v : NativeEntry) : putEntry d k v = d ++ [(k, v)] := by
  rw [putEntry, List.filter_eq_self.mpr]
  intro field hfield
  simp only [bne_iff_ne, ne_eq]
  rintro rfl
  exact hnew (List.mem_map_of_mem hfield)

/-- Without repeated keys every field is added, and none replaced. -/
theorem putAll_eq (d : List (String × NativeEntry)) (fields : List (String × JavaObject))
    (hkeys : (d.map Prod.fst ++ fields.map Prod.fst).Nodup) :
    putAll d fields = d ++ fields.map fun field => (field.1, field.2.converted) := by
  induction fields generalizing d with
  | nil => simp [putAll]
  | cons field rest ih =>
    have hnew : field.1 ∉ d.map Prod.fst := fun hmem =>
      List.disjoint_of_nodup_append hkeys hmem (by simp)
    rw [putAll_cons, putEntry_of_new hnew, ih, List.append_assoc, List.map_cons,
      List.singleton_append]
    simpa using hkeys

theorem fromList_list (vs : List JavaObject) :
    (Entry.fromList vs).list = some (vs.map fun v => ⟨v.converted⟩) := by
  simp [Entry.fromList, Entry.list, addAll_eq]

/-- A Java map has no key twice. -/
theorem fromMap_dictionary {fields : List (String × JavaObject)}
    (hkeys : (fields.map Prod.fst).Nodup) : (Entry.fromMap fields).dictionary =
      some (fields.map fun field => (field.1, ⟨field.2.converted⟩)) := by
  simp [Entry.fromMap, Entry.dictionary, putAll_eq [] fields (by simpa using hkeys)]

/-- The value of a key of the map, among distinct keys. -/
theorem lookup_converted {fields : List (String × JavaObject)}
    (hkeys : (fields.map Prod.fst).Nodup) {field : String × JavaObject} (hfield : field ∈ fields) :
    (fields.map fun field => (field.1, (⟨field.2.converted⟩ : Entry))).lookup field.1 =
      some ⟨field.2.converted⟩ := by
  induction fields with
  | nil => cases hfield
  | cons first rest ih =>
    rw [List.map_cons, List.nodup_cons] at hkeys
    rw [List.map_cons, List.lookup_cons]
    rcases List.mem_cons.mp hfield with rfl | hrest
    · simp
    · have hne : field.1 ≠ first.1 := by
        rintro heq
        exact hkeys.1 (heq ▸ List.mem_map_of_mem hrest)
      simp only [beq_false_of_ne hne]
      exact ih hkeys.2 hrest

mutual

/-- By induction on the tree, with `sameShapes_converted_iff` and `sameFields_converted_iff`. -/
theorem sameShape_converted_iff : ∀ v : JavaObject, v.WellFormed →
    (v.SameShape ⟨v.converted⟩ ↔ v.OnlyIntegers)
  | .string s, _ => by simp [JavaObject.SameShape, JavaObject.converted, JavaObject.OnlyIntegers,
      Entry.string]
  | .number n, _ => by
    cases n <;>
      simp [JavaObject.SameShape, JavaObject.converted, JavaObject.OnlyIntegers, Entry.integer,
        JavaNumber.IsInteger, JavaNumber.longValue]
  | .entry v, _ => by simp [JavaObject.SameShape, JavaObject.converted, JavaObject.OnlyIntegers]
  | .native v, _ => by simp [JavaObject.SameShape, JavaObject.converted, JavaObject.OnlyIntegers]
  | .list vs, h => by
    have ih := sameShapes_converted_iff vs (by simpa [JavaObject.WellFormed] using h)
    have hlist : (⟨(JavaObject.list vs).converted⟩ : Entry).list = _ := fromList_list vs
    simp only [JavaObject.SameShape, JavaObject.OnlyIntegers, hlist, Option.some.injEq,
      exists_eq_left', ih]
  | .map fields, h => by
    rw [JavaObject.WellFormed] at h
    have ih := sameFields_converted_iff fields h.2
      (fields.map fun field => (field.1, ⟨field.2.converted⟩)) fun field hfield =>
        lookup_converted h.1 hfield
    have hkeys : ((fields.map fun field => (field.1, (⟨field.2.converted⟩ : Entry))).map
        Prod.fst).Perm (fields.map Prod.fst) := by
      simp [Function.comp_def]
    have hdictionary : (⟨(JavaObject.map fields).converted⟩ : Entry).dictionary = _ :=
      fromMap_dictionary h.1
    simp only [JavaObject.SameShape, JavaObject.OnlyIntegers, hdictionary, Option.some.injEq,
      exists_eq_left', ih,
      hkeys, true_and]

/-- The lists, element by element. -/
theorem sameShapes_converted_iff : ∀ vs : List JavaObject, WellFormedList vs →
    (SameShapes vs (vs.map fun v => ⟨v.converted⟩) ↔ OnlyIntegersList vs)
  | [], _ => by simp [SameShapes, OnlyIntegersList]
  | v :: rest, h => by
    rw [WellFormedList] at h
    have hv := sameShape_converted_iff v h.1
    have hrest := sameShapes_converted_iff rest h.2
    simp only [SameShapes, OnlyIntegersList, List.map_cons, List.cons.injEq, ← hv, ← hrest]
    constructor
    · rintro ⟨e, es, ⟨rfl, rfl⟩, hshape⟩
      exact hshape
    · exact fun hshape => ⟨_, _, ⟨rfl, rfl⟩, hshape⟩

/-- The fields may lie among others, as long as each is found under its key. -/
theorem sameFields_converted_iff : ∀ fields : List (String × JavaObject), WellFormedFields fields →
    ∀ d : List (String × Entry),
      (∀ field ∈ fields, d.lookup field.1 = some ⟨field.2.converted⟩) →
      (SameFields fields d ↔ OnlyIntegersFields fields)
  | [], _, _, _ => by simp [SameFields, OnlyIntegersFields]
  | (k, v) :: rest, h, d, hd => by
    rw [WellFormedFields] at h
    have hv := sameShape_converted_iff v h.1
    have hrest :=
      sameFields_converted_iff rest h.2 d fun field hfield => hd field (by simp [hfield])
    have hk : d.lookup k = some ⟨v.converted⟩ := hd (k, v) (by simp)
    simp only [SameFields, OnlyIntegersFields, hk, Option.some.injEq, exists_eq_left', hv, hrest]

end

/-- **Java trees become the same bencoded tree** just when every integral number in them, at any
    depth, is an `Integer`. -/
theorem same_tree_iff (vs : List JavaObject) (fields : List (String × JavaObject))
    (hvs : (JavaObject.list vs).WellFormed) (hfields : (JavaObject.map fields).WellFormed) :
    ((JavaObject.list vs).SameShape (Entry.fromList vs) ↔ (JavaObject.list vs).OnlyIntegers) ∧
      ((JavaObject.map fields).SameShape (Entry.fromMap fields) ↔
        (JavaObject.map fields).OnlyIntegers) :=
  ⟨sameShape_converted_iff (.list vs) hvs, sameShape_converted_iff (.map fields) hfields⟩

/-- A list in a map, and a map in a list. -/
theorem same_tree_nested :
    (JavaObject.list [.map [("k", .number (.integer 7))]]).SameShape
        (Entry.fromList [.map [("k", .number (.integer 7))]]) ∧
      (JavaObject.map [("l", .list [.string "x", .native (.integer 3)])]).SameShape
        (Entry.fromMap [("l", .list [.string "x", .native (.integer 3)])]) := by
  have h := same_tree_iff [.map [("k", .number (.integer 7))]]
    [("l", .list [.string "x", .native (.integer 3)])]
    (by simp [JavaObject.WellFormed, WellFormedList, WellFormedFields])
    (by simp [JavaObject.WellFormed, WellFormedList, WellFormedFields])
  exact ⟨h.1.mpr (by simp [JavaObject.OnlyIntegers, OnlyIntegersList, OnlyIntegersFields,
      JavaNumber.IsInteger]),
    h.2.mpr (by simp [JavaObject.OnlyIntegers, OnlyIntegersList, OnlyIntegersFields])⟩

/-- A `Long` in a map. -/
theorem long_becomes_string :
    (Entry.fromMap [("n", .number (.long 5))]).dictionary = some [("n", ⟨.string "5"⟩)] ∧
      (JavaObject.map [("n", .number (.long 5))]).WellFormed ∧
      ¬ (JavaObject.map [("n", .number (.long 5))]).SameShape
        (Entry.fromMap [("n", .number (.long 5))]) := by
  have hwell : (JavaObject.map [("n", .number (.long 5))]).WellFormed := by
    simp [JavaObject.WellFormed, WellFormedFields]
  have htext : JavaNumber.toString (.long 5) = "5" := by decide +kernel
  refine ⟨?_, hwell, fun hshape => ?_⟩
  · rw [fromMap_dictionary (by simp)]
    simp [JavaObject.converted, htext]
  · have honly := (sameShape_converted_iff _ hwell).mp hshape
    simp [JavaObject.OnlyIntegers, OnlyIntegersFields, JavaNumber.IsInteger] at honly

end Session
end Libtorrent4j
