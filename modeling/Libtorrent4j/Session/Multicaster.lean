import Libtorrent4j.Session.Listeners

/-!
# The multicaster as objects

`Listeners.lean` has the trees of `AlertMulticaster` as values. In the program a multicaster is an
object with two final references, listeners and multicasters are compared by identity, and a loop
that has taken a tree out of its slot goes on with it while other threads build new ones. Here are
the same operations on a heap of objects, which only ever grows; they compute the trees of
`Listeners.lean` (`removeInternal_spec`), so **every slot is a list**, and a tree in somebody's
hands never changes (`multicaster_is_list`).
-/

namespace Libtorrent4j
namespace Session

/-- A reference: to a listener, or to the multicaster with this address. -/
inductive Ref where
  | listener (id : ListenerId)
  | multicaster (address : Nat)
deriving DecidableEq, Repr

/-- A listener, or an object with a smaller address. -/
def Ref.Below (bound : Nat) : Ref → Prop
  | .listener _ => True
  | .multicaster address => address < bound

/-- The fields `a` and `b` of every multicaster, by address. -/
abbrev Heap := List (Ref × Ref)

/-- How deep the calls of an operation on the tree go. -/
def AlertMulticaster.height : AlertMulticaster → Nat
  | .listener _ => 1
  | .multicaster a b => max a.height b.height + 1

namespace Heap

def addInternal (h : Heap) : Option Ref → Option Ref → Option Ref × Heap
  | none, b => (b, h)
  | some a, none => (some a, h)
  | some a, some b => (some (.multicaster h.length), h ++ [(a, b)])

/-- `removeInternal` and `remove`. The depth is that of the calls. -/
def removeInternal (oldl : ListenerId) : Nat → Heap → Ref → Option Ref × Heap
  | 0, h, l => (some l, h)
  | depth + 1, h, l =>
      if l = .listener oldl then (none, h)
      else
        match l with
        | .listener _ => (some l, h)
        | .multicaster address =>
            match h[address]? with
            | none => (some l, h)
            | some (a, b) =>
                if a = .listener oldl then (some b, h)
                else if b = .listener oldl then (some a, h)
                else
                  let (a2, h) := removeInternal oldl depth h a
                  let (b2, h) := removeInternal oldl depth h b
                  if a2 = some a ∧ b2 = some b then (some l, h) else addInternal h a2 b2

/-- The listeners that `alert` calls, in order, while none of them throws. -/
def alert : Nat → Heap → Ref → List ListenerId
  | 0, _, _ => []
  | _ + 1, _, .listener id => [id]
  | depth + 1, h, .multicaster address =>
      match h[address]? with
      | none => []
      | some (a, b) => alert depth h a ++ alert depth h b

/-! ## The tree under a reference -/

/-- The objects that can be reached from the reference are this tree. -/
def Holds (h : Heap) : Ref → AlertMulticaster → Prop
  | l, .listener id => l = .listener id
  | l, .multicaster ta tb => ∃ address a b, l = .multicaster address ∧ h[address]? = some (a, b) ∧
      h.Holds a ta ∧ h.Holds b tb

def HoldsSlot (h : Heap) (slot : Option Ref) (tree : Option AlertMulticaster) : Prop :=
  (slot = none ∧ tree = none) ∨ ∃ l t, slot = some l ∧ tree = some t ∧ h.Holds l t

/-- An object refers to older ones only. -/
def Older (h : Heap) : Prop :=
  ∀ (address : Nat) (a b : Ref), h[address]? = some (a, b) → a.Below address ∧ b.Below address

variable {h h' : Heap} {l a b : Ref} {tree ta tb : AlertMulticaster}
  {slot slot' : Option Ref} {oldl : ListenerId}

/-- New objects leave the old ones alone. -/
theorem Holds.mono (hl : h.Holds l tree) (hgrows : h <+: h') : h'.Holds l tree := by
  induction tree generalizing l with
  | listener id => exact hl
  | multicaster ta tb iha ihb =>
    obtain ⟨address, a, b, rfl, hat, ha, hb⟩ := hl
    refine ⟨address, a, b, rfl, ?_, iha ha, ihb hb⟩
    obtain ⟨rest, rfl⟩ := hgrows
    rw [List.getElem?_append_left (List.getElem?_eq_some_iff.mp hat).1, hat]

theorem HoldsSlot.mono {t : Option AlertMulticaster} (hslot : h.HoldsSlot slot t)
    (hgrows : h <+: h') : h'.HoldsSlot slot t := by
  rcases hslot with hnone | ⟨l, t, rfl, rfl, hl⟩
  · exact Or.inl hnone
  · exact Or.inr ⟨l, t, rfl, rfl, hl.mono hgrows⟩

/-- There is one tree under a reference. -/
theorem Holds.unique {tree' : AlertMulticaster} (hl : h.Holds l tree) (hl' : h.Holds l tree') :
    tree = tree' := by
  induction tree generalizing l tree' with
  | listener id =>
    cases tree' with
    | listener id' => exact congrArg _ (Ref.listener.inj (hl.symm.trans hl'))
    | multicaster ta tb =>
      obtain ⟨address, a, b, rfl, -⟩ := hl'
      cases hl
  | multicaster ta tb iha ihb =>
    obtain ⟨address, a, b, rfl, hat, ha, hb⟩ := hl
    cases tree' with
    | listener id' => cases hl'
    | multicaster ta' tb' =>
      obtain ⟨_, _, _, heq, hat', ha', hb'⟩ := hl'
      cases heq
      cases hat.symm.trans hat'
      rw [iha ha ha', ihb hb hb']

theorem Holds.listener_iff (hl : h.Holds l tree) (id : ListenerId) :
    l = .listener id ↔ tree = .listener id := by
  cases tree with
  | listener id' =>
    rw [show l = .listener id' from hl]
    simp
  | multicaster ta tb =>
    obtain ⟨address, a, b, rfl, -⟩ := hl
    simp

theorem HoldsSlot.some_iff {l : Ref} {t : Option AlertMulticaster} :
    h.HoldsSlot (some l) t ↔ ∃ tree, t = some tree ∧ h.Holds l tree := by
  constructor
  · rintro (⟨hnone, -⟩ | ⟨_, tree, heq, rfl, hl⟩)
    · cases hnone
    · cases heq
      exact ⟨tree, rfl, hl⟩
  · rintro ⟨tree, rfl, hl⟩
    exact Or.inr ⟨l, tree, rfl, rfl, hl⟩

theorem HoldsSlot.none_iff {t : Option AlertMulticaster} :
    h.HoldsSlot none t ↔ t = none := by
  constructor
  · rintro (⟨-, rfl⟩ | ⟨_, _, heq, -⟩)
    · rfl
    · cases heq
  · rintro rfl
    exact Or.inl ⟨rfl, rfl⟩

theorem Holds.below (hl : h.Holds l tree) : l.Below h.length := by
  cases tree with
  | listener id =>
    rw [show l = .listener id from hl]
    trivial
  | multicaster ta tb =>
    obtain ⟨address, a, b, rfl, hat, -⟩ := hl
    exact (List.getElem?_eq_some_iff.mp hat).1

/-! ## What the operations do -/

/-- An operation that has come to a slot: it has added objects only, and what the slot refers to
    is this tree. -/
structure Comes (h : Heap) (result : Option Ref × Heap) (t : Option AlertMulticaster) : Prop where
  grows : h <+: result.2
  holds : result.2.HoldsSlot result.1 t
  older : h.Older → result.2.Older

theorem comes_refl {t : Option AlertMulticaster} (hslot : h.HoldsSlot slot t) :
    h.Comes (slot, h) t := ⟨List.prefix_rfl, hslot, id⟩

theorem addInternal_spec {t t' : Option AlertMulticaster} (ha : h.HoldsSlot slot t)
    (hb : h.HoldsSlot slot' t') :
    h.Comes (h.addInternal slot slot') (AlertMulticaster.addInternal t t') := by
  cases slot with
  | none =>
    obtain rfl := HoldsSlot.none_iff.mp ha
    exact comes_refl hb
  | some a =>
    obtain ⟨ta, rfl, hta⟩ := HoldsSlot.some_iff.mp ha
    cases slot' with
    | none =>
      obtain rfl := HoldsSlot.none_iff.mp hb
      exact comes_refl ha
    | some b =>
      obtain ⟨tb, rfl, htb⟩ := HoldsSlot.some_iff.mp hb
      have hgrows : h <+: h ++ [(a, b)] := List.prefix_append _ _
      rw [addInternal]
      refine ⟨hgrows, HoldsSlot.some_iff.mpr ⟨_, rfl, h.length, a, b, rfl, by simp,
        hta.mono hgrows, htb.mono hgrows⟩, fun holder address a' b' hat => ?_⟩
      by_cases hlt : address < h.length
      · exact holder address a' b' (by rwa [List.getElem?_append_left hlt] at hat)
      · have hlen : address < (h ++ [(a, b)]).length := (List.getElem?_eq_some_iff.mp hat).1
        obtain rfl : address = h.length := by simp at hlen; omega
        obtain ⟨rfl, rfl⟩ : a = a' ∧ b = b' := by simpa using hat
        exact ⟨hta.below, htb.below⟩

/-- The shortcut for a listener that is not there saves an object and nothing else. -/
theorem removeInternal_multicaster {ta tb : AlertMulticaster} (ha : ta ≠ .listener oldl)
    (hb : tb ≠ .listener oldl) : AlertMulticaster.removeInternal oldl (.multicaster ta tb) =
      AlertMulticaster.addInternal (AlertMulticaster.removeInternal oldl ta)
        (AlertMulticaster.removeInternal oldl tb) := by
  rw [AlertMulticaster.removeInternal, if_neg ha, if_neg hb]
  dsimp only
  split
  · rename_i hsame
    rw [hsame.1, hsame.2]
    rfl
  · rfl

/-- **Removal on objects is removal on trees**, and where the listener is not found the slot keeps
    the object it has. -/
theorem removeInternal_spec {depth : Nat} (hl : h.Holds l tree) (hdepth : tree.height ≤ depth) :
    h.Comes (removeInternal oldl depth h l) (AlertMulticaster.removeInternal oldl tree) ∧
      (oldl ∉ tree.leaves → removeInternal oldl depth h l = (some l, h)) := by
  induction tree generalizing h l depth with
  | listener id =>
    obtain rfl : l = .listener id := hl
    obtain ⟨depth, rfl⟩ := Nat.exists_eq_succ_of_ne_zero (n := depth) (by
      rw [AlertMulticaster.height] at hdepth; omega)
    simp only [removeInternal, Ref.listener.injEq, AlertMulticaster.removeInternal,
      AlertMulticaster.leaves, List.mem_singleton]
    split
    · rename_i heq
      exact ⟨comes_refl (HoldsSlot.none_iff.mpr rfl), fun habsent => absurd heq.symm habsent⟩
    · exact ⟨comes_refl (HoldsSlot.some_iff.mpr ⟨_, rfl, rfl⟩), fun _ => rfl⟩
  | multicaster ta tb iha ihb =>
    obtain ⟨address, a, b, rfl, hat, ha, hb⟩ := hl
    rw [AlertMulticaster.height] at hdepth
    obtain ⟨depth, rfl⟩ := Nat.exists_eq_succ_of_ne_zero (n := depth) (by omega)
    simp only [removeInternal, reduceCtorEq, if_false, hat]
    rw [AlertMulticaster.leaves, List.mem_append, not_or]
    by_cases hfirst : a = .listener oldl
    · have hta := (ha.listener_iff oldl).mp hfirst
      rw [if_pos hfirst, hta]
      refine ⟨?_, fun habsent => absurd (by simp [AlertMulticaster.leaves]) habsent.1⟩
      rw [AlertMulticaster.removeInternal, if_pos rfl]
      exact comes_refl (HoldsSlot.some_iff.mpr ⟨tb, rfl, hb⟩)
    have hta : ta ≠ .listener oldl := fun heq => hfirst ((ha.listener_iff oldl).mpr heq)
    rw [if_neg hfirst]
    by_cases hsecond : b = .listener oldl
    · have htb := (hb.listener_iff oldl).mp hsecond
      rw [if_pos hsecond, htb]
      refine ⟨?_, fun habsent => absurd (by simp [AlertMulticaster.leaves]) habsent.2⟩
      rw [AlertMulticaster.removeInternal, if_neg hta, if_pos rfl]
      exact comes_refl (HoldsSlot.some_iff.mpr ⟨ta, rfl, ha⟩)
    have htb : tb ≠ .listener oldl := fun heq => hsecond ((hb.listener_iff oldl).mpr heq)
    rw [if_neg hsecond, removeInternal_multicaster hta htb]
    have hheighta : ta.height ≤ depth := by omega
    have hheightb : tb.height ≤ depth := by omega
    obtain ⟨hcomes, habsent⟩ := iha ha hheighta
    obtain ⟨hcomes', habsent'⟩ := ihb (hb.mono hcomes.grows) hheightb
    have hslot := hcomes.holds.mono hcomes'.grows
    have hgrows := hcomes.grows.trans hcomes'.grows
    refine ⟨?_, fun hmissing => ?_⟩
    · split
      · -- Both children are the objects they were, so their trees are what they were.
        rename_i hsame
        rw [hsame.1] at hslot
        have hslot' := hcomes'.holds
        rw [hsame.2] at hslot'
        obtain ⟨ta', hta', hra⟩ := HoldsSlot.some_iff.mp hslot
        obtain ⟨tb', htb', hrb⟩ := HoldsSlot.some_iff.mp hslot'
        rw [hta', htb', hra.unique (ha.mono hgrows), hrb.unique (hb.mono hgrows)]
        refine ⟨hgrows, HoldsSlot.some_iff.mpr ⟨_, rfl, ?_⟩,
          fun h => hcomes'.older (hcomes.older h)⟩
        exact Holds.mono ⟨address, a, b, rfl, hat, ha, hb⟩ hgrows
      · obtain ⟨hadded, hholds, holder⟩ := addInternal_spec hslot hcomes'.holds
        exact ⟨hgrows.trans hadded, hholds, fun h => holder (hcomes'.older (hcomes.older h))⟩
    · have hfound := habsent hmissing.1
      rw [hfound] at habsent' ⊢
      rw [habsent' hmissing.2, if_pos ⟨rfl, rfl⟩]

theorem alert_eq_leaves {depth : Nat} (hl : h.Holds l tree) (hdepth : tree.height ≤ depth) :
    alert depth h l = tree.leaves := by
  induction tree generalizing l depth with
  | listener id =>
    obtain rfl : l = .listener id := hl
    obtain ⟨depth, rfl⟩ := Nat.exists_eq_succ_of_ne_zero (n := depth) (by
      rw [AlertMulticaster.height] at hdepth; omega)
    rfl
  | multicaster ta tb iha ihb =>
    obtain ⟨address, a, b, rfl, hat, ha, hb⟩ := hl
    rw [AlertMulticaster.height] at hdepth
    obtain ⟨depth, rfl⟩ := Nat.exists_eq_succ_of_ne_zero (n := depth) (by omega)
    simp only [alert, hat, AlertMulticaster.leaves]
    rw [iha ha (by omega), ihb hb (by omega)]

/-- A tree is no deeper than there are objects. -/
theorem Holds.height_le (hl : h.Holds l tree) (holder : h.Older) :
    tree.height ≤ h.length + 1 := by
  have key : ∀ bound ≤ h.length, l.Below bound → tree.height ≤ bound + 1 := by
    induction tree generalizing l with
    | listener id => exact fun bound _ _ => by simp [AlertMulticaster.height]
    | multicaster ta tb iha ihb =>
      obtain ⟨address, a, b, rfl, hat, ha, hb⟩ := hl
      intro bound hbound hbelow
      obtain ⟨hbelowa, hbelowb⟩ := holder address a b hat
      have hlt : address < bound := hbelow
      have hheighta := iha ha address (by omega) hbelowa
      have hheightb := ihb hb address (by omega) hbelowb
      rw [AlertMulticaster.height]
      omega
  exact key h.length le_rfl hl.below

end Heap

/-! ## The table of listeners -/

/-- `listeners`, and the objects that have been made. -/
structure ListenerTable where
  heap : Heap := []
  listeners : Nat → Option Ref := fun _ => none

namespace ListenerTable

/-- `modifyListeners` for one slot. -/
def modifySlot (add : Bool) (listener : ListenerId) (t : ListenerTable) (type : Nat) :
    ListenerTable :=
  let result :=
    if add then t.heap.addInternal (t.listeners type) (some (.listener listener))
    else
      match t.listeners type with
      | none => (none, t.heap)
      | some l => t.heap.removeInternal listener (t.heap.length + 1) l
  { heap := result.2, listeners := Function.update t.listeners type result.1 }

def modifyListeners (t : ListenerTable) (change : Change) : ListenerTable :=
  change.slots.foldl (modifySlot change.add change.listener) t

def run (history : List Change) : ListenerTable := history.foldl modifyListeners {}

/-- Who is called, through a reference and through a slot. -/
def alertTo (t : ListenerTable) (l : Ref) : List ListenerId := t.heap.alert (t.heap.length + 1) l

def alert (t : ListenerTable) (type : Nat) : List ListenerId :=
  match t.listeners type with
  | none => []
  | some l => t.alertTo l

/-- The objects are the trees of the slots. -/
structure Refines (t : ListenerTable) (slots : Listeners) : Prop where
  holds : ∀ type, t.heap.HoldsSlot (t.listeners type) (slots type)
  older : t.heap.Older

variable {t : ListenerTable} {slots : Listeners} {registered : Registrations}

theorem refines_empty : Refines {} fun _ => none :=
  ⟨fun _ => Heap.HoldsSlot.none_iff.mpr rfl, fun address a b hat => by simp at hat⟩

theorem modifySlot_of_ne (add : Bool) (listener : ListenerId) (t : ListenerTable) {type type' : Nat}
    (hne : type' ≠ type) : (t.modifySlot add listener type).listeners type' = t.listeners type' :=
  Function.update_of_ne hne _ _

/-- One slot, on the objects and on the trees. -/
theorem Refines.modifySlot (h : t.Refines slots) (add : Bool) (listener : ListenerId)
    (type : Nat) :
    (t.modifySlot add listener type).Refines (Session.modifySlot add listener slots type) ∧
      t.heap <+: (t.modifySlot add listener type).heap := by
  have hcomes : t.heap.Comes
      ((t.modifySlot add listener type).listeners type, (t.modifySlot add listener type).heap)
      (Session.modifySlot add listener slots type type) := by
    rw [ListenerTable.modifySlot, Session.modifySlot]
    simp only [Function.update_self]
    cases add with
    | true =>
      exact Heap.addInternal_spec (h.holds type) (Heap.HoldsSlot.some_iff.mpr ⟨_, rfl, rfl⟩)
    | false =>
      simp only [Bool.false_eq_true, if_false]
      rcases h.holds type with ⟨hat, hnone⟩ | ⟨l, tree, hat, htree, hl⟩
      · rw [hat, hnone]
        exact Heap.comes_refl (Heap.HoldsSlot.none_iff.mpr rfl)
      · rw [hat, htree]
        exact (Heap.removeInternal_spec hl (hl.height_le h.older)).1
  refine ⟨⟨fun type' => ?_, hcomes.older h.older⟩, hcomes.grows⟩
  by_cases heq : type' = type
  · rw [heq]
    exact hcomes.holds
  · rw [modifySlot_of_ne add listener t heq, Session.modifySlot, Function.update_of_ne heq]
    exact (h.holds type').mono hcomes.grows

theorem Refines.modifyListeners (h : t.Refines slots) (change : Change) :
    (t.modifyListeners change).Refines (Session.modifyListeners slots change) ∧
      t.heap <+: (t.modifyListeners change).heap := by
  unfold ListenerTable.modifyListeners Session.modifyListeners
  induction change.slots generalizing t slots with
  | nil => exact ⟨h, List.prefix_rfl⟩
  | cons type rest ih =>
    obtain ⟨hstep, hgrows⟩ := h.modifySlot change.add change.listener type
    obtain ⟨hrest, hgrows'⟩ := ih hstep
    exact ⟨hrest, hgrows.trans hgrows'⟩

theorem Refines.foldl (h : t.Refines slots) (history : List Change) :
    (history.foldl ListenerTable.modifyListeners t).Refines
        (history.foldl Session.modifyListeners slots) ∧
      t.heap <+: (history.foldl ListenerTable.modifyListeners t).heap := by
  induction history generalizing t slots with
  | nil => exact ⟨h, List.prefix_rfl⟩
  | cons change rest ih =>
    obtain ⟨hstep, hgrows⟩ := h.modifyListeners change
    obtain ⟨hrest, hgrows'⟩ := ih hstep
    exact ⟨hrest, hgrows.trans hgrows'⟩

/-- Whoever has a reference calls the leaves of its tree. -/
theorem alertTo_eq {l : Ref} {tree : AlertMulticaster} (hl : t.heap.Holds l tree)
    (holder : t.heap.Older) : t.alertTo l = tree.leaves :=
  Heap.alert_eq_leaves hl (hl.height_le holder)

theorem Refines.alert (h : t.Refines slots) (type : Nat) :
    t.alert type = leavesOf (slots type) := by
  unfold ListenerTable.alert
  rcases h.holds type with ⟨hat, hnone⟩ | ⟨l, tree, hat, htree, hl⟩
  · rw [hat, hnone]
    rfl
  · rw [hat, htree]
    exact alertTo_eq hl h.older

theorem Refines.none_iff (h : t.Refines slots) (type : Nat) :
    t.listeners type = none ↔ leavesOf (slots type) = [] := by
  rcases h.holds type with ⟨hat, hnone⟩ | ⟨l, tree, hat, htree, -⟩
  · rw [hat, hnone]
    exact ⟨fun _ => rfl, fun _ => rfl⟩
  · rw [hat, htree]
    simpa [leavesOf] using tree.leaves_ne_nil

/-- Removing a listener that is not in the slot makes nothing and changes nothing. -/
theorem modifySlot_absent (h : t.Refines slots) {listener : ListenerId} {type : Nat}
    (habsent : listener ∉ leavesOf (slots type)) : t.modifySlot false listener type = t := by
  have hresult : ListenerTable.modifySlot false listener t type =
      { heap := t.heap, listeners := Function.update t.listeners type (t.listeners type) } := by
    unfold ListenerTable.modifySlot
    rcases h.holds type with ⟨hat, -⟩ | ⟨l, tree, hat, htree, hl⟩
    · simp only [Bool.false_eq_true, if_false, hat]
    · rw [htree] at habsent
      simp only [Bool.false_eq_true, if_false, hat,
        (Heap.removeInternal_spec hl (hl.height_le h.older)).2 habsent]
  rw [hresult, Function.update_eq_self]

theorem foldl_modifySlot_absent (h : t.Refines slots) {listener : ListenerId} {type : Nat}
    (habsent : listener ∉ leavesOf (slots type)) (types : List Nat) :
    (types.foldl (modifySlot false listener) t).listeners type = t.listeners type := by
  induction types generalizing t slots with
  | nil => rfl
  | cons first rest ih =>
    rw [List.foldl_cons]
    by_cases heq : type = first
    · subst heq
      rw [modifySlot_absent h habsent]
      exact ih h habsent
    · rw [ih (h.modifySlot false listener first).1, modifySlot_of_ne false listener t heq]
      rwa [Session.modifySlot, Function.update_of_ne heq]

theorem foldl_modifySlot_of_not_mem (add : Bool) (listener : ListenerId) (t : ListenerTable)
    {type : Nat} {types : List Nat} (hmem : type ∉ types) :
    (types.foldl (modifySlot add listener) t).listeners type = t.listeners type := by
  induction types generalizing t with
  | nil => rfl
  | cons first rest ih =>
    rw [List.mem_cons, not_or] at hmem
    rw [List.foldl_cons, ih _ hmem.2, modifySlot_of_ne add listener t hmem.1]

end ListenerTable

/-- The registrations a history of changes has led to: an addition appends the listener in each of
    its slots, a removal takes its last registration out of each. -/
def registrations (history : List Change) : Registrations :=
  history.foldl Registrations.change fun _ => []

/-- **The multicaster tree is a list.** After every history each slot calls its registrations in
    order and is null when there are none. The next change leaves the other slots alone, and a
    slot that the listener to be removed is not in. A tree that somebody has taken out of a slot
    calls the same listeners ever after. -/
theorem multicaster_is_list (history : List Change) :
    let t := ListenerTable.run history
    (∀ type, t.alert type = registrations history type) ∧
    (∀ type, t.listeners type = none ↔ registrations history type = []) ∧
    (∀ change type, type ∉ change.slots →
      (t.modifyListeners change).listeners type = t.listeners type) ∧
    (∀ change type, change.add = false → change.listener ∉ registrations history type →
      (t.modifyListeners change).listeners type = t.listeners type) ∧
    ∀ type l, t.listeners type = some l → ∀ later : List Change,
      (later.foldl ListenerTable.modifyListeners t).alertTo l = registrations history type := by
  intro t
  obtain ⟨hrefines, -⟩ := ListenerTable.refines_empty.foldl history
  have hleaves := (represents_none.changes history).leaves
  refine ⟨fun type => ?_, fun type => ?_, fun change type hmem => ?_,
    fun change type hremove habsent => ?_, fun type l hl later => ?_⟩
  · exact (hrefines.alert type).trans (hleaves type)
  · rw [registrations, ← hleaves type]
    exact hrefines.none_iff type
  · exact ListenerTable.foldl_modifySlot_of_not_mem _ _ _ hmem
  · rw [ListenerTable.modifyListeners, hremove]
    rw [registrations, ← hleaves type] at habsent
    exact ListenerTable.foldl_modifySlot_absent hrefines habsent _
  · -- the objects under a reference that is being called are never changed, only left behind
    have hslot : t.heap.HoldsSlot (t.listeners type) _ := hrefines.holds type
    rw [hl] at hslot
    obtain ⟨tree, htree, hholds⟩ := Heap.HoldsSlot.some_iff.mp hslot
    obtain ⟨hlater, hgrows⟩ := hrefines.foldl later
    have hregistered := hleaves type
    rw [htree] at hregistered
    exact (ListenerTable.alertTo_eq (hholds.mono hgrows) hlater.older).trans hregistered

end Session
end Libtorrent4j
