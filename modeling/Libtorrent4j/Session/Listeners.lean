import Mathlib.Tactic

/-!
# Alert listeners

`SessionManager` keeps one slot for each alert type and one for the listeners of all types. A
slot holds nothing, a listener, or an `AlertMulticaster` over two such values, so what is
registered is the list of leaves of a tree, and `add` and `remove` rebuild the tree.

The tree is sound: it always leans to the left, and **its leaves are the registrations in
order**, whatever the history (`slots_of_run`). What is not sound is the exception barrier.
`fireAlert` puts it around the whole slot, so a listener that throws ends the slot for every
listener registered after it. `delivered_iff` is the exact condition.

A listener is known by its identity. Whether a call of it throws may depend on anything, so the
behaviour of all listeners for one alert is a script: for each slot and each call in it.
-/

namespace Libtorrent4j
namespace Session

abbrev ListenerId := Nat

/-- What a slot holds. -/
inductive AlertMulticaster where
  | listener (id : ListenerId)
  | multicaster (a b : AlertMulticaster)
deriving DecidableEq, Repr

namespace AlertMulticaster

/-! ## The tree -/

def addInternal : Option AlertMulticaster → Option AlertMulticaster → Option AlertMulticaster
  | none, b => b
  | some a, none => some a
  | some a, some b => some (.multicaster a b)

/-- `removeInternal` and `remove`, on a value that is not null. -/
def removeInternal (oldl : ListenerId) : AlertMulticaster → Option AlertMulticaster
  | .listener id => if id = oldl then none else some (.listener id)
  | .multicaster a b =>
      if a = .listener oldl then some b
      else if b = .listener oldl then some a
      else
        let a2 := removeInternal oldl a
        let b2 := removeInternal oldl b
        if a2 = some a ∧ b2 = some b then some (.multicaster a b) else addInternal a2 b2

def leaves : AlertMulticaster → List ListenerId
  | .listener id => [id]
  | .multicaster a b => a.leaves ++ b.leaves

/-- The calls of `alert` and whether the last of them threw; `position` calls came before. -/
def alert (throws : Nat → ListenerId → Bool) : AlertMulticaster → Nat → List ListenerId × Bool
  | .listener id, position => ([id], throws position id)
  | .multicaster a b, position =>
      let first := a.alert throws position
      if first.2 then first
      else
        let second := b.alert throws (position + first.1.length)
        (first.1 ++ second.1, second.2)

/-- The right child is always a single listener. -/
def LeansLeft : AlertMulticaster → Prop
  | .listener _ => True
  | .multicaster a b => a.LeansLeft ∧ ∃ id, b = .listener id

end AlertMulticaster

/-- Who is registered in a slot. -/
def leavesOf (slot : Option AlertMulticaster) : List ListenerId :=
  (slot.map AlertMulticaster.leaves).getD []

def SlotLeans (slot : Option AlertMulticaster) : Prop :=
  ∀ tree ∈ slot, tree.LeansLeft

/-- One registration less: the last one of the listener. -/
def unregister (oldl : ListenerId) (registered : List ListenerId) : List ListenerId :=
  (registered.reverse.erase oldl).reverse

theorem unregister_concat_self (oldl : ListenerId) (registered : List ListenerId) :
    unregister oldl (registered ++ [oldl]) = registered := by
  simp [unregister]

theorem unregister_concat_of_ne {oldl id : ListenerId} (h : id ≠ oldl)
    (registered : List ListenerId) :
    unregister oldl (registered ++ [id]) = unregister oldl registered ++ [id] := by
  simp [unregister, h]

namespace AlertMulticaster

theorem leaves_ne_nil (tree : AlertMulticaster) : tree.leaves ≠ [] := by
  induction tree with
  | listener id => simp [leaves]
  | multicaster a b iha _ => simp [leaves, iha]

theorem leaves_addInternal (slot : Option AlertMulticaster) (id : ListenerId) :
    leavesOf (addInternal slot (some (.listener id))) = leavesOf slot ++ [id] := by
  cases slot <;> rfl

theorem leans_addInternal {slot : Option AlertMulticaster} (h : SlotLeans slot)
    (id : ListenerId) : SlotLeans (addInternal slot (some (.listener id))) := by
  cases slot with
  | none => rintro _ ⟨⟩; trivial
  | some a => rintro _ ⟨⟩; exact ⟨h a rfl, id, rfl⟩

/-- Removing takes out the last registration and leaves the order of the others. -/
theorem leaves_removeInternal (oldl : ListenerId) (tree : AlertMulticaster)
    (h : tree.LeansLeft) :
    leavesOf (removeInternal oldl tree) = unregister oldl tree.leaves ∧
      SlotLeans (removeInternal oldl tree) := by
  induction tree with
  | listener id =>
    unfold removeInternal
    split
    · rename_i heq
      subst heq
      exact ⟨by simp [leavesOf, leaves, unregister], by rintro _ ⟨⟩⟩
    · rename_i hne
      refine ⟨by simp [leavesOf, leaves, unregister, hne], ?_⟩
      rintro _ ⟨⟩
      trivial
  | multicaster a b iha _ =>
    obtain ⟨ha, id, rfl⟩ := h
    unfold removeInternal
    split
    -- two registrations, the first the listener's
    · rename_i heq
      subst heq
      refine ⟨?_, by rintro _ ⟨⟩; trivial⟩
      by_cases hid : id = oldl <;> simp [leavesOf, leaves, unregister, hid]
    split
    -- the last registration is the listener's, and the one that goes
    · rename_i heq
      obtain rfl : id = oldl := AlertMulticaster.listener.inj heq
      refine ⟨?_, by rintro _ ⟨⟩; exact ha⟩
      exact (unregister_concat_self id a.leaves).symm
    -- it may be further to the left, where the tree leans
    · rename_i hne
      have hid : id ≠ oldl := fun heq => hne (heq ▸ rfl)
      have hb : removeInternal oldl (.listener id) = some (.listener id) := if_neg hid
      obtain ⟨hleaves, hleans⟩ := iha ha
      dsimp only
      rw [leaves, leaves, unregister_concat_of_ne hid, ← hleaves, hb]
      split
      · rename_i hsame
        refine ⟨by rw [hsame.1]; rfl, ?_⟩
        rintro _ ⟨⟩
        exact ⟨ha, id, rfl⟩
      · exact ⟨leaves_addInternal _ id, leans_addInternal hleans id⟩

end AlertMulticaster

/-! ## The slots -/

/-- `Alerts.NUM_ALERT_TYPES`; the slot of the listeners of all types has this number. -/
def numAlertTypes : Nat := 105

def addTorrentType : Nat := 67

/-- `isSpecialType`: `SESSION_STATS`, `STATE_UPDATE` and `SESSION_STATS_HEADER`. -/
def isSpecialType (type : Nat) : Bool := type == 70 || type == 68 || type == 92

abbrev Listeners := Nat → Option AlertMulticaster

/-- `modifyListeners` for one slot. -/
def modifySlot (add : Bool) (listener : ListenerId) (slots : Listeners) (type : Nat) : Listeners :=
  Function.update slots type <|
    if add then AlertMulticaster.addInternal (slots type) (some (.listener listener))
    else (slots type).bind (AlertMulticaster.removeInternal listener)

/-- A call of `addListener` or `removeListener`, with what the listener's `types()` answered. -/
structure Change where
  add : Bool
  listener : ListenerId
  types : Option (List Int)
deriving DecidableEq, Repr

/-- The slots a change is made in. A number that is none of a slot ends the loop over `types` with
    an exception: the slots before it have been changed, those after it never are. -/
def Change.slots (change : Change) : List Nat :=
  ((change.types.getD [(numAlertTypes : Int)]).takeWhile fun type : Int =>
    0 ≤ type ∧ type ≤ numAlertTypes).map Int.toNat

example : Change.slots { add := true, listener := 1, types := some [4, 200, 5] } = [4] := by decide

/-- `modifyListeners`. -/
def modifyListeners (slots : Listeners) (change : Change) : Listeners :=
  change.slots.foldl (modifySlot change.add change.listener) slots

/-- Who is registered in each slot, in order. -/
abbrev Registrations := Nat → List ListenerId

/-- What a change means for the registrations. -/
def Registrations.change (registered : Registrations) (change : Change) : Registrations :=
  change.slots.foldl (fun registered type => Function.update registered type <|
    if change.add then registered type ++ [change.listener]
    else unregister change.listener (registered type)) registered

/-- The slots are the registrations. -/
structure Represents (slots : Listeners) (registered : Registrations) : Prop where
  leans : ∀ type, SlotLeans (slots type)
  leaves : ∀ type, leavesOf (slots type) = registered type

variable {slots : Listeners} {registered : Registrations}

theorem represents_none : Represents (fun _ => none) (fun _ => []) :=
  ⟨by rintro type _ ⟨⟩, fun _ => rfl⟩

theorem Represents.modifySlot (h : Represents slots registered) (add : Bool)
    (listener : ListenerId) (type : Nat) :
    Represents (Session.modifySlot add listener slots type)
      (Function.update registered type
        (if add then registered type ++ [listener]
          else unregister listener (registered type))) := by
  have hslot : leavesOf (Session.modifySlot add listener slots type type) =
      (if add then registered type ++ [listener] else unregister listener (registered type)) ∧
      SlotLeans (Session.modifySlot add listener slots type type) := by
    rw [Session.modifySlot, Function.update_self, ← h.leaves type]
    split
    · exact ⟨AlertMulticaster.leaves_addInternal _ _,
        AlertMulticaster.leans_addInternal (h.leans type) listener⟩
    · cases hslot : slots type with
      | none => exact ⟨rfl, by rintro _ ⟨⟩⟩
      | some tree =>
        exact AlertMulticaster.leaves_removeInternal listener tree (h.leans type tree hslot)
  refine ⟨fun type' => ?_, fun type' => ?_⟩ <;> by_cases heq : type' = type
  · exact heq ▸ hslot.2
  · rw [Session.modifySlot, Function.update_of_ne heq]
    exact h.leans type'
  · rw [heq, Function.update_self]
    exact hslot.1
  · rw [Session.modifySlot, Function.update_of_ne heq, Function.update_of_ne heq]
    exact h.leaves type'

/-- A registration adds the listener at the end, a removal takes its last one out. -/
theorem Represents.change (h : Represents slots registered) (change : Change) :
    Represents (modifyListeners slots change) (registered.change change) := by
  unfold modifyListeners Registrations.change
  induction change.slots generalizing slots registered with
  | nil => exact h
  | cons type rest ih => exact ih (h.modifySlot change.add change.listener type)

theorem Represents.changes (h : Represents slots registered) (changes : List Change) :
    Represents (changes.foldl modifyListeners slots)
      (changes.foldl Registrations.change registered) := by
  induction changes generalizing slots registered with
  | nil => exact h
  | cons change rest ih => exact ih (h.change change)

/-! ## One slot, one exception barrier -/

section Barrier

variable (throws : Nat → ListenerId → Bool)

/-- The calls made for a list of registrations, and whether the last of them threw. -/
def callsOf : List ListenerId → Nat → List ListenerId × Bool
  | [], _ => ([], false)
  | id :: rest, position =>
      if throws position id then ([id], true)
      else (id :: (callsOf rest (position + 1)).1, (callsOf rest (position + 1)).2)

/-- Every call but the last one returns. -/
def OnlyLastThrows (position : Nat) (registered : List ListenerId) : Prop :=
  ∀ k id, registered[k]? = some id → k + 1 < registered.length → throws (position + k) id = false

variable {throws}

theorem callsOf_append (first second : List ListenerId) (position : Nat) :
    callsOf throws (first ++ second) position =
      if (callsOf throws first position).2 then callsOf throws first position
      else
        let rest := callsOf throws second (position + (callsOf throws first position).1.length)
        ((callsOf throws first position).1 ++ rest.1, rest.2) := by
  induction first generalizing position with
  | nil => simp [callsOf]
  | cons id rest ih =>
    simp only [List.cons_append, callsOf]
    split
    · simp
    · rw [ih]
      dsimp only [List.length_cons, List.cons_append]
      rw [show position + ((callsOf throws rest (position + 1)).1.length + 1) =
        position + 1 + (callsOf throws rest (position + 1)).1.length by omega]
      split <;> rfl

/-- `AlertMulticaster.alert` calls the leaves in order. -/
theorem alert_eq (tree : AlertMulticaster) (position : Nat) :
    tree.alert throws position = callsOf throws tree.leaves position := by
  induction tree generalizing position with
  | listener id =>
    simp only [AlertMulticaster.alert, AlertMulticaster.leaves, callsOf]
    cases throws position id <;> rfl
  | multicaster a b iha ihb =>
    rw [AlertMulticaster.leaves, callsOf_append]
    simp only [AlertMulticaster.alert, iha, ihb]

theorem callsOf_begins (registered : List ListenerId) (position : Nat) :
    (callsOf throws registered position).1 <+: registered := by
  induction registered generalizing position with
  | nil => exact List.prefix_rfl
  | cons id rest ih =>
    unfold callsOf
    split
    · exact ⟨rest, rfl⟩
    · exact List.cons_prefix_cons.mpr ⟨rfl, ih (position + 1)⟩

/-- **Everybody is called just when nobody but the last one throws.** -/
theorem callsOf_eq_iff (registered : List ListenerId) (position : Nat) :
    (callsOf throws registered position).1 = registered ↔
      OnlyLastThrows throws position registered := by
  induction registered generalizing position with
  | nil => simp [callsOf, OnlyLastThrows]
  | cons id rest ih =>
    have hcons : OnlyLastThrows throws position (id :: rest) ↔
        (rest ≠ [] → throws position id = false) ∧ OnlyLastThrows throws (position + 1) rest := by
      constructor
      · refine fun h => ⟨fun hne => ?_, fun k id' hk hlt => ?_⟩
        · exact h 0 id rfl (by simpa using List.length_pos_of_ne_nil hne)
        · have := h (k + 1) id' hk (by simpa using hlt)
          rwa [show position + (k + 1) = position + 1 + k by omega] at this
      · rintro ⟨hfirst, hrest⟩ k id' hk hlt
        cases k with
        | zero =>
          obtain rfl : id = id' := Option.some.inj hk
          exact hfirst fun hnil => by simp [hnil] at hlt
        | succ k =>
          rw [show position + (k + 1) = position + 1 + k by omega]
          exact hrest k id' hk (by simpa using hlt)
    rw [hcons]
    unfold callsOf
    split
    -- nobody after a listener that throws is called, so it has to be the last one
    · rename_i hthrows
      constructor
      · intro heq
        obtain rfl : rest = [] := (List.cons.inj heq).2.symm
        exact ⟨fun h => absurd rfl h, fun k id' hk => by simp at hk⟩
      · rintro ⟨hfirst, -⟩
        have hnil : rest = [] := by
          by_contra hne
          rw [hfirst hne] at hthrows
          cases hthrows
        rw [hnil]
    · rename_i hreturns
      rw [List.cons.injEq, ih]
      simp [hreturns]

end Barrier

/-! ## The alerts loop -/

def fetchMagnetDownloadKey : List Char :=
  ['f', 'e', 't', 'c', 'h', '_', 'm', 'a', 'g', 'n', 'e', 't', '_', '_', '_']

/-- An alert as the loop pops it. `name` is the name in the parameters of an `ADD_TORRENT`
    alert, and `temporary` says that `fetchMagnet` has asked for that torrent: it then has put
    its key in front of the name. -/
structure Alert where
  type : Nat
  name : Option (List Char) := none
  temporary : Bool := false
  temporary_name : temporary = true → ∃ uri, name = some (fetchMagnetDownloadKey ++ uri) := by
    intro h; cases h

/-- `name != null && name.contains(FETCH_MAGNET_DOWNLOAD_KEY)`. -/
def isFetchMagnetDownload (a : Alert) : Bool :=
  match a.name with
  | none => false
  | some name => name.tails.any fetchMagnetDownloadKey.isPrefixOf

/-- Which calls throw: for each slot, the call's number in it and the listener. -/
abbrev Script := Nat → Nat → ListenerId → Bool

/-- A call of a listener, with the slot it was made for. -/
abbrev Delivery := Nat × ListenerId

def fireAlert (slots : Listeners) (throws : Script) (type : Nat) : List Delivery :=
  match slots type with
  | none => []
  | some tree => (tree.alert (throws type) 0).1.map (type, ·)

/-- The loop's turn for one alert; `slots'` are the slots when it comes to the second one. -/
def dispatch (slots slots' : Listeners) (throws : Script) (a : Alert) : List Delivery :=
  if a.type = addTorrentType ∧ isFetchMagnetDownload a = true then []
  else fireAlert slots throws a.type ++
    if isSpecialType a.type then [] else fireAlert slots' throws numAlertTypes

/-- What happens to the listeners: a change by some thread, or the loop's turn for an alert,
    with the changes made between its two slots. -/
inductive Event where
  | change (change : Change)
  | alert (a : Alert) (throws : Script) (meanwhile : List Change)

/-- The deliveries of a history, alert by alert. -/
def deliveries (slots : Listeners) : List Event → List (List Delivery)
  | [] => []
  | .change change :: rest => deliveries (modifyListeners slots change) rest
  | .alert a throws meanwhile :: rest =>
      let slots' := meanwhile.foldl modifyListeners slots
      dispatch slots slots' throws a :: deliveries slots' rest

/-- What is due for an alert. -/
def due (registered registered' : Registrations) (a : Alert) : List Delivery :=
  if a.type = addTorrentType ∧ a.temporary = true then []
  else (registered a.type).map (a.type, ·) ++
    if isSpecialType a.type then [] else (registered' numAlertTypes).map (numAlertTypes, ·)

def allDue (registered : Registrations) : List Event → List (List Delivery)
  | [] => []
  | .change change :: rest => allDue (registered.change change) rest
  | .alert a _ meanwhile :: rest =>
      let registered' := meanwhile.foldl Registrations.change registered
      due registered registered' a :: allDue registered' rest

/-- An alert that loses nobody: only the last listener of a slot throws, and the name of a
    torrent of the user does not hold the key of `fetchMagnet` while somebody listens. -/
def LosesNobody (registered registered' : Registrations) (throws : Script) (a : Alert) : Prop :=
  if a.type = addTorrentType ∧ isFetchMagnetDownload a = true then
    a.temporary = true ∨ registered a.type = [] ∧ registered' numAlertTypes = []
  else OnlyLastThrows (throws a.type) 0 (registered a.type) ∧
    (isSpecialType a.type = false →
      OnlyLastThrows (throws numAlertTypes) 0 (registered' numAlertTypes))

def AllLoseNobody (registered : Registrations) : List Event → Prop
  | [] => True
  | .change change :: rest => AllLoseNobody (registered.change change) rest
  | .alert a throws meanwhile :: rest =>
      let registered' := meanwhile.foldl Registrations.change registered
      LosesNobody registered registered' throws a ∧ AllLoseNobody registered' rest

/-! ## Who is reached -/

theorem fireAlert_eq (h : Represents slots registered) (throws : Script) (type : Nat) :
    fireAlert slots throws type =
      (callsOf (throws type) (registered type) 0).1.map (type, ·) := by
  have hleaves := h.leaves type
  unfold fireAlert leavesOf at *
  cases hslot : slots type with
  | none =>
    rw [hslot] at hleaves
    rw [← hleaves]
    rfl
  | some tree =>
    rw [hslot] at hleaves
    dsimp only
    rw [alert_eq, ← hleaves]
    rfl

theorem fireAlert_begins (h : Represents slots registered) (throws : Script) (type : Nat) :
    fireAlert slots throws type <+: (registered type).map (type, ·) := by
  rw [fireAlert_eq h]
  exact (callsOf_begins _ _).map _

theorem fireAlert_eq_iff (h : Represents slots registered) (throws : Script) (type : Nat) :
    fireAlert slots throws type = (registered type).map (type, ·) ↔
      OnlyLastThrows (throws type) 0 (registered type) := by
  rw [fireAlert_eq h, ← callsOf_eq_iff]
  exact (List.map_injective_iff.mpr (Prod.mk_right_injective type)).eq_iff

theorem temporary_isFetchMagnetDownload {a : Alert} (h : a.temporary = true) :
    isFetchMagnetDownload a = true := by
  obtain ⟨uri, hname⟩ := a.temporary_name h
  rw [isFetchMagnetDownload, hname]
  refine List.any_eq_true.mpr ⟨_, (List.mem_tails _ _).mpr List.suffix_rfl, ?_⟩
  exact List.isPrefixOf_iff_prefix.mpr (List.prefix_append _ _)

theorem append_eq_append_iff_of_begins {α : Type*} {a a' b b' : List α} (ha : a <+: a')
    (hb : b <+: b') : a ++ b = a' ++ b' ↔ a = a' ∧ b = b' := by
  refine ⟨fun h => ?_, fun ⟨h, h'⟩ => by rw [h, h']⟩
  have hlen := congrArg List.length h
  simp only [List.length_append] at hlen
  have hla := ha.length_le
  have hlb := hb.length_le
  exact ⟨ha.eq_of_length (by omega), hb.eq_of_length (by omega)⟩

/-- The step: one alert. -/
theorem dispatch_eq_iff {slots' : Listeners} {registered' : Registrations}
    (h : Represents slots registered) (h' : Represents slots' registered') (throws : Script)
    (a : Alert) :
    dispatch slots slots' throws a = due registered registered' a ↔
      LosesNobody registered registered' throws a := by
  unfold dispatch due LosesNobody
  by_cases hfetch : a.type = addTorrentType ∧ isFetchMagnetDownload a = true
  -- the alert is kept from everyone, which loses nobody when the torrent is a temporary one
  · rw [if_pos hfetch, if_pos hfetch]
    have hspecial : isSpecialType a.type = false := by rw [hfetch.1]; rfl
    by_cases htemp : a.temporary = true
    · rw [if_pos ⟨hfetch.1, htemp⟩]
      exact ⟨fun _ => Or.inl htemp, fun _ => rfl⟩
    · rw [if_neg fun h => htemp h.2, hspecial, if_neg Bool.false_ne_true, eq_comm,
        List.append_eq_nil_iff, List.map_eq_nil_iff, List.map_eq_nil_iff]
      exact ⟨Or.inr, fun h => h.resolve_left htemp⟩
  · have hnot : ¬ (a.type = addTorrentType ∧ a.temporary = true) := fun ⟨htype, htemp⟩ =>
      hfetch ⟨htype, temporary_isFetchMagnetDownload htemp⟩
    rw [if_neg hfetch, if_neg hfetch, if_neg hnot]
    cases hspecial : isSpecialType a.type with
    | true =>
      simp only [if_true, List.append_nil]
      simp [fireAlert_eq_iff h]
    | false =>
      simp only [Bool.false_eq_true, if_false, forall_const]
      rw [append_eq_append_iff_of_begins (fireAlert_begins h throws _)
        (fireAlert_begins h' throws _), fireAlert_eq_iff h, fireAlert_eq_iff h']

/-- The run, from any slots that are the registrations. -/
theorem deliveries_eq_iff (h : Represents slots registered) (events : List Event) :
    deliveries slots events = allDue registered events ↔ AllLoseNobody registered events := by
  induction events generalizing slots registered with
  | nil => simp [deliveries, allDue, AllLoseNobody]
  | cons event rest ih =>
    cases event with
    | change change => exact ih (h.change change)
    | alert a throws meanwhile =>
      have h' := h.changes meanwhile
      simp only [deliveries, allDue, AllLoseNobody, List.cons.injEq]
      rw [dispatch_eq_iff h h' throws a, ih h']

/-- **Every registered listener gets every alert** just when no alert loses anybody: an exception
    costs the listeners registered after the one that throws, and nobody else ever. -/
theorem delivered_iff (events : List Event) :
    deliveries (fun _ => none) events = allDue (fun _ => []) events ↔
      AllLoseNobody (fun _ => []) events :=
  deliveries_eq_iff represents_none events

/-- Two listeners of one type, the first of which throws. -/
def throwingHistory : List Event :=
  [.change { add := true, listener := 1, types := some [4] },
    .change { add := true, listener := 2, types := some [4] },
    .alert { type := 4 } (fun _ _ id => id == 1) []]

theorem second_listener_missed :
    deliveries (fun _ => none) throwingHistory = [[(4, 1)]] ∧
      allDue (fun _ => []) throwingHistory = [[(4, 1), (4, 2)]] ∧
      deliveries (fun _ => none) throwingHistory ≠ allDue (fun _ => []) throwingHistory := by
  decide +kernel

end Session
end Libtorrent4j
