import Libtorrent4j.Saf.Provider

/-!
# What one call does to the documents

The provider's calls, seen through `World.content`: which document a call changes, what it
answers, and that everything else stays. Each call has one lemma that covers **every
scheduled failure**, and says besides what a willing bridge and a smooth kernel do.

Most calls only add to a world: documents keep their names and open descriptors go on
referring to what they referred to. `World.Grows` is that relation, and it is all the
descriptor cache needs to stay coherent. The exceptions are `rename`, `remove` and `close`.
-/

namespace Libtorrent4j
namespace Saf

open Lib

/-- What may interrupt or split a transfer without making it fail. -/
def IoFault.Benign : IoFault → Prop
  | .whole | .short _ | .interrupted => True
  | .nothing | .fail _ _ => False

namespace World

/-- No document has two names, and the next node is a new one. -/
structure Sound (w : World) : Prop where
  inj : ∀ {p q n}, w.docs p = some n → w.docs q = some n → p = q
  bound : ∀ {p n}, w.docs p = some n → n < w.nextNode

/-- The descriptor refers to the document stored at the path. -/
def Refers (w : World) (fd : Int) (path : Path) (writable : Bool) : Prop :=
  ∃ node, w.docs path = some node ∧ w.file fd = some { node, writable }

/-- The bridge is fault-free. -/
def Willing (w : World) : Prop := ∀ fault ∈ w.bridge, fault = .ok

/-- Transfers are split and interrupted at most. -/
def Smooth (w : World) : Prop := ∀ fault ∈ w.io, fault.Benign

/-- Names and open descriptors stay; contents may change and documents may be added. -/
structure Grows (w w' : World) : Prop where
  sound : w.Sound → w'.Sound
  docs : ∀ {p n}, w.docs p = some n → w'.docs p = some n
  file : ∀ {fd f}, w.file fd = some f → w'.file fd = some f
  validate : w'.validate = w.validate
  willing : w.Willing → w'.Willing
  smooth : w.Smooth → w'.Smooth

/-- Growing composes, so a whole operation grows if its calls do. -/
theorem Grows.refl (w : World) : w.Grows w :=
  ⟨fun h => h, fun h => h, fun h => h, rfl, fun h => h, fun h => h⟩

theorem Grows.trans {w w' w'' : World} (h : w.Grows w') (h' : w'.Grows w'') : w.Grows w'' :=
  ⟨fun hs => h'.sound (h.sound hs), fun hd => h'.docs (h.docs hd), fun hf => h'.file (h.file hf),
    h'.validate.trans h.validate, fun hw => h'.willing (h.willing hw),
    fun hs => h'.smooth (h.smooth hs)⟩

/-- A descriptor goes on referring to its document while the world grows. -/
theorem Grows.refers {w w' : World} (h : w.Grows w') {fd : Int} {path : Path} {writable : Bool}
    (hr : w.Refers fd path writable) : w'.Refers fd path writable := by
  obtain ⟨node, hdocs, hfile⟩ := hr
  exact ⟨node, h.docs hdocs, h.file hfile⟩

/-- Whoever refers to a path refers to a document. -/
theorem Refers.content {w : World} {fd : Int} {path : Path} {writable : Bool}
    (h : w.Refers fd path writable) : ∃ doc, w.content path = some doc := by
  obtain ⟨node, hdocs, -⟩ := h
  exact ⟨w.node node, by simp [World.content, hdocs]⟩

/-- No document and no node are the same. -/
theorem content_eq_none {w : World} {path : Path} : w.content path = none ↔ w.docs path = none := by
  simp [content]

/-- A world that holds some documents is sound: each has a node of its own. -/
theorem sound_holding (documents : List (Path × List Byte)) : (holding documents).Sound := by
  have hat : ∀ {p n}, (holding documents).docs p = some n →
      ∃ h : n < documents.length, documents[n].1 = p := by
    intro p n hp
    obtain ⟨hlt, heq, -⟩ := List.findIdx?_eq_some_iff_getElem.mp hp
    exact ⟨hlt, by simpa using heq⟩
  constructor
  · intro p q n hp hq
    obtain ⟨hlt, rfl⟩ := hat hp
    obtain ⟨-, rfl⟩ := hat hq
    rfl
  · intro p n hp
    exact (hat hp).1

/-! ## Used-up faults -/

/-- The world after the next bridge fault has been used. -/
def afterBridge (w : World) : World := { w with bridge := w.bridge.tail }

/-- The world after the next transfer fault has been used. -/
def afterIo (w : World) : World := { w with io := w.io.tail }

/-- The next fault, `ok` where the script is used up. -/
theorem popBridge_eq (w : World) : w.popBridge = (w.bridge.headD .ok, w.afterBridge) := by
  unfold popBridge afterBridge
  cases w with
  | mk docs node nextNode fds validate bridge io => cases bridge <;> rfl

theorem popIo_eq (w : World) : w.popIo = (w.io.headD .whole, w.afterIo) := by
  unfold popIo afterIo
  cases w with
  | mk docs node nextNode fds validate bridge io => cases io <;> rfl

/-- A fault-free bridge has none to come. -/
theorem Willing.headD {w : World} (h : w.Willing) : w.bridge.headD .ok = .ok := by
  cases hb : w.bridge with
  | nil => rfl
  | cons fault rest => exact h fault (by simp [hb])

theorem Smooth.headD {w : World} (h : w.Smooth) : (w.io.headD .whole).Benign := by
  cases hio : w.io with
  | nil => trivial
  | cons fault rest => exact h fault (by simp [hio])

/-- Using up a fault changes nothing else. -/
theorem grows_afterBridge (w : World) : w.Grows w.afterBridge where
  sound h := ⟨h.inj, h.bound⟩
  docs h := h
  file h := h
  validate := rfl
  willing h := fun fault hf => h fault (List.mem_of_mem_tail hf)
  smooth h := h

theorem grows_afterIo (w : World) : w.Grows w.afterIo where
  sound h := ⟨h.inj, h.bound⟩
  docs h := h
  file h := h
  validate := rfl
  willing h := h
  smooth h := fun fault hf => h fault (List.mem_of_mem_tail hf)

/-- The documents do not depend on the scripts. -/
@[simp] theorem content_afterBridge (w : World) : w.afterBridge.content = w.content := rfl
@[simp] theorem content_afterIo (w : World) : w.afterIo.content = w.content := rfl
@[simp] theorem io_afterBridge (w : World) : w.afterBridge.io = w.io := rfl

/-! ## Bridge calls -/

/-- A bridge call acts, or it fails and only uses up the fault. -/
theorem bridgeCall_cases (w : World) (path : Path) (act : World → Int × World) :
    w.bridgeCall path act = act w.afterBridge ∨
      ∃ errno : Errno, w.bridgeCall path act = (-(errno.code : Int), w.afterBridge) ∧ ¬ w.Willing ∧
        (errno.code = enoent → w.docs path = none) := by
  unfold bridgeCall
  rw [popBridge_eq]
  cases hfault : w.bridge.headD .ok with
  | ok => exact Or.inl rfl
  | fail errno =>
    dsimp only
    split
    · exact Or.inl rfl
    · rename_i hnot
      refine Or.inr ⟨errno, rfl, fun hw => ?_, fun he => ?_⟩
      · rw [hw.headD] at hfault
        cases hfault
      · cases hdocs : w.docs path with
        | none => rfl
        | some node => exact absurd ⟨he, by simp [hdocs]⟩ hnot

/-- `create_directory` touches no document. -/
theorem createDirectory_spec (path : Path) (w : World) :
    (w.createDirectory path).2 = w.afterBridge ∧
      (w.Willing → (w.createDirectory path).1 = 0) := by
  unfold createDirectory
  rw [popBridge_eq]
  cases hfault : w.bridge.headD .ok with
  | ok => exact ⟨rfl, fun _ => rfl⟩
  | fail errno =>
    refine ⟨rfl, fun hw => ?_⟩
    rw [hw.headD] at hfault
    cases hfault

/-- `validate_path` answers by the check it stands for, unless the call fails. -/
theorem validatePath_spec (path : Path) (w : World) :
    (w.validatePath path).2 = w.afterBridge ∧
      (w.Willing → (w.validatePath path).1 = w.validate path) ∧
      (0 ≤ (w.validatePath path).1 → (w.validatePath path).1 = w.validate path) := by
  unfold validatePath
  rw [popBridge_eq]
  cases hfault : w.bridge.headD .ok with
  | ok => exact ⟨rfl, fun _ => rfl, fun _ => rfl⟩
  | fail errno =>
    have hpos := errno.pos
    refine ⟨rfl, fun hw => ?_, fun hnonneg => ?_⟩
    · rw [hw.headD] at hfault
      cases hfault
    · dsimp only at hnonneg
      omega

/-- The size of what is stored, or `-enoent`; otherwise a failure. -/
def sizeAnswer : Option (List Byte) → Int
  | some doc => doc.length
  | none => -enoent

/-- A size that is not negative is that of a document. -/
theorem doc_of_sizeAnswer {stored : Option (List Byte)} (h : 0 ≤ sizeAnswer stored) :
    ∃ doc, stored = some doc ∧ sizeAnswer stored = doc.length := by
  cases stored with
  | none =>
    rw [sizeAnswer, enoent] at h
    omega
  | some doc => exact ⟨doc, rfl, rfl⟩

/-- The honest answer is never an unknown failure. -/
theorem sizeAnswer_benign (stored : Option (List Byte)) :
    ¬ (sizeAnswer stored < 0 ∧ sizeAnswer stored ≠ -enoent) := by
  cases stored with
  | none => exact fun h => h.2 rfl
  | some doc => exact fun h => absurd h.1 (Int.not_lt.mpr (Int.natCast_nonneg doc.length))

/-- `file_size` answers with the size, if it is let. -/
theorem fileSize_eq (path : Path) (w : World) :
    w.fileSize path = w.bridgeCall path fun w => (sizeAnswer (w.content path), w) := by
  unfold fileSize
  congr 1
  funext w
  cases w.content path <;> rfl

/-- What the answer of `file_size` tells: a size is that of the document, and `-enoent` means
    that there is none. -/
theorem fileSize_spec (path : Path) (w : World) :
    (w.fileSize path).2 = w.afterBridge ∧
      (w.Willing → (w.fileSize path).1 = sizeAnswer (w.content path)) ∧
      (0 ≤ (w.fileSize path).1 → (w.fileSize path).1 = sizeAnswer (w.content path)) ∧
      ((w.fileSize path).1 = -enoent → w.content path = none) := by
  rw [fileSize_eq]
  rcases w.bridgeCall_cases path fun w => (sizeAnswer (w.content path), w) with
    heq | ⟨errno, heq, hw, hnone⟩
  · rw [heq]
    refine ⟨rfl, fun _ => rfl, fun _ => rfl, fun hsize => ?_⟩
    dsimp only at hsize
    rw [content_afterBridge] at hsize
    cases hdoc : w.content path with
    | none => rfl
    | some doc =>
      rw [hdoc] at hsize
      simp only [sizeAnswer, enoent] at hsize
      omega
  · rw [heq]
    have hpos := errno.pos
    refine ⟨rfl, fun h => absurd h hw, fun hneg => ?_, fun hsize => ?_⟩
    · dsimp only at hneg
      omega
    · dsimp only at hsize
      exact content_eq_none.mpr (hnone (by omega))

/-- What a removal leaves. -/
def unlink (w : World) (path : Path) : World := { w with docs := Function.update w.docs path none }

/-- What a rename leaves: the document has the new name and what had it is gone. -/
def relink (w : World) (old new : Path) (node : Nat) : World :=
  { w with docs := Function.update (Function.update w.docs old none) new (some node) }

/-- `remove` takes the document away, or leaves everything as it is. Only a missing document is
    answered by `-enoent`. -/
theorem remove_spec (path : Path) (recursive : Bool) (w : World) :
    let r := w.remove path recursive
    (r.1 = 0 ∧ (w.docs path).isSome ∧ r.2 = w.afterBridge.unlink path) ∨
      (r.1 < 0 ∧ r.2 = w.afterBridge ∧ (r.1 = -enoent → w.docs path = none) ∧
        (w.Willing → w.docs path = none ∧ r.1 = -enoent)) := by
  intro r
  have hr : r = w.remove path recursive := rfl
  unfold remove at hr
  rcases w.bridgeCall_cases path _ with heq | ⟨errno, heq, hw, hnone⟩
  · rw [heq] at hr
    cases hdocs : w.docs path with
    | none =>
      simp only [afterBridge, hdocs] at hr
      rw [hr]
      exact Or.inr ⟨by simp [enoent], rfl, fun _ => rfl, fun _ => ⟨rfl, rfl⟩⟩
    | some node =>
      simp only [afterBridge, hdocs] at hr
      rw [hr]
      exact Or.inl ⟨rfl, rfl, rfl⟩
  · rw [heq] at hr
    have hpos := errno.pos
    rw [hr]
    refine Or.inr ⟨?_, rfl, fun he => hnone ?_, fun h => absurd h hw⟩
    · dsimp only; omega
    · dsimp only at he; omega

/-- `rename` moves the document over whatever is at the new path, or leaves everything as it
    is. -/
theorem rename_spec (old new : Path) (w : World) :
    let r := w.rename old new
    (∃ node, r.1 = 0 ∧ w.docs old = some node ∧ r.2 = w.afterBridge.relink old new node) ∨
      (r.1 < 0 ∧ r.2 = w.afterBridge ∧ (w.Willing → w.docs old = none ∧ r.1 = -enoent)) := by
  intro r
  have hr : r = w.rename old new := rfl
  unfold rename at hr
  rcases w.bridgeCall_cases old _ with heq | ⟨errno, heq, hw, -⟩
  · rw [heq] at hr
    cases hdocs : w.docs old with
    | none =>
      simp only [afterBridge, hdocs] at hr
      rw [hr]
      exact Or.inr ⟨by simp [enoent], rfl, fun _ => ⟨rfl, rfl⟩⟩
    | some node =>
      simp only [afterBridge, hdocs] at hr
      rw [hr]
      exact Or.inl ⟨node, rfl, rfl, rfl⟩
  · rw [heq] at hr
    have hpos := errno.pos
    rw [hr]
    refine Or.inr ⟨?_, rfl, fun h => absurd h hw⟩
    dsimp only; omega

/-! ## Opening and closing -/

/-- Opening disturbs no open descriptor: the number is a new one. -/
theorem file_openNode {K : FdPicker} {w : World} {node : Nat} {writable : Bool} {fd : Int}
    {f : OpenFile} (h : w.file fd = some f) : (w.openNode K node writable).2.file fd = some f := by
  unfold file at *
  cases hfind : w.fds.find? (·.1 == fd) with
  | none => simp [hfind] at h
  | some entry =>
    have hmem := List.mem_of_find?_eq_some hfind
    have hfd : entry.1 = fd := by simpa using List.find?_some hfind
    have hne : (K.pick (w.fds.map (·.1)) == fd) = false := by
      refine beq_eq_false_iff_ne.mpr fun heq => K.pick_fresh (w.fds.map (·.1)) ?_
      rw [heq, ← hfd]
      exact List.mem_map_of_mem hmem
    rw [hfind] at h
    simpa [openNode, List.find?_cons, hne, hfind] using h

/-- It was not in use. -/
theorem openNode_fresh (K : FdPicker) (w : World) (node : Nat) (writable : Bool) :
    w.file (w.openNode K node writable).1 = none := by
  unfold file openNode
  have hnone : w.fds.find? (·.1 == K.pick (w.fds.map (·.1))) = none := by
    refine List.find?_eq_none.mpr fun entry hmem heq => K.pick_fresh (w.fds.map (·.1)) ?_
    rw [← (by simpa using heq : entry.1 = K.pick (w.fds.map (·.1)))]
    exact List.mem_map_of_mem hmem
  simp [hnone]

/-- And it is open on the node. -/
theorem openNode_file (K : FdPicker) (w : World) (node : Nat) (writable : Bool) :
    (w.openNode K node writable).2.file (w.openNode K node writable).1 =
      some { node, writable } := by
  simp [file, openNode]

/-- To open is to grow. -/
theorem grows_openNode (K : FdPicker) (w : World) (node : Nat) (writable : Bool) :
    w.Grows (w.openNode K node writable).2 where
  sound h := ⟨h.inj, h.bound⟩
  docs h := h
  file h := file_openNode h
  validate := rfl
  willing h := h
  smooth h := h

/-- A new empty document. -/
def create (w : World) (path : Path) : World :=
  { w with
    docs := Function.update w.docs path (some w.nextNode)
    node := Function.update w.node w.nextNode []
    nextNode := w.nextNode + 1 }

/-- To make a document where there was none is to grow, too. -/
theorem grows_create {w : World} {path : Path} (hpath : w.docs path = none) :
    w.Grows (w.create path) where
  sound h := by
    constructor
    · intro p q n hp hq
      simp only [create, Function.update_apply] at hp hq
      split at hp <;> split at hq
      · simp_all
      · obtain rfl : w.nextNode = n := by simpa using hp
        exact absurd (h.bound hq) (lt_irrefl _)
      · obtain rfl : w.nextNode = n := by simpa using hq
        exact absurd (h.bound hp) (lt_irrefl _)
      · exact h.inj hp hq
    · intro p n hp
      simp only [create, Function.update_apply] at hp ⊢
      split at hp
      · obtain rfl : w.nextNode = n := by simpa using hp
        exact Nat.lt_succ_self _
      · exact Nat.lt_succ_of_lt (h.bound hp)
  docs {p n} hp := by
    have hne : p ≠ path := by rintro rfl; simp [hpath] at hp
    simpa [create, Function.update_of_ne hne] using hp
  file h := h
  validate := rfl
  willing h := h
  smooth h := h

/-- The new document is empty; no other has changed. -/
theorem content_create {w : World} (hs : w.Sound) (path : Path) :
    (w.create path).content = Function.update w.content path (some []) := by
  funext p
  by_cases hp : p = path
  · subst hp
    simp [content, create]
  · simp only [content, create, Function.update_of_ne hp]
    cases hdocs : w.docs p with
    | none => rfl
    | some n =>
      have hne : n ≠ w.nextNode := (hs.bound hdocs).ne
      simp [Function.update_of_ne hne]

/-- The documents after an open: mode 2 makes sure that there is one. -/
def touched (mode : Mode) (path : Path) (tree : Path → Option (List Byte)) :
    Path → Option (List Byte) :=
  match mode with
  | .read => tree
  | .readWrite => Function.update tree path (some ((tree path).getD []))

/-- Opening what exists changes no document. -/
theorem touched_of_some {mode : Mode} {path : Path} {tree : Path → Option (List Byte)}
    {doc : List Byte} (h : tree path = some doc) : touched mode path tree = tree := by
  cases mode with
  | read => rfl
  | readWrite =>
    funext p
    by_cases hp : p = path
    · subst hp
      simp [touched, h]
    · simp [touched, Function.update_of_ne hp]

/-- Opening changes no other document. -/
theorem touched_of_ne {mode : Mode} {path p : Path} {tree : Path → Option (List Byte)}
    (h : p ≠ path) : touched mode path tree p = tree p := by
  cases mode with
  | read => rfl
  | readWrite => exact Function.update_of_ne h _ _

/-- Opening changes alike what is alike. -/
theorem touched_congr {F : Path → Prop} {path : Path} {tree tree' : Path → Option (List Byte)}
    (hpath : F path) (h : ∀ p, F p → tree p = tree' p) (mode : Mode) (p : Path) (hp : F p) :
    touched mode path tree p = touched mode path tree' p := by
  cases mode with
  | read => exact h p hp
  | readWrite => simp only [touched, Function.update_apply, h p hp, h path hpath]

theorem openFile_spec (K : FdPicker) (path : Path) (mode : Mode) {w : World} (hs : w.Sound) :
    let r := w.openFile K path mode
    (0 ≤ r.1 ∧ w.Grows r.2 ∧ r.2.Refers r.1 path (decide (mode = .readWrite)) ∧
        w.file r.1 = none ∧ r.2.content = touched mode path w.content ∧
        (mode = .read → w.content path ≠ none) ∧ r.2.io = w.io) ∨
      (r.1 < 0 ∧ r.2 = w.afterBridge ∧ (r.1 = -enoent → w.content path = none) ∧
        (w.Willing → mode = .read ∧ w.content path = none ∧ r.1 = -enoent)) := by
  intro r
  have hr : r = w.openFile K path mode := rfl
  have hgrows := w.grows_afterBridge
  unfold openFile at hr
  rcases w.bridgeCall_cases path _ with heq | ⟨errno, heq, hw, hnone⟩
  · rw [heq] at hr
    -- the bridge acts
    have hexists : ∀ node writable, w.docs path = some node →
        writable = decide (mode = .readWrite) → r = w.afterBridge.openNode K node writable →
        0 ≤ r.1 ∧ w.Grows r.2 ∧ r.2.Refers r.1 path (decide (mode = .readWrite)) ∧
          w.file r.1 = none ∧ r.2.content = touched mode path w.content ∧
          (mode = .read → w.content path ≠ none) ∧ r.2.io = w.io := by
      rintro node _ hdocs rfl hr
      have hdoc : w.content path = some (w.node node) := by simp [content, hdocs]
      rw [hr]
      exact ⟨K.pick_nonneg _, hgrows.trans (grows_openNode K _ _ _),
        ⟨node, hdocs, openNode_file K _ _ _⟩, openNode_fresh K w.afterBridge node _,
        (touched_of_some hdoc).symm, fun _ => by simp [hdoc], rfl⟩
    cases hdocs : w.docs path with
    | some node =>
      simp only [afterBridge, hdocs] at hr
      cases mode with
      | read => exact Or.inl (hexists node false hdocs rfl hr)
      | readWrite => exact Or.inl (hexists node true hdocs rfl hr)
    | none =>
      simp only [afterBridge, hdocs] at hr
      cases mode with
      | read =>
        rw [hr]
        exact Or.inr ⟨by simp [enoent], rfl, fun _ => content_eq_none.mpr hdocs,
          fun _ => ⟨rfl, content_eq_none.mpr hdocs, rfl⟩⟩
      | readWrite =>
        change r = openNode K w.nextNode true (w.afterBridge.create path) at hr
        have hcontent := content_eq_none.mpr hdocs
        rw [hr]
        refine Or.inl ⟨K.pick_nonneg _,
          (hgrows.trans (grows_create (w := w.afterBridge) hdocs)).trans (grows_openNode K _ _ _),
          ⟨w.nextNode, by simp [openNode, create, afterBridge], openNode_file K _ _ _⟩,
          openNode_fresh K (w.afterBridge.create path) _ _, ?_, nofun, rfl⟩
        rw [touched, hcontent]
        exact content_create (hgrows.sound hs) path
  · rw [heq] at hr
    have hpos := errno.pos
    rw [hr]
    refine Or.inr ⟨?_, rfl, fun he => content_eq_none.mpr (hnone ?_), fun h => absurd h hw⟩
    · dsimp only; omega
    · dsimp only at he; omega

/-- Closing one descriptor leaves the others open. -/
theorem file_close {w : World} {fd fd' : Int} (hne : fd ≠ fd') :
    (w.close fd').file fd = w.file fd := by
  unfold file close
  congr 1
  induction w.fds with
  | nil => rfl
  | cons entry rest ih =>
    by_cases hentry : entry.1 = fd'
    · have hbeq : (entry.1 == fd) = false :=
        beq_eq_false_iff_ne.mpr fun h => hne (h.symm.trans hentry)
      rw [List.filter_cons_of_neg (by simp [hentry]), ih, List.find?_cons, hbeq]
    · rw [List.filter_cons_of_pos (by simpa using hentry), List.find?_cons, List.find?_cons, ih]

/-- And on their documents. -/
theorem Refers.close {w : World} {fd fd' : Int} {path : Path} {writable : Bool}
    (h : w.Refers fd path writable) (hne : fd ≠ fd') : (w.close fd').Refers fd path writable := by
  obtain ⟨node, hdocs, hfile⟩ := h
  exact ⟨node, hdocs, by rw [file_close hne]; exact hfile⟩

/-- Closing changes no document. -/
@[simp] theorem content_close (w : World) (fd : Int) : (w.close fd).content = w.content := rfl

/-! ## Unlinking and relinking -/

/-- A removed name leaves its node to the descriptors that are open on it. -/
theorem Sound.unlink {w : World} (h : w.Sound) (path : Path) : (w.unlink path).Sound := by
  constructor
  · intro p q n hp hq
    simp only [World.unlink, Function.update_apply] at hp hq
    split at hp
    · simp at hp
    split at hq
    · simp at hq
    exact h.inj hp hq
  · intro p n hp
    simp only [World.unlink, Function.update_apply] at hp
    split at hp
    · simp at hp
    · exact h.bound hp

/-- One document less. -/
theorem content_unlink (w : World) (path : Path) :
    (w.unlink path).content = Function.update w.content path none := by
  funext p
  by_cases hp : p = path
  · subst hp
    simp [content, unlink]
  · simp [content, unlink, Function.update_of_ne hp]

/-- A descriptor of another path does not notice. -/
theorem Refers.unlink {w : World} {fd : Int} {p path : Path} {writable : Bool}
    (h : w.Refers fd p writable) (hne : p ≠ path) : (w.unlink path).Refers fd p writable := by
  obtain ⟨node, hdocs, hfile⟩ := h
  exact ⟨node, by simpa [World.unlink, Function.update_of_ne hne] using hdocs, hfile⟩

/-- A rename onto another document leaves that one without a name. -/
theorem Sound.relink {w : World} (h : w.Sound) {old new : Path} {node : Nat}
    (hold : w.docs old = some node) : (w.relink old new node).Sound := by
  -- a document named neither `old` nor `new` is not the one renamed
  have hother : ∀ {p n}, p ≠ new → Function.update w.docs old none p = some n →
      w.docs p = some n ∧ n ≠ node := by
    intro p n _ hp
    by_cases hpo : p = old
    · simp [hpo] at hp
    · rw [Function.update_of_ne hpo] at hp
      exact ⟨hp, fun heq => hpo (h.inj hp (heq ▸ hold))⟩
  constructor
  · intro p q n hp hq
    simp only [World.relink] at hp hq
    by_cases hpn : p = new <;> by_cases hqn : q = new
    · rw [hpn, hqn]
    · subst hpn
      rw [Function.update_self] at hp
      rw [Function.update_of_ne hqn] at hq
      exact absurd (by simpa using hp.symm) (hother hqn hq).2
    · subst hqn
      rw [Function.update_self] at hq
      rw [Function.update_of_ne hpn] at hp
      exact absurd (by simpa using hq.symm) (hother hpn hp).2
    · rw [Function.update_of_ne hpn] at hp
      rw [Function.update_of_ne hqn] at hq
      exact h.inj (hother hpn hp).1 (hother hqn hq).1
  · intro p n hp
    simp only [World.relink] at hp
    by_cases hpn : p = new
    · subst hpn
      rw [Function.update_self] at hp
      obtain rfl : node = n := by simpa using hp
      exact h.bound hold
    · rw [Function.update_of_ne hpn] at hp
      exact h.bound (hother hpn hp).1

/-- The document has got the new name, with its contents. -/
theorem content_relink {w : World} {old new : Path} {node : Nat} (hold : w.docs old = some node) :
    (w.relink old new node).content =
      Function.update (Function.update w.content old none) new (w.content old) := by
  funext p
  by_cases hpn : p = new
  · subst hpn
    simp [content, relink, hold]
  · by_cases hpo : p = old
    · subst hpo
      simp [content, relink, Function.update_of_ne hpn]
    · simp [content, relink, Function.update_of_ne hpn, Function.update_of_ne hpo]

/-- A descriptor of a third path does not notice. -/
theorem Refers.relink {w : World} {fd : Int} {p old new : Path} {node : Nat} {writable : Bool}
    (h : w.Refers fd p writable) (hold : p ≠ old) (hnew : p ≠ new) :
    (w.relink old new node).Refers fd p writable := by
  obtain ⟨n, hdocs, hfile⟩ := h
  exact ⟨n, by simpa [World.relink, Function.update_of_ne hold, Function.update_of_ne hnew]
    using hdocs, hfile⟩

/-! ## Transfers

What a transfer answers depends on the next fault and on the document alone. -/

/-- What a `pread` on a document answers under a fault. -/
def readAnswer (fault : IoFault) (doc : List Byte) (count offset : Nat) :
    Except Errno (List Byte) :=
  match fault with
  | .whole => .ok (Doc.slice doc offset count)
  | .short more => .ok (Doc.slice doc offset (min count (more + 1)))
  | .interrupted => .error eintrErrno
  | .nothing => .ok []
  | .fail errno _ => .error errno

/-- What a `pwrite` answers. One that fails may have stored something all the same. -/
def writeAnswer (fault : IoFault) (count : Nat) : Except Errno Nat :=
  match fault with
  | .whole => .ok count
  | .short more => .ok (min count (more + 1))
  | .interrupted => .error eintrErrno
  | .nothing => .ok 0
  | .fail errno _ => .error errno

/-- How much of `count` bytes a `pwrite` stores. -/
def stored (fault : IoFault) (count : Nat) : Nat :=
  match fault with
  | .whole => count
  | .short more => min count (more + 1)
  | .interrupted | .nothing => 0
  | .fail _ written => min count written

/-- What an `ftruncate` answers. -/
def truncateAnswer (fault : IoFault) : Except Errno Unit :=
  match fault with
  | .fail errno _ => .error errno
  | _ => .ok ()

/-- No more is stored than was handed over. -/
theorem stored_le (fault : IoFault) (count : Nat) : stored fault count ≤ count := by
  cases fault <;> simp [stored]

/-- The world after a document has got new contents. -/
def putDoc (w : World) (node : Nat) (doc : List Byte) : World :=
  { w with node := Function.update w.node node doc }

theorem grows_putDoc (w : World) (node : Nat) (doc : List Byte) : w.Grows (w.putDoc node doc) where
  sound h := ⟨h.inj, h.bound⟩
  docs h := h
  file h := h
  validate := rfl
  willing h := h
  smooth h := h

/-- The new contents are seen under the path; no other document has changed. -/
theorem content_putDoc {w : World} (hs : w.Sound) {path : Path} {node : Nat}
    (hpath : w.docs path = some node) (doc : List Byte) :
    (w.putDoc node doc).content = Function.update w.content path (some doc) := by
  funext p
  by_cases hp : p = path
  · subst hp
    simp [content, putDoc, hpath]
  · simp only [content, putDoc, Function.update_of_ne hp]
    cases hdocs : w.docs p with
    | none => rfl
    | some n =>
      have hne : n ≠ node := fun heq => hp (hs.inj hdocs (heq ▸ hpath))
      simp [Function.update_of_ne hne]

/-- A descriptor that refers to a path reads the document there. -/
theorem pread_spec {w : World} {fd : Int} {path : Path} {writable : Bool} {doc : List Byte}
    (h : w.Refers fd path writable) (hdoc : w.content path = some doc) (count offset : Nat) :
    w.pread fd count offset =
      (readAnswer (w.io.headD .whole) doc count offset, w.afterIo) := by
  obtain ⟨node, hdocs, hfile⟩ := h
  obtain rfl : w.node node = doc := by simpa [content, hdocs] using hdoc
  unfold pread readAnswer
  rw [hfile, popIo_eq]
  cases w.io.headD .whole <;> rfl

/-- And writes into it: what is stored is a prefix of the data, at the offset. -/
theorem pwrite_spec {w : World} (hs : w.Sound) {fd : Int} {path : Path} {doc : List Byte}
    (h : w.Refers fd path true) (hdoc : w.content path = some doc) (data : List Byte)
    (offset : Nat) :
    let r := w.pwrite fd data offset
    let fault := w.io.headD .whole
    r.1 = writeAnswer fault data.length ∧ w.Grows r.2 ∧ r.2.io = w.io.tail ∧
      r.2.content = Function.update w.content path
        (some (Doc.splice doc offset (data.take (stored fault data.length)))) := by
  intro r fault
  obtain ⟨node, hdocs, hfile⟩ := h
  obtain rfl : w.node node = doc := by simpa [content, hdocs] using hdoc
  have htake : ∀ count, data.take count = data.take (min data.length count) := fun count => by
    rw [List.take_eq_take_min, Nat.min_comm]
  have hr : r = (writeAnswer fault data.length, w.afterIo.putDoc node
      (Doc.splice (w.node node) offset (data.take (stored fault data.length)))) := by
    simp only [r, pwrite, hfile, popIo_eq, Bool.true_eq_false, if_false]
    cases hfault : fault <;> simp only [fault] at hfault <;> rw [hfault] <;>
      simp [writeAnswer, stored, store, putDoc, afterIo, ← htake]
  rw [hr]
  exact ⟨rfl, w.grows_afterIo.trans (grows_putDoc _ _ _), rfl,
    content_putDoc (w.grows_afterIo.sound hs) hdocs _⟩

/-- And truncates it, or leaves it as it is. -/
theorem ftruncate_spec {w : World} (hs : w.Sound) {fd : Int} {path : Path} {doc : List Byte}
    (h : w.Refers fd path true) (hdoc : w.content path = some doc) (size : Nat) :
    let r := w.ftruncate fd size
    let fault := w.io.headD .whole
    r.1 = truncateAnswer fault ∧ w.Grows r.2 ∧ r.2.io = w.io.tail ∧
      r.2.content = (match truncateAnswer fault with
        | .ok _ => Function.update w.content path (some (Doc.resize doc size))
        | .error _ => w.content) := by
  intro r fault
  obtain ⟨node, hdocs, hfile⟩ := h
  obtain rfl : w.node node = doc := by simpa [content, hdocs] using hdoc
  have hput : w.Grows (w.afterIo.putDoc node (Doc.resize (w.node node) size)) :=
    w.grows_afterIo.trans (grows_putDoc _ _ _)
  have hcontent : (w.afterIo.putDoc node (Doc.resize (w.node node) size)).content =
      Function.update w.content path (some (Doc.resize (w.node node) size)) :=
    content_putDoc (w.grows_afterIo.sound hs) hdocs _
  have hr : r = (match fault with
      | .fail errno _ => (.error errno, w.afterIo)
      | _ => (.ok (), w.afterIo.putDoc node (Doc.resize (w.node node) size))) := by
    simp only [r, ftruncate, hfile, popIo_eq, Bool.true_eq_false, if_false]
    cases hfault : fault <;> simp only [fault] at hfault <;> rw [hfault] <;>
      simp [putDoc, afterIo]
  rw [hr]
  cases fault with
  | fail errno written => exact ⟨rfl, w.grows_afterIo, rfl, rfl⟩
  | _ => exact ⟨rfl, hput, rfl, hcontent⟩

end World

end Saf
end Libtorrent4j
