import Mathlib.Data.UInt
import Mathlib.Tactic

/-!
# Paths of the SAF backend

A path is the byte string the bridge receives. This file holds the pure string functions of
`flow_saf_disk_io.cpp`: the syntax check every bridge argument should pass, the sentinel
that stands for the granted tree's own root, and the joining of a save root with a file's
logical name.

**`safeRelativePath_iff` is the file's point**: the byte loop of the source decides exactly
"every component between slashes is safe", after which no proof looks at the loop again.
-/

namespace Libtorrent4j
namespace Saf

/-- A `char`; paths are byte strings, and no encoding is asked of them. -/
abbrev Byte := UInt8

/-- A `std::string` used as a path: arbitrary bytes. -/
abbrev Path := List Byte

/-- The bytes of an ASCII literal of the source. -/
def str (text : String) : Path := text.toList.map fun c => UInt8.ofNat c.toNat

def slash : Byte := 47
def backslash : Byte := 92
def nul : Byte := 0
def dot : Path := [46]
def dotDot : Path := [46, 46]

/-! ## The syntax check -/

/-- The `while (start < path.size())` loop of `safe_relative_path`; `rest` is what lies from
    `start` on. -/
def componentsSafe (rest : Path) : Bool :=
  if rest.isEmpty then true
  else
    let component := rest.takeWhile (· != slash)
    if component.isEmpty then false
    else if component == dot || component == dotDot then false
    else componentsSafe (rest.drop (component.length + 1))
termination_by rest.length
decreasing_by
  rename_i h _ _
  have : 0 < rest.length := by
    cases rest with
    | nil => simp at h
    | cons _ _ => simp
  simp only [List.length_drop]
  omega

/-- `safe_relative_path`: not empty, not absolute, no backslash and no NUL, and every component
    neither empty nor one or two dots. -/
def safeRelativePath (path : Path) : Bool :=
  if path.isEmpty || path.head? == some slash || path.head? == some backslash then false
  else if path.contains backslash || path.contains nul then false
  else if componentsSafe path then path.getLast? != some slash
  else false

/-- What the source asks of one component. -/
structure SafeComponent (component : Path) : Prop where
  nonempty : component ≠ []
  noBackslash : backslash ∉ component
  noNul : nul ∉ component
  notDot : component ≠ dot
  notDotDot : component ≠ dotDot

/-- The first component, and what is left after it. -/
theorem takeWhile_slash (rest : Path) :
    ∃ tail, rest = rest.takeWhile (· != slash) ++ tail ∧
      (tail = [] ∨ ∃ next, tail = slash :: next) ∧ slash ∉ rest.takeWhile (· != slash) := by
  refine ⟨rest.dropWhile (· != slash), (List.takeWhile_append_dropWhile).symm, ?_, ?_⟩
  · cases h : rest.dropWhile (· != slash) with
    | nil => exact Or.inl rfl
    | cons b next =>
      have hb := List.head?_dropWhile_not (· != slash) rest
      rw [h] at hb
      simp only [List.head?_cons, bne_eq_false_iff_eq] at hb
      exact Or.inr ⟨next, by rw [hb]⟩
  · intro hmem
    have := List.all_eq_true.mp (List.all_takeWhile (p := (· != slash)) (l := rest)) _ hmem
    simp at this

/-- The loop and the final test on the last byte, together, are the test of every component. -/
theorem componentsSafe_iff {rest : Path} (hne : rest ≠ []) :
    (componentsSafe rest = true ∧ rest.getLast? ≠ some slash) ↔
      ∀ c ∈ rest.splitOn slash, c ≠ [] ∧ c ≠ dot ∧ c ≠ dotDot := by
  induction hn : rest.length using Nat.strong_induction_on generalizing rest with
  | _ n ih =>
    have hemp : rest.isEmpty = false := by cases rest <;> simp_all
    obtain ⟨tail, hrest, htail, hnot⟩ := takeWhile_slash rest
    set component := rest.takeWhile (· != slash) with hcomp
    rw [componentsSafe, hemp, if_neg (by decide)]
    simp only [← hcomp]
    rcases htail with rfl | ⟨next, rfl⟩
    · -- the last component: nothing is left after it
      rw [List.append_nil] at hrest
      have hsplit : rest.splitOn slash = [rest] :=
        List.splitOn_eq_singleton (by rw [hrest]; exact hnot)
      have hlast : rest.getLast? ≠ some slash := by
        intro hl
        exact hnot (hrest ▸ List.mem_of_getLast? hl)
      have hdrop : rest.drop (component.length + 1) = [] := by
        rw [List.drop_eq_nil_iff, ← hrest]; omega
      rw [hsplit, hdrop, ← hrest, hemp, if_neg (by decide)]
      by_cases hd : rest = dot ∨ rest = dotDot
      · rcases hd with hd | hd <;> simp [hd]
      · push Not at hd
        simp [hd.1, hd.2, hlast, hne, componentsSafe]
    -- a component and its slash, then the rest
    · have hsplit : rest.splitOn slash = component :: next.splitOn slash := by
        conv_lhs => rw [hrest]
        exact List.splitOn_append_cons_self_of_not_mem hnot _
      have hdrop : rest.drop (component.length + 1) = next := by
        conv_lhs => rw [hrest]
        simp
      rw [hsplit, hdrop]
      simp only [List.forall_mem_cons]
      by_cases hc : component = []
      · simp [hc]
      by_cases hd : component = dot ∨ component = dotDot
      · rcases hd with hd | hd <;> simp [hd, dot, dotDot]
      push Not at hd
      have hcemp : component.isEmpty = false := by
        cases hcc : component with
        | nil => exact absurd hcc hc
        | cons _ _ => rfl
      have hcond : (component == dot || component == dotDot) = false := by simp [hd.1, hd.2]
      rw [hcemp, hcond, if_neg (by decide), if_neg (by decide)]
      by_cases hnext : next = []
      · -- a trailing slash: the loop accepts it and the last-byte test refuses it
        subst hnext
        have : rest.getLast? = some slash := by rw [hrest]; simp
        simp [this]
      · have hlen : next.length < n := by
          rw [← hn]; conv_rhs => rw [hrest]
          simp; omega
        have hlast : rest.getLast? = next.getLast? := by
          conv_lhs => rw [hrest]
          rw [List.getLast?_append, List.getLast?_cons]
          cases hnl : next.getLast? with
          | none => exact absurd (List.getLast?_eq_none_iff.mp hnl) hnext
          | some b => simp
        rw [hlast, ih next.length hlen hnext rfl]
        simp [hc, hd.1, hd.2]

/-- Every byte but the separators is one of a component. -/
theorem mem_intercalate_slash {b : Byte} (hb : b ≠ slash) {components : List Path} :
    b ∈ [slash].intercalate components ↔ ∃ c ∈ components, b ∈ c := by
  induction components with
  | nil => simp
  | cons c rest ih =>
    cases rest with
    | nil => simp
    | cons c' rest' =>
      rw [List.intercalate_cons_cons]
      simp only [List.mem_append, List.mem_singleton, ih, List.exists_mem_cons_iff]
      simp [hb]

/-- A byte other than the slash is in one of the components. -/
theorem mem_iff_mem_component {path : Path} {b : Byte} (hb : b ≠ slash) :
    b ∈ path ↔ ∃ c ∈ path.splitOn slash, b ∈ c := by
  have hjoin : [slash].intercalate (path.splitOn slash) = path := List.intercalate_splitOn slash
  conv_lhs => rw [← hjoin]
  exact mem_intercalate_slash hb

/-- A leading slash makes the first component empty. -/
theorem nil_mem_splitOn {path : Path} (h : path.head? = some slash) :
    [] ∈ path.splitOn slash := by
  cases path with
  | nil => simp at h
  | cons b rest =>
    obtain rfl : b = slash := by simpa using h
    have hsplit : (([] : Path) ++ slash :: rest).splitOn slash = [] :: rest.splitOn slash :=
      List.splitOn_append_cons_self_of_not_mem List.not_mem_nil rest
    rw [List.nil_append] at hsplit
    rw [hsplit]
    exact List.mem_cons_self

/-- **The byte loop decides the grammar**: every component between slashes is safe. -/
theorem safeRelativePath_iff {path : Path} :
    safeRelativePath path = true ↔ ∀ c ∈ path.splitOn slash, SafeComponent c := by
  by_cases hne : path = []
  · subst hne
    simp only [safeRelativePath, List.splitOn_nil, List.mem_singleton, forall_eq]
    exact ⟨fun h => by simp at h, fun h => absurd rfl h.nonempty⟩
  have hloop := componentsSafe_iff hne
  have hback : backslash ∈ path ↔ _ := mem_iff_mem_component (by decide)
  have hnul : nul ∈ path ↔ _ := mem_iff_mem_component (by decide)
  constructor
  · intro hsafe
    simp only [safeRelativePath] at hsafe
    split at hsafe
    · simp at hsafe
    split at hsafe
    · simp at hsafe
    rename_i hbytes
    split at hsafe
    swap
    · simp at hsafe
    rename_i hcs
    simp only [Bool.or_eq_true, List.contains_iff_mem, not_or] at hbytes
    intro c hc
    obtain ⟨h₁, h₂, h₃⟩ := hloop.mp ⟨hcs, by simpa using hsafe⟩ c hc
    exact ⟨h₁, fun h => hbytes.1 (hback.mpr ⟨c, hc, h⟩),
      fun h => hbytes.2 (hnul.mpr ⟨c, hc, h⟩), h₂, h₃⟩
  · intro hall
    obtain ⟨hcs, hlast⟩ :=
      hloop.mpr fun c hc => ⟨(hall c hc).nonempty, (hall c hc).notDot, (hall c hc).notDotDot⟩
    have hnoBackslash : backslash ∉ path := by
      rw [hback]
      rintro ⟨c, hc, hb⟩
      exact (hall c hc).noBackslash hb
    have hnoNul : nul ∉ path := by
      rw [hnul]
      rintro ⟨c, hc, hb⟩
      exact (hall c hc).noNul hb
    have hslash : path.head? ≠ some slash := fun h => (hall [] (nil_mem_splitOn h)).nonempty rfl
    have hhead : path.head? ≠ some backslash := fun h => hnoBackslash (List.mem_of_head? h)
    have hemp : path.isEmpty = false := by cases path <;> simp_all
    simp [safeRelativePath, hemp, hslash, hhead, hnoBackslash, hnoNul, hcs, hlast]

theorem not_safe_nil : safeRelativePath [] = false := rfl

/-- The empty path is the root itself, which no file may be. -/
theorem safe_ne_nil {path : Path} (h : safeRelativePath path = true) : path ≠ [] := by
  rintro rfl
  simp [not_safe_nil] at h

/-- A path is safe exactly when what stands before and after a slash of it is. -/
theorem safe_append_slash {a b : Path} :
    safeRelativePath (a ++ slash :: b) = true ↔
      safeRelativePath a = true ∧ safeRelativePath b = true := by
  simp only [safeRelativePath_iff, List.splitOn_append_cons_self, List.mem_append, or_imp,
    forall_and]

/-- A name without a slash needs only be a good component. -/
theorem safe_of_component {c : Path} (hs : slash ∉ c) (h : SafeComponent c) :
    safeRelativePath c = true := by
  rw [safeRelativePath_iff, List.splitOn_eq_singleton hs]
  simpa using h

/-! ## Save roots -/

/-- The name that stands for the granted tree's own root. -/
def flowSessionRoot : Path := str ".flow-session-root"

/-- The same behind a root. -/
def rootedSentinel : Path := str "/.flow-session-root"

def normalizedSaveRoot (path : Path) : Path :=
  if path == flowSessionRoot then []
  else if rootedSentinel.isSuffixOf path then []
  else path

/-- A root that ends in the sentinel is the granted tree itself; any other one is kept. -/
theorem normalizedSaveRoot_eq (path : Path) :
    normalizedSaveRoot path = [] ∨ normalizedSaveRoot path = path := by
  unfold normalizedSaveRoot
  split
  · exact Or.inl rfl
  split
  · exact Or.inl rfl
  · exact Or.inr rfl

@[simp] theorem normalizedSaveRoot_nil : normalizedSaveRoot [] = [] := rfl

/-- `move_storage` normalizes the root once itself and once more in `set_save_root`; the
    second time changes nothing. -/
@[simp] theorem normalizedSaveRoot_idem (path : Path) :
    normalizedSaveRoot (normalizedSaveRoot path) = normalizedSaveRoot path := by
  rcases normalizedSaveRoot_eq path with h | h
  · rw [h]; rfl
  · rw [h, h]

/-- A root the backend works under: the granted tree itself or a safe path beneath it. -/
def RootOk (root : Path) : Prop := root = [] ∨ safeRelativePath root = true

/-- A root that passes the check stays fit to be joined with. -/
theorem rootOk_normalized {path : Path} (h : safeRelativePath path = true) :
    RootOk (normalizedSaveRoot path) := by
  rcases normalizedSaveRoot_eq path with hn | hn
  · exact Or.inl hn
  · exact Or.inr (by rw [hn]; exact h)

/-- `rooted_path`: the empty root adds nothing, not even a slash. -/
def rootedPath (root relative : Path) : Path :=
  if root.isEmpty then relative else root ++ slash :: relative

@[simp] theorem rootedPath_nil (relative : Path) : rootedPath [] relative = relative := rfl

/-- One root joined with two names gives two paths. -/
theorem rootedPath_injective (root : Path) : Function.Injective (rootedPath root) := by
  intro a b h
  unfold rootedPath at h
  split at h
  · exact h
  · simpa using h

/-- Files keep their paths apart under any root. -/
@[simp] theorem rootedPath_inj {root a b : Path} : rootedPath root a = rootedPath root b ↔ a = b :=
  (rootedPath_injective root).eq_iff

/-- Under a good root a path is as safe as the name put there. -/
theorem safe_rootedPath {root relative : Path} (hroot : RootOk root) :
    safeRelativePath (rootedPath root relative) = true ↔ safeRelativePath relative = true := by
  unfold rootedPath
  rcases hroot with rfl | hroot
  · simp
  · have : root.isEmpty = false := by
      cases root with
      | nil => simp [not_safe_nil] at hroot
      | cons _ _ => rfl
    rw [this, if_neg (by decide), safe_append_slash]
    exact and_iff_right hroot

/-- What is safe under a root shows that the root is safe. -/
theorem safe_rootedPath_of {root a b : Path} (h : safeRelativePath (rootedPath root a) = true)
    (hb : safeRelativePath b = true) : safeRelativePath (rootedPath root b) = true := by
  unfold rootedPath at *
  split at h
  · rwa [if_pos ‹_›]
  · rw [if_neg ‹_›, safe_append_slash]
    exact ⟨(safe_append_slash.mp h).1, hb⟩

/-! ## The part file's path -/

def hexDigit (n : Nat) : Byte := UInt8.ofNat (if n < 10 then 48 + n else 87 + n)

def hashHex (hash : List Byte) : Path :=
  hash.flatMap fun b => [hexDigit (b.toNat / 16), hexDigit (b.toNat % 16)]

/-- The `part_path` member of a storage with this info-hash. -/
def partPathOf (infoHash : List Byte) : Path :=
  str ".flow-parts/" ++ hashHex infoHash ++ str ".parts"

theorem hexDigit_range {n : Nat} (h : n < 16) :
    48 ≤ (hexDigit n).toNat ∧ (hexDigit n).toNat ≠ 92 := by
  interval_cases n <;> decide

/-- Digits and the letters a to f: no dot, no slash, no backslash, no NUL. -/
theorem hashHex_byte {hash : List Byte} {b : Byte} (h : b ∈ hashHex hash) :
    48 ≤ b.toNat ∧ b.toNat ≠ 92 := by
  obtain ⟨x, _, hx⟩ := List.mem_flatMap.mp h
  have hlt : x.toNat < 256 := x.toNat_lt
  simp only [List.mem_cons, List.not_mem_nil, or_false] at hx
  rcases hx with rfl | rfl
  · exact hexDigit_range (by omega)
  · exact hexDigit_range (by omega)

/-- **The part file is always a safe path**, whatever the info-hash. -/
theorem safe_partPathOf (infoHash : List Byte) : safeRelativePath (partPathOf infoHash) = true := by
  have hsplit : partPathOf infoHash =
      str ".flow-parts" ++ slash :: (hashHex infoHash ++ str ".parts") := by
    rw [partPathOf, show str ".flow-parts/" = str ".flow-parts" ++ [slash] by decide]
    simp
  have hbyte : ∀ b ∈ hashHex infoHash ++ str ".parts", b ≠ slash ∧ b ≠ backslash ∧ b ≠ nul := by
    intro b hb
    rcases List.mem_append.mp hb with hb | hb
    · have h := hashHex_byte hb
      refine ⟨?_, ?_, ?_⟩ <;> rintro rfl <;> simp [slash, backslash, nul] at h
    · exact (by decide +kernel : ∀ b ∈ str ".parts", b ≠ slash ∧ b ≠ backslash ∧ b ≠ nul) b hb
  rw [hsplit, safe_append_slash]
  refine ⟨by decide +kernel, safe_of_component (fun h => (hbyte _ h).1 rfl) ⟨?_, ?_, ?_, ?_, ?_⟩⟩
  · simp [str]
  · exact fun h => (hbyte _ h).2.1 rfl
  · exact fun h => (hbyte _ h).2.2 rfl
  · intro h
    have := congrArg List.length h
    simp [str, dot] at this
  · intro h
    have := congrArg List.length h
    simp [str, dotDot] at this

/-! ## Parent directories -/

/-- The arguments of `create_directory` in `ensure_parent_directories`, in order: what stands
    before each slash. -/
def parentDirectories (path : Path) : List Path :=
  (List.range path.length).filterMap fun separator =>
    if path[separator]? = some slash then some (path.take separator) else none

/-- Every directory that is created on the way is a safe path itself. -/
theorem safe_parentDirectories {path directory : Path} (h : safeRelativePath path = true)
    (hd : directory ∈ parentDirectories path) : safeRelativePath directory = true := by
  obtain ⟨separator, _, hsep⟩ := List.mem_filterMap.mp hd
  split at hsep
  · rename_i hat
    obtain rfl : path.take separator = directory := by simpa using hsep
    obtain ⟨hlt, hget⟩ := List.getElem?_eq_some_iff.mp hat
    have hcut : path = path.take separator ++ slash :: path.drop (separator + 1) := by
      conv_lhs => rw [← List.take_append_drop separator path, List.drop_eq_getElem_cons hlt, hget]
    rw [hcut] at h
    exact (safe_append_slash.mp h).1
  · simp at hsep

example : safeRelativePath (str "a/b.bin") = true := by decide +kernel
example : safeRelativePath (str "a/../b.bin") = false := by decide +kernel
example : parentDirectories (str "a/b/c") = [str "a", str "a/b"] := by decide +kernel

end Saf
end Libtorrent4j
