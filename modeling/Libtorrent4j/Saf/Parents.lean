import Libtorrent4j.Saf.Env

/-!
# Components and parent directories

The syntax check and `ensure_parent_directories` both walk a path by the indices of its
slashes. Here a path is what stands between them, `c1/c2/.../cn`, and both are said over
that: **the check accepts exactly the grammar**, and the directories created are the proper
prefixes, shortest first.

`Env` runs the second loop over the list `parentDirectories`; `createDirectoriesFrom` is the
loop of the source, and `ensureParentDirectories_eq` says that they are one program.
-/

namespace Libtorrent4j
namespace Saf

open Lib Lib.Exec

/-! ## The grammar -/

/-- `c1/c2/.../cn`. -/
def joined (components : List Path) : Path := [slash].intercalate components

/-- What a path of the bridge looks like. -/
def PathGrammar (path : Path) : Prop :=
  ∃ components, components ≠ [] ∧ path = joined components ∧
    ∀ c ∈ components, slash ∉ c ∧ SafeComponent c

@[simp] theorem joined_singleton (c : Path) : joined [c] = c := List.intercalate_singleton

/-- A path is its first component, a slash and the rest. -/
theorem joined_cons (c : Path) {rest : List Path} (hrest : rest ≠ []) :
    joined (c :: rest) = c ++ slash :: joined rest := by
  cases rest with
  | nil => exact absurd rfl hrest
  | cons c' rest =>
    rw [joined, List.intercalate_cons_cons, List.append_assoc]
    rfl

/-- It may be cut at any of its slashes. -/
theorem joined_append {before after : List Path} (hbefore : before ≠ []) (hafter : after ≠ []) :
    joined (before ++ after) = joined before ++ slash :: joined after := by
  induction before with
  | nil => exact absurd rfl hbefore
  | cons c before ih =>
    by_cases hnil : before = []
    · subst hnil
      rw [List.singleton_append, joined_cons c hafter, joined_singleton]
    · have hrest : before ++ after ≠ [] := by simp [hnil]
      rw [List.cons_append, joined_cons c hrest, ih hnil, joined_cons c hnil]
      simp

/-- Splitting at the slashes and joining again gives the path back. -/
theorem joined_splitOn (path : Path) : joined (path.splitOn slash) = path :=
  List.intercalate_splitOn slash

/-- And the other way round, if no component has a slash in it. -/
theorem splitOn_joined {components : List Path} (hne : components ≠ [])
    (hslash : ∀ c ∈ components, slash ∉ c) : (joined components).splitOn slash = components :=
  List.splitOn_intercalate slash hslash hne

/-- A component holds no slash. -/
theorem slash_not_mem_splitOn {path c : Path} (hc : c ∈ path.splitOn slash) : slash ∉ c := by
  induction hn : path.length using Nat.strong_induction_on generalizing path with
  | _ n ih =>
    obtain ⟨tail, hpath, htail, hnot⟩ := takeWhile_slash path
    rcases htail with rfl | ⟨next, rfl⟩
    · rw [hpath, List.append_nil, List.splitOn_eq_singleton hnot, List.mem_singleton] at hc
      exact hc ▸ hnot
    · rw [hpath, List.splitOn_append_cons_self_of_not_mem hnot, List.mem_cons] at hc
      rcases hc with rfl | hc
      · exact hnot
      · refine ih next.length ?_ hc rfl
        have := congrArg List.length hpath
        simp only [List.length_append, List.length_cons] at this
        omega

/-- The scanner of the source accepts the grammar and nothing else. -/
theorem pathGrammar_iff {path : Path} : safeRelativePath path = true ↔ PathGrammar path := by
  rw [safeRelativePath_iff]
  constructor
  · intro hsafe
    exact ⟨path.splitOn slash, List.splitOn_ne_nil slash path, (joined_splitOn path).symm,
      fun c hc => ⟨slash_not_mem_splitOn hc, hsafe c hc⟩⟩
  · rintro ⟨components, hne, rfl, hall⟩ c hc
    rw [splitOn_joined hne fun c hc => (hall c hc).1] at hc
    exact (hall c hc).2

/-- Of a safe path every proper prefix is safe. -/
theorem safe_joined_take {components : List Path} {k : Nat} (hk : 0 < k)
    (hlt : k < components.length) (hsafe : safeRelativePath (joined components) = true) :
    safeRelativePath (joined (components.take k)) = true := by
  have htake : components.take k ≠ [] := by
    rw [← List.length_pos_iff, List.length_take]
    omega
  have hdrop : components.drop k ≠ [] := by
    rw [← List.length_pos_iff, List.length_drop]
    omega
  rw [← List.take_append_drop k components, joined_append htake hdrop] at hsafe
  exact (safe_append_slash.mp hsafe).1

/-- Joining with a root hides no bad component: both have to be safe, or the root empty. -/
theorem safe_rootedPath_iff {root relative : Path} :
    safeRelativePath (rootedPath root relative) = true ↔
      safeRelativePath relative = true ∧ (root = [] ∨ safeRelativePath root = true) := by
  cases root with
  | nil => simp
  | cons b root =>
    rw [rootedPath, List.isEmpty_cons, if_neg (by decide), safe_append_slash]
    simp [and_comm]

/-- **The check accepts exactly the grammar**, so it passes from a path to its prefixes and
    through `rooted_path`. -/
theorem path_check_is_grammar :
    (∀ path, safeRelativePath path = true ↔ PathGrammar path) ∧
      (∀ components k, 0 < k → k < components.length →
        safeRelativePath (joined components) = true →
        safeRelativePath (joined (components.take k)) = true) ∧
      ∀ root relative, safeRelativePath (rootedPath root relative) = true ↔
        safeRelativePath relative = true ∧ (root = [] ∨ safeRelativePath root = true) :=
  ⟨fun _ => pathGrammar_iff, fun _ _ => safe_joined_take, fun _ _ => safe_rootedPath_iff⟩

/-! ## The proper prefixes -/

/-- The prefixes of 1, 2, ..., n - 1 of the n components. -/
def properPrefixes (path : Path) : List Path :=
  (List.range' 1 ((path.splitOn slash).length - 1)).map fun k =>
    joined ((path.splitOn slash).take k)

/-- A name without a slash has no parent to be made. -/
theorem parentDirectories_of_component {c : Path} (hc : slash ∉ c) : parentDirectories c = [] := by
  rw [parentDirectories, List.filterMap_eq_nil_iff]
  intro separator _
  rw [if_neg]
  exact fun hat => hc (List.mem_of_getElem? hat)

/-- The first component, and then the parents of the rest beneath it. -/
theorem parentDirectories_append_slash {c : Path} (hc : slash ∉ c) (rest : Path) :
    parentDirectories (c ++ slash :: rest) =
      c :: (parentDirectories rest).map fun directory => c ++ slash :: directory := by
  have hlen : (c ++ slash :: rest).length = c.length + (1 + rest.length) := by simp; omega
  rw [parentDirectories, hlen, List.range_add, List.range_add, List.filterMap_append,
    List.map_append, List.filterMap_append]
  -- no slash before the first, then the first, then those of the rest
  have hbefore : ((List.range c.length).filterMap fun separator =>
      if (c ++ slash :: rest)[separator]? = some slash
      then some ((c ++ slash :: rest).take separator) else none) = [] := by
    rw [List.filterMap_eq_nil_iff]
    intro separator hlt
    rw [List.getElem?_append_left (List.mem_range.mp hlt), if_neg]
    exact fun hat => hc (List.mem_of_getElem? hat)
  have hafter : ∀ separator, (c ++ slash :: rest)[c.length + (1 + separator)]? = rest[separator]? ∧
      (c ++ slash :: rest).take (c.length + (1 + separator)) =
        c ++ slash :: rest.take separator := by
    intro separator
    have hsub : c.length + (1 + separator) - c.length = separator + 1 := by omega
    rw [List.getElem?_append_right (by omega), List.take_append, hsub,
      List.take_of_length_le (by omega), List.getElem?_cons_succ, List.take_succ_cons]
    exact ⟨rfl, rfl⟩
  rw [hbefore, parentDirectories, List.map_filterMap]
  simp only [List.filterMap_map, Function.comp_def, hafter]
  simp [apply_ite]

/-- The parents are the joins of the first one, two, three components and so on. -/
theorem parentDirectories_joined {components : List Path} (hne : components ≠ [])
    (hslash : ∀ c ∈ components, slash ∉ c) :
    parentDirectories (joined components) =
      (List.range' 1 (components.length - 1)).map fun k => joined (components.take k) := by
  induction components with
  | nil => exact absurd rfl hne
  | cons c rest ih =>
    by_cases hrest : rest = []
    · subst hrest
      rw [joined_singleton, parentDirectories_of_component (hslash c (by simp))]
      rfl
    · have hpos := List.length_pos_iff.mpr hrest
      rw [joined_cons c hrest, parentDirectories_append_slash (hslash c (by simp)),
        ih hrest fun c' hc' => hslash c' (by simp [hc'])]
      have hrange : List.range' 1 ((c :: rest).length - 1) =
          1 :: (List.range' 1 (rest.length - 1)).map (· + 1) := by
        rw [List.range'_eq_cons_iff]
        refine ⟨rfl, by simpa using hpos, ?_⟩
        simp [List.range'_succ_left]
      rw [hrange, List.map_cons, List.map_map, List.map_map]
      congr 1
      · simp
      · refine List.map_congr_left fun k hk => ?_
        have hk' := List.mem_range'.mp hk
        have htake : rest.take k ≠ [] := by
          rw [← List.length_pos_iff, List.length_take]
          omega
        simp [joined_cons c htake]

/-- What is made are the proper prefixes, shortest first. -/
theorem parentDirectories_eq (path : Path) : parentDirectories path = properPrefixes path := by
  conv_lhs => rw [← joined_splitOn path]
  exact parentDirectories_joined (List.splitOn_ne_nil slash path) fun c => slash_not_mem_splitOn

/-- A prefix is what stands before one of the slashes. -/
theorem mem_parentDirectories {path directory : Path} :
    directory ∈ parentDirectories path ↔
      ∃ separator, path[separator]? = some slash ∧ path.take separator = directory := by
  rw [parentDirectories, List.mem_filterMap]
  constructor
  · rintro ⟨separator, _, hat⟩
    split at hat
    · exact ⟨separator, ‹_›, by simpa using hat⟩
    · simp at hat
  · rintro ⟨separator, hat, htake⟩
    obtain ⟨hlt, _⟩ := List.getElem?_eq_some_iff.mp hat
    exact ⟨separator, by simpa using hlt, by rw [if_pos hat, htake]⟩

/-- The document itself is never made a directory. -/
theorem not_mem_properPrefixes (path : Path) : path ∉ properPrefixes path := by
  rw [← parentDirectories_eq, mem_parentDirectories]
  rintro ⟨separator, hat, htake⟩
  obtain ⟨hlt, _⟩ := List.getElem?_eq_some_iff.mp hat
  have := congrArg List.length htake
  rw [List.length_take] at this
  omega

/-- No directory is made twice. -/
theorem nodup_properPrefixes (path : Path) : (properPrefixes path).Nodup := by
  rw [← parentDirectories_eq, parentDirectories]
  refine List.Nodup.filterMap (fun i j directory hi hj => ?_) List.nodup_range
  split at hi <;> split at hj <;> simp only [Option.mem_def, Option.some.injEq, reduceCtorEq]
    at hi hj
  -- two cuts of one length are one cut
  rename_i hati hatj
  obtain ⟨hilt, _⟩ := List.getElem?_eq_some_iff.mp hati
  obtain ⟨hjlt, _⟩ := List.getElem?_eq_some_iff.mp hatj
  have := congrArg List.length (hi.trans hj.symm)
  rw [List.length_take, List.length_take] at this
  omega

/-- A directory on the way to a safe path is safe. -/
theorem safe_of_mem_properPrefixes {path directory : Path} (hsafe : safeRelativePath path = true)
    (hd : directory ∈ properPrefixes path) : safeRelativePath directory = true :=
  safe_parentDirectories hsafe (parentDirectories_eq path ▸ hd)

/-! ## The loop -/

/-- `path.find('/', start)`; `none` is `npos`. -/
def findSlash (path : Path) (start : Nat) : Option Nat :=
  ((path.drop start).findIdx? (· == slash)).map (start + ·)

/-- `find` has come to `npos`: there is no slash from there on. -/
theorem findSlash_eq_none {path : Path} {start : Nat} (h : findSlash path start = none) :
    ∀ i, start ≤ i → path[i]? ≠ some slash := by
  intro i hi hat
  rw [findSlash, Option.map_eq_none_iff, List.findIdx?_eq_none_iff] at h
  have hmem : slash ∈ path.drop start := by
    refine List.mem_of_getElem? (i := i - start) ?_
    rw [List.getElem?_drop, Nat.add_sub_cancel' hi]
    exact hat
  simpa using h slash hmem

/-- The first slash from `start` on. -/
theorem findSlash_eq_some {path : Path} {start separator : Nat}
    (h : findSlash path start = some separator) :
    start ≤ separator ∧ path[separator]? = some slash ∧
      ∀ i, start ≤ i → i < separator → path[i]? ≠ some slash := by
  obtain ⟨k, hk, rfl⟩ := Option.map_eq_some_iff.mp h
  obtain ⟨hlt, hat, hbefore⟩ := List.findIdx?_eq_some_iff_getElem.mp hk
  refine ⟨by omega, ?_, fun i hi hlt' hati => ?_⟩
  · rw [← List.getElem?_drop, List.getElem?_eq_getElem hlt]
    simpa using hat
  · have hi' : (path.drop start)[i - start]? = some slash := by
      rw [List.getElem?_drop, Nat.add_sub_cancel' hi]
      exact hati
    obtain ⟨_, hget⟩ := List.getElem?_eq_some_iff.mp hi'
    exact hbefore (i - start) (by omega) (by simp [hget])

variable {W : Type} (E : Env W)

/-- The body of the loop for one directory. -/
def createParent (file : Int) (directory : Path) : Exec (Disk W) StorageError Unit := do
  let result ← callCreateDirectory E directory
  throwIf (result < 0 ∧ result ≠ -eexist) (makeError result file .mkdir)

/-- `while (separator != std::string::npos)`, from the search for the next separator on. -/
def createDirectoriesFrom (path : Path) (file : Int) (start : Nat) :
    Exec (Disk W) StorageError Unit :=
  match _h : findSlash path start with
  | none => ret ()
  | some separator => do
      createParent E file (path.take separator)
      createDirectoriesFrom path file (separator + 1)
termination_by path.length - start
decreasing_by
  obtain ⟨hle, hat, _⟩ := findSlash_eq_some _h
  obtain ⟨hlt, _⟩ := List.getElem?_eq_some_iff.mp hat
  omega

/-- The directories still to come when the search goes on at `start`. -/
def parentDirectoriesFrom (path : Path) (start : Nat) : List Path :=
  (List.range' start (path.length - start)).filterMap fun separator =>
    if path[separator]? = some slash then some (path.take separator) else none

theorem parentDirectoriesFrom_of_none {path : Path} {start : Nat}
    (h : findSlash path start = none) : parentDirectoriesFrom path start = [] := by
  rw [parentDirectoriesFrom, List.filterMap_eq_nil_iff]
  intro separator hmem
  rw [if_neg (findSlash_eq_none h separator (by have := List.mem_range'.mp hmem; omega))]

theorem parentDirectoriesFrom_of_some {path : Path} {start separator : Nat}
    (h : findSlash path start = some separator) :
    parentDirectoriesFrom path start =
      path.take separator :: parentDirectoriesFrom path (separator + 1) := by
  obtain ⟨hle, hat, hbefore⟩ := findSlash_eq_some h
  obtain ⟨hlt, _⟩ := List.getElem?_eq_some_iff.mp hat
  have hsplit : List.range' start (path.length - start) =
      List.range' start (separator - start) ++
        separator :: List.range' (separator + 1) (path.length - (separator + 1)) := by
    have hcount : path.length - start =
        (separator - start) + ((path.length - (separator + 1)) + 1) := by omega
    have hfrom : start + (separator - start) = separator := by omega
    rw [hcount, ← List.range'_append_1, hfrom, List.range'_succ]
  have hskip : ((List.range' start (separator - start)).filterMap fun i =>
      if path[i]? = some slash then some (path.take i) else none) = [] := by
    rw [List.filterMap_eq_nil_iff]
    intro i hmem
    have := List.mem_range'.mp hmem
    rw [if_neg (hbefore i (by omega) (by omega))]
  rw [parentDirectoriesFrom, hsplit, List.filterMap_append, hskip, List.nil_append]
  simp only [List.filterMap_cons, if_pos hat, parentDirectoriesFrom]

/-- Induction on what is left of the path. -/
theorem createDirectoriesFrom_eq (path : Path) (file : Int) (start : Nat) :
    createDirectoriesFrom E path file start =
      forEach (parentDirectoriesFrom path start) (createParent E file) := by
  fun_induction createDirectoriesFrom E path file start with
  | case1 start hnone => rw [parentDirectoriesFrom_of_none hnone, forEach]
  | case2 start separator hsome ih =>
    rw [parentDirectoriesFrom_of_some hsome, forEach, ih]
    rfl

/-- The list of directories is the loop of the source, unrolled. -/
theorem ensureParentDirectories_eq (path : Path) (file : Int) :
    ensureParentDirectories E path file = (do
      throwIf (safeRelativePath path = false) (invalidArgument file .mkdir)
      createDirectoriesFrom E path file 0) := by
  rw [createDirectoriesFrom_eq, parentDirectoriesFrom, Nat.sub_zero, ← List.range_eq_range']
  rfl

/-! ## The run -/

/-- The answers after which the loop goes on. -/
def GoesOn (result : Int) : Prop := 0 ≤ result ∨ result = -eexist

instance : DecidablePred GoesOn := fun _ => inferInstanceAs (Decidable (_ ∨ _))

/-- Called one after another from the world `w`, the directories are answered as in `calls`, and
    the last call leaves `w'`. -/
def Answered (E : Env W) : List (Path × Int) → W → W → Prop
  | [], w, w' => w' = w
  | (directory, result) :: rest, w, w' =>
      (E.createDirectory directory w).1 = result ∧
        Answered E rest (E.createDirectory directory w).2 w'

/-- How a loop over `directories` may end: past all of them, or at the first that fails. -/
inductive Ends (directories : List Path) (file : Int) :
    List (Path × Int) → Except StorageError Unit → Prop where
  | past (calls : List (Path × Int)) (all : calls.map Prod.fst = directories)
      (good : ∀ call ∈ calls, GoesOn call.2) : Ends directories file calls (.ok ())
  | fails (done : List (Path × Int)) (directory : Path) (result : Int)
      (order : (done ++ [(directory, result)]).map Prod.fst <+: directories)
      (good : ∀ call ∈ done, GoesOn call.2) (bad : ¬ GoesOn result) :
      Ends directories file (done ++ [(directory, result)]) (.error (makeError result file .mkdir))

/-- The run made the calls `calls`, in this order and no others, and changed nothing else. -/
structure Created (E : Env W) (directories : List Path) (file : Int) (d : Disk W)
    (run : Except StorageError Unit × Disk W) (calls : List (Path × Int)) : Prop where
  ends : Ends directories file calls run.1
  answered : Answered E calls d.world run.2.world
  onlyCalls : run.2 = { d with
    world := run.2.world
    trace := (calls.map fun call => .createDirectory call.1 call.2).reverse ++ d.trace }

/-- One turn of the loop: go on, or stop with the error. -/
theorem createParent_eq (file : Int) (directory : Path) (d : Disk W) :
    createParent E file directory d =
      (if GoesOn (E.createDirectory directory d.world).1 then .ok ()
        else .error (makeError (E.createDirectory directory d.world).1 file .mkdir),
        d.note (E.createDirectory directory d.world).2
          (.createDirectory directory (E.createDirectory directory d.world).1)) := by
  have hgoes : ((E.createDirectory directory d.world).1 < 0 ∧
      (E.createDirectory directory d.world).1 ≠ -eexist) ↔
      ¬ GoesOn (E.createDirectory directory d.world).1 := by
    simp [GoesOn]
  by_cases hg : GoesOn (E.createDirectory directory d.world).1
  · have hbody : createParent E file directory d = throwIf _ _ _ := rfl
    rw [hbody, throwIf, if_neg (by simpa [hgoes] using hg), if_pos hg]
    rfl
  · have hbody : createParent E file directory d = throwIf _ _ _ := rfl
    rw [hbody, throwIf, if_pos (hgoes.mpr hg), if_neg hg]
    rfl

/-- The run: as many calls as were answered well, and one more if it was cut short. -/
theorem forEach_createParent (file : Int) (directories : List Path) (d : Disk W) :
    ∃ calls, Created E directories file d (forEach directories (createParent E file) d) calls := by
  induction directories generalizing d with
  | nil => exact ⟨[], .past [] rfl (by simp), rfl, rfl⟩
  | cons directory rest ih =>
    set result := (E.createDirectory directory d.world).1 with hresult
    set d' := d.note (E.createDirectory directory d.world).2 (.createDirectory directory result)
      with hd'
    by_cases hgood : GoesOn result
    · have hrun : forEach (directory :: rest) (createParent E file) d =
          forEach rest (createParent E file) d' := by
        rw [forEach, andThen, createParent_eq, if_pos hgood]
      obtain ⟨calls, hends, hanswered, honly⟩ := ih d'
      rw [hrun]
      generalize forEach rest (createParent E file) d' = run at hends hanswered honly ⊢
      rcases run with ⟨outcome, d''⟩
      refine ⟨(directory, result) :: calls, ?_, ⟨rfl, hanswered⟩, ?_⟩
      · cases hends with
        | past _ all good =>
          exact .past _ (by rw [List.map_cons, all])
            (List.forall_mem_cons.mpr ⟨hgood, good⟩)
        | fails done directory' result' order good bad =>
          exact .fails ((directory, result) :: done) directory' result'
            (by simpa using order) (List.forall_mem_cons.mpr ⟨hgood, good⟩) bad
      · rw [honly, hd']
        simp [Disk.note]
    · have hrun : forEach (directory :: rest) (createParent E file) d =
          (.error (makeError result file .mkdir), d') := by
        rw [forEach, andThen, createParent_eq, if_neg hgood]
      rw [hrun]
      exact ⟨[(directory, result)], .fails [] directory result (by simp) (by simp) hgood,
        ⟨rfl, rfl⟩, rfl⟩

/-- **Parents are created top down.** -/
theorem parents_top_down (path : Path) (file : Int) (d : Disk W) :
    (safeRelativePath path = false →
        ensureParentDirectories E path file d = (.error (invalidArgument file .mkdir), d)) ∧
      (safeRelativePath path = true →
        (∃ calls, Created E (properPrefixes path) file d (ensureParentDirectories E path file d)
          calls) ∧
        ∀ directory ∈ properPrefixes path, safeRelativePath directory = true) ∧
      (properPrefixes path).length + 1 = (path.splitOn slash).length ∧
      (properPrefixes path).Nodup ∧ path ∉ properPrefixes path := by
  have hpos := List.length_pos_iff.mpr (List.splitOn_ne_nil slash path)
  refine ⟨fun hunsafe => ?_, fun hsafe => ⟨?_, fun _ => safe_of_mem_properPrefixes hsafe⟩, ?_,
    nodup_properPrefixes path, not_mem_properPrefixes path⟩
  · have hrun : ensureParentDirectories E path file d = andThen (throwIf _ _) _ d := rfl
    rw [hrun, andThen, throwIf, if_pos hunsafe]
    rfl
  · obtain ⟨calls, hcalls⟩ := forEach_createParent E file (properPrefixes path) d
    have hrun : ensureParentDirectories E path file d =
        forEach (properPrefixes path) (createParent E file) d := by
      have hbody : ensureParentDirectories E path file d = andThen (throwIf _ _) _ d := rfl
      rw [hbody, andThen, throwIf, if_neg (by simp [hsafe]), ← parentDirectories_eq]
      rfl
    exact ⟨calls, hrun ▸ hcalls⟩
  · rw [properPrefixes, List.length_map, List.length_range']
    omega

end Saf
end Libtorrent4j
