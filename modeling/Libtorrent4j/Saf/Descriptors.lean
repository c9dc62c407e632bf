import Libtorrent4j.Saf.Env

/-!
# The descriptor cache

`open_file`, `evict_one`, `close_storage`, `close_file` and `close_all`, over the list
`m_descriptors`. An entry is keyed by storage slot, file index and path; the part file is
index `-1`.

`openFile` takes one argument the source does not have. `reuse := true` **is** the source;
with `reuse := false` the search of the cache is left out and every call opens the path
afresh. That second reading is only there to be compared with the first.
-/

namespace Libtorrent4j
namespace Saf

open Lib Lib.Exec

variable {W ε : Type}

def OpenDescriptor.isFor (storage : Nat) (file : Int) (path : Path) (entry : OpenDescriptor) :
    Bool :=
  entry.storage == storage && entry.file == file && entry.path == path

/-- The least recently used entry, the first of several: `std::min_element`. -/
def oldest : List OpenDescriptor → Option OpenDescriptor
  | [] => none
  | entry :: rest =>
      match oldest rest with
      | none => some entry
      | some other => if other.lastUse < entry.lastUse then some other else some entry

/-- Stamp the first entry that satisfies `p`. -/
def touchFirst (p : OpenDescriptor → Bool) (use : Nat) : List OpenDescriptor → List OpenDescriptor
  | [] => []
  | entry :: rest =>
      if p entry then { entry with lastUse := use } :: rest else entry :: touchFirst p use rest

section Operations

variable (E : Env W)

/-- Close every entry that satisfies `p` and drop it. -/
def closeWhere (p : OpenDescriptor → Bool) : Exec (Disk W) ε Unit := do
  let d ← get
  forEach (d.descriptors.filter p) fun entry => callClose E entry.descriptor
  modify fun d => { d with descriptors := d.descriptors.filter fun entry => !p entry }

def closeStorage (storage : Nat) : Exec (Disk W) ε Unit :=
  closeWhere E fun entry => entry.storage == storage

def closeFile (storage : Nat) (file : Int) : Exec (Disk W) ε Unit :=
  closeWhere E fun entry => entry.storage == storage && entry.file == file

def closeAll : Exec (Disk W) ε Unit := closeWhere E fun _ => true

def evictOne : Exec (Disk W) ε Unit := do
  let d ← get
  match oldest d.descriptors with
  | none => ret ()
  | some entry => do
      callClose E entry.descriptor
      modify fun d => { d with descriptors := d.descriptors.erase entry }

/-- `while (int(m_descriptors.size()) >= m_descriptor_limit.load()) evict_one();`, each turn of
    which takes one of the `turns` entries away. -/
def evictToLimit : Nat → Exec (Disk W) ε Unit
  | 0 => ret ()
  | turns + 1 => do
      let d ← get
      if d.limit ≤ d.descriptors.length then do
        evictOne E
        evictToLimit turns
      else ret ()

/-- `open_file` from the check of the path on: make room, open, and add the entry. -/
def openAndStore (storage : Nat) (file : Int) (path : Path) (write : Bool)
    (operation : Operation) : Exec (Disk W) StorageError Int := do
  throwIf (safeRelativePath path = false) (invalidArgument file operation)
  let d ← get
  evictToLimit E d.descriptors.length
  let result ← callOpenFile E path (if write then .readWrite else .read)
  throwIf (result < 0) (makeError result file operation)
  modify fun d =>
    { d with
      descriptors := d.descriptors ++
        [{ storage := storage, file := file, path := path, descriptor := result,
           writable := write, lastUse := d.useCounter + 1 }]
      useCounter := d.useCounter + 1
      trace := .stored (d.descriptors.length + 1) d.limit :: d.trace }
  ret result

/-- `open_file` after the search of the cache. -/
def openUncached (storage : Nat) (file : Int) (path : Path) (write : Bool)
    (operation : Operation) : Exec (Disk W) StorageError Int :=
  if write then do
    ensureParentDirectories E path file
    openAndStore E storage file path write operation
  else openAndStore E storage file path write operation

def openFile (reuse : Bool) (storage : Nat) (file : Int) (path : Path) (write : Bool)
    (operation : Operation) : Exec (Disk W) StorageError Int := do
  let d ← get
  match if reuse then d.descriptors.find? (·.isFor storage file path) else none with
  | none => openUncached E storage file path write operation
  | some entry =>
      if write = false ∨ entry.writable = true then do
        modify fun d =>
          { d with
            descriptors := touchFirst (·.isFor storage file path) (d.useCounter + 1) d.descriptors
            useCounter := d.useCounter + 1
            trace := .reused entry.descriptor path d.world :: d.trace }
        ret entry.descriptor
      else do
        -- a read-only descriptor where a writable one is asked for
        callClose E entry.descriptor
        modify fun d =>
          { d with descriptors := d.descriptors.eraseP (·.isFor storage file path) }
        openUncached E storage file path write operation

end Operations

/-! ## The entries after each operation -/

theorem isFor_iff {storage : Nat} {file : Int} {path : Path} {entry : OpenDescriptor} :
    entry.isFor storage file path = true ↔
      entry.storage = storage ∧ entry.file = file ∧ entry.path = path := by
  simp [OpenDescriptor.isFor, and_assoc]

theorem mem_of_oldest {entries : List OpenDescriptor} {entry : OpenDescriptor}
    (h : oldest entries = some entry) : entry ∈ entries := by
  induction entries generalizing entry with
  | nil => simp [oldest] at h
  | cons e rest ih =>
    unfold oldest at h
    split at h
    · simp_all
    · rename_i other ho
      split at h
      · obtain rfl : other = entry := by simpa using h
        exact List.mem_cons_of_mem _ (ih ho)
      · simp_all

theorem oldest_eq_none {entries : List OpenDescriptor} (h : oldest entries = none) :
    entries = [] := by
  cases entries with
  | nil => rfl
  | cons e rest =>
    unfold oldest at h
    split at h
    · simp at h
    · split at h <;> simp at h

/-- Stamping changes no entry but in its `lastUse`. -/
theorem mem_touchFirst {p : OpenDescriptor → Bool} {use : Nat} {entries : List OpenDescriptor}
    {entry : OpenDescriptor} (h : entry ∈ touchFirst p use entries) :
    ∃ before ∈ entries, entry = { before with lastUse := entry.lastUse } := by
  induction entries with
  | nil => simp [touchFirst] at h
  | cons e rest ih =>
    unfold touchFirst at h
    split at h
    · rcases List.mem_cons.mp h with rfl | h
      · exact ⟨e, List.mem_cons_self, rfl⟩
      · exact ⟨entry, List.mem_cons_of_mem _ h, rfl⟩
    · rcases List.mem_cons.mp h with rfl | h
      · exact ⟨entry, List.mem_cons_self, rfl⟩
      · obtain ⟨before, hb, heq⟩ := ih h
        exact ⟨before, List.mem_cons_of_mem _ hb, heq⟩

@[simp] theorem map_descriptor_touchFirst (p : OpenDescriptor → Bool) (use : Nat)
    (entries : List OpenDescriptor) :
    (touchFirst p use entries).map (·.descriptor) = entries.map (·.descriptor) := by
  induction entries with
  | nil => rfl
  | cons e rest ih =>
    unfold touchFirst
    split
    · rfl
    · simp [ih]

/-- Taking out the entry that was found. -/
theorem perm_eraseP_of_find? {p : OpenDescriptor → Bool} {entries : List OpenDescriptor}
    {entry : OpenDescriptor} (h : entries.find? p = some entry) :
    entries.Perm (entry :: entries.eraseP p) := by
  induction entries with
  | nil => simp at h
  | cons first rest ih =>
    by_cases hp : p first = true
    · rw [List.find?_cons_of_pos hp] at h
      rw [List.eraseP_cons_of_pos hp, Option.some.inj h]
    · rw [List.find?_cons_of_neg hp] at h
      rw [List.eraseP_cons_of_neg hp]
      exact ((ih h).cons first).trans (List.Perm.swap _ _ _)

end Saf
end Libtorrent4j
