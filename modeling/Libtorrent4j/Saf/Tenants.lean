import Libtorrent4j.Saf.Owning

/-!
# One cache for several slots

`Owned` is about a storage alone. Here the cache is shared: `K.Clear storage t` says that **no
other slot has a key with one of the torrent's paths**, and then whatever a job of the slot does,
the entries of the other slots stay coherent. `K.assign storage t` are the keys once the slot is
the torrent's.
-/

namespace Libtorrent4j
namespace Saf

open Lib Lib.Exec TorrentStorage

/-- The paths a storage uses: the part file's, and one for every file, pad files too. -/
def TorrentStorage.usedPaths (t : TorrentStorage) : List Path := t.partPath :: t.paths

section Paths

variable {t : TorrentStorage} {i : Nat}

theorem TorrentStorage.partPath_mem (t : TorrentStorage) : t.partPath ∈ t.usedPaths :=
  List.mem_cons_self

theorem TorrentStorage.pathFor_mem (h : i < t.numFiles) : t.pathFor i ∈ t.usedPaths := by
  have hp : i < t.paths.length := by rw [t.paths_length]; exact h
  refine List.mem_cons_of_mem _ ?_
  rw [pathFor, List.getD_eq_getElem?_getD, List.getElem?_eq_getElem hp]
  exact List.getElem_mem hp

/-- The part file's path, and one for each file. -/
theorem TorrentStorage.mem_usedPaths {path : Path} :
    path ∈ t.usedPaths ↔ path = t.partPath ∨ ∃ i < t.numFiles, path = t.pathFor i := by
  constructor
  · intro h
    rcases List.mem_cons.mp h with heq | h
    · exact Or.inl heq
    · obtain ⟨i, hi, rfl⟩ := List.getElem_of_mem h
      refine Or.inr ⟨i, by rw [numFiles, ← t.paths_length]; exact hi, ?_⟩
      rw [pathFor, List.getD_eq_getElem?_getD, List.getElem?_eq_getElem hi]
      rfl
  · rintro (rfl | ⟨i, hi, rfl⟩)
    · exact t.partPath_mem
    · exact pathFor_mem hi

/-- A file's bytes are on a path of the torrent, skipped or not. -/
theorem TorrentStorage.homePath_mem (h : safeRelativePath (t.homePath i) = true) :
    t.homePath i ∈ t.usedPaths := by
  unfold homePath at *
  split at h
  · rw [if_pos ‹_›]
    exact t.partPath_mem
  · rw [if_neg ‹_›]
    exact pathFor_mem (t.lt_of_safe_pathFor h)

end Paths

/-- A torrent is cached under its own paths only. -/
theorem TorrentStorage.usedPaths_of_keys {t : TorrentStorage} {storage slot : Nat} {file : Int}
    {path : Path} (h : t.keys storage slot file path) : path ∈ t.usedPaths := by
  obtain ⟨-, ⟨-, rfl⟩ | ⟨i, hi, -, -, rfl⟩⟩ := h
  · exact t.partPath_mem
  · exact pathFor_mem hi

/-- Whatever keeps every path keeps the list. -/
theorem TorrentStorage.SamePaths.usedPaths {t t' : TorrentStorage} (h : SamePaths t t') :
    t'.usedPaths = t.usedPaths := by
  rw [TorrentStorage.usedPaths, h.partPath, h.paths]
  rfl

/-! ## Keys of several slots -/

namespace Keys

/-- The keys once slot `storage` is the torrent's. -/
def assign (K : Keys) (storage : Nat) (t : TorrentStorage) : Keys := fun slot file path =>
  if slot = storage then t.keys storage slot file path else K slot file path

/-- The slot's keys are the torrent's. -/
def Own (K : Keys) (storage : Nat) (t : TorrentStorage) : Prop :=
  ∀ file path, K storage file path ↔ t.keys storage storage file path

/-- No other slot has a key with one of the torrent's paths. -/
def Clear (K : Keys) (storage : Nat) (t : TorrentStorage) : Prop :=
  ∀ slot file path, K slot file path → slot ≠ storage → path ∉ t.usedPaths

variable {K : Keys} {storage : Nat} {t t' : TorrentStorage}

/-- A slot that already has the torrent's keys gets no others. -/
theorem assign_self (h : K.Own storage t) : K.assign storage t = K := by
  funext slot file path
  unfold assign
  split
  · rename_i heq
    subst heq
    exact propext (h file path).symm
  · rfl

/-- A change that keeps the paths keeps the keys. -/
theorem assign_same (h : K.Own storage t) (hsame : SamePaths t t') : K.assign storage t' = K := by
  refine Eq.trans ?_ (assign_self h)
  unfold assign
  rw [hsame.keys]

/-- A path that is spare for a file is nobody else's key. -/
theorem Own.spare (h : K.Own storage t) (hclear : K.Clear storage t) {i : Nat} {path : Path}
    (hspare : t.SpareFor i path) (hused : path ∈ t.usedPaths) {slot : Nat} {file : Int}
    (hkey : K slot file path) : slot = storage ∧ file = i := by
  by_cases hslot : slot = storage
  · subst hslot
    exact keys_spare hspare ((h _ _).mp hkey)
  · exact absurd hused (hclear _ _ _ hkey hslot)

/-- `part_path` is the key of the part file and of nothing else. -/
theorem Own.part (h : K.Own storage t) (hclear : K.Clear storage t) (hapart : Apart t)
    {slot : Nat} {file : Int} (hkey : K slot file t.partPath) : slot = storage ∧ file = -1 := by
  by_cases hslot : slot = storage
  · subst hslot
    exact keys_part hapart ((h _ _).mp hkey)
  · exact absurd t.partPath_mem (hclear _ _ _ hkey hslot)

/-- Entries of other slots alone have keys whatever the slot's torrent. -/
theorem assign_of_ne {slot : Nat} {file : Int} {path : Path} (hne : slot ≠ storage) :
    K.assign storage t slot file path ↔ K slot file path := by
  unfold assign
  rw [if_neg hne]

end Keys

/-- A rename takes a document, and gives it a name, that is not another file's. -/
def Job.Spares (t t' : TorrentStorage) : Job → Prop
  | .renameFile index name =>
      ∀ i < t.numFiles, index = i → safeRelativePath name = true →
        t.SpareFor i (t.pathFor i) ∧ t.SpareFor i (t'.pathFor i)
  | _ => True

/-- Where all files are apart before and after, a rename takes and gives what is its own. -/
theorem AllApart.spares {W : Type} {log : List (Event W)} {t t' : TorrentStorage} {job : Job}
    {report : Report} (h : AllApart t) (h' : AllApart t') (hstep : Step log t job report t') :
    job.Spares t t' := by
  cases hstep with
  | @renamed index name hlt hsafe =>
    intro i hi heq _
    obtain rfl := Int.ofNat.inj heq
    obtain ⟨hpart, hothers⟩ := h'.spare hi
    refine ⟨h.spare hi, hpart, fun j hj hji hpad => ?_⟩
    have hother := hothers j hj hji hpad
    rwa [t.renameFile_pathFor index name _ hj, if_neg hji] at hother
  | notRenamed error => exact fun i hi _ _ => ⟨h.spare hi, h.spare hi⟩
  | moved _ _ _ => trivial
  | notMoved error => trivial
  | prioritised _ => trivial
  | other hrename _ _ _ =>
    cases job with
    | renameFile index name => exact absurd rfl (hrename index name)
    | _ => trivial

/-! ## The jobs that go past the cache -/

variable (G : Host) {K : Keys} {storage : Nat} {t : TorrentStorage} {d : Disk World}

/-- After the slot's entries have been closed it may be anybody's. -/
theorem coherent_assign {d' : Disk World}
    (h : Coherent (fun slot file path => K slot file path ∧ slot ≠ storage) d')
    (t : TorrentStorage) : Coherent (K.assign storage t) d' :=
  h.mono fun _ _ hkey => (Keys.assign_of_ne hkey.2).mpr hkey.1

/-- After it the slot has no keys that matter. -/
theorem coherent_closeStorage (h : Coherent K d) (storage : Nat) :
    Coherent (fun slot file path => K slot file path ∧ slot ≠ storage)
      ((closeStorage G.env storage : Exec (Disk World) StorageError Unit) d).2 :=
  wp_state.mp (wp_mono (R := fun _ _ => False) (closeStorage_spec G storage h)
    (fun _ _ hs => hs.coherent) fun _ _ hf => hf.elim)

section Jobs

variable (h : Coherent K d)

include h

/-- The documents a deletion removes are nobody else's. -/
theorem coherent_delete (hclear : K.Clear storage t) (files part : Bool) :
    Coherent (K.assign storage t)
      (asyncDeleteFiles G.env t storage files part d).2 := by
  -- what is removed has a path of the torrent, and these are no other slot's
  have hremove : ∀ path file, path ∈ t.usedPaths →
      Keeps (Coherent fun slot file path => K slot file path ∧ slot ≠ storage)
        (removeLater G.env path file) := by
    intro path file hused
    refine keeps_bind ?_ fun _ => keeps_ret _
    intro d hd
    refine wp_state.mp (callRemove_spec G path false (fun d' hunlinks _ _ => ?_)
      fun _ d' _ hquiet _ _ _ => hd.grows hquiet.toGrows)
    exact hd.unlinks hunlinks fun slot file hkey => hclear slot file path hkey.1 hkey.2 hused
  refine (wp_state (P := Coherent (K.assign storage t))).mp ?_
  rw [asyncDeleteFiles, wp_bind]
  refine wp_mono (closeStorage_spec G storage h) (fun _ d₁ hsettled => ?_) fun _ _ h => h
  refine wp_mono (Keeps.wp (I := Coherent fun slot file path => K slot file path ∧ slot ≠ storage)
    (keeps_bind (keeps_mapEach fun index hindex => ?_) fun files =>
      keeps_bind (keeps_mapEach fun path hpath => ?_) fun part => ?_) hsettled.coherent)
    (fun _ _ hd => coherent_assign hd t) fun _ _ hd => coherent_assign hd t
  · split at hindex
    · have hmem := t.files.mem_indices.mp (List.mem_filter.mp hindex).1
      exact hremove _ _ (pathFor_mem hmem)
    · cases hindex
  · split at hpath
    · obtain rfl := List.mem_singleton.mp hpath
      exact hremove _ _ t.partPath_mem
    · cases hpath
  · cases (files ++ part).findSome? id with
    | none => exact keeps_ret ()
    | some error => exact keeps_throw error

/-- A move that is done leaves the slot with the new paths, and nothing cached. -/
theorem coherent_move (hown : K.Own storage t) (hclear : K.Clear storage t) (hapart : Apart t)
    (hrooted : t.Rooted) (path : Path) (flags : MoveFlags) :
    let r := asyncMoveStorage G.env storage path flags { torrent := t, disk := d }
    Coherent (K.assign storage r.2.torrent) r.2.disk := by
  have hspec := asyncMoveStorage_spec G hrooted hapart.distinct storage path flags h.sound
  refine (wp_state (P := fun s => Coherent (K.assign storage s.torrent) s.disk)).mp
    (wp_mono hspec ?_ ?_)
  · rintro _ ⟨_, d'⟩ ⟨rfl, -, -, hmoved⟩
    refine coherent_assign (hmoved.coherent h fun slot file p hkey hne hleft => ?_) _
    obtain ⟨⟨i, hi, -, rfl⟩, -⟩ := hleft
    exact hclear slot file _ hkey hne (pathFor_mem hi)
  · rintro _ ⟨_, d'⟩ ⟨rfl, hnot⟩
    rw [Keys.assign_self hown]
    exact hnot.coherent h

/-- Only a rename that succeeds needs its new path to be nobody's. -/
theorem coherent_rename (hown : K.Own storage t) (hclear : K.Clear storage t) (index : Int)
    (name : Path) :
    let r := asyncRenameFile G.env storage index name { torrent := t, disk := d }
    (Job.renameFile index name).Spares t r.2.torrent → K.Clear storage r.2.torrent →
      Coherent (K.assign storage r.2.torrent) r.2.disk := by
  intro r hspares
  have hspec : wp (asyncRenameFile G.env storage index name) _ _ { torrent := t, disk := d } :=
    asyncRenameFile_spec G h index name fun i hindex hi hsafe _ _ =>
      hown.spare hclear (hspares i hi hindex hsafe).1 (pathFor_mem hi)
  revert hspares
  refine (wp_state (P := fun s => (Job.renameFile index name).Spares t s.torrent →
    K.Clear storage s.torrent → Coherent (K.assign storage s.torrent) s.disk)).mp
    (wp_mono hspec ?_ ?_)
  · rintro _ ⟨_, d'⟩ ⟨i, rfl, hi, hsafe, rfl, hcoherent, -, -⟩ hspares hclear'
    have hnew : (t.renameFile i name (rootedPath t.saveRoot name)).pathFor i =
        rootedPath t.saveRoot name := by
      rw [t.renameFile_pathFor _ _ _ hi, if_pos rfl]
    have hspare := (hspares i hi rfl hsafe).2
    rw [hnew] at hspare
    -- an entry under the new path would be the file's own, or nobody's
    refine (hcoherent fun slot file hkey => ?_).mono fun entry _ hkey => ?_
    · by_cases hslot : slot = storage
      · subst hslot
        exact keys_spare hspare ((hown _ _).mp hkey)
      · have hused := pathFor_mem (t := t.renameFile i name (rootedPath t.saveRoot name)) hi
        rw [hnew] at hused
        exact absurd hused (hclear' slot file _ hkey hslot)
    · obtain ⟨hkey, hother⟩ := hkey
      unfold Keys.assign
      split
      · rename_i heq
        rw [heq] at hkey hother ⊢
        exact keys_renamed _ _ ((hown _ _).mp hkey) hother
      · exact hkey
  · rintro _ ⟨_, d'⟩ ⟨rfl, hundisturbed⟩ - -
    rw [Keys.assign_self hown]
    exact hundisturbed.coherent

/-- Migrations go past the cache, after both of their files have been closed in it. -/
theorem coherent_prioritise (hown : K.Own storage t) (hclear : K.Clear storage t)
    (hapart : Apart t) (priorities : List Priority) :
    let r := asyncSetFilePriority G.env storage priorities { torrent := t, disk := d }
    SamePaths t r.2.torrent ∧ Coherent (K.assign storage r.2.torrent) r.2.disk := by
  have hrearranged : ∀ {s' : Sys World}, SamePaths t s'.torrent →
      d.Rearranges t storage s'.disk →
        SamePaths t s'.torrent ∧ Coherent (K.assign storage s'.torrent) s'.disk := by
    intro s' hsame hrearranges
    rw [Keys.assign_same hown hsame]
    exact ⟨hsame, hrearranges.coherent (fun _ _ => hown.part hclear hapart)
      (fun i hi hpad _ _ => hown.spare hclear (hapart.spare hi hpad) (pathFor_mem hi)) h⟩
  have hspec := asyncSetFilePriority_spec G storage priorities
    (s := { torrent := t, disk := d }) h.sound hapart rfl (fun _ _ => True) trivial
    (fun _ _ _ _ _ => trivial) fun _ _ _ _ _ _ _ => trivial
  refine (wp_state (P := fun s => SamePaths t s.torrent ∧
    Coherent (K.assign storage s.torrent) s.disk)).mp (wp_mono hspec ?_ ?_)
  · rintro _ s' ⟨hdone, -, -⟩
    exact hrearranged hdone.same hdone.rearranges
  · rintro _ s' (⟨k, -, hcommitted, -⟩ | ⟨hcommitted, -⟩)
    · exact hrearranged hcommitted.same hcommitted.migrates.rearranges
    · exact hrearranged hcommitted.same hcommitted.migrates.rearranges

end Jobs

end Saf
end Libtorrent4j
