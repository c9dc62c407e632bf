import Libtorrent4j.Saf.Moving
import Libtorrent4j.Saf.Readable

/-!
# Changing priorities

`async_set_file_priority` goes through the files one by one, and for each that starts or stops
being skipped it moves the bytes between the file's document and the part file. One turn either
does all of its move or stops the operation, so **what is committed is a prefix of the request**.

`Migrates` is what every turn keeps, whether it is done or not, and `migratedTree` what a turn
that is done has made of the documents. The rest of the module follows the loop.
-/

namespace Libtorrent4j
namespace Saf

open Lib Lib.Exec TorrentStorage

/-! ## One migration -/

/-- Documents have lost their names only at paths of files, and a cache that knows these paths
    under their own keys alone stays coherent. -/
structure Disk.Migrates (t : TorrentStorage) (storage : Nat) (d d' : Disk World) : Prop where
  sound : d.world.Sound → d'.world.Sound
  kept : d.Kept d'
  names : ∀ {p n}, d.world.docs p = some n →
    (∀ i < t.numFiles, t.files.padFileAt i = false → p ≠ t.pathFor i) → d'.world.docs p = some n
  coherent : ∀ {K : Keys}, (∀ i < t.numFiles, t.files.padFileAt i = false →
    ∀ s f, K s f (t.pathFor i) → s = storage ∧ f = i) → Coherent K d → Coherent K d'

namespace Disk.Migrates

variable {t : TorrentStorage} {storage : Nat} {d d' d'' : Disk World}

theorem refl (d : Disk World) : d.Migrates t storage d :=
  ⟨fun h => h, .refl d, fun h _ => h, fun _ h => h⟩

theorem trans (h : d.Migrates t storage d') (h' : d'.Migrates t storage d'') :
    d.Migrates t storage d'' :=
  ⟨fun hs => h'.sound (h.sound hs), h.kept.trans h'.kept,
    fun hp hfree => h'.names (h.names hp hfree) hfree,
    fun hK hc => h'.coherent hK (h.coherent hK hc)⟩

/-- The torrent is needed only for the paths of its files. -/
theorem same {t' : TorrentStorage} (h : d.Migrates t' storage d') (hsame : SamePaths t t') :
    d.Migrates t storage d' := by
  have hn := hsame.numFiles
  have hfiles := hsame.files
  refine ⟨h.sound, h.kept, fun hp hfree => h.names hp fun i hi hpad => ?_,
    fun hK hc => h.coherent (fun i hi hpad s f hkey => ?_) hc⟩
  · rw [hsame.pathFor]
    exact hfree i (hn ▸ hi) (hfiles ▸ hpad)
  · rw [hsame.pathFor] at hkey
    exact hK i (hn ▸ hi) (hfiles ▸ hpad) s f hkey

end Disk.Migrates

variable (G : Host) {F : Type} {t : TorrentStorage} {storage index : Nat} {toPart : Bool}
  {d : Disk World}

/-- After `close_file` a coherent cache has no entry for the file. -/
theorem closeFile_still (storage : Nat) (file : Int) {R : F → Disk World → Prop} :
    wp (closeFile G.env storage file : Exec (Disk World) F Unit)
      (fun _ d' => d.Still d' ∧ ∀ K : { K : Keys // Coherent K d },
        Coherent (fun s f p => K.1 s f p ∧ ¬ (s = storage ∧ f = file)) d') R d := by
  refine wp_mono (wp_and (R := R) (S := fun _ _ => True) (closeWhere_still G _)
    (wp_mono (wp_forall (R := fun _ _ _ => True)
      fun K : { K : Keys // Coherent K d } => closeFile_spec G storage file K.2) (fun _ _ h => h)
      fun _ _ _ => trivial)) ?_ fun _ _ h => h.1
  exact fun _ _ h => ⟨h.1, fun K => (h.2 K).coherent⟩

namespace TorrentStorage

/-- The documents after a migration of `bytes`. -/
def migratedTree (t : TorrentStorage) (index : Nat) (toPart : Bool) (bytes : List Byte)
    (tree : Tree) : Tree :=
  if toPart then
    Function.update (Function.update tree t.partPath
      (some (Doc.splice ((tree t.partPath).getD []) (t.files.fileOffset index) bytes)))
      (t.pathFor index) none
  else Function.update tree (t.pathFor index) (some bytes)

/-- What a migration that is done has made of the documents. -/
def HasMigrated (t : TorrentStorage) (index : Nat) (toPart : Bool) (tree tree' : Tree) : Prop :=
  ¬ t.MigrationFails index toPart tree ∧
    ∃ bytes : List Byte, bytes.length = t.files.fileSize index ∧
      (∀ doc, tree (t.migrationSource index toPart) = some doc → bytes =
        Doc.slice doc (if toPart then 0 else t.files.fileOffset index) (t.files.fileSize index)) ∧
      tree' = t.migratedTree index toPart bytes tree

end TorrentStorage

theorem migrationSource_ne_target (hapart : Apart t) (hi : index < t.numFiles)
    (hpad : t.files.padFileAt index = false) (toPart : Bool) :
    t.migrationSource index toPart ≠ t.migrationTarget index toPart := by
  have := hapart.notPart index hi hpad
  cases toPart with
  | true => exact this
  | false => exact this.symm

/-- The end of a migration to the part file leaves no public document. -/
theorem removeMigrated_spec (path : Path) (index : Nat) (d : Disk World) :
    wp (removeMigrated G.env path index)
      (fun _ d' => d'.tree = Function.update d.tree path none ∧ d.Spares (· = path) d')
      (fun _ d' => d'.tree = d.tree ∧ d.Spares (· = path) d' ∧ ¬ d.world.Willing) d := by
  rw [removeMigrated, wp_bind]
  refine callRemove_spec G path false ?_ ?_
  · intro d' hunlinks _ _
    rw [wp_throwIf]
    exact ⟨fun h => absurd h.1 (lt_irrefl 0), fun _ => ⟨hunlinks.tree, hunlinks.spares rfl⟩⟩
  · intro result d' hneg hquiet _ hnone hwilling
    rw [wp_throwIf]
    refine ⟨fun h => ⟨hquiet.tree, hquiet.spares, fun hw => h.2 (hwilling hw).2⟩, fun h => ?_⟩
    have hmissing : d.tree path = none := hnone (by
      by_contra hne
      exact h ⟨hneg, hne⟩)
    refine ⟨?_, hquiet.spares⟩
    rw [hquiet.tree, ← hmissing, Function.update_eq_self]

/-- Both files have been closed; what follows adds to the disk and then loses at most the public
    document. -/
theorem Disk.Still.migrates {d₁ d₂ d₃ : Disk World} (hi : index < t.numFiles)
    (hpad : t.files.padFileAt index = false) (hstill : d.Still d₁)
    (hclosed : ∀ K : { K : Keys // Coherent K d }, Coherent (fun s f p => K.1 s f p ∧
      ¬ (s = storage ∧ f = index)) d₁)
    (hgrows : d₁.Grows d₂) (hspares : d₂.Spares (· = t.pathFor index) d₃) :
    d.Migrates t storage d₃ := by
  refine ⟨fun hs => hspares.sound (hgrows.world.sound (hstill.sound hs)),
    (hstill.kept.trans hgrows.kept).trans hspares.kept, fun {p n} hp hfree => ?_, fun hK hc => ?_⟩
  · exact hspares.names (hgrows.world.docs (by rw [hstill.docs]; exact hp)) (hfree index hi hpad)
  · refine (hspares.coherent (fun s f p hkey hp => ?_) ((hclosed ⟨_, hc⟩).grows hgrows)).mono
      fun entry _ hkey => hkey.1
    subst hp
    exact hkey.2 (hK index hi hpad s f hkey.1)

/-- **One migration**: it does all of what it is for, or leaves what counts where it was. -/
theorem migratePriority_spec (hs : d.world.Sound) (hapart : Apart t) (hi : index < t.numFiles)
    (hpad : t.files.padFileAt index = false) (toPart : Bool) :
    wp (migratePriority G.env t storage index toPart)
      (fun _ d' => d.Migrates t storage d' ∧
        (t.files.fileSize index = 0 → d'.tree = d.tree) ∧
        (t.files.fileSize index ≠ 0 → t.HasMigrated index toPart d.tree d'.tree))
      (fun _ d' => d.Migrates t storage d' ∧ t.files.fileSize index ≠ 0 ∧
        t.Unharmed index toPart d.tree d'.tree ∧
        (d.world.Willing → d.world.Smooth → t.MigrationFails index toPart d.tree)) d := by
  rw [migratePriority, wp_ite]
  refine ⟨fun hzero => ⟨.refl d, fun _ => rfl, fun h => absurd hzero h⟩, fun hsize => ?_⟩
  rw [wp_bind]
  refine wp_mono (closeFile_still (R := fun _ _ => False) G _ _) ?_ fun _ _ h => h.elim
  rintro _ d₁ ⟨hstill₁, hclosed₁⟩
  rw [wp_bind]
  refine wp_mono (closeFile_still (R := fun _ _ => False) G _ _) ?_ fun _ _ h => h.elim
  rintro _ d₂ ⟨hstill₂, hclosed₂⟩
  have hstill := hstill₁.trans hstill₂
  -- whichever of the two was closed first, the file has no entry left
  have hclosed : ∀ K : { K : Keys // Coherent K d }, Coherent (fun s f p => K.1 s f p ∧
      ¬ (s = storage ∧ f = index)) d₂ := by
    intro K
    refine (hclosed₂ ⟨_, hclosed₁ K⟩).mono fun entry _ hkey => ⟨hkey.1.1, fun hentry => ?_⟩
    cases toPart with
    | true => exact hkey.1.2 hentry
    | false => exact hkey.2 hentry
  have htree : d₂.tree = d.tree := hstill.tree
  rw [wp_bind]
  refine wp_mono (migrateCopy_spec G (hstill.sound hs)
    (migrationSource_ne_target hapart hi hpad toPart) hsize) ?_ ?_
  · rintro _ d₃ ⟨hgrows, hfails, bytes, hlen, hbytes, htree₃⟩
    rw [htree] at hfails hbytes htree₃
    rw [wp_onlyIf]
    cases toPart with
    | false =>
      refine ⟨nofun, fun _ => ⟨hstill.migrates hi hpad hclosed hgrows (.refl d₃),
        fun h => absurd h hsize, fun _ => ⟨hfails, bytes, hlen, hbytes, ?_⟩⟩⟩
      rw [htree₃]
      rfl
    | true =>
      refine ⟨fun _ => ?_, fun h => absurd rfl h⟩
      refine wp_mono (removeMigrated_spec G (t.pathFor index) index d₃) ?_ ?_
      · rintro _ d₄ ⟨htree₄, hspares⟩
        refine ⟨hstill.migrates hi hpad hclosed hgrows hspares, fun h => absurd h hsize,
          fun _ => ⟨hfails, bytes, hlen, hbytes, ?_⟩⟩
        rw [htree₄, htree₃]
        rfl
      · rintro _ d₄ ⟨htree₄, hspares, hunwilling⟩
        refine ⟨hstill.migrates hi hpad hclosed hgrows hspares, hsize, ?_, fun hw => ?_⟩
        · rw [htree₄, htree₃]
          exact ⟨fun p hp => Function.update_of_ne hp _ _,
            fun _ => ⟨bytes, hlen.le, Or.inr (Function.update_self _ _ _)⟩⟩
        · exact absurd ((hstill.kept.trans hgrows.kept).willing hw) hunwilling
  · rintro _ d₃ ⟨hgrows, hunharmed, hreason⟩
    rw [htree] at hunharmed hreason
    exact ⟨hstill.migrates hi hpad hclosed hgrows (.refl d₃), hsize, hunharmed,
      fun hw hsm => hreason (hstill.kept.willing hw) (hstill.kept.smooth hsm)⟩

/-! ## One turn -/

/-- The request wants the file skipped. -/
abbrev skips (requested : List Priority) (index : Nat) : Bool :=
  requested.getD index defaultPriority == dontDownload

/-- The file's bytes have to move for the request. -/
def TorrentStorage.Turns (t : TorrentStorage) (requested : List Priority) (index : Nat) : Prop :=
  t.files.padFileAt index = false ∧ t.files.fileSize index ≠ 0 ∧
    t.skipped index ≠ skips requested index

theorem setPriorityAt_spec {s : Sys World} (hs : s.disk.world.Sound) (hapart : Apart s.torrent)
    (requested : List Priority) (hi : index < s.torrent.numFiles) :
    wp (setPriorityAt G.env storage requested index)
      (fun _ s' => s'.torrent =
          s.torrent.setPriority index (requested.getD index defaultPriority) ∧
        s.disk.Migrates s.torrent storage s'.disk ∧
        (¬ s.torrent.Turns requested index → s'.disk.tree = s.disk.tree) ∧
        (s.torrent.Turns requested index →
          s.torrent.HasMigrated index (skips requested index) s.disk.tree s'.disk.tree))
      (fun _ s' => s'.torrent = s.torrent ∧ s.disk.Migrates s.torrent storage s'.disk ∧
        s.torrent.Turns requested index ∧
        s.torrent.Unharmed index (skips requested index) s.disk.tree s'.disk.tree ∧
        (s.disk.world.Willing → s.disk.world.Smooth →
          s.torrent.MigrationFails index (skips requested index) s.disk.tree)) s := by
  rw [setPriorityAt, wp_bind, wp_get]
  dsimp only
  rw [wp_bind, wp_onlyIf]
  have hskipped := s.torrent.skipped_of_lt hi
  refine ⟨fun hchanges => ?_, fun hsame => ?_⟩
  · rw [← hskipped] at hchanges
    rw [wp_onDisk]
    refine wp_mono (migratePriority_spec G hs hapart hi hchanges.1 _) ?_ ?_
    · rintro _ d' ⟨hmigrates, hzero, hmigrated⟩
      refine ⟨rfl, hmigrates, fun hnot => hzero ?_, fun hturns => hmigrated hturns.2.1⟩
      by_contra hsize
      exact hnot ⟨hchanges.1, hsize, hchanges.2⟩
    · rintro _ d' ⟨hmigrates, hsize, hunharmed, hreason⟩
      exact ⟨rfl, hmigrates, ⟨hchanges.1, hsize, hchanges.2⟩, hunharmed, hreason⟩
  · rw [← hskipped] at hsame
    exact ⟨rfl, .refl _, fun _ => rfl, fun hturns => absurd ⟨hturns.1, hturns.2.2⟩ hsame⟩

/-! ## The loop -/

section SamePaths

variable {t' : TorrentStorage}

theorem TorrentStorage.SamePaths.migrationFails (h : SamePaths t t') :
    t'.MigrationFails index toPart = t.MigrationFails index toPart := by
  funext tree
  simp only [TorrentStorage.MigrationFails, migrationTarget, migrationSource, h.pathFor, h.files,
    h.partPath]

theorem TorrentStorage.SamePaths.hasMigrated (h : SamePaths t t') {tree tree' : Tree}
    (hm : t'.HasMigrated index toPart tree tree') : t.HasMigrated index toPart tree tree' := by
  obtain ⟨hfails, bytes, hbytes⟩ := hm
  rw [h.migrationFails] at hfails
  refine ⟨hfails, bytes, ?_⟩
  simpa only [migratedTree, migrationSource, h.pathFor, h.files, h.partPath] using hbytes

theorem TorrentStorage.SamePaths.unharmed (h : SamePaths t t') {tree tree' : Tree}
    (hu : t'.Unharmed index toPart tree tree') : t.Unharmed index toPart tree tree' := by
  simpa only [TorrentStorage.Unharmed, migrationTarget, h.pathFor, h.files, h.partPath] using hu

end SamePaths

/-- The first `k` entries are the requested ones, the others the old ones. -/
def committed (k : Nat) (requested old : List Priority) : List Priority :=
  requested.take k ++ old.drop k

section Committed

variable {requested old : List Priority} {k : Nat}

theorem committed_all (h : requested.length = old.length) :
    committed old.length requested old = requested := by
  rw [committed, List.drop_length, List.append_nil, ← h, List.take_length]

/-- One more entry is committed. -/
theorem set_committed (h : requested.length = old.length) (hk : k < old.length) :
    (committed k requested old).set k (requested.getD k defaultPriority) =
      committed (k + 1) requested old := by
  have hk' : k < requested.length := h ▸ hk
  have htake : (requested.take k).length = k := List.length_take_of_le hk'.le
  rw [committed, committed, List.set_append_right _ _ htake.le, htake, Nat.sub_self,
    List.drop_eq_getElem_cons hk, List.set_cons_zero, List.getD_eq_getElem?_getD,
    List.getElem?_eq_getElem hk', Option.getD_some, ← List.take_append_getElem hk',
    List.append_assoc]
  rfl

/-- Entries that are still to come are the old ones. -/
theorem getD_committed (h : requested.length = old.length) {i : Nat} (hi : k ≤ i)
    (hik : i < old.length) :
    (committed k requested old).getD i defaultPriority = old.getD i defaultPriority := by
  have htake : (requested.take k).length = k := List.length_take_of_le (by omega)
  rw [committed, List.getD_eq_getElem?_getD, List.getElem?_append_right (by omega), htake,
    List.getElem?_drop, Nat.add_sub_cancel' hi, ← List.getD_eq_getElem?_getD]

end Committed

/-- The loop has come to file `k`. -/
structure Committed (storage : Nat) (requested : List Priority) (k : Nat) (s s' : Sys World) :
    Prop where
  same : SamePaths s.torrent s'.torrent
  priorities : s'.torrent.priorities = committed k requested s.torrent.priorities
  migrates : s.disk.Migrates s.torrent storage s'.disk

namespace Committed

variable {requested : List Priority} {k : Nat} {s s' : Sys World}

theorem zero (s : Sys World) : Committed storage requested 0 s s :=
  ⟨.refl _, rfl, .refl _⟩

theorem skipped (h : Committed storage requested k s s')
    (hlen : requested.length = s.torrent.numFiles) {i : Nat} (hi : k ≤ i)
    (hin : i < s.torrent.numFiles) : s'.torrent.skipped i = s.torrent.skipped i := by
  have hold : s.torrent.priorities.length = s.torrent.numFiles := s.torrent.priorities_length
  rw [s'.torrent.skipped_of_lt (h.same.numFiles ▸ hin), s.torrent.skipped_of_lt hin,
    TorrentStorage.priority, h.priorities, getD_committed (hlen.trans hold.symm) hi (hold ▸ hin)]
  rfl

theorem turns (h : Committed storage requested k s s')
    (hlen : requested.length = s.torrent.numFiles) {i : Nat} (hi : k ≤ i)
    (hin : i < s.torrent.numFiles) :
    s'.torrent.Turns requested i ↔ s.torrent.Turns requested i := by
  rw [Turns, Turns, h.same.files, h.skipped hlen hi hin]

/-- The state after an operation that has committed one more file, or none. -/
theorem after {s'' : Sys World} (h : Committed storage requested k s s')
    (hmigrates : s'.disk.Migrates s'.torrent storage s''.disk)
    (hlen : requested.length = s.torrent.numFiles) (hk : k < s.torrent.numFiles)
    (htorrent : s''.torrent =
      s'.torrent.setPriority k (requested.getD k defaultPriority)) :
    Committed storage requested (k + 1) s s'' := by
  have hold : s.torrent.priorities.length = s.torrent.numFiles := s.torrent.priorities_length
  refine ⟨?_, ?_, h.migrates.trans (hmigrates.same h.same)⟩
  · rw [htorrent]
    exact h.same.trans (.setPriority _ _ _)
  · rw [htorrent]
    change s'.torrent.priorities.set k _ = _
    rw [h.priorities, set_committed (hlen.trans hold.symm) (hold ▸ hk)]

theorem failed {s'' : Sys World} (h : Committed storage requested k s s')
    (hmigrates : s'.disk.Migrates s'.torrent storage s''.disk)
    (htorrent : s''.torrent = s'.torrent) : Committed storage requested k s s'' :=
  ⟨htorrent ▸ h.same, htorrent ▸ h.priorities, h.migrates.trans (hmigrates.same h.same)⟩

end Committed

/-- **One turn of the loop**, said in terms of the torrent the loop began with. -/
theorem turn_spec {requested : List Priority} {k : Nat} {s s' : Sys World}
    (hs : s.disk.world.Sound) (hapart : Apart s.torrent)
    (hlen : requested.length = s.torrent.numFiles) (hk : k < s.torrent.numFiles)
    (h : Committed storage requested k s s') :
    wp (setPriorityAt G.env storage requested k)
      (fun _ s'' => Committed storage requested (k + 1) s s'' ∧
        (¬ s.torrent.Turns requested k → s''.disk.tree = s'.disk.tree) ∧
        (s.torrent.Turns requested k →
          s.torrent.HasMigrated k (skips requested k) s'.disk.tree s''.disk.tree))
      (fun _ s'' => Committed storage requested k s s'' ∧ s.torrent.Turns requested k ∧
        s.torrent.Unharmed k (skips requested k) s'.disk.tree s''.disk.tree ∧
        (s.disk.world.Willing → s.disk.world.Smooth →
          s.torrent.MigrationFails k (skips requested k) s'.disk.tree)) s' := by
  have hturns := h.turns hlen le_rfl hk
  refine wp_mono (setPriorityAt_spec G (h.migrates.sound hs) (hapart.same h.same) requested
    (h.same.numFiles ▸ hk)) ?_ ?_
  · rintro _ s'' ⟨htorrent, hmigrates, hstays, hmigrated⟩
    exact ⟨h.after hmigrates hlen hk htorrent, fun hn => hstays (hturns.not.mpr hn),
      fun ht => h.same.hasMigrated (hmigrated (hturns.mpr ht))⟩
  · rintro _ s'' ⟨htorrent, hmigrates, ht, hunharmed, hreason⟩
    refine ⟨h.failed hmigrates htorrent, hturns.mp ht, h.same.unharmed hunharmed, fun hw hsm => ?_⟩
    have := hreason (h.migrates.kept.willing hw) (h.migrates.kept.smooth hsm)
    rwa [h.same.migrationFails] at this

/-- **The loop.** What a turn makes of the documents, done or not needed, carries an invariant
    through it; where it stops, a turn has failed. -/
theorem turns_spec {requested : List Priority} {s : Sys World} (hs : s.disk.world.Sound)
    (hapart : Apart s.torrent) (hlen : requested.length = s.torrent.numFiles)
    (I : Nat → Tree → Prop) (h0 : I 0 s.disk.tree)
    (hstays : ∀ k < s.torrent.numFiles, ∀ tree, I k tree → ¬ s.torrent.Turns requested k →
      I (k + 1) tree)
    (hturns : ∀ k < s.torrent.numFiles, ∀ tree tree', I k tree → s.torrent.Turns requested k →
      s.torrent.HasMigrated k (skips requested k) tree tree' → I (k + 1) tree') :
    wp (forEach s.torrent.files.indices (setPriorityAt G.env storage requested))
      (fun _ s' => Committed storage requested s.torrent.numFiles s s' ∧
        I s.torrent.numFiles s'.disk.tree)
      (fun _ s' => ∃ k < s.torrent.numFiles, Committed storage requested k s s' ∧
        s.torrent.Turns requested k ∧ ∃ tree, I k tree ∧
          s.torrent.Unharmed k (skips requested k) tree s'.disk.tree ∧
          (s.disk.world.Willing → s.disk.world.Smooth →
            s.torrent.MigrationFails k (skips requested k) tree)) s := by
  rw [FileStorage.indices]
  refine wp_forEach_range (fun k s' => Committed storage requested k s s' ∧ I k s'.disk.tree)
    ⟨.zero s, h0⟩ ?_ fun _ h => h
  rintro k hk s' ⟨hcommitted, hI⟩
  refine wp_mono (turn_spec G hs hapart hlen hk hcommitted) ?_ ?_
  · rintro _ s'' ⟨hcommitted', hsame, hmigrated⟩
    refine ⟨hcommitted', ?_⟩
    by_cases ht : s.torrent.Turns requested k
    · exact hturns k hk _ _ hI ht (hmigrated ht)
    · rw [hsame ht]
      exact hstays k hk _ hI ht
  · rintro _ s'' ⟨hcommitted', ht, hunharmed, hreason⟩
    exact ⟨k, hk, hcommitted', ht, _, hI, hunharmed, hreason⟩

/-! ## The end of the part file -/

/-- As `Disk.Migrates`, but the part file may have lost its name too. -/
structure Disk.Rearranges (t : TorrentStorage) (storage : Nat) (d d' : Disk World) : Prop where
  sound : d.world.Sound → d'.world.Sound
  kept : d.Kept d'
  names : ∀ {p n}, d.world.docs p = some n → p ≠ t.partPath →
    (∀ i < t.numFiles, t.files.padFileAt i = false → p ≠ t.pathFor i) → d'.world.docs p = some n
  coherent : ∀ {K : Keys}, (∀ s f, K s f t.partPath → s = storage ∧ f = -1) →
    (∀ i < t.numFiles, t.files.padFileAt i = false →
      ∀ s f, K s f (t.pathFor i) → s = storage ∧ f = i) → Coherent K d → Coherent K d'

theorem Disk.Migrates.rearranges {d' : Disk World} (h : d.Migrates t storage d') :
    d.Rearranges t storage d' :=
  ⟨h.sound, h.kept, fun hp _ hfree => h.names hp hfree, fun _ hK hc => h.coherent hK hc⟩

theorem Disk.Rearranges.trans {d' d'' : Disk World} (h : d.Rearranges t storage d')
    (h' : d'.Rearranges t storage d'') : d.Rearranges t storage d'' :=
  ⟨fun hs => h'.sound (h.sound hs), h.kept.trans h'.kept,
    fun hp hpart hfree => h'.names (h.names hp hpart hfree) hpart hfree,
    fun hpart hK hc => h'.coherent hpart hK (h.coherent hpart hK hc)⟩

/-- The torrent is needed only for the paths. -/
theorem Disk.Rearranges.same {t' : TorrentStorage} {d' : Disk World}
    (h : d.Rearranges t' storage d') (hsame : SamePaths t t') : d.Rearranges t storage d' := by
  have hn := hsame.numFiles
  have hfiles := hsame.files
  refine ⟨h.sound, h.kept, fun hp hpart hfree => h.names hp (hsame.partPath ▸ hpart)
    fun i hi hpad => ?_,
    fun hpart hK hc => h.coherent (fun s f hkey => hpart s f (hsame.partPath ▸ hkey))
    (fun i hi hpad s f hkey => ?_) hc⟩
  · rw [hsame.pathFor]
    exact hfree i (hn ▸ hi) (hfiles ▸ hpad)
  · rw [hsame.pathFor] at hkey
    exact hK i (hn ▸ hi) (hfiles ▸ hpad) s f hkey

/-- The last call was a removal of the part file that failed on more than its absence. -/
def TorrentStorage.RemovalFailed {W : Type} (t : TorrentStorage) (d : Disk W) : Prop :=
  ∃ result rest, d.trace = .remove t.partPath false result :: rest ∧ result < 0 ∧
    result ≠ -enoent

theorem removePartFile_spec (t : TorrentStorage) (storage : Nat) (d : Disk World) :
    wp (removePartFile G.env t storage)
      (fun _ d' => d.Rearranges t storage d' ∧
        d'.tree = Function.update d.tree t.partPath none ∧ ¬ t.RemovalFailed d')
      (fun _ d' => d.Migrates t storage d' ∧ d'.tree = d.tree ∧ t.RemovalFailed d' ∧
        ¬ d.world.Willing) d := by
  rw [removePartFile, wp_bind]
  refine wp_mono (closeFile_still (R := fun _ _ => False) G storage (-1)) ?_ fun _ _ h => h.elim
  rintro _ d₁ ⟨hstill, hclosed⟩
  -- what is left has no entry for the part file
  have hspared : ∀ {d₂}, d₁.Spares (· = t.partPath) d₂ → d.Rearranges t storage d₂ := by
    refine fun hspares => ⟨fun hs => hspares.sound (hstill.sound hs),
      hstill.kept.trans hspares.kept, fun {p n} hp hpart _ => ?_, fun {K} hpart _ hc => ?_⟩
    · exact hspares.names (by rw [hstill.docs]; exact hp) hpart
    · refine (hspares.coherent (fun s f p hkey hp => ?_) (hclosed ⟨K, hc⟩)).mono
        fun _ _ hkey => hkey.1
      subst hp
      exact hkey.2 (hpart s f hkey.1)
  have hquieted : ∀ {d₂}, d₁.Quiet d₂ → d.Migrates t storage d₂ := by
    refine fun hquiet => ⟨fun hs => hquiet.world.sound (hstill.sound hs),
      hstill.kept.trans hquiet.kept, fun {p n} hp _ => ?_, fun {K} _ hc => ?_⟩
    · exact hquiet.world.docs (by rw [hstill.docs]; exact hp)
    · exact ((hclosed ⟨K, hc⟩).grows hquiet.toGrows).mono fun _ _ hkey => hkey.1
  rw [wp_bind]
  have htrace : wp (callRemove G.env t.partPath false)
      (fun result d' => d'.trace = .remove t.partPath false result :: d₁.trace)
      (fun (_ : StorageError) _ => False) d₁ := rfl
  have hresult : ∀ {result : Int} {d' : Disk World},
      d'.trace = .remove t.partPath false result :: d₁.trace →
      (t.RemovalFailed d' ↔ result < 0 ∧ result ≠ -enoent) := by
    intro result d' heq
    constructor
    · rintro ⟨result', rest, heq', hfailed⟩
      rw [heq, List.cons.injEq, Event.remove.injEq] at heq'
      rw [heq'.1.2.2]
      exact hfailed
    · exact fun hfailed => ⟨result, _, heq, hfailed⟩
  refine wp_mono (wp_and htrace (callRemove_spec (R := fun _ _ => True) G t.partPath false
    (Q := fun result d' =>
      (result < 0 ∧ result ≠ -enoent →
        d.Migrates t storage d' ∧ d'.tree = d.tree ∧ ¬ d.world.Willing) ∧
      (¬ (result < 0 ∧ result ≠ -enoent) →
        d.Rearranges t storage d' ∧ d'.tree = Function.update d.tree t.partPath none))
    ?_ ?_)) ?_ fun _ _ h => h.1.elim
  · intro d₂ hunlinks _ _
    refine ⟨fun h => absurd h.1 (lt_irrefl 0), fun _ => ⟨hspared (hunlinks.spares rfl), ?_⟩⟩
    rw [hunlinks.tree, hstill.tree]
  · intro result d₂ hneg hquiet _ hnone hwilling
    refine ⟨fun h => ⟨hquieted hquiet, hquiet.tree.trans hstill.tree, fun hw => ?_⟩,
      fun h => ⟨(hquieted hquiet).rearranges, ?_⟩⟩
    · exact h.2 (hwilling (hstill.kept.willing hw)).2
    · have hmissing : d.tree t.partPath = none := by
        rw [← hstill.tree]
        refine hnone ?_
        by_contra hne
        exact h ⟨hneg, hne⟩
      rw [hquiet.tree, hstill.tree, ← hmissing, Function.update_eq_self]
  · rintro result d₂ ⟨heq, hfailed, hdone⟩
    rw [wp_throwIf]
    refine ⟨fun h => ?_, fun h => ?_⟩
    · obtain ⟨hmigrates, htree, hunwilling⟩ := hfailed h
      exact ⟨hmigrates, htree, (hresult heq).mpr h, hunwilling⟩
    · obtain ⟨hrearranges, htree⟩ := hdone h
      exact ⟨hrearranges, htree, fun hf => h ((hresult heq).mp hf)⟩

/-! ## The operation -/

/-- Every priority is the requested one. -/
structure Reprioritised (storage : Nat) (requested : List Priority) (s s' : Sys World) :
    Prop where
  same : SamePaths s.torrent s'.torrent
  priorities : s'.torrent.priorities = requested
  rearranges : s.disk.Rearranges s.torrent storage s'.disk
  kept : dontDownload ∈ requested → s.disk.Migrates s.torrent storage s'.disk

/-- The documents when the part file is no longer needed. -/
def TorrentStorage.withoutPart (t : TorrentStorage) (requested : List Priority) (tree : Tree) :
    Tree :=
  if dontDownload ∈ requested then tree else Function.update tree t.partPath none

/-- Only the part file can go. -/
theorem TorrentStorage.withoutPart_of_ne {t : TorrentStorage} {path : Path}
    (hpath : path ≠ t.partPath) (requested : List Priority) (tree : Tree) :
    t.withoutPart requested tree path = tree path := by
  rw [withoutPart]
  split
  · rfl
  · rw [Function.update_of_ne hpath]

/-- **`async_set_file_priority`**, with an invariant of its loop. -/
theorem asyncSetFilePriority_spec (storage : Nat) (priorities : List Priority) {s : Sys World}
    (hs : s.disk.world.Sound) (hapart : Apart s.torrent) {requested : List Priority}
    (hrequested : requested = resizePriorities priorities s.torrent.numFiles)
    (I : Nat → Tree → Prop) (h0 : I 0 s.disk.tree)
    (hstays : ∀ k < s.torrent.numFiles, ∀ tree, I k tree → ¬ s.torrent.Turns requested k →
      I (k + 1) tree)
    (hturns : ∀ k < s.torrent.numFiles, ∀ tree tree', I k tree → s.torrent.Turns requested k →
      s.torrent.HasMigrated k (skips requested k) tree tree' → I (k + 1) tree') :
    wp (asyncSetFilePriority G.env storage priorities)
      (fun _ s' => Reprioritised storage requested s s' ∧ ¬ (dontDownload ∉ requested ∧
          s.torrent.RemovalFailed s'.disk) ∧
        ∃ tree, I s.torrent.numFiles tree ∧ s'.disk.tree = s.torrent.withoutPart requested tree)
      (fun _ s' => (∃ k < s.torrent.numFiles, Committed storage requested k s s' ∧
          s.torrent.Turns requested k ∧ ∃ tree, I k tree ∧
            s.torrent.Unharmed k (skips requested k) tree s'.disk.tree ∧
            (s.disk.world.Willing → s.disk.world.Smooth →
              s.torrent.MigrationFails k (skips requested k) tree)) ∨
        Committed storage requested s.torrent.numFiles s s' ∧
          I s.torrent.numFiles s'.disk.tree ∧ dontDownload ∉ requested ∧
          s.torrent.RemovalFailed s'.disk ∧ ¬ s.disk.world.Willing) s := by
  have hlen : requested.length = s.torrent.numFiles := by rw [hrequested, resizePriorities_length]
  rw [asyncSetFilePriority, wp_bind, wp_get]
  dsimp only
  rw [← hrequested, wp_bind]
  refine wp_mono (turns_spec G hs hapart hlen I h0 hstays hturns) ?_ fun _ _ h => Or.inl h
  rintro _ s₁ ⟨hcommitted, hI⟩
  have hpriorities : s₁.torrent.priorities = requested := by
    have hold : s.torrent.priorities.length = s.torrent.numFiles := s.torrent.priorities_length
    rw [hcommitted.priorities, ← hold, committed_all (hlen.trans hold.symm)]
  rw [wp_bind, wp_get]
  rw [wp_onlyIf, hpriorities, wp_onDisk]
  refine ⟨fun hunused => ?_, fun hused => ?_⟩
  · have hfailed : ∀ {d : Disk World}, s₁.torrent.RemovalFailed d ↔ s.torrent.RemovalFailed d := by
      intro d
      rw [RemovalFailed, RemovalFailed, hcommitted.same.partPath]
    refine wp_mono (removePartFile_spec G s₁.torrent storage s₁.disk) ?_ ?_
    · rintro _ d' ⟨hrearranges, htree, hnot⟩
      rw [hfailed] at hnot
      refine ⟨⟨hcommitted.same, hpriorities,
        hcommitted.migrates.rearranges.trans (hrearranges.same hcommitted.same),
        fun h => absurd h hunused⟩, fun h => hnot h.2, _, hI, ?_⟩
      rw [withoutPart, if_neg hunused, ← hcommitted.same.partPath]
      exact htree
    · rintro _ d' ⟨hmigrates, htree, hremoval, hunwilling⟩
      rw [hfailed] at hremoval
      refine Or.inr ⟨hcommitted.failed hmigrates rfl, ?_, hunused, hremoval, fun hw => ?_⟩
      · change I _ d'.tree
        rw [htree]
        exact hI
      · exact hunwilling (hcommitted.migrates.kept.willing hw)
  · rw [not_not] at hused
    refine ⟨⟨hcommitted.same, hpriorities, hcommitted.migrates.rearranges,
      fun _ => hcommitted.migrates⟩, fun h => h.1 hused, _, hI, ?_⟩
    rw [withoutPart, if_pos hused]

end Saf
end Libtorrent4j
