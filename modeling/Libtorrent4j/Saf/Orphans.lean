import Libtorrent4j.Saf.Owning
import Libtorrent4j.Saf.PriorityChange

/-!
# No orphans

A document the backend has made has one place to be: the path of a file that is not a pad file,
or the path of the part file. As long as the bridge is fault-free **no operation leaves one
behind anywhere else**, also when it reports an error of its own. This is why
`async_delete_files`, which knows no other paths, leaves nothing of the torrent.

`async_delete_files` itself is described for every script of failures: each removal is asked for
once, and the report is the first failure.
-/

namespace Libtorrent4j
namespace Saf

open Lib Lib.Exec TorrentStorage

/-- A path at which the torrent keeps a document. -/
def TorrentStorage.Place (t : TorrentStorage) (path : Path) : Prop :=
  (∃ i < t.numFiles, t.files.padFileAt i = false ∧ path = t.pathFor i) ∨ path = t.partPath

theorem TorrentStorage.SamePaths.place {t t' : TorrentStorage} (h : SamePaths t t') {path : Path} :
    t'.Place path ↔ t.Place path := by
  simp only [TorrentStorage.Place, h.partPath, h.numFiles, h.files, h.pathFor]

/-! ## `async_delete_files` -/

/-- What `async_delete_files` removes: the file it names in an error, and the path. -/
def TorrentStorage.deleteTargets (t : TorrentStorage) (deleteFiles deletePartfile : Bool) :
    List (Int × Path) :=
  (if deleteFiles then t.files.indices.filter fun index => !t.files.padFileAt index else []).map
      (fun index : Nat => ((index : Int), t.pathFor index)) ++
    (if deletePartfile || deleteFiles then [t.partPath] else []).map fun path => (-1, path)

/-- With `delete_files` these are the torrent's places. -/
theorem mem_deleteTargets {t : TorrentStorage} {deletePartfile : Bool} {path : Path} :
    path ∈ (t.deleteTargets true deletePartfile).map Prod.snd ↔ t.Place path := by
  have hfiles : (∃ i, (i < t.numFiles ∧ t.files.padFileAt i = false) ∧ t.pathFor i = path) ↔
      ∃ i < t.numFiles, t.files.padFileAt i = false ∧ path = t.pathFor i := by
    constructor
    · rintro ⟨i, ⟨hi, hpad⟩, rfl⟩
      exact ⟨i, hi, hpad, rfl⟩
    · rintro ⟨i, hi, hpad, rfl⟩
      exact ⟨i, ⟨hi, hpad⟩, rfl⟩
  simp only [deleteTargets, Bool.or_true, if_true, List.map_append, List.map_map, List.mem_append,
    List.mem_map, List.mem_filter, FileStorage.mem_indices, Bool.not_eq_true', Function.comp,
    List.mem_singleton, exists_eq_left, Place]
  exact or_congr hfiles eq_comm

theorem deleteTargets_nodup {t : TorrentStorage} (hapart : Apart t)
    (deleteFiles deletePartfile : Bool) :
    ((t.deleteTargets deleteFiles deletePartfile).map Prod.snd).Nodup := by
  have hfiles : ((t.files.indices.filter fun index => !t.files.padFileAt index).map
      t.pathFor).Nodup := by
    refine List.Nodup.map_on ?_ (List.nodup_range.filter _)
    intro i hi j hj heq
    simp only [List.mem_filter, FileStorage.mem_indices, Bool.not_eq_true'] at hi hj
    exact hapart.distinct i hi.1 j hj.1 hi.2 hj.2 heq
  simp only [deleteTargets, List.map_append, List.map_map, Function.comp_def]
  rw [List.nodup_append]
  refine ⟨?_, ?_, ?_⟩
  · split
    · exact hfiles
    · exact List.nodup_nil
  · split
    · exact List.nodup_singleton _
    · exact List.nodup_nil
  · intro p hp q hq heq
    subst heq
    obtain ⟨i, hi, rfl⟩ := List.mem_map.mp hp
    split at hi
    · simp only [List.mem_filter, FileStorage.mem_indices, Bool.not_eq_true'] at hi
      refine hapart.notPart i hi.1 hi.2 ?_
      split at hq
      · simpa using hq
      · cases hq
    · cases hi

/-- Closing descriptors is all that happens before the removals. -/
def Closing (events : List (Event World)) : Prop := ∀ event ∈ events, ∃ fd, event = .close fd

section Delete

variable (G : Host)

theorem closeWhere_trace {F : Type} (p : OpenDescriptor → Bool) {d : Disk World}
    {R : F → Disk World → Prop} :
    wp (closeWhere G.env p : Exec (Disk World) F Unit)
      (fun _ d' => ∃ closes, Closing closes ∧ d'.trace = closes ++ d.trace) R d := by
  rw [closeWhere, wp_bind, wp_get, wp_bind]
  refine wp_forEach_inv (fun d' => ∃ closes, Closing closes ∧ d'.trace = closes ++ d.trace)
    ⟨[], by simp [Closing], rfl⟩ ?_ fun _ h => h
  rintro entry - d' ⟨closes, hcloses, htrace⟩
  rw [callClose, wp_ask]
  refine ⟨.close entry.descriptor :: closes, ?_, congrArg _ htrace⟩
  intro event hevent
  rcases List.mem_cons.mp hevent with rfl | hevent
  · exact ⟨_, rfl⟩
  · exact hcloses event hevent

/-- The targets have been removed in their order, after descriptors were closed, and the report
    is the first failure. -/
structure Deleted (targets : List (Int × Path)) (removals : List Removal)
    (error : Option StorageError) (d d' : Disk World) : Prop where
  each : removals.map (fun removal => (removal.file, removal.path)) = targets
  error : error = removals.findSome? Removal.error
  trace : ∃ closes, Closing closes ∧
    d'.trace = (removals.map Removal.event).reverse ++ closes ++ d.trace
  docs : ∀ p, d'.world.docs p = d.world.docs p ∨
    d'.world.docs p = none ∧ p ∈ targets.map Prod.snd
  gone : ∀ removal ∈ removals, ¬ removal.Fails → d'.world.docs removal.path = none

namespace Deleted

variable {targets : List (Int × Path)} {removals : List Removal} {error : Option StorageError}
  {d d' : Disk World}

/-- An error is reported if and only if some removal failed. -/
theorem error_iff (h : Deleted targets removals error d d') :
    error ≠ none ↔ ∃ removal ∈ removals, removal.Fails := by
  rw [h.error, Ne, List.findSome?_eq_none_iff]
  push Not
  exact exists_congr fun removal => and_congr_right fun _ => by
    rw [Ne, Removal.error_eq_none, not_not]

/-- The error is that of the first removal that failed. -/
theorem error_first (h : Deleted targets removals error d d') {before after : List Removal}
    {removal : Removal} (heq : removals = before ++ removal :: after)
    (hbefore : ∀ earlier ∈ before, ¬ earlier.Fails) (hfails : removal.Fails) :
    error = some (makeError removal.result removal.file .fileRemove) := by
  have hnone : before.findSome? Removal.error = none :=
    List.findSome?_eq_none_iff.mpr fun earlier hin =>
      Removal.error_eq_none.mpr (hbefore earlier hin)
  rw [h.error, heq, List.findSome?_append, hnone, Option.none_or, List.findSome?_cons,
    Removal.error_of_fails hfails]

theorem paths (h : Deleted targets removals error d d') :
    removals.map Removal.path = targets.map Prod.snd := by
  rw [← h.each, List.map_map]
  rfl

/-- Without an error no target is left. -/
theorem none_left (h : Deleted targets removals none d d') {p : Path}
    (hp : p ∈ targets.map Prod.snd) : d'.world.docs p = none := by
  rw [← h.paths] at hp
  obtain ⟨removal, hin, rfl⟩ := List.mem_map.mp hp
  refine h.gone removal hin fun hfails => ?_
  exact h.error_iff.mpr ⟨removal, hin, hfails⟩ rfl

/-- No document is new. -/
theorem before (h : Deleted targets removals error d d') {p : Path} {n : Nat}
    (hp : d'.world.docs p = some n) : d.world.docs p = some n := by
  rcases h.docs p with hsame | ⟨hnone, -⟩
  · rwa [← hsame]
  · rw [hnone] at hp
    cases hp

end Deleted

/-- `async_delete_files`: every target is removed, whatever failed before. -/
theorem asyncDeleteFiles_spec (t : TorrentStorage) (storage : Nat)
    (deleteFiles deletePartfile : Bool) (d : Disk World) :
    wp (asyncDeleteFiles G.env t storage deleteFiles deletePartfile)
      (fun _ d' => ∃ removals,
        Deleted (t.deleteTargets deleteFiles deletePartfile) removals none d d')
      (fun error d' => ∃ removals,
        Deleted (t.deleteTargets deleteFiles deletePartfile) removals (some error) d d') d := by
  rw [asyncDeleteFiles, wp_bind]
  refine wp_mono (wp_and (R := fun _ _ => False) (S := fun _ _ => False)
    (closeStorage_still G storage) (closeWhere_trace G _)) ?_ fun _ _ h => h.1.elim
  rintro _ d₁ ⟨⟨hstill, -⟩, closes, hcloses, htrace⟩
  rw [wp_bind]
  refine wp_mono (removeEach_spec G _ t.pathFor (fun index => (index : Int)) d₁) ?_
    fun _ _ h => h.elim
  rintro _ d₂ ⟨files, hfiles, rfl, hremoved⟩
  rw [wp_bind]
  refine wp_mono (removeEach_spec G _ (fun path => path) (fun _ => -1) d₂) ?_ fun _ _ h => h.elim
  rintro _ d₃ ⟨part, hpart, rfl, hremoved'⟩
  have hall := hremoved.trans hremoved'
  have heach : (files ++ part).map (fun removal => (removal.file, removal.path)) =
      t.deleteTargets deleteFiles deletePartfile := by
    rw [List.map_append, hfiles, hpart]
    rfl
  have hdeleted : Deleted (t.deleteTargets deleteFiles deletePartfile) (files ++ part)
      ((files ++ part).findSome? Removal.error) d d₃ := by
    refine ⟨heach, rfl, ⟨closes, hcloses, ?_⟩, fun p => ?_, hall.gone⟩
    · rw [hall.trace, htrace, List.append_assoc]
    · rw [← heach, ← hstill.docs]
      rcases hall.frame p with ⟨hsame, -⟩ | ⟨hnone, removal, hin, hp⟩
      · exact Or.inl hsame
      · refine Or.inr ⟨hnone, ?_⟩
        rw [List.map_map]
        exact List.mem_map.mpr ⟨removal, hin, hp.symm⟩
  rw [← List.map_append, List.findSome?_map]
  cases hfirst : (files ++ part).findSome? (id ∘ Removal.error) with
  | some error =>
    have herror : (files ++ part).findSome? Removal.error = some error := hfirst
    exact ⟨_, herror ▸ hdeleted⟩
  | none =>
    have herror : (files ++ part).findSome? Removal.error = none := hfirst
    exact ⟨_, herror ▸ hdeleted⟩

/-- The report of a deletion, and what it says. -/
theorem deleteJob_spec (reuse : Bool) (storage : Nat) (deleteFiles deletePartfile : Bool)
    (s : Sys World) :
    let r := runJob G.env reuse storage (.deleteFiles deleteFiles deletePartfile) s
    r.2.torrent = s.torrent ∧ ∃ removals error, r.1 = .deleted error ∧
      Deleted (s.torrent.deleteTargets deleteFiles deletePartfile) removals error s.disk
        r.2.disk := by
  have hspec := asyncDeleteFiles_spec G s.torrent storage deleteFiles deletePartfile s.disk
  simp only [runJob, onDisk, zoom]
  rcases hrun : asyncDeleteFiles G.env s.torrent storage deleteFiles deletePartfile s.disk with
    ⟨_ | _, d'⟩
  · obtain ⟨removals, hdeleted⟩ := wp_error hspec hrun
    exact ⟨trivial, removals, _, rfl, hdeleted⟩
  · obtain ⟨removals, hdeleted⟩ := wp_ok hspec hrun
    exact ⟨trivial, removals, _, rfl, hdeleted⟩

end Delete

/-! ## Runs -/

/-- The storage is owned, no call fails but for want of a document, and the documents made since
    the node counter was `first` lie at the torrent's places. -/
structure Tidy (storage first : Nat) (s : Sys World) : Prop where
  owned : Owned storage s
  willing : s.disk.world.Willing
  smooth : s.disk.world.Smooth
  placed : ∀ {p n}, s.disk.world.docs p = some n → first ≤ n → s.torrent.Place p

/-- A check, a write, a priority change, a rename to a name that is free, or a move that takes no
    pad file onto the path of a file that is none. -/
def Orderly (t : TorrentStorage) (job : Job) : Prop :=
  KeepsAllApart t job ∧
  match job with
  | .checkFiles _ _ | .setFilePriority _ | .renameFile _ _ => True
  | .write request input => request.InRange t.files ∧ input.length = request.length
  | .moveStorage path flags =>
      (flags = .alwaysReplaceFiles ∨ flags = .failIfExist ∨ flags = .dontReplace) ∧
      ∀ i < t.numFiles, ∀ j < t.numFiles, t.files.padFileAt i = true →
        t.files.padFileAt j = false → t.destination (normalizedSaveRoot path) i ≠ t.pathFor j
  | _ => False

namespace Tidy

variable (G : Host) {storage first : Nat} {s : Sys World}

/-- A job that keeps the paths makes documents at the torrent's places only. -/
theorem of_frame {s' : Sys World} (h : Tidy storage first s) (howned : Owned storage s')
    (hkept : s.disk.Kept s'.disk) (hsame : SamePaths s.torrent s'.torrent)
    (hnames : ∀ {p n}, s.disk.world.docs p = some n → ¬ s.torrent.Place p →
      s'.disk.world.docs p = some n)
    (hframe : ∀ p, ¬ s.torrent.Place p → s'.disk.tree p = s.disk.tree p) :
    Tidy storage first s' := by
  refine ⟨howned, hkept.willing h.willing, hkept.smooth h.smooth, fun {p n} hp hn => ?_⟩
  rw [hsame.place]
  by_contra hnot
  exact hnot (h.placed (docs_of_names (fun hd => hnames hd hnot) (hframe p hnot) hp) hn)

theorem write (h : Tidy storage first s) {request : Request} {input : List Byte}
    (hrange : request.InRange s.torrent.files) (hinput : input.length = request.length) :
    Tidy storage first (runJob G.env true storage (.write request input) s).2 := by
  obtain ⟨howned, htorrent, hproceeds, hframe⟩ := h.owned.write G hrange hinput
  refine h.of_frame howned hproceeds.kept (htorrent ▸ .refl _) (fun hp _ => hproceeds.names hp)
    fun p hnot => hframe p ?_
  intro slice hslice hpad heq
  refine hnot ?_
  rw [heq, homePath]
  split
  · exact Or.inr rfl
  · exact Or.inl ⟨_, hrange.covers.lt_of_mem hslice, hpad, rfl⟩

theorem check (h : Tidy storage first s) (resume : Option Resume) (links : List Path) :
    Tidy storage first (runJob G.env true storage (.checkFiles resume links) s).2 := by
  obtain ⟨howned, htorrent, hproceeds, hmade, -⟩ := h.owned.check G resume links
  refine h.of_frame howned hproceeds.kept (htorrent ▸ .refl _) (fun hp _ => hproceeds.names hp)
    fun p hnot => hmade.frame p ?_
  intro i hi heq
  exact hnot (Or.inl ⟨i, hi.1, hi.2.1, heq⟩)

theorem prioritise (h : Tidy storage first s) (priorities : List Priority) :
    Tidy storage first (runJob G.env true storage (.setFilePriority priorities) s).2 := by
  obtain ⟨howned, hkept, hcases⟩ := h.owned.prioritise G priorities rfl
    (fun _ tree => ∀ p, ¬ s.torrent.Place p → tree p = s.disk.tree p) (fun _ _ => rfl)
    (fun _ _ _ hI _ => hI) fun k hk tree tree' hI ht hm p hnot => by
      rw [hm.other (fun heq => hnot (Or.inl ⟨k, hk, ht.1, heq⟩)) fun heq => hnot (Or.inr heq)]
      exact hI p hnot
  have hpart : ∀ {p}, ¬ s.torrent.Place p → p ≠ s.torrent.partPath := fun hnot heq =>
    hnot (Or.inr heq)
  have hfile : ∀ {p}, ¬ s.torrent.Place p →
      ∀ i < s.torrent.numFiles, s.torrent.files.padFileAt i = false → p ≠ s.torrent.pathFor i :=
    fun hnot i hi hpad heq => hnot (Or.inl ⟨i, hi, hpad, heq⟩)
  rcases hcases with ⟨-, hdone, tree, hI, htree⟩ |
    ⟨-, ⟨k, hk, hcommitted, ht, tree, hI, hunharmed⟩ | ⟨hcommitted, hI⟩⟩
  · refine h.of_frame howned hkept hdone.same
      (fun hp hnot => hdone.rearranges.names hp (hpart hnot) (hfile hnot)) fun p hnot => ?_
    rw [htree, withoutPart_of_ne (hpart hnot)]
    exact hI p hnot
  · refine h.of_frame howned hkept hcommitted.same
      (fun hp hnot => hcommitted.migrates.names hp (hfile hnot)) fun p hnot => ?_
    rw [hunharmed.other (hfile hnot k hk ht.1) (hpart hnot)]
    exact hI p hnot
  · exact h.of_frame howned hkept hcommitted.same
      (fun hp hnot => hcommitted.migrates.names hp (hfile hnot)) hI

theorem rename (h : Tidy storage first s) {index : Int} {name : Path}
    (hjob : KeepsDocuments s.torrent (.renameFile index name)) :
    Tidy storage first (runJob G.env true storage (.renameFile index name) s).2 := by
  obtain ⟨howned, hkept, ⟨i, hindex, hi, hsafe, -, htorrent, hrenamed⟩ |
    ⟨-, htorrent, hundisturbed⟩⟩ := h.owned.rename G hjob
  · refine ⟨howned, hkept.willing h.willing, hkept.smooth h.smooth, fun {p n} hp hn => ?_⟩
    rw [hrenamed.docs, Function.update_apply, Function.update_apply] at hp
    rw [htorrent]
    have hplace : ∀ j, j < s.torrent.numFiles → s.torrent.files.padFileAt j = false →
        (s.torrent.renameFile i name (rootedPath s.torrent.saveRoot name)).Place
          (if j = i then rootedPath s.torrent.saveRoot name else s.torrent.pathFor j) :=
      fun j hj hpad => Or.inl ⟨j, hj, hpad, (s.torrent.renameFile_pathFor _ _ _ hj).symm⟩
    split at hp
    · rename_i hnew
      -- the document renamed was at a place, so the file is not a pad file
      obtain ⟨hpart, hothers⟩ := (hjob i hi hindex hsafe).1
      rcases h.placed hp hn with ⟨j, hj, hpad, heq⟩ | heq
      · obtain rfl : j = i := by
          by_contra hji
          exact hothers j hj hji hpad heq
        have := hplace j hj hpad
        rw [if_pos rfl] at this
        rwa [hnew]
      · exact absurd heq hpart
    · split at hp
      · cases hp
      · rename_i hold
        rcases h.placed hp hn with ⟨j, hj, hpad, rfl⟩ | heq
        · have := hplace j hj hpad
          rwa [if_neg fun hji => hold (congrArg _ hji)] at this
        · exact Or.inr heq
  · exact h.of_frame howned hkept (htorrent ▸ .refl _) (fun hp _ => hundisturbed.names hp)
      fun p _ => congrFun hundisturbed.tree p

theorem move (h : Tidy storage first s) {path : Path} {flags : MoveFlags}
    (hjob : Orderly s.torrent (.moveStorage path flags)) :
    Tidy storage first (runJob G.env true storage (.moveStorage path flags) s).2 := by
  obtain ⟨hkeeps, hflags, hpads⟩ := hjob
  obtain ⟨howned, ⟨status, -, htorrent, -, -, hmoved⟩ | ⟨-, htorrent, hnot⟩⟩ :=
    h.owned.move G fun hsafe haccepted i hi _ => hkeeps hsafe haccepted i hi
  · refine ⟨howned, hmoved.kept.willing h.willing, hmoved.kept.smooth h.smooth,
      fun {p n} hp hn => ?_⟩
    rw [htorrent]
    have hplace : ∀ j, j < s.torrent.numFiles → s.torrent.files.padFileAt j = false →
        (s.torrent.setSaveRoot (normalizedSaveRoot path)).Place
          (s.torrent.destination (normalizedSaveRoot path) j) := by
      refine fun j hj hpad => Or.inl ⟨j, hj, hpad, ?_⟩
      rw [s.torrent.setSaveRoot_pathFor _ hj, normalizedSaveRoot_idem]
      rfl
    by_contra hnone
    have hfree : ∀ j < s.torrent.numFiles, s.torrent.files.padFileAt j = false →
        p ≠ s.torrent.destination (normalizedSaveRoot path) j :=
      fun j hj hpad heq => hnone (heq ▸ hplace j hj hpad)
    have hthere : (runJob G.env true storage (.moveStorage path flags) s).2.disk.tree p ≠ none :=
      fun htree => by simp [World.content_eq_none.mp htree] at hp
    rcases hmoved.frame p hfree with htree | ⟨htree, -⟩
    -- a document that has not been moved away was at a place before
    · have hstays : ¬ s.torrent.Left (normalizedSaveRoot path) p := fun hleft =>
        hthere (hmoved.cleaned (by rcases hflags with rfl | rfl | rfl <;> rfl) h.willing p hleft)
      have hbefore := docs_of_names (fun hd => hmoved.names hd hstays) htree hp
      rcases h.placed hbefore hn with ⟨j, hj, hpad, heq⟩ | heq
      · -- a path that is not left is some file's destination, and not a pad file's
        refine hstays ⟨⟨j, hj, hpad, heq.symm⟩, fun hin => ?_⟩
        obtain ⟨i, hi, hdest⟩ := List.mem_map.mp hin
        have hin : i < s.torrent.numFiles := s.torrent.files.mem_indices.mp hi
        cases hpadi : s.torrent.files.padFileAt i with
        | false => exact hfree i hin hpadi hdest.symm
        | true => exact hpads i hin j hj hpadi hpad (hdest.trans heq)
      · exact hnone (Or.inr heq)
    · exact hthere htree
  · refine h.of_frame howned hnot.kept (htorrent ▸ .refl _) (fun hp _ => hnot.names hp)
      fun p _ => ?_
    exact congrFun (hnot.willing h.willing h.smooth).1 p

/-- **One step** leaves no document anywhere else. -/
theorem step (h : Tidy storage first s) (hapart : AllApart s.torrent) {job : Job}
    (hjob : Orderly s.torrent job) :
    Tidy storage first (runJob G.env true storage job s).2 := by
  cases job with
  | checkFiles resume links => exact h.check G resume links
  | write request input => exact h.write G hjob.2.1 hjob.2.2
  | setFilePriority priorities => exact h.prioritise G priorities
  | renameFile index name => exact h.rename G (hapart.keepsDocuments hjob.1)
  | moveStorage path flags => exact h.move G hjob
  | _ => exact hjob.2.elim

end Tidy

/-- **No orphan documents, and a deletion removes everything.** The documents made in a run lie
    at the paths of files, pad files apart, and of the part file. A deletion after it, under any
    script of failures, asks once for the removal of each of them, whatever failed before; it
    reports the first failure, and when there is none no document of the torrent is left. -/
theorem no_orphans (G : Host) {t : TorrentStorage} (hreach : t.Reachable) (hapart : AllApart t)
    {storage : Nat} {d : Disk World} (hc : Coherent (t.keys storage) d)
    (hwilling : d.world.Willing) (hsmooth : d.world.Smooth) {jobs : List Job}
    (hrun : EveryStep G.env true storage Orderly jobs { torrent := t, disk := d }) :
    let s := (runJobs G.env true storage jobs { torrent := t, disk := d }).2
    (∀ p n, s.disk.world.docs p = some n → d.world.nextNode ≤ n → s.torrent.Place p) ∧
    ∀ bridge io,
      let s' : Sys World := { s with disk := s.disk.scripted bridge io }
      (∀ deletePartfile,
        let r := runJob G.env true storage (.deleteFiles true deletePartfile) s'
        ∃ removals error, r.1 = .deleted error ∧
          removals.map (fun removal => (removal.file, removal.path)) =
            s.torrent.deleteTargets true deletePartfile ∧
          (removals.map Removal.path).Nodup ∧
          (∀ p, p ∈ removals.map Removal.path ↔ s.torrent.Place p) ∧
          (∃ closes, Closing closes ∧
            r.2.disk.trace = (removals.map Removal.event).reverse ++ closes ++ s.disk.trace) ∧
          (error ≠ none ↔ ∃ removal ∈ removals, removal.Fails) ∧
          (∀ before removal after, removals = before ++ removal :: after →
            (∀ earlier ∈ before, ¬ earlier.Fails) → removal.Fails →
            error = some (makeError removal.result removal.file .fileRemove)) ∧
          (error = none → (∀ p, s.torrent.Place p → r.2.disk.world.docs p = none) ∧
            ∀ p n, r.2.disk.world.docs p = some n → n < d.world.nextNode)) ∧
      let r := runJob G.env true storage (.deleteFiles false true) s'
      ∃ result error, r.1 = .deleted error ∧
        (∃ closes, Closing closes ∧ r.2.disk.trace =
          .remove s.torrent.partPath false result :: closes ++ s.disk.trace) ∧
        (error ≠ none ↔ result < 0 ∧ result ≠ -enoent) ∧
        (error = none → r.2.disk.world.docs s.torrent.partPath = none) ∧
        ∀ p, p ≠ s.torrent.partPath → r.2.disk.world.docs p = s.disk.world.docs p := by
  intro s
  have hstart : Tidy storage d.world.nextNode { torrent := t, disk := d } :=
    ⟨⟨hapart.apart, fun i hi => hreach.rooted hi, hc⟩, hwilling, hsmooth, fun hp hn =>
      absurd (hc.sound.bound hp) (not_lt.mpr hn)⟩
  have hrest := runJobs_induct_every G.env true storage
    (I := fun s => AllApart s.torrent ∧ Tidy storage d.world.nextNode s)
    (fun job s hjob hs => ⟨hs.2.owned.allApart G hs.1 hjob.1, hs.2.step G hs.1 hjob⟩)
    hrun ⟨hapart, hstart⟩
  have hend : Tidy storage d.world.nextNode s := hrest.2
  refine ⟨fun p n hp hn => hend.placed hp hn, fun bridge io => ⟨fun deletePartfile => ?_, ?_⟩⟩
  · obtain ⟨-, removals, error, hreport, hdeleted⟩ := deleteJob_spec G true storage true
      deletePartfile { s with disk := s.disk.scripted bridge io }
    refine ⟨removals, error, hreport, hdeleted.each, ?_, ?_, hdeleted.trace, hdeleted.error_iff,
      fun before removal after heq hbefore hfails => hdeleted.error_first heq hbefore hfails, ?_⟩
    · rw [hdeleted.paths]
      exact deleteTargets_nodup hend.owned.apart _ _
    · intro p
      rw [hdeleted.paths]
      exact mem_deleteTargets
    · rintro rfl
      refine ⟨fun p hp => hdeleted.none_left (mem_deleteTargets.mpr hp), fun p n hp => ?_⟩
      -- a document made in the run lies at a place, and there is none left
      by_contra hn
      have hplace := hend.placed (hdeleted.before hp) (not_lt.mp hn)
      rw [hdeleted.none_left (mem_deleteTargets.mpr hplace)] at hp
      cases hp
  · obtain ⟨-, removals, error, hreport, hdeleted⟩ := deleteJob_spec G true storage false
      true { s with disk := s.disk.scripted bridge io }
    -- the part file is the only target
    have htargets : s.torrent.deleteTargets false true = [(-1, s.torrent.partPath)] := rfl
    have heach := hdeleted.each
    rw [htargets] at heach
    obtain ⟨⟨file, path, result⟩, rfl, hfile⟩ := List.map_eq_singleton_iff.mp heach
    obtain ⟨rfl, rfl⟩ : file = -1 ∧ path = s.torrent.partPath := by simpa using hfile
    refine ⟨result, error, hreport, hdeleted.trace, ?_, ?_, fun p hp => ?_⟩
    · rw [hdeleted.error_iff]
      simp only [List.mem_singleton, exists_eq_left, Removal.Fails]
    · rintro rfl
      refine hdeleted.none_left ?_
      rw [htargets]
      exact List.mem_singleton_self _
    · rcases hdeleted.docs p with hsame | ⟨-, hin⟩
      · exact hsame
      · rw [htargets] at hin
        exact absurd (List.mem_singleton.mp hin) hp

namespace Scattered

/-- Two files with padding between them; the second is skipped from the start. -/
def params : StorageParams where
  files := FileStorage.ofEntries
    [{ size := 2, pad := false }, { size := 2, pad := true }, { size := 1, pad := false }] 4
  filePath i := if i = 0 then str "a" else if i = 1 then str ".pad/2" else str "b"
  path := flowSessionRoot
  priorities := [defaultPriority, defaultPriority, dontDownload]
  infoHash := List.replicate 20 171

def disk : Disk World := { world := World.holding [] }

theorem reachable_params : (build params []).Reachable :=
  ⟨World, provider .next id id, params, World.holding [], World.holding [], _, 0, disk, [], rfl,
    rfl⟩

theorem allApart_params : AllApart (build params []) := by
  constructor <;> decide +kernel

/-- The second file is written to the part file and gets its document later; the first is renamed,
    and both are moved. -/
def jobs : List Job :=
  [.checkFiles none [], .write { piece := 1, start := 0, length := 1 } [7], .renameFile 0 (str "c"),
    .setFilePriority [4, 4, 4], .moveStorage (str "down") .alwaysReplaceFiles]

theorem jobs_orderly : EveryStep (provider .next id id) true 0 Orderly jobs
    { torrent := build params [], disk } := by
  refine ⟨⟨trivial, trivial⟩, ⟨trivial, ?_, ?_⟩, ⟨?_, trivial⟩, ⟨trivial, trivial⟩,
    ⟨?_, ?_, ?_⟩, trivial⟩ <;> decide +kernel

theorem no_orphans_moved :
    let s := (runJobs (provider .next id id) true 0 jobs { torrent := build params [], disk }).2
    ∀ bridge io,
      let r := runJob (provider .next id id) true 0 (.deleteFiles true false)
        { s with disk := s.disk.scripted bridge io }
      r.1 = .deleted none → ∀ p, r.2.disk.world.docs p = none := by
  intro s bridge io r hreport p
  obtain ⟨-, hdelete⟩ := no_orphans ⟨.next, id, id⟩ reachable_params allApart_params
    (coherent_fresh (World.sound_holding _) _) (by simp [World.Willing, World.holding])
    (by simp [World.Smooth, World.holding]) jobs_orderly
  obtain ⟨removals, error, hreport', -, -, -, -, -, -, hgone⟩ := (hdelete bridge io).1 false
  have herror : error = none := Report.deleted.inj (hreport'.symm.trans hreport)
  refine Option.eq_none_iff_forall_ne_some.mpr fun n hp => ?_
  exact absurd ((hgone herror).2 p n hp) (Nat.not_lt_zero n)

end Scattered

end Saf
end Libtorrent4j
