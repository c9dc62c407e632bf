import Libtorrent4j.Saf.Preparing

/-!
# Checking, renaming, deleting

The three operations that are one pass of bridge calls each, on the document provider: a check
readies the wanted files' documents or only looks at their sizes, a rename gives one document
another name, and `async_delete_files` **asks for every document once, whatever the removals
before have answered**.
-/

namespace Libtorrent4j
namespace Saf

open Lib Lib.Exec TorrentStorage

variable (G : Host) {t : TorrentStorage} {storage : Nat} {K : Keys} {d : Disk World}

/-! ## `validate_resume` -/

/-- Validation only looks, and finds nothing wrong where every document has its size. -/
theorem checkResumeFiles_docs (seed exactSize : Bool) (indices : List Nat) (status : Status)
    (d : Disk World) :
    wp (checkResumeFiles G.env t seed exactSize indices status)
      (fun status' d' => d.Quiet d' ∧ (d.world.Willing →
        (∀ i ∈ indices, t.files.padFileAt i = false → (seed = true ∨ t.skipped i = false) →
          ∃ doc, d.tree (t.pathFor i) = some doc ∧ doc.length = t.files.fileSize i) →
        status' = status))
      (fun _ d' => d.Quiet d' ∧ ¬ d.world.Willing) d := by
  induction indices generalizing status d with
  | nil => exact ⟨.refl d, fun _ _ => rfl⟩
  | cons index rest ih =>
    unfold checkResumeFiles
    split
    · refine wp_mono (ih status d) ?_ fun _ _ h => h
      exact fun _ _ h => ⟨h.1, fun hw hall => h.2 hw fun i hi => hall i (List.mem_cons_of_mem _ hi)⟩
    rename_i hlooks
    rw [wp_bind]
    refine callFileSize_spec G _ fun size d₁ hquiet _ _ _ hwilling => ?_
    rw [wp_bind, wp_throwIf]
    refine ⟨fun hfails => ⟨hquiet, fun hw => ?_⟩, fun _ => ?_⟩
    · exact World.sizeAnswer_benign _ (hwilling hw ▸ hfails)
    · refine wp_mono (ih _ d₁) ?_ fun _ _ h =>
        ⟨hquiet.trans h.1, fun hw => h.2 (hquiet.world.willing hw)⟩
      rintro status' d₂ ⟨hquiet₂, hclean⟩
      rw [hquiet.tree] at hclean
      refine ⟨hquiet.trans hquiet₂, fun hw hall => ?_⟩
      -- the sizes of the others do not touch the status, and this one is right
      rw [hclean (hquiet.world.willing hw) fun i hi => hall i (List.mem_cons_of_mem _ hi)]
      obtain ⟨doc, hdoc, hlen⟩ := hall index List.mem_cons_self (by simp_all)
        (by cases seed <;> simp_all)
      have hsize : size = t.files.fileSize index := by
        rw [hwilling hw, hdoc, World.sizeAnswer, hlen]
      subst hsize
      have hfound : (t.files.fileSize index : Int) ≠ -enoent := by
        simp only [enoent]
        omega
      simp [hfound]

/-- Validation is one pass over the files that are looked at. -/
theorem wp_validateResume {resume : Resume} {Q : Status → Disk World → Prop}
    {R : Failure → Disk World → Prop}
    (hpass : ∀ seed exactSize indices,
      wp (checkResumeFiles G.env t seed exactSize indices {}) Q R d) :
    wp (validateResume G.env t resume) Q R d := by
  rw [validateResume]
  split
  · exact hpass _ _ _
  · exact hpass _ _ _

theorem validateResume_quiet (resume : Resume) (d : Disk World) :
    wp (validateResume G.env t resume) (fun _ d' => d.Quiet d') (fun _ d' => d.Quiet d') d :=
  wp_validateResume G fun seed exactSize indices =>
    wp_mono (checkResumeFiles_docs G seed exactSize indices {} d) (fun _ _ h => h.1)
      fun _ _ h => h.1

/-- Resume data that is validated: a seed's, or with piece bits. -/
def Usable : Option Resume → Prop
  | some resume => resume.seedMode = true ∨ 0 < resume.havePieces.length
  | none => False

/-- A check with hard links to make is refused. -/
theorem asyncCheckFiles_links (reuse : Bool) (resume : Option Resume) {links : List Path}
    (hlinks : links ≠ []) :
    asyncCheckFiles G.env reuse t storage resume links d =
      (.error ({ fatalDiskError := true }, { ec := .errno eopnotsupp, operation := .fileHardLink }),
        d) := by
  cases links with
  | nil => exact absurd rfl hlinks
  | cons _ _ => rfl

theorem asyncCheckFiles_fresh (reuse : Bool) {resume : Option Resume} (hresume : ¬ Usable resume) :
    asyncCheckFiles G.env reuse t storage resume [] d =
      initializeFiles G.env reuse t storage d := by
  cases resume with
  | none => rfl
  | some resume =>
    have hbranch : (if resume.seedMode = true ∨ 0 < resume.havePieces.length then
        validateResume G.env t resume else initializeFiles G.env reuse t storage) =
        initializeFiles G.env reuse t storage := if_neg hresume
    exact congrFun hbranch d

theorem asyncCheckFiles_resumed (reuse : Bool) {resume : Resume} (hresume : Usable (some resume)) :
    asyncCheckFiles G.env reuse t storage (some resume) [] d = validateResume G.env t resume d := by
  have hbranch : (if resume.seedMode = true ∨ 0 < resume.havePieces.length then
      validateResume G.env t resume else initializeFiles G.env reuse t storage) =
      validateResume G.env t resume := if_pos hresume
  exact congrFun hbranch d

/-- `async_check_files` readies the public files, or only looks. -/
theorem asyncCheckFiles_spec (reuse : Bool) (h : Coherent K d) (hapart : Apart t)
    (hK : ∀ file path, t.keys storage storage file path → K storage file path)
    (resume : Option Resume) (links : List Path) :
    wp (asyncCheckFiles G.env reuse t storage resume links)
      (fun _ d' => Proceeds K d d' ∧ MadeUp t d.tree d'.tree ∧ (resume = none →
        ∀ i, t.Public i →
          d'.tree (t.pathFor i) = sized (d.tree (t.pathFor i)) (t.files.fileSize i)))
      (fun _ d' => Proceeds K d d' ∧ MadeUp t d.tree d'.tree) d := by
  by_cases hlinks : links = []
  · subst hlinks
    by_cases hresume : Usable resume
    · obtain ⟨resume, rfl⟩ : ∃ resume', resume = some resume' := by
        cases resume with
        | none => exact hresume.elim
        | some resume => exact ⟨resume, rfl⟩
      unfold wp
      rw [asyncCheckFiles_resumed G reuse hresume]
      refine wp_mono (validateResume_quiet G resume d) (fun _ _ hquiet => ?_) fun _ _ hquiet => ?_
      · exact ⟨proceeds_grows h hquiet.toGrows, madeUp_of_eq hquiet.tree, nofun⟩
      · exact ⟨proceeds_grows h hquiet.toGrows, madeUp_of_eq hquiet.tree⟩
    · have hdistinct := hapart.publicApart
      unfold wp
      rw [asyncCheckFiles_fresh G reuse hresume]
      refine wp_mono (initializeFiles_spec G reuse h hdistinct fun i hi =>
        hK _ _ ⟨rfl, Or.inr ⟨i, hi.1, hi.2.1, rfl, rfl⟩⟩) ?_ ?_
      · rintro _ d' ⟨hproceeds, hprepared, -⟩
        exact ⟨hproceeds, hprepared.madeUp, fun _ i hi => hprepared.sized i hi.1 hi⟩
      · rintro _ d' ⟨-, hproceeds, k, hk, -, hstopped⟩
        exact ⟨hproceeds, hstopped.madeUp hdistinct hk⟩
  · unfold wp
    rw [asyncCheckFiles_links G reuse resume hlinks]
    exact ⟨.refl h, madeUp_of_eq rfl⟩

/-! ## `async_rename_file` -/

/-- The document at `old` has got the name `new`, in both views of the provider. -/
structure Renamed (d d' : Disk World) (old new : Path) : Prop where
  found : d.tree old ≠ none
  tree : d'.tree = Function.update (Function.update d.tree old none) new (d.tree old)
  docs : d'.world.docs =
    Function.update (Function.update d.world.docs old none) new (d.world.docs old)

theorem Disk.Relinks.renamed {d₁ d₂ : Disk World} {old new : Path} (h : d₁.Relinks d₂ old new)
    (hstill : d.Still d₁) (hfound : d₁.tree old ≠ none) : Renamed d d₂ old new := by
  obtain ⟨node, hnode, hworld⟩ := h.world
  refine ⟨by rwa [← hstill.tree], by rw [h.tree, hstill.tree], ?_⟩
  rw [← hstill.docs, hnode, hworld]
  rfl

/-- A rename that reports no error has renamed a document; one that reports an error has changed
    nothing. Whether the cache is still coherent depends on who else has an entry for the new
    path, and only if the rename succeeds. -/
theorem asyncRenameFile_spec {s : Sys World} (h : Coherent K s.disk) (index : Int) (name : Path)
    (hold : ∀ i : Nat, index = i → i < s.torrent.numFiles → safeRelativePath name = true →
      ∀ slot file, K slot file (s.torrent.pathFor i) → slot = storage ∧ file = i) :
    wp (asyncRenameFile G.env storage index name)
      (fun _ s' => ∃ i : Nat, index = i ∧ i < s.torrent.numFiles ∧ safeRelativePath name = true ∧
        s'.torrent = s.torrent.renameFile i name (rootedPath s.torrent.saveRoot name) ∧
        ((∀ slot file, K slot file (rootedPath s.torrent.saveRoot name) →
            slot = storage ∧ file = i) →
          Coherent (fun slot file path => K slot file path ∧ ¬ (slot = storage ∧ file = i))
            s'.disk) ∧
        s.disk.Kept s'.disk ∧
        Renamed s.disk s'.disk (s.torrent.pathFor i) (rootedPath s.torrent.saveRoot name))
      (fun _ s' => s'.torrent = s.torrent ∧ Undisturbed K s.disk s'.disk) s := by
  simp only [asyncRenameFile, wp_bind, wp_get, wp_throwIf, wp_onDisk, wp_updateTorrent]
  refine ⟨fun _ => ⟨trivial, .refl h⟩, fun hchecked => ?_⟩
  push Not at hchecked
  obtain ⟨hpos, hlt, hsafe⟩ := hchecked
  obtain ⟨i, rfl⟩ := Int.eq_ofNat_of_zero_le hpos
  have hi : i < s.torrent.numFiles := by omega
  have hsafe' : safeRelativePath name = true := by simpa using hsafe
  refine wp_mono (wp_and (R := fun _ _ => False) (S := fun _ _ => False)
    (closeWhere_still G fun entry => entry.storage == storage && entry.file == (i : Int))
    (closeFile_spec G storage i h)) ?_ fun _ _ h => h.1.elim
  rintro _ d₁ ⟨hstill, hsettled⟩
  -- the descriptor is closed before anything can fail, which nobody can tell
  have hback : Undisturbed K s.disk d₁ := ⟨⟨hsettled.coherent.mono fun _ _ hkey => hkey.1,
    hsettled.kept, hsettled.names⟩, hsettled.tree⟩
  refine wp_mono (ensureParentDirectories_spec G _ i d₁) ?_ ?_
  · rintro _ d₂ ⟨hquiet, -, -⟩
    refine callRename_spec G _ _ ?_ ?_
    · intro d₃ hrelinks _ hfound
      refine ⟨fun hneg => absurd hneg (lt_irrefl 0),
        fun _ => ⟨i, rfl, hi, hsafe', rfl, fun hnew => ?_, ?_, ?_⟩⟩
      · exact (hsettled.coherent.grows hquiet.toGrows).relinks hrelinks
          (fun slot file hkey => hkey.2 (hold i rfl hi hsafe' slot file hkey.1))
          (fun slot file hkey => hkey.2 (hnew slot file hkey.1))
      · exact (hsettled.kept.trans hquiet.kept).trans hrelinks.kept
      · exact hrelinks.renamed (hstill.trans hquiet.still) hfound
    · intro result d₃ hneg hquiet₃ _ _
      refine ⟨fun _ => ⟨trivial, ?_⟩, fun hn => absurd hneg hn⟩
      exact hback.trans (undisturbed_quiet hback.coherent (hquiet.trans hquiet₃))
  · rintro _ d₂ ⟨hquiet, -, -⟩
    exact ⟨trivial, hback.trans (undisturbed_quiet hback.coherent hquiet)⟩

/-! ## `async_delete_files` -/

/-- One call of `remove`: the file it is made for, the path, and the answer. -/
structure Removal where
  file : Int
  path : Path
  result : Int
deriving DecidableEq

namespace Removal

/-- The answer is an error other than that there is no document. -/
def Fails (removal : Removal) : Prop := removal.result < 0 ∧ removal.result ≠ -enoent

instance (removal : Removal) : Decidable removal.Fails := inferInstanceAs (Decidable (_ ∧ _))

def event (removal : Removal) : Event World := .remove removal.path false removal.result

def error (removal : Removal) : Option StorageError := removeError removal.result removal.file

theorem error_eq_none {removal : Removal} : removal.error = none ↔ ¬ removal.Fails := by
  unfold error removeError Fails
  split
  · rename_i hfails
    exact ⟨nofun, fun hok => absurd hfails hok⟩
  · rename_i hok
    exact ⟨fun _ => hok, fun _ => rfl⟩

theorem error_of_fails {removal : Removal} (h : removal.Fails) :
    removal.error = some (makeError removal.result removal.file .fileRemove) := by
  unfold error removeError
  exact if_pos h

end Removal

/-- A document named now was named before, where documents have kept their names and nothing has
    been made. -/
theorem docs_of_names {d d' : Disk World} {p : Path} {n : Nat}
    (hnames : ∀ {n}, d.world.docs p = some n → d'.world.docs p = some n)
    (htree : d'.tree p = d.tree p) (h : d'.world.docs p = some n) : d.world.docs p = some n := by
  cases hdocs : d.world.docs p with
  | some m => exact (hnames hdocs).symm.trans h
  | none =>
    have hnone : d'.tree p = none := by
      rw [htree]
      exact World.content_eq_none.mpr hdocs
    rw [World.content_eq_none.mp hnone] at h
    cases h

theorem Disk.Quiet.docs {d d' : Disk World} (h : d.Quiet d') : d'.world.docs = d.world.docs := by
  funext p
  refine Option.ext fun n => ⟨docs_of_names h.world.docs (congrFun h.tree p), h.world.docs⟩

/-- These removals have been asked for, one after the other; those that did not fail have left
    no document, and no other document has changed. -/
structure Removed (removals : List Removal) (d d' : Disk World) : Prop where
  trace : d'.trace = (removals.map Removal.event).reverse ++ d.trace
  spares : d.Spares (fun p => ∃ removal ∈ removals, p = removal.path) d'
  gone : ∀ removal ∈ removals, ¬ removal.Fails → d'.world.docs removal.path = none
  frame : ∀ p, d'.world.docs p = d.world.docs p ∧ d'.tree p = d.tree p ∨
    d'.world.docs p = none ∧ ∃ removal ∈ removals, p = removal.path

theorem Removed.refl (d : Disk World) : Removed [] d d :=
  ⟨rfl, .refl d, by simp, fun _ => Or.inl ⟨rfl, rfl⟩⟩

theorem Disk.Spares.weaken {S S' : Path → Prop} {d d' : Disk World} (h : d.Spares S d')
    (hS : ∀ p, S p → S' p) : d.Spares S' d' :=
  ⟨h.sound, h.kept, fun hp hnot => h.names hp fun hin => hnot (hS _ hin),
    fun hK hc => h.coherent (fun s f p hkey hin => hK s f p hkey (hS p hin)) hc⟩

theorem Removed.trans {removals more : List Removal} {d d' d'' : Disk World}
    (h : Removed removals d d') (h' : Removed more d' d'') : Removed (removals ++ more) d d'' := by
  refine ⟨?_, ?_, fun removal hin hok => ?_, fun p => ?_⟩
  · rw [h'.trace, h.trace, List.map_append, List.reverse_append, List.append_assoc]
  · refine (h.spares.weaken ?_).trans (h'.spares.weaken ?_)
    · exact fun p ⟨removal, hin, hp⟩ => ⟨removal, List.mem_append_left _ hin, hp⟩
    · exact fun p ⟨removal, hin, hp⟩ => ⟨removal, List.mem_append_right _ hin, hp⟩
  · rcases List.mem_append.mp hin with hin | hin
    · rcases h'.frame removal.path with ⟨hsame, -⟩ | ⟨hnone, -⟩
      · rw [hsame]
        exact h.gone removal hin hok
      · exact hnone
    · exact h'.gone removal hin hok
  · rcases h'.frame p with ⟨hdocs, htree⟩ | ⟨hnone, removal, hin, hp⟩
    · rcases h.frame p with ⟨hdocs', htree'⟩ | ⟨hnone, removal, hin, hp⟩
      · exact Or.inl ⟨hdocs.trans hdocs', htree.trans htree'⟩
      · exact Or.inr ⟨hdocs.trans hnone, removal, List.mem_append_left _ hin, hp⟩
    · exact Or.inr ⟨hnone, removal, List.mem_append_right _ hin, hp⟩

theorem removeLater_spec (path : Path) (file : Int) (d : Disk World) :
    wp (removeLater G.env path file)
      (fun error d' => ∃ result, error = Removal.error ⟨file, path, result⟩ ∧
        Removed [⟨file, path, result⟩] d d')
      (fun _ _ => False) d := by
  rw [removeLater, wp_bind]
  -- the result itself is read off the trace
  have htrace : wp (callRemove G.env path false)
      (fun result d' => d'.trace = .remove path false result :: d.trace)
      (fun (_ : StorageError) _ => False) d := rfl
  refine wp_mono (wp_and htrace (callRemove_spec (R := fun _ _ => True) G path false
    (Q := fun result d' => d.Spares (· = path) d' ∧
      (¬ Removal.Fails ⟨file, path, result⟩ → d'.world.docs path = none) ∧
      ∀ p, d'.world.docs p = d.world.docs p ∧ d'.tree p = d.tree p ∨
        d'.world.docs p = none ∧ p = path) ?_ ?_)) ?_ fun _ _ h => h.1.elim
  · intro d' hunlinks _ _
    have hgone : d'.world.docs path = none := by
      rw [hunlinks.world]
      exact Function.update_self path none d.world.docs
    refine ⟨hunlinks.spares rfl, fun _ => hgone, fun p => ?_⟩
    by_cases hp : p = path
    · exact Or.inr ⟨hp ▸ hgone, hp⟩
    · refine Or.inl ⟨?_, by rw [hunlinks.tree, Function.update_of_ne hp]⟩
      rw [hunlinks.world]
      exact Function.update_of_ne hp none d.world.docs
  · intro result d' hneg hquiet _ hnone _
    refine ⟨hquiet.toGrows.spares, fun hok => ?_,
      fun p => Or.inl ⟨congrFun hquiet.docs p, congrFun hquiet.tree p⟩⟩
    rw [hquiet.docs]
    refine World.content_eq_none.mp (hnone ?_)
    by_contra hne
    exact hok ⟨hneg, hne⟩
  · rintro result d' ⟨heq, hspares, hgone, hframe⟩
    rw [wp_ret]
    refine ⟨result, rfl, heq, hspares.weaken fun p hp => ⟨_, List.mem_singleton_self _, hp⟩,
      fun removal hin hok => ?_, fun p => (hframe p).imp_right fun h => ⟨h.1, _,
        List.mem_singleton_self _, h.2⟩⟩
    obtain rfl := List.mem_singleton.mp hin
    exact hgone hok

/-- **A removal loop goes on whatever fails.** -/
theorem removeEach_spec {ι : Type} (targets : List ι) (path : ι → Path) (file : ι → Int)
    (d : Disk World) :
    wp (mapEach targets fun target => removeLater G.env (path target) (file target))
      (fun errors d' => ∃ removals : List Removal,
        removals.map (fun removal => (removal.file, removal.path)) =
          targets.map (fun target => (file target, path target)) ∧
        errors = removals.map Removal.error ∧ Removed removals d d')
      (fun _ _ => False) d := by
  refine wp_mapEach (fun done errors d' => ∃ removals : List Removal,
    removals.map (fun removal => (removal.file, removal.path)) =
      done.map (fun target => (file target, path target)) ∧
    errors = removals.map Removal.error ∧ Removed removals d d')
    ⟨[], rfl, rfl, .refl d⟩ ?_ fun _ _ h => h
  rintro done errors target rest d₁ - ⟨removals, htargets, rfl, hremoved⟩
  refine wp_mono (removeLater_spec G (path target) (file target) d₁) ?_ fun _ _ h => h
  rintro _ d₂ ⟨result, rfl, hremoved₂⟩
  exact ⟨removals ++ [_], by simp [htargets], by simp, hremoved.trans hremoved₂⟩

end Saf
end Libtorrent4j
