import Libtorrent4j.Saf.Preserving
import Libtorrent4j.Saf.Hashing

/-!
# Which files can be renamed

A rename hands on the provider's answer, so **a file without a document cannot be renamed**: a
skipped file whose bytes are in the part file, or one nothing was written to yet. Where there is
a document the rename does all it should, and the new name lasts: until the file is moved or
deleted, or renamed again, whatever makes a document for it makes it under that name.
-/

namespace Libtorrent4j
namespace Saf

open Lib Lib.Exec TorrentStorage

/-! ## Reachable roots -/

theorem RootOk.step {W : Type} {log : List (Event W)} {t t' : TorrentStorage} {job : Job}
    {report : Report} (h : RootOk t.saveRoot) (hstep : Step log t job report t') :
    RootOk t'.saveRoot := by
  cases hstep with
  | renamed hlt hsafe => exact h
  | moved hsafe haccepted hvalid =>
    rw [setSaveRoot_saveRoot, normalizedSaveRoot_idem]
    exact rootOk_normalized hsafe
  | notRenamed error => exact h
  | notMoved error => exact h
  | prioritised hsame =>
    rw [hsame.saveRoot]
    exact h
  | other _ _ _ _ => exact h

theorem TorrentStorage.Reachable.rootOk {t : TorrentStorage} (h : t.Reachable) :
    RootOk t.saveRoot := by
  obtain ⟨W, E, params, w₀, w₁, t₀, storage, disk, jobs, hnew, rfl⟩ := h
  refine runJobs_induct E true storage (I := fun s => RootOk s.torrent.saveRoot)
    (fun job _ s hs => hs.step (runJob_step E true storage job s)) ?_
  obtain ⟨rfl, hroot⟩ := TorrentStorage.new_ok hnew
  exact hroot

variable (G : Host) {storage : Nat} {s : Sys World} {i : Nat}

/-! ## The rename -/

/-- On a willing bridge only a missing document keeps a rename from succeeding. -/
theorem asyncRenameFile_willing (hwilling : s.disk.world.Willing) (hi : i < s.torrent.numFiles)
    {name : Path} (hsafe : safeRelativePath name = true) (hroot : RootOk s.torrent.saveRoot)
    (hdoc : s.disk.tree (s.torrent.pathFor i) ≠ none) :
    wp (asyncRenameFile G.env storage i name) (fun _ _ => True) (fun _ _ => False) s := by
  simp only [asyncRenameFile, wp_bind, wp_get, wp_throwIf, wp_onDisk, wp_updateTorrent]
  refine ⟨fun hrefused => ?_, fun _ => ?_⟩
  · rcases hrefused with hneg | hge | hunsafe
    · omega
    · omega
    · rw [hsafe] at hunsafe
      cases hunsafe
  refine wp_mono
    (closeWhere_still G fun entry => entry.storage == storage && entry.file == (i : Int)) ?_
      fun _ _ h => h
  intro _ d₁ hstill
  refine wp_mono (ensureParentDirectories_spec G _ i d₁) ?_ ?_
  · rintro _ d₂ ⟨hquiet, -, -⟩
    refine callRename_spec G _ _ (fun _ _ _ _ => ⟨fun hneg => absurd hneg (lt_irrefl 0),
      fun _ => trivial⟩) fun result d₃ hneg _ _ hmissing => ?_
    obtain ⟨hnone, -⟩ := hmissing (hquiet.world.willing (hstill.kept.willing hwilling))
    refine absurd ?_ hdoc
    rw [← hstill.tree, ← hquiet.tree]
    exact hnone
  · rintro _ d₂ ⟨-, -, hrefused⟩
    have hunsafe := (hrefused (hstill.kept.willing hwilling)).1
    rw [(safe_rootedPath hroot).mpr hsafe] at hunsafe
    cases hunsafe

/-! ## Later -/

/-- The rest of the run leaves the file where it is, and its document too. -/
def Lasting (i : Nat) (t : TorrentStorage) : Job → Prop
  | .read request => request.InRange t.files
  | .write request input => request.InRange t.files ∧ input.length = request.length
  | .hash piece v1 room => Request.InRange t.files
      { piece, start := 0,
        length := max (if v1 then t.files.pieceSize piece else 0)
          (if 0 < room then t.files.pieceSize2 piece else 0) }
  | .hash2 piece offset => Request.InRange t.files
      { piece, start := offset, length := min defaultBlockSize (t.files.pieceSize2 piece - offset) }
  | .renameFile index name => index ≠ i ∧ KeepsDocuments t (.renameFile index name) ∧
      rootedPath t.saveRoot name ≠ t.pathFor i
  | .releaseFiles | .stopTorrent | .checkFiles _ _ | .setFilePriority _ | .clearPiece _ => True
  | .moveStorage _ _ | .deleteFiles _ _ => False

/-- The job stores a byte of the wanted file `i`, or makes the skipped file `i` wanted. -/
def Fills (i : Nat) (t : TorrentStorage) : Job → Prop
  | .write request input => request.InRange t.files ∧ input.length = request.length ∧
      t.files.padFileAt i = false ∧ t.skipped i = false ∧
      ∃ k < request.length, ∃ offset, LiesAt t.files.entries (request.pos t.files + k) i offset
  | .setFilePriority priorities =>
      t.skipped i = true ∧ skips (resizePriorities priorities t.numFiles) i = false
  | _ => False

/-- The report of a write or of a priority change, without an error. -/
def Report.Succeeded : Report → Prop
  | .written error => error = none
  | .prioritised error _ => error = none
  | _ => False

/-- File `i` is at `path`, alone; if nothing ever makes a document for it, it has one. -/
structure Named (storage i : Nat) (path : Path) (s : Sys World) : Prop where
  owned : Owned storage s
  lt : i < s.torrent.numFiles
  here : s.torrent.pathFor i = path
  alone : s.torrent.FreeFor i path
  exempt : s.torrent.files.padFileAt i = true ∨ s.torrent.files.fileSize i = 0 →
    s.disk.tree path ≠ none

theorem Proceeds.found {K : Keys} {d d' : Disk World} (h : Proceeds K d d') {path : Path}
    (hdoc : d.tree path ≠ none) : d'.tree path ≠ none := by
  cases hdocs : d.world.docs path with
  | none => exact absurd (World.content_eq_none.mpr hdocs) hdoc
  | some n =>
    intro hnone
    rw [Disk.tree, World.content_eq_none, h.names hdocs] at hnone
    cases hnone

section Hashing

variable {K : Keys} {d : Disk World} {t : TorrentStorage}

/-- Hashing only reads. -/
theorem hashJob_undisturbed (h : Coherent K d)
    (hK : ∀ file path, t.keys storage storage file path → K storage file path) {piece room : Nat}
    {v1 : Bool} (hjob : Lasting i t (.hash piece v1 room)) :
    let r := runJob G.env true storage (.hash piece v1 room) { torrent := t, disk := d }
    r.2.torrent = t ∧ Undisturbed K d r.2.disk := by
  refine ⟨rfl, wp_state.mp (?_ : wp (asyncHash G.env true t storage piece v1 room)
    (fun _ d' => Undisturbed K d d') (fun _ d' => Undisturbed K d d') d)⟩
  rw [asyncHash]
  simp only [decide_eq_true_eq, wp_bind]
  refine wp_mono (readForHash_spec G true h hK hjob) ?_ fun _ _ hund => hund
  rintro out d' ⟨hund, -, -⟩
  rw [wp_throwIf]
  exact ⟨fun _ => hund, fun _ => hund⟩

theorem hash2Job_undisturbed (h : Coherent K d)
    (hK : ∀ file path, t.keys storage storage file path → K storage file path) {piece offset : Nat}
    (hjob : Lasting i t (.hash2 piece offset)) :
    let r := runJob G.env true storage (.hash2 piece offset) { torrent := t, disk := d }
    r.2.torrent = t ∧ Undisturbed K d r.2.disk := by
  refine ⟨rfl, wp_state.mp (?_ : wp (asyncHash2 G.env true t storage piece offset)
    (fun _ d' => Undisturbed K d d') (fun _ d' => Undisturbed K d d') d)⟩
  have hin : Request.InRange t.files
    { piece, start := offset,
      length := min defaultBlockSize (t.files.pieceSize2 piece - offset) } :=
    hjob
  rw [asyncHash2, wp_bind, wp_throwIf]
  refine ⟨fun _ => .refl h, fun _ => ?_⟩
  rw [wp_bind, wp_mapError]
  refine wp_mono (readSlices_spec G true h hK hin.covers []) ?_ ?_
  · rintro out d' ⟨hund, -⟩
    exact hund
  · rintro e d' ⟨hund, -, -⟩
    exact hund

end Hashing

namespace Named

variable {path : Path}

/-- A job that leaves the torrent as it is and takes no document its name. -/
theorem still {s' : Sys World} (h : Named storage i path s) (howned : Owned storage s')
    (htorrent : s'.torrent = s.torrent)
    (hfound : s.disk.tree path ≠ none → s'.disk.tree path ≠ none) : Named storage i path s' := by
  refine ⟨howned, ?_, ?_, ?_, ?_⟩
  · rw [htorrent]
    exact h.lt
  · rw [htorrent]
    exact h.here
  · rw [htorrent]
    exact h.alone
  · rw [htorrent]
    exact fun hexempt => hfound (h.exempt hexempt)

theorem prioritise (h : Named storage i path s) (priorities : List Priority) :
    Named storage i path (runJob G.env true storage (.setFilePriority priorities) s).2 := by
  have hother : ∀ k < s.torrent.numFiles, s.torrent.Turns
      (resizePriorities priorities s.torrent.numFiles) k →
      s.torrent.files.padFileAt i = true ∨ s.torrent.files.fileSize i = 0 →
        path ≠ s.torrent.pathFor k := by
    -- at this path it could only be the renamed file, which has no bytes and is never migrated
    rintro k hk ht hexempt heq
    obtain rfl : k = i := by
      by_contra hki
      exact h.alone.2 k hk hki heq
    rcases hexempt with hpad | hsize
    · rw [ht.1] at hpad
      cases hpad
    · exact ht.2.1 hsize
  have hpart := h.alone.1
  obtain ⟨howned, -, hcases⟩ := h.owned.prioritise G priorities rfl
    (fun _ tree => s.torrent.files.padFileAt i = true ∨ s.torrent.files.fileSize i = 0 →
      tree path ≠ none) h.exempt (fun _ _ _ hI _ => hI) fun k hk tree tree' hI ht hm hexempt => by
        rw [hm.other (hother k hk ht hexempt) hpart]
        exact hI hexempt
  have hnamed : ∀ {s' : Sys World}, Owned storage s' → SamePaths s.torrent s'.torrent →
      (s.torrent.files.padFileAt i = true ∨ s.torrent.files.fileSize i = 0 →
        s'.disk.tree path ≠ none) → Named storage i path s' := by
    intro s' howned hsame hfound
    refine ⟨howned, by rw [hsame.numFiles]; exact h.lt, by rw [hsame.pathFor]; exact h.here,
      h.alone.same hsame, ?_⟩
    rw [hsame.files]
    exact hfound
  rcases hcases with ⟨-, hdone, tree, hI, htree⟩ |
    ⟨-, ⟨k, hk, hcommitted, ht, tree, hI, hunharmed⟩ | ⟨hcommitted, hI⟩⟩
  · refine hnamed howned hdone.same fun hexempt => ?_
    rw [htree, withoutPart_of_ne hpart]
    exact hI hexempt
  · refine hnamed howned hcommitted.same fun hexempt => ?_
    rw [hunharmed.other (hother k hk ht hexempt) hpart]
    exact hI hexempt
  · exact hnamed howned hcommitted.same hI

theorem step (h : Named storage i path s) {job : Job} (hjob : Lasting i s.torrent job) :
    Named storage i path (runJob G.env true storage job s).2 := by
  have hsame : ∀ {s' : Sys World}, Owned storage s' → s'.torrent = s.torrent →
      Proceeds (s.torrent.keys storage) s.disk s'.disk → Named storage i path s' :=
    fun howned htorrent hproceeds => h.still howned htorrent hproceeds.found
  cases job with
  | read request =>
    obtain ⟨howned, htorrent, hundisturbed⟩ := h.owned.read G hjob
    exact hsame howned htorrent hundisturbed.toProceeds
  | write request input =>
    obtain ⟨howned, htorrent, hproceeds, -⟩ := h.owned.write G hjob.1 hjob.2
    exact hsame howned htorrent hproceeds
  | hash piece v1 room =>
    obtain ⟨htorrent, hundisturbed⟩ := hashJob_undisturbed G h.owned.coherent
      (fun _ _ hkey => hkey) hjob
    exact hsame (h.owned.still htorrent hundisturbed.coherent) htorrent hundisturbed.toProceeds
  | hash2 piece offset =>
    obtain ⟨htorrent, hundisturbed⟩ := hash2Job_undisturbed G h.owned.coherent
      (fun _ _ hkey => hkey) hjob
    exact hsame (h.owned.still htorrent hundisturbed.coherent) htorrent hundisturbed.toProceeds
  | releaseFiles =>
    obtain ⟨howned, htorrent, hundisturbed⟩ := h.owned.release G (Or.inl rfl)
    exact hsame howned htorrent hundisturbed.toProceeds
  | stopTorrent =>
    obtain ⟨howned, htorrent, hundisturbed⟩ := h.owned.release G (Or.inr rfl)
    exact hsame howned htorrent hundisturbed.toProceeds
  | checkFiles resume links =>
    obtain ⟨howned, htorrent, hproceeds, -⟩ := h.owned.check G resume links
    exact hsame howned htorrent hproceeds
  | clearPiece piece => exact h
  | setFilePriority priorities => exact h.prioritise G priorities
  | renameFile index name =>
    obtain ⟨hne, hkeeps, hother⟩ := hjob
    obtain ⟨howned, -, ⟨j, rfl, hj, hsafe, -, htorrent, hrenamed⟩ |
      ⟨-, htorrent, hundisturbed⟩⟩ := h.owned.rename G hkeeps
    · have hij : i ≠ j := fun heq => hne (congrArg Nat.cast heq.symm)
      rw [h.here] at hother
      refine ⟨howned, ?_, ?_, ?_, ?_⟩
      · rw [htorrent]
        exact h.lt
      · rw [htorrent, s.torrent.renameFile_pathFor _ _ _ h.lt, if_neg hij]
        exact h.here
      · rw [htorrent]
        refine ⟨h.alone.1, fun k hk hki => ?_⟩
        rw [s.torrent.renameFile_pathFor _ _ _ hk]
        split
        · exact hother.symm
        · exact h.alone.2 k hk hki
      · rw [htorrent]
        intro hexempt
        -- neither the old path nor the new one of the other file is this one
        rw [hrenamed.tree, Function.update_of_ne hother.symm,
          Function.update_of_ne (h.alone.2 j hj (Ne.symm hij))]
        exact h.exempt hexempt
    · exact hsame howned htorrent hundisturbed.toProceeds
  | moveStorage path flags => exact hjob.elim
  | deleteFiles files part => exact hjob.elim

theorem run (h : Named storage i path s) {jobs : List Job}
    (hjobs : EveryStep G.env true storage (Lasting i) jobs s) :
    Named storage i path (runJobs G.env true storage jobs s).2 :=
  runJobs_induct_every G.env true storage (fun _ _ hjob hs => hs.step G hjob) hjobs h

/-- A write that stores a byte of the file leaves a document under its name. -/
theorem write_fills (h : Named storage i path s) {request : Request} {input : List Byte}
    (hjob : Fills i s.torrent (.write request input))
    (hreport : (runJob G.env true storage (.write request input) s).1 = .written none) :
    (runJob G.env true storage (.write request input) s).2.disk.tree path ≠ none := by
  obtain ⟨hrange, hinput, hpad, hwanted, k, hk, offset, hlies⟩ := hjob
  obtain ⟨-, -, -, hstored⟩ := writeJob_spec G true h.owned.coherent h.owned.apart
    (fun _ _ hkey => hkey) hrange hinput
  have hbyte := (hstored hreport).inside k (hinput ▸ hk)
  rw [isPad_of_liesAt hlies, hpad, if_neg Bool.false_ne_true, byteAt_eq_keptAt hlies hpad, hwanted,
    List.getElem?_eq_getElem (hinput ▸ hk)] at hbyte
  obtain ⟨-, doc, hdoc, -⟩ := keptAt_file.mp hbyte
  rw [h.here] at hdoc
  exact fun hnone => Option.some_ne_none doc (hdoc.symm.trans hnone)

/-- Out of the part file a file comes under its name. -/
theorem unskip_fills (h : Named storage i path s) {priorities : List Priority}
    (hjob : Fills i s.torrent (.setFilePriority priorities))
    (hreport : (runJob G.env true storage (.setFilePriority priorities) s).1.Succeeded) :
    (runJob G.env true storage (.setFilePriority priorities) s).2.disk.tree path ≠ none := by
  obtain ⟨hskipped, hwanted⟩ := hjob
  have hnamed := h.prioritise G priorities
  by_cases hexempt : s.torrent.files.padFileAt i = true ∨ s.torrent.files.fileSize i = 0
  · refine hnamed.exempt ?_
    have hsame := asyncSetFilePriority_torrent G.env storage priorities s
    exact hsame.files ▸ hexempt
  push Not at hexempt
  have hturns : s.torrent.Turns (resizePriorities priorities s.torrent.numFiles) i := by
    refine ⟨by simpa using hexempt.1, hexempt.2, ?_⟩
    rw [hskipped, hwanted]
    decide
  have hpart := h.alone.1
  -- once the loop is past file `i` there is a document
  have hstays : ∀ k < s.torrent.numFiles, ∀ tree : Tree, (i < k → tree path ≠ none) →
      ¬ s.torrent.Turns (resizePriorities priorities s.torrent.numFiles) k →
      i < k + 1 → tree path ≠ none := by
    intro k _ tree hI hnot hlt
    have hne : i ≠ k := by
      rintro rfl
      exact hnot hturns
    exact hI (by omega)
  have hmigrates : ∀ k < s.torrent.numFiles, ∀ tree tree' : Tree, (i < k → tree path ≠ none) →
      s.torrent.Turns (resizePriorities priorities s.torrent.numFiles) k →
      s.torrent.HasMigrated k
        (skips (resizePriorities priorities s.torrent.numFiles) k) tree tree' →
      i < k + 1 → tree' path ≠ none := by
    intro k hk tree tree' hI _ hm hlt
    by_cases hik : i = k
    · subst hik
      obtain ⟨-, bytes, -, -, rfl⟩ := hm
      rw [migratedTree, hwanted, if_neg Bool.false_ne_true, h.here, Function.update_self]
      exact Option.some_ne_none _
    · rw [hm.other (h.alone.2 k hk (Ne.symm hik)) hpart]
      exact hI (by omega)
  obtain ⟨-, -, ⟨-, -, tree, hI, htree⟩ | ⟨⟨error, hfailed⟩, -⟩⟩ :=
    h.owned.prioritise G priorities rfl (fun k tree => i < k → tree path ≠ none)
      (fun hneg => absurd hneg (Nat.not_lt_zero i)) hstays hmigrates
  · rw [htree, withoutPart_of_ne hpart]
    exact hI h.lt
  · rw [hfailed] at hreport
    cases hreport

/-- A job that fills the file and succeeds leaves a document under its name. -/
theorem fills (h : Named storage i path s) {job : Job} (hjob : Fills i s.torrent job)
    (hreport : (runJob G.env true storage job s).1.Succeeded) :
    (runJob G.env true storage job s).2.disk.tree path ≠ none := by
  cases job with
  | write request input => exact h.write_fills G hjob (congrArg Report.written hreport)
  | setFilePriority priorities => exact h.unskip_fills G hjob hreport
  | _ => exact hjob.elim

end Named

/-! ## Every file can be renamed, or not -/

/-- What a rename should do. -/
structure Renames (G : Host) (storage i : Nat) (name : Path) (s : Sys World)
    (r : Report × Sys World) : Prop where
  report : r.1 = .renamed name i none
  logicalPath : r.2.torrent.logicalPath i = name
  path : r.2.torrent.pathFor i = rootedPath s.torrent.saveRoot name
  others : ∀ j < s.torrent.numFiles, j ≠ i →
    r.2.torrent.pathFor j = s.torrent.pathFor j ∧
      r.2.torrent.logicalPath j = s.torrent.logicalPath j
  bytes : ∀ q b bridge io, Reads G storage bridge io s.torrent s.disk q b →
    Reads G storage [] [] r.2.torrent r.2.disk q b
  later : ∀ jobs job, EveryStep G.env true storage (Lasting i) jobs r.2 →
    let s' := (runJobs G.env true storage jobs r.2).2
    let r' := runJob G.env true storage job s'
    s'.torrent.pathFor i = rootedPath s.torrent.saveRoot name ∧
      (Fills i s'.torrent job → r'.1.Succeeded →
        r'.2.disk.tree (rootedPath s.torrent.saveRoot name) ≠ none)

/-- **Which files can be renamed**: those that have a document. -/
theorem renames_iff {t : TorrentStorage} (hreach : t.Reachable) (hapart : Apart t)
    {d : Disk World} (hc : Coherent (t.keys storage) d) (hwilling : d.world.Willing)
    (hi : i < t.numFiles) (hspare : t.SpareFor i (t.pathFor i)) {name : Path}
    (hsafe : safeRelativePath name = true) (hfree : t.FreeFor i (rootedPath t.saveRoot name)) :
    let s : Sys World := { torrent := t, disk := d }
    Renames G storage i name s (runJob G.env true storage (.renameFile i name) s) ↔
      d.tree (t.pathFor i) ≠ none := by
  intro s
  have howned : Owned storage s := ⟨hapart, fun i hi => hreach.rooted hi, hc⟩
  have hkeeps : KeepsDocuments s.torrent (.renameFile i name) := by
    intro j hj hindex _
    obtain rfl : i = j := Int.ofNat.inj hindex
    exact ⟨hspare, hfree.spare⟩
  obtain ⟨howned', -, hcases⟩ := howned.rename G hkeeps
  have hpreserved := howned.rename_preserves G hkeeps
  constructor
  · intro hrenames
    -- a rename without an error has found a document
    rcases hcases with ⟨j, hindex, -, -, -, -, hrenamed⟩ | ⟨⟨error, hreport⟩, -, -⟩
    · obtain rfl : i = j := Int.ofNat.inj hindex
      exact hrenamed.found
    · rw [hrenames.report] at hreport
      cases hreport
  · intro hdoc
    have hok : wp (asyncRenameFile G.env storage i name) _ _ s :=
      asyncRenameFile_willing G hwilling hi hsafe hreach.rootOk hdoc
    rcases hcases with ⟨j, hindex, -, -, hreport, htorrent, hrenamed⟩ | ⟨⟨error, hreport⟩, -, -⟩
    · obtain rfl : i = j := Int.ofNat.inj hindex
      have hpath : (runJob G.env true storage (.renameFile i name) s).2.torrent.pathFor i =
          rootedPath t.saveRoot name := by
        rw [htorrent, s.torrent.renameFile_pathFor _ _ _ hi, if_pos rfl]
      refine ⟨hreport, ?_, hpath, fun j hj hne => ?_, fun q b bridge io hread => ?_,
        fun jobs job hjobs => ?_⟩
      · rw [htorrent, s.torrent.renameFile_logicalPath _ _ _ hi, if_pos rfl]
      · rw [htorrent, s.torrent.renameFile_pathFor _ _ _ hj, if_neg hne,
          s.torrent.renameFile_logicalPath _ _ _ hj, if_neg hne]
        exact ⟨rfl, rfl⟩
      · have hbyte := hpreserved q b (hread.byteAt hc fun _ _ hkey => hkey)
        exact reads_of_byteAt hbyte howned'.coherent fun _ _ hkey => hkey
      · have hnamed : Named storage i (rootedPath t.saveRoot name)
            (runJob G.env true storage (.renameFile i name) s).2 := by
          refine ⟨howned', ?_, hpath, ?_, fun _ => ?_⟩
          · rw [htorrent]
            exact hi
          · rw [htorrent]
            refine ⟨hfree.1, fun j hj hji => ?_⟩
            rw [s.torrent.renameFile_pathFor _ _ _ hj, if_neg hji]
            exact hfree.2 j hj hji
          · rw [hrenamed.tree, Function.update_self]
            exact hdoc
        have hlater := hnamed.run G hjobs
        exact ⟨hlater.here, hlater.fills G⟩
    · rcases hrun : asyncRenameFile G.env storage i name s with ⟨error' | _, s'⟩
      · exact (wp_error hok hrun).elim
      · simp only [runJob, hrun, unitError] at hreport
        cases hreport

namespace Restart

/-- The stored file can be renamed. -/
theorem renames_stored :
    Renames ⟨.next, id, id⟩ 0 0 (str "c") { torrent := build params [], disk := { world } }
      (runJob (Host.env ⟨.next, id, id⟩) true 0 (.renameFile 0 (str "c"))
        { torrent := build params [], disk := { world } }) :=
  (renames_iff ⟨.next, id, id⟩ reachable_params allApart_params.apart
    (coherent_fresh (World.sound_holding _) _) (by simp [World.Willing, World.holding])
    (by decide) (allApart_params.spare (by decide)) (by decide +kernel)
    (by decide +kernel)).mpr (by decide +kernel)

end Restart

namespace Sparse

/-- All bytes of the skipped file go to the part file. -/
def inPartFile : Sys World :=
  (runJobs (Host.env ⟨.next, id, id⟩) true 0
    [.write { piece := 0, start := 0, length := 4 } [1, 2, 3, 4]]
    { torrent := build params [], disk := { world } }).2

/-- Nothing fails, and the file cannot be renamed. -/
theorem skipped_file_not_renamed :
    TorrentStorage.new (provider .next id id) params world = (.ok (build params []), world) ∧
    inPartFile.disk.world.Willing ∧ inPartFile.torrent.FreeFor 0 (str "b") ∧
    inPartFile.disk.tree (str "b") = none ∧
    (runJob (Host.env ⟨.next, id, id⟩) true 0 (.renameFile 0 (str "b")) inPartFile).1 =
      .renamed (str "b") 0 (some (makeError (-enoent) 0 .fileRename)) ∧
    ¬ Renames ⟨.next, id, id⟩ 0 0 (str "b") inPartFile
      (runJob (Host.env ⟨.next, id, id⟩) true 0 (.renameFile 0 (str "b")) inPartFile) := by
  have hreport : (runJob (Host.env ⟨.next, id, id⟩) true 0 (.renameFile 0 (str "b")) inPartFile).1 =
      .renamed (str "b") 0 (some (makeError (-enoent) 0 .fileRename)) := by decide +kernel
  have hbridge : inPartFile.disk.world.bridge = [] := by decide +kernel
  refine ⟨rfl, ?_, by decide +kernel, by decide +kernel, hreport, fun hrenames => ?_⟩
  · intro fault hfault
    rw [hbridge] at hfault
    cases hfault
  · have hcontrary := hreport.symm.trans hrenames.report
    simp at hcontrary

end Sparse

end Saf
end Libtorrent4j
