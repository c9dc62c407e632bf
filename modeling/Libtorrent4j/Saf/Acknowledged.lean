import Libtorrent4j.Lib.Memory
import Libtorrent4j.Saf.Tenancy

/-!
# Nothing acknowledged is lost

A client of the backend sees jobs and their reports, no documents. What it may conclude from
them is a `Memory` of the torrent's bytes: a write without an error stores its input, a read
shows what it delivers, a write with an error makes its range doubtful, and some moves and the
deletions make it forget. `TorrentStorage.learn` is that conclusion, job by job.

**The client is never wrong.** Whatever fails in a run, what it has concluded is in the byte
array (`Knows.run`), so every later answer of the storage agrees with it.
-/

namespace Libtorrent4j
namespace Saf

open Lib Lib.Exec TorrentStorage

/-! ## What a client concludes -/

/-- The position belongs to a file that is skipped now. -/
def TorrentStorage.skippedAt (t : TorrentStorage) (q : Nat) : Bool :=
  (locate t.files.entries q).any fun at' => t.skipped at'.1

namespace TorrentStorage

variable (t : TorrentStorage)

/-- The positions whose bytes a job may have taken away. Pad files are never stored. -/
def loses : Job → Report → Nat → Bool
  | .moveStorage _ flags, .moved status _ none, q =>
      (flags.isReset || status.needFullCheck) && !t.files.isPad q && !t.skippedAt q
  | .deleteFiles deleteFiles deletePartfile, _, q =>
      !t.files.isPad q && (deleteFiles || (deletePartfile && t.skippedAt q))
  | _, _, _ => false

/-- What is known after a job and its report. -/
def learn (known : Memory Byte) (job : Job) (report : Report) : Memory Byte :=
  match job, report with
  | .read request, .read out _ => known.store (request.pos t.files) out
  | .write request input, .written none =>
      known.store (request.pos t.files) (t.files.masked (request.pos t.files) input)
  | .write request input, .written (some _) =>
      known.doubt (request.pos t.files) (t.files.masked (request.pos t.files) input)
  | job, report => known.forget (t.loses job report)

end TorrentStorage

/-- What is known after a run of which `known` was known before. -/
def remember {W : Type} (E : Env W) (storage : Nat) : List Job → Sys W → Memory Byte → Memory Byte
  | [], _, known => known
  | job :: rest, s, known =>
      let r := runJob E true storage job s
      remember E storage rest r.2 (s.torrent.learn known job r.1)

/-! ## Where a position is kept -/

section Position

variable {s s' : Sys World} {q i offset : Nat}

theorem skippedAt_of_liesAt {t : TorrentStorage} (h : LiesAt t.files.entries q i offset) :
    t.skippedAt q = t.skipped i := by
  simp [TorrentStorage.skippedAt, locate_eq_some_iff.mpr h]

/-- A byte of a position keeps its place if its file's home does. -/
theorem byteAt_home_kept (hfiles : s'.torrent.files = s.torrent.files)
    (hskipped : ∀ i, s'.torrent.skipped i = s.torrent.skipped i)
    (hkept : s.torrent.files.isPad q = false →
      ∀ i offset, LiesAt s.torrent.files.entries q i offset →
      ∀ b, s.torrent.keptAt s.disk.tree (s.torrent.skipped i) i offset = some b →
        s'.torrent.keptAt s'.disk.tree (s.torrent.skipped i) i offset = some b) {b : Byte}
    (hb : s.torrent.byteAt s.disk.tree q = some b) : s'.torrent.byteAt s'.disk.tree q = some b := by
  cases hat : locate s.torrent.files.entries q with
  | none =>
    rw [TorrentStorage.byteAt, hat] at hb
    cases hb
  | some place =>
    obtain ⟨i, offset⟩ := place
    have hlies := locate_eq_some_iff.mp hat
    have hlies' : LiesAt s'.torrent.files.entries q i offset := hfiles ▸ hlies
    cases hpad : s.torrent.files.padFileAt i with
    | true =>
      rw [byteAt_pad hlies hpad] at hb
      rw [byteAt_pad hlies' (hfiles ▸ hpad), hb]
    | false =>
      rw [byteAt_eq_keptAt hlies hpad] at hb
      rw [byteAt_eq_keptAt hlies' (hfiles ▸ hpad), hskipped]
      exact hkept (by rw [isPad_of_liesAt hlies, hpad]) i offset hlies b hb

/-- The array is kept in the documents at the paths used. -/
theorem byteAt_frame {t : TorrentStorage} {tree tree' : Tree}
    (h : ∀ path ∈ t.usedPaths, tree' path = tree path) : t.byteAt tree' = t.byteAt tree := by
  funext q
  unfold TorrentStorage.byteAt
  split
  · rfl
  · split
    · rfl
    · split
      · rename_i hsafe
        rw [h _ (homePath_mem hsafe)]
      · rfl

end Position

theorem readReport_eq (request : Request)
    (outcome : Except (List Byte × StorageError) (List Byte)) :
    ∃ out error, readReport request outcome = .read out error := by
  cases outcome with
  | error stopped => exact ⟨stopped.1, some stopped.2, rfl⟩
  | ok out =>
    by_cases hshort : out.length ≠ request.length
    · exact ⟨_, _, if_pos hshort⟩
    · exact ⟨_, _, if_neg hshort⟩

/-! ## The client is never wrong -/

/-- What is known of the storage is in its array. -/
structure Knows (K : Keys) (storage : Nat) (known : Memory Byte) (s : Sys World) : Prop
    extends Tenancy K storage s where
  below : known.Below (s.torrent.byteAt s.disk.tree)

namespace Knows

variable (G : Host) {K : Keys} {storage : Nat} {known : Memory Byte} {s : Sys World}

/-- What is not lost, after a job that preserves the rest. -/
theorem forgets (h : Knows K storage known s) {s' : Sys World} {p : Nat → Bool}
    (hkeep : ∀ q b, p q = false → s.torrent.byteAt s.disk.tree q = some b →
      s'.torrent.byteAt s'.disk.tree q = some b) :
    (known.forget p).Below (s'.torrent.byteAt s'.disk.tree) :=
  h.below.forget hkeep

theorem preserves (h : Knows K storage known s) {s' : Sys World} (hpreserved : Preserved s s')
    (p : Nat → Bool) : (known.forget p).Below (s'.torrent.byteAt s'.disk.tree) :=
  h.forgets fun q b _ hb => hpreserved q b hb

theorem read (h : Knows K storage known s) {request : Request}
    (hrange : request.InRange s.torrent.files) :
    let r := runJob G.env true storage (.read request) s
    (s.torrent.learn known (.read request) r.1).Below (r.2.torrent.byteAt r.2.disk.tree) := by
  intro r
  obtain ⟨htorrent, hundisturbed, hdelivers, -⟩ :=
    readJob_spec G true h.coherent h.keys hrange
  obtain ⟨out, error, hreport⟩ : ∃ out error, r.1 = .read out error := readReport_eq _ _
  obtain ⟨-, hholds, -⟩ := hdelivers out error hreport
  have htree : r.2.disk.tree = s.disk.tree := hundisturbed.tree
  rw [hreport, show r.2.torrent = s.torrent from htorrent, htree]
  exact h.below.learn hholds

theorem write (h : Knows K storage known s) {request : Request}
    (hrange : request.InRange s.torrent.files) {input : List Byte}
    (hinput : input.length = request.length) :
    let r := runJob G.env true storage (.write request input) s
    (s.torrent.learn known (.write request input) r.1).Below
      (r.2.torrent.byteAt r.2.disk.tree) := by
  intro r
  obtain ⟨n, -, hstored, hwhole⟩ := writeJob_torn G true h.coherent h.apart.apart h.keys
    hrange hinput
  have hwrites := hstored.overwrites
  rw [masked_take] at hwrites
  cases hreport :
    unitError (onDisk (writeBlock G.env true s.torrent storage request input) s).1 with
  | none =>
    have hr : r.1 = .written none := congrArg _ hreport
    rw [hwhole hr, ← length_masked s.torrent.files (request.pos s.torrent.files) input,
      List.take_length] at hwrites
    rw [hr]
    exact h.below.store hwrites
  | some error =>
    have hr : r.1 = .written (some error) := congrArg _ hreport
    rw [hr]
    exact h.below.doubt hwrites

/-- A move keeps what is in the part file, and everything else too unless it was a reset or
    reports that a check is needed. -/
theorem move (h : Knows K storage known s) {path : Path} {flags : MoveFlags}
    (hpart : ∀ i < s.torrent.numFiles,
      s.torrent.destination (normalizedSaveRoot path) i ≠ s.torrent.partPath) :
    let r := runJob G.env true storage (.moveStorage path flags) s
    (s.torrent.learn known (.moveStorage path flags) r.1).Below
      (r.2.torrent.byteAt r.2.disk.tree) := by
  intro r
  rcases h.toTenancy.move G path flags with ⟨status, hreport, htorrent, hsafe, hallowed, hmoved⟩ |
    ⟨⟨status, error, hreport⟩, htorrent, hnot⟩
  · have hr : r.1 = .moved status path none := hreport
    have htorrent' : r.2.torrent = s.torrent.setSaveRoot (normalizedSaveRoot path) := htorrent
    rw [hr]
    refine h.forgets fun q b hlost hb => ?_
    refine byteAt_home_kept (by rw [htorrent', setSaveRoot_files])
      (fun _ => by rw [htorrent', setSaveRoot_skipped]) (fun hpad i offset hlies b hb => ?_) hb
    rw [htorrent']
    cases hskipped : s.torrent.skipped i with
    | true =>
      rw [hskipped] at hb
      obtain ⟨doc, hdoc, hbyte⟩ := keptAt_part.mp hb
      refine keptAt_part.mpr ⟨doc, ?_, hbyte⟩
      rw [setSaveRoot_partPath, ← hdoc]
      rcases hmoved.frame s.torrent.partPath fun j hj _ => (hpart j hj).symm with
        hsame | ⟨-, ⟨j, hj, hpj, heq⟩, -⟩
      · exact hsame
      · exact absurd heq (h.apart.notPart j hj)
    | false =>
      have hi : i < s.torrent.numFiles := hlies.1
      have hpadi : s.torrent.files.padFileAt i = false := by
        rw [← isPad_of_liesAt hlies]
        exact hpad
      -- a public byte is not lost only if the move copied it
      have hkeeps : flags.isReset = false ∧ status.needFullCheck = false := by
        simp only [TorrentStorage.loses, hpad, skippedAt_of_liesAt hlies, hskipped, Bool.not_false,
          Bool.and_true, Bool.or_eq_false_iff] at hlost
        exact hlost
      rw [hskipped] at hb
      obtain ⟨-, doc, hdoc, hbyte⟩ := keptAt_file.mp hb
      have harrived :
          s.torrent.arrived (normalizedSaveRoot path) flags s.disk.tree i = some doc := by
        rw [arrived]
        split
        · rename_i hstays
          rcases hstays with hnone | ⟨hflags, hsome⟩
          · rw [hdoc] at hnone
            cases hnone
          · by_cases hsame : s.torrent.pathFor i = s.torrent.destination (normalizedSaveRoot path) i
            · rw [← hsame]
              exact hdoc
            · -- a document in the way would have been reported
              have hcheck := (hmoved.status hkeeps.1).2.mpr ⟨hflags, i, hi, hpadi, hsame,
                Option.isSome_iff_ne_none.mp hsome⟩
              rw [hkeeps.2] at hcheck
              cases hcheck
        · exact hdoc
      rw [keptAt_file, s.torrent.setSaveRoot_pathFor _ hi, normalizedSaveRoot_idem]
      exact ⟨(safe_rootedPath (rootOk_normalized hsafe)).mpr (hallowed.accepted.1 i hi).1, doc,
        (hmoved.there hkeeps.1 i hi hpadi).trans harrived, hbyte⟩
  · have hr : r.1 = .moved status path (some error) := hreport
    have htorrent' : r.2.torrent = s.torrent := htorrent
    rw [hr]
    refine h.preserves ?_ _
    rcases hnot.copied with htree | ⟨hallowed, hframe, -⟩
    · exact preserved_of_same htorrent htree
    · -- the copies made are at no file's path, and not at the part file's
      refine preserved_in_place (congrArg _ htorrent') (fun _ => by rw [htorrent']) ?_
        fun i hi hpad _ hsafe doc hdoc => ?_
      · rw [htorrent']
        exact hframe _ fun j hj _ _ => (hpart j hj).symm
      · rw [htorrent']
        refine ⟨hsafe, doc, ?_, fun _ _ _ hbyte => hbyte⟩
        rw [← hdoc]
        exact hframe _ fun j hj hpj hmoves => hallowed.accepted.clear hi hpad hj hpj hmoves

theorem delete (h : Knows K storage known s) (deleteFiles deletePartfile : Bool) :
    let r := runJob G.env true storage (.deleteFiles deleteFiles deletePartfile) s
    (s.torrent.learn known (.deleteFiles deleteFiles deletePartfile) r.1).Below
      (r.2.torrent.byteAt r.2.disk.tree) := by
  intro r
  obtain ⟨htorrent, -, hframe⟩ := Tenancy.delete G s storage deleteFiles deletePartfile
  refine h.forgets fun q b hlost hb => byteAt_home_kept (congrArg _ htorrent)
    (fun i => congrArg (fun t => t.skipped i) htorrent) (fun hpad i offset hlies b hb => ?_) hb
  rw [show r.2.torrent = s.torrent from htorrent]
  have hi : i < s.torrent.numFiles := hlies.1
  have hpadi : s.torrent.files.padFileAt i = false := by
    rw [← isPad_of_liesAt hlies]
    exact hpad
  obtain ⟨hfiles, hpart⟩ :
      deleteFiles = false ∧ (deletePartfile && s.torrent.skipped i) = false := by
    simp only [TorrentStorage.loses, hpad, skippedAt_of_liesAt hlies, Bool.not_false,
      Bool.true_and, Bool.or_eq_false_iff] at hlost
    exact hlost
  subst hfiles
  -- only the part file may have been removed
  have hkept : ∀ path, (deletePartfile = true → path ≠ s.torrent.partPath) →
      r.2.disk.tree path = s.disk.tree path := by
    intro path hpath
    refine hframe path ?_
    cases deletePartfile with
    | false => simp [deleteTargets]
    | true => simpa [deleteTargets] using hpath rfl
  cases hskipped : s.torrent.skipped i with
  | true =>
    rw [hskipped] at hb
    obtain ⟨doc, hdoc, hbyte⟩ := keptAt_part.mp hb
    refine keptAt_part.mpr ⟨doc, (hkept _ fun hdelete => ?_).trans hdoc, hbyte⟩
    rw [hdelete, hskipped] at hpart
    cases hpart
  | false =>
    rw [hskipped] at hb
    obtain ⟨hsafe, doc, hdoc, hbyte⟩ := keptAt_file.mp hb
    exact keptAt_file.mpr ⟨hsafe, doc,
      (hkept _ fun _ => h.apart.notPart i hi).trans hdoc, hbyte⟩

/-- **One step**: whatever the job does and reports, what is then known is right. -/
theorem step (h : Knows K storage known s) {job : Job} (hjob : Proper s.torrent job)
    (hclear : K.Clear storage (runJob G.env true storage job s).2.torrent) :
    let r := runJob G.env true storage job s
    Knows (K.assign storage r.2.torrent) storage (s.torrent.learn known job r.1) r.2 := by
  intro r
  have hstill : ∀ {p : Nat → Bool}, r.2.torrent = s.torrent → Undisturbed K s.disk r.2.disk →
      (known.forget p).Below (r.2.torrent.byteAt r.2.disk.tree) :=
    fun htorrent hundisturbed => h.preserves (preserved_of_same htorrent hundisturbed.tree) _
  refine ⟨h.toTenancy.step G hjob hclear, ?_⟩

  cases job with
  | read request => exact h.read G hjob
  | write request input => exact h.write G hjob.1 hjob.2
  | hash piece v1 room =>
    exact hstill rfl (wp_state.mp (wp_mono (asyncHash_reads G true h.coherent h.keys hjob.1 hjob.2
      v1 room) (fun _ _ hok => hok.1) fun _ _ herr => herr))
  | hash2 piece offset =>
    exact hstill rfl (wp_state.mp (wp_mono (asyncHash2_reads G true h.coherent h.keys hjob offset)
      (fun _ _ hok => hok.1) fun _ _ herr => herr))
  | moveStorage path flags => exact h.move G hjob
  | releaseFiles =>
    obtain ⟨htorrent, hundisturbed⟩ := h.release G (Or.inl rfl)
    exact hstill htorrent hundisturbed
  | checkFiles resume links => exact h.preserves (h.check_preserves G resume links) _
  | stopTorrent =>
    obtain ⟨htorrent, hundisturbed⟩ := h.release G (Or.inr rfl)
    exact hstill htorrent hundisturbed
  | renameFile index name => exact h.preserves (h.rename_preserves G hjob) _
  | deleteFiles files part => exact h.delete G files part
  | setFilePriority priorities => exact h.preserves (h.prioritise_preserves G priorities) _
  | clearPiece piece => exact hstill rfl (.refl h.coherent)

/-- **Whole runs**: a client that knew nothing is right at the end. -/
theorem run {jobs : List Job} (h : Knows (s.torrent.keys storage) storage known s)
    (hrun : EveryStep G.env true storage Proper jobs s) :
    let s' := (runJobs G.env true storage jobs s).2
    Knows (s'.torrent.keys storage) storage (remember G.env storage jobs s known) s' := by
  induction jobs generalizing s known with
  | nil => exact h
  | cons job rest ih =>
    have hfirst := h.step G hrun.1 (Keys.clear_keys _ _ _)
    dsimp only at hfirst
    rw [Keys.assign_keys] at hfirst
    exact ih hfirst hrun.2

end Knows

/-- Whatever fails, a storage that `answers` its next job so does it as a client expects that knows
    as much: what is read or hashed has the bytes known in it, and a range that is known
    altogether can be read when nothing fails. -/
structure AnswersAs (G : Host) (known : Memory Byte) (t : TorrentStorage)
    (answers : List BridgeFault → List IoFault → Job → Report → Prop) : Prop where
  read : ∀ bridge io (request : Request), request.InRange t.files → ∀ out error,
    answers bridge io (.read request) (.read out error) → known.Agrees (request.pos t.files) out
  hash : ∀ bridge io piece v1 room, Proper t (.hash piece v1 room) → ∀ result blockHashes,
    answers bridge io (.hash piece v1 room) (.hashed piece result blockHashes none) →
    ∃ bytes, known.Agrees (pieceStart t piece) bytes ∧
      (v1 = true → t.files.pieceSize piece ≤ bytes.length ∧
        result = G.env.hasher (bytes.take (t.files.pieceSize piece))) ∧
      (0 < room → t.files.pieceSize2 piece ≤ bytes.length ∧
        blockHashes = (List.range (t.files.blocksInPiece2 piece)).map fun block =>
          G.env.hasher256 (blockAt bytes (t.files.pieceSize2 piece) block))
  hash2 : ∀ bridge io piece offset, Proper t (.hash2 piece offset) → ∀ result,
    answers bridge io (.hash2 piece offset) (.hashed2 piece result none) →
    ∃ bytes, known.Agrees (pieceStart t piece + offset) bytes ∧
      bytes.length = min defaultBlockSize (t.files.pieceSize2 piece - offset) ∧
      result = G.env.hasher256 bytes
  available : ∀ request : Request, request.InRange t.files →
    (∀ k < request.length, known (request.pos t.files + k) ≠ none) →
    ∃ out, out.length = request.length ∧ answers [] [] (.read request) (.read out none)

/-- What the next job reports, with these faults. -/
def Sys.Answers (G : Host) (storage : Nat) (s : Sys World) (bridge : List BridgeFault)
    (io : List IoFault) (job : Job) (report : Report) : Prop :=
  (runJob G.env true storage job
    { torrent := s.torrent, disk := s.disk.scripted bridge io }).1 = report

theorem Knows.answers (G : Host) {K : Keys} {storage : Nat} {known : Memory Byte} {s : Sys World}
    (h : Knows K storage known s) : AnswersAs G known s.torrent (s.Answers G storage) where
  read bridge io request hrange out error hread := by
    obtain ⟨-, -, hdelivers, -⟩ := readJob_spec G true (h.coherent.scripted bridge io)
      h.keys hrange
    exact h.below.agrees (hdelivers out error hread).2.1
  hash bridge io piece v1 room hproper result blockHashes hhash := by
    have hspec := asyncHash_reads G true (h.coherent.scripted bridge io)
      h.keys hproper.1 hproper.2 v1 room
    simp only [Sys.Answers, runJob, onDisk, zoom] at hhash
    rcases hrun : asyncHash G.env true s.torrent storage piece v1 room (s.disk.scripted bridge io)
      with ⟨_ | answer, d'⟩
    · simp [hrun, hashReport] at hhash
    · obtain ⟨-, bytes, hlen, hlen2, hholds, hfirst, hsecond⟩ := wp_ok hspec hrun
      simp only [hrun, hashReport, Report.hashed.injEq] at hhash
      obtain ⟨-, rfl, rfl, -⟩ := hhash
      exact ⟨bytes, h.below.agrees hholds, fun hv1 => ⟨hlen hv1, hfirst hv1⟩,
        fun hroom => ⟨hlen2 hroom, hsecond hroom⟩⟩
  hash2 bridge io piece offset hproper result hhash := by
    have hspec := asyncHash2_reads G true (h.coherent.scripted bridge io)
      h.keys hproper offset
    simp only [Sys.Answers, runJob, onDisk, zoom] at hhash
    rcases hrun : asyncHash2 G.env true s.torrent storage piece offset (s.disk.scripted bridge io)
      with ⟨_ | answer, d'⟩
    · simp [hrun, hash2Report] at hhash
    · obtain ⟨-, bytes, hlen, hholds, hanswer⟩ := wp_ok hspec hrun
      simp only [hrun, hash2Report, Report.hashed2.injEq] at hhash
      obtain ⟨-, rfl, -⟩ := hhash
      exact ⟨bytes, h.below.agrees hholds, hlen, hanswer⟩
  available request hrange hknown := by
    obtain ⟨-, -, hdelivers, hsucceeds⟩ := readJob_spec G true (h.coherent.scripted [] [])
      h.keys hrange
    obtain ⟨out, hread⟩ := hsucceeds (by simp [World.Willing, Disk.scripted])
      (by simp [World.Smooth, Disk.scripted]) fun k hk => by
        obtain ⟨b, hb⟩ := Option.ne_none_iff_exists'.mp (hknown k hk)
        rw [Disk.scripted_tree, h.below _ b hb]
        exact Option.some_ne_none b
    exact ⟨out, (hdelivers out none hread).2.2 rfl, hread⟩

theorem knows_nothing {t : TorrentStorage} (hreach : t.Reachable) (hapart : AllApart t)
    {storage : Nat} {d : Disk World} (hc : Coherent (t.keys storage) d) :
    Knows (t.keys storage) storage Memory.blank { torrent := t, disk := d } :=
  ⟨⟨hc, Keys.own_keys t storage, Keys.clear_keys t t storage, hapart,
    fun _ hi => hreach.rooted hi⟩, Memory.blank_below _⟩

/-- **Nothing acknowledged is lost.** Along every run of proper jobs, whatever fails in it, the
    storage answers as the reports so far have made the client expect. -/
theorem nothing_acknowledged_is_lost (G : Host) {t : TorrentStorage} (hreach : t.Reachable)
    (hapart : AllApart t) {storage : Nat} {d : Disk World} (hc : Coherent (t.keys storage) d)
    {jobs : List Job}
    (hrun : EveryStep G.env true storage Proper jobs { torrent := t, disk := d }) :
    let s := (runJobs G.env true storage jobs { torrent := t, disk := d }).2
    AnswersAs G (remember G.env storage jobs { torrent := t, disk := d } Memory.blank) s.torrent
      (s.Answers G storage) := by
  exact ((knows_nothing hreach hapart hc).run G hrun).answers G

namespace Restart

/-- The transfers of the first write are split, and those of the second one stop. -/
def torn : Disk World :=
  { world := { World.holding [(str "a", [1, 2, 3])] with
      io := [.short 0, .interrupted, .whole, .short 1, .fail ⟨eio, eio_pos⟩ 0] } }

theorem sound_torn : torn.world.Sound :=
  have hs := World.sound_holding [(str "a", [1, 2, 3])]
  ⟨hs.inj, hs.bound⟩

def start : Sys World := { torrent := build params [], disk := torn }

def written : Job := .write { piece := 0, start := 0, length := 3 } [7, 8, 9]
def overwritten : Job := .write { piece := 0, start := 0, length := 3 } [5, 8, 5]
def moved : Job := .moveStorage (str "d") .alwaysReplaceFiles

/-- The second write leaves only the middle byte certain, and it has moved with its file. -/
theorem nothing_acknowledged_is_lost_torn :
    let s := (runJobs (Host.env ⟨.next, id, id⟩) true 0 [written, overwritten, moved] start).2
    ∃ out, (runJob (Host.env ⟨.next, id, id⟩) true 0
        (.read { piece := 0, start := 1, length := 1 })
        { torrent := s.torrent, disk := s.disk.scripted [] [] }).1 = .read out none ∧
      out[0]? = some 8 := by
  intro s
  have hrun : EveryStep (Host.env ⟨.next, id, id⟩) true 0 Proper [written, overwritten, moved]
      start := ⟨by decide +kernel, by decide +kernel, by decide +kernel, trivial⟩
  have hanswers := nothing_acknowledged_is_lost ⟨.next, id, id⟩ reachable_params allApart_params
    (coherent_fresh sound_torn _) hrun
  let request : Request := { piece := 0, start := 1, length := 1 }
  have hin : request.InRange s.torrent.files := by decide +kernel
  have hpos : request.pos s.torrent.files = 1 := by decide +kernel
  have hknown : remember (Host.env ⟨.next, id, id⟩) 0 [written, overwritten, moved] start
      Memory.blank (request.pos s.torrent.files + 0) = some 8 := by
    rw [hpos]
    decide +kernel
  obtain ⟨out, hlen, hread⟩ := hanswers.available request hin fun k hk => by
    obtain rfl : k = 0 := Nat.lt_one_iff.mp hk
    exact fun hnone => by cases hknown.symm.trans hnone
  have hone : 0 < out.length := by
    rw [hlen]
    exact Nat.one_pos
  exact ⟨out, hread, hanswers.read [] [] request hin out none hread 0 hone 8 hknown⟩

end Restart

/-- **A write tears at one point at most.** Whatever fails in it, one length `n` explains all
    that is read afterwards: below it is the input, and everywhere else what could be read
    before. -/
theorem write_tears_at_one_point (G : Host) {t : TorrentStorage} (hreach : t.Reachable)
    (hapart : AllApart t) {storage : Nat} {d : Disk World} (hc : Coherent (t.keys storage) d)
    {jobs : List Job} {request : Request} {input : List Byte}
    (hrun : EveryStep G.env true storage Proper (jobs ++ [.write request input])
      { torrent := t, disk := d }) :
    let s := (runJobs G.env true storage jobs { torrent := t, disk := d }).2
    let r := runJob G.env true storage (.write request input) s
    ∃ n ≤ request.length, (r.1 = .written none → n = request.length) ∧
      ∀ bridge io (other : Request) out error, other.InRange s.torrent.files →
        (runJob G.env true storage (.read other)
          { torrent := r.2.torrent, disk := r.2.disk.scripted bridge io }).1 = .read out error →
        ∀ k < out.length,
          let pos := request.pos s.torrent.files
          let q := other.pos s.torrent.files + k
          (s.torrent.files.isPad q = true → out[k]? = some 0) ∧
          (s.torrent.files.isPad q = false → pos ≤ q → q < pos + n → out[k]? = input[q - pos]?) ∧
          (q < pos ∨ pos + n ≤ q → ∀ b bridge io,
            Reads G storage bridge io s.torrent s.disk q b → out[k]? = some b) := by
  intro s r
  obtain ⟨hjobs, ⟨hrange, hinput⟩, -⟩ := (everyStep_append G.env true storage).mp hrun
  have hs := (knows_nothing hreach hapart hc).run G hjobs
  change Knows (s.torrent.keys storage) storage _ s at hs
  change request.InRange s.torrent.files at hrange
  have hleaves : Leaves (s.torrent.keys storage) storage (fun _ => True) s r.2 :=
    hs.toTenancy.write G (fun _ _ => trivial) hrange hinput
  obtain ⟨n, hn, hstored, hwhole⟩ :=
    writeJob_torn G true hs.coherent hs.apart.apart hs.keys hrange hinput
  change Stored s.torrent s.disk.tree r.2.disk.tree _ _ at hstored
  have htake : (input.take n).length = n := by
    rw [List.length_take]
    omega
  refine ⟨n, hinput ▸ hn, fun hnone => hinput ▸ hwhole hnone, ?_⟩
  intro bridge io other out error hother hread k hk pos q
  have htorrent : r.2.torrent = s.torrent := rfl
  have hcoherent : Coherent (s.torrent.keys storage) r.2.disk := by
    rw [← Keys.assign_keys s.torrent s.torrent storage]
    exact hleaves.coherent
  rw [htorrent] at hread
  obtain ⟨-, -, hdelivers, -⟩ :=
    readJob_spec G true (hcoherent.scripted bridge io) (fun _ _ hkey => hkey) hother
  have hbyte : s.torrent.byteAt r.2.disk.tree q = out[k]? := (hdelivers out error hread).2.1 k hk
  rw [← hbyte]
  refine ⟨fun hpad => byteAt_isPad hpad, fun hpad hlow hhigh => ?_,
    fun hout b bridge' io' hreads => ?_⟩
  · obtain ⟨j, hj⟩ := Nat.exists_eq_add_of_le hlow
    have hinside := hstored.inside j (by omega)
    rw [← hj, if_neg (by simp [hpad]), List.getElem?_take, if_pos (by omega)] at hinside
    rw [hinside, hj, Nat.add_sub_cancel_left]
  · exact hstored.outside q b (by rw [htake]; exact hout)
      (hreads.byteAt hs.coherent fun _ _ hkey => hkey)

namespace Restart

/-- What is read after the second write is its input up to some byte, and then the first one's. -/
theorem write_tears_at_one_point_torn :
    ∃ n ≤ 3, ∀ k < 3, ([5, 8, 9] : List Byte)[k]? =
      if k < n then ([5, 8, 5] : List Byte)[k]? else ([7, 8, 9] : List Byte)[k]? := by
  have hrun : EveryStep (Host.env ⟨.next, id, id⟩) true 0 Proper ([written] ++ [overwritten])
      start := ⟨by decide +kernel, by decide +kernel, trivial⟩
  obtain ⟨n, hn, -, hreads⟩ := write_tears_at_one_point ⟨.next, id, id⟩ reachable_params
    allApart_params (coherent_fresh sound_torn _) hrun
  refine ⟨n, hn, fun k hk => ?_⟩
  let request : Request := { piece := 0, start := 0, length := 3 }
  obtain ⟨-, hinput, hbefore⟩ := hreads [] [] request [5, 8, 9] none (by decide +kernel)
    (by decide +kernel) k hk
  have hpad : ∀ k < 3, (build params []).files.isPad (request.pos (build params []).files + k) =
      false := by decide +kernel
  have hpos : request.pos (build params []).files = 0 := rfl
  split
  · rename_i hlt
    refine (hinput (hpad k hk) (Nat.le_add_right _ _) (Nat.add_lt_add_left hlt _)).trans ?_
    congr 1
    exact Nat.add_sub_cancel_left _ _
  · rename_i hge
    have hthere : ([7, 8, 9] : List Byte)[k]? = some ([7, 8, 9].get ⟨k, hk⟩) :=
      List.getElem?_eq_getElem hk
    rw [hthere]
    refine hbefore (Or.inr (Nat.add_le_add_left (Nat.le_of_not_lt hge) _)) _ [] []
      ⟨request, [7, 8, 9], none, by decide +kernel, Nat.le_add_right _ _, ?_, by decide +kernel⟩
    rw [Nat.add_sub_cancel_left, hthere]

end Restart

end Saf
end Libtorrent4j
