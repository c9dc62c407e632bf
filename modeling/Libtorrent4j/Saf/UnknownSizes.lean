import Libtorrent4j.Saf.FreshCheck
import Libtorrent4j.Saf.Outlook

/-!
# Sizes that cannot be had

`async_check_files` has no answer of its own for a document that cannot be looked at. Where
`validate_resume` and the stat pass of a move stop with a `fatal_disk_error`, `initialize_files`
goes on as if there were nothing there.

So whether an unreadable file is taken for an absent one hangs on **what else fails in the same
turn**: nothing is lost if the file cannot be opened either, or if it was there and cannot be
truncated. `UnknownStops` reads this off the outlook before the call is made, file by file, for as
long as all goes well.
-/

namespace Libtorrent4j
namespace Saf

open Lib Lib.Exec TorrentStorage

variable (G : Host) {t : TorrentStorage} {storage : Nat} {d : Disk World}

/-! ## What is asked of a check -/

/-- No document has been made. -/
def Disk.MadeNone (d d' : Disk World) : Prop := ∀ p, d.tree p = none → d'.tree p = none

/-- `initialize_files` comes to the file `k` when the disk is `dk`, with `rest` still ahead. -/
abbrev Comes (t : TorrentStorage) (storage : Nat) (files : List Nat) (d : Disk World) (k : Nat)
    (rest : List Nat) (dk : Disk World) : Prop :=
  Reaches files (initializeFile G.env true t storage) d k rest dk

/-- The disk when the turn for file `k` has asked for the size. -/
def afterStat (t : TorrentStorage) (k : Nat) (d : Disk World) : Disk World :=
  d.note (G.env.fileSize (t.pathFor k) d.world).2
    (.fileSize (t.pathFor k) (d.stat G.env (t.pathFor k)))

/-- The turn for file `k` truncates: `open_file` succeeds, and so does `ftruncate`. -/
def Truncates (t : TorrentStorage) (storage k : Nat) (d : Disk World) : Prop :=
  ∃ fd d₁ w, openFile G.env true storage k (t.pathFor k) true .fileOpen (afterStat G t k d) =
      (.ok fd, d₁) ∧
    G.env.ftruncate fd (t.files.fileSize k) d₁.world = (.ok (), w)

/-- An unreadable file is never taken for an absent one. -/
structure AbsenceIsCertain (t : TorrentStorage) (storage : Nat) (resume : Option Resume)
    (links : List Path) (d : Disk World) (r : Report × Sys World) : Prop where
  /-- No error and no `need_full_check` without usable resume data: there was no document. -/
  absent : ∀ status, r.1 = .checked status none → status.needFullCheck = false →
    ¬ Usable resume → ∀ i, t.Public i → d.tree (t.pathFor i) = none
  /-- A size `initialize_files` cannot get stops it before it makes or truncates anything. -/
  initializing : links = [] → ¬ Usable resume → ∀ k rest dk,
    Comes G t storage t.publicFiles d k rest dk → StatFails (dk.stat G.env (t.pathFor k)) →
      (∃ status error, r.1 = .checked status (some error) ∧ status.fatalDiskError = true) ∧
      dk.MadeNone r.2.disk ∧
      ∀ j later dj, Comes G t storage (k :: rest) dk j later dj → ¬ Truncates G t storage j dj
  /-- And so does one that `validate_resume` cannot get. -/
  validating : Usable resume → ∀ path size, d.Logged r.2.disk (.fileSize path size) →
    StatFails size →
      (∃ status error, r.1 = .checked status (some error) ∧ status.fatalDiskError = true) ∧
      d.MadeNone r.2.disk ∧ ∀ fd, ¬ d.Logged r.2.disk (.ftruncate fd)

/-! ## What can be foreseen -/

namespace Outlook

variable (o : Outlook) (storage : Nat) (file : Int) (path : Path)

/-- A turn that has asked for the size will open and truncate. -/
def goesOn : Bool := o.opens storage file path && o.truncates

/-- It will stop, and have made nothing: there is nothing to open for it, or what it opens was there
    and cannot be truncated. -/
def givesUp : Bool :=
  !o.opens storage file path || (o.cached storage file path || o.stored path) && !o.truncates

/-- After a turn that goes on. -/
def afterTurn : Outlook := (o.opened storage file path).truncated

theorem goesOn_of_givesUp (h : o.givesUp storage file path = true) :
    o.goesOn storage file path = false := by
  unfold givesUp at h
  unfold goesOn
  cases hopens : o.opens storage file path with
  | false => rfl
  | true =>
    rw [hopens, Bool.not_true, Bool.false_or, Bool.and_eq_true, Bool.not_eq_true'] at h
    rw [h.2, Bool.and_false]

@[simp] theorem truncates_opened : (o.opened storage file path).truncates = o.truncates := by
  unfold opened truncates
  split <;> rfl

end Outlook

/-- Wherever the answer to `file_size` will be that nothing is known, the turn gives up. The turns
    before it go well. -/
def UnknownStops (t : TorrentStorage) (storage : Nat) : List Nat → Outlook → Prop
  | [], _ => True
  | k :: rest, o =>
      (o.unknown = true → o.asked.givesUp storage k (t.pathFor k) = true) ∧
        (o.asked.goesOn storage k (t.pathFor k) = true →
          UnknownStops t storage rest (o.asked.afterTurn storage k (t.pathFor k)))

instance decidableUnknownStops (t : TorrentStorage) (storage : Nat) :
    ∀ files o, Decidable (UnknownStops t storage files o)
  | [], _ => inferInstanceAs (Decidable True)
  | _ :: rest, _ =>
      have := decidableUnknownStops t storage rest
      inferInstanceAs (Decidable (_ ∧ _))

theorem Disk.madeNone_iff {d d' : Disk World} :
    d.MadeNone d' ↔ ∀ p, (d.world.docs p).isSome = false → (d'.world.docs p).isSome = false := by
  simp only [Disk.MadeNone, Disk.tree, World.content_eq_none, Option.isSome_eq_false_iff,
    Option.isNone_iff_eq_none]

theorem Disk.MadeNone.docs {d' d'' : Disk World} (h : d'.world.docs = d''.world.docs) :
    d.MadeNone d' ↔ d.MadeNone d'' := by
  rw [Disk.madeNone_iff, Disk.madeNone_iff, h]

theorem afterStat_docs (k : Nat) (d : Disk World) :
    (afterStat G t k d).world.docs = d.world.docs := by
  have hworld := (d.world.fileSize_spec (t.pathFor k)).1
  exact (congrArg World.docs hworld : (d.world.fileSize (t.pathFor k)).2.docs = _)

variable {o : Outlook}

namespace Outlook.Foresees

theorem afterStat (h : o.Foresees d) (k : Nat) : o.asked.Foresees (Saf.afterStat G t k d) :=
  h.asked (d.world.fileSize_spec (t.pathFor k)).1 _

/-- An open for writing makes no document if one was there, or a descriptor was kept. -/
theorem madeNone_iff {d' : Disk World} {storage : Nat} {file : Int} {path : Path}
    (h : o.Foresees d) (h' : (o.opened storage file path).Foresees d') 
    (hsame : o.cached storage file path = true → d'.world.docs = d.world.docs) :
    (o.cached storage file path || o.stored path) = true ↔ d.MadeNone d' := by
  rw [Disk.madeNone_iff]
  cases hcached : o.cached storage file path with
  | true =>
    rw [Bool.true_or, hsame hcached]
    exact iff_of_true rfl fun _ hp => hp
  | false =>
    have hstored : ∀ p, (d'.world.docs p).isSome = Function.update o.stored path true p := by
      intro p
      rw [← h'.stored p, opened, if_neg (by rw [hcached]; decide)]
    rw [Bool.false_or]
    constructor
    · intro hpath p hp
      rw [hstored, Function.update_of_ne, h.stored, hp]
      rintro rfl
      rw [← h.stored, hpath] at hp
      cases hp
    · intro hmade
      by_contra hpath
      have hnone := hmade path (by rw [← h.stored]; simpa using hpath)
      rw [hstored, Function.update_self] at hnone
      cases hnone

/-- **A turn of `initialize_files` goes as foreseen.** -/
theorem initializeFile (h : o.Foresees d) (k : Nat) :
    wp (Saf.initializeFile G.env true t storage k)
      (fun _ d' => Truncates G t storage k d ∧
        o.asked.goesOn storage k (t.pathFor k) = true ∧
        (o.asked.afterTurn storage k (t.pathFor k)).Foresees d')
      (fun failure d' => failure.1.fatalDiskError = true ∧ ¬ Truncates G t storage k d ∧
        o.asked.goesOn storage k (t.pathFor k) = false ∧
        (o.asked.givesUp storage k (t.pathFor k) = true ↔ d.MadeNone d')) d := by
  have hasked := h.afterStat G (t := t) k
  rw [Saf.initializeFile, wp_bind, callFileSize, wp_ask, wp_bind, wp_mapError, wp_bind]
  change wp _ _ _ (Saf.afterStat G t k d)
  refine wp_mono (wp_and (wp_and (hasked.openFile G storage k (t.pathFor k) .fileOpen)
    (openFile_cases G true storage k (t.pathFor k) true .fileOpen (Saf.afterStat G t k d))) (wp_of
      (Q := fun fd d₁ => Saf.openFile G.env true storage k (t.pathFor k) true .fileOpen
        (Saf.afterStat G t k d) = (.ok fd, d₁))
      (R := fun error d₁ => Saf.openFile G.env true storage k (t.pathFor k) true .fileOpen
        (Saf.afterStat G t k d) = (.error error, d₁))
      (fun _ _ hrun => hrun) fun _ _ hrun => hrun)) ?_ ?_
  · rintro fd d₁ ⟨⟨⟨hopens, hopened, hfd, hsame⟩, -⟩, hrun⟩
    have hmade := hasked.madeNone_iff hopened hsame
    obtain ⟨hanswer, htruncate⟩ := hopened.truncateTo G hfd (t.files.fileSize k) k
    rw [truncates_opened] at hanswer htruncate
    refine wp_mono (wp_and htruncate (truncateTo_cases G fd (t.files.fileSize k) k d₁)) ?_ ?_
    · rintro _ d₂ ⟨⟨htruncates, hafter⟩, -, w, hcall⟩
      refine ⟨⟨fd, d₁, w, hrun, hcall⟩, ?_, hafter⟩
      rw [goesOn, hopens, htruncates, Bool.true_and]
    · rintro error d₂ ⟨htruncates, -, hdocs, errno, w, hcall⟩
      refine ⟨rfl, ?_, by rw [goesOn, htruncates, Bool.and_false], ?_⟩
      · rintro ⟨fd', d₁', w', hrun', hcall'⟩
        obtain ⟨heq, rfl⟩ := Prod.mk.inj (hrun.symm.trans hrun')
        obtain rfl := Except.ok.inj heq
        rw [hcall] at hcall'
        cases (Prod.mk.inj hcall').1
      · rw [givesUp, hopens, htruncates, Bool.not_true, Bool.false_or, Bool.not_false,
          Bool.and_true, hmade, Disk.MadeNone.docs hdocs, Disk.madeNone_iff, Disk.madeNone_iff,
          afterStat_docs]
  · rintro error d₁ ⟨⟨hfails, -, hstill⟩, hrun⟩
    refine ⟨rfl, ?_, by rw [goesOn, hfails, Bool.false_and], ?_⟩
    · rintro ⟨fd, d₁', w, hrun', -⟩
      rw [hrun] at hrun'
      cases (Prod.mk.inj hrun').1
    · rw [givesUp, hfails, Bool.not_false, Bool.true_or, Disk.madeNone_iff, hstill.docs,
        afterStat_docs]
      exact iff_of_true rfl fun _ hp => hp

end Outlook.Foresees

/-! ## The turns -/

/-- Where the loop comes to, the turn is foreseen. -/
theorem UnknownStops.at {files rest : List Nat} {k : Nat} {dk : Disk World}
    (h : UnknownStops t storage files o) (hsees : o.Foresees d)
    (hcomes : Comes G t storage files d k rest dk) :
    ∃ ok : Outlook, ok.Foresees dk ∧
      (ok.unknown = true → ok.asked.givesUp storage k (t.pathFor k) = true) := by
  induction files generalizing d o with
  | nil =>
    obtain ⟨done, -, hnil, -⟩ := hcomes
    simp at hnil
  | cons first files ih =>
    rcases Reaches.uncons hcomes with ⟨rfl, -, rfl⟩ | ⟨existed, d₁, hturn, hlater⟩
    · exact ⟨o, hsees, h.1⟩
    · obtain ⟨-, hgoes, hafter⟩ := wp_ok (hsees.initializeFile G first) hturn
      exact ih (h.2 hgoes) hafter hlater

/-- If every turn that the loop comes to gives up where it has to, the outlook says so. -/
theorem unknownStops_of_turns {files : List Nat} (hsees : o.Foresees d)
    (hturns : ∀ k rest dk (ok : Outlook), Comes G t storage files d k rest dk → ok.Foresees dk →
      ok.unknown = true → ok.asked.givesUp storage k (t.pathFor k) = true) :
    UnknownStops t storage files o := by
  induction files generalizing d o with
  | nil => trivial
  | cons k rest ih =>
    refine ⟨hturns k rest d o .here hsees, fun hgoes => ?_⟩
    rcases hturn : initializeFile G.env true t storage k d with ⟨failure | existed, d₁⟩
    · obtain ⟨-, -, hstops, -⟩ := wp_error (hsees.initializeFile G k) hturn
      rw [hgoes] at hstops
      cases hstops
    · obtain ⟨-, -, hafter⟩ := wp_ok (hsees.initializeFile G k) hturn
      exact ih hafter fun j later dj oj hcomes => hturns j later dj oj (hcomes.cons hturn)

/-- Then, if all turns answer that there was no document, there was none. -/
theorem absent_of_unknownStops {files : List Nat} (h : UnknownStops t storage files o)
    (hsees : o.Foresees d) :
    wp (mapEach files (initializeFile G.env true t storage))
      (fun existed _ => existed.any id = false → ∀ i ∈ files, d.tree (t.pathFor i) = none)
      (fun _ _ => True) d := by
  induction files generalizing d o with
  | nil => exact fun _ => by simp
  | cons k rest ih =>
    rw [mapEach, wp_andThen]
    refine wp_mono (wp_and (hsees.initializeFile G k) (initializeFile_cases G true k d)) ?_
      fun _ _ _ => trivial
    rintro existed d₁ ⟨⟨-, hgoes, hafter⟩, rfl, -, hnames⟩
    rw [wp_andThen]
    refine wp_mono (ih (h.2 hgoes) hafter) ?_ fun _ _ h => h
    intro existed' d₂ hrest hany i hi
    rw [List.any_cons, Bool.or_eq_false_iff] at hany
    rcases List.mem_cons.mp hi with rfl | hi
    · have hneg : ¬ 0 ≤ d.stat G.env (t.pathFor i) := by simpa using hany.1
      obtain ⟨-, hnone⟩ := d.stat_spec G (t.pathFor i)
      by_contra hdoc
      -- a document there makes the failure an unknown size
      have hfails : StatFails (d.stat G.env (t.pathFor i)) :=
        ⟨Int.not_le.mp hneg, fun hsize => hdoc (hnone hsize)⟩
      have hgives := h.1 ((hsees.unknown_iff G _).mp hfails)
      rw [Outlook.goesOn_of_givesUp _ _ _ _ hgives] at hgoes
      cases hgoes
    · have hlater := hrest hany.2 i hi
      cases hdocs : d.world.docs (t.pathFor i) with
      | none => exact World.content_eq_none.mpr hdocs
      | some n =>
        rw [Disk.tree, World.content_eq_none, hnames hdocs] at hlater
        cases hlater

/-- `initialize_files` stops where a turn does. -/
theorem Comes.stops {rest : List Nat} {k : Nat} {dk d' : Disk World} {failure : Failure}
    (h : Comes G t storage t.publicFiles d k rest dk)
    (hturn : initializeFile G.env true t storage k dk = (.error failure, d')) :
    initializeFiles G.env true t storage d = (.error failure, d') := by
  have hloop := Reaches.stops h hturn
  rw [initializeFiles_eq]
  change andThen _ _ d = _
  rw [andThen, hloop]

/-! ## The three ways of a check -/

theorem Asked.of_logged {answers : List (Nat × Int)} {d' : Disk World} {event : Event World}
    (h : Asked t answers d d') (he : d.Logged d' event) :
    ∃ answer ∈ answers, event = .fileSize (t.pathFor answer.1) answer.2 := by
  obtain ⟨w, rfl⟩ := h
  obtain ⟨new, htrace, hmem⟩ := he
  obtain rfl := List.append_cancel_right htrace
  obtain ⟨answer, hin, rfl⟩ := List.mem_map.mp (List.mem_reverse.mp hmem)
  exact ⟨answer, hin, rfl⟩

/-- Validation asks for sizes, and an answer that is a failure stops it. -/
theorem validateResume_asked (resume : Resume) (d : Disk World) :
    wp (validateResume G.env t resume)
      (fun _ d' => ∃ answers, Asked t answers d d' ∧ ∀ answer ∈ answers, ¬ StatFails answer.2)
      (fun failure d' => failure.1.fatalDiskError = true ∧ ∃ answers, Asked t answers d d') d := by
  refine wp_validateResume G fun seed exactSize indices => ?_
  refine wp_mono (checkResumeFiles_spec G.env seed exactSize indices {} d) ?_ ?_
  · rintro _ d' ⟨answers, -, hasked, hgood, -⟩
    exact ⟨answers, hasked, hgood⟩
  · rintro _ d' ⟨answers, index, size, -, -, hasked, -, -, hfatal, -⟩
    exact ⟨hfatal, _, hasked⟩

/-- A call with hard links is refused before anything is looked at. -/
theorem certain_of_links (resume : Option Resume) {links : List Path} (hlinks : links ≠ [])
    (d : Disk World) :
    AbsenceIsCertain G t storage resume links d
      (runJob G.env true storage (.checkFiles resume links) { torrent := t, disk := d }) := by
  simp only [runJob, onDisk, zoom, asyncCheckFiles_links G true resume hlinks]
  refine ⟨fun status hreport => ?_, fun h => absurd h hlinks, ?_⟩
  · simp [checkedReport] at hreport
  · rintro - path size ⟨new, htrace, hmem⟩
    obtain rfl : new = [] := by simpa using htrace
    cases hmem

/-- Validation only looks, and stops at the first answer that is a failure. -/
theorem certain_of_usable {resume : Resume} (hresume : Usable (some resume)) (d : Disk World) :
    AbsenceIsCertain G t storage (some resume) [] d
      (runJob G.env true storage (.checkFiles (some resume) []) { torrent := t, disk := d }) := by
  simp only [runJob, onDisk, zoom, asyncCheckFiles_resumed G true hresume]
  refine ⟨fun _ _ _ h => absurd hresume h, fun _ h => absurd hresume h,
    fun _ path size hlogged hfails => ?_⟩
  have hspec := wp_and (validateResume_asked G (t := t) resume d) (validateResume_quiet G resume d)
  rcases hrun : validateResume G.env t resume d with ⟨⟨status, error⟩ | status, d'⟩
  · obtain ⟨⟨hfatal, answers, hasked⟩, hquiet⟩ := wp_error hspec hrun
    refine ⟨⟨status, error, rfl, hfatal⟩, fun p hp => ?_, fun fd htruncated => ?_⟩
    · exact (congrFun hquiet.tree p).trans hp
    · obtain ⟨answer, -, heq⟩ := hasked.of_logged htruncated
      cases heq
  · -- it has come to its end, so no answer was a failure
    obtain ⟨⟨answers, hasked, hgood⟩, -⟩ := wp_ok hspec hrun
    rw [hrun] at hlogged
    obtain ⟨answer, hin, heq⟩ := hasked.of_logged hlogged
    obtain ⟨-, rfl⟩ := Event.fileSize.inj heq
    exact absurd hfails (hgood answer hin)

section Fresh

variable {resume : Option Resume} (hresume : ¬ Usable resume) (hsees : o.Foresees d)

include hresume hsees

/-- A turn that does not give up has truncated, or has made a document and then failed. -/
theorem unknownStops_of_certain (hcertain : AbsenceIsCertain G t storage resume [] d
      (runJob G.env true storage (.checkFiles resume []) { torrent := t, disk := d })) :
    UnknownStops t storage t.publicFiles o := by
  refine unknownStops_of_turns G hsees fun k rest dk ok hcomes hsees' hunknown => ?_
  have hfails := (hsees'.unknown_iff G (t.pathFor k)).mpr hunknown
  obtain ⟨-, hmade, hnone⟩ := hcertain.initializing rfl hresume k rest dk hcomes hfails
  rcases hturn : initializeFile G.env true t storage k dk with ⟨failure | existed, d'⟩
  · obtain ⟨-, -, -, hgives⟩ := wp_error (hsees'.initializeFile G k) hturn
    simp only [runJob, onDisk, zoom, asyncCheckFiles_fresh G true hresume,
      hcomes.stops G hturn] at hmade
    exact hgives.mpr hmade
  · exact absurd (wp_ok (hsees'.initializeFile G k) hturn).1 (hnone k rest dk .here)

theorem certain_of_unknownStops (hstops : UnknownStops t storage t.publicFiles o) :
    AbsenceIsCertain G t storage resume [] d
      (runJob G.env true storage (.checkFiles resume []) { torrent := t, disk := d }) := by
  simp only [runJob, onDisk, zoom, asyncCheckFiles_fresh G true hresume]
  refine ⟨fun status hreport hflag _ => ?_, fun _ _ k rest dk hcomes hfails => ?_,
    fun h => absurd h hresume⟩
  · have habsent : wp (initializeFiles G.env true t storage)
        (fun status _ => status.needFullCheck = false → ∀ i ∈ t.publicFiles,
          d.tree (t.pathFor i) = none) (fun _ _ => True) d := by
      rw [initializeFiles_eq, wp_bind]
      exact absent_of_unknownStops G hstops hsees
    rcases hrun : initializeFiles G.env true t storage d with ⟨failure | status', d'⟩
    · rw [hrun] at hreport
      simp [checkedReport] at hreport
    · rw [hrun] at hreport
      obtain rfl : status' = status := by simpa [checkedReport] using hreport
      exact fun i hi => wp_ok habsent hrun hflag i (t.mem_publicFiles.mpr hi)
  · -- the turn for `k` gives up, and no turn after it is made
    obtain ⟨ok, hsees', hgives⟩ := hstops.at G hsees hcomes
    have hgives := hgives ((hsees'.unknown_iff G _).mp hfails)
    rcases hturn : initializeFile G.env true t storage k dk with ⟨⟨status, error⟩ | existed, d'⟩
    · obtain ⟨hfatal, hnot, -, hmade⟩ := wp_error (hsees'.initializeFile G k) hturn
      rw [hcomes.stops G hturn]
      refine ⟨⟨status, error, rfl, hfatal⟩, hmade.mp hgives, fun j later dj hlater => ?_⟩
      obtain ⟨rfl, rfl⟩ := Reaches.eq_of_error hlater hturn
      exact hnot
    · obtain ⟨-, hgoes, -⟩ := wp_ok (hsees'.initializeFile G k) hturn
      rw [Outlook.goesOn_of_givesUp _ _ _ _ hgives] at hgoes
      cases hgoes

end Fresh

/-- **When an unreadable file is not taken for an absent one**: exactly when, wherever `file_size`
    will fail on a wanted file and not for want of a document, the turn is going to give up. -/
theorem absence_is_certain_iff {order : List OpenDescriptor} (hneat : Neat d) (hlive : d.Live)
    (horder : d.Ordered order) (resume : Option Resume) (links : List Path) :
    AbsenceIsCertain G t storage resume links d
        (runJob G.env true storage (.checkFiles resume links) { torrent := t, disk := d }) ↔
      (links = [] → ¬ Usable resume →
        UnknownStops t storage t.publicFiles (Outlook.of d order)) := by
  have hsees : (Outlook.of d order).Foresees d := .of_disk hneat hlive horder
  constructor
  · rintro hcertain rfl hresume
    exact unknownStops_of_certain G hresume hsees hcertain
  · intro hstops
    by_cases hlinks : links = []
    · subst hlinks
      by_cases hresume : Usable resume
      · cases resume with
        | none => exact hresume.elim
        | some resume => exact certain_of_usable G hresume d
      · exact certain_of_unknownStops G hresume hsees (hstops rfl hresume)
    · exact certain_of_links G resume hlinks d

namespace Revoked

/-- `file_size` fails with an I/O error, and so does the `open_file` after it. -/
def unreachable : Disk World :=
  { stored with world := { stored.world with
      bridge := [.fail ⟨eio, eio_pos⟩, .fail ⟨eio, eio_pos⟩] } }

theorem absence_is_certain_unreachable :
    AbsenceIsCertain host (build params []) 0 none [] unreachable
      (runJob host.env true 0 (.checkFiles none [])
        { torrent := build params [], disk := unreachable }) := by
  have hneat : Neat unreachable := ⟨List.nodup_nil, List.nodup_nil, nofun⟩
  have hholding := World.sound_holding [(str "a", [1, 2, 3, 4, 5])]
  have hsound : unreachable.world.Sound := ⟨hholding.inj, hholding.bound⟩
  have hcoherent : Coherent (fun _ _ _ => True) unreachable := coherent_fresh hsound _
  exact (absence_is_certain_iff host (t := build params []) hneat hcoherent.live .nil none []).mpr
    fun _ _ => by decide +kernel

/-- `file_size` fails once with an I/O error; nothing else fails. -/
def revoked : Disk World :=
  { stored with world := { stored.world with bridge := [.fail ⟨eio, eio_pos⟩] } }

/-- The check reports nothing, and has truncated the document it could not look at. -/
theorem unreadable_taken_for_absent :
    (runJob host.env true 0 (.checkFiles none [])
      { torrent := build params [], disk := revoked }).1 = .checked {} none ∧
    (runJob host.env true 0 (.checkFiles none [])
      { torrent := build params [], disk := revoked }).2.disk.tree (str "a") = some [1, 2, 3] ∧
    ¬ AbsenceIsCertain host (build params []) 0 none [] revoked
      (runJob host.env true 0 (.checkFiles none [])
        { torrent := build params [], disk := revoked }) := by
  have hreport : (runJob host.env true 0 (.checkFiles none [])
      { torrent := build params [], disk := revoked }).1 = .checked {} none := by decide +kernel
  refine ⟨hreport, by decide +kernel, fun hcertain => ?_⟩
  have habsent := hcertain.absent {} hreport rfl (fun h => h) 0 ⟨by decide, by decide, by decide⟩
  exact absurd habsent (by decide +kernel)

end Revoked

end Saf
end Libtorrent4j
