import Libtorrent4j.Saf.Blocks
import Libtorrent4j.Saf.Documents

/-!
# What a program does to the documents

Specifications, on the document provider, of the programs the operations are made of: parent
directories, opens, transfers, truncations and copies. Each says what is stored where when
the program returns **and when it stops**, for every scheduled failure; where the outcome
matters it also says what happens when nothing fails.

Nothing here asks anything of the descriptor cache. A program that only adds to the disk is
related to its start by `Disk.Grows`, and so is one that closes what it has itself opened.
-/

namespace Libtorrent4j
namespace Saf

open Lib Lib.Exec

/-- The provider with a choice of descriptor numbers and of hash functions. -/
structure Host where
  picker : FdPicker
  hasher : List Byte → List Byte
  hasher256 : List Byte → List Byte

abbrev Host.env (G : Host) : Env World := provider G.picker G.hasher G.hasher256

/-- What is stored where. -/
def Disk.tree (d : Disk World) : Path → Option (List Byte) := d.world.content

/-- The disk has what it had: names, open descriptors, cache entries; nothing was reused. -/
structure Disk.Grows (d d' : Disk World) : Prop where
  world : d.world.Grows d'.world
  descriptors : d'.descriptors = d.descriptors
  hits : ∀ {fd path w}, Event.reused fd path w ∈ d'.trace → Event.reused fd path w ∈ d.trace

/-- Besides, every document is as it was. -/
structure Disk.Quiet (d d' : Disk World) : Prop extends Disk.Grows d d' where
  tree : d'.tree = d.tree

namespace Disk

variable {d d' d'' : Disk World}

theorem Grows.refl (d : Disk World) : d.Grows d := ⟨World.Grows.refl _, rfl, fun h => h⟩

theorem Grows.trans (h : d.Grows d') (h' : d'.Grows d'') : d.Grows d'' :=
  ⟨h.world.trans h'.world, h'.descriptors.trans h.descriptors, fun hm => h.hits (h'.hits hm)⟩

theorem Quiet.refl (d : Disk World) : d.Quiet d := ⟨Grows.refl d, rfl⟩

theorem Quiet.trans (h : d.Quiet d') (h' : d'.Quiet d'') : d.Quiet d'' :=
  ⟨h.toGrows.trans h'.toGrows, h'.tree.trans h.tree⟩

/-- A call that grows the world grows the disk. -/
theorem grows_note {w : World} (h : d.world.Grows w) {event : Event World}
    (hevent : ∀ fd path w, event ≠ .reused fd path w) : d.Grows (d.note w event) := by
  refine ⟨h, rfl, fun {fd path w} hm => ?_⟩
  rcases List.mem_cons.mp hm with heq | hm
  · exact absurd heq.symm (hevent fd path w)
  · exact hm

theorem quiet_note {w : World} (h : d.world.Grows w) (htree : w.content = d.world.content)
    {event : Event World} (hevent : ∀ fd path w, event ≠ .reused fd path w) :
    d.Quiet (d.note w event) :=
  ⟨grows_note h hevent, htree⟩

/-- Closing a descriptor that was not open at the start leaves the disk grown. -/
theorem Grows.close (h : d.Grows d') {fd : Int} (hfd : d.world.file fd = none) :
    d.Grows (d'.note (d'.world.close fd) (.close fd)) := by
  refine ⟨⟨fun hs => ⟨(h.world.sound hs).inj, (h.world.sound hs).bound⟩, h.world.docs,
    fun {fd' f} hf => ?_, h.world.validate, h.world.willing, h.world.smooth⟩, h.descriptors, ?_⟩
  · have hne : fd' ≠ fd := by rintro rfl; simp [hfd] at hf
    rw [Disk.note_world, World.file_close hne]
    exact h.world.file hf
  · intro fd' path w hm
    rcases List.mem_cons.mp hm with heq | hm
    · cases heq
    · exact h.hits hm

end Disk

/-- A call that only uses up a fault changes nothing. -/
theorem Disk.quiet_call {d : Disk World} {w : World} (h : w = d.world.afterBridge)
    {e : Event World} (he : ∀ fd path w, e ≠ .reused fd path w) :
    d.Quiet (d.note w e) ∧ (d.note w e).world.io = d.world.io := by
  subst h
  exact ⟨Disk.quiet_note d.world.grows_afterBridge rfl he, rfl⟩

variable (G : Host)

/-! ## Directories and opens -/

/-- With a willing bridge only an unsafe path is refused. -/
theorem ensureParentDirectories_spec (path : Path) (file : Int) (d : Disk World) :
    wp (ensureParentDirectories G.env path file)
      (fun _ d' => d.Quiet d' ∧ d'.world.io = d.world.io ∧ safeRelativePath path = true)
      (fun e d' => d.Quiet d' ∧ d'.world.io = d.world.io ∧
        (d.world.Willing → safeRelativePath path = false ∧ e = invalidArgument file .mkdir)) d := by
  rw [ensureParentDirectories, wp_bind, wp_throwIf]
  refine ⟨fun hsafe => ⟨.refl d, rfl, fun _ => ⟨hsafe, rfl⟩⟩, fun hsafe => ?_⟩
  refine wp_forEach_inv (fun d' => d.Quiet d' ∧ d'.world.io = d.world.io) ⟨.refl d, rfl⟩ ?_
    fun d' h => ⟨h.1, h.2, by simpa using hsafe⟩
  intro directory _ d' h
  obtain ⟨hworld, hwilling⟩ := d'.world.createDirectory_spec directory
  have hcall := Disk.quiet_call hworld
    (e := .createDirectory directory (d'.world.createDirectory directory).1) (by simp)
  simp only [callCreateDirectory, wp_bind, wp_ask, wp_throwIf]
  refine ⟨fun herr => ⟨h.1.trans hcall.1, hcall.2.trans h.2, fun hw => ?_⟩,
    fun _ => ⟨h.1.trans hcall.1, hcall.2.trans h.2⟩⟩
  have := hwilling (h.1.world.willing hw)
  change (d'.world.createDirectory directory).1 < 0 ∧ _ at herr
  omega

theorem callOpenFile_spec {F : Type} (path : Path) (mode : Mode) {d : Disk World}
    (hs : d.world.Sound) {Q : Int → Disk World → Prop} {R : F → Disk World → Prop}
    (hopen : ∀ fd d', 0 ≤ fd → d.Grows d' → d'.world.io = d.world.io → d.world.file fd = none →
      d'.world.Refers fd path (decide (mode = .readWrite)) →
        d'.tree = World.touched mode path d.tree →
      (mode = .read → d.tree path ≠ none) → Q fd d')
    (hfail : ∀ (result : Int) d', result < 0 → d.Quiet d' → d'.world.io = d.world.io →
      (result = -enoent → d.tree path = none) →
      (d.world.Willing → mode = .read ∧ d.tree path = none ∧ result = -enoent) → Q result d') :
    wp (callOpenFile G.env path mode) Q R d := by
  rw [callOpenFile, wp_ask]
  rcases World.openFile_spec G.picker path mode hs with
    ⟨hnonneg, hgrows, hrefers, hfresh, htree, hread, hio⟩ | ⟨hneg, hworld, hnone, hwilling⟩
  · exact hopen _ _ hnonneg (Disk.grows_note hgrows (by simp)) hio hfresh hrefers htree hread
  · have hcall := Disk.quiet_call hworld (e := .openFile path mode
      (World.openFile G.picker path mode d.world).1) (by simp)
    exact hfail _ _ hneg hcall.1 hcall.2 hnone hwilling

/-! ## Reading -/

theorem readAnswer_ok {fault : IoFault} {doc bytes : List Byte} {count offset : Nat}
    (h : World.readAnswer fault doc count offset = .ok bytes) :
    ∃ n ≤ count, bytes = Doc.slice doc offset n ∧ (fault.Benign → 0 < count → 0 < n) := by
  cases fault with
  | whole => exact ⟨count, le_rfl, by simpa [World.readAnswer] using h.symm, fun _ h => h⟩
  | short more =>
    exact ⟨min count (more + 1), by omega, by simpa [World.readAnswer] using h.symm, by omega⟩
  | nothing => exact ⟨0, by omega, by simpa [World.readAnswer] using h.symm, nofun⟩
  | interrupted => simp [World.readAnswer] at h
  | fail errno written => simp [World.readAnswer] at h

theorem readAnswer_benign {fault : IoFault} {doc : List Byte} {count offset : Nat} {e : Errno}
    (hf : fault.Benign) (h : World.readAnswer fault doc count offset = .error e) :
    e.code = eintr := by
  cases fault with
  | interrupted =>
    obtain rfl : World.eintrErrno = e := by simpa [World.readAnswer] using h
    rfl
  | whole | short _ => simp [World.readAnswer] at h
  | nothing | fail _ _ => exact absurd hf id

/-- One `pread` through a descriptor of the document at `path`. -/
theorem pread_note {d : Disk World} {fd : Int} {path : Path} {writable : Bool} {doc : List Byte}
    (h : d.world.Refers fd path writable) (hdoc : d.tree path = some doc) (count offset : Nat)
    {answer : Except Errno (List Byte)} {w : World}
    (hcall : G.env.pread fd count offset d.world = (answer, w)) :
    answer = World.readAnswer (d.world.io.headD .whole) doc count offset ∧
      d.Quiet (d.note w (.pread fd)) ∧ w.io = d.world.io.tail := by
  have hspec := World.pread_spec h hdoc count offset
  change d.world.pread fd count offset = _ at hcall
  rw [hspec, Prod.mk.injEq] at hcall
  obtain ⟨rfl, rfl⟩ := hcall
  exact ⟨rfl, Disk.quiet_note d.world.grows_afterIo rfl (by simp), rfl⟩

section Reading

variable {d : Disk World} {fd : Int} {path : Path} {writable : Bool} {doc : List Byte}

/-- The loop of `read_block` delivers the slice, or some first part of it. Smooth transfers
    fall short only at the end of the document. -/
theorem readWhole_spec (h : d.world.Refers fd path writable) (hdoc : d.tree path = some doc)
    (offset size : Nat) (file : Int) (operation : Operation) :
    wp (readWhole G.env fd offset size file operation)
      (fun out d' => d.Quiet d' ∧ out = Doc.slice doc offset size ∧ out.length = size)
      (fun e d' => d.Quiet d' ∧ (∃ n ≤ size, e.1 = Doc.slice doc offset n ∧ e.1.length = n) ∧
        (d.world.Smooth → doc.length < offset + size ∧
          e = (Doc.slice doc offset size, { ec := .eof, file := file, operation := operation })))
      d := by
  suffices key : ∀ remaining out (d' : Disk World), remaining ≤ size → d.Quiet d' →
      out = Doc.slice doc offset (size - remaining) → out.length = size - remaining →
      wp (fun s => readLoop G.env fd offset size file operation remaining out s)
        (fun out d' => d.Quiet d' ∧ out = Doc.slice doc offset size ∧ out.length = size)
        (fun e d' => d.Quiet d' ∧ (∃ n ≤ size, e.1 = Doc.slice doc offset n ∧ e.1.length = n) ∧
          (d.world.Smooth → doc.length < offset + size ∧
            e = (Doc.slice doc offset size, { ec := .eof, file := file, operation := operation })))
        d' from key size [] d le_rfl (.refl d) (by simp) (by simp)
  intro remaining out d' hle hquiet hout hlen
  unfold wp
  beta_reduce
  fun_induction readLoop G.env fd offset size file operation remaining out d' with
  | case1 out d' => exact ⟨hquiet, by simpa using hout, by simpa using hlen⟩
  | case2 remaining out d' hne e w hcall heintr ih =>
    -- interrupted: the same call again
    obtain ⟨-, hcalled, -⟩ := pread_note G (hquiet.world.refers h) (by rw [hquiet.tree]; exact hdoc)
      _ _ hcall
    exact ih hle (hquiet.trans hcalled) hout hlen
  | case3 remaining out d' hne e w hcall heintr =>
    -- any other errno ends the loop
    obtain ⟨hanswer, hcalled, -⟩ := pread_note G (hquiet.world.refers h)
      (by rw [hquiet.tree]; exact hdoc) _ _ hcall
    refine ⟨hquiet.trans hcalled, ⟨size - remaining, by omega, hout, hlen⟩, fun hsmooth => ?_⟩
    exact absurd (readAnswer_benign (hquiet.world.smooth hsmooth).headD hanswer.symm) heintr
  | case4 remaining out d' hne bytes w hcall hempty =>
    -- no byte: the document ends here
    obtain ⟨hanswer, hcalled, -⟩ := pread_note G (hquiet.world.refers h)
      (by rw [hquiet.tree]; exact hdoc) _ _ hcall
    refine ⟨hquiet.trans hcalled, ⟨size - remaining, by omega, hout, hlen⟩, fun hsmooth => ?_⟩
    obtain ⟨n, -, hbytes, hpos⟩ := readAnswer_ok hanswer.symm
    have hn := hpos (hquiet.world.smooth hsmooth).headD (by omega)
    rw [hbytes, Doc.length_slice] at hempty
    refine ⟨by omega, Prod.ext ?_ rfl⟩
    rw [hout]
    exact (Doc.slice_eq_of_short (by omega) (by omega)).symm
  | case5 remaining out d' hne bytes w hcall hne' ih =>
    -- some bytes, and on from where they end
    obtain ⟨hanswer, hcalled, -⟩ := pread_note G (hquiet.world.refers h)
      (by rw [hquiet.tree]; exact hdoc) _ _ hcall
    obtain ⟨n, hn, hbytes, -⟩ := readAnswer_ok hanswer.symm
    have hslice := Doc.length_slice doc (offset + (size - remaining)) n
    rw [← hbytes] at hslice
    have hstep : size - (remaining - bytes.length) = size - remaining + bytes.length := by omega
    refine ih (by omega) (hquiet.trans hcalled) ?_ ?_
    · rw [hout, hstep, ← Doc.slice_append, ← Doc.slice_exact hbytes]
    · rw [List.length_append, hlen, hstep]

/-- One call of the reader is one `pread` of the document. -/
theorem diskReader_call (h : d.world.Refers fd path writable) (hdoc : d.tree path = some doc)
    {count offset : Nat} {answer : Except Nat (List Byte)} {d' : Disk World}
    (hcall : (diskReader G.env fd).call count offset d = (answer, d')) :
    d.Quiet d' ∧ d'.world.io = d.world.io.tail ∧
      answer = (World.readAnswer (d.world.io.headD .whole) doc count offset).mapError
        Errno.code := by
  change ((d.world.pread fd count offset).1.mapError Errno.code,
    d.note (d.world.pread fd count offset).2 (.pread fd)) = _ at hcall
  rw [World.pread_spec h hdoc count offset, Prod.mk.injEq] at hcall
  obtain ⟨rfl, rfl⟩ := hcall
  exact ⟨Disk.quiet_note d.world.grows_afterIo rfl (by simp), rfl, rfl⟩

theorem diskReader_ok (h : d.world.Refers fd path writable) (hdoc : d.tree path = some doc)
    {count offset : Nat} {bytes : List Byte} {d' : Disk World}
    (hcall : (diskReader G.env fd).call count offset d = (.ok bytes, d')) :
    d.Quiet d' ∧ ∃ n ≤ count, bytes = Doc.slice doc offset n ∧
      (d.world.Smooth → 0 < count → 0 < n) := by
  obtain ⟨hquiet, -, hanswer⟩ := diskReader_call G h hdoc hcall
  cases hread : World.readAnswer (d.world.io.headD .whole) doc count offset with
  | error e =>
    rw [hread] at hanswer
    cases hanswer
  | ok bytes' =>
    rw [hread] at hanswer
    cases hanswer
    obtain ⟨n, hn, hbytes, hpos⟩ := readAnswer_ok hread
    exact ⟨hquiet, n, hn, hbytes, fun hs => hpos hs.headD⟩

theorem diskReader_error (h : d.world.Refers fd path writable) (hdoc : d.tree path = some doc)
    {count offset errno : Nat} {d' : Disk World}
    (hcall : (diskReader G.env fd).call count offset d = (.error errno, d')) :
    d.Quiet d' ∧ 0 < errno ∧ (d.world.Smooth → errno = eintr) := by
  obtain ⟨hquiet, -, hanswer⟩ := diskReader_call G h hdoc hcall
  cases hread : World.readAnswer (d.world.io.headD .whole) doc count offset with
  | ok bytes =>
    rw [hread] at hanswer
    cases hanswer
  | error e =>
    rw [hread] at hanswer
    cases hanswer
    exact ⟨hquiet, e.pos, fun hs => readAnswer_benign hs.headD hread⟩

/-- `pread_all` fills the buffer or answers a negative number. -/
theorem preadAll_spec (h : d.world.Refers fd path writable) (hdoc : d.tree path = some doc)
    (size offset : Nat) :
    let r := preadAll (diskReader G.env fd) size offset d
    d.Quiet r.2 ∧
      ((r.1.1 = size ∧ r.1.2 = Doc.slice doc offset size ∧ r.1.2.length = size) ∨
        (r.1.1 < 0 ∧ (d.world.Smooth → doc.length < offset + size ∧ r.1.1 = -(eio : Int)))) := by
  suffices key : ∀ buffer (d' : Disk World), buffer.length ≤ size → d.Quiet d' →
      buffer = Doc.slice doc offset buffer.length →
      let r := preadLoop (diskReader G.env fd) size offset buffer d'
      d.Quiet r.2 ∧
        ((r.1.1 = size ∧ r.1.2 = Doc.slice doc offset size ∧ r.1.2.length = size) ∨
          (r.1.1 < 0 ∧ (d.world.Smooth → doc.length < offset + size ∧ r.1.1 = -(eio : Int)))) from
    key [] d (Nat.zero_le _) (.refl d) (by simp)
  intro buffer d' hle hquiet hbuffer
  dsimp only
  fun_induction preadLoop (diskReader G.env fd) size offset buffer d' with
  | case1 buffer d' hlt d'' hcall ih =>
    -- interrupted: the same call again
    obtain ⟨hquiet', -⟩ := diskReader_error G (hquiet.world.refers h) (hquiet.tree ▸ hdoc) hcall
    exact ih hle (hquiet.trans hquiet') hbuffer
  | case2 buffer d' hlt errno d'' hcall heintr =>
    obtain ⟨hquiet', hpos, hsmooth⟩ :=
      diskReader_error G (hquiet.world.refers h) (hquiet.tree ▸ hdoc) hcall
    refine ⟨hquiet.trans hquiet', Or.inr ⟨?_, fun hs => ?_⟩⟩
    · rw [if_neg hpos.ne']
      dsimp only
      omega
    · exact absurd (hsmooth (hquiet.world.smooth hs)) heintr
  | case3 buffer d' hlt bytes d'' hcall hsize =>
    -- no byte is made an error here too
    obtain ⟨hquiet', n, hn, hbytes, hpos⟩ :=
      diskReader_ok G (hquiet.world.refers h) (hquiet.tree ▸ hdoc) hcall
    refine ⟨hquiet.trans hquiet', Or.inr ⟨by simp [eio], fun hs => ⟨?_, rfl⟩⟩⟩
    have := hpos (hquiet.world.smooth hs) (by omega)
    rw [hbytes, Doc.length_slice] at hsize
    omega
  | case4 buffer d' hlt bytes d'' hcall hsize ih =>
    obtain ⟨hquiet', n, hn, hbytes, -⟩ :=
      diskReader_ok G (hquiet.world.refers h) (hquiet.tree ▸ hdoc) hcall
    refine ih (by rw [List.length_append]; omega) (hquiet.trans hquiet') ?_
    rw [List.length_append, ← Doc.slice_append, ← hbuffer, ← Doc.slice_exact hbytes]
  | case5 buffer d' hge =>
    obtain rfl : size = buffer.length := by omega
    exact ⟨hquiet, Or.inl ⟨rfl, hbuffer, rfl⟩⟩

end Reading

/-! ## Writing -/

theorem writeAnswer_ok {fault : IoFault} {count n : Nat}
    (h : World.writeAnswer fault count = .ok n) :
    n = World.stored fault count ∧ (fault.Benign → 0 < count → 0 < n) := by
  cases fault with
  | whole =>
    obtain rfl : count = n := by simpa [World.writeAnswer] using h
    exact ⟨rfl, fun _ h => h⟩
  | short more =>
    obtain rfl : min count (more + 1) = n := by simpa [World.writeAnswer] using h
    exact ⟨rfl, by omega⟩
  | nothing =>
    obtain rfl : 0 = n := by simpa [World.writeAnswer] using h
    exact ⟨rfl, False.elim⟩
  | interrupted => simp [World.writeAnswer] at h
  | fail errno written => simp [World.writeAnswer] at h

theorem writeAnswer_benign {fault : IoFault} {count : Nat} {e : Errno} (hf : fault.Benign)
    (h : World.writeAnswer fault count = .error e) : e.code = eintr := by
  cases fault with
  | interrupted =>
    obtain rfl : World.eintrErrno = e := by simpa [World.writeAnswer] using h
    rfl
  | whole | short _ => simp [World.writeAnswer] at h
  | nothing | fail _ _ => exact absurd hf id

/-- Only the document at `path` has changed, and it is now `doc`. -/
structure Disk.Puts (d d' : Disk World) (path : Path) (doc : List Byte) : Prop
    extends Disk.Grows d d' where
  tree : d'.tree = Function.update d.tree path (some doc)

section Writing

variable {d d' : Disk World} {fd : Int} {path : Path} {doc doc' : List Byte}

theorem Disk.Puts.trans {d'' : Disk World} (h : d.Puts d' path doc) (h' : d'.Puts d'' path doc') :
    d.Puts d'' path doc' :=
  ⟨h.toGrows.trans h'.toGrows, by rw [h'.tree, h.tree, Function.update_idem]⟩

theorem Disk.Puts.at (h : d.Puts d' path doc) : d'.tree path = some doc := by
  rw [h.tree, Function.update_self]

theorem Disk.Puts.refl (h : d.tree path = some doc) : d.Puts d path doc :=
  ⟨.refl d, by rw [← h, Function.update_eq_self]⟩

/-- One `pwrite` through a descriptor of the document at `path`. -/
theorem pwrite_note (hs : d.world.Sound) (h : d.world.Refers fd path true)
    (hdoc : d.tree path = some doc) (data : List Byte) (offset : Nat)
    {answer : Except Errno Nat} {w : World}
    (hcall : G.env.pwrite fd data offset d.world = (answer, w)) :
    answer = World.writeAnswer (d.world.io.headD .whole) data.length ∧
      w.io = d.world.io.tail ∧
      d.Puts (d.note w (.pwrite fd)) path (Doc.splice doc offset
        (data.take (World.stored (d.world.io.headD .whole) data.length))) := by
  obtain ⟨hanswer, hgrows, hio, hcontent⟩ := World.pwrite_spec hs h hdoc data offset
  change d.world.pwrite fd data offset = _ at hcall
  rw [hcall] at hanswer hgrows hio hcontent
  exact ⟨hanswer, hio, Disk.grows_note hgrows (by simp), hcontent⟩

/-- Where a writing loop stands: `done` bytes count as written, and `data` is there at least
    that far. A failing `pwrite` may have stored more than it told. -/
def Written (d d' : Disk World) (path : Path) (doc : List Byte) (offset : Nat) (data : List Byte)
    (done : Nat) : Prop :=
  ∃ n, done ≤ n ∧ n ≤ data.length ∧ d.Puts d' path (Doc.splice doc offset (data.take n))

/-- One more `pwrite` of a writing loop. -/
theorem Written.step {offset done : Nat} {data : List Byte} (hs : d.world.Sound)
    (h : d.world.Refers fd path true) (hd : Written d d' path doc offset data done)
    {answer : Except Errno Nat} {w : World}
    (hcall : G.env.pwrite fd (data.drop done) (offset + done) d'.world = (answer, w)) :
    Written d (d'.note w (.pwrite fd)) path doc offset data done ∧
      (∀ count, answer = .ok count →
        count ≤ data.length - done ∧
        Written d (d'.note w (.pwrite fd)) path doc offset data (done + count) ∧
        (d.world.Smooth → done < data.length → 0 < count)) ∧
      ∀ e, answer = .error e → d.world.Smooth → e.code = eintr := by
  obtain ⟨n, hdone, hn, hputs⟩ := hd
  obtain ⟨hanswer, -, hputs'⟩ := pwrite_note G (hputs.world.sound hs) (hputs.world.refers h)
    hputs.at _ _ hcall
  have hall := hputs.trans hputs'
  rw [Doc.splice_again hdone hn] at hall
  have hstored := World.stored_le (d'.world.io.headD .whole) (data.drop done).length
  rw [List.length_drop] at hstored hanswer hall
  refine ⟨⟨_, by omega, by omega, hall⟩, fun count hok => ?_, fun e herr hsmooth => ?_⟩
  · rw [hok] at hanswer
    obtain ⟨rfl, hpos⟩ := writeAnswer_ok hanswer.symm
    refine ⟨hstored, ⟨_, by omega, by omega, hall⟩, fun hsmooth hlt => ?_⟩
    exact hpos (hputs.world.smooth hsmooth).headD (by omega)
  · rw [herr] at hanswer
    exact writeAnswer_benign (hputs.world.smooth hsmooth).headD hanswer.symm

theorem Written.whole {offset : Nat} {data : List Byte}
    (h : Written d d' path doc offset data data.length) :
    d.Puts d' path (Doc.splice doc offset data) := by
  obtain ⟨n, hdone, hn, hputs⟩ := h
  rwa [List.take_of_length_le hdone] at hputs

/-- Some first part of the data is written. -/
theorem Written.part {offset done : Nat} {data : List Byte}
    (h : Written d d' path doc offset data done) :
    ∃ n ≤ data.length, d.Puts d' path (Doc.splice doc offset (data.take n)) := by
  obtain ⟨n, -, hn, hputs⟩ := h
  exact ⟨n, hn, hputs⟩

/-- The loop of `write_block` writes the data, or some first part of it; smooth transfers
    write all. -/
theorem writeWhole_spec (hs : d.world.Sound) (h : d.world.Refers fd path true)
    (hdoc : d.tree path = some doc) (fileOffset size : Nat) (file : Int) (operation : Operation)
    {data : List Byte} (hsize : data.length ≤ size) :
    wp (writeWhole G.env fd fileOffset size file operation data)
      (fun _ d' => d.Puts d' path (Doc.splice doc (fileOffset + (size - data.length)) data))
      (fun _ d' => (∃ n ≤ data.length, d.Puts d' path
          (Doc.splice doc (fileOffset + (size - data.length)) (data.take n))) ∧ ¬ d.world.Smooth)
      d := by
  set offset := fileOffset + (size - data.length) with hoffset
  -- the invariant: the first `done` bytes have been written, and nothing else
  suffices key : ∀ left (d' : Disk World) done, left = data.drop done → done ≤ data.length →
      Written d d' path doc offset data done →
      wp (fun s => writeLoop G.env fd fileOffset size file operation left s)
        (fun _ d' => d.Puts d' path (Doc.splice doc offset data))
        (fun _ d' => (∃ n ≤ data.length, d.Puts d' path (Doc.splice doc offset (data.take n))) ∧
          ¬ d.world.Smooth) d' from
    key data d 0 (by simp) (Nat.zero_le _) ⟨0, le_rfl, Nat.zero_le _, by simpa using .refl hdoc⟩
  intro left d' done hleft hle hwritten
  have hat : ∀ {left : List Byte} {done}, left = data.drop done → done ≤ data.length →
      fileOffset + (size - left.length) = offset + done := by
    rintro _ done rfl hle
    rw [List.length_drop]
    omega
  unfold wp
  beta_reduce
  fun_induction writeLoop G.env fd fileOffset size file operation left d' generalizing done with
  | case1 left d' hempty =>
    obtain rfl : done = data.length := by
      rw [hleft, List.length_drop] at hempty
      omega
    exact hwritten.whole
  | case2 left d' hne e w hcall heintr ih =>
    rw [hat hleft hle] at hcall
    subst hleft
    exact ih done rfl hle (hwritten.step G hs h hcall).1
  | case3 left d' hne e w hcall heintr =>
    rw [hat hleft hle] at hcall
    subst hleft
    obtain ⟨hstill, -, herr⟩ := hwritten.step G hs h hcall
    exact ⟨hstill.part, fun hsmooth => heintr (herr e rfl hsmooth)⟩
  | case4 left d' hne w hcall =>
    -- a call that stores nothing is an error, so the loop ends
    rw [hat hleft hle] at hcall
    subst hleft
    obtain ⟨hstill, hok, -⟩ := hwritten.step G hs h hcall
    rw [List.length_drop] at hne
    exact ⟨hstill.part, fun hsmooth => absurd ((hok 0 rfl).2.2 hsmooth (by omega)) (by omega)⟩
  | case5 left d' hne count w hcall hne' ih =>
    rw [hat hleft hle] at hcall
    subst hleft
    obtain ⟨-, hok, -⟩ := hwritten.step G hs h hcall
    obtain ⟨hcount, hmore, -⟩ := hok count rfl
    exact ih (done + count) (by rw [List.drop_drop]) (by omega) hmore

/-- `pwrite_all` writes all, or a first part and answers a negative number. -/
theorem pwriteAll_spec (hs : d.world.Sound) (h : d.world.Refers fd path true)
    (hdoc : d.tree path = some doc) (data : List Byte) (offset : Nat) :
    let r := pwriteAll (diskWriter G.env fd) data offset d
    (0 ≤ r.1 ∧ d.Puts r.2 path (Doc.splice doc offset data)) ∨
      (r.1 < 0 ∧ (∃ n ≤ data.length, d.Puts r.2 path (Doc.splice doc offset (data.take n))) ∧
        ¬ d.world.Smooth) := by
  suffices key : ∀ done (d' : Disk World), done ≤ data.length →
      Written d d' path doc offset data done →
      let r := pwriteLoop (diskWriter G.env fd) data offset done d'
      (0 ≤ r.1 ∧ d.Puts r.2 path (Doc.splice doc offset data)) ∨
        (r.1 < 0 ∧ (∃ n ≤ data.length, d.Puts r.2 path (Doc.splice doc offset (data.take n))) ∧
          ¬ d.world.Smooth) from
    key 0 d (Nat.zero_le _) ⟨0, le_rfl, Nat.zero_le _, by simpa using .refl hdoc⟩
  intro done d' hle hwritten
  dsimp only
  -- one call of the writer is one `pwrite`
  have hone : ∀ {d' d'' : Disk World} {done} {answer : Except Nat Nat},
      (diskWriter G.env fd).call (data.drop done) (offset + done) d' = (answer, d'') →
      ∃ answer' w, G.env.pwrite fd (data.drop done) (offset + done) d'.world = (answer', w) ∧
        answer = answer'.mapError Errno.code ∧ d'' = d'.note w (.pwrite fd) := by
    intro d' d'' done answer hcall
    rw [diskWriter, Prod.mk.injEq] at hcall
    exact ⟨_, _, rfl, hcall.1.symm, hcall.2.symm⟩
  fun_induction pwriteLoop (diskWriter G.env fd) data offset done d' with
  | case1 done d' hlt d'' hcall ih =>
    obtain ⟨answer', w, hcall', -, rfl⟩ := hone hcall
    exact ih hle (hwritten.step G hs h hcall').1
  | case2 done d' hlt errno d'' hcall heintr =>
    obtain ⟨answer', w, hcall', hanswer, rfl⟩ := hone hcall
    obtain ⟨hstill, -, herr⟩ := hwritten.step G hs h hcall'
    cases answer' with
    | ok count => cases hanswer
    | error e =>
      cases hanswer
      have hpos := e.pos
      refine Or.inr ⟨?_, hstill.part, fun hsmooth => heintr (herr e rfl hsmooth)⟩
      rw [if_neg hpos.ne']
      dsimp only
      omega
  | case3 done d' hlt count d'' hcall hsize =>
    obtain ⟨answer', w, hcall', hanswer, rfl⟩ := hone hcall
    obtain ⟨hstill, hok, -⟩ := hwritten.step G hs h hcall'
    cases answer' with
    | error e => cases hanswer
    | ok count' =>
      cases hanswer
      obtain ⟨hcount, -, hpos⟩ := hok count rfl
      refine Or.inr ⟨by simp [eio], hstill.part, fun hsmooth => ?_⟩
      have := hpos hsmooth hlt
      omega
  | case4 done d' hlt count d'' hcall hsize ih =>
    obtain ⟨answer', w, hcall', hanswer, rfl⟩ := hone hcall
    obtain ⟨-, hok, -⟩ := hwritten.step G hs h hcall'
    cases answer' with
    | error e => cases hanswer
    | ok count' =>
      cases hanswer
      obtain ⟨hcount, hmore, -⟩ := hok count rfl
      exact ih (by omega) hmore
  | case5 done d' hge =>
    obtain rfl : done = data.length := by omega
    exact Or.inl ⟨Int.natCast_nonneg _, hwritten.whole⟩

end Writing

/-! ## Removing and renaming -/

/-- The document at `path` has been removed. -/
structure Disk.Unlinks (d d' : Disk World) (path : Path) : Prop where
  world : d'.world = d.world.afterBridge.unlink path
  descriptors : d'.descriptors = d.descriptors
  hits : ∀ {fd path w}, Event.reused fd path w ∈ d'.trace → Event.reused fd path w ∈ d.trace

/-- The document at `old` has been given the name `new`. -/
structure Disk.Relinks (d d' : Disk World) (old new : Path) : Prop where
  world : ∃ node, d.world.docs old = some node ∧ d'.world = d.world.afterBridge.relink old new node
  descriptors : d'.descriptors = d.descriptors
  hits : ∀ {fd path w}, Event.reused fd path w ∈ d'.trace → Event.reused fd path w ∈ d.trace

theorem Disk.Unlinks.tree {d d' : Disk World} {path : Path} (h : d.Unlinks d' path) :
    d'.tree = Function.update d.tree path none := by
  rw [Disk.tree, h.world, World.content_unlink]
  rfl

theorem Disk.Relinks.tree {d d' : Disk World} {old new : Path} (h : d.Relinks d' old new) :
    d'.tree = Function.update (Function.update d.tree old none) new (d.tree old) := by
  obtain ⟨node, hold, hworld⟩ := h.world
  rw [Disk.tree, hworld, World.content_relink (by exact hold)]
  rfl

theorem callRemove_spec {F : Type} (path : Path) (recursive : Bool) {d : Disk World}
    {Q : Int → Disk World → Prop} {R : F → Disk World → Prop}
    (hgone : ∀ d', d.Unlinks d' path → d'.world.io = d.world.io → d.tree path ≠ none → Q 0 d')
    (hfail : ∀ (result : Int) d', result < 0 → d.Quiet d' → d'.world.io = d.world.io →
      (result = -enoent → d.tree path = none) →
      (d.world.Willing → d.tree path = none ∧ result = -enoent) → Q result d') :
    wp (callRemove G.env path recursive) Q R d := by
  rw [callRemove, wp_ask]
  rcases World.remove_spec path recursive d.world with
    ⟨hzero, hsome, hworld⟩ | ⟨hneg, hworld, hnone, hwilling⟩
  · change Q (d.world.remove path recursive).1 (d.note (d.world.remove path recursive).2 _)
    rw [hzero]
    refine hgone _ ⟨hworld, rfl, fun hm => ?_⟩ (by rw [Disk.note_world, hworld]; rfl)
      fun hnone => ?_
    · rcases List.mem_cons.mp hm with heq | hm
      · cases heq
      · exact hm
    · rw [World.content_eq_none.mp hnone] at hsome
      cases hsome
  · have hcall := Disk.quiet_call hworld (e := .remove path recursive
      (d.world.remove path recursive).1) (by simp)
    exact hfail _ _ hneg hcall.1 hcall.2 (fun h => World.content_eq_none.mpr (hnone h))
      fun h => ⟨World.content_eq_none.mpr (hwilling h).1, (hwilling h).2⟩

theorem callRename_spec {F : Type} (old new : Path) {d : Disk World}
    {Q : Int → Disk World → Prop} {R : F → Disk World → Prop}
    (hmoved : ∀ d', d.Relinks d' old new → d'.world.io = d.world.io → d.tree old ≠ none → Q 0 d')
    (hfail : ∀ (result : Int) d', result < 0 → d.Quiet d' → d'.world.io = d.world.io →
      (d.world.Willing → d.tree old = none ∧ result = -enoent) → Q result d') :
    wp (callRename G.env old new) Q R d := by
  rw [callRename, wp_ask]
  rcases World.rename_spec old new d.world with
    ⟨node, hzero, hold, hworld⟩ | ⟨hneg, hworld, hwilling⟩
  · change Q (d.world.rename old new).1 (d.note (d.world.rename old new).2 _)
    rw [hzero]
    refine hmoved _ ⟨⟨node, hold, hworld⟩, rfl, fun hm => ?_⟩
      (by rw [Disk.note_world, hworld]; rfl) fun hnone => ?_
    · rcases List.mem_cons.mp hm with heq | hm
      · cases heq
      · exact hm
    · rw [World.content_eq_none.mp hnone] at hold
      cases hold
  · have hcall := Disk.quiet_call hworld (e := .rename old new
      (d.world.rename old new).1) (by simp)
    exact hfail _ _ hneg hcall.1 hcall.2
      fun h => ⟨World.content_eq_none.mpr (hwilling h).1, (hwilling h).2⟩

/-! ## Questions -/

theorem callFileSize_spec {F : Type} (path : Path) {d : Disk World}
    {Q : Int → Disk World → Prop} {R : F → Disk World → Prop}
    (hsize : ∀ (size : Int) d', d.Quiet d' → d'.world.io = d.world.io →
      (0 ≤ size → size = World.sizeAnswer (d.tree path)) → (size = -enoent → d.tree path = none) →
      (d.world.Willing → size = World.sizeAnswer (d.tree path)) → Q size d') :
    wp (callFileSize G.env path) Q R d := by
  rw [callFileSize, wp_ask]
  obtain ⟨hworld, hwilling, hnonneg, hnone⟩ := World.fileSize_spec path d.world
  have hcall := Disk.quiet_call hworld (e := .fileSize path (d.world.fileSize path).1) (by simp)
  exact hsize _ _ hcall.1 hcall.2 hnonneg hnone hwilling

theorem callValidatePath_spec {F : Type} (path : Path) {d : Disk World}
    {Q : Int → Disk World → Prop} {R : F → Disk World → Prop}
    (hvalid : ∀ (result : Int) d', d.Quiet d' → d'.world.io = d.world.io →
      (d.world.Willing → result = d.world.validate path) →
      (0 ≤ result → result = d.world.validate path) → Q result d') :
    wp (callValidatePath G.env path) Q R d := by
  rw [callValidatePath, wp_ask]
  obtain ⟨hworld, hwilling, hnonneg⟩ := World.validatePath_spec path d.world
  have hcall := Disk.quiet_call hworld
    (e := .validatePath path (d.world.validatePath path).1) (by simp)
  exact hvalid _ _ hcall.1 hcall.2 hwilling hnonneg

end Saf
end Libtorrent4j
