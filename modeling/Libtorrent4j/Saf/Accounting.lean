import Libtorrent4j.Lib.Ledger
import Libtorrent4j.Saf.Log
import Libtorrent4j.Saf.Provider

/-!
# Descriptor accounting

Who owns which descriptor. The log of calls is read as a ledger: `open_file` acquires what
it answers, `pread`, `pwrite` and `ftruncate` use, `close` releases. `Owns S d` says that
what is held is exactly the descriptors of the cache and those of `S`, the scoped ones of
the operation in progress.

**Every function of the backend is specified by what it does to `S`**: a bridge open adds
its answer, a destructor takes one away, everything else leaves `S` alone. Between two jobs
`S` is empty, which is `descriptors_accounted`.
-/

namespace Libtorrent4j
namespace Saf

open Lib Lib.Exec Lib.Ledger

variable {W F α : Type}

/-! ## The books

The log says what happened, the ledger what it means for the descriptors, and the books which of
them are held after it. A bridge may answer a number that is held already: then it is held
twice. -/

/-- What an event means for the descriptor it is about. -/
def Event.ledgerEntry : Event W → Option (LedgerEntry Int)
  | .openFile _ _ result => if 0 ≤ result then some (.acquire result) else none
  | .pread descriptor | .pwrite descriptor | .ftruncate descriptor => some (.use descriptor)
  | .close descriptor => some (.release descriptor)
  | _ => none

/-- The calls about descriptors, in the order of the log: the newest first. -/
def ledger (trace : List (Event W)) : List (LedgerEntry Int) := trace.filterMap Event.ledgerEntry

/-- Every entry added to the cache found room within the limit of its moment. -/
def StoredWithin (trace : List (Event W)) : Prop :=
  ∀ entries limit, Event.stored entries limit ∈ trace → entries ≤ limit

/-- Exactly the descriptors `L` are held. -/
structure Books (L : List Int) (trace : List (Event W)) : Prop where
  holds : Holds L (ledger trace)
  stored : StoredWithin trace

/-- The descriptors of the cache, in its order. -/
def Disk.cached (d : Disk W) : List Int := d.descriptors.map (·.descriptor)

/-- Held are the descriptors of the cache and the scoped ones `S`. -/
def Owns (S : List Int) (d : Disk W) : Prop := Books (d.cached ++ S) d.trace

/-- Only an entry that is put into the cache has to be looked at. -/
theorem StoredWithin.cons {trace : List (Event W)} (h : StoredWithin trace) {event : Event W}
    (he : ∀ entries limit, event = .stored entries limit → entries ≤ limit) :
    StoredWithin (event :: trace) := by
  intro entries limit hmem
  rcases List.mem_cons.mp hmem with heq | hmem
  · exact he entries limit heq.symm
  · exact h entries limit hmem

namespace Books

variable {L L' : List Int} {trace : List (Event W)}

theorem perm (h : Books L trace) (hL : L.Perm L') : Books L' trace := ⟨h.holds.perm hL, h.stored⟩

/-- An event that is about no descriptor. -/
theorem other (h : Books L trace) {event : Event W} (he : event.ledgerEntry = none)
    (hs : ∀ entries limit, event = .stored entries limit → entries ≤ limit) :
    Books L (event :: trace) :=
  ⟨by simpa [ledger, he] using h.holds, h.stored.cons hs⟩

theorem use (h : Books L trace) {event : Event W} {descriptor : Int}
    (he : event.ledgerEntry = some (.use descriptor)) (hr : descriptor ∈ L) :
    Books L (event :: trace) := by
  refine ⟨by simpa [ledger, he] using h.holds.use hr, h.stored.cons ?_⟩
  rintro _ _ rfl
  simp [Event.ledgerEntry] at he

/-- The descriptor has to be held, and is not any more afterwards. -/
theorem close {descriptor : Int} (h : Books (descriptor :: L) trace) :
    Books L (.close descriptor :: trace) :=
  ⟨by simpa [ledger, Event.ledgerEntry] using h.holds.release, h.stored.cons (by simp)⟩

/-- What the bridge answers is new to the books even when the number is held already: the
    ledger counts how often each is held. -/
theorem opened (h : Books L trace) (path : Path) (mode : Mode) {result : Int}
    (hr : 0 ≤ result) : Books (result :: L) (.openFile path mode result :: trace) :=
  ⟨by simpa [ledger, Event.ledgerEntry, hr] using h.holds.acquire result, h.stored.cons (by simp)⟩

theorem notOpened (h : Books L trace) (path : Path) (mode : Mode) {result : Int}
    (hr : result < 0) : Books L (.openFile path mode result :: trace) :=
  h.other (by simp [Event.ledgerEntry]; omega) (by simp)

end Books

/-- Nobody asks in which order the scopes own what they own. -/
theorem Owns.perm {S S' : List Int} {d : Disk W} (h : Owns S d) (hS : S.Perm S') : Owns S' d :=
  Books.perm h (hS.append_left _)

/-! ## Calls

What one call of the bridge or one scope does to the books. -/

variable (E : Env W)

/-- A descriptor a scope owns: none when the open failed. -/
def owning (descriptor : Int) (S : List Int) : List Int :=
  if 0 ≤ descriptor then descriptor :: S else S

/-- A call that neither opens, closes nor uses anything. -/
theorem keepsOwns_ask {S : List Int} {call : W → α × W} {event : α → Event W}
    (he : ∀ a, (event a).ledgerEntry = none)
    (hs : ∀ a entries limit, event a ≠ .stored entries limit) :
    Keeps (Owns S) (ask call event : Exec (Disk W) F α) :=
  fun _ hd => Books.other hd (he _) fun _ _ h => absurd h (hs _ _ _)

theorem keepsOwns_createDirectory {S : List Int} (path : Path) :
    Keeps (Owns S) (callCreateDirectory E path : Exec (Disk W) F Int) :=
  keepsOwns_ask (by simp [Event.ledgerEntry]) (by simp)

theorem keepsOwns_fileSize {S : List Int} (path : Path) :
    Keeps (Owns S) (callFileSize E path : Exec (Disk W) F Int) :=
  keepsOwns_ask (by simp [Event.ledgerEntry]) (by simp)

theorem keepsOwns_remove {S : List Int} (path : Path) (recursive : Bool) :
    Keeps (Owns S) (callRemove E path recursive : Exec (Disk W) F Int) :=
  keepsOwns_ask (by simp [Event.ledgerEntry]) (by simp)

theorem keepsOwns_rename {S : List Int} (old new : Path) :
    Keeps (Owns S) (callRename E old new : Exec (Disk W) F Int) :=
  keepsOwns_ask (by simp [Event.ledgerEntry]) (by simp)

theorem keepsOwns_validatePath {S : List Int} (path : Path) :
    Keeps (Owns S) (callValidatePath E path : Exec (Disk W) F Int) :=
  keepsOwns_ask (by simp [Event.ledgerEntry]) (by simp)

/-- An open adds what it answers to the owning descriptors. -/
theorem callOpenFile_owns {S : List Int} (path : Path) (mode : Mode) {d : Disk W}
    (h : Owns S d) {R : F → Disk W → Prop} :
    wp (callOpenFile E path mode : Exec (Disk W) F Int)
      (fun result d' => Owns (owning result S) d' ∧ d'.descriptors = d.descriptors ∧
        d'.limit = d.limit) R d := by
  simp only [callOpenFile, wp_ask]
  refine ⟨?_, rfl, rfl⟩
  generalize (E.openFile path mode d.world).1 = result
  unfold owning
  split
  · rename_i hr
    exact Books.perm (Books.opened h path mode hr) List.perm_middle.symm
  · rename_i hr
    exact Books.notOpened h path mode (by omega)

/-- The destructor closes what it owns, and nothing if the open had failed. -/
theorem resetScoped_owns {S : List Int} {descriptor : Int} {d : Disk W}
    (h : Owns (owning descriptor S) d) :
    Owns S ((resetScoped E descriptor : Exec (Disk W) F Unit) d).2 := by
  unfold owning at h
  unfold resetScoped
  split at h
  · rename_i hr
    rw [if_pos hr]
    exact Books.close (Books.perm h List.perm_middle)
  · rename_i hr
    rw [if_neg hr]
    exact h

/-- A scope closes what it owns, however its block is left. -/
theorem withScoped_owns {S : List Int} {descriptor : Int} {block : Exec (Disk W) F α}
    {d : Disk W} (hblock : Keeps (Owns (owning descriptor S)) block)
    (h : Owns (owning descriptor S) d) : Owns S (withScoped E descriptor block d).2 :=
  resetScoped_owns E (hblock d h)

/-- A transfer uses a descriptor that is held. -/
theorem owns_use {S : List Int} {descriptor : Int} {event : Event W}
    (he : event.ledgerEntry = some (.use descriptor)) (hmem : descriptor ∈ S) (w : W) (d : Disk W)
    (h : Owns S d) : Owns S (d.note w event) :=
  Books.use h he (List.mem_append_right _ hmem)

theorem keepsOwns_ensureParentDirectories {S : List Int} (path : Path) (file : Int) :
    Keeps (Owns S) (ensureParentDirectories E path file) :=
  keeps_bind (keeps_throwIf _) fun _ => keeps_forEach fun _ _ =>
    keeps_bind (keepsOwns_createDirectory E _) fun _ => keeps_throwIf _

/-! ## The descriptor cache

The cache owns what its entries carry. An entry that leaves it is closed in the same breath, so
that at no moment a descriptor is held by nobody or listed by two. -/

/-- Closing a list of entries releases their descriptors and leaves the list alone. -/
theorem closeEntries_books (entries : List OpenDescriptor) {L : List Int} {d : Disk W}
    (h : Books (entries.map (·.descriptor) ++ L) d.trace) :
    wp (forEach entries fun entry => callClose E entry.descriptor : Exec (Disk W) F Unit)
      (fun _ d' => Books L d'.trace ∧ d'.descriptors = d.descriptors) (fun _ _ => False) d := by
  induction entries generalizing d with
  | nil => exact ⟨h, rfl⟩
  | cons entry rest ih =>
    simp only [forEach, callClose, wp_andThen, wp_ask]
    exact ih (Books.close h)

/-- The entries that go have their descriptors closed, once each; the others stay held. -/
theorem closeWhere_owns (p : OpenDescriptor → Bool) {S : List Int} {d : Disk W} (h : Owns S d) :
    wp (closeWhere E p : Exec (Disk W) F Unit)
      (fun _ d' => Owns S d' ∧ d'.descriptors = d.descriptors.filter fun entry => !p entry)
      (fun _ _ => False) d := by
  simp only [closeWhere, wp_bind, wp_get, wp_modify]
  have hsplit : (d.cached ++ S).Perm ((d.descriptors.filter p).map (·.descriptor) ++
      ((d.descriptors.filter fun entry => !p entry).map (·.descriptor) ++ S)) := by
    rw [← List.append_assoc, ← List.map_append]
    exact ((List.filter_append_perm p d.descriptors).map _).symm.append_right S
  refine wp_mono (closeEntries_books E _ (Books.perm h hsplit)) ?_ fun _ _ h => h
  rintro _ d' ⟨hbooks, hsame⟩
  rw [hsame]
  exact ⟨hbooks, rfl⟩

theorem keepsOwns_closeWhere (p : OpenDescriptor → Bool) {S : List Int} :
    Keeps (Owns S) (closeWhere E p : Exec (Disk W) F Unit) :=
  keeps_iff.mpr fun _ hd =>
    wp_mono (closeWhere_owns E p hd) (fun _ _ h => h.1) fun _ _ h => h.elim

/-- The oldest entry's descriptor is closed, and the entry is gone with it. -/
theorem evictOne_owns {S : List Int} {d : Disk W} (h : Owns S d) :
    wp (evictOne E : Exec (Disk W) F Unit)
      (fun _ d' => Owns S d' ∧ d'.descriptors.length = d.descriptors.length - 1 ∧
        d'.limit = d.limit)
      (fun _ _ => False) d := by
  simp only [evictOne, wp_bind, wp_get]
  split
  · rename_i hnone
    simp only [wp_ret, oldest_eq_none hnone, List.length_nil]
    exact ⟨h, trivial, trivial⟩
  · rename_i entry hsome
    have hmem := mem_of_oldest hsome
    simp only [callClose, wp_bind, wp_ask, wp_modify, Disk.note_descriptors, Disk.note_limit]
    refine ⟨?_, List.length_erase_of_mem hmem, trivial⟩
    have hsplit : (d.cached ++ S).Perm
        (entry.descriptor :: ((d.descriptors.erase entry).map (·.descriptor) ++ S)) :=
      ((List.perm_cons_erase hmem).map _).append_right S
    exact Books.close (Books.perm h hsplit)

/-- After as many turns as there are entries the cache is below its limit. -/
theorem evictToLimit_owns (turns : Nat) {S : List Int} {d : Disk W} (h : Owns S d)
    (hturns : d.descriptors.length ≤ turns) :
    wp (evictToLimit E turns : Exec (Disk W) F Unit)
      (fun _ d' => Owns S d' ∧ d'.descriptors.length < d'.limit) (fun _ _ => False) d := by
  induction turns generalizing d with
  | zero =>
    have := d.limit_pos
    exact ⟨h, by omega⟩
  | succ turns ih =>
    simp only [evictToLimit, wp_bind, wp_get]
    rw [wp_ite]
    refine ⟨fun hfull => ?_, fun hroom => ⟨h, by omega⟩⟩
    rw [wp_bind]
    refine wp_mono (evictOne_owns E h) ?_ fun _ _ h => h
    rintro _ d' ⟨hd', hlen, -⟩
    exact ih hd' (by omega)

/-- An open through the cache hands out a descriptor the cache owns. -/
def Hands (S : List Int) (m : Exec (Disk W) StorageError Int) : Prop :=
  ∀ d, Owns S d →
    wp m (fun descriptor d' => Owns S d' ∧ descriptor ∈ d'.cached) (fun _ => Owns S) d

/-- When the bridge refuses, what has been evicted is closed already and nothing else is held. -/
theorem openAndStore_owns (storage : Nat) (file : Int) (path : Path) (write : Bool)
    (operation : Operation) (S : List Int) :
    Hands S (openAndStore E storage file path write operation) := by
  intro d h
  simp only [openAndStore, wp_bind, wp_throwIf, wp_get]
  refine ⟨fun _ => h, fun _ => ?_⟩
  refine wp_mono (evictToLimit_owns E _ h le_rfl) ?_ fun _ _ h => h.elim
  rintro _ d₁ ⟨hd₁, hroom⟩
  refine wp_mono (callOpenFile_owns E path _ hd₁) ?_ fun _ _ h => h
  rintro result d₂ ⟨hd₂, hsame, hlimit⟩
  refine ⟨fun hr => ?_, fun hr => ?_⟩
  · simpa [owning, show ¬ 0 ≤ result by omega] using hd₂
  · simp only [wp_modify, wp_ret]
    refine ⟨Books.other (Books.perm hd₂ ?_) rfl ?_, by simp [Disk.cached]⟩
    · simp only [Disk.cached, owning, show 0 ≤ result by omega, if_true, List.map_append,
        List.map_cons, List.map_nil, List.append_assoc, List.singleton_append]
      exact .refl _
    · intro entries limit heq
      rw [hsame, hlimit] at heq
      cases heq
      omega

theorem openUncached_owns (storage : Nat) (file : Int) (path : Path) (write : Bool)
    (operation : Operation) (S : List Int) :
    Hands S (openUncached E storage file path write operation) := by
  intro d h
  unfold openUncached
  split
  · rw [wp_bind]
    refine wp_mono ((keepsOwns_ensureParentDirectories E path file).wp h) ?_ fun _ _ h => h
    exact fun _ d' hd' => openAndStore_owns E storage file path _ operation S d' hd'
  · exact openAndStore_owns E storage file path _ operation S d h

/-- **`open_file`**: also when it closes a read-only descriptor and the reopening fails. -/
theorem openFile_owns (reuse : Bool) (storage : Nat) (file : Int) (path : Path) (write : Bool)
    (operation : Operation) (S : List Int) :
    Hands S (openFile E reuse storage file path write operation) := by
  intro d h
  simp only [openFile, wp_bind, wp_get]
  split
  · exact openUncached_owns E storage file path write operation S d h
  · rename_i entry hfound
    have hfind : d.descriptors.find? (·.isFor storage file path) = some entry := by
      cases reuse
      · simp at hfound
      · simpa using hfound
    rw [wp_ite]
    refine ⟨fun _ => ?_, fun _ => ?_⟩
    -- a hit moves the entry and leaves the descriptors what they are
    · simp only [wp_bind, wp_modify, wp_ret]
      have hsame : (touchFirst (·.isFor storage file path) (d.useCounter + 1)
          d.descriptors).map (·.descriptor) = d.cached := by
        rw [map_descriptor_touchFirst]; rfl
      refine ⟨?_, ?_⟩
      · unfold Owns Disk.cached
        rw [hsame]
        exact Books.other h rfl (by simp)
      · unfold Disk.cached
        rw [hsame]
        exact List.mem_map_of_mem (List.mem_of_find?_eq_some hfind)
    · simp only [callClose, wp_bind, wp_ask, wp_modify]
      refine openUncached_owns E storage file path write operation S _ ?_
      have hsplit : (d.cached ++ S).Perm (entry.descriptor ::
          ((d.descriptors.eraseP (·.isFor storage file path)).map (·.descriptor) ++ S)) :=
        ((perm_eraseP_of_find? hfind).map _).append_right S
      exact Books.close (Books.perm h hsplit)

/-! ## Blocks and copies

Blocks go through the cache, copies and migrations through scopes of their own. -/

variable (reuse : Bool) (t : TorrentStorage) (storage : Nat)

/-- While the cache owns a descriptor, it may be used. -/
theorem cached_use {S : List Int} {descriptor : Int} {event : Event W}
    (he : event.ledgerEntry = some (.use descriptor)) (w : W) (d : Disk W)
    (h : Owns S d ∧ descriptor ∈ d.cached) :
    Owns S (d.note w event) ∧ descriptor ∈ (d.note w event).cached :=
  ⟨Books.use h.1 he (List.mem_append_left _ h.2), h.2⟩

/-- Every slice fetches its descriptor from the cache anew, for the next open may evict the
    last. -/
theorem keepsOwns_readBlock (request : Request) {S : List Int} :
    Keeps (Owns S) (readBlock E reuse t storage request) := by
  suffices key : ∀ slices out, Keeps (Owns S) (readSlices E reuse t storage slices out) from
    key _ _
  intro slices
  induction slices with
  | nil => exact fun out => keeps_ret _
  | cons slice rest ih =>
    refine fun out => keeps_ite (fun _ => ih _) fun _ => ?_
    refine keeps_bind (keeps_mapError (keeps_iff.mpr fun d hd => ?_)) fun bytes => ih _
    simp only [readSlice, wp_bind, wp_mapError]
    refine wp_mono (openFile_owns E reuse _ _ _ _ _ S d hd) ?_ fun _ _ h => h
    intro descriptor d' hd'
    exact wp_mono ((keeps_readWhole E (cached_use rfl) _ _ _ _).wp hd') (fun _ _ h => h.1)
      fun _ _ h => h.1

theorem keepsOwns_writeBlock (request : Request) (input : List Byte) {S : List Int} :
    Keeps (Owns S) (writeBlock E reuse t storage request input) := by
  suffices key : ∀ slices input, Keeps (Owns S) (writeSlices E reuse t storage slices input) from
    key _ _
  intro slices
  induction slices with
  | nil => exact fun input => keeps_ret _
  | cons slice rest ih =>
    refine fun input => keeps_ite (fun _ => ih _) fun _ => ?_
    refine keeps_bind (keeps_iff.mpr fun d hd => ?_) fun _ => ih _
    simp only [writeSlice, wp_bind]
    refine wp_mono (openFile_owns E reuse _ _ _ _ _ S d hd) ?_ fun _ _ h => h
    intro descriptor d' hd'
    exact wp_mono ((keeps_writeWhole E (cached_use rfl) _ _ _ _ _).wp hd') (fun _ _ h => h.1)
      fun _ _ h => h.1

/-- The one use of a descriptor outside of the transfer loops. -/
theorem keeps_truncateTo {I : Disk W → Prop} {descriptor : Int}
    (h : ∀ w d, I d → I (d.note w (.ftruncate descriptor))) (size index : Nat) :
    Keeps I (truncateTo E descriptor size index) := by
  refine keeps_bind (fun d hd => h _ d hd) fun answer => ?_
  split
  · exact keeps_ret _
  · exact keeps_throw _

theorem mem_owning {descriptor : Int} (h : 0 ≤ descriptor) (S : List Int) :
    descriptor ∈ owning descriptor S := by
  simp [owning, h]

theorem mem_owning_of_mem {descriptor other : Int} {S : List Int} (h : other ∈ S) :
    other ∈ owning descriptor S := by
  unfold owning
  split
  · exact List.mem_cons_of_mem _ h
  · exact h

/-- A bridge open and the scope around its answer. -/
theorem keepsOwns_openScoped {S : List Int} (path : Path) (mode : Mode)
    {block : Int → Exec (Disk W) StorageError α}
    (h : ∀ result, Keeps (Owns (owning result S)) (block result)) :
    Keeps (Owns S) (callOpenFile E path mode >>= fun result =>
      withScoped E result (block result)) := by
  refine keeps_iff.mpr fun d hd => ?_
  rw [wp_bind]
  refine wp_mono (callOpenFile_owns E path mode hd) ?_ fun _ _ h => h
  rintro result d' ⟨hd', -, -⟩
  exact wp_state.mpr (withScoped_owns E (h result) hd')

/-- Two scopes, one in the other: the second is entered only if the first open went well. -/
theorem keepsOwns_copyPublicFile (source destination : Path) (size index : Nat) {S : List Int} :
    Keeps (Owns S) (copyPublicFile E source destination size index) := by
  refine keeps_throwIf_bind fun _ => ?_
  refine keeps_bind (keepsOwns_ensureParentDirectories E _ _) fun _ => ?_
  refine keepsOwns_openScoped E _ _ fun from' => keeps_throwIf_bind fun hfrom => ?_
  refine keepsOwns_openScoped E _ _ fun to' => keeps_throwIf_bind fun hto => ?_
  have hto' : to' ∈ owning to' (owning from' S) := mem_owning (Int.not_lt.mp hto) _
  have hfrom' : from' ∈ owning to' (owning from' S) :=
    mem_owning_of_mem (mem_owning (Int.not_lt.mp hfrom) S)
  refine keeps_bind (keeps_truncateTo E (owns_use rfl hto') _ _) fun _ => ?_
  refine keeps_copyLoop E ?_ (owns_use rfl hto') _ _ _ _ _
  rintro _ heq
  cases heq
  exact owns_use rfl hfrom'

/-- The copy uses both descriptors and leaves them to its caller, which resets them. -/
theorem keepsOwns_migrateBytes (index : Nat) (toPart : Bool) (source destination : Int)
    {S : List Int} :
    Keeps (Owns (owning destination (owning source S)))
      (migrateBytes E t index toPart source destination) := by
  refine keeps_throwIf_bind fun hto => ?_
  have hto' : destination ∈ owning destination (owning source S) :=
    mem_owning (Int.not_lt.mp hto) _
  refine keeps_bind (keeps_onlyIf fun _ => keeps_truncateTo E (owns_use rfl hto') _ _) fun _ => ?_
  refine keeps_copyLoop E ?_ (owns_use rfl hto') _ _ _ _ _
  intro from' heq
  split at heq
  · rename_i hsource
    cases heq
    exact owns_use rfl (mem_owning_of_mem (mem_owning hsource S))
  · cases heq

theorem owning_comm (a b : Int) (S : List Int) :
    (owning a (owning b S)).Perm (owning b (owning a S)) := by
  unfold owning
  split <;> split
  · exact List.Perm.swap _ _ _
  all_goals exact .refl _

/-- `migrate_priority` closes both its descriptors on every exit, the early resets included. -/
theorem keepsOwns_migrateCopy (index : Nat) (toPart : Bool) {S : List Int} :
    Keeps (Owns S) (migrateCopy E t index toPart) := by
  refine keeps_iff.mpr fun d hd => ?_
  rw [migrateCopy, wp_bind]
  refine wp_mono (callOpenFile_owns E _ _ hd) ?_ fun _ _ h => h
  rintro source d₁ ⟨hd₁, -, -⟩
  simp only [migrateFrom, migrateTo, wp_bind, wp_throwIf, wp_attempt]
  refine ⟨fun hfail => ?_, fun _ => ?_⟩
  · simpa [owning, show ¬ 0 ≤ source by omega] using hd₁
  refine wp_mono ((keepsOwns_ensureParentDirectories E _ _).wp hd₁) ?_ ?_
  · intro _ d₂ hd₂
    refine wp_mono (callOpenFile_owns E _ _ hd₂) ?_ fun _ _ h => h
    rintro destination d₃ ⟨hd₃, -, -⟩
    refine wp_mono ((keepsOwns_migrateBytes E t index toPart source destination).wp hd₃) ?_ ?_
    · intro _ d₄ hd₄
      simp only [wp_resetScoped]
      exact resetScoped_owns E (resetScoped_owns E (F := StorageError)
        (hd₄.perm (owning_comm _ _ _)))
    · intro _ d₄ hd₄
      simp only [wp_resetScoped, wp_throw]
      exact resetScoped_owns E (resetScoped_owns E hd₄)
  · intro _ d₂ hd₂
    simp only [wp_resetScoped, wp_throw]
    exact resetScoped_owns E hd₂

theorem keepsOwns_migratePriority (index : Nat) (toPart : Bool) {S : List Int} :
    Keeps (Owns S) (migratePriority E t storage index toPart) := by
  refine keeps_ite (fun _ => keeps_ret _) fun _ => ?_
  refine keeps_bind (keepsOwns_closeWhere E _) fun _ => keeps_bind (keepsOwns_closeWhere E _)
    fun _ => keeps_bind (keepsOwns_migrateCopy E t index toPart) fun _ => keeps_onlyIf fun _ => ?_
  exact keeps_bind (keepsOwns_remove E _ _) fun _ => keeps_throwIf _

/-! ## Operations

None of them owns a descriptor between its calls, so each is a walk over its own text. -/

section Operations

variable {S : List Int}

theorem keepsOwns_initializeFiles : Keeps (Owns S) (initializeFiles E reuse t storage) := by
  refine keeps_bind (keeps_mapEach fun index _ => ?_) fun _ => keeps_ret _
  refine keeps_bind (keepsOwns_fileSize E _) fun _ => ?_
  refine keeps_bind (keeps_mapError (keeps_iff.mpr fun d hd => ?_)) fun _ => keeps_ret _
  rw [wp_bind]
  refine wp_mono (openFile_owns E reuse _ _ _ _ _ S d hd) ?_ fun _ _ h => h
  intro descriptor d' hd'
  exact wp_mono ((keeps_truncateTo E (cached_use rfl) _ _).wp hd') (fun _ _ h => h.1)
    fun _ _ h => h.1

theorem keepsOwns_checkResumeFiles (seed exactSize : Bool) (files : List Nat) (status : Status) :
    Keeps (Owns S) (checkResumeFiles E t seed exactSize files status) := by
  induction files generalizing status with
  | nil => exact keeps_ret _
  | cons index rest ih =>
    refine keeps_ite (fun _ => ih _) fun _ => keeps_bind (keepsOwns_fileSize E _) fun _ => ?_
    exact keeps_throwIf_bind fun _ => ih _

theorem keepsOwns_asyncCheckFiles (resume : Option Resume) (links : List Path) :
    Keeps (Owns S) (asyncCheckFiles E reuse t storage resume links) := by
  have hvalidate : ∀ resume, Keeps (Owns S) (validateResume E t resume) := fun resume =>
    keeps_ite (fun _ => keepsOwns_checkResumeFiles E t _ _ _ _)
      fun _ => keepsOwns_checkResumeFiles E t _ _ _ _
  refine keeps_throwIf_bind fun _ => ?_
  cases resume with
  | none => exact keepsOwns_initializeFiles E reuse t storage
  | some resume =>
    exact keeps_ite (fun _ => hvalidate resume) fun _ => keepsOwns_initializeFiles E reuse t storage

theorem keepsOwns_asyncDeleteFiles (deleteFiles deletePartfile : Bool) :
    Keeps (Owns S) (asyncDeleteFiles E t storage deleteFiles deletePartfile) := by
  have hremove : ∀ path file, Keeps (Owns S) (removeLater E path file) := fun path file =>
    keeps_bind (keepsOwns_remove E _ _) fun _ => keeps_ret _
  refine keeps_bind (keepsOwns_closeWhere E _) fun _ => ?_
  refine keeps_bind (keeps_mapEach fun _ _ => hremove _ _) fun _ => ?_
  refine keeps_bind (keeps_mapEach fun _ _ => hremove _ _) fun _ => ?_
  split
  · exact keeps_throw _
  · exact keeps_ret _

theorem keepsOwns_asyncHash (piece : Nat) (v1 : Bool) (room : Nat) :
    Keeps (Owns S) (asyncHash E reuse t storage piece v1 room) :=
  keeps_bind
    (keeps_ite (fun _ => keeps_mapError (keepsOwns_readBlock E reuse t storage _))
      fun _ => keeps_ret _)
    fun _ => keeps_throwIf_bind fun _ => keeps_ret _

theorem keepsOwns_asyncHash2 (piece offset : Nat) :
    Keeps (Owns S) (asyncHash2 E reuse t storage piece offset) :=
  keeps_throwIf_bind fun _ =>
    keeps_bind (keeps_mapError (keepsOwns_readBlock E reuse t storage _)) fun _ => keeps_ret _

theorem keepsOwns_checkMove (root : Path) : Keeps (Owns S) (checkMove E t storage root) := by
  refine keeps_bind (keepsOwns_closeWhere E _) fun _ => ?_
  refine keeps_bind (keeps_forEach fun _ _ => keeps_throwIf _) fun _ => ?_
  refine keeps_bind (keeps_forEach fun _ _ => keeps_throwIf _) fun _ => ?_
  refine keeps_bind (keeps_ite (fun _ => keeps_ret _) fun _ => keepsOwns_validatePath E _)
    fun _ => ?_
  exact keeps_throwIf_bind fun _ => keeps_ret _

theorem keepsOwns_statOperations (flags : MoveFlags) (operations : List MoveOperation)
    (status : Status) : Keeps (Owns S) (statOperations E flags operations status) := by
  induction operations generalizing status with
  | nil => exact keeps_ret _
  | cons operation rest ih =>
    refine keeps_bind (keepsOwns_fileSize E _) fun _ => keeps_throwIf_bind fun _ => ?_
    refine keeps_bind (keepsOwns_fileSize E _) fun _ => keeps_throwIf_bind fun _ => ?_
    exact keeps_bind (ih _) fun _ => keeps_ret _

theorem keepsOwns_statMove (root : Path) (flags : MoveFlags) (operations : List MoveOperation) :
    Keeps (Owns S) (statMove E t root flags operations) := by
  refine keeps_bind (keeps_onlyIf fun _ => keeps_forEach fun _ _ => ?_) fun _ =>
    keepsOwns_statOperations E flags operations _
  refine keeps_ite (fun _ => keeps_ret _) fun _ => keeps_bind (keepsOwns_fileSize E _) fun _ => ?_
  exact keeps_throwIf_bind fun _ => keeps_throwIf _

theorem keepsOwns_copyOperations (operations : List MoveOperation) (status : Status) :
    Keeps (Owns S) (copyOperations E operations status) :=
  keeps_forEach fun _ _ => keeps_onlyIf fun _ =>
    keeps_mapError (keepsOwns_copyPublicFile E _ _ _ _)

theorem keepsOwns_removeSources (operations : List MoveOperation) (destinations : List Path) :
    Keeps (Owns S) (removeSources E operations destinations) :=
  keeps_forEach fun _ _ => keeps_onlyIf fun _ =>
    keeps_bind (keepsOwns_remove E _ _) fun _ => keeps_ret _

/-- Between two jobs the cache owns every open descriptor. -/
def Accounted (s : Sys W) : Prop := Owns [] s.disk

theorem accounted_onDisk {m : Exec (Disk W) F α} (h : Keeps (Owns []) m) :
    Keeps Accounted (onDisk m) :=
  keeps_zoom h (fun _ hs => hs) fun _ _ _ hd => hd

theorem accounted_updateTorrent (f : TorrentStorage → TorrentStorage) :
    Keeps Accounted (updateTorrent f : Exec (Sys W) F Unit) := fun _ hs => hs

/-- A move closes the storage before it copies, so its copies find nothing of it in the cache. -/
theorem accounted_asyncMoveStorage (path : Path) (flags : MoveFlags) :
    Keeps Accounted (asyncMoveStorage E storage path flags) := by
  refine keeps_throwIf_bind fun _ => keeps_bind keeps_get fun s => ?_
  refine keeps_bind (accounted_onDisk (keepsOwns_checkMove E _ _ _)) fun operations => ?_
  refine keeps_ite (fun _ => keeps_bind (accounted_updateTorrent _) fun _ => keeps_ret _)
    fun _ => ?_
  refine keeps_bind (accounted_onDisk (keepsOwns_statMove E _ _ _ _)) fun answer => ?_
  refine keeps_bind (accounted_onDisk (keepsOwns_copyOperations E _ _)) fun _ => ?_
  refine keeps_bind (accounted_updateTorrent _) fun _ => ?_
  exact keeps_bind (accounted_onDisk (keepsOwns_removeSources E _ _)) fun _ => keeps_ret _

/-- A rename closes the file before it asks the bridge. -/
theorem accounted_asyncRenameFile (index : Int) (name : Path) :
    Keeps Accounted (asyncRenameFile E storage index name) := by
  refine keeps_bind keeps_get fun s => keeps_throwIf_bind fun _ => ?_
  refine keeps_bind (accounted_onDisk (keepsOwns_closeWhere E _)) fun _ => ?_
  refine keeps_bind (accounted_onDisk (keepsOwns_ensureParentDirectories E _ _)) fun _ => ?_
  refine keeps_bind (accounted_onDisk (keepsOwns_rename E _ _)) fun _ => ?_
  exact keeps_throwIf_bind fun _ => accounted_updateTorrent _

theorem accounted_asyncSetFilePriority (priorities : List Priority) :
    Keeps Accounted (asyncSetFilePriority E storage priorities) := by
  refine keeps_bind keeps_get fun s => keeps_bind (keeps_forEach fun index _ => ?_) fun _ => ?_
  · refine keeps_bind keeps_get fun s => keeps_bind (keeps_onlyIf fun _ => ?_) fun _ =>
      accounted_updateTorrent _
    exact accounted_onDisk (keepsOwns_migratePriority E _ _ _ _)
  · refine keeps_bind keeps_get fun s => keeps_onlyIf fun _ => accounted_onDisk ?_
    exact keeps_bind (keepsOwns_closeWhere E _) fun _ =>
      keeps_bind (keepsOwns_remove E _ _) fun _ => keeps_throwIf _

/-- Every job, on every exit. -/
theorem accounted_runJob (job : Job) {s : Sys W} (hs : Accounted s) :
    Accounted (runJob E reuse storage job s).2 := by
  cases job with
  | read request => exact accounted_onDisk (keepsOwns_readBlock E reuse _ storage _) s hs
  | write request bytes => exact accounted_onDisk (keepsOwns_writeBlock E reuse _ storage _ _) s hs
  | hash piece v1 room => exact accounted_onDisk (keepsOwns_asyncHash E reuse _ storage _ _ _) s hs
  | hash2 piece offset => exact accounted_onDisk (keepsOwns_asyncHash2 E reuse _ storage _ _) s hs
  | moveStorage path flags => exact accounted_asyncMoveStorage E storage path flags s hs
  | releaseFiles => exact accounted_onDisk (keepsOwns_closeWhere E _) s hs
  | checkFiles resume links =>
    exact accounted_onDisk (keepsOwns_asyncCheckFiles E reuse _ storage _ _) s hs
  | stopTorrent => exact accounted_onDisk (keepsOwns_closeWhere E _) s hs
  | renameFile index name => exact accounted_asyncRenameFile E storage index name s hs
  | deleteFiles files part =>
    exact accounted_onDisk (keepsOwns_asyncDeleteFiles E _ storage _ _) s hs
  | setFilePriority priorities => exact accounted_asyncSetFilePriority E storage priorities s hs
  | clearPiece piece => exact hs

end Operations

/-! ## Runs -/

/-- No action begins with a scoped descriptor or leaves one behind. -/
theorem owns_act (action : Action) {server : Server W} (h : Owns [] server.disk) :
    Owns [] (server.act E reuse action).disk := by
  cases action with
  | perform job =>
    cases job with
    | run object storage job =>
      simp only [Server.act, Server.perform]
      split
      · exact h
      · exact accounted_runJob E reuse storage job h
    | release storage => exact keepsOwns_closeWhere E _ _ h
    | clearPiece piece => exact h
    | closeStorage storage => exact keepsOwns_closeWhere E _ _ h
  | settings filePoolSize => exact h
  | newTorrent params =>
    simp only [Server.act]
    split <;> exact h

theorem owns_start (w : W) (filePoolSize : Int) : Owns [] (Server.start w filePoolSize).disk :=
  ⟨.nil, by simp [Server.start, Disk.settingsUpdated, StoredWithin]⟩

/-- After `close_all` the cache is empty and nothing is held. -/
theorem closeAll_owns {d : Disk W} (h : Owns [] d) :
    wp (closeAll E : Exec (Disk W) F Unit) (fun _ d' => Owns [] d' ∧ d'.descriptors = [])
      (fun _ _ => False) d := by
  refine wp_mono (closeWhere_owns E _ h) ?_ fun _ _ h => h
  rintro _ d' ⟨hd', hempty⟩
  exact ⟨hd', by simpa using hempty⟩

theorem abort_owns {server : Server W} (h : Owns [] server.disk) :
    Owns [] (server.abort E).disk ∧ (server.abort E).disk.descriptors = [] := by
  have hworker := wp_state.mp (wp_mono (closeAll_owns E (F := StorageError) h)
    (fun _ _ h => h.1) fun _ _ h => h.elim)
  exact wp_state.mp (wp_mono (closeAll_owns E (F := StorageError) hworker) (fun _ _ h => h)
    fun _ _ h => h.elim)

/-- **Descriptors are never leaked, closed twice or used after being closed.** In every run
    of a server, then stopped by `abort`, as long as the kernel hands out no number that is
    still open: between two actions the open descriptors are the entries of the cache, each
    once; every transfer and every close is of an open descriptor; every entry added fits the
    limit; and after `abort` none is open, each having been closed as often as opened. -/
theorem descriptors_accounted (w : W) (filePoolSize : Int) (actions : List Action)
    (hkernel : Fresh (ledger
      (((Server.start w filePoolSize).run E true actions).abort E).disk.trace)) :
    let server := (Server.start w filePoolSize).run E true actions
    let log := ledger server.disk.trace
    let stopped := ledger (server.abort E).disk.trace
    (held log).Perm (server.disk.descriptors.map (·.descriptor)) ∧
    (server.disk.descriptors.map (·.descriptor)).Nodup ∧
    Disciplined log ∧ StoredWithin server.disk.trace ∧
    Disciplined stopped ∧ held stopped = [] ∧
    ∀ descriptor, stopped.count (.release descriptor) = stopped.count (.acquire descriptor) := by
  intro server log stopped
  have howns : Owns [] server.disk :=
    Server.run_induct E true (I := fun server => Owns [] server.disk)
      (fun action _ h => owns_act E true action h) (owns_start w filePoolSize)
  obtain ⟨hstopped, hempty⟩ := abort_owns E howns
  have hgrows : server.disk.trace <:+ (server.abort E).disk.trace := by
    have hclose := (logs_grows server.disk.trace).closeWhere E (F := StorageError) fun _ => true
    exact hclose _ (hclose _ (List.suffix_refl _))
  have hfresh : Fresh log := Fresh.of_suffix (hgrows.filterMap _) hkernel
  obtain ⟨hdisciplined, hheld⟩ := howns.holds hfresh
  obtain ⟨hdisciplined', hheld'⟩ := hstopped.holds hkernel
  have hnone : held stopped = [] := by
    simpa [Disk.cached, hempty] using hheld'
  simp only [List.append_nil] at hheld
  exact ⟨hheld, hheld.nodup_iff.mp (nodup_held hfresh), hdisciplined, howns.stored,
    hdisciplined', hnone, released_as_acquired hdisciplined' hnone⟩

namespace Pool

/-- Two files of two bytes in a pool of one descriptor. -/
def params : StorageParams where
  files := FileStorage.ofEntries [{ size := 2, pad := false }, { size := 2, pad := false }] 4
  filePath i := if i = 0 then str "a" else str "b"
  path := str ""
  priorities := []
  infoHash := List.replicate 20 171

/-- A write over both files evicts the first one's descriptor; a read of it reopens it. -/
def actions : List Action :=
  [.newTorrent params,
    .perform (.run 0 0 (.write { piece := 0, start := 0, length := 4 } [1, 2, 3, 4])),
    .perform (.run 0 0 (.read { piece := 0, start := 0, length := 2 }))]

theorem descriptors_accounted_evicting :
    held (ledger (((Server.start (World.holding []) 1).run (provider .next id id) true
      actions).abort (provider .next id id)).disk.trace) = [] :=
  (descriptors_accounted (provider .next id id) (World.holding []) 1 actions
    (by decide +kernel)).2.2.2.2.2.1

end Pool

end Saf
end Libtorrent4j
