import Libtorrent4j.Session.Magnets

/-!
# What fetches and downloads owe each other

The two promises of the calls are one: **whatever a call relies on is in the session**, unless
the user has removed it (`Kept`). A download relies on its torrent from the moment it returns, a
fetch on its own as long as it waits.

The promise breaks in one way only. A fetch removes the torrent it has added, so it must be alone
with it (`Alone`), and it is until another call takes that torrent for its own, or the fetch is
itself handed a torrent somebody else has added. `torrents_kept` is about the runs without such a
step, and says that the first one is enough to lose a torrent.
-/

namespace Libtorrent4j
namespace Session

/-! ## The promises -/

namespace NativeSession

variable {calls : ThreadId → MagnetCall} {s : NativeSession}

/-- **Whatever a call relies on is in the session**, unless the user has removed it. -/
def Kept (calls : ThreadId → MagnetCall) (s : NativeSession) : Prop :=
  ∀ i th, (s.progress i).torrent = some th →
    s.torrents (calls i).hash = some th ∨ th ∈ s.removed

/-- Nobody else relies on a temporary torrent. -/
def Alone (s : NativeSession) : Prop :=
  ∀ i j th, (s.progress i).temporary = some th → (s.progress j).torrent = some th → j = i

/-- What holds in every state: torrents are numbered in the order they are added, and each one in
    the session has a call that stands for it. -/
structure Sane (calls : ThreadId → MagnetCall) (s : NativeSession) : Prop where
  torrents_lt : ∀ hash th, s.torrents hash = some th → th < s.next
  torrent_lt : ∀ i th, (s.progress i).torrent = some th → th < s.next
  removed_lt : ∀ th ∈ s.removed, th < s.next
  present : ∀ hash th, s.torrents hash = some th → th ∉ s.removed
  unique : ∀ hash hash' th, s.torrents hash = some th → s.torrents hash' = some th → hash = hash'
  owner : ∀ hash th, s.torrents hash = some th →
    ∃ k, (calls k).hash = hash ∧ (s.progress k).owned = some th
  fetch : ∀ i th, (s.progress i).temporary = some th → ∃ hash, calls i = .fetchMagnet hash
  hash : ∀ i th hash, (s.progress i).temporary = some th → s.torrents hash = some th →
    hash = (calls i).hash

theorem sane_initial : Sane calls {} := by
  constructor <;> simp [Progress.torrent, Progress.temporary]

/-- A step that shares nothing: no call takes a torrent that a fetch is going to remove, and no
    fetch is handed a torrent by `add_torrent` that was there. -/
def Clear (calls : ThreadId → MagnetCall) (s : NativeSession) : MagnetAction → Prop
  | .userRemove _ => True
  | .go j => ∀ th, s.torrents (calls j).hash = some th → s.takes calls j = true →
      (∀ i, (s.progress i).temporary ≠ some th) ∧
        ¬ ((∃ hash, calls j = .fetchMagnet hash) ∧ s.progress j = .missing)

/-! ### Every state is sane -/

section Moves

variable {i : ThreadId} {s' : NativeSession}

theorem Sane.passes (h : Sane calls s) {p : Progress} (lock : Option ThreadId)
    (htorrent : p.torrent = (s.progress i).torrent)
    (htemporary : p.temporary = (s.progress i).temporary)
    (howned : p.owned = (s.progress i).owned) : Sane calls { s.advance i p with lock } := by
  have hsame : ∀ j, ((s.advance i p).progress j).torrent = (s.progress j).torrent ∧
      ((s.advance i p).progress j).temporary = (s.progress j).temporary ∧
      ((s.advance i p).progress j).owned = (s.progress j).owned := by
    intro j
    rw [advance_progress]
    split
    · rename_i heq
      exact heq ▸ ⟨htorrent, htemporary, howned⟩
    · exact ⟨rfl, rfl, rfl⟩
  refine ⟨h.torrents_lt, fun j th hj => ?_, h.removed_lt, h.present, h.unique,
    fun hash th hth => ?_,
    fun j th hj => ?_, fun j th hash hj => ?_⟩
  · exact h.torrent_lt j th ((hsame j).1 ▸ hj)
  · obtain ⟨k, hk, howns⟩ := h.owner hash th hth
    exact ⟨k, hk, (hsame k).2.2.trans howns⟩
  · exact h.fetch j th ((hsame j).2.1 ▸ hj)
  · exact h.hash j th hash ((hsame j).2.1 ▸ hj)

theorem owned_of_none {p : Progress} (h : p.torrent = none) : p.owned = none := by
  cases howned : p.owned with
  | none => rfl
  | some th => rw [Progress.torrent_of_owned howned] at h; cases h

theorem Sane.meets (h : Sane calls s) {p : Progress} {th : TorrentId}
    (hth : s.torrents (calls i).hash = some th) (hp : p.torrent = some th)
    (hbefore : (s.progress i).torrent = none)
    (htemporary : p.temporary = some th → ∃ hash, calls i = .fetchMagnet hash ∧
      s.progress i = .missing) : Sane calls (s.advance i p) := by
  refine ⟨h.torrents_lt, fun j th' hj => ?_, h.removed_lt, h.present, h.unique,
    fun hash th' hth' => ?_,
    fun j th' hj => ?_, fun j th' hash hj hin => ?_⟩
  · rw [advance_progress] at hj
    split at hj
    · obtain rfl : th = th' := Option.some.inj (hp.symm.trans hj)
      exact h.torrents_lt _ _ hth
    · exact h.torrent_lt j th' hj
  · obtain ⟨k, hk, howns⟩ := h.owner hash th' hth'
    refine ⟨k, hk, ?_⟩
    rw [advance_progress, if_neg]
    · exact howns
    · rintro rfl
      rw [owned_of_none hbefore] at howns
      cases howns
  · rw [advance_progress] at hj
    split at hj
    · rename_i heq
      obtain rfl : th = th' :=
        Option.some.inj (hp.symm.trans (Progress.torrent_of_temporary hj).1)
      obtain ⟨hash, hcall, -⟩ := htemporary hj
      exact heq ▸ ⟨hash, hcall⟩
    · exact h.fetch j th' hj
  · rw [advance_progress] at hj
    split at hj
    · rename_i heq
      obtain rfl : th = th' :=
        Option.some.inj (hp.symm.trans (Progress.torrent_of_temporary hj).1)
      exact heq ▸ h.unique _ _ _ hin hth
    · exact h.hash j th' hash hj hin

theorem Sane.adds (h : Sane calls s) {p : Progress} (hp : p.torrent = some s.next)
    (howned : p.owned = some s.next) (hbefore : (s.progress i).torrent = none)
    (htemporary : p.temporary = some s.next → ∃ hash, calls i = .fetchMagnet hash)
    (hnone : s.torrents (calls i).hash = none) :
    Sane calls ({ s with
      torrents := Function.update s.torrents (calls i).hash (some s.next)
      next := s.next + 1 }.advance i p) := by
  -- who names the new torrent is the call that has just added it
  have hnew : ∀ j th, (if j = i then p else s.progress j).torrent = some th →
      (j = i ∧ th = s.next) ∨ (j ≠ i ∧ (s.progress j).torrent = some th ∧ th < s.next) := by
    intro j th hj
    split at hj
    · exact Or.inl ⟨‹_›, (Option.some.inj (hp.symm.trans hj)).symm⟩
    · exact Or.inr ⟨‹_›, hj, h.torrent_lt j th hj⟩
  have hat : ∀ hash th,
      Function.update s.torrents (calls i).hash (some s.next) hash = some th →
      (hash = (calls i).hash ∧ th = s.next) ∨ (hash ≠ (calls i).hash ∧ s.torrents hash = some th ∧
        th < s.next) := by
    intro hash th hth
    rw [Function.update_apply] at hth
    split at hth
    · exact Or.inl ⟨‹_›, (Option.some.inj hth).symm⟩
    · exact Or.inr ⟨‹_›, hth, h.torrents_lt hash th hth⟩
  refine ⟨fun hash th hth => ?_, fun j th hj => ?_, fun th hth => ?_, fun hash th hth => ?_,
    fun hash hash' th hth hth' => ?_, fun hash th hth => ?_, fun j th hj => ?_,
    fun j th hash hj hth => ?_⟩
  · rcases hat hash th hth with ⟨-, rfl⟩ | ⟨-, -, hlt⟩
    · exact Nat.lt_succ_self _
    · exact Nat.lt_succ_of_lt hlt
  · rw [advance_progress] at hj
    rcases hnew j th hj with ⟨-, rfl⟩ | ⟨-, -, hlt⟩
    · exact Nat.lt_succ_self _
    · exact Nat.lt_succ_of_lt hlt
  · exact Nat.lt_succ_of_lt (h.removed_lt th hth)
  · rcases hat hash th hth with ⟨-, rfl⟩ | ⟨-, hold, -⟩
    · exact fun hin => absurd (h.removed_lt _ hin) (Nat.lt_irrefl _)
    · exact h.present hash th hold
  · rcases hat hash th hth with ⟨rfl, rfl⟩ | ⟨-, hold, hlt⟩ <;>
      rcases hat hash' _ hth' with ⟨rfl, heq⟩ | ⟨-, hold', hlt'⟩
    · rfl
    · exact absurd hlt' (Nat.lt_irrefl _)
    · exact absurd (heq ▸ hlt) (Nat.lt_irrefl _)
    · exact h.unique hash hash' th hold hold'
  · rcases hat hash th hth with ⟨rfl, rfl⟩ | ⟨-, hold, -⟩
    · exact ⟨i, rfl, by rw [advance_progress, if_pos rfl, howned]⟩
    · obtain ⟨k, hk, howns⟩ := h.owner hash th hold
      refine ⟨k, hk, ?_⟩
      rw [advance_progress, if_neg]
      · exact howns
      · rintro rfl
        rw [owned_of_none hbefore] at howns
        cases howns
  · rw [advance_progress] at hj
    split at hj
    · rename_i heq
      have hth := (Progress.torrent_of_temporary hj).1
      rw [hp] at hth
      exact heq ▸ htemporary (hj.trans hth.symm)
    · exact h.fetch j th hj
  · rw [advance_progress] at hj
    rcases hat hash th hth with ⟨rfl, rfl⟩ | ⟨-, hold, hlt⟩
    · rcases hnew j _ (Progress.torrent_of_temporary hj).1 with ⟨rfl, -⟩ | ⟨-, -, hlt⟩
      · rfl
      · exact absurd hlt (Nat.lt_irrefl _)
    · rcases hnew j _ (Progress.torrent_of_temporary hj).1 with ⟨-, rfl⟩ | ⟨hne, -, -⟩
      · exact absurd hlt (Nat.lt_irrefl _)
      · rw [if_neg hne] at hj
        exact h.hash j th hash hj hold

theorem Sane.ends (h : Sane calls s) {th : TorrentId} {add : Bool}
    (hbefore : s.progress i = .waiting th add) :
    Sane calls ((if add then s.remove (calls i).hash th else s).advance i .ended) := by
  -- the torrents that stay are others than the one the call stood for
  have hstays :
      ∀ hash th', (if add then s.remove (calls i).hash th else s).torrents hash = some th' →
      s.torrents hash = some th' ∧ ¬ (add = true ∧ hash = (calls i).hash ∧ th' = th) :=
    fun hash th' hth' => (ended_torrents s _ _ _ _ _).mp hth'
  obtain ⟨hnext, hremoved, hprogress⟩ := ended_rest s add (calls i).hash th
  generalize (if add then s.remove (calls i).hash th else s) = d at *
  have hadv : ∀ j p', (d.advance i .ended).progress j = p' →
      p' = .ended ∨ p' = s.progress j ∧ j ≠ i := by
    rintro j _ rfl
    rw [advance_progress, hprogress]
    split
    · exact Or.inl rfl
    · exact Or.inr ⟨rfl, ‹_›⟩
  refine ⟨fun hash th' hth' => ?_, fun j th' hj => ?_, fun th' hth' => ?_, fun hash th' hth' => ?_,
    fun hash hash' th' hth' hth'' => ?_, fun hash th' hth' => ?_, fun j th' hj => ?_,
    fun j th' hash hj hth' => ?_⟩
  · exact hnext ▸ h.torrents_lt hash th' (hstays hash th' hth').1
  · rcases hadv j _ rfl with heq | ⟨heq, -⟩ <;> rw [heq] at hj
    · cases hj
    · exact hnext ▸ h.torrent_lt j th' hj
  · exact hnext ▸ h.removed_lt th' (hremoved ▸ hth')
  · exact hremoved ▸ h.present hash th' (hstays hash th' hth').1
  · exact h.unique _ _ th' (hstays _ _ hth').1 (hstays _ _ hth'').1
  · obtain ⟨hold, hother⟩ := hstays hash th' hth'
    obtain ⟨k, hk, howns⟩ := h.owner hash th' hold
    refine ⟨k, hk, ?_⟩
    rw [advance_progress, if_neg, hprogress]
    · exact howns
    · rintro rfl
      rw [hbefore] at howns
      cases add with
      | false => cases howns
      | true => exact hother ⟨rfl, hk.symm, (Option.some.inj howns).symm⟩
  · rcases hadv j _ rfl with heq | ⟨heq, -⟩ <;> rw [heq] at hj
    · cases hj
    · exact h.fetch j th' hj
  · rcases hadv j _ rfl with heq | ⟨heq, -⟩ <;> rw [heq] at hj
    · cases hj
    · exact h.hash j th' hash hj (hstays hash th' hth').1

theorem Sane.moves (h : Sane calls s) (hmoves : Moves calls s i s') : Sane calls s' := by
  cases hmoves with
  | rests => exact h
  | passes p lock htorrent htemporary howned => exact h.passes lock htorrent htemporary howned
  | meets p th hth hp hbefore htakes htemporary => exact h.meets hth hp hbefore htemporary
  | adds p hnone hp howned hbefore htemporary => exact h.adds hp howned hbefore htemporary hnone
  | ends th add hbefore => exact h.ends hbefore

end Moves

/-- The user takes a torrent out of the session, and it is on record. -/
theorem Sane.userRemove (h : Sane calls s) {hash : InfoHash} {th : TorrentId}
    (hth : s.torrents hash = some th) :
    Sane calls { s with
      torrents := Function.update s.torrents hash none
      removed := th :: s.removed } := by
  have hold : ∀ hash' th', Function.update s.torrents hash none hash' = some th' →
      s.torrents hash' = some th' ∧ hash' ≠ hash := by
    intro hash' th' hth'
    rw [Function.update_apply] at hth'
    split at hth'
    · cases hth'
    · exact ⟨hth', ‹_›⟩
  refine ⟨fun hash' th' h' => h.torrents_lt _ _ (hold _ _ h').1, h.torrent_lt, fun th' hin => ?_,
    fun hash' th' h' => ?_, fun _ _ th' h' h'' => h.unique _ _ th' (hold _ _ h').1 (hold _ _ h'').1,
    fun hash' th' h' => h.owner _ _ (hold _ _ h').1, h.fetch,
    fun j th' hash' hj h' => h.hash j th' hash' hj (hold _ _ h').1⟩
  · rcases List.mem_cons.mp hin with rfl | hin
    · exact h.torrents_lt hash _ hth
    · exact h.removed_lt th' hin
  · obtain ⟨hbefore, hne⟩ := hold _ _ h'
    intro hin
    rcases List.mem_cons.mp hin with rfl | hin
    · exact hne (h.unique _ _ _ hbefore hth)
    · exact h.present hash' th' hbefore hin

theorem Sane.act (h : Sane calls s) (action : MagnetAction) : Sane calls (s.act calls action) := by
  cases action with
  | go i => exact h.moves (moves_go calls s i)
  | userRemove hash =>
    unfold NativeSession.act
    dsimp only
    cases hth : s.torrents hash with
    | none => exact h
    | some th => exact h.userRemove hth

theorem sane_run (actions : List MagnetAction) : Sane calls (run calls {} actions) := by
  suffices key : ∀ s, Sane calls s → Sane calls (run calls s actions) from key {} sane_initial
  induction actions with
  | nil => exact fun _ h => h
  | cons action rest ih => exact fun s h => ih (s.act calls action) (h.act action)

/-! ### What a clear step keeps -/

section Moves

variable {i : ThreadId} {s' : NativeSession}

/-- Nobody comes to share a temporary torrent. -/
theorem Alone.moves (ha : Alone s) (h : Sane calls s) (hclear : s.Clear calls (.go i))
    (hmoves : Moves calls s i s') : Alone s' := by
  cases hmoves with
  | rests => exact ha
  | passes p lock htorrent htemporary howned =>
    have hsame : ∀ j, ((s.advance i p).progress j).torrent = (s.progress j).torrent ∧
        ((s.advance i p).progress j).temporary = (s.progress j).temporary := by
      intro j
      rw [advance_progress]
      split
      · rename_i heq
        exact heq ▸ ⟨htorrent, htemporary⟩
      · exact ⟨rfl, rfl⟩
    exact fun j k th hj hk => ha j k th ((hsame j).2 ▸ hj) ((hsame k).1 ▸ hk)
  | meets p th hth hp hbefore htakes htemporary =>
    obtain ⟨hfree, hmissing⟩ := hclear th hth htakes
    intro j k th' hj hk
    rw [advance_progress] at hj hk
    split at hj
    · obtain rfl : th = th' := Option.some.inj (hp.symm.trans (Progress.torrent_of_temporary hj).1)
      obtain ⟨hash, hcall, hat⟩ := htemporary hj
      exact absurd ⟨⟨hash, hcall⟩, hat⟩ hmissing
    · split at hk
      · obtain rfl : th = th' := Option.some.inj (hp.symm.trans hk)
        exact absurd hj (hfree j)
      · exact ha j k th' hj hk
  | adds p hnone hp howned hbefore htemporary =>
    -- the torrent added is new, so no other call stands for it
    intro j k th hj hk
    rw [advance_progress] at hj hk
    split at hj <;> split at hk
    · rw [‹j = i›, ‹k = i›]
    · obtain rfl := Option.some.inj (hp.symm.trans (Progress.torrent_of_temporary hj).1)
      exact absurd (h.torrent_lt k _ hk) (Nat.lt_irrefl _)
    · obtain rfl := Option.some.inj (hp.symm.trans hk)
      exact absurd (h.torrent_lt j _ (Progress.torrent_of_temporary hj).1) (Nat.lt_irrefl _)
    · exact ha j k th hj hk
  | ends th add hbefore =>
    -- the end only shares less
    obtain ⟨-, -, hprogress⟩ := ended_rest s add (calls i).hash th
    intro j k th' hj hk
    rw [advance_progress, hprogress] at hj hk
    split at hj
    · cases hj
    split at hk
    · cases hk
    · exact ha j k th' hj hk

/-- The torrents of the calls stay where they are. -/
theorem Kept.moves (hk : Kept calls s) (ha : Alone s) (hmoves : Moves calls s i s') :
    Kept calls s' := by
  cases hmoves with
  | rests => exact hk
  | passes p lock htorrent htemporary howned =>
    intro j th hj
    change ((s.advance i p).progress j).torrent = some th at hj
    rw [advance_progress] at hj
    split at hj
    · rename_i heq
      exact hk j th (heq ▸ htorrent ▸ hj)
    · exact hk j th hj
  | meets p th hth hp hbefore htakes htemporary =>
    intro j th' hj
    rw [advance_progress] at hj
    split at hj
    · rename_i heq
      subst heq
      obtain rfl : th = th' := Option.some.inj (hp.symm.trans hj)
      exact Or.inl hth
    · exact hk j th' hj
  | adds p hnone hp howned hbefore htemporary =>
    intro j th hj
    rw [advance_progress] at hj
    change Function.update _ _ _ _ = _ ∨ _
    rw [Function.update_apply]
    split at hj
    · rename_i heq
      rw [if_pos (heq ▸ rfl)]
      exact Or.inl (hp.symm.trans hj)
    · -- what was relied on before was not in the session under this info-hash
      rcases hk j th hj with hin | hgone
      · rw [if_neg fun heq => by rw [heq, hnone] at hin; cases hin]
        exact Or.inl hin
      · exact Or.inr hgone
  | ends th add hbefore =>
    obtain ⟨-, hremoved, hprogress⟩ := ended_rest s add (calls i).hash th
    intro j th' hj
    rw [advance_progress, hprogress] at hj
    split at hj
    · cases hj
    rename_i hne
    rcases hk j th' hj with hin | hgone
    · -- a torrent taken out was nobody's but the call's that has ended
      refine Or.inl ((ended_torrents s _ _ _ _ _).mpr ⟨hin, ?_⟩)
      rintro ⟨rfl, -, rfl⟩
      exact hne (ha i j _ (by rw [hbefore]; rfl) hj)
    · exact Or.inr (hremoved.symm ▸ hgone)

end Moves

/-- The promises, and what they need in order to last. -/
structure Inv (calls : ThreadId → MagnetCall) (s : NativeSession) : Prop where
  kept : Kept calls s
  alone : Alone s
  sane : Sane calls s

theorem inv_initial : Inv calls {} := by
  refine ⟨fun i th h => ?_, fun i j th h => ?_, sane_initial⟩
  · cases h
  · cases h

theorem Kept.userRemove (hk : Kept calls s) {hash : InfoHash} {th : TorrentId}
    (hth : s.torrents hash = some th) :
    Kept calls { s with
      torrents := Function.update s.torrents hash none
      removed := th :: s.removed } := by
  intro j th' hj
  rcases hk j th' hj with hin | hgone
  · by_cases hhash : (calls j).hash = hash
    · rw [hhash, hth] at hin
      obtain rfl := Option.some.inj hin
      exact Or.inr List.mem_cons_self
    · refine Or.inl ?_
      change Function.update _ _ _ _ = _
      rw [Function.update_of_ne hhash, hin]
  · exact Or.inr (List.mem_cons_of_mem _ hgone)

theorem Inv.act (h : Inv calls s) {action : MagnetAction} (hclear : s.Clear calls action) :
    Inv calls (s.act calls action) := by
  refine ⟨?_, ?_, h.sane.act action⟩ <;> cases action with
  | go i => ?_
  | userRemove hash => ?_
  · exact h.kept.moves h.alone (moves_go calls s i)
  · unfold NativeSession.act
    dsimp only
    cases hth : s.torrents hash with
    | none => exact h.kept
    | some th => exact h.kept.userRemove hth
  · exact h.alone.moves h.sane hclear (moves_go calls s i)
  · unfold NativeSession.act
    dsimp only
    cases s.torrents hash with
    | none => exact h.alone
    | some th => exact h.alone

/-- Every step of the run is clear. -/
def AllClear (calls : ThreadId → MagnetCall) (s : NativeSession) : List MagnetAction → Prop
  | [] => True
  | action :: rest => s.Clear calls action ∧ AllClear calls (s.act calls action) rest

theorem AllClear.of_append {done rest : List MagnetAction}
    (h : AllClear calls s (done ++ rest)) : AllClear calls s done := by
  induction done generalizing s with
  | nil => trivial
  | cons action done ih => exact ⟨h.1, ih h.2⟩

theorem Inv.run {actions : List MagnetAction} (h : Inv calls s)
    (hclear : AllClear calls s actions) : Inv calls (NativeSession.run calls s actions) := by
  induction actions generalizing s with
  | nil => exact h
  | cons action rest ih => exact ih (h.act hclear.1) hclear.2

/-! ### What an unclear step leads to -/

/-- The end of a fetch takes its torrent away from whoever shares it. -/
theorem lost_of_waiting (h : Sane calls s) {i k : ThreadId} {th : TorrentId}
    (hi : s.progress i = .waiting th true) (hin : s.torrents (calls i).hash = some th)
    (hk : (s.progress k).torrent = some th) (hne : k ≠ i)
    (hhash : (calls k).hash = (calls i).hash) : ¬ Kept calls (s.act calls (.go i)) := by
  obtain ⟨hash, hcall⟩ := h.fetch i th (by rw [hi]; rfl)
  have hact : s.act calls (.go i) = (s.remove (calls i).hash th).advance i .ended := by
    simp only [NativeSession.act, hcall, fetchStep, hi]
    rfl
  have hremove : (s.remove (calls i).hash th).removed = s.removed ∧
      (s.remove (calls i).hash th).progress = s.progress := by
    rw [remove, if_pos hin]
    exact ⟨rfl, rfl⟩
  rw [hact]
  intro hkept
  rcases hkept k th (by rw [advance_progress, if_neg hne, hremove.2, hk]) with hstays | hgone
  · exact ((remove_torrents s _ _ _ _).mp hstays).2 ⟨hhash, rfl⟩
  · exact h.present _ th hin (hremove.1 ▸ hgone)

theorem lost_of_shared (h : Sane calls s) {i k : ThreadId} {th : TorrentId}
    (hi : (s.progress i).temporary = some th) (hin : s.torrents (calls i).hash = some th)
    (hk : (s.progress k).torrent = some th) (hne : k ≠ i)
    (hhash : (calls k).hash = (calls i).hash) :
    ∃ more, ¬ Kept calls (NativeSession.run calls s more) := by
  obtain ⟨hash, hcall⟩ := h.fetch i th hi
  unfold Progress.temporary at hi
  split at hi <;> cases hi
  · rename_i hp
    -- the fetch first gives the lock back
    have hact : s.act calls (.go i) = { s.advance i (.waiting th true) with lock := none } := by
      simp only [NativeSession.act, hcall, fetchStep, hp]
    have hsane := h.act (.go i)
    rw [hact] at hsane
    refine ⟨[.go i, .go i], ?_⟩
    change ¬ Kept calls ((s.act calls (.go i)).act calls (.go i))
    rw [hact]
    refine lost_of_waiting hsane ?_ hin ?_ hne hhash
    · exact (advance_progress s i _ i).trans (if_pos rfl)
    · change ((s.advance i _).progress k).torrent = _
      rw [advance_progress, if_neg hne, hk]
  · rename_i hp
    exact ⟨[.go i], lost_of_waiting h hp hin hk hne hhash⟩

/-- A call that takes a torrent goes on relying on it, a fetch in the middle as its owner. -/
theorem takes_act {i : ThreadId} {th : TorrentId} (hth : s.torrents (calls i).hash = some th)
    (htakes : s.takes calls i = true) :
    (s.progress i).torrent = none ∧ ∃ p, s.act calls (.go i) = s.advance i p ∧
      p.torrent = some th ∧
      ((∃ hash, calls i = .fetchMagnet hash) ∧ s.progress i = .missing →
        p.temporary = some th) := by
  have hadd : s.add (calls i).hash = (th, s) := by rw [add, hth]
  unfold takes at htakes
  split at htakes
  · rename_i hash hcall hp
    rw [hcall] at hth
    refine ⟨by rw [hp]; rfl, .handle th false, ?_, rfl, fun h => by rw [hp] at h; cases h.2⟩
    simp only [NativeSession.act, hcall, fetchStep, hp]
    rw [show s.torrents hash = some th from hth]
  · rename_i hash hcall hp
    refine ⟨by rw [hp]; rfl, .handle th true, ?_, rfl, fun _ => rfl⟩
    rw [hcall] at hadd
    simp only [NativeSession.act, hcall, fetchStep, hp]
    rw [show s.add hash = (th, s) from hadd]
  · rename_i hash hcall hp
    rw [hcall] at hth
    refine ⟨by rw [hp]; rfl, .returned th, ?_, rfl, fun h => by rw [hp] at h; cases h.2⟩
    simp only [NativeSession.act, hcall, downloadStep, hp]
    rw [show s.torrents hash = some th from hth]
    rfl
  · rename_i hash hcall hp
    refine ⟨by rw [hp]; rfl, .returned th, ?_, rfl, fun h => ?_⟩
    · rw [hcall] at hadd
      simp only [NativeSession.act, hcall, downloadStep, hp]
      rw [show s.add hash = (th, s) from hadd]
      rfl
    · obtain ⟨⟨_, hfetch⟩, -⟩ := h
      rw [hcall] at hfetch
      cases hfetch
  · cases htakes

theorem lost_of_not_clear (h : Sane calls s) {action : MagnetAction}
    (hclear : ¬ s.Clear calls action) :
    ∃ more, ¬ Kept calls (NativeSession.run calls (s.act calls action) more) := by
  cases action with
  | userRemove hash => exact absurd trivial hclear
  | go j =>
    simp only [Clear, not_forall] at hclear
    obtain ⟨th, hth, htakes, hshared⟩ := hclear
    rw [not_and_or, not_forall, not_not] at hshared
    obtain ⟨hbefore, p, hact, hp, hmissing⟩ := takes_act hth htakes
    have hsane := h.act (.go j)
    rw [hact] at hsane ⊢
    rcases hshared with ⟨i, hi⟩ | hfetch
    · -- the call takes a torrent that a fetch is going to remove
      have hi := not_not.mp hi
      have hne : j ≠ i := by
        rintro rfl
        rw [(Progress.torrent_of_temporary hi).1] at hbefore
        cases hbefore
      have hhash := h.hash i th _ hi hth
      refine lost_of_shared hsane (i := i) (k := j) ?_ (hhash ▸ hth) ?_ hne hhash
      · rwa [advance_progress, if_neg (Ne.symm hne)]
      · rwa [advance_progress, if_pos rfl]
    · -- a fetch is handed a torrent that another call has added
      obtain ⟨k, hk, howns⟩ := h.owner _ th hth
      have hrelies := Progress.torrent_of_owned howns
      have hne : k ≠ j := by
        rintro rfl
        rw [hrelies] at hbefore
        cases hbefore
      refine lost_of_shared hsane (i := j) (k := k) ?_ hth ?_ hne hk
      · rw [advance_progress, if_pos rfl]
        exact hmissing hfetch
      · rwa [advance_progress, if_neg hne]

end NativeSession

open NativeSession

/-- **Fetches and downloads that share nothing lose nothing**: as long as no call takes a torrent
    that a fetch is going to remove and no fetch is handed a torrent that was there, every torrent
    a call relies on stays until the user removes it. The first step that is not so already makes
    a loss possible. -/
theorem torrents_kept {calls : ThreadId → MagnetCall} {actions : List MagnetAction}
    (hclear : AllClear calls {} actions) :
    (∀ done rest, actions = done ++ rest → Kept calls (NativeSession.run calls {} done)) ∧
      ∀ action, ¬ (NativeSession.run calls {} actions).Clear calls action →
        ∃ more, ¬ Kept calls (NativeSession.run calls {} (actions ++ action :: more)) := by
  refine ⟨?_, fun action hnot => ?_⟩
  · rintro done rest rfl
    exact (inv_initial.run hclear.of_append).kept
  · obtain ⟨more, hlost⟩ := lost_of_not_clear (sane_run actions) hnot
    refine ⟨more, ?_⟩
    simpa only [NativeSession.run, List.foldl_append, List.foldl_cons] using hlost

namespace OneHash

/-- A fetch and a download of the same magnet link. -/
def calls (i : ThreadId) : MagnetCall := if i = 0 then .fetchMagnet 7 else .download 7 false

/-- The fetch ends before the download looks the info-hash up. -/
def sequential : List MagnetAction :=
  [.go 0, .go 0, .go 0, .go 0, .go 0, .go 1, .go 1]

theorem torrents_kept_sequential :
    Kept calls (NativeSession.run calls {} sequential) ∧
      (NativeSession.run calls {} sequential).torrents 7 = some 1 := by
  refine ⟨(torrents_kept ?_).1 sequential [] (List.append_nil _).symm, by decide +kernel⟩
  have hmissing : ∀ s : NativeSession, s.torrents 7 = none → ∀ i, s.Clear calls (.go i) := by
    intro s hnone i th hth
    have hhash : (calls i).hash = 7 := by
      unfold calls
      split <;> rfl
    rw [hhash, hnone] at hth
    cases hth
  have hpast : ∀ s : NativeSession, ∀ i, s.takes calls i = false → s.Clear calls (.go i) := by
    intro s i htakes th _ htakes'
    rw [htakes] at htakes'
    cases htakes'
  refine ⟨hmissing _ rfl 0, hmissing _ ?_ 0, hmissing _ ?_ 0, hpast _ 0 ?_, hpast _ 0 ?_,
    hmissing _ ?_ 1, hmissing _ ?_ 1, trivial⟩ <;> decide +kernel

/-- The download finds the temporary torrent and returns; then the fetch times out. -/
def overlapping : List MagnetAction := [.go 0, .go 0, .go 0, .go 0, .go 1, .go 0]

theorem download_lost : ¬ Kept calls (NativeSession.run calls {} overlapping) := by
  intro hkept
  have hreturned : ((NativeSession.run calls {} overlapping).progress 1).torrent = some 0 := by
    decide +kernel
  rcases hkept 1 0 hreturned with hin | hgone
  · exact absurd hin (by decide +kernel)
  · exact absurd hgone (by decide +kernel)

end OneHash

end Session
end Libtorrent4j
