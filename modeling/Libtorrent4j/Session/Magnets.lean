import Mathlib.Tactic

/-!
# Fetching and downloading the same torrent

`fetchMagnet` needs a torrent only for its metadata: it looks the info-hash up, adds a temporary
torrent when there is none, waits, and removes what it has added. `download` looks the info-hash
up too, and when there is a torrent it is content with it. **To `download` the temporary torrent
of a fetch is a torrent like any other**, and so it is to a second fetch. Both then rely on
something that its owner will remove.

The native session is a map from info-hashes to torrents with atomic operations. Every call is a
thread that makes one of them at a time; `syncMagnet` is held over the two of a fetch. A history
is a list of threads to go on with, so it is every interleaving, and the end of a wait is just the
moment the waiting thread goes on.
-/

namespace Libtorrent4j
namespace Session

abbrev InfoHash := Nat
abbrev ThreadId := Nat

/-- A torrent object of the session; a handle goes on naming it after it has been removed. -/
abbrev TorrentId := Nat

/-- A call with what it is about. `download(TorrentInfo)` rejects priorities that do not fit the
    torrent with an exception. -/
inductive MagnetCall where
  | fetchMagnet (hash : InfoHash)
  | download (hash : InfoHash) (rejects : Bool)
deriving DecidableEq, Repr

def MagnetCall.hash : MagnetCall → InfoHash
  | .fetchMagnet hash | .download hash _ => hash

/-- How far a call has come. -/
inductive Progress where
  | start
  /-- `syncMagnet` is held. -/
  | locked
  /-- `find_torrent` has found nothing. -/
  | missing
  /-- `th` and `add`, `syncMagnet` still held. -/
  | handle (th : TorrentId) (add : Bool)
  | waiting (th : TorrentId) (add : Bool)
  | ended
  /-- A download has returned; the torrent it has found or added. -/
  | returned (th : TorrentId)
  | thrown
deriving DecidableEq, Repr

namespace Progress

/-- The torrent the call relies on. -/
def torrent : Progress → Option TorrentId
  | handle th _ | waiting th _ | returned th => some th
  | _ => none

/-- The torrent the call will remove. -/
def temporary : Progress → Option TorrentId
  | handle th true | waiting th true => some th
  | _ => none

/-- The torrent whose stay in the session the call stands for. -/
def owned : Progress → Option TorrentId
  | handle th true | waiting th true | returned th => some th
  | _ => none

theorem torrent_of_temporary {p : Progress} {th : TorrentId} (h : p.temporary = some th) :
    p.torrent = some th ∧ p.owned = some th := by
  unfold temporary at h
  split at h <;> cases h <;> exact ⟨rfl, rfl⟩

theorem torrent_of_owned {p : Progress} {th : TorrentId} (h : p.owned = some th) :
    p.torrent = some th := by
  unfold owned at h
  split at h <;> cases h <;> rfl

end Progress

structure NativeSession where
  torrents : InfoHash → Option TorrentId := fun _ => none
  next : TorrentId := 0
  lock : Option ThreadId := none
  progress : ThreadId → Progress := fun _ => .start
  /-- The torrents the user has removed. -/
  removed : List TorrentId := []

namespace NativeSession

/-- The thread has come to `p`. -/
def advance (s : NativeSession) (i : ThreadId) (p : Progress) : NativeSession :=
  { s with progress := Function.update s.progress i p }

/-- `add_torrent` and `async_add_torrent`: the torrent that is there, or a new one. -/
def add (s : NativeSession) (hash : InfoHash) : TorrentId × NativeSession :=
  match s.torrents hash with
  | some th => (th, s)
  | none => (s.next, { s with
      torrents := Function.update s.torrents hash (some s.next)
      next := s.next + 1 })

/-- `remove_torrent`, of a handle that is no longer valid nothing at all. -/
def remove (s : NativeSession) (hash : InfoHash) (th : TorrentId) : NativeSession :=
  if s.torrents hash = some th then
    { s with torrents := Function.update s.torrents hash none }
  else s

/-- The next step of a `fetchMagnet`. -/
def fetchStep (s : NativeSession) (i : ThreadId) (hash : InfoHash) : NativeSession :=
  match s.progress i with
  | .start => if s.lock = none then { s.advance i .locked with lock := some i } else s
  | .locked =>
      match s.torrents hash with
      | some th => s.advance i (.handle th false)
      | none => s.advance i .missing
  | .missing => (s.add hash).2.advance i (.handle (s.add hash).1 true)
  | .handle th add => { s.advance i (.waiting th add) with lock := none }
  | .waiting th add => (if add then s.remove hash th else s).advance i .ended
  | _ => s

/-- The next step of a `download`. -/
def downloadStep (s : NativeSession) (i : ThreadId) (hash : InfoHash) (rejects : Bool) :
    NativeSession :=
  match s.progress i with
  | .start =>
      match s.torrents hash with
      | some th => if rejects then s.advance i .thrown else s.advance i (.returned th)
      | none => s.advance i .missing
  | .missing =>
      if rejects then s.advance i .thrown else (s.add hash).2.advance i (.returned (s.add hash).1)
  | _ => s

end NativeSession

/-- A thread goes on, or the user removes a torrent. -/
inductive MagnetAction where
  | go (thread : ThreadId)
  | userRemove (hash : InfoHash)
deriving DecidableEq, Repr

section Calls

variable (calls : ThreadId → MagnetCall)

def NativeSession.act (s : NativeSession) : MagnetAction → NativeSession
  | .go i =>
      match calls i with
      | .fetchMagnet hash => s.fetchStep i hash
      | .download hash rejects => s.downloadStep i hash rejects
  | .userRemove hash =>
      match s.torrents hash with
      | none => s
      | some th => { s with
          torrents := Function.update s.torrents hash none
          removed := th :: s.removed }

def NativeSession.run (s : NativeSession) (actions : List MagnetAction) : NativeSession :=
  actions.foldl (NativeSession.act calls) s

/-! ## What a step can do -/

namespace NativeSession

/-- The calls for which the next step takes a torrent that is there for their own. -/
def takes (calls : ThreadId → MagnetCall) (s : NativeSession) (i : ThreadId) : Bool :=
  match calls i, s.progress i with
  | .fetchMagnet _, .locked | .fetchMagnet _, .missing => true
  | .download _ false, .start | .download _ false, .missing => true
  | _, _ => false

/-- The ways a thread goes on: it comes to know nothing new; it meets a torrent that is there; it
    adds one; it ends its wait. -/
inductive Moves (s : NativeSession) (i : ThreadId) : NativeSession → Prop
  | rests : Moves s i s
  | passes (p : Progress) (lock : Option ThreadId) (htorrent : p.torrent = (s.progress i).torrent)
      (htemporary : p.temporary = (s.progress i).temporary)
      (howned : p.owned = (s.progress i).owned) : Moves s i { s.advance i p with lock }
  | meets (p : Progress) (th : TorrentId) (hth : s.torrents (calls i).hash = some th)
      (hp : p.torrent = some th) (hbefore : (s.progress i).torrent = none)
      (htakes : s.takes calls i = true)
      (htemporary : p.temporary = some th → ∃ hash, calls i = .fetchMagnet hash ∧
        s.progress i = .missing) : Moves s i (s.advance i p)
  | adds (p : Progress) (hnone : s.torrents (calls i).hash = none)
      (hp : p.torrent = some s.next) (howned : p.owned = some s.next)
      (hbefore : (s.progress i).torrent = none)
      (htemporary : p.temporary = some s.next → ∃ hash, calls i = .fetchMagnet hash) :
      Moves s i ({ s with
        torrents := Function.update s.torrents (calls i).hash (some s.next)
        next := s.next + 1 }.advance i p)
  | ends (th : TorrentId) (add : Bool) (hbefore : s.progress i = .waiting th add) :
      Moves s i ((if add then s.remove (calls i).hash th else s).advance i .ended)

theorem moves_add {s : NativeSession} {i : ThreadId} (p : TorrentId → Progress)
    (hbefore : (s.progress i).torrent = none) (htakes : s.takes calls i = true)
    (hp : ∀ th, (p th).torrent = some th)
    (howned : ∀ th, (p th).owned = some th)
    (htemporary : ∀ th, (p th).temporary = some th → ∃ hash, calls i = .fetchMagnet hash ∧
      s.progress i = .missing) :
    Moves calls s i ((s.add (calls i).hash).2.advance i (p (s.add (calls i).hash).1)) := by
  unfold add
  cases hth : s.torrents (calls i).hash with
  | none =>
    refine .adds _ hth (hp _) (howned _) hbefore fun h => ?_
    obtain ⟨hash, hcall, -⟩ := htemporary _ h
    exact ⟨hash, hcall⟩
  | some th => exact .meets _ th hth (hp th) hbefore htakes (htemporary th)

theorem moves_fetch {s : NativeSession} {i : ThreadId} {hash : InfoHash}
    (hcall : calls i = .fetchMagnet hash) : Moves calls s i (s.fetchStep i hash) := by
  obtain rfl : hash = (calls i).hash := by rw [hcall]; rfl
  unfold fetchStep
  cases hp : s.progress i with
  | start =>
    dsimp only
    split
    · exact .passes _ _ (by rw [hp]; rfl) (by rw [hp]; rfl) (by rw [hp]; rfl)
    · exact .rests
  | locked =>
    -- under the lock: the torrent of somebody else, or one to be added
    dsimp only
    cases hth : s.torrents (calls i).hash with
    | some th =>
      exact .meets _ th hth rfl (by rw [hp]; rfl) (by rw [takes, hcall, hp]) (by rintro ⟨⟩)
    | none => exact .passes _ s.lock (by rw [hp]; rfl) (by rw [hp]; rfl) (by rw [hp]; rfl)
  | missing =>
    exact moves_add calls (.handle · true) (by rw [hp]; rfl) (by rw [takes, hcall, hp])
      (fun _ => rfl) (fun _ => rfl)
      fun _ _ => ⟨_, hcall, hp⟩
  | handle th add =>
    refine .passes _ _ (by rw [hp]; rfl) ?_ ?_ <;> rw [hp] <;> cases add <;> rfl
  | waiting th add => exact .ends th add hp
  | ended => exact .rests
  | returned th => exact .rests
  | thrown => exact .rests

theorem moves_download {s : NativeSession} {i : ThreadId} {hash : InfoHash} {rejects : Bool}
    (hcall : calls i = .download hash rejects) :
    Moves calls s i (s.downloadStep i hash rejects) := by
  obtain rfl : hash = (calls i).hash := by rw [hcall]; rfl
  have hthrown : (s.progress i).torrent = none → (s.progress i).temporary = none →
      (s.progress i).owned = none → Moves calls s i (s.advance i .thrown) := fun h h' h'' =>
    .passes _ s.lock h.symm h'.symm h''.symm
  unfold downloadStep
  cases hp : s.progress i with
  | start =>
    rw [hp] at hthrown
    dsimp only
    cases hth : s.torrents (calls i).hash with
    | some th =>
      dsimp only
      split
      · exact hthrown rfl rfl rfl
      · rename_i haccepts
        rw [Bool.not_eq_true] at haccepts
        exact .meets _ th hth rfl (by rw [hp]; rfl) (by rw [takes, hcall, hp, haccepts])
          (by rintro ⟨⟩)
    | none => exact .passes _ s.lock (by rw [hp]; rfl) (by rw [hp]; rfl) (by rw [hp]; rfl)
  | missing =>
    rw [hp] at hthrown
    dsimp only
    split
    · exact hthrown rfl rfl rfl
    · rename_i haccepts
      rw [Bool.not_eq_true] at haccepts
      exact moves_add calls .returned (by rw [hp]; rfl)
        (by rw [takes, hcall, hp, haccepts]) (fun _ => rfl) (fun _ => rfl)
        (by rintro _ ⟨⟩)
  | locked => exact .rests
  | handle th add => exact .rests
  | waiting th add => exact .rests
  | ended => exact .rests
  | returned th => exact .rests
  | thrown => exact .rests

theorem moves_go (s : NativeSession) (i : ThreadId) : Moves calls s i (s.act calls (.go i)) := by
  cases hcall : calls i with
  | fetchMagnet hash =>
    have h := moves_fetch calls (s := s) hcall
    simpa only [act, hcall] using h
  | download hash rejects =>
    have h := moves_download calls (s := s) hcall
    simpa only [act, hcall] using h

theorem advance_progress (s : NativeSession) (i : ThreadId) (p : Progress) (j : ThreadId) :
    (s.advance i p).progress j = if j = i then p else s.progress j := by
  simp [advance, Function.update_apply]

/-- A torrent is gone after its removal, and nothing else is. -/
theorem remove_torrents (s : NativeSession) (hash hash' : InfoHash) (th th' : TorrentId) :
    (s.remove hash th).torrents hash' = some th' ↔
      s.torrents hash' = some th' ∧ ¬ (hash' = hash ∧ th' = th) := by
  unfold remove
  split
  · rename_i hth
    dsimp only
    by_cases heq : hash' = hash
    · subst heq
      simp [hth]
      exact Eq.symm
    · simp [heq]
  · rename_i hth
    constructor
    · refine fun h => ⟨h, fun ⟨hhash, heq⟩ => hth ?_⟩
      rw [← hhash, ← heq, h]
    · exact And.left

/-- The end of a call touches nothing but the torrents. -/
theorem ended_rest (s : NativeSession) (add : Bool) (hash : InfoHash) (th : TorrentId) :
    (if add then s.remove hash th else s).next = s.next ∧
      (if add then s.remove hash th else s).removed = s.removed ∧
      (if add then s.remove hash th else s).progress = s.progress := by
  unfold remove
  cases add with
  | false => exact ⟨rfl, rfl, rfl⟩
  | true =>
    rw [if_pos rfl]
    split <;> exact ⟨rfl, rfl, rfl⟩

/-- A call that added its torrent takes it out at the end, and no other. -/
theorem ended_torrents (s : NativeSession) (add : Bool) (hash hash' : InfoHash)
    (th th' : TorrentId) :
    (if add then s.remove hash th else s).torrents hash' = some th' ↔
      s.torrents hash' = some th' ∧ ¬ (add = true ∧ hash' = hash ∧ th' = th) := by
  cases add with
  | false => simp
  | true =>
    rw [if_pos rfl, remove_torrents, and_iff_right (rfl : true = true)]

end NativeSession

end Calls

end Session
end Libtorrent4j
