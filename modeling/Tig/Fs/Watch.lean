import Tig.Fs.Snap

set_option relaxedAutoImplicit false
set_option autoImplicit false

/-!
# Watching a working directory

A watcher sits in a loop: it waits for a batch of notifications about its working directory, and when
files have changed there it takes a snapshot of the workspace. The write lock is held for the snapshot
only, so other processes work on the repository in between. The notifier, the directory and the flag
that ends the loop are outside: what the loop meets when it comes around is a parameter of a round.

## Main definitions

* `Tig.callsForSnap` — the batches that lead to a snapshot.
* `Tig.WatchSession.round` — what the loop does with what it meets.
* `Tig.watchAndSnap` — a whole session, for the rounds that it goes through.
* `Tig.WatchRun` — sessions with other processes at work between the rounds.
-/

namespace Tig

open Program

/-! ## Notifications -/

/-- What a notification says has happened. -/
inductive EventKind where
  | any | access | create | modify | remove | other
deriving DecidableEq, Repr

/-- A notification: what has happened, and the paths that it has happened to. -/
structure DebouncedEvent where
  kind : EventKind
  paths : List (List String)
deriving DecidableEq, Repr

/-- Has a file come, gone or changed? -/
def EventKind.meaningful : EventKind → Bool
  | create | modify | remove => true
  | any | access | other => false

/-- Is one of the paths not below `.tig`, and has a file come, gone or changed? The two may be said by
different notifications of the batch. -/
def callsForSnap (tigDir : List String) (events : List DebouncedEvent) : Bool :=
  (events.any fun de => de.paths.any fun p => !tigDir.isPrefixOf p) &&
    events.any fun de => de.kind.meaningful

/-- What comes of waiting for the next batch. -/
inductive Received where
  | events (events : List DebouncedEvent)
  | errors (errors : List String)
  | timeout
  | disconnected
deriving DecidableEq, Repr

/-- What the loop meets when it comes around: whether it is to stop, what it receives if not, and what
the working directory holds at a snapshot. -/
structure WatchRound where
  stop : Bool
  received : Received
  copy : WorkingCopy

/-- Does the loop end here? -/
def WatchRound.ends (r : WatchRound) : Bool := r.stop || r.received = .disconnected

/-- Does the loop take a snapshot here? -/
def WatchRound.snaps (tigDir : List String) (r : WatchRound) : Bool :=
  !r.stop && match r.received with
    | .events events => callsForSnap tigDir events
    | _ => false

/-! ## The loop -/

/-- What went wrong: a snapshot, or the notifier. -/
inductive WatchError where
  | snap (e : Error)
  | notify (text : String)
deriving DecidableEq, Repr

/-- What a session tells its caller. -/
inductive WatchEvent (H : Type) where
  | started (workdir : String)
  | snap (out : SnapOutcome H)
  | idle
  | error (e : WatchError)
  | stopped

/-- Where a session has got to: the world, with the session's handle on the log, what the caller has
been told, and whether the loop goes on. -/
structure WatchSession (H : Type) where
  world : World H
  emitted : List (WatchEvent H)
  running : Bool

variable {H : Type} [LinearOrder H] [Format H]

/-- Snapshot a workspace, with the write lock held for that alone. -/
def snapUnderLock (ws : Workspace) (copy : WorkingCopy) (opts : SnapOptions) :
    RepoM H (SnapOutcome H) := do
  lockForWrite
  snapNow ws copy opts

namespace WatchSession

/-- A session that the notifier has been set up for. -/
def start (ws : Workspace) (w : World H) : WatchSession H := ⟨w, [.started ws.workdir], true⟩

/-- Tell the caller. -/
def emit (s : WatchSession H) (events : List (WatchEvent H)) : WatchSession H :=
  { s with emitted := s.emitted ++ events }

/-- Leave the loop. -/
def finish (s : WatchSession H) : WatchSession H := { s.emit [.stopped] with running := false }

/-- Take a snapshot and tell the caller what came of it. -/
def snap (ws : Workspace) (opts : SnapOptions) (s : WatchSession H) (copy : WorkingCopy) :
    WatchSession H :=
  match snapUnderLock ws copy opts s.world with
  | .ok out w => { s with world := w }.emit [.snap out]
  | .error e w => { s with world := w }.emit [.error (.snap e)]

/-- One round of the loop. -/
def round (tigDir : List String) (ws : Workspace) (opts : SnapOptions) (s : WatchSession H)
    (r : WatchRound) : WatchSession H :=
  if s.running = false then s
  else if r.stop then s.finish
  else match r.received with
    | .events events =>
      if callsForSnap tigDir events then s.snap ws opts r.copy else s.emit [.idle]
    | .errors errors => s.emit (errors.map fun e => .error (.notify e))
    | .timeout => s
    | .disconnected => s.finish

end WatchSession

/-- A session that goes through the rounds. `setup` is what setting up the notifier comes to. -/
def watchAndSnap (setup : Except String Unit) (tigDir : List String) (ws : Workspace)
    (opts : SnapOptions) (rounds : List WatchRound) (w : World H) :
    Except String (WatchSession H) :=
  setup.map fun _ => rounds.foldl (WatchSession.round tigDir ws opts) (.start ws w)

/-! ## Other processes -/

/-- The sessions that are reached from a world, and the rounds they have gone through. Between rounds
other processes may lead from one world to another, as far as `others` allows it; the session keeps its
own handle on the log. -/
inductive WatchRun (others : World H → World H → Prop) (tigDir : List String) (ws : Workspace)
    (opts : SnapOptions) (w : World H) : List WatchRound → WatchSession H → Prop
  | start : WatchRun others tigDir ws opts w [] (.start ws w)
  | round {rounds : List WatchRound} {s : WatchSession H}
      (h : WatchRun others tigDir ws opts w rounds s) (r : WatchRound) :
      WatchRun others tigDir ws opts w (rounds ++ [r]) (s.round tigDir ws opts r)
  | meanwhile {rounds : List WatchRound} {s : WatchSession H}
      (h : WatchRun others tigDir ws opts w rounds s) (w' : World H) (hw' : others s.world w') :
      WatchRun others tigDir ws opts w rounds { s with world := { w' with log := s.world.log } }

variable {others : World H → World H → Prop} {tigDir : List String} {ws : Workspace}
  {opts : SnapOptions} {w : World H}

/-- A session on its own is one of these. -/
theorem WatchRun.of_rounds (rounds : List WatchRound) :
    WatchRun others tigDir ws opts w rounds
      (rounds.foldl (WatchSession.round tigDir ws opts) (.start ws w)) := by
  suffices h : ∀ (rounds done : List WatchRound) (s : WatchSession H),
      WatchRun others tigDir ws opts w done s → WatchRun others tigDir ws opts w (done ++ rounds)
        (rounds.foldl (WatchSession.round tigDir ws opts) s) from h rounds [] _ .start
  intro rounds
  induction rounds with
  | nil =>
    intro done s h
    rwa [List.append_nil]
  | cons r rounds ih =>
    intro done s h
    rw [List.append_cons]
    exact ih (done ++ [r]) _ (h.round r)

theorem watchAndSnap_run {setup : Except String Unit} {rounds : List WatchRound} {s : WatchSession H}
    (h : watchAndSnap setup tigDir ws opts rounds w = .ok s) :
    WatchRun others tigDir ws opts w rounds s := by
  cases setup with
  | error e => cases h
  | ok u => exact Except.ok.inj h ▸ .of_rounds rounds

namespace WatchSession

variable {s : WatchSession H} {r : WatchRound}

/-- The world after a snapshot. -/
theorem snap_world (copy : WorkingCopy) :
    (s.snap ws opts copy).world = final (snapUnderLock ws copy opts) s.world := by
  rw [snap, final]
  cases snapUnderLock ws copy opts s.world with
  | ok out w => rfl
  | error e w => rfl

/-- A round in which a snapshot is taken. -/
theorem round_of_snaps (hrun : s.running = true) (hr : r.snaps tigDir = true) :
    s.round tigDir ws opts r = s.snap ws opts r.copy := by
  rw [WatchRound.snaps, Bool.and_eq_true, Bool.not_eq_true'] at hr
  obtain ⟨hstop, hreceived⟩ := hr
  rw [round, if_neg (by rw [hrun]; decide), if_neg (by rw [hstop]; decide)]
  cases hr : r.received with
  | events events =>
    rw [hr] at hreceived
    exact if_pos hreceived
  | errors errors =>
    rw [hr] at hreceived
    cases hreceived
  | timeout =>
    rw [hr] at hreceived
    cases hreceived
  | disconnected =>
    rw [hr] at hreceived
    cases hreceived

/-- Any other round leaves the world alone, and tells of no snapshot. -/
theorem round_of_not_snaps (s : WatchSession H) (ws : Workspace) (opts : SnapOptions)
    (hr : r.snaps tigDir = false) :
    (s.round tigDir ws opts r).world = s.world ∧ ∃ events,
      (s.round tigDir ws opts r).emitted = s.emitted ++ events ∧
        ∀ out, WatchEvent.snap out ∉ events := by
  rw [round]
  split_ifs with hrun hstop
  · exact ⟨rfl, [], (List.append_nil _).symm, by simp⟩
  · exact ⟨rfl, [.stopped], rfl, by simp⟩
  · rw [WatchRound.snaps, Bool.not_eq_true _ |>.mp hstop, Bool.not_false, Bool.true_and] at hr
    cases hreceived : r.received with
    | events events =>
      rw [hreceived] at hr
      dsimp only at hr ⊢
      rw [if_neg (by rw [hr]; decide)]
      exact ⟨rfl, [.idle], rfl, by simp⟩
    | errors errors => exact ⟨rfl, _, rfl, by simp⟩
    | timeout => exact ⟨rfl, [], (List.append_nil _).symm, by simp⟩
    | disconnected => exact ⟨rfl, [.stopped], rfl, by simp⟩

end WatchSession

end Tig
