import Mathlib.Data.List.Destutter
import Mathlib.Data.List.TakeWhile
import Tig.Fs.Watch
import Tig.System.Processes
import Tig.System.Served
import Tig.System.Writers

set_option relaxedAutoImplicit false
set_option autoImplicit false

/-!
# What a watcher records

A watcher wakes up for much that changes nothing: files that the scan skips, saves without a change, and
above all what other workspaces keep in the directory. Each time it snapshots, and a snapshot records
nothing when the tree is the one that is checked out. So what a session records is what it sees, without
repetitions; and whatever other processes do in between, what it tells its caller is true.

## Main definitions

* `Tig.Workspace.At` — the tree that is checked out in a workspace.
* `Tig.sightings` — the trees that a session sees.
* `Tig.WatchEvent.TrueOf` — what an event says of the step that it was told after.

## Main results

* `Tig.watch_records_changes` — **a session records each change once**.
* `Tig.watch_tells_truth` — **what a session tells is true**, in any interleaving.
-/

namespace Tig

open Program

variable {H : Type} [LinearOrder H] [Format H]

/-! ## Repetitions -/

/-- One more element is dropped if it repeats the last one. -/
theorem destutter_concat {α : Type} [DecidableEq α] (l : List α) (a : α) :
    (l ++ [a]).destutter (· ≠ ·) =
      if l.getLast? = some a then l.destutter (· ≠ ·) else l.destutter (· ≠ ·) ++ [a] := by
  cases l with
  | nil => simp
  | cons b l =>
    rw [List.cons_append, List.destutter_cons', List.destutter_cons']
    induction l generalizing b with
    | nil =>
      rw [List.nil_append, List.destutter'_singleton, List.destutter'_nil, List.getLast?_singleton]
      by_cases h : b = a <;> simp [h]
    | cons c l ih =>
      rw [List.cons_append, List.getLast?_cons_cons]
      by_cases h : b = c
      · subst h
        rw [List.destutter'_cons_neg _ (not_not.mpr rfl), List.destutter'_cons_neg _ (not_not.mpr rfl)]
        exact ih b
      · rw [List.destutter'_cons_pos _ h, List.destutter'_cons_pos _ h, ih c]
        split_ifs <;> rfl

/-! ## What is checked out -/

/-- The tree that is checked out in a workspace: that of the current snapshot of its change, or none when
it has no change. -/
inductive Workspace.At (ws : Workspace) (repo : Repo H) : Option H → Prop
  | change {id : ChangeId} (c : ChangeAt H id) (snap : Snapshot H)
      (hws : ws.current repo.refs = some id) (hc : repo.refs.changes.lookup id = some c)
      (hsnap : repo.objects.load c.1.current = .ok snap) : At ws repo (some snap.tree)
  | fresh (hws : ws.current repo.refs = none) : At ws repo none

/-- The change of a workspace has what the directory holds. -/
def Workspace.Mirrors (ws : Workspace) (ignore : List String) (copy : WorkingCopy) (repo : Repo H) :
    Prop :=
  ∃ id, ws.current repo.refs = some id ∧ ∀ path, repo.entryOf id path = recordedAt ignore copy path

variable {ws : Workspace} {opts : SnapOptions} {copy : WorkingCopy} {repo repo' : Repo H}
  {cur : Option H}

/-- Objects that are stored do not change what is checked out. -/
theorem Workspace.At.mono (h : ws.At repo cur) (hrefs : repo'.refs = repo.refs)
    (hle : repo.objects.Le repo'.objects) : ws.At repo' cur := by
  cases h with
  | change c snap hws hc hsnap =>
    exact .change c snap (hrefs ▸ hws) (hrefs ▸ hc) (hle.load hsnap)
  | fresh hws => exact .fresh (hrefs ▸ hws)

/-- What is checked out is the tree of any snapshot that the change is at. -/
theorem Workspace.At.eq (h : ws.At repo cur) {id : ChangeId} {c : ChangeAt H id} {s : ObjectStore H}
    {snap : Snapshot H} (hws : ws.current repo.refs = some id)
    (hc : repo.refs.changes.lookup id = some c) (hle : repo.objects.Le s)
    (hsnap : s.load c.1.current = .ok snap) : cur = some snap.tree := by
  cases h with
  | change c' snap' hws' hc' hsnap' =>
    obtain rfl := Option.some.inj (hws'.symm.trans hws)
    obtain rfl := Option.some.inj (hc'.symm.trans hc)
    obtain rfl := Except.ok.inj ((hle.load hsnap').symm.trans hsnap)
    rfl
  | fresh hws' =>
    rw [hws'] at hws
    cases hws

/-- What is checked out is what was recorded of the directory. -/
theorem Workspace.At.mirrors {tree : Tree H} (h : ws.At repo (some ((encode H tree).hash H)))
    (htree : recordTree opts.ignore copy = some tree)
    (hs : CopyStoredIn repo.objects opts.ignore copy) : ws.Mirrors opts.ignore copy repo := by
  generalize hcur : some ((encode H tree).hash H) = cur at h
  cases h with
  | change c snap hws hc hsnap =>
    exact ⟨_, hws, Repo.entryOf_recorded hc hsnap (Option.some.inj hcur).symm htree hs⟩
  | fresh hws => cases hcur

/-! ## One snapshot -/

variable {w w' : World H}

/-- What a snapshot of a workspace says has happened: nothing was recorded, as the tree that was seen is
the one that is checked out, or the tree has been recorded, and was not checked out before. -/
def SnapOutcome.TrueOf (ws : Workspace) (opts : SnapOptions) (tree : H) (w w' : World H) :
    SnapOutcome H → Prop
  | unchanged _ => w'.repo.refs = w.repo.refs ∧ w'.repo.oplog = w.repo.oplog ∧
      ∀ cur, ws.At w.repo cur → cur = some tree
  | snapped h tree' _ _ => tree' = tree ∧
      (opts.message = none → opts.force = false → ∀ cur, ws.At w.repo cur → cur ≠ some tree) ∧
      ∃ op : Op H, w'.repo.oplog = w.repo.oplog ++ [op] ∧ op.kind = .snap h opts.message ∧
        op.id = w.log.nextId

/-- What a snapshot of a workspace leads to: the tree that was seen is checked out. -/
structure SnapOutcome.LeadsTo (ws : Workspace) (opts : SnapOptions) (copy : WorkingCopy)
    (out : SnapOutcome H) (w w' : World H) (tree : Tree H) : Prop where
  recorded : recordTree opts.ignore copy = some tree
  env : w'.env = w.env
  intact : w'.repo.objects.Intact
  checkedOut : ws.At w'.repo (some ((encode H tree).hash H))
  stored : CopyStoredIn w'.repo.objects opts.ignore copy
  trueOf : out.TrueOf ws opts ((encode H tree).hash H) w w'

/-- Why a snapshot of a workspace fails: a step does, the directory cannot be recorded, or the change or
its snapshot is not there. -/
def SnapFails (ws : Workspace) (opts : SnapOptions) (copy : WorkingCopy) (w : World H) (e : Error) :
    Prop :=
  (∃ k n, w.env.failure k n = some e) ∨ recordTree opts.ignore copy = (none : Option (Tree H)) ∨
    ∃ id, ws.current w.repo.refs = some id ∧ ∀ c, w.repo.refs.changes.lookup id = some c →
      ∀ prev : Snapshot H, w.repo.objects.load c.1.current ≠ .ok prev

/-- **A snapshot of a workspace** leads to what the directory holds, or fails. -/
theorem snapNow_leadsTo [LawfulFormat H] (hi : w.repo.objects.Intact) :
    Post (snapNow ws copy opts) w (fun out w' => ∃ tree, out.LeadsTo ws opts copy w w' tree)
      (fun e w' => (w.Quiet w' ∨ ¬ w.env.Reliable) ∧ SnapFails ws opts copy w e) := by
  refine snapNow_spec ?_ ?_
    (fun e w' hq he => ⟨.inl hq, he.imp_left fun ⟨k, n, _, hf⟩ => ⟨k, n, hf⟩⟩)
    (fun _ _ _ _ _ e w' _ _ _ _ _ hfail => ?_)
  · intro tree base n prev w' hg htree hbase hfresh hprev hun
    cases hbase with
    | fresh => cases hfresh
    | current id c hws hc =>
      simp only [SnapOptions.unchanged, Bool.and_eq_true, decide_eq_true_eq] at hun
      have hq := hg.quiet
      refine ⟨tree, htree, hq.env, hq.intact hi, ?_, hg.stored hi, hq.refs, hq.oplog,
        fun cur hat => ?_⟩
      · rw [← hun.1.1]
        exact .change c prev (hq.refs ▸ hws) (hq.refs ▸ hc) hprev
      · rw [← hun.1.1]
        exact hat.eq hws hc hq.le hprev
  · intro tree base n s' now op w' htree hbase hn _ hle hadv snap h hcom hid hkind _ hload
    obtain ⟨hsnap, hstored⟩ := hload hi
    refine ⟨tree, htree, hcom.env, hcom.intact hi, ?_, hstored, rfl,
      fun hmessage hforce cur hat hcur => ?_, op, hcom.oplog, hkind, hid⟩
    · cases hbase with
      | current id c hws hc =>
        have hadvanced : (c.1.advance h).id = id := (Change.advance_id _ _).trans c.2
        have hrefs : w'.repo.refs = w.repo.refs.write (.ofChange (c.1.advance h)) := hcom.refs
        refine .change (⟨c.1.advance h, hadvanced⟩ : ChangeAt H id) snap ?_ ?_ ?_
        · rw [hrefs]
          exact hws
        · rw [hrefs]
          exact lookup_write_change _ hadvanced
        · rw [Change.advance_current]
          exact hsnap
      | fresh hws =>
        -- only the main workspace can be without a change, and HEAD now names the fresh one
        obtain ⟨_ | m, dir⟩ := ws
        · have hrefs : w'.repo.refs = (w.repo.refs.write (.ofChange _)).write (.head _) := hcom.refs
          refine .change ⟨_, rfl⟩ snap (by rw [hrefs]; rfl) ?_ hsnap
          rw [hrefs]
          exact lookup_write_change _ rfl
        · cases hws
    · rw [SnapBase.Advances] at hadv
      cases hbase with
      | current id c hws hc =>
        rcases hadv with hfresh | ⟨prev, hprev, hun⟩
        · cases hfresh
        · rw [hat.eq hws hc hle hprev] at hcur
          rw [SnapOptions.unchanged, hmessage, hforce, Option.some.inj hcur] at hun
          simp at hun
      | fresh hws =>
        cases hat with
        | change c snap hws' =>
          rw [hws] at hws'
          cases hws'
        | fresh => cases hcur
  · have hfault : ∃ k n, w.env.failure k n = some e := by
      rcases hfail with ⟨i, hi, hf, -, -⟩ | ⟨hf, -, -⟩ | ⟨hf, -, -, -⟩ <;> exact ⟨_, _, hf⟩
    refine ⟨.inr fun hrel => ?_, .inl hfault⟩
    obtain ⟨k, n, hf⟩ := hfault
    rw [hrel.failure] at hf
    cases hf

/-- The same under the write lock. -/
theorem snapUnderLock_leadsTo [LawfulFormat H] (hi : w.repo.objects.Intact) :
    Post (snapUnderLock ws copy opts) w (fun out w' => ∃ tree, out.LeadsTo ws opts copy w w' tree)
      (fun e w' => (w.Quiet w' ∨ ¬ w.env.Reliable) ∧ SnapFails ws opts copy w e) := by
  rw [snapUnderLock, post_bind, lockForWrite, post_step]
  have hq : w.Quiet (w.tick .lock) := .of_repo (.tick w (by simp [FsStep.Mutates])) rfl
  refine ⟨fun _ => ?_, fun e he => ⟨.inl hq, .inl ⟨_, _, he⟩⟩⟩
  refine (snapNow_leadsTo (w := w.tick .lock) hi).mono (fun out w' h => ?_) (fun e w' h => ?_)
  · obtain ⟨tree, h⟩ := h
    refine ⟨tree, h.recorded, h.env, h.intact, h.checkedOut, h.stored, ?_⟩
    cases out <;> exact h.trueOf
  · exact ⟨h.1.imp_left hq.trans, h.2⟩

/-- One snapshot of `tig watch` is one with its options. -/
theorem lockedWatch_eq (principal : PrincipalId) :
    (lockedWatch ws principal copy : RepoM H _) =
      snapUnderLock ws copy { SnapOptions.default with author := principal } := rfl

/-! ## What a session records -/

/-- The tree that a snapshot recorded. -/
def WatchEvent.snappedTree : WatchEvent H → Option H
  | snap (.snapped _ tree _ _) => some tree
  | _ => none

/-- Other processes have left alone what is checked out in the workspace. Object files are still what
their names say, and no step of the session is about to fail. -/
structure LeavesAlone (ws : Workspace) (w w' : World H) : Prop where
  reliable : w.env.Reliable → w'.env.Reliable
  intact : w.repo.objects.Intact → w'.repo.objects.Intact
  checkedOut : ∀ cur, ws.At w.repo cur → ws.At w'.repo cur

variable {tigDir : List String} {rounds : List WatchRound} {s : WatchSession H}

/-- What has been recorded, after one more snapshot: the tree is that of the last record, or is recorded. -/
theorem SnapOutcome.TrueOf.destutter {out : SnapOutcome H} {trees : List H} {tree : H}
    (h : out.TrueOf ws opts tree w w') (hmessage : opts.message = none) (hforce : opts.force = false)
    (hat : ws.At w.repo trees.getLast?) :
    (trees ++ [tree]).destutter (· ≠ ·) =
      trees.destutter (· ≠ ·) ++ [WatchEvent.snap out].filterMap WatchEvent.snappedTree := by
  rw [destutter_concat]
  cases out with
  | unchanged change =>
    rw [if_pos (h.2.2 _ hat)]
    exact (List.append_nil _).symm
  | snapped snapshot tree' change fresh =>
    obtain ⟨rfl, hne, -⟩ := h
    rw [if_neg (hne hmessage hforce _ hat)]
    rfl

namespace SavedTwice

/-- A file is saved. -/
def save : WatchRound :=
  ⟨false, .events [⟨.modify, [["repo", "f"]]⟩], [([102], .file [104] false)]⟩

/-- The file is saved, the watcher writes below `.tig`, and the file is saved again as it is. -/
def met : List WatchRound :=
  [save, ⟨false, .events [⟨.modify, [["repo", ".tig", "HEAD"]]⟩], save.copy⟩,
    ⟨false, .timeout, save.copy⟩, save, ⟨true, .timeout, save.copy⟩]

/-- The workspace. -/
def home : Workspace := ⟨.main, "repo"⟩

/-- The session at its start, in a fresh repository. -/
def started : WatchSession PlainHash := .start home (World.fresh Env.calm)

/-- The session after the rounds. -/
def session : WatchSession PlainHash :=
  met.foldl (WatchSession.round ["repo", ".tig"] home .default) started

theorem run : WatchRun (LeavesAlone home) ["repo", ".tig"] home .default (World.fresh Env.calm) met
    session := .of_rounds met

end SavedTwice

set_option maxRecDepth 1000000 in
example : (SavedTwice.session.emitted.filterMap WatchEvent.snappedTree).length = 1 := rfl

/-! ## What a session tells -/

/-- What an event says of the step that it was told after: the change has what the directory holds, which
was recorded or was there before, or the snapshot failed for one of three reasons. -/
inductive WatchEvent.TrueOf (ws : Workspace) (opts : SnapOptions) (copy : WorkingCopy) (w w' : World H) :
    WatchEvent H → Prop
  | snapped (snapshot tree : H) (change : Change H) (fresh : Bool)
      (hmirrors : ws.Mirrors opts.ignore copy w'.repo)
      (hat : ws.At w'.repo (some tree))
      (hop : ∃ op : Op H, w'.repo.oplog = w.repo.oplog ++ [op] ∧ op.kind = .snap snapshot opts.message ∧
        op.id = w.log.nextId) : TrueOf ws opts copy w w' (.snap (.snapped snapshot tree change fresh))
  | unchanged (change : Change H) (hmirrors : ws.Mirrors opts.ignore copy w'.repo)
      (hrefs : w'.repo.refs = w.repo.refs) (hoplog : w'.repo.oplog = w.repo.oplog) :
      TrueOf ws opts copy w w' (.snap (.unchanged change))
  | failed (e : Error) (hwhy : (∃ k n, w.env.failure k n = some e) ∨
        recordTree opts.ignore copy = (none : Option (Tree H)) ∨
        ∃ id, ws.current w.repo.refs = some id ∧ w.repo.refs.changes.lookup id = none) :
      TrueOf ws opts copy w w' (.error (.snap e))

/-- The repository is one that commands and requests work on. -/
def Repo.IsServed (L : Prop) (repo : Repo H) : Prop := ∃ w : World H, Served L w ∧ w.repo = repo

/-- A snapshot under the lock is one more command. -/
theorem Repo.IsServed.snapUnderLock {L : Prop} (h : w.repo.IsServed L) :
    (final (snapUnderLock ws copy opts) w).repo.IsServed L := by
  obtain ⟨w₀, hserved, hrepo⟩ := h
  refine Post.final (P := fun w' : World H => w'.repo.IsServed L) ?_
  rw [Tig.snapUnderLock, post_bind, lockForWrite, post_step]
  refine ⟨fun _ => ?_, fun e _ => ⟨w₀, hserved, hrepo⟩⟩
  have htick : (w.tick .lock).repo = w₀.repo := hrepo.symm
  exact .of_final ⟨_, hserved.operation htick (.snapNow ws copy opts) trivial, rfl⟩

/-- A session works on a repository that commands and requests work on. -/
theorem WatchRun.isServed {L : Prop} (hw : w.repo.IsServed L)
    (hrun : WatchRun (fun _ w' => w'.repo.IsServed L) tigDir ws opts w rounds s) :
    s.world.repo.IsServed L := by
  induction hrun with
  | start => exact hw
  | meanwhile _ w' hw' _ => exact hw'
  | @round rounds s _ r ih =>
    cases hr : r.snaps tigDir with
    | false =>
      rw [(WatchSession.round_of_not_snaps s ws opts hr).1]
      exact ih
    | true =>
      cases hgo : s.running with
      | false =>
        rw [WatchSession.round, if_pos hgo]
        exact ih
      | true =>
        rw [WatchSession.round_of_snaps hgo hr, WatchSession.snap_world]
        exact ih.snapUnderLock

/-- Nothing dangles in it. -/
theorem Repo.IsServed.complete {L : Prop} [LawfulFormat H] (h : w.repo.IsServed L) :
    w.Complete L := by
  obtain ⟨w₀, hserved, hrepo⟩ := h
  exact hserved.complete.congr hrepo.symm

/-- **What a session tells is true**, whatever other processes do between its rounds and whichever steps
fail: a round that is to take a snapshot tells of one event, and that is true of the step. -/
theorem watch_tells_truth [LawfulFormat H] (hw : w.repo.IsServed True)
    (hrun : WatchRun (fun _ w' => w'.repo.IsServed True) tigDir ws opts w rounds s)
    (hgo : s.running = true) {r : WatchRound} (hr : r.snaps tigDir = true) :
    ∃ event, (s.round tigDir ws opts r).emitted = s.emitted ++ [event] ∧
      event.TrueOf ws opts r.copy s.world (s.round tigDir ws opts r).world := by
  have hcomplete := (hrun.isServed hw).complete
  rw [WatchSession.round_of_snaps hgo hr, WatchSession.snap]
  split
  · rename_i out w' hout
    obtain ⟨tree, hleads⟩ := (snapUnderLock_leadsTo hcomplete.closed.intact).ok hout
    have hmirrors := hleads.checkedOut.mirrors hleads.recorded hleads.stored
    refine ⟨.snap out, rfl, ?_⟩
    cases out with
    | unchanged change => exact .unchanged change hmirrors hleads.trueOf.1 hleads.trueOf.2.1
    | snapped snapshot tree' change fresh =>
      obtain ⟨rfl, -, hop⟩ := hleads.trueOf
      exact .snapped snapshot _ change fresh hmirrors hleads.checkedOut hop
  · rename_i e w' hout
    obtain ⟨-, hwhy⟩ := (snapUnderLock_leadsTo hcomplete.closed.intact).error hout
    refine ⟨.error (.snap e), rfl, .failed e (hwhy.imp_right (.imp_right fun h => ?_))⟩
    obtain ⟨id, hid, hmissing⟩ := h
    refine ⟨id, hid, ?_⟩
    cases hc : s.world.repo.refs.changes.lookup id with
    | none => rfl
    | some c =>
      obtain ⟨prev, hprev⟩ := hcomplete.snapshots trivial hc List.mem_cons_self
      exact absurd hprev (hmissing c hc prev)

/-- What the session tells when the file is saved is true. -/
theorem watch_tells_truth_save : ∃ event,
    (SavedTwice.started.round ["repo", ".tig"] SavedTwice.home .default SavedTwice.save).emitted =
        SavedTwice.started.emitted ++ [event] ∧
      event.TrueOf SavedTwice.home .default SavedTwice.save.copy SavedTwice.started.world
        (SavedTwice.started.round ["repo", ".tig"] SavedTwice.home .default SavedTwice.save).world :=
  watch_tells_truth ⟨_, .start (World.fresh Env.calm) rfl, rfl⟩ .start rfl rfl

end Tig
