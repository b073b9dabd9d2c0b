import Tig.Daemon.Attempts
import Tig.Guarantees.Callers
import Tig.Guarantees.Oplog

set_option relaxedAutoImplicit false
set_option autoImplicit false

/-!
# Operations that fail

An operation that fails leaves refs and log as they were, unless the step that fails comes after a
write that has changed something: refs are written before the record, so that a failing record leaves
refs that no record tells of, and a failing sync leaves the record of an operation that has failed.

## Main definitions

* `Tig.World.failing` — a state in which one step to come fails.
* `Tig.LoggedOp` — the operations that write refs and record it.
* `Tig.LoggedOp.AllOrNothing` — if the operation fails it has written neither refs nor log.
* `Tig.LoggedOp.Spoils` — the failure of a step comes too late.

## Main results

* `Tig.LoggedOp.allOrNothing_iff` — **which failures leave nothing behind**.
* `Tig.not_allOrNothing` — one that leaves a change that no record tells of.
-/

namespace Tig

open Program

variable {H : Type}

/-! ## Failures -/

/-- The state in which the `i`-th step of a kind from here on fails, and no other step. -/
def World.failing (w : World H) (k : FsStep) (i : Nat) (msg : String) : World H :=
  { w with env := { w.env with
      fails := fun k' n => if k' = k ∧ n = w.ticks k + i then some msg else none } }

/-- HEAD, the records of changes, the manifests of workspaces and the log are as they were. -/
structure Repo.Untouched (repo repo' : Repo H) : Prop where
  head : repo'.refs.head = repo.refs.head
  changes : repo'.refs.changes = repo.refs.changes
  workspaces : repo'.refs.workspaces = repo.refs.workspaces
  oplog : repo'.oplog = repo.oplog

/-- The state in which a program stops when it fails. -/
def errorState {ε σ α : Type} (x : EStateM ε σ α) (s : σ) : Option σ :=
  match x s with
  | .ok _ _ => none
  | .error _ s' => some s'

/-- The operations that write refs and record it. -/
inductive LoggedOp (H : Type) where
  | snapNow (ws : Workspace) (copy : WorkingCopy) (opts : SnapOptions)
  | snapChangeDirectly (changeId : ChangeId) (newTree : H) (opts : SnapOptions)
  | createChange (srv : Server) (headers : HeaderMap) (req : CreateChangeReq)
  | transitionChange (srv : Server) (id : String) (headers : HeaderMap) (req : TransitionReq)
  | undoOnce (actor : PrincipalId)

section Defs

variable [LinearOrder H] [Format H]

/-- The state in which the operation stops when it fails. -/
def LoggedOp.errorState (op : LoggedOp H) (w : World H) : Option (World H) :=
  match op with
  | snapNow ws copy opts => Tig.errorState (Tig.snapNow ws copy opts) w
  | snapChangeDirectly changeId newTree opts =>
      Tig.errorState (Tig.snapChangeDirectly changeId newTree opts) w
  | createChange srv headers req => Tig.errorState (Handlers.createChange srv headers req) w
  | transitionChange srv id headers req =>
      Tig.errorState (Handlers.transitionChange srv id headers req) w
  | undoOnce actor => Tig.errorState (Tig.undoOnce actor) w

/-- If the operation fails, neither refs nor log have changed. -/
def LoggedOp.AllOrNothing (op : LoggedOp H) (w : World H) : Prop :=
  ∀ w', op.errorState w = some w' → w.repo.Untouched w'.repo

/-- There is something to record: the working copy can be recorded, and if a change is checked out, its
snapshot is there and has another tree, or a message is given, or a snapshot is forced. -/
def SnapOptions.Records (opts : SnapOptions) (ws : Workspace) (copy : WorkingCopy)
    (repo : Repo H) : Prop :=
  ∃ tree : Tree H, recordTree opts.ignore copy = some tree ∧
    ∀ id, ws.current repo.refs = some id → ∃ c, repo.refs.changes.lookup id = some c ∧
      opts.Advances repo.objects c.1 ((encode H tree).hash H)

/-- The failure of the `i`-th step of a kind comes too late for the operation. The record is written
when the refs have been, and its sync when the record has been; the pointer of the main workspace is
written after the record of a fresh change, and an undo writes several refs. -/
def LoggedOp.Spoils (op : LoggedOp H) (w : World H) (k : FsStep) (i : Nat) : Prop :=
  match op with
  | snapNow ws copy opts => opts.Records ws copy w.repo ∧
      (i = 0 ∧ (k = .logWrite ∨ k = .logSync) ∨
        i = 1 ∧ k = .refWrite ∧ ws.current w.repo.refs = none)
  | snapChangeDirectly changeId newTree opts =>
      (∃ c, w.repo.refs.changes.lookup changeId = some c ∧
        opts.Advances w.repo.objects c.1 newTree) ∧ i = 0 ∧ (k = .logWrite ∨ k = .logSync)
  | createChange srv headers req =>
      req.Accepted srv headers w ∧ i = 0 ∧ (k = .logWrite ∨ k = .logSync)
  | transitionChange srv id headers req => ∃ c c', req.Makes srv headers id w c c' ∧
      i = 0 ∧ (k = .logWrite ∧ c' ≠ c ∨ k = .logSync)
  | undoOnce _ => ∃ target, pickOpToUndo w.repo.oplog = some target ∧
      (k = .refWrite ∧ i < target.before.length ∧
          (∃ e ∈ target.before.take i, w.repo.refs.read e.key ≠ e) ∨
        i = 0 ∧ k = .logWrite ∧ (∃ e ∈ target.before, w.repo.refs.read e.key ≠ e) ∨
        i = 0 ∧ k = .logSync)

end Defs

/-! ## The step that fails -/

section Failing

variable {w w' : World H} {k : FsStep} {i : Nat} {msg : String}

/-- Which step fails. -/
theorem World.failure_failing {k' : FsStep} {n : Nat} {e : Error} :
    (w.failing k i msg).env.failure k' n = some e ↔
      k' = k ∧ n = w.ticks k + i ∧ e = .io msg := by
  rw [Env.failure, World.failing]
  dsimp only
  split
  · rename_i h
    simp [h.1, h.2, eq_comm]
  · rename_i h
    simp only [Option.map_none, reduceCtorEq, false_iff]
    exact fun h' => h ⟨h'.1, h'.2.1⟩

/-- Only a step that changes refs or log fails. -/
theorem World.not_fault_failing (hk : k.Mutates) (e : Error) :
    ¬ (w.failing k i msg).env.Fault e := by
  rintro ⟨k', n, hk', hf⟩
  obtain ⟨rfl, -⟩ := World.failure_failing.mp hf
  exact hk' hk

/-- The failure of the `i`-th step of a kind leaves something behind of an operation that writes the
entries `es` and then a record. -/
def LeavesBehind (r : Refs H) (es : List (RefSnapshot H)) (k : FsStep) (i : Nat) : Prop :=
  k = .refWrite ∧ i < es.length ∧ Journal.restore (refTable H) r (es.take i) ≠ r ∨
    i = 0 ∧ k = .logWrite ∧ Journal.restore (refTable H) r es ≠ r ∨ i = 0 ∧ k = .logSync

theorem LeavesBehind.mutates {r : Refs H} {es : List (RefSnapshot H)} (h : LeavesBehind r es k i) :
    k.Mutates := by
  rcases h with ⟨rfl, -⟩ | ⟨-, rfl, -⟩ | ⟨-, rfl⟩
  · exact .inl rfl
  · exact .inr (.inl rfl)
  · exact .inr (.inr rfl)

/-- An operation that ends has met no such failure. -/
theorem World.Committed.not_leavesBehind [LinearOrder H] [Format H] {es : List (RefSnapshot H)}
    {op : Op H} (h : (w.failing k i msg).Committed w' es op) :
    ¬ LeavesBehind w.repo.refs es k i := by
  have hfails : (w.failing k i msg).env.failure k (w.ticks k + i) = some (.io msg) :=
    World.failure_failing.mpr ⟨rfl, rfl, rfl⟩
  rintro (⟨rfl, hi, -⟩ | ⟨rfl, rfl, -⟩ | ⟨rfl, rfl⟩)
  · have := h.refWrite i hi
    rw [show (w.failing .refWrite i msg).ticks = w.ticks from rfl, hfails] at this
    cases this
  · have := h.logWrite
    rw [show (w.failing .logWrite 0 msg).ticks = w.ticks from rfl] at this
    rw [Nat.add_zero, this] at hfails
    cases hfails
  · have := h.logSync
    rw [show (w.failing .logSync 0 msg).ticks = w.ticks from rfl] at this
    rw [Nat.add_zero, this] at hfails
    cases hfails

/-- Entries of refs other than bookmarks write no bookmark. -/
theorem bookmarks_restore {es : List (RefSnapshot H)} (hes : ∀ e ∈ es, e.key.isBookmark = false)
    (r : Refs H) : (Journal.restore (refTable H) r es).bookmarks = r.bookmarks := by
  refine Finmap.ext_lookup fun name => ?_
  have hread := Journal.read_restore_of_not_mem (refTable H) r es (k := .bookmark name)
    fun e he hkey => by
      have := hes e he
      rw [show e.key = .bookmark name from hkey.symm] at this
      cases this
  simpa [refTable, Refs.read] using hread

/-- **A failure** of an operation that writes entries leaves refs and log as they were when it leaves
nothing behind. -/
theorem World.Failed.untouched_iff {es : List (RefSnapshot H)} {e : Error}
    (hes : ∀ e ∈ es, e.key.isBookmark = false) (h : (w.failing k i msg).Failed w' es e) :
    w.repo.Untouched w'.repo ↔ ¬ LeavesBehind w.repo.refs es k i := by
  have huntouched : ∀ {es' : List (RefSnapshot H)}, (∀ e ∈ es', e ∈ es) →
      w'.repo.refs = Journal.restore (refTable H) w.repo.refs es' →
      w'.repo.oplog = w.repo.oplog →
      (w.repo.Untouched w'.repo ↔ Journal.restore (refTable H) w.repo.refs es' = w.repo.refs) := by
    intro es' hsub hrefs hoplog
    have hbook := bookmarks_restore (fun e he => hes e (hsub e he)) w.repo.refs
    constructor
    · intro hu
      rw [← hrefs] at hbook ⊢
      exact Refs.ext hu.head hu.changes hu.workspaces hbook
    · intro heq
      rw [heq] at hrefs
      exact ⟨by rw [hrefs], by rw [hrefs], by rw [hrefs], hoplog⟩
  rcases h with ⟨j, hj, hf, hrefs, hoplog⟩ | ⟨hf, hrefs, hoplog⟩ | ⟨hf, op, hrefs, hoplog⟩
  · obtain ⟨rfl, hn, -⟩ := World.failure_failing.mp hf
    obtain rfl : j = i := Nat.add_left_cancel hn
    rw [huntouched (fun e he => List.mem_of_mem_take he) hrefs hoplog]
    constructor
    · rintro heq (⟨-, -, hne⟩ | ⟨-, hk, -⟩ | ⟨-, hk⟩)
      · exact hne heq
      · cases hk
      · cases hk
    · exact fun hno => not_not.mp fun hne => hno (.inl ⟨rfl, hj, hne⟩)
  · obtain ⟨rfl, hn, -⟩ := World.failure_failing.mp hf
    obtain rfl : i = 0 := (Nat.add_left_cancel (m := 0) hn).symm
    rw [huntouched (fun e he => he) hrefs hoplog]
    constructor
    · rintro heq (⟨hk, -⟩ | ⟨-, -, hne⟩ | ⟨-, hk⟩)
      · cases hk
      · exact hne heq
      · cases hk
    · exact fun hno => not_not.mp fun hne => hno (.inr (.inl ⟨rfl, rfl, hne⟩))
  · obtain ⟨rfl, hn, -⟩ := World.failure_failing.mp hf
    obtain rfl : i = 0 := (Nat.add_left_cancel (m := 0) hn).symm
    constructor
    · intro hu
      have hlog : w.repo.oplog ++ [op] = w.repo.oplog := hoplog.symm.trans hu.oplog
      simp at hlog
    · exact fun hno => absurd (.inr (.inr ⟨rfl, rfl⟩)) hno

/-- When an operation fails it is all or nothing, in terms of how its program ends. -/
theorem allOrNothing_iff_of_post {ε α : Type} {x : EStateM ε (World H) α} {S : Prop}
    (h : Post x w (fun _ _ => ¬ S) (fun _ w' => w.repo.Untouched w'.repo ↔ ¬ S)) :
    (∀ w', errorState x w = some w' → w.repo.Untouched w'.repo) ↔ ¬ S := by
  unfold Post at h
  unfold errorState
  cases hrun : x w with
  | ok a w' =>
    rw [hrun] at h
    exact ⟨fun _ => h, fun _ w' hw' => by cases hw'⟩
  | error e w' =>
    rw [hrun] at h
    refine ⟨fun hall => h.mp (hall w' rfl), fun hno w'' hw' => ?_⟩
    obtain rfl := Option.some.inj hw'
    exact h.mpr hno

/-! ## What is written back -/

/-- Writing one entry changes something when its ref holds something else. -/
theorem restore_singleton_ne {r : Refs H} {e : RefSnapshot H} :
    Journal.restore (refTable H) r [e] ≠ r ↔ r.read e.key ≠ e := by
  refine not_congr ⟨fun h => ?_, fun h => Refs.ext_read _ _ fun key => ?_⟩
  · have hread := Refs.read_write r e
    rw [show r.write e = r from h] at hread
    exact hread
  · by_cases hkey : key = e.key
    · subst hkey
      exact (Refs.read_write r e).trans h.symm
    · exact Refs.read_write_of_ne r e key hkey

/-- An operation that writes one entry. -/
theorem leavesBehind_singleton {r : Refs H} {e : RefSnapshot H} :
    LeavesBehind r [e] k i ↔ i = 0 ∧ (k = .logWrite ∧ r.read e.key ≠ e ∨ k = .logSync) := by
  rw [LeavesBehind, restore_singleton_ne]
  constructor
  · rintro (⟨-, hi, hne⟩ | ⟨hi, hk, hne⟩ | ⟨hi, hk⟩)
    · obtain rfl : i = 0 := by simpa using hi
      exact absurd rfl hne
    · exact ⟨hi, .inl ⟨hk, hne⟩⟩
    · exact ⟨hi, .inr hk⟩
  · rintro ⟨hi, ⟨hk, hne⟩ | hk⟩
    · exact .inr (.inl ⟨hi, hk, hne⟩)
    · exact .inr (.inr ⟨hi, hk⟩)

/-- An operation that writes two entries of different refs. -/
theorem leavesBehind_pair {r : Refs H} {e e' : RefSnapshot H} (hkey : e.key ≠ e'.key)
    (hne : r.read e.key ≠ e) :
    LeavesBehind r [e, e'] k i ↔ i = 0 ∧ (k = .logWrite ∨ k = .logSync) ∨ i = 1 ∧ k = .refWrite := by
  have hboth : Journal.restore (refTable H) r [e, e'] ≠ r := by
    intro heq
    have hread : ((r.write e).write e').read e.key = e :=
      (Refs.read_write_of_ne _ _ _ hkey).trans (Refs.read_write r e)
    rw [show (r.write e).write e' = r from heq] at hread
    exact hne hread
  constructor
  · rintro (⟨hk, hi, hchanged⟩ | ⟨hi, hk, -⟩ | ⟨hi, hk⟩)
    · have hi' : i = 0 ∨ i = 1 := by
        simp only [List.length_cons, List.length_nil] at hi
        omega
      rcases hi' with rfl | rfl
      · exact absurd rfl hchanged
      · exact .inr ⟨rfl, hk⟩
    · exact .inl ⟨hi, .inl hk⟩
    · exact .inl ⟨hi, .inr hk⟩
  · rintro (⟨hi, hk | hk⟩ | ⟨rfl, hk⟩)
    · exact .inr (.inl ⟨hi, hk, hboth⟩)
    · exact .inr (.inr ⟨hi, hk⟩)
    · exact .inl ⟨hk, by simp, restore_singleton_ne.mpr hne⟩

/-- Writing entries that were read off other refs changes something when one of them differs. -/
theorem restore_map_read_ne {r s : Refs H} {ks : List RefKey} :
    Journal.restore (refTable H) r (ks.map s.read) ≠ r ↔
      ∃ e ∈ ks.map s.read, r.read e.key ≠ e := by
  have hread : ∀ key, (Journal.restore (refTable H) r (ks.map s.read)).read key =
      if key ∈ ks then s.read key else r.read key := Journal.read_restore_map (refTable H) r s ks
  constructor
  · intro hne
    by_contra hall
    refine hne (Refs.ext_read _ _ fun key => (hread key).trans ?_)
    split
    · rename_i hkey
      have := not_not.mp fun hno => hall ⟨s.read key, List.mem_map_of_mem hkey, hno⟩
      rw [Refs.key_read] at this
      exact this.symm
    · rfl
  · rintro ⟨e, he, hne⟩ heq
    obtain ⟨key, hkey, rfl⟩ := List.mem_map.mp he
    have := hread key
    rw [heq, if_pos hkey] at this
    rw [Refs.key_read] at hne
    exact hne this

end Failing

/-! ## The operations -/

section Operations

variable [LinearOrder H] [Format H] {w w' : World H} {k : FsStep} {i : Nat} {msg : String}

theorem World.Quiet.untouched (h : w.Quiet w') : w.repo.Untouched w'.repo :=
  ⟨by rw [h.refs], by rw [h.refs], by rw [h.refs], h.oplog⟩

/-- Only the failure of a step that changes refs or log comes too late. -/
theorem LoggedOp.Spoils.mutates {op : LoggedOp H} (h : op.Spoils w k i) : k.Mutates := by
  have hlog : ∀ {p : Prop}, (k = .logWrite ∧ p ∨ k = .logSync) → k.Mutates := by
    rintro p (⟨rfl, -⟩ | rfl)
    · exact .inr (.inl rfl)
    · exact .inr (.inr rfl)
  have hlog' : (k = .logWrite ∨ k = .logSync) → k.Mutates := .inr
  cases op with
  | snapNow ws copy opts =>
    obtain ⟨-, ⟨-, hk⟩ | ⟨-, hk, -⟩⟩ := h
    · exact hlog' hk
    · exact .inl hk
  | snapChangeDirectly changeId newTree opts => exact hlog' h.2.2
  | createChange srv headers req => exact hlog' h.2.2
  | transitionChange srv id headers req =>
    obtain ⟨c, c', -, -, hk⟩ := h
    exact hlog hk
  | undoOnce actor =>
    obtain ⟨target, -, ⟨hk, -⟩ | ⟨-, hk, -⟩ | ⟨-, hk⟩⟩ := h
    · exact .inl hk
    · exact .inr (.inl hk)
    · exact .inr (.inr hk)

omit [LinearOrder H] [Format H] in
/-- Where a step that changes neither refs nor log fails, no failure comes too late. -/
theorem World.not_mutates_of_fault {e : Error} (h : (w.failing k i msg).env.Fault e) :
    ¬ k.Mutates :=
  fun hk => World.not_fault_failing hk e h

/-- **A snapshot** on top of the current one changes the record of the change. -/
theorem read_advance_ne [LawfulFormat H] (hi : w.repo.objects.Intact)
    (hr : RefsOk w.repo.objects w.repo.refs) {id : ChangeId} {c : ChangeAt H id}
    (hc : w.repo.refs.changes.lookup id = some c) {snap : Snapshot H}
    (hparents : snap.parents = [c.1.current]) :
    w.repo.refs.read (RefSnapshot.ofChange (c.1.advance ((encode H snap).hash H))).key ≠
      .ofChange (c.1.advance ((encode H snap).hash H)) := by
  have hid : (c.1.advance ((encode H snap).hash H)).id = id := (Change.advance_id _ _).trans c.2
  -- the new snapshot is another one, as it has the current one for its parent
  have hparent : OnlyParent (w.repo.objects.put (encode H snap)) c.1.current
      ((encode H snap).hash H) :=
    ⟨snap, ObjectStore.load_put LawfulFormat.snapshot hi snap, hparents⟩
  have hne := ((hr.changes id c hc).mono (ObjectStore.le_put _ _)).ne_current hparent
  intro heq
  have hread : w.repo.refs.read (.change id) = .ofChange c.1 := read_change hc
  rw [show (RefSnapshot.ofChange (c.1.advance ((encode H snap).hash H))).key = .change id from
    congrArg RefKey.change hid, hread, ofChange_eq c, ofChange_eq ⟨_, hid⟩] at heq
  have hrecord := congrArg Subtype.val (Option.some.inj (eq_of_heq (RefSnapshot.change.inj heq).2))
  refine hne ?_
  rw [show c.1 = c.1.advance ((encode H snap).hash H) from hrecord, Change.advance_current]

theorem snapChangeDirectly_failing [LawfulFormat H] (hi : w.repo.objects.Intact)
    (hr : RefsOk w.repo.objects w.repo.refs) {changeId : ChangeId} {newTree : H}
    {opts : SnapOptions} :
    Post (snapChangeDirectly changeId newTree opts) (w.failing k i msg)
      (fun _ _ => ¬ (LoggedOp.snapChangeDirectly changeId newTree opts).Spoils
        (w.failing k i msg) k i)
      (fun _ w' => (w.failing k i msg).repo.Untouched w'.repo ↔
        ¬ (LoggedOp.snapChangeDirectly changeId newTree opts).Spoils (w.failing k i msg) k i) := by
  have hspoils : ∀ {c : ChangeAt H changeId} {now : Nat},
      w.repo.refs.changes.lookup changeId = some c → opts.Advances w.repo.objects c.1 newTree →
      (LeavesBehind w.repo.refs [.ofChange (c.1.advance
          ((encode H (opts.snapshot [c.1.current] newTree now)).hash H))] k i ↔
        (LoggedOp.snapChangeDirectly changeId newTree opts).Spoils (w.failing k i msg) k i) := by
    intro c now hc hadv
    rw [leavesBehind_singleton, and_iff_left (read_advance_ne hi hr hc rfl)]
    exact (and_iff_right ⟨c, hc, hadv⟩).symm
  refine snapChangeDirectly_spec (fun c prev w' _ hc hprev hun => ?_)
    (fun c now op w' hc hadv hcom _ _ _ _ _ => ?_) (fun e w' hq hno => ?_)
    (fun c now e w' hc hadv hfail => ?_)
  · rintro ⟨⟨c', hc', prev', hprev', hadv⟩, -⟩
    obtain rfl := Option.some.inj (hc.symm.trans hc')
    obtain rfl := Except.ok.inj (hprev.symm.trans hprev')
    rw [hun] at hadv
    cases hadv
  · exact fun hs => hcom.not_leavesBehind ((hspoils hc hadv).mpr hs)
  · refine iff_of_true hq.untouched fun hs => ?_
    rcases hno with hf | hno
    · exact World.not_mutates_of_fault hf hs.mutates
    · obtain ⟨⟨c, hc, hadv⟩, -⟩ := hs
      exact hno c hc hadv
  · refine (hfail.untouched_iff (by simp [RefSnapshot.ofChange, RefSnapshot.key])).trans ?_
    exact not_congr (hspoils hc hadv)

omit [LinearOrder H] [Format H] in
/-- The record of a fresh change is new. -/
theorem read_fresh_ne (hids : IdsBelow w.env w.ids w.repo.refs)
    (hfresh : Function.Injective w.env.ulid) {c : Change H} {n : Nat} (hn : w.ids ≤ n)
    (hid : c.id = w.env.ulid n) :
    w.repo.refs.read (RefSnapshot.ofChange c).key ≠ .ofChange c := by
  have hnone : w.repo.refs.changes.lookup c.id = none := by
    rw [hid]
    exact Finmap.lookup_eq_none.mpr (hids.not_mem hfresh hn).1
  intro heq
  have hvalue := eq_of_heq (RefSnapshot.change.inj heq).2
  rw [hnone] at hvalue
  cases hvalue

theorem snapNow_failing [LawfulFormat H] (hi : w.repo.objects.Intact)
    (hr : RefsOk w.repo.objects w.repo.refs) (hids : IdsBelow w.env w.ids w.repo.refs)
    (hfresh : Function.Injective w.env.ulid) {ws : Workspace} {copy : WorkingCopy}
    {opts : SnapOptions} :
    Post (snapNow ws copy opts) (w.failing k i msg)
      (fun _ _ => ¬ (LoggedOp.snapNow ws copy opts).Spoils (w.failing k i msg) k i)
      (fun _ w' => (w.failing k i msg).repo.Untouched w'.repo ↔
        ¬ (LoggedOp.snapNow ws copy opts).Spoils (w.failing k i msg) k i) := by
  -- what is written on top of a change, or of a fresh one
  have hspoils : ∀ {tree : Tree H} {base : SnapBase H} {n : Nat} (now : Nat) {s' : ObjectStore H},
      recordTree opts.ignore copy = some tree →
      base.IsFor ws opts w.repo.refs (w.env.ulid n) → w.ids ≤ n → w.repo.objects.Le s' →
      base.Advances opts s' ((encode H tree).hash H) →
      ((∀ e ∈ base.entries ws ((encode H
          (opts.snapshot base.parents ((encode H tree).hash H) now)).hash H),
        e.key.isBookmark = false) ∧
      (LeavesBehind w.repo.refs (base.entries ws ((encode H
          (opts.snapshot base.parents ((encode H tree).hash H) now)).hash H)) k i ↔
        (LoggedOp.snapNow ws copy opts).Spoils (w.failing k i msg) k i)) := by
    intro tree base n now s' htree hbase hn hle hadv
    cases hbase with
    | current id c hws hc =>
      have hrecords : opts.Records ws copy w.repo := by
        refine ⟨tree, htree, fun id' hid' => ?_⟩
        obtain rfl := Option.some.inj (hws.symm.trans hid')
        obtain ⟨prev, hprev, hun⟩ := hadv.resolve_left Bool.false_ne_true
        obtain ⟨n, hl⟩ := (hr.changes id c hc).lineage _ (hr.changes id c hc).current_mem
        obtain ⟨prev', hprev'⟩ := hl.load
        obtain rfl := Except.ok.inj ((hle.load hprev').symm.trans hprev)
        exact ⟨c, hc, prev', hprev', hun⟩
      rw [SnapBase.entries, SnapBase.advanced, if_neg Bool.false_ne_true, if_neg Bool.false_ne_true]
      refine ⟨by simp [RefSnapshot.ofChange, RefSnapshot.key], ?_⟩
      rw [leavesBehind_singleton, and_iff_left (read_advance_ne hi hr hc rfl)]
      constructor
      · exact fun h => ⟨hrecords, .inl h⟩
      · rintro ⟨-, h | ⟨-, -, hnone⟩⟩
        · exact h
        · exact absurd (hws.symm.trans hnone) (Option.some_ne_none id)
    | fresh hws =>
      obtain ⟨_ | m, dir⟩ := ws
      · have hrecords : opts.Records ⟨.main, dir⟩ copy w.repo :=
          ⟨tree, htree, fun id hid => absurd (hws.symm.trans hid) (Option.some_ne_none id).symm⟩
        rw [SnapBase.entries, SnapBase.advanced, if_pos rfl, if_pos rfl]
        refine ⟨by simp [RefSnapshot.ofChange, RefSnapshot.key, Workspace.entry], ?_⟩
        refine (leavesBehind_pair RefKey.noConfusion (read_fresh_ne hids hfresh hn rfl)).trans ?_
        constructor
        · exact fun h => ⟨hrecords, h.imp_right fun h => ⟨h.1, h.2, hws⟩⟩
        · exact fun h => h.2.imp_right fun h => ⟨h.1, h.2.1⟩
      · cases hws
  refine snapNow_spec (fun tree base n prev w' hg htree hbase hf hprev hun => ?_)
    (fun tree base n s' now op w' htree hbase hn _ hle hadv hcom _ _ _ _ => ?_)
    (fun e w' hq hno => ?_)
    (fun tree base n s' now e w' htree hbase hn hle hadv hfail => ?_)
  · rintro ⟨⟨tree', htree', hadvances⟩, -⟩
    obtain rfl := Option.some.inj (htree.symm.trans htree')
    cases hbase with
    | current id c hws hc =>
      obtain ⟨c', hc', prev', hprev', hadv⟩ := hadvances id hws
      obtain rfl := Option.some.inj (hc.symm.trans hc')
      obtain rfl := Except.ok.inj (hprev.symm.trans (hg.quiet.le.load hprev'))
      rw [hun] at hadv
      cases hadv
    | fresh hws => cases hf
  · exact fun hs => hcom.not_leavesBehind ((hspoils now htree hbase hn hle hadv).2.mpr hs)
  · refine iff_of_true hq.untouched fun hs => ?_
    rcases hno with hf | hnone | ⟨id, hid, hno⟩
    · exact World.not_mutates_of_fault hf hs.mutates
    · obtain ⟨⟨tree, htree, -⟩, -⟩ := hs
      rw [hnone] at htree
      cases htree
    · obtain ⟨⟨tree, -, hadvances⟩, -⟩ := hs
      obtain ⟨c, hc, prev, hprev, -⟩ := hadvances id hid
      exact hno c hc prev hprev
  · obtain ⟨hbook, hiff⟩ := hspoils now htree hbase hn hle hadv
    exact (hfail.untouched_iff hbook).trans (not_congr hiff)

theorem createChange_failing (hids : IdsBelow w.env w.ids w.repo.refs)
    (hfresh : Function.Injective w.env.ulid) {srv : Server} {headers : HeaderMap}
    {req : CreateChangeReq} :
    Post (Handlers.createChange srv headers req) (w.failing k i msg)
      (fun _ _ => ¬ (LoggedOp.createChange srv headers req).Spoils (w.failing k i msg) k i)
      (fun _ w' => (w.failing k i msg).repo.Untouched w'.repo ↔
        ¬ (LoggedOp.createChange srv headers req).Spoils (w.failing k i msg) k i) := by
  have hspoils : ∀ {change : Change H} {n : Nat}, req.Accepted srv headers (w.failing k i msg) →
      w.ids ≤ n → change.id = w.env.ulid n →
      (LeavesBehind w.repo.refs [.ofChange change] k i ↔
        (LoggedOp.createChange srv headers req).Spoils (w.failing k i msg) k i) := by
    intro change n hacc hn hid
    rw [leavesBehind_singleton, and_iff_left (read_fresh_ne hids hfresh hn hid)]
    exact (and_iff_right hacc).symm
  refine Handlers.createChange_spec
    (fun view change op n w' hacc hn hid hcom hs =>
      hcom.not_leavesBehind ((hspoils hacc hn hid).mpr hs))
    (fun e w' hq hno => ?_) (fun change n err e w' hacc hn hid hfail => ?_)
  · refine iff_of_true hq.untouched fun hs => ?_
    rcases hno with ⟨e, hf⟩ | hno
    · exact World.not_mutates_of_fault hf hs.mutates
    · exact hno hs.1
  · refine (hfail.untouched_iff (by simp [RefSnapshot.ofChange, RefSnapshot.key])).trans ?_
    exact not_congr (hspoils hacc hn hid)

theorem transitionChange_failing {srv : Server} {id : String} {headers : HeaderMap}
    {req : TransitionReq} :
    Post (Handlers.transitionChange srv id headers req) (w.failing k i msg)
      (fun _ _ => ¬ (LoggedOp.transitionChange srv id headers req).Spoils
        (w.failing k i msg) k i)
      (fun _ w' => (w.failing k i msg).repo.Untouched w'.repo ↔
        ¬ (LoggedOp.transitionChange srv id headers req).Spoils (w.failing k i msg) k i) := by
  have hspoils : ∀ {c c' : Change H}, req.Makes srv headers id (w.failing k i msg) c c' →
      (LeavesBehind w.repo.refs [.ofChange c'] k i ↔
        (LoggedOp.transitionChange srv id headers req).Spoils (w.failing k i msg) k i) := by
    intro c c' hmakes
    have hdiffers : w.repo.refs.read (RefSnapshot.ofChange c').key ≠ .ofChange c' ↔ c' ≠ c := by
      obtain ⟨hid, hlookup⟩ := hmakes.lookup
      obtain ⟨state, vis, -, -, rfl⟩ := hmakes.made
      subst hid
      have hread : w.repo.refs.read (.change c.id) = .ofChange c := read_change hlookup
      refine not_congr ⟨fun heq => ?_, fun heq => ?_⟩
      · have hvalue := eq_of_heq (RefSnapshot.change.inj (hread.symm.trans heq)).2
        exact (congrArg Subtype.val (Option.some.inj hvalue)).symm
      · rw [heq]
        exact hread
    rw [leavesBehind_singleton, hdiffers]
    constructor
    · exact fun h => ⟨c, c', hmakes, h⟩
    · rintro ⟨d, d', hmakes', h⟩
      obtain ⟨rfl, rfl⟩ := hmakes.unique hmakes'
      exact h
  refine Handlers.transitionChange_spec
    (fun view c c' op w' hmakes hcom hs => hcom.not_leavesBehind ((hspoils hmakes).mpr hs))
    (fun e w' hq hno => ?_) (fun c c' err e w' hmakes hfail => ?_)
  · refine iff_of_true hq.untouched fun hs => ?_
    rcases hno with ⟨e, hf⟩ | hno
    · exact World.not_mutates_of_fault hf hs.mutates
    · obtain ⟨c, c', hmakes, -⟩ := hs
      exact hno c c' hmakes
  · refine (hfail.untouched_iff (by simp [RefSnapshot.ofChange, RefSnapshot.key])).trans ?_
    exact not_congr (hspoils hmakes)

omit [LinearOrder H] [Format H] in
/-- What an undo is to write back was read off the refs before the operation that it undoes. -/
theorem World.Chronicled.before_eq {σ : UndoStack H} (h : w.Chronicled σ) {target : Op H}
    (hpick : pickOpToUndo w.repo.oplog = some target) :
    ∃ (ks : List RefKey) (r : Refs H), target.before = ks.map r.read := by
  rw [h.pickOpToUndo_eq] at hpick
  cases σ with
  | nil => cases hpick
  | cons p rest =>
    obtain ⟨⟨op, hop, ks, hbefore, -, -⟩, -⟩ := h.chronicle.unwinds
    rw [List.head?_cons, Option.bind_some] at hpick
    obtain rfl := Option.some.inj (hop.symm.trans hpick)
    exact ⟨ks, p.2, hbefore⟩

theorem undoOnce_failing {σ : UndoStack H} (h : w.Chronicled σ) {actor : PrincipalId} :
    Post (undoOnce actor) (w.failing k i msg)
      (fun _ _ => ¬ (LoggedOp.undoOnce actor : LoggedOp H).Spoils (w.failing k i msg) k i)
      (fun _ w' => (w.failing k i msg).repo.Untouched w'.repo ↔
        ¬ (LoggedOp.undoOnce actor : LoggedOp H).Spoils (w.failing k i msg) k i) := by
  have hbook : ∀ {target : Op H}, pickOpToUndo w.repo.oplog = some target →
      ∀ e ∈ target.before, e.key.isBookmark = false := by
    intro target hpick
    have hmem := mem_of_pickOpToUndo hpick
    exact h.noBookmark target hmem.1 hmem.2
  have hspoils : ∀ {target : Op H}, pickOpToUndo w.repo.oplog = some target →
      (LeavesBehind w.repo.refs target.before k i ↔
        (LoggedOp.undoOnce actor : LoggedOp H).Spoils (w.failing k i msg) k i) := by
    intro target hpick
    obtain ⟨ks, r, hbefore⟩ := h.before_eq hpick
    have hall : Journal.restore (refTable H) w.repo.refs target.before ≠ w.repo.refs ↔
        ∃ e ∈ target.before, w.repo.refs.read e.key ≠ e := by
      rw [hbefore]
      exact restore_map_read_ne
    have htake : Journal.restore (refTable H) w.repo.refs (target.before.take i) ≠ w.repo.refs ↔
        ∃ e ∈ target.before.take i, w.repo.refs.read e.key ≠ e := by
      rw [hbefore, ← List.map_take]
      exact restore_map_read_ne
    rw [LeavesBehind, hall, htake]
    constructor
    · exact fun hleaves => ⟨target, hpick, hleaves⟩
    · rintro ⟨target', hpick', hleaves⟩
      obtain rfl := Option.some.inj (hpick.symm.trans hpick')
      exact hleaves
  have hrest : ∀ op ∈ (w.failing k i msg).repo.oplog, op.isUndo = false →
      ∀ e ∈ op.before, e.Restorable :=
    fun op hop hu e he => RefSnapshot.restorable_of_key (h.noBookmark op hop hu e he)
  refine Post.mono (undoOnce_spec actor hrest) (fun out w' hout hs => ?_) (fun e w' he => ?_)
  · cases out with
    | none =>
      obtain ⟨target, hpick, -⟩ := hs
      rw [hout.1] at hpick
      cases hpick
    | some o =>
      obtain ⟨hpick, -, -, -, -, hcom⟩ := hout
      exact hcom.not_leavesBehind ((hspoils hpick).mpr hs)
  · rcases he with ⟨hq, hf⟩ | ⟨target, hpick, hfail⟩
    · exact iff_of_true hq.untouched fun hs => World.not_mutates_of_fault hf hs.mutates
    · exact (hfail.untouched_iff (hbook hpick)).trans (not_congr (hspoils hpick))

/-- **Which failures leave nothing behind**: in every state that a run reaches, when one step of an
operation fails, refs and log are as they were before the operation, or it has not failed, exactly when
the failure does not come too late. -/
theorem LoggedOp.allOrNothing_iff [LawfulFormat H] {σ : UndoStack H} (h : Run w σ) (log : FileLog)
    (op : LoggedOp H) (k : FsStep) (i : Nat) (msg : String) :
    op.AllOrNothing (World.failing { w with log := log } k i msg) ↔
      ¬ op.Spoils (World.failing { w with log := log } k i msg) k i := by
  have hchr := h.chronicle.withLog log
  have hi : ({ w with log := log } : World H).repo.objects.Intact := h.sound.intact
  have hr : RefsOk ({ w with log := log } : World H).repo.objects w.repo.refs := h.sound.refs
  cases op with
  | snapNow ws copy opts =>
    exact allOrNothing_iff_of_post (snapNow_failing hi hr hchr.ids hchr.fresh)
  | snapChangeDirectly changeId newTree opts =>
    exact allOrNothing_iff_of_post (snapChangeDirectly_failing hi hr)
  | createChange srv headers req =>
    exact allOrNothing_iff_of_post (createChange_failing hchr.ids hchr.fresh)
  | transitionChange srv id headers req => exact allOrNothing_iff_of_post transitionChange_failing
  | undoOnce actor => exact allOrNothing_iff_of_post (undoOnce_failing hchr)

end Operations

/-! ## A change that no record tells of -/

namespace FullDisk

/-- A fresh repository, in which the next id is `a`. -/
def start : World PlainHash := { World.fresh .calm with ids := 1 }

/-- A request that creates a change. -/
def request : LoggedOp PlainHash := .createChange UnreadableToken.server [] ⟨"first", none, none, none⟩

theorem run : Run start [] := .start start rfl Env.calm_reliable Env.calm_fresh

end FullDisk

/-- The record of a new change cannot be written to the log. -/
theorem LoggedOp.allOrNothing_fullDisk :
    FullDisk.request.AllOrNothing (FullDisk.start.failing .logWrite 0 "No space left on device") ↔
      ¬ FullDisk.request.Spoils (FullDisk.start.failing .logWrite 0 "No space left on device")
        .logWrite 0 :=
  LoggedOp.allOrNothing_iff FullDisk.run FullDisk.start.log FullDisk.request .logWrite 0
    "No space left on device"

set_option maxRecDepth 1000000 in
/-- **A failing record leaves a change behind**: the request fails, and the change is there. -/
theorem not_allOrNothing :
    ¬ ∀ (w : World PlainHash) (σ : UndoStack PlainHash), Run w σ →
      ∀ (op : LoggedOp PlainHash) (k : FsStep) (i : Nat) (msg : String),
        op.AllOrNothing (w.failing k i msg) := by
  intro h
  have hop := h _ _ FullDisk.run FullDisk.request .logWrite 0 "No space left on device"
  have hfails : ∃ w', FullDisk.request.errorState
      (FullDisk.start.failing .logWrite 0 "No space left on device") = some w' ∧
      (w'.repo.refs.changes.lookup "a").isSome = true := ⟨_, rfl, rfl⟩
  obtain ⟨w', hstate, hthere⟩ := hfails
  have hchanges := (hop w' hstate).changes
  rw [hchanges] at hthere
  cases hthere

end Tig
