import Tig.Guarantees.Failures

set_option relaxedAutoImplicit false
set_option autoImplicit false

/-!
# What a snapshot records of the workspace's pointer

A snapshot of a workspace records the pointer of the workspace before and after it: HEAD, or the
manifest of a secondary workspace. The pointer is read for this twice, and a read that fails counts
as a pointer that does not exist. An undo then removes what was there.

## Main definitions

* `Tig.PointerRecorded` — an operation has recorded the pointer as it was and as it is.
* `Tig.UndoKeepsPointers` — undoing the operation removes no pointer that was there before it.
* `Tig.Workspace.SnapSwallows` — one of the reads for the record fails on a pointer that is there.

## Main results

* `Tig.snapNow_pointer` — the pointer is recorded as it is exactly when no such read fails.
* `Tig.snapNow_clearsHead` — a failing read of HEAD, and an undo that clears it.
-/

namespace Tig

open Program

variable {H : Type}

/-- The entry of a ref that does not exist. -/
def RefKey.absent : RefKey → RefSnapshot H
  | .head => .head none
  | .change id => .change id none
  | .workspace id => .workspace id none
  | .bookmark name => .bookmark name none

/-- Is the ref what a workspace points with: HEAD, or a manifest? -/
def RefKey.isPointer : RefKey → Bool
  | .head | .workspace _ => true
  | _ => false

theorem Workspace.isPointer_key (ws : Workspace) : ws.key.isPointer = true := by
  rcases ws with ⟨_ | m, dir⟩ <;> rfl

/-- The pointer of a workspace exists. -/
def Workspace.HasPointer (ws : Workspace) (r : Refs H) : Prop := r.read ws.key ≠ ws.key.absent

/-- The first entries that an operation has recorded are those of the workspace's pointer before
and after it. -/
structure PointerRecorded (ws : Workspace) (op : Op H) (r r' : Refs H) : Prop where
  before : op.before.head? = some (r.read ws.key)
  after : op.after.head? = some (r'.read ws.key)

/-- An undo of the operation, in whatever state and wherever it ends, removes only pointers that were
not there before the operation: those of `r`. -/
def UndoKeepsPointers (op : Op H) (r : Refs H) : Prop :=
  ∀ (v : World H) (actor : PrincipalId), pickOpToUndo v.repo.oplog = some op →
    ∀ k : RefKey, k.isPointer = true →
      (final (undoOnce actor) v).repo.refs.read k = k.absent →
        v.repo.refs.read k = k.absent ∨ r.read k = k.absent

/-! ## The reads -/

/-- A read of refs that fails at a time. -/
def Env.RefReadFails (env : Env) (n : Nat) : Prop := env.failure .refRead n ≠ none

/-- Capturing the pointer from the `n`-th read of refs on comes to something else than the pointer.
The registry of the manifests must be opened; a read that fails does no harm when there is no
pointer. -/
def Workspace.Swallows (ws : Workspace) (env : Env) (n : Nat) (there : Prop) : Prop :=
  match ws.kind with
  | .main => env.RefReadFails n ∧ there
  | .secondary _ => env.RefReadFails n ∨ env.RefReadFails (n + 1) ∧ there

/-- How often refs are read to capture the pointer. -/
def Workspace.captureReads (ws : Workspace) : Nat :=
  match ws.kind with
  | .main => 1
  | .secondary _ => 2

/-- How often refs are read to find what a snapshot is taken on top of. -/
def Workspace.baseReads (ws : Workspace) (r : Refs H) : Nat :=
  match ws.kind with
  | .main => if r.head = none then 1 else 2
  | .secondary _ => 1

/-- One of the two captures of a snapshot taken in `w` comes to something else than the pointer. The
main workspace has one after the snapshot in any case. -/
def Workspace.SnapSwallows (ws : Workspace) (w : World H) : Prop :=
  let n := w.ticks .refRead + ws.baseReads w.repo.refs
  ws.Swallows w.env n (ws.HasPointer w.repo.refs) ∨
    ws.Swallows w.env (n + ws.captureReads) (ws.kind = .main ∨ ws.HasPointer w.repo.refs)

variable {w : World H}

@[simp] theorem World.ticks_tick (w : World H) (k : FsStep) : (w.tick k).ticks k = w.ticks k + 1 :=
  Function.update_self ..

theorem World.ticks_tick_of_ne (w : World H) {k k' : FsStep} (h : k' ≠ k) :
    (w.tick k).ticks k' = w.ticks k' :=
  Function.update_of_ne h ..

/-- **Capturing a pointer** gives its entry exactly when no failing read is swallowed. -/
theorem captureWorkspaceRef_exact {ws : Workspace} {Q : RefSnapshot H → World H → Prop}
    (hok : ∀ e w', w'.repo = w.repo → w'.env = w.env →
      (e = w.repo.refs.read ws.key ↔
        ¬ ws.Swallows w.env (w.ticks .refRead) (ws.HasPointer w.repo.refs)) →
      (¬ ws.Swallows w.env (w.ticks .refRead) (ws.HasPointer w.repo.refs) →
        w'.ticks .refRead = w.ticks .refRead + ws.captureReads) → Q e w') :
    Post (captureWorkspaceRef ws) w Q fun _ _ => True := by
  rcases ws with ⟨_ | m, dir⟩
  · rw [captureWorkspaceRef, post_bind, post_attempt, head, post_bind, post_step]
    refine ⟨fun hread => ?_, fun err hread => ?_⟩
    · refine hok _ _ rfl rfl (iff_of_true rfl fun h => h.1 hread) fun _ => World.ticks_tick w _
    · have hfails : w.env.RefReadFails (w.ticks .refRead) := by
        rw [Env.RefReadFails, hread]
        exact Option.some_ne_none _
      refine hok _ _ rfl rfl ?_ fun _ => World.ticks_tick w _
      rw [Workspace.Swallows, not_and, Workspace.HasPointer, not_not]
      exact ⟨fun h _ => h.symm, fun h => (h hfails).symm⟩
  · rw [captureWorkspaceRef, post_bind, post_attempt, openWorkspaces, post_step]
    refine ⟨fun hopen => ?_, fun err hopen => ?_⟩
    · have hopens : ¬ w.env.RefReadFails (w.ticks .refRead) := fun h => h hopen
      dsimp only
      rw [post_bind, post_attempt, getWorkspace, post_bind, post_step]
      refine ⟨fun hread => ?_, fun err hread => ?_⟩
      · have hreads : ¬ w.env.RefReadFails (w.ticks .refRead + 1) := fun h =>
          h (by rw [← hread, World.ticks_tick]; rfl)
        have hexact : ¬ Workspace.Swallows ⟨.secondary m, dir⟩ w.env (w.ticks .refRead)
            (Workspace.HasPointer ⟨.secondary m, dir⟩ w.repo.refs) :=
          fun h => h.elim hopens fun h => hreads h.1
        rw [post_bind, post_get]
        have hticks : ((w.tick .refRead).tick .refRead).ticks .refRead = w.ticks .refRead + 2 := by
          rw [World.ticks_tick, World.ticks_tick]
        split
        · rename_i value hm
          exact hok _ _ rfl rfl
            (iff_of_true (congrArg (RefSnapshot.workspace m.id) hm.symm) hexact) fun _ => hticks
        · rename_i hm
          exact hok _ _ rfl rfl
            (iff_of_true (congrArg (RefSnapshot.workspace m.id) hm.symm) hexact) fun _ => hticks
      · have hreads : w.env.RefReadFails (w.ticks .refRead + 1) := by
          rw [World.ticks_tick] at hread
          exact fun h => absurd (hread.symm.trans h) (Option.some_ne_none _)
        refine hok _ _ rfl rfl ?_ fun _ => ?_
        · rw [Workspace.Swallows, not_or, not_and, Workspace.HasPointer, not_not]
          exact ⟨fun h => ⟨hopens, fun _ => h.symm⟩, fun h => (h.2 hreads).symm⟩
        · rw [World.ticks_tick, World.ticks_tick]
          rfl
    · have hfails : w.env.RefReadFails (w.ticks .refRead) := by
        rw [Env.RefReadFails, hopen]
        exact Option.some_ne_none _
      exact hok _ _ rfl rfl (iff_of_false (fun h => by cases h) fun h => h (.inl hfails))
        fun h => absurd (.inl hfails) h

/-! ## The steps in between -/

/-- From the one world to the other the refs have become `r`; the log is as it was, and no ref was
read. -/
structure World.Holds (w w' : World H) (r : Refs H) : Prop where
  refs : w'.repo.refs = r
  oplog : w'.repo.oplog = w.repo.oplog
  env : w'.env = w.env
  reads : w'.ticks .refRead = w.ticks .refRead

/-- Neither refs nor log have changed, and no ref was read. -/
def World.Unread (w w' : World H) : Prop := w.Holds w' w.repo.refs

theorem World.Unread.trans {w w' w'' : World H} (h : w.Unread w') (h' : w'.Unread w'') :
    w.Unread w'' :=
  ⟨h'.refs.trans h.refs, h'.oplog.trans h.oplog, h'.env.trans h.env, h'.reads.trans h.reads⟩

/-- A program that returns without having read a ref or changed refs or log. -/
def ReadsNoRef {α : Type} (x : RepoM H α) : Prop :=
  ∀ w, Post x w (fun _ w' => w.Unread w') fun _ _ => True

namespace ReadsNoRef

variable {α β : Type} {x : RepoM H α} {f : α → RepoM H β}

theorem pure (a : α) : ReadsNoRef (Pure.pure a : RepoM H α) := fun _ => ⟨rfl, rfl, rfl, rfl⟩

theorem throw (e : Error) : ReadsNoRef (MonadExcept.throw e : RepoM H α) := fun _ => trivial

theorem bind (hx : ReadsNoRef x) (hf : ∀ a, ReadsNoRef (f a)) : ReadsNoRef (x >>= f) := by
  intro w
  rw [post_bind]
  refine (hx w).mono (fun a w₁ h₁ => ?_) fun _ _ _ => trivial
  exact (hf a w₁).mono (fun _ _ h₂ => h₁.trans h₂) fun _ _ _ => trivial

theorem fromExcept (r : Except Error α) : ReadsNoRef (Program.fromExcept r : RepoM H α) := by
  cases r with
  | ok a => exact pure a
  | error e => exact throw e

theorem step {k : FsStep} (hk : .refRead ≠ k) : ReadsNoRef (Tig.step k : RepoM H Unit) := fun w =>
  post_step.mpr ⟨fun _ => ⟨rfl, rfl, rfl, w.ticks_tick_of_ne hk⟩, fun _ _ => trivial⟩

theorem currentTimestampNs : ReadsNoRef (H := H) Tig.currentTimestampNs := fun _ =>
  ⟨rfl, rfl, rfl, rfl⟩

theorem newUlid : ReadsNoRef (H := H) Tig.newUlid := fun _ => ⟨rfl, rfl, rfl, rfl⟩

variable [LinearOrder H] [Format H]

theorem loadObject [Encodable H α] (h : H) : ReadsNoRef (Tig.loadObject h : RepoM H α) :=
  (step (k := .objectRead) nofun).bind fun _ w => fromExcept (w.repo.objects.load h) w

theorem storeObject [Encodable H α] (a : α) : ReadsNoRef (H := H) (Tig.storeObject a) := by
  intro w
  rw [Tig.storeObject, putObject, post_bind, post_get, post_ite]
  refine ⟨fun _ => pure _ w, fun _ => ?_⟩
  refine (step (k := .objectPut) (by decide)).bind (fun _ => ?_) w
  exact bind (fun _ => ⟨rfl, rfl, rfl, rfl⟩) fun _ => pure _

omit [LinearOrder H] [Format H] in
theorem workdirStep : ReadsNoRef (Tig.step .workdirRead : RepoM H Unit) := step nofun

theorem scanDir {children : WorkingCopy} {insertAll : RepoM H (Tree H)}
    (hinsert : ReadsNoRef insertAll) : ReadsNoRef (Tig.scanDir children insertAll) :=
  workdirStep.bind fun _ => (fromExcept _).bind fun _ => hinsert.bind fun _ => storeObject _

mutual

theorem buildEntry (ignore : List String) (path name : String) :
    (node : Node) → ReadsNoRef (H := H) (Tig.buildEntry ignore path name node)
  | .dir children => workdirStep.bind fun _ =>
      (scanDir (scanEntries ignore path .new children)).bind fun _ => pure _
  | .file _ _ => workdirStep.bind fun _ => workdirStep.bind fun _ =>
      (storeObject _).bind fun _ => pure _
  | .symlink _ => workdirStep.bind fun _ => workdirStep.bind fun _ =>
      (storeObject _).bind fun _ => pure _
  | .other _ => workdirStep.bind fun _ => throw _

theorem scanEntries (ignore : List String) (path : String) (tree : Tree H) :
    (children : List (Bytes × Node)) → ReadsNoRef (Tig.scanEntries ignore path tree children)
  | [] => pure tree
  | (_, node) :: rest => (fromExcept _).bind fun name w => by
      rw [post_ite]
      exact ⟨fun _ => scanEntries ignore path tree rest w, fun _ =>
        (buildEntry ignore (path ++ "/" ++ name) name node).bind
          (fun _ => (fromExcept _).bind fun tree => scanEntries ignore path tree rest) w⟩

end

theorem scan (ignore : List String) (workdir : String) (copy : WorkingCopy) :
    ReadsNoRef (H := H) (Tig.scan ignore workdir copy) :=
  workdirStep.bind fun _ => scanDir (scanEntries ignore workdir .new copy)

theorem unchangedSince (base : SnapBase H) (treeHash : H) (opts : SnapOptions) :
    ReadsNoRef (Tig.unchangedSince base treeHash opts) := by
  intro w
  rw [Tig.unchangedSince, post_ite]
  exact ⟨fun _ => pure _ w, fun _ => (loadObject _).bind (fun _ => pure _) w⟩

end ReadsNoRef

/-! ## The record -/

section Record

variable [LinearOrder H] [Format H]

omit [LinearOrder H] in
/-- A snapshot of the main workspace leaves a pointer there; that of a secondary one is as before. -/
theorem hasPointer_advanced {ws : Workspace} {opts : SnapOptions} {r r' : Refs H} {ulid : String}
    {base : SnapBase H} (hbase : base.IsFor ws opts r ulid) {c : Change H}
    (hr : r' = if base.fresh then (r.write (.ofChange c)).write (ws.entry c.id)
      else r.write (.ofChange c)) :
    ws.HasPointer r' ↔ ws.kind = .main ∨ ws.HasPointer r := by
  have hne : ws.key ≠ (RefSnapshot.ofChange c).key := by rcases ws with ⟨_ | m, dir⟩ <;> nofun
  have hkeeps : (r.write (.ofChange c)).read ws.key = r.read ws.key :=
    Refs.read_write_of_ne r _ _ hne
  cases hbase with
  | current id _ hws _ =>
    rw [if_neg Bool.false_ne_true] at hr
    rw [Workspace.HasPointer, hr, hkeeps, ← Workspace.HasPointer, or_iff_right_of_imp]
    intro hkind
    rcases ws with ⟨_ | m, dir⟩
    · intro habsent
      have hhead : r.head = some id := hws
      exact absurd (hhead.symm.trans (RefSnapshot.head.inj habsent)) nofun
    · cases hkind
  | fresh hws =>
    rw [if_pos rfl] at hr
    rcases ws with ⟨_ | m, dir⟩
    · rw [Workspace.HasPointer, hr]
      exact iff_of_true nofun (.inl rfl)
    · cases hws

omit [LinearOrder H] [Format H] in
theorem writeRef_holds (e : RefSnapshot H) :
    Post (writeRef e) w (fun _ w' => w.Holds w' (w.repo.refs.write e)) fun _ _ => True :=
  post_writeRef.mpr ⟨fun _ => ⟨rfl, rfl, rfl,
    World.ticks_tick_of_ne w (show FsStep.refRead ≠ .refWrite by decide)⟩, fun _ _ => trivial⟩

omit [LinearOrder H] [Format H] in
theorem pointAtFresh_holds {ws : Workspace} {fresh : Bool} (hkind : fresh = true → ws.kind = .main)
    (id : ChangeId) :
    Post (pointAtFresh ws fresh id) w
      (fun _ w' => w.Holds w' (if fresh then w.repo.refs.write (ws.entry id) else w.repo.refs))
      fun _ _ => True := by
  rw [pointAtFresh, post_ite]
  refine ⟨fun hfresh => ?_, fun hfresh => ?_⟩
  · obtain ⟨kind, dir⟩ := ws
    obtain rfl : kind = .main := hkind hfresh
    rw [if_pos hfresh, post_bind, Workspace.setCurrentChangeId, post_bind]
    exact writeRef_holds _
  · rw [if_neg hfresh]
    exact ⟨rfl, rfl, rfl, rfl⟩

omit [LinearOrder H] in
/-- What a snapshot records of the change before it is an entry of a change. -/
theorem SnapBase.IsFor.before_eq {ws : Workspace} {opts : SnapOptions} {r : Refs H} {ulid : String}
    {base : SnapBase H} (h : base.IsFor ws opts r ulid) :
    ∃ id value, base.before = .change id value := by
  cases h with
  | current id c hws hc => exact ⟨_, _, rfl⟩
  | fresh hws => exact ⟨_, _, rfl⟩

omit [LinearOrder H] [Format H] in
theorem getChange_reads {id : ChangeId} :
    Post (getChange id) w (fun c w' => w'.repo = w.repo ∧ w'.env = w.env ∧
      w'.ticks .refRead = w.ticks .refRead + 1 ∧ w.repo.refs.changes.lookup id = some c)
      fun _ _ => True := by
  rw [getChange, post_bind, post_step]
  refine ⟨fun _ => ?_, fun _ _ => trivial⟩
  rw [post_bind, post_get]
  split
  · rename_i c hc
    exact ⟨rfl, rfl, w.ticks_tick _, hc⟩
  · trivial

omit [LinearOrder H] in
/-- Finding what a snapshot is taken on top of, with the number of reads. -/
theorem snapBase_reads {ws : Workspace} {opts : SnapOptions} {Q : SnapBase H → World H → Prop}
    (hok : ∀ base ulid w', w'.repo = w.repo → w'.env = w.env →
      w'.ticks .refRead = w.ticks .refRead + ws.baseReads w.repo.refs →
      base.IsFor ws opts w.repo.refs ulid → Q base w') :
    Post (snapBase ws opts) w Q fun _ _ => True := by
  rcases ws with ⟨_ | m, dir⟩
  · rw [snapBase, post_bind, Workspace.currentChangeId, head, post_bind, post_step]
    refine ⟨fun _ => ?_, fun _ _ => trivial⟩
    rw [post_bind, post_get, post_pure, show (w.tick .refRead).repo = w.repo from rfl]
    cases hhead : w.repo.refs.head with
    | none =>
      refine hok _ (w.env.ulid w.ids) _ rfl rfl ?_ (.fresh hhead)
      have hone : Workspace.baseReads ⟨.main, dir⟩ w.repo.refs = 1 := if_pos hhead
      rw [hone]
      exact w.ticks_tick .refRead
    | some id =>
      have htwo : Workspace.baseReads ⟨.main, dir⟩ w.repo.refs = 2 :=
        if_neg (by rw [hhead]; exact Option.some_ne_none _)
      dsimp only
      rw [post_bind]
      refine getChange_reads.mono (fun c w₁ h₁ => ?_) fun _ _ _ => trivial
      refine hok _ "" w₁ h₁.1 h₁.2.1 ?_ (.current id c hhead h₁.2.2.2)
      rw [h₁.2.2.1, htwo, World.ticks_tick]
  · rw [snapBase, post_bind, Workspace.currentChangeId, post_pure]
    dsimp only
    rw [post_bind]
    refine getChange_reads.mono (fun c w₁ h₁ => ?_) fun _ _ _ => trivial
    exact hok _ "" w₁ h₁.1 h₁.2.1 h₁.2.2.1 (.current m.changeId c rfl h₁.2.2.2)

/-- Storing the snapshot and recording it: what is recorded of the pointer is right exactly when no
failing read is swallowed. -/
theorem recordSnap_pointer {ws : Workspace} {opts : SnapOptions} {treeHash : H} {base : SnapBase H}
    {ulid : String} (hbase : base.IsFor ws opts w.repo.refs ulid) :
    Post (recordSnap ws opts treeHash base) w
      (fun out w' => ∃ op h c fresh e e', out = .snapped h treeHash c fresh ∧
        w'.repo.oplog = w.repo.oplog ++ [op] ∧ op.kind = .snap h opts.message ∧
        op.before = [e, base.before] ∧ op.after = [e', .ofChange c] ∧
        (PointerRecorded ws op w.repo.refs w'.repo.refs ↔
          ¬ (ws.Swallows w.env (w.ticks .refRead) (ws.HasPointer w.repo.refs) ∨
            ws.Swallows w.env (w.ticks .refRead + ws.captureReads)
              (ws.kind = .main ∨ ws.HasPointer w.repo.refs))))
      fun _ _ => True := by
  rw [recordSnap, post_bind]
  refine captureWorkspaceRef_exact fun e w₁ hrepo₁ henv₁ hexact hticks₁ => ?_
  rw [post_bind]
  refine (ReadsNoRef.currentTimestampNs w₁).mono (fun now w₂ h₂ => ?_) fun _ _ _ => trivial
  rw [post_bind]
  refine (ReadsNoRef.storeObject _ w₂).mono (fun snapHash w₃ h₃ => ?_) fun _ _ _ => trivial
  rw [post_bind]
  refine (writeRef_holds _).mono (fun _ w₄ h₄ => ?_) fun _ _ _ => trivial
  rw [post_bind]
  refine (pointAtFresh_holds hbase.kind_of_fresh _).mono (fun _ w₅ h₅ => ?_) fun _ _ _ => trivial
  rw [post_bind]
  refine captureWorkspaceRef_exact fun e' w₆ hrepo₆ henv₆ hexact' _ => ?_
  rw [post_bind, post_appendOp]
  refine ⟨fun _ => ⟨fun _ => ?_, fun _ _ => trivial⟩, fun _ _ => trivial⟩
  have hoplog₆ : w₆.repo.oplog = w.repo.oplog := by
    rw [hrepo₆, h₅.oplog, h₄.oplog, h₃.oplog, h₂.oplog, hrepo₁]
  have henv₅ : w₅.env = w.env := by rw [h₅.env, h₄.env, h₃.env, h₂.env, henv₁]
  have hreads₅ : w₅.ticks .refRead = w₁.ticks .refRead := by
    rw [h₅.reads, h₄.reads, h₃.reads, h₂.reads]
  have hrefs₃ : w₃.repo.refs = w.repo.refs := by rw [h₃.refs, h₂.refs, hrepo₁]
  have hthere : ws.HasPointer w₅.repo.refs ↔ ws.kind = .main ∨ ws.HasPointer w.repo.refs := by
    refine hasPointer_advanced hbase (c := base.advanced snapHash) ?_
    rw [h₅.refs, h₄.refs, hrefs₃]
  refine ⟨_, snapHash, _, base.fresh, e, e', rfl, congrArg (· ++ [_]) hoplog₆, rfl, rfl, rfl, ?_⟩
  rw [henv₅, hreads₅, hthere] at hexact'
  have hrecorded : PointerRecorded ws
      ⟨w₆.log.nextId, w₆.env.now w₆.clock, opts.author, .snap snapHash opts.message,
        [e, base.before], [e', .ofChange (base.advanced snapHash)]⟩ w.repo.refs w₆.repo.refs ↔
      e = w.repo.refs.read ws.key ∧ e' = w₅.repo.refs.read ws.key := by
    rw [hrepo₆]
    exact ⟨fun h => ⟨Option.some.inj h.before, Option.some.inj h.after⟩,
      fun h => ⟨congrArg some h.1, congrArg some h.2⟩⟩
  refine hrecorded.trans ?_
  rw [not_or, hexact, hexact']
  exact and_congr_right fun hswallows => by rw [hticks₁ hswallows]

omit [LinearOrder H] [Format H] in
/-- Writing back some of the entries of a snapshot's record removes only pointers that were not there
when it was made. -/
theorem restore_keepsPointers {ws : Workspace} {r r' : Refs H} {id : ChangeId}
    {value : Option (ChangeAt H id)} {es : List (RefSnapshot H)}
    (hes : es ⊆ [r.read ws.key, .change id value]) {k : RefKey} (hk : k.isPointer = true)
    (habsent : (Journal.restore (refTable H) r' es).read k = k.absent) :
    r'.read k = k.absent ∨ r.read k = k.absent := by
  have hread := Journal.read_restore (refTable H) r' es k
  cases hlast : Journal.lastEntry (refTable H) k es with
  | none =>
    rw [hlast] at hread
    exact .inl (hread.symm.trans habsent)
  | some e =>
    rw [hlast] at hread
    have hkey : e.key = k := by
      have hfound := List.find?_some hlast
      exact of_decide_eq_true hfound
    have hmem : e ∈ es := List.mem_reverse.mp (List.mem_of_find?_eq_some hlast)
    rcases List.mem_cons.mp (hes hmem) with rfl | hchange
    · right
      rw [Refs.key_read] at hkey
      subst hkey
      exact hread.symm.trans habsent
    · obtain rfl := List.mem_singleton.mp hchange
      subst hkey
      cases hk

theorem undoKeepsPointers_of_before {ws : Workspace} {r : Refs H} {op : Op H} {id : ChangeId}
    {value : Option (ChangeAt H id)} (hop : op.before = [r.read ws.key, .change id value]) :
    UndoKeepsPointers op r := by
  intro v actor hpick k hk
  have hrest : ∀ target, pickOpToUndo v.repo.oplog = some target →
      ∀ e ∈ target.before, e.Restorable := by
    intro target htarget e he
    obtain rfl := Option.some.inj (hpick.symm.trans htarget)
    rw [hop] at he
    refine RefSnapshot.restorable_of_key ?_
    rcases List.mem_cons.mp he with rfl | he
    · rw [Refs.key_read, Workspace.isBookmark_key]
    · rw [List.mem_singleton.mp he]
      rfl
  have hkeeps : ∀ v' : World H, v'.repo.refs = v.repo.refs ∨ (∃ es, es ⊆ op.before ∧
      v'.repo.refs = Journal.restore (refTable H) v.repo.refs es) →
      v'.repo.refs.read k = k.absent → v.repo.refs.read k = k.absent ∨ r.read k = k.absent := by
    rintro v' (hsame | ⟨es, hes, hrefs⟩) habsent
    · exact .inl (hsame ▸ habsent)
    · rw [hrefs] at habsent
      exact restore_keepsPointers (hop ▸ hes) hk habsent
  refine Post.final (P := fun v' : World H => v'.repo.refs.read k = k.absent → _)
    ((undoOnce_target_spec actor hrest).mono (fun out v' h => hkeeps v' ?_)
      (fun e v' h => hkeeps v' ?_))
  · cases out with
    | none => exact .inl h.2.refs
    | some out =>
      obtain ⟨hundone, -, -, -, -, hcom⟩ := h
      obtain rfl := Option.some.inj (hpick.symm.trans hundone)
      exact .inr ⟨_, List.Subset.refl _, hcom.refs⟩
  · rcases h with ⟨hquiet, -⟩ | ⟨target, htarget, hfail⟩
    · exact .inl hquiet.refs
    · obtain rfl := Option.some.inj (hpick.symm.trans htarget)
      rcases hfail with ⟨i, -, -, hrefs, -⟩ | ⟨-, hrefs, -⟩ | ⟨-, -, hrefs, -⟩
      · exact .inr ⟨_, List.take_subset _ _, hrefs⟩
      · exact .inr ⟨_, List.Subset.refl _, hrefs⟩
      · exact .inr ⟨_, List.Subset.refl _, hrefs⟩

/-- **When a snapshot records the pointer**: for every workspace, state and pattern of failing reads,
a snapshot that returns has recorded the pointer as it was and as it is, so that its undo removes no
pointer that was there before, exactly when neither capture swallows a failing read. -/
theorem snapNow_pointer {ws : Workspace} {copy : WorkingCopy} {opts : SnapOptions} {w w' : World H}
    {snapshot tree : H} {change : Change H} {freshChange : Bool}
    (hrun : snapNow ws copy opts w = .ok (.snapped snapshot tree change freshChange) w') :
    ∃ op, w'.repo.oplog = w.repo.oplog ++ [op] ∧ op.kind = .snap snapshot opts.message ∧
      (PointerRecorded ws op w.repo.refs w'.repo.refs ∧ UndoKeepsPointers op w.repo.refs ↔
        ¬ ws.SnapSwallows w) := by
  have hpost : Post (snapNow ws copy opts) w (fun out w' => ∀ snapshot tree change freshChange,
      out = .snapped snapshot tree change freshChange →
        ∃ op, w'.repo.oplog = w.repo.oplog ++ [op] ∧ op.kind = .snap snapshot opts.message ∧
          (PointerRecorded ws op w.repo.refs w'.repo.refs ∧ UndoKeepsPointers op w.repo.refs ↔
            ¬ ws.SnapSwallows w)) fun _ _ => True := by
    rw [snapNow, post_bind]
    refine (ReadsNoRef.scan _ _ _ w).mono (fun treeHash w₁ h₁ => ?_) fun _ _ _ => trivial
    rw [post_bind]
    refine snapBase_reads fun base ulid w₂ hrepo₂ henv₂ hreads₂ hbase => ?_
    rw [post_bind]
    refine (ReadsNoRef.unchangedSince base treeHash opts w₂).mono (fun unchanged w₃ h₃ => ?_)
      fun _ _ _ => trivial
    rw [post_ite]
    refine ⟨?_, fun _ => ?_⟩
    · intro _ snapshot tree change freshChange hout
      cases hout
    have hrefs₃ : w₃.repo.refs = w.repo.refs := by rw [h₃.refs, hrepo₂, h₁.refs]
    have henv₃ : w₃.env = w.env := by rw [h₃.env, henv₂, h₁.env]
    have hreads₃ : w₃.ticks .refRead = w.ticks .refRead + ws.baseReads w.repo.refs := by
      rw [h₃.reads, hreads₂, h₁.reads, h₁.refs]
    rw [h₁.refs, ← hrefs₃] at hbase
    refine (recordSnap_pointer hbase).mono (fun out w₄ hout => ?_) fun _ _ _ => trivial
    rintro snapshot tree change freshChange rfl
    obtain ⟨op, h, c, fresh, e, e', hsnapped, hoplog, hkind, hbefore, -, hrecorded⟩ := hout
    obtain ⟨rfl, -⟩ := SnapOutcome.snapped.inj hsnapped
    refine ⟨op, ?_, hkind, ?_⟩
    · rw [hoplog, h₃.oplog, hrepo₂, h₁.oplog]
    rw [hrefs₃, henv₃, hreads₃] at hrecorded
    refine Iff.trans ⟨And.left, fun h => ⟨h, ?_⟩⟩ hrecorded
    obtain ⟨id, value, hchange⟩ := hbase.before_eq
    have he := h.before
    rw [hbefore, List.head?_cons] at he
    have hentries : op.before = [w.repo.refs.read ws.key, .change id value] := by
      rw [hbefore, Option.some.inj he, hchange]
    exact undoKeepsPointers_of_before hentries
  exact hpost.ok hrun snapshot tree change freshChange rfl

end Record

/-! ## A lost HEAD -/

namespace LostHead

def ws : Workspace := ⟨.main, "/repo"⟩

/-- A directory with one file. -/
def copy (byte : UInt8) : WorkingCopy := [(Utf8.encode "a.txt", .file [byte] false)]

/-- A repository with one snapshot, in which the third read of refs fails. -/
def start : World PlainHash :=
  (final (snapNow ws (copy 97) .default) ({ World.fresh .calm with ids := 1 } : World PlainHash)).failing
    .refRead 2 "Input/output error (os error 5)"

end LostHead

set_option maxRecDepth 1000000 in
/-- The snapshot of a repository whose HEAD cannot be read once. -/
theorem snapNow_pointer_lostHead : ∃ snapshot tree change freshChange w',
    snapNow LostHead.ws (LostHead.copy 98) .default LostHead.start =
      .ok (.snapped snapshot tree change freshChange) w' ∧
    ∃ op, w'.repo.oplog = LostHead.start.repo.oplog ++ [op] ∧
      op.kind = .snap snapshot SnapOptions.default.message ∧
      (PointerRecorded LostHead.ws op LostHead.start.repo.refs w'.repo.refs ∧
        UndoKeepsPointers op LostHead.start.repo.refs ↔ ¬ LostHead.ws.SnapSwallows LostHead.start) :=
  ⟨_, _, _, _, _, rfl,
    @snapNow_pointer PlainHash _ _ LostHead.ws (LostHead.copy 98) .default LostHead.start _ _ _ _ _ rfl⟩

set_option maxRecDepth 1000000 in
/-- **A swallowed failure clears HEAD**: the snapshot returns, with a record that says that there was
no HEAD, and the undo of it removes the HEAD that was there. -/
theorem snapNow_clearsHead : ∃ snapshot tree change freshChange w',
    snapNow LostHead.ws (LostHead.copy 98) .default LostHead.start =
      .ok (.snapped snapshot tree change freshChange) w' ∧
    LostHead.start.repo.refs.head = some "a" ∧
    (w'.repo.oplog.getLast?.bind fun op => op.before.head?) = some (.head none) ∧
    (final (undoOnce "alice") w').repo.refs.head = none :=
  ⟨_, _, _, _, _, rfl, rfl, rfl, rfl⟩

end Tig
