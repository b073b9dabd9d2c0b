import Tig.Fs.TreeEdit
import Tig.Store.History
import Tig.Store.Workspace

set_option relaxedAutoImplicit false
set_option autoImplicit false

/-!
# Taking a snapshot

A snapshot of a workspace scans its directory into a tree, stores a snapshot object on top of the
current change's snapshot, advances the change, and records the operation. A workspace without a
current change gets a new one. A change can also be snapped directly, from a tree that was built
in the object store.

## Main definitions

* `Tig.snapNow` — snapshot a workspace.
* `Tig.snapChangeDirectly` — snapshot a change without a working directory.
* `Tig.SnapBase` — what a snapshot of a workspace is taken on top of.

## Main results

* `Tig.snapNow_spec`, `Tig.snapChangeDirectly_spec` — what they do, whether or not they fail.
-/

namespace Tig

open Program

/-- How to take a snapshot. -/
structure SnapOptions where
  author : PrincipalId
  message : Option String
  force : Bool
  initialDescription : String
  extraIgnores : List String

namespace SnapOptions

/-- The options of a caller that sets none. -/
def default : SnapOptions where
  author := PrincipalId.local "anonymous"
  message := none
  force := false
  initialDescription := "initial work"
  extraIgnores := []

/-- The names that the scan skips. -/
def ignore (opts : SnapOptions) : List String := defaultIgnore ++ opts.extraIgnores

end SnapOptions

/-- What came of a snapshot. -/
inductive SnapOutcome (H : Type) where
  | snapped (snapshot tree : H) (change : Change H) (freshChange : Bool)
  | unchanged (change : Change H)

/-- The change, whether or not it was advanced. -/
def SnapOutcome.change {H : Type} : SnapOutcome H → Change H
  | snapped _ _ change _ => change
  | unchanged change => change

variable {H : Type} [LinearOrder H] [Format H]

/-- The hash a new change holds until it has a snapshot. -/
def placeholderHash : H := HashFn.compute .snapshot (Utf8.encode "tig:placeholder")

/-- What a snapshot of a workspace is taken on top of: the change and its entry before the
operation, or a fresh change. -/
structure SnapBase (H : Type) where
  change : Change H
  parents : List H
  fresh : Bool
  before : RefSnapshot H

/-- Is there nothing to record? -/
def SnapOptions.unchanged (opts : SnapOptions) (prevTree newTree : H) : Bool :=
  prevTree = newTree && opts.message.isNone && !opts.force

/-- The snapshot object that a snapshot stores. -/
def SnapOptions.snapshot (opts : SnapOptions) (parents : List H) (tree : H) (timestampNs : Nat) :
    Snapshot H where
  parents := parents
  tree := tree
  author := opts.author
  timestampNs := timestampNs
  message := opts.message
  opId := none

/-- The workspace's current change, or a new one. -/
def snapBase (ws : Workspace) (opts : SnapOptions) : RepoM H (SnapBase H) := do
  match ← ws.currentChangeId with
  | some id => do
    let c ← getChange id
    return ⟨c.1, [c.1.current], false, .ofChange c.1⟩
  | none => do
    let id ← newUlid
    return ⟨Change.new id opts.initialDescription opts.author placeholderHash, [], true,
      .change id none⟩

/-- Is the tree the one the change points at already, with nothing else to record? -/
def unchangedSince (base : SnapBase H) (treeHash : H) (opts : SnapOptions) : RepoM H Bool :=
  if base.fresh then return false
  else do
    let prevSnap : Snapshot H ← loadObject base.change.current
    return opts.unchanged prevSnap.tree treeHash

/-- The change after the snapshot. -/
def SnapBase.advanced (base : SnapBase H) (snapHash : H) : Change H :=
  if base.fresh then { base.change with current := snapHash, history := [snapHash] }
  else base.change.advance snapHash

/-- Point the workspace at a fresh change. -/
def pointAtFresh (ws : Workspace) (fresh : Bool) (id : ChangeId) : RepoM H Unit :=
  if fresh then do
    let _ ← ws.setCurrentChangeId id
    return ()
  else return ()

/-- Store the snapshot, advance the change and record the operation. -/
def recordSnap (ws : Workspace) (opts : SnapOptions) (treeHash : H) (base : SnapBase H) :
    RepoM H (SnapOutcome H) := do
  let workspaceRefBefore ← captureWorkspaceRef ws
  let now ← currentTimestampNs
  let snapHash ← storeObject (opts.snapshot base.parents treeHash now)
  let change := base.advanced snapHash
  putChange change
  pointAtFresh ws base.fresh change.id
  let workspaceRefAfter ← captureWorkspaceRef ws
  let _ ← appendOp ⟨opts.author, .snap snapHash opts.message,
    [workspaceRefBefore, base.before], [workspaceRefAfter, .ofChange change]⟩
  return .snapped snapHash treeHash change base.fresh

/-- Snapshot a workspace whose directory holds `copy`. -/
def snapNow (ws : Workspace) (copy : WorkingCopy) (opts : SnapOptions) :
    RepoM H (SnapOutcome H) := do
  let treeHash ← scan opts.ignore ws.workdir copy
  let base ← snapBase ws opts
  let unchanged ← unchangedSince base treeHash opts
  if unchanged then
    return .unchanged base.change
  else
    recordSnap ws opts treeHash base

/-- Snapshot a change whose new tree is in the object store. No workspace is touched. -/
def snapChangeDirectly (changeId : ChangeId) (newTree : H) (opts : SnapOptions) :
    RepoM H (SnapOutcome H) := do
  let changeBefore ← getChange changeId
  let prevSnap : Snapshot H ← loadObject changeBefore.1.current
  if opts.unchanged prevSnap.tree newTree then
    return .unchanged changeBefore.1
  else
    let now ← currentTimestampNs
    let snapHash ← storeObject (opts.snapshot [changeBefore.1.current] newTree now)
    let change := changeBefore.1.advance snapHash
    putChange change
    let _ ← appendOp ⟨opts.author, .snap snapHash opts.message,
      [.change changeId (some changeBefore)], [.ofChange change]⟩
    return .snapped snapHash newTree change false

/-! ## What a direct snapshot does -/

/-- A stored snapshot that says the tree of a change has been replaced by `newTree`, or a message
recorded: what a snapshot on top of the change `c` needs in order to be taken. -/
def SnapOptions.Advances (opts : SnapOptions) (s : ObjectStore H) (c : Change H) (newTree : H) :
    Prop :=
  ∃ prev : Snapshot H, s.load c.current = .ok prev ∧ opts.unchanged prev.tree newTree = false

variable {w : World H}

omit [LinearOrder H] [Format H] in
/-- A record that was read is entered under its own id. -/
theorem ofChange_eq {id : ChangeId} (c : ChangeAt H id) :
    RefSnapshot.ofChange c.1 = .change id (some c) := by
  obtain ⟨c, rfl⟩ := c
  rfl

/-- **A direct snapshot** finds nothing to record and writes nothing; or it stores a snapshot with
the old one as its parent, advances the change to it and records that. It fails before it writes
a ref, or at one of its writes. -/
theorem snapChangeDirectly_spec {changeId : ChangeId} {newTree : H} {opts : SnapOptions}
    {Q : SnapOutcome H → World H → Prop} {E : Error → World H → Prop}
    (hunchanged : ∀ c (prev : Snapshot H) w', w.Quiet w' →
      w.repo.refs.changes.lookup changeId = some c →
      w.repo.objects.load c.1.current = .ok prev → opts.unchanged prev.tree newTree = true →
      Q (.unchanged c.1) w')
    (hsnapped : ∀ c now op w', w.repo.refs.changes.lookup changeId = some c →
      opts.Advances w.repo.objects c.1 newTree →
      let snap := opts.snapshot [c.1.current] newTree now
      let h := (encode H snap).hash H
      w.Committed w' [.ofChange (c.1.advance h)] op →
      op.id = w.log.nextId → op.kind = .snap h opts.message → op.before = [.ofChange c.1] →
      op.after = [.ofChange (c.1.advance h)] →
      (∀ [LawfulFormat H], w.repo.objects.Intact → w'.repo.objects.load h = .ok snap) →
      Q (.snapped h newTree (c.1.advance h) false) w')
    (hquiet : ∀ e w', w.Quiet w' →
      (w.env.Fault e ∨ ∀ c, w.repo.refs.changes.lookup changeId = some c →
        ¬ opts.Advances w.repo.objects c.1 newTree) → E e w')
    (hfailed : ∀ c now e w', w.repo.refs.changes.lookup changeId = some c →
      opts.Advances w.repo.objects c.1 newTree →
      w.Failed w' [.ofChange (c.1.advance
        ((encode H (opts.snapshot [c.1.current] newTree now)).hash H))] e → E e w') :
    Post (snapChangeDirectly changeId newTree opts) w Q E := by
  rw [snapChangeDirectly, post_bind]
  refine getChange_spec (fun c w₁ hs₁ hr₁ hc => ?_) (fun e w₁ hs₁ hr₁ he => ?_)
  swap
  · refine hquiet e w₁ (.of_repo hs₁ hr₁) (he.imp_right fun h c hc => ?_)
    rw [h.1] at hc
    cases hc
  have hq₁ : w.Quiet w₁ := .of_repo hs₁ hr₁
  rw [post_bind]
  refine loadObject_spec (fun prev w₂ hs₂ hr₂ hprev => ?_) (fun e w₂ hs₂ hr₂ he => ?_)
  swap
  · refine hquiet e w₂ (hq₁.trans (.of_repo hs₂ hr₂)) ?_
    rw [hs₁.env, hr₁] at he
    refine he.imp_right fun herr c' hc' => ?_
    obtain rfl := Option.some.inj (hc.symm.trans hc')
    rintro ⟨prev, hprev, -⟩
    rw [herr] at hprev
    cases hprev
  have hq₂ := hq₁.trans (.of_repo hs₂ hr₂)
  rw [hr₁] at hprev
  rw [post_ite]
  refine ⟨fun hun => hunchanged c prev w₂ hq₂ hc hprev hun, fun hun => ?_⟩
  have hadv : opts.Advances w.repo.objects c.1 newTree := ⟨prev, hprev, by simpa using hun⟩
  rw [post_bind]
  refine currentTimestampNs_spec fun now w₃ hs₃ hr₃ => ?_
  have hq₃ := hq₂.trans (.of_repo hs₃ hr₃)
  rw [post_bind]
  refine storeObject_grew LawfulFormat.snapshot (fun w₄ hg₄ => ?_) (fun e w₄ hq₄ hf => ?_)
  swap
  · exact hquiet e w₄ (hq₃.trans hq₄) (Or.inl (hq₃.env ▸ hf))
  have hq₄ := hq₃.trans hg₄.quiet
  rw [post_bind, putChange]
  refine writeRef_spec (.refl w₄) (fun w₅ hw₅ => ?_) (fun e w₅ hfail _ => ?_)
  swap
  · exact hfailed c now e w₅ hc hadv ((hfail []).of_quiet hq₄)
  rw [post_bind]
  refine appendOp_spec hw₅ (fun ts w₆ hcom hobj _ => ?_)
    (fun e w₆ hfail => hfailed c now e w₆ hc hadv (hfail.of_quiet hq₄))
  refine hsnapped c now _ w₆ hc hadv (hcom.of_quiet hq₄) ?_ rfl ?_ rfl fun hi => ?_
  · exact congrArg FileLog.nextId hq₄.log
  · exact congrArg (fun e => [e]) (ofChange_eq c).symm
  · rw [hobj]
    exact hg₄.stored (hq₃.intact hi)

/-! ## What a snapshot of a workspace does -/

/-- What a snapshot of a workspace is taken on top of: the change that is checked out, or a fresh
one with a new id. -/
inductive SnapBase.IsFor (ws : Workspace) (opts : SnapOptions) (r : Refs H) (ulid : String) :
    SnapBase H → Prop
  | current (id : ChangeId) (c : ChangeAt H id) (hws : ws.current r = some id)
      (hc : r.changes.lookup id = some c) :
      IsFor ws opts r ulid ⟨c.1, [c.1.current], false, .ofChange c.1⟩
  | fresh (hws : ws.current r = none) :
      IsFor ws opts r ulid ⟨Change.new ulid opts.initialDescription opts.author placeholderHash,
        [], true, .change ulid none⟩

/-- What a snapshot of a workspace needs in order to be taken on top of `base`. -/
def SnapBase.Advances (base : SnapBase H) (opts : SnapOptions) (s : ObjectStore H) (newTree : H) :
    Prop :=
  base.fresh = true ∨ opts.Advances s base.change newTree

/-- The entries that a snapshot of a workspace writes. -/
def SnapBase.entries (base : SnapBase H) (ws : Workspace) (snapHash : H) : List (RefSnapshot H) :=
  .ofChange (base.advanced snapHash) ::
    if base.fresh then [ws.entry (base.advanced snapHash).id] else []

omit [LinearOrder H] in
/-- Only the main workspace can be without a current change. -/
theorem SnapBase.IsFor.kind_of_fresh {ws : Workspace} {opts : SnapOptions} {r : Refs H}
    {ulid : String} {base : SnapBase H} (h : base.IsFor ws opts r ulid)
    (hf : base.fresh = true) : ws.kind = .main := by
  cases h with
  | current => cases hf
  | fresh hws =>
    obtain ⟨_ | m, dir⟩ := ws
    · rfl
    · cases hws

theorem snapBase_spec {ws : Workspace} {opts : SnapOptions} {Q : SnapBase H → World H → Prop}
    {E : Error → World H → Prop}
    (hok : ∀ (base : SnapBase H) n w', w.Quiet w' → base.IsFor ws opts w.repo.refs (w.env.ulid n) →
      w.ids ≤ n → (base.fresh = true → n < w'.ids) → Q base w')
    (herr : ∀ e w', w.Quiet w' →
      w.env.Fault e ∨ (∃ id, ws.current w.repo.refs = some id ∧
        w.repo.refs.changes.lookup id = none) → E e w') :
    Post (snapBase ws opts) w Q E := by
  rw [snapBase, post_bind]
  refine currentChangeId_spec (fun w₁ hs₁ hr₁ => ?_)
    (fun e w₁ hs₁ hr₁ hf => herr e w₁ (.of_repo hs₁ hr₁) (Or.inl hf))
  have hq₁ : w.Quiet w₁ := .of_repo hs₁ hr₁
  cases hcur : ws.current w.repo.refs with
  | none =>
    dsimp only
    rw [post_bind]
    refine newUlid_spec fun w₂ hs₂ hr₂ hids => ?_
    refine hok _ w₁.ids w₂ (hq₁.trans (.of_repo hs₂ hr₂)) ?_ hq₁.ids (fun _ => by omega)
    rw [hq₁.env]
    exact .fresh hcur
  | some id =>
    dsimp only
    rw [post_bind]
    refine getChange_spec (fun c w₂ hs₂ hr₂ hc => ?_) (fun e w₂ hs₂ hr₂ he => ?_)
    · rw [hr₁] at hc
      exact hok _ w.ids w₂ (hq₁.trans (.of_repo hs₂ hr₂)) (.current id c hcur hc) le_rfl (by simp)
    · rw [hs₁.env, hr₁] at he
      exact herr e w₂ (hq₁.trans (.of_repo hs₂ hr₂)) (he.imp_right fun h => ⟨id, hcur, h.1⟩)

theorem unchangedSince_spec {base : SnapBase H} {treeHash : H} {opts : SnapOptions}
    {Q : Bool → World H → Prop} {E : Error → World H → Prop}
    (hunchanged : ∀ (prev : Snapshot H) w', w.Quiet w' → base.fresh = false →
      w.repo.objects.load base.change.current = .ok prev →
      opts.unchanged prev.tree treeHash = true → Q true w')
    (hadvances : ∀ w', w.Quiet w' → base.Advances opts w.repo.objects treeHash → Q false w')
    (herr : ∀ e w', w.Quiet w' → w.env.Fault e ∨ (base.fresh = false ∧
      ∀ prev : Snapshot H, w.repo.objects.load base.change.current ≠ .ok prev) → E e w') :
    Post (unchangedSince base treeHash opts) w Q E := by
  rw [unchangedSince, post_ite]
  refine ⟨fun hf => hadvances w (.refl w) (Or.inl hf), fun hf => ?_⟩
  rw [Bool.not_eq_true] at hf
  rw [post_bind]
  refine loadObject_spec (fun prev w₁ hs₁ hr₁ hprev => ?_) (fun e w₁ hs₁ hr₁ he => ?_)
  · have hq₁ : w.Quiet w₁ := .of_repo hs₁ hr₁
    rw [post_pure]
    cases hun : opts.unchanged prev.tree treeHash with
    | true => exact hunchanged prev w₁ hq₁ hf hprev hun
    | false => exact hadvances w₁ hq₁ (Or.inr ⟨prev, hprev, hun⟩)
  · refine herr e w₁ (.of_repo hs₁ hr₁) (he.imp_right fun herr => ⟨hf, fun prev hprev => ?_⟩)
    rw [herr] at hprev
    cases hprev

omit [LinearOrder H] [Format H] in
/-- Pointing the main workspace at a fresh change is one more write. -/
theorem pointAtFresh_spec {w₀ : World H} {ws : Workspace} {fresh : Bool} {id : ChangeId}
    {done : List (RefSnapshot H)} {log : FileLog} (hkind : fresh = true → ws.kind = .main)
    (hw : w₀.Wrote w done log) {Q : Unit → World H → Prop} {E : Error → World H → Prop}
    (hok : ∀ w', w₀.Wrote w' (done ++ if fresh then [ws.entry id] else []) log →
      w.ids ≤ w'.ids → Q () w')
    (herr : ∀ e w', w₀.Failed w' (done ++ if fresh then [ws.entry id] else []) e → E e w') :
    Post (pointAtFresh ws fresh id) w Q E := by
  rw [pointAtFresh, post_ite]
  refine ⟨fun hf => ?_, fun hf => ?_⟩
  · obtain ⟨kind, dir⟩ := ws
    obtain rfl : kind = .main := hkind hf
    rw [if_pos hf] at hok herr
    rw [post_bind, Workspace.setCurrentChangeId, post_bind, setHead, post_writeRef]
    have hfail : w.env.failure .refWrite (w.ticks .refWrite) =
        w₀.env.failure .refWrite (w₀.ticks .refWrite + done.length) := by
      rw [hw.env, hw.refWrites]
    refine ⟨fun hnone => ?_, fun e he => ?_⟩
    · exact hok _ (hw.write _ (hfail ▸ hnone)) le_rfl
    · refine herr e _ (.refWrite done.length (by simp) (hfail ▸ he) ?_ hw.oplog)
      rw [List.take_left]
      exact hw.refs
  · rw [if_neg hf, List.append_nil] at hok
    exact hok w hw le_rfl

/-- What is captured of a workspace is its pointer, or that of the main workspace. -/
theorem keeps_captureWorkspaceRef {ws : Workspace} :
    Keeps (captureWorkspaceRef ws) w fun e _ => e.key = ws.key ∨ e.key = .head := by
  obtain ⟨_ | m, dir⟩ := ws
  · unfold Keeps
    rw [captureWorkspaceRef, post_bind, post_attempt]
    exact head_spec (fun _ hs hr => ⟨(World.Quiet.of_repo hs hr).kept, .inl rfl⟩)
      (fun _ _ hs hr _ => ⟨(World.Quiet.of_repo hs hr).kept, .inl rfl⟩)
  · unfold Keeps
    rw [captureWorkspaceRef, post_bind, post_attempt]
    refine openWorkspaces_spec (fun w₁ hs₁ hr₁ => ?_)
      (fun _ _ hs hr _ => ⟨(World.Quiet.of_repo hs hr).kept, .inr rfl⟩)
    have hk₁ := (World.Quiet.of_repo hs₁ hr₁).kept
    dsimp only
    rw [post_bind, post_attempt]
    exact getWorkspace_spec
      (fun _ _ hs hr _ => ⟨hk₁.trans (World.Quiet.of_repo hs hr).kept, .inl rfl⟩)
      (fun _ _ hs hr _ => ⟨hk₁.trans (World.Quiet.of_repo hs hr).kept, .inl rfl⟩)

theorem keeps_scan {ignore : List String} {workdir : String} {copy : WorkingCopy} :
    Keeps (scan ignore workdir copy) w fun _ _ => True :=
  scan_spec (fun _ _ hg _ => ⟨hg.quiet.kept, trivial⟩) (fun _ _ hq _ => hq.kept)

theorem keeps_snapBase {ws : Workspace} {opts : SnapOptions} :
    Keeps (snapBase ws opts) w fun base w' => ∃ n,
      base.IsFor ws opts w.repo.refs (w.env.ulid n) ∧ (base.fresh = true → n < w'.ids) :=
  snapBase_spec (fun _ n _ hq hbase _ hids => ⟨hq.kept, n, hbase, hids⟩) (fun _ _ hq _ => hq.kept)

theorem keeps_unchangedSince {base : SnapBase H} {treeHash : H} {opts : SnapOptions} :
    Keeps (unchangedSince base treeHash opts) w fun _ _ => True :=
  unchangedSince_spec (fun _ _ hq _ _ _ => ⟨hq.kept, trivial⟩) (fun _ hq _ => ⟨hq.kept, trivial⟩)
    (fun _ _ hq _ => hq.kept)

theorem recordSnap_spec {ws : Workspace} {opts : SnapOptions} {treeHash : H} {base : SnapBase H}
    (hkind : base.fresh = true → ws.kind = .main) {Q : SnapOutcome H → World H → Prop}
    {E : Error → World H → Prop}
    (hok : ∀ now op w', let snap := opts.snapshot base.parents treeHash now
      let h := (encode H snap).hash H
      w.Committed w' (base.entries ws h) op →
      op.id = w.log.nextId → op.kind = .snap h opts.message →
      (w.env.Reliable → op.before = [w.repo.refs.read ws.key, base.before] ∧
        op.after = [w'.repo.refs.read ws.key, .ofChange (base.advanced h)]) →
      (∀ [LawfulFormat H], w.repo.objects.Intact → w'.repo.objects.load h = .ok snap) →
      Q (.snapped h treeHash (base.advanced h) base.fresh) w')
    (hquiet : ∀ e w', w.Quiet w' → w.env.Fault e → E e w')
    (hfailed : ∀ now e w', w.Failed w' (base.entries ws
      ((encode H (opts.snapshot base.parents treeHash now)).hash H)) e → E e w') :
    Post (recordSnap ws opts treeHash base) w Q E := by
  rw [recordSnap, post_bind]
  refine captureWorkspaceRef_spec fun before w₁ hs₁ hr₁ hbefore => ?_
  have hq₁ : w.Quiet w₁ := .of_repo hs₁ hr₁
  rw [post_bind]
  refine currentTimestampNs_spec fun now w₂ hs₂ hr₂ => ?_
  have hq₂ := hq₁.trans (.of_repo hs₂ hr₂)
  rw [post_bind]
  refine storeObject_grew LawfulFormat.snapshot (fun w₃ hg₃ => ?_)
    (fun e w₃ hq₃ hf => hquiet e w₃ (hq₂.trans hq₃) (hq₂.env ▸ hf))
  have hq₃ := hq₂.trans hg₃.quiet
  rw [post_bind, putChange]
  refine writeRef_spec (.refl w₃) (fun w₄ hw₄ => ?_)
    (fun e w₄ hfail _ => hfailed now e w₄ ((hfail _).of_quiet hq₃))
  rw [post_bind]
  refine pointAtFresh_spec hkind hw₄ (fun w₅ hw₅ _ => ?_)
    (fun e w₅ hfail => hfailed now e w₅ (hfail.of_quiet hq₃))
  rw [post_bind]
  refine captureWorkspaceRef_spec fun after w₆ hs₆ hr₆ hafter => ?_
  rw [post_bind]
  refine appendOp_spec (hw₅.read hs₆ hr₆) (fun ts w₇ hcom hobj _ => ?_)
    (fun e w₇ hfail => hfailed now e w₇ (hfail.of_quiet hq₃))
  refine hok now _ w₇ (hcom.of_quiet hq₃) (congrArg FileLog.nextId hq₃.log) rfl
    (fun hrel => ?_) (fun hi => ?_)
  · have hrefs : w₇.repo.refs = w₅.repo.refs := by rw [hcom.refs, hw₅.refs]
    have henv : w₅.env.Reliable := by
      rw [hw₅.env, hq₃.env]
      exact hrel
    rw [hrefs, hafter henv, hbefore hrel]
    exact ⟨rfl, rfl⟩
  · rw [hobj]
    exact hg₃.stored (hq₂.intact hi)

/-- **A snapshot of a workspace** finds the tree unchanged and writes objects at most; or it
stores a snapshot of the working copy on top of the current change, or of a fresh one, and
records that. It fails before it writes a ref, or at one of its writes. -/
theorem snapNow_spec {ws : Workspace} {copy : WorkingCopy} {opts : SnapOptions}
    {Q : SnapOutcome H → World H → Prop} {E : Error → World H → Prop}
    (hunchanged : ∀ (tree : Tree H) (base : SnapBase H) n (prev : Snapshot H) w',
      w.Grew w' (fun s => CopyStoredIn s opts.ignore copy) →
      recordTree opts.ignore copy = some tree →
      base.IsFor ws opts w.repo.refs (w.env.ulid n) → base.fresh = false →
      w'.repo.objects.load base.change.current = .ok prev →
      opts.unchanged prev.tree ((encode H tree).hash H) = true → Q (.unchanged base.change) w')
    (hsnapped : ∀ (tree : Tree H) (base : SnapBase H) n s' now op w',
      recordTree opts.ignore copy = some tree →
      base.IsFor ws opts w.repo.refs (w.env.ulid n) → w.ids ≤ n →
      (base.fresh = true → n < w'.ids) →
      w.repo.objects.Le s' → base.Advances opts s' ((encode H tree).hash H) →
      let snap := opts.snapshot base.parents ((encode H tree).hash H) now
      let h := (encode H snap).hash H
      w.Committed w' (base.entries ws h) op →
      op.id = w.log.nextId → op.kind = .snap h opts.message →
      (w.env.Reliable → op.before = [w.repo.refs.read ws.key, base.before] ∧
        op.after = [w'.repo.refs.read ws.key, .ofChange (base.advanced h)]) →
      (∀ [LawfulFormat H], w.repo.objects.Intact → w'.repo.objects.load h = .ok snap ∧
        CopyStoredIn w'.repo.objects opts.ignore copy) →
      Q (.snapped h ((encode H tree).hash H) (base.advanced h) base.fresh) w')
    (hquiet : ∀ e w', w.Quiet w' →
      (w.env.Fault e ∨ recordTree opts.ignore copy = (none : Option (Tree H)) ∨
        ∃ id, ws.current w.repo.refs = some id ∧
          ∀ c, w.repo.refs.changes.lookup id = some c →
            ∀ prev : Snapshot H, w.repo.objects.load c.1.current ≠ .ok prev) → E e w')
    (hfailed : ∀ (tree : Tree H) (base : SnapBase H) n s' now e w',
      recordTree opts.ignore copy = some tree →
      base.IsFor ws opts w.repo.refs (w.env.ulid n) → w.ids ≤ n → w.repo.objects.Le s' →
      base.Advances opts s' ((encode H tree).hash H) →
      w.Failed w' (base.entries ws ((encode H
        (opts.snapshot base.parents ((encode H tree).hash H) now)).hash H)) e → E e w') :
    Post (snapNow ws copy opts) w Q E := by
  rw [snapNow, post_bind]
  refine scan_spec (fun tree w₁ hg₁ htree => ?_)
    (fun e w₁ hq₁ he => hquiet e w₁ hq₁ (he.imp_right Or.inl))
  have hq₁ := hg₁.quiet
  rw [post_bind]
  refine snapBase_spec (fun base n w₂ hq₂ hbase hn hids => ?_) (fun e w₂ hq₂ he => ?_)
  swap
  · rw [hq₁.env, hq₁.refs] at he
    refine hquiet e w₂ (hq₁.trans hq₂) (he.imp_right fun ⟨id, hid, hnone⟩ => Or.inr ⟨id, hid, ?_⟩)
    intro c hc
    rw [hnone] at hc
    cases hc
  rw [hq₁.refs, hq₁.env] at hbase
  have hq₂' := hq₁.trans hq₂
  rw [post_bind]
  refine unchangedSince_spec (fun prev w₃ hq₃ hfresh hprev hun => ?_)
    (fun w₃ hq₃ hadv => ?_) (fun e w₃ hq₃ he => ?_)
  · rw [post_ite]
    refine ⟨fun _ => ?_, fun h => absurd rfl h⟩
    refine hunchanged tree base n prev w₃ ⟨hq₂'.trans hq₃, fun hi => ?_⟩ htree hbase hfresh
      (hq₃.le.load hprev) hun
    exact Node.StoredIn.mono (hq₂.trans hq₃).le _ (hg₁.stored hi)
  · rw [post_ite]
    refine ⟨fun h => absurd h Bool.false_ne_true, fun _ => ?_⟩
    have hq₃' := hq₂'.trans hq₃
    have hle : w.repo.objects.Le w₂.repo.objects := hq₂'.le
    have hn' : w.ids ≤ n := hq₁.ids.trans hn
    refine recordSnap_spec hbase.kind_of_fresh
      (fun now op w₄ hcom hid hkind hents hload => ?_)
      (fun e w₄ hq₄ hf => hquiet e w₄ (hq₃'.trans hq₄) (Or.inl (hq₃'.env ▸ hf)))
      (fun now e w₄ hfail => hfailed tree base n _ now e w₄ htree hbase hn' hle hadv
        (hfail.of_quiet hq₃'))
    refine hsnapped tree base n _ now op w₄ htree hbase hn'
      (fun hf => (hids hf).trans_le (hq₃.ids.trans hcom.ids)) hle hadv (hcom.of_quiet hq₃')
      (hid.trans (congrArg FileLog.nextId hq₃'.log)) hkind (fun hrel => ?_) (fun hi => ⟨?_, ?_⟩)
    · have := hents (by rw [hq₃'.env]; exact hrel)
      rwa [hq₃'.refs] at this
    · exact hload (hq₃'.intact hi)
    · exact Node.StoredIn.mono ((hq₂.trans hq₃).le.trans hcom.le) _ (hg₁.stored hi)
  · refine hquiet e w₃ (hq₂'.trans hq₃) ?_
    rw [hq₂'.env] at he
    refine he.imp_right fun ⟨hfresh, hnone⟩ => Or.inr ?_
    cases hbase with
    | fresh => cases hfresh
    | current id c hws hc =>
      refine ⟨id, hws, fun c' hc' prev hprev => ?_⟩
      obtain rfl := Option.some.inj (hc.symm.trans hc')
      exact hnone prev (hq₂'.le.load hprev)

/-! ## What a snapshot leaves behind when no step fails -/

omit [LinearOrder H] [Format H] in
/-- The entry of a record that is there. -/
theorem read_change {r : Refs H} {id : ChangeId} {c : ChangeAt H id}
    (hc : r.changes.lookup id = some c) : r.read (.change id) = .ofChange c.1 := by
  rw [ofChange_eq, Refs.read, hc]

omit [LinearOrder H] [Format H] in
/-- A record that was just written is what is read. -/
theorem read_write_change {r : Refs H} {c : Change H} {id : ChangeId} (hid : c.id = id) :
    (r.write (.ofChange c)).read (.change id) = .ofChange c := by
  subst hid
  exact Refs.read_write r (.ofChange c)

omit [LinearOrder H] [Format H] in
/-- The id of a record that is there has come from the generator. -/
theorem IdsBelow.of_lookup {env : Env} {n : Nat} {r : Refs H} (h : IdsBelow env n r)
    {id : ChangeId} {c : ChangeAt H id} (hc : r.changes.lookup id = some c) :
    ∃ m < n, c.1.id = env.ulid m := by
  rw [c.2]
  exact h.changes id (Finmap.mem_of_lookup_eq_some hc)

/-- A committed operation that advanced a change to a new snapshot on top of the current one. -/
theorem World.Recorded.of_advance (hw : w.Steady) {w' : World H} {id : ChangeId}
    {c : ChangeAt H id} {h : H} {op : Op H} (hc : w.repo.refs.changes.lookup id = some c)
    (hcom : w.Committed w' [.ofChange (c.1.advance h)] op) {message : Option String}
    (hkind : op.kind = .snap h message) (ks : List RefKey) (hbook : ∀ k ∈ ks, k.isBookmark = false) (hks : .change id ∈ ks)
    (hbefore : op.before = ks.map w.repo.refs.read)
    (hafter : op.after = ks.map w'.repo.refs.read)
    (hp : ∀ [LawfulFormat H], w.repo.objects.Intact →
      OnlyParent w'.repo.objects c.1.current h) : w.Recorded w' op := by
  have hrefs : w'.repo.refs = w.repo.refs.write (.ofChange (c.1.advance h)) := hcom.refs
  have hread : w'.repo.refs.read (.change id) = .ofChange (c.1.advance h) := by
    rw [hrefs, read_write_change ((Change.advance_id _ _).trans c.2)]
  have hnamed : op.kind.NamedIn op.after := by
    rw [hkind, hafter]
    exact ⟨_, _, List.mem_map.mpr ⟨_, hks, hread⟩, Change.advance_current _ _⟩
  refine .of_committed hcom (by rw [Op.isUndo, hkind]; rfl) ks hbook (fun e he => ?_) hnamed
    hbefore hafter ?_ fun hi hr => ?_
  · obtain rfl := List.mem_singleton.mp he
    simpa [RefSnapshot.ofChange, RefSnapshot.key, c.2] using hks
  · rw [hrefs, hcom.env]
    refine (hw.ids.mono hcom.ids).writeChange ?_
    rw [Change.advance_id]
    exact (hw.ids.mono hcom.ids).of_lookup hc
  · rw [hrefs]
    exact (hr.mono hcom.le).writeChange (((hr.changes id c hc).mono hcom.le).advance (hp hi))

theorem snapChangeDirectly_outcome (hw : w.Steady) (changeId : ChangeId) (newTree : H)
    (opts : SnapOptions) :
    Post (snapChangeDirectly changeId newTree opts) w (fun _ w' => w.Outcome w')
      (fun _ w' => w.Outcome w') := by
  refine snapChangeDirectly_spec (fun _ _ w' hq _ _ _ => hq.outcome) ?_
    (fun _ w' hq _ => hq.outcome)
    (fun _ _ _ w' _ _ hfail => absurd hfail hw.reliable.not_failed)
  intro c now op w' hc hadv snap h hcom _ hkind hbefore hafter hload
  refine Or.inr ⟨op, .of_advance hw hc hcom hkind [.change changeId] (by simp)
    List.mem_cons_self ?_ ?_ fun hi => ⟨snap, hload hi, rfl⟩⟩
  · rw [hbefore, List.map_singleton, read_change hc]
  · have hrefs : w'.repo.refs = w.repo.refs.write (.ofChange (c.1.advance h)) := hcom.refs
    rw [hafter, List.map_singleton, hrefs, read_write_change ((Change.advance_id _ _).trans c.2)]

/-- A committed operation that checked out a fresh change in the main workspace. -/
theorem World.Recorded.of_fresh (hw : w.Steady) {w' : World H} {n : Nat} (hn : w.ids ≤ n)
    (hn' : n < w'.ids) {c : Change H} (hid : c.id = w.env.ulid n) {op : Op H}
    (hcom : w.Committed w' [.ofChange c, .head (some c.id)] op) {message : Option String}
    (hkind : op.kind = .snap c.current message)
    (hbefore : op.before = [w.repo.refs.read .head, .change c.id none])
    (hafter : op.after = [w'.repo.refs.read .head, .ofChange c])
    (hc : ∀ [LawfulFormat H], w.repo.objects.Intact → HistoryOk w'.repo.objects c) :
    w.Recorded w' op := by
  have hrefs : w'.repo.refs = (w.repo.refs.write (.ofChange c)).write (.head (some c.id)) :=
    hcom.refs
  have hnone : w.repo.refs.changes.lookup c.id = none := by
    rw [hid]
    exact Finmap.lookup_eq_none.mpr (hw.ids.not_mem hw.fresh hn).1
  have hnamed : op.kind.NamedIn op.after := by
    rw [hkind, hafter]
    exact ⟨_, _, List.mem_cons_of_mem _ List.mem_cons_self, rfl⟩
  refine .of_committed hcom (by rw [Op.isUndo, hkind]; rfl) [.head, .change c.id] (by simp)
    (fun e he => ?_) hnamed ?_ ?_ ?_ fun hi hr => ?_
  · rcases List.mem_cons.mp he with rfl | he
    · exact List.mem_cons_of_mem _ List.mem_cons_self
    · obtain rfl := List.mem_singleton.mp he
      exact List.mem_cons_self
  · rw [hbefore, List.map_cons, List.map_singleton]
    exact congrArg (fun v => [_, RefSnapshot.change c.id v]) hnone.symm
  · rw [hafter, List.map_cons, List.map_singleton, hrefs,
      Refs.read_write_of_ne _ _ _ (show RefKey.change c.id ≠ _ from RefKey.noConfusion),
      read_write_change rfl]
  · rw [hrefs, hcom.env]
    exact ((hw.ids.mono hcom.ids).writeChange ⟨n, hn', hid⟩).writeHead
  · rw [hrefs]
    exact ((hr.mono hcom.le).writeChange (hc hi)).writeHead (mem_write_change.mpr (Or.inl rfl))

theorem snapNow_outcome (hw : w.Steady) (ws : Workspace) (copy : WorkingCopy)
    (opts : SnapOptions) :
    Post (snapNow ws copy opts) w (fun _ w' => w.Outcome w') (fun _ w' => w.Outcome w') := by
  refine snapNow_spec (fun _ _ _ _ w' hg _ _ _ _ _ => hg.quiet.outcome) ?_
    (fun _ w' hq _ => hq.outcome)
    (fun _ _ _ _ _ _ w' _ _ _ _ _ hfail => absurd hfail hw.reliable.not_failed)
  intro tree base n s' now op w' _ hbase hn hids _ _ snap h hcom _ hkind hents hload
  obtain ⟨hbefore, hafter⟩ := hents hw.reliable
  cases hbase with
  | current id c hws hc =>
    have hcom' : w.Committed w' [.ofChange (c.1.advance h)] op := hcom
    have hrefs : w'.repo.refs = w.repo.refs.write (.ofChange (c.1.advance h)) := hcom'.refs
    refine Or.inr ⟨op, .of_advance hw hc hcom' hkind [ws.key, .change id]
      (by simp) (List.mem_cons_of_mem _ List.mem_cons_self) ?_ ?_ fun hi => ⟨snap, (hload hi).1, rfl⟩⟩
    · rw [hbefore, List.map_cons, List.map_singleton, read_change hc]
    · rw [hafter, List.map_cons, List.map_singleton]
      refine congrArg (fun e => [_, e]) ?_
      rw [hrefs, read_write_change ((Change.advance_id _ _).trans c.2)]
      rfl
  | fresh hws =>
    -- only the main workspace can be without a current change
    obtain ⟨_ | m, dir⟩ := ws
    · refine Or.inr ⟨op, .of_fresh hw hn (hids rfl) rfl hcom hkind hbefore hafter fun hi => ?_⟩
      exact .start (.root h snap (hload hi).1 rfl) rfl rfl
    · cases hws

end Tig
