import Tig.Cli.Restoring
import Tig.Fs.Building
import Tig.System.Requests

set_option relaxedAutoImplicit false
set_option autoImplicit false

/-!
# Repositories that commands and requests work on

Commands and requests work on a repository in any order, and any step of them may fail. Nothing
that is stored ever refers to something that is not, collections of garbage included, as long as
the steps of these succeed.

## Main definitions

* `Tig.Served` — the repositories that commands and requests lead to.

## Main results

* `Tig.Operation.upholds`, `Tig.Request.upholds` — commands and requests leave nothing dangling.
* `Tig.World.Complete.collect` — nor does a collection of garbage.
* `Tig.Served.complete` — nothing dangles in any of these repositories.
-/

namespace Tig

open Program

variable {H : Type} [LinearOrder H] [Format H] {L : Prop} {w : World H}

/-! ## Requests that read -/

section Reading

omit [LinearOrder H] [Format H] in
theorem reads_readStore {α : Type} {f : ObjectStore H → Except Error α} : ReadOnly (readStore f) :=
  .bind .step fun _ => .bind .get fun _ => .fromExcept _

variable {srv : Server} {rd : Reader} {headers : HeaderMap} {caller : PrincipalId}

section Caller

omit [LinearOrder H] [Format H]

theorem reads_callerFrom : ReadOnly (callerFrom srv headers : ApiM H PrincipalId) := by
  rw [callerFrom]
  split
  · rw [bearerCaller]
    split
    · exact .throw _
    · refine .bind (.fromExcept _) fun peeked => .bind (.adaptExcept .step _) fun _ => ?_
      refine .bind (.fromExcept _) fun principal => .bind (.fromExcept _) fun pubkey => ?_
      refine .bind (.bind (reads_currentTimestampNs.adaptExcept _) fun _ => .pure _) fun now => ?_
      exact .bind (.fromExcept _) fun claims => .pure _
  · exact .pure _

theorem reads_loadVisibleChange {id : ChangeId} :
    ReadOnly (loadVisibleChange id caller : ApiM H _) := by
  refine .bind (reads_getChange.adaptExcept _) fun c => ?_
  split
  · exact .pure _
  · exact .throw _

theorem reads_loadMutableChange {id : ChangeId} :
    ReadOnly (loadMutableChange id caller : ApiM H _) := by
  refine .bind reads_loadVisibleChange fun c => ?_
  split
  · exact .pure _
  · exact .throw _

theorem reads_visibleHistories {ids : List ChangeId} :
    ReadOnly (visibleHistories caller ids : ApiM H _) := by
  induction ids with
  | nil => exact .pure _
  | cons id ids ih =>
    refine .bind (reads_getChange.adaptExcept _) fun c => .bind ih fun rest => ?_
    split
    · exact .pure _
    · exact .pure _

theorem reads_allVisible {ids : List ChangeId} : ReadOnly (allVisible caller ids : ApiM H _) := by
  induction ids with
  | nil => exact .pure _
  | cons id ids ih =>
    refine .bind (.adaptExcept (.tryCatch (.bind reads_getChange fun _ => .pure _) fun e => ?_) _)
      fun found => ?_
    · split
      · exact .pure _
      · exact .throw _
    · split
      · exact .pure _
      · split
        · exact ih
        · exact .pure _

end Caller

omit [LinearOrder H] [Format H] in
theorem reads_visibleSnapshotSet : ReadOnly (visibleSnapshotSet caller : ApiM H _) :=
  .bind (reads_listChanges.adaptExcept _) fun _ => reads_visibleHistories

theorem reads_mutableSnapshot {id : ChangeId} :
    ReadOnly (Handlers.mutableSnapshot srv id headers : ApiM H _) :=
  .bind reads_callerFrom fun _ => .bind reads_loadMutableChange fun _ =>
    .bind (reads_loadObject.adaptExcept _) fun _ => .pure _

/-- A handler that parses an argument and resolves the caller first. -/
theorem Upholds.resolved {α β : Type} {arg : Except ApiError α} {f : α → PrincipalId → ApiM H β}
    (hf : ∀ a caller (w₁ : World H), Upholds L (f a caller) w₁ fun _ _ => True) :
    Upholds L (do
      let a ← Program.fromExcept arg
      let caller ← callerFrom srv headers
      f a caller) w fun _ _ => True :=
  .bind (.of_reads (.fromExcept _)) fun a _ _ _ =>
    .bind (.of_reads reads_callerFrom) fun caller w₁ _ _ => hf a caller w₁

namespace Handlers

omit [LinearOrder H] in
theorem reads_visibleChanges {ids : List ChangeId} :
    ReadOnly (visibleChanges caller ids : ApiM H _) := by
  induction ids with
  | nil => exact .pure _
  | cons id ids ih =>
    refine .bind (Tig.reads_getChange.adaptExcept _) fun c => .bind ih fun rest => ?_
    split
    · exact .pure _
    · exact .pure _

omit [LinearOrder H] in
theorem reads_listChanges : ReadOnly (listChanges srv headers : ApiM H _) :=
  .bind reads_callerFrom fun _ => .bind (Tig.reads_listChanges.adaptExcept _) fun _ =>
    reads_visibleChanges

omit [LinearOrder H] in
theorem reads_getChange {id : String} : ReadOnly (getChange srv id headers : ApiM H _) :=
  .bind (.fromExcept _) fun _ => .bind reads_callerFrom fun _ =>
    .bind reads_loadVisibleChange fun _ => .pure _

theorem reads_getTreeRoot {id : String} : ReadOnly (getTreeRoot srv id headers : ApiM H _) :=
  .bind (.fromExcept _) fun _ => .bind reads_callerFrom fun _ =>
    .bind reads_loadVisibleChange fun _ => .bind (reads_loadObject.adaptExcept _) fun _ =>
      .bind (reads_loadObject.adaptExcept _) fun _ => .pure _

theorem reads_showEntry {tree : H} {path : String} {entry : TreeEntry H} :
    ReadOnly (showEntry tree path entry) := by
  rw [showEntry]
  split
  · exact .bind (reads_readStore.adaptExcept _) fun _ => .pure _
  · exact .bind (reads_readStore.adaptExcept _) fun _ => .pure _
  · exact .bind (reads_loadObject.adaptExcept _) fun _ => .pure _
  · exact .throw _

theorem reads_getTreePath {id path : String} : ReadOnly (getTreePath srv id path headers : ApiM H _) :=
  .bind (.fromExcept _) fun _ => .bind reads_callerFrom fun _ =>
    .bind reads_loadVisibleChange fun _ => .bind (reads_loadObject.adaptExcept _) fun _ =>
      .bind (.fromExcept _) fun _ => .bind (reads_readStore.adaptExcept _) fun _ => reads_showEntry

theorem reads_visibleSnapshot {id : String} {snap : Option String} :
    ReadOnly (visibleSnapshot id snap caller : ApiM H _) := by
  refine .bind reads_loadVisibleChange fun c => .bind (.fromExcept _) fun atHash => ?_
  refine .bind reads_visibleSnapshotSet fun visible => ?_
  split
  · exact .pure _
  · exact .throw _

theorem reads_blamePath {id path : String} {q : BlameQuery} :
    ReadOnly (blamePath srv rd id path q headers : ApiM H _) :=
  .bind (.fromExcept _) fun _ => .bind reads_callerFrom fun _ => .bind reads_visibleSnapshot fun _ =>
    .bind (reads_readStore.adaptExcept _) fun _ => .pure _

theorem reads_grepChange {id : String} {q : GrepQuery} :
    ReadOnly (grepChange srv rd id q headers : ApiM H _) :=
  .bind (.fromExcept _) fun _ => .bind reads_callerFrom fun _ => .bind reads_visibleSnapshot fun _ =>
    .bind (reads_loadObject.adaptExcept _) fun _ => .bind (reads_readStore.adaptExcept _) fun _ =>
      .pure _

theorem reads_getSnapshot {hash : String} : ReadOnly (getSnapshot srv hash headers : ApiM H _) := by
  refine .bind (.fromExcept _) fun h => .bind reads_callerFrom fun caller => ?_
  refine .bind reads_visibleSnapshotSet fun visible => ?_
  split
  · refine .bind (reads_readStore.adaptExcept _) fun raw => ?_
    split
    · exact .bind (.fromExcept _) fun snap => .pure _
    · exact .throw _
  · exact .throw _

omit [LinearOrder H] in
theorem reads_showOps {ops : List (Op H)} : ReadOnly (showOps caller ops : ApiM H _) := by
  induction ops with
  | nil => exact .pure _
  | cons op ops ih => exact .bind reads_allVisible fun _ => .bind ih fun _ => .pure _

omit [LinearOrder H] in
theorem reads_listOplog {limit : Option Nat} : ReadOnly (listOplog srv limit headers : ApiM H _) :=
  .bind reads_callerFrom fun _ => .bind (reads_listOps.adaptExcept _) fun _ => reads_showOps

variable [LawfulFormat H]

/-- A comparison stores the empty tree at most. -/
theorem upholds_diffChange {id : String} {q : DiffQuery} :
    Upholds L (diffChange srv rd id q headers : ApiM H _) w fun _ _ => True := by
  refine .resolved fun id caller w₁ => .bind (.of_reads reads_loadVisibleChange) fun c w₂ _ _ => ?_
  refine .bind (.of_reads (.fromExcept _)) fun toSnapHash w₃ _ _ => ?_
  refine .bind (.of_reads (reads_loadObject.adaptExcept _)) fun toSnap w₄ _ _ => ?_
  refine .bind (P := fun _ _ => True) ?_ fun fromTree w₅ _ _ => ?_
  · unfold diffFromTree
    split
    · exact .of_reads (.bind (.fromExcept _) fun _ => .bind (reads_loadObject.adaptExcept _)
        fun _ => .pure _)
    · split
      · exact .of_reads (.bind (reads_loadObject.adaptExcept _) fun _ => .pure _)
      · exact (upholds_storeTree .new).engine.mono fun _ _ _ _ => trivial
  refine .of_reads (.bind reads_visibleSnapshotSet fun visible => .bind (.fromExcept _)
    fun fromVisible => ?_)
  split
  · exact .throw _
  · exact .bind (reads_readStore.adaptExcept _) fun _ => .pure _

end Handlers

end Reading

/-! ## Requests that write -/

section Write

variable {srv : Server} {headers : HeaderMap}

theorem upholds_lockForWrite : Upholds L (lockForWrite : RepoM H Unit) w fun _ _ => True :=
  .of_reads .step

theorem upholds_openLog : Upholds L (openLog : RepoM H Unit) w fun _ _ => True :=
  .of_same (openLog_spec (fun _ _ hr => ⟨hr, trivial⟩) (fun _ _ _ hr _ => hr))

theorem upholds_newUlid : Upholds L (newUlid : RepoM H String) w fun _ _ => True :=
  .of_same (newUlid_spec fun _ _ hr _ => ⟨hr, trivial⟩)

/-- A change that the caller may see is grounded. -/
theorem upholds_loadVisibleChange {id : ChangeId} {caller : PrincipalId} :
    Upholds L (loadVisibleChange id caller : ApiM H _) w
      fun c w' => (RefSnapshot.ofChange c.1).Grounded L w'.repo.objects :=
  fun hw => (Upholds.of_keeps reads_loadVisibleChange keeps_loadVisibleChange hw).mono
    (fun _ _ h => ⟨h.1, (hw.grounded h.2.1).mono h.1.le⟩) (fun _ _ h => h)

theorem upholds_loadMutableChange {id : ChangeId} {caller : PrincipalId} :
    Upholds L (loadMutableChange id caller : ApiM H _) w
      fun c w' => (RefSnapshot.ofChange c.1).Grounded L w'.repo.objects :=
  fun hw => (Upholds.of_keeps reads_loadMutableChange keeps_loadMutableChange hw).mono
    (fun _ _ h => ⟨h.1, (hw.grounded h.2.1).mono h.1.le⟩) (fun _ _ h => h)

/-- The tree of the snapshot of a change is stored. -/
theorem upholds_mutableSnapshot {id : ChangeId} :
    Upholds L (Handlers.mutableSnapshot srv id headers : ApiM H _) w
      fun found w' => w'.repo.objects.Holds (Tree H) found.2.tree := by
  refine .bind (.of_reads reads_callerFrom) fun caller w₁ _ _ => ?_
  refine .bind (.of_reads reads_loadMutableChange) fun c w₂ _ _ => ?_
  refine .bind upholds_loadObject.engine fun snap w₃ hb₃ hsnap => .pure ?_
  exact (hb₃.complete.closed.of_snapshot hsnap).1

/-- Recording that a change has got another state or visibility. -/
theorem upholds_transitionOp {actor : PrincipalId} {before change : Change H}
    (h : (RefSnapshot.ofChange before).Grounded L w.repo.objects) :
    Upholds L (appendOp (transitionOp actor before change)) w fun _ _ => True :=
  upholds_appendOp fun _ he => List.mem_singleton.mp he ▸ h

variable [LawfulFormat H]

theorem upholds_createChange {req : CreateChangeReq} :
    Upholds L (Handlers.createChange srv headers req : ApiM H _) w fun _ _ => True := by
  refine .bind upholds_lockForWrite.engine fun _ w₁ _ _ => ?_
  refine .bind (.of_reads reads_callerFrom) fun caller w₂ _ _ => ?_
  refine .bind (P := fun h w' => L → w'.repo.objects.Holds (Snapshot H) h) ?_
    fun parentSnap w₃ hb₃ hparent => ?_
  · unfold Handlers.parentSnapshot
    split
    · refine .bind (.of_reads (.fromExcept _)) fun id w₃ _ _ => ?_
      exact .bind upholds_loadVisibleChange fun c w₄ _ hc => .pure fun hL => hc.2 hL _ hc.1
    · exact upholds_emptySnapshot.engine.mono fun _ _ _ h _ => h
  refine .bind upholds_newUlid.engine fun id w₄ hb₄ _ => ?_
  refine .bind (.of_reads (.fromExcept _)) fun visibility w₅ hb₅ _ => ?_
  refine .bind (.of_reads (.fromExcept _)) fun state w₆ hb₆ _ => ?_
  have hle := ((hb₄.trans hb₅).trans hb₆).le
  refine .bind (upholds_writeRef (.start rfl fun hL => (hparent hL).mono hle)).engine
    fun _ w₇ _ _ => ?_
  refine .bind (upholds_appendOp fun e he => ?_).engine fun _ _ _ _ => .pure trivial
  exact List.mem_singleton.mp he ▸ trivial

theorem upholds_editChange {id : String} {edit : H → RepoM H H} (hedit : EditsStored edit) :
    Upholds L (Handlers.editChange srv id headers edit : ApiM H _) w fun _ _ => True := by
  refine .bind upholds_lockForWrite.engine fun _ w₁ _ _ => ?_
  refine .bind (.of_reads (.fromExcept _)) fun id w₂ _ _ => ?_
  refine .bind (.of_reads reads_mutableSnapshot) fun found w₃ _ _ => ?_
  refine .bind (hedit L w₃ found.2.tree).engine fun newTree w₄ _ htree => ?_
  exact .bind (upholds_snapChangeDirectly htree).engine fun _ _ _ _ => .pure trivial

theorem upholds_snapChange {id : String} {req : SnapReq} :
    Upholds L (Handlers.snapChange srv id headers req : ApiM H _) w fun _ _ => True := by
  refine .bind upholds_lockForWrite.engine fun _ w₁ _ _ => ?_
  refine .bind (.of_reads (.fromExcept _)) fun id w₂ _ _ => ?_
  refine .bind upholds_mutableSnapshot fun found w₃ _ htree => ?_
  refine .bind (upholds_snapChangeDirectly htree).engine fun out w₄ _ _ => ?_
  cases out with
  | snapped snapshot tree change fresh =>
    exact .of_reads (.bind (reads_loadObject.adaptExcept _) fun _ => .pure _)
  | unchanged change => exact .pure trivial

omit [LawfulFormat H] in
theorem upholds_transitionChange {id : String} {req : TransitionReq} :
    Upholds L (Handlers.transitionChange srv id headers req : ApiM H _) w fun _ _ => True := by
  refine .bind upholds_lockForWrite.engine fun _ w₁ _ _ => ?_
  refine .bind (.of_reads (.fromExcept _)) fun id w₂ _ _ => ?_
  refine .bind (.of_reads reads_callerFrom) fun caller w₂ _ _ => ?_
  refine .bind upholds_loadMutableChange fun before w₃ _ hbefore => ?_
  refine .bind (.of_reads (.fromExcept _)) fun state w₄ hb₄ _ => ?_
  refine .bind (.of_reads (.fromExcept _)) fun visibility w₅ hb₅ _ => ?_
  have hbefore₅ := hbefore.mono (hb₄.trans hb₅).le
  have hafter : (RefSnapshot.ofChange { before.1 with state := state, visibility := visibility }).Grounded
      L w₅.repo.objects := hbefore₅.congr rfl rfl
  refine .bind (upholds_writeRef hafter).engine fun _ w₆ hb₆ _ => ?_
  exact .bind (upholds_transitionOp (hbefore₅.mono hb₆.le)).engine fun _ _ _ _ => .pure trivial

omit [LawfulFormat H] in
theorem upholds_undo {req : UndoReq} :
    Upholds L (Handlers.undo req : ApiM H _) w fun _ _ => True :=
  .bind upholds_lockForWrite.engine fun _ _ _ _ =>
    .bind upholds_undoOnce.engine fun _ _ _ _ => .pure trivial

end Write

/-! ## Commands -/

section Commands

variable {inv : Invocation}

omit [LinearOrder H] [Format H] in
theorem reads_currentChangeId {ws : Workspace} : ReadOnly (ws.currentChangeId : RepoM H _) :=
  fun _ => currentChangeId_spec (fun _ hs hr => ⟨hr, hs.env⟩) (fun _ _ hs hr _ => ⟨hr, hs.env⟩)

omit [LinearOrder H] [Format H] in
theorem reads_discoverWorkspace {repoWorkdir : String} {place : Place} :
    ReadOnly (discoverWorkspace repoWorkdir place : RepoM H _) := by
  cases place with
  | main => exact .pure _
  | marker id =>
    refine .bind .step fun _ => .bind (fun _ => ?_) fun _ => .pure _
    exact getWorkspace_spec (fun _ _ hs hr _ => ⟨hr, hs.env⟩) (fun _ _ hs hr _ => ⟨hr, hs.env⟩)

omit [LinearOrder H] [Format H] in
theorem reads_listWorkspaces : ReadOnly (listWorkspaces : RepoM H _) :=
  fun _ => listWorkspaces_spec (fun _ _ hs hr _ => ⟨hr, hs.env⟩) (fun _ _ hs hr _ => ⟨hr, hs.env⟩)

/-- A command starts in a workspace and takes the lock. -/
theorem Upholds.locked {α : Type} {f : Workspace → RepoM H α}
    (hf : ∀ ws (w₁ : World H), Upholds L (f ws) w₁ fun _ _ => True) :
    Upholds L (do
      let ws ← discoverWorkspace inv.repoWorkdir inv.place
      lockForWrite
      f ws) w fun _ _ => True :=
  .bind (.of_reads reads_discoverWorkspace) fun ws _ _ _ =>
    .bind upholds_lockForWrite fun _ w₁ _ _ => hf ws w₁

/-- Writing a new change that starts at a stored snapshot. -/
theorem upholds_recordNewChange {ws : Workspace} {actor : PrincipalId} {change : Change H}
    {description : String} (hstart : (RefSnapshot.ofChange change).Grounded L w.repo.objects) :
    Upholds L (recordNewChange ws actor change description) w fun _ _ => True := by
  refine .bind (P := fun e w' => e.Grounded L w'.repo.objects) ?_ fun before w₁ hb₁ hbefore => ?_
  · exact fun hw => workspaceRefSnapshot_spec
      (fun w' _ hr => ⟨.of_repo hw hr, (hr ▸ hw.refs ws.key : _)⟩)
      (fun _ w' _ hr _ => .of_repo hw hr)
  refine .bind (upholds_writeRef (hstart.mono hb₁.le)) fun _ w₂ hb₂ _ => ?_
  refine .bind upholds_setCurrentChangeId fun _ w₃ hb₃ _ => ?_
  refine .bind (.of_same (P := fun _ _ => True)
    (workspaceRefSnapshot_spec (fun _ _ hr => ⟨hr, trivial⟩) (fun _ _ _ hr _ => hr)))
    fun after w₄ hb₄ _ => ?_
  refine .bind (upholds_appendOp fun e he => ?_) fun _ _ _ _ => .pure trivial
  rcases List.mem_cons.mp he with rfl | he
  · exact hbefore.mono ((hb₂.trans hb₃).trans hb₄).le
  · exact List.mem_singleton.mp he ▸ trivial

theorem upholds_deleteWorkspace {id : WorkspaceId} :
    Upholds L (deleteWorkspace id : RepoM H Unit) w fun _ _ => True := by
  intro hw
  rw [deleteWorkspace, post_bind, post_step]
  refine ⟨fun _ => ?_, fun _ _ => .of_repo hw rfl⟩
  rw [post_bind, post_get, post_ite]
  refine ⟨fun _ => ⟨⟨?_, .refl _⟩, trivial⟩, fun _ => .of_repo hw rfl⟩
  exact hw.writeRef (e := .workspace id none) trivial rfl rfl rfl

variable [LawfulFormat H]

theorem upholds_cmdSnap {copy : WorkingCopy} {message : Option String} :
    Upholds L (cmdSnap inv copy message : RepoM H _) w fun _ _ => True :=
  .locked fun _ _ => .bind upholds_openLog fun _ _ _ _ => upholds_snapNow

/-- The snapshot that a new change starts at. -/
theorem upholds_startingSnapshot {ws : Workspace} {author : PrincipalId} :
    Upholds L (startingSnapshot ws author : RepoM H H) w
      fun h w' => L → w'.repo.objects.Holds (Snapshot H) h := by
  refine .bind (.of_reads reads_currentChangeId) fun cur w₁ _ _ => ?_
  cases cur with
  | none => exact upholds_emptySnapshot.mono fun _ _ _ h _ => h
  | some id =>
    intro hw₁
    refine Upholds.bind upholds_getChange (fun c w₂ hb₂ hc => .pure fun hL => ?_) hw₁
    have hground := (hw₁.grounded hc).mono hb₂.le
    exact hground.2 hL _ hground.1

theorem upholds_newChangeHere {mk : ChangeId → H → Change H} {description : String}
    (hmk : ∀ id h, (mk id h).history = [h] ∧ (mk id h).current = h) :
    Upholds L (newChangeHere inv mk description) w fun _ _ => True := by
  refine .locked fun ws w₁ => .bind upholds_openLog fun _ w₂ _ _ => ?_
  refine .bind upholds_startingSnapshot fun current w₃ hb₃ hcurrent => ?_
  refine .bind upholds_newUlid fun id w₄ hb₄ _ => upholds_recordNewChange (.start ?_ fun hL => ?_)
  · rw [(hmk id current).1, (hmk id current).2]
  · rw [(hmk id current).2]
    exact (hcurrent hL).mono hb₄.le

omit [LawfulFormat H] in
theorem upholds_cmdChangeTransition {idOpt stateStr visStr : Option String} :
    Upholds L (cmdChangeTransition inv idOpt stateStr visStr : RepoM H _) w fun _ _ => True := by
  refine .locked fun ws w₁ => .bind (.of_reads ?_) fun id w₂ _ _ => ?_
  · unfold changeArgument
    split
    · exact .pure _
    · refine .bind reads_currentChangeId fun cur => ?_
      split
      · exact .pure _
      · exact .throw _
  intro hw₂
  refine Upholds.bind upholds_getChange (fun before w₃ hb₃ hc => ?_) hw₂
  refine .bind (.of_reads (.fromExcept _)) fun state w₄ hb₄ _ => ?_
  refine .bind (.of_reads (.fromExcept _)) fun visibility w₅ hb₅ _ => ?_
  have hbefore := (hw₂.grounded hc).mono ((hb₃.trans hb₄).trans hb₅).le
  have hafter : (RefSnapshot.ofChange { before.1 with state := state, visibility := visibility }).Grounded
      L w₅.repo.objects := hbefore.congr rfl rfl
  refine .bind (upholds_writeRef hafter) fun _ w₆ hb₆ _ => ?_
  refine .bind upholds_openLog fun _ w₇ hb₇ _ => ?_
  exact .bind (upholds_transitionOp (hbefore.mono (hb₆.trans hb₇).le)) fun _ _ _ _ => .pure trivial

omit [LawfulFormat H] in
theorem reads_placeFiles {disk : Disk} {source : Workspace} {sourceChange : ChangeId} {dest : String}
    {unsealer : Option UnsealFn} :
    ReadOnly (placeFiles disk source sourceChange dest unsealer : RepoM H Unit) := by
  refine .bind ?_ fun donor => .bind .step fun _ => ?_
  · rw [chooseDonor]
    split
    · exact .pure _
    · refine .bind reads_currentChangeId fun current => ?_
      split
      · exact .pure _
      · refine .bind .step fun _ => .bind reads_listWorkspaces fun manifests => ?_
        split
        · exact .pure _
        · split
          · exact .pure _
          · refine .bind (.readStep .refRead fun r => r.refs.head) fun h => ?_
            exact .pure _
  · split
    · exact .step
    · refine .bind reads_getChange fun change => .bind .step fun _ => .bind .get fun w => ?_
      split
      · exact .pure _
      · exact .throw _

omit [LawfulFormat H] in
theorem upholds_cmdWtMake {disk : Disk} {name : String} {atPath : Option String}
    {identity : Except Error (Option UnsealFn)} :
    Upholds L (cmdWtMake disk inv name atPath identity : RepoM H _) w fun _ _ => True := by
  rw [cmdWtMake]
  split
  · exact .throw
  refine .locked fun source w₁ => .bind (.of_reads ?_) fun sourceChange w₂ _ _ => ?_
  · refine .bind reads_currentChangeId fun cur => ?_
    split
    · exact .pure _
    · exact .throw _
  dsimp only
  split
  · exact .throw
  refine .bind (.of_reads .step) fun _ w₃ _ _ => .bind (.of_reads (.fromExcept _)) fun _ w₄ _ _ => ?_
  refine .bind (.of_reads reads_placeFiles) fun _ w₅ _ _ => .bind upholds_newUlid fun _ w₆ _ _ => ?_
  refine .bind upholds_currentTimestampNs fun _ w₇ _ _ => .bind (.of_reads .step) fun _ w₈ _ _ => ?_
  refine .bind (upholds_writeRef trivial) fun _ w₉ _ _ => .bind (.of_reads .step) fun _ w₁₀ _ _ => ?_
  refine .bind upholds_openLog fun _ w₁₁ _ _ => ?_
  exact .bind (upholds_appendOp fun e he => List.mem_singleton.mp he ▸ trivial) fun _ _ _ _ =>
    .pure trivial

omit [LawfulFormat H] in
theorem upholds_cmdWtDrop {disk : Disk} {name : String} {keepFiles : Bool} :
    Upholds L (cmdWtDrop disk inv name keepFiles : RepoM H _) w fun _ _ => True := by
  refine .locked fun ws w₁ => .bind (.of_reads .step) fun _ w₂ _ _ => ?_
  refine .bind (.of_reads (.bind reads_listWorkspaces fun _ => .pure _)) fun found w₃ _ _ => ?_
  split
  · exact .throw
  split
  · exact .throw
  refine .bind (.of_reads ?_) fun _ w₄ _ _ => .bind (P := fun _ _ => True) ?_ fun _ w₅ _ _ => ?_
  · rw [removeFiles]
    split
    · exact .step
    · exact .pure _
  · exact upholds_deleteWorkspace
  refine .bind upholds_openLog fun _ w₆ _ _ => ?_
  exact .bind (upholds_appendOp fun e he => List.mem_singleton.mp he ▸ trivial) fun _ _ _ _ =>
    .pure trivial

theorem upholds_cmdSeal {path : String} {payload : Except Error Sealed} :
    Upholds L (cmdSeal inv path payload : RepoM H _) w fun _ _ => True := by
  refine .locked fun ws w₁ => .bind (.of_reads .step) fun _ w₂ _ _ => ?_
  refine .bind (.of_reads (.fromExcept _)) fun payload w₃ _ _ => .bind (.of_reads ?_) fun id w₄ _ _ => ?_
  · refine .bind reads_currentChangeId fun cur => ?_
    split
    · exact .pure _
    · exact .throw _
  refine .bind (.of_reads reads_getChange) fun change w₅ _ _ => ?_
  refine .bind (.of_reads reads_loadObject) fun snap w₆ _ _ => ?_
  refine .bind (editsStored_writeSealedAtPath path payload L w₆ snap.tree) fun newTree w₇ _ htree => ?_
  refine .bind upholds_openLog fun _ w₈ hb₈ _ => ?_
  exact (upholds_snapChangeDirectly (htree.mono hb₈.le)).mono fun _ _ _ _ => trivial

/-! ### Restores -/

omit [LawfulFormat H] in
theorem reads_restoreTarget {resolve : ObjectStore H → String → Except Error H}
    {snapPrefix : String} : ReadOnly (restoreTarget resolve snapPrefix : RepoM H H) := by
  refine .bind .step fun _ => .bind .get fun w => .bind (.fromExcept _) fun target => ?_
  refine .bind .step fun _ => .bind .get fun w => .bind (.fromExcept _) fun raw => ?_
  split
  · exact .throw _
  · exact .bind (.fromExcept _) fun _ => .pure _

omit [LinearOrder H] [Format H] [LawfulFormat H] in
theorem reads_restoreBase {ws : Workspace} : ReadOnly (restoreBase ws : RepoM H H) := by
  refine .bind reads_currentChangeId fun cur => ?_
  cases cur with
  | none => exact .throw _
  | some id => exact .bind reads_getChange fun _ => .pure _

omit [LawfulFormat H] in
theorem reads_refuseSealed {depth : Nat} {opts : RestoreOptions} {tree : H} :
    ReadOnly (refuseSealed depth opts tree : RepoM H Unit) := by
  rw [refuseSealed]
  split
  · refine .bind .step fun _ => .bind .get fun w => .bind (.fromExcept _) fun paths => ?_
    split
    · exact .pure _
    · exact .throw _
  · exact .pure _

theorem upholds_restoreChecks {depth : Nat} {opts : RestoreOptions} {workdir : String}
    {copy : WorkingCopy} {target current : H} :
    Upholds L (restoreChecks depth opts workdir copy target current) w fun _ _ => True := by
  refine .bind (.of_reads reads_loadObject) fun snap w₁ _ _ => ?_
  refine .bind (.of_reads reads_refuseSealed) fun _ w₂ _ _ => ?_
  refine .bind (P := fun _ _ => True) ?_ fun _ w₃ _ _ => .pure trivial
  rw [refuseDirty]
  split
  · exact .pure trivial
  · refine .bind (upholds_scan.mono fun _ _ _ _ => trivial) fun tree w₃ _ _ => ?_
    refine .bind (.of_reads reads_loadObject) fun snap w₄ _ _ => ?_
    split
    · exact .pure trivial
    · exact .throw

omit [LawfulFormat H] in
/-- What is done to the repository, before anything else is done to it and the directory. -/
theorem Upholds.onRepo_bind {α β : Type} {x : RepoM H α} {f : α → SiteM H β} {σ : Site H}
    (hx : Upholds L x σ.world fun _ _ => True)
    (hf : ∀ a w₁, w₁.Complete L → Post (f a) { σ with world := w₁ }
      (fun _ σ' => σ'.world.Complete L) (fun _ σ' => σ'.world.Complete L))
    (hσ : σ.world.Complete L) :
    Post (onRepo x >>= f) σ (fun _ σ' => σ'.world.Complete L) (fun _ σ' => σ'.world.Complete L) := by
  rw [post_bind, post_onRepo]
  exact (hx hσ).mono (fun a w₁ h => hf a w₁ h.1.complete) (fun _ _ h => h.complete)

omit [LawfulFormat H] in
/-- What is done to the directory is not seen by the repository. -/
theorem World.Complete.onDisk_bind {α β : Type} {x : DirM α} {f : α → SiteM H β} {σ : Site H}
    (hσ : σ.world.Complete L)
    (hf : ∀ a copy, Post (f a) { σ with copy := copy } (fun _ σ' => σ'.world.Complete L)
      (fun _ σ' => σ'.world.Complete L)) :
    Post (onDisk x >>= f) σ (fun _ σ' => σ'.world.Complete L) (fun _ σ' => σ'.world.Complete L) := by
  rw [post_bind, post_onDisk]
  exact .of_cases (fun a copy _ => hf a copy) (fun _ _ _ => hσ)

/-- **A restore** leaves nothing dangling. -/
theorem complete_cmdRestore {σ : Site H} (hσ : σ.world.Complete L) {special : Node → Option Error}
    {stackDepth : Nat} {resolve : ObjectStore H → String → Except Error H} {snapPrefix : String}
    {force : Bool} {identity : Except Error (Option UnsealFn)} :
    (final (cmdRestore special stackDepth inv resolve snapPrefix force identity) σ).world.Complete
      L := by
  refine Post.final (P := fun σ' : Site H => σ'.world.Complete L) ?_
  refine Upholds.onRepo_bind (.of_reads reads_discoverWorkspace) (fun ws w₁ h₁ => ?_) hσ
  refine Upholds.onRepo_bind upholds_lockForWrite (fun _ w₂ h₂ => ?_) h₁
  refine Upholds.onRepo_bind upholds_openLog (fun _ w₃ h₃ => ?_) h₂
  refine Upholds.onRepo_bind (.of_reads reads_restoreTarget) (fun target w₄ h₄ => ?_) h₃
  refine Upholds.onRepo_bind (.of_reads reads_restoreBase) (fun current w₅ h₅ => ?_) h₄
  refine Upholds.onRepo_bind (.of_reads .step) (fun _ w₆ h₆ => ?_) h₅
  refine Upholds.onRepo_bind (.of_reads (.fromExcept _)) (fun unsealer w₇ h₇ => ?_) h₆
  rw [restoreTreeInto, bind_assoc, post_bind, post_get, bind_assoc]
  refine Upholds.onRepo_bind upholds_restoreChecks (fun snap w₈ h₈ => ?_) h₇
  rw [bind_assoc]
  refine h₈.onDisk_bind fun removed cleared => ?_
  rw [bind_assoc, post_bind, post_get, bind_assoc]
  refine h₈.onDisk_bind fun render restored => ?_
  rw [pure_bind, post_bind, post_get]
  exact Upholds.onRepo_bind upholds_snapNow (fun out w₉ h₉ => h₉) h₈

end Commands

/-! ## Runs -/

section Runs

/-- The operation is not a direct snapshot of anything but a stored tree. -/
def Operation.OnTree (s : ObjectStore H) : Operation H → Prop
  | snapChangeDirectly _ newTree _ => s.Holds (Tree H) newTree
  | _ => True

/-- If `L`, then the collection keeps what the log names. -/
def GcOptions.Spares (L : Prop) (opts : GcOptions) : Prop :=
  L → opts.includeOplogSnapshots = true ∨ opts.dryRun = true

/-- The options that a request to collect garbage stands for. -/
def GcReq.options (req : GcReq) : GcOptions := ⟨req.dryRun, !req.ignoreOplog⟩

/-- **A collection of garbage** in which no step fails. -/
theorem World.Complete.collect (h : w.Complete L) (hrel : w.env.Reliable) {opts : GcOptions}
    (hopts : opts.Spares L) : (final (collectGarbage opts) w).Complete L := by
  have hsame := (collectGarbage_collected opts (w := w)).final
  obtain ⟨summary, w', hrun⟩ := collectGarbage_succeeds opts hrel fun a ha =>
    (h.closed.proper a ha).referents.imp fun _ hnext => hnext.1
  have hleft := ((collectGarbage_spec opts).ok hrun).2
  have hfinal : final (collectGarbage opts) w = w' := by rw [final, hrun]
  have hdry : opts.dryRun = true → ∀ x, w'.repo.objects.lookup x = w.repo.objects.lookup x := by
    intro hdry x
    rcases hleft x with hx | hx
    · exact hx.1
    · exact absurd (hdry.symm.trans hx.2.1) (by decide)
  have hkept : ∀ e : RefSnapshot H, e.Grounded L w.repo.objects →
      (L → opts.dryRun = true ∨ ∀ x ∈ e.snapshots, IsRoot opts w.repo x) →
      e.Grounded L w'.repo.objects := by
    intro e he hroots
    cases e with
    | change id v =>
      cases v with
      | none => trivial
      | some c =>
        refine ⟨he.1, fun hL x hx => (he.2 hL x hx).congr ?_⟩
        rcases hroots hL with hd | hroot
        · exact hdry hd x
        · have hroot := hroot x (List.mem_cons_of_mem _ hx)
          rw [hfinal] at hsame
          exact hsame.kept x ⟨x, hroot, .refl⟩
    | head v => trivial
    | workspace id v => trivial
    | bookmark name v => trivial
  rw [hfinal] at hsame ⊢
  refine ⟨?_, fun k => ?_, fun op hop e he => ?_⟩
  · rw [← hfinal]
    exact h.closed.collect hrel opts
  · rw [hsame.refs]
    refine hkept _ (h.refs k) fun _ => .inr fun x hx => .inl ?_
    -- the entry of a change that is there
    cases k with
    | change id =>
      rw [Refs.read] at hx
      cases hc : w.repo.refs.changes.lookup id with
      | none =>
        rw [hc] at hx
        cases hx
      | some c =>
        rw [hc] at hx
        exact ⟨id, c, hc, hx⟩
    | head => cases hx
    | workspace id => cases hx
    | bookmark name => cases hx
  · rw [hsame.oplog] at hop
    refine hkept e (h.log op hop e he) fun hL => ?_
    refine (hopts hL).symm.imp_right fun hlog x hx => .inr ⟨hlog, op, hop, ?_⟩
    exact List.mem_append_right _ (List.mem_flatMap.mpr ⟨e, List.mem_append_left _ he, hx⟩)

variable [LawfulFormat H]

/-- **Every operation** leaves nothing dangling. -/
theorem Operation.upholds (op : Operation H) (hop : op.OnTree w.repo.objects) (hw : w.Complete L) :
    (op.effect w).Complete L := by
  cases op with
  | snapNow ws copy opts => exact (upholds_snapNow.final hw).complete
  | snapChangeDirectly id newTree opts =>
    exact ((upholds_snapChangeDirectly hop).final hw).complete
  | cmdSnap inv copy message => exact (upholds_cmdSnap.final hw).complete
  | cmdChangeNew inv description =>
    exact ((upholds_newChangeHere fun _ _ => ⟨rfl, rfl⟩).final hw).complete
  | cmdDraft inv description =>
    exact ((upholds_newChangeHere fun _ _ => ⟨rfl, rfl⟩).final hw).complete
  | cmdChangeTransition inv idOpt stateStr visStr =>
    exact (upholds_cmdChangeTransition.final hw).complete
  | cmdWtMake disk inv name atPath identity => exact (upholds_cmdWtMake.final hw).complete
  | cmdWtDrop disk inv name keepFiles => exact (upholds_cmdWtDrop.final hw).complete
  | cmdSeal inv path payload => exact (upholds_cmdSeal.final hw).complete
  | createChange srv headers req => exact (upholds_createChange.final hw).complete
  | patchTreePath srv id path headers body =>
    exact ((upholds_editChange (editsStored_writeBlobAtPath path body)).final hw).complete
  | deleteTreePath srv id path headers =>
    exact ((upholds_editChange (editsStored_deleteAtPath path)).final hw).complete
  | snapChange srv id headers req => exact (upholds_snapChange.final hw).complete
  | transitionChange srv id headers req => exact (upholds_transitionChange.final hw).complete

/-- Is this a request to collect garbage that must not fail, and may it drop what it does? -/
def Request.Sparing (L : Prop) (w : World H) : Request → Prop
  | gc body => w.env.Reliable ∧ (body.getD GcReq.default).options.Spares L
  | _ => True

/-- **Every request** leaves nothing dangling. -/
theorem Request.upholds {srv : Server} {rd : Reader} {headers : HeaderMap} (req : Request)
    (hreq : req.Sparing L w) (hw : w.Complete L) : (req.effect srv rd headers w).Complete L := by
  have hreads : ∀ {α : Type} {x : ApiM H α}, ReadOnly x → (final x w).Complete L :=
    fun hx => ((Upholds.of_reads hx).final hw).complete
  cases req with
  | listChanges => exact hreads Handlers.reads_listChanges
  | createChange req => exact (upholds_createChange.final hw).complete
  | getChange id => exact hreads Handlers.reads_getChange
  | getTreeRoot id => exact hreads Handlers.reads_getTreeRoot
  | getTreePath id path => exact hreads Handlers.reads_getTreePath
  | patchTreePath id path body =>
    exact ((upholds_editChange (editsStored_writeBlobAtPath path body)).final hw).complete
  | deleteTreePath id path =>
    exact ((upholds_editChange (editsStored_deleteAtPath path)).final hw).complete
  | snapChange id req => exact (upholds_snapChange.final hw).complete
  | diffChange id q => exact (Handlers.upholds_diffChange.final hw).complete
  | blamePath id path q => exact hreads Handlers.reads_blamePath
  | grepChange id q => exact hreads Handlers.reads_grepChange
  | transitionChange id req => exact (upholds_transitionChange.final hw).complete
  | getSnapshot hash => exact hreads Handlers.reads_getSnapshot
  | listOplog limit => exact hreads Handlers.reads_listOplog
  | undo req => exact (upholds_undo.final hw).complete
  | gc body =>
    have hpost : Post (Handlers.gc srv headers body) w (fun _ w' => w'.Complete L)
        (fun _ w' => w'.Complete L) := by
      have hcaller : ReadOnly (Handlers.gcCaller srv headers : ApiM H _) := by
        rw [Handlers.gcCaller]
        split
        · exact .throw _
        · exact reads_callerFrom
      rw [Handlers.gc, post_bind]
      refine (hcaller w).mono (fun _ w₁ h₁ => ?_) (fun _ w₁ h₁ => hw.congr h₁.1)
      rw [post_bind]
      refine (ReadOnly.adaptExcept .step _ w₁).mono (fun _ w₂ h₂ => ?_)
        (fun _ w₂ h₂ => hw.congr (h₂.1.trans h₁.1))
      have hw₂ : w₂.Complete L := hw.congr (h₂.1.trans h₁.1)
      have hrel : w₂.env.Reliable := by
        rw [h₂.2, h₁.2]
        exact hreq.1
      rw [post_bind, post_adaptExcept]
      exact .of_final (hw₂.collect hrel hreq.2)
    exact hpost.final

/-- The repositories that are reached from an empty one by operations, undos, requests, restores and
collections of garbage, in any order, each in a process of its own: only the repository is left of the
one before. Any step may fail, but for those of a collection. If `L`, then no collection drops what only
the log names. -/
inductive Served (L : Prop) : World H → Prop
  | start (w : World H) (hrepo : w.repo = Repo.empty) : Served L w
  | operation {w w₁ : World H} (h : Served L w) (hrepo : w₁.repo = w.repo) (op : Operation H)
      (hop : op.OnTree w₁.repo.objects) : Served L (op.effect w₁)
  | undo {w w₁ : World H} (h : Served L w) (hrepo : w₁.repo = w.repo) (actor : PrincipalId) :
      Served L (final (undoOnce actor) w₁)
  | request {w w₁ : World H} (h : Served L w) (hrepo : w₁.repo = w.repo) (srv : Server) (rd : Reader)
      (headers : HeaderMap) (req : Request) (hreq : req.Sparing L w₁) :
      Served L (req.effect srv rd headers w₁)
  | restore {w : World H} {σ : Site H} (h : Served L w) (hrepo : σ.world.repo = w.repo)
      (special : Node → Option Error) (stackDepth : Nat) (inv : Invocation)
      (resolve : ObjectStore H → String → Except Error H) (snapPrefix : String) (force : Bool)
      (identity : Except Error (Option UnsealFn)) :
      Served L (final (cmdRestore special stackDepth inv resolve snapPrefix force identity) σ).world
  | gc {w w₁ : World H} (h : Served L w) (hrepo : w₁.repo = w.repo) (opts : GcOptions)
      (hrel : w₁.env.Reliable) (hopts : opts.Spares L) : Served L (final (collectGarbage opts) w₁)

/-- **Nothing dangles** in any repository that commands and requests work on. -/
theorem Served.complete (h : Served L w) : w.Complete L := by
  induction h with
  | start w hrepo =>
    refine ⟨hrepo ▸ .empty, fun k => ?_, fun op hop => ?_⟩
    · rw [hrepo]
      cases k with
      | change id => trivial
      | head => trivial
      | workspace id => trivial
      | bookmark name => trivial
    · rw [hrepo] at hop
      exact absurd hop List.not_mem_nil
  | operation _ hrepo op hop ih => exact op.upholds hop (ih.congr hrepo)
  | undo _ hrepo actor ih => exact (upholds_undoOnce.final (ih.congr hrepo)).complete
  | request _ hrepo srv rd headers req hreq ih => exact req.upholds hreq (ih.congr hrepo)
  | restore _ hrepo special stackDepth inv resolve snapPrefix force identity ih =>
    exact complete_cmdRestore (ih.congr hrepo)
  | gc _ hrepo opts hrel hopts ih => exact (ih.congr hrepo).collect hrel hopts

end Runs

end Tig
