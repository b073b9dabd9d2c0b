import Tig.Fs.Diff
import Tig.Fs.Materialize
import Tig.Fs.Operations
import Tig.Store.Gc
import Tig.Store.History
import Tig.Store.Undo

set_option relaxedAutoImplicit false
set_option autoImplicit false

/-!
# The commands that change a repository

Each command finds its workspace, takes the write lock, opens the log for itself, does its work
and appends one record. The user who runs it and the directory it is run in are parameters, and
so is what the command sees of the disk outside the repository.

## Main definitions

* `Tig.cmdSnap`, `Tig.cmdChangeNew`, `Tig.cmdDraft`, `Tig.cmdChangeTransition`, `Tig.cmdWtMake`,
  `Tig.cmdWtDrop`, `Tig.cmdUndo`, `Tig.cmdSeal`, `Tig.cmdGc` — the commands.

## Main results

* `Tig.cmdChangeNew_outcome`, … — each command writes refs only together with a record of it.
-/

namespace Tig

open Program

variable {H : Type} [LinearOrder H] [Format H]

/-- What a command sees of the disk outside the repository: which paths exist, what they resolve
to, and how deep a recursion can go. -/
structure Disk where
  present : String → Bool
  canonicalize : String → Option String
  stackDepth : Nat

/-- A function that decrypts a sealed object under associated data. -/
abbrev UnsealFn := Sealed → Bytes → Except String Bytes

/-- The user and the directory a command is run by and in. -/
structure Invocation where
  principal : PrincipalId
  repoWorkdir : String
  place : Place

/-! ## Snapshots and new changes -/

/-- `tig snap`. -/
def cmdSnap (inv : Invocation) (copy : WorkingCopy) (message : Option String) :
    RepoM H (SnapOutcome H) := do
  let ws ← discoverWorkspace inv.repoWorkdir inv.place
  lockForWrite
  openLog
  snapNow ws copy { SnapOptions.default with author := inv.principal, message := message }

/-- The snapshot a new change starts at: that of the current change, or an empty one. -/
def startingSnapshot (ws : Workspace) (author : PrincipalId) : RepoM H H := do
  match ← ws.currentChangeId with
  | some id => do
    let c ← getChange id
    return c.1.current
  | none => emptySnapshot author

/-- Write a new change, check it out, and record that. -/
def recordNewChange (ws : Workspace) (actor : PrincipalId) (change : Change H)
    (description : String) : RepoM H (Change H) := do
  let workspaceRefBefore ← workspaceRefSnapshot ws
  putChange change
  let _ ← ws.setCurrentChangeId change.id
  let workspaceRefAfter ← workspaceRefSnapshot ws
  let _ ← appendOp ⟨actor, .changeNew change.id description,
    [workspaceRefBefore, .change change.id none], [workspaceRefAfter, .ofChange change]⟩
  return change

/-- Start a new change here, made by `mk` out of an id and a snapshot. -/
def newChangeHere (inv : Invocation) (mk : ChangeId → H → Change H) (description : String) :
    RepoM H (Change H) := do
  let ws ← discoverWorkspace inv.repoWorkdir inv.place
  lockForWrite
  openLog
  let current ← startingSnapshot ws inv.principal
  let id ← newUlid
  recordNewChange ws inv.principal (mk id current) description

/-- `tig change new`. -/
def cmdChangeNew (inv : Invocation) (description : String) : RepoM H (Change H) :=
  newChangeHere inv (fun id current => Change.new id description inv.principal current) description

/-- `tig draft`. -/
def cmdDraft (inv : Invocation) (description : String) : RepoM H (Change H) :=
  newChangeHere inv (fun id current => Change.newPrivateDraft id description inv.principal current)
    description

/-! ## Transitions -/

/-- The state named by an argument. -/
def parseStateStr (s : String) : Except Error ChangeState :=
  match ChangeState.ofName (toLowercase s) with
  | some state => .ok state
  | none => .error (.cli ("unknown state " ++ debugStr (toLowercase s)))

/-- The visibility named by an argument. -/
def parseVisStr (s : String) : Except Error VisLabel :=
  match VisLabel.ofName s with
  | some vis => .ok vis
  | none => .error (.cli ("unknown visibility " ++ debugStr s))

/-- The change a command is about: the one given, or the current one. -/
def changeArgument (ws : Workspace) (idOpt : Option String) : RepoM H ChangeId :=
  match idOpt with
  | some s => return s
  | none => do
    match ← ws.currentChangeId with
    | some id => return id
    | none => throw (.cli "no current change and no --id given")

/-- `tig change publish` and its like. -/
def cmdChangeTransition (inv : Invocation) (idOpt stateStr visStr : Option String) :
    RepoM H (Change H) := do
  let ws ← discoverWorkspace inv.repoWorkdir inv.place
  lockForWrite
  let id ← changeArgument ws idOpt
  let before ← getChange id
  let state ← fromExcept (parseOr parseStateStr stateStr before.1.state)
  let visibility ← fromExcept (parseOr parseVisStr visStr before.1.visibility)
  let change := { before.1 with state := state, visibility := visibility }
  putChange change
  openLog
  let _ ← appendOp (transitionOp inv.principal before.1 change)
  return change

/-! ## Workspaces -/

/-- May a workspace have this name? -/
def isValidWorkspaceName (name : String) : Bool :=
  name ≠ "" ∧ '/' ∉ name.toList ∧ '\x00' ∉ name.toList ∧ name ≠ "." ∧ name ≠ ".."

/-- A directory to clone the new workspace from. -/
def pickDonor (disk : Disk) (source : Workspace) (targetChange : ChangeId) :
    RepoM H (Option String) := do
  let current ← source.currentChangeId
  if current = some targetChange then
    return some source.workdir
  else
    openWorkspaces
    let manifests ← listWorkspaces
    match manifests.find? fun m => m.changeId = targetChange ∧ disk.present m.location with
    | some m => return some m.location
    | none => do
      match source.kind with
      | .main => return none
      | .secondary _ => do
        let h ← head
        return if h = some targetChange then some source.repoWorkdir else none

/-- With an identity the objects are rendered; without one a donor is looked for. -/
def chooseDonor (disk : Disk) (source : Workspace) (targetChange : ChangeId)
    (unsealer : Option UnsealFn) : RepoM H (Option String) :=
  if unsealer.isSome then return none else pickDonor disk source targetChange

/-- Put the files of the new workspace into `dest`. -/
def placeFiles (disk : Disk) (source : Workspace) (sourceChange : ChangeId) (dest : String)
    (unsealer : Option UnsealFn) : RepoM H Unit := do
  let donor ← chooseDonor disk source sourceChange unsealer
  -- the directories above `dest`
  step .workdirRead
  match donor with
  | some _ => step .workdirRead
  | none => do
    let change ← getChange sourceChange
    step .objectRead
    let w ← get
    match materializeChangeInto w.repo.objects ⟨unsealer, .error⟩ dest disk.stackDepth
        (disk.present dest) change.1.current ⟨[], ⟨0, 0, 0, 0⟩⟩ with
    | .ok _ _ => return ()
    | .error e _ => throw e

/-- The change that a new workspace is made for. -/
def sourceChangeOf (source : Workspace) : RepoM H ChangeId := do
  match ← source.currentChangeId with
  | some id => return id
  | none => throw (.cli "nothing checked out here yet — try `tig snap` first")

/-- Where a new workspace goes. -/
def workspaceDest (source : Workspace) (name : String) (atPath : Option String) : String :=
  atPath.getD (source.workdir ++ "/" ++ DEFAULT_WORKTREE_DIR ++ "/" ++ name)

/-- `tig wt make`. `identity` is what looking up the given identity comes to. -/
def cmdWtMake (disk : Disk) (inv : Invocation) (name : String) (atPath : Option String)
    (identity : Except Error (Option UnsealFn)) : RepoM H WorkspaceManifest := do
  if isValidWorkspaceName name = false then
    throw (.cli ("invalid workspace name: " ++ debugStr name ++ " (no '/', '..', or empty)"))
  else
    let source ← discoverWorkspace inv.repoWorkdir inv.place
    lockForWrite
    let sourceChange ← sourceChangeOf source
    let dest := workspaceDest source name atPath
    if disk.present dest then
      throw (.cli ("destination already exists: " ++ dest))
    else
      step .registryRead
      let unsealer ← fromExcept identity
      placeFiles disk source sourceChange dest unsealer
      let id ← newUlid
      let now ← currentTimestampNs
      let manifest : WorkspaceManifest :=
        ⟨id, name, (disk.canonicalize dest).getD dest, sourceChange, now⟩
      openWorkspaces
      putWorkspace manifest
      -- the marker in the new directory
      step .workdirRead
      openLog
      let _ ← appendOp ⟨inv.principal, .wtMake manifest.id manifest.name,
        [.workspace manifest.id none], [.ofManifest manifest]⟩
      return manifest

/-- The first manifest of a workspace with the given name. -/
def findByName (name : String) : RepoM H (Option WorkspaceManifest) := do
  let manifests ← listWorkspaces
  return manifests.find? fun m => m.name = name

/-- Remove the files of a workspace, if they are to go and are there. -/
def removeFiles (disk : Disk) (location : String) (keepFiles : Bool) : RepoM H Unit :=
  if !keepFiles && disk.present location then step .workdirRead else return ()

/-- `tig wt drop`. -/
def cmdWtDrop (disk : Disk) (inv : Invocation) (name : String) (keepFiles : Bool) :
    RepoM H WorkspaceManifest := do
  let ws ← discoverWorkspace inv.repoWorkdir inv.place
  lockForWrite
  openWorkspaces
  match ← findByName name with
  | none => throw (.cli ("no workspace named " ++ debugStr name))
  | some target =>
    if ws.workspaceId = some target.id then
      throw (.cli "refusing to drop the workspace you're currently in")
    else
      removeFiles disk target.location keepFiles
      deleteWorkspace target.id
      openLog
      let _ ← appendOp ⟨inv.principal, .wtDrop target.id target.name,
        [.ofManifest target], [.workspace target.id none]⟩
      return target

/-! ## The other commands -/

/-- `tig undo`. -/
def cmdUndo (inv : Invocation) : RepoM H (Option (UndoOutcome H)) := do
  let _ ← discoverWorkspace inv.repoWorkdir inv.place
  lockForWrite
  openLog
  undoOnce inv.principal

/-- The change that is sealed into. -/
def sealTarget (ws : Workspace) : RepoM H ChangeId := do
  match ← ws.currentChangeId with
  | some id => return id
  | none => throw (.cli "no current change — run `tig snap` first")

/-- `tig seal`. `sealed` is what encrypting to the recipients comes to. -/
def cmdSeal (inv : Invocation) (path : String) (sealed : Except Error Sealed) :
    RepoM H (SnapOutcome H) := do
  let ws ← discoverWorkspace inv.repoWorkdir inv.place
  lockForWrite
  step .registryRead
  let payload ← fromExcept sealed
  let currentChangeId ← sealTarget ws
  let change ← getChange currentChangeId
  let snap : Snapshot H ← loadObject change.1.current
  let newTree ← writeSealedAtPath snap.tree path payload
  openLog
  snapChangeDirectly currentChangeId newTree
    { SnapOptions.default with author := inv.principal, message := some ("seal " ++ path) }

/-- `tig gc`. -/
def cmdGc (inv : Invocation) (dryRun ignoreOplog : Bool) : RepoM H GcSummary := do
  let _ ← discoverWorkspace inv.repoWorkdir inv.place
  lockForWrite
  openLog
  collectGarbage ⟨dryRun, !ignoreOplog⟩

variable {w : World H}

/-- A new change starts at a stored snapshot. -/
theorem keeps_startingSnapshot {ws : Workspace} {author : PrincipalId} :
    Keeps (startingSnapshot ws author) w fun h w' =>
      ∀ [LawfulFormat H], w.repo.objects.Intact → RefsOk w.repo.objects w.repo.refs →
        ∃ n, Lineage w'.repo.objects h n := by
  refine Keeps.bind keeps_currentChangeId fun cur w₁ hk₁ _ => ?_
  cases cur with
  | none =>
    exact Post.mono keeps_emptySnapshot
      (fun h w₂ hs => ⟨hs.1, fun hi _ => ⟨0, hs.2 (hk₁.intact hi)⟩⟩) (fun _ _ hk => hk)
  | some id =>
    refine Keeps.bind keeps_getChange fun c w₂ hk₂ hc => Keeps.pure fun hi hr => ?_
    rw [hk₁.refs] at hc
    have hok := (hr.changes id c hc).mono (hk₁.trans hk₂).le
    exact hok.lineage _ hok.current_mem

/-- Creating a change under a new id and checking it out is recorded. -/
theorem recordNewChange_outcome {w₁ : World H} (hw : w.Steady) (hk : w.Kept w₁) {ws : Workspace}
    (hws : ws.UpToDate w.repo.refs) (actor : PrincipalId) {change : Change H}
    (description : String) (hnew : change.id ∉ w.repo.refs.changes)
    (hid : ∃ n < w₁.ids, change.id = w.env.ulid n)
    (hsound : ∀ [LawfulFormat H], w.repo.objects.Intact → RefsOk w.repo.objects w.repo.refs →
      HistoryOk w₁.repo.objects change) :
    Post (recordNewChange ws actor change description) w₁ (fun _ w' => w.Outcome w')
      (fun _ w' => w.Outcome w') := by
  refine outcome_bind hk keeps_workspaceRefSnapshot fun before w₂ hk₂ hkw hbefore => ?_
  have hrel : w₂.env.Reliable := (hw.kept hkw).reliable
  obtain ⟨n, hn, hid⟩ := hid
  rw [post_bind, putChange]
  refine writeRef_spec (.refl w₂) (fun w₃ hwrote₃ => ?_)
    (fun e w₃ hfail _ => absurd (hfail []) hrel.not_failed)
  rw [post_bind]
  refine setCurrentChangeId_spec hrel hwrote₃ fun ws' w₄ hwrote₄ _ => ?_
  rw [post_bind]
  refine workspaceRefSnapshot_spec (fun w₅ hs₅ hr₅ => ?_)
    (fun e w₅ _ _ hf => absurd hf (by rw [hwrote₄.env]; exact hrel.not_fault e))
  have hwrote₅ := hwrote₄.read hs₅ hr₅
  have hrefs : w₅.repo.refs = (w.repo.refs.write (.ofChange change)).write (ws.entry change.id) := by
    rw [hwrote₅.refs, hkw.refs]
    rfl
  have hne : RefKey.change change.id ≠ (ws.entry change.id : RefSnapshot H).key := by
    rw [Workspace.key_entry]
    rcases ws with ⟨_ | m, dir⟩ <;> exact RefKey.noConfusion
  have henv : w₅.env = w.env := hwrote₅.env.trans hkw.env
  have hbelow : IdsBelow w.env w₅.ids w.repo.refs :=
    hw.ids.mono (hkw.idsLe.trans hwrote₅.ids)
  have hids : IdsBelow w.env w₅.ids (w.repo.refs.write (.ofChange change)) :=
    hbelow.writeChange ⟨n, hn.trans_le (hk₂.idsLe.trans hwrote₅.ids), hid⟩
  have hmem : change.id ∈ (w.repo.refs.write (.ofChange change)).changes :=
    mem_write_change.mpr (Or.inl rfl)
  rw [post_bind]
  refine appendOp_outcome hw hkw hwrote₅ rfl [ws.key, .change change.id] (by simp) (fun e he => ?_)
    ⟨_, List.mem_cons_of_mem _ List.mem_cons_self⟩ ?_ ?_ ?_ fun hi hr => ?_
  · rcases List.mem_cons.mp he with rfl | he
    · exact List.mem_cons_of_mem _ List.mem_cons_self
    · obtain rfl := List.mem_singleton.mp he
      rw [Workspace.key_entry]
      exact List.mem_cons_self
  · rw [hbefore, hk.refs, List.map_cons, List.map_singleton, Refs.read,
      Finmap.lookup_eq_none.mpr hnew]
  · rw [← hr₅, List.map_cons, List.map_singleton]
    refine congrArg (fun e => [_, e]) ?_
    rw [hrefs, Refs.read_write_of_ne _ _ _ hne, read_write_change rfl]
  · rw [hrefs, henv]
    obtain ⟨_ | m, dir⟩ := ws
    · exact hids.writeHead
    · exact hids.writeManifest (hbelow.workspaces m.id (Finmap.mem_of_lookup_eq_some hws))
  · rw [hrefs]
    have hok := (hr.mono hkw.le).writeChange ((hsound hi hr).mono hk₂.le)
    obtain ⟨_ | m, dir⟩ := ws
    · exact hok.writeHead hmem
    · exact hok.writeManifest hmem

theorem cmdSnap_outcome (hw : w.Steady) (inv : Invocation) (copy : WorkingCopy)
    (message : Option String) :
    Post (cmdSnap inv copy message) w (fun _ w' => w.Outcome w') (fun _ w' => w.Outcome w') := by
  have hk := World.Quiet.kept (.refl w)
  refine outcome_bind hk keeps_discoverWorkspace fun ws w₁ _ hk₁ _ => ?_
  refine outcome_bind hk₁ keeps_lockForWrite fun _ w₂ _ hk₂ _ => ?_
  refine outcome_bind hk₂ keeps_openLog fun _ w₃ _ hk₃ _ => ?_
  exact outcome_of_kept hk₃ (snapNow_outcome (hw.kept hk₃) ws copy _)

theorem newChangeHere_outcome (hw : w.Steady) (inv : Invocation) {mk : ChangeId → H → Change H}
    (description : String) (hid : ∀ id h, (mk id h).id = id)
    (hmk : ∀ id h, (mk id h).history = [h] ∧ (mk id h).current = h) :
    Post (newChangeHere inv mk description) w (fun _ w' => w.Outcome w')
      (fun _ w' => w.Outcome w') := by
  have hk := World.Quiet.kept (.refl w)
  refine outcome_bind hk keeps_discoverWorkspace fun ws w₁ _ hk₁ hws => ?_
  refine outcome_bind hk₁ keeps_lockForWrite fun _ w₂ _ hk₂ _ => ?_
  refine outcome_bind hk₂ keeps_openLog fun _ w₃ _ hk₃ _ => ?_
  refine outcome_bind hk₃ keeps_startingSnapshot fun h w₄ _ hk₄ hh => ?_
  refine outcome_bind hk₄ keeps_newUlid fun id w₅ hk₅ hkw hnew => ?_
  obtain ⟨rfl, hids⟩ := hnew
  have hfresh := hw.ids.not_mem hw.fresh hk₄.idsLe
  refine recordNewChange_outcome hw hkw hws inv.principal description ?_ ⟨w₄.ids, ?_, ?_⟩ ?_
  · rw [hid, hk₄.env]
    exact hfresh.1
  · omega
  · rw [hid, hk₄.env]
  · intro _ hi hr
    obtain ⟨n, hl⟩ := hh (hk₃.intact hi) (by rw [hk₃.refs]; exact hr.mono hk₃.le)
    exact .start (hl.mono hk₅.le) (hmk _ h).1 (hmk _ h).2

theorem cmdChangeNew_outcome (hw : w.Steady) (inv : Invocation) (description : String) :
    Post (cmdChangeNew inv description) w (fun _ w' => w.Outcome w') (fun _ w' => w.Outcome w') :=
  newChangeHere_outcome hw inv description (fun _ _ => rfl) (fun _ _ => ⟨rfl, rfl⟩)

theorem cmdDraft_outcome (hw : w.Steady) (inv : Invocation) (description : String) :
    Post (cmdDraft inv description) w (fun _ w' => w.Outcome w') (fun _ w' => w.Outcome w') :=
  newChangeHere_outcome hw inv description (fun _ _ => rfl) (fun _ _ => ⟨rfl, rfl⟩)

theorem keeps_changeArgument {ws : Workspace} {idOpt : Option String} :
    Keeps (changeArgument ws idOpt) w fun _ _ => True := by
  cases idOpt with
  | some s => exact Keeps.pure trivial
  | none =>
    refine Keeps.bind keeps_currentChangeId fun cur w₁ _ _ => ?_
    cases cur with
    | some id => exact Keeps.pure trivial
    | none => exact Keeps.throw

theorem cmdChangeTransition_outcome (hw : w.Steady) (inv : Invocation)
    (idOpt stateStr visStr : Option String) :
    Post (cmdChangeTransition inv idOpt stateStr visStr) w (fun _ w' => w.Outcome w')
      (fun _ w' => w.Outcome w') := by
  have hk := World.Quiet.kept (.refl w)
  refine outcome_bind hk keeps_discoverWorkspace fun ws w₁ _ hk₁ _ => ?_
  refine outcome_bind hk₁ keeps_lockForWrite fun _ w₂ _ hk₂ _ => ?_
  refine outcome_bind hk₂ keeps_changeArgument fun id w₃ _ hk₃ _ => ?_
  refine outcome_bind hk₃ keeps_getChange fun before w₄ _ hk₄ hc => ?_
  rw [hk₃.refs] at hc
  refine outcome_bind hk₄ (Keeps.fromExcept (P := fun _ _ => True) fun _ _ => trivial)
    fun state w₅ _ hk₅ _ => ?_
  refine outcome_bind hk₅ (Keeps.fromExcept (P := fun _ _ => True) fun _ _ => trivial)
    fun visibility w₆ _ hk₆ _ => ?_
  have hrel : w₆.env.Reliable := (hw.kept hk₆).reliable
  rw [post_bind, putChange]
  refine writeRef_spec (.refl w₆) (fun w₇ hwrote₇ => ?_)
    (fun e w₇ hfail _ => absurd (hfail []) hrel.not_failed)
  rw [post_bind]
  refine openLog_spec (fun w₈ hs₈ hr₈ => ?_)
    (fun e w₈ _ _ hf => absurd hf (by rw [hwrote₇.env]; exact hrel.not_fault e))
  rw [post_bind]
  exact transitionOp_outcome hw hk₆ ((hwrote₇.read hs₈ hr₈).openLog _) hc before.2 rfl rfl

/-! ### Workspaces -/

theorem keeps_openWorkspaces : Keeps (openWorkspaces : RepoM H Unit) w fun _ _ => True :=
  keeps_step (by simp [FsStep.Mutates])

theorem keeps_workdirStep : Keeps (step .workdirRead : RepoM H Unit) w fun _ _ => True :=
  keeps_step (by simp [FsStep.Mutates])

theorem keeps_listWorkspaces : Keeps (listWorkspaces : RepoM H (List WorkspaceManifest)) w
    fun ms _ => ∀ m ∈ ms, w.repo.refs.workspaces.lookup m.id = some ⟨m, rfl⟩ :=
  listWorkspaces_spec (fun _ _ hs hr hm => ⟨(World.Quiet.of_repo hs hr).kept, hm⟩)
    (fun _ _ hs hr _ => (World.Quiet.of_repo hs hr).kept)

theorem keeps_chooseDonor {disk : Disk} {source : Workspace} {target : ChangeId}
    {unsealer : Option UnsealFn} :
    Keeps (chooseDonor disk source target unsealer) w fun _ _ => True := by
  rw [chooseDonor]
  split
  · exact Keeps.pure trivial
  · refine Keeps.bind keeps_currentChangeId fun cur w₁ _ _ => ?_
    split
    · exact Keeps.pure trivial
    · refine Keeps.bind keeps_openWorkspaces fun _ w₂ _ _ => ?_
      refine Keeps.bind keeps_listWorkspaces fun ms w₃ _ _ => ?_
      split
      · exact Keeps.pure trivial
      · split
        · exact Keeps.pure trivial
        · refine Keeps.bind (P := fun _ _ => True) ?_ fun h w₄ _ _ => Keeps.pure trivial
          exact head_spec (fun _ hs hr => ⟨(World.Quiet.of_repo hs hr).kept, trivial⟩)
            (fun _ _ hs hr _ => (World.Quiet.of_repo hs hr).kept)

theorem keeps_placeFiles {disk : Disk} {source : Workspace} {target : ChangeId} {dest : String}
    {unsealer : Option UnsealFn} :
    Keeps (placeFiles disk source target dest unsealer) w fun _ _ => True := by
  refine Keeps.bind keeps_chooseDonor fun donor w₁ _ _ => ?_
  refine Keeps.bind keeps_workdirStep fun _ w₂ _ _ => ?_
  cases donor with
  | some path => exact keeps_workdirStep
  | none =>
    refine Keeps.bind keeps_getChange fun change w₃ _ _ => ?_
    refine Keeps.bind (keeps_step (by simp [FsStep.Mutates])) fun _ w₄ _ _ => ?_
    refine Keeps.bind (P := fun _ _ => True) ⟨World.Quiet.kept (.refl w₄), trivial⟩
      fun v w₅ _ _ => ?_
    split
    · exact Keeps.pure trivial
    · exact Keeps.throw

/-- In well-formed refs the change a workspace is made for is there. -/
theorem keeps_sourceChangeOf {ws : Workspace} (hws : ws.UpToDate w.repo.refs) :
    Keeps (sourceChangeOf ws) w fun id _ =>
      RefsOk w.repo.objects w.repo.refs → id ∈ w.repo.refs.changes := by
  refine Keeps.bind keeps_currentChangeId fun cur w₁ _ hcur => ?_
  subst hcur
  cases hid : ws.current w.repo.refs with
  | some id => exact Keeps.pure fun hr => hws.current_mem hr hid
  | none => exact Keeps.throw

/-- Registering a new workspace is recorded. -/
theorem registerWorkspace_outcome {w₁ w₂ : World H} (hw : w.Steady) (hk : w.Kept w₁)
    {actor : PrincipalId} {m : WorkspaceManifest} {log : FileLog}
    (hwrote : w₁.Wrote w₂ [.ofManifest m] log) (hnew : m.id ∉ w.repo.refs.workspaces)
    (hid : ∃ n < w₂.ids, m.id = w.env.ulid n)
    (hm : ∀ [LawfulFormat H], RefsOk w.repo.objects w.repo.refs →
      m.changeId ∈ w.repo.refs.changes) :
    Post (appendOp ⟨actor, .wtMake m.id m.name, [.workspace m.id none], [.ofManifest m]⟩) w₂
      (fun _ w' => w.Outcome w') (fun _ w' => w.Outcome w') := by
  have hrefs : w₂.repo.refs = w.repo.refs.write (.ofManifest m) := by
    rw [hwrote.refs, hk.refs]
    rfl
  refine appendOp_outcome hw hk hwrote rfl [.workspace m.id] (by simp) (fun e he => ?_) trivial
    ?_ ?_ ?_ fun hi hr => ?_
  · obtain rfl := List.mem_singleton.mp he
    exact List.mem_cons_self
  · rw [List.map_singleton, Refs.read, Finmap.lookup_eq_none.mpr hnew]
  · rw [List.map_singleton, hrefs]
    exact congrArg (fun e => [e]) (Refs.read_write w.repo.refs (.ofManifest m)).symm
  · rw [hrefs, hwrote.env, hk.env]
    exact (hw.ids.mono (hk.idsLe.trans hwrote.ids)).writeManifest hid
  · rw [hrefs]
    exact (hr.mono hk.le).writeManifest (hm hr)

theorem cmdWtMake_outcome (hw : w.Steady) (disk : Disk) (inv : Invocation) (name : String)
    (atPath : Option String) (identity : Except Error (Option UnsealFn)) :
    Post (cmdWtMake disk inv name atPath identity) w (fun _ w' => w.Outcome w')
      (fun _ w' => w.Outcome w') := by
  have hk := World.Quiet.kept (.refl w)
  rw [cmdWtMake, post_ite]
  refine ⟨fun _ => hk.outcome, fun _ => ?_⟩
  refine outcome_bind hk keeps_discoverWorkspace fun source w₁ _ hk₁ hws => ?_
  refine outcome_bind hk₁ keeps_lockForWrite fun _ w₂ _ hk₂ _ => ?_
  rw [← hk₂.refs] at hws
  refine outcome_bind hk₂ (keeps_sourceChangeOf hws) fun sourceChange w₃ _ hk₃ hsource => ?_
  rw [post_ite]
  refine ⟨fun _ => hk₃.outcome, fun _ => ?_⟩
  refine outcome_bind hk₃ (keeps_step (k := .registryRead) (by simp [FsStep.Mutates]))
    fun _ w₄ _ hk₄ _ => ?_
  refine outcome_bind hk₄ (Keeps.fromExcept (P := fun _ _ => True) fun _ _ => trivial)
    fun unsealer w₅ _ hk₅ _ => ?_
  refine outcome_bind hk₅ keeps_placeFiles fun _ w₆ _ hk₆ _ => ?_
  refine outcome_bind hk₆ keeps_newUlid fun id w₇ _ hk₇ hid => ?_
  refine outcome_bind hk₇ keeps_currentTimestampNs fun now w₈ hk₇₈ hk₈ _ => ?_
  refine outcome_bind hk₈ keeps_openWorkspaces fun _ w₉ hk₈₉ hk₉ _ => ?_
  have hrel : w₉.env.Reliable := (hw.kept hk₉).reliable
  rw [post_bind, putWorkspace]
  refine writeRef_spec (.refl w₉) (fun w₁₀ hwrote₁₀ => ?_)
    (fun e w₁₀ hfail _ => absurd (hfail []) hrel.not_failed)
  rw [post_bind]
  refine step_spec (by simp [FsStep.Mutates]) (fun w₁₁ hs₁₁ hr₁₁ => ?_)
    (fun e w₁₁ _ _ hf => absurd hf (by rw [hwrote₁₀.env]; exact hrel.not_fault e))
  have hwrote₁₁ := hwrote₁₀.read hs₁₁ hr₁₁
  rw [post_bind]
  refine openLog_spec (fun w₁₂ hs₁₂ hr₁₂ => ?_)
    (fun e w₁₂ _ _ hf => absurd hf (by rw [hwrote₁₁.env]; exact hrel.not_fault e))
  have hwrote₁₂ := (hwrote₁₁.read hs₁₂ hr₁₂).openLog ⟨computeNextId w₁₁.repo.oplog⟩
  obtain ⟨rfl, hids⟩ := hid
  have hlt : w₆.ids < w₁₂.ids := by
    have h := (hk₇₈.idsLe.trans hk₈₉.idsLe).trans hwrote₁₂.ids
    exact lt_of_lt_of_le (by omega : w₆.ids < w₇.ids) h
  rw [post_bind]
  refine registerWorkspace_outcome hw hk₉ hwrote₁₂ ?_ ⟨w₆.ids, hlt, ?_⟩ fun hr => ?_
  · rw [hk₆.env]
    exact (hw.ids.not_mem hw.fresh hk₆.idsLe).2
  · rw [hk₆.env]
  · have hmem := hsource (by rw [hk₂.refs]; exact hr.mono hk₂.le)
    rwa [hk₂.refs] at hmem

theorem keeps_findByName {name : String} : Keeps (findByName name : RepoM H _) w
    fun m _ => ∀ target, m = some target →
      w.repo.refs.workspaces.lookup target.id = some ⟨target, rfl⟩ :=
  Keeps.bind keeps_listWorkspaces fun _ _ _ hms =>
    Keeps.pure fun target ht => hms target (List.mem_of_find?_eq_some ht)

theorem cmdWtDrop_outcome (hw : w.Steady) (disk : Disk) (inv : Invocation) (name : String)
    (keepFiles : Bool) :
    Post (cmdWtDrop disk inv name keepFiles) w (fun _ w' => w.Outcome w')
      (fun _ w' => w.Outcome w') := by
  have hk := World.Quiet.kept (.refl w)
  refine outcome_bind hk keeps_discoverWorkspace fun ws w₁ _ hk₁ _ => ?_
  refine outcome_bind hk₁ keeps_lockForWrite fun _ w₂ _ hk₂ _ => ?_
  refine outcome_bind hk₂ keeps_openWorkspaces fun _ w₃ _ hk₃ _ => ?_
  refine outcome_bind hk₃ keeps_findByName fun found w₄ _ hk₄ hfound => ?_
  cases found with
  | none => exact hk₄.outcome
  | some target =>
    have htarget := hfound target rfl
    rw [hk₃.refs] at htarget
    dsimp only
    rw [post_ite]
    refine ⟨fun _ => hk₄.outcome, fun _ => ?_⟩
    refine outcome_bind hk₄ (P := fun _ _ => True) ?_ fun _ w₅ _ hk₅ _ => ?_
    · rw [removeFiles]
      split
      · exact keeps_workdirStep
      · exact Keeps.pure trivial
    have hrel : w₅.env.Reliable := (hw.kept hk₅).reliable
    rw [post_bind, post_deleteWorkspace
      (by rw [hk₅.refs]; exact Finmap.mem_of_lookup_eq_some htarget)]
    refine writeRef_spec (.refl w₅) (fun w₆ hwrote₆ => ?_)
      (fun e w₆ hfail _ => absurd (hfail []) hrel.not_failed)
    rw [post_bind]
    refine openLog_spec (fun w₇ hs₇ hr₇ => ?_)
      (fun e w₇ _ _ hf => absurd hf (by rw [hwrote₆.env]; exact hrel.not_fault e))
    have hwrote₇ := (hwrote₆.read hs₇ hr₇).openLog ⟨computeNextId w₆.repo.oplog⟩
    have hrefs : w₇.repo.refs = w.repo.refs.write (.workspace target.id none) := by
      rw [hr₇, hwrote₆.refs, hk₅.refs]
      rfl
    rw [post_bind]
    refine appendOp_outcome hw hk₅ hwrote₇ rfl [.workspace target.id] (by simp) (fun e he => ?_)
      trivial ?_ ?_ ?_ fun hi hr => ?_
    · obtain rfl := List.mem_singleton.mp he
      exact List.mem_cons_self
    · rw [List.map_singleton, Refs.read, htarget]
      rfl
    · rw [List.map_singleton]
      refine congrArg (fun e => [e]) ?_
      show _ = w₇.repo.refs.read _
      rw [hrefs]
      exact (Refs.read_write w.repo.refs (.workspace target.id none)).symm
    · show IdsBelow w₇.env w₇.ids w₇.repo.refs
      rw [hrefs, show w₇.env = w.env from hwrote₇.env.trans hk₅.env]
      exact (hw.ids.mono (hk₅.idsLe.trans hwrote₇.ids)).removeManifest
    · show RefsOk w₅.repo.objects w₇.repo.refs
      rw [hrefs]
      exact (hr.mono hk₅.le).removeManifest

theorem cmdSeal_outcome (hw : w.Steady) (inv : Invocation) (path : String)
    (sealed : Except Error Sealed) :
    Post (cmdSeal inv path sealed) w (fun _ w' => w.Outcome w') (fun _ w' => w.Outcome w') := by
  have hk := World.Quiet.kept (.refl w)
  refine outcome_bind hk keeps_discoverWorkspace fun ws w₁ _ hk₁ _ => ?_
  refine outcome_bind hk₁ keeps_lockForWrite fun _ w₂ _ hk₂ _ => ?_
  refine outcome_bind hk₂ (keeps_step (k := .registryRead) (by simp [FsStep.Mutates]))
    fun _ w₃ _ hk₃ _ => ?_
  refine outcome_bind hk₃ (Keeps.fromExcept (P := fun _ _ => True) fun _ _ => trivial)
    fun payload w₄ _ hk₄ _ => ?_
  refine outcome_bind hk₄ (P := fun _ _ => True) ?_ fun target w₅ _ hk₅ _ => ?_
  · refine Keeps.bind keeps_currentChangeId fun cur w₅ _ _ => ?_
    cases cur with
    | some id => exact Keeps.pure trivial
    | none => exact Keeps.throw
  refine outcome_bind hk₅ keeps_getChange fun change w₆ _ hk₆ _ => ?_
  refine outcome_bind hk₆ keeps_loadObject fun snap w₇ _ hk₇ _ => ?_
  refine outcome_bind hk₇ ((editsPath_writeSealedAtPath path payload).keeps snap.tree)
    fun newTree w₈ _ hk₈ _ => ?_
  refine outcome_bind hk₈ keeps_openLog fun _ w₉ _ hk₉ _ => ?_
  exact outcome_of_kept hk₉ (snapChangeDirectly_outcome (hw.kept hk₉) target newTree _)

end Tig
