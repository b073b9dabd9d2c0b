import Tig.System.Touches

set_option relaxedAutoImplicit false
set_option autoImplicit false

/-!
# Processes

A process finds its workspace when it starts, before it takes the write lock, and keeps the handle:
a command until it is done, a watcher for as long as it runs. What it does under the lock, other
processes cannot interfere with; between its start and that, they can.

## Main definitions

* `Tig.Act` — what a process does under the lock.
* `Tig.Net` — a repository and the processes that work on it.
* `Tig.NetRun` — the states that are reached when processes start, act and stop in any order.

## Main results

* `Tig.cmdSnap_eq`, `Tig.cmdChangeNew_eq`, … — a command is a start and an act.
* `Tig.Act.touches` — the refs that an act touches.
-/

namespace Tig

open Program

variable {H : Type} [LinearOrder H] [Format H]

/-! ## What is done under the lock -/

/-- `tig snap`, under the lock. -/
def lockedSnap (ws : Workspace) (principal : PrincipalId) (copy : WorkingCopy)
    (message : Option String) : RepoM H (SnapOutcome H) := do
  lockForWrite
  openLog
  snapNow ws copy { SnapOptions.default with author := principal, message := message }

/-- One snapshot of `tig watch`, whose log has been opened before. -/
def lockedWatch (ws : Workspace) (principal : PrincipalId) (copy : WorkingCopy) :
    RepoM H (SnapOutcome H) := do
  lockForWrite
  snapNow ws copy { SnapOptions.default with author := principal }

/-- `tig change new`, under the lock. -/
def lockedChangeNew (ws : Workspace) (principal : PrincipalId) (description : String) :
    RepoM H (Change H) := do
  lockForWrite
  openLog
  let current ← startingSnapshot ws principal
  let id ← newUlid
  recordNewChange ws principal (Change.new id description principal current) description

/-- `tig wt make`, under the lock. -/
def lockedWtMake (disk : Disk) (source : Workspace) (principal : PrincipalId) (name : String)
    (atPath : Option String) (identity : Except Error (Option UnsealFn)) :
    RepoM H WorkspaceManifest := do
  lockForWrite
  let sourceChange ← sourceChangeOf source
  let dest := workspaceDest source name atPath
  if disk.present dest then
    throw (.cli ("destination already exists: " ++ dest))
  else
    step .registryRead
    let unsealer ← fromExcept identity
    placeFiles disk source sourceChange dest unsealer
    let id ← newUlid
    let now ← currentTimestampNs
    let manifest : WorkspaceManifest :=
      ⟨id, name, (disk.canonicalize dest).getD dest, sourceChange, now⟩
    openWorkspaces
    putWorkspace manifest
    -- the marker in the new directory
    step .workdirRead
    openLog
    let _ ← appendOp ⟨principal, .wtMake manifest.id manifest.name,
      [.workspace manifest.id none], [.ofManifest manifest]⟩
    return manifest

/-- `tig wt drop`, under the lock. -/
def lockedWtDrop (disk : Disk) (ws : Workspace) (principal : PrincipalId) (name : String)
    (keepFiles : Bool) : RepoM H WorkspaceManifest := do
  lockForWrite
  openWorkspaces
  match ← findByName name with
  | none => throw (.cli ("no workspace named " ++ debugStr name))
  | some target =>
    if ws.workspaceId = some target.id then
      throw (.cli "refusing to drop the workspace you're currently in")
    else
      removeFiles disk target.location keepFiles
      deleteWorkspace target.id
      openLog
      let _ ← appendOp ⟨principal, .wtDrop target.id target.name,
        [.ofManifest target], [.workspace target.id none]⟩
      return target

/-- `tig undo`, under the lock. -/
def lockedUndo (principal : PrincipalId) : RepoM H (Option (UndoOutcome H)) := do
  lockForWrite
  openLog
  undoOnce principal

theorem cmdSnap_eq (inv : Invocation) (copy : WorkingCopy) (message : Option String) :
    (cmdSnap inv copy message : RepoM H _) =
      (discoverWorkspace inv.repoWorkdir inv.place >>= fun ws =>
        lockedSnap ws inv.principal copy message) := rfl

theorem cmdChangeNew_eq (inv : Invocation) (description : String) :
    (cmdChangeNew inv description : RepoM H _) =
      (discoverWorkspace inv.repoWorkdir inv.place >>= fun ws =>
        lockedChangeNew ws inv.principal description) := rfl

theorem cmdWtMake_eq (disk : Disk) (inv : Invocation) {name : String} (atPath : Option String)
    (identity : Except Error (Option UnsealFn)) (hname : isValidWorkspaceName name = true) :
    (cmdWtMake disk inv name atPath identity : RepoM H _) =
      (discoverWorkspace inv.repoWorkdir inv.place >>= fun source =>
        lockedWtMake disk source inv.principal name atPath identity) := by
  rw [cmdWtMake, if_neg (by rw [hname]; exact Bool.noConfusion)]
  rfl

omit [LinearOrder H] [Format H] in
theorem cmdWtDrop_eq (disk : Disk) (inv : Invocation) (name : String) (keepFiles : Bool) :
    (cmdWtDrop disk inv name keepFiles : RepoM H _) =
      (discoverWorkspace inv.repoWorkdir inv.place >>= fun ws =>
        lockedWtDrop disk ws inv.principal name keepFiles) := rfl

omit [LinearOrder H] [Format H] in
theorem cmdUndo_eq (inv : Invocation) :
    (cmdUndo inv : RepoM H _) =
      (discoverWorkspace inv.repoWorkdir inv.place >>= fun _ => lockedUndo inv.principal) := rfl

/-- What a process does under the lock. A name that is given to `make` is a valid one. -/
inductive Act where
  | snap (copy : WorkingCopy) (message : Option String)
  | watch (copy : WorkingCopy)
  | changeNew (description : String)
  | wtMake (disk : Disk) (name : String) (atPath : Option String)
      (identity : Except Error (Option UnsealFn)) (valid : isValidWorkspaceName name = true)
  | wtDrop (disk : Disk) (name : String) (keepFiles : Bool)
  | undo

/-- What comes of it. -/
inductive Done (H : Type) where
  | snapped (out : SnapOutcome H)
  | created (change : Change H)
  | made (manifest : WorkspaceManifest)
  | dropped (manifest : WorkspaceManifest)
  | undone (out : Option (UndoOutcome H))

/-- Perform an act in a workspace. -/
def Act.perform (ws : Workspace) (principal : PrincipalId) : Act → RepoM H (Done H)
  | .snap copy message => .snapped <$> lockedSnap ws principal copy message
  | .watch copy => .snapped <$> lockedWatch ws principal copy
  | .changeNew description => .created <$> lockedChangeNew ws principal description
  | .wtMake disk name atPath identity _ =>
      .made <$> lockedWtMake disk ws principal name atPath identity
  | .wtDrop disk name keepFiles => .dropped <$> lockedWtDrop disk ws principal name keepFiles
  | .undo => .undone <$> lockedUndo principal

/-- Only a watcher goes on after an act. -/
def Act.goesOn : Act → Bool
  | .watch _ => true
  | _ => false

/-! ## Processes -/

/-- A process: the handle that it has made, and the user who runs it. -/
structure Proc where
  ws : Workspace
  principal : PrincipalId

/-- A repository and the processes that work on it. -/
structure Net (H : Type) where
  world : World H
  procs : Nat → Option Proc

/-- What happens next: a process starts in some workspace, does something under the lock with a handle
on the log, or stops. -/
inductive Event where
  | start (p : Nat) (inv : Invocation)
  | act (p : Nat) (log : FileLog) (a : Act)
  | stop (p : Nat)

/-- The state after an event. -/
def Net.after (net : Net H) : Event → Net H
  | .start p inv =>
    match discoverWorkspace inv.repoWorkdir inv.place net.world with
    | .ok ws w => ⟨w, Function.update net.procs p (some ⟨ws, inv.principal⟩)⟩
    | .error _ w => ⟨w, net.procs⟩
  | .act p log a =>
    match net.procs p with
    | none => net
    | some proc => ⟨final (a.perform proc.ws proc.principal) { net.world with log := log },
        if a.goesOn then net.procs else Function.update net.procs p none⟩
  | .stop p => ⟨net.world, Function.update net.procs p none⟩

/-- The states that are reached from a fresh repository by events that meet a condition, in any
order. -/
inductive NetRun (ok : Net H → Event → Prop) : Net H → Prop
  | fresh (w : World H) (hrepo : w.repo = Repo.empty) (hfresh : Function.Injective w.env.ulid) :
      NetRun ok ⟨w, fun _ => none⟩
  | event {net : Net H} (h : NetRun ok net) (e : Event) (he : ok net e) : NetRun ok (net.after e)

omit [LinearOrder H] [Format H] in
/-- A handle that was made from the refs as they are names a workspace that is there. -/
theorem Workspace.UpToDate.gave {ws : Workspace} {w : World H} (h : ws.UpToDate w.repo.refs)
    (hw : w.IdsKnown) {id : WorkspaceId} (hid : ws.key = .workspace id) : w.Gave id := by
  obtain ⟨_ | m, dir⟩ := ws
  · cases hid
  · exact RefKey.workspace.inj hid ▸ hw.refs m.id (Finmap.mem_of_lookup_eq_some h)

/-! ## What an act touches -/

/-- All manifests, in the order of their ids. -/
def Refs.manifests (r : Refs H) : List WorkspaceManifest :=
  (FiniteMap.sortedKeys r.workspaces).filterMap fun id => (r.workspaces.lookup id).map (·.1)

/-- The manifest that `wt drop` finds. -/
def Refs.findByName (r : Refs H) (name : String) : Option WorkspaceManifest :=
  r.manifests.find? fun m => m.name = name

/-- The manifests that an act changes, removes or brings back. -/
def Act.changesManifest (a : Act) (ws : Workspace) (repo : Repo H) (id : WorkspaceId) : Prop :=
  match a with
  | .snap _ _ | .watch _ | .wtMake _ _ _ _ _ => False
  | .changeNew _ => ws.workspaceId = some id
  | .wtDrop _ name _ => ∃ m, repo.refs.findByName name = some m ∧ m.id = id
  | .undo => ∃ target, pickOpToUndo repo.oplog = some target ∧
      ∃ e ∈ target.before, e.key = .workspace id ∧ e ≠ repo.refs.read (.workspace id)

/-- The records of changes that an act may write. When a snapshot is taken of a secondary workspace,
that is the one which the handle names. -/
def Act.writesChange (a : Act) (ws : Workspace) (w : World H) (id : ChangeId) : Prop :=
  match a with
  | .snap _ _ | .watch _ => ∀ m, ws.kind = .secondary m → id = m.changeId
  | .changeNew _ => ¬ w.Gave id
  | .wtMake _ _ _ _ _ | .wtDrop _ _ _ => False
  | .undo => True

/-- The refs that an act may touch. Of the manifests they are those that it changes, and new ones. -/
def Act.MayTouch (a : Act) (ws : Workspace) (w : World H) : RefKey → Prop
  | .workspace id => a.changesManifest ws w.repo id ∨ ¬ w.Gave id
  | .change id => a.writesChange ws w id
  | _ => True

/-- What came of an act is based on a change. -/
def Done.BasedOn (done : Done H) (r : Refs H) (id : ChangeId) : Prop :=
  match done with
  | .snapped out => out.change.id = id
  | .created change => ∃ c, r.changes.lookup id = some c ∧ change.current = c.1.current
  | .made manifest => manifest.changeId = id
  | .dropped _ | .undone _ => True

section Touches

variable {w : World H} {ws : Workspace} {principal : PrincipalId} {W : RefKey → Prop}

omit [LinearOrder H] [Format H] in
theorem Touches.map {α β : Type} {x : RepoM H α} {f : α → β} {P : α → World H → Prop}
    {R : β → World H → Prop} (h : Touches W x w P) (hf : ∀ a w', P a w' → R (f a) w') :
    Touches W (f <$> x) w R := by
  unfold Touches
  rw [post_map]
  exact Post.mono h (fun a w' h => ⟨h.1, hf a w' h.2⟩) (fun _ _ h => h)

omit [LinearOrder H] [Format H] in
/-- An id that the generator has not given out yet. -/
theorem World.Gave.ne_ulid (hfresh : Function.Injective w.env.ulid) {n : Nat} (hn : w.ids ≤ n) :
    ¬ w.Gave (w.env.ulid n) := by
  rintro ⟨m, hm, heq⟩
  have := hfresh heq
  omega

theorem touches_lockedSnap {copy : WorkingCopy} {opts : SnapOptions} (h : w.IdsKnown)
    (hws : ∀ id, ws.key = .workspace id → w.Gave id)
    (hW : ∀ k, (∀ id, k ≠ .workspace id) →
      (∀ m, ws.kind = .secondary m → k = .change m.changeId) → W k) :
    Touches W (snapNow ws copy opts) w fun out _ =>
      ∀ m, ws.kind = .secondary m → out.change.id = m.changeId := by
  obtain ⟨_ | m, dir⟩ := ws
  · refine (touches_snapNow_main h).mono (fun k hk => hW k hk fun m hm => ?_) fun _ _ _ _ m hm => ?_
    · cases hm
    · cases hm
  · refine (touches_snapNow_secondary h (hws m.id rfl)).mono (fun k hk => hW k ?_ fun m' hm' => ?_)
      fun out _ _ hid m' hm' => ?_
    · subst hk
      exact fun id => RefKey.noConfusion
    · cases hm'
      exact hk
    · cases hm'
      exact hid

theorem touches_lockedChangeNew {description : String} (h : w.IdsKnown)
    (hws : ∀ id, ws.key = .workspace id → w.Gave id)
    (hchange : ∀ n, w.ids ≤ n → W (.change (w.env.ulid n))) (hpointer : W ws.key) :
    Touches W (lockedChangeNew ws principal description) w fun change _ =>
      ∀ m, ws.kind = .secondary m → ∃ c, w.repo.refs.changes.lookup m.changeId = some c ∧
        change.current = c.1.current := by
  refine Touches.of_keeps_bind h keeps_lockForWrite fun _ w₁ hk₁ h₁ _ => ?_
  refine Touches.of_keeps_bind h₁ keeps_openLog fun _ w₂ hk₂ h₂ _ => ?_
  have hk₁₂ := hk₁.trans hk₂
  have hstart : Keeps (startingSnapshot ws principal) w₂ fun current _ =>
      ∀ m, ws.kind = .secondary m → ∃ c, w₂.repo.refs.changes.lookup m.changeId = some c ∧
        current = c.1.current := by
    obtain ⟨_ | m, dir⟩ := ws
    · exact keeps_startingSnapshot.mono (fun _ _ hk => ⟨hk.1, fun m hm => by cases hm⟩)
        (fun _ _ hk => hk)
    · exact keeps_startingSnapshot_secondary.mono
        (fun _ _ hk => ⟨hk.1, fun m' hm' => by cases hm'; exact hk.2⟩) (fun _ _ hk => hk)
  refine Touches.of_keeps_bind h₂ hstart fun current w₃ hk₃ h₃ hcurrent => ?_
  refine Touches.of_keeps_bind h₃ keeps_newUlid fun id w₄ hk₄ h₄ hid => ?_
  obtain ⟨rfl, -⟩ := hid
  have hk := (hk₁₂.trans hk₃).trans hk₄
  have hnew : W (.change (w₃.env.ulid w₃.ids)) := by
    rw [(hk₁₂.trans hk₃).env]
    exact hchange _ (hk₁₂.trans hk₃).idsLe
  refine (touches_recordNewChange h₄ (fun id hid => (hws id hid).mono hk.env hk.idsLe) hnew
    hpointer).mono (fun _ hk => hk) ?_
  rintro _ _ - rfl m hm
  rw [← hk₁₂.refs]
  exact hcurrent m hm

theorem touches_lockedWtMake {disk : Disk} {name : String} {atPath : Option String}
    {identity : Except Error (Option UnsealFn)} (h : w.IdsKnown)
    (hnew : ∀ n, w.ids ≤ n → W (.workspace (w.env.ulid n))) :
    Touches W (lockedWtMake disk ws principal name atPath identity) w fun manifest _ =>
      ∀ m, ws.kind = .secondary m → manifest.changeId = m.changeId := by
  refine Touches.of_keeps_bind h keeps_lockForWrite fun _ w₁ hk₁ h₁ _ => ?_
  have hsource : Keeps (sourceChangeOf ws) w₁ fun id _ =>
      ∀ m, ws.kind = .secondary m → id = m.changeId := by
    refine Keeps.bind keeps_currentChangeId fun cur w₂ _ hcur => ?_
    subst hcur
    obtain ⟨_ | m, dir⟩ := ws
    · cases hid : Workspace.current ⟨.main, dir⟩ w₁.repo.refs with
      | some id => exact Keeps.pure fun m hm => by cases hm
      | none => exact Keeps.throw
    · exact Keeps.pure fun m' hm' => by cases hm'; rfl
  refine Touches.of_keeps_bind h₁ hsource fun sourceChange w₂ hk₂ h₂ hid => ?_
  dsimp only
  split
  · exact Touches.throw h₂
  refine Touches.of_keeps_bind h₂ (keeps_step (k := .registryRead) (by simp [FsStep.Mutates]))
    fun _ w₃ hk₃ h₃ _ => ?_
  refine Touches.of_keeps_bind h₃ (Keeps.fromExcept (P := fun _ _ => True) fun _ _ => trivial)
    fun unsealer w₄ hk₄ h₄ _ => ?_
  refine Touches.of_keeps_bind h₄ keeps_placeFiles fun _ w₅ hk₅ h₅ _ => ?_
  refine Touches.of_keeps_bind h₅ keeps_newUlid fun id w₆ hk₆ h₆ hnewId => ?_
  obtain ⟨rfl, hids⟩ := hnewId
  refine Touches.of_keeps_bind h₆ keeps_currentTimestampNs fun now w₇ hk₇ h₇ _ => ?_
  refine Touches.of_keeps_bind h₇ keeps_openWorkspaces fun _ w₈ hk₈ h₈ _ => ?_
  have hk₀₅ := (((hk₁.trans hk₂).trans hk₃).trans hk₄).trans hk₅
  have hk₆₈ := (hk₆.trans hk₇).trans hk₈
  have hgave : w₈.Gave (w₅.env.ulid w₅.ids) := by
    refine ⟨w₅.ids, ?_, by rw [hk₆₈.env]⟩
    have := hk₇.idsLe.trans hk₈.idsLe
    omega
  refine Touches.bind (P := fun _ _ => True) ?_ fun _ w₉ h₉ _ => ?_
  · refine (touches_writeRef h₈ fun id hid => ?_).mono ?_ fun _ _ _ _ => trivial
    · exact RefKey.workspace.inj hid ▸ hgave
    · rintro k ⟨rfl, -⟩
      show W (.workspace (w₅.env.ulid w₅.ids))
      rw [hk₀₅.env]
      exact hnew _ hk₀₅.idsLe
  refine Touches.of_keeps_bind h₉.known keeps_workdirStep fun _ w₁₀ hk₁₀ h₁₀ _ => ?_
  refine Touches.of_keeps_bind h₁₀ keeps_openLog fun _ w₁₁ hk₁₁ h₁₁ _ => ?_
  refine Touches.bind (touches_appendOp h₁₁ fun e he id' hid' => ?_) fun _ w₁₂ h₁₂ _ =>
    Touches.pure h₁₂.known hid
  have hgave' : w₁₁.Gave (w₅.env.ulid w₅.ids) :=
    (h₉.gave hgave).mono (hk₁₀.trans hk₁₁).env (hk₁₀.trans hk₁₁).idsLe
  simp only [List.cons_append, List.nil_append, List.mem_cons, List.not_mem_nil, or_false] at he
  rcases he with rfl | rfl <;> exact RefKey.workspace.inj hid' ▸ hgave'

omit [LinearOrder H] [Format H] in
/-- What is found under a name is registered, and has the name. -/
theorem Refs.findByName_eq_some {r : Refs H} {name : String} {m : WorkspaceManifest}
    (h : r.findByName name = some m) :
    r.workspaces.lookup m.id = some ⟨m, rfl⟩ ∧ m.name = name := by
  refine ⟨?_, by simpa using List.find?_some h⟩
  obtain ⟨id, -, hid⟩ := List.mem_filterMap.mp (List.mem_of_find?_eq_some h)
  obtain ⟨⟨m', rfl⟩, hm', rfl⟩ := Option.map_eq_some_iff.mp hid
  exact hm'

/-- The manifest that `wt drop` finds is the first one with the name. -/
theorem keeps_findByName_eq {name : String} :
    Keeps (findByName name : RepoM H _) w fun m _ => m = w.repo.refs.findByName name := by
  have hlist : Keeps (listWorkspaces : RepoM H _) w fun ms _ => ms = w.repo.refs.manifests :=
    readStep_spec .refRead (fun r : Repo H => r.refs.manifests) (by simp [FsStep.Mutates])
      (fun _ hs hr => ⟨(World.Quiet.of_repo hs hr).kept, rfl⟩)
      (fun _ _ hs hr _ => (World.Quiet.of_repo hs hr).kept)
  refine Keeps.bind hlist fun ms w₁ _ hms => Keeps.pure ?_
  rw [hms]
  rfl

theorem keeps_removeFiles {disk : Disk} {location : String} {keepFiles : Bool} :
    Keeps (removeFiles disk location keepFiles : RepoM H Unit) w fun _ _ => True := by
  rw [removeFiles]
  split
  · exact keeps_workdirStep
  · exact Keeps.pure trivial

theorem touches_lockedWtDrop {disk : Disk} {name : String} {keepFiles : Bool} (h : w.IdsKnown)
    (hdrop : ∀ m, w.repo.refs.findByName name = some m → W (.workspace m.id)) :
    Touches W (lockedWtDrop disk ws principal name keepFiles) w fun target w' =>
      w.repo.refs.findByName name = some target ∧
        w'.repo.refs = w.repo.refs.write (.workspace target.id none) := by
  refine Touches.of_keeps_bind h keeps_lockForWrite fun _ w₁ hk₁ h₁ _ => ?_
  refine Touches.of_keeps_bind h₁ keeps_openWorkspaces fun _ w₂ hk₂ h₂ _ => ?_
  refine Touches.of_keeps_bind h₂ keeps_findByName_eq fun found w₃ hk₃ h₃ hfound => ?_
  subst hfound
  rw [(hk₁.trans hk₂).refs]
  cases hfind : w.repo.refs.findByName name with
  | none => exact Touches.throw h₃
  | some target =>
    have htarget := (Refs.findByName_eq_some hfind).1
    dsimp only
    split
    · exact Touches.throw h₃
    refine Touches.of_keeps_bind h₃ keeps_removeFiles fun _ w₄ hk₄ h₄ _ => ?_
    have hk := ((hk₁.trans hk₂).trans hk₃).trans hk₄
    have hmem : target.id ∈ w₄.repo.refs.workspaces := by
      rw [hk.refs]
      exact Finmap.mem_of_lookup_eq_some htarget
    have hgave : w₄.Gave target.id := h₄.refs _ hmem
    have hdelete : Touches W (deleteWorkspace target.id : RepoM H Unit) w₄ fun _ w' =>
        w'.repo.refs = w₄.repo.refs.write (.workspace target.id none) := by
      unfold Touches
      rw [post_deleteWorkspace hmem]
      refine (touches_writeRef h₄ fun id hid => ?_).mono ?_ fun _ _ _ h => h
      · exact RefKey.workspace.inj hid ▸ hgave
      · rintro k ⟨rfl, -⟩
        exact hdrop target hfind
    refine Touches.bind hdelete fun _ w₅ h₅ hrefs => ?_
    refine Touches.of_keeps_bind h₅.known keeps_openLog fun _ w₆ hk₆ h₆ _ => ?_
    have hgave' := (h₅.gave hgave).mono hk₆.env hk₆.idsLe
    refine Touches.bind (touches_appendOp h₆ fun e he id hid => ?_) fun _ w₇ h₇ hrefs₇ =>
      Touches.pure h₇.known ⟨rfl, by rw [hrefs₇, hk₆.refs, hrefs, hk.refs]⟩
    simp only [List.cons_append, List.nil_append, List.mem_cons, List.not_mem_nil, or_false] at he
    rcases he with rfl | rfl <;> exact RefKey.workspace.inj hid ▸ hgave'

theorem touches_lockedUndo (h : w.IdsKnown)
    (hundo : ∀ target, pickOpToUndo w.repo.oplog = some target → ∀ e ∈ target.before,
      e ≠ w.repo.refs.read e.key → W e.key) :
    Touches W (lockedUndo principal) w fun _ _ => True := by
  refine Touches.of_keeps_bind h keeps_lockForWrite fun _ w₁ hk₁ h₁ _ => ?_
  refine Touches.of_keeps_bind h₁ keeps_openLog fun _ w₂ hk₂ h₂ _ => ?_
  have hk := hk₁.trans hk₂
  refine (touches_undoOnce h₂).mono (fun k hk' => ?_) fun _ _ _ _ => trivial
  rw [hk.oplog, hk.refs] at hk'
  obtain ⟨target, htarget, e, he, rfl, hne⟩ := hk'
  exact hundo target htarget e he hne

/-- **An act touches** what it may, and what comes of it in a secondary workspace is based on the
change that the handle names. -/
theorem Act.touches (a : Act) (hfresh : Function.Injective w.env.ulid) (h : w.IdsKnown)
    (hws : ∀ id, ws.key = .workspace id → w.Gave id) :
    Touches (a.MayTouch ws w) (a.perform ws principal) w fun done _ =>
      ∀ m, ws.kind = .secondary m → done.BasedOn w.repo.refs m.changeId := by
  have hsnap : ∀ (copy : WorkingCopy) (opts : SnapOptions) (a : Act) (w₁ : World H), w.Kept w₁ →
      (∀ id, a.writesChange ws w id = ∀ m, ws.kind = .secondary m → id = m.changeId) →
        Touches (a.MayTouch ws w) (snapNow ws copy opts) w₁ fun out _ =>
          ∀ m, ws.kind = .secondary m → out.change.id = m.changeId := by
    intro copy opts a w₁ hk₁ ha
    refine touches_lockedSnap (hk₁.touched (W := fun _ => True) h).known
      (fun id hid => (hws id hid).mono hk₁.env hk₁.idsLe) fun k hk hm => ?_
    cases k with
    | head => trivial
    | bookmark name => trivial
    | workspace id => exact absurd rfl (hk id)
    | change id =>
      show a.writesChange ws w id
      rw [ha]
      exact fun m hkind => RefKey.change.inj (hm m hkind)
  cases a with
  | snap copy message =>
    refine Touches.map (P := fun (out : SnapOutcome H) _ =>
      ∀ m, ws.kind = .secondary m → out.change.id = m.changeId) ?_ fun _ _ hout => hout
    refine Touches.of_keeps_bind h keeps_lockForWrite fun _ w₁ hk₁ h₁ _ => ?_
    refine Touches.of_keeps_bind h₁ keeps_openLog fun _ w₂ hk₂ h₂ _ => ?_
    exact hsnap copy _ (.snap copy message) w₂ (hk₁.trans hk₂) fun _ => rfl
  | watch copy =>
    refine Touches.map (P := fun (out : SnapOutcome H) _ =>
      ∀ m, ws.kind = .secondary m → out.change.id = m.changeId) ?_ fun _ _ hout => hout
    refine Touches.of_keeps_bind h keeps_lockForWrite fun _ w₁ hk₁ h₁ _ => ?_
    exact hsnap copy _ (.watch copy) w₁ hk₁ fun _ => rfl
  | changeNew description =>
    refine (touches_lockedChangeNew h hws (fun n hn => World.Gave.ne_ulid hfresh hn) ?_).map
      fun _ _ hchange => hchange
    obtain ⟨_ | m, dir⟩ := ws
    · trivial
    · exact .inl rfl
  | wtMake disk name atPath identity valid =>
    exact (touches_lockedWtMake h fun n hn => .inr (World.Gave.ne_ulid hfresh hn)).map
      fun _ _ hmade => hmade
  | wtDrop disk name keepFiles =>
    exact (touches_lockedWtDrop h fun m hm => .inl ⟨m, hm, rfl⟩).map fun _ _ _ _ _ => trivial
  | undo =>
    refine (touches_lockedUndo h fun target htarget e he hne => ?_).map fun _ _ _ _ _ => trivial
    cases hkey : e.key with
    | head => trivial
    | bookmark name => trivial
    | workspace id => exact .inl ⟨target, htarget, e, he, hkey, hkey ▸ hne⟩
    | change id => trivial

end Touches

end Tig
