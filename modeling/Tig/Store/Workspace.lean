import Tig.Store.History

set_option relaxedAutoImplicit false
set_option autoImplicit false

/-!
# Workspaces

The main workspace is the one whose directory holds the repository; its current change is HEAD.
A secondary workspace lies elsewhere, and its current change is named by its manifest. A handle
on a secondary workspace carries the manifest as it was when the handle was made.

## Main definitions

* `Tig.Workspace` — a handle on a workspace.
* `Tig.discoverWorkspace` — make one.
* `Tig.captureWorkspaceRef`, `Tig.workspaceRefSnapshot` — capture the pointer of a workspace.

## Main results

* `Tig.captureWorkspaceRef_spec`, `Tig.workspaceRefSnapshot_spec` — what is captured is the entry
  of the workspace's own ref.
-/

namespace Tig

open Program

/-- Which workspace it is; a secondary one comes with its manifest. -/
inductive WorkspaceKind where
  | main
  | secondary (manifest : WorkspaceManifest)
deriving DecidableEq, Repr

/-- A handle on a workspace of a repository whose main directory is `repoWorkdir`. -/
structure Workspace where
  kind : WorkspaceKind
  repoWorkdir : String
deriving DecidableEq, Repr

/-- Where a command is started: in the main workspace, or below the marker of a secondary
one. -/
inductive Place where
  | main
  | marker (id : WorkspaceId)
deriving DecidableEq, Repr

namespace Workspace

/-- The directory of a workspace. -/
def workdir (ws : Workspace) : String :=
  match ws.kind with
  | .main => ws.repoWorkdir
  | .secondary m => m.location

/-- The id of a secondary workspace. -/
def workspaceId (ws : Workspace) : Option WorkspaceId :=
  match ws.kind with
  | .main => none
  | .secondary m => some m.id

/-- The ref that says what is checked out here. -/
def key (ws : Workspace) : RefKey :=
  match ws.kind with
  | .main => .head
  | .secondary m => .workspace m.id

end Workspace

variable {H : Type}

/-- The entry that points a workspace at a change. -/
def Workspace.entry (ws : Workspace) (id : ChangeId) : RefSnapshot H :=
  match ws.kind with
  | .main => .head (some id)
  | .secondary m => .ofManifest { m with changeId := id }

/-- The handle, pointed at a change. -/
def Workspace.pointed (ws : Workspace) (id : ChangeId) : Workspace :=
  match ws.kind with
  | .main => ws
  | .secondary m => { ws with kind := .secondary { m with changeId := id } }

/-- The workspace a command is started in. -/
def discoverWorkspace (repoWorkdir : String) : Place → RepoM H Workspace
  | .main => return ⟨.main, repoWorkdir⟩
  | .marker id => do
    openWorkspaces
    let m ← getWorkspace id
    return ⟨.secondary m.1, repoWorkdir⟩

/-- The change that is checked out here. -/
def Workspace.currentChangeId (ws : Workspace) : RepoM H (Option ChangeId) :=
  match ws.kind with
  | .main => head
  | .secondary m => return some m.changeId

/-- Check out a change here; the handle follows. -/
def Workspace.setCurrentChangeId (ws : Workspace) (id : ChangeId) : RepoM H Workspace :=
  match ws.kind with
  | .main => do
    setHead id
    return ws
  | .secondary m => do
    openWorkspaces
    putWorkspace { m with changeId := id }
    return ws.pointed id

/-- Capture the pointer of a workspace, read from disk; a failing read counts as an absent
pointer. -/
def captureWorkspaceRef (ws : Workspace) : RepoM H (RefSnapshot H) :=
  match ws.kind with
  | .main => do
    let h ← attempt head
    return .head h.join
  | .secondary m => do
    match ← attempt openWorkspaces with
    | none => return .head none
    | some _ => do
      let value ← attempt (getWorkspace m.id)
      return .workspace m.id value

/-- Capture the pointer of a workspace, read from disk. -/
def workspaceRefSnapshot (ws : Workspace) : RepoM H (RefSnapshot H) :=
  match ws.kind with
  | .main => do
    let h ← head
    return .head h
  | .secondary m => do
    openWorkspaces
    tryCatch (do let value ← getWorkspace m.id; return .workspace m.id (some value)) fun
      | .notFound _ => return .workspace m.id none
      | e => throw e

/-! ## What the operations on a workspace do -/

@[simp] theorem Workspace.key_entry (ws : Workspace) (id : ChangeId) :
    (ws.entry id : RefSnapshot H).key = ws.key := by
  rcases ws with ⟨_ | m, dir⟩ <;> rfl

@[simp] theorem Workspace.isBookmark_key (ws : Workspace) : ws.key.isBookmark = false := by
  rcases ws with ⟨_ | m, dir⟩ <;> rfl

/-- The change that a handle says is checked out. -/
def Workspace.current (ws : Workspace) (r : Refs H) : Option ChangeId :=
  match ws.kind with
  | .main => r.head
  | .secondary m => some m.changeId

variable {w : World H}

theorem currentChangeId_spec {ws : Workspace} {Q : Option ChangeId → World H → Prop}
    {E : Error → World H → Prop}
    (hok : ∀ w', w.SameRefs w' → w'.repo = w.repo → Q (ws.current w.repo.refs) w')
    (herr : ∀ e w', w.SameRefs w' → w'.repo = w.repo → w.env.Fault e → E e w') :
    Post ws.currentChangeId w Q E := by
  rcases ws with ⟨_ | m, dir⟩
  · exact head_spec hok herr
  · exact hok w (.refl w) rfl

/-- A failing read is not noticed: only in an environment where reads do not fail is it known
what is captured. -/
theorem captureWorkspaceRef_spec {ws : Workspace} {Q : RefSnapshot H → World H → Prop}
    {E : Error → World H → Prop}
    (hok : ∀ e w', w.SameRefs w' → w'.repo = w.repo →
      (w.env.Reliable → e = w.repo.refs.read ws.key) → Q e w') :
    Post (captureWorkspaceRef ws) w Q E := by
  rcases ws with ⟨_ | m, dir⟩
  · rw [captureWorkspaceRef, post_bind, post_attempt]
    exact head_spec (fun w' hs hr => hok _ w' hs hr fun _ => rfl)
      (fun e w' hs hr hf => hok _ w' hs hr fun hrel => absurd hf (hrel.not_fault e))
  · rw [captureWorkspaceRef, post_bind, post_attempt]
    refine openWorkspaces_spec (fun w₁ hs₁ hr₁ => ?_)
      (fun e w' hs hr hf => hok _ w' hs hr fun hrel => absurd hf (hrel.not_fault e))
    dsimp only
    rw [post_bind, post_attempt]
    refine getWorkspace_spec (fun v w₂ hs₂ hr₂ hv => ?_) (fun e w₂ hs₂ hr₂ he => ?_)
    · refine hok _ w₂ (hs₁.trans hs₂) (hr₂.trans hr₁) fun _ => ?_
      rw [hr₁] at hv
      exact congrArg (RefSnapshot.workspace m.id) hv.symm
    · refine hok _ w₂ (hs₁.trans hs₂) (hr₂.trans hr₁) fun hrel => ?_
      rcases he with hf | ⟨hnone, -⟩
      · exact absurd hf (by rw [hs₁.env]; exact hrel.not_fault e)
      · rw [hr₁] at hnone
        exact congrArg (RefSnapshot.workspace m.id) hnone.symm

theorem workspaceRefSnapshot_spec {ws : Workspace} {Q : RefSnapshot H → World H → Prop}
    {E : Error → World H → Prop}
    (hok : ∀ w', w.SameRefs w' → w'.repo = w.repo → Q (w.repo.refs.read ws.key) w')
    (herr : ∀ e w', w.SameRefs w' → w'.repo = w.repo → w.env.Fault e → E e w') :
    Post (workspaceRefSnapshot ws) w Q E := by
  rcases ws with ⟨_ | m, dir⟩
  · rw [workspaceRefSnapshot, post_bind]
    exact head_spec hok herr
  · rw [workspaceRefSnapshot, post_bind]
    refine openWorkspaces_spec (fun w₁ hs₁ hr₁ => ?_) herr
    rw [post_tryCatch, post_bind]
    refine getWorkspace_spec (fun v w₂ hs₂ hr₂ hv => ?_) (fun e w₂ hs₂ hr₂ he => ?_)
    · have := hok w₂ (hs₁.trans hs₂) (hr₂.trans hr₁)
      rw [hr₁] at hv
      simpa only [post_pure, Workspace.key, Refs.read, hv] using this
    · rcases he with hf | ⟨hnone, rfl⟩
      · split
        · exact absurd rfl (hf.ne_notFound _)
        · exact herr e w₂ (hs₁.trans hs₂) (hr₂.trans hr₁) (hs₁.env ▸ hf)
      · have := hok w₂ (hs₁.trans hs₂) (hr₂.trans hr₁)
        rw [hr₁] at hnone
        simpa only [post_pure, Workspace.key, Refs.read, hnone] using this

/-! ## Handles that agree with the refs -/

/-- A handle that was made from the refs as they are. -/
def Workspace.UpToDate (ws : Workspace) (r : Refs H) : Prop :=
  match ws.kind with
  | .main => True
  | .secondary m => r.workspaces.lookup m.id = some ⟨m, m.id_eq⟩

section Outcome

variable [LinearOrder H] [Format H]

theorem keeps_discoverWorkspace {repoWorkdir : String} {place : Place} :
    Keeps (discoverWorkspace repoWorkdir place) w fun ws _ => ws.UpToDate w.repo.refs := by
  cases place with
  | main => exact Keeps.pure trivial
  | marker id =>
    refine Keeps.bind (keeps_step (k := .refRead) (by simp [FsStep.Mutates])) fun _ w₁ hk _ => ?_
    refine Keeps.bind (P := fun m _ => w₁.repo.refs.workspaces.lookup id = some m)
      (getWorkspace_spec (fun _ _ hs hr hm => ⟨(World.Quiet.of_repo hs hr).kept, hm⟩)
        (fun _ _ hs hr _ => (World.Quiet.of_repo hs hr).kept)) fun m w₂ _ hm => Keeps.pure ?_
    obtain ⟨m, rfl⟩ := m
    exact hk.refs ▸ hm

theorem keeps_currentChangeId {ws : Workspace} :
    Keeps ws.currentChangeId w fun id _ => id = ws.current w.repo.refs :=
  currentChangeId_spec (fun _ hs hr => ⟨(World.Quiet.of_repo hs hr).kept, rfl⟩)
    (fun _ _ hs hr _ => (World.Quiet.of_repo hs hr).kept)

theorem keeps_workspaceRefSnapshot {ws : Workspace} :
    Keeps (workspaceRefSnapshot ws) w fun e _ => e = w.repo.refs.read ws.key :=
  workspaceRefSnapshot_spec (fun _ hs hr => ⟨(World.Quiet.of_repo hs hr).kept, rfl⟩)
    (fun _ _ hs hr _ => (World.Quiet.of_repo hs hr).kept)

/-- In well-formed refs the current change of an up-to-date handle is there. -/
theorem Workspace.UpToDate.current_mem {ws : Workspace} {s : ObjectStore H} {r : Refs H}
    (h : ws.UpToDate r) (hr : RefsOk s r) {id : ChangeId} (hid : ws.current r = some id) :
    id ∈ r.changes := by
  obtain ⟨_ | m, dir⟩ := ws
  · exact hr.head id hid
  · obtain rfl : m.changeId = id := Option.some.inj hid
    exact hr.workspaces m.id ⟨m, rfl⟩ h

omit [LinearOrder H] [Format H] in
/-- When no step fails, checking out a change is one more write. -/
theorem setCurrentChangeId_spec {w₀ : World H} {ws : Workspace} {id : ChangeId}
    {done : List (RefSnapshot H)} {log : FileLog} (hrel : w₀.env.Reliable)
    (hw : w₀.Wrote w done log) {Q : Workspace → World H → Prop} {E : Error → World H → Prop}
    (hok : ∀ ws' w', w₀.Wrote w' (done ++ [ws.entry id]) log → w.ids ≤ w'.ids → Q ws' w') :
    Post (ws.setCurrentChangeId id) w Q E := by
  have hnone : w.env.failure .refWrite = fun _ => none := by
    funext n
    rw [hw.env]
    exact hrel.failure _ _
  obtain ⟨_ | m, dir⟩ := ws
  · rw [Workspace.setCurrentChangeId, post_bind, setHead, post_writeRef, hnone]
    exact ⟨fun _ => hok _ _ (hw.write _ (hrel.failure _ _)) le_rfl, fun e he => by cases he⟩
  · rw [Workspace.setCurrentChangeId, post_bind]
    refine openWorkspaces_spec (fun w₁ hs hr => ?_)
      (fun e w₁ _ _ hf => absurd hf (by rw [hw.env]; exact hrel.not_fault e))
    rw [post_bind, putWorkspace, post_writeRef, hs.env, hnone]
    exact ⟨fun _ => hok _ _ ((hw.read hs hr).write _ (hrel.failure _ _)) hs.ids,
      fun e he => by cases he⟩

end Outcome

end Tig
