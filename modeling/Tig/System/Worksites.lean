import Tig.Cli.Worktrees
import Tig.Fs.Growth

set_option relaxedAutoImplicit false
set_option autoImplicit false

/-!
# Runs over workspaces on a disk

Workspaces of one repository lie on one disk. A run goes through the making of workspaces, edits,
snapshots and restores in any of them, in any order; each step may fail. An edit is whatever else
happens to the disk.

## Main definitions

* `Tig.snapOn`, `Tig.restoreOn` — snapshots and restores of workspaces on the disk.
* `Tig.WorkAction`, `Tig.WorkRun` — the steps, and the runs.

## Main results

* `Tig.snapOn_spec` — what a recorded snapshot holds.
* `Tig.WorkRun.grows` — what a step of a run has stored stays stored.
-/

namespace Tig

open Program

variable {H : Type} [LinearOrder H] [Format H]

/-- Work on a repository and the directory at a path of the disk. -/
def inDirectory {α : Type} (path : List String) (x : SiteM H α) : SiteM H α := fun σ =>
  match dirAt σ.copy path with
  | none => .error (.io "No such file or directory (os error 2)") σ
  | some dir =>
    match x ⟨σ.world, dir⟩ with
    | .ok a σ' => .ok a ⟨σ'.world, setDirAt σ'.copy path σ.copy⟩
    | .error e σ' => .error e ⟨σ'.world, setDirAt σ'.copy path σ.copy⟩

/-- Snapshot the workspace that a command is run in. -/
def snapOn (fs : FileSystem) (inv : Invocation) (opts : SnapOptions) :
    SiteM H (Workspace × SnapOutcome H) := do
  let ws ← onRepo (discoverWorkspace inv.repoWorkdir inv.place)
  onRepo lockForWrite
  onRepo openLog
  let outcome ← inDirectory (fs.locate ws.workdir) (do
    let here ← get
    onRepo (snapNow ws here.copy opts))
  return (ws, outcome)

/-- Restore the workspace that a command is run in. -/
def restoreOn (fs : FileSystem) (inv : Invocation) (targetSnapshot currentSnapshot : H)
    (opts : RestoreOptions) : SiteM H Unit := do
  let ws ← onRepo (discoverWorkspace inv.repoWorkdir inv.place)
  onRepo lockForWrite
  let _ ← inDirectory (fs.locate ws.workdir)
    (restoreTreeInto fs.special fs.stackDepth ws.workdir targetSnapshot currentSnapshot opts)
  return ()

/-- A step of a run. -/
inductive WorkAction (H : Type) where
  | wtMake (inv : Invocation) (name : String) (atPath : Option String)
      (identity : Except Error (Option UnsealFn))
  | edit (disk : WorkingCopy)
  | snap (inv : Invocation) (opts : SnapOptions)
  | restore (inv : Invocation) (targetSnapshot currentSnapshot : H) (opts : RestoreOptions)

/-- What a step returns. -/
inductive WorkResult (H : Type) where
  | made (m : WorkspaceManifest)
  | snapped (ws : Workspace) (outcome : SnapOutcome H)
  | done

/-- What is done in a step. -/
def WorkAction.perform (fs : FileSystem) : WorkAction H → SiteM H (WorkResult H)
  | wtMake inv name atPath identity => do
    let m ← cmdWtMakeOn fs inv name atPath identity
    return .made m
  | edit disk => do
    onDisk (set disk)
    return .done
  | snap inv opts => do
    let (ws, outcome) ← snapOn fs inv opts
    return .snapped ws outcome
  | restore inv targetSnapshot currentSnapshot opts => do
    restoreOn fs inv targetSnapshot currentSnapshot opts
    return .done

/-- A step that was taken: what there was before it, and what was done. -/
structure WorkEvent (H : Type) where
  before : Site H
  action : WorkAction H

/-- What there is after a step, whether or not it failed. -/
def WorkEvent.after (fs : FileSystem) (e : WorkEvent H) : Site H :=
  final (e.action.perform fs) e.before

/-- The runs that start from a repository whose objects are intact, with the steps taken, the last
one first. -/
inductive WorkRun (fs : FileSystem) : List (WorkEvent H) → Site H → Prop
  | start (σ : Site H) (hi : σ.world.repo.objects.Intact) : WorkRun fs [] σ
  | step {es : List (WorkEvent H)} {σ : Site H} (h : WorkRun fs es σ) (action : WorkAction H) :
      WorkRun fs (⟨σ, action⟩ :: es) (WorkEvent.after fs ⟨σ, action⟩)

omit [LinearOrder H] [Format H] in
/-- Work in a directory, where there is one. -/
theorem Post.inDirectory {α : Type} {path : List String} {x : SiteM H α} {σ : Site H}
    {Q : α → Site H → Prop}
    (h : ∀ dir, dirAt σ.copy path = some dir → Post x ⟨σ.world, dir⟩
      (fun a σ' => Q a ⟨σ'.world, setDirAt σ'.copy path σ.copy⟩) (fun _ _ => True)) :
    Post (Tig.inDirectory path x) σ Q (fun _ _ => True) := by
  unfold Program.Post Tig.inDirectory
  cases hdir : dirAt σ.copy path with
  | none => trivial
  | some dir =>
    have hx := h dir hdir
    unfold Program.Post at hx
    dsimp only
    cases hrun : x ⟨σ.world, dir⟩ with
    | ok a σ' =>
      rw [hrun] at hx
      exact hx
    | error e σ' => trivial

/-- A snapshot of a workspace that was recorded is one of what lay in its directory. -/
theorem snapOn_spec {fs : FileSystem} {inv : Invocation} {opts : SnapOptions} {σ : Site H} :
    Post (snapOn fs inv opts : SiteM H _) σ
      (fun out σ' => ∃ w copy, discoverWorkspace inv.repoWorkdir inv.place σ.world = .ok out.1 w ∧
        dirAt σ.copy (fs.locate out.1.workdir) = some copy ∧
        ∀ h treeHash change fresh, out.2 = .snapped h treeHash change fresh →
          ∃ (tree : Tree H) (snap : Snapshot H), recordTree opts.ignore copy = some tree ∧
            snap.tree = (encode H tree).hash H ∧
            ∀ [LawfulFormat H], σ.world.repo.objects.Intact →
              σ'.world.repo.objects.load h = .ok snap ∧
                CopyStoredIn σ'.world.repo.objects opts.ignore copy)
      (fun _ _ => True) := by
  rw [snapOn, post_bind, post_onRepo]
  refine .of_cases (fun ws w₁ hws => ?_) (fun _ _ _ => trivial)
  have hk₁ : σ.world.Kept w₁ := (keeps_discoverWorkspace.ok hws).1
  rw [post_bind, post_onRepo]
  refine keeps_lockForWrite.mono (fun _ w₂ h₂ => ?_) (fun _ _ _ => trivial)
  rw [post_bind, post_onRepo]
  refine keeps_openLog.mono (fun _ w₃ h₃ => ?_) (fun _ _ _ => trivial)
  have hk₃ : σ.world.Kept w₃ := (hk₁.trans h₂.1).trans h₃.1
  rw [post_bind]
  refine Post.inDirectory fun copy hcopy => ?_
  rw [post_bind, post_get, post_onRepo]
  refine snapNow_spec ?_ ?_ (fun _ _ _ _ => trivial) (fun _ _ _ _ _ _ _ _ _ _ _ _ _ => trivial)
  · intro tree base n prev w₄ _ _ _ _ _ _
    exact ⟨w₁, copy, hws, hcopy, fun _ _ _ _ hout => by cases hout⟩
  · intro tree base n s' now op w₄ htree _ _ _ _ _ snap h _ _ _ _ hload
    refine ⟨w₁, copy, hws, hcopy, fun _ _ _ _ hout => ?_⟩
    cases hout
    exact ⟨tree, snap, htree, rfl, fun hi => hload (hk₃.intact hi)⟩

/-! ## Objects stay -/

section Leads

variable {fs : FileSystem} {σ : Site H} {R : World H → World H → Prop} [World.Lax R]

theorem SiteM.Leads.inDirectory {α : Type} {x : SiteM H α} (path : List String)
    (hx : ∀ copy, SiteM.Leads R x ⟨σ.world, copy⟩) : SiteM.Leads R (Tig.inDirectory path x) σ := by
  unfold SiteM.Leads Post Tig.inDirectory
  cases dirAt σ.copy path with
  | none => exact World.Lax.kept (World.Quiet.refl σ.world).kept
  | some dir =>
    have h := hx dir
    unfold SiteM.Leads Post at h
    dsimp only
    cases hrun : x ⟨σ.world, dir⟩ with
    | ok a σ' =>
      rw [hrun] at h
      exact h
    | error e σ' =>
      rw [hrun] at h
      exact h

theorem leads_placeFilesOn (source : Workspace) (change : ChangeId) (dest : String)
    (unsealer : Option UnsealFn) : SiteM.Leads R (placeFilesOn fs source change dest unsealer) σ := by
  refine .get (.bind (.keeps keeps_chooseDonor) fun donor σ₁ => ?_)
  refine .bind (.keeps keeps_workdirStep) fun _ σ₂ => .bind (.onDisk _) fun _ σ₃ => ?_
  cases donor with
  | some donor => exact .bind (.keeps keeps_workdirStep) fun _ σ₄ => .onDisk _
  | none =>
    refine .bind (.keeps keeps_getChange) fun found σ₄ => ?_
    refine .bind (.keeps (keeps_step (by simp [FsStep.Mutates]))) fun _ σ₅ => .get (.onDisk _)

theorem leads_registerWorkspaceOn (inv : Invocation) (name dest : String) (change : ChangeId) :
    SiteM.Leads World.Aside (registerWorkspaceOn fs inv name dest change) σ := by
  refine .of_keeps_bind keeps_newUlid fun id w₁ hk₁ ⟨hid, hids⟩ => ?_
  refine .of_keeps_bind keeps_currentTimestampNs fun now w₂ hk₂ _ => ?_
  refine .of_keeps_bind keeps_openWorkspaces fun _ w₃ hk₃ _ => ?_
  have hgave : ∃ k < w₃.ids, id = w₃.env.ulid k := by
    have hk := hk₂.trans hk₃
    refine ⟨σ.world.ids, ?_, ?_⟩
    · exact (Nat.lt_of_lt_of_eq (Nat.lt_succ_self _) hids.symm).trans_le hk.idsLe
    · rw [hk.env, hk₁.env]
      exact hid
  refine .bind (.onRepo (leads_putWorkspace hgave)) fun _ σ₄ => ?_
  refine .bind (.keeps keeps_workdirStep) fun _ σ₅ => .bind (.onDisk _) fun _ σ₆ => ?_
  refine .bind (.keeps keeps_openLog) fun _ σ₇ => ?_
  exact .bind (.onRepo (leads_appendOp _)) fun _ σ₈ => .pure _

/-- Making a workspace stays aside from the changes. -/
theorem leads_cmdWtMakeOn (inv : Invocation) (name : String) (atPath : Option String)
    (identity : Except Error (Option UnsealFn)) :
    SiteM.Leads World.Aside (cmdWtMakeOn fs inv name atPath identity) σ := by
  rw [cmdWtMakeOn]
  split_ifs with hname
  · exact .throw _
  refine .bind (.keeps keeps_discoverWorkspace) fun source σ₁ => ?_
  refine .bind (.keeps keeps_lockForWrite) fun _ σ₂ => ?_
  refine .bind (.keeps keeps_sourceChangeOf_current) fun change σ₃ => .get ?_
  split_ifs with hdest
  · exact .throw _
  refine .bind (.keeps (keeps_step (by simp [FsStep.Mutates]))) fun _ σ₄ => ?_
  refine .bind (.fromExcept identity) fun unsealer σ₅ => ?_
  exact .bind (leads_placeFilesOn source change _ unsealer) fun _ σ₆ =>
    leads_registerWorkspaceOn inv name _ change

/-- A snapshot leads onward. -/
theorem leads_snapOn (inv : Invocation) (opts : SnapOptions) :
    SiteM.Leads World.Onward (snapOn fs inv opts : SiteM H _) σ := by
  refine .bind (.keeps keeps_discoverWorkspace) fun ws σ₁ => ?_
  refine .bind (.keeps keeps_lockForWrite) fun _ σ₂ => ?_
  refine .bind (.keeps keeps_openLog) fun _ σ₃ => ?_
  refine .bind (.inDirectory _ fun copy => ?_) fun _ σ₄ => .pure _
  exact .get (.onRepo (leads_snapNow ws copy opts))

/-- A restore stays aside from the changes. -/
theorem leads_restoreOn (inv : Invocation) (targetSnapshot currentSnapshot : H)
    (opts : RestoreOptions) :
    SiteM.Leads World.Aside (restoreOn fs inv targetSnapshot currentSnapshot opts) σ := by
  refine .bind (.keeps keeps_discoverWorkspace) fun ws σ₁ => ?_
  refine .bind (.keeps keeps_lockForWrite) fun _ σ₂ => ?_
  exact .bind (.inDirectory _ fun copy => leads_restoreTreeInto ..) fun _ σ₃ => .pure _

/-- A step that is not a snapshot stays aside from the changes. -/
theorem WorkAction.leads_aside (action : WorkAction H)
    (hsnap : ∀ inv opts, action ≠ .snap inv opts) :
    SiteM.Leads World.Aside (action.perform fs) σ := by
  cases action with
  | wtMake inv name atPath identity =>
    exact .bind (leads_cmdWtMakeOn inv name atPath identity) fun _ _ => .pure _
  | edit disk => exact .bind (.onDisk _) fun _ _ => .pure _
  | snap inv opts => exact absurd rfl (hsnap inv opts)
  | restore inv targetSnapshot currentSnapshot opts =>
    exact .bind (leads_restoreOn inv targetSnapshot currentSnapshot opts) fun _ _ => .pure _

/-- Every step leads onward. -/
theorem WorkAction.leads (action : WorkAction H) :
    SiteM.Leads World.Onward (action.perform fs) σ := by
  by_cases hsnap : ∃ inv opts, action = .snap inv opts
  · obtain ⟨inv, opts, rfl⟩ := hsnap
    exact .bind (leads_snapOn inv opts) fun _ _ => .pure _
  · exact (action.leads_aside fun inv opts h => hsnap ⟨inv, opts, h⟩).mono World.Aside.toOnward

/-- A step only adds objects. -/
theorem WorkAction.onlyAdds (action : WorkAction H) : SiteM.OnlyAdds (action.perform fs) σ :=
  action.leads.mono World.Onward.toGrows

theorem WorkEvent.grows (fs : FileSystem) (e : WorkEvent H) :
    e.before.world.Grows (e.after fs).world := by
  have h : Post (e.action.perform fs) e.before (fun _ σ' => e.before.world.Grows σ'.world)
      (fun _ σ' => e.before.world.Grows σ'.world) := e.action.onlyAdds
  exact h.final

end Leads

/-- **What was stored** after a step is stored in every later state of the run, and objects are
intact throughout. -/
theorem WorkRun.grows {fs : FileSystem} {es : List (WorkEvent H)} {σ : Site H}
    (h : WorkRun fs es σ) : σ.world.repo.objects.Intact ∧ ∀ e ∈ es,
      e.before.world.repo.objects.Intact ∧ (e.after fs).world.Grows σ.world := by
  induction h with
  | start σ hi => exact ⟨hi, fun e he => absurd he List.not_mem_nil⟩
  | @step es σ hrun action ih =>
    obtain ⟨hi, hall⟩ := ih
    have hgrows := WorkEvent.grows fs ⟨σ, action⟩
    refine ⟨hgrows.intact hi, fun e he => ?_⟩
    rcases List.mem_cons.mp he with rfl | he
    · exact ⟨hi, .refl _⟩
    · exact ⟨(hall e he).1, (hall e he).2.trans hgrows⟩

end Tig
