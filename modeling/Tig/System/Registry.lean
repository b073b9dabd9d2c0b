import Tig.Cli.Drops
import Tig.System.Run

set_option relaxedAutoImplicit false
set_option autoImplicit false

/-!
# The registry of workspaces

Workspaces are made and dropped, new changes are begun in them, and all of that is undone, in any
order. `tig wt make` looks neither at the names nor at the locations in the registry.

## Main definitions

* `Tig.RegistryRun` — the states that such runs reach.
* `Tig.Refs.Apart` — no two manifests have the same name or the same location.
* `Tig.Operation.TakesFree` — a workspace is made under a name and at a location that are free.

## Main results

* `Tig.RegistryRun.apart` — **when only free names and locations are taken**, manifests stay apart.
-/

namespace Tig

open Program

variable {H : Type} [LinearOrder H] [Format H]

/-! ## What manifests a program leaves -/

/-- Every manifest in the registry is one of `S`. -/
def World.Listed (S : WorkspaceManifest → Prop) (w : World H) : Prop :=
  ∀ id m, w.repo.refs.workspaces.lookup id = some m → S m.1

/-- A program leaves no manifests but those of `S`, whether or not it fails. -/
def Lists {α : Type} (S : WorkspaceManifest → Prop) (x : RepoM H α) (w : World H) : Prop :=
  Post x w (fun _ w' => w'.Listed S) (fun _ w' => w'.Listed S)

section Lists

variable {α β : Type} {S : WorkspaceManifest → Prop} {w w' : World H} {P : α → World H → Prop}

theorem World.Listed.kept (h : w.Listed S) (hk : w.Kept w') : w'.Listed S := by
  intro id m hm
  rw [hk.refs] at hm
  exact h id m hm

omit [LinearOrder H] [Format H] in
theorem Lists.bind {x : RepoM H α} {f : α → RepoM H β} (hx : Lists S x w)
    (hf : ∀ a w₁, w₁.Listed S → Lists S (f a) w₁) : Lists S (x >>= f) w := by
  unfold Lists
  rw [post_bind]
  exact Post.mono hx (fun a w₁ h => hf a w₁ h) (fun _ _ h => h)

/-- What keeps the refs lists what is listed. -/
theorem Lists.of_keeps_bind {x : RepoM H α} {f : α → RepoM H β} (h : w.Listed S)
    (hx : Keeps x w P)
    (hf : ∀ a w₁, w.Kept w₁ → w₁.Listed S → P a w₁ → Lists S (f a) w₁) : Lists S (x >>= f) w := by
  unfold Lists
  rw [post_bind]
  exact Post.mono hx (fun a w₁ hk => hf a w₁ hk.1 (h.kept hk.1) hk.2) (fun _ _ hk => h.kept hk)

omit [LinearOrder H] [Format H]

theorem Lists.pure {a : α} (h : w.Listed S) : Lists S (Pure.pure a : RepoM H α) w := h

theorem Lists.throw {e : Error} (h : w.Listed S) : Lists S (throw e : RepoM H α) w := h

/-- Writing a ref adds a manifest at most. -/
theorem lists_writeRef {e : RefSnapshot H} (h : w.Listed S)
    (he : ∀ id m, e = .workspace id (some m) → S m.1) : Lists S (writeRef e) w := by
  refine post_writeRef.mpr ⟨fun _ => fun id m hm => ?_, fun _ _ => h⟩
  change (w.repo.refs.write e).workspaces.lookup id = some m at hm
  have hread : (w.repo.refs.write e).read (.workspace id) = .workspace id (some m) := by
    rw [Refs.read, hm]
  by_cases hkey : RefKey.workspace id = e.key
  · rw [hkey, Refs.read_write] at hread
    exact he id m hread
  · rw [Refs.read_write_of_ne _ _ _ hkey, Refs.read] at hread
    simp only [RefSnapshot.workspace.injEq, heq_eq_eq, true_and] at hread
    exact h id m hread

/-- Appending a record leaves the manifests as they are. -/
theorem lists_appendOp {op : OpInProgress H} (h : w.Listed S) : Lists S (appendOp op) w :=
  post_appendOp.mpr ⟨fun _ => ⟨fun _ => h, fun _ _ => h⟩, fun _ _ => h⟩

end Lists

/-! ## What the commands leave -/

/-- A manifest has the name and the location of the registered one. -/
def Refs.Knows (r : Refs H) (m : WorkspaceManifest) : Prop :=
  ∃ old, r.workspaces.lookup m.id = some old ∧ old.1.name = m.name ∧ old.1.location = m.location

section Commands

variable {S : WorkspaceManifest → Prop} {w : World H} {ws : Workspace} {principal : PrincipalId}

omit [LinearOrder H] [Format H] in
theorem World.listed_knows (w : World H) : w.Listed w.repo.refs.Knows := by
  rintro id ⟨m, rfl⟩ hm
  exact ⟨_, hm, rfl, rfl⟩

/-- A new change moves the manifest of the workspace, and leaves name and location. -/
theorem lists_lockedChangeNew {description : String} (h : w.Listed S)
    (hws : ∀ m, ws.kind = .secondary m → ∀ id, S { m with changeId := id }) :
    Lists S (lockedChangeNew ws principal description) w := by
  refine Lists.of_keeps_bind h keeps_lockForWrite fun _ w₁ _ h₁ _ => ?_
  refine Lists.of_keeps_bind h₁ keeps_openLog fun _ w₂ _ h₂ _ => ?_
  refine Lists.of_keeps_bind h₂ keeps_startingSnapshot fun current w₃ _ h₃ _ => ?_
  refine Lists.of_keeps_bind h₃ keeps_newUlid fun id w₄ _ h₄ _ => ?_
  refine Lists.of_keeps_bind h₄ keeps_workspaceRefSnapshot_key fun before w₅ _ h₅ _ => ?_
  refine Lists.bind (lists_writeRef h₅ fun _ _ he => by cases he) fun _ w₆ h₆ => ?_
  refine Lists.bind ?_ fun _ w₇ h₇ => ?_
  · obtain ⟨_ | m, dir⟩ := ws
    · exact Lists.bind (lists_writeRef h₆ fun _ _ he => by cases he) fun _ w₇ h₇ => Lists.pure h₇
    · refine Lists.of_keeps_bind h₆ keeps_openWorkspaces fun _ w₇ _ h₇ _ => ?_
      refine Lists.bind (lists_writeRef h₇ fun id' m' he => ?_) fun _ w₈ h₈ => Lists.pure h₈
      cases he
      exact hws m rfl id
  refine Lists.of_keeps_bind h₇ keeps_workspaceRefSnapshot_key fun after w₈ _ h₈ _ => ?_
  exact Lists.bind (lists_appendOp h₈) fun _ w₉ h₉ => Lists.pure h₉

/-- Dropping a workspace adds no manifest. -/
theorem lists_lockedWtDrop {disk : Disk} {name : String} {keepFiles : Bool} (h : w.Listed S) :
    Lists S (lockedWtDrop disk ws principal name keepFiles) w := by
  refine Lists.of_keeps_bind h keeps_lockForWrite fun _ w₁ _ h₁ _ => ?_
  refine Lists.of_keeps_bind h₁ keeps_openWorkspaces fun _ w₂ _ h₂ _ => ?_
  refine Lists.of_keeps_bind h₂ keeps_findByName_eq fun found w₃ hk₃ h₃ hfound => ?_
  cases found with
  | none => exact Lists.throw h₃
  | some target =>
    dsimp only
    split
    · exact Lists.throw h₃
    refine Lists.of_keeps_bind h₃ keeps_removeFiles fun _ w₄ hk₄ h₄ _ => ?_
    have hmem : target.id ∈ w₄.repo.refs.workspaces := by
      rw [(hk₃.trans hk₄).refs]
      exact Finmap.mem_of_lookup_eq_some (Refs.findByName_eq_some hfound.symm).1
    refine Lists.bind ?_ fun _ w₅ h₅ => ?_
    · unfold Lists
      rw [post_deleteWorkspace hmem]
      exact lists_writeRef h₄ fun _ _ he => by cases he
    refine Lists.of_keeps_bind h₅ keeps_openLog fun _ w₆ _ h₆ _ => ?_
    exact Lists.bind (lists_appendOp h₆) fun _ w₇ h₇ => Lists.pure h₇

/-- The manifests that may be there after a workspace has been made. -/
def World.Made (S : WorkspaceManifest → Prop) (disk : Disk) (ws : Workspace) (name : String)
    (atPath : Option String) (w : World H) : Prop :=
  let dest := workspaceDest ws name atPath
  w.Listed S ∨ disk.present dest = false ∧ ∃ new, w.Listed fun m =>
    S m ∨ m.id = new ∧ m.name = name ∧ m.location = (disk.canonicalize dest).getD dest

/-- Making a workspace adds one manifest. -/
theorem lists_lockedWtMake {disk : Disk} {name : String} {atPath : Option String}
    {identity : Except Error (Option UnsealFn)} (h : w.Listed S) :
    Post (lockedWtMake disk ws principal name atPath identity) w
      (fun _ w' => w'.Made S disk ws name atPath) (fun _ w' => w'.Made S disk ws name atPath) := by
  have hfirst : ∀ {α β : Type} {x : RepoM H α} {f : α → RepoM H β} {w : World H}
      {P : α → World H → Prop}, w.Listed S → Keeps x w P →
      (∀ a w₁, w.Kept w₁ → w₁.Listed S → P a w₁ → Post (f a) w₁
        (fun _ w' => w'.Made S disk ws name atPath) (fun _ w' => w'.Made S disk ws name atPath)) →
      Post (x >>= f) w (fun _ w' => w'.Made S disk ws name atPath)
        (fun _ w' => w'.Made S disk ws name atPath) := by
    intro α β x f w P h hx hf
    rw [post_bind]
    exact Post.mono hx (fun a w₁ hk => hf a w₁ hk.1 (h.kept hk.1) hk.2)
      (fun _ _ hk => .inl (h.kept hk))
  refine hfirst h keeps_lockForWrite fun _ w₁ _ h₁ _ => ?_
  refine hfirst h₁ keeps_sourceChangeOf_current fun sourceChange w₂ _ h₂ _ => ?_
  dsimp only
  split
  · exact .inl h₂
  rename_i hfree
  refine hfirst h₂ (keeps_step (k := .registryRead) (by simp [FsStep.Mutates]))
    fun _ w₃ _ h₃ _ => ?_
  refine hfirst h₃ (Keeps.fromExcept (P := fun _ _ => True) fun _ _ => trivial)
    fun unsealer w₄ _ h₄ _ => ?_
  refine hfirst h₄ keeps_placeFiles fun _ w₅ _ h₅ _ => ?_
  refine hfirst h₅ keeps_newUlid fun id w₆ _ h₆ _ => ?_
  refine hfirst h₆ keeps_currentTimestampNs fun now w₇ _ h₇ _ => ?_
  -- from here on one more manifest may be there
  let dest := workspaceDest ws name atPath
  let S' : WorkspaceManifest → Prop := fun m =>
    S m ∨ m.id = id ∧ m.name = name ∧ m.location = (disk.canonicalize dest).getD dest
  have h₇' : w₇.Listed S' := fun k m hm => .inl (h₇ k m hm)
  have hmade : ∀ {w' : World H}, w'.Listed S' → w'.Made S disk ws name atPath := fun h =>
    .inr ⟨Bool.eq_false_iff.mpr hfree, id, h⟩
  suffices Lists S' _ w₇ from Post.mono this (fun _ _ h => hmade h) (fun _ _ h => hmade h)
  refine Lists.of_keeps_bind h₇' keeps_openWorkspaces fun _ w₈ _ h₈ _ => ?_
  refine Lists.bind (lists_writeRef h₈ fun k m he => ?_) fun _ w₉ h₉ => ?_
  · cases he
    exact .inr ⟨rfl, rfl, rfl⟩
  refine Lists.of_keeps_bind h₉ keeps_workdirStep fun _ w₁₀ _ h₁₀ _ => ?_
  refine Lists.of_keeps_bind h₁₀ keeps_openLog fun _ w₁₁ _ h₁₁ _ => ?_
  exact Lists.bind (lists_appendOp h₁₁) fun _ w₁₂ h₁₂ => Lists.pure h₁₂

end Commands

/-! ## Manifests that are apart -/

/-- No two manifests have the same name, and no two the same location. -/
structure Refs.Apart (r : Refs H) : Prop where
  name : ∀ id id' m m', r.workspaces.lookup id = some m → r.workspaces.lookup id' = some m' →
    m.1.name = m'.1.name → id = id'
  location : ∀ id id' m m', r.workspaces.lookup id = some m → r.workspaces.lookup id' = some m' →
    m.1.location = m'.1.location → id = id'

/-- Neither the name nor the location is taken. -/
def Refs.Free (r : Refs H) (name location : String) : Prop :=
  ∀ id m, r.workspaces.lookup id = some m → m.1.name ≠ name ∧ m.1.location ≠ location

section Apart

variable {r : Refs H} {w : World H}

omit [LinearOrder H] [Format H]

theorem Refs.apart_empty : (Refs.empty : Refs H).Apart := by
  constructor
  · intro id id' m m' hm
    cases hm
  · intro id id' m m' hm
    cases hm

/-- Manifests that are known, apart from a new one whose name and location are free. -/
theorem Refs.Apart.of_listed (h : r.Apart) {new : WorkspaceId} {name location : String}
    (hfree : r.Free name location)
    (hw : w.Listed fun m => r.Knows m ∨ m.id = new ∧ m.name = name ∧ m.location = location) :
    w.repo.refs.Apart := by
  constructor
  · rintro id id' ⟨m, rfl⟩ ⟨m', rfl⟩ hm hm' heq
    rcases hw _ _ hm with ⟨old, hold, hn, -⟩ | ⟨hid, hn, -⟩ <;>
      rcases hw _ _ hm' with ⟨old', hold', hn', -⟩ | ⟨hid', hn', -⟩
    · exact h.name _ _ old old' hold hold' (by rw [hn, hn', heq])
    · exact absurd (by rw [hn, heq, hn']) (hfree _ old hold).1
    · exact absurd (by rw [hn', ← heq, hn]) (hfree _ old' hold').1
    · exact hid.trans hid'.symm
  · rintro id id' ⟨m, rfl⟩ ⟨m', rfl⟩ hm hm' heq
    rcases hw _ _ hm with ⟨old, hold, -, hl⟩ | ⟨hid, -, hl⟩ <;>
      rcases hw _ _ hm' with ⟨old', hold', -, hl'⟩ | ⟨hid', -, hl'⟩
    · exact h.location _ _ old old' hold hold' (by rw [hl, hl', heq])
    · exact absurd (by rw [hl, heq, hl']) (hfree _ old hold).2
    · exact absurd (by rw [hl', ← heq, hl]) (hfree _ old' hold').2
    · exact hid.trans hid'.symm

/-- Manifests that are known. -/
theorem Refs.Apart.of_known (h : r.Apart) (hw : w.Listed r.Knows) : w.repo.refs.Apart := by
  constructor
  · rintro id id' ⟨m, rfl⟩ ⟨m', rfl⟩ hm hm' heq
    obtain ⟨old, hold, hn, -⟩ := hw _ _ hm
    obtain ⟨old', hold', hn', -⟩ := hw _ _ hm'
    exact h.name _ _ old old' hold hold' (by rw [hn, hn', heq])
  · rintro id id' ⟨m, rfl⟩ ⟨m', rfl⟩ hm hm' heq
    obtain ⟨old, hold, -, hl⟩ := hw _ _ hm
    obtain ⟨old', hold', -, hl'⟩ := hw _ _ hm'
    exact h.location _ _ old old' hold hold' (by rw [hl, hl', heq])

end Apart

/-! ## Runs -/

/-- The operations of the runs: snapshots, new changes, and the making and dropping of workspaces. -/
def Operation.OnRegistry : Operation H → Prop
  | .cmdSnap _ _ _ | .cmdChangeNew _ _ | .cmdWtMake _ _ _ _ _ | .cmdWtDrop _ _ _ _ => True
  | _ => False

/-- A workspace that is made, and not refused because its destination exists, takes a free name and a
free location. -/
def Operation.TakesFree (w : World H) : Operation H → Prop
  | .cmdWtMake disk inv name atPath _ => ∀ source w',
      discoverWorkspace inv.repoWorkdir inv.place w = .ok source w' →
        let dest := workspaceDest source name atPath
        disk.present dest = false → w.repo.refs.Free name ((disk.canonicalize dest).getD dest)
  | _ => True

/-- The states that runs reach whose operations meet a condition, with what is not undone. -/
inductive RegistryRun (ok : World H → Operation H → Prop) : World H → UndoStack H → Prop
  | start (w : World H) (hrepo : w.repo = Repo.empty) (hrel : w.env.Reliable)
      (hfresh : Function.Injective w.env.ulid) : RegistryRun ok w []
  | operation {w : World H} {σ : UndoStack H} (h : RegistryRun ok w σ) (log : FileLog)
      (op : Operation H) (hop : op.OnRegistry) (hok : ok { w with log := log } op) :
      RegistryRun ok (op.effect { w with log := log }) (σ.after w (op.effect { w with log := log }))
  | undo {w : World H} {σ : UndoStack H} (h : RegistryRun ok w σ) (log : FileLog)
      (actor : PrincipalId) : RegistryRun ok (final (undoOnce actor) { w with log := log }) σ.tail
  | gc {w : World H} {σ : UndoStack H} (h : RegistryRun ok w σ) (log : FileLog) :
      RegistryRun ok (final (collectGarbage .default) { w with log := log }) σ

section Runs

variable {ok : World H → Operation H → Prop} {w : World H} {σ : UndoStack H}

/-- They are runs. -/
theorem RegistryRun.run (h : RegistryRun ok w σ) : Run w σ := by
  induction h with
  | start w hrepo hrel hfresh => exact .start w hrepo hrel hfresh
  | operation _ log op _ _ ih => exact ih.operation log op
  | undo _ log actor ih => exact ih.undo log actor
  | gc _ log ih => exact ih.gc log

/-- An operation touches some refs. -/
theorem Operation.OnRegistry.touched {op : Operation H} (hop : op.OnRegistry) (h : w.IdsKnown) :
    w.Touched (fun _ => True) (op.effect w) := by
  have hcommand : ∀ {α : Type} {inv : Invocation} {x : Workspace → RepoM H α}
      {P : Workspace → World H → α → World H → Prop},
      (∀ ws w₁, w.Kept w₁ → w₁.IdsKnown → ws.UpToDate w.repo.refs →
        Touches (fun _ => True) (x ws) w₁ (P ws w₁)) →
      w.Touched (fun _ => True) (final (discoverWorkspace inv.repoWorkdir inv.place >>= x) w) := by
    intro α inv x P hx
    have ht : Touches (fun _ => True) (discoverWorkspace inv.repoWorkdir inv.place >>= x) w
        fun _ _ => True :=
      Touches.of_keeps_bind h keeps_discoverWorkspace fun ws w₁ hk h₁ hws =>
        (hx ws w₁ hk h₁ hws).mono (fun _ h => h) fun _ _ _ _ => trivial
    exact (Post.mono ht (fun _ _ h => h.1) (fun _ _ h => h)).final
  have hgave : ∀ {ws : Workspace} {w₁ : World H}, w.Kept w₁ → ws.UpToDate w.repo.refs →
      ∀ id, ws.key = .workspace id → w₁.Gave id := fun hk hws id hid =>
    (hws.gave h hid).mono hk.env hk.idsLe
  cases op with
  | cmdSnap inv copy message =>
    refine hcommand (P := fun _ _ _ _ => True) fun ws w₁ hk₁ h₁ hws => ?_
    refine Touches.of_keeps_bind h₁ keeps_lockForWrite fun _ w₂ hk₂ h₂ _ => ?_
    refine Touches.of_keeps_bind h₂ keeps_openLog fun _ w₃ hk₃ h₃ _ => ?_
    exact (touches_lockedSnap (W := fun _ => True) h₃ (hgave ((hk₁.trans hk₂).trans hk₃) hws)
      fun _ _ _ => trivial).mono (fun _ h => h) fun _ _ _ _ => trivial
  | cmdChangeNew inv description =>
    rw [Operation.effect, cmdChangeNew_eq]
    apply hcommand
    intro ws w₁ hk₁ h₁ hws
    exact touches_lockedChangeNew h₁ (hgave hk₁ hws) (fun _ _ => trivial) trivial
  | cmdWtMake disk inv name atPath identity =>
    rw [Operation.effect]
    by_cases hname : isValidWorkspaceName name = true
    · rw [cmdWtMake_eq disk inv atPath identity hname]
      apply hcommand
      intro ws w₁ _ h₁ _
      exact touches_lockedWtMake h₁ fun _ _ => trivial
    · rw [Tig.cmdWtMake, if_pos (Bool.eq_false_iff.mpr hname)]
      exact World.Touched.refl h
  | cmdWtDrop disk inv name keepFiles =>
    rw [Operation.effect, cmdWtDrop_eq]
    apply hcommand
    intro ws w₁ _ h₁ _
    exact touches_lockedWtDrop h₁ fun _ _ => trivial
  | _ => exact hop.elim

/-- The ids of workspaces have come from the generator. -/
theorem RegistryRun.idsKnown (h : RegistryRun ok w σ) : w.IdsKnown := by
  induction h with
  | start w hrepo hrel hfresh =>
    refine ⟨fun id hid => ?_, fun op hop => ?_⟩
    · rw [hrepo] at hid
      exact absurd hid Finmap.notMem_empty
    · rw [hrepo] at hop
      cases hop
  | @operation w _ _ log op hop _ ih =>
    have hlog : World.IdsKnown { w with log := log } := ⟨ih.refs, ih.log⟩
    exact (hop.touched hlog).known
  | @undo w _ _ log actor ih =>
    have hlog : World.IdsKnown { w with log := log } := ⟨ih.refs, ih.log⟩
    exact (Post.mono (touches_undoOnce hlog) (fun _ _ h => h.1.known) (fun _ _ h => h.known)).final
  | @gc w _ _ log ih =>
    have hs := (collectGarbage_collected (w := { w with log := log }) .default).final.toSameRefs
    refine ⟨fun id hid => ?_, fun op hop e he id hid => ?_⟩
    · rw [hs.refs] at hid
      exact World.Gave.mono (ih.refs id hid) hs.env hs.ids
    · rw [hs.oplog] at hop
      exact World.Gave.mono (ih.log op hop e he id hid) hs.env hs.ids

/-- Manifests stay apart in an operation that takes what is free. -/
theorem Operation.OnRegistry.apart {op : Operation H} (hop : op.OnRegistry) (hok : op.TakesFree w)
    (h : w.IdsKnown) (hr : w.repo.refs.Apart) : (op.effect w).repo.refs.Apart := by
  have hlisted := w.listed_knows
  cases op with
  | cmdSnap inv copy message =>
    have ht : Touches (fun k => ∀ id, k ≠ .workspace id) (Tig.cmdSnap inv copy message) w
        fun _ _ => True := by
      refine Touches.of_keeps_bind h keeps_discoverWorkspace fun ws w₁ hk₁ h₁ hws => ?_
      refine Touches.of_keeps_bind h₁ keeps_lockForWrite fun _ w₂ hk₂ h₂ _ => ?_
      refine Touches.of_keeps_bind h₂ keeps_openLog fun _ w₃ hk₃ h₃ _ => ?_
      refine (touches_lockedSnap h₃ (fun id hid => ?_) fun k hk _ => hk).mono (fun _ h => h)
        fun _ _ _ _ => trivial
      have hk := (hk₁.trans hk₂).trans hk₃
      exact (hws.gave h hid).mono hk.env hk.idsLe
    have hfinal : w.Touched (fun k => ∀ id, k ≠ .workspace id)
        (final (Tig.cmdSnap inv copy message) w) :=
      (Post.mono ht (fun _ _ h => h.1) (fun _ _ h => h)).final
    refine hr.of_known fun id m hm => ?_
    change (final (Tig.cmdSnap inv copy message) w).repo.refs.workspaces.lookup id = some m at hm
    rw [hfinal.workspace fun hne => hne id rfl] at hm
    exact hlisted id m hm
  | cmdChangeNew inv description =>
    have hl : Lists w.repo.refs.Knows (Tig.cmdChangeNew inv description) w := by
      refine Lists.of_keeps_bind hlisted keeps_discoverWorkspace fun ws w₁ _ h₁ hws => ?_
      refine lists_lockedChangeNew h₁ fun m hm id => ?_
      obtain ⟨_ | m', dir⟩ := ws
      · cases hm
      · cases hm
        exact ⟨_, hws, rfl, rfl⟩
    exact hr.of_known (Post.final hl)
  | cmdWtMake disk inv name atPath identity =>
    rw [Operation.effect]
    by_cases hname : isValidWorkspaceName name = true
    · rw [cmdWtMake_eq disk inv atPath identity hname]
      have hmade : Post (discoverWorkspace inv.repoWorkdir inv.place >>= fun source =>
          lockedWtMake disk source inv.principal name atPath identity) w
          (fun _ w' => w'.repo.refs.Apart) (fun _ w' => w'.repo.refs.Apart) := by
        rw [post_bind]
        refine .of_cases (fun source w₁ hsource => ?_) (fun e w₁ hsource => ?_)
        · have hk₁ : w.Kept w₁ := (keeps_discoverWorkspace.ok hsource).1
          have hapart : ∀ {w' : World H}, w'.Made w.repo.refs.Knows disk source name atPath →
              w'.repo.refs.Apart := by
            rintro w' (hknown | ⟨hfree, new, hnew⟩)
            · exact hr.of_known hknown
            · exact hr.of_listed (hok source w₁ hsource hfree) hnew
          exact Post.mono (lists_lockedWtMake (hlisted.kept hk₁)) (fun _ _ h => hapart h)
            (fun _ _ h => hapart h)
        · have hk₁ : w.Kept w₁ := Post.error keeps_discoverWorkspace hsource
          rw [hk₁.refs]
          exact hr
      exact hmade.final
    · rw [Tig.cmdWtMake, if_pos (Bool.eq_false_iff.mpr hname)]
      exact hr
  | cmdWtDrop disk inv name keepFiles =>
    have hl : Lists w.repo.refs.Knows (Tig.cmdWtDrop disk inv name keepFiles) w := by
      rw [cmdWtDrop_eq]
      exact Lists.of_keeps_bind hlisted keeps_discoverWorkspace fun ws w₁ _ h₁ _ =>
        lists_lockedWtDrop h₁
    exact hr.of_known (Post.final hl)
  | _ => exact hop.elim

/-- **When only free names and locations are taken**, manifests stay apart, and so they are in the
refs that undoing goes back to. -/
theorem RegistryRun.apart (h : RegistryRun Operation.TakesFree w σ) :
    w.repo.refs.Apart ∧ ∀ p ∈ σ, p.2.Apart := by
  induction h with
  | start w hrepo hrel hfresh =>
    rw [hrepo]
    exact ⟨Refs.apart_empty, fun p hp => by cases hp⟩
  | @operation w σ h log op hop hok ih =>
    obtain ⟨hr, hpast⟩ := ih
    have hknown : World.IdsKnown { w with log := log } := ⟨h.idsKnown.refs, h.idsKnown.log⟩
    refine ⟨hop.apart hok hknown hr, fun p hp => ?_⟩
    rw [UndoStack.after] at hp
    split at hp
    · exact hpast p hp
    · rcases List.mem_cons.mp hp with rfl | hp
      · exact hr
      · exact hpast p hp
  | @undo w σ h log actor ih =>
    obtain ⟨hr, hpast⟩ := ih
    -- an undo goes back to the refs on top of the stack
    have hchronicle := h.run.chronicle.withLog log
    obtain ⟨out, w', hrun, hout⟩ := hchronicle.undoOnce_returns actor
    rw [final, hrun]
    rcases hout with ⟨-, rfl, hq⟩ | ⟨o, i, r, rest, -, rfl, hi, hu, hb, ha, hcom⟩
    · refine ⟨?_, hpast⟩
      rw [hq.kept.refs]
      exact hr
    · rw [(hchronicle.undone hi hu hb ha hcom).2.1]
      exact ⟨hpast _ List.mem_cons_self, fun p hp => hpast p (List.mem_cons_of_mem _ hp)⟩
  | @gc w σ h log ih =>
    have hs := (collectGarbage_collected (w := { w with log := log }) .default).final.toSameRefs
    rw [hs.refs]
    exact ih

end Runs

end Tig
