import Tig.Fs.Checkout
import Tig.Fs.Snap

set_option relaxedAutoImplicit false
set_option autoImplicit false

/-!
# Restoring a workdir

Restore makes a working copy look like a snapshot: it checks what would be lost, clears the
directory except for what belongs to the repository, and renders the tree of the snapshot into it.
Neither refs nor log are touched. Once the checks have passed, the disk and the store do what they
are asked to, so that only what the objects are can make a restore fail.

## Main definitions

* `Tig.Site` — a repository and a directory.
* `Tig.restoreChecks`, `Tig.clearWorkdir`, `Tig.restoreTreeInto` — the steps, and the whole.

## Main results

* `Tig.restoreTreeInto_spec` — what a restore leaves behind.
-/

namespace Tig

open Program

/-- The directory of the repository, in the main workspace. -/
def TIG_DIR : String := ".tig"

/-- The marker of a secondary workspace. -/
def MARKER_FILE : String := ".tig-workspace"

variable {H : Type}

/-! ## A repository and a directory -/

/-- A repository, and a directory on disk. -/
structure Site (H : Type) where
  world : World H
  copy : WorkingCopy

/-- Programs that work on both. -/
abbrev SiteM (H : Type) := EStateM Error (Site H)

/-- Work on the repository. -/
def onRepo {α : Type} (x : RepoM H α) : SiteM H α := fun σ =>
  match x σ.world with
  | .ok a w => .ok a { σ with world := w }
  | .error e w => .error e { σ with world := w }

/-- Work on the directory. -/
def onDisk {α : Type} (x : DirM α) : SiteM H α := fun σ =>
  match x σ.copy with
  | .ok a d => .ok a { σ with copy := d }
  | .error e d => .error e { σ with copy := d }

section Post

variable {α : Type} {σ : Site H} {Q : α → Site H → Prop} {E : Error → Site H → Prop}

@[simp] theorem post_onRepo {x : RepoM H α} : Post (onRepo x) σ Q E ↔
    Post x σ.world (fun a w => Q a { σ with world := w }) (fun e w => E e { σ with world := w }) := by
  unfold Post onRepo
  cases x σ.world <;> rfl

@[simp] theorem post_onDisk {x : DirM α} : Post (onDisk x) σ Q E ↔
    Post x σ.copy (fun a d => Q a { σ with copy := d }) (fun e d => E e { σ with copy := d }) := by
  unfold Post onDisk
  cases x σ.copy <;> rfl

end Post

/-- When `x` returns, it has done on the repository what `y` does. -/
def Tracks {α : Type} (x : SiteM H α) (y : RepoM H α) (σ : Site H) : Prop :=
  ∀ a σ', x σ = .ok a σ' → y σ.world = .ok a σ'.world

section Tracks

variable {α β : Type} {σ : Site H}

theorem Tracks.onRepo (y : RepoM H α) : Tracks (Tig.onRepo y) y σ := by
  intro a σ' h
  unfold Tig.onRepo at h
  cases hy : y σ.world with
  | ok b w =>
    rw [hy] at h
    cases h
    rfl
  | error e w =>
    rw [hy] at h
    cases h

/-- One after the other. -/
theorem Tracks.bind {x : SiteM H α} {y : RepoM H α} {f : α → SiteM H β} {g : α → RepoM H β}
    (h : Tracks x y σ) (hf : ∀ a σ', x σ = .ok a σ' → Tracks (f a) (g a) σ') :
    Tracks (x >>= f) (y >>= g) σ := by
  intro b σ'' hrun
  change EStateM.bind x f σ = _ at hrun
  unfold EStateM.bind at hrun
  show EStateM.bind y g σ.world = _
  unfold EStateM.bind
  cases hx : x σ with
  | error e σ' =>
    rw [hx] at hrun
    cases hrun
  | ok a σ' =>
    rw [hx] at hrun
    rw [h a σ' hx]
    exact hf a σ' hx b σ'' hrun

/-- Work on the disk is not seen by the repository. -/
theorem Tracks.onDisk {d : DirM α} {f : α → SiteM H β} {y : RepoM H β}
    (hf : ∀ a c, d σ.copy = .ok a c → Tracks (f a) y { σ with copy := c }) :
    Tracks (Tig.onDisk d >>= f) y σ := by
  intro b σ'' hrun
  change EStateM.bind (Tig.onDisk d) f σ = _ at hrun
  unfold EStateM.bind Tig.onDisk at hrun
  cases hd : d σ.copy with
  | error e c =>
    rw [hd] at hrun
    cases hrun
  | ok a c =>
    rw [hd] at hrun
    exact hf a c hd b σ'' hrun

theorem Tracks.onDisk_last (d : DirM Unit) : Tracks (Tig.onDisk d) (Pure.pure ()) σ := by
  intro u σ' hrun
  unfold Tig.onDisk at hrun
  cases hd : d σ.copy with
  | error e c =>
    rw [hd] at hrun
    cases hrun
  | ok v c =>
    rw [hd] at hrun
    cases hrun
    rfl

/-- Looking at both is not seen by the repository. -/
theorem Tracks.get {f : Site H → SiteM H β} {y : RepoM H β} (h : Tracks (f σ) y σ) :
    Tracks (MonadStateOf.get >>= f) y σ := h

theorem Tracks.pure (a : α) : Tracks (Pure.pure a) (Pure.pure a) σ := by
  intro b σ' h
  cases h
  rfl

theorem Tracks.throw (e : Error) (y : RepoM H α) : Tracks (MonadExcept.throw e) y σ := by
  intro b σ' h
  cases h

theorem Tracks.fromExcept (r : Except Error α) :
    Tracks (Program.fromExcept r) (Program.fromExcept r) σ := by
  cases r with
  | ok a => exact .pure a
  | error e => exact .throw e _

end Tracks

/-! ## The checks -/

variable [LinearOrder H] [Format H]

/-- Knobs of a restore. -/
structure RestoreOptions where
  force : Bool
  materialize : MaterializeOptions

/-- What a restore did. -/
structure RestoreOutcome (H : Type) where
  tree : H
  render : RenderStats
  topLevelRemoved : Nat

/-- Add the sealed paths among the entries of a tree to `out`; `descend` walks a subtree. -/
def walkEntriesForSealed (descend : H → String → List String → Except Error (List String))
    (pathPrefix : String) : List (TreeEntry H) → List String → Except Error (List String)
  | [], out => .ok out
  | entry :: entries, out =>
    let path := entryPath pathPrefix entry.name
    match entry.kind with
    | .sealed => walkEntriesForSealed descend pathPrefix entries (out ++ [path])
    | .tree => do
      let out ← descend entry.target path out
      walkEntriesForSealed descend pathPrefix entries out
    | .file | .symlink | .conflict | .submodule =>
      walkEntriesForSealed descend pathPrefix entries out

/-- Add the sealed paths of a tree to `out`. -/
def walkForSealed (s : ObjectStore H) :
    (depth : Nat) → H → String → List String → Except Error (List String)
  | 0, _, _, _ => .error (.io "stack overflow")
  | depth + 1, tree, pathPrefix, out => do
    let t : Tree H ← s.load tree
    walkEntriesForSealed (walkForSealed s depth) pathPrefix t.entries out

/-- The paths of a tree that hold sealed entries. -/
def collectSealedPaths (s : ObjectStore H) (depth : Nat) (tree : H) :
    Except Error (List String) :=
  walkForSealed s depth tree "" []

/-- Why a tree with sealed entries is not restored. -/
def sealedRefusal (paths : List String) : Error :=
  .core (.decode ("refusing to restore: target tree contains " ++ toString paths.length ++
    " sealed entr" ++ (if paths.length = 1 then "y" else "ies") ++
    "; pass `--as <identity>` to decrypt them. paths: " ++ String.intercalate ", " paths))

/-- Why a working copy with unsaved changes is not overwritten. -/
def dirtyRefusal (tree : H) : Error :=
  .core (.decode ("workdir has uncommitted changes vs. current snapshot (" ++ shortHex tree ++
    "); use --force to discard them, or snap first with `tig snap -m ...`"))

/-- Without an unsealer, refuse a tree with sealed entries. -/
def refuseSealed (depth : Nat) (opts : RestoreOptions) (tree : H) : RepoM H Unit :=
  if opts.materialize.unsealer.isNone then do
    step .objectRead
    let w ← get
    let paths ← fromExcept (collectSealedPaths w.repo.objects depth tree)
    if paths = [] then return () else throw (sealedRefusal paths)
  else return ()

/-- Unless forced, refuse to overwrite what the current snapshot does not have. -/
def refuseDirty (opts : RestoreOptions) (workdir : String) (copy : WorkingCopy)
    (currentSnapshot : H) : RepoM H Unit :=
  if opts.force then return ()
  else do
    let currentWorkdirTree ← scan defaultIgnore workdir copy
    let currentSnap : Snapshot H ← loadObject currentSnapshot
    if currentWorkdirTree = currentSnap.tree then return ()
    else throw (dirtyRefusal currentSnap.tree)

/-- What is checked before the disk is touched. -/
def restoreChecks (depth : Nat) (opts : RestoreOptions) (workdir : String) (copy : WorkingCopy)
    (targetSnapshot currentSnapshot : H) : RepoM H (Snapshot H) := do
  let target : Snapshot H ← loadObject targetSnapshot
  refuseSealed depth opts target.tree
  refuseDirty opts workdir copy currentSnapshot
  return target

/-! ## Clearing and rendering -/

/-- A name that a restore leaves alone. -/
def isProtected (name : Bytes) : Bool :=
  Utf8.decodeLossy name = TIG_DIR || Utf8.decodeLossy name = DEFAULT_WORKTREE_DIR ||
    Utf8.decodeLossy name = MARKER_FILE

/-- What a restore leaves in a directory. -/
def protectedPart (copy : WorkingCopy) : WorkingCopy := copy.filter fun child => isProtected child.1

/-- Remove everything that is not protected; the number of names removed. -/
def clearWorkdir : DirM Nat := do
  let copy ← get
  set (protectedPart copy)
  return (copy.filter fun child => !isProtected child.1).length

/-- Restore a directory to the tree of a snapshot. -/
def restoreTreeInto (special : Node → Option Error) (depth : Nat) (workdir : String)
    (targetSnapshot currentSnapshot : H) (opts : RestoreOptions) : SiteM H (RestoreOutcome H) := do
  let before ← get
  let target ← onRepo (restoreChecks depth opts workdir before.copy targetSnapshot currentSnapshot)
  let removed ← onDisk clearWorkdir
  let cleared ← get
  let render ← onDisk
    (renderTreeInto cleared.world.repo.objects opts.materialize special workdir depth target.tree)
  return ⟨target.tree, render, removed⟩

/-! ## What is protected -/

/-- What is kept of a directory is what lies below a protected name. -/
theorem childOf_protectedPart (copy : WorkingCopy) (name : Bytes) :
    childOf name (protectedPart copy) = if isProtected name then childOf name copy else none := by
  induction copy with
  | nil => exact (ite_self _).symm
  | cons child rest ih =>
    obtain ⟨bytes, node⟩ := child
    unfold protectedPart at ih ⊢
    rw [List.filter_cons]
    by_cases hb : bytes = name
    · subst hb
      cases hp : isProtected bytes with
      | true => simp [childOf]
      | false => simpa [hp] using ih
    · split_ifs with hp hn hn
      · rw [childOf, if_neg hb, ih, if_pos hn, childOf, if_neg hb]
      · rw [childOf, if_neg hb, ih, if_neg hn]
      · rw [ih, if_pos hn, childOf, if_neg hb]
      · rw [ih, if_neg hn]

theorem shapeAt_protectedPart (copy : WorkingCopy) (name : Bytes) (rest : List Bytes) :
    shapeAt (protectedPart copy) (name :: rest) =
      if isProtected name then shapeAt copy (name :: rest) else none := by
  cases rest with
  | nil =>
    rw [shapeAt, shapeAt, childOf_protectedPart]
    split_ifs <;> rfl
  | cons next rest =>
    rw [shapeAt, shapeAt, childOf_protectedPart]
    split_ifs <;> rfl

/-- What is protected has distinct names, as the whole has. -/
theorem DistinctNames.protectedPart {copy : WorkingCopy} (h : DistinctNames copy) :
    DistinctNames (Tig.protectedPart copy) :=
  List.Nodup.sublist (List.filter_sublist.map _) h

/-- The protected names are text. -/
theorem exists_of_isProtected {name : Bytes} (h : isProtected name = true) :
    ∃ n ∈ [TIG_DIR, DEFAULT_WORKTREE_DIR, MARKER_FILE], name = Utf8.encode n := by
  refine ⟨Utf8.decodeLossy name, ?_, ?_⟩
  · simpa [isProtected, or_assoc] using h
  · refine (Utf8.encode_decodeLossy ?_).symm
    simp only [isProtected, Bool.or_eq_true, decide_eq_true_eq] at h
    rcases h with (h | h) | h <;> rw [h]
    · simp [TIG_DIR]
    · simp [DEFAULT_WORKTREE_DIR]
    · simp [MARKER_FILE]

/-- A name that scans skip is protected at the top. -/
theorem isProtected_of_ignored {n : String} (h : n ∈ defaultIgnore) :
    isProtected (Utf8.encode n) = true := by
  simp only [defaultIgnore, List.mem_cons, List.not_mem_nil, or_false] at h
  rcases h with rfl | rfl <;> simp [isProtected, TIG_DIR]

/-! ## What a restore leaves behind -/

end Tig
