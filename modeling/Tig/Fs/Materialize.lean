import Tig.Lib.Program
import Tig.Lib.Utf8
import Tig.Store.Objects

set_option relaxedAutoImplicit false
set_option autoImplicit false

/-!
# Rendering a tree to disk

The render path of materialization walks a tree in the object store and writes what it finds.
What it does to the file system is modelled as the list of operations it issues, in order; the
part of the store it reads is what a snapshot needs in order to be rendered.

## Main definitions

* `Tig.renderTree`, `Tig.materializeChangeInto` — the walk.
* `Tig.TreeNeeds`, `Tig.Needs` — the objects that reading a tree, or a snapshot, needs.
* `Tig.SameTrees` — two stores have some trees in common.

## Main results

* `Tig.renderTree_congr` — a render depends on the objects it needs and on no others.
-/

namespace Tig

open Program

/-! ## The walk -/

/-- One operation on the file system, at the path got by joining the given components to the
destination. -/
inductive FsAction where
  | createDirAll (path : List String)
  | createDir (path : List String)
  | write (path : List String) (bytes : Bytes)
  | setExecutable (path : List String)
  | symlink (path : List String) (target : String)
deriving DecidableEq, Repr

/-- What to do with a sealed entry that cannot be decrypted. -/
inductive OnUnsealable where
  | error
  | skip
deriving DecidableEq, Repr

/-- Knobs of the render path. `unsealer` decrypts a sealed object under the given associated
data, or says why it cannot. -/
structure MaterializeOptions where
  unsealer : Option (Sealed → Bytes → Except String Bytes)
  onUnsealable : OnUnsealable

/-- How much was rendered. -/
structure RenderStats where
  files : Nat
  bytes : Nat
  sealedUnsealed : Nat
  sealedSkipped : Nat
deriving DecidableEq, Repr

/-- The state of a render: the operations issued so far, and the counts. -/
structure RenderState where
  actions : List FsAction
  stats : RenderStats
deriving DecidableEq, Repr

/-- Programs that render. -/
abbrev RenderM := EStateM Error RenderState

/-- Issue one operation. -/
def act (a : FsAction) : RenderM Unit := modify fun s => { s with actions := s.actions ++ [a] }

/-- Update the counts. -/
def count (f : RenderStats → RenderStats) : RenderM Unit :=
  modify fun s => { s with stats := f s.stats }

/-- The path of an entry inside its tree. -/
def entryPath (pathPrefix name : String) : String :=
  if pathPrefix = "" then name else pathPrefix ++ "/" ++ name

/-- The text of a path below `dst`. -/
def displayBelow (dst : String) (path : List String) : String :=
  path.foldl (fun p name => p ++ "/" ++ name) dst

section Render

variable {H : Type} [LinearOrder H] [Format H] (s : ObjectStore H) (opts : MaterializeOptions)
  (dst : String)

/-- Render one entry at `path`, whose tree path is `treePath`; `descend` renders a subtree. -/
def renderEntry (descend : H → List String → String → RenderM Unit) (path : List String)
    (treePath : String) (entry : TreeEntry H) : RenderM Unit :=
  match entry.kind with
  | .file => do
    let blob : Blob ← fromExcept (s.load entry.target)
    act (.write path blob.bytes)
    if entry.mode.isExecutable then
      act (.setExecutable path)
    count fun st => { st with files := st.files + 1, bytes := st.bytes + blob.bytes.length }
  | .tree => do
    act (.createDir path)
    descend entry.target path treePath
  | .symlink => do
    let blob : Blob ← fromExcept (s.load entry.target)
    match Utf8.decode blob.bytes with
    | some target => act (.symlink path target)
    | none => throw (.core (.decode "symlink target is not valid utf-8"))
  | .sealed =>
    match opts.unsealer with
    | none => throw (.unsupportedFileKind treePath ("sealed (no --as <identity> configured; " ++
        "pass an unsealer to materialize sealed entries)"))
    | some unsealer => do
      let sealed : Sealed ← fromExcept (s.load entry.target)
      match unsealer sealed (Utf8.encode treePath) with
      | .ok plaintext => do
        act (.write path plaintext)
        if entry.mode.isExecutable then
          act (.setExecutable path)
        count fun st => { st with
          sealedUnsealed := st.sealedUnsealed + 1, bytes := st.bytes + plaintext.length }
      | .error reason =>
        match opts.onUnsealable with
        | .error => throw (.unsupportedFileKind treePath
            ("sealed (decrypt failed: " ++ reason ++ ")"))
        | .skip => count fun st => { st with sealedSkipped := st.sealedSkipped + 1 }
  | .conflict | .submodule => throw (.unsupportedFileKind (displayBelow dst path)
      (entry.kind.toText ++ " (milestone 1 cannot materialize this kind)"))

/-- Render the entries of a tree, in order. -/
def renderEntries (descend : H → List String → String → RenderM Unit) (path : List String)
    (pathPrefix : String) : List (TreeEntry H) → RenderM Unit
  | [] => return ()
  | entry :: entries => do
    renderEntry s opts dst descend (path ++ [entry.name]) (entryPath pathPrefix entry.name) entry
    renderEntries descend path pathPrefix entries

/-- Render a tree below `path`. `depth` is how deep the recursion can go before the stack
overflows, which ends the process. -/
def renderTree : (depth : Nat) → H → List String → String → RenderM Unit
  | 0, _, _, _ => throw (.io "stack overflow")
  | depth + 1, tree, path, pathPrefix => do
    let t : Tree H ← fromExcept (s.load tree)
    renderEntries s opts dst (renderTree depth) path pathPrefix t.entries

/-- Materialize the tree of a snapshot into `dst`, which must not exist. -/
def materializeChangeInto (depth : Nat) (dstExists : Bool) (snapshot : H) : RenderM RenderStats := do
  if dstExists then
    throw (.io ("destination already exists: " ++ dst))
  act (.createDirAll [])
  let snap : Snapshot H ← fromExcept (s.load snapshot)
  renderTree s opts dst depth snap.tree [] ""
  let st ← get
  return st.stats

end Render

/-! ## What a render reads -/

section Needs

variable {H : Type} [LinearOrder H] [Format H] (s : ObjectStore H)

/-- The entries whose target is loaded as a leaf. -/
def EntryKind.isLoaded : EntryKind → Bool
  | .file | .sealed | .symlink => true
  | .tree | .conflict | .submodule => false

/-- `b` is a directory of the tree `a`. -/
def Subdir (a b : H) : Prop :=
  ∃ t : Tree H, s.load a = .ok t ∧ ∃ e ∈ t.entries, e.kind = .tree ∧ e.target = b

/-- `t` is the tree `root` or lies somewhere below it. -/
def Subtree : H → H → Prop := Relation.ReflTransGen (Subdir s)

/-- `h` is loaded as a leaf of the tree `a`. -/
def LeafOf (a h : H) : Prop :=
  ∃ t : Tree H, s.load a = .ok t ∧ ∃ e ∈ t.entries, e.kind.isLoaded = true ∧ e.target = h

/-- Reading the tree `root` to its leaves needs the object `h`. -/
def TreeNeeds (root h : H) : Prop := ∃ t, Subtree s root t ∧ (h = t ∨ LeafOf s t h)

/-- `p` is a parent of the snapshot `a`. -/
def ParentOf (a p : H) : Prop := ∃ snap : Snapshot H, s.load a = .ok snap ∧ p ∈ snap.parents

/-- `a` is the snapshot `root` or one of its ancestors. -/
def Ancestor : H → H → Prop := Relation.ReflTransGen (ParentOf s)

/-- `t` lies in the tree of the snapshot `root` or of one of its ancestors. -/
def TreeOf (root t : H) : Prop :=
  ∃ a, Ancestor s root a ∧ ∃ snap : Snapshot H, s.load a = .ok snap ∧ Subtree s snap.tree t

/-- Reading the snapshot `root`, its ancestors and their trees needs the object `h`. -/
def Needs (root h : H) : Prop :=
  Ancestor s root h ∨ ∃ t, TreeOf s root t ∧ (h = t ∨ LeafOf s t h)

variable {s}

theorem TreeNeeds.self (root : H) : TreeNeeds s root root := ⟨root, .refl, Or.inl rfl⟩

/-- What a directory needs is needed by the tree above it. -/
theorem TreeNeeds.of_subdir {a b h : H} (hab : Subdir s a b) (hb : TreeNeeds s b h) :
    TreeNeeds s a h := by
  obtain ⟨t, hbt, ht⟩ := hb
  exact ⟨t, Relation.ReflTransGen.head hab hbt, ht⟩

end Needs

/-- The stores have the trees of a set in common, with the files and the sealed objects in them, and
the set has the directories of its trees. -/
structure SameTrees {H : Type} [LinearOrder H] [Format H] (T : H → Prop) (s s' : ObjectStore H) :
    Prop where
  tree : ∀ t, T t → s.lookup t = s'.lookup t
  leaf : ∀ t, T t → ∀ tree : Tree H, s.load t = .ok tree → ∀ e ∈ tree.entries,
    e.kind = .file ∨ e.kind = .sealed → s.lookup e.target = s'.lookup e.target
  dir : ∀ t, T t → ∀ tree : Tree H, s.load t = .ok tree → ∀ e ∈ tree.entries, e.kind = .tree →
    T e.target

/-! ## Rendering from two stores -/

section Congr

variable {H : Type} [LinearOrder H] [Format H] {s s' : ObjectStore H} (opts : MaterializeOptions)
  (dst : String)

theorem renderEntries_congr {descend descend' : H → List String → String → RenderM Unit}
    {entries : List (TreeEntry H)} (path : List String) (pathPrefix : String)
    (hleaf : ∀ e ∈ entries, e.kind.isLoaded = true → s.lookup e.target = s'.lookup e.target)
    (hdir : ∀ e ∈ entries, e.kind = .tree → descend e.target = descend' e.target) :
    renderEntries s opts dst descend path pathPrefix entries =
      renderEntries s' opts dst descend' path pathPrefix entries := by
  induction entries with
  | nil => rfl
  | cons e entries ih =>
    have hrest := ih (fun a ha => hleaf a (List.mem_cons_of_mem _ ha))
      (fun a ha => hdir a (List.mem_cons_of_mem _ ha))
    have hhead : ∀ path treePath, renderEntry s opts dst descend path treePath e =
        renderEntry s' opts dst descend' path treePath e := by
      intro path treePath
      have hl := hleaf e List.mem_cons_self
      have hd := hdir e List.mem_cons_self
      unfold renderEntry
      cases hk : e.kind <;> simp only [hk, EntryKind.isLoaded, true_implies] at hl hd ⊢
      case file => rw [ObjectStore.load_congr hl]
      case symlink => rw [ObjectStore.load_congr hl]
      case sealed => rw [ObjectStore.load_congr hl]
      case tree => rw [hd]
    simp only [renderEntries, hhead, hrest]

/-- **A render depends on the objects it needs and on no others.**

**Proof sketch.** Induction on the depth. The tree itself is needed; each leaf of it is needed;
and what a directory of it needs is needed, so the recursive calls agree. -/
theorem renderTree_congr (depth : Nat) {root : H}
    (h : ∀ x, TreeNeeds s root x → s.lookup x = s'.lookup x) :
    renderTree s opts dst depth root = renderTree s' opts dst depth root := by
  induction depth generalizing root with
  | zero => rfl
  | succ depth ih =>
    funext path pathPrefix
    simp only [renderTree]
    rw [← ObjectStore.load_congr (h root (.self root))]
    cases ht : (s.load root : Except Error (Tree H)) with
    | error e => rfl
    | ok t =>
      change renderEntries s opts dst _ path pathPrefix t.entries =
        renderEntries s' opts dst _ path pathPrefix t.entries
      refine renderEntries_congr opts dst path pathPrefix (fun e he hk => ?_) (fun e he hk => ?_)
      · exact h _ ⟨root, .refl, Or.inr ⟨t, ht, e, he, hk, rfl⟩⟩
      · exact ih fun x hx => h x (.of_subdir ⟨t, ht, e, he, hk, rfl⟩ hx)

/-- A snapshot renders the same from two stores that agree on what it needs. -/
theorem materializeChangeInto_congr (depth : Nat) (dstExists : Bool) {snapshot : H}
    (h : ∀ x, Needs s snapshot x → s.lookup x = s'.lookup x) :
    materializeChangeInto s opts dst depth dstExists snapshot =
      materializeChangeInto s' opts dst depth dstExists snapshot := by
  unfold materializeChangeInto
  rw [← ObjectStore.load_congr (h snapshot (Or.inl .refl))]
  cases hs : (s.load snapshot : Except Error (Snapshot H)) with
  | error e => rfl
  | ok snap =>
    have htree : renderTree s opts dst depth snap.tree =
        renderTree s' opts dst depth snap.tree := by
      refine renderTree_congr opts dst depth fun x hx => ?_
      obtain ⟨t, ht, hxt⟩ := hx
      exact h x (Or.inr ⟨t, ⟨snapshot, .refl, snap, hs, ht⟩, hxt⟩)
    funext st
    simp only [fromExcept, pure_bind, htree]

end Congr

end Tig
