import Tig.Fs.Directory

set_option relaxedAutoImplicit false
set_option autoImplicit false

/-!
# Rendering onto a disk

What the operations that a render issues make of a directory. The walk that issues them never
looks at the disk, so performing them afterwards, up to the first that fails, comes to the same as
writing each entry to the disk when the walk gets there.

## Main definitions

* `Tig.renderTreeInto` — render a tree into a directory.
* `Tig.placeTree` — the same walk, working on the directory.
* `Tig.Depicts` — a directory is what a tree describes.

## Main results

* `Tig.renderTreeInto_eq` — the two walks come to the same.
* `Tig.placeTree_exact` — a render ends in what the tree describes, or there is no such directory.
-/

namespace Tig

open Program

variable {H : Type} [LinearOrder H] [Format H] (s : ObjectStore H) (opts : MaterializeOptions)
  (special : Node → Option Error) (dst : String)

/-- Render a tree into a directory that exists, called `dst` in messages. -/
def renderTreeInto (depth : Nat) (tree : H) : DirM RenderStats :=
  match renderTree s opts dst depth tree [] "" ⟨[], ⟨0, 0, 0, 0⟩⟩ with
  | .ok _ st => do
    performAll special st.actions
    return st.stats
  | .error e st => do
    performAll special st.actions
    throw e

/-! ## The walk on the disk -/

/-- Write a file with the mode of its entry. -/
def placeFile (name : String) (mode : FileMode) (bytes : Bytes) : DirM Unit := do
  writeFile special name bytes
  if mode.isExecutable then
    setExecutable name

/-- Write one entry into a directory; `descend` fills a subdirectory. -/
def placeEntry (descend : H → List String → String → DirM Unit) (path : List String)
    (treePath : String) (entry : TreeEntry H) : DirM Unit :=
  match entry.kind with
  | .file => do
    let blob : Blob ← fromExcept (s.load entry.target)
    placeFile special entry.name entry.mode blob.bytes
  | .tree => do
    createDir entry.name
    inside entry.name (descend entry.target path treePath)
  | .symlink => do
    let blob : Blob ← fromExcept (s.load entry.target)
    match Utf8.decode blob.bytes with
    | some target => makeSymlink entry.name target
    | none => throw (.core (.decode "symlink target is not valid utf-8"))
  | .sealed =>
    match opts.unsealer with
    | none => throw (.unsupportedFileKind treePath ("sealed (no --as <identity> configured; " ++
        "pass an unsealer to materialize sealed entries)"))
    | some unsealer => do
      let sealed : Sealed ← fromExcept (s.load entry.target)
      match unsealer sealed (Utf8.encode treePath) with
      | .ok plaintext => placeFile special entry.name entry.mode plaintext
      | .error reason =>
        match opts.onUnsealable with
        | .error => throw (.unsupportedFileKind treePath
            ("sealed (decrypt failed: " ++ reason ++ ")"))
        | .skip => return ()
  | .conflict | .submodule => throw (.unsupportedFileKind (displayBelow dst path)
      (entry.kind.toText ++ " (milestone 1 cannot materialize this kind)"))

/-- Write the entries of a tree, in order. -/
def placeEntries (descend : H → List String → String → DirM Unit) (path : List String)
    (pathPrefix : String) : List (TreeEntry H) → DirM Unit
  | [] => return ()
  | entry :: entries => do
    placeEntry s opts special dst descend (path ++ [entry.name])
      (entryPath pathPrefix entry.name) entry
    placeEntries descend path pathPrefix entries

/-- Write a tree into the directory at `path`. -/
def placeTree : (depth : Nat) → H → List String → String → DirM Unit
  | 0, _, _, _ => throw (.io "stack overflow")
  | depth + 1, tree, path, pathPrefix => do
    let t : Tree H ← fromExcept (s.load tree)
    placeEntries s opts special dst (placeTree depth) path pathPrefix t.entries

/-! ## Issuing and performing -/

/-- The end of a program that may have failed. -/
def finish : Option Error → DirM Unit
  | none => return ()
  | some e => throw e

/-- Whatever it starts from, `x` issues the operations `actions` at `path`, and then fails with
`fault`, if it does. -/
def Issues (path : List String) (x : RenderM Unit) (actions : List FsAction)
    (fault : Option Error) : Prop :=
  ∀ st : RenderState, ∃ stats, x st = match fault with
    | none => .ok () ⟨st.actions ++ actions.map fun a => path.foldr FsAction.below a, stats⟩
    | some e => .error e ⟨st.actions ++ actions.map fun a => path.foldr FsAction.below a, stats⟩

/-- Performing what `x` issues at `path` is `y`, in the directory at that path. -/
def Carries (path : List String) (x : RenderM Unit) (y : DirM Unit) : Prop :=
  ∃ actions fault, (∀ a ∈ actions, a.Within) ∧ Issues path x actions fault ∧
    y = (do performAll special actions; finish fault)

variable {special} {path : List String} {x x' : RenderM Unit} {y y' : DirM Unit}

theorem finish_bind (fault : Option Error) (f : Unit → DirM Unit) :
    finish fault >>= f = match fault with
      | none => f ()
      | some e => throw e := by
  cases fault <;> rfl

/-- One after the other. -/
theorem Carries.bind (h : Carries special path x y) (h' : Carries special path x' y') :
    Carries special path (x >>= fun _ => x') (y >>= fun _ => y') := by
  obtain ⟨as, fault, has, hx, rfl⟩ := h
  obtain ⟨bs, fault', hbs, hx', rfl⟩ := h'
  cases fault with
  | none =>
    refine ⟨as ++ bs, fault', ?_, fun st => ?_, ?_⟩
    · intro a ha
      exact (List.mem_append.mp ha).elim (has a) (hbs a)
    · obtain ⟨stats, hst⟩ := hx st
      obtain ⟨stats', hst'⟩ := hx' ⟨st.actions ++ as.map fun a => path.foldr FsAction.below a, stats⟩
      refine ⟨stats', ?_⟩
      show EStateM.bind x _ st = _
      unfold EStateM.bind
      rw [hst]
      dsimp only at hst' ⊢
      rw [hst', List.map_append, List.append_assoc]
    · rw [bind_assoc, performAll_append, bind_assoc]
      rfl
  | some e =>
    refine ⟨as, some e, has, fun st => ?_, ?_⟩
    · obtain ⟨stats, hst⟩ := hx st
      refine ⟨stats, ?_⟩
      show EStateM.bind x _ st = _
      unfold EStateM.bind
      rw [hst]
    · rw [bind_assoc]
      rfl

theorem Carries.pure : Carries special path (Pure.pure ()) (Pure.pure ()) :=
  ⟨[], none, fun _ h => absurd h List.not_mem_nil, fun st => ⟨st.stats, by simp [Pure.pure, EStateM.pure]⟩,
    rfl⟩

theorem Carries.throw (e : Error) :
    Carries special path (MonadExcept.throw e) (MonadExcept.throw e) := by
  refine ⟨[], some e, fun _ h => absurd h List.not_mem_nil, fun st => ⟨st.stats, ?_⟩, rfl⟩
  rw [List.map_nil, List.append_nil]
  rfl

theorem Carries.count (f : RenderStats → RenderStats) :
    Carries special path (Tig.count f) (Pure.pure ()) := by
  refine ⟨[], none, fun _ h => absurd h List.not_mem_nil, fun st => ⟨f st.stats, ?_⟩, rfl⟩
  rw [List.map_nil, List.append_nil]
  rfl

/-- Issuing an operation is performing it. -/
theorem Carries.act {a : FsAction} (h : a.Within) :
    Carries special path (Tig.act (path.foldr FsAction.below a)) (a.perform special) := by
  refine ⟨[a], none, ?_, fun st => ⟨st.stats, rfl⟩, ?_⟩
  · intro b hb
    obtain rfl := List.mem_singleton.mp hb
    exact h
  · rw [performAll, performAll, bind_assoc]
    exact (bind_pure_unit).symm

theorem Carries.fromExcept {α : Type} {r : Except Error α} {f : α → RenderM Unit}
    {g : α → DirM Unit} (h : ∀ a, Carries special path (f a) (g a)) :
    Carries special path (Program.fromExcept r >>= f) (Program.fromExcept r >>= g) := by
  cases r with
  | ok a => exact h a
  | error e => exact .throw e

/-- Filling a directory that has just been made. -/
theorem Carries.subdir {name : String} (h : Carries special (path ++ [name]) x y) :
    Carries special path (Tig.act (path.foldr FsAction.below (.createDir [name])) >>= fun _ => x)
      (createDir name >>= fun _ => inside name y) := by
  obtain ⟨as, fault, has, hx, rfl⟩ := h
  have hwithin : (FsAction.createDir [name]).Within := List.cons_ne_nil _ _
  refine ⟨.createDir [name] :: as.map (FsAction.below name), fault, ?_, fun st => ?_, ?_⟩
  · intro a ha
    rcases List.mem_cons.mp ha with rfl | ha
    · exact hwithin
    · obtain ⟨b, hb, rfl⟩ := List.mem_map.mp ha
      have := has b hb
      cases b <;> first | exact this.elim | exact List.cons_ne_nil _ _
  · obtain ⟨stats, hst⟩ := hx ⟨st.actions ++ [path.foldr FsAction.below (.createDir [name])], st.stats⟩
    refine ⟨stats, ?_⟩
    show x _ = _
    rw [hst]
    simp only [List.map_cons, List.map_map, List.append_assoc, List.singleton_append,
      List.foldr_append, List.foldr_cons, List.foldr_nil, Function.comp_def]
  · funext dir
    rw [performAll, bind_assoc]
    show EStateM.bind _ _ dir = EStateM.bind _ _ dir
    unfold EStateM.bind
    have hperform : (FsAction.createDir [name]).perform special = createDir name := rfl
    rw [hperform]
    cases hd : createDir name dir with
    | error e d => rfl
    | ok u d =>
      -- the directory is there now
      have hchild : childOf (Utf8.encode name) d = some (.dir []) := by
        have hpost : Post (createDir name) dir
            (fun _ d => childOf (Utf8.encode name) d = some (.dir [])) (fun _ _ => True) :=
          createDir_spec (fun _ => (childOf_putChild _ _ _ _).trans (if_pos rfl))
            (fun _ _ => trivial)
        exact hpost.ok hd
      dsimp only
      rw [inside_bind _ hchild]
      show EStateM.bind _ _ d = EStateM.bind _ _ d
      unfold EStateM.bind
      rw [performAll_below has hchild]
      cases hp : performAll special as ([] : WorkingCopy) with
      | error e c => rw [inside_error hchild hp]
      | ok u' c =>
        rw [inside_ok hchild hp]
        dsimp only
        have hc : childOf (Utf8.encode name) (putChild (Utf8.encode name) (.dir c) d) =
            some (.dir c) := by rw [childOf_putChild, if_pos rfl]
        cases fault with
        | none =>
          rw [inside_ok hc (rfl : finish none c = .ok () c), putChild_putChild]
          rfl
        | some e =>
          rw [inside_error hc (rfl : finish (some e) c = .error e c), putChild_putChild]
          rfl

section Paths

variable (path : List String) (p : List String)

theorem foldr_below_write (bytes : Bytes) :
    path.foldr FsAction.below (.write p bytes) = .write (path ++ p) bytes := by
  induction path with
  | nil => rfl
  | cons name path ih => rw [List.foldr_cons, ih]; rfl

theorem foldr_below_setExecutable :
    path.foldr FsAction.below (.setExecutable p) = .setExecutable (path ++ p) := by
  induction path with
  | nil => rfl
  | cons name path ih => rw [List.foldr_cons, ih]; rfl

theorem foldr_below_createDir :
    path.foldr FsAction.below (.createDir p) = .createDir (path ++ p) := by
  induction path with
  | nil => rfl
  | cons name path ih => rw [List.foldr_cons, ih]; rfl

theorem foldr_below_symlink (target : String) :
    path.foldr FsAction.below (.symlink p target) = .symlink (path ++ p) target := by
  induction path with
  | nil => rfl
  | cons name path ih => rw [List.foldr_cons, ih]; rfl

end Paths

/-- Writing a file, and counting it. -/
theorem Carries.file (name : String) (mode : FileMode) (bytes : Bytes)
    (f : RenderStats → RenderStats) :
    Carries special path
      (do
        Tig.act (.write (path ++ [name]) bytes)
        if mode.isExecutable then
          Tig.act (.setExecutable (path ++ [name]))
        Tig.count f)
      (placeFile special name mode bytes) := by
  have hwrite : Carries special path (Tig.act (.write (path ++ [name]) bytes))
      (writeFile special name bytes) := by
    rw [← foldr_below_write]
    exact .act (a := .write [name] bytes) (List.cons_ne_nil _ _)
  have hexec : Carries special path (Tig.act (.setExecutable (path ++ [name])))
      (setExecutable name) := by
    rw [← foldr_below_setExecutable]
    exact .act (a := .setExecutable [name]) (List.cons_ne_nil _ _)
  unfold placeFile
  refine hwrite.bind ?_
  cases mode.isExecutable with
  | true =>
    have h := hexec.bind (.count f)
    rw [bind_pure_unit] at h
    exact h
  | false => exact .count f

variable {s opts dst} {descend : H → List String → String → RenderM Unit}
  {descend' : H → List String → String → DirM Unit}

/-- An entry is written the same way by both walks. -/
theorem Carries.entry (hd : ∀ h p tp, Carries special p (descend h p tp) (descend' h p tp))
    (treePath : String) (entry : TreeEntry H) :
    Carries special path (renderEntry s opts dst descend (path ++ [entry.name]) treePath entry)
      (placeEntry s opts special dst descend' (path ++ [entry.name]) treePath entry) := by
  unfold renderEntry placeEntry
  cases entry.kind with
  | file => exact .fromExcept fun blob => .file entry.name entry.mode blob.bytes _
  | tree =>
    have h := (hd entry.target (path ++ [entry.name]) treePath).subdir
    rw [foldr_below_createDir] at h
    exact h
  | symlink =>
    refine .fromExcept fun blob => ?_
    cases Utf8.decode blob.bytes with
    | none => exact .throw _
    | some target =>
      dsimp only
      rw [← foldr_below_symlink]
      exact .act (a := .symlink [entry.name] target) (List.cons_ne_nil _ _)
  | sealed =>
    dsimp only
    cases opts.unsealer with
    | none => exact .throw _
    | some unsealer =>
      refine .fromExcept fun sealed => ?_
      cases unsealer sealed (Utf8.encode treePath) with
      | ok plaintext => exact .file entry.name entry.mode plaintext _
      | error reason =>
        dsimp only
        cases opts.onUnsealable with
        | error => exact .throw _
        | skip => exact .count _
  | conflict => exact .throw _
  | submodule => exact .throw _

theorem Carries.entries (hd : ∀ h p tp, Carries special p (descend h p tp) (descend' h p tp))
    (pathPrefix : String) (entries : List (TreeEntry H)) :
    Carries special path (renderEntries s opts dst descend path pathPrefix entries)
      (placeEntries s opts special dst descend' path pathPrefix entries) := by
  induction entries with
  | nil => exact .pure
  | cons entry entries ih => exact (Carries.entry hd _ entry).bind ih

/-- The two walks write the same. -/
theorem Carries.tree (depth : Nat) (tree : H) (path : List String) (pathPrefix : String) :
    Carries special path (renderTree s opts dst depth tree path pathPrefix)
      (placeTree s opts special dst depth tree path pathPrefix) := by
  induction depth generalizing tree path pathPrefix with
  | zero => exact .throw _
  | succ depth ih => exact .fromExcept fun t => .entries ih pathPrefix t.entries

/-- **The two walks** come to the same. -/
theorem renderTreeInto_eq (depth : Nat) (tree : H) :
    (do let _ ← renderTreeInto s opts special dst depth tree) =
      placeTree s opts special dst depth tree [] "" := by
  obtain ⟨as, fault, -, hx, hy⟩ : Carries special [] (renderTree s opts dst depth tree [] "")
      (placeTree s opts special dst depth tree [] "") := .tree depth tree [] ""
  obtain ⟨stats, hst⟩ := hx ⟨[], ⟨0, 0, 0, 0⟩⟩
  have hactions : as.map (fun a => ([] : List String).foldr FsAction.below a) = as := List.map_id as
  rw [hactions, List.nil_append] at hst
  rw [hy]
  unfold renderTreeInto
  rw [hst]
  cases fault with
  | none => exact bind_assoc _ _ _
  | some e => exact bind_assoc _ _ _

/-- How a render ends is how the walk on the disk ends. -/
theorem post_renderTreeInto {depth : Nat} {tree : H} {dir : WorkingCopy} {Q : WorkingCopy → Prop}
    {E : Error → WorkingCopy → Prop} :
    Post (renderTreeInto s opts special dst depth tree) dir (fun _ d => Q d) E ↔
      Post (placeTree s opts special dst depth tree [] "") dir (fun _ d => Q d) E := by
  rw [← renderTreeInto_eq, post_bind]
  exact Iff.rfl

/-! ## What a tree describes -/

variable (s opts)

/-- `child` is what the entry at `treePath` describes: a node, or nothing. -/
def EntryDrawn (below : H → String → WorkingCopy → Prop) (treePath : String)
    (entry : TreeEntry H) (child : Option Node) : Prop :=
  match entry.kind with
  | .file => ∃ blob : Blob, s.load entry.target = .ok blob ∧
      child = some (.file blob.bytes entry.mode.isExecutable)
  | .tree => ∃ children, below entry.target treePath children ∧ child = some (.dir children)
  | .symlink => ∃ (blob : Blob) (target : String), s.load entry.target = .ok blob ∧
      Utf8.decode blob.bytes = some target ∧ linkFault target = none ∧
      child = some (.symlink (Utf8.encode target))
  | .sealed => ∃ (unsealer : Sealed → Bytes → Except String Bytes) (sealed : Sealed),
      opts.unsealer = some unsealer ∧ s.load entry.target = .ok sealed ∧
      ((∃ plaintext, unsealer sealed (Utf8.encode treePath) = .ok plaintext ∧
          child = some (.file plaintext entry.mode.isExecutable)) ∨
        ∃ reason, unsealer sealed (Utf8.encode treePath) = .error reason ∧
          opts.onUnsealable = .skip ∧ child = none)
  | .conflict | .submodule => False

/-- The directory is what the tree describes. -/
def Depicts : (depth : Nat) → H → String → WorkingCopy → Prop
  | 0, _, _, _ => False
  | depth + 1, tree, pathPrefix, dir => ∃ t : Tree H, s.load tree = .ok t ∧ DistinctNames dir ∧
      (∀ entry ∈ t.entries, EntryDrawn s opts (Depicts depth) (entryPath pathPrefix entry.name)
        entry (childOf (Utf8.encode entry.name) dir)) ∧
      ∀ name, childOf name dir ≠ none → ∃ entry ∈ t.entries, name = Utf8.encode entry.name

variable {s opts}

/-- A directory in which a child may have been put. -/
def putDrawn (name : String) (child : Option Node) (dir : WorkingCopy) : WorkingCopy :=
  match child with
  | some node => putChild (Utf8.encode name) node dir
  | none => dir

theorem childOf_putDrawn {name : String} {child : Option Node} {dir : WorkingCopy}
    (h : childOf (Utf8.encode name) dir = none) (n : Bytes) :
    childOf n (putDrawn name child dir) = if n = Utf8.encode name then child else childOf n dir := by
  cases child with
  | some node => exact childOf_putChild _ _ _ n
  | none =>
    show childOf n dir = _
    split_ifs with hn
    · rw [hn, h]
    · rfl

theorem placeFile_spec {name : String} {mode : FileMode} {bytes : Bytes} {dir : WorkingCopy}
    (h : childOf (Utf8.encode name) dir = none) :
    Post (placeFile special name mode bytes) dir
      (fun _ d => d = putChild (Utf8.encode name) (.file bytes mode.isExecutable) dir)
      (fun _ _ => False) := by
  rw [placeFile, post_bind, writeFile, post_bind, post_lookUp, h]
  show Post _ (putChild (Utf8.encode name) (.file bytes false) dir) _ _
  cases mode.isExecutable with
  | false => exact rfl
  | true =>
    rw [if_pos rfl, setExecutable, post_bind, post_lookUp, childOf_putChild, if_pos rfl]
    exact putChild_putChild _ _ _ _

variable {below : H → String → WorkingCopy → Prop}

/-- Writing an entry where there is nothing puts what it describes there, or it describes
nothing that can be. -/
theorem placeEntry_exact {entry : TreeEntry H} {treePath : String} {dir : WorkingCopy}
    (hd : entry.kind = .tree → ∀ p, Post (descend' entry.target p treePath) []
      (fun _ d => below entry.target treePath d) (fun _ _ => ∀ d, ¬ below entry.target treePath d))
    (habs : childOf (Utf8.encode entry.name) dir = none) (p : List String) :
    Post (placeEntry s opts special dst descend' p treePath entry) dir
      (fun _ d => ∃ child, EntryDrawn s opts below treePath entry child ∧
        d = putDrawn entry.name child dir)
      (fun _ _ => ∀ child, ¬ EntryDrawn s opts below treePath entry child) := by
  unfold placeEntry EntryDrawn
  cases hk : entry.kind with
  | file =>
    dsimp only
    rw [post_bind, post_fromExcept]
    refine ⟨fun blob hblob => ?_, fun e he child hchild => ?_⟩
    · exact (placeFile_spec habs).mono (fun _ d hd => ⟨_, ⟨blob, hblob, rfl⟩, hd⟩)
        (fun _ _ h => h.elim)
    · obtain ⟨blob, hblob, -⟩ := hchild
      rw [he] at hblob
      cases hblob
  | tree =>
    dsimp only
    rw [post_bind]
    refine createDir_spec (fun _ => ?_) (fun _ h => absurd habs h)
    have hchild : childOf (Utf8.encode entry.name)
        (putChild (Utf8.encode entry.name) (.dir []) dir) = some (.dir []) := by
      rw [childOf_putChild, if_pos rfl]
    refine Post.inside hchild ((hd hk p).mono (fun _ d hbelow => ?_) (fun _ _ h => ?_))
    · exact ⟨some (.dir d), ⟨d, hbelow, rfl⟩, putChild_putChild _ _ _ _⟩
    · rintro child ⟨d, hbelow, -⟩
      exact h d hbelow
  | symlink =>
    dsimp only
    rw [post_bind, post_fromExcept]
    refine ⟨fun blob hblob => ?_, fun e he child hchild => ?_⟩
    · cases hdec : Utf8.decode blob.bytes with
      | none =>
        rintro child ⟨blob', target, hblob', htarget, -⟩
        obtain rfl : blob = blob' := Except.ok.inj (hblob.symm.trans hblob')
        rw [hdec] at htarget
        cases htarget
      | some target =>
        dsimp only
        refine makeSymlink_spec (fun hf _ => ⟨_, ⟨blob, target, hblob, hdec, hf, rfl⟩, rfl⟩)
          (fun e he => ?_)
        rintro child ⟨blob', target', hblob', htarget, hf, -⟩
        obtain rfl : blob = blob' := Except.ok.inj (hblob.symm.trans hblob')
        obtain rfl : target = target' := Option.some.inj (hdec.symm.trans htarget)
        exact he.elim (fun h => h hf) (fun h => h habs)
    · obtain ⟨blob, _, hblob, -⟩ := hchild
      rw [he] at hblob
      cases hblob
  | sealed =>
    dsimp only
    cases hu : opts.unsealer with
    | none =>
      rintro child ⟨unsealer, _, h, -⟩
      cases h
    | some unsealer =>
      dsimp only
      rw [post_bind, post_fromExcept]
      refine ⟨fun sealed hsealed => ?_, fun e he child hchild => ?_⟩
      · cases hx : unsealer sealed (Utf8.encode treePath) with
        | ok plaintext =>
          exact (placeFile_spec habs).mono (fun _ d hd =>
            ⟨_, ⟨unsealer, sealed, rfl, hsealed, Or.inl ⟨plaintext, hx, rfl⟩⟩, hd⟩)
            (fun _ _ h => h.elim)
        | error reason =>
          dsimp only
          cases hp : opts.onUnsealable with
          | error =>
            rintro child ⟨_, sealed', ⟨⟩, hsealed', hcase⟩
            obtain rfl : sealed = sealed' := Except.ok.inj (hsealed.symm.trans hsealed')
            rw [hx] at hcase
            rcases hcase with ⟨_, h, -⟩ | ⟨_, -, h, -⟩ <;> cases h
          | skip =>
            exact ⟨none, ⟨unsealer, sealed, rfl, hsealed, Or.inr ⟨reason, hx, rfl, rfl⟩⟩, rfl⟩
      · obtain ⟨_, sealed, -, hsealed, -⟩ := hchild
        rw [he] at hsealed
        cases hsealed
  | conflict => exact fun _ h => h
  | submodule => exact fun _ h => h

/-- **Writing entries where there is nothing** of their names puts what they describe there and
leaves the rest, or one of them describes nothing that can be.

**Proof sketch.** Induction on the entries. The first one is written by `placeEntry_exact`; its
name is none of the later ones, so these still find nothing of their names, and leave it alone. -/
theorem placeEntries_exact {entries : List (TreeEntry H)} {pathPrefix : String} {dir : WorkingCopy}
    (hd : ∀ e ∈ entries, e.kind = .tree → ∀ p tp, Post (descend' e.target p tp) []
      (fun _ d => below e.target tp d) (fun _ _ => ∀ d, ¬ below e.target tp d))
    (hnames : entries.Pairwise fun a b => a.name < b.name)
    (habs : ∀ e ∈ entries, childOf (Utf8.encode e.name) dir = none) (p : List String) :
    Post (placeEntries s opts special dst descend' p pathPrefix entries) dir
      (fun _ d => (∀ e ∈ entries, EntryDrawn s opts below (entryPath pathPrefix e.name) e
          (childOf (Utf8.encode e.name) d)) ∧
        (∀ n, (∀ e ∈ entries, n ≠ Utf8.encode e.name) → childOf n d = childOf n dir) ∧
        (DistinctNames dir → DistinctNames d))
      (fun _ _ => ∃ e ∈ entries, ∀ child,
        ¬ EntryDrawn s opts below (entryPath pathPrefix e.name) e child) := by
  induction entries generalizing dir with
  | nil => exact ⟨fun e he => absurd he List.not_mem_nil, fun _ _ => rfl, id⟩
  | cons entry entries ih =>
    obtain ⟨hfirst, hrest⟩ := List.pairwise_cons.mp hnames
    have habsent := habs entry List.mem_cons_self
    rw [placeEntries, post_bind]
    refine (placeEntry_exact (fun hk q => hd entry List.mem_cons_self hk q _) habsent _).mono
      ?_ (fun _ _ h => ⟨entry, List.mem_cons_self, h⟩)
    rintro _ dir₁ ⟨child, hdrawn, rfl⟩
    have hlook : ∀ n, childOf n (putDrawn entry.name child dir) =
        if n = Utf8.encode entry.name then child else childOf n dir := childOf_putDrawn habsent
    have hother : ∀ e ∈ entries, Utf8.encode e.name ≠ Utf8.encode entry.name := by
      intro e he heq
      exact (hfirst e he).ne' (Utf8.encode_injective heq)
    refine (ih (fun e he => hd e (List.mem_cons_of_mem _ he)) hrest fun e he => ?_).mono
      ?_ (fun _ _ ⟨e, he, h⟩ => ⟨e, List.mem_cons_of_mem _ he, h⟩)
    · rw [hlook, if_neg (hother e he)]
      exact habs e (List.mem_cons_of_mem _ he)
    · rintro _ d ⟨hall, hsame, hdistinct⟩
      refine ⟨fun e he => ?_, fun n hn => ?_, fun h => hdistinct ?_⟩
      · rcases List.mem_cons.mp he with rfl | he
        · rw [hsame _ fun e' he' => (hother e' he').symm, hlook, if_pos rfl]
          exact hdrawn
        · exact hall e he
      · rw [hsame n fun e he => hn e (List.mem_cons_of_mem _ he), hlook,
          if_neg (hn entry List.mem_cons_self)]
      · cases child with
        | none => exact h
        | some node => exact h.putChild _ _

/-- The directories of a tree, as far as they are stored, are sorted by name. -/
def SortedBelow (s : ObjectStore H) (root : H) : Prop :=
  ∀ h, Subtree s root h → ∀ t : Tree H, s.load h = .ok t → t.Sorted

theorem SortedBelow.subdir {root : H} (h : SortedBelow s root) {t : Tree H}
    (ht : s.load root = .ok t) {e : TreeEntry H} (he : e ∈ t.entries) (hk : e.kind = .tree) :
    SortedBelow s e.target :=
  fun _ hsub => h _ (.head ⟨t, ht, e, he, hk, rfl⟩ hsub)

/-- A directory that has what each entry describes, and nothing else, is what the tree
describes. -/
theorem depicts_of_drawn {depth : Nat} {tree : H} {t : Tree H} (ht : s.load tree = .ok t)
    {pathPrefix : String} {d : WorkingCopy}
    (hall : ∀ e ∈ t.entries, EntryDrawn s opts (Depicts s opts depth)
      (entryPath pathPrefix e.name) e (childOf (Utf8.encode e.name) d))
    (hsame : ∀ n, (∀ e ∈ t.entries, n ≠ Utf8.encode e.name) → childOf n d = none)
    (hdistinct : DistinctNames d) : Depicts s opts (depth + 1) tree pathPrefix d := by
  refine ⟨t, ht, hdistinct, hall, fun n hn => ?_⟩
  by_contra hnone
  push Not at hnone
  exact hn (hsame n hnone)

/-- **A render into an empty directory** ends in what the tree describes, or the tree describes
no directory. -/
theorem placeTree_exact {depth : Nat} {tree : H} (hsorted : SortedBelow s tree) (p : List String)
    (pathPrefix : String) :
    Post (placeTree s opts special dst depth tree p pathPrefix) []
      (fun _ d => Depicts s opts depth tree pathPrefix d)
      (fun _ _ => ∀ d, ¬ Depicts s opts depth tree pathPrefix d) := by
  induction depth generalizing tree p pathPrefix with
  | zero => exact fun _ h => h
  | succ depth ih =>
    rw [placeTree, post_bind, post_fromExcept]
    refine ⟨fun t ht => ?_, fun e he d hdepicts => ?_⟩
    · have hlocal : t.Sorted := hsorted tree .refl t ht
      refine (placeEntries_exact
        (fun e he hk q tp => ih (hsorted.subdir ht he hk) q tp) hlocal (fun _ _ => rfl) p).mono
        ?_ ?_
      · rintro _ d ⟨hall, hsame, hdistinct⟩
        exact depicts_of_drawn ht hall hsame (hdistinct List.nodup_nil)
      · rintro _ _ ⟨e, he, hnot⟩ d ⟨t', ht', -, hall, -⟩
        obtain rfl : t = t' := Except.ok.inj (ht.symm.trans ht')
        exact hnot _ (hall e he)
    · obtain ⟨t, ht, -⟩ := hdepicts
      rw [he] at ht
      cases ht

/-- A directory that describes each entry of a tree is described by the tree. -/
theorem exists_depicts {depth : Nat} {tree : H} {t : Tree H} (ht : s.load tree = .ok t)
    (hsorted : SortedBelow s tree) (pathPrefix : String)
    (h : ∀ e ∈ t.entries, ∃ child,
      EntryDrawn s opts (Depicts s opts depth) (entryPath pathPrefix e.name) e child) :
    ∃ dir, Depicts s opts (depth + 1) tree pathPrefix dir := by
  -- let the walk make it
  have hrun : Post (placeTree s opts (fun _ => none) "" (depth + 1) tree [] pathPrefix) []
      (fun _ d => Depicts s opts (depth + 1) tree pathPrefix d) (fun _ _ => False) := by
    rw [placeTree, ht]
    have hlocal : t.Sorted := hsorted tree .refl t ht
    refine (placeEntries_exact
      (fun e he hk q tp => placeTree_exact (hsorted.subdir ht he hk) q tp) hlocal
      (fun _ _ => rfl) []).mono ?_ ?_
    · rintro _ d ⟨hall, hsame, hdistinct⟩
      exact depicts_of_drawn ht hall hsame (hdistinct List.nodup_nil)
    · rintro _ _ ⟨e, he, hnot⟩
      obtain ⟨child, hchild⟩ := h e he
      exact hnot child hchild
  obtain ⟨_, dir, -, hdir⟩ := hrun.exists_ok
  exact ⟨dir, hdir⟩

/-- **A render where there is nothing in its way** succeeds exactly when the tree describes a
directory. -/
theorem placeTree_onto {depth : Nat} {tree : H} (hsorted : SortedBelow s tree) {dir : WorkingCopy}
    (habs : ∀ t : Tree H, s.load tree = .ok t → ∀ e ∈ t.entries,
      childOf (Utf8.encode e.name) dir = none) (p : List String) (pathPrefix : String) :
    Post (placeTree s opts special dst depth tree p pathPrefix) dir
      (fun _ _ => ∃ d, Depicts s opts depth tree pathPrefix d)
      (fun _ _ => ¬ ∃ d, Depicts s opts depth tree pathPrefix d) := by
  cases depth with
  | zero => exact fun ⟨_, h⟩ => h
  | succ depth =>
    rw [placeTree, post_bind, post_fromExcept]
    refine ⟨fun t ht => ?_, fun e he ⟨d, hdepicts⟩ => ?_⟩
    · refine (placeEntries_exact
        (fun e he hk q tp => placeTree_exact (hsorted.subdir ht he hk) q tp)
        (hsorted tree .refl t ht) (habs t ht) p).mono ?_ ?_
      · rintro _ d ⟨hall, -⟩
        exact exists_depicts ht hsorted pathPrefix fun e he => ⟨_, hall e he⟩
      · rintro _ _ ⟨e, he, hnot⟩ ⟨d, t', ht', -, hall, -⟩
        obtain rfl : t = t' := Except.ok.inj (ht.symm.trans ht')
        exact hnot _ (hall e he)
    · obtain ⟨t, ht, -⟩ := hdepicts
      rw [he] at ht
      cases ht

end Tig
