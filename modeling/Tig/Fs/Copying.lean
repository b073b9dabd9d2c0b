import Tig.Fs.Clone
import Tig.Fs.Resolution

set_option relaxedAutoImplicit false
set_option autoImplicit false

/-!
# Copying a workspace file by file

The engine that works everywhere copies a directory name by name: it makes the new directory, lists
the old one, and copies what it has listed. Old and new lie on one disk, so what is listed can be
what is being made. The copy is followed to a depth, which stands for the recursion that has not come
back.

A path is the place it leads to. Nothing that is copied changes where a path leads.

## Main definitions

* `Tig.EntryPath` — the path of something in a directory.
* `Tig.CopyFallback.copyRecursive` — the engine.
* `Tig.CopyFallback.materializeFromWorkspace` — cloning the directory of a workspace with it.

## Main results

* `Tig.nodeOf_alter_apart` — a change at one place leaves what lies apart from it.
* `Tig.alter_alter_child` — two changes, one in the directory that the other has put.
-/

namespace Tig

open Program

/-! ## Nodes below nodes -/

/-- What lies below a node. -/
def Node.at : Node → Location → Option Node
  | node, [] => some node
  | .dir children, name :: rest => (childOf name children).bind fun node => node.at rest
  | _, _ :: _ => none

@[simp] theorem Node.at_nil (node : Node) : node.at [] = some node := by
  cases node <;> rfl

@[simp] theorem Node.at_dir_cons (children : WorkingCopy) (name : Bytes) (rest : Location) :
    (Node.dir children).at (name :: rest) = (childOf name children).bind fun node => node.at rest :=
  rfl

section Places

variable {root : WorkingCopy} {loc : Location} {name : Bytes}

/-- What lies under a name of a directory, as a node below the root. -/
theorem nodeOf_eq_at (root : WorkingCopy) (loc : Location) (name : Bytes) :
    nodeOf root loc name = (Node.dir root).at (loc ++ [name]) := by
  induction loc generalizing root with
  | nil =>
    rw [nodeOf, dirOf, Option.bind_some, List.nil_append, Node.at_dir_cons]
    cases childOf name root with
    | none => rfl
    | some node => exact (Node.at_nil node).symm
  | cons first loc ih =>
    rw [nodeOf, dirOf, List.cons_append, Node.at_dir_cons]
    cases childOf first root with
    | none => rfl
    | some node =>
      cases node with
      | dir children => exact ih children
      | file bytes executable => cases loc <;> rfl
      | symlink target => cases loc <;> rfl
      | other kind => cases loc <;> rfl

/-- What one sees at a place. -/
theorem shapeAt_eq_at (root : WorkingCopy) {path : Location} (h : path ≠ []) :
    shapeAt root path = ((Node.dir root).at path).map Node.shape := by
  induction path generalizing root with
  | nil => exact absurd rfl h
  | cons first path ih =>
    cases path with
    | nil =>
      rw [shapeAt, Node.at_dir_cons]
      cases childOf first root with
      | none => rfl
      | some node => exact congrArg (Option.map Node.shape) (Node.at_nil node).symm
    | cons next rest =>
      rw [shapeAt, Node.at_dir_cons]
      cases childOf first root with
      | none => rfl
      | some node =>
        cases node with
        | dir children => exact ih children (List.cons_ne_nil _ _)
        | file bytes executable => rfl
        | symlink target => rfl
        | other kind => rfl

/-- **What lies apart is as it was** after a node has been put under a name of a directory. -/
theorem at_alter_apart {node : Node} {path : Location} (hbelow : ¬ loc ++ [name] <+: path)
    (habove : ¬ path <+: loc ++ [name]) :
    (Node.dir (alter (putChild name node) loc root)).at path = (Node.dir root).at path := by
  cases path with
  | nil => exact absurd List.nil_prefix habove
  | cons n rest =>
    induction loc generalizing root n rest with
    | nil =>
      have hn : n ≠ name := by
        rintro rfl
        exact hbelow (List.cons_prefix_cons.mpr ⟨rfl, List.nil_prefix⟩)
      rw [alter, Node.at_dir_cons, Node.at_dir_cons, childOf_putChild, if_neg hn]
    | cons first loc ih =>
      rw [alter]
      cases hc : childOf first root with
      | none => rfl
      | some node' =>
        cases node' with
        | file bytes executable => rfl
        | symlink target => rfl
        | other kind => rfl
        | dir children =>
          dsimp only
          rw [Node.at_dir_cons, Node.at_dir_cons, childOf_putChild]
          split_ifs with hn
          · subst hn
            rw [List.cons_append, List.cons_prefix_cons] at hbelow habove
            rw [hc, Option.bind_some, Option.bind_some]
            cases rest with
            | nil => exact absurd ⟨rfl, List.nil_prefix⟩ habove
            | cons next rest => exact ih _ _ (fun h => hbelow ⟨rfl, h⟩) (fun h => habove ⟨rfl, h⟩)
          · rfl

/-- The same, of what lies under a name. -/
theorem nodeOf_alter_apart {node : Node} {loc' : Location} {name' : Bytes}
    (hbelow : ¬ loc ++ [name] <+: loc' ++ [name']) (habove : ¬ loc' ++ [name'] <+: loc ++ [name]) :
    nodeOf (alter (putChild name node) loc root) loc' name' = nodeOf root loc' name' := by
  rw [nodeOf_eq_at, nodeOf_eq_at, at_alter_apart hbelow habove]

/-- What has been put is there. -/
theorem nodeOf_alter_self (node : Node) (h : (dirOf root loc).isSome) :
    nodeOf (alter (putChild name node) loc root) loc name = some node := by
  obtain ⟨d, hd⟩ := Option.isSome_iff_exists.mp h
  rw [nodeOf, dirOf_alter_self _ hd, Option.bind_some, childOf_putChild, if_pos rfl]

/-- The directory that has been put. -/
theorem dirOf_alter_put_self (children : WorkingCopy) (h : (dirOf root loc).isSome) :
    dirOf (alter (putChild name (.dir children)) loc root) (loc ++ [name]) = some children := by
  rw [dirOf_concat, nodeOf_alter_self _ h]

/-- A change in a directory that has just been put. -/
theorem alter_alter_child (f : WorkingCopy → WorkingCopy) (children : WorkingCopy) :
    alter f (loc ++ [name]) (alter (putChild name (.dir children)) loc root) =
      alter (putChild name (.dir (f children))) loc root := by
  have hput : ∀ d, alter f [name] (putChild name (.dir children) d) =
      putChild name (.dir (f children)) d := fun d => by
    rw [alter_singleton f ((childOf_putChild _ _ _ _).trans (if_pos rfl)), putChild_putChild]
  rw [alter_append, alter_alter, funext hput]

/-- A change below a directory leaves the names in it distinct. -/
theorem DistinctNames.alter {d : WorkingCopy} (h : DistinctNames d) (name : Bytes) (node : Node)
    (loc : Location) : DistinctNames (alter (Tig.putChild name node) loc d) := by
  cases loc with
  | nil => exact h.putChild name node
  | cons first loc =>
    rw [Tig.alter]
    split
    · exact h.putChild first _
    · exact h

/-- Through something that is no directory no path leads. -/
theorem dirOf_below_none {rest : Location} (h : ∀ children, nodeOf root loc name ≠ some (.dir children)) :
    dirOf root (loc ++ name :: rest) = none := by
  have hconcat := dirOf_concat root loc name
  rw [List.append_cons, dirOf_append, hconcat]
  cases hnode : nodeOf root loc name with
  | none => rfl
  | some node =>
    cases node with
    | dir children => exact absurd hnode (h children)
    | file bytes executable => rfl
    | symlink target => rfl
    | other kind => rfl

end Places

/-! ## The operations -/

/-- The path of something in a directory: the place of the directory, and the name there. -/
structure EntryPath where
  parent : Location
  name : Bytes
deriving DecidableEq, Repr

namespace EntryPath

/-- The place that the path leads to. -/
def loc (p : EntryPath) : Location := p.parent ++ [p.name]

/-- The path of a name of the directory at a path. -/
def join (p : EntryPath) (name : Bytes) : EntryPath := ⟨p.loc, name⟩

/-- The disk with a node put at the path. -/
def put (p : EntryPath) (node : Node) (root : WorkingCopy) : WorkingCopy :=
  alter (putChild p.name node) p.parent root

/-- The path as it is shown. -/
def display (p : EntryPath) : String :=
  "/" ++ "/".intercalate (p.loc.map Utf8.decodeLossy)

end EntryPath

/-- What the file system decides: the order in which a directory is listed, how many symlinks are
followed, and how writing to something else than a file fails, if it does. -/
structure CopyEnv where
  order : Location → WorkingCopy → List Bytes
  order_perm : ∀ loc dir, (order loc dir).Perm (dir.map Prod.fst)
  links : Nat
  special : Node → Option Error

/-- How a copy has not been finished: it has failed, or it goes on deeper than it is followed. -/
inductive CopyStop where
  | failed (e : Error)
  | deeper

/-- Copies on a disk. -/
abbrev CopyM := EStateM CopyStop WorkingCopy

/-- The error of a path that leads nowhere. -/
def noSuchFile : Error := .io "No such file or directory (os error 2)"

namespace CopyFallback

/-- What is at a path; a symlink is not followed. -/
def symlinkMetadata (p : EntryPath) : CopyM Node := do
  let root ← get
  match nodeOf root p.parent p.name with
  | some node => return node
  | none => throw (.failed noSuchFile)

/-- Make something where there is nothing. -/
def makeNode (p : EntryPath) (node : Node) : CopyM Unit := do
  let root ← get
  match dirOf root p.parent, nodeOf root p.parent p.name with
  | none, _ => throw (.failed noSuchFile)
  | some _, some _ => throw (.failed (.io "File exists (os error 17)"))
  | some _, none => set (p.put node root)

/-- Make a directory. -/
def createDir (p : EntryPath) : CopyM Unit := makeNode p (.dir [])

/-- Make a symlink. -/
def symlink (target : Bytes) (p : EntryPath) : CopyM Unit := makeNode p (.symlink target)

/-- Copy the contents and the mode of a file, over a file if there is one. -/
def copyFile (env : CopyEnv) (src : Node) (dst : EntryPath) : CopyM Unit := do
  let root ← get
  match src with
  | .file bytes executable =>
    match dirOf root dst.parent, nodeOf root dst.parent dst.name with
    | none, _ => throw (.failed noSuchFile)
    | some _, none | some _, some (.file _ _) =>
      set (dst.put (.file bytes executable) root)
    | some _, some (.dir _) => throw (.failed (.io "Is a directory (os error 21)"))
    | some _, some node =>
      match env.special node with
      | some e => throw (.failed e)
      | none => return ()
  | _ => throw (.failed
      (.io "the source path is neither a regular file nor a symlink to a regular file"))

/-- The names in a directory. -/
def readDir (env : CopyEnv) (loc : Location) : CopyM (List Bytes) := do
  let root ← get
  match dirOf root loc with
  | some dir => return env.order loc dir
  | none => throw (.failed (.io "Not a directory (os error 20)"))

/-- Copy what has been listed, name by name. -/
def copyEntries (copy : Bytes → CopyM Unit) : List Bytes → CopyM Unit
  | [] => return ()
  | name :: rest => do
    copy name
    copyEntries copy rest

/-- **The engine.** It looks at what there is when it gets there. -/
def copyRecursive (env : CopyEnv) : (depth : Nat) → EntryPath → EntryPath → Bool → CopyM Unit
  | 0, _, _, _ => throw .deeper
  | depth + 1, src, dst, topLevel => do
    let metadata ← symlinkMetadata src
    let root ← get
    if topLevel && (nodeOf root dst.parent dst.name).isSome then
      throw (.failed (.io ("destination already exists: " ++ dst.display)))
    else
      match metadata with
      | .dir _ => do
        createDir dst
        let names ← readDir env src.loc
        copyEntries (fun name => copyRecursive env depth (src.join name) (dst.join name) false) names
      | .symlink target => symlink target dst
      | node => copyFile env node dst

/-- The engine, from the top. -/
def clonePath (env : CopyEnv) (depth : Nat) (src dst : EntryPath) : CopyM Unit :=
  copyRecursive env depth src dst true

/-! ## Cloning a workspace -/

/-- Is there something where a path ends? -/
def spotExists (root : WorkingCopy) : Spot → Bool
  | .directory _ => true
  | .entry loc name => (nodeOf root loc name).isSome

/-- Is there something at a path? A symlink is followed. -/
def pathExists (env : CopyEnv) (root : WorkingCopy) (p : EntryPath) : Bool :=
  match nodeOf root p.parent p.name with
  | none => false
  | some (.symlink target) =>
    let start := if target.head? = some 47 then [] else p.parent
    match fileSpot root env.links start (components target) (target.getLast? = some 47) with
    | .ok (spot, _) => spotExists root spot
    | .error _ => false
  | some _ => true

/-- Make the directories below a place that are not there. -/
def createDirAll : Location → Location → CopyM Unit
  | _, [] => return ()
  | loc, name :: rest => do
    let root ← get
    match nodeOf root loc name with
    | none => createDir ⟨loc, name⟩
    | some (.dir _) => pure ()
    | some _ => throw (.failed (.io (if rest.isEmpty then "File exists (os error 17)"
        else "Not a directory (os error 20)")))
    createDirAll (loc ++ [name]) rest

/-- What came of making a workspace: a clone, or a render. -/
inductive MaterializeOutcome where
  | cloned (engine : String) (donor : Location)
  | rendered (stats : RenderStats)

/-- Copy what has been listed of a donor's directory, apart from what is internal. -/
def cloneEntries (env : CopyEnv) (depth : Nat) (donor : Location) (dst : EntryPath) :
    List Bytes → CopyM Unit
  | [] => return ()
  | nameOs :: rest => do
    let name := Utf8.decodeLossy nameOs
    if isWorkspaceInternal name then cloneEntries env depth donor dst rest
    else do
      clonePath env depth ⟨donor, nameOs⟩ (dst.join (Utf8.encode name))
      cloneEntries env depth donor dst rest

/-- **Clone the directory of a workspace.** -/
def materializeFromWorkspace (env : CopyEnv) (depth : Nat) (donor : Location) (dst : EntryPath) :
    CopyM MaterializeOutcome := do
  let root ← get
  if pathExists env root dst then
    throw (.failed (.io ("destination already exists: " ++ dst.display)))
  else do
    createDirAll [] dst.loc
    let names ← readDir env donor
    cloneEntries env depth donor dst names
    return .cloned "copy" donor

end CopyFallback

end Tig
