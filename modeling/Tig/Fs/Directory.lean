import Tig.Fs.Materialize
import Tig.Fs.Scan

set_option relaxedAutoImplicit false
set_option autoImplicit false

/-!
# Directories on disk

The operations that a render issues, as programs that change a directory. A name is one component
of a path; the errors are those of the operating system. The disk stores what is written to it.

## Main definitions

* `Tig.DirM` — programs that change a directory.
* `Tig.childOf`, `Tig.putChild`, `Tig.removeChild` — one name of a directory.
* `Tig.inside` — work in a directory below.
* `Tig.FsAction.perform` — what an operation does.
* `Tig.Shape`, `Tig.SameContents` — what there is to see at a path.

## Main results

* `Tig.performAll_below` — operations below a directory are operations inside it.
-/

namespace Tig

open Program

/-! ## The children of a directory -/

/-- The child of a directory that has the given name. -/
def childOf (name : Bytes) : WorkingCopy → Option Node
  | [] => none
  | (n, node) :: rest => if n = name then some node else childOf name rest

/-- What is found under a name is in the directory. -/
theorem mem_of_childOf {name : Bytes} {node : Node} {dir : WorkingCopy}
    (h : childOf name dir = some node) : (name, node) ∈ dir := by
  induction dir with
  | nil => cases h
  | cons child rest ih =>
    obtain ⟨bytes, other⟩ := child
    rw [childOf] at h
    split_ifs at h with hb
    · rw [hb, Option.some.inj h]
      exact List.mem_cons_self
    · exact List.mem_cons_of_mem _ (ih h)

/-- Put `node` in place of the child called `name`. -/
def replaceChild (name : Bytes) (node : Node) : WorkingCopy → WorkingCopy
  | [] => []
  | (n, child) :: rest =>
    if n = name then (name, node) :: rest else (n, child) :: replaceChild name node rest

/-- Add a child, by ascending name. -/
def addChild (name : Bytes) (node : Node) : WorkingCopy → WorkingCopy
  | [] => [(name, node)]
  | (n, child) :: rest =>
    if name < n then (name, node) :: (n, child) :: rest else (n, child) :: addChild name node rest

/-- Let `node` be the child called `name`. -/
def putChild (name : Bytes) (node : Node) (dir : WorkingCopy) : WorkingCopy :=
  if (childOf name dir).isSome then replaceChild name node dir else addChild name node dir

/-- No name occurs twice. -/
def DistinctNames (dir : WorkingCopy) : Prop := (dir.map Prod.fst).Nodup

theorem childOf_replaceChild {name : Bytes} {node : Node} {dir : WorkingCopy}
    (h : (childOf name dir).isSome) (n : Bytes) :
    childOf n (replaceChild name node dir) = if n = name then some node else childOf n dir := by
  induction dir with
  | nil => cases h
  | cons child rest ih =>
    obtain ⟨m, c⟩ := child
    by_cases hm : m = name
    · subst hm
      rw [replaceChild, if_pos rfl, childOf, childOf]
      by_cases hn : n = m
      · rw [if_pos hn.symm, if_pos hn]
      · rw [if_neg (Ne.symm hn), if_neg hn, if_neg (Ne.symm hn)]
    · rw [childOf, if_neg hm] at h
      rw [replaceChild, if_neg hm, childOf, childOf, ih h]
      by_cases hn : m = n
      · rw [if_pos hn, if_pos hn, if_neg (hn ▸ hm)]
      · rw [if_neg hn, if_neg hn]

theorem childOf_addChild {name : Bytes} {node : Node} {dir : WorkingCopy}
    (h : childOf name dir = none) (n : Bytes) :
    childOf n (addChild name node dir) = if n = name then some node else childOf n dir := by
  induction dir with
  | nil =>
    rw [addChild, childOf]
    exact if_congr eq_comm rfl rfl
  | cons child rest ih =>
    obtain ⟨m, c⟩ := child
    rw [childOf] at h
    split_ifs at h with hm
    rw [addChild]
    split_ifs with hlt hn hn
    · rw [childOf, if_pos hn.symm]
    · rw [childOf, if_neg (Ne.symm hn)]
    · subst hn
      rw [childOf, if_neg hm, ih h, if_pos rfl]
    · rw [childOf, childOf, ih h, if_neg hn]

/-- A child that was put is seen at its name and nowhere else. -/
@[simp] theorem childOf_putChild (name : Bytes) (node : Node) (dir : WorkingCopy) (n : Bytes) :
    childOf n (putChild name node dir) = if n = name then some node else childOf n dir := by
  rw [putChild]
  split_ifs with h hn hn
  · rw [childOf_replaceChild h, if_pos hn]
  · rw [childOf_replaceChild h, if_neg hn]
  · rw [childOf_addChild (by simpa using h), if_pos hn]
  · rw [childOf_addChild (by simpa using h), if_neg hn]

theorem replaceChild_replaceChild (name : Bytes) (node node' : Node) (dir : WorkingCopy) :
    replaceChild name node' (replaceChild name node dir) = replaceChild name node' dir := by
  induction dir with
  | nil => rfl
  | cons child rest ih =>
    obtain ⟨m, c⟩ := child
    by_cases hm : m = name
    · rw [replaceChild, if_pos hm, replaceChild, if_pos rfl, replaceChild, if_pos hm]
    · rw [replaceChild, if_neg hm, replaceChild, if_neg hm, ih, replaceChild, if_neg hm]

theorem replaceChild_addChild {name : Bytes} (node node' : Node) {dir : WorkingCopy}
    (h : childOf name dir = none) :
    replaceChild name node' (addChild name node dir) = addChild name node' dir := by
  induction dir with
  | nil => rw [addChild, replaceChild, if_pos rfl, addChild]
  | cons child rest ih =>
    obtain ⟨m, c⟩ := child
    rw [childOf] at h
    split_ifs at h with hm
    by_cases hlt : name < m
    · rw [addChild, if_pos hlt, replaceChild, if_pos rfl, addChild, if_pos hlt]
    · rw [addChild, if_neg hlt, replaceChild, if_neg hm, ih h, addChild, if_neg hlt]

/-- The last child that was put under a name counts. -/
@[simp] theorem putChild_putChild (name : Bytes) (node node' : Node) (dir : WorkingCopy) :
    putChild name node' (putChild name node dir) = putChild name node' dir := by
  have h : (childOf name (putChild name node dir)).isSome := by simp
  rw [putChild, if_pos h, putChild, putChild]
  split_ifs with hc
  · exact replaceChild_replaceChild name node node' dir
  · exact replaceChild_addChild node node' (by simpa using hc)

/-- Putting what is there changes nothing. -/
theorem putChild_self {name : Bytes} {node : Node} {dir : WorkingCopy}
    (h : childOf name dir = some node) : putChild name node dir = dir := by
  rw [putChild, if_pos (by simp [h])]
  induction dir with
  | nil => rfl
  | cons child rest ih =>
    obtain ⟨m, c⟩ := child
    rw [childOf] at h
    rw [replaceChild]
    split_ifs at h ⊢ with hm
    · rw [hm, Option.some.inj h]
    · rw [ih h]

theorem mem_replaceChild {name : Bytes} {node : Node} {dir : WorkingCopy} {child : Bytes × Node}
    (h : child ∈ replaceChild name node dir) : child = (name, node) ∨ child ∈ dir := by
  induction dir with
  | nil => cases h
  | cons a rest ih =>
    obtain ⟨m, c⟩ := a
    rw [replaceChild] at h
    split_ifs at h
    · rcases List.mem_cons.mp h with h | h
      · exact Or.inl h
      · exact Or.inr (List.mem_cons_of_mem _ h)
    · rcases List.mem_cons.mp h with rfl | h
      · exact Or.inr List.mem_cons_self
      · exact (ih h).imp_right (List.mem_cons_of_mem _)

theorem mem_addChild {name : Bytes} {node : Node} {dir : WorkingCopy} {child : Bytes × Node}
    (h : child ∈ addChild name node dir) : child = (name, node) ∨ child ∈ dir := by
  induction dir with
  | nil => exact Or.inl (List.mem_singleton.mp h)
  | cons a rest ih =>
    obtain ⟨m, c⟩ := a
    rw [addChild] at h
    split_ifs at h
    · exact List.mem_cons.mp h
    · rcases List.mem_cons.mp h with rfl | h
      · exact Or.inr List.mem_cons_self
      · exact (ih h).imp_right (List.mem_cons_of_mem _)

theorem map_replaceChild (name : Bytes) (node : Node) (dir : WorkingCopy) :
    (replaceChild name node dir).map Prod.fst = dir.map Prod.fst := by
  induction dir with
  | nil => rfl
  | cons a rest ih =>
    obtain ⟨m, c⟩ := a
    rw [replaceChild]
    split_ifs with h
    · rw [h, List.map_cons, List.map_cons]
    · rw [List.map_cons, List.map_cons, ih]

/-- A name that no child has is not found. -/
theorem childOf_eq_none {name : Bytes} {dir : WorkingCopy} :
    childOf name dir = none ↔ name ∉ dir.map Prod.fst := by
  induction dir with
  | nil => simp [childOf]
  | cons a rest ih =>
    obtain ⟨m, c⟩ := a
    rw [childOf]
    split_ifs with h
    · simp [h]
    · simp [ih, Ne.symm h]

theorem DistinctNames.putChild {dir : WorkingCopy} (h : DistinctNames dir) (name : Bytes)
    (node : Node) : DistinctNames (putChild name node dir) := by
  rw [Tig.putChild]
  split_ifs with hc
  · rw [DistinctNames, map_replaceChild]
    exact h
  · have hnone : childOf name dir = none := by simpa using hc
    clear hc
    induction dir with
    | nil => simp [DistinctNames, addChild]
    | cons a rest ih =>
      obtain ⟨m, c⟩ := a
      obtain ⟨hm, hrest⟩ := List.nodup_cons.mp h
      rw [childOf] at hnone
      split_ifs at hnone with hne
      rw [addChild]
      split_ifs with hlt
      · refine List.nodup_cons.mpr ⟨?_, h⟩
        rw [← childOf_eq_none, childOf, if_neg hne]
        exact hnone
      · refine List.nodup_cons.mpr ⟨fun hmem => ?_, ih hrest hnone⟩
        obtain ⟨child, hchild, heq⟩ := List.mem_map.mp hmem
        rcases mem_addChild hchild with rfl | hchild
        · exact hne heq.symm
        · exact hm (List.mem_map.mpr ⟨child, hchild, heq⟩)

/-- When the names are distinct, a search finds every child. -/
theorem DistinctNames.mem_iff {dir : WorkingCopy} (h : DistinctNames dir) {name : Bytes}
    {node : Node} : (name, node) ∈ dir ↔ childOf name dir = some node := by
  induction dir with
  | nil => simp [childOf]
  | cons a rest ih =>
    obtain ⟨m, c⟩ := a
    obtain ⟨hm, hrest⟩ := List.nodup_cons.mp h
    rw [childOf, List.mem_cons, ih hrest]
    split_ifs with hne
    · subst hne
      rw [childOf_eq_none.mpr hm]
      simp [eq_comm]
    · simp [Ne.symm hne]

/-- Remove a child of a directory. -/
def removeChild (name : Bytes) (dir : WorkingCopy) : WorkingCopy :=
  dir.filter fun child => child.1 ≠ name

theorem childOf_removeChild (name : Bytes) (dir : WorkingCopy) (n : Bytes) :
    childOf n (removeChild name dir) = if n = name then none else childOf n dir := by
  induction dir with
  | nil => simp [removeChild, childOf]
  | cons child rest ih =>
    obtain ⟨bytes, node⟩ := child
    by_cases hb : bytes = name
    · subst hb
      rw [removeChild, List.filter_cons_of_neg (by simp), ← removeChild, ih, childOf]
      by_cases hn : n = bytes
      · rw [if_pos hn, if_pos hn]
      · rw [if_neg hn, if_neg hn, if_neg (Ne.symm hn)]
    · rw [removeChild, List.filter_cons_of_pos (by simpa using hb), ← removeChild, childOf, childOf,
        ih]
      by_cases hn : bytes = n
      · subst hn
        rw [if_pos rfl, if_pos rfl, if_neg hb]
      · rw [if_neg hn, if_neg hn]

theorem DistinctNames.removeChild {dir : WorkingCopy} (h : DistinctNames dir) (name : Bytes) :
    DistinctNames (removeChild name dir) :=
  List.Nodup.sublist (List.Sublist.map _ List.filter_sublist) h

/-! ## Programs that change a directory -/

/-- Programs that change a directory; one that fails keeps what it has done. -/
abbrev DirM := EStateM Error WorkingCopy

/-- Work in the directory called `name`. -/
def inside {α : Type} (name : String) (x : DirM α) : DirM α := fun dir =>
  match childOf (Utf8.encode name) dir with
  | some (.dir children) =>
    match x children with
    | .ok a children => .ok a (putChild (Utf8.encode name) (.dir children) dir)
    | .error e children => .error e (putChild (Utf8.encode name) (.dir children) dir)
  | some _ => .error (.io "Not a directory (os error 20)") dir
  | none => .error (.io "No such file or directory (os error 2)") dir

/-- Do `x` to the last name of a path, in the directory above it. -/
def atPath (x : String → DirM Unit) : List String → DirM Unit
  | [] => throw (.io "File exists (os error 17)")
  | [name] => x name
  | name :: next :: rest => inside name (atPath x (next :: rest))

/-- What the name stands for. -/
def lookUp (name : String) : DirM (Option Node) := do
  let dir ← get
  return childOf (Utf8.encode name) dir

/-- Let the name stand for `node`. -/
def setChild (name : String) (node : Node) : DirM Unit :=
  modify fun dir => putChild (Utf8.encode name) node dir

/-- Make a directory. -/
def createDir (name : String) : DirM Unit := do
  match ← lookUp name with
  | some _ => throw (.io "File exists (os error 17)")
  | none => setChild name (.dir [])

/-- Make the directories of a path that are not there. -/
def createDirAll : List String → DirM Unit
  | [] => return ()
  | name :: rest => do
    match ← lookUp name with
    | none => setChild name (.dir [])
    | some (.dir _) => pure ()
    | some _ => throw (.io (if rest.isEmpty then "File exists (os error 17)"
        else "Not a directory (os error 20)"))
    inside name (createDirAll rest)

/-- Write a file, or over a file. Behind a symlink or a device lies something else; `special` says
how writing there fails, if it does. -/
def writeFile (special : Node → Option Error) (name : String) (bytes : Bytes) : DirM Unit := do
  match ← lookUp name with
  | none => setChild name (.file bytes false)
  | some (.file _ executable) => setChild name (.file bytes executable)
  | some (.dir _) => throw (.io "Is a directory (os error 21)")
  | some node =>
    match special node with
    | some e => throw e
    | none => return ()

/-- Set the executable bits of a file. -/
def setExecutable (name : String) : DirM Unit := do
  match ← lookUp name with
  | none => throw (.io "No such file or directory (os error 2)")
  | some (.file bytes _) => setChild name (.file bytes true)
  | some _ => return ()

/-- How making a symlink to `target` fails whatever else there is: a target is not empty and has no
NUL. -/
def linkFault (target : String) : Option Error :=
  if '\x00' ∈ target.toList then
    some (.io "file name contained an unexpected NUL byte")
  else if target = "" then some (.io "No such file or directory (os error 2)")
  else none

/-- Make a symlink. -/
def makeSymlink (name target : String) : DirM Unit := do
  match linkFault target with
  | some e => throw e
  | none =>
    match ← lookUp name with
    | some _ => throw (.io "File exists (os error 17)")
    | none => setChild name (.symlink (Utf8.encode target))

/-- What an operation does. -/
def FsAction.perform (special : Node → Option Error) : FsAction → DirM Unit
  | .createDirAll path => Tig.createDirAll path
  | .createDir path => atPath Tig.createDir path
  | .write path bytes => atPath (fun name => writeFile special name bytes) path
  | .setExecutable path => atPath Tig.setExecutable path
  | .symlink path target => atPath (fun name => makeSymlink name target) path

/-- Perform operations one after the other, up to the first that fails. -/
def performAll (special : Node → Option Error) : List FsAction → DirM Unit
  | [] => return ()
  | a :: as => do
    a.perform special
    performAll special as

/-! ## What the operations do -/

section Specs

variable {name : String} {dir : WorkingCopy} {Q : Unit → WorkingCopy → Prop}
  {E : Error → WorkingCopy → Prop}

@[simp] theorem post_lookUp {R : Option Node → WorkingCopy → Prop} :
    Post (lookUp name) dir R E ↔ R (childOf (Utf8.encode name) dir) dir := Iff.rfl

@[simp] theorem post_setChild {node : Node} :
    Post (setChild name node) dir Q E ↔ Q () (putChild (Utf8.encode name) node dir) := Iff.rfl

/-- A directory is made where there is nothing. -/
theorem createDir_spec
    (hok : childOf (Utf8.encode name) dir = none → Q () (putChild (Utf8.encode name) (.dir []) dir))
    (herr : ∀ e, childOf (Utf8.encode name) dir ≠ none → E e dir) :
    Post (createDir name) dir Q E := by
  rw [createDir, post_bind, post_lookUp]
  cases hc : childOf (Utf8.encode name) dir with
  | none => exact hok hc
  | some node => exact herr _ (by rw [hc]; exact Option.some_ne_none node)

/-- A symlink is made where there is nothing, if its target can be one. -/
theorem makeSymlink_spec {target : String}
    (hok : linkFault target = none → childOf (Utf8.encode name) dir = none →
      Q () (putChild (Utf8.encode name) (.symlink (Utf8.encode target)) dir))
    (herr : ∀ e, linkFault target ≠ none ∨ childOf (Utf8.encode name) dir ≠ none → E e dir) :
    Post (makeSymlink name target) dir Q E := by
  rw [makeSymlink]
  cases hf : linkFault target with
  | some e => exact herr e (Or.inl (by rw [hf]; exact Option.some_ne_none e))
  | none =>
    dsimp only
    rw [post_bind, post_lookUp]
    cases hc : childOf (Utf8.encode name) dir with
    | none => exact hok hf hc
    | some node => exact herr _ (Or.inr (by rw [hc]; exact Option.some_ne_none node))

end Specs

/-! ## Working inside a directory -/

/-- The operation on a path of the directory called `name`. -/
def FsAction.below (name : String) : FsAction → FsAction
  | .createDirAll path => .createDirAll (name :: path)
  | .createDir path => .createDir (name :: path)
  | .write path bytes => .write (name :: path) bytes
  | .setExecutable path => .setExecutable (name :: path)
  | .symlink path target => .symlink (name :: path) target

/-- The operation is about something in the directory. -/
def FsAction.Within : FsAction → Prop
  | .createDirAll _ => False
  | .createDir path | .write path _ | .setExecutable path | .symlink path _ => path ≠ []

theorem atPath_cons (x : String → DirM Unit) (name : String) {path : List String}
    (h : path ≠ []) : atPath x (name :: path) = inside name (atPath x path) := by
  cases path with
  | nil => exact absurd rfl h
  | cons next rest => rfl

/-- An operation below a directory is an operation inside it. -/
theorem FsAction.perform_below {special : Node → Option Error} (name : String) {a : FsAction}
    (h : a.Within) : (a.below name).perform special = inside name (a.perform special) := by
  cases a with
  | createDirAll path => exact h.elim
  | createDir path => exact atPath_cons _ name h
  | write path bytes => exact atPath_cons _ name h
  | setExecutable path => exact atPath_cons _ name h
  | symlink path target => exact atPath_cons _ name h

section Inside

variable {α β : Type} {name : String} {x : DirM α} {dir children children' : WorkingCopy}

theorem inside_ok {a : α} (h : childOf (Utf8.encode name) dir = some (.dir children))
    (hx : x children = .ok a children') :
    inside name x dir = .ok a (putChild (Utf8.encode name) (.dir children') dir) := by
  unfold inside
  rw [h]
  dsimp only
  rw [hx]

theorem inside_error {e : Error} (h : childOf (Utf8.encode name) dir = some (.dir children))
    (hx : x children = .error e children') :
    inside name x dir = .error e (putChild (Utf8.encode name) (.dir children') dir) := by
  unfold inside
  rw [h]
  dsimp only
  rw [hx]

/-- Two pieces of work in one directory are one. -/
theorem inside_bind (y : α → DirM β)
    (h : childOf (Utf8.encode name) dir = some (.dir children)) :
    inside name (x >>= y) dir = (inside name x >>= fun a => inside name (y a)) dir := by
  show _ = EStateM.bind (inside name x) _ dir
  unfold EStateM.bind
  cases hx : x children with
  | error e c =>
    have hxy : (x >>= y) children = .error e c := by
      show EStateM.bind x y children = _
      unfold EStateM.bind
      rw [hx]
    rw [inside_error h hxy, inside_error h hx]
  | ok a c =>
    have hxy : (x >>= y) children = y a c := by
      show EStateM.bind x y children = _
      unfold EStateM.bind
      rw [hx]
    rw [inside_ok h hx]
    dsimp only
    have hc : childOf (Utf8.encode name) (putChild (Utf8.encode name) (.dir c) dir) =
        some (.dir c) := by rw [childOf_putChild, if_pos rfl]
    cases hy : y a c with
    | error e c' =>
      rw [inside_error h (hxy.trans hy), inside_error hc hy, putChild_putChild]
    | ok b c' =>
      rw [inside_ok h (hxy.trans hy), inside_ok hc hy, putChild_putChild]

/-- What a piece of work in a directory achieves is seen in that directory. -/
theorem Post.inside {Q : α → WorkingCopy → Prop} {E : Error → WorkingCopy → Prop}
    (h : childOf (Utf8.encode name) dir = some (.dir children))
    (hx : Post x children (fun a c => Q a (putChild (Utf8.encode name) (.dir c) dir))
      (fun e c => E e (putChild (Utf8.encode name) (.dir c) dir))) :
    Post (Tig.inside name x) dir Q E := by
  refine .of_cases (fun a d hd => ?_) (fun e d hd => ?_)
  · cases hc : x children with
    | ok a' c =>
      rw [inside_ok h hc] at hd
      cases hd
      exact hx.ok hc
    | error e c =>
      rw [inside_error h hc] at hd
      cases hd
  · cases hc : x children with
    | ok a c =>
      rw [inside_ok h hc] at hd
      cases hd
    | error e' c =>
      rw [inside_error h hc] at hd
      cases hd
      exact hx.error hc

end Inside

/-- Operations one after the other. -/
theorem performAll_append (special : Node → Option Error) (as bs : List FsAction) :
    performAll special (as ++ bs) = (do performAll special as; performAll special bs) := by
  induction as with
  | nil => rfl
  | cons a as ih => rw [List.cons_append, performAll, ih, performAll, bind_assoc]

/-- **Operations below a directory** are operations inside it. -/
theorem performAll_below {special : Node → Option Error} {name : String} {as : List FsAction}
    (has : ∀ a ∈ as, a.Within) {dir children : WorkingCopy}
    (h : childOf (Utf8.encode name) dir = some (.dir children)) :
    performAll special (as.map (FsAction.below name)) dir =
      inside name (performAll special as) dir := by
  induction as generalizing dir children with
  | nil =>
    have hx : (performAll special [] : DirM Unit) children = .ok () children := rfl
    rw [inside_ok h hx, putChild_self h]
    rfl
  | cons a as ih =>
    rw [performAll, inside_bind _ h, List.map_cons, performAll,
      FsAction.perform_below name (has a List.mem_cons_self)]
    show EStateM.bind _ _ dir = EStateM.bind _ _ dir
    unfold EStateM.bind
    cases hx : a.perform special children with
    | error e c => rw [inside_error h hx]
    | ok u c =>
      rw [inside_ok h hx]
      apply ih fun b hb => has b (List.mem_cons_of_mem _ hb)
      rw [childOf_putChild, if_pos rfl]

/-! ## What there is to see -/

/-- What one sees of a node without looking into it. -/
inductive Shape where
  | file (bytes : Bytes) (executable : Bool)
  | dir
  | symlink (target : Bytes)
  | other (kind : String)
deriving DecidableEq, Repr

/-- What one sees of a node. -/
def Node.shape : Node → Shape
  | .file bytes executable => .file bytes executable
  | .dir _ => .dir
  | .symlink target => .symlink target
  | .other kind => .other kind

/-- What lies at a path of a directory. -/
def shapeAt : WorkingCopy → List Bytes → Option Shape
  | _, [] => none
  | dir, [name] => (childOf name dir).map Node.shape
  | dir, name :: next :: rest =>
    match childOf name dir with
    | some (.dir children) => shapeAt children (next :: rest)
    | _ => none

theorem shapeAt_congr {dir dir' : WorkingCopy} (h : ∀ n, childOf n dir = childOf n dir')
    (path : List Bytes) : shapeAt dir path = shapeAt dir' path := by
  match path with
  | [] => rfl
  | [name] => rw [shapeAt, shapeAt, h]
  | name :: next :: rest => rw [shapeAt, shapeAt, h]

/-- The same files, directories and links at the same paths. -/
def SameContents (dir dir' : WorkingCopy) : Prop := ∀ path, shapeAt dir path = shapeAt dir' path

@[refl] theorem SameContents.refl (dir : WorkingCopy) : SameContents dir dir := fun _ => rfl

theorem SameContents.symm {dir dir' : WorkingCopy} (h : SameContents dir dir') :
    SameContents dir' dir := fun path => (h path).symm

@[trans] theorem SameContents.trans {dir dir' dir'' : WorkingCopy} (h : SameContents dir dir')
    (h' : SameContents dir' dir'') : SameContents dir dir'' := fun path => (h path).trans (h' path)

end Tig
