import Tig.Fs.Resolution

set_option relaxedAutoImplicit false
set_option autoImplicit false

/-!
# Files by path

What programs do to the files of a disk by their paths: make directories, write, rename, remove,
read and list. A path is resolved anew by each operation. An operation that fails leaves the disk as
it is.

## Main definitions

* `Tig.PathFs` — what the file system does beyond directories and symlinks.
* `Tig.PathFs.createDirAll`, `Tig.PathFs.write`, `Tig.PathFs.rename`, `Tig.PathFs.removeFile` — the
  operations that change the disk.
* `Tig.PathFs.read`, `Tig.PathFs.readToString`, `Tig.PathFs.readDir` — those that do not.
* `Tig.RawPath.parent`, `Tig.RawPath.fileName` — the parts of a path, read as text.

## Main results

* `Tig.walk_alter` — a path leads to the same directory after a change that keeps directories and
  symlinks.
* `Tig.PathFs.createDirAll_dir` — making a directory that is there changes nothing.
* `Tig.PathFs.write_new`, `Tig.PathFs.rename_file`, `Tig.PathFs.removeFile_name`,
  `Tig.PathFs.read_name` — the operations on a name of a directory.
-/

namespace Tig

open Program

/-! ## Paths as text -/

namespace RawPath

/-- The components of a path without the dots, which programs do not look at. -/
def lexical (path : RawPath) : List Bytes := path.comps.filter (· ≠ [46])

/-- The path without its last component. -/
def parent (path : RawPath) : Option RawPath :=
  if path.lexical = [] then none else some ⟨path.lexical.dropLast, false⟩

/-- The last component, if it is a name. -/
def fileName (path : RawPath) : Option Bytes :=
  path.lexical.getLast?.filter (· ≠ [46, 46])

end RawPath

/-! ## The operations -/

/-- A file system: how many symlinks it follows, how long a name may be, and what reading and writing
something else than a file or a directory gives. -/
structure PathFs where
  links : Nat
  nameMax : Nat
  readSpecial : Node → Except String Bytes
  writeSpecial : Node → Option Error

namespace PathFs

variable (fs : PathFs)

/-- A name that is looked up is not too long. -/
def checkSpot : Spot → Except Error Unit
  | .directory _ => .ok ()
  | .entry _ name =>
    if fs.nameMax < name.length then .error (.io "File name too long (os error 36)") else .ok ()

/-- Where a path ends. The last component is not followed. -/
def lastSpot (root : WorkingCopy) (path : RawPath) : Except Error Spot := do
  checkNul path
  let spot ← spotOf root fs.links [] path.comps
  fs.checkSpot spot
  .ok spot

/-- Where a path leads, and whether a slash follows there. -/
def openSpot (root : WorkingCopy) (path : RawPath) : Except Error (Spot × Bool) := do
  checkNul path
  let place ← fileSpot root fs.links [] path.comps path.slash
  fs.checkSpot place.1
  .ok place

/-- Does a path lead to a directory? -/
def isDir (root : WorkingCopy) (path : RawPath) : Bool :=
  match checkNul path, walk root fs.links [] path.comps with
  | .ok _, .ok _ => true
  | _, _ => false

/-- Make a directory. -/
def createDir (path : RawPath) : DirM Unit := do
  let root ← get
  let _ ← fromExcept (fs.lastSpot root path)
  let effect ← fromExcept (planDir fs.links root path)
  set (effect.apply root)

/-- An error does not matter where a directory is. -/
def unlessDir (path : RawPath) (e : Error) : DirM Unit := do
  let root ← get
  if fs.isDir root path then return () else throw e

/-- Make the directories of a path that are not there; the components stand in reverse. -/
def createDirAll : List Bytes → DirM Unit
  | [] => return ()
  | name :: above =>
    let path : RawPath := ⟨(name :: above).reverse, false⟩
    tryCatch (fs.createDir path) fun e =>
      if e = .io "No such file or directory (os error 2)" then do
        createDirAll above
        tryCatch (fs.createDir path) (fs.unlessDir path)
      else fs.unlessDir path e

/-- Create a file, or empty the one that is there, and write to it. -/
def write (path : RawPath) (contents : Bytes) : DirM Unit := do
  let root ← get
  let _ ← fromExcept (fs.openSpot root path)
  let effect ← fromExcept (planWrite fs.writeSpecial fs.links root path contents)
  set (effect.apply root)

/-- Rename something that is no directory. What stands under the new name is replaced. -/
def rename (old new : RawPath) : DirM Unit := do
  let root ← get
  match ← fromExcept (fs.lastSpot root old), ← fromExcept (fs.lastSpot root new) with
  | .entry loc name, .entry loc' name' =>
    match nodeOf root loc name with
    | none => throw (.io "No such file or directory (os error 2)")
    | some (.dir _) => throw (.io "Is a directory (os error 21)")
    | some node =>
      if old.slash || new.slash then throw (.io "Not a directory (os error 20)")
      else
        match nodeOf root loc' name' with
        | some (.dir _) => throw (.io "Is a directory (os error 21)")
        | _ => set (alter (putChild name' node) loc' (alter (removeChild name) loc root))
  | _, _ => throw (.io "Device or resource busy (os error 16)")

/-- Remove a file. -/
def removeFile (path : RawPath) : DirM Unit := do
  let root ← get
  match ← fromExcept (fs.lastSpot root path) with
  | .directory _ => throw (.io "Is a directory (os error 21)")
  | .entry loc name =>
    match nodeOf root loc name with
    | none => throw (.io "No such file or directory (os error 2)")
    | some (.dir _) => throw (.io "Is a directory (os error 21)")
    | some _ =>
      if path.slash then throw (.io "Not a directory (os error 20)")
      else set (alter (removeChild name) loc root)

/-- Read a file. -/
def read (root : WorkingCopy) (path : RawPath) : Except Error Bytes := do
  match ← fs.openSpot root path with
  | (.directory _, _) => .error (.io "Is a directory (os error 21)")
  | (.entry loc name, slash) =>
    match nodeOf root loc name with
    | none => .error (.io "No such file or directory (os error 2)")
    | some (.file bytes _) =>
      if slash then .error (.io "Not a directory (os error 20)") else .ok bytes
    | some (.dir _) => .error (.io "Is a directory (os error 21)")
    | some node => (fs.readSpecial node).mapError .io

/-- Read a file that holds text. -/
def readToString (root : WorkingCopy) (path : RawPath) : Except Error String := do
  let bytes ← fs.read root path
  match Utf8.decode bytes with
  | some text => .ok text
  | none => .error (.io "stream did not contain valid UTF-8")

/-- The names in a directory. -/
def readDir (root : WorkingCopy) (path : RawPath) : Except Error (List Bytes) := do
  checkNul path
  let loc ← walk root fs.links [] path.comps
  match dirOf root loc with
  | some dir => .ok (dir.map Prod.fst)
  | none => .error (.io "Not a directory (os error 20)")

end PathFs

/-! ## Ways that stay -/

section Ways

variable {root : WorkingCopy} {loc : Location} {dir : WorkingCopy}
  {f g : WorkingCopy → WorkingCopy}

/-- What paths go through: directories and symlinks. -/
def Shape.isWay : Shape → Bool
  | .dir | .symlink _ => true
  | .file _ _ | .other _ => false

/-- Directories and symlinks of a directory stay as they are. -/
def KeepsWays (f : WorkingCopy → WorkingCopy) (dir : WorkingCopy) : Prop :=
  ∀ name node, childOf name dir = some node → node.shape.isWay = true →
    childOf name (f dir) = some node

/-- A new name is on no way. -/
theorem keepsWays_putChild {name : Bytes} (h : childOf name dir = none) (node : Node) :
    KeepsWays (putChild name node) dir := by
  intro n other hn _
  rw [childOf_putChild, if_neg, hn]
  rintro rfl
  rw [h] at hn
  cases hn

/-- What one sees at a name of a directory. -/
theorem shapeAt_concat (root : WorkingCopy) (loc : Location) (name : Bytes) :
    shapeAt root (loc ++ [name]) = (nodeOf root loc name).map Node.shape := by
  induction loc generalizing root with
  | nil => rfl
  | cons first loc ih =>
    obtain ⟨next, rest, hcons⟩ := List.exists_cons_of_ne_nil (show loc ++ [name] ≠ [] by simp)
    rw [List.cons_append, hcons, shapeAt, ← hcons, nodeOf, dirOf]
    cases childOf first root with
    | none => rfl
    | some node =>
      cases node with
      | dir children => exact ih children
      | file bytes executable => rfl
      | symlink target => rfl
      | other kind => rfl

/-- A change of a directory that keeps the ways through it keeps all ways there are. -/
theorem shapeAt_alter_way (hdir : dirOf root loc = some dir) (hf : KeepsWays f dir)
    {path : Location} {shape : Shape} (hshape : shapeAt root path = some shape)
    (hway : shape.isWay = true) : shapeAt (alter f loc root) path = some shape := by
  induction loc generalizing root path with
  | nil =>
    obtain rfl := Option.some.inj hdir
    match path with
    | [] => cases hshape
    | [name] =>
      rw [shapeAt, Option.map_eq_some_iff] at hshape
      obtain ⟨node, hnode, rfl⟩ := hshape
      rw [alter, shapeAt, hf name node hnode hway]
      rfl
    | name :: next :: rest =>
      rw [shapeAt] at hshape
      cases hc : childOf name root with
      | none =>
        rw [hc] at hshape
        cases hshape
      | some node =>
        rw [hc] at hshape
        cases node with
        | dir children =>
          rw [alter, shapeAt, hf name _ hc rfl]
          exact hshape
        | file bytes executable => cases hshape
        | symlink target => cases hshape
        | other kind => cases hshape
  | cons first loc ih =>
    obtain ⟨children, hc, hd⟩ := dirOf_cons hdir
    rw [alter, hc]
    dsimp only
    match path with
    | [] => cases hshape
    | [name] =>
      rw [shapeAt] at hshape ⊢
      rw [childOf_putChild]
      split_ifs with hn
      · rw [hn, hc] at hshape
        exact hshape
      · exact hshape
    | name :: next :: rest =>
      rw [shapeAt] at hshape ⊢
      rw [childOf_putChild]
      split_ifs with hn
      · rw [hn, hc] at hshape
        exact ih hd hshape
      · exact hshape

/-- Directories and symlinks stay where they are. -/
def SameWays (root root' : WorkingCopy) : Prop :=
  ∀ loc name node, nodeOf root loc name = some node → node.shape.isWay = true →
    ∃ node', nodeOf root' loc name = some node' ∧ node'.shape = node.shape

theorem SameWays.alter (hdir : dirOf root loc = some dir) (hf : KeepsWays f dir) :
    SameWays root (alter f loc root) := by
  intro l name node hnode hway
  have hshape : shapeAt root (l ++ [name]) = some node.shape := by
    rw [shapeAt_concat, hnode]
    rfl
  have hafter := shapeAt_alter_way hdir hf hshape hway
  rw [shapeAt_concat, Option.map_eq_some_iff] at hafter
  exact hafter

/-- A change that is not in a directory or below it, and keeps the ways, does not show there. -/
theorem dirOf_alter_apart {loc' : Location} {d : WorkingCopy} (hdir : dirOf root loc' = some dir)
    (hf : KeepsWays f dir) (hapart : ¬ loc <+: loc') (h : dirOf root loc = some d) :
    dirOf (Tig.alter f loc' root) loc = some d := by
  induction loc' generalizing root loc with
  | nil =>
    obtain rfl := Option.some.inj hdir
    cases loc with
    | nil => exact absurd List.nil_prefix hapart
    | cons first loc =>
      obtain ⟨children, hc, hd⟩ := dirOf_cons h
      rw [Tig.alter, dirOf_of_child (hf first _ hc rfl)]
      exact hd
  | cons first' loc' ih =>
    obtain ⟨children', hc', hd'⟩ := dirOf_cons hdir
    cases loc with
    | nil => exact absurd List.nil_prefix hapart
    | cons first loc =>
      obtain ⟨children, hc, hd⟩ := dirOf_cons h
      rw [Tig.alter, hc']
      dsimp only
      by_cases hfirst : first = first'
      · subst hfirst
        rw [List.cons_prefix_cons] at hapart
        obtain rfl := Node.dir.inj (Option.some.inj (hc.symm.trans hc'))
        rw [dirOf_of_child ((childOf_putChild _ _ _ _).trans (if_pos rfl))]
        exact ih hd' (fun hpre => hapart ⟨rfl, hpre⟩) hd
      · rw [dirOf_of_child (((childOf_putChild _ _ _ _).trans (if_neg hfirst)).trans hc)]
        exact hd

/-- A path leads to the same directory where directories and symlinks have stayed; `follow` and
`follow'` do the same behind a symlink. -/
theorem walkWith_sameWays {root' : WorkingCopy} (h : SameWays root root')
    {follow follow' : Location → List Bytes → Except Error Location}
    (hfollow : ∀ l comps loc, follow l comps = .ok loc → follow' l comps = .ok loc)
    {start : Location} {comps : List Bytes} (hwalk : walkWith follow root start comps = .ok loc) :
    walkWith follow' root' start comps = .ok loc := by
  induction comps generalizing start with
  | nil => exact hwalk
  | cons name rest ih =>
    rw [walkWith] at hwalk ⊢
    split_ifs at hwalk ⊢ with hdot hdots
    · exact ih hwalk
    · exact ih hwalk
    · cases hnode : nodeOf root start name with
      | none =>
        rw [hnode] at hwalk
        cases hwalk
      | some node =>
        rw [hnode] at hwalk
        cases node with
        | dir children =>
          obtain ⟨node', hnode', hshape⟩ := h start name _ hnode rfl
          rw [hnode']
          cases node' with
          | dir children' => exact ih hwalk
          | file bytes executable => cases hshape
          | symlink target => cases hshape
          | other kind => cases hshape
        | symlink target =>
          obtain ⟨node', hnode', hshape⟩ := h start name _ hnode rfl
          rw [hnode']
          cases node' with
          | symlink target' =>
            cases hshape
            exact hfollow _ _ _ hwalk
          | dir children' => cases hshape
          | file bytes executable => cases hshape
          | other kind => cases hshape
        | file bytes executable => cases hwalk
        | other kind => cases hwalk

theorem walk_sameWays {root' : WorkingCopy} (h : SameWays root root') {links : Nat}
    {start : Location} {comps : List Bytes} (hwalk : walk root links start comps = .ok loc) :
    walk root' links start comps = .ok loc := by
  induction links generalizing start comps loc with
  | zero => exact walkWith_sameWays h (fun _ _ _ hno => by cases hno) hwalk
  | succ links ih => exact walkWith_sameWays h (fun _ _ _ hl => ih hl) hwalk

/-- **A path leads to the same directory** after a change that keeps the ways. -/
theorem walk_alter {links : Nat} {start l : Location} {comps : List Bytes}
    (hdir : dirOf root loc = some dir) (hf : KeepsWays f dir)
    (hwalk : walk root links start comps = .ok l) :
    walk (alter f loc root) links start comps = .ok l :=
  walk_sameWays (.alter hdir hf) hwalk

/-- A path goes on into a directory. -/
theorem walkWith_into {name : Bytes} (hname : isDots name = false) {children : WorkingCopy}
    {follow : Location → List Bytes → Except Error Location}
    (hnode : nodeOf root loc name = some (.dir children))
    (hfollow : ∀ l comps, follow l comps = .ok loc →
      follow l (comps ++ [name]) = .ok (loc ++ [name]))
    {start : Location} {comps : List Bytes} (hwalk : walkWith follow root start comps = .ok loc) :
    walkWith follow root start (comps ++ [name]) = .ok (loc ++ [name]) := by
  simp only [isDots, Bool.or_eq_false_iff, decide_eq_false_iff_not] at hname
  induction comps generalizing start with
  | nil =>
    obtain rfl := Except.ok.inj hwalk
    rw [List.nil_append, walkWith, if_neg hname.1, if_neg hname.2, hnode]
    rfl
  | cons first rest ih =>
    rw [List.cons_append, walkWith]
    rw [walkWith] at hwalk
    split_ifs at hwalk ⊢ with hdot hdots
    · exact ih hwalk
    · exact ih hwalk
    · cases hfirst : nodeOf root start first with
      | none =>
        rw [hfirst] at hwalk
        cases hwalk
      | some node =>
        rw [hfirst] at hwalk
        cases node with
        | dir children' => exact ih hwalk
        | symlink target =>
          dsimp only
          rw [← List.append_assoc]
          exact hfollow _ _ hwalk
        | file bytes executable => cases hwalk
        | other kind => cases hwalk

theorem walk_into {links : Nat} {start : Location} {comps : List Bytes} {name : Bytes}
    (hname : isDots name = false) {children : WorkingCopy}
    (hwalk : walk root links start comps = .ok loc)
    (hnode : nodeOf root loc name = some (.dir children)) :
    walk root links start (comps ++ [name]) = .ok (loc ++ [name]) := by
  induction links generalizing start comps with
  | zero => exact walkWith_into hname hnode (fun _ _ hno => by cases hno) hwalk
  | succ links ih => exact walkWith_into hname hnode (fun _ _ hl => ih hl) hwalk

/-- Before its last name a path leads to a directory, in which there is something under the name. -/
theorem walkWith_above {name : Bytes} (hname : isDots name = false)
    {follow : Location → List Bytes → Except Error Location}
    (hfollow : ∀ l comps loc, follow l (comps ++ [name]) = .ok loc →
      ∃ above, follow l comps = .ok above ∧ (nodeOf root above name).isSome)
    {start : Location} {comps : List Bytes}
    (hwalk : walkWith follow root start (comps ++ [name]) = .ok loc) :
    ∃ above, walkWith follow root start comps = .ok above ∧ (nodeOf root above name).isSome := by
  simp only [isDots, Bool.or_eq_false_iff, decide_eq_false_iff_not] at hname
  induction comps generalizing start with
  | nil =>
    refine ⟨start, rfl, ?_⟩
    rw [List.nil_append, walkWith, if_neg hname.1, if_neg hname.2] at hwalk
    cases hnode : nodeOf root start name with
    | none =>
      rw [hnode] at hwalk
      cases hwalk
    | some node => rfl
  | cons first rest ih =>
    rw [List.cons_append, walkWith] at hwalk
    rw [walkWith]
    split_ifs at hwalk ⊢ with hdot hdots
    · exact ih hwalk
    · exact ih hwalk
    · cases hfirst : nodeOf root start first with
      | none =>
        rw [hfirst] at hwalk
        cases hwalk
      | some node =>
        rw [hfirst] at hwalk
        cases node with
        | dir children' => exact ih hwalk
        | symlink target =>
          dsimp only at hwalk
          rw [← List.append_assoc] at hwalk
          exact hfollow _ _ _ hwalk
        | file bytes executable => cases hwalk
        | other kind => cases hwalk

theorem walk_above {links : Nat} {start : Location} {comps : List Bytes} {name : Bytes}
    (hname : isDots name = false) (hwalk : walk root links start (comps ++ [name]) = .ok loc) :
    ∃ above, walk root links start comps = .ok above ∧ (nodeOf root above name).isSome := by
  induction links generalizing start comps loc with
  | zero => exact walkWith_above hname (fun _ _ _ hno => by cases hno) hwalk
  | succ links ih =>
    have hfollow : ∀ l comps loc, walk root links l (comps ++ [name]) = .ok loc →
        ∃ above, walk root links l comps = .ok above ∧ (nodeOf root above name).isSome :=
      fun _ _ _ hl => ih hl
    exact walkWith_above hname hfollow hwalk

/-- Dots in a path do not matter. -/
theorem walk_filter_dot (root : WorkingCopy) (links : Nat) (start : Location)
    (before comps : List Bytes) :
    walk root links start (before ++ comps.filter (· ≠ [46])) =
      walk root links start (before ++ comps) := by
  induction comps generalizing before with
  | nil => rfl
  | cons name comps ih =>
    by_cases hname : name = [46]
    · rw [List.filter_cons_of_neg (by simpa using hname), ih, hname, walk_dot]
    · rw [List.filter_cons_of_pos (by simpa using hname)]
      have h := ih (before ++ [name])
      rwa [List.append_assoc, List.append_assoc] at h

end Ways

/-! ## A name of a directory -/

theorem nodeOf_dir {root : WorkingCopy} {loc : Location} {dir : WorkingCopy}
    (hdir : dirOf root loc = some dir) (name : Bytes) : nodeOf root loc name = childOf name dir := by
  rw [nodeOf, hdir, Option.bind_some]

namespace PathFs

variable {fs : PathFs} {root : WorkingCopy} {comps : List Bytes} {loc : Location}
  {dir : WorkingCopy} {name : Bytes}

theorem checkSpot_error {spot : Spot} {e : Error} (h : fs.checkSpot spot = .error e) :
    e ≠ .io "No such file or directory (os error 2)" := by
  cases spot with
  | directory l => cases h
  | entry l n =>
    rw [checkSpot] at h
    split_ifs at h
    obtain rfl := Except.error.inj h
    decide

theorem checkNul_error {path : RawPath} {e : Error} (h : checkNul path = .error e) :
    e ≠ .io "No such file or directory (os error 2)" := by
  unfold checkNul at h
  split_ifs at h
  obtain rfl := Except.error.inj h
  decide

section Spots

variable (hwalk : walk root fs.links [] comps = .ok loc) (hname : isDots name = false)

include hwalk hname

theorem spotOf_name : spotOf root fs.links [] (comps ++ [name]) = .ok (.entry loc name) := by
  simp [spotOf, hname, hwalk, Except.map]

/-- Looking for a name in a directory ends there, or the path cannot be asked for. -/
theorem lastSpot_name (slash : Bool) :
    (fs.lastSpot root ⟨comps ++ [name], slash⟩ = .ok (.entry loc name) ∧ name.length ≤ fs.nameMax) ∨
      ∃ e, fs.lastSpot root ⟨comps ++ [name], slash⟩ = .error e ∧
        e ≠ .io "No such file or directory (os error 2)" := by
  rw [lastSpot]
  cases hnul : checkNul ⟨comps ++ [name], slash⟩ with
  | error e =>
    exact .inr ⟨e, rfl, checkNul_error hnul⟩
  | ok u =>
    rw [spotOf_name hwalk hname]
    by_cases hlen : fs.nameMax < name.length
    · refine .inr ⟨.io "File name too long (os error 36)", ?_, by decide⟩
      simp [bind, Except.bind, checkSpot, hlen]
    · refine .inl ⟨?_, not_lt.mp hlen⟩
      simp [bind, Except.bind, checkSpot, hlen]

theorem lastSpot_eq (hnul : checkNul ⟨comps ++ [name], false⟩ = .ok ())
    (hlen : name.length ≤ fs.nameMax) :
    fs.lastSpot root ⟨comps ++ [name], false⟩ = .ok (.entry loc name) := by
  rw [lastSpot, hnul, spotOf_name hwalk hname]
  simp [bind, Except.bind, checkSpot, not_lt.mpr hlen]

end Spots

/-! ### A directory that is there -/

/-- A path that leads to a directory ends at a directory, or at a name with something under it. -/
theorem spotOf_dir (hwalk : walk root fs.links [] comps = .ok loc) :
    ∃ spot, spotOf root fs.links [] comps = .ok spot ∧
      ∀ l n, spot = .entry l n → (nodeOf root l n).isSome := by
  rw [spotOf]
  cases hlast : comps.getLast? with
  | none => exact ⟨_, rfl, fun l n h => by cases h⟩
  | some last =>
    dsimp only
    by_cases hdots : isDots last = true
    · rw [if_pos hdots, hwalk]
      exact ⟨_, rfl, fun l n h => by cases h⟩
    · rw [if_neg hdots]
      have hcomps := List.dropLast_append_getLast? last hlast
      rw [Bool.not_eq_true] at hdots
      rw [← hcomps] at hwalk
      obtain ⟨above, habove, hthere⟩ := walk_above hdots hwalk
      rw [habove]
      refine ⟨_, rfl, ?_⟩
      rintro l n ⟨⟩
      exact hthere

/-- A directory that is there is not made, but not for want of the directories above it. -/
theorem createDir_dir (hwalk : walk root fs.links [] comps = .ok loc) :
    Post (fs.createDir ⟨comps, false⟩) root (fun _ _ => False)
      (fun e root' => root' = root ∧ e ≠ .io "No such file or directory (os error 2)") := by
  obtain ⟨spot, hspot, hthere⟩ := spotOf_dir hwalk
  rw [createDir, post_bind, post_get, post_bind, post_fromExcept]
  cases hnul : checkNul ⟨comps, false⟩ with
  | error e =>
    rw [lastSpot, hnul]
    refine ⟨nofun, ?_⟩
    rintro _ ⟨⟩
    exact ⟨rfl, checkNul_error hnul⟩
  | ok u =>
    have hplan : planDir fs.links root ⟨comps, false⟩ =
        .error (.io "File exists (os error 17)") := by
      rw [planDir, hnul, hspot]
      cases spot with
      | directory l => rfl
      | entry l n =>
        obtain ⟨node, hnode⟩ := Option.isSome_iff_exists.mp (hthere l n rfl)
        simp only [bind, Except.bind, hnode]
    refine ⟨fun _ _ => ?_, fun e he => ⟨rfl, ?_⟩⟩
    · rw [post_bind, hplan]
      exact ⟨rfl, by decide⟩
    · rw [lastSpot, hnul, hspot] at he
      change (fs.checkSpot spot >>= fun _ => .ok spot) = .error e at he
      rcases except_bind_eq_error.mp he with hcheck | ⟨_, -, hcheck⟩
      · exact checkSpot_error hcheck
      · cases hcheck

theorem isDir_of_walk (hnul : checkNul ⟨comps, false⟩ = .ok ())
    (hwalk : walk root fs.links [] comps = .ok loc) : fs.isDir root ⟨comps, false⟩ = true := by
  rw [isDir, hnul, hwalk]

/-- **Making a directory that is there** changes nothing. -/
theorem createDirAll_dir (hnul : checkNul ⟨comps, false⟩ = .ok ())
    (hwalk : walk root fs.links [] comps = .ok loc) :
    Post (fs.createDirAll comps.reverse) root (fun _ root' => root' = root) (fun _ _ => False) := by
  cases hrev : comps.reverse with
  | nil => exact rfl
  | cons name above =>
    have hcomps : (name :: above).reverse = comps := by rw [← hrev, List.reverse_reverse]
    rw [createDirAll, hcomps, post_tryCatch]
    refine (createDir_dir hwalk).mono (fun _ _ h => h.elim) ?_
    rintro e _ ⟨rfl, he⟩
    rw [if_neg he, unlessDir, post_bind, post_get, isDir_of_walk hnul hwalk, if_pos rfl]
    exact rfl

/-! ### A directory that is new -/

section New

variable (hwalk : walk root fs.links [] comps = .ok loc) (hname : isDots name = false)
  (hnone : nodeOf root loc name = none)

include hwalk hname hnone

/-- Nothing is a directory, and neither is what is below nothing. -/
theorem walk_missing (rest : List Bytes) (hrest : ∀ n ∈ rest, isDots n = false) (l : Location) :
    walk root fs.links [] (comps ++ name :: rest) ≠ .ok l := by
  induction rest using List.reverseRecOn generalizing l with
  | nil =>
    intro h
    obtain ⟨above, habove, hthere⟩ := walk_above hname h
    obtain rfl := Except.ok.inj (hwalk.symm.trans habove)
    rw [hnone] at hthere
    cases hthere
  | append_singleton rest last ih =>
    intro h
    rw [← List.cons_append, ← List.append_assoc] at h
    obtain ⟨above, habove, -⟩ := walk_above (hrest last (by simp)) h
    exact ih (fun n hn => hrest n (List.mem_append_left _ hn)) above habove

theorem isDir_missing (rest : List Bytes) (hrest : ∀ n ∈ rest, isDots n = false) :
    fs.isDir root ⟨comps ++ name :: rest, false⟩ = false := by
  rw [isDir]
  cases hw : walk root fs.links [] (comps ++ name :: rest) with
  | ok l => exact absurd hw (walk_missing hwalk hname hnone rest hrest l)
  | error e => cases checkNul ⟨comps ++ name :: rest, false⟩ <;> rfl

/-- Making a directory under a new name. -/
theorem createDir_new :
    Post (fs.createDir ⟨comps ++ [name], false⟩) root
      (fun _ root' => name.length ≤ fs.nameMax ∧ checkNul ⟨comps ++ [name], false⟩ = .ok () ∧
        root' = alter (putChild name (.dir [])) loc root)
      (fun e root' => root' = root ∧ e ≠ .io "No such file or directory (os error 2)") := by
  rw [createDir, post_bind, post_get, post_bind, post_fromExcept]
  rcases lastSpot_name hwalk hname false with ⟨hspot, hlen⟩ | ⟨e, he, hne⟩
  · have hplan : planDir fs.links root ⟨comps ++ [name], false⟩ =
        .ok (.put loc name (.dir [])) ∧ checkNul ⟨comps ++ [name], false⟩ = .ok () := by
      obtain ⟨_, hnul, -⟩ := except_bind_eq_ok.mp hspot
      rw [planDir, hnul, spotOf_name hwalk hname]
      simp only [bind, Except.bind, hnone, and_self]
    rw [hspot]
    refine ⟨fun _ _ => ?_, nofun⟩
    rw [post_bind, hplan.1]
    exact ⟨hlen, hplan.2, rfl⟩
  · rw [he]
    refine ⟨nofun, ?_⟩
    rintro _ ⟨⟩
    exact ⟨rfl, hne⟩

/-- **Making a directory** under a new name, with those above it that are not there. -/
theorem createDirAll_new :
    Post (fs.createDirAll (comps ++ [name]).reverse) root
      (fun _ root' => name.length ≤ fs.nameMax ∧ checkNul ⟨comps ++ [name], false⟩ = .ok () ∧
        root' = alter (putChild name (.dir [])) loc root)
      (fun _ _ => True) := by
  have hcomps : (name :: comps.reverse).reverse = comps ++ [name] := by simp
  rw [List.reverse_append, List.reverse_singleton, List.singleton_append, createDirAll, hcomps,
    post_tryCatch]
  refine (createDir_new hwalk hname hnone).mono (fun _ _ h => h) ?_
  rintro e _ ⟨rfl, he⟩
  rw [if_neg he, unlessDir, post_bind, post_get, isDir_missing hwalk hname hnone [] nofun]
  exact trivial

/-- Below a name that is new nothing is made at first. -/
theorem createDir_missing {sub : Bytes} (hsub : isDots sub = false) :
    Post (fs.createDir ⟨comps ++ [name] ++ [sub], false⟩) root (fun _ _ => False)
      (fun _ root' => root' = root) := by
  rw [createDir, post_bind, post_get, post_bind, post_fromExcept]
  refine ⟨fun spot hspot => ?_, fun _ _ => rfl⟩
  obtain ⟨_, -, hspot⟩ := except_bind_eq_ok.mp hspot
  obtain ⟨spot', hspot', -⟩ := except_bind_eq_ok.mp hspot
  rw [spotOf, List.getLast?_concat] at hspot'
  dsimp only at hspot'
  rw [if_neg (by simp [hsub]), List.dropLast_concat] at hspot'
  cases hw : walk root fs.links [] (comps ++ [name]) with
  | ok l => exact (walk_missing hwalk hname hnone [] (by simp) l hw).elim
  | error e =>
    rw [hw] at hspot'
    cases hspot'

/-- **Making a directory in a new directory.** -/
theorem createDirAll_below (hdir : dirOf root loc = some dir) {sub : Bytes}
    (hsub : isDots sub = false) :
    Post (fs.createDirAll (comps ++ [name] ++ [sub]).reverse) root
      (fun _ root' => checkNul ⟨comps ++ [name], false⟩ = .ok () ∧
        walk root' fs.links [] (comps ++ [name]) = .ok (loc ++ [name]) ∧
        dirOf root' (loc ++ [name]) = some (putChild sub (.dir []) []))
      (fun _ _ => True) := by
  have hcomps : (sub :: (comps ++ [name]).reverse).reverse = comps ++ [name] ++ [sub] := by simp
  rw [List.reverse_append, List.reverse_singleton, List.singleton_append, createDirAll, hcomps,
    post_tryCatch]
  refine (createDir_missing hwalk hname hnone hsub).mono (fun _ _ h => h.elim) ?_
  rintro e disk rfl
  rw [post_ite]
  refine ⟨fun _ => ?_, fun _ => ?_⟩
  · rw [post_bind]
    refine (createDirAll_new hwalk hname hnone).mono ?_ (fun _ _ _ => trivial)
    rintro _ _ ⟨-, hnul, rfl⟩
    rw [nodeOf_dir hdir] at hnone
    -- the directory above is there now, and it is empty
    have hwalk₁ := walk_alter hdir (keepsWays_putChild hnone (.dir [])) hwalk
    have hdir₁ := dirOf_alter_self (putChild name (.dir [])) hdir
    have hnode₁ := (nodeOf_dir hdir₁ name).trans ((childOf_putChild _ _ _ _).trans (if_pos rfl))
    have hinto := walk_into hname hwalk₁ hnode₁
    have hempty : dirOf (alter (putChild name (.dir [])) loc disk) (loc ++ [name]) = some [] := by
      rw [dirOf_concat, hnode₁]
    have hnone₁ := (nodeOf_dir hempty sub).trans rfl
    rw [post_tryCatch]
    refine (createDir_new hinto hsub hnone₁).mono ?_ ?_
    · rintro _ _ ⟨-, -, rfl⟩
      exact ⟨hnul, walk_alter hempty (keepsWays_putChild rfl _) hinto,
        dirOf_alter_self _ hempty⟩
    · rintro e' _ ⟨rfl, -⟩
      rw [unlessDir, post_bind, post_get, isDir_missing hinto hsub hnone₁ [] nofun]
      exact trivial
  · rw [unlessDir, post_bind, post_get]
    rw [List.append_assoc, List.singleton_append,
      isDir_missing hwalk hname hnone [sub] (by simpa using hsub)]
    exact trivial

end New

/-! ### Names -/

section Names

variable (hwalk : walk root fs.links [] comps = .ok loc) (hdir : dirOf root loc = some dir)
  (hname : isDots name = false)

include hwalk hdir hname

/-- A file or nothing under a name is where the path of the name leads. -/
theorem openSpot_name (hlink : ∀ target, childOf name dir ≠ some (.symlink target)) :
    (fs.openSpot root ⟨comps ++ [name], false⟩ = .ok (.entry loc name, false) ∧
      name.length ≤ fs.nameMax) ∨
      ∃ e, fs.openSpot root ⟨comps ++ [name], false⟩ = .error e := by
  have hspot : fileSpot root fs.links [] (comps ++ [name]) false = .ok (.entry loc name, false) :=
    fileSpot_entry (spotOf_name hwalk hname) (by simpa only [nodeOf_dir hdir] using hlink)
  rw [openSpot]
  cases hnul : checkNul ⟨comps ++ [name], false⟩ with
  | error e => exact .inr ⟨e, rfl⟩
  | ok u =>
    dsimp only
    rw [hspot]
    by_cases hlen : fs.nameMax < name.length
    · refine .inr ⟨.io "File name too long (os error 36)", ?_⟩
      simp [bind, Except.bind, checkSpot, hlen]
    · refine .inl ⟨?_, not_lt.mp hlen⟩
      simp [bind, Except.bind, checkSpot, hlen]

/-- **Writing** where there is nothing makes a file. -/
theorem write_new (hnone : childOf name dir = none) (contents : Bytes) :
    Post (fs.write ⟨comps ++ [name], false⟩ contents) root
      (fun _ root' => name.length ≤ fs.nameMax ∧
        root' = alter (putChild name (.file contents false)) loc root)
      (fun _ root' => root' = root) := by
  rw [write, post_bind, post_get, post_bind, post_fromExcept]
  refine ⟨fun place hplace => ?_, fun _ _ => rfl⟩
  rcases openSpot_name hwalk hdir hname (by simp [hnone]) with ⟨-, hlen⟩ | ⟨e, he⟩
  · have hspot : fileSpot root fs.links [] (comps ++ [name]) false = .ok (.entry loc name, false) :=
      fileSpot_entry (spotOf_name hwalk hname) (by simp [nodeOf_dir hdir, hnone])
    rw [post_bind, post_fromExcept]
    refine ⟨fun effect heffect => ?_, fun _ _ => rfl⟩
    obtain ⟨_, -, heffect⟩ := except_bind_eq_ok.mp heffect
    rw [hspot] at heffect
    simp only [bind, Except.bind, nodeOf_dir hdir, hnone] at heffect
    obtain rfl := Except.ok.inj heffect
    exact ⟨hlen, rfl⟩
  · rw [hplace] at he
    cases he

/-- **Reading** what is under a name. -/
theorem read_name (hlink : ∀ target, childOf name dir ≠ some (.symlink target))
    (hnul : checkNul ⟨comps ++ [name], false⟩ = .ok ()) (hlen : name.length ≤ fs.nameMax) :
    fs.read root ⟨comps ++ [name], false⟩ =
      match childOf name dir with
      | none => .error (.io "No such file or directory (os error 2)")
      | some (.file bytes _) => .ok bytes
      | some (.dir _) => .error (.io "Is a directory (os error 21)")
      | some node => (fs.readSpecial node).mapError .io := by
  have hspot : fileSpot root fs.links [] (comps ++ [name]) false = .ok (.entry loc name, false) :=
    fileSpot_entry (spotOf_name hwalk hname) (by simpa only [nodeOf_dir hdir] using hlink)
  rw [read, openSpot, hnul]
  dsimp only
  rw [hspot]
  simp only [bind, Except.bind, checkSpot, not_lt.mpr hlen, if_false, nodeOf_dir hdir]
  cases childOf name dir with
  | none => rfl
  | some node => cases node <;> rfl

/-- **Removing** what is under a name. -/
theorem removeFile_name (slash : Bool) :
    Post (fs.removeFile ⟨comps ++ [name], slash⟩) root
      (fun _ root' => name.length ≤ fs.nameMax ∧
        (∀ children, childOf name dir ≠ some (.dir children)) ∧
        root' = alter (removeChild name) loc root)
      (fun e root' => root' = root ∧
        (e = .io "No such file or directory (os error 2)" → childOf name dir = none)) := by
  rw [removeFile, post_bind, post_get, post_bind, post_fromExcept]
  rcases lastSpot_name hwalk hname slash with ⟨hspot, hlen⟩ | ⟨e, he, hne⟩
  · rw [hspot]
    refine ⟨?_, nofun⟩
    rintro _ ⟨⟩
    dsimp only
    rw [nodeOf_dir hdir]
    cases hnode : childOf name dir with
    | none => exact ⟨rfl, fun _ => rfl⟩
    | some node =>
      cases node with
      | dir children => exact ⟨rfl, nofun⟩
      | _ =>
        dsimp only
        rw [post_ite]
        refine ⟨fun _ => ⟨rfl, nofun⟩, fun _ => ⟨hlen, ?_, rfl⟩⟩
        rintro children ⟨⟩
  · rw [he]
    refine ⟨nofun, ?_⟩
    rintro _ ⟨⟩
    exact ⟨rfl, fun h => absurd h hne⟩

end Names

/-- Where a removed file has been. -/
theorem removeFile_spec (path : RawPath) (root : WorkingCopy) :
    Post (fs.removeFile path) root
      (fun _ root' => ∃ loc name node, fs.lastSpot root path = .ok (.entry loc name) ∧
        nodeOf root loc name = some node ∧ root' = alter (removeChild name) loc root)
      (fun _ root' => root' = root) := by
  rw [removeFile, post_bind, post_get, post_bind, post_fromExcept]
  refine ⟨fun spot hspot => ?_, fun _ _ => rfl⟩
  cases spot with
  | directory l => exact rfl
  | entry l n =>
    dsimp only
    cases hnode : nodeOf root l n with
    | none => exact rfl
    | some node =>
      cases node with
      | dir children => exact rfl
      | _ =>
        dsimp only
        rw [post_ite]
        exact ⟨fun _ => rfl, fun _ => ⟨l, n, _, hspot, hnode, rfl⟩⟩

/-- The dots are no files. -/
theorem removeFile_dots {path : RawPath} (h : ∃ name, path.comps.getLast? = some name ∧ isDots name)
    (root : WorkingCopy) :
    Post (fs.removeFile path) root (fun _ _ => False) (fun _ root' => root' = root) := by
  obtain ⟨name, hlast, hdots⟩ := h
  rw [removeFile, post_bind, post_get, post_bind, post_fromExcept]
  refine ⟨fun spot hspot => ?_, fun _ _ => rfl⟩
  obtain ⟨_, -, hspot⟩ := except_bind_eq_ok.mp hspot
  obtain ⟨spot', hspot', hspot⟩ := except_bind_eq_ok.mp hspot
  obtain ⟨_, -, hspot⟩ := except_bind_eq_ok.mp hspot
  obtain rfl := Except.ok.inj hspot
  rw [spotOf, hlast] at hspot'
  dsimp only at hspot'
  rw [if_pos hdots] at hspot'
  cases hw : walk root fs.links [] path.comps with
  | error e =>
    rw [hw] at hspot'
    cases hspot'
  | ok loc =>
    rw [hw] at hspot'
    obtain rfl := Except.ok.inj hspot'
    exact rfl

/-- No path with a NUL in it is removed. -/
theorem removeFile_nul {path : RawPath} (h : ∃ name ∈ path.comps, 0 ∈ name) (root : WorkingCopy) :
    Post (fs.removeFile path) root (fun _ _ => False) (fun _ root' => root' = root) := by
  have hnul : checkNul path = .error (.io "file name contained an unexpected NUL byte") := by
    refine if_pos (List.any_eq_true.mpr ?_)
    obtain ⟨name, hname, h0⟩ := h
    exact ⟨name, hname, by simpa using h0⟩
  rw [removeFile, post_bind, post_get, post_bind, post_fromExcept, lastSpot, hnul]
  exact ⟨nofun, fun _ _ => rfl⟩

/-- **Renaming a file** in its directory, which two paths lead to. -/
theorem rename_file {comps' : List Bytes} {name' : Bytes}
    (hwalk : walk root fs.links [] comps = .ok loc)
    (hwalk' : walk root fs.links [] comps' = .ok loc) (hdir : dirOf root loc = some dir)
    (hname : isDots name = false) (hname' : isDots name' = false) {contents : Bytes}
    {executable : Bool} (hold : childOf name dir = some (.file contents executable))
    (hnew : ∀ children, childOf name' dir ≠ some (.dir children)) :
    Post (fs.rename ⟨comps ++ [name], false⟩ ⟨comps' ++ [name'], false⟩) root
      (fun _ root' => name'.length ≤ fs.nameMax ∧ root' =
        alter (fun d => putChild name' (.file contents executable) (removeChild name d)) loc root)
      (fun _ root' => root' = root) := by
  rw [rename, post_bind, post_get, post_bind, post_fromExcept]
  refine ⟨fun spot hspot => ?_, fun _ _ => rfl⟩
  rcases lastSpot_name hwalk hname false with ⟨hold', -⟩ | ⟨e, he, -⟩
  swap
  · rw [hspot] at he
    cases he
  obtain rfl := Except.ok.inj (hspot.symm.trans hold')
  rw [post_bind, post_fromExcept]
  refine ⟨fun spot' hspot' => ?_, fun _ _ => rfl⟩
  rcases lastSpot_name hwalk' hname' false with ⟨hnew', hlen⟩ | ⟨e, he, -⟩
  swap
  · rw [hspot'] at he
    cases he
  obtain rfl := Except.ok.inj (hspot'.symm.trans hnew')
  dsimp only
  rw [nodeOf_dir hdir, hold, nodeOf_dir hdir]
  dsimp only
  rw [post_ite]
  refine ⟨fun _ => rfl, fun _ => ?_⟩
  rw [alter_alter]
  cases hnode : childOf name' dir with
  | none => exact ⟨hlen, rfl⟩
  | some node =>
    cases node with
    | dir children => exact absurd hnode (hnew children)
    | _ => exact ⟨hlen, rfl⟩

end PathFs

end Tig
