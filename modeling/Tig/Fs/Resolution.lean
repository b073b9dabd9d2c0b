import Tig.Fs.Destination
import Tig.Fs.Directory

set_option relaxedAutoImplicit false
set_option autoImplicit false

/-!
# Paths on a whole disk

A name is joined to a path as text, and the file system reads the text: a slash separates, an
absolute name starts over at the root, a dot stays, two dots go up, and a symlink is followed. This is
what the operations of a render meet when names are not what they should be. Each operation either
fails, or lands at one place of the disk, which is kept in a trace.

## Main definitions

* `Tig.RawPath.join` — a name joined to a path.
* `Tig.walk`, `Tig.spotOf`, `Tig.fileSpot` — what a path leads to.
* `Tig.FsAction.plan` — what an operation does, and where.
* `Tig.worldDisk` — operations on the whole disk, with a trace.

## Main results

* `Tig.shapeAt_alter` — an operation leaves what lies elsewhere as it is.
* `Tig.walk_dirs` — a path of plain names through directories leads where it says.
-/

namespace Tig

open Program

/-! ## Places -/

/-- The names on the way from the root of the disk. -/
abbrev Location := List Bytes

/-- The directory at a place. -/
def dirOf : WorkingCopy → Location → Option WorkingCopy
  | dir, [] => some dir
  | dir, name :: rest =>
    match childOf name dir with
    | some (.dir children) => dirOf children rest
    | _ => none

/-- Change the directory at a place. -/
def alter (f : WorkingCopy → WorkingCopy) : Location → WorkingCopy → WorkingCopy
  | [], dir => f dir
  | name :: rest, dir =>
    match childOf name dir with
    | some (.dir children) => putChild name (.dir (alter f rest children)) dir
    | _ => dir

/-- What lies under a name of the directory at a place. -/
def nodeOf (root : WorkingCopy) (loc : Location) (name : Bytes) : Option Node :=
  (dirOf root loc).bind (childOf name)

/-! ## Paths as text -/

/-- The components of a path; slashes in a row count as one. -/
def components (path : Bytes) : List Bytes := (path.splitOn 47).filter (· ≠ [])

/-- A path as the file system gets it: its components from the root, and whether a slash follows the
last of them. -/
structure RawPath where
  comps : List Bytes
  slash : Bool
deriving DecidableEq, Repr

/-- Join a name to a path. An absolute name takes its place. -/
def RawPath.join (path : RawPath) (name : String) : RawPath :=
  let bytes := Utf8.encode name
  let slash := bytes.getLast? = some 47
  if bytes.head? = some 47 then ⟨components bytes, slash⟩
  else if bytes = [] then ⟨path.comps, true⟩
  else ⟨path.comps ++ components bytes, slash⟩

/-- Names joined to a place one after the other. -/
def rawPath (dst : Location) (names : List String) : RawPath := names.foldl RawPath.join ⟨dst, false⟩

/-! ## What a path leads to -/

/-- The components `.` and `..`. -/
def isDots (name : Bytes) : Bool := name = [46] || name = [46, 46]

/-- Go along components from a place, through directories; `follow` goes on behind a symlink. -/
def walkWith (follow : Location → List Bytes → Except Error Location) (root : WorkingCopy) :
    Location → List Bytes → Except Error Location
  | loc, [] => .ok loc
  | loc, name :: rest =>
    if name = [46] then walkWith follow root loc rest
    else if name = [46, 46] then walkWith follow root loc.dropLast rest
    else
      match nodeOf root loc name with
      | some (.dir _) => walkWith follow root (loc ++ [name]) rest
      | some (.symlink target) =>
        follow (if target.head? = some 47 then [] else loc) (components target ++ rest)
      | some _ => .error (.io "Not a directory (os error 20)")
      | none => .error (.io "No such file or directory (os error 2)")

/-- The directory that components lead to; at most `links` symlinks are followed. -/
def walk (root : WorkingCopy) : (links : Nat) → Location → List Bytes → Except Error Location
  | 0 => walkWith (fun _ _ => .error (.io "Too many levels of symbolic links (os error 40)")) root
  | links + 1 => walkWith (walk root links) root

/-- Where a path ends: at a name in a directory, or at a directory itself. -/
inductive Spot where
  | entry (loc : Location) (name : Bytes)
  | directory (loc : Location)
deriving DecidableEq, Repr

/-- Where components lead from a place. The last one is not followed. -/
def spotOf (root : WorkingCopy) (links : Nat) (start : Location) (comps : List Bytes) :
    Except Error Spot :=
  match comps.getLast? with
  | none => .ok (.directory start)
  | some last =>
    if isDots last then (walk root links start comps).map .directory
    else (walk root links start comps.dropLast).map fun loc => .entry loc last

/-- Where components lead from a place, and whether a slash follows there; `follow` goes on behind a
symlink at the end. -/
def fileSpotWith (follow : Location → List Bytes → Bool → Except Error (Spot × Bool))
    (root : WorkingCopy) (links : Nat) (start : Location) (comps : List Bytes) (slash : Bool) :
    Except Error (Spot × Bool) := do
  match ← spotOf root links start comps with
  | .directory loc => .ok (.directory loc, slash)
  | .entry loc name =>
    match nodeOf root loc name with
    | some (.symlink target) =>
      follow (if target.head? = some 47 then [] else loc) (components target)
        (slash || target.getLast? = some 47)
    | _ => .ok (.entry loc name, slash)

/-- Where components lead from a place, when at most `links` symlinks at the end are followed as well;
and whether a slash follows there. -/
def fileSpot (root : WorkingCopy) : (links : Nat) → Location → List Bytes → Bool →
    Except Error (Spot × Bool)
  | 0 =>
    fileSpotWith (fun _ _ _ => .error (.io "Too many levels of symbolic links (os error 40)")) root 0
  | links + 1 => fileSpotWith (fileSpot root links) root (links + 1)

/-! ## What operations do, and where -/

/-- What an operation does to the disk: it puts a node under a name, or writes to what is at a place
without a change that shows. -/
inductive Effect where
  | put (loc : Location) (name : Bytes) (node : Node)
  | touch (loc : Location)

/-- The place that is created or written. -/
def Effect.place : Effect → Location
  | .put loc name _ => loc ++ [name]
  | .touch loc => loc

/-- The disk after an operation. -/
def Effect.apply (root : WorkingCopy) : Effect → WorkingCopy
  | .put loc name node => alter (putChild name node) loc root
  | .touch _ => root

section Plan

variable (special : Node → Option Error) (links : Nat) (root : WorkingCopy)

/-- The file system takes no path with a NUL in it. -/
def checkNul (path : RawPath) : Except Error Unit :=
  if path.comps.any (0 ∈ ·) then .error (.io "file name contained an unexpected NUL byte") else .ok ()

/-- Make a directory. -/
def planDir (path : RawPath) : Except Error Effect := do
  checkNul path
  match ← spotOf root links [] path.comps with
  | .directory _ => .error (.io "File exists (os error 17)")
  | .entry loc name =>
    match nodeOf root loc name with
    | some _ => .error (.io "File exists (os error 17)")
    | none => .ok (.put loc name (.dir []))

/-- Make a symlink. -/
def planSymlink (path : RawPath) (target : String) : Except Error Effect := do
  match linkFault target with
  | some e => .error e
  | none => do
    checkNul path
    match ← spotOf root links [] path.comps with
    | .directory _ => .error (.io "File exists (os error 17)")
    | .entry loc name =>
      match nodeOf root loc name with
      | some _ => .error (.io "File exists (os error 17)")
      | none =>
        if path.slash then .error (.io "No such file or directory (os error 2)")
        else .ok (.put loc name (.symlink (Utf8.encode target)))

/-- Write a file, or over a file. Writing to a device shows nowhere. -/
def planWrite (path : RawPath) (bytes : Bytes) : Except Error Effect := do
  checkNul path
  match ← fileSpot root links [] path.comps path.slash with
  | (.directory _, _) => .error (.io "Is a directory (os error 21)")
  | (.entry loc name, slash) =>
    match nodeOf root loc name with
    | none =>
      if slash then .error (.io "Is a directory (os error 21)")
      else .ok (.put loc name (.file bytes false))
    | some (.file _ executable) =>
      if slash then .error (.io "Not a directory (os error 20)")
      else .ok (.put loc name (.file bytes executable))
    | some (.dir _) => .error (.io "Is a directory (os error 21)")
    | some node =>
      match special node with
      | some e => .error e
      | none => .ok (.touch (loc ++ [name]))

/-- Set the executable bits of what is at a path. -/
def planExecutable (path : RawPath) : Except Error Effect := do
  checkNul path
  match ← fileSpot root links [] path.comps path.slash with
  | (.directory loc, _) => .ok (.touch loc)
  | (.entry loc name, slash) =>
    match nodeOf root loc name with
    | none => .error (.io "No such file or directory (os error 2)")
    | some (.file bytes _) =>
      if slash then .error (.io "Not a directory (os error 20)")
      else .ok (.put loc name (.file bytes true))
    | some _ => .ok (.touch (loc ++ [name]))

/-- What an operation does, in a destination that is there. -/
def FsAction.plan (dst : Location) : FsAction → Except Error Effect
  | .createDirAll _ => .ok (.touch dst)
  | .createDir path => planDir links root (rawPath dst path)
  | .write path bytes => planWrite special links root (rawPath dst path) bytes
  | .setExecutable path => planExecutable links root (rawPath dst path)
  | .symlink path target => planSymlink links root (rawPath dst path) target

end Plan

/-- A disk, and the places where something was created or written. -/
structure TracedDisk where
  root : WorkingCopy
  touched : List Location

/-- Operations on the whole disk, below a destination. -/
def worldDisk (special : Node → Option Error) (links : Nat) (dst : Location) :
    RenderDisk TracedDisk where
  destExists st := (dirOf st.root dst).isSome
  perform a := fun st =>
    match a.plan special links st.root dst with
    | .ok effect => .ok () ⟨effect.apply st.root, st.touched ++ [effect.place]⟩
    | .error e => .error e st

/-! ## Places after an operation -/

section Places

variable {root : WorkingCopy} {loc loc' : Location} {d : WorkingCopy}

theorem dirOf_cons {name : Bytes} {rest : Location} (h : dirOf root (name :: rest) = some d) :
    ∃ children, childOf name root = some (.dir children) ∧ dirOf children rest = some d := by
  rw [dirOf] at h
  cases hc : childOf name root with
  | none =>
    rw [hc] at h
    cases h
  | some node =>
    rw [hc] at h
    cases node with
    | dir children => exact ⟨children, rfl, h⟩
    | file bytes executable => cases h
    | symlink target => cases h
    | other kind => cases h

theorem dirOf_of_child {name : Bytes} {children : WorkingCopy}
    (h : childOf name root = some (.dir children)) (rest : Location) :
    dirOf root (name :: rest) = dirOf children rest := by
  rw [dirOf, h]

/-- The directory below a directory. -/
theorem dirOf_append (root : WorkingCopy) (loc rest : Location) :
    dirOf root (loc ++ rest) = (dirOf root loc).bind fun d => dirOf d rest := by
  induction loc generalizing root with
  | nil => rfl
  | cons name loc ih =>
    rw [List.cons_append, dirOf, dirOf]
    cases childOf name root with
    | none => rfl
    | some node =>
      cases node with
      | dir children => exact ih children
      | file bytes executable => rfl
      | symlink target => rfl
      | other kind => rfl

/-- A place of which the last step is known. -/
theorem dirOf_concat (root : WorkingCopy) (loc : Location) (name : Bytes) :
    dirOf root (loc ++ [name]) = match nodeOf root loc name with
      | some (.dir children) => some children
      | _ => none := by
  rw [dirOf_append, nodeOf]
  cases dirOf root loc with
  | none => rfl
  | some d =>
    rw [Option.bind_some, Option.bind_some, dirOf]
    cases childOf name d with
    | none => rfl
    | some node => cases node <;> rfl

/-- A change at a directory is seen there. -/
theorem dirOf_alter_self (f : WorkingCopy → WorkingCopy) (h : dirOf root loc = some d) :
    dirOf (alter f loc root) loc = some (f d) := by
  induction loc generalizing root with
  | nil =>
    obtain rfl := Option.some.inj h
    rfl
  | cons name loc ih =>
    obtain ⟨children, hc, hd⟩ := dirOf_cons h
    rw [alter, hc]
    dsimp only
    rw [dirOf_of_child ((childOf_putChild _ _ _ _).trans (if_pos rfl))]
    exact ih hd

/-- Two changes of a directory, one after the other, are one change. -/
theorem alter_alter (f g : WorkingCopy → WorkingCopy) (loc : Location) (root : WorkingCopy) :
    alter f loc (alter g loc root) = alter (fun dir => f (g dir)) loc root := by
  induction loc generalizing root with
  | nil => rfl
  | cons first loc ih =>
    rw [alter, alter]
    cases hc : childOf first root with
    | none => simp [alter, hc]
    | some node =>
      cases node with
      | dir children =>
        dsimp only
        rw [childOf_putChild, if_pos rfl]
        dsimp only
        rw [putChild_putChild, ih, alter, hc]
      | file bytes executable => simp [alter, hc]
      | symlink target => simp [alter, hc]
      | other kind => simp [alter, hc]

/-- A change of a directory below is a change of the directory above. -/
theorem alter_append (f : WorkingCopy → WorkingCopy) (loc rest : Location) (root : WorkingCopy) :
    alter f (loc ++ rest) root = alter (alter f rest) loc root := by
  induction loc generalizing root with
  | nil => rfl
  | cons first loc ih =>
    rw [List.cons_append, alter, alter]
    cases childOf first root with
    | none => rfl
    | some node =>
      cases node with
      | dir children => exact congrArg (fun c => putChild first (.dir c) root) (ih children)
      | file bytes executable => rfl
      | symlink target => rfl
      | other kind => rfl

/-- A directory above the change. -/
theorem dirOf_alter_above (f : WorkingCopy → WorkingCopy) {rest : Location}
    (h : dirOf root loc = some d) :
    dirOf (alter f (loc ++ rest) root) loc = some (alter f rest d) := by
  rw [alter_append, dirOf_alter_self _ h]

theorem alter_singleton (f : WorkingCopy → WorkingCopy) {name : Bytes} {children : WorkingCopy}
    (h : childOf name root = some (.dir children)) :
    alter f [name] root = putChild name (.dir (f children)) root := by
  rw [alter, h]
  rfl

/-- Putting a node where there is none, or in the place of something that is no directory, keeps
every directory there is. -/
theorem dirOf_alter_put {name : Bytes} {node : Node}
    (hnode : ∀ children, nodeOf root loc name ≠ some (.dir children)) (h : (dirOf root loc').isSome) :
    (dirOf (alter (putChild name node) loc root) loc').isSome := by
  induction loc generalizing root loc' with
  | nil =>
    cases loc' with
    | nil => rfl
    | cons first loc' =>
      obtain ⟨d, hd⟩ := Option.isSome_iff_exists.mp h
      obtain ⟨children, hc, hd⟩ := dirOf_cons hd
      have hne : first ≠ name := by
        rintro rfl
        exact hnode children hc
      rw [alter, dirOf_of_child (by rw [childOf_putChild, if_neg hne, hc]), hd]
      rfl
  | cons first' loc ih =>
    rw [alter]
    cases hc : childOf first' root with
    | none => exact h
    | some node' =>
      cases node' with
      | file bytes executable => exact h
      | symlink target => exact h
      | other kind => exact h
      | dir children =>
        dsimp only
        cases loc' with
        | nil => rfl
        | cons first loc' =>
          by_cases hn : first = first'
          · subst hn
            rw [dirOf_of_child hc] at h
            rw [dirOf_of_child ((childOf_putChild _ _ _ _).trans (if_pos rfl))]
            refine ih (fun c hcontra => hnode c ?_) h
            rw [nodeOf, dirOf_of_child hc]
            exact hcontra
          · obtain ⟨d, hd⟩ := Option.isSome_iff_exists.mp h
            obtain ⟨c, hc', hd⟩ := dirOf_cons hd
            rw [dirOf_of_child (by rw [childOf_putChild, if_neg hn, hc']), hd]
            rfl

/-- **What lies elsewhere is as it was** after a node has been put under a name of a directory. -/
theorem shapeAt_alter {name : Bytes} {node : Node} {path : Location}
    (h : ¬ loc ++ [name] <+: path) :
    shapeAt (alter (putChild name node) loc root) path = shapeAt root path := by
  induction loc generalizing root path with
  | nil =>
    have hother : ∀ n rest, path = n :: rest →
        childOf n (putChild name node root) = childOf n root := by
      rintro n rest rfl
      rw [childOf_putChild, if_neg]
      rintro rfl
      exact h (List.cons_prefix_cons.mpr ⟨rfl, List.nil_prefix⟩)
    rcases path with _ | ⟨n, _ | ⟨next, rest⟩⟩
    · rfl
    · rw [alter, shapeAt, shapeAt, hother n [] rfl]
    · rw [alter, shapeAt, shapeAt, hother n (next :: rest) rfl]
  | cons first loc ih =>
    rw [alter]
    cases hc : childOf first root with
    | none => rfl
    | some node' =>
      cases node' with
      | file bytes executable => rfl
      | symlink target => rfl
      | other kind => rfl
      | dir children =>
        dsimp only
        rcases path with _ | ⟨n, _ | ⟨next, rest⟩⟩
        · rfl
        · rw [shapeAt, shapeAt, childOf_putChild]
          split_ifs with hn
          · rw [hn, hc]
            rfl
          · rfl
        · rw [shapeAt, shapeAt, childOf_putChild]
          split_ifs with hn
          · subst hn
            rw [hc]
            exact ih fun hp => h (List.cons_prefix_cons.mpr ⟨rfl, hp⟩)
          · rfl

end Places

/-! ## Dots -/

/-- A dot in the middle of a path leads nowhere else, if it does not behind a symlink. -/
theorem walkWith_dot {follow : Location → List Bytes → Except Error Location}
    (hfollow : ∀ loc before after,
      follow loc (before ++ [46] :: after) = follow loc (before ++ after))
    (root : WorkingCopy) (loc : Location) (before after : List Bytes) :
    walkWith follow root loc (before ++ [46] :: after) =
      walkWith follow root loc (before ++ after) := by
  induction before generalizing loc with
  | nil => exact if_pos rfl
  | cons name before ih =>
    rw [List.cons_append, List.cons_append, walkWith, walkWith, ih, ih]
    cases nodeOf root loc name with
    | none => rfl
    | some node =>
      cases node with
      | dir children => dsimp only; rw [ih]
      | symlink target =>
        dsimp only
        rw [← List.append_assoc, ← List.append_assoc, hfollow]
      | file bytes executable => rfl
      | other kind => rfl

/-- A dot in the middle of a path leads nowhere else. The induction is on the symlinks that are left
to follow: behind one, the dot stands in a longer path. -/
theorem walk_dot (root : WorkingCopy) (links : Nat) (loc : Location) (before after : List Bytes) :
    walk root links loc (before ++ [46] :: after) = walk root links loc (before ++ after) := by
  induction links generalizing loc before after with
  | zero => exact walkWith_dot (fun _ _ _ => rfl) root loc before after
  | succ links ih => exact walkWith_dot ih root loc before after

/-! ## Plain names -/

section Plain

variable {root : WorkingCopy} {loc : Location} {links : Nat}

/-- **A path of plain names through directories** leads where it says. -/
theorem walk_dirs {rest : Location} (hplain : ∀ n ∈ rest, isDots n = false)
    (h : (dirOf root (loc ++ rest)).isSome) : walk root links loc rest = .ok (loc ++ rest) := by
  have hwith : ∀ follow, walkWith follow root loc rest = .ok (loc ++ rest) := by
    intro follow
    induction rest generalizing loc with
    | nil => rw [walkWith, List.append_nil]
    | cons name rest ih =>
      have hstep : loc ++ name :: rest = (loc ++ [name]) ++ rest := by simp
      have hname := hplain name List.mem_cons_self
      simp only [isDots, Bool.or_eq_false_iff, decide_eq_false_iff_not] at hname
      rw [hstep, dirOf_append] at h
      obtain ⟨d, hd⟩ := Option.isSome_iff_exists.mp (Option.isSome_of_isSome_bind h)
      have hdir := dirOf_concat root loc name
      rw [hd] at hdir
      rw [walkWith, if_neg hname.1, if_neg hname.2]
      cases hnode : nodeOf root loc name with
      | none =>
        rw [hnode] at hdir
        cases hdir
      | some node =>
        rw [hnode] at hdir
        cases node with
        | dir children =>
          rw [hstep]
          exact ih (fun n hn => hplain n (List.mem_cons_of_mem _ hn)) (by rwa [dirOf_append])
        | file bytes executable => cases hdir
        | symlink target => cases hdir
        | other kind => cases hdir
  cases links with
  | zero => exact hwith _
  | succ links => exact hwith _

/-- What a valid name is to the file system: a component, which is not one of the dots and has no
slash in it. -/
theorem encode_valid {name : String} (h : TreeEntry.validateName name = .ok ()) :
    Utf8.encode name ≠ [] ∧ isDots (Utf8.encode name) = false ∧ 47 ∉ Utf8.encode name := by
  unfold TreeEntry.validateName at h
  split_ifs at h with hbad
  push Not at hbad
  obtain ⟨hempty, hdot, hdots, hslash, -⟩ := hbad
  have hencode : ∀ s : String, name ≠ s → Utf8.encode name ≠ Utf8.encode s := fun s hs heq =>
    hs (Utf8.encode_injective heq)
  refine ⟨hencode "" hempty, ?_, fun hmem => hslash ?_⟩
  · simp only [isDots, Bool.or_eq_false_iff, decide_eq_false_iff_not]
    exact ⟨hencode "." hdot, hencode ".." hdots⟩
  · exact Utf8.mem_toList_of_mem_encode (c := '/') (by decide) hmem

/-- Joining a name without a slash adds it as a component. -/
theorem RawPath.join_name (path : RawPath) {name : String} (hne : Utf8.encode name ≠ [])
    (hslash : 47 ∉ Utf8.encode name) :
    path.join name = ⟨path.comps ++ [Utf8.encode name], false⟩ := by
  have hhead : (Utf8.encode name).head? ≠ some 47 := fun hh => hslash (List.mem_of_head? hh)
  have hlast : (Utf8.encode name).getLast? ≠ some 47 := fun hl => hslash (List.mem_of_getLast? hl)
  have hcomps : components (Utf8.encode name) = [Utf8.encode name] := by
    rw [components, List.splitOn_eq_singleton hslash]
    simp [hne]
  simp [RawPath.join, hhead, hlast, hne, hcomps]

/-- Joining valid names adds them as components. -/
theorem rawPath_valid {dst : Location} {names : List String}
    (h : ∀ n ∈ names, TreeEntry.validateName n = .ok ()) :
    rawPath dst names = ⟨dst ++ names.map Utf8.encode, false⟩ := by
  unfold rawPath
  induction names generalizing dst with
  | nil => simp
  | cons name names ih =>
    obtain ⟨hne, -, hslash⟩ := encode_valid (h name List.mem_cons_self)
    rw [List.foldl_cons, RawPath.join_name _ hne hslash, ih fun n hn => h n (List.mem_cons_of_mem _ hn)]
    simp

/-- A path of plain names through directories ends at its last name, in the directory that the others
lead to. -/
theorem spotOf_dirs {name : Bytes} (hplain : ∀ n ∈ loc, isDots n = false)
    (hname : isDots name = false) (h : (dirOf root loc).isSome) :
    spotOf root links [] (loc ++ [name]) = .ok (.entry loc name) := by
  have hwalk : walk root links [] loc = .ok loc := walk_dirs hplain h
  simp [spotOf, hname, hwalk, Except.map]

end Plain

/-! ## Where operations land -/

section Landing

variable {special : Node → Option Error} {links : Nat} {root : WorkingCopy} {dst loc : Location}
  {name : Bytes} {a : FsAction} {effect : Effect}

/-- A symlink that stands under the last name of a file is followed; nothing else is. -/
theorem fileSpot_entry {start : Location} {comps : List Bytes} {slash : Bool}
    (hspot : spotOf root links start comps = .ok (.entry loc name))
    (hlink : ∀ target, nodeOf root loc name ≠ some (.symlink target)) :
    fileSpot root links start comps slash = .ok (.entry loc name, slash) := by
  have hwith : ∀ follow, fileSpotWith follow root links start comps slash =
      .ok (.entry loc name, slash) := by
    intro follow
    unfold fileSpotWith
    rw [hspot]
    simp only [bind, Except.bind]
  cases links with
  | zero => exact hwith _
  | succ links => exact hwith _

/-- Where a directory is made there is nothing. -/
theorem planDir_ok {path : RawPath} (h : planDir links root path = .ok effect) :
    ∃ loc name, spotOf root links [] path.comps = .ok (.entry loc name) ∧
      nodeOf root loc name = none ∧ effect = .put loc name (.dir []) := by
  obtain ⟨_, -, h⟩ := except_bind_eq_ok.mp h
  obtain ⟨spot, hspot, h⟩ := except_bind_eq_ok.mp h
  cases spot with
  | directory loc => cases h
  | entry loc name =>
    cases hnode : nodeOf root loc name with
    | some node => simp [hnode] at h
    | none =>
      simp only [hnode, Except.ok.injEq] at h
      exact ⟨loc, name, hspot, hnode, h.symm⟩

/-- Where a symlink is made there is nothing. -/
theorem planSymlink_ok {path : RawPath} {target : String}
    (h : planSymlink links root path target = .ok effect) :
    ∃ loc name, spotOf root links [] path.comps = .ok (.entry loc name) ∧
      nodeOf root loc name = none ∧ effect = .put loc name (.symlink (Utf8.encode target)) := by
  unfold planSymlink at h
  split at h
  · cases h
  obtain ⟨_, -, h⟩ := except_bind_eq_ok.mp h
  obtain ⟨spot, hspot, h⟩ := except_bind_eq_ok.mp h
  cases spot with
  | directory loc => cases h
  | entry loc name =>
    cases hnode : nodeOf root loc name with
    | some node => simp [hnode] at h
    | none =>
      simp only [hnode] at h
      split_ifs at h
      exact ⟨loc, name, hspot, hnode, (Except.ok.inj h).symm⟩

/-- Contents are written to what a path leads to, which is no directory. -/
theorem planWrite_ok {path : RawPath} {bytes : Bytes}
    (h : planWrite special links root path bytes = .ok effect) :
    ∃ loc name slash, fileSpot root links [] path.comps path.slash = .ok (.entry loc name, slash) ∧
      (∀ children, nodeOf root loc name ≠ some (.dir children)) ∧ effect.place = loc ++ [name] ∧
      ∀ loc' name' node, effect = .put loc' name' node → loc' = loc ∧ name' = name := by
  obtain ⟨_, -, h⟩ := except_bind_eq_ok.mp h
  obtain ⟨⟨spot, slash⟩, hspot, h⟩ := except_bind_eq_ok.mp h
  cases spot with
  | directory loc => cases h
  | entry loc name =>
    refine ⟨loc, name, slash, hspot, ?_⟩
    cases hnode : nodeOf root loc name with
    | none =>
      simp only [hnode] at h
      split_ifs at h
      obtain rfl := Except.ok.inj h
      simp [Effect.place]
    | some node =>
      cases node with
      | dir children => simp [hnode] at h
      | file old executable =>
        simp only [hnode] at h
        split_ifs at h
        obtain rfl := Except.ok.inj h
        simp [Effect.place]
      | symlink target =>
        simp only [hnode] at h
        cases hs : special (.symlink target) <;> simp only [hs] at h
        · obtain rfl := Except.ok.inj h
          simp [Effect.place]
        · cases h
      | other kind =>
        simp only [hnode] at h
        cases hs : special (.other kind) <;> simp only [hs] at h
        · obtain rfl := Except.ok.inj h
          simp [Effect.place]
        · cases h

/-- The executable bits are set of what a path leads to; a directory shows no change. -/
theorem planExecutable_ok {path : RawPath} (h : planExecutable links root path = .ok effect) :
    ∃ spot slash, fileSpot root links [] path.comps path.slash = .ok (spot, slash) ∧
      (∀ loc name, spot = .entry loc name → effect.place = loc ++ [name]) ∧
      ∀ loc name node, effect = .put loc name node →
        ∀ children, nodeOf root loc name ≠ some (.dir children) := by
  obtain ⟨_, -, h⟩ := except_bind_eq_ok.mp h
  obtain ⟨⟨spot, slash⟩, hspot, h⟩ := except_bind_eq_ok.mp h
  refine ⟨spot, slash, hspot, ?_⟩
  cases spot with
  | directory loc =>
    obtain rfl := Except.ok.inj h
    simp
  | entry loc name =>
    cases hnode : nodeOf root loc name with
    | none => simp [hnode] at h
    | some node =>
      cases node with
      | file bytes executable =>
        simp only [hnode] at h
        split_ifs at h
        obtain rfl := Except.ok.inj h
        refine ⟨?_, ?_⟩
        · rintro _ _ ⟨⟩
          rfl
        · rintro _ _ _ ⟨⟩ children hc
          rw [hnode] at hc
          cases hc
      | dir children =>
        simp only [hnode] at h
        obtain rfl := Except.ok.inj h
        simp [Effect.place]
      | symlink target =>
        simp only [hnode] at h
        obtain rfl := Except.ok.inj h
        simp [Effect.place]
      | other kind =>
        simp only [hnode] at h
        obtain rfl := Except.ok.inj h
        simp [Effect.place]

/-- No operation puts anything in the place of a directory. -/
theorem FsAction.plan_put {node : Node}
    (h : a.plan special links root dst = .ok (.put loc name node)) :
    ∀ children, nodeOf root loc name ≠ some (.dir children) := by
  cases a with
  | createDirAll path => cases h
  | createDir path =>
    obtain ⟨loc', name', -, hnone, heq⟩ := planDir_ok h
    cases heq
    simp [hnone]
  | symlink path target =>
    obtain ⟨loc', name', -, hnone, heq⟩ := planSymlink_ok h
    cases heq
    simp [hnone]
  | write path bytes =>
    obtain ⟨loc', name', -, -, hdir, -, hput⟩ := planWrite_ok h
    obtain ⟨rfl, rfl⟩ := hput loc name node rfl
    exact hdir
  | setExecutable path =>
    obtain ⟨_, -, -, -, hput⟩ := planExecutable_ok h
    exact hput loc name node rfl

end Landing

end Tig
