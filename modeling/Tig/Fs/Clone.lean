import Tig.Fs.Restore

set_option relaxedAutoImplicit false
set_option autoImplicit false

/-!
# Cloning a workspace

The clone path of materialization copies what lies in a donor's directory, name by name, except for
what belongs to the repository and to workspaces. Donor and copy lie on one disk, the copy often
below the donor.

## Main definitions

* `Tig.dirAt`, `Tig.within` — the directory at a path, and work in it.
* `Tig.materializeFromWorkspace` — the clone path.
* `Tig.userFiles` — what of a directory is cloned.

## Main results

* `Tig.materializeFromWorkspace_spec` — the new directory has what is cloned of the donor's.
-/

namespace Tig

open Program

/-! ## Directories at paths -/

/-- The directory at a path. -/
def dirAt : WorkingCopy → List String → Option WorkingCopy
  | dir, [] => some dir
  | dir, name :: rest =>
    match childOf (Utf8.encode name) dir with
    | some (.dir children) => dirAt children rest
    | _ => none

/-- Is there anything at the path? -/
def existsAt : WorkingCopy → List String → Bool
  | _, [] => true
  | dir, name :: rest =>
    match childOf (Utf8.encode name) dir with
    | some (.dir children) => existsAt children rest
    | some _ => rest.isEmpty
    | none => false

/-- Work in the directory at a path. -/
def within {α : Type} (x : DirM α) : List String → DirM α
  | [] => x
  | name :: rest => inside name (within x rest)

/-- Put other contents into the directory at a path. -/
def setDirAt (new : WorkingCopy) : List String → WorkingCopy → WorkingCopy
  | [], _ => new
  | name :: rest, dir =>
    match childOf (Utf8.encode name) dir with
    | some (.dir children) => putChild (Utf8.encode name) (.dir (setDirAt new rest children)) dir
    | _ => dir

section Paths

variable {α : Type} {x : DirM α} {dir sub new : WorkingCopy} {path : List String}

theorem dirAt_cons {name : String} {rest : List String} (h : dirAt dir (name :: rest) = some sub) :
    ∃ children, childOf (Utf8.encode name) dir = some (.dir children) ∧
      dirAt children rest = some sub := by
  rw [dirAt] at h
  cases hc : childOf (Utf8.encode name) dir with
  | none =>
    rw [hc] at h
    cases h
  | some node =>
    rw [hc] at h
    cases node with
    | dir children => exact ⟨children, rfl, h⟩
    | file bytes executable => cases h
    | symlink target => cases h
    | other kind => cases h

theorem dirAt_of_child {name : String} {rest : List String} {children : WorkingCopy}
    (h : childOf (Utf8.encode name) dir = some (.dir children)) :
    dirAt dir (name :: rest) = dirAt children rest := by
  rw [dirAt, h]

/-- The directory below a directory. -/
theorem dirAt_append (dir : WorkingCopy) (path rest : List String) :
    dirAt dir (path ++ rest) = (dirAt dir path).bind fun sub => dirAt sub rest := by
  induction path generalizing dir with
  | nil => rfl
  | cons name path ih =>
    rw [List.cons_append, dirAt, dirAt]
    cases childOf (Utf8.encode name) dir with
    | none => rfl
    | some node =>
      cases node with
      | dir children => exact ih children
      | file bytes executable => rfl
      | symlink target => rfl
      | other kind => rfl

/-- Work at a path is work in the directory there, which is put back. -/
theorem Post.within {Q : α → WorkingCopy → Prop} {E : Error → WorkingCopy → Prop}
    (h : dirAt dir path = some sub)
    (hx : Post x sub (fun a new => Q a (setDirAt new path dir))
      (fun e new => E e (setDirAt new path dir))) :
    Post (Tig.within x path) dir Q E := by
  induction path generalizing dir sub Q E with
  | nil =>
    obtain rfl := Option.some.inj h
    exact hx
  | cons name rest ih =>
    obtain ⟨children, hc, hrest⟩ := dirAt_cons h
    refine Post.inside hc (ih hrest (hx.mono (fun a new hQ => ?_) (fun e new hE => ?_)))
    · rw [setDirAt, hc] at hQ
      exact hQ
    · rw [setDirAt, hc] at hE
      exact hE

/-- Work at a path where there is no directory fails. -/
theorem within_ok {a : α} {dir' : WorkingCopy} (h : Tig.within x path dir = .ok a dir') :
    ∃ sub new, dirAt dir path = some sub ∧ x sub = .ok a new ∧ dir' = setDirAt new path dir := by
  induction path generalizing dir dir' with
  | nil => exact ⟨dir, dir', rfl, h, rfl⟩
  | cons name rest ih =>
    unfold Tig.within inside at h
    cases hc : childOf (Utf8.encode name) dir with
    | none =>
      rw [hc] at h
      cases h
    | some node =>
      rw [hc] at h
      cases node with
      | file bytes executable => cases h
      | symlink target => cases h
      | other kind => cases h
      | dir children =>
        dsimp only at h
        cases hr : Tig.within x rest children with
        | error e c =>
          rw [hr] at h
          cases h
        | ok b c =>
          rw [hr] at h
          cases h
          obtain ⟨sub, new, hsub, hx, rfl⟩ := ih hr
          refine ⟨sub, new, ?_, hx, ?_⟩
          · rw [dirAt_of_child hc]
            exact hsub
          · rw [setDirAt, hc]

/-- The directory at a path after it has been changed. -/
theorem dirAt_setDirAt_self (h : dirAt dir path = some sub) (new : WorkingCopy) :
    dirAt (setDirAt new path dir) path = some new := by
  induction path generalizing dir with
  | nil => rfl
  | cons name path ih =>
    obtain ⟨children, hc, hrest⟩ := dirAt_cons h
    rw [setDirAt, hc]
    dsimp only
    rw [dirAt_of_child ((childOf_putChild _ _ _ _).trans (if_pos rfl))]
    exact ih hrest

/-- Changing a directory twice is changing it once. -/
theorem setDirAt_setDirAt {new' : WorkingCopy} (h : dirAt dir path = some sub) :
    setDirAt new' path (setDirAt new path dir) = setDirAt new' path dir := by
  induction path generalizing dir with
  | nil => rfl
  | cons name path ih =>
    obtain ⟨children, hc, hrest⟩ := dirAt_cons h
    have hnew : childOf (Utf8.encode name) (putChild (Utf8.encode name)
        (.dir (setDirAt new path children)) dir) = some (.dir (setDirAt new path children)) :=
      (childOf_putChild _ _ _ _).trans (if_pos rfl)
    have hinner : setDirAt new (name :: path) dir =
        putChild (Utf8.encode name) (.dir (setDirAt new path children)) dir := by
      rw [setDirAt, hc]
    rw [hinner, setDirAt, hnew, setDirAt, hc]
    dsimp only
    rw [ih hrest, putChild_putChild]

/-- Putting back what is there changes nothing. -/
theorem setDirAt_self (h : dirAt dir path = some sub) : setDirAt sub path dir = dir := by
  induction path generalizing dir with
  | nil => exact (Option.some.inj h).symm
  | cons name path ih =>
    obtain ⟨children, hc, hrest⟩ := dirAt_cons h
    rw [setDirAt, hc]
    dsimp only
    rw [ih hrest, putChild_self hc]

/-- A directory above the changed one has the same children otherwise. -/
theorem dirAt_setDirAt_above {name : String} {rest above : List String}
    (h : dirAt dir (above ++ name :: rest) = some sub) :
    ∃ d node, dirAt dir above = some d ∧
      dirAt (setDirAt new (above ++ name :: rest) dir) above =
        some (putChild (Utf8.encode name) node d) := by
  induction above generalizing dir with
  | nil =>
    obtain ⟨children, hc, hrest⟩ := dirAt_cons h
    refine ⟨dir, .dir (setDirAt new rest children), rfl, ?_⟩
    rw [List.nil_append, setDirAt, hc]
    rfl
  | cons first above ih =>
    obtain ⟨children, hc, hrest⟩ := dirAt_cons h
    obtain ⟨d, node, hd, hd'⟩ := ih hrest
    refine ⟨d, node, ?_, ?_⟩
    · rw [dirAt_of_child hc]
      exact hd
    · rw [List.cons_append, setDirAt, hc]
      dsimp only
      rw [dirAt_of_child ((childOf_putChild _ _ _ _).trans (if_pos rfl))]
      exact hd'

/-- A directory elsewhere is as it was. -/
theorem dirAt_setDirAt_other {q : List String} (hq : ¬ q <+: path) (hpath : ¬ path <+: q) :
    dirAt (setDirAt new path dir) q = dirAt dir q := by
  induction path generalizing dir q with
  | nil => exact absurd List.nil_prefix hpath
  | cons name path ih =>
    cases q with
    | nil => exact absurd List.nil_prefix hq
    | cons first q =>
      rw [setDirAt]
      cases hc : childOf (Utf8.encode name) dir with
      | none => rfl
      | some node =>
        cases node with
        | file bytes executable => rfl
        | symlink target => rfl
        | other kind => rfl
        | dir children =>
          dsimp only
          by_cases hn : first = name
          · subst hn
            rw [List.cons_prefix_cons] at hq hpath
            rw [dirAt_of_child ((childOf_putChild _ _ _ _).trans (if_pos rfl)),
              dirAt_of_child hc]
            exact ih (fun h => hq ⟨rfl, h⟩) (fun h => hpath ⟨rfl, h⟩)
          · have hne : Utf8.encode first ≠ Utf8.encode name :=
              fun h => hn (Utf8.encode_injective h)
            rw [dirAt, dirAt, childOf_putChild, if_neg hne]

end Paths

/-! ## Making the directories of a path -/

theorem eq_nil_of_dirAt_nil {path : List String} {sub : WorkingCopy} (h : dirAt [] path = some sub) :
    sub = [] := by
  cases path with
  | nil => exact (Option.some.inj h).symm
  | cons name rest => cases h

/-- What making a directory and those above it leaves behind. -/
structure MadeDirs (path : List String) (dir dir' : WorkingCopy) : Prop where
  made : ∃ sub, dirAt dir' path = some sub ∧
    (dirAt dir path = some sub ∨ existsAt dir path = false ∧ sub = [])
  other : ∀ q d, dirAt dir q = some d → ¬ q <+: path → dirAt dir' q = some d
  above : ∀ q name rest d, path = q ++ name :: rest → dirAt dir q = some d →
    ∃ node, dirAt dir' q = some (putChild (Utf8.encode name) node d)

/-- The first directory of a path is there or is made. -/
theorem MadeDirs.cons {name : String} {rest : List String} {dir children children' : WorkingCopy}
    (hold : childOf (Utf8.encode name) dir = some (.dir children) ∨
      childOf (Utf8.encode name) dir = none ∧ children = [])
    (h : MadeDirs rest children children') :
    MadeDirs (name :: rest) dir (putChild (Utf8.encode name) (.dir children') dir) := by
  have hnew : childOf (Utf8.encode name) (putChild (Utf8.encode name) (.dir children') dir) =
      some (.dir children') := (childOf_putChild _ _ _ _).trans (if_pos rfl)
  refine ⟨?_, fun q d hd hq => ?_, fun q n rest' d hpath hd => ?_⟩
  · obtain ⟨sub, hsub, hwas⟩ := h.made
    refine ⟨sub, ?_, ?_⟩
    · rw [dirAt_of_child hnew]
      exact hsub
    · rcases hold with hc | ⟨hnone, rfl⟩
      · rw [dirAt_of_child hc, existsAt, hc]
        exact hwas
      · refine Or.inr ⟨?_, hwas.elim eq_nil_of_dirAt_nil fun h => h.2⟩
        rw [existsAt, hnone]
  · cases q with
    | nil => exact absurd List.nil_prefix hq
    | cons first q =>
      by_cases hn : first = name
      · subst hn
        obtain ⟨c, hc, hd⟩ := dirAt_cons hd
        rcases hold with hold | ⟨hold, -⟩
        · obtain rfl := Node.dir.inj (Option.some.inj (hold.symm.trans hc))
          rw [dirAt_of_child hnew]
          exact h.other q d hd fun hp => hq (List.cons_prefix_cons.mpr ⟨rfl, hp⟩)
        · rw [hold] at hc
          cases hc
      · have hne : Utf8.encode first ≠ Utf8.encode name := fun h => hn (Utf8.encode_injective h)
        rw [dirAt, childOf_putChild, if_neg hne]
        exact hd
  · cases q with
    | nil =>
      obtain ⟨rfl, -⟩ := List.cons.inj hpath
      obtain rfl := Option.some.inj hd
      exact ⟨_, rfl⟩
    | cons first q =>
      obtain ⟨rfl, hrest⟩ := List.cons.inj hpath
      obtain ⟨c, hc, hd⟩ := dirAt_cons hd
      rcases hold with hold | ⟨hold, -⟩
      · obtain rfl := Node.dir.inj (Option.some.inj (hold.symm.trans hc))
        rw [dirAt_of_child hnew]
        exact h.above q n rest' d hrest hd
      · rw [hold] at hc
        cases hc

/-- **Making the directories of a path** leaves the rest of the disk alone. -/
theorem createDirAll_spec (path : List String) (dir : WorkingCopy) :
    Post (createDirAll path) dir (fun _ dir' => MadeDirs path dir dir') (fun _ _ => True) := by
  induction path generalizing dir with
  | nil =>
    refine ⟨⟨dir, rfl, Or.inl rfl⟩, fun q d hd _ => hd, fun q name rest d hpath _ => ?_⟩
    cases q <;> cases hpath
  | cons name rest ih =>
    rw [createDirAll, post_bind, post_lookUp]
    cases hc : childOf (Utf8.encode name) dir with
    | none =>
      dsimp only
      rw [post_bind, post_setChild]
      have hnew : childOf (Utf8.encode name) (putChild (Utf8.encode name) (.dir []) dir) =
          some (.dir []) := (childOf_putChild _ _ _ _).trans (if_pos rfl)
      refine Post.inside hnew ((ih []).mono (fun _ c h => ?_) (fun _ _ _ => trivial))
      rw [putChild_putChild]
      exact .cons (Or.inr ⟨hc, rfl⟩) h
    | some node =>
      cases node with
      | dir children =>
        refine Post.inside hc ((ih children).mono (fun _ c h => ?_) (fun _ _ _ => trivial))
        exact .cons (Or.inl hc) h
      | file bytes executable => trivial
      | symlink target => trivial
      | other kind => trivial

/-! ## Cloning -/

/-- A name that is not cloned. -/
def isWorkspaceInternal (name : String) : Bool :=
  name = TIG_DIR || name = DEFAULT_WORKTREE_DIR || name = MARKER_FILE

mutual

/-- Why a node cannot be copied. -/
def Node.cloneFault : Node → Option Error
  | .file _ _ => none
  | .symlink _ => none
  | .dir children => cloneFaults children
  | .other _ =>
    some (.io "the source path is neither a regular file nor a symlink to a regular file")

/-- Why something in a directory cannot be copied. -/
def cloneFaults : List (Bytes × Node) → Option Error
  | [] => none
  | (_, node) :: rest => node.cloneFault.or (cloneFaults rest)

end

/-- Copy a node, with all that lies below it, to a new name. -/
def cloneNode (name : String) (node : Node) : DirM Unit := do
  match ← lookUp name with
  | some _ => throw (.io ("destination already exists: " ++ name))
  | none =>
    match node.cloneFault with
    | some e => throw e
    | none => setChild name node

/-- Does the way to `dst` lead through this name of the directory at `donor`? -/
def leadsTo (donor dst : List String) (name : Bytes) : Bool :=
  match dst.drop donor.length with
  | next :: _ => donor.isPrefixOf dst && Utf8.encode next = name
  | [] => false

/-- Copy what lies in the directory at `donor` into the one at `dst`. A copy of a directory into
itself goes on until the path is too long. -/
def cloneChildren (donor dst : List String) : List (Bytes × Node) → DirM Unit
  | [] => return ()
  | (bytes, node) :: rest =>
    let name := Utf8.decodeLossy bytes
    if isWorkspaceInternal name then cloneChildren donor dst rest
    else if leadsTo donor dst bytes then throw (.io "File name too long (os error 36)")
    else do
      within (cloneNode name node) dst
      cloneChildren donor dst rest

/-- Clone the directory of a workspace, `shown` in messages, on the disk. -/
def materializeFromWorkspace (donor dst : List String) (shown : String) : DirM Unit := do
  let disk ← get
  if existsAt disk dst then
    throw (.io ("destination already exists: " ++ shown))
  else
    createDirAll dst
    let disk ← get
    match dirAt disk donor with
    | none => throw (.io "No such file or directory (os error 2)")
    | some children => cloneChildren donor dst children

/-- What of a directory is cloned: the names that belong neither to the repository nor to a
workspace, made text. -/
def userFiles (dir : WorkingCopy) : WorkingCopy :=
  (dir.filter fun child => !isWorkspaceInternal (Utf8.decodeLossy child.1)).map
    fun child => (Utf8.encode (Utf8.decodeLossy child.1), child.2)

theorem userFiles_cons_internal {bytes : Bytes} {node : Node} {rest : WorkingCopy}
    (h : isWorkspaceInternal (Utf8.decodeLossy bytes) = true) :
    userFiles ((bytes, node) :: rest) = userFiles rest := by
  rw [userFiles, List.filter_cons_of_neg (by simp [h])]
  rfl

theorem userFiles_cons {bytes : Bytes} {node : Node} {rest : WorkingCopy}
    (h : isWorkspaceInternal (Utf8.decodeLossy bytes) = false) :
    userFiles ((bytes, node) :: rest) =
      (Utf8.encode (Utf8.decodeLossy bytes), node) :: userFiles rest := by
  rw [userFiles, List.filter_cons_of_pos (by simp [h])]
  rfl

/-- What cloning `children` into a directory that held `sub` leaves there. -/
structure Cloned (donor dst : List String) (children sub new : WorkingCopy) : Prop where
  look : ∀ n, childOf n new = (childOf n (userFiles children)).or (childOf n sub)
  fresh : ∀ n, childOf n (userFiles children) ≠ none → childOf n sub = none
  distinct : DistinctNames (userFiles children)
  distinctNew : DistinctNames sub → DistinctNames new
  outside : ∀ child ∈ children, isWorkspaceInternal (Utf8.decodeLossy child.1) = true ∨
    leadsTo donor dst child.1 = false

section Cloned

variable {donor dst : List String} {bytes : Bytes} {node : Node} {children sub new : WorkingCopy}

/-- A name that is not cloned adds nothing. -/
theorem Cloned.internal (hi : isWorkspaceInternal (Utf8.decodeLossy bytes) = true)
    (h : Cloned donor dst children sub new) : Cloned donor dst ((bytes, node) :: children) sub new := by
  have heq : userFiles ((bytes, node) :: children) = userFiles children :=
    userFiles_cons_internal hi
  refine ⟨?_, ?_, ?_, h.distinctNew, fun child hchild => ?_⟩
  · rw [heq]
    exact h.look
  · rw [heq]
    exact h.fresh
  · rw [heq]
    exact h.distinct
  · rcases List.mem_cons.mp hchild with rfl | hchild
    · exact Or.inl hi
    · exact h.outside child hchild

/-- A name that is cloned is a new one. -/
theorem Cloned.cons (hi : isWorkspaceInternal (Utf8.decodeLossy bytes) = false)
    (hl : leadsTo donor dst bytes = false)
    (hnone : childOf (Utf8.encode (Utf8.decodeLossy bytes)) sub = none)
    (h : Cloned donor dst children (putChild (Utf8.encode (Utf8.decodeLossy bytes)) node sub) new) :
    Cloned donor dst ((bytes, node) :: children) sub new := by
  have heq : userFiles ((bytes, node) :: children) =
      (Utf8.encode (Utf8.decodeLossy bytes), node) :: userFiles children := userFiles_cons hi
  generalize Utf8.encode (Utf8.decodeLossy bytes) = name at h hnone heq
  have hrest : childOf name (userFiles children) = none := by
    by_contra hsome
    have := h.fresh name hsome
    rw [childOf_putChild, if_pos rfl] at this
    cases this
  refine ⟨fun n => ?_, fun n hn => ?_, ?_, fun hd => h.distinctNew (hd.putChild _ _),
    fun child hchild => ?_⟩
  · rw [h.look, heq, childOf, childOf_putChild]
    by_cases hn : n = name
    · subst hn
      rw [hrest, if_pos rfl, if_pos rfl]
      rfl
    · rw [if_neg hn, if_neg (Ne.symm hn)]
  · rw [heq, childOf] at hn
    by_cases hname : n = name
    · rw [hname]
      exact hnone
    · rw [if_neg (Ne.symm hname)] at hn
      have := h.fresh n hn
      rwa [childOf_putChild, if_neg hname] at this
  · rw [heq]
    exact List.nodup_cons.mpr ⟨childOf_eq_none.mp hrest, h.distinct⟩
  · rcases List.mem_cons.mp hchild with rfl | hchild
    · exact Or.inr hl
    · exact h.outside child hchild

end Cloned

/-- Copying a node puts it where there was nothing. -/
theorem cloneNode_spec (name : String) (node : Node) (dir : WorkingCopy) :
    Post (cloneNode name node) dir
      (fun _ dir' => childOf (Utf8.encode name) dir = none ∧
        dir' = putChild (Utf8.encode name) node dir) (fun _ _ => True) := by
  rw [cloneNode, post_bind, post_lookUp]
  cases hc : childOf (Utf8.encode name) dir with
  | some other => trivial
  | none =>
    dsimp only
    cases node.cloneFault with
    | some e => trivial
    | none => exact ⟨rfl, rfl⟩

/-- **Cloning what lies in a directory** adds it to the new directory, and changes nothing else. -/
theorem cloneChildren_spec {donor dst : List String} (children : WorkingCopy)
    {disk sub : WorkingCopy} (h : dirAt disk dst = some sub) :
    Post (cloneChildren donor dst children) disk
      (fun _ disk' => ∃ new, disk' = setDirAt new dst disk ∧ Cloned donor dst children sub new)
      (fun _ _ => True) := by
  induction children generalizing disk sub with
  | nil =>
    refine ⟨sub, (setDirAt_self h).symm, fun n => ?_, fun n hn => absurd rfl hn, List.nodup_nil, id,
      fun child hchild => absurd hchild List.not_mem_nil⟩
    exact (Option.none_or).symm
  | cons child children ih =>
    obtain ⟨bytes, node⟩ := child
    rw [cloneChildren, post_ite]
    refine ⟨fun hi => ?_, fun hi => ?_⟩
    · exact (ih h).mono (fun _ disk' ⟨new, hdisk, hnew⟩ => ⟨new, hdisk, hnew.internal hi⟩)
        (fun _ _ _ => trivial)
    · rw [post_ite]
      refine ⟨fun _ => trivial, fun hl => ?_⟩
      rw [post_bind]
      refine Post.within h ((cloneNode_spec _ node sub).mono ?_ (fun _ _ _ => trivial))
      rintro _ _ ⟨hnone, rfl⟩
      refine (ih (dirAt_setDirAt_self h _)).mono ?_ (fun _ _ _ => trivial)
      rintro _ disk' ⟨new, rfl, hnew⟩
      refine ⟨new, setDirAt_setDirAt h, hnew.cons ?_ ?_ hnone⟩
      · exact Bool.eq_false_iff.mpr hi
      · exact Bool.eq_false_iff.mpr hl

theorem userFiles_cons_congr (child : Bytes × Node) {rest rest' : WorkingCopy}
    (h : userFiles rest = userFiles rest') :
    userFiles (child :: rest) = userFiles (child :: rest') := by
  obtain ⟨bytes, node⟩ := child
  cases hb : isWorkspaceInternal (Utf8.decodeLossy bytes) with
  | true => rw [userFiles_cons_internal hb, userFiles_cons_internal hb, h]
  | false => rw [userFiles_cons hb, userFiles_cons hb, h]

/-- A name that is not cloned does not matter. -/
theorem userFiles_putChild {name : String} (hi : isWorkspaceInternal name = true) (node : Node)
    (dir : WorkingCopy) : userFiles (putChild (Utf8.encode name) node dir) = userFiles dir := by
  have hskip : ∀ node rest, userFiles ((Utf8.encode name, node) :: rest) = userFiles rest := by
    intro node rest
    apply userFiles_cons_internal
    rw [Utf8.decodeLossy_encode]
    exact hi
  rw [putChild]
  split_ifs with hc
  · clear hc
    induction dir with
    | nil => rfl
    | cons child rest ih =>
      obtain ⟨bytes, old⟩ := child
      rw [replaceChild]
      split_ifs with hb
      · rw [hb, hskip, hskip]
      · exact userFiles_cons_congr _ ih
  · clear hc
    induction dir with
    | nil => exact hskip node []
    | cons child rest ih =>
      obtain ⟨bytes, old⟩ := child
      rw [addChild]
      split_ifs with hlt
      · exact hskip node _
      · exact userFiles_cons_congr _ ih

/-- Nothing internal is cloned. -/
theorem childOf_userFiles_internal {name : String} (hi : isWorkspaceInternal name = true)
    (dir : WorkingCopy) : childOf (Utf8.encode name) (userFiles dir) = none := by
  induction dir with
  | nil => rfl
  | cons child rest ih =>
    obtain ⟨bytes, node⟩ := child
    cases hb : isWorkspaceInternal (Utf8.decodeLossy bytes) with
    | true =>
      rw [userFiles_cons_internal hb]
      exact ih
    | false =>
      rw [userFiles_cons hb, childOf, if_neg]
      · exact ih
      · intro heq
        rw [Utf8.encode_injective heq, hi] at hb
        cases hb

theorem existsAt_of_dirAt {disk sub : WorkingCopy} {path : List String}
    (h : dirAt disk path = some sub) : existsAt disk path = true := by
  induction path generalizing disk with
  | nil => rfl
  | cons name path ih =>
    obtain ⟨children, hc, hrest⟩ := dirAt_cons h
    rw [existsAt, hc]
    exact ih hrest

/-- A directory that was not there is empty once it is made. -/
theorem MadeDirs.empty {path : List String} {disk disk' : WorkingCopy}
    (h : MadeDirs path disk disk') (hnew : existsAt disk path = false) :
    dirAt disk' path = some [] := by
  obtain ⟨sub, hsub, hwas | ⟨-, rfl⟩⟩ := h.made
  · rw [existsAt_of_dirAt hwas] at hnew
    cases hnew
  · exact hsub

/-- Where a clone of a directory below it can lie: behind an internal name. -/
def BehindInternal (donor dst : List String) : Prop :=
  ∀ name rest, dst = donor ++ name :: rest → isWorkspaceInternal name = true

/-- A directory is still there after directories have been made; made behind an internal name, they
do not change what is cloned. -/
theorem MadeDirs.still_there {path donor : List String} {disk disk' files : WorkingCopy}
    (h : MadeDirs path disk disk') (hdonor : dirAt disk donor = some files) :
    ∃ files', dirAt disk' donor = some files' ∧
      (BehindInternal donor path → userFiles files' = userFiles files) := by
  by_cases hp : donor <+: path
  · obtain ⟨rest, rfl⟩ := hp
    cases rest with
    | nil =>
      rw [List.append_nil] at h
      obtain ⟨sub, hsub, hwas | ⟨hfree, -⟩⟩ := h.made
      · exact ⟨sub, hsub, fun _ => by rw [Option.some.inj (hwas.symm.trans hdonor)]⟩
      · rw [existsAt_of_dirAt hdonor] at hfree
        cases hfree
    | cons name rest =>
      obtain ⟨node, hnode⟩ := h.above donor name rest files rfl hdonor
      exact ⟨_, hnode, fun hb => userFiles_putChild (hb name rest rfl) node files⟩
  · exact ⟨files, h.other donor files hdonor hp, fun _ => rfl⟩

theorem BehindInternal.dropLast {donor dst : List String} (h : BehindInternal donor dst) :
    BehindInternal donor dst.dropLast := by
  intro name rest heq
  obtain rfl | ⟨above, last, rfl⟩ := List.eq_nil_or_concat dst
  · cases donor <;> cases heq
  · rw [List.concat_eq_append] at h heq
    rw [List.dropLast_concat] at heq
    apply h name (rest ++ [last])
    rw [heq, List.append_assoc, List.cons_append]

/-- **A clone** has what the donor had when the command started, apart from what is internal.

**Proof sketch.** Making the new directory changes the donor's directory in one name at most, the
first on the way from the donor to the new directory. If that name is internal it is not cloned, and
the rest is as it was; if it is not, the donor would be copied into itself, which fails. -/
theorem materializeFromWorkspace_spec {donor dst : List String} (shown : String)
    {disk files : WorkingCopy} (h : dirAt disk donor = some files) :
    Post (materializeFromWorkspace donor dst shown) disk
      (fun _ disk' => ∃ new, dirAt disk' dst = some new ∧
        (∀ n, childOf n new = childOf n (userFiles files)) ∧
        DistinctNames new ∧ DistinctNames (userFiles files) ∧ BehindInternal donor dst)
      (fun _ _ => True) := by
  rw [materializeFromWorkspace, post_bind, post_get, post_ite]
  refine ⟨fun _ => trivial, fun hex => ?_⟩
  have hnew : existsAt disk dst = false := Bool.eq_false_iff.mpr hex
  rw [post_bind]
  refine (createDirAll_spec dst disk).mono (fun _ disk₁ hmade => ?_) (fun _ _ _ => trivial)
  rw [post_bind, post_get]
  have hsub : dirAt disk₁ dst = some [] := hmade.empty hnew
  by_cases hbehind : BehindInternal donor dst
  · obtain ⟨children, hchildren, hsame⟩ := hmade.still_there h
    have heq := hsame hbehind
    rw [hchildren]
    refine (cloneChildren_spec children hsub).mono ?_ (fun _ _ _ => trivial)
    rintro _ _ ⟨new, rfl, hcloned⟩
    refine ⟨new, ?_, fun n => ?_, hcloned.distinctNew List.nodup_nil, heq ▸ hcloned.distinct,
      hbehind⟩
    · exact dirAt_setDirAt_self hsub new
    · rw [hcloned.look, heq]
      exact Option.or_none
  · -- the copy would go on for ever
    unfold BehindInternal at hbehind
    push Not at hbehind
    obtain ⟨name, rest, rfl, hi⟩ := hbehind
    obtain ⟨node, hnode⟩ := hmade.above donor name rest files rfl h
    rw [hnode]
    refine (cloneChildren_spec _ hsub).mono ?_ (fun _ _ _ => trivial)
    rintro _ _ ⟨new, rfl, hcloned⟩
    have hmem : (Utf8.encode name, node) ∈ putChild (Utf8.encode name) node files := by
      apply mem_of_childOf
      rw [childOf_putChild, if_pos rfl]
    rcases hcloned.outside _ hmem with h' | h'
    · rw [Utf8.decodeLossy_encode] at h'
      exact absurd h' hi
    · have hleads : leadsTo donor (donor ++ name :: rest) (Utf8.encode name) = true := by
        simp [leadsTo]
      rw [hleads] at h'
      cases h'

end Tig
