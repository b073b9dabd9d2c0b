import Tig.Fs.Copying

set_option relaxedAutoImplicit false
set_option autoImplicit false

/-!
# When copying a donor comes to an end

A copy of a directory to a place apart from it comes to an end and is exact. A copy of a directory to
a place below it does not: what it makes is what it then finds, one level deeper each time.

A new workspace often lies below its donor, behind one of the names that are not cloned. Then nothing
that is cloned leads to it, and the copy is exact.

## Main definitions

* `Tig.Node.SameAs` — the same files, directories and symlinks below two nodes.
* `Tig.Copyable` — files, directories and symlinks.
* `Tig.ExactCopy` — the new directory has what the donor had, and the rest is as it was.

## Main results

* `Tig.copyRecursive_apart` — a copy to a place apart is exact.
* `Tig.copyRecursive_below` — a copy to a place below does not end.
* `Tig.materializeFromWorkspace_exact_iff` — a clone is exact exactly when no name that is cloned leads
  from the donor to the new directory.
-/

namespace Tig

open Program CopyFallback

/-! ## Nodes that are copies of each other -/

/-- The same files, directories and symlinks at the same paths. -/
def Node.SameAs (node copy : Node) : Prop :=
  ∀ path, (copy.at path).map Node.shape = (node.at path).map Node.shape

theorem Node.SameAs.refl (node : Node) : node.SameAs node := fun _ => rfl

/-- Directories with the same names, with copies under them. -/
theorem Node.SameAs.dir {children children' : WorkingCopy}
    (h : ∀ n, (childOf n children = none ∧ childOf n children' = none) ∨ ∃ node copy,
      childOf n children = some node ∧ childOf n children' = some copy ∧ node.SameAs copy) :
    (Node.dir children).SameAs (.dir children') := by
  intro path
  cases path with
  | nil => rw [Node.at_nil, Node.at_nil]; rfl
  | cons n rest =>
    rw [Node.at_dir_cons, Node.at_dir_cons]
    rcases h n with ⟨hnone, hnone'⟩ | ⟨node, copy, hnode, hcopy, hsame⟩
    · rw [hnone, hnone']
    · rw [hnode, hcopy]
      exact hsame rest

/-- Below the node there is nothing but files, directories and symlinks, and no name occurs twice in a
directory. -/
structure Copyable (node : Node) : Prop where
  plain : ∀ path kind, node.at path ≠ some (.other kind)
  distinct : ∀ path children, node.at path = some (.dir children) → DistinctNames children

theorem Copyable.child {children : WorkingCopy} (h : Copyable (.dir children)) {name : Bytes}
    {node : Node} (hnode : childOf name children = some node) : Copyable node where
  plain path kind hpath := h.plain (name :: path) kind (by rw [Node.at_dir_cons, hnode]; exact hpath)
  distinct path sub hpath := h.distinct (name :: path) sub (by
    rw [Node.at_dir_cons, hnode]
    exact hpath)

theorem copyable_file (bytes : Bytes) (executable : Bool) : Copyable (.file bytes executable) where
  plain path kind h := by cases path <;> cases h
  distinct path children h := by cases path <;> cases h

theorem copyable_dir {children : WorkingCopy} (hdistinct : DistinctNames children)
    (h : ∀ name node, (name, node) ∈ children → Copyable node) : Copyable (.dir children) where
  plain path kind hpath := by
    cases path with
    | nil => cases hpath
    | cons name rest =>
      obtain ⟨node, hnode, hrest⟩ := Option.bind_eq_some_iff.mp hpath
      exact (h name node (mem_of_childOf hnode)).plain rest kind hrest
  distinct path sub hpath := by
    cases path with
    | nil =>
      obtain rfl := Node.dir.inj (Option.some.inj hpath)
      exact hdistinct
    | cons name rest =>
      obtain ⟨node, hnode, hrest⟩ := Option.bind_eq_some_iff.mp hpath
      exact (h name node (mem_of_childOf hnode)).distinct rest sub hrest

mutual

/-- How many levels a node has. -/
def Node.levels : Node → Nat
  | .dir children => childLevels children + 1
  | _ => 1

/-- How many levels the nodes in a directory have at most. -/
def childLevels : List (Bytes × Node) → Nat
  | [] => 0
  | (_, node) :: rest => max node.levels (childLevels rest)

end

theorem levels_le_childLevels {children : WorkingCopy} {name : Bytes} {node : Node}
    (h : childOf name children = some node) : node.levels ≤ childLevels children := by
  induction children with
  | nil => cases h
  | cons child rest ih =>
    obtain ⟨n, other⟩ := child
    rw [childOf] at h
    rw [childLevels]
    split_ifs at h
    · obtain rfl := Option.some.inj h
      exact le_max_left _ _
    · exact (ih h).trans (le_max_right _ _)

/-! ## What the operations do -/

section Operations

variable {root : WorkingCopy} {p : EntryPath} {node : Node} {Q : Unit → WorkingCopy → Prop}
  {E : CopyStop → WorkingCopy → Prop}

theorem symlinkMetadata_spec {R : Node → WorkingCopy → Prop}
    (hok : ∀ node, nodeOf root p.parent p.name = some node → R node root)
    (herr : ∀ e, nodeOf root p.parent p.name = none → E e root) :
    Post (symlinkMetadata p) root R E := by
  rw [symlinkMetadata, post_bind, post_get]
  cases hnode : nodeOf root p.parent p.name with
  | none => exact herr _ hnode
  | some node => exact hok node hnode

/-- Something is made in a directory, where there is nothing. -/
theorem makeNode_spec
    (hok : (dirOf root p.parent).isSome → nodeOf root p.parent p.name = none →
      Q () (p.put node root))
    (herr : ∀ e, (dirOf root p.parent).isSome = false ∨ nodeOf root p.parent p.name ≠ none →
      E e root) :
    Post (makeNode p node) root Q E := by
  rw [makeNode, post_bind, post_get]
  cases hdir : dirOf root p.parent with
  | none => exact herr _ (.inl (by rw [hdir]; rfl))
  | some dir =>
    cases hnode : nodeOf root p.parent p.name with
    | none => exact hok (by rw [hdir]; rfl) hnode
    | some node => exact herr _ (.inr (by rw [hnode]; nofun))

theorem readDir_spec {env : CopyEnv} {loc : Location} {R : List Bytes → WorkingCopy → Prop}
    (hok : ∀ dir, dirOf root loc = some dir → R (env.order loc dir) root)
    (herr : ∀ e, dirOf root loc = none → E e root) : Post (readDir env loc) root R E := by
  rw [readDir, post_bind, post_get]
  cases hdir : dirOf root loc with
  | none => exact herr _ hdir
  | some dir => exact hok dir hdir

end Operations

/-! ## Places apart -/

/-- Neither place is on the way to the other. -/
def Apart (a b : Location) : Prop := ¬ a <+: b ∧ ¬ b <+: a

theorem Apart.concat_right {a b : Location} (h : Apart a b) (n : Bytes) : Apart a (b ++ [n]) := by
  have hnot : ¬ b ++ [n] <+: a := fun hpre => h.2 ((List.prefix_append b [n]).trans hpre)
  refine ⟨fun hpre => ?_, hnot⟩
  rcases List.prefix_concat_iff.mp hpre with heq | hpre
  · exact hnot (heq ▸ List.prefix_refl _)
  · exact h.1 hpre

theorem Apart.concat {a b : Location} (h : Apart a b) (m n : Bytes) :
    Apart (a ++ [m]) (b ++ [n]) := by
  constructor
  · intro hpre
    rcases List.prefix_or_prefix_of_prefix ((List.prefix_append a [m]).trans hpre)
      (List.prefix_append b [n]) with hab | hba
    · exact h.1 hab
    · exact h.2 hba
  · intro hpre
    rcases List.prefix_or_prefix_of_prefix ((List.prefix_append b [n]).trans hpre)
      (List.prefix_append a [m]) with hba | hab
    · exact h.2 hba
    · exact h.1 hab

section Put

variable {root : WorkingCopy} {p : EntryPath}

theorem nodeOf_put_apart {q : EntryPath} (h : Apart q.loc p.loc) (node : Node) :
    nodeOf (p.put node root) q.parent q.name = nodeOf root q.parent q.name :=
  nodeOf_alter_apart h.2 h.1

theorem dirOf_put_self (h : (dirOf root p.parent).isSome) (children : WorkingCopy) :
    dirOf (p.put (.dir children) root) p.loc = some children :=
  dirOf_alter_put_self children h

/-- Putting something into a directory that has just been put. -/
theorem put_join_put (children : WorkingCopy) (name : Bytes) (node : Node) :
    (p.join name).put node (p.put (.dir children) root) =
      p.put (.dir (putChild name node children)) root :=
  alter_alter_child _ children

end Put

/-! ## A copy to a place apart -/

/-- What has been listed is copied: `node` says what there is to copy, and `copy` copies each name
into a new directory, which has `part₀` in it. -/
theorem copyEntries_spec {root : WorkingCopy} {dst : EntryPath} {copy : Bytes → CopyM Unit}
    (node : Bytes → Node) (names : List Bytes) (hnames : names.Nodup) (part₀ : WorkingCopy)
    (hfree : ∀ n ∈ names, childOf n part₀ = none)
    (hcopy : ∀ n ∈ names, ∀ part, childOf n part = none →
      Post (copy n) (dst.put (.dir part) root)
        (fun _ root' => ∃ made, root' = (dst.join n).put made (dst.put (.dir part) root) ∧
          (node n).SameAs made) fun _ _ => False) :
    Post (copyEntries copy names) (dst.put (.dir part₀) root)
      (fun _ root' => ∃ part, root' = dst.put (.dir part) root ∧
        (∀ n ∈ names, ∃ made, childOf n part = some made ∧ (node n).SameAs made) ∧
        ∀ n ∉ names, childOf n part = childOf n part₀) fun _ _ => False := by
  induction names generalizing part₀ with
  | nil => exact ⟨part₀, rfl, nofun, fun _ _ => rfl⟩
  | cons name rest ih =>
    obtain ⟨hname, hrest⟩ := List.nodup_cons.mp hnames
    rw [copyEntries, post_bind]
    refine (hcopy name List.mem_cons_self part₀ (hfree name List.mem_cons_self)).mono
      (fun _ root₁ hmade => ?_) fun _ _ h => h
    obtain ⟨made, rfl, hsame⟩ := hmade
    rw [put_join_put]
    have hother : ∀ n, n ≠ name → childOf n (putChild name made part₀) = childOf n part₀ :=
      fun n hn => (childOf_putChild _ _ _ _).trans (if_neg hn)
    refine (ih hrest (putChild name made part₀) (fun n hn => ?_)
      (fun n hn => hcopy n (List.mem_cons_of_mem _ hn))).mono (fun _ root₂ hpart => ?_) fun _ _ h => h
    · rw [hother n fun h => hname (h ▸ hn)]
      exact hfree n (List.mem_cons_of_mem _ hn)
    · obtain ⟨part, rfl, hcopied, hleft⟩ := hpart
      refine ⟨part, rfl, fun n hn => ?_, fun n hn => ?_⟩
      · rcases List.mem_cons.mp hn with rfl | hn
        · exact ⟨made, (hleft n hname).trans ((childOf_putChild _ _ _ _).trans (if_pos rfl)), hsame⟩
        · exact hcopied n hn
      · rw [List.mem_cons, not_or] at hn
        rw [hleft n hn.2, hother n hn.1]

/-- **A copy to a place apart** comes to an end, and is exact. The induction is on the depth to which
it is followed, which is enough for the levels of what is copied. -/
theorem copyRecursive_apart (env : CopyEnv) (depth : Nat) {root : WorkingCopy} {src dst : EntryPath}
    {node : Node} {topLevel : Bool} (hlevels : node.levels ≤ depth) (hcopyable : Copyable node)
    (hsrc : nodeOf root src.parent src.name = some node) (hparent : (dirOf root dst.parent).isSome)
    (hnew : nodeOf root dst.parent dst.name = none) (hapart : Apart src.loc dst.loc) :
    Post (copyRecursive env depth src dst topLevel) root
      (fun _ root' => ∃ made, root' = dst.put made root ∧ node.SameAs made) fun _ _ => False := by
  induction depth generalizing root src dst node topLevel with
  | zero => cases node <;> exact absurd hlevels (by simp [Node.levels])
  | succ depth ih =>
    rw [copyRecursive, post_bind]
    refine symlinkMetadata_spec (fun node' hnode' => ?_)
      (fun _ hnone => absurd (hsrc.symm.trans hnone) nofun)
    obtain rfl := Option.some.inj (hsrc.symm.trans hnode')
    rw [post_bind, post_get, post_ite]
    refine ⟨fun hthere => ?_, fun _ => ?_⟩
    · rw [hnew] at hthere
      simp at hthere
    have hmake : ∀ made, node.SameAs made → Post (makeNode dst made) root
        (fun _ root' => ∃ made, root' = dst.put made root ∧ node.SameAs made) fun _ _ => False :=
      fun made hsame => makeNode_spec (fun _ _ => ⟨made, rfl, hsame⟩)
        (fun _ h => h.elim (fun h => absurd (hparent.symm.trans h) nofun) fun h => h hnew)
    cases node with
    | symlink target => exact hmake _ (.refl _)
    | file bytes executable =>
      dsimp only
      rw [copyFile, post_bind, post_get]
      obtain ⟨dir, hdir⟩ := Option.isSome_iff_exists.mp hparent
      dsimp only
      rw [hdir, hnew]
      exact ⟨_, rfl, .refl _⟩
    | other kind => exact absurd (Node.at_nil (.other kind)) (hcopyable.plain [] kind)
    | dir children =>
      dsimp only
      rw [post_bind, CopyFallback.createDir]
      refine makeNode_spec (fun _ _ => ?_)
        (fun _ h => h.elim (fun h => absurd (hparent.symm.trans h) nofun) fun h => h hnew)
      rw [post_bind]
      -- what is listed is what was there, whatever has been put at the place apart
      have hsource : ∀ part, dirOf (dst.put (.dir part) root) src.loc = some children := by
        intro part
        rw [EntryPath.loc, dirOf_concat, nodeOf_put_apart hapart, hsrc]
      refine readDir_spec (fun dir hdir => ?_)
        (fun _ hnone => absurd ((hsource []).symm.trans hnone) nofun)
      obtain rfl := Option.some.inj ((hsource []).symm.trans hdir)
      have hperm := env.order_perm src.loc children
      have hdistinct := hcopyable.distinct [] children (Node.at_nil _)
      have hmem : ∀ n, n ∈ env.order src.loc children ↔ childOf n children ≠ none := by
        intro n
        rw [hperm.mem_iff, ne_eq, childOf_eq_none, not_not]
      refine (copyEntries_spec (fun n => (childOf n children).getD (.dir [])) _
        (hperm.nodup_iff.mpr hdistinct) [] (fun _ _ => rfl) fun n hn part hfree => ?_).mono
        (fun _ root' hpart => ?_) fun _ _ h => h
      · obtain ⟨child, hchild⟩ := Option.ne_none_iff_exists'.mp ((hmem n).mp hn)
        rw [hchild, Option.getD_some]
        refine ih ?_ (hcopyable.child hchild) ?_ ?_ ?_ (hapart.concat n n)
        · have hle := levels_le_childLevels hchild
          rw [Node.levels] at hlevels
          omega
        · rw [EntryPath.join, nodeOf, hsource part, Option.bind_some, hchild]
        · rw [EntryPath.join, dirOf_put_self hparent]
          rfl
        · rw [EntryPath.join, nodeOf, dirOf_put_self hparent, Option.bind_some, hfree]
      · obtain ⟨part, rfl, hcopied, hleft⟩ := hpart
        refine ⟨.dir part, rfl, .dir fun n => ?_⟩
        by_cases hn : n ∈ env.order src.loc children
        · obtain ⟨child, hchild⟩ := Option.ne_none_iff_exists'.mp ((hmem n).mp hn)
          obtain ⟨made, hmade, hsame⟩ := hcopied n hn
          rw [hchild, Option.getD_some] at hsame
          exact .inr ⟨child, made, hchild, hmade, hsame⟩
        · exact .inl ⟨not_not.mp fun h => hn ((hmem n).mpr h), hleft n hn⟩

/-! ## A copy to a place below -/

/-- A program that returns in no state. -/
def NeverReturns {α : Type} (x : CopyM α) : Prop :=
  ∀ root, Post x root (fun _ _ => False) fun _ _ => True

/-- A list with a name that is not copied is not copied. -/
theorem copyEntries_never {copy : Bytes → CopyM Unit} {name : Bytes} (h : NeverReturns (copy name))
    {names : List Bytes} (hname : name ∈ names) : NeverReturns (copyEntries copy names) := by
  induction names with
  | nil => cases hname
  | cons n rest ih =>
    intro root
    rw [copyEntries, post_bind]
    rcases List.mem_cons.mp hname with rfl | hrest
    · exact (h root).mono (fun _ _ h => h.elim) fun _ _ _ => trivial
    · exact .of_cases (fun _ root₁ _ => ih hrest root₁) fun _ _ _ => trivial

/-- What is on the way to a directory is listed. -/
theorem mem_order_of_dirOf (env : CopyEnv) {root dir : WorkingCopy} {loc : Location} (rest : Location)
    {name : Bytes} (hdir : dirOf root loc = some dir)
    (hbelow : (dirOf root (loc ++ name :: rest)).isSome) : name ∈ env.order loc dir := by
  rw [dirOf_append, hdir, Option.bind_some] at hbelow
  obtain ⟨below, hbelow⟩ := Option.isSome_iff_exists.mp hbelow
  obtain ⟨children, hchild, -⟩ := dirOf_cons hbelow
  rw [(env.order_perm loc dir).mem_iff]
  by_contra hnot
  rw [childOf_eq_none.mpr hnot] at hchild
  cases hchild

/-- One step on the way from a place to one below it, the same name on leads to a place below. -/
theorem below_concat {a b : Location} {name : Bytes} {rest : Location} (h : b = a ++ name :: rest)
    (n : Bytes) : ∃ next more, b ++ [n] = a ++ [name] ++ next :: more := by
  subst h
  cases rest with
  | nil => exact ⟨n, [], by simp⟩
  | cons next rest => exact ⟨next, rest ++ [n], by simp⟩

/-- **A copy to a place below** does not come to an end. The new directory is made first, so it is
found when the old one is listed; on the way to it lies another copy to a place below. -/
theorem copyRecursive_below (env : CopyEnv) (depth : Nat) {src dst : EntryPath} {topLevel : Bool}
    (hbelow : ∃ name rest, dst.loc = src.loc ++ name :: rest) :
    NeverReturns (copyRecursive env depth src dst topLevel) := by
  induction depth generalizing src dst topLevel with
  | zero => exact fun _ => trivial
  | succ depth ih =>
    intro root
    obtain ⟨name, rest, hloc⟩ := hbelow
    rw [copyRecursive, post_bind]
    refine symlinkMetadata_spec (fun node hnode => ?_) fun _ _ => trivial
    rw [post_bind, post_get, post_ite]
    refine ⟨fun _ => trivial, fun _ => ?_⟩
    -- only below a directory can something be made
    have hparent : (dirOf root dst.parent).isSome → ∃ children, node = .dir children := by
      intro hsome
      by_contra hnot
      have habove : dst.parent = src.loc ++ (name :: rest).dropLast := by
        have hdrop := congrArg List.dropLast hloc
        rwa [EntryPath.loc, List.dropLast_concat, List.dropLast_append_cons] at hdrop
      rw [habove, EntryPath.loc, List.append_assoc] at hsome
      change (dirOf root (src.parent ++ src.name :: (name :: rest).dropLast)).isSome at hsome
      rw [dirOf_below_none fun children hchildren =>
        hnot ⟨children, Option.some.inj (hnode.symm.trans hchildren)⟩] at hsome
      cases hsome
    cases node with
    | symlink target =>
      exact makeNode_spec (fun hsome _ => absurd (hparent hsome) nofun) fun _ _ => trivial
    | other kind => exact trivial
    | file bytes executable =>
      dsimp only
      rw [copyFile, post_bind, post_get]
      dsimp only
      cases hdir : dirOf root dst.parent with
      | none => trivial
      | some dir => exact absurd (hparent (by rw [hdir]; rfl)) nofun
    | dir children =>
      dsimp only
      rw [post_bind, CopyFallback.createDir]
      refine makeNode_spec (fun hsome _ => ?_) fun _ _ => trivial
      rw [post_bind]
      refine readDir_spec (fun dir hdir => ?_) fun _ _ => trivial
      have hnever : NeverReturns (copyRecursive env depth (src.join name) (dst.join name) false) :=
        ih (below_concat hloc name)
      refine copyEntries_never hnever (mem_order_of_dirOf env rest hdir ?_) _
      rw [← hloc, dirOf_put_self hsome]
      rfl

/-! ## Cloning a donor -/

/-- The way from the donor to the new directory, if there is one, starts with a name that is not
cloned. -/
def BehindInternalName (donor : Location) (dst : EntryPath) : Prop :=
  ∀ name rest, dst.loc = donor ++ name :: rest →
    isWorkspaceInternal (Utf8.decodeLossy name) = true

/-- From the disk `root` to `root'`, the new directory has become what the donor was, apart from the
internal names in it, and the rest is as it was. -/
structure ExactCopy (donor : Location) (dst : EntryPath) (root root' : WorkingCopy) : Prop where
  dir : shapeAt root' dst.loc = some .dir
  same : ∀ name rest, shapeAt root' (dst.loc ++ name :: rest) =
    if isWorkspaceInternal (Utf8.decodeLossy name) then none
    else shapeAt root (donor ++ name :: rest)
  outside : ∀ path, ¬ dst.loc <+: path → shapeAt root' path = shapeAt root path

/-- Making a directory in a directory that is there. -/
theorem createDirAll_new {root : WorkingCopy} {loc rest : Location} {name : Bytes}
    (hparent : (dirOf root (loc ++ rest)).isSome) (hnew : nodeOf root (loc ++ rest) name = none) :
    Post (CopyFallback.createDirAll loc (rest ++ [name])) root
      (fun _ root' => root' = EntryPath.put ⟨loc ++ rest, name⟩ (.dir []) root)
      fun _ _ => False := by
  induction rest generalizing loc with
  | nil =>
    rw [List.append_nil] at hparent hnew ⊢
    rw [List.nil_append, CopyFallback.createDirAll, post_bind, post_get, hnew]
    dsimp only
    rw [post_bind, CopyFallback.createDir]
    exact makeNode_spec (fun _ _ => rfl) fun _ h =>
      h.elim (fun h => absurd (hparent.symm.trans h) nofun) fun h => h hnew
  | cons first rest ih =>
    obtain ⟨children, hchildren⟩ : ∃ children, nodeOf root loc first = some (.dir children) := by
      by_contra hnot
      rw [dirOf_below_none fun children h => hnot ⟨children, h⟩] at hparent
      cases hparent
    rw [List.append_cons loc first rest] at hparent hnew ⊢
    rw [List.cons_append, CopyFallback.createDirAll, post_bind, post_get, hchildren]
    exact ih hparent hnew

/-- Cloning what has been listed is copying what of it is cloned. -/
theorem cloneEntries_eq (env : CopyEnv) (depth : Nat) (donor : Location) (dst : EntryPath)
    {names : List Bytes} (htext : ∀ n ∈ names, isWorkspaceInternal (Utf8.decodeLossy n) = true ∨
      Utf8.encode (Utf8.decodeLossy n) = n) :
    cloneEntries env depth donor dst names =
      copyEntries (fun n => clonePath env depth ⟨donor, n⟩ (dst.join n))
        (names.filter fun n => !isWorkspaceInternal (Utf8.decodeLossy n)) := by
  induction names with
  | nil => rfl
  | cons n rest ih =>
    have hrest := ih fun n hn => htext n (List.mem_cons_of_mem _ hn)
    rw [cloneEntries, List.filter_cons]
    cases hinternal : isWorkspaceInternal (Utf8.decodeLossy n) with
    | true =>
      rw [if_pos rfl, hrest]
      rfl
    | false =>
      have hn := (htext n List.mem_cons_self).resolve_left (by rw [hinternal]; nofun)
      rw [if_neg Bool.false_ne_true, hrest, hn]
      rfl

/-- A directory on the disk, as a node below the root. -/
theorem at_append_dir {root children : WorkingCopy} {loc : Location} (h : dirOf root loc = some children)
    (path : Location) : (Node.dir root).at (loc ++ path) = (Node.dir children).at path := by
  induction loc generalizing root with
  | nil =>
    obtain rfl := Option.some.inj h
    rfl
  | cons name loc ih =>
    obtain ⟨next, hc, hrest⟩ := dirOf_cons h
    rw [List.cons_append, Node.at_dir_cons, hc, Option.bind_some]
    exact ih hrest

/-- A name that is cloned and listed, and whose copy does not end. -/
theorem cloneEntries_never {env : CopyEnv} {depth : Nat} {donor : Location} {dst : EntryPath}
    {name : Bytes} (hcloned : ¬ isWorkspaceInternal (Utf8.decodeLossy name) = true)
    (hnever : NeverReturns (clonePath env depth ⟨donor, name⟩
      (dst.join (Utf8.encode (Utf8.decodeLossy name)))))
    {names : List Bytes} (hname : name ∈ names) :
    NeverReturns (cloneEntries env depth donor dst names) := by
  induction names with
  | nil => cases hname
  | cons n rest ih =>
    intro root
    rw [cloneEntries, post_ite]
    refine ⟨fun hinternal => ?_, fun _ => ?_⟩
    · rcases List.mem_cons.mp hname with rfl | hrest
      · exact absurd hinternal hcloned
      · exact ih hrest root
    · rw [post_bind]
      rcases List.mem_cons.mp hname with rfl | hrest
      · exact (hnever root).mono (fun _ _ h => h.elim) fun _ _ _ => trivial
      · exact .of_cases (fun _ root₁ _ => ih hrest root₁) fun _ _ _ => trivial

/-- A directory that has been put, with copies of what is cloned of the donor. -/
theorem exactCopy_put {root files part : WorkingCopy} {donor : Location} {dst : EntryPath}
    (hdonor : dirOf root donor = some files) (hparent : (dirOf root dst.parent).isSome)
    (hpart : ∀ n, if isWorkspaceInternal (Utf8.decodeLossy n) = true then childOf n part = none
      else match childOf n files with
        | none => childOf n part = none
        | some child => ∃ made, childOf n part = some made ∧ child.SameAs made) :
    ExactCopy donor dst root (dst.put (.dir part) root) where
  dir := by
    rw [shapeAt_eq_at _ (by simp [EntryPath.loc]), EntryPath.loc, ← nodeOf_eq_at, EntryPath.put,
      nodeOf_alter_self _ hparent]
    rfl
  same name rest := by
    have hnew := at_append_dir (dirOf_put_self hparent part) (name :: rest)
    have hold := at_append_dir hdonor (name :: rest)
    rw [shapeAt_eq_at _ (by simp), shapeAt_eq_at _ (by simp), hnew, hold, Node.at_dir_cons,
      Node.at_dir_cons]
    have hname := hpart name
    split_ifs at hname ⊢
    · rw [hname]
      rfl
    · cases hchild : childOf name files with
      | none =>
        rw [hchild] at hname
        rw [hname]
      | some child =>
        rw [hchild] at hname
        obtain ⟨made, hmade, hsame⟩ := hname
        rw [hmade]
        exact hsame rest
  outside path hpath := shapeAt_alter hpath

section Clone

variable {env : CopyEnv} {root files : WorkingCopy} {donor : Location} {dst : EntryPath}
  (hdonor : dirOf root donor = some files) (hparent : (dirOf root dst.parent).isSome)
  (hnew : nodeOf root dst.parent dst.name = none)

include hdonor hnew

/-- What there is of a directory does not lie below something that is not there. -/
theorem not_prefix_donor : ¬ dst.loc <+: donor := by
  rintro ⟨rest, rfl⟩
  rw [EntryPath.loc, List.append_assoc] at hdonor
  change dirOf root (dst.parent ++ dst.name :: rest) = some files at hdonor
  rw [dirOf_below_none fun children h => absurd (hnew.symm.trans h) nofun] at hdonor
  cases hdonor

/-- What is cloned lies apart from the new directory. -/
theorem apart_of_cloned (hbehind : BehindInternalName donor dst) {n : Bytes}
    (hn : isWorkspaceInternal (Utf8.decodeLossy n) ≠ true) : Apart (donor ++ [n]) dst.loc := by
  have hnot : ¬ donor ++ [n] <+: dst.loc := by
    rintro ⟨rest, hrest⟩
    refine hn (hbehind n rest ?_)
    rw [← hrest, List.append_assoc]
    rfl
  refine ⟨hnot, fun hpre => ?_⟩
  rcases List.prefix_concat_iff.mp hpre with heq | hpre
  · exact hnot (heq ▸ List.prefix_refl _)
  · exact not_prefix_donor hdonor hnew hpre

/-- The donor's directory after the new one has been made. -/
theorem donor_after_create :
    ∃ files', dirOf (dst.put (.dir []) root) donor = some files' ∧
      (DistinctNames files → DistinctNames files') := by
  rcases em (donor <+: dst.parent) with ⟨rest, hrest⟩ | hnot
  · refine ⟨alter (putChild dst.name (.dir [])) rest files, ?_, fun h => h.alter _ _ _⟩
    rw [EntryPath.put, ← hrest]
    exact dirOf_alter_above _ hdonor
  · refine ⟨files, ?_, id⟩
    obtain rfl | ⟨above, last, rfl⟩ := List.eq_nil_or_concat donor
    · exact absurd List.nil_prefix hnot
    have hapart : Apart (above ++ [last]) dst.loc := by
      rw [List.concat_eq_append] at hnot hdonor
      refine ⟨fun hpre => ?_, not_prefix_donor hdonor hnew⟩
      rcases List.prefix_concat_iff.mp hpre with heq | hpre
      · exact not_prefix_donor hdonor hnew (heq ▸ List.prefix_refl _)
      · exact hnot hpre
    rw [List.concat_eq_append, dirOf_concat] at hdonor ⊢
    rw [nodeOf_put_apart (q := ⟨above, last⟩) hapart]
    exact hdonor

include hparent

/-- A clone starts by making the new directory, and lists the donor's. -/
theorem post_materializeFromWorkspace {depth : Nat} {Q : MaterializeOutcome → WorkingCopy → Prop}
    {E : CopyStop → WorkingCopy → Prop}
    (h : ∀ files', dirOf (dst.put (.dir []) root) donor = some files' →
      Post (cloneEntries env depth donor dst (env.order donor files')) (dst.put (.dir []) root)
        (fun _ root' => Q (.cloned "copy" donor) root') E) :
    Post (CopyFallback.materializeFromWorkspace env depth donor dst) root Q E := by
  obtain ⟨files', hfiles', -⟩ := donor_after_create hdonor hnew
  rw [CopyFallback.materializeFromWorkspace, post_bind, post_get, post_ite]
  refine ⟨fun hexists => ?_, fun _ => ?_⟩
  · rw [pathExists, hnew] at hexists
    cases hexists
  rw [post_bind]
  have hmade : Post (CopyFallback.createDirAll [] dst.loc) root
      (fun _ root' => root' = dst.put (.dir []) root) fun _ _ => False := createDirAll_new hparent hnew
  refine hmade.mono (fun _ root₁ hroot₁ => ?_) fun _ _ h => h.elim
  subst hroot₁
  rw [post_bind]
  refine readDir_spec (fun files₁ hfiles₁ => ?_)
    fun _ hnone => absurd (hfiles'.symm.trans hnone) nofun
  rw [post_bind]
  exact h files₁ hfiles₁

variable (env) in
/-- **A clone** behind an internal name, or outside the donor, comes to an end and is exact. -/
theorem materializeFromWorkspace_exact (hcopyable : Copyable (.dir files))
    (htext : ∀ n, childOf n files ≠ none → (Utf8.decode n).isSome)
    (hbehind : BehindInternalName donor dst) {depth : Nat} (hdepth : childLevels files ≤ depth) :
    Post (CopyFallback.materializeFromWorkspace env depth donor dst) root
      (fun out root' => out = .cloned "copy" donor ∧ ExactCopy donor dst root root')
      fun _ _ => False := by
  refine post_materializeFromWorkspace hdonor hparent hnew fun files' hfiles' => ?_
  obtain ⟨files₁, hfiles₁, hdistinct⟩ := donor_after_create hdonor hnew
  obtain rfl := Option.some.inj (hfiles'.symm.trans hfiles₁)
  -- a name that is cloned stands for the same before and after
  have hsource : ∀ {n}, isWorkspaceInternal (Utf8.decodeLossy n) ≠ true → ∀ part,
      nodeOf (dst.put (.dir part) root) donor n = childOf n files := by
    intro n hn part
    rw [nodeOf_put_apart (q := ⟨donor, n⟩) (apart_of_cloned hdonor hnew hbehind hn), nodeOf, hdonor,
      Option.bind_some]
  have hlisted : ∀ {n}, isWorkspaceInternal (Utf8.decodeLossy n) ≠ true →
      (n ∈ env.order donor files' ↔ childOf n files ≠ none) := by
    intro n hn
    rw [(env.order_perm donor files').mem_iff, ← hsource hn [], nodeOf, hfiles', Option.bind_some,
      ne_eq, childOf_eq_none, not_not]
  rw [cloneEntries_eq env depth donor dst fun n hn => ?_]
  swap
  · refine or_iff_not_imp_left.mpr fun hinternal => ?_
    obtain ⟨name, hname⟩ := Option.isSome_iff_exists.mp (htext n ((hlisted hinternal).mp hn))
    rw [Utf8.encode_of_decode hname, Utf8.decodeLossy_encode]
  have hmem : ∀ n, n ∈ (env.order donor files').filter
      (fun n => !isWorkspaceInternal (Utf8.decodeLossy n)) ↔
      isWorkspaceInternal (Utf8.decodeLossy n) ≠ true ∧ childOf n files ≠ none := by
    intro n
    rw [List.mem_filter, Bool.not_eq_true', ← Bool.not_eq_true]
    exact ⟨fun h => ⟨h.2, (hlisted h.2).mp h.1⟩, fun h => ⟨(hlisted h.1).mpr h.2, h.1⟩⟩
  have hnodup : ((env.order donor files').filter
      (fun n => !isWorkspaceInternal (Utf8.decodeLossy n))).Nodup :=
    ((env.order_perm donor files').nodup_iff.mpr
      (hdistinct (hcopyable.distinct [] files (Node.at_nil _)))).filter _
  refine (copyEntries_spec (fun n => (childOf n files).getD (.dir [])) _ hnodup []
    (fun _ _ => rfl) fun n hn part hfree => ?_).mono (fun _ root' hpart => ⟨rfl, ?_⟩) fun _ _ h => h
  · obtain ⟨hcloned, hthere⟩ := (hmem n).mp hn
    obtain ⟨child, hchild⟩ := Option.ne_none_iff_exists'.mp hthere
    rw [hchild, Option.getD_some]
    refine copyRecursive_apart env depth ((levels_le_childLevels hchild).trans hdepth)
      (hcopyable.child hchild) ((hsource hcloned part).trans hchild) ?_ ?_ ?_
    · rw [EntryPath.join, dirOf_put_self hparent]
      rfl
    · rw [EntryPath.join, nodeOf, dirOf_put_self hparent, Option.bind_some, hfree]
    · exact (apart_of_cloned hdonor hnew hbehind hcloned).concat_right n
  · obtain ⟨part, rfl, hcopied, hleft⟩ := hpart
    refine exactCopy_put hdonor hparent fun n => ?_
    split_ifs with hinternal
    · exact hleft n fun hn => ((hmem n).mp hn).1 hinternal
    · cases hchild : childOf n files with
      | none => exact hleft n fun hn => ((hmem n).mp hn).2 hchild
      | some child =>
        obtain ⟨made, hmade, hsame⟩ := hcopied n ((hmem n).mpr ⟨hinternal, by rw [hchild]; exact Option.some_ne_none _⟩)
        rw [hchild, Option.getD_some] at hsame
        exact ⟨made, hmade, hsame⟩

variable (env) in
/-- **A clone** to a place behind a name that is cloned does not come to an end. -/
theorem materializeFromWorkspace_never (hbehind : ¬ BehindInternalName donor dst) (depth : Nat) :
    Post (CopyFallback.materializeFromWorkspace env depth donor dst) root (fun _ _ => False)
      fun _ _ => True := by
  unfold BehindInternalName at hbehind
  push Not at hbehind
  obtain ⟨name, rest, hloc, hcloned⟩ := hbehind
  refine post_materializeFromWorkspace hdonor hparent hnew fun files' hfiles' => ?_
  have hlisted : name ∈ env.order donor files' := by
    refine mem_order_of_dirOf env rest hfiles' ?_
    rw [← hloc, dirOf_put_self hparent]
    rfl
  have hnever : NeverReturns (clonePath env depth ⟨donor, name⟩
      (dst.join (Utf8.encode (Utf8.decodeLossy name)))) :=
    copyRecursive_below env depth (below_concat hloc _)
  exact cloneEntries_never hcloned hnever hlisted _

variable (env) in
/-- **When a clone is exact**: for every order in which directories are listed, and every donor of
files, directories and symlinks with names that are text, a clone to a new directory comes to an end
with an exact copy exactly when no name that is cloned leads from the donor to the new directory; and
only then does it return at all. -/
theorem materializeFromWorkspace_exact_iff (hcopyable : Copyable (.dir files))
    (htext : ∀ n, childOf n files ≠ none → (Utf8.decode n).isSome) :
    ((∃ enough, ∀ depth ≥ enough, ∃ root',
        CopyFallback.materializeFromWorkspace env depth donor dst root =
          .ok (.cloned "copy" donor) root' ∧ ExactCopy donor dst root root') ↔
      BehindInternalName donor dst) ∧
    ((∃ depth out root', CopyFallback.materializeFromWorkspace env depth donor dst root =
        .ok out root') ↔ BehindInternalName donor dst) := by
  have hexact : BehindInternalName donor dst → ∀ depth ≥ childLevels files, ∃ root',
      CopyFallback.materializeFromWorkspace env depth donor dst root =
        .ok (.cloned "copy" donor) root' ∧ ExactCopy donor dst root root' := by
    intro hbehind depth hdepth
    obtain ⟨out, root', hrun, rfl, hcopy⟩ := (materializeFromWorkspace_exact env hdonor hparent
      hnew hcopyable htext hbehind hdepth).exists_ok
    exact ⟨root', hrun, hcopy⟩
  have hreturns : (∃ depth out root', CopyFallback.materializeFromWorkspace env depth donor dst root =
      .ok out root') → BehindInternalName donor dst := by
    rintro ⟨depth, out, root', hrun⟩
    by_contra hbehind
    exact (materializeFromWorkspace_never env hdonor hparent hnew hbehind depth).ok hrun
  refine ⟨⟨fun ⟨enough, h⟩ => ?_, fun h => ⟨_, hexact h⟩⟩, hreturns, fun h => ?_⟩
  · obtain ⟨root', hrun, -⟩ := h enough le_rfl
    exact hreturns ⟨enough, _, root', hrun⟩
  · obtain ⟨root', hrun, -⟩ := hexact h _ le_rfl
    exact ⟨_, _, root', hrun⟩

end Clone

/-! ## A copy into itself -/

namespace SelfCopy

/-- Directories are listed by name, and at most forty symlinks are followed. -/
def env : CopyEnv where
  order _ dir := dir.map Prod.fst
  order_perm _ _ := List.Perm.refl _
  links := 40
  special _ := some (.io "No such device or address (os error 6)")

/-- A workspace with one file. -/
def files : WorkingCopy :=
  [(Utf8.encode ".tig-worktrees", .dir []), (Utf8.encode "a.txt", .file [97] false)]

def root : WorkingCopy := [(Utf8.encode "repo", .dir files)]

def donor : Location := [Utf8.encode "repo"]

/-- Where `wt make` puts a workspace, and a place in the middle of the donor. -/
def hidden : EntryPath := ⟨[Utf8.encode "repo", Utf8.encode ".tig-worktrees"], Utf8.encode "w"⟩

def visible : EntryPath := ⟨[Utf8.encode "repo"], Utf8.encode "copy"⟩

theorem copyable : Copyable (.dir files) := by
  have hdistinct : (files.map Prod.fst).Nodup := by decide +kernel
  refine copyable_dir hdistinct fun name node hmem => ?_
  rcases List.mem_cons.mp hmem with heq | hmem
  · obtain ⟨-, rfl⟩ := Prod.mk.inj heq
    exact copyable_dir List.nodup_nil nofun
  · obtain ⟨-, rfl⟩ := Prod.mk.inj (List.mem_singleton.mp hmem)
    exact copyable_file _ _

theorem decode_isSome (n : Bytes) (h : childOf n files ≠ none) : (Utf8.decode n).isSome := by
  rw [ne_eq, childOf_eq_none, not_not] at h
  rcases List.mem_cons.mp h with rfl | h
  · rw [Utf8.decode_encode]
    rfl
  · rw [List.mem_singleton.mp h, Utf8.decode_encode]
    rfl

end SelfCopy

/-- A clone to where `wt make` puts a workspace. -/
theorem materializeFromWorkspace_exact_hidden :
    ((∃ enough, ∀ depth ≥ enough, ∃ root',
        CopyFallback.materializeFromWorkspace SelfCopy.env depth SelfCopy.donor SelfCopy.hidden
          SelfCopy.root = .ok (.cloned "copy" SelfCopy.donor) root' ∧
        ExactCopy SelfCopy.donor SelfCopy.hidden SelfCopy.root root') ↔
      BehindInternalName SelfCopy.donor SelfCopy.hidden) ∧
    ((∃ depth out root', CopyFallback.materializeFromWorkspace SelfCopy.env depth SelfCopy.donor
        SelfCopy.hidden SelfCopy.root = .ok out root') ↔
      BehindInternalName SelfCopy.donor SelfCopy.hidden) :=
  materializeFromWorkspace_exact_iff SelfCopy.env rfl (by decide +kernel) rfl SelfCopy.copyable
    SelfCopy.decode_isSome

/-- **A clone into the donor does not come to an end**: the new directory has been made in the donor
when the donor is listed. -/
theorem materializeFromWorkspace_selfCopy : ¬ ∃ depth out root',
    CopyFallback.materializeFromWorkspace SelfCopy.env depth SelfCopy.donor SelfCopy.visible
      SelfCopy.root = .ok out root' := by
  rintro ⟨depth, out, root', hrun⟩
  have hvisible : ¬ BehindInternalName SelfCopy.donor SelfCopy.visible := by
    intro h
    exact absurd (h (Utf8.encode "copy") [] rfl) (by decide +kernel)
  have hdonor : dirOf SelfCopy.root SelfCopy.donor = some SelfCopy.files := rfl
  exact (materializeFromWorkspace_never SelfCopy.env hdonor (by decide +kernel) rfl hvisible
    depth).ok hrun

end Tig
