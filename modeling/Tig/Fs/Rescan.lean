import Tig.Fs.Checkout
import Tig.Fs.StoredTree

set_option relaxedAutoImplicit false
set_option autoImplicit false

/-!
# Scanning what was rendered

A directory that a scanned tree describes is scanned to that tree again. What a scan sees in it is
what it saw before, except that the targets of symlinks have become text.

## Main definitions

* `Tig.Shape.asText` — a node as a scan records it.

## Main results

* `Tig.recordTree_eq` — a directory is recorded as the sorted tree that has its names.
* `Tig.Depicts.rescan` — what a scanned tree describes is scanned to that tree.
* `Tig.exists_depicts_iff` — which scanned trees describe a directory.
-/

namespace Tig

open Program

/-! ## Directories with distinct names -/

/-- Among distinct names, a scan sees the child of the name, unless the name is ignored. -/
theorem findChild_eq {ignore : List String} {name : String} {dir : WorkingCopy}
    (h : DistinctNames dir) :
    findChild ignore name dir = if name ∈ ignore then none else childOf (Utf8.encode name) dir := by
  induction dir with
  | nil =>
    rw [findChild, childOf, ite_self]
  | cons child rest ih =>
    obtain ⟨bytes, node⟩ := child
    obtain ⟨hbytes, hrest⟩ := List.nodup_cons.mp h
    rw [findChild, ih hrest, childOf]
    by_cases hi : name ∈ ignore
    · rw [if_pos hi, if_pos hi, if_neg fun hc => hc.2 hi, Option.none_or]
    · rw [if_neg hi, if_neg hi]
      by_cases hb : bytes = Utf8.encode name
      · subst hb
        rw [childOf_eq_none.mpr hbytes, Option.none_or, if_pos ⟨Utf8.decode_encode name, hi⟩,
          if_pos rfl]
      · rw [if_neg fun hc => hb (Utf8.encode_of_decode hc.1), if_neg hb, Option.or_none]

/-- What a scan sees is not ignored. -/
theorem not_ignored_of_findChild {ignore : List String} {name : String} {dir : WorkingCopy}
    {node : Node} (h : findChild ignore name dir = some node) : name ∉ ignore := by
  induction dir with
  | nil => cases h
  | cons child rest ih =>
    rw [findChild, Option.or_eq_some_iff] at h
    rcases h with h | ⟨-, h⟩
    · exact ih h
    · split_ifs at h with hc
      exact hc.2

/-- What a scan sees is there. -/
theorem mem_of_findChild {ignore : List String} {name : String} {dir : WorkingCopy} {node : Node}
    (h : findChild ignore name dir = some node) : (Utf8.encode name, node) ∈ dir := by
  induction dir with
  | nil => cases h
  | cons child rest ih =>
    rw [findChild, Option.or_eq_some_iff] at h
    rcases h with h | ⟨-, h⟩
    · exact List.mem_cons_of_mem _ (ih h)
    · split_ifs at h with hc
      rw [← Utf8.encode_of_decode hc.1, ← Option.some.inj h]
      exact List.mem_cons_self

/-! ## Recording by lookups -/

section Record

variable {H : Type} [Format H]

/-- The child can be scanned: its name is text, and it is ignored or recorded. -/
def Recordable (H : Type) [Format H] (ignore : List String) (child : Bytes × Node) : Prop :=
  ∃ name, Utf8.decode child.1 = some name ∧ (name ∈ ignore ∨
    TreeEntry.validateName name = .ok () ∧
      ∃ entry : TreeEntry H, child.2.record ignore name = some entry)

theorem exists_recordChildren {ignore : List String} {dir : WorkingCopy}
    (h : ∀ child ∈ dir, Recordable H ignore child) (tree : Tree H) :
    ∃ tree', recordChildren ignore tree dir = some tree' := by
  induction dir generalizing tree with
  | nil => exact ⟨tree, rfl⟩
  | cons child rest ih =>
    obtain ⟨bytes, node⟩ := child
    obtain ⟨name, hd, hcase⟩ := h _ List.mem_cons_self
    have hrest := ih fun c hc => h c (List.mem_cons_of_mem _ hc)
    rw [recordChildren, hd]
    dsimp only at hcase ⊢
    by_cases hi : name ∈ ignore
    · rw [if_pos hi]
      exact hrest tree
    · obtain ⟨hv, entry, hentry⟩ := hcase.resolve_left hi
      rw [if_neg hi, hentry]
      dsimp only
      rw [insert_ok hv tree entry (name_of_record hentry)]
      exact hrest _

/-- **A directory is recorded** as the sorted tree that has an entry for each of its names. -/
theorem recordTree_eq {ignore : List String} {dir : WorkingCopy} {tree : Tree H}
    (h : ∀ child ∈ dir, Recordable H ignore child) (hs : tree.Sorted)
    (hget : ∀ name, tree.get name =
      (findChild ignore name dir).bind fun node => node.record ignore name) :
    recordTree ignore dir = some tree := by
  obtain ⟨tree', htree'⟩ := exists_recordChildren h .new
  rw [recordTree, htree', Option.some.injEq]
  refine (recordChildren_sorted htree' List.Pairwise.nil).ext hs fun name => ?_
  rw [get_recordChildren htree', hget]
  cases findChild ignore name dir with
  | none => rfl
  | some node => rfl

/-- What was recorded can be. -/
theorem recordable_of_recordChildren {ignore : List String} {dir : WorkingCopy}
    {tree tree' : Tree H} (h : recordChildren ignore tree dir = some tree') :
    ∀ child ∈ dir, Recordable H ignore child := by
  induction dir generalizing tree with
  | nil => exact fun child hchild => absurd hchild List.not_mem_nil
  | cons child rest ih =>
    obtain ⟨bytes, node⟩ := child
    rw [recordChildren] at h
    cases hd : Utf8.decode bytes with
    | none =>
      rw [hd] at h
      cases h
    | some name =>
      rw [hd] at h
      dsimp only at h
      split_ifs at h with hi
      · intro child hchild
        rcases List.mem_cons.mp hchild with rfl | hchild
        · exact ⟨name, hd, Or.inl hi⟩
        · exact ih h child hchild
      · cases hr : (node.record ignore name : Option (TreeEntry H)) with
        | none =>
          rw [hr] at h
          cases h
        | some entry =>
          rw [hr] at h
          dsimp only at h
          cases hins : tree.insert entry with
          | error e =>
            rw [hins] at h
            cases h
          | ok t =>
            rw [hins] at h
            intro child hchild
            rcases List.mem_cons.mp hchild with rfl | hchild
            · refine ⟨name, hd, Or.inr ⟨?_, entry, hr⟩⟩
              rw [← name_of_record hr]
              exact validateName_of_insert hins
            · exact ih h child hchild

/-- The order of the names does not matter to a scan. -/
theorem recordTree_congr {ignore : List String} {dir dir' : WorkingCopy} {tree : Tree H}
    (hd : DistinctNames dir) (hd' : DistinctNames dir')
    (hlook : ∀ n, childOf n dir' = childOf n dir) (h : recordTree ignore dir = some tree) :
    recordTree ignore dir' = some tree := by
  refine recordTree_eq (fun child hchild => ?_) (recordChildren_sorted h List.Pairwise.nil)
    fun name => ?_
  · refine recordable_of_recordChildren h child ?_
    obtain ⟨name, node⟩ := child
    rw [hd.mem_iff, ← hlook]
    exact hd'.mem_iff.mp hchild
  · rw [get_recordChildren h, findChild_eq hd, findChild_eq hd', hlook]
    cases if name ∈ ignore then none else childOf (Utf8.encode name) dir with
    | none => rfl
    | some node => rfl

end Record

/-! ## Scanned trees on disk -/

variable {H : Type} [LinearOrder H] [Format H] {s : ObjectStore H} {opts : MaterializeOptions}

/-- What one sees of a node once its symlink target is made text. -/
def Shape.asText : Shape → Shape
  | .symlink target => .symlink (Utf8.encode (Utf8.decodeLossy target))
  | shape => shape

@[simp] theorem isExecutable_unixMode (executable : Bool) :
    (unixMode executable).isExecutable = executable := by
  cases executable <;> rfl

/-- What the entry of a scanned node describes: the node again, made text. -/
structure Redrawn (ignore : List String) (name : String) (node node' : Node) (H : Type) [Format H] :
    Prop where
  record : node'.record ignore name = (node.record ignore name : Option (TreeEntry H))
  shape : node'.shape = node.shape.asText
  below : ∀ children children', node = .dir children → node' = .dir children' → ∀ path,
    (nodeAt ignore children' path).map Node.shape =
      (nodeAt ignore children path).map fun n => n.shape.asText

/-- An entry made of a node describes that node, made text. -/
theorem redrawn_of_entryDrawn {ignore : List String} {name treePath : String} {node : Node}
    {entry : TreeEntry H} (hrec : node.record ignore name = some entry)
    (hstored : node.StoredIn s ignore) {below : H → String → WorkingCopy → Prop}
    {child : Option Node} (h : EntryDrawn s opts below treePath entry child)
    (hbelow : ∀ children children' (sub : Tree H), node = .dir children →
      recordChildren ignore .new children = some sub →
      below entry.target treePath children' →
      recordChildren ignore .new children' = some sub ∧ ∀ path,
        (nodeAt ignore children' path).map Node.shape =
          (nodeAt ignore children path).map fun n => n.shape.asText) :
    ∃ node', child = some node' ∧ Redrawn ignore name node node' H := by
  cases node with
  | file bytes executable =>
    obtain rfl := Option.some.inj hrec
    obtain ⟨blob, hblob, rfl⟩ := h
    obtain rfl := Except.ok.inj (hstored.symm.trans hblob)
    rw [isExecutable_unixMode]
    exact ⟨_, rfl, rfl, rfl, fun _ _ h => by cases h⟩
  | symlink link =>
    obtain rfl := Option.some.inj hrec
    obtain ⟨blob, target, hblob, htarget, -, rfl⟩ := h
    obtain rfl := Except.ok.inj (hstored.symm.trans hblob)
    rw [linkBlob, Utf8.decode_encode] at htarget
    obtain rfl := Option.some.inj htarget
    refine ⟨_, rfl, ?_, rfl, fun _ _ h => by cases h⟩
    rw [Node.record, Node.record, linkBlob, linkBlob, Utf8.decodeLossy_encode]
  | other kind => cases hrec
  | dir children =>
    have hdir := hrec
    rw [Node.record, Option.map_eq_some_iff] at hdir
    obtain ⟨sub, hsub, rfl⟩ := hdir
    obtain ⟨children', hbelow', rfl⟩ := h
    obtain ⟨hsub', hpaths⟩ := hbelow children children' sub rfl hsub hbelow'
    refine ⟨_, rfl, ?_, rfl, ?_⟩
    · rw [Node.record, Node.record, hsub, hsub']
    · rintro _ _ ⟨⟩ ⟨⟩
      exact hpaths

omit [LinearOrder H] in
/-- The entries of a recorded directory come from its children. -/
theorem child_of_mem {ignore : List String} {copy : WorkingCopy} {tree : Tree H}
    (htree : recordTree ignore copy = some tree) {e : TreeEntry H} (he : e ∈ tree.entries) :
    ∃ node, findChild ignore e.name copy = some node ∧ node.record ignore e.name = some e := by
  have hsorted := recordChildren_sorted htree List.Pairwise.nil
  have hget := get_recordChildren htree e.name
  rw [Tree.get, (findEntry_eq_some hsorted).mpr ⟨he, rfl⟩] at hget
  cases hf : findChild ignore e.name copy with
  | none =>
    rw [hf] at hget
    cases hget
  | some node =>
    rw [hf] at hget
    exact ⟨node, rfl, hget.symm⟩

/-- **What a scanned tree describes** is scanned to that tree, and a scan sees the same in it as
before, made text.

**Proof sketch.** Induction on the depth. Each entry of the tree was made of a child of the scanned
directory, so what it describes is that child again; there are no other names, so the directory is
recorded as a tree with the same entries. -/
theorem Depicts.rescan {ignore : List String} {depth : Nat} {copy dir : WorkingCopy}
    {tree : Tree H} {root : H} {pathPrefix : String} (htree : recordTree ignore copy = some tree)
    (hs : ChildrenStoredIn s ignore copy) (hroot : s.load root = .ok tree)
    (h : Depicts s opts depth root pathPrefix dir) :
    recordTree ignore dir = some tree ∧ ∀ path, (nodeAt ignore dir path).map Node.shape =
      (nodeAt ignore copy path).map fun n => n.shape.asText := by
  induction depth generalizing copy dir tree root pathPrefix with
  | zero => exact h.elim
  | succ depth ih =>
    obtain ⟨t, ht, hdistinct, hdrawn, honly⟩ := h
    obtain rfl : tree = t := Except.ok.inj (hroot.symm.trans ht)
    have hsorted := recordChildren_sorted htree List.Pairwise.nil
    -- what the scan sees under a name
    have hname : ∀ name, match findChild ignore name copy with
        | none => findChild ignore name dir = none
        | some node => ∃ node', findChild ignore name dir = some node' ∧
            Redrawn ignore name node node' H := by
      intro name
      have hget := get_recordChildren htree name
      cases hf : findChild ignore name copy with
      | none =>
        rw [hf] at hget
        rw [findChild_eq hdistinct]
        split_ifs
        · rfl
        · by_contra hnone
          obtain ⟨e, he, hne⟩ := honly _ hnone
          have hfound := (findEntry_eq_some hsorted).mpr ⟨he, rfl⟩
          rw [← Utf8.encode_injective hne, ← Tree.get, hget] at hfound
          cases hfound
      | some node =>
        rw [hf] at hget
        obtain ⟨entry, hentry⟩ := recorded_of_findChild htree hf
        dsimp only at hget ⊢
        rw [hentry] at hget
        have hmem := mem_of_findEntry hget
        have hen := name_of_findEntry hget
        have hd := hdrawn entry hmem
        rw [findChild_eq hdistinct, if_neg (not_ignored_of_findChild hf)]
        rw [hen] at hd
        refine redrawn_of_entryDrawn hentry (storedIn_of_findChild hs hf) hd
          fun children children' sub hdir hsub hb => ?_
        subst hdir
        have hstored := storedIn_of_findChild hs hf
        rw [Node.record, hsub] at hentry
        obtain rfl := Option.some.inj hentry
        exact ih hsub hstored.1 (hstored.2 sub hsub) hb
    constructor
    · refine recordTree_eq (fun child hchild => ?_) hsorted fun name => ?_
      · obtain ⟨bytes, node⟩ := child
        have hchild' := hdistinct.mem_iff.mp hchild
        obtain ⟨e, he, rfl⟩ := honly bytes (by rw [hchild']; exact Option.some_ne_none node)
        obtain ⟨old, hf, hrec⟩ := child_of_mem htree he
        have hn := hname e.name
        rw [hf] at hn
        obtain ⟨node', hnode', hre⟩ := hn
        rw [findChild_eq hdistinct, if_neg (not_ignored_of_findChild hf), hchild'] at hnode'
        obtain rfl := Option.some.inj hnode'
        exact ⟨e.name, Utf8.decode_encode _, Or.inr ⟨recordChildren_valid htree hf, e,
          hre.record.trans hrec⟩⟩
      · have hn := hname name
        rw [get_recordChildren htree]
        cases hf : findChild ignore name copy with
        | none =>
          rw [hf] at hn
          rw [hn]
          rfl
        | some node =>
          rw [hf] at hn
          obtain ⟨node', hnode', hre⟩ := hn
          rw [hnode']
          exact hre.record.symm
    · intro path
      match path with
      | [] => rfl
      | [name] =>
        have hn := hname name
        rw [nodeAt, nodeAt]
        cases hf : findChild ignore name copy with
        | none =>
          rw [hf] at hn
          rw [hn]
          rfl
        | some node =>
          rw [hf] at hn
          obtain ⟨node', hnode', hre⟩ := hn
          rw [hnode']
          exact congrArg some hre.shape
      | name :: next :: rest =>
        have hn := hname name
        rw [nodeAt, nodeAt]
        cases hf : findChild ignore name copy with
        | none =>
          rw [hf] at hn
          rw [hn]
          rfl
        | some node =>
          rw [hf] at hn
          obtain ⟨node', hnode', hre⟩ := hn
          rw [hnode']
          have hshape := hre.shape
          cases node <;> cases node' <;> simp only [Node.shape, Shape.asText, reduceCtorEq] at hshape
          case dir children children' => exact hre.below children children' rfl rfl (next :: rest)
          all_goals rfl

/-! ## Which scanned trees describe a directory -/

/-- The directories of a whole tree are sorted. -/
theorem Whole.sortedBelow {root : H} (h : Whole s root) : SortedBelow s root := by
  intro tree hsub t ht
  induction hsub using Relation.ReflTransGen.head_induction_on with
  | refl =>
    obtain ⟨_, t', hload, hsorted, -⟩ := h
    obtain rfl := Except.ok.inj (hload.symm.trans ht)
    exact hsorted
  | head hstep _ ih =>
    obtain ⟨t', ht', e, he, hk, rfl⟩ := hstep
    obtain ⟨_, t'', hload, -, hdirs⟩ := h
    obtain rfl := Except.ok.inj (hload.symm.trans ht')
    exact ih (hdirs e he hk)

/-- Every symlink that a scan sees has a target that one can make a link to, once it is text. -/
def Linkable (ignore : List String) (copy : WorkingCopy) : Prop :=
  ∀ path target, nodeAt ignore copy path = some (.symlink target) →
    linkFault (Utf8.decodeLossy target) = none

/-- The same for what lies under one name. -/
def Node.Linkable (ignore : List String) (node : Node) : Prop :=
  (∀ target, node = .symlink target → linkFault (Utf8.decodeLossy target) = none) ∧
    ∀ children, node = .dir children → Tig.Linkable ignore children

theorem linkable_iff {ignore : List String} {copy : WorkingCopy} :
    Linkable ignore copy ↔
      ∀ name node, findChild ignore name copy = some node → node.Linkable ignore := by
  constructor
  · intro h name node hf
    refine ⟨?_, ?_⟩
    · rintro target rfl
      exact h [name] target hf
    · rintro children rfl path target hpath
      cases path with
      | nil => cases hpath
      | cons next rest =>
        apply h (name :: next :: rest) target
        rw [nodeAt, hf]
        exact hpath
  · intro h path target hpath
    rcases path with _ | ⟨name, _ | ⟨next, rest⟩⟩
    · cases hpath
    · exact (h name _ hpath).1 target rfl
    · rw [nodeAt] at hpath
      cases hf : findChild ignore name copy with
      | none =>
        rw [hf] at hpath
        cases hpath
      | some node =>
        rw [hf] at hpath
        cases node with
        | dir children => exact (h name _ hf).2 children rfl _ target hpath
        | file bytes executable => cases hpath
        | symlink link => cases hpath
        | other kind => cases hpath

/-- The entry made of a node describes something when the links in it can be made. -/
theorem exists_entryDrawn_iff {ignore : List String} {name treePath : String} {node : Node}
    {entry : TreeEntry H} (hrec : node.record ignore name = some entry)
    (hstored : node.StoredIn s ignore) {below : H → String → WorkingCopy → Prop}
    (hbelow : ∀ children (sub : Tree H), node = .dir children →
      recordChildren ignore .new children = some sub →
      ((∃ dir, below entry.target treePath dir) ↔ Linkable ignore children)) :
    (∃ child, EntryDrawn s opts below treePath entry child) ↔ node.Linkable ignore := by
  cases node with
  | file bytes executable =>
    obtain rfl := Option.some.inj hrec
    refine ⟨fun _ => ⟨fun _ h => ?_, fun _ h => ?_⟩, fun _ => ⟨_, _, hstored, rfl⟩⟩
    · cases h
    · cases h
  | symlink link =>
    obtain rfl := Option.some.inj hrec
    have htext : Utf8.decode (linkBlob link).bytes = some (Utf8.decodeLossy link) :=
      Utf8.decode_encode _
    constructor
    · rintro ⟨_, blob, target, hblob, htarget, hfault, -⟩
      obtain rfl := Except.ok.inj (hstored.symm.trans hblob)
      obtain rfl := Option.some.inj (htext.symm.trans htarget)
      refine ⟨?_, fun _ h => by cases h⟩
      rintro _ ⟨⟩
      exact hfault
    · rintro ⟨hfault, -⟩
      exact ⟨_, _, _, hstored, htext, hfault link rfl, rfl⟩
  | other kind => cases hrec
  | dir children =>
    rw [Node.record, Option.map_eq_some_iff] at hrec
    obtain ⟨sub, hsub, rfl⟩ := hrec
    have hiff := hbelow children sub rfl hsub
    constructor
    · rintro ⟨_, dir, hdir, -⟩
      refine ⟨fun _ h => (by cases h), ?_⟩
      rintro _ ⟨⟩
      exact hiff.mp ⟨dir, hdir⟩
    · rintro ⟨-, hlinks⟩
      obtain ⟨dir, hdir⟩ := hiff.mpr (hlinks children rfl)
      exact ⟨_, dir, hdir, rfl⟩

/-- **A scanned tree describes a directory** exactly when the links in it can be made. -/
theorem exists_depicts_iff {ignore : List String} {depth : Nat} {copy : WorkingCopy}
    {tree : Tree H} {root : H} {pathPrefix : String} (htree : recordTree ignore copy = some tree)
    (hs : ChildrenStoredIn s ignore copy) (hroot : s.load root = .ok tree)
    (hsorted : SortedBelow s root) (hfits : Fits s depth root) :
    (∃ dir, Depicts s opts depth root pathPrefix dir) ↔ Linkable ignore copy := by
  induction depth generalizing copy tree root pathPrefix with
  | zero => exact hfits.elim
  | succ depth ih =>
    obtain ⟨t, ht, hdirs⟩ := hfits
    obtain rfl : tree = t := Except.ok.inj (hroot.symm.trans ht)
    have hentry : ∀ e ∈ tree.entries, ∀ node, findChild ignore e.name copy = some node →
        node.record ignore e.name = some e → ∀ treePath,
        ((∃ child, EntryDrawn s opts (Depicts s opts depth) treePath e child) ↔
          node.Linkable ignore) := by
      intro e he node hf hrec treePath
      have hstored := storedIn_of_findChild hs hf
      refine exists_entryDrawn_iff hrec hstored fun children sub hdir hsub => ?_
      subst hdir
      rw [Node.record, hsub] at hrec
      have heq := Option.some.inj hrec
      have hk : e.kind = .tree := (congrArg TreeEntry.kind heq).symm
      have htarget : e.target = (encode H sub).hash H := (congrArg TreeEntry.target heq).symm
      refine ih hsub hstored.1 ?_ (hsorted.subdir hroot he hk) (hdirs e he hk)
      rw [htarget]
      exact hstored.2 sub hsub
    rw [linkable_iff]
    constructor
    · rintro ⟨dir, t', ht', -, hdrawn, -⟩ name node hf
      obtain rfl : tree = t' := Except.ok.inj (hroot.symm.trans ht')
      obtain ⟨e, hrec⟩ := recorded_of_findChild htree hf
      have hget := get_recordChildren htree name
      rw [hf] at hget
      have hfound : tree.get name = some e := hget.trans hrec
      have hmem := mem_of_findEntry hfound
      obtain rfl := name_of_findEntry hfound
      exact (hentry e hmem node hf hrec _).mp ⟨_, hdrawn e hmem⟩
    · intro hlinks
      refine exists_depicts hroot hsorted pathPrefix fun e he => ?_
      obtain ⟨node, hf, hrec⟩ := child_of_mem htree he
      exact (hentry e he node hf hrec _).mpr (hlinks e.name node hf)

end Tig
