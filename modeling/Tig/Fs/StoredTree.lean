import Tig.Fs.PathMap

set_option relaxedAutoImplicit false
set_option autoImplicit false

/-!
# Stored trees

A tree that can be walked to its files: its directories and files are stored, and its names can
stand in a path. The trees that scans make are like that.

## Main definitions

* `Tig.WellStored` — a tree is stored with its directories and files.
* `Tig.Fits` — how deep its directories are nested.

## Main results

* `Tig.wellStored_recordTree` — the tree that a scan makes is stored.
-/

namespace Tig

variable {H : Type} [LinearOrder H] [Format H] {s : ObjectStore H}

/-! ## Trees that are stored as a whole -/

/-- The tree is stored with all its directories and files, and its names can stand in a path. -/
structure WellStored (s : ObjectStore H) (tree : H) : Prop where
  whole : Whole s tree
  names : ∀ path e, entryAt s tree path = some e → TreeEntry.validateName e.name = .ok ()
  files : ∀ path e, entryAt s tree path = some e → e.kind = .file →
    ∃ blob : Blob, s.load e.target = .ok blob

/-- The directories of the tree are nested less than `depth` deep. -/
def Fits (s : ObjectStore H) : (depth : Nat) → H → Prop
  | 0, _ => False
  | depth + 1, tree => ∃ t : Tree H, s.load tree = .ok t ∧
      ∀ e ∈ t.entries, e.kind = .tree → Fits s depth e.target

theorem Fits.mono {depth depth' : Nat} (hle : depth ≤ depth') {tree : H} (h : Fits s depth tree) :
    Fits s depth' tree := by
  induction depth generalizing depth' tree with
  | zero => exact h.elim
  | succ depth ih =>
    obtain ⟨t, hload, hdirs⟩ := h
    obtain ⟨d, rfl⟩ : ∃ d, depth' = d + 1 := ⟨depth' - 1, by omega⟩
    exact ⟨t, hload, fun e he hk => ih (by omega) (hdirs e he hk)⟩

theorem Fits.le {s' : ObjectStore H} (hle : s.Le s') {depth : Nat} {tree : H} (h : Fits s depth tree) :
    Fits s' depth tree := by
  induction depth generalizing tree with
  | zero => exact h.elim
  | succ depth ih =>
    obtain ⟨t, hload, hdirs⟩ := h
    exact ⟨t, hle.load hload, fun e he hk => ih (hdirs e he hk)⟩

/-- A whole tree is nested to some depth. -/
theorem Whole.fits {tree : H} (h : Whole s tree) : ∃ depth, Fits s depth tree := by
  induction h with
  | mk tree t hload _ _ ih =>
    have hall : ∃ depth, ∀ e ∈ t.entries, e.kind = .tree → Fits s depth e.target := by
      clear hload
      generalize t.entries = entries at ih
      induction entries with
      | nil => exact ⟨0, fun e he => absurd he List.not_mem_nil⟩
      | cons a entries ihl =>
        obtain ⟨d, hd⟩ := ihl fun e he => ih e (List.mem_cons_of_mem _ he)
        by_cases hk : a.kind = .tree
        · obtain ⟨d', hd'⟩ := ih a List.mem_cons_self hk
          refine ⟨max d d', fun e he hek => ?_⟩
          rcases List.mem_cons.mp he with rfl | he
          · exact hd'.mono (le_max_right d d')
          · exact (hd e he hek).mono (le_max_left d d')
        · refine ⟨d, fun e he hek => ?_⟩
          rcases List.mem_cons.mp he with rfl | he
          · exact absurd hek hk
          · exact hd e he hek
    obtain ⟨depth, hdepth⟩ := hall
    exact ⟨depth + 1, t, hload, hdepth⟩

theorem WellStored.mono {s' : ObjectStore H} (hle : s.Le s') {tree : H} (h : WellStored s tree) :
    WellStored s' tree where
  whole := h.whole.mono hle
  names path e he := h.names path e (h.whole.entryAt_eq hle path ▸ he)
  files path e he hk :=
    (h.files path e (h.whole.entryAt_eq hle path ▸ he) hk).imp fun _ hblob => hle.load hblob

/-- A directory of a stored tree is stored. -/
theorem WellStored.subdir {tree : H} (h : WellStored s tree) {t : Tree H}
    (ht : s.load tree = .ok t) {e : TreeEntry H} {name : String} (he : t.get name = some e)
    (hk : e.kind = .tree) : WellStored s e.target := by
  obtain ⟨hwhole, hnames, hfiles⟩ := h
  obtain ⟨_, t', hload, -, hdirs⟩ := hwhole
  obtain rfl : t' = t := Except.ok.inj (hload.symm.trans ht)
  have hbelow : ∀ path e', entryAt s e.target path = some e' →
      entryAt s tree (name :: path) = some e' := by
    intro path e' he'
    have hne : path ≠ [] := by
      rintro rfl
      cases he'
    rw [entryAt_cons ht, he, Option.bind_some, if_neg hne, if_pos hk]
    exact he'
  exact
    { whole := hdirs e (mem_of_findEntry he) hk
      names := fun path e' he' => hnames _ e' (hbelow path e' he')
      files := fun path e' he' => hfiles _ e' (hbelow path e' he') }

/-- Every component of a path at which a tree has something can stand in a path. -/
theorem WellStored.valid {tree : H} (h : WellStored s tree) {path : List String} {e : TreeEntry H}
    (he : entryAt s tree path = some e) :
    path ≠ [] ∧ ∀ name ∈ path, TreeEntry.validateName name = .ok () := by
  induction path generalizing tree with
  | nil => cases he
  | cons name rest ih =>
    obtain ⟨_, t, ht, -, -⟩ := h.whole
    have hcons := he
    rw [entryAt_cons ht, Option.bind_eq_some_iff] at hcons
    obtain ⟨e', he', hrest⟩ := hcons
    have hname : TreeEntry.validateName name = .ok () := by
      have hhead : entryAt s tree [name] = some e' := by
        rw [entryAt_cons ht, he', Option.bind_some, if_pos rfl]
      rw [← name_of_findEntry he']
      exact h.names [name] e' hhead
    refine ⟨List.cons_ne_nil _ _, fun n hn => ?_⟩
    rcases List.mem_cons.mp hn with rfl | hn
    · exact hname
    · split_ifs at hrest with hnil hk
      · subst hnil
        cases hn
      · exact (ih (h.subdir ht he' hk) hrest).2 n hn

/-! ## Scanned trees -/

omit [LinearOrder H] in
/-- What is recorded is sorted, and its names can stand in a path. -/
theorem recordChildren_sorted {ignore : List String} {children : WorkingCopy}
    {tree tree' : Tree H} (h : recordChildren ignore tree children = some tree')
    (hs : tree.Sorted) : tree'.Sorted := by
  induction children generalizing tree with
  | nil => exact Option.some.inj h ▸ hs
  | cons child rest ih =>
    obtain ⟨name, hd, ⟨-, h⟩ | ⟨-, entry, tree₁, -, hins, h⟩⟩ := recordChildren_cons h
    · exact ih h hs
    · exact ih h (hs.insert hins)

omit [LinearOrder H] in
theorem recordChildren_valid {ignore : List String} {children : WorkingCopy}
    {tree tree' : Tree H} (h : recordChildren ignore tree children = some tree') {name : String}
    {node : Node} (hf : findChild ignore name children = some node) :
    TreeEntry.validateName name = .ok () := by
  induction children generalizing tree with
  | nil => cases hf
  | cons child rest ih =>
    obtain ⟨bytes, node'⟩ := child
    rw [findChild] at hf
    obtain ⟨name', hd, ⟨hi, h⟩ | ⟨-, entry, tree₁, hentry, hins, h⟩⟩ := recordChildren_cons h
    · rcases Option.or_eq_some_iff.mp hf with hf | ⟨-, hf⟩
      · exact ih h hf
      · split_ifs at hf with hc
        rw [hd] at hc
        obtain rfl := Option.some.inj hc.1
        exact absurd hi hc.2
    · rcases Option.or_eq_some_iff.mp hf with hf | ⟨-, hf⟩
      · exact ih h hf
      · split_ifs at hf with hc
        rw [hd] at hc
        obtain rfl := Option.some.inj hc.1
        rw [Tree.insert, name_of_record hentry] at hins
        cases hv : TreeEntry.validateName name' with
        | ok u => rfl
        | error e =>
          rw [hv] at hins
          cases hins

mutual

/-- A directory that is recorded is stored as a whole. -/
theorem Node.StoredIn.whole {ignore : List String} : (node : Node) → node.StoredIn s ignore →
    ∀ (name : String) (entry : TreeEntry H), node.record ignore name = some entry →
      entry.kind = .tree → Whole s entry.target
  | .file _ _, _, _, _, hrec, hk => by
    obtain rfl := Option.some.inj hrec
    cases hk
  | .symlink _, _, _, _, hrec, hk => by
    obtain rfl := Option.some.inj hrec
    cases hk
  | .other _, _, _, _, hrec, _ => by cases hrec
  | .dir children, hs, name, entry, hrec, _ => by
    rw [Node.record, Option.map_eq_some_iff] at hrec
    obtain ⟨tree, htree, rfl⟩ := hrec
    have hsorted := recordChildren_sorted htree List.Pairwise.nil
    refine .mk _ tree (hs.2 tree htree) hsorted fun e he hk => ?_
    have hget := get_recordChildren htree e.name
    rw [Tree.get, (findEntry_eq_some hsorted).mpr ⟨he, rfl⟩] at hget
    cases hf : findChild ignore e.name children with
    | none =>
      rw [hf] at hget
      cases hget
    | some node =>
      rw [hf] at hget
      exact ChildrenStoredIn.whole children hs.1 e.name node hf e hget.symm hk

theorem ChildrenStoredIn.whole {ignore : List String} : (children : List (Bytes × Node)) →
    ChildrenStoredIn s ignore children →
    ∀ (name : String) (node : Node), findChild ignore name children = some node →
      ∀ entry : TreeEntry H, node.record ignore name = some entry → entry.kind = .tree →
        Whole s entry.target
  | [], _, _, _, hf => by cases hf
  | (bytes, node) :: rest, hs, name, node', hf => by
    rw [findChild] at hf
    rcases Option.or_eq_some_iff.mp hf with hf | ⟨-, hf⟩
    · exact ChildrenStoredIn.whole rest hs.2 name node' hf
    · split_ifs at hf with hc
      obtain rfl := Option.some.inj hf
      exact Node.StoredIn.whole node (hs.1 name hc.1 hc.2) name

end

/-- What a scan sees at a path has a valid name and is stored. -/
theorem nodeAt_stored {ignore : List String} {copy : WorkingCopy} {tree : Tree H}
    (htree : recordTree ignore copy = some tree) (hs : ChildrenStoredIn s ignore copy)
    {path : List String} {node : Node} (hnode : nodeAt ignore copy path = some node) :
    TreeEntry.validateName (path.getLastD "") = .ok () ∧ node.StoredIn s ignore := by
  induction path generalizing copy tree with
  | nil =>
    rw [nodeAt] at hnode
    cases hnode
  | cons name rest ih =>
    cases rest with
    | nil =>
      rw [nodeAt] at hnode
      exact ⟨recordChildren_valid htree hnode, storedIn_of_findChild hs hnode⟩
    | cons next rest =>
      rw [nodeAt] at hnode
      cases hf : findChild ignore name copy with
      | none =>
        rw [hf] at hnode
        cases hnode
      | some child =>
        rw [hf] at hnode
        cases child with
        | dir children =>
          obtain ⟨entry, hentry⟩ := recorded_of_findChild htree hf
          rw [Node.record, Option.map_eq_some_iff] at hentry
          obtain ⟨sub, hsub, -⟩ := hentry
          exact ih hsub (storedIn_of_findChild hs hf).1 hnode
        | file bytes executable => cases hnode
        | symlink link => cases hnode
        | other kind => cases hnode

/-- **The tree that a scan makes** is stored. -/
theorem wellStored_recordTree {ignore : List String} {copy : WorkingCopy} {tree : Tree H}
    (htree : recordTree ignore copy = some tree) (hs : CopyStoredIn s ignore copy) :
    WellStored s ((encode H tree).hash H) := by
  have hrec : (Node.dir copy).record ignore "" =
      some ⟨"", .tree, (encode H tree).hash H, .DIR, none⟩ := by
    rw [Node.record, show recordChildren ignore .new copy = some tree from htree]
    rfl
  refine ⟨Node.StoredIn.whole (.dir copy) hs "" _ hrec rfl, fun path e he => ?_, fun path e he hk => ?_⟩
  · rw [entryAt_recordTree htree hs, Option.bind_eq_some_iff] at he
    obtain ⟨node, hnode, hentry⟩ := he
    rw [name_of_record hentry]
    exact (nodeAt_stored htree hs.1 hnode).1
  · rw [entryAt_recordTree htree hs, Option.bind_eq_some_iff] at he
    obtain ⟨node, hnode, hentry⟩ := he
    have hstored := (nodeAt_stored htree hs.1 hnode).2
    cases node with
    | file bytes executable =>
      obtain rfl := Option.some.inj hentry
      exact ⟨_, hstored⟩
    | symlink link =>
      obtain rfl := Option.some.inj hentry
      cases hk
    | other kind => cases hentry
    | dir children =>
      rw [Node.record, Option.map_eq_some_iff] at hentry
      obtain ⟨_, -, rfl⟩ := hentry
      cases hk

end Tig
