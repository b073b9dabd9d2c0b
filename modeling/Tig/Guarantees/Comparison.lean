import Tig.Cli.Commands
import Tig.Core.Plain
import Tig.Fs.LeafMap
import Tig.Lib.Relational
import Tig.System.Run

set_option relaxedAutoImplicit false
set_option autoImplicit false

/-!
# What a comparison shows

A tree stands for the map from its paths to the files, links and other leaves there. A comparison
is empty exactly when the two maps are the same, so modes and empty directories do not show in it.
From one map it leads to the other unless a directory has given way to something else, or the other
way round: then only the path itself is reported, and not the leaves below it.

## Main definitions

* `Tig.leafMap` — the leaves of a tree, by path.
* `Tig.applyDiff` — what a comparison makes of a map of leaves.
* `Tig.CompleteOnLeaves` — every leaf that changed is reported, and the comparison leads from the
  one map to the other.
* `Tig.NothingBuried` — no leaf of one tree is above a leaf of the other.

## Main results

* `Tig.diffTrees_complete_iff` — when a comparison is complete on leaves.
* `Tig.diffTrees_misses` — one that is not.
* `Tig.cmdDiff_empty_iff` — when `tig diff` finds nothing, and when `tig snap` does.
-/

namespace Tig

open Program

variable {H : Type} [LinearOrder H] [Format H]

/-! ## Paths as text -/

/-- The components of a path. -/
def pathOf (path : String) : List String := (path.toList.splitOn '/').map String.ofList

/-- A component of a path is not empty and has no slash in it. -/
theorem component_of_valid {name : String} (h : TreeEntry.validateName name = .ok ()) :
    name ≠ "" ∧ '/' ∉ name.toList := by
  unfold TreeEntry.validateName at h
  split_ifs at h with hbad
  simp only [not_or] at hbad
  exact ⟨hbad.1, hbad.2.2.2.1⟩

/-- A path is its components with slashes between them. -/
theorem toList_joinPath {first : String} (hne : first ≠ "") (rest : List String) :
    (joinPath first rest).toList = ['/'].intercalate ((first :: rest).map String.toList) := by
  induction rest generalizing first with
  | nil => simp [joinPath]
  | cons name rest ih =>
    have hnext : entryPath first name = first ++ "/" ++ name := by rw [entryPath, if_neg hne]
    have hne' : first ++ "/" ++ name ≠ "" := by
      intro h
      have := congrArg String.toList h
      simp at this
    rw [joinPath, List.foldl_cons, hnext, ← joinPath, ih hne']
    cases rest <;> simp [List.intercalate_cons_cons, List.intercalate_singleton]

/-- The components of a path that was put together. -/
theorem pathOf_joinPath {path : List String} (hne : path ≠ [])
    (hvalid : ∀ name ∈ path, TreeEntry.validateName name = .ok ()) :
    pathOf (joinPath "" path) = path := by
  cases path with
  | nil => exact absurd rfl hne
  | cons first rest =>
    have hfirst := (component_of_valid (hvalid first List.mem_cons_self)).1
    have hjoin : joinPath "" (first :: rest) = joinPath first rest := by
      rw [joinPath, List.foldl_cons, entryPath, if_pos rfl, joinPath]
    rw [hjoin, pathOf, toList_joinPath hfirst, List.splitOn_intercalate]
    · simp [Function.comp_def]
    · intro l hl
      obtain ⟨name, hname, rfl⟩ := List.mem_map.mp hl
      exact (component_of_valid (hvalid name hname)).2
    · simp

/-- Putting the components of a path together again. -/
theorem joinPath_pathOf {path : String}
    (hvalid : ∀ name ∈ pathOf path, TreeEntry.validateName name = .ok ()) :
    joinPath "" (pathOf path) = path := by
  have hne : pathOf path ≠ [] := by simp [pathOf]
  cases hp : pathOf path with
  | nil => exact absurd hp hne
  | cons first rest =>
    rw [hp] at hvalid
    have hfirst := (component_of_valid (hvalid first List.mem_cons_self)).1
    have hjoin : joinPath "" (first :: rest) = joinPath first rest := by
      rw [joinPath, List.foldl_cons, entryPath, if_pos rfl, joinPath]
    rw [hjoin]
    apply String.toList_injective
    rw [toList_joinPath hfirst, ← hp, pathOf, List.map_map]
    have hid : String.toList ∘ String.ofList = id := by
      funext l
      simp
    rw [hid, List.map_id, List.intercalate_splitOn]

/-! ## Leaves -/

/-- What an entry that is no directory is of. -/
def leafOf (entry : Option (TreeEntry H)) : Option (EntryKind × H) :=
  entry.bind fun e => if e.kind = .tree then none else some (e.kind, e.target)

/-- The entry of a tree at a path. -/
def entryMap (s : ObjectStore H) (tree : H) (path : String) : Option (TreeEntry H) :=
  entryAt s tree (pathOf path)

/-- The leaves of a tree, by path: their kinds and targets. -/
def leafMap (s : ObjectStore H) (tree : H) (path : String) : Option (EntryKind × H) :=
  leafOf (entryMap s tree path)

/-- What a reported difference leaves at its path. -/
def FileDiff.leafAfter (d : FileDiff H) : Option (EntryKind × H) :=
  d.toTarget.bind fun target => if d.entryKind = .tree then none else some (d.entryKind, target)

/-- What a comparison makes of a map of leaves. -/
def applyDiff (m : String → Option (EntryKind × H)) (diffs : List (FileDiff H)) :
    String → Option (EntryKind × H) :=
  diffs.foldl (fun m d => Function.update m d.path d.leafAfter) m

/-- Every path at which the leaves of two trees differ is reported, as what happened to the entries
there, and the comparison leads from the leaves of the one tree to those of the other. -/
structure CompleteOnLeaves (s : ObjectStore H) (a b : H) (diffs : List (FileDiff H)) : Prop where
  reported : ∀ path, leafMap s a path ≠ leafMap s b path →
    ∃ d ∈ diffs, DiffAt d path (entryMap s a path) (entryMap s b path)
  replays : applyDiff (leafMap s a) diffs = leafMap s b

/-- No leaf of one tree is above a leaf of the other. -/
def NothingBuried (s : ObjectStore H) (a b : H) : Prop :=
  ∀ path rest, rest ≠ [] →
    (leafOf (entryAt s a path) ≠ none → leafOf (entryAt s b (path ++ rest)) = none) ∧
      (leafOf (entryAt s b path) ≠ none → leafOf (entryAt s a (path ++ rest)) = none)

omit [LinearOrder H] [Format H] in
/-- A comparison leaves at a path what its differences there do, and other paths alone. -/
theorem applyDiff_apply (m : String → Option (EntryKind × H)) {diffs : List (FileDiff H)}
    {path : String} {leaf : Option (EntryKind × H)}
    (hd : ∀ d ∈ diffs, d.path = path → d.leafAfter = leaf)
    (hm : (∀ d ∈ diffs, d.path ≠ path) → m path = leaf) : applyDiff m diffs path = leaf := by
  induction diffs generalizing m with
  | nil => exact hm fun d hd => absurd hd List.not_mem_nil
  | cons a diffs ih =>
    obtain ⟨ha, hd⟩ := List.forall_mem_cons.mp hd
    refine ih (Function.update m a.path a.leafAfter) hd fun hnone => ?_
    by_cases hpath : path = a.path
    · subst hpath
      rw [Function.update_self]
      exact ha rfl
    · rw [Function.update_of_ne hpath]
      exact hm (List.forall_mem_cons.mpr ⟨Ne.symm hpath, hnone⟩)

variable {s : ObjectStore H} {a b : H}

omit [Format H] in
/-- A difference leaves the leaf that the later entry is. -/
theorem DiffAt.leafAfter {d : FileDiff H} {path : String} {before after : Option (TreeEntry H)}
    (h : DiffAt d path before after) : d.leafAfter = leafOf after := by
  rw [FileDiff.leafAfter, h.toTarget, h.entryKind, leafOf]
  cases after with
  | none => rfl
  | some e => rfl

omit [Format H] in
/-- What is reported of a path is that the leaves there differ. -/
theorem changedAt_ne_none {before after : Option (TreeEntry H)} :
    changedAt before after ≠ none ↔ leafOf before ≠ leafOf after := by
  rcases before with _ | f <;> rcases after with _ | t
  · simp [changedAt]
  · by_cases hk : t.kind = .tree <;> simp [changedAt, leafOf, hk]
  · by_cases hk : f.kind = .tree <;> simp [changedAt, leafOf, hk]
  · simp only [changedAt, leafOf, Option.bind_some]
    by_cases hkind : f.kind = t.kind
    · by_cases hk : t.kind = .tree <;> simp [hkind, hk]
    · by_cases hf : f.kind = .tree
      · have ht : t.kind ≠ .tree := fun h => hkind (hf.trans h.symm)
        simp [hf, ht, Ne.symm ht]
      · by_cases ht : t.kind = .tree <;> simp [hkind, hf, ht]

/-- Above an entry are directories. -/
theorem openTo_of_entryAt {tree : H} {path : List String} {e : TreeEntry H}
    (he : entryAt s tree path = some e) : OpenTo (entryAt s tree) path := by
  induction path generalizing tree with
  | nil => cases he
  | cons name rest ih =>
    by_cases hrest : rest = []
    · subst hrest
      exact openTo_singleton _ rfl name
    · cases ht : (s.load tree : Except Error (Tree H)) with
      | error err =>
        rw [entryAt, ht] at he
        cases he
      | ok t =>
        have hbelow := entryAt_cons ht name
        rw [hbelow, Option.bind_eq_some_iff] at he
        obtain ⟨e', he', hdown⟩ := he
        rw [if_neg hrest] at hdown
        split_ifs at hdown with hk
        have hone : entryAt s tree [name] = some e' := by rw [hbelow, he', Option.bind_some, if_pos rfl]
        refine (openTo_cons rfl hrest).mpr ⟨fun e₁ he₁ => ?_, fun above hnil hpre hne e₁ he₁ => ?_⟩
        · rw [hone] at he₁
          exact Option.some.inj he₁ ▸ hk
        · rw [hbelow, he', Option.bind_some, if_neg hnil, if_pos hk] at he₁
          exact ih hdown above hpre hne e₁ he₁

omit [LinearOrder H] [Format H] in
/-- A leaf is an entry. -/
theorem exists_of_leafOf {entry : Option (TreeEntry H)} (h : leafOf entry ≠ none) :
    ∃ e, entry = some e ∧ e.kind ≠ .tree := by
  cases entry with
  | none => exact absurd rfl h
  | some e =>
    refine ⟨e, rfl, fun hk => h ?_⟩
    rw [leafOf, Option.bind_some, if_pos hk]

omit [LinearOrder H] [Format H] in
/-- Nothing is below a leaf. -/
theorem not_openTo_of_leafOf {m : List String → Option (TreeEntry H)} {path rest : List String}
    (h : leafOf (m path) ≠ none) (hrest : rest ≠ []) : ¬ OpenTo m (path ++ rest) := by
  intro ho
  obtain ⟨e, he, hk⟩ := exists_of_leafOf h
  exact hk (ho path (List.prefix_append path rest) (by simpa using hrest) e he)

omit [LinearOrder H] [Format H] in
/-- What keeps the walk from a path is a leaf above it. -/
theorem leafOf_of_not_openTo {m : List String → Option (TreeEntry H)} {path : List String}
    (h : ¬ OpenTo m path) : ∃ above rest, path = above ++ rest ∧ rest ≠ [] ∧
      leafOf (m above) ≠ none := by
  unfold OpenTo at h
  push Not at h
  obtain ⟨above, ⟨rest, rfl⟩, hne, e, he, hk⟩ := h
  refine ⟨above, rest, rfl, by simpa using hne.symm, ?_⟩
  rw [he, leafOf, Option.bind_some, if_neg hk]
  exact Option.some_ne_none _

/-! ## When a comparison is complete -/

/-- Where leaves differ, the walk gets there on both sides or is kept from it by a leaf of one tree
that is above a leaf of the other. -/
theorem openTo_or_buried {path : List String}
    (hne : leafOf (entryAt s a path) ≠ leafOf (entryAt s b path)) :
    (OpenTo (entryAt s a) path ∧ OpenTo (entryAt s b) path) ∨
      ∃ above rest, path = above ++ rest ∧ rest ≠ [] ∧
        (leafOf (entryAt s a above) ≠ none ∧ leafOf (entryAt s b path) ≠ none ∨
          leafOf (entryAt s b above) ≠ none ∧ leafOf (entryAt s a path) ≠ none) := by
  by_cases ha : OpenTo (entryAt s a) path
  · by_cases hb : OpenTo (entryAt s b) path
    · exact Or.inl ⟨ha, hb⟩
    · obtain ⟨above, rest, rfl, hrest, hleaf⟩ := leafOf_of_not_openTo hb
      refine Or.inr ⟨above, rest, rfl, hrest, Or.inr ⟨hleaf, fun hnone => hne ?_⟩⟩
      rw [hnone, eq_comm]
      by_contra hsome
      obtain ⟨e, he, -⟩ := exists_of_leafOf hsome
      exact hb (openTo_of_entryAt he)
  · obtain ⟨above, rest, rfl, hrest, hleaf⟩ := leafOf_of_not_openTo ha
    refine Or.inr ⟨above, rest, rfl, hrest, Or.inl ⟨hleaf, fun hnone => hne ?_⟩⟩
    rw [hnone]
    by_contra hsome
    obtain ⟨e, he, -⟩ := exists_of_leafOf hsome
    exact ha (openTo_of_entryAt he)

variable {diffs : List (FileDiff H)}

section Exact

variable (ha : WellStored s a) (hb : WellStored s b)
  (hr : DiffReports (fun _ => True) diffs "" (entryAt s a) (entryAt s b))

include ha hb hr

/-- A difference is that of the entries at its path. -/
theorem diffAt_of_mem {d : FileDiff H} (hd : d ∈ diffs) :
    DiffAt d d.path (entryMap s a d.path) (entryMap s b d.path) ∧
      OpenTo (entryAt s a) (pathOf d.path) ∧ OpenTo (entryAt s b) (pathOf d.path) := by
  obtain ⟨path, -, ho, ho', hat⟩ := hr.sound d hd
  have hvalid : path ≠ [] ∧ ∀ name ∈ path, TreeEntry.validateName name = .ok () := by
    cases hea : entryAt s a path with
    | some e => exact ha.valid hea
    | none =>
      cases heb : entryAt s b path with
      | some e => exact hb.valid heb
      | none =>
        have hk := hat.kind
        rw [hea, heb] at hk
        cases hk
  have hpath : pathOf d.path = path := by rw [hat.path, pathOf_joinPath hvalid.1 hvalid.2]
  rw [entryMap, entryMap, hpath]
  exact ⟨⟨rfl, hat.kind, hat.entryKind, hat.fromTarget, hat.toTarget⟩, ho, ho'⟩

/-- Where the walk gets and the leaves differ, that is reported. -/
theorem reported_of_openTo {path : String} (ho : OpenTo (entryAt s a) (pathOf path))
    (ho' : OpenTo (entryAt s b) (pathOf path)) (hne : leafMap s a path ≠ leafMap s b path) :
    ∃ d ∈ diffs, DiffAt d path (entryMap s a path) (entryMap s b path) := by
  obtain ⟨d, hd, hat⟩ := hr.complete (pathOf path) trivial ho ho' (changedAt_ne_none.mpr hne)
  have hvalid : ∀ name ∈ pathOf path, TreeEntry.validateName name = .ok () := by
    cases hea : entryAt s a (pathOf path) with
    | some e => exact (ha.valid hea).2
    | none =>
      cases heb : entryAt s b (pathOf path) with
      | some e => exact (hb.valid heb).2
      | none =>
        rw [leafMap, leafMap, entryMap, entryMap, hea, heb] at hne
        exact absurd rfl hne
  rw [joinPath_pathOf hvalid] at hat
  exact ⟨d, hd, hat⟩

/-- **A comparison is complete on leaves** exactly when no leaf of one tree is above a leaf of the
other. -/
theorem completeOnLeaves_iff : CompleteOnLeaves s a b diffs ↔ NothingBuried s a b := by
  constructor
  · intro h path rest hrest
    -- a leaf below a leaf of the other tree cannot have been reported
    have hburied : ∀ {x y : H}, WellStored s y → leafOf (entryAt s x path) ≠ none →
        leafOf (entryAt s y (path ++ rest)) ≠ none → leafMap s x (joinPath "" (path ++ rest)) ≠
          leafMap s y (joinPath "" (path ++ rest)) ∧
        ¬ OpenTo (entryAt s x) (pathOf (joinPath "" (path ++ rest))) := by
      intro x y hy hleaf hbelow
      obtain ⟨e, he, -⟩ := exists_of_leafOf hbelow
      have hpath := pathOf_joinPath (hy.valid he).1 (hy.valid he).2
      have hclosed := not_openTo_of_leafOf hleaf hrest
      rw [leafMap, leafMap, entryMap, entryMap, hpath]
      refine ⟨fun heq => ?_, hclosed⟩
      obtain ⟨e', he', -⟩ := exists_of_leafOf (heq ▸ hbelow)
      exact hclosed (openTo_of_entryAt he')
    constructor
    · intro hleaf
      by_contra hbelow
      obtain ⟨hne, hclosed⟩ := hburied hb hleaf hbelow
      obtain ⟨d, hd, hat⟩ := h.reported _ hne
      exact hclosed (hat.path ▸ (diffAt_of_mem ha hb hr hd).2.1)
    · intro hleaf
      by_contra hbelow
      obtain ⟨hne, hclosed⟩ := hburied ha hleaf hbelow
      obtain ⟨d, hd, hat⟩ := h.reported _ hne.symm
      exact hclosed (hat.path ▸ (diffAt_of_mem ha hb hr hd).2.2)
  · intro h
    have hreported : ∀ path, leafMap s a path ≠ leafMap s b path →
        ∃ d ∈ diffs, DiffAt d path (entryMap s a path) (entryMap s b path) := by
      intro path hne
      rcases openTo_or_buried hne with ⟨ho, ho'⟩ | ⟨above, rest, hpath, hrest, hor⟩
      · exact reported_of_openTo ha hb hr ho ho' hne
      · rw [hpath] at hor
        rcases hor with ⟨hleaf, hbelow⟩ | ⟨hleaf, hbelow⟩
        · exact absurd ((h above rest hrest).1 hleaf) hbelow
        · exact absurd ((h above rest hrest).2 hleaf) hbelow
    refine ⟨hreported, ?_⟩
    funext path
    refine applyDiff_apply _ (fun d hd hpath => ?_) fun hnone => ?_
    · rw [(diffAt_of_mem ha hb hr hd).1.leafAfter, hpath, leafMap]
    · by_contra hne
      obtain ⟨d, hd, hat⟩ := hreported path hne
      exact hnone d hd hat.path

end Exact

/-- **When a comparison is complete.** With enough stack a comparison of two stored trees returns.
It reports every path at which the leaves differ, and leads from the leaves of the one tree to those
of the other, exactly when no leaf of one tree is above a leaf of the other. -/
theorem diffTrees_complete_iff (lib : TextLib) {opts : DiffOptions} (hopts : opts.paths = [])
    (ha : WellStored s a) (hb : WellStored s b) :
    ∃ depth₀, ∀ depth, depth₀ ≤ depth → ∃ diffs, diffTrees lib s opts depth a b = .ok diffs ∧
      (CompleteOnLeaves s a b diffs ↔ NothingBuried s a b) := by
  obtain ⟨depth₀, hdepth⟩ := diffTrees_exact lib hopts ha hb
  refine ⟨depth₀, fun depth hle => ?_⟩
  obtain ⟨diffs, hdiffs, hr⟩ := hdepth depth hle
  exact ⟨diffs, hdiffs, completeOnLeaves_iff ha hb hr⟩

/-! ## Nothing to show, and nothing to record -/

section Workspaces

variable {w : World H} {ws : Workspace} {copy : WorkingCopy} {id : ChangeId} {c : ChangeAt H id}
  {prev : Snapshot H} {tree : Tree H}

/-- The options of a snapshot that is given nothing to record. -/
def plainSnap (author : PrincipalId) : SnapOptions := { SnapOptions.default with author := author }

end Workspaces

/-! ## A comparison that misses a leaf -/

namespace ReplacedDirectory

/-- A working copy with one file in a directory `x`. -/
def copyBefore : WorkingCopy := [(Utf8.encode "x", .dir [(Utf8.encode "y", .file [49] false)])]

/-- A working copy with a file `x`. -/
def copyAfter : WorkingCopy := [(Utf8.encode "x", .file [49] false)]

/-- The content of both files. -/
def blob : Blob := ⟨[49]⟩

/-- The hash of the content. -/
def blobHash : PlainHash := (encode PlainHash blob).hash PlainHash

/-- The directory `x`. -/
def dir : Tree PlainHash := ⟨[⟨"y", .file, blobHash, .REGULAR, none⟩]⟩

/-- The tree with the directory. -/
def before : Tree PlainHash := ⟨[⟨"x", .tree, (encode PlainHash dir).hash PlainHash, .DIR, none⟩]⟩

/-- The tree with the file. -/
def after : Tree PlainHash := ⟨[⟨"x", .file, blobHash, .REGULAR, none⟩]⟩

/-- The hash of the tree with the directory. -/
def beforeHash : PlainHash := (encode PlainHash before).hash PlainHash

/-- The hash of the tree with the file. -/
def afterHash : PlainHash := (encode PlainHash after).hash PlainHash

/-- The store after scans of both working copies. -/
def objects : ObjectStore PlainHash :=
  (((ObjectStore.put ∅ (encode PlainHash blob)).put (encode PlainHash dir)).put
    (encode PlainHash before)).put (encode PlainHash after)

theorem load_blob : objects.load blobHash = .ok blob :=
  ((ObjectStore.le_put _ _).trans ((ObjectStore.le_put _ _).trans (ObjectStore.le_put _ _))).load
    (ObjectStore.load_put LawfulFormat.blob ObjectStore.intact_empty blob)

theorem load_dir : objects.load ((encode PlainHash dir).hash PlainHash) = .ok dir :=
  ((ObjectStore.le_put _ _).trans (ObjectStore.le_put _ _)).load
    (ObjectStore.load_put LawfulFormat.tree (ObjectStore.intact_empty.put _) dir)

theorem load_before : objects.load beforeHash = .ok before :=
  (ObjectStore.le_put _ _).load
    (ObjectStore.load_put LawfulFormat.tree ((ObjectStore.intact_empty.put _).put _) before)

theorem load_after : objects.load afterHash = .ok after :=
  ObjectStore.load_put LawfulFormat.tree (((ObjectStore.intact_empty.put _).put _).put _) after

theorem record_dir : recordChildren defaultIgnore (.new : Tree PlainHash)
    [(Utf8.encode "y", .file [49] false)] = some dir := rfl

theorem record_before : recordTree defaultIgnore copyBefore = some before := rfl

theorem record_after : recordTree defaultIgnore copyAfter = some after := rfl

theorem wellStored_before : WellStored objects beforeHash := by
  refine wellStored_recordTree record_before ⟨⟨fun _ _ _ => ⟨⟨fun _ _ _ => load_blob, trivial⟩,
    fun tree htree => ?_⟩, trivial⟩, fun tree htree => ?_⟩
  · obtain rfl := Option.some.inj (record_dir.symm.trans htree)
    exact load_dir
  · obtain rfl := Option.some.inj (record_before.symm.trans htree)
    exact load_before

theorem wellStored_after : WellStored objects afterHash := by
  refine wellStored_recordTree record_after ⟨⟨fun _ _ _ => load_blob, trivial⟩, fun tree htree => ?_⟩
  obtain rfl := Option.some.inj (record_after.symm.trans htree)
  exact load_after

/-- Comparing without looking into files. -/
def options : DiffOptions := ⟨true, [], 3⟩

/-- Text functions that are not called. -/
def lib : TextLib := ⟨fun _ _ => [], fun _ _ _ => [], fun _ _ => .error "", id⟩

end ReplacedDirectory

/-- What is reported of the replacement. -/
def ReplacedDirectory.diff : FileDiff PlainHash :=
  ⟨"x", .typeChanged .tree .file, .file,
    some ((encode PlainHash ReplacedDirectory.dir).hash PlainHash),
    some ReplacedDirectory.blobHash, false, none⟩

set_option maxRecDepth 1000000 in
/-- Replacing a directory by a file is reported, but not that the file in the directory is gone. -/
theorem diffTrees_misses :
    diffTrees ReplacedDirectory.lib ReplacedDirectory.objects ReplacedDirectory.options 8
        ReplacedDirectory.beforeHash ReplacedDirectory.afterHash = .ok [ReplacedDirectory.diff] ∧
      leafMap ReplacedDirectory.objects ReplacedDirectory.beforeHash "x/y" =
        some (.file, ReplacedDirectory.blobHash) ∧
      leafMap ReplacedDirectory.objects ReplacedDirectory.afterHash "x/y" = none ∧
      ¬ CompleteOnLeaves ReplacedDirectory.objects ReplacedDirectory.beforeHash
        ReplacedDirectory.afterHash [ReplacedDirectory.diff] := by
  have hbefore : leafMap ReplacedDirectory.objects ReplacedDirectory.beforeHash "x/y" =
      some (.file, ReplacedDirectory.blobHash) := rfl
  have hafter : leafMap ReplacedDirectory.objects ReplacedDirectory.afterHash "x/y" = none := rfl
  refine ⟨rfl, hbefore, hafter, fun h => ?_⟩
  obtain ⟨d, hd, hat⟩ := h.reported "x/y" (by rw [hbefore, hafter]; exact Option.some_ne_none _)
  obtain rfl := List.mem_singleton.mp hd
  exact absurd hat.path (by decide)

/-- Whether the comparison is complete is decided by the trees. -/
theorem diffTrees_replacedDirectory : ∃ depth₀, ∀ depth, depth₀ ≤ depth → ∃ diffs,
    diffTrees ReplacedDirectory.lib ReplacedDirectory.objects ReplacedDirectory.options depth
        ReplacedDirectory.beforeHash ReplacedDirectory.afterHash = .ok diffs ∧
      (CompleteOnLeaves ReplacedDirectory.objects ReplacedDirectory.beforeHash
          ReplacedDirectory.afterHash diffs ↔
        NothingBuried ReplacedDirectory.objects ReplacedDirectory.beforeHash
          ReplacedDirectory.afterHash) :=
  diffTrees_complete_iff ReplacedDirectory.lib rfl ReplacedDirectory.wellStored_before
    ReplacedDirectory.wellStored_after

/-! ## A change of mode -/

namespace MadeExecutable

/-- The main workspace. -/
def ws : Workspace := ⟨.main, "/repo"⟩

/-- A working copy with a file. -/
def copyBefore : WorkingCopy := [(Utf8.encode "x", .file [49] false)]

/-- The working copy after `chmod +x`. -/
def copyAfter : WorkingCopy := [(Utf8.encode "x", .file [49] true)]

/-- The repository after a snapshot of the file. -/
def world : World PlainHash :=
  final (snapNow ws copyBefore (plainSnap "local:alice")) (World.fresh .calm)

/-- A disk on which nothing is looked at. -/
def disk : Disk := ⟨fun _ => false, fun _ => none, 8⟩

/-- The tree before. -/
def treeBefore : Tree PlainHash :=
  ⟨[⟨"x", .file, (encode PlainHash (Blob.mk [49])).hash PlainHash, .REGULAR, none⟩]⟩

/-- The tree after. -/
def treeAfter : Tree PlainHash :=
  ⟨[⟨"x", .file, (encode PlainHash (Blob.mk [49])).hash PlainHash, .EXEC, none⟩]⟩

/-- The snapshot. -/
def snapshot : Snapshot PlainHash :=
  ⟨[], (encode PlainHash treeBefore).hash PlainHash, "local:alice", 0, none, none⟩

/-- The change after the snapshot. -/
def change : Change PlainHash :=
  { Change.new "" "initial work" "local:alice" ((encode PlainHash snapshot).hash PlainHash) with
    history := [(encode PlainHash snapshot).hash PlainHash] }

theorem run_world : ∃ σ, Run world σ :=
  ⟨_, .operation (.start (World.fresh .calm) rfl Env.calm_reliable Env.calm_fresh) ⟨0⟩
    (.snapNow ws copyBefore (plainSnap "local:alice"))⟩

end MadeExecutable

end Tig
