import Tig.Fs.DiffLaws
import Tig.Guarantees.Comparison

set_option relaxedAutoImplicit false
set_option autoImplicit false

/-!
# Differences

What is reported of two trees does not depend on what the walk skips, tells the truth about both
trees, and is the same from the other side. A filter lets more through than it says: a path that a
filter starts with is looked at, also when it is no directory.

## Main definitions

* `Tig.FileDiff.TruthfulAt` — a difference tells the truth about the entries at a path.

## Main results

* `Tig.diffTrees_eq_plainDiff` — skipping changes nothing, and all that is reported is true.
* `Tig.diffTrees_mirror` — the comparison from the other side.
* `Tig.diffTrees_filter_iff` — when a filter only filters.
-/

namespace Tig

variable {H : Type} [LinearOrder H] [Format H] {s : ObjectStore H} {opts : DiffOptions} {a b : H}

/-! ## Nothing is skipped, and all is true -/

/-- What a difference says has happened is what has happened to the entries. -/
def FileDiff.Holds (d : FileDiff H) (before after : Option (TreeEntry H)) : Prop :=
  match d.kind with
  | .added => before = none ∧ ∃ t, after = some t ∧ t.kind ≠ .tree
  | .removed => after = none ∧ ∃ f, before = some f ∧ f.kind ≠ .tree
  | .modified => ∃ f t, before = some f ∧ after = some t ∧ f.kind = t.kind ∧ f.kind ≠ .tree ∧
      f.target ≠ t.target
  | .typeChanged fromKind toKind => ∃ f t, before = some f ∧ after = some t ∧ f.kind = fromKind ∧
      t.kind = toKind ∧ fromKind ≠ toKind

/-- A difference tells the truth about the entries at a path. -/
structure FileDiff.TruthfulAt (d : FileDiff H) (path : String) (before after : Option (TreeEntry H)) :
    Prop where
  path : d.path = path
  holds : d.Holds before after
  fromTarget : d.fromTarget = before.map TreeEntry.target
  toTarget : d.toTarget = after.map TreeEntry.target

omit [Format H] in
theorem DiffAt.truthful {d : FileDiff H} {path : String} {before after : Option (TreeEntry H)}
    (h : DiffAt d path before after) : d.TruthfulAt path before after := by
  refine ⟨h.path, ?_, h.fromTarget, h.toTarget⟩
  have hk := h.kind
  rw [FileDiff.Holds]
  generalize d.kind = kind at hk
  rcases before with _ | f <;> rcases after with _ | t <;> unfold changedAt at hk <;> dsimp only at hk
  · cases hk
  · split_ifs at hk with htree
    obtain rfl := Option.some.inj hk
    exact ⟨rfl, t, rfl, htree⟩
  · split_ifs at hk with htree
    obtain rfl := Option.some.inj hk
    exact ⟨rfl, f, rfl, htree⟩
  · split_ifs at hk with hkinds hsame
    · obtain rfl := Option.some.inj hk
      exact ⟨f, t, rfl, rfl, rfl, rfl, hkinds⟩
    · obtain rfl := Option.some.inj hk
      obtain ⟨htree, htarget⟩ := not_or.mp hsame
      exact ⟨f, t, rfl, rfl, not_not.mp hkinds, htree, htarget⟩

/-- The paths of what is reported are distinct as texts. -/
theorem DiffsListed.nodup {diffs : List (FileDiff H)} {paths : List (List String)}
    (h : DiffsListed diffs "" (entryAt s a) (entryAt s b) paths) (ha : WellStored s a)
    (hb : WellStored s b) : (diffs.map FileDiff.path).Nodup := by
  have hpaths : diffs.map (fun d => pathOf d.path) = paths := by
    rw [← List.forall₂_eq_eq_eq, List.forall₂_map_left_iff]
    refine h.each.imp fun d path hat => ?_
    rw [hat.path]
    have hvalid : path ≠ [] ∧ ∀ name ∈ path, TreeEntry.validateName name = .ok () := by
      cases hf : entryAt s a path with
      | some e => exact ha.valid hf
      | none =>
        cases ht : entryAt s b path with
        | some e => exact hb.valid ht
        | none =>
          have hkind := hat.kind
          rw [hf, ht] at hkind
          cases hkind
    exact pathOf_joinPath hvalid.1 hvalid.2
  have hnodup : (diffs.map fun d => pathOf d.path).Nodup := hpaths ▸ h.ordered.nodup
  rw [← Function.comp_def, ← List.map_map] at hnodup
  exact List.Nodup.of_map _ hnodup

/-- **Skipping changes nothing, and all that is reported is true**: a comparison gives what the
recursion into all directories gives; each difference tells the truth about the entries at its path,
no path occurs twice, and the paths are in order, component by component. -/
theorem diffTrees_eq_plainDiff (lib : TextLib) (hopts : opts.paths = []) (ha : WellStored s a)
    (hb : WellStored s b) : ∃ depth₀, ∀ depth, depth₀ ≤ depth → ∃ diffs,
      diffTrees lib s opts depth a b = .ok diffs ∧
      plainDiff lib s opts depth (some a) (some b) "" = .ok diffs ∧
      (diffs.map FileDiff.path).Nodup ∧
      ∃ paths : List (List String), paths.Pairwise (· < ·) ∧
        List.Forall₂ (fun d path => d.TruthfulAt (joinPath "" path) (entryAt s a path)
          (entryAt s b path)) diffs paths := by
  obtain ⟨da, hda⟩ := ha.whole.fits
  obtain ⟨db, hdb⟩ := hb.whole.fits
  refine ⟨max da db, fun depth hle => ?_⟩
  have hfa : ∀ r, some a = some r → WellStored s r ∧ Fits s depth r := by
    rintro _ ⟨⟩
    exact ⟨ha, hda.mono (le_trans (le_max_left da db) hle)⟩
  have hfb : ∀ r, some b = some r → WellStored s r ∧ Fits s depth r := by
    rintro _ ⟨⟩
    exact ⟨hb, hdb.mono (le_trans (le_max_right da db) hle)⟩
  have htrees : diffTrees lib s opts depth a b =
      diffSubtree lib s opts depth (some a) (some b) "" := by
    rw [diffTrees]
    split_ifs with hab
    · rw [← hab, diffSubtree_self lib (hfa a rfl).2]
    · rfl
  obtain ⟨diffs, hdiffs, -⟩ := diffSubtree_spec lib hopts hfa hfb
    (Or.inl (Option.some_ne_none a)) ""
  obtain ⟨paths, hlisted⟩ := diffSubtree_listed lib hopts hfa hfb hdiffs
  refine ⟨diffs, htrees.trans hdiffs, (plainDiff_eq lib hopts hfa hfb "").trans hdiffs,
    DiffsListed.nodup hlisted ha hb, paths, hlisted.ordered, hlisted.each.imp fun d path hat => hat.truthful⟩

open ReplacedDirectory in
/-- A directory that is replaced by a file. -/
theorem diffTrees_eq_plainDiff_replaced : ∃ depth₀, ∀ depth, depth₀ ≤ depth → ∃ diffs,
    diffTrees lib objects options depth beforeHash afterHash = .ok diffs ∧
      plainDiff lib objects options depth (some beforeHash) (some afterHash) "" = .ok diffs := by
  obtain ⟨depth₀, h⟩ := diffTrees_eq_plainDiff lib (show options.paths = [] from rfl)
    wellStored_before wellStored_after
  refine ⟨depth₀, fun depth hle => ?_⟩
  obtain ⟨diffs, hdiffs, hplain, -⟩ := h depth hle
  exact ⟨diffs, hdiffs, hplain⟩

/-! ## From the other side -/

/-- **The comparison from the other side**: it succeeds when the comparison does, and gives the same
differences, seen from the other side. -/
theorem diffTrees_mirror (lib : TextLib) (s : ObjectStore H) (hopts : opts.noHunks = true)
    (depth : Nat) (a b : H) :
    ((∃ diffs, diffTrees lib s opts depth b a = .ok diffs) ↔
        ∃ diffs, diffTrees lib s opts depth a b = .ok diffs) ∧
      ∀ diffs, diffTrees lib s opts depth a b = .ok diffs →
        diffTrees lib s opts depth b a = .ok (diffs.map FileDiff.mirror) := by
  have hmirrors : Mirrors (diffTrees lib s opts depth a b) (diffTrees lib s opts depth b a) := by
    rw [diffTrees, diffTrees]
    by_cases hab : a = b
    · rw [if_pos hab, if_pos hab.symm]
      rfl
    · rw [if_neg hab, if_neg (Ne.symm hab)]
      exact diffSubtree_mirror lib hopts depth (some a) (some b) ""
  revert hmirrors
  cases diffTrees lib s opts depth a b <;> cases diffTrees lib s opts depth b a <;>
    simp [Mirrors]

open ReplacedDirectory in
/-- The replacement of a directory by a file, from the other side. -/
theorem diffTrees_mirror_replaced :
    (∃ diffs, diffTrees lib objects options 8 afterHash beforeHash = .ok diffs) ↔
      ∃ diffs, diffTrees lib objects options 8 beforeHash afterHash = .ok diffs :=
  (diffTrees_mirror lib objects (show options.noHunks = true from rfl) 8 beforeHash afterHash).1

/-! ## With a filter -/

/-- The path starts with one of the filters. -/
def DiffOptions.selects (opts : DiffOptions) (path : String) : Bool :=
  opts.paths.any fun p => startsWith path p

/-- No path at which the walk finds a difference is where a filter begins, unless the path starts with a
filter. -/
def FiltersEnd (s : ObjectStore H) (opts : DiffOptions) (a b : H) : Prop :=
  ∀ path, OpenTo (entryAt s a) path → OpenTo (entryAt s b) path →
    changedAt (entryAt s a path) (entryAt s b path) ≠ none →
    (∃ p ∈ opts.paths, startsWith p (joinPath "" path) = true) →
      opts.selects (joinPath "" path) = true

theorem DiffOptions.passes_iff (hpaths : opts.paths ≠ []) (path : String) :
    opts.passes path = true ↔
      opts.selects path = true ∨ ∃ p ∈ opts.paths, startsWith p path = true := by
  have hempty : opts.paths.isEmpty = false := by
    rwa [List.isEmpty_eq_false_iff]
  simp only [DiffOptions.passes, DiffOptions.selects, hempty, Bool.false_or, List.any_eq_true,
    Bool.or_eq_true, and_or_left, exists_or]

/-- **A filter only filters** exactly when no path with a difference is where a filter begins. -/
theorem diffTrees_filter_iff (lib : TextLib) (hpaths : opts.paths ≠ []) (ha : WellStored s a)
    (hb : WellStored s b) : ∃ depth₀, ∀ depth, depth₀ ≤ depth → ∃ diffs,
      diffTrees lib s opts.unfiltered depth a b = .ok diffs ∧
      (diffTrees lib s opts depth a b = .ok (diffs.filter fun d => opts.selects d.path) ↔
        FiltersEnd s opts a b) := by
  obtain ⟨depth₀, hexact⟩ := diffTrees_exact lib (show opts.unfiltered.paths = [] from rfl) ha hb
  refine ⟨depth₀, fun depth hle => ?_⟩
  obtain ⟨diffs, hdiffs, hreports⟩ := hexact depth hle
  refine ⟨diffs, hdiffs, ?_⟩
  have hfiltered : diffTrees lib s opts depth a b =
      .ok (diffs.filter fun d => opts.passes d.path) := by
    rw [diffTrees] at hdiffs ⊢
    split_ifs at hdiffs ⊢
    · obtain rfl := Except.ok.inj hdiffs
      rfl
    · exact (diffSubtree_filter lib depth _ _ _ _ hdiffs).2
  have hselects : diffs.filter (fun d => opts.passes d.path) =
      diffs.filter (fun d => opts.selects d.path) ↔
        ∀ d ∈ diffs, opts.passes d.path = true → opts.selects d.path = true := by
    constructor
    · intro heq d hd hpass
      have hmem : d ∈ diffs.filter fun d => opts.selects d.path :=
        heq ▸ List.mem_filter.mpr ⟨hd, hpass⟩
      have hsel := (List.mem_filter.mp hmem).2
      exact hsel
    · intro h
      refine List.filter_congr fun d hd => Bool.eq_iff_iff.mpr ⟨h d hd, fun hsel => ?_⟩
      exact (DiffOptions.passes_iff hpaths _).mpr (Or.inl hsel)
  rw [hfiltered, Except.ok.injEq, hselects]
  constructor
  · intro h path ho ho' hchanged hbegins
    obtain ⟨d, hd, hat⟩ := hreports.complete path trivial ho ho' hchanged
    rw [← hat.path] at hbegins ⊢
    exact h d hd ((DiffOptions.passes_iff hpaths _).mpr (Or.inr hbegins))
  · intro h d hd hpass
    obtain ⟨path, -, ho, ho', hat⟩ := hreports.sound d hd
    rcases (DiffOptions.passes_iff hpaths _).mp hpass with hsel | hbegins
    · exact hsel
    · rw [hat.path] at hbegins ⊢
      refine h path ho ho' ?_ hbegins
      rw [hat.kind]
      exact Option.some_ne_none _

namespace ReplacedDirectory

/-- Comparing with a filter. -/
def filtered (filter : String) : DiffOptions := ⟨true, [filter], 3⟩

/-- Whatever is in the trees is at `x` or below. -/
theorem head_of_entryAt {tree : PlainHash} {t : Tree PlainHash} {e : TreeEntry PlainHash}
    (ht : objects.load tree = .ok t) (hnames : t.entries.map TreeEntry.name = ["x"]) {name : String}
    {rest : List String} (h : entryAt objects tree (name :: rest) = some e) : name = "x" := by
  rw [entryAt_cons ht, Option.bind_eq_some_iff] at h
  obtain ⟨e', he', -⟩ := h
  have hmem := List.mem_map_of_mem (f := TreeEntry.name) (mem_of_findEntry he')
  rw [hnames, name_of_findEntry he'] at hmem
  exact List.mem_singleton.mp hmem

/-- No path with a difference is where the filter begins. -/
theorem filtersEnd : FiltersEnd objects (filtered "z") beforeHash afterHash := by
  intro path _ _ hchanged hbegins
  obtain ⟨p, hp, hstart⟩ := hbegins
  obtain rfl := List.mem_singleton.mp hp
  cases path with
  | nil => exact absurd rfl hchanged
  | cons name rest =>
    have hname : name = "x" := by
      cases hf : entryAt objects beforeHash (name :: rest) with
      | some e => exact head_of_entryAt load_before rfl hf
      | none =>
        cases ht : entryAt objects afterHash (name :: rest) with
        | some e => exact head_of_entryAt load_after rfl ht
        | none =>
          rw [hf, ht] at hchanged
          exact absurd rfl hchanged
    subst hname
    have hx : joinPath "" ("x" :: rest) = joinPath "x" rest := rfl
    rw [startsWith, decide_eq_true_eq, hx, toList_joinPath (by decide)] at hstart
    cases rest <;> simp [List.intercalate_cons_cons, List.intercalate_singleton] at hstart

end ReplacedDirectory

open ReplacedDirectory in
/-- A filter that begins at no path with a difference. -/
theorem diffTrees_filter_other : ∃ depth₀, ∀ depth, depth₀ ≤ depth → ∃ diffs,
    diffTrees lib objects (filtered "z").unfiltered depth beforeHash afterHash = .ok diffs ∧
      diffTrees lib objects (filtered "z") depth beforeHash afterHash =
        .ok (diffs.filter fun d => (filtered "z").selects d.path) := by
  obtain ⟨depth₀, h⟩ := diffTrees_filter_iff lib (show (filtered "z").paths ≠ [] by decide)
    wellStored_before wellStored_after
  refine ⟨depth₀, fun depth hle => ?_⟩
  obtain ⟨diffs, hdiffs, hiff⟩ := h depth hle
  exact ⟨diffs, hdiffs, hiff.mpr filtersEnd⟩

set_option maxRecDepth 1000000 in
open ReplacedDirectory in
/-- The path `x` does not start with `xy`, but is let through. -/
theorem diffTrees_filter_begins : WellStored objects beforeHash ∧ WellStored objects afterHash ∧
    diffTrees lib objects (filtered "xy").unfiltered 8 beforeHash afterHash = .ok [diff] ∧
    diffTrees lib objects (filtered "xy") 8 beforeHash afterHash = .ok [diff] ∧
    [diff].filter (fun d => (filtered "xy").selects d.path) = [] :=
  ⟨wellStored_before, wellStored_after, rfl, rfl, rfl⟩

end Tig
