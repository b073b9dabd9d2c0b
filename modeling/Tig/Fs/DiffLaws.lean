import Mathlib.Data.List.Lex
import Tig.Fs.LeafMap

set_option relaxedAutoImplicit false
set_option autoImplicit false

/-!
# Laws of the comparison

How the walk over two trees behaves when the trees change places, when a filter is set, and when
nothing is skipped.

## Main definitions

* `Tig.FileDiff.mirror` — a difference seen from the other side.
* `Tig.plainDiff` — the walk that skips nothing.

## Main results

* `Tig.diffSubtree_mirror` — the walk from the other side.
* `Tig.diffSubtree_filter` — the walk with a filter.
* `Tig.plainDiff_eq` — skipping what is the same on both sides changes nothing.
-/

namespace Tig

open Program

variable {H : Type} [LinearOrder H] [Format H] {s : ObjectStore H}

/-! ## The names that are walked -/

section Names

omit [LinearOrder H] [Format H] in
/-- The names are walked in order, each once. -/
theorem unionNames_pairwise {before : List (TreeEntry H)}
    (hb : before.Pairwise fun a b => a.name < b.name) (after : List (TreeEntry H)) :
    (unionNames before after).Pairwise (· < ·) :=
  List.pairwise_map.mpr (pairwise_foldl_upsertEntry after hb)

omit [LinearOrder H] [Format H] in
/-- It does not matter which tree the names come from. -/
theorem unionNames_comm {before after : List (TreeEntry H)}
    (hb : before.Pairwise fun a b => a.name < b.name)
    (ha : after.Pairwise fun a b => a.name < b.name) :
    unionNames after before = unionNames before after := by
  refine (unionNames_pairwise ha before).eq_of_mem_iff (unionNames_pairwise hb after) fun name => ?_
  rw [mem_unionNames ha hb, mem_unionNames hb ha, or_comm]

/-- The entries of a tree are sorted by name. -/
theorem entriesOf_pairwise {root : Option H} {entries : List (TreeEntry H)}
    (h : entriesOf s root = .ok entries) : entries.Pairwise fun a b => a.name < b.name := by
  cases root with
  | none =>
    obtain rfl := Except.ok.inj h
    exact List.Pairwise.nil
  | some r =>
    rw [entriesOf] at h
    cases ht : (s.load r : Except Error (Tree H)) with
    | error e =>
      rw [ht] at h
      cases h
    | ok t =>
      rw [ht] at h
      obtain rfl := Except.ok.inj h
      exact pairwise_foldl_upsertEntry _ List.Pairwise.nil

end Names

/-! ## From the other side -/

section Mirror

/-- What happened to a path, seen from the other side. -/
def ChangeKind.mirror : ChangeKind → ChangeKind
  | .added => .removed
  | .removed => .added
  | .modified => .modified
  | .typeChanged before after => .typeChanged after before

/-- A difference, seen from the other side; the kind that is shown is that of the entry there is after
it, or was before it. -/
def FileDiff.mirror (d : FileDiff H) : FileDiff H :=
  { d with
    kind := d.kind.mirror
    entryKind := match d.kind with
      | .typeChanged before _ => before
      | _ => d.entryKind
    fromTarget := d.toTarget
    toTarget := d.fromTarget }

/-- One comparison is the other one, seen from the other side, if they do not fail. -/
def Mirrors (r r' : Except Error (List (FileDiff H))) : Prop :=
  match r, r' with
  | .ok diffs, .ok diffs' => diffs' = diffs.map FileDiff.mirror
  | .error _, .error _ => True
  | _, _ => False

variable (lib : TextLib) {opts : DiffOptions}

/-- Without hunks no content is read. -/
theorem emitChange_noHunks (hopts : opts.noHunks = true) (path : String) (kind : ChangeKind)
    (before after : Option (TreeEntry H)) :
    emitChange lib s opts path kind before after =
      .ok ⟨path, kind, shownKind before after, before.map TreeEntry.target,
        after.map TreeEntry.target, false, none⟩ := by
  rw [emitChange, hopts, Bool.not_true, Bool.and_false, if_neg Bool.false_ne_true]

theorem diffEntry_mirror (hopts : opts.noHunks = true)
    {descend : Option H → Option H → String → Except Error (List (FileDiff H))}
    (hd : ∀ before after path, Mirrors (descend before after path) (descend after before path))
    (path : String) (before after : Option (TreeEntry H)) :
    Mirrors (diffEntry lib s opts descend path before after)
      (diffEntry lib s opts descend path after before) := by
  unfold diffEntry
  simp only [emitChange_noHunks lib hopts, Except.map]
  rcases before with _ | f <;> rcases after with _ | t <;> dsimp only
  · exact trivial
  · split_ifs
    · exact hd _ _ _
    · rfl
  · split_ifs
    · exact hd _ _ _
    · rfl
  · by_cases hsame : f.target = t.target ∧ f.kind = t.kind
    · rw [if_pos hsame, if_pos ⟨hsame.1.symm, hsame.2.symm⟩]
      rfl
    · have hsame' : ¬ (t.target = f.target ∧ t.kind = f.kind) :=
        fun h => hsame ⟨h.1.symm, h.2.symm⟩
      rw [if_neg hsame, if_neg hsame']
      by_cases htrees : f.kind = .tree ∧ t.kind = .tree
      · rw [if_pos htrees, if_pos htrees.symm]
        exact hd _ _ _
      · have htrees' : ¬ (t.kind = .tree ∧ f.kind = .tree) := fun h => htrees h.symm
        rw [if_neg htrees, if_neg htrees']
        by_cases hkind : f.kind = t.kind
        · rw [if_neg (not_not.mpr hkind), if_neg (not_not.mpr hkind.symm)]
          simp [Mirrors, FileDiff.mirror, ChangeKind.mirror, shownKind, hkind]
        · rw [if_pos hkind, if_pos (Ne.symm hkind)]
          rfl

theorem diffNames_mirror (hopts : opts.noHunks = true)
    {descend : Option H → Option H → String → Except Error (List (FileDiff H))}
    (hd : ∀ before after path, Mirrors (descend before after path) (descend after before path))
    (pathPrefix : String) (before after : List (TreeEntry H)) (names : List String) :
    Mirrors (diffNames lib s opts descend pathPrefix before after names)
      (diffNames lib s opts descend pathPrefix after before names) := by
  induction names with
  | nil => rfl
  | cons name names ih =>
    rw [diffNames, diffNames]
    split_ifs with hpass
    · have hone := diffEntry_mirror lib hopts (s := s) hd (entryPath pathPrefix name)
        (findEntry name before) (findEntry name after)
      revert hone ih
      cases diffEntry lib s opts descend (entryPath pathPrefix name) (findEntry name before)
          (findEntry name after) <;>
        cases diffEntry lib s opts descend (entryPath pathPrefix name) (findEntry name after)
          (findEntry name before) <;>
        cases diffNames lib s opts descend pathPrefix before after names <;>
        cases diffNames lib s opts descend pathPrefix after before names <;>
        simp +contextual [Mirrors, bind, Except.bind]
    · exact ih

/-- **The walk from the other side.** -/
theorem diffSubtree_mirror (hopts : opts.noHunks = true) (depth : Nat) (before after : Option H)
    (pathPrefix : String) :
    Mirrors (diffSubtree lib s opts depth before after pathPrefix)
      (diffSubtree lib s opts depth after before pathPrefix) := by
  induction depth generalizing before after pathPrefix with
  | zero => exact trivial
  | succ depth ih =>
    rw [diffSubtree, diffSubtree]
    by_cases hsame : before.isSome ∧ before = after
    · rw [if_pos hsame, if_pos ⟨hsame.2 ▸ hsame.1, hsame.2.symm⟩]
      rfl
    · have hsame' : ¬ (after.isSome ∧ after = before) := fun h => hsame ⟨h.2 ▸ h.1, h.2.symm⟩
      rw [if_neg hsame, if_neg hsame']
      cases hb : entriesOf s before with
      | error e =>
        cases entriesOf s after with
        | error e' => exact trivial
        | ok toEntries => exact trivial
      | ok fromEntries =>
        cases ha : entriesOf s after with
        | error e' => exact trivial
        | ok toEntries =>
          simp only [bind, Except.bind]
          rw [unionNames_comm (entriesOf_pairwise hb) (entriesOf_pairwise ha)]
          exact diffNames_mirror lib hopts ih pathPrefix fromEntries toEntries _

end Mirror

/-! ## With a filter -/

section Filter

/-- What lies above a path that is looked at is looked at. -/
theorem DiffOptions.passes_of_prefix {opts : DiffOptions} {path below : String}
    (h : path.toList <+: below.toList) (hpass : opts.passes below = true) :
    opts.passes path = true := by
  simp only [DiffOptions.passes, startsWith, Bool.or_eq_true, List.any_eq_true, decide_eq_true_eq]
    at hpass ⊢
  refine hpass.imp id fun hany => ?_
  obtain ⟨p, hp, hor⟩ := hany
  refine ⟨p, hp, ?_⟩
  rcases hor with hor | hor
  · exact List.prefix_or_prefix_of_prefix hor h
  · exact Or.inr (h.trans hor)

/-- A path starts with that of its directory. -/
theorem prefix_entryPath (pathPrefix name : String) :
    pathPrefix.toList <+: (entryPath pathPrefix name).toList := by
  rw [entryPath]
  split_ifs with h
  · rw [h]
    exact List.nil_prefix
  · rw [String.toList_append, String.toList_append, List.append_assoc]
    exact List.prefix_append _ _

/-- The differences are at paths that start with `path`. -/
def AllBelow (path : String) (diffs : List (FileDiff H)) : Prop :=
  ∀ d ∈ diffs, path.toList <+: d.path.toList

variable (lib : TextLib) {opts : DiffOptions}

theorem path_of_emitChange {path : String} {kind : ChangeKind} {before after : Option (TreeEntry H)}
    {d : FileDiff H} (h : emitChange lib s opts path kind before after = .ok d) : d.path = path := by
  rw [emitChange] at h
  split_ifs at h
  · obtain ⟨fromBytes, -, h⟩ := except_bind_eq_ok.mp h
    obtain ⟨toBytes, -, h⟩ := except_bind_eq_ok.mp h
    split_ifs at h <;> rw [← Except.ok.inj h]
  · rw [← Except.ok.inj h]

/-- One walk is the other one with a filter. -/
def Filters (opts : DiffOptions)
    (descend descend' : Option H → Option H → String → Except Error (List (FileDiff H))) : Prop :=
  ∀ before after path diffs, descend before after path = .ok diffs →
    AllBelow path diffs ∧ descend' before after path = .ok (diffs.filter fun d => opts.passes d.path)

/-- The options without the filter. -/
def DiffOptions.unfiltered (opts : DiffOptions) : DiffOptions := { opts with paths := [] }

theorem DiffOptions.passes_unfiltered (opts : DiffOptions) (path : String) :
    opts.unfiltered.passes path = true := rfl

/-- What is found at one path; with the filter the same, if the path is looked at. -/
theorem diffEntry_filter
    {descend descend' : Option H → Option H → String → Except Error (List (FileDiff H))}
    (hd : Filters opts descend descend') {path : String} {before after : Option (TreeEntry H)}
    {diffs : List (FileDiff H)}
    (h : diffEntry lib s opts.unfiltered descend path before after = .ok diffs) :
    AllBelow path diffs ∧ (opts.passes path = true →
      diffEntry lib s opts descend' path before after =
        .ok (diffs.filter fun d => opts.passes d.path)) := by
  have hdown : ∀ {b a : Option H}, descend b a path = .ok diffs → AllBelow path diffs ∧
      (opts.passes path = true → descend' b a path = .ok (diffs.filter fun d => opts.passes d.path)) :=
    fun hrun => ⟨(hd _ _ _ _ hrun).1, fun _ => (hd _ _ _ _ hrun).2⟩
  have hemit : ∀ {kind : ChangeKind},
      (emitChange lib s opts.unfiltered path kind before after).map (fun d => [d]) = .ok diffs →
      AllBelow path diffs ∧ (opts.passes path = true →
        (emitChange lib s opts path kind before after).map (fun d => [d]) =
          .ok (diffs.filter fun d => opts.passes d.path)) := by
    intro kind hrun
    have hsame : emitChange lib s opts path kind before after =
        emitChange lib s opts.unfiltered path kind before after := rfl
    rw [hsame]
    cases hone : emitChange lib s opts.unfiltered path kind before after with
    | error e =>
      rw [hone] at hrun
      cases hrun
    | ok d =>
      rw [hone] at hrun
      obtain rfl := Except.ok.inj hrun
      have hpath := path_of_emitChange lib hone
      refine ⟨fun d' hd' => ?_, fun hpass => ?_⟩
      · rw [List.mem_singleton.mp hd', hpath]
      · rw [List.filter_singleton, hpath, hpass]
        rfl
  have hnil : diffs = [] → AllBelow path diffs ∧ (opts.passes path = true →
      (.ok [] : Except Error (List (FileDiff H))) = .ok (diffs.filter fun d => opts.passes d.path)) := by
    rintro rfl
    exact ⟨fun d hd => absurd hd List.not_mem_nil, fun _ => rfl⟩
  unfold diffEntry at h ⊢
  rcases before with _ | f <;> rcases after with _ | t <;> dsimp only at h ⊢
  · cases h
  · split_ifs at h ⊢
    · exact hdown h
    · exact hemit h
  · split_ifs at h ⊢
    · exact hdown h
    · exact hemit h
  · split_ifs at h ⊢
    · exact hnil (Except.ok.inj h).symm
    · exact hdown h
    · exact hemit h
    · exact hemit h

theorem diffNames_filter
    {descend descend' : Option H → Option H → String → Except Error (List (FileDiff H))}
    (hd : Filters opts descend descend') {pathPrefix : String} {before after : List (TreeEntry H)}
    {names : List String} {diffs : List (FileDiff H)}
    (h : diffNames lib s opts.unfiltered descend pathPrefix before after names = .ok diffs) :
    AllBelow pathPrefix diffs ∧
      diffNames lib s opts descend' pathPrefix before after names =
        .ok (diffs.filter fun d => opts.passes d.path) := by
  induction names generalizing diffs with
  | nil =>
    obtain rfl := Except.ok.inj h
    exact ⟨fun d hd => absurd hd List.not_mem_nil, rfl⟩
  | cons name names ih =>
    rw [diffNames, if_pos (opts.passes_unfiltered _)] at h
    obtain ⟨here, hone, h⟩ := except_bind_eq_ok.mp h
    obtain ⟨rest, hmore, h⟩ := except_bind_eq_ok.mp h
    obtain rfl := Except.ok.inj h
    obtain ⟨hbelow, hfiltered⟩ := diffEntry_filter lib hd hone
    obtain ⟨hbelow', hrest⟩ := ih hmore
    refine ⟨fun d hd => ?_, ?_⟩
    · rcases List.mem_append.mp hd with hd | hd
      · exact (prefix_entryPath pathPrefix name).trans (hbelow d hd)
      · exact hbelow' d hd
    · rw [diffNames, List.filter_append]
      split_ifs with hpass
      · rw [hfiltered hpass, hrest]
        rfl
      · -- what lies below a path that is not looked at does not pass either
        have hnone : here.filter (fun d => opts.passes d.path) = [] :=
          List.filter_eq_nil_iff.mpr fun d hd hp =>
            hpass (DiffOptions.passes_of_prefix (hbelow d hd) hp)
        rw [hnone, List.nil_append, hrest]

/-- **The walk with a filter** finds what the walk without it finds at paths that are looked at. -/
theorem diffSubtree_filter (depth : Nat) :
    Filters opts (diffSubtree lib s opts.unfiltered depth) (diffSubtree lib s opts depth) := by
  induction depth with
  | zero =>
    intro before after path diffs h
    cases h
  | succ depth ih =>
    intro before after path diffs h
    rw [diffSubtree] at h ⊢
    split_ifs at h ⊢
    · obtain rfl := Except.ok.inj h
      exact ⟨fun d hd => absurd hd List.not_mem_nil, rfl⟩
    · obtain ⟨fromEntries, hf, h⟩ := except_bind_eq_ok.mp h
      obtain ⟨toEntries, ht, h⟩ := except_bind_eq_ok.mp h
      rw [hf, ht]
      exact diffNames_filter lib ih h

end Filter

/-! ## Skipping nothing -/

section Plain

variable (lib : TextLib) (s : ObjectStore H) (opts : DiffOptions)

/-- The differences at one path; `descend` compares two directories, and is always called for them. -/
def plainEntry (descend : Option H → Option H → String → Except Error (List (FileDiff H)))
    (path : String) (before after : Option (TreeEntry H)) : Except Error (List (FileDiff H)) :=
  let emit (kind : ChangeKind) := (emitChange lib s opts path kind before after).map fun d => [d]
  match before, after with
  | some f, some t =>
    if f.kind = .tree ∧ t.kind = .tree then descend (some f.target) (some t.target) path
    else if f.kind ≠ t.kind then emit (.typeChanged f.kind t.kind)
    else if f.target = t.target then .ok []
    else emit .modified
  | some f, none => if f.kind = .tree then descend (some f.target) none path else emit .removed
  | none, some t => if t.kind = .tree then descend none (some t.target) path else emit .added
  | none, none => .error (.corrupt "name came from at least one side")

/-- The differences at some names of two directories, in order. -/
def plainNames (descend : Option H → Option H → String → Except Error (List (FileDiff H)))
    (pathPrefix : String) (before after : List (TreeEntry H)) :
    List String → Except Error (List (FileDiff H))
  | [] => .ok []
  | name :: names => do
    let diffs ← plainEntry lib s opts descend (entryPath pathPrefix name) (findEntry name before)
      (findEntry name after)
    let rest ← plainNames descend pathPrefix before after names
    .ok (diffs ++ rest)

/-- The differences of two directories, of which one may be absent, by a recursion that goes down into
all directories. -/
def plainDiff : (depth : Nat) → Option H → Option H → String → Except Error (List (FileDiff H))
  | 0, _, _, _ => .error (.io "stack overflow")
  | depth + 1, before, after, pathPrefix => do
    let fromEntries ← entriesOf s before
    let toEntries ← entriesOf s after
    plainNames lib s opts (plainDiff depth) pathPrefix fromEntries toEntries
      (unionNames fromEntries toEntries)

variable {s opts}

/-- A directory that is the same on both sides is skipped. -/
theorem diffSubtree_self {depth : Nat} {r : H} (h : Fits s depth r) (pathPrefix : String) :
    diffSubtree lib s opts depth (some r) (some r) pathPrefix = .ok [] := by
  cases depth with
  | zero => exact h.elim
  | succ depth => rw [diffSubtree, if_pos ⟨rfl, rfl⟩]

/-- At a path with the same on both sides nothing is found, if nothing is found in a directory that
is the same on both sides. -/
theorem plainEntry_self {descend : Option H → Option H → String → Except Error (List (FileDiff H))}
    {path : String} {e : TreeEntry H}
    (hd : e.kind = .tree → descend (some e.target) (some e.target) path = .ok []) :
    plainEntry lib s opts descend path (some e) (some e) = .ok [] := by
  unfold plainEntry
  by_cases hk : e.kind = .tree
  · exact (if_pos ⟨hk, hk⟩).trans (hd hk)
  · simp [hk]

/-- Skipping entries that are the same changes nothing, if nothing is found in a directory that is the
same on both sides. -/
theorem plainEntry_eq
    {descend descend' : Option H → Option H → String → Except Error (List (FileDiff H))}
    {path : String} {before after : Option (TreeEntry H)}
    (hd : descend (subdirOf before) (subdirOf after) path =
      descend' (subdirOf before) (subdirOf after) path)
    (hself : ∀ r, subdirOf before = some r → descend' (some r) (some r) path = .ok []) :
    plainEntry lib s opts descend path before after =
      diffEntry lib s opts descend' path before after := by
  have hsome : ∀ {e : TreeEntry H}, e.kind = .tree → subdirOf (some e) = some e.target := by
    intro e hk
    rw [subdirOf, Option.bind_some, if_pos hk]
  unfold plainEntry diffEntry
  rcases before with _ | f <;> rcases after with _ | t <;> dsimp only
  · split_ifs with hk
    · rwa [hsome hk] at hd
    · rfl
  · split_ifs with hk
    · rwa [hsome hk] at hd
    · rfl
  · by_cases htrees : f.kind = .tree ∧ t.kind = .tree
    · rw [hsome htrees.1, hsome htrees.2] at hd
      rw [if_pos htrees, hd]
      split_ifs with hsame
      · rw [← hsame.1]
        exact hself f.target (hsome htrees.1)
      · rfl
    · rw [if_neg htrees, if_neg htrees]
      by_cases hkind : f.kind = t.kind
      · rw [if_neg (not_not.mpr hkind), if_neg (not_not.mpr hkind)]
        exact if_congr (by simp [hkind]) rfl rfl
      · rw [if_pos hkind, if_pos hkind, if_neg fun h => hkind h.2]

theorem plainNames_eq
    {descend descend' : Option H → Option H → String → Except Error (List (FileDiff H))}
    (hopts : opts.paths = []) {pathPrefix : String} {before after : List (TreeEntry H)}
    {names : List String}
    (h : ∀ name, plainEntry lib s opts descend (entryPath pathPrefix name) (findEntry name before)
        (findEntry name after) =
      diffEntry lib s opts descend' (entryPath pathPrefix name) (findEntry name before)
        (findEntry name after)) :
    plainNames lib s opts descend pathPrefix before after names =
      diffNames lib s opts descend' pathPrefix before after names := by
  induction names with
  | nil => rfl
  | cons name names ih =>
    have hpass : opts.passes (entryPath pathPrefix name) = true := by
      simp [DiffOptions.passes, hopts]
    rw [plainNames, diffNames, if_pos hpass, h, ih]

theorem plainNames_self
    {descend : Option H → Option H → String → Except Error (List (FileDiff H))}
    {pathPrefix : String} {entries : List (TreeEntry H)} {names : List String}
    (h : ∀ name ∈ names, plainEntry lib s opts descend (entryPath pathPrefix name)
      (findEntry name entries) (findEntry name entries) = .ok []) :
    plainNames lib s opts descend pathPrefix entries entries names = .ok [] := by
  induction names with
  | nil => rfl
  | cons name names ih =>
    obtain ⟨hname, hnames⟩ := List.forall_mem_cons.mp h
    rw [plainNames, hname, ih hnames]
    rfl

/-- **Skipping what is the same on both sides** changes nothing.

**Proof sketch.** Induction on the depth. Where a directory is skipped the plain walk finds the same
entry on both sides under every name, and nothing in the directories among them. -/
theorem plainDiff_eq (hopts : opts.paths = []) {depth : Nat} {before after : Option H}
    (hb : ∀ r, before = some r → WellStored s r ∧ Fits s depth r)
    (ha : ∀ r, after = some r → WellStored s r ∧ Fits s depth r) (pathPrefix : String) :
    plainDiff lib s opts depth before after pathPrefix =
      diffSubtree lib s opts depth before after pathPrefix := by
  induction depth generalizing before after pathPrefix with
  | zero => rfl
  | succ depth ih =>
    obtain ⟨fromEntries, hfrom, hsorted, hfone, -⟩ := entriesOf_spec fun r hr => (hb r hr).1
    obtain ⟨toEntries, hto, -, htone, -⟩ := entriesOf_spec fun r hr => (ha r hr).1
    rw [plainDiff, diffSubtree, hfrom, hto]
    simp only [bind, Except.bind]
    have hdown := fun name => subdirOf_spec hb name
    split_ifs with hsame
    · obtain ⟨-, rfl⟩ := hsame
      obtain rfl := Except.ok.inj (hfrom.symm.trans hto)
      have hnames : ∀ name ∈ unionNames fromEntries fromEntries,
          plainEntry lib s opts (plainDiff lib s opts depth) (entryPath pathPrefix name)
            (findEntry name fromEntries) (findEntry name fromEntries) = .ok [] := by
        intro name hname
        rw [mem_unionNames hsorted hsorted, or_self] at hname
        obtain ⟨e, he⟩ := Option.ne_none_iff_exists'.mp hname
        rw [he]
        refine plainEntry_self lib fun hk => ?_
        have hsub : subdirOf (entryBelow s before [name]) = some e.target := by
          rw [← hfone, he, subdirOf, Option.bind_some, if_pos hk]
        have hr : ∀ r, some e.target = some r → WellStored s r ∧ Fits s depth r :=
          fun r hr => hdown name r (hsub.trans hr)
        rw [ih hr hr]
        exact diffSubtree_self lib (hdown name _ hsub).2 _
      exact plainNames_self lib hnames
    · refine plainNames_eq lib hopts fun name => ?_
      rw [hfone, htone]
      refine plainEntry_eq lib (ih (hdown name) (subdirOf_spec ha name) _) fun r hr => ?_
      exact diffSubtree_self lib (hdown name r hr).2 _

end Plain

/-! ## In order -/

section Order

/-- The differences are at these paths, which are in order. -/
structure DiffsListed (diffs : List (FileDiff H)) (pathPrefix : String)
    (m m' : List String → Option (TreeEntry H)) (paths : List (List String)) : Prop where
  each : List.Forall₂ (fun d path => DiffAt d (joinPath pathPrefix path) (m path) (m' path)) diffs paths
  ordered : paths.Pairwise (· < ·)

variable (lib : TextLib) {opts : DiffOptions} {m m' : List String → Option (TreeEntry H)}
  {name pathPrefix : String} {diffs : List (FileDiff H)} {paths : List (List String)}

omit [Format H] in
theorem DiffsListed.nil : DiffsListed ([] : List (FileDiff H)) pathPrefix m m' [] :=
  ⟨.nil, List.Pairwise.nil⟩

/-- What is found in two directories is found below their name. -/
theorem DiffsListed.descend (h : DiffsListed diffs (entryPath pathPrefix name)
      (entryBelow s (subdirOf (m [name]))) (entryBelow s (subdirOf (m' [name]))) paths)
    (hbelow : ∀ rest, rest ≠ [] → m (name :: rest) = entryBelow s (subdirOf (m [name])) rest)
    (hbelow' : ∀ rest, rest ≠ [] → m' (name :: rest) = entryBelow s (subdirOf (m' [name])) rest) :
    DiffsListed diffs pathPrefix m m' (paths.map (name :: ·)) where
  each := by
    rw [List.forall₂_map_right_iff]
    refine h.each.imp fun d path hat => ?_
    have hne : path ≠ [] := by
      rintro rfl
      have hkind := hat.kind
      rw [entryBelow_nil, entryBelow_nil] at hkind
      cases hkind
    rw [hbelow path hne, hbelow' path hne]
    exact hat
  ordered := by
    rw [List.pairwise_map]
    exact h.ordered.imp fun hlt => List.cons_lt_cons_iff.mpr (Or.inr ⟨rfl, hlt⟩)

omit [Format H] in
/-- What is found at several names, in order. -/
theorem DiffsListed.append {diffs' : List (FileDiff H)} {paths' : List (List String)}
    (h : DiffsListed diffs pathPrefix m m' paths) (h' : DiffsListed diffs' pathPrefix m m' paths')
    (hhead : ∀ path ∈ paths, path.head? = some name)
    (hlater : ∀ path ∈ paths', ∃ later, path.head? = some later ∧ name < later) :
    DiffsListed (diffs ++ diffs') pathPrefix m m' (paths ++ paths') where
  each := List.rel_append h.each h'.each
  ordered := by
    refine List.pairwise_append.mpr ⟨h.ordered, h'.ordered, fun path hp path' hp' => ?_⟩
    obtain ⟨later, hl, hlt⟩ := hlater path' hp'
    have hn := hhead path hp
    cases path with
    | nil => cases hn
    | cons n rest =>
      cases path' with
      | nil => cases hl
      | cons n' rest' =>
        obtain rfl := Option.some.inj hn
        obtain rfl := Option.some.inj hl
        exact List.cons_lt_cons_iff.mpr (Or.inl hlt)

/-- A difference is what the entries say. -/
theorem diffAt_of_emitChange {path : String} {kind : ChangeKind} {before after : Option (TreeEntry H)}
    {d : FileDiff H} (hk : changedAt before after = some kind)
    (h : emitChange lib s opts path kind before after = .ok d) : DiffAt d path before after := by
  rw [emitChange] at h
  split_ifs at h
  · obtain ⟨fromBytes, -, h⟩ := except_bind_eq_ok.mp h
    obtain ⟨toBytes, -, h⟩ := except_bind_eq_ok.mp h
    split_ifs at h <;> obtain rfl := Except.ok.inj h <;> exact ⟨rfl, hk, rfl, rfl, rfl⟩
  · obtain rfl := Except.ok.inj h
    exact ⟨rfl, hk, rfl, rfl, rfl⟩

/-- What is found at one name is below it, in order. -/
theorem diffEntry_listed
    {descend : Option H → Option H → String → Except Error (List (FileDiff H))}
    (hbelow : ∀ rest, rest ≠ [] → m (name :: rest) = entryBelow s (subdirOf (m [name])) rest)
    (hbelow' : ∀ rest, rest ≠ [] → m' (name :: rest) = entryBelow s (subdirOf (m' [name])) rest)
    (hd : descend (subdirOf (m [name])) (subdirOf (m' [name])) (entryPath pathPrefix name) = .ok diffs →
      ∃ paths, DiffsListed diffs (entryPath pathPrefix name) (entryBelow s (subdirOf (m [name])))
        (entryBelow s (subdirOf (m' [name]))) paths)
    (h : diffEntry lib s opts descend (entryPath pathPrefix name) (m [name]) (m' [name]) = .ok diffs) :
    ∃ paths, DiffsListed diffs pathPrefix m m' paths ∧ ∀ path ∈ paths, path.head? = some name := by
  have hdown : descend (subdirOf (m [name])) (subdirOf (m' [name])) (entryPath pathPrefix name) =
      .ok diffs → ∃ paths, DiffsListed diffs pathPrefix m m' paths ∧
        ∀ path ∈ paths, path.head? = some name := by
    intro hrun
    obtain ⟨paths, hlisted⟩ := hd hrun
    refine ⟨paths.map (name :: ·), hlisted.descend hbelow hbelow', fun path hp => ?_⟩
    obtain ⟨rest, -, rfl⟩ := List.mem_map.mp hp
    rfl
  have hemit : ∀ {kind : ChangeKind}, changedAt (m [name]) (m' [name]) = some kind →
      (emitChange lib s opts (entryPath pathPrefix name) kind (m [name]) (m' [name])).map
        (fun d => [d]) = .ok diffs → ∃ paths, DiffsListed diffs pathPrefix m m' paths ∧
          ∀ path ∈ paths, path.head? = some name := by
    intro kind hk hrun
    cases hone : emitChange lib s opts (entryPath pathPrefix name) kind (m [name]) (m' [name]) with
    | error e =>
      rw [hone] at hrun
      cases hrun
    | ok d =>
      rw [hone] at hrun
      obtain rfl := Except.ok.inj hrun
      refine ⟨[[name]], ⟨.cons (diffAt_of_emitChange lib hk hone) .nil, List.pairwise_singleton _ _⟩,
        fun path hp => ?_⟩
      rw [List.mem_singleton.mp hp]
      rfl
  have hsome : ∀ {e : TreeEntry H}, e.kind = .tree → subdirOf (some e) = some e.target := by
    intro e hk
    rw [subdirOf, Option.bind_some, if_pos hk]
  unfold diffEntry at h
  rcases hf : m [name] with _ | f <;> rcases ht : m' [name] with _ | t <;>
    rw [hf, ht] at h hdown hemit <;> dsimp only at h
  · cases h
  · split_ifs at h with hk
    · rw [hsome hk] at hdown
      exact hdown h
    · exact hemit (by simp [changedAt, hk]) h
  · split_ifs at h with hk
    · rw [hsome hk] at hdown
      exact hdown h
    · exact hemit (by simp [changedAt, hk]) h
  · split_ifs at h with hsame htrees hkinds
    · obtain rfl := Except.ok.inj h
      exact ⟨[], .nil, fun path hp => absurd hp List.not_mem_nil⟩
    · rw [hsome htrees.1, hsome htrees.2] at hdown
      exact hdown h
    · exact hemit (by simp [changedAt, hkinds]) h
    · have hkind := not_not.mp hkinds
      have hk : f.kind ≠ .tree := fun hk => htrees ⟨hk, hkind ▸ hk⟩
      have htarget : f.target ≠ t.target := fun htarget => hsame ⟨htarget, hkind⟩
      exact hemit (by simp [changedAt, hkind, htarget, hkind ▸ hk]) h

theorem diffNames_listed (hopts : opts.paths = [])
    {descend : Option H → Option H → String → Except Error (List (FileDiff H))}
    {before after : List (TreeEntry H)} {names : List String}
    (hb : ∀ name, findEntry name before = m [name]) (ha : ∀ name, findEntry name after = m' [name])
    (hnames : names.Pairwise (· < ·))
    (hentry : ∀ name diffs, diffEntry lib s opts descend (entryPath pathPrefix name) (m [name])
        (m' [name]) = .ok diffs →
      ∃ paths, DiffsListed diffs pathPrefix m m' paths ∧ ∀ path ∈ paths, path.head? = some name)
    (h : diffNames lib s opts descend pathPrefix before after names = .ok diffs) :
    ∃ paths, DiffsListed diffs pathPrefix m m' paths ∧
      ∀ path ∈ paths, ∃ name ∈ names, path.head? = some name := by
  induction names generalizing diffs with
  | nil =>
    obtain rfl := Except.ok.inj h
    exact ⟨[], .nil, fun path hp => absurd hp List.not_mem_nil⟩
  | cons name names ih =>
    obtain ⟨hfirst, hsorted⟩ := List.pairwise_cons.mp hnames
    have hpass : opts.passes (entryPath pathPrefix name) = true := by
      simp [DiffOptions.passes, hopts]
    rw [diffNames, if_pos hpass, hb, ha] at h
    obtain ⟨here, hone, h⟩ := except_bind_eq_ok.mp h
    obtain ⟨rest, hmore, h⟩ := except_bind_eq_ok.mp h
    obtain rfl := Except.ok.inj h
    obtain ⟨paths, hlisted, hhead⟩ := hentry name here hone
    obtain ⟨paths', hlisted', hheads⟩ := ih hsorted hmore
    refine ⟨paths ++ paths', hlisted.append hlisted' hhead fun path hp => ?_, fun path hp => ?_⟩
    · obtain ⟨later, hl, hlh⟩ := hheads path hp
      exact ⟨later, hlh, hfirst later hl⟩
    · rcases List.mem_append.mp hp with hp | hp
      · exact ⟨name, List.mem_cons_self, hhead path hp⟩
      · obtain ⟨n, hn, hnh⟩ := hheads path hp
        exact ⟨n, List.mem_cons_of_mem _ hn, hnh⟩

/-- **What the walk finds** is in the order of paths, component by component. -/
theorem diffSubtree_listed (hopts : opts.paths = []) {depth : Nat} {before after : Option H}
    (hb : ∀ r, before = some r → WellStored s r ∧ Fits s depth r)
    (ha : ∀ r, after = some r → WellStored s r ∧ Fits s depth r)
    (h : diffSubtree lib s opts depth before after pathPrefix = .ok diffs) :
    ∃ paths, DiffsListed diffs pathPrefix (entryBelow s before) (entryBelow s after) paths := by
  induction depth generalizing before after pathPrefix diffs with
  | zero => cases h
  | succ depth ih =>
    rw [diffSubtree] at h
    split_ifs at h
    · obtain rfl := Except.ok.inj h
      exact ⟨[], .nil⟩
    · obtain ⟨fromEntries, hfrom, hfsorted, hfone, hfbelow⟩ := entriesOf_spec fun r hr => (hb r hr).1
      obtain ⟨toEntries, hto, -, htone, htbelow⟩ := entriesOf_spec fun r hr => (ha r hr).1
      rw [hfrom, hto] at h
      have hentry : ∀ name here, diffEntry lib s opts (diffSubtree lib s opts depth)
          (entryPath pathPrefix name) (entryBelow s before [name]) (entryBelow s after [name]) =
            .ok here →
          ∃ paths, DiffsListed here pathPrefix (entryBelow s before) (entryBelow s after) paths ∧
            ∀ path ∈ paths, path.head? = some name := by
        intro name here hone
        refine diffEntry_listed lib (fun rest hrest => ?_) (fun rest hrest => ?_)
          (ih (subdirOf_spec hb name) (subdirOf_spec ha name)) hone
        · rw [hfbelow name rest hrest, hfone, entryBelow_subdirOf]
        · rw [htbelow name rest hrest, htone, entryBelow_subdirOf]
      obtain ⟨paths, hlisted, -⟩ := diffNames_listed lib hopts hfone htone
        (unionNames_pairwise hfsorted _) hentry h
      exact ⟨paths, hlisted⟩

end Order

end Tig
