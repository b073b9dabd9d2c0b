import Tig.Fs.Diff
import Tig.Fs.StoredTree

set_option relaxedAutoImplicit false
set_option autoImplicit false

/-!
# A comparison, path by path

A comparison of two stored trees reports a path exactly when both trees let the walk get there,
by directories or by nothing at all, and have different entries there that are not two
directories. What it reports of a path is what the two trees have at it.

## Main definitions

* `Tig.changedAt` — what is reported of a path with the given entries.
* `Tig.DiffAt` — a reported difference is that of the entries at a path.

## Main results

* `Tig.diffTrees_exact` — which paths a comparison reports, and what it says of them.
-/

namespace Tig

variable {H : Type} [LinearOrder H] [Format H] {s : ObjectStore H}

/-! ## Entries by name -/

section Entries

omit [LinearOrder H] [Format H] in
/-- Collecting sorted entries by name: an entry that is collected stands before one found
earlier. -/
theorem findEntry_foldl_upsertEntry {entries : List (TreeEntry H)}
    (hs : entries.Pairwise fun a b => a.name < b.name) (found : List (TreeEntry H))
    (name : String) :
    findEntry name (entries.foldl (fun found e => upsertEntry e found) found) =
      (findEntry name entries).or (findEntry name found) := by
  induction entries generalizing found with
  | nil => rfl
  | cons a entries ih =>
    obtain ⟨ha, hs'⟩ := List.pairwise_cons.mp hs
    rw [List.foldl_cons, ih hs', findEntry_upsertEntry, findEntry]
    have hlater : ¬ a.name < name → findEntry name entries = none := by
      intro hlt
      rw [Option.eq_none_iff_forall_ne_some]
      intro e he
      obtain ⟨hmem, rfl⟩ := (findEntry_eq_some hs').mp he
      exact hlt (ha e hmem)
    rcases lt_trichotomy a.name name with hlt | rfl | hgt
    · rw [if_neg hlt.ne', if_pos hlt]
    · rw [if_pos rfl, if_neg (lt_irrefl _), if_pos rfl, hlater (lt_irrefl _)]
      rfl
    · rw [if_neg hgt.ne, if_neg (not_lt.mpr hgt.le), if_neg hgt.ne', hlater (not_lt.mpr hgt.le)]

omit [LinearOrder H] [Format H] in
theorem pairwise_foldl_upsertEntry (entries : List (TreeEntry H)) {found : List (TreeEntry H)}
    (hs : found.Pairwise fun a b => a.name < b.name) :
    (entries.foldl (fun found e => upsertEntry e found) found).Pairwise
      fun a b => a.name < b.name := by
  induction entries generalizing found with
  | nil => exact hs
  | cons a entries ih => exact ih (pairwise_upsertEntry a hs)

omit [LinearOrder H] [Format H] in
/-- A name is walked when there is an entry for it on either side. -/
theorem mem_unionNames {before after : List (TreeEntry H)}
    (hb : before.Pairwise fun a b => a.name < b.name)
    (ha : after.Pairwise fun a b => a.name < b.name) {name : String} :
    name ∈ unionNames before after ↔
      findEntry name before ≠ none ∨ findEntry name after ≠ none := by
  have hsorted := pairwise_foldl_upsertEntry after hb
  have hfind := findEntry_foldl_upsertEntry ha before name
  have hmem : name ∈ unionNames before after ↔
      findEntry name (after.foldl (fun found e => upsertEntry e found) before) ≠ none := by
    rw [unionNames, List.mem_map, Option.ne_none_iff_exists']
    exact exists_congr fun e => (findEntry_eq_some hsorted).symm
  rw [hmem, hfind]
  cases findEntry name after <;> cases findEntry name before <;> simp

end Entries

/-- What a tree has at a path, if there is a tree. -/
def entryBelow (s : ObjectStore H) (root : Option H) (path : List String) :
    Option (TreeEntry H) :=
  root.bind fun tree => entryAt s tree path

/-- The entries of a stored tree, and of no tree, are those that it has at paths of one step. -/
theorem entriesOf_spec {root : Option H} (hroot : ∀ r, root = some r → WellStored s r) :
    ∃ entries, entriesOf s root = .ok entries ∧
      (entries.Pairwise fun a b => a.name < b.name) ∧
      (∀ name, findEntry name entries = entryBelow s root [name]) ∧
      ∀ name rest, rest ≠ [] → entryBelow s root (name :: rest) =
        (findEntry name entries).bind fun e =>
          if e.kind = .tree then entryAt s e.target rest else none := by
  cases root with
  | none => exact ⟨[], rfl, List.Pairwise.nil, fun _ => rfl, fun _ _ _ => rfl⟩
  | some r =>
    obtain ⟨_, t, ht, hsorted, -⟩ := (hroot r rfl).whole
    have hfind : ∀ name, findEntry name (entriesByName t.entries) = t.get name := fun name => by
      rw [entriesByName, findEntry_foldl_upsertEntry hsorted]
      exact Option.or_none
    refine ⟨entriesByName t.entries, ?_, pairwise_foldl_upsertEntry _ List.Pairwise.nil,
      fun name => ?_, fun name rest hrest => ?_⟩
    · rw [entriesOf, ht]
      rfl
    · rw [hfind, entryBelow, Option.bind_some, entryAt_cons ht]
      cases t.get name <;> rfl
    · rw [hfind, entryBelow, Option.bind_some, entryAt_cons ht]
      refine Option.bind_congr fun e _ => ?_
      rw [if_neg hrest]

/-! ## What is reported -/

/-- What is reported of a path with these entries, unless the walk goes on below it. -/
def changedAt (before after : Option (TreeEntry H)) : Option ChangeKind :=
  match before, after with
  | some f, some t =>
    if f.kind ≠ t.kind then some (.typeChanged f.kind t.kind)
    else if f.kind = .tree ∨ f.target = t.target then none
    else some .modified
  | some f, none => if f.kind = .tree then none else some .removed
  | none, some t => if t.kind = .tree then none else some .added
  | none, none => none

/-- The difference is reported at this path, and is that of these entries. -/
structure DiffAt (d : FileDiff H) (path : String) (before after : Option (TreeEntry H)) : Prop where
  path : d.path = path
  kind : changedAt before after = some d.kind
  entryKind : d.entryKind = shownKind before after
  fromTarget : d.fromTarget = before.map TreeEntry.target
  toTarget : d.toTarget = after.map TreeEntry.target

/-- The walk gets to the path: above it are directories or nothing. -/
def OpenTo (m : List String → Option (TreeEntry H)) (path : List String) : Prop :=
  ∀ above, above <+: path → above ≠ path → ∀ e, m above = some e → e.kind = .tree

/-- The text of a path below another one. -/
def joinPath (pathPrefix : String) (path : List String) : String := path.foldl entryPath pathPrefix

omit [LinearOrder H] [Format H] in
/-- The walk gets to every path of one step. -/
theorem openTo_singleton (m : List String → Option (TreeEntry H)) (h : m [] = none)
    (name : String) : OpenTo m [name] := by
  intro above hpre hne e he
  cases above with
  | nil =>
    rw [h] at he
    cases he
  | cons n rest =>
    obtain ⟨rfl, hrest⟩ := List.cons_prefix_cons.mp hpre
    exact absurd (by rw [List.prefix_nil.mp hrest]) hne

omit [LinearOrder H] [Format H] in
/-- The walk gets to a longer path through its first step. -/
theorem openTo_cons {m : List String → Option (TreeEntry H)} (h : m [] = none) {name : String}
    {rest : List String} (hrest : rest ≠ []) :
    OpenTo m (name :: rest) ↔
      (∀ e, m [name] = some e → e.kind = .tree) ∧
        ∀ above, above ≠ [] → above <+: rest → above ≠ rest → ∀ e, m (name :: above) = some e →
          e.kind = .tree := by
  constructor
  · intro ho
    refine ⟨ho [name] (by simp) (by simpa using hrest.symm), fun above _ hpre hne => ?_⟩
    exact ho (name :: above) (List.cons_prefix_cons.mpr ⟨rfl, hpre⟩) (by simpa using hne)
  · rintro ⟨hone, hmore⟩ above hpre hne e he
    cases above with
    | nil =>
      rw [h] at he
      cases he
    | cons n above =>
      obtain ⟨rfl, hrest'⟩ := List.cons_prefix_cons.mp hpre
      by_cases hnil : above = []
      · subst hnil
        exact hone e he
      · exact hmore above hnil hrest' (fun heq => hne (by rw [heq])) e he

/-! ## One difference -/

section Emit

variable (lib : TextLib) {opts : DiffOptions}

/-- The file that an entry points at can be read, if there is one. -/
def FileRead (s : ObjectStore H) (entry : Option (TreeEntry H)) : Prop :=
  ∀ e, entry = some e → e.kind = .file → ∃ bytes, targetBytes s (some e) = .ok bytes

omit [Format H] in
/-- When contents are compared, both sides are files. -/
theorem file_of_changedAt {kind : ChangeKind} {before after : Option (TreeEntry H)}
    (hk : changedAt before after = some kind)
    (hc : kind.comparesFiles (shownKind before after) = true) (e : TreeEntry H)
    (he : before = some e ∨ after = some e) : e.kind = .file := by
  have hfile := ChangeKind.file_of_comparesFiles hc
  rcases before with _ | f <;> rcases after with _ | t
  · simp at he
  · obtain rfl : t = e := by simpa using he
    exact hfile
  · obtain rfl : f = e := by simpa using he
    exact hfile
  · have hsame : f.kind = t.kind := by
      by_contra hne
      obtain rfl : ChangeKind.typeChanged f.kind t.kind = kind := by
        simpa [changedAt, hne] using hk
      cases hc
    rcases he with he | he
    · obtain rfl := Option.some.inj he
      exact hsame.trans hfile
    · obtain rfl := Option.some.inj he
      exact hfile

/-- A difference is found when the files can be read. -/
theorem emitChange_spec (path : String) {kind : ChangeKind} {before after : Option (TreeEntry H)}
    (hk : changedAt before after = some kind) (hb : FileRead s before) (ha : FileRead s after) :
    ∃ d, emitChange lib s opts path kind before after = .ok d ∧ DiffAt d path before after := by
  unfold emitChange
  dsimp only
  split_ifs with hc
  · have hfile := file_of_changedAt hk (Bool.and_eq_true_iff.mp hc).1
    obtain ⟨fromBytes, hf⟩ : ∃ bytes, targetBytes s before = .ok bytes := by
      cases before with
      | none => exact ⟨[], rfl⟩
      | some e => exact hb e rfl (hfile e (Or.inl rfl))
    obtain ⟨toBytes, ht⟩ : ∃ bytes, targetBytes s after = .ok bytes := by
      cases after with
      | none => exact ⟨[], rfl⟩
      | some e => exact ha e rfl (hfile e (Or.inr rfl))
    simp only [hf, ht, bind, Except.bind]
    split_ifs
    · exact ⟨_, rfl, rfl, hk, rfl, rfl, rfl⟩
    · exact ⟨_, rfl, rfl, hk, rfl, rfl, rfl⟩
  · exact ⟨_, rfl, rfl, hk, rfl, rfl, rfl⟩

end Emit

/-! ## The walk -/

/-- Of the paths in `P`, those that the walk gets to and that changed are reported, and no
others. -/
structure DiffReports (P : List String → Prop) (diffs : List (FileDiff H)) (pathPrefix : String)
    (m m' : List String → Option (TreeEntry H)) : Prop where
  sound : ∀ d ∈ diffs, ∃ path, P path ∧ OpenTo m path ∧ OpenTo m' path ∧
    DiffAt d (joinPath pathPrefix path) (m path) (m' path)
  complete : ∀ path, P path → OpenTo m path → OpenTo m' path →
    changedAt (m path) (m' path) ≠ none →
      ∃ d ∈ diffs, DiffAt d (joinPath pathPrefix path) (m path) (m' path)

/-- The directory that an entry is. -/
def subdirOf (entry : Option (TreeEntry H)) : Option H :=
  entry.bind fun e => if e.kind = .tree then some e.target else none

/-- The entry is a directory, if there is one. -/
def DirOrNone (entry : Option (TreeEntry H)) : Prop := ∀ e, entry = some e → e.kind = .tree

omit [Format H] in
theorem changedAt_self (entry : Option (TreeEntry H)) : changedAt entry entry = none := by
  cases entry <;> simp [changedAt]

omit [Format H] in
theorem changedAt_dirs {before after : Option (TreeEntry H)} (hb : DirOrNone before)
    (ha : DirOrNone after) : changedAt before after = none := by
  rcases before with _ | f <;> rcases after with _ | t
  · rfl
  · simp [changedAt, ha t rfl]
  · simp [changedAt, hb f rfl]
  · simp [changedAt, hb f rfl, ha t rfl]

section Step

variable {m m' : List String → Option (TreeEntry H)} {name pathPrefix : String}
  {diffs : List (FileDiff H)}

/-- The walk gets below a directory, or below nothing, as it does inside. -/
theorem openTo_cons_iff (hm : m [] = none)
    (hbelow : ∀ rest, rest ≠ [] → m (name :: rest) = entryBelow s (subdirOf (m [name])) rest)
    {rest : List String} (hrest : rest ≠ []) :
    OpenTo m (name :: rest) ↔
      DirOrNone (m [name]) ∧ OpenTo (entryBelow s (subdirOf (m [name]))) rest := by
  rw [openTo_cons hm hrest]
  refine and_congr_right fun _ => ⟨fun h above hpre hne e he => ?_, fun h above hnil hpre hne e he => ?_⟩
  · have hnil : above ≠ [] := by
      rintro rfl
      unfold entryBelow at he
      cases hs : subdirOf (m [name]) <;> simp [hs, entryAt] at he
    exact h above hnil hpre hne e (by rw [hbelow above hnil, he])
  · rw [hbelow above hnil] at he
    exact h above hpre hne e he

/-- What is reported inside two directories is reported below their name. -/
theorem DiffReports.descend (hm : m [] = none) (hm' : m' [] = none)
    (hbelow : ∀ rest, rest ≠ [] → m (name :: rest) = entryBelow s (subdirOf (m [name])) rest)
    (hbelow' : ∀ rest, rest ≠ [] → m' (name :: rest) = entryBelow s (subdirOf (m' [name])) rest)
    (hd : DirOrNone (m [name])) (hd' : DirOrNone (m' [name]))
    (h : DiffReports (fun _ => True) diffs (entryPath pathPrefix name)
      (entryBelow s (subdirOf (m [name]))) (entryBelow s (subdirOf (m' [name])))) :
    DiffReports (fun path => path.head? = some name) diffs pathPrefix m m' := by
  have hroot : ∀ root : Option H, entryBelow s root [] = none := by
    intro root
    cases root <;> rfl
  constructor
  · intro d hdiff
    obtain ⟨rest, -, ho, ho', hat⟩ := h.sound d hdiff
    have hrest : rest ≠ [] := by
      rintro rfl
      have hk := hat.kind
      rw [hroot, hroot] at hk
      cases hk
    refine ⟨name :: rest, rfl, ?_, ?_, ?_⟩
    · exact (openTo_cons_iff hm hbelow hrest).mpr ⟨hd, ho⟩
    · exact (openTo_cons_iff hm' hbelow' hrest).mpr ⟨hd', ho'⟩
    · rw [hbelow rest hrest, hbelow' rest hrest]
      exact hat
  · intro path hhead ho ho' hchanged
    cases path with
    | nil => cases hhead
    | cons n rest =>
      obtain rfl := Option.some.inj hhead
      have hrest : rest ≠ [] := by
        rintro rfl
        exact hchanged (changedAt_dirs hd hd')
      rw [hbelow rest hrest, hbelow' rest hrest] at hchanged ⊢
      exact h.complete rest trivial ((openTo_cons_iff hm hbelow hrest).mp ho).2
        ((openTo_cons_iff hm' hbelow' hrest).mp ho').2 hchanged

omit [Format H] in
/-- Where one side is no directory, nothing is reported below the name. -/
theorem DiffReports.leaf (hm : m [] = none) (hm' : m' [] = none)
    (hleaf : ¬ (DirOrNone (m [name]) ∧ DirOrNone (m' [name])))
    (h : diffs = [] ∧ changedAt (m [name]) (m' [name]) = none ∨
      ∃ d, diffs = [d] ∧ DiffAt d (entryPath pathPrefix name) (m [name]) (m' [name])) :
    DiffReports (fun path => path.head? = some name) diffs pathPrefix m m' := by
  constructor
  · intro d hd
    rcases h with ⟨rfl, -⟩ | ⟨d', rfl, hat⟩
    · cases hd
    · obtain rfl := List.mem_singleton.mp hd
      exact ⟨[name], rfl, openTo_singleton m hm name, openTo_singleton m' hm' name, hat⟩
  · intro path hhead ho ho' hchanged
    cases path with
    | nil => cases hhead
    | cons n rest =>
      obtain rfl := Option.some.inj hhead
      by_cases hrest : rest = []
      · subst hrest
        rcases h with ⟨-, hnone⟩ | ⟨d, rfl, hat⟩
        · exact absurd hnone hchanged
        · exact ⟨d, List.mem_singleton_self d, hat⟩
      · exact absurd ⟨((openTo_cons hm hrest).mp ho).1, ((openTo_cons hm' hrest).mp ho').1⟩ hleaf

end Step

section Walk

variable (lib : TextLib) {opts : DiffOptions}
  {descend : Option H → Option H → String → Except Error (List (FileDiff H))}
  {m m' : List String → Option (TreeEntry H)}

/-- A difference that is found is reported by itself. -/
theorem emitted_spec (hm : m [] = none) (hm' : m' [] = none) {name pathPrefix : String}
    (hread : FileRead s (m [name])) (hread' : FileRead s (m' [name]))
    (hleaf : ¬ (DirOrNone (m [name]) ∧ DirOrNone (m' [name]))) {kind : ChangeKind}
    (hk : changedAt (m [name]) (m' [name]) = some kind) :
    ∃ diffs, ((emitChange lib s opts (entryPath pathPrefix name) kind (m [name]) (m' [name])).map
        fun d => [d]) = .ok diffs ∧
      DiffReports (fun path => path.head? = some name) diffs pathPrefix m m' := by
  obtain ⟨d, hd, hat⟩ : ∃ d, emitChange lib s opts (entryPath pathPrefix name) kind (m [name])
      (m' [name]) = .ok d ∧ DiffAt d (entryPath pathPrefix name) (m [name]) (m' [name]) :=
    emitChange_spec lib _ hk hread hread'
  rw [hd]
  exact ⟨[d], rfl, .leaf hm hm' hleaf (Or.inr ⟨d, rfl, hat⟩)⟩

/-- What one name makes the walk report. -/
theorem diffEntry_spec (hm : m [] = none) (hm' : m' [] = none) {name pathPrefix : String}
    (hbelow : ∀ rest, rest ≠ [] → m (name :: rest) = entryBelow s (subdirOf (m [name])) rest)
    (hbelow' : ∀ rest, rest ≠ [] → m' (name :: rest) = entryBelow s (subdirOf (m' [name])) rest)
    (hread : FileRead s (m [name])) (hread' : FileRead s (m' [name]))
    (hone : m [name] ≠ none ∨ m' [name] ≠ none)
    (hd : subdirOf (m [name]) ≠ none ∨ subdirOf (m' [name]) ≠ none →
      ∃ diffs, descend (subdirOf (m [name])) (subdirOf (m' [name])) (entryPath pathPrefix name) =
          .ok diffs ∧ DiffReports (fun _ => True) diffs (entryPath pathPrefix name)
            (entryBelow s (subdirOf (m [name]))) (entryBelow s (subdirOf (m' [name])))) :
    ∃ diffs, diffEntry lib s opts descend (entryPath pathPrefix name) (m [name]) (m' [name]) =
        .ok diffs ∧ DiffReports (fun path => path.head? = some name) diffs pathPrefix m m' := by
  have hemit (hleaf : ¬ (DirOrNone (m [name]) ∧ DirOrNone (m' [name]))) {kind : ChangeKind}
      (hk : changedAt (m [name]) (m' [name]) = some kind) :
      ∃ diffs, ((emitChange lib s opts (entryPath pathPrefix name) kind (m [name])
          (m' [name])).map fun d => [d]) = .ok diffs ∧
        DiffReports (fun path => path.head? = some name) diffs pathPrefix m m' :=
    emitted_spec lib hm hm' hread hread' hleaf hk
  have hdown : subdirOf (m [name]) ≠ none ∨ subdirOf (m' [name]) ≠ none → DirOrNone (m [name]) →
      DirOrNone (m' [name]) → ∃ diffs, descend (subdirOf (m [name])) (subdirOf (m' [name]))
          (entryPath pathPrefix name) = .ok diffs ∧
        DiffReports (fun path => path.head? = some name) diffs pathPrefix m m' := by
    intro hone hdir hdir'
    obtain ⟨diffs, hdiffs, hr⟩ := hd hone
    exact ⟨diffs, hdiffs, .descend hm hm' hbelow hbelow' hdir hdir' hr⟩
  have hsome : ∀ {e : TreeEntry H}, e.kind = .tree → subdirOf (some e) = some e.target := by
    intro e hk
    rw [subdirOf, Option.bind_some, if_pos hk]
  have hdirs : ∀ e : TreeEntry H, DirOrNone (some e) ↔ e.kind = .tree :=
    fun e => ⟨fun h => h e rfl, fun h e' he' => Option.some.inj he' ▸ h⟩
  have hnone : DirOrNone (none : Option (TreeEntry H)) := fun e he => by cases he
  unfold diffEntry
  rcases hf : m [name] with _ | f <;> rcases ht : m' [name] with _ | t <;>
    rw [hf, ht] at hemit hdown <;> dsimp only
  · rw [hf, ht] at hone
    simp at hone
  · split_ifs with hk
    · rw [hsome hk] at hdown
      exact hdown (Or.inr (Option.some_ne_none _)) hnone ((hdirs t).mpr hk)
    · exact hemit (fun h => hk ((hdirs t).mp h.2)) (by simp [changedAt, hk])
  · split_ifs with hk
    · rw [hsome hk] at hdown
      exact hdown (Or.inl (Option.some_ne_none _)) ((hdirs f).mpr hk) hnone
    · exact hemit (fun h => hk ((hdirs f).mp h.1)) (by simp [changedAt, hk])
  · split_ifs with hsame htrees hkinds
    · obtain ⟨htarget, hkind⟩ := hsame
      refine ⟨[], rfl, ?_⟩
      by_cases hk : t.kind = .tree
      · -- the same directory on both sides
        refine .descend hm hm' hbelow hbelow' (by rw [hf, hdirs, hkind, hk]) (by rw [ht, hdirs, hk]) ?_
        rw [hf, ht, hsome hk, hsome (hkind.trans hk), htarget]
        exact ⟨fun d hd => (by cases hd), fun path _ _ _ hc => absurd (changedAt_self _) hc⟩
      · refine .leaf hm hm' (fun h => hk ((hdirs t).mp (ht ▸ h.2))) (Or.inl ⟨rfl, ?_⟩)
        simp [hf, ht, changedAt, hkind, htarget]
    · rw [hsome htrees.1, hsome htrees.2] at hdown
      exact hdown (Or.inl (Option.some_ne_none _)) ((hdirs f).mpr htrees.1) ((hdirs t).mpr htrees.2)
    · exact hemit (fun h => hkinds (((hdirs f).mp h.1).trans ((hdirs t).mp h.2).symm))
        (by simp [changedAt, hkinds])
    · have hkind := not_not.mp hkinds
      have hk : f.kind ≠ .tree := fun h => htrees ⟨h, hkind ▸ h⟩
      have htarget : f.target ≠ t.target := fun h => hsame ⟨h, hkind⟩
      exact hemit (fun h => hk ((hdirs f).mp h.1)) (by simp [changedAt, hkind, htarget, hkind ▸ hk])

/-- What the names of two directories make the walk report. -/
theorem diffNames_spec (hopts : opts.paths = []) {pathPrefix : String} {before after : List (TreeEntry H)}
    (hb : ∀ name, findEntry name before = m [name]) (ha : ∀ name, findEntry name after = m' [name])
    (names : List String)
    (hnames : ∀ name ∈ names, ∃ diffs,
      diffEntry lib s opts descend (entryPath pathPrefix name) (m [name]) (m' [name]) = .ok diffs ∧
        DiffReports (fun path => path.head? = some name) diffs pathPrefix m m') :
    ∃ diffs, diffNames lib s opts descend pathPrefix before after names = .ok diffs ∧
      DiffReports (fun path => ∃ name ∈ names, path.head? = some name) diffs pathPrefix m m' := by
  induction names with
  | nil => exact ⟨[], rfl, fun d hd => (by cases hd), fun path ⟨_, hn, _⟩ => by cases hn⟩
  | cons name names ih =>
    obtain ⟨⟨diffs, hdiffs, hr⟩, hrest⟩ := List.forall_mem_cons.mp hnames
    obtain ⟨diffs', hdiffs', hr'⟩ := ih hrest
    refine ⟨diffs ++ diffs', ?_, fun d hd => ?_, fun path ⟨n, hn, hhead⟩ ho ho' hc => ?_⟩
    · have hpass : opts.passes (entryPath pathPrefix name) = true := by
        simp [DiffOptions.passes, hopts]
      rw [diffNames, if_pos hpass, hb, ha, hdiffs, hdiffs']
      rfl
    · rcases List.mem_append.mp hd with hd | hd
      · obtain ⟨path, hhead, h⟩ := hr.sound d hd
        exact ⟨path, ⟨name, List.mem_cons_self, hhead⟩, h⟩
      · obtain ⟨path, ⟨n, hn, hhead⟩, h⟩ := hr'.sound d hd
        exact ⟨path, ⟨n, List.mem_cons_of_mem _ hn, hhead⟩, h⟩
    · rcases List.mem_cons.mp hn with rfl | hn
      · obtain ⟨d, hd, hat⟩ := hr.complete path hhead ho ho' hc
        exact ⟨d, List.mem_append_left _ hd, hat⟩
      · obtain ⟨d, hd, hat⟩ := hr'.complete path ⟨n, hn, hhead⟩ ho ho' hc
        exact ⟨d, List.mem_append_right _ hd, hat⟩

theorem entryBelow_nil (root : Option H) : entryBelow s root [] = none := by
  cases root <;> rfl

/-- What is below an entry that is a directory. -/
theorem entryBelow_subdirOf (entry : Option (TreeEntry H)) (rest : List String) :
    entryBelow s (subdirOf entry) rest =
      entry.bind fun e => if e.kind = .tree then entryAt s e.target rest else none := by
  cases entry with
  | none => rfl
  | some e =>
    rw [Option.bind_some, subdirOf, Option.bind_some]
    split_ifs with hk
    · rfl
    · rfl

/-- The directories of stored trees are stored, and are less deep. -/
theorem subdirOf_spec {depth : Nat} {root : Option H}
    (h : ∀ r, root = some r → WellStored s r ∧ Fits s (depth + 1) r) (name : String) (r : H)
    (hr : subdirOf (entryBelow s root [name]) = some r) : WellStored s r ∧ Fits s depth r := by
  unfold subdirOf at hr
  obtain ⟨e, he, hdir⟩ := Option.bind_eq_some_iff.mp hr
  obtain ⟨tree, rfl, hentry⟩ := Option.bind_eq_some_iff.mp he
  split_ifs at hdir with hk
  obtain rfl := Option.some.inj hdir
  obtain ⟨hstored, t, ht, hdirs⟩ := h tree rfl
  have hget : t.get name = some e := by
    rw [entryAt_cons ht] at hentry
    simpa using hentry
  exact ⟨hstored.subdir ht hget hk, hdirs e (mem_of_findEntry hget) hk⟩

/-- The files of stored trees can be read. -/
theorem fileRead_entryBelow {root : Option H} (h : ∀ r, root = some r → WellStored s r)
    (path : List String) : FileRead s (entryBelow s root path) := by
  intro e he hk
  obtain ⟨tree, rfl, hentry⟩ := Option.bind_eq_some_iff.mp he
  obtain ⟨blob, hblob⟩ := (h tree rfl).files path e hentry hk
  refine ⟨blob.bytes, ?_⟩
  rw [targetBytes, hblob]
  rfl

/-- **What the walk reports** of two directories, of which one may be absent.

**Proof sketch.** Induction on the depth. Equal directories have nothing to report; otherwise every
name that either side has is walked, and what is reported of it comes from the entries at the name
or, where these are directories, from the walk one level down. -/
theorem diffSubtree_spec (hopts : opts.paths = []) {depth : Nat} {before after : Option H}
    (hb : ∀ r, before = some r → WellStored s r ∧ Fits s depth r)
    (ha : ∀ r, after = some r → WellStored s r ∧ Fits s depth r)
    (hone : before ≠ none ∨ after ≠ none) (pathPrefix : String) :
    ∃ diffs, diffSubtree lib s opts depth before after pathPrefix = .ok diffs ∧
      DiffReports (fun _ => True) diffs pathPrefix (entryBelow s before) (entryBelow s after) := by
  induction depth generalizing before after pathPrefix with
  | zero =>
    rcases hone with h | h
    · obtain ⟨r, rfl⟩ := Option.ne_none_iff_exists'.mp h
      exact (hb r rfl).2.elim
    · obtain ⟨r, rfl⟩ := Option.ne_none_iff_exists'.mp h
      exact (ha r rfl).2.elim
  | succ depth ih =>
    rw [diffSubtree]
    split_ifs with hsame
    · obtain ⟨-, rfl⟩ := hsame
      exact ⟨[], rfl, fun d hd => (by cases hd),
        fun path _ _ _ hc => absurd (changedAt_self _) hc⟩
    · obtain ⟨fromEntries, hfrom, hfsorted, hfone, hfbelow⟩ := entriesOf_spec fun r hr => (hb r hr).1
      obtain ⟨toEntries, hto, htsorted, htone, htbelow⟩ := entriesOf_spec fun r hr => (ha r hr).1
      simp only [hfrom, hto, bind, Except.bind]
      have hfdown := fun name rest hrest =>
        (hfbelow name rest hrest).trans (entryBelow_subdirOf _ rest).symm
      have htdown := fun name rest hrest =>
        (htbelow name rest hrest).trans (entryBelow_subdirOf _ rest).symm
      have hnames : ∀ name ∈ unionNames fromEntries toEntries, ∃ diffs,
          diffEntry lib s opts (diffSubtree lib s opts depth) (entryPath pathPrefix name)
              (entryBelow s before [name]) (entryBelow s after [name]) = .ok diffs ∧
            DiffReports (fun path => path.head? = some name) diffs pathPrefix (entryBelow s before)
              (entryBelow s after) := by
        intro name hname
        rw [mem_unionNames hfsorted htsorted, hfone, htone] at hname
        refine diffEntry_spec lib (entryBelow_nil before) (entryBelow_nil after) (fun rest hrest => ?_)
          (fun rest hrest => ?_) (fileRead_entryBelow (fun r hr => (hb r hr).1) _)
          (fileRead_entryBelow (fun r hr => (ha r hr).1) _) hname fun hone => ?_
        · rw [hfdown name rest hrest, hfone]
        · rw [htdown name rest hrest, htone]
        · exact ih (subdirOf_spec hb name) (subdirOf_spec ha name) hone _
      obtain ⟨diffs, hdiffs, hr⟩ := diffNames_spec lib hopts hfone htone
        (unionNames fromEntries toEntries) hnames
      refine ⟨diffs, hdiffs, fun d hd => ?_, fun path _ ho ho' hc => ?_⟩
      · obtain ⟨path, -, h⟩ := hr.sound d hd
        exact ⟨path, trivial, h⟩
      · refine hr.complete path ?_ ho ho' hc
        cases path with
        | nil =>
          rw [entryBelow_nil, entryBelow_nil] at hc
          exact absurd rfl hc
        | cons name rest =>
          -- a path at which either side has something starts with one of the names
          refine ⟨name, ?_, rfl⟩
          rw [mem_unionNames hfsorted htsorted, hfone, htone]
          by_contra hneither
          obtain ⟨hf, ht⟩ := not_or.mp hneither
          rw [not_not] at hf ht
          by_cases hrest : rest = []
          · subst hrest
            rw [hf, ht] at hc
            exact hc rfl
          · rw [hfdown name rest hrest, htdown name rest hrest, hfone, htone, hf, ht] at hc
            exact hc rfl

/-- **What a comparison reports.** With enough stack it returns, and it reports the paths that the
walk gets to and that changed. -/
theorem diffTrees_exact (hopts : opts.paths = []) {a b : H} (ha : WellStored s a)
    (hb : WellStored s b) : ∃ depth₀, ∀ depth, depth₀ ≤ depth →
      ∃ diffs, diffTrees lib s opts depth a b = .ok diffs ∧
        DiffReports (fun _ => True) diffs "" (entryAt s a) (entryAt s b) := by
  obtain ⟨da, hda⟩ := ha.whole.fits
  obtain ⟨db, hdb⟩ := hb.whole.fits
  refine ⟨max da db, fun depth hle => ?_⟩
  rw [diffTrees]
  split_ifs with hab
  · subst hab
    exact ⟨[], rfl, fun d hd => (by cases hd), fun path _ _ _ hc => absurd (changedAt_self _) hc⟩
  · have hone : some a ≠ none ∨ some b ≠ none := Or.inl (Option.some_ne_none a)
    refine diffSubtree_spec lib hopts (fun r hr => ?_) (fun r hr => ?_) hone ""
    · obtain rfl := Option.some.inj hr
      exact ⟨ha, hda.mono (le_trans (le_max_left da db) hle)⟩
    · obtain rfl := Option.some.inj hr
      exact ⟨hb, hdb.mono (le_trans (le_max_right da db) hle)⟩

end Walk

end Tig
