import Mathlib.Algebra.BigOperators.Group.Finset.Basic
import Tig.Core.Plain
import Tig.Store.Gc

set_option relaxedAutoImplicit false
set_option autoImplicit false

/-!
# Exact collections

A collection of garbage removes exactly the stored objects that no root reaches, and reports what
it did. A dry run reports the same, and after a collection there is nothing to remove.

## Main definitions

* `Tig.Reports` — what the summary of a collection says of the repository.
* `Tig.ExactCollection` — all that is promised of a collection that succeeds.

## Main results

* `Tig.collectGarbage_exact` — a collection fails with nothing removed or is exact.
-/

namespace Tig

open Program

variable {H : Type} [LinearOrder H] [Format H]

/-! ## What is kept depends on what is kept -/

/-- The size of an object file. -/
def fileSize (s : ObjectStore H) (h : H) : Nat := ((s.lookup h).getD []).length

/-- A repository with the same roots, in which the kept objects are as before, keeps the same. -/
theorem kept_congr {opts : GcOptions} {repo repo' : Repo H}
    (hroot : ∀ h, IsRoot opts repo' h ↔ IsRoot opts repo h)
    (hobj : ∀ h, Kept opts repo h → repo'.objects.lookup h = repo.objects.lookup h) (h : H) :
    Kept opts repo' h ↔ Kept opts repo h := by
  unfold Kept
  refine exists_congr fun r => ?_
  rw [hroot r]
  refine and_congr_right fun hr => Marking.Graph.reaches_congr fun u hu => ?_
  exact referents_congr (hobj u ⟨r, hr, hu⟩)

omit [LinearOrder H] [Format H] in
theorem isRoot_congr {opts : GcOptions} {repo repo' : Repo H} (hrefs : repo'.refs = repo.refs)
    (hlog : repo'.oplog = repo.oplog) (h : H) : IsRoot opts repo' h ↔ IsRoot opts repo h := by
  rw [IsRoot, IsRoot, hrefs, hlog]

/-! ## Reports -/

/-- The summary counts the roots, the stored objects that are kept and those that are not, and
gives the size of the files of the latter. -/
structure Reports (opts : GcOptions) (repo : Repo H) (summary : GcSummary) : Prop where
  roots : ∃ roots : Finset H, (∀ h, h ∈ roots ↔ IsRoot opts repo h) ∧ summary.roots = roots.card
  kept : ∃ kept : Finset H, (∀ h, h ∈ kept ↔ h ∈ repo.objects ∧ Kept opts repo h) ∧
    summary.kept = kept.card
  removed : ∃ removed : Finset H, (∀ h, h ∈ removed ↔ h ∈ repo.objects ∧ ¬ Kept opts repo h) ∧
    summary.removed = removed.card ∧ summary.bytesFreed = ∑ h ∈ removed, fileSize repo.objects h

/-- A repository determines the report on it. -/
theorem Reports.unique {opts : GcOptions} {repo : Repo H} {s s' : GcSummary}
    (h : Reports opts repo s) (h' : Reports opts repo s') (hdry : s.dryRun = s'.dryRun) :
    s = s' := by
  have huniq : ∀ {P : H → Prop} {a b : Finset H}, (∀ h, h ∈ a ↔ P h) → (∀ h, h ∈ b ↔ P h) →
      a = b := fun ha hb => Finset.ext fun h => (ha h).trans (hb h).symm
  obtain ⟨⟨roots, hroots, hr⟩, ⟨kept, hkept, hk⟩, ⟨removed, hremoved, hm, hb⟩⟩ := h
  obtain ⟨⟨roots', hroots', hr'⟩, ⟨kept', hkept', hk'⟩, ⟨removed', hremoved', hm', hb'⟩⟩ := h'
  obtain rfl := huniq hroots hroots'
  obtain rfl := huniq hkept hkept'
  obtain rfl := huniq hremoved hremoved'
  cases s
  cases s'
  simp_all

/-- Every stored object is counted once. -/
theorem Reports.total {opts : GcOptions} {repo : Repo H} {s : GcSummary}
    (h : Reports opts repo s) : s.kept + s.removed = repo.objects.keys.card := by
  obtain ⟨-, ⟨kept, hkept, hk⟩, ⟨removed, hremoved, hm, -⟩⟩ := h
  rw [hk, hm, ← Finset.card_union_of_disjoint]
  · congr 1
    ext a
    rw [Finset.mem_union, hkept, hremoved, Finmap.mem_keys, ← and_or_left]
    exact and_iff_left (em _)
  · rw [Finset.disjoint_left]
    intro a ha hno
    exact ((hremoved a).mp hno).2 ((hkept a).mp ha).2

/-- The report does not depend on whether it is a dry run. -/
theorem Reports.dry {opts : GcOptions} {repo : Repo H} {s : GcSummary} (h : Reports opts repo s)
    (d d' : Bool) : Reports { opts with dryRun := d } repo { s with dryRun := d' } :=
  ⟨h.roots, h.kept, h.removed⟩

variable {w : World H}

/-- Every object that a root reaches can be read, and reading objects does not always fail. -/
structure Readable (opts : GcOptions) (w : World H) : Prop where
  kept : ∀ h, Kept opts w.repo h → ∃ next, referents w.repo.objects h = .ok next
  step : ∃ n, w.env.fails .objectRead n = none

/-- A collection that succeeds reports on the repository. It begins to remove objects only once
everything that the roots reach has been read. -/
theorem collectGarbage_reports (opts : GcOptions) :
    Post (collectGarbage opts) w
      (fun summary _ => Reports opts w.repo summary ∧ summary.dryRun = opts.dryRun ∧
        Readable opts w)
      (fun e w' => w'.repo = w.repo ∨ Readable opts w ∧ w.env.Fault e) := by
  rw [collectGarbage, post_bind]
  refine (gcRoots_spec opts).mono (fun roots w₁ h₁ => ?_) (fun _ w₁ h₁ => Or.inl h₁.2.1)
  obtain ⟨hs₁, hr₁, hroots⟩ := h₁
  rw [post_bind, post_step]
  refine ⟨fun hstep => ?_, fun _ _ => Or.inl hr₁⟩
  have hs₂ := World.SameRefs.tick w₁ (k := .objectRead) (by simp [FsStep.Mutates])
  have hr : (w₁.tick .objectRead).repo = w.repo := hr₁
  rw [post_bind, post_get, post_bind, post_fromExcept, hr]
  refine ⟨fun marked hmark => ?_, fun _ _ => Or.inl rfl⟩
  have hkept : ∀ h, h ∈ marked ↔ Kept opts w.repo h := by
    intro h
    rw [Marking.Graph.mem_mark hmark]
    simp only [FiniteMap.mem_sorted, Finset.mem_val, hroots]
    rfl
  have hread : Readable opts w := by
    refine ⟨fun h hk => Marking.Graph.mark_read _ _ _ hmark (by simp) h ((hkept h).mpr hk), ?_⟩
    rw [hs₁.env] at hstep
    exact ⟨_, Option.map_eq_none_iff.mp hstep⟩
  have hnodup := FiniteMap.nodup_sortedKeys w.repo.objects
  have hreports : Reports opts w.repo
      ⟨roots.card, ((FiniteMap.sortedKeys w.repo.objects).filter fun h => h ∈ marked).length,
        ((FiniteMap.sortedKeys w.repo.objects).filter fun h => h ∉ marked).length,
        (((FiniteMap.sortedKeys w.repo.objects).filter fun h => h ∉ marked).map
          fun h => ((w.repo.objects.lookup h).getD []).length).sum, opts.dryRun⟩ := by
    refine ⟨⟨roots, hroots, rfl⟩,
      ⟨((FiniteMap.sortedKeys w.repo.objects).filter fun h => h ∈ marked).toFinset, fun h => ?_, ?_⟩,
      ⟨((FiniteMap.sortedKeys w.repo.objects).filter fun h => h ∉ marked).toFinset, fun h => ?_, ?_,
        ?_⟩⟩
    · simp [hkept]
    · exact (List.toFinset_card_of_nodup (hnodup.filter _)).symm
    · simp [hkept]
    · exact (List.toFinset_card_of_nodup (hnodup.filter _)).symm
    · exact (List.sum_toFinset _ (hnodup.filter _)).symm
  by_cases hdry : opts.dryRun = true
  · simp only [hdry, Bool.not_true, Bool.false_eq_true, if_false, bind_pure_comp]
    rw [hdry] at hreports
    exact ⟨hreports, rfl, hread⟩
  · simp only [hdry, Bool.not_false, if_true, post_bind]
    refine (removeObjects_spec _).mono (fun _ w₃ _ => ?_)
      (fun e w₃ h₃ => Or.inr ⟨hread, (hs₁.trans hs₂).env ▸ h₃.2.1⟩)
    rw [Bool.not_eq_true] at hdry
    rw [hdry] at hreports
    exact ⟨hreports, rfl, hread⟩

/-! ## Exact collections -/

open scoped Classical in
/-- What a collection leaves of the objects: a dry run everything, a real one what is kept. -/
noncomputable def leftObjects (opts : GcOptions) (repo : Repo H) : ObjectStore H :=
  if opts.dryRun then repo.objects else FiniteMap.restrict (Kept opts repo) repo.objects

section Left

variable {opts : GcOptions} {repo : Repo H} {h : H}

theorem leftObjects_dry (hdry : opts.dryRun = true) : leftObjects opts repo = repo.objects :=
  if_pos hdry

theorem leftObjects_kept (hk : Kept opts repo h) :
    (leftObjects opts repo).lookup h = repo.objects.lookup h := by
  classical
  unfold leftObjects
  split
  · rfl
  · rw [FiniteMap.lookup_restrict, if_pos hk]

theorem leftObjects_swept (hdry : opts.dryRun = false) (hk : ¬ Kept opts repo h) :
    (leftObjects opts repo).lookup h = none := by
  classical
  rw [leftObjects, if_neg (by simp [hdry]), FiniteMap.lookup_restrict, if_neg hk]

/-- Nothing is removed where everything is kept. -/
theorem leftObjects_eq (hall : opts.dryRun = false → ∀ h ∈ repo.objects, Kept opts repo h) :
    leftObjects opts repo = repo.objects := by
  cases hdry : opts.dryRun with
  | true => exact leftObjects_dry hdry
  | false =>
    apply Finmap.ext_lookup
    intro h
    by_cases hk : Kept opts repo h
    · exact leftObjects_kept hk
    · rw [leftObjects_swept hdry hk, Finmap.lookup_eq_none.mpr fun hm => hk (hall hdry h hm)]

end Left

/-- **The run of a collection** in which no step fails and every object that a root reaches can be
read. -/
theorem collectGarbage_run (opts : GcOptions) (hrel : w.env.Reliable)
    (hread : ∀ h, Kept opts w.repo h → ∃ next, referents w.repo.objects h = .ok next) :
    ∃ summary w', collectGarbage opts w = .ok summary w' ∧ Reports opts w.repo summary ∧
      summary.dryRun = opts.dryRun ∧ w'.repo = { w.repo with objects := leftObjects opts w.repo } := by
  cases hrun : collectGarbage opts w with
  | error e w' =>
    obtain ⟨-, hfault | ⟨h, hk, hh⟩, -⟩ := (collectGarbage_spec opts).error hrun
    · exact absurd hfault (hrel.not_fault e)
    · obtain ⟨next, hnext⟩ := hread h hk
      rw [hnext] at hh
      cases hh
  | ok summary w' =>
    obtain ⟨hs, hl⟩ := (collectGarbage_spec opts).ok hrun
    obtain ⟨hreports, hdry, -⟩ := (collectGarbage_reports opts).ok hrun
    refine ⟨summary, w', rfl, hreports, hdry, ?_⟩
    have hobjects : w'.repo.objects = leftObjects opts w.repo := by
      apply Finmap.ext_lookup
      intro h
      rcases hl h with ⟨heq, hdry | hk⟩ | ⟨hnone, hdry, hk⟩
      · rw [leftObjects_dry hdry, heq]
      · rw [leftObjects_kept hk, heq]
      · rw [leftObjects_swept hdry hk, hnone]
    show w'.repo = ⟨leftObjects opts w.repo, w.repo.refs, w.repo.oplog⟩
    rw [← hobjects, ← hs.refs, ← hs.oplog]

/-- The collection with the given summary, from the one world to the other, is exact: it leaves
refs and log alone, and the objects that the roots reach (a dry run all of them), and the summary
says so. With the same repository a dry run and a real one report the same; a second collection
finds nothing to remove. -/
structure ExactCollection (opts : GcOptions) (w w' : World H) (summary : GcSummary) : Prop where
  refs : w'.repo.refs = w.repo.refs
  oplog : w'.repo.oplog = w.repo.oplog
  objects : w'.repo.objects = leftObjects opts w.repo
  reports : Reports opts w.repo summary
  total : summary.kept + summary.removed = w.repo.objects.keys.card
  rehearsal : ∀ (dry : Bool) (w₀ : World H), w₀.repo = w.repo → w₀.env.Reliable →
    ∃ w₁, collectGarbage { opts with dryRun := dry } w₀ = .ok { summary with dryRun := dry } w₁ ∧
      (dry = true → w₁.repo = w₀.repo)
  again : ∀ w₀ : World H, w₀.repo = w'.repo → w₀.env.Reliable →
    ∃ second w₁, collectGarbage opts w₀ = .ok second w₁ ∧ w₁.repo = w₀.repo ∧
      second.kept = summary.kept ∧ (opts.dryRun = false → second.removed = 0) ∧
      ∀ h, Kept opts w₀.repo h ↔ Kept opts w.repo h

/-- **Collections are exact.** When an object that a root reaches cannot be read, the collection
fails and nothing is removed; otherwise, if no step fails, it succeeds and is exact. -/
theorem collectGarbage_exact (opts : GcOptions) (w : World H) :
    ((∃ h e, Kept opts w.repo h ∧ referents w.repo.objects h = .error e) ∨
        (∀ n, w.env.fails .objectRead n ≠ none) →
      ∃ e w', collectGarbage opts w = .error e w' ∧ w'.repo = w.repo) ∧
    (w.env.Reliable →
        (∀ h, Kept opts w.repo h → ∃ next, referents w.repo.objects h = .ok next) →
      ∃ summary w', collectGarbage opts w = .ok summary w' ∧
        ExactCollection opts w w' summary) := by
  constructor
  · intro hbad
    have hno : ¬ Readable opts w := by
      rintro ⟨hkept, n, hn⟩
      rcases hbad with ⟨h, e, hk, hh⟩ | hbad
      · obtain ⟨next, hnext⟩ := hkept h hk
        rw [hnext] at hh
        cases hh
      · exact hbad n hn
    cases hrun : collectGarbage opts w with
    | ok summary w' => exact absurd ((collectGarbage_reports opts).ok hrun).2.2 hno
    | error e w' =>
      rcases (collectGarbage_reports opts).error hrun with hrepo | ⟨hread, -⟩
      · exact ⟨e, w', rfl, hrepo⟩
      · exact absurd hread hno
  · intro hrel hread
    obtain ⟨summary, w', hrun, hreports, hdry, hrepo⟩ := collectGarbage_run opts hrel hread
    have hrefs : w'.repo.refs = w.repo.refs := by rw [hrepo]
    have hlog : w'.repo.oplog = w.repo.oplog := by rw [hrepo]
    have hobjects : w'.repo.objects = leftObjects opts w.repo := by rw [hrepo]
    -- what is left reaches the same
    have hkept : ∀ h, Kept opts w'.repo h ↔ Kept opts w.repo h :=
      kept_congr (isRoot_congr hrefs hlog) fun h hk => by rw [hobjects, leftObjects_kept hk]
    refine ⟨summary, w', hrun, hrefs, hlog, hobjects, hreports, hreports.total,
      fun dry w₀ hw₀ hrel₀ => ?_, fun w₀ hw₀ hrel₀ => ?_⟩
    · obtain ⟨s, w₁, hrun₁, hreports₁, hdry₁, hrepo₁⟩ :=
        collectGarbage_run { opts with dryRun := dry } hrel₀ (by rw [hw₀]; exact hread)
      rw [hw₀] at hreports₁
      have hs : s = { summary with dryRun := dry } :=
        hreports₁.unique (hreports.dry dry dry) hdry₁
      refine ⟨w₁, hs ▸ hrun₁, fun hd => ?_⟩
      rw [hrepo₁, leftObjects_dry hd]
    · rw [← hw₀] at hkept hobjects
      obtain ⟨s, w₁, hrun₁, hreports₁, -, hrepo₁⟩ := collectGarbage_run opts hrel₀ fun h hk => by
        obtain ⟨next, hnext⟩ := hread h ((hkept h).mp hk)
        refine ⟨next, (referents_congr ?_).trans hnext⟩
        rw [hobjects, leftObjects_kept ((hkept h).mp hk)]
      have hgone : opts.dryRun = false → ∀ h ∈ w₀.repo.objects, Kept opts w₀.repo h := by
        intro hd h hm
        by_contra hno
        rw [hkept] at hno
        rw [← Finmap.lookup_isSome, hobjects, leftObjects_swept hd hno] at hm
        cases hm
      refine ⟨s, w₁, hrun₁, ?_, ?_, fun hd => ?_, hkept⟩
      · rw [hrepo₁, leftObjects_eq hgone]
      · obtain ⟨kept, hmem, hk⟩ := hreports.kept
        obtain ⟨kept₁, hmem₁, hk₁⟩ := hreports₁.kept
        have heq : kept₁ = kept := by
          ext h
          rw [hmem, hmem₁, hkept]
          refine and_congr_left fun hkh => ?_
          rw [← Finmap.lookup_isSome, hobjects, leftObjects_kept hkh, Finmap.lookup_isSome]
        rw [hk, hk₁, heq]
      · obtain ⟨removed, hmem, hr, -⟩ := hreports₁.removed
        rw [hr, Finset.card_eq_zero]
        refine Finset.eq_empty_of_forall_notMem fun h hm => ?_
        obtain ⟨hm, hno⟩ := (hmem h).mp hm
        exact hno (hgone hd h hm)

/-- A repository with an object that nothing refers to. -/
def strayTree : World PlainHash :=
  (World.fresh .calm).setObjects
    ((∅ : ObjectStore PlainHash).put (encode PlainHash (Tree.new : Tree PlainHash)))

theorem collectGarbage_strayTree :
    ∃ summary w', collectGarbage .default strayTree = .ok summary w' ∧
      ExactCollection .default strayTree w' summary := by
  refine (collectGarbage_exact .default strayTree).2 Env.calm_reliable fun h hk => ?_
  obtain ⟨r, ⟨id, c, hc, -⟩ | ⟨-, op, hop, -⟩, -⟩ := hk
  · have hnone : strayTree.repo.refs.changes.lookup id = none := rfl
    rw [hnone] at hc
    cases hc
  · cases hop

end Tig
