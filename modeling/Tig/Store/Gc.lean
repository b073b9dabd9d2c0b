import Mathlib.Algebra.GroupWithZero.Nat
import Mathlib.Data.Finset.Image
import Tig.Lib.Marking
import Tig.Store.Spec

set_option relaxedAutoImplicit false
set_option autoImplicit false

/-!
# Garbage collection

Mark and sweep over the object store. The roots are the snapshots of the live changes and, by
default, those recorded in the operation log; marking follows the edges between objects, and the
sweep removes every object file that was not marked.

## Main definitions

* `Tig.collectGarbage` — the collector, with `Tig.GcOptions` and `Tig.GcSummary`.
* `Tig.referents` — the edges that marking follows.
* `Tig.GcReaches` — the objects that are kept for the sake of a root.

## Main results

* `Tig.collectGarbage_spec` — a run that succeeds keeps what the roots reach and nothing else.
* `Tig.collectGarbage_succeeds` — when a run succeeds.
-/

namespace Tig

open Program

/-- Knobs of a collection. -/
structure GcOptions where
  dryRun : Bool
  includeOplogSnapshots : Bool
deriving DecidableEq, Repr

/-- The options of a plain `tig gc`. -/
def GcOptions.default : GcOptions := ⟨false, true⟩

/-- What happened during a collection. -/
structure GcSummary where
  roots : Nat
  kept : Nat
  removed : Nat
  bytesFreed : Nat
  dryRun : Bool
deriving DecidableEq, Repr

variable {H : Type} [LinearOrder H] [Format H]

/-! ## Roots -/

/-- The snapshots a change record names. -/
def Change.snapshots (c : Change H) : List H := c.current :: c.history

/-- The snapshots an entry of a log record names. -/
def RefSnapshot.snapshots : RefSnapshot H → List H
  | change _ (some c) => c.1.snapshots
  | _ => []

/-- The snapshots a log record names. -/
def Op.snapshots (op : Op H) : List H :=
  (match op.kind with
    | .snap snapshot _ => [snapshot]
    | _ => []) ++ (op.before ++ op.after).flatMap RefSnapshot.snapshots

/-- Collect the snapshots of every live change, reading one record after the other. -/
def liveRoots : List ChangeId → RepoM H (List H)
  | [] => return []
  | id :: ids => do
    let change ← getChange id
    let roots ← liveRoots ids
    return change.1.snapshots ++ roots

/-- The snapshots to keep. -/
def gcRoots (opts : GcOptions) : RepoM H (Finset H) := do
  let live ← liveRoots (← listChanges)
  if opts.includeOplogSnapshots then
    let ops ← listOps
    return (live ++ ops.flatMap Op.snapshots).toFinset
  else
    return live.toFinset

/-! ## Mark -/

/-- The entries of a tree that are followed. A symlink is taken to hold its target in the entry,
and a submodule's target lies in another repository. -/
def EntryKind.isFollowed : EntryKind → Bool
  | .tree | .file | .sealed | .conflict => true
  | .symlink | .submodule => false

/-- The objects an object refers to. A missing object refers to none. -/
def referents (s : ObjectStore H) (h : H) : Except Error (List H) :=
  match s.get h with
  | .error (.notFound _) => .ok []
  | .error e => .error e
  | .ok raw =>
    match raw.kind with
    | .snapshot =>
      ((decode H raw : Except CoreError (Snapshot H)).mapError .core).map fun snap =>
        snap.tree :: snap.parents
    | .tree =>
      ((decode H raw : Except CoreError (Tree H)).mapError .core).map fun tree =>
        (tree.entries.filter fun e => e.kind.isFollowed).map TreeEntry.target
    | .blob | .sealed | .conflict => .ok []

section Referents

variable {s : ObjectStore H} {a : H}

theorem referents_of_snapshot {snap : Snapshot H} (h : s.load a = .ok snap) :
    referents s a = .ok (snap.tree :: snap.parents) := by
  obtain ⟨raw, hget, hdec⟩ := ObjectStore.load_eq_ok.mp h
  have hk : raw.kind = .snapshot := kind_of_decode hdec
  simp [referents, hget, hk, hdec, Except.mapError, Except.map]

theorem referents_of_tree {tree : Tree H} (h : s.load a = .ok tree) :
    referents s a = .ok ((tree.entries.filter fun e => e.kind.isFollowed).map TreeEntry.target) := by
  obtain ⟨raw, hget, hdec⟩ := ObjectStore.load_eq_ok.mp h
  have hk : raw.kind = .tree := kind_of_decode hdec
  simp [referents, hget, hk, hdec, Except.mapError, Except.map]

/-- What an object refers to depends on its file only. -/
theorem referents_congr {s' : ObjectStore H} (heq : s'.lookup a = s.lookup a) :
    referents s' a = referents s a := by
  rw [referents, referents, ObjectStore.get_congr heq]

theorem referents_of_blob {blob : Blob} (h : s.load a = .ok blob) : referents s a = .ok [] := by
  obtain ⟨raw, hget, hdec⟩ := ObjectStore.load_eq_ok.mp h
  have hk : raw.kind = .blob := kind_of_decode hdec
  simp [referents, hget, hk]

theorem referents_of_sealed {payload : Sealed} (h : s.load a = .ok payload) :
    referents s a = .ok [] := by
  obtain ⟨raw, hget, hdec⟩ := ObjectStore.load_eq_ok.mp h
  have hk : raw.kind = .sealed := kind_of_decode hdec
  simp [referents, hget, hk]

end Referents

/-- The object graph: only stored objects have referents. -/
def objectGraph (s : ObjectStore H) : Marking.Graph H Error where
  succ := referents s
  nodes := s.keys
  leaf h hs := by
    have hnone : s.lookup h = none := Finmap.lookup_eq_none.mpr fun hm => hs (Finmap.mem_keys.mpr hm)
    simp [referents, ObjectStore.get, hnone]

theorem edge_iff {s : ObjectStore H} {a b : H} :
    (objectGraph s).Edge a b ↔ ∃ next, referents s a = .ok next ∧ b ∈ next := Iff.rfl

/-- `h` is kept for the sake of `r`: it can be reached along the edges that marking follows. -/
def GcReaches (s : ObjectStore H) : H → H → Prop := (objectGraph s).Reaches

/-! ## Sweep -/

/-- Remove the files of the listed objects, one after the other. -/
def removeObjects : List H → RepoM H Unit
  | [] => return ()
  | h :: hs => do
    step .objectRemove
    modify fun w => w.setObjects (w.repo.objects.erase h)
    removeObjects hs

/-- **Collect garbage.** All object files are listed before the first one is removed. -/
def collectGarbage (opts : GcOptions) : RepoM H GcSummary := do
  let roots ← gcRoots opts
  step .objectRead
  let w ← get
  let marked ← fromExcept ((objectGraph w.repo.objects).mark ∅ (FiniteMap.sorted roots.val))
  let stored := FiniteMap.sortedKeys w.repo.objects
  let toRemove := stored.filter fun h => h ∉ marked
  if !opts.dryRun then
    removeObjects toRemove
  return {
    roots := roots.card
    kept := (stored.filter fun h => h ∈ marked).length
    removed := toRemove.length
    bytesFreed := (toRemove.map fun h => ((w.repo.objects.lookup h).getD []).length).sum
    dryRun := opts.dryRun }

/-! ## What a collection does -/

/-- The snapshots that a collection keeps: those the live changes name and, unless the options
say otherwise, those the records of the log name. -/
def IsRoot (opts : GcOptions) (repo : Repo H) (h : H) : Prop :=
  (∃ id c, repo.refs.changes.lookup id = some c ∧ h ∈ c.1.snapshots) ∨
    opts.includeOplogSnapshots = true ∧ ∃ op ∈ repo.oplog, h ∈ op.snapshots

/-- An object that some root reaches along the edges that marking follows. -/
def Kept (opts : GcOptions) (repo : Repo H) (h : H) : Prop :=
  ∃ r, IsRoot opts repo r ∧ GcReaches repo.objects r h

variable {w : World H}

omit [LinearOrder H] [Format H] in
theorem liveRoots_spec (ids : List ChangeId) :
    Post (liveRoots ids) w
      (fun roots w' => w.SameRefs w' ∧ w'.repo = w.repo ∧ ∀ h, h ∈ roots ↔
        ∃ id ∈ ids, ∃ c, w.repo.refs.changes.lookup id = some c ∧ h ∈ c.1.snapshots)
      (fun e w' => w.SameRefs w' ∧ w'.repo = w.repo ∧
        (w.env.Fault e ∨ ∃ id ∈ ids, w.repo.refs.changes.lookup id = none)) := by
  induction ids generalizing w with
  | nil => exact ⟨.refl w, rfl, by simp⟩
  | cons id ids ih =>
    rw [liveRoots, post_bind]
    refine getChange_spec (fun c w₁ hs hr hc => ?_) (fun e w₁ hs hr he => ⟨hs, hr, ?_⟩)
    · rw [post_bind]
      refine ih.mono (fun roots w₂ ⟨hs₂, hr₂, hroots⟩ => ?_) (fun e w₂ ⟨hs₂, hr₂, he⟩ => ?_)
      · refine ⟨hs.trans hs₂, hr₂.trans hr, fun h => ?_⟩
        rw [List.mem_append, hroots, hr]
        simp only [List.mem_cons, exists_eq_or_imp, hc, Option.some.injEq, exists_eq_left']
      · rw [hs.env, hr] at he
        refine ⟨hs.trans hs₂, hr₂.trans hr, he.imp_right ?_⟩
        rintro ⟨id', hid', hnone⟩
        exact ⟨id', List.mem_cons_of_mem _ hid', hnone⟩
    · exact he.imp_right fun h => ⟨id, List.mem_cons_self, h.1⟩

omit [Format H] in
theorem gcRoots_spec (opts : GcOptions) :
    Post (gcRoots opts) w
      (fun roots w' => w.SameRefs w' ∧ w'.repo = w.repo ∧
        ∀ h, h ∈ roots ↔ IsRoot opts w.repo h)
      (fun e w' => w.SameRefs w' ∧ w'.repo = w.repo ∧ w.env.Fault e) := by
  rw [gcRoots, post_bind]
  refine listChanges_spec (fun w₁ hs₁ hr₁ => ?_) (fun e w₁ hs₁ hr₁ he => ⟨hs₁, hr₁, he⟩)
  rw [post_bind]
  refine (liveRoots_spec _).mono (fun live w₂ ⟨hs₂, hr₂, hlive⟩ => ?_)
    (fun e w₂ ⟨hs₂, hr₂, he⟩ => ⟨hs₁.trans hs₂, hr₂.trans hr₁, ?_⟩)
  swap
  · -- every listed change has a record
    rw [hs₁.env] at he
    refine he.resolve_right ?_
    rintro ⟨id, hid, hnone⟩
    rw [hr₁, Finmap.lookup_eq_none] at hnone
    exact hnone (FiniteMap.mem_sortedKeys.mp hid)
  have hlive' : ∀ h, h ∈ live ↔
      ∃ id c, w.repo.refs.changes.lookup id = some c ∧ h ∈ c.1.snapshots := by
    intro h
    rw [hlive, hr₁]
    constructor
    · rintro ⟨id, -, c, hc, hh⟩
      exact ⟨id, c, hc, hh⟩
    · rintro ⟨id, c, hc, hh⟩
      exact ⟨id, FiniteMap.mem_sortedKeys.mpr (Finmap.mem_of_lookup_eq_some hc), c, hc, hh⟩
  have hs := hs₁.trans hs₂
  have hr := hr₂.trans hr₁
  rw [post_ite]
  refine ⟨fun hopt => ?_, fun hopt => ?_⟩
  · rw [post_bind]
    refine listOps_spec (fun w₃ hs₃ hr₃ => ?_)
      (fun e w₃ hs₃ hr₃ he => ⟨hs.trans hs₃, hr₃.trans hr, hs.env ▸ he⟩)
    refine ⟨hs.trans hs₃, hr₃.trans hr, fun h => ?_⟩
    simp [IsRoot, hopt, hlive', hr]
  · refine ⟨hs, hr, fun h => ?_⟩
    simp [IsRoot, hopt, hlive']

omit [Format H] in
/-- Removing objects changes nothing else, and removes none but the listed ones, whether or not
it gets to the end. -/
theorem removeObjects_spec (hs : List H) :
    Post (removeObjects hs) w
      (fun _ w' => w.SameRefs w' ∧ ∀ h, w'.repo.objects.lookup h =
        if h ∈ hs then none else w.repo.objects.lookup h)
      (fun e w' => w.SameRefs w' ∧ w.env.Fault e ∧
        ∀ h, w'.repo.objects.lookup h = w.repo.objects.lookup h ∨
          w'.repo.objects.lookup h = none ∧ h ∈ hs) := by
  induction hs generalizing w with
  | nil => exact ⟨.refl w, by simp⟩
  | cons a hs ih =>
    rw [removeObjects, post_bind]
    refine step_spec (by simp [FsStep.Mutates]) (fun w₁ hs₁ hr₁ => ?_)
      (fun e w₁ hs₁ hr₁ he => ⟨hs₁, he, fun h => Or.inl (by rw [hr₁])⟩)
    rw [post_bind, post_modify]
    have hset := hs₁.trans (.setObjects w₁ (w₁.repo.objects.erase a))
    have herase : ∀ h, (w₁.repo.objects.erase a).lookup h =
        if h = a then none else w.repo.objects.lookup h := by
      intro h
      split_ifs with hh
      · rw [hh, Finmap.lookup_erase]
      · rw [Finmap.lookup_erase_ne hh, hr₁]
    refine ih.mono (fun _ w₂ h₂ => ?_) (fun e w₂ h₂ => ?_)
    · obtain ⟨hs₂, hl₂⟩ := h₂
      refine ⟨hset.trans hs₂, fun h => ?_⟩
      rw [hl₂, World.setObjects, herase]
      by_cases hh : h = a <;> simp [hh]
    · obtain ⟨hs₂, he, hl₂⟩ := h₂
      refine ⟨hset.trans hs₂, hset.env ▸ he, fun h => ?_⟩
      have hl := hl₂ h
      rw [World.setObjects, herase] at hl
      by_cases hh : h = a
      · rw [if_pos hh] at hl
        exact Or.inr ⟨by rcases hl with hl | hl; exacts [hl, hl.1], by simp [hh]⟩
      · rw [if_neg hh] at hl
        rcases hl with hl | hl
        · exact Or.inl hl
        · exact Or.inr ⟨hl.1, by simp [hl.2]⟩

/-- **A collection keeps what the roots reach.** Refs and log are left alone. A run that
succeeds removes exactly the objects that no root reaches (a dry run none). A run that fails
removes none but such objects, and fails for a failing step or for an object that a root reaches
and that cannot be read.

**Proof sketch.** The roots are collected first (`gcRoots_spec`), the marked set is what they
reach (`Marking.Graph.mem_mark`), and the sweep removes the other stored objects
(`removeObjects_spec`). -/
theorem collectGarbage_spec (opts : GcOptions) :
    Post (collectGarbage opts) w
      (fun _ w' => w.SameRefs w' ∧ ∀ h, w'.repo.objects.lookup h = w.repo.objects.lookup h ∧
          (opts.dryRun = true ∨ Kept opts w.repo h) ∨
        w'.repo.objects.lookup h = none ∧ opts.dryRun = false ∧ ¬ Kept opts w.repo h)
      (fun e w' => w.SameRefs w' ∧
        (w.env.Fault e ∨ ∃ h, Kept opts w.repo h ∧ referents w.repo.objects h = .error e) ∧
        ∀ h, w'.repo.objects.lookup h = w.repo.objects.lookup h ∨
          w'.repo.objects.lookup h = none ∧ ¬ Kept opts w.repo h) := by
  rw [collectGarbage, post_bind]
  refine (gcRoots_spec opts).mono (fun roots w₁ h₁ => ?_)
    (fun e w₁ h₁ => ⟨h₁.1, Or.inl h₁.2.2, fun h => Or.inl (by rw [h₁.2.1])⟩)
  obtain ⟨hs₁, hr₁, hroots⟩ := h₁
  rw [post_bind]
  refine step_spec (by simp [FsStep.Mutates]) (fun w₂ hs₂ hr₂ => ?_)
    (fun e w₂ hs₂ hr₂ he =>
      ⟨hs₁.trans hs₂, Or.inl (hs₁.env ▸ he), fun h => Or.inl (by rw [hr₂, hr₁])⟩)
  have hs := hs₁.trans hs₂
  have hr : w₂.repo = w.repo := hr₂.trans hr₁
  have hroots' : ∀ r, r ∈ FiniteMap.sorted roots.val ↔ IsRoot opts w.repo r := by
    intro r
    rw [FiniteMap.mem_sorted, Finset.mem_val, hroots]
  rw [post_bind, post_get, post_bind, post_fromExcept, hr]
  refine ⟨fun marked hmark => ?_, fun e hmark => ⟨hs, Or.inr ?_, fun h => Or.inl rfl⟩⟩
  swap
  · exact Marking.Graph.mark_error _ _ _ hmark (P := Kept opts w.repo)
      (fun r hr => ⟨r, (hroots' r).mp hr, .refl⟩)
      (fun a b hk hab => hk.imp fun r hr => ⟨hr.1, hr.2.tail hab⟩)
  have hkept : ∀ h, h ∈ marked ↔ Kept opts w.repo h := by
    intro h
    rw [Marking.Graph.mem_mark hmark]
    simp only [hroots']
    rfl
  have hrem : ∀ h, h ∈ (FiniteMap.sortedKeys w.repo.objects).filter (fun h => h ∉ marked) ↔
      h ∈ w.repo.objects ∧ ¬ Kept opts w.repo h := by
    intro h
    simp [hkept]
  by_cases hdry : opts.dryRun = true
  · simp only [hdry, Bool.not_true, Bool.false_eq_true, if_false, bind_pure_comp]
    exact ⟨hs, fun h => Or.inl ⟨by rw [hr], Or.inl trivial⟩⟩
  · simp only [hdry, Bool.not_false, if_true, post_bind]
    refine (removeObjects_spec _).mono (fun _ w₃ h₃ => ?_) (fun e w₃ h₃ => ?_)
    · obtain ⟨hs₃, hl₃⟩ := h₃
      refine ⟨hs.trans hs₃, fun h => ?_⟩
      rw [hl₃, hr]
      by_cases hk : Kept opts w.repo h
      · exact Or.inl ⟨if_neg fun hm => ((hrem h).mp hm).2 hk, Or.inr hk⟩
      · refine Or.inr ⟨?_, by simp, hk⟩
        by_cases hm : h ∈ w.repo.objects
        · exact if_pos ((hrem h).mpr ⟨hm, hk⟩)
        · rw [Finmap.lookup_eq_none.mpr hm, ite_self]
    · obtain ⟨hs₃, he, hl₃⟩ := h₃
      refine ⟨hs.trans hs₃, Or.inl (hs.env ▸ he), fun h => ?_⟩
      rcases hl₃ h with hl | ⟨hl, hm⟩
      · exact Or.inl (by rw [hl, hr])
      · exact Or.inr ⟨hl, ((hrem h).mp hm).2⟩

/-- A collection succeeds when no step fails and every stored object can be read. -/
theorem collectGarbage_succeeds (opts : GcOptions) (hw : w.env.Reliable)
    (hread : ∀ h ∈ w.repo.objects, ∃ next, referents w.repo.objects h = .ok next) :
    ∃ summary w', collectGarbage opts w = .ok summary w' := by
  cases hrun : collectGarbage opts w with
  | ok summary w' => exact ⟨summary, w', rfl⟩
  | error e w' =>
    obtain ⟨-, hfault | ⟨h, -, hh⟩, -⟩ := (collectGarbage_spec opts).error hrun
    · exact absurd hfault (hw.not_fault e)
    · by_cases hm : h ∈ w.repo.objects
      · obtain ⟨next, hnext⟩ := hread h hm
        rw [hnext] at hh
        cases hh
      · have hleaf := (objectGraph w.repo.objects).leaf h fun hk => hm (Finmap.mem_keys.mp hk)
        exact absurd (hleaf.symm.trans hh) (by simp)

/-- Whether or not a collection got to the end: refs and log are as before, what the roots reach
is kept, and the other objects are as before or gone. -/
structure World.Collected (opts : GcOptions) (w w' : World H) : Prop extends
    World.SameRefs w w' where
  kept : ∀ h, Kept opts w.repo h → w'.repo.objects.lookup h = w.repo.objects.lookup h
  sub : ∀ h, w'.repo.objects.lookup h = w.repo.objects.lookup h ∨ w'.repo.objects.lookup h = none

theorem collectGarbage_collected (opts : GcOptions) :
    Post (collectGarbage opts) w (fun _ w' => w.Collected opts w')
      (fun _ w' => w.Collected opts w') := by
  refine (collectGarbage_spec opts).mono (fun _ w' ⟨hs, hl⟩ => ⟨hs, fun h hk => ?_, fun h => ?_⟩)
    (fun _ w' ⟨hs, _, hl⟩ => ⟨hs, fun h hk => ?_, fun h => ?_⟩)
  · rcases hl h with ⟨heq, -⟩ | ⟨-, -, hn⟩
    · exact heq
    · exact absurd hk hn
  · exact (hl h).imp And.left And.left
  · exact (hl h).resolve_right fun hn => hn.2 hk
  · exact (hl h).imp_right And.left

end Tig
