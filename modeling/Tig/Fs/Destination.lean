import Tig.Fs.Rendering

set_option relaxedAutoImplicit false
set_option autoImplicit false

/-!
# Materializing on a disk

A render creates its destination first and then issues operations below it, on a disk that can fail
at each of them. Of the disk it is only asked that a destination that has been made stays there:
nothing that a render issues removes anything.

## Main definitions

* `Tig.RenderDisk`, `Tig.RenderDisk.Lawful` — a disk, as a render uses it.
* `Tig.performActions` — operations performed one after the other.
* `Tig.materializeOn` — materializing a snapshot.
* `Tig.renderTreeOn`, `Tig.issuedOps` — rendering a tree into a destination that is there.

## Main results

* `Tig.materializeOn_spec` — when materializing succeeds, and what a failure leaves behind.
-/

namespace Tig

open Program

variable {σ : Type}

/-- A disk as a render uses it: whether there is anything at the destination, and the operations at
paths below it. -/
structure RenderDisk (σ : Type) where
  destExists : σ → Bool
  perform : FsAction → EStateM Error σ Unit

/-- A destination that was made, with `made` saying so, exists and stays. One that could not be made
does not exist. -/
structure RenderDisk.Lawful (disk : RenderDisk σ) (made : σ → Prop) : Prop where
  destExists_of_made : ∀ st, made st → disk.destExists st = true
  create : ∀ st, disk.destExists st = false → Post (disk.perform (.createDirAll [])) st
    (fun _ st' => made st') (fun _ st' => disk.destExists st' = false)
  keep : ∀ a st, made st → Post (disk.perform a) st (fun _ st' => made st') (fun _ st' => made st')

/-- Perform operations one after the other, up to the first that fails. -/
def performActions (disk : RenderDisk σ) : List FsAction → EStateM Error σ Unit
  | [] => return ()
  | a :: as => do
    disk.perform a
    performActions disk as

section Perform

variable {disk : RenderDisk σ} {st st' : σ} {as : List FsAction}

/-- Operations after one that was performed. -/
theorem performActions_cons {a : FsAction} (h : disk.perform a st = .ok () st') :
    performActions disk (a :: as) st = performActions disk as st' :=
  run_bind_ok _ h

/-- Operations after others that were performed. -/
theorem performActions_append {bs : List FsAction} (h : performActions disk as st = .ok () st') :
    performActions disk (as ++ bs) st = performActions disk bs st' := by
  induction as generalizing st with
  | nil =>
    obtain ⟨⟩ := h
    rfl
  | cons a as ih =>
    rw [List.cons_append]
    cases ha : disk.perform a st with
    | ok u st₁ =>
      rw [performActions_cons ha] at h ⊢
      exact ih h
    | error e st₁ =>
      rw [performActions, run_bind_error _ ha] at h
      cases h

@[simp] theorem post_performActions_append {bs : List FsAction} {Q : Unit → σ → Prop}
    {E : Error → σ → Prop} :
    Post (performActions disk (as ++ bs)) st Q E ↔
      Post (performActions disk as) st (fun _ st' => Post (performActions disk bs) st' Q E) E := by
  induction as generalizing st with
  | nil => rfl
  | cons a as ih => simp only [List.cons_append, performActions, post_bind, ih]

end Perform

variable {H : Type} [LinearOrder H] [Format H]

/-- Materialize the tree of a snapshot. The walk does not look at the disk once it has found that
there is nothing at the destination, so what it issues is performed afterwards, up to the first
operation that fails. -/
def materializeOn (disk : RenderDisk σ) (s : ObjectStore H) (opts : MaterializeOptions)
    (dst : String) (depth : Nat) (snapshot : H) : EStateM Error σ RenderStats := fun st =>
  match materializeChangeInto s opts dst depth (disk.destExists st) snapshot
      ⟨[], ⟨0, 0, 0, 0⟩⟩ with
  | .ok stats r => (do performActions disk r.actions; return stats) st
  | .error e r => (do performActions disk r.actions; throw e) st

section Tree

variable (s : ObjectStore H) (opts : MaterializeOptions) (shown : String) (depth : Nat) (tree : H)

variable {s opts shown depth tree} {disk : RenderDisk σ}

end Tree

/-! ## What materializing comes to -/

section Spec

variable {disk : RenderDisk σ} {made : σ → Prop} {st : σ}

/-- A destination that was made is there after any operations. -/
theorem RenderDisk.Lawful.keeps (hdisk : disk.Lawful made) {as : List FsAction} (h : made st) :
    Post (performActions disk as) st (fun _ st' => made st') (fun _ st' => made st') := by
  induction as generalizing st with
  | nil => exact h
  | cons a as ih =>
    rw [performActions, post_bind]
    exact (hdisk.keep a st h).mono (fun _ _ h' => ih h') (fun _ _ h' => h')

/-- Operations of which the first makes the destination: they fail there, or with the destination
made. -/
theorem RenderDisk.Lawful.create_first (hdisk : disk.Lawful made) (as : List FsAction)
    (hfree : disk.destExists st = false) :
    Post (performActions disk (.createDirAll [] :: as)) st
      (fun _ st' => (∃ st₁, disk.perform (.createDirAll []) st = .ok () st₁) ∧ made st')
      (fun e st' => disk.perform (.createDirAll []) st = .error e st' ∨
        (∃ st₁, disk.perform (.createDirAll []) st = .ok () st₁) ∧ made st') := by
  rw [performActions, post_bind]
  refine .of_cases (fun _ st₁ hst₁ => ?_) (fun e st' hst' => Or.inl hst')
  exact (hdisk.keeps ((hdisk.create st hfree).ok hst₁)).mono
    (fun _ _ h => ⟨⟨st₁, hst₁⟩, h⟩) (fun _ _ h => Or.inr ⟨⟨st₁, hst₁⟩, h⟩)

variable (s : ObjectStore H) (opts : MaterializeOptions)

/-- Materializing a snapshot calls for these operations. -/
def SnapshotCalls (depth : Nat) (snapshot : H) (ops : List FsAction) : Prop :=
  ∃ (snap : Snapshot H) (ops' : List FsAction), s.load snapshot = .ok snap ∧
    TreeCalls s opts depth snap.tree [] "" ops' ∧ ops = .createDirAll [] :: ops'

variable {s opts} {dst : String}

/-- The walk issues what is called for. It starts by making the destination. -/
theorem materializeChangeInto_spec {depth : Nat} {snapshot : H} :
    Post (materializeChangeInto s opts dst depth false snapshot) ⟨[], ⟨0, 0, 0, 0⟩⟩
      (fun _ r => ∀ ops, SnapshotCalls s opts depth snapshot ops ↔ ops = r.actions)
      (fun _ r => [.createDirAll []] <+: r.actions ∧
        ∀ ops, ¬ SnapshotCalls s opts depth snapshot ops) := by
  rw [materializeChangeInto, if_neg (by decide)]
  simp only
  rw [post_bind, act, post_modify, post_bind, post_fromExcept]
  refine ⟨fun snap hsnap => ?_, fun e he => ⟨List.prefix_rfl, by simp [SnapshotCalls, he]⟩⟩
  rw [post_bind]
  refine renderTree_spec.mono ?_ ?_
  · rintro _ r ⟨ops', hr, hops'⟩
    intro ops
    have hactions : r.actions = .createDirAll [] :: ops' := hr
    simp only [SnapshotCalls, hsnap, Except.ok.injEq, exists_and_left, hactions]
    constructor
    · rintro ⟨_, rfl, ops'', hcalls, rfl⟩
      rw [(hops' ops'').mp hcalls]
    · rintro rfl
      exact ⟨snap, rfl, ops', (hops' ops').mpr rfl, rfl⟩
  · rintro _ r ⟨hpre, hno⟩
    refine ⟨hpre, ?_⟩
    rintro _ ⟨snap', ops', hsnap', hcalls, -⟩
    obtain rfl : snap = snap' := Except.ok.inj (hsnap.symm.trans hsnap')
    exact hno ops' hcalls

/-- **What materializing comes to**, where there is nothing at the destination. It succeeds by
performing all that is called for. It fails when the destination cannot be made; or else with the
destination made, when nothing is called for or an operation fails. -/
theorem materializeOn_spec (hdisk : disk.Lawful made) {depth : Nat} {snapshot : H}
    (hfree : disk.destExists st = false) :
    Post (materializeOn disk s opts dst depth snapshot) st
      (fun _ st' => ∃ ops, SnapshotCalls s opts depth snapshot ops ∧
        performActions disk ops st = .ok () st')
      (fun e st' => disk.perform (.createDirAll []) st = .error e st' ∨
        (∃ st₁, disk.perform (.createDirAll []) st = .ok () st₁) ∧ made st' ∧
          ∀ ops, SnapshotCalls s opts depth snapshot ops →
            ∀ st'', performActions disk ops st ≠ .ok () st'') := by
  have hspec : Post (materializeChangeInto s opts dst depth false snapshot) ⟨[], ⟨0, 0, 0, 0⟩⟩ _ _ :=
    materializeChangeInto_spec
  unfold Post materializeOn
  rw [hfree]
  cases hrun : materializeChangeInto s opts dst depth false snapshot ⟨[], ⟨0, 0, 0, 0⟩⟩ with
  | ok stats r =>
    have hcalls := hspec.ok hrun
    obtain ⟨_, ops', -, -, hops'⟩ := (hcalls r.actions).mpr rfl
    have hfirst := hdisk.create_first ops' hfree
    rw [← hops'] at hfirst
    change Post (do performActions disk r.actions; return stats) st _ _
    rw [post_bind]
    refine .of_cases (fun _ st' hst' => ⟨r.actions, (hcalls _).mpr rfl, hst'⟩) (fun e st' hst' => ?_)
    refine (hfirst.error hst').imp_right fun ⟨hcreate, hmade⟩ =>
      ⟨hcreate, hmade, fun ops hops st'' hok => ?_⟩
    rw [(hcalls ops).mp hops, hst'] at hok
    cases hok
  | error e r =>
    obtain ⟨⟨ops', hops'⟩, hno⟩ := hspec.error hrun
    have hfirst := hdisk.create_first ops' hfree
    rw [show FsAction.createDirAll [] :: ops' = r.actions from hops'] at hfirst
    change Post (do performActions disk r.actions; throw e) st _ _
    rw [post_bind]
    have hnothing : ∀ ops, SnapshotCalls s opts depth snapshot ops →
        ∀ st'', performActions disk ops st ≠ .ok () st'' := fun ops hops => absurd hops (hno ops)
    refine .of_cases (fun _ st' hst' => Or.inr ?_) (fun e' st' hst' => ?_)
    · obtain ⟨hcreate, hmade⟩ := hfirst.ok hst'
      exact ⟨hcreate, hmade, hnothing⟩
    · exact (hfirst.error hst').imp_right fun ⟨hcreate, hmade⟩ => ⟨hcreate, hmade, hnothing⟩

end Spec

end Tig
