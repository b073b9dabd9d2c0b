import Tig.Store.Spec

set_option relaxedAutoImplicit false
set_option autoImplicit false

/-!
# Undo

Undo rolls back the most recent operation that has not been undone: it reads what the refs of
that operation hold now, writes the entries recorded before it, and appends a record of its own.

## Main definitions

* `Tig.pickOpToUndo` — which operation to roll back.
* `Tig.undoOnce` — roll it back.

## Main results

* `Tig.pickOpToUndo_eq` — the operation picked is the top of the stack of those not undone.
* `Tig.restoreRefs_spec`, `Tig.undoOnce_spec` — what an undo does, whether or not it fails.
-/

namespace Tig

open Program

variable {H : Type}

/-! ## Reading and restoring entries -/

/-- Read what the ref of an entry holds now. -/
def RefSnapshot.readCurrent : RefSnapshot H → RepoM H (RefSnapshot H)
  | head _ => do
    let value ← Tig.head
    return .head value
  | change id _ =>
    tryCatch (do let c ← getChange id; return .change id (some c)) fun
      | .notFound _ => return .change id none
      | e => throw e
  | workspace id _ =>
    tryCatch (do let m ← getWorkspace id; return .workspace id (some m)) fun
      | .notFound _ => return .workspace id none
      | e => throw e
  | bookmark name _ => do
    let value ← getBookmark name
    return .bookmark name value

/-- Write an entry back, so that its ref ends up as captured. Restoring an absent ref is
idempotent. -/
def restoreRef : RefSnapshot H → RepoM H Unit
  | .head (some id) => setHead id
  | .head none => clearHead
  | .change _ (some c) => putChange c.1
  | .change id none => deleteChange id
  | .workspace _ (some m) => putWorkspace m.1
  | .workspace id none =>
    tryCatch (deleteWorkspace id) fun
      | .notFound _ => return ()
      | e => throw e
  | .bookmark name (some id) => setBookmark name id
  | .bookmark name none => deleteBookmark name

/-- Read what the refs of some entries hold now. -/
def readCurrents : List (RefSnapshot H) → RepoM H (List (RefSnapshot H))
  | [] => return []
  | e :: es => do
    let now ← e.readCurrent
    let rest ← readCurrents es
    return now :: rest

/-- Write entries back, in order. -/
def restoreRefs : List (RefSnapshot H) → RepoM H Unit
  | [] => return ()
  | e :: es => do
    restoreRef e
    restoreRefs es

/-! ## Undo -/

/-- The most recent operation that has not been undone. Walking back, each undo raises a
counter and each other operation lowers it; the first one to meet it at zero is picked. -/
def pickOpToUndo (ops : List (Op H)) : Option (Op H) := Journal.pick Op.isUndo 0 ops.reverse

/-- What an undo did: the operation rolled back, and the record of the undo. -/
structure UndoOutcome (H : Type) where
  undone : Op H
  recorded : Op H

/-- Roll back one operation; `none` if every operation is undone already. -/
def undoOnce (actor : PrincipalId) : RepoM H (Option (UndoOutcome H)) := do
  let ops ← listOps
  match pickOpToUndo ops with
  | none => return none
  | some target => do
    openWorkspaces
    -- what is about to be overwritten
    let beforeUndo ← readCurrents target.before
    restoreRefs target.before
    let recorded ← appendOp ⟨actor, .undo target.id, beforeUndo, target.before⟩
    return some ⟨target, recorded⟩

/-- The operation picked is the top of the stack of those not undone. -/
theorem pickOpToUndo_eq (ops : List (Op H)) :
    pickOpToUndo ops = (Journal.live Op.isUndo ops.reverse).head? :=
  Journal.pick_zero _ _

/-- The operation picked is one of the log's, and not an undo. -/
theorem mem_of_pickOpToUndo {ops : List (Op H)} {target : Op H}
    (h : pickOpToUndo ops = some target) : target ∈ ops ∧ target.isUndo = false := by
  rw [pickOpToUndo_eq] at h
  have hlive := Journal.mem_of_mem_live Op.isUndo (List.mem_of_head? h)
  exact ⟨List.mem_reverse.mp hlive.1, hlive.2⟩

/-! ## What reading and restoring do -/

variable {w : World H}

theorem readCurrent_spec (e : RefSnapshot H) {Q : RefSnapshot H → World H → Prop}
    {E : Error → World H → Prop}
    (hok : ∀ w', w.SameRefs w' → w'.repo = w.repo → Q (w.repo.refs.read e.key) w')
    (herr : ∀ err w', w.SameRefs w' → w'.repo = w.repo → w.env.Fault err → E err w') :
    Post e.readCurrent w Q E := by
  cases e with
  | head value =>
    rw [RefSnapshot.readCurrent, post_bind]
    exact head_spec hok herr
  | bookmark name value =>
    rw [RefSnapshot.readCurrent, post_bind]
    exact getBookmark_spec hok herr
  | change id value =>
    rw [RefSnapshot.readCurrent, post_tryCatch, post_bind]
    refine getChange_spec (fun c w' hs hr hc => ?_) (fun err w' hs hr herr' => ?_)
    · have := hok w' hs hr
      simpa only [post_pure, RefSnapshot.key, Refs.read, hc] using this
    · rcases herr' with hf | ⟨hnone, rfl⟩
      · split
        · exact absurd rfl (hf.ne_notFound _)
        · exact herr err w' hs hr hf
      · have := hok w' hs hr
        simpa only [post_pure, RefSnapshot.key, Refs.read, hnone] using this
  | workspace id value =>
    rw [RefSnapshot.readCurrent, post_tryCatch, post_bind]
    refine getWorkspace_spec (fun m w' hs hr hm => ?_) (fun err w' hs hr herr' => ?_)
    · have := hok w' hs hr
      simpa only [post_pure, RefSnapshot.key, Refs.read, hm] using this
    · rcases herr' with hf | ⟨hnone, rfl⟩
      · split
        · exact absurd rfl (hf.ne_notFound _)
        · exact herr err w' hs hr hf
      · have := hok w' hs hr
        simpa only [post_pure, RefSnapshot.key, Refs.read, hnone] using this

theorem readCurrents_spec (es : List (RefSnapshot H))
    {Q : List (RefSnapshot H) → World H → Prop} {E : Error → World H → Prop}
    (hok : ∀ w', w.SameRefs w' → w'.repo = w.repo →
      Q (es.map fun e => w.repo.refs.read e.key) w')
    (herr : ∀ err w', w.SameRefs w' → w'.repo = w.repo → w.env.Fault err → E err w') :
    Post (readCurrents es) w Q E := by
  induction es generalizing w Q with
  | nil => exact hok w (.refl w) rfl
  | cons e es ih =>
    rw [readCurrents, post_bind]
    refine readCurrent_spec e (fun w₁ hs₁ hr₁ => ?_) herr
    rw [post_bind]
    refine ih (fun w₂ hs₂ hr₂ => ?_) (fun err w₂ hs₂ hr₂ hf => ?_)
    · rw [hr₁]
      exact hok w₂ (hs₁.trans hs₂) (hr₂.trans hr₁)
    · exact herr err w₂ (hs₁.trans hs₂) (hr₂.trans hr₁) (hs₁.env ▸ hf)

/-- An entry that can be written back: a bookmark's name must be one that can be set. -/
def RefSnapshot.Restorable : RefSnapshot H → Prop
  | .bookmark name (some _) => ¬ (name = "" ∨ '/' ∈ name.toList ∨ '\x00' ∈ name.toList)
  | _ => True

/-- Is the ref a bookmark? -/
def RefKey.isBookmark : RefKey → Bool
  | .bookmark _ => true
  | _ => false

@[simp] theorem RefKey.isBookmark_head : RefKey.head.isBookmark = false := rfl

@[simp] theorem RefKey.isBookmark_change (id : ChangeId) :
    (RefKey.change id).isBookmark = false := rfl

@[simp] theorem RefKey.isBookmark_workspace (id : WorkspaceId) :
    (RefKey.workspace id).isBookmark = false := rfl

/-- An entry of a ref other than a bookmark can be written back. -/
theorem RefSnapshot.restorable_of_key {e : RefSnapshot H} (he : e.key.isBookmark = false) :
    e.Restorable := by
  cases e with
  | bookmark name value => cases he
  | _ => trivial

/-- Writing an entry back is one write of its ref. -/
theorem restoreRef_eq {e : RefSnapshot H} (he : e.Restorable) : restoreRef e = writeRef e := by
  match e, he with
  | .head (some _), _ | .head none, _ => rfl
  | .change id (some ⟨c, hc⟩), _ => subst hc; rfl
  | .change _ none, _ => rfl
  | .workspace id (some ⟨m, hm⟩), _ => subst hm; rfl
  | .bookmark name (some id), he =>
    simp only [RefSnapshot.Restorable] at he
    simp only [restoreRef, setBookmark, if_neg he]
  | .bookmark _ none, _ => rfl
  | .workspace id none, _ =>
    refine eq_of_post fun w Q E h => ?_
    rw [post_writeRef] at h
    rw [restoreRef, post_tryCatch, deleteWorkspace, post_bind, post_step]
    refine ⟨fun hf => ?_, fun err hf => ?_⟩
    · have hQ := h.1 hf
      rw [post_bind, post_get, post_ite]
      refine ⟨fun _ => hQ, fun hm => ?_⟩
      -- the manifest is not there: writing its absence changes nothing
      rw [Refs.write_workspace_none (show id ∉ w.repo.refs.workspaces from hm)] at hQ
      exact hQ
    · have hE := h.2 err hf
      split
      · exact absurd hf (by simp [Env.failure])
      · exact hE

/-! ## Restoring a list of entries -/

/-- Writing entries back: all of them, or those before the write that fails. -/
theorem restoreRefs_spec [LinearOrder H] [Format H] {es : List (RefSnapshot H)}
    (hes : ∀ e ∈ es, e.Restorable) {Q : Unit → World H → Prop} {E : Error → World H → Prop}
    (hok : ∀ w', w.Wrote w' es w.log → Q () w') (herr : ∀ e w', w.Failed w' es e → E e w') :
    Post (restoreRefs es) w Q E := by
  -- `done` are the entries written so far
  suffices h : ∀ done todo : List (RefSnapshot H), done ++ todo = es → ∀ w₁ : World H,
      w.Wrote w₁ done w.log → Post (restoreRefs todo) w₁ Q E from h [] es rfl w (.refl w)
  intro done todo
  induction todo generalizing done with
  | nil =>
    rintro rfl w₁ hw
    rw [List.append_nil] at hok
    exact hok w₁ hw
  | cons e todo ih =>
    intro heq w₁ hw
    have he : e.Restorable := hes e (by simp [← heq])
    rw [restoreRefs, post_bind, restoreRef_eq he]
    refine writeRef_spec hw (fun w₂ hw₂ => ?_) (fun err w₂ hfail _ => ?_)
    · exact ih (done ++ [e]) (by simp [heq]) w₂ hw₂
    · exact herr err w₂ (heq ▸ hfail todo)

/-! ## What an undo does -/

variable [LinearOrder H] [Format H]

/-- **An undo** finds nothing to undo and writes nothing; or it writes back the entries recorded
before the top of the stack, and a record of what it has overwritten. When it fails before the
first write it has written nothing. -/
theorem undoOnce_target_spec (actor : PrincipalId)
    (hrest : ∀ target, pickOpToUndo w.repo.oplog = some target →
      ∀ e ∈ target.before, e.Restorable) :
    Post (undoOnce actor) w
      (fun out w' =>
        match out with
        | none => pickOpToUndo w.repo.oplog = none ∧ w.Quiet w'
        | some o => pickOpToUndo w.repo.oplog = some o.undone ∧
            o.recorded.id = w.log.nextId ∧ o.recorded.kind = .undo o.undone.id ∧
            o.recorded.before = (o.undone.before.map fun e => w.repo.refs.read e.key) ∧
            o.recorded.after = o.undone.before ∧
            w.Committed w' o.undone.before o.recorded)
      (fun e w' => w.Quiet w' ∧ w.env.Fault e ∨
        ∃ target, pickOpToUndo w.repo.oplog = some target ∧ w.Failed w' target.before e) := by
  rw [undoOnce, post_bind]
  refine listOps_spec (fun w₁ hs₁ hr₁ => ?_)
    (fun e w₁ hs₁ hr₁ hf => Or.inl ⟨.of_repo hs₁ hr₁, hf⟩)
  have hq₁ := World.Quiet.of_repo hs₁ hr₁
  cases hpick : pickOpToUndo w.repo.oplog with
  | none => exact ⟨rfl, hq₁⟩
  | some target =>
    dsimp only
    rw [post_bind]
    refine openWorkspaces_spec (fun w₀ hs₀ hr₀ => ?_)
      (fun e w₀ hs₀ hr₀ hf => Or.inl ⟨hq₁.trans (.of_repo hs₀ hr₀), hs₁.env ▸ hf⟩)
    have hq₀ := hq₁.trans (.of_repo hs₀ hr₀)
    rw [post_bind]
    refine readCurrents_spec _ (fun w₂ hs₂ hr₂ => ?_)
      (fun e w₂ hs₂ hr₂ hf => Or.inl ⟨hq₀.trans (.of_repo hs₂ hr₂), hq₀.env ▸ hf⟩)
    have hq₂ := hq₀.trans (.of_repo hs₂ hr₂)
    rw [post_bind]
    refine restoreRefs_spec (hrest target hpick) (fun w₃ hw₃ => ?_)
      (fun e w₃ hfail => Or.inr ⟨target, rfl, hfail.of_quiet hq₂⟩)
    rw [post_bind]
    refine appendOp_spec hw₃ (fun ts w₄ hc _ _ => ?_)
      (fun e w₄ hfail => Or.inr ⟨target, rfl, hfail.of_quiet hq₂⟩)
    exact ⟨rfl, by rw [hq₂.log], rfl, by rw [hr₀, hr₁], rfl, hc.of_quiet hq₂⟩

/-- An undo over a log in which every entry can be written back. -/
theorem undoOnce_spec (actor : PrincipalId)
    (hrest : ∀ op ∈ w.repo.oplog, op.isUndo = false → ∀ e ∈ op.before, e.Restorable) :
    Post (undoOnce actor) w
      (fun out w' =>
        match out with
        | none => pickOpToUndo w.repo.oplog = none ∧ w.Quiet w'
        | some o => pickOpToUndo w.repo.oplog = some o.undone ∧
            o.recorded.id = w.log.nextId ∧ o.recorded.kind = .undo o.undone.id ∧
            o.recorded.before = (o.undone.before.map fun e => w.repo.refs.read e.key) ∧
            o.recorded.after = o.undone.before ∧
            w.Committed w' o.undone.before o.recorded)
      (fun e w' => w.Quiet w' ∧ w.env.Fault e ∨
        ∃ target, pickOpToUndo w.repo.oplog = some target ∧ w.Failed w' target.before e) :=
  undoOnce_target_spec actor fun target hpick =>
    hrest target (mem_of_pickOpToUndo hpick).1 (mem_of_pickOpToUndo hpick).2

end Tig
