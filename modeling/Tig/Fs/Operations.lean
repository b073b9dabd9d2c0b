import Tig.Fs.Snap

set_option relaxedAutoImplicit false
set_option autoImplicit false

/-!
# Pieces of operations

What the commands and the handlers of the daemon have in common besides snapshots: the empty
snapshot a change without a parent starts at, and the record of a change that gets another state
or visibility.

## Main definitions

* `Tig.emptySnapshot` — a stored snapshot of the empty tree.
* `Tig.transitionOp` — the record of a transition.

## Main results

* `Tig.transitionOp_outcome` — a transition is recorded.
-/

namespace Tig

open Program

variable {H : Type} [LinearOrder H] [Format H]

/-- An optional argument, or the value that stays. -/
def parseOr {ε α : Type} (parse : String → Except ε α) (arg : Option String) (old : α) :
    Except ε α :=
  match arg with
  | some s => parse s
  | none => .ok old

/-- A stored snapshot of the empty tree. -/
def emptySnapshot (author : PrincipalId) : RepoM H H := do
  let treeH ← storeObject (Tree.new : Tree H)
  let now ← currentTimestampNs
  storeObject (⟨[], treeH, author, now, some "(empty)", none⟩ : Snapshot H)

/-- The record of a transition from `before` to `change`. -/
def transitionOp (actor : PrincipalId) (before change : Change H) : OpInProgress H where
  actor := actor
  kind := .changeTransition change.id before.state change.state before.visibility change.visibility
  before := [.ofChange before]
  after := [.ofChange change]

variable {w : World H}

theorem keeps_lockForWrite : Keeps (lockForWrite : RepoM H Unit) w fun _ _ => True :=
  keeps_step (by simp [FsStep.Mutates])

/-- The snapshot of an empty tree has no parents. -/
theorem keeps_emptySnapshot {author : PrincipalId} :
    Keeps (emptySnapshot author) w fun h w' =>
      ∀ [LawfulFormat H], w.repo.objects.Intact → Lineage w'.repo.objects h 0 := by
  refine Keeps.bind (keeps_storeObject LawfulFormat.tree) fun treeH w₁ hk₁ _ => ?_
  refine Keeps.bind keeps_currentTimestampNs fun now w₂ hk₂ _ => ?_
  refine Post.mono (keeps_storeObject LawfulFormat.snapshot) (fun h w₃ hs => ⟨hs.1, fun hi => ?_⟩)
    (fun _ _ hk => hk)
  exact .root h _ (hs.2.2 (hk₂.intact (hk₁.intact hi))) rfl

/-- Recording that a change has got another state or visibility. -/
theorem transitionOp_outcome {w₁ w₂ : World H} (hw : w.Steady) (hk : w.Kept w₁)
    {actor : PrincipalId} {id : ChangeId} {before : ChangeAt H id} {change : Change H}
    {log : FileLog} (hwrote : w₁.Wrote w₂ [.ofChange change] log)
    (hc : w.repo.refs.changes.lookup id = some before) (hid : change.id = id)
    (hhist : change.history = before.1.history) (hcur : change.current = before.1.current) :
    Post (appendOp (transitionOp actor before.1 change)) w₂ (fun _ w' => w.Outcome w')
      (fun _ w' => w.Outcome w') := by
  have hrefs : w₂.repo.refs = w.repo.refs.write (.ofChange change) := by
    rw [hwrote.refs, hk.refs]
    rfl
  refine appendOp_outcome hw hk hwrote rfl [.change id] (by simp) (fun e he => ?_)
    ⟨_, List.mem_cons_self⟩ ?_ ?_ ?_ fun hi hr => ?_
  · obtain rfl := List.mem_singleton.mp he
    simp [RefSnapshot.ofChange, RefSnapshot.key, hid]
  · rw [List.map_singleton, read_change hc]
    rfl
  · rw [List.map_singleton, hrefs, read_write_change hid]
    rfl
  · have hids := hw.ids.mono (hk.idsLe.trans hwrote.ids)
    rw [hrefs, hwrote.env, hk.env]
    refine hids.writeChange ?_
    rw [hid, ← before.2]
    exact hids.of_lookup hc
  · rw [hrefs]
    exact (hr.mono hk.le).writeChange (((hr.changes id before hc).mono hk.le).congr hhist hcur)

/-- An edit of a tree keeps refs and log. -/
theorem EditsPath.keeps {edit : H → RepoM H H} {path : String} (h : EditsPath edit path)
    (rootTree : H) : Keeps (edit rootTree) w fun _ _ => True :=
  (h rootTree w).mono (fun _ _ ⟨_, _, hg⟩ => ⟨hg.quiet.kept, trivial⟩) (fun _ _ hq => hq.kept)

end Tig
