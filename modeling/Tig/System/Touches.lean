import Tig.Cli.Commands

set_option relaxedAutoImplicit false
set_option autoImplicit false

/-!
# Which refs a program touches

What a program leaves alone, whether or not it fails and whatever steps fail, and that the ids of
workspaces, in refs and log, have come from the generator.

## Main definitions

* `Tig.World.Gave` — the generator has given out an id.
* `Tig.World.Touched` — no refs but some have changed.
* `Tig.Touches` — a program changes no refs but some.

## Main results

* `Tig.Touches.bind` — one program after another.
* `Tig.touches_snapNow`, `Tig.touches_recordNewChange`, `Tig.touches_undoOnce`, … — the refs that
  the parts of commands touch.
-/

namespace Tig

open Program

variable {H : Type}

/-! ## Ids -/

/-- The generator has given out an id. -/
def World.Gave (w : World H) (id : String) : Prop := ∃ n < w.ids, id = w.env.ulid n

/-- The ids of workspaces, in refs and log, have come from the generator. -/
structure World.IdsKnown (w : World H) : Prop where
  refs : ∀ id ∈ w.repo.refs.workspaces, w.Gave id
  log : ∀ op ∈ w.repo.oplog, ∀ e ∈ op.before ++ op.after, ∀ id, e.key = .workspace id → w.Gave id

/-- From the one world to the other no refs but some have changed. -/
structure World.Touched (W : RefKey → Prop) (w w' : World H) : Prop where
  env : w'.env = w.env
  ids : w.ids ≤ w'.ids
  frame : ∀ k, ¬ W k → w'.repo.refs.read k = w.repo.refs.read k
  known : w'.IdsKnown

variable {w w₁ w' : World H} {W V : RefKey → Prop}

theorem World.Gave.mono {id : String} (h : w.Gave id) (henv : w'.env = w.env)
    (hids : w.ids ≤ w'.ids) : w'.Gave id := by
  obtain ⟨n, hn, hid⟩ := h
  exact ⟨n, hn.trans_le hids, henv ▸ hid⟩

namespace World.Touched

theorem refl (h : w.IdsKnown) : w.Touched W w := ⟨rfl, le_rfl, fun _ _ => rfl, h⟩

theorem trans (h : w.Touched W w₁) (h' : w₁.Touched W w') : w.Touched W w' where
  env := h'.env.trans h.env
  ids := h.ids.trans h'.ids
  frame k hk := (h'.frame k hk).trans (h.frame k hk)
  known := h'.known

theorem mono (h : w.Touched W w') (hW : ∀ k, W k → V k) : w.Touched V w' :=
  ⟨h.env, h.ids, fun k hk => h.frame k fun hw => hk (hW k hw), h.known⟩

theorem gave (h : w.Touched W w') {id : String} (hid : w.Gave id) : w'.Gave id :=
  hid.mono h.env h.ids

/-- The manifest of a workspace that is not touched is as it was. -/
theorem workspace (h : w.Touched W w') {id : WorkspaceId} (hid : ¬ W (.workspace id)) :
    w'.repo.refs.workspaces.lookup id = w.repo.refs.workspaces.lookup id := by
  have hread := h.frame _ hid
  simpa only [Refs.read, RefSnapshot.workspace.injEq, heq_eq_eq, true_and] using hread

end World.Touched

/-! ## Programs -/

/-- A program changes no refs but some, whether or not it fails, and establishes `P`. -/
def Touches {α : Type} (W : RefKey → Prop) (x : RepoM H α) (w : World H)
    (P : α → World H → Prop) : Prop :=
  Post x w (fun a w' => w.Touched W w' ∧ P a w') (fun _ w' => w.Touched W w')

variable {α β : Type} {P : α → World H → Prop} {R : β → World H → Prop}

theorem Touches.bind {x : RepoM H α} {f : α → RepoM H β} (hx : Touches W x w P)
    (hf : ∀ a w₁, w.Touched W w₁ → P a w₁ → Touches W (f a) w₁ R) : Touches W (x >>= f) w R := by
  unfold Touches
  rw [post_bind]
  refine Post.mono hx (fun a w₁ h => ?_) (fun _ _ h => h)
  exact Post.mono (hf a w₁ h.1 h.2) (fun _ _ h' => ⟨h.1.trans h'.1, h'.2⟩)
    (fun _ _ h' => h.1.trans h')

theorem Touches.pure {a : α} (h : w.IdsKnown) (hP : P a w) :
    Touches W (Pure.pure a : RepoM H α) w P :=
  ⟨.refl h, hP⟩

theorem Touches.throw {e : Error} (h : w.IdsKnown) : Touches W (throw e : RepoM H α) w P :=
  World.Touched.refl h

theorem Touches.mono {x : RepoM H α} {Q : α → World H → Prop} (h : Touches W x w P)
    (hW : ∀ k, W k → V k) (hP : ∀ a w', w.Touched W w' → P a w' → Q a w') : Touches V x w Q :=
  Post.mono h (fun a w' h => ⟨h.1.mono hW, hP a w' h.1 h.2⟩) (fun _ _ h => h.mono hW)

variable [LinearOrder H] [Format H]

/-- What keeps refs and log touches nothing. -/
theorem World.Kept.touched (hk : w.Kept w') (h : w.IdsKnown) : w.Touched W w' where
  env := hk.env
  ids := hk.idsLe
  frame k _ := by rw [hk.refs]
  known := by
    refine ⟨fun id hid => ?_, fun op hop e he id hid => ?_⟩
    · rw [hk.refs] at hid
      exact (h.refs id hid).mono hk.env hk.idsLe
    · rw [hk.oplog] at hop
      exact (h.log op hop e he id hid).mono hk.env hk.idsLe

theorem Keeps.touches {x : RepoM H α} (hx : Keeps x w P) (h : w.IdsKnown) : Touches W x w P :=
  Post.mono hx (fun _ _ hk => ⟨hk.1.touched h, hk.2⟩) (fun _ _ hk => hk.touched h)

/-- What a program does first, as long as it keeps refs and log. -/
theorem Touches.of_keeps_bind {x : RepoM H α} {f : α → RepoM H β} (h : w.IdsKnown)
    (hx : Keeps x w P)
    (hf : ∀ a w₁, w.Kept w₁ → w₁.IdsKnown → P a w₁ → Touches W (f a) w₁ R) :
    Touches W (x >>= f) w R := by
  unfold Touches
  rw [post_bind]
  refine Post.mono hx (fun a w₁ hk => ?_) (fun _ _ hk => hk.touched h)
  have ht : w.Touched W w₁ := hk.1.touched h
  exact Post.mono (hf a w₁ hk.1 ht.known hk.2) (fun _ _ h' => ⟨ht.trans h'.1, h'.2⟩)
    (fun _ _ h' => ht.trans h')

omit [LinearOrder H] [Format H]

/-- Writing a ref touches it, if it changes. -/
theorem touches_writeRef {e : RefSnapshot H} (h : w.IdsKnown)
    (hid : ∀ id, e.key = .workspace id → w.Gave id) :
    Touches (fun k => k = e.key ∧ e ≠ w.repo.refs.read k) (writeRef e) w fun _ w' =>
      w'.repo.refs = w.repo.refs.write e := by
  refine post_writeRef.mpr ⟨fun _ => ⟨⟨rfl, le_rfl, fun k hk => ?_, ?_⟩, rfl⟩, fun _ _ =>
    ⟨rfl, le_rfl, fun _ _ => rfl, ⟨h.refs, h.log⟩⟩⟩
  · show (w.repo.refs.write e).read k = w.repo.refs.read k
    by_cases hkey : k = e.key
    · subst hkey
      rw [Refs.read_write]
      exact not_not.mp fun hne => hk ⟨rfl, hne⟩
    · exact Refs.read_write_of_ne _ _ _ hkey
  · refine ⟨fun id hmem => ?_, h.log⟩
    by_cases hkey : RefKey.workspace id = e.key
    · exact hid id hkey.symm
    · have hread := Refs.read_write_of_ne w.repo.refs e _ hkey
      simp only [Refs.read, RefSnapshot.workspace.injEq, heq_eq_eq, true_and] at hread
      refine h.refs id (Finmap.lookup_isSome.mp ?_)
      rw [← hread]
      exact Finmap.lookup_isSome.mpr hmem

/-- Appending a record touches no ref. -/
theorem touches_appendOp {op : OpInProgress H} (h : w.IdsKnown)
    (hid : ∀ e ∈ op.before ++ op.after, ∀ id, e.key = .workspace id → w.Gave id) :
    Touches W (appendOp op) w fun _ w' => w'.repo.refs = w.repo.refs := by
  have hlog : ∀ op' : Op H, op'.before = op.before → op'.after = op.after →
      ∀ o ∈ w.repo.oplog ++ [op'], ∀ e ∈ o.before ++ o.after, ∀ id, e.key = .workspace id →
        w.Gave id := by
    intro op' hb ha o ho e he id hkey
    rcases List.mem_append.mp ho with ho | ho
    · exact h.log o ho e he id hkey
    · obtain rfl := List.mem_singleton.mp ho
      rw [hb, ha] at he
      exact hid e he id hkey
  refine post_appendOp.mpr ⟨fun _ => ⟨fun _ => ⟨?_, rfl⟩, fun _ _ => ?_⟩, fun _ _ => ?_⟩
  · exact ⟨rfl, le_rfl, fun _ _ => rfl, ⟨h.refs, hlog _ rfl rfl⟩⟩
  · exact ⟨rfl, le_rfl, fun _ _ => rfl, ⟨h.refs, hlog _ rfl rfl⟩⟩
  · exact ⟨rfl, le_rfl, fun _ _ => rfl, ⟨h.refs, h.log⟩⟩

/-- What is written back to a ref touches it, if it changes. -/
theorem touches_restoreRef {e : RefSnapshot H} (h : w.IdsKnown)
    (hid : ∀ id, e.key = .workspace id → w.Gave id) :
    Touches (fun k => k = e.key ∧ e ≠ w.repo.refs.read k) (restoreRef e) w fun _ _ => True := by
  by_cases he : e.Restorable
  · rw [restoreRef_eq he]
    exact (touches_writeRef h hid).mono (fun _ hk => hk) fun _ _ _ _ => trivial
  · cases e with
    | bookmark name value =>
      cases value with
      | none => exact absurd trivial he
      | some id =>
        rw [restoreRef, setBookmark]
        simp only [RefSnapshot.Restorable, not_not] at he
        rw [if_pos he]
        exact World.Touched.refl h
    | head value => exact absurd trivial he
    | change id value => exact absurd trivial he
    | workspace id value => exact absurd trivial he

/-- What is written back to several refs touches those that change. -/
theorem touches_restoreRefs {es : List (RefSnapshot H)} (h : w.IdsKnown)
    (hid : ∀ e ∈ es, ∀ id, e.key = .workspace id → w.Gave id) :
    Touches (fun k => ∃ e ∈ es, e.key = k ∧ e ≠ w.repo.refs.read k) (restoreRefs es) w
      fun _ _ => True := by
  induction es generalizing w with
  | nil => exact Touches.pure h trivial
  | cons e es ih =>
    have hfirst := touches_restoreRef h (hid e List.mem_cons_self)
    -- A ref that the first entry leaves is one that the others change now if they did before.
    have hboth : ∀ {w₁ w₂ : World H}, w.Touched (fun k => k = e.key ∧ e ≠ w.repo.refs.read k) w₁ →
        w₁.Touched (fun k => ∃ e' ∈ es, e'.key = k ∧ e' ≠ w₁.repo.refs.read k) w₂ →
        w.Touched (fun k => ∃ e' ∈ e :: es, e'.key = k ∧ e' ≠ w.repo.refs.read k) w₂ := by
      intro w₁ w₂ h₁ h₂
      refine ⟨h₂.env.trans h₁.env, h₁.ids.trans h₂.ids, fun k hk => ?_, h₂.known⟩
      have hread := h₁.frame k fun hw => hk ⟨e, List.mem_cons_self, hw.1.symm, hw.2⟩
      rw [← hread]
      refine h₂.frame k fun ⟨e', he', hkey, hne⟩ => hk ⟨e', List.mem_cons_of_mem _ he', hkey, ?_⟩
      rwa [← hread]
    unfold Touches
    rw [restoreRefs, post_bind]
    refine Post.mono hfirst (fun _ w₁ h₁ => ?_) (fun _ w₁ h₁ => hboth h₁ (.refl h₁.known))
    exact Post.mono (ih h₁.1.known fun e' he' id hkey =>
        h₁.1.gave (hid e' (List.mem_cons_of_mem _ he') id hkey))
      (fun _ w₂ h₂ => ⟨hboth h₁.1 h₂.1, trivial⟩) (fun _ w₂ h₂ => hboth h₁.1 h₂)

/-! ## The parts of commands -/

section Parts

variable [LinearOrder H] [Format H]

/-- What is written by a snapshot of a workspace is the record of the change, and the pointer of the
main workspace when the change is fresh. -/
theorem touches_recordSnap {ws : Workspace} {opts : SnapOptions} {treeHash : H} {base : SnapBase H}
    (h : w.IdsKnown) (hws : ∀ id, ws.key = .workspace id → w.Gave id)
    (hkind : base.fresh = true → ws.kind = .main) (hbefore : base.before.key = .change base.change.id)
    (hchange : W (.change base.change.id)) (hhead : base.fresh = true → W .head) :
    Touches W (recordSnap ws opts treeHash base) w fun out _ => out.change.id = base.change.id := by
  have hadvanced : ∀ x, (base.advanced x).id = base.change.id := by
    intro x
    rw [SnapBase.advanced]
    split
    · rfl
    · exact Change.advance_id _ _
  refine Touches.bind (keeps_captureWorkspaceRef.touches h) fun before w₁ h₁ hkey₁ => ?_
  refine Touches.bind (keeps_currentTimestampNs.touches h₁.known) fun now w₂ h₂ _ => ?_
  refine Touches.bind ((keeps_storeObject LawfulFormat.snapshot).touches h₂.known)
    fun snapHash w₃ h₃ _ => ?_
  refine Touches.bind (P := fun _ _ => True) ?_ fun _ w₄ h₄ _ => ?_
  · refine (touches_writeRef h₃.known fun id hid => ?_).mono ?_ fun _ _ _ _ => trivial
    · cases hid
    · rintro k ⟨rfl, -⟩
      show W (.change (base.advanced snapHash).id)
      rwa [hadvanced]
  refine Touches.bind (P := fun _ _ => True) ?_ fun _ w₅ h₅ _ => ?_
  · rw [pointAtFresh]
    split
    · obtain ⟨kind, dir⟩ := ws
      obtain rfl : kind = .main := hkind ‹_›
      refine Touches.bind (P := fun _ _ => True) ?_ fun _ w₅ h₅ _ => Touches.pure h₅.known trivial
      refine Touches.bind (P := fun _ _ => True) ?_ fun _ w₅ h₅ _ => Touches.pure h₅.known trivial
      refine (touches_writeRef h₄.known fun id hid => ?_).mono ?_ fun _ _ _ _ => trivial
      · cases hid
      · rintro k ⟨rfl, -⟩
        exact hhead ‹_›
    · exact Touches.pure h₄.known trivial
  refine Touches.bind (keeps_captureWorkspaceRef.touches h₅.known) fun after w₆ h₆ hkey₆ => ?_
  have h₁₆ := ((((h₁.trans h₂).trans h₃).trans h₄).trans h₅).trans h₆
  refine Touches.bind (touches_appendOp h₆.known fun e he id hid => ?_) fun _ w₇ h₇ _ =>
    Touches.pure h₇.known (hadvanced snapHash)
  have hcaptured : ∀ e : RefSnapshot H, e.key = ws.key ∨ e.key = .head → e.key = .workspace id →
      w₆.Gave id := by
    rintro e (hkey | hkey) hid
    · exact h₁₆.gave (hws id (hkey ▸ hid))
    · rw [hkey] at hid
      cases hid
  simp only [List.cons_append, List.nil_append, List.mem_cons, List.not_mem_nil, or_false] at he
  rcases he with rfl | rfl | rfl | rfl
  · exact hcaptured _ hkey₁ hid
  · rw [hbefore] at hid
    cases hid
  · exact hcaptured _ hkey₆ hid
  · cases hid

/-- **A snapshot of a workspace** writes the record of the change that it is taken on top of, and the
pointer of the main workspace when that is fresh. -/
theorem touches_snapNow {ws : Workspace} {copy : WorkingCopy} {opts : SnapOptions} (h : w.IdsKnown)
    (hws : ∀ id, ws.key = .workspace id → w.Gave id)
    (hW : ∀ (base : SnapBase H) n, base.IsFor ws opts w.repo.refs (w.env.ulid n) →
      W (.change base.change.id) ∧ (base.fresh = true → W .head)) :
    Touches W (snapNow ws copy opts) w fun out _ => ∃ (base : SnapBase H) (n : Nat),
      base.IsFor ws opts w.repo.refs (w.env.ulid n) ∧ out.change.id = base.change.id := by
  refine Touches.of_keeps_bind h keeps_scan fun treeHash w₁ hk₁ h₁ _ => ?_
  refine Touches.of_keeps_bind h₁ keeps_snapBase fun base w₂ hk₂ h₂ ⟨n, hbase, _⟩ => ?_
  rw [hk₁.refs, hk₁.env] at hbase
  have hk₁₂ := hk₁.trans hk₂
  refine Touches.of_keeps_bind h₂ keeps_unchangedSince fun unchanged w₃ hk₃ h₃ _ => ?_
  have hk := hk₁₂.trans hk₃
  split
  · exact Touches.pure h₃ ⟨base, n, hbase, rfl⟩
  · refine (touches_recordSnap h₃ (fun id hid => (hws id hid).mono hk.env hk.idsLe)
      hbase.kind_of_fresh ?_ (hW base n hbase).1 (hW base n hbase).2).mono (fun _ hk => hk)
      fun _ _ _ hid => ⟨base, n, hbase, hid⟩
    cases hbase with
    | current => rfl
    | fresh => rfl

/-- A snapshot of a secondary workspace writes the record of the change that its handle names. -/
theorem touches_snapNow_secondary {m : WorkspaceManifest} {dir : String} {copy : WorkingCopy}
    {opts : SnapOptions} (h : w.IdsKnown) (hm : w.Gave m.id) :
    Touches (fun k => k = .change m.changeId) (snapNow ⟨.secondary m, dir⟩ copy opts) w
      fun out _ => out.change.id = m.changeId := by
  have hbase : ∀ (base : SnapBase H) n,
      base.IsFor ⟨.secondary m, dir⟩ opts w.repo.refs (w.env.ulid n) →
        base.change.id = m.changeId ∧ base.fresh = false := by
    intro base n hfor
    cases hfor with
    | current id c hws hc => exact ⟨c.2.trans (Option.some.inj hws).symm, rfl⟩
    | fresh hws => cases hws
  refine (touches_snapNow h (fun id hid => ?_) fun base n hfor => ⟨?_, fun hf => ?_⟩).mono
    (fun _ hk => hk) fun out _ _ ⟨base, n, hfor, hid⟩ => hid.trans (hbase base n hfor).1
  · exact RefKey.workspace.inj hid ▸ hm
  · rw [(hbase base n hfor).1]
  · rw [(hbase base n hfor).2] at hf
    cases hf

/-- A snapshot of the main workspace writes no manifest. -/
theorem touches_snapNow_main {dir : String} {copy : WorkingCopy} {opts : SnapOptions}
    (h : w.IdsKnown) :
    Touches (fun k => ∀ id, k ≠ .workspace id) (snapNow ⟨.main, dir⟩ copy opts) w
      fun _ _ => True := by
  refine (touches_snapNow h (fun id hid => by cases hid)
    fun base n hfor => ⟨fun id => RefKey.noConfusion, fun _ id => RefKey.noConfusion⟩).mono
    (fun _ hk => hk) fun _ _ _ _ => trivial

theorem keeps_startingSnapshot_secondary {m : WorkspaceManifest} {dir : String}
    {author : PrincipalId} :
    Keeps (startingSnapshot ⟨.secondary m, dir⟩ author) w fun h _ =>
      ∃ c, w.repo.refs.changes.lookup m.changeId = some c ∧ h = c.1.current := by
  refine Keeps.bind keeps_currentChangeId fun cur w₁ hk₁ hcur => ?_
  subst hcur
  refine Keeps.bind keeps_getChange fun c w₂ hk₂ hc => Keeps.pure ⟨c, ?_, rfl⟩
  rwa [hk₁.refs] at hc

theorem keeps_workspaceRefSnapshot_key {ws : Workspace} :
    Keeps (workspaceRefSnapshot ws) w fun e _ => e.key = ws.key :=
  keeps_workspaceRefSnapshot.mono (fun _ _ h => ⟨h.1, h.2 ▸ Refs.key_read _ _⟩)
    (fun _ _ h => h)

/-- **A new change** writes its record and the pointer of the workspace. -/
theorem touches_recordNewChange {ws : Workspace} {actor : PrincipalId} {change : Change H}
    {description : String} (h : w.IdsKnown) (hws : ∀ id, ws.key = .workspace id → w.Gave id)
    (hchange : W (.change change.id)) (hpointer : W ws.key) :
    Touches W (recordNewChange ws actor change description) w fun c _ => c = change := by
  refine Touches.of_keeps_bind h keeps_workspaceRefSnapshot_key fun before w₁ hk₁ h₁ hkey₁ => ?_
  have hws₁ : ∀ id, ws.key = .workspace id → w₁.Gave id := fun id hid =>
    (hws id hid).mono hk₁.env hk₁.idsLe
  refine Touches.bind (P := fun _ _ => True) ?_ fun _ w₂ h₂ _ => ?_
  · refine (touches_writeRef h₁ fun id hid => ?_).mono ?_ fun _ _ _ _ => trivial
    · cases hid
    · rintro k ⟨rfl, -⟩
      exact hchange
  refine Touches.bind (P := fun _ _ => True) ?_ fun _ w₃ h₃ _ => ?_
  · obtain ⟨_ | m, dir⟩ := ws
    · refine Touches.bind (P := fun _ _ => True) ?_ fun _ w₃ h₃ _ => Touches.pure h₃.known trivial
      refine (touches_writeRef h₂.known fun id hid => ?_).mono ?_ fun _ _ _ _ => trivial
      · cases hid
      · rintro k ⟨rfl, -⟩
        exact hpointer
    · refine Touches.of_keeps_bind h₂.known keeps_openWorkspaces fun _ w₃ hk₃ h₃ _ => ?_
      refine Touches.bind (P := fun _ _ => True) ?_ fun _ w₄ h₄ _ => Touches.pure h₄.known trivial
      refine (touches_writeRef h₃ fun id hid => ?_).mono ?_ fun _ _ _ _ => trivial
      · exact (h₂.gave (hws₁ id hid)).mono hk₃.env hk₃.idsLe
      · rintro k ⟨rfl, -⟩
        exact hpointer
  refine Touches.of_keeps_bind h₃.known keeps_workspaceRefSnapshot_key
    fun after w₄ hk₄ h₄ hkey₄ => ?_
  refine Touches.bind (touches_appendOp h₄ fun e he id hid => ?_) fun _ w₅ h₅ _ =>
    Touches.pure h₅.known rfl
  have hpointed : ∀ e : RefSnapshot H, e.key = ws.key → e.key = .workspace id → w₄.Gave id := by
    intro e hkey hid
    exact (h₃.gave (h₂.gave (hws₁ id (hkey ▸ hid)))).mono hk₄.env hk₄.idsLe
  simp only [List.cons_append, List.nil_append, List.mem_cons, List.not_mem_nil, or_false] at he
  rcases he with rfl | rfl | rfl | rfl
  · exact hpointed _ hkey₁ hid
  · cases hid
  · exact hpointed _ hkey₄ hid
  · cases hid

/-- **An undo** touches the refs that its entries change. -/
theorem touches_undoOnce {actor : PrincipalId} (h : w.IdsKnown) :
    Touches (fun k => ∃ target, pickOpToUndo w.repo.oplog = some target ∧
      ∃ e ∈ target.before, e.key = k ∧ e ≠ w.repo.refs.read k) (undoOnce actor) w
      fun _ _ => True := by
  have hlist : Keeps (listOps : RepoM H _) w fun ops _ => ops = w.repo.oplog :=
    listOps_spec (fun _ hs hr => ⟨(World.Quiet.of_repo hs hr).kept, rfl⟩)
      (fun _ _ hs hr _ => (World.Quiet.of_repo hs hr).kept)
  refine Touches.of_keeps_bind h hlist fun ops w₁ hk₁ h₁ hops => ?_
  subst hops
  cases hpick : pickOpToUndo w.repo.oplog with
  | none => exact Touches.pure h₁ trivial
  | some target =>
    have hgave : ∀ e ∈ target.before, ∀ id, e.key = .workspace id → w₁.Gave id := by
      intro e he id hid
      exact (h.log target (mem_of_pickOpToUndo hpick).1 e (List.mem_append_left _ he) id hid).mono
        hk₁.env hk₁.idsLe
    refine Touches.of_keeps_bind h₁ keeps_openWorkspaces fun _ w₂ hk₂ h₂ _ => ?_
    have hread : Keeps (readCurrents target.before) w₂ fun now _ =>
        now = target.before.map fun e => w₂.repo.refs.read e.key :=
      readCurrents_spec _ (fun _ hs hr => ⟨(World.Quiet.of_repo hs hr).kept, rfl⟩)
        (fun _ _ hs hr _ => (World.Quiet.of_repo hs hr).kept)
    refine Touches.of_keeps_bind h₂ hread fun now w₃ hk₃ h₃ hnow => ?_
    have hk₁₃ := hk₂.trans hk₃
    have hrefs : w₃.repo.refs = w.repo.refs := (hk₁.trans hk₁₃).refs
    have hgave₃ : ∀ e ∈ target.before, ∀ id, e.key = .workspace id → w₃.Gave id :=
      fun e he id hid => (hgave e he id hid).mono hk₁₃.env hk₁₃.idsLe
    refine Touches.bind ((touches_restoreRefs h₃ hgave₃).mono (fun k hk => ?_)
      (Q := fun _ _ => True) fun _ _ _ _ => trivial) fun _ w₄ h₄ _ => ?_
    · rw [hrefs] at hk
      exact ⟨target, rfl, hk⟩
    refine Touches.bind (touches_appendOp h₄.known fun e he id hid => ?_) fun _ w₅ h₅ _ =>
      Touches.pure h₅.known trivial
    rcases List.mem_append.mp he with he | he
    · rw [hnow] at he
      obtain ⟨e', he', rfl⟩ := List.mem_map.mp he
      rw [Refs.key_read] at hid
      exact h₄.gave (hgave₃ e' he' id hid)
    · exact h₄.gave (hgave₃ e he id hid)

end Parts

end Tig
