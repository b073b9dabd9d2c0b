import Tig.Daemon.Reads
import Tig.Guarantees.Callers
import Tig.Guarantees.Oplog

set_option relaxedAutoImplicit false
set_option autoImplicit false

/-!
# What the log shows

A record of the log is shown to those who may see every change that it refers to, and is reduced to
its id and time for everyone else. What is printed of a record that is shown concerns changes that
the caller may see: the changes that a record is about are among those that it refers to.

## Main definitions

* `Tig.Op.RefersTo`, `Tig.Op.About` — the changes in the entries of a record, and those that its
  summary prints.
* `Tig.Refs.Sees` — a change is there, and the caller may see it.

## Main results

* `Tig.listOplog_redacts` — which records are shown, and what is shown of them.
-/

namespace Tig

open Program

variable {H : Type}

/-! ## Records and the changes in them -/

/-- An entry of the record is of this change, points at it, or is the manifest of a workspace that
does. -/
def Op.RefersTo (op : Op H) (id : ChangeId) : Prop :=
  (∃ c, .change id c ∈ op.before ++ op.after) ∨ .head (some id) ∈ op.before ++ op.after ∨
    ∃ ws m, .workspace ws (some m) ∈ op.before ++ op.after ∧ m.1.changeId = id

/-- The summary of the record prints something of this change: its id, description, state or
visibility, or its snapshot with the message. -/
def Op.About (op : Op H) (id : ChangeId) : Prop :=
  match op.kind with
  | .snap snapshot _ => ∃ c, .change id (some c) ∈ op.after ∧ c.1.current = snapshot
  | .changeNew changeId _ | .changeTransition changeId _ _ _ _ => id = changeId
  | .wtMake _ _ | .wtDrop _ _ | .undo _ => False

/-- Does the summary of an operation of this kind print something of a change? -/
def OpKind.printsChange : OpKind H → Bool
  | .snap _ _ | .changeNew _ _ | .changeTransition _ _ _ _ _ => true
  | .wtMake _ _ | .wtDrop _ _ | .undo _ => false

/-- The change is there, and the caller may see it. -/
def Refs.Sees (r : Refs H) (caller : PrincipalId) (id : ChangeId) : Prop :=
  ∃ c, r.changes.lookup id = some c ∧
    canSee c.1.visibility c.1.author (some caller) = true

theorem mem_referencedChangeIds {op : Op H} {id : ChangeId} :
    id ∈ referencedChangeIds op ↔ op.RefersTo id := by
  rw [referencedChangeIds, FiniteMap.mem_sorted, Finset.mem_val, List.mem_toFinset,
    List.mem_filterMap]
  constructor
  · rintro ⟨e, he, hid⟩
    cases e with
    | head value =>
      cases value with
      | none => cases hid
      | some value => exact Or.inr (Or.inl (Option.some.inj hid ▸ he))
    | change id' c => exact Or.inl ⟨Option.some.inj hid ▸ c, by cases hid; exact he⟩
    | workspace ws m =>
      cases m with
      | none => cases hid
      | some m => exact Or.inr (Or.inr ⟨ws, m, he, Option.some.inj hid⟩)
    | bookmark name value => cases hid
  · rintro (⟨c, he⟩ | he | ⟨ws, m, he, rfl⟩)
    · exact ⟨_, he, rfl⟩
    · exact ⟨_, he, rfl⟩
    · exact ⟨_, he, rfl⟩

/-- What a record is about is in its entries. -/
theorem OpKind.NamedIn.refersTo {op : Op H} (h : op.kind.NamedIn op.after) {id : ChangeId}
    (hid : op.About id) : op.RefersTo id := by
  revert h hid
  unfold Op.About OpKind.NamedIn
  cases op.kind with
  | snap snapshot message =>
    rintro - ⟨c, hc, -⟩
    exact Or.inl ⟨_, List.mem_append_right _ hc⟩
  | changeNew changeId description =>
    rintro ⟨c, hc⟩ rfl
    exact Or.inl ⟨_, List.mem_append_right _ hc⟩
  | changeTransition changeId fromState toState fromVis toVis =>
    rintro ⟨c, hc⟩ rfl
    exact Or.inl ⟨_, List.mem_append_right _ hc⟩
  | wtMake workspaceId name => exact fun _ h => h.elim
  | wtDrop workspaceId name => exact fun _ h => h.elim
  | undo undoneOp => exact fun _ h => h.elim

/-- A record that prints something of a change is about one. -/
theorem OpKind.NamedIn.exists_about {op : Op H} (h : op.kind.NamedIn op.after)
    (hprints : op.kind.printsChange = true) : ∃ id, op.About id := by
  revert h hprints
  unfold Op.About OpKind.NamedIn OpKind.printsChange
  cases op.kind with
  | snap snapshot message => exact fun ⟨id, c, hc, hcur⟩ _ => ⟨id, c, hc, hcur⟩
  | changeNew changeId description => exact fun _ _ => ⟨changeId, rfl⟩
  | changeTransition changeId fromState toState fromVis toVis => exact fun _ _ => ⟨changeId, rfl⟩
  | wtMake workspaceId name => exact fun _ h => absurd h Bool.false_ne_true
  | wtDrop workspaceId name => exact fun _ h => absurd h Bool.false_ne_true
  | undo undoneOp => exact fun _ h => absurd h Bool.false_ne_true

/-! ## Every record of a run names its changes -/

section Run

variable [LinearOrder H] [Format H]

/-- **Every record of a run** has the changes that it is about among its entries. -/
theorem Run.named {w : World H} {σ : UndoStack H} (h : Run w σ) :
    ∀ op ∈ w.repo.oplog, op.kind.NamedIn op.after := by
  induction h with
  | start w hrepo _ _ =>
    rw [hrepo]
    exact fun op hop => absurd hop List.not_mem_nil
  | @operation w σ h log op ih =>
    have hsteady := (h.chronicle.withLog log).steady
    rcases op.outcome hsteady with hk | ⟨record, hop⟩
    · rw [hk.oplog]
      exact ih
    · rw [hop.oplog]
      intro op' hop'
      rcases List.mem_append.mp hop' with hop' | hop'
      · exact ih op' hop'
      · obtain rfl := List.mem_singleton.mp hop'
        exact hop.named
  | @undo w σ h log actor ih =>
    obtain ⟨out, w', hrun, hout⟩ := (h.chronicle.withLog log).undoOnce_returns actor
    rw [final, hrun]
    rcases hout with ⟨-, -, hq⟩ | ⟨o, i, r, rest, -, -, -, hu, -, -, hcom⟩
    · show ∀ op ∈ w'.repo.oplog, _
      rw [hq.oplog]
      exact ih
    · show ∀ op ∈ w'.repo.oplog, _
      rw [hcom.oplog]
      intro op' hop'
      rcases List.mem_append.mp hop' with hop' | hop'
      · exact ih op' hop'
      · obtain rfl := List.mem_singleton.mp hop'
        revert hu
        unfold Op.isUndo OpKind.NamedIn
        cases o.recorded.kind <;> simp [OpKind.isUndo]
  | gc h log ih =>
    rw [(collectGarbage_collected .default).final.oplog]
    exact ih

end Run

/-! ## What is shown -/

/-- What is shown of a record, `view`, is the record itself if the caller may see every change that
it refers to, and otherwise only its id and time. A record that is shown prints nothing of any
other change. -/
structure Shows [HashFn H] (r : Refs H) (caller : PrincipalId) (op : Op H) (view : OpView) :
    Prop where
  id : view.id = op.id
  tsNs : view.tsNs = op.tsNs
  shown_iff : view = OpView.fromCore op ↔ ∀ id, op.RefersTo id → r.Sees caller id
  hidden : (∃ id, op.RefersTo id ∧ ¬ r.Sees caller id) →
    view = ⟨op.id, op.tsNs, "<redacted>", "Redacted", "<redacted>"⟩
  about : op.kind.printsChange = true → ∃ id, op.About id
  sound : view = OpView.fromCore op → ∀ id, op.About id → r.Sees caller id

/-- No record is shown as redacted. -/
theorem redactedOpView_ne [HashFn H] (op op' : Op H) :
    redactedOpView op ≠ OpView.fromCore op' := by
  intro h
  have hkind : "Redacted" = kindDiscriminator op'.kind := congrArg OpView.kind h
  revert hkind
  cases op'.kind <;> simp [kindDiscriminator]

/-- What is shown of a record, according to whether it is visible. -/
theorem Shows.of_visible [HashFn H] {r : Refs H} {caller : PrincipalId} {op : Op H}
    (hnamed : op.kind.NamedIn op.after) {visible : Bool}
    (hvis : visible = true ↔ ∀ id, op.RefersTo id → r.Sees caller id) :
    Shows r caller op (if visible then OpView.fromCore op else redactedOpView op) := by
  cases visible with
  | true =>
    have hall := hvis.mp rfl
    exact ⟨rfl, rfl, iff_of_true rfl hall, fun ⟨id, hid, hno⟩ => absurd (hall id hid) hno,
      hnamed.exists_about, fun _ id hid => hall id (hnamed.refersTo hid)⟩
  | false =>
    have hno := mt hvis.mpr Bool.false_ne_true
    exact ⟨rfl, rfl, iff_of_false (redactedOpView_ne op op) hno, fun _ => rfl,
      hnamed.exists_about, fun h => absurd h (redactedOpView_ne op op)⟩

variable {w : World H}

/-- Checking changes one after the other finds out whether the caller may see them all. -/
theorem allVisible_spec (hrel : w.env.Reliable) (caller : PrincipalId) (ids : List ChangeId) :
    Post (allVisible caller ids) w
      (fun visible w' => w.SameRefs w' ∧ w'.repo = w.repo ∧
        (visible = true ↔ ∀ id ∈ ids, w.repo.refs.Sees caller id)) (fun _ _ => False) := by
  induction ids generalizing w with
  | nil => exact ⟨.refl w, rfl, by simp⟩
  | cons id ids ih =>
    rw [allVisible, post_bind, engine, post_adaptExcept, post_tryCatch, post_bind]
    refine getChange_spec (fun c w₁ hs hr hc => ?_) (fun e w₁ hs hr he => ?_)
    · rw [post_pure, post_ite]
      refine ⟨fun hsee => ?_, fun hno => ?_⟩
      · refine (ih (hs.env ▸ hrel)).mono (fun visible w₂ h₂ => ?_) (fun _ _ h => h)
        obtain ⟨hs₂, hr₂, hiff⟩ := h₂
        refine ⟨hs.trans hs₂, hr₂.trans hr, ?_⟩
        rw [hiff, hr, List.forall_mem_cons]
        exact (and_iff_right ⟨c, hc, hsee⟩).symm
      · refine ⟨hs, hr, iff_of_false Bool.false_ne_true fun h => ?_⟩
        obtain ⟨c', hc', hsee⟩ := h id List.mem_cons_self
        obtain rfl := Option.some.inj (hc.symm.trans hc')
        exact hno hsee
    · rcases he with hf | ⟨hnone, rfl⟩
      · exact absurd hf (hrel.not_fault e)
      · dsimp only
        rw [post_pure]
        refine ⟨hs, hr, iff_of_false Bool.false_ne_true fun h => ?_⟩
        obtain ⟨c, hc, -⟩ := h id List.mem_cons_self
        rw [hnone] at hc
        cases hc

theorem showOps_spec [Format H] (hrel : w.env.Reliable) (caller : PrincipalId) (ops : List (Op H))
    (hnamed : ∀ op ∈ ops, op.kind.NamedIn op.after) :
    Post (Handlers.showOps caller ops) w
      (fun views _ => List.Forall₂ (Shows w.repo.refs caller) ops views)
      (fun _ _ => False) := by
  induction ops generalizing w with
  | nil => exact .nil
  | cons op ops ih =>
    obtain ⟨hop, hops⟩ := List.forall_mem_cons.mp hnamed
    rw [Handlers.showOps, post_bind, isOpVisible]
    refine (allVisible_spec hrel caller _).mono (fun visible w₁ ⟨hs, hr, hiff⟩ => ?_)
      (fun _ _ h => h)
    rw [post_bind]
    refine (ih (hs.env ▸ hrel) hops).mono (fun views w₂ hviews => ?_) (fun _ _ h => h)
    rw [hr] at hviews
    refine .cons (.of_visible hop ?_) hviews
    simp only [hiff, mem_referencedChangeIds]

/-- The last records of the log. -/
theorem lastOps_eq (limit : Option Nat) (ops : List (Op H)) :
    Handlers.lastOps limit ops = ops.drop (ops.length - limit.getD ops.length) := by
  cases limit with
  | none => simp [Handlers.lastOps]
  | some limit =>
    rw [Handlers.lastOps, Option.getD_some]
    split
    · rfl
    · rw [show ops.length - limit = 0 by omega, List.drop_zero]

variable [LinearOrder H] [Format H]

/-- **What the log shows.** In every state that a run reaches and for every caller, listing the log
returns the last records, as many as were asked for and in order; each is shown exactly to those who
may see every change that it refers to, and prints nothing of a change that the caller may not
see. -/
theorem listOplog_redacts {σ : UndoStack H} (h : Run w σ) (srv : Server) (headers : HeaderMap)
    (limit : Option Nat) {caller : PrincipalId} {w₁ : World H}
    (hcaller : callerFrom srv headers w = .ok caller w₁) :
    ∃ views w', Handlers.listOplog srv limit headers w = .ok views w' ∧
      List.Forall₂ (Shows w.repo.refs caller)
        (w.repo.oplog.drop (w.repo.oplog.length - limit.getD w.repo.oplog.length)) views := by
  have hkept := keeps_callerFrom.ok hcaller
  have hpost : Post (Handlers.listOplog srv limit headers) w
      (fun views _ => List.Forall₂ (Shows w.repo.refs caller)
        (w.repo.oplog.drop (w.repo.oplog.length - limit.getD w.repo.oplog.length)) views)
      (fun _ _ => False) := by
    have hrel : w₁.env.Reliable := hkept.1.env ▸ h.chronicle.reliable
    have hrefs : w₁.repo.refs = w.repo.refs := hkept.1.refs
    have hlog : w₁.repo.oplog = w.repo.oplog := hkept.1.oplog
    rw [Handlers.listOplog, post_bind, Post, hcaller]
    show Post (engine listOps >>= _) w₁ _ _
    rw [post_bind, engine, post_adaptExcept]
    refine listOps_spec (fun w₂ hs₂ hr₂ => ?_) (fun e w₂ _ _ hf => hrel.not_fault e hf)
    rw [lastOps_eq, hlog]
    have hnamed : ∀ op ∈ w.repo.oplog.drop (w.repo.oplog.length -
        limit.getD w.repo.oplog.length), op.kind.NamedIn op.after :=
      fun op hop => h.named op (List.mem_of_mem_drop hop)
    have hspec := showOps_spec (w := w₂) (hs₂.env ▸ hrel) caller _ hnamed
    rwa [hr₂, hrefs] at hspec
  obtain ⟨views, w', hrun, hviews⟩ := hpost.exists_ok
  exact ⟨views, w', hrun, hviews⟩

/-- The log of the first change, as a caller without a name sees it. -/
theorem listOplog_firstChange :
    ∃ views w', Handlers.listOplog UnreadableToken.server none [] FirstChange.created = .ok views w' ∧
      List.Forall₂ (Shows FirstChange.created.repo.refs defaultActor)
        (FirstChange.created.repo.oplog.drop (FirstChange.created.repo.oplog.length -
          (none : Option Nat).getD FirstChange.created.repo.oplog.length)) views :=
  listOplog_redacts FirstChange.run_created UnreadableToken.server [] none rfl

end Tig
