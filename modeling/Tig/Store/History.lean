import Mathlib.Data.List.Chain
import Mathlib.Data.Finmap
import Tig.Store.Undo

set_option relaxedAutoImplicit false
set_option autoImplicit false

/-!
# Well-formed histories and refs

A change remembers the snapshots it has pointed at, each the only parent of the next. That no
snapshot occurs twice is not checked anywhere: it follows from how far back the line of a
snapshot's parents goes, which grows by one with every step.

## Main definitions

* `Tig.Lineage` — the line of a snapshot's parents ends after so many steps.
* `Tig.HistoryOk`, `Tig.RefsOk` — well-formed change records, and pointers that point at something.
* `Tig.IdsBelow` — the ids in use have come from the generator.
* `Tig.World.Outcome` — how an operation that writes refs ends when no step fails.

## Main results

* `Tig.HistoryOk.nodup` — a well-formed history has no snapshot twice.
* `Tig.HistoryOk.advance` — a new snapshot on top of the current one keeps a history well-formed.
-/

namespace Tig

open Program

variable {H : Type} [LinearOrder H] [Format H]

/-! ## Lines of parents -/

/-- `h` is a stored snapshot with the only parent `p`. -/
def OnlyParent (s : ObjectStore H) (p h : H) : Prop :=
  ∃ snap : Snapshot H, s.load h = .ok snap ∧ snap.parents = [p]

/-- Going from `h` to its only parent again and again ends, after `n` steps, at a snapshot without
parents. -/
inductive Lineage (s : ObjectStore H) : H → Nat → Prop
  | root (h : H) (snap : Snapshot H) (hload : s.load h = .ok snap) (hparents : snap.parents = []) :
      Lineage s h 0
  | child (h p : H) (n : Nat) (hparent : OnlyParent s p h) (hp : Lineage s p n) :
      Lineage s h (n + 1)

variable {s s' : ObjectStore H}

theorem OnlyParent.mono (hle : s.Le s') {p h : H} : OnlyParent s p h → OnlyParent s' p h := by
  rintro ⟨snap, hload, hparents⟩
  exact ⟨snap, hle.load hload, hparents⟩

theorem Lineage.mono (hle : s.Le s') {h : H} {n : Nat} (hl : Lineage s h n) : Lineage s' h n := by
  induction hl with
  | root h snap hload hparents => exact .root h snap (hle.load hload) hparents
  | child h p n hparent _ ih => exact .child h p n (hparent.mono hle) ih

/-- The line of parents has one length. -/
theorem Lineage.unique {h : H} {n m : Nat} (hn : Lineage s h n) (hm : Lineage s h m) : n = m := by
  induction hn generalizing m with
  | root h snap hload hparents =>
    cases hm with
    | root => rfl
    | child _ p m hparent _ =>
      obtain ⟨snap', hload', hparents'⟩ := hparent
      obtain rfl := Except.ok.inj (hload.symm.trans hload')
      rw [hparents] at hparents'
      cases hparents'
  | child h p n hparent _ ih =>
    obtain ⟨snap, hload, hparents⟩ := hparent
    cases hm with
    | root _ snap' hload' hparents' =>
      obtain rfl := Except.ok.inj (hload.symm.trans hload')
      rw [hparents] at hparents'
      cases hparents'
    | child _ p' m hparent' hp' =>
      obtain ⟨snap', hload', hparents'⟩ := hparent'
      obtain rfl := Except.ok.inj (hload.symm.trans hload')
      obtain rfl : p = p' := by simpa using hparents.symm.trans hparents'
      rw [ih hp']

theorem Lineage.load {h : H} {n : Nat} (hl : Lineage s h n) :
    ∃ snap : Snapshot H, s.load h = .ok snap := by
  cases hl with
  | root _ snap hload _ => exact ⟨snap, hload⟩
  | child _ p n hparent _ =>
    obtain ⟨snap, hload, -⟩ := hparent
    exact ⟨snap, hload⟩

/-! ## Histories -/

/-- A well-formed change record: its history ends in the current snapshot, each snapshot of it is
the only parent of the next, and all of them are stored. -/
structure HistoryOk (s : ObjectStore H) (c : Change H) : Prop where
  current : c.history.getLast? = some c.current
  chain : c.history.IsChain (OnlyParent s)
  lineage : ∀ h ∈ c.history, ∃ n, Lineage s h n

namespace HistoryOk

variable {c : Change H}

theorem mono (hle : s.Le s') (h : HistoryOk s c) : HistoryOk s' c where
  current := h.current
  chain := h.chain.imp fun _ _ hp => hp.mono hle
  lineage k hk := (h.lineage k hk).imp fun _ hl => hl.mono hle

theorem current_mem (h : HistoryOk s c) : c.current ∈ c.history :=
  List.mem_of_getLast? h.current

/-- A well-formed history has no snapshot twice: further along, the lines of parents are
longer. -/
theorem nodup (h : HistoryOk s c) : c.history.Nodup := by
  -- the order by the length of the line of parents
  let older : H → H → Prop := fun a b => ∃ n m, n < m ∧ Lineage s a n ∧ Lineage s b m
  have htrans : Trans older older older := ⟨by
    rintro a b c ⟨n, m, hnm, ha, hb⟩ ⟨m', k, hmk, hb', hc⟩
    have := hb.unique hb'
    exact ⟨n, k, by omega, ha, hc⟩⟩
  have hchain : c.history.IsChain older := by
    refine List.IsChain.imp_of_mem_imp (fun a b ha _ hp => ?_) h.chain
    obtain ⟨n, hn⟩ := h.lineage a ha
    exact ⟨n, n + 1, Nat.lt_succ_self n, hn, .child b a n hp hn⟩
  refine hchain.pairwise.imp fun {a b} hab => ?_
  rintro rfl
  obtain ⟨n, m, hnm, hn, hm⟩ := hab
  exact hnm.ne (hn.unique hm)

/-- The record of a change that starts at a stored snapshot. -/
theorem start {h : H} {n : Nat} (hl : Lineage s h n) (hhist : c.history = [h])
    (hcur : c.current = h) : HistoryOk s c where
  current := by rw [hhist, hcur]; rfl
  chain := by rw [hhist]; exact .singleton h
  lineage k hk := by
    rw [hhist, List.mem_singleton] at hk
    exact ⟨n, hk ▸ hl⟩

/-- A new snapshot on top of the current one is not the current one. -/
theorem ne_current (h : HistoryOk s c) {new : H} (hp : OnlyParent s c.current new) :
    c.current ≠ new := by
  intro heq
  obtain ⟨n, hn⟩ := h.lineage _ h.current_mem
  have := hn.unique (heq ▸ Lineage.child new c.current n hp hn)
  omega

/-- A new snapshot on top of the current one keeps the history well-formed. -/
theorem advance (h : HistoryOk s c) {new : H} (hp : OnlyParent s c.current new) :
    HistoryOk s (c.advance new) where
  current := by
    rw [Change.advance_history, if_neg (h.ne_current hp), Change.advance_current]
    simp
  chain := by
    rw [Change.advance_history, if_neg (h.ne_current hp), List.isChain_append]
    refine ⟨h.chain, .singleton new, fun x hx y hy => ?_⟩
    rw [h.current, Option.mem_some_iff] at hx
    obtain rfl : new = y := by simpa using hy
    exact hx ▸ hp
  lineage k hk := by
    rw [Change.advance_history, if_neg (h.ne_current hp), List.mem_append,
      List.mem_singleton] at hk
    rcases hk with hk | rfl
    · exact h.lineage k hk
    · obtain ⟨n, hn⟩ := h.lineage _ h.current_mem
      exact ⟨n + 1, .child k _ n hp hn⟩

/-- Only the snapshots of the record matter. -/
theorem congr {c' : Change H} (h : HistoryOk s c) (hhist : c'.history = c.history)
    (hcur : c'.current = c.current) : HistoryOk s c' where
  current := by rw [hhist, hcur]; exact h.current
  chain := by rw [hhist]; exact h.chain
  lineage := by rw [hhist]; exact h.lineage

end HistoryOk

/-! ## Refs -/

/-- Well-formed refs: every change record is, and HEAD and the manifests name changes that are
there. -/
structure RefsOk (s : ObjectStore H) (r : Refs H) : Prop where
  changes : ∀ id c, r.changes.lookup id = some c → HistoryOk s c.1
  head : ∀ id, r.head = some id → id ∈ r.changes
  workspaces : ∀ id m, r.workspaces.lookup id = some m → m.1.changeId ∈ r.changes

/-- Every change and every secondary workspace has one of the first `n` ids of the generator. -/
structure IdsBelow (env : Env) (n : Nat) (r : Refs H) : Prop where
  changes : ∀ id ∈ r.changes, ∃ m < n, id = env.ulid m
  workspaces : ∀ id ∈ r.workspaces, ∃ m < n, id = env.ulid m

omit [LinearOrder H] [Format H] in
theorem IdsBelow.mono {env : Env} {n n' : Nat} {r : Refs H} (h : IdsBelow env n r)
    (hn : n ≤ n') : IdsBelow env n' r where
  changes id hid := (h.changes id hid).imp fun _ hm => ⟨hm.1.trans_le hn, hm.2⟩
  workspaces id hid := (h.workspaces id hid).imp fun _ hm => ⟨hm.1.trans_le hn, hm.2⟩

theorem RefsOk.mono {r : Refs H} (hle : s.Le s') (h : RefsOk s r) : RefsOk s' r where
  changes id c hc := (h.changes id c hc).mono hle
  head := h.head
  workspaces := h.workspaces

/-- A fresh repository is well-formed. -/
theorem RefsOk.empty : RefsOk s (Refs.empty : Refs H) where
  changes id c hc := by simp [Refs.empty] at hc
  head id hid := by simp [Refs.empty] at hid
  workspaces id m hm := by simp [Refs.empty] at hm

omit [LinearOrder H] [Format H] in
theorem IdsBelow.empty (env : Env) (n : Nat) : IdsBelow env n (Refs.empty : Refs H) where
  changes _ hid := absurd hid Finmap.notMem_empty
  workspaces _ hid := absurd hid Finmap.notMem_empty

omit [LinearOrder H] [Format H] in
/-- An id that is yet to come from the generator is not in use. -/
theorem IdsBelow.not_mem {env : Env} {n m : Nat} {r : Refs H} (h : IdsBelow env n r)
    (hinj : Function.Injective env.ulid) (hm : n ≤ m) :
    env.ulid m ∉ r.changes ∧ env.ulid m ∉ r.workspaces := by
  refine ⟨fun hmem => ?_, fun hmem => ?_⟩
  · obtain ⟨k, hk, heq⟩ := h.changes _ hmem
    have := hinj heq
    omega
  · obtain ⟨k, hk, heq⟩ := h.workspaces _ hmem
    have := hinj heq
    omega

section Write

variable {r : Refs H}

omit [LinearOrder H] [Format H] in
theorem mem_write_change {c : Change H} {id : ChangeId} :
    id ∈ (r.write (.ofChange c)).changes ↔ id = c.id ∨ id ∈ r.changes := by
  simp [Refs.write, RefSnapshot.ofChange, FiniteMap.set]

/-- Writing a well-formed record. -/
theorem RefsOk.writeChange {c : Change H} (h : RefsOk s r) (hc : HistoryOk s c) :
    RefsOk s (r.write (.ofChange c)) where
  changes id c' hc' := by
    by_cases hid : id = c.id
    · subst hid
      simp only [Refs.write, RefSnapshot.ofChange, FiniteMap.lookup_set, Option.some.injEq] at hc'
      exact hc' ▸ hc
    · simp only [Refs.write, RefSnapshot.ofChange, FiniteMap.lookup_set_of_ne _ _ hid] at hc'
      exact h.changes id c' hc'
  head id hid := mem_write_change.mpr (Or.inr (h.head id hid))
  workspaces id m hm := mem_write_change.mpr (Or.inr (h.workspaces id m hm))

/-- Pointing HEAD at a change that is there. -/
theorem RefsOk.writeHead {id : ChangeId} (h : RefsOk s r) (hid : id ∈ r.changes) :
    RefsOk s (r.write (.head (some id))) where
  changes := h.changes
  head _ hid' := Option.some.inj hid' ▸ hid
  workspaces := h.workspaces

/-- Writing a manifest that names a change that is there. -/
theorem RefsOk.writeManifest {m : WorkspaceManifest} (h : RefsOk s r)
    (hm : m.changeId ∈ r.changes) : RefsOk s (r.write (.ofManifest m)) where
  changes := h.changes
  head := h.head
  workspaces id m' hm' := by
    by_cases hid : id = m.id
    · subst hid
      simp only [Refs.write, RefSnapshot.ofManifest, FiniteMap.lookup_set, Option.some.injEq] at hm'
      exact hm' ▸ hm
    · simp only [Refs.write, RefSnapshot.ofManifest, FiniteMap.lookup_set_of_ne _ _ hid] at hm'
      exact h.workspaces id m' hm'

/-- Removing a manifest. -/
theorem RefsOk.removeManifest {id : WorkspaceId} (h : RefsOk s r) :
    RefsOk s (r.write (.workspace id none)) where
  changes := h.changes
  head := h.head
  workspaces id' m hm := by
    by_cases hid : id' = id
    · subst hid
      simp [Refs.write] at hm
    · simp only [Refs.write, FiniteMap.lookup_set_of_ne _ _ hid] at hm
      exact h.workspaces id' m hm

omit [LinearOrder H] [Format H]

theorem IdsBelow.writeChange {env : Env} {n : Nat} {c : Change H} (h : IdsBelow env n r)
    (hc : ∃ m < n, c.id = env.ulid m) : IdsBelow env n (r.write (.ofChange c)) where
  changes id hid := by
    rcases mem_write_change.mp hid with rfl | hid
    · exact hc
    · exact h.changes id hid
  workspaces := h.workspaces

theorem IdsBelow.writeHead {env : Env} {n : Nat} {id : Option ChangeId} (h : IdsBelow env n r) :
    IdsBelow env n (r.write (.head id)) :=
  ⟨h.changes, h.workspaces⟩

theorem IdsBelow.writeManifest {env : Env} {n : Nat} {m : WorkspaceManifest}
    (h : IdsBelow env n r) (hm : ∃ k < n, m.id = env.ulid k) :
    IdsBelow env n (r.write (.ofManifest m)) where
  changes := h.changes
  workspaces id hid := by
    have hmem : id = m.id ∨ id ∈ r.workspaces := by
      simpa [Refs.write, RefSnapshot.ofManifest, FiniteMap.set] using hid
    rcases hmem with rfl | hid
    · exact hm
    · exact h.workspaces id hid

theorem IdsBelow.removeManifest {env : Env} {n : Nat} {id : WorkspaceId} (h : IdsBelow env n r) :
    IdsBelow env n (r.write (.workspace id none)) where
  changes := h.changes
  workspaces id' hid' := by
    have hmem : id' ≠ id ∧ id' ∈ r.workspaces := by
      simpa [Refs.write, FiniteMap.set] using hid'
    exact h.workspaces id' hmem.2

end Write

/-! ## How an operation ends when no step fails -/

/-- No step fails, the generator gives out no id twice, and the ids in use have come from it. -/
structure World.Steady (w : World H) : Prop where
  reliable : w.env.Reliable
  fresh : Function.Injective w.env.ulid
  ids : IdsBelow w.env w.ids w.repo.refs

/-- Neither refs nor log were written, and objects were at most added; the handle on the log may
be another one. -/
structure World.Kept (w w' : World H) : Prop where
  refs : w'.repo.refs = w.repo.refs
  oplog : w'.repo.oplog = w.repo.oplog
  env : w'.env = w.env
  idsLe : w.ids ≤ w'.ids
  le : w.repo.objects.Le w'.repo.objects
  intact : w.repo.objects.Intact → w'.repo.objects.Intact

/-- The changes that a record of this kind is about are among the entries after the operation. -/
def OpKind.NamedIn {H : Type} (kind : OpKind H) (after : List (RefSnapshot H)) : Prop :=
  match kind with
  | .snap snapshot _ => ∃ id c, .change id (some c) ∈ after ∧ c.1.current = snapshot
  | .changeNew id _ | .changeTransition id _ _ _ _ => ∃ c, .change id (some c) ∈ after
  | .wtMake _ _ | .wtDrop _ _ | .undo _ => True

/-- The operation ended with the record `op`, which records the change of the refs; it left the
refs well-formed. -/
structure World.Recorded (w w' : World H) (op : Op H) : Prop where
  oplog : w'.repo.oplog = w.repo.oplog ++ [op]
  notUndo : op.isUndo = false
  captures : Journal.Captures (refTable H) op.before op.after w.repo.refs w'.repo.refs
  noBookmark : ∀ e ∈ op.before, e.key.isBookmark = false
  named : op.kind.NamedIn op.after
  env : w'.env = w.env
  idsLe : w.ids ≤ w'.ids
  le : w.repo.objects.Le w'.repo.objects
  intact : w.repo.objects.Intact → w'.repo.objects.Intact
  ids : IdsBelow w'.env w'.ids w'.repo.refs
  sound : ∀ [LawfulFormat H], w.repo.objects.Intact → RefsOk w.repo.objects w.repo.refs →
    RefsOk w'.repo.objects w'.repo.refs

/-- An operation writes objects at most, or it writes refs and records that. -/
def World.Outcome (w w' : World H) : Prop := w.Kept w' ∨ ∃ op, w.Recorded w' op

section Outcome

variable {w w₁ w' : World H}

theorem World.Quiet.kept (h : w.Quiet w') : w.Kept w' :=
  ⟨h.refs, h.oplog, h.env, h.ids, h.le, h.intact⟩

theorem World.Quiet.outcome (h : w.Quiet w') : w.Outcome w' := Or.inl h.kept

theorem World.Kept.outcome (h : w.Kept w') : w.Outcome w' := Or.inl h

theorem World.Kept.trans (h : w.Kept w₁) (h' : w₁.Kept w') : w.Kept w' where
  refs := h'.refs.trans h.refs
  oplog := h'.oplog.trans h.oplog
  env := h'.env.trans h.env
  idsLe := h.idsLe.trans h'.idsLe
  le := h.le.trans h'.le
  intact := h'.intact ∘ h.intact

/-- Taking another handle on the log. -/
theorem World.Kept.withLog (h : w.Kept w') (log : FileLog) : w.Kept { w' with log := log } :=
  ⟨h.refs, h.oplog, h.env, h.idsLe, h.le, h.intact⟩

/-- What came before does not matter as long as it kept refs and log. -/
theorem World.Steady.kept (hw : w.Steady) (h : w.Kept w') : w'.Steady where
  reliable := by rw [h.env]; exact hw.reliable
  fresh := by rw [h.env]; exact hw.fresh
  ids := by rw [h.env, h.refs]; exact hw.ids.mono h.idsLe

theorem World.Recorded.of_kept {op : Op H} (h : w.Kept w₁) (h' : w₁.Recorded w' op) :
    w.Recorded w' op where
  oplog := by rw [h'.oplog, h.oplog]
  notUndo := h'.notUndo
  captures := by rw [← h.refs]; exact h'.captures
  noBookmark := h'.noBookmark
  named := h'.named
  env := h'.env.trans h.env
  idsLe := h.idsLe.trans h'.idsLe
  le := h.le.trans h'.le
  intact := h'.intact ∘ h.intact
  ids := h'.ids
  sound hi hr := h'.sound (h.intact hi) (by rw [h.refs]; exact hr.mono h.le)

theorem World.Outcome.of_kept (h : w.Kept w₁) (h' : w₁.Outcome w') : w.Outcome w' :=
  h'.imp h.trans fun ⟨op, hop⟩ => ⟨op, .of_kept h hop⟩

theorem World.Recorded.trans_kept {op : Op H} (h : w.Recorded w₁ op) (h' : w₁.Kept w') :
    w.Recorded w' op where
  oplog := by rw [h'.oplog, h.oplog]
  notUndo := h.notUndo
  captures := by rw [h'.refs]; exact h.captures
  noBookmark := h.noBookmark
  named := h.named
  env := h'.env.trans h.env
  idsLe := h.idsLe.trans h'.idsLe
  le := h.le.trans h'.le
  intact := h'.intact ∘ h.intact
  ids := by rw [h'.env, h'.refs]; exact h.ids.mono h'.idsLe
  sound hi hr := by rw [h'.refs]; exact (h.sound hi hr).mono h'.le

/-- What comes after does not matter as long as it keeps refs and log. -/
theorem World.Outcome.trans_kept (h : w.Outcome w₁) (h' : w₁.Kept w') : w.Outcome w' :=
  h.imp (fun hk => hk.trans h') fun ⟨op, hop⟩ => ⟨op, hop.trans_kept h'⟩

/-- In a steady world a step that touches neither refs nor log does not fail. -/
theorem World.Steady.not_fault (hw : w.Steady) (h : w.Kept w') (e : Error) :
    ¬ w'.env.Fault e := by
  rw [h.env]
  exact hw.reliable.not_fault e

/-- **A committed operation** that wrote entries at some of the refs `ks` is recorded when its
record holds what these refs were before and are after. -/
theorem World.Recorded.of_committed {es : List (RefSnapshot H)} {op : Op H}
    (hcom : w.Committed w' es op) (hkind : op.isUndo = false) (ks : List RefKey)
    (hks : ∀ k ∈ ks, k.isBookmark = false) (hes : ∀ e ∈ es, e.key ∈ ks)
    (hnamed : op.kind.NamedIn op.after) (hbefore : op.before = ks.map w.repo.refs.read)
    (hafter : op.after = ks.map w'.repo.refs.read) (hids : IdsBelow w'.env w'.ids w'.repo.refs)
    (hsound : ∀ [LawfulFormat H], w.repo.objects.Intact → RefsOk w.repo.objects w.repo.refs →
      RefsOk w'.repo.objects w'.repo.refs) : w.Recorded w' op where
  oplog := hcom.oplog
  notUndo := hkind
  captures := by
    rw [hbefore, hafter, hcom.refs]
    exact Journal.Captures.of_restore hes
  noBookmark := by
    rw [hbefore]
    exact List.forall_mem_map.mpr fun k hk => by rw [Refs.key_read]; exact hks k hk
  named := hnamed
  env := hcom.env
  idsLe := hcom.ids
  le := hcom.le
  intact := hcom.intact
  ids := hids
  sound := hsound

/-- Appending the record of an operation that has written the entries `es`: nothing can fail any
more, and the operation is recorded. -/
theorem appendOp_outcome (hw : w.Steady) (hk : w.Kept w₁) {w₂ : World H}
    {es : List (RefSnapshot H)} {log : FileLog} (hwrote : w₁.Wrote w₂ es log)
    {op : OpInProgress H} (hkind : op.kind.isUndo = false) (ks : List RefKey)
    (hks : ∀ k ∈ ks, k.isBookmark = false) (hes : ∀ e ∈ es, e.key ∈ ks)
    (hnamed : op.kind.NamedIn op.after) (hbefore : op.before = ks.map w.repo.refs.read)
    (hafter : op.after = ks.map w₂.repo.refs.read) (hids : IdsBelow w₂.env w₂.ids w₂.repo.refs)
    (hsound : ∀ [LawfulFormat H], w.repo.objects.Intact → RefsOk w.repo.objects w.repo.refs →
      RefsOk w₁.repo.objects w₂.repo.refs) :
    Post (appendOp op) w₂ (fun _ w' => w.Outcome w') (fun _ w' => w.Outcome w') := by
  refine appendOp_spec hwrote (fun ts w' hcom hobj hle =>
      Or.inr ⟨⟨log.nextId, ts, op.actor, op.kind, op.before, op.after⟩, ?_⟩)
    (fun e w' hfail => absurd hfail (hw.kept hk).reliable.not_failed)
  have hrefs : w'.repo.refs = w₂.repo.refs := hcom.refs.trans hwrote.refs.symm
  exact
    { oplog := by rw [hcom.oplog, hk.oplog]
      notUndo := hkind
      captures := by
        rw [show op.before = _ from hbefore, show op.after = _ from hafter, hrefs, hwrote.refs,
          hk.refs]
        exact Journal.Captures.of_restore hes
      noBookmark := by
        rw [show op.before = _ from hbefore]
        exact List.forall_mem_map.mpr fun k hk => by rw [Refs.key_read]; exact hks k hk
      named := hnamed
      env := hcom.env.trans hk.env
      idsLe := hk.idsLe.trans hcom.ids
      le := hk.le.trans hcom.le
      intact := hcom.intact ∘ hk.intact
      ids := by
        rw [hrefs, hcom.env, ← hwrote.env]
        exact hids.mono hle
      sound := fun hi hr => by
        rw [hrefs, hobj]
        exact hsound hi hr }

/-- `x` keeps refs and log, whether or not it fails, and establishes `P`. -/
def Keeps {ε α : Type} (x : EStateM ε (World H) α) (w : World H) (P : α → World H → Prop) : Prop :=
  Post x w (fun a w' => w.Kept w' ∧ P a w') (fun _ w' => w.Kept w')

section Sequence

variable {ε α β : Type} {P : α → World H → Prop}

/-- What an operation does first, as long as it keeps refs and log, does not matter to how it
ends. -/
theorem outcome_bind {x : EStateM ε (World H) α} {f : α → EStateM ε (World H) β}
    (hk : w.Kept w₁) (hx : Keeps x w₁ P)
    (hf : ∀ a w₂, w₁.Kept w₂ → w.Kept w₂ → P a w₂ →
      Post (f a) w₂ (fun _ w' => w.Outcome w') (fun _ w' => w.Outcome w')) :
    Post (x >>= f) w₁ (fun _ w' => w.Outcome w') (fun _ w' => w.Outcome w') := by
  rw [post_bind]
  exact hx.mono (fun a w₂ h => hf a w₂ h.1 (hk.trans h.1) h.2)
    (fun _ w₂ h => (hk.trans h).outcome)

/-- An operation that ends as it should from here ends as it should altogether. -/
theorem outcome_of_kept {x : EStateM ε (World H) α} (hk : w.Kept w₁)
    (h : Post x w₁ (fun _ w' => w₁.Outcome w') (fun _ w' => w₁.Outcome w')) :
    Post x w₁ (fun _ w' => w.Outcome w') (fun _ w' => w.Outcome w') :=
  h.mono (fun _ _ h' => .of_kept hk h') (fun _ _ h' => .of_kept hk h')

theorem Keeps.bind {x : EStateM ε (World H) α} {f : α → EStateM ε (World H) β}
    {R : β → World H → Prop} (hx : Keeps x w P)
    (hf : ∀ a w₁, w.Kept w₁ → P a w₁ → Keeps (f a) w₁ R) : Keeps (x >>= f) w R := by
  unfold Keeps
  rw [post_bind]
  refine Post.mono hx (fun a w₁ h => ?_) (fun _ _ h => h)
  exact Post.mono (hf a w₁ h.1 h.2) (fun _ _ h' => ⟨h.1.trans h'.1, h'.2⟩)
    (fun _ _ h' => h.1.trans h')

theorem Keeps.pure {a : α} (h : P a w) : Keeps (pure a : EStateM ε (World H) α) w P :=
  ⟨World.Quiet.kept (.refl w), h⟩

theorem Keeps.throw {e : ε} : Keeps (throw e : EStateM ε (World H) α) w P :=
  World.Quiet.kept (.refl w)

theorem Keeps.fromExcept {r : Except ε α} (h : ∀ a, r = .ok a → P a w) :
    Keeps (Program.fromExcept r) w P :=
  (post_fromExcept r).mpr
    ⟨fun a ha => ⟨World.Quiet.kept (.refl w), h a ha⟩, fun _ _ => World.Quiet.kept (.refl w)⟩

theorem Keeps.adaptExcept {ε' : Type} {f : ε → ε'} {x : EStateM ε (World H) α}
    (h : Keeps x w P) : Keeps (EStateM.adaptExcept f x) w P :=
  (post_adaptExcept f).mpr h

end Sequence

/-- A step that changes neither refs nor log. -/
theorem keeps_step {k : FsStep} (hk : ¬ k.Mutates) : Keeps (step k) w fun _ _ => True :=
  step_spec hk (fun _ hs hr => ⟨(World.Quiet.of_repo hs hr).kept, trivial⟩)
    (fun _ _ hs hr _ => (World.Quiet.of_repo hs hr).kept)

theorem keeps_openLog : Keeps (openLog : RepoM H Unit) w fun _ _ => True :=
  openLog_spec (fun _ hs hr => ⟨(World.Quiet.of_repo hs hr).kept.withLog _, trivial⟩)
    (fun _ _ hs hr _ => (World.Quiet.of_repo hs hr).kept)

theorem keeps_getChange {id : ChangeId} :
    Keeps (getChange id) w fun c _ => w.repo.refs.changes.lookup id = some c :=
  getChange_spec (fun _ _ hs hr hc => ⟨(World.Quiet.of_repo hs hr).kept, hc⟩)
    (fun _ _ hs hr _ => (World.Quiet.of_repo hs hr).kept)

theorem keeps_loadObject {α : Type} [Encodable H α] {h : H} :
    Keeps (loadObject h : RepoM H α) w fun a _ => w.repo.objects.load h = .ok a :=
  loadObject_spec (fun _ _ hs hr ha => ⟨(World.Quiet.of_repo hs hr).kept, ha⟩)
    (fun _ _ hs hr _ => (World.Quiet.of_repo hs hr).kept)

theorem keeps_storeObject {α : Type} [Encodable H α] {a : α}
    (hc : ∀ [LawfulFormat H], (Encodable.codec H (α := α)).Lawful) :
    Keeps (storeObject a) w fun h w' => h = (encode H a).hash H ∧
      ∀ [LawfulFormat H], w.repo.objects.Intact → w'.repo.objects.load h = .ok a :=
  storeObject_grew hc (fun _ hg => ⟨hg.quiet.kept, rfl, fun hi => hg.stored hi⟩)
    (fun _ _ hq _ => hq.kept)

theorem keeps_currentTimestampNs :
    Keeps (currentTimestampNs : RepoM H Nat) w fun _ _ => True :=
  currentTimestampNs_spec fun _ _ hs hr => ⟨(World.Quiet.of_repo hs hr).kept, trivial⟩

theorem keeps_newUlid : Keeps (newUlid : RepoM H String) w fun id w' =>
    id = w.env.ulid w.ids ∧ w'.ids = w.ids + 1 :=
  newUlid_spec fun _ hs hr hids => ⟨(World.Quiet.of_repo hs hr).kept, rfl, hids⟩

end Outcome

end Tig
