import Tig.Guarantees.OpIds

set_option relaxedAutoImplicit false
set_option autoImplicit false

/-!
# What undos name

The record of an undo says which operation it undoes. The choice of the operation to undo does not
look at that: it counts undos and operations backwards. In a log that has been written by appends
and undos, the two agree.

## Main definitions

* `Tig.Op.undoneOp`, `Tig.IsUndone` — what an undo names, and what is named.
* `Tig.LogHistory` — the logs that appends and undos write, with the operations undone.

## Main results

* `Tig.LogHistory.linked` — every undo names what was on top of the stack.
* `Tig.pickOpToUndo_lastNotUndone` — **the operation picked** is the last one that no undo names.
-/

namespace Tig

open Program

variable {H : Type}

/-- The operation that an undo names. -/
def Op.undoneOp (op : Op H) : Option OpId :=
  match op.kind with
  | .undo undoneOp => some undoneOp
  | _ => none

/-- An undo in the log names this operation. -/
def IsUndone (log : List (Op H)) (op : Op H) : Prop := ∃ u ∈ log, u.undoneOp = some op.id

instance (log : List (Op H)) (op : Op H) : Decidable (IsUndone log op) :=
  inferInstanceAs (Decidable (∃ u ∈ log, _))

/-- An operation that is neither an undo nor undone. -/
def NotUndone (log : List (Op H)) (op : Op H) : Prop := op.isUndo = false ∧ ¬ IsUndone log op

instance (log : List (Op H)) (op : Op H) : Decidable (NotUndone log op) :=
  inferInstanceAs (Decidable (_ ∧ _))

theorem Op.undoneOp_eq_some {op : Op H} {id : OpId} :
    op.undoneOp = some id ↔ op.kind = .undo id := by
  unfold Op.undoneOp
  split
  · next undoneOp hkind => simp [hkind]
  · next hkind => exact ⟨nofun, fun h => absurd h (hkind id)⟩

/-- The records that name an operation are the undos. -/
theorem isLink_undoneOp : Journal.isLink (Op.undoneOp (H := H)) = Op.isUndo := by
  funext op
  unfold Journal.isLink Op.undoneOp Op.isUndo OpKind.isUndo
  cases op.kind <;> rfl

theorem undoneOp_eq_none {op : Op H} : op.undoneOp = none ↔ op.isUndo = false := by
  rw [← isLink_undoneOp, Journal.isLink, Option.isSome_eq_false_iff, Option.isNone_iff_eq_none]

/-! ## Histories -/

/-- The worlds that one handle on a log leads to from an empty log, in any order of its steps: it
appends operations and undoes them, it can be opened again, and anything else can happen in
between that leaves the log alone. `picked` are the operations that have been undone, in order. -/
inductive LogHistory : List (Op H) → World H → Prop
  | openEmpty {w w' : World H} (hempty : w.repo.oplog = []) (hopen : openLog w = .ok () w') :
      LogHistory [] w'
  | append {picked : List (Op H)} {w w' : World H} (h : LogHistory picked w) (op : OpInProgress H)
      (notUndo : op.kind.isUndo = false) {recorded : Op H}
      (hrun : appendOp op w = .ok recorded w') : LogHistory picked w'
  | undo {picked : List (Op H)} {w w' : World H} (h : LogHistory picked w) (actor : PrincipalId)
      {outcome : UndoOutcome H} (hrun : undoOnce actor w = .ok (some outcome) w') :
      LogHistory (picked ++ [outcome.undone]) w'
  | undoNothing {picked : List (Op H)} {w w' : World H} (h : LogHistory picked w)
      (actor : PrincipalId) (hrun : undoOnce actor w = .ok none w') : LogHistory picked w'
  | reopen {picked : List (Op H)} {w w' : World H} (h : LogHistory picked w)
      (hopen : openLog w = .ok () w') : LogHistory picked w'
  | other {picked : List (Op H)} {w w' : World H} (h : LogHistory picked w) (hlog : w.SameLog w') :
      LogHistory picked w'

/-- A log in which every record has its position as its id and every undo names what was on top
of the stack, and a handle that has counted its records. -/
structure LinkedLog (picked : List (Op H)) (w : World H) : Prop where
  numbered : Numbered w.repo.oplog
  counted : w.log.nextId = w.repo.oplog.length
  linked : Journal.Linked Op.undoneOp w.repo.oplog.reverse
  picked : picked.map Op.id = w.repo.oplog.filterMap Op.undoneOp

variable {picked : List (Op H)} {w w' : World H}

theorem LinkedLog.sameLog (h : LinkedLog picked w) (hs : w.SameLog w') : LinkedLog picked w' where
  numbered := hs.1 ▸ h.numbered
  counted := by rw [hs.1, hs.2, h.counted]
  linked := hs.1 ▸ h.linked
  picked := hs.1 ▸ h.picked

/-- Opening the log counts its records. -/
theorem LinkedLog.openLog (h : LinkedLog picked w) (hopen : openLog w = .ok () w') :
    LinkedLog picked w' := by
  obtain ⟨hlog, hid⟩ : w'.repo.oplog = w.repo.oplog ∧ w'.log.nextId = w.repo.oplog.length :=
    (openLog_spec (Q := fun _ w' => w'.repo.oplog = w.repo.oplog ∧
        w'.log.nextId = w.repo.oplog.length) (E := fun _ _ => True)
      (fun w' hs _ => ⟨hs.oplog, computeNextId_of_dense h.numbered.dense⟩)
      (fun _ _ _ _ _ => trivial)).ok hopen
  exact ⟨hlog ▸ h.numbered, by rw [hid, hlog], hlog ▸ h.linked, hlog ▸ h.picked⟩

/-- An operation goes on top of the stack. -/
theorem LinkedLog.append (h : LinkedLog picked w) {op : OpInProgress H}
    (notUndo : op.kind.isUndo = false) {recorded : Op H}
    (hrun : appendOp op w = .ok recorded w') : LinkedLog picked w' := by
  obtain ⟨happ, hid, hkind, hnext⟩ : w'.repo.oplog = w.repo.oplog ++ [recorded] ∧
      recorded.id = w.log.nextId ∧ recorded.kind = op.kind ∧
      w'.log.nextId = w.log.nextId + 1 :=
    (post_appendOp (Q := fun recorded w' => w'.repo.oplog = w.repo.oplog ++ [recorded] ∧
        recorded.id = w.log.nextId ∧ recorded.kind = op.kind ∧ w'.log.nextId = w.log.nextId + 1)
      (E := fun _ _ => True)).mpr
      ⟨fun _ => ⟨fun _ => ⟨rfl, rfl, rfl, rfl⟩, fun _ _ => trivial⟩, fun _ _ => trivial⟩ |>.ok hrun
  have hlink : recorded.undoneOp = none := by
    rw [undoneOp_eq_none, Op.isUndo, hkind]
    exact notUndo
  refine ⟨?_, ?_, ?_, ?_⟩
  · rw [happ]
    refine h.numbered.append (hid.trans h.counted) fun id hk => ?_
    rw [Op.undoneOp_eq_some.mpr hk] at hlink
    cases hlink
  · rw [hnext, happ, h.counted, List.length_append, List.length_singleton]
  · rw [happ, List.reverse_append, List.reverse_singleton, List.singleton_append]
    exact ⟨fun i hi => by simp [hlink] at hi, h.linked⟩
  · rw [happ, List.filterMap_append, h.picked]
    simp [hlink]

/-- What a linked log has on top of its stack is what is picked. -/
theorem LinkedLog.pick_spec (h : LinkedLog picked w) :
    match pickOpToUndo w.repo.oplog with
    | none => ∀ op ∈ w.repo.oplog, op.isUndo = false → IsUndone w.repo.oplog op
    | some op => w.repo.oplog[op.id]? = some op ∧ NotUndone w.repo.oplog op ∧
        (Journal.livePos Op.isUndo w.repo.oplog.reverse).head? = some op.id ∧
        ∀ later ∈ w.repo.oplog, op.id < later.id → ¬ NotUndone w.repo.oplog later := by
  have hspec := h.linked.pick_spec
  rw [isLink_undoneOp, List.reverse_reverse] at hspec
  rw [pickOpToUndo]
  have hpos : ∀ op ∈ w.repo.oplog, w.repo.oplog[op.id]? = some op := by
    intro op hop
    obtain ⟨i, hi⟩ := List.mem_iff_getElem?.mp hop
    rw [h.numbered.dense i op hi]
    exact hi
  have hnamed : ∀ id, (∃ u ∈ w.repo.oplog.reverse, u.undoneOp = some id) →
      ∃ u ∈ w.repo.oplog, u.undoneOp = some id := by
    rintro id ⟨u, hu, hid⟩
    exact ⟨u, List.mem_reverse.mp hu, hid⟩
  cases hpick : Journal.pick Op.isUndo 0 w.repo.oplog.reverse with
  | none =>
    rw [hpick] at hspec
    intro op hop hundo
    exact hnamed op.id (hspec op.id op (hpos op hop) (undoneOp_eq_none.mpr hundo))
  | some op =>
    rw [hpick] at hspec
    obtain ⟨i, hget, hlink, hnot, hhead, hlater⟩ := hspec
    obtain rfl : op.id = i := h.numbered.dense i op hget
    refine ⟨hget, ⟨undoneOp_eq_none.mp hlink, ?_⟩, hhead, fun later hmem hlt hlive => ?_⟩
    · rintro ⟨u, hu, hid⟩
      exact hnot u (List.mem_reverse.mpr hu) hid
    · exact hlive.2 (hnamed later.id
        (hlater later.id later hlt (hpos later hmem) (undoneOp_eq_none.mpr hlive.1)))

/-- An undo names the top of the stack. -/
theorem LinkedLog.undo (h : LinkedLog picked w) {actor : PrincipalId} {outcome : UndoOutcome H}
    (hrun : undoOnce actor w = .ok (some outcome) w') :
    LinkedLog (picked ++ [outcome.undone]) w' := by
  obtain ⟨hpick, happ, hid, hkind, hnext⟩ := (undoOnce_links actor).ok hrun
  have hspec := h.pick_spec
  rw [hpick] at hspec
  obtain ⟨hget, -, hhead, -⟩ := hspec
  have hlink : outcome.recorded.undoneOp = some outcome.undone.id :=
    Op.undoneOp_eq_some.mpr hkind
  refine ⟨?_, ?_, ?_, ?_⟩
  · rw [happ]
    refine h.numbered.append (hid.trans h.counted) fun id hk => ?_
    obtain rfl : outcome.undone.id = id := OpKind.undo.inj (hkind.symm.trans hk)
    exact h.numbered.id_lt (List.mem_of_getElem? hget)
  · rw [hnext, happ, h.counted, List.length_append, List.length_singleton]
  · rw [happ, List.reverse_append, List.reverse_singleton, List.singleton_append]
    refine ⟨fun i hi => ?_, h.linked⟩
    rw [hlink] at hi
    rw [isLink_undoneOp, hhead, hi]
  · rw [happ, List.filterMap_append, List.map_append, h.picked]
    simp [hlink]

/-- **In every history** each undo names what was on top of the stack when it was made. -/
theorem LogHistory.linked (h : LogHistory picked w) : LinkedLog picked w := by
  induction h with
  | @openEmpty w w' hempty hopen =>
    have hstart : LinkedLog ([] : List (Op H)) { w with log := ⟨0⟩ } := by
      refine ⟨⟨fun i op hi => ?_, fun op hop => ?_⟩, ?_, ?_, ?_⟩
      · simp [hempty] at hi
      · simp [hempty] at hop
      · simp [hempty]
      · simp [hempty, Journal.Linked]
      · simp [hempty]
    obtain ⟨hlog, hid⟩ : w'.repo.oplog = w.repo.oplog ∧
        w'.log.nextId = computeNextId w.repo.oplog :=
      (openLog_spec (Q := fun _ w' => w'.repo.oplog = w.repo.oplog ∧
          w'.log.nextId = computeNextId w.repo.oplog) (E := fun _ _ => True)
        (fun w' hs _ => ⟨hs.oplog, rfl⟩) (fun _ _ _ _ _ => trivial)).ok hopen
    refine hstart.sameLog ⟨hlog, ?_⟩
    rw [hempty] at hid
    exact congrArg FileLog.mk hid
  | append _ op notUndo hrun ih => exact ih.append notUndo hrun
  | undo _ actor hrun ih => exact ih.undo hrun
  | undoNothing _ actor hrun ih => exact ih.sameLog ((undoOnce_links actor).ok hrun).2
  | reopen _ hopen ih => exact ih.openLog hopen
  | other _ hlog ih => exact ih.sameLog hlog

/-! ## The operation picked -/

/-- The last element of a list that satisfies a condition, if none behind it does. -/
theorem getLast?_filter_of_getElem? {α : Type} {p : α → Prop} [DecidablePred p] {l : List α}
    {i : Nat} {x : α} (hget : l[i]? = some x) (hx : p x)
    (hlater : ∀ j y, i < j → l[j]? = some y → ¬ p y) :
    (l.filter fun y => decide (p y)).getLast? = some x := by
  obtain ⟨hlt, rfl⟩ := List.getElem?_eq_some_iff.mp hget
  have hsplit : l = l.take i ++ l[i] :: l.drop (i + 1) := by
    rw [List.getElem_cons_drop, List.take_append_drop]
  have hdrop : (l.drop (i + 1)).filter (fun y => decide (p y)) = [] := by
    refine List.filter_eq_nil_iff.mpr fun y hy => ?_
    obtain ⟨j, hj⟩ := List.mem_iff_getElem?.mp hy
    rw [List.getElem?_drop] at hj
    simpa using hlater _ y (by omega) hj
  have hfilter : l.filter (fun y => decide (p y)) =
      (l.take i).filter (fun y => decide (p y)) ++ [l[i]] := by
    conv_lhs => rw [hsplit]
    rw [List.filter_append, List.filter_cons_of_pos (by simpa using hx), hdrop]
  rw [hfilter, List.getLast?_concat]

/-- **What is picked to be undone** agrees with what undos name, in every history of a log: it is
the last operation that is not an undo and that no undo names, and there is none exactly when all
are named. No two undos name one operation, and no operation is undone twice. -/
theorem pickOpToUndo_lastNotUndone (h : LogHistory picked w) :
    pickOpToUndo w.repo.oplog =
      (w.repo.oplog.filter fun op => decide (NotUndone w.repo.oplog op)).getLast? ∧
    (pickOpToUndo w.repo.oplog = none ↔
      ∀ op ∈ w.repo.oplog, op.isUndo = false → IsUndone w.repo.oplog op) ∧
    (∀ op ∈ w.repo.oplog,
      (w.repo.oplog.filter fun u => u.undoneOp = some op.id).length ≤ 1) ∧
    (picked.map Op.id).Nodup := by
  have hlinked := h.linked
  have hspec := hlinked.pick_spec
  have hnodup : (w.repo.oplog.filterMap Op.undoneOp).Nodup := by
    have := hlinked.linked.nodup
    rwa [List.filterMap_reverse, List.nodup_reverse] at this
  refine ⟨?_, ?_, fun op _ => ?_, hlinked.picked ▸ hnodup⟩
  · cases hpick : pickOpToUndo w.repo.oplog with
    | none =>
      rw [hpick] at hspec
      symm
      rw [List.getLast?_eq_none_iff, List.filter_eq_nil_iff]
      intro op hop hlive
      have hlive : NotUndone w.repo.oplog op := of_decide_eq_true hlive
      exact hlive.2 (hspec op hop hlive.1)
    | some op =>
      rw [hpick] at hspec
      obtain ⟨hget, hlive, -, hlater⟩ := hspec
      refine (getLast?_filter_of_getElem? hget hlive fun j later hlt hj => ?_).symm
      refine hlater later (List.mem_of_getElem? hj) ?_
      rwa [hlinked.numbered.dense j later hj]
  · constructor
    · intro hnone
      rwa [hnone] at hspec
    · intro hall
      cases hpick : pickOpToUndo w.repo.oplog with
      | none => rfl
      | some op =>
        rw [hpick] at hspec
        obtain ⟨hget, hlive, -⟩ := hspec
        exact absurd (hall op (List.mem_of_getElem? hget) hlive.1) hlive.2
  · -- every undo that names the operation is one of the names' occurrences
    have hcount : (w.repo.oplog.filter fun u => u.undoneOp = some op.id).length =
        (w.repo.oplog.filterMap Op.undoneOp).count op.id := by
      rw [List.count_filterMap, List.countP_eq_length_filter]
      exact congrArg List.length (List.filter_congr fun u _ => by rw [Bool.eq_iff_iff]; simp)
    rw [hcount]
    exact List.nodup_iff_count_le_one.mp hnodup op.id

namespace TwoDrops

/-- The drop of a workspace, which touches no ref. -/
def drop (name : String) : OpInProgress PlainHash := ⟨"local:alice", .wtDrop name name, [], []⟩

/-- One workspace has been dropped, from an empty log. -/
def droppedOne : World PlainHash := final (appendOp (drop "a")) (final openLog (World.fresh .calm))

/-- Then a second one. -/
def dropped : World PlainHash := final (appendOp (drop "b")) droppedOne

/-- The second drop has been undone. -/
def world : World PlainHash := final (undoOnce "local:alice") dropped

theorem dropped_history : LogHistory [] dropped := by
  have hopen : LogHistory [] (final openLog (World.fresh (H := PlainHash) .calm)) :=
    .openEmpty (w := World.fresh .calm) rfl rfl
  have hone : LogHistory [] droppedOne := hopen.append (drop "a") rfl rfl
  exact hone.append (drop "b") rfl rfl

theorem world_history : ∃ undone : Op PlainHash, undone.id = 1 ∧ LogHistory [undone] world := by
  have hrun : ∃ outcome, undoOnce "local:alice" dropped = .ok (some outcome) world ∧
      outcome.undone.id = 1 := ⟨_, rfl, rfl⟩
  obtain ⟨outcome, hok, hid⟩ := hrun
  exact ⟨outcome.undone, hid, .undo dropped_history "local:alice" hok⟩

end TwoDrops

/-- After two drops and an undo, the first drop is the one to undo next. -/
theorem pickOpToUndo_twoDrops :
    pickOpToUndo TwoDrops.world.repo.oplog = TwoDrops.world.repo.oplog[0]? ∧
    pickOpToUndo TwoDrops.world.repo.oplog =
      (TwoDrops.world.repo.oplog.filter fun op =>
        decide (NotUndone TwoDrops.world.repo.oplog op)).getLast? := by
  obtain ⟨undone, -, h⟩ := TwoDrops.world_history
  exact ⟨rfl, (pickOpToUndo_lastNotUndone h).1⟩

end Tig
