import Tig.Core.Plain
import Tig.Store.Undo

set_option relaxedAutoImplicit false
set_option autoImplicit false

/-!
# The ids of operations

Processes share the log file. Each has a handle that caches the id of the next record: it is found
by scanning the file when the handle is opened, and counted on by the appends made through the
handle. A command opens a handle, works and is done; the daemon keeps one handle open. Everything
that appends holds the write lock of the repository, so appends come one after the other.

A handle is fresh as long as no record has been added to the file that it has not counted.

## Main definitions

* `Tig.Processes` — the shared repository and the handles of the processes.
* `Tig.Interleaving` — the states that the processes reach together.
* `Tig.OpIdsDense` — every record has its position as its id.

## Main results

* `Tig.opIds_dense` — ids are dense as long as processes append through fresh handles only.
* `Tig.opIds_collide` — a handle that is kept open while another process appends gives out an id
  twice.
-/

namespace Tig

open Program

/-! ## Processes that share a log -/

/-- Processes at work on one repository: their handles on the log, and which of them are fresh. -/
structure Processes (P H : Type) where
  world : World H
  handles : P → Option FileLog
  fresh : P → Bool

variable {P H : Type} [DecidableEq P]

/-- What a process does with its handle while it holds the lock. -/
inductive LogWork (H : Type) where
  | append (op : OpInProgress H) (notUndo : op.kind.isUndo = false)
  | undo (actor : PrincipalId)

/-- The world after the work, and whether the work succeeded. -/
def LogWork.effect : LogWork H → World H → World H × Bool
  | append op _, w =>
    match appendOp op w with
    | .ok _ w' => (w', true)
    | .error _ w' => (w', false)
  | undo actor, w =>
    match undoOnce actor w with
    | .ok _ w' => (w', true)
    | .error _ w' => (w', false)

namespace Processes

/-- A process has opened its handle. -/
def opened (s : Processes P H) (p : P) (w : World H) : Processes P H where
  world := w
  handles := Function.update s.handles p (some w.log)
  fresh := Function.update s.fresh p true

/-- A process has worked with its handle. When that has added a record to the file, only the
handle that has counted it is still fresh. -/
def worked (s : Processes P H) (p : P) (log : FileLog) (x : LogWork H) : Processes P H :=
  let r := x.effect { s.world with log := log }
  { world := r.1
    handles := Function.update s.handles p (some r.1.log)
    fresh := fun q =>
      if r.1.repo.oplog.length = s.world.repo.oplog.length then s.fresh q
      else decide (q = p) && r.2 }

end Processes

/-- The states that processes reach from an empty log, in any order of their steps. When it is
`guarded`, processes use their handles only while they are fresh. -/
inductive Interleaving (guarded : Prop) : Processes P H → Prop
  | start (w : World H) (hlog : w.repo.oplog = []) :
      Interleaving guarded ⟨w, fun _ => none, fun _ => false⟩
  | other {s : Processes P H} (h : Interleaving guarded s) (w : World H)
      (hlog : w.repo.oplog = s.world.repo.oplog) : Interleaving guarded { s with world := w }
  | openHandle {s : Processes P H} (h : Interleaving guarded s) (p : P) (w : World H)
      (hopen : openLog s.world = .ok () w) : Interleaving guarded (s.opened p w)
  | work {s : Processes P H} (h : Interleaving guarded s) (p : P) (log : FileLog) (x : LogWork H)
      (hlog : s.handles p = some log) (hfresh : guarded → s.fresh p = true) :
      Interleaving guarded (s.worked p log x)

/-! ## Dense ids -/

/-- Every record has its position as its id, so ids increase and no two records share one; and
the id that an undo names is that of exactly one record. -/
structure OpIdsDense (log : List (Op H)) : Prop where
  dense : ∀ (i : Nat) (op : Op H), log[i]? = some op → op.id = i
  increasing : (log.map Op.id).Pairwise (· < ·)
  undone : ∀ op ∈ log, ∀ id, op.kind = .undo id →
    ∃! i : Nat, ∃ target, log[i]? = some target ∧ target.id = id

/-- Every record has its position as its id, and an undo names an id that has been given out. -/
structure Numbered (log : List (Op H)) : Prop where
  dense : ∀ (i : Nat) (op : Op H), log[i]? = some op → op.id = i
  undone : ∀ op ∈ log, ∀ id, op.kind = .undo id → id < log.length

omit [DecidableEq P] in
/-- The id of a record that is there has been given out. -/
theorem Numbered.id_lt {log : List (Op H)} (h : Numbered log) {op : Op H} (hop : op ∈ log) :
    op.id < log.length := by
  obtain ⟨i, hi⟩ := List.mem_iff_getElem?.mp hop
  rw [h.dense i op hi]
  exact (List.getElem?_eq_some_iff.mp hi).1

/-- One more record with the next id. -/
theorem Numbered.append {log : List (Op H)} (h : Numbered log) {op : Op H}
    (hid : op.id = log.length) (hundo : ∀ id, op.kind = .undo id → id < log.length) :
    Numbered (log ++ [op]) where
  dense i op' hi := by
    rcases Nat.lt_trichotomy i log.length with hlt | rfl | hgt
    · rw [List.getElem?_append_left hlt] at hi
      exact h.dense i op' hi
    · obtain rfl : op = op' := by simpa using hi
      exact hid
    · rw [List.getElem?_eq_none (by simp; omega)] at hi
      cases hi
  undone op' hop' id hk := by
    rw [List.length_append, List.length_singleton]
    rcases List.mem_append.mp hop' with hop' | hop'
    · exact Nat.lt_succ_of_lt (h.undone op' hop' id hk)
    · obtain rfl := List.mem_singleton.mp hop'
      exact Nat.lt_succ_of_lt (hundo id hk)

/-- Only the records before the last one. -/
theorem Numbered.of_append {log : List (Op H)} {op : Op H}
    (h : ∀ (i : Nat) (op' : Op H), (log ++ [op])[i]? = some op' → op'.id = i) :
    (∀ (i : Nat) (op' : Op H), log[i]? = some op' → op'.id = i) ∧ op.id = log.length := by
  refine ⟨fun i op' hi => h i op' ?_, h log.length op (by simp)⟩
  rw [List.getElem?_append_left (List.getElem?_eq_some_iff.mp hi).1]
  exact hi

/-- The scan of a file with dense ids finds the number of its records. -/
theorem computeNextId_of_dense {log : List (Op H)}
    (h : ∀ (i : Nat) (op : Op H), log[i]? = some op → op.id = i) :
    computeNextId log = log.length := by
  -- the greatest id is that of the last record
  suffices hfold : log.foldl
      (fun max op => if (op.id : Int) > max then (op.id : Int) else max) (-1 : Int) =
      (log.length : Int) - 1 by
    rw [computeNextId, hfold, Int.sub_add_cancel, Int.toNat_natCast]
  induction log using List.reverseRecOn with
  | nil => rfl
  | append_singleton log op ih =>
    obtain ⟨hlog, hid⟩ := Numbered.of_append h
    rw [List.foldl_append, ih hlog, List.foldl_cons, List.foldl_nil, hid, if_pos (by omega),
      List.length_append, List.length_singleton]
    omega

/-- A numbered log has dense ids. -/
theorem Numbered.opIdsDense {log : List (Op H)} (h : Numbered log) : OpIdsDense log where
  dense := h.dense
  increasing := by
    rw [List.pairwise_iff_getElem]
    intro i j hi hj hij
    rw [List.getElem_map, List.getElem_map, h.dense i _ (List.getElem?_eq_getElem _),
      h.dense j _ (List.getElem?_eq_getElem _)]
    exact hij
  undone op hop id hk := by
    have hlt := h.undone op hop id hk
    have hget := List.getElem?_eq_getElem hlt
    refine ⟨id, ⟨log[id], hget, h.dense id _ hget⟩, ?_⟩
    rintro i ⟨target, hi, rfl⟩
    exact (h.dense i target hi).symm

/-! ## What the steps do to the log -/

section Steps

variable {w : World H}

/-- Neither the file nor the handle changed. -/
def World.SameLog (w w' : World H) : Prop := w'.repo.oplog = w.repo.oplog ∧ w'.log = w.log

theorem writeRef_sameLog (e : RefSnapshot H) :
    Post (writeRef e) w (fun _ w' => w.SameLog w') (fun _ w' => w.SameLog w') :=
  post_writeRef.mpr ⟨fun _ => ⟨rfl, rfl⟩, fun _ _ => ⟨rfl, rfl⟩⟩

/-- Writing an entry back leaves the log alone, whether or not it can be done. -/
theorem restoreRef_sameLog (e : RefSnapshot H) :
    Post (restoreRef e) w (fun _ w' => w.SameLog w') (fun _ w' => w.SameLog w') := by
  match e with
  | .head (some id) => exact writeRef_sameLog _
  | .head none => exact writeRef_sameLog _
  | .change _ (some c) => exact writeRef_sameLog _
  | .change id none => exact writeRef_sameLog _
  | .workspace _ (some m) => exact writeRef_sameLog _
  | .bookmark name none => exact writeRef_sameLog _
  | .bookmark name (some id) =>
    rw [restoreRef, setBookmark, post_ite]
    exact ⟨fun _ => ⟨rfl, rfl⟩, fun _ => writeRef_sameLog _⟩
  | .workspace id none =>
    rw [restoreRef, post_tryCatch, deleteWorkspace, post_bind, post_step]
    refine ⟨fun _ => ?_, fun err hf => ?_⟩
    · rw [post_bind, post_get, post_ite]
      exact ⟨fun _ => ⟨rfl, rfl⟩, fun _ => ⟨rfl, rfl⟩⟩
    · split
      · exact ⟨rfl, rfl⟩
      · exact ⟨rfl, rfl⟩

theorem restoreRefs_sameLog (es : List (RefSnapshot H)) :
    Post (restoreRefs es) w (fun _ w' => w.SameLog w') (fun _ w' => w.SameLog w') := by
  induction es generalizing w with
  | nil => exact ⟨rfl, rfl⟩
  | cons e es ih =>
    rw [restoreRefs, post_bind]
    refine (restoreRef_sameLog e).mono (fun _ w₁ h₁ => ?_) (fun _ _ h => h)
    exact ih.mono (fun _ _ h₂ => ⟨h₂.1.trans h₁.1, h₂.2.trans h₁.2⟩)
      (fun _ _ h₂ => ⟨h₂.1.trans h₁.1, h₂.2.trans h₁.2⟩)

/-- The outcome of one append, or of none: `named` is what an undo that is recorded can name. -/
structure World.Logged (w w' : World H) (ok : Bool) : Prop where
  outcome : w.SameLog w' ∨ ∃ op, w'.repo.oplog = w.repo.oplog ++ [op] ∧
    op.id = w.log.nextId ∧ (∀ id, op.kind = .undo id → ∃ target ∈ w.repo.oplog, target.id = id) ∧
    (ok = true → w'.log.nextId = w.log.nextId + 1)

/-- An append adds a record with the handle's next id, or none. -/
theorem appendOp_logged {w₁ : World H} {op : OpInProgress H} (hs : w.SameLog w₁)
    (hundo : ∀ id, op.kind = .undo id → ∃ target ∈ w.repo.oplog, target.id = id) :
    Post (appendOp op) w₁ (fun _ w' => w.Logged w' true) (fun _ w' => w.Logged w' false) := by
  rw [post_appendOp]
  refine ⟨fun _ => ⟨fun _ => ?_, fun e _ => ?_⟩, fun e _ => ⟨Or.inl hs⟩⟩
  · exact ⟨Or.inr ⟨_, congrArg (· ++ [_]) hs.1, congrArg FileLog.nextId hs.2, hundo,
      fun _ => congrArg (fun l => FileLog.nextId l + 1) hs.2⟩⟩
  · exact ⟨Or.inr ⟨_, congrArg (· ++ [_]) hs.1, congrArg FileLog.nextId hs.2, hundo,
      fun h => absurd h Bool.false_ne_true⟩⟩

/-- **An undo** finds nothing to undo, or records the undo of the record that is picked, under the
handle's next id. When it fails, the record may still have got into the file. -/
theorem undoOnce_links (actor : PrincipalId) :
    Post (undoOnce actor) w
      (fun out w' =>
        match out with
        | none => pickOpToUndo w.repo.oplog = none ∧ w.SameLog w'
        | some o => pickOpToUndo w.repo.oplog = some o.undone ∧
            w'.repo.oplog = w.repo.oplog ++ [o.recorded] ∧ o.recorded.id = w.log.nextId ∧
            o.recorded.kind = .undo o.undone.id ∧ w'.log.nextId = w.log.nextId + 1)
      (fun _ w' => w.SameLog w' ∨ ∃ target op, pickOpToUndo w.repo.oplog = some target ∧
        w'.repo.oplog = w.repo.oplog ++ [op] ∧ op.id = w.log.nextId ∧ op.kind = .undo target.id) := by
  rw [undoOnce, post_bind]
  refine listOps_spec (fun w₁ hs₁ _ => ?_) (fun e w₁ hs₁ _ _ => Or.inl ⟨hs₁.oplog, hs₁.log⟩)
  cases hpick : pickOpToUndo w.repo.oplog with
  | none => exact ⟨rfl, hs₁.oplog, hs₁.log⟩
  | some target =>
    dsimp only
    rw [post_bind]
    refine openWorkspaces_spec (fun w₂ hs₂ _ => ?_)
      (fun e w₂ hs₂ _ _ => Or.inl ⟨(hs₁.trans hs₂).oplog, (hs₁.trans hs₂).log⟩)
    rw [post_bind]
    refine readCurrents_spec _ (fun w₃ hs₃ _ => ?_)
      (fun e w₃ hs₃ _ _ => Or.inl ⟨((hs₁.trans hs₂).trans hs₃).oplog,
        ((hs₁.trans hs₂).trans hs₃).log⟩)
    have hs := (hs₁.trans hs₂).trans hs₃
    rw [post_bind]
    refine (restoreRefs_sameLog target.before).mono (fun _ w₄ h₄ => ?_)
      (fun _ w₄ h₄ => Or.inl ⟨h₄.1.trans hs.oplog, h₄.2.trans hs.log⟩)
    have hlog : w₄.repo.oplog = w.repo.oplog := h₄.1.trans hs.oplog
    have hnext : w₄.log.nextId = w.log.nextId := congrArg FileLog.nextId (h₄.2.trans hs.log)
    rw [post_bind, post_appendOp]
    refine ⟨fun _ => ⟨fun _ => ?_, fun e _ => ?_⟩, fun e _ => Or.inl ⟨hlog, h₄.2.trans hs.log⟩⟩
    · exact ⟨rfl, congrArg (· ++ [_]) hlog, hnext, rfl, congrArg (· + 1) hnext⟩
    · exact Or.inr ⟨target, _, rfl, congrArg (· ++ [_]) hlog, hnext, rfl⟩

/-- An undo records, if anything, an undo of a record that is there. -/
theorem undoOnce_logged (actor : PrincipalId) :
    Post (undoOnce actor) w (fun _ w' => w.Logged w' true) (fun _ w' => w.Logged w' false) := by
  have hnamed : ∀ {target op : Op H}, pickOpToUndo w.repo.oplog = some target →
      op.kind = .undo target.id → ∀ id, op.kind = .undo id →
        ∃ target ∈ w.repo.oplog, target.id = id := by
    rintro target op hpick hkind id hk
    exact ⟨target, (mem_of_pickOpToUndo hpick).1, OpKind.undo.inj (hkind.symm.trans hk)⟩
  refine (undoOnce_links actor).mono (fun out w' h => ?_) (fun e w' h => ?_)
  · match out, h with
    | none, h => exact ⟨Or.inl h.2⟩
    | some o, ⟨hpick, happ, hid, hkind, hnext⟩ =>
      exact ⟨Or.inr ⟨o.recorded, happ, hid, hnamed hpick hkind, fun _ => hnext⟩⟩
  · rcases h with h | ⟨target, op, hpick, happ, hid, hkind⟩
    · exact ⟨Or.inl h⟩
    · exact ⟨Or.inr ⟨op, happ, hid, hnamed hpick hkind, fun h => absurd h Bool.false_ne_true⟩⟩

/-- The work of a process adds at most one record. -/
theorem LogWork.logged (x : LogWork H) : w.Logged (x.effect w).1 (x.effect w).2 := by
  cases x with
  | append op notUndo =>
    have h : Post (appendOp op) w _ _ := appendOp_logged ⟨rfl, rfl⟩ fun id hk => by
      rw [hk] at notUndo
      cases notUndo
    simp only [LogWork.effect]
    cases hrun : appendOp op w with
    | ok _ w' => exact h.ok hrun
    | error _ w' => exact h.error hrun
  | undo actor =>
    have h := undoOnce_logged (w := w) actor
    simp only [LogWork.effect]
    cases hrun : undoOnce actor w with
    | ok _ w' => exact h.ok hrun
    | error _ w' => exact h.error hrun

end Steps

/-! ## Ids over a run -/

/-- The log is numbered, and a fresh handle has counted all of it. -/
structure Processes.Counted (s : Processes P H) : Prop where
  numbered : Numbered s.world.repo.oplog
  fresh : ∀ p, s.fresh p = true → ∃ log, s.handles p = some log ∧
    log.nextId = s.world.repo.oplog.length

/-- Opening a handle counts the records of the file. -/
theorem Processes.Counted.opened {s : Processes P H} (h : s.Counted) (p : P) {w : World H}
    (hopen : openLog s.world = .ok () w) : (s.opened p w).Counted := by
  obtain ⟨hlog, hid⟩ : w.repo.oplog = s.world.repo.oplog ∧
      w.log.nextId = s.world.repo.oplog.length :=
    (openLog_spec (Q := fun _ w => w.repo.oplog = s.world.repo.oplog ∧
        w.log.nextId = s.world.repo.oplog.length) (E := fun _ _ => True)
      (fun w' hs _ => ⟨hs.oplog, computeNextId_of_dense h.numbered.dense⟩)
      (fun _ _ _ _ _ => trivial)).ok hopen
  refine ⟨?_, fun q hq => ?_⟩
  · show Numbered w.repo.oplog
    rw [hlog]
    exact h.numbered
  · show ∃ log, Function.update s.handles p (some w.log) q = some log ∧
      log.nextId = w.repo.oplog.length
    by_cases hqp : q = p
    · subst hqp
      exact ⟨w.log, Function.update_self .., by rw [hid, hlog]⟩
    · rw [Function.update_of_ne hqp, hlog]
      have hq' : s.fresh q = true := by
        simpa [Processes.opened, Function.update_of_ne hqp] using hq
      exact h.fresh q hq'

/-- Work with a fresh handle keeps the log numbered. -/
theorem Processes.Counted.worked {s : Processes P H} (h : s.Counted) (p : P) {log : FileLog}
    (x : LogWork H) (hlog : s.handles p = some log) (hfresh : s.fresh p = true) :
    (s.worked p log x).Counted := by
  have hnext : log.nextId = s.world.repo.oplog.length := by
    obtain ⟨log', hlog', hnext⟩ := h.fresh p hfresh
    obtain rfl := Option.some.inj (hlog.symm.trans hlog')
    exact hnext
  have hlogged := x.logged (w := { s.world with log := log })
  revert hlogged
  rw [Processes.worked]
  generalize x.effect { s.world with log := log } = r
  intro hlogged
  rcases hlogged.outcome with ⟨hsame, hlog₁⟩ | ⟨op, happ, hid, hundo, hok⟩
  · -- nothing was added
    dsimp only at hsame hlog₁
    refine ⟨?_, fun q hq => ?_⟩
    · show Numbered r.1.repo.oplog
      rw [hsame]
      exact h.numbered
    · have hq' : s.fresh q = true := by simpa [hsame] using hq
      show ∃ log', Function.update s.handles p (some r.1.log) q = some log' ∧
        log'.nextId = r.1.repo.oplog.length
      rw [hsame, hlog₁]
      by_cases hqp : q = p
      · subst hqp
        exact ⟨log, Function.update_self .., hnext⟩
      · rw [Function.update_of_ne hqp]
        exact h.fresh q hq'
  · dsimp only at happ hid hundo hok
    refine ⟨?_, fun q hq => ?_⟩
    · show Numbered r.1.repo.oplog
      rw [happ]
      refine h.numbered.append (hid.trans hnext) fun id hk => ?_
      obtain ⟨target, htarget, rfl⟩ := hundo id hk
      exact h.numbered.id_lt htarget
    · -- only the handle of the record is still fresh
      obtain ⟨rfl, hok'⟩ : q = p ∧ r.2 = true := by simpa [happ] using hq
      refine ⟨r.1.log, Function.update_self .., ?_⟩
      show _ = r.1.repo.oplog.length
      rw [hok hok', happ, List.length_append, List.length_singleton]
      exact congrArg (· + 1) hnext

/-- **Op ids are dense** in every state that processes reach, in any order of their steps, as long
as each appends only through a handle to which the log has added no record since the handle was
opened or last counted on. -/
theorem opIds_dense {s : Processes P H} (h : Interleaving True s) :
    OpIdsDense s.world.repo.oplog := by
  refine Numbered.opIdsDense (Processes.Counted.numbered (s := s) ?_)
  induction h with
  | start w hlog =>
    refine ⟨⟨fun i op hi => ?_, fun op hop => ?_⟩, fun p hp => by cases hp⟩
    · simp [hlog] at hi
    · simp [hlog] at hop
  | other _ w hlog ih =>
    refine ⟨?_, fun p hp => ?_⟩
    · show Numbered w.repo.oplog
      rw [hlog]
      exact ih.numbered
    · show ∃ log : FileLog, _ = some log ∧ log.nextId = w.repo.oplog.length
      rw [hlog]
      exact ih.fresh p hp
  | openHandle _ p w hopen ih => exact ih.opened p hopen
  | work _ p log x hlog hfresh ih => exact ih.worked p x hlog (hfresh trivial)

/-! ## A daemon and a command -/

namespace TwoProcesses

/-- An append of one process. -/
def work (actor : PrincipalId) : LogWork PlainHash := .append ⟨actor, .wtDrop "w" "w", [], []⟩ rfl

/-- The daemon (`true`) has opened its handle; then a command has. -/
def bothOpen : Processes Bool PlainHash :=
  ((⟨World.fresh .calm, fun _ => none, fun _ => false⟩ : Processes Bool PlainHash).opened true
    (final openLog (World.fresh .calm))).opened false
    (final openLog (final openLog (World.fresh .calm)))

/-- The command has appended. -/
def commandDone : Processes Bool PlainHash := bothOpen.worked false ⟨0⟩ (work "local:alice")

/-- Then the daemon has, through the handle that it has kept. -/
def daemonDone : Processes Bool PlainHash := commandDone.worked true ⟨0⟩ (work "local:tigd")

theorem interleaving_bothOpen (guarded : Prop) : Interleaving guarded bothOpen :=
  .openHandle (.openHandle (.start (World.fresh .calm) rfl) true _ rfl) false _ rfl

end TwoProcesses

/-- The command and the daemon give out the id 0 twice. -/
theorem opIds_collide : ∃ s : Processes Bool PlainHash, Interleaving False s ∧
    s.world.repo.oplog.map Op.id = [0, 0] ∧ ¬ OpIdsDense s.world.repo.oplog := by
  refine ⟨TwoProcesses.daemonDone, ?_, rfl, fun h => ?_⟩
  · exact .work (.work (TwoProcesses.interleaving_bothOpen False) false ⟨0⟩ _ rfl False.elim) true
      ⟨0⟩ _ rfl False.elim
  · have hid := h.dense 1 _ rfl
    exact absurd hid (by decide)

/-- As long as only the command has appended, ids are dense. -/
theorem opIds_dense_commandDone : OpIdsDense TwoProcesses.commandDone.world.repo.oplog :=
  opIds_dense (.work (TwoProcesses.interleaving_bothOpen True) false ⟨0⟩
    (TwoProcesses.work "local:alice") rfl fun _ => rfl)

end Tig
