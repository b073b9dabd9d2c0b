import Tig.Cli.Commands
import Tig.Daemon.Handlers

set_option relaxedAutoImplicit false
set_option autoImplicit false

/-!
# Runs of a repository

Commands and requests work on a repository one at a time, each with a handle of its own on the
log. A run starts from a fresh repository and goes through operations, undos and collections of
garbage, in any order and without a failing step. With each state comes the stack of the
operations that are not undone: an operation that is recorded goes on top, together with the refs
before it, and an undo takes the top off.

## Main definitions

* `Tig.Operation`, `Tig.Operation.effect` — the operations, and what the world is after one.
* `Tig.Run` — the states that runs reach, with the stack of what is not undone.
* `Tig.World.Sound` — the objects are intact, and refs that were ever current are well-formed.

## Main results

* `Tig.Operation.outcome` — an operation writes refs only together with a record of it.
* `Tig.Run.chronicle` — the log is the journal of the run.
* `Tig.Run.sound` — every state of a run is sound.
-/

namespace Tig

open Program

variable {H : Type} [LinearOrder H] [Format H]

/-! ## Operations -/

/-- What is done to a repository by a program of the engine, a command or a request. -/
inductive Operation (H : Type) where
  | snapNow (ws : Workspace) (copy : WorkingCopy) (opts : SnapOptions)
  | snapChangeDirectly (changeId : ChangeId) (newTree : H) (opts : SnapOptions)
  | cmdSnap (inv : Invocation) (copy : WorkingCopy) (message : Option String)
  | cmdChangeNew (inv : Invocation) (description : String)
  | cmdDraft (inv : Invocation) (description : String)
  | cmdChangeTransition (inv : Invocation) (idOpt stateStr visStr : Option String)
  | cmdWtMake (disk : Disk) (inv : Invocation) (name : String) (atPath : Option String)
      (identity : Except Error (Option UnsealFn))
  | cmdWtDrop (disk : Disk) (inv : Invocation) (name : String) (keepFiles : Bool)
  | cmdSeal (inv : Invocation) (path : String) (sealed : Except Error Sealed)
  | createChange (srv : Server) (headers : HeaderMap) (req : CreateChangeReq)
  | patchTreePath (srv : Server) (id path : String) (headers : HeaderMap) (body : Bytes)
  | deleteTreePath (srv : Server) (id path : String) (headers : HeaderMap)
  | snapChange (srv : Server) (id : String) (headers : HeaderMap) (req : SnapReq)
  | transitionChange (srv : Server) (id : String) (headers : HeaderMap) (req : TransitionReq)

/-- The world after an operation, whether or not it failed. -/
def Operation.effect (op : Operation H) (w : World H) : World H :=
  match op with
  | snapNow ws copy opts => final (Tig.snapNow ws copy opts) w
  | snapChangeDirectly changeId newTree opts => final (Tig.snapChangeDirectly changeId newTree opts) w
  | cmdSnap inv copy message => final (Tig.cmdSnap inv copy message) w
  | cmdChangeNew inv description => final (Tig.cmdChangeNew inv description) w
  | cmdDraft inv description => final (Tig.cmdDraft inv description) w
  | cmdChangeTransition inv idOpt stateStr visStr =>
      final (Tig.cmdChangeTransition inv idOpt stateStr visStr) w
  | cmdWtMake disk inv name atPath identity => final (Tig.cmdWtMake disk inv name atPath identity) w
  | cmdWtDrop disk inv name keepFiles => final (Tig.cmdWtDrop disk inv name keepFiles) w
  | cmdSeal inv path sealed => final (Tig.cmdSeal inv path sealed) w
  | createChange srv headers req => final (Handlers.createChange srv headers req) w
  | patchTreePath srv id path headers body =>
      final (Handlers.patchTreePath srv id path headers body) w
  | deleteTreePath srv id path headers => final (Handlers.deleteTreePath srv id path headers) w
  | snapChange srv id headers req => final (Handlers.snapChange srv id headers req) w
  | transitionChange srv id headers req => final (Handlers.transitionChange srv id headers req) w

/-- **Every operation** writes objects at most, or it writes refs and records that. -/
theorem Operation.outcome {w : World H} (hw : w.Steady) (op : Operation H) :
    w.Outcome (op.effect w) := by
  cases op with
  | snapNow ws copy opts => exact (snapNow_outcome hw ws copy opts).final
  | snapChangeDirectly changeId newTree opts =>
    exact (snapChangeDirectly_outcome hw changeId newTree opts).final
  | cmdSnap inv copy message => exact (cmdSnap_outcome hw inv copy message).final
  | cmdChangeNew inv description => exact (cmdChangeNew_outcome hw inv description).final
  | cmdDraft inv description => exact (cmdDraft_outcome hw inv description).final
  | cmdChangeTransition inv idOpt stateStr visStr =>
    exact (cmdChangeTransition_outcome hw inv idOpt stateStr visStr).final
  | cmdWtMake disk inv name atPath identity =>
    exact (cmdWtMake_outcome hw disk inv name atPath identity).final
  | cmdWtDrop disk inv name keepFiles => exact (cmdWtDrop_outcome hw disk inv name keepFiles).final
  | cmdSeal inv path sealed => exact (cmdSeal_outcome hw inv path sealed).final
  | createChange srv headers req => exact (Handlers.createChange_outcome hw srv headers req).final
  | patchTreePath srv id path headers body =>
    exact (Handlers.patchTreePath_outcome hw srv id path headers body).final
  | deleteTreePath srv id path headers =>
    exact (Handlers.deleteTreePath_outcome hw srv id path headers).final
  | snapChange srv id headers req => exact (Handlers.snapChange_outcome hw srv id headers req).final
  | transitionChange srv id headers req =>
    exact (Handlers.transitionChange_outcome hw srv id headers req).final

/-! ## Runs -/

/-- The operations that are not undone, latest first: the position of the record in the log, and
the refs before the operation. -/
abbrev UndoStack (H : Type) := List (Nat × Refs H)

/-- The stack after an operation that led from `w` to `w'`. -/
def UndoStack.after (σ : UndoStack H) (w w' : World H) : UndoStack H :=
  if w'.repo.oplog.length = w.repo.oplog.length then σ
  else (w.repo.oplog.length, w.repo.refs) :: σ

/-- The states that runs reach, with what is not undone. Every operation has a handle of its own
on the log, which may have been opened at any time. -/
inductive Run : World H → UndoStack H → Prop
  | start (w : World H) (hrepo : w.repo = Repo.empty) (hrel : w.env.Reliable)
      (hfresh : Function.Injective w.env.ulid) : Run w []
  | operation {w : World H} {σ : UndoStack H} (h : Run w σ) (log : FileLog) (op : Operation H) :
      Run (op.effect { w with log := log }) (σ.after w (op.effect { w with log := log }))
  | undo {w : World H} {σ : UndoStack H} (h : Run w σ) (log : FileLog) (actor : PrincipalId) :
      Run (final (undoOnce actor) { w with log := log }) σ.tail
  | gc {w : World H} {σ : UndoStack H} (h : Run w σ) (log : FileLog) :
      Run (final (collectGarbage .default) { w with log := log }) σ

/-! ## The log as a journal -/

/-- What is known of a state of a run: no step fails, the log is the journal of the run, and the
ids in use, now and in the refs that are to come back, have come from the generator. -/
structure World.Chronicled (w : World H) (σ : UndoStack H) : Prop where
  reliable : w.env.Reliable
  fresh : Function.Injective w.env.ulid
  chronicle : Journal.Chronicle (refTable H) Op.before Op.after Op.isUndo Refs.empty w.repo.oplog σ
    w.repo.refs
  noBookmark : ∀ op ∈ w.repo.oplog, op.isUndo = false → ∀ e ∈ op.before, e.key.isBookmark = false
  ids : IdsBelow w.env w.ids w.repo.refs
  pastIds : ∀ p ∈ σ, IdsBelow w.env w.ids p.2

namespace World.Chronicled

variable {w w' : World H} {σ : UndoStack H}

omit [LinearOrder H] [Format H] in
/-- The handle on the log does not matter. -/
theorem withLog (h : w.Chronicled σ) (log : FileLog) : { w with log := log }.Chronicled σ :=
  ⟨h.reliable, h.fresh, h.chronicle, h.noBookmark, h.ids, h.pastIds⟩

omit [LinearOrder H] [Format H] in
theorem steady (h : w.Chronicled σ) : w.Steady := ⟨h.reliable, h.fresh, h.ids⟩

/-- What keeps refs and log keeps the chronicle. -/
theorem kept (h : w.Chronicled σ) (hk : w.Kept w') : w'.Chronicled σ where
  reliable := by rw [hk.env]; exact h.reliable
  fresh := by rw [hk.env]; exact h.fresh
  chronicle := by rw [hk.oplog, hk.refs]; exact h.chronicle
  noBookmark := by rw [hk.oplog]; exact h.noBookmark
  ids := by rw [hk.env, hk.refs]; exact h.ids.mono hk.idsLe
  pastIds p hp := by rw [hk.env]; exact (h.pastIds p hp).mono hk.idsLe

/-- A recorded operation goes on top of the stack. -/
theorem recorded (h : w.Chronicled σ) {op : Op H} (hop : w.Recorded w' op) :
    w'.Chronicled ((w.repo.oplog.length, w.repo.refs) :: σ) where
  reliable := by rw [hop.env]; exact h.reliable
  fresh := by rw [hop.env]; exact h.fresh
  chronicle := by
    rw [hop.oplog]
    exact h.chronicle.record hop.notUndo hop.captures
  noBookmark op' hop' hu := by
    rw [hop.oplog] at hop'
    rcases List.mem_append.mp hop' with hop' | hop'
    · exact h.noBookmark op' hop' hu
    · obtain rfl := List.mem_singleton.mp hop'
      exact hop.noBookmark
  ids := hop.ids
  pastIds p hp := by
    rw [hop.env]
    rcases List.mem_cons.mp hp with rfl | hp
    · exact h.ids.mono hop.idsLe
    · exact (h.pastIds p hp).mono hop.idsLe

/-- **An operation** keeps the chronicle. -/
theorem outcome (h : w.Chronicled σ) (hout : w.Outcome w') : w'.Chronicled (σ.after w w') := by
  rcases hout with hk | ⟨op, hop⟩
  · rw [UndoStack.after, if_pos (by rw [hk.oplog])]
    exact h.kept hk
  · rw [UndoStack.after, if_neg (by rw [hop.oplog]; simp)]
    exact h.recorded hop

omit [LinearOrder H] [Format H] in
/-- The operation to undo is the one on top of the stack. -/
theorem pickOpToUndo_eq (h : w.Chronicled σ) :
    pickOpToUndo w.repo.oplog = σ.head?.bind fun p => w.repo.oplog[p.1]? :=
  h.chronicle.pick_eq

/-- **An undo** returns: with nothing to undo it writes nothing, and otherwise it undoes the
operation on top of the stack. -/
theorem undoOnce_returns (h : w.Chronicled σ) (actor : PrincipalId) :
    ∃ out w', undoOnce actor w = .ok out w' ∧
      ((out = none ∧ σ = [] ∧ w.Quiet w') ∨
        ∃ o i r rest, out = some o ∧ σ = (i, r) :: rest ∧ w.repo.oplog[i]? = some o.undone ∧
          o.recorded.isUndo = true ∧
          o.recorded.before = (o.undone.before.map fun e => w.repo.refs.read e.key) ∧
          o.recorded.after = o.undone.before ∧ w.Committed w' o.undone.before o.recorded) := by
  have hspec := undoOnce_spec actor fun op hop hu e he =>
    RefSnapshot.restorable_of_key (h.noBookmark op hop hu e he)
  have hpick := h.pickOpToUndo_eq
  obtain ⟨out, w', hrun, hout⟩ := Post.exists_ok (hspec.mono (fun _ _ hq => hq) fun e w' he => by
    rcases he with ⟨-, hf⟩ | ⟨target, -, hfail⟩
    · exact h.reliable.not_fault e hf
    · exact h.reliable.not_failed hfail)
  refine ⟨out, w', hrun, ?_⟩
  cases out with
  | none =>
    obtain ⟨hnone, hq⟩ := hout
    refine Or.inl ⟨rfl, ?_, hq⟩
    cases σ with
    | nil => rfl
    | cons p σ =>
      -- what is on the stack is in the log
      have hlt := h.chronicle.unwinds.lt_length p List.mem_cons_self
      rw [hpick, List.head?_cons, Option.bind_some, List.getElem?_eq_getElem hlt] at hnone
      cases hnone
  | some o =>
    obtain ⟨hsome, -, hkind, hbefore, hafter, hcom⟩ := hout
    rw [hpick] at hsome
    cases σ with
    | nil => cases hsome
    | cons p rest =>
      exact Or.inr ⟨o, p.1, p.2, rest, rfl, rfl, hsome, by rw [Op.isUndo, hkind]; rfl, hbefore,
        hafter, hcom⟩

/-- An undo goes back to the refs before the operation it undoes. -/
theorem undone {i : Nat} {r : Refs H} {rest : UndoStack H} (h : w.Chronicled ((i, r) :: rest))
    {o : UndoOutcome H} (hi : w.repo.oplog[i]? = some o.undone)
    (hundo : o.recorded.isUndo = true)
    (hbefore : o.recorded.before = o.undone.before.map fun e => w.repo.refs.read e.key)
    (hafter : o.recorded.after = o.undone.before)
    (hcom : w.Committed w' o.undone.before o.recorded) :
    Journal.Captures (refTable H) o.recorded.before o.recorded.after w.repo.refs r ∧
      w'.repo.refs = r ∧ w'.Chronicled rest := by
  obtain ⟨hcap, hchr⟩ := h.chronicle.undo hundo hi hbefore hafter
  have hrefs : w'.repo.refs = r := by
    rw [hcom.refs, ← hafter]
    exact hcap.restore_after
  refine ⟨hcap, hrefs, ?_⟩
  exact
    { reliable := by rw [hcom.env]; exact h.reliable
      fresh := by rw [hcom.env]; exact h.fresh
      chronicle := by rw [hcom.oplog, hrefs]; exact hchr
      noBookmark := fun op hop hu => by
        rw [hcom.oplog] at hop
        rcases List.mem_append.mp hop with hop | hop
        · exact h.noBookmark op hop hu
        · obtain rfl := List.mem_singleton.mp hop
          rw [hundo] at hu
          cases hu
      ids := by
        rw [hcom.env, hrefs]
        exact (h.pastIds _ List.mem_cons_self).mono hcom.ids
      pastIds := fun p hp => by
        rw [hcom.env]
        exact (h.pastIds p (List.mem_cons_of_mem _ hp)).mono hcom.ids }

end World.Chronicled

omit [LinearOrder H] [Format H] in
/-- What leaves refs, log and ids alone keeps the chronicle, whatever it does to the objects. -/
theorem World.Chronicled.sameRefs {w w' : World H} {σ : UndoStack H} (h : w.Chronicled σ)
    (hs : w.SameRefs w') : w'.Chronicled σ where
  reliable := by rw [hs.env]; exact h.reliable
  fresh := by rw [hs.env]; exact h.fresh
  chronicle := by rw [hs.oplog, hs.refs]; exact h.chronicle
  noBookmark := by rw [hs.oplog]; exact h.noBookmark
  ids := by rw [hs.env, hs.refs]; exact h.ids.mono hs.ids
  pastIds p hp := by rw [hs.env]; exact (h.pastIds p hp).mono hs.ids

/-- **The log is the journal of the run**, in every state that a run reaches. -/
theorem Run.chronicle {w : World H} {σ : UndoStack H} (h : Run w σ) : w.Chronicled σ := by
  induction h with
  | start w hrepo hrel hfresh =>
    refine ⟨hrel, hfresh, ?_, ?_, ?_, fun p hp => absurd hp List.not_mem_nil⟩
    · rw [hrepo]
      exact .nil Refs.empty
    · rw [hrepo]
      exact fun op hop => absurd hop List.not_mem_nil
    · rw [hrepo]
      exact .empty w.env w.ids
  | operation _ log op ih =>
    have hlog := ih.withLog log
    exact hlog.outcome (op.outcome hlog.steady)
  | undo _ log actor ih =>
    obtain ⟨out, w', hrun, hout⟩ := (ih.withLog log).undoOnce_returns actor
    rw [final, hrun]
    rcases hout with ⟨-, rfl, hq⟩ | ⟨o, i, r, rest, -, rfl, hi, hu, hb, ha, hcom⟩
    · exact (ih.withLog log).kept hq.kept
    · exact ((ih.withLog log).undone hi hu hb ha hcom).2.2
  | gc _ log ih =>
    exact (ih.withLog log).sameRefs (collectGarbage_collected .default).final.toSameRefs

/-! ## Well-formedness -/

/-- The objects are intact, and the refs are well-formed, both those that are current and those
that undoing goes back to. -/
structure World.Sound (w : World H) (σ : UndoStack H) : Prop where
  intact : w.repo.objects.Intact
  refs : RefsOk w.repo.objects w.repo.refs
  past : ∀ p ∈ σ, RefsOk w.repo.objects p.2

section Collect

variable {w w' : World H}

/-- A line of parents that starts at an object that is kept is kept. -/
theorem Lineage.collect {opts : GcOptions} {s' : ObjectStore H}
    (hkept : ∀ h, Kept opts w.repo h → s'.lookup h = w.repo.objects.lookup h) {h : H} {n : Nat}
    (hl : Lineage w.repo.objects h n) (hh : Kept opts w.repo h) : Lineage s' h n := by
  induction hl with
  | root h snap hload hparents =>
    exact .root h snap (by rw [ObjectStore.load_congr (hkept h hh)]; exact hload) hparents
  | child h p n hparent _ ih =>
    obtain ⟨snap, hload, hparents⟩ := hparent
    have hp : Kept opts w.repo p := by
      obtain ⟨r, hr, hrh⟩ := hh
      have hedge : (objectGraph w.repo.objects).Edge h p :=
        edge_iff.mpr ⟨_, referents_of_snapshot hload, by simp [hparents]⟩
      exact ⟨r, hr, hrh.tail hedge⟩
    refine .child h p n ⟨snap, ?_, hparents⟩ (ih hp)
    rw [ObjectStore.load_congr (hkept h hh)]
    exact hload

/-- Refs stay well-formed when the snapshots of their change records are kept. -/
theorem RefsOk.collect {opts : GcOptions} {s' : ObjectStore H} {r : Refs H}
    (hkept : ∀ h, Kept opts w.repo h → s'.lookup h = w.repo.objects.lookup h)
    (hr : RefsOk w.repo.objects r)
    (hroots : ∀ id c, r.changes.lookup id = some c → ∀ h ∈ c.1.history, IsRoot opts w.repo h) :
    RefsOk s' r where
  changes id c hc := by
    have hok := hr.changes id c hc
    have hk : ∀ h ∈ c.1.history, Kept opts w.repo h := fun h hh => ⟨h, hroots id c hc h hh, .refl⟩
    refine ⟨hok.current, List.IsChain.imp_of_mem_imp (fun a b _ hb hp => ?_) hok.chain,
      fun h hh => (hok.lineage h hh).imp fun n hl => hl.collect hkept (hk h hh)⟩
    obtain ⟨snap, hload, hparents⟩ := hp
    refine ⟨snap, ?_, hparents⟩
    rw [ObjectStore.load_congr (hkept b (hk b hb))]
    exact hload
  head := hr.head
  workspaces := hr.workspaces

omit [LinearOrder H] [Format H] in
/-- The snapshots of a change record that a run was in are among the roots of a collection. -/
theorem World.Chronicled.isRoot {σ : UndoStack H} (h : w.Chronicled σ) {r : Refs H}
    (hr : r = w.repo.refs ∨ ∃ i, (i, r) ∈ σ) {id : ChangeId} {c : ChangeAt H id}
    (hc : r.changes.lookup id = some c) {x : H} (hx : x ∈ c.1.history) :
    IsRoot .default w.repo x := by
  have hread : r.read (.change id) = .change id (some c) := by rw [Refs.read, hc]
  rcases h.chronicle.read_mem hr (.change id) with hstart | ⟨op, hop, hafter⟩
  · rw [show (refTable H).read r (.change id) = _ from hread] at hstart
    cases hstart
  · rw [show (refTable H).read r (.change id) = _ from hread] at hafter
    have hx' : x ∈ (RefSnapshot.change id (some c)).snapshots := List.mem_cons_of_mem _ hx
    exact Or.inr ⟨rfl, op, hop, List.mem_append_right _
      (List.mem_flatMap.mpr ⟨_, List.mem_append_right _ hafter, hx'⟩)⟩

end Collect

namespace World.Sound

variable {w w' : World H} {σ : UndoStack H}

theorem withLog (h : w.Sound σ) (log : FileLog) : { w with log := log }.Sound σ :=
  ⟨h.intact, h.refs, h.past⟩

theorem kept (h : w.Sound σ) (hk : w.Kept w') : w'.Sound σ where
  intact := hk.intact h.intact
  refs := by rw [hk.refs]; exact h.refs.mono hk.le
  past p hp := (h.past p hp).mono hk.le

/-- **An operation** keeps a state sound. -/
theorem outcome [LawfulFormat H] (h : w.Sound σ) (hout : w.Outcome w') :
    w'.Sound (σ.after w w') := by
  rcases hout with hk | ⟨op, hop⟩
  · rw [UndoStack.after, if_pos (by rw [hk.oplog])]
    exact h.kept hk
  · rw [UndoStack.after, if_neg (by rw [hop.oplog]; simp)]
    refine ⟨hop.intact h.intact, hop.sound h.intact h.refs, fun p hp => ?_⟩
    rcases List.mem_cons.mp hp with rfl | hp
    · exact h.refs.mono hop.le
    · exact (h.past p hp).mono hop.le

/-- **A collection of garbage** keeps a state sound: what the log names is kept. -/
theorem collect (h : w.Sound σ) (hchr : w.Chronicled σ) :
    (final (collectGarbage .default) w).Sound σ := by
  obtain ⟨hs, hkept, hsub⟩ := (collectGarbage_collected .default (w := w)).final
  refine ⟨fun k bytes hb => ?_, ?_, fun p hp => ?_⟩
  · rcases hsub k with heq | hnone
    · exact h.intact k bytes (heq ▸ hb)
    · rw [hnone] at hb
      cases hb
  · rw [hs.refs]
    exact h.refs.collect hkept fun id c hc x hx => hchr.isRoot (Or.inl rfl) hc hx
  · exact (h.past p hp).collect hkept fun id c hc x hx => hchr.isRoot (Or.inr ⟨p.1, hp⟩) hc hx

end World.Sound

/-- **Every state that a run reaches is sound.** -/
theorem Run.sound [LawfulFormat H] {w : World H} {σ : UndoStack H} (h : Run w σ) : w.Sound σ := by
  induction h with
  | start w hrepo hrel hfresh =>
    refine ⟨?_, ?_, fun p hp => absurd hp List.not_mem_nil⟩
    · rw [hrepo]
      exact ObjectStore.intact_empty
    · rw [hrepo]
      exact .empty
  | operation h log op ih =>
    exact (ih.withLog log).outcome (op.outcome (h.chronicle.withLog log).steady)
  | undo h log actor ih =>
    have hchr := h.chronicle.withLog log
    have hs := ih.withLog log
    obtain ⟨out, w', hrun, hout⟩ := hchr.undoOnce_returns actor
    rw [final, hrun]
    rcases hout with ⟨-, rfl, hq⟩ | ⟨o, i, r, rest, -, rfl, hi, hu, hb, ha, hcom⟩
    · exact hs.kept hq.kept
    · obtain ⟨-, hrefs, -⟩ := hchr.undone hi hu hb ha hcom
      refine ⟨hcom.intact hs.intact, ?_, fun p hp => ?_⟩
      · show RefsOk w'.repo.objects w'.repo.refs
        rw [hrefs]
        exact (hs.past _ List.mem_cons_self).mono hcom.le
      · exact (hs.past p (List.mem_cons_of_mem _ hp)).mono hcom.le
  | gc h log ih => exact (ih.withLog log).collect (h.chronicle.withLog log)

end Tig
