import Tig.Core.Plain
import Tig.System.Run

set_option relaxedAutoImplicit false
set_option autoImplicit false

/-!
# The log and the refs

Over every run, the log is a faithful record of what happened to the refs: undoing goes back
through it one operation at a time, and replaying it gives the refs as they are.

## Main results

* `Tig.undoOnce_exact` — an undo goes back to the refs before the operation it undoes, and can
  itself be gone back on.
* `Tig.oplog_replays` — the log replays to the live refs, and every entry before an operation is
  the last one written to its ref.
-/

namespace Tig

open Program

variable {H : Type} [LinearOrder H] [Format H]

/-! ## A run -/

namespace FirstChange

/-- `tig change new`. -/
def changeNew : Operation PlainHash := .cmdChangeNew ⟨"local:alice", "/repo", .main⟩ "first"

/-- The repository with its first change. -/
def created : World PlainHash := changeNew.effect (World.fresh .calm)

/-- A run that creates a change: the operation is not undone. -/
theorem run_created : Run created [(0, Refs.empty)] :=
  .operation (.start (World.fresh .calm) rfl Env.calm_reliable Env.calm_fresh) ⟨0⟩ changeNew

end FirstChange

/-! ## Undo -/

/-- **Undo is an exact inverse, last operation first.** In every state that a run reaches, an undo
returns. It has nothing to undo exactly when every operation is undone. Otherwise the operation it
reports is the latest one that is not undone, and the refs are what they were immediately before
that operation; writing the entries that the undo has recorded before itself brings back the refs
as they were before the undo. -/
theorem undoOnce_exact {w : World H} {σ : UndoStack H} (h : Run w σ) (log : FileLog)
    (actor : PrincipalId) :
    ∃ out w', undoOnce actor { w with log := log } = .ok out w' ∧ (out = none ↔ σ = []) ∧
      ∀ o, out = some o → ∃ i r rest, σ = (i, r) :: rest ∧ w.repo.oplog[i]? = some o.undone ∧
        w'.repo.refs = r ∧
        ∃ w'', restoreRefs o.recorded.before w' = .ok () w'' ∧ w''.repo.refs = w.repo.refs := by
  have hchr := h.chronicle.withLog log
  obtain ⟨out, w', hrun, hout⟩ := hchr.undoOnce_returns actor
  refine ⟨out, w', hrun, ?_⟩
  rcases hout with ⟨rfl, rfl, -⟩ | ⟨o, i, r, rest, rfl, rfl, hi, hu, hb, ha, hcom⟩
  · exact ⟨by simp, fun o ho => by cases ho⟩
  obtain ⟨hcap, hrefs, -⟩ := hchr.undone hi hu hb ha hcom
  refine ⟨by simp, fun o' ho' => ?_⟩
  obtain rfl := Option.some.inj ho'
  refine ⟨i, r, rest, rfl, hi, hrefs, ?_⟩
  -- what the undo recorded before itself can be written back, and no write fails
  have hrest : ∀ e ∈ o.recorded.before, e.Restorable := by
    rw [hb]
    refine List.forall_mem_map.mpr fun e he => RefSnapshot.restorable_of_key ?_
    rw [Refs.key_read]
    exact hchr.noBookmark o.undone (List.mem_of_getElem? hi)
      (mem_of_pickOpToUndo (hchr.pickOpToUndo_eq.trans hi)).2 e he
  have hrel : w'.env.Reliable := by
    rw [hcom.env]
    exact hchr.reliable
  obtain ⟨_, w'', hrun', hw''⟩ := Post.exists_ok (restoreRefs_spec hrest
    (Q := fun _ w'' => w'.Wrote w'' o.recorded.before w'.log) (fun _ hw => hw)
    (fun _ _ hfail => hrel.not_failed hfail))
  refine ⟨w'', hrun', ?_⟩
  rw [hw''.refs, hrefs]
  exact hcap.restore_before

/-- Undoing the creation of the first change. -/
theorem undoOnce_firstChange : ∃ o w',
    undoOnce "local:alice" { FirstChange.created with log := ⟨0⟩ } = .ok (some o) w' ∧
      w'.repo.refs = Refs.empty := by
  obtain ⟨out, w', hrun, hnone, hsome⟩ := undoOnce_exact FirstChange.run_created ⟨0⟩ "local:alice"
  cases out with
  | none => exact absurd (hnone.mp rfl) (by simp)
  | some o =>
    obtain ⟨i, r, rest, hσ, -, hrefs, -⟩ := hsome o rfl
    obtain ⟨⟨rfl, rfl⟩, -⟩ := by simpa using hσ
    exact ⟨o, w', hrun, hrefs⟩

/-! ## Replay -/

/-- **The log replays to the live refs.** In every state that a run reaches, writing the entries
after each operation, in the order of the log and starting from empty refs, gives the refs as they
are; and every entry before an operation is the one that the last earlier operation left at its
ref, or the absent entry if there is none. -/
theorem oplog_replays {w : World H} {σ : UndoStack H} (h : Run w σ) :
    Journal.replay (refTable H) Op.after Refs.empty w.repo.oplog = w.repo.refs ∧
      ∀ i op, w.repo.oplog[i]? = some op → ∀ e ∈ op.before,
        e = (Journal.lastTouch (refTable H) Op.after e.key (w.repo.oplog.take i)).getD
          (Refs.empty.read e.key) :=
  ⟨h.chronicle.chronicle.replay,
    fun _ _ hi _ he => h.chronicle.chronicle.before_eq hi he⟩

/-- Replaying the log of the first change. -/
theorem oplog_replays_firstChange : Journal.replay (refTable PlainHash) Op.after Refs.empty
    FirstChange.created.repo.oplog = FirstChange.created.repo.refs :=
  (oplog_replays FirstChange.run_created).1

end Tig
