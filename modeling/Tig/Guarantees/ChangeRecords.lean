import Tig.Guarantees.Oplog

set_option relaxedAutoImplicit false
set_option autoImplicit false

/-!
# Change records

Over every run, garbage collections included, change records are well-formed and nothing points at
a change that is not there.

## Main definitions

* `Tig.Repo.WellFormed` — what is promised of the change records and pointers of a repository.

## Main results

* `Tig.changeRecords_wellFormed` — every state that a run reaches is well-formed.
-/

namespace Tig

open Program

variable {H : Type} [LinearOrder H] [Format H]

/-- The change records are well-formed: the history of each is a line of different stored
snapshots, each the only parent of the next, that ends in the current one. HEAD and the manifests
name changes that are there. -/
structure Repo.WellFormed (repo : Repo H) : Prop where
  nonempty : ∀ id c, repo.refs.changes.lookup id = some c → c.1.history ≠ []
  distinct : ∀ id c, repo.refs.changes.lookup id = some c → c.1.history.Nodup
  current : ∀ id c, repo.refs.changes.lookup id = some c →
    c.1.history.getLast? = some c.1.current
  stored : ∀ id c, repo.refs.changes.lookup id = some c → ∀ h ∈ c.1.history,
    ∃ snap : Snapshot H, repo.objects.load h = .ok snap
  linear : ∀ id c, repo.refs.changes.lookup id = some c → c.1.history.IsChain fun a b =>
    ∃ snap : Snapshot H, repo.objects.load b = .ok snap ∧ snap.parents = [a]
  head : ∀ id, repo.refs.head = some id → id ∈ repo.refs.changes
  workspaces : ∀ id m, repo.refs.workspaces.lookup id = some m → m.1.changeId ∈ repo.refs.changes

/-- **Change records are well-formed** in every state that a run reaches. -/
theorem changeRecords_wellFormed [LawfulFormat H] {w : World H} {σ : UndoStack H} (h : Run w σ) :
    w.repo.WellFormed := by
  have hrefs := h.sound.refs
  exact
    { nonempty := fun id c hc => List.ne_nil_of_mem (hrefs.changes id c hc).current_mem
      distinct := fun id c hc => (hrefs.changes id c hc).nodup
      current := fun id c hc => (hrefs.changes id c hc).current
      stored := fun id c hc x hx => by
        obtain ⟨n, hl⟩ := (hrefs.changes id c hc).lineage x hx
        exact hl.load
      linear := fun id c hc => (hrefs.changes id c hc).chain
      head := hrefs.head
      workspaces := hrefs.workspaces }

/-- The repository with its first change is well-formed. -/
theorem changeRecords_firstChange : FirstChange.created.repo.WellFormed :=
  changeRecords_wellFormed FirstChange.run_created

end Tig
