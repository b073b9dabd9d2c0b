import Mathlib.Data.Finset.Card
import Mathlib.Logic.Relation

set_option relaxedAutoImplicit false
set_option autoImplicit false

/-!
# Marking the reachable part of a graph

The worklist loop of a mark-and-sweep collector, over any directed graph whose successors may
fail to be read. Only finitely many vertices have successors, which is what makes the loop
terminate, cycles and dangling edges included.

## Main definitions

* `Marking.Graph` — a graph with fallible successors, finitely many of them non-empty.
* `Marking.Graph.mark` — the worklist loop.
* `Marking.Graph.Founded` — no path from a vertex goes on for ever.

## Main results

* `Marking.Graph.mem_mark` — what is marked is what the roots reach.
* `Marking.Graph.mark_error`, `Marking.Graph.mark_read`, `Marking.Graph.exists_mark` — when marking
  fails, and when not.
* `Marking.Graph.reaches_congr` — what is reached depends only on what is reached.
* `Marking.Graph.Founded.not_cycle` — a vertex from which every path ends is on no cycle.
-/

namespace Marking

/-- A directed graph over `V` whose successor lists are read by an operation that may fail.
Outside `nodes` every vertex is a leaf. -/
structure Graph (V ε : Type) where
  succ : V → Except ε (List V)
  nodes : Finset V
  leaf : ∀ v ∉ nodes, succ v = .ok []

namespace Graph

variable {V ε : Type}

/-- One edge: the successors of `a` can be read, and `b` is among them. -/
def Edge (g : Graph V ε) (a b : V) : Prop := ∃ next, g.succ a = .ok next ∧ b ∈ next

/-- `b` can be reached from `a` along edges. -/
def Reaches (g : Graph V ε) : V → V → Prop := Relation.ReflTransGen g.Edge

/-- Every path along edges from `a` on comes to an end. -/
def Founded (g : Graph V ε) (a : V) : Prop := Acc (fun b a => g.Edge a b) a

/-- Push the elements of a list onto a stack, one after the other. -/
def push (next queue : List V) : List V := next.reverse ++ queue

@[simp] theorem mem_push {next queue : List V} {v : V} :
    v ∈ push next queue ↔ v ∈ next ∨ v ∈ queue := by
  simp [push]

variable [DecidableEq V]

/-- The worklist loop: take a vertex off the queue; unless it is marked already, mark it and
queue its successors. -/
def mark (g : Graph V ε) (marked : Finset V) (queue : List V) : Except ε (Finset V) :=
  match queue with
  | [] => .ok marked
  | v :: queue =>
    if v ∈ marked then g.mark marked queue
    else
      match _hnext : g.succ v with
      | .error e => .error e
      | .ok next => g.mark (insert v marked) (push next queue)
termination_by ((g.nodes \ marked).card, queue.length)
decreasing_by
  · exact Prod.Lex.right _ (by simp)
  · rename_i hv
    by_cases hmem : v ∈ g.nodes
    · -- a new vertex is marked: fewer are left
      refine Prod.Lex.left _ _ (Finset.card_lt_card ?_)
      rw [Finset.ssubset_iff_of_subset (Finset.sdiff_subset_sdiff subset_rfl (by simp))]
      exact ⟨v, by simp [hmem, hv], by simp⟩
    · -- a leaf: the queue gets shorter
      have hleaf : next = [] := by
        have := g.leaf v hmem
        rw [_hnext] at this
        exact Except.ok.inj this
      subst hleaf
      have hcard : (g.nodes \ insert v marked).card = (g.nodes \ marked).card := by
        congr 1
        ext u
        simp only [Finset.mem_sdiff, Finset.mem_insert, not_or]
        exact ⟨fun h => ⟨h.1, h.2.2⟩, fun h => ⟨h.1, fun hu => hmem (hu ▸ h.1), h.2⟩⟩
      rw [hcard]
      exact Prod.Lex.right _ (by simp [push])

/-- What was marked stays marked, and what was queued gets marked. -/
theorem subset_mark (g : Graph V ε) (marked : Finset V) (queue : List V) {m : Finset V}
    (h : g.mark marked queue = .ok m) : marked ⊆ m ∧ ∀ v ∈ queue, v ∈ m := by
  fun_induction mark g marked queue with
  | case1 marked => simp_all
  | case2 marked v queue hv ih =>
    obtain ⟨h1, h2⟩ := ih h
    exact ⟨h1, List.forall_mem_cons.mpr ⟨h1 hv, h2⟩⟩
  | case3 => simp at h
  | case4 marked v queue hv next hnext ih =>
    obtain ⟨h1, h2⟩ := ih h
    refine ⟨fun u hu => h1 (Finset.mem_insert_of_mem hu), List.forall_mem_cons.mpr ⟨?_, ?_⟩⟩
    · exact h1 (Finset.mem_insert_self v marked)
    · exact fun u hu => h2 u (mem_push.mpr (Or.inr hu))

/-- The marked set is closed under edges, provided the edges out of what was marked at the
start lead to marked or queued vertices. -/
theorem mark_closed (g : Graph V ε) (marked : Finset V) (queue : List V) {m : Finset V}
    (h : g.mark marked queue = .ok m)
    (hinv : ∀ a ∈ marked, ∀ b, g.Edge a b → b ∈ marked ∨ b ∈ queue) :
    ∀ a ∈ m, ∀ b, g.Edge a b → b ∈ m := by
  fun_induction mark g marked queue with
  | case1 marked =>
    obtain rfl : marked = m := Except.ok.inj h
    exact fun a ha b hb => by simpa using hinv a ha b hb
  | case2 marked v queue hv ih =>
    refine ih h fun a ha b hb => ?_
    rcases hinv a ha b hb with hb | hb
    · exact Or.inl hb
    · rcases List.mem_cons.mp hb with rfl | hb
      · exact Or.inl hv
      · exact Or.inr hb
  | case3 => simp at h
  | case4 marked v queue hv next hnext ih =>
    refine ih h fun a ha b hb => ?_
    rcases Finset.mem_insert.mp ha with rfl | ha
    · obtain ⟨next', hnext', hb⟩ := hb
      obtain rfl : next = next' := Except.ok.inj (hnext.symm.trans hnext')
      exact Or.inr (mem_push.mpr (Or.inl hb))
    · rcases hinv a ha b hb with hb | hb
      · exact Or.inl (Finset.mem_insert_of_mem hb)
      · rcases List.mem_cons.mp hb with rfl | hb
        · exact Or.inl (Finset.mem_insert_self _ marked)
        · exact Or.inr (mem_push.mpr (Or.inr hb))

/-- Whatever holds of the start and is handed on along edges holds of every marked vertex. -/
theorem mark_sound (g : Graph V ε) (marked : Finset V) (queue : List V) {m : Finset V}
    (h : g.mark marked queue = .ok m) {P : V → Prop}
    (hmarked : ∀ v ∈ marked, P v) (hqueue : ∀ v ∈ queue, P v)
    (hstep : ∀ a b, P a → g.Edge a b → P b) : ∀ v ∈ m, P v := by
  fun_induction mark g marked queue with
  | case1 marked =>
    obtain rfl : marked = m := Except.ok.inj h
    exact hmarked
  | case2 marked v queue hv ih => exact ih h hmarked (List.forall_mem_cons.mp hqueue).2
  | case3 => simp at h
  | case4 marked v queue hv next hnext ih =>
    obtain ⟨hPv, hqueue⟩ := List.forall_mem_cons.mp hqueue
    refine ih h (fun u hu => ?_) (fun u hu => ?_)
    · rcases Finset.mem_insert.mp hu with rfl | hu
      · exact hPv
      · exact hmarked u hu
    · rcases mem_push.mp hu with hu | hu
      · exact hstep v u hPv ⟨next, hnext, hu⟩
      · exact hqueue u hu

/-- **What is marked is what the roots reach.**

**Proof sketch.** Every marked vertex is reachable because reachability is handed on along
edges (`mark_sound`); every reachable vertex is marked because the roots are (`subset_mark`) and
the marked set is closed under edges (`mark_closed`). -/
theorem mem_mark {g : Graph V ε} {roots : List V} {m : Finset V}
    (h : g.mark ∅ roots = .ok m) {v : V} : v ∈ m ↔ ∃ r ∈ roots, g.Reaches r v := by
  constructor
  · refine mark_sound g ∅ roots h (P := fun v => ∃ r ∈ roots, g.Reaches r v) (by simp)
      (fun r hr => ⟨r, hr, .refl⟩) (fun a b ha hab => ?_) v
    obtain ⟨r, hr, hra⟩ := ha
    exact ⟨r, hr, hra.tail hab⟩
  · rintro ⟨r, hr, hrv⟩
    have hclosed := mark_closed g ∅ roots h (by simp)
    induction hrv with
    | refl => exact (subset_mark g ∅ roots h).2 r hr
    | tail _ hab ih => exact hclosed _ ih _ hab

/-- Marking fails only at a vertex that it came to along edges and that cannot be read. -/
theorem mark_error (g : Graph V ε) (marked : Finset V) (queue : List V) {e : ε}
    (h : g.mark marked queue = .error e) {P : V → Prop} (hqueue : ∀ v ∈ queue, P v)
    (hstep : ∀ a b, P a → g.Edge a b → P b) : ∃ v, P v ∧ g.succ v = .error e := by
  fun_induction mark g marked queue with
  | case1 => simp at h
  | case2 marked v queue hv ih => exact ih h (List.forall_mem_cons.mp hqueue).2
  | case3 marked v queue hv e' hsucc =>
    obtain rfl : e' = e := Except.error.inj h
    exact ⟨v, (List.forall_mem_cons.mp hqueue).1, hsucc⟩
  | case4 marked v queue hv next hnext ih =>
    obtain ⟨hPv, hqueue⟩ := List.forall_mem_cons.mp hqueue
    refine ih h fun u hu => ?_
    rcases mem_push.mp hu with hu | hu
    · exact hstep v u hPv ⟨next, hnext, hu⟩
    · exact hqueue u hu

/-- The successors of every vertex that got marked could be read. -/
theorem mark_read (g : Graph V ε) (marked : Finset V) (queue : List V) {m : Finset V}
    (h : g.mark marked queue = .ok m) (hmarked : ∀ v ∈ marked, ∃ next, g.succ v = .ok next) :
    ∀ v ∈ m, ∃ next, g.succ v = .ok next := by
  fun_induction mark g marked queue with
  | case1 marked =>
    obtain rfl : marked = m := Except.ok.inj h
    exact hmarked
  | case2 marked v queue hv ih => exact ih h hmarked
  | case3 => simp at h
  | case4 marked v queue hv next hnext ih =>
    refine ih h fun u hu => ?_
    rcases Finset.mem_insert.mp hu with rfl | hu
    · exact ⟨next, hnext⟩
    · exact hmarked u hu

omit [DecidableEq V] in
/-- What `r` reaches depends only on the successors of the vertices that it reaches. -/
theorem Reaches.congr {g g' : Graph V ε} {r v : V} (h : g.Reaches r v)
    (hsucc : ∀ u, g.Reaches r u → g'.succ u = g.succ u) : g'.Reaches r v := by
  induction h with
  | refl => exact .refl
  | tail hu hedge ih =>
    obtain ⟨next, hnext, hmem⟩ := hedge
    exact ih.tail ⟨next, (hsucc _ hu).trans hnext, hmem⟩

omit [DecidableEq V] in
/-- Where the successors agree on what `r` reaches, both graphs reach the same from `r`. -/
theorem reaches_congr {g g' : Graph V ε} {r v : V}
    (hsucc : ∀ u, g.Reaches r u → g'.succ u = g.succ u) : g'.Reaches r v ↔ g.Reaches r v := by
  refine ⟨fun h => ?_, fun h => h.congr hsucc⟩
  induction h with
  | refl => exact .refl
  | tail _ hedge ih =>
    obtain ⟨next, hnext, hmem⟩ := hedge
    exact ih.tail ⟨next, (hsucc _ ih).symm.trans hnext, hmem⟩

/-- Marking succeeds when every vertex can be read. -/
theorem exists_mark (g : Graph V ε) (roots : List V) (h : ∀ v, ∃ next, g.succ v = .ok next) :
    ∃ m, g.mark ∅ roots = .ok m := by
  cases hm : g.mark ∅ roots with
  | ok m => exact ⟨m, rfl⟩
  | error e =>
    obtain ⟨v, -, hv⟩ := mark_error g ∅ roots hm (P := fun _ => True) (by simp) (by simp)
    obtain ⟨next, hnext⟩ := h v
    rw [hnext] at hv
    cases hv

/-! ## Paths that end -/

namespace Founded

omit [DecidableEq V] in
/-- Only what the vertex reaches matters. -/
theorem congr {g g' : Graph V ε} {a : V} (h : g.Founded a)
    (hsucc : ∀ u, g.Reaches a u → g'.succ u = g.succ u) : g'.Founded a := by
  induction h with
  | intro a _ ih =>
    refine ⟨a, fun b hedge => ?_⟩
    obtain ⟨next, hnext, hb⟩ := hedge
    have hedge : g.Edge a b := ⟨next, (hsucc a .refl).symm.trans hnext, hb⟩
    exact ih b hedge fun u hu => hsucc u (hu.head hedge)

omit [DecidableEq V] in
/-- **A vertex from which every path ends** is on no cycle. -/
theorem not_cycle {g : Graph V ε} {a : V} (h : g.Founded a) : ¬ Relation.TransGen g.Edge a a := by
  induction h with
  | intro a _ ih =>
    intro hcycle
    obtain ⟨b, hedge, hback⟩ := Relation.TransGen.head'_iff.mp hcycle
    exact ih b hedge (.tail' hback hedge)

end Founded

end Graph

end Marking
