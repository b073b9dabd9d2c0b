import Tig.Fs.Rescan
import Tig.Fs.Resolution

set_option relaxedAutoImplicit false
set_option autoImplicit false

/-!
# What a scan sees

A scan skips names wherever they occur, and takes the others to be text. So what lies at a path of a
directory is seen by a scan exactly when none of the names on the way is skipped.

## Main definitions

* `Tig.DistinctBelow` — the names in every directory are distinct.

## Main results

* `Tig.shapeAt_map_encode` — a scan sees what lies at a path without skipped names.
* `Tig.text_of_shapeAt` — in a directory that can be scanned, such a path is text.
-/

namespace Tig

/-- The names in every directory of a working copy are distinct, as they are on disk. -/
def DistinctBelow (copy : WorkingCopy) : Prop :=
  ∀ loc dir, dirOf copy loc = some dir → DistinctNames dir

section Distinct

variable {copy children : WorkingCopy}

theorem DistinctBelow.here (h : DistinctBelow copy) : DistinctNames copy := h [] copy rfl

theorem DistinctBelow.child (h : DistinctBelow copy) {name : Bytes}
    (hc : childOf name copy = some (.dir children)) : DistinctBelow children := by
  intro loc dir hdir
  exact h (name :: loc) dir ((dirOf_of_child hc loc).trans hdir)

/-- A directory with distinct names is distinct below when its directories are. -/
theorem distinctBelow_of_children (h : DistinctNames copy)
    (hc : ∀ name children, childOf name copy = some (.dir children) → DistinctBelow children) :
    DistinctBelow copy := by
  intro loc dir hdir
  cases loc with
  | nil =>
    obtain rfl := Option.some.inj hdir
    exact h
  | cons name loc =>
    obtain ⟨children, hchild, hdir⟩ := dirOf_cons hdir
    exact hc name children hchild loc dir hdir

end Distinct

section Paths

variable {ignore : List String} {copy : WorkingCopy}

/-- **A scan sees** what lies at a path, when no name on the way is skipped. -/
theorem shapeAt_map_encode (h : DistinctBelow copy) {names : List String}
    (hn : ∀ n ∈ names, n ∉ ignore) :
    shapeAt copy (names.map Utf8.encode) = (nodeAt ignore copy names).map Node.shape := by
  induction names generalizing copy with
  | nil => rfl
  | cons name rest ih =>
    have hname := hn name List.mem_cons_self
    have hrest : ∀ n ∈ rest, n ∉ ignore := fun n hmem => hn n (List.mem_cons_of_mem _ hmem)
    have hfind : findChild ignore name copy = childOf (Utf8.encode name) copy := by
      rw [findChild_eq h.here, if_neg hname]
    cases rest with
    | nil =>
      rw [List.map_singleton, shapeAt, nodeAt, hfind]
    | cons next rest =>
      rw [List.map_cons, List.map_cons, shapeAt, nodeAt, hfind]
      cases hc : childOf (Utf8.encode name) copy with
      | none => rfl
      | some node =>
        cases node with
        | dir children => exact ih (h.child hc) hrest
        | file bytes executable => rfl
        | symlink target => rfl
        | other kind => rfl

/-- No name on the way to what a scan sees is skipped. -/
theorem not_ignored_of_nodeAt {names : List String} {node : Node}
    (h : nodeAt ignore copy names = some node) : ∀ n ∈ names, n ∉ ignore := by
  induction names generalizing copy with
  | nil => cases h
  | cons name rest ih =>
    cases rest with
    | nil =>
      intro n hn
      obtain rfl := List.mem_singleton.mp hn
      exact not_ignored_of_findChild h
    | cons next rest =>
      rw [nodeAt] at h
      cases hf : findChild ignore name copy with
      | none =>
        rw [hf] at h
        cases h
      | some child =>
        rw [hf] at h
        cases child with
        | dir children =>
          intro n hn
          rcases List.mem_cons.mp hn with rfl | hn
          · exact not_ignored_of_findChild hf
          · exact ih h n hn
        | file bytes executable => cases h
        | symlink target => cases h
        | other kind => cases h

variable {H : Type} [Format H]

/-- **In a directory that can be scanned**, a path without skipped names is text. -/
theorem text_of_shapeAt {tree : Tree H} (htree : recordTree ignore copy = some tree)
    {path : List Bytes} (hpath : shapeAt copy path ≠ none)
    (hskip : ∀ n ∈ ignore, Utf8.encode n ∉ path) :
    ∃ names : List String, path = names.map Utf8.encode ∧ ∀ n ∈ names, n ∉ ignore := by
  induction path generalizing copy tree with
  | nil => exact absurd rfl hpath
  | cons bytes rest ih =>
    have hchild : childOf bytes copy ≠ none := by
      intro hnone
      refine hpath ?_
      cases rest with
      | nil => rw [shapeAt, hnone, Option.map_none]
      | cons next rest => rw [shapeAt, hnone]
    obtain ⟨node, hnode⟩ := Option.ne_none_iff_exists'.mp hchild
    obtain ⟨name, hdec, hcase⟩ :=
      recordable_of_recordChildren htree (bytes, node) (mem_of_childOf hnode)
    obtain rfl : Utf8.encode name = bytes := (Utf8.encode_of_decode hdec).symm
    have hname : name ∉ ignore := fun hi => hskip name hi List.mem_cons_self
    obtain ⟨-, entry, hentry⟩ := hcase.resolve_left hname
    cases rest with
    | nil =>
      refine ⟨[name], rfl, fun n hn => ?_⟩
      rwa [List.mem_singleton.mp hn]
    | cons next rest =>
      rw [shapeAt, hnode] at hpath
      dsimp only at hentry
      cases node with
      | dir children =>
        rw [Node.record, Option.map_eq_some_iff] at hentry
        obtain ⟨sub, hsub, -⟩ := hentry
        obtain ⟨names, hnames, hall⟩ := ih hsub hpath fun n hi hmem =>
          hskip n hi (List.mem_cons_of_mem _ hmem)
        refine ⟨name :: names, by rw [hnames, List.map_cons], fun n hn => ?_⟩
        rcases List.mem_cons.mp hn with rfl | hn
        · exact hname
        · exact hall n hn
      | file contents executable => exact absurd rfl hpath
      | symlink target => exact absurd rfl hpath
      | other kind => exact absurd rfl hpath

end Paths

end Tig
