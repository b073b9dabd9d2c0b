import Tig.Core.TreeSearch
import Tig.Fs.PathMap

set_option relaxedAutoImplicit false
set_option autoImplicit false

/-!
# A tree is a finite map

A tree is made empty or from entries, and entries are put into it and taken out of it. Whatever
the order of these, it is a map from names to entries, and has one form only: two trees that are
the same map are equal, and so have the same hash.

## Main definitions

* `Tig.TreeAction`, `Tig.treeAfter` — what is done to a tree, and the tree it leads to.
* `Tig.TreeAction.onMap` — what an action does to a map from names to entries.
* `Tig.Tree.IsMap` — the form of a tree.

## Main results

* `Tig.get_treeAfter` — the tree is the map that the actions lead to.
* `Tig.treeAfter_canonical` — **trees are canonical finite maps**.
-/

namespace Tig

open Program

variable {H : Type}

/-! ## Actions on a tree -/

/-- Take the entry of a name out, in place, wherever it stands. -/
def Tree.removeInPlace (name : String) : EStateM CoreError (Tree H) Unit := do
  let t ← getThe (Tree H)
  match t.entries.findIdx? fun e => e.name = name with
  | some idx => set (⟨t.entries.eraseIdx idx⟩ : Tree H)
  | none => throw (.decode ("no entry " ++ debugStr name ++ " to delete"))

/-- What can be done to a tree. -/
inductive TreeAction (H : Type) where
  | new
  | fromEntries (entries : List (TreeEntry H))
  | insert (entry : TreeEntry H)
  | remove (name : String)

/-- Do it. -/
def TreeAction.run : TreeAction H → EStateM CoreError (Tree H) Unit
  | new => set (Tree.new : Tree H)
  | fromEntries entries => do
    let t ← fromExcept (Tree.fromEntries entries)
    set t
  | insert entry => Tree.insertInPlace entry
  | remove name => Tree.removeInPlace name

/-- The tree after actions on a new one, some of which may fail. -/
def treeAfter (actions : List (TreeAction H)) : Tree H :=
  actions.foldl (fun t a => final a.run t) Tree.new

/-- What an action does to a map from names to entries. -/
def TreeAction.onMap (m : String → Option (TreeEntry H)) :
    TreeAction H → String → Option (TreeEntry H)
  | new => fun _ => none
  | fromEntries entries =>
    if (∀ e ∈ entries, TreeEntry.validateName e.name = .ok ()) ∧
        (entries.map TreeEntry.name).Nodup then
      fun name => entries.find? fun e => e.name = name
    else m
  | insert entry =>
    if TreeEntry.validateName entry.name = .ok () then
      Function.update m entry.name (some entry)
    else m
  | remove name => Function.update m name none

/-- The map after actions on the empty one. -/
def mapAfter (actions : List (TreeAction H)) : String → Option (TreeEntry H) :=
  actions.foldl TreeAction.onMap fun _ => none

/-! ## The form of a tree -/

/-- The names are valid and ascend, and a lookup finds the entry of the name. -/
structure Tree.IsMap (t : Tree H) : Prop where
  sorted : t.Sorted
  names : ∀ e ∈ t.entries, TreeEntry.validateName e.name = .ok ()

variable {t t' : Tree H}

/-- No two entries share a name. -/
theorem Tree.Sorted.nodup (h : t.Sorted) : (t.entries.map TreeEntry.name).Nodup := by
  rw [List.Nodup, List.pairwise_map]
  exact h.imp fun hlt => hlt.ne

/-- A lookup finds exactly the entries. -/
theorem Tree.Sorted.getBySearch_eq_some (h : t.Sorted) {name : String} {e : TreeEntry H} :
    t.getBySearch name = some e ↔ e ∈ t.entries ∧ e.name = name := by
  rw [Tree.getBySearch_eq h]
  exact findEntry_eq_some h

/-- The insertion in place, when the name is valid and when it is not. -/
theorem final_insertInPlace (h : t.Sorted) (entry : TreeEntry H) :
    final (Tree.insertInPlace entry) t =
      if TreeEntry.validateName entry.name = .ok () then ⟨upsertEntry entry t.entries⟩ else t := by
  rw [final, Tree.insertInPlace_eq h]
  split_ifs with hv
  · rw [insert_ok hv t entry rfl]
  · rw [Tree.insert]
    cases hname : TreeEntry.validateName entry.name with
    | error e => rfl
    | ok u => exact absurd hname hv

/-- The removal in place takes the entry out that has the name. -/
theorem removeInPlace_eq (t : Tree H) (name : String) :
    Tree.removeInPlace name t =
      if ∃ e ∈ t.entries, e.name = name then .ok () (t.remove name)
      else .error (.decode ("no entry " ++ debugStr name ++ " to delete")) t := by
  have hrun : Tree.removeInPlace name t =
      match t.entries.findIdx? fun e => e.name = name with
      | some idx => .ok () ⟨t.entries.eraseIdx idx⟩
      | none => .error (.decode ("no entry " ++ debugStr name ++ " to delete")) t := by
    show (match t.entries.findIdx? fun e => e.name = name with
      | some idx => set (⟨t.entries.eraseIdx idx⟩ : Tree H)
      | none => throw (.decode ("no entry " ++ debugStr name ++ " to delete")) :
        EStateM CoreError (Tree H) Unit) t = _
    cases t.entries.findIdx? fun e => e.name = name <;> rfl
  rw [hrun, Tree.remove, List.eraseP_eq_eraseIdx]
  cases hfind : t.entries.findIdx? fun e => e.name = name with
  | some idx =>
    obtain ⟨hlt, hname, -⟩ := List.findIdx?_eq_some_iff_getElem.mp hfind
    rw [if_pos ⟨_, List.getElem_mem hlt, of_decide_eq_true hname⟩]
  | none =>
    rw [if_neg]
    rintro ⟨e, he, hname⟩
    have := List.findIdx?_eq_none_iff.mp hfind e he
    simp [hname] at this

/-- Without an entry of the name a removal changes nothing. -/
theorem final_removeInPlace (h : t.Sorted) (name : String) (other : String) :
    (final (Tree.removeInPlace name) t).get other =
      if other = name then none else t.get other := by
  rw [final, removeInPlace_eq]
  split_ifs with hmem hname hname
  · dsimp only
    rw [get_remove_eq h, if_pos hname]
  · dsimp only
    rw [get_remove_eq h, if_neg hname]
  · subst hname
    exact (get_eq_none h).mpr fun e he hn => hmem ⟨e, he, hn⟩
  · rfl

/-! ## One action, and all -/

/-- **An action** keeps the form of a tree, -/
theorem Tree.IsMap.after (h : t.IsMap) (a : TreeAction H) : (final a.run t).IsMap := by
  cases a with
  | new => exact ⟨List.Pairwise.nil, fun e he => absurd he List.not_mem_nil⟩
  | fromEntries entries =>
    show (final (do let t ← fromExcept (Tree.fromEntries entries); set t) t).IsMap
    cases hbuilt : Tree.fromEntries entries with
    | error e => exact h
    | ok built =>
      obtain ⟨hvalid, -, hform⟩ := Tree.fromEntries_eq_ok.mp hbuilt
      show built.IsMap
      refine ⟨Tree.sorted_fromEntries hbuilt, fun e he => hvalid e ?_⟩
      rw [hform] at he
      exact (sortByName_perm entries).subset he
  | insert entry =>
    show (final (Tree.insertInPlace entry) t).IsMap
    rw [final_insertInPlace h.sorted]
    split_ifs with hv
    · refine ⟨pairwise_upsertEntry entry h.sorted, fun e he => ?_⟩
      rcases mem_upsertEntry he with rfl | he
      · exact hv
      · exact h.names e he
    · exact h
  | remove name =>
    show (final (Tree.removeInPlace name) t).IsMap
    rw [final, removeInPlace_eq]
    split_ifs
    · exact ⟨h.sorted.remove name, fun e he => h.names e (List.mem_of_mem_eraseP he)⟩
    · exact h

/-- and does to the map what it should. -/
theorem Tree.IsMap.get_after (h : t.IsMap) (a : TreeAction H) :
    (final a.run t).get = a.onMap t.get := by
  funext name
  cases a with
  | new => rfl
  | fromEntries entries =>
    show (final (do let t ← fromExcept (Tree.fromEntries entries); set t) t).get name = _
    rw [TreeAction.onMap]
    cases hbuilt : Tree.fromEntries entries with
    | error e =>
      rw [if_neg]
      · rfl
      · rintro ⟨hvalid, hnodup⟩
        rw [Tree.fromEntries_eq_ok.mpr ⟨hvalid, hnodup, rfl⟩] at hbuilt
        cases hbuilt
    | ok built =>
      obtain ⟨hvalid, hnodup, hform⟩ := Tree.fromEntries_eq_ok.mp hbuilt
      have hsorted := Tree.sorted_fromEntries hbuilt
      rw [if_pos ⟨hvalid, hnodup⟩]
      show built.get name = _
      have hmem : ∀ e, e ∈ built.entries ↔ e ∈ entries := fun e => by
        rw [hform]
        exact (sortByName_perm entries).mem_iff
      cases hfind : entries.find? fun e => e.name = name with
      | none =>
        refine (get_eq_none hsorted).mpr fun e he hname => ?_
        have := List.find?_eq_none.mp hfind e ((hmem e).mp he)
        simp [hname] at this
      | some e =>
        have hname := List.find?_some hfind
        exact (findEntry_eq_some hsorted).mpr
          ⟨(hmem e).mpr (List.mem_of_find?_eq_some hfind), of_decide_eq_true hname⟩
  | insert entry =>
    show (final (Tree.insertInPlace entry) t).get name = _
    rw [final_insertInPlace h.sorted, TreeAction.onMap]
    split_ifs with hv
    · rw [Tree.get_insert (insert_ok hv t entry rfl), Function.update_apply]
    · rfl
  | remove gone =>
    show (final (Tree.removeInPlace gone) t).get name = _
    rw [final_removeInPlace h.sorted, TreeAction.onMap, Function.update_apply]

/-- Every tree that actions lead to has the form of a map, and is the map they lead to. -/
theorem get_treeAfter (actions : List (TreeAction H)) :
    (treeAfter actions).IsMap ∧ (treeAfter actions).get = mapAfter actions := by
  induction actions using List.reverseRecOn with
  | nil => exact ⟨⟨List.Pairwise.nil, fun e he => absurd he List.not_mem_nil⟩, rfl⟩
  | append_singleton actions a ih =>
    obtain ⟨hmap, hget⟩ := ih
    have htree : treeAfter (actions ++ [a]) = final a.run (treeAfter actions) := by
      simp [treeAfter]
    have hmapAfter : mapAfter (actions ++ [a]) = a.onMap (mapAfter actions) := by
      simp [mapAfter]
    rw [htree, hmapAfter, ← hget]
    exact ⟨hmap.after a, hmap.get_after a⟩

/-- **Trees are canonical finite maps**, after any actions. Their names are valid, ascend and
differ. A lookup is that of the map, and finds the entry of the name. An insertion puts its entry
under its name and leaves the others, or leaves the tree as it was because the name is not valid.
Entries make no tree exactly when a name is not valid or is that of two entries. Two trees that are
the same map are equal, and have the same hash. -/
theorem treeAfter_canonical [Format H] (actions : List (TreeAction H)) :
    (treeAfter actions).Sorted ∧
    (∀ e ∈ (treeAfter actions).entries, TreeEntry.validateName e.name = .ok ()) ∧
    ((treeAfter actions).entries.map TreeEntry.name).Nodup ∧
    (treeAfter actions).getBySearch = mapAfter actions ∧
    (∀ name e, (treeAfter actions).getBySearch name = some e ↔
      e ∈ (treeAfter actions).entries ∧ e.name = name) ∧
    (∀ entry : TreeEntry H,
      match Tree.insertInPlace entry (treeAfter actions) with
      | .ok _ t' => ∀ name, t'.getBySearch name =
          if name = entry.name then some entry else (treeAfter actions).getBySearch name
      | .error _ t' => t' = treeAfter actions ∧ TreeEntry.validateName entry.name ≠ .ok ()) ∧
    (∀ entries : List (TreeEntry H), (∃ err, Tree.fromEntries entries = .error err) ↔
      (∃ e ∈ entries, TreeEntry.validateName e.name ≠ .ok ()) ∨
        ¬ (entries.map TreeEntry.name).Nodup) ∧
    ∀ others : List (TreeAction H),
      (∀ name, (treeAfter actions).getBySearch name = (treeAfter others).getBySearch name) →
        treeAfter actions = treeAfter others ∧
        (encode H (treeAfter actions)).hash H = (encode H (treeAfter others)).hash H := by
  obtain ⟨hmap, hget⟩ := get_treeAfter actions
  have hsearch : ∀ name, (treeAfter actions).getBySearch name = (treeAfter actions).get name :=
    Tree.getBySearch_eq hmap.sorted
  refine ⟨hmap.sorted, hmap.names, hmap.sorted.nodup, ?_,
    fun name e => hmap.sorted.getBySearch_eq_some, fun entry => ?_, fun entries => ?_,
    fun others hsame => ?_⟩
  · rw [← hget]
    exact funext hsearch
  · rw [Tree.insertInPlace_eq hmap.sorted]
    cases hins : (treeAfter actions).insert entry with
    | ok t' =>
      intro name
      rw [Tree.getBySearch_eq (hmap.sorted.insert hins), Tree.get_insert hins, hsearch]
    | error e =>
      refine ⟨rfl, fun hv => ?_⟩
      rw [insert_ok hv _ entry rfl] at hins
      cases hins
  · rw [← not_iff_not, not_or, not_not]
    constructor
    · intro hno
      cases hbuilt : Tree.fromEntries entries with
      | error e => exact absurd ⟨e, hbuilt⟩ hno
      | ok built =>
        obtain ⟨hvalid, hnodup, -⟩ := Tree.fromEntries_eq_ok.mp hbuilt
        exact ⟨fun ⟨e, he, hv⟩ => hv (hvalid e he), hnodup⟩
    · rintro ⟨hvalid, hnodup⟩ ⟨err, herr⟩
      have hok := Tree.fromEntries_eq_ok.mpr
        ⟨fun e he => not_not.mp fun hv => hvalid ⟨e, he, hv⟩, hnodup, rfl⟩
      rw [hok] at herr
      cases herr
  · obtain ⟨hmap', -⟩ := get_treeAfter others
    have heq : treeAfter actions = treeAfter others := hmap.sorted.ext hmap'.sorted fun name => by
      rw [← hsearch, hsame name, Tree.getBySearch_eq hmap'.sorted]
    exact ⟨heq, by rw [heq]⟩

end Tig
