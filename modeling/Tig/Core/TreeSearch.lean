import Tig.Core.Tree
import Tig.Lib.BinarySearch
import Tig.Lib.Program

set_option relaxedAutoImplicit false
set_option autoImplicit false

/-!
# Trees by binary search

A tree looks names up by binary search, and changes its entries in place. In a sorted tree that is
the same as walking along the entries, which is how `Tig.Tree.get` and `Tig.Tree.insert` are
defined.

## Main definitions

* `Tig.Tree.search` — where a name is, or where its entry would be inserted.
* `Tig.Tree.getBySearch`, `Tig.Tree.insertInPlace` — lookup and insertion as they are made.
* `Tig.Tree.fromEntries` — a tree of entries in any order.

## Main results

* `Tig.Tree.getBySearch_eq`, `Tig.Tree.insertInPlace_eq` — in a sorted tree they are lookup and
  insertion.
* `Tig.Tree.fromEntries_eq_ok` — a tree is built exactly from valid names that differ.
-/

namespace Tig

open Program
open BinarySearch (searchBy searchBy_spec Ascending)

variable {H : Type}

namespace Tree

/-! ## Lookup and insertion -/

/-- Search the entries for a name. -/
def search (t : Tree H) (name : String) : Except Nat Nat :=
  searchBy (fun e => compare e.name name) t.entries

/-- The entry found under a name. -/
def getBySearch (t : Tree H) (name : String) : Option (TreeEntry H) :=
  match t.search name with
  | .ok idx => t.entries[idx]?
  | .error _ => none

/-- Insert an entry into the tree in place, over the one of the same name. -/
def insertInPlace (entry : TreeEntry H) : EStateM CoreError (Tree H) Unit := do
  fromExcept (TreeEntry.validateName entry.name)
  let t ← getThe (Tree H)
  match t.search entry.name with
  | .ok idx => set (⟨t.entries.set idx entry⟩ : Tree H)
  | .error idx => set (⟨t.entries.insertIdx idx entry⟩ : Tree H)

end Tree

/-- Entries sorted by name are in ascending order for the search. -/
theorem ascending_of_pairwise {es : List (TreeEntry H)}
    (hs : es.Pairwise fun a b => a.name < b.name) (name : String) :
    Ascending (fun e => compare e.name name) es := by
  refine hs.imp fun {a b} hab hne => ?_
  have hle : name ≤ a.name := not_lt.mp fun hlt => hne (compare_lt_iff_lt.mpr hlt)
  exact compare_gt_iff_gt.mpr (lt_of_le_of_lt hle hab)

/-- At the place of its name an entry is put over the one that is there. -/
theorem upsertEntry_eq_set {entry : TreeEntry H} {es : List (TreeEntry H)}
    (hs : es.Pairwise fun a b => a.name < b.name) {i : Nat} (hi : i < es.length)
    (hname : es[i].name = entry.name) : upsertEntry entry es = es.set i entry := by
  induction es generalizing i with
  | nil => exact absurd hi (Nat.not_lt_zero i)
  | cons e es ih =>
    obtain ⟨he, hes⟩ := List.pairwise_cons.mp hs
    cases i with
    | zero =>
      rw [List.getElem_cons_zero] at hname
      rw [upsertEntry, if_neg (hname ▸ lt_irrefl _), if_pos hname, List.set_cons_zero]
    | succ i =>
      have hi : i < es.length := Nat.lt_of_succ_lt_succ hi
      rw [List.getElem_cons_succ] at hname
      have hlt : e.name < entry.name := hname ▸ he _ (List.getElem_mem hi)
      rw [upsertEntry, if_pos hlt, List.set_cons_succ, ih hes hi hname]

/-- Between the smaller names and the greater ones an entry is inserted. -/
theorem upsertEntry_eq_insertIdx {entry : TreeEntry H} {es : List (TreeEntry H)} {i : Nat}
    (hi : i ≤ es.length) (hbelow : ∀ j, j < i → ∀ hj : j < es.length, es[j].name < entry.name)
    (habove : ∀ j, i ≤ j → ∀ hj : j < es.length, entry.name < es[j].name) :
    upsertEntry entry es = es.insertIdx i entry := by
  induction es generalizing i with
  | nil =>
    obtain rfl : i = 0 := Nat.le_zero.mp hi
    rfl
  | cons e es ih =>
    cases i with
    | zero =>
      have hlt : entry.name < e.name := habove 0 le_rfl (Nat.succ_pos _)
      rw [upsertEntry, if_neg hlt.not_gt, if_neg hlt.ne', List.insertIdx_zero]
    | succ i =>
      have hlt : e.name < entry.name := hbelow 0 (Nat.succ_pos i) (Nat.succ_pos _)
      rw [upsertEntry, if_pos hlt, List.insertIdx_succ_cons,
        ih (Nat.le_of_succ_le_succ hi)
          (fun j hj hjl => hbelow (j + 1) (Nat.succ_lt_succ hj) (Nat.succ_lt_succ hjl))
          fun j hj hjl => habove (j + 1) (Nat.succ_le_succ hj) (Nat.succ_lt_succ hjl)]

namespace Tree

/-- **A search in a sorted tree** finds the entry of the name. -/
theorem getBySearch_eq {t : Tree H} (hs : t.Sorted) (name : String) :
    t.getBySearch name = t.get name := by
  have hspec := searchBy_spec (ascending_of_pairwise hs name)
  rw [getBySearch, search]
  cases hsearch : searchBy (fun e => compare e.name name) t.entries with
  | ok idx =>
    rw [hsearch] at hspec
    obtain ⟨hi, hcmp⟩ := hspec
    rw [compare_eq_iff_eq] at hcmp
    dsimp only
    rw [List.getElem?_eq_getElem hi]
    exact ((findEntry_eq_some hs).mpr ⟨List.getElem_mem hi, hcmp⟩).symm
  | error idx =>
    rw [hsearch] at hspec
    obtain ⟨-, hbelow, habove⟩ := hspec
    refine ((get_eq_none hs).mpr fun e he => ?_).symm
    obtain ⟨j, hj, rfl⟩ := List.getElem_of_mem he
    rcases Nat.lt_or_ge j idx with hlt | hge
    · exact (compare_lt_iff_lt.mp (hbelow j hlt hj)).ne
    · exact (compare_gt_iff_gt.mp (habove j hge hj)).ne'

/-- **An insertion in place** into a sorted tree is an insertion. When the name is refused the tree
stays as it was. -/
theorem insertInPlace_eq {t : Tree H} (hs : t.Sorted) (entry : TreeEntry H) :
    insertInPlace entry t =
      match t.insert entry with
      | .ok t' => .ok () t'
      | .error e => .error e t := by
  rw [insert]
  cases hv : TreeEntry.validateName entry.name with
  | error e =>
    rw [insertInPlace, hv]
    rfl
  | ok u =>
    have hspec := searchBy_spec (ascending_of_pairwise hs entry.name)
    have hrun : insertInPlace entry t =
        match t.search entry.name with
        | .ok idx => .ok () ⟨t.entries.set idx entry⟩
        | .error idx => .ok () ⟨t.entries.insertIdx idx entry⟩ := by
      rw [insertInPlace, hv]
      show (match t.search entry.name with
        | .ok idx => set (⟨t.entries.set idx entry⟩ : Tree H)
        | .error idx => set (⟨t.entries.insertIdx idx entry⟩ : Tree H) :
          EStateM CoreError (Tree H) Unit) t = _
      cases t.search entry.name <;> rfl
    rw [hrun, search]
    cases hsearch : searchBy (fun e => compare e.name entry.name) t.entries with
    | ok idx =>
      rw [hsearch] at hspec
      obtain ⟨hi, hcmp⟩ := hspec
      rw [compare_eq_iff_eq] at hcmp
      simp only [Except.map, upsertEntry_eq_set hs hi hcmp]
    | error idx =>
      rw [hsearch] at hspec
      obtain ⟨hi, hbelow, habove⟩ := hspec
      have hupsert : upsertEntry entry t.entries = t.entries.insertIdx idx entry :=
        upsertEntry_eq_insertIdx hi (fun j hj hjl => compare_lt_iff_lt.mp (hbelow j hj hjl))
          fun j hj hjl => compare_gt_iff_gt.mp (habove j hj hjl)
      simp only [Except.map, hupsert]

end Tree

/-! ## Trees from entries -/

/-- The first name that two neighbours share. -/
def duplicateName : List (TreeEntry H) → Option String
  | a :: b :: rest => if a.name = b.name then some a.name else duplicateName (b :: rest)
  | _ => none

/-- Check the names of entries, in order. -/
def validateNames : List (TreeEntry H) → Except CoreError Unit
  | [] => .ok ()
  | e :: es => do
    TreeEntry.validateName e.name
    validateNames es

/-- Entries in the order of their names; those of the same name keep their order. -/
def sortByName (es : List (TreeEntry H)) : List (TreeEntry H) :=
  es.mergeSort fun a b => decide (a.name ≤ b.name)

/-- The tree of entries in any order. -/
def Tree.fromEntries (es : List (TreeEntry H)) : Except CoreError (Tree H) := do
  validateNames es
  let entries := sortByName es
  match duplicateName entries with
  | some name => .error (.invalidPathComponent ("duplicate entry: " ++ name))
  | none => .ok ⟨entries⟩

theorem validateNames_eq_ok {es : List (TreeEntry H)} :
    validateNames es = .ok () ↔ ∀ e ∈ es, TreeEntry.validateName e.name = .ok () := by
  induction es with
  | nil => simp [validateNames]
  | cons e es ih =>
    rw [validateNames, List.forall_mem_cons, ← ih]
    cases TreeEntry.validateName e.name with
    | error err => simp [bind, Except.bind]
    | ok u => simp [bind, Except.bind]

theorem sortByName_perm (es : List (TreeEntry H)) : (sortByName es).Perm es :=
  List.mergeSort_perm es _

theorem sortByName_ordered (es : List (TreeEntry H)) :
    (sortByName es).Pairwise fun a b => a.name ≤ b.name := by
  have h := @List.pairwise_mergeSort _ (fun a b : TreeEntry H => decide (a.name ≤ b.name))
    (fun a b c hab hbc => by simp only [decide_eq_true_eq] at *; exact hab.trans hbc)
    (fun a b => by simpa using le_total a.name b.name) es
  exact h.imp fun hab => of_decide_eq_true hab

/-- In ordered entries no neighbours share a name exactly when the names ascend strictly. -/
theorem duplicateName_eq_none {es : List (TreeEntry H)}
    (h : es.Pairwise fun a b => a.name ≤ b.name) :
    duplicateName es = none ↔ es.Pairwise fun a b => a.name < b.name := by
  induction es with
  | nil => simp [duplicateName]
  | cons a es ih =>
    cases es with
    | nil => simp [duplicateName]
    | cons b rest =>
      obtain ⟨ha, hes⟩ := List.pairwise_cons.mp h
      have ih := ih hes
      rw [duplicateName]
      split_ifs with hab
      · refine ⟨nofun, fun hs => ?_⟩
        exact absurd hab (List.rel_of_pairwise_cons hs List.mem_cons_self).ne
      · rw [ih]
        refine ⟨fun hs => List.pairwise_cons.mpr ⟨fun c hc => ?_, hs⟩, fun hs => hs.of_cons⟩
        have hlt : a.name < b.name := lt_of_le_of_ne (ha b List.mem_cons_self) hab
        rcases List.mem_cons.mp hc with rfl | hc
        · exact hlt
        · exact hlt.trans (List.rel_of_pairwise_cons hs hc)

/-- Names that ascend strictly are those of ordered entries with different names. -/
theorem pairwise_lt_iff_nodup {es : List (TreeEntry H)}
    (h : es.Pairwise fun a b => a.name ≤ b.name) :
    (es.Pairwise fun a b => a.name < b.name) ↔ (es.map TreeEntry.name).Nodup := by
  rw [List.Nodup, List.pairwise_map]
  constructor
  · exact fun hs => hs.imp fun hlt => hlt.ne
  · exact fun hs => h.imp₂ (fun _ _ hle hne => lt_of_le_of_ne hle hne) hs

/-- **A tree is built** exactly from entries with valid names that differ; it holds them in the
order of their names. -/
theorem Tree.fromEntries_eq_ok {es : List (TreeEntry H)} {t : Tree H} :
    Tree.fromEntries es = .ok t ↔
      (∀ e ∈ es, TreeEntry.validateName e.name = .ok ()) ∧ (es.map TreeEntry.name).Nodup ∧
        t = ⟨sortByName es⟩ := by
  have hnodup : duplicateName (sortByName es) = none ↔ (es.map TreeEntry.name).Nodup := by
    rw [duplicateName_eq_none (sortByName_ordered es),
      pairwise_lt_iff_nodup (sortByName_ordered es),
      ((sortByName_perm es).map TreeEntry.name).nodup_iff]
  rw [← hnodup, ← validateNames_eq_ok, Tree.fromEntries]
  cases validateNames es with
  | error e => simp [bind, Except.bind]
  | ok u =>
    cases hdup : duplicateName (sortByName es) with
    | some name => simp [bind, Except.bind, hdup]
    | none => simp [bind, Except.bind, hdup, eq_comm]

/-- A tree that was built is sorted. -/
theorem Tree.sorted_fromEntries {es : List (TreeEntry H)} {t : Tree H}
    (h : Tree.fromEntries es = .ok t) : t.Sorted := by
  obtain ⟨-, hnodup, rfl⟩ := Tree.fromEntries_eq_ok.mp h
  rw [← ((sortByName_perm es).map TreeEntry.name).nodup_iff] at hnodup
  exact (pairwise_lt_iff_nodup (sortByName_ordered es)).mpr hnodup

end Tig
