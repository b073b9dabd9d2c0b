import Mathlib.Data.List.Basic
import Mathlib.Order.Basic

set_option relaxedAutoImplicit false
set_option autoImplicit false

/-!
# Binary search

Search in a list by a comparison that says on which side of an element the thing searched for is.
In an ascending list the search finds the element, or the only place where it can be inserted.

## Main definitions

* `BinarySearch.searchBy` — the search: the index found, or where to insert.
* `BinarySearch.Ascending` — first the elements before the thing searched for, then it, then the
  elements behind.

## Main results

* `BinarySearch.searchBy_spec` — what the search returns.
-/

namespace BinarySearch

variable {α : Type} (cmp : α → Ordering)

/-- Halve the `size` elements from `base` on until one is left. -/
def narrow (l : List α) (base size : Nat) : Nat :=
  if _hsize : 1 < size then
    let half := size / 2
    let mid := base + half
    if (l[mid]?.map cmp).getD .gt = .gt then narrow l base (size - half)
    else narrow l mid (size - half)
  else base
termination_by size

/-- Search by a comparison of the elements with what is searched for: where it is, or, as an
error, where it could be inserted. -/
def searchBy (l : List α) : Except Nat Nat :=
  if l.length = 0 then .error 0
  else
    let base := narrow cmp l 0 l.length
    match (l[base]?.map cmp).getD .gt with
    | .eq => .ok base
    | .lt => .error (base + 1)
    | .gt => .error base

/-- The elements that compare as less, then at most one that is equal, then greater ones. -/
def Ascending (l : List α) : Prop := l.Pairwise fun a b => cmp a ≠ .lt → cmp b = .gt

variable {cmp} {l : List α}

/-- Behind an element that is not less all are greater. -/
theorem Ascending.gt_of_lt (h : Ascending cmp l) {i j : Nat} (hij : i < j) (hi : i < l.length)
    (hj : j < l.length) (hne : cmp l[i] ≠ .lt) : cmp l[j] = .gt :=
  List.pairwise_iff_getElem.mp h i j hi hj hij hne

/-- What is known of the range during the search: behind it everything is greater, and its first
element is not, unless it is the list's first. -/
structure Range (cmp : α → Ordering) (l : List α) (base size : Nat) : Prop where
  nonempty : 0 < size
  inside : base + size ≤ l.length
  first : 0 < base → ∀ h : base < l.length, cmp l[base] ≠ .gt
  behind : ∀ j, base + size ≤ j → ∀ h : j < l.length, cmp l[j] = .gt

/-- **The search narrows the range** to one element. -/
theorem Range.narrow (h : Ascending cmp l) {base size : Nat} (hr : Range cmp l base size) :
    Range cmp l (BinarySearch.narrow cmp l base size) 1 := by
  induction size using Nat.strongRecOn generalizing base with
  | ind size ih =>
    rw [BinarySearch.narrow]
    have hpos := hr.nonempty
    have hin := hr.inside
    dsimp only
    split_ifs with hsize hmid
    · have hlt : base + size / 2 < l.length := by omega
      rw [List.getElem?_eq_getElem hlt] at hmid
      refine ih (size - size / 2) (by omega) ⟨by omega, by omega, hr.first, fun j hj hjl => ?_⟩
      rcases Nat.eq_or_lt_of_le (show base + size / 2 ≤ j by omega) with rfl | hgt
      · simpa using hmid
      · refine h.gt_of_lt hgt hlt hjl fun hless => ?_
        simp [hless] at hmid
    · have hlt : base + size / 2 < l.length := by omega
      rw [List.getElem?_eq_getElem hlt] at hmid
      exact ih (size - size / 2) (by omega) ⟨by omega, by omega, fun _ _ => by simpa using hmid,
        fun j hj hjl => hr.behind j (by omega) hjl⟩
    · obtain rfl : size = 1 := by omega
      exact hr

/-- **A search in an ascending list** finds an equal element; or it finds the place behind all that
are less and before all that are greater. -/
theorem searchBy_spec (h : Ascending cmp l) :
    match searchBy cmp l with
    | .ok i => ∃ hi : i < l.length, cmp l[i] = .eq
    | .error i => i ≤ l.length ∧ (∀ j, j < i → ∀ hj : j < l.length, cmp l[j] = .lt) ∧
        ∀ j, i ≤ j → ∀ hj : j < l.length, cmp l[j] = .gt := by
  rw [searchBy]
  split_ifs with hempty
  · exact ⟨Nat.zero_le _, fun j hj => absurd hj (Nat.not_lt_zero j), fun j _ hj => by omega⟩
  · have hr : Range cmp l (narrow cmp l 0 l.length) 1 :=
      Range.narrow h ⟨Nat.pos_of_ne_zero hempty, by omega,
        fun h0 => absurd h0 (Nat.lt_irrefl 0), fun j hj hjl => by omega⟩
    dsimp only
    generalize narrow cmp l 0 l.length = base at hr
    have hin := hr.inside
    have hlt : base < l.length := by omega
    rw [List.getElem?_eq_getElem hlt, Option.map_some, Option.getD_some]
    cases hcmp : cmp l[base] with
    | eq => exact ⟨hlt, hcmp⟩
    | lt =>
      refine ⟨by omega, fun j hj hjl => ?_, fun j hj hjl => hr.behind j hj hjl⟩
      rcases Nat.eq_or_lt_of_le (Nat.lt_succ_iff.mp hj) with rfl | hjb
      · exact hcmp
      · by_contra hne
        have := h.gt_of_lt hjb hjl hlt hne
        rw [hcmp] at this
        cases this
    | gt =>
      -- only the first element of the list can be greater here
      have hbase : base = 0 := by
        by_contra hne
        exact hr.first (Nat.pos_of_ne_zero hne) hlt hcmp
      subst hbase
      refine ⟨Nat.zero_le _, fun j hj => absurd hj (Nat.not_lt_zero j), fun j _ hjl => ?_⟩
      rcases Nat.eq_zero_or_pos j with rfl | hj
      · exact hcmp
      · exact h.gt_of_lt hj hlt hjl (by rw [hcmp]; decide)

end BinarySearch
