import Mathlib.Data.Finmap
import Mathlib.Data.List.Sort
import Mathlib.Data.Prod.Lex
import Mathlib.Order.Basic

set_option relaxedAutoImplicit false
set_option autoImplicit false

/-!
# Finite maps: listing in order, optional bindings, and restriction

Operations on Mathlib's `Finmap` that a program over a directory of files needs: the keys in
ascending order (a directory listing, sorted), setting a binding that may be absent (writing or
removing a file), and the submap of the keys a predicate picks (what is left after a sweep).

## Main definitions

* `FiniteMap.sortedKeys` — the keys of a finite map in ascending order.
* `FiniteMap.sortedBindings` — the bindings in ascending order of their keys.
* `FiniteMap.set` — set or remove the binding of a key.
* `FiniteMap.restrict` — the submap at the keys that satisfy a predicate.

## Main results

* `FiniteMap.mem_sortedKeys`, `FiniteMap.lookup_set`, `FiniteMap.lookup_restrict` — what they
  return.
-/

namespace FiniteMap

variable {κ : Type} {ν : κ → Type}

/-- The elements of a multiset in ascending order, by insertion sort. -/
def sorted [LinearOrder κ] (m : Multiset κ) : List κ :=
  Quot.liftOn m (fun l => l.insertionSort (· ≤ ·)) fun l l' h =>
    List.Perm.eq_of_pairwise (fun _ _ _ _ hab hba => le_antisymm hab hba)
      (List.pairwise_insertionSort _ l)
      (List.pairwise_insertionSort _ l')
      ((List.perm_insertionSort _ l).trans (h.trans (List.perm_insertionSort _ l').symm))

theorem mem_sorted [LinearOrder κ] {m : Multiset κ} {k : κ} : k ∈ sorted m ↔ k ∈ m := by
  induction m using Quot.inductionOn with
  | _ l => exact (List.perm_insertionSort (· ≤ ·) l).mem_iff

/-- The keys of a finite map in ascending order. -/
def sortedKeys [LinearOrder κ] (m : Finmap ν) : List κ := sorted m.keys.val

@[simp] theorem mem_sortedKeys [LinearOrder κ] {m : Finmap ν} {k : κ} :
    k ∈ sortedKeys m ↔ k ∈ m := by
  simp [sortedKeys, mem_sorted, ← Finmap.mem_keys]

theorem nodup_sortedKeys [LinearOrder κ] (m : Finmap ν) : (sortedKeys m).Nodup := by
  have h := m.keys.nodup
  rw [sortedKeys]
  generalize m.keys.val = keys at h
  induction keys using Quot.inductionOn with
  | _ l => exact (List.perm_insertionSort _ l).nodup_iff.mpr h

theorem pairwise_sortedKeys [LinearOrder κ] (m : Finmap ν) :
    (sortedKeys m).Pairwise (· < ·) := by
  have hle : (sortedKeys m).Pairwise (· ≤ ·) := by
    rw [sortedKeys]
    generalize m.keys.val = keys
    induction keys using Quot.inductionOn with
    | _ l => exact List.pairwise_insertionSort _ l
  exact (hle.and (nodup_sortedKeys m)).imp fun h => lt_of_le_of_ne h.1 h.2

/-- Listing the keys in any order and sorting them gives the keys in order. -/
theorem sortedKeys_eq [LinearOrder κ] {m : Finmap ν} {l : List κ} (hl : l.Nodup)
    (h : ∀ k, k ∈ l ↔ k ∈ m) : sortedKeys m = l.insertionSort (· ≤ ·) := by
  have hkeys : m.keys.val = (l : Multiset κ) :=
    (Multiset.Nodup.ext m.keys.nodup (Multiset.coe_nodup.mpr hl)).mpr fun k => by
      rw [Multiset.mem_coe, h, ← Finmap.mem_keys]
      rfl
  rw [sortedKeys, hkeys]
  rfl

/-- A function that is defined on the common elements of two ascending lists only. -/
theorem filterMap_eq_of_pairwise [LinearOrder κ] {β : Type} {f : κ → Option β} {l l' : List κ}
    (hl : l.Pairwise (· < ·)) (hl' : l'.Pairwise (· < ·))
    (h : ∀ k, (f k).isSome = true → (k ∈ l ↔ k ∈ l')) : l.filterMap f = l'.filterMap f := by
  have hdef : ∀ l : List κ, (l.filter fun k => (f k).isSome).filterMap f = l.filterMap f := by
    intro l
    rw [List.filterMap_filter]
    refine List.filterMap_congr fun k _ => ?_
    cases f k with
    | none => rfl
    | some b => rfl
  rw [← hdef l, ← hdef l', (hl.filter _).eq_of_mem_iff (hl'.filter _) fun k => ?_]
  rw [List.mem_filter, List.mem_filter]
  exact and_congr_left fun hk => h k hk

/-- The binding of a key. -/
def binding [DecidableEq κ] {β : Type} (m : Finmap fun _ : κ => β) (k : κ) : Option (κ × β) :=
  (m.lookup k).map fun v => (k, v)

/-- The bindings of a finite map in ascending order of their keys. -/
def sortedBindings [LinearOrder κ] {β : Type} (m : Finmap fun _ : κ => β) : List (κ × β) :=
  (sortedKeys m).filterMap (binding m)

/-- Listing the bindings in any order and sorting them gives the bindings in order. -/
theorem sortedBindings_eq [LinearOrder κ] {β : Type} [LinearOrder β] {m : Finmap fun _ : κ => β}
    {l : List κ} (hl : l.Nodup) (h : ∀ k, k ∈ l ↔ k ∈ m) :
    sortedBindings m =
      (l.filterMap (binding m)).insertionSort fun a b => toLex a ≤ toLex b := by
  have hperm : (sortedKeys m).Perm l := by
    rw [sortedKeys_eq hl h]
    exact List.perm_insertionSort _ l
  -- keys are different, so values are never compared
  have hsorted : (sortedBindings m).Pairwise fun a b => toLex a ≤ toLex b := by
    refine (pairwise_sortedKeys m).filterMap _ fun k k' hk a ha b hb => ?_
    obtain ⟨v, -, rfl⟩ := Option.map_eq_some_iff.mp ha
    obtain ⟨v', -, rfl⟩ := Option.map_eq_some_iff.mp hb
    exact Prod.Lex.toLex_le_toLex.mpr (.inl hk)
  have : Std.Total fun a b : κ × β => toLex a ≤ toLex b := ⟨fun a b => le_total _ _⟩
  have : IsTrans (κ × β) fun a b => toLex a ≤ toLex b := ⟨fun _ _ _ => le_trans⟩
  exact List.Perm.eq_of_pairwise (fun a b _ _ hab hba => toLex_inj.mp (le_antisymm hab hba))
    hsorted (List.pairwise_insertionSort _ _)
    ((hperm.filterMap _).trans (List.perm_insertionSort _ _).symm)

/-- Set the binding of a key, or remove it. -/
def set [DecidableEq κ] (m : Finmap ν) (k : κ) : Option (ν k) → Finmap ν
  | some v => m.insert k v
  | none => m.erase k

@[simp] theorem lookup_set [DecidableEq κ] (m : Finmap ν) (k : κ) (v : Option (ν k)) :
    (set m k v).lookup k = v := by
  cases v <;> simp [set]

theorem lookup_set_of_ne [DecidableEq κ] (m : Finmap ν) {k k' : κ} (v : Option (ν k))
    (h : k' ≠ k) : (set m k v).lookup k' = m.lookup k' := by
  cases v with
  | none => exact Finmap.lookup_erase_ne h
  | some v => exact Finmap.lookup_insert_of_ne m h

/-- The submap at the keys that satisfy `p`. -/
def restrict [DecidableEq κ] (p : κ → Prop) [DecidablePred p] (m : Finmap ν) : Finmap ν where
  entries := m.entries.filter fun e => p e.1
  nodupKeys := by
    have h := m.nodupKeys
    rw [← Multiset.nodup_keys] at h ⊢
    exact Multiset.nodup_of_le (Multiset.map_le_map (Multiset.filter_le _ _)) h

theorem mem_entries_restrict [DecidableEq κ] {p : κ → Prop} [DecidablePred p] {m : Finmap ν}
    {e : Sigma ν} : e ∈ (restrict p m).entries ↔ e ∈ m.entries ∧ p e.1 := by
  simp [restrict]

/-- Restriction keeps the bindings of the keys it picks and drops the others. -/
@[simp] theorem lookup_restrict [DecidableEq κ] {p : κ → Prop} [DecidablePred p] (m : Finmap ν)
    (k : κ) : (restrict p m).lookup k = if p k then m.lookup k else none := by
  ext v
  rw [← Option.mem_def, Finmap.mem_lookup_iff, mem_entries_restrict, ← Finmap.mem_lookup_iff]
  by_cases h : p k <;> simp [h]

@[simp] theorem mem_restrict [DecidableEq κ] {p : κ → Prop} [DecidablePred p] {m : Finmap ν}
    {k : κ} : k ∈ restrict p m ↔ k ∈ m ∧ p k := by
  rw [← Finmap.lookup_isSome, ← Finmap.lookup_isSome, lookup_restrict]
  by_cases h : p k <;> simp [h]

end FiniteMap
