import Mathlib.Data.List.Infix
import Mathlib.Tactic.Common

set_option relaxedAutoImplicit false
set_option autoImplicit false

/-!
# Trees as maps from paths

A tree of directories with leaves, seen as what lies at each path. A leaf is put at a path together
with the directories above it, and what is at a path is erased together with the directories above
it that this empties.

## Main definitions

* `PathTree.Table` — what lies at each path.
* `PathTree.put`, `PathTree.erase` — the two edits.
* `PathTree.Passable` — nothing but directories is on the way to a path.

## Main results

* `PathTree.put_comm`, `PathTree.put_put` — edits at different paths commute, and the last edit at a
  path counts.
* `PathTree.erase_put` — erasing what was put gives back the tree.
-/

namespace PathTree

variable {K L : Type}

/-- What lies at a path. -/
inductive Slot (L : Type) where
  | dir
  | leaf (l : L)

/-- A tree: what lies at each path below its root. -/
abbrev Table (K L : Type) := List K → Option (Slot L)

open Classical in
/-- Put a leaf at a path, and directories above it. -/
noncomputable def put (m : Table K L) (p : List K) (l : L) : Table K L := fun path =>
  if path = p then some (.leaf l)
  else if p <+: path then none
  else if path <+: p ∧ path ≠ [] then some .dir
  else m path

/-- Nothing but directories is on the way to the path. -/
def Passable (m : Table K L) (p : List K) : Prop :=
  ∀ path l, path <+: p → path ≠ p → m path ≠ some (.leaf l)

/-- All that is below `path` is on the way to `p`, or below it. -/
def LeftEmpty (m : Table K L) (p path : List K) : Prop :=
  ∀ below, path <+: below → below ≠ path → m below ≠ none → below <+: p ∨ p <+: below

open Classical in
/-- Erase what is at a path, and the directories above it that this empties. -/
noncomputable def erase (m : Table K L) (p : List K) : Table K L := fun path =>
  if p <+: path then none
  else if path <+: p ∧ path ≠ [] then if LeftEmpty m p path then none else some .dir
  else m path

/-- Above everything there are directories. -/
def Closed (m : Table K L) : Prop :=
  ∀ path below, path ≠ [] → path <+: below → below ≠ path → m below ≠ none → m path = some .dir

variable {m : Table K L} {p q : List K} {a b : L}

theorem put_same (m : Table K L) (p : List K) (l : L) : put m p l p = some (.leaf l) := if_pos rfl

theorem put_above {path : List K} (hne : path ≠ []) (hpre : path <+: p) (hp : path ≠ p) :
    put m p a path = some .dir := by
  have hnot : ¬ p <+: path := fun h => hp (hpre.eq_of_length (le_antisymm hpre.length_le h.length_le))
  rw [put, if_neg hp, if_neg hnot, if_pos ⟨hpre, hne⟩]

theorem put_below {path : List K} (hpre : p <+: path) (hp : path ≠ p) : put m p a path = none := by
  rw [put, if_neg hp, if_pos hpre]

theorem put_apart {path : List K} (hab : ¬ path <+: p) (hbe : ¬ p <+: path) :
    put m p a path = m path := by
  have hp : path ≠ p := fun h => hab (h ▸ List.prefix_refl _)
  rw [put, if_neg hp, if_neg hbe, if_neg fun h => hab h.1]

/-- Two paths that one path lies behind are on one line. -/
theorem prefix_total {path : List K} (hp : p <+: path) (hq : q <+: path) : p <+: q ∨ q <+: p :=
  List.prefix_or_prefix_of_prefix hp hq

/-- A table that has what `put` has at, above, below and apart from the path is the one that `put`
makes. -/
theorem eq_put {m' : Table K L} (hnil : m [] = none) (hnil' : m' [] = none)
    (hput : m' p = some (.leaf a))
    (habove : ∀ path, path ≠ [] → path <+: p → path ≠ p → m' path = some .dir)
    (hbelow : ∀ path, p <+: path → path ≠ p → m' path = none)
    (hothers : ∀ path, ¬ path <+: p → ¬ p <+: path → m' path = m path) : m' = put m p a := by
  funext path
  by_cases hsame : path = p
  · rw [hsame, hput, put_same]
  · by_cases hbe : p <+: path
    · rw [hbelow path hbe hsame, put_below hbe hsame]
    · by_cases hab : path <+: p
      · by_cases hne : path = []
        · subst hne
          rw [hnil', put, if_neg hsame, if_neg hbe, if_neg fun h => h.2 rfl, hnil]
        · rw [habove path hne hab hsame, put_above hne hab hsame]
      · rw [hothers path hab hbe, put_apart hab hbe]

/-! ## Two edits -/

/-- **Edits at paths apart commute.** -/
theorem put_comm (hpq : ¬ p <+: q) (hqp : ¬ q <+: p) :
    put (put m p a) q b = put (put m q b) p a := by
  have hne : p ≠ q := fun h => hpq (h ▸ List.prefix_refl _)
  funext path
  by_cases hp : path = p
  · rw [hp, put_same, put_apart hpq hqp, put_same]
  · by_cases hq : path = q
    · rw [hq, put_same, put_apart hqp hpq, put_same]
    · by_cases hbp : p <+: path
      · -- below `p` nothing is on the way to `q`
        have hqpath : ¬ q <+: path := fun h => (prefix_total hbp h).elim hpq hqp
        have hpathq : ¬ path <+: q := fun h => hpq (hbp.trans h)
        rw [put_apart hpathq hqpath, put_below hbp hp, put_below hbp hp]
      · by_cases hbq : q <+: path
        · have hpathp : ¬ path <+: p := fun h => hqp (hbq.trans h)
          rw [put_below hbq hq, put_apart hpathp hbp, put_below hbq hq]
        · by_cases hnil : path = []
          · subst hnil
            simp [put, hp, hq, hbp, hbq]
          · by_cases hap : path <+: p
            · by_cases haq : path <+: q
              · rw [put_above hnil haq hq, put_above hnil hap hp]
              · rw [put_apart haq hbq, put_above hnil hap hp, put_above hnil hap hp]
            · by_cases haq : path <+: q
              · rw [put_above hnil haq hq, put_apart hap hbp, put_above hnil haq hq]
              · rw [put_apart haq hbq, put_apart hap hbp, put_apart hap hbp, put_apart haq hbq]

/-- **The last edit at a path counts.** -/
theorem put_put : put (put m p a) p b = put m p b := by
  funext path
  unfold put
  split_ifs <;> rfl

/-- What is put at a path apart is not in the way. -/
theorem passable_put_iff (hp : Passable m p) (hpq : ¬ p <+: q) :
    Passable (put m p a) q ↔ Passable m q := by
  refine forall₂_congr fun path l => imp_congr_right fun hpre => imp_congr_right fun hne => ?_
  have hnot : path ≠ p := fun h => hpq (h ▸ hpre)
  have hbelow : ¬ p <+: path := fun h => hpq (h.trans hpre)
  by_cases hab : path <+: p
  · by_cases hnil : path = []
    · subst hnil
      simp [put, hnot, hbelow]
    · rw [put_above hnil hab hnot]
      exact iff_of_true nofun (hp path l hab hnot)
  · rw [put_apart hab hbelow]

/-- What was put at a path can be put over. -/
theorem passable_put_same (hp : Passable m p) : Passable (put m p a) p := by
  intro path l hpre hne
  by_cases hnil : path = []
  · subst hnil
    have hbelow : ¬ p <+: [] := fun h => hne (List.prefix_nil.mp h).symm
    simpa [put, hne, hbelow] using hp [] l hpre hne
  · rw [put_above hnil hpre hne]
    nofun

/-! ## Erasing what was put -/

/-- Where a directory on the way to an absent path holds something, there is something in it that is
neither on the way nor below. -/
theorem exists_apart (hclosed : Closed m) (hp : m p = none)
    (hfull : ∀ path, path ≠ [] → path <+: p → path ≠ p → m path ≠ none →
      ∃ below, path <+: below ∧ below ≠ path ∧ m below ≠ none) :
    ∀ (n : Nat) (path : List K), p.length - path.length = n → path ≠ [] → path <+: p → path ≠ p →
      m path ≠ none → ∃ below, path <+: below ∧ below ≠ path ∧ m below ≠ none ∧
        ¬ below <+: p ∧ ¬ p <+: below := by
  intro n
  induction n using Nat.strongRecOn with
  | ind n ih =>
    rintro path rfl hne hpre hpath hsome
    obtain ⟨below, hbelow, hstrict, hb⟩ := hfull path hne hpre hpath hsome
    have hbne : below ≠ [] := by
      rintro rfl
      exact hne (List.prefix_nil.mp hbelow)
    have hpb : ¬ p <+: below := fun h => by
      by_cases heq : below = p
      · exact hb (heq ▸ hp)
      · have hpne : p ≠ [] := by
          rintro rfl
          exact hne (List.prefix_nil.mp hpre)
        rw [hclosed p below hpne h heq hb] at hp
        cases hp
    by_cases hbp : below <+: p
    · -- the directory below is on the way as well, and nearer to the path
      have hne' : below ≠ p := fun h => hpb (h ▸ List.prefix_refl _)
      have hlen : path.length < below.length := by
        refine lt_of_le_of_ne hbelow.length_le fun h => hstrict ?_
        exact (hbelow.eq_of_length h).symm
      have hle := hbp.length_le
      obtain ⟨deep, hdeep, -, hd, hnp, hpn⟩ := ih _ (by omega) below rfl hbne hbp hne' hb
      refine ⟨deep, hbelow.trans hdeep, ?_, hd, hnp, hpn⟩
      rintro rfl
      have := hdeep.length_le
      omega
    · exact ⟨below, hbelow, hstrict, hb, hbp, hpb⟩

/-- **Erasing what was put** at an absent path gives back the tree, if the directories on the way
that were there before hold something. -/
theorem erase_put (hclosed : Closed m) (hpass : Passable m p) (hnil : p ≠ []) (hp : m p = none)
    (hfull : ∀ path, path ≠ [] → path <+: p → path ≠ p → m path ≠ none →
      ∃ below, path <+: below ∧ below ≠ path ∧ m below ≠ none) :
    erase (put m p a) p = m := by
  funext path
  by_cases hbe : p <+: path
  · rw [erase, if_pos hbe]
    by_contra hne
    by_cases heq : path = p
    · exact hne (heq ▸ hp.symm)
    · rw [hclosed p path hnil hbe heq (Ne.symm hne)] at hp
      cases hp
  · by_cases hab : path <+: p ∧ path ≠ []
    · have hpath : path ≠ p := fun h => hbe (h ▸ List.prefix_refl _)
      rw [erase, if_neg hbe, if_pos hab]
      cases hm : m path with
      | none =>
        refine if_pos fun below hbelow hstrict hsome => ?_
        by_contra hno
        rw [not_or] at hno
        rw [put_apart hno.1 hno.2] at hsome
        rw [hclosed path below hab.2 hbelow hstrict hsome] at hm
        cases hm
      | some slot =>
        cases slot with
        | leaf l => exact absurd hm (hpass path l hab.1 hpath)
        | dir =>
          refine if_neg fun hempty => ?_
          obtain ⟨below, hbelow, hstrict, hb, hnp, hpn⟩ :=
            exists_apart hclosed hp hfull _ path rfl hab.2 hab.1 hpath (by rw [hm]; nofun)
          have hput : put m p a below ≠ none := by rwa [put_apart hnp hpn]
          exact (hempty below hbelow hstrict hput).elim hnp hpn
    · rw [erase, if_neg hbe, if_neg hab]
      by_cases hpre : path <+: p
      · obtain rfl : path = [] := not_not.mp fun h => hab ⟨hpre, h⟩
        have hpath : [] ≠ p := Ne.symm hnil
        rw [put, if_neg hpath, if_neg hbe, if_neg hab]
      · exact put_apart hpre hbe

end PathTree
