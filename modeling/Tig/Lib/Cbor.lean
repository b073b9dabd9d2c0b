import Mathlib.Algebra.Group.Int.Defs
import Mathlib.Data.List.Pairwise
import Mathlib.Data.List.Sort

set_option relaxedAutoImplicit false
set_option autoImplicit false

/-!
# CBOR values and their canonical form

The values that CBOR encodes are trees whose maps are lists of entries, in the order in which they
are written. Two values mean the same when they are equal up to the order of map entries, at any
depth: inside elements of arrays, tagged values, values of maps, and keys of maps.

The canonical form of a value sorts the entries of every map by a code of the key, innermost maps
first. With codes that differ for different keys it decides whether two values mean the same,
provided that no map has two keys that mean the same.

## Main definitions

* `Cbor.Value` — the values.
* `Cbor.Everywhere` — a property of entry lists holds of every map in a value.
* `Cbor.Reordered` — equality up to the order of map entries.
* `Cbor.canonical` — the canonical form.

## Main results

* `Cbor.ordered_canonical` — in a canonical form the entries of every map are in order.
* `Cbor.canonical_of_ordered` — a value in order is its own canonical form.
* `Cbor.canonical_eq_iff` — values without equivalent keys have the same canonical form exactly
  when they are equal up to the order of map entries.
-/

namespace Cbor

/-! ## Values -/

/-- An integer that CBOR encodes without a tag. -/
abbrev Integer := {n : Int // -2 ^ 64 ≤ n ∧ n < 2 ^ 64}

/-- A CBOR value. A floating-point number is given by its bits. -/
inductive Value where
  | integer (n : Integer)
  | bytes (content : List UInt8)
  | float (bits : UInt64)
  | text (content : String)
  | bool (b : Bool)
  | null
  | tag (number : UInt64) (inner : Value)
  | array (elems : List Value)
  | map (entries : List (Value × Value))

/-- Induction on values: the parts of an array and of a map are given by membership. -/
@[elab_as_elim, induction_eliminator]
theorem Value.induct {motive : Value → Prop}
    (integer : ∀ n, motive (.integer n)) (bytes : ∀ content, motive (.bytes content))
    (float : ∀ bits, motive (.float bits)) (text : ∀ content, motive (.text content))
    (bool : ∀ b, motive (.bool b)) (null : motive .null)
    (tag : ∀ number inner, motive inner → motive (.tag number inner))
    (array : ∀ elems, (∀ v ∈ elems, motive v) → motive (.array elems))
    (map : ∀ entries, (∀ e ∈ entries, motive e.1 ∧ motive e.2) → motive (.map entries))
    (v : Value) : motive v :=
  @Value.rec motive (fun elems => ∀ v ∈ elems, motive v)
    (fun entries => ∀ e ∈ entries, motive e.1 ∧ motive e.2) (fun e => motive e.1 ∧ motive e.2)
    integer bytes float text bool null tag array map
    nofun (fun _ _ h hs => List.forall_mem_cons.mpr ⟨h, hs⟩)
    nofun (fun _ _ h hs => List.forall_mem_cons.mpr ⟨h, hs⟩)
    (fun _ _ h h' => ⟨h, h'⟩) v

/-- `P` holds of the entries of every map that occurs in a value. -/
inductive Everywhere (P : List (Value × Value) → Prop) : Value → Prop
  | integer (n : Integer) : Everywhere P (.integer n)
  | bytes (content : List UInt8) : Everywhere P (.bytes content)
  | float (bits : UInt64) : Everywhere P (.float bits)
  | text (content : String) : Everywhere P (.text content)
  | bool (b : Bool) : Everywhere P (.bool b)
  | null : Everywhere P .null
  | tag {number : UInt64} {inner : Value} (h : Everywhere P inner) :
      Everywhere P (.tag number inner)
  | array {elems : List Value} (h : ∀ v ∈ elems, Everywhere P v) : Everywhere P (.array elems)
  | map {entries : List (Value × Value)} (h : P entries)
      (hkeys : ∀ e ∈ entries, Everywhere P e.1) (hvals : ∀ e ∈ entries, Everywhere P e.2) :
      Everywhere P (.map entries)

section Everywhere

variable {P Q : List (Value × Value) → Prop}

theorem everywhere_tag {number : UInt64} {inner : Value} :
    Everywhere P (.tag number inner) ↔ Everywhere P inner :=
  ⟨fun | .tag h => h, .tag⟩

theorem everywhere_array {elems : List Value} :
    Everywhere P (.array elems) ↔ ∀ v ∈ elems, Everywhere P v :=
  ⟨fun | .array h => h, .array⟩

theorem everywhere_map {entries : List (Value × Value)} :
    Everywhere P (.map entries) ↔
      P entries ∧ (∀ e ∈ entries, Everywhere P e.1) ∧ ∀ e ∈ entries, Everywhere P e.2 :=
  ⟨fun | .map h hkeys hvals => ⟨h, hkeys, hvals⟩, fun h => .map h.1 h.2.1 h.2.2⟩

end Everywhere

/-! ## Equality up to the order of entries -/

/-- Two values are equal up to the order of map entries: the least equivalence that lets the
entries of a map be permuted, in any part of a value. -/
inductive Reordered : Value → Value → Prop
  | refl (v : Value) : Reordered v v
  | symm {v w : Value} : Reordered v w → Reordered w v
  | trans {u v w : Value} : Reordered u v → Reordered v w → Reordered u w
  | perm {es es' : List (Value × Value)} : es.Perm es' → Reordered (.map es) (.map es')
  | tag (number : UInt64) {v w : Value} : Reordered v w → Reordered (.tag number v) (.tag number w)
  | elem (pre post : List Value) {v w : Value} :
      Reordered v w → Reordered (.array (pre ++ v :: post)) (.array (pre ++ w :: post))
  | key (pre post : List (Value × Value)) (x : Value) {k l : Value} :
      Reordered k l → Reordered (.map (pre ++ (k, x) :: post)) (.map (pre ++ (l, x) :: post))
  | value (pre post : List (Value × Value)) (k : Value) {v w : Value} :
      Reordered v w → Reordered (.map (pre ++ (k, v) :: post)) (.map (pre ++ (k, w) :: post))

namespace Reordered

/-- The elements of an array may be replaced one by one. -/
theorem array_map {f : Value → Value} {elems : List Value} (h : ∀ v ∈ elems, Reordered v (f v)) :
    Reordered (.array elems) (.array (elems.map f)) := by
  suffices ∀ pre, Reordered (.array (pre ++ elems)) (.array (pre ++ elems.map f)) from this []
  induction elems with
  | nil => exact fun pre => .refl _
  | cons v elems ih =>
    intro pre
    obtain ⟨hv, helems⟩ := List.forall_mem_cons.mp h
    have hrest := ih helems (pre ++ [f v])
    rw [List.append_assoc, List.append_assoc] at hrest
    exact (hv.elem pre elems).trans hrest

/-- The keys and values of a map may be replaced one by one. -/
theorem map_map {f : Value → Value} {entries : List (Value × Value)}
    (h : ∀ e ∈ entries, Reordered e.1 (f e.1) ∧ Reordered e.2 (f e.2)) :
    Reordered (.map entries) (.map (entries.map (Prod.map f f))) := by
  suffices ∀ pre, Reordered (.map (pre ++ entries)) (.map (pre ++ entries.map (Prod.map f f))) from
    this []
  induction entries with
  | nil => exact fun pre => .refl _
  | cons e entries ih =>
    intro pre
    obtain ⟨⟨hkey, hvalue⟩, hentries⟩ := List.forall_mem_cons.mp h
    have hrest := ih hentries (pre ++ [Prod.map f f e])
    rw [List.append_assoc, List.append_assoc] at hrest
    exact ((hkey.key pre entries e.2).trans (hvalue.value pre entries (f e.1))).trans hrest

end Reordered

/-- No two keys of a map mean the same. -/
def KeysDiffer (entries : List (Value × Value)) : Prop :=
  entries.Pairwise fun e e' => ¬ Reordered e.1 e'.1

namespace KeysDiffer

variable {es es' pre post : List (Value × Value)}

theorem perm (h : KeysDiffer es) (hperm : es.Perm es') : KeysDiffer es' :=
  List.Pairwise.perm h hperm fun hne heq => hne heq.symm

/-- A key may be replaced by one that means the same, and its value by any other. -/
theorem replace {k l x y : Value} (h : KeysDiffer (pre ++ (k, x) :: post)) (hkl : Reordered k l) :
    KeysDiffer (pre ++ (l, y) :: post) := by
  obtain ⟨hpre, hcons, hcross⟩ := List.pairwise_append.mp h
  obtain ⟨hk, hpost⟩ := List.pairwise_cons.mp hcons
  refine List.pairwise_append.mpr ⟨hpre, List.pairwise_cons.mpr ⟨?_, hpost⟩, fun a ha => ?_⟩
  · exact fun b hb hlb => hk b hb (hkl.trans hlb)
  · obtain ⟨hak, hapost⟩ := List.forall_mem_cons.mp (hcross a ha)
    exact List.forall_mem_cons.mpr ⟨fun hal => hak (hal.trans hkl.symm), hapost⟩

end KeysDiffer

/-! ## The canonical form -/

section Canonical

variable {β : Type} [Ord β] (code : Value → β)

/-- The entries of a map in the order of their keys' codes; entries of equal codes keep their
order. -/
def sortEntries (entries : List (Value × Value)) : List (Value × Value) :=
  entries.insertionSort fun a b => (compare (code a.1) (code b.1)).isLE

mutual

/-- Sort the entries of every map by the codes of the keys, from the innermost maps on. -/
def canonical : Value → Value
  | .tag number inner => .tag number (canonical inner)
  | .array elems => .array (canonicalElems elems)
  | .map entries => .map (sortEntries code (canonicalEntries entries))
  | v => v

def canonicalElems : List Value → List Value
  | [] => []
  | v :: vs => canonical v :: canonicalElems vs

def canonicalEntries : List (Value × Value) → List (Value × Value)
  | [] => []
  | (k, v) :: es => (canonical k, canonical v) :: canonicalEntries es

end

/-- The entries of a map are in the order of their keys' codes. -/
def Ordered (entries : List (Value × Value)) : Prop :=
  entries.Pairwise fun a b => (compare (code a.1) (code b.1)).isLE

theorem canonicalElems_eq_map (elems : List Value) :
    canonicalElems code elems = elems.map (canonical code) := by
  induction elems with
  | nil => rfl
  | cons v vs ih => rw [canonicalElems, ih, List.map_cons]

theorem canonicalEntries_eq_map (entries : List (Value × Value)) :
    canonicalEntries code entries = entries.map (Prod.map (canonical code) (canonical code)) := by
  induction entries with
  | nil => rfl
  | cons e es ih => rw [canonicalEntries, ih, List.map_cons, Prod.map]

@[simp] theorem canonical_tag (number : UInt64) (inner : Value) :
    canonical code (.tag number inner) = .tag number (canonical code inner) := rfl

@[simp] theorem canonical_array (elems : List Value) :
    canonical code (.array elems) = .array (elems.map (canonical code)) := by
  rw [canonical, canonicalElems_eq_map]

@[simp] theorem canonical_map (entries : List (Value × Value)) :
    canonical code (.map entries) =
      .map (sortEntries code (entries.map (Prod.map (canonical code) (canonical code)))) := by
  rw [canonical, canonicalEntries_eq_map]

theorem sortEntries_perm (entries : List (Value × Value)) :
    (sortEntries code entries).Perm entries :=
  List.perm_insertionSort _ entries

variable {code}

theorem sortEntries_of_ordered {entries : List (Value × Value)} (h : Ordered code entries) :
    sortEntries code entries = entries :=
  h.insertionSort_eq

/-- A value whose maps are in order is its own canonical form. -/
theorem canonical_of_ordered {v : Value} (h : Everywhere (Ordered code) v) :
    canonical code v = v := by
  induction v with
  | tag number inner ih => rw [canonical_tag, ih (everywhere_tag.mp h)]
  | array elems ih =>
    rw [canonical_array, List.map_congr_left fun v hv => ih v hv (everywhere_array.mp h v hv),
      List.map_id']
  | map entries ih =>
    obtain ⟨hord, hkeys, hvals⟩ := everywhere_map.mp h
    have hid : entries.map (Prod.map (canonical code) (canonical code)) = entries := by
      conv_rhs => rw [← List.map_id entries]
      refine List.map_congr_left fun e he => ?_
      exact Prod.ext ((ih e he).1 (hkeys e he)) ((ih e he).2 (hvals e he))
    rw [canonical_map, hid, sortEntries_of_ordered hord]
  | _ => rfl

/-- A value and its canonical form are equal up to the order of entries. -/
theorem reordered_canonical (v : Value) : Reordered v (canonical code v) := by
  induction v with
  | tag number inner ih => exact ih.tag number
  | array elems ih =>
    rw [canonical_array]
    exact Reordered.array_map ih
  | map entries ih =>
    rw [canonical_map]
    exact (Reordered.map_map ih).trans (.perm (sortEntries_perm code _).symm)
  | _ => exact .refl _

/-- Values with the same canonical form are equal up to the order of entries. -/
theorem reordered_of_canonical_eq {v w : Value} (h : canonical code v = canonical code w) :
    Reordered v w :=
  (reordered_canonical v).trans (h ▸ (reordered_canonical w).symm)

/-- When no two keys mean the same, entries whose canonical keys have the same code are equal. -/
theorem KeysDiffer.eq_of_code_eq (hcode : Function.Injective code) {es : List (Value × Value)}
    (h : KeysDiffer es) {a b : Value × Value} (ha : a ∈ es) (hb : b ∈ es)
    (hab : code (canonical code a.1) = code (canonical code b.1)) : a = b := by
  by_contra hne
  have : Std.Symm fun e e' : Value × Value => ¬ Reordered e.1 e'.1 :=
    ⟨fun _ _ hne heq => hne heq.symm⟩
  have hdiffer : ¬ Reordered a.1 b.1 := List.Pairwise.forall h ha hb hne
  exact hdiffer (reordered_of_canonical_eq (hcode hab))

variable [Std.TransOrd β]

theorem ordered_sortEntries (entries : List (Value × Value)) :
    Ordered code (sortEntries code entries) :=
  have : Std.Total fun a b : Value × Value => (compare (code a.1) (code b.1)).isLE := ⟨fun a b => by
    rw [← Std.OrientedCmp.isGE_eq_isLE (a := code a.1)]
    cases compare (code a.1) (code b.1) <;> decide⟩
  have : IsTrans (Value × Value) fun a b => (compare (code a.1) (code b.1)).isLE :=
    ⟨fun _ _ _ => Std.TransOrd.isLE_trans⟩
  List.pairwise_insertionSort _ entries

/-- **Order.** In a canonical form the entries of every map are in the order of their codes. -/
theorem ordered_canonical (v : Value) : Everywhere (Ordered code) (canonical code v) := by
  induction v with
  | tag number inner ih => exact .tag ih
  | array elems ih =>
    rw [canonical_array, everywhere_array]
    exact List.forall_mem_map.mpr ih
  | map entries ih =>
    rw [canonical_map, everywhere_map]
    have hmem : ∀ e ∈ sortEntries code (entries.map (Prod.map (canonical code) (canonical code))),
        Everywhere (Ordered code) e.1 ∧ Everywhere (Ordered code) e.2 := by
      intro e he
      obtain ⟨e, hmem, rfl⟩ := List.mem_map.mp ((sortEntries_perm code _).mem_iff.mp he)
      exact ih e hmem
    exact ⟨ordered_sortEntries _, fun e he => (hmem e he).1, fun e he => (hmem e he).2⟩
  | integer n => exact .integer n
  | bytes content => exact .bytes content
  | float bits => exact .float bits
  | text content => exact .text content
  | bool b => exact .bool b
  | null => exact .null

/-- A canonical form is its own canonical form. -/
theorem canonical_canonical (v : Value) :
    canonical code (canonical code v) = canonical code v :=
  canonical_of_ordered (ordered_canonical v)

variable [Std.LawfulEqOrd β]

/-- Entries with different codes of their keys have one order. -/
theorem sortEntries_eq_of_perm {es es' : List (Value × Value)} (hperm : es.Perm es')
    (hcodes : ∀ a ∈ es, ∀ b ∈ es, code a.1 = code b.1 → a = b) :
    sortEntries code es = sortEntries code es' := by
  have hsort := (sortEntries_perm code es).trans (hperm.trans (sortEntries_perm code es').symm)
  refine hsort.eq_of_pairwise (fun a b ha hb hab hba => ?_) (ordered_sortEntries es)
    (ordered_sortEntries es')
  rw [(sortEntries_perm code es).mem_iff] at ha
  rw [(sortEntries_perm code es').mem_iff, ← hperm.mem_iff] at hb
  exact hcodes a ha b hb (Std.LawfulEqOrd.eq_of_compare (Std.OrientedCmp.isLE_antisymm hab hba))

/-- A permuted map has the same canonical form when its keys differ. -/
theorem canonical_map_eq_of_perm (hcode : Function.Injective code) {es es' : List (Value × Value)}
    (h : KeysDiffer es) (hperm : es.Perm es') :
    canonical code (.map es) = canonical code (.map es') := by
  rw [canonical_map, canonical_map, sortEntries_eq_of_perm (hperm.map _)]
  intro _ hmem _ hmem' hab
  obtain ⟨a, ha, rfl⟩ := List.mem_map.mp hmem
  obtain ⟨b, hb, rfl⟩ := List.mem_map.mp hmem'
  rw [h.eq_of_code_eq hcode ha hb hab]

/-- Equality up to the order of entries keeps it that no map has equivalent keys, and such values
have one canonical form. The two go together because a permuted map has one order only when the
canonical forms of its keys differ. -/
theorem Reordered.canonical_eq (hcode : Function.Injective code) {v w : Value}
    (h : Reordered v w) :
    (Everywhere KeysDiffer v ↔ Everywhere KeysDiffer w) ∧
      (Everywhere KeysDiffer v → canonical code v = canonical code w) := by
  induction h with
  | refl v => exact ⟨Iff.rfl, fun _ => rfl⟩
  | symm _ ih => exact ⟨ih.1.symm, fun hw => (ih.2 (ih.1.mpr hw)).symm⟩
  | trans _ _ ih ih' =>
    exact ⟨ih.1.trans ih'.1, fun hu => (ih.2 hu).trans (ih'.2 (ih.1.mp hu))⟩
  | perm hperm =>
    have hkeys := fun P : Value × Value → Prop => forall_congr' fun e : Value × Value =>
      imp_congr_left (a := e ∈ _) (c := P e) hperm.mem_iff
    rw [everywhere_map, everywhere_map, hkeys, hkeys]
    refine ⟨and_congr_left' ⟨fun h => h.perm hperm, fun h => h.perm hperm.symm⟩, fun h => ?_⟩
    exact canonical_map_eq_of_perm hcode h.1 hperm
  | tag number _ ih =>
    rw [everywhere_tag, everywhere_tag]
    exact ⟨ih.1, fun hv => congrArg (Value.tag number) (ih.2 hv)⟩
  | elem pre post _ ih =>
    simp only [everywhere_array, List.forall_mem_append, List.forall_mem_cons, ih.1, true_and]
    intro h
    rw [canonical_array, canonical_array, List.map_append, List.map_append, List.map_cons,
      List.map_cons, ih.2 (ih.1.mpr h.2.1)]
  | key pre post x hkl ih =>
    simp only [everywhere_map, List.forall_mem_append, List.forall_mem_cons, ih.1]
    refine ⟨and_congr_left' ⟨fun h => h.replace hkl, fun h => h.replace hkl.symm⟩, fun h => ?_⟩
    rw [canonical_map, canonical_map, List.map_append, List.map_append, List.map_cons,
      List.map_cons, Prod.map, Prod.map, ih.2 (ih.1.mpr h.2.1.2.1)]
  | value pre post k _ ih =>
    simp only [everywhere_map, List.forall_mem_append, List.forall_mem_cons, ih.1]
    refine ⟨and_congr_left' ⟨fun h => h.replace (.refl k), fun h => h.replace (.refl k)⟩,
      fun h => ?_⟩
    rw [canonical_map, canonical_map, List.map_append, List.map_append, List.map_cons,
      List.map_cons, Prod.map, Prod.map, ih.2 (ih.1.mpr h.2.2.2.1)]

/-- **The canonical form decides equality up to the order of entries**, of values in which no map
has two keys that mean the same. -/
theorem canonical_eq_iff (hcode : Function.Injective code) {v w : Value}
    (h : Everywhere KeysDiffer v) : canonical code v = canonical code w ↔ Reordered v w :=
  ⟨reordered_of_canonical_eq, fun hvw => (hvw.canonical_eq hcode).2 h⟩

end Canonical

end Cbor
