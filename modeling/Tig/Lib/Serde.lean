import Mathlib.Algebra.Group.Nat.Defs
import Tig.Lib.Cbor
import Tig.Lib.Utf8

set_option relaxedAutoImplicit false
set_option autoImplicit false

/-!
# Types as CBOR values

How the values of a type become CBOR values and come back: strings, bytes, numbers, sequences,
enumerations without payloads, and records, which are maps from field names. An optional field can
be left out; a field that is not known is skipped, one that stands twice is refused.

Between writing and reading, the maps in a value may have been brought in another order: a shape
reads its values back from their canonical form.

## Main definitions

* `Serde.Shape` — a type as CBOR values.
* `Serde.string`, `Serde.bytes`, `Serde.uint`, `Serde.seq`, `Serde.unitEnum` — the shapes without
  fields.
* `Serde.record`, `Serde.fieldsOf` — the value of a record, and its fields read back.

## Main results

* `Serde.fieldsOf_record` — each field of a record is read back under its name.
-/

namespace Serde

open Cbor (Value canonical)

/-- A type as CBOR values. A value that `Fits` is read back from its canonical form, whatever code
sorts the maps. -/
structure Shape (α : Type) where
  serialize : α → Value
  deserialize : Value → Except String α
  Fits : α → Prop
  lossless : ∀ {β : Type} [Ord β] (code : Value → β) (a : α), Fits a →
    deserialize (canonical code (serialize a)) = .ok a

variable {α γ : Type}

/-! ## Shapes without fields -/

/-- A string. -/
def string : Shape String where
  serialize s := .text s
  deserialize
    | .text s => .ok s
    | _ => .error "invalid type, expected a string"
  Fits _ := True
  lossless _ _ _ := rfl

/-- A byte string. -/
def bytes : Shape (List UInt8) where
  serialize bs := .bytes bs
  deserialize
    | .bytes bs => .ok bs
    | _ => .error "invalid type, expected byte array"
  Fits _ := True
  lossless _ _ _ := rfl

/-- A natural number below `bound`, in a type of that many values. -/
def uint (bound : Nat) (hbound : bound ≤ 2 ^ 64) : Shape Nat where
  serialize n := if h : n < bound then .integer ⟨n, by omega⟩ else .null
  deserialize
    | .integer n =>
      if 0 ≤ n.1 ∧ n.1 < bound then .ok n.1.toNat
      else .error ("integer out of range for " ++ toString bound ++ " values")
    | _ => .error "invalid type, expected an integer"
  Fits n := n < bound
  lossless _ n h := by
    simp only [dif_pos h]
    exact if_pos (by simpa using h)

/-- A type with one field, which stands for it. -/
def Shape.newtype (s : Shape α) (unwrap : γ → α) (wrap : α → Except String γ)
    (h : ∀ c, wrap (unwrap c) = .ok c) : Shape γ where
  serialize c := s.serialize (unwrap c)
  deserialize v := s.deserialize v >>= wrap
  Fits c := s.Fits (unwrap c)
  lossless code c hfits := by
    rw [s.lossless code _ hfits]
    exact h c

/-- A list, element by element. -/
def mapExcept {β : Type} (f : Value → Except String β) : List Value → Except String (List β)
  | [] => .ok []
  | v :: vs => do
    let b ← f v
    let bs ← mapExcept f vs
    .ok (b :: bs)

/-- A sequence. -/
def seq (s : Shape α) : Shape (List α) where
  serialize as := .array (as.map s.serialize)
  deserialize
    | .array vs => mapExcept s.deserialize vs
    | _ => .error "invalid type, expected a sequence"
  Fits as := ∀ a ∈ as, s.Fits a
  lossless code as hfits := by
    rw [Cbor.canonical_array]
    induction as with
    | nil => rfl
    | cons a as ih =>
      obtain ⟨ha, has⟩ := List.forall_mem_cons.mp hfits
      have ih := ih has
      simp only [List.map_cons, mapExcept, s.lossless code a ha] at ih ⊢
      rw [ih]
      rfl

/-- An enumeration of variants without payloads, by the names of the variants. -/
def unitEnum (name : α → String) (variant : String → Option α) (h : ∀ a, variant (name a) = some a) :
    Shape α where
  serialize a := .text (name a)
  deserialize
    | .text s =>
      match variant s with
      | some a => .ok a
      | none => .error ("unknown variant " ++ s)
    | _ => .error "invalid type, expected a variant"
  Fits _ := True
  lossless _ a _ := by
    simp only [canonical, h]

/-! ## Records -/

/-- The map of a record's fields. -/
def record (fields : List (String × Value)) : Value :=
  .map (fields.map fun f => (.text f.1, f.2))

/-- A field that is always written. -/
def Shape.field (s : Shape α) (name : String) (a : α) : List (String × Value) :=
  [(name, s.serialize a)]

/-- A field that is left out when there is nothing in it. -/
def Shape.optional (s : Shape α) (name : String) : Option α → List (String × Value)
  | none => []
  | some a => [(name, s.serialize a)]

/-- The name that a key stands for. -/
def identifier : Value → Except String String
  | .text s => .ok s
  | .bytes bs => .ok ((Utf8.decode bs).getD "")
  | _ => .error "invalid type, expected str or bytes"

/-- The entries that are fields under one of the names, each name at most once; others are
skipped. -/
def collect (names : List String) : List (Value × Value) → Except String (List (String × Value))
  | [] => .ok []
  | (k, v) :: entries => do
    let name ← identifier k
    let fields ← collect names entries
    if name ∈ names then
      if name ∈ fields.map Prod.fst then .error ("duplicate field " ++ name)
      else .ok ((name, v) :: fields)
    else .ok fields

/-- The fields of a record. -/
def fieldsOf (names : List String) : Value → Except String (List (String × Value))
  | .map entries => collect names entries
  | _ => .error "invalid type, expected a map"

/-- A field that must be there. -/
def Shape.required (s : Shape α) (fields : List (String × Value)) (name : String) : Except String α :=
  match fields.lookup name with
  | none => .error ("missing field " ++ name)
  | some v => s.deserialize v

/-- A field that may be missing, or null. -/
def Shape.default (s : Shape α) (fields : List (String × Value)) (name : String) :
    Except String (Option α) :=
  match fields.lookup name with
  | none => .ok none
  | some .null => .ok none
  | some v => (s.deserialize v).map some

theorem collect_record {names : List String} {fields : List (String × Value)}
    (hnodup : (fields.map Prod.fst).Nodup) (hnames : ∀ f ∈ fields, f.1 ∈ names) :
    collect names (fields.map fun f => (.text f.1, f.2)) = .ok fields := by
  induction fields with
  | nil => rfl
  | cons f fields ih =>
    obtain ⟨hf, hfields⟩ := List.forall_mem_cons.mp hnames
    obtain ⟨hnew, hnodup⟩ := List.nodup_cons.mp hnodup
    rw [List.map_cons, collect, ih hnodup hfields]
    simp only [identifier, bind, Except.bind, if_pos hf, if_neg hnew]

/-- With different names, a field is found exactly when it is there. -/
theorem lookup_eq_some_iff_mem {fields : List (String × Value)}
    (hnodup : (fields.map Prod.fst).Nodup) {name : String} {v : Value} :
    fields.lookup name = some v ↔ (name, v) ∈ fields := by
  induction fields with
  | nil => simp
  | cons f fields ih =>
    obtain ⟨n, w⟩ := f
    obtain ⟨hnew, hrest⟩ := List.nodup_cons.mp hnodup
    rw [List.lookup_cons, List.mem_cons, Prod.mk.injEq, ← ih hrest]
    by_cases hn : name = n
    · subst hn
      have hnone : fields.lookup name ≠ some v := fun h =>
        hnew (List.mem_map.mpr ⟨_, (ih hrest).mp h, rfl⟩)
      simp [hnone, eq_comm]
    · rw [beq_false_of_ne hn]
      simp [hn]

/-- What is under a name does not depend on the order of the fields. -/
theorem lookup_eq_of_perm {fields fields' : List (String × Value)} (hperm : fields.Perm fields')
    (hnodup : (fields.map Prod.fst).Nodup) (name : String) :
    fields.lookup name = fields'.lookup name := by
  ext v
  rw [lookup_eq_some_iff_mem hnodup, lookup_eq_some_iff_mem ((hperm.map _).nodup_iff.mp hnodup),
    hperm.mem_iff]

theorem lookup_map (f : Value → Value) (fields : List (String × Value)) (name : String) :
    (fields.map fun e => (e.1, f e.2)).lookup name = (fields.lookup name).map f := by
  induction fields with
  | nil => rfl
  | cons e fields ih =>
    rw [List.map_cons, List.lookup_cons, List.lookup_cons, ih]
    cases name == e.1 <;> rfl

/-- **Each field of a record is read back under its name**, in the canonical form of the record. -/
theorem fieldsOf_record {β : Type} [Ord β] (code : Value → β) {names : List String}
    {fields : List (String × Value)} (hnodup : (fields.map Prod.fst).Nodup)
    (hnames : ∀ f ∈ fields, f.1 ∈ names) :
    ∃ read, fieldsOf names (canonical code (record fields)) = .ok read ∧
      ∀ name, read.lookup name = (fields.lookup name).map (canonical code) := by
  let entry : String × Value → Value × Value := fun f => (.text f.1, f.2)
  let inner := fields.map fun f => (f.1, canonical code f.2)
  let sorted := inner.insertionSort fun a b =>
    (compare (code (.text a.1)) (code (.text b.1))).isLE
  have hperm : sorted.Perm inner := List.perm_insertionSort _ inner
  have hinner : inner.map Prod.fst = fields.map Prod.fst := by
    simp [inner, Function.comp_def]
  have hsorted : (sorted.map Prod.fst).Nodup := by
    rwa [(hperm.map _).nodup_iff, hinner]
  have hcanonical : canonical code (record fields) = .map (sorted.map entry) := by
    have hmap : (fields.map entry).map (Prod.map (canonical code) (canonical code)) =
        inner.map entry := by
      simp only [inner, List.map_map]
      rfl
    have hsort := List.map_insertionSort
      (fun a b : String × Value => (compare (code (.text a.1)) (code (.text b.1))).isLE)
      (fun a b : Value × Value => (compare (code a.1) (code b.1)).isLE) entry inner
      fun _ _ _ _ => Iff.rfl
    rw [record, Cbor.canonical_map, hmap, Cbor.sortEntries, hsort]
  refine ⟨sorted, ?_, fun name => ?_⟩
  · rw [hcanonical, fieldsOf]
    refine collect_record hsorted fun f hf => ?_
    obtain ⟨g, hg, rfl⟩ := List.mem_map.mp (hperm.mem_iff.mp hf)
    exact hnames g hg
  · rw [lookup_eq_of_perm hperm hsorted, lookup_map]

/-- A field that was written is read back. -/
theorem Shape.required_eq {β : Type} [Ord β] {code : Value → β} (s : Shape α)
    {written read : List (String × Value)} {name : String} {a : α}
    (hread : ∀ name, read.lookup name = (written.lookup name).map (canonical code))
    (hwritten : written.lookup name = some (s.serialize a)) (hfits : s.Fits a) :
    s.required read name = .ok a := by
  rw [Shape.required, hread, hwritten]
  exact s.lossless code a hfits

/-- An optional field is read back, whether it was written or left out. -/
theorem Shape.default_eq {β : Type} [Ord β] {code : Value → β} (s : Shape α)
    {written read : List (String × Value)} {name : String} {a : Option α}
    (hread : ∀ name, read.lookup name = (written.lookup name).map (canonical code))
    (hwritten : written.lookup name = a.map s.serialize)
    (hnull : ∀ b ∈ a, canonical code (s.serialize b) ≠ .null) (hfits : ∀ b ∈ a, s.Fits b) :
    s.default read name = .ok a := by
  rw [Shape.default, hread, hwritten]
  cases a with
  | none => rfl
  | some b =>
    have hval := s.lossless code b (hfits b rfl)
    have hne := hnull b rfl
    -- the value is not `null`, so the last branch of the match is taken
    simp only [Option.map_some]
    rw [hval]
    rfl

end Serde
