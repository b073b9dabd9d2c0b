import Mathlib.Tactic.FinCases
import Tig.Core.CanonicalEncode

set_option relaxedAutoImplicit false
set_option autoImplicit false

/-!
# The encoding is a canonical form

Sorting the entries of every map ends, for a value of any depth, in a value that is sorted and that
sorting leaves alone; nothing but the order of entries changes. So the encoding does not depend on
the order in which entries were given, and it depends on everything else.

A map whose keys are maps themselves can have two keys that differ only in the order of their
entries. They become the same key, and then the two entries keep the order in which they were
given: such maps are left out.

## Main definitions

* `Tig.PartsCanonicalized` — a value and its sorted form, part by part.

## Main results

* `Tig.canonicalEncode_canonical` — the encoding is a canonical form of values in which no two keys
  of a map are equal up to the order of entries.
* `Tig.twinKeys_encodedApart` — two keys that differ in the order of their entries only.
-/

namespace Tig

open Cbor (Value Everywhere KeysDiffer Reordered Ordered)

/-- The parts of `w` are the parts of `v`, brought to canonical form: the element of an array at its
place, the entries of a map in some order. Scalars are the same. -/
def PartsCanonicalized (lib : Ciborium) : Value → Value → Prop
  | .map entries, .map sorted => ∃ parts,
      List.Forall₂ (fun e e' => canonicalize lib e.1 = .ok e'.1 ∧ canonicalize lib e.2 = .ok e'.2)
        entries parts ∧ sorted.Perm parts
  | .array elems, .array elems' =>
      List.Forall₂ (fun e e' => canonicalize lib e = .ok e') elems elems'
  | .tag number inner, .tag number' inner' => number = number' ∧ canonicalize lib inner = .ok inner'
  | v, w => v = w

/-- The encoding of a value, which serializes to itself. -/
def encodeValue (lib : Ciborium) (v : Value) : Except EncodeError Bytes :=
  canonicalEncode lib Except.ok v

section

variable {lib : Ciborium} (h : lib.Writes)

include h

/-- A value's canonical form has the value's parts in canonical form. -/
theorem partsCanonicalized_canonical (v : Value) :
    PartsCanonicalized lib v (Cbor.canonical lib.keyBytes v) := by
  cases v with
  | map entries =>
    rw [Cbor.canonical_map]
    refine ⟨_, ?_, Cbor.sortEntries_perm _ _⟩
    rw [List.forall₂_map_right_iff, List.forall₂_same]
    exact fun e _ => ⟨canonicalize_eq h e.1, canonicalize_eq h e.2⟩
  | array elems =>
    rw [Cbor.canonical_array, PartsCanonicalized, List.forall₂_map_right_iff, List.forall₂_same]
    exact fun e _ => canonicalize_eq h e
  | tag number inner => exact ⟨rfl, canonicalize_eq h inner⟩
  | _ => exact rfl

theorem encodeValue_eq (v : Value) :
    encodeValue lib v = .ok (lib.keyBytes (Cbor.canonical lib.keyBytes v)) :=
  canonicalEncode_eq h rfl

/-- Values are encoded alike exactly when they have the same canonical form. -/
theorem encodeValue_eq_iff (v w : Value) :
    encodeValue lib v = encodeValue lib w ↔
      Cbor.canonical lib.keyBytes v = Cbor.canonical lib.keyBytes w := by
  rw [encodeValue_eq h, encodeValue_eq h, Except.ok.injEq, h.keyBytes_injective.eq_iff]

end

/-- **The encoding is a canonical form.** With a writer of values that does not fail and is
injective, sorting a value of any depth ends: in every map of the result the entries are in the
bytewise order of their keys' encodings, its parts are those of the value, and sorting it again
changes nothing. Values equal up to the order of map entries, of which one has no map with two keys
that are equal up to it, are encoded alike; values that are not equal up to it are encoded
differently. -/
theorem canonicalEncode_canonical (lib : Ciborium) (h : lib.Writes) :
    (∀ v, ∃ c, canonicalize lib v = .ok c ∧ Everywhere (Ordered lib.keyBytes) c ∧
      PartsCanonicalized lib v c ∧ canonicalize lib c = .ok c) ∧
    (∀ v, ∃ bytes, encodeValue lib v = .ok bytes) ∧
    (∀ v w, Everywhere KeysDiffer v → Reordered v w → encodeValue lib v = encodeValue lib w) ∧
    (∀ v w, ¬ Reordered v w → encodeValue lib v ≠ encodeValue lib w) := by
  refine ⟨fun v => ?_, fun v => ⟨_, encodeValue_eq h v⟩, fun v w hv hvw => ?_, fun v w hvw heq => ?_⟩
  · refine ⟨_, canonicalize_eq h v, Cbor.ordered_canonical v, partsCanonicalized_canonical h v, ?_⟩
    rw [canonicalize_eq h, Cbor.canonical_canonical]
  · rw [encodeValue_eq_iff h]
    exact (Cbor.canonical_eq_iff h.keyBytes_injective hv).mpr hvw
  · rw [encodeValue_eq_iff h] at heq
    exact hvw (Cbor.reordered_of_canonical_eq heq)

/-- Different texts are not equal up to the order of entries. -/
theorem not_reordered_text {a b : String} (hab : a ≠ b) : ¬ Reordered (.text a) (.text b) := by
  intro h
  have heq := (Cbor.canonical_eq_iff Cbor.write_injective (.text a)).mpr h
  exact hab (Value.text.inj heq)

/-- Two fields, in the order in which the encoding has them. -/
def nameThenCount : List (Value × Value) :=
  [(.text "name", .text "tig"), (.text "count", .integer ⟨7, by decide⟩)]

/-- The order of the two fields does not matter. -/
theorem canonicalEncode_countThenName :
    encodeValue ciborium (.map nameThenCount) =
      encodeValue ciborium (.map nameThenCount.reverse) := by
  refine (canonicalEncode_canonical ciborium ciborium_reads.writes).2.2.1 _ _ ?_
    (.perm (List.reverse_perm _).symm)
  have hdiffer : KeysDiffer nameThenCount := by
    simp [KeysDiffer, nameThenCount, not_reordered_text]
  refine .map hdiffer (fun e he => ?_) (fun e he => ?_)
  · fin_cases he <;> exact .text _
  · fin_cases he
    · exact .text _
    · exact .integer _

/-- No key stands twice in a map. -/
def KeysDistinct (entries : List (Value × Value)) : Prop :=
  entries.Pairwise fun e e' => e.1 ≠ e'.1

/-- Two entries, for `false` and for `true`. -/
def bothBools : List (Value × Value) := [(.bool false, .null), (.bool true, .null)]

/-- A map whose two keys are maps with the same entries, in either order. -/
def twinKeys : List (Value × Value) :=
  [(.map bothBools, .bool false), (.map bothBools.reverse, .bool true)]

theorem keysDistinct_bothBools {entries : List (Value × Value)} (h : entries.Perm bothBools) :
    Everywhere KeysDistinct (.map entries) := by
  have hdistinct : KeysDistinct bothBools := by simp [KeysDistinct, bothBools]
  refine .map (hdistinct.perm h.symm fun hne => hne.symm) (fun e he => ?_) fun e he => ?_
  all_goals
    have hmem := h.mem_iff.mp he
    fin_cases hmem
    all_goals constructor

theorem keysDistinct_twinKeys {entries : List (Value × Value)} (h : entries.Perm twinKeys) :
    Everywhere KeysDistinct (.map entries) := by
  have hdistinct : KeysDistinct twinKeys := by simp [KeysDistinct, twinKeys, bothBools]
  refine .map (hdistinct.perm h.symm fun hne => hne.symm) (fun e he => ?_) fun e he => ?_
  · have hmem := h.mem_iff.mp he
    fin_cases hmem
    · exact keysDistinct_bothBools (.refl _)
    · exact keysDistinct_bothBools (List.reverse_perm _)
  · have hmem := h.mem_iff.mp he
    fin_cases hmem
    all_goals constructor

/-- Different keys that are maps with the same entries are sorted by the same bytes, so the order in
which they were given stays: the two orders of one map are encoded differently. -/
theorem twinKeys_encodedApart :
    Everywhere KeysDistinct (.map twinKeys) ∧ Everywhere KeysDistinct (.map twinKeys.reverse) ∧
      Reordered (.map twinKeys) (.map twinKeys.reverse) ∧
      encodeValue ciborium (.map twinKeys) ≠ encodeValue ciborium (.map twinKeys.reverse) := by
  refine ⟨keysDistinct_twinKeys (.refl _), keysDistinct_twinKeys (List.reverse_perm _),
    .perm (List.reverse_perm _).symm, ?_⟩
  have hfirst : encodeValue ciborium (.map twinKeys) = .ok
      [0xa2, 0xa2, 0xf4, 0xf6, 0xf5, 0xf6, 0xf4, 0xa2, 0xf4, 0xf6, 0xf5, 0xf6, 0xf5] := rfl
  have hsecond : encodeValue ciborium (.map twinKeys.reverse) = .ok
      [0xa2, 0xa2, 0xf4, 0xf6, 0xf5, 0xf6, 0xf5, 0xa2, 0xf4, 0xf6, 0xf5, 0xf6, 0xf4] := rfl
  rw [hfirst, hsecond]
  decide

end Tig
