import Tig.Core.CanonicalEncode
import Tig.Core.Hash
import Tig.Core.Snapshot
import Tig.Lib.Serde

set_option relaxedAutoImplicit false
set_option autoImplicit false

/-!
# The encodings of the typed objects

What each typed object is as a CBOR value: its fields under their names, in the order of the
source, with optional fields left out when there is nothing in them. Encoding sorts the fields;
decoding looks them up by name.

## Main definitions

* `Tig.blobShape`, `Tig.treeShape`, `Tig.snapshotShape`, `Tig.sealedShape` — the objects as values.
* `Tig.ObjectType` with `encode`, `decode` — a typed object, its persisted form, and back.

## Main results

* `Tig.ObjectType.decode_encode` — decoding undoes encoding.
-/

namespace Tig

open Cbor (Value)
open Serde (Shape record fieldsOf)

/-! ## Fields -/

def hashShape : Shape Hash :=
  Serde.bytes.newtype Hash.bytes
    (fun bytes =>
      if h : bytes.length = 32 then .ok ⟨bytes, h⟩
      else .error ("Hash must be exactly 32 bytes, got " ++ toString bytes.length))
    fun h => dif_pos h.length_bytes

def u64Shape : Shape Nat := Serde.uint (2 ^ 64) le_rfl

def fileModeShape : Shape FileMode :=
  (Serde.uint (2 ^ 32) (by decide)).newtype (fun m => m.bits.toNat) (fun n => .ok ⟨UInt32.ofNat n⟩)
    fun m => by simp

def entryKindShape : Shape EntryKind :=
  Serde.unitEnum EntryKind.toText
    (fun
      | "File" => some .file
      | "Tree" => some .tree
      | "Symlink" => some .symlink
      | "Sealed" => some .sealed
      | "Conflict" => some .conflict
      | "Submodule" => some .submodule
      | _ => none)
    (by rintro (_ | _) <;> rfl)

def sealAlgoShape : Shape SealAlgo :=
  Serde.unitEnum (fun | .X25519XChaCha20Poly1305 => "X25519XChaCha20Poly1305")
    (fun
      | "X25519XChaCha20Poly1305" => some .X25519XChaCha20Poly1305
      | _ => none)
    (by rintro (_ | _); rfl)

/-! ## Records -/

/-- The fields of a record that is written are read back under their names. -/
theorem read_record {α β : Type} [Ord β] (code : Value → β) {names : List String}
    {fields : List (String × Value)} {read : List (String × Value) → Except String α} {a : α}
    (hnodup : (fields.map Prod.fst).Nodup) (hnames : ∀ f ∈ fields, f.1 ∈ names)
    (h : ∀ found, (∀ name, found.lookup name = (fields.lookup name).map (Cbor.canonical code)) →
      read found = .ok a) :
    (fieldsOf names (Cbor.canonical code (record fields)) >>= read) = .ok a := by
  obtain ⟨found, hfound, hlookup⟩ := Serde.fieldsOf_record code hnodup hnames
  rw [hfound]
  exact h found hlookup

def blobShape : Shape Blob where
  serialize b := record (Serde.bytes.field "bytes" b.bytes)
  deserialize v := do
    let fs ← fieldsOf ["bytes"] v
    let bytes ← Serde.bytes.required fs "bytes"
    .ok ⟨bytes⟩
  Fits _ := True
  lossless code b _ := by
    refine read_record code (by simp [Shape.field]) (by simp [Shape.field]) fun found h => ?_
    rw [Serde.bytes.required_eq (a := b.bytes) h rfl trivial]
    rfl

/-- The fields of a tree entry. -/
def treeEntryFields (e : TreeEntry Hash) : List (String × Value) :=
  Serde.string.field "name" e.name ++ entryKindShape.field "kind" e.kind ++
    hashShape.field "target" e.target ++ fileModeShape.field "mode" e.mode ++
    Serde.string.optional "vis" e.vis

def treeEntryShape : Shape (TreeEntry Hash) where
  serialize e := record (treeEntryFields e)
  deserialize v := do
    let fs ← fieldsOf ["name", "kind", "target", "mode", "vis"] v
    let name ← Serde.string.required fs "name"
    let kind ← entryKindShape.required fs "kind"
    let target ← hashShape.required fs "target"
    let mode ← fileModeShape.required fs "mode"
    let vis ← Serde.string.default fs "vis"
    .ok { name, kind, target, mode, vis }
  Fits _ := True
  lossless code e _ := by
    have hvis : (treeEntryFields e).lookup "vis" = e.vis.map Serde.string.serialize := by
      unfold treeEntryFields
      cases e.vis <;> rfl
    refine read_record code ?_ ?_ fun found h => ?_
    · cases hv : e.vis <;> simp [treeEntryFields, Shape.field, Shape.optional, hv]
    · cases hv : e.vis <;> simp [treeEntryFields, Shape.field, Shape.optional, hv]
    rw [Serde.string.required_eq (a := e.name) h rfl trivial,
      entryKindShape.required_eq (a := e.kind) h rfl trivial,
      hashShape.required_eq (a := e.target) h rfl trivial,
      fileModeShape.required_eq (a := e.mode) h rfl e.mode.bits.toNat_lt,
      Serde.string.default_eq (a := e.vis) h hvis (fun _ _ => nofun) fun _ _ => trivial]
    rfl

def treeShape : Shape (Tree Hash) where
  serialize t := record ((Serde.seq treeEntryShape).field "entries" t.entries)
  deserialize v := do
    let fs ← fieldsOf ["entries"] v
    let entries ← (Serde.seq treeEntryShape).required fs "entries"
    .ok ⟨entries⟩
  Fits _ := True
  lossless code t _ := by
    refine read_record code (by simp [Shape.field]) (by simp [Shape.field]) fun found h => ?_
    rw [(Serde.seq treeEntryShape).required_eq (a := t.entries) h rfl fun _ _ => trivial]
    rfl

/-- The fields of a snapshot. -/
def snapshotFields (s : Snapshot Hash) : List (String × Value) :=
  (Serde.seq hashShape).field "parents" s.parents ++ hashShape.field "tree" s.tree ++
    Serde.string.field "author" s.author ++ u64Shape.field "timestamp_ns" s.timestampNs ++
    Serde.string.optional "message" s.message ++ u64Shape.optional "op_id" s.opId

/-- The time and the id of the operation are numbers of 64 bits. -/
def Snapshot.Fits (s : Snapshot Hash) : Prop :=
  s.timestampNs < 2 ^ 64 ∧ ∀ id ∈ s.opId, id < 2 ^ 64

def snapshotShape : Shape (Snapshot Hash) where
  serialize s := record (snapshotFields s)
  deserialize v := do
    let fs ← fieldsOf ["parents", "tree", "author", "timestamp_ns", "message", "op_id"] v
    let parents ← (Serde.seq hashShape).required fs "parents"
    let tree ← hashShape.required fs "tree"
    let author ← Serde.string.required fs "author"
    let timestampNs ← u64Shape.required fs "timestamp_ns"
    let message ← Serde.string.default fs "message"
    let opId ← u64Shape.default fs "op_id"
    .ok { parents, tree, author, timestampNs, message, opId }
  Fits := Snapshot.Fits
  lossless code s hfits := by
    have hmessage : (snapshotFields s).lookup "message" =
        s.message.map Serde.string.serialize := by
      unfold snapshotFields
      cases s.message <;> cases s.opId <;> rfl
    have hopId : (snapshotFields s).lookup "op_id" = s.opId.map u64Shape.serialize := by
      unfold snapshotFields
      cases s.message <;> cases s.opId <;> rfl
    have hnull : ∀ id ∈ s.opId, Cbor.canonical code (u64Shape.serialize id) ≠ .null := by
      intro id hid
      have hval : u64Shape.serialize id = .integer _ := dif_pos (hfits.2 id hid)
      rw [hval]
      nofun
    refine read_record code ?_ ?_ fun found h => ?_
    · cases hm : s.message <;> cases ho : s.opId <;>
        simp [snapshotFields, Shape.field, Shape.optional, hm, ho]
    · cases hm : s.message <;> cases ho : s.opId <;>
        simp [snapshotFields, Shape.field, Shape.optional, hm, ho]
    rw [(Serde.seq hashShape).required_eq (a := s.parents) h rfl fun _ _ => trivial,
      hashShape.required_eq (a := s.tree) h rfl trivial,
      Serde.string.required_eq (a := s.author) h rfl trivial,
      u64Shape.required_eq (a := s.timestampNs) h rfl hfits.1,
      Serde.string.default_eq (a := s.message) h hmessage (fun _ _ => nofun) fun _ _ => trivial,
      u64Shape.default_eq (a := s.opId) h hopId hnull hfits.2]
    rfl

/-- The fields of a wrapped key. -/
def recipientWrapFields (r : RecipientWrap) : List (String × Value) :=
  Serde.bytes.field "recipient_pk" r.recipientPk ++ Serde.bytes.field "wrapped_key" r.wrappedKey ++
    Serde.bytes.field "wrap_nonce" r.wrapNonce

def recipientWrapShape : Shape RecipientWrap where
  serialize r := record (recipientWrapFields r)
  deserialize v := do
    let fs ← fieldsOf ["recipient_pk", "wrapped_key", "wrap_nonce"] v
    let recipientPk ← Serde.bytes.required fs "recipient_pk"
    let wrappedKey ← Serde.bytes.required fs "wrapped_key"
    let wrapNonce ← Serde.bytes.required fs "wrap_nonce"
    .ok { recipientPk, wrappedKey, wrapNonce }
  Fits _ := True
  lossless code r _ := by
    refine read_record code ?_ ?_ fun found h => ?_
    · simp [recipientWrapFields, Shape.field]
    · simp [recipientWrapFields, Shape.field]
    rw [Serde.bytes.required_eq (a := r.recipientPk) h rfl trivial,
      Serde.bytes.required_eq (a := r.wrappedKey) h rfl trivial,
      Serde.bytes.required_eq (a := r.wrapNonce) h rfl trivial]
    rfl

/-- The fields of a sealed payload. -/
def sealedFields (s : Sealed) : List (String × Value) :=
  sealAlgoShape.field "algo" s.algo ++ Serde.bytes.field "ephemeral_pk" s.ephemeralPk ++
    (Serde.seq recipientWrapShape).field "recipients" s.recipients ++
    Serde.bytes.field "ciphertext" s.ciphertext ++ Serde.bytes.field "nonce" s.nonce ++
    Serde.bytes.field "aad" s.aad

def sealedShape : Shape Sealed where
  serialize s := record (sealedFields s)
  deserialize v := do
    let fs ← fieldsOf ["algo", "ephemeral_pk", "recipients", "ciphertext", "nonce", "aad"] v
    let algo ← sealAlgoShape.required fs "algo"
    let ephemeralPk ← Serde.bytes.required fs "ephemeral_pk"
    let recipients ← (Serde.seq recipientWrapShape).required fs "recipients"
    let ciphertext ← Serde.bytes.required fs "ciphertext"
    let nonce ← Serde.bytes.required fs "nonce"
    let aad ← Serde.bytes.required fs "aad"
    .ok { algo, ephemeralPk, recipients, ciphertext, nonce, aad }
  Fits _ := True
  lossless code s _ := by
    refine read_record code ?_ ?_ fun found h => ?_
    · simp [sealedFields, Shape.field]
    · simp [sealedFields, Shape.field]
    rw [sealAlgoShape.required_eq (a := s.algo) h rfl trivial,
      Serde.bytes.required_eq (a := s.ephemeralPk) h rfl trivial,
      (Serde.seq recipientWrapShape).required_eq (a := s.recipients) h rfl fun _ _ => trivial,
      Serde.bytes.required_eq (a := s.ciphertext) h rfl trivial,
      Serde.bytes.required_eq (a := s.nonce) h rfl trivial,
      Serde.bytes.required_eq (a := s.aad) h rfl trivial]
    rfl

/-! ## Encoding and decoding -/

/-- The types that are encoded. -/
inductive ObjectType where
  | blob
  | tree
  | snapshot
  | sealed
deriving DecidableEq, Repr

namespace ObjectType

/-- The values of a type. -/
def Carrier : ObjectType → Type
  | blob => Blob
  | tree => Tree Hash
  | snapshot => Snapshot Hash
  | sealed => Sealed

/-- The kind that a type declares. -/
def KIND : ObjectType → ObjectKind
  | blob => .blob
  | tree => .tree
  | snapshot => .snapshot
  | sealed => .sealed

def shape : (t : ObjectType) → Shape t.Carrier
  | blob => blobShape
  | tree => treeShape
  | snapshot => snapshotShape
  | sealed => sealedShape

theorem KIND_injective : Function.Injective KIND := by
  rintro (_ | _) (_ | _) h <;> first | rfl | cases h

section

variable (lib : Ciborium) (t : ObjectType)

/-- The persisted form of an object. -/
def encode (a : t.Carrier) : Except CoreError RawObject := do
  let bytes ← (canonicalEncode lib (fun a => .ok (t.shape.serialize a)) a).mapError
    fun e => .encode e.toText
  .ok ⟨t.KIND, bytes⟩

/-- Read an object of a type from its persisted form. -/
def decode (raw : RawObject) : Except CoreError t.Carrier :=
  if raw.kind ≠ t.KIND then
    .error (.decode ("expected kind " ++ t.KIND.name ++ ", got " ++ raw.kind.name))
  else
    (lib.fromReader raw.bytes >>= t.shape.deserialize).mapError .decode

end

variable {lib : Ciborium} {t : ObjectType}

theorem encode_eq (h : lib.Writes) (a : t.Carrier) : t.encode lib a =
    .ok ⟨t.KIND, lib.keyBytes (Cbor.canonical lib.keyBytes (t.shape.serialize a))⟩ := by
  have hbytes : canonicalEncode lib (fun a => .ok (t.shape.serialize a)) a = .ok _ :=
    canonicalEncode_eq h rfl
  rw [encode, hbytes]
  rfl

theorem kind_of_encode (h : lib.Writes) {a : t.Carrier} {raw : RawObject}
    (hraw : t.encode lib a = .ok raw) : raw.kind = t.KIND := by
  rw [encode_eq h] at hraw
  rw [← Except.ok.inj hraw]

/-- **Decoding undoes encoding.** -/
theorem decode_encode (h : lib.Reads) {a : t.Carrier} (hfits : t.shape.Fits a) {raw : RawObject}
    (hraw : t.encode lib a = .ok raw) : t.decode lib raw = .ok a := by
  rw [encode_eq h.writes] at hraw
  obtain rfl := Except.ok.inj hraw
  obtain ⟨bytes, hbytes, hread⟩ := h (Cbor.canonical lib.keyBytes (t.shape.serialize a))
  rw [h.writes.intoWriter_eq] at hbytes
  rw [decode, if_neg (not_not_intro rfl), Except.ok.inj hbytes, hread]
  simp only [bind, Except.bind, t.shape.lossless lib.keyBytes a hfits, Except.mapError]

/-- An object of another kind is refused. -/
theorem decode_of_ne {raw : RawObject} (hkind : raw.kind ≠ t.KIND) :
    t.decode lib raw =
      .error (.decode ("expected kind " ++ t.KIND.name ++ ", got " ++ raw.kind.name)) :=
  if_pos hkind

end ObjectType

end Tig
