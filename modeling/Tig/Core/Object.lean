import Mathlib.Data.List.Basic

set_option relaxedAutoImplicit false
set_option autoImplicit false

/-!
# Objects: kinds, hashes, and the encode/decode contract

Every persisted object is a kind together with the canonical CBOR bytes of a typed value, and
is addressed by the hash of the two. BLAKE3 and the CBOR codec are not part of the repository:
they enter as classes, and the laws they are known to obey are classes of their own.

## Main definitions

* `Tig.ObjectKind`, `Tig.RawObject` — an object in its persisted form.
* `Tig.HashFn` — the content hash, over an abstract type of hashes.
* `Tig.Encodable`, `Tig.encode`, `Tig.decode` — a typed object and its persisted form.
* `Tig.CollisionFree`, `Tig.Codec.Lawful` — what is assumed of hash and codec.

## Main results

* `Tig.decode_encode` — decoding undoes encoding.
* `Tig.RawObject.hash_inj` — without collisions an object is determined by its hash.
-/

namespace Tig

/-- Bytes, as they are in a file or in a request. -/
abbrev Bytes := List UInt8

/-- A string the way `{:?}` prints it: quoted, with the usual characters escaped. -/
def debugStr (s : String) : String :=
  let escape : Char → List Char
    | '"' => ['\\', '"']
    | '\\' => ['\\', '\\']
    | '\n' => ['\\', 'n']
    | '\r' => ['\\', 'r']
    | '\t' => ['\\', 't']
    | c => if c.toNat = 0 then ['\\', '0'] else [c]
  "\"" ++ String.ofList (s.toList.flatMap escape) ++ "\""

/-! ## Errors -/

/-- The errors of the object layer. -/
inductive CoreError where
  | encode (msg : String)
  | decode (msg : String)
  | hashMismatch (expected actual : String)
  | invalidHex (msg : String)
  | invalidKind (tag : UInt8)
  | invalidPathComponent (name : String)
deriving DecidableEq, Repr

/-- The text of an error, as its `Display` prints it. -/
def CoreError.toText : CoreError → String
  | .encode msg => "encode: " ++ msg
  | .decode msg => "decode: " ++ msg
  | .hashMismatch expected actual =>
      "hash mismatch: expected " ++ expected ++ ", got " ++ actual
  | .invalidHex msg => "invalid hex: " ++ msg
  | .invalidKind tag => "invalid object kind tag: " ++ toString tag.toNat
  | .invalidPathComponent name => "invalid path component: " ++ debugStr name

/-! ## Kinds -/

/-- What an object is. -/
inductive ObjectKind where
  | blob
  | tree
  | snapshot
  | sealed
  | conflict
deriving DecidableEq, Repr

namespace ObjectKind

/-- The byte that stands for a kind, in a hash preimage and in an object file. -/
def tag : ObjectKind → UInt8
  | blob => 1
  | tree => 2
  | snapshot => 3
  | sealed => 4
  | conflict => 5

/-- The kind a byte stands for. -/
def fromTag (b : UInt8) : Except CoreError ObjectKind :=
  if b = 1 then .ok blob
  else if b = 2 then .ok tree
  else if b = 3 then .ok snapshot
  else if b = 4 then .ok sealed
  else if b = 5 then .ok conflict
  else .error (.invalidKind b)

/-- The kind's name, as error messages print it. -/
def name : ObjectKind → String
  | blob => "blob"
  | tree => "tree"
  | snapshot => "snapshot"
  | sealed => "sealed"
  | conflict => "conflict"

@[simp] theorem fromTag_tag (k : ObjectKind) : fromTag k.tag = .ok k := by
  cases k <;> rfl

end ObjectKind

/-! ## Hashes -/

/-- The content hash. `compute` hashes a kind-tagged payload; a hash has a hexadecimal form. -/
class HashFn (H : Type) where
  compute : ObjectKind → Bytes → H
  toHex : H → String
  fromHex : String → Except CoreError H

/-- Two different kind-tagged payloads never have the same hash. -/
class CollisionFree (H : Type) [HashFn H] : Prop where
  compute_inj : ∀ {k k' : ObjectKind} {b b' : Bytes},
    HashFn.compute (H := H) k b = HashFn.compute k' b' → k = k' ∧ b = b'

/-- A persisted-form object: its kind and its canonical bytes. -/
@[ext]
structure RawObject where
  kind : ObjectKind
  bytes : Bytes
deriving DecidableEq, Repr

namespace RawObject

/-- The address of an object. -/
def hash (H : Type) [HashFn H] (raw : RawObject) : H := HashFn.compute raw.kind raw.bytes

/-- Check that an externally asserted hash is that of the content. -/
def verify {H : Type} [HashFn H] [DecidableEq H] (raw : RawObject) (claimed : H) :
    Except CoreError Unit :=
  if raw.hash H = claimed then .ok ()
  else .error (.hashMismatch (HashFn.toHex claimed) (HashFn.toHex (raw.hash H)))

/-- Without collisions an object is determined by its hash. -/
theorem hash_inj {H : Type} [HashFn H] [CollisionFree H] {r r' : RawObject}
    (h : r.hash H = r'.hash H) : r = r' := by
  obtain ⟨hk, hb⟩ := CollisionFree.compute_inj h
  exact RawObject.ext hk hb

theorem verify_eq_ok {H : Type} [HashFn H] [DecidableEq H] {raw : RawObject} {h : H} :
    raw.verify h = .ok () ↔ raw.hash H = h := by
  unfold verify
  split <;> simp_all

end RawObject

/-! ## Typed objects -/

/-- The CBOR codec of one type. Encoding goes through the canonical profile into memory, which
does not fail on the values tig stores; decoding can. -/
structure Codec (α : Type) where
  canonicalEncode : α → Bytes
  fromReader : Bytes → Except String α

/-- A codec that decodes what it encoded. -/
def Codec.Lawful {α : Type} (c : Codec α) : Prop :=
  ∀ a, c.fromReader (c.canonicalEncode a) = .ok a

/-- A typed object of a repository with hashes in `H`: the kind it declares, and its codec. -/
class Encodable (H : Type) (α : Type) where
  KIND : ObjectKind
  codec : Codec α

section Encodable

variable (H : Type) {α : Type} [Encodable H α]

/-- The persisted form of a typed object. -/
def encode (a : α) : RawObject := ⟨Encodable.KIND H α, (Encodable.codec H).canonicalEncode a⟩

/-- Read a typed object from its persisted form; the kind must be the declared one. -/
def decode (raw : RawObject) : Except CoreError α :=
  if raw.kind = Encodable.KIND H α then
    ((Encodable.codec H).fromReader raw.bytes).mapError .decode
  else
    .error (.decode ("expected kind " ++ (Encodable.KIND H α).name ++ ", got " ++ raw.kind.name))

@[simp] theorem encode_kind (a : α) : (encode H a).kind = Encodable.KIND H α := rfl

variable {H}

/-- What decodes has the kind its type declares. -/
theorem kind_of_decode {raw : RawObject} {a : α} (h : decode H raw = .ok a) :
    raw.kind = Encodable.KIND H α := by
  by_contra hk
  simp [decode, hk] at h

/-- Decoding undoes encoding. -/
theorem decode_encode (hc : (Encodable.codec H (α := α)).Lawful) (a : α) :
    decode H (encode H a) = .ok a := by
  simp [decode, encode, hc a, Except.mapError]

end Encodable

end Tig
