import Tig.Core.Tree
import Tig.Core.Change

set_option relaxedAutoImplicit false
set_option autoImplicit false

/-!
# Snapshots, sealed payloads, and the object format

A snapshot is an immutable point in history: a root tree, its parents, and who took it when.
A sealed object is a payload encrypted to a list of recipients. With blobs and trees these are
the four typed objects; a *format* is a hash function with a codec for each of them.

## Main definitions

* `Tig.Snapshot`, `Tig.Sealed` — the remaining objects.
* `Tig.Format` — a content hash and the codecs of the four typed objects.
* `Tig.LawfulFormat` — the hash has no collisions and every codec decodes what it encoded.
-/

namespace Tig

/-- An immutable point in history. -/
@[ext]
structure Snapshot (H : Type) where
  /-- Empty for a root snapshot; two parents are a merge. -/
  parents : List H
  tree : H
  author : PrincipalId
  timestampNs : Nat
  message : Option String
  opId : Option OpId
deriving DecidableEq, Repr

/-- How a payload was sealed. -/
inductive SealAlgo where
  | X25519XChaCha20Poly1305
deriving DecidableEq, Repr

/-- The data key of a sealed payload, wrapped for one recipient. -/
structure RecipientWrap where
  recipientPk : Bytes
  wrappedKey : Bytes
  wrapNonce : Bytes
deriving DecidableEq, Repr

/-- An encrypted payload with its explicit recipients. -/
structure Sealed where
  algo : SealAlgo
  ephemeralPk : Bytes
  recipients : List RecipientWrap
  ciphertext : Bytes
  nonce : Bytes
  aad : Bytes
deriving DecidableEq, Repr

/-- A content hash and the codecs of the typed objects. -/
class Format (H : Type) extends HashFn H where
  blobCodec : Codec Blob
  treeCodec : Codec (Tree H)
  snapshotCodec : Codec (Snapshot H)
  sealedCodec : Codec Sealed

/-- A format without collisions, whose codecs decode what they encoded. -/
class LawfulFormat (H : Type) [Format H] : Prop extends CollisionFree H where
  blob : (Format.blobCodec H).Lawful
  tree : (Format.treeCodec (H := H)).Lawful
  snapshot : (Format.snapshotCodec (H := H)).Lawful
  sealed : (Format.sealedCodec H).Lawful

section Encodable

variable {H : Type} [Format H]

instance : Encodable H Blob := ⟨.blob, Format.blobCodec H⟩
instance : Encodable H (Tree H) := ⟨.tree, Format.treeCodec⟩
instance : Encodable H (Snapshot H) := ⟨.snapshot, Format.snapshotCodec⟩
instance : Encodable H Sealed := ⟨.sealed, Format.sealedCodec H⟩

@[simp] theorem kind_blob : Encodable.KIND H Blob = .blob := rfl
@[simp] theorem kind_tree : Encodable.KIND H (Tree H) = .tree := rfl
@[simp] theorem kind_snapshot : Encodable.KIND H (Snapshot H) = .snapshot := rfl
@[simp] theorem kind_sealed : Encodable.KIND H Sealed = .sealed := rfl

variable [LawfulFormat H]

@[simp] theorem decode_encode_blob (b : Blob) : decode H (encode H b) = .ok b :=
  decode_encode LawfulFormat.blob b

@[simp] theorem decode_encode_tree (t : Tree H) : decode H (encode H t) = .ok t :=
  decode_encode LawfulFormat.tree t

@[simp] theorem decode_encode_snapshot (s : Snapshot H) : decode H (encode H s) = .ok s :=
  decode_encode LawfulFormat.snapshot s

@[simp] theorem decode_encode_sealed (s : Sealed) : decode H (encode H s) = .ok s :=
  decode_encode LawfulFormat.sealed s

end Encodable

end Tig
