import Mathlib.Data.List.Lex
import Tig.Core.Snapshot
import Tig.Lib.Wire

set_option relaxedAutoImplicit false
set_option autoImplicit false

/-!
# The plain format

A format in which nothing is compressed: the hash of an object is its tagged payload itself, and
objects are encoded by the combinators of `Wire`. It is lawful, so it shows that the laws asked
of a format can be met, and repositories over it can be written down and run.

## Main definitions

* `Tig.PlainHash`, `Tig.plainFormat` — the hashes and the format.

## Main results

* `Tig.plainFormat_lawful` — the plain format is lawful.
-/

namespace Tig

/-- A hash that is its own preimage, as a list of numbers. -/
abbrev PlainHash := List Nat

/-- The hexadecimal digit of a number below 16. -/
def hexDigit (n : Nat) : Char := if n < 10 then Char.ofNat (48 + n) else Char.ofNat (87 + n)

/-- A character made of a number has that number, if there is such a character. -/
theorem toNat_ofNat (n : Nat) : (Char.ofNat n).toNat = n ∨ (Char.ofNat n).toNat = 0 := by
  by_cases h : n.isValidChar
  · rw [Char.ofNat, dif_pos h]
    exact Or.inl rfl
  · rw [Char.ofNat, dif_neg h]
    exact Or.inr rfl

/-- Only zero has the digit `0`. -/
theorem hexDigit_eq_zero {n : Nat} (h : hexDigit n = '0') : n = 0 := by
  have hnat : (hexDigit n).toNat = 48 := congrArg Char.toNat h
  unfold hexDigit at hnat
  split_ifs at hnat
  · have := toNat_ofNat (48 + n)
    omega
  · have := toNat_ofNat (87 + n)
    omega

/-- The value of a hexadecimal digit. -/
def hexValue (c : Char) : Option Nat :=
  let n := c.toNat
  if 48 ≤ n ∧ n < 58 then some (n - 48)
  else if 97 ≤ n ∧ n < 103 then some (n - 87)
  else if 65 ≤ n ∧ n < 71 then some (n - 55)
  else none

/-- Numbers from pairs of hexadecimal digits. -/
def unhex : List Char → Option (List Nat)
  | [] => some []
  | a :: b :: cs => do
    let hi ← hexValue a
    let lo ← hexValue b
    let ns ← unhex cs
    some ((16 * hi + lo) :: ns)
  | [_] => none

namespace Plain

/-- The encoding of a hash. -/
def hash : Wire PlainHash := Wire.list Wire.nat

/-- The encoding of bytes. -/
def bytes : Wire Bytes :=
  (Wire.list Wire.nat).map (List.map UInt8.toNat) (List.map UInt8.ofNat) fun bs => by
    simp [Function.comp_def]

/-- The encoding of an entry kind. -/
def entryKind : Wire EntryKind :=
  Wire.nat.map
    (fun
      | .file => 0
      | .tree => 1
      | .symlink => 2
      | .sealed => 3
      | .conflict => 4
      | .submodule => 5)
    (fun
      | 0 => .file
      | 1 => .tree
      | 2 => .symlink
      | 3 => .sealed
      | 4 => .conflict
      | _ => .submodule)
    (by rintro (_ | _) <;> rfl)

/-- The encoding of a tree entry. -/
def treeEntry : Wire (TreeEntry PlainHash) :=
  (Wire.string.pair (entryKind.pair (hash.pair (Wire.nat.pair (Wire.option Wire.string))))).map
    (fun e => (e.name, e.kind, e.target, e.mode.bits.toNat, e.vis))
    (fun p => ⟨p.1, p.2.1, p.2.2.1, ⟨UInt32.ofNat p.2.2.2.1⟩, p.2.2.2.2⟩)
    (fun e => by simp)

/-- The encoding of a tree. -/
def tree : Wire (Tree PlainHash) :=
  (Wire.list treeEntry).map Tree.entries Tree.mk fun _ => rfl

/-- The encoding of a snapshot. -/
def snapshot : Wire (Snapshot PlainHash) :=
  ((Wire.list hash).pair (hash.pair (Wire.string.pair (Wire.nat.pair
    ((Wire.option Wire.string).pair (Wire.option Wire.nat)))))).map
    (fun s => (s.parents, s.tree, s.author, s.timestampNs, s.message, s.opId))
    (fun p => ⟨p.1, p.2.1, p.2.2.1, p.2.2.2.1, p.2.2.2.2.1, p.2.2.2.2.2⟩)
    (fun _ => rfl)

/-- The encoding of a wrapped key. -/
def recipientWrap : Wire RecipientWrap :=
  (bytes.pair (bytes.pair bytes)).map
    (fun r => (r.recipientPk, r.wrappedKey, r.wrapNonce))
    (fun p => ⟨p.1, p.2.1, p.2.2⟩)
    (fun _ => rfl)

/-- The encoding of a sealed payload. There is one algorithm, which is not written. -/
def sealed : Wire Sealed :=
  (bytes.pair ((Wire.list recipientWrap).pair (bytes.pair (bytes.pair bytes)))).map
    (fun s => (s.ephemeralPk, s.recipients, s.ciphertext, s.nonce, s.aad))
    (fun p => ⟨.X25519XChaCha20Poly1305, p.1, p.2.1, p.2.2.1, p.2.2.2.1, p.2.2.2.2⟩)
    (fun _ => rfl)

/-- The codec of an encoding. -/
def codec {α : Type} (w : Wire α) : Codec α where
  canonicalEncode := w.encodeBytes
  fromReader bs :=
    match w.decodeBytes bs with
    | some a => .ok a
    | none => .error "malformed"

theorem codec_lawful {α : Type} (w : Wire α) : (codec w).Lawful := fun a => by
  simp [codec]

end Plain

/-- The plain format: a hash is the tag followed by the payload. -/
instance plainFormat : Format PlainHash where
  compute kind payload := kind.tag.toNat :: payload.map UInt8.toNat
  toHex h := String.ofList (h.flatMap fun n => [hexDigit (n / 16), hexDigit (n % 16)])
  fromHex s := match unhex s.toList with
    | some h => .ok h
    | none => .error (.invalidHex s)
  blobCodec := Plain.codec (Plain.bytes.map Blob.bytes Blob.mk fun _ => rfl)
  treeCodec := Plain.codec Plain.tree
  snapshotCodec := Plain.codec Plain.snapshot
  sealedCodec := Plain.codec Plain.sealed

/-- A plain hash starts with the tag of the object's kind. -/
theorem plainHash_head (raw : RawObject) :
    (raw.hash PlainHash).head? = some raw.kind.tag.toNat := rfl

/-- The plain format is lawful. -/
instance plainFormat_lawful : LawfulFormat PlainHash where
  compute_inj {k k' b b'} h := by
    obtain ⟨ht, hb⟩ := List.cons.inj h
    refine ⟨?_, List.map_injective_iff.mpr (fun _ _ => UInt8.toNat_inj.mp) hb⟩
    revert ht
    cases k <;> cases k' <;> decide
  blob := Plain.codec_lawful _
  tree := Plain.codec_lawful _
  snapshot := Plain.codec_lawful _
  sealed := Plain.codec_lawful _

end Tig
