import Tig.Core.Encoding
import Tig.Store.Objects

set_option relaxedAutoImplicit false
set_option autoImplicit false

/-!
# Encoding loses nothing and keeps kinds apart

An object is stored under the hash of its kind and its encoding, in a file that holds the two. What
was encoded decodes to the same object and to no object of another type, and what was put into a
store comes back from it.

The hash has 32 bytes, so objects with the same hash exist; a store keeps the one that was put
first. That the objects of a store have different hashes is asked of the hash.

## Main definitions

* `Tig.cborFormat` — the format of a repository: its hash, and the codecs of its objects.
* `Tig.preimage` — what is hashed.
* `Tig.storeOf` — the store that puts have filled.

## Main results

* `Tig.encoding_lossless` — encoding loses nothing, keeps kinds apart, and survives storing.
-/

namespace Tig

/-! ## The format -/

/-- Hashes are ordered as the lists of their bytes. -/
instance : LinearOrder Hash :=
  LinearOrder.lift' (fun h : Hash => h.bytes.map UInt8.toNat) fun _ _ heq =>
    Hash.ext (List.map_injective_iff.mpr (fun _ _ => UInt8.toNat_inj.mp) heq)

variable (lib : Ciborium) (blake3 : Bytes → Hash)

/-- The codec of a type. -/
def ObjectType.codec (t : ObjectType) : Codec t.Carrier where
  canonicalEncode a :=
    match t.encode lib a with
    | .ok raw => raw.bytes
    | .error _ => []
  fromReader bytes := lib.fromReader bytes >>= t.shape.deserialize

/-- The format of a repository whose objects are written by `lib` and hashed by `blake3`. -/
abbrev cborFormat : Format Hash where
  compute := Hash.compute blake3
  toHex := Hash.toHex
  fromHex := Hash.fromHex
  blobCodec := ObjectType.blob.codec lib
  treeCodec := ObjectType.tree.codec lib
  snapshotCodec := ObjectType.snapshot.codec lib
  sealedCodec := ObjectType.sealed.codec lib

/-- What is hashed: the kind byte, and the encoding. -/
def preimage (raw : RawObject) : Bytes := raw.kind.tag :: raw.bytes

theorem preimage_injective : Function.Injective preimage := by
  intro raw raw' heq
  have hread := congrArg unframe heq
  rw [preimage, ← frame, preimage, ← frame, unframe_frame, unframe_frame] at hread
  exact Except.ok.inj hread

/-! ## Stores -/

namespace ObjectStore

variable {H : Type} [LinearOrder H] [Format H]

/-- After puts, a file holds what it held, or else the object that was put first under its hash. -/
theorem lookup_foldl_put (raws : List RawObject) (s : ObjectStore H) (h : H) :
    (raws.foldl put s).lookup h =
      (s.lookup h).or ((raws.find? fun raw => raw.hash H = h).map frame) := by
  induction raws generalizing s with
  | nil => simp
  | cons raw raws ih =>
    rw [List.foldl_cons, ih, lookup_put, List.find?_cons]
    by_cases heq : raw.hash H = h
    · subst heq
      simp only [decide_true, true_and, Option.map_some]
      cases hs : s.lookup (raw.hash H) with
      | some bytes =>
        have hmem : raw.hash H ∈ s := Finmap.mem_of_lookup_eq_some hs
        simp [hmem]
      | none =>
        have hmem : raw.hash H ∉ s := Finmap.lookup_eq_none.mp hs
        simp [hmem]
    · have hne : ¬ (h = raw.hash H ∧ raw.hash H ∉ s) := fun hc => heq hc.1.symm
      simp [heq, hne]

/-- What was put first under its hash is read back, whatever was put later. -/
theorem get_foldl_put {before after : List RawObject} {raw : RawObject}
    (hfirst : ∀ r ∈ before, r.hash H = raw.hash H → r = raw) :
    ((before ++ raw :: after).foldl put (∅ : ObjectStore H)).get (raw.hash H) = .ok raw := by
  have hfind : (before ++ raw :: after).find? (fun r => r.hash H = raw.hash H) = some raw := by
    induction before with
    | nil => simp
    | cons r before ih =>
      obtain ⟨hr, hbefore⟩ := List.forall_mem_cons.mp hfirst
      rw [List.cons_append, List.find?_cons]
      by_cases heq : r.hash H = raw.hash H
      · simp [hr heq]
      · simp [heq, ih hbefore]
  rw [get_eq_ok, lookup_foldl_put, hfind]
  simp

end ObjectStore

/-- The store that objects were put into, one after the other. -/
def storeOf (raws : List RawObject) : ObjectStore Hash :=
  letI := cborFormat lib blake3
  raws.foldl ObjectStore.put ∅

/-- Read an object of a type from the store. -/
def loadFrom (t : ObjectType) (s : ObjectStore Hash) (h : Hash) : Except Error t.Carrier :=
  letI := cborFormat lib blake3
  do
    let raw ← s.get h
    (t.decode lib raw).mapError .core

/-! ## The encoding -/

/-- **Encoding loses nothing and keeps kinds apart.** With a library that reads the values it
writes: an object of any of the four types is encoded, and decodes to itself; an object of another
kind is refused; different objects, also of different types, have different preimages. The frame of
an object is taken off again, an empty file and an unknown kind byte are refused, and an object that
was put into a store comes back, unless another one was there under its hash. -/
theorem encoding_lossless (lib : Ciborium) (h : lib.Reads) (blake3 : Bytes → Hash) :
    (∀ (t : ObjectType) (a : t.Carrier), t.shape.Fits a →
      ∃ raw, t.encode lib a = .ok raw ∧ t.decode lib raw = .ok a) ∧
    (∀ (t : ObjectType) (raw : RawObject), raw.kind ≠ t.KIND → ∃ e, t.decode lib raw = .error e) ∧
    (∀ (x y : Σ t : ObjectType, t.Carrier), x.1.shape.Fits x.2 → y.1.shape.Fits y.2 → x ≠ y →
      ∀ raw raw', x.1.encode lib x.2 = .ok raw → y.1.encode lib y.2 = .ok raw' →
        preimage raw ≠ preimage raw') ∧
    (∀ raw, unframe (frame raw) = .ok raw) ∧
    (∃ e, unframe [] = .error e) ∧
    (∀ b rest, (∀ k : ObjectKind, k.tag ≠ b) → ∃ e, unframe (b :: rest) = .error e) ∧
    (∀ (t : ObjectType) (a : t.Carrier) (raw : RawObject) (before after : List RawObject),
      t.shape.Fits a → t.encode lib a = .ok raw →
      (∀ r ∈ before, blake3 (preimage r) = blake3 (preimage raw) → r = raw) →
      loadFrom lib blake3 t (storeOf lib blake3 (before ++ raw :: after))
        (blake3 (preimage raw)) = .ok a) := by
  refine ⟨fun t a hfits => ?_, fun t raw hkind => ⟨_, ObjectType.decode_of_ne hkind⟩, ?_,
    unframe_frame, ⟨_, rfl⟩, fun b rest hb => ?_, ?_⟩
  · have hraw := ObjectType.encode_eq h.writes a
    exact ⟨_, hraw, ObjectType.decode_encode h hfits hraw⟩
  · rintro ⟨t, a⟩ ⟨t', a'⟩ hfits hfits' hne raw raw' hraw hraw' heq
    obtain rfl := preimage_injective heq
    -- the kind tells the type, and then the object is what the encoding decodes to
    have hkind := ObjectType.kind_of_encode h.writes hraw
    rw [ObjectType.kind_of_encode h.writes hraw'] at hkind
    obtain rfl := ObjectType.KIND_injective hkind
    have hread := ObjectType.decode_encode h hfits hraw
    rw [ObjectType.decode_encode h hfits' hraw'] at hread
    exact hne (congrArg (Sigma.mk _) (Except.ok.inj hread).symm)
  · cases hk : ObjectKind.fromTag b with
    | ok kind => exact absurd (tag_of_fromTag hk) (hb kind)
    | error e => exact ⟨.core e, by simp [unframe, hk, Except.mapError, Except.map]⟩
  · intro t a raw before after hfits hraw hfirst
    let _ := cborFormat lib blake3
    have hget : (storeOf lib blake3 (before ++ raw :: after)).get (blake3 (preimage raw)) = .ok raw :=
      ObjectStore.get_foldl_put hfirst
    rw [loadFrom, hget]
    simp only [bind, Except.bind, ObjectType.decode_encode h hfits hraw, Except.mapError]

/-- The hash of the empty blob. -/
def emptyBlobHash : Hash where
  bytes := [0x54, 0x2b, 0x1a, 0xd8, 0xf8, 0xd1, 0x11, 0x12, 0xb6, 0x89, 0xb6,
    0x1e, 0xdb, 0x6f, 0x59, 0x7f, 0xe9, 0xcd, 0xfd, 0x6a, 0xa8, 0x88,
    0xbe, 0x96, 0x54, 0x93, 0x8e, 0xb9, 0x13, 0x85, 0x59, 0x5c]
  length_bytes := rfl

/-- The empty blob comes back from a store that it was put into. -/
theorem encoding_emptyBlob :
    loadFrom ciborium (fun _ => emptyBlobHash) .blob
      (storeOf ciborium (fun _ => emptyBlobHash)
        [⟨.blob, [0xa1, 0x65, 0x62, 0x79, 0x74, 0x65, 0x73, 0x40]⟩]) emptyBlobHash =
      .ok (⟨[]⟩ : Blob) :=
  (encoding_lossless ciborium ciborium_reads fun _ => emptyBlobHash).2.2.2.2.2.2 .blob ⟨[]⟩ _ [] []
    trivial rfl (by simp)

end Tig
