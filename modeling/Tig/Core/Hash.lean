import Mathlib.Tactic.IntervalCases
import Tig.Core.Object
import Tig.Lib.Utf8

set_option relaxedAutoImplicit false
set_option autoImplicit false

/-!
# Hashes

A hash is 32 bytes. Its hexadecimal form has 64 digits, in lower case; the first two name the
directory of an object and the others its file.

## Main definitions

* `Tig.hexEncode`, `Tig.hexDecode` — bytes and their hexadecimal form.
* `Tig.Hash` with `toHex`, `fromHex`, `fanout`, `rest` — a hash, its form, and the two parts of it.

## Main results

* `Tig.hexDecode_hexEncode` — hexadecimal decodes to the bytes it was made of.
* `Tig.Hash.fromHex_toHex` — a hash is read back from its form.
* `Tig.Hash.exists_toHex` — 64 digits in lower case are the form of a hash.
* `Tig.Hash.toHex_eq` — the form of a hash is its two parts, one after the other.
-/

namespace Tig

/-! ## Hexadecimal -/

/-- Bytes in hexadecimal. -/
def hexEncode (bytes : Bytes) : String :=
  String.ofList (bytes.flatMap fun b =>
    [Nat.digitChar (b.toNat / 16), Nat.digitChar (b.toNat % 16)])

/-- A character of one byte the way `{:?}` prints it. -/
def debugChar (c : UInt8) : String :=
  let n := c.toNat
  if n = 0 then "'\\0'" else if n = 9 then "'\\t'" else if n = 10 then "'\\n'"
  else if n = 13 then "'\\r'" else if n = 39 then "'\\''" else if n = 92 then "'\\\\'"
  else if n < 32 ∨ (127 ≤ n ∧ n ≤ 160) ∨ n = 173 then
    "'\\u\x7b" ++ String.ofList (Nat.toDigits 16 n) ++ "\x7d'"
  else "'" ++ String.singleton (Char.ofNat n) ++ "'"

/-- The value of a hexadecimal digit, in either case. -/
def hexVal (c : UInt8) (idx : Nat) : Except String Nat :=
  if 65 ≤ c.toNat ∧ c.toNat ≤ 70 then .ok (c.toNat - 65 + 10)
  else if 97 ≤ c.toNat ∧ c.toNat ≤ 102 then .ok (c.toNat - 97 + 10)
  else if 48 ≤ c.toNat ∧ c.toNat ≤ 57 then .ok (c.toNat - 48)
  else .error ("Invalid character " ++ debugChar c ++ " at position " ++ toString idx)

/-- The bytes that pairs of digits stand for; `idx` counts the digits. -/
def hexPairs : (idx : Nat) → Bytes → Except String Bytes
  | idx, hi :: lo :: rest => do
    let h ← hexVal hi idx
    let l ← hexVal lo (idx + 1)
    let bytes ← hexPairs (idx + 2) rest
    .ok (UInt8.ofNat (16 * h + l) :: bytes)
  | _, _ => .ok []

/-- Bytes from hexadecimal. -/
def hexDecode (s : String) : Except String Bytes :=
  let hex := Utf8.encode s
  if hex.length % 2 ≠ 0 then .error "Odd number of digits" else hexPairs 0 hex

/-- The byte of a hexadecimal digit, as it is written. -/
def hexByte (n : Nat) : UInt8 := if n < 10 then UInt8.ofNat (48 + n) else UInt8.ofNat (87 + n)

theorem utf8EncodeChar_digitChar {n : Nat} (h : n < 16) :
    String.utf8EncodeChar (Nat.digitChar n) = [hexByte n] := by
  interval_cases n <;> decide

theorem hexVal_hexByte {n : Nat} (h : n < 16) (idx : Nat) : hexVal (hexByte n) idx = .ok n := by
  interval_cases n <;> rfl

/-- The digits of bytes, as they are written. -/
theorem encode_hexEncode (bytes : Bytes) : Utf8.encode (hexEncode bytes) =
    bytes.flatMap fun b => [hexByte (b.toNat / 16), hexByte (b.toNat % 16)] := by
  unfold Utf8.encode hexEncode
  rw [String.toList_ofList]
  induction bytes with
  | nil => rfl
  | cons b bytes ih =>
    have hhi : b.toNat / 16 < 16 := by
      have := b.toNat_lt
      omega
    have hlo : b.toNat % 16 < 16 := by omega
    simp [utf8EncodeChar_digitChar hhi, utf8EncodeChar_digitChar hlo, ih]

/-- **Hexadecimal decodes** to the bytes it was made of. -/
theorem hexDecode_hexEncode (bytes : Bytes) : hexDecode (hexEncode bytes) = .ok bytes := by
  have hpairs : ∀ (bytes : Bytes) (idx : Nat), hexPairs idx
      (bytes.flatMap fun b => [hexByte (b.toNat / 16), hexByte (b.toNat % 16)]) = .ok bytes := by
    intro bytes
    induction bytes with
    | nil => exact fun idx => rfl
    | cons b bytes ih =>
      intro idx
      have hhi : b.toNat / 16 < 16 := by
        have := b.toNat_lt
        omega
      have hlo : b.toNat % 16 < 16 := by omega
      have hbyte : UInt8.ofNat (16 * (b.toNat / 16) + b.toNat % 16) = b := by
        rw [Nat.div_add_mod, UInt8.ofNat_toNat]
      simp [hexPairs, hexVal_hexByte hhi, hexVal_hexByte hlo, ih, hbyte, bind, Except.bind]
  have heven : (bytes.flatMap fun b =>
      [hexByte (b.toNat / 16), hexByte (b.toNat % 16)]).length % 2 = 0 := by
    induction bytes with
    | nil => rfl
    | cons b bytes ih =>
      rw [List.flatMap_cons, List.length_append]
      simp only [List.length_cons, List.length_nil]
      omega
  rw [hexDecode, encode_hexEncode]
  simp only [heven, ne_eq, not_true_eq_false, if_false]
  exact hpairs bytes 0

/-- The digits of bytes. -/
theorem toList_hexEncode (bytes : Bytes) : (hexEncode bytes).toList =
    bytes.flatMap fun b => [Nat.digitChar (b.toNat / 16), Nat.digitChar (b.toNat % 16)] :=
  String.toList_ofList

theorem length_toList_hexEncode (bytes : Bytes) :
    (hexEncode bytes).toList.length = 2 * bytes.length := by
  rw [toList_hexEncode]
  induction bytes with
  | nil => rfl
  | cons b bytes ih =>
    rw [List.flatMap_cons, List.length_append, ih]
    simp only [List.length_cons, List.length_nil]
    omega

theorem hexEncode_append (bytes bytes' : Bytes) :
    hexEncode (bytes ++ bytes') = hexEncode bytes ++ hexEncode bytes' := by
  rw [← String.toList_inj, String.toList_append]
  simp [toList_hexEncode]

/-- A digit of a hexadecimal form, in lower case. -/
def IsHexDigit (c : Char) : Prop := ∃ n < 16, Nat.digitChar n = c

theorem isHexDigit_of_mem {bytes : Bytes} {c : Char} (h : c ∈ (hexEncode bytes).toList) :
    IsHexDigit c := by
  rw [toList_hexEncode, List.mem_flatMap] at h
  obtain ⟨b, -, hc⟩ := h
  have := b.toNat_lt
  rcases List.mem_pair.mp hc with rfl | rfl
  · exact ⟨b.toNat / 16, by omega, rfl⟩
  · exact ⟨b.toNat % 16, by omega, rfl⟩

/-- Digits in an even number are the form of bytes. -/
theorem exists_hexEncode {cs : List Char} (hdigits : ∀ c ∈ cs, IsHexDigit c) {n : Nat}
    (hlen : cs.length = 2 * n) :
    ∃ bytes : Bytes, (hexEncode bytes).toList = cs ∧ bytes.length = n := by
  induction n generalizing cs with
  | zero =>
    obtain rfl := List.length_eq_zero_iff.mp hlen
    exact ⟨[], rfl, rfl⟩
  | succ n ih =>
    match cs, hlen with
    | hi :: lo :: cs, hlen =>
      obtain ⟨hhi, hlo, hcs⟩ : IsHexDigit hi ∧ IsHexDigit lo ∧ ∀ c ∈ cs, IsHexDigit c := by
        simpa using hdigits
      obtain ⟨bytes, hbytes, hn⟩ := ih hcs (by simp only [List.length_cons] at hlen; omega)
      obtain ⟨i, hi16, rfl⟩ := hhi
      obtain ⟨j, hj16, rfl⟩ := hlo
      have hbyte : (UInt8.ofNat (16 * i + j)).toNat = 16 * i + j := by
        rw [UInt8.toNat_ofNat']
        omega
      refine ⟨UInt8.ofNat (16 * i + j) :: bytes, ?_, by rw [List.length_cons, hn]⟩
      rw [toList_hexEncode] at hbytes ⊢
      rw [List.flatMap_cons, hbytes, hbyte, Nat.mul_add_div (by decide),
        Nat.div_eq_of_lt hj16, Nat.add_zero, Nat.mul_add_mod, Nat.mod_eq_of_lt hj16]
      rfl

/-! ## Hashes -/

/-- A hash: 32 bytes. -/
@[ext]
structure Hash where
  bytes : Bytes
  length_bytes : bytes.length = 32
deriving DecidableEq

namespace Hash

/-- The hash of a kind-tagged payload; `blake3` hashes bytes. -/
def compute (blake3 : Bytes → Hash) (kind : ObjectKind) (payload : Bytes) : Hash :=
  blake3 (kind.tag :: payload)

def toHex (h : Hash) : String := hexEncode h.bytes

def fromHex (s : String) : Except CoreError Hash := do
  let bytes ← (hexDecode s).mapError .invalidHex
  if h : bytes.length = 32 then
    .ok ⟨bytes, h⟩
  else
    .error (.decode ("expected 32-byte hash, got " ++ toString bytes.length ++ " bytes"))

/-- The first two digits. -/
def fanout (h : Hash) : String := hexEncode (h.bytes.take 1)

/-- The other digits. -/
def rest (h : Hash) : String := hexEncode (h.bytes.drop 1)

theorem fromHex_toHex (h : Hash) : fromHex h.toHex = .ok h := by
  rw [fromHex, toHex, hexDecode_hexEncode]
  exact dif_pos h.length_bytes

theorem toHex_injective : Function.Injective toHex := by
  intro h h' heq
  have hread := congrArg fromHex heq
  rw [fromHex_toHex, fromHex_toHex] at hread
  exact Except.ok.inj hread

theorem toHex_eq (h : Hash) : h.toHex = h.fanout ++ h.rest := by
  rw [toHex, fanout, rest, ← hexEncode_append, List.take_append_drop]

theorem length_toHex (h : Hash) : h.toHex.toList.length = 64 := by
  rw [toHex, length_toList_hexEncode, h.length_bytes]

theorem length_fanout (h : Hash) : h.fanout.toList.length = 2 := by
  rw [fanout, length_toList_hexEncode, List.length_take, h.length_bytes]
  rfl

/-- 64 digits in lower case are the form of a hash. -/
theorem exists_toHex {s : String} (hdigits : ∀ c ∈ s.toList, IsHexDigit c)
    (hlen : s.toList.length = 64) : ∃ h : Hash, h.toHex = s := by
  obtain ⟨bytes, hbytes, hn⟩ := exists_hexEncode (n := 32) hdigits hlen
  exact ⟨⟨bytes, hn⟩, String.toList_inj.mp hbytes⟩

end Hash

end Tig
