import Mathlib.Data.List.Basic

set_option relaxedAutoImplicit false
set_option autoImplicit false

/-!
# UTF-8 over byte lists

Encoding, strict decoding, and the lossy decoding that puts a replacement character in place of
every maximal piece of an ill-formed sequence.

## Main definitions

* `Utf8.encode`, `Utf8.decode`, `Utf8.decodeLossy` — the three conversions.

## Main results

* `Utf8.decode_encode` — what was encoded is decoded.
* `Utf8.encode_of_decode` — what is decoded was encoded.
* `Utf8.decodeLossy_encode` — the lossy decoding loses nothing of what was encoded.
* `Utf8.encode_decodeLossy` — nor of anything, if it gives characters below 128 only.
-/

namespace Utf8

/-- The bytes of a string. -/
def encode (s : String) : List UInt8 := s.toList.flatMap String.utf8EncodeChar

/-- The string that bytes encode, if they are well-formed. -/
def decode (bytes : List UInt8) : Option String := String.fromUTF8? bytes.toByteArray

/-- What was encoded is decoded. -/
@[simp] theorem decode_encode (s : String) : decode (encode s) = some s := by
  have h : (encode s).toByteArray = s.toByteArray := String.utf8Encode_toList
  simp only [decode, String.fromUTF8?, h, s.isValidUTF8, dif_pos]
  rfl

/-- Different strings are encoded differently. -/
theorem encode_injective {a b : String} (h : encode a = encode b) : a = b := by
  have hdecode := congrArg decode h
  rw [decode_encode, decode_encode] at hdecode
  exact Option.some.inj hdecode

/-- Only its encoding is decoded to a string. -/
theorem encode_of_decode {bytes : List UInt8} {s : String} (h : decode bytes = some s) :
    bytes = encode s := by
  unfold decode String.fromUTF8? at h
  split_ifs at h with hv
  obtain rfl := Option.some.inj h
  have hbytes : (encode (String.fromUTF8 bytes.toByteArray hv)).toByteArray = bytes.toByteArray :=
    String.utf8Encode_toList
  have hdata := congrArg (fun a : ByteArray => a.data.toList) hbytes
  simpa using hdata.symm

/-- Is this a continuation byte? -/
def isCont (b : UInt8) : Bool := 0x80 ≤ b && b ≤ 0xBF

/-- The low six bits of a continuation byte. -/
def low (b : UInt8) : Nat := b.toNat % 64

/-- The number of continuation bytes that the first byte `b` asks for, and the range of the
first of them; `none` if no sequence starts with `b`. -/
def leadOf (b : UInt8) : Option (Nat × UInt8 × UInt8) :=
  if b < 0x80 then some (0, 0, 0)
  else if 0xC2 ≤ b && b ≤ 0xDF then some (1, 0x80, 0xBF)
  else if b = 0xE0 then some (2, 0xA0, 0xBF)
  else if b = 0xED then some (2, 0x80, 0x9F)
  else if 0xE1 ≤ b && b ≤ 0xEF then some (2, 0x80, 0xBF)
  else if b = 0xF0 then some (3, 0x90, 0xBF)
  else if 0xF1 ≤ b && b ≤ 0xF3 then some (3, 0x80, 0xBF)
  else if b = 0xF4 then some (3, 0x80, 0x8F)
  else none

/-- Read one sequence that starts with `b`: the character, or the replacement character, and
the number of further bytes it takes up. -/
def readOne (b : UInt8) (rest : List UInt8) : Char × Nat :=
  let bad : Char := '\uFFFD'
  match leadOf b with
  | none => (bad, 0)
  | some (0, _, _) => (Char.ofNat b.toNat, 0)
  | some (n, lo, hi) =>
    match rest with
    | [] => (bad, 0)
    | b₁ :: rest₁ =>
      if ¬ (lo ≤ b₁ ∧ b₁ ≤ hi) then (bad, 0)
      else if n = 1 then (Char.ofNat ((b.toNat % 32) * 64 + low b₁), 1)
      else match rest₁ with
        | [] => (bad, 1)
        | b₂ :: rest₂ =>
          if !isCont b₂ then (bad, 1)
          else if n = 2 then
            (Char.ofNat (((b.toNat % 16) * 64 + low b₁) * 64 + low b₂), 2)
          else match rest₂ with
            | [] => (bad, 2)
            | b₃ :: _ =>
              if !isCont b₃ then (bad, 2)
              else
                (Char.ofNat ((((b.toNat % 8) * 64 + low b₁) * 64 + low b₂) * 64 + low b₃), 3)

/-- Decode the sequences one after the other, first leaving out `skip` bytes. -/
def charsLossy (skip : Nat) : List UInt8 → List Char
  | [] => []
  | b :: rest =>
    match skip with
    | skip + 1 => charsLossy skip rest
    | 0 => (readOne b rest).1 :: charsLossy (readOne b rest).2 rest

/-- The string that bytes encode, with replacement characters for what is ill-formed. -/
def decodeLossy (bytes : List UInt8) : String := String.ofList (charsLossy 0 bytes)

/-! ## What was encoded is read -/

section Read

variable {b b₁ b₂ b₃ lo hi : UInt8} (rest : List UInt8)

theorem readOne_one (h : leadOf b = some (0, lo, hi)) :
    readOne b rest = (Char.ofNat b.toNat, 0) := by
  rw [readOne, h]
  rfl

theorem readOne_two (h : leadOf b = some (1, lo, hi)) (h₁ : lo ≤ b₁ ∧ b₁ ≤ hi) :
    readOne b (b₁ :: rest) = (Char.ofNat ((b.toNat % 32) * 64 + low b₁), 1) := by
  rw [readOne, h]
  simp only [not_not.mpr h₁, if_true, if_false]

theorem readOne_three (h : leadOf b = some (2, lo, hi)) (h₁ : lo ≤ b₁ ∧ b₁ ≤ hi)
    (h₂ : isCont b₂ = true) :
    readOne b (b₁ :: b₂ :: rest) =
      (Char.ofNat (((b.toNat % 16) * 64 + low b₁) * 64 + low b₂), 2) := by
  rw [readOne, h]
  simp [h₁, h₂]

theorem readOne_four (h : leadOf b = some (3, lo, hi)) (h₁ : lo ≤ b₁ ∧ b₁ ≤ hi)
    (h₂ : isCont b₂ = true) (h₃ : isCont b₃ = true) :
    readOne b (b₁ :: b₂ :: b₃ :: rest) =
      (Char.ofNat ((((b.toNat % 8) * 64 + low b₁) * 64 + low b₂) * 64 + low b₃), 3) := by
  rw [readOne, h]
  simp [h₁, h₂, h₃]

end Read

/-- What the first byte asks for, by its number. -/
theorem leadOf_eq (b : UInt8) : leadOf b =
    if b.toNat < 0x80 then some (0, 0, 0)
    else if 0xC2 ≤ b.toNat ∧ b.toNat ≤ 0xDF then some (1, 0x80, 0xBF)
    else if b.toNat = 0xE0 then some (2, 0xA0, 0xBF)
    else if b.toNat = 0xED then some (2, 0x80, 0x9F)
    else if 0xE1 ≤ b.toNat ∧ b.toNat ≤ 0xEF then some (2, 0x80, 0xBF)
    else if b.toNat = 0xF0 then some (3, 0x90, 0xBF)
    else if 0xF1 ≤ b.toNat ∧ b.toNat ≤ 0xF3 then some (3, 0x80, 0xBF)
    else if b.toNat = 0xF4 then some (3, 0x80, 0x8F)
    else none := by
  simp only [leadOf, UInt8.lt_iff_toNat_lt, UInt8.le_iff_toNat_le, ← UInt8.toNat_inj,
    Bool.and_eq_true, decide_eq_true_eq]
  rfl

/-- The byte of a number below 256. -/
theorem toNat_byte {n : Nat} (h : n < 256) : (UInt8.ofNat n).toNat = n := by
  rw [UInt8.toNat_ofNat']
  exact Nat.mod_eq_of_lt h

theorem isCont_byte {n : Nat} (h : n < 64) : isCont (UInt8.ofNat (n + 0x80)) = true := by
  have hb : (UInt8.ofNat (n + 0x80)).toNat = n + 0x80 := toNat_byte (by omega)
  have h1 : (0x80 : UInt8).toNat = 0x80 := rfl
  have h2 : (0xBF : UInt8).toNat = 0xBF := rfl
  simp only [isCont, UInt8.le_iff_toNat_le, Bool.and_eq_true, decide_eq_true_eq, hb, h1, h2]
  omega

theorem low_byte {n : Nat} (h : n < 64) : low (UInt8.ofNat (n + 0x80)) = n := by
  rw [low, toNat_byte (by omega)]
  omega

theorem between_byte {lo hi : UInt8} {n : Nat} (hn : n < 256) (hlo : lo.toNat ≤ n)
    (hhi : n ≤ hi.toNat) : lo ≤ UInt8.ofNat n ∧ UInt8.ofNat n ≤ hi := by
  rw [UInt8.le_iff_toNat_le, UInt8.le_iff_toNat_le, toNat_byte hn]
  exact ⟨hlo, hhi⟩

/-- The encoding of a character is read as that character.

**Proof sketch.** There are one to four bytes. The first one gives away how many follow and the
range of the second, which leaves out overlong forms and surrogates; a character is neither. The
low bits of the bytes add up to the number of the character. -/
theorem readOne_char (c : Char) (rest : List UInt8) :
    ∃ b tail, String.utf8EncodeChar c = b :: tail ∧
      readOne b (tail ++ rest) = (c, tail.length) := by
  have hv : c.toNat < 0xD800 ∨ 0xDFFF < c.toNat ∧ c.toNat < 0x110000 := c.valid
  have hc : Char.ofNat c.toNat = c := Char.ofNat_toNat c
  unfold String.utf8EncodeChar
  have hval : c.val.toNat = c.toNat := rfl
  rw [hval]
  dsimp only
  generalize c.toNat = v at hv hc
  split_ifs with h1 h2 h3
  · refine ⟨_, _, rfl, ?_⟩
    have hb : (UInt8.ofNat v).toNat = v := toNat_byte (by omega)
    have hlead : leadOf (UInt8.ofNat v) = some (0, 0, 0) := by
      rw [leadOf_eq, hb, if_pos (by omega)]
    rw [readOne_one _ hlead, hb, hc]
    rfl
  · refine ⟨_, _, rfl, ?_⟩
    have hb : (UInt8.ofNat (v / 64 % 32 + 192)).toNat = v / 64 % 32 + 192 := toNat_byte (by omega)
    have hlead : leadOf (UInt8.ofNat (v / 64 % 32 + 192)) = some (1, 0x80, 0xBF) := by
      rw [leadOf_eq, hb, if_neg (by omega), if_pos (by omega)]
    have hnext := @between_byte 0x80 0xBF (v % 64 + 128) (by omega)
      (by show 128 ≤ _; omega) (by show _ ≤ 191; omega)
    rw [List.cons_append, readOne_two _ hlead hnext, hb, low_byte (by omega)]
    have hsum : (v / 64 % 32 + 192) % 32 * 64 + v % 64 = v := by omega
    rw [hsum, hc]
    rfl
  · refine ⟨_, _, rfl, ?_⟩
    have hb : (UInt8.ofNat (v / 4096 % 16 + 224)).toNat = v / 4096 % 16 + 224 :=
      toNat_byte (by omega)
    have hlead : ∃ lo hi : UInt8, leadOf (UInt8.ofNat (v / 4096 % 16 + 224)) = some (2, lo, hi) ∧
        lo.toNat ≤ v / 64 % 64 + 128 ∧ v / 64 % 64 + 128 ≤ hi.toNat := by
      rw [leadOf_eq, hb, if_neg (by omega), if_neg (by omega)]
      split_ifs with h4 h5 h6
      · exact ⟨_, _, rfl, by show 160 ≤ _; omega, by show _ ≤ 191; omega⟩
      · exact ⟨_, _, rfl, by show 128 ≤ _; omega, by show _ ≤ 159; omega⟩
      · exact ⟨_, _, rfl, by show 128 ≤ _; omega, by show _ ≤ 191; omega⟩
      all_goals omega
    obtain ⟨lo, hi, hlead, hlo, hhi⟩ := hlead
    rw [List.cons_append, List.cons_append, readOne_three _ hlead
      (between_byte (by omega) hlo hhi) (isCont_byte (by omega)), hb, low_byte (by omega),
      low_byte (by omega)]
    have hsum : ((v / 4096 % 16 + 224) % 16 * 64 + v / 64 % 64) * 64 + v % 64 = v := by omega
    rw [hsum, hc]
    rfl
  · refine ⟨_, _, rfl, ?_⟩
    have hb : (UInt8.ofNat (v / 262144 % 8 + 240)).toNat = v / 262144 % 8 + 240 :=
      toNat_byte (by omega)
    have hlead : ∃ lo hi : UInt8, leadOf (UInt8.ofNat (v / 262144 % 8 + 240)) = some (3, lo, hi) ∧
        lo.toNat ≤ v / 4096 % 64 + 128 ∧ v / 4096 % 64 + 128 ≤ hi.toNat := by
      rw [leadOf_eq, hb, if_neg (by omega), if_neg (by omega), if_neg (by omega),
        if_neg (by omega), if_neg (by omega)]
      split_ifs with h4 h5 h6
      · exact ⟨_, _, rfl, by show 144 ≤ _; omega, by show _ ≤ 191; omega⟩
      · exact ⟨_, _, rfl, by show 128 ≤ _; omega, by show _ ≤ 191; omega⟩
      · exact ⟨_, _, rfl, by show 128 ≤ _; omega, by show _ ≤ 143; omega⟩
      all_goals omega
    obtain ⟨lo, hi, hlead, hlo, hhi⟩ := hlead
    rw [List.cons_append, List.cons_append, List.cons_append, readOne_four _ hlead
      (between_byte (by omega) hlo hhi) (isCont_byte (by omega)) (isCont_byte (by omega)), hb,
      low_byte (by omega), low_byte (by omega), low_byte (by omega)]
    have hsum : (((v / 262144 % 8 + 240) % 8 * 64 + v / 4096 % 64) * 64 + v / 64 % 64) * 64 +
        v % 64 = v := by omega
    rw [hsum, hc]
    rfl

theorem charsLossy_skip (bytes rest : List UInt8) :
    charsLossy bytes.length (bytes ++ rest) = charsLossy 0 rest := by
  induction bytes with
  | nil => rfl
  | cons b bytes ih => rw [List.length_cons, List.cons_append, charsLossy, ih]

/-- **What was encoded is decoded**, by the lossy decoding too. -/
@[simp] theorem decodeLossy_encode (s : String) : decodeLossy (encode s) = s := by
  have h : ∀ cs : List Char, charsLossy 0 (cs.flatMap String.utf8EncodeChar) = cs := by
    intro cs
    induction cs with
    | nil => rfl
    | cons c cs ih =>
      obtain ⟨b, tail, hc, hread⟩ := readOne_char c (cs.flatMap String.utf8EncodeChar)
      rw [List.flatMap_cons, hc, List.cons_append, charsLossy, hread, charsLossy_skip, ih]
  rw [decodeLossy, encode, h, String.ofList_toList]

example : decodeLossy [0x61, 0xC3, 0xA9, 0xE2, 0x82, 0x62, 0xFF] = "aé\uFFFDb\uFFFD" := by decide

/-! ## Bytes of one character -/

/-- A byte below 128 in the encoding of a character is the character. -/
theorem toNat_of_mem_utf8EncodeChar {c : Char} {b : UInt8} (h : b ∈ String.utf8EncodeChar c)
    (hb : b.toNat < 128) : c.toNat = b.toNat := by
  have hval : c.val.toNat = c.toNat := rfl
  unfold String.utf8EncodeChar at h
  rw [hval] at h
  dsimp only at h
  generalize c.toNat = v at h ⊢
  split_ifs at h with h1 h2 h3
  all_goals
    simp only [List.mem_cons, List.not_mem_nil, or_false] at h
  · rw [h, toNat_byte (by omega)]
  · rcases h with rfl | rfl <;> rw [toNat_byte (by omega)] at hb <;> omega
  · rcases h with rfl | rfl | rfl <;> rw [toNat_byte (by omega)] at hb <;> omega
  · rcases h with rfl | rfl | rfl | rfl <;> rw [toNat_byte (by omega)] at hb <;> omega

/-- A byte below 128 in the encoding of a string is one of its characters. -/
theorem mem_toList_of_mem_encode {s : String} {c : Char} (hc : c.toNat < 128)
    (h : UInt8.ofNat c.toNat ∈ encode s) : c ∈ s.toList := by
  obtain ⟨c', hc', hmem⟩ := List.mem_flatMap.mp h
  have hbyte : (UInt8.ofNat c.toNat).toNat = c.toNat := toNat_byte (by omega)
  have hnat := toNat_of_mem_utf8EncodeChar hmem (by rw [hbyte]; exact hc)
  rw [hbyte] at hnat
  have hsame : c' = c := by
    rw [← Char.ofNat_toNat c', hnat, Char.ofNat_toNat]
  rwa [hsame] at hc'

/-! ## Text without characters from 128 on -/

/-- The character of a number from 128 on is not below 128. -/
theorem le_toNat_ofNat {n : Nat} (hn : 128 ≤ n) (hv : n < 0xD800 ∨ 0xDFFF < n ∧ n < 0x110000) :
    128 ≤ (Char.ofNat n).toNat := by
  have hvalid : n.isValidChar := hv
  unfold Char.ofNat
  rw [dif_pos hvalid]
  exact hn

/-- Where sequences of more than one byte start, and what their second byte is. -/
theorem leadOf_range {b lo hi : UInt8} {n : Nat} (h : leadOf b = some (n, lo, hi)) :
    n = 0 ∧ b.toNat < 0x80 ∨ n = 1 ∧ 0xC2 ≤ b.toNat ∧ b.toNat ≤ 0xDF ∨
      n = 2 ∧ hi.toNat ≤ 0xBF ∧ (b.toNat = 0xE0 ∧ 0xA0 ≤ lo.toNat ∨
        b.toNat = 0xED ∧ 0x80 ≤ lo.toNat ∧ hi.toNat ≤ 0x9F ∨
        0xE1 ≤ b.toNat ∧ b.toNat ≤ 0xEF ∧ b.toNat ≠ 0xED ∧ 0x80 ≤ lo.toNat) ∨
      n = 3 ∧ hi.toNat ≤ 0xBF ∧ (b.toNat = 0xF0 ∧ 0x90 ≤ lo.toNat ∨
        0xF1 ≤ b.toNat ∧ b.toNat ≤ 0xF3 ∧ 0x80 ≤ lo.toNat ∨
        b.toNat = 0xF4 ∧ 0x80 ≤ lo.toNat ∧ hi.toNat ≤ 0x8F) := by
  rw [leadOf_eq] at h
  split_ifs at h <;> cases h <;> simp <;> omega

/-- Only a byte below 128 is read as a character below 128. -/
theorem readOne_below {b : UInt8} {rest : List UInt8} (h : (readOne b rest).1.toNat < 128) :
    b.toNat < 128 := by
  have hbad : ¬ ('\uFFFD' : Char).toNat < 128 := by decide
  have hlow : ∀ b : UInt8, low b < 64 := fun b => Nat.mod_lt _ (by omega)
  unfold readOne at h
  dsimp only at h
  split at h
  · exact absurd h hbad
  · rename_i hlead
    rcases leadOf_range hlead with ⟨-, hb⟩ | ⟨hn, -⟩ | ⟨hn, -⟩ | ⟨hn, -⟩
    · exact hb
    all_goals cases hn
  · rename_i n lo hi hn0 hlead
    by_contra hb
    have hrange := leadOf_range hlead
    clear hlead hn0
    have hchar : ∀ {v : Nat}, (Char.ofNat v).toNat < 128 → 128 ≤ v →
        (v < 0xD800 ∨ 0xDFFF < v ∧ v < 0x110000) → False := fun hv hn hvalid =>
      absurd (le_toNat_ofNat hn hvalid) (by omega)
    cases rest with
    | nil => exact hbad h
    | cons b₁ rest =>
      have hlow₁ : low b₁ = b₁.toNat % 64 := rfl
      dsimp only at h
      by_cases hbetween : lo ≤ b₁ ∧ b₁ ≤ hi
      swap
      · rw [if_pos hbetween] at h
        exact hbad h
      rw [if_neg (not_not.mpr hbetween)] at h
      rw [UInt8.le_iff_toNat_le, UInt8.le_iff_toNat_le] at hbetween
      by_cases hn : n = 1
      · rw [if_pos hn] at h
        exact hchar h (by omega) (by omega)
      rw [if_neg hn] at h
      cases rest with
      | nil => exact hbad h
      | cons b₂ rest =>
        have hlow₂ := hlow b₂
        dsimp only at h
        split_ifs at h with hcont hn'
        · exact hbad h
        · exact hchar h (by omega) (by omega)
        · cases rest with
          | nil => exact hbad h
          | cons b₃ rest =>
            have hlow₃ := hlow b₃
            dsimp only at h
            split_ifs at h with hcont'
            · exact hbad h
            · exact hchar h (by omega) (by omega)

/-- What is read as a character below 128 is that character alone. -/
theorem readOne_eq_of_below {b : UInt8} {rest : List UInt8} (h : (readOne b rest).1.toNat < 128) :
    readOne b rest = (Char.ofNat b.toNat, 0) := by
  have hlead : leadOf b = some (0, 0, 0) := by rw [leadOf_eq, if_pos (readOne_below h)]
  exact readOne_one rest hlead

/-- Bytes that are read as characters below 128 are those characters. -/
theorem encode_decodeLossy {bytes : List UInt8}
    (h : ∀ c ∈ (decodeLossy bytes).toList, c.toNat < 128) : encode (decodeLossy bytes) = bytes := by
  unfold encode decodeLossy at *
  rw [String.toList_ofList] at h ⊢
  induction bytes with
  | nil => rfl
  | cons b rest ih =>
    rw [charsLossy] at h ⊢
    have hhead := h _ List.mem_cons_self
    have hb := readOne_below hhead
    rw [readOne_eq_of_below hhead] at h ⊢
    rw [List.flatMap_cons, ih fun c hc => h c (List.mem_cons_of_mem _ hc)]
    have hchar : (Char.ofNat b.toNat).val.toNat = b.toNat := by
      have hvalid : b.toNat.isValidChar := Or.inl (by omega)
      unfold Char.ofNat
      rw [dif_pos hvalid]
      rfl
    unfold String.utf8EncodeChar
    dsimp only
    rw [hchar, if_pos (by omega), UInt8.ofNat_toNat]
    rfl
end Utf8
