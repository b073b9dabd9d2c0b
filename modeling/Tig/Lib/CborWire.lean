import Tig.Lib.Cbor
import Tig.Lib.Framing
import Tig.Lib.Utf8

set_option relaxedAutoImplicit false
set_option autoImplicit false

/-!
# CBOR on the wire

A writer of CBOR values, with definite lengths and the shortest heads, and a reader that takes back
what was written from the front of any longer string of bytes. A floating-point number is always
written in its double form.

Lists in Lean can be longer than a head can say; the reserved additional information 28 stands for
such a length, so that the writer is defined everywhere.

## Main definitions

* `Cbor.head`, `Cbor.write` — the head of an item, and a value.
* `Cbor.readOne`, `Cbor.read` — the reader; its fuel bounds the number of items and list cells.

## Main results

* `Cbor.readBack` — the reader takes back what was written.
* `Cbor.write_injective` — different values are written differently.
-/

namespace Cbor

open Framing

/-! ## Heads -/

/-- The head of an item of a major type: the argument is in the first byte or in 1, 2, 4 or 8
bytes after it. -/
def head (major arg : Nat) : List UInt8 :=
  if arg < 24 then [UInt8.ofNat (32 * major + arg)]
  else if arg < 256 ^ 1 then UInt8.ofNat (32 * major + 24) :: toBytesBE 1 arg
  else if arg < 256 ^ 2 then UInt8.ofNat (32 * major + 25) :: toBytesBE 2 arg
  else if arg < 256 ^ 4 then UInt8.ofNat (32 * major + 26) :: toBytesBE 4 arg
  else if arg < 256 ^ 8 then UInt8.ofNat (32 * major + 27) :: toBytesBE 8 arg
  else UInt8.ofNat (32 * major + 28) :: (List.replicate arg 1 ++ [0])

/-- The first `n` bytes and the bytes after them, if there are as many. -/
def takeExact (n : Nat) (bytes : List UInt8) : Option (List UInt8 × List UInt8) :=
  if bytes.length < n then none else some (bytes.take n, bytes.drop n)

/-- Read a number that is written as that many ones. -/
def readOnes : List UInt8 → Option (Nat × List UInt8)
  | [] => none
  | b :: bytes => if b = 0 then some (0, bytes) else (readOnes bytes).map (Prod.map (· + 1) id)

/-- Read an argument; `info` is the additional information of the first byte. -/
def readArg (info : Nat) (bytes : List UInt8) : Option (Nat × List UInt8) :=
  if info < 24 then some (info, bytes)
  else if info < 28 then (takeExact (2 ^ (info - 24)) bytes).map (Prod.map fromBytesBE id)
  else if info = 28 then readOnes bytes
  else none

theorem takeExact_append (bytes rest : List UInt8) :
    takeExact bytes.length (bytes ++ rest) = some (bytes, rest) := by
  have hle : ¬ (bytes ++ rest).length < bytes.length := by simp
  rw [takeExact, if_neg hle, List.take_left, List.drop_left]

theorem readOnes_replicate (n : Nat) (rest : List UInt8) :
    readOnes (List.replicate n 1 ++ 0 :: rest) = some (n, rest) := by
  induction n with
  | zero => rfl
  | succ n ih => rw [List.replicate_succ, List.cons_append, readOnes, ih]; rfl

/-- The first byte of a head. -/
theorem toNat_first {major info : Nat} (hmajor : major < 8) (hinfo : info < 32) :
    (UInt8.ofNat (32 * major + info)).toNat = 32 * major + info := by
  rw [UInt8.toNat_ofNat']
  omega

/-- A head starts with a byte that holds the major type, and the argument is read from the rest. -/
theorem head_spec {major : Nat} (hmajor : major < 8) (arg : Nat) (rest : List UInt8) :
    ∃ b bytes, head major arg ++ rest = b :: bytes ∧ b.toNat / 32 = major ∧
      readArg (b.toNat % 32) bytes = some (arg, rest) := by
  have fixed : ∀ {info : Nat} (width : Nat), 24 ≤ info → info < 28 → 2 ^ (info - 24) = width →
      arg < 256 ^ width → ∃ b bytes,
        (UInt8.ofNat (32 * major + info) :: toBytesBE width arg) ++ rest = b :: bytes ∧
          b.toNat / 32 = major ∧ readArg (b.toNat % 32) bytes = some (arg, rest) := by
    intro info width hge hlt hwidth harg
    refine ⟨_, _, List.cons_append, ?_⟩
    have htake := takeExact_append (toBytesBE width arg) rest
    rw [length_toBytesBE] at htake
    rw [toNat_first hmajor (by omega), Nat.mul_add_div (by omega), Nat.mul_add_mod,
      Nat.mod_eq_of_lt (by omega : info < 32), readArg, if_neg (by omega), if_pos hlt, hwidth,
      htake]
    refine ⟨by omega, ?_⟩
    rw [Option.map_some, Prod.map, fromBytesBE_toBytesBE harg, id]
  unfold head
  split_ifs with h h₁ h₂ h₄ h₈
  · refine ⟨_, _, rfl, ?_⟩
    rw [toNat_first hmajor (by omega)]
    refine ⟨by omega, ?_⟩
    rw [Nat.mul_add_mod, Nat.mod_eq_of_lt (by omega : arg < 32), readArg, if_pos h]
    rfl
  · exact fixed 1 (by omega) (by omega) rfl h₁
  · exact fixed 2 (by omega) (by omega) rfl h₂
  · exact fixed 4 (by omega) (by omega) rfl h₄
  · exact fixed 8 (by omega) (by omega) rfl h₈
  · refine ⟨_, _, List.cons_append, ?_⟩
    rw [toNat_first hmajor (by omega)]
    refine ⟨by omega, ?_⟩
    rw [Nat.mul_add_mod, readArg, if_neg (by omega), if_neg (by omega), if_pos rfl,
      List.append_assoc]
    exact readOnes_replicate arg rest

/-! ## Values -/

mutual

/-- The bytes of a value. -/
def write : Value → List UInt8
  | .integer n => if 0 ≤ n.1 then head 0 n.1.toNat else head 1 (-1 - n.1).toNat
  | .bytes content => head 2 content.length ++ content
  | .text content => head 3 (Utf8.encode content).length ++ Utf8.encode content
  | .array elems => head 4 elems.length ++ writeElems elems
  | .map entries => head 5 entries.length ++ writeEntries entries
  | .tag number inner => head 6 number.toNat ++ write inner
  | .bool false => [0xf4]
  | .bool true => [0xf5]
  | .null => [0xf6]
  | .float bits => 0xfb :: toBytesBE 8 bits.toNat

def writeElems : List Value → List UInt8
  | [] => []
  | v :: vs => write v ++ writeElems vs

def writeEntries : List (Value × Value) → List UInt8
  | [] => []
  | (k, v) :: es => write k ++ write v ++ writeEntries es

end

/-- An integer in range. -/
def toInteger (n : Int) : Option Integer := if h : -2 ^ 64 ≤ n ∧ n < 2 ^ 64 then some ⟨n, h⟩ else none

/-- Read the rest of an item after its head, with the readers of its parts. -/
def readRest (one : List UInt8 → Option (Value × List UInt8))
    (elems : Nat → List UInt8 → Option (List Value × List UInt8))
    (entries : Nat → List UInt8 → Option (List (Value × Value) × List UInt8))
    (major arg : Nat) (bytes : List UInt8) : Option (Value × List UInt8) :=
  match major with
  | 0 => (toInteger arg).map fun n => (.integer n, bytes)
  | 1 => (toInteger (-1 - arg)).map fun n => (.integer n, bytes)
  | 2 => (takeExact arg bytes).map fun (content, rest) => (.bytes content, rest)
  | 3 => do
    let (content, rest) ← takeExact arg bytes
    let s ← Utf8.decode content
    some (.text s, rest)
  | 4 => (elems arg bytes).map fun (vs, rest) => (.array vs, rest)
  | 5 => (entries arg bytes).map fun (es, rest) => (.map es, rest)
  | 6 => (one bytes).map fun (inner, rest) => (.tag (UInt64.ofNat arg) inner, rest)
  | _ => none

mutual

/-- Read one value from the front of the bytes. -/
def readOne : (fuel : Nat) → List UInt8 → Option (Value × List UInt8)
  | 0, _ => none
  | _, [] => none
  | fuel + 1, b :: bytes =>
    if b = 0xf4 then some (.bool false, bytes)
    else if b = 0xf5 then some (.bool true, bytes)
    else if b = 0xf6 then some (.null, bytes)
    else if b = 0xfb then
      (takeExact 8 bytes).map fun (bits, rest) => (.float (UInt64.ofNat (fromBytesBE bits)), rest)
    else do
      let (arg, rest) ← readArg (b.toNat % 32) bytes
      readRest (readOne fuel) (readElems fuel) (readEntries fuel) (b.toNat / 32) arg rest

def readElems : (fuel count : Nat) → List UInt8 → Option (List Value × List UInt8)
  | 0, _, _ => none
  | _, 0, bytes => some ([], bytes)
  | fuel + 1, count + 1, bytes => do
    let (v, bytes) ← readOne fuel bytes
    let (vs, bytes) ← readElems fuel count bytes
    some (v :: vs, bytes)

def readEntries : (fuel count : Nat) → List UInt8 → Option (List (Value × Value) × List UInt8)
  | 0, _, _ => none
  | _, 0, bytes => some ([], bytes)
  | fuel + 1, count + 1, bytes => do
    let (k, bytes) ← readOne fuel bytes
    let (v, bytes) ← readOne fuel bytes
    let (es, bytes) ← readEntries fuel count bytes
    some ((k, v) :: es, bytes)

end

/-! ## What was written is read -/

theorem length_head_pos (major arg : Nat) : 0 < (head major arg).length := by
  unfold head
  split_ifs <;> simp

theorem length_write_pos (v : Value) : 0 < (write v).length := by
  have := length_head_pos
  cases v with
  | integer n => rw [write]; split_ifs <;> apply this
  | bool b => cases b <;> simp [write]
  | null => simp [write]
  | float bits => simp [write]
  | _ =>
    rw [write, List.length_append]
    exact Nat.add_pos_left (this _ _) _

theorem toInteger_val (n : Integer) : toInteger n.1 = some n := dif_pos n.2

/-- After a head the rest of the item is read. -/
theorem readOne_head {major : Nat} (hmajor : major < 7) (fuel arg : Nat) (rest : List UInt8) :
    readOne (fuel + 1) (head major arg ++ rest) =
      readRest (readOne fuel) (readElems fuel) (readEntries fuel) major arg rest := by
  obtain ⟨b, bytes, heq, hb, harg⟩ := head_spec (by omega : major < 8) arg rest
  have hlt : b.toNat < 224 := by omega
  have hne : ∀ c : UInt8, 224 ≤ c.toNat → b ≠ c := by
    rintro c hc rfl
    omega
  rw [heq, readOne, if_neg (hne _ (by decide)), if_neg (hne _ (by decide)),
    if_neg (hne _ (by decide)), if_neg (hne _ (by decide)), harg, hb]
  rfl

/-- The reader takes back a value, with fuel for every byte. -/
def ReadBack (v : Value) : Prop :=
  ∀ (fuel : Nat) (rest : List UInt8), 2 * (write v).length ≤ fuel →
    readOne fuel (write v ++ rest) = some (v, rest)

/-- What is written has a byte, so there is fuel to read it. -/
theorem readBack_of_succ {v : Value} (h : ∀ (fuel : Nat) (rest : List UInt8),
    2 * (write v).length ≤ fuel + 1 → readOne (fuel + 1) (write v ++ rest) = some (v, rest)) :
    ReadBack v := by
  intro fuel rest hfuel
  have hpos := length_write_pos v
  obtain ⟨fuel, rfl⟩ : ∃ n, fuel = n + 1 := ⟨fuel - 1, by omega⟩
  exact h fuel rest hfuel

/-- The elements of an array are read back, given that each is. -/
theorem readElems_write {elems : List Value} (ih : ∀ v ∈ elems, ReadBack v) {fuel : Nat}
    (rest : List UInt8) (hfuel : 2 * (writeElems elems).length < fuel) :
    readElems fuel elems.length (writeElems elems ++ rest) = some (elems, rest) := by
  induction elems generalizing fuel with
  | nil => obtain ⟨fuel, rfl⟩ := Nat.exists_eq_add_of_lt hfuel; rfl
  | cons v vs ihvs =>
    obtain ⟨hv, hvs⟩ := List.forall_mem_cons.mp ih
    obtain ⟨fuel, rfl⟩ : ∃ n, fuel = n + 1 := ⟨fuel - 1, by omega⟩
    have hpos := length_write_pos v
    rw [writeElems, List.length_append] at hfuel
    rw [writeElems, List.append_assoc, List.length_cons, readElems, hv fuel _ (by omega)]
    simp [@ihvs hvs fuel (by omega)]

/-- The entries of a map are read back, given that each key and each value is. -/
theorem readEntries_write {entries : List (Value × Value)}
    (ih : ∀ e ∈ entries, ReadBack e.1 ∧ ReadBack e.2) {fuel : Nat} (rest : List UInt8)
    (hfuel : 2 * (writeEntries entries).length < fuel) :
    readEntries fuel entries.length (writeEntries entries ++ rest) = some (entries, rest) := by
  induction entries generalizing fuel with
  | nil => obtain ⟨fuel, rfl⟩ := Nat.exists_eq_add_of_lt hfuel; rfl
  | cons e es ihes =>
    obtain ⟨⟨hk, hv⟩, hes⟩ := List.forall_mem_cons.mp ih
    obtain ⟨fuel, rfl⟩ : ∃ n, fuel = n + 1 := ⟨fuel - 1, by omega⟩
    have hposk := length_write_pos e.1
    rw [writeEntries, List.length_append, List.length_append] at hfuel
    rw [writeEntries, List.append_assoc, List.append_assoc, List.length_cons, readEntries,
      hk fuel _ (by omega)]
    simp [hv fuel _ (by omega), @ihes hes fuel (by omega)]

/-- **The reader takes back what was written.** The induction is on the value: the parts of an item
are shorter than the item by its head. -/
theorem readBack (v : Value) : ReadBack v := by
  induction v with
  | integer n =>
    refine readBack_of_succ fun fuel rest _ => ?_
    rw [write]
    split_ifs with hn
    · rw [readOne_head (by decide), readRest, Int.toNat_of_nonneg hn, toInteger_val]
      rfl
    · have harg : -1 - ((-1 - n.1).toNat : Int) = n.1 := by omega
      rw [readOne_head (by decide), readRest, harg, toInteger_val]
      rfl
  | bytes content =>
    refine readBack_of_succ fun fuel rest _ => ?_
    rw [write, List.append_assoc, readOne_head (by decide), readRest, takeExact_append]
    rfl
  | float bits =>
    refine readBack_of_succ fun fuel rest _ => ?_
    have hlt : bits.toNat < 256 ^ 8 := bits.toNat_lt
    have htake := takeExact_append (toBytesBE 8 bits.toNat) rest
    rw [length_toBytesBE] at htake
    rw [write, List.cons_append, readOne, if_neg (by decide), if_neg (by decide),
      if_neg (by decide), if_pos rfl, htake]
    simp [fromBytesBE_toBytesBE hlt]
  | text content =>
    refine readBack_of_succ fun fuel rest _ => ?_
    rw [write, List.append_assoc, readOne_head (by decide), readRest, takeExact_append]
    simp
  | bool b => exact readBack_of_succ fun fuel rest _ => by cases b <;> rfl
  | null => exact readBack_of_succ fun fuel rest _ => rfl
  | tag number inner ih =>
    refine readBack_of_succ fun fuel rest hfuel => ?_
    have hhead := length_head_pos 6 number.toNat
    rw [write, List.length_append] at hfuel
    rw [write, List.append_assoc, readOne_head (by decide), readRest, ih fuel rest (by omega),
      Option.map_some, UInt64.ofNat_toNat]
  | array elems ih =>
    refine readBack_of_succ fun fuel rest hfuel => ?_
    have hhead := length_head_pos 4 elems.length
    rw [write, List.length_append] at hfuel
    rw [write, List.append_assoc, readOne_head (by decide), readRest,
      readElems_write ih rest (by omega)]
    rfl
  | map entries ih =>
    refine readBack_of_succ fun fuel rest hfuel => ?_
    have hhead := length_head_pos 5 entries.length
    rw [write, List.length_append] at hfuel
    rw [write, List.append_assoc, readOne_head (by decide), readRest,
      readEntries_write ih rest (by omega)]
    rfl

/-- Read a value from the front of the bytes; what follows it is not looked at. -/
def read (bytes : List UInt8) : Option Value := (readOne (2 * bytes.length) bytes).map Prod.fst

/-- What was written is read. -/
@[simp] theorem read_write (v : Value) : read (write v) = some v := by
  have h := readBack v _ [] le_rfl
  rw [List.append_nil] at h
  rw [read, h, Option.map_some]

/-- Different values are written differently. -/
theorem write_injective : Function.Injective write := by
  intro v w h
  have hread := congrArg read h
  rw [read_write, read_write] at hread
  exact Option.some.inj hread

/-- The bytes of `{"name": "tig", "count": 7}`. -/
example : write (.map [(.text "name", .text "tig"), (.text "count", .integer ⟨7, by decide⟩)]) =
    [0xa2, 0x64, 0x6e, 0x61, 0x6d, 0x65, 0x63, 0x74, 0x69, 0x67,
      0x65, 0x63, 0x6f, 0x75, 0x6e, 0x74, 0x07] := by decide

end Cbor
