import Mathlib.Data.List.Basic

set_option relaxedAutoImplicit false
set_option autoImplicit false

/-!
# Self-delimiting encodings

Encodings of structured values as lists of numbers, built from combinators. Each encoding comes
with a reader that takes back what was written from the front of any longer list, so encodings
can be put one after the other. Lists of numbers are themselves written as bytes.

## Main definitions

* `Wire` — an encoding with its reader and the law that relates them.
* `Wire.nat`, `Wire.pair`, `Wire.list`, `Wire.option`, `Wire.map` — the combinators.
* `Wire.toBytes`, `Wire.fromBytes` — numbers as bytes.

## Main results

* `Wire.fromBytes_toBytes` — the numbers are read back from the bytes.
-/

/-- An encoding of `α` into numbers, with a reader that gives back the value and what follows
it. -/
structure Wire (α : Type) where
  write : α → List Nat
  read : List Nat → Option (α × List Nat)
  read_write : ∀ a rest, read (write a ++ rest) = some (a, rest)

namespace Wire

variable {α β : Type}

/-- A number is written as itself. -/
def nat : Wire Nat where
  write n := [n]
  read
    | [] => none
    | n :: rest => some (n, rest)
  read_write _ _ := rfl

/-- Two values, one after the other. -/
def pair (a : Wire α) (b : Wire β) : Wire (α × β) where
  write p := a.write p.1 ++ b.write p.2
  read ns := do
    let (x, ns) ← a.read ns
    let (y, ns) ← b.read ns
    some ((x, y), ns)
  read_write p rest := by simp [List.append_assoc, a.read_write, b.read_write]

/-- A value of another type, through a map with a left inverse. -/
def map (a : Wire α) (split : β → α) (join : α → β) (h : ∀ b, join (split b) = b) : Wire β where
  write b := a.write (split b)
  read ns := (a.read ns).map fun (x, rest) => (join x, rest)
  read_write b rest := by simp [a.read_write, h]

/-- Read a given number of values. -/
def readN (a : Wire α) : Nat → List Nat → Option (List α × List Nat)
  | 0, ns => some ([], ns)
  | n + 1, ns => do
    let (x, ns) ← a.read ns
    let (xs, ns) ← readN a n ns
    some (x :: xs, ns)

theorem readN_flatMap (a : Wire α) (xs : List α) (rest : List Nat) :
    readN a xs.length (xs.flatMap a.write ++ rest) = some (xs, rest) := by
  induction xs with
  | nil => rfl
  | cons x xs ih => simp [readN, List.append_assoc, a.read_write, ih]

/-- A list: its length, then its elements. -/
def list (a : Wire α) : Wire (List α) where
  write xs := xs.length :: xs.flatMap a.write
  read
    | [] => none
    | n :: ns => readN a n ns
  read_write xs rest := readN_flatMap a xs rest

/-- An optional value: a list of at most one element. -/
def option (a : Wire α) : Wire (Option α) :=
  (list a).map Option.toList List.head? (by rintro (_ | x) <;> rfl)

/-- A character is written as its code point. -/
def char : Wire Char := nat.map Char.toNat Char.ofNat Char.ofNat_toNat

/-- A string is written as the list of its characters. -/
def string : Wire String := (list char).map String.toList String.ofList fun _ => String.ofList_toList

/-! ## Bytes -/

/-- A number in base 255: full bytes `255`, and a last byte below. -/
def natToBytes (n : Nat) : List UInt8 :=
  List.replicate (n / 255) 255 ++ [UInt8.ofNat (n % 255)]

/-- Numbers, one after the other, as bytes. -/
def toBytes (ns : List Nat) : List UInt8 := ns.flatMap natToBytes

/-- Read numbers from bytes; `acc` is what the full bytes before add up to. -/
def fromBytesAux (acc : Nat) : List UInt8 → List Nat
  | [] => []
  | b :: bs => if b = 255 then fromBytesAux (acc + 255) bs else (acc + b.toNat) :: fromBytesAux 0 bs

/-- Read numbers from bytes. -/
def fromBytes (bs : List UInt8) : List Nat := fromBytesAux 0 bs

theorem fromBytesAux_replicate (acc k : Nat) (bs : List UInt8) :
    fromBytesAux acc (List.replicate k 255 ++ bs) = fromBytesAux (acc + 255 * k) bs := by
  induction k generalizing acc with
  | zero => simp
  | succ k ih =>
    rw [List.replicate_succ, List.cons_append, fromBytesAux, if_pos rfl, ih]
    congr 1
    omega

/-- The numbers are read back from the bytes. -/
theorem fromBytes_toBytes (ns : List Nat) : fromBytes (toBytes ns) = ns := by
  induction ns with
  | nil => rfl
  | cons n ns ih =>
    have hlt : n % 255 < 255 := Nat.mod_lt _ (by decide)
    have hval : (UInt8.ofNat (n % 255)).toNat = n % 255 := by
      rw [UInt8.toNat_ofNat']
      omega
    have hne : UInt8.ofNat (n % 255) ≠ 255 := by
      intro h
      have := congrArg UInt8.toNat h
      rw [hval] at this
      simp at this
      omega
    simp only [toBytes, fromBytes] at ih ⊢
    rw [List.flatMap_cons, natToBytes, List.append_assoc, fromBytesAux_replicate,
      List.singleton_append, fromBytesAux, if_neg hne, ih, hval]
    congr 1
    have := Nat.div_add_mod n 255
    omega

/-- Encode a value as bytes. -/
def encodeBytes (a : Wire α) (x : α) : List UInt8 := toBytes (a.write x)

/-- Decode a value that takes up all of the bytes. -/
def decodeBytes (a : Wire α) (bs : List UInt8) : Option α :=
  match a.read (fromBytes bs) with
  | some (x, []) => some x
  | _ => none

/-- A value is read back from its bytes. -/
@[simp] theorem decodeBytes_encodeBytes (a : Wire α) (x : α) :
    a.decodeBytes (a.encodeBytes x) = some x := by
  have h := a.read_write x []
  rw [List.append_nil] at h
  simp [decodeBytes, encodeBytes, fromBytes_toBytes, h]

end Wire
