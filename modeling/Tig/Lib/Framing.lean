import Mathlib.Algebra.Group.Nat.Defs
import Mathlib.Data.List.Induction

set_option relaxedAutoImplicit false
set_option autoImplicit false

/-!
# Length-prefixed frames

A sequence of payloads in one string of bytes: before each payload stands its length, as a
big-endian number of a fixed width. A string of frames can be cut anywhere; what is left is the
frames before the cut, and the part of one frame that lies before it.

## Main definitions

* `Framing.toBytesBE`, `Framing.fromBytesBE` — numbers of a fixed width as bytes.
* `Framing.frame`, `Framing.frames` — a payload after its length, and a sequence of these.
* `Framing.Torn` — the part of a frame that lies before a cut inside it.

## Main results

* `Framing.fromBytesBE_toBytesBE`, `Framing.toBytesBE_fromBytesBE` — a number that fits is read
  back, and there is one way to write it.
* `Framing.take_frames` — what a cut leaves.
* `Framing.Torn.cases` — a cut goes through the length or through the payload.
-/

namespace Framing

/-! ## Numbers of a fixed width -/

/-- A number as `width` bytes, the most significant one first. -/
def toBytesBE : (width : Nat) → Nat → List UInt8
  | 0, _ => []
  | width + 1, n => toBytesBE width (n / 256) ++ [UInt8.ofNat (n % 256)]

/-- The number that bytes stand for, the most significant one first. -/
def fromBytesBE (bytes : List UInt8) : Nat := bytes.foldl (fun n b => 256 * n + b.toNat) 0

@[simp] theorem length_toBytesBE (width n : Nat) : (toBytesBE width n).length = width := by
  induction width generalizing n with
  | zero => rfl
  | succ width ih => simp [toBytesBE, ih]

/-- A number that fits is read back. -/
theorem fromBytesBE_toBytesBE {width n : Nat} (h : n < 256 ^ width) :
    fromBytesBE (toBytesBE width n) = n := by
  induction width generalizing n with
  | zero =>
    simp only [Nat.pow_zero] at h
    have hn : n = 0 := by omega
    simp [hn, toBytesBE, fromBytesBE]
  | succ width ih =>
    have hdiv : n / 256 < 256 ^ width := by
      apply Nat.div_lt_of_lt_mul
      rwa [Nat.pow_succ, Nat.mul_comm] at h
    have hlast : (UInt8.ofNat (n % 256)).toNat = n % 256 := by
      simp [UInt8.toNat_ofNat']
    have hfirst := ih hdiv
    unfold fromBytesBE at hfirst ⊢
    rw [toBytesBE, List.foldl_append, hfirst]
    simp only [List.foldl_cons, List.foldl_nil, hlast]
    omega

theorem fromBytesBE_append (bytes : List UInt8) (b : UInt8) :
    fromBytesBE (bytes ++ [b]) = 256 * fromBytesBE bytes + b.toNat := by
  simp [fromBytesBE]

/-- A number of a fixed width fits. -/
theorem fromBytesBE_lt (bytes : List UInt8) : fromBytesBE bytes < 256 ^ bytes.length := by
  induction bytes using List.reverseRecOn with
  | nil => simp [fromBytesBE]
  | append_singleton bytes b ih =>
    have hb : b.toNat < 256 := b.toNat_lt
    rw [fromBytesBE_append, List.length_append, List.length_singleton, Nat.pow_succ]
    omega

/-- There is one way to write a number of a fixed width. -/
theorem toBytesBE_fromBytesBE (bytes : List UInt8) :
    toBytesBE bytes.length (fromBytesBE bytes) = bytes := by
  induction bytes using List.reverseRecOn with
  | nil => rfl
  | append_singleton bytes b ih =>
    have hb : b.toNat < 256 := b.toNat_lt
    have hdiv : (256 * fromBytesBE bytes + b.toNat) / 256 = fromBytesBE bytes := by omega
    have hmod : (256 * fromBytesBE bytes + b.toNat) % 256 = b.toNat := by omega
    rw [fromBytesBE_append, List.length_append, List.length_singleton, toBytesBE, hdiv, ih, hmod,
      UInt8.ofNat_toNat]

/-! ## Frames -/

/-- A payload, after its length. -/
def frame (width : Nat) (payload : List UInt8) : List UInt8 :=
  toBytesBE width payload.length ++ payload

/-- Payloads, each after its length. -/
def frames (width : Nat) (payloads : List (List UInt8)) : List UInt8 :=
  payloads.flatMap (frame width)

variable {width : Nat}

@[simp] theorem length_frame (payload : List UInt8) :
    (frame width payload).length = width + payload.length := by
  simp [frame]

@[simp] theorem frames_nil : frames width [] = [] := rfl

@[simp] theorem frames_cons (payload : List UInt8) (payloads : List (List UInt8)) :
    frames width (payload :: payloads) = frame width payload ++ frames width payloads := rfl

@[simp] theorem frames_append (ps qs : List (List UInt8)) :
    frames width (ps ++ qs) = frames width ps ++ frames width qs := List.flatMap_append

/-- Each frame takes at least the bytes of its length. -/
theorem le_length_frames (payloads : List (List UInt8)) :
    payloads.length * width ≤ (frames width payloads).length := by
  induction payloads with
  | nil => simp
  | cons payload payloads ih =>
    simp only [List.length_cons, frames_cons, List.length_append, length_frame, Nat.succ_mul]
    omega

/-! ## Cuts -/

/-- A part of a frame: some of it, from the front, and not all of it. -/
structure Torn (width : Nat) (payload rest : List UInt8) : Prop where
  isPrefix : rest <+: frame width payload
  ne_nil : rest ≠ []
  ne_frame : rest ≠ frame width payload

/-- A part of a frame from the front is nothing, all of it, or torn. -/
theorem torn_or {payload rest : List UInt8} (h : rest <+: frame width payload) :
    rest = [] ∨ rest = frame width payload ∨ Torn width payload rest := by
  by_cases hnil : rest = []
  · exact Or.inl hnil
  · by_cases hall : rest = frame width payload
    · exact Or.inr (Or.inl hall)
    · exact Or.inr (Or.inr ⟨h, hnil, hall⟩)

/-- **A cut through a frame** goes through the length, or behind it and through the payload. -/
theorem Torn.cases {payload rest : List UInt8} (h : Torn width payload rest) :
    (0 < rest.length ∧ rest.length < width) ∨
      ∃ part, rest = toBytesBE width payload.length ++ part ∧ part.length < payload.length := by
  obtain ⟨hpre, hnil, hall⟩ := h
  have hpos : 0 < rest.length := List.length_pos_iff.mpr hnil
  by_cases hlt : rest.length < width
  · exact Or.inl ⟨hpos, hlt⟩
  · obtain ⟨more, hmore⟩ := hpre
    have hlen := congrArg List.length hmore
    simp only [List.length_append, length_frame] at hlen
    have hmore_pos : 0 < more.length := by
      apply List.length_pos_iff.mpr
      intro h
      rw [h, List.append_nil] at hmore
      exact hall hmore
    -- the bytes of the length come first
    obtain ⟨part, hpart⟩ : toBytesBE width payload.length <+: rest := by
      apply List.prefix_of_prefix_length_le ⟨payload, rfl⟩ ⟨more, hmore⟩
      rw [length_toBytesBE]
      omega
    refine Or.inr ⟨part, hpart.symm, ?_⟩
    have hpart_len := congrArg List.length hpart
    simp only [List.length_append, length_toBytesBE] at hpart_len
    omega

/-- **What a cut leaves**: the first frames, and after them nothing or a part of the next one. -/
theorem take_frames {payloads : List (List UInt8)} {n : Nat}
    (hn : n < (frames width payloads).length) :
    ∃ k, ∃ payload, payloads[k]? = some payload ∧ ∃ rest,
      (frames width payloads).take n = frames width (payloads.take k) ++ rest ∧
      (rest = [] ∨ Torn width payload rest) := by
  induction payloads generalizing n with
  | nil => simp at hn
  | cons payload payloads ih =>
    rw [frames_cons] at hn ⊢
    by_cases hlt : n < (frame width payload).length
    · refine ⟨0, payload, rfl, (frame width payload).take n, ?_, ?_⟩
      · rw [List.take_append_of_le_length (Nat.le_of_lt hlt)]
        rfl
      · rcases torn_or (List.take_prefix n (frame width payload)) with h | h | h
        · exact Or.inl h
        · have hlen := congrArg List.length h
          rw [List.length_take] at hlen
          omega
        · exact Or.inr h
    · have hle : (frame width payload).length ≤ n := Nat.le_of_not_lt hlt
      rw [List.length_append] at hn
      obtain ⟨k, p, hk, rest, htake, hrest⟩ := ih
        (n := n - (frame width payload).length) (by omega)
      refine ⟨k + 1, p, hk, rest, ?_, hrest⟩
      rw [List.take_append, List.take_of_length_le hle, htake, List.take_succ_cons, frames_cons,
        List.append_assoc]

end Framing
