import Mathlib.Data.List.Basic
import Mathlib.Logic.Function.Basic

set_option relaxedAutoImplicit false
set_option autoImplicit false

/-!
# Names and open files

The part of a file system that matters when programs race: a name links to a file, and a program
that has opened a file goes on working on that file whatever happens to the name. Opening for
writing empties the file that is there; renaming moves a link, and with it the file of whoever has
it open.

## Main definitions

* `Inodes.Disk` — the links, and what is in the files.
* `Inodes.Disk.create`, `Inodes.Disk.writeAt`, `Inodes.Disk.rename`, `Inodes.Disk.read` — the
  system calls.

## Main results

* `Inodes.overwrite_take` — writing the next part of something whose first part is there.
* `Inodes.Disk.Valid.rename_spec` — renaming moves a link.
-/

namespace Inodes

variable {N : Type}

/-- A disk: what the names link to, what is in the files, and the first number that no file has. -/
structure Disk (N : Type) where
  link : N → Option Nat
  data : Nat → List UInt8
  next : Nat

/-- Write `chunk` at `pos`, over what is there; a gap before it is filled with zeros. -/
def overwrite (bytes : List UInt8) (pos : Nat) (chunk : List UInt8) : List UInt8 :=
  bytes.take pos ++ List.replicate (pos - bytes.length) 0 ++ chunk ++
    bytes.drop (pos + chunk.length)

/-- Writing the next part of something whose first part is there. -/
theorem overwrite_take (whole : List UInt8) {pos size : Nat} (h : pos + size ≤ whole.length) :
    overwrite (whole.take pos) pos ((whole.drop pos).take size) = whole.take (pos + size) := by
  have hlen : (whole.take pos).length = pos := by
    rw [List.length_take]
    omega
  have hchunk : ((whole.drop pos).take size).length = size := by
    rw [List.length_take, List.length_drop]
    omega
  have hfirst : (whole.take pos).take pos = whole.take pos := List.take_of_length_le (by omega)
  have hlast : (whole.take pos).drop (pos + size) = [] := List.drop_eq_nil_of_le (by omega)
  rw [overwrite, hlen, hchunk, Nat.sub_self, List.replicate_zero, List.append_nil, hfirst, hlast,
    List.append_nil, List.take_add]

namespace Disk

/-- Links go to files that there are, and no two of them to the same one. -/
structure Valid (d : Disk N) : Prop where
  lt : ∀ n fd, d.link n = some fd → fd < d.next
  inj : ∀ n m fd, d.link n = some fd → d.link m = some fd → n = m

/-- Write `chunk` at `pos` into an open file. -/
def writeAt (d : Disk N) (fd pos : Nat) (chunk : List UInt8) : Disk N :=
  { d with data := Function.update d.data fd (overwrite (d.data fd) pos chunk) }

/-- What is in the file that a name links to. -/
def read (d : Disk N) (n : N) : Option (List UInt8) := (d.link n).map d.data

variable [DecidableEq N]

/-- Open for writing: the file that is there is emptied, and a file that is not there is made. -/
def create (d : Disk N) (n : N) : Nat × Disk N :=
  match d.link n with
  | some fd => (fd, { d with data := Function.update d.data fd [] })
  | none => (d.next,
      { link := Function.update d.link n (some d.next)
        data := Function.update d.data d.next []
        next := d.next + 1 })

/-- Rename: the link moves, over a link that was there. Two links to one file are left alone. -/
def rename (d : Disk N) (old new : N) : Option (Disk N) :=
  match d.link old with
  | none => none
  | some fd =>
    if d.link new = some fd then some d
    else some { d with link := Function.update (Function.update d.link new (some fd)) old none }

variable {d : Disk N} {n m : N} {fd pos : Nat} {chunk : List UInt8}

omit [DecidableEq N] in
@[simp] theorem link_writeAt : (d.writeAt fd pos chunk).link = d.link := rfl

omit [DecidableEq N] in
@[simp] theorem next_writeAt : (d.writeAt fd pos chunk).next = d.next := rfl

omit [DecidableEq N] in
@[simp] theorem data_writeAt_self :
    (d.writeAt fd pos chunk).data fd = overwrite (d.data fd) pos chunk := Function.update_self ..

omit [DecidableEq N] in
/-- Writing into a file leaves the other files alone. -/
theorem data_writeAt_of_ne {fd' : Nat} (h : fd' ≠ fd) :
    (d.writeAt fd pos chunk).data fd' = d.data fd' := Function.update_of_ne h ..

omit [DecidableEq N] in
theorem Valid.writeAt (h : d.Valid) : (d.writeAt fd pos chunk).Valid := ⟨h.lt, h.inj⟩

/-- A name links to the file that was opened under it. -/
@[simp] theorem link_create_self : (d.create n).2.link n = some (d.create n).1 := by
  unfold create
  cases h : d.link n with
  | some fd => exact h
  | none => exact Function.update_self ..

/-- Opening a file leaves the other names alone. -/
theorem link_create_of_ne (h : m ≠ n) : (d.create n).2.link m = d.link m := by
  unfold create
  cases d.link n with
  | some fd => rfl
  | none => exact Function.update_of_ne h ..

/-- A file that was opened is empty. -/
@[simp] theorem data_create_self : (d.create n).2.data (d.create n).1 = [] := by
  unfold create
  cases d.link n with
  | some fd => exact Function.update_self ..
  | none => exact Function.update_self ..

/-- Opening a file leaves the others alone. -/
theorem data_create_of_ne (h : fd ≠ (d.create n).1) : (d.create n).2.data fd = d.data fd := by
  unfold create at h ⊢
  cases hn : d.link n with
  | some fd' =>
    rw [hn] at h
    exact Function.update_of_ne h ..
  | none =>
    rw [hn] at h
    exact Function.update_of_ne h ..

theorem le_next_create : d.next ≤ (d.create n).2.next := by
  unfold create
  cases d.link n with
  | some fd => exact Nat.le_refl _
  | none => exact Nat.le_succ _

/-- The file that is opened is the one that is there, or a new one. -/
theorem create_fst : d.link n = some (d.create n).1 ∨ d.link n = none ∧ (d.create n).1 = d.next := by
  unfold create
  cases d.link n with
  | some fd => exact Or.inl rfl
  | none => exact Or.inr ⟨rfl, rfl⟩

/-- A name that was not opened does not link to the file that was. -/
theorem Valid.ne_create (h : d.Valid) (hm : d.link m = some fd) (hne : m ≠ n) :
    fd ≠ (d.create n).1 := by
  rcases create_fst (d := d) (n := n) with hn | ⟨-, hnew⟩
  · rintro rfl
    exact hne (h.inj m n _ hm hn)
  · have := h.lt m fd hm
    omega

theorem Valid.create (h : d.Valid) : (d.create n).2.Valid := by
  have hold : ∀ m fd, m ≠ n → (d.create n).2.link m = some fd → d.link m = some fd := by
    intro m fd hne hm
    rwa [link_create_of_ne hne] at hm
  constructor
  · intro m fd hm
    by_cases hne : m = n
    · rw [hne, link_create_self] at hm
      obtain rfl := Option.some.inj hm
      rcases create_fst (d := d) (n := n) with hn | ⟨hn, hnew⟩
      · exact Nat.lt_of_lt_of_le (h.lt n _ hn) le_next_create
      · rw [hnew, Disk.create, hn]
        exact Nat.lt_succ_self _
    · exact Nat.lt_of_lt_of_le (h.lt m fd (hold m fd hne hm)) le_next_create
  · intro m m' fd hm hm'
    by_cases hne : m = n <;> by_cases hne' : m' = n
    · rw [hne, hne']
    · rw [hne, link_create_self] at hm
      obtain rfl := Option.some.inj hm
      exact absurd rfl (h.ne_create (hold m' _ hne' hm') hne')
    · rw [hne', link_create_self] at hm'
      obtain rfl := Option.some.inj hm'
      exact absurd rfl (h.ne_create (hold m _ hne hm) hne)
    · exact h.inj m m' fd (hold m fd hne hm) (hold m' fd hne' hm')

/-- **Renaming** a name that links to a file moves the link, and does not touch the files. -/
theorem Valid.rename_spec {d' : Disk N} (hvalid : d.Valid) (hold : d.link n = some fd)
    (hne : n ≠ m) (h : d.rename n m = some d') :
    d'.link n = none ∧ d'.link m = some fd ∧ (∀ k, k ≠ n → k ≠ m → d'.link k = d.link k) ∧
      d'.data = d.data ∧ d'.next = d.next := by
  rw [rename, hold] at h
  dsimp only at h
  rw [if_neg fun hm => hne (hvalid.inj n m fd hold hm)] at h
  obtain rfl := Option.some.inj h
  refine ⟨?_, ?_, ?_, rfl, rfl⟩
  · exact Function.update_self ..
  · exact (Function.update_of_ne hne.symm ..).trans (Function.update_self ..)
  · intro k hkn hkm
    exact (Function.update_of_ne hkn ..).trans (Function.update_of_ne hkm ..)

theorem Valid.rename {d' : Disk N} (hvalid : d.Valid) (hold : d.link n = some fd) (hne : n ≠ m)
    (h : d.rename n m = some d') : d'.Valid := by
  obtain ⟨hn, hm, hother, -, hnext⟩ := hvalid.rename_spec hold hne h
  -- a link goes where some link went before: that of `m` where that of `n` went
  have hback : ∀ k fd', d'.link k = some fd' →
      k ≠ n ∧ d.link (if k = m then n else k) = some fd' := by
    intro k fd' hk
    have hkn : k ≠ n := by
      rintro rfl
      rw [hn] at hk
      cases hk
    refine ⟨hkn, ?_⟩
    by_cases hkm : k = m
    · rw [hkm, hm] at hk
      rw [if_pos hkm, hold, hk]
    · rw [if_neg hkm, ← hother k hkn hkm, hk]
  constructor
  · intro k fd' hk
    rw [hnext]
    exact hvalid.lt _ _ (hback k fd' hk).2
  · intro k k' fd' hk hk'
    obtain ⟨hkn, hk⟩ := hback k fd' hk
    obtain ⟨hkn', hk'⟩ := hback k' fd' hk'
    have heq := hvalid.inj _ _ _ hk hk'
    split_ifs at heq with h1 h2 h2
    · rw [h1, h2]
    · exact absurd heq.symm hkn'
    · exact absurd heq hkn
    · exact heq

/-- A name that links to nothing cannot be renamed. -/
theorem rename_eq_none : d.rename n m = none ↔ d.link n = none := by
  unfold rename
  cases d.link n with
  | none => simp
  | some fd =>
    dsimp only
    split_ifs <;> simp

end Disk

end Inodes
