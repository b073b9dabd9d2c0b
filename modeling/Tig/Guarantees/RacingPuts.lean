import Tig.Core.Plain
import Tig.Store.ObjectFile

set_option relaxedAutoImplicit false
set_option autoImplicit false

/-!
# Racing puts of one object

Puts of one object share a temporary file. As long as no put opens it while another has it open,
every put succeeds, and from the first return on the object can be read. A put that opens it while
another is about to rename it empties the file that becomes the object, and finds nothing to rename
in the end.

## Main definitions

* `Tig.RacingPutsSucceed` — every put succeeds, and the object can be read from the first return on.
* `Tig.Undisturbed` — no put opens the temporary file while another has it open.
* `Tig.Race.Moves` — what one system call of a put does.
* `Tig.Race.Inv` — the invariant of races that are undisturbed.

## Main results

* `Tig.racingPutsSucceed_iff` — which races succeed.
-/

namespace Tig

open Inodes (Disk)

variable {H : Type} [Format H] {ι : Type} {raw : RawObject}

/-! ## What is asked of a race -/

/-- The puts are about to begin. An object file that is there is that of the object; a temporary
file may have been left behind. -/
structure Race.Initial (raw : RawObject) (s : Race ι H) : Prop where
  puts : ∀ i, s.puts i = .start
  valid : s.disk.Valid
  final : ∀ fd, s.disk.link .final = some fd → s.disk.data fd = frame raw

variable [DecidableEq ι]

/-- Every put that returns has succeeded; and once one has returned, the object file is there, and a
reader that has opened it reads the object, whatever happens before it gets to read. -/
structure RacingPutsSucceed [LinearOrder H] (raw : RawObject) (s₀ : Race ι H)
    (schedule : List (ι × Nat)) : Prop where
  results : ∀ n s, s₀.run raw (schedule.take n) = some s →
    ∀ i r, s.puts i = .done r → r = .ok (raw.hash H)
  reads : ∀ n s, s₀.run raw (schedule.take n) = some s → (∃ i, (s.puts i).Done) →
    ∃ fd, s.disk.link .final = some fd ∧ ∀ m s', n ≤ m →
      s₀.run raw (schedule.take m) = some s' →
      readObjectFile (raw.hash H) (s'.disk.data fd) = .ok raw

/-- Along the schedule, no put opens the temporary file while another has it open. -/
def Undisturbed (raw : RawObject) : List (ι × Nat) → Race ι H → Prop
  | [], _ => True
  | (i, size) :: rest, s =>
    (s.puts i = .missing → ∀ j, ¬ (s.puts j).Writing) ∧
      ∀ s', s.step raw i size = some s' → Undisturbed raw rest s'

/-! ## One system call -/

/-- What a system call of the put `i` does. -/
inductive Race.Moves (raw : RawObject) (s : Race ι H) (i : ι) : Race ι H → Prop
  | found {fd : Nat} (hi : s.puts i = .start) (hfinal : s.disk.link .final = some fd) :
      Moves raw s i ⟨s.disk, Function.update s.puts i (.done (.ok (raw.hash H)))⟩
  | missing (hi : s.puts i = .start) (hfinal : s.disk.link .final = none) :
      Moves raw s i ⟨s.disk, Function.update s.puts i .missing⟩
  | create (hi : s.puts i = .missing) :
      Moves raw s i ⟨(s.disk.create .tmp).2,
        Function.update s.puts i (.writing (s.disk.create .tmp).1 0)⟩
  | write {fd k size : Nat} (hi : s.puts i = .writing fd k)
      (hsize : k + size ≤ (frame raw).length) :
      Moves raw s i ⟨s.disk.writeAt fd k (((frame raw).drop k).take size),
        Function.update s.puts i (.writing fd (k + size))⟩
  | rename {fd k : Nat} {d : Disk ObjectName} (hi : s.puts i = .writing fd k)
      (hk : (frame raw).length ≤ k) (hd : s.disk.rename .tmp .final = some d) :
      Moves raw s i ⟨d, Function.update s.puts i (.done (.ok (raw.hash H)))⟩
  | lost {fd k : Nat} (hi : s.puts i = .writing fd k) (hk : (frame raw).length ≤ k)
      (htmp : s.disk.link .tmp = none) :
      Moves raw s i ⟨s.disk, Function.update s.puts i
        (.done (.error (.io "No such file or directory (os error 2)")))⟩

theorem Race.step_moves {s s' : Race ι H} {i : ι} {size : Nat}
    (h : s.step raw i size = some s') : s.Moves raw i s' := by
  unfold Race.step at h
  obtain ⟨⟨p, d⟩, hstep, rfl⟩ := Option.map_eq_some_iff.mp h
  cases hi : s.puts i with
  | start =>
    rw [hi, PutState.step] at hstep
    cases hfinal : s.disk.link .final with
    | none =>
      rw [hfinal] at hstep
      cases hstep
      exact .missing hi hfinal
    | some fd =>
      rw [hfinal] at hstep
      cases hstep
      exact .found hi hfinal
  | missing =>
    rw [hi, PutState.step] at hstep
    cases hstep
    exact .create hi
  | writing fd k =>
    rw [hi, PutState.step] at hstep
    split_ifs at hstep with hlt hsize
    · cases hstep
      exact .write hi hsize.2
    · cases hren : s.disk.rename .tmp .final with
      | none =>
        rw [hren] at hstep
        cases hstep
        exact .lost hi (Nat.le_of_not_lt hlt) (Disk.rename_eq_none.mp hren)
      | some d' =>
        rw [hren] at hstep
        cases hstep
        exact .rename hi (Nat.le_of_not_lt hlt) hren
  | done r =>
    rw [hi, PutState.step] at hstep
    cases hstep

/-! ## Undisturbed races -/

/-- What holds throughout an undisturbed race. At most one put has the temporary file open, and what
it has written is what the file holds; the object file is whole. -/
structure Race.Inv (raw : RawObject) (s : Race ι H) : Prop where
  valid : s.disk.Valid
  result : ∀ i r, s.puts i = .done r →
    r = .ok (raw.hash H) ∧ ∃ fd, s.disk.link .final = some fd
  final : ∀ fd, s.disk.link .final = some fd → s.disk.data fd = frame raw
  one : ∀ i j, (s.puts i).Writing → (s.puts j).Writing → i = j
  opened : ∀ i fd k, s.puts i = .writing fd k →
    s.disk.link .tmp = some fd ∧ s.disk.data fd = (frame raw).take k

/-- The file `fd` is the object, and nobody is going to write to it. -/
structure Race.Settled (raw : RawObject) (fd : Nat) (s : Race ι H) : Prop where
  data : s.disk.data fd = frame raw
  apart : s.disk.link .tmp ≠ some fd
  lt : fd < s.disk.next

omit [DecidableEq ι] in
theorem Race.Initial.inv {s : Race ι H} (h : s.Initial raw) : s.Inv raw where
  valid := h.valid
  result i r hi := by
    rw [h.puts i] at hi
    cases hi
  final := h.final
  one i j hi _ := by
    obtain ⟨fd, k, hi⟩ := hi
    rw [h.puts i] at hi
    cases hi
  opened i fd k hi := by
    rw [h.puts i] at hi
    cases hi

variable {s s' : Race ι H} {i : ι}

omit [DecidableEq ι] in
/-- The object file is settled. -/
theorem Race.Inv.settled (h : s.Inv raw) {fd : Nat} (hfd : s.disk.link .final = some fd) :
    s.Settled raw fd where
  data := h.final fd hfd
  apart := by
    intro htmp
    cases h.valid.inj .final .tmp fd hfd htmp
  lt := h.valid.lt .final fd hfd

omit [Format H] in
/-- The put that has moved is where it has moved to, and the others are where they were. -/
theorem puts_of_update {puts : ι → PutState H} {p : PutState H} {j : ι} {q : PutState H}
    (h : Function.update puts i p j = q) : (j = i ∧ p = q) ∨ (j ≠ i ∧ puts j = q) := by
  by_cases hj : j = i
  · rw [hj, Function.update_self] at h
    exact Or.inl ⟨hj, h⟩
  · rw [Function.update_of_ne hj] at h
    exact Or.inr ⟨hj, h⟩

/-- A settled file stays settled. -/
theorem Race.Settled.step {fd : Nat} (h : s.Settled raw fd) (hinv : s.Inv raw)
    (hm : s.Moves raw i s') : s'.Settled raw fd := by
  obtain ⟨hdata, hapart, hlt⟩ := h
  cases hm with
  | found hi hfinal => exact ⟨hdata, hapart, hlt⟩
  | missing hi hfinal => exact ⟨hdata, hapart, hlt⟩
  | lost hi hk htmp => exact ⟨hdata, hapart, hlt⟩
  | create hi =>
    -- the file that was opened is the temporary one, or a new one
    have hne : fd ≠ (s.disk.create .tmp).1 := by
      rcases Disk.create_fst (d := s.disk) (n := .tmp) with htmp | ⟨-, hnew⟩
      · rintro rfl
        exact hapart htmp
      · rw [hnew]
        omega
    refine ⟨?_, ?_, ?_⟩
    · exact (Disk.data_create_of_ne hne).trans hdata
    · intro htmp
      exact hne (Option.some.inj (htmp.symm.trans Disk.link_create_self))
    · exact Nat.lt_of_lt_of_le hlt Disk.le_next_create
  | @write fd' k size hi hsize =>
    have hne : fd ≠ fd' := by
      rintro rfl
      exact hapart (hinv.opened i fd k hi).1
    exact ⟨(Disk.data_writeAt_of_ne hne).trans hdata, hapart, hlt⟩
  | @rename fd' k d hi hk hd =>
    obtain ⟨htmp, -⟩ := hinv.opened i fd' k hi
    obtain ⟨hnone, -, -, hsame, hnext⟩ := hinv.valid.rename_spec htmp (by decide) hd
    refine ⟨?_, ?_, ?_⟩
    · change d.data fd = frame raw
      rw [hsame]
      exact hdata
    · change d.link .tmp ≠ some fd
      rw [hnone]
      exact nofun
    · change fd < d.next
      rw [hnext]
      exact hlt

/-- A put has its temporary file closed, and the others have theirs as before. -/
theorem Race.Inv.closes (h : s.Inv raw) {d : Disk ObjectName} {p : PutState H} (hp : ¬ p.Writing)
    (hvalid : d.Valid)
    (hfinal : ∀ fd, d.link .final = some fd → d.data fd = frame raw)
    (hkeep : ∀ fd, s.disk.link .final = some fd → ∃ fd', d.link .final = some fd')
    (hdone : ∀ r, p = .done r → r = .ok (raw.hash H) ∧ ∃ fd, d.link .final = some fd)
    (hothers : ∀ j fd k, j ≠ i → s.puts j = .writing fd k →
      d.link .tmp = some fd ∧ d.data fd = (frame raw).take k) :
    Race.Inv raw ⟨d, Function.update s.puts i p⟩ := by
  have hwriting : ∀ {j}, (Function.update s.puts i p j).Writing → (s.puts j).Writing := by
    rintro j ⟨fd, k, hj⟩
    rcases puts_of_update hj with ⟨-, hq⟩ | ⟨-, hj⟩
    · exact absurd ⟨fd, k, hq⟩ hp
    · exact ⟨fd, k, hj⟩
  refine ⟨hvalid, ?_, hfinal, ?_, ?_⟩
  · intro j r hj
    rcases puts_of_update hj with ⟨-, hq⟩ | ⟨-, hj⟩
    · exact hdone r hq
    · obtain ⟨hr, fd, hfd⟩ := h.result j r hj
      exact ⟨hr, hkeep fd hfd⟩
  · intro j k hj hk
    exact h.one j k (hwriting hj) (hwriting hk)
  · intro j fd k hj
    rcases puts_of_update hj with ⟨-, hq⟩ | ⟨hne, hj⟩
    · exact absurd ⟨fd, k, hq⟩ hp
    · exact hothers j fd k hne hj

/-- A put has its temporary file open, and no other has. -/
theorem Race.Inv.opens (h : s.Inv raw) {d : Disk ObjectName} {fd k : Nat} (hvalid : d.Valid)
    (hfinal : ∀ fd, d.link .final = some fd → d.data fd = frame raw)
    (hkeep : ∀ fd, s.disk.link .final = some fd → ∃ fd', d.link .final = some fd')
    (halone : ∀ j, j ≠ i → ¬ (s.puts j).Writing) (htmp : d.link .tmp = some fd)
    (hdata : d.data fd = (frame raw).take k) :
    Race.Inv raw ⟨d, Function.update s.puts i (.writing fd k)⟩ := by
  have honly : ∀ {j}, (Function.update s.puts i (.writing fd k) j).Writing → j = i := by
    rintro j ⟨fd', k', hj⟩
    rcases puts_of_update hj with ⟨hji, -⟩ | ⟨hne, hj⟩
    · exact hji
    · exact absurd ⟨fd', k', hj⟩ (halone j hne)
  refine ⟨hvalid, ?_, hfinal, ?_, ?_⟩
  · intro j r hj
    rcases puts_of_update hj with ⟨-, hq⟩ | ⟨-, hj⟩
    · cases hq
    · obtain ⟨hr, fd', hfd'⟩ := h.result j r hj
      exact ⟨hr, hkeep fd' hfd'⟩
  · intro j j' hj hj'
    rw [honly hj, honly hj']
  · intro j fd' k' hj
    rcases puts_of_update hj with ⟨-, hq⟩ | ⟨hne, hj⟩
    · cases hq
      exact ⟨htmp, hdata⟩
    · exact absurd ⟨fd', k', hj⟩ (halone j hne)

/-- **A system call of an undisturbed race** keeps the invariant. -/
theorem Race.Inv.step (h : s.Inv raw)
    (halone : s.puts i = .missing → ∀ j, ¬ (s.puts j).Writing) (hm : s.Moves raw i s') :
    s'.Inv raw := by
  -- the object file is settled before, so it is afterwards
  have hsettled := fun fd (hfd : s.disk.link .final = some fd) => (h.settled hfd).step h hm
  cases hm with
  | @found fd hi hfinal =>
    apply h.closes (by rintro ⟨_, _, h⟩; cases h) h.valid h.final (fun fd hfd => ⟨fd, hfd⟩)
    · intro r hr
      exact ⟨(PutState.done.inj hr).symm, fd, hfinal⟩
    · intro j fd' k _ hj
      exact h.opened j fd' k hj
  | missing hi hfinal =>
    apply h.closes (by rintro ⟨_, _, h⟩; cases h) h.valid h.final (fun fd hfd => ⟨fd, hfd⟩)
    · intro r hr
      cases hr
    · intro j fd' k _ hj
      exact h.opened j fd' k hj
  | create hi =>
    have hlink : (s.disk.create .tmp).2.link .final = s.disk.link .final :=
      Disk.link_create_of_ne (by decide)
    apply h.opens h.valid.create
    · intro fd hfd
      rw [hlink] at hfd
      exact (hsettled fd hfd).data
    · intro fd hfd
      exact ⟨fd, hlink.trans hfd⟩
    · intro j _
      exact halone hi j
    · exact Disk.link_create_self
    · exact Disk.data_create_self
  | @write fd k size hi hsize =>
    obtain ⟨htmp, hdata⟩ := h.opened i fd k hi
    apply h.opens (.writeAt h.valid)
    · intro fd' hfd'
      exact (hsettled fd' hfd').data
    · intro fd' hfd'
      exact ⟨fd', hfd'⟩
    · intro j hne hj
      exact hne (h.one j i hj ⟨fd, k, hi⟩)
    · exact htmp
    · rw [Disk.data_writeAt_self, hdata]
      exact Inodes.overwrite_take (frame raw) hsize
  | @rename fd k d hi hk hd =>
    obtain ⟨htmp, hdata⟩ := h.opened i fd k hi
    rw [List.take_of_length_le hk] at hdata
    obtain ⟨-, hnew, -, hsame, -⟩ := h.valid.rename_spec htmp (by decide) hd
    apply h.closes (by rintro ⟨_, _, h⟩; cases h) (h.valid.rename htmp (by decide) hd)
    · intro fd' hfd'
      rw [hnew] at hfd'
      obtain rfl := Option.some.inj hfd'
      rw [hsame]
      exact hdata
    · intro _ _
      exact ⟨fd, hnew⟩
    · intro r hr
      exact ⟨(PutState.done.inj hr).symm, fd, hnew⟩
    · intro j fd' k' hne hj
      exact absurd (h.one j i ⟨fd', k', hj⟩ ⟨fd, k, hi⟩) hne
  | @lost fd k hi hk htmp =>
    -- the put that has it open has it under its name
    rw [(h.opened i fd k hi).1] at htmp
    cases htmp

/-! ## Disturbed races -/

/-- Somebody is going to fail: a put has failed, two have the temporary file open, or one has it
open but its name is gone. -/
def Race.Lost (s : Race ι H) : Prop :=
  (∃ i e, s.puts i = .done (.error e)) ∨
    (∃ i j, i ≠ j ∧ (s.puts i).Writing ∧ (s.puts j).Writing) ∨
    (s.disk.link .tmp = none ∧ ∃ i, (s.puts i).Writing)

/-- A put that is not the one that moves is where it was. -/
theorem Race.Moves.other (hm : s.Moves raw i s') {j : ι} (hne : j ≠ i) : s'.puts j = s.puts j := by
  cases hm <;> exact Function.update_of_ne hne ..

/-- A put that has returned does not move. -/
theorem Race.Moves.not_done (hm : s.Moves raw i s') (r : Except Error H) : s.puts i ≠ .done r := by
  intro hr
  cases hm with
  | found hi _ | missing hi _ | create hi | write hi _ | rename hi _ _ | lost hi _ _ =>
    rw [hi] at hr
    cases hr

/-- A disk stays valid. -/
theorem Race.Moves.valid (hm : s.Moves raw i s') (h : s.disk.Valid) : s'.disk.Valid := by
  cases hm with
  | found hi hfinal => exact h
  | missing hi hfinal => exact h
  | create hi => exact h.create
  | write hi hsize => exact h.writeAt
  | rename hi hk hd =>
    cases htmp : s.disk.link .tmp with
    | none =>
      rw [Disk.rename_eq_none.mpr htmp] at hd
      cases hd
    | some fd => exact h.rename htmp (by decide) hd
  | lost hi hk htmp => exact h

/-- A put that has its temporary file open keeps it open, or renames it, or finds it gone. -/
theorem Race.Moves.of_writing (hm : s.Moves raw i s') (hvalid : s.disk.Valid)
    (hi : (s.puts i).Writing) :
    (s'.puts i).Writing ∧ s'.disk.link .tmp = s.disk.link .tmp ∨ s'.disk.link .tmp = none := by
  obtain ⟨fd₀, k₀, hi⟩ := hi
  cases hm with
  | found hi' _ | missing hi' _ | create hi' =>
    rw [hi] at hi'
    cases hi'
  | write hi' hsize => exact Or.inl ⟨⟨_, _, Function.update_self ..⟩, rfl⟩
  | rename hi' hk hd =>
    right
    cases htmp : s.disk.link .tmp with
    | none =>
      rw [Disk.rename_eq_none.mpr htmp] at hd
      cases hd
    | some fd => exact (hvalid.rename_spec htmp (by decide) hd).1
  | lost hi' hk htmp => exact Or.inr htmp

/-- Whoever opens the temporary file has it open. -/
theorem Race.Moves.of_missing (hm : s.Moves raw i s') (hi : s.puts i = .missing) :
    (s'.puts i).Writing := by
  cases hm with
  | found hi' _ | missing hi' _ | write hi' _ | rename hi' _ _ | lost hi' _ _ =>
    rw [hi] at hi'
    cases hi'
  | create hi' => exact ⟨_, _, Function.update_self ..⟩

/-- Opening the temporary file while another put has it open loses the race. -/
theorem Race.Moves.lost_of_disturbed (hm : s.Moves raw i s') (hi : s.puts i = .missing) {j : ι}
    (hj : (s.puts j).Writing) : s'.Lost := by
  have hne : i ≠ j := by
    rintro rfl
    obtain ⟨fd, k, hj⟩ := hj
    rw [hi] at hj
    cases hj
  refine Or.inr (Or.inl ⟨i, j, hne, hm.of_missing hi, ?_⟩)
  rw [hm.other hne.symm]
  exact hj

/-- A put without its temporary file, once it has moved, has failed or still is without. -/
theorem Race.Lost.step (h : s.Lost) (hvalid : s.disk.Valid) (hm : s.Moves raw i s') : s'.Lost := by
  rcases h with ⟨j, e, hj⟩ | ⟨j, k, hjk, hj, hk⟩ | ⟨htmp, j, hj⟩
  · -- a put that has failed is not the one that moves
    have hne : j ≠ i := by
      rintro rfl
      exact hm.not_done _ hj
    exact Or.inl ⟨j, e, (hm.other hne).trans hj⟩
  · -- of two puts that have it open, at most one moves
    have hmove : ∀ a b, a ≠ b → (s.puts a).Writing → (s.puts b).Writing → a = i → s'.Lost := by
      rintro a b hab ha hb rfl
      have hb' : (s'.puts b).Writing := by
        rw [hm.other hab.symm]
        exact hb
      rcases hm.of_writing hvalid ha with ⟨ha', -⟩ | hgone
      · exact Or.inr (Or.inl ⟨a, b, hab, ha', hb'⟩)
      · exact Or.inr (Or.inr ⟨hgone, b, hb'⟩)
    by_cases hji : j = i
    · exact hmove j k hjk hj hk hji
    · by_cases hki : k = i
      · exact hmove k j hjk.symm hk hj hki
      · refine Or.inr (Or.inl ⟨j, k, hjk, ?_, ?_⟩)
        · rw [hm.other hji]
          exact hj
        · rw [hm.other hki]
          exact hk
  · by_cases hji : j = i
    · subst hji
      obtain ⟨fd, n, hj⟩ := hj
      cases hm with
      | found hi _ | missing hi _ | create hi =>
        rw [hj] at hi
        cases hi
      | write hi hsize => exact Or.inr (Or.inr ⟨htmp, j, _, _, Function.update_self ..⟩)
      | rename hi hk hd =>
        rw [Disk.rename_eq_none.mpr htmp] at hd
        cases hd
      | lost hi hk _ => exact Or.inl ⟨j, _, Function.update_self ..⟩
    · have hj' : (s'.puts j).Writing := by
        rw [hm.other hji]
        exact hj
      by_cases hopen : s.puts i = .missing
      · exact hm.lost_of_disturbed hopen hj
      · -- without opening it again, nobody brings the name back
        have hgone : s'.disk.link .tmp = none := by
          cases hm with
          | found hi hfinal => exact htmp
          | missing hi hfinal => exact htmp
          | create hi => exact absurd hi hopen
          | write hi hsize => exact htmp
          | rename hi hk hd =>
            rw [Disk.rename_eq_none.mpr htmp] at hd
            cases hd
          | lost hi hk htmp => exact htmp
        exact Or.inr (Or.inr ⟨hgone, j, hj'⟩)

/-! ## Schedules -/

theorem Race.run_append (s : Race ι H) (xs ys : List (ι × Nat)) :
    s.run raw (xs ++ ys) = (s.run raw xs).bind fun s' => s'.run raw ys := by
  induction xs generalizing s with
  | nil => rfl
  | cons x xs ih =>
    simp only [List.cons_append, Race.run, ih]
    cases s.step raw x.1 x.2 <;> rfl

/-- A schedule that goes on does so from where its first part has led. -/
theorem Undisturbed.append {xs ys : List (ι × Nat)} (h : Undisturbed raw (xs ++ ys) s)
    (hrun : s.run raw xs = some s') : Undisturbed raw xs s ∧ Undisturbed raw ys s' := by
  induction xs generalizing s with
  | nil =>
    obtain rfl := Option.some.inj hrun
    exact ⟨trivial, h⟩
  | cons x xs ih =>
    obtain ⟨halone, hrest⟩ := h
    obtain ⟨s₁, hstep, hrun⟩ := Option.bind_eq_some_iff.mp hrun
    refine ⟨⟨halone, ?_⟩, (ih (hrest s₁ hstep) hrun).2⟩
    intro s₂ hstep'
    obtain rfl := Option.some.inj (hstep.symm.trans hstep')
    exact (ih (hrest s₁ hstep) hrun).1

/-- **An undisturbed race** keeps the invariant, and leaves settled files alone. -/
theorem Race.Inv.run (h : s.Inv raw) {schedule : List (ι × Nat)}
    (hund : Undisturbed raw schedule s) (hrun : s.run raw schedule = some s') :
    s'.Inv raw ∧ ∀ fd, s.Settled raw fd → s'.Settled raw fd := by
  induction schedule generalizing s with
  | nil =>
    obtain rfl := Option.some.inj hrun
    exact ⟨h, fun _ hfd => hfd⟩
  | cons x schedule ih =>
    obtain ⟨halone, hrest⟩ := hund
    obtain ⟨s₁, hstep, hrun⟩ := Option.bind_eq_some_iff.mp hrun
    have hmoves := Race.step_moves hstep
    obtain ⟨hinv, hsettled⟩ := ih (h.step halone hmoves) (hrest s₁ hstep) hrun
    exact ⟨hinv, fun fd hfd => hsettled fd (hfd.step h hmoves)⟩

/-- A race that is lost stays lost. -/
theorem Race.Lost.run (h : s.Lost) (hvalid : s.disk.Valid) {schedule : List (ι × Nat)}
    (hrun : s.run raw schedule = some s') : s'.Lost := by
  induction schedule generalizing s with
  | nil =>
    obtain rfl := Option.some.inj hrun
    exact h
  | cons x schedule ih =>
    obtain ⟨s₁, hstep, hrun⟩ := Option.bind_eq_some_iff.mp hrun
    have hmoves := Race.step_moves hstep
    exact ih (h.step hvalid hmoves) (hmoves.valid hvalid) hrun

/-- **A race that is disturbed is lost.** -/
theorem undisturbed_or_lost (hvalid : s.disk.Valid) {schedule : List (ι × Nat)}
    (hrun : s.run raw schedule = some s') : Undisturbed raw schedule s ∨ s'.Lost := by
  induction schedule generalizing s with
  | nil => exact Or.inl trivial
  | cons x schedule ih =>
    obtain ⟨s₁, hstep, hrun⟩ := Option.bind_eq_some_iff.mp hrun
    have hmoves := Race.step_moves hstep
    have hvalid₁ := hmoves.valid hvalid
    by_cases hdisturbed : s.puts x.1 = .missing ∧ ∃ j, (s.puts j).Writing
    · obtain ⟨hmissing, j, hj⟩ := hdisturbed
      exact Or.inr ((hmoves.lost_of_disturbed hmissing hj).run hvalid₁ hrun)
    · rcases ih hvalid₁ hrun with hund | hlost
      · refine Or.inl ⟨fun hmissing j hj => hdisturbed ⟨hmissing, j, hj⟩, ?_⟩
        intro s₂ hstep'
        obtain rfl := Option.some.inj (hstep.symm.trans hstep')
        exact hund
      · exact Or.inr hlost

omit [Format H] [DecidableEq ι] in
/-- When every put of a lost race has returned, one has failed. -/
theorem Race.Lost.exists_error (h : s.Lost) (hall : ∀ i, (s.puts i).Done) :
    ∃ i e, s.puts i = .done (.error e) := by
  have hclosed : ∀ i, ¬ (s.puts i).Writing := by
    rintro i ⟨fd, k, hi⟩
    obtain ⟨r, hr⟩ := hall i
    rw [hr] at hi
    cases hi
  rcases h with herror | ⟨i, -, -, hi, -⟩ | ⟨-, i, hi⟩
  · exact herror
  · exact absurd hi (hclosed i)
  · exact absurd hi (hclosed i)

/-! ## Which races succeed -/

variable [LinearOrder H]

/-- An undisturbed race succeeds, whether or not it is over. -/
theorem Race.Initial.succeeds {s₀ : Race ι H} (h : s₀.Initial raw) {schedule : List (ι × Nat)}
    (hund : ∀ n, Undisturbed raw (schedule.take n) s₀) :
    RacingPutsSucceed raw s₀ schedule where
  results n s hrun i r hi := ((h.inv.run (hund n) hrun).1.result i r hi).1
  reads n s hrun hdone := by
    obtain ⟨i, r, hi⟩ := hdone
    obtain ⟨hinv, -⟩ := h.inv.run (hund n) hrun
    obtain ⟨-, fd, hfd⟩ := hinv.result i r hi
    refine ⟨fd, hfd, ?_⟩
    intro m s' hnm hrun'
    -- what comes after `n` calls starts where these have led
    have hsplit : schedule.take m = schedule.take n ++ (schedule.drop n).take (m - n) := by
      rw [← List.take_add, Nat.add_sub_cancel' hnm]
    have hundm := hund m
    rw [hsplit] at hrun' hundm
    rw [Race.run_append, hrun] at hrun'
    have hlater := (hinv.run (hundm.append hrun).2 hrun').2 fd (hinv.settled hfd)
    rw [hlater.data]
    exact readObjectFile_frame raw

/-- **Which races succeed.** Puts of one object have run in some order of their system calls, until
all of them have returned. They have all succeeded, and the object could be read from the first
return on, exactly when no put opened the temporary file while another had it open. -/
theorem racingPutsSucceed_iff {s₀ s : Race ι H} (h : s₀.Initial raw) {schedule : List (ι × Nat)}
    (hrun : s₀.run raw schedule = some s) (hall : ∀ i, (s.puts i).Done) :
    RacingPutsSucceed raw s₀ schedule ↔ Undisturbed raw schedule s₀ := by
  constructor
  · intro hsucceed
    rcases undisturbed_or_lost h.valid hrun with hund | hlost
    · exact hund
    · obtain ⟨i, e, hi⟩ := hlost.exists_error hall
      have hok := hsucceed.results schedule.length s (by rwa [List.take_length]) i _ hi
      cases hok
  · intro hund
    apply h.succeeds
    intro n
    rw [← List.take_append_drop n schedule] at hund hrun
    rw [Race.run_append] at hrun
    obtain ⟨s₁, hfirst, -⟩ := Option.bind_eq_some_iff.mp hrun
    exact (hund.append hfirst).1

/-! ### Two puts of a blob -/

namespace TwoPuts

/-- The object. -/
def blob : RawObject := ⟨.blob, [97]⟩

/-- Two puts are about to begin, and there are no files. -/
def start : Race Bool PlainHash := ⟨⟨fun _ => none, fun _ => [], 0⟩, fun _ => .start⟩

/-- One after the other. -/
def inTurn : List (Bool × Nat) := [(false, 0), (false, 0), (false, 2), (false, 0), (true, 0)]

/-- Both find that there is no object, and then both write it. -/
def together : List (Bool × Nat) :=
  [(false, 0), (true, 0), (false, 0), (true, 0), (false, 2), (false, 0), (true, 2), (true, 0)]

theorem initial : start.Initial blob where
  puts _ := rfl
  valid := ⟨fun _ _ h => (by cases h), fun _ _ _ h => (by cases h)⟩
  final _ h := by cases h

/-- Where the second put has failed. -/
theorem together_lost : ∃ s, start.run blob together = some s ∧
    s.puts true = .done (.error (.io "No such file or directory (os error 2)")) := ⟨_, rfl, rfl⟩

end TwoPuts

/-- Two puts one after the other. -/
theorem racingPutsSucceed_inTurn : ∃ s, TwoPuts.start.run TwoPuts.blob TwoPuts.inTurn = some s ∧
    (RacingPutsSucceed TwoPuts.blob TwoPuts.start TwoPuts.inTurn ↔
      Undisturbed TwoPuts.blob TwoPuts.inTurn TwoPuts.start) := by
  refine ⟨_, rfl, racingPutsSucceed_iff TwoPuts.initial rfl ?_⟩
  intro i
  cases i with
  | false => exact ⟨_, rfl⟩
  | true => exact ⟨_, rfl⟩

/-- Of two puts that write the object together, the second finds nothing to rename. -/
theorem not_racingPutsSucceed_together :
    ¬ RacingPutsSucceed TwoPuts.blob TwoPuts.start TwoPuts.together := by
  intro h
  obtain ⟨s, hrun, hlost⟩ := TwoPuts.together_lost
  have hok := h.results 8 s hrun true _ hlost
  cases hok

end Tig
