import Mathlib.Data.List.Induction

set_option relaxedAutoImplicit false
set_option autoImplicit false

/-!
# Journalled tables

A table of cells that are read and written one at a time, and a journal whose records hold, for
the cells an operation wrote, the entries before and after. Writing a record's `before` entries
back undoes the operation, writing its `after` entries does it again, and a journal in which
every change is recorded so replays to the live table. Undo itself is a recorded operation, and
pairs with the operations before it like a closing bracket.

## Main definitions

* `Journal.Table` — a state seen as cells with a key, a read and a write.
* `Journal.Captures` — a pair of entry lists that records a change of state.
* `Journal.replay`, `Journal.lastTouch` — what a journal says the state is.
* `Journal.pick`, `Journal.live` — the record to undo next, and the stack of those not undone.
* `Journal.Linked` — every undo names the record that was on top of the stack.
* `Journal.Unwinds` — undoing the stack from the top goes back through the earlier states.
* `Journal.Chronicle` — the journal of a run, with the stack of what is not undone.

## Main results

* `Journal.Captures.restore_before`, `Journal.Captures.restore_after` — undo and redo.
* `Journal.read_replay` — a cell's value after a replay is the last entry that touched it.
* `Journal.pick_eq` — the depth counter picks the top of the stack.
* `Journal.Linked.mem_livePos_iff`, `Journal.Linked.nodup` — the stack, read off the names.
* `Journal.Chronicle.record`, `Journal.Chronicle.undo` — what an operation and an undo do to a
  chronicle.
-/

namespace Journal

/-! ## Tables -/

/-- A state `S` seen as a table: `read s k` is the entry of the cell `k`, `write s e` puts the
entry `e` into the cell it is for. A state is determined by its entries. -/
structure Table (S K E : Type) where
  key : E → K
  read : S → K → E
  write : S → E → S
  key_read : ∀ s k, key (read s k) = k
  read_write : ∀ s e, read (write s e) (key e) = e
  read_write_of_ne : ∀ s e k, k ≠ key e → read (write s e) k = read s k
  ext : ∀ s s', (∀ k, read s k = read s' k) → s = s'

variable {S K E : Type} (T : Table S K E)

/-- Write the entries of a list, in order. -/
def restore (s : S) (es : List E) : S := es.foldl T.write s

/-- A cell that no entry of the list is for keeps its value. -/
theorem read_restore_of_not_mem (s : S) (es : List E) {k : K} (hk : ∀ e ∈ es, k ≠ T.key e) :
    T.read (restore T s es) k = T.read s k := by
  induction es generalizing s with
  | nil => rfl
  | cons e es ih =>
    obtain ⟨he, hes⟩ := List.forall_mem_cons.mp hk
    exact (ih (T.write s e) hes).trans (T.read_write_of_ne s e k he)

/-- Writing the entries that another state has at some keys makes those cells the other
state's and leaves the rest alone. -/
theorem read_restore_map [DecidableEq K] (s t : S) (ks : List K) (k : K) :
    T.read (restore T s (ks.map (T.read t))) k = if k ∈ ks then T.read t k else T.read s k := by
  induction ks generalizing s with
  | nil => rfl
  | cons a ks ih =>
    have h := ih (T.write s (T.read t a))
    simp only [restore, List.map_cons, List.foldl_cons] at h ⊢
    rw [h]
    by_cases hk : k ∈ ks
    · simp [hk]
    · rw [if_neg hk]
      by_cases ha : k = a
      · subst ha
        have := T.read_write s (T.read t k)
        rw [T.key_read] at this
        simp [this]
      · rw [if_neg (by simp [ha, hk])]
        exact T.read_write_of_ne _ _ _ (by rwa [T.key_read])

/-! ## Records -/

/-- `before` and `after` record the change from `s` to `s'`: they hold the entries of the two
states at some keys, and the states agree everywhere else. -/
def Captures (before after : List E) (s s' : S) : Prop :=
  ∃ ks : List K, before = ks.map (T.read s) ∧ after = ks.map (T.read s') ∧
    ∀ k, k ∉ ks → T.read s' k = T.read s k

variable {T}

/-- Writing the recorded earlier entries undoes the change. -/
theorem Captures.restore_before [DecidableEq K] {before after : List E} {s s' : S}
    (h : Captures T before after s s') : restore T s' before = s := by
  obtain ⟨ks, rfl, -, hrest⟩ := h
  refine T.ext _ _ fun k => ?_
  rw [read_restore_map]
  split
  · rfl
  · exact hrest k ‹_›

/-- Writing the recorded later entries does the change again. -/
theorem Captures.restore_after [DecidableEq K] {before after : List E} {s s' : S}
    (h : Captures T before after s s') : restore T s after = s' := by
  obtain ⟨ks, -, rfl, hrest⟩ := h
  refine T.ext _ _ fun k => ?_
  rw [read_restore_map]
  split
  · rfl
  · exact (hrest k ‹_›).symm

/-- Going back through a change is itself recorded, by the entries read before and the entries
written. -/
theorem Captures.undo [DecidableEq K] {before after : List E} {s s' : S}
    (h : Captures T before after s s') :
    Captures T (before.map fun e => T.read s' (T.key e)) before s' (restore T s' before) := by
  obtain ⟨ks, hb, -, hrest⟩ := id h
  have hs := h.restore_before
  refine ⟨ks, ?_, ?_, fun k hk => ?_⟩
  · subst hb
    simp [Function.comp_def, T.key_read]
  · rw [hs, hb]
  · rw [hs, hrest k hk]

/-- Writing entries at some of the keys is recorded by what is read at the keys before and
after. -/
theorem Captures.of_restore {s : S} {es : List E} {ks : List K} (hks : ∀ e ∈ es, T.key e ∈ ks) :
    Captures T (ks.map (T.read s)) (ks.map (T.read (restore T s es))) s (restore T s es) := by
  refine ⟨ks, rfl, rfl, fun k hk => read_restore_of_not_mem T s es fun e he => ?_⟩
  rintro rfl
  exact hk (hks e he)

/-! ## Replay -/

variable (T)

/-- Write the later entries of every record, in order. `after` picks them out of a record. -/
def replay {R : Type} (after : R → List E) (s : S) (log : List R) : S :=
  log.foldl (fun s r => restore T s (after r)) s

/-- The last entry for the cell `k` in a list of entries. -/
def lastEntry [DecidableEq K] (k : K) (es : List E) : Option E :=
  es.reverse.find? fun e => T.key e = k

/-- The last entry a journal wrote to the cell `k`. -/
def lastTouch [DecidableEq K] {R : Type} (after : R → List E) (k : K) (log : List R) : Option E :=
  lastEntry T k (log.flatMap after)

/-- Replaying a journal writes all its entries in order. -/
theorem replay_eq_restore {R : Type} (after : R → List E) (s : S) (log : List R) :
    replay T after s log = restore T s (log.flatMap after) := by
  induction log generalizing s with
  | nil => rfl
  | cons r log ih =>
    have h := ih (restore T s (after r))
    simp only [replay, restore, List.foldl_cons, List.flatMap_cons, List.foldl_append] at h ⊢
    exact h

/-- A cell's value after writing a list of entries is the last entry for it, if there is one. -/
theorem read_restore [DecidableEq K] (s : S) (es : List E) (k : K) :
    T.read (restore T s es) k = (lastEntry T k es).getD (T.read s k) := by
  induction es using List.reverseRecOn with
  | nil => rfl
  | append_singleton es e ih =>
    have hsplit : restore T s (es ++ [e]) = T.write (restore T s es) e := by simp [restore]
    rw [hsplit]
    by_cases hk : T.key e = k
    · subst hk
      simp [lastEntry, T.read_write]
    · rw [T.read_write_of_ne _ _ _ (Ne.symm hk), ih]
      simp [lastEntry, hk]

/-- **What a journal says of a cell** is the last entry that touched it, or the cell's value at
the start. -/
theorem read_replay [DecidableEq K] {R : Type} (after : R → List E) (s : S) (log : List R)
    (k : K) :
    T.read (replay T after s log) k = (lastTouch T after k log).getD (T.read s k) := by
  rw [replay_eq_restore, read_restore, lastTouch]

theorem replay_append {R : Type} (after : R → List E) (s : S) (log : List R) (r : R) :
    replay T after s (log ++ [r]) = restore T (replay T after s log) (after r) := by
  simp [replay]

/-! ## Pairing undos with operations

The lists of this section have the latest record first. -/

section Pairing

variable {R : Type} (isUndo : R → Bool)

/-- Walk back over the records with a counter: an undo raises it, any other record lowers it,
and the first other record to meet the counter at zero is picked. -/
def pick (depth : Nat) : List R → Option R
  | [] => none
  | r :: earlier =>
    if isUndo r then pick (depth + 1) earlier
    else match depth with
      | 0 => some r
      | depth + 1 => pick depth earlier

/-- The records that are not undone, latest first: an undo takes the top of the stack off. -/
def live : List R → List R
  | [] => []
  | r :: earlier => if isUndo r then (live earlier).tail else r :: live earlier

/-- The positions, counted from the oldest record, of the records that are not undone. -/
def livePos : List R → List Nat
  | [] => []
  | r :: earlier => if isUndo r then (livePos earlier).tail else earlier.length :: livePos earlier

/-- **The counter picks from the stack**: started at `depth` it finds the record that far down
the stack of those not undone, whatever the records are. -/
theorem pick_eq (depth : Nat) (log : List R) : pick isUndo depth log = (live isUndo log)[depth]? := by
  induction log generalizing depth with
  | nil => simp [pick, live]
  | cons r earlier ih =>
    by_cases hu : isUndo r
    · simp [pick, live, hu, ih, List.getElem?_tail]
    · cases depth with
      | zero => simp [pick, live, hu]
      | succ depth => simp [pick, live, hu, ih]

/-- What is on the stack is a record of the journal, and not an undo. -/
theorem mem_of_mem_live {log : List R} {r : R} (h : r ∈ live isUndo log) :
    r ∈ log ∧ isUndo r = false := by
  induction log with
  | nil => simp [live] at h
  | cons a earlier ih =>
    by_cases hu : isUndo a
    · rw [live, if_pos hu] at h
      have hr := ih (List.mem_of_mem_tail h)
      exact ⟨List.mem_cons_of_mem _ hr.1, hr.2⟩
    · rw [live, if_neg hu] at h
      rcases List.mem_cons.mp h with rfl | h
      · exact ⟨List.mem_cons_self, by simpa using hu⟩
      · exact ⟨List.mem_cons_of_mem _ (ih h).1, (ih h).2⟩

theorem pick_zero (log : List R) : pick isUndo 0 log = (live isUndo log).head? := by
  rw [pick_eq, List.head?_eq_getElem?]

/-- The stack of records is the stack of their positions, read off the journal. -/
theorem live_eq_map_livePos (log : List R) :
    (live isUndo log).map some = (livePos isUndo log).map fun i => log.reverse[i]? := by
  induction log with
  | nil => rfl
  | cons r earlier ih =>
    have hlt : ∀ i ∈ livePos isUndo earlier, i < earlier.length := by
      intro i hi
      by_contra hge
      have hnone : earlier.reverse[i]? = none := by simp; omega
      have hmem := List.mem_map_of_mem (f := fun i => earlier.reverse[i]?) hi
      rw [← ih, hnone] at hmem
      simp at hmem
    have hsame : (livePos isUndo earlier).map (fun i => (r :: earlier).reverse[i]?) =
        (livePos isUndo earlier).map fun i => earlier.reverse[i]? := by
      refine List.map_congr_left fun i hi => ?_
      rw [List.reverse_cons, List.getElem?_append_left (by simpa using hlt i hi)]
    by_cases hu : isUndo r
    · simp only [live, livePos, hu, if_true, List.map_tail, hsame, ih]
    · simp only [live, livePos, hu, Bool.false_eq_true, if_false, List.map_cons, hsame, ih]
      simp

/-- Positions on the stack are those of earlier records. -/
theorem livePos_lt (log : List R) : ∀ i ∈ livePos isUndo log, i < log.length := by
  induction log with
  | nil => simp [livePos]
  | cons r earlier ih =>
    intro i hi
    rw [List.length_cons]
    rw [livePos] at hi
    split_ifs at hi
    · exact Nat.lt_succ_of_lt (ih i (List.mem_of_mem_tail hi))
    · rcases List.mem_cons.mp hi with rfl | hi
      · exact Nat.lt_succ_self _
      · exact Nat.lt_succ_of_lt (ih i hi)

/-- The stack has the latest record on top. -/
theorem livePos_decreasing (log : List R) : (livePos isUndo log).Pairwise (· > ·) := by
  induction log with
  | nil => exact List.Pairwise.nil
  | cons r earlier ih =>
    rw [livePos]
    split_ifs
    · exact ih.sublist (List.tail_sublist _)
    · exact List.pairwise_cons.mpr ⟨livePos_lt isUndo earlier, ih⟩

end Pairing

/-! ## Links

An undo may say which record it undoes. When each has named the top of the stack of its time, the
stack can be read off the links alone. -/

section Links

variable {R : Type} (link : R → Option Nat)

/-- Is the record an undo? It is if it names a position. -/
def isLink (r : R) : Bool := (link r).isSome

/-- Every undo names the position that was on top of the stack when it was made. -/
def Linked : List R → Prop
  | [] => True
  | r :: earlier =>
    (∀ i, link r = some i → (livePos (isLink link) earlier).head? = some i) ∧ Linked earlier

variable {link}

/-- A position that is named is one of an earlier record. -/
theorem Linked.lt_length {log : List R} (h : Linked link log) {u : R} (hu : u ∈ log) {i : Nat}
    (hi : link u = some i) : i < log.length := by
  induction log with
  | nil => cases hu
  | cons r earlier ih =>
    rw [List.length_cons]
    rcases List.mem_cons.mp hu with rfl | hu
    · have htop := List.mem_of_mem_head? (h.1 i hi)
      exact Nat.lt_succ_of_lt (livePos_lt _ earlier i htop)
    · exact Nat.lt_succ_of_lt (ih h.2 hu)

/-- **The stack, read off the links**: a record is on it if it is not an undo and no undo names
it. -/
theorem Linked.mem_livePos_iff {log : List R} (h : Linked link log) (i : Nat) :
    i ∈ livePos (isLink link) log ↔
      (∃ r, log.reverse[i]? = some r ∧ link r = none) ∧ ∀ u ∈ log, link u ≠ some i := by
  induction log with
  | nil => simp [livePos]
  | cons r earlier ih =>
    have hlen : earlier.reverse.length = earlier.length := List.length_reverse
    rw [livePos, List.reverse_cons]
    cases hr : link r with
    | none =>
      rw [if_neg (by simp [isLink, hr]), List.mem_cons, ih h.2]
      constructor
      · rintro (rfl | ⟨⟨r', hget, hr'⟩, hnot⟩)
        · refine ⟨⟨r, by simp, hr⟩, fun u hu hi => ?_⟩
          rcases List.mem_cons.mp hu with rfl | hu
          · simp [hr] at hi
          · exact absurd (h.2.lt_length hu hi) (Nat.lt_irrefl _)
        · refine ⟨⟨r', ?_, hr'⟩, fun u hu => ?_⟩
          · rw [List.getElem?_append_left (List.getElem?_eq_some_iff.mp hget).1]
            exact hget
          · rcases List.mem_cons.mp hu with rfl | hu
            · simp [hr]
            · exact hnot u hu
      · rintro ⟨⟨r', hget, hr'⟩, hnot⟩
        rcases Nat.lt_trichotomy i earlier.length with hlt | heq | hgt
        · rw [List.getElem?_append_left (hlen ▸ hlt)] at hget
          exact Or.inr ⟨⟨r', hget, hr'⟩, fun u hu => hnot u (List.mem_cons_of_mem _ hu)⟩
        · exact Or.inl heq
        · rw [List.getElem?_eq_none (by simp; omega)] at hget
          cases hget
    | some top =>
      rw [if_pos (by simp [isLink, hr])]
      have htop := h.1 top hr
      have hdec := livePos_decreasing (isLink link) earlier
      cases hpos : livePos (isLink link) earlier with
      | nil => simp [hpos] at htop
      | cons j rest =>
        obtain rfl : j = top := by simpa [hpos] using htop
        have hmem := ih h.2
        rw [hpos] at hdec
        rw [hpos, List.mem_cons] at hmem
        -- the top of the stack is not below itself
        have hne : i ∈ rest ↔ i ≠ j ∧ (i = j ∨ i ∈ rest) := by
          have hlt : i ∈ rest → i < j := fun hi => List.rel_of_pairwise_cons hdec hi
          constructor
          · intro hi
            exact ⟨Nat.ne_of_lt (hlt hi), Or.inr hi⟩
          · rintro ⟨hij, hi⟩
            exact hi.resolve_left hij
        rw [List.tail_cons, hne, hmem]
        constructor
        · rintro ⟨hij, ⟨r', hget, hr'⟩, hnot⟩
          refine ⟨⟨r', ?_, hr'⟩, fun u hu => ?_⟩
          · rw [List.getElem?_append_left (List.getElem?_eq_some_iff.mp hget).1]
            exact hget
          · rcases List.mem_cons.mp hu with rfl | hu
            · rw [hr]
              exact fun h => hij (Option.some.inj h).symm
            · exact hnot u hu
        · rintro ⟨⟨r', hget, hr'⟩, hnot⟩
          refine ⟨?_, ⟨r', ?_, hr'⟩, fun u hu => hnot u (List.mem_cons_of_mem _ hu)⟩
          · rintro rfl
            exact hnot r List.mem_cons_self hr
          · rcases Nat.lt_trichotomy i earlier.length with hlt | rfl | hgt
            · rwa [List.getElem?_append_left (hlen ▸ hlt)] at hget
            · -- the last record is the undo itself
              obtain rfl : r = r' := by simpa using hget
              simp [hr] at hr'
            · rw [List.getElem?_eq_none (by simp; omega)] at hget
              cases hget

/-- **No record is undone twice**: undos name different positions. -/
theorem Linked.nodup {log : List R} (h : Linked link log) : (log.filterMap link).Nodup := by
  induction log with
  | nil => exact List.nodup_nil
  | cons r earlier ih =>
    cases hr : link r with
    | none =>
      rw [List.filterMap_cons_none hr]
      exact ih h.2
    | some i =>
      rw [List.filterMap_cons_some hr]
      refine List.nodup_cons.mpr ⟨fun hi => ?_, ih h.2⟩
      obtain ⟨u, hu, hui⟩ := List.mem_filterMap.mp hi
      have htop := List.mem_of_mem_head? (h.1 i hr)
      exact ((h.2.mem_livePos_iff i).mp htop).2 u hu hui

/-- **What is picked** is the record at the top position, behind which every record is an undo or
has been undone. -/
theorem Linked.pick_spec {log : List R} (h : Linked link log) :
    match pick (isLink link) 0 log with
    | none => ∀ (i : Nat) (r : R), log.reverse[i]? = some r → link r = none →
        ∃ u ∈ log, link u = some i
    | some r => ∃ i, log.reverse[i]? = some r ∧ link r = none ∧ (∀ u ∈ log, link u ≠ some i) ∧
        (livePos (isLink link) log).head? = some i ∧
        ∀ j r', i < j → log.reverse[j]? = some r' → link r' = none → ∃ u ∈ log, link u = some j := by
  have hpick : (pick (isLink link) 0 log).map some =
      (livePos (isLink link) log).head?.map fun i => log.reverse[i]? := by
    rw [pick_zero, ← List.head?_map, ← List.head?_map, live_eq_map_livePos]
  have hdec := livePos_decreasing (isLink link) log
  -- a record that no undo names is on the stack
  have hstack : ∀ j r', log.reverse[j]? = some r' → link r' = none →
      j ∉ livePos (isLink link) log → ∃ u ∈ log, link u = some j := by
    intro j r' hget hr' hj
    by_contra hno
    refine hj ((h.mem_livePos_iff j).mpr ⟨⟨r', hget, hr'⟩, fun u hu hui => hno ⟨u, hu, hui⟩⟩)
  cases hpos : livePos (isLink link) log with
  | nil =>
    rw [hpos] at hpick hstack
    obtain hnone : pick (isLink link) 0 log = none := by simpa using hpick
    rw [hnone]
    exact fun i r hget hr => hstack i r hget hr List.not_mem_nil
  | cons i rest =>
    have hmem := (h.mem_livePos_iff i).mp (hpos ▸ List.mem_cons_self)
    obtain ⟨⟨r, hget, hr⟩, hnot⟩ := hmem
    rw [hpos] at hpick hstack hdec
    obtain hsome : pick (isLink link) 0 log = some r := by
      rw [List.head?_cons, Option.map_some, hget] at hpick
      simpa using hpick
    rw [hsome]
    refine ⟨i, hget, hr, hnot, rfl, fun j r' hij hget' hr' => hstack j r' hget' hr' fun hj => ?_⟩
    rcases List.mem_cons.mp hj with rfl | hj
    · exact Nat.lt_irrefl _ hij
    · exact Nat.lt_asymm hij (List.rel_of_pairwise_cons hdec hj)

end Links

/-! ## Chronicles -/

section Chronicle

variable {R : Type} (before after : R → List E) (isUndo : R → Bool)

/-- Undoing the records of a stack from the top goes back through the states they were made
from: `s` is the state now, and each position in the journal comes with the state before the
record there. -/
def Unwinds (log : List R) : S → List (Nat × S) → Prop
  | _, [] => True
  | s, (i, s₀) :: earlier =>
    (∃ r, log[i]? = some r ∧ Captures T (before r) (after r) s₀ s) ∧ Unwinds log s₀ earlier

/-- `log` is the journal of a run from the state `s₀` to the state `s`, and `σ` is the stack of
what is not undone: the positions of the records, each with the state before it. -/
structure Chronicle (s₀ : S) (log : List R) (σ : List (Nat × S)) (s : S) : Prop where
  replay : replay T after s₀ log = s
  faithful : ∀ i r, log[i]? = some r → Captures T (before r) (after r)
    (Journal.replay T after s₀ (log.take i)) (Journal.replay T after s₀ (log.take (i + 1)))
  positions : σ.map Prod.fst = livePos isUndo log.reverse
  past : ∀ p ∈ σ, p.2 = Journal.replay T after s₀ (log.take p.1)
  unwinds : Unwinds T before after log s σ

variable {T before after isUndo} {s₀ s s' : S} {log : List R} {σ : List (Nat × S)}

/-- What is on a stack is in the journal. -/
theorem Unwinds.lt_length (h : Unwinds T before after log s σ) : ∀ p ∈ σ, p.1 < log.length := by
  induction σ generalizing s with
  | nil => exact fun p hp => absurd hp List.not_mem_nil
  | cons q σ ih =>
    obtain ⟨⟨r, hr, -⟩, hσ⟩ := h
    intro p hp
    rcases List.mem_cons.mp hp with rfl | hp
    · exact (List.getElem?_eq_some_iff.mp hr).1
    · exact ih hσ p hp

/-- A stack is not affected by what is added to the journal. -/
theorem Unwinds.append (h : Unwinds T before after log s σ) (r : R) :
    Unwinds T before after (log ++ [r]) s σ := by
  induction σ generalizing s with
  | nil => trivial
  | cons q σ ih =>
    obtain ⟨⟨r', hr', hc⟩, hσ⟩ := h
    refine ⟨⟨r', ?_, hc⟩, ih hσ⟩
    rw [List.getElem?_append_left (List.getElem?_eq_some_iff.mp hr').1]
    exact hr'

/-- A run that has not done anything. -/
theorem Chronicle.nil (s₀ : S) : Chronicle T before after isUndo s₀ [] [] s₀ where
  replay := rfl
  faithful i r h := by simp at h
  positions := rfl
  past p hp := absurd hp List.not_mem_nil
  unwinds := trivial

/-- **The record to undo** is the one on top of the stack. -/
theorem Chronicle.pick_eq (h : Chronicle T before after isUndo s₀ log σ s) :
    pick isUndo 0 log.reverse = σ.head?.bind fun p => log[p.1]? := by
  have hlive := live_eq_map_livePos isUndo log.reverse
  rw [← h.positions, List.reverse_reverse, List.map_map] at hlive
  have hhead := congrArg List.head? hlive
  rw [List.head?_map, List.head?_map] at hhead
  rw [pick_zero]
  cases σ with
  | nil => simpa using hhead
  | cons p σ =>
    cases hl : (live isUndo log.reverse).head? with
    | none => simp [hl] at hhead
    | some r => simpa [hl] using hhead

/-- The states on the stack are those that the journal replays to, also when it has grown. -/
theorem Chronicle.past_append (h : Chronicle T before after isUndo s₀ log σ s) (r : R)
    (p : Nat × S) (hp : p ∈ σ) : p.2 = Journal.replay T after s₀ ((log ++ [r]).take p.1) := by
  rw [List.take_append_of_le_length (Nat.le_of_lt (h.unwinds.lt_length p hp))]
  exact h.past p hp

variable [DecidableEq K]

/-- A recorded change of the state keeps the parts of a chronicle that are about the journal. -/
theorem Chronicle.faithful_append (h : Chronicle T before after isUndo s₀ log σ s)
    {r : R} (hr : Captures T (before r) (after r) s s') (i : Nat) (r' : R)
    (hi : (log ++ [r])[i]? = some r') :
    Captures T (before r') (after r') (Journal.replay T after s₀ ((log ++ [r]).take i))
      (Journal.replay T after s₀ ((log ++ [r]).take (i + 1))) := by
  rcases Nat.lt_trichotomy i log.length with hlt | rfl | hgt
  · rw [List.getElem?_append_left hlt] at hi
    rw [List.take_append_of_le_length (by omega), List.take_append_of_le_length (by omega)]
    exact h.faithful i r' hi
  · obtain rfl : r = r' := by simpa using hi
    rw [List.take_left, List.take_of_length_le (by simp), replay_append, h.replay,
      hr.restore_after]
    exact hr
  · rw [List.getElem?_eq_none (by simp; omega)] at hi
    cases hi

/-- **An operation** goes on top of the stack, with the state before it. -/
theorem Chronicle.record (h : Chronicle T before after isUndo s₀ log σ s) {r : R}
    (hu : isUndo r = false) (hr : Captures T (before r) (after r) s s') :
    Chronicle T before after isUndo s₀ (log ++ [r]) ((log.length, s) :: σ) s' where
  replay := by rw [replay_append, h.replay, hr.restore_after]
  faithful := h.faithful_append hr
  positions := by simp [livePos, hu, h.positions]
  past p hp := by
    rcases List.mem_cons.mp hp with rfl | hp
    · rw [List.take_left]
      exact h.replay.symm
    · exact h.past_append r p hp
  unwinds := ⟨⟨r, by simp, hr⟩, h.unwinds.append r⟩

/-- **An undo** of the record on top of the stack takes it off and goes back to the state before
it. Its own record holds what the cells held and what was written to them. -/
theorem Chronicle.undo {i : Nat} {u r : R}
    (h : Chronicle T before after isUndo s₀ log ((i, s') :: σ) s) (hu : isUndo u = true)
    (hr : log[i]? = some r) (hbefore : before u = (before r).map fun e => T.read s (T.key e))
    (hafter : after u = before r) :
    Captures T (before u) (after u) s s' ∧
      Chronicle T before after isUndo s₀ (log ++ [u]) σ s' := by
  obtain ⟨⟨r', hr', hc⟩, hσ⟩ := h.unwinds
  obtain rfl := Option.some.inj (hr.symm.trans hr')
  have hundo := hc.undo
  rw [hc.restore_before, ← hbefore, ← hafter] at hundo
  refine ⟨hundo, ?_⟩
  exact
    { replay := by rw [replay_append, h.replay, hundo.restore_after]
      faithful := h.faithful_append hundo
      positions := by
        rw [List.reverse_append, List.reverse_singleton, List.singleton_append, livePos, if_pos hu,
          ← h.positions]
        rfl
      past := fun p hp => h.past_append u p (List.mem_cons_of_mem _ hp)
      unwinds := hσ.append u }

/-- **Each entry before a record** is the last one that touched its cell, or what the cell held
at the start. -/
theorem Chronicle.before_eq (h : Chronicle T before after isUndo s₀ log σ s) {i : Nat} {r : R}
    (hr : log[i]? = some r) {e : E} (he : e ∈ before r) :
    e = (lastTouch T after (T.key e) (log.take i)).getD (T.read s₀ (T.key e)) := by
  obtain ⟨ks, hb, -, -⟩ := h.faithful i r hr
  rw [hb] at he
  obtain ⟨k, -, rfl⟩ := List.mem_map.mp he
  rw [T.key_read, read_replay]

/-- An entry of a state that a run was in is one from the start, or one that a record wrote. -/
theorem Chronicle.read_mem (h : Chronicle T before after isUndo s₀ log σ s) {t : S}
    (ht : t = s ∨ ∃ i, (i, t) ∈ σ) (k : K) :
    T.read t k = T.read s₀ k ∨ ∃ r ∈ log, T.read t k ∈ after r := by
  obtain ⟨earlier, hsub, rfl⟩ : ∃ earlier, earlier <+: log ∧ t = Journal.replay T after s₀ earlier := by
    rcases ht with rfl | ⟨i, hi⟩
    · exact ⟨log, List.prefix_rfl, h.replay.symm⟩
    · exact ⟨log.take i, List.take_prefix i log, h.past _ hi⟩
  rw [read_replay]
  cases hlast : lastTouch T after k earlier with
  | none => exact Or.inl rfl
  | some e =>
    have hmem := List.mem_reverse.mp (List.mem_of_find?_eq_some hlast)
    obtain ⟨r, hr, he⟩ := List.mem_flatMap.mp hmem
    exact Or.inr ⟨r, hsub.subset hr, he⟩

end Chronicle

end Journal
