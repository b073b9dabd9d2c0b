import Tig.Fs.EditScript

set_option relaxedAutoImplicit false
set_option autoImplicit false

/-!
# Two ways to take a text apart

A text is taken apart in two ways: by the line diff, for which a carriage return ends a line, and
into its lines, for which it does so in front of a newline only.

## Main definitions

* `Tig.ReturnsEndLines` — carriage returns stand in front of newlines, or last.
* `Tig.NoLoneReturn` — carriage returns stand in front of newlines.

## Main results

* `Tig.returnsEndLines_iff_length` — when the line diff sees as many lines as there are.
* `Tig.lines_eq_map_lineText` — then both ways find the same pieces.
* `Tig.NoLoneReturn.map_stripEol` — without lone carriage returns they find the same lines.
-/

namespace Tig

/-- Every carriage return stands in front of a newline, or last. -/
def ReturnsEndLines (cs : List Char) : Prop :=
  ∀ before c after, cs = before ++ '\r' :: c :: after → c = '\n'

/-- Every carriage return stands in front of a newline. -/
def NoLoneReturn (cs : List Char) : Prop :=
  ∀ before after, cs = before ++ '\r' :: after → ∃ rest, after = '\n' :: rest

/-- A line without its ending. A carriage return is part of an ending only in front of a newline. -/
def lineText (s : String) : String :=
  String.ofList
    (if s.toList.getLast? = some '\n' then stripLast '\r' s.toList.dropLast else s.toList)

theorem lines_eq_map (s : String) :
    lines s = (splitInclusive s.toList).map fun piece => lineText (String.ofList piece) := by
  simp only [lines, lineText, String.toList_ofList]

/-! ## One line -/

/-- Only an ending that is a carriage return alone is not the same for both. -/
theorem lineText_eq_stripEol_iff (s : String) :
    lineText s = stripEol s ↔ s.toList.getLast? ≠ some '\r' := by
  have hofList : ∀ {a b : List Char}, String.ofList a = String.ofList b ↔ a = b :=
    fun {a b} => ⟨fun h => by simpa using congrArg String.toList h, congrArg _⟩
  rw [lineText, stripEol, hofList]
  by_cases hn : s.toList.getLast? = some '\n'
  · simp [stripLast, hn]
  · rw [if_neg hn, stripLast, stripLast, if_neg hn]
    by_cases hr : s.toList.getLast? = some '\r'
    · rw [if_pos hr]
      refine iff_of_false (fun h => ?_) (not_not.mpr hr)
      have hpos := List.length_pos_of_mem (List.mem_of_getLast? hr)
      have hlen := congrArg List.length h
      rw [List.length_dropLast] at hlen
      omega
    · rw [if_neg hr]
      exact iff_of_true rfl hr

/-! ## Pieces -/

section Pieces

variable {c : Char} {cs : List Char}

/-- Induction over a text, by the endings of its lines. -/
theorem text_induction {motive : List Char → Prop} (nil : motive [])
    (newline : ∀ cs, motive cs → motive ('\n' :: cs))
    (crlf : ∀ cs, motive cs → motive ('\r' :: '\n' :: cs))
    (lone : ∀ cs, (∀ rest, cs ≠ '\n' :: rest) → motive cs → motive ('\r' :: cs))
    (plain : ∀ c cs, c ≠ '\n' → c ≠ '\r' → motive cs → motive (c :: cs)) (cs : List Char) :
    motive cs := by
  induction hlen : cs.length using Nat.strong_induction_on generalizing cs with
  | _ n ih =>
    subst hlen
    match cs with
    | [] => exact nil
    | c :: cs =>
      have hcs : motive cs := ih _ (by simp) cs rfl
      by_cases hn : c = '\n'
      · exact hn ▸ newline cs hcs
      by_cases hr : c = '\r'
      · subst hr
        match cs with
        | [] => exact lone [] (fun rest h => (List.cons_ne_nil _ rest h.symm)) hcs
        | d :: cs =>
          by_cases hd : d = '\n'
          · exact hd ▸ crlf cs (ih _ (by simp only [List.length_cons]; omega) cs rfl)
          · exact lone (d :: cs) (fun rest h => hd (List.cons.inj h).1) hcs
      · exact plain c cs hn hr hcs

theorem splitInclusive_newline (cs : List Char) :
    splitInclusive ('\n' :: cs) = ['\n'] :: splitInclusive cs := by
  rw [splitInclusive, if_pos rfl]

theorem splitInclusive_cons (hc : c ≠ '\n') (cs : List Char) :
    splitInclusive (c :: cs) =
      (c :: (splitInclusive cs).headD []) :: (splitInclusive cs).tail := by
  rw [splitInclusive, if_neg hc]
  cases splitInclusive cs <;> rfl

theorem splitInclusive_crlf (cs : List Char) :
    splitInclusive ('\r' :: '\n' :: cs) = ['\r', '\n'] :: splitInclusive cs := by
  rw [splitInclusive_cons (by decide), splitInclusive_newline]
  rfl

theorem splitLines_newline (cs : List Char) :
    splitLines ('\n' :: cs) = ['\n'] :: splitLines cs := by
  rw [splitLines, if_pos (Or.inl rfl)]
  intro _ h
  cases h

theorem splitLines_crlf (cs : List Char) :
    splitLines ('\r' :: '\n' :: cs) = ['\r', '\n'] :: splitLines cs := by
  rw [splitLines]

theorem splitLines_lone (hcs : ∀ rest, cs ≠ '\n' :: rest) :
    splitLines ('\r' :: cs) = ['\r'] :: splitLines cs := by
  rw [splitLines, if_pos (Or.inr rfl)]
  rintro rest - rfl
  exact hcs rest rfl

theorem splitLines_cons (hn : c ≠ '\n') (hr : c ≠ '\r') (cs : List Char) :
    splitLines (c :: cs) = (c :: (splitLines cs).headD []) :: (splitLines cs).tail := by
  rw [splitLines, if_neg (not_or.mpr ⟨hn, hr⟩)]
  · cases splitLines cs <;> rfl
  · rintro _ rfl rfl
    exact hr rfl

theorem splitInclusive_eq_nil : splitInclusive cs = [] ↔ cs = [] := by
  cases cs with
  | nil => simp [splitInclusive]
  | cons c cs =>
    by_cases hc : c = '\n'
    · simp [hc, splitInclusive_newline]
    · simp [splitInclusive_cons hc]

theorem returnsEndLines_cons :
    ReturnsEndLines (c :: cs) ↔
      ReturnsEndLines cs ∧ (c = '\r' → cs = [] ∨ ∃ rest, cs = '\n' :: rest) := by
  constructor
  · intro h
    refine ⟨fun before d after hcs => h (c :: before) d after (by rw [hcs]; rfl), ?_⟩
    rintro rfl
    cases cs with
    | nil => exact .inl rfl
    | cons d cs => exact .inr ⟨cs, by rw [h [] d cs rfl]⟩
  · rintro ⟨h, hc⟩ before d after hcs
    cases before with
    | nil =>
      obtain ⟨rfl, rfl⟩ := List.cons.inj hcs
      rcases hc rfl with h | ⟨rest, h⟩
      · cases h
      · exact (List.cons.inj h).1
    | cons _ before => exact h before d after (List.cons.inj hcs).2

theorem noLoneReturn_cons :
    NoLoneReturn (c :: cs) ↔ NoLoneReturn cs ∧ (c = '\r' → ∃ rest, cs = '\n' :: rest) := by
  constructor
  · intro h
    refine ⟨fun before after hcs => h (c :: before) after (by rw [hcs]; rfl), ?_⟩
    rintro rfl
    exact h [] cs rfl
  · rintro ⟨h, hc⟩ before after hcs
    cases before with
    | nil =>
      obtain ⟨rfl, rfl⟩ := List.cons.inj hcs
      exact hc rfl
    | cons _ before => exact h before after (List.cons.inj hcs).2

theorem NoLoneReturn.endLines (h : NoLoneReturn cs) : ReturnsEndLines cs := by
  intro before c after hcs
  obtain ⟨rest, hrest⟩ := h before (c :: after) hcs
  exact (List.cons.inj hrest).1

/-- The line diff sees at least as many lines. -/
theorem length_splitInclusive_le (cs : List Char) :
    (splitInclusive cs).length ≤ (splitLines cs).length := by
  induction cs using text_induction with
  | nil => exact le_rfl
  | newline cs ih => simpa [splitLines_newline, splitInclusive_newline] using ih
  | crlf cs ih => simpa [splitLines_crlf, splitInclusive_crlf] using ih
  | lone cs hcs ih =>
    rw [splitLines_lone hcs, splitInclusive_cons (by decide)]
    simp only [List.length_cons, List.length_tail]
    omega
  | plain c cs hn hr ih =>
    rw [splitLines_cons hn hr, splitInclusive_cons hn]
    simp only [List.length_cons, List.length_tail]
    omega

/-- If it sees as many, no carriage return ends a line alone. -/
theorem returnsEndLines_of_length (cs : List Char)
    (h : (splitLines cs).length = (splitInclusive cs).length) : ReturnsEndLines cs := by
  induction cs using text_induction with
  | nil => intro before c after h; cases before <;> cases h
  | newline cs ih =>
    rw [splitLines_newline, splitInclusive_newline] at h
    exact returnsEndLines_cons.mpr ⟨ih (Nat.succ.inj h), fun h => by cases h⟩
  | crlf cs ih =>
    rw [splitLines_crlf, splitInclusive_crlf] at h
    refine returnsEndLines_cons.mpr ⟨returnsEndLines_cons.mpr ⟨ih (Nat.succ.inj h), ?_⟩, ?_⟩
    · intro h
      cases h
    · exact fun _ => .inr ⟨cs, rfl⟩
  | lone cs hcs ih =>
    rw [splitLines_lone hcs, splitInclusive_cons (by decide)] at h
    have hle := length_splitInclusive_le cs
    simp only [List.length_cons, List.length_tail] at h
    have hnil : cs = [] := by
      rw [← splitInclusive_eq_nil, ← List.length_eq_zero_iff]
      omega
    subst hnil
    exact returnsEndLines_cons.mpr ⟨ih rfl, fun _ => .inl rfl⟩
  | plain c cs hn hr ih =>
    rw [splitLines_cons hn hr, splitInclusive_cons hn] at h
    refine returnsEndLines_cons.mpr ⟨ih ?_, fun h => absurd h hr⟩
    have hle := length_splitInclusive_le cs
    simp only [List.length_cons, List.length_tail] at h
    by_cases hcs : cs = []
    · subst hcs
      rfl
    · have := List.length_pos_iff.mpr (mt splitInclusive_eq_nil.mp hcs)
      omega

/-- Where no carriage return ends a line alone, both ways find the same pieces. -/
theorem ReturnsEndLines.splitLines_eq (h : ReturnsEndLines cs) :
    splitLines cs = splitInclusive cs := by
  induction cs using text_induction with
  | nil => rfl
  | newline cs ih =>
    rw [splitLines_newline, splitInclusive_newline, ih (returnsEndLines_cons.mp h).1]
  | crlf cs ih =>
    rw [splitLines_crlf, splitInclusive_crlf,
      ih (returnsEndLines_cons.mp (returnsEndLines_cons.mp h).1).1]
  | lone cs hcs ih =>
    obtain ⟨-, hend⟩ := returnsEndLines_cons.mp h
    rcases hend rfl with rfl | ⟨rest, hrest⟩
    · rfl
    · exact absurd hrest (hcs rest)
  | plain c cs hn hr ih =>
    rw [splitLines_cons hn hr, splitInclusive_cons hn, ih (returnsEndLines_cons.mp h).1]

/-- Without lone carriage returns no piece ends with one. -/
theorem NoLoneReturn.getLast?_ne (h : NoLoneReturn cs) :
    ∀ piece ∈ splitLines cs, piece.getLast? ≠ some '\r' := by
  induction cs using text_induction with
  | nil => intro piece hmem; cases hmem
  | newline cs ih =>
    rw [splitLines_newline]
    simpa using ih (noLoneReturn_cons.mp h).1
  | crlf cs ih =>
    rw [splitLines_crlf]
    simpa using ih (noLoneReturn_cons.mp (noLoneReturn_cons.mp h).1).1
  | lone cs hcs ih =>
    obtain ⟨rest, hrest⟩ := (noLoneReturn_cons.mp h).2 rfl
    exact absurd hrest (hcs rest)
  | plain c cs hn hr ih =>
    have hcs := ih (noLoneReturn_cons.mp h).1
    rw [splitLines_cons hn hr]
    intro piece hmem
    cases hsplit : splitLines cs with
    | nil =>
      rw [hsplit] at hmem
      obtain rfl := List.mem_singleton.mp hmem
      simpa using hr
    | cons first rest =>
      rw [hsplit] at hmem hcs
      rcases List.mem_cons.mp hmem with rfl | hmem
      · have hfirst := hcs first List.mem_cons_self
        cases first with
        | nil => simpa using hr
        | cons d ds => simpa [List.getLast?_cons_cons] using hfirst
      · exact hcs piece (List.mem_cons_of_mem _ hmem)

end Pieces

/-! ## Lines -/

variable {s : String}

/-- The line diff sees as many lines as there are where no carriage return ends a line alone. -/
theorem returnsEndLines_iff_length :
    ReturnsEndLines s.toList ↔ (tokenizeLines s).length = (lines s).length := by
  rw [tokenizeLines, lines_eq_map, List.length_map, List.length_map]
  exact ⟨fun h => congrArg List.length h.splitLines_eq, returnsEndLines_of_length _⟩

/-- Then its lines are those of the text. -/
theorem lines_eq_map_lineText (h : ReturnsEndLines s.toList) :
    lines s = (tokenizeLines s).map lineText := by
  rw [lines_eq_map, tokenizeLines, h.splitLines_eq, List.map_map]
  rfl

/-- **Without lone carriage returns** both ways find the same lines. -/
theorem NoLoneReturn.map_stripEol (h : NoLoneReturn s.toList) :
    (tokenizeLines s).map stripEol = lines s := by
  rw [lines_eq_map_lineText h.endLines]
  refine List.map_congr_left fun piece hmem => ?_
  obtain ⟨cs, hcs, rfl⟩ := List.mem_map.mp hmem
  refine ((lineText_eq_stripEol_iff _).mpr ?_).symm
  rw [String.toList_ofList]
  exact h.getLast?_ne cs hcs

end Tig
