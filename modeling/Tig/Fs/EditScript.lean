import Mathlib.Data.List.Range
import Tig.Fs.Text

set_option relaxedAutoImplicit false
set_option autoImplicit false

/-!
# Edit scripts

What is expected of the line diff: it takes texts apart into lines that end with a newline, a
carriage return or both, and goes through the lines of both sides in order.

## Main definitions

* `Tig.tokenizeLines` — the lines of a text, with their endings, as the line diff sees them.
* `Tig.EditScript` — a line diff leads from some lines to others.
* `Tig.Grouped` — the pieces of a line diff around its changes.
* `Tig.rewriteAll` — the line diff that matches nothing.

## Main results

* `Tig.EditScript.split` — pieces of a line diff lead from pieces of one side to pieces of the other.
-/

namespace Tig

/-! ## The lines of a text -/

/-- The pieces of a text that end with a newline, with a carriage return, with both, or with the
text. -/
def splitLines : List Char → List (List Char)
  | [] => []
  | '\r' :: '\n' :: cs => ['\r', '\n'] :: splitLines cs
  | c :: cs =>
    if c = '\n' ∨ c = '\r' then [c] :: splitLines cs
    else
      match splitLines cs with
      | [] => [[c]]
      | line :: rest => (c :: line) :: rest

/-- The lines of a text, with their endings. -/
def tokenizeLines (s : String) : List String := (splitLines s.toList).map String.ofList

example : tokenizeLines "a\r\n\nb\rc" = ["a\r\n", "\n", "b\r", "c"] := by decide

/-! ## Line diffs -/

/-- The changes lead from the lines on one side, the first of which has the index `i`, to those on the
other, the first of which has the index `j`. -/
inductive EditScript : Nat → Nat → List String → List String → List LineChange → Prop
  | nil (i j : Nat) : EditScript i j [] [] []
  | equal {i j : Nat} {olds news : List String} {changes : List LineChange} (line : String)
      (h : EditScript (i + 1) (j + 1) olds news changes) :
      EditScript i j (line :: olds) (line :: news) (⟨.equal, some i, some j, line⟩ :: changes)
  | delete {i j : Nat} {olds news : List String} {changes : List LineChange} (line : String)
      (h : EditScript (i + 1) j olds news changes) :
      EditScript i j (line :: olds) news (⟨.delete, some i, none, line⟩ :: changes)
  | insert {i j : Nat} {olds news : List String} {changes : List LineChange} (line : String)
      (h : EditScript i (j + 1) olds news changes) :
      EditScript i j olds (line :: news) (⟨.insert, none, some j, line⟩ :: changes)

variable {i j : Nat} {olds news : List String} {changes changes' : List LineChange}

/-- **Pieces of a line diff** lead from pieces of one side to pieces of the other. -/
theorem EditScript.split (h : EditScript i j olds news (changes ++ changes')) :
    ∃ olds₁ olds₂ news₁ news₂, olds = olds₁ ++ olds₂ ∧ news = news₁ ++ news₂ ∧
      EditScript i j olds₁ news₁ changes ∧
      EditScript (i + olds₁.length) (j + news₁.length) olds₂ news₂ changes' := by
  induction changes generalizing i j olds news with
  | nil => exact ⟨[], olds, [], news, rfl, rfl, .nil i j, h⟩
  | cons change changes ih =>
    cases h with
    | equal line h =>
      obtain ⟨o₁, o₂, n₁, n₂, rfl, rfl, h₁, h₂⟩ := ih h
      refine ⟨line :: o₁, o₂, line :: n₁, n₂, rfl, rfl, .equal line h₁, ?_⟩
      rw [List.length_cons, List.length_cons, ← Nat.add_assoc, ← Nat.add_assoc,
        Nat.add_right_comm i, Nat.add_right_comm j]
      exact h₂
    | delete line h =>
      obtain ⟨o₁, o₂, n₁, n₂, rfl, rfl, h₁, h₂⟩ := ih h
      refine ⟨line :: o₁, o₂, n₁, n₂, rfl, rfl, .delete line h₁, ?_⟩
      rw [List.length_cons, ← Nat.add_assoc, Nat.add_right_comm i]
      exact h₂
    | insert line h =>
      obtain ⟨o₁, o₂, n₁, n₂, rfl, rfl, h₁, h₂⟩ := ih h
      refine ⟨o₁, o₂, line :: n₁, n₂, rfl, rfl, .insert line h₁, ?_⟩
      rw [List.length_cons, ← Nat.add_assoc, Nat.add_right_comm j]
      exact h₂

/-- The indices on the old side are those of the old lines. -/
theorem EditScript.oldIndices (h : EditScript i j olds news changes) :
    changes.filterMap LineChange.oldIndex = List.range' i olds.length := by
  induction h with
  | nil => rfl
  | equal line _ ih => simp [ih, List.range'_succ]
  | delete line _ ih => simp [ih, List.range'_succ]
  | insert line _ ih => simpa using ih

/-- The indices on the new side are those of the new lines. -/
theorem EditScript.newIndices (h : EditScript i j olds news changes) :
    changes.filterMap LineChange.newIndex = List.range' j news.length := by
  induction h with
  | nil => rfl
  | equal line _ ih => simp [ih, List.range'_succ]
  | delete line _ ih => simpa using ih
  | insert line _ ih => simp [ih, List.range'_succ]

/-! ## Pieces around the changes -/

/-- Nothing is changed. -/
def AllEqual (changes : List LineChange) : Prop := ∀ change ∈ changes, change.tag = .equal

/-- What is not changed is the same on both sides. -/
theorem EditScript.eq_of_allEqual (h : EditScript i j olds news changes) (heq : AllEqual changes) :
    olds = news := by
  induction h with
  | nil => rfl
  | equal line _ ih => rw [ih fun change hc => heq change (List.mem_cons_of_mem _ hc)]
  | delete line => exact ChangeTag.noConfusion (heq _ List.mem_cons_self)
  | insert line => exact ChangeTag.noConfusion (heq _ List.mem_cons_self)

/-- The pieces of a line diff around its changes: only lines that are not changed are left out, and a
piece begins with `context` of them, unless it is the first piece and nothing is left out before. -/
inductive Grouped (context : Nat) : (first : Bool) → List LineChange → List (List LineChange) → Prop
  | nil {first : Bool} {gap : List LineChange} (hgap : AllEqual gap) : Grouped context first gap []
  | cons {first : Bool} {gap piece rest : List LineChange} {pieces : List (List LineChange)}
      (hgap : AllEqual gap)
      (hlead : first = false ∨ gap ≠ [] → ∃ lead more, piece = lead ++ more ∧ AllEqual lead ∧
        lead.length = context)
      (hrest : Grouped context false rest pieces) :
      Grouped context first (gap ++ piece ++ rest) (piece :: pieces)

/-- A piece that begins with a line that is not changed has lines on both sides. -/
theorem EditScript.ne_nil_of_lead {context : Nat} (hcontext : 0 < context)
    (h : EditScript i j olds news changes)
    (hlead : ∃ lead more, changes = lead ++ more ∧ AllEqual lead ∧ lead.length = context) :
    olds ≠ [] ∧ news ≠ [] := by
  obtain ⟨lead, more, rfl, heq, rfl⟩ := hlead
  cases lead with
  | nil => exact absurd hcontext (Nat.lt_irrefl 0)
  | cons change lead =>
    have hchange := heq change List.mem_cons_self
    cases h with
    | equal line h => exact ⟨List.cons_ne_nil _ _, List.cons_ne_nil _ _⟩
    | delete line h => cases hchange
    | insert line h => cases hchange

/-! ## The line diff that matches nothing -/

/-- All lines are deleted. -/
def deleteAll (i : Nat) : List String → List LineChange
  | [] => []
  | line :: olds => ⟨.delete, some i, none, line⟩ :: deleteAll (i + 1) olds

/-- All lines are inserted. -/
def insertAll (j : Nat) : List String → List LineChange
  | [] => []
  | line :: news => ⟨.insert, none, some j, line⟩ :: insertAll (j + 1) news

/-- The line diff that deletes what is there and inserts what is to be there. -/
def rewriteAll (before after : String) : List LineChange :=
  deleteAll 0 (tokenizeLines before) ++ insertAll 0 (tokenizeLines after)

theorem editScript_insertAll (i j : Nat) (news : List String) :
    EditScript i j [] news (insertAll j news) := by
  induction news generalizing j with
  | nil => exact .nil i j
  | cons line news ih => exact .insert line (ih (j + 1))

theorem editScript_rewriteAll (before after : String) :
    EditScript 0 0 (tokenizeLines before) (tokenizeLines after) (rewriteAll before after) := by
  have hdelete : ∀ (olds news : List String) (i : Nat),
      EditScript i 0 olds news (deleteAll i olds ++ insertAll 0 news) := by
    intro olds news
    induction olds with
    | nil => exact fun i => editScript_insertAll i 0 news
    | cons line olds ih => exact fun i => .delete line (ih (i + 1))
  exact hdelete _ _ 0

/-- A library with this line diff. It has no regular expressions. -/
def TextLib.rewriting : TextLib where
  lineChanges := rewriteAll
  hunkChanges _ before after := [rewriteAll before after]
  regex _ _ := .error "unused"
  lowercase text := text

end Tig
