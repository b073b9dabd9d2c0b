import Tig.Fs.Diff
import Tig.Fs.EditScript

set_option relaxedAutoImplicit false
set_option autoImplicit false

/-!
# Hunks are a patch

The ranges of a hunk are put together from the indices of its changes, and its lines lose their
endings on the way. What comes out still can be applied.

## Main definitions

* `Tig.applyHunks` — applies hunks to the lines of a file, checking what it passes.
* `Tig.ValidPatch` — hunks lead from the lines of one file to those of another.

## Main results

* `Tig.blobDiffHunks_validPatch` — **the hunks between two texts are a valid patch**.
-/

namespace Tig

/-! ## Patches -/

/-- The line of the first file that a line of a hunk stands for. -/
def HunkLine.old? : HunkLine → Option String
  | .context line | .remove line => some line
  | .add _ => none

/-- The line of the second file that a line of a hunk stands for. -/
def HunkLine.new? : HunkLine → Option String
  | .context line | .add line => some line
  | .remove _ => none

/-- The lines that a hunk has on the first side. -/
def Hunk.oldLines (hunk : Hunk) : List String := hunk.lines.filterMap HunkLine.old?

/-- The lines that a hunk has on the second side. -/
def Hunk.newLines (hunk : Hunk) : List String := hunk.lines.filterMap HunkLine.new?

/-- Goes through the lines of a hunk over those of a file: the lines that come out, and the lines of
the file that are left. -/
def applyLines : List HunkLine → List String → Option (List String × List String)
  | [], file => some ([], file)
  | .add line :: hunk, file => (applyLines hunk file).map fun (out, rest) => (line :: out, rest)
  | .context line :: hunk, l :: file =>
    if l = line then (applyLines hunk file).map fun (out, rest) => (l :: out, rest) else none
  | .remove line :: hunk, l :: file => if l = line then applyLines hunk file else none
  | .context _ :: _, [] | .remove _ :: _, [] => none

/-- Applies hunks to the lines of a file from that of index `i` on, when `j` lines have come out
before. A hunk has to begin where its ranges say it does. -/
def applyHunks : (i j : Nat) → List Hunk → List String → Option (List String)
  | _, _, [], file => some file
  | i, j, hunk :: hunks, file =>
    let gap := hunk.fromStart - 1 - i
    if i ≤ hunk.fromStart - 1 ∧ (hunk.toLen = 0 ∨ hunk.toStart = j + gap + 1) then
      (applyLines hunk.lines (file.drop gap)).bind fun (out, rest) =>
        (applyHunks (i + gap + hunk.fromLen) (j + gap + hunk.toLen) hunks rest).map fun after =>
          file.take gap ++ out ++ after
    else none

/-- Some lines stand in a file at a line that is counted from 1; no lines stand at 0. -/
structure StandsAt (start len : Nat) (side file : List String) : Prop where
  len_eq : len = side.length
  start_eq_zero : start = 0 ↔ side = []
  lines_eq : side ≠ [] → side <+: file.drop (start - 1)

/-- Hunks lead from the lines of one file to those of another. -/
structure ValidPatch (hunks : List Hunk) (before after : List String) : Prop where
  from_stands : ∀ hunk ∈ hunks, StandsAt hunk.fromStart hunk.fromLen hunk.oldLines before
  to_stands : ∀ hunk ∈ hunks, StandsAt hunk.toStart hunk.toLen hunk.newLines after
  ordered : hunks.Pairwise fun hunk later =>
    hunk.fromStart + hunk.fromLen ≤ later.fromStart ∧ hunk.toStart + hunk.toLen ≤ later.toStart
  applies : applyHunks 0 0 hunks before = some after

/-- What the line diff is taken to be: its pieces are those of a line diff of the lines of both texts,
with as much context as is asked for. -/
def TextLib.GroupsChanges (lib : TextLib) : Prop :=
  ∀ (context : Nat) (before after : String), 0 < context → ∃ script,
    EditScript 0 0 (tokenizeLines before) (tokenizeLines after) script ∧
      Grouped context true script (lib.hunkChanges context before after)

/-! ## One hunk -/

section Hunk

variable {i j context : Nat} {first : Bool} {olds news : List String} {changes : List LineChange}
  {pieces : List (List LineChange)}

/-- A side of a hunk starts at its first line. -/
theorem start_of_range (n len : Nat) :
    (((List.range' n len).head?.map (· + 1)).getD 0) = if len = 0 then 0 else n + 1 := by
  cases len with
  | zero => rfl
  | succ len => simp [List.range'_succ]

/-- The ranges of a hunk that leads from some lines to others. -/
theorem EditScript.ranges (h : EditScript i j olds news changes) :
    (Hunk.ofChanges changes).fromStart = (if olds.length = 0 then 0 else i + 1) ∧
      (Hunk.ofChanges changes).fromLen = olds.length ∧
      (Hunk.ofChanges changes).toStart = (if news.length = 0 then 0 else j + 1) ∧
      (Hunk.ofChanges changes).toLen = news.length := by
  simp only [Hunk.ofChanges, h.oldIndices, h.newIndices, start_of_range, List.length_range',
    and_self]

/-- The lines of a hunk that leads from some lines to others are these, without their endings. -/
theorem EditScript.hunkLines (h : EditScript i j olds news changes) :
    (Hunk.ofChanges changes).oldLines = olds.map stripEol ∧
      (Hunk.ofChanges changes).newLines = news.map stripEol := by
  simp only [Hunk.oldLines, Hunk.newLines, Hunk.ofChanges]
  induction h with
  | nil => exact ⟨rfl, rfl⟩
  | equal line _ ih => exact ⟨congrArg (stripEol line :: ·) ih.1, congrArg (stripEol line :: ·) ih.2⟩
  | delete line _ ih => exact ⟨congrArg (stripEol line :: ·) ih.1, ih.2⟩
  | insert line _ ih => exact ⟨ih.1, congrArg (stripEol line :: ·) ih.2⟩

/-- A hunk that leads from some lines to others can be applied to a file that goes on with the
former. -/
theorem EditScript.applyLines_eq (h : EditScript i j olds news changes) (file : List String) :
    applyLines (Hunk.ofChanges changes).lines (olds.map stripEol ++ file) =
      some (news.map stripEol, file) := by
  simp only [Hunk.ofChanges]
  induction h with
  | nil => rfl
  | equal line _ ih => simp [applyLines, HunkLine.ofChange, ih]
  | delete line _ ih => simp [applyLines, HunkLine.ofChange, ih]
  | insert line _ ih => simp [applyLines, HunkLine.ofChange, ih]

/-- **A hunk stands where its ranges say.** -/
theorem EditScript.standsAt {before after oldRest newRest : List String}
    (h : EditScript before.length after.length olds news changes) :
    StandsAt (Hunk.ofChanges changes).fromStart (Hunk.ofChanges changes).fromLen
        (Hunk.ofChanges changes).oldLines ((before ++ olds ++ oldRest).map stripEol) ∧
      StandsAt (Hunk.ofChanges changes).toStart (Hunk.ofChanges changes).toLen
        (Hunk.ofChanges changes).newLines ((after ++ news ++ newRest).map stripEol) := by
  obtain ⟨hfrom, hfromLen, hto, htoLen⟩ := h.ranges
  obtain ⟨hold, hnew⟩ := h.hunkLines
  have hstands : ∀ (pre side rest : List String) (start : Nat),
      start = (if side.length = 0 then 0 else pre.length + 1) →
        StandsAt start side.length (side.map stripEol) ((pre ++ side ++ rest).map stripEol) := by
    intro pre side rest start hstart
    refine ⟨(List.length_map _).symm, ?_, ?_⟩
    · rw [hstart, List.map_eq_nil_iff, ← List.length_eq_zero_iff]
      split <;> omega
    · intro hside
      have hlen : side.length ≠ 0 := fun h0 => hside (by rw [List.length_eq_zero_iff.mp h0]; rfl)
      rw [hstart, if_neg hlen, Nat.add_sub_cancel, List.append_assoc, List.map_append,
        List.map_append, List.drop_left' (List.length_map _)]
      exact List.prefix_append _ _
  rw [hfromLen, hold, htoLen, hnew]
  exact ⟨hstands _ _ _ _ hfrom, hstands _ _ _ _ hto⟩

/-! ## All hunks -/

/-- A piece of a line diff leads from some of the lines to some of the others. -/
theorem Grouped.mem (hgrouped : Grouped context first changes pieces)
    (h : EditScript i j olds news changes) {piece : List LineChange} (hmem : piece ∈ pieces) :
    ∃ o₁ o o₂ n₁ n n₂, olds = o₁ ++ o ++ o₂ ∧ news = n₁ ++ n ++ n₂ ∧
      EditScript (i + o₁.length) (j + n₁.length) o n piece := by
  induction hgrouped generalizing i j olds news with
  | nil => cases hmem
  | @cons first gap head rest pieces _ _ _ ih =>
    obtain ⟨o, o₃, n, n₃, rfl, rfl, h, h₃⟩ := h.split
    rcases List.mem_cons.mp hmem with rfl | hmem
    · obtain ⟨o₁, o₂, n₁, n₂, rfl, rfl, -, h₂⟩ := h.split
      exact ⟨o₁, o₂, o₃, n₁, n₂, n₃, rfl, rfl, h₂⟩
    · obtain ⟨o₁, o', o₂, n₁, n', n₂, rfl, rfl, h'⟩ := ih h₃ hmem
      refine ⟨o ++ o₁, o', o₂, n ++ n₁, n', n₂, ?_, ?_, ?_⟩
      · simp only [List.append_assoc]
      · simp only [List.append_assoc]
      · rw [List.length_append, List.length_append, ← Nat.add_assoc, ← Nat.add_assoc]
        exact h'

/-- Hunks that do not come first start after what is behind. -/
theorem Grouped.starts_after (hcontext : 0 < context) (hgrouped : Grouped context first changes pieces)
    (hfirst : first = false) (h : EditScript i j olds news changes) :
    ∀ hunk ∈ pieces.map Hunk.ofChanges, i + 1 ≤ hunk.fromStart ∧ j + 1 ≤ hunk.toStart := by
  induction hgrouped generalizing i j olds news with
  | nil => intro hunk hmem; cases hmem
  | @cons first gap head rest pieces hgap hlead hrest ih =>
    obtain ⟨o, o₃, n, n₃, rfl, rfl, h, h₃⟩ := h.split
    intro hunk hmem
    rcases List.mem_cons.mp hmem with rfl | hmem
    · obtain ⟨o₁, o₂, n₁, n₂, rfl, rfl, -, h₂⟩ := h.split
      obtain ⟨hfrom, -, hto, -⟩ := h₂.ranges
      obtain ⟨ho, hn⟩ := h₂.ne_nil_of_lead hcontext (hlead (.inl hfirst))
      rw [hfrom, hto, if_neg (mt List.length_eq_zero_iff.mp ho),
        if_neg (mt List.length_eq_zero_iff.mp hn)]
      omega
    · have := ih rfl h₃ hunk hmem
      omega

/-- A hunk starts nowhere or behind the lines before it. -/
theorem EditScript.range_le (h : EditScript i j olds news changes) :
    (Hunk.ofChanges changes).fromStart + (Hunk.ofChanges changes).fromLen ≤ i + olds.length + 1 ∧
      (Hunk.ofChanges changes).toStart + (Hunk.ofChanges changes).toLen ≤ j + news.length + 1 := by
  obtain ⟨hfrom, hfromLen, hto, htoLen⟩ := h.ranges
  rw [hfrom, hfromLen, hto, htoLen]
  constructor <;> split <;> omega

/-- **Hunks are in order** and do not overlap on either side. -/
theorem Grouped.ordered (hcontext : 0 < context) (hgrouped : Grouped context first changes pieces)
    (h : EditScript i j olds news changes) :
    (pieces.map Hunk.ofChanges).Pairwise fun hunk later =>
      hunk.fromStart + hunk.fromLen ≤ later.fromStart ∧
        hunk.toStart + hunk.toLen ≤ later.toStart := by
  induction hgrouped generalizing i j olds news with
  | nil => exact List.Pairwise.nil
  | @cons first gap head rest pieces hgap hlead hrest ih =>
    obtain ⟨o, o₃, n, n₃, rfl, rfl, h, h₃⟩ := h.split
    obtain ⟨o₁, o₂, n₁, n₂, rfl, rfl, -, h₂⟩ := h.split
    refine List.Pairwise.cons ?_ (ih h₃)
    intro later hlater
    have hafter := hrest.starts_after hcontext rfl h₃ later hlater
    have hrange := h₂.range_le
    simp only [List.length_append] at hafter
    omega

/-- **Hunks can be applied**, and lead to the lines of the other side. -/
theorem Grouped.applies (hcontext : 0 < context) (hgrouped : Grouped context first changes pieces)
    (hstart : first = true → i = 0) (h : EditScript i j olds news changes) :
    applyHunks i j (pieces.map Hunk.ofChanges) (olds.map stripEol) = some (news.map stripEol) := by
  induction hgrouped generalizing i j olds news with
  | nil hgap => rw [h.eq_of_allEqual hgap]; rfl
  | @cons first gap head rest pieces hgap hlead hrest ih =>
    obtain ⟨o, o₃, n, n₃, rfl, rfl, h, h₃⟩ := h.split
    obtain ⟨o₁, o₂, n₁, n₂, rfl, rfl, h₁, h₂⟩ := h.split
    cases h₁.eq_of_allEqual hgap
    obtain ⟨hfrom, hfromLen, hto, htoLen⟩ := h₂.ranges
    -- A hunk without old lines is the first one, with nothing in front of it.
    have hempty : o₂ = [] → i = 0 ∧ o₁.length = 0 := by
      intro ho
      by_cases hne : first = false ∨ gap ≠ []
      · exact absurd ho (h₂.ne_nil_of_lead hcontext (hlead hne)).1
      · obtain ⟨hf, hg⟩ := not_or.mp hne
        refine ⟨hstart (by simpa using hf), ?_⟩
        have hlen := congrArg List.length h₁.oldIndices
        rw [not_not.mp hg] at hlen
        simpa using hlen.symm
    have hgapLen : (Hunk.ofChanges head).fromStart - 1 - i = o₁.length ∧
        i ≤ (Hunk.ofChanges head).fromStart - 1 := by
      rw [hfrom]
      split
      · obtain ⟨rfl, hlen⟩ := hempty (List.length_eq_zero_iff.mp ‹_›)
        omega
      · omega
    have hto' : (Hunk.ofChanges head).toLen = 0 ∨
        (Hunk.ofChanges head).toStart = j + o₁.length + 1 := by
      rw [htoLen, hto]
      split
      · exact .inl ‹_›
      · exact .inr rfl
    have hrec := ih (by simp) h₃
    simp only [List.length_append, ← Nat.add_assoc] at hrec
    simp only [List.map_cons, applyHunks, hgapLen.1, hfromLen]
    rw [if_pos ⟨hgapLen.2, hto'⟩, htoLen, List.append_assoc, List.map_append,
      List.drop_left' (List.length_map _), List.take_left' (List.length_map _), List.map_append,
      h₂.applyLines_eq]
    simp [hrec]

end Hunk

/-- **The hunks between two texts are a valid patch**: they are in order on both sides, stand where
their ranges say, and lead from the lines of the one text to those of the other. -/
theorem blobDiffHunks_validPatch (lib : TextLib) (hlib : lib.GroupsChanges) (before after : String)
    (context : Nat) :
    ValidPatch (blobDiffHunks lib before after context)
      ((tokenizeLines before).map stripEol) ((tokenizeLines after).map stripEol) := by
  have hcontext : 0 < max context 1 := Nat.lt_of_lt_of_le Nat.one_pos (Nat.le_max_right _ _)
  obtain ⟨script, hscript, hgrouped⟩ := hlib (max context 1) before after hcontext
  have hstands : ∀ hunk ∈ blobDiffHunks lib before after context,
      StandsAt hunk.fromStart hunk.fromLen hunk.oldLines ((tokenizeLines before).map stripEol) ∧
        StandsAt hunk.toStart hunk.toLen hunk.newLines ((tokenizeLines after).map stripEol) := by
    intro hunk hmem
    obtain ⟨piece, hpiece, rfl⟩ := List.mem_map.mp hmem
    obtain ⟨o₁, o, o₂, n₁, n, n₂, hold, hnew, h⟩ := hgrouped.mem hscript hpiece
    rw [hold, hnew]
    rw [Nat.zero_add, Nat.zero_add] at h
    exact h.standsAt
  exact {
    from_stands := fun hunk hmem => (hstands hunk hmem).1
    to_stands := fun hunk hmem => (hstands hunk hmem).2
    ordered := hgrouped.ordered hcontext hscript
    applies := hgrouped.applies hcontext (fun _ => rfl) hscript }

/-- The line diff that matches nothing has one piece, without context. -/
theorem TextLib.rewriting_groupsChanges : TextLib.rewriting.GroupsChanges := by
  intro context before after _
  refine ⟨rewriteAll before after, editScript_rewriteAll before after, ?_⟩
  have hall : rewriteAll before after = [] ++ rewriteAll before after ++ [] := by simp
  rw [hall]
  refine .cons (by simp [AllEqual]) ?_ (.nil (by simp [AllEqual]))
  simp

/-- A line that is replaced. -/
theorem blobDiffHunks_replaced :
    blobDiffHunks .rewriting "a\n" "b\n" 3 = [⟨1, 1, 1, 1, [.remove "a", .add "b"]⟩] ∧
      ValidPatch (blobDiffHunks .rewriting "a\n" "b\n" 3) ((tokenizeLines "a\n").map stripEol)
        ((tokenizeLines "b\n").map stripEol) :=
  ⟨by decide, blobDiffHunks_validPatch _ TextLib.rewriting_groupsChanges _ _ _⟩

end Tig
