import Tig.Core.Plain
import Tig.Fs.Attribution

set_option relaxedAutoImplicit false
set_option autoImplicit false

/-!
# What is blamed

The lines that are attributed are meant to be those of the file. They are those that the line diff
sees, except where they come from the last version, whose lines are taken as they are: where the two
differ, so does what is shown.

## Main definitions

* `Tig.KeepsLines` — when what is shown of the lines is what they are.

## Main results

* `Tig.blameAt_lines_iff` — **when the lines that are shown are those of the file**.
* `Tig.blameAt_follows` — without lone carriage returns, **attributions follow the line diffs**.
-/

namespace Tig

open Program

/-! ## Lines -/

/-- What is shown of the lines of a file is what they are: no carriage return ends a line alone; a line
that comes from the last version is the line there that has its number, if there is one; every other
line does not end with a carriage return. -/
structure KeepsLines {H : Type} (lib : TextLib) (vs : List (Version H)) (text : String) : Prop where
  ends : ReturnsEndLines text.toList
  base : ∀ j (base : Version H) k line, Traced lib vs j [base] k →
    (lines base.text)[k]? = some line → (lines text)[j]? = some line
  other : ∀ j piece (w : Version H) older k, (tokenizeLines text)[j]? = some piece →
    Traced lib vs j (w :: older) k → older ≠ [] ∨ (lines w.text)[k]? = none →
      piece.toList.getLast? ≠ some '\r'

section Lines

variable {H : Type} {lib : TextLib}

/-- A line is among those that the line diff sees if it comes from somewhere. -/
theorem Traced.lt_length (hlib : lib.DiffsLines) {v w : Version H} {older found : List (Version H)}
    {j k : Nat} (h : Traced lib (v :: w :: older) j found k) :
    j < (tokenizeLines v.text).length := by
  have hlt : ∀ change ∈ lib.lineChanges w.text v.text, change.newIndex = some j →
      j < (tokenizeLines v.text).length := by
    intro change hmem hnew
    have hj : j ∈ (lib.lineChanges w.text v.text).filterMap LineChange.newIndex :=
      List.mem_filterMap.mpr ⟨change, hmem, hnew⟩
    rw [(hlib w.text v.text).newIndices] at hj
    simpa using (List.mem_range'_1.mp hj).2
  cases h with
  | inserted mem _ newIndex => exact hlt _ mem newIndex
  | matched mem _ newIndex => exact hlt _ mem newIndex

/-- The lines that are shown are those of the text if and only if the history keeps them. -/
theorem Inherits.lines_iff (hlib : lib.DiffsLines) {v w : Version H} {older : List (Version H)}
    {result : List (BlameLine H)} (h : Inherits lib (v :: w :: older) result) :
    result.map BlameLine.line = lines v.text ↔ KeepsLines lib (v :: w :: older) v.text := by
  obtain ⟨hlen, hspec⟩ := h.spec hlib
  have hlen := hlen (List.cons_ne_nil _ _)
  simp only [List.cons_ne_nil, if_false] at hspec
  constructor
  · intro hlines
    have hends : ReturnsEndLines v.text.toList := by
      rw [returnsEndLines_iff_length, ← hlines, List.length_map, hlen]
    have hshown : ∀ (j : Nat) (b : BlameLine H), result[j]? = some b →
        (lines v.text)[j]? = some b.line := by
      intro j b hb
      rw [← hlines, List.getElem?_map, hb]
      rfl
    refine ⟨hends, ?_, ?_⟩
    · intro j base k line htraced hline
      have hj := htraced.lt_length hlib
      obtain ⟨shown, u, rest, k', own, hfrom, -, hresult⟩ :=
        hspec j _ (List.getElem?_eq_getElem hj)
      obtain ⟨hu, rfl⟩ := hfrom.traced.unique hlib htraced
      obtain ⟨rfl, rfl⟩ := List.cons.inj hu
      rw [hfrom.base rfl, hline] at hresult
      exact hshown j _ hresult
    · intro j piece u rest k hpiece htraced hother
      obtain ⟨shown, u', rest', k', own, hfrom, hown, hresult⟩ := hspec j piece hpiece
      obtain ⟨hu, rfl⟩ := hfrom.traced.unique hlib htraced
      obtain ⟨rfl, rfl⟩ := List.cons.inj hu
      have hline : (shown.getD own).line = stripEol piece := by
        by_cases hrest : rest' = []
        · rcases hother with hne | hnone
          · exact absurd hrest hne
          · rw [hfrom.base hrest, hnone]
            exact hown
        · rw [hfrom.inserted hrest]
          rfl
      have hpiece' := hshown j _ hresult
      rw [lines_eq_map_lineText hends, List.getElem?_map, hpiece, hline] at hpiece'
      exact (lineText_eq_stripEol_iff piece).mp (Option.some.inj hpiece')
  · intro hkeeps
    have hlines := lines_eq_map_lineText hkeeps.ends
    refine List.ext_getElem? fun j => ?_
    by_cases hj : j < (tokenizeLines v.text).length
    · obtain ⟨shown, u, rest, k, own, hfrom, hown, hresult⟩ :=
        hspec j _ (List.getElem?_eq_getElem hj)
      have hpiece := List.getElem?_eq_getElem hj
      have hline : (lines v.text)[j]? = some (lineText (tokenizeLines v.text)[j]) := by
        rw [hlines, List.getElem?_map, hpiece]
        rfl
      rw [List.getElem?_map, hresult, hline, Option.map_some, Option.some.injEq]
      by_cases hrest : rest = []
      · subst hrest
        cases hbase : (lines u.text)[k]? with
        | none =>
          rw [hfrom.base rfl, hbase]
          refine hown.trans ((lineText_eq_stripEol_iff _).mpr ?_).symm
          exact hkeeps.other j _ u [] k hpiece hfrom.traced (.inr hbase)
        | some line =>
          rw [hfrom.base rfl, hbase]
          have := hkeeps.base j u k line hfrom.traced hbase
          rw [hline] at this
          exact (Option.some.inj this).symm
      · rw [hfrom.inserted hrest]
        refine ((lineText_eq_stripEol_iff _).mpr ?_).symm
        exact hkeeps.other j _ u rest k hpiece hfrom.traced (.inl hrest)
    · have hlen' := hlen ▸ not_lt.mp hj
      rw [List.getElem?_eq_none (by rw [List.length_map]; exact hlen'), List.getElem?_eq_none]
      rw [hlines, List.length_map]
      exact not_lt.mp hj

/-- Without lone carriage returns every line is shown as it is where it comes from. -/
theorem Inherits.follows (hlib : lib.DiffsLines) {v : Version H} {older : List (Version H)}
    {result : List (BlameLine H)} (h : Inherits lib (v :: older) result)
    (hreturns : ∀ w ∈ v :: older, NoLoneReturn w.text.toList) :
    result.length = (lines v.text).length ∧ ∀ (j : Nat) b, result[j]? = some b →
      ∃ w rest k, Traced lib (v :: older) j (w :: rest) k ∧ (lines w.text)[k]? = some b.line ∧
        b = w.line b.line := by
  obtain ⟨hlen, hspec⟩ := h.spec hlib
  have hlines : ∀ w ∈ v :: older, lines w.text = (tokenizeLines w.text).map stripEol :=
    fun w hw => (hreturns w hw).map_stripEol.symm
  have hlength : result.length = (lines v.text).length := by
    cases older with
    | nil =>
      cases h
      exact List.length_map _
    | cons w older =>
      rw [hlen (List.cons_ne_nil _ _), hlines v List.mem_cons_self, List.length_map]
  refine ⟨hlength, fun j b hb => ?_⟩
  have hj : j < (tokenizeLines v.text).length := by
    have := (List.getElem?_eq_some_iff.mp hb).1
    rwa [hlength, hlines v List.mem_cons_self, List.length_map] at this
  obtain ⟨shown, w, rest, k, own, hfrom, -, hresult⟩ := hspec j _ (List.getElem?_eq_getElem hj)
  have hw : w ∈ v :: older := hfrom.traced.suffix.subset List.mem_cons_self
  have hline : (lines w.text)[k]? = some (stripEol (tokenizeLines v.text)[j]) := by
    rw [hlines w hw, List.getElem?_map, hfrom.seen]
    rfl
  have hshown : shown = some (w.line (stripEol (tokenizeLines v.text)[j])) := by
    by_cases hrest : rest = []
    · rw [hfrom.base hrest, hline]
      rfl
    · exact hfrom.inserted hrest
  have hb' : b = w.line (stripEol (tokenizeLines v.text)[j]) := by
    rw [hb, hshown] at hresult
    split at hresult <;> exact Option.some.inj hresult
  subst hb'
  exact ⟨w, rest, k, hfrom.traced, hline, rfl⟩

end Lines

section Blames

variable {H : Type} [LinearOrder H] [Format H] {lib : TextLib} {s : ObjectStore H} {path : String}

/-- **The lines that are shown are those of the file** if and only if it has one version, or its
history keeps its lines. -/
theorem blameAt_lines_iff (hlib : lib.DiffsLines) {depth : Nat} {target : H}
    {result : List (BlameLine H)} (h : blameAt lib s path depth target = .ok result) :
    ∃ v older, v.hash = target ∧ Versions s path (v :: older) ∧
      (result.map BlameLine.line = lines v.text ↔
        older = [] ∨ KeepsLines lib (v :: older) v.text) := by
  obtain ⟨v, older, hhash, hversions, hinherits⟩ := blameAt_eq_ok h
  refine ⟨v, older, hhash, hversions, ?_⟩
  cases older with
  | nil =>
    cases hinherits
    refine iff_of_true ?_ (.inl rfl)
    rw [makeLinesFrom, List.map_map]
    exact List.map_id _
  | cons w older =>
    rw [hinherits.lines_iff hlib, or_iff_right (List.cons_ne_nil _ _)]

variable (path) in
/-- **Attributions follow the line diffs.** When no snapshot is its own ancestor and no version of the
file has a lone carriage return, the walk ends, and each line is attributed to the snapshot that
following it back leads to: one of those with the file on the way back, in whose file the line stands. -/
theorem blameAt_follows (hlib : lib.DiffsLines)
    (hdag : ∀ h, ¬ Relation.TransGen (IsParent s) h h) (target : H)
    (hreturns : ∀ v older, v.hash = target → Versions s path (v :: older) →
      ∀ w ∈ v :: older, NoLoneReturn w.text.toList) :
    (∃ depth₀, NoIoError (blameAt lib s path depth₀ target) ∧ ∀ depth, depth₀ ≤ depth →
      blameAt lib s path depth target = blameAt lib s path depth₀ target) ∧
    ∀ depth result, blameAt lib s path depth target = .ok result →
      ∃ v older, v.hash = target ∧ Versions s path (v :: older) ∧
        (∀ w ∈ v :: older, TextAt s path w) ∧ result.length = (lines v.text).length ∧
        ∀ (j : Nat) b, result[j]? = some b → ∃ w rest k,
          Traced lib (v :: older) j (w :: rest) k ∧ w :: rest <:+ v :: older ∧
          (lines w.text)[k]? = some b.line ∧ b.snap = w.hash ∧ b.author = w.snap.author ∧
          b.timestampNs = w.snap.timestampNs ∧ b.message = w.snap.message := by
  refine ⟨blameAt_stable hdag target, fun depth result h => ?_⟩
  obtain ⟨v, older, hhash, hversions, hinherits⟩ := blameAt_eq_ok h
  obtain ⟨hlength, hlines⟩ := hinherits.follows hlib (hreturns v older hhash hversions)
  refine ⟨v, older, hhash, hversions, hversions.textAt_of_mem, hlength, fun j b hb => ?_⟩
  obtain ⟨w, rest, k, htraced, hline, hb'⟩ := hlines j b hb
  refine ⟨w, rest, k, htraced, htraced.suffix, hline, ?_⟩
  rw [hb']
  exact ⟨rfl, rfl, rfl, rfl⟩

end Blames

/-! ## A line that is replaced -/

namespace ReplacedLine

/-- A directory with one file. -/
def tree (bytes : Bytes) : Tree PlainHash :=
  ⟨[⟨"f", .file, (encode PlainHash (Blob.mk bytes)).hash PlainHash, .REGULAR, none⟩]⟩

/-- The first snapshot. Its file has one line. -/
def first : Snapshot PlainHash where
  parents := []
  tree := (encode PlainHash (tree [97, 10])).hash PlainHash
  author := "p"
  timestampNs := 1
  message := none
  opId := none

def firstHash : PlainHash := (encode PlainHash first).hash PlainHash

/-- The second snapshot, for what its file has. -/
def second (bytes : Bytes) : Snapshot PlainHash where
  parents := [firstHash]
  tree := (encode PlainHash (tree bytes)).hash PlainHash
  author := "q"
  timestampNs := 2
  message := none
  opId := none

def secondHash (bytes : Bytes) : PlainHash := (encode PlainHash (second bytes)).hash PlainHash

/-- A store with both. -/
def store (bytes : Bytes) : ObjectStore PlainHash :=
  ((((((∅ : ObjectStore PlainHash).put (encode PlainHash (Blob.mk [97, 10]))).put
    (encode PlainHash (tree [97, 10]))).put (encode PlainHash first)).put
    (encode PlainHash (Blob.mk bytes))).put (encode PlainHash (tree bytes))).put
    (encode PlainHash (second bytes))

/-- The first line is replaced by another one. -/
def other : Bytes := [98, 10]

/-- The first line is replaced by one with a carriage return in it. -/
def returned : Bytes := [98, 13, 99, 10]

set_option maxRecDepth 1000000 in
theorem blame_other : blameAt .rewriting (store other) "f" 2 (secondHash other) =
    .ok [⟨"b", secondHash other, "q", 2, none⟩] := rfl

set_option maxRecDepth 1000000 in
theorem blame_returned : blameAt .rewriting (store returned) "f" 2 (secondHash returned) =
    .ok [⟨"b", secondHash returned, "q", 2, none⟩, ⟨"c", secondHash returned, "q", 2, none⟩] := rfl

/-- An object of the store. -/
theorem mem_store {bytes : Bytes} {h : PlainHash} (hmem : h ∈ store bytes) :
    h = secondHash bytes ∨ h = (encode PlainHash (tree bytes)).hash PlainHash ∨
      h = (encode PlainHash (Blob.mk bytes)).hash PlainHash ∨ h = firstHash ∨
      h = (encode PlainHash (tree [97, 10])).hash PlainHash ∨
      h = (encode PlainHash (Blob.mk [97, 10])).hash PlainHash := by
  simp only [store, ObjectStore.mem_put, Finmap.notMem_empty, or_false] at hmem
  exact hmem

set_option maxRecDepth 1000000 in
/-- Only the first snapshot is a parent, and only that of the second. -/
theorem isParent_store {p c : PlainHash} (h : IsParent (store other) p c) :
    p = firstHash ∧ c = secondHash other := by
  obtain ⟨snap, hsnap, hp⟩ := h
  rcases mem_store (ObjectStore.mem_of_load hsnap) with rfl | rfl | rfl | rfl | rfl | rfl
  · obtain rfl := Except.ok.inj hsnap
    exact ⟨List.mem_singleton.mp hp, rfl⟩
  · cases hsnap
  · cases hsnap
  · obtain rfl := Except.ok.inj hsnap
    cases hp
  · cases hsnap
  · cases hsnap

theorem acyclic (h : PlainHash) : ¬ Relation.TransGen (IsParent (store other)) h h := by
  intro hcycle
  obtain ⟨c, hc, -⟩ := Relation.TransGen.head'_iff.mp hcycle
  obtain ⟨b, -, hb⟩ := Relation.TransGen.tail'_iff.mp hcycle
  have hne : firstHash ≠ secondHash other := by decide +kernel
  exact hne ((isParent_store hc).1.symm.trans (isParent_store hb).2)

set_option maxRecDepth 1000000 in
/-- No file of the store has a carriage return. -/
theorem noLoneReturn {w : Version PlainHash} (h : TextAt (store other) "f" w) :
    NoLoneReturn w.text.toList := by
  obtain ⟨parts, e, blob, -, -, -, hblob, -, htext⟩ := h.file
  have hnone : ∀ cs : List Char, '\r' ∉ cs → NoLoneReturn cs := by
    rintro cs hcs before after rfl
    exact absurd (by simp) hcs
  rw [htext]
  refine hnone _ ?_
  rcases mem_store (ObjectStore.mem_of_load hblob) with he | he | he | he | he | he <;>
    rw [he] at hblob
  · cases hblob
  · cases hblob
  · obtain rfl := Except.ok.inj hblob
    decide +kernel
  · cases hblob
  · cases hblob
  · obtain rfl := Except.ok.inj hblob
    decide +kernel

end ReplacedLine

/-- The line diff that matches nothing is one. -/
theorem TextLib.rewriting_diffsLines : TextLib.rewriting.DiffsLines := editScript_rewriteAll

open ReplacedLine in
/-- A line that is replaced is shown as it is. -/
theorem blameAt_lines_replaced :
    ∃ v older, v.hash = secondHash other ∧ Versions (store other) "f" (v :: older) ∧
      (["b"] = lines v.text ↔ older = [] ∨ KeepsLines .rewriting (v :: older) v.text) :=
  blameAt_lines_iff TextLib.rewriting_diffsLines blame_other

set_option maxRecDepth 1000000 in
open ReplacedLine in
/-- A line with a carriage return in it is shown as two. -/
theorem not_blameAt_lines : TextLib.rewriting.DiffsLines ∧
    TextAt (store returned) "f" ⟨secondHash returned, second returned, "b\rc\n"⟩ ∧
      ∃ result, blameAt .rewriting (store returned) "f" 2 (secondHash returned) = .ok result ∧
        result.map BlameLine.line = ["b", "c"] ∧ lines "b\rc\n" = ["b\rc"] := by
  refine ⟨TextLib.rewriting_diffsLines, ⟨rfl, ?_⟩, _, blame_returned, rfl, by decide +kernel⟩
  exact ⟨["f"], _, Blob.mk returned, rfl, rfl, rfl, rfl, rfl, rfl⟩

open ReplacedLine in
/-- A line that is replaced is attributed to the snapshot that did so. -/
theorem blameAt_follows_replaced :
    ∃ v older, v.hash = secondHash other ∧ Versions (store other) "f" (v :: older) ∧
      ∃ w rest k, Traced .rewriting (v :: older) 0 (w :: rest) k ∧ w :: rest <:+ v :: older ∧
        (lines w.text)[k]? = some "b" ∧ secondHash other = w.hash := by
  obtain ⟨-, hfollows⟩ := blameAt_follows "f" TextLib.rewriting_diffsLines acyclic
    (secondHash other) fun v older _ hversions w hw => noLoneReturn (hversions.textAt_of_mem w hw)
  obtain ⟨v, older, hhash, hversions, -, -, hlines⟩ := hfollows 2 _ blame_other
  obtain ⟨w, rest, k, htraced, hsuffix, hline, hsnap, -⟩ := hlines 0 _ rfl
  exact ⟨v, older, hhash, hversions, w, rest, k, htraced, hsuffix, hline, hsnap⟩

end Tig
