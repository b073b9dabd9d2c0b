import Mathlib.Logic.Relation
import Mathlib.Data.Fintype.Pigeonhole
import Tig.Fs.Blame
import Tig.Fs.LineEndings

set_option relaxedAutoImplicit false
set_option autoImplicit false

/-!
# Where lines come from

The versions of a file are followed back through first parents, and its lines through the line
diffs between them. This says what an attribution is made of, line by line.

## Main definitions

* `Tig.Versions` — the versions of a file, from a snapshot back through first parents.
* `Tig.Traced` — where a line comes from.
* `Tig.LineFrom` — how a line is shown that comes from there.

## Main results

* `Tig.blameAt_eq_ok` — an attribution is that of the versions.
* `Tig.Inherits.spec` — each of its lines is shown as where it comes from says.
* `Tig.blameAt_stable` — the walk ends when no snapshot is its own ancestor.
-/

namespace Tig

open Program

/-- What the line diff is taken to be: it leads from the lines of one text to those of another. -/
def TextLib.DiffsLines (lib : TextLib) : Prop :=
  ∀ before after, EditScript 0 0 (tokenizeLines before) (tokenizeLines after)
    (lib.lineChanges before after)

/-! ## Versions -/

/-- A file at a snapshot. -/
@[ext]
structure Version (H : Type) where
  hash : H
  snap : Snapshot H
  text : String

/-- A line that a version introduced. -/
def Version.line {H : Type} (v : Version H) (line : String) : BlameLine H :=
  synthesizeLine line v.hash v.snap

section Versions

variable {H : Type} [LinearOrder H] [Format H]

/-- The snapshot has the path as a regular file that is not binary, with this text. -/
structure TextAt (s : ObjectStore H) (path : String) (v : Version H) : Prop where
  snap : s.load v.hash = .ok v.snap
  file : ∃ parts e blob, splitPath path = .ok parts ∧ entryAt s v.snap.tree parts = some e ∧
    e.kind = .file ∧ s.load e.target = .ok blob ∧ isBinary (Blob.bytes blob) = false ∧
    v.text = Utf8.decodeLossy blob.bytes

/-- The versions of a file, from a snapshot back through first parents, as long as the file is there
and is not binary. -/
inductive Versions (s : ObjectStore H) (path : String) : List (Version H) → Prop
  | base {v : Version H} (text : TextAt s path v)
      (ends : ∀ w : Version H, v.snap.parents.head? = some w.hash → ¬ TextAt s path w) :
      Versions s path [v]
  | step {v w : Version H} {older : List (Version H)} (text : TextAt s path v)
      (parent : v.snap.parents.head? = some w.hash) (rest : Versions s path (w :: older)) :
      Versions s path (v :: w :: older)

variable {s : ObjectStore H} {path : String} {v w : Version H} {older older' : List (Version H)}

theorem TextAt.unique (hv : TextAt s path v) (hw : TextAt s path w) (hhash : v.hash = w.hash) :
    v = w := by
  have hsnap : v.snap = w.snap := Except.ok.inj (hv.snap.symm.trans (hhash ▸ hw.snap))
  obtain ⟨parts, e, blob, hparts, he, -, hblob, -, htext⟩ := hv.file
  obtain ⟨parts', e', blob', hparts', he', -, hblob', -, htext'⟩ := hw.file
  obtain rfl := Except.ok.inj (hparts.symm.trans hparts')
  obtain rfl := Option.some.inj (he.symm.trans (hsnap ▸ he'))
  obtain rfl := Except.ok.inj (hblob.symm.trans hblob')
  exact Version.ext hhash hsnap (htext.trans htext'.symm)

theorem Versions.textAt (h : Versions s path (v :: older)) : TextAt s path v := by
  cases h with
  | base text => exact text
  | step text => exact text

/-- A snapshot has the versions that it has. -/
theorem Versions.unique (h : Versions s path (v :: older)) (h' : Versions s path (w :: older'))
    (hhash : v.hash = w.hash) : v :: older = w :: older' := by
  generalize hvs : v :: older = vs at h
  induction h generalizing v w older older' with
  | @base v₀ text ends =>
    obtain ⟨rfl, rfl⟩ := List.cons.inj hvs
    obtain rfl := text.unique h'.textAt hhash
    cases h' with
    | base => rfl
    | step _ parent rest => exact absurd rest.textAt (ends _ parent)
  | @step v₀ p older₀ text parent rest ih =>
    obtain ⟨rfl, rfl⟩ := List.cons.inj hvs
    obtain rfl := text.unique h'.textAt hhash
    cases h' with
    | base _ ends => exact absurd rest.textAt (ends _ parent)
    | step _ parent' rest' =>
      exact congrArg _ (ih rest' (Option.some.inj (parent.symm.trans parent')) rfl)

/-- Every version has the file. -/
theorem Versions.textAt_of_mem {vs : List (Version H)} (h : Versions s path vs) :
    ∀ v ∈ vs, TextAt s path v := by
  induction h with
  | base text => exact fun v hv => List.mem_singleton.mp hv ▸ text
  | step text _ _ ih =>
    intro v hv
    rcases List.mem_cons.mp hv with rfl | hv
    · exact text
    · exact ih v hv

end Versions

/-! ## Lines -/

section Lines

variable {H : Type} {lib : TextLib}

/-- Where a line comes from: following the lines that the line diff finds unchanged through first
parents leads to this line of the first of these versions, which introduced it or is the last. -/
inductive Traced (lib : TextLib) : List (Version H) → Nat → List (Version H) → Nat → Prop
  | base (v : Version H) (j : Nat) : Traced lib [v] j [v] j
  | inserted {v w : Version H} {older : List (Version H)} {j : Nat} {change : LineChange}
      (mem : change ∈ lib.lineChanges w.text v.text) (tag : change.tag = .insert)
      (newIndex : change.newIndex = some j) :
      Traced lib (v :: w :: older) j (v :: w :: older) j
  | matched {v w : Version H} {older found : List (Version H)} {i j k : Nat} {change : LineChange}
      (mem : change ∈ lib.lineChanges w.text v.text) (tag : change.tag = .equal)
      (newIndex : change.newIndex = some j) (oldIndex : change.oldIndex = some i)
      (rest : Traced lib (w :: older) i found k) :
      Traced lib (v :: w :: older) j found k

/-- No two changes have the same index on the new side. -/
theorem EditScript.newIndex_inj {i j : Nat} {olds news : List String} {changes : List LineChange}
    (h : EditScript i j olds news changes) {a b : LineChange} (ha : a ∈ changes) (hb : b ∈ changes)
    {k : Nat} (hak : a.newIndex = some k) (hbk : b.newIndex = some k) : a = b := by
  have hle : ∀ {i j : Nat} {olds news : List String} {changes : List LineChange},
      EditScript i j olds news changes → ∀ c ∈ changes, c.newIndex = some k → j ≤ k := by
    intro i j olds news changes h c hc hck
    have hmem : k ∈ changes.filterMap LineChange.newIndex := List.mem_filterMap.mpr ⟨c, hc, hck⟩
    rw [h.newIndices] at hmem
    exact (List.mem_range'_1.mp hmem).1
  induction h with
  | nil => cases ha
  | equal line h ih =>
    rcases List.mem_cons.mp ha with rfl | ha <;> rcases List.mem_cons.mp hb with rfl | hb
    · rfl
    · have := hle h b hb hbk
      obtain rfl := Option.some.inj hak
      omega
    · have := hle h a ha hak
      obtain rfl := Option.some.inj hbk
      omega
    · exact ih ha hb
  | delete line h ih =>
    rcases List.mem_cons.mp ha with rfl | ha
    · cases hak
    rcases List.mem_cons.mp hb with rfl | hb
    · cases hbk
    exact ih ha hb
  | insert line h ih =>
    rcases List.mem_cons.mp ha with rfl | ha <;> rcases List.mem_cons.mp hb with rfl | hb
    · rfl
    · have := hle h b hb hbk
      obtain rfl := Option.some.inj hak
      omega
    · have := hle h a ha hak
      obtain rfl := Option.some.inj hbk
      omega
    · exact ih ha hb

/-- A line comes from one place. -/
theorem Traced.unique (hlib : lib.DiffsLines) {vs found found' : List (Version H)} {j k k' : Nat}
    (h : Traced lib vs j found k) (h' : Traced lib vs j found' k') : found = found' ∧ k = k' := by
  induction h with
  | base v j =>
    cases h' with
    | base => exact ⟨rfl, rfl⟩
  | @inserted v w older j change mem tag newIndex =>
    cases h' with
    | inserted => exact ⟨rfl, rfl⟩
    | matched mem' tag' newIndex' =>
      obtain rfl := (hlib w.text v.text).newIndex_inj mem mem' newIndex newIndex'
      rw [tag] at tag'
      cases tag'
  | @matched v w older found i j k change mem tag newIndex oldIndex rest ih =>
    cases h' with
    | inserted mem' tag' newIndex' =>
      obtain rfl := (hlib w.text v.text).newIndex_inj mem mem' newIndex newIndex'
      rw [tag] at tag'
      cases tag'
    | matched mem' tag' newIndex' oldIndex' rest' =>
      obtain rfl := (hlib w.text v.text).newIndex_inj mem mem' newIndex newIndex'
      obtain rfl := Option.some.inj (oldIndex.symm.trans oldIndex')
      exact ih rest'

/-- What a line comes from is among the versions. -/
theorem Traced.suffix {vs found : List (Version H)} {j k : Nat} (h : Traced lib vs j found k) :
    found <:+ vs := by
  induction h with
  | base => exact List.suffix_rfl
  | inserted => exact List.suffix_rfl
  | matched _ _ _ _ _ ih => exact ih.trans (List.suffix_cons _ _)

/-- An attribution is put together over the versions, beginning with the last. -/
inductive Inherits (lib : TextLib) : List (Version H) → List (BlameLine H) → Prop
  | base (v : Version H) : Inherits lib [v] (makeLinesFrom (lines v.text) v.hash v.snap)
  | step {v w : Version H} {older : List (Version H)} {parentAttrs result : List (BlameLine H)}
      (parent : Inherits lib (w :: older) parentAttrs)
      (inherit : inheritLines parentAttrs v.hash v.snap (lib.lineChanges w.text v.text) =
        .ok result) :
      Inherits lib (v :: w :: older) result

/-- How a line is shown that comes from one of the versions: as it is in the lines of the last
version, if it has that many, and as the line diff sees it elsewhere. -/
structure LineFrom (lib : TextLib) (vs : List (Version H)) (j : Nat) (piece : String)
    (shown : Option (BlameLine H)) (w : Version H) (older : List (Version H)) (k : Nat) : Prop where
  traced : Traced lib vs j (w :: older) k
  seen : (tokenizeLines w.text)[k]? = some piece
  inserted : older ≠ [] → shown = some (w.line (stripEol piece))
  base : older = [] → shown = (lines w.text)[k]?.map w.line

/-- The lines that a line diff leaves are those of the new side; each is inherited or is the
snapshot's own. -/
theorem inheritLines_spec {parentAttrs result : List (BlameLine H)} {snapHash : H}
    {snap : Snapshot H} {i j : Nat} {olds news : List String} {changes : List LineChange}
    (h : EditScript i j olds news changes)
    (hresult : inheritLines parentAttrs snapHash snap changes = .ok result) :
    result.length = news.length ∧ ∀ (n : Nat) piece, news[n]? = some piece →
      ∃ change ∈ changes, change.newIndex = some (j + n) ∧
        ((change.tag = .insert ∧
            result[n]? = some (synthesizeLine (stripEol piece) snapHash snap)) ∨
          ∃ m, change.tag = .equal ∧ change.oldIndex = some (i + m) ∧ olds[m]? = some piece ∧
            result[n]? = some
              (parentAttrs.getD (i + m) (synthesizeLine (stripEol piece) snapHash snap))) := by
  induction h generalizing result with
  | nil =>
    cases hresult
    exact ⟨rfl, fun n piece hpiece => by cases hpiece⟩
  | @equal i j olds news changes line h ih =>
    obtain ⟨out, hout, hresult⟩ := except_bind_eq_ok.mp hresult
    obtain rfl := Except.ok.inj hresult
    obtain ⟨hlen, hlines⟩ := ih hout
    refine ⟨congrArg Nat.succ hlen, fun n piece hpiece => ?_⟩
    cases n with
    | zero =>
      obtain rfl := Option.some.inj hpiece
      exact ⟨_, List.mem_cons_self, rfl, .inr ⟨0, rfl, rfl, rfl, rfl⟩⟩
    | succ n =>
      obtain ⟨change, hmem, hnew, hshown⟩ := hlines n piece hpiece
      refine ⟨change, List.mem_cons_of_mem _ hmem, by rw [hnew]; congr 1; omega, ?_⟩
      refine hshown.imp id fun ⟨m, htag, hold, hm, hresult⟩ => ⟨m + 1, htag, ?_, hm, ?_⟩
      · rw [hold]
        congr 1
        omega
      · rw [List.getElem?_cons_succ, hresult, Nat.add_right_comm i, Nat.add_assoc i]
  | @delete i j olds news changes line h ih =>
    obtain ⟨out, hout, hresult⟩ := except_bind_eq_ok.mp hresult
    obtain rfl := Except.ok.inj hresult
    obtain ⟨hlen, hlines⟩ := ih hout
    refine ⟨hlen, fun n piece hpiece => ?_⟩
    obtain ⟨change, hmem, hnew, hshown⟩ := hlines n piece hpiece
    refine ⟨change, List.mem_cons_of_mem _ hmem, hnew, ?_⟩
    refine hshown.imp id fun ⟨m, htag, hold, hm, hresult⟩ => ⟨m + 1, htag, ?_, hm, ?_⟩
    · rw [hold]
      congr 1
      omega
    · rw [hresult, Nat.add_right_comm i, Nat.add_assoc i]
  | @insert i j olds news changes line h ih =>
    obtain ⟨out, hout, hresult⟩ := except_bind_eq_ok.mp hresult
    obtain rfl := Except.ok.inj hresult
    obtain ⟨hlen, hlines⟩ := ih hout
    refine ⟨congrArg Nat.succ hlen, fun n piece hpiece => ?_⟩
    cases n with
    | zero =>
      obtain rfl := Option.some.inj hpiece
      exact ⟨_, List.mem_cons_self, rfl, .inl ⟨rfl, rfl⟩⟩
    | succ n =>
      obtain ⟨change, hmem, hnew, hshown⟩ := hlines n piece hpiece
      exact ⟨change, List.mem_cons_of_mem _ hmem, by rw [hnew]; congr 1; omega, hshown⟩

/-- **Each line is shown as where it comes from says.** Where the last version does not have as many
lines as the line diff sees, the line is shown as the line diff sees it. -/
theorem Inherits.spec (hlib : lib.DiffsLines) {v : Version H} {older : List (Version H)}
    {result : List (BlameLine H)} (h : Inherits lib (v :: older) result) :
    (older ≠ [] → result.length = (tokenizeLines v.text).length) ∧
      ∀ (j : Nat) piece, (tokenizeLines v.text)[j]? = some piece →
        ∃ shown w rest k own, LineFrom lib (v :: older) j piece shown w rest k ∧
          own.line = stripEol piece ∧
          result[j]? = if older = [] then shown else some (shown.getD own) := by
  generalize hvs : v :: older = vs at h
  induction h generalizing v older with
  | base v₀ =>
    obtain ⟨rfl, rfl⟩ := List.cons.inj hvs
    refine ⟨fun h => absurd rfl h, fun j piece hpiece => ?_⟩
    refine ⟨_, v, [], j, v.line (stripEol piece), ⟨.base v j, hpiece, fun h => absurd rfl h,
      fun _ => rfl⟩, rfl, ?_⟩
    rw [if_pos rfl, makeLinesFrom, List.getElem?_map]
    rfl
  | @step v₀ w older₀ parentAttrs result parent inherit ih =>
    obtain ⟨rfl, rfl⟩ := List.cons.inj hvs
    obtain ⟨hlen, hlines⟩ := inheritLines_spec (hlib w.text v.text) inherit
    obtain ⟨-, hparent⟩ := ih rfl
    refine ⟨fun _ => hlen, fun j piece hpiece => ?_⟩
    obtain ⟨change, hmem, hnew, hshown⟩ := hlines j piece hpiece
    rw [Nat.zero_add] at hnew
    rcases hshown with ⟨htag, hresult⟩ | ⟨m, htag, hold, hm, hresult⟩
    · refine ⟨_, v, w :: older₀, j, v.line (stripEol piece), ⟨.inserted hmem htag hnew, hpiece,
        fun _ => rfl, fun h => by cases h⟩, rfl, ?_⟩
      rw [hresult, if_neg (List.cons_ne_nil _ _)]
      rfl
    · rw [Nat.zero_add] at hold hresult
      obtain ⟨shown, u, rest, k, own, hfrom, hown, hattr⟩ := hparent m piece hm
      have hfrom' : LineFrom lib (v :: w :: older₀) j piece shown u rest k :=
        ⟨.matched hmem htag hnew hold hfrom.traced, hfrom.seen, hfrom.inserted, hfrom.base⟩
      -- The parent's attribution has no line here only if it is that of the last version.
      by_cases holder : older₀ = []
      · rw [if_pos holder] at hattr
        refine ⟨shown, u, rest, k, v.line (stripEol piece), hfrom', rfl, ?_⟩
        rw [hresult, if_neg (List.cons_ne_nil _ _), List.getD_eq_getElem?_getD, hattr]
        rfl
      · rw [if_neg holder] at hattr
        refine ⟨shown, u, rest, k, own, hfrom', hown, ?_⟩
        rw [hresult, if_neg (List.cons_ne_nil _ _), List.getD_eq_getElem?_getD, hattr]
        rfl

end Lines

/-! ## The walk -/

section Walk

variable {H : Type} [LinearOrder H] [Format H] {lib : TextLib} {s : ObjectStore H} {path : String}

/-- The bytes of a file at a path make it a version, if it is not binary. -/
theorem textAt_of_tryRead {hash : H} {snap : Snapshot H} {bytes : Bytes}
    (hsnap : s.load hash = .ok snap) (h : tryReadBlobAtPath s snap.tree path = .ok (some bytes))
    (hbinary : isBinary bytes = false) :
    TextAt s path ⟨hash, snap, Utf8.decodeLossy bytes⟩ := by
  obtain ⟨parts, hparts, h⟩ := except_bind_eq_ok.mp h
  obtain ⟨e, blob, he, hk, hblob, rfl⟩ := tryReadBelow_eq_some h
  exact ⟨hsnap, parts, e, blob, hparts, he, hk, hblob, hbinary, rfl⟩

/-- What is not read, or is binary, is no version. -/
theorem not_textAt_of_tryRead {w : Version H} {snap : Snapshot H} {read : Option Bytes}
    (hsnap : s.load w.hash = .ok snap) (h : tryReadBlobAtPath s snap.tree path = .ok read)
    (hread : ∀ bytes ∈ read, isBinary bytes = true) : ¬ TextAt s path w := by
  intro htext
  obtain rfl := Except.ok.inj (htext.snap.symm.trans hsnap)
  obtain ⟨parts, hparts, h⟩ := except_bind_eq_ok.mp h
  obtain ⟨parts', e, blob, hparts', he, hk, hblob, hbinary, -⟩ := htext.file
  obtain rfl := Except.ok.inj (hparts.symm.trans hparts')
  cases read with
  | none => exact tryReadBelow_eq_none h he hk
  | some bytes =>
    obtain ⟨e', blob', he', -, hblob', rfl⟩ := tryReadBelow_eq_some h
    obtain rfl := Option.some.inj (he.symm.trans he')
    obtain rfl := Except.ok.inj (hblob.symm.trans hblob')
    have := hread _ rfl
    rw [hbinary] at this
    cases this

/-- **An attribution** is put together over the versions of the file. -/
theorem blameAt_eq_ok {depth : Nat} {target : H} {result : List (BlameLine H)}
    (h : blameAt lib s path depth target = .ok result) :
    ∃ v older, v.hash = target ∧ Versions s path (v :: older) ∧ Inherits lib (v :: older) result := by
  induction depth generalizing target result with
  | zero => cases h
  | succ depth ih =>
    rw [blameAt] at h
    obtain ⟨snap, hsnap, h⟩ := except_bind_eq_ok.mp h
    obtain ⟨read, hread, h⟩ := except_bind_eq_ok.mp h
    cases read with
    | none => cases h
    | some bytes =>
      simp only at h
      split at h
      · cases h
      have htext := textAt_of_tryRead hsnap hread (Bool.eq_false_of_not_eq_true ‹_›)
      cases hparents : snap.parents with
      | nil =>
        rw [hparents] at h
        obtain rfl := Except.ok.inj h
        refine ⟨_, [], rfl, .base htext fun w hw => ?_, .base _⟩
        rw [hparents] at hw
        cases hw
      | cons parentHash more =>
        rw [hparents] at h
        obtain ⟨parentSnap, hparent, h⟩ := except_bind_eq_ok.mp h
        obtain ⟨parentRead, hparentRead, h⟩ := except_bind_eq_ok.mp h
        -- The parent has no version when its file is not there or is binary.
        have hbase : (∀ bytes ∈ parentRead, isBinary bytes = true) →
            Versions s path [⟨target, snap, Utf8.decodeLossy bytes⟩] := by
          intro hnone
          refine .base htext fun w hw => ?_
          rw [hparents] at hw
          obtain rfl := Option.some.inj hw
          exact not_textAt_of_tryRead hparent hparentRead hnone
        cases parentRead with
        | none =>
          obtain rfl := Except.ok.inj h
          exact ⟨_, [], rfl, hbase (fun _ hb => by cases hb), .base _⟩
        | some parentBytes =>
          simp only at h
          split at h
          · obtain rfl := Except.ok.inj h
            refine ⟨_, [], rfl, hbase fun b hb => ?_, .base _⟩
            exact Option.some.inj hb ▸ ‹_›
          · obtain ⟨parentAttrs, hattrs, hresult⟩ := except_bind_eq_ok.mp h
            obtain ⟨w, older, rfl, hversions, hinherits⟩ := ih hattrs
            have hw := (textAt_of_tryRead hparent hparentRead
              (Bool.eq_false_of_not_eq_true ‹_›)).unique hversions.textAt rfl
            have hwtext := congrArg Version.text hw
            refine ⟨_, _, rfl, .step htext (by rw [hparents]; rfl) hversions, .step hinherits ?_⟩
            rw [← hwtext]
            exact hresult

/-- A snapshot is a parent of another one. -/
def IsParent (s : ObjectStore H) (parent child : H) : Prop :=
  ∃ snap : Snapshot H, s.load child = .ok snap ∧ parent ∈ snap.parents

/-- A store has finitely many snapshots, so ancestors come to an end when no snapshot is its own
ancestor. -/
theorem wellFounded_isParent (hdag : ∀ h, ¬ Relation.TransGen (IsParent s) h h) :
    WellFounded (IsParent s) := by
  rw [wellFounded_iff_isEmpty_descending_chain]
  refine ⟨fun ⟨f, hf⟩ => ?_⟩
  have hmem : ∀ n, f n ∈ s.keys := by
    intro n
    obtain ⟨snap, hsnap, -⟩ := hf n
    exact Finmap.mem_keys.mpr (ObjectStore.mem_of_load hsnap)
  have hreach : ∀ m n, m < n → Relation.TransGen (IsParent s) (f n) (f m) := by
    intro m n hlt
    induction n with
    | zero => cases hlt
    | succ n ih =>
      rcases Nat.lt_succ_iff_lt_or_eq.mp hlt with hlt | rfl
      · exact .head (hf n) (ih hlt)
      · exact .single (hf m)
  obtain ⟨m, n, hne, heq⟩ := Finite.exists_ne_map_eq_of_infinite
    (fun n => (⟨f n, hmem n⟩ : {h // h ∈ s.keys}))
  have heq : f m = f n := congrArg Subtype.val heq
  rcases Nat.lt_or_gt_of_ne hne with hlt | hlt
  · exact hdag (f m) (heq ▸ hreach m n hlt)
  · exact hdag (f n) (heq ▸ hreach n m hlt)

/-- What does not fail with an error of the system, as a stack that overflows does. -/
def NoIoError {α : Type} (r : Except Error α) : Prop := ∀ msg, r ≠ .error (.io msg)

omit [LinearOrder H] [Format H] in
theorem NoIoError.bind {α β : Type} {r : Except Error α} {f : α → Except Error β}
    (hr : NoIoError r) (hf : ∀ a, r = .ok a → NoIoError (f a)) : NoIoError (r >>= f) := by
  intro msg h
  rcases except_bind_eq_error.mp h with h | ⟨a, ha, h⟩
  · exact hr msg h
  · exact hf a ha msg h

omit [LinearOrder H] [Format H] in
theorem noIoError_mapError {α : Type} (r : Except CoreError α) :
    NoIoError (r.mapError Error.core) := by
  intro msg h
  cases r <;> cases h

theorem noIoError_load {α : Type} [Encodable H α] (h : H) :
    NoIoError (s.load h : Except Error α) := by
  have hunframe : ∀ bytes, NoIoError (unframe bytes) := by
    intro bytes msg h
    cases bytes with
    | nil => cases h
    | cons tag rest =>
      cases hk : ObjectKind.fromTag tag <;> simp [unframe, hk, Except.mapError, Except.map] at h
  refine NoIoError.bind ?_ fun raw _ => noIoError_mapError _
  rw [ObjectStore.get]
  cases s.lookup h with
  | none => exact fun msg h => by cases h
  | some bytes =>
    refine (hunframe bytes).bind fun raw _ => ?_
    exact (noIoError_mapError _).bind fun _ _ msg h => by cases h

theorem noIoError_tryReadBlobAtPath (tree : H) : NoIoError (tryReadBlobAtPath s tree path) := by
  have hbelow : ∀ (parts : List String) (tree : H), NoIoError (tryReadBelow s tree parts) := by
    intro parts
    induction parts with
    | nil => exact fun tree msg h => by cases h
    | cons part rest ih =>
      intro tree
      refine (noIoError_load tree).bind fun t _ => ?_
      cases t.get part with
      | none => exact fun msg h => by cases h
      | some e =>
        simp only
        split_ifs
        · exact fun msg h => by cases h
        · exact (noIoError_load e.target).bind fun blob _ msg h => by cases h
        · exact fun msg h => by cases h
        · exact ih e.target
  refine NoIoError.bind (fun msg h => ?_) fun parts _ => hbelow parts tree
  unfold splitPath at h
  simp only at h
  split at h
  · cases h
  · split at h <;> cases h

omit [LinearOrder H] [Format H] in
theorem noIoError_inheritLines (parentAttrs : List (BlameLine H)) (snapHash : H)
    (snap : Snapshot H) (changes : List LineChange) :
    NoIoError (inheritLines parentAttrs snapHash snap changes) := by
  induction changes with
  | nil => exact fun msg h => by cases h
  | cons change changes ih =>
    refine ih.bind fun out _ msg h => ?_
    cases htag : change.tag with
    | equal => cases hold : change.oldIndex <;> simp [htag, hold] at h
    | insert => simp [htag] at h
    | delete => simp [htag] at h

/-- **The walk ends** when no snapshot is its own ancestor: with a stack that is deep enough the result
is the same for every depth, and the stack does not overflow. -/
theorem blameAt_stable (hdag : ∀ h, ¬ Relation.TransGen (IsParent s) h h) (target : H) :
    ∃ depth₀, NoIoError (blameAt lib s path depth₀ target) ∧ ∀ depth, depth₀ ≤ depth →
      blameAt lib s path depth target = blameAt lib s path depth₀ target := by
  induction target using (wellFounded_isParent hdag).induction with
  | _ target ih =>
    -- The walk goes on with the first parent only.
    have hparent : ∃ depth₀, ∀ (snap : Snapshot H) parent more, s.load target = .ok snap →
        snap.parents = parent :: more → NoIoError (blameAt lib s path depth₀ parent) ∧
          ∀ depth, depth₀ ≤ depth →
            blameAt lib s path depth parent = blameAt lib s path depth₀ parent := by
      by_cases hexists : ∃ (snap : Snapshot H) (parent : H) (more : List H),
          s.load target = .ok snap ∧ snap.parents = parent :: more
      · obtain ⟨snap, parent, more, hsnap, hparents⟩ := hexists
        obtain ⟨depth₀, hdepth⟩ := ih parent ⟨snap, hsnap, hparents ▸ List.mem_cons_self⟩
        refine ⟨depth₀, fun snap' parent' more' hsnap' hparents' => ?_⟩
        obtain rfl := Except.ok.inj (hsnap.symm.trans hsnap')
        obtain ⟨rfl, -⟩ := List.cons.inj (hparents.symm.trans hparents')
        exact hdepth
      · exact ⟨0, fun snap parent more hsnap hparents =>
          absurd ⟨snap, parent, more, hsnap, hparents⟩ hexists⟩
    obtain ⟨depth₀, hdepth⟩ := hparent
    refine ⟨depth₀ + 1, ?_, fun depth hle => ?_⟩
    · rw [blameAt]
      refine (noIoError_load target).bind fun snap hsnap => ?_
      refine (noIoError_tryReadBlobAtPath snap.tree).bind fun read _ => ?_
      cases read with
      | none => exact fun msg h => by cases h
      | some bytes =>
        simp only
        split
        · exact fun msg h => by cases h
        cases hparents : snap.parents with
        | nil => exact fun msg h => by cases h
        | cons parent more =>
          refine (noIoError_load parent).bind fun parentSnap _ => ?_
          refine (noIoError_tryReadBlobAtPath parentSnap.tree).bind fun parentRead _ => ?_
          cases parentRead with
          | none => exact fun msg h => by cases h
          | some parentBytes =>
            simp only
            split
            · exact fun msg h => by cases h
            · exact (hdepth snap parent more hsnap hparents).1.bind fun parentAttrs _ =>
                noIoError_inheritLines parentAttrs target snap _
    · obtain ⟨depth, rfl⟩ : ∃ n, depth = n + 1 := ⟨depth - 1, by omega⟩
      rw [blameAt, blameAt]
      cases hsnap : (s.load target : Except Error (Snapshot H)) with
      | error e => rfl
      | ok snap =>
        cases hparents : snap.parents with
        | nil => simp only [bind, Except.bind, hparents]
        | cons parent more =>
          simp only [bind, Except.bind, hparents,
            (hdepth snap parent more hsnap hparents).2 depth (by omega)]

end Walk

end Tig
