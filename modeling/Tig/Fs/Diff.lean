import Tig.Fs.Materialize
import Tig.Fs.Text

set_option relaxedAutoImplicit false
set_option autoImplicit false

/-!
# Comparing two trees

The trees are walked side by side. Where both have the same entry nothing below it is looked at.
Files that differ are compared line by line.

## Main definitions

* `Tig.diffTrees` — the files in which two trees differ.
* `Tig.FileDiff`, `Tig.Hunk` — one such file, and a piece of it.

## Main results

* `Tig.diffTrees_congr` — a comparison depends on the trees that it walks and the files in them.
-/

namespace Tig

/-! ## Results -/

/-- What happened to a path. -/
inductive ChangeKind where
  | added
  | removed
  | modified
  | typeChanged (before after : EntryKind)
deriving DecidableEq, Repr

/-- A line of a hunk, without its ending. -/
inductive HunkLine where
  | context (line : String)
  | add (line : String)
  | remove (line : String)
deriving DecidableEq, Repr

/-- A piece of a comparison of two texts. Lines are counted from 1; the start is 0 where a side
has no lines. -/
structure Hunk where
  fromStart : Nat
  fromLen : Nat
  toStart : Nat
  toLen : Nat
  lines : List HunkLine
deriving DecidableEq, Repr

/-- A path at which two trees differ. -/
structure FileDiff (H : Type) where
  path : String
  kind : ChangeKind
  entryKind : EntryKind
  fromTarget : Option H
  toTarget : Option H
  binary : Bool
  hunks : Option (List Hunk)
deriving DecidableEq, Repr

/-- How to compare. -/
structure DiffOptions where
  noHunks : Bool
  paths : List String
  contextLines : Nat

/-! ## Texts -/

/-- The line of a hunk that a line of a line diff is. -/
def HunkLine.ofChange (change : LineChange) : HunkLine :=
  match change.tag with
  | .equal => .context (stripEol change.value)
  | .insert => .add (stripEol change.value)
  | .delete => .remove (stripEol change.value)

/-- The hunk made of some lines of a line diff: a side starts at the first line that stands on
it, and has as many lines as stand on it. -/
def Hunk.ofChanges (changes : List LineChange) : Hunk :=
  let olds := changes.filterMap LineChange.oldIndex
  let news := changes.filterMap LineChange.newIndex
  { fromStart := (olds.head?.map (· + 1)).getD 0
    fromLen := olds.length
    toStart := (news.head?.map (· + 1)).getD 0
    toLen := news.length
    lines := changes.map HunkLine.ofChange }

/-- The hunks in which two texts differ. -/
def blobDiffHunks (lib : TextLib) (before after : String) (context : Nat) : List Hunk :=
  (lib.hunkChanges (max context 1) before after).map Hunk.ofChanges

/-! ## Trees -/

section Diff

variable {H : Type} [LinearOrder H] [Format H] (lib : TextLib) (s : ObjectStore H)
  (opts : DiffOptions)

/-- The entries of a tree by name; of two entries of one name the later counts. -/
def entriesByName (entries : List (TreeEntry H)) : List (TreeEntry H) :=
  entries.foldl (fun found e => upsertEntry e found) []

/-- The entries of a tree by name; an absent tree has none. -/
def entriesOf : Option H → Except Error (List (TreeEntry H))
  | none => .ok []
  | some h => do
    let t : Tree H ← s.load h
    .ok (entriesByName t.entries)

/-- The names that entries have on either side, in order. -/
def unionNames (before after : List (TreeEntry H)) : List String :=
  (after.foldl (fun found e => upsertEntry e found) before).map TreeEntry.name

/-- The content of the file an entry points at; an absent entry has none. -/
def targetBytes : Option (TreeEntry H) → Except Error Bytes
  | none => .ok []
  | some e => do
    let blob : Blob ← s.load e.target
    .ok blob.bytes

/-- The kind that is shown of a change: that of the entry after it, if there is one. -/
def shownKind (before after : Option (TreeEntry H)) : EntryKind :=
  match after, before with
  | some t, _ => t.kind
  | none, some f => f.kind
  | none, none => .file

/-- Are the contents compared? They are those of files, unless the kind has changed. -/
def ChangeKind.comparesFiles (kind : ChangeKind) (entryKind : EntryKind) : Bool :=
  match kind with
  | .added | .removed | .modified => entryKind = .file
  | .typeChanged _ _ => false

/-- The difference at one path. -/
def emitChange (path : String) (kind : ChangeKind) (before after : Option (TreeEntry H)) :
    Except Error (FileDiff H) :=
  let diff : FileDiff H := ⟨path, kind, shownKind before after, before.map TreeEntry.target,
    after.map TreeEntry.target, false, none⟩
  if kind.comparesFiles (shownKind before after) && !opts.noHunks then do
    let fromBytes ← targetBytes s before
    let toBytes ← targetBytes s after
    if isBinary fromBytes || isBinary toBytes then
      .ok { diff with binary := true }
    else
      .ok { diff with hunks := some (blobDiffHunks lib (Utf8.decodeLossy fromBytes)
        (Utf8.decodeLossy toBytes) (max opts.contextLines 1)) }
  else
    .ok diff

/-- Is a path looked at? It is if it starts with a filter, or a filter starts with it. -/
def DiffOptions.passes (path : String) : Bool :=
  opts.paths.isEmpty || opts.paths.any fun p => startsWith path p || startsWith p path

/-- The differences at one path; `descend` compares two directories. -/
def diffEntry (descend : Option H → Option H → String → Except Error (List (FileDiff H)))
    (path : String) (before after : Option (TreeEntry H)) : Except Error (List (FileDiff H)) :=
  let emit (kind : ChangeKind) := (emitChange lib s opts path kind before after).map fun d => [d]
  match before, after with
  | some f, some t =>
    if f.target = t.target ∧ f.kind = t.kind then .ok []
    else if f.kind = .tree ∧ t.kind = .tree then descend (some f.target) (some t.target) path
    else if f.kind ≠ t.kind then emit (.typeChanged f.kind t.kind)
    else emit .modified
  | some f, none => if f.kind = .tree then descend (some f.target) none path else emit .removed
  | none, some t => if t.kind = .tree then descend none (some t.target) path else emit .added
  | none, none => .error (.corrupt "name came from at least one side")

/-- The differences at some names of two directories, in order. -/
def diffNames (descend : Option H → Option H → String → Except Error (List (FileDiff H)))
    (pathPrefix : String) (before after : List (TreeEntry H)) :
    List String → Except Error (List (FileDiff H))
  | [] => .ok []
  | name :: names =>
    let path := entryPath pathPrefix name
    if opts.passes path then do
      let diffs ← diffEntry lib s opts descend path (findEntry name before) (findEntry name after)
      let rest ← diffNames descend pathPrefix before after names
      .ok (diffs ++ rest)
    else
      diffNames descend pathPrefix before after names

/-- The differences of two directories, of which one may be absent. `depth` is how deep the
recursion can go before the stack overflows, which ends the process. -/
def diffSubtree : (depth : Nat) → Option H → Option H → String → Except Error (List (FileDiff H))
  | 0, _, _, _ => .error (.io "stack overflow")
  | depth + 1, before, after, pathPrefix =>
    if before.isSome ∧ before = after then .ok []
    else do
      let fromEntries ← entriesOf s before
      let toEntries ← entriesOf s after
      diffNames lib s opts (diffSubtree depth) pathPrefix fromEntries toEntries
        (unionNames fromEntries toEntries)

/-- The files in which two trees differ. -/
def diffTrees (depth : Nat) (before after : H) : Except Error (List (FileDiff H)) :=
  if before = after then .ok []
  else diffSubtree lib s opts depth (some before) (some after) ""

end Diff

/-! ## Comparing in two stores -/

section Congr

variable {H : Type} [LinearOrder H] [Format H] {s s' : ObjectStore H} {T : H → Prop} (lib : TextLib)
  (opts : DiffOptions)

/-- The tree, if there is one, is in the set. -/
def TreeIn {H : Type} (T : H → Prop) (root : Option H) : Prop := ∀ r, root = some r → T r

/-- The stores have in common what an entry points at, if there is one. -/
def SameTarget (T : H → Prop) (s s' : ObjectStore H) (entry : Option (TreeEntry H)) : Prop :=
  ∀ e, entry = some e → (e.kind = .file → s.lookup e.target = s'.lookup e.target) ∧
    (e.kind = .tree → T e.target)

omit [LinearOrder H] [Format H] in
theorem mem_foldl_upsertEntry {e : TreeEntry H} {entries found : List (TreeEntry H)}
    (h : e ∈ entries.foldl (fun found e => upsertEntry e found) found) :
    e ∈ entries ∨ e ∈ found := by
  induction entries generalizing found with
  | nil => exact Or.inr h
  | cons a entries ih =>
    rcases ih h with h | h
    · exact Or.inl (List.mem_cons_of_mem _ h)
    · rcases mem_upsertEntry h with rfl | h
      · exact Or.inl List.mem_cons_self
      · exact Or.inr h

theorem entriesOf_congr (h : SameTrees T s s') {root : Option H} (hr : TreeIn T root) :
    entriesOf s root = entriesOf s' root := by
  cases root with
  | none => rfl
  | some r => rw [entriesOf, entriesOf, ObjectStore.load_congr (h.tree r (hr r rfl))]

/-- The stores have in common what the entries of a tree point at. -/
theorem sameTarget_of_entriesOf (h : SameTrees T s s') {root : Option H} (hr : TreeIn T root)
    {entries : List (TreeEntry H)} (he : entriesOf s root = .ok entries) (name : String) :
    SameTarget T s s' (findEntry name entries) := by
  intro e hfind
  cases root with
  | none =>
    obtain rfl := Except.ok.inj he
    cases hfind
  | some r =>
    rw [entriesOf] at he
    cases ht : (s.load r : Except Error (Tree H)) with
    | error err =>
      rw [ht] at he
      cases he
    | ok t =>
      rw [ht] at he
      obtain rfl : entriesByName t.entries = entries := Except.ok.inj he
      have hmem : e ∈ t.entries :=
        (mem_foldl_upsertEntry (mem_of_findEntry hfind)).resolve_right List.not_mem_nil
      exact ⟨fun hk => h.leaf r (hr r rfl) t ht e hmem (Or.inl hk),
        fun hk => h.dir r (hr r rfl) t ht e hmem hk⟩

/-- Contents are compared of files alone. -/
theorem ChangeKind.file_of_comparesFiles {kind : ChangeKind} {entryKind : EntryKind}
    (h : kind.comparesFiles entryKind = true) : entryKind = .file := by
  cases kind with
  | typeChanged before after => cases h
  | _ => exact of_decide_eq_true h

theorem targetBytes_congr {entry : Option (TreeEntry H)} (h : SameTarget T s s' entry)
    (hk : ∀ e, entry = some e → e.kind = .file) : targetBytes s entry = targetBytes s' entry := by
  cases entry with
  | none => rfl
  | some e =>
    have hl := (h e rfl).1 (hk e rfl)
    rw [targetBytes, targetBytes, ObjectStore.load_congr hl]

/-- The difference at one path is the same when the files on both sides are. -/
theorem emitChange_congr {before after : Option (TreeEntry H)} (hb : SameTarget T s s' before)
    (ha : SameTarget T s s' after) (path : String) (kind : ChangeKind)
    (hsame : kind.comparesFiles (shownKind before after) = true →
      ∀ e, before = some e ∨ after = some e → e.kind = .file) :
    emitChange lib s opts path kind before after =
      emitChange lib s' opts path kind before after := by
  rw [emitChange, emitChange]
  cases hc : kind.comparesFiles (shownKind before after) with
  | false => rfl
  | true =>
    rw [targetBytes_congr hb fun e he => hsame hc e (Or.inl he),
      targetBytes_congr ha fun e he => hsame hc e (Or.inr he)]

theorem diffEntry_congr
    {descend descend' : Option H → Option H → String → Except Error (List (FileDiff H))}
    (hd : ∀ before after path, TreeIn T before → TreeIn T after →
      descend before after path = descend' before after path)
    {before after : Option (TreeEntry H)} (hb : SameTarget T s s' before)
    (ha : SameTarget T s s' after) (path : String) :
    diffEntry lib s opts descend path before after =
      diffEntry lib s' opts descend' path before after := by
  have hnone : TreeIn T none := fun r hr => by cases hr
  have hsome : ∀ {e : H}, T e → TreeIn T (some e) := fun he r hr => Option.some.inj hr ▸ he
  rcases before with _ | f <;> rcases after with _ | t
  · rfl
  · rw [diffEntry, diffEntry]
    dsimp only
    rw [emitChange_congr lib opts hb ha]
    · split_ifs with hk
      · exact hd _ _ _ hnone (hsome ((ha t rfl).2 hk))
      · rfl
    · rintro hc e (he | he)
      · cases he
      · obtain rfl := Option.some.inj he
        exact ChangeKind.file_of_comparesFiles hc
  · rw [diffEntry, diffEntry]
    dsimp only
    rw [emitChange_congr lib opts hb ha]
    · split_ifs with hk
      · exact hd _ _ _ (hsome ((hb f rfl).2 hk)) hnone
      · rfl
    · rintro hc e (he | he)
      · obtain rfl := Option.some.inj he
        exact ChangeKind.file_of_comparesFiles hc
      · cases he
  · rw [diffEntry, diffEntry]
    dsimp only
    split_ifs with h₁ h₂ h₃
    · rfl
    · exact hd _ _ _ (hsome ((hb f rfl).2 h₂.1)) (hsome ((ha t rfl).2 h₂.2))
    · rw [emitChange_congr lib opts hb ha]
      intro hc
      cases hc
    · -- both sides have the same kind
      rw [emitChange_congr lib opts hb ha]
      intro hc e he
      have ht : t.kind = .file := ChangeKind.file_of_comparesFiles hc
      rcases he with he | he
      · rw [← Option.some.inj he, not_not.mp h₃, ht]
      · rw [← Option.some.inj he, ht]

theorem diffNames_congr
    {descend descend' : Option H → Option H → String → Except Error (List (FileDiff H))}
    (hd : ∀ before after path, TreeIn T before → TreeIn T after →
      descend before after path = descend' before after path)
    {before after : List (TreeEntry H)} (hb : ∀ name, SameTarget T s s' (findEntry name before))
    (ha : ∀ name, SameTarget T s s' (findEntry name after)) (pathPrefix : String)
    (names : List String) :
    diffNames lib s opts descend pathPrefix before after names =
      diffNames lib s' opts descend' pathPrefix before after names := by
  induction names with
  | nil => rfl
  | cons name names ih => rw [diffNames, diffNames, ih, diffEntry_congr lib opts hd (hb name) (ha name)]

theorem diffSubtree_congr (h : SameTrees T s s') (depth : Nat) {before after : Option H}
    (pathPrefix : String) (hb : TreeIn T before) (ha : TreeIn T after) :
    diffSubtree lib s opts depth before after pathPrefix =
      diffSubtree lib s' opts depth before after pathPrefix := by
  induction depth generalizing before after pathPrefix with
  | zero => rfl
  | succ depth ih =>
    rw [diffSubtree, diffSubtree, ← entriesOf_congr h hb, ← entriesOf_congr h ha]
    refine ite_congr rfl (fun _ => rfl) fun _ => ?_
    cases hf : entriesOf s before with
    | error e => rfl
    | ok fromEntries =>
      cases ht : entriesOf s after with
      | error e => rfl
      | ok toEntries =>
        exact diffNames_congr lib opts (fun b a path hb ha => ih path hb ha)
          (sameTarget_of_entriesOf h hb hf) (sameTarget_of_entriesOf h ha ht) _ _

/-- **A comparison depends on the trees that it walks and the files in them, and on nothing else.** -/
theorem diffTrees_congr (h : SameTrees T s s') (depth : Nat) {before after : H} (hb : T before)
    (ha : T after) :
    diffTrees lib s opts depth before after = diffTrees lib s' opts depth before after := by
  rw [diffTrees, diffTrees, diffSubtree_congr lib opts h depth "" (fun r hr => Option.some.inj hr ▸ hb)
    fun r hr => Option.some.inj hr ▸ ha]

end Congr

end Tig
