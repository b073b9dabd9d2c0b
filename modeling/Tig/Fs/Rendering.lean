import Tig.Fs.TreeEdit
import Tig.Fs.Materialize

set_option relaxedAutoImplicit false
set_option autoImplicit false

/-!
# What rendering a tree calls for

The walk of a render reads the store and issues operations. What it issues is read off the tree:
for each entry of each directory the operations that write it, in order. A tree of which an entry
cannot be written calls for nothing at all.

## Main definitions

* `Tig.TreeCalls` — rendering a tree calls for these operations.
* `Tig.Listed` — an entry is listed at a path of a tree.
* `Tig.treePath` — the tree path of an entry, as it is put together from the names on the way.

## Main results

* `Tig.renderTree_spec` — a render issues what the tree calls for, or the tree calls for nothing.
* `Tig.TreeCalls.listed` — a tree calls for what each of its entries calls for.
-/

namespace Tig

open Program

variable {H : Type} [LinearOrder H] [Format H]

/-! ## The operations of a tree -/

/-- The operations that write a file with the mode of its entry. -/
def writeOps (path : List String) (mode : FileMode) (bytes : Bytes) : List FsAction :=
  .write path bytes :: if mode.isExecutable then [.setExecutable path] else []

section Calls

variable (s : ObjectStore H) (opts : MaterializeOptions)

/-- Rendering the entry at `path`, whose tree path is `treePath`, calls for the operations `ops`;
`below` says so of a subtree. -/
def EntryCalls (below : H → List String → String → List FsAction → Prop) (path : List String)
    (treePath : String) (entry : TreeEntry H) (ops : List FsAction) : Prop :=
  match entry.kind with
  | .file => ∃ blob : Blob, s.load entry.target = .ok blob ∧
      ops = writeOps path entry.mode blob.bytes
  | .tree => ∃ ops', below entry.target path treePath ops' ∧ ops = .createDir path :: ops'
  | .symlink => ∃ (blob : Blob) (target : String), s.load entry.target = .ok blob ∧
      Utf8.decode blob.bytes = some target ∧ ops = [.symlink path target]
  | .sealed => ∃ (unsealer : Sealed → Bytes → Except String Bytes) (sealed : Sealed),
      opts.unsealer = some unsealer ∧ s.load entry.target = .ok sealed ∧
      ((∃ plaintext, unsealer sealed (Utf8.encode treePath) = .ok plaintext ∧
          ops = writeOps path entry.mode plaintext) ∨
        ∃ reason, unsealer sealed (Utf8.encode treePath) = .error reason ∧
          opts.onUnsealable = .skip ∧ ops = [])
  | .conflict | .submodule => False

/-- Rendering the entries of a tree calls for the operations of each, in order. -/
def EntriesCall (below : H → List String → String → List FsAction → Prop) (path : List String)
    (pathPrefix : String) : List (TreeEntry H) → List FsAction → Prop
  | [], ops => ops = []
  | entry :: entries, ops => ∃ ops₁ ops₂,
      EntryCalls s opts below (path ++ [entry.name]) (entryPath pathPrefix entry.name) entry ops₁ ∧
      EntriesCall below path pathPrefix entries ops₂ ∧ ops = ops₁ ++ ops₂

/-- Rendering a tree below `path` calls for the operations `ops`. -/
def TreeCalls : (depth : Nat) → H → List String → String → List FsAction → Prop
  | 0, _, _, _, _ => False
  | depth + 1, tree, path, pathPrefix, ops => ∃ t : Tree H, s.load tree = .ok t ∧
      EntriesCall s opts (TreeCalls depth) path pathPrefix t.entries ops

/-! ## A render issues them -/

/-- From `st` the program issues exactly the operations that are called for; it fails when nothing
is. -/
def IssuesCalled (called : List FsAction → Prop) (st : RenderState) (x : RenderM Unit) : Prop :=
  Post x st (fun _ st' => ∃ ops, st'.actions = st.actions ++ ops ∧ ∀ ops', called ops' ↔ ops' = ops)
    (fun _ st' => st.actions <+: st'.actions ∧ ∀ ops, ¬ called ops)

variable {s opts} {dst : String} {st : RenderState}

/-- Writing a file with the mode of its entry, and counting it. -/
theorem issuesCalled_file {path : List String} {mode : FileMode} {bytes : Bytes}
    {f : RenderStats → RenderStats} {called : List FsAction → Prop}
    (h : ∀ ops, called ops ↔ ops = writeOps path mode bytes) :
    IssuesCalled called st (do
      act (.write path bytes)
      if mode.isExecutable then
        act (.setExecutable path)
      count f) := by
  unfold IssuesCalled
  refine (Post.mono (Q := fun _ st' => st'.actions = st.actions ++ writeOps path mode bytes)
    (E := fun _ _ => False) ?_ (fun _ st' hst => ⟨_, hst, h⟩) (fun _ _ hf => hf.elim))
  cases hm : mode.isExecutable <;> simp [act, count, writeOps, hm]

/-- Rendering an entry issues what the entry calls for. -/
theorem renderEntry_spec {descend : H → List String → String → RenderM Unit}
    {below : H → List String → String → List FsAction → Prop} {path : List String}
    {treePath : String} {entry : TreeEntry H}
    (hd : entry.kind = .tree → ∀ st, IssuesCalled (below entry.target path treePath) st
      (descend entry.target path treePath)) :
    IssuesCalled (EntryCalls s opts below path treePath entry) st
      (renderEntry s opts dst descend path treePath entry) := by
  unfold renderEntry EntryCalls
  cases hk : entry.kind with
  | file =>
    unfold IssuesCalled
    rw [post_bind, post_fromExcept]
    refine ⟨fun blob hblob => issuesCalled_file fun ops => ?_, fun e he => ⟨List.prefix_rfl, ?_⟩⟩
    · simp [hblob]
    · simp [he]
  | tree =>
    unfold IssuesCalled
    rw [post_bind, act, post_modify]
    refine (hd hk _).mono ?_ ?_
    · rintro _ st' ⟨ops, hst', hops⟩
      refine ⟨.createDir path :: ops, by simp [hst'], fun ops' => ?_⟩
      simp [hops]
    · rintro _ st' ⟨hpre, hno⟩
      refine ⟨(List.prefix_append _ _).trans hpre, ?_⟩
      rintro _ ⟨ops, hops, -⟩
      exact hno ops hops
  | symlink =>
    unfold IssuesCalled
    rw [post_bind, post_fromExcept]
    refine ⟨fun blob hblob => ?_, fun e he => ⟨List.prefix_rfl, by simp [he]⟩⟩
    cases hdec : Utf8.decode blob.bytes with
    | none => exact ⟨List.prefix_rfl, by simp [hblob, hdec]⟩
    | some target => exact ⟨_, rfl, by simp [hblob, hdec]⟩
  | sealed =>
    cases hu : opts.unsealer with
    | none => exact ⟨List.prefix_rfl, by simp⟩
    | some unsealer =>
      unfold IssuesCalled
      dsimp only
      rw [post_bind, post_fromExcept]
      refine ⟨fun sealed hsealed => ?_, fun e he => ⟨List.prefix_rfl, by simp [he]⟩⟩
      cases hx : unsealer sealed (Utf8.encode treePath) with
      | ok plaintext => exact issuesCalled_file fun ops => by simp [hsealed, hx]
      | error reason =>
        dsimp only
        cases hp : opts.onUnsealable with
        | error => exact ⟨List.prefix_rfl, by simp [hsealed, hx]⟩
        | skip => exact ⟨[], by simp, by simp [hsealed, hx]⟩
  | conflict => exact ⟨List.prefix_rfl, fun _ h => h⟩
  | submodule => exact ⟨List.prefix_rfl, fun _ h => h⟩

/-- Rendering entries issues what they call for. -/
theorem renderEntries_spec {descend : H → List String → String → RenderM Unit}
    {below : H → List String → String → List FsAction → Prop} {path : List String}
    {pathPrefix : String} {entries : List (TreeEntry H)}
    (hd : ∀ h p tp st, IssuesCalled (below h p tp) st (descend h p tp)) :
    IssuesCalled (EntriesCall s opts below path pathPrefix entries) st
      (renderEntries s opts dst descend path pathPrefix entries) := by
  induction entries generalizing st with
  | nil => exact ⟨[], by simp, fun _ => Iff.rfl⟩
  | cons entry entries ih =>
    unfold IssuesCalled
    rw [renderEntries, post_bind]
    refine (renderEntry_spec fun _ => hd _ _ _).mono ?_ ?_
    · rintro _ st₁ ⟨ops₁, hst₁, hops₁⟩
      refine ih.mono ?_ ?_
      · rintro _ st₂ ⟨ops₂, hst₂, hops₂⟩
        refine ⟨ops₁ ++ ops₂, by rw [hst₂, hst₁, List.append_assoc], fun ops => ?_⟩
        simp [EntriesCall, hops₁, hops₂]
      · rintro _ st₂ ⟨hpre, hno⟩
        refine ⟨(List.prefix_append _ _).trans (hst₁ ▸ hpre), ?_⟩
        rintro _ ⟨_, ops₂, -, hops₂, -⟩
        exact hno ops₂ hops₂
    · rintro _ st₁ ⟨hpre, hno⟩
      refine ⟨hpre, ?_⟩
      rintro _ ⟨ops₁, _, hops₁, -, -⟩
      exact hno ops₁ hops₁

/-- **A render issues what the tree calls for**, in order; where it fails, the tree calls for
nothing. -/
theorem renderTree_spec {depth : Nat} {tree : H} {path : List String} {pathPrefix : String} :
    IssuesCalled (TreeCalls s opts depth tree path pathPrefix) st
      (renderTree s opts dst depth tree path pathPrefix) := by
  induction depth generalizing tree path pathPrefix st with
  | zero => exact ⟨List.prefix_rfl, fun _ h => h⟩
  | succ depth ih =>
    unfold IssuesCalled
    rw [renderTree, post_bind, post_fromExcept]
    refine ⟨fun t ht => ?_, fun e he => ⟨List.prefix_rfl, by simp [TreeCalls, he]⟩⟩
    refine (renderEntries_spec fun _ _ _ _ => ih).mono ?_ ?_
    · rintro _ st' ⟨ops, hst', hops⟩
      exact ⟨ops, hst', fun ops' => by simp [TreeCalls, ht, hops]⟩
    · rintro _ st' ⟨hpre, hno⟩
      refine ⟨hpre, ?_⟩
      rintro ops ⟨t', ht', hops⟩
      obtain rfl : t = t' := Except.ok.inj (ht.symm.trans ht')
      exact hno ops hops

end Calls

/-! ## The entries of a tree -/

/-- The tree path that a render puts together from the names on the way. -/
def treePath (pathPrefix : String) (parts : List String) : String := parts.foldl entryPath pathPrefix

section Listing

variable (s : ObjectStore H)

/-- The tree lists `entry` at the path `parts`. -/
inductive Listed : H → List String → TreeEntry H → Prop
  | entry {tree : H} {t : Tree H} {entry : TreeEntry H} (ht : s.load tree = .ok t)
      (he : entry ∈ t.entries) : Listed tree [entry.name] entry
  | inDir {tree : H} {t : Tree H} {dir entry : TreeEntry H} {parts : List String}
      (ht : s.load tree = .ok t) (hdir : dir ∈ t.entries) (hk : dir.kind = .tree)
      (h : Listed dir.target parts entry) : Listed tree (dir.name :: parts) entry

variable {s} {opts : MaterializeOptions}

/-- What can be looked up is listed. -/
theorem listed_of_entryAt {tree : H} {parts : List String} {entry : TreeEntry H}
    (h : entryAt s tree parts = some entry) :
    Listed s tree parts entry := by
  induction parts generalizing tree with
  | nil => cases h
  | cons name rest ih =>
    cases ht : s.load (α := Tree H) tree with
    | error e => simp [entryAt, ht] at h
    | ok t =>
      rw [entryAt_cons ht, Option.bind_eq_some_iff] at h
      obtain ⟨e, hg, he⟩ := h
      obtain rfl : e.name = name := name_of_findEntry hg
      have hmem : e ∈ t.entries := mem_of_findEntry hg
      split_ifs at he with hrest hk
      · obtain rfl := Option.some.inj he
        subst hrest
        exact .entry ht hmem
      · exact .inDir ht hmem hk (ih he)

/-- The entries of a tree call for what each of them calls for. -/
theorem EntriesCall.mem {below : H → List String → String → List FsAction → Prop}
    {path : List String} {pathPrefix : String} {entries : List (TreeEntry H)}
    {ops : List FsAction} (h : EntriesCall s opts below path pathPrefix entries ops)
    {entry : TreeEntry H} (he : entry ∈ entries) : ∃ ops', ops' <:+: ops ∧
      EntryCalls s opts below (path ++ [entry.name]) (entryPath pathPrefix entry.name) entry
        ops' := by
  induction entries generalizing ops with
  | nil => cases he
  | cons first entries ih =>
    obtain ⟨ops₁, ops₂, hops₁, hops₂, rfl⟩ := h
    rcases List.mem_cons.mp he with rfl | he
    · exact ⟨ops₁, (List.prefix_append _ _).isInfix, hops₁⟩
    · obtain ⟨ops', hin, hops'⟩ := ih hops₂ he
      exact ⟨ops', hin.trans (List.suffix_append _ _).isInfix, hops'⟩

/-- **A tree calls for what each of its entries calls for**, at the path the entry is listed at. -/
theorem TreeCalls.listed {depth : Nat} {tree : H} {path : List String} {pathPrefix : String}
    {ops : List FsAction} (h : TreeCalls s opts depth tree path pathPrefix ops)
    {parts : List String} {entry : TreeEntry H} (he : Listed s tree parts entry) :
    ∃ depth' ops', ops' <:+: ops ∧ EntryCalls s opts (TreeCalls s opts depth') (path ++ parts)
      (treePath pathPrefix parts) entry ops' := by
  induction he generalizing depth path pathPrefix ops with
  | @entry tree t entry ht he =>
    cases depth with
    | zero => exact h.elim
    | succ depth =>
      obtain ⟨t', ht', hops⟩ := h
      obtain rfl : t = t' := Except.ok.inj (ht.symm.trans ht')
      obtain ⟨ops', hin, hops'⟩ := hops.mem he
      exact ⟨depth, ops', hin, hops'⟩
  | @inDir tree t dir entry parts ht hdir hk _ ih =>
    cases depth with
    | zero => exact h.elim
    | succ depth =>
      obtain ⟨t', ht', hops⟩ := h
      obtain rfl : t = t' := Except.ok.inj (ht.symm.trans ht')
      obtain ⟨ops₁, hin₁, hops₁⟩ := hops.mem hdir
      unfold EntryCalls at hops₁
      rw [hk] at hops₁
      obtain ⟨ops₂, hops₂, rfl⟩ := hops₁
      obtain ⟨depth', ops', hin', hops'⟩ := ih hops₂
      refine ⟨depth', ops', hin'.trans ((List.suffix_cons _ _).isInfix.trans hin₁), ?_⟩
      rwa [List.append_assoc] at hops'

end Listing

end Tig
