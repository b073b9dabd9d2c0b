import Tig.Fs.Scan

set_option relaxedAutoImplicit false
set_option autoImplicit false

/-!
# Reading and editing a tree by path

The engine behind every edit without a working copy: walk down a path, replace or remove the
entry at its end, and write the trees on the way anew. Paths are components separated by
slashes.

## Main definitions

* `Tig.splitPath` — the components of a path.
* `Tig.lookupEntry`, `Tig.readBlobAtPath`, `Tig.tryReadBlobAtPath`, `Tig.listTree` — the readers.
* `Tig.writeBlobAtPath`, `Tig.writeSealedAtPath`, `Tig.deleteAtPath` — the writers.
* `Tig.entryAt` — what a tree has at a path, if it can be read.

## Main results

* `Tig.entryAt_recordTree` — a tree made by a scan has what the working copy has.
* `Tig.rewriteInsert_spec`, `Tig.rewriteRemove_spec` — an edit leaves other paths alone.
-/

namespace Tig

open Program

/-- The components of a path. -/
def splitPath (path : String) : Except Error (List String) :=
  let parts := ((path.toList.splitOn '/').map String.ofList).filter (· ≠ "")
  if parts = [] then .error (.core (.invalidPathComponent "(empty path)"))
  else
    match parts.find? fun p => p = "." ∨ p = ".." ∨ '\x00' ∈ p.toList with
    | some p => .error (.core (.invalidPathComponent p))
    | none => .ok parts

/-- A path without the slashes around it. -/
def trimSlashes (path : String) : String :=
  String.ofList (((path.toList.dropWhile (· = '/')).reverse.dropWhile (· = '/')).reverse)

variable {H : Type} [LinearOrder H] [Format H]

/-! ## Readers -/

/-- Look up the rest of a path below a tree; `walked` is the part before it. -/
def lookupBelow (s : ObjectStore H) (walked : List String) :
    H → List String → Except Error (TreeEntry H)
  | _, [] => .error (.core (.decode "empty path has no entry"))
  | tree, part :: rest => do
    let t : Tree H ← s.load tree
    match t.get part with
    | none => .error (.core (.decode
        ("no entry " ++ debugStr part ++ " at /" ++ "/".intercalate walked)))
    | some entry =>
      if rest = [] then .ok entry
      else if entry.kind ≠ .tree then .error (.core (.decode
        ("path traverses " ++ entry.kind.toText ++ " at /" ++ "/".intercalate walked ++ "/" ++ part)))
      else lookupBelow s (walked ++ [part]) entry.target rest

/-- The entry at a path. -/
def lookupEntry (s : ObjectStore H) (rootTree : H) (parts : List String) :
    Except Error (TreeEntry H) :=
  lookupBelow s [] rootTree parts

/-- The bytes of the file at a path. -/
def readBlobAtPath (s : ObjectStore H) (rootTree : H) (path : String) : Except Error Bytes := do
  let parts ← splitPath path
  let entry ← lookupEntry s rootTree parts
  if entry.kind ≠ .file then
    .error (.core (.decode
      ("path " ++ debugStr path ++ " is a " ++ entry.kind.toText ++ ", not a file")))
  else
    let blob : Blob ← s.load entry.target
    .ok blob.bytes

/-- The bytes of the file at the rest of a path, if there is a file. -/
def tryReadBelow (s : ObjectStore H) : H → List String → Except Error (Option Bytes)
  | _, [] => .error (.corrupt "entered unreachable code")
  | tree, part :: rest => do
    let t : Tree H ← s.load tree
    match t.get part with
    | none => .ok none
    | some entry =>
      if rest = [] then
        if entry.kind ≠ .file then .ok none
        else
          let blob : Blob ← s.load entry.target
          .ok (some blob.bytes)
      else if entry.kind ≠ .tree then .ok none
      else tryReadBelow s entry.target rest

/-- The bytes of the file at a path, or `none` when the path names no regular file. -/
def tryReadBlobAtPath (s : ObjectStore H) (rootTree : H) (path : String) :
    Except Error (Option Bytes) := do
  let parts ← splitPath path
  tryReadBelow s rootTree parts

/-- The tree at a path; the empty path is the root. -/
def listTree (s : ObjectStore H) (rootTree : H) (path : String) : Except Error (Tree H) := do
  let trimmed := trimSlashes path
  if trimmed = "" then s.load rootTree
  else
    let parts ← splitPath trimmed
    let entry ← lookupEntry s rootTree parts
    if entry.kind ≠ .tree then
      .error (.core (.decode
        ("path " ++ debugStr path ++ " is a " ++ entry.kind.toText ++ ", not a tree")))
    else s.load entry.target

/-! ## Writers -/

/-- The subtree to go down into: the one that is there, or a new one. -/
def subtreeFor (tree : Tree H) (head : String) : RepoM H H :=
  match tree.get head with
  | some e =>
    if e.kind = .tree then return e.target
    else throw (.core (.decode
      ("cannot descend into " ++ e.kind.toText ++ " at " ++ debugStr head)))
  | none => storeObject (Tree.new : Tree H)

/-- The hash of the tree with an entry put at a path. -/
def rewriteInsert (target : H) (kind : EntryKind) (mode : FileMode) :
    H → List String → RepoM H H
  | _, [] => throw (.corrupt "index out of bounds")
  | treeHash, head :: rest => do
    let tree : Tree H ← loadObject treeHash
    if rest = [] then
      let tree ← fromExcept ((tree.insert ⟨head, kind, target, mode, none⟩).mapError .core)
      storeObject tree
    else
      let subHash ← subtreeFor tree head
      let newSub ← rewriteInsert target kind mode subHash rest
      let tree ← fromExcept ((tree.insert ⟨head, .tree, newSub, .DIR, none⟩).mapError .core)
      storeObject tree

/-- The tree without its entry of the given name. -/
def Tree.remove (tree : Tree H) (name : String) : Tree H :=
  ⟨tree.entries.eraseP fun e => e.name = name⟩

/-- The hash of the tree with the entry at a path removed. A directory that this empties goes
too, the root apart. -/
def rewriteRemove : H → List String → RepoM H H
  | _, [] => throw (.corrupt "index out of bounds")
  | treeHash, head :: rest => do
    let tree : Tree H ← loadObject treeHash
    if rest = [] then
      if tree.entries.any fun e => e.name = head then
        storeObject (tree.remove head)
      else
        throw (.core (.decode ("no entry " ++ debugStr head ++ " to delete")))
    else
      match tree.get head with
      | none => throw (.core (.decode ("no entry " ++ debugStr head ++ " on the way to deleting")))
      | some entry =>
        if entry.kind ≠ .tree then
          throw (.core (.decode
            ("cannot descend into " ++ entry.kind.toText ++ " at " ++ debugStr head)))
        else
          let newSubHash ← rewriteRemove entry.target rest
          let newSub : Tree H ← loadObject newSubHash
          if newSub.isEmpty then
            storeObject (tree.remove head)
          else
            let tree ← fromExcept ((tree.insert ⟨head, .tree, newSubHash, .DIR, none⟩).mapError .core)
            storeObject tree

/-- Write a file at a path. -/
def writeBlobAtPath (rootTree : H) (path : String) (bytes : Bytes) : RepoM H H := do
  let parts ← fromExcept (splitPath path)
  let blob ← storeObject (Blob.mk bytes)
  rewriteInsert blob .file .REGULAR rootTree parts

/-- Write a sealed object at a path. -/
def writeSealedAtPath (rootTree : H) (path : String) (sealed : Sealed) : RepoM H H := do
  let parts ← fromExcept (splitPath path)
  let target ← storeObject sealed
  rewriteInsert target .sealed .REGULAR rootTree parts

/-- Remove what is at a path. -/
def deleteAtPath (rootTree : H) (path : String) : RepoM H H := do
  let parts ← fromExcept (splitPath path)
  rewriteRemove rootTree parts

/-! ## What a tree has at a path -/

/-- The entry at a path, if the trees on the way can be read. -/
def entryAt (s : ObjectStore H) : H → List String → Option (TreeEntry H)
  | _, [] => none
  | tree, name :: rest =>
    match (s.load tree : Except Error (Tree H)) with
    | .error _ => none
    | .ok t =>
      match t.get name with
      | none => none
      | some entry =>
        if rest = [] then some entry
        else if entry.kind = .tree then entryAt s entry.target rest
        else none

/-- What lookup returns is what the tree has at the path. -/
theorem lookupBelow_eq_ok {s : ObjectStore H} {walked : List String} {tree : H}
    {parts : List String} {entry : TreeEntry H} :
    lookupBelow s walked tree parts = .ok entry ↔ entryAt s tree parts = some entry := by
  induction parts generalizing walked tree with
  | nil => simp [lookupBelow, entryAt]
  | cons part rest ih =>
    rw [lookupBelow, entryAt]
    cases s.load (α := Tree H) tree with
    | error e => simp [bind, Except.bind]
    | ok t =>
      cases hg : t.get part with
      | none => simp [bind, Except.bind, hg]
      | some e =>
        by_cases hr : rest = []
        · simp [bind, Except.bind, hg, hr]
        · by_cases hk : e.kind = .tree
          · simp [bind, Except.bind, hg, hr, hk, ih]
          · simp [bind, Except.bind, hg, hr, hk]

/-- Bytes that were read are those of the file that the tree has at the path. -/
theorem tryReadBelow_eq_some {s : ObjectStore H} {tree : H} {parts : List String} {bytes : Bytes}
    (h : tryReadBelow s tree parts = .ok (some bytes)) :
    ∃ e blob, entryAt s tree parts = some e ∧ e.kind = .file ∧ s.load e.target = .ok blob ∧
      Blob.bytes blob = bytes := by
  induction parts generalizing tree with
  | nil => cases h
  | cons part rest ih =>
    rw [tryReadBelow] at h
    obtain ⟨t, ht, h⟩ := except_bind_eq_ok.mp h
    rw [entryAt, ht]
    cases hg : t.get part with
    | none => simp [hg] at h
    | some e =>
      simp only [hg] at h ⊢
      by_cases hrest : rest = []
      · rw [if_pos hrest] at h ⊢
        split_ifs at h with hk
        · cases h
        · obtain ⟨blob, hblob, hbytes⟩ := except_bind_eq_ok.mp h
          exact ⟨e, blob, rfl, not_not.mp hk, hblob, Option.some.inj (Except.ok.inj hbytes)⟩
      · rw [if_neg hrest] at h ⊢
        split_ifs at h with hk
        · cases h
        · rw [if_pos (not_not.mp hk)]
          exact ih h

/-- Where nothing was read the tree has no file. -/
theorem tryReadBelow_eq_none {s : ObjectStore H} {tree : H} {parts : List String}
    (h : tryReadBelow s tree parts = .ok none) {e : TreeEntry H}
    (he : entryAt s tree parts = some e) : e.kind ≠ .file := by
  induction parts generalizing tree with
  | nil => cases h
  | cons part rest ih =>
    rw [tryReadBelow] at h
    obtain ⟨t, ht, h⟩ := except_bind_eq_ok.mp h
    rw [entryAt, ht] at he
    cases hg : t.get part with
    | none => simp [hg] at he
    | some e' =>
      simp only [hg] at h he
      by_cases hrest : rest = []
      · rw [if_pos hrest] at h he
        obtain rfl := Option.some.inj he
        split_ifs at h with hk
        · exact hk
        · obtain ⟨blob, -, hbytes⟩ := except_bind_eq_ok.mp h
          cases hbytes
      · rw [if_neg hrest] at h he
        split_ifs at h with hk
        · rw [if_neg hk] at he
          cases he
        · rw [if_pos (not_not.mp hk)] at he
          exact ih h he

/-- The entry at a path of which the first step is known. -/
theorem entryAt_cons {s : ObjectStore H} {tree : H} {t : Tree H} (ht : s.load tree = .ok t)
    (name : String) (rest : List String) :
    entryAt s tree (name :: rest) = (t.get name).bind fun entry =>
      if rest = [] then some entry
      else if entry.kind = .tree then entryAt s entry.target rest else none := by
  rw [entryAt, ht]
  cases hg : t.get name <;> simp [hg]

/-- What can be read at a path can be read in a larger store. -/
theorem entryAt_mono {s s' : ObjectStore H} (hle : s.Le s') {tree : H} {parts : List String}
    {entry : TreeEntry H} (h : entryAt s tree parts = some entry) :
    entryAt s' tree parts = some entry := by
  induction parts generalizing tree with
  | nil => simp [entryAt] at h
  | cons name rest ih =>
    rw [entryAt] at h
    cases ht : s.load (α := Tree H) tree with
    | error e => simp [ht] at h
    | ok t =>
      rw [entryAt_cons (hle.load ht)]
      simp only [ht] at h
      cases hg : t.get name with
      | none => simp [hg] at h
      | some e =>
        simp only [hg] at h
        rw [Option.bind_some]
        split_ifs at h ⊢ with h1 h2
        · exact h
        · exact ih h

/-! ## A scanned tree has what the working copy has -/

omit [LinearOrder H] in
/-- The entry recorded under a name is that of the child called so. -/
theorem get_recordChildren {ignore : List String} {children : WorkingCopy} {tree tree' : Tree H}
    (h : recordChildren ignore tree children = some tree') (name : String) :
    tree'.get name =
      match findChild ignore name children with
      | some node => node.record ignore name
      | none => tree.get name := by
  induction children generalizing tree with
  | nil =>
    rw [recordChildren] at h
    obtain rfl := Option.some.inj h
    rfl
  | cons child rest ih =>
    obtain ⟨n, hd, ⟨hi, h⟩ | ⟨hi, entry, tree₁, hentry, hins, h⟩⟩ := recordChildren_cons h
    · -- the child is ignored
      have hno : ¬ (Utf8.decode child.1 = some name ∧ name ∉ ignore) := by
        rintro ⟨hn, hni⟩
        exact hni (Option.some.inj (hd.symm.trans hn) ▸ hi)
      rw [ih h, findChild, if_neg hno, Option.or_none]
    · rw [ih h, findChild, hd]
      cases findChild ignore name rest with
      | some node => rfl
      | none =>
        rw [Tree.get_insert hins, name_of_record hentry, Option.none_or]
        by_cases hn : n = name
        · subst hn
          simp [hi, hentry]
        · simp [hn, Ne.symm hn]

omit [LinearOrder H] in
/-- Every child of a recorded directory that is not ignored has been recorded. -/
theorem recorded_of_findChild {ignore : List String} {children : WorkingCopy}
    {tree tree' : Tree H} (h : recordChildren ignore tree children = some tree') {name : String}
    {node : Node} (hf : findChild ignore name children = some node) :
    ∃ entry : TreeEntry H, node.record ignore name = some entry := by
  induction children generalizing tree with
  | nil => simp [findChild] at hf
  | cons child rest ih =>
    rw [findChild, Option.or_eq_some_iff] at hf
    obtain ⟨n, hd, ⟨hi, h⟩ | ⟨hi, entry, tree₁, hentry, -, h⟩⟩ := recordChildren_cons h
    · rcases hf with hf | ⟨-, hf⟩
      · exact ih h hf
      · split at hf
        · rename_i hc
          exact absurd (Option.some.inj (hd.symm.trans hc.1) ▸ hi) hc.2
        · cases hf
    · rcases hf with hf | ⟨-, hf⟩
      · exact ih h hf
      · split at hf
        · rename_i hc
          obtain rfl := Option.some.inj (hd.symm.trans hc.1)
          obtain rfl := Option.some.inj hf
          exact ⟨entry, hentry⟩
        · cases hf

theorem storedIn_of_findChild {s : ObjectStore H} {ignore : List String} {name : String}
    {children : WorkingCopy} {node : Node} (hs : ChildrenStoredIn s ignore children)
    (h : findChild ignore name children = some node) : node.StoredIn s ignore := by
  induction children with
  | nil => simp [findChild] at h
  | cons child rest ih =>
    rw [findChild, Option.or_eq_some_iff] at h
    rcases h with h | ⟨-, h⟩
    · exact ih hs.2 h
    · split at h
      · rename_i hc
        obtain rfl := Option.some.inj h
        exact hs.1 name hc.1 hc.2
      · cases h

/-- **A scanned tree** has at every path what the working copy has there. -/
theorem entryAt_recordTree {s : ObjectStore H} {ignore : List String} {copy : WorkingCopy}
    {tree : Tree H} (htree : recordTree ignore copy = some tree) (hs : CopyStoredIn s ignore copy)
    (path : List String) :
    entryAt s ((encode H tree).hash H) path =
      (nodeAt ignore copy path).bind fun node => node.record ignore (path.getLastD "") := by
  induction path generalizing copy tree with
  | nil => rfl
  | cons name rest ih =>
    rw [entryAt_cons (hs.2 tree htree), get_recordChildren htree]
    have hempty : (Tree.new : Tree H).get name = none := rfl
    cases rest with
    | nil =>
      rw [nodeAt]
      cases hf : findChild ignore name copy <;> simp [hempty]
    | cons next rest =>
      rw [nodeAt]
      cases hf : findChild ignore name copy with
      | none => simp [hempty]
      | some node =>
        cases node with
        | file bytes executable => simp [Node.record]
        | symlink link => simp [Node.record]
        | other kind => simp [Node.record]
        | dir children =>
          obtain ⟨entry, hentry⟩ := recorded_of_findChild htree hf
          rw [Node.record, Option.map_eq_some_iff] at hentry
          obtain ⟨sub, hsub, -⟩ := hentry
          have hrest := ih hsub (storedIn_of_findChild hs.1 hf)
          simp only [Node.record, hsub, Option.map_some, Option.bind_some, reduceCtorEq, if_false,
            if_true, List.getLastD_cons]
          rw [hrest, List.getLastD_cons]

/-! ## An edit leaves other paths alone -/

/-- From one tree to the other, what can be read at a path that is neither above nor below `parts`
stays. -/
def KeepsOthers (s s' : ObjectStore H) (tree tree' : H) (parts : List String) : Prop :=
  ∀ path entry, ¬ path <+: parts → ¬ parts <+: path → entryAt s tree path = some entry →
    entryAt s' tree' path = some entry

/-- Above the path are directories as an insertion writes them. -/
def PlainDirs (s : ObjectStore H) (tree : H) (parts : List String) : Prop :=
  ∀ path, path ≠ [] → path <+: parts → path ≠ parts →
    ∃ e, entryAt s tree path = some e ∧ e.kind = .tree ∧ e.mode = .DIR ∧ e.vis = none

/-- There is nothing above a path of one step. -/
theorem plainDirs_singleton (s : ObjectStore H) (tree : H) (head : String) :
    PlainDirs s tree [head] := by
  intro path hne hpre hne'
  cases path with
  | nil => exact absurd rfl hne
  | cons name rest =>
    obtain ⟨rfl, hrest⟩ := List.cons_prefix_cons.mp hpre
    exact absurd (by rw [List.prefix_nil.mp hrest]) hne'

/-- One level more: the directory at the first component, and those below it. -/
theorem PlainDirs.cons {s s' : ObjectStore H} (hle : s.Le s') {tree sub : H} {t : Tree H}
    {head : String} {rest : List String} (ht : s'.load tree = .ok t)
    (hget : t.get head = some ⟨head, .tree, sub, .DIR, none⟩) (h : PlainDirs s sub rest) :
    PlainDirs s' tree (head :: rest) := by
  intro path hne hpre hne'
  cases path with
  | nil => exact absurd rfl hne
  | cons name path =>
    obtain ⟨rfl, hpath⟩ := List.cons_prefix_cons.mp hpre
    rw [entryAt_cons ht, hget, Option.bind_some]
    by_cases hnil : path = []
    · exact ⟨_, if_pos hnil, rfl, rfl, rfl⟩
    · obtain ⟨e, he, hplain⟩ := h path hnil hpath fun heq => hne' (by rw [heq])
      refine ⟨e, ?_, hplain⟩
      rw [if_neg hnil, if_pos rfl]
      exact entryAt_mono hle he

/-- One level of an edit: names other than the first component are untouched, and below the first
component other paths are kept. -/
theorem KeepsOthers.cons {s s' : ObjectStore H} (hle : s.Le s') {tree tree' : H} {t t' : Tree H}
    (ht : s.load tree = .ok t) (ht' : s'.load tree' = .ok t') {head : String}
    {rest : List String}
    (hother : ∀ name entry, name ≠ head → t.get name = some entry → t'.get name = some entry)
    (hbelow : ∀ path entry sub, ¬ path <+: rest → ¬ rest <+: path → t.get head = some sub →
      sub.kind = .tree → entryAt s sub.target path = some entry →
      ∃ sub', t'.get head = some sub' ∧ sub'.kind = .tree ∧
        entryAt s' sub'.target path = some entry) :
    KeepsOthers s s' tree tree' (head :: rest) := by
  intro path entry hab hbe hentry
  cases path with
  | nil => exact absurd List.nil_prefix hab
  | cons name path =>
    rw [entryAt_cons ht, Option.bind_eq_some_iff] at hentry
    obtain ⟨sub, hsub, hentry⟩ := hentry
    rw [entryAt_cons ht']
    by_cases hn : name = head
    · subst hn
      rw [List.cons_prefix_cons] at hab hbe
      have hab' : ¬ path <+: rest := fun h => hab ⟨rfl, h⟩
      have hbe' : ¬ rest <+: path := fun h => hbe ⟨rfl, h⟩
      have hne : path ≠ [] := fun h => hab' (h ▸ List.nil_prefix)
      rw [if_neg hne] at hentry
      split at hentry
      · obtain ⟨sub', hsub', hk, he⟩ := hbelow path entry sub hab' hbe' hsub ‹_› hentry
        simp [hsub', hk, hne, he]
      · cases hentry
    · rw [hother name sub hn hsub, Option.bind_some]
      split_ifs at hentry ⊢ with h1 h2
      · exact hentry
      · exact entryAt_mono hle hentry

/-- An empty directory has nothing at any path. -/
theorem entryAt_of_isEmpty {s : ObjectStore H} {tree : H} {t : Tree H} (ht : s.load tree = .ok t)
    (he : t.isEmpty = true) (path : List String) : entryAt s tree path = none := by
  cases path with
  | nil => rfl
  | cons name rest =>
    have hnil : t.entries = [] := List.isEmpty_iff.mp he
    rw [entryAt_cons ht, Tree.get, hnil]
    rfl

omit [LinearOrder H] [Format H] in
/-- Removing an entry keeps what is found under other names. -/
theorem get_remove {t : Tree H} {head name : String} {entry : TreeEntry H} (hn : name ≠ head)
    (h : t.get name = some entry) : (t.remove head).get name = some entry := by
  unfold Tree.get Tree.remove at *
  dsimp only
  generalize t.entries = es at h
  induction es with
  | nil => simp [findEntry] at h
  | cons e es ih =>
    rw [findEntry] at h
    by_cases he : e.name = head
    · -- the removed entry stands before the one looked for
      rw [List.eraseP_cons_of_pos (by simpa using he)]
      split_ifs at h with h1 h2
      · exact h
      · exact absurd (h2.symm.trans he) hn
    · rw [List.eraseP_cons_of_neg (by simpa using he), findEntry]
      split_ifs at h ⊢ with h1 h2
      · exact ih h
      · exact h

theorem subtreeFor_spec {tree : Tree H} {head : String} {w : World H} {Q : H → World H → Prop}
    {E : Error → World H → Prop}
    (hok : ∀ sub w', w.Quiet w' →
      (∀ e, tree.get head = some e → e.kind = .tree ∧ sub = e.target) → Q sub w')
    (herr : ∀ e w', w.Quiet w' → E e w') : Post (subtreeFor tree head) w Q E := by
  rw [subtreeFor]
  cases hg : tree.get head with
  | none =>
    exact storeObject_spec (fun w' hq _ => hok _ w' hq (by rw [hg]; simp))
      (fun e w' hq _ _ => herr e w' hq)
  | some e =>
    dsimp only
    rw [post_ite]
    refine ⟨fun hk => hok _ w (.refl w) ?_, fun _ => herr _ w (.refl w)⟩
    rw [hg]
    rintro _ ⟨⟩
    exact ⟨hk, rfl⟩

/-- **Inserting at a path** writes objects only: the path then has the new entry, above it are plain
directories, and other paths keep what they have. -/
theorem rewriteInsert_spec {target : H} {kind : EntryKind} {mode : FileMode} {treeHash : H}
    {parts : List String} {w : World H} {Q : H → World H → Prop} {E : Error → World H → Prop}
    (hok : ∀ h' w', w.Grew w' (fun s' => KeepsOthers w.repo.objects s' treeHash h' parts ∧
      entryAt s' h' parts = some ⟨parts.getLastD "", kind, target, mode, none⟩ ∧
      PlainDirs s' h' parts) → Q h' w')
    (herr : ∀ e w', w.Quiet w' → E e w') :
    Post (rewriteInsert target kind mode treeHash parts) w Q E := by
  induction parts generalizing treeHash w Q E with
  | nil => exact herr _ w (.refl w)
  | cons head rest ih =>
    rw [rewriteInsert, post_bind]
    refine loadObject_spec (fun t w₁ hs₁ hr₁ ht => ?_)
      (fun e w₁ hs₁ hr₁ _ => herr e w₁ (.of_repo hs₁ hr₁))
    have hq₁ : w.Quiet w₁ := .of_repo hs₁ hr₁
    rw [post_ite]
    refine ⟨fun hrest => ?_, fun hrest => ?_⟩
    · subst hrest
      rw [post_bind, post_fromExcept]
      refine ⟨fun t' ht' => ?_, fun e he => herr e w₁ hq₁⟩
      have hins : t.insert ⟨head, kind, target, mode, none⟩ = .ok t' := by
        revert ht'
        cases t.insert ⟨head, kind, target, mode, none⟩ <;> simp [Except.mapError]
      refine storeObject_grew LawfulFormat.tree (fun w₂ hg₂ => ?_)
        (fun e w₂ hq₂ _ => herr e w₂ (hq₁.trans hq₂))
      refine hok _ w₂ ⟨hq₁.trans hg₂.quiet, fun hi => ?_⟩
      have hload := hg₂.stored (hq₁.intact hi)
      refine ⟨.cons (hq₁.trans hg₂.quiet).le ht hload (fun name e hn he => ?_)
        (fun path _ _ _ hbe => absurd List.nil_prefix hbe), ?_, plainDirs_singleton _ _ _⟩
      · rw [Tree.get_insert hins, if_neg hn, he]
      · rw [entryAt_cons hload, Tree.get_insert hins, if_pos rfl]
        rfl
    · rw [post_bind]
      refine subtreeFor_spec (fun subHash w₂ hq₂ hsubHash => ?_)
        (fun e w₂ hq₂ => herr e w₂ (hq₁.trans hq₂))
      rw [post_bind]
      refine ih (fun newSub w₃ hg₃ => ?_)
        (fun e w₃ hq₃ => herr e w₃ (hq₁.trans (hq₂.trans hq₃)))
      rw [post_bind, post_fromExcept]
      have hq₃ := hq₁.trans (hq₂.trans hg₃.quiet)
      refine ⟨fun t' ht' => ?_, fun e he => herr e w₃ hq₃⟩
      have hins : t.insert ⟨head, .tree, newSub, .DIR, none⟩ = .ok t' := by
        revert ht'
        cases t.insert ⟨head, .tree, newSub, .DIR, none⟩ <;> simp [Except.mapError]
      refine storeObject_grew LawfulFormat.tree (fun w₄ hg₄ => ?_)
        (fun e w₄ hq₄ _ => herr e w₄ (hq₃.trans hq₄))
      refine hok _ w₄ ⟨hq₃.trans hg₄.quiet, fun hi => ?_⟩
      have hload := hg₄.stored (hq₃.intact hi)
      obtain ⟨hkeep, hat, hdirs⟩ := hg₃.stored ((hq₁.trans hq₂).intact hi)
      refine ⟨.cons (hq₃.trans hg₄.quiet).le ht hload (fun name e hn he => ?_)
        (fun path entry sub hab hbe hsub hk he => ?_), ?_, .cons hg₄.quiet.le hload
          (by rw [Tree.get_insert hins, if_pos rfl]) hdirs⟩
      · rw [Tree.get_insert hins, if_neg hn, he]
      · obtain ⟨-, rfl⟩ := hsubHash sub hsub
        refine ⟨_, by rw [Tree.get_insert hins, if_pos rfl], rfl, ?_⟩
        exact entryAt_mono hg₄.quiet.le
          (hkeep path entry hab hbe (entryAt_mono (hq₁.trans hq₂).le he))
      · rw [entryAt_cons hload, Tree.get_insert hins, if_pos rfl, Option.bind_some, if_neg hrest,
          if_pos rfl, entryAt_mono hg₄.quiet.le hat]
        cases rest with
        | nil => exact absurd rfl hrest
        | cons next rest => rw [List.getLastD_cons, List.getLastD_cons, List.getLastD_cons]

/-- **Removing at a path** writes objects only, and other paths keep what they have. -/
theorem rewriteRemove_spec {treeHash : H} {parts : List String} {w : World H}
    {Q : H → World H → Prop} {E : Error → World H → Prop}
    (hok : ∀ h' w', w.Grew w' (fun s' => KeepsOthers w.repo.objects s' treeHash h' parts) →
      Q h' w')
    (herr : ∀ e w', w.Quiet w' → E e w') :
    Post (rewriteRemove treeHash parts) w Q E := by
  induction parts generalizing treeHash w Q E with
  | nil => exact herr _ w (.refl w)
  | cons head rest ih =>
    rw [rewriteRemove, post_bind]
    refine loadObject_spec (fun t w₁ hs₁ hr₁ ht => ?_)
      (fun e w₁ hs₁ hr₁ _ => herr e w₁ (.of_repo hs₁ hr₁))
    have hq₁ : w.Quiet w₁ := .of_repo hs₁ hr₁
    rw [post_ite]
    refine ⟨fun hrest => ?_, fun hrest => ?_⟩
    · subst hrest
      rw [post_ite]
      refine ⟨fun _ => ?_, fun _ => herr _ w₁ hq₁⟩
      refine storeObject_grew LawfulFormat.tree (fun w₂ hg₂ => ?_)
        (fun e w₂ hq₂ _ => herr e w₂ (hq₁.trans hq₂))
      refine hok _ w₂ ⟨hq₁.trans hg₂.quiet, fun hi => ?_⟩
      exact .cons (hq₁.trans hg₂.quiet).le ht (hg₂.stored (hq₁.intact hi))
        (fun name e hn he => get_remove hn he)
        (fun path _ _ _ hbe => absurd List.nil_prefix hbe)
    · cases hg : t.get head with
      | none => exact herr _ w₁ hq₁
      | some sub =>
        dsimp only
        rw [post_ite]
        refine ⟨fun _ => herr _ w₁ hq₁, fun hk => ?_⟩
        rw [post_bind]
        refine ih (fun newSub w₂ hg₂ => ?_) (fun e w₂ hq₂ => herr e w₂ (hq₁.trans hq₂))
        have hq₂ := hq₁.trans hg₂.quiet
        rw [post_bind]
        refine loadObject_spec (fun sub' w₃ hs₃ hr₃ hsub' => ?_)
          (fun e w₃ hs₃ hr₃ _ => herr e w₃ (hq₂.trans (.of_repo hs₃ hr₃)))
        have hq₃ := hq₂.trans (.of_repo hs₃ hr₃)
        -- what the subtree had at other paths is still there after the removal
        have hkeep : ∀ [LawfulFormat H], w.repo.objects.Intact → ∀ path entry,
            ¬ path <+: rest → ¬ rest <+: path →
            entryAt w.repo.objects sub.target path = some entry →
            entryAt w₂.repo.objects newSub path = some entry := fun hi path entry hab hbe he =>
          hg₂.stored (hq₁.intact hi) path entry hab hbe (entryAt_mono hq₁.le he)
        rw [post_ite]
        refine ⟨fun hempty => ?_, fun _ => ?_⟩
        · refine storeObject_grew LawfulFormat.tree (fun w₄ hg₄ => ?_)
            (fun e w₄ hq₄ _ => herr e w₄ (hq₃.trans hq₄))
          refine hok _ w₄ ⟨hq₃.trans hg₄.quiet, fun hi => ?_⟩
          refine .cons (hq₃.trans hg₄.quiet).le ht (hg₄.stored (hq₃.intact hi))
            (fun name e hn he => get_remove hn he) (fun path entry e hab hbe hsub _ he => ?_)
          obtain rfl := Option.some.inj (hg.symm.trans hsub)
          have hat := hkeep hi path entry hab hbe he
          rw [entryAt_of_isEmpty hsub' hempty] at hat
          cases hat
        · rw [post_bind, post_fromExcept]
          refine ⟨fun t' ht' => ?_, fun e he => herr e w₃ hq₃⟩
          have hins : t.insert ⟨head, .tree, newSub, .DIR, none⟩ = .ok t' := by
            revert ht'
            cases t.insert ⟨head, .tree, newSub, .DIR, none⟩ <;> simp [Except.mapError]
          refine storeObject_grew LawfulFormat.tree (fun w₄ hg₄ => ?_)
            (fun e w₄ hq₄ _ => herr e w₄ (hq₃.trans hq₄))
          refine hok _ w₄ ⟨hq₃.trans hg₄.quiet, fun hi => ?_⟩
          have hle : w₂.repo.objects.Le w₄.repo.objects := by
            rw [← hr₃]
            exact hg₄.quiet.le
          refine .cons (hq₃.trans hg₄.quiet).le ht (hg₄.stored (hq₃.intact hi))
            (fun name e hn he => by rw [Tree.get_insert hins, if_neg hn, he])
            (fun path entry e hab hbe hsub _ he => ?_)
          obtain rfl := Option.some.inj (hg.symm.trans hsub)
          exact ⟨_, by rw [Tree.get_insert hins, if_pos rfl], rfl,
            entryAt_mono hle (hkeep hi path entry hab hbe he)⟩

/-! ### Edits of a root tree -/

/-- An edit of root trees at a path: it writes objects only, and other paths keep what they
have. -/
def EditsPath (edit : H → RepoM H H) (path : String) : Prop :=
  ∀ (rootTree : H) (w : World H), Post (edit rootTree) w
    (fun tree' w' => ∃ parts, splitPath path = .ok parts ∧
      w.Grew w' fun s' => KeepsOthers w.repo.objects s' rootTree tree' parts)
    (fun _ w' => w.Quiet w')

/-- Storing an object and inserting it at a path. -/
theorem editsPath_insert {α : Type} [Encodable H α]
    (hc : ∀ [LawfulFormat H], (Encodable.codec H (α := α)).Lawful) (a : α) (kind : EntryKind)
    (mode : FileMode) (path : String) :
    EditsPath (fun rootTree : H => do
      let parts ← fromExcept (splitPath path)
      let target ← storeObject a
      rewriteInsert target kind mode rootTree parts) path := by
  intro rootTree w
  rw [post_bind, post_fromExcept]
  refine ⟨fun parts hparts => ?_, fun e _ => World.Quiet.refl w⟩
  rw [post_bind]
  refine storeObject_grew hc (fun w₁ hg₁ => ?_) (fun e w₁ hq₁ _ => hq₁)
  refine rewriteInsert_spec (fun h' w₂ hg₂ => ?_) (fun e w₂ hq₂ => hg₁.quiet.trans hq₂)
  refine ⟨parts, hparts, hg₁.quiet.trans hg₂.quiet, fun hi path entry hab hbe he => ?_⟩
  exact (hg₂.stored (hg₁.quiet.intact hi)).1 path entry hab hbe (entryAt_mono hg₁.quiet.le he)

theorem editsPath_writeBlobAtPath (path : String) (bytes : Bytes) :
    EditsPath (fun rootTree : H => writeBlobAtPath rootTree path bytes) path :=
  editsPath_insert LawfulFormat.blob (Blob.mk bytes) .file .REGULAR path

theorem editsPath_writeSealedAtPath (path : String) (sealed : Sealed) :
    EditsPath (fun rootTree : H => writeSealedAtPath rootTree path sealed) path :=
  editsPath_insert LawfulFormat.sealed sealed .sealed .REGULAR path

theorem editsPath_deleteAtPath (path : String) :
    EditsPath (fun rootTree : H => deleteAtPath rootTree path) path := by
  intro rootTree w
  dsimp only
  rw [deleteAtPath, post_bind, post_fromExcept]
  exact ⟨fun parts hparts => rewriteRemove_spec (fun _ _ hg => ⟨parts, hparts, hg⟩)
    (fun _ _ hq => hq), fun e _ => World.Quiet.refl w⟩

end Tig
