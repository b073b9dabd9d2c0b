import Tig.Lib.Utf8
import Tig.Store.Spec

set_option relaxedAutoImplicit false
set_option autoImplicit false

/-!
# From a working copy to a tree

A scan walks a directory depth first, writes a blob for every file and symlink and a tree for
every directory, and returns the hash of the root tree. Ignored names are skipped, and anything
that is not a file, a directory or a symlink is an error.

## Main definitions

* `Tig.Node` — what can lie in a directory.
* `Tig.scan` — the walk.
* `Tig.Node.record`, `Tig.recordChildren` — the entry, or the tree, that a scan makes.
* `Tig.nodeAt` — what a working copy has at a path.

## Main results

* `Tig.scan_spec` — a scan writes objects only, and returns the tree of the working copy.
-/

namespace Tig

open Program

/-- What can lie in a directory. The children of a directory are listed by ascending name, the
order in which a scan visits them; a name is bytes and need not be text. -/
inductive Node where
  | file (bytes : Bytes) (executable : Bool)
  | dir (children : List (Bytes × Node))
  | symlink (target : Bytes)
  | other (kind : String)

/-- The root of a working copy: what lies in it. -/
abbrev WorkingCopy := List (Bytes × Node)

/-- Where secondary workspaces go by default, below the main one. -/
def DEFAULT_WORKTREE_DIR : String := ".tig-worktrees"

/-- The names that every scan skips. -/
def defaultIgnore : List String := [".tig", DEFAULT_WORKTREE_DIR]

/-- The mode recorded for a file. -/
def unixMode (executable : Bool) : FileMode := if executable then .EXEC else .REGULAR

/-- The blob that stands for a symlink: its target, made text. -/
def linkBlob (target : Bytes) : Blob := ⟨Utf8.encode (Utf8.decodeLossy target)⟩

/-- The name of a directory entry, which must be text. -/
def entryName (name : Bytes) : Except Error String :=
  match Utf8.decode name with
  | some name => .ok name
  | none => .error (.core (.invalidPathComponent (Utf8.decodeLossy name)))

/-- Every name in a directory must be text. -/
def checkNames : WorkingCopy → Except Error Unit
  | [] => .ok ()
  | (name, _) :: rest => do
    let _ ← entryName name
    checkNames rest

variable {H : Type} [LinearOrder H] [Format H]

/-! ## The walk -/

/-- Scan one directory: its names are collected first, then `insertAll` makes the tree. -/
def scanDir (children : WorkingCopy) (insertAll : RepoM H (Tree H)) : RepoM H H := do
  step .workdirRead
  fromExcept (checkNames children)
  let tree ← insertAll
  storeObject tree

mutual

/-- Record what lies at `path` as an entry called `name`. -/
def buildEntry (ignore : List String) (path name : String) : Node → RepoM H (TreeEntry H)
  | .dir children => do
    step .workdirRead
    let target ← scanDir children (scanEntries ignore path .new children)
    return ⟨name, .tree, target, .DIR, none⟩
  | .file bytes executable => do
    step .workdirRead
    step .workdirRead
    let target ← storeObject (Blob.mk bytes)
    return ⟨name, .file, target, unixMode executable, none⟩
  | .symlink link => do
    step .workdirRead
    step .workdirRead
    let target ← storeObject (linkBlob link)
    return ⟨name, .symlink, target, .SYMLINK, none⟩
  | .other kind => do
    step .workdirRead
    throw (.unsupportedFileKind path kind)

/-- Record the entries of the directory at `path` into `tree`, in order. -/
def scanEntries (ignore : List String) (path : String) (tree : Tree H) :
    List (Bytes × Node) → RepoM H (Tree H)
  | [] => return tree
  | (bytes, node) :: rest => do
    let name ← fromExcept (entryName bytes)
    if name ∈ ignore then
      scanEntries ignore path tree rest
    else
      let entry ← buildEntry ignore (path ++ "/" ++ name) name node
      let tree ← fromExcept ((tree.insert entry).mapError .core)
      scanEntries ignore path tree rest

end

/-- Scan the working copy at `workdir`. -/
def scan (ignore : List String) (workdir : String) (copy : WorkingCopy) : RepoM H H := do
  step .workdirRead
  scanDir copy (scanEntries ignore workdir .new copy)

/-! ## What a scan makes -/

mutual

/-- The entry a scan makes of a node, if it can be recorded. -/
def Node.record (ignore : List String) (name : String) : Node → Option (TreeEntry H)
  | .dir children => (recordChildren ignore .new children).map fun tree : Tree H =>
      ⟨name, .tree, (encode H tree).hash H, .DIR, none⟩
  | .file bytes executable =>
      some ⟨name, .file, (encode H (Blob.mk bytes)).hash H, unixMode executable, none⟩
  | .symlink link => some ⟨name, .symlink, (encode H (linkBlob link)).hash H, .SYMLINK, none⟩
  | .other _ => none

/-- The tree a scan makes of a directory, if it can be recorded. -/
def recordChildren (ignore : List String) (tree : Tree H) :
    List (Bytes × Node) → Option (Tree H)
  | [] => some tree
  | (bytes, node) :: rest =>
    match Utf8.decode bytes with
    | none => none
    | some name =>
      if name ∈ ignore then recordChildren ignore tree rest
      else
        match Node.record ignore name node with
        | none => none
        | some entry =>
          match tree.insert entry with
          | .error _ => none
          | .ok tree => recordChildren ignore tree rest

end

mutual

/-- The objects a scan writes for a node are in the store. -/
def Node.StoredIn (s : ObjectStore H) (ignore : List String) : Node → Prop
  | .dir children => ChildrenStoredIn s ignore children ∧
      ∀ tree : Tree H, recordChildren ignore .new children = some tree →
        s.load ((encode H tree).hash H) = .ok tree
  | .file bytes _ => s.load ((encode H (Blob.mk bytes)).hash H) = .ok (Blob.mk bytes)
  | .symlink link => s.load ((encode H (linkBlob link)).hash H) = .ok (linkBlob link)
  | .other _ => True

/-- The objects a scan writes for the entries of a directory are in the store. -/
def ChildrenStoredIn (s : ObjectStore H) (ignore : List String) : List (Bytes × Node) → Prop
  | [] => True
  | (bytes, node) :: rest =>
      ((∀ name, Utf8.decode bytes = some name → name ∉ ignore → node.StoredIn s ignore)) ∧
        ChildrenStoredIn s ignore rest

end

/-- The tree a scan makes of a working copy. -/
def recordTree (ignore : List String) (copy : WorkingCopy) : Option (Tree H) :=
  recordChildren ignore .new copy

/-- The objects a scan of a working copy writes are in the store. -/
def CopyStoredIn (s : ObjectStore H) (ignore : List String) (copy : WorkingCopy) : Prop :=
  (Node.dir copy).StoredIn s ignore

/-! ## What the working copy has at a path -/

/-- The child of a directory that a scan records as `name`. Names in a directory differ, so the
order of the search does not matter. -/
def findChild (ignore : List String) (name : String) : WorkingCopy → Option Node
  | [] => none
  | (bytes, node) :: rest =>
    (findChild ignore name rest).or
      (if Utf8.decode bytes = some name ∧ name ∉ ignore then some node else none)

/-- What a working copy has at a path, as far as a scan sees it. -/
def nodeAt (ignore : List String) : WorkingCopy → List String → Option Node
  | _, [] => none
  | copy, [name] => findChild ignore name copy
  | copy, name :: next :: rest =>
    match findChild ignore name copy with
    | some (.dir children) => nodeAt ignore children (next :: rest)
    | _ => none

/-! ## The walk makes what is recorded -/

mutual

theorem Node.StoredIn.mono {s s' : ObjectStore H} {ignore : List String} (hle : s.Le s') :
    (node : Node) → node.StoredIn s ignore → node.StoredIn s' ignore
  | .dir children, h => ⟨ChildrenStoredIn.mono hle children h.1,
      fun tree ht => hle.load (h.2 tree ht)⟩
  | .file _ _, h => hle.load h
  | .symlink _, h => hle.load h
  | .other _, _ => trivial

theorem ChildrenStoredIn.mono {s s' : ObjectStore H} {ignore : List String} (hle : s.Le s') :
    (children : List (Bytes × Node)) → ChildrenStoredIn s ignore children →
      ChildrenStoredIn s' ignore children
  | [], _ => trivial
  | (_, node) :: rest, h => ⟨fun name hd hi => Node.StoredIn.mono hle node (h.1 name hd hi),
      ChildrenStoredIn.mono hle rest h.2⟩

end

omit [LinearOrder H] in
/-- Recording a directory goes child by child: the name is text, and the child is ignored or
recorded. -/
theorem recordChildren_cons {ignore : List String} {tree tree' : Tree H} {bytes : Bytes}
    {node : Node} {rest : WorkingCopy}
    (h : recordChildren ignore tree ((bytes, node) :: rest) = some tree') :
    ∃ name, Utf8.decode bytes = some name ∧
      (name ∈ ignore ∧ recordChildren ignore tree rest = some tree' ∨
        name ∉ ignore ∧ ∃ entry tree₁, node.record ignore name = some entry ∧
          tree.insert entry = .ok tree₁ ∧ recordChildren ignore tree₁ rest = some tree') := by
  rw [recordChildren] at h
  split at h
  · cases h
  · rename_i name hd
    refine ⟨name, hd, ?_⟩
    split at h
    · exact Or.inl ⟨‹_›, h⟩
    · split at h
      · cases h
      · split at h
        · cases h
        · exact Or.inr ⟨‹_›, _, _, ‹_›, ‹_›, h⟩

omit [LinearOrder H] in
/-- A directory that can be recorded has names that are text. -/
theorem checkNames_of_recordChildren {ignore : List String} {children : WorkingCopy}
    {tree tree' : Tree H} (h : recordChildren ignore tree children = some tree') :
    checkNames children = .ok () := by
  induction children generalizing tree with
  | nil => rfl
  | cons child rest ih =>
    obtain ⟨name, hd, ⟨-, h⟩ | ⟨-, _, _, -, -, h⟩⟩ := recordChildren_cons h <;>
      simp [checkNames, entryName, hd, ih h, bind, Except.bind]

omit [LinearOrder H] in
/-- The entry of a node has the name it was recorded under. -/
theorem name_of_record {ignore : List String} {name : String} {node : Node} {entry : TreeEntry H}
    (h : node.record ignore name = some entry) : entry.name = name := by
  cases node with
  | file bytes executable => obtain rfl := Option.some.inj h; rfl
  | symlink link => obtain rfl := Option.some.inj h; rfl
  | other kind => cases h
  | dir children =>
    rw [Node.record, Option.map_eq_some_iff] at h
    obtain ⟨_, -, rfl⟩ := h
    rfl

/-- A step of a scan that only looks at the working copy. -/
theorem workdirStep_spec {w : World H} {Q : Unit → World H → Prop} {E : Error → World H → Prop}
    (hok : ∀ w', w.Quiet w' → Q () w') (herr : ∀ e w', w.Quiet w' → w.env.Fault e → E e w') :
    Post (step .workdirRead) w Q E :=
  step_spec (by simp [FsStep.Mutates]) (fun w' hs hr => hok w' (.of_repo hs hr))
    (fun e w' hs hr hf => herr e w' (.of_repo hs hr) hf)

theorem scanDir_spec {ignore : List String} {children : WorkingCopy}
    {insertAll : RepoM H (Tree H)} {w : World H} {Q : H → World H → Prop}
    {E : Error → World H → Prop}
    (hall : ∀ (w₁ : World H) (Q' : Tree H → World H → Prop) (E' : Error → World H → Prop),
      (∀ tree w', World.Grew w₁ w' (fun s => ChildrenStoredIn s ignore children) →
        recordChildren ignore .new children = some tree → Q' tree w') →
      (∀ e w', w₁.Quiet w' →
        w₁.env.Fault e ∨ recordChildren ignore .new children = (none : Option (Tree H)) →
        E' e w') →
      Post insertAll w₁ Q' E')
    (hok : ∀ (tree : Tree H) w', World.Grew w w' (fun s => (Node.dir children).StoredIn s ignore) →
      recordChildren ignore .new children = some tree → Q ((encode H tree).hash H) w')
    (herr : ∀ e w', w.Quiet w' →
      w.env.Fault e ∨ recordChildren ignore .new children = (none : Option (Tree H)) → E e w') :
    Post (scanDir children insertAll) w Q E := by
  rw [scanDir, post_bind]
  refine workdirStep_spec (fun w₁ hq₁ => ?_) (fun e w₁ hq₁ hf => herr e w₁ hq₁ (Or.inl hf))
  rw [post_bind, post_fromExcept]
  refine ⟨fun _ _ => ?_, fun e he => ?_⟩
  · rw [post_bind]
    refine hall w₁ _ _ (fun tree w₂ hs₂ htree => ?_) (fun e w₂ hq₂ he => ?_)
    · refine storeObject_grew LawfulFormat.tree (fun w₃ hs₃ => ?_) (fun e w₃ hq₃ hf => ?_)
      · refine hok tree w₃ ⟨hq₁.trans (hs₂.quiet.trans hs₃.quiet), fun hi => ?_⟩ htree
        refine ⟨ChildrenStoredIn.mono hs₃.quiet.le _ (hs₂.stored (hq₁.intact hi)), ?_⟩
        intro tree' htree'
        obtain rfl : tree = tree' := Option.some.inj (htree.symm.trans htree')
        exact hs₃.stored (hs₂.quiet.intact (hq₁.intact hi))
      · refine herr e w₃ (hq₁.trans (hs₂.quiet.trans hq₃)) (Or.inl ?_)
        rwa [hs₂.quiet.env, hq₁.env] at hf
    · rw [hq₁.env] at he
      exact herr e w₂ (hq₁.trans hq₂) he
  · refine herr e w₁ hq₁ (Or.inr ?_)
    -- a name that is not text
    cases hrec : recordChildren (H := H) ignore .new children with
    | none => rfl
    | some tree =>
      rw [checkNames_of_recordChildren hrec] at he
      cases he

mutual

/-- Recording one node. -/
theorem buildEntry_spec {ignore : List String} : (node : Node) → (path name : String) →
    {w : World H} → {Q : TreeEntry H → World H → Prop} → {E : Error → World H → Prop} →
    (∀ entry w', World.Grew w w' (fun s => node.StoredIn s ignore) →
      node.record ignore name = some entry → Q entry w') →
    (∀ e w', w.Quiet w' →
      w.env.Fault e ∨ node.record ignore name = (none : Option (TreeEntry H)) → E e w') →
    Post (buildEntry ignore path name node) w Q E
  | .dir children, path, name, w, Q, E, hok, herr => by
    rw [buildEntry, post_bind]
    refine workdirStep_spec (fun w₁ hq₁ => ?_) (fun e w₁ hq₁ hf => herr e w₁ hq₁ (Or.inl hf))
    rw [post_bind]
    refine scanDir_spec
      (fun w₂ Q' E' hok' herr' => scanEntries_spec children path .new hok' herr')
      (fun tree w₂ hs₂ htree => ?_) (fun e w₂ hq₂ he => ?_)
    · exact hok _ w₂ (hs₂.of_quiet hq₁) (by rw [Node.record, htree]; rfl)
    · rw [hq₁.env] at he
      exact herr e w₂ (hq₁.trans hq₂) (he.imp_right fun h => by rw [Node.record, h]; rfl)
  | .file bytes executable, path, name, w, Q, E, hok, herr => by
    rw [buildEntry, post_bind]
    refine workdirStep_spec (fun w₁ hq₁ => ?_) (fun e w₁ hq₁ hf => herr e w₁ hq₁ (Or.inl hf))
    rw [post_bind]
    refine workdirStep_spec (fun w₂ hq₂ => ?_)
      (fun e w₂ hq₂ hf => herr e w₂ (hq₁.trans hq₂) (Or.inl (hq₁.env ▸ hf)))
    rw [post_bind]
    refine storeObject_grew LawfulFormat.blob
      (fun w₃ hs₃ => hok _ w₃ (hs₃.of_quiet (hq₁.trans hq₂)) rfl)
      (fun e w₃ hq₃ hf => herr e w₃ (hq₁.trans (hq₂.trans hq₃)) (Or.inl ?_))
    rwa [hq₂.env, hq₁.env] at hf
  | .symlink link, path, name, w, Q, E, hok, herr => by
    rw [buildEntry, post_bind]
    refine workdirStep_spec (fun w₁ hq₁ => ?_) (fun e w₁ hq₁ hf => herr e w₁ hq₁ (Or.inl hf))
    rw [post_bind]
    refine workdirStep_spec (fun w₂ hq₂ => ?_)
      (fun e w₂ hq₂ hf => herr e w₂ (hq₁.trans hq₂) (Or.inl (hq₁.env ▸ hf)))
    rw [post_bind]
    refine storeObject_grew LawfulFormat.blob
      (fun w₃ hs₃ => hok _ w₃ (hs₃.of_quiet (hq₁.trans hq₂)) rfl)
      (fun e w₃ hq₃ hf => herr e w₃ (hq₁.trans (hq₂.trans hq₃)) (Or.inl ?_))
    rwa [hq₂.env, hq₁.env] at hf
  | .other kind, path, name, w, Q, E, _, herr => by
    rw [buildEntry, post_bind]
    exact workdirStep_spec (fun w₁ hq₁ => herr _ w₁ hq₁ (Or.inr rfl))
      (fun e w₁ hq₁ hf => herr e w₁ hq₁ (Or.inl hf))

/-- Recording the entries of a directory, one after the other. -/
theorem scanEntries_spec {ignore : List String} : (children : List (Bytes × Node)) →
    (path : String) → (tree : Tree H) →
    {w : World H} → {Q : Tree H → World H → Prop} → {E : Error → World H → Prop} →
    (∀ tree' w', World.Grew w w' (fun s => ChildrenStoredIn s ignore children) →
      recordChildren ignore tree children = some tree' → Q tree' w') →
    (∀ e w', w.Quiet w' → w.env.Fault e ∨ recordChildren ignore tree children = none → E e w') →
    Post (scanEntries ignore path tree children) w Q E
  | [], path, tree, w, Q, E, hok, _ => hok tree w ⟨.refl w, fun _ => trivial⟩ rfl
  | (bytes, node) :: rest, path, tree, w, Q, E, hok, herr => by
    rw [scanEntries, post_bind, post_fromExcept]
    cases hd : Utf8.decode bytes with
    | none => simpa [entryName, hd] using herr _ w (.refl w) (Or.inr (by simp [recordChildren, hd]))
    | some name =>
      have hname : entryName bytes = .ok name := by simp [entryName, hd]
      rw [hname]
      refine ⟨?_, fun e he => by cases he⟩
      rintro _ ⟨⟩
      rw [post_ite]
      refine ⟨fun hi => ?_, fun hi => ?_⟩
      · -- an ignored child
        have hrec : recordChildren ignore tree ((bytes, node) :: rest) =
            recordChildren ignore tree rest := by simp [recordChildren, hd, hi]
        rw [hrec] at hok herr
        refine scanEntries_spec rest path tree (fun tree' w' hs htree => ?_) herr
        refine hok tree' w' ⟨hs.quiet, fun hint => ⟨fun name' hname' hi' => ?_, hs.stored hint⟩⟩
          htree
        obtain rfl : name = name' := Option.some.inj (hd.symm.trans hname')
        exact absurd hi hi'
      · rw [post_bind]
        refine buildEntry_spec node _ name (fun entry w₁ hs₁ hentry => ?_)
          (fun e w₁ hq₁ he => herr e w₁ hq₁ (he.imp_right fun h => ?_))
        · rw [post_bind, post_fromExcept]
          cases hins : tree.insert entry with
          | error e =>
            have hnone : recordChildren ignore tree ((bytes, node) :: rest) = none := by
              simp [recordChildren, hd, hi, hentry, hins]
            simpa [Except.mapError] using herr _ w₁ hs₁.quiet (Or.inr hnone)
          | ok tree₁ =>
            have hrec : recordChildren ignore tree ((bytes, node) :: rest) =
                recordChildren ignore tree₁ rest := by
              simp [recordChildren, hd, hi, hentry, hins]
            rw [hrec] at hok herr
            refine ⟨?_, fun e he => by cases he⟩
            rintro _ ⟨⟩
            refine scanEntries_spec rest path tree₁ (fun tree' w' hs htree => ?_)
              (fun e w' hq he => herr e w' (hs₁.quiet.trans hq) (hs₁.quiet.env ▸ he))
            refine hok tree' w' ⟨hs₁.quiet.trans hs.quiet, fun hint => ⟨fun _ _ _ => ?_, ?_⟩⟩ htree
            · exact Node.StoredIn.mono hs.quiet.le node (hs₁.stored hint)
            · exact hs.stored (hs₁.quiet.intact hint)
        · simp [recordChildren, hd, hi, h]

end

/-- **A scan** writes objects only, and returns the tree of the working copy; it fails when a step
does, or when the working copy cannot be recorded. -/
theorem scan_spec {ignore : List String} {workdir : String} {copy : WorkingCopy} {w : World H}
    {Q : H → World H → Prop} {E : Error → World H → Prop}
    (hok : ∀ (tree : Tree H) w', World.Grew w w' (fun s => CopyStoredIn s ignore copy) →
      recordTree ignore copy = some tree → Q ((encode H tree).hash H) w')
    (herr : ∀ e w', w.Quiet w' →
      w.env.Fault e ∨ recordTree ignore copy = (none : Option (Tree H)) → E e w') :
    Post (scan ignore workdir copy) w Q E := by
  rw [scan, post_bind]
  refine workdirStep_spec (fun w₁ hq₁ => ?_) (fun e w₁ hq₁ hf => herr e w₁ hq₁ (Or.inl hf))
  refine scanDir_spec
    (fun w₂ Q' E' hok' herr' => scanEntries_spec copy workdir .new hok' herr')
    (fun tree w₂ hs₂ htree => hok tree w₂ (hs₂.of_quiet hq₁) htree) (fun e w₂ hq₂ he => ?_)
  rw [hq₁.env] at he
  exact herr e w₂ (hq₁.trans hq₂) he

end Tig
