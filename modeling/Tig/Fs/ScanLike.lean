import Tig.Fs.Canonical
import Tig.Fs.Rescan

set_option relaxedAutoImplicit false
set_option autoImplicit false

/-!
# Trees that scans and edits make

A scan makes trees of files, directories and symlinks, and edits at paths keep to these. Such a tree
is what a scan makes of the directory that is rendered from it, when no name in it is skipped.

## Main definitions

* `Tig.ScanLike` — the tree is stored, and could have been made by a scan that skips nothing.
* `Tig.Produced` — the tree comes from a scan, or from edits.
* `Tig.Unskipped` — no name in the tree is one that a scan skips.

## Main results

* `Tig.Produced.scanLike` — trees that come from scans and edits could have been made by a scan.
* `Tig.ScanLike.rescan` — what such a tree describes is scanned to that tree.
-/

namespace Tig

open Program

variable {H : Type} [LinearOrder H] [Format H]

/-! ## Trees as scans make them -/

/-- A scan makes the entry of a file or a symlink, and that is stored. -/
def LeafLike (s : ObjectStore H) (e : TreeEntry H) : Prop :=
  ∃ node : Node, (∀ children, node ≠ .dir children) ∧ node.StoredIn s [] ∧
    node.record [] e.name = some e

/-- The tree is stored under its hash with all that it holds, and holds what a scan can record. -/
inductive ScanLike (s : ObjectStore H) : H → Prop
  | mk (tree : H) (t : Tree H) (hload : s.load tree = .ok t) (hhash : tree = (encode H t).hash H)
      (hsorted : t.Sorted) (hnames : ∀ e ∈ t.entries, TreeEntry.validateName e.name = .ok ())
      (hleaves : ∀ e ∈ t.entries, e.kind ≠ .tree → LeafLike s e)
      (hmodes : ∀ e ∈ t.entries, e.kind = .tree → e.mode = .DIR ∧ e.vis = none)
      (hdirs : ∀ e ∈ t.entries, e.kind = .tree → ScanLike s e.target) : ScanLike s tree

section Leaf

variable {s s' : ObjectStore H} {e : TreeEntry H}

theorem LeafLike.mono (hle : s.Le s') (h : LeafLike s e) : LeafLike s' e := by
  obtain ⟨node, hnode, hstored, hrec⟩ := h
  exact ⟨node, hnode, Node.StoredIn.mono hle node hstored, hrec⟩

omit [LinearOrder H] in
/-- A scan records files and symlinks whatever it skips. -/
theorem record_leaf {node : Node} (h : ∀ children, node ≠ .dir children) (ignore : List String)
    (name : String) : (node.record ignore name : Option (TreeEntry H)) = node.record [] name := by
  cases node with
  | dir children => exact absurd rfl (h children)
  | file bytes executable => rfl
  | symlink target => rfl
  | other kind => rfl

/-- Files and symlinks are stored whatever is skipped. -/
theorem storedIn_leaf {node : Node} (h : ∀ children, node ≠ .dir children) {ignore : List String} :
    node.StoredIn s ignore ↔ node.StoredIn s [] := by
  cases node with
  | dir children => exact absurd rfl (h children)
  | file bytes executable => exact Iff.rfl
  | symlink target => exact Iff.rfl
  | other kind => exact Iff.rfl

/-- A stored blob makes a file. -/
theorem leafLike_file {bytes : Bytes}
    (h : s.load ((encode H (Blob.mk bytes)).hash H) = .ok (Blob.mk bytes)) (name : String) :
    LeafLike s ⟨name, .file, (encode H (Blob.mk bytes)).hash H, .REGULAR, none⟩ :=
  ⟨.file bytes false, fun _ h => (by cases h), h, rfl⟩

end Leaf

section Tree

variable {s s' : ObjectStore H} {root : H} {t : Tree H}

theorem ScanLike.mono (hle : s.Le s') (h : ScanLike s root) : ScanLike s' root := by
  induction h with
  | mk tree t hload hhash hsorted hnames hleaves hmodes _ ih =>
    exact .mk tree t (hle.load hload) hhash hsorted hnames
      (fun e he hk => (hleaves e he hk).mono hle) hmodes ih

theorem ScanLike.whole (h : ScanLike s root) : Whole s root := by
  induction h with
  | mk tree t hload _ hsorted _ _ _ _ ih => exact .mk tree t hload hsorted ih

/-- What the tree is, once it has been read. -/
structure ScanLike.Parts (s : ObjectStore H) (root : H) (t : Tree H) : Prop where
  hash : root = (encode H t).hash H
  sorted : t.Sorted
  names : ∀ e ∈ t.entries, TreeEntry.validateName e.name = .ok ()
  leaves : ∀ e ∈ t.entries, e.kind ≠ .tree → LeafLike s e
  modes : ∀ e ∈ t.entries, e.kind = .tree → e.mode = .DIR ∧ e.vis = none
  dirs : ∀ e ∈ t.entries, e.kind = .tree → ScanLike s e.target

theorem ScanLike.parts (h : ScanLike s root) (ht : s.load root = .ok t) :
    ScanLike.Parts s root t := by
  obtain ⟨_, t', hload, hhash, hsorted, hnames, hleaves, hmodes, hdirs⟩ := h
  obtain rfl : t' = t := Except.ok.inj (hload.symm.trans ht)
  exact ⟨hhash, hsorted, hnames, hleaves, hmodes, hdirs⟩

/-- A stored tree of entries that a scan can record. -/
theorem ScanLike.of_entries {t' : Tree H} (ht' : s.load ((encode H t').hash H) = .ok t')
    (hsorted : t'.Sorted)
    (h : ∀ e ∈ t'.entries, TreeEntry.validateName e.name = .ok () ∧
      (e.kind ≠ .tree ∧ LeafLike s e ∨
        e.kind = .tree ∧ e.mode = .DIR ∧ e.vis = none ∧ ScanLike s e.target)) :
    ScanLike s ((encode H t').hash H) := by
  have htree : ∀ e ∈ t'.entries, e.kind = .tree → e.mode = .DIR ∧ e.vis = none ∧ ScanLike s e.target :=
    fun e he hk => ((h e he).2.resolve_left fun hc => hc.1 hk).2
  refine .mk _ t' ht' rfl hsorted (fun e he => (h e he).1) (fun e he hk => ?_)
    (fun e he hk => ⟨(htree e he hk).1, (htree e he hk).2.1⟩) (fun e he hk => (htree e he hk).2.2)
  exact ((h e he).2.resolve_right fun hc => hk hc.1).2

theorem ScanLike.new (h : s.load ((encode H (Tree.new : Tree H)).hash H) = .ok (Tree.new : Tree H)) :
    ScanLike s ((encode H (Tree.new : Tree H)).hash H) :=
  .of_entries h List.Pairwise.nil fun _ he => absurd he List.not_mem_nil

end Tree

/-! ## Scans -/

section Scan

variable {s : ObjectStore H} {ignore : List String}

mutual

/-- A directory that was recorded is stored as a tree that a scan makes. -/
theorem Node.StoredIn.scanLike : (node : Node) → node.StoredIn s ignore →
    ∀ (name : String) (entry : TreeEntry H), node.record ignore name = some entry →
      entry.kind ≠ .tree ∧ LeafLike s entry ∨
        entry.kind = .tree ∧ entry.mode = .DIR ∧ entry.vis = none ∧ ScanLike s entry.target
  | .file bytes executable, hs, name, entry, hrec => by
    obtain rfl := Option.some.inj hrec
    exact Or.inl ⟨by simp, .file bytes executable, fun _ h => (by cases h), hs, rfl⟩
  | .symlink target, hs, name, entry, hrec => by
    obtain rfl := Option.some.inj hrec
    exact Or.inl ⟨by simp, .symlink target, fun _ h => (by cases h), hs, rfl⟩
  | .other _, _, _, _, hrec => by cases hrec
  | .dir children, hs, name, entry, hrec => by
    rw [Node.record, Option.map_eq_some_iff] at hrec
    obtain ⟨tree, htree, rfl⟩ := hrec
    refine Or.inr ⟨rfl, rfl, rfl, .of_entries (hs.2 tree htree)
      (recordChildren_sorted htree List.Pairwise.nil) fun e he => ?_⟩
    obtain ⟨node, hf, hentry⟩ := child_of_mem htree he
    exact ⟨recordChildren_valid htree hf,
      ChildrenStoredIn.scanLike children hs.1 e.name node hf e hentry⟩

theorem ChildrenStoredIn.scanLike : (children : List (Bytes × Node)) →
    ChildrenStoredIn s ignore children →
    ∀ (name : String) (node : Node), findChild ignore name children = some node →
      ∀ entry : TreeEntry H, node.record ignore name = some entry →
        entry.kind ≠ .tree ∧ LeafLike s entry ∨
          entry.kind = .tree ∧ entry.mode = .DIR ∧ entry.vis = none ∧ ScanLike s entry.target
  | [], _, _, _, hf => by cases hf
  | (bytes, node) :: rest, hs, name, node', hf => by
    rw [findChild] at hf
    rcases Option.or_eq_some_iff.mp hf with hf | ⟨-, hf⟩
    · exact ChildrenStoredIn.scanLike rest hs.2 name node' hf
    · split_ifs at hf with hc
      obtain rfl := Option.some.inj hf
      exact Node.StoredIn.scanLike node (hs.1 name hc.1 hc.2) name

end

/-- **The tree that a scan makes** could have been made by a scan that skips nothing. -/
theorem scanLike_recordTree {copy : WorkingCopy} {tree : Tree H}
    (htree : recordTree ignore copy = some tree) (hs : CopyStoredIn s ignore copy) :
    ScanLike s ((encode H tree).hash H) := by
  have hrec : (Node.dir copy).record ignore "" =
      some ⟨"", .tree, (encode H tree).hash H, .DIR, none⟩ := by
    rw [Node.record, show recordChildren ignore .new copy = some tree from htree]
    rfl
  rcases Node.StoredIn.scanLike (.dir copy) hs "" _ hrec with ⟨hk, -⟩ | ⟨-, -, -, h⟩
  · exact absurd rfl hk
  · exact h

end Scan

/-! ## Edits -/

section Edit

variable [LawfulFormat H] {w : World H}

/-- An entry that a scan can record, when it is a directory or a leaf that a scan makes. -/
def ScanEntry (s : ObjectStore H) (e : TreeEntry H) : Prop :=
  TreeEntry.validateName e.name = .ok () ∧ (e.kind ≠ .tree → LeafLike s e)

omit [LawfulFormat H] in
/-- A tree that a scan could have made is one in canonical form, with entries that a scan can
record. -/
theorem scanLike_iff {s : ObjectStore H} {root : H} :
    ScanLike s root ↔ Canonical ScanEntry s root := by
  constructor
  · intro h
    induction h with
    | mk tree t hload hhash hsorted hnames hleaves hmodes _ ih =>
      exact .mk tree t hload hhash hsorted (fun e he => ⟨hnames e he, hleaves e he⟩) hmodes ih
  · intro h
    induction h with
    | mk tree t hload hhash hsorted hentries hmodes _ ih =>
      exact .mk tree t hload hhash hsorted (fun e he => (hentries e he).1)
        (fun e he => (hentries e he).2) hmodes ih

omit [LawfulFormat H] in
theorem editsKeep_scanEntry : EditsKeep (ScanEntry (H := H)) where
  mono hle h := ⟨h.1, fun hk => (h.2 hk).mono hle⟩
  dir _ _ _ hv := ⟨hv, fun hk => absurd rfl hk⟩

/-- Inserting a file at a path. -/
theorem scanLike_rewriteInsert {target : H} {kind : EntryKind} {mode : FileMode}
    (hkind : kind ≠ .tree) {treeHash : H} {parts : List String} (hi : w.repo.objects.Intact)
    (h : ScanLike w.repo.objects treeHash)
    (hleaf : ∀ name, LeafLike w.repo.objects ⟨name, kind, target, mode, none⟩) :
    Post (rewriteInsert target kind mode treeHash parts) w
      (fun h' w' => w.Quiet w' ∧ ScanLike w'.repo.objects h') (fun _ _ => True) := by
  simp only [scanLike_iff] at h ⊢
  exact canonical_rewriteInsert editsKeep_scanEntry hkind hi h fun name hv =>
    ⟨hv, fun _ => hleaf name⟩

/-- Removing what is at a path. -/
theorem scanLike_rewriteRemove {treeHash : H} {parts : List String} (hi : w.repo.objects.Intact)
    (h : ScanLike w.repo.objects treeHash) :
    Post (rewriteRemove treeHash parts) w
      (fun h' w' => w.Quiet w' ∧ ScanLike w'.repo.objects h') (fun _ _ => True) := by
  simp only [scanLike_iff] at h ⊢
  exact canonical_rewriteRemove editsKeep_scanEntry hi h

end Edit

/-- The tree comes from a scan, or from files written and paths removed in such a tree; other objects
may have been stored since. -/
inductive Produced : World H → H → Prop
  | scan {w w' : World H} {ignore : List String} {workdir : String} {copy : WorkingCopy} {root : H}
      (hi : w.repo.objects.Intact) (h : Tig.scan ignore workdir copy w = .ok root w') :
      Produced w' root
  | empty {w w' : World H} {root : H} (hi : w.repo.objects.Intact)
      (h : storeObject (Tree.new : Tree H) w = .ok root w') : Produced w' root
  | write {w w' : World H} {root root' : H} {path : String} {bytes : Bytes} (hp : Produced w root)
      (h : writeBlobAtPath root path bytes w = .ok root' w') : Produced w' root'
  | delete {w w' : World H} {root root' : H} {path : String} (hp : Produced w root)
      (h : deleteAtPath root path w = .ok root' w') : Produced w' root'
  | later {w w' : World H} {root : H} (hp : Produced w root) (h : w.Quiet w') : Produced w' root

/-- **Trees that come from scans and edits** could have been made by a scan that skips nothing. -/
theorem Produced.scanLike [LawfulFormat H] {w : World H} {root : H} (h : Produced w root) :
    w.repo.objects.Intact ∧ ScanLike w.repo.objects root := by
  induction h with
  | scan hi hrun =>
    refine (scan_spec (Q := fun root w' => w'.repo.objects.Intact ∧ ScanLike w'.repo.objects root)
      (E := fun _ _ => True) (fun tree w' hg htree => ?_) (fun _ _ _ _ => trivial)).ok hrun
    exact ⟨hg.quiet.intact hi, scanLike_recordTree htree (hg.stored hi)⟩
  | empty hi hrun =>
    refine (storeObject_grew (Q := fun root w' => w'.repo.objects.Intact ∧
      ScanLike w'.repo.objects root) (E := fun _ _ => True) LawfulFormat.tree (fun w' hg => ?_)
      (fun _ _ _ _ => trivial)).ok hrun
    exact ⟨hg.quiet.intact hi, .new (hg.stored hi)⟩
  | @write w w' root root' path bytes _ hrun ih =>
    obtain ⟨hi, hlike⟩ := ih
    have hpost : Post (writeBlobAtPath root path bytes) w
        (fun root' w' => w'.repo.objects.Intact ∧ ScanLike w'.repo.objects root')
        (fun _ _ => True) := by
      rw [writeBlobAtPath, post_bind, post_fromExcept]
      refine ⟨fun parts _ => ?_, fun _ _ => trivial⟩
      rw [post_bind]
      refine storeObject_grew LawfulFormat.blob (fun w₁ hg₁ => ?_) (fun _ _ _ _ => trivial)
      have hi₁ := hg₁.quiet.intact hi
      refine (scanLike_rewriteInsert (by decide) hi₁ (hlike.mono hg₁.quiet.le) fun name =>
        leafLike_file (hg₁.stored hi) name).mono ?_ (fun _ _ _ => trivial)
      rintro root' w₂ ⟨hq₂, hlike₂⟩
      exact ⟨hq₂.intact hi₁, hlike₂⟩
    exact hpost.ok hrun
  | @delete w w' root root' path _ hrun ih =>
    obtain ⟨hi, hlike⟩ := ih
    have hpost : Post (deleteAtPath root path) w
        (fun root' w' => w'.repo.objects.Intact ∧ ScanLike w'.repo.objects root')
        (fun _ _ => True) := by
      rw [deleteAtPath, post_bind, post_fromExcept]
      refine ⟨fun parts _ => ?_, fun _ _ => trivial⟩
      refine (scanLike_rewriteRemove hi hlike).mono ?_ (fun _ _ _ => trivial)
      rintro root' w₁ ⟨hq₁, hlike₁⟩
      exact ⟨hq₁.intact hi, hlike₁⟩
    exact hpost.ok hrun
  | later _ hq ih => exact ⟨hq.intact ih.1, ih.2.mono hq.le⟩

/-! ## Scanning what was rendered -/

/-- No name in the tree is skipped. -/
def Unskipped (s : ObjectStore H) (ignore : List String) (root : H) : Prop :=
  ∀ parts e, entryAt s root parts = some e → ∀ n ∈ parts, n ∉ ignore

section Rescan

variable {s : ObjectStore H} {opts : MaterializeOptions} {ignore : List String} {root : H}
  {t : Tree H} {e : TreeEntry H}

/-- An entry of a sorted tree is found under its name. -/
theorem entryAt_of_mem (ht : s.load root = .ok t) (hs : t.Sorted) (he : e ∈ t.entries) :
    entryAt s root [e.name] = some e := by
  rw [entryAt_cons ht, Tree.get, (findEntry_eq_some hs).mpr ⟨he, rfl⟩]
  rfl

theorem Unskipped.name (h : Unskipped s ignore root) (ht : s.load root = .ok t) (hs : t.Sorted)
    (he : e ∈ t.entries) : e.name ∉ ignore :=
  h [e.name] e (entryAt_of_mem ht hs he) e.name (List.mem_singleton_self _)

theorem Unskipped.subdir (h : Unskipped s ignore root) (ht : s.load root = .ok t) (hs : t.Sorted)
    (he : e ∈ t.entries) (hk : e.kind = .tree) : Unskipped s ignore e.target := by
  intro parts e' he' n hn
  refine h (e.name :: parts) e' ?_ n (List.mem_cons_of_mem _ hn)
  have hparts : parts ≠ [] := List.ne_nil_of_mem hn
  rw [entryAt_cons ht, Tree.get, (findEntry_eq_some hs).mpr ⟨he, rfl⟩, Option.bind_some,
    if_neg hparts, if_pos hk]
  exact he'

/-- A node that an entry describes is recorded as the entry; `below` says what a subtree
describes. -/
theorem record_of_drawn {below : H → String → WorkingCopy → Prop} {treePath : String}
    {child : Option Node} (h : ScanLike.Parts s root t) (he : e ∈ t.entries)
    (hbelow : e.kind = .tree → ∀ children, below e.target treePath children →
      ∃ sub : Tree H, e.target = (encode H sub).hash H ∧ recordTree ignore children = some sub)
    (hdrawn : EntryDrawn s opts below treePath e child) :
    ∃ node, child = some node ∧ node.record ignore e.name = some e := by
  by_cases hk : e.kind = .tree
  · unfold EntryDrawn at hdrawn
    rw [hk] at hdrawn
    obtain ⟨children, hchildren, rfl⟩ := hdrawn
    obtain ⟨sub, htarget, hsub⟩ := hbelow hk children hchildren
    obtain ⟨hmode, hvis⟩ := h.modes e he hk
    refine ⟨_, rfl, ?_⟩
    rw [Node.record, show recordChildren ignore .new children = some sub from hsub, Option.map_some]
    obtain ⟨name, kind, target, mode, vis⟩ := e
    simp only at hk hmode hvis htarget
    rw [hk, hmode, hvis, htarget]
  · obtain ⟨node, hnode, hstored, hrec⟩ := h.leaves e he hk
    rw [← record_leaf hnode ignore] at hrec
    obtain ⟨node', hchild, hredrawn⟩ := redrawn_of_entryDrawn hrec ((storedIn_leaf hnode).mpr hstored)
      hdrawn fun children _ _ hdir => absurd hdir (hnode children)
    exact ⟨node', hchild, hredrawn.record.trans hrec⟩

/-- **What such a tree describes** is scanned to that tree, if no name in it is skipped. -/
theorem ScanLike.rescan {depth : Nat} {pathPrefix : String} {dir : WorkingCopy}
    (h : ScanLike s root) (hskip : Unskipped s ignore root) (ht : s.load root = .ok t)
    (hdir : Depicts s opts depth root pathPrefix dir) : recordTree ignore dir = some t := by
  induction depth generalizing root t pathPrefix dir with
  | zero => exact hdir.elim
  | succ depth ih =>
    obtain ⟨t', ht', hdistinct, hdrawn, honly⟩ := hdir
    obtain rfl : t = t' := Except.ok.inj (ht.symm.trans ht')
    have hparts := h.parts ht
    have hentry : ∀ e ∈ t.entries, ∃ node, childOf (Utf8.encode e.name) dir = some node ∧
        node.record ignore e.name = some e := by
      intro e he
      refine record_of_drawn hparts he (fun hk children hchildren => ?_) (hdrawn e he)
      have hsub := hparts.dirs e he hk
      obtain ⟨_, sub, hload, hhash, -⟩ := hsub
      exact ⟨sub, hhash, ih (hparts.dirs e he hk) (hskip.subdir ht hparts.sorted he hk) hload hchildren⟩
    refine recordTree_eq (fun child hchild => ?_) hparts.sorted fun name => ?_
    · obtain ⟨bytes, node⟩ := child
      have hchild' := hdistinct.mem_iff.mp hchild
      obtain ⟨e, he, rfl⟩ := honly bytes (by rw [hchild']; exact Option.some_ne_none node)
      obtain ⟨node', hnode', hrec⟩ := hentry e he
      obtain rfl := Option.some.inj (hchild'.symm.trans hnode')
      exact ⟨e.name, Utf8.decode_encode _, Or.inr ⟨hparts.names e he, e, hrec⟩⟩
    · rw [findChild_eq hdistinct]
      cases hg : t.get name with
      | some e =>
        obtain ⟨he, rfl⟩ := (findEntry_eq_some hparts.sorted).mp hg
        obtain ⟨node, hnode, hrec⟩ := hentry e he
        rw [if_neg (hskip.name ht hparts.sorted he), hnode, Option.bind_some, hrec]
      | none =>
        split_ifs
        · rfl
        · cases hc : childOf (Utf8.encode name) dir with
          | none => rfl
          | some node =>
            obtain ⟨e, he, hne⟩ := honly _ (by rw [hc]; exact Option.some_ne_none node)
            obtain rfl := Utf8.encode_injective hne
            rw [Tree.get, (findEntry_eq_some hparts.sorted).mpr ⟨he, rfl⟩] at hg
            cases hg

end Rescan

end Tig
