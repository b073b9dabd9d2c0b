import Tig.Core.Plain
import Tig.Fs.Materialize
import Tig.Store.Gc

set_option relaxedAutoImplicit false
set_option autoImplicit false

/-!
# Garbage collection and live data

What reading a snapshot needs is compared with what a collection keeps. Marking follows every
edge that readers follow but one: a scan stores the target of a symlink as a blob, rendering
loads that blob, and marking takes symlinks for leaves. So a collection keeps live data exactly
when every stored symlink target is also kept for another reason.

## Main definitions

* `Tig.KeepsLiveData` — every needed object is still there, and live snapshots render as before.
* `Tig.SymlinksShared` — every stored symlink target is reached along the edges marking follows.

## Main results

* `Tig.collectGarbage_keepsLiveData_iff` — the first holds of a collection iff the second does.
* `Tig.collectGarbage_loses_symlink` — a collection that loses the target of a live symlink.
-/

namespace Tig

open Program

variable {H : Type} [LinearOrder H] [Format H]

/-- From the repository `repo` to the objects `s'`, no live data was lost: every object that
reading a live snapshot needs and that was stored is stored unchanged, and every live snapshot
renders as before. -/
def KeepsLiveData (repo : Repo H) (s' : ObjectStore H) : Prop :=
  (∀ r, IsRoot .default repo r → ∀ h, Needs repo.objects r h →
    ∀ bytes, repo.objects.lookup h = some bytes → s'.lookup h = some bytes) ∧
  ∀ r, IsRoot .default repo r → ∀ opts dst depth dstExists,
    materializeChangeInto s' opts dst depth dstExists r =
      materializeChangeInto repo.objects opts dst depth dstExists r

/-- Every stored target of a symlink in the tree of a live snapshot or of its ancestors is
reached from a root along the edges that marking follows. -/
def SymlinksShared (repo : Repo H) : Prop :=
  ∀ r, IsRoot .default repo r → ∀ t, TreeOf repo.objects r t →
    ∀ tree : Tree H, repo.objects.load t = .ok tree → ∀ e ∈ tree.entries, e.kind = .symlink →
      e.target ∈ repo.objects → Kept .default repo e.target

/-! ## The edges readers follow -/

section Edges

variable {s : ObjectStore H} {a b : H}

theorem edge_of_snapshot {snap : Snapshot H} (ha : s.load a = .ok snap)
    (hb : b ∈ snap.tree :: snap.parents) : (objectGraph s).Edge a b :=
  ⟨_, referents_of_snapshot ha, hb⟩

theorem edge_of_tree {tree : Tree H} (ha : s.load a = .ok tree) {e : TreeEntry H}
    (he : e ∈ tree.entries) (hk : e.kind.isFollowed = true) :
    (objectGraph s).Edge a e.target :=
  ⟨_, referents_of_tree ha, List.mem_map_of_mem (List.mem_filter.mpr ⟨he, hk⟩)⟩

theorem GcReaches.of_ancestor (h : Ancestor s a b) : GcReaches s a b := by
  refine Relation.ReflTransGen.mono (fun x y hxy => ?_) a b h
  obtain ⟨snap, hsnap, hy⟩ := hxy
  exact edge_of_snapshot hsnap (List.mem_cons_of_mem _ hy)

theorem GcReaches.of_subtree (h : Subtree s a b) : GcReaches s a b := by
  refine Relation.ReflTransGen.mono (fun x y hxy => ?_) a b h
  obtain ⟨tree, htree, e, he, hk, rfl⟩ := hxy
  exact edge_of_tree htree he (by simp [hk, EntryKind.isFollowed])

theorem GcReaches.of_treeOf (h : TreeOf s a b) : GcReaches s a b := by
  obtain ⟨c, hac, snap, hsnap, hb⟩ := h
  have hedge := edge_of_snapshot hsnap List.mem_cons_self
  exact ((GcReaches.of_ancestor hac).tail hedge).trans (GcReaches.of_subtree hb)

end Edges

/-- What a live snapshot needs is kept, unless it is the target of a symlink. -/
theorem kept_of_needs {repo : Repo H} {r h : H} (hr : IsRoot .default repo r)
    (hn : Needs repo.objects r h) :
    Kept .default repo h ∨ ∃ t, TreeOf repo.objects r t ∧ ∃ tree : Tree H,
      repo.objects.load t = .ok tree ∧ ∃ e ∈ tree.entries, e.kind = .symlink ∧ e.target = h := by
  rcases hn with hn | ⟨t, ht, rfl | ⟨tree, htree, e, he, hk, rfl⟩⟩
  · exact Or.inl ⟨r, hr, .of_ancestor hn⟩
  · exact Or.inl ⟨r, hr, .of_treeOf ht⟩
  · cases hkind : e.kind with
    | symlink => exact Or.inr ⟨t, ht, tree, htree, e, he, hkind, rfl⟩
    | file | sealed =>
      have hedge := edge_of_tree htree he (by simp [hkind, EntryKind.isFollowed])
      exact Or.inl ⟨r, hr, (GcReaches.of_treeOf ht).tail hedge⟩
    | tree | conflict | submodule => simp [hkind, EntryKind.isLoaded] at hk

section Collection

variable {w w' : World H} {summary : GcSummary}

/-- What a successful collection under the default options leaves of each object. -/
theorem lookup_collectGarbage (hrun : collectGarbage .default w = .ok summary w') (h : H) :
    w'.repo.objects.lookup h = w.repo.objects.lookup h ∧ Kept .default w.repo h ∨
      w'.repo.objects.lookup h = none ∧ ¬ Kept .default w.repo h := by
  have := ((collectGarbage_spec .default).ok hrun).2 h
  simpa [GcOptions.default] using this

/-- A collection that keeps live data keeps the symlink targets, so something reaches them. -/
theorem symlinksShared_of_keepsLiveData (hrun : collectGarbage .default w = .ok summary w')
    (hkeep : KeepsLiveData w.repo w'.repo.objects) : SymlinksShared w.repo := by
  intro r hr t ht tree htree e he hk hmem
  obtain ⟨bytes, hb⟩ := Finmap.mem_iff.mp hmem
  have hneeds : Needs w.repo.objects r e.target :=
    Or.inr ⟨t, ht, Or.inr ⟨tree, htree, e, he, by simp [hk, EntryKind.isLoaded], rfl⟩⟩
  have hafter := hkeep.1 r hr _ hneeds bytes hb
  rcases lookup_collectGarbage hrun e.target with ⟨-, hkept⟩ | ⟨hnone, -⟩
  · exact hkept
  · rw [hnone] at hafter
    cases hafter

/-- **A collection keeps live data iff every stored symlink target is shared**: reached from a
root along the edges that marking follows.

**Proof sketch.** What a live snapshot needs is kept, or is the target of a symlink
(`kept_of_needs`); the condition says that stored targets are kept too. Rendering depends on
needed objects only (`materializeChangeInto_congr`), and a missing object stays missing. -/
theorem collectGarbage_keepsLiveData_iff (hrun : collectGarbage .default w = .ok summary w') :
    KeepsLiveData w.repo w'.repo.objects ↔ SymlinksShared w.repo := by
  refine ⟨symlinksShared_of_keepsLiveData hrun, fun hshared => ?_⟩
  have hsame : ∀ r, IsRoot .default w.repo r → ∀ h, Needs w.repo.objects r h →
      w'.repo.objects.lookup h = w.repo.objects.lookup h := by
    intro r hr h hneeds
    rcases lookup_collectGarbage hrun h with ⟨heq, -⟩ | ⟨hnone, hnot⟩
    · exact heq
    · by_cases hmem : h ∈ w.repo.objects
      · rcases kept_of_needs hr hneeds with hkept | ⟨t, ht, tree, htree, e, he, hk, rfl⟩
        · exact absurd hkept hnot
        · exact absurd (hshared r hr t ht tree htree e he hk hmem) hnot
      · rw [hnone, Finmap.lookup_eq_none.mpr hmem]
  refine ⟨fun r hr h hneeds bytes hb => (hsame r hr h hneeds).trans hb, ?_⟩
  intro r hr opts dst depth dstExists
  exact (materializeChangeInto_congr opts dst depth dstExists
    fun h hneeds => (hsame r hr h hneeds).symm).symm

end Collection

/-! ## A repository with one symlink -/

namespace OneLink

/-- The blob that a scan stores for a symlink to `t`. -/
def blob : Blob := ⟨Utf8.encode "t"⟩

/-- The hash of the blob. -/
def blobHash : PlainHash := (encode PlainHash blob).hash PlainHash

/-- The directory that holds the symlink. -/
def tree : Tree PlainHash := ⟨[⟨"link", .symlink, blobHash, .SYMLINK, none⟩]⟩

/-- The hash of the directory. -/
def treeHash : PlainHash := (encode PlainHash tree).hash PlainHash

/-- The snapshot of the directory. -/
def snapshot : Snapshot PlainHash := ⟨[], treeHash, "local:alice", 0, none, none⟩

/-- The hash of the snapshot. -/
def snapshotHash : PlainHash := (encode PlainHash snapshot).hash PlainHash

/-- The store after a scan of the directory and a snapshot of it. -/
def objects : ObjectStore PlainHash :=
  ((ObjectStore.put ∅ (encode PlainHash blob)).put (encode PlainHash tree)).put
    (encode PlainHash snapshot)

/-- The change that points at the snapshot. -/
def change : Change PlainHash := .new "C" "initial work" "local:alice" snapshotHash

/-- A repository with one change, whose directory holds one symlink. -/
def world : World PlainHash where
  repo := ⟨objects, Refs.empty.write (.ofChange change), []⟩
  log := ⟨0⟩
  env := ⟨fun _ _ => none, fun _ => 0, fun _ => ""⟩
  ticks _ := 0
  clock := 0
  ids := 0

theorem load_blob : objects.load blobHash = .ok blob :=
  ((ObjectStore.le_put _ _).trans (ObjectStore.le_put _ _)).load
    (ObjectStore.load_put LawfulFormat.blob ObjectStore.intact_empty blob)

theorem load_tree : objects.load treeHash = .ok tree :=
  (ObjectStore.le_put _ _).load
    (ObjectStore.load_put LawfulFormat.tree (ObjectStore.intact_empty.put _) tree)

theorem load_snapshot : objects.load snapshotHash = .ok snapshot :=
  ObjectStore.load_put LawfulFormat.snapshot ((ObjectStore.intact_empty.put _).put _) snapshot

theorem referents_blobHash : referents objects blobHash = .ok [] := referents_of_blob load_blob

theorem referents_treeHash : referents objects treeHash = .ok [] := referents_of_tree load_tree

theorem referents_snapshotHash : referents objects snapshotHash = .ok [treeHash] :=
  referents_of_snapshot load_snapshot

/-- The collection goes through: all three objects can be read. -/
theorem collect : ∃ summary w', collectGarbage .default world = .ok summary w' := by
  refine collectGarbage_succeeds .default (fun _ _ => rfl) fun h hh => ?_
  change h ∈ ObjectStore.put _ _ at hh
  rw [ObjectStore.mem_put, ObjectStore.mem_put, ObjectStore.mem_put] at hh
  rcases hh with rfl | rfl | rfl | hh
  · exact ⟨_, referents_snapshotHash⟩
  · exact ⟨_, referents_treeHash⟩
  · exact ⟨_, referents_blobHash⟩
  · exact absurd hh Finmap.notMem_empty

theorem objects_eq : world.repo.objects = objects := rfl

theorem changes_eq : world.repo.refs.changes =
    FiniteMap.set (∅ : Finmap fun id => ChangeAt PlainHash id) change.id (some ⟨change, rfl⟩) := rfl

theorem isRoot_iff {r : PlainHash} : IsRoot .default world.repo r ↔ r = snapshotHash := by
  constructor
  · rintro (⟨id, c, hc, hr⟩ | ⟨-, op, hop, -⟩)
    · rw [changes_eq] at hc
      have hid : id = change.id := by
        by_contra hne
        rw [FiniteMap.lookup_set_of_ne _ _ hne, Finmap.lookup_empty] at hc
        cases hc
      subst hid
      rw [FiniteMap.lookup_set] at hc
      obtain rfl := Option.some.inj hc
      simpa [Change.snapshots, change, Change.new] using hr
    · simp [world] at hop
  · rintro rfl
    refine Or.inl ⟨change.id, ⟨change, rfl⟩, ?_, by simp [Change.snapshots, change, Change.new]⟩
    rw [changes_eq, FiniteMap.lookup_set]

/-- Only the snapshot and the directory are kept. -/
theorem kept_cases {h : PlainHash} (hk : Kept .default world.repo h) :
    h = snapshotHash ∨ h = treeHash := by
  obtain ⟨r, hr, hreach⟩ := hk
  rw [isRoot_iff] at hr
  subst hr
  induction hreach with
  | refl => exact Or.inl rfl
  | tail _ hedge ih =>
    obtain ⟨next, hnext, hmem⟩ := edge_iff.mp hedge
    rw [objects_eq] at hnext
    rcases ih with rfl | rfl
    · rw [referents_snapshotHash, Except.ok.injEq] at hnext
      subst hnext
      exact Or.inr (by simpa using hmem)
    · rw [referents_treeHash, Except.ok.injEq] at hnext
      subst hnext
      simp at hmem

/-- The symlink's blob is reached by nothing. -/
theorem not_symlinksShared : ¬ SymlinksShared world.repo := by
  intro h
  have hkept := h snapshotHash (isRoot_iff.mpr rfl) treeHash
    ⟨snapshotHash, .refl, snapshot, load_snapshot, .refl⟩ tree load_tree
    ⟨"link", .symlink, blobHash, .SYMLINK, none⟩ (by simp [tree]) rfl
    (ObjectStore.mem_of_load load_blob)
  -- an object's hash starts with the tag of its kind
  have hblob : blobHash.head? = some 1 := plainHash_head (encode PlainHash blob)
  have htree : treeHash.head? = some 2 := plainHash_head (encode PlainHash tree)
  have hsnap : snapshotHash.head? = some 3 := plainHash_head (encode PlainHash snapshot)
  rcases kept_cases hkept with hh | hh
  · rw [show blobHash = snapshotHash from hh, hsnap] at hblob
    simp at hblob
  · rw [show blobHash = treeHash from hh, htree] at hblob
    simp at hblob

end OneLink

/-- The collection of this repository succeeds and loses the target of the live symlink. -/
theorem collectGarbage_loses_symlink :
    ∃ summary w', collectGarbage .default OneLink.world = .ok summary w' ∧
      ¬ KeepsLiveData OneLink.world.repo w'.repo.objects := by
  obtain ⟨summary, w', hrun⟩ := OneLink.collect
  exact ⟨summary, w', hrun, fun hkeep =>
    OneLink.not_symlinksShared (symlinksShared_of_keepsLiveData hrun hkeep)⟩

/-- The two sides agree for this repository. -/
theorem collectGarbage_oneLink : ∃ summary w',
    collectGarbage .default OneLink.world = .ok summary w' ∧
      (KeepsLiveData OneLink.world.repo w'.repo.objects ↔ SymlinksShared OneLink.world.repo) := by
  obtain ⟨summary, w', hrun⟩ := OneLink.collect
  exact ⟨summary, w', hrun, collectGarbage_keepsLiveData_iff hrun⟩

end Tig
