import Tig.Fs.StoredTree
import Tig.Store.Gc

set_option relaxedAutoImplicit false
set_option autoImplicit false

/-!
# Closed stores

No object is stored before what it refers to, and a collection of garbage keeps what the objects
refer to that it keeps. So nothing dangles, in every store that is built that way, and every tree in it
is stored well. Since an object is determined by its hash, two such stores agree on everything that the
objects lead to which both have.

## Main definitions

* `Tig.ObjectStore.Proper`, `Tig.ObjectStore.Closed` — what stored objects refer to is stored.
* `Tig.AgreeOn` — two stores agree on a set of objects that is closed under edges.

## Main results

* `Tig.ObjectStore.Closed.put_raw`, `Tig.ObjectStore.Closed.collect` — what keeps a store closed.
* `Tig.ObjectStore.Closed.not_cycle` — no object of a closed store leads back to itself.
* `Tig.ObjectStore.Closed.wellStored` — the trees of a closed store are stored well.
* `Tig.AgreeOn.of_closed` — two closed stores agree on what is reached from what they agree on.
-/

namespace Tig

open Program

variable {H : Type} [LinearOrder H] [Format H] {s s' : ObjectStore H}

/-! ## What objects hold -/

namespace ObjectStore

/-- An object of this type is stored here, and can be read. -/
def Holds (α : Type) [Encodable H α] (s : ObjectStore H) (h : H) : Prop := ∃ a : α, s.load h = .ok a

/-- What the entry of a tree points at is stored and is what the entry says. A symlink may dangle,
since no collection of garbage follows it; no tree has a conflict or a submodule. -/
def HoldsEntry (s : ObjectStore H) (e : TreeEntry H) : Prop :=
  match e.kind with
  | .tree => s.Holds (Tree H) e.target
  | .file => s.Holds Blob e.target
  | .sealed => s.Holds Sealed e.target
  | .symlink => True
  | .conflict | .submodule => False

/-- The entries of a tree are in order, their names can stand in a path, and what they point at is
stored. -/
structure HoldsEntries (s : ObjectStore H) (tree : Tree H) : Prop where
  sorted : tree.Sorted
  names : ∀ e ∈ tree.entries, TreeEntry.validateName e.name = .ok ()
  targets : ∀ e ∈ tree.entries, s.HoldsEntry e

/-- The object can be read, and what it refers to is stored and is what it is referred to as. -/
inductive Proper (s : ObjectStore H) (h : H) : Prop
  | blob (blob : Blob) (hload : s.load h = .ok blob) : Proper s h
  | sealed (payload : Sealed) (hload : s.load h = .ok payload) : Proper s h
  | tree (tree : Tree H) (hload : s.load h = .ok tree) (hentries : s.HoldsEntries tree) : Proper s h
  | snapshot (snap : Snapshot H) (hload : s.load h = .ok snap) (htree : s.Holds (Tree H) snap.tree)
      (hparents : ∀ p ∈ snap.parents, s.Holds (Snapshot H) p) : Proper s h

/-- An object is of one kind. -/
theorem kind_eq_of_load {α β : Type} [Encodable H α] [Encodable H β] {a : H} {x : α} {y : β}
    (hx : s.load a = .ok x) (hy : s.load a = .ok y) : Encodable.KIND H α = Encodable.KIND H β := by
  obtain ⟨raw, hget, hdec⟩ := load_eq_ok.mp hx
  obtain ⟨raw', hget', hdec'⟩ := load_eq_ok.mp hy
  obtain rfl := Except.ok.inj (hget.symm.trans hget')
  exact (kind_of_decode hdec).symm.trans (kind_of_decode hdec')

theorem Holds.mem {α : Type} [Encodable H α] {a : H} (h : s.Holds α a) : a ∈ s := by
  obtain ⟨_, hload⟩ := h
  exact mem_of_load hload

theorem Holds.mono {α : Type} [Encodable H α] (hle : s.Le s') {a : H} (h : s.Holds α a) :
    s'.Holds α a := by
  obtain ⟨x, hload⟩ := h
  exact ⟨x, hle.load hload⟩

theorem Holds.congr {α : Type} [Encodable H α] {a : H} (heq : s'.lookup a = s.lookup a)
    (h : s.Holds α a) : s'.Holds α a := by
  obtain ⟨x, hload⟩ := h
  exact ⟨x, (load_congr heq).trans hload⟩

/-- What is known of the target of an entry carries over to a store that has it. -/
theorem HoldsEntry.imp {e : TreeEntry H} (h : s.HoldsEntry e)
    (hcongr : ∀ (α : Type) [Encodable H α], e.kind.isFollowed = true → s.Holds α e.target →
      s'.Holds α e.target) : s'.HoldsEntry e := by
  rw [HoldsEntry] at h ⊢
  cases hk : e.kind with
  | tree => rw [hk] at h; exact hcongr _ (by rw [hk]; rfl) h
  | file => rw [hk] at h; exact hcongr _ (by rw [hk]; rfl) h
  | sealed => rw [hk] at h; exact hcongr _ (by rw [hk]; rfl) h
  | symlink => trivial
  | conflict => rw [hk] at h; exact h
  | submodule => rw [hk] at h; exact h

theorem HoldsEntry.mem {e : TreeEntry H} (h : s.HoldsEntry e) (hk : e.kind.isFollowed = true) :
    e.target ∈ s := by
  rw [HoldsEntry] at h
  cases hkind : e.kind with
  | tree => rw [hkind] at h; exact h.mem
  | file => rw [hkind] at h; exact h.mem
  | sealed => rw [hkind] at h; exact h.mem
  | symlink => rw [hkind] at hk; cases hk
  | conflict => rw [hkind] at h; exact h.elim
  | submodule => rw [hkind] at h; exact h.elim

theorem HoldsEntries.mono (hle : s.Le s') {tree : Tree H} (h : s.HoldsEntries tree) :
    s'.HoldsEntries tree :=
  ⟨h.sorted, h.names, fun e he => (h.targets e he).imp fun _ _ _ h => h.mono hle⟩

/-- A directory without entries. -/
theorem HoldsEntries.new : s.HoldsEntries (Tree.new : Tree H) :=
  ⟨List.Pairwise.nil, fun _ he => absurd he List.not_mem_nil, fun _ he => absurd he List.not_mem_nil⟩

/-- A tree is whole in a store that has what it leads to. -/
theorem Whole.congr {a : H} (h : Whole s a)
    (hto : ∀ b, GcReaches s a b → s'.lookup b = s.lookup b) : Whole s' a := by
  induction h with
  | mk a t hload hsorted _ ih =>
    refine .mk a t ((load_congr (hto a .refl)).trans hload) hsorted fun e he hk => ?_
    have hedge : (objectGraph s).Edge a e.target :=
      ⟨_, referents_of_tree hload, List.mem_map_of_mem (List.mem_filter.mpr ⟨he, by rw [hk]; rfl⟩)⟩
    exact ih e he hk fun b hb => hto b (hb.head hedge)

namespace Proper

variable {a : H}

/-- A proper object is so in a store that has it and what it refers to. -/
theorem congr (h : s.Proper a) (heq : s'.lookup a = s.lookup a)
    (hto : ∀ b, (objectGraph s).Edge a b → s'.lookup b = s.lookup b) : s'.Proper a := by
  cases h with
  | blob x hload => exact .blob x ((load_congr heq).trans hload)
  | sealed x hload => exact .sealed x ((load_congr heq).trans hload)
  | tree tree hload hentries =>
    refine .tree tree ((load_congr heq).trans hload) ⟨hentries.sorted, hentries.names, fun e he => ?_⟩
    refine (hentries.targets e he).imp fun α _ hk h =>
      h.congr (hto _ ⟨_, referents_of_tree hload, ?_⟩)
    exact List.mem_map_of_mem (List.mem_filter.mpr ⟨he, hk⟩)
  | snapshot snap hload htree hparents =>
    refine .snapshot snap ((load_congr heq).trans hload) (htree.congr ?_)
      fun p hp => (hparents p hp).congr ?_
    · exact hto _ ⟨_, referents_of_snapshot hload, List.mem_cons_self⟩
    · exact hto _ ⟨_, referents_of_snapshot hload, List.mem_cons_of_mem _ hp⟩

theorem mono (hle : s.Le s') (h : s.Proper a) : s'.Proper a := by
  cases h with
  | blob x hload => exact .blob x (hle.load hload)
  | sealed x hload => exact .sealed x (hle.load hload)
  | tree tree hload hentries => exact .tree tree (hle.load hload) (hentries.mono hle)
  | snapshot snap hload htree hparents =>
    exact .snapshot snap (hle.load hload) (htree.mono hle) fun p hp => (hparents p hp).mono hle

/-- What a proper object refers to is stored. -/
theorem referents (h : s.Proper a) : ∃ next, referents s a = .ok next ∧ ∀ b ∈ next, b ∈ s := by
  cases h with
  | blob x hload => exact ⟨_, referents_of_blob hload, fun _ hb => absurd hb List.not_mem_nil⟩
  | sealed x hload => exact ⟨_, referents_of_sealed hload, fun _ hb => absurd hb List.not_mem_nil⟩
  | tree tree hload hentries =>
    refine ⟨_, referents_of_tree hload, fun b hb => ?_⟩
    obtain ⟨e, he, rfl⟩ := List.mem_map.mp hb
    obtain ⟨he, hk⟩ := List.mem_filter.mp he
    exact (hentries.targets e he).mem hk
  | snapshot snap hload htree hparents =>
    exact ⟨_, referents_of_snapshot hload,
      List.forall_mem_cons.mpr ⟨htree.mem, fun p hp => (hparents p hp).mem⟩⟩

end Proper

end ObjectStore

/-- What lies at a path is an entry of a stored tree. -/
theorem mem_of_entryAt {a : H} {path : List String} {e : TreeEntry H}
    (he : entryAt s a path = some e) : ∃ (d : H) (t : Tree H), s.load d = .ok t ∧ e ∈ t.entries := by
  induction path generalizing a with
  | nil => cases he
  | cons name rest ih =>
    cases hload : (s.load a : Except Error (Tree H)) with
    | error err =>
      rw [entryAt, hload] at he
      cases he
    | ok t =>
      rw [entryAt_cons hload, Option.bind_eq_some_iff] at he
      obtain ⟨e', he', hrest⟩ := he
      split_ifs at hrest with hnil hk
      · obtain rfl := Option.some.inj hrest
        exact ⟨a, t, hload, mem_of_findEntry he'⟩
      · exact ih hrest

/-! ## What keeps a store closed -/

/-- The object files are what their names say, every object is proper, and neither directories nor
references go on without end. -/
structure ObjectStore.Closed (s : ObjectStore H) : Prop where
  intact : s.Intact
  proper : ∀ h ∈ s, s.Proper h
  whole : ∀ h, s.Holds (Tree H) h → Whole s h
  founded : ∀ h ∈ s, (objectGraph s).Founded h

namespace ObjectStore.Closed

theorem empty : ObjectStore.Closed (∅ : ObjectStore H) :=
  ⟨ObjectStore.intact_empty, fun _ hh => absurd hh Finmap.notMem_empty,
    fun _ hh => absurd hh.mem Finmap.notMem_empty, fun _ hh => absurd hh Finmap.notMem_empty⟩

/-- What a stored object refers to is stored. -/
theorem mem_of_edge (h : s.Closed) {a b : H} (hedge : (objectGraph s).Edge a b) : a ∈ s ∧ b ∈ s := by
  obtain ⟨next, hnext, hb⟩ := edge_iff.mp hedge
  by_cases ha : a ∈ s
  · obtain ⟨next', hnext', hsub⟩ := (h.proper a ha).referents
    obtain rfl := Except.ok.inj (hnext'.symm.trans hnext)
    exact ⟨ha, hsub b hb⟩
  · -- an object that is not there refers to nothing
    have hleaf := (objectGraph s).leaf a fun hk => ha (Finmap.mem_keys.mp hk)
    obtain rfl := Except.ok.inj (hleaf.symm.trans hnext)
    exact absurd hb List.not_mem_nil

/-- What a stored object leads to is stored. -/
theorem mem_of_reaches (h : s.Closed) {a b : H} (hreach : GcReaches s a b) (ha : a ∈ s) : b ∈ s := by
  induction hreach with
  | refl => exact ha
  | tail _ hedge _ => exact (h.mem_of_edge hedge).2

/-- **No object leads back to itself.** -/
theorem not_cycle (h : s.Closed) (a : H) : ¬ Relation.TransGen (objectGraph s).Edge a a := by
  intro hcycle
  obtain ⟨b, hedge, -⟩ := Relation.TransGen.head'_iff.mp hcycle
  exact (h.founded a (h.mem_of_edge hedge).1).not_cycle hcycle

/-- A stored snapshot has a tree, and its parents are snapshots. -/
theorem of_snapshot (h : s.Closed) {a : H} {snap : Snapshot H} (hload : s.load a = .ok snap) :
    s.Holds (Tree H) snap.tree ∧ ∀ p ∈ snap.parents, s.Holds (Snapshot H) p := by
  cases h.proper a (ObjectStore.mem_of_load hload) with
  | blob x hx => cases ObjectStore.kind_eq_of_load hx hload
  | sealed x hx => cases ObjectStore.kind_eq_of_load hx hload
  | tree x hx => cases ObjectStore.kind_eq_of_load hx hload
  | snapshot snap' hx htree hparents =>
    obtain rfl := Except.ok.inj (hx.symm.trans hload)
    exact ⟨htree, hparents⟩

/-- The entries of a stored tree. -/
theorem of_tree (h : s.Closed) {a : H} {tree : Tree H} (hload : s.load a = .ok tree) :
    s.HoldsEntries tree := by
  cases h.proper a (ObjectStore.mem_of_load hload) with
  | blob x hx => cases ObjectStore.kind_eq_of_load hx hload
  | sealed x hx => cases ObjectStore.kind_eq_of_load hx hload
  | snapshot x hx => cases ObjectStore.kind_eq_of_load hx hload
  | tree tree' hx hentries =>
    obtain rfl := Except.ok.inj (hx.symm.trans hload)
    exact hentries

/-- What was there is founded with an object more: nothing there refers to that. -/
theorem founded_put (h : s.Closed) (raw : RawObject) {a : H} (ha : a ∈ s) :
    (objectGraph (s.put raw)).Founded a := by
  refine (h.founded a ha).congr fun b hreach => referents_congr ?_
  have hb := h.mem_of_reaches hreach ha
  rw [ObjectStore.lookup_put, if_neg]
  rintro ⟨rfl, hnew⟩
  exact hnew hb

/-- Putting an object that is proper then and refers to what was there before, and not a directory that
is nested without end. -/
theorem put_raw (h : s.Closed) {raw : RawObject} (hproper : (s.put raw).Proper (raw.hash H))
    (hwhole : (s.put raw).Holds (Tree H) (raw.hash H) → Whole (s.put raw) (raw.hash H))
    {next : List H} (hnext : referents (s.put raw) (raw.hash H) = .ok next) (hthere : ∀ b ∈ next, b ∈ s) :
    (s.put raw).Closed := by
  have hle := ObjectStore.le_put s raw
  refine ⟨h.intact.put raw, fun a ha => ?_, fun a ha => ?_, fun a ha => ?_⟩
  · rcases ObjectStore.mem_put.mp ha with rfl | ha
    · exact hproper
    · exact (h.proper a ha).mono hle
  · by_cases hraw : a = raw.hash H
    · subst hraw
      exact hwhole ha
    · have hsame : s.lookup a = (s.put raw).lookup a := by
        rw [ObjectStore.lookup_put, if_neg fun hc => hraw hc.1]
      exact (h.whole a (ha.congr hsame)).mono hle
  · rcases ObjectStore.mem_put.mp ha with rfl | ha
    · refine ⟨_, fun b hedge => h.founded_put raw ?_⟩
      obtain ⟨next', hnext', hb⟩ := edge_iff.mp hedge
      obtain rfl := Except.ok.inj (hnext.symm.trans hnext')
      exact hthere b hb
    · exact h.founded_put raw ha

variable [LawfulFormat H]

theorem put_blob (h : s.Closed) (blob : Blob) : (s.put (encode H blob)).Closed := by
  have hload := ObjectStore.load_put LawfulFormat.blob h.intact blob
  refine h.put_raw (.blob blob hload) (fun htree => ?_) (referents_of_blob hload)
    fun _ hb => absurd hb List.not_mem_nil
  obtain ⟨t, ht⟩ := htree
  cases ObjectStore.kind_eq_of_load hload ht

theorem put_sealed (h : s.Closed) (payload : Sealed) : (s.put (encode H payload)).Closed := by
  have hload := ObjectStore.load_put LawfulFormat.sealed h.intact payload
  refine h.put_raw (.sealed payload hload) (fun htree => ?_) (referents_of_sealed hload)
    fun _ hb => absurd hb List.not_mem_nil
  obtain ⟨t, ht⟩ := htree
  cases ObjectStore.kind_eq_of_load hload ht

/-- A directory may be put when it is in order and what its entries point at is there. -/
theorem put_tree (h : s.Closed) {tree : Tree H} (hentries : s.HoldsEntries tree) :
    (s.put (encode H tree)).Closed := by
  have hle := ObjectStore.le_put s (encode H tree)
  have hload := ObjectStore.load_put LawfulFormat.tree h.intact tree
  refine h.put_raw (.tree tree hload (hentries.mono hle)) (fun _ => ?_) (referents_of_tree hload)
    fun b hb => ?_
  · refine .mk _ tree hload hentries.sorted fun e he hk => ?_
    have hentry := hentries.targets e he
    rw [ObjectStore.HoldsEntry, hk] at hentry
    exact (h.whole _ hentry).mono hle
  · obtain ⟨e, he, rfl⟩ := List.mem_map.mp hb
    obtain ⟨he, hk⟩ := List.mem_filter.mp he
    exact (hentries.targets e he).mem hk

/-- A snapshot may be put when its tree and its parents are there. -/
theorem put_snapshot (h : s.Closed) {snap : Snapshot H} (htree : s.Holds (Tree H) snap.tree)
    (hparents : ∀ p ∈ snap.parents, s.Holds (Snapshot H) p) : (s.put (encode H snap)).Closed := by
  have hle := ObjectStore.le_put s (encode H snap)
  have hload := ObjectStore.load_put LawfulFormat.snapshot h.intact snap
  refine h.put_raw (.snapshot snap hload (htree.mono hle) fun p hp => (hparents p hp).mono hle)
    (fun hholds => ?_) (referents_of_snapshot hload)
    (List.forall_mem_cons.mpr ⟨htree.mem, fun p hp => (hparents p hp).mem⟩)
  obtain ⟨t, ht⟩ := hholds
  cases ObjectStore.kind_eq_of_load hload ht

omit [LawfulFormat H] in
/-- **A collection of garbage** in which no step fails keeps a store closed. -/
theorem collect {w : World H} (h : w.repo.objects.Closed) (hrel : w.env.Reliable)
    (opts : GcOptions) : (final (collectGarbage opts) w).repo.objects.Closed := by
  obtain ⟨summary, w', hrun⟩ := collectGarbage_succeeds opts hrel fun a ha =>
    (h.proper a ha).referents.imp fun _ hnext => hnext.1
  obtain ⟨-, hleft⟩ := (collectGarbage_spec opts).ok hrun
  rw [final, hrun]
  have hmem : ∀ a ∈ w'.repo.objects, w'.repo.objects.lookup a = w.repo.objects.lookup a ∧
      (opts.dryRun = true ∨ Kept opts w.repo a) := by
    intro a ha
    rcases hleft a with hsame | ⟨hnone, -⟩
    · exact hsame
    · exact absurd ha (Finmap.lookup_eq_none.mp hnone)
  -- what an object leads to that is left is left
  have hreached : ∀ a ∈ w'.repo.objects, ∀ b, GcReaches w.repo.objects a b →
      w'.repo.objects.lookup b = w.repo.objects.lookup b := by
    intro a ha b hreach
    have hb : opts.dryRun = true ∨ Kept opts w.repo b :=
      (hmem a ha).2.imp_right fun hk => hk.imp fun r hr => ⟨hr.1, hr.2.trans hreach⟩
    rcases hleft b with ⟨hsame, -⟩ | ⟨-, hdry, hnot⟩
    · exact hsame
    · rcases hb with hdry' | hk
      · rw [hdry] at hdry'
        cases hdry'
      · exact absurd hk hnot
  have hthere : ∀ a ∈ w'.repo.objects, a ∈ w.repo.objects := by
    intro a ha
    rw [← Finmap.lookup_isSome, ← (hmem a ha).1, Finmap.lookup_isSome]
    exact ha
  refine ⟨fun a bytes hbytes => ?_, fun a ha => ?_, fun a ha => ?_, fun a ha => ?_⟩
  · have heq := (hmem a (Finmap.mem_of_lookup_eq_some hbytes)).1
    exact h.intact a bytes (heq ▸ hbytes)
  · exact (h.proper a (hthere a ha)).congr (hmem a ha).1 fun b hedge =>
      hreached a ha b (.single hedge)
  · exact ObjectStore.Whole.congr (h.whole a (ha.congr (hmem a ha.mem).1.symm)) (hreached a ha.mem)
  · exact (h.founded a (hthere a ha)).congr fun b hreach => referents_congr (hreached a ha b hreach)

end ObjectStore.Closed

/-! ## Stores that agree -/

/-- The stores agree on a set of objects, and what these refer to is in the set. -/
structure AgreeOn (R : H → Prop) (s s' : ObjectStore H) : Prop where
  same : ∀ h, R h → s.lookup h = s'.lookup h
  edge : ∀ a b, R a → (objectGraph s).Edge a b → R b

/-- What is there in two intact stores is the same. -/
theorem ObjectStore.Intact.lookup_eq [CollisionFree H] (h : s.Intact) (h' : s'.Intact) {a : H}
    (ha : a ∈ s) (ha' : a ∈ s') : s.lookup a = s'.lookup a := by
  obtain ⟨bytes, hbytes⟩ := Finmap.mem_iff.mp ha
  obtain ⟨bytes', hbytes'⟩ := Finmap.mem_iff.mp ha'
  obtain ⟨raw, rfl, hraw⟩ := h a bytes hbytes
  obtain ⟨raw', rfl, hraw'⟩ := h' a bytes' hbytes'
  rw [hbytes, hbytes', RawObject.hash_inj (hraw.trans hraw'.symm)]

namespace AgreeOn

variable {R : H → Prop}

/-- Stores that agree on everything that is reached from somewhere. -/
theorem of_reaches {V : H → Prop}
    (h : ∀ v, V v → ∀ x, GcReaches s v x → s.lookup x = s'.lookup x) :
    AgreeOn (fun x => ∃ v, V v ∧ GcReaches s v x) s s' where
  same x hx := by
    obtain ⟨v, hv, hreach⟩ := hx
    exact h v hv x hreach
  edge a b ha hedge := by
    obtain ⟨v, hv, hreach⟩ := ha
    exact ⟨v, hv, hreach.tail hedge⟩

/-- **Two closed stores** that agree on some objects agree on everything these lead to. -/
theorem of_closed [CollisionFree H] (h : s.Closed) (h' : s'.Closed) {V : H → Prop}
    (hV : ∀ v, V v → s.lookup v = s'.lookup v) :
    AgreeOn (fun x => ∃ v, V v ∧ GcReaches s v x) s s' := by
  refine of_reaches fun v hv x hreach => ?_
  induction hreach with
  | refl => exact hV v hv
  | @tail a b _ hedge ih =>
    have hedge' : (objectGraph s').Edge a b := by
      obtain ⟨next, hnext, hb⟩ := edge_iff.mp hedge
      exact ⟨next, (referents_congr ih.symm).trans hnext, hb⟩
    exact h.intact.lookup_eq h'.intact (h.mem_of_edge hedge).2 (h'.mem_of_edge hedge').2

theorem load (h : AgreeOn R s s') {α : Type} [Encodable H α] {x : H} (hx : R x) :
    (s.load x : Except Error α) = s'.load x :=
  ObjectStore.load_congr (h.same x hx)

/-- The tree and the parents of a snapshot. -/
theorem of_snapshot (h : AgreeOn R s s') {x : H} (hx : R x) {snap : Snapshot H}
    (hload : s.load x = .ok snap) : R snap.tree ∧ ∀ p ∈ snap.parents, R p :=
  ⟨h.edge x _ hx ⟨_, referents_of_snapshot hload, List.mem_cons_self⟩,
    fun p hp => h.edge x p hx ⟨_, referents_of_snapshot hload, List.mem_cons_of_mem _ hp⟩⟩

/-- What an entry of a tree points at, unless it is a symlink or a submodule. -/
theorem of_entry (h : AgreeOn R s s') {x : H} (hx : R x) {tree : Tree H}
    (hload : s.load x = .ok tree) {e : TreeEntry H} (he : e ∈ tree.entries)
    (hk : e.kind.isFollowed = true) : R e.target :=
  h.edge x _ hx ⟨_, referents_of_tree hload, List.mem_map_of_mem (List.mem_filter.mpr ⟨he, hk⟩)⟩

/-- Storing the same object in both. -/
theorem put [CollisionFree H] (h : AgreeOn R s s') (hi : s.Intact) (hi' : s'.Intact)
    (raw : RawObject)
    (hto : ∀ b, (objectGraph (s.put raw)).Edge (raw.hash H) b → R b) :
    AgreeOn (fun x => R x ∨ x = raw.hash H) (s.put raw) (s'.put raw) where
  same x hx := by
    by_cases hxr : x = raw.hash H
    · exact (hi.put raw).lookup_eq (hi'.put raw) (ObjectStore.mem_put.mpr (.inl hxr))
        (ObjectStore.mem_put.mpr (.inl hxr))
    · rw [ObjectStore.lookup_put, ObjectStore.lookup_put, if_neg fun hc => hxr hc.1,
        if_neg fun hc => hxr hc.1]
      exact h.same x (hx.resolve_right hxr)
  edge a b ha hedge := by
    by_cases har : a = raw.hash H
    · exact .inl (hto b (har ▸ hedge))
    · have hsame : (s.put raw).lookup a = s.lookup a := by
        rw [ObjectStore.lookup_put, if_neg fun hc => har hc.1]
      obtain ⟨next, hnext, hb⟩ := edge_iff.mp hedge
      exact .inl (h.edge a b (ha.resolve_right har) 
        ⟨next, (referents_congr hsame).symm.trans hnext, hb⟩)

end AgreeOn

end Tig
