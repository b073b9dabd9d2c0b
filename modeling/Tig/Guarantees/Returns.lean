import Tig.Fs.ScanLike
import Tig.Fs.Seen
import Tig.Guarantees.RoundTrip
import Tig.Guarantees.Watches

set_option relaxedAutoImplicit false
set_option autoImplicit false

/-!
# What was recorded can be brought back

A snapshot of a working copy is taken, and whatever is done afterwards, by whomever: as long as the
snapshot is stored, `tig restore` makes the main working copy look as it did then, and records that.

A collection of garbage may drop what symlinks point at, as it does not follow them; where it has, they
cannot be restored. And a file with the name of the marker of a workspace is spared by a restore, so
that in the main workspace there must not be one.

## Main definitions

* `Tig.LinksStored` — no collection has dropped what the symlinks of a working copy point at.
* `Tig.BroughtBack` — a directory looks as another one did, but for what a restore spares.
* `Tig.RestoreRecorded` — what a restore records.
* `Tig.Restorable` — a snapshot of a working copy that can be restored.

## Main results

* `Tig.copyStoredIn_of_closed` — where a recorded tree is stored, all that was recorded is.
* `Tig.restore_brings_back` — **a restore brings back** what a snapshot has recorded.
-/

namespace Tig

open Program

variable {H : Type} [LinearOrder H] [Format H] {s : ObjectStore H} {ignore : List String}

/-! ## All that was recorded is stored -/

/-- An object that is there is the one that its hash says. -/
theorem ObjectStore.Intact.load_of_mem [LawfulFormat H] {α : Type} [Encodable H α]
    (hs : s.Intact) (hc : (Encodable.codec H (α := α)).Lawful) {a : α}
    (hmem : (encode H a).hash H ∈ s) : s.load ((encode H a).hash H) = .ok a := by
  have hput : s.put (encode H a) = s := if_pos hmem
  have hload := ObjectStore.load_put hc hs a
  rwa [hput] at hload

/-- What the symlinks of a working copy point at is stored. -/
def LinksStored (s : ObjectStore H) (ignore : List String) (copy : WorkingCopy) : Prop :=
  ∀ path target, nodeAt ignore copy path = some (.symlink target) →
    (encode H (linkBlob target)).hash H ∈ s

/-- Where all that was recorded is stored, so is what the symlinks point at. -/
theorem linksStored_of_copyStoredIn {copy : WorkingCopy} {tree : Tree H}
    (htree : recordTree ignore copy = some tree) (hs : CopyStoredIn s ignore copy) :
    LinksStored s ignore copy := by
  intro path target hpath
  exact ObjectStore.mem_of_load (nodeAt_stored htree hs.1 hpath).2

/-- What is asked of a node of a working copy: names are distinct below it, and what the symlinks point
at is stored. -/
structure Node.Backed (s : ObjectStore H) (ignore : List String) (node : Node) : Prop where
  link : ∀ target, node = .symlink target → (encode H (linkBlob target)).hash H ∈ s
  distinct : ∀ children, node = .dir children → DistinctBelow children
  below : ∀ children, node = .dir children → LinksStored s ignore children

omit [LinearOrder H] in
theorem Node.Backed.of_child {children : WorkingCopy} (hdistinct : DistinctBelow children)
    (hlinks : LinksStored s ignore children) {name : String} {node : Node}
    (hchild : findChild ignore name children = some node) : node.Backed s ignore := by
  have hname := not_ignored_of_findChild hchild
  have hc : childOf (Utf8.encode name) children = some node := by
    rwa [findChild_eq hdistinct.here, if_neg hname] at hchild
  refine ⟨?_, ?_, ?_⟩
  · rintro target rfl
    exact hlinks [name] target hchild
  · rintro below rfl
    exact hdistinct.child hc
  · rintro below rfl path target hpath
    cases path with
    | nil => cases hpath
    | cons next rest =>
      refine hlinks (name :: next :: rest) target ?_
      rw [nodeAt, hchild]
      exact hpath

mutual

/-- A node is stored where what its entry points at is. -/
theorem Node.Backed.storedIn [LawfulFormat H] (hs : s.Closed) : (node : Node) → node.Backed s ignore →
    ∀ (name : String) (entry : TreeEntry H), node.record ignore name = some entry →
      s.HoldsEntry entry → node.StoredIn s ignore
  | .file bytes executable, _, name, entry, hrec, hentry => by
    obtain rfl := Option.some.inj hrec
    exact hs.intact.load_of_mem LawfulFormat.blob (ObjectStore.Holds.mem hentry)
  | .symlink target, hb, _, _, _, _ =>
    hs.intact.load_of_mem LawfulFormat.blob (hb.link target rfl)
  | .other _, _, _, _, _, _ => trivial
  | .dir children, hb, name, entry, hrec, hentry => by
    rw [Node.record, Option.map_eq_some_iff] at hrec
    obtain ⟨tree, htree, rfl⟩ := hrec
    have hload := hs.intact.load_of_mem LawfulFormat.tree (ObjectStore.Holds.mem hentry)
    refine ⟨ChildrenStoredIn.of_closed hs children fun bytes node hmem name hd hi => ?_,
      fun tree' htree' => ?_⟩
    · have hdistinct := hb.distinct children rfl
      have hchild : findChild ignore name children = some node := by
        rw [findChild_eq hdistinct.here, if_neg hi, ← hdistinct.here.mem_iff,
          ← Utf8.encode_of_decode hd]
        exact hmem
      obtain ⟨name', hd', hcase⟩ := recordable_of_recordChildren htree _ hmem
      obtain rfl := Option.some.inj (hd.symm.trans hd')
      obtain ⟨-, entry, hentry⟩ := hcase.resolve_left hi
      refine ⟨.of_child hdistinct (hb.below children rfl) hchild, entry, hentry, ?_⟩
      have hget := get_recordChildren htree name
      rw [hchild] at hget
      exact (hs.of_tree hload).targets entry (mem_of_findEntry (hget.trans hentry))
    · obtain rfl := Option.some.inj (htree.symm.trans htree')
      exact hload

theorem ChildrenStoredIn.of_closed [LawfulFormat H] (hs : s.Closed) :
    (children : List (Bytes × Node)) →
    (∀ bytes node, (bytes, node) ∈ children → ∀ name, Utf8.decode bytes = some name →
      name ∉ ignore → node.Backed s ignore ∧ ∃ entry : TreeEntry H,
        node.record ignore name = some entry ∧ s.HoldsEntry entry) →
    ChildrenStoredIn s ignore children
  | [], _ => trivial
  | (bytes, node) :: rest, h => by
    refine ⟨fun name hd hi => ?_, ChildrenStoredIn.of_closed hs rest
      fun bytes' node' hmem => h bytes' node' (List.mem_cons_of_mem _ hmem)⟩
    obtain ⟨hb, entry, hrec, hentry⟩ := h bytes node List.mem_cons_self name hd hi
    exact Node.Backed.storedIn hs node hb name entry hrec hentry

end

/-- **Where a recorded tree is stored, all that was recorded is**, but for what symlinks point at. -/
theorem copyStoredIn_of_closed [LawfulFormat H] (hs : s.Closed) {copy : WorkingCopy}
    (hdistinct : DistinctBelow copy) (hlinks : LinksStored s ignore copy) {tree : Tree H}
    (htree : recordTree ignore copy = some tree) (hmem : s.Holds (Tree H) ((encode H tree).hash H)) :
    CopyStoredIn s ignore copy := by
  have hrec : (Node.dir copy).record ignore "" =
      some ⟨"", .tree, (encode H tree).hash H, .DIR, none⟩ := by
    rw [Node.record, show recordChildren ignore .new copy = some tree from htree]
    rfl
  refine Node.Backed.storedIn hs (.dir copy) ⟨?_, ?_, ?_⟩ "" _ hrec hmem
  · rintro target ⟨⟩
  · rintro children ⟨⟩
    exact hdistinct
  · rintro children ⟨⟩
    exact hlinks

/-! ## Nothing sealed -/

omit [LinearOrder H] [Format H] in
theorem walkEntriesForSealed_eq {descend : H → String → List String → Except Error (List String)}
    {pathPrefix : String} {entries : List (TreeEntry H)} {out : List String}
    (hkinds : ∀ e ∈ entries, e.kind ≠ .sealed)
    (hdescend : ∀ e ∈ entries, e.kind = .tree → ∀ path, descend e.target path out = .ok out) :
    walkEntriesForSealed descend pathPrefix entries out = .ok out := by
  induction entries with
  | nil => rfl
  | cons e entries ih =>
    obtain ⟨hkind, hkinds⟩ := List.forall_mem_cons.mp hkinds
    obtain ⟨hdir, hdescend⟩ := List.forall_mem_cons.mp hdescend
    rw [walkEntriesForSealed]
    cases hk : e.kind with
    | «sealed» => exact absurd hk hkind
    | tree =>
      dsimp only
      rw [hdir hk]
      exact ih hkinds hdescend
    | file => exact ih hkinds hdescend
    | symlink => exact ih hkinds hdescend
    | conflict => exact ih hkinds hdescend
    | submodule => exact ih hkinds hdescend

/-- No entry of a tree that a scan can make is sealed. -/
theorem ScanLike.walkForSealed_eq {depth : Nat} {root : H} (h : ScanLike s root)
    (hfits : Fits s depth root) (pathPrefix : String) (out : List String) :
    walkForSealed s depth root pathPrefix out = .ok out := by
  induction depth generalizing root pathPrefix with
  | zero => exact hfits.elim
  | succ depth ih =>
    obtain ⟨t, ht, hdirs⟩ := hfits
    have hparts := h.parts ht
    rw [walkForSealed, ht]
    refine walkEntriesForSealed_eq (fun e he hk => ?_) fun e he hk path =>
      ih (hparts.dirs e he hk) (hdirs e he hk) path
    -- a leaf is made of a node, and none makes a sealed entry
    obtain ⟨node, -, -, hrec⟩ := hparts.leaves e he (by rw [hk]; decide)
    cases node with
    | file bytes executable =>
      have hkind : e.kind = .file := (congrArg TreeEntry.kind (Option.some.inj hrec)).symm
      rw [hk] at hkind
      cases hkind
    | symlink target =>
      have hkind : e.kind = .symlink := (congrArg TreeEntry.kind (Option.some.inj hrec)).symm
      rw [hk] at hkind
      cases hkind
    | dir children =>
      obtain ⟨_, -, heq⟩ := Option.map_eq_some_iff.mp hrec
      have hkind : e.kind = .tree := (congrArg TreeEntry.kind heq).symm
      rw [hk] at hkind
      cases hkind
    | other kind => cases hrec

/-! ## The part of a directory that a restore clears -/

/-- What a restore removes from a directory. -/
def openPart (copy : WorkingCopy) : WorkingCopy := copy.filter fun child => !isProtected child.1

theorem childOf_openPart (copy : WorkingCopy) (name : Bytes) :
    childOf name (openPart copy) = if isProtected name then none else childOf name copy := by
  induction copy with
  | nil => exact (ite_self _).symm
  | cons child rest ih =>
    obtain ⟨bytes, node⟩ := child
    unfold openPart at ih ⊢
    rw [List.filter_cons]
    by_cases hb : bytes = name
    · subst hb
      cases hp : isProtected bytes with
      | true => simpa [hp] using ih
      | false => simp [childOf]
    · split_ifs with hp hn hn
      · rw [childOf, if_neg hb, ih, if_pos hn]
      · rw [childOf, if_neg hb, ih, if_neg hn, childOf, if_neg hb]
      · rw [ih, if_pos hn]
      · rw [ih, if_neg hn, childOf, if_neg hb]

theorem DistinctNames.openPart {copy : WorkingCopy} (h : DistinctNames copy) :
    DistinctNames (Tig.openPart copy) :=
  List.Nodup.sublist (List.filter_sublist.map _) h

/-- Where there is no marker, a scan skips all that a restore spares. -/
theorem ignored_of_isProtected {copy : WorkingCopy}
    (hmarker : childOf (Utf8.encode MARKER_FILE) copy = none) {name : Bytes} {node : Node}
    (hname : isProtected name = true) (hchild : childOf name copy = some node) :
    ∃ n ∈ defaultIgnore, name = Utf8.encode n := by
  obtain ⟨n, hn, rfl⟩ := exists_of_isProtected hname
  simp only [List.mem_cons, List.not_mem_nil, or_false] at hn
  rcases hn with rfl | rfl | rfl
  · exact ⟨TIG_DIR, List.mem_cons_self, rfl⟩
  · exact ⟨DEFAULT_WORKTREE_DIR, List.mem_cons_of_mem _ List.mem_cons_self, rfl⟩
  · rw [hmarker] at hchild
    cases hchild

section Marker

variable {copy : WorkingCopy} (hdistinct : DistinctNames copy)
  (hmarker : childOf (Utf8.encode MARKER_FILE) copy = none)

include hdistinct hmarker

/-- Without a marker, a scan sees what a restore clears. -/
theorem findChild_openPart (name : String) :
    findChild defaultIgnore name (openPart copy) = findChild defaultIgnore name copy := by
  rw [findChild_eq hdistinct.openPart, findChild_eq hdistinct, childOf_openPart]
  by_cases hi : name ∈ defaultIgnore
  · rw [if_pos hi, if_pos hi]
  · rw [if_neg hi, if_neg hi]
    split_ifs with hp
    · cases hc : childOf (Utf8.encode name) copy with
      | none => rfl
      | some node =>
        obtain ⟨n, hn, heq⟩ := ignored_of_isProtected hmarker hp hc
        exact absurd (Utf8.encode_injective heq ▸ hn) hi
    · rfl

theorem nodeAt_openPart (path : List String) :
    nodeAt defaultIgnore (openPart copy) path = nodeAt defaultIgnore copy path := by
  cases path with
  | nil => rw [nodeAt, nodeAt]
  | cons name rest =>
    cases rest with
    | nil => exact findChild_openPart hdistinct hmarker name
    | cons next rest => rw [nodeAt, nodeAt, findChild_openPart hdistinct hmarker name]

omit [LinearOrder H] in
/-- It records that and nothing else. -/
theorem recordTree_of_openPart {tree : Tree H}
    (htree : recordTree defaultIgnore (openPart copy) = some tree) :
    recordTree defaultIgnore copy = some tree := by
  refine recordTree_eq (fun child hchild => ?_) (recordChildren_sorted htree List.Pairwise.nil)
    fun name => ?_
  · obtain ⟨name, node⟩ := child
    cases hp : isProtected name with
    | true =>
      obtain ⟨n, hn, rfl⟩ := ignored_of_isProtected hmarker hp (hdistinct.mem_iff.mp hchild)
      exact ⟨n, Utf8.decode_encode n, Or.inl hn⟩
    | false =>
      refine recordable_of_recordChildren htree _ (List.mem_filter.mpr ⟨hchild, ?_⟩)
      rw [hp]
      rfl
  · rw [get_recordChildren htree, findChild_openPart hdistinct hmarker]
    cases findChild defaultIgnore name copy <;> rfl

end Marker

/-! ## Rendering onto what is spared -/

section Onto

variable {opts : MaterializeOptions} {special : Node → Option Error} {dst : String}
  {copy before : WorkingCopy} {depth : Nat} {root : H} {t : Tree H}

/-- **A render onto what a restore spares**, of a tree that has none of the names: what is put there is
what the tree describes, and what was spared stays. -/
theorem placeTree_onto_protected (ht : s.load root = .ok t) (hsorted : SortedBelow s root)
    (hopen : ∀ e ∈ t.entries, isProtected (Utf8.encode e.name) = false) (hbefore : DistinctNames before)
    (p : List String) (pathPrefix : String) :
    Post (placeTree s opts special dst depth root p pathPrefix) (protectedPart before)
      (fun _ after => Depicts s opts depth root pathPrefix (openPart after) ∧ DistinctNames after ∧
        ∀ name, isProtected name = true → childOf name after = childOf name before)
      (fun _ _ => ∀ d, ¬ Depicts s opts depth root pathPrefix d) := by
  have hspared : ∀ name, childOf name (protectedPart before) =
      if isProtected name then childOf name before else none := childOf_protectedPart before
  cases depth with
  | zero => exact fun _ h => h
  | succ depth =>
    rw [placeTree, post_bind, ht]
    have hlocal : t.Sorted := hsorted root .refl t ht
    refine (placeEntries_exact
      (fun e he hk q tp => placeTree_exact (hsorted.subdir ht he hk) q tp) hlocal
      (fun e he => ?_) p).mono ?_ ?_
    · rw [hspared, hopen e he]
      exact if_neg Bool.false_ne_true
    · rintro _ after ⟨hall, hsame, hdistinct⟩
      have hafter := hdistinct hbefore.protectedPart
      refine ⟨depicts_of_drawn ht (fun e he => ?_) (fun name hname => ?_) hafter.openPart, hafter,
        fun name hname => ?_⟩
      · rw [childOf_openPart, hopen e he, if_neg Bool.false_ne_true]
        exact hall e he
      · rw [childOf_openPart]
        split_ifs with hp
        · rfl
        · rw [hsame name hname, hspared, if_neg hp]
      · have hother : ∀ e ∈ t.entries, name ≠ Utf8.encode e.name := by
          rintro e he rfl
          rw [hopen e he] at hname
          cases hname
        rw [hsame name hother, hspared, if_pos hname]
    · rintro _ _ ⟨e, he, hnot⟩ d ⟨t', ht', -, hall, -⟩
      obtain rfl : t = t' := Except.ok.inj (ht.symm.trans ht')
      exact hnot _ (hall e he)

/-- The directory looks as the other one did, and what a restore spares has been spared. -/
structure BroughtBack (copy before after : WorkingCopy) : Prop where
  seen : ∀ path, (nodeAt defaultIgnore after path).map Node.shape =
    (nodeAt defaultIgnore copy path).map Node.shape
  spared : ∀ name, isProtected name = true → childOf name after = childOf name before

omit [LinearOrder H] in
/-- Nothing that was recorded of a directory without a marker has a name that a restore spares. -/
theorem not_isProtected_of_mem (hdistinct : DistinctNames copy)
    (hmarker : childOf (Utf8.encode MARKER_FILE) copy = none)
    (htree : recordTree defaultIgnore copy = some t) {e : TreeEntry H} (he : e ∈ t.entries) :
    isProtected (Utf8.encode e.name) = false := by
  obtain ⟨node, hfind, -⟩ := child_of_mem htree he
  rw [← Bool.not_eq_true]
  intro hp
  have hchild := hdistinct.mem_iff.mp (mem_of_findChild hfind)
  obtain ⟨n, hn, heq⟩ := ignored_of_isProtected hmarker hp hchild
  exact not_ignored_of_findChild hfind (Utf8.encode_injective heq ▸ hn)

/-- **What was recorded of a directory** and is stored is brought back by a render onto what a restore
spares. -/
theorem placeTree_bringsBack (hdistinct : DistinctNames copy)
    (hmarker : childOf (Utf8.encode MARKER_FILE) copy = none) (hlinks : PortableLinks defaultIgnore copy)
    (htree : recordTree defaultIgnore copy = some t) (hs : CopyStoredIn s defaultIgnore copy)
    (hfits : Fits s depth ((encode H t).hash H)) (hbefore : DistinctNames before)
    (hmarker' : childOf (Utf8.encode MARKER_FILE) before = none) :
    Post (placeTree s opts special dst depth ((encode H t).hash H) [] "") (protectedPart before)
      (fun _ after => BroughtBack copy before after ∧ recordTree defaultIgnore after = some t)
      (fun _ _ => False) := by
  have hroot := hs.2 t htree
  have hsorted := (wellStored_recordTree htree hs).whole.sortedBelow
  refine (placeTree_onto_protected hroot hsorted
    (fun e he => not_isProtected_of_mem hdistinct hmarker htree he) hbefore [] "").mono ?_ ?_
  · rintro _ after ⟨hdepicts, hafter, hspared⟩
    have hmarked : isProtected (Utf8.encode MARKER_FILE) = true := by simp [isProtected]
    have hmarker'' := (hspared _ hmarked).trans hmarker'
    obtain ⟨hrecord, hpaths⟩ := hdepicts.rescan htree hs.1 hroot
    refine ⟨⟨fun path => ?_, hspared⟩, recordTree_of_openPart hafter hmarker'' hrecord⟩
    rw [← nodeAt_openPart hafter hmarker'', hpaths]
    cases hnode : nodeAt defaultIgnore copy path with
    | none => rfl
    | some node => exact congrArg some (hlinks.asText hnode)
  · intro _ _ hnot
    obtain ⟨dir, hdir⟩ :=
      (exists_depicts_iff htree hs.1 hroot hsorted hfits).mpr hlinks.linkable
    exact hnot dir hdir

end Onto

/-! ## The checks pass -/

section Checks

variable {w : World H} {opts : RestoreOptions} {workdir : String} {before : WorkingCopy} {depth : Nat}
  {target current : H} {snap : Snapshot H}

theorem refuseSealed_passes (hrel : w.env.Reliable) {root : H} (hlike : ScanLike w.repo.objects root)
    (hfits : Fits w.repo.objects depth root) :
    Post (refuseSealed depth opts root) w (fun _ w' => w.Quiet w') (fun _ _ => False) := by
  rw [refuseSealed, post_ite]
  refine ⟨fun _ => ?_, fun _ => .refl w⟩
  rw [post_bind]
  refine step_spec (by simp [FsStep.Mutates]) (fun w₁ hs hr => ?_)
    (fun e w₁ _ _ hf => hrel.not_fault e hf)
  have hpaths : collectSealedPaths w₁.repo.objects depth root = .ok [] := by
    rw [hr]
    exact hlike.walkForSealed_eq hfits "" []
  rw [post_bind, post_get, hpaths]
  exact .of_repo hs hr

/-- What is there already is no reason to refuse. -/
theorem refuseDirty_passes (hrel : w.env.Reliable)
    (hclean : opts.force = true ∨ ∃ (t : Tree H) (cur : Snapshot H),
      recordTree defaultIgnore before = some t ∧ w.repo.objects.load current = .ok cur ∧
        cur.tree = (encode H t).hash H) :
    Post (refuseDirty opts workdir before current) w (fun _ w' => w.Quiet w') (fun _ _ => False) := by
  rw [refuseDirty, post_ite]
  refine ⟨fun _ => .refl w, fun hforce => ?_⟩
  obtain ⟨t, cur, ht, hcur, hsame⟩ := hclean.resolve_left hforce
  rw [post_bind]
  refine scan_spec (fun t' w₁ hg₁ ht' => ?_) (fun e w₁ _ he => ?_)
  · obtain rfl := Option.some.inj (ht.symm.trans ht')
    rw [post_bind]
    refine loadObject_spec (fun cur' w₂ hs₂ hr₂ hcur' => ?_) (fun e w₂ _ _ he => ?_)
    · obtain rfl := Except.ok.inj ((hg₁.quiet.le.load hcur).symm.trans hcur')
      rw [post_ite]
      exact ⟨fun _ => hg₁.quiet.trans (.of_repo hs₂ hr₂), fun hne => hne hsame.symm⟩
    · rcases he with hf | he
      · rw [hg₁.quiet.env] at hf
        exact hrel.not_fault e hf
      · rw [hg₁.quiet.le.load hcur] at he
        cases he
  · rcases he with hf | hnone
    · exact hrel.not_fault e hf
    · rw [ht] at hnone
      cases hnone

theorem restoreChecks_passes (hrel : w.env.Reliable) (hload : w.repo.objects.load target = .ok snap)
    (hlike : ScanLike w.repo.objects snap.tree) (hfits : Fits w.repo.objects depth snap.tree)
    (hclean : opts.force = true ∨ ∃ (t : Tree H) (cur : Snapshot H),
      recordTree defaultIgnore before = some t ∧ w.repo.objects.load current = .ok cur ∧
        cur.tree = (encode H t).hash H) :
    Post (restoreChecks depth opts workdir before target current) w
      (fun snap' w' => snap' = snap ∧ w.Quiet w') (fun _ _ => False) := by
  rw [restoreChecks, post_bind]
  refine loadObject_spec (fun snap' w₁ hs₁ hr₁ hload' => ?_) (fun e w₁ _ _ he => ?_)
  swap
  · rcases he with hf | he
    · exact hrel.not_fault e hf
    · rw [hload] at he
      cases he
  obtain rfl := Except.ok.inj (hload.symm.trans hload')
  have hrel₁ : w₁.env.Reliable := hs₁.env ▸ hrel
  have hq₁ : w.Quiet w₁ := .of_repo hs₁ hr₁
  rw [← hr₁] at hlike hfits
  rw [post_bind]
  refine (refuseSealed_passes hrel₁ hlike hfits).mono (fun _ w₂ hq₂ => ?_) (fun _ _ h => h)
  have hrel₂ : w₂.env.Reliable := hq₂.env ▸ hrel₁
  rw [post_bind]
  refine (refuseDirty_passes hrel₂ ?_).mono (fun _ w₃ hq₃ => ?_) (fun _ _ h => h)
  · refine hclean.imp_right fun h => ?_
    obtain ⟨t, cur, ht, hcur, hsame⟩ := h
    exact ⟨t, cur, ht, (hq₁.trans hq₂).le.load hcur, hsame⟩
  · exact ⟨rfl, (hq₁.trans hq₂).trans hq₃⟩

end Checks

/-! ## The snapshot that is forced -/

/-- What a restore records: a snapshot of the tree on top of the one that the change was at. -/
structure RestoreRecorded (c : Change H) (tree : H) (message : String) (w w' : World H) : Prop where
  env : w'.env = w.env
  recorded : ∃ (snap : Snapshot H) (op : Op H),
    w'.repo.objects.load ((encode H snap).hash H) = .ok snap ∧ snap.tree = tree ∧
      snap.parents = [c.current] ∧ op.kind = .snap ((encode H snap).hash H) (some message) ∧
      op.id = computeNextId w.repo.oplog ∧ w'.repo.oplog = w.repo.oplog ++ [op] ∧
      w'.repo.refs = w.repo.refs.write (.ofChange (c.advance ((encode H snap).hash H)))

/-- **A forced snapshot** of a change that is there is recorded, whatever is checked out. -/
theorem snapNow_forced [LawfulFormat H] {w : World H} (hrel : w.env.Reliable)
    (hi : w.repo.objects.Intact) (hlog : w.log.nextId = computeNextId w.repo.oplog) {ws : Workspace}
    {opts : SnapOptions} (hforce : opts.force = true)
    {message : String} (hmessage : opts.message = some message) {id : ChangeId} {c : ChangeAt H id}
    (hws : ws.current w.repo.refs = some id) (hc : w.repo.refs.changes.lookup id = some c)
    {cur : Snapshot H} (hcur : w.repo.objects.load c.1.current = .ok cur) {copy : WorkingCopy}
    {tree : Tree H} (htree : recordTree opts.ignore copy = some tree) :
    Post (snapNow ws copy opts) w (fun out w' =>
      (∃ h, out = .snapped h ((encode H tree).hash H) (c.1.advance h) false) ∧
        RestoreRecorded c.1 ((encode H tree).hash H) message w w') (fun _ _ => False) := by
  refine snapNow_spec ?_ ?_ (fun e w' _ he => ?_)
    (fun _ _ _ _ _ e w' _ _ _ _ _ hfail => hrel.not_failed hfail)
  · intro _ _ _ prev _ _ _ _ _ _ hun
    rw [SnapOptions.unchanged, hforce, Bool.not_true, Bool.and_false] at hun
    cases hun
  · intro tree' base n s' now op w' htree' hbase _ _ _ _ snap h hcom hid hkind _ hload
    obtain rfl := Option.some.inj (htree.symm.trans htree')
    cases hbase with
    | fresh hnone =>
      rw [hnone] at hws
      cases hws
    | current id' c' hws' hc' =>
      obtain rfl := Option.some.inj (hws.symm.trans hws')
      obtain rfl := Option.some.inj (hc.symm.trans hc')
      exact ⟨⟨h, rfl⟩, hcom.env, snap, op, (hload hi).1, rfl, rfl, hmessage ▸ hkind,
        hid.trans hlog, hcom.oplog, hcom.refs⟩
  · rcases he with hf | hnone | ⟨id', hid', hmissing⟩
    · exact hrel.not_fault e hf
    · rw [htree] at hnone
      cases hnone
    · obtain rfl := Option.some.inj (hws.symm.trans hid')
      exact hmissing c hc cur hcur

/-! ## The command -/

/-- `copy` was recorded as the snapshot `target`, all that was recorded is stored, and a restore can make
it again: its symlinks are text, and it has no marker. -/
structure Restorable (s : ObjectStore H) (copy : WorkingCopy) (target : H) (t : Tree H) : Prop where
  snap : ∃ snap : Snapshot H, s.load target = .ok snap ∧ snap.tree = (encode H t).hash H
  recorded : recordTree defaultIgnore copy = some t
  stored : CopyStoredIn s defaultIgnore copy
  distinct : DistinctNames copy
  marker : childOf (Utf8.encode MARKER_FILE) copy = none
  links : PortableLinks defaultIgnore copy

section Command

variable {copy : WorkingCopy} {target : H} {t : Tree H} {special : Node → Option Error} {depth : Nat}

theorem Restorable.mono {s' : ObjectStore H} (h : Restorable s copy target t) (hle : s.Le s') :
    Restorable s' copy target t :=
  { h with
    snap := h.snap.imp fun _ hsnap => ⟨hle.load hsnap.1, hsnap.2⟩
    stored := Node.StoredIn.mono hle _ h.stored }

/-- **What a snapshot has recorded** can be restored in any store in which nothing dangles and that has
the snapshot, and what symlinks point at. -/
theorem Restorable.of_snapNow [LawfulFormat H] (hs : s.Closed) {w w' : World H} {ws : Workspace}
    {opts : SnapOptions} (hignore : opts.extraIgnores = []) {tree : H} {change : Change H}
    {fresh : Bool}
    (hsnap : snapNow ws copy opts w = .ok (.snapped target tree change fresh) w')
    (hmem : target ∈ s) (hdistinct : DistinctBelow copy)
    (hmarker : childOf (Utf8.encode MARKER_FILE) copy = none)
    (hlinks : PortableLinks defaultIgnore copy) (hlinked : LinksStored s defaultIgnore copy) :
    ∃ t : Tree H, tree = (encode H t).hash H ∧ Restorable s copy target t := by
  have hdefault : opts.ignore = defaultIgnore := by
    rw [SnapOptions.ignore, hignore, List.append_nil]
  have hpost : Post (snapNow ws copy opts) w (fun out _ => ∀ h tree change fresh,
      out = SnapOutcome.snapped h tree change fresh → ∃ (t : Tree H) (snap : Snapshot H),
        h = (encode H snap).hash H ∧ tree = (encode H t).hash H ∧
          snap.tree = (encode H t).hash H ∧ recordTree opts.ignore copy = some t)
      (fun _ _ => True) := by
    refine snapNow_spec ?_ ?_ (fun _ _ _ _ => trivial) (fun _ _ _ _ _ _ _ _ _ _ _ _ _ => trivial)
    · intro _ _ _ _ _ _ _ _ _ _ _ _ _ _ _ hout
      cases hout
    · intro t base n s' now op w' htree _ _ _ _ _ snap h _ _ _ _ _ _ _ _ _ hout
      cases hout
      exact ⟨t, snap, rfl, rfl, rfl, htree⟩
  obtain ⟨t, snap, rfl, rfl, hroot, htree⟩ := hpost.ok hsnap _ _ _ _ rfl
  rw [hdefault] at htree
  have hload := hs.intact.load_of_mem LawfulFormat.snapshot hmem
  refine ⟨t, rfl, ⟨snap, hload, hroot⟩, htree, ?_, hdistinct.here, hmarker, hlinks⟩
  refine copyStoredIn_of_closed hs hdistinct hlinked htree ?_
  rw [← hroot]
  exact (hs.of_snapshot hload).1

/-- A restore to what can be restored, with nothing to lose. -/
theorem restoreTreeInto_bringsBack {σ : Site H} (hrel : σ.world.env.Reliable)
    (h : Restorable σ.world.repo.objects copy target t)
    (hfits : Fits σ.world.repo.objects depth ((encode H t).hash H)) (hbefore : DistinctNames σ.copy)
    (hmarker : childOf (Utf8.encode MARKER_FILE) σ.copy = none) {workdir : String} {current : H}
    {opts : RestoreOptions} (hclean : opts.force = true ∨ ∃ (t : Tree H) (cur : Snapshot H),
      recordTree defaultIgnore σ.copy = some t ∧ σ.world.repo.objects.load current = .ok cur ∧
        cur.tree = (encode H t).hash H) :
    Post (restoreTreeInto special depth workdir target current opts) σ
      (fun _ σ' => σ.world.Quiet σ'.world ∧ BroughtBack copy σ.copy σ'.copy ∧
        recordTree defaultIgnore σ'.copy = some t) (fun _ _ => False) := by
  obtain ⟨snap, hload, hroot⟩ := h.snap
  have hlike := scanLike_recordTree h.recorded h.stored
  rw [← hroot] at hlike hfits
  rw [restoreTreeInto, post_bind, post_get, post_bind, post_onRepo]
  refine (restoreChecks_passes hrel hload hlike hfits hclean).mono ?_ (fun _ _ h => h)
  rintro _ w₁ ⟨rfl, hq₁⟩
  have hfits₁ : Fits w₁.repo.objects depth ((encode H t).hash H) := by
    rw [hroot] at hfits
    exact hfits.le hq₁.le
  simp only [clearWorkdir, post_bind, post_onDisk, post_get, post_set, post_pure,
    post_renderTreeInto, hroot]
  have h₁ := h.mono hq₁.le
  refine (placeTree_bringsBack h₁.distinct h₁.marker h₁.links h₁.recorded h₁.stored hfits₁ hbefore
    hmarker).mono ?_ (fun _ _ h => h)
  rintro _ after ⟨hback, hrecord⟩
  exact ⟨hq₁, hback, hrecord⟩

theorem restoreTarget_finds {w : World H} (hrel : w.env.Reliable)
    {resolve : ObjectStore H → String → Except Error H} {snapPrefix : String}
    (hresolve : resolve w.repo.objects snapPrefix = .ok target) {snap : Snapshot H}
    (hload : w.repo.objects.load target = .ok snap) :
    Post (restoreTarget resolve snapPrefix) w
      (fun found w' => found = target ∧ w.SameRefs w' ∧ w'.repo = w.repo) (fun _ _ => False) := by
  obtain ⟨raw, hget, hdec⟩ := ObjectStore.load_eq_ok.mp hload
  have hkind : raw.kind = .snapshot := kind_of_decode hdec
  rw [restoreTarget, post_bind]
  refine step_spec (by simp [FsStep.Mutates]) (fun w₁ hs₁ hr₁ => ?_)
    (fun e w₁ _ _ hf => hrel.not_fault e hf)
  have hrel₁ : w₁.env.Reliable := hs₁.env ▸ hrel
  rw [post_bind, post_get, post_bind, hr₁, hresolve]
  show Post (step .objectRead >>= _) w₁ _ _
  rw [post_bind]
  refine step_spec (by simp [FsStep.Mutates]) (fun w₂ hs₂ hr₂ => ?_)
    (fun e w₂ _ _ hf => hrel₁.not_fault e hf)
  rw [post_bind, post_get, post_bind, hr₂, hr₁, hget]
  show Post (if raw.kind ≠ .snapshot then _ else _) w₂ _ _
  rw [if_neg (not_not.mpr hkind), hdec]
  exact ⟨rfl, hs₁.trans hs₂, hr₂.trans hr₁⟩

omit [LinearOrder H] [Format H] in
theorem restoreBase_finds {w : World H} (hrel : w.env.Reliable) {ws : Workspace} {id : ChangeId}
    {c : ChangeAt H id} (hws : ws.current w.repo.refs = some id)
    (hc : w.repo.refs.changes.lookup id = some c) :
    Post (restoreBase ws) w
      (fun base w' => base = c.1.current ∧ w.SameRefs w' ∧ w'.repo = w.repo) (fun _ _ => False) := by
  rw [restoreBase, post_bind]
  refine currentChangeId_spec (fun w₁ hs₁ hr₁ => ?_) (fun e w₁ _ _ hf => hrel.not_fault e hf)
  have hrel₁ : w₁.env.Reliable := hs₁.env ▸ hrel
  rw [hws]
  show Post (getChange id >>= _) w₁ _ _
  rw [post_bind]
  refine getChange_spec (fun c' w₂ hs₂ hr₂ hc' => ?_) (fun e w₂ _ _ he => ?_)
  · rw [hr₁] at hc'
    obtain rfl := Option.some.inj (hc.symm.trans hc')
    exact ⟨rfl, hs₁.trans hs₂, hr₂.trans hr₁⟩
  · rcases he with hf | ⟨hnone, -⟩
    · exact hrel₁.not_fault e hf
    · rw [hr₁, hc] at hnone
      cases hnone

/-- What was done before, to nothing but the objects, does not matter. -/
theorem RestoreRecorded.of_sameRefs {c : Change H} {tree : H} {message : String} {w w₁ w' : World H}
    (h : RestoreRecorded c tree message w₁ w') (henv : w₁.env = w.env)
    (hrefs : w₁.repo.refs = w.repo.refs) (hoplog : w₁.repo.oplog = w.repo.oplog) :
    RestoreRecorded c tree message w w' := by
  obtain ⟨henv', snap, op, hload, htree, hparents, hkind, hid, hlog, hwrite⟩ := h
  rw [hoplog] at hid hlog
  rw [hrefs] at hwrite
  exact ⟨henv'.trans henv, snap, op, hload, htree, hparents, hkind, hid, hlog, hwrite⟩

/-- **The command**, in the main workspace, with nothing to lose. -/
theorem cmdRestore_bringsBack [LawfulFormat H] {σ : Site H} (hrel : σ.world.env.Reliable)
    (hi : σ.world.repo.objects.Intact) (h : Restorable σ.world.repo.objects copy target t)
    (hfits : Fits σ.world.repo.objects depth ((encode H t).hash H)) (hbefore : DistinctNames σ.copy)
    (hmarker : childOf (Utf8.encode MARKER_FILE) σ.copy = none) {id : ChangeId} {c : ChangeAt H id}
    (hhead : σ.world.repo.refs.head = some id) (hc : σ.world.repo.refs.changes.lookup id = some c)
    {cur : Snapshot H} (hcur : σ.world.repo.objects.load c.1.current = .ok cur)
    {resolve : ObjectStore H → String → Except Error H} {snapPrefix : String}
    (hresolve : resolve σ.world.repo.objects snapPrefix = .ok target) {force : Bool}
    (hclean : force = true ∨ ∃ t : Tree H, recordTree defaultIgnore σ.copy = some t ∧
      cur.tree = (encode H t).hash H)
    (principal : PrincipalId) (dir : String) (unsealer : Option UnsealFn) :
    Post (cmdRestore special depth ⟨principal, dir, .main⟩ resolve snapPrefix force (.ok unsealer)) σ
      (fun out σ' => (∃ h change, out.2 = .snapped h ((encode H t).hash H) change false) ∧
        BroughtBack copy σ.copy σ'.copy ∧ recordTree defaultIgnore σ'.copy = some t ∧
        RestoreRecorded c.1 ((encode H t).hash H) ("restore " ++ shortHex target) σ.world σ'.world)
      (fun _ _ => False) := by
  obtain ⟨snap, hload, -⟩ := h.snap
  rw [cmdRestore, post_bind, post_onRepo]
  show Post _ σ _ _
  -- the repository is opened, and its log with it
  rw [post_bind, post_onRepo, lockForWrite]
  refine step_spec (by simp [FsStep.Mutates]) (fun w₁ hs₁ hr₁ => ?_)
    (fun e w₁ _ _ hf => hrel.not_fault e hf)
  have hrel₁ : w₁.env.Reliable := hs₁.env ▸ hrel
  rw [post_bind, post_onRepo]
  refine openLog_spec (fun w₂ hs₂ hr₂ => ?_) (fun e w₂ _ _ hf => hrel₁.not_fault e hf)
  have hrel₂ : w₂.env.Reliable := hs₂.env ▸ hrel₁
  have hr₂' : w₂.repo = σ.world.repo := hr₂.trans hr₁
  generalize hu : ({ w₂ with log := ⟨computeNextId w₁.repo.oplog⟩ } : World H) = u
  have hru : u.repo = σ.world.repo := by rw [← hu, ← hr₂']
  have hlu : u.log.nextId = computeNextId σ.world.repo.oplog := by rw [← hu, ← hr₁]
  have henvu : u.env = σ.world.env := by rw [← hu, ← hs₁.env, ← hs₂.env]
  have hrelu : u.env.Reliable := henvu ▸ hrel
  -- the snapshot and the one to go on from are found
  rw [post_bind, post_onRepo]
  have hloadu : u.repo.objects.load target = .ok snap := hru ▸ hload
  refine (restoreTarget_finds hrelu (hru ▸ hresolve) hloadu).mono ?_ (fun _ _ h => h)
  rintro found w₃ ⟨hfound, hs₃, hr₃⟩
  rw [hfound, post_bind, post_onRepo]
  have hrel₃ : w₃.env.Reliable := hs₃.env ▸ hrelu
  have hr₃' : w₃.repo = σ.world.repo := hr₃.trans hru
  refine (restoreBase_finds hrel₃ (hr₃' ▸ hhead) (hr₃' ▸ hc)).mono ?_ (fun _ _ h => h)
  rintro base w₄ ⟨hbase, hs₄, hr₄⟩
  rw [hbase, post_bind, post_onRepo]
  refine step_spec (by simp [FsStep.Mutates]) (fun w₅ hs₅ hr₅ => ?_)
    (fun e w₅ _ _ hf => (hs₄.env ▸ hrel₃).not_fault e hf)
  have hs₅' : u.SameRefs w₅ := (hs₃.trans hs₄).trans hs₅
  have hr₅' : w₅.repo = σ.world.repo := (hr₅.trans hr₄).trans hr₃'
  have hrel₅ : w₅.env.Reliable := hs₅'.env ▸ hrelu
  show Post (restoreTreeInto special depth dir target c.1.current _ >>= _) _ _ _
  -- the directory is restored
  have hclean₅ : force = true ∨ ∃ (t : Tree H) (cur : Snapshot H),
      recordTree defaultIgnore σ.copy = some t ∧ w₅.repo.objects.load c.1.current = .ok cur ∧
        cur.tree = (encode H t).hash H := by
    refine hclean.imp_right fun h => ?_
    obtain ⟨t', ht', hsame⟩ := h
    exact ⟨t', cur, ht', hr₅' ▸ hcur, hsame⟩
  rw [post_bind]
  refine (restoreTreeInto_bringsBack (σ := { σ with world := w₅ }) hrel₅ (hr₅' ▸ h) (hr₅' ▸ hfits)
    hbefore hmarker hclean₅).mono ?_ (fun _ _ h => h)
  rintro done σ' ⟨hq, hback, hrecord⟩
  -- and what it holds now is recorded
  rw [post_bind, post_get, post_bind, post_onRepo]
  have hrefs : σ'.world.repo.refs = σ.world.repo.refs := hq.refs.trans (congrArg Repo.refs hr₅')
  have hoplog : σ'.world.repo.oplog = σ.world.repo.oplog :=
    hq.oplog.trans (congrArg Repo.oplog hr₅')
  have henv : σ'.world.env = σ.world.env := (hq.env.trans hs₅'.env).trans henvu
  have hle : σ.world.repo.objects.Le σ'.world.repo.objects := hr₅' ▸ hq.le
  have hlog : σ'.world.log.nextId = computeNextId σ'.world.repo.oplog := by
    rw [hoplog, ← hlu]
    exact congrArg FileLog.nextId (hq.log.trans hs₅'.log)
  refine Post.mono (snapNow_forced (henv ▸ hrel) (hq.intact (hr₅' ▸ hi)) hlog rfl rfl
    (hrefs ▸ hhead) (hrefs ▸ hc) (hle.load hcur) hrecord) ?_ (fun _ _ h => h)
  · rintro out w' ⟨⟨snapHash, hout⟩, hrecorded⟩
    exact ⟨⟨snapHash, _, hout⟩, hback, hrecord, hrecorded.of_sameRefs henv hrefs hoplog⟩

/-- What was recorded is checked out. -/
theorem RestoreRecorded.at {w w' : World H} {dir : String} {id : ChangeId} {c : ChangeAt H id}
    {tree : H} {message : String} (h : RestoreRecorded c.1 tree message w w')
    (hhead : w.repo.refs.head = some id) :
    (Workspace.mk .main dir).At w'.repo (some tree) := by
  obtain ⟨-, snap, op, hload, rfl, -, -, -, -, hrefs⟩ := h
  have hadvanced : (c.1.advance ((encode H snap).hash H)).id = id :=
    (Change.advance_id _ _).trans c.2
  refine .change (⟨_, hadvanced⟩ : ChangeAt H id) snap ?_ ?_ ?_
  · rw [hrefs]
    exact hhead
  · rw [hrefs]
    exact lookup_write_change _ hadvanced
  · rw [Change.advance_current]
    exact hload

/-- **A restore brings back** what a snapshot has recorded: in any repository that has the snapshot, by
whatever way it came there, the main working copy looks as the recorded one did and that is recorded on
top of what was checked out, if nothing is lost or that is forced. -/
theorem restore_brings_back [LawfulFormat H] {L : Prop} {w w' v : World H} {ws : Workspace}
    {opts : SnapOptions} (hignore : opts.extraIgnores = []) {tree : H} {change : Change H} {fresh : Bool}
    (hsnap : snapNow ws copy opts w = .ok (.snapped target tree change fresh) w')
    (hdistinct : DistinctBelow copy) (hmarker : childOf (Utf8.encode MARKER_FILE) copy = none)
    (hlinks : PortableLinks defaultIgnore copy) (hrun : Served L v) (hrel : v.env.Reliable)
    (hmem : target ∈ v.repo.objects) (hlinked : LinksStored v.repo.objects defaultIgnore copy)
    {before : WorkingCopy} (hbefore : DistinctNames before)
    (hmarker' : childOf (Utf8.encode MARKER_FILE) before = none) {dir : String} {cur : H}
    (hat : (Workspace.mk .main dir).At v.repo (some cur))
    {resolve : ObjectStore H → String → Except Error H} {snapPrefix : String}
    (hresolve : resolve v.repo.objects snapPrefix = .ok target) {force : Bool}
    (hclean : force = true ∨ ∃ t : Tree H, recordTree defaultIgnore before = some t ∧
      cur = (encode H t).hash H)
    (special : Node → Option Error) (principal : PrincipalId) (unsealer : Option UnsealFn) :
    ∃ depth₀, ∀ depth, depth₀ ≤ depth → ∃ outcome h change' σ',
      cmdRestore special depth ⟨principal, dir, .main⟩ resolve snapPrefix force (.ok unsealer)
          ⟨v, before⟩ = .ok (outcome, .snapped h tree change' false) σ' ∧
        BroughtBack copy before σ'.copy ∧ (Workspace.mk .main dir).At σ'.world.repo (some tree) ∧
        ∃ (id : ChangeId) (c : ChangeAt H id), v.repo.refs.head = some id ∧
          v.repo.refs.changes.lookup id = some c ∧
          RestoreRecorded c.1 tree ("restore " ++ shortHex target) v σ'.world := by
  have hclosed := hrun.complete.closed
  obtain ⟨t, rfl, h⟩ :=
    Restorable.of_snapNow hclosed hignore hsnap hmem hdistinct hmarker hlinks hlinked
  obtain ⟨deep, hdeep⟩ := (wellStored_recordTree h.recorded h.stored).whole.fits
  generalize hc : some cur = at' at hat
  cases hat with
  | fresh => cases hc
  | change c snap hws hlookup hload =>
    obtain rfl := Option.some.inj hc
    refine ⟨deep, fun depth hdepth => ?_⟩
    have hpost : Post (cmdRestore special depth ⟨principal, dir, .main⟩ resolve snapPrefix force
        (.ok unsealer)) ⟨v, before⟩ _ _ :=
      cmdRestore_bringsBack hrel hclosed.intact h (hdeep.mono hdepth) hbefore hmarker' hws hlookup
        hload hresolve hclean principal dir unsealer
    obtain ⟨⟨outcome, out⟩, σ', hrun', ⟨snapHash, change', rfl⟩, hback, -, hrecorded⟩ :=
      hpost.exists_ok
    exact ⟨outcome, snapHash, change', σ', hrun', hback, hrecorded.at hws, _, c, hws, hlookup,
      hrecorded⟩

end Command

namespace Wiped

/-- The repository after a snapshot of `PlainCopy`. -/
def world : World PlainHash :=
  final (snapNow ⟨.main, "/repo"⟩ PlainCopy.copy SnapOptions.default) (World.fresh .calm)

/-- The snapshot. -/
def snapshot : Snapshot PlainHash :=
  ⟨[], (encode PlainHash PlainCopy.tree).hash PlainHash, PrincipalId.local "anonymous", 0, none, none⟩

/-- What it is called. -/
def target : PlainHash := (encode PlainHash snapshot).hash PlainHash

/-- All that is left of the directory, and a new file. -/
def copy : WorkingCopy := [(Utf8.encode ".tig", .dir []), (Utf8.encode "notes", .file [104] false)]

/-- The digits are those of the snapshot. -/
def resolve (s : ObjectStore PlainHash) (given : String) : Except Error PlainHash :=
  if given = shortHex target ∧ target ∈ s then .ok target else .error (.notFound given)

set_option maxRecDepth 1000000 in
theorem snapNow_copy : ∃ change, snapNow ⟨.main, "/repo"⟩ PlainCopy.copy SnapOptions.default
    (World.fresh .calm) =
      .ok (.snapped target ((encode PlainHash PlainCopy.tree).hash PlainHash) change true) world :=
  ⟨_, rfl⟩

theorem served : Served True world :=
  .operation (.start (World.fresh .calm) rfl) rfl
    (.snapNow ⟨.main, "/repo"⟩ PlainCopy.copy SnapOptions.default) trivial

theorem distinct : DistinctBelow PlainCopy.copy := by
  refine distinctBelow_of_children (by unfold DistinctNames; decide) fun name children h => ?_
  -- the only directory is empty
  have hempty : children = [] := by
    rw [PlainCopy.copy, childOf, childOf, childOf] at h
    split_ifs at h
    · exact (Node.dir.inj (Option.some.inj h)).symm
    · cases h
    · cases h
    · cases h
  rw [hempty]
  exact distinctBelow_of_children List.nodup_nil fun _ _ hc => by cases hc

theorem linksStored : LinksStored world.repo.objects defaultIgnore PlainCopy.copy := by
  obtain ⟨change, hsnap⟩ := snapNow_copy
  obtain ⟨tree, hleads⟩ := (snapNow_leadsTo ObjectStore.intact_empty).ok hsnap
  exact linksStored_of_copyStoredIn hleads.recorded hleads.stored

set_option maxRecDepth 1000000 in
theorem checkedOut : (Workspace.mk .main "/repo").At world.repo
    (some ((encode PlainHash PlainCopy.tree).hash PlainHash)) :=
  .change _ snapshot rfl rfl rfl

set_option maxRecDepth 1000000 in
theorem target_mem : target ∈ world.repo.objects :=
  ObjectStore.mem_of_load (show world.repo.objects.load target = .ok snapshot from rfl)

theorem resolve_target : resolve world.repo.objects (shortHex target) = .ok target :=
  if_pos ⟨rfl, target_mem⟩

end Wiped

/-- The files that were removed are brought back. -/
theorem restore_brings_back_wiped : ∃ depth₀, ∀ depth, depth₀ ≤ depth → ∃ outcome h change' σ',
    cmdRestore (fun _ => none) depth ⟨PrincipalId.local "anonymous", "/repo", .main⟩ Wiped.resolve
        (shortHex Wiped.target) true (.ok none) ⟨Wiped.world, Wiped.copy⟩ =
      .ok (outcome, .snapped h ((encode PlainHash PlainCopy.tree).hash PlainHash) change' false) σ' ∧
    BroughtBack PlainCopy.copy Wiped.copy σ'.copy ∧
    (Workspace.mk .main "/repo").At σ'.world.repo
      (some ((encode PlainHash PlainCopy.tree).hash PlainHash)) ∧
    ∃ (id : ChangeId) (c : ChangeAt PlainHash id), Wiped.world.repo.refs.head = some id ∧
      Wiped.world.repo.refs.changes.lookup id = some c ∧
      RestoreRecorded c.1 ((encode PlainHash PlainCopy.tree).hash PlainHash)
        ("restore " ++ shortHex Wiped.target) Wiped.world σ'.world := by
  obtain ⟨change, hsnap⟩ := Wiped.snapNow_copy
  exact restore_brings_back rfl hsnap Wiped.distinct rfl PlainCopy.portableLinks Wiped.served
    Env.calm_reliable Wiped.target_mem Wiped.linksStored (by unfold DistinctNames; decide) rfl
    Wiped.checkedOut Wiped.resolve_target (.inl rfl) (fun _ => none) (PrincipalId.local "anonymous")
    none

end Tig
