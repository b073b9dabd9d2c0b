import Tig.Fs.Canonical
import Tig.Guarantees.PathEdits

set_option relaxedAutoImplicit false
set_option autoImplicit false

/-!
# The algebra of writes

Trees have one form, so laws about what lies at paths are laws about hashes. Writes at paths apart
commute, the last write at a path counts, and deleting what was written at a new path gives back the
tree that there was.

## Main definitions

* `Tig.Payload`, `Tig.writeAtPath` — what can be written at a path.
* `Tig.Makes` — when an edit succeeds, and the map of the tree it makes.
* `Tig.madeBy` — the hash that an edit returns.

## Main results

* `Tig.makes_writeAtPath`, `Tig.makes_deleteAtPath` — edits are edits of the map.
* `Tig.treeWrites_algebra` — **the laws**.
-/

namespace Tig

open Program

variable {H : Type} [LinearOrder H] [Format H]

/-! ## Writes -/

/-- What can be written at a path. -/
inductive Payload where
  | blob (bytes : Bytes)
  | sealed (sealed : Sealed)

/-- Write it at a path. -/
def writeAtPath (rootTree : H) (path : String) : Payload → RepoM H H
  | .blob bytes => writeBlobAtPath rootTree path bytes
  | .sealed sealed => writeSealedAtPath rootTree path sealed

/-- The entry of what has been written at a path. -/
def Payload.entry (parts : List String) : Payload → TreeEntry H
  | .blob bytes =>
    ⟨parts.getLastD "", .file, (encode H (Blob.mk bytes)).hash H, .REGULAR, none⟩
  | .sealed object => ⟨parts.getLastD "", .sealed, (encode H object).hash H, .REGULAR, none⟩

/-- The hash of the tree that an edit makes, unless it fails. -/
def madeBy (edit : RepoM H H) (w : World H) : Option H :=
  match edit w with
  | .ok root' _ => some root'
  | .error _ _ => none

/-- Any entry may be in a tree in canonical form. -/
def AnyEntry (_ : ObjectStore H) (_ : TreeEntry H) : Prop := True

omit [Format H] in
theorem editsKeep_anyEntry : EditsKeep (AnyEntry (H := H)) where
  mono _ _ := trivial
  dir _ _ _ _ := trivial

/-- The edit succeeds exactly when `allowed` holds. What it makes then is a tree in canonical form
whose map is `m`. -/
def Makes (edit : RepoM H H) (w : World H) (allowed : Prop)
    (m : PathTree.Table String (TreeEntry H)) : Prop :=
  Post edit w
    (fun root' w' => allowed ∧ w.Quiet w' ∧ Canonical AnyEntry w'.repo.objects root' ∧
      viewOf w'.repo.objects root' = m)
    (fun _ _ => ¬ allowed)

section Makes

variable {edit edit' : RepoM H H} {w w' : World H} {allowed allowed' : Prop}
  {m m' : PathTree.Table String (TreeEntry H)}

/-- One edit after another. -/
theorem Makes.bind {next : H → RepoM H H} (h : Makes edit w allowed m)
    (hnext : ∀ root' w', allowed → w.Quiet w' → Canonical AnyEntry w'.repo.objects root' →
      viewOf w'.repo.objects root' = m → Makes (next root') w' allowed' m') :
    Makes (edit >>= next) w (allowed ∧ allowed') m' := by
  rw [Makes, post_bind]
  refine Post.mono h (fun root' w₁ ⟨hall, hq₁, hcan, hview⟩ => ?_) (fun _ _ hno => mt And.left hno)
  refine Post.mono (hnext root' w₁ hall hq₁ hcan hview)
    (fun root'' w₂ ⟨hall', hq₂, hcan', hview'⟩ => ?_) (fun _ _ hno => mt And.right hno)
  exact ⟨⟨hall, hall'⟩, hq₁.trans hq₂, hcan', hview'⟩

/-- **Edits that make the same map** make trees with the same hash, or both fail. -/
theorem Makes.madeBy_eq (h : Makes edit w allowed m) (h' : Makes edit' w' allowed' m')
    (hall : allowed ↔ allowed') (hm : allowed → m = m') : madeBy edit w = madeBy edit' w' := by
  unfold madeBy
  cases hrun : edit w with
  | ok root' w₁ =>
    obtain ⟨ha, -, hcan, hview⟩ := Post.ok h hrun
    cases hrun' : edit' w' with
    | ok root'' w₂ =>
      obtain ⟨-, -, hcan', hview'⟩ := Post.ok h' hrun'
      exact congrArg some (hcan.ext hcan' (by rw [hview, hview', hm ha]))
    | error e w₂ => exact absurd (hall.mp ha) (Post.error h' hrun')
  | error e w₁ =>
    cases hrun' : edit' w' with
    | ok root'' w₂ => exact absurd (hall.mpr (Post.ok h' hrun').1) (Post.error h hrun)
    | error e' w₂ => rfl

end Makes

section Edits

variable [LawfulFormat H] {w : World H} {root : H} {path : String} {parts : List String}

/-- Storing an object and inserting an entry for it. -/
theorem makes_insert {α : Type} [Encodable H α] (a : α) {kind : EntryKind} (hkind : kind ≠ .tree)
    (hparts : splitPath path = .ok parts) (hrel : w.env.Reliable) (hi : w.repo.objects.Intact)
    (hroot : Canonical AnyEntry w.repo.objects root) :
    Makes (do
      let parts ← fromExcept (splitPath path)
      let target ← storeObject a
      rewriteInsert target kind .REGULAR root parts) w
      (PathTree.Passable (viewOf w.repo.objects root) parts)
      (PathTree.put (viewOf w.repo.objects root) parts
        ⟨parts.getLastD "", kind, (encode H a).hash H, .REGULAR, none⟩) := by
  obtain ⟨hne, hvalid⟩ := splitPath_valid hparts
  rw [Makes, hparts, post_bind, post_fromExcept]
  refine ⟨?_, fun e he => by cases he⟩
  rintro parts ⟨⟩
  rw [post_bind]
  refine storeObject_spec (fun w₁ hq₁ _ => ?_) (fun e w₁ _ _ hf => absurd hf (hrel.not_fault e))
  -- storing the payload does not change the map
  have hview : viewOf w₁.repo.objects root = viewOf w.repo.objects root := by
    funext path
    rw [viewOf, hroot.whole.entryAt_eq hq₁.le, viewOf]
  have hroot₁ := hroot.mono (fun _ _ => trivial) hq₁.le
  have hput : Post (rewriteInsert ((encode H a).hash H) kind .REGULAR root parts) w₁ _ _ :=
    rewriteInsert_exact hkind (hq₁.intact hi) hroot₁.whole hne hvalid
  have hcan : Post (rewriteInsert ((encode H a).hash H) kind .REGULAR root parts) w₁ _ _ :=
    canonical_rewriteInsert editsKeep_anyEntry hkind (hq₁.intact hi) hroot₁ fun _ _ => trivial
  refine (hput.and hcan).mono (fun root' w₂ h₂ => ?_) (fun e w₂ h₂ => ?_)
  · obtain ⟨⟨hq₂, hpass, -, hput⟩, -, hcan⟩ := h₂
    rw [← hview]
    exact ⟨passable_viewOf.mpr hpass, hq₁.trans hq₂, hcan, viewOf_of_putAt hkind hput⟩
  · rw [← hview, passable_viewOf]
    exact h₂.1 (hq₁.env ▸ hrel)

/-- **A write** puts its entry into the map, if nothing but directories is on the way. -/
theorem makes_writeAtPath (hparts : splitPath path = .ok parts) (hrel : w.env.Reliable)
    (hi : w.repo.objects.Intact) (hroot : Canonical AnyEntry w.repo.objects root) (x : Payload) :
    Makes (writeAtPath root path x) w (PathTree.Passable (viewOf w.repo.objects root) parts)
      (PathTree.put (viewOf w.repo.objects root) parts (x.entry parts)) := by
  cases x with
  | blob bytes => exact makes_insert (Blob.mk bytes) EntryKind.noConfusion hparts hrel hi hroot
  | sealed object => exact makes_insert object EntryKind.noConfusion hparts hrel hi hroot

/-- **A removal** erases from the map, if there is something at the path. -/
theorem makes_deleteAtPath (hparts : splitPath path = .ok parts) (hrel : w.env.Reliable)
    (hi : w.repo.objects.Intact) (hroot : Canonical AnyEntry w.repo.objects root) :
    Makes (deleteAtPath root path) w (viewOf w.repo.objects root parts ≠ none)
      (PathTree.erase (viewOf w.repo.objects root) parts) := by
  obtain ⟨hne, hvalid⟩ := splitPath_valid hparts
  rw [Makes, deleteAtPath, hparts, post_bind, post_fromExcept]
  refine ⟨?_, fun e he => by cases he⟩
  rintro parts ⟨⟩
  refine ((rewriteRemove_exact hrel hi hroot.whole hne hvalid).and
    (canonical_rewriteRemove editsKeep_anyEntry hi hroot)).mono
    (fun root' w₁ h₁ => ?_) (fun e w₁ h₁ => not_not.mpr (viewOf_eq_none.mpr h₁.1))
  · obtain ⟨⟨hq, ⟨e, he⟩, -, hrem⟩, -, hcan⟩ := h₁
    refine ⟨fun hnone => ?_, hq, hcan, viewOf_of_removedAt hrem⟩
    rw [viewOf_eq_none, he] at hnone
    cases hnone

/-- Two writes, one after the other. -/
theorem makes_two {path' : String} {parts' : List String} (hparts : splitPath path = .ok parts)
    (hparts' : splitPath path' = .ok parts') (hrel : w.env.Reliable) (hi : w.repo.objects.Intact)
    (hroot : Canonical AnyEntry w.repo.objects root) (x y : Payload) :
    Makes (do
      let root' ← writeAtPath root path x
      writeAtPath root' path' y) w
      (PathTree.Passable (viewOf w.repo.objects root) parts ∧
        PathTree.Passable (PathTree.put (viewOf w.repo.objects root) parts (x.entry parts)) parts')
      (PathTree.put (PathTree.put (viewOf w.repo.objects root) parts (x.entry parts)) parts'
        (y.entry parts')) := by
  refine (makes_writeAtPath hparts hrel hi hroot x).bind fun root' w' _ hq hcan hview => ?_
  rw [← hview]
  exact makes_writeAtPath hparts' (hq.env ▸ hrel) (hq.intact hi) hcan y

end Edits

/-- Every directory that is on the way to a path holds something. -/
def FullOnWay (s : ObjectStore H) (root : H) (parts : List String) : Prop :=
  ∀ above, above ≠ [] → above <+: parts → above ≠ parts → ∀ e, entryAt s root above = some e →
    e.kind = .tree ∧ ∃ t : Tree H, s.load e.target = .ok t ∧ t.isEmpty = false

/-- What a directory of a tree holds is in the map. -/
theorem exists_below {s : ObjectStore H} {root : H} (hwhole : Whole s root) {above : List String}
    {e : TreeEntry H} (he : entryAt s root above = some e) (hk : e.kind = .tree) {t : Tree H}
    (ht : s.load e.target = .ok t) (hfull : t.isEmpty = false) :
    ∃ below, above <+: below ∧ below ≠ above ∧ entryAt s root below ≠ none := by
  induction above generalizing root with
  | nil => cases he
  | cons name rest ih =>
    obtain ⟨_, u, hu, -, hdirs⟩ := hwhole
    rw [entryAt_cons hu, Option.bind_eq_some_iff] at he
    obtain ⟨dir, hdir, he⟩ := he
    have hmem := mem_of_findEntry hdir
    by_cases hrest : rest = []
    · subst hrest
      obtain rfl := Option.some.inj he
      obtain ⟨_, t', ht', hsorted, -⟩ := hdirs dir hmem hk
      obtain rfl : t' = t := Except.ok.inj (ht'.symm.trans ht)
      obtain ⟨child, hchild⟩ := List.exists_mem_of_ne_nil t'.entries fun hnil => by
        rw [Tree.isEmpty, hnil] at hfull
        cases hfull
      have hget := (findEntry_eq_some hsorted).mpr ⟨hchild, rfl⟩
      refine ⟨[name, child.name], ⟨[child.name], rfl⟩, by simp, ?_⟩
      rw [entryAt_cons hu, hdir, Option.bind_some, if_neg (List.cons_ne_nil _ _), if_pos hk,
        entryAt_cons ht, Tree.get, hget]
      simp
    · rw [if_neg hrest] at he
      split_ifs at he with hdk
      obtain ⟨below, hpre, hstrict, hb⟩ := ih (hdirs dir hmem hdk) he
      have hbelow : below ≠ [] := by
        rintro rfl
        exact hb rfl
      refine ⟨name :: below, List.cons_prefix_cons.mpr ⟨rfl, hpre⟩, by simpa using hstrict, ?_⟩
      rwa [entryAt_cons hu, hdir, Option.bind_some, if_neg hbelow, if_pos hdk]

/-- **The algebra of writes** to a tree in canonical form. Writes to two paths, neither of which
leads to the other, give the same tree in both orders, or fail in both. Of two writes at the same
path only the second counts. And deleting what was written at a path where nothing was gives back
the tree, if the directories that were on the way held something. -/
theorem treeWrites_algebra [LawfulFormat H] {w : World H} (hrel : w.env.Reliable)
    (hi : w.repo.objects.Intact) {root : H} (hroot : Canonical AnyEntry w.repo.objects root)
    {p q : String} {ps qs : List String} (hp : splitPath p = .ok ps) (hq : splitPath q = .ok qs) :
    (¬ ps <+: qs → ¬ qs <+: ps → ∀ x y,
      madeBy (do let root' ← writeAtPath root p x; writeAtPath root' q y) w =
        madeBy (do let root' ← writeAtPath root q y; writeAtPath root' p x) w) ∧
    (qs = ps → ∀ x y,
      madeBy (do let root' ← writeAtPath root p x; writeAtPath root' q y) w =
        madeBy (writeAtPath root q y) w) ∧
    (qs = ps → entryAt w.repo.objects root ps = none → FullOnWay w.repo.objects root ps →
      ∀ x root' w', writeAtPath root p x w = .ok root' w' →
        madeBy (deleteAtPath root' q) w' = some root) := by
  refine ⟨fun hpq hqp x y => ?_, fun heq x y => ?_, fun heq hnone hfull x root' w' hrun => ?_⟩
  · refine (makes_two hp hq hrel hi hroot x y).madeBy_eq (makes_two hq hp hrel hi hroot y x) ?_
      fun _ => PathTree.put_comm hpq hqp
    constructor
    · rintro ⟨hpass, hpass'⟩
      rw [PathTree.passable_put_iff hpass hpq] at hpass'
      exact ⟨hpass', (PathTree.passable_put_iff hpass' hqp).mpr hpass⟩
    · rintro ⟨hpass, hpass'⟩
      rw [PathTree.passable_put_iff hpass hqp] at hpass'
      exact ⟨hpass', (PathTree.passable_put_iff hpass' hpq).mpr hpass⟩
  · subst heq
    refine (makes_two hp hq hrel hi hroot x y).madeBy_eq (makes_writeAtPath hq hrel hi hroot y) ?_
      fun _ => PathTree.put_put
    exact ⟨And.left, fun hpass => ⟨hpass, PathTree.passable_put_same hpass⟩⟩
  · subst heq
    obtain ⟨hne, -⟩ := splitPath_valid hp
    obtain ⟨hpass, hquiet, hcan, hview⟩ := Post.ok (makes_writeAtPath hp hrel hi hroot x) hrun
    have hdel := makes_deleteAtPath hq (hquiet.env ▸ hrel) (hquiet.intact hi) hcan
    have hback : PathTree.erase (viewOf w'.repo.objects root') qs = viewOf w.repo.objects root := by
      rw [hview]
      refine PathTree.erase_put (closed_viewOf _ _) hpass hne (viewOf_eq_none.mpr hnone)
        fun above habove hpre hstrict hsome => ?_
      obtain ⟨e, he⟩ := Option.ne_none_iff_exists'.mp (mt viewOf_eq_none.mpr hsome)
      obtain ⟨hk, t, ht, hnonempty⟩ := hfull above habove hpre hstrict e he
      obtain ⟨below, hbelow, hne', hb⟩ := exists_below hroot.whole he hk ht hnonempty
      exact ⟨below, hbelow, hne', mt viewOf_eq_none.mp hb⟩
    unfold madeBy
    cases hrun' : deleteAtPath root' q w' with
    | ok root'' w'' =>
      obtain ⟨-, -, hcan', hview'⟩ := Post.ok hdel hrun'
      exact congrArg some (hcan'.ext hroot (hview'.trans hback))
    | error e w'' =>
      refine absurd ?_ (Post.error hdel hrun')
      rw [hview, PathTree.put_same]
      exact Option.some_ne_none _

/-- In an empty tree two files of a new directory can be written in either order. -/
theorem treeWrites_emptyRoot :
    madeBy (do
      let root' ← writeAtPath EmptyRoot.root "src/a" (.blob [0])
      writeAtPath root' "src/b" (.blob [1])) EmptyRoot.world =
    madeBy (do
      let root' ← writeAtPath EmptyRoot.root "src/b" (.blob [1])
      writeAtPath root' "src/a" (.blob [0])) EmptyRoot.world := by
  have hp : splitPath "src/a" = .ok ["src", "a"] := by decide
  have hq : splitPath "src/b" = .ok ["src", "b"] := by decide
  have hroot : Canonical AnyEntry EmptyRoot.world.repo.objects EmptyRoot.root :=
    .new EmptyRoot.load_root
  exact (treeWrites_algebra Env.calm_reliable (ObjectStore.intact_empty.put _) hroot hp hq).1
    (by decide) (by decide) (.blob [0]) (.blob [1])

end Tig
