import Tig.Core.Plain
import Tig.Fs.PathMap

set_option relaxedAutoImplicit false
set_option autoImplicit false

/-!
# Edits of a path

The writers and the remover of paths are exact operations on the map from paths to entries that
a stored tree stands for.

## Main definitions

* `Tig.EditsMap` — when an edit of a tree succeeds, and what it then makes of it.

## Main results

* `Tig.pathEdits_exact` — writing and deleting at a path are operations on the map.
-/

namespace Tig

open Program

variable {H : Type}

/-- In the world `w` an edit succeeds exactly when `allowed` holds, and what it returns then is
`made` by it: a tree, in the store that the edit leaves. -/
structure EditsMap (edit : RepoM H H) (w : World H) (allowed : Prop)
    (made : ObjectStore H → H → Prop) : Prop where
  succeeds_iff : (∃ root' w', edit w = .ok root' w') ↔ allowed
  made : ∀ root' w', edit w = .ok root' w' → made w'.repo.objects root'

theorem EditsMap.of_post {edit : RepoM H H} {w : World H} {allowed : Prop}
    {made : ObjectStore H → H → Prop}
    (h : Post edit w (fun root' w' => allowed ∧ made w'.repo.objects root')
      (fun _ _ => ¬ allowed)) : EditsMap edit w allowed made where
  succeeds_iff := by
    constructor
    · rintro ⟨root', w', hrun⟩
      exact (h.ok hrun).1
    · intro hall
      cases hrun : edit w with
      | ok root' w' => exact ⟨root', w', rfl⟩
      | error e w' => exact absurd hall (h.error hrun)
  made root' w' hrun := (h.ok hrun).2

variable [LinearOrder H] [Format H]

/-- Storing an object and putting an entry for it at a path. -/
theorem editsMap_insert [LawfulFormat H] {α : Type} [Encodable H α]
    (a : α) {kind : EntryKind} (hkind : kind ≠ .tree)
    {path : String} {parts : List String} (hparts : splitPath path = .ok parts) {w : World H}
    (hrel : w.env.Reliable) (hi : w.repo.objects.Intact) {root : H}
    (hwhole : Whole w.repo.objects root) :
    EditsMap (do
      let parts ← fromExcept (splitPath path)
      let target ← storeObject a
      rewriteInsert target kind .REGULAR root parts) w (Passable w.repo.objects root parts)
      fun s' root' => Whole s' root' ∧ ∃ entry : TreeEntry H, entry.kind = kind ∧
        entry.target = (encode H a).hash H ∧ PutAt w.repo.objects s' root root' parts entry := by
  obtain ⟨hne, hvalid⟩ := splitPath_valid hparts
  apply EditsMap.of_post
  rw [hparts, post_bind, post_fromExcept]
  refine ⟨?_, fun e he => by cases he⟩
  rintro parts ⟨⟩
  rw [post_bind]
  refine storeObject_spec (fun w₁ hq₁ _ => ?_)
    (fun e w₁ _ _ hf => absurd hf (hrel.not_fault e))
  -- storing the payload does not change the map
  have heq := hwhole.entryAt_eq hq₁.le
  have hpass : Passable w₁.repo.objects root parts ↔ Passable w.repo.objects root parts := by
    simp only [Passable, heq]
  refine (rewriteInsert_exact hkind (hq₁.intact hi) (hwhole.mono hq₁.le) hne
    hvalid).mono (fun root' w₂ h₂ => ?_)
    (fun e w₂ hno => mt hpass.mpr (hno (hq₁.env ▸ hrel)))
  obtain ⟨hq₂, hpass₂, hwhole₂, hput⟩ := h₂
  refine ⟨hpass.mp hpass₂, hwhole₂, ⟨parts.getLastD "", kind, (encode H a).hash H, .REGULAR, none⟩,
    rfl, rfl, ?_⟩
  exact ⟨hput.put, hput.above, hput.below, fun path hab hbe => by
    rw [hput.others path hab hbe, heq]⟩

/-- **Edits of a path** of a whole tree. A file or a sealed object can be written exactly when
nothing above the path is anything but a directory, and is then put there; there can be something
deleted exactly when there is something, and it is then removed, with the directories above it
that this empties. -/
theorem pathEdits_exact [LawfulFormat H] {path : String} {parts : List String}
    (hparts : splitPath path = .ok parts) {w : World H} (hrel : w.env.Reliable)
    (hi : w.repo.objects.Intact) {root : H} (hwhole : Whole w.repo.objects root) :
    (∀ bytes : Bytes, EditsMap (writeBlobAtPath root path bytes) w
      (Passable w.repo.objects root parts) fun s' root' =>
        Whole s' root' ∧ ∃ entry : TreeEntry H, entry.kind = .file ∧
          entry.target = (encode H (Blob.mk bytes)).hash H ∧
          PutAt w.repo.objects s' root root' parts entry) ∧
    (∀ sealed : Sealed, EditsMap (writeSealedAtPath root path sealed) w
      (Passable w.repo.objects root parts) fun s' root' =>
        Whole s' root' ∧ ∃ entry : TreeEntry H, entry.kind = .sealed ∧
          entry.target = (encode H sealed).hash H ∧
          PutAt w.repo.objects s' root root' parts entry) ∧
    EditsMap (deleteAtPath root path) w
      (∃ entry, entryAt w.repo.objects root parts = some entry) fun s' root' =>
        Whole s' root' ∧ RemovedAt w.repo.objects s' root root' parts := by
  refine ⟨fun bytes => ?_, fun sealed => ?_, ?_⟩
  · exact editsMap_insert (Blob.mk bytes) (by decide) hparts hrel hi hwhole
  · exact editsMap_insert sealed (by decide) hparts hrel hi hwhole
  · obtain ⟨hne, hvalid⟩ := splitPath_valid hparts
    apply EditsMap.of_post
    rw [deleteAtPath, hparts, post_bind, post_fromExcept]
    refine ⟨?_, fun e he => by cases he⟩
    rintro parts ⟨⟩
    apply (rewriteRemove_exact hrel hi hwhole hne hvalid).mono
    · exact fun root' w₁ h₁ => ⟨h₁.2.1, h₁.2.2.1, h₁.2.2.2⟩
    · rintro e w₁ hnone ⟨entry, hentry⟩
      rw [hnone] at hentry
      cases hentry

namespace EmptyRoot

/-- The hash of the empty tree. -/
def root : PlainHash := (encode PlainHash (Tree.new : Tree PlainHash)).hash PlainHash

/-- A repository that has stored the empty tree. -/
def world : World PlainHash :=
  (World.fresh .calm).setObjects
    ((∅ : ObjectStore PlainHash).put (encode PlainHash (Tree.new : Tree PlainHash)))

theorem load_root : world.repo.objects.load root = .ok (Tree.new : Tree PlainHash) :=
  ObjectStore.load_put LawfulFormat.tree ObjectStore.intact_empty _

end EmptyRoot

/-- A file can be written below a directory that is not there yet. -/
theorem pathEdits_emptyRoot :
    ∃ root' w', writeBlobAtPath EmptyRoot.root "src/main.rs" [] EmptyRoot.world = .ok root' w' ∧
      ∃ entry, entryAt w'.repo.objects root' ["src", "main.rs"] = some entry ∧
        entry.kind = .file := by
  have hparts : splitPath "src/main.rs" = .ok ["src", "main.rs"] := by decide
  have hedits := (pathEdits_exact hparts (w := EmptyRoot.world) Env.calm_reliable
    (ObjectStore.intact_empty.put _) (.new EmptyRoot.load_root)).1 []
  have hpass : Passable EmptyRoot.world.repo.objects EmptyRoot.root ["src", "main.rs"] := by
    intro path _ _ e he
    rw [entryAt_of_isEmpty EmptyRoot.load_root rfl] at he
    cases he
  obtain ⟨root', w', hrun⟩ := hedits.succeeds_iff.mpr hpass
  obtain ⟨-, entry, hkind, -, hput⟩ := hedits.made root' w' hrun
  exact ⟨root', w', hrun, entry, hput.put, hkind⟩

end Tig
