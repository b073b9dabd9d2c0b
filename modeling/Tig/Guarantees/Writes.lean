import Tig.Core.Plain
import Tig.Fs.PathMap

set_option relaxedAutoImplicit false
set_option autoImplicit false

/-!
# What a write leaves alone

A write makes the entry at its path and those of the directories above it anew. So it is not only
the content at the path that changes: mode and visibility tag of these entries are forgotten, and
what lay below the path, if it named a directory, is gone.

## Main definitions

* `Tig.ChangesContentOnly` — nothing but the content at the path has changed.
* `Tig.PlainWay` — there is nothing at the path, or above it, or below it that a write would lose.

## Main results

* `Tig.writeBlobAtPath_changesContentOnly_iff` — when a write changes nothing but the content at its
  path.
-/

namespace Tig

open Program

variable {H : Type} [LinearOrder H] [Format H]

/-- Files, symlinks and sealed objects hold content themselves. -/
def EntryKind.holdsContent : EntryKind → Bool
  | .file | .symlink | .sealed => true
  | .tree | .conflict | .submodule => false

/-- From one tree to the other, nothing but the content at the path has changed. -/
structure ChangesContentOnly (s s' : ObjectStore H) (tree tree' : H) (parts : List String) :
    Prop where
  /-- Every other path that names some content names the same. -/
  others : ∀ path e, path ≠ parts → e.kind.holdsContent = true →
    entryAt s tree path = some e → entryAt s' tree' path = some e
  /-- A file at the path differs in its target only. -/
  file : ∀ e, entryAt s tree parts = some e → e.kind = .file →
    ∃ target, entryAt s' tree' parts = some { e with target := target }
  /-- The directories above the path keep mode and visibility tag. -/
  above : ∀ path e, path <+: parts → path ≠ parts → entryAt s tree path = some e →
    ∃ e', entryAt s' tree' path = some e' ∧ e'.mode = e.mode ∧ e'.vis = e.vis

/-- There is nothing below the path that names some content, a file at the path is a regular one
without a tag, and the directories above it have the mode of directories and no tags. -/
structure PlainWay (s : ObjectStore H) (tree : H) (parts : List String) : Prop where
  below : ∀ path e, parts <+: path → path ≠ parts → entryAt s tree path = some e →
    e.kind.holdsContent = false
  file : ∀ e, entryAt s tree parts = some e → e.kind = .file → e.mode = .REGULAR ∧ e.vis = none
  above : ∀ path e, path <+: parts → path ≠ parts → entryAt s tree path = some e →
    e.mode = .DIR ∧ e.vis = none

/-- The entry at a path has the last component of the path as its name. -/
theorem name_of_entryAt {s : ObjectStore H} {tree : H} {parts : List String} {e : TreeEntry H}
    (h : entryAt s tree parts = some e) : e.name = parts.getLastD "" := by
  induction parts generalizing tree with
  | nil => cases h
  | cons name rest ih =>
    cases ht : (s.load tree : Except Error (Tree H)) with
    | error err => simp [entryAt, ht] at h
    | ok t =>
      rw [entryAt_cons ht, Option.bind_eq_some_iff] at h
      obtain ⟨sub, hsub, h⟩ := h
      split_ifs at h with hrest hk
      · rw [← Option.some.inj h, hrest]
        exact name_of_findEntry hsub
      · rw [ih h]
        cases rest with
        | nil => exact absurd rfl hrest
        | cons next rest => rw [List.getLastD_cons, List.getLastD_cons, List.getLastD_cons]

variable {s s' : ObjectStore H} {tree tree' target : H} {parts : List String}

/-- **A regular file put at a path** changes only the content there exactly when the way to it is
plain. -/
theorem changesContentOnly_iff (hpass : Passable s tree parts)
    (hput : PutAt s s' tree tree' parts ⟨parts.getLastD "", .file, target, .REGULAR, none⟩)
    (hdirs : PlainDirs s' tree' parts) :
    ChangesContentOnly s s' tree tree' parts ↔ PlainWay s tree parts := by
  constructor
  · intro h
    constructor
    · intro path e hbe hne he
      by_contra hcontent
      rw [Bool.not_eq_false] at hcontent
      have hkept := h.others path e hne hcontent he
      rw [hput.below path hbe hne] at hkept
      cases hkept
    · intro e he hk
      obtain ⟨target', hnew⟩ := h.file e he hk
      have hentry := Option.some.inj (hput.put.symm.trans hnew)
      exact ⟨(congrArg TreeEntry.mode hentry).symm, (congrArg TreeEntry.vis hentry).symm⟩
    · intro path e hpre hne he
      obtain ⟨e', hnew, hmode, hvis⟩ := h.above path e hpre hne he
      have hnil : path ≠ [] := by
        rintro rfl
        cases he
      obtain ⟨dir, hdir, -, hdmode, hdvis⟩ := hdirs path hnil hpre hne
      obtain rfl := Option.some.inj (hdir.symm.trans hnew)
      exact ⟨hmode.symm.trans hdmode, hvis.symm.trans hdvis⟩
  · intro h
    constructor
    · intro path e hne hcontent he
      by_cases hpre : path <+: parts
      · -- what lies above the path is a directory
        rw [hpass path hpre hne e he] at hcontent
        cases hcontent
      · by_cases hbe : parts <+: path
        · rw [h.below path e hbe hne he] at hcontent
          cases hcontent
        · rw [hput.others path hpre hbe, he]
    · intro e he hk
      obtain ⟨hmode, hvis⟩ := h.file e he hk
      refine ⟨target, ?_⟩
      rw [hput.put, ← name_of_entryAt he, ← hk, ← hmode, ← hvis]
    · intro path e hpre hne he
      obtain ⟨hmode, hvis⟩ := h.above path e hpre hne he
      have hnil : path ≠ [] := by
        rintro rfl
        cases he
      obtain ⟨dir, hdir, -, hdmode, hdvis⟩ := hdirs path hnil hpre hne
      exact ⟨dir, hdir, hdmode.trans hmode.symm, hdvis.trans hvis.symm⟩

/-- What a successful write makes of a whole tree. -/
theorem writeBlobAtPath_made [LawfulFormat H] {path : String} {bytes : Bytes}
    (hparts : splitPath path = .ok parts) {w w' : World H} (hi : w.repo.objects.Intact)
    (hwhole : Whole w.repo.objects tree) (hrun : writeBlobAtPath tree path bytes w = .ok tree' w') :
    Passable w.repo.objects tree parts ∧
      PutAt w.repo.objects w'.repo.objects tree tree' parts
        ⟨parts.getLastD "", .file, (encode H (Blob.mk bytes)).hash H, .REGULAR, none⟩ ∧
      PlainDirs w'.repo.objects tree' parts := by
  obtain ⟨hne, hvalid⟩ := splitPath_valid hparts
  have hpost : Post (writeBlobAtPath tree path bytes) w
      (fun tree' w' => Passable w.repo.objects tree parts ∧
        PutAt w.repo.objects w'.repo.objects tree tree' parts
          ⟨parts.getLastD "", .file, (encode H (Blob.mk bytes)).hash H, .REGULAR, none⟩ ∧
        PlainDirs w'.repo.objects tree' parts)
      (fun _ _ => True) := by
    rw [writeBlobAtPath, hparts, post_bind, post_fromExcept]
    refine ⟨?_, fun _ _ => trivial⟩
    rintro parts ⟨⟩
    rw [post_bind]
    refine storeObject_spec (fun w₁ hq₁ _ => ?_) (fun _ _ _ _ _ => trivial)
    have hi₁ := hq₁.intact hi
    -- storing the payload does not change what the tree has
    have heq := hwhole.entryAt_eq hq₁.le
    have hdirs : Post (rewriteInsert ((encode H (Blob.mk bytes)).hash H) .file .REGULAR tree parts)
        w₁ (fun tree' w' => PlainDirs w'.repo.objects tree' parts) (fun _ _ => True) :=
      rewriteInsert_spec (fun _ _ hg => (hg.stored hi₁).2.2) (fun _ _ _ => trivial)
    refine ((rewriteInsert_exact (by decide) hi₁ (hwhole.mono hq₁.le) hne hvalid).and hdirs).mono
      ?_ (fun _ _ _ => trivial)
    rintro tree' w₂ ⟨⟨-, hpass, -, hput⟩, hdirs⟩
    refine ⟨?_, ⟨hput.put, hput.above, hput.below, fun path hab hbe => ?_⟩, hdirs⟩
    · intro path hpre hne' e he
      exact hpass path hpre hne' e ((heq path).trans he)
    · rw [hput.others path hab hbe, heq]
  exact hpost.ok hrun

/-- **A write changes nothing but the content at its path** exactly when the way to the path is
plain. -/
theorem writeBlobAtPath_changesContentOnly_iff [LawfulFormat H] {path : String} {bytes : Bytes}
    (hparts : splitPath path = .ok parts) {w w' : World H} (hi : w.repo.objects.Intact)
    (hwhole : Whole w.repo.objects tree) (hrun : writeBlobAtPath tree path bytes w = .ok tree' w') :
    ChangesContentOnly w.repo.objects w'.repo.objects tree tree' parts ↔
      PlainWay w.repo.objects tree parts := by
  obtain ⟨hpass, hput, hdirs⟩ := writeBlobAtPath_made hparts hi hwhole hrun
  exact changesContentOnly_iff hpass hput hdirs

/-! ## A script that is written to -/

namespace WrittenScript

/-- A file with a mode. -/
def script (mode : FileMode) : TreeEntry PlainHash :=
  ⟨"run", .file, (encode PlainHash (Blob.mk [97])).hash PlainHash, mode, none⟩

/-- A directory with that file. -/
def root (mode : FileMode) : Tree PlainHash := ⟨[script mode]⟩

/-- A repository in which it is stored. -/
def world (mode : FileMode) : World PlainHash :=
  (World.fresh .calm).setObjects (((∅ : ObjectStore PlainHash).put (encode PlainHash (Blob.mk [97]))).put
    (encode PlainHash (root mode)))

/-- What the root is called. -/
def rootHash (mode : FileMode) : PlainHash := (encode PlainHash (root mode)).hash PlainHash

theorem intact (mode : FileMode) : (world mode).repo.objects.Intact :=
  ((ObjectStore.intact_empty).put _).put _

theorem load_root (mode : FileMode) : (world mode).repo.objects.load (rootHash mode) =
    .ok (root mode) :=
  ObjectStore.load_put LawfulFormat.tree (ObjectStore.intact_empty.put _) _

theorem whole (mode : FileMode) : Whole (world mode).repo.objects (rootHash mode) := by
  refine .mk _ _ (load_root mode) (List.pairwise_singleton _ _) fun e he hk => ?_
  obtain rfl := List.mem_singleton.mp he
  cases hk

/-- What the root has at a path. -/
theorem entryAt_root (mode : FileMode) (name : String) (rest : List String) :
    entryAt (world mode).repo.objects (rootHash mode) (name :: rest) =
      if name = "run" ∧ rest = [] then some (script mode) else none := by
  have hget : (root mode).get name = if name = "run" then some (script mode) else none :=
    findEntry_upsertEntry (script mode) [] name
  rw [entryAt_cons (load_root mode), hget]
  have hfile : (script mode).kind ≠ .tree := fun h => EntryKind.noConfusion h
  by_cases hname : name = "run"
  · rw [if_pos hname, Option.bind_some, if_neg hfile]
    exact if_congr (by simp [hname]) rfl rfl
  · rw [if_neg hname, if_neg fun h => hname h.1, Option.bind_none]

set_option maxRecDepth 1000000 in
/-- The write succeeds. -/
theorem written (mode : FileMode) (hmode : mode = .REGULAR ∨ mode = .EXEC) : ∃ tree' w',
    writeBlobAtPath (rootHash mode) "run" [98] (world mode) = .ok tree' w' := by
  rcases hmode with rfl | rfl
  · exact ⟨_, _, rfl⟩
  · exact ⟨_, _, rfl⟩

end WrittenScript

open WrittenScript in
/-- A write to a regular file. -/
theorem writeBlobAtPath_regular : ∃ tree' w',
    writeBlobAtPath (rootHash .REGULAR) "run" [98] (world .REGULAR) = .ok tree' w' ∧
      ChangesContentOnly (world .REGULAR).repo.objects w'.repo.objects (rootHash .REGULAR) tree'
        ["run"] := by
  obtain ⟨tree', w', hrun⟩ := written .REGULAR (Or.inl rfl)
  refine ⟨tree', w', hrun, (writeBlobAtPath_changesContentOnly_iff (by decide) (intact _) (whole _)
    hrun).mpr ⟨?_, ?_, ?_⟩⟩
  · intro path e hpre hne he
    cases path with
    | nil => cases he
    | cons name rest =>
      rw [entryAt_root] at he
      split_ifs at he with h
      exact absurd (by rw [h.1, h.2]) hne
  · intro e he _
    rw [entryAt_root, if_pos ⟨rfl, rfl⟩] at he
    obtain rfl := Option.some.inj he
    exact ⟨rfl, rfl⟩
  · intro path e hpre hne he
    cases path with
    | nil => cases he
    | cons name rest =>
      obtain ⟨rfl, hrest⟩ := List.cons_prefix_cons.mp hpre
      exact absurd (by rw [List.prefix_nil.mp hrest]) hne

open WrittenScript in
/-- A script that is written to is no longer executable. -/
theorem not_changesContentOnly : ∃ tree' w',
    writeBlobAtPath (rootHash .EXEC) "run" [98] (world .EXEC) = .ok tree' w' ∧
      ¬ ChangesContentOnly (world .EXEC).repo.objects w'.repo.objects (rootHash .EXEC) tree'
        ["run"] := by
  obtain ⟨tree', w', hrun⟩ := written .EXEC (Or.inr rfl)
  refine ⟨tree', w', hrun, fun h => ?_⟩
  obtain ⟨-, hput, -⟩ := writeBlobAtPath_made (show splitPath "run" = .ok ["run"] by decide) (intact _)
    (whole _) hrun
  obtain ⟨target, hfile⟩ := h.file (script .EXEC) ((entryAt_root _ _ _).trans (if_pos ⟨rfl, rfl⟩)) rfl
  have hmode : FileMode.REGULAR = FileMode.EXEC :=
    congrArg TreeEntry.mode (Option.some.inj (hput.put.symm.trans hfile))
  exact absurd hmode (by decide)

end Tig
