import Tig.Core.Plain
import Tig.Fs.Restore
import Tig.Fs.Seen

set_option relaxedAutoImplicit false
set_option autoImplicit false

/-!
# What a restore removes

Before a restore that is not forced clears a directory, it compares what a scan sees with the current
snapshot. The scan skips names at every depth, the clearing keeps names at the top only. What lies
below a skipped name further down is removed without having been looked at.

## Main definitions

* `Tig.RemovesFile` — a restore removes a file.
* `Tig.RemovesOnlyRecorded` — whatever a restore removes can be recovered.
* `Tig.Overlooked` — a path that is cleared but not scanned.

## Main results

* `Tig.removesOnlyRecorded_iff` — when everything that a restore removes can be recovered.
-/

namespace Tig

open Program

variable {H : Type} [LinearOrder H] [Format H]

/-! ## Passing the checks -/

/-- A restore that is not forced gets past its checks only in a directory that is scanned to the tree
of the current snapshot. -/
theorem restoreChecks_clean [LawfulFormat H] {depth : Nat} {opts : RestoreOptions} {workdir : String}
    {copy : WorkingCopy} {targetSnapshot currentSnapshot : H} {w : World H}
    (hforce : opts.force = false) (hi : w.repo.objects.Intact) :
    Post (restoreChecks depth opts workdir copy targetSnapshot currentSnapshot) w
      (fun _ w' => ∃ (snap : Snapshot H) (tree : Tree H),
        w'.repo.objects.load currentSnapshot = .ok snap ∧
        recordTree defaultIgnore copy = some tree ∧ snap.tree = (encode H tree).hash H ∧
        CopyStoredIn w'.repo.objects defaultIgnore copy)
      (fun _ _ => True) := by
  rw [restoreChecks, post_bind]
  refine loadObject_spec (fun target w₁ _ hr₁ _ => ?_) (fun _ _ _ _ _ => trivial)
  rw [post_bind]
  have hsealed : Post (refuseSealed depth opts target.tree) w₁ (fun _ w₂ => w₂.repo = w₁.repo)
      (fun _ _ => True) := by
    rw [refuseSealed, post_ite]
    refine ⟨fun _ => ?_, fun _ => rfl⟩
    rw [post_bind]
    refine step_spec (by simp [FsStep.Mutates]) (fun w₂ _ hr₂ => ?_) (fun _ _ _ _ _ => trivial)
    rw [post_bind, post_get, post_bind, post_fromExcept]
    refine ⟨fun paths _ => ?_, fun _ _ => trivial⟩
    rw [post_ite]
    exact ⟨fun _ => hr₂, fun _ => trivial⟩
  refine hsealed.mono (fun _ w₂ hr₂ => ?_) (fun _ _ _ => trivial)
  have hi₂ : w₂.repo.objects.Intact := by
    rw [hr₂, hr₁]
    exact hi
  rw [post_bind, refuseDirty, if_neg (by simp [hforce]), post_bind]
  refine scan_spec (fun tree w₃ hg₃ htree => ?_) (fun _ _ _ _ => trivial)
  rw [post_bind]
  refine loadObject_spec (fun snap w₄ _ hr₄ hsnap => ?_) (fun _ _ _ _ _ => trivial)
  rw [post_ite]
  refine ⟨fun heq => ?_, fun _ => trivial⟩
  rw [post_pure, post_pure, hr₄]
  exact ⟨snap, tree, hsnap, htree, heq.symm, hg₃.stored hi₂⟩

/-! ## Removed files -/

section Restore

variable (depth : Nat) (opts : RestoreOptions) (workdir : String) (targetSnapshot currentSnapshot : H)
  (σ : Site H)

/-- A restore here removes the file at `path`: the checks pass, and then clearing takes it away. -/
def RemovesFile (path : List Bytes) (bytes : Bytes) : Prop :=
  (∃ executable, shapeAt σ.copy path = some (.file bytes executable)) ∧
    (∃ target w, restoreChecks depth opts workdir σ.copy targetSnapshot currentSnapshot σ.world =
      .ok target w) ∧
    shapeAt (final clearWorkdir σ.copy) path = none

/-- Each file that a restore here removes is in the tree of the current snapshot, with its bytes; once
the checks have passed, all of that is in the store. -/
def RemovesOnlyRecorded : Prop :=
  ∀ path bytes, RemovesFile depth opts workdir targetSnapshot currentSnapshot σ path bytes →
    ∀ target w, restoreChecks depth opts workdir σ.copy targetSnapshot currentSnapshot σ.world =
      .ok target w →
    ∃ (snap : Snapshot H) (names : List String) (entry : TreeEntry H),
      w.repo.objects.load currentSnapshot = .ok snap ∧ path = names.map Utf8.encode ∧
      entryAt w.repo.objects snap.tree names = some entry ∧ entry.kind = .file ∧
      w.repo.objects.load entry.target = .ok (Blob.mk bytes)

/-- The path is cleared, and below the top it goes through a name that scans skip. -/
def Overlooked (path : List Bytes) : Prop :=
  ∃ name rest, path = name :: rest ∧ isProtected name = false ∧
    ∃ n ∈ defaultIgnore, Utf8.encode n ∈ rest

variable {depth opts workdir targetSnapshot currentSnapshot σ}

/-- **Everything that a restore removes can be recovered** exactly when, if its checks pass, no file
lies at a path that is cleared but not scanned. -/
theorem removesOnlyRecorded_iff [LawfulFormat H] (hdistinct : DistinctBelow σ.copy)
    (hi : σ.world.repo.objects.Intact) (hforce : opts.force = false) :
    RemovesOnlyRecorded depth opts workdir targetSnapshot currentSnapshot σ ↔
      ∀ target w, restoreChecks depth opts workdir σ.copy targetSnapshot currentSnapshot σ.world =
          .ok target w →
        ∀ path bytes executable, shapeAt σ.copy path = some (.file bytes executable) →
          ¬ Overlooked path := by
  have hclean : Post (restoreChecks depth opts workdir σ.copy targetSnapshot currentSnapshot) σ.world
      _ _ := restoreChecks_clean hforce hi
  constructor
  · intro h target w hchecks path bytes executable hfile hover
    obtain ⟨name, rest, rfl, hname, n, hn, hmem⟩ := hover
    have hgone : shapeAt (final clearWorkdir σ.copy) (name :: rest) = none :=
      (shapeAt_protectedPart σ.copy name rest).trans (by simp [hname])
    obtain ⟨snap, names, entry, hsnap, hpath, hentry, -, -⟩ :=
      h _ bytes ⟨⟨executable, hfile⟩, ⟨target, w, hchecks⟩, hgone⟩ target w hchecks
    obtain ⟨snap', tree, hsnap', htree, hroot, hstored⟩ := hclean.ok hchecks
    obtain rfl : snap = snap' := Except.ok.inj (hsnap.symm.trans hsnap')
    rw [hroot, entryAt_recordTree htree hstored, Option.bind_eq_some_iff] at hentry
    obtain ⟨node, hnode, -⟩ := hentry
    -- the skipped name is one of the names that a scan has seen
    have hin : Utf8.encode n ∈ names.map Utf8.encode := hpath ▸ List.mem_cons_of_mem name hmem
    obtain ⟨n', hn', heq⟩ := List.mem_map.mp hin
    obtain rfl := Utf8.encode_injective heq
    exact not_ignored_of_nodeAt hnode n' hn' hn
  · rintro h path bytes ⟨⟨executable, hfile⟩, -, hgone⟩ target w hchecks
    obtain ⟨snap, tree, hsnap, htree, hroot, hstored⟩ := hclean.ok hchecks
    have hseen := h target w hchecks path bytes executable hfile
    have hskip : ∀ n ∈ defaultIgnore, Utf8.encode n ∉ path := by
      intro n hn hmem
      cases path with
      | nil => cases hfile
      | cons name rest =>
        have hcleared := (shapeAt_protectedPart σ.copy name rest).symm.trans hgone
        have hname : isProtected name = false := by
          by_contra hp
          rw [Bool.not_eq_false] at hp
          rw [if_pos hp, hfile] at hcleared
          cases hcleared
        refine hseen ⟨name, rest, rfl, hname, n, hn, ?_⟩
        rcases List.mem_cons.mp hmem with heq | hmem
        · rw [← heq, isProtected_of_ignored hn] at hname
          cases hname
        · exact hmem
    obtain ⟨names, rfl, hnames⟩ := text_of_shapeAt htree (by simp [hfile]) hskip
    rw [shapeAt_map_encode hdistinct hnames, Option.map_eq_some_iff] at hfile
    obtain ⟨node, hnode, hshape⟩ := hfile
    cases node with
    | file bytes' executable' =>
      obtain ⟨rfl, rfl⟩ := Shape.file.inj hshape
      have hload := (nodeAt_stored htree hstored.1 hnode).2
      have hentry := entryAt_recordTree htree hstored names
      rw [hnode, Option.bind_some, Node.record, ← hroot] at hentry
      exact ⟨snap, names, _, hsnap, rfl, hentry, rfl, hload⟩
    | dir children => cases hshape
    | symlink target => cases hshape
    | other kind => cases hshape

end Restore

/-! ## A directory of a repository further down -/

namespace NestedTig

/-- A directory `sub` with the given children, next to a file. -/
def copy (children : WorkingCopy) : WorkingCopy :=
  [(Utf8.encode "a", .file [97] false), (Utf8.encode "sub", .dir children)]

/-- What a scan makes of `sub`, if it sees nothing there. -/
def sub : Tree PlainHash := .new

/-- What a scan makes of the whole. -/
def tree : Tree PlainHash :=
  ⟨[⟨"a", .file, (encode PlainHash (Blob.mk [97])).hash PlainHash, .REGULAR, none⟩,
    ⟨"sub", .tree, (encode PlainHash sub).hash PlainHash, .DIR, none⟩]⟩

/-- A snapshot of that. -/
def snapshot : Snapshot PlainHash :=
  ⟨[], (encode PlainHash tree).hash PlainHash, "local:alice", 0, none, none⟩

def store : ObjectStore PlainHash :=
  ((((∅ : ObjectStore PlainHash).put (encode PlainHash (Blob.mk [97]))).put
    (encode PlainHash sub)).put (encode PlainHash tree)).put (encode PlainHash snapshot)

/-- A repository with the snapshot, and the directory. -/
def site (children : WorkingCopy) : Site PlainHash :=
  ⟨(World.fresh .calm).setObjects store, copy children⟩

/-- What the snapshot is called. -/
def target : PlainHash := (encode PlainHash snapshot).hash PlainHash

/-- `tig restore`. -/
def options : RestoreOptions := ⟨false, ⟨none, .error⟩⟩

/-- A restore to the snapshot that is current. -/
def Recovers (children : WorkingCopy) : Prop :=
  RemovesOnlyRecorded 8 options "/repo" target target (site children)

/-- The checks pass. -/
def Passes (children : WorkingCopy) : Prop :=
  ∃ w, restoreChecks 8 options "/repo" (copy children) target target (site children).world =
    .ok snapshot w

theorem intact (children : WorkingCopy) : (site children).world.repo.objects.Intact :=
  ((((ObjectStore.intact_empty).put _).put _).put _).put _

/-- The children of the directory that are directories. -/
theorem childOf_copy {name : Bytes} {children dir : WorkingCopy}
    (h : childOf name (copy children) = some (.dir dir)) : dir = children := by
  rw [copy, childOf, childOf] at h
  split_ifs at h
  · cases h
  · exact (Node.dir.inj (Option.some.inj h)).symm
  · cases h

theorem distinct : DistinctBelow (copy []) := by
  have hnames : DistinctNames (copy []) :=
    List.nodup_cons.mpr ⟨by decide, List.nodup_singleton _⟩
  refine distinctBelow_of_children hnames fun name children h => ?_
  rw [childOf_copy h]
  exact distinctBelow_of_children List.nodup_nil fun _ _ hc => by cases hc

end NestedTig

set_option maxRecDepth 1000000 in
open NestedTig in
/-- A file at the top can be recovered. -/
theorem removesOnlyRecorded_plain : Passes [] ∧ Recovers [] := by
  refine ⟨⟨_, rfl⟩, (removesOnlyRecorded_iff distinct (intact []) rfl).mpr ?_⟩
  rintro _ _ - path bytes executable hfile ⟨name, rest, rfl, -, n, -, hmem⟩
  -- there is nothing in `sub`
  cases rest with
  | nil => cases hmem
  | cons next rest =>
    change shapeAt (copy []) (name :: next :: rest) = _ at hfile
    rw [shapeAt] at hfile
    cases hc : childOf name (copy []) with
    | none =>
      rw [hc] at hfile
      cases hfile
    | some node =>
      rw [hc] at hfile
      cases node with
      | dir dir =>
        rw [childOf_copy hc] at hfile
        cases rest <;> cases hfile
      | file contents mode => cases hfile
      | symlink link => cases hfile
      | other kind => cases hfile

set_option maxRecDepth 1000000 in
open NestedTig in
/-- What lies in `sub/.tig` is gone. -/
theorem not_removesOnlyRecorded :
    Passes [(Utf8.encode ".tig", .dir [(Utf8.encode "f", .file [1] false)])] ∧
      ¬ Recovers [(Utf8.encode ".tig", .dir [(Utf8.encode "f", .file [1] false)])] := by
  have hpasses : Passes [(Utf8.encode ".tig", .dir [(Utf8.encode "f", .file [1] false)])] := ⟨_, rfl⟩
  refine ⟨hpasses, fun h => ?_⟩
  obtain ⟨w, hw⟩ := hpasses
  obtain ⟨snap, names, entry, hsnap, hpath, hentry, -⟩ :=
    h (["sub", ".tig", "f"].map Utf8.encode) [1]
      ⟨⟨false, rfl⟩, ⟨snapshot, w, hw⟩, rfl⟩ snapshot w hw
  have hinj : Function.Injective Utf8.encode := fun _ _ => Utf8.encode_injective
  obtain rfl := List.map_injective_iff.mpr hinj hpath
  cases hw
  cases hsnap
  cases hentry

end Tig
