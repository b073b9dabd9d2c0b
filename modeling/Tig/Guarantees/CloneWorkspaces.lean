import Tig.Cli.Worktrees
import Tig.Core.Plain
import Tig.Fs.Rescan

set_option relaxedAutoImplicit false
set_option autoImplicit false

/-!
# Workspaces made by cloning

A workspace made without an identity is a clone of the directory of the workspace that the command
is run in, whatever lies there. It is a checkout of the change only if that directory is one.

## Main definitions

* `Tig.IsCheckout` — files that materializing a change would make.

## Main results

* `Tig.cmdWtMakeOn_isCheckout_iff` — when a cloned workspace is a checkout of its change.
-/

namespace Tig

open Program

variable {H : Type} [LinearOrder H] [Format H]

/-- The files are what materializing the current snapshot of the change of `m` would make in the
place of `m`, and a scan of them makes the tree of that snapshot. -/
def IsCheckout (fs : FileSystem) (σ : Site H) (m : WorkspaceManifest) (files : WorkingCopy) : Prop :=
  ∃ change, σ.world.repo.refs.changes.lookup m.changeId = some change ∧
    ∃ snapshot : Snapshot H, σ.world.repo.objects.load change.1.current = .ok snapshot ∧
      (∃ disk rendered, materializeChangeOn fs σ.world.repo.objects ⟨none, .error⟩ m.location
          change.1.current σ.copy = .ok () disk ∧
        dirAt disk (fs.locate m.location) = some rendered ∧ SameContents files rendered) ∧
      ∃ tree : Tree H, recordTree defaultIgnore files = some tree ∧
        (encode H tree).hash H = snapshot.tree

/-- The directory without its marker. -/
def withoutMarker (dir : WorkingCopy) : WorkingCopy :=
  dir.filter fun child => child.1 ≠ Utf8.encode MARKER_FILE

theorem childOf_withoutMarker (n : Bytes) (dir : WorkingCopy) :
    childOf n (withoutMarker dir) = if n = Utf8.encode MARKER_FILE then none else childOf n dir := by
  induction dir with
  | nil => exact (ite_self none).symm
  | cons child rest ih =>
    obtain ⟨name, node⟩ := child
    by_cases hname : name = Utf8.encode MARKER_FILE
    · rw [withoutMarker, List.filter_cons_of_neg (by simpa using hname), childOf]
      refine ih.trans ?_
      by_cases hn : n = Utf8.encode MARKER_FILE
      · rw [if_pos hn, if_pos hn]
      · rw [if_neg hn, if_neg hn, if_neg]
        intro h
        exact hn (h.symm.trans hname)
    · rw [withoutMarker, List.filter_cons_of_pos (by simpa using hname), childOf, childOf]
      by_cases hn : name = n
      · rw [if_pos hn, if_pos hn, if_neg]
        intro h
        exact hname (hn.trans h)
      · rw [if_neg hn, if_neg hn]
        exact ih

theorem DistinctNames.withoutMarker {dir : WorkingCopy} (h : DistinctNames dir) :
    DistinctNames (withoutMarker dir) :=
  h.sublist (List.filter_sublist.map Prod.fst)

/-- Only what is found under each name matters. -/
theorem IsCheckout.congr {fs : FileSystem} {σ : Site H} {m : WorkspaceManifest}
    {files files' : WorkingCopy} (hd : DistinctNames files) (hd' : DistinctNames files')
    (hlook : ∀ n, childOf n files' = childOf n files) (h : IsCheckout fs σ m files) :
    IsCheckout fs σ m files' := by
  obtain ⟨change, hchange, snapshot, hsnapshot, ⟨disk, rendered, hrun, hrendered, hsame⟩, tree,
    htree, hhash⟩ := h
  refine ⟨change, hchange, snapshot, hsnapshot, ⟨disk, rendered, hrun, hrendered, ?_⟩, tree, ?_,
    hhash⟩
  · exact fun path => (shapeAt_congr hlook path).trans (hsame path)
  · exact recordTree_congr hd hd' hlook htree

/-- What a clone has, apart from its marker, is what is cloned of the donor. -/
theorem ClonedWorkspace.isCheckout_iff {fs : FileSystem} {σ : Site H} {m : WorkspaceManifest}
    {donor files : WorkingCopy} (h : ClonedWorkspace fs m.id donor files) :
    IsCheckout fs σ m (withoutMarker files) ↔ IsCheckout fs σ m (userFiles donor) := by
  have hlook : ∀ n, childOf n (withoutMarker files) = childOf n (userFiles donor) := by
    intro n
    rw [childOf_withoutMarker, h.look]
    split_ifs with hn
    · rw [hn]
      exact (childOf_userFiles_internal (by decide) donor).symm
    · rfl
  have hd := h.distinct.withoutMarker
  exact ⟨.congr hd h.donor fun n => (hlook n).symm, .congr h.donor hd hlook⟩

/-- **A workspace made without an identity** is a checkout of its change exactly when the directory
it was made from is one, apart from what is internal there. -/
theorem cmdWtMakeOn_isCheckout_iff {fs : FileSystem} {inv : Invocation} {name : String}
    {atPath : Option String} {σ σ' : Site H} {m : WorkspaceManifest}
    (h : cmdWtMakeOn fs inv name atPath (.ok none) σ = .ok m σ') :
    ∃ source w, discoverWorkspace inv.repoWorkdir inv.place σ.world = .ok source w ∧
      source.current σ.world.repo.refs = some m.changeId ∧
      ∀ donor, dirAt σ.copy (fs.locate source.workdir) = some donor →
        ∃ files, dirAt σ'.copy (fs.locate m.location) = some files ∧
          (IsCheckout fs σ m (withoutMarker files) ↔ IsCheckout fs σ m (userFiles donor)) := by
  obtain ⟨source, w, hsource, hcur, hfiles⟩ := cmdWtMakeOn_spec.ok h
  refine ⟨source, w, hsource, hcur, fun donor hdonor => ?_⟩
  obtain ⟨files, hfiles, hcloned⟩ := hfiles donor hdonor
  exact ⟨files, hfiles, hcloned.isCheckout_iff⟩

/-! ## A file that has been edited, and one that has not -/

namespace OneFile

/-- Names are joined by slashes, and the disk has no links. -/
def fs : FileSystem where
  locate path := ((path.toList.splitOn '/').map String.ofList).filter (· ≠ "")
  canonicalize path := path
  locate_canonicalize _ := rfl
  markerBytes id := Utf8.encode id
  special _ := none
  stackDepth := 8

/-- `tig`, as alice, in the main workspace. -/
def inv : Invocation := ⟨"local:alice", "/repo", .main⟩

/-- A directory with one file. -/
def dir (byte : UInt8) : WorkingCopy := [(Utf8.encode "a", .file [byte] false)]

/-- The repository, with a snapshot of one file. -/
def world : World PlainHash := final (cmdSnap inv (dir 97) none) (World.fresh .calm)

/-- The repository, and the directory with the file as it is. -/
def site (byte : UInt8) : Site PlainHash := ⟨world, [(Utf8.encode "repo", .dir (dir byte))]⟩

/-- The tree of the snapshot. -/
def tree (byte : UInt8) : Tree PlainHash :=
  ⟨[⟨"a", .file, (encode PlainHash (Blob.mk [byte])).hash PlainHash, .REGULAR, none⟩]⟩

/-- The snapshot. -/
def snapshot : Snapshot PlainHash :=
  ⟨[], (encode PlainHash (tree 97)).hash PlainHash, "local:alice", 0, none, none⟩

/-- Where the new workspace is. -/
def location : String := "/repo/.tig-worktrees/w"

set_option maxRecDepth 1000000 in
theorem current : ∃ change, world.repo.refs.changes.lookup "" = some change ∧
    change.1.current = (encode PlainHash snapshot).hash PlainHash := ⟨_, rfl, rfl⟩

set_option maxRecDepth 1000000 in
theorem load_snapshot :
    world.repo.objects.load ((encode PlainHash snapshot).hash PlainHash) = .ok snapshot := rfl

set_option maxRecDepth 1000000 in
theorem recordTree_dir (byte : UInt8) (h : byte = 97 ∨ byte = 98) :
    recordTree defaultIgnore (dir byte) = some (tree byte) := by
  rcases h with rfl | rfl <;> rfl

set_option maxRecDepth 1000000 in
/-- The command succeeds. -/
theorem made (byte : UInt8) (h : byte = 97 ∨ byte = 98) :
    ∃ m σ', cmdWtMakeOn fs inv "w" none (.ok none) (site byte) = .ok m σ' ∧ m.location = location := by
  have hok : (match cmdWtMakeOn fs inv "w" none (.ok none) (site byte) with
      | .ok m _ => decide (m.location = location)
      | .error _ _ => false) = true := by
    rcases h with rfl | rfl <;> decide +kernel
  cases hrun : cmdWtMakeOn fs inv "w" none (.ok none) (site byte) with
  | ok m σ' =>
    rw [hrun] at hok
    exact ⟨m, σ', rfl, of_decide_eq_true hok⟩
  | error e σ' =>
    rw [hrun] at hok
    cases hok

/-- Is the file with the byte 97 what is in the clone? -/
def showsFile : EStateM.Result Error WorkingCopy Unit → Bool
  | .ok _ disk =>
    match dirAt disk (fs.locate location) with
    | some [(name, .file bytes executable)] =>
      decide (name = Utf8.encode "a" ∧ bytes = [97] ∧ executable = false)
    | _ => false
  | .error _ _ => false

set_option maxRecDepth 1000000 in
/-- Rendering the snapshot makes the file as it was. -/
theorem rendered : ∃ disk, materializeChangeOn fs world.repo.objects ⟨none, .error⟩ location
      ((encode PlainHash snapshot).hash PlainHash) (site 97).copy = .ok () disk ∧
    dirAt disk (fs.locate location) = some (dir 97) := by
  have hok : showsFile (materializeChangeOn fs world.repo.objects ⟨none, .error⟩ location
      ((encode PlainHash snapshot).hash PlainHash) (site 97).copy) = true := by
    decide +kernel
  cases hrun : materializeChangeOn fs world.repo.objects ⟨none, .error⟩ location
      ((encode PlainHash snapshot).hash PlainHash) (site 97).copy with
  | error e disk =>
    rw [hrun] at hok
    cases hok
  | ok u disk =>
    rw [hrun] at hok
    refine ⟨disk, rfl, ?_⟩
    rw [showsFile] at hok
    split at hok
    · obtain ⟨rfl, rfl, rfl⟩ := of_decide_eq_true hok
      assumption
    · cases hok

/-- What is cloned, and for which change. -/
theorem donor {byte : UInt8} {source : Workspace} {w : World PlainHash} {id : ChangeId}
    (hsource : discoverWorkspace inv.repoWorkdir inv.place (site byte).world = .ok source w)
    (hcur : source.current (site byte).world.repo.refs = some id) :
    id = "" ∧ dirAt (site byte).copy (fs.locate source.workdir) = some (dir byte) ∧
      userFiles (dir byte) = dir byte := by
  cases hsource
  have hhead : world.repo.refs.head = some "" := by decide +kernel
  exact ⟨Option.some.inj (hcur.symm.trans hhead), rfl, rfl⟩

theorem isCheckout {m : WorkspaceManifest} (hid : m.changeId = "") (hloc : m.location = location) :
    IsCheckout fs (site 97) m (dir 97) := by
  obtain ⟨wid, name, place, changeId, created⟩ := m
  obtain rfl : changeId = "" := hid
  obtain rfl : place = location := hloc
  obtain ⟨change, hchange, hcurrent⟩ := current
  obtain ⟨disk, hrun, hdisk⟩ := rendered
  refine ⟨change, hchange, snapshot, ?_, ⟨disk, dir 97, ?_, hdisk, .refl _⟩, tree 97,
    recordTree_dir 97 (Or.inl rfl), rfl⟩
  · rw [hcurrent]
    exact load_snapshot
  · rw [hcurrent]
    exact hrun

theorem not_isCheckout {m : WorkspaceManifest} (hid : m.changeId = "") :
    ¬ IsCheckout fs (site 98) m (dir 98) := by
  obtain ⟨wid, name, place, changeId, created⟩ := m
  obtain rfl : changeId = "" := hid
  rintro ⟨change, hchange, snap, hsnap, -, tree', htree, hhash⟩
  obtain ⟨change', hchange', hcurrent⟩ := current
  obtain rfl := Option.some.inj (hchange.symm.trans hchange')
  rw [hcurrent] at hsnap
  obtain rfl := Except.ok.inj (hsnap.symm.trans load_snapshot)
  rw [recordTree_dir 98 (Or.inr rfl)] at htree
  obtain rfl := Option.some.inj htree
  revert hhash
  decide +kernel

end OneFile

open OneFile in
/-- An edit that no snapshot has is in the new workspace. -/
theorem cmdWtMakeOn_copies_edit :
    ∃ m σ', cmdWtMakeOn fs inv "w" none (.ok none) (site 98) = .ok m σ' ∧
      ∃ files, dirAt σ'.copy (fs.locate m.location) = some files ∧
        ¬ IsCheckout fs (site 98) m (withoutMarker files) := by
  obtain ⟨m, σ', hrun, hloc⟩ := made 98 (Or.inr rfl)
  obtain ⟨source, w, hsource, hcur, hfiles⟩ := cmdWtMakeOn_spec.ok hrun
  obtain ⟨hid, hdir, huser⟩ := donor hsource hcur
  obtain ⟨files, hfiles, hcloned⟩ := hfiles _ hdir
  refine ⟨m, σ', hrun, files, hfiles, ?_⟩
  rw [hcloned.isCheckout_iff, huser]
  exact not_isCheckout hid

open OneFile in
/-- Without the edit, the new workspace is a checkout. -/
theorem cmdWtMakeOn_oneFile :
    ∃ m σ', cmdWtMakeOn fs inv "w" none (.ok none) (site 97) = .ok m σ' ∧
      ∃ files, dirAt σ'.copy (fs.locate m.location) = some files ∧
        IsCheckout fs (site 97) m (withoutMarker files) := by
  obtain ⟨m, σ', hrun, hloc⟩ := made 97 (Or.inl rfl)
  obtain ⟨source, w, hsource, hcur, hfiles⟩ := cmdWtMakeOn_isCheckout_iff hrun
  obtain ⟨hid, hdir, huser⟩ := donor hsource hcur
  obtain ⟨files, hfiles, hiff⟩ := hfiles _ hdir
  refine ⟨m, σ', hrun, files, hfiles, hiff.mpr ?_⟩
  rw [huser]
  exact isCheckout hid hloc

end Tig
