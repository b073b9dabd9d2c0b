import Tig.Guarantees.CloneWorkspaces
import Tig.Guarantees.HiddenChanges
import Tig.System.Writers

set_option relaxedAutoImplicit false
set_option autoImplicit false

/-!
# Edits of other writers

A snapshot of a workspace becomes the tree of its change, on top of whatever snapshot the change is
at. Nothing is merged: the last writer wins. An edit of another writer stays as long as the
directories that are snapshotted hold it, and no request is at its path.

## Main results

* `Tig.SharedRun.entry_kept` — an entry stays while no writer touches it.
* `Tig.not_sharedRun_entry_kept` — a snapshot takes away what a request has put, though its
  directory never had anything at that path.
-/

namespace Tig

open Program

variable {H : Type} [LinearOrder H] [Format H]

section Kept

variable [LawfulFormat H] {fs : FileSystem} {ok : Site H → SharedAction H → Prop} {σ σ' : Site H}

/-- What is known of a repository stays known. -/
theorem SharedRun.ready (hready : σ.world.Ready) (h : SharedRun fs ok σ σ') : σ'.world.Ready := by
  induction h with
  | start => exact hready
  | step _ _ hstep ih => exact ih.onward (SharedAction.spares ih _ hstep).toOnward

/-- **The last writer wins.** What a change has at a path it still has in every later state of a
run, when no action of the run takes it away: each directory that is snapshotted for the change
holds it, and no request is at its path, above or below it. -/
theorem SharedRun.entry_kept {id : ChangeId} {path : List String} {e : TreeEntry H}
    (hready : σ.world.Ready) (he : σ.world.repo.entryOf id path = some e)
    (h : SharedRun fs (fun σ a => ¬ a.Touches fs σ id path e) σ σ') :
    σ'.world.repo.entryOf id path = some e := by
  induction h with
  | start => exact he
  | step hrun hok hstep ih =>
    exact (SharedAction.spares (hrun.ready hready) _ hstep).frame id path e hok ih

end Kept

/-! ## A request and a workspace -/

/-- The action does not change what any directory has at the path, and is no request there. -/
def SharedAction.LeavesAlone (id : ChangeId) (path : List String) (σ : Site H) :
    SharedAction H → Prop
  | work (.edit disk) => ∀ loc copy copy', dirAt σ.copy loc = some copy →
    dirAt disk loc = some copy' → ∀ ignore,
      (recordedAt ignore copy' path : Option (TreeEntry H)) = recordedAt ignore copy path
  | work (.restore ..) => False
  | work _ => True
  | patch _ id' p _ _ => ¬ AtPath id' p id path
  | delete _ id' p _ => ¬ AtPath id' p id path
  | snapRequest .. => True
  | sealPath _ p _ => ¬ AtPath id p id path

namespace PatchedFile

/-- `tig`, as alice, in the main workspace. -/
def inv : Invocation := ⟨"alice", "/repo", .main⟩

def start : World PlainHash := { World.fresh .calm with ids := 1 }

/-- `tig change new`. -/
def changeNew : Operation PlainHash := .cmdChangeNew inv "first"

/-- The repository with a change, which is called `a` and has no files. -/
def created : World PlainHash := changeNew.effect start

/-- The directory of the workspace is empty. -/
def before : Site PlainHash := ⟨created, [(Utf8.encode "repo", .dir [])]⟩

theorem run_created : Run created [(0, Refs.empty)] :=
  .operation (.start start rfl Env.calm_reliable Env.calm_fresh) ⟨0⟩ changeNew

theorem ready : created.Ready :=
  ⟨run_created.sound.intact, Env.calm_fresh, run_created.chronicle.ids⟩

/-- Alice puts a file into the change. -/
def patch : SharedAction PlainHash :=
  .patch UnreadableToken.server "a" "f" PrivateChange.alice [98]

def patched : Site PlainHash :=
  ⟨final (Handlers.patchTreePath UnreadableToken.server "a" "f" PrivateChange.alice [98]) created,
    before.copy⟩

/-- The file. -/
def entry : TreeEntry PlainHash :=
  ⟨"f", .file, (encode PlainHash (Blob.mk [98])).hash PlainHash, .REGULAR, none⟩

theorem step_patch : patch.Step OneFile.fs before patched :=
  ⟨.inl (exists_eq_final (by decide +kernel)), rfl⟩

/-- Alice's snapshot of the directory. -/
def snap : WorkAction PlainHash := .snap inv { SnapOptions.default with author := "alice" }

/-- The directory was empty all the time. -/
def snapped : Site PlainHash := final (snap.perform OneFile.fs) patched

theorem step_snap : (SharedAction.work snap).Step OneFile.fs patched snapped :=
  .inl (exists_eq_final (by decide +kernel))

/-- The directory with the file, as the change has it. -/
def dir : WorkingCopy := [(Utf8.encode "f", .file [98] false)]

def held : Site PlainHash := ⟨patched.world, [(Utf8.encode "repo", .dir dir)]⟩

theorem step_edit : (SharedAction.work (.edit held.copy)).Step OneFile.fs patched held :=
  .inl ⟨.done, rfl⟩

/-- The directory has the file when it is snapshotted. -/
def kept : Site PlainHash := final (snap.perform OneFile.fs) held

theorem step_keep : (SharedAction.work snap).Step OneFile.fs held kept :=
  .inl (exists_eq_final (by decide +kernel))

theorem entryOf_patched : patched.world.repo.entryOf "a" ["f"] = some entry := by decide +kernel

theorem not_touches_snap :
    ¬ SharedAction.Touches OneFile.fs held (.work snap) "a" ["f"] entry := by
  rintro ⟨ws, w, copy, hws, -, hcopy, hne⟩
  cases hws
  have hdir : dirAt held.copy (OneFile.fs.locate "/repo") = some dir := by rfl
  obtain rfl := Option.some.inj (hdir.symm.trans hcopy)
  exact hne (by decide +kernel)

theorem ready_patched : patched.world.Ready :=
  ready.onward (SharedAction.spares ready patch step_patch).toOnward

end PatchedFile

open PatchedFile in
/-- The file stays in the change, when the directory has it. -/
theorem entry_kept_patchedFile : kept.world.repo.entryOf "a" ["f"] = some entry :=
  SharedRun.entry_kept ready_patched entryOf_patched
    ((SharedRun.start.step not_false step_edit).step not_touches_snap step_keep)

open PatchedFile in
/-- **A snapshot takes away what a request has put**, though nothing has ever been at that path of
its directory. -/
theorem not_sharedRun_entry_kept :
    ¬ ∀ (fs : FileSystem) (a : SharedAction PlainHash) (σ₀ σ σ' : Site PlainHash) (id : ChangeId)
      (path : List String) (e : TreeEntry PlainHash), σ₀.world.Ready → a.Step fs σ₀ σ →
      σ₀.world.repo.entryOf id path ≠ some e → σ.world.repo.entryOf id path = some e →
      SharedRun fs (SharedAction.LeavesAlone id path) σ σ' →
      σ'.world.repo.entryOf id path = some e := by
  intro h
  have hleaves : SharedAction.LeavesAlone "a" ["f"] patched (.work snap) := trivial
  have hkept := h OneFile.fs patch before patched snapped "a" ["f"] entry ready step_patch
    (by decide +kernel) entryOf_patched (SharedRun.start.step hleaves step_snap)
  have hlost : snapped.world.repo.entryOf "a" ["f"] = none := by decide +kernel
  rw [hlost] at hkept
  cases hkept

end Tig
