import Tig.Cli.Commands
import Tig.Fs.Restore

set_option relaxedAutoImplicit false
set_option autoImplicit false

/-!
# The command that restores

`tig restore` finds a snapshot by the first digits of its hash, makes the working copy look like it, and
takes a snapshot of that, even if nothing has changed. How the digits are looked up is a parameter, and
so is what looking up the given identity comes to.

## Main definitions

* `Tig.cmdRestore` — the command.
-/

namespace Tig

open Program

variable {H : Type} [LinearOrder H] [Format H]

/-- The snapshot that the given digits find. -/
def restoreTarget (resolve : ObjectStore H → String → Except Error H) (snapPrefix : String) :
    RepoM H H := do
  step .objectRead
  let w ← get
  let target ← fromExcept ((resolve w.repo.objects snapPrefix).mapError fun _ =>
    .cli ("resolving snapshot prefix " ++ debugStr snapPrefix))
  step .objectRead
  let w ← get
  let raw ← fromExcept (w.repo.objects.get target)
  if raw.kind ≠ .snapshot then
    throw (.cli ("object " ++ shortHex target ++ " is a " ++ raw.kind.name ++ ", not a snapshot"))
  else
    let _ ← fromExcept ((decode H raw : Except CoreError (Snapshot H)).mapError .core)
    return target

/-- The snapshot that the current change is at. -/
def restoreBase (ws : Workspace) : RepoM H H := do
  match ← ws.currentChangeId with
  | none => throw (.cli "no current change; nothing to restore into")
  | some id => do
    let current ← getChange id
    return current.1.current

/-- How a restore is recorded. The snapshot is forced, so that it is taken even if the tree is that of
the current one. -/
def restoreSnapOptions (principal : PrincipalId) (target : H) : SnapOptions :=
  { SnapOptions.default with
    author := principal, message := some ("restore " ++ shortHex target), force := true }

/-- `tig restore`. -/
def cmdRestore (special : Node → Option Error) (stackDepth : Nat) (inv : Invocation)
    (resolve : ObjectStore H → String → Except Error H) (snapPrefix : String) (force : Bool)
    (identity : Except Error (Option UnsealFn)) : SiteM H (RestoreOutcome H × SnapOutcome H) := do
  let ws ← onRepo (discoverWorkspace inv.repoWorkdir inv.place)
  onRepo lockForWrite
  onRepo openLog
  let target ← onRepo (restoreTarget resolve snapPrefix)
  let current ← onRepo (restoreBase ws)
  onRepo (step .registryRead)
  let unsealer ← onRepo (fromExcept identity)
  let outcome ← restoreTreeInto special stackDepth ws.workdir target current
    ⟨force, ⟨unsealer, .error⟩⟩
  let restored ← get
  let snapOutcome ← onRepo (snapNow ws restored.copy (restoreSnapOptions inv.principal target))
  return (outcome, snapOutcome)

end Tig
