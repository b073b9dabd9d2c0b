import Mathlib.Data.String.Basic
import Tig.Core.Change
import Tig.Lib.FiniteMap
import Tig.Lib.Journal

set_option relaxedAutoImplicit false
set_option autoImplicit false

/-!
# The mutable refs

Change records, the manifests of secondary workspaces, bookmarks and the main workspace's HEAD.
Records are kept in files named by their id, so a record is stored under its own id.

## Main definitions

* `Tig.Refs` — the refs of a repository, as finite maps keyed by id.
* `Tig.RefSnapshot` — one ref captured at a point in time; `none` is a ref that did not exist.
* `Tig.refTable` — the refs as a table of entries.

## Main results

* `Tig.Refs.read_write`, `Tig.Refs.read_write_of_ne` — a write is seen at its ref alone.
* `Tig.Refs.ext_read` — the refs are determined by their entries.
-/

namespace Tig

/-- The record of a secondary workspace. -/
@[ext]
structure WorkspaceManifest where
  id : WorkspaceId
  name : String
  location : String
  changeId : ChangeId
  createdNs : Nat
deriving DecidableEq, Repr

/-- The change records that can lie in the file of the change `id`. -/
abbrev ChangeAt (H : Type) (id : ChangeId) := {c : Change H // c.id = id}

/-- The manifests that can lie in the file of the workspace `id`. -/
abbrev ManifestAt (id : WorkspaceId) := {m : WorkspaceManifest // m.id = id}

/-- A manifest can lie in the file of its own workspace. -/
theorem WorkspaceManifest.id_eq (m : WorkspaceManifest) : m.id = m.id := rfl

/-- The refs of a repository. -/
@[ext]
structure Refs (H : Type) where
  head : Option ChangeId
  changes : Finmap fun id => ChangeAt H id
  workspaces : Finmap ManifestAt
  bookmarks : Finmap fun _ : String => ChangeId

/-- A single ref captured at one point in time. -/
inductive RefSnapshot (H : Type) where
  | head (value : Option ChangeId)
  | change (id : ChangeId) (value : Option (ChangeAt H id))
  | workspace (id : WorkspaceId) (value : Option (ManifestAt id))
  | bookmark (name : String) (value : Option ChangeId)
deriving DecidableEq

/-- Which ref an entry is for. -/
inductive RefKey where
  | head
  | change (id : ChangeId)
  | workspace (id : WorkspaceId)
  | bookmark (name : String)
deriving DecidableEq

variable {H : Type}

/-- The ref an entry is for. -/
def RefSnapshot.key : RefSnapshot H → RefKey
  | head _ => .head
  | change id _ => .change id
  | workspace id _ => .workspace id
  | bookmark name _ => .bookmark name

namespace Refs

/-- A repository without any refs. -/
def empty : Refs H := ⟨none, ∅, ∅, ∅⟩

/-- The entry of a ref: what it points at now. -/
def read (r : Refs H) : RefKey → RefSnapshot H
  | .head => .head r.head
  | .change id => .change id (r.changes.lookup id)
  | .workspace id => .workspace id (r.workspaces.lookup id)
  | .bookmark name => .bookmark name (r.bookmarks.lookup name)

/-- Make a ref hold what an entry says. -/
def write (r : Refs H) : RefSnapshot H → Refs H
  | .head value => { r with head := value }
  | .change id value => { r with changes := FiniteMap.set r.changes id value }
  | .workspace id value => { r with workspaces := FiniteMap.set r.workspaces id value }
  | .bookmark name value => { r with bookmarks := FiniteMap.set r.bookmarks name value }

@[simp] theorem key_read (r : Refs H) (k : RefKey) : (r.read k).key = k := by cases k <;> rfl

@[simp] theorem read_write (r : Refs H) (e : RefSnapshot H) : (r.write e).read e.key = e := by
  cases e <;> simp [write, read, RefSnapshot.key]

theorem read_write_of_ne (r : Refs H) (e : RefSnapshot H) (k : RefKey) (h : k ≠ e.key) :
    (r.write e).read k = r.read k := by
  cases e <;> cases k <;> simp_all [write, read, RefSnapshot.key, FiniteMap.lookup_set_of_ne]

/-- The refs are determined by what each of them points at. -/
theorem ext_read (r r' : Refs H) (h : ∀ k, r.read k = r'.read k) : r = r' := by
  refine Refs.ext ?_ (Finmap.ext_lookup fun id => ?_) (Finmap.ext_lookup fun id => ?_)
    (Finmap.ext_lookup fun name => ?_)
  · simpa [read] using h .head
  · simpa [read] using h (.change id)
  · simpa [read] using h (.workspace id)
  · simpa [read] using h (.bookmark name)

/-- Making a ref hold what it holds changes nothing. -/
theorem write_read (r : Refs H) (k : RefKey) : r.write (r.read k) = r := by
  refine ext_read _ _ fun k' => ?_
  by_cases hk : k' = k
  · subst hk
    have h := read_write r (r.read k')
    rwa [key_read] at h
  · exact read_write_of_ne r (r.read k) k' (by rwa [key_read])

/-- Removing a manifest that is not there changes nothing. -/
theorem write_workspace_none {r : Refs H} {id : WorkspaceId} (h : id ∉ r.workspaces) :
    r.write (.workspace id none) = r := by
  have hread : r.read (.workspace id) = .workspace id none := by
    rw [read, Finmap.lookup_eq_none.mpr h]
  rw [← hread, write_read]

end Refs

/-- The refs, seen as a table of entries. -/
def refTable (H : Type) : Journal.Table (Refs H) RefKey (RefSnapshot H) where
  key := RefSnapshot.key
  read := Refs.read
  write := Refs.write
  key_read := Refs.key_read
  read_write := Refs.read_write
  read_write_of_ne := Refs.read_write_of_ne
  ext := Refs.ext_read

end Tig
