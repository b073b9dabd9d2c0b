import Mathlib.Data.String.Basic
import Tig.Core.Object

set_option relaxedAutoImplicit false
set_option autoImplicit false

/-!
# Changes, and who may see and mutate them

A change is the mutable label that advances as work progresses: it has a stable id, points at a
snapshot, and remembers every snapshot it ever pointed at. Its author and its visibility decide
who may read it and who may mutate it.

## Main definitions

* `Tig.Change`, `Tig.Change.new`, `Tig.Change.advance` — the record and its two writers.
* `Tig.canSee`, `Tig.canMutate` — the read and write policy.
-/

namespace Tig

/-- The id of a change, a ULID in text form. -/
abbrev ChangeId := String

/-- The id of a secondary workspace, a ULID in text form. -/
abbrev WorkspaceId := String

/-- Who authors: an opaque name such as `local:alice`. -/
abbrev PrincipalId := String

/-- The principal of a local user. -/
def PrincipalId.local (name : String) : PrincipalId := "local:" ++ name

/-- The number the log gives an operation. -/
abbrev OpId := Nat

/-- Where a change stands. -/
inductive ChangeState where
  | working
  | draft
  | review
  | landed
  | abandoned
deriving DecidableEq, Repr

/-- The state as `{:?}` prints it. -/
def ChangeState.toText : ChangeState → String
  | .working => "Working"
  | .draft => "Draft"
  | .review => "Review"
  | .landed => "Landed"
  | .abandoned => "Abandoned"

/-- Lowercasing. Only the ASCII letters and the Kelvin sign lowercase to ASCII letters; no other
character matters where a lowercased string is compared with an ASCII one. -/
def toLowercase (s : String) : String :=
  String.ofList (s.toList.map fun c => if c = '\u212A' then 'k' else c.toLower)

/-- The state that a (lowercased) name stands for. -/
def ChangeState.ofName (s : String) : Option ChangeState :=
  if s = "working" then some .working
  else if s = "draft" then some .draft
  else if s = "review" then some .review
  else if s = "landed" then some .landed
  else if s = "abandoned" then some .abandoned
  else none

/-- Who can see a change. -/
inductive VisLabel where
  | Public
  | Private
  | Org (name : String)
  | Team (name : String)
  | Principal (id : PrincipalId)
deriving DecidableEq, Repr

/-- The label's name. -/
def VisLabel.name : VisLabel → String
  | .Public => "public"
  | .Private => "private"
  | .Org _ => "org"
  | .Team _ => "team"
  | .Principal _ => "principal"

/-- The label that a name given by a user stands for. -/
def VisLabel.ofName (s : String) : Option VisLabel :=
  if s = "public" then some .Public
  else if s = "private" then some .Private
  else none

/-- May `caller` see an object with this visibility and author? Group labels are treated as
author-only. -/
def canSee (visibility : VisLabel) (author : PrincipalId) (caller : Option PrincipalId) : Bool :=
  match visibility with
  | .Public => true
  | .Private => caller.any (· = author)
  | .Org _ | .Team _ => caller.any (· = author)
  | .Principal allowed => caller.any fun c => c = author ∨ c = allowed

/-- Mutation requires being the author. -/
def canMutate (author : PrincipalId) (caller : Option PrincipalId) : Bool :=
  caller.any (· = author)

/-- The mutable label that floats forward as work progresses. -/
@[ext]
structure Change (H : Type) where
  id : ChangeId
  current : H
  bookmark : Option String
  description : String
  state : ChangeState
  /-- Every snapshot the change has pointed at, oldest first. -/
  history : List H
  author : PrincipalId
  visibility : VisLabel
deriving DecidableEq, Repr

namespace Change

variable {H : Type}

/-- A fresh change at `initialSnapshot`; the id is the one the generator gave. -/
def new (id : ChangeId) (description : String) (author : PrincipalId) (initialSnapshot : H) :
    Change H where
  id := id
  current := initialSnapshot
  bookmark := none
  description := description
  state := .working
  history := [initialSnapshot]
  author := author
  visibility := .Public

/-- A fresh change in draft state that only its author can see. -/
def newPrivateDraft (id : ChangeId) (description : String) (author : PrincipalId)
    (initialSnapshot : H) : Change H :=
  { new id description author initialSnapshot with state := .draft, visibility := .Private }

/-- Point the change at a new snapshot. -/
def advance [DecidableEq H] (c : Change H) (newSnapshot : H) : Change H :=
  if c.current ≠ newSnapshot then
    { c with current := newSnapshot, history := c.history ++ [newSnapshot] }
  else c

@[simp] theorem new_id (id : ChangeId) (d : String) (a : PrincipalId) (h : H) :
    (new id d a h).id = id := rfl

@[simp] theorem newPrivateDraft_id (id : ChangeId) (d : String) (a : PrincipalId) (h : H) :
    (newPrivateDraft id d a h).id = id := rfl

@[simp] theorem advance_id [DecidableEq H] (c : Change H) (h : H) : (c.advance h).id = c.id := by
  unfold advance
  split <;> rfl

@[simp] theorem advance_current [DecidableEq H] (c : Change H) (h : H) :
    (c.advance h).current = h := by
  unfold advance
  split <;> simp_all

/-- Advancing appends the new snapshot to the history, unless it is already current. -/
theorem advance_history [DecidableEq H] (c : Change H) (h : H) :
    (c.advance h).history = if c.current = h then c.history else c.history ++ [h] := by
  unfold advance
  split <;> simp_all

end Change

end Tig
