import Mathlib.Logic.Function.Basic
import Tig.Lib.Program
import Tig.Store.Objects
import Tig.Store.Refs

set_option relaxedAutoImplicit false
set_option autoImplicit false

/-!
# The repository, and programs that work on it

A repository is its object store, its refs and its operation log. A command runs as a program
over it that may fail at any file-system step, keeping whatever it has done so far. Which steps
fail, what the clock shows and which ids the generator gives out are up to the environment.

## Main definitions

* `Tig.Op`, `Tig.OpKind` — the records of the operation log.
* `Tig.Repo`, `Tig.World` — the repository, and all a running command can see of the world.
* `Tig.RepoM` — programs over the world.
* `Tig.step`, `Tig.loadObject`, `Tig.putObject`, … — the primitive operations.
-/

namespace Tig

open Program

/-! ## Operations -/

/-- What kind of operation a record stands for. -/
inductive OpKind (H : Type) where
  | snap (snapshot : H) (message : Option String)
  | changeNew (changeId : ChangeId) (description : String)
  | wtMake (workspaceId : WorkspaceId) (name : String)
  | wtDrop (workspaceId : WorkspaceId) (name : String)
  | changeTransition (changeId : ChangeId) (fromState toState : ChangeState)
      (fromVis toVis : VisLabel)
  | undo (undoneOp : OpId)
deriving DecidableEq, Repr

/-- The record of one operation. -/
structure Op (H : Type) where
  id : OpId
  tsNs : Nat
  actor : PrincipalId
  kind : OpKind H
  before : List (RefSnapshot H)
  after : List (RefSnapshot H)
deriving DecidableEq

/-- An operation being staged: id and timestamp are assigned when it is appended. -/
structure OpInProgress (H : Type) where
  actor : PrincipalId
  kind : OpKind H
  before : List (RefSnapshot H)
  after : List (RefSnapshot H)

/-- A record of the undo of another one. -/
def OpKind.isUndo {H : Type} : OpKind H → Bool
  | undo _ => true
  | _ => false

/-- A record of the undo of another one. -/
def Op.isUndo {H : Type} (op : Op H) : Bool := op.kind.isUndo

/-- The first twelve characters of a hash, as one-line summaries show it. -/
def shortHex {H : Type} [HashFn H] (h : H) : String :=
  String.ofList ((HashFn.toHex h).toList.take 12)

/-- The one-line summary of an operation. -/
def OpKind.oneLine {H : Type} [HashFn H] : OpKind H → String
  | snap snapshot message => "Snap " ++ shortHex snapshot ++ "  " ++ message.getD "(auto)"
  | changeNew changeId description => "ChangeNew " ++ changeId ++ "  " ++ description
  | wtMake workspaceId name => "WtMake " ++ name ++ " (" ++ workspaceId ++ ")"
  | wtDrop workspaceId name => "WtDrop " ++ name ++ " (" ++ workspaceId ++ ")"
  | changeTransition changeId fromState toState fromVis toVis =>
      "ChangeTransition " ++ changeId ++ "  " ++ fromState.toText ++ "/" ++ fromVis.name ++
        " → " ++ toState.toText ++ "/" ++ toVis.name
  | undo undoneOp => "Undo of op#" ++ toString undoneOp

/-! ## The world of a command -/

/-- A repository on disk. The log is the list of its records, oldest first. -/
structure Repo (H : Type) where
  objects : ObjectStore H
  refs : Refs H
  oplog : List (Op H)

/-- A repository that has just been initialised. -/
def Repo.empty {H : Type} : Repo H := ⟨∅, Refs.empty, []⟩

/-- A handle on the log, which caches the id of the next record. -/
structure FileLog where
  nextId : OpId
deriving DecidableEq, Repr

/-- The file-system steps that can fail. -/
inductive FsStep where
  | objectRead
  | objectPut
  | objectRemove
  | refRead
  | refWrite
  | logRead
  | logWrite
  | logSync
  | workdirRead
  | registryRead
  | lock
deriving DecidableEq, Repr

/-- What the environment decides: how the `n`-th step of each kind fails, if it does, what the
clock shows when it is read, and the ids that the generator gives out. A record that is there
but cannot be parsed counts as a failing read. -/
structure Env where
  fails : FsStep → Nat → Option String
  now : Nat → Nat
  ulid : Nat → String

/-- The I/O error that the `n`-th step of a kind ends in, if it fails. -/
def Env.failure (env : Env) (k : FsStep) (n : Nat) : Option Error := (env.fails k n).map .io

/-- No step fails. -/
def Env.Reliable (env : Env) : Prop := ∀ k n, env.fails k n = none

/-- An environment in which nothing fails, time stands for the number of readings of the clock, and
the `n`-th id is `n` letters long. -/
def Env.calm : Env := ⟨fun _ _ => none, id, fun n => String.ofList (List.replicate n 'a')⟩

theorem Env.calm_reliable : Env.calm.Reliable := fun _ _ => rfl

theorem Env.calm_fresh : Function.Injective Env.calm.ulid := by
  intro n m h
  have hlist := congrArg (fun s : String => s.toList.length) h
  simpa [Env.calm] using hlist

/-- What a running command works on: the repository, its own handle on the log, and the
environment with the number of steps, clock readings and ids taken so far. -/
structure World (H : Type) where
  repo : Repo H
  log : FileLog
  env : Env
  ticks : FsStep → Nat
  clock : Nat
  ids : Nat

/-- Programs over a repository: they may fail, and keep what they did before failing. -/
abbrev RepoM (H : Type) := EStateM Error (World H)

variable {H : Type}

namespace World

/-- A fresh repository in an environment of which nothing has been used. -/
def fresh (env : Env) : World H := ⟨Repo.empty, ⟨0⟩, env, fun _ => 0, 0, 0⟩

/-- Count one step. -/
def tick (w : World H) (k : FsStep) : World H :=
  { w with ticks := Function.update w.ticks k (w.ticks k + 1) }

/-- Replace the refs. -/
def setRefs (w : World H) (r : Refs H) : World H := { w with repo := { w.repo with refs := r } }

/-- Replace the objects. -/
def setObjects (w : World H) (s : ObjectStore H) : World H :=
  { w with repo := { w.repo with objects := s } }

/-- Replace the log file. -/
def setOplog (w : World H) (l : List (Op H)) : World H :=
  { w with repo := { w.repo with oplog := l } }

end World

/-- One file-system step, which the environment may make fail. -/
def step (k : FsStep) : RepoM H Unit := fun w =>
  match w.env.failure k (w.ticks k) with
  | none => .ok () (w.tick k)
  | some e => .error e (w.tick k)

/-- Take the write lock of the repository. -/
def lockForWrite : RepoM H Unit := step .lock

/-- Read the clock, in nanoseconds. -/
def currentTimestampNs : RepoM H Nat := fun w =>
  .ok (w.env.now w.clock) { w with clock := w.clock + 1 }

/-- A fresh ULID. -/
def newUlid : RepoM H String := fun w => .ok (w.env.ulid w.ids) { w with ids := w.ids + 1 }

/-! ## Objects -/

section Objects

variable [LinearOrder H] [Format H]

/-- Write an object. Nothing is written when its file exists. -/
def putObject (raw : RawObject) : RepoM H H := do
  let w ← get
  if raw.hash H ∈ w.repo.objects then
    return raw.hash H
  step .objectPut
  modify fun w => w.setObjects (w.repo.objects.put raw)
  return raw.hash H

/-- Read a typed object. -/
def loadObject {α : Type} [Encodable H α] (h : H) : RepoM H α := do
  step .objectRead
  let w ← get
  fromExcept (w.repo.objects.load h)

/-- Write a typed object. -/
def storeObject {α : Type} [Encodable H α] (a : α) : RepoM H H := putObject (encode H a)

end Objects

/-! ## Refs -/

/-- The record of a change. -/
def getChange (id : ChangeId) : RepoM H (ChangeAt H id) := do
  step .refRead
  let w ← get
  match w.repo.refs.changes.lookup id with
  | some c => return c
  | none => throw (.notFound ("change " ++ id))

/-- The ids of all changes, in order. -/
def listChanges : RepoM H (List ChangeId) := do
  step .refRead
  let w ← get
  return FiniteMap.sortedKeys w.repo.refs.changes

/-- The main workspace's current change. -/
def head : RepoM H (Option ChangeId) := do
  step .refRead
  let w ← get
  return w.repo.refs.head

/-- The target of a bookmark. -/
def getBookmark (name : String) : RepoM H (Option ChangeId) := do
  step .refRead
  let w ← get
  return w.repo.refs.bookmarks.lookup name

/-- Open the registry of manifests, whose directory is made if it is not there. -/
def openWorkspaces : RepoM H Unit := step .refRead

/-- The manifest of a workspace. -/
def getWorkspace (id : WorkspaceId) : RepoM H (ManifestAt id) := do
  step .refRead
  let w ← get
  match w.repo.refs.workspaces.lookup id with
  | some m => return m
  | none => throw (.notFound ("workspace " ++ id))

/-- All manifests, in the order of their ids. -/
def listWorkspaces : RepoM H (List WorkspaceManifest) := do
  step .refRead
  let w ← get
  return (FiniteMap.sortedKeys w.repo.refs.workspaces).filterMap fun id =>
    (w.repo.refs.workspaces.lookup id).map (·.1)

/-- Write one ref: a file replaced by renaming, or removed. -/
def writeRef (e : RefSnapshot H) : RepoM H Unit := do
  step .refWrite
  modify fun w => w.setRefs (w.repo.refs.write e)

/-- The entry that holds a change record. -/
def RefSnapshot.ofChange (c : Change H) : RefSnapshot H := .change c.id (some ⟨c, rfl⟩)

/-- The entry that holds a workspace manifest. -/
def RefSnapshot.ofManifest (m : WorkspaceManifest) : RefSnapshot H :=
  .workspace m.id (some ⟨m, rfl⟩)

/-- Write a change record. -/
def putChange (c : Change H) : RepoM H Unit := writeRef (.ofChange c)

/-- Remove a change record; a missing one is a no-op. -/
def deleteChange (id : ChangeId) : RepoM H Unit := writeRef (.change id none)

/-- Point the main workspace at a change. -/
def setHead (id : ChangeId) : RepoM H Unit := writeRef (.head (some id))

/-- Remove the main workspace's pointer. -/
def clearHead : RepoM H Unit := writeRef (.head none)

/-- Write a workspace manifest. -/
def putWorkspace (m : WorkspaceManifest) : RepoM H Unit := writeRef (.ofManifest m)

/-- Remove a workspace manifest, which must exist. -/
def deleteWorkspace (id : WorkspaceId) : RepoM H Unit := do
  step .refWrite
  let w ← get
  if id ∈ w.repo.refs.workspaces then
    set (w.setRefs (w.repo.refs.write (.workspace id none)))
  else
    throw (.notFound ("workspace " ++ id))

/-- Point a bookmark at a change. -/
def setBookmark (name : String) (id : ChangeId) : RepoM H Unit := do
  if name = "" ∨ '/' ∈ name.toList ∨ '\x00' ∈ name.toList then
    throw (.corrupt ("invalid bookmark name: " ++ name))
  writeRef (.bookmark name (some id))

/-- Remove a bookmark; a missing one is a no-op. -/
def deleteBookmark (name : String) : RepoM H Unit := writeRef (.bookmark name none)

/-! ## The log -/

/-- The id after the greatest one in the log. -/
def computeNextId (ops : List (Op H)) : OpId :=
  (ops.foldl (fun max op => if (op.id : Int) > max then (op.id : Int) else max) (-1 : Int) +
    1).toNat

/-- Open the log: scan it for the next id. -/
def openLog : RepoM H Unit := do
  step .logRead
  modify fun w => { w with log := ⟨computeNextId w.repo.oplog⟩ }

/-- All records, oldest first. -/
def listOps : RepoM H (List (Op H)) := do
  step .logRead
  let w ← get
  return w.repo.oplog

/-- Append a record, giving it the handle's next id. The record is in the file once it is
written, whether or not the sync that follows succeeds; the handle counts on only after the
sync. A record too long for its frame counts as a failed write. -/
def appendOp (op : OpInProgress H) : RepoM H (Op H) := do
  let now ← currentTimestampNs
  let w ← get
  let finalized : Op H := ⟨w.log.nextId, now, op.actor, op.kind, op.before, op.after⟩
  step .logWrite
  modify fun w => w.setOplog (w.repo.oplog ++ [finalized])
  step .logSync
  modify fun w => { w with log := ⟨w.log.nextId + 1⟩ }
  return finalized

end Tig
