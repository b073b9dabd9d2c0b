import Tig.Core.Hash
import Tig.Fs.Blame
import Tig.Fs.Diff
import Tig.Fs.Grep
import Tig.Store.World

set_option relaxedAutoImplicit false
set_option autoImplicit false

/-!
# The wire protocol

What requests to the daemon carry and what it answers with. Hashes are hexadecimal strings on the
wire.

## Main definitions

* `Tig.CreateChangeReq`, `Tig.TransitionReq`, `Tig.SnapReq`, … — requests.
* `Tig.ChangeView`, `Tig.SnapshotView`, `Tig.TreeView`, … — answers, and how they are made of the
  objects they show.
-/

namespace Tig

/-! ## Requests -/

/-- A new change, from the snapshot of another one or from the empty tree. -/
structure CreateChangeReq where
  description : String
  fromChange : Option String
  visibility : Option String
  state : Option String

/-- Another state or visibility for a change. -/
structure TransitionReq where
  state : Option String
  visibility : Option String

/-- A snapshot of the tree that a change points at. -/
structure SnapReq where
  message : Option String
  author : Option String
  force : Option Bool

/-- An undo, on behalf of an author. -/
structure UndoReq where
  author : Option String

/-- A collection of garbage. -/
structure GcReq where
  dryRun : Bool
  ignoreOplog : Bool

/-- The request of an empty body. -/
def GcReq.default : GcReq := ⟨false, false⟩

/-- Which snapshots to compare, and how. -/
structure DiffQuery where
  fromSnap : Option String
  toSnap : Option String
  noHunks : Bool
  paths : List String

/-- At which snapshot to blame. -/
structure BlameQuery where
  snap : Option String

/-- What to search for, and where. -/
structure GrepQuery where
  q : String
  regex : Bool
  ignoreCase : Bool
  snap : Option String
  paths : Option String
  maxPerFile : Option Nat
  maxTotal : Option Nat

/-- The path filters of a search, which are separated by commas. -/
def GrepQuery.parsedPaths (q : GrepQuery) : List String :=
  match q.paths with
  | none => []
  | some s => (((s.toList.splitOn ',').map String.ofList).map trim).filter (· ≠ "")

/-! ## Answers -/

section Views

variable {H : Type} [HashFn H]

/-- A change. -/
structure ChangeView where
  id : String
  bookmark : Option String
  description : String
  state : String
  current : String
  history : List String
  author : String
  visibility : String
deriving DecidableEq, Repr

/-- A change as it is shown. -/
def ChangeView.fromCore (c : Change H) : ChangeView where
  id := c.id
  bookmark := c.bookmark
  description := c.description
  state := c.state.toText
  current := HashFn.toHex c.current
  history := c.history.map HashFn.toHex
  author := c.author
  visibility := c.visibility.name

/-- A snapshot. -/
structure SnapshotView where
  hash : String
  parents : List String
  tree : String
  author : String
  timestampNs : Nat
  message : Option String
deriving DecidableEq, Repr

/-- A snapshot as it is shown. -/
def SnapshotView.fromCore (hash : H) (s : Snapshot H) : SnapshotView where
  hash := HashFn.toHex hash
  parents := s.parents.map HashFn.toHex
  tree := HashFn.toHex s.tree
  author := s.author
  timestampNs := s.timestampNs
  message := s.message

/-- An entry of a tree. -/
structure TreeEntryView where
  name : String
  kind : String
  target : String
  mode : Nat
  vis : Option String
deriving DecidableEq, Repr

/-- An entry of a tree as it is shown. -/
def TreeEntryView.fromCore (e : TreeEntry H) : TreeEntryView where
  name := e.name
  kind := e.kind.toText
  target := HashFn.toHex e.target
  mode := e.mode.bits.toNat
  vis := e.vis

/-- A tree. -/
structure TreeView where
  hash : Option String
  entries : List TreeEntryView
deriving DecidableEq, Repr

/-- A tree as it is shown. -/
def TreeView.fromCore (hash : Option H) (t : Tree H) : TreeView where
  hash := hash.map HashFn.toHex
  entries := t.entries.map TreeEntryView.fromCore

/-- What came of a snapshot. -/
structure SnapResp where
  outcome : String
  change : ChangeView
  snapshot : Option SnapshotView
deriving DecidableEq, Repr

/-- What came of an undo. -/
structure UndoResp where
  undoneOpId : Option OpId
  undoneKind : Option String
  recordedOpId : Option OpId
  message : String
deriving DecidableEq, Repr

/-- What came of a collection of garbage. -/
structure GcView where
  roots : Nat
  kept : Nat
  removed : Nat
  bytesFreed : Nat
  dryRun : Bool
deriving DecidableEq, Repr

/-- A record of the log. -/
structure OpView where
  id : OpId
  tsNs : Nat
  actor : String
  kind : String
  oneLine : String
deriving DecidableEq, Repr

/-- The name of a kind of operation. -/
def kindDiscriminator : OpKind H → String
  | .snap _ _ => "Snap"
  | .changeNew _ _ => "ChangeNew"
  | .wtMake _ _ => "WtMake"
  | .wtDrop _ _ => "WtDrop"
  | .changeTransition _ _ _ _ _ => "ChangeTransition"
  | .undo _ => "Undo"

/-- A record of the log as it is shown. -/
def OpView.fromCore (op : Op H) : OpView where
  id := op.id
  tsNs := op.tsNs
  actor := op.actor
  kind := kindDiscriminator op.kind
  oneLine := op.kind.oneLine

/-- A wrapped key. -/
structure RecipientView where
  recipientPk : String
  wrappedKey : String
  wrapNonce : String
deriving DecidableEq, Repr

/-- A wrapped key as it is shown. -/
def RecipientView.fromCore (r : RecipientWrap) : RecipientView :=
  ⟨hexEncode r.recipientPk, hexEncode r.wrappedKey, hexEncode r.wrapNonce⟩

/-- A wrapped key from its view. -/
def RecipientView.intoCore (v : RecipientView) : Except String RecipientWrap := do
  let recipientPk ← hexDecode v.recipientPk
  let wrappedKey ← hexDecode v.wrappedKey
  let wrapNonce ← hexDecode v.wrapNonce
  .ok ⟨recipientPk, wrappedKey, wrapNonce⟩

/-- A sealed payload. -/
structure SealedView where
  algo : Nat
  ephemeralPk : String
  recipients : List RecipientView
  ciphertext : String
  nonce : String
  aad : String
deriving DecidableEq, Repr

/-- A sealed payload as it is shown. -/
def SealedView.fromCore (s : Sealed) : SealedView where
  algo := match s.algo with
    | .X25519XChaCha20Poly1305 => 1
  ephemeralPk := hexEncode s.ephemeralPk
  recipients := s.recipients.map RecipientView.fromCore
  ciphertext := hexEncode s.ciphertext
  nonce := hexEncode s.nonce
  aad := hexEncode s.aad

/-- A sealed payload from its view. -/
def SealedView.intoCore (v : SealedView) : Except String Sealed :=
  if v.algo ≠ 1 then .error ("unknown seal algo " ++ toString v.algo)
  else do
    -- the recipients are decoded first, but reported only after the ephemeral key
    let ephemeralPk ← hexDecode v.ephemeralPk
    let recipients ← v.recipients.mapM RecipientView.intoCore
    let ciphertext ← hexDecode v.ciphertext
    let nonce ← hexDecode v.nonce
    let aad ← hexDecode v.aad
    .ok ⟨.X25519XChaCha20Poly1305, ephemeralPk, recipients, ciphertext, nonce, aad⟩

/-- A piece of a comparison. -/
structure HunkView where
  fromStart : Nat
  fromLen : Nat
  toStart : Nat
  toLen : Nat
  lines : List HunkLine
deriving DecidableEq, Repr

/-- A piece of a comparison as it is shown. -/
def HunkView.fromCore (h : Hunk) : HunkView :=
  ⟨h.fromStart, h.fromLen, h.toStart, h.toLen, h.lines⟩

/-- A path at which two trees differ. -/
structure FileDiffView where
  path : String
  kind : String
  typeChangedFrom : String
  typeChangedTo : String
  entryKind : String
  fromTarget : Option String
  toTarget : Option String
  binary : Bool
  hunks : Option (List HunkView)
deriving DecidableEq, Repr

/-- A path at which two trees differ as it is shown. -/
def FileDiffView.fromCore (d : FileDiff H) : FileDiffView where
  path := d.path
  kind := match d.kind with
    | .added => "Added"
    | .removed => "Removed"
    | .modified => "Modified"
    | .typeChanged _ _ => "TypeChanged"
  typeChangedFrom := match d.kind with
    | .typeChanged before _ => before.toText
    | _ => ""
  typeChangedTo := match d.kind with
    | .typeChanged _ after => after.toText
    | _ => ""
  entryKind := d.entryKind.toText
  fromTarget := d.fromTarget.map HashFn.toHex
  toTarget := d.toTarget.map HashFn.toHex
  binary := d.binary
  hunks := d.hunks.map (List.map HunkView.fromCore)

/-- A comparison of two trees, which are named by their hashes. -/
structure DiffView where
  before : String
  after : String
  files : List FileDiffView
deriving DecidableEq, Repr

/-- A line with its attribution. -/
structure BlameLineView where
  line : String
  snap : String
  author : String
  timestampNs : Nat
  message : Option String
deriving DecidableEq, Repr

/-- A line with its attribution as it is shown. -/
def BlameLineView.fromCore (b : BlameLine H) : BlameLineView :=
  ⟨b.line, HashFn.toHex b.snap, b.author, b.timestampNs, b.message⟩

/-- The attribution of a file at a snapshot. -/
structure BlameView where
  path : String
  snap : String
  lines : List BlameLineView
deriving DecidableEq, Repr

/-- The matches of a search at a snapshot. -/
structure GrepView where
  snap : String
  results : List GrepMatch
deriving DecidableEq, Repr

end Views

end Tig
