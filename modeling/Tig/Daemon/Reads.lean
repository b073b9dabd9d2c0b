import Tig.Daemon.Handlers

set_option relaxedAutoImplicit false
set_option autoImplicit false

/-!
# The handlers that read the repository

A handler resolves the caller, checks that the caller may see what it asks for, and calls the
engine. What may be seen is decided by the change records: a snapshot is visible when it is in the
history of a visible change.

## Main definitions

* `Tig.visibleSnapshotSet` — the snapshots in the histories of visible changes.
* `Tig.isOpVisible`, `Tig.redactedOpView` — which records of the log are shown, and what is shown
  of the others.
* `Tig.Handlers.diffChange`, `Tig.Handlers.blamePath`, … — the handlers.

## Main results

* `Tig.Handlers.keeps_diffChange`, `Tig.Handlers.keeps_blamePath`, … — none writes refs or a record.
-/

namespace Tig

open Program

variable {H : Type} [LinearOrder H] [Format H]

/-! ## What may be seen -/

omit [LinearOrder H] [Format H] in
/-- The snapshots in the histories of those of the changes that the caller may see. -/
def visibleHistories (caller : PrincipalId) : List ChangeId → ApiM H (List H)
  | [] => return []
  | id :: ids => do
    let change ← engine (getChange id)
    let rest ← visibleHistories caller ids
    if canSee change.1.visibility change.1.author (some caller) then
      return change.1.history ++ rest
    else
      return rest

omit [LinearOrder H] [Format H] in
/-- The snapshots that the caller may see. -/
def visibleSnapshotSet (caller : PrincipalId) : ApiM H (List H) := do
  let ids ← engine listChanges
  visibleHistories caller ids

/-- The change that an entry refers to. -/
def RefSnapshot.referenced {H : Type} : RefSnapshot H → Option ChangeId
  | change id _ => some id
  | head (some id) => some id
  | workspace _ (some m) => some m.1.changeId
  | _ => none

/-- The changes that a record refers to, each once and in order. -/
def referencedChangeIds {H : Type} (op : Op H) : List ChangeId :=
  FiniteMap.sorted ((op.before ++ op.after).filterMap RefSnapshot.referenced).toFinset.val

omit [LinearOrder H] [Format H] in
/-- Are all these changes there, and may the caller see them? -/
def allVisible (caller : PrincipalId) : List ChangeId → ApiM H Bool
  | [] => return true
  | id :: ids => do
    let found ← engine (tryCatch (do return some (← getChange id)) fun
      | .notFound _ => return none
      | e => throw e)
    match found with
    | none => return false
    | some c =>
      if canSee c.1.visibility c.1.author (some caller) then allVisible caller ids
      else return false

omit [LinearOrder H] [Format H] in
/-- May the caller see this record? -/
def isOpVisible (op : Op H) (caller : PrincipalId) : ApiM H Bool :=
  allVisible caller (referencedChangeIds op)

/-- What is shown of a record that the caller may not see. -/
def redactedOpView {H : Type} (op : Op H) : OpView where
  id := op.id
  tsNs := op.tsNs
  actor := "<redacted>"
  kind := "Redacted"
  oneLine := "<redacted>"

/-! ## Arguments -/

/-- A hash in a request. -/
def parseHash (s : String) : Except ApiError H :=
  (HashFn.fromHex s).mapError fun e => .badRequest ("invalid hash: " ++ e.toText)

/-- The components of a path in a request. -/
def pathParts (path : String) : Except ApiError (List String) :=
  let parts := ((path.toList.splitOn '/').map String.ofList).filter (· ≠ "")
  if parts = [] then .error (.badRequest "empty path")
  else
    match parts.find? fun p => p = "." ∨ p = ".." ∨ '\x00' ∈ p.toList with
    | some p => .error (.badRequest ("invalid path component: " ++ p))
    | none => .ok parts

/-- The snapshot named in a request, or else that of the change. -/
def snapArgument (arg : Option String) (current : H) : Except ApiError H :=
  match arg with
  | some s => parseHash s
  | none => .ok current

/-- What readers of files work with: the functions of libraries, and how deep a recursion can
go. -/
structure Reader where
  lib : TextLib
  stackDepth : Nat

/-- Read from the object store. -/
def readStore {α : Type} (f : ObjectStore H → Except Error α) : RepoM H α := do
  step .objectRead
  let w ← get
  fromExcept (f w.repo.objects)

namespace Handlers

/-! ## Changes and trees -/

omit [LinearOrder H] in
/-- Those of the changes that the caller may see. -/
def visibleChanges (caller : PrincipalId) : List ChangeId → ApiM H (List ChangeView)
  | [] => return []
  | id :: ids => do
    let c ← engine (Tig.getChange id)
    let rest ← visibleChanges caller ids
    if canSee c.1.visibility c.1.author (some caller) then
      return ChangeView.fromCore c.1 :: rest
    else
      return rest

omit [LinearOrder H] in
/-- `GET /v1/changes`. -/
def listChanges (srv : Server) (headers : HeaderMap) : ApiM H (List ChangeView) := do
  let caller ← callerFrom srv headers
  let ids ← engine Tig.listChanges
  visibleChanges caller ids

omit [LinearOrder H] in
/-- `GET /v1/changes/{id}`. -/
def getChange (srv : Server) (id : String) (headers : HeaderMap) : ApiM H ChangeView := do
  let id ← fromExcept (parseChangeId id)
  let caller ← callerFrom srv headers
  let change ← loadVisibleChange id caller
  return ChangeView.fromCore change.1

/-- `GET /v1/changes/{id}/tree`. -/
def getTreeRoot (srv : Server) (id : String) (headers : HeaderMap) : ApiM H TreeView := do
  let id ← fromExcept (parseChangeId id)
  let caller ← callerFrom srv headers
  let change ← loadVisibleChange id caller
  let snap : Snapshot H ← engine (loadObject change.1.current)
  let tree : Tree H ← engine (loadObject snap.tree)
  return TreeView.fromCore (some snap.tree) tree

/-- What is at a path of a tree. -/
inductive TreePathView where
  | file (etag : String) (bytes : Bytes)
  | tree (view : TreeView)
  | sealed (view : SealedView)
deriving DecidableEq, Repr

/-- What is at a path of a tree, as it is shown. -/
def showEntry (tree : H) (path : String) (entry : TreeEntry H) : ApiM H TreePathView :=
  match entry.kind with
  | .file => do
    let bytes ← engine (readStore fun s => readBlobAtPath s tree path)
    return .file ("\"" ++ HashFn.toHex entry.target ++ "\"") bytes
  | .tree => do
    let t ← engine (readStore fun s => listTree s tree path)
    return .tree (TreeView.fromCore (some entry.target) t)
  | .sealed => do
    let sealed : Sealed ← engine (loadObject entry.target)
    return .sealed (SealedView.fromCore sealed)
  | other => throw (.badRequest ("path " ++ debugStr path ++ " is a " ++ other.toText ++
      "; GET only supports File, Tree, and Sealed"))

/-- `GET /v1/changes/{id}/tree/{path}`. -/
def getTreePath (srv : Server) (id path : String) (headers : HeaderMap) :
    ApiM H TreePathView := do
  let id ← fromExcept (parseChangeId id)
  let caller ← callerFrom srv headers
  let change ← loadVisibleChange id caller
  let snap : Snapshot H ← engine (loadObject change.1.current)
  let parts ← fromExcept (pathParts path)
  let entry ← engine (readStore fun s => lookupEntry s snap.tree parts)
  showEntry snap.tree path entry

/-! ## Comparing -/

/-- The tree to compare with: that of the snapshot named, or that of the first parent, or an
empty one. -/
def diffFromTree (fromSnap : Option String) (toSnap : Snapshot H) : ApiM H H :=
  match fromSnap with
  | some s => do
    let h ← fromExcept (parseHash s)
    let snap : Snapshot H ← engine (loadObject h)
    return snap.tree
  | none =>
    match toSnap.parents with
    | parentHash :: _ => do
      let parent : Snapshot H ← engine (loadObject parentHash)
      return parent.tree
    | [] => engine (storeObject (Tree.new : Tree H))

/-- Is the snapshot named one of these? If none is named there is nothing to check. -/
def fromSnapVisible (fromSnap : Option String) (visible : List H) : Except ApiError Bool :=
  match fromSnap with
  | some s => (parseHash s).map fun h => decide (h ∈ visible)
  | none => .ok true

/-- Compare two snapshots on behalf of a caller who may see the change `id`, which is at `current`.
The snapshots are read before it is checked that they are visible. -/
def diffSnapshots (rd : Reader) (id : ChangeId) (caller : PrincipalId) (q : DiffQuery)
    (current : H) : ApiM H DiffView := do
  let toSnapHash ← fromExcept (snapArgument q.toSnap current)
  let toSnap : Snapshot H ← engine (loadObject toSnapHash)
  let fromTree ← diffFromTree q.fromSnap toSnap
  let visible ← visibleSnapshotSet caller
  let fromVisible ← fromExcept (fromSnapVisible q.fromSnap visible)
  if toSnapHash ∉ visible ∨ fromVisible = false then
    throw (changeNotFound id)
  else
    let diffs ← engine (readStore fun s =>
      diffTrees rd.lib s ⟨q.noHunks, q.paths, 3⟩ rd.stackDepth fromTree toSnap.tree)
    return ⟨HashFn.toHex fromTree, HashFn.toHex toSnap.tree, diffs.map FileDiffView.fromCore⟩

/-- `GET /v1/changes/{id}/diff`. -/
def diffChange (srv : Server) (rd : Reader) (id : String) (q : DiffQuery) (headers : HeaderMap) :
    ApiM H DiffView := do
  let id ← fromExcept (parseChangeId id)
  let caller ← callerFrom srv headers
  let change ← loadVisibleChange id caller
  diffSnapshots rd id caller q change.1.current

/-! ## Blaming, searching, and raw snapshots -/

/-- The snapshot that a request is about, which must be visible. -/
def visibleSnapshot (id : String) (snap : Option String) (caller : PrincipalId) : ApiM H H := do
  let change ← loadVisibleChange id caller
  let atHash ← fromExcept (snapArgument snap change.1.current)
  let visible ← visibleSnapshotSet caller
  if atHash ∈ visible then return atHash
  else throw (.notFound ("snapshot " ++ shortHex atHash ++ " not visible"))

/-- `GET /v1/changes/{id}/blame/{path}`. -/
def blamePath (srv : Server) (rd : Reader) (id path : String) (q : BlameQuery)
    (headers : HeaderMap) : ApiM H BlameView := do
  let id ← fromExcept (parseChangeId id)
  let caller ← callerFrom srv headers
  let atHash ← visibleSnapshot id q.snap caller
  let blamed ← engine (readStore fun s => blameAt rd.lib s path rd.stackDepth atHash)
  return ⟨path, HashFn.toHex atHash, blamed.map BlameLineView.fromCore⟩

/-- `GET /v1/changes/{id}/grep`. -/
def grepChange (srv : Server) (rd : Reader) (id : String) (q : GrepQuery) (headers : HeaderMap) :
    ApiM H GrepView := do
  let id ← fromExcept (parseChangeId id)
  let caller ← callerFrom srv headers
  let atHash ← visibleSnapshot id q.snap caller
  let snap : Snapshot H ← engine (loadObject atHash)
  let opts : GrepOptions := ⟨q.regex, q.ignoreCase, q.parsedPaths, q.maxPerFile, q.maxTotal⟩
  let results ← engine (readStore fun s => grepTree rd.lib s opts rd.stackDepth snap.tree q.q)
  return ⟨HashFn.toHex atHash, results⟩

/-- `GET /v1/snapshots/{hash}`. -/
def getSnapshot (srv : Server) (hash : String) (headers : HeaderMap) : ApiM H SnapshotView := do
  let h ← fromExcept (parseHash hash)
  let caller ← callerFrom srv headers
  let visible ← visibleSnapshotSet caller
  if h ∈ visible then
    let raw ← engine (readStore fun s => s.get h)
    if raw.kind = .snapshot then
      let snap : Snapshot H ← fromExcept ((decode H raw).mapError ApiError.ofCore)
      return SnapshotView.fromCore h snap
    else
      throw (.badRequest ("object " ++ hash ++ " is a " ++ raw.kind.name ++ ", not a snapshot"))
  else
    throw (.notFound ("snapshot " ++ hash))

/-! ## The log -/

/-- The last `limit` records. -/
def lastOps {H : Type} (limit : Option Nat) (ops : List (Op H)) : List (Op H) :=
  match limit with
  | some limit => if ops.length > limit then ops.drop (ops.length - limit) else ops
  | none => ops

omit [LinearOrder H] in
/-- What is shown of records. -/
def showOps (caller : PrincipalId) : List (Op H) → ApiM H (List OpView)
  | [] => return []
  | op :: ops => do
    let visible ← isOpVisible op caller
    let rest ← showOps caller ops
    return (if visible then OpView.fromCore op else redactedOpView op) :: rest

omit [LinearOrder H] in
/-- `GET /v1/oplog`. -/
def listOplog (srv : Server) (limit : Option Nat) (headers : HeaderMap) :
    ApiM H (List OpView) := do
  let caller ← callerFrom srv headers
  let ops ← engine listOps
  showOps caller (lastOps limit ops)

end Handlers

/-! ## A handler that reads writes no refs and no record -/

section Keeps

variable {w : World H} {caller : PrincipalId}

theorem Keeps.tryCatch {ε α : Type} {x : EStateM ε (World H) α}
    {handle : ε → EStateM ε (World H) α} {P : α → World H → Prop} (hx : Keeps x w P)
    (hh : ∀ e w₁, w.Kept w₁ → Keeps (handle e) w₁ P) :
    Keeps (MonadExcept.tryCatch x handle) w P :=
  (post_tryCatch handle).mpr (Post.mono hx (fun _ _ h => h) fun e w₁ hk =>
    Post.mono (hh e w₁ hk) (fun _ _ h => ⟨hk.trans h.1, h.2⟩) (fun _ _ h => hk.trans h))

theorem keeps_readStore {α : Type} {f : ObjectStore H → Except Error α} :
    Keeps (readStore f) w fun _ _ => True := by
  refine Keeps.bind (keeps_step (by simp [FsStep.Mutates])) fun _ w₁ _ _ => ?_
  refine Keeps.bind (P := fun _ _ => True) ?_ fun v w₂ _ _ => ?_
  · exact ⟨World.Quiet.kept (.refl w₁), trivial⟩
  · exact Keeps.fromExcept fun _ _ => trivial

theorem keeps_listChanges : Keeps (listChanges : RepoM H _) w fun _ _ => True :=
  listChanges_spec (fun _ hs hr => ⟨(World.Quiet.of_repo hs hr).kept, trivial⟩)
    (fun _ _ hs hr _ => (World.Quiet.of_repo hs hr).kept)

theorem keeps_visibleHistories {ids : List ChangeId} :
    Keeps (visibleHistories caller ids : ApiM H _) w fun _ _ => True := by
  induction ids generalizing w with
  | nil => exact Keeps.pure trivial
  | cons id ids ih =>
    refine Keeps.bind keeps_getChange.engine fun change w₁ _ _ => ?_
    refine Keeps.bind ih fun rest w₂ _ _ => ?_
    split
    · exact Keeps.pure trivial
    · exact Keeps.pure trivial

theorem keeps_visibleSnapshotSet :
    Keeps (visibleSnapshotSet caller : ApiM H _) w fun _ _ => True :=
  Keeps.bind keeps_listChanges.engine fun _ _ _ _ => keeps_visibleHistories

theorem keeps_allVisible {ids : List ChangeId} :
    Keeps (allVisible caller ids : ApiM H _) w fun _ _ => True := by
  induction ids generalizing w with
  | nil => exact Keeps.pure trivial
  | cons id ids ih =>
    refine Keeps.bind (P := fun _ _ => True) (Keeps.engine ?_) fun found w₁ _ _ => ?_
    · refine Keeps.tryCatch (Keeps.bind keeps_getChange fun _ _ _ _ => Keeps.pure trivial)
        fun e w₁ _ => ?_
      split
      · exact Keeps.pure trivial
      · exact Keeps.throw
    · cases found with
      | none => exact Keeps.pure trivial
      | some c =>
        dsimp only
        split
        · exact ih
        · exact Keeps.pure trivial

/-- A handler that parses an argument and resolves the caller first. -/
theorem keeps_resolved {α β : Type} {srv : Server} {headers : HeaderMap} {arg : Except ApiError α}
    {f : α → PrincipalId → ApiM H β}
    (hf : ∀ a caller w₁, Keeps (f a caller) w₁ fun _ _ => True) :
    Keeps (do
      let a ← fromExcept arg
      let caller ← callerFrom srv headers
      f a caller) w fun _ _ => True :=
  Keeps.bind (P := fun _ _ => True) (Keeps.fromExcept fun _ _ => trivial) fun a _ _ _ =>
    Keeps.bind keeps_callerFrom fun caller w₁ _ _ => hf a caller w₁

namespace Handlers

variable {srv : Server} {rd : Reader} {headers : HeaderMap}

theorem keeps_visibleChanges {ids : List ChangeId} :
    Keeps (visibleChanges caller ids : ApiM H _) w fun _ _ => True := by
  induction ids generalizing w with
  | nil => exact Keeps.pure trivial
  | cons id ids ih =>
    refine Keeps.bind keeps_getChange.engine fun c w₁ _ _ => ?_
    refine Keeps.bind ih fun rest w₂ _ _ => ?_
    split
    · exact Keeps.pure trivial
    · exact Keeps.pure trivial

theorem keeps_listChanges : Keeps (listChanges srv headers : ApiM H _) w fun _ _ => True := by
  refine Keeps.bind keeps_callerFrom fun caller w₁ _ _ => ?_
  exact Keeps.bind Tig.keeps_listChanges.engine fun ids w₂ _ _ => keeps_visibleChanges

theorem keeps_getChange {id : String} :
    Keeps (getChange srv id headers : ApiM H _) w fun _ _ => True :=
  keeps_resolved fun _ _ _ =>
    Keeps.bind keeps_loadVisibleChange fun _ _ _ _ => Keeps.pure trivial

theorem keeps_getTreeRoot {id : String} :
    Keeps (getTreeRoot srv id headers : ApiM H _) w fun _ _ => True := by
  refine keeps_resolved fun id caller w₁ => ?_
  refine Keeps.bind keeps_loadVisibleChange fun change w₂ _ _ => ?_
  refine Keeps.bind keeps_loadObject.engine fun snap w₃ _ _ => ?_
  exact Keeps.bind keeps_loadObject.engine fun tree w₄ _ _ => Keeps.pure trivial

theorem keeps_showEntry {tree : H} {path : String} {entry : TreeEntry H} :
    Keeps (showEntry tree path entry) w fun _ _ => True := by
  rw [showEntry]
  split
  · exact Keeps.bind keeps_readStore.engine fun _ _ _ _ => Keeps.pure trivial
  · exact Keeps.bind keeps_readStore.engine fun _ _ _ _ => Keeps.pure trivial
  · exact Keeps.bind keeps_loadObject.engine fun _ _ _ _ => Keeps.pure trivial
  · exact Keeps.throw

theorem keeps_getTreePath {id path : String} :
    Keeps (getTreePath srv id path headers : ApiM H _) w fun _ _ => True := by
  refine keeps_resolved fun id caller w₁ => ?_
  refine Keeps.bind keeps_loadVisibleChange fun change w₂ _ _ => ?_
  refine Keeps.bind keeps_loadObject.engine fun snap w₃ _ _ => ?_
  refine Keeps.bind (P := fun _ _ => True) (Keeps.fromExcept fun _ _ => trivial)
    fun parts w₄ _ _ => ?_
  exact Keeps.bind keeps_readStore.engine fun entry w₅ _ _ => keeps_showEntry

/-- The tree to compare with is at most stored. -/
theorem keeps_diffFromTree {fromSnap : Option String} {toSnap : Snapshot H} :
    Keeps (diffFromTree fromSnap toSnap) w fun _ _ => True := by
  unfold diffFromTree
  cases fromSnap with
  | some s =>
    refine Keeps.bind (P := fun _ _ => True) (Keeps.fromExcept fun _ _ => trivial)
      fun h w₁ _ _ => ?_
    exact Keeps.bind keeps_loadObject.engine fun snap w₂ _ _ => Keeps.pure trivial
  | none =>
    dsimp only
    split
    · exact Keeps.bind keeps_loadObject.engine fun parent w₁ _ _ => Keeps.pure trivial
    · exact (keeps_storeObject LawfulFormat.tree).engine.mono (fun _ _ h => ⟨h.1, trivial⟩)
        (fun _ _ h => h)

theorem keeps_diffSnapshots {id : ChangeId} {q : DiffQuery} {current : H} :
    Keeps (diffSnapshots rd id caller q current) w fun _ _ => True := by
  refine Keeps.bind (P := fun _ _ => True) (Keeps.fromExcept fun _ _ => trivial)
    fun toSnapHash w₁ _ _ => ?_
  refine Keeps.bind keeps_loadObject.engine fun toSnap w₂ _ _ => ?_
  refine Keeps.bind keeps_diffFromTree fun fromTree w₃ _ _ => ?_
  refine Keeps.bind keeps_visibleSnapshotSet fun visible w₄ _ _ => ?_
  refine Keeps.bind (P := fun _ _ => True) (Keeps.fromExcept fun _ _ => trivial)
    fun fromVisible w₅ _ _ => ?_
  split
  · exact Keeps.throw
  · exact Keeps.bind keeps_readStore.engine fun diffs w₆ _ _ => Keeps.pure trivial

theorem keeps_diffChange {id : String} {q : DiffQuery} :
    Keeps (diffChange srv rd id q headers : ApiM H _) w fun _ _ => True :=
  keeps_resolved fun _ _ _ =>
    Keeps.bind keeps_loadVisibleChange fun _ _ _ _ => keeps_diffSnapshots

theorem keeps_visibleSnapshot {id : String} {snap : Option String} :
    Keeps (visibleSnapshot id snap caller : ApiM H _) w fun _ _ => True := by
  refine Keeps.bind keeps_loadVisibleChange fun change w₁ _ _ => ?_
  refine Keeps.bind (P := fun _ _ => True) (Keeps.fromExcept fun _ _ => trivial)
    fun atHash w₂ _ _ => ?_
  refine Keeps.bind keeps_visibleSnapshotSet fun visible w₃ _ _ => ?_
  split
  · exact Keeps.pure trivial
  · exact Keeps.throw

theorem keeps_blamePath {id path : String} {q : BlameQuery} :
    Keeps (blamePath srv rd id path q headers : ApiM H _) w fun _ _ => True := by
  refine keeps_resolved fun id caller w₁ => ?_
  refine Keeps.bind keeps_visibleSnapshot fun atHash w₂ _ _ => ?_
  exact Keeps.bind keeps_readStore.engine fun blamed w₃ _ _ => Keeps.pure trivial

theorem keeps_grepChange {id : String} {q : GrepQuery} :
    Keeps (grepChange srv rd id q headers : ApiM H _) w fun _ _ => True := by
  refine keeps_resolved fun id caller w₁ => ?_
  refine Keeps.bind keeps_visibleSnapshot fun atHash w₂ _ _ => ?_
  refine Keeps.bind keeps_loadObject.engine fun snap w₃ _ _ => ?_
  exact Keeps.bind keeps_readStore.engine fun results w₄ _ _ => Keeps.pure trivial

theorem keeps_getSnapshot {hash : String} :
    Keeps (getSnapshot srv hash headers : ApiM H _) w fun _ _ => True := by
  refine keeps_resolved fun h caller w₁ => ?_
  refine Keeps.bind keeps_visibleSnapshotSet fun visible w₂ _ _ => ?_
  split
  · refine Keeps.bind keeps_readStore.engine fun raw w₃ _ _ => ?_
    split
    · exact Keeps.bind (P := fun _ _ => True) (Keeps.fromExcept fun _ _ => trivial)
        fun snap w₄ _ _ => Keeps.pure trivial
    · exact Keeps.throw
  · exact Keeps.throw

theorem keeps_showOps {ops : List (Op H)} :
    Keeps (showOps caller ops) w fun _ _ => True := by
  induction ops generalizing w with
  | nil => exact Keeps.pure trivial
  | cons op ops ih =>
    refine Keeps.bind keeps_allVisible fun visible w₁ _ _ => ?_
    exact Keeps.bind ih fun rest w₂ _ _ => Keeps.pure trivial

theorem keeps_listOplog {limit : Option Nat} :
    Keeps (listOplog srv limit headers : ApiM H _) w fun _ _ => True := by
  refine Keeps.bind keeps_callerFrom fun caller w₁ _ _ => ?_
  have hlist : Keeps (listOps : RepoM H _) w₁ fun _ _ => True :=
    listOps_spec (fun _ hs hr => ⟨(World.Quiet.of_repo hs hr).kept, trivial⟩)
      (fun _ _ hs hr _ => (World.Quiet.of_repo hs hr).kept)
  exact Keeps.bind hlist.engine fun ops w₂ _ _ => keeps_showOps

end Handlers

end Keeps

end Tig
