import Tig.Daemon.Api
import Tig.Daemon.Protocol
import Tig.Fs.Operations
import Tig.Store.Gc
import Tig.Store.Undo

set_option relaxedAutoImplicit false
set_option autoImplicit false

/-!
# The handlers that change the repository

A handler parses its request, resolves the caller, checks that the caller may do what it asks,
and calls the engine. Every handler here holds the write lock of the repository while it works;
all of them share one handle on the log.

## Main definitions

* `Tig.loadVisibleChange`, `Tig.loadMutableChange` — a change the caller may see, or may mutate.
* `Tig.Handlers.createChange`, `Tig.Handlers.patchTreePath`, … — the handlers.

## Main results

* `Tig.Handlers.createChange_outcome`, … — each writes refs only together with a record of it.
-/

namespace Tig

open Program

variable {H : Type} [LinearOrder H] [Format H]

/-! ## Access -/

/-- The error of a change that is not there, or that the caller may not see. -/
def changeNotFound (id : ChangeId) : ApiError := .notFound ("change " ++ id)

omit [LinearOrder H] [Format H] in
/-- A change that the caller may see; one that the caller may not see is reported as missing. -/
def loadVisibleChange (id : ChangeId) (caller : PrincipalId) : ApiM H (ChangeAt H id) := do
  let change ← EStateM.adaptExcept (fun _ => changeNotFound id) (getChange id)
  if canSee change.1.visibility change.1.author (some caller) then
    return change
  else
    throw (changeNotFound id)

omit [LinearOrder H] [Format H] in
/-- A change that the caller may mutate. -/
def loadMutableChange (id : ChangeId) (caller : PrincipalId) : ApiM H (ChangeAt H id) := do
  let change ← loadVisibleChange id caller
  if canMutate change.1.author (some caller) then
    return change
  else
    throw (.conflict ("change " ++ id ++ " is owned by " ++ change.1.author ++
      "; only the author can mutate it"))

/-! ## Arguments -/

/-- The id of a change in a path. -/
def parseChangeId (s : String) : Except ApiError ChangeId :=
  if s = "" then .error (.badRequest "empty change id") else .ok s

/-- An id that is accepted is the one in the path. -/
theorem parseChangeId_eq_ok {s : String} {id : ChangeId} :
    parseChangeId s = .ok id ↔ s ≠ "" ∧ id = s := by
  rw [parseChangeId]
  split
  · simp_all
  · simp_all [eq_comm]

/-- A visibility named in a request. -/
def parseVisLabel (s : String) : Except ApiError VisLabel :=
  match VisLabel.ofName s with
  | some vis => .ok vis
  | none => .error (.badRequest
      ("unknown visibility " ++ debugStr s ++ " (try \"public\" or \"private\")"))

/-- A state named in a request. -/
def parseChangeState (s : String) : Except ApiError ChangeState :=
  match ChangeState.ofName (toLowercase s) with
  | some state => .ok state
  | none => .error (.badRequest ("unknown state " ++ debugStr (toLowercase s)))

namespace Handlers

/-! ## Changes -/

/-- The snapshot that a new change starts at. -/
def parentSnapshot (fromChange : Option String) (caller : PrincipalId) : ApiM H H :=
  match fromChange with
  | some s => do
    let id ← fromExcept (parseChangeId s)
    let parent ← loadVisibleChange id caller
    return parent.1.current
  | none => engine (emptySnapshot caller)

/-- `POST /v1/changes`. -/
def createChange (srv : Server) (headers : HeaderMap) (req : CreateChangeReq) :
    ApiM H ChangeView := do
  engine lockForWrite
  let caller ← callerFrom srv headers
  let parentSnap ← parentSnapshot req.fromChange caller
  let id ← engine newUlid
  let change : Change H := Change.new id req.description caller parentSnap
  let visibility ← fromExcept (parseOr parseVisLabel req.visibility change.visibility)
  let state ← fromExcept (parseOr parseChangeState req.state change.state)
  let change := { change with visibility := visibility, state := state }
  engine (putChange change)
  let _ ← engine (appendOp ⟨caller, .changeNew change.id req.description,
    [.change change.id none], [.ofChange change]⟩)
  return ChangeView.fromCore change

/-- The snapshot of a change that the caller may mutate, with the caller. -/
def mutableSnapshot (srv : Server) (id : ChangeId) (headers : HeaderMap) :
    ApiM H (PrincipalId × Snapshot H) := do
  let caller ← callerFrom srv headers
  let change ← loadMutableChange id caller
  let snap : Snapshot H ← engine (loadObject change.1.current)
  return (caller, snap)

/-- Snapshot a change with the tree that `edit` makes of its tree. -/
def editChange (srv : Server) (id : String) (headers : HeaderMap) (edit : H → RepoM H H) :
    ApiM H ChangeView := do
  engine lockForWrite
  let id ← fromExcept (parseChangeId id)
  let (caller, snap) ← mutableSnapshot srv id headers
  let newTree ← engine (edit snap.tree)
  let outcome ← engine (snapChangeDirectly id newTree { SnapOptions.default with author := caller })
  return ChangeView.fromCore outcome.change

/-- `PATCH /v1/changes/{id}/tree/{path}`. -/
def patchTreePath (srv : Server) (id path : String) (headers : HeaderMap) (body : Bytes) :
    ApiM H ChangeView :=
  editChange srv id headers fun tree => writeBlobAtPath tree path body

/-- `DELETE /v1/changes/{id}/tree/{path}`. -/
def deleteTreePath (srv : Server) (id path : String) (headers : HeaderMap) : ApiM H ChangeView :=
  editChange srv id headers fun tree => deleteAtPath tree path

/-- The answer to a snapshot. A failure to read the new snapshot back is a panic. -/
def snapResp : SnapOutcome H → ApiM H SnapResp
  | .snapped snapshot _ change _ => do
    let s : Snapshot H ← EStateM.adaptExcept (fun _ => .internal "panicked") (loadObject snapshot)
    return ⟨"snapped", ChangeView.fromCore change, some (SnapshotView.fromCore snapshot s)⟩
  | .unchanged change => return ⟨"unchanged", ChangeView.fromCore change, none⟩

/-- `POST /v1/changes/{id}/snap`. -/
def snapChange (srv : Server) (id : String) (headers : HeaderMap) (req : SnapReq) :
    ApiM H SnapResp := do
  engine lockForWrite
  let id ← fromExcept (parseChangeId id)
  let (caller, snap) ← mutableSnapshot srv id headers
  let outcome ← engine (snapChangeDirectly id snap.tree { SnapOptions.default with
    author := req.author.getD caller
    message := req.message
    force := req.force.getD false })
  snapResp outcome

/-- `POST /v1/changes/{id}/transition`. -/
def transitionChange (srv : Server) (id : String) (headers : HeaderMap) (req : TransitionReq) :
    ApiM H ChangeView := do
  engine lockForWrite
  let id ← fromExcept (parseChangeId id)
  let caller ← callerFrom srv headers
  let before ← loadMutableChange id caller
  let state ← fromExcept (parseOr parseChangeState req.state before.1.state)
  let visibility ← fromExcept (parseOr parseVisLabel req.visibility before.1.visibility)
  let change := { before.1 with state := state, visibility := visibility }
  engine (putChange change)
  let _ ← engine (appendOp (transitionOp caller before.1 change))
  return ChangeView.fromCore change

/-! ## The log and the store -/

/-- The answer to an undo. -/
def undoResp : Option (UndoOutcome H) → UndoResp
  | some out => ⟨some out.undone.id, some out.undone.kind.oneLine, some out.recorded.id,
      "undid op#" ++ toString out.undone.id⟩
  | none => ⟨none, none, none, "nothing to undo"⟩

/-- `POST /v1/oplog/undo`. The headers of the request are not looked at. -/
def undo (req : UndoReq) : ApiM H UndoResp := do
  engine lockForWrite
  let actor := req.author.getD defaultActor
  let outcome ← engine (undoOnce actor)
  return undoResp outcome

/-- The caller of a collection of garbage. A request without an `Authorization` header is
refused. -/
def gcCaller (srv : Server) (headers : HeaderMap) : ApiM H PrincipalId :=
  if (headers.get AUTH_HEADER).isNone then
    throw (.unauthorized
      "POST /v1/gc requires a signed Bearer token; trust-by-name is not accepted here")
  else
    callerFrom srv headers

/-- `POST /v1/gc`. -/
def gc (srv : Server) (headers : HeaderMap) (body : Option GcReq) : ApiM H GcView := do
  let _ ← gcCaller srv headers
  let req := body.getD GcReq.default
  engine lockForWrite
  let summary ← EStateM.adaptExcept (fun e => .internal ("gc: " ++ e.toText))
    (collectGarbage ⟨req.dryRun, !req.ignoreOplog⟩)
  return ⟨summary.roots, summary.kept, summary.removed, summary.bytesFreed, summary.dryRun⟩

end Handlers

/-! ## What the handlers do before they write -/

variable {w : World H}

theorem Keeps.engine {α : Type} {x : RepoM H α} {P : α → World H → Prop} (h : Keeps x w P) :
    Keeps (engine x) w P :=
  h.adaptExcept

theorem keeps_bearerCaller {srv : Server} {auth : String} :
    Keeps (bearerCaller srv auth : ApiM H PrincipalId) w fun _ _ => True := by
  rw [bearerCaller]
  cases bearerToken auth with
  | none => exact Keeps.throw
  | some token =>
    refine Keeps.bind (P := fun _ _ => True) (Keeps.fromExcept fun _ _ => trivial)
      fun peeked w₁ _ _ => ?_
    refine Keeps.bind (Keeps.adaptExcept (keeps_step (by simp [FsStep.Mutates])))
      fun _ w₂ _ _ => ?_
    refine Keeps.bind (P := fun _ _ => True) (Keeps.fromExcept fun _ _ => trivial)
      fun principal w₃ _ _ => ?_
    refine Keeps.bind (P := fun _ _ => True) (Keeps.fromExcept fun _ _ => trivial)
      fun pubkey w₄ _ _ => ?_
    refine Keeps.bind (P := fun _ _ => True)
      (Keeps.bind keeps_currentTimestampNs.engine fun ns w₅ _ _ => Keeps.pure trivial)
      fun now w₅ _ _ => ?_
    exact Keeps.bind (P := fun _ _ => True) (Keeps.fromExcept fun _ _ => trivial)
      fun claims w₆ _ _ => Keeps.pure trivial

theorem keeps_callerFrom {srv : Server} {headers : HeaderMap} :
    Keeps (callerFrom srv headers : ApiM H PrincipalId) w fun _ _ => True := by
  rw [callerFrom]
  cases headers.getStr AUTH_HEADER with
  | some auth => exact keeps_bearerCaller
  | none => exact Keeps.pure trivial

theorem keeps_loadVisibleChange {id : ChangeId} {caller : PrincipalId} :
    Keeps (loadVisibleChange id caller) w fun c _ =>
      w.repo.refs.changes.lookup id = some c ∧
        canSee c.1.visibility c.1.author (some caller) = true := by
  refine Keeps.bind (Keeps.adaptExcept keeps_getChange) fun c w₁ _ hc => ?_
  split
  · exact Keeps.pure ⟨hc, ‹_›⟩
  · exact Keeps.throw

/-- The caller is the author of a change that it may mutate. -/
theorem keeps_loadMutableChange {id : ChangeId} {caller : PrincipalId} :
    Keeps (loadMutableChange id caller) w fun c _ =>
      w.repo.refs.changes.lookup id = some c ∧ canMutate c.1.author (some caller) = true := by
  refine Keeps.bind keeps_loadVisibleChange fun c w₁ _ hc => ?_
  split
  · exact Keeps.pure ⟨hc.1, ‹_›⟩
  · exact Keeps.throw

namespace Handlers

theorem keeps_mutableSnapshot {srv : Server} {id : ChangeId} {headers : HeaderMap} :
    Keeps (mutableSnapshot srv id headers) w fun _ _ => True := by
  refine Keeps.bind keeps_callerFrom fun caller w₁ _ _ => ?_
  refine Keeps.bind keeps_loadMutableChange fun change w₂ _ _ => ?_
  exact Keeps.bind keeps_loadObject.engine fun snap w₃ _ _ => Keeps.pure trivial

/-- A new change starts at a stored snapshot. -/
theorem keeps_parentSnapshot {fromChange : Option String} {caller : PrincipalId} :
    Keeps (parentSnapshot fromChange caller) w fun h w' =>
      ∀ [LawfulFormat H], w.repo.objects.Intact → RefsOk w.repo.objects w.repo.refs →
        ∃ n, Lineage w'.repo.objects h n := by
  cases fromChange with
  | none =>
    exact Post.mono keeps_emptySnapshot.engine
      (fun h w₁ hs => ⟨hs.1, fun hi _ => ⟨0, hs.2 hi⟩⟩) (fun _ _ hk => hk)
  | some s =>
    refine Keeps.bind (P := fun _ _ => True) (Keeps.fromExcept fun _ _ => trivial)
      fun id w₁ hk₁ _ => ?_
    refine Keeps.bind keeps_loadVisibleChange fun c w₂ hk₂ hc => Keeps.pure fun hi hr => ?_
    rw [hk₁.refs] at hc
    have hok := (hr.changes id c hc.1).mono (hk₁.trans hk₂).le
    exact hok.lineage _ hok.current_mem

/-! ## How the handlers end when no step fails -/

/-- Creating a change under a new id is recorded. -/
theorem recordCreated_outcome {w₁ w₂ : World H} (hw : w.Steady) (hk : w.Kept w₁)
    {actor : PrincipalId} {change : Change H} {description : String} {log : FileLog}
    (hwrote : w₁.Wrote w₂ [.ofChange change] log) (hnew : change.id ∉ w.repo.refs.changes)
    (hid : ∃ n < w₂.ids, change.id = w.env.ulid n)
    (hsound : ∀ [LawfulFormat H], w.repo.objects.Intact → RefsOk w.repo.objects w.repo.refs →
      HistoryOk w₁.repo.objects change) :
    Post (appendOp ⟨actor, .changeNew change.id description, [.change change.id none],
      [.ofChange change]⟩) w₂ (fun _ w' => w.Outcome w') (fun _ w' => w.Outcome w') := by
  have hrefs : w₂.repo.refs = w.repo.refs.write (.ofChange change) := by
    rw [hwrote.refs, hk.refs]
    rfl
  refine appendOp_outcome hw hk hwrote rfl [.change change.id] (by simp) (fun e he => ?_)
    ⟨_, List.mem_cons_self⟩ ?_ ?_ ?_ fun hi hr => ?_
  · obtain rfl := List.mem_singleton.mp he
    exact List.mem_cons_self
  · rw [List.map_singleton, Refs.read, Finmap.lookup_eq_none.mpr hnew]
  · rw [List.map_singleton, hrefs, read_write_change rfl]
  · rw [hrefs, hwrote.env, hk.env]
    exact (hw.ids.mono (hk.idsLe.trans hwrote.ids)).writeChange hid
  · rw [hrefs]
    exact (hr.mono hk.le).writeChange (hsound hi hr)

theorem createChange_outcome (hw : w.Steady) (srv : Server) (headers : HeaderMap)
    (req : CreateChangeReq) :
    Post (createChange srv headers req) w (fun _ w' => w.Outcome w')
      (fun _ w' => w.Outcome w') := by
  have hk := World.Quiet.kept (.refl w)
  refine outcome_bind hk keeps_lockForWrite.engine fun _ w₁ _ hk₁ _ => ?_
  refine outcome_bind hk₁ keeps_callerFrom fun caller w₂ _ hk₂ _ => ?_
  refine outcome_bind hk₂ keeps_parentSnapshot fun h w₃ _ hk₃ hh => ?_
  refine outcome_bind hk₃ keeps_newUlid.engine fun id w₄ hk₃₄ hk₄ hid => ?_
  refine outcome_bind hk₄ (Keeps.fromExcept (P := fun _ _ => True) fun _ _ => trivial)
    fun visibility w₅ hk₄₅ hk₅ _ => ?_
  refine outcome_bind hk₅ (Keeps.fromExcept (P := fun _ _ => True) fun _ _ => trivial)
    fun state w₆ hk₅₆ hk₆ _ => ?_
  obtain ⟨rfl, hids⟩ := hid
  have hrel : w₆.env.Reliable := (hw.kept hk₆).reliable
  have hfresh := hw.ids.not_mem hw.fresh hk₃.idsLe
  rw [post_bind, engine, post_adaptExcept, putChange]
  refine writeRef_spec (.refl w₆) (fun w₇ hwrote₇ => ?_)
    (fun e w₇ hfail _ => absurd (hfail []) hrel.not_failed)
  rw [post_bind, engine, post_adaptExcept]
  refine recordCreated_outcome hw hk₆ hwrote₇ ?_ ⟨w₃.ids, ?_, ?_⟩ fun hi hr => ?_
  · show w₃.env.ulid w₃.ids ∉ _
    rw [hk₃.env]
    exact hfresh.1
  · have hle := (hk₄₅.trans hk₅₆).idsLe.trans hwrote₇.ids
    omega
  · show w₃.env.ulid w₃.ids = _
    rw [hk₃.env]
  · obtain ⟨n, hl⟩ := hh (hk₂.intact hi) (by rw [hk₂.refs]; exact hr.mono hk₂.le)
    exact .start (hl.mono ((hk₃₄.trans hk₄₅).trans hk₅₆).le) rfl rfl

theorem editChange_outcome (hw : w.Steady) (srv : Server) (id : String) (headers : HeaderMap)
    {edit : H → RepoM H H} {path : String} (hedit : EditsPath edit path) :
    Post (editChange srv id headers edit) w (fun _ w' => w.Outcome w')
      (fun _ w' => w.Outcome w') := by
  have hk := World.Quiet.kept (.refl w)
  refine outcome_bind hk keeps_lockForWrite.engine fun _ w₁ _ hk₁ _ => ?_
  refine outcome_bind hk₁ (Keeps.fromExcept (P := fun _ _ => True) fun _ _ => trivial)
    fun id w₂ _ hk₂ _ => ?_
  refine outcome_bind hk₂ keeps_mutableSnapshot fun found w₃ _ hk₃ _ => ?_
  refine outcome_bind hk₃ (hedit.keeps found.2.tree).engine fun newTree w₄ _ hk₄ _ => ?_
  rw [post_bind, engine, post_adaptExcept]
  exact outcome_of_kept hk₄ (snapChangeDirectly_outcome (hw.kept hk₄) id newTree _)

theorem patchTreePath_outcome (hw : w.Steady) (srv : Server) (id path : String)
    (headers : HeaderMap) (body : Bytes) :
    Post (patchTreePath srv id path headers body) w (fun _ w' => w.Outcome w')
      (fun _ w' => w.Outcome w') :=
  editChange_outcome hw srv id headers (editsPath_writeBlobAtPath path body)

theorem deleteTreePath_outcome (hw : w.Steady) (srv : Server) (id path : String)
    (headers : HeaderMap) :
    Post (deleteTreePath srv id path headers) w (fun _ w' => w.Outcome w')
      (fun _ w' => w.Outcome w') :=
  editChange_outcome hw srv id headers (editsPath_deleteAtPath path)

theorem keeps_snapResp {outcome : SnapOutcome H} :
    Keeps (snapResp outcome) w fun _ _ => True := by
  cases outcome with
  | snapped snapshot tree change fresh =>
    exact Keeps.bind (Keeps.adaptExcept keeps_loadObject) fun s w₁ _ _ => Keeps.pure trivial
  | unchanged change => exact Keeps.pure trivial

theorem snapChange_outcome (hw : w.Steady) (srv : Server) (id : String) (headers : HeaderMap)
    (req : SnapReq) :
    Post (snapChange srv id headers req) w (fun _ w' => w.Outcome w')
      (fun _ w' => w.Outcome w') := by
  have hk := World.Quiet.kept (.refl w)
  refine outcome_bind hk keeps_lockForWrite.engine fun _ w₁ _ hk₁ _ => ?_
  refine outcome_bind hk₁ (Keeps.fromExcept (P := fun _ _ => True) fun _ _ => trivial)
    fun id w₂ _ hk₂ _ => ?_
  refine outcome_bind hk₂ keeps_mutableSnapshot fun found w₃ _ hk₃ _ => ?_
  rw [post_bind, engine, post_adaptExcept]
  refine (snapChangeDirectly_outcome (hw.kept hk₃) id found.2.tree _).mono
    (fun outcome w₄ hout => ?_) (fun e w₄ hout => .of_kept hk₃ hout)
  have hout' := World.Outcome.of_kept hk₃ hout
  exact keeps_snapResp.mono (fun _ w₅ h => hout'.trans_kept h.1)
    (fun _ w₅ h => hout'.trans_kept h)

theorem transitionChange_outcome (hw : w.Steady) (srv : Server) (id : String)
    (headers : HeaderMap) (req : TransitionReq) :
    Post (transitionChange srv id headers req) w (fun _ w' => w.Outcome w')
      (fun _ w' => w.Outcome w') := by
  have hk := World.Quiet.kept (.refl w)
  refine outcome_bind hk keeps_lockForWrite.engine fun _ w₁ _ hk₁ _ => ?_
  refine outcome_bind hk₁ (Keeps.fromExcept (P := fun _ _ => True) fun _ _ => trivial)
    fun id w₂ _ hk₂ _ => ?_
  refine outcome_bind hk₂ keeps_callerFrom fun caller w₃ _ hk₃ _ => ?_
  refine outcome_bind hk₃ keeps_loadMutableChange fun before w₄ _ hk₄ hc => ?_
  rw [hk₃.refs] at hc
  refine outcome_bind hk₄ (Keeps.fromExcept (P := fun _ _ => True) fun _ _ => trivial)
    fun state w₅ _ hk₅ _ => ?_
  refine outcome_bind hk₅ (Keeps.fromExcept (P := fun _ _ => True) fun _ _ => trivial)
    fun visibility w₆ _ hk₆ _ => ?_
  have hrel : w₆.env.Reliable := (hw.kept hk₆).reliable
  rw [post_bind, engine, post_adaptExcept, putChange]
  refine writeRef_spec (.refl w₆) (fun w₇ hwrote₇ => ?_)
    (fun e w₇ hfail _ => absurd (hfail []) hrel.not_failed)
  rw [post_bind, engine, post_adaptExcept]
  exact transitionOp_outcome hw hk₆ hwrote₇ hc.1 before.2 rfl rfl

end Handlers

end Tig
