import Tig.Guarantees.HiddenHashes

set_option relaxedAutoImplicit false
set_option autoImplicit false

/-!
# Changes that a caller may not see

A request that is addressed to a change goes no further than the gate when the caller may not see the
change. So it ends as it would if the change were not there, and leaves refs and log as they are.

## Main definitions

* `Tig.ChangeRequest` — the requests that are addressed to a change.
* `Tig.Blind` — a program fails, and in the same way over another repository.

## Main results

* `Tig.ChangeRequest.respond_hidden` — **a hidden change is indistinguishable from an absent one**.
-/

namespace Tig

open Program

variable {H : Type} [LinearOrder H] [Format H]

/-! ## Requests -/

/-- A request that is addressed to a change, apart from the id of the change. A change is created from
it. -/
inductive ChangeRequest where
  | getChange
  | getTreeRoot
  | getTreePath (path : String)
  | patchTreePath (path : String) (body : Bytes)
  | deleteTreePath (path : String)
  | snapChange (req : SnapReq)
  | transitionChange (req : TransitionReq)
  | diffChange (q : DiffQuery)
  | blamePath (path : String) (q : BlameQuery)
  | grepChange (q : GrepQuery)
  | createChange (req : CreateChangeReq)

/-- The answer to such a request. -/
inductive ChangeAnswer where
  | change (view : ChangeView)
  | tree (view : TreeView)
  | path (view : Handlers.TreePathView)
  | snap (resp : SnapResp)
  | diff (view : DiffView)
  | blame (view : BlameView)
  | grep (view : GrepView)

/-- Handle a request that is addressed to the change `x`. -/
def ChangeRequest.respond (srv : Server) (rd : Reader) (headers : HeaderMap) (x : String) :
    ChangeRequest → ApiM H ChangeAnswer
  | getChange => ChangeAnswer.change <$> Handlers.getChange srv x headers
  | getTreeRoot => ChangeAnswer.tree <$> Handlers.getTreeRoot srv x headers
  | getTreePath path => ChangeAnswer.path <$> Handlers.getTreePath srv x path headers
  | patchTreePath path body => ChangeAnswer.change <$> Handlers.patchTreePath srv x path headers body
  | deleteTreePath path => ChangeAnswer.change <$> Handlers.deleteTreePath srv x path headers
  | snapChange req => ChangeAnswer.snap <$> Handlers.snapChange srv x headers req
  | transitionChange req => ChangeAnswer.change <$> Handlers.transitionChange srv x headers req
  | diffChange q => ChangeAnswer.diff <$> Handlers.diffChange srv rd x q headers
  | blamePath path q => ChangeAnswer.blame <$> Handlers.blamePath srv rd x path q headers
  | grepChange q => ChangeAnswer.grep <$> Handlers.grepChange srv rd x q headers
  | createChange req =>
      ChangeAnswer.change <$> Handlers.createChange srv headers { req with fromChange := some x }

/-- The state in which the record of the change is deleted. -/
def World.withoutChange (w : World H) (x : ChangeId) : World H :=
  w.setRefs (w.repo.refs.write (.change x none))

/-! ## Whom a request is made by -/

omit [LinearOrder H] [Format H] in
/-- Requests with the same headers are made by the same caller. -/
theorem CallerIs.eq {srv : Server} {headers : HeaderMap} {caller caller' : PrincipalId}
    (h : CallerIs H srv headers caller) (h' : CallerIs H srv headers caller') : caller = caller' := by
  obtain ⟨v, v₁, h⟩ := h
  obtain ⟨u, u₁, h'⟩ := h'
  rw [callerFrom] at h h'
  cases hauth : headers.getStr AUTH_HEADER with
  | none =>
    rw [hauth] at h h'
    cases h
    cases h'
    rfl
  | some auth =>
    rw [hauth] at h h'
    obtain ⟨_, token, _, _, claims, hauth₁, htoken, -, -, hsigned, rfl⟩ :=
      ((bearerCaller_spec hauth).ok h).signed
    obtain ⟨_, token', _, _, claims', hauth₂, htoken', -, -, hsigned', rfl⟩ :=
      ((bearerCaller_spec hauth).ok h').signed
    obtain rfl := Option.some.inj (hauth₁.symm.trans hauth₂)
    obtain rfl := Option.some.inj (htoken.symm.trans htoken')
    obtain rfl := Except.ok.inj (hsigned.peek.symm.trans hsigned'.peek)
    rfl

/-! ## Programs that fail at the gate -/

/-- The program fails without changing refs or log, and in the same way over the repository `r`. -/
structure Blind {α : Type} (r : Repo H) (x : ApiM H α) (w : World H) : Prop where
  agree : Agree (fun u v => v = { u with repo := r }) Eq x x w { w with repo := r }
  kept : Post x w (fun _ _ => False) (fun _ w' => w.Kept w')

section Blind

variable {α β : Type} {r : Repo H} {w : World H} {P : β → World H → Prop}

/-- What comes before the gate does not look at the repository. -/
theorem Blind.bind {x : ApiM H β} {f : β → ApiM H α}
    (hx : Agree (fun u v => v = { u with repo := r }) Eq x x w { w with repo := r })
    (hk : Keeps x w P) (hf : ∀ a w₁, x w = .ok a w₁ → w.Kept w₁ → Blind r (f a) w₁) :
    Blind r (x >>= f) w := by
  refine ⟨agree_bind hx ?_, ?_⟩
  · rintro a w₁ _ _ hrun - rfl rfl
    exact (hf a w₁ hrun (hk.ok hrun).1).agree
  · rw [post_bind]
    refine .of_cases (fun a w₁ hrun => ?_) (fun e w₁ hrun => hk.error hrun)
    have hk₁ : w.Kept w₁ := (hk.ok hrun).1
    exact (hf a w₁ hrun hk₁).kept.mono (fun _ _ h => h) (fun _ _ h => hk₁.trans h)

/-- What comes after the gate is not reached. -/
theorem Blind.bind_left {x : ApiM H β} (hx : Blind r x w) (f : β → ApiM H α) :
    Blind r (x >>= f) w := by
  refine ⟨agree_bind hx.agree ?_, ?_⟩
  · intro a w₁ _ _ hrun
    exact (hx.kept.ok hrun).elim
  · rw [post_bind]
    exact hx.kept.mono (fun _ _ h => h.elim) (fun _ _ h => h)

theorem Blind.map {x : ApiM H β} (hx : Blind r x w) (f : β → α) : Blind r (f <$> x) w := by
  rw [map_eq_pure_bind]
  exact hx.bind_left _

theorem Blind.lock {f : Unit → ApiM H α} (hf : ∀ w₁, w.Kept w₁ → Blind r (f ()) w₁) :
    Blind r (engine lockForWrite >>= f) w :=
  .bind (agree_adaptExcept _ (agree_step r .lock)) keeps_lockForWrite.engine
    fun _ w₁ _ hk => hf w₁ hk

theorem Blind.argument {q : Except ApiError β} {f : β → ApiM H α}
    (hf : ∀ a, q = .ok a → Blind r (f a) w) : Blind r (Program.fromExcept q >>= f) w := by
  refine .bind (agree_fromExcept q rfl) (Keeps.fromExcept (P := fun _ _ => True) fun _ _ => trivial)
    fun a w₁ hrun _ => ?_
  cases q with
  | ok b =>
    cases hrun
    exact hf _ rfl
  | error e => cases hrun

theorem Blind.caller {srv : Server} {headers : HeaderMap} {f : PrincipalId → ApiM H α}
    (hf : ∀ caller w₁, CallerIs H srv headers caller → w.Kept w₁ → Blind r (f caller) w₁) :
    Blind r (callerFrom srv headers >>= f) w :=
  .bind (agree_callerFrom r srv headers) keeps_callerFrom
    fun caller w₁ hrun hk => hf caller w₁ ⟨w, w₁, hrun⟩ hk

omit [LinearOrder H] [Format H] in
/-- The gate, for a caller who may not see the change. -/
theorem loadVisibleChange_hidden {id : ChangeId} {caller : PrincipalId}
    (h : ¬ w.repo.refs.Sees caller id) :
    loadVisibleChange id caller w = .error (changeNotFound id) (w.tick .refRead) := by
  have hpost : Post (loadVisibleChange id caller) w (fun _ _ => False)
      (fun e w' => e = changeNotFound id ∧ w' = w.tick .refRead) := by
    rw [loadVisibleChange, post_bind, post_adaptExcept, Tig.getChange, post_bind, post_step]
    refine ⟨fun _ => ?_, fun _ _ => ⟨rfl, rfl⟩⟩
    rw [post_bind, post_get]
    cases hc : (w.tick .refRead).repo.refs.changes.lookup id with
    | none => exact ⟨rfl, rfl⟩
    | some c =>
      dsimp only
      rw [post_pure, post_ite]
      exact ⟨fun hsee => h ⟨c, hc, hsee⟩, fun _ => ⟨rfl, rfl⟩⟩
  cases hrun : loadVisibleChange id caller w with
  | ok c w' => exact (hpost.ok hrun).elim
  | error e w' =>
    obtain ⟨rfl, rfl⟩ := hpost.error hrun
    rfl

/-- The gate is the same where the change is not there. -/
theorem Blind.gate {id : ChangeId} {caller : PrincipalId} (h : ¬ w.repo.refs.Sees caller id)
    (hr : ¬ r.refs.Sees caller id) : Blind r (loadVisibleChange id caller) w := by
  have hthere := loadVisibleChange_hidden h
  have hnotThere := loadVisibleChange_hidden (w := { w with repo := r }) hr
  constructor
  · unfold Agree
    rw [hthere, hnotThere]
    exact ⟨rfl, rfl⟩
  · refine .of_cases (fun c w' hrun => ?_) (fun e w' hrun => keeps_loadVisibleChange.error hrun)
    rw [hthere] at hrun
    cases hrun

end Blind

/-! ## The handlers -/

section Handlers

variable {α : Type} {srv : Server} {headers : HeaderMap} {caller : PrincipalId} {w : World H}
  {x : ChangeId}

omit [LinearOrder H] [Format H] in
/-- Nobody sees a change whose record is deleted. -/
theorem World.not_sees_withoutChange (w : World H) (x : ChangeId) (caller : PrincipalId) :
    ¬ (w.withoutChange x).repo.refs.Sees caller x := by
  rintro ⟨c, hc, -⟩
  have hread : (w.repo.refs.write (.change x none)).read (.change x) = .change x none :=
    Refs.read_write _ (.change x none)
  rw [Refs.read] at hread
  simp only [RefSnapshot.change.injEq, heq_eq_eq, true_and] at hread
  change (w.repo.refs.write (.change x none)).changes.lookup x = some c at hc
  rw [hread] at hc
  cases hc

/-- The gate, in a state of a request. -/
theorem Blind.hidden {w₁ : World H} (hc : CallerIs H srv headers caller)
    (hhidden : ¬ w.repo.refs.Sees caller x) (hk : w.Kept w₁) {caller' : PrincipalId}
    (hc' : CallerIs H srv headers caller') :
    Blind (w.withoutChange x).repo (loadVisibleChange x caller') w₁ := by
  obtain rfl := hc.eq hc'
  refine .gate ?_ (w.not_sees_withoutChange x caller)
  rw [hk.refs]
  exact hhidden

/-- A handler that looks at the change once it knows the caller. -/
theorem Blind.resolved (hc : CallerIs H srv headers caller)
    (hhidden : ¬ w.repo.refs.Sees caller x) {f : ChangeId → PrincipalId → ApiM H α}
    (hf : ∀ caller w₁, Blind (w.withoutChange x).repo (loadVisibleChange x caller) w₁ →
      Blind (w.withoutChange x).repo (f x caller) w₁) :
    Blind (w.withoutChange x).repo (do
      let id ← fromExcept (parseChangeId x)
      let caller ← callerFrom srv headers
      f id caller) w := by
  refine .argument fun id hid => .caller fun caller' w₁ hc' hk => ?_
  obtain rfl := (parseChangeId_eq_ok.mp hid).2
  exact hf caller' w₁ (.hidden hc hhidden hk hc')

/-- A handler that takes the lock, and reads the snapshot of a change that it is to change. -/
theorem Blind.locked (hc : CallerIs H srv headers caller)
    (hhidden : ¬ w.repo.refs.Sees caller x)
    (f : ChangeId → PrincipalId × Snapshot H → ApiM H α) :
    Blind (w.withoutChange x).repo (do
      engine lockForWrite
      let id ← fromExcept (parseChangeId x)
      let found ← Handlers.mutableSnapshot srv id headers
      f id found) w := by
  refine .lock fun w₁ hk₁ => .argument fun id hid => ?_
  obtain rfl := (parseChangeId_eq_ok.mp hid).2
  refine Blind.bind_left (.caller fun caller' w₂ hc' hk₂ => ?_) _
  exact ((Blind.hidden hc hhidden (hk₁.trans hk₂) hc').bind_left _).bind_left _

theorem Blind.transitionChange (hc : CallerIs H srv headers caller)
    (hhidden : ¬ w.repo.refs.Sees caller x) (req : TransitionReq) :
    Blind (w.withoutChange x).repo (Handlers.transitionChange srv x headers req) w := by
  refine .lock fun w₁ hk₁ => .argument fun id hid => ?_
  obtain rfl := (parseChangeId_eq_ok.mp hid).2
  refine .caller fun caller' w₂ hc' hk₂ => ?_
  exact ((Blind.hidden hc hhidden (hk₁.trans hk₂) hc').bind_left _).bind_left _

/-- Where a change is created from another one, the caller is known before the id is looked at. -/
theorem Blind.createChange (hc : CallerIs H srv headers caller)
    (hhidden : ¬ w.repo.refs.Sees caller x) {req : CreateChangeReq} (hfrom : req.fromChange = some x) :
    Blind (w.withoutChange x).repo (Handlers.createChange srv headers req) w := by
  refine .lock fun w₁ hk₁ => .caller fun caller' w₂ hc' hk₂ => ?_
  refine Blind.bind_left ?_ _
  rw [hfrom]
  refine .argument fun id hid => ?_
  obtain rfl := (parseChangeId_eq_ok.mp hid).2
  exact (Blind.hidden hc hhidden (hk₁.trans hk₂) hc').bind_left _

/-- Every request that is addressed to a hidden change fails at the gate. -/
theorem ChangeRequest.blind (hc : CallerIs H srv headers caller)
    (hhidden : ¬ w.repo.refs.Sees caller x) (rd : Reader) (req : ChangeRequest) :
    Blind (w.withoutChange x).repo (req.respond srv rd headers x) w := by
  cases req with
  | getChange => exact (Blind.resolved hc hhidden fun _ _ h => h.bind_left _).map _
  | getTreeRoot => exact (Blind.resolved hc hhidden fun _ _ h => h.bind_left _).map _
  | getTreePath path => exact (Blind.resolved hc hhidden fun _ _ h => h.bind_left _).map _
  | patchTreePath path body => exact (Blind.locked hc hhidden _).map _
  | deleteTreePath path => exact (Blind.locked hc hhidden _).map _
  | snapChange req => exact (Blind.locked hc hhidden _).map _
  | transitionChange req => exact (Blind.transitionChange hc hhidden req).map _
  | diffChange q => exact (Blind.resolved hc hhidden fun _ _ h => h.bind_left _).map _
  | blamePath path q =>
    exact (Blind.resolved hc hhidden fun _ _ h => (h.bind_left _).bind_left _).map _
  | grepChange q =>
    exact (Blind.resolved hc hhidden fun _ _ h => (h.bind_left _).bind_left _).map _
  | createChange req => exact (Blind.createChange hc hhidden rfl).map _

/-- **A hidden change is indistinguishable from an absent one**: the response to a request that is
addressed to it is the response in the state in which its record is deleted, and refs and log are as
they were before the request. -/
theorem ChangeRequest.respond_hidden (hc : CallerIs H srv headers caller)
    (hhidden : ¬ w.repo.refs.Sees caller x) (rd : Reader) (req : ChangeRequest) :
    outcome (req.respond srv rd headers x) w =
        outcome (req.respond srv rd headers x) (w.withoutChange x) ∧
      (final (req.respond srv rd headers x) w).repo.refs = w.repo.refs ∧
      (final (req.respond srv rd headers x) w).repo.oplog = w.repo.oplog := by
  have hblind := req.blind hc hhidden rd
  have hkept : w.Kept (final (req.respond srv rd headers x) w) :=
    (hblind.kept.mono (fun _ _ h => h.elim) (fun _ _ h => h)).final
  exact ⟨hblind.agree.outcome, hkept.refs, hkept.oplog⟩

end Handlers

/-! ## A private change -/

namespace PrivateChange

/-- The headers of alice's requests. -/
def alice : HeaderMap := [(PRINCIPAL_HEADER, UnreadableToken.name)]

/-- A repository with a private change of alice's, which is called `a`. -/
def world : World PlainHash :=
  final (Handlers.createChange UnreadableToken.server alice ⟨"secret", none, some "private", none⟩)
    { World.fresh .calm with ids := 1 }

/-- The change is there. -/
example : (world.repo.refs.changes.lookup "a").isSome = true := by decide +kernel

theorem callerIs : CallerIs PlainHash UnreadableToken.server [] defaultActor :=
  ⟨world, world, rfl⟩

set_option maxRecDepth 1000000 in
theorem not_sees : ¬ world.repo.refs.Sees defaultActor "a" := by
  rintro ⟨c, hc, hsee⟩
  have hlookup : ∃ c', world.repo.refs.changes.lookup "a" = some c' ∧
      canSee c'.1.visibility c'.1.author (some defaultActor) = false := ⟨_, rfl, rfl⟩
  obtain ⟨c', hc', hnot⟩ := hlookup
  obtain rfl := Option.some.inj (hc'.symm.trans hc)
  rw [hnot] at hsee
  cases hsee

end PrivateChange

open PrivateChange in
/-- The daemon's own actor asks for alice's private change. -/
theorem getChange_private :
    outcome (ChangeRequest.getChange.respond UnreadableToken.server ComparedHash.reader [] "a")
        world =
        outcome (ChangeRequest.getChange.respond UnreadableToken.server ComparedHash.reader [] "a")
          (world.withoutChange "a") ∧
      (final (ChangeRequest.getChange.respond UnreadableToken.server ComparedHash.reader [] "a")
        world).repo.refs = world.repo.refs ∧
      (final (ChangeRequest.getChange.respond UnreadableToken.server ComparedHash.reader [] "a")
        world).repo.oplog = world.repo.oplog :=
  ChangeRequest.respond_hidden callerIs not_sees ComparedHash.reader .getChange

end Tig
