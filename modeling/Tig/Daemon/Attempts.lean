import Tig.Daemon.Handlers

set_option relaxedAutoImplicit false
set_option autoImplicit false

/-!
# Requests that fail half way

What the handlers that create a change and move it to another state do when some step fails. They
check everything first, then write the record of the change, and then the record of the operation.

## Main definitions

* `Tig.Prepares` — a program writes neither refs nor log, and fails only when a step does, or for a
  reason.
* `Tig.CreateChangeReq.Accepted`, `Tig.TransitionReq.Makes` — what the checks ask for.

## Main results

* `Tig.Handlers.createChange_spec`, `Tig.Handlers.transitionChange_spec` — what the handlers do,
  whether or not they fail.
-/

namespace Tig

open Program

variable {H : Type} [LinearOrder H] [Format H] {w : World H}

/-! ## Preparations -/

/-- A program writes objects at most and establishes `P`; when it fails, a step has failed, or `N` is
the reason. -/
def Prepares {ε α : Type} (x : EStateM ε (World H) α) (w : World H) (P : α → World H → Prop)
    (N : Prop) : Prop :=
  Post x w (fun a w' => w.Quiet w' ∧ P a w')
    (fun _ w' => w.Quiet w' ∧ ((∃ e, w.env.Fault e) ∨ N))

section Rules

variable {ε α β : Type} {P : α → World H → Prop} {R : β → World H → Prop} {N : Prop}

/-- What comes after a preparation. -/
theorem Prepares.post_bind {x : EStateM ε (World H) α} {f : α → EStateM ε (World H) β}
    {Q : β → World H → Prop} {E : ε → World H → Prop} (hx : Prepares x w P N)
    (hf : ∀ a w₁, w.Quiet w₁ → P a w₁ → Post (f a) w₁ Q E)
    (herr : ∀ e w', w.Quiet w' → (∃ e, w.env.Fault e) ∨ N → E e w') : Post (x >>= f) w Q E :=
  (Program.post_bind f).mpr
    (Post.mono hx (fun a w₁ h => hf a w₁ h.1 h.2) (fun e w' h => herr e w' h.1 h.2))

theorem Prepares.bind {x : EStateM ε (World H) α} {f : α → EStateM ε (World H) β} {M : Prop}
    (hx : Prepares x w P N) (hN : N → M)
    (hf : ∀ a w₁, w.Quiet w₁ → P a w₁ → Prepares (f a) w₁ R M) : Prepares (x >>= f) w R M := by
  refine hx.post_bind (fun a w₁ hq hP => ?_) (fun _ _ hq h => ⟨hq, h.imp_right hN⟩)
  exact Post.mono (hf a w₁ hq hP) (fun _ _ h => ⟨hq.trans h.1, h.2⟩)
    (fun _ _ h => ⟨hq.trans h.1, hq.env ▸ h.2⟩)

theorem Prepares.pure {a : α} (h : P a w) : Prepares (Pure.pure a : EStateM ε (World H) α) w P N :=
  ⟨.refl w, h⟩

theorem Prepares.throw {e : ε} (h : N) : Prepares (throw e : EStateM ε (World H) α) w P N :=
  ⟨.refl w, .inr h⟩

theorem Prepares.mono {x : EStateM ε (World H) α} {Q : α → World H → Prop} {M : Prop}
    (h : Prepares x w P N) (hP : ∀ a w', P a w' → Q a w') (hN : N → M) : Prepares x w Q M :=
  Post.mono h (fun a w' h => ⟨h.1, hP a w' h.2⟩) (fun _ _ h => ⟨h.1, h.2.imp_right hN⟩)

theorem Prepares.adaptExcept {ε' : Type} {f : ε → ε'} {x : EStateM ε (World H) α}
    (h : Prepares x w P N) : Prepares (EStateM.adaptExcept f x) w P N :=
  (post_adaptExcept f).mpr h

/-- An argument is parsed, or it is the reason. -/
theorem prepares_fromExcept (q : Except ε α) :
    Prepares (fromExcept q) w (fun a w' => q = .ok a ∧ w' = w) (∀ a, q ≠ .ok a) := by
  refine (post_fromExcept q).mpr ⟨fun a ha => ⟨.refl w, ha, rfl⟩, fun e he => ⟨.refl w, .inr ?_⟩⟩
  intro a ha
  rw [he] at ha
  cases ha

end Rules

/-! ## The steps before the first write -/

section Steps

theorem prepares_step {k : FsStep} (hk : ¬ k.Mutates) :
    Prepares (step k) w (fun _ w' => w' = w.tick k) False := by
  refine post_step.mpr ⟨fun _ => ?_, fun e he => ?_⟩
  · exact ⟨.of_repo (.tick w hk) rfl, rfl⟩
  · exact ⟨.of_repo (.tick w hk) rfl, .inl ⟨e, k, _, hk, he⟩⟩

theorem prepares_currentTimestampNs :
    Prepares (currentTimestampNs : RepoM H Nat) w (fun _ _ => True) False :=
  currentTimestampNs_spec fun _ _ hs hr => ⟨.of_repo hs hr, trivial⟩

theorem prepares_newUlid : Prepares (newUlid : RepoM H String) w
    (fun id _ => id = w.env.ulid w.ids) False :=
  newUlid_spec fun _ hs hr _ => ⟨.of_repo hs hr, rfl⟩

theorem prepares_storeObject {α : Type} [Encodable H α] {a : α}
    (hc : ∀ [LawfulFormat H], (Encodable.codec H (α := α)).Lawful) :
    Prepares (storeObject a : RepoM H H) w (fun _ _ => True) False :=
  storeObject_grew hc (fun _ hg => ⟨hg.quiet, trivial⟩) (fun e _ hq hf => ⟨hq, .inl ⟨e, hf⟩⟩)

theorem prepares_emptySnapshot {author : PrincipalId} :
    Prepares (emptySnapshot author : RepoM H H) w (fun _ _ => True) False := by
  refine (prepares_storeObject LawfulFormat.tree).bind id fun treeH w₁ _ _ => ?_
  refine prepares_currentTimestampNs.bind id fun now w₂ _ _ => ?_
  exact prepares_storeObject LawfulFormat.snapshot

theorem prepares_getChange {id : ChangeId} :
    Prepares (getChange id) w (fun c _ => w.repo.refs.changes.lookup id = some c)
      (w.repo.refs.changes.lookup id = none) :=
  getChange_spec (fun _ _ hs hr hc => ⟨.of_repo hs hr, hc⟩)
    (fun e _ hs hr he => ⟨.of_repo hs hr, he.imp (fun hf => ⟨e, hf⟩) (fun h => h.1)⟩)

/-- A caller is resolved, or is the reason. -/
theorem prepares_callerFrom {srv : Server} {headers : HeaderMap} :
    Prepares (callerFrom srv headers : ApiM H PrincipalId) w
      (fun caller w' => callerFrom srv headers w = .ok caller w')
      (∀ caller w', callerFrom srv headers w ≠ .ok caller w') := by
  have hquiet : Post (callerFrom srv headers : ApiM H PrincipalId) w (fun _ w' => w.Quiet w')
      (fun _ w' => w.Quiet w') := by
    have htrivial : Prepares (callerFrom srv headers : ApiM H PrincipalId) w (fun _ _ => True)
        True := by
      rw [callerFrom]
      cases headers.getStr AUTH_HEADER with
      | none => exact Prepares.pure trivial
      | some auth =>
        dsimp only
        rw [bearerCaller]
        cases bearerToken auth with
        | none => exact Prepares.throw trivial
        | some token =>
          dsimp only
          refine (prepares_fromExcept _).bind (fun _ => trivial) fun peeked w₁ _ _ => ?_
          refine (prepares_step (k := .registryRead) (by simp [FsStep.Mutates])).adaptExcept.bind
            (fun _ => trivial) fun _ w₂ _ _ => ?_
          refine (prepares_fromExcept _).bind (fun _ => trivial) fun principal w₃ _ _ => ?_
          refine (prepares_fromExcept _).bind (fun _ => trivial) fun pubkey w₄ _ _ => ?_
          refine (prepares_currentTimestampNs.adaptExcept.bind id fun ns w₅ _ _ =>
            Prepares.pure (P := fun _ _ => True) trivial).bind (fun _ => trivial)
            fun now w₅ _ _ => ?_
          exact (prepares_fromExcept _).bind (fun _ => trivial) fun claims w₆ _ _ =>
            Prepares.pure trivial
    exact Post.mono htrivial (fun _ _ h => h.1) (fun _ _ h => h.1)
  refine .of_cases (fun caller w' hrun => ⟨hquiet.ok hrun, hrun⟩) (fun e w' hrun => ?_)
  refine ⟨hquiet.error hrun, .inr fun caller w'' hok => ?_⟩
  rw [hrun] at hok
  cases hok

theorem prepares_loadVisibleChange {id : ChangeId} {caller : PrincipalId} :
    Prepares (loadVisibleChange id caller) w
      (fun c _ => w.repo.refs.changes.lookup id = some c ∧
        canSee c.1.visibility c.1.author (some caller) = true)
      (∀ c, w.repo.refs.changes.lookup id = some c →
        canSee c.1.visibility c.1.author (some caller) = false) := by
  refine prepares_getChange.adaptExcept.bind (fun hnone c hc => ?_) fun c w₁ _ hc => ?_
  · rw [hnone] at hc
    cases hc
  · split
    · exact Prepares.pure ⟨hc, ‹_›⟩
    · refine Prepares.throw fun c' hc' => ?_
      obtain rfl := Option.some.inj (hc.symm.trans hc')
      exact Bool.eq_false_iff.mpr ‹_›

theorem prepares_loadMutableChange {id : ChangeId} {caller : PrincipalId} :
    Prepares (loadMutableChange id caller) w
      (fun c _ => w.repo.refs.changes.lookup id = some c ∧
        canSee c.1.visibility c.1.author (some caller) = true ∧
        canMutate c.1.author (some caller) = true)
      (∀ c, w.repo.refs.changes.lookup id = some c →
        canSee c.1.visibility c.1.author (some caller) = true →
        canMutate c.1.author (some caller) = false) := by
  refine prepares_loadVisibleChange.bind (fun hno c hc hsee => ?_) fun c w₁ _ hc => ?_
  · rw [hno c hc] at hsee
    cases hsee
  · split
    · exact Prepares.pure ⟨hc.1, hc.2, ‹_›⟩
    · refine Prepares.throw fun c' hc' _ => ?_
      obtain rfl := Option.some.inj (hc.1.symm.trans hc')
      exact Bool.eq_false_iff.mpr ‹_›

end Steps

/-! ## Creating a change -/

/-- What a request to create a change is checked for once the lock is taken: that its caller is
resolved and may see the change that the new one is to start from, and that its visibility and its
state are ones. -/
structure CreateChangeReq.Accepted (req : CreateChangeReq) (srv : Server) (headers : HeaderMap)
    (w : World H) : Prop where
  caller : ∃ caller w₁, callerFrom srv headers (w.tick .lock) = .ok caller w₁ ∧
    ∀ s, req.fromChange = some s → s ≠ "" ∧ ∃ c, w.repo.refs.changes.lookup s = some c ∧
      canSee c.1.visibility c.1.author (some caller) = true
  visibility : ∀ s, req.visibility = some s → ∃ vis, parseVisLabel s = .ok vis
  state : ∀ s, req.state = some s → ∃ state, parseChangeState s = .ok state

omit [LinearOrder H] [Format H] in
/-- An optional argument is parsed when it is parsed if it is there. -/
theorem exists_parseOr_eq_ok {ε α : Type} {parse : String → Except ε α} {arg : Option String}
    {old : α} :
    (∃ a, parseOr parse arg old = .ok a) ↔ ∀ s, arg = some s → ∃ a, parse s = .ok a := by
  cases arg with
  | none => simp [parseOr]
  | some s => simp [parseOr]

namespace Handlers

theorem prepares_parentSnapshot {fromChange : Option String} {caller : PrincipalId} :
    Prepares (parentSnapshot fromChange caller : ApiM H H) w
      (fun _ _ => ∀ s, fromChange = some s → s ≠ "" ∧
        ∃ c, w.repo.refs.changes.lookup s = some c ∧
          canSee c.1.visibility c.1.author (some caller) = true)
      (¬ ∀ s, fromChange = some s → s ≠ "" ∧ ∃ c, w.repo.refs.changes.lookup s = some c ∧
        canSee c.1.visibility c.1.author (some caller) = true) := by
  cases fromChange with
  | none =>
    exact prepares_emptySnapshot.adaptExcept.mono (fun _ _ _ s hs => by cases hs)
      (fun h => h.elim)
  | some s =>
    refine (prepares_fromExcept _).bind (fun hno h => ?_) fun id w₁ hq₁ ⟨hid, _⟩ => ?_
    · exact hno s (parseChangeId_eq_ok.mpr ⟨(h s rfl).1, rfl⟩)
    obtain ⟨hs, rfl⟩ := parseChangeId_eq_ok.mp hid
    refine prepares_loadVisibleChange.bind (fun hno h => ?_) fun c w₂ hq₂ hc =>
      Prepares.pure fun s' hs' => ?_
    · obtain ⟨-, c, hc, hsee⟩ := h _ rfl
      rw [hno c (by rw [hq₁.refs]; exact hc)] at hsee
      cases hsee
    · cases hs'
      rw [hq₁.refs] at hc
      exact ⟨hs, c, hc⟩

/-- **Creating a change** checks the request, and writes nothing when it is refused or a step fails
first; it fails at one of its writes otherwise, or is recorded. -/
theorem createChange_spec {srv : Server} {headers : HeaderMap} {req : CreateChangeReq}
    {Q : ChangeView → World H → Prop} {E : ApiError → World H → Prop}
    (hok : ∀ view change op n w', req.Accepted srv headers w → w.ids ≤ n →
      change.id = w.env.ulid n → w.Committed w' [.ofChange change] op → Q view w')
    (hquiet : ∀ e w', w.Quiet w' → (∃ e, w.env.Fault e) ∨ ¬ req.Accepted srv headers w → E e w')
    (hfailed : ∀ change n err e w', req.Accepted srv headers w → w.ids ≤ n →
      change.id = w.env.ulid n → w.Failed w' [.ofChange change] err → E e w') :
    Post (createChange srv headers req) w Q E := by
  refine (prepares_step (k := .lock) (by simp [FsStep.Mutates])).adaptExcept.post_bind
    (fun _ w₁ hq₁ hw₁ => ?_) (fun e w' hq h => hquiet e w' hq (h.imp_right fun h => h.elim))
  subst hw₁
  refine prepares_callerFrom.post_bind (fun caller w₂ hq₂ hcaller => ?_)
    (fun e w' hq h => hquiet e w' (hq₁.trans hq) (h.imp_right fun hno hacc => ?_))
  swap
  · obtain ⟨caller, w₂, hcaller, -⟩ := hacc.caller
    exact hno caller w₂ hcaller
  have hq₂' := hq₁.trans hq₂
  refine prepares_parentSnapshot.post_bind (fun parentSnap w₃ hq₃ hparent => ?_)
    (fun e w' hq h => hquiet e w' (hq₂'.trans hq) (hq₂'.env ▸ h.imp_right fun hno hacc => hno ?_))
  swap
  · obtain ⟨caller', w₂', hcaller', hfrom⟩ := hacc.caller
    rw [hcaller] at hcaller'
    cases hcaller'
    rw [hq₂'.refs]
    exact hfrom
  rw [hq₂'.refs] at hparent
  have hq₃' := hq₂'.trans hq₃
  refine prepares_newUlid.adaptExcept.post_bind (fun id w₄ hq₄ hid => ?_)
    (fun e w' hq h => hquiet e w' (hq₃'.trans hq) (hq₃'.env ▸ h.imp_right fun h => h.elim))
  have hq₄' := hq₃'.trans hq₄
  refine (prepares_fromExcept _).post_bind (fun visibility w₅ hq₅ hvis => ?_)
    (fun e w' hq h => hquiet e w' (hq₄'.trans hq) (hq₄'.env ▸ h.imp_right fun hno hacc => ?_))
  swap
  · obtain ⟨vis, hvis⟩ := exists_parseOr_eq_ok.mpr hacc.visibility
    exact hno vis hvis
  have hq₅' := hq₄'.trans hq₅
  refine (prepares_fromExcept _).post_bind (fun state w₆ hq₆ hstate => ?_)
    (fun e w' hq h => hquiet e w' (hq₅'.trans hq) (hq₅'.env ▸ h.imp_right fun hno hacc => ?_))
  swap
  · obtain ⟨state, hstate⟩ := exists_parseOr_eq_ok.mpr hacc.state
    exact hno state hstate
  have hq₆' := hq₅'.trans hq₆
  have hacc : req.Accepted srv headers w :=
    ⟨⟨caller, w₂, hcaller, hparent⟩, exists_parseOr_eq_ok.mp ⟨_, hvis.1⟩,
      exists_parseOr_eq_ok.mp ⟨_, hstate.1⟩⟩
  have hid' : id = w.env.ulid w₃.ids := by rw [hid, hq₃'.env]
  rw [Program.post_bind, engine, post_adaptExcept, putChange]
  refine writeRef_spec (.refl w₆) (fun w₇ hw₇ => ?_) (fun e w₇ hfail _ => ?_)
  swap
  · exact hfailed _ w₃.ids e _ w₇ hacc hq₃'.ids hid' ((hfail []).of_quiet hq₆')
  rw [Program.post_bind, engine, post_adaptExcept]
  exact appendOp_spec hw₇ (fun ts w₈ hcom _ _ =>
      hok _ _ _ w₃.ids w₈ hacc hq₃'.ids hid' (hcom.of_quiet hq₆'))
    (fun e w₈ hfail => hfailed _ w₃.ids e _ w₈ hacc hq₃'.ids hid' (hfail.of_quiet hq₆'))

end Handlers

/-! ## Transitions -/

/-- What a transition is checked for once the lock is taken, and the record `c'` that it makes of `c`:
its caller is resolved, may see and mutate the change, and the state and the visibility are ones. -/
structure TransitionReq.Makes (req : TransitionReq) (srv : Server) (headers : HeaderMap)
    (id : String) (w : World H) (c c' : Change H) : Prop where
  id_ne : id ≠ ""
  caller : ∃ caller w₁, callerFrom srv headers (w.tick .lock) = .ok caller w₁ ∧
    canSee c.visibility c.author (some caller) = true ∧ canMutate c.author (some caller) = true
  lookup : ∃ hid : c.id = id, w.repo.refs.changes.lookup id = some ⟨c, hid⟩
  made : ∃ state visibility, parseOr parseChangeState req.state c.state = .ok state ∧
    parseOr parseVisLabel req.visibility c.visibility = .ok visibility ∧
    c' = { c with state := state, visibility := visibility }

omit [LinearOrder H] [Format H] in
/-- A transition makes one record of one record. -/
theorem TransitionReq.Makes.unique {req : TransitionReq} {srv : Server} {headers : HeaderMap}
    {id : String} {c c' d d' : Change H} (h : req.Makes srv headers id w c c')
    (h' : req.Makes srv headers id w d d') : c = d ∧ c' = d' := by
  obtain ⟨hid, hlookup⟩ := h.lookup
  obtain ⟨hid', hlookup'⟩ := h'.lookup
  obtain rfl : c = d := congrArg Subtype.val (Option.some.inj (hlookup.symm.trans hlookup'))
  obtain ⟨state, vis, hstate, hvis, rfl⟩ := h.made
  obtain ⟨state', vis', hstate', hvis', rfl⟩ := h'.made
  obtain rfl := Except.ok.inj (hstate.symm.trans hstate')
  obtain rfl := Except.ok.inj (hvis.symm.trans hvis')
  exact ⟨rfl, rfl⟩

namespace Handlers

/-- **A transition** checks the request, and writes nothing when it is refused or a step fails first;
it fails at one of its writes otherwise, or is recorded. -/
theorem transitionChange_spec {srv : Server} {headers : HeaderMap} {id : String}
    {req : TransitionReq} {Q : ChangeView → World H → Prop} {E : ApiError → World H → Prop}
    (hok : ∀ view c c' op w', req.Makes srv headers id w c c' →
      w.Committed w' [.ofChange c'] op → Q view w')
    (hquiet : ∀ e w', w.Quiet w' →
      ((∃ e, w.env.Fault e) ∨ ∀ c c', ¬ req.Makes srv headers id w c c') → E e w')
    (hfailed : ∀ c c' err e w', req.Makes srv headers id w c c' →
      w.Failed w' [.ofChange c'] err → E e w') :
    Post (transitionChange srv id headers req) w Q E := by
  refine (prepares_step (k := .lock) (by simp [FsStep.Mutates])).adaptExcept.post_bind
    (fun _ w₁ hq₁ hw₁ => ?_) (fun e w' hq h => hquiet e w' hq (h.imp_right fun h => h.elim))
  subst hw₁
  refine (prepares_fromExcept _).post_bind (fun id' w₂ hq₂ hparsed => ?_)
    (fun e w' hq h => hquiet e w' (hq₁.trans hq) (h.imp_right fun hno c c' hmakes => ?_))
  swap
  · exact hno id (parseChangeId_eq_ok.mpr ⟨hmakes.id_ne, rfl⟩)
  obtain ⟨hid, rfl⟩ := hparsed
  obtain ⟨hne, rfl⟩ := parseChangeId_eq_ok.mp hid
  refine prepares_callerFrom.post_bind (fun caller w₃ hq₃ hcaller => ?_)
    (fun e w' hq h => hquiet e w' (hq₁.trans hq) (h.imp_right fun hno c c' hmakes => ?_))
  swap
  · obtain ⟨caller, w₃, hcaller, -⟩ := hmakes.caller
    exact hno caller w₃ hcaller
  have hq₃' := hq₁.trans hq₃
  refine prepares_loadMutableChange.post_bind (fun before w₄ hq₄ hc => ?_)
    (fun e w' hq h => hquiet e w' (hq₃'.trans hq)
      (hq₃'.env ▸ h.imp_right fun hno c c' hmakes => ?_))
  swap
  · obtain ⟨caller', w₃', hcaller', hsee, hmutate⟩ := hmakes.caller
    obtain ⟨hid, hlookup⟩ := hmakes.lookup
    rw [hcaller] at hcaller'
    cases hcaller'
    rw [hno ⟨c, hid⟩ (by rw [hq₃'.refs]; exact hlookup) hsee] at hmutate
    cases hmutate
  rw [hq₃'.refs] at hc
  have hq₄' := hq₃'.trans hq₄
  -- the record that a transition starts from is the one that was read
  have hbefore : ∀ {c c' : Change H}, req.Makes srv headers id' w c c' → c = before.1 := by
    intro c c' hmakes
    obtain ⟨hid, hlookup⟩ := hmakes.lookup
    exact congrArg Subtype.val (Option.some.inj (hlookup.symm.trans hc.1))
  refine (prepares_fromExcept _).post_bind (fun state w₅ hq₅ hstate => ?_)
    (fun e w' hq h => hquiet e w' (hq₄'.trans hq)
      (hq₄'.env ▸ h.imp_right fun hno c c' hmakes => ?_))
  swap
  · obtain ⟨state, _, hstate, -⟩ := hmakes.made
    obtain rfl := hbefore hmakes
    exact hno state hstate
  have hq₅' := hq₄'.trans hq₅
  refine (prepares_fromExcept _).post_bind (fun visibility w₆ hq₆ hvis => ?_)
    (fun e w' hq h => hquiet e w' (hq₅'.trans hq)
      (hq₅'.env ▸ h.imp_right fun hno c c' hmakes => ?_))
  swap
  · obtain ⟨_, visibility, -, hvis, -⟩ := hmakes.made
    obtain rfl := hbefore hmakes
    exact hno visibility hvis
  have hq₆' := hq₅'.trans hq₆
  have hmakes : req.Makes srv headers id' w before.1
      { before.1 with state := state, visibility := visibility } :=
    ⟨hne, ⟨caller, w₃, hcaller, hc.2⟩, ⟨before.2, hc.1⟩, ⟨state, visibility, hstate.1, hvis.1, rfl⟩⟩
  rw [Program.post_bind, engine, post_adaptExcept, putChange]
  refine writeRef_spec (.refl w₆) (fun w₇ hw₇ => ?_) (fun e w₇ hfail _ => ?_)
  swap
  · exact hfailed _ _ e _ w₇ hmakes ((hfail []).of_quiet hq₆')
  rw [Program.post_bind, engine, post_adaptExcept]
  exact appendOp_spec hw₇ (fun ts w₈ hcom _ _ => hok _ _ _ _ w₈ hmakes (hcom.of_quiet hq₆'))
    (fun e w₈ hfail => hfailed _ _ e _ w₈ hmakes (hfail.of_quiet hq₆'))

end Handlers

end Tig
