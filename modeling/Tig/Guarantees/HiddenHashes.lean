import Tig.Guarantees.Callers
import Tig.Guarantees.ChangeRecords
import Tig.Guarantees.Redaction
import Tig.Lib.Relational

set_option relaxedAutoImplicit false
set_option autoImplicit false

/-!
# Hashes that a caller may not see

Whether the answer to a request that names a hidden hash tells what the hash is of. Blaming,
searching and fetching a snapshot check first that the snapshot is visible, and answer the same
whatever is stored under the hash. Comparing reads the snapshots before it checks, so that its
errors tell an absent object from one of another kind and from a snapshot.

## Main definitions

* `Tig.HashRequest` — the requests that can name a snapshot by its hash.
* `Tig.NoOracle` — the answer does not depend on what is stored under the hash.
* `Tig.HashRequest.Gated` — the request is answered without looking the hash up.

## Main results

* `Tig.noOracle_iff` — which requests do not tell.
* `Tig.diff_tells` — a comparison that does.
-/

namespace Tig

open Program

variable {H : Type} [LinearOrder H] [Format H]

/-! ## Requests and what they are about -/

/-- A request that can name a snapshot by its hash. -/
inductive HashRequest where
  | diff (id : String) (q : DiffQuery)
  | blame (id path : String) (q : BlameQuery)
  | grep (id : String) (q : GrepQuery)
  | snapshot (hash : String)

/-- The answer to such a request. -/
inductive HashAnswer where
  | diff (view : DiffView)
  | blame (view : BlameView)
  | grep (view : GrepView)
  | snapshot (view : SnapshotView)

namespace HashRequest

/-- Handle a request. -/
def respond (srv : Server) (rd : Reader) (headers : HeaderMap) : HashRequest → ApiM H HashAnswer
  | diff id q => HashAnswer.diff <$> Handlers.diffChange srv rd id q headers
  | blame id path q => HashAnswer.blame <$> Handlers.blamePath srv rd id path q headers
  | grep id q => HashAnswer.grep <$> Handlers.grepChange srv rd id q headers
  | snapshot hash => HashAnswer.snapshot <$> Handlers.getSnapshot srv hash headers

/-- The argument is this hash. -/
def ArgumentIs (h : H) (arg : Option String) : Prop := ∃ s, arg = some s ∧ parseHash s = .ok h

/-- The request names the hash `h`. -/
def Names (h : H) : HashRequest → Prop
  | diff _ q => ArgumentIs h q.fromSnap ∨ ArgumentIs h q.toSnap
  | blame _ _ q => ArgumentIs h q.snap
  | grep _ q => ArgumentIs h q.snap
  | snapshot hash => parseHash hash = .ok h

/-- The request is about a change that the caller may see, or about none. -/
def OnVisible (r : Refs H) (caller : PrincipalId) : HashRequest → Prop
  | diff id _ | blame id _ _ | grep id _ => id ≠ "" ∧ r.Sees caller id
  | snapshot _ => True

/-- The request is answered before anything is looked up under the hash `h`: every request but a
comparison is, and so is a comparison to another snapshot, if that cannot be read. -/
def Gated (s : ObjectStore H) (h : H) : HashRequest → Prop
  | diff _ q => ∃ t, q.toSnap = some t ∧
      ∀ x : H, parseHash t = .ok x → x ≠ h ∧ ∀ snap : Snapshot H, s.load x ≠ .ok snap
  | blame _ _ _ | grep _ _ | snapshot _ => True

end HashRequest

/-- The snapshot is in the history of a change that the caller may see. -/
def Refs.SeesSnapshot (r : Refs H) (caller : PrincipalId) (h : H) : Prop :=
  ∃ id c, r.changes.lookup id = some c ∧
    canSee c.1.visibility c.1.author (some caller) = true ∧ h ∈ c.1.history

/-- The world with another object file for `h`, or none. -/
def World.withObject (w : World H) (h : H) (file : Option Bytes) : World H :=
  w.setObjects (FiniteMap.set w.repo.objects h file)

/-- The object file is that of an object with the hash `h`, or there is none. -/
def ObjectFile (h : H) (file : Option Bytes) : Prop :=
  ∀ bytes, file = some bytes → ∃ raw : RawObject, raw.hash H = h ∧ bytes = frame raw

/-- The response to the request, status and body, is the same whatever object is stored under
`h`, and if there is none. -/
def NoOracle (srv : Server) (rd : Reader) (headers : HeaderMap) (req : HashRequest) (h : H)
    (w : World H) : Prop :=
  ∀ file file', ObjectFile h file → ObjectFile h file' →
    outcome (req.respond srv rd headers) (w.withObject h file) =
      outcome (req.respond srv rd headers) (w.withObject h file')

/-- The hexadecimal form of the hash is that of no other one, and is written with hexadecimal
digits. -/
structure HexForm (h : H) : Prop where
  inj : ∀ x, HashFn.toHex x = HashFn.toHex h → x = h
  digits : ∀ c ∈ (HashFn.toHex h).toList, c ∈ "0123456789abcdef".toList

/-! ## The caller does not depend on the repository -/

section Caller

variable {w : World H} (r : Repo H)

omit [LinearOrder H] [Format H] in
theorem agree_step (k : FsStep) :
    Agree (fun u v => v = { u with repo := r }) Eq (step k) (step k) w { w with repo := r } := by
  unfold Agree step
  dsimp only
  cases w.env.failure k (w.ticks k) with
  | none => exact ⟨rfl, rfl⟩
  | some e => exact ⟨rfl, rfl⟩

omit [LinearOrder H] [Format H] in
/-- Whom a request is made by does not depend on the repository. -/
theorem agree_callerFrom (srv : Server) (headers : HeaderMap) :
    Agree (fun u v => v = { u with repo := r }) Eq (callerFrom srv headers)
      (callerFrom srv headers) w { w with repo := r } := by
  unfold callerFrom
  cases headers.getStr AUTH_HEADER with
  | none => exact agree_pure rfl rfl
  | some auth =>
    dsimp only
    unfold bearerCaller
    cases bearerToken auth with
    | none => exact agree_throw _ rfl
    | some token =>
      refine agree_bind (agree_fromExcept _ rfl) ?_
      rintro peeked w₁ _ w₁' - - rfl rfl
      refine agree_bind (agree_adaptExcept _ (agree_step r .registryRead)) ?_
      rintro - w₂ - w₂' - - - rfl
      refine agree_bind (agree_fromExcept _ rfl) ?_
      rintro principal w₃ _ w₃' - - rfl rfl
      refine agree_bind (agree_fromExcept _ rfl) ?_
      rintro pubkey w₄ _ w₄' - - rfl rfl
      have hnow : Agree (fun u v => v = { u with repo := r }) Eq nowUnixSeconds nowUnixSeconds w₄
          { w₄ with repo := r } := ⟨rfl, rfl⟩
      refine agree_bind hnow ?_
      rintro now w₅ _ w₅' - - rfl rfl
      refine agree_bind (agree_fromExcept _ rfl) ?_
      rintro claims w₆ _ w₆' - - rfl rfl
      exact agree_pure rfl rfl

/-- Whom a request is made by does not depend on the objects. -/
theorem callerFrom_withObject {srv : Server} {headers : HeaderMap} {caller : PrincipalId}
    {w₁ : World H} (hcaller : callerFrom srv headers w = .ok caller w₁) (h : H)
    (file : Option Bytes) :
    ∃ v, callerFrom srv headers (w.withObject h file) = .ok caller v ∧ v.env = w.env ∧
      v.repo = (w.withObject h file).repo := by
  have henv : w₁.env = w.env := (keeps_callerFrom.ok hcaller).1.env
  obtain ⟨caller', v, hv, rfl, rfl⟩ :=
    (agree_callerFrom (w.withObject h file).repo srv headers).ok hcaller
  exact ⟨_, hv, henv, rfl⟩

end Caller

/-! ## What the gates do -/

section Gates

variable {w : World H} {caller : PrincipalId} {h : H}

/-- A state in which no step fails, over a repository. -/
structure World.Over (repo : Repo H) (w : World H) : Prop where
  repo : w.repo = repo
  reliable : w.env.Reliable

omit [LinearOrder H] [Format H] in
theorem World.Over.read {repo : Repo H} {w w' : World H} (h : w.Over repo) (hs : w.SameRefs w')
    (hr : w'.repo = w.repo) : w'.Over repo :=
  ⟨hr.trans h.repo, hs.env ▸ h.reliable⟩

variable {repo : Repo H}

omit [LinearOrder H] [Format H] in
theorem visibleHistories_spec (hw : w.Over repo) (ids : List ChangeId)
    (hids : ∀ id ∈ ids, id ∈ repo.refs.changes) :
    Post (visibleHistories caller ids) w
      (fun visible w' => w'.Over repo ∧ ∀ x, x ∈ visible ↔ ∃ id ∈ ids, ∃ c,
        repo.refs.changes.lookup id = some c ∧
          canSee c.1.visibility c.1.author (some caller) = true ∧ x ∈ c.1.history)
      (fun _ _ => False) := by
  induction ids generalizing w with
  | nil => exact ⟨hw, fun x => by simp⟩
  | cons id ids ih =>
    obtain ⟨hid, hids⟩ := List.forall_mem_cons.mp hids
    rw [visibleHistories, post_bind, engine, post_adaptExcept]
    refine getChange_spec (fun c w₁ hs hr hc => ?_) (fun e w₁ hs hr he => ?_)
    · rw [hw.repo] at hc
      rw [post_bind]
      refine (ih (hw.read hs hr) hids).mono (fun rest w₂ h₂ => ?_) (fun _ _ h => h)
      obtain ⟨hw₂, hrest⟩ := h₂
      have hhead : ∀ x, (∃ c', repo.refs.changes.lookup id = some c' ∧
          canSee c'.1.visibility c'.1.author (some caller) = true ∧ x ∈ c'.1.history) ↔
          canSee c.1.visibility c.1.author (some caller) = true ∧ x ∈ c.1.history := by
        intro x
        rw [hc]
        constructor
        · rintro ⟨c', hc', h⟩
          obtain rfl := Option.some.inj hc'
          exact h
        · exact fun h => ⟨c, rfl, h⟩
      rw [post_ite]
      refine ⟨fun hsee => ⟨hw₂, fun x => ?_⟩, fun hno => ⟨hw₂, fun x => ?_⟩⟩
      · rw [List.mem_append, hrest, List.exists_mem_cons_iff, hhead, and_iff_right hsee]
      · rw [hrest, List.exists_mem_cons_iff, hhead]
        exact (or_iff_right fun h => hno h.1).symm
    · rcases he with hf | ⟨hnone, -⟩
      · exact hw.reliable.not_fault e hf
      · rw [hw.repo] at hnone
        exact Finmap.lookup_eq_none.mp hnone hid

omit [LinearOrder H] [Format H] in
/-- The snapshots that a caller may see are those in the histories of visible changes. -/
theorem visibleSnapshotSet_spec (hw : w.Over repo) :
    Post (visibleSnapshotSet caller) w
      (fun visible w' => w'.Over repo ∧ ∀ x, x ∈ visible ↔ repo.refs.SeesSnapshot caller x)
      (fun _ _ => False) := by
  rw [visibleSnapshotSet, post_bind, engine, post_adaptExcept]
  refine listChanges_spec (fun w₁ hs hr => ?_) (fun e w₁ _ _ hf => hw.reliable.not_fault e hf)
  rw [hw.repo]
  refine (visibleHistories_spec (hw.read hs hr) _ fun id hid => FiniteMap.mem_sortedKeys.mp hid).mono
    (fun visible w₂ h₂ => ⟨h₂.1, fun x => ?_⟩) (fun _ _ h => h)
  rw [h₂.2, Refs.SeesSnapshot]
  constructor
  · rintro ⟨id, -, c, hc, h⟩
    exact ⟨id, c, hc, h⟩
  · rintro ⟨id, c, hc, h⟩
    exact ⟨id, FiniteMap.mem_sortedKeys.mpr (Finmap.mem_of_lookup_eq_some hc), c, hc, h⟩

omit [LinearOrder H] [Format H] in
/-- A change that the caller may see is found. -/
theorem loadVisibleChange_spec {id : ChangeId} (hw : w.Over repo) (hsees : repo.refs.Sees caller id) :
    Post (loadVisibleChange id caller) w
      (fun c w' => w'.Over repo ∧ repo.refs.changes.lookup id = some c ∧
        canSee c.1.visibility c.1.author (some caller) = true) (fun _ _ => False) := by
  obtain ⟨c, hc, hsee⟩ := hsees
  rw [loadVisibleChange, post_bind, post_adaptExcept]
  refine getChange_spec (fun c' w₁ hs hr hc' => ?_) (fun e w₁ hs hr he => ?_)
  · rw [hw.repo, hc] at hc'
    obtain rfl := Option.some.inj hc'
    rw [post_ite]
    exact ⟨fun _ => ⟨hw.read hs hr, hc, hsee⟩, fun hno => absurd hsee hno⟩
  · rcases he with hf | ⟨hnone, -⟩
    · exact hw.reliable.not_fault e hf
    · rw [hw.repo, hc] at hnone
      cases hnone

/-- A hidden snapshot is reported as such, whatever is stored under its hash. -/
theorem visibleSnapshot_hidden {id : ChangeId} {arg : Option String} (hw : w.Over repo)
    (hsees : repo.refs.Sees caller id) (harg : HashRequest.ArgumentIs h arg)
    (hhidden : ¬ repo.refs.SeesSnapshot caller h) :
    Post (Handlers.visibleSnapshot id arg caller) w (fun _ _ => False)
      (fun e _ => e = .notFound ("snapshot " ++ shortHex h ++ " not visible")) := by
  obtain ⟨s, rfl, hs⟩ := harg
  rw [Handlers.visibleSnapshot, post_bind]
  refine (loadVisibleChange_spec hw hsees).mono (fun c w₁ ⟨hw₁, _⟩ => ?_) (fun _ _ h => h.elim)
  rw [post_bind, post_fromExcept, snapArgument, hs]
  refine ⟨fun atHash hat => ?_, fun e he => by cases he⟩
  obtain rfl := Except.ok.inj hat
  rw [post_bind]
  refine (visibleSnapshotSet_spec hw₁).mono (fun visible w₂ ⟨hw₂, hvis⟩ => ?_) (fun _ _ h => h.elim)
  rw [post_ite, hvis]
  exact ⟨fun hin => absurd hin hhidden, fun _ => rfl⟩

omit [LinearOrder H] [Format H] in
/-- What a handler does once it knows the change and the caller. -/
theorem resolved_spec {α : Type} {srv : Server} {headers : HeaderMap} {id : String}
    {f : ChangeId → PrincipalId → ApiM H α} {w' : World H} (hid : id ≠ "")
    (hcaller : callerFrom srv headers w = .ok caller w') {Q : α → World H → Prop}
    {E : ApiError → World H → Prop} (hf : Post (f id caller) w' Q E) :
    Post (do
      let id ← fromExcept (parseChangeId id)
      let caller ← callerFrom srv headers
      f id caller) w Q E := by
  rw [post_bind, post_fromExcept, parseChangeId, if_neg hid]
  refine ⟨fun id' hid' => ?_, fun e he => by cases he⟩
  obtain rfl := Except.ok.inj hid'
  rw [post_bind, Post, hcaller]
  exact hf

/-- A handler that is about a hidden snapshot says so, whatever is stored under its hash. -/
theorem hidden_spec {α : Type} {srv : Server} {headers : HeaderMap} {id : String}
    {arg : Option String} {f : PrincipalId → H → ApiM H α} {w' : World H} (hid : id ≠ "")
    (hcaller : callerFrom srv headers w = .ok caller w') (hw : w'.Over repo)
    (hsees : repo.refs.Sees caller id) (harg : HashRequest.ArgumentIs h arg)
    (hhidden : ¬ repo.refs.SeesSnapshot caller h) :
    Post (do
      let id ← fromExcept (parseChangeId id)
      let caller ← callerFrom srv headers
      let atHash ← Handlers.visibleSnapshot id arg caller
      f caller atHash) w (fun _ _ => False)
      (fun e _ => e = .notFound ("snapshot " ++ shortHex h ++ " not visible")) := by
  refine resolved_spec hid hcaller ?_
  rw [post_bind]
  exact (visibleSnapshot_hidden hw hsees harg hhidden).mono (fun _ _ h => h.elim) (fun _ _ h => h)

end Gates

/-! ## Comparing -/

section Diff

variable {w : World H} {repo : Repo H} {caller : PrincipalId} {h : H}

/-- A missing object is reported by its hash. -/
theorem ObjectStore.load_eq_notFound {α : Type} [Encodable H α] {s : ObjectStore H} {x : H}
    {what : String} (hload : (s.load x : Except Error α) = .error (.notFound what)) :
    s.lookup x = none ∧ what = HashFn.toHex x := by
  unfold ObjectStore.load at hload
  cases hget : s.get x with
  | ok raw =>
    rw [hget] at hload
    cases hd : (decode H raw : Except CoreError α) <;>
      simp [hd, bind, Except.bind, Except.mapError] at hload
  | error e =>
    rw [hget] at hload
    obtain rfl : e = .notFound what := Except.error.inj hload
    have hnone := ObjectStore.get_eq_notFound hget
    refine ⟨hnone, ?_⟩
    simp only [ObjectStore.get, hnone, Except.error.injEq, Error.notFound.injEq] at hget
    exact hget.symm

/-- An error of the engine that becomes "not found" was that. -/
theorem ApiError.ofError_eq_notFound {e : Error} {what : String}
    (h : ApiError.ofError e = .notFound what) : e = .notFound what := by
  cases e with
  | notFound what' => exact congrArg Error.notFound (ApiError.notFound.inj h)
  | _ => cases h

/-- Reading an object that is not there fails with its hash. -/
theorem engine_load_absent {α β : Type} [Encodable H α] {f : α → ApiM H β} (hw : w.Over repo)
    (hnone : repo.objects.lookup h = none) :
    Post (engine (loadObject h : RepoM H α) >>= f) w (fun _ _ => False)
      (fun e _ => e = .notFound (HashFn.toHex h)) := by
  rw [post_bind, engine, post_adaptExcept]
  have hload : (repo.objects.load h : Except Error α) = .error (.notFound (HashFn.toHex h)) := by
    rw [ObjectStore.load, ObjectStore.get, hnone]
    rfl
  refine loadObject_spec (fun a w₁ _ _ ha => ?_) (fun e w₁ _ _ he => ?_)
  · rw [hw.repo, hload] at ha
    cases ha
  · rw [hw.repo, hload] at he
    rcases he with hf | he
    · exact absurd hf (hw.reliable.not_fault e)
    · obtain rfl := Except.error.inj he
      rfl

/-- Reading an object does not fail with the hash of another one that is there. -/
theorem engine_load_present {α β : Type} [Encodable H α] {f : α → ApiM H β} {x : H}
    (hw : w.Over repo) (hform : HexForm h) (hsome : repo.objects.lookup h ≠ none)
    {Q : β → World H → Prop} (hf : ∀ a w', w'.Over repo →
      Post (f a) w' Q (fun e _ => e ≠ .notFound (HashFn.toHex h))) :
    Post (engine (loadObject x : RepoM H α) >>= f) w Q
      (fun e _ => e ≠ .notFound (HashFn.toHex h)) := by
  rw [post_bind, engine, post_adaptExcept]
  refine loadObject_spec (fun a w₁ hs hr _ => hf a w₁ (hw.read hs hr))
    (fun e w₁ _ _ he hne => ?_)
  · rcases he with hfault | he
    · exact hw.reliable.not_fault e hfault
    · rw [hw.repo, ApiError.ofError_eq_notFound hne] at he
      obtain ⟨hnone, hhex⟩ := ObjectStore.load_eq_notFound he
      obtain rfl := hform.inj x hhex.symm
      exact hsome hnone

omit [LinearOrder H] in
/-- The hexadecimal form of a hash is not the name of a change. -/
theorem HexForm.ne_change (hform : HexForm h) (id : ChangeId) :
    changeNotFound id ≠ .notFound (HashFn.toHex h) := by
  intro heq
  have hhex : "change " ++ id = HashFn.toHex h := ApiError.notFound.inj heq
  have hmem : 'h' ∈ (HashFn.toHex h).toList := by
    rw [← hhex, String.toList_append]
    exact List.mem_append_left _ (by decide)
  exact absurd (hform.digits 'h' hmem) (by decide)

omit [LinearOrder H] in
/-- Of the two sides of a comparison that names a hash, one is that hash. -/
theorem HashRequest.to_eq_or_from {q : DiffQuery} {id : String} {current x : H}
    (hnames : (HashRequest.diff id q).Names h) (hx : snapArgument q.toSnap current = .ok x) :
    x = h ∨ HashRequest.ArgumentIs h q.fromSnap := by
  rcases hnames with hfrom | ⟨t, ht, hparse⟩
  · exact Or.inr hfrom
  · rw [ht, snapArgument, hparse] at hx
    exact Or.inl (Except.ok.inj hx).symm

/-- Comparing with a snapshot that is not there fails with its hash. -/
theorem diffSnapshots_absent {rd : Reader} {id : String} {q : DiffQuery} {current x : H}
    (hw : w.Over repo) (hnames : (HashRequest.diff id q).Names h)
    (hx : snapArgument q.toSnap current = .ok x) (hnone : repo.objects.lookup h = none)
    (hload : x ≠ h → ∃ snap : Snapshot H, repo.objects.load x = .ok snap) :
    Post (Handlers.diffSnapshots rd id caller q current) w (fun _ _ => False)
      (fun e _ => e = .notFound (HashFn.toHex h)) := by
  rw [Handlers.diffSnapshots, post_bind, post_fromExcept, hx]
  refine ⟨fun x' hx' => ?_, fun e he => by cases he⟩
  obtain rfl := Except.ok.inj hx'
  by_cases hxh : x = h
  · subst hxh
    exact engine_load_absent hw hnone
  · obtain ⟨s, hs, hparse⟩ := (HashRequest.to_eq_or_from hnames hx).resolve_left hxh
    obtain ⟨snap, hsnap⟩ := hload hxh
    rw [post_bind, engine, post_adaptExcept]
    refine loadObject_spec (fun toSnap w₁ hs₁ hr₁ _ => ?_) (fun e w₁ _ _ he => ?_)
    · rw [hs, Handlers.diffFromTree, post_bind, post_bind, post_fromExcept, hparse]
      refine ⟨fun y hy => ?_, fun e he => by cases he⟩
      obtain rfl := Except.ok.inj hy
      exact (engine_load_absent (hw.read hs₁ hr₁) hnone).mono (fun _ _ h => h.elim)
        (fun _ _ h => h)
    · rw [hw.repo, hsnap] at he
      rcases he with hf | he
      · exact absurd hf (hw.reliable.not_fault e)
      · cases he

/-- Comparing to something that cannot be read fails, and with the same error whatever is stored
under another hash. -/
theorem diffSnapshots_gated {rd : Reader} {id : String} {q : DiffQuery} {s : ObjectStore H}
    (hgated : (HashRequest.diff id q).Gated s h) :
    ∃ e, ∀ (repo : Repo H) (w : World H) (current : H), w.Over repo →
      (∀ x, x ≠ h → repo.objects.lookup x = s.lookup x) →
      Post (Handlers.diffSnapshots rd id caller q current) w (fun _ _ => False)
        (fun e' _ => e' = e) := by
  obtain ⟨t, ht, hto⟩ := hgated
  cases hparse : (parseHash t : Except ApiError H) with
  | error e =>
    refine ⟨e, fun repo w current _ _ => ?_⟩
    rw [Handlers.diffSnapshots, post_bind, post_fromExcept, ht, snapArgument, hparse]
    exact ⟨fun a ha => (by cases ha), fun e' he' => (Except.error.inj he').symm⟩
  | ok x =>
    obtain ⟨hxh, hload⟩ := hto x hparse
    cases he : (s.load x : Except Error (Snapshot H)) with
    | ok snap => exact absurd he (hload snap)
    | error e =>
      refine ⟨.ofError e, fun repo w current hw hother => ?_⟩
      rw [Handlers.diffSnapshots, post_bind, post_fromExcept, ht, snapArgument, hparse]
      refine ⟨fun x' hx' => ?_, fun e' he' => by cases he'⟩
      obtain rfl := Except.ok.inj hx'
      rw [post_bind, engine, post_adaptExcept]
      refine loadObject_spec (fun toSnap w₁ _ _ hsnap => ?_) (fun e' w₁ _ _ he' => ?_)
      · rw [hw.repo, ObjectStore.load_congr (hother x hxh), he] at hsnap
        cases hsnap
      · rw [hw.repo, ObjectStore.load_congr (hother x hxh), he] at he'
        rcases he' with hf | he'
        · exact absurd hf (hw.reliable.not_fault e')
        · obtain rfl := Except.error.inj he'
          rfl

omit [LinearOrder H] in
/-- A malformed hash is not reported as missing. -/
theorem parseHash_error {s : String} {e : ApiError} (he : (parseHash s : Except ApiError H) = .error e)
    (what : String) : e ≠ .notFound what := by
  unfold parseHash at he
  cases hp : (HashFn.fromHex s : Except CoreError H) with
  | ok y =>
    rw [hp] at he
    cases he
  | error err =>
    rw [hp] at he
    obtain rfl := Except.error.inj he
    exact ApiError.noConfusion

/-- Choosing what to compare with does not fail with the hash of an object that is there. -/
theorem diffFromTree_present {q : DiffQuery} {toSnap : Snapshot H} (hw : w.Over repo)
    (hform : HexForm h) (hsome : repo.objects.lookup h ≠ none) :
    Post (Handlers.diffFromTree q.fromSnap toSnap) w
      (fun _ w' => w'.Over w'.repo ∧ w'.repo.refs = repo.refs)
      (fun e _ => e ≠ .notFound (HashFn.toHex h)) := by
  have hover : ∀ w' : World H, w'.Over repo → w'.Over w'.repo ∧ w'.repo.refs = repo.refs :=
    fun w' hw' => ⟨⟨rfl, hw'.reliable⟩, by rw [hw'.repo]⟩
  unfold Handlers.diffFromTree
  cases q.fromSnap with
  | some s =>
    dsimp only
    rw [post_bind, post_fromExcept]
    refine ⟨fun y _ => engine_load_present hw hform hsome fun snap w₁ hw₁ => hover w₁ hw₁, ?_⟩
    exact fun e he => parseHash_error he _
  | none =>
    dsimp only
    cases toSnap.parents with
    | cons parentHash _ =>
      exact engine_load_present hw hform hsome fun snap w₁ hw₁ => hover w₁ hw₁
    | nil =>
      rw [engine, post_adaptExcept]
      refine storeObject_spec (fun w₁ hq _ => ⟨⟨rfl, hq.env ▸ hw.reliable⟩, ?_⟩)
        (fun e w₁ _ _ hf => absurd hf (hw.reliable.not_fault e))
      rw [hq.refs, hw.repo]

/-- Comparing with a snapshot that the caller may not see does not get past the check. -/
theorem diffSnapshots_present {rd : Reader} {id : String} {q : DiffQuery} {current : H}
    (hw : w.Over repo) (hnames : (HashRequest.diff id q).Names h) (hform : HexForm h)
    (hhidden : ¬ repo.refs.SeesSnapshot caller h) (hsome : repo.objects.lookup h ≠ none) :
    Post (Handlers.diffSnapshots rd id caller q current) w (fun _ _ => False)
      (fun e _ => e ≠ .notFound (HashFn.toHex h)) := by
  rw [Handlers.diffSnapshots, post_bind, post_fromExcept]
  refine ⟨fun x hx => ?_, fun e he => ?_⟩
  · refine engine_load_present hw hform hsome fun toSnap w₁ hw₁ => ?_
    rw [post_bind]
    refine (diffFromTree_present hw₁ hform hsome).mono (fun fromTree w₂ ⟨hw₂, hrefs⟩ => ?_)
      (fun _ _ h => h)
    rw [post_bind]
    refine (visibleSnapshotSet_spec hw₂).mono (fun visible w₃ ⟨_, hvis⟩ => ?_)
      (fun _ _ h => h.elim)
    have hnot : h ∉ visible := by
      rw [hvis, hrefs]
      exact hhidden
    have hgate : ∀ fromVisible, Handlers.fromSnapVisible q.fromSnap visible = .ok fromVisible →
        x ∉ visible ∨ fromVisible = false := by
      intro fromVisible hfrom
      rcases HashRequest.to_eq_or_from hnames hx with rfl | ⟨s, hs, hparse⟩
      · exact Or.inl hnot
      · rw [hs, Handlers.fromSnapVisible, hparse] at hfrom
        exact Or.inr (Except.ok.inj hfrom ▸ decide_eq_false hnot)
    rw [post_bind, post_fromExcept]
    refine ⟨fun fromVisible hfrom => ?_, fun e he => ?_⟩
    · rw [post_ite]
      exact ⟨fun _ => hform.ne_change id, fun hno => absurd (hgate fromVisible hfrom) hno⟩
    · unfold Handlers.fromSnapVisible at he
      cases hfrom : q.fromSnap with
      | none =>
        rw [hfrom] at he
        cases he
      | some s =>
        cases hparse : (parseHash s : Except ApiError H) with
        | ok y =>
          simp only [hfrom, hparse, Except.map] at he
          cases he
        | error e' =>
          simp only [hfrom, hparse, Except.map, Except.error.injEq] at he
          exact he ▸ parseHash_error hparse _
  · cases hto : q.toSnap with
    | none =>
      rw [hto] at he
      cases he
    | some t =>
      rw [hto] at he
      exact parseHash_error he _

end Diff

/-! ## Which requests tell -/

section Main

variable {w w₁ : World H} {σ : UndoStack H} {srv : Server} {rd : Reader} {headers : HeaderMap}
  {req : HashRequest} {caller : PrincipalId} {h : H}

/-- The worlds with different objects under `h` are over repositories with the same refs, and no
step fails there either. -/
theorem over_withObject (hrel : w.env.Reliable)
    (hcaller : callerFrom srv headers w = .ok caller w₁) (h : H) (file : Option Bytes) :
    ∃ v, callerFrom srv headers (w.withObject h file) = .ok caller v ∧
      v.Over (w.withObject h file).repo := by
  obtain ⟨v, hv, henv, hrepo⟩ := callerFrom_withObject hcaller h file
  exact ⟨v, hv, hrepo, henv ▸ hrel⟩

/-- **A request that is answered before the hash is looked up** fails, and with the same error
whatever is stored under the hash. -/
theorem HashRequest.Gated.same (hrel : w.env.Reliable)
    (hcaller : callerFrom srv headers w = .ok caller w₁) (hnames : req.Names h)
    (hvisible : req.OnVisible w.repo.refs caller)
    (hhidden : ¬ w.repo.refs.SeesSnapshot caller h) (hgated : req.Gated w.repo.objects h) :
    ∃ e, ∀ file, outcome (req.respond srv rd headers) (w.withObject h file) = .error e := by
  have hfixed : ∀ e, (∀ file, Post (req.respond srv rd headers) (w.withObject h file)
      (fun _ _ => False) (fun e' _ => e' = e)) →
      ∃ e, ∀ file, outcome (req.respond srv rd headers) (w.withObject h file) = .error e := by
    refine fun e he => ⟨e, fun file => ?_⟩
    obtain ⟨e', s', hout, rfl⟩ := (he file).outcome_error
    exact hout
  cases req with
  | diff id q =>
    obtain ⟨hid, hsees⟩ := hvisible
    obtain ⟨e, he⟩ := diffSnapshots_gated hgated
    refine hfixed e fun file => ?_
    obtain ⟨v, hv, hover⟩ := over_withObject hrel hcaller h file
    rw [HashRequest.respond, post_map]
    refine resolved_spec hid hv ?_
    rw [post_bind]
    refine (loadVisibleChange_spec hover hsees).mono (fun c w₂ h₂ => ?_) (fun _ _ h => h.elim)
    exact he _ w₂ _ h₂.1 fun x hx => FiniteMap.lookup_set_of_ne _ _ hx
  | blame id path q =>
    refine hfixed (.notFound ("snapshot " ++ shortHex h ++ " not visible")) fun file => ?_
    obtain ⟨v, hv, hover⟩ := over_withObject hrel hcaller h file
    rw [HashRequest.respond, post_map]
    exact hidden_spec hvisible.1 hv hover hvisible.2 hnames hhidden
  | grep id q =>
    refine hfixed (.notFound ("snapshot " ++ shortHex h ++ " not visible")) fun file => ?_
    obtain ⟨v, hv, hover⟩ := over_withObject hrel hcaller h file
    rw [HashRequest.respond, post_map]
    exact hidden_spec hvisible.1 hv hover hvisible.2 hnames hhidden
  | snapshot hash =>
    refine hfixed (.notFound ("snapshot " ++ hash)) fun file => ?_
    obtain ⟨v, hv, hover⟩ := over_withObject hrel hcaller h file
    rw [HashRequest.respond, post_map, Handlers.getSnapshot, post_bind, post_fromExcept, hnames]
    refine ⟨fun x hx => ?_, fun e he => by cases he⟩
    obtain rfl := Except.ok.inj hx
    rw [post_bind, Post, hv]
    show Post _ v _ _
    rw [post_bind]
    refine (visibleSnapshotSet_spec hover).mono (fun visible w₂ h₂ => ?_) (fun _ _ h => h.elim)
    rw [post_ite, h₂.2]
    exact ⟨fun hin => absurd hin hhidden, fun _ => rfl⟩

/-- What is compared when a comparison is not gated: it is there, unless it is what `h` names. -/
theorem HashRequest.of_not_gated {s : ObjectStore H} {id : String} {q : DiffQuery} {current : H}
    (hgated : ¬ (HashRequest.diff id q).Gated s h)
    (hcurrent : ∃ snap : Snapshot H, s.load current = .ok snap) :
    ∃ x, snapArgument q.toSnap current = .ok x ∧
      (x ≠ h → ∃ snap : Snapshot H, s.load x = .ok snap) := by
  cases ht : q.toSnap with
  | none => exact ⟨current, rfl, fun _ => hcurrent⟩
  | some t =>
    by_contra hno
    refine hgated ⟨t, ht, fun x hx => ⟨?_, fun snap hsnap => hno ⟨x, hx, fun _ => ⟨snap, hsnap⟩⟩⟩⟩
    rintro rfl
    exact hno ⟨_, hx, fun hne => absurd rfl hne⟩

/-- **A comparison that looks the hash up** tells an object from none. -/
theorem diff_differs [LawfulFormat H] (hrun : Run w σ) {id : String} {q : DiffQuery}
    (hcaller : callerFrom srv headers w = .ok caller w₁)
    (hnames : (HashRequest.diff id q).Names h)
    (hvisible : (HashRequest.diff id q).OnVisible w.repo.refs caller)
    (hhidden : ¬ w.repo.refs.SeesSnapshot caller h) (hform : HexForm h)
    (hgated : ¬ (HashRequest.diff id q).Gated w.repo.objects h) (bytes : Bytes) :
    outcome ((HashRequest.diff id q).respond srv rd headers) (w.withObject h none) ≠
      outcome ((HashRequest.diff id q).respond srv rd headers) (w.withObject h (some bytes)) := by
  obtain ⟨hid, hsees⟩ := hvisible
  obtain ⟨v, hv, hover⟩ := over_withObject hrun.chronicle.reliable hcaller h none
  obtain ⟨v', hv', hover'⟩ := over_withObject hrun.chronicle.reliable hcaller h (some bytes)
  have habsent : Post ((HashRequest.diff id q).respond srv rd headers) (w.withObject h none)
      (fun _ _ => False) (fun e _ => e = .notFound (HashFn.toHex h)) := by
    rw [HashRequest.respond, post_map]
    refine resolved_spec hid hv ?_
    rw [post_bind]
    refine (loadVisibleChange_spec hover hsees).mono (fun c w₂ ⟨hw₂, hc, _⟩ => ?_)
      (fun _ _ h => h.elim)
    have hwf := changeRecords_wellFormed hrun
    have hcurrent := hwf.stored id c hc _ (List.mem_of_getLast? (hwf.current id c hc))
    obtain ⟨x, hx, hload⟩ := HashRequest.of_not_gated hgated hcurrent
    refine diffSnapshots_absent hw₂ hnames hx (FiniteMap.lookup_set _ _ _) fun hne => ?_
    obtain ⟨snap, hsnap⟩ := hload hne
    refine ⟨snap, ?_⟩
    rw [← hsnap]
    exact ObjectStore.load_congr (FiniteMap.lookup_set_of_ne _ _ hne)
  have hpresent : Post ((HashRequest.diff id q).respond srv rd headers)
      (w.withObject h (some bytes)) (fun _ _ => False)
      (fun e _ => e ≠ .notFound (HashFn.toHex h)) := by
    rw [HashRequest.respond, post_map]
    refine resolved_spec hid hv' ?_
    rw [post_bind]
    refine (loadVisibleChange_spec hover' hsees).mono (fun c w₂ ⟨hw₂, _⟩ => ?_)
      (fun _ _ h => h.elim)
    refine diffSnapshots_present hw₂ hnames hform hhidden ?_
    show (FiniteMap.set w.repo.objects h (some bytes)).lookup h ≠ none
    rw [FiniteMap.lookup_set]
    exact Option.some_ne_none _
  obtain ⟨e, -, hout, rfl⟩ := habsent.outcome_error
  obtain ⟨e', -, hout', hne⟩ := hpresent.outcome_error
  rw [hout, hout']
  exact fun heq => hne (Except.error.inj heq).symm

/-- **Which requests tell nothing of a hidden hash.** In every state that a run reaches, the answer
to a request that names a hash outside of the histories that the caller may see does not depend on
what is stored under the hash, exactly when the request is answered without looking it up or the
hash is not that of any object. -/
theorem noOracle_iff [LawfulFormat H] (hrun : Run w σ)
    (hcaller : callerFrom srv headers w = .ok caller w₁) (hnames : req.Names h)
    (hvisible : req.OnVisible w.repo.refs caller)
    (hhidden : ¬ w.repo.refs.SeesSnapshot caller h) (hform : HexForm h) :
    NoOracle srv rd headers req h w ↔
      req.Gated w.repo.objects h ∨ ¬ ∃ raw : RawObject, raw.hash H = h := by
  constructor
  · intro hno
    by_contra hneither
    obtain ⟨hgated, hraw⟩ := not_or.mp hneither
    obtain ⟨raw, hraw⟩ := not_not.mp hraw
    have hsame := hno none (some (frame raw)) (fun _ hb => by cases hb)
      (fun bytes hb => ⟨raw, hraw, (Option.some.inj hb).symm⟩)
    cases req with
    | diff id q =>
      exact diff_differs hrun hcaller hnames hvisible hhidden hform hgated (frame raw) hsame
    | blame id path q => exact hgated trivial
    | grep id q => exact hgated trivial
    | snapshot hash => exact hgated trivial
  · rintro (hgated | hraw) file file' hfile hfile'
    · obtain ⟨e, he⟩ := hgated.same hrun.chronicle.reliable hcaller hnames hvisible hhidden
      rw [he, he]
    · -- no file is one of an object with this hash
      have hnone : ∀ file, ObjectFile h file → file = none := by
        intro file hfile
        cases file with
        | none => rfl
        | some bytes =>
          obtain ⟨raw, hh, -⟩ := hfile bytes rfl
          exact absurd ⟨raw, hh⟩ hraw
      rw [hnone file hfile, hnone file' hfile']

end Main

/-! ## A comparison that tells -/

namespace ComparedHash

/-- A repository whose first change is called `a`. -/
def world : World PlainHash :=
  final (Handlers.createChange UnreadableToken.server [] ⟨"first", none, none, none⟩)
    { World.fresh .calm with ids := 1 }

/-- The hash of the blob without bytes. -/
def blobHash : PlainHash := [1]

/-- Comparing the change `a` with that blob, by its hash. -/
def request : HashRequest := .diff "a" ⟨some "01", none, true, []⟩

/-- A reader whose text functions are never called. -/
def reader : Reader := ⟨⟨fun _ _ => [], fun _ _ _ => [], fun _ _ => .error "", id⟩, 8⟩

theorem run_world : ∃ σ, Run world σ :=
  ⟨_, .operation (.start { World.fresh .calm with ids := 1 } rfl Env.calm_reliable Env.calm_fresh)
    ⟨0⟩ (.createChange UnreadableToken.server [] ⟨"first", none, none, none⟩)⟩

theorem names : request.Names blobHash := Or.inl ⟨"01", rfl, rfl⟩

theorem sees : world.repo.refs.Sees defaultActor "a" := ⟨_, rfl, rfl⟩

/-- The hash of a blob is not in any history, since that of a stored snapshot begins with another
tag. -/
theorem hidden : ¬ world.repo.refs.SeesSnapshot defaultActor blobHash := by
  rintro ⟨id, c, hc, -, hmem⟩
  obtain ⟨σ, hrun⟩ := run_world
  obtain ⟨snap, hload⟩ := (changeRecords_wellFormed hrun).stored id c hc _ hmem
  obtain ⟨raw, hget, hdec⟩ := ObjectStore.load_eq_ok.mp hload
  have hhead := plainHash_head raw
  rw [(ObjectStore.get_eq_ok.mp hget).2, kind_of_decode hdec] at hhead
  exact absurd hhead (by decide)

/-- The hexadecimal form of the hash of the empty blob. -/
theorem form : HexForm blobHash where
  inj x hx := by
    have hlist : x.flatMap (fun n => [hexDigit (n / 16), hexDigit (n % 16)]) = ['0', '1'] :=
      String.ofList_injective hx
    cases x with
    | nil => cases hlist
    | cons n x =>
      obtain ⟨hhi, hrest⟩ := List.cons.inj hlist
      obtain ⟨hlo, hrest⟩ := List.cons.inj hrest
      have hx : x = [] := by
        cases x with
        | nil => rfl
        | cons m x => cases hrest
      have h0 := hexDigit_eq_zero hhi
      have h1 : ∀ m < 16, hexDigit m = '1' → m = 1 := by decide
      have := h1 _ (Nat.mod_lt n (by decide)) hlo
      rw [hx, show n = 1 by omega]
      rfl
  digits c hc := by
    have hc : c ∈ ['0', '1'] := hc
    simp only [List.mem_cons, List.not_mem_nil, or_false] at hc
    rcases hc with rfl | rfl
    · decide
    · decide

end ComparedHash

/-- Comparing with the hash of an object that is stored, but is no snapshot, is answered otherwise
than with the hash of nothing. -/
theorem diff_tells : (∃ σ, Run ComparedHash.world σ) ∧
    callerFrom UnreadableToken.server [] ComparedHash.world = .ok defaultActor ComparedHash.world ∧
    ComparedHash.request.Names ComparedHash.blobHash ∧
    ComparedHash.request.OnVisible ComparedHash.world.repo.refs defaultActor ∧
    ¬ ComparedHash.world.repo.refs.SeesSnapshot defaultActor ComparedHash.blobHash ∧
    ¬ NoOracle UnreadableToken.server ComparedHash.reader [] ComparedHash.request
      ComparedHash.blobHash ComparedHash.world := by
  refine ⟨ComparedHash.run_world, rfl, ComparedHash.names, ⟨by decide, ComparedHash.sees⟩,
    ComparedHash.hidden, fun h => ?_⟩
  have hsame := h none (some (frame ⟨.blob, []⟩)) (fun _ hb => by cases hb)
    (fun bytes hb => ⟨⟨.blob, []⟩, rfl, (Option.some.inj hb).symm⟩)
  have hnone : outcome (ComparedHash.request.respond UnreadableToken.server ComparedHash.reader [])
      (ComparedHash.world.withObject ComparedHash.blobHash none) = .error (.notFound "01") := rfl
  have hblob : outcome (ComparedHash.request.respond UnreadableToken.server ComparedHash.reader [])
      (ComparedHash.world.withObject ComparedHash.blobHash (some (frame ⟨.blob, []⟩))) =
      .error (.badRequest "decode: expected kind snapshot, got blob") := rfl
  rw [hnone, hblob] at hsame
  cases hsame

/-- Which comparisons with the empty blob tell that it is stored. -/
theorem noOracle_emptyBlob :
    NoOracle UnreadableToken.server ComparedHash.reader [] ComparedHash.request
        ComparedHash.blobHash ComparedHash.world ↔
      ComparedHash.request.Gated ComparedHash.world.repo.objects ComparedHash.blobHash ∨
        ¬ ∃ raw : RawObject, raw.hash PlainHash = ComparedHash.blobHash := by
  obtain ⟨σ, hrun⟩ := ComparedHash.run_world
  have hcaller : callerFrom UnreadableToken.server [] ComparedHash.world =
      .ok defaultActor ComparedHash.world := rfl
  exact noOracle_iff hrun hcaller ComparedHash.names ⟨by decide, ComparedHash.sees⟩ ComparedHash.hidden
    ComparedHash.form

end Tig
