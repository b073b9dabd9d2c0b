import Tig.Daemon.Reads
import Tig.System.Processes
import Tig.System.Run

set_option relaxedAutoImplicit false
set_option autoImplicit false

/-!
# Requests and the records that they change

The daemon serves one request after another. Which change records a request can write, whether or
not it fails and whatever steps fail: a new one, one that its caller may mutate, or, when it is an
undo, those that the undo brings back.

## Main definitions

* `Tig.Request` — the requests, and `Tig.Request.effect`, what the world is after one.
* `Tig.World.ChangedOnly` — no change records but some have changed.
* `Tig.Request.MayChange` — the change records that a request may change.
* `Tig.DaemonRun` — the states that requests lead to, with the requests that led there.

## Main results

* `Tig.Request.changedOnly` — a request changes the records that it may.
* `Tig.DaemonRun.known`, `Tig.DaemonRun.chronicle` — what is known of the states of such a run.
-/

namespace Tig

open Program

variable {H : Type}

/-! ## Requests -/

/-- The requests to the daemon. -/
inductive Request where
  | listChanges
  | createChange (req : CreateChangeReq)
  | getChange (id : String)
  | getTreeRoot (id : String)
  | getTreePath (id path : String)
  | patchTreePath (id path : String) (body : Bytes)
  | deleteTreePath (id path : String)
  | snapChange (id : String) (req : SnapReq)
  | diffChange (id : String) (q : DiffQuery)
  | blamePath (id path : String) (q : BlameQuery)
  | grepChange (id : String) (q : GrepQuery)
  | transitionChange (id : String) (req : TransitionReq)
  | getSnapshot (hash : String)
  | listOplog (limit : Option Nat)
  | undo (req : UndoReq)
  | gc (body : Option GcReq)

/-- The world after a request, whether or not it failed. -/
def Request.effect [LinearOrder H] [Format H] (srv : Server) (rd : Reader) (headers : HeaderMap)
    (req : Request) (w : World H) : World H :=
  match req with
  | listChanges => final (Handlers.listChanges srv headers) w
  | createChange req => final (Handlers.createChange srv headers req) w
  | getChange id => final (Handlers.getChange srv id headers) w
  | getTreeRoot id => final (Handlers.getTreeRoot srv id headers) w
  | getTreePath id path => final (Handlers.getTreePath srv id path headers) w
  | patchTreePath id path body => final (Handlers.patchTreePath srv id path headers body) w
  | deleteTreePath id path => final (Handlers.deleteTreePath srv id path headers) w
  | snapChange id req => final (Handlers.snapChange srv id headers req) w
  | diffChange id q => final (Handlers.diffChange srv rd id q headers) w
  | blamePath id path q => final (Handlers.blamePath srv rd id path q headers) w
  | grepChange id q => final (Handlers.grepChange srv rd id q headers) w
  | transitionChange id req => final (Handlers.transitionChange srv id headers req) w
  | getSnapshot hash => final (Handlers.getSnapshot srv hash headers) w
  | listOplog limit => final (Handlers.listOplog srv limit headers) w
  | undo req => final (Handlers.undo req) w
  | gc body => final (Handlers.gc srv headers body) w

/-- The ids of the changes that there are, and of those whose records undoing can bring back, have come
from the generator. -/
structure World.ChangesKnown (w : World H) : Prop where
  refs : ∀ id ∈ w.repo.refs.changes, w.Gave id
  log : ∀ op ∈ w.repo.oplog, ∀ id c, RefSnapshot.change id (some c) ∈ op.before → w.Gave id

/-- From the one world to the other no change records but some have changed. -/
structure World.ChangedOnly (X : ChangeId → Prop) (w w' : World H) : Prop where
  env : w'.env = w.env
  ids : w.ids ≤ w'.ids
  frame : ∀ id, ¬ X id → w'.repo.refs.changes.lookup id = w.repo.refs.changes.lookup id
  known : w'.ChangesKnown

variable {w w₁ w' : World H} {X Y : ChangeId → Prop}

namespace World.ChangedOnly

theorem refl (h : w.ChangesKnown) : w.ChangedOnly X w := ⟨rfl, le_rfl, fun _ _ => rfl, h⟩

theorem trans (h : w.ChangedOnly X w₁) (h' : w₁.ChangedOnly X w') : w.ChangedOnly X w' where
  env := h'.env.trans h.env
  ids := h.ids.trans h'.ids
  frame id hid := (h'.frame id hid).trans (h.frame id hid)
  known := h'.known

theorem mono (h : w.ChangedOnly X w') (hX : ∀ id, X id → Y id) : w.ChangedOnly Y w' :=
  ⟨h.env, h.ids, fun id hid => h.frame id fun hx => hid (hX id hx), h.known⟩

theorem gave (h : w.ChangedOnly X w') {id : String} (hid : w.Gave id) : w'.Gave id :=
  hid.mono h.env h.ids

/-- Where neither refs nor log have changed. -/
theorem of_same (h : w.ChangesKnown) (henv : w'.env = w.env) (hids : w.ids ≤ w'.ids)
    (hrefs : w'.repo.refs = w.repo.refs) (hoplog : w'.repo.oplog = w.repo.oplog) :
    w.ChangedOnly X w' where
  env := henv
  ids := hids
  frame id _ := by rw [hrefs]
  known := by
    refine ⟨fun id hid => ?_, fun op hop id c he => ?_⟩
    · rw [hrefs] at hid
      exact (h.refs id hid).mono henv hids
    · rw [hoplog] at hop
      exact (h.log op hop id c he).mono henv hids

end World.ChangedOnly

/-- A program changes no change records but some, whether or not it fails, and establishes `P`. -/
def ChangesOnly {ε α : Type} (X : ChangeId → Prop) (x : EStateM ε (World H) α) (w : World H)
    (P : α → World H → Prop) : Prop :=
  Post x w (fun a w' => w.ChangedOnly X w' ∧ P a w') (fun _ w' => w.ChangedOnly X w')

section Rules

variable {ε α β : Type} {P : α → World H → Prop} {R : β → World H → Prop}

theorem ChangesOnly.bind {x : EStateM ε (World H) α} {f : α → EStateM ε (World H) β}
    (hx : ChangesOnly X x w P)
    (hf : ∀ a w₁, w.ChangedOnly X w₁ → P a w₁ → ChangesOnly X (f a) w₁ R) :
    ChangesOnly X (x >>= f) w R := by
  unfold ChangesOnly
  rw [post_bind]
  refine Post.mono hx (fun a w₁ h => ?_) (fun _ _ h => h)
  exact Post.mono (hf a w₁ h.1 h.2) (fun _ _ h' => ⟨h.1.trans h'.1, h'.2⟩)
    (fun _ _ h' => h.1.trans h')

theorem ChangesOnly.pure {a : α} (h : w.ChangesKnown) (hP : P a w) :
    ChangesOnly X (Pure.pure a : EStateM ε (World H) α) w P :=
  ⟨.refl h, hP⟩

theorem ChangesOnly.mono {x : EStateM ε (World H) α} {Q : α → World H → Prop}
    (h : ChangesOnly X x w P) (hX : ∀ id, X id → Y id)
    (hP : ∀ a w', w.ChangedOnly X w' → P a w' → Q a w') : ChangesOnly Y x w Q :=
  Post.mono h (fun a w' h => ⟨h.1.mono hX, hP a w' h.1 h.2⟩) (fun _ _ h => h.mono hX)

theorem ChangesOnly.engine {x : RepoM H α} (h : ChangesOnly X x w P) :
    ChangesOnly X (engine x) w P :=
  (post_adaptExcept _).mpr h

theorem ChangesOnly.final {x : EStateM ε (World H) α} (h : ChangesOnly X x w P) :
    w.ChangedOnly X (final x w) :=
  (Post.mono h (fun _ _ h => h.1) (fun _ _ h => h)).final

variable [LinearOrder H] [Format H]

/-- What keeps refs and log changes no record. -/
theorem World.Kept.changedOnly (hk : w.Kept w') (h : w.ChangesKnown) : w.ChangedOnly X w' :=
  .of_same h hk.env hk.idsLe hk.refs hk.oplog

theorem Keeps.changesOnly {x : EStateM ε (World H) α} (hx : Keeps x w P) (h : w.ChangesKnown) :
    ChangesOnly X x w P :=
  Post.mono hx (fun _ _ hk => ⟨hk.1.changedOnly h, hk.2⟩) (fun _ _ hk => hk.changedOnly h)

/-- What a program does first, as long as it keeps refs and log. -/
theorem ChangesOnly.of_keeps_bind {x : EStateM ε (World H) α} {f : α → EStateM ε (World H) β}
    (h : w.ChangesKnown) (hx : Keeps x w P)
    (hf : ∀ a w₁, w.Kept w₁ → w₁.ChangesKnown → P a w₁ → ChangesOnly X (f a) w₁ R) :
    ChangesOnly X (x >>= f) w R := by
  unfold ChangesOnly
  rw [post_bind]
  refine Post.mono hx (fun a w₁ hk => ?_) (fun _ _ hk => hk.changedOnly h)
  have hc : w.ChangedOnly X w₁ := hk.1.changedOnly h
  exact Post.mono (hf a w₁ hk.1 hc.known hk.2) (fun _ _ h' => ⟨hc.trans h'.1, h'.2⟩)
    (fun _ _ h' => hc.trans h')

/-- What an argument is parsed to. -/
theorem ChangesOnly.of_argument {q : Except ε α} {f : α → EStateM ε (World H) β}
    (h : w.ChangesKnown)
    (hf : ∀ a w₁, w.Kept w₁ → w₁.ChangesKnown → ChangesOnly X (f a) w₁ R) :
    ChangesOnly X (fromExcept q >>= f) w R :=
  .of_keeps_bind (P := fun _ _ => True) h (Keeps.fromExcept fun _ _ => trivial)
    fun a w₁ hk h₁ _ => hf a w₁ hk h₁

end Rules

/-! ## What writes -/

/-- Writing a ref changes a record, if it changes. -/
theorem changesOnly_writeRef {e : RefSnapshot H} (h : w.ChangesKnown)
    (hid : ∀ id c, e = .change id (some c) → w.Gave id) :
    ChangesOnly (fun id => ∃ v, e = .change id v ∧ v ≠ w.repo.refs.changes.lookup id) (writeRef e)
      w fun _ _ => True := by
  have hlookup : ∀ id, RefKey.change id ≠ e.key →
      (w.repo.refs.write e).changes.lookup id = w.repo.refs.changes.lookup id := by
    intro id hne
    have hread := Refs.read_write_of_ne w.repo.refs e _ hne
    simpa only [Refs.read, RefSnapshot.change.injEq, heq_eq_eq, true_and] using hread
  have hwritten : ∀ id v, e = .change id v → (w.repo.refs.write e).changes.lookup id = v := by
    rintro id v rfl
    have hread := Refs.read_write w.repo.refs (.change id v)
    simpa only [RefSnapshot.key, Refs.read, RefSnapshot.change.injEq, heq_eq_eq, true_and]
      using hread
  have hkey : ∀ id, RefKey.change id = e.key → ∃ v, e = .change id v := by
    intro id hk
    cases e with
    | change id' v =>
      obtain rfl := RefKey.change.inj hk
      exact ⟨v, rfl⟩
    | head _ => cases hk
    | workspace _ _ => cases hk
    | bookmark _ _ => cases hk
  refine post_writeRef.mpr ⟨fun _ => ⟨⟨rfl, le_rfl, fun id hx => ?_, ?_⟩, trivial⟩, fun _ _ =>
    ⟨rfl, le_rfl, fun _ _ => rfl, ⟨h.refs, h.log⟩⟩⟩
  · by_cases hk : RefKey.change id = e.key
    · obtain ⟨v, rfl⟩ := hkey id hk
      show (w.repo.refs.write (.change id v)).changes.lookup id = _
      rw [hwritten id v rfl]
      exact not_not.mp fun hne => hx ⟨v, rfl, hne⟩
    · exact hlookup id hk
  · refine ⟨fun id hmem => ?_, h.log⟩
    by_cases hk : RefKey.change id = e.key
    · obtain ⟨v, rfl⟩ := hkey id hk
      obtain ⟨c, hc⟩ := Option.isSome_iff_exists.mp (Finmap.lookup_isSome.mpr hmem)
      obtain rfl : v = some c := (hwritten id v rfl).symm.trans hc
      exact hid id c rfl
    · refine h.refs id (Finmap.lookup_isSome.mp ?_)
      rw [← hlookup id hk]
      exact Finmap.lookup_isSome.mpr hmem

/-- Appending a record to the log changes no change record. -/
theorem changesOnly_appendOp {op : OpInProgress H} (h : w.ChangesKnown)
    (hid : ∀ id c, RefSnapshot.change id (some c) ∈ op.before → w.Gave id) :
    ChangesOnly X (appendOp op) w fun _ _ => True := by
  have hlog : ∀ op' : Op H, op'.before = op.before → ∀ o ∈ w.repo.oplog ++ [op'], ∀ id c,
      RefSnapshot.change id (some c) ∈ o.before → w.Gave id := by
    intro op' hb o ho id c he
    rcases List.mem_append.mp ho with ho | ho
    · exact h.log o ho id c he
    · obtain rfl := List.mem_singleton.mp ho
      rw [hb] at he
      exact hid id c he
  refine post_appendOp.mpr ⟨fun _ => ⟨fun _ => ⟨?_, trivial⟩, fun _ _ => ?_⟩, fun _ _ => ?_⟩
  · exact ⟨rfl, le_rfl, fun _ _ => rfl, ⟨h.refs, hlog _ rfl⟩⟩
  · exact ⟨rfl, le_rfl, fun _ _ => rfl, ⟨h.refs, hlog _ rfl⟩⟩
  · exact ⟨rfl, le_rfl, fun _ _ => rfl, ⟨h.refs, h.log⟩⟩

/-- Putting the record of a change changes that record. -/
theorem changesOnly_putChange {c : Change H} (h : w.ChangesKnown) (hid : w.Gave c.id) :
    ChangesOnly (fun id => id = c.id) (putChange c) w fun _ _ => True := by
  refine (changesOnly_writeRef h fun id c' he => ?_).mono ?_ fun _ _ _ _ => trivial
  · obtain ⟨rfl, -⟩ := RefSnapshot.change.inj he
    exact hid
  · rintro id ⟨v, he, -⟩
    exact (RefSnapshot.change.inj he).1.symm

/-- Writing a ref back changes a record, if it changes. -/
theorem changesOnly_restoreRef {e : RefSnapshot H} (h : w.ChangesKnown)
    (hid : ∀ id c, e = .change id (some c) → w.Gave id) :
    ChangesOnly (fun id => ∃ v, e = .change id v ∧ v ≠ w.repo.refs.changes.lookup id)
      (restoreRef e) w fun _ _ => True := by
  by_cases he : e.Restorable
  · rw [restoreRef_eq he]
    exact changesOnly_writeRef h hid
  · cases e with
    | bookmark name value =>
      cases value with
      | none => exact absurd trivial he
      | some id =>
        rw [restoreRef, setBookmark]
        simp only [RefSnapshot.Restorable, not_not] at he
        rw [if_pos he]
        exact World.ChangedOnly.refl h
    | head value => exact absurd trivial he
    | change id value => exact absurd trivial he
    | workspace id value => exact absurd trivial he

/-- Writing several refs back changes the records that differ. -/
theorem changesOnly_restoreRefs {es : List (RefSnapshot H)} (h : w.ChangesKnown)
    (hid : ∀ id c, RefSnapshot.change id (some c) ∈ es → w.Gave id) :
    ChangesOnly (fun id => ∃ v, RefSnapshot.change id v ∈ es ∧ v ≠ w.repo.refs.changes.lookup id)
      (restoreRefs es) w fun _ _ => True := by
  induction es generalizing w with
  | nil => exact ChangesOnly.pure h trivial
  | cons e es ih =>
    have hfirst := changesOnly_restoreRef h fun id c he => hid id c (he ▸ List.mem_cons_self)
    -- A record that the first entry leaves is one that the others change now if they did before.
    have hboth : ∀ {w₁ w₂ : World H},
        w.ChangedOnly (fun id => ∃ v, e = .change id v ∧ v ≠ w.repo.refs.changes.lookup id) w₁ →
        w₁.ChangedOnly (fun id => ∃ v, RefSnapshot.change id v ∈ es ∧
          v ≠ w₁.repo.refs.changes.lookup id) w₂ →
        w.ChangedOnly (fun id => ∃ v, RefSnapshot.change id v ∈ e :: es ∧
          v ≠ w.repo.refs.changes.lookup id) w₂ := by
      intro w₁ w₂ h₁ h₂
      refine ⟨h₂.env.trans h₁.env, h₁.ids.trans h₂.ids, fun id hx => ?_, h₂.known⟩
      have hlookup := h₁.frame id fun ⟨v, he, hne⟩ => hx ⟨v, he ▸ List.mem_cons_self, hne⟩
      rw [← hlookup]
      refine h₂.frame id fun ⟨v, hv, hne⟩ => hx ⟨v, List.mem_cons_of_mem _ hv, ?_⟩
      rwa [← hlookup]
    unfold ChangesOnly
    rw [restoreRefs, post_bind]
    refine Post.mono hfirst (fun _ w₁ h₁ => ?_) (fun _ w₁ h₁ => hboth h₁ (.refl h₁.known))
    exact Post.mono (ih h₁.1.known fun id c hc => h₁.1.gave (hid id c (List.mem_cons_of_mem _ hc)))
      (fun _ w₂ h₂ => ⟨hboth h₁.1 h₂.1, trivial⟩) (fun _ w₂ h₂ => hboth h₁.1 h₂)

/-! ## What requests are made of -/

section Parts

variable [LinearOrder H] [Format H] {srv : Server} {headers : HeaderMap} {id : ChangeId}

/-- What is known of a run that returned. -/
theorem Keeps.withRun {ε α : Type} {x : EStateM ε (World H) α} {P : α → World H → Prop}
    (h : Keeps x w P) : Keeps x w fun a w' => P a w' ∧ x w = .ok a w' :=
  .of_cases (fun _ _ hrun => ⟨(h.ok hrun).1, (h.ok hrun).2, hrun⟩) (fun _ _ hrun => h.error hrun)

/-- The record of a change that one of the principals a request can be made by may mutate. -/
def Refs.Mutable (r : Refs H) (made : PrincipalId → Prop) (id : ChangeId) : Prop :=
  ∃ p c, made p ∧ r.changes.lookup id = some c ∧ canMutate c.1.author (some p) = true

theorem keeps_callerIs : Keeps (callerFrom srv headers : ApiM H _) w fun caller _ =>
    CallerIs H srv headers caller :=
  keeps_callerFrom.withRun.mono (fun _ w' h => ⟨h.1, w, w', h.2.2⟩) (fun _ _ h => h)

/-- The change of a snapshot that is to be changed is one that the caller may mutate. -/
theorem keeps_mutableSnapshot_mutable :
    Keeps (Handlers.mutableSnapshot srv id headers) w fun _ _ =>
      w.repo.refs.Mutable (CallerIs H srv headers) id := by
  refine Keeps.bind keeps_callerIs fun caller w₁ hk₁ hcaller => ?_
  refine Keeps.bind keeps_loadMutableChange fun change w₂ hk₂ hc => ?_
  refine Keeps.bind keeps_loadObject.engine fun snap w₃ _ _ => Keeps.pure ?_
  rw [hk₁.refs] at hc
  exact ⟨caller, change, hcaller, hc⟩

omit [LinearOrder H] [Format H] in
/-- The id of a change whose record was read. -/
theorem World.ChangesKnown.gave_of_lookup (h : w.ChangesKnown) {c : ChangeAt H id}
    (hc : w.repo.refs.changes.lookup id = some c) : w.Gave id :=
  h.refs id (Finmap.mem_of_lookup_eq_some hc)

/-- **A direct snapshot** changes the record of the change. -/
theorem changesOnly_snapChangeDirectly {newTree : H} {opts : SnapOptions} (h : w.ChangesKnown) :
    ChangesOnly (fun x => x = id) (snapChangeDirectly id newTree opts) w fun _ _ => True := by
  refine ChangesOnly.of_keeps_bind h keeps_getChange fun c w₁ hk₁ h₁ hc => ?_
  have hgave : w₁.Gave id := (h.gave_of_lookup hc).mono hk₁.env hk₁.idsLe
  refine ChangesOnly.of_keeps_bind h₁ keeps_loadObject fun prevSnap w₂ hk₂ h₂ _ => ?_
  split
  · exact ChangesOnly.pure h₂ trivial
  refine ChangesOnly.of_keeps_bind h₂ keeps_currentTimestampNs fun now w₃ hk₃ h₃ _ => ?_
  refine ChangesOnly.of_keeps_bind h₃ (keeps_storeObject LawfulFormat.snapshot)
    fun snapHash w₄ hk₄ h₄ _ => ?_
  have hk := (hk₂.trans hk₃).trans hk₄
  have hadvance : (c.1.advance snapHash).id = id := (Change.advance_id _ _).trans c.2
  have hgave₄ : w₄.Gave (c.1.advance snapHash).id := hadvance.symm ▸ hgave.mono hk.env hk.idsLe
  refine ChangesOnly.bind ((changesOnly_putChange h₄ hgave₄).mono (fun x hx => hx.trans hadvance)
    fun _ _ _ h => h) fun _ w₅ h₅ _ => ?_
  refine ChangesOnly.bind (changesOnly_appendOp h₅.known fun id' c' he => ?_)
    fun _ w₆ h₆ _ => ChangesOnly.pure h₆.known trivial
  obtain ⟨rfl, -⟩ := RefSnapshot.change.inj (List.mem_singleton.mp he)
  exact h₅.gave (hgave.mono hk.env hk.idsLe)

/-- The records that an undo brings back, where they differ from those that are there. -/
def Repo.Undoes (repo : Repo H) (id : ChangeId) : Prop :=
  ∃ target, pickOpToUndo repo.oplog = some target ∧
    ∃ v, RefSnapshot.change id v ∈ target.before ∧ v ≠ repo.refs.changes.lookup id

/-- **An undo** changes the records that it brings back. -/
theorem changesOnly_undoOnce (h : w.ChangesKnown) (actor : PrincipalId) :
    ChangesOnly w.repo.Undoes (undoOnce actor) w fun _ _ => True := by
  have hlist : Keeps (listOps : RepoM H _) w fun ops _ => ops = w.repo.oplog :=
    listOps_spec (fun _ hs hr => ⟨(World.Quiet.of_repo hs hr).kept, rfl⟩)
      (fun _ _ hs hr _ => (World.Quiet.of_repo hs hr).kept)
  refine ChangesOnly.of_keeps_bind h hlist fun ops w₁ hk₁ h₁ hops => ?_
  subst hops
  cases hpick : pickOpToUndo w.repo.oplog with
  | none => exact ChangesOnly.pure h₁ trivial
  | some target =>
    refine ChangesOnly.of_keeps_bind h₁ keeps_openWorkspaces fun _ w₂ hk₂ h₂ _ => ?_
    have hread : Keeps (readCurrents target.before) w₂ fun now _ =>
        now = target.before.map fun e => w₂.repo.refs.read e.key :=
      readCurrents_spec _ (fun _ hs hr => ⟨(World.Quiet.of_repo hs hr).kept, rfl⟩)
        (fun _ _ hs hr _ => (World.Quiet.of_repo hs hr).kept)
    refine ChangesOnly.of_keeps_bind h₂ hread fun now w₃ hk₃ h₃ hnow => ?_
    have hk := (hk₁.trans hk₂).trans hk₃
    have hgave : ∀ id c, RefSnapshot.change id (some c) ∈ target.before → w₃.Gave id :=
      fun id c hc => (h.log target (mem_of_pickOpToUndo hpick).1 id c hc).mono hk.env hk.idsLe
    refine ChangesOnly.bind ((changesOnly_restoreRefs h₃ hgave).mono (fun id hx => ?_)
      (Q := fun _ _ => True) fun _ _ _ _ => trivial) fun _ w₄ h₄ _ => ?_
    · rw [hk.refs] at hx
      exact ⟨target, hpick, hx⟩
    refine ChangesOnly.bind (changesOnly_appendOp h₄.known fun id c he => ?_) fun _ w₅ h₅ _ =>
      ChangesOnly.pure h₅.known trivial
    -- what the undo overwrites is there
    rw [hnow] at he
    obtain ⟨e, he, hread⟩ := List.mem_map.mp he
    have hkey : e.key = .change id := by
      rw [← Refs.key_read w₂.repo.refs e.key, hread]
      rfl
    rw [hkey] at hread
    have hlookup : w₂.repo.refs.changes.lookup id = some c :=
      eq_of_heq (RefSnapshot.change.inj hread).2
    exact h₄.gave ((h₂.gave_of_lookup hlookup).mono hk₃.env hk₃.idsLe)

end Parts

/-! ## What requests change -/

/-- The records that a request may change: for an undo those that it brings back, and otherwise those
that the caller may mutate, and new ones. -/
def Request.MayChange (srv : Server) (headers : HeaderMap) (w : World H) :
    Request → ChangeId → Prop
  | undo _ => w.repo.Undoes
  | _ => fun id => w.repo.refs.Mutable (CallerIs H srv headers) id ∨ ¬ w.Gave id

section Requests

variable [LinearOrder H] [Format H] {srv : Server} {rd : Reader} {headers : HeaderMap}

/-- A new change gets an id that no change has had. -/
theorem changesOnly_createChange (h : w.ChangesKnown) (hfresh : Function.Injective w.env.ulid)
    {req : CreateChangeReq} :
    ChangesOnly (fun id => ¬ w.Gave id) (Handlers.createChange srv headers req) w
      fun _ _ => True := by
  refine ChangesOnly.of_keeps_bind h keeps_lockForWrite.engine fun _ w₁ hk₁ h₁ _ => ?_
  refine ChangesOnly.of_keeps_bind h₁ keeps_callerFrom fun caller w₂ hk₂ h₂ _ => ?_
  refine ChangesOnly.of_keeps_bind h₂ Handlers.keeps_parentSnapshot
    fun parentSnap w₃ hk₃ h₃ _ => ?_
  have hk₀₃ := (hk₁.trans hk₂).trans hk₃
  refine ChangesOnly.of_keeps_bind h₃ keeps_newUlid.engine fun id w₄ hk₄ h₄ hid => ?_
  obtain ⟨rfl, hids⟩ := hid
  refine ChangesOnly.of_argument h₄ fun visibility w₅ hk₅ h₅ => ?_
  refine ChangesOnly.of_argument h₅ fun state w₆ hk₆ h₆ => ?_
  have hk₄₆ := hk₅.trans hk₆
  have hgave : w₆.Gave (w₃.env.ulid w₃.ids) := by
    refine ⟨w₃.ids, ?_, by rw [hk₄₆.env, hk₄.env]⟩
    have := hk₄₆.idsLe
    omega
  refine ChangesOnly.bind ((changesOnly_putChange h₆ hgave).engine.mono (fun x hx => ?_)
    fun _ _ _ h => h) fun _ w₇ h₇ _ => ?_
  · rw [hx]
    show ¬ w.Gave (w₃.env.ulid w₃.ids)
    rw [hk₀₃.env]
    exact World.Gave.ne_ulid hfresh hk₀₃.idsLe
  refine ChangesOnly.bind (changesOnly_appendOp h₇.known fun id c he => ?_).engine
    fun _ w₈ h₈ _ => ChangesOnly.pure h₈.known trivial
  cases List.mem_singleton.mp he

theorem changesOnly_editChange (h : w.ChangesKnown) {id : String} {edit : H → RepoM H H}
    {path : String} (hedit : EditsPath edit path) :
    ChangesOnly (w.repo.refs.Mutable (CallerIs H srv headers))
      (Handlers.editChange srv id headers edit) w fun _ _ => True := by
  refine ChangesOnly.of_keeps_bind h keeps_lockForWrite.engine fun _ w₁ hk₁ h₁ _ => ?_
  refine ChangesOnly.of_argument h₁ fun id w₂ hk₂ h₂ => ?_
  refine ChangesOnly.of_keeps_bind h₂ keeps_mutableSnapshot_mutable
    fun found w₃ hk₃ h₃ hmutable => ?_
  rw [(hk₁.trans hk₂).refs] at hmutable
  refine ChangesOnly.of_keeps_bind h₃ (hedit.keeps found.2.tree).engine
    fun newTree w₄ hk₄ h₄ _ => ?_
  refine ChangesOnly.bind ((changesOnly_snapChangeDirectly h₄).engine.mono (fun x hx => ?_)
    fun _ _ _ h => h) fun outcome w₅ h₅ _ => ChangesOnly.pure h₅.known trivial
  exact hx ▸ hmutable

theorem changesOnly_snapChange (h : w.ChangesKnown) {id : String} {req : SnapReq} :
    ChangesOnly (w.repo.refs.Mutable (CallerIs H srv headers))
      (Handlers.snapChange srv id headers req) w fun _ _ => True := by
  refine ChangesOnly.of_keeps_bind h keeps_lockForWrite.engine fun _ w₁ hk₁ h₁ _ => ?_
  refine ChangesOnly.of_argument h₁ fun id w₂ hk₂ h₂ => ?_
  refine ChangesOnly.of_keeps_bind h₂ keeps_mutableSnapshot_mutable
    fun found w₃ hk₃ h₃ hmutable => ?_
  rw [(hk₁.trans hk₂).refs] at hmutable
  refine ChangesOnly.bind ((changesOnly_snapChangeDirectly h₃).engine.mono (fun x hx => ?_)
    fun _ _ _ h => h) fun outcome w₄ h₄ _ => ?_
  · exact hx ▸ hmutable
  · exact Handlers.keeps_snapResp.changesOnly h₄.known

theorem changesOnly_transitionChange (h : w.ChangesKnown) {id : String} {req : TransitionReq} :
    ChangesOnly (w.repo.refs.Mutable (CallerIs H srv headers))
      (Handlers.transitionChange srv id headers req) w fun _ _ => True := by
  refine ChangesOnly.of_keeps_bind h keeps_lockForWrite.engine fun _ w₁ hk₁ h₁ _ => ?_
  refine ChangesOnly.of_argument h₁ fun id w₂ hk₂ h₂ => ?_
  refine ChangesOnly.of_keeps_bind h₂ keeps_callerIs fun caller w₃ hk₃ h₃ hcaller => ?_
  refine ChangesOnly.of_keeps_bind h₃ keeps_loadMutableChange fun before w₄ hk₄ h₄ hc => ?_
  have hgave : w₄.Gave before.1.id :=
    before.2.symm ▸ (h₃.gave_of_lookup hc.1).mono hk₄.env hk₄.idsLe
  rw [((hk₁.trans hk₂).trans hk₃).refs] at hc
  refine ChangesOnly.of_argument h₄ fun state w₅ hk₅ h₅ => ?_
  refine ChangesOnly.of_argument h₅ fun visibility w₆ hk₆ h₆ => ?_
  have hk := hk₅.trans hk₆
  let c : Change H := { before.1 with state := state, visibility := visibility }
  have hput : ChangesOnly (fun x => x = c.id) (putChange c) w₆ fun _ _ => True :=
    changesOnly_putChange h₆ (hgave.mono hk.env hk.idsLe)
  refine ChangesOnly.bind (hput.engine.mono (fun x hx => ?_) fun _ _ _ h => h) fun _ w₇ h₇ _ => ?_
  · obtain rfl : x = id := hx.trans before.2
    exact ⟨caller, before, hcaller, hc⟩
  refine ChangesOnly.bind (changesOnly_appendOp h₇.known fun id' c' he => ?_).engine
    fun _ w₈ h₈ _ => ChangesOnly.pure h₈.known trivial
  obtain ⟨rfl, -⟩ := RefSnapshot.change.inj (List.mem_singleton.mp he)
  exact h₇.gave (hgave.mono hk.env hk.idsLe)

theorem changesOnly_undo (h : w.ChangesKnown) {req : UndoReq} :
    ChangesOnly w.repo.Undoes (Handlers.undo req) w fun _ _ => True := by
  refine ChangesOnly.of_keeps_bind h keeps_lockForWrite.engine fun _ w₁ hk₁ h₁ _ => ?_
  have hsame : w₁.repo.Undoes = w.repo.Undoes := by
    funext id
    rw [Repo.Undoes, Repo.Undoes, hk₁.oplog, hk₁.refs]
  have hundo := changesOnly_undoOnce h₁ (req.author.getD defaultActor)
  rw [hsame] at hundo
  exact ChangesOnly.bind hundo.engine fun _ w₂ h₂ _ => ChangesOnly.pure h₂.known trivial

/-- A collection of garbage writes no refs and no record. -/
theorem gc_sameRefs (srv : Server) (headers : HeaderMap) (body : Option GcReq) (w : World H) :
    ∃ w₁, w.Kept w₁ ∧ w₁.SameRefs (final (Handlers.gc srv headers body) w) := by
  have hcaller : Keeps (Handlers.gcCaller srv headers : ApiM H _) w fun _ _ => True := by
    rw [Handlers.gcCaller]
    split
    · exact Keeps.throw
    · exact keeps_callerFrom
  have hpost : Post (Handlers.gc srv headers body) w
      (fun _ w' => ∃ w₁, w.Kept w₁ ∧ w₁.SameRefs w')
      (fun _ w' => ∃ w₁, w.Kept w₁ ∧ w₁.SameRefs w') := by
    rw [Handlers.gc, post_bind]
    refine Post.mono hcaller (fun _ w₁ hk₁ => ?_) (fun _ w₁ hk₁ => ⟨w₁, hk₁, .refl w₁⟩)
    rw [post_bind]
    refine Post.mono keeps_lockForWrite.engine (fun _ w₂ hk₂ => ?_)
      (fun _ w₂ hk₂ => ⟨w₂, hk₁.1.trans hk₂, .refl w₂⟩)
    have hk := hk₁.1.trans hk₂.1
    rw [post_bind, post_adaptExcept]
    exact (collectGarbage_collected _).mono (fun _ _ h => ⟨w₂, hk, h.toSameRefs⟩)
      (fun _ _ h => ⟨w₂, hk, h.toSameRefs⟩)
  exact hpost.final

/-- The handlers that read change no record. -/
theorem World.ChangedOnly.of_reads {ε α : Type} {x : EStateM ε (World H) α}
    (hx : Keeps x w fun _ _ => True) (h : w.ChangesKnown) : w.ChangedOnly X (final x w) :=
  (hx.changesOnly h).final

/-- **A request** changes the records that it may. -/
theorem Request.changedOnly (h : w.ChangesKnown) (hfresh : Function.Injective w.env.ulid)
    (srv : Server) (rd : Reader) (headers : HeaderMap) (req : Request) :
    w.ChangedOnly (req.MayChange srv headers w) (req.effect srv rd headers w) := by
  cases req with
  | listChanges => exact .of_reads Handlers.keeps_listChanges h
  | createChange req => exact (changesOnly_createChange h hfresh).final.mono fun _ => .inr
  | getChange id => exact .of_reads Handlers.keeps_getChange h
  | getTreeRoot id => exact .of_reads Handlers.keeps_getTreeRoot h
  | getTreePath id path => exact .of_reads Handlers.keeps_getTreePath h
  | patchTreePath id path body =>
    exact (changesOnly_editChange h (editsPath_writeBlobAtPath path body)).final.mono fun _ => .inl
  | deleteTreePath id path =>
    exact (changesOnly_editChange h (editsPath_deleteAtPath path)).final.mono fun _ => .inl
  | snapChange id req => exact (changesOnly_snapChange h).final.mono fun _ => .inl
  | diffChange id q => exact .of_reads Handlers.keeps_diffChange h
  | blamePath id path q => exact .of_reads Handlers.keeps_blamePath h
  | grepChange id q => exact .of_reads Handlers.keeps_grepChange h
  | transitionChange id req => exact (changesOnly_transitionChange h).final.mono fun _ => .inl
  | getSnapshot hash => exact .of_reads Handlers.keeps_getSnapshot h
  | listOplog limit => exact .of_reads Handlers.keeps_listOplog h
  | undo req => exact (changesOnly_undo h).final
  | gc body =>
    obtain ⟨w₁, hk, hs⟩ := gc_sameRefs srv headers body w
    exact .of_same h (hs.env.trans hk.env) (hk.idsLe.trans hs.ids) (hs.refs.trans hk.refs)
      (hs.oplog.trans hk.oplog)

end Requests

/-! ## The log of the requests -/

section Chronicle

variable [LinearOrder H] [Format H] {σ : UndoStack H}

omit [LinearOrder H] in
/-- What an undo does once it holds the lock. -/
theorem final_undo (hrel : w.env.Reliable) (req : UndoReq) :
    final (Handlers.undo req) w = final (undoOnce (req.author.getD defaultActor)) (w.tick .lock) := by
  have hlock : engine lockForWrite w = .ok () (w.tick .lock) := by
    rw [engine, lockForWrite, EStateM.adaptExcept, step, hrel.failure]
  rw [final, final, Handlers.undo, run_bind_ok _ hlock]
  cases hrun : undoOnce (req.author.getD defaultActor) (w.tick .lock) with
  | ok out w' =>
    have hengine : engine (undoOnce (req.author.getD defaultActor)) (w.tick .lock) = .ok out w' := by
      rw [engine, EStateM.adaptExcept, hrun]
    rw [run_bind_ok _ hengine]
    rfl
  | error e w' =>
    have hengine : engine (undoOnce (req.author.getD defaultActor)) (w.tick .lock) =
        .error (.ofError e) w' := by
      rw [engine, EStateM.adaptExcept, hrun]
    rw [run_bind_error _ hengine]

/-- Taking the lock writes nothing. -/
theorem kept_lock (w : World H) : w.Kept (w.tick .lock) :=
  (World.Quiet.of_repo (.tick w (by simp [FsStep.Mutates])) rfl).kept

/-- **A request** keeps the chronicle. -/
theorem Request.chronicled (h : w.Chronicled σ) (srv : Server) (rd : Reader) (headers : HeaderMap)
    (req : Request) : ∃ σ', (req.effect srv rd headers w).Chronicled σ' := by
  have hreads : ∀ {α : Type} {x : ApiM H α}, Keeps x w (fun _ _ => True) →
      ∃ σ', (final x w).Chronicled σ' := fun hx =>
    ⟨σ, h.kept (Post.mono hx (fun _ _ hk => hk.1) (fun _ _ hk => hk)).final⟩
  have hwrites : ∀ {α : Type} {x : ApiM H α},
      Post x w (fun _ w' => w.Outcome w') (fun _ w' => w.Outcome w') →
      ∃ σ', (final x w).Chronicled σ' := fun hx => ⟨_, h.outcome hx.final⟩
  cases req with
  | listChanges => exact hreads Handlers.keeps_listChanges
  | createChange req => exact hwrites (Handlers.createChange_outcome h.steady srv headers req)
  | getChange id => exact hreads Handlers.keeps_getChange
  | getTreeRoot id => exact hreads Handlers.keeps_getTreeRoot
  | getTreePath id path => exact hreads Handlers.keeps_getTreePath
  | patchTreePath id path body =>
    exact hwrites (Handlers.patchTreePath_outcome h.steady srv id path headers body)
  | deleteTreePath id path =>
    exact hwrites (Handlers.deleteTreePath_outcome h.steady srv id path headers)
  | snapChange id req => exact hwrites (Handlers.snapChange_outcome h.steady srv id headers req)
  | diffChange id q => exact hreads Handlers.keeps_diffChange
  | blamePath id path q => exact hreads Handlers.keeps_blamePath
  | grepChange id q => exact hreads Handlers.keeps_grepChange
  | transitionChange id req =>
    exact hwrites (Handlers.transitionChange_outcome h.steady srv id headers req)
  | getSnapshot hash => exact hreads Handlers.keeps_getSnapshot
  | listOplog limit => exact hreads Handlers.keeps_listOplog
  | undo req =>
    have hlock := h.kept (kept_lock w)
    obtain ⟨out, w', hrun, hout⟩ := hlock.undoOnce_returns (req.author.getD defaultActor)
    rw [Request.effect, final_undo h.reliable, final, hrun]
    rcases hout with ⟨-, -, hq⟩ | ⟨o, i, r, rest, -, rfl, hi, hu, hb, ha, hcom⟩
    · exact ⟨σ, hlock.kept hq.kept⟩
    · exact ⟨rest, (hlock.undone hi hu hb ha hcom).2.2⟩
  | gc body =>
    obtain ⟨w₁, hk, hs⟩ := gc_sameRefs srv headers body w
    exact ⟨σ, (h.kept hk).sameRefs hs⟩

end Chronicle

/-! ## Runs -/

/-- A request that comes in, with the state in which it does. -/
structure Exchange (H : Type) where
  world : World H
  srv : Server
  rd : Reader
  headers : HeaderMap
  req : Request

variable [LinearOrder H] [Format H]

/-- The state after the request. -/
def Exchange.after (x : Exchange H) : World H := x.req.effect x.srv x.rd x.headers x.world

/-- The states that are reached from `w₀` by requests, whatever handle on the log they are served with,
with the requests, latest first. -/
inductive DaemonRun (w₀ : World H) : World H → List (Exchange H) → Prop
  | start : DaemonRun w₀ w₀ []
  | request {w : World H} {xs : List (Exchange H)} (h : DaemonRun w₀ w xs) (log : FileLog)
      (x : Exchange H) (hx : x.world = { w with log := log }) : DaemonRun w₀ x.after (x :: xs)

namespace DaemonRun

variable {w₀ w : World H} {xs : List (Exchange H)}

/-- The ids of changes come from the generator, in every state of a run. -/
theorem known (h : DaemonRun w₀ w xs) (h₀ : w₀.ChangesKnown)
    (hfresh : Function.Injective w₀.env.ulid) :
    w.ChangesKnown ∧ Function.Injective w.env.ulid := by
  induction h with
  | start => exact ⟨h₀, hfresh⟩
  | request _ log x hx ih =>
    have hworld : x.world.ChangesKnown := by
      rw [hx]
      exact ⟨ih.1.refs, ih.1.log⟩
    have henv : Function.Injective x.world.env.ulid := by
      rw [hx]
      exact ih.2
    have hchanged := x.req.changedOnly hworld henv x.srv x.rd x.headers
    refine ⟨hchanged.known, ?_⟩
    rw [Exchange.after, hchanged.env]
    exact henv

/-- Where runs of commands have led to the first state, the log is a chronicle. -/
theorem chronicle (h : DaemonRun w₀ w xs) {σ : UndoStack H} (h₀ : w₀.Chronicled σ) :
    ∃ σ', w.Chronicled σ' := by
  induction h with
  | start => exact ⟨σ, h₀⟩
  | request _ log x hx ih =>
    obtain ⟨σ', hσ'⟩ := ih
    have hworld : x.world.Chronicled σ' := hx ▸ hσ'.withLog log
    exact Request.chronicled hworld x.srv x.rd x.headers x.req

end DaemonRun

end Tig
