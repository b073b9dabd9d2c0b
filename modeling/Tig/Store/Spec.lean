import Tig.Store.World

set_option relaxedAutoImplicit false
set_option autoImplicit false

/-!
# What the primitive operations do

One rule for each primitive of `Tig.Store.World`: to show that the primitive meets a
postcondition, show that the postcondition follows from what the primitive does. A rule for a
read says what was read and that nothing was written; a rule for a write gives the new state.

## Main definitions

* `Tig.World.SameRefs` — neither refs nor log were written.
* `Tig.World.Quiet` — moreover, objects were at most added.
* `Tig.World.Committed`, `Tig.World.Failed` — how an operation that writes refs and records it
  ends.

## Main results

* `Tig.getChange_spec`, `Tig.putObject_spec`, `Tig.post_writeRef`, `Tig.post_appendOp`, … — the
  rules.
-/

namespace Tig

open Program

variable {H : Type}

/-- The steps that change refs or log. -/
def FsStep.Mutates (k : FsStep) : Prop := k = .refWrite ∨ k = .logWrite ∨ k = .logSync

/-- Some step that changes neither refs nor log can fail with `e`. -/
def Env.Fault (env : Env) (e : Error) : Prop :=
  ∃ k n, ¬ FsStep.Mutates k ∧ env.failure k n = some e

theorem Env.Reliable.failure {env : Env} (h : env.Reliable) (k : FsStep) (n : Nat) :
    env.failure k n = none := by
  rw [Env.failure, h k n, Option.map_none]

theorem Env.Reliable.not_fault {env : Env} (h : env.Reliable) (e : Error) : ¬ env.Fault e := by
  rintro ⟨k, n, -, hkn⟩
  rw [h.failure k n] at hkn
  cases hkn

/-- A failing step is never reported as a missing file. -/
theorem Env.Fault.ne_notFound {env : Env} {e : Error} (h : env.Fault e) (what : String) :
    e ≠ .notFound what := by
  rintro rfl
  obtain ⟨k, n, -, hkn⟩ := h
  simp [Env.failure] at hkn

/-- Neither refs nor log nor the handle on it changed, and no step was taken that changes
them. -/
structure World.SameRefs (w w' : World H) : Prop where
  refs : w'.repo.refs = w.repo.refs
  oplog : w'.repo.oplog = w.repo.oplog
  log : w'.log = w.log
  env : w'.env = w.env
  ids : w.ids ≤ w'.ids
  ticks : ∀ k : FsStep, k.Mutates → w'.ticks k = w.ticks k

namespace World.SameRefs

variable {w w' w'' : World H}

@[refl] theorem refl (w : World H) : w.SameRefs w := ⟨rfl, rfl, rfl, rfl, le_rfl, fun _ _ => rfl⟩

@[trans] theorem trans (h : w.SameRefs w') (h' : w'.SameRefs w'') : w.SameRefs w'' where
  refs := h'.refs.trans h.refs
  oplog := h'.oplog.trans h.oplog
  log := h'.log.trans h.log
  env := h'.env.trans h.env
  ids := h.ids.trans h'.ids
  ticks k hk := (h'.ticks k hk).trans (h.ticks k hk)

/-- Counting a step that changes neither refs nor log. -/
theorem tick (w : World H) {k : FsStep} (hk : ¬ k.Mutates) : w.SameRefs (w.tick k) :=
  ⟨rfl, rfl, rfl, rfl, le_rfl, fun k' hk' =>
    Function.update_of_ne (fun h : k' = k => hk (h ▸ hk')) _ _⟩

theorem setObjects (w : World H) (s : ObjectStore H) : w.SameRefs (w.setObjects s) :=
  ⟨rfl, rfl, rfl, rfl, le_rfl, fun _ _ => rfl⟩

end World.SameRefs

/-- Nothing but objects was written: neither refs nor log changed, and every object that was
stored still is. -/
structure World.Quiet [LinearOrder H] [Format H] (w w' : World H) : Prop extends
    World.SameRefs w w' where
  le : w.repo.objects.Le w'.repo.objects
  intact : w.repo.objects.Intact → w'.repo.objects.Intact

namespace World.Quiet

variable [LinearOrder H] [Format H] {w w' w'' : World H}

@[refl] theorem refl (w : World H) : w.Quiet w := ⟨.refl w, .refl _, id⟩

@[trans] theorem trans (h : w.Quiet w') (h' : w'.Quiet w'') : w.Quiet w'' :=
  ⟨h.toSameRefs.trans h'.toSameRefs, h.le.trans h'.le, h'.intact ∘ h.intact⟩

theorem of_repo (h : w.SameRefs w') (hr : w'.repo = w.repo) : w.Quiet w' :=
  ⟨h, by rw [hr], by rw [hr]; exact id⟩

end World.Quiet

/-! ## Operations that write refs and record it -/

/-- From the one world to the other the entries `es` were written, in order and without a failure,
and the log file was not written; `log` is the handle on it. -/
structure World.Wrote (w w' : World H) (es : List (RefSnapshot H)) (log : FileLog) : Prop where
  repo : w'.repo = { w.repo with refs := Journal.restore (refTable H) w.repo.refs es }
  env : w'.env = w.env
  ids : w.ids ≤ w'.ids
  log : w'.log = log
  refWrites : w'.ticks .refWrite = w.ticks .refWrite + es.length
  logWrites : w'.ticks .logWrite = w.ticks .logWrite
  logSyncs : w'.ticks .logSync = w.ticks .logSync
  faultless : ∀ i < es.length, w.env.failure .refWrite (w.ticks .refWrite + i) = none

namespace World.Wrote

variable {w w' w'' : World H} {es : List (RefSnapshot H)} {log : FileLog}

theorem refl (w : World H) : w.Wrote w [] w.log :=
  ⟨rfl, rfl, le_rfl, rfl, rfl, rfl, rfl, fun _ h => absurd h (Nat.not_lt_zero _)⟩

/-- A read after the writes. -/
theorem read (h : w.Wrote w' es log) (hs : w'.SameRefs w'') (hr : w''.repo = w'.repo) :
    w.Wrote w'' es log where
  repo := hr.trans h.repo
  env := hs.env.trans h.env
  ids := h.ids.trans hs.ids
  log := hs.log.trans h.log
  refWrites := (hs.ticks _ (Or.inl rfl)).trans h.refWrites
  logWrites := (hs.ticks _ (Or.inr (Or.inl rfl))).trans h.logWrites
  logSyncs := (hs.ticks _ (Or.inr (Or.inr rfl))).trans h.logSyncs
  faultless := h.faultless

/-- One more write. -/
theorem write (h : w.Wrote w' es log) (e : RefSnapshot H)
    (hf : w.env.failure .refWrite (w.ticks .refWrite + es.length) = none) :
    w.Wrote ((w'.tick .refWrite).setRefs (w'.repo.refs.write e)) (es ++ [e]) log where
  repo := by simp [World.setRefs, World.tick, h.repo, Journal.restore, refTable]
  env := h.env
  ids := h.ids
  log := h.log
  refWrites := by simp [World.setRefs, World.tick, h.refWrites, add_assoc]
  logWrites := by simp [World.setRefs, World.tick, h.logWrites]
  logSyncs := by simp [World.setRefs, World.tick, h.logSyncs]
  faultless i hi := by
    rcases Nat.lt_succ_iff_lt_or_eq.mp (by simpa using hi) with hi | rfl
    · exact h.faultless i hi
    · exact hf

/-- Opening the log after the writes. -/
theorem openLog (h : w.Wrote w' es log) (log' : FileLog) :
    w.Wrote { w' with log := log' } es log' :=
  ⟨h.repo, h.env, h.ids, rfl, h.refWrites, h.logWrites, h.logSyncs, h.faultless⟩

theorem refs (h : w.Wrote w' es log) :
    w'.repo.refs = Journal.restore (refTable H) w.repo.refs es := by rw [h.repo]

theorem objects (h : w.Wrote w' es log) : w'.repo.objects = w.repo.objects := by rw [h.repo]

theorem oplog (h : w.Wrote w' es log) : w'.repo.oplog = w.repo.oplog := by rw [h.repo]

end World.Wrote

section Operations

variable [LinearOrder H] [Format H]

/-- The outcome of an operation that got to the end: it wrote the entries `es`, in order, and
then the record `op`, and none of these steps failed. -/
structure World.Committed (w w' : World H) (es : List (RefSnapshot H)) (op : Op H) : Prop where
  refs : w'.repo.refs = Journal.restore (refTable H) w.repo.refs es
  oplog : w'.repo.oplog = w.repo.oplog ++ [op]
  log : w'.log = ⟨op.id + 1⟩
  env : w'.env = w.env
  ids : w.ids ≤ w'.ids
  le : w.repo.objects.Le w'.repo.objects
  intact : w.repo.objects.Intact → w'.repo.objects.Intact
  refWrite : ∀ i < es.length, w.env.failure .refWrite (w.ticks .refWrite + i) = none
  logWrite : w.env.failure .logWrite (w.ticks .logWrite) = none
  logSync : w.env.failure .logSync (w.ticks .logSync) = none

/-- The outcome of an operation that was to write the entries `es` and then a record, and failed
with `e` once it had begun: at one of its writes, with the entries before that one written; at
the write of the record; or at the sync that follows, with the record in the file. -/
inductive World.Failed (w w' : World H) (es : List (RefSnapshot H)) (e : Error) : Prop where
  | refWrite (i : Nat) (hi : i < es.length)
      (fault : w.env.failure .refWrite (w.ticks .refWrite + i) = some e)
      (refs : w'.repo.refs = Journal.restore (refTable H) w.repo.refs (es.take i))
      (oplog : w'.repo.oplog = w.repo.oplog)
  | logWrite (fault : w.env.failure .logWrite (w.ticks .logWrite) = some e)
      (refs : w'.repo.refs = Journal.restore (refTable H) w.repo.refs es)
      (oplog : w'.repo.oplog = w.repo.oplog)
  | logSync (fault : w.env.failure .logSync (w.ticks .logSync) = some e) (op : Op H)
      (refs : w'.repo.refs = Journal.restore (refTable H) w.repo.refs es)
      (oplog : w'.repo.oplog = w.repo.oplog ++ [op])

omit [LinearOrder H] [Format H] in
theorem Env.Reliable.not_failed {w w' : World H} {es : List (RefSnapshot H)} {e : Error}
    (h : w.env.Reliable) : ¬ w.Failed w' es e := by
  rintro (⟨i, hi, hf, -, -⟩ | ⟨hf, -, -⟩ | ⟨hf, -, -, -⟩) <;>
  · rw [h.failure] at hf
    cases hf

/-- What came before the first write does not matter. -/
theorem World.Committed.of_quiet {w w₁ w' : World H} {es : List (RefSnapshot H)} {op : Op H}
    (hq : w.Quiet w₁) (h : w₁.Committed w' es op) : w.Committed w' es op where
  refs := by rw [h.refs, hq.refs]
  oplog := by rw [h.oplog, hq.oplog]
  log := h.log
  env := h.env.trans hq.env
  ids := hq.ids.trans h.ids
  le := hq.le.trans h.le
  intact := h.intact ∘ hq.intact
  refWrite i hi := by
    have := h.refWrite i hi
    rwa [hq.env, hq.ticks _ (Or.inl rfl)] at this
  logWrite := by
    have := h.logWrite
    rwa [hq.env, hq.ticks _ (Or.inr (Or.inl rfl))] at this
  logSync := by
    have := h.logSync
    rwa [hq.env, hq.ticks _ (Or.inr (Or.inr rfl))] at this

theorem World.Failed.of_quiet {w w₁ w' : World H} {es : List (RefSnapshot H)} {e : Error}
    (hq : w.Quiet w₁) (h : w₁.Failed w' es e) : w.Failed w' es e := by
  rcases h with ⟨i, hi, hf, hr, hl⟩ | ⟨hf, hr, hl⟩ | ⟨hf, op, hr, hl⟩
  · rw [hq.env, hq.ticks _ (Or.inl rfl)] at hf
    exact .refWrite i hi hf (by rw [hr, hq.refs]) (by rw [hl, hq.oplog])
  · rw [hq.env, hq.ticks _ (Or.inr (Or.inl rfl))] at hf
    exact .logWrite hf (by rw [hr, hq.refs]) (by rw [hl, hq.oplog])
  · rw [hq.env, hq.ticks _ (Or.inr (Or.inr rfl))] at hf
    exact .logSync hf op (by rw [hr, hq.refs]) (by rw [hl, hq.oplog])

end Operations

section Post

variable {w : World H}

/-! ## Steps, clock and ids -/

theorem post_step {k : FsStep} {Q : Unit → World H → Prop} {E : Error → World H → Prop} :
    Post (step k) w Q E ↔
      (w.env.failure k (w.ticks k) = none → Q () (w.tick k)) ∧
        ∀ e, w.env.failure k (w.ticks k) = some e → E e (w.tick k) := by
  simp only [Post, step]
  cases w.env.failure k (w.ticks k) <;> simp

/-- A step that changes neither refs nor log. -/
theorem step_spec {k : FsStep} (hk : ¬ k.Mutates) {Q : Unit → World H → Prop}
    {E : Error → World H → Prop} (hok : ∀ w', w.SameRefs w' → w'.repo = w.repo → Q () w')
    (herr : ∀ e w', w.SameRefs w' → w'.repo = w.repo → w.env.Fault e → E e w') :
    Post (step k) w Q E :=
  post_step.mpr ⟨fun _ => hok _ (.tick w hk) rfl,
    fun e he => herr e _ (.tick w hk) rfl ⟨k, _, hk, he⟩⟩

/-- Reading the clock. -/
theorem post_currentTimestampNs {Q : Nat → World H → Prop} {E : Error → World H → Prop} :
    Post currentTimestampNs w Q E ↔ Q (w.env.now w.clock) { w with clock := w.clock + 1 } :=
  Iff.rfl

theorem currentTimestampNs_spec {Q : Nat → World H → Prop} {E : Error → World H → Prop}
    (hok : ∀ n w', w.SameRefs w' → w'.repo = w.repo → Q n w') :
    Post currentTimestampNs w Q E :=
  hok _ _ ⟨rfl, rfl, rfl, rfl, le_rfl, fun _ _ => rfl⟩ rfl

/-- A fresh id is the next one of the generator, which counts on. -/
theorem newUlid_spec {Q : String → World H → Prop} {E : Error → World H → Prop}
    (hok : ∀ w', w.SameRefs w' → w'.repo = w.repo → w'.ids = w.ids + 1 →
      Q (w.env.ulid w.ids) w') :
    Post newUlid w Q E :=
  hok _ ⟨rfl, rfl, rfl, rfl, Nat.le_succ _, fun _ _ => rfl⟩ rfl rfl

/-! ## Objects -/

section Objects

variable [LinearOrder H] [Format H]

theorem loadObject_spec {α : Type} [Encodable H α] {h : H} {Q : α → World H → Prop}
    {E : Error → World H → Prop}
    (hok : ∀ a w', w.SameRefs w' → w'.repo = w.repo → w.repo.objects.load h = .ok a → Q a w')
    (herr : ∀ e w', w.SameRefs w' → w'.repo = w.repo →
      w.env.Fault e ∨ (w.repo.objects.load h : Except Error α) = .error e → E e w') :
    Post (loadObject h) w Q E := by
  rw [loadObject, post_bind]
  refine step_spec (by simp [FsStep.Mutates]) (fun w₁ hs hr => ?_)
    (fun e w₁ hs hr he => herr e w₁ hs hr (Or.inl he))
  rw [post_bind, post_get, post_fromExcept, hr]
  exact ⟨fun a ha => hok a w₁ hs hr ha, fun e he => herr e w₁ hs hr (Or.inr he)⟩

theorem putObject_spec {raw : RawObject} {Q : H → World H → Prop} {E : Error → World H → Prop}
    (hok : ∀ w', w.Quiet w' → w'.repo.objects = w.repo.objects.put raw → Q (raw.hash H) w')
    (herr : ∀ e w', w.Quiet w' → w'.repo = w.repo → w.env.Fault e → E e w') :
    Post (putObject raw) w Q E := by
  rw [putObject, post_bind, post_get, post_ite]
  refine ⟨fun hm => ?_, fun hm => ?_⟩
  · exact hok w (.refl w) (by simp [ObjectStore.put, hm])
  · rw [post_bind]
    refine step_spec (by simp [FsStep.Mutates]) (fun w₁ hs hr => ?_)
      (fun e w₁ hs hr he => herr e w₁ (.of_repo hs hr) hr he)
    have hquiet : w₁.Quiet (w₁.setObjects (w₁.repo.objects.put raw)) :=
      ⟨.setObjects _ _, ObjectStore.le_put _ _, fun hi => hi.put raw⟩
    exact hok _ (World.Quiet.trans (.of_repo hs hr) hquiet) (by simp [World.setObjects, hr])

theorem storeObject_spec {α : Type} [Encodable H α] {a : α} {Q : H → World H → Prop}
    {E : Error → World H → Prop}
    (hok : ∀ w', w.Quiet w' → w'.repo.objects = w.repo.objects.put (encode H a) →
      Q ((encode H a).hash H) w')
    (herr : ∀ e w', w.Quiet w' → w'.repo = w.repo → w.env.Fault e → E e w') :
    Post (storeObject a) w Q E :=
  putObject_spec hok herr

/-- Objects were at most added, and if the store was intact then what was `stored` is there. -/
structure World.Grew (w w' : World H) (stored : ObjectStore H → Prop) : Prop where
  quiet : w.Quiet w'
  stored : ∀ [LawfulFormat H], w.repo.objects.Intact → stored w'.repo.objects

/-- What came before the first addition does not matter. -/
theorem World.Grew.of_quiet {w w₁ w' : World H} {stored : ObjectStore H → Prop}
    (hq : w.Quiet w₁) (h : w₁.Grew w' stored) : w.Grew w' stored :=
  ⟨hq.trans h.quiet, fun hi => h.stored (hq.intact hi)⟩

/-- Writing one typed object, which can then be read. -/
theorem storeObject_grew {α : Type} [Encodable H α] {a : α}
    (hc : ∀ [LawfulFormat H], (Encodable.codec H (α := α)).Lawful)
    {Q : H → World H → Prop} {E : Error → World H → Prop}
    (hok : ∀ w', w.Grew w' (fun s => s.load ((encode H a).hash H) = .ok a) →
      Q ((encode H a).hash H) w')
    (herr : ∀ e w', w.Quiet w' → w.env.Fault e → E e w') : Post (storeObject a) w Q E := by
  refine storeObject_spec (fun w' hq hw' => hok w' ⟨hq, fun hi => ?_⟩)
    (fun e w' hq _ hf => herr e w' hq hf)
  rw [hw']
  exact ObjectStore.load_put hc hi a

end Objects

/-! ## Refs -/

theorem getChange_spec {id : ChangeId} {Q : ChangeAt H id → World H → Prop}
    {E : Error → World H → Prop}
    (hok : ∀ c w', w.SameRefs w' → w'.repo = w.repo →
      w.repo.refs.changes.lookup id = some c → Q c w')
    (herr : ∀ e w', w.SameRefs w' → w'.repo = w.repo →
      w.env.Fault e ∨ w.repo.refs.changes.lookup id = none ∧ e = .notFound ("change " ++ id) →
      E e w') :
    Post (getChange id) w Q E := by
  rw [getChange, post_bind]
  refine step_spec (by simp [FsStep.Mutates]) (fun w₁ hs hr => ?_)
    (fun e w₁ hs hr he => herr e w₁ hs hr (Or.inl he))
  rw [post_bind, post_get]
  cases hc : w₁.repo.refs.changes.lookup id with
  | none => exact herr _ _ hs hr (Or.inr ⟨hr ▸ hc, rfl⟩)
  | some c => exact hok c _ hs hr (hr ▸ hc)

theorem getWorkspace_spec {id : WorkspaceId} {Q : ManifestAt id → World H → Prop}
    {E : Error → World H → Prop}
    (hok : ∀ m w', w.SameRefs w' → w'.repo = w.repo →
      w.repo.refs.workspaces.lookup id = some m → Q m w')
    (herr : ∀ e w', w.SameRefs w' → w'.repo = w.repo →
      w.env.Fault e ∨
        w.repo.refs.workspaces.lookup id = none ∧ e = .notFound ("workspace " ++ id) →
      E e w') :
    Post (getWorkspace id) w Q E := by
  rw [getWorkspace, post_bind]
  refine step_spec (by simp [FsStep.Mutates]) (fun w₁ hs hr => ?_)
    (fun e w₁ hs hr he => herr e w₁ hs hr (Or.inl he))
  rw [post_bind, post_get]
  cases hc : w₁.repo.refs.workspaces.lookup id with
  | none => exact herr _ _ hs hr (Or.inr ⟨hr ▸ hc, rfl⟩)
  | some c => exact hok c _ hs hr (hr ▸ hc)

/-- A read that returns a function of the repository. -/
theorem readStep_spec {α : Type} (k : FsStep) (f : Repo H → α) (hk : ¬ k.Mutates)
    {Q : α → World H → Prop} {E : Error → World H → Prop}
    (hok : ∀ w', w.SameRefs w' → w'.repo = w.repo → Q (f w.repo) w')
    (herr : ∀ e w', w.SameRefs w' → w'.repo = w.repo → w.env.Fault e → E e w') :
    Post (do step k; let w ← get; return f w.repo) w Q E := by
  rw [post_bind]
  refine step_spec hk (fun w₁ hs hr => ?_) herr
  rw [post_bind, post_get, hr]
  exact hok w₁ hs hr

theorem openWorkspaces_spec {Q : Unit → World H → Prop} {E : Error → World H → Prop}
    (hok : ∀ w', w.SameRefs w' → w'.repo = w.repo → Q () w')
    (herr : ∀ e w', w.SameRefs w' → w'.repo = w.repo → w.env.Fault e → E e w') :
    Post openWorkspaces w Q E :=
  step_spec (by simp [FsStep.Mutates]) hok herr

theorem head_spec {Q : Option ChangeId → World H → Prop} {E : Error → World H → Prop}
    (hok : ∀ w', w.SameRefs w' → w'.repo = w.repo → Q w.repo.refs.head w')
    (herr : ∀ e w', w.SameRefs w' → w'.repo = w.repo → w.env.Fault e → E e w') :
    Post head w Q E :=
  readStep_spec .refRead (fun r => r.refs.head) (by simp [FsStep.Mutates]) hok herr

theorem getBookmark_spec {name : String} {Q : Option ChangeId → World H → Prop}
    {E : Error → World H → Prop}
    (hok : ∀ w', w.SameRefs w' → w'.repo = w.repo → Q (w.repo.refs.bookmarks.lookup name) w')
    (herr : ∀ e w', w.SameRefs w' → w'.repo = w.repo → w.env.Fault e → E e w') :
    Post (getBookmark name) w Q E :=
  readStep_spec .refRead (fun r => r.refs.bookmarks.lookup name) (by simp [FsStep.Mutates]) hok herr

theorem listChanges_spec {Q : List ChangeId → World H → Prop} {E : Error → World H → Prop}
    (hok : ∀ w', w.SameRefs w' → w'.repo = w.repo →
      Q (FiniteMap.sortedKeys w.repo.refs.changes) w')
    (herr : ∀ e w', w.SameRefs w' → w'.repo = w.repo → w.env.Fault e → E e w') :
    Post listChanges w Q E :=
  readStep_spec .refRead (fun r => FiniteMap.sortedKeys r.refs.changes) (by simp [FsStep.Mutates])
    hok herr

theorem listOps_spec {Q : List (Op H) → World H → Prop} {E : Error → World H → Prop}
    (hok : ∀ w', w.SameRefs w' → w'.repo = w.repo → Q w.repo.oplog w')
    (herr : ∀ e w', w.SameRefs w' → w'.repo = w.repo → w.env.Fault e → E e w') :
    Post listOps w Q E :=
  readStep_spec .logRead (fun r => r.oplog) (by simp [FsStep.Mutates]) hok herr

/-- Writing a ref either happens or fails, according to the environment. -/
theorem post_writeRef {e : RefSnapshot H} {Q : Unit → World H → Prop}
    {E : Error → World H → Prop} :
    Post (writeRef e) w Q E ↔
      (w.env.failure .refWrite (w.ticks .refWrite) = none →
        Q () ((w.tick .refWrite).setRefs (w.repo.refs.write e))) ∧
      ∀ err, w.env.failure .refWrite (w.ticks .refWrite) = some err →
        E err (w.tick .refWrite) := by
  rw [writeRef, post_bind, post_step]
  rfl

/-- Writing one more ref: it is written, or the operation fails at this write. -/
theorem writeRef_spec [LinearOrder H] [Format H] {w₀ : World H} {done : List (RefSnapshot H)}
    {e : RefSnapshot H} {log : FileLog} (hw : w₀.Wrote w done log)
    {Q : Unit → World H → Prop} {E : Error → World H → Prop}
    (hok : ∀ w', w₀.Wrote w' (done ++ [e]) log → Q () w')
    (herr : ∀ err w', (∀ todo, w₀.Failed w' (done ++ e :: todo) err) → w'.env = w₀.env → E err w') :
    Post (writeRef e) w Q E := by
  have hfail : w.env.failure .refWrite (w.ticks .refWrite) =
      w₀.env.failure .refWrite (w₀.ticks .refWrite + done.length) := by rw [hw.env, hw.refWrites]
  rw [post_writeRef, hfail]
  refine ⟨fun hf => hok _ (hw.write e hf), fun err hf => herr err _ (fun todo => ?_) hw.env⟩
  refine .refWrite done.length (by simp) hf ?_ hw.oplog
  rw [List.take_left]
  exact hw.refs

/-- Removing a manifest that is there is one write of its ref. -/
theorem post_deleteWorkspace {id : WorkspaceId} (hid : id ∈ w.repo.refs.workspaces)
    {Q : Unit → World H → Prop} {E : Error → World H → Prop} :
    Post (deleteWorkspace id) w Q E ↔ Post (writeRef (.workspace id none)) w Q E := by
  rw [deleteWorkspace, post_bind, post_step, post_writeRef]
  refine and_congr_left fun _ => imp_congr_right fun _ => ?_
  rw [post_bind, post_get, post_ite]
  exact ⟨fun h => h.1 hid, fun h => ⟨fun _ => h, fun hn => absurd hid hn⟩⟩

theorem listWorkspaces_spec {Q : List WorkspaceManifest → World H → Prop}
    {E : Error → World H → Prop}
    (hok : ∀ ms w', w.SameRefs w' → w'.repo = w.repo →
      (∀ m ∈ ms, w.repo.refs.workspaces.lookup m.id = some ⟨m, rfl⟩) → Q ms w')
    (herr : ∀ e w', w.SameRefs w' → w'.repo = w.repo → w.env.Fault e → E e w') :
    Post listWorkspaces w Q E := by
  refine readStep_spec .refRead (fun r => (FiniteMap.sortedKeys r.refs.workspaces).filterMap
    fun id => (r.refs.workspaces.lookup id).map (·.1)) (by simp [FsStep.Mutates])
    (fun w' hs hr => hok _ w' hs hr fun m hm => ?_) herr
  obtain ⟨id, -, hid⟩ := List.mem_filterMap.mp hm
  obtain ⟨⟨m', rfl⟩, hm', rfl⟩ := Option.map_eq_some_iff.mp hid
  exact hm'

/-! ## The log -/

theorem openLog_spec {Q : Unit → World H → Prop} {E : Error → World H → Prop}
    (hok : ∀ w', w.SameRefs w' → w'.repo = w.repo →
      Q () { w' with log := ⟨computeNextId w.repo.oplog⟩ })
    (herr : ∀ e w', w.SameRefs w' → w'.repo = w.repo → w.env.Fault e → E e w') :
    Post openLog w Q E := by
  rw [openLog, post_bind]
  refine step_spec (by simp [FsStep.Mutates]) (fun w₁ hs hr => ?_) herr
  rw [post_modify]
  have h := hok w₁ hs hr
  rwa [← hr] at h

/-- Appending a record: it is written with the handle's next id, and the handle counts on; or
the write fails and the file is as before; or the sync fails and the record is in the file. -/
theorem post_appendOp {op : OpInProgress H} {Q : Op H → World H → Prop}
    {E : Error → World H → Prop} :
    Post (appendOp op) w Q E ↔
      let finalized : Op H :=
        ⟨w.log.nextId, w.env.now w.clock, op.actor, op.kind, op.before, op.after⟩
      let w₁ := { w with clock := w.clock + 1 }
      let w₂ := (w₁.tick .logWrite).setOplog (w.repo.oplog ++ [finalized])
      (w.env.failure .logWrite (w.ticks .logWrite) = none →
        (w.env.failure .logSync (w.ticks .logSync) = none →
          Q finalized { w₂.tick .logSync with log := ⟨w.log.nextId + 1⟩ }) ∧
        ∀ e, w.env.failure .logSync (w.ticks .logSync) = some e → E e (w₂.tick .logSync)) ∧
      ∀ e, w.env.failure .logWrite (w.ticks .logWrite) = some e → E e (w₁.tick .logWrite) := by
  simp only [appendOp, post_bind, post_get, post_step, post_modify, post_pure]
  rfl

/-- Appending the record of an operation whose entries have been written. -/
theorem appendOp_spec [LinearOrder H] [Format H] {w₀ : World H} {es : List (RefSnapshot H)}
    {op : OpInProgress H} {log : FileLog} (hw : w₀.Wrote w es log)
    {Q : Op H → World H → Prop} {E : Error → World H → Prop}
    (hok : ∀ ts w', w₀.Committed w' es ⟨log.nextId, ts, op.actor, op.kind, op.before, op.after⟩ →
      w'.repo.objects = w₀.repo.objects → w.ids ≤ w'.ids →
      Q ⟨log.nextId, ts, op.actor, op.kind, op.before, op.after⟩ w')
    (herr : ∀ e w', w₀.Failed w' es e → E e w') :
    Post (appendOp op) w Q E := by
  rw [post_appendOp]
  have hlw : w.env.failure .logWrite (w.ticks .logWrite) =
      w₀.env.failure .logWrite (w₀.ticks .logWrite) := by rw [hw.env, hw.logWrites]
  have hls : w.env.failure .logSync (w.ticks .logSync) =
      w₀.env.failure .logSync (w₀.ticks .logSync) := by rw [hw.env, hw.logSyncs]
  rw [hlw, hls, hw.log]
  refine ⟨fun hwrite => ⟨fun hsync => hok _ _ ?_ hw.objects le_rfl, fun e he => ?_⟩, fun e he => ?_⟩
  · exact
      { refs := hw.refs
        oplog := congrArg (· ++ [_]) hw.oplog
        log := rfl
        env := hw.env
        ids := hw.ids
        le := by rw [← hw.objects]; exact .refl _
        intact := by rw [← hw.objects]; exact id
        refWrite := hw.faultless
        logWrite := hwrite
        logSync := hsync }
  · exact herr _ _ (.logSync he _ hw.refs (congrArg (· ++ [_]) hw.oplog))
  · exact herr _ _ (.logWrite he hw.refs hw.oplog)

end Post

end Tig
