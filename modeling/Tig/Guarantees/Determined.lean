import Tig.Fs.Reading
import Tig.Guarantees.HiddenChanges
import Tig.System.Served

set_option relaxedAutoImplicit false
set_option autoImplicit false

/-!
# What a caller reads is determined by the records that it sees

A change record holds hashes, and what is stored under a hash is determined by it. So two repositories
that show a caller the same records give it the same answers, whatever else there is in them and
however they came about. Where an object may be missing, the answers are the same as long as the
repositories have in common what the snapshots of visible changes lead to.

## Main definitions

* `Tig.ReadRequest` — the requests that read changes and snapshots.
* `Tig.Refs.SeenAlike` — the caller sees the same changes, with the same records.
* `Tig.World.Alike` — besides, the states have in common what the snapshots of these lead to.

## Main results

* `Tig.readRequest_local` — what is not reached from a visible snapshot does not matter.
* `Tig.readRequest_determined` — **the records that a caller sees determine what it reads**.
-/

namespace Tig

open Program

variable {H : Type} [LinearOrder H] [Format H]

/-! ## Requests -/

/-- A request that reads changes and snapshots. -/
inductive ReadRequest where
  | listChanges
  | getChange (id : String)
  | getTreeRoot (id : String)
  | getTreePath (id path : String)
  | diffChange (id : String) (q : DiffQuery)
  | blamePath (id path : String) (q : BlameQuery)
  | grepChange (id : String) (q : GrepQuery)
  | getSnapshot (hash : String)

/-- The answer to such a request. -/
inductive ReadAnswer where
  | changes (views : List ChangeView)
  | change (view : ChangeView)
  | tree (view : TreeView)
  | path (view : Handlers.TreePathView)
  | diff (view : DiffView)
  | blame (view : BlameView)
  | grep (view : GrepView)
  | snapshot (view : SnapshotView)

/-- Handle a request. -/
def ReadRequest.respond (srv : Server) (rd : Reader) (headers : HeaderMap) :
    ReadRequest → ApiM H ReadAnswer
  | listChanges => ReadAnswer.changes <$> Handlers.listChanges srv headers
  | getChange id => ReadAnswer.change <$> Handlers.getChange srv id headers
  | getTreeRoot id => ReadAnswer.tree <$> Handlers.getTreeRoot srv id headers
  | getTreePath id path => ReadAnswer.path <$> Handlers.getTreePath srv id path headers
  | diffChange id q => ReadAnswer.diff <$> Handlers.diffChange srv rd id q headers
  | blamePath id path q => ReadAnswer.blame <$> Handlers.blamePath srv rd id path q headers
  | grepChange id q => ReadAnswer.grep <$> Handlers.grepChange srv rd id q headers
  | getSnapshot hash => ReadAnswer.snapshot <$> Handlers.getSnapshot srv hash headers

/-- The snapshots that the request compares, where it names any, are visible to the caller. -/
def ReadRequest.NamesVisible (r : Refs H) (caller : PrincipalId) : ReadRequest → Prop
  | diffChange _ q => ∀ x : H, HashRequest.ArgumentIs x q.fromSnap ∨ HashRequest.ArgumentIs x q.toSnap →
      r.SeesSnapshot caller x
  | _ => True

/-! ## States that are alike to a caller -/

/-- The caller sees the same changes, with the same records. -/
def Refs.SeenAlike (caller : PrincipalId) (r r' : Refs H) : Prop :=
  ∀ id (c : ChangeAt H id), canSee c.1.visibility c.1.author (some caller) = true →
    (r.changes.lookup id = some c ↔ r'.changes.lookup id = some c)

/-- The snapshots of the changes that the caller may see are in the set. -/
def Refs.VisibleIn (caller : PrincipalId) (R : H → Prop) (r : Refs H) : Prop :=
  ∀ id c, r.changes.lookup id = some c → canSee c.1.visibility c.1.author (some caller) = true →
    ∀ h ∈ c.1.snapshots, R h

/-- No step fails in either state, the caller sees the same records, and the states have in common a set
of objects that has the snapshots of these and what it leads to. -/
structure World.Alike (caller : PrincipalId) (R : H → Prop) (u v : World H) : Prop where
  reliable : u.env.Reliable
  reliable' : v.env.Reliable
  intact : u.repo.objects.Intact
  intact' : v.repo.objects.Intact
  seen : u.repo.refs.SeenAlike caller v.repo.refs
  visible : u.repo.refs.VisibleIn caller R
  objects : AgreeOn R u.repo.objects v.repo.objects

namespace Refs.SeenAlike

omit [LinearOrder H] [Format H]

variable {caller : PrincipalId} {r r' : Refs H}

theorem symm (h : r.SeenAlike caller r') : r'.SeenAlike caller r := fun id c hsee => (h id c hsee).symm

/-- The snapshots that are visible are the same. -/
theorem seesSnapshot_iff (h : r.SeenAlike caller r') (x : H) :
    r.SeesSnapshot caller x ↔ r'.SeesSnapshot caller x := by
  constructor
  · rintro ⟨id, c, hc, hsee, hx⟩
    exact ⟨id, c, (h id c hsee).mp hc, hsee, hx⟩
  · rintro ⟨id, c, hc, hsee, hx⟩
    exact ⟨id, c, (h id c hsee).mpr hc, hsee, hx⟩

/-- The changes that are visible are the same. -/
theorem sees_iff (h : r.SeenAlike caller r') (id : ChangeId) :
    r.Sees caller id ↔ r'.Sees caller id := by
  constructor
  · rintro ⟨c, hc, hsee⟩
    exact ⟨c, (h id c hsee).mp hc, hsee⟩
  · rintro ⟨c, hc, hsee⟩
    exact ⟨c, (h id c hsee).mpr hc, hsee⟩

end Refs.SeenAlike

variable {caller : PrincipalId} {R : H → Prop} {u v : World H}

namespace World.Alike

/-- States over the same repositories, in which no step fails either. -/
theorem congr (h : u.Alike caller R v) {u' v' : World H} (hu : u'.Over u.repo)
    (hv : v'.Over v.repo) : u'.Alike caller R v' where
  reliable := hu.reliable
  reliable' := hv.reliable
  intact := hu.repo ▸ h.intact
  intact' := hv.repo ▸ h.intact'
  seen := hu.repo ▸ hv.repo ▸ h.seen
  visible := hu.repo ▸ h.visible
  objects := hu.repo ▸ hv.repo ▸ h.objects

theorem toOver (h : u.Alike caller R v) : u.Over u.repo := ⟨rfl, h.reliable⟩

theorem toOver' (h : u.Alike caller R v) : v.Over v.repo := ⟨rfl, h.reliable'⟩

end World.Alike

/-! ## What the engine does in states that are alike -/

section Engine

variable {α : Type}

/-- The same step, which fails in neither state. -/
theorem alike_step (h : u.Alike caller R v) (k : FsStep) :
    Agree (World.Alike caller R) Eq (step k) (step k) u v := by
  have hover : ∀ {w : World H}, w.env.Reliable →
      Post (step k) w (fun _ w' => w'.Over w.repo) (fun _ _ => False) := by
    intro w hrel
    refine post_step.mpr ⟨fun _ => ⟨rfl, hrel⟩, fun e he => ?_⟩
    rw [hrel.failure] at he
    cases he
  exact agree_of_post (hover h.reliable) (hover h.reliable') fun _ _ _ _ hu hv =>
    ⟨rfl, h.congr hu hv⟩

/-- A read of the objects that depends on the common ones only. -/
theorem alike_readStore (h : u.Alike caller R v) {f : ObjectStore H → Except Error α} {P : α → Prop}
    (hf : ∀ s s', AgreeOn R s s' → f s = f s')
    (hP : ∀ s s', AgreeOn R s s' → ∀ a, f s = .ok a → P a) :
    Agree (World.Alike caller R) (fun a b => a = b ∧ P a) (engine (readStore f))
      (engine (readStore f)) u v := by
  refine agree_adaptExcept _ (agree_bind (alike_step h .objectRead) ?_)
  intro _ u₁ _ v₁ _ _ _ h₁
  refine agree_bind (agree_get h₁) ?_
  intro u₂ _ v₂ _ hu hv h₂ h₃
  rw [← hf _ _ h₂.objects]
  cases hr : f u₂.repo.objects with
  | ok a => exact agree_pure h₃ ⟨rfl, hP _ _ h₂.objects a hr⟩
  | error e => exact agree_throw e h₃

/-- Reading a snapshot that the states have in common: they have its tree and its parents in common. -/
theorem alike_loadSnapshot (h : u.Alike caller R v) {x : H} (hx : R x) :
    Agree (World.Alike caller R)
      (fun (a b : Snapshot H) => a = b ∧ R a.tree ∧ ∀ p ∈ a.parents, R p)
      (engine (loadObject x)) (engine (loadObject x)) u v :=
  alike_readStore h (f := fun s => s.load x) (fun _ _ hs => hs.load hx)
    fun _ _ hs _ hload => hs.of_snapshot hx hload

/-- Reading another object that the states have in common. -/
theorem alike_loadObject {β : Type} [Encodable H β] (h : u.Alike caller R v) {x : H} (hx : R x) :
    Agree (World.Alike caller R) (fun (a b : β) => a = b ∧ True) (engine (loadObject x))
      (engine (loadObject x)) u v :=
  alike_readStore h (f := fun s => s.load x) (P := fun _ => True) (fun _ _ hs => hs.load hx)
    fun _ _ _ _ _ => trivial

/-- The gate: a change that the caller may see has the same record, and its snapshots are common. -/
theorem alike_loadVisibleChange (h : u.Alike caller R v) (id : ChangeId) :
    Agree (World.Alike caller R) (fun c c' => c = c' ∧ ∀ x ∈ c.1.snapshots, R x)
      (loadVisibleChange id caller) (loadVisibleChange id caller) u v := by
  by_cases hsees : u.repo.refs.Sees caller id
  · refine agree_of_post (loadVisibleChange_spec h.toOver hsees)
      (loadVisibleChange_spec h.toOver' ((h.seen.sees_iff id).mp hsees)) ?_
    intro c u' c' v' hu hv
    obtain ⟨hu', hc, hsee⟩ := hu
    obtain ⟨hv', hc', -⟩ := hv
    obtain rfl := Option.some.inj (((h.seen id c hsee).mp hc).symm.trans hc')
    exact ⟨⟨rfl, h.visible id c hc hsee⟩, h.congr hu' hv'⟩
  · have hsees' : ¬ v.repo.refs.Sees caller id := fun hv => hsees ((h.seen.sees_iff id).mpr hv)
    unfold Agree
    rw [loadVisibleChange_hidden hsees, loadVisibleChange_hidden hsees']
    exact ⟨rfl, h.congr ⟨rfl, h.reliable⟩ ⟨rfl, h.reliable'⟩⟩

/-- The visible snapshots are the same ones, and are common. -/
theorem alike_visibleSnapshotSet (h : u.Alike caller R v) :
    Agree (World.Alike caller R) (fun a b => (∀ x, x ∈ a ↔ x ∈ b) ∧ ∀ x ∈ a, R x)
      (visibleSnapshotSet caller) (visibleSnapshotSet caller) u v := by
  refine agree_of_post (visibleSnapshotSet_spec h.toOver) (visibleSnapshotSet_spec h.toOver') ?_
  intro a u' b v' ha hb
  obtain ⟨hu, ha⟩ := ha
  obtain ⟨hv, hb⟩ := hb
  refine ⟨⟨fun x => ?_, fun x hx => ?_⟩, h.congr hu hv⟩
  · rw [ha, hb]
    exact h.seen.seesSnapshot_iff x
  · obtain ⟨id, c, hc, hsee, hx⟩ := (ha x).mp hx
    exact h.visible id c hc hsee x (List.mem_cons_of_mem _ hx)

end Engine

/-! ## Programs that end alike -/

section Rules

variable {α β : Type}

/-- The program ends alike in both states. -/
def EndsAlike (x : ApiM H α) (u v : World H) : Prop := Agree (fun _ _ => True) Eq x x u v

omit [LinearOrder H] [Format H]

theorem EndsAlike.pure (a : α) : EndsAlike (Pure.pure a : ApiM H α) u v := agree_pure trivial rfl

theorem EndsAlike.throw (e : ApiError) : EndsAlike (MonadExcept.throw e : ApiM H α) u v :=
  agree_throw e trivial

theorem EndsAlike.fromExcept {q : Except ApiError β} {f : β → ApiM H α}
    (hf : ∀ a, q = .ok a → EndsAlike (f a) u v) : EndsAlike (Program.fromExcept q >>= f) u v := by
  cases q with
  | ok a => exact hf a rfl
  | error e => exact ⟨rfl, trivial⟩

theorem EndsAlike.map {x : ApiM H β} (hx : EndsAlike x u v) (f : β → α) : EndsAlike (f <$> x) u v := by
  rw [map_eq_pure_bind]
  refine agree_bind hx ?_
  rintro a u' _ v' - - rfl -
  exact EndsAlike.pure (f a)

end Rules

section Rules

variable {α β : Type}

/-- **Sequencing.** The first program returns the same value, of which `P` holds, in states that are
alike. -/
theorem EndsAlike.bind {P : β → Prop} {x : ApiM H β} {f : β → ApiM H α}
    (hx : Agree (World.Alike caller R) (fun a b => a = b ∧ P a) x x u v)
    (hf : ∀ a u' v', P a → u'.Alike caller R v' → EndsAlike (f a) u' v') : EndsAlike (x >>= f) u v := by
  refine agree_bind_of hx (fun _ _ _ => trivial) ?_
  rintro a u' _ v' ⟨rfl, ha⟩ h
  exact hf a u' v' ha h

variable {srv : Server} {headers : HeaderMap} {u₁ v₁ : World H}

/-- A handler that resolves the caller, who is the same in both states. -/
theorem EndsAlike.knownCaller (hu : callerFrom srv headers u = .ok caller u₁)
    (hv : callerFrom srv headers v = .ok caller v₁) {f : PrincipalId → ApiM H α}
    (h : u.Alike caller R v) (hf : ∀ u' v', u'.Alike caller R v' → EndsAlike (f caller) u' v') :
    EndsAlike (callerFrom srv headers >>= f) u v := by
  have hover : ∀ {w w₁ : World H}, w.env.Reliable → callerFrom srv headers w = .ok caller w₁ →
      w₁.Over w.repo := by
    intro w w₁ hrel hrun
    obtain ⟨hrepo, henv⟩ := (reads_callerFrom (H := H) w).ok hrun
    exact ⟨hrepo, henv ▸ hrel⟩
  have hcaller : Agree (World.Alike caller R) (fun c c' => c = c' ∧ c = caller) (callerFrom srv headers)
      (callerFrom srv headers) u v := by
    unfold Agree
    rw [hu, hv]
    exact ⟨⟨rfl, rfl⟩, h.congr (hover h.reliable hu) (hover h.reliable' hv)⟩
  refine .bind hcaller fun c u' v' hc h' => ?_
  subst hc
  exact hf u' v' h'

/-- A handler that parses an argument and resolves the caller first. -/
theorem EndsAlike.resolved (hu : callerFrom srv headers u = .ok caller u₁)
    (hv : callerFrom srv headers v = .ok caller v₁) {arg : Except ApiError β}
    {f : β → PrincipalId → ApiM H α} (h : u.Alike caller R v)
    (hf : ∀ a u' v', u'.Alike caller R v' → EndsAlike (f a caller) u' v') :
    EndsAlike (do
      let a ← Program.fromExcept arg
      let caller ← callerFrom srv headers
      f a caller) u v :=
  .fromExcept fun a _ => .knownCaller hu hv h (hf a)

end Rules

/-! ## The handlers -/

namespace Handlers

variable {α : Type} {rd : Reader}

theorem alike_getTreeRoot (h : u.Alike caller R v) (id : ChangeId) :
    EndsAlike (do
      let change ← loadVisibleChange id caller
      let snap : Snapshot H ← engine (loadObject change.1.current)
      let tree : Tree H ← engine (loadObject snap.tree)
      return TreeView.fromCore (some snap.tree) tree) u v := by
  refine .bind (alike_loadVisibleChange h id) fun change u₁ v₁ hchange h₁ => ?_
  refine .bind (alike_loadSnapshot h₁ (hchange _ List.mem_cons_self)) fun snap u₂ v₂ hsnap h₂ => ?_
  exact .bind (alike_loadObject h₂ hsnap.1) fun tree _ _ _ _ => .pure _

/-- The entry is one of a tree that is common. -/
def CommonEntry (R : H → Prop) (entry : TreeEntry H) : Prop :=
  entry.kind.isFollowed = true → R entry.target

/-- Looking an entry up. -/
theorem alike_lookupEntry (h : u.Alike caller R v) {tree : H} (ht : R tree) (parts : List String) :
    Agree (World.Alike caller R) (fun a b => a = b ∧ CommonEntry R a)
      (engine (readStore fun s => lookupEntry s tree parts))
      (engine (readStore fun s => lookupEntry s tree parts)) u v := by
  refine alike_readStore h (fun _ _ hs => lookupEntry_congr hs.sameTrees ht parts)
    fun s s' hs entry hlookup hk => ?_
  obtain ⟨d, hd, t, hload, hmem⟩ := entry_of_lookupBelow hs.sameTrees ht hlookup
  exact hs.of_entry hd hload hmem hk

theorem alike_showEntry (h : u.Alike caller R v) {tree : H} (ht : R tree) (path : String)
    {entry : TreeEntry H} (he : CommonEntry R entry) : EndsAlike (showEntry tree path entry) u v := by
  have hfile := alike_readStore h (P := fun _ => True)
    (fun _ _ hs => readBlobAtPath_congr hs.sameTrees ht path) fun _ _ _ _ _ => trivial
  have hlist := alike_readStore h (P := fun _ => True)
    (fun _ _ hs => listTree_congr hs.sameTrees ht path) fun _ _ _ _ _ => trivial
  rw [showEntry]
  cases hk : entry.kind with
  | file => exact .bind hfile fun bytes _ _ _ _ => .pure _
  | tree => exact .bind hlist fun t _ _ _ _ => .pure _
  | «sealed» =>
    exact .bind (alike_loadObject h (he (by rw [hk]; rfl))) fun payload _ _ _ _ => .pure _
  | symlink | conflict | submodule => exact .throw _

theorem alike_getTreePath (h : u.Alike caller R v) (id : ChangeId) (path : String) :
    EndsAlike (do
      let change ← loadVisibleChange id caller
      let snap : Snapshot H ← engine (loadObject change.1.current)
      let parts ← fromExcept (pathParts path)
      let entry ← engine (readStore fun s => lookupEntry s snap.tree parts)
      showEntry snap.tree path entry) u v := by
  refine .bind (alike_loadVisibleChange h id) fun change u₁ v₁ hchange h₁ => ?_
  refine .bind (alike_loadSnapshot h₁ (hchange _ List.mem_cons_self)) fun snap u₂ v₂ hsnap h₂ => ?_
  refine .fromExcept fun parts _ => ?_
  exact .bind (alike_lookupEntry h₂ hsnap.1 parts) fun entry u₃ v₃ he h₃ =>
    alike_showEntry h₃ hsnap.1 path he

/-- The snapshot that a request is about is common, when it is visible. -/
theorem alike_visibleSnapshot (h : u.Alike caller R v) (id : ChangeId) (arg : Option String) :
    Agree (World.Alike caller R) (fun a b => a = b ∧ R a) (visibleSnapshot id arg caller)
      (visibleSnapshot id arg caller) u v := by
  refine agree_bind (alike_loadVisibleChange h id) ?_
  rintro change u₁ _ v₁ - - ⟨rfl, -⟩ h₁
  refine agree_bind (agree_fromExcept _ h₁) ?_
  rintro atHash u₂ _ v₂ - - rfl h₂
  refine agree_bind (alike_visibleSnapshotSet h₂) ?_
  rintro visible u₃ visible' v₃ - - ⟨hsame, hR⟩ h₃
  by_cases hin : atHash ∈ visible
  · rw [if_pos hin, if_pos ((hsame _).mp hin)]
    exact agree_pure h₃ ⟨rfl, hR _ hin⟩
  · rw [if_neg hin, if_neg fun hin' => hin ((hsame _).mpr hin')]
    exact agree_throw _ h₃

theorem alike_blamePath (h : u.Alike caller R v) (id path : String) (q : BlameQuery) :
    EndsAlike (do
      let atHash ← visibleSnapshot id q.snap caller
      let blamed ← engine (readStore fun s => blameAt rd.lib s path rd.stackDepth atHash)
      return (⟨path, HashFn.toHex atHash, blamed.map BlameLineView.fromCore⟩ : BlameView)) u v := by
  refine .bind (alike_visibleSnapshot h id q.snap) fun atHash u₁ v₁ hat h₁ => ?_
  have hblame := alike_readStore h₁ (P := fun _ => True)
    (fun _ _ hs => blameAt_congr rd.lib hs path rd.stackDepth hat) fun _ _ _ _ _ => trivial
  exact .bind hblame fun blamed _ _ _ _ => .pure _

theorem alike_grepChange (h : u.Alike caller R v) (id : String) (q : GrepQuery)
    (opts : GrepOptions) :
    EndsAlike (do
      let atHash ← visibleSnapshot id q.snap caller
      let snap : Snapshot H ← engine (loadObject atHash)
      let results ← engine (readStore fun s => grepTree rd.lib s opts rd.stackDepth snap.tree q.q)
      return (⟨HashFn.toHex atHash, results⟩ : GrepView)) u v := by
  refine .bind (alike_visibleSnapshot h id q.snap) fun atHash u₁ v₁ hat h₁ => ?_
  refine .bind (alike_loadSnapshot h₁ hat) fun snap u₂ v₂ hsnap h₂ => ?_
  have hgrep := alike_readStore h₂ (P := fun _ => True)
    (fun _ _ hs => grepTree_congr rd.lib opts hs.sameTrees rd.stackDepth hsnap.1 q.q)
    fun _ _ _ _ _ => trivial
  exact .bind hgrep fun results _ _ _ _ => .pure _

theorem alike_getSnapshot (h : u.Alike caller R v) (x : H) (hash : String) :
    EndsAlike (do
      let visible ← visibleSnapshotSet caller
      if x ∈ visible then
        let raw ← engine (readStore fun s => s.get x)
        if raw.kind = .snapshot then
          let snap : Snapshot H ← fromExcept ((decode H raw).mapError ApiError.ofCore)
          return SnapshotView.fromCore x snap
        else
          throw (.badRequest ("object " ++ hash ++ " is a " ++ raw.kind.name ++ ", not a snapshot"))
      else
        throw (.notFound ("snapshot " ++ hash))) u v := by
  refine agree_bind_of (alike_visibleSnapshotSet h) (fun _ _ _ => trivial) ?_
  rintro visible u₁ visible' v₁ ⟨hsame, hR⟩ h₁
  by_cases hin : x ∈ visible
  · rw [if_pos hin, if_pos ((hsame _).mp hin)]
    have hget := alike_readStore h₁ (P := fun _ => True)
      (fun s s' hs => show s.get x = s'.get x by
        rw [ObjectStore.get, ObjectStore.get, hs.same x (hR x hin)]) fun _ _ _ _ _ => trivial
    refine EndsAlike.bind hget fun raw u₂ v₂ _ h₂ => ?_
    by_cases hkind : raw.kind = .snapshot
    · rw [if_pos hkind]
      exact .fromExcept fun snap _ => .pure _
    · rw [if_neg hkind]
      exact .throw _
  · rw [if_neg hin, if_neg fun hin' => hin ((hsame _).mpr hin')]
    exact agree_throw _ trivial

/-- The view of a change, if the caller may see it. -/
def shown (r : Refs H) (caller : PrincipalId) (id : ChangeId) : Option ChangeView :=
  (r.changes.lookup id).bind fun c =>
    if canSee c.1.visibility c.1.author (some caller) then some (ChangeView.fromCore c.1) else none

omit [LinearOrder H] in
/-- Listing gives the views of the changes that the caller may see. -/
theorem visibleChanges_spec {w : World H} {repo : Repo H} (hw : w.Over repo) (ids : List ChangeId)
    (hids : ∀ id ∈ ids, id ∈ repo.refs.changes) :
    Post (visibleChanges caller ids) w
      (fun views w' => w'.Over repo ∧ views = ids.filterMap (shown repo.refs caller))
      (fun _ _ => False) := by
  induction ids generalizing w with
  | nil => exact ⟨hw, rfl⟩
  | cons id ids ih =>
    obtain ⟨hid, hids⟩ := List.forall_mem_cons.mp hids
    rw [visibleChanges, post_bind, engine, post_adaptExcept]
    refine getChange_spec (fun c w₁ hs hr hc => ?_) (fun e w₁ hs hr he => ?_)
    · rw [hw.repo] at hc
      rw [post_bind]
      refine (ih (hw.read hs hr) hids).mono (fun rest w₂ h₂ => ?_) (fun _ _ h => h)
      obtain ⟨hw₂, rfl⟩ := h₂
      rw [post_ite, List.filterMap_cons, shown, hc]
      refine ⟨fun hsee => ⟨hw₂, ?_⟩, fun hno => ⟨hw₂, ?_⟩⟩
      · simp only [Option.bind_some, if_pos hsee]
      · simp only [Option.bind_some, if_neg hno]
    · rcases he with hf | ⟨hnone, -⟩
      · exact hw.reliable.not_fault e hf
      · rw [hw.repo] at hnone
        exact Finmap.lookup_eq_none.mp hnone hid

omit [LinearOrder H] in
/-- The views that are listed depend on the visible records only. -/
theorem shown_eq {r r' : Refs H} (h : r.SeenAlike caller r') :
    (FiniteMap.sortedKeys r.changes).filterMap (shown r caller) =
      (FiniteMap.sortedKeys r'.changes).filterMap (shown r' caller) := by
  have hshown : ∀ {r r' : Refs H}, r.SeenAlike caller r' → ∀ id view,
      shown r caller id = some view → shown r' caller id = some view := by
    intro r r' h id view hview
    obtain ⟨c, hc, hsee⟩ := Option.bind_eq_some_iff.mp hview
    split_ifs at hsee with hvis
    rw [shown, (h id c hvis).mp hc, Option.bind_some, if_pos hvis, hsee]
  have heq : shown r caller = shown r' caller := by
    funext id
    refine Option.ext fun view => ⟨hshown h id view, hshown h.symm id view⟩
  rw [← heq]
  refine FiniteMap.filterMap_eq_of_pairwise (FiniteMap.pairwise_sortedKeys _)
    (FiniteMap.pairwise_sortedKeys _) fun id hid => ?_
  obtain ⟨view, hview⟩ := Option.isSome_iff_exists.mp hid
  obtain ⟨c, hc, -⟩ := Option.bind_eq_some_iff.mp hview
  obtain ⟨c', hc', -⟩ := Option.bind_eq_some_iff.mp (heq ▸ hview)
  rw [FiniteMap.mem_sortedKeys, FiniteMap.mem_sortedKeys]
  exact ⟨fun _ => Finmap.mem_of_lookup_eq_some hc', fun _ => Finmap.mem_of_lookup_eq_some hc⟩

theorem alike_listChanges (h : u.Alike caller R v) :
    EndsAlike (do
      let ids ← engine Tig.listChanges
      visibleChanges caller ids) u v := by
  have hlist : ∀ {w : World H}, w.Over w.repo → Post (do
      let ids ← engine Tig.listChanges
      visibleChanges caller ids) w
      (fun views _ => views = (FiniteMap.sortedKeys w.repo.refs.changes).filterMap
        (shown w.repo.refs caller)) (fun _ _ => False) := by
    intro w hw
    rw [post_bind, engine, post_adaptExcept]
    refine listChanges_spec (fun w₁ hs hr => ?_) (fun e _ _ _ hf => hw.reliable.not_fault e hf)
    exact (visibleChanges_spec (hw.read hs hr) _ fun id hid => FiniteMap.mem_sortedKeys.mp hid).mono
      (fun _ _ h => h.2) (fun _ _ h => h)
  refine agree_of_post (hlist h.toOver) (hlist h.toOver') ?_
  rintro views _ views' _ rfl rfl
  exact ⟨shown_eq h.seen, trivial⟩

section Diff

variable [LawfulFormat H]

/-- Storing the empty tree makes it common. -/
theorem alike_storeEmpty (h : u.Alike caller R v) :
    Agree (World.Alike caller fun x => R x ∨ x = (encode H (Tree.new : Tree H)).hash H)
      (fun a b => a = b ∧ a = (encode H (Tree.new : Tree H)).hash H)
      (engine (storeObject (Tree.new : Tree H))) (engine (storeObject (Tree.new : Tree H))) u v := by
  have hstored : ∀ {w : World H}, w.env.Reliable → Post (storeObject (Tree.new : Tree H)) w
      (fun a w' => a = (encode H (Tree.new : Tree H)).hash H ∧ w'.env.Reliable ∧
        w'.repo.refs = w.repo.refs ∧
        w'.repo.objects = w.repo.objects.put (encode H (Tree.new : Tree H)))
      (fun _ _ => False) := fun hrel =>
    storeObject_spec (fun w' hq hput => ⟨rfl, hq.env ▸ hrel, hq.refs, hput⟩)
      (fun e _ _ _ hf => hrel.not_fault e hf)
  refine agree_adaptExcept _ (agree_of_post (hstored h.reliable) (hstored h.reliable') ?_)
  rintro a u' b v' ⟨rfl, hu, hurefs, huput⟩ ⟨rfl, hv, hvrefs, hvput⟩
  refine ⟨⟨rfl, rfl⟩, hu, hv, ?_, ?_, ?_, ?_, ?_⟩
  · exact huput ▸ h.intact.put _
  · exact hvput ▸ h.intact'.put _
  · exact hurefs ▸ hvrefs ▸ h.seen
  · rw [hurefs]
    exact fun id c hc hsee x hx => .inl (h.visible id c hc hsee x hx)
  · rw [huput, hvput]
    refine h.objects.put h.intact h.intact' _ fun b hedge => ?_
    -- the empty tree refers to nothing
    obtain ⟨next, hnext, hb⟩ := edge_iff.mp hedge
    have hload := ObjectStore.load_put LawfulFormat.tree h.intact (Tree.new : Tree H)
    obtain rfl := Except.ok.inj ((referents_of_tree hload).symm.trans hnext)
    cases hb

/-- The tree that is compared with is common, among more objects if it is new. -/
theorem alike_diffFromTree (h : u.Alike caller R v) {fromSnap : Option String}
    {toSnap : Snapshot H} (hfrom : ∀ x : H, HashRequest.ArgumentIs x fromSnap → R x)
    (hparents : ∀ p ∈ toSnap.parents, R p) {k : H → ApiM H α}
    (hk : ∀ (R' : H → Prop) a u' v', (∀ x, R x → R' x) → R' a → u'.Alike caller R' v' →
      EndsAlike (k a) u' v') : EndsAlike (diffFromTree fromSnap toSnap >>= k) u v := by
  have hsnap : ∀ {x : H} {u₁ v₁ : World H}, u₁.Alike caller R v₁ → R x →
      EndsAlike ((do
        let snap : Snapshot H ← engine (loadObject x)
        return snap.tree) >>= k) u₁ v₁ := by
    intro x u₁ v₁ h₁ hx
    rw [bind_assoc]
    refine .bind (alike_loadSnapshot h₁ hx) fun snap u₂ v₂ hs h₂ => ?_
    rw [pure_bind]
    exact hk R _ u₂ v₂ (fun _ h => h) hs.1 h₂
  unfold diffFromTree
  cases fromSnap with
  | some s =>
    dsimp only
    rw [bind_assoc]
    exact .fromExcept fun x hx => hsnap h (hfrom x ⟨s, rfl, hx⟩)
  | none =>
    cases hp : toSnap.parents with
    | cons p ps => exact hsnap h (hparents p (hp ▸ List.mem_cons_self))
    | nil =>
      exact .bind (alike_storeEmpty h) fun a u₁ v₁ ha h₁ =>
        hk _ a u₁ v₁ (fun _ => .inl) (.inr ha) h₁

theorem alike_diffSnapshots (h : u.Alike caller R v) (id : ChangeId) {q : DiffQuery} {current : H}
    (hnames : ∀ x : H, HashRequest.ArgumentIs x q.fromSnap ∨ HashRequest.ArgumentIs x q.toSnap → R x)
    (hcurrent : R current) : EndsAlike (diffSnapshots rd id caller q current) u v := by
  unfold diffSnapshots
  refine .fromExcept fun toHash hto => ?_
  have hR : R toHash := by
    cases hq : q.toSnap with
    | none =>
      rw [hq] at hto
      obtain rfl := Except.ok.inj hto
      exact hcurrent
    | some t =>
      rw [hq] at hto
      exact hnames toHash (.inr ⟨t, hq, hto⟩)
  refine .bind (alike_loadSnapshot h hR) fun toSnap u₁ v₁ hsnap h₁ => ?_
  refine alike_diffFromTree h₁ (fun x hx => hnames x (.inl hx)) hsnap.2
    fun R' fromTree u₂ v₂ hle hfrom h₂ => ?_
  refine agree_bind_of (alike_visibleSnapshotSet h₂) (fun _ _ _ => trivial) ?_
  rintro visible u₃ visible' v₃ ⟨hsame, -⟩ h₃
  have hfromVisible : fromSnapVisible q.fromSnap visible = fromSnapVisible q.fromSnap visible' := by
    unfold fromSnapVisible
    simp only [hsame]
  simp only [hfromVisible, hsame toHash]
  refine EndsAlike.fromExcept fun fromVisible _ => ?_
  by_cases hhidden : toHash ∉ visible' ∨ fromVisible = false
  · rw [if_pos hhidden]
    exact .throw _
  · rw [if_neg hhidden]
    have hdiff := alike_readStore h₃ (P := fun _ => True)
      (fun _ _ hs => diffTrees_congr rd.lib ⟨q.noHunks, q.paths, 3⟩ hs.sameTrees rd.stackDepth hfrom
        (hle _ hsnap.1)) fun _ _ _ _ _ => trivial
    exact .bind hdiff fun diffs _ _ _ _ => .pure _

end Diff

end Handlers

/-! ## The requests -/

section Main

variable [LawfulFormat H] {srv : Server} {rd : Reader} {headers : HeaderMap} {u₁ v₁ : World H}

/-- In states that are alike, a request ends alike. -/
theorem ReadRequest.endsAlike (h : u.Alike caller R v)
    (hu : callerFrom srv headers u = .ok caller u₁) (hv : callerFrom srv headers v = .ok caller v₁)
    (req : ReadRequest) (hnames : req.NamesVisible u.repo.refs caller) :
    EndsAlike (req.respond srv rd headers) u v := by
  cases req with
  | listChanges => exact (EndsAlike.knownCaller hu hv h fun _ _ h₂ => Handlers.alike_listChanges h₂).map _
  | getChange id =>
    refine (EndsAlike.resolved hu hv h fun id u₂ v₂ h₂ => ?_).map _
    exact .bind (alike_loadVisibleChange h₂ id) fun change _ _ _ _ => .pure _
  | getTreeRoot id =>
    exact (EndsAlike.resolved hu hv h fun id _ _ h₂ => Handlers.alike_getTreeRoot h₂ id).map _
  | getTreePath id path =>
    exact (EndsAlike.resolved hu hv h fun id _ _ h₂ => Handlers.alike_getTreePath h₂ id path).map _
  | diffChange id q =>
    refine (EndsAlike.resolved hu hv h fun id u₂ v₂ h₂ => ?_).map _
    refine .bind (alike_loadVisibleChange h₂ id) fun change u₃ v₃ hchange h₃ => ?_
    refine Handlers.alike_diffSnapshots h₃ id (fun x hx => ?_) (hchange _ List.mem_cons_self)
    obtain ⟨id', c, hc, hsee, hmem⟩ := hnames x hx
    exact h.visible id' c hc hsee x (List.mem_cons_of_mem _ hmem)
  | blamePath id path q =>
    exact (EndsAlike.resolved hu hv h fun id _ _ h₂ => Handlers.alike_blamePath h₂ id path q).map _
  | grepChange id q =>
    exact (EndsAlike.resolved hu hv h fun id _ _ h₂ => Handlers.alike_grepChange h₂ id q _).map _
  | getSnapshot hash =>
    exact (EndsAlike.resolved hu hv h fun x _ _ h₂ => Handlers.alike_getSnapshot h₂ x hash).map _

/-- The snapshot is in the record of a change that the caller may see. -/
def Refs.RecordsVisible (r : Refs H) (caller : PrincipalId) (h : H) : Prop :=
  ∃ id c, r.changes.lookup id = some c ∧ canSee c.1.visibility c.1.author (some caller) = true ∧
    h ∈ c.1.snapshots

omit [LawfulFormat H] in
/-- States that show the caller the same records and have in common what these lead to. -/
theorem World.Alike.of_reached (hrel : u.env.Reliable) (hrel' : v.env.Reliable)
    (hintact : u.repo.objects.Intact) (hintact' : v.repo.objects.Intact)
    (hseen : u.repo.refs.SeenAlike caller v.repo.refs)
    (hsame : ∀ s x, u.repo.refs.RecordsVisible caller s → GcReaches u.repo.objects s x →
      u.repo.objects.lookup x = v.repo.objects.lookup x) :
    u.Alike caller
      (fun x => ∃ s, u.repo.refs.RecordsVisible caller s ∧ GcReaches u.repo.objects s x) v where
  reliable := hrel
  reliable' := hrel'
  intact := hintact
  intact' := hintact'
  seen := hseen
  visible id c hc hsee x hx := ⟨x, ⟨id, c, hc, hsee, hx⟩, .refl⟩
  objects := .of_reaches fun s hs x hx => hsame s x hs hx

omit [LawfulFormat H] in
/-- The snapshots of the changes of a complete repository are there. -/
theorem World.Complete.holds {L : Prop} {w : World H} (h : w.Complete L) (hL : L) {s : H}
    (hs : w.repo.refs.RecordsVisible caller s) : s ∈ w.repo.objects := by
  obtain ⟨id, c, hc, -, hmem⟩ := hs
  exact (h.snapshots hL hc hmem).mem

/-- Complete repositories that show the caller the same records have in common what these lead to. -/
theorem World.Complete.same (h : u.Complete True) (h' : v.Complete True)
    (hseen : u.repo.refs.SeenAlike caller v.repo.refs) (s x : H)
    (hs : u.repo.refs.RecordsVisible caller s) (hreach : GcReaches u.repo.objects s x) :
    u.repo.objects.lookup x = v.repo.objects.lookup x := by
  have hvisible : ∀ s, u.repo.refs.RecordsVisible caller s →
      u.repo.objects.lookup s = v.repo.objects.lookup s := by
    intro s hs
    refine h.closed.intact.lookup_eq h'.closed.intact (h.holds trivial hs) ?_
    obtain ⟨id, c, hlookup, hsee, hmem⟩ := hs
    exact h'.holds trivial ⟨id, c, (hseen id c hsee).mp hlookup, hsee, hmem⟩
  exact (AgreeOn.of_closed h.closed h'.closed hvisible).same x ⟨s, hs, hreach⟩

omit [LawfulFormat H] in
/-- What a collection leaves is intact. -/
theorem World.Collected.intact {opts : GcOptions} {w w' : World H} (h : w.Collected opts w')
    (hi : w.repo.objects.Intact) : w'.repo.objects.Intact := by
  intro x bytes hbytes
  rcases h.sub x with hsame | hnone
  · exact hi x bytes (hsame ▸ hbytes)
  · rw [hnone] at hbytes
    cases hbytes

end Main

/-! ## A change that is not seen -/

namespace Shadow

/-- The repository of `ComparedHash`, after alice has created a private change in it. -/
def world : World PlainHash :=
  final (Handlers.createChange UnreadableToken.server PrivateChange.alice
    ⟨"secret", none, some "private", none⟩) ComparedHash.world

theorem served_before : Served True ComparedHash.world :=
  .operation (.start { World.fresh .calm with ids := 1 } rfl) rfl
    (.createChange UnreadableToken.server [] ⟨"first", none, none, none⟩) trivial

theorem served : Served True world :=
  .operation served_before rfl
    (.createChange UnreadableToken.server PrivateChange.alice ⟨"secret", none, some "private", none⟩)
    trivial

set_option maxRecDepth 1000000 in
theorem changes : ∃ (id : ChangeId) (c : ChangeAt PlainHash id),
    id ∉ ComparedHash.world.repo.refs.changes ∧
      canSee c.1.visibility c.1.author (some defaultActor) = false ∧
      world.repo.refs.changes = ComparedHash.world.repo.refs.changes.insert id c :=
  ⟨"aa", _, by decide +kernel, rfl, rfl⟩

/-- Its existence does not show to others. -/
theorem seenAlike : ComparedHash.world.repo.refs.SeenAlike defaultActor world.repo.refs := by
  obtain ⟨new, c', hnew, hhidden, hchanges⟩ := changes
  intro id c hsee
  rw [hchanges]
  by_cases hid : id = new
  · subst hid
    rw [Finmap.lookup_insert, Finmap.lookup_eq_none.mpr hnew]
    constructor
    · exact fun h => absurd h (by simp)
    · intro h
      obtain rfl := Option.some.inj h
      rw [hhidden] at hsee
      cases hsee
  · rw [Finmap.lookup_insert_of_ne _ hid]

/-- A comparison of the visible change with nothing. -/
def request : ReadRequest := .diffChange "a" ⟨none, none, false, []⟩

theorem namesVisible (r : Refs PlainHash) : request.NamesVisible r defaultActor := by
  rintro x (⟨s, hs, -⟩ | ⟨s, hs, -⟩)
  · cases hs
  · cases hs

end Shadow

/-! ## The answers -/

section Answers

variable [LawfulFormat H] {srv : Server} {rd : Reader} {headers : HeaderMap} {u₁ v₁ : World H}

/-- **What a request reads is reached from the visible snapshots**: two states that show the caller the
same records and have in common what these lead to, give the same answer. -/
theorem readRequest_local (hrel : u.env.Reliable) (hrel' : v.env.Reliable)
    (hintact : u.repo.objects.Intact) (hintact' : v.repo.objects.Intact)
    (hseen : u.repo.refs.SeenAlike caller v.repo.refs)
    (hsame : ∀ s x, u.repo.refs.RecordsVisible caller s → GcReaches u.repo.objects s x →
      u.repo.objects.lookup x = v.repo.objects.lookup x)
    (hu : callerFrom srv headers u = .ok caller u₁) (hv : callerFrom srv headers v = .ok caller v₁)
    (req : ReadRequest) (hnames : req.NamesVisible u.repo.refs caller) :
    outcome (req.respond srv rd headers) u = outcome (req.respond srv rd headers) v :=
  (req.endsAlike (.of_reached hrel hrel' hintact hintact' hseen hsame) hu hv hnames).outcome

open Shadow in
/-- The daemon's own actor lists the changes before and after alice has created one. -/
theorem readRequest_unreached :
    outcome (ReadRequest.listChanges.respond UnreadableToken.server ComparedHash.reader [])
        ComparedHash.world =
      outcome (ReadRequest.listChanges.respond UnreadableToken.server ComparedHash.reader []) world := by
  have hc := served_before.complete
  have hc' := served.complete
  exact readRequest_local Env.calm_reliable Env.calm_reliable hc.closed.intact hc'.closed.intact
    seenAlike (hc.same hc' seenAlike) rfl rfl .listChanges trivial

/-- **The records that a caller sees determine what it reads**, in all repositories that commands and
requests work on. -/
theorem readRequest_determined (hrun : Served True u) (hrun' : Served True v)
    (hrel : u.env.Reliable) (hrel' : v.env.Reliable)
    (hseen : u.repo.refs.SeenAlike caller v.repo.refs)
    (hu : callerFrom srv headers u = .ok caller u₁) (hv : callerFrom srv headers v = .ok caller v₁)
    (req : ReadRequest) (hnames : req.NamesVisible u.repo.refs caller) :
    outcome (req.respond srv rd headers) u = outcome (req.respond srv rd headers) v := by
  have hc := hrun.complete
  have hc' := hrun'.complete
  have halike := World.Alike.of_reached hrel hrel' hc.closed.intact hc'.closed.intact hseen
    (hc.same hc' hseen)
  exact (req.endsAlike halike hu hv hnames).outcome

open Shadow in
/-- It compares its change. -/
theorem readRequest_shadowed :
    outcome (request.respond UnreadableToken.server ComparedHash.reader []) ComparedHash.world =
      outcome (request.respond UnreadableToken.server ComparedHash.reader []) world :=
  readRequest_determined served_before served Env.calm_reliable Env.calm_reliable seenAlike rfl rfl
    request (namesVisible _)

/-- **A collection of garbage is invisible**: whatever its options, and even if it is cut short by a
failure, no request is answered differently after it. -/
theorem readRequest_collected {w : World H} (hintact : u.repo.objects.Intact)
    (hrel : u.env.Reliable) (hrel' : v.env.Reliable) (hw : w.repo = u.repo) (opts : GcOptions)
    (hafter : v.repo = (final (collectGarbage opts) w).repo)
    (hu : callerFrom srv headers u = .ok caller u₁) (hv : callerFrom srv headers v = .ok caller v₁)
    (req : ReadRequest) (hnames : req.NamesVisible u.repo.refs caller) :
    outcome (req.respond srv rd headers) u = outcome (req.respond srv rd headers) v := by
  have hcollected := (collectGarbage_collected opts (w := w)).final
  have hrefs : v.repo.refs = u.repo.refs := by rw [hafter, hcollected.refs, hw]
  refine (req.endsAlike (.of_reached hrel hrel' hintact ?_ ?_ ?_) hu hv hnames).outcome
  · rw [hafter]
    exact hcollected.intact (hw ▸ hintact)
  · rw [hrefs]
    exact fun id c _ => Iff.rfl
  · rintro s x ⟨id, c, hc, -, hmem⟩ hreach
    rw [hafter, hcollected.kept x ⟨s, .inl ⟨id, c, hw ▸ hc, hmem⟩, hw ▸ hreach⟩, hw]

open Shadow in
/-- It compares its change before and after everything is removed that no change leads to. -/
theorem readRequest_swept :
    outcome (request.respond UnreadableToken.server ComparedHash.reader []) world =
      outcome (request.respond UnreadableToken.server ComparedHash.reader [])
        (final (collectGarbage ⟨false, false⟩) world) :=
  readRequest_collected served.complete.closed.intact Env.calm_reliable
    ((collectGarbage_collected ⟨false, false⟩ (w := world)).final.env ▸ Env.calm_reliable) rfl _ rfl
    rfl rfl request (namesVisible _)

end Answers

end Tig
