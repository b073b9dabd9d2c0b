import Tig.Cli.Sealing
import Tig.Daemon.Handlers
import Tig.System.Worksites

set_option relaxedAutoImplicit false
set_option autoImplicit false

/-!
# Runs of several writers

Workspaces are snapshotted from their directories, and requests to the daemon and `tig seal` put
snapshots on top of changes without one. Each of them takes the write lock, so a run is a sequence
of whole operations, in any order; each may fail. What a snapshot makes of the entries that a change
has: one of a workspace replaces all of them by what the directory holds, and a direct one replaces
those at its path.

## Main definitions

* `Tig.Repo.entryOf` — what a change has at a path.
* `Tig.World.Spares`, `Tig.Spares` — entries that stay, and programs that spare them.
* `Tig.SharedAction`, `Tig.SharedRun` — the operations, and the runs.
* `Tig.SharedAction.Touches` — what an operation may take away.

## Main results

* `Tig.snapOn_entries` — what a change has after a snapshot of a workspace.
* `Tig.Handlers.editChange_spares`, `Tig.cmdSeal_spares` — direct snapshots leave other paths alone.
* `Tig.SharedAction.spares` — an operation takes nothing away but what it touches.
-/

namespace Tig

open Program

variable {H : Type} [LinearOrder H] [Format H]

/-! ## What changes have -/

/-- What a change has at a path: the entry in the tree of its current snapshot. -/
def Repo.entryOf (repo : Repo H) (id : ChangeId) (path : List String) : Option (TreeEntry H) :=
  (repo.refs.changes.lookup id).bind fun c =>
    match (repo.objects.load c.1.current : Except Error (Snapshot H)) with
    | .ok snap => entryAt repo.objects snap.tree path
    | .error _ => none

/-- What a scan records at a path of a directory. -/
def recordedAt (ignore : List String) (copy : WorkingCopy) (path : List String) :
    Option (TreeEntry H) :=
  (nodeAt ignore copy path).bind fun node => node.record ignore (path.getLastD "")

section Entries

variable {repo : Repo H} {id : ChangeId} {path : List String} {e : TreeEntry H}

theorem Repo.entryOf_eq {c : ChangeAt H id} {snap : Snapshot H}
    (hc : repo.refs.changes.lookup id = some c) (hsnap : repo.objects.load c.1.current = .ok snap)
    (path : List String) : repo.entryOf id path = entryAt repo.objects snap.tree path := by
  rw [Repo.entryOf, hc, Option.bind_some, hsnap]

theorem Repo.entryOf_eq_some : repo.entryOf id path = some e ↔
    ∃ (c : ChangeAt H id) (snap : Snapshot H), repo.refs.changes.lookup id = some c ∧
      repo.objects.load c.1.current = .ok snap ∧ entryAt repo.objects snap.tree path = some e := by
  constructor
  · intro h
    rw [Repo.entryOf, Option.bind_eq_some_iff] at h
    obtain ⟨c, hc, h⟩ := h
    split at h
    · exact ⟨c, _, hc, ‹_›, h⟩
    · cases h
  · rintro ⟨c, snap, hc, hsnap, h⟩
    rw [Repo.entryOf_eq hc hsnap, h]

/-- What a change has is there as long as its record and the objects are. -/
theorem Repo.entryOf_mono {repo' : Repo H} (hle : repo.objects.Le repo'.objects)
    (hc : repo'.refs.changes.lookup id = repo.refs.changes.lookup id)
    (h : repo.entryOf id path = some e) : repo'.entryOf id path = some e := by
  obtain ⟨c, snap, hlookup, hsnap, hentry⟩ := Repo.entryOf_eq_some.mp h
  exact Repo.entryOf_eq_some.mpr
    ⟨c, snap, hc.trans hlookup, hle.load hsnap, entryAt_mono hle hentry⟩

end Entries

/-! ## What is spared -/

/-- From the one world to the other, changes keep what they have, but for some of it. -/
structure World.Spares (X : ChangeId → List String → TreeEntry H → Prop) (w w' : World H) : Prop
    extends w.Onward w' where
  frame : ∀ id path e, ¬ X id path e → w.repo.entryOf id path = some e →
    w'.repo.entryOf id path = some e

/-- When the program returns, changes have kept what they had, but for some of it. -/
def Spares {ε α : Type} (X : ChangeId → List String → TreeEntry H → Prop)
    (x : EStateM ε (World H) α) (w : World H) : Prop :=
  Post x w (fun _ w' => w.Spares X w') (fun _ w' => w.Onward w')

section Rules

variable {ε α β : Type} {X Y : ChangeId → List String → TreeEntry H → Prop} {w w' w'' : World H}

theorem World.Aside.spares (h : w.Aside w') : w.Spares X w' where
  toOnward := h.toOnward
  frame id path e _ he := Repo.entryOf_mono h.le (by rw [h.changes]) he

theorem World.Spares.trans (h : w.Spares X w') (h' : w'.Spares X w'') : w.Spares X w'' where
  toOnward := h.toOnward.trans h'.toOnward
  frame id path e hx he := h'.frame id path e hx (h.frame id path e hx he)

/-- It is enough to look at what changes have. -/
theorem World.Spares.mono (h : w.Spares X w')
    (hX : ∀ id path e, w.repo.entryOf id path = some e → X id path e → Y id path e) :
    w.Spares Y w' where
  toOnward := h.toOnward
  frame id path e hy he := h.frame id path e (fun hx => hy (hX id path e he hx)) he

theorem Spares.mono {x : EStateM ε (World H) α} (h : Spares X x w)
    (hX : ∀ id path e, w.repo.entryOf id path = some e → X id path e → Y id path e) :
    Spares Y x w :=
  Post.mono h (fun _ _ h => h.mono hX) (fun _ _ h => h)

theorem Keeps.spares {x : EStateM ε (World H) α} {P : α → World H → Prop} (h : Keeps x w P) :
    Spares X x w :=
  Post.mono h (fun _ _ h => h.1.aside.spares) (fun _ _ h => h.onward)

theorem Spares.engine {x : RepoM H α} (h : Spares X x w) : Spares X (engine x) w :=
  (post_adaptExcept _).mpr h

/-- What is done first keeps refs and log: it is enough to look at what changes had before. -/
theorem World.Kept.spares (hk : w.Kept w') (h : w'.Spares X w'')
    (hX : ∀ id path e, w.repo.entryOf id path = some e → X id path e → Y id path e) :
    w.Spares Y w'' where
  toOnward := hk.onward.trans h.toOnward
  frame id path e hy he := h.frame id path e (fun hx => hy (hX id path e he hx))
    (Repo.entryOf_mono hk.le (by rw [hk.refs]) he)

/-- What a program does first, as long as it keeps refs and log. -/
theorem Spares.of_keeps_bind {x : EStateM ε (World H) α} {f : α → EStateM ε (World H) β}
    {P : α → World H → Prop} (hx : Keeps x w P)
    (hf : ∀ a w₁, w.Kept w₁ → P a w₁ → Spares X (f a) w₁) : Spares X (x >>= f) w := by
  unfold Spares
  rw [post_bind]
  refine Post.mono hx (fun a w₁ h => ?_) (fun _ _ h => h.onward)
  exact Post.mono (hf a w₁ h.1 h.2) (fun _ _ h' => h.1.aside.spares.trans h')
    (fun _ _ h' => h.1.onward.trans h')

/-- What a program does last, as long as it keeps refs and log. -/
theorem Spares.bind_keeps {x : EStateM ε (World H) α} {f : α → EStateM ε (World H) β}
    (hx : Spares X x w) (hf : ∀ a w₁, Keeps (f a) w₁ fun _ _ => True) :
    Spares X (x >>= f) w := by
  unfold Spares
  rw [post_bind]
  refine Post.mono hx (fun a w₁ h => ?_) (fun _ _ h => h)
  exact Post.mono (hf a w₁) (fun _ _ h' => h.trans h'.1.aside.spares)
    (fun _ _ h' => h.toOnward.trans h'.onward)

end Rules

/-! ## Snapshots -/

section Snapshots

variable [LawfulFormat H] {w : World H} {id : ChangeId}

/-- **A direct snapshot** leaves other changes alone, and of its own what the new tree has. -/
theorem snapChangeDirectly_spares {newTree : H} {opts : SnapOptions}
    (hi : w.repo.objects.Intact) :
    Spares (fun id' path e => id' = id ∧ entryAt w.repo.objects newTree path ≠ some e)
      (snapChangeDirectly id newTree opts) w := by
  suffices h : Post (snapChangeDirectly id newTree opts) w (fun _ w' => ∀ id' path e,
      ¬ (id' = id ∧ entryAt w.repo.objects newTree path ≠ some e) →
      w.repo.entryOf id' path = some e → w'.repo.entryOf id' path = some e) fun _ _ => True from
    ((leads_snapChangeDirectly id newTree opts).and h).mono (fun _ _ h => ⟨h.1, h.2⟩)
      (fun _ _ h => h.1)
  refine snapChangeDirectly_spec (fun c prev w' hq _ _ _ => ?_) ?_ (fun _ _ _ _ => trivial)
    (fun _ _ _ _ _ _ _ => trivial)
  · exact fun id' path e _ he => Repo.entryOf_mono hq.le (by rw [hq.refs]) he
  intro c now op w' hc _ snap h hcom _ _ _ _ hload id' path e hx he
  have hadvanced : (c.1.advance h).id = id := (Change.advance_id _ _).trans c.2
  have hrefs : w'.repo.refs = w.repo.refs.write (.ofChange (c.1.advance h)) := hcom.refs
  by_cases hid : id' = id
  · subst hid
    have hnew : entryAt w.repo.objects newTree path = some e :=
      not_not.mp fun hne => hx ⟨rfl, hne⟩
    refine Repo.entryOf_eq_some.mpr ⟨⟨c.1.advance h, hadvanced⟩, snap, ?_, ?_, ?_⟩
    · rw [hrefs]
      exact lookup_write_change _ hadvanced
    · rw [Change.advance_current]
      exact hload hi
    · exact entryAt_mono hcom.le hnew
  · refine Repo.entryOf_mono hcom.le ?_ he
    rw [hrefs]
    exact FiniteMap.lookup_set_of_ne _ _ fun heq => hid (heq.trans hadvanced)

omit [LawfulFormat H] in
/-- Where a scan has been stored, the tree has what the scan recorded. -/
theorem Repo.entryOf_recorded {repo : Repo H} {ignore : List String} {copy : WorkingCopy}
    {tree : Tree H} {c : ChangeAt H id} {snap : Snapshot H}
    (hc : repo.refs.changes.lookup id = some c) (hsnap : repo.objects.load c.1.current = .ok snap)
    (hroot : snap.tree = (encode H tree).hash H) (htree : recordTree ignore copy = some tree)
    (hs : CopyStoredIn repo.objects ignore copy) (path : List String) :
    repo.entryOf id path = recordedAt ignore copy path := by
  rw [Repo.entryOf_eq hc hsnap, hroot]
  exact entryAt_recordTree htree hs path

/-- What a snapshot of a workspace leaves: the change that is checked out has what the directory
holds, and other changes have what they had. -/
structure World.Snapped (current : Option ChangeId) (ignore : List String) (copy : WorkingCopy)
    (w w' : World H) : Prop where
  spares : w.Spares (fun id _ _ => current = some id) w'
  entries : ∀ id path, current = some id → w'.repo.entryOf id path = recordedAt ignore copy path

omit [LawfulFormat H] in
/-- What came before the snapshot does not matter. -/
theorem World.Snapped.of_kept {current : Option ChangeId} {ignore : List String}
    {copy : WorkingCopy} {w₁ w' : World H} (hk : w.Kept w₁)
    (h : w₁.Snapped current ignore copy w') : w.Snapped current ignore copy w' :=
  ⟨hk.aside.spares.trans h.spares, h.entries⟩

/-- **A snapshot of a workspace** replaces all that its change has by what the directory holds, and
leaves other changes alone. -/
theorem snapNow_entries {ws : Workspace} {copy : WorkingCopy} {opts : SnapOptions}
    (hi : w.repo.objects.Intact) (hinj : Function.Injective w.env.ulid)
    (hb : IdsBelow w.env w.ids w.repo.refs) :
    Post (snapNow ws copy opts) w
      (fun _ w' => w.Snapped (ws.current w.repo.refs) opts.ignore copy w')
      (fun _ w' => w.Onward w') := by
  suffices h : Post (snapNow ws copy opts) w (fun _ w' =>
      (∀ id path e, ws.current w.repo.refs ≠ some id → w.repo.entryOf id path = some e →
        w'.repo.entryOf id path = some e) ∧
      ∀ id path, ws.current w.repo.refs = some id →
        w'.repo.entryOf id path = recordedAt opts.ignore copy path) fun _ _ => True from
    ((leads_snapNow ws copy opts).and h).mono (fun _ _ h => ⟨⟨h.1, h.2.1⟩, h.2.2⟩)
      (fun _ _ h => h.1)
  refine snapNow_spec ?_ ?_ (fun _ _ _ _ => trivial) (fun _ _ _ _ _ _ _ _ _ _ _ _ _ => trivial)
  · intro tree base n prev w' hg htree hbase hfresh hprev hun
    refine ⟨fun id path e _ he => Repo.entryOf_mono hg.quiet.le (by rw [hg.quiet.refs]) he, ?_⟩
    intro id path hid
    cases hbase with
    | fresh => cases hfresh
    | current id' c hws hc =>
      obtain rfl := Option.some.inj (hws.symm.trans hid)
      have hroot : prev.tree = (encode H tree).hash H := by
        simp only [SnapOptions.unchanged, Bool.and_eq_true, decide_eq_true_eq] at hun
        exact hun.1.1
      rw [← hg.quiet.refs] at hc
      exact Repo.entryOf_recorded hc hprev hroot htree (hg.stored hi) path
  · intro tree base n s' now op w' htree hbase hn _ _ _ snap h hcom _ _ _ hload
    obtain ⟨hsnap, hstored⟩ := hload hi
    cases hbase with
    | current id' c hws hc =>
      have hadvanced : (c.1.advance h).id = id' := (Change.advance_id _ _).trans c.2
      have hrefs : w'.repo.refs = w.repo.refs.write (.ofChange (c.1.advance h)) := hcom.refs
      refine ⟨fun id path e hne he => Repo.entryOf_mono hcom.le ?_ he, fun id path hid => ?_⟩
      · rw [hrefs]
        refine FiniteMap.lookup_set_of_ne _ _ fun heq => hne ?_
        rw [hws, heq]
        exact congrArg some hadvanced.symm
      · obtain rfl := Option.some.inj (hws.symm.trans hid)
        have hcur : w'.repo.objects.load (c.1.advance h).current = .ok snap := by
          rw [Change.advance_current]
          exact hsnap
        refine Repo.entryOf_recorded (c := ⟨c.1.advance h, hadvanced⟩) ?_ hcur rfl htree hstored path
        rw [hrefs]
        exact lookup_write_change _ hadvanced
    | fresh hws =>
      obtain ⟨_ | m, dir⟩ := ws
      · refine ⟨fun id path e _ he => Repo.entryOf_mono hcom.le ?_ he, fun id path hid => ?_⟩
        · -- the fresh change is not one of those that are there
          have hrefs : w'.repo.refs = (w.repo.refs.write (.ofChange _)).write (.head _) := hcom.refs
          rw [hrefs]
          refine FiniteMap.lookup_set_of_ne _ _ fun heq => ?_
          obtain ⟨c, -, hc, -, -⟩ := Repo.entryOf_eq_some.mp he
          refine (hb.not_mem hinj hn).1 ?_
          rw [← show id = w.env.ulid n from heq]
          exact Finmap.mem_of_lookup_eq_some hc
        · rw [hws] at hid
          cases hid
      · cases hws

/-- **A snapshot of a workspace on the disk** is one of what lies in its directory. -/
theorem snapOn_entries {fs : FileSystem} {inv : Invocation} {opts : SnapOptions} {σ : Site H}
    (hi : σ.world.repo.objects.Intact) (hinj : Function.Injective σ.world.env.ulid)
    (hb : IdsBelow σ.world.env σ.world.ids σ.world.repo.refs) :
    Post (snapOn fs inv opts : SiteM H _) σ
      (fun out σ' => ∃ w copy, discoverWorkspace inv.repoWorkdir inv.place σ.world = .ok out.1 w ∧
        dirAt σ.copy (fs.locate out.1.workdir) = some copy ∧
        σ.world.Snapped (out.1.current σ.world.repo.refs) opts.ignore copy σ'.world)
      (fun _ _ => True) := by
  rw [snapOn, post_bind, post_onRepo]
  refine .of_cases (fun ws w₁ hws => ?_) (fun _ _ _ => trivial)
  have hk₁ : σ.world.Kept w₁ := (keeps_discoverWorkspace.ok hws).1
  rw [post_bind, post_onRepo]
  refine keeps_lockForWrite.mono (fun _ w₂ h₂ => ?_) (fun _ _ _ => trivial)
  rw [post_bind, post_onRepo]
  refine keeps_openLog.mono (fun _ w₃ h₃ => ?_) (fun _ _ _ => trivial)
  have hk₃ : σ.world.Kept w₃ := (hk₁.trans h₂.1).trans h₃.1
  have hinj₃ : Function.Injective w₃.env.ulid := by rwa [hk₃.env]
  rw [post_bind]
  refine Post.inDirectory fun copy hcopy => ?_
  rw [post_bind, post_get, post_onRepo]
  refine (snapNow_entries (hk₃.intact hi) hinj₃ (hk₃.onward.below hb)).mono (fun outcome w₄ h => ?_)
    (fun _ _ _ => trivial)
  rw [hk₃.refs] at h
  exact ⟨w₁, copy, hws, hcopy, h.of_kept hk₃⟩

end Snapshots

/-! ## Direct snapshots -/

/-- The path of an edit, and what is above or below it, in one change. -/
def AtPath (id : ChangeId) (path : String) (id' : ChangeId) (p : List String) : Prop :=
  id' = id ∧ ∃ parts, splitPath path = .ok parts ∧ (p <+: parts ∨ parts <+: p)

section Direct

variable [LawfulFormat H] {w : World H} {edit : H → RepoM H H} {path : String}

omit [LawfulFormat H] in
/-- The snapshot that a handler goes on from is the current one. -/
theorem keeps_mutableSnapshot_current {srv : Server} {id : ChangeId} {headers : HeaderMap} :
    Keeps (Handlers.mutableSnapshot srv id headers) w fun found w' => ∃ c : ChangeAt H id,
      w.repo.refs.changes.lookup id = some c ∧
        w'.repo.objects.load c.1.current = .ok found.2 := by
  refine Keeps.bind keeps_callerFrom fun caller w₁ hk₁ _ => ?_
  refine Keeps.bind keeps_loadMutableChange fun change w₂ hk₂ hc => ?_
  refine Keeps.bind keeps_loadObject.engine fun snap w₃ hk₃ hsnap => Keeps.pure ?_
  rw [hk₁.refs] at hc
  exact ⟨change, hc.1, hk₃.le.load hsnap⟩

/-- An edit of the current tree, and a direct snapshot of what it makes, leave everything but the
path as it is. -/
theorem spares_of_edit (hedit : EditsPath edit path) {id : ChangeId} {c : ChangeAt H id}
    {snap : Snapshot H} (hi : w.repo.objects.Intact) (hc : w.repo.refs.changes.lookup id = some c)
    (hsnap : w.repo.objects.load c.1.current = .ok snap) {ε α : Type}
    {x : EStateM ε (World H) H} {next : H → EStateM ε (World H) α}
    (hx : Post x w (fun tree w₁ => edit snap.tree w = .ok tree w₁) (fun _ w₁ => w.Kept w₁))
    (hnext : ∀ tree w₁, w.Kept w₁ → Spares (fun id' p e => id' = id ∧
      entryAt w₁.repo.objects tree p ≠ some e) (next tree) w₁) :
    Spares (fun id' p _ => AtPath id path id' p) (x >>= next) w := by
  unfold Spares
  rw [post_bind]
  refine hx.mono (fun tree w₁ hrun => ?_) (fun _ _ hk => hk.onward)
  obtain ⟨parts, hparts, hg⟩ := (hedit snap.tree w).ok hrun
  have hk := hg.quiet.kept
  refine Post.mono (hnext tree w₁ hk) (fun _ w' h => hk.spares h ?_)
    (fun _ _ h => hk.onward.trans h)
  rintro id' p e he ⟨rfl, hne⟩
  rw [Repo.entryOf_eq hc hsnap] at he
  refine ⟨rfl, parts, hparts, ?_⟩
  by_contra hno
  obtain ⟨hab, hbe⟩ := not_or.mp hno
  exact hne (hg.stored hi p e hab hbe he)

/-- **An edit by a request** leaves everything but its path as it is. -/
theorem Handlers.editChange_spares (hedit : EditsPath edit path) (hi : w.repo.objects.Intact)
    (srv : Server) (id : String) (headers : HeaderMap) :
    Spares (fun id' p _ => AtPath id path id' p) (Handlers.editChange srv id headers edit) w := by
  refine .of_keeps_bind keeps_lockForWrite.engine fun _ w₁ hk₁ _ => ?_
  refine .of_keeps_bind (P := fun id' _ => id' = id) (Keeps.fromExcept fun id' hid => ?_)
    fun _ w₂ hk₂ hid => ?_
  · exact (parseChangeId_eq_ok.mp hid).2
  subst hid
  refine .of_keeps_bind keeps_mutableSnapshot_current fun found w₃ hk₃ ⟨c, hc, hsnap⟩ => ?_
  rw [← hk₃.refs] at hc
  have hk := (hk₁.trans hk₂).trans hk₃
  refine spares_of_edit hedit (hk.intact hi) hc hsnap ?_ fun tree w₄ hk₄ => ?_
  · exact (post_adaptExcept _).mpr
      (.of_cases (fun _ _ hrun => hrun) fun _ _ hrun => ((hedit _ _).error hrun).kept)
  · exact .bind_keeps (snapChangeDirectly_spares (hk₄.intact (hk.intact hi))).engine
      fun _ _ => Keeps.pure trivial

theorem Handlers.patchTreePath_spares (hi : w.repo.objects.Intact) (srv : Server) (id path : String)
    (headers : HeaderMap) (body : Bytes) :
    Spares (fun id' p _ => AtPath id path id' p) (Handlers.patchTreePath srv id path headers body)
      w :=
  Handlers.editChange_spares (editsPath_writeBlobAtPath path body) hi srv id headers

theorem Handlers.deleteTreePath_spares (hi : w.repo.objects.Intact) (srv : Server)
    (id path : String) (headers : HeaderMap) :
    Spares (fun id' p _ => AtPath id path id' p) (Handlers.deleteTreePath srv id path headers) w :=
  Handlers.editChange_spares (editsPath_deleteAtPath path) hi srv id headers

/-- A snapshot by a request leaves everything as it is. -/
theorem Handlers.snapChange_spares (hi : w.repo.objects.Intact) (srv : Server) (id : String)
    (headers : HeaderMap) (req : SnapReq) :
    Spares (fun _ _ _ => False) (Handlers.snapChange srv id headers req) w := by
  refine .of_keeps_bind keeps_lockForWrite.engine fun _ w₁ hk₁ _ => ?_
  refine .of_keeps_bind (P := fun _ _ => True) (Keeps.fromExcept fun _ _ => trivial)
    fun id w₂ hk₂ _ => ?_
  refine .of_keeps_bind keeps_mutableSnapshot_current fun found w₃ hk₃ ⟨c, hc, hsnap⟩ => ?_
  rw [← hk₃.refs] at hc
  have hi₃ := ((hk₁.trans hk₂).trans hk₃).intact hi
  refine .bind_keeps ((snapChangeDirectly_spares hi₃).engine.mono ?_) fun _ _ => keeps_snapResp
  -- the new tree is the old one
  rintro id' path e he ⟨rfl, hne⟩
  rw [Repo.entryOf_eq hc hsnap] at he
  exact hne he

/-- **Sealing** leaves everything but the path as it is. -/
theorem cmdSeal_spares (hi : w.repo.objects.Intact) (inv : Invocation) (path : String)
    (sealed : Except Error Sealed) :
    Spares (fun id p _ => inv.place.current w.repo.refs = some id ∧ AtPath id path id p)
      (cmdSeal inv path sealed) w := by
  refine .of_keeps_bind (P := fun ws _ => ws.current w.repo.refs = inv.place.current w.repo.refs)
    (discoverWorkspace_spec (fun _ _ hq _ hws => ⟨hq.kept, hws⟩) fun _ _ hq _ => hq.kept)
    fun ws w₁ hk₁ hws => ?_
  refine .of_keeps_bind keeps_lockForWrite fun _ w₂ hk₂ _ => ?_
  refine .of_keeps_bind (keeps_step (k := .registryRead) (by simp [FsStep.Mutates]))
    fun _ w₃ hk₃ _ => ?_
  refine .of_keeps_bind (P := fun _ _ => True) (Keeps.fromExcept fun _ _ => trivial)
    fun payload w₄ hk₄ _ => ?_
  have hk' := ((hk₁.trans hk₂).trans hk₃).trans hk₄
  refine .of_keeps_bind (P := fun id _ => ws.current w₄.repo.refs = some id)
    (sealTarget_spec (fun _ _ hq hid => ⟨hq.kept, hid⟩) fun _ _ hq => hq.kept)
    fun id w₅ hk₅ hid => ?_
  refine .of_keeps_bind keeps_getChange fun c w₆ hk₆ hc => ?_
  refine .of_keeps_bind keeps_loadObject fun snap w₇ hk₇ hsnap => ?_
  rw [← hk₆.refs, ← hk₇.refs] at hc
  have hi₇ := ((((hk'.trans hk₅).trans hk₆).trans hk₇).intact hi)
  refine Spares.mono (spares_of_edit (editsPath_writeSealedAtPath path payload) hi₇ hc
    (hk₇.le.load hsnap) (.of_cases (fun _ _ hrun => hrun)
      fun _ _ hrun => ((editsPath_writeSealedAtPath path payload _ _).error hrun).kept)
    fun tree w₈ hk₈ => ?_) ?_
  · refine .of_keeps_bind keeps_openLog fun _ w₉ hk₉ _ => ?_
    refine (snapChangeDirectly_spares (hk₉.intact (hk₈.intact hi₇))).mono ?_
    rintro id' p e - ⟨rfl, hne⟩
    exact ⟨rfl, fun heq => hne (entryAt_mono hk₉.le heq)⟩
  · rintro id' p e - hat
    obtain rfl := hat.1
    refine ⟨?_, hat⟩
    rw [← hws, ← hid, hk'.refs]

end Direct

/-! ## Runs -/

/-- What writers do: work in workspaces, requests to the daemon, and sealing. -/
inductive SharedAction (H : Type) where
  | work (action : WorkAction H)
  | patch (srv : Server) (id path : String) (headers : HeaderMap) (body : Bytes)
  | delete (srv : Server) (id path : String) (headers : HeaderMap)
  | snapRequest (srv : Server) (id : String) (headers : HeaderMap) (req : SnapReq)
  | sealPath (inv : Invocation) (path : String) (sealed : Except Error Sealed)

/-- A program returns, or it fails and has kept what there was. -/
def Leaves {ε σ α : Type} (kept : σ → σ → Prop) (x : EStateM ε σ α) (s s' : σ) : Prop :=
  (∃ a, x s = .ok a s') ∨ ∃ e, x s = .error e s' ∧ kept s s'

/-- What there is after an action that returns, or that fails before it writes refs or log. -/
def SharedAction.Step (fs : FileSystem) : SharedAction H → Site H → Site H → Prop
  | work action, σ, σ' =>
    Leaves (fun σ σ' => σ.world.Kept σ'.world) (action.perform fs) σ σ'
  | patch srv id path headers body, σ, σ' =>
    Leaves World.Kept (Handlers.patchTreePath srv id path headers body) σ.world σ'.world ∧
      σ'.copy = σ.copy
  | delete srv id path headers, σ, σ' =>
    Leaves World.Kept (Handlers.deleteTreePath srv id path headers) σ.world σ'.world ∧
      σ'.copy = σ.copy
  | snapRequest srv id headers req, σ, σ' =>
    Leaves World.Kept (Handlers.snapChange srv id headers req) σ.world σ'.world ∧ σ'.copy = σ.copy
  | sealPath inv path sealed, σ, σ' =>
    Leaves World.Kept (cmdSeal inv path sealed) σ.world σ'.world ∧ σ'.copy = σ.copy

/-- What an action may take away: a snapshot of a workspace what the directory does not hold, a
direct one what is at its path, and what is above or below that. -/
def SharedAction.Touches (fs : FileSystem) (σ : Site H) : SharedAction H →
    ChangeId → List String → TreeEntry H → Prop
  | work (.snap inv opts), id, path, e => ∃ ws w copy,
    discoverWorkspace inv.repoWorkdir inv.place σ.world = .ok ws w ∧
      ws.current σ.world.repo.refs = some id ∧
      dirAt σ.copy (fs.locate ws.workdir) = some copy ∧ recordedAt opts.ignore copy path ≠ some e
  | work _, _, _, _ => False
  | patch _ id p _ _, id', path, _ => AtPath id p id' path
  | delete _ id p _, id', path, _ => AtPath id p id' path
  | snapRequest .., _, _, _ => False
  | sealPath inv p _, id, path, _ => inv.place.current σ.world.repo.refs = some id ∧ AtPath id p id path

/-- What is known of a repository that writers work on: its objects are intact, and the ids in use
have come from a generator that gives out no id twice. -/
structure World.Ready (w : World H) : Prop where
  intact : w.repo.objects.Intact
  ulid : Function.Injective w.env.ulid
  ids : IdsBelow w.env w.ids w.repo.refs

theorem World.Ready.onward {w w' : World H} (h : w.Ready) (ho : w.Onward w') : w'.Ready where
  intact := ho.intact h.intact
  ulid := by rw [ho.env]; exact h.ulid
  ids := ho.below h.ids

/-- What a program has spared, when it returned or kept what there was. -/
theorem Leaves.spares {ε α : Type} {X : ChangeId → List String → TreeEntry H → Prop}
    {x : EStateM ε (World H) α} {w w' : World H} (h : Leaves World.Kept x w w')
    (hx : Spares X x w) : w.Spares X w' := by
  rcases h with ⟨a, hok⟩ | ⟨e, -, hk⟩
  · exact Post.ok hx hok
  · exact hk.aside.spares

section Runs

variable {fs : FileSystem} {σ σ' : Site H}

/-- **An action** takes nothing away but what it touches. -/
theorem SharedAction.spares [LawfulFormat H] (hready : σ.world.Ready) (a : SharedAction H)
    (h : a.Step fs σ σ') : σ.world.Spares (a.Touches fs σ) σ'.world := by
  have hi := hready.intact
  cases a with
  | patch srv id path headers body =>
    exact h.1.spares (Handlers.patchTreePath_spares hi srv id path headers body)
  | delete srv id path headers =>
    exact h.1.spares (Handlers.deleteTreePath_spares hi srv id path headers)
  | snapRequest srv id headers req =>
    exact h.1.spares (Handlers.snapChange_spares hi srv id headers req)
  | sealPath inv path sealed => exact h.1.spares (cmdSeal_spares hi inv path sealed)
  | work action =>
    rcases h with ⟨out, hok⟩ | ⟨e, -, hk⟩
    swap
    · exact World.Aside.spares (World.Kept.aside hk)
    by_cases hsnap : ∃ inv opts, action = .snap inv opts
    · obtain ⟨inv, opts, rfl⟩ := hsnap
      have hpost : Post ((WorkAction.snap inv opts).perform fs) σ
          (fun _ σ' => σ.world.Spares (SharedAction.Touches fs σ (.work (.snap inv opts))) σ'.world)
          (fun _ _ => True) := by
        rw [WorkAction.perform, post_bind]
        refine (snapOn_entries hi hready.ulid hready.ids).mono ?_ (fun _ _ _ => trivial)
        rintro ⟨ws, outcome⟩ σ₁ ⟨w, copy, hws, hcopy, hsnapped⟩
        refine ⟨hsnapped.spares.toOnward, fun id path e hx he => ?_⟩
        by_cases hcur : ws.current σ.world.repo.refs = some id
        · rw [hsnapped.entries id path hcur]
          by_contra hne
          exact hx ⟨ws, w, copy, hws, hcur, hcopy, hne⟩
        · exact hsnapped.spares.frame id path e hcur he
      exact hpost.ok hok
    · have haside : SiteM.Leads World.Aside (action.perform fs) σ :=
        action.leads_aside fun inv opts h => hsnap ⟨inv, opts, h⟩
      exact (Post.ok haside hok).spares

/-- Runs of writers. Every action meets `ok` in the state it finds. -/
inductive SharedRun (fs : FileSystem) (ok : Site H → SharedAction H → Prop) (σ : Site H) :
    Site H → Prop
  | start : SharedRun fs ok σ σ
  | step {σ₁ σ₂ : Site H} {a : SharedAction H} (h : SharedRun fs ok σ σ₁) (hok : ok σ₁ a)
      (hstep : a.Step fs σ₁ σ₂) : SharedRun fs ok σ σ₂

end Runs

end Tig
