import Tig.Core.Plain
import Tig.System.Processes

set_option relaxedAutoImplicit false
set_option autoImplicit false

/-!
# Handles and manifests

A process in a secondary workspace acts on the change that its handle names. That is the change that
the manifest names as long as no other process has changed the manifest since the handle was made.

## Main definitions

* `Tig.Net.Undisturbed` — an act changes no manifest of a workspace that another process is in.
* `Tig.ActsOnManifest` — an act is about the change that the manifest on disk names.

## Main results

* `Tig.NetRun.actsOnManifest` — **in runs that are undisturbed, processes act on the change that the
  manifest names**, and bring no manifest back.
-/

namespace Tig

open Program

variable {H : Type} [LinearOrder H] [Format H]

/-! ## Ids -/

/-- The ids of workspaces, in refs, log and handles, have come from the generator, which gives out no
id twice. -/
structure Net.IdsKnown (net : Net H) : Prop where
  fresh : Function.Injective net.world.env.ulid
  world : net.world.IdsKnown
  handles : ∀ p proc, net.procs p = some proc → ∀ id, proc.ws.key = .workspace id →
    net.world.Gave id

/-- The refs that an event may touch. -/
def Event.MayTouch (e : Event) (net : Net H) (k : RefKey) : Prop :=
  match e with
  | .act p _ a => ∃ proc, net.procs p = some proc ∧ a.MayTouch proc.ws net.world k
  | .start _ _ | .stop _ => False

/-- An event touches what it may. -/
theorem Net.IdsKnown.touched {net : Net H} (h : net.IdsKnown) (e : Event) :
    net.world.Touched (e.MayTouch net) (net.after e).world := by
  cases e with
  | start p inv =>
    have hdiscover : Keeps (discoverWorkspace inv.repoWorkdir inv.place) net.world fun ws _ =>
        ws.UpToDate net.world.repo.refs := keeps_discoverWorkspace
    unfold Keeps Post at hdiscover
    rw [Net.after]
    cases hrun : discoverWorkspace inv.repoWorkdir inv.place net.world with
    | ok ws w =>
      rw [hrun] at hdiscover
      exact hdiscover.1.touched h.world
    | error err w =>
      rw [hrun] at hdiscover
      exact hdiscover.touched h.world
  | act p log a =>
    cases hp : net.procs p with
    | none =>
      simp only [Net.after, hp]
      exact World.Touched.refl h.world
    | some proc =>
      let w : World H := { net.world with log := log }
      have hknown : w.IdsKnown := ⟨h.world.refs, h.world.log⟩
      have ht : Touches (a.MayTouch proc.ws w) (a.perform proc.ws proc.principal) w fun done _ =>
          ∀ m, proc.ws.kind = .secondary m → done.BasedOn w.repo.refs m.changeId :=
        Act.touches a h.fresh hknown (h.handles p proc hp)
      have hfinal : w.Touched (a.MayTouch proc.ws w)
          (final (a.perform proc.ws proc.principal) w) :=
        (Post.mono ht (fun _ _ h => h.1) (fun _ _ h => h)).final
      simp only [Net.after, hp]
      refine ⟨hfinal.env, hfinal.ids, fun k hk => hfinal.frame k fun hw => hk ?_, hfinal.known⟩
      exact ⟨proc, hp, hw⟩
  | stop p => exact World.Touched.refl h.world

/-- A handle is either as it was before the event, or has just been made. -/
theorem Net.after_procs {net : Net H} {e : Event} {q : Nat} {proc : Proc}
    (hq : (net.after e).procs q = some proc) :
    (net.procs q = some proc ∧ ∀ log a, e = .act q log a → a.goesOn = true) ∨
      ∃ ws w inv, discoverWorkspace inv.repoWorkdir inv.place net.world = .ok ws w ∧
        e = .start q inv ∧ proc = ⟨ws, inv.principal⟩ := by
  cases e with
  | start p inv =>
    rw [Net.after] at hq
    cases hrun : discoverWorkspace inv.repoWorkdir inv.place net.world with
    | ok ws w =>
      rw [hrun] at hq
      change Function.update net.procs p (some ⟨ws, inv.principal⟩) q = some proc at hq
      by_cases hpq : q = p
      · subst hpq
        rw [Function.update_self] at hq
        exact .inr ⟨ws, w, inv, hrun, rfl, (Option.some.inj hq).symm⟩
      · rw [Function.update_of_ne hpq] at hq
        exact .inl ⟨hq, fun _ _ h => by cases h⟩
    | error err w =>
      rw [hrun] at hq
      exact .inl ⟨hq, fun _ _ h => by cases h⟩
  | act p log a =>
    cases hp : net.procs p with
    | none =>
      simp only [Net.after, hp] at hq
      refine .inl ⟨hq, fun log' a' h => ?_⟩
      cases h
      rw [hp] at hq
      cases hq
    | some other =>
      simp only [Net.after, hp] at hq
      split at hq
      · rename_i hgoes
        refine .inl ⟨hq, fun log' a' h => ?_⟩
        cases h
        exact hgoes
      · change Function.update net.procs p none q = some proc at hq
        by_cases hpq : q = p
        · subst hpq
          rw [Function.update_self] at hq
          cases hq
        · rw [Function.update_of_ne hpq] at hq
          refine .inl ⟨hq, fun log' a' h => ?_⟩
          cases h
          exact absurd rfl hpq
  | stop p =>
    change Function.update net.procs p none q = some proc at hq
    by_cases hpq : q = p
    · subst hpq
      rw [Function.update_self] at hq
      cases hq
    · rw [Function.update_of_ne hpq] at hq
      exact .inl ⟨hq, fun _ _ h => by cases h⟩

/-- A handle that has just been made is up to date. -/
theorem upToDate_of_discoverWorkspace {repoWorkdir : String} {place : Place} {w w' : World H}
    {ws : Workspace} (h : discoverWorkspace repoWorkdir place w = .ok ws w') :
    ws.UpToDate w.repo.refs ∧ w'.repo.refs = w.repo.refs := by
  have hdiscover : Keeps (discoverWorkspace repoWorkdir place) w fun ws _ =>
      ws.UpToDate w.repo.refs := keeps_discoverWorkspace
  obtain ⟨hk, hws⟩ := Post.ok hdiscover h
  exact ⟨hws, hk.refs⟩

theorem Net.IdsKnown.after {net : Net H} (h : net.IdsKnown) (e : Event) :
    (net.after e).IdsKnown := by
  have ht := h.touched e
  refine ⟨?_, ht.known, fun q proc hq id hid => ht.gave ?_⟩
  · rw [ht.env]
    exact h.fresh
  · obtain ⟨hold, -⟩ | ⟨ws, w, inv, hrun, -, rfl⟩ := Net.after_procs hq
    · exact h.handles q proc hold id hid
    · exact Workspace.UpToDate.gave (upToDate_of_discoverWorkspace hrun).1 h.world hid

theorem NetRun.idsKnown {ok : Net H → Event → Prop} {net : Net H} (h : NetRun ok net) :
    net.IdsKnown := by
  induction h with
  | fresh w hrepo hfresh =>
    refine ⟨hfresh, ⟨fun id hid => ?_, fun op hop => ?_⟩, fun p proc hp => by cases hp⟩
    · rw [hrepo] at hid
      exact absurd hid (Finmap.notMem_empty)
    · rw [hrepo] at hop
      cases hop
  | event _ e _ ih => exact ih.after e

/-! ## Handles -/

/-- No act changes, removes or brings back the manifest of a workspace that another process has made a
handle on. -/
def Net.Undisturbed (net : Net H) : Event → Prop
  | .act p _ a => ∀ proc, net.procs p = some proc → ∀ q other m, q ≠ p →
      net.procs q = some other → other.ws.kind = .secondary m →
        ¬ a.changesManifest proc.ws net.world.repo m.id
  | .start _ _ | .stop _ => True

/-- In runs that are undisturbed every handle is as the refs are. -/
theorem NetRun.upToDate {net : Net H} (h : NetRun Net.Undisturbed net) {p : Nat} {proc : Proc}
    (hp : net.procs p = some proc) : proc.ws.UpToDate net.world.repo.refs := by
  induction h generalizing p proc with
  | fresh w hrepo hfresh => cases hp
  | @event net h e he ih =>
    have ht := h.idsKnown.touched e
    obtain ⟨hold, hgoes⟩ | ⟨ws, w, inv, hrun, rfl, rfl⟩ := Net.after_procs hp
    · have hws := ih hold
      obtain ⟨⟨_ | m, dir⟩, principal⟩ := proc
      · trivial
      refine (ht.workspace ?_).trans hws
      cases e with
      | start q inv => exact not_false
      | stop q => exact not_false
      | act q log a =>
        rintro ⟨other, hother, hchanges | hnew⟩
        · by_cases hpq : p = q
          · -- only a watcher goes on, and it changes no manifest
            subst hpq
            have := hgoes log a rfl
            cases a <;> first | exact hchanges | cases this
          · exact he other hother p _ m hpq hold rfl hchanges
        · exact hnew (h.idsKnown.handles p _ hold m.id rfl)
    · obtain ⟨hws, hrefs⟩ := upToDate_of_discoverWorkspace hrun
      rw [show (net.after (.start p inv)).world = w by rw [Net.after, hrun], hrefs]
      exact hws

/-! ## Acting on the manifest -/

/-- The acts that are about the change of the workspace that they are done in. -/
def Act.worksOnChange : Act → Bool
  | .snap _ _ | .watch _ | .changeNew _ | .wtMake _ _ _ _ _ => true
  | .wtDrop _ _ _ | .undo => false

/-- What an act that is about the change `id` writes: a snapshot is recorded in that change alone,
`tig change new` writes the record of a new change, `tig wt make` writes none; and every manifest
afterwards has been there before, or its id is new. -/
structure Act.AboutChange (a : Act) (id : ChangeId) (w w' : World H) : Prop where
  records : ∀ c, w'.repo.refs.changes.lookup c ≠ w.repo.refs.changes.lookup c →
    match a with
    | .snap _ _ | .watch _ => c = id
    | .changeNew _ => ¬ w.Gave c
    | _ => False
  manifests : ∀ k ∈ w'.repo.refs.workspaces, k ∈ w.repo.refs.workspaces ∨ ¬ w.Gave k

/-- The manifest of the workspace is on disk, an act is about the change that it names, and what
comes of the act is based on that change. -/
def ActsOnManifest (w : World H) (proc : Proc) (a : Act) (id : WorkspaceId) : Prop :=
  ∃ onDisk, w.repo.refs.workspaces.lookup id = some onDisk ∧
    Post (a.perform proc.ws proc.principal) w
      (fun done w' => done.BasedOn w.repo.refs onDisk.1.changeId ∧
        a.AboutChange onDisk.1.changeId w w')
      (fun _ w' => a.AboutChange onDisk.1.changeId w w')

omit [LinearOrder H] [Format H] in
/-- What touches no more than an act may. -/
theorem World.Touched.aboutChange {a : Act} (ha : a.worksOnChange = true) {ws : Workspace}
    {m : WorkspaceManifest} (hm : ws.kind = .secondary m) {w w' : World H}
    (hws : m.id ∈ w.repo.refs.workspaces) (h : w.Touched (a.MayTouch ws w) w') :
    a.AboutChange m.changeId w w' := by
  refine ⟨fun c hc => ?_, fun k hk => ?_⟩
  · have hwrites : a.writesChange ws w c := by
      by_contra hnot
      have hread := h.frame (.change c) hnot
      simp only [Refs.read, RefSnapshot.change.injEq, heq_eq_eq, true_and] at hread
      exact hc hread
    cases a with
    | snap copy message => exact hwrites m hm
    | watch copy => exact hwrites m hm
    | changeNew description => exact hwrites
    | wtMake disk name atPath identity valid => exact hwrites
    | wtDrop disk name keepFiles => cases ha
    | undo => cases ha
  · by_cases htouch : a.MayTouch ws w (.workspace k)
    · obtain hchanges | hnew := htouch
      · cases a with
        | changeNew description =>
          left
          have hid : ws.workspaceId = some m.id := by
            obtain ⟨_ | m', dir⟩ := ws
            · cases hm
            · cases hm
              rfl
          exact Option.some.inj (hid.symm.trans hchanges) ▸ hws
        | snap copy message => cases hchanges
        | watch copy => cases hchanges
        | wtMake disk name atPath identity valid => cases hchanges
        | wtDrop disk name keepFiles => cases ha
        | undo => cases ha
      · exact .inr hnew
    · left
      rw [← Finmap.lookup_isSome] at hk ⊢
      rwa [← h.workspace htouch]

/-- **In runs that are undisturbed**, a process in a secondary workspace acts on the change that the
manifest on disk names, and brings no manifest back. -/
theorem NetRun.actsOnManifest {net : Net H} (h : NetRun Net.Undisturbed net) {p : Nat} {proc : Proc}
    (hp : net.procs p = some proc) {m : WorkspaceManifest} (hm : proc.ws.kind = .secondary m)
    (log : FileLog) {a : Act} (ha : a.worksOnChange = true) :
    ActsOnManifest { net.world with log := log } proc a m.id := by
  have hknown := h.idsKnown
  have hlookup : net.world.repo.refs.workspaces.lookup m.id = some ⟨m, rfl⟩ := by
    have hws := h.upToDate hp
    rwa [Workspace.UpToDate, hm] at hws
  let w : World H := { net.world with log := log }
  have hw : w.IdsKnown := ⟨hknown.world.refs, hknown.world.log⟩
  have ht : Touches (a.MayTouch proc.ws w) (a.perform proc.ws proc.principal) w fun done _ =>
      ∀ m, proc.ws.kind = .secondary m → done.BasedOn w.repo.refs m.changeId :=
    Act.touches a hknown.fresh hw (hknown.handles p proc hp)
  have hmem : m.id ∈ w.repo.refs.workspaces := Finmap.mem_of_lookup_eq_some hlookup
  refine ⟨⟨m, rfl⟩, hlookup, Post.mono ht (fun done w' hdone => ?_) fun _ w' herr => ?_⟩
  · exact ⟨hdone.2 m hm, hdone.1.aboutChange ha hm hmem⟩
  · exact herr.aboutChange ha hm hmem

/-! ## Two processes in one workspace -/

namespace TwoProcesses

/-- A directory with one file. -/
def dir (byte : UInt8) : WorkingCopy := [(Utf8.encode "f", .file [byte] false)]

/-- A disk on which nothing is in the way. -/
def disk : Disk := ⟨fun _ => false, fun _ => none, 8⟩

/-- `tig`, as alice, in the main workspace. -/
def inMain : Invocation := ⟨"local:alice", "/repo", .main⟩

/-- `tig`, as alice, in the workspace `x`. -/
def inX : Invocation := ⟨"local:alice", "/x", .marker "a"⟩

/-- There is a snapshot, and a workspace `x`, which two processes have found. -/
def before : List Event :=
  [.start 0 inMain, .act 0 ⟨0⟩ (.snap (dir 97) none),
   .start 0 inMain, .act 0 ⟨0⟩ (.wtMake disk "x" (some "/x") (.ok none) rfl),
   .start 1 inX, .start 2 inX]

/-- The state before the one of them acts. -/
def net : Net PlainHash := before.foldl Net.after ⟨World.fresh .calm, fun _ => none⟩

/-- The state after a new change has been begun in it. -/
def changed : Net PlainHash := net.after (.act 1 ⟨0⟩ (.changeNew "next"))

/-- The handle that the other still has. -/
def handle : Proc := ⟨⟨.secondary ⟨"a", "x", "/x", "", 2⟩, "/x"⟩, "local:alice"⟩

theorem run_net {ok : Net PlainHash → Event → Prop}
    (hok : ∀ net e, Net.Undisturbed net e → ok net e) : NetRun ok net := by
  have hstart : ∀ net p inv, ok net (.start p inv) := fun net p inv => hok _ _ trivial
  have hsnap : ∀ net p log copy message, ok net (.act p log (.snap copy message)) :=
    fun net p log copy message => hok _ _ fun _ _ _ _ _ _ _ _ => not_false
  have hmake : ∀ net p log disk name atPath identity valid,
      ok net (.act p log (.wtMake disk name atPath identity valid)) :=
    fun net p log disk name atPath identity valid => hok _ _ fun _ _ _ _ _ _ _ _ => not_false
  have h₀ : NetRun ok (⟨World.fresh .calm, fun _ => none⟩ : Net PlainHash) :=
    .fresh (World.fresh .calm) rfl Env.calm_fresh
  have h₁ := (h₀.event (.start 0 inMain) (hstart _ _ _)).event
    (.act 0 ⟨0⟩ (.snap (dir 97) none)) (hsnap _ _ _ _ _)
  have h₂ := (h₁.event (.start 0 inMain) (hstart _ _ _)).event
    (.act 0 ⟨0⟩ (.wtMake disk "x" (some "/x") (.ok none) rfl)) (hmake _ _ _ _ _ _ _ _)
  exact (h₂.event (.start 1 inX) (hstart _ _ _)).event (.start 2 inX) (hstart _ _ _)

theorem run_changed : NetRun (fun _ _ => True) changed :=
  .event (run_net fun _ _ _ => trivial) _ trivial

set_option maxRecDepth 1000000 in
theorem net_handle : net.procs 2 = some handle := rfl

set_option maxRecDepth 1000000 in
theorem changed_handle : changed.procs 2 = some handle := rfl

set_option maxRecDepth 1000000 in
theorem changed_manifest : changed.world.repo.refs.workspaces.lookup "a" =
    some ⟨⟨"a", "x", "/x", "aa", 2⟩, rfl⟩ := rfl

end TwoProcesses

open TwoProcesses in
/-- Before the new change is begun, both act on the change that the manifest names. -/
theorem NetRun.actsOnManifest_net :
    ActsOnManifest { net.world with log := ⟨2⟩ } handle (.snap (dir 98) none) "a" :=
  (run_net fun _ _ h => h).actsOnManifest net_handle rfl ⟨2⟩ rfl

open TwoProcesses in
set_option maxRecDepth 1000000 in
/-- A process that has found its workspace before another one begins a new change there still takes
its snapshot of the old one. -/
theorem not_actsOnManifest : ¬ ∀ (net : Net PlainHash), NetRun (fun _ _ => True) net →
    ∀ p proc, net.procs p = some proc → ∀ m, proc.ws.kind = .secondary m → ∀ log a,
      a.worksOnChange = true → ActsOnManifest { net.world with log := log } proc a m.id := by
  intro h
  obtain ⟨onDisk, hdisk, hpost⟩ := h changed run_changed 2 handle changed_handle _ rfl ⟨3⟩
    (.snap (dir 98) none) rfl
  obtain rfl := Option.some.inj (changed_manifest.symm.trans hdisk)
  have hrun : ∃ out w', Act.perform handle.ws handle.principal (.snap (dir 98) none)
      { changed.world with log := ⟨3⟩ } = .ok (.snapped out) w' ∧ out.change.id = "" :=
    ⟨_, _, rfl, rfl⟩
  obtain ⟨out, w', hok, hid⟩ := hrun
  have hbased : out.change.id = "aa" := (Post.ok hpost hok).1
  rw [hid] at hbased
  revert hbased
  decide

end Tig
