import Tig.Cli.Worktrees
import Tig.Core.Plain
import Tig.Fs.Destination

set_option relaxedAutoImplicit false
set_option autoImplicit false

/-!
# What a materialization leaves behind

The destination is made before anything is read, and nothing removes it again. So a materialization
that fails later leaves a directory behind, with everything that was written up to then.

## Main definitions

* `Tig.MaterializesWhole` — a materialization leaves nothing when it fails and lacks nothing when it
  succeeds.
* `Tig.dstDisk` — a destination on the disk of the rest of the model.

## Main results

* `Tig.materializeChangeOn_eq` — materializing there is what the commands do.
* `Tig.materializesWhole_iff` — when a materialization is all or nothing.
-/

namespace Tig

open Program

variable {H : Type} [LinearOrder H] [Format H]

/-! ## All or nothing -/

section Whole

variable {σ : Type} (disk : RenderDisk σ) (s : ObjectStore H) (opts : MaterializeOptions)

/-- The operations write the entry at `parts`. -/
def WritesEntry (parts : List String) (entry : TreeEntry H) (ops : List FsAction) : Prop :=
  match entry.kind with
  | .file => ∃ blob : Blob, s.load entry.target = .ok blob ∧ .write parts blob.bytes ∈ ops
  | .tree => .createDir parts ∈ ops
  | .symlink => ∃ (blob : Blob) (target : String), s.load entry.target = .ok blob ∧
      Utf8.decode blob.bytes = some target ∧ .symlink parts target ∈ ops
  | .sealed => ∃ (unsealer : Sealed → Bytes → Except String Bytes) (sealed : Sealed)
      (plaintext : Bytes), opts.unsealer = some unsealer ∧ s.load entry.target = .ok sealed ∧
      unsealer sealed (Utf8.encode (treePath "" parts)) = .ok plaintext ∧
      .write parts plaintext ∈ ops
  | .conflict | .submodule => True

/-- A materialization that fails leaves no destination behind; one that succeeds and may not skip
sealed entries has written every entry of the tree. -/
structure MaterializesWhole (dst : String) (depth : Nat) (snapshot : H) (st : σ) : Prop where
  nothing : ∀ e st', materializeOn disk s opts dst depth snapshot st = .error e st' →
    disk.destExists st' = false
  everything : opts.onUnsealable = .error →
    ∀ stats st', materializeOn disk s opts dst depth snapshot st = .ok stats st' →
      ∃ (snap : Snapshot H) (ops : List FsAction), s.load snapshot = .ok snap ∧
        performActions disk ops st = .ok () st' ∧
        ∀ parts entry, Listed s snap.tree parts entry → WritesEntry s opts parts entry ops

variable {disk s opts}

/-- What an entry calls for writes it, if it may not be skipped. -/
theorem EntryCalls.writes {below : H → List String → String → List FsAction → Prop}
    {parts : List String} {entry : TreeEntry H} {ops ops' : List FsAction}
    (hpolicy : opts.onUnsealable = .error)
    (h : EntryCalls s opts below parts (treePath "" parts) entry ops') (hin : ops' <:+: ops) :
    WritesEntry s opts parts entry ops := by
  unfold EntryCalls at h
  unfold WritesEntry
  cases hk : entry.kind with
  | file =>
    rw [hk] at h
    obtain ⟨blob, hblob, rfl⟩ := h
    exact ⟨blob, hblob, hin.subset List.mem_cons_self⟩
  | tree =>
    rw [hk] at h
    obtain ⟨_, -, rfl⟩ := h
    exact hin.subset List.mem_cons_self
  | symlink =>
    rw [hk] at h
    obtain ⟨blob, target, hblob, hdec, rfl⟩ := h
    exact ⟨blob, target, hblob, hdec, hin.subset List.mem_cons_self⟩
  | sealed =>
    rw [hk] at h
    obtain ⟨unsealer, sealed, hu, hsealed, ⟨plaintext, hx, rfl⟩ | ⟨_, -, hskip, -⟩⟩ := h
    · exact ⟨unsealer, sealed, plaintext, hu, hsealed, hx, hin.subset List.mem_cons_self⟩
    · rw [hpolicy] at hskip
      cases hskip
  | conflict => trivial
  | submodule => trivial

/-- A materialization that succeeds has written every entry of the tree. -/
theorem SnapshotCalls.writes {depth : Nat} {snapshot : H} {ops : List FsAction}
    (hpolicy : opts.onUnsealable = .error) (h : SnapshotCalls s opts depth snapshot ops) :
    ∃ snap : Snapshot H, s.load snapshot = .ok snap ∧
      ∀ parts entry, Listed s snap.tree parts entry → WritesEntry s opts parts entry ops := by
  obtain ⟨snap, ops', hsnap, hcalls, rfl⟩ := h
  refine ⟨snap, hsnap, fun parts entry hlisted => ?_⟩
  obtain ⟨_, ops'', hin, hentry⟩ := hcalls.listed hlisted
  exact EntryCalls.writes hpolicy hentry (hin.trans (List.suffix_cons _ _).isInfix)

/-- **A materialization is all or nothing** exactly when the destination cannot even be made, or when
nothing can fail after that: every object of the snapshot is there to be written, and the disk
performs every operation that this calls for. -/
theorem materializesWhole_iff {made : σ → Prop} (hdisk : disk.Lawful made) {dst : String}
    {depth : Nat} {snapshot : H} {st : σ} (hfree : disk.destExists st = false) :
    MaterializesWhole disk s opts dst depth snapshot st ↔
      (∃ e st', disk.perform (.createDirAll []) st = .error e st') ∨
      ∃ ops, SnapshotCalls s opts depth snapshot ops ∧
        ∃ st', performActions disk ops st = .ok () st' := by
  have hspec : Post (materializeOn disk s opts dst depth snapshot) st _ _ :=
    materializeOn_spec hdisk hfree
  constructor
  · intro h
    cases hrun : materializeOn disk s opts dst depth snapshot st with
    | ok stats st' =>
      obtain ⟨ops, hops, hperform⟩ := hspec.ok hrun
      exact Or.inr ⟨ops, hops, st', hperform⟩
    | error e st' =>
      rcases hspec.error hrun with hcreate | ⟨-, hmade, -⟩
      · exact Or.inl ⟨e, st', hcreate⟩
      · have hgone := h.nothing e st' hrun
        rw [hdisk.destExists_of_made st' hmade] at hgone
        cases hgone
  · intro h
    constructor
    · intro e st' hrun
      rcases hspec.error hrun with hcreate | ⟨⟨st₁, hst₁⟩, -, hno⟩
      · exact (hdisk.create st hfree).error hcreate
      · rcases h with ⟨e', st'', hcreate⟩ | ⟨ops, hops, st'', hperform⟩
        · rw [hst₁] at hcreate
          cases hcreate
        · exact absurd hperform (hno ops hops st'')
    · intro hpolicy stats st' hrun
      obtain ⟨ops, hops, hperform⟩ := hspec.ok hrun
      obtain ⟨snap, hsnap, hwrites⟩ := hops.writes hpolicy
      exact ⟨snap, ops, hsnap, hperform, hwrites⟩

end Whole

/-! ## The disk of the commands -/

section Disk

variable {α β : Type} {dir sub : WorkingCopy} {path : List String}

/-- Work in a directory depends on what it does there. -/
theorem inside_congr {name : String} {children : WorkingCopy} {x y : DirM α}
    (h : childOf (Utf8.encode name) dir = some (.dir children)) (hxy : x children = y children) :
    inside name x dir = inside name y dir := by
  unfold inside
  rw [h]
  dsimp only
  rw [hxy]

/-- Doing nothing in a directory that is there is doing nothing. -/
theorem within_pure (h : dirAt dir path = some sub) :
    within (Pure.pure () : DirM Unit) path dir = .ok () dir := by
  induction path generalizing dir with
  | nil => rfl
  | cons name path ih =>
    obtain ⟨children, hc, hrest⟩ := dirAt_cons h
    exact (inside_ok hc (ih hrest)).trans (by rw [putChild_self hc])

/-- Two pieces of work at one path are one. -/
theorem within_bind {x : DirM α} (y : α → DirM β) (h : dirAt dir path = some sub) :
    within (x >>= y) path dir = (within x path >>= fun a => within (y a) path) dir := by
  induction path generalizing dir with
  | nil => rfl
  | cons name path ih =>
    obtain ⟨children, hc, hrest⟩ := dirAt_cons h
    exact (inside_congr hc (ih hrest)).trans (inside_bind _ hc)

/-- Making a directory that is there changes nothing. -/
theorem createDirAll_of_dirAt (h : dirAt dir path = some sub) :
    createDirAll path dir = .ok () dir := by
  induction path generalizing dir with
  | nil => rfl
  | cons name path ih =>
    obtain ⟨children, hc, hrest⟩ := dirAt_cons h
    have hinside : inside name (createDirAll path) dir = .ok () dir :=
      (inside_ok hc (ih hrest)).trans (by rw [putChild_self hc])
    have hpost : Post (createDirAll (name :: path)) dir (fun _ d => d = dir) (fun _ _ => False) := by
      rw [createDirAll, post_bind, post_lookUp, hc]
      refine .of_cases (fun _ d hd => ?_) (fun e d hd => ?_)
      · cases hinside.symm.trans hd
        rfl
      · cases hinside.symm.trans hd
    obtain ⟨_, d, hrun, rfl⟩ := hpost.exists_ok
    exact hrun

/-- A directory that cannot be made does not exist. -/
theorem createDirAll_error (path : List String) (dir : WorkingCopy)
    (hfree : existsAt dir path = false) :
    Post (createDirAll path) dir (fun _ _ => True) (fun _ dir' => existsAt dir' path = false) := by
  induction path generalizing dir with
  | nil => trivial
  | cons name path ih =>
    rw [createDirAll, post_bind, post_lookUp]
    have hput : ∀ c : WorkingCopy, existsAt (putChild (Utf8.encode name) (.dir c) dir)
        (name :: path) = existsAt c path := fun c => by
      rw [existsAt, childOf_putChild, if_pos rfl]
    cases hc : childOf (Utf8.encode name) dir with
    | none =>
      dsimp only
      rw [post_bind, post_setChild]
      have hnew : childOf (Utf8.encode name) (putChild (Utf8.encode name) (.dir []) dir) =
          some (.dir []) := (childOf_putChild _ _ _ _).trans (if_pos rfl)
      refine Post.inside hnew ?_
      simp only [putChild_putChild, hput]
      cases path with
      | nil => trivial
      | cons next path => exact ih [] rfl
    | some node =>
      cases node with
      | dir children =>
        refine Post.inside hc ?_
        simp only [hput]
        refine ih children ?_
        rwa [existsAt, hc] at hfree
      | file bytes executable => exact hfree
      | symlink target => exact hfree
      | other kind => exact hfree

end Disk

/-- The destination at `dst` on the disk of the commands. -/
def dstDisk (special : Node → Option Error) (dst : List String) : RenderDisk WorkingCopy where
  destExists root := existsAt root dst
  perform
    | .createDirAll [] => createDirAll dst
    | a => within (a.perform special) dst

/-- There is a directory at the destination. -/
def HasDir (dst : List String) (root : WorkingCopy) : Prop := ∃ sub, dirAt root dst = some sub

theorem dstDisk_lawful (special : Node → Option Error) (dst : List String) :
    (dstDisk special dst).Lawful (HasDir dst) where
  destExists_of_made root := by
    rintro ⟨sub, hsub⟩
    have := existsAt_append hsub []
    rwa [List.append_nil] at this
  create root hfree := by
    refine ((createDirAll_spec dst root).and (createDirAll_error dst root hfree)).mono ?_ ?_
    · rintro _ root' ⟨hmade, -⟩
      obtain ⟨sub, hsub, -⟩ := hmade.made
      exact ⟨sub, hsub⟩
    · rintro _ root' ⟨-, h⟩
      exact h
  keep a root := by
    rintro ⟨sub, hsub⟩
    have hwithin : ∀ x : DirM Unit, Post (within x dst) root (fun _ root' => HasDir dst root')
        (fun _ root' => HasDir dst root') := fun x =>
      Post.within hsub (.of_cases (fun _ new _ => ⟨new, dirAt_setDirAt_self hsub new⟩)
        (fun _ new _ => ⟨new, dirAt_setDirAt_self hsub new⟩))
    cases a with
    | createDirAll path =>
      cases path with
      | nil =>
        unfold Post
        rw [show (dstDisk special dst).perform (.createDirAll []) root = .ok () root from
          createDirAll_of_dirAt hsub]
        exact ⟨sub, hsub⟩
      | cons name path => exact hwithin _
    | createDir path => exact hwithin _
    | write path bytes => exact hwithin _
    | setExecutable path => exact hwithin _
    | symlink path target => exact hwithin _

/-- Operations at a destination that is there are operations in the directory. -/
theorem performActions_dstDisk {special : Node → Option Error} {dst : List String}
    {root : WorkingCopy} {as : List FsAction} (has : ∀ a ∈ as, a.Within) (h : HasDir dst root) :
    performActions (dstDisk special dst) as root = within (performAll special as) dst root := by
  induction as generalizing root with
  | nil =>
    obtain ⟨sub, hsub⟩ := h
    exact (within_pure hsub).symm
  | cons a as ih =>
    obtain ⟨sub, hsub⟩ := h
    have hperform : (dstDisk special dst).perform a = within (a.perform special) dst := by
      cases a with
      | createDirAll path => exact (has _ List.mem_cons_self).elim
      | createDir path => rfl
      | write path bytes => rfl
      | setExecutable path => rfl
      | symlink path target => rfl
    rw [performActions, performAll, within_bind _ hsub, hperform]
    change EStateM.bind _ _ root = EStateM.bind _ _ root
    unfold EStateM.bind
    have hkeep := (dstDisk_lawful special dst).keep a root ⟨sub, hsub⟩
    rw [hperform] at hkeep
    cases hrun : within (a.perform special) dst root with
    | error e root' => rfl
    | ok u root' => exact ih (fun b hb => has b (List.mem_cons_of_mem _ hb)) (hkeep.ok hrun)

/-- What a materialization issues is to make the destination, and operations below it. -/
theorem actions_materializeChangeInto (s : ObjectStore H) (opts : MaterializeOptions) (dst : String)
    (depth : Nat) (snapshot : H) :
    Post (materializeChangeInto s opts dst depth false snapshot) ⟨[], ⟨0, 0, 0, 0⟩⟩
      (fun _ r => ∃ as, (∀ a ∈ as, a.Within) ∧ r.actions = .createDirAll [] :: as)
      (fun _ r => ∃ as, (∀ a ∈ as, a.Within) ∧ r.actions = .createDirAll [] :: as) := by
  rw [materializeChangeInto, if_neg (by decide)]
  simp only
  rw [post_bind, act, post_modify, post_bind, post_fromExcept]
  refine ⟨fun snap _ => ?_, fun e _ => ⟨[], by simp, rfl⟩⟩
  obtain ⟨as, fault, has, hissues, -⟩ : Carries (fun _ => none) []
      (renderTree s opts dst depth snap.tree [] "")
      (placeTree s opts (fun _ => none) dst depth snap.tree [] "") := .tree depth _ [] ""
  obtain ⟨stats, hrun⟩ := hissues ⟨[.createDirAll []], ⟨0, 0, 0, 0⟩⟩
  have hactions : as.map (fun a => ([] : List String).foldr FsAction.below a) = as := List.map_id as
  rw [hactions] at hrun
  have hpost : Post (renderTree s opts dst depth snap.tree [] "")
      ⟨[.createDirAll []], ⟨0, 0, 0, 0⟩⟩
      (fun _ r => ∃ as, (∀ a ∈ as, a.Within) ∧ r.actions = .createDirAll [] :: as)
      (fun _ r => ∃ as, (∀ a ∈ as, a.Within) ∧ r.actions = .createDirAll [] :: as) := by
    unfold Post
    rw [hrun]
    cases fault with
    | none => exact ⟨as, has, rfl⟩
    | some e => exact ⟨as, has, rfl⟩
  rw [post_bind]
  exact hpost.mono (fun _ _ h => h) (fun _ _ h => h)

/-- What the commands do to the disk once they have walked the tree. -/
def walked (fs : FileSystem) (shown : String) :
    EStateM.Result Error RenderState RenderStats → DirM Unit
  | .ok _ st => do
    createDirAll (fs.locate shown)
    within (performAll fs.special st.actions) (fs.locate shown)
  | .error e st =>
    if st.actions = [] then throw e
    else do
      createDirAll (fs.locate shown)
      within (performAll fs.special st.actions) (fs.locate shown)
      throw e

/-- **Materializing at a destination on the disk** is what the commands do. -/
theorem materializeChangeOn_eq (fs : FileSystem) (s : ObjectStore H) (opts : MaterializeOptions)
    (shown : String) (snapshot : H) (root : WorkingCopy) :
    materializeChangeOn fs s opts shown snapshot root =
      (do
        let _ ← materializeOn (dstDisk fs.special (fs.locate shown)) s opts shown fs.stackDepth
          snapshot
        return ()) root := by
  have hissued : ∀ as : List FsAction, (∀ a ∈ as, a.Within) →
      performActions (dstDisk fs.special (fs.locate shown)) (.createDirAll [] :: as) root =
        (do
          createDirAll (fs.locate shown)
          within (performAll fs.special (.createDirAll [] :: as)) (fs.locate shown)) root := by
    intro as has
    change EStateM.bind (createDirAll (fs.locate shown)) _ root =
      EStateM.bind (createDirAll (fs.locate shown)) _ root
    unfold EStateM.bind
    have hmade := createDirAll_spec (fs.locate shown) root
    cases hcreate : createDirAll (fs.locate shown) root with
    | error e root' => rfl
    | ok u root' =>
      obtain ⟨sub, hsub, -⟩ := (hmade.ok hcreate).made
      exact performActions_dstDisk has ⟨sub, hsub⟩
  -- both are a case distinction on what the walk comes to
  have hon : materializeChangeOn fs s opts shown snapshot root =
      walked fs shown (materializeChangeInto s opts shown fs.stackDepth
        (existsAt root (fs.locate shown)) snapshot ⟨[], ⟨0, 0, 0, 0⟩⟩) root := by
    simp only [materializeChangeOn, bind, EStateM.bind, get, getThe, MonadStateOf.get]
    delta EStateM.get
    dsimp only [EStateM.bind]
    cases materializeChangeInto s opts shown fs.stackDepth (existsAt root (fs.locate shown)) snapshot
        ⟨[], ⟨0, 0, 0, 0⟩⟩ with
    | ok stats r => rfl
    | error e r =>
      dsimp only [walked]
      split_ifs <;> rfl
  have hexists : (dstDisk fs.special (fs.locate shown)).destExists root =
      existsAt root (fs.locate shown) := rfl
  rw [hon]
  simp only [materializeOn, bind, EStateM.bind, hexists]
  cases hfree : existsAt root (fs.locate shown) with
  | true => rfl
  | false =>
    have hactions := actions_materializeChangeInto s opts shown fs.stackDepth snapshot
    cases hrun : materializeChangeInto s opts shown fs.stackDepth false snapshot
        ⟨[], ⟨0, 0, 0, 0⟩⟩ with
    | ok stats r =>
      obtain ⟨as, has, hr⟩ := hactions.ok hrun
      have hsame := hissued as has
      dsimp only [walked]
      rw [hr, hsame]
      simp only [bind, EStateM.bind]
      cases createDirAll (fs.locate shown) root with
      | error e root' => rfl
      | ok u root' =>
        dsimp only
        cases within (performAll fs.special (.createDirAll [] :: as)) (fs.locate shown) root' <;> rfl
    | error e r =>
      obtain ⟨as, has, hr⟩ := hactions.error hrun
      have hsame := hissued as has
      dsimp only [walked]
      rw [hr, if_neg (List.cons_ne_nil _ _), hsame]
      simp only [bind, EStateM.bind]
      cases createDirAll (fs.locate shown) root with
      | error e root' => rfl
      | ok u root' =>
        dsimp only
        cases within (performAll fs.special (.createDirAll [] :: as)) (fs.locate shown) root' <;> rfl

/-! ## Two sealed files -/

namespace TwoSealed

/-- A payload that is bound to a path. -/
def payload (path : String) : Sealed :=
  ⟨.X25519XChaCha20Poly1305, [], [], [9], [4], Utf8.encode path⟩

/-- A tree with a payload at each of two paths. -/
def tree : Tree PlainHash :=
  ⟨[⟨"a", .sealed, (encode PlainHash (payload "a")).hash PlainHash, .REGULAR, none⟩,
    ⟨"b", .sealed, (encode PlainHash (payload "b")).hash PlainHash, .REGULAR, none⟩]⟩

/-- A snapshot of the tree. -/
def snapshot : Snapshot PlainHash :=
  ⟨[], (encode PlainHash tree).hash PlainHash, "local:alice", 0, none, none⟩

def store : ObjectStore PlainHash :=
  ((((∅ : ObjectStore PlainHash).put (encode PlainHash (payload "a"))).put
    (encode PlainHash (payload "b"))).put (encode PlainHash tree)).put (encode PlainHash snapshot)

/-- What the snapshot is called. -/
def target : PlainHash := (encode PlainHash snapshot).hash PlainHash

/-- `--as` somebody who can open the payloads at the given paths. -/
def opensOnly (paths : List String) : MaterializeOptions where
  unsealer := some fun sealed aad =>
    if sealed.aad = aad ∧ aad ∈ paths.map Utf8.encode then .ok aad
    else .error "not a recipient of this sealed value"
  onUnsealable := .error

/-- The destination `/w`, on a disk that is empty. -/
def disk : RenderDisk WorkingCopy := dstDisk (fun _ => none) ["w"]

end TwoSealed

set_option maxRecDepth 1000000 in
open TwoSealed in
/-- Whoever can open both files gets both. -/
theorem materializesWhole_both :
    MaterializesWhole disk store (opensOnly ["a", "b"]) "/w" 8 target [] := by
  refine (materializesWhole_iff (dstDisk_lawful _ _) rfl).mpr (Or.inr ?_)
  refine ⟨[.createDirAll [], .write ["a"] [97], .write ["b"] [98]], ?_, _, rfl⟩
  refine ⟨snapshot, _, rfl, ⟨tree, rfl, [.write ["a"] [97]], _, ?_,
    ⟨[.write ["b"] [98]], _, ?_, rfl, rfl⟩, rfl⟩, rfl⟩
  · exact ⟨_, payload "a", rfl, rfl, Or.inl ⟨[97], by decide, rfl⟩⟩
  · exact ⟨_, payload "b", rfl, rfl, Or.inl ⟨[98], by decide, rfl⟩⟩

set_option maxRecDepth 1000000 in
open TwoSealed in
/-- Whoever can open the first file only gets an error, and the plaintext of the first stays on the
disk. -/
theorem not_materializesWhole_first :
    ¬ MaterializesWhole disk store (opensOnly ["a"]) "/w" 8 target [] ∧
    ∃ e, materializeOn disk store (opensOnly ["a"]) "/w" 8 target [] =
      .error e [(Utf8.encode "w", .dir [(Utf8.encode "a", .file [97] false)])] := by
  have hrun : materializeOn disk store (opensOnly ["a"]) "/w" 8 target [] =
      .error _ [(Utf8.encode "w", .dir [(Utf8.encode "a", .file [97] false)])] := rfl
  refine ⟨fun h => ?_, _, hrun⟩
  have hgone := h.nothing _ _ hrun
  cases hgone

end Tig
