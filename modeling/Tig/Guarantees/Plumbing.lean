import Tig.Guarantees.CloneWorkspaces
import Tig.System.Worksites

set_option relaxedAutoImplicit false
set_option autoImplicit false

/-!
# What belongs to workspaces in snapshots

A snapshot records what a scan sees. The scan skips the directories of the repository and of the
default worktrees by name; it skips neither the marker of a secondary workspace nor a workspace that
lies elsewhere below the directory.

## Main definitions

* `Tig.FreeOfPlumbing` — snapshots without what belongs to workspaces.
* `Tig.SeesNoPlumbing` — directories in which a scan sees nothing of that.
* `Tig.NoPlumbing` — what the snapshots of a run are to be like.

## Main results

* `Tig.freeOfPlumbing_iff` — a recorded snapshot is free of it exactly when the scan saw nothing.
* `Tig.WorkRun.noPlumbing` — runs in which no scan sees any of it.
-/

namespace Tig

open Program

variable {H : Type} [LinearOrder H] [Format H]

/-- The names that belong to the repository and to workspaces. -/
def plumbing : List String := [TIG_DIR, DEFAULT_WORKTREE_DIR, MARKER_FILE]

/-- From the directory of `ws`, the path leads to that of another workspace: the main one, or one
that is registered. -/
def LeadsToWorkspace (fs : FileSystem) (r : Refs H) (ws : Workspace) (rel : List String) : Prop :=
  rel ≠ [] ∧ (fs.locate ws.repoWorkdir = fs.locate ws.workdir ++ rel ∨
    ∃ id m, r.workspaces.lookup id = some m ∧
      fs.locate m.1.location = fs.locate ws.workdir ++ rel)

/-- The snapshot of `ws` has no entry at its root that belongs to a workspace, and no file that
lies inside another workspace. -/
def FreeOfPlumbing (fs : FileSystem) (r : Refs H) (ws : Workspace) (s : ObjectStore H)
    (snapshot : H) : Prop :=
  ∃ (snap : Snapshot H) (tree : Tree H), s.load snapshot = .ok snap ∧ s.load snap.tree = .ok tree ∧
    (∀ e ∈ tree.entries, e.name ∉ plumbing) ∧
    ∀ rel path e, LeadsToWorkspace fs r ws rel → entryAt s snap.tree (rel ++ path) = some e →
      e.kind = .tree

/-- In the directory of `ws` a scan sees no marker, and no file that lies inside another
workspace. -/
def SeesNoPlumbing (fs : FileSystem) (r : Refs H) (ws : Workspace) (ignore : List String)
    (copy : WorkingCopy) : Prop :=
  findChild ignore MARKER_FILE copy = none ∧
    ∀ rel path node, LeadsToWorkspace fs r ws rel → nodeAt ignore copy (rel ++ path) = some node →
      ∃ children, node = .dir children

/-! ## One snapshot -/

section Snapshot

variable {fs : FileSystem} {r : Refs H} {ws : Workspace} {s : ObjectStore H} {ignore : List String}
  {copy : WorkingCopy} {tree : Tree H}

omit [LinearOrder H] in
/-- Only directories are recorded as trees. -/
theorem kind_of_record {name : String} {node : Node} {e : TreeEntry H}
    (h : node.record ignore name = some e) : e.kind = .tree ↔ ∃ children, node = .dir children := by
  cases node with
  | dir children =>
    rw [Node.record, Option.map_eq_some_iff] at h
    obtain ⟨sub, -, rfl⟩ := h
    exact ⟨fun _ => ⟨children, rfl⟩, fun _ => rfl⟩
  | file bytes executable =>
    obtain rfl := Option.some.inj h
    simp
  | symlink target =>
    obtain rfl := Option.some.inj h
    simp
  | other kind => cases h

omit [LinearOrder H] in
/-- What a scan that was recorded sees at a path has been recorded. -/
theorem recorded_of_nodeAt {copy : WorkingCopy} {tree : Tree H} {path : List String} {node : Node}
    (htree : recordTree ignore copy = some tree) (hnode : nodeAt ignore copy path = some node) :
    ∃ e : TreeEntry H, node.record ignore (path.getLastD "") = some e := by
  induction path generalizing copy tree with
  | nil => cases hnode
  | cons name rest ih =>
    cases rest with
    | nil => exact recorded_of_findChild htree hnode
    | cons next rest =>
      rw [nodeAt] at hnode
      cases hf : findChild ignore name copy with
      | none =>
        rw [hf] at hnode
        cases hnode
      | some child =>
        rw [hf] at hnode
        cases child with
        | dir children =>
          obtain ⟨entry, hentry⟩ := recorded_of_findChild htree hf
          rw [Node.record, Option.map_eq_some_iff] at hentry
          obtain ⟨sub, hsub, -⟩ := hentry
          exact ih hsub hnode
        | file bytes executable => cases hnode
        | symlink target => cases hnode
        | other kind => cases hnode

/-- **A recorded snapshot** is free of what belongs to workspaces exactly when the scan saw none
of it. -/
theorem freeOfPlumbing_iff {snapshot : H} {snap : Snapshot H} (hload : s.load snapshot = .ok snap)
    (htree : recordTree ignore copy = some tree) (hroot : snap.tree = (encode H tree).hash H)
    (hs : CopyStoredIn s ignore copy) (hignore : defaultIgnore ⊆ ignore) :
    FreeOfPlumbing fs r ws s snapshot ↔ SeesNoPlumbing fs r ws ignore copy := by
  have htreeLoad : s.load snap.tree = .ok tree := hroot ▸ hs.2 tree htree
  have hentry := entryAt_recordTree htree hs
  rw [← hroot] at hentry
  constructor
  · rintro ⟨snap', tree', hsnap', htree', hnames, hfiles⟩
    obtain rfl := Except.ok.inj (hload.symm.trans hsnap')
    obtain rfl := Except.ok.inj (htreeLoad.symm.trans htree')
    refine ⟨?_, fun rel path node hrel hnode => ?_⟩
    · by_contra hmarker
      obtain ⟨node, hnode⟩ := Option.ne_none_iff_exists'.mp hmarker
      obtain ⟨e, he⟩ := recorded_of_findChild htree hnode
      have hget := get_recordChildren htree MARKER_FILE
      rw [hnode] at hget
      dsimp only at hget
      rw [he] at hget
      have hmem := (findEntry_eq_some (recordChildren_sorted htree List.Pairwise.nil)).mp hget
      apply hnames e hmem.1
      rw [hmem.2]
      decide
    · obtain ⟨e, he⟩ := recorded_of_nodeAt htree hnode
      refine (kind_of_record he).mp (hfiles rel path e hrel ?_)
      rw [hentry, hnode]
      exact he
  · rintro ⟨hmarker, hfiles⟩
    refine ⟨snap, tree, hload, htreeLoad, fun e he hplumbing => ?_, fun rel path e hrel he => ?_⟩
    · obtain ⟨node, hnode, -⟩ := child_of_mem htree he
      have hnot := not_ignored_of_findChild hnode
      simp only [plumbing, List.mem_cons, List.not_mem_nil, or_false] at hplumbing
      rcases hplumbing with h | h | h
      · exact hnot (hignore (by rw [h]; decide))
      · exact hnot (hignore (by rw [h]; decide))
      · rw [h, hmarker] at hnode
        cases hnode
    · rw [hentry, Option.bind_eq_some_iff] at he
      obtain ⟨node, hnode, hrecord⟩ := he
      exact (kind_of_record hrecord).mpr (hfiles rel path node hrel hnode)

end Snapshot

/-! ## The marker of a new workspace -/

section Marker

variable {fs : FileSystem} {σ : Site H}

/-- Writing a marker leaves one. -/
theorem writeMarker_leaves {bytes : Bytes} {dir : WorkingCopy} :
    Post (writeMarker bytes) dir (fun _ dir' => ∃ node, childOf (Utf8.encode MARKER_FILE) dir' =
      some node) (fun _ _ => True) := by
  rw [writeMarker, post_bind, post_lookUp]
  split
  · trivial
  · rw [post_setChild]
    exact ⟨_, (childOf_putChild _ _ _ _).trans (if_pos rfl)⟩

/-- A workspace that was made has a marker. -/
theorem cmdWtMakeOn_leaves_marker {inv : Invocation} {name : String} {atPath : Option String}
    {identity : Except Error (Option UnsealFn)} :
    Post (cmdWtMakeOn fs inv name atPath identity : SiteM H _) σ
      (fun m σ' => ∃ files, dirAt σ'.copy (fs.locate m.location) = some files ∧
        ∃ node, childOf (Utf8.encode MARKER_FILE) files = some node)
      (fun _ _ => True) := by
  rw [cmdWtMakeOn, post_ite]
  refine ⟨fun _ => trivial, fun _ => ?_⟩
  refine Post.skip fun source w₁ => Post.skip fun _ w₂ => Post.skip fun change w₃ => ?_
  dsimp only
  rw [post_bind, post_get, post_ite]
  refine ⟨fun _ => trivial, fun _ => Post.skip fun _ w₄ => ?_⟩
  rw [post_bind, post_fromExcept]
  refine ⟨fun unsealer _ => ?_, fun _ _ => trivial⟩
  rw [post_bind]
  refine .of_cases (fun _ σ₅ _ => ?_) (fun _ _ _ => trivial)
  rw [registerWorkspaceOn]
  refine Post.skip fun wid w₆ => Post.skip fun now w₇ => Post.skip fun _ w₈ =>
    Post.skip fun _ w₉ => Post.skip fun _ w₁₀ => ?_
  rw [post_bind, post_onDisk]
  refine .of_cases (fun _ disk hmarker => ?_) (fun _ _ _ => trivial)
  refine Post.skip fun _ w₁₁ => Post.skip fun _ w₁₂ => ?_
  obtain ⟨sub, new, hsub, hwrite, rfl⟩ := within_ok hmarker
  exact ⟨new, dirAt_setDirAt_self hsub new, writeMarker_leaves.ok hwrite⟩

omit [LinearOrder H] [Format H] in
/-- What lies in a directory is seen by a scan, unless it is ignored. -/
theorem findChild_ne_none {ignore : List String} {name : String} {node : Node} {dir : WorkingCopy}
    (h : childOf (Utf8.encode name) dir = some node) (hn : name ∉ ignore) :
    findChild ignore name dir ≠ none := by
  induction dir with
  | nil => cases h
  | cons child rest ih =>
    obtain ⟨bytes, other⟩ := child
    rw [findChild]
    rw [childOf] at h
    split_ifs at h with hb
    · subst hb
      rw [if_pos ⟨Utf8.decode_encode name, hn⟩]
      simp
    · intro hnone
      exact ih h (Option.or_eq_none_iff.mp hnone).1

end Marker

/-! ## Runs -/

/-- A scan of this step, if it is a snapshot, sees nothing that belongs to workspaces. -/
def WorkEvent.SeesNoPlumbing (fs : FileSystem) (e : WorkEvent H) : Prop :=
  ∀ inv opts ws w copy, e.action = .snap inv opts →
    discoverWorkspace inv.repoWorkdir inv.place e.before.world = .ok ws w →
    dirAt e.before.copy (fs.locate ws.workdir) = some copy →
    Tig.SeesNoPlumbing fs e.before.world.repo.refs ws opts.ignore copy

/-- Where `make` makes a workspace without an identity from a checkout of its change, a plain
snapshot `snap` of the new workspace finds nothing new. -/
def UnchangedAfterMake (fs : FileSystem) (make snap : WorkEvent H) : Prop :=
  ∀ inv name atPath m σ source w donor, make.action = .wtMake inv name atPath (.ok none) →
    cmdWtMakeOn fs inv name atPath (.ok none) make.before = .ok m σ →
    discoverWorkspace inv.repoWorkdir inv.place make.before.world = .ok source w →
    dirAt make.before.copy (fs.locate source.workdir) = some donor →
    IsCheckout fs make.before m (userFiles donor) →
    ∀ inv' opts ws w', snap.action = .snap inv' opts → opts.message = none → opts.force = false →
      opts.extraIgnores = [] →
      discoverWorkspace inv'.repoWorkdir inv'.place snap.before.world = .ok ws w' →
      ws.workdir = m.location →
      ∃ change σ', snap.action.perform fs snap.before = .ok (.snapped ws (.unchanged change)) σ'

/-- In the run, no recorded snapshot holds what belongs to workspaces, and a snapshot right after
a workspace was made from a checkout finds nothing new. -/
structure NoPlumbing (fs : FileSystem) (es : List (WorkEvent H)) (σ : Site H) : Prop where
  free : ∀ e ∈ es, ∀ ws h tree change fresh σ',
    e.action.perform fs e.before = .ok (.snapped ws (.snapped h tree change fresh)) σ' →
    FreeOfPlumbing fs e.before.world.repo.refs ws σ.world.repo.objects h
  unchanged : ∀ make snap, [snap, make] <:+: es → UnchangedAfterMake fs make snap

section Run

variable {fs : FileSystem} {es : List (WorkEvent H)} {σ : Site H}

/-- Only snapshots return snapshots. -/
theorem snapOn_of_perform {action : WorkAction H} {ws : Workspace} {out : SnapOutcome H}
    {σ' : Site H} (h : action.perform fs σ = .ok (.snapped ws out) σ') :
    ∃ inv opts, action = .snap inv opts ∧ snapOn fs inv opts σ = .ok (ws, out) σ' := by
  have hpost : Post (action.perform fs) σ (fun r σ' => ∀ ws out, r = .snapped ws out →
      ∃ inv opts, action = .snap inv opts ∧ snapOn fs inv opts σ = .ok (ws, out) σ')
      (fun _ _ => True) := by
    cases action with
    | wtMake inv name atPath identity =>
      show Post (_ >>= _) _ _ _
      rw [post_bind]
      exact .of_cases (fun _ _ _ _ _ h => by cases h) (fun _ _ _ => trivial)
    | edit disk => exact fun _ _ h => by cases h
    | snap inv opts =>
      show Post (_ >>= _) _ _ _
      rw [post_bind]
      refine .of_cases (fun a σ₁ hrun ws out h => ?_) (fun _ _ _ => trivial)
      obtain ⟨ws', out'⟩ := a
      cases h
      exact ⟨inv, opts, rfl, hrun⟩
    | restore inv targetSnapshot currentSnapshot opts =>
      show Post (_ >>= _) _ _ _
      rw [post_bind]
      exact .of_cases (fun _ _ _ _ _ h => by cases h) (fun _ _ _ => trivial)
  exact hpost.ok h ws out rfl

/-- **A step that records a snapshot** records what the scan saw: in every store that has grown
since, the snapshot is free of what belongs to workspaces exactly when the scan saw none of it. -/
theorem WorkEvent.freeOfPlumbing_iff [LawfulFormat H] {e : WorkEvent H} {ws : Workspace}
    {h tree : H} {change : Change H} {fresh : Bool} {σ' : Site H}
    (hi : e.before.world.repo.objects.Intact) (hgrows : (e.after fs).world.Grows σ.world)
    (hrun : e.action.perform fs e.before = .ok (.snapped ws (.snapped h tree change fresh)) σ') :
    FreeOfPlumbing fs e.before.world.repo.refs ws σ.world.repo.objects h ↔
      e.SeesNoPlumbing fs := by
  have hafter : e.after fs = σ' := by
    rw [WorkEvent.after, final, hrun]
  rw [hafter] at hgrows
  obtain ⟨inv, opts, haction, hsnap⟩ := snapOn_of_perform hrun
  obtain ⟨w, copy, hws, hcopy, hout⟩ := snapOn_spec.ok hsnap
  obtain ⟨t, snap, htree, hroot, hstored⟩ := hout h tree change fresh rfl
  obtain ⟨hload, hcopied⟩ := hstored hi
  have hone : FreeOfPlumbing fs e.before.world.repo.refs ws σ.world.repo.objects h ↔
      Tig.SeesNoPlumbing fs e.before.world.repo.refs ws opts.ignore copy :=
    Tig.freeOfPlumbing_iff (hgrows.le.load hload) htree hroot
      (Node.StoredIn.mono hgrows.le _ hcopied) (List.subset_append_left _ _)
  rw [hone]
  constructor
  · intro hsees inv' opts' ws' w' copy' haction' hws' hcopy'
    cases haction.symm.trans haction'
    cases hws.symm.trans hws'
    cases hcopy.symm.trans hcopy'
    exact hsees
  · exact fun hsees => hsees inv opts ws w copy haction hws hcopy

/-- A step starts from what the one before left. -/
theorem WorkRun.before_eq_after (hrun : WorkRun fs es σ) {make snap : WorkEvent H}
    (h : [snap, make] <:+: es) : snap.before = make.after fs := by
  induction hrun with
  | start σ hi =>
    cases List.infix_nil.mp h
  | @step es σ hrun action ih =>
    rcases List.infix_cons_iff.mp h with hpre | hin
    · obtain ⟨rfl, hrest⟩ := List.cons_prefix_cons.mp hpre
      cases hrun with
      | start σ hi => cases List.prefix_nil.mp hrest
      | step hrun action' =>
        obtain ⟨rfl, -⟩ := List.cons_prefix_cons.mp hrest
        rfl
    · exact ih hin

/-- Right after a workspace was made, a scan of it sees the marker. -/
theorem not_seesNoPlumbing_after_make {make snap : WorkEvent H} {inv inv' : Invocation}
    {name : String} {atPath : Option String} {identity : Except Error (Option UnsealFn)}
    {m : WorkspaceManifest} {σ' : Site H} {opts : SnapOptions} {ws : Workspace} {w : World H}
    (hnext : snap.before = make.after fs)
    (hmake : make.action = .wtMake inv name atPath identity)
    (hrun : cmdWtMakeOn fs inv name atPath identity make.before = .ok m σ')
    (hsnap : snap.action = .snap inv' opts) (hextra : opts.extraIgnores = [])
    (hws : discoverWorkspace inv'.repoWorkdir inv'.place snap.before.world = .ok ws w)
    (hplace : ws.workdir = m.location) : ¬ snap.SeesNoPlumbing fs := by
  intro hsees
  have hperform : make.action.perform fs make.before = .ok (.made m) σ' := by
    rw [hmake]
    show EStateM.bind _ _ _ = _
    unfold EStateM.bind
    rw [hrun]
    rfl
  have hafter : make.after fs = σ' := by
    rw [WorkEvent.after, final, hperform]
  obtain ⟨files, hfiles, node, hnode⟩ := cmdWtMakeOn_leaves_marker.ok hrun
  rw [← hplace, ← hafter, ← hnext] at hfiles
  have hnone := (hsees inv' opts ws w files hsnap hws hfiles).1
  refine findChild_ne_none hnode ?_ hnone
  rw [SnapOptions.ignore, hextra]
  decide

end Run

/-- **Runs in which no scan sees what belongs to workspaces** record none of it. -/
theorem WorkRun.noPlumbing [LawfulFormat H] {fs : FileSystem} {es : List (WorkEvent H)}
    {σ : Site H} (h : WorkRun fs es σ) (hsees : ∀ e ∈ es, e.SeesNoPlumbing fs) :
    NoPlumbing fs es σ where
  free e he ws hash tree change fresh σ' hrun := by
    obtain ⟨hi, hgrows⟩ := h.grows.2 e he
    exact (e.freeOfPlumbing_iff hi hgrows hrun).mpr (hsees e he)
  unchanged make snap hinfix := by
    intro inv name atPath m σ' source w donor hmake hrun _ _ _ inv' opts ws w' hsnap _ _ hextra hws
      hplace
    have hmem : snap ∈ es := hinfix.subset List.mem_cons_self
    exact absurd (hsees snap hmem) (not_seesNoPlumbing_after_make (h.before_eq_after hinfix) hmake
      hrun hsnap hextra hws hplace)

/-! ## A marker in a snapshot -/

namespace CapturedMarker

open OneFile (fs inv dir location)

/-- A fresh repository, in a directory with one file. -/
def start : Site PlainHash := ⟨World.fresh .calm, [(Utf8.encode "repo", .dir (dir 97))]⟩

/-- A plain snapshot. -/
def opts : SnapOptions := { SnapOptions.default with author := "local:alice" }

/-- A snapshot of the main workspace, -/
def first : WorkEvent PlainHash := ⟨start, .snap inv opts⟩

/-- a workspace made from it, -/
def make : WorkEvent PlainHash := ⟨first.after fs, .wtMake inv "w" none (.ok none)⟩

/-- and a snapshot of that one. -/
def second : WorkEvent PlainHash :=
  ⟨make.after fs, .snap { inv with place := .marker "a" } opts⟩

theorem run : WorkRun fs [make, first] (make.after fs) :=
  .step (.step (.start start ObjectStore.intact_empty) _) _

theorem run_second : WorkRun fs [second, make, first] (second.after fs) := run.step second.action

set_option maxRecDepth 1000000 in
theorem made : ∃ m σ', cmdWtMakeOn fs inv "w" none (.ok none) make.before = .ok m σ' ∧
    m.location = location := by
  have hok : (match cmdWtMakeOn fs inv "w" none (.ok none) make.before with
      | .ok m _ => decide (m.location = location)
      | .error _ _ => false) = true := by
    decide +kernel
  cases hrun : cmdWtMakeOn fs inv "w" none (.ok none) make.before with
  | ok m σ' =>
    rw [hrun] at hok
    exact ⟨m, σ', rfl, of_decide_eq_true hok⟩
  | error e σ' =>
    rw [hrun] at hok
    cases hok

/-- Has a snapshot been recorded in the clone? -/
def snappedClone : EStateM.Result Error (Site PlainHash) (WorkResult PlainHash) → Bool
  | .ok (.snapped ws (.snapped _ _ _ _)) _ => decide (ws.workdir = location)
  | _ => false

set_option maxRecDepth 1000000 in
theorem recorded : ∃ ws h tree change fresh σ', second.action.perform fs second.before =
      .ok (.snapped ws (.snapped h tree change fresh)) σ' ∧ ws.workdir = location := by
  have hok : snappedClone (second.action.perform fs second.before) = true := by decide +kernel
  generalize second.action.perform fs second.before = r at hok ⊢
  cases r with
  | error e σ' => cases hok
  | ok out σ' =>
    cases out with
    | made m => cases hok
    | done => cases hok
    | snapped ws outcome =>
      cases outcome with
      | unchanged change => cases hok
      | snapped h tree change fresh =>
        exact ⟨ws, h, tree, change, fresh, σ', rfl, of_decide_eq_true hok⟩

end CapturedMarker

open CapturedMarker in
/-- A snapshot of a workspace that was just made holds its marker. -/
theorem snapOn_captures_marker :
    WorkRun OneFile.fs [second, make, first] (second.after OneFile.fs) ∧
      ¬ NoPlumbing OneFile.fs [second, make, first] (second.after OneFile.fs) := by
  refine ⟨run_second, fun hno => ?_⟩
  obtain ⟨m, σ₁, hmake, hlocation⟩ := made
  obtain ⟨ws, h, tree, change, fresh, σ₂, hrun, hplace⟩ := recorded
  have hmem : second ∈ [second, make, first] := List.mem_cons_self
  obtain ⟨hi, hgrows⟩ := run_second.grows.2 second hmem
  have hsees := (second.freeOfPlumbing_iff hi hgrows hrun).mp
    (hno.free second hmem ws h tree change fresh σ₂ hrun)
  have hnext : second.before = make.after OneFile.fs := by dsimp only [second]
  have hmakes : make.action = .wtMake OneFile.inv "w" none (.ok none) := by dsimp only [make]
  have hsnaps : second.action = .snap { OneFile.inv with place := .marker "a" } opts := by
    dsimp only [second]
  obtain ⟨inv', opts', haction, hsnap⟩ := snapOn_of_perform hrun
  obtain ⟨rfl, rfl⟩ := WorkAction.snap.inj (hsnaps.symm.trans haction)
  obtain ⟨w, copy, hws, -⟩ := snapOn_spec.ok hsnap
  have hplaces : ws.workdir = m.location := hplace.trans hlocation.symm
  exact not_seesNoPlumbing_after_make hnext hmakes hmake hsnaps rfl hws hplaces hsees

open CapturedMarker in
/-- A snapshot of the main workspace holds nothing of that kind, nor does making a workspace
change that. -/
theorem noPlumbing_main : NoPlumbing OneFile.fs [make, first] (make.after OneFile.fs) := by
  refine run.noPlumbing fun e he => ?_
  rcases List.mem_cons.mp he with rfl | he
  · intro inv opts ws w copy haction
    cases haction
  · obtain rfl := List.mem_singleton.mp he
    intro inv opts ws w copy haction hws hcopy
    cases haction
    cases hws
    cases hcopy
    refine ⟨by decide +kernel, fun rel path node hleads _ => ?_⟩
    rcases hleads with ⟨hne, hmain | ⟨id, m, hm, -⟩⟩
    · exact absurd (List.append_right_eq_self.mp hmain.symm) hne
    · cases hm

end Tig
