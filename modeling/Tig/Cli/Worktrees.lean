import Tig.Cli.Commands
import Tig.Fs.Clone

set_option relaxedAutoImplicit false
set_option autoImplicit false

/-!
# Making a workspace, on the disk

`tig wt make` with what it does to the disk: it makes the new directory, fills it by a clone or a
render, and leaves a marker in it. What it does to the repository is what `cmdWtMake` does.

## Main definitions

* `Tig.FileSystem` — how paths are found on the disk.
* `Tig.cmdWtMakeOn` — the command.

## Main results

* `Tig.cmdWtMakeOn_simulates` — on the repository, the command does what `cmdWtMake` does.
-/

namespace Tig

open Program

/-- How the commands find their way on the disk: the components, from its root, of the directory
that a path leads to; what a path is made when it is resolved; what is in a marker; how writing
behind a link fails; and how deep a recursion can go. -/
structure FileSystem where
  locate : String → List String
  canonicalize : String → String
  locate_canonicalize : ∀ path, locate (canonicalize path) = locate path
  markerBytes : WorkspaceId → Bytes
  special : Node → Option Error
  stackDepth : Nat

namespace FileSystem

/-- What the disk looks like to the part of a command that works on the repository. -/
def disk (fs : FileSystem) (root : WorkingCopy) : Disk where
  present path := existsAt root (fs.locate path)
  canonicalize path := some (fs.canonicalize path)
  stackDepth := fs.stackDepth

end FileSystem

/-- Write the marker of a workspace, over whatever there is but a directory. -/
def writeMarker (bytes : Bytes) : DirM Unit := do
  match ← lookUp MARKER_FILE with
  | some (.dir _) => throw (.io "Is a directory (os error 21)")
  | _ => setChild MARKER_FILE (.file bytes false)

variable {H : Type} [LinearOrder H] [Format H]

/-- Materialize the tree of a snapshot at a path of the disk, called `shown` in messages. -/
def materializeChangeOn (fs : FileSystem) (s : ObjectStore H) (opts : MaterializeOptions)
    (shown : String) (snapshot : H) : DirM Unit := do
  let root ← get
  let dst := fs.locate shown
  match materializeChangeInto s opts shown fs.stackDepth (existsAt root dst) snapshot
      ⟨[], ⟨0, 0, 0, 0⟩⟩ with
  | .ok _ st => do
    createDirAll dst
    within (performAll fs.special st.actions) dst
  | .error e st => do
    -- nothing has been made when the destination was there
    if st.actions = [] then
      throw e
    else
      createDirAll dst
      within (performAll fs.special st.actions) dst
      throw e

/-- Put the files of the new workspace into `dest`. -/
def placeFilesOn (fs : FileSystem) (source : Workspace) (sourceChange : ChangeId) (dest : String)
    (unsealer : Option UnsealFn) : SiteM H Unit := do
  let before ← get
  let donor ← onRepo (chooseDonor (fs.disk before.copy) source sourceChange unsealer)
  onRepo (step .workdirRead)
  onDisk (createDirAll (fs.locate dest).dropLast)
  match donor with
  | some donor => do
    onRepo (step .workdirRead)
    onDisk (materializeFromWorkspace (fs.locate donor) (fs.locate dest) dest)
  | none => do
    let change ← onRepo (getChange sourceChange)
    onRepo (step .objectRead)
    let σ ← get
    onDisk (materializeChangeOn fs σ.world.repo.objects ⟨unsealer, .error⟩ dest change.1.current)

/-- Register the workspace at `dest`, and leave the marker there. -/
def registerWorkspaceOn (fs : FileSystem) (inv : Invocation) (name dest : String)
    (sourceChange : ChangeId) : SiteM H WorkspaceManifest := do
  let id ← onRepo newUlid
  let now ← onRepo currentTimestampNs
  let manifest : WorkspaceManifest := ⟨id, name, fs.canonicalize dest, sourceChange, now⟩
  onRepo openWorkspaces
  onRepo (putWorkspace manifest)
  onRepo (step .workdirRead)
  onDisk (within (writeMarker (fs.markerBytes manifest.id)) (fs.locate manifest.location))
  onRepo openLog
  let _ ← onRepo (appendOp ⟨inv.principal, .wtMake manifest.id manifest.name,
    [.workspace manifest.id none], [.ofManifest manifest]⟩)
  return manifest

/-- `tig wt make`. `identity` is what looking up the given identity comes to. -/
def cmdWtMakeOn (fs : FileSystem) (inv : Invocation) (name : String) (atPath : Option String)
    (identity : Except Error (Option UnsealFn)) : SiteM H WorkspaceManifest := do
  if isValidWorkspaceName name = false then
    throw (.cli ("invalid workspace name: " ++ debugStr name ++ " (no '/', '..', or empty)"))
  else
    let source ← onRepo (discoverWorkspace inv.repoWorkdir inv.place)
    onRepo lockForWrite
    let sourceChange ← onRepo (sourceChangeOf source)
    let dest := workspaceDest source name atPath
    let before ← get
    if existsAt before.copy (fs.locate dest) then
      throw (.cli ("destination already exists: " ++ dest))
    else
      onRepo (step .registryRead)
      let unsealer ← fromExcept identity
      placeFilesOn fs source sourceChange dest unsealer
      registerWorkspaceOn fs inv name dest sourceChange

/-! ## What the command does to the repository -/

section Places

variable {disk disk' sub : WorkingCopy} {path : List String}

/-- What there is below a directory. -/
theorem existsAt_append (h : dirAt disk path = some sub) (rest : List String) :
    existsAt disk (path ++ rest) = existsAt sub rest := by
  induction path generalizing disk with
  | nil =>
    obtain rfl := Option.some.inj h
    rfl
  | cons name path ih =>
    obtain ⟨children, hc, hrest⟩ := dirAt_cons h
    rw [List.cons_append, existsAt, hc]
    exact ih hrest

/-- Where there is nothing, making the directories above leaves nothing. -/
theorem MadeDirs.still_free (h : MadeDirs path.dropLast disk disk') (hfree : existsAt disk path = false) :
    existsAt disk' path = false := by
  obtain rfl | ⟨above, name, rfl⟩ := List.eq_nil_or_concat path
  · cases hfree
  · rw [List.concat_eq_append] at h hfree ⊢
    rw [List.dropLast_concat] at h
    obtain ⟨sub, hsub, hwas⟩ := h.made
    rw [existsAt_append hsub]
    rcases hwas with hwas | ⟨-, rfl⟩
    · rwa [existsAt_append hwas] at hfree
    · rfl

end Places

omit [LinearOrder H] [Format H] in
/-- Work on the repository leaves the disk as it is. -/
theorem copy_onRepo {α : Type} {x : RepoM H α} {σ σ' : Site H} {a : α}
    (h : onRepo x σ = .ok a σ') : σ'.copy = σ.copy := by
  have hpost : Post (onRepo x) σ (fun _ σ' => σ'.copy = σ.copy) (fun _ _ => True) := by
    rw [post_onRepo]
    exact .of_cases (fun _ _ _ => rfl) (fun _ _ _ => trivial)
  exact hpost.ok h

omit [LinearOrder H] [Format H] in
theorem copy_fromExcept {α : Type} {r : Except Error α} {σ σ' : Site H} {a : α}
    (h : (fromExcept r : SiteM H α) σ = .ok a σ') : σ'.copy = σ.copy := by
  cases r with
  | ok b =>
    cases h
    rfl
  | error e => cases h

section Simulation

variable {fs : FileSystem} {σ : Site H}

/-- A render on the disk is a render of the objects. -/
theorem tracks_materializeChangeOn {s : ObjectStore H} {opts : MaterializeOptions} {dest : String}
    {snapshot : H} {disk : Disk} (hdepth : disk.stackDepth = fs.stackDepth)
    (hfree : disk.present dest = existsAt σ.copy (fs.locate dest)) :
    Tracks (onDisk (materializeChangeOn fs s opts dest snapshot))
      (match materializeChangeInto s opts dest disk.stackDepth (disk.present dest) snapshot
          ⟨[], ⟨0, 0, 0, 0⟩⟩ with
        | .ok _ _ => return ()
        | .error e _ => throw e) σ := by
  intro u σ' hrun
  rw [hdepth, hfree]
  unfold onDisk at hrun
  cases hd : materializeChangeOn fs s opts dest snapshot σ.copy with
  | error e c =>
    rw [hd] at hrun
    cases hrun
  | ok v c =>
    rw [hd] at hrun
    cases hrun
    have hpost : Post (materializeChangeOn fs s opts dest snapshot) σ.copy
        (fun _ _ => ∃ n st, materializeChangeInto s opts dest fs.stackDepth
          (existsAt σ.copy (fs.locate dest)) snapshot ⟨[], ⟨0, 0, 0, 0⟩⟩ = .ok n st)
        (fun _ _ => True) := by
      rw [materializeChangeOn, post_bind, post_get]
      dsimp only
      cases materializeChangeInto s opts dest fs.stackDepth (existsAt σ.copy (fs.locate dest))
          snapshot ⟨[], ⟨0, 0, 0, 0⟩⟩ with
      | ok n st =>
        apply Post.of_cases
        · exact fun _ _ _ => ⟨n, st, rfl⟩
        · exact fun _ _ _ => trivial
      | error e st =>
        dsimp only
        rw [post_ite]
        refine ⟨fun _ => trivial, fun _ => ?_⟩
        rw [post_bind]
        apply Post.of_cases
        · intro _ _ _
          rw [post_bind]
          exact .of_cases (fun _ _ _ => trivial) (fun _ _ _ => trivial)
        · exact fun _ _ _ => trivial
    obtain ⟨n, st, hok⟩ := hpost.ok hd
    rw [hok]
    rfl

/-- The files are placed on the disk as they are placed without one. -/
theorem tracks_placeFilesOn {source : Workspace} {change : ChangeId} {dest : String}
    {unsealer : Option UnsealFn} {σ₀ : Site H} (hcopy : σ.copy = σ₀.copy)
    (hfree : existsAt σ.copy (fs.locate dest) = false) :
    Tracks (placeFilesOn fs source change dest unsealer)
      (placeFiles (fs.disk σ₀.copy) source change dest unsealer) σ := by
  refine .get (.bind ?_ fun donor σ₁ h₁ => ?_)
  · rw [hcopy]
    exact .onRepo _
  refine .bind (.onRepo _) fun _ σ₂ h₂ => ?_
  have hcopy₂ : σ₂.copy = σ₀.copy := by
    rw [copy_onRepo h₂, copy_onRepo h₁, hcopy]
  refine .onDisk fun _ c hc => ?_
  have hfree' : existsAt c (fs.locate dest) = false := by
    refine ((createDirAll_spec _ σ₂.copy).ok hc).still_free ?_
    rw [hcopy₂, ← hcopy]
    exact hfree
  cases donor with
  | some donor =>
    dsimp only
    have hlast : Tracks _ (step .workdirRead >>= fun _ => pure ()) { σ₂ with copy := c } :=
      .bind (.onRepo _) fun _ σ₃ _ =>
        .onDisk_last (materializeFromWorkspace (fs.locate donor) (fs.locate dest) dest)
    rw [bind_pure_unit] at hlast
    exact hlast
  | none =>
    refine .bind (.onRepo _) fun found σ₃ h₃ => ?_
    refine .bind (.onRepo _) fun _ σ₄ h₄ => ?_
    refine .get (tracks_materializeChangeOn rfl ?_)
    rw [copy_onRepo h₄, copy_onRepo h₃]
    exact (hcopy ▸ hfree).trans hfree'.symm

/-- **Making a workspace on the disk** does on the repository what making one without a disk
does. -/
theorem cmdWtMakeOn_simulates {inv : Invocation} {name : String} {atPath : Option String}
    {identity : Except Error (Option UnsealFn)} {σ σ' : Site H} {m : WorkspaceManifest}
    (h : cmdWtMakeOn fs inv name atPath identity σ = .ok m σ') :
    cmdWtMake (fs.disk σ.copy) inv name atPath identity σ.world = .ok m σ'.world := by
  suffices Tracks (cmdWtMakeOn fs inv name atPath identity)
      (cmdWtMake (fs.disk σ.copy) inv name atPath identity) σ from this m σ' h
  clear h
  unfold cmdWtMakeOn cmdWtMake
  split_ifs with hname
  · exact .throw _ _
  refine .bind (.onRepo _) fun source σ₁ h₁ => ?_
  refine .bind (.onRepo _) fun _ σ₂ h₂ => ?_
  refine .bind (.onRepo _) fun sourceChange σ₃ h₃ => .get ?_
  have hcopy : σ₃.copy = σ.copy := by
    rw [copy_onRepo h₃, copy_onRepo h₂, copy_onRepo h₁]
  rw [hcopy]
  have hthere : (fs.disk σ.copy).present (workspaceDest source name atPath) =
      existsAt σ.copy (fs.locate (workspaceDest source name atPath)) := rfl
  dsimp only
  rw [hthere]
  split_ifs with hdest
  · exact .throw _ _
  refine .bind (.onRepo _) fun _ σ₄ h₄ => ?_
  refine .bind (.fromExcept identity) fun unsealer σ₅ h₅ => ?_
  have hcopy₅ : σ₅.copy = σ.copy := by
    rw [copy_fromExcept h₅, copy_onRepo h₄, hcopy]
  refine .bind (tracks_placeFilesOn hcopy₅ ?_) fun _ σ₆ _ => ?_
  · rw [hcopy₅]
    exact Bool.eq_false_iff.mpr hdest
  refine .bind (.onRepo _) fun id σ₇ _ => ?_
  refine .bind (.onRepo _) fun now σ₈ _ => ?_
  refine .bind (.onRepo _) fun _ σ₉ _ => ?_
  refine .bind (.onRepo _) fun _ σ₁₀ _ => ?_
  refine .bind (.onRepo _) fun _ σ₁₁ _ => ?_
  refine .onDisk fun _ c _ => ?_
  refine .bind (.onRepo _) fun _ σ₁₂ _ => ?_
  exact .bind (.onRepo _) fun _ σ₁₃ _ => .pure _

end Simulation

/-! ## What the command leaves on the disk -/

section Files

variable {fs : FileSystem} {σ : Site H}

/-- Without an identity a workspace is its own donor. -/
theorem chooseDonor_self {disk : Disk} {source : Workspace} {id : ChangeId} {w : World H}
    (hcur : source.current w.repo.refs = some id) :
    Keeps (chooseDonor disk source id none) w fun donor _ => donor = some source.workdir := by
  show Keeps (pickDonor disk source id) w _
  refine Keeps.bind keeps_currentChangeId fun cur w₁ _ h => ?_
  rw [hcur] at h
  rw [if_pos h]
  exact Keeps.pure rfl

theorem keeps_sourceChangeOf_current {source : Workspace} {w : World H} :
    Keeps (sourceChangeOf source) w fun id _ => source.current w.repo.refs = some id := by
  refine Keeps.bind keeps_currentChangeId fun cur w₁ _ h => ?_
  subst h
  cases hid : source.current w.repo.refs with
  | some id => exact Keeps.pure rfl
  | none => exact Keeps.throw

/-- Writing the marker where there is none. -/
theorem writeMarker_spec {bytes : Bytes} {dir : WorkingCopy}
    (h : childOf (Utf8.encode MARKER_FILE) dir = none) :
    Post (writeMarker bytes) dir
      (fun _ dir' => dir' = putChild (Utf8.encode MARKER_FILE) (.file bytes false) dir)
      (fun _ _ => True) := by
  rw [writeMarker, post_bind, post_lookUp, h]
  exact rfl

/-- The directory of a workspace cloned from `donor`. -/
structure ClonedWorkspace (fs : FileSystem) (id : WorkspaceId) (donor files : WorkingCopy) :
    Prop where
  look : ∀ n, childOf n files = if n = Utf8.encode MARKER_FILE then
    some (.file (fs.markerBytes id) false) else childOf n (userFiles donor)
  distinct : DistinctNames files
  donor : DistinctNames (userFiles donor)

/-- The clone path of `placeFilesOn`. -/
theorem placeFilesOn_spec {source : Workspace} {id : ChangeId} {dest : String}
    {donor : WorkingCopy} (hcur : source.current σ.world.repo.refs = some id)
    (hdonor : dirAt σ.copy (fs.locate source.workdir) = some donor) :
    Post (placeFilesOn fs source id dest none) σ
      (fun _ σ' => ∃ new, dirAt σ'.copy (fs.locate dest) = some new ∧
        (∀ n, childOf n new = childOf n (userFiles donor)) ∧ DistinctNames new ∧
        DistinctNames (userFiles donor))
      (fun _ _ => True) := by
  rw [placeFilesOn, post_bind, post_get, post_bind, post_onRepo]
  refine (chooseDonor_self hcur).mono ?_ (fun _ _ _ => trivial)
  rintro _ w₁ ⟨hk₁, rfl⟩
  rw [post_bind, post_onRepo]
  refine keeps_workdirStep.mono (fun _ w₂ _ => ?_) (fun _ _ _ => trivial)
  rw [post_bind, post_onDisk]
  refine (createDirAll_spec _ σ.copy).mono (fun _ disk hmade => ?_) (fun _ _ _ => trivial)
  dsimp only
  rw [post_bind, post_onRepo]
  refine keeps_workdirStep.mono (fun _ w₃ _ => ?_) (fun _ _ _ => trivial)
  rw [post_onDisk]
  obtain ⟨files, hfiles, hsame⟩ := hmade.still_there hdonor
  refine (materializeFromWorkspace_spec dest hfiles).mono ?_ (fun _ _ _ => trivial)
  rintro _ disk' ⟨new, hnew, hlook, hdistinct, hdistinct', hbehind⟩
  rw [hsame hbehind.dropLast] at hlook hdistinct'
  exact ⟨new, hnew, hlook, hdistinct, hdistinct'⟩

omit [LinearOrder H] [Format H] in
/-- What is done to the repository does not matter to the disk. -/
theorem Post.skip {α β : Type} {x : RepoM H α} {f : α → SiteM H β} {Q : β → Site H → Prop}
    (h : ∀ a w, Post (f a) { σ with world := w } Q (fun _ _ => True)) :
    Post (onRepo x >>= f) σ Q (fun _ _ => True) := by
  rw [post_bind, post_onRepo]
  exact .of_cases (fun a w _ => h a w) (fun _ _ _ => trivial)

omit [LinearOrder H] [Format H] in
/-- A registered workspace has a marker. -/
theorem registerWorkspaceOn_spec (inv : Invocation) (name dest : String) (id : ChangeId) :
    Post (registerWorkspaceOn fs inv name dest id) σ
      (fun m σ' => m.changeId = id ∧ fs.locate m.location = fs.locate dest ∧
        ∀ new, dirAt σ.copy (fs.locate dest) = some new →
          childOf (Utf8.encode MARKER_FILE) new = none →
          dirAt σ'.copy (fs.locate dest) = some
            (putChild (Utf8.encode MARKER_FILE) (.file (fs.markerBytes m.id) false) new))
      (fun _ _ => True) := by
  rw [registerWorkspaceOn]
  refine Post.skip fun wid w₁ => Post.skip fun now w₂ => Post.skip fun _ w₃ =>
    Post.skip fun _ w₄ => Post.skip fun _ w₅ => ?_
  rw [post_bind, post_onDisk]
  refine .of_cases (fun _ disk hmarker => ?_) (fun _ _ _ => trivial)
  refine Post.skip fun _ w₆ => Post.skip fun _ w₇ => ?_
  refine ⟨rfl, fs.locate_canonicalize dest, fun new hnew hnone => ?_⟩
  dsimp only at hmarker ⊢
  rw [fs.locate_canonicalize] at hmarker
  have hspec : Post (within (writeMarker (fs.markerBytes wid)) (fs.locate dest)) σ.copy
      (fun _ disk => dirAt disk (fs.locate dest) = some
        (putChild (Utf8.encode MARKER_FILE) (.file (fs.markerBytes wid) false) new))
      (fun _ _ => True) := by
    refine Post.within hnew ((writeMarker_spec hnone).mono ?_ (fun _ _ _ => trivial))
    rintro _ _ rfl
    exact dirAt_setDirAt_self hnew _
  exact hspec.ok hmarker

/-- **A new workspace**, made without an identity, has the files of the workspace it was made
from, and a marker. -/
theorem cmdWtMakeOn_spec {inv : Invocation} {name : String} {atPath : Option String} :
    Post (cmdWtMakeOn fs inv name atPath (.ok none)) σ
      (fun m σ' => ∃ source w, discoverWorkspace inv.repoWorkdir inv.place σ.world = .ok source w ∧
        source.current σ.world.repo.refs = some m.changeId ∧
        ∀ donor, dirAt σ.copy (fs.locate source.workdir) = some donor →
          ∃ files, dirAt σ'.copy (fs.locate m.location) = some files ∧
            ClonedWorkspace fs m.id donor files)
      (fun _ _ => True) := by
  rw [cmdWtMakeOn, post_ite]
  refine ⟨fun _ => trivial, fun _ => ?_⟩
  rw [post_bind, post_onRepo]
  refine .of_cases (fun source w₁ hsource => ?_) (fun _ _ _ => trivial)
  have hk₁ : σ.world.Kept w₁ := (keeps_discoverWorkspace.ok hsource).1
  rw [post_bind, post_onRepo]
  refine keeps_lockForWrite.mono (fun _ w₂ h₂ => ?_) (fun _ _ _ => trivial)
  have hk₂ := hk₁.trans h₂.1
  rw [post_bind, post_onRepo]
  refine keeps_sourceChangeOf_current.mono (fun id w₃ h₃ => ?_) (fun _ _ _ => trivial)
  have hk₃ := hk₂.trans h₃.1
  have hcur := h₃.2
  rw [hk₂.refs] at hcur
  dsimp only
  rw [post_bind, post_get, post_ite]
  refine ⟨fun _ => trivial, fun _ => ?_⟩
  rw [post_bind, post_onRepo]
  refine (keeps_step (k := .registryRead) (by simp [FsStep.Mutates])).mono (fun _ w₄ h₄ => ?_)
    (fun _ _ _ => trivial)
  have hk₄ := hk₃.trans h₄.1
  rw [post_bind, post_fromExcept]
  refine ⟨fun unsealer hnone => ?_, fun _ _ => trivial⟩
  obtain rfl := Except.ok.inj hnone
  rw [post_bind]
  refine .of_cases (fun _ σ₆ hplaced => ?_) (fun _ _ _ => trivial)
  refine (registerWorkspaceOn_spec inv name _ id).mono ?_ (fun _ _ _ => trivial)
  rintro m σ' ⟨hid, hlocation, hmarker⟩
  refine ⟨source, w₁, hsource, hid ▸ hcur, fun donor hdonor => ?_⟩
  have hcur₄ : source.current w₄.repo.refs = some id := by
    rw [hk₄.refs]
    exact hcur
  have hspec : Post (placeFilesOn fs source id (workspaceDest source name atPath) none)
      { σ with world := w₄ } _ _ := placeFilesOn_spec hcur₄ hdonor
  obtain ⟨new, hnew, hlook, hdistinct, hdistinct'⟩ := hspec.ok hplaced
  have hnone : childOf (Utf8.encode MARKER_FILE) new = none := by
    rw [hlook]
    exact childOf_userFiles_internal (by decide) donor
  have hfiles := hmarker new hnew hnone
  rw [← hlocation] at hfiles
  refine ⟨_, hfiles, fun n => ?_, hdistinct.putChild _ _, hdistinct'⟩
  rw [childOf_putChild, hlook]

end Files

end Tig
