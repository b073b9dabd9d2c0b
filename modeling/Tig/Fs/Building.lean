import Tig.Fs.Operations
import Tig.Fs.Closure
import Tig.Store.Undo

set_option relaxedAutoImplicit false
set_option autoImplicit false

/-!
# Work that leaves nothing dangling

Every program of the engine stores what an object refers to before it stores the object, and points a
change at nothing but a snapshot that it puts into its history. So a repository stays complete,
whichever program works on it and wherever it fails.

## Main definitions

* `Tig.World.Complete` — nothing dangles, now or after an undo.
* `Tig.ReadOnly` — programs that write nothing.
* `Tig.Upholds` — programs that keep a repository complete.

## Main results

* `Tig.upholds_scan`, `Tig.upholds_rewriteInsert`, `Tig.upholds_rewriteRemove` — trees.
* `Tig.upholds_snapNow`, `Tig.upholds_snapChangeDirectly`, `Tig.upholds_undoOnce` — snapshots and
  undos.
-/

namespace Tig

open Program

variable {H : Type} [LinearOrder H] [Format H]

/-! ## Complete repositories -/

/-- If this is the entry of a change, then the change is at a snapshot of its history. If `L`, then the
snapshots of the history are stored. -/
def RefSnapshot.Grounded (L : Prop) (s : ObjectStore H) : RefSnapshot H → Prop
  | change _ (some c) => c.1.current ∈ c.1.history ∧ (L → ∀ h ∈ c.1.history, s.Holds (Snapshot H) h)
  | _ => True

/-- Nothing dangles: what stored objects refer to is stored, and the changes are grounded, both as they
are and as undoing can bring them back. -/
structure World.Complete (L : Prop) (w : World H) : Prop where
  closed : w.repo.objects.Closed
  refs : ∀ k, (w.repo.refs.read k).Grounded L w.repo.objects
  log : ∀ op ∈ w.repo.oplog, ∀ e ∈ op.before, e.Grounded L w.repo.objects

/-- The second world is complete and has every object of the first. -/
structure World.Builds (L : Prop) (w w' : World H) : Prop where
  complete : w'.Complete L
  le : w.repo.objects.Le w'.repo.objects

variable {L : Prop} {w w₁ w' : World H}

theorem RefSnapshot.Grounded.mono {s s' : ObjectStore H} (hle : s.Le s') {e : RefSnapshot H}
    (h : e.Grounded L s) : e.Grounded L s' := by
  cases e with
  | change id v =>
    cases v with
    | none => trivial
    | some c => exact ⟨h.1, fun hL x hx => (h.2 hL x hx).mono hle⟩
  | head v => trivial
  | workspace id v => trivial
  | bookmark name v => trivial

namespace World.Complete

theorem congr (h : w.Complete L) (hrepo : w'.repo = w.repo) : w'.Complete L :=
  ⟨hrepo ▸ h.closed, hrepo ▸ h.refs, hrepo ▸ h.log⟩

/-- A change that is there is grounded. -/
theorem grounded (h : w.Complete L) {id : ChangeId} {c : ChangeAt H id}
    (hc : w.repo.refs.changes.lookup id = some c) :
    (RefSnapshot.ofChange c.1).Grounded L w.repo.objects := by
  have hread := h.refs (.change id)
  rwa [read_change hc] at hread

/-- The snapshots of a change are there. -/
theorem snapshots (h : w.Complete L) (hL : L) {id : ChangeId} {c : ChangeAt H id}
    (hc : w.repo.refs.changes.lookup id = some c) {x : H} (hx : x ∈ c.1.snapshots) :
    w.repo.objects.Holds (Snapshot H) x := by
  obtain ⟨hcurrent, hheld⟩ := h.grounded hc
  rcases List.mem_cons.mp hx with rfl | hx
  · exact hheld hL _ hcurrent
  · exact hheld hL _ hx

/-- Storing more objects. -/
theorem setObjects (h : w.Complete L) {s : ObjectStore H} (hle : w.repo.objects.Le s)
    (hs : s.Closed) (hobjects : w'.repo.objects = s) (hrefs : w'.repo.refs = w.repo.refs)
    (hlog : w'.repo.oplog = w.repo.oplog) : w'.Complete L := by
  subst hobjects
  refine ⟨hs, fun k => ?_, fun op hop e he => ?_⟩
  · rw [hrefs]
    exact (h.refs k).mono hle
  · rw [hlog] at hop
    exact (h.log op hop e he).mono hle

/-- Writing a ref that is grounded. -/
theorem writeRef (h : w.Complete L) {e : RefSnapshot H} (he : e.Grounded L w.repo.objects)
    (hobjects : w'.repo.objects = w.repo.objects) (hrefs : w'.repo.refs = w.repo.refs.write e)
    (hlog : w'.repo.oplog = w.repo.oplog) : w'.Complete L := by
  refine ⟨hobjects ▸ h.closed, fun k => ?_, fun op hop e' he' => ?_⟩
  · rw [hrefs, hobjects]
    by_cases hk : k = e.key
    · rw [hk, Refs.read_write]
      exact he
    · rw [Refs.read_write_of_ne _ e k hk]
      exact h.refs k
  · rw [hlog] at hop
    rw [hobjects]
    exact h.log op hop e' he'

/-- Appending a record of entries that are grounded. -/
theorem append (h : w.Complete L) {op : Op H} (hop : ∀ e ∈ op.before, e.Grounded L w.repo.objects)
    (hobjects : w'.repo.objects = w.repo.objects) (hrefs : w'.repo.refs = w.repo.refs)
    (hlog : w'.repo.oplog = w.repo.oplog ++ [op]) : w'.Complete L := by
  refine ⟨hobjects ▸ h.closed, fun k => ?_, fun op' hop' e he => ?_⟩
  · rw [hrefs, hobjects]
    exact h.refs k
  · rw [hobjects]
    rw [hlog] at hop'
    rcases List.mem_append.mp hop' with hop' | hop'
    · exact h.log op' hop' e he
    · exact hop e (List.mem_singleton.mp hop' ▸ he)

end World.Complete

namespace World.Builds

theorem refl (h : w.Complete L) : w.Builds L w := ⟨h, .refl _⟩

theorem trans (h : w.Builds L w₁) (h' : w₁.Builds L w') : w.Builds L w' :=
  ⟨h'.complete, h.le.trans h'.le⟩

/-- Where the repository is as it was. -/
theorem of_repo (h : w.Complete L) (hrepo : w'.repo = w.repo) : w.Builds L w' :=
  ⟨h.congr hrepo, by rw [hrepo]⟩

end World.Builds

/-! ## Programs that read -/

section Reading

variable {ε α β : Type}

omit [LinearOrder H] [Format H] in
/-- The program writes nothing, whether or not it fails. -/
def ReadOnly (x : EStateM ε (World H) α) : Prop :=
  ∀ w, Post x w (fun _ w' => w'.repo = w.repo ∧ w'.env = w.env)
    (fun _ w' => w'.repo = w.repo ∧ w'.env = w.env)

namespace ReadOnly

omit [LinearOrder H] [Format H]

theorem pure (a : α) : ReadOnly (Pure.pure a : EStateM ε (World H) α) := fun _ => ⟨rfl, rfl⟩

theorem throw (e : ε) : ReadOnly (MonadExcept.throw e : EStateM ε (World H) α) := fun _ => ⟨rfl, rfl⟩

theorem fromExcept (r : Except ε α) : ReadOnly (Program.fromExcept r : EStateM ε (World H) α) :=
  fun _ => (post_fromExcept r).mpr ⟨fun _ _ => ⟨rfl, rfl⟩, fun _ _ => ⟨rfl, rfl⟩⟩

theorem get : ReadOnly (MonadStateOf.get : EStateM ε (World H) (World H)) := fun _ => ⟨rfl, rfl⟩

theorem bind {x : EStateM ε (World H) α} {f : α → EStateM ε (World H) β} (hx : ReadOnly x)
    (hf : ∀ a, ReadOnly (f a)) : ReadOnly (x >>= f) := by
  intro w
  rw [post_bind]
  refine (hx w).mono (fun a w₁ h => ?_) (fun _ _ h => h)
  exact (hf a w₁).mono (fun _ _ h' => ⟨h'.1.trans h.1, h'.2.trans h.2⟩)
    (fun _ _ h' => ⟨h'.1.trans h.1, h'.2.trans h.2⟩)

theorem adaptExcept {ε' : Type} {x : EStateM ε (World H) α} (hx : ReadOnly x) (f : ε → ε') :
    ReadOnly (EStateM.adaptExcept f x) :=
  fun w => (post_adaptExcept f).mpr (hx w)

theorem tryCatch {x : EStateM ε (World H) α} {handle : ε → EStateM ε (World H) α} (hx : ReadOnly x)
    (hh : ∀ e, ReadOnly (handle e)) : ReadOnly (MonadExcept.tryCatch x handle) := by
  intro w
  rw [post_tryCatch]
  refine (hx w).mono (fun _ _ h => h) (fun e w₁ h => ?_)
  exact (hh e w₁).mono (fun _ _ h' => ⟨h'.1.trans h.1, h'.2.trans h.2⟩)
    (fun _ _ h' => ⟨h'.1.trans h.1, h'.2.trans h.2⟩)

theorem step {k : FsStep} : ReadOnly (Tig.step k : RepoM H Unit) :=
  fun _ => post_step.mpr ⟨fun _ => ⟨rfl, rfl⟩, fun _ _ => ⟨rfl, rfl⟩⟩

/-- A read that returns a function of the repository. -/
theorem readStep (k : FsStep) (f : Repo H → α) :
    ReadOnly (do Tig.step k; let w ← MonadState.get; return f w.repo : RepoM H α) :=
  step.bind fun _ => .bind .get fun _ => .pure _

end ReadOnly

section Engine

omit [LinearOrder H] [Format H] in
theorem reads_getChange {id : ChangeId} : ReadOnly (getChange id : RepoM H _) :=
  fun _ => getChange_spec (fun _ _ hs hr _ => ⟨hr, hs.env⟩) (fun _ _ hs hr _ => ⟨hr, hs.env⟩)

omit [LinearOrder H] [Format H] in
theorem reads_listChanges : ReadOnly (listChanges : RepoM H _) :=
  .readStep .refRead fun r => FiniteMap.sortedKeys r.refs.changes

omit [LinearOrder H] [Format H] in
theorem reads_listOps : ReadOnly (listOps : RepoM H _) := .readStep .logRead fun r => r.oplog

omit [LinearOrder H] [Format H] in
theorem reads_currentTimestampNs : ReadOnly (currentTimestampNs : RepoM H Nat) := fun _ => ⟨rfl, rfl⟩

theorem reads_loadObject {α : Type} [Encodable H α] {h : H} : ReadOnly (loadObject h : RepoM H α) :=
  fun _ => loadObject_spec (fun _ _ hs hr _ => ⟨hr, hs.env⟩) (fun _ _ hs hr _ => ⟨hr, hs.env⟩)

end Engine

end Reading

/-! ## Programs that leave nothing dangling -/

/-- Started in a complete repository, the program leads to one that has every object that the first
had, whether or not it fails, and establishes `P`. -/
def Upholds {ε α : Type} (L : Prop) (x : EStateM ε (World H) α) (w : World H)
    (P : α → World H → Prop) : Prop :=
  w.Complete L → Post x w (fun a w' => w.Builds L w' ∧ P a w') (fun _ w' => w.Builds L w')

namespace Upholds

variable {ε α β : Type} {P : α → World H → Prop} {R : β → World H → Prop}

theorem pure {a : α} (h : P a w) : Upholds L (Pure.pure a : EStateM ε (World H) α) w P :=
  fun hw => ⟨.refl hw, h⟩

theorem throw {e : ε} : Upholds L (MonadExcept.throw e : EStateM ε (World H) α) w P :=
  fun hw => .refl hw

theorem bind {x : EStateM ε (World H) α} {f : α → EStateM ε (World H) β} (hx : Upholds L x w P)
    (hf : ∀ a w₁, w.Builds L w₁ → P a w₁ → Upholds L (f a) w₁ R) : Upholds L (x >>= f) w R := by
  intro hw
  rw [post_bind]
  refine (hx hw).mono (fun a w₁ h => ?_) (fun _ _ h => h)
  exact (hf a w₁ h.1 h.2 h.1.complete).mono (fun _ _ h' => ⟨h.1.trans h'.1, h'.2⟩)
    (fun _ _ h' => h.1.trans h')

theorem mono {x : EStateM ε (World H) α} {Q : α → World H → Prop} (h : Upholds L x w P)
    (hP : ∀ a w', w.Builds L w' → P a w' → Q a w') : Upholds L x w Q :=
  fun hw => (h hw).mono (fun a w' h => ⟨h.1, hP a w' h.1 h.2⟩) (fun _ _ h => h)

theorem engine {x : RepoM H α} {f : Error → ε} (h : Upholds L x w P) :
    Upholds L (EStateM.adaptExcept f x) w P :=
  fun hw => (post_adaptExcept f).mpr (h hw)

/-- A program that leaves the repository as it is. -/
theorem of_same {x : EStateM ε (World H) α}
    (h : Post x w (fun a w' => w'.repo = w.repo ∧ P a w') (fun _ w' => w'.repo = w.repo)) :
    Upholds L x w P :=
  fun hw => h.mono (fun _ _ h => ⟨.of_repo hw h.1, h.2⟩) (fun _ _ h => .of_repo hw h)

theorem of_reads {x : EStateM ε (World H) α} (h : ReadOnly x) : Upholds L x w fun _ _ => True :=
  of_same ((h w).mono (fun _ _ h => ⟨h.1, trivial⟩) (fun _ _ h => h.1))

/-- A program that writes nothing, of which something is known. -/
theorem of_keeps {x : EStateM ε (World H) α} (h : ReadOnly x) (hk : Keeps x w P) : Upholds L x w P :=
  fun hw => .of_cases
    (fun _ _ hrun => ⟨.of_repo hw ((h w).ok hrun).1, (hk.ok hrun).2⟩)
    (fun _ _ hrun => .of_repo hw ((h w).error hrun).1)

/-- What an argument is parsed to. -/
theorem fromExcept {r : Except ε α} (h : ∀ a, r = .ok a → P a w) :
    Upholds L (Program.fromExcept r) w P :=
  of_same ((post_fromExcept r).mpr ⟨fun a ha => ⟨rfl, h a ha⟩, fun _ _ => rfl⟩)

theorem final {x : EStateM ε (World H) α} (h : Upholds L x w P) (hw : w.Complete L) :
    w.Builds L (final x w) :=
  ((h hw).mono (fun _ _ h => h.1) (fun _ _ h => h)).final

end Upholds

/-! ## What writes -/

section Write

theorem upholds_getChange {id : ChangeId} :
    Upholds L (getChange id) w fun c _ => w.repo.refs.changes.lookup id = some c :=
  .of_same (getChange_spec (fun _ _ _ hr hc => ⟨hr, hc⟩) (fun _ _ _ hr _ => hr))

theorem upholds_loadObject {α : Type} [Encodable H α] {h : H} :
    Upholds L (loadObject h : RepoM H α) w fun a w' => w'.repo.objects.load h = .ok a :=
  .of_same (loadObject_spec (fun _ _ _ hr ha => ⟨hr, hr ▸ ha⟩) (fun _ _ _ hr _ => hr))

theorem upholds_currentTimestampNs :
    Upholds L (currentTimestampNs : RepoM H Nat) w fun _ _ => True :=
  .of_same (currentTimestampNs_spec fun _ _ _ hr => ⟨hr, trivial⟩)

/-- Storing an object that may be put. -/
theorem upholds_storeObject {α : Type} [Encodable H α] {a : α}
    (hput : w.repo.objects.Closed → (w.repo.objects.put (encode H a)).Closed) :
    Upholds L (storeObject a) w fun h w' =>
      h = (encode H a).hash H ∧ w'.repo.objects = w.repo.objects.put (encode H a) := by
  refine fun hw => storeObject_spec (fun w' hq hw' => ⟨⟨?_, hq.le⟩, rfl, hw'⟩)
    (fun e w' _ hr _ => .of_repo hw hr)
  exact hw.setObjects (ObjectStore.le_put _ _) (hput hw.closed) hw' hq.refs hq.oplog

/-- Writing a ref that is grounded. -/
theorem upholds_writeRef {e : RefSnapshot H} (he : e.Grounded L w.repo.objects) :
    Upholds L (writeRef e) w fun _ _ => True :=
  fun hw => post_writeRef.mpr
    ⟨fun _ => ⟨⟨hw.writeRef he rfl rfl rfl, .refl _⟩, trivial⟩, fun _ _ => .of_repo hw rfl⟩

/-- Appending a record of entries that are grounded. -/
theorem upholds_appendOp {op : OpInProgress H}
    (hop : ∀ e ∈ op.before, e.Grounded L w.repo.objects) :
    Upholds L (appendOp op) w fun _ _ => True :=
  fun hw => post_appendOp.mpr
    ⟨fun _ => ⟨fun _ => ⟨⟨hw.append hop rfl rfl rfl, .refl _⟩, trivial⟩,
      fun _ _ => ⟨hw.append hop rfl rfl rfl, .refl _⟩⟩, fun _ _ => .of_repo hw rfl⟩

variable [LawfulFormat H]

/-- Storing an object that may be put, which can then be read. -/
theorem upholds_store {α : Type} [Encodable H α] {a : α} (hc : (Encodable.codec H (α := α)).Lawful)
    (hput : w.repo.objects.Closed → (w.repo.objects.put (encode H a)).Closed) :
    Upholds L (storeObject a) w fun h w' => w'.repo.objects.Holds α h := by
  refine fun hw => Post.mono (upholds_storeObject hput hw) (fun h w' hstored => ?_) (fun _ _ h => h)
  obtain ⟨hb, hh, hs⟩ := hstored
  refine ⟨hb, a, ?_⟩
  rw [hh, hs]
  exact ObjectStore.load_put hc hw.closed.intact a

/-- Storing a file or the target of a symlink. -/
theorem upholds_storeBlob {blob : Blob} :
    Upholds L (storeObject blob) w fun h w' => w'.repo.objects.Holds Blob h :=
  upholds_store LawfulFormat.blob fun hc => hc.put_blob blob

theorem upholds_storeSealed {payload : Sealed} :
    Upholds L (storeObject payload) w fun h w' => w'.repo.objects.Holds Sealed h :=
  upholds_store LawfulFormat.sealed fun hc => hc.put_sealed payload

/-- Storing a tree that is in order, what the entries point at being there. -/
theorem upholds_storeTree {tree : Tree H} (hentries : w.repo.objects.HoldsEntries tree) :
    Upholds L (storeObject tree) w fun h w' => w'.repo.objects.Holds (Tree H) h :=
  upholds_store LawfulFormat.tree fun hc => hc.put_tree hentries

/-- Storing a snapshot, its tree and its parents being there. -/
theorem upholds_storeSnapshot {snap : Snapshot H} (htree : w.repo.objects.Holds (Tree H) snap.tree)
    (hparents : ∀ p ∈ snap.parents, w.repo.objects.Holds (Snapshot H) p) :
    Upholds L (storeObject snap) w fun h w' => w'.repo.objects.Holds (Snapshot H) h :=
  upholds_store LawfulFormat.snapshot fun hc => hc.put_snapshot htree hparents

end Write

/-! ## Trees -/

section Trees

variable [LawfulFormat H]

omit [LinearOrder H] [Format H] [LawfulFormat H] in
/-- The entries of a tree after an insertion. -/
theorem Tree.mem_insert {tree tree' : Tree H} {entry e : TreeEntry H}
    (h : tree.insert entry = .ok tree') (he : e ∈ tree'.entries) : e = entry ∨ e ∈ tree.entries := by
  rw [insert_ok (validateName_of_insert h) tree entry rfl] at h
  obtain rfl := Except.ok.inj h
  exact mem_upsertEntry he

omit [LawfulFormat H] in
/-- Inserting an entry whose target is there. -/
theorem upholds_insert {tree : Tree H} {entry : TreeEntry H}
    (htree : w.repo.objects.HoldsEntries tree) (hentry : w.repo.objects.HoldsEntry entry) :
    Upholds L (fromExcept ((tree.insert entry).mapError .core) : RepoM H (Tree H)) w
      fun tree' w' => w'.repo.objects.HoldsEntries tree' := by
  refine Upholds.fromExcept fun tree' h => ?_
  cases hins : tree.insert entry with
  | error err =>
    rw [hins] at h
    cases h
  | ok t =>
    rw [hins] at h
    obtain rfl := Except.ok.inj h
    refine ⟨htree.sorted.insert hins, fun e he => ?_, fun e he => ?_⟩
    · rcases Tree.mem_insert hins he with rfl | he
      · exact validateName_of_insert hins
      · exact htree.names e he
    · rcases Tree.mem_insert hins he with rfl | he
      · exact hentry
      · exact htree.targets e he

/-- Inserting an entry whose target is there, and storing the tree. -/
theorem upholds_insertStore {tree : Tree H} {entry : TreeEntry H}
    (htree : w.repo.objects.HoldsEntries tree) (hentry : w.repo.objects.HoldsEntry entry) :
    Upholds L (do
      let tree ← fromExcept ((tree.insert entry).mapError .core)
      storeObject tree : RepoM H H) w fun h w' => w'.repo.objects.Holds (Tree H) h :=
  .bind (upholds_insert htree hentry) fun _ _ _ h => upholds_storeTree h

theorem upholds_scanDir {children : WorkingCopy} {insertAll : RepoM H (Tree H)}
    (hall : ∀ w₁ : World H, Upholds L insertAll w₁ fun tree w' =>
      w'.repo.objects.HoldsEntries tree) :
    Upholds L (scanDir children insertAll) w fun h w' => w'.repo.objects.Holds (Tree H) h :=
  .bind (.of_reads .step) fun _ _ _ _ => .bind (.of_reads (.fromExcept _)) fun _ w₁ _ _ =>
    .bind (hall w₁) fun _ _ _ h => upholds_storeTree h

omit [LawfulFormat H] in
mutual

/-- Recording one node. -/
theorem upholds_buildEntry [LawfulFormat H] {ignore : List String} : (node : Node) → (path name : String) →
    {w : World H} → Upholds L (buildEntry ignore path name node) w
      fun entry w' => w'.repo.objects.HoldsEntry entry
  | .dir children, path, name, w => by
    rw [buildEntry]
    refine .bind (.of_reads .step) fun _ w₁ _ _ => ?_
    refine .bind (upholds_scanDir fun w₂ => ?_) fun target w₂ _ htarget => .pure htarget
    exact upholds_scanEntries children path .new .new
  | .file bytes executable, path, name, w => by
    rw [buildEntry]
    refine .bind (.of_reads .step) fun _ w₁ _ _ => .bind (.of_reads .step) fun _ w₂ _ _ => ?_
    exact .bind upholds_storeBlob fun target w₃ _ htarget => .pure htarget
  | .symlink link, path, name, w => by
    rw [buildEntry]
    refine .bind (.of_reads .step) fun _ w₁ _ _ => .bind (.of_reads .step) fun _ w₂ _ _ => ?_
    exact .bind upholds_storeBlob fun target w₃ _ _ => .pure trivial
  | .other kind, path, name, w => by
    rw [buildEntry]
    exact .bind (.of_reads .step) fun _ w₁ _ _ => .throw

/-- Recording the entries of a directory, one after the other. -/
theorem upholds_scanEntries [LawfulFormat H] {ignore : List String} : (children : List (Bytes × Node)) →
    (path : String) → (tree : Tree H) → {w : World H} → w.repo.objects.HoldsEntries tree →
    Upholds L (scanEntries ignore path tree children) w
      fun tree' w' => w'.repo.objects.HoldsEntries tree'
  | [], path, tree, w, htree => by
    rw [scanEntries]
    exact .pure htree
  | (bytes, node) :: rest, path, tree, w, htree => by
    rw [scanEntries]
    refine .bind (.of_reads (.fromExcept _)) fun name w₁ hb₁ _ => ?_
    split
    · -- an ignored child
      exact upholds_scanEntries rest path tree (htree.mono hb₁.le)
    · refine .bind (upholds_buildEntry node _ name) fun entry w₂ hb₂ hentry => ?_
      refine .bind (upholds_insert (htree.mono (hb₁.trans hb₂).le) hentry) fun tree₁ w₃ _ h => ?_
      exact upholds_scanEntries rest path tree₁ h

end

/-- **A scan** stores what it makes a tree of. -/
theorem upholds_scan {ignore : List String} {workdir : String} {copy : WorkingCopy} :
    Upholds L (scan ignore workdir copy) w fun h w' => w'.repo.objects.Holds (Tree H) h :=
  .bind (.of_reads .step) fun _ _ _ _ => upholds_scanDir fun _ =>
    upholds_scanEntries copy workdir .new .new

/-! ## Edits -/

omit [LawfulFormat H] in
/-- A stored tree, of which it is known what its entries point at. -/
theorem upholds_loadTree {h : H} :
    Upholds L (loadObject h : RepoM H (Tree H)) w
      fun tree w' => w'.repo.objects.load h = .ok tree ∧ w'.repo.objects.HoldsEntries tree :=
  upholds_loadObject.mono fun _ _ hb hload => ⟨hload, hb.complete.closed.of_tree hload⟩

theorem upholds_subtreeFor {tree : Tree H} {head : String}
    (htree : w.repo.objects.HoldsEntries tree) :
    Upholds L (subtreeFor tree head) w fun h w' => w'.repo.objects.Holds (Tree H) h := by
  rw [subtreeFor]
  cases hget : tree.get head with
  | none => exact upholds_storeTree .new
  | some e =>
    dsimp only
    split
    · refine .pure ?_
      have hentry := htree.targets e (mem_of_findEntry hget)
      rw [ObjectStore.HoldsEntry, ‹e.kind = .tree›] at hentry
      exact hentry
    · exact .throw

/-- **An insertion at a path** of something that is stored. -/
theorem upholds_rewriteInsert {target : H} {kind : EntryKind} {mode : FileMode}
    (parts : List String) {treeHash : H}
    (htarget : ∀ name, w.repo.objects.HoldsEntry ⟨name, kind, target, mode, none⟩) :
    Upholds L (rewriteInsert target kind mode treeHash parts) w
      fun h w' => w'.repo.objects.Holds (Tree H) h := by
  induction parts generalizing w treeHash with
  | nil => exact .throw
  | cons head rest ih =>
    have hmono : ∀ {w' : World H}, w.repo.objects.Le w'.repo.objects → ∀ name,
        w'.repo.objects.HoldsEntry ⟨name, kind, target, mode, none⟩ :=
      fun hle name => (htarget name).imp fun _ _ _ h => h.mono hle
    rw [rewriteInsert]
    refine .bind upholds_loadTree fun tree w₁ hb₁ htree => ?_
    split
    · exact upholds_insertStore htree.2 (hmono hb₁.le head)
    · refine .bind (upholds_subtreeFor htree.2) fun subHash w₂ hb₂ _ => ?_
      refine .bind (ih (hmono (hb₁.trans hb₂).le)) fun newSub w₃ hb₃ hsub => ?_
      exact upholds_insertStore (htree.2.mono (hb₂.trans hb₃).le) hsub

omit [LinearOrder H] [Format H] [LawfulFormat H] in
theorem Tree.mem_remove {tree : Tree H} {name : String} {e : TreeEntry H}
    (he : e ∈ (tree.remove name).entries) : e ∈ tree.entries :=
  List.mem_of_mem_eraseP he

/-- **A removal at a path.** -/
theorem upholds_rewriteRemove (parts : List String) {treeHash : H} :
    Upholds L (rewriteRemove treeHash parts) w
      fun h w' => w'.repo.objects.Holds (Tree H) h := by
  induction parts generalizing w treeHash with
  | nil => exact .throw
  | cons head rest ih =>
    have hremove : ∀ {w' : World H} {tree : Tree H}, w'.repo.objects.HoldsEntries tree →
        w'.repo.objects.HoldsEntries (tree.remove head) :=
      fun h => ⟨h.sorted.remove head, fun e he => h.names e (Tree.mem_remove he),
        fun e he => h.targets e (Tree.mem_remove he)⟩
    rw [rewriteRemove]
    refine .bind upholds_loadTree fun tree w₁ hb₁ htree => ?_
    split
    · split
      · exact upholds_storeTree (hremove htree.2)
      · exact .throw
    · split
      · exact .throw
      · split
        · exact .throw
        · refine .bind ih fun newSubHash w₂ hb₂ hsub => ?_
          refine .bind upholds_loadTree fun newSub w₃ hb₃ _ => ?_
          have hle := (hb₂.trans hb₃).le
          split
          · exact upholds_storeTree (hremove (htree.2.mono hle))
          · exact upholds_insertStore (htree.2.mono hle) (hsub.mono hb₃.le)

/-- An edit of a tree makes a stored tree. -/
def EditsStored (edit : H → RepoM H H) : Prop :=
  ∀ (L : Prop) (w : World H) (tree : H), Upholds L (edit tree) w
    fun h w' => w'.repo.objects.Holds (Tree H) h

theorem editsStored_writeBlobAtPath (path : String) (bytes : Bytes) :
    EditsStored fun tree : H => writeBlobAtPath tree path bytes := fun _ _ _ =>
  .bind (.of_reads (.fromExcept _)) fun parts _ _ _ =>
    .bind upholds_storeBlob fun _ _ _ hblob => upholds_rewriteInsert parts fun _ => hblob

theorem editsStored_writeSealedAtPath (path : String) (payload : Sealed) :
    EditsStored fun tree : H => writeSealedAtPath tree path payload := fun _ _ _ =>
  .bind (.of_reads (.fromExcept _)) fun parts _ _ _ =>
    .bind upholds_storeSealed fun _ _ _ hpayload => upholds_rewriteInsert parts fun _ => hpayload

theorem editsStored_deleteAtPath (path : String) :
    EditsStored fun tree : H => deleteAtPath tree path := fun _ _ _ =>
  .bind (.of_reads (.fromExcept _)) fun parts _ _ _ => upholds_rewriteRemove parts

end Trees

/-! ## Snapshots -/

section Snapshots

section Pointers

omit [LinearOrder H] [Format H]

theorem reads_captureWorkspaceRef {ws : Workspace} : ReadOnly (captureWorkspaceRef ws : RepoM H _) :=
  fun _ => captureWorkspaceRef_spec fun _ _ hs hr _ => ⟨hr, hs.env⟩

end Pointers

/-- The entry of anything but a change is grounded. -/
theorem RefSnapshot.Grounded.of_key {s : ObjectStore H} {e : RefSnapshot H}
    (h : ∀ id, e.key ≠ .change id) : e.Grounded L s := by
  cases e with
  | change id v => exact absurd rfl (h id)
  | head v => trivial
  | workspace id v => trivial
  | bookmark name v => trivial

theorem upholds_captureWorkspaceRef {ws : Workspace} :
    Upholds L (captureWorkspaceRef ws) w fun e _ => ∀ s, e.Grounded L s := by
  refine (Upholds.of_keeps reads_captureWorkspaceRef keeps_captureWorkspaceRef).mono
    fun e _ _ hkey s => .of_key fun id hid => ?_
  rcases hkey with hk | hk
  · obtain ⟨_ | m, dir⟩ := ws
    · cases hk.symm.trans hid
    · cases hk.symm.trans hid
  · cases hk.symm.trans hid

/-- What is known of a change does not depend on its state or visibility. -/
theorem RefSnapshot.Grounded.congr {s : ObjectStore H} {c c' : Change H}
    (h : (ofChange c).Grounded L s) (hcurrent : c'.current = c.current)
    (hhistory : c'.history = c.history) : (ofChange c').Grounded L s := by
  refine ⟨?_, fun hL x hx => h.2 hL x ?_⟩
  · show c'.current ∈ c'.history
    rw [hcurrent, hhistory]
    exact h.1
  · rwa [show c'.history = _ from hhistory] at hx

/-- Checking out a change, whether or not it is there. -/
theorem upholds_setCurrentChangeId {ws : Workspace} {id : ChangeId} :
    Upholds L (ws.setCurrentChangeId id) w fun _ _ => True := by
  obtain ⟨_ | m, dir⟩ := ws
  · exact .bind (upholds_writeRef trivial) fun _ _ _ _ => .pure trivial
  · refine .bind (.of_reads .step) fun _ w₁ _ _ => ?_
    exact .bind (upholds_writeRef trivial) fun _ _ _ _ => .pure trivial

/-- A change that is there, advanced to a stored snapshot. -/
theorem RefSnapshot.Grounded.advance {s : ObjectStore H} {c : Change H} {h : H}
    (hc : (ofChange c).Grounded L s) (hh : s.Holds (Snapshot H) h) :
    (ofChange (c.advance h)).Grounded L s := by
  refine ⟨?_, fun hL x hx => ?_⟩
  · show (c.advance h).current ∈ (c.advance h).history
    rw [Change.advance_current, Change.advance_history]
    split
    · exact ‹c.current = h› ▸ hc.1
    · exact List.mem_append_right _ List.mem_cons_self
  · rw [show (c.advance h).history = _ from Change.advance_history c h] at hx
    split at hx
    · exact hc.2 hL x hx
    · rcases List.mem_append.mp hx with hx | hx
      · exact hc.2 hL x hx
      · exact List.mem_singleton.mp hx ▸ hh

/-- A change that starts at a stored snapshot. -/
theorem RefSnapshot.Grounded.start {s : ObjectStore H} {c : Change H} (hcurrent : c.history = [c.current])
    (hh : L → s.Holds (Snapshot H) c.current) : (ofChange c).Grounded L s := by
  refine ⟨?_, fun hL x hx => ?_⟩
  · show c.current ∈ c.history
    rw [hcurrent]
    exact List.mem_cons_self
  · rw [show c.history = _ from hcurrent] at hx
    exact List.mem_singleton.mp hx ▸ hh hL

/-- What a snapshot of a workspace is taken on top of is grounded. -/
structure SnapBase.Grounded (L : Prop) (s : ObjectStore H) (base : SnapBase H) : Prop where
  change : base.fresh = false → (RefSnapshot.ofChange base.change).Grounded L s
  before : base.before.Grounded L s
  parents : ∀ p ∈ base.parents, base.fresh = false ∧ p = base.change.current

theorem upholds_snapBase {ws : Workspace} {opts : SnapOptions} :
    Upholds L (snapBase ws opts) w fun base w' => base.Grounded L w'.repo.objects := by
  rw [snapBase]
  refine .bind (.of_same (P := fun _ _ => True)
    (currentChangeId_spec (fun _ _ hr => ⟨hr, trivial⟩) (fun _ _ _ hr _ => hr))) fun cur w₁ _ _ => ?_
  cases cur with
  | none =>
    refine .bind (.of_same (P := fun _ _ => True) (newUlid_spec fun _ _ hr _ => ⟨hr, trivial⟩))
      fun id w₂ _ _ => .pure ?_
    exact ⟨fun hf => Bool.noConfusion hf, trivial, fun p hp => absurd hp List.not_mem_nil⟩
  | some id =>
    intro hw₁
    refine Upholds.bind upholds_getChange (fun c w₂ hb₂ hc => .pure ?_) hw₁
    have hground := (hw₁.grounded hc).mono hb₂.le
    exact ⟨fun _ => hground, hground, fun p hp => ⟨rfl, List.mem_singleton.mp hp⟩⟩

theorem upholds_unchangedSince {base : SnapBase H} {treeHash : H} {opts : SnapOptions} :
    Upholds L (unchangedSince base treeHash opts) w fun _ w' =>
      base.fresh = false → w'.repo.objects.Holds (Snapshot H) base.change.current := by
  rw [unchangedSince]
  split
  · exact .pure fun hf => absurd (‹base.fresh = true›.symm.trans hf) Bool.noConfusion
  · exact .bind upholds_loadObject fun prev w₁ _ hprev => .pure fun _ => ⟨prev, hprev⟩

variable [LawfulFormat H]

/-- The snapshot of an empty tree. -/
theorem upholds_emptySnapshot {author : PrincipalId} :
    Upholds L (emptySnapshot author) w fun h w' => w'.repo.objects.Holds (Snapshot H) h := by
  refine .bind (upholds_storeTree .new) fun treeH w₁ _ htree => ?_
  refine .bind upholds_currentTimestampNs fun now w₂ hb₂ _ => ?_
  exact upholds_storeSnapshot (htree.mono hb₂.le) fun p hp => absurd hp List.not_mem_nil

/-- Recording a snapshot of a stored tree. -/
theorem upholds_recordSnap {ws : Workspace} {opts : SnapOptions} {treeHash : H} {base : SnapBase H}
    (hbase : base.Grounded L w.repo.objects) (htree : w.repo.objects.Holds (Tree H) treeHash)
    (hprev : base.fresh = false → w.repo.objects.Holds (Snapshot H) base.change.current) :
    Upholds L (recordSnap ws opts treeHash base) w fun _ _ => True := by
  refine .bind upholds_captureWorkspaceRef fun before w₁ hb₁ hbefore => ?_
  refine .bind upholds_currentTimestampNs fun now w₂ hb₂ _ => ?_
  have hle₂ := (hb₁.trans hb₂).le
  refine .bind (upholds_storeSnapshot (htree.mono hle₂) fun p hp => ?_) fun snapHash w₃ hb₃ hsnap => ?_
  · obtain ⟨hf, rfl⟩ := hbase.parents p hp
    exact (hprev hf).mono hle₂
  have hle₃ := ((hb₁.trans hb₂).trans hb₃).le
  have hadvanced : (RefSnapshot.ofChange (base.advanced snapHash)).Grounded L w₃.repo.objects := by
    rw [SnapBase.advanced]
    split
    · exact .start rfl fun _ => hsnap
    · exact .advance ((hbase.change (by simpa using ‹¬ base.fresh = true›)).mono hle₃) hsnap
  refine .bind (upholds_writeRef hadvanced) fun _ w₄ hb₄ _ => ?_
  refine .bind (P := fun _ _ => True) ?_ fun _ w₅ hb₅ _ => ?_
  · rw [pointAtFresh]
    split
    · exact .bind upholds_setCurrentChangeId fun _ _ _ _ => .pure trivial
    · exact .pure trivial
  refine .bind upholds_captureWorkspaceRef fun after w₆ hb₆ _ => ?_
  have hle₆ := ((((hb₁.trans hb₂).trans hb₃).trans hb₄).trans hb₅).trans hb₆ |>.le
  refine .bind (upholds_appendOp fun e he => ?_) fun _ _ _ _ => .pure trivial
  rcases List.mem_cons.mp he with rfl | he
  · exact hbefore _
  · obtain rfl := List.mem_singleton.mp he
    exact hbase.before.mono hle₆

/-- **A snapshot of a workspace.** -/
theorem upholds_snapNow {ws : Workspace} {copy : WorkingCopy} {opts : SnapOptions} :
    Upholds L (snapNow ws copy opts) w fun _ _ => True := by
  refine .bind upholds_scan fun treeHash w₁ _ htree => ?_
  refine .bind upholds_snapBase fun base w₂ hb₂ hbase => ?_
  refine .bind upholds_unchangedSince fun unchanged w₃ hb₃ hprev => ?_
  split
  · exact .pure trivial
  · exact upholds_recordSnap ⟨fun hf => (hbase.change hf).mono hb₃.le, hbase.before.mono hb₃.le,
      hbase.parents⟩ (htree.mono (hb₂.trans hb₃).le) hprev

/-- **A snapshot of a change**, taken of a stored tree. -/
theorem upholds_snapChangeDirectly {id : ChangeId} {newTree : H} {opts : SnapOptions}
    (htree : w.repo.objects.Holds (Tree H) newTree) :
    Upholds L (snapChangeDirectly id newTree opts) w fun out w' =>
      ∀ h tree c fresh, out = .snapped h tree c fresh → w'.repo.objects.Holds (Snapshot H) h := by
  intro hw
  refine Upholds.bind upholds_getChange (fun c w₁ hb₁ hc => ?_) hw
  have hground := hw.grounded hc
  refine .bind upholds_loadObject fun prev w₂ hb₂ hprev => ?_
  split
  · exact .pure fun h tree c fresh hout => by cases hout
  refine .bind upholds_currentTimestampNs fun now w₃ hb₃ _ => ?_
  have hle₃ := ((hb₁.trans hb₂).trans hb₃).le
  refine .bind (upholds_storeSnapshot (htree.mono hle₃) fun p hp => ?_) fun snapHash w₄ hb₄ hsnap => ?_
  · obtain rfl := List.mem_singleton.mp hp
    exact ⟨prev, hb₃.le.load hprev⟩
  have hground₄ := hground.mono (hle₃.trans hb₄.le)
  refine .bind (upholds_writeRef (hground₄.advance hsnap)) fun _ w₅ hb₅ _ => ?_
  refine .bind (upholds_appendOp fun e he => ?_) fun _ w₆ hb₆ _ => .pure ?_
  · obtain rfl := List.mem_singleton.mp he
    rw [← ofChange_eq]
    exact hground₄.mono hb₅.le
  · intro h tree c' fresh hout
    obtain ⟨rfl, -⟩ := SnapOutcome.snapped.inj hout
    exact hsnap.mono (hb₅.trans hb₆).le

end Snapshots

/-! ## Undo -/

section Undo

theorem upholds_restoreRefs {es : List (RefSnapshot H)}
    (hes : ∀ e ∈ es, e.Grounded L w.repo.objects) :
    Upholds L (restoreRefs es) w fun _ _ => True := by
  induction es generalizing w with
  | nil => exact .pure trivial
  | cons e es ih =>
    obtain ⟨he, hes⟩ := List.forall_mem_cons.mp hes
    refine .bind (P := fun _ _ => True) ?_ fun _ w₁ hb₁ _ => ih fun e he => (hes e he).mono hb₁.le
    by_cases hrest : e.Restorable
    · rw [restoreRef_eq hrest]
      exact upholds_writeRef he
    · -- a bookmark whose name cannot be set
      cases e with
      | bookmark name v =>
        cases v with
        | none => exact absurd trivial hrest
        | some id =>
          rw [restoreRef, setBookmark, if_pos (not_not.mp hrest)]
          exact .throw
      | head v => exact absurd trivial hrest
      | change id v => exact absurd trivial hrest
      | workspace id v => exact absurd trivial hrest

/-- **An undo** brings back what the log has captured. -/
theorem upholds_undoOnce {actor : PrincipalId} :
    Upholds L (undoOnce actor) w fun _ _ => True := by
  intro hw
  refine Upholds.bind (P := fun ops _ => ops = w.repo.oplog)
    (.of_same (listOps_spec (fun _ _ hr => ⟨hr, rfl⟩) (fun _ _ _ hr _ => hr)))
    (fun ops w₁ hb₁ hops => ?_) hw
  subst hops
  cases hpick : pickOpToUndo w.repo.oplog with
  | none => exact .pure trivial
  | some target =>
    have htarget : ∀ e ∈ target.before, e.Grounded L w₁.repo.objects :=
      fun e he => (hw.log target (mem_of_pickOpToUndo hpick).1 e he).mono hb₁.le
    refine .bind (.of_reads .step) fun _ w₂ hb₂ _ => ?_
    refine .bind (P := fun es w' => ∀ e ∈ es, e.Grounded L w'.repo.objects) ?_
      fun beforeUndo w₃ hb₃ hbefore => ?_
    · refine fun hw₂ => readCurrents_spec _ (fun w' _ hr => ⟨.of_repo hw₂ hr, fun e he => ?_⟩)
        (fun _ w' _ hr _ => .of_repo hw₂ hr)
      obtain ⟨e', -, rfl⟩ := List.mem_map.mp he
      rw [hr]
      exact hw₂.refs e'.key
    · refine .bind (upholds_restoreRefs fun e he => (htarget e he).mono (hb₂.trans hb₃).le)
        fun _ w₄ hb₄ _ => ?_
      exact .bind (upholds_appendOp fun e he => (hbefore e he).mono hb₄.le) fun _ _ _ _ =>
        .pure trivial

end Undo

end Tig
