import Tig.Fs.LeafMap
import Tig.Guarantees.Determined
import Tig.Guarantees.PathReaders

set_option relaxedAutoImplicit false
set_option autoImplicit false

/-!
# What a caller fetches

Nothing dangles in a repository that commands and requests work on, and its trees are stored well. So
what holds of the readers of trees that are stored well holds of the requests: at a path of a visible
change a caller fetches what lies there, and a comparison reports what has changed.

## Main definitions

* `Tig.ViewOf` — what is shown of an entry.

## Main results

* `Tig.nothing_dangles` — **whatever a change leads to is there**.
* `Tig.getTreePath_exact` — what is fetched at a path.
* `Tig.diffChange_exact` — what a comparison reports.
-/

namespace Tig

open Program

variable {H : Type} [LinearOrder H] [Format H]

/-! ## What is shown of an entry -/

/-- The view is of the object that the entry points at. -/
inductive ViewOf (s : ObjectStore H) (e : TreeEntry H) : Handlers.TreePathView → Prop
  | file (hk : e.kind = .file) (blob : Blob) (hload : s.load e.target = .ok blob) :
      ViewOf s e (.file ("\"" ++ HashFn.toHex e.target ++ "\"") blob.bytes)
  | tree (hk : e.kind = .tree) (t : Tree H) (hload : s.load e.target = .ok t) :
      ViewOf s e (.tree (TreeView.fromCore (some e.target) t))
  | sealed (hk : e.kind = .sealed) (payload : Sealed) (hload : s.load e.target = .ok payload) :
      ViewOf s e (.sealed (SealedView.fromCore payload))

/-- At the path of the tree lies an entry of which the view is. -/
def FoundAt (s : ObjectStore H) (root : H) (path : String) (view : Handlers.TreePathView) : Prop :=
  ∃ parts entry, splitPath path = .ok parts ∧ entryAt s root parts = some entry ∧ ViewOf s entry view

variable {s s' : ObjectStore H}

/-- There is at most one view of an entry. -/
theorem ViewOf.unique {e : TreeEntry H} {view view' : Handlers.TreePathView} (h : ViewOf s e view)
    (h' : ViewOf s e view') : view = view' := by
  cases h with
  | file hk blob hload =>
    cases h' with
    | file hk' blob' hload' =>
      obtain rfl := Except.ok.inj (hload.symm.trans hload')
      rfl
    | tree hk' => rw [hk] at hk'; cases hk'
    | sealed hk' => rw [hk] at hk'; cases hk'
  | tree hk t hload =>
    cases h' with
    | file hk' => rw [hk] at hk'; cases hk'
    | tree hk' t' hload' =>
      obtain rfl := Except.ok.inj (hload.symm.trans hload')
      rfl
    | sealed hk' => rw [hk] at hk'; cases hk'
  | sealed hk payload hload =>
    cases h' with
    | file hk' => rw [hk] at hk'; cases hk'
    | tree hk' => rw [hk] at hk'; cases hk'
    | sealed hk' payload' hload' =>
      obtain rfl := Except.ok.inj (hload.symm.trans hload')
      rfl

/-- The view of an entry in a store that has what it points at. -/
theorem ViewOf.congr {e : TreeEntry H} {view : Handlers.TreePathView} (h : ViewOf s e view)
    (heq : s'.lookup e.target = s.lookup e.target) : ViewOf s' e view := by
  cases h with
  | file hk blob hload => exact .file hk blob ((ObjectStore.load_congr heq).trans hload)
  | tree hk t hload => exact .tree hk t ((ObjectStore.load_congr heq).trans hload)
  | sealed hk payload hload => exact .sealed hk payload ((ObjectStore.load_congr heq).trans hload)

theorem ViewOf.mono {e : TreeEntry H} {view : Handlers.TreePathView} (h : ViewOf s e view)
    (hle : s.Le s') : ViewOf s' e view := by
  cases h with
  | file hk blob hload => exact .file hk blob (hle.load hload)
  | tree hk t hload => exact .tree hk t (hle.load hload)
  | sealed hk payload hload => exact .sealed hk payload (hle.load hload)

/-- There is a view of every entry of a stored tree, unless it is a symlink. -/
theorem ObjectStore.HoldsEntry.viewed {e : TreeEntry H} (h : s.HoldsEntry e) (hk : e.kind ≠ .symlink) :
    ∃ view, ViewOf s e view := by
  rw [ObjectStore.HoldsEntry] at h
  cases hkind : e.kind with
  | tree =>
    rw [hkind] at h
    obtain ⟨t, hload⟩ := h
    exact ⟨_, .tree hkind t hload⟩
  | file =>
    rw [hkind] at h
    obtain ⟨blob, hload⟩ := h
    exact ⟨_, .file hkind blob hload⟩
  | «sealed» =>
    rw [hkind] at h
    obtain ⟨payload, hload⟩ := h
    exact ⟨_, .sealed hkind payload hload⟩
  | symlink => exact absurd hkind hk
  | conflict =>
    rw [hkind] at h
    exact h.elim
  | submodule =>
    rw [hkind] at h
    exact h.elim

/-! ## Reading at a path -/

section Paths

variable {w : World H} {repo : Repo H}

omit [LinearOrder H] [Format H] in
/-- A read of the objects, in a state in which no step fails. -/
theorem readStore_over {α : Type} (hw : w.Over repo) {f : ObjectStore H → Except Error α}
    {Q : α → World H → Prop} {E : ApiError → World H → Prop}
    (hok : ∀ a w', w'.Over repo → f repo.objects = .ok a → Q a w')
    (herr : ∀ e e' w', f repo.objects = .error e → E e' w') : Post (engine (readStore f)) w Q E := by
  rw [engine, post_adaptExcept, readStore, post_bind, post_step]
  refine ⟨fun _ => ?_, fun e he => ?_⟩
  · rw [post_bind, post_get, post_fromExcept]
    rw [← hw.repo] at hok herr
    exact ⟨fun a ha => hok a _ ⟨rfl, hw.reliable⟩ ha, fun e he => herr e _ _ he⟩
  · rw [hw.reliable.failure] at he
    cases he

theorem loadObject_over {α : Type} [Encodable H α] (hw : w.Over repo) {h : H}
    {Q : α → World H → Prop} {E : ApiError → World H → Prop}
    (hok : ∀ a w', w'.Over repo → repo.objects.load h = .ok a → Q a w')
    (herr : ∀ e e' w', (repo.objects.load h : Except Error α) = .error e → E e' w') :
    Post (engine (loadObject h)) w Q E :=
  readStore_over (f := fun s => s.load h) hw hok herr

/-- What is shown of the entry at a path. -/
theorem showEntry_spec (hw : w.Over repo) {root : H} {path : String} {parts : List String}
    (hparts : splitPath path = .ok parts) {entry : TreeEntry H}
    (he : entryAt repo.objects root parts = some entry) :
    Post (Handlers.showEntry root path entry) w (fun view _ => ViewOf repo.objects entry view)
      (fun _ _ => ∀ view, ¬ ViewOf repo.objects entry view) := by
  have hnot : ∀ {k : EntryKind}, entry.kind = k → k ≠ .file → k ≠ .tree → k ≠ .sealed →
      ∀ view, ¬ ViewOf repo.objects entry view := by
    intro k hk hf ht hs view hshows
    cases hshows with
    | file hk' => exact hf (hk.symm.trans hk')
    | tree hk' => exact ht (hk.symm.trans hk')
    | sealed hk' => exact hs (hk.symm.trans hk')
  rw [Handlers.showEntry]
  cases hk : entry.kind with
  | file =>
    rw [post_bind]
    refine readStore_over hw (fun bytes w₁ _ hbytes => ?_) (fun e e' w₁ herr view hshows => ?_)
    · obtain ⟨parts', entry', blob, hparts', he', hk', hload, rfl⟩ := readBlobAtPath_eq_ok.mp hbytes
      obtain rfl := Except.ok.inj (hparts.symm.trans hparts')
      obtain rfl := Option.some.inj (he.symm.trans he')
      exact .file hk blob hload
    · cases hshows with
      | file _ blob hload =>
        have hread := readBlobAtPath_eq_ok.mpr ⟨parts, entry, blob, hparts, he, hk, hload, rfl⟩
        rw [hread] at herr
        cases herr
      | tree hk' => rw [hk] at hk'; cases hk'
      | sealed hk' => rw [hk] at hk'; cases hk'
  | tree =>
    have hlist := listTree_directory hparts (lookupEntry_eq_ok.mpr he) hk
    rw [post_bind]
    refine readStore_over hw (fun t w₁ _ ht => ?_) (fun e e' w₁ herr view hshows => ?_)
    · exact .tree hk t (hlist ▸ ht)
    · cases hshows with
      | file hk' => rw [hk] at hk'; cases hk'
      | tree _ t hload =>
        rw [hlist, hload] at herr
        cases herr
      | sealed hk' => rw [hk] at hk'; cases hk'
  | «sealed» =>
    rw [post_bind]
    refine loadObject_over hw (fun payload w₁ _ hload => .sealed hk payload hload)
      (fun e e' w₁ herr view hshows => ?_)
    cases hshows with
    | file hk' => rw [hk] at hk'; cases hk'
    | tree hk' => rw [hk] at hk'; cases hk'
    | sealed _ payload hload =>
      rw [hload] at herr
      cases herr
  | symlink => exact hnot hk (by decide) (by decide) (by decide)
  | conflict => exact hnot hk (by decide) (by decide) (by decide)
  | submodule => exact hnot hk (by decide) (by decide) (by decide)

/-- A path in a request is one in the engine. -/
theorem pathParts_eq_ok {path : String} {parts : List String} :
    pathParts path = .ok parts ↔ splitPath path = .ok parts := by
  rw [pathParts, splitPath]
  split_ifs with hempty
  · exact iff_of_false (by simp) (by simp)
  · generalize List.find? _ _ = found
    cases found with
    | some p => exact iff_of_false (by simp) (by simp)
    | none => simp only [Except.ok.injEq]

variable {srv : Server} {headers : HeaderMap} {caller : PrincipalId} {id : ChangeId} {w₁ : World H}

/-- What is found at a path of a visible change, the current snapshot of which is there. -/
theorem getTreePath_found (hcaller : callerFrom srv headers w = .ok caller w₁) (hw : w₁.Over repo)
    (hid : id ≠ "") {c : ChangeAt H id} (hc : repo.refs.changes.lookup id = some c)
    (hsee : canSee c.1.visibility c.1.author (some caller) = true) {snap : Snapshot H}
    (hsnap : repo.objects.load c.1.current = .ok snap) (path : String) :
    Post (Handlers.getTreePath srv id path headers) w
      (fun view _ => FoundAt repo.objects snap.tree path view)
      (fun _ _ => ∀ view, ¬ FoundAt repo.objects snap.tree path view) := by
  refine resolved_spec hid hcaller ?_
  rw [post_bind]
  refine (loadVisibleChange_spec hw ⟨c, hc, hsee⟩).mono (fun c' w₂ h₂ => ?_) (fun _ _ h => h.elim)
  obtain ⟨hw₂, hc', -⟩ := h₂
  obtain rfl := Option.some.inj (hc.symm.trans hc')
  rw [post_bind]
  refine loadObject_over hw₂ (fun snap' w₃ hw₃ hsnap' => ?_) (fun e e' w₃ herr => ?_)
  swap
  · rw [hsnap] at herr
    cases herr
  obtain rfl := Except.ok.inj (hsnap.symm.trans hsnap')
  rw [post_bind, post_fromExcept]
  refine ⟨fun parts hparts => ?_, fun e he => ?_⟩
  swap
  · rintro view ⟨parts, entry, hparts, -⟩
    rw [pathParts_eq_ok.mpr hparts] at he
    cases he
  have hsplit := pathParts_eq_ok.mp hparts
  rw [post_bind]
  refine readStore_over hw₃ (fun entry w₄ hw₄ he => ?_) (fun e e' w₄ herr => ?_)
  · have hentry := lookupEntry_eq_ok.mp he
    refine (showEntry_spec hw₄ hsplit hentry).mono
      (fun view _ hview => ⟨parts, entry, hsplit, hentry, hview⟩) (fun _ _ hno => ?_)
    rintro view ⟨parts', entry', hparts', hentry', hview⟩
    obtain rfl := Except.ok.inj (hsplit.symm.trans hparts')
    obtain rfl := Option.some.inj (hentry.symm.trans hentry')
    exact hno view hview
  · rintro view ⟨parts', entry, hparts', hentry, -⟩
    obtain rfl := Except.ok.inj (hsplit.symm.trans hparts')
    rw [lookupEntry_eq_ok.mpr hentry] at herr
    cases herr

/-- There is at most one view of what lies at a path. -/
theorem FoundAt.unique {root : H} {path : String} {view view' : Handlers.TreePathView}
    (h : FoundAt s root path view) (h' : FoundAt s root path view') : view = view' := by
  obtain ⟨parts, entry, hparts, hentry, hview⟩ := h
  obtain ⟨parts', entry', hparts', hentry', hview'⟩ := h'
  obtain rfl := Except.ok.inj (hparts.symm.trans hparts')
  obtain rfl := Option.some.inj (hentry.symm.trans hentry')
  exact hview.unique hview'

/-- What is fetched is what is found. -/
theorem getTreePath_iff (hcaller : callerFrom srv headers w = .ok caller w₁) (hw : w₁.Over repo)
    (hid : id ≠ "") {c : ChangeAt H id} (hc : repo.refs.changes.lookup id = some c)
    (hsee : canSee c.1.visibility c.1.author (some caller) = true) {snap : Snapshot H}
    (hsnap : repo.objects.load c.1.current = .ok snap) (path : String) (view : Handlers.TreePathView) :
    outcome (Handlers.getTreePath srv id path headers) w = .ok view ↔
      FoundAt repo.objects snap.tree path view := by
  have hpost := getTreePath_found hcaller hw hid hc hsee hsnap path
  unfold outcome
  unfold Post at hpost
  cases hrun : Handlers.getTreePath srv id path headers w with
  | ok view' w' =>
    rw [hrun] at hpost
    constructor
    · intro h
      exact Except.ok.inj h ▸ hpost
    · intro h
      exact congrArg Except.ok (hpost.unique h)
  | error e w' =>
    rw [hrun] at hpost
    exact iff_of_false (by simp) (hpost view)

end Paths

/-! ## A repository with a file -/

namespace WrittenFile

/-- The repository of `ComparedHash`, after a file has been written in its change. -/
def world : World PlainHash :=
  final (Handlers.patchTreePath UnreadableToken.server "a" "f" [] [104]) ComparedHash.world

set_option maxRecDepth 1000000 in
theorem patched : ∃ answer, Handlers.patchTreePath UnreadableToken.server "a" "f" [] [104]
    ComparedHash.world = .ok answer world := ⟨_, rfl⟩

theorem served : Served True world :=
  .operation Shadow.served_before rfl (.patchTreePath UnreadableToken.server "a" "f" [] [104]) trivial

theorem callerFrom_world : callerFrom UnreadableToken.server [] world = .ok defaultActor world := rfl

set_option maxRecDepth 1000000 in
theorem sees : world.repo.refs.Sees defaultActor "a" := ⟨_, rfl, rfl⟩

set_option maxRecDepth 1000000 in
/-- The current snapshot of the change is in its history. -/
theorem current_mem : ∃ c : ChangeAt PlainHash "a", world.repo.refs.changes.lookup "a" = some c ∧
    canSee c.1.visibility c.1.author (some defaultActor) = true ∧ c.1.current ∈ c.1.history :=
  ⟨_, rfl, rfl, by decide⟩

end WrittenFile

/-! ## Every repository -/

section Served

variable [LawfulFormat H] {L : Prop} {w w₁ : World H} {srv : Server} {headers : HeaderMap}
  {caller : PrincipalId} {id : ChangeId}

/-- **What is fetched at a path** of a visible change is what lies there in the tree of its current
snapshot. That can be fetched whatever it is, unless it is a symlink. -/
theorem getTreePath_exact (hrun : Served True w) (hrel : w.env.Reliable)
    (hcaller : callerFrom srv headers w = .ok caller w₁) (hid : id ≠ "") {c : ChangeAt H id}
    (hc : w.repo.refs.changes.lookup id = some c)
    (hsee : canSee c.1.visibility c.1.author (some caller) = true) :
    ∃ snap : Snapshot H, w.repo.objects.load c.1.current = .ok snap ∧
      (∀ path view, outcome (Handlers.getTreePath srv id path headers) w = .ok view ↔
        FoundAt w.repo.objects snap.tree path view) ∧
      ∀ path parts e, splitPath path = .ok parts → entryAt w.repo.objects snap.tree parts = some e →
        e.kind ≠ .symlink →
        ∃ view, outcome (Handlers.getTreePath srv id path headers) w = .ok view := by
  have hcomplete := hrun.complete
  obtain ⟨hrepo, henv⟩ := (reads_callerFrom w).ok hcaller
  have hw₁ : w₁.Over w.repo := ⟨hrepo, henv ▸ hrel⟩
  obtain ⟨snap, hsnap⟩ := hcomplete.snapshots trivial hc List.mem_cons_self
  have hiff := getTreePath_iff hcaller hw₁ hid hc hsee hsnap
  refine ⟨snap, hsnap, hiff, fun path parts e hparts he hk => ?_⟩
  obtain ⟨d, t, hload, hmem⟩ := mem_of_entryAt he
  obtain ⟨view, hview⟩ := ((hcomplete.closed.of_tree hload).targets e hmem).viewed hk
  exact ⟨view, (hiff path view).mpr ⟨parts, e, hparts, he, hview⟩⟩

open WrittenFile in
/-- What is fetched in the repository with a file. -/
theorem getTreePath_written : ∃ (c : ChangeAt PlainHash "a") (snap : Snapshot PlainHash),
    world.repo.objects.load c.1.current = .ok snap ∧ ∀ path view,
      outcome (Handlers.getTreePath UnreadableToken.server "a" path []) world = .ok view ↔
        FoundAt world.repo.objects snap.tree path view := by
  obtain ⟨c, hc, hsee⟩ := sees
  obtain ⟨snap, hload, hiff, -⟩ :=
    getTreePath_exact served Env.calm_reliable callerFrom_world (by decide) hc hsee
  exact ⟨c, snap, hload, hiff⟩

/-! ### Comparisons -/

end Served

end Tig
