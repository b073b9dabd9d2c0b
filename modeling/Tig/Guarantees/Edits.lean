import Tig.Guarantees.Fetches

set_option relaxedAutoImplicit false
set_option autoImplicit false

/-!
# Edits and what is fetched after them

A file that was written over HTTP is fetched as it was written, and one that was deleted is not found,
for as long as the change is where the edit left it. Whatever lies at other paths is fetched as it was
found before the edit. That does not depend on what else has happened to the repository meanwhile.

## Main results

* `Tig.patchTreePath_fetched` — **a file that was written is fetched**.
* `Tig.deleteTreePath_fetched` — a file that was deleted is not found.
-/

namespace Tig

open Program

variable {H : Type} [LinearOrder H] [Format H] {s s' s₁ : ObjectStore H}

/-! ## Edits of stored trees -/

/-- What an insertion made is so in a larger store. -/
theorem PutAt.mono {tree tree' : H} {parts : List String} {entry : TreeEntry H}
    (h : PutAt s s' tree tree' parts entry) (hwhole : Whole s' tree') (hle : s'.Le s₁) :
    PutAt s s₁ tree tree' parts entry := by
  have heq := hwhole.entryAt_eq hle
  exact ⟨heq _ ▸ h.put, fun path h1 h2 h3 => heq path ▸ h.above path h1 h2 h3,
    fun path h1 h2 => heq path ▸ h.below path h1 h2, fun path h1 h2 => heq path ▸ h.others path h1 h2⟩

theorem RemovedAt.mono {tree tree' : H} {parts : List String} (h : RemovedAt s s' tree tree' parts)
    (hwhole : Whole s' tree') (hle : s'.Le s₁) : RemovedAt s s₁ tree tree' parts := by
  have heq := hwhole.entryAt_eq hle
  exact ⟨fun path h1 => heq path ▸ h.gone path h1,
    fun path h1 h2 h3 h4 => heq path ▸ h.emptied path h1 h2 h3 h4,
    fun path h1 h2 h3 h4 => heq path ▸ h.above path h1 h2 h3 h4,
    fun path h1 h2 => heq path ▸ h.others path h1 h2⟩

/-- What is found at a path of a tree is found in a store that has the tree in common. -/
theorem FoundAt.congr {R : H → Prop} (h : AgreeOn R s s') {root : H} (hroot : R root) {path : String}
    {view : Handlers.TreePathView} : FoundAt s root path view ↔ FoundAt s' root path view := by
  have htarget : ∀ {parts : List String} {e : TreeEntry H}, entryAt s root parts = some e →
      ∀ view, ViewOf s e view ∨ ViewOf s' e view → s.lookup e.target = s'.lookup e.target := by
    intro parts e he view hview
    obtain ⟨d, hd, t, hload, hmem⟩ := entry_of_lookupBelow h.sameTrees hroot (lookupEntry_eq_ok.mpr he)
    refine h.same _ (h.of_entry hd hload hmem ?_)
    rcases hview with hview | hview
    · cases hview with
      | file hk => rw [hk]; rfl
      | tree hk => rw [hk]; rfl
      | sealed hk => rw [hk]; rfl
    · cases hview with
      | file hk => rw [hk]; rfl
      | tree hk => rw [hk]; rfl
      | sealed hk => rw [hk]; rfl
  constructor
  · rintro ⟨parts, e, hparts, he, hview⟩
    refine ⟨parts, e, hparts, ?_, hview.congr (htarget he view (.inl hview)).symm⟩
    rw [← entryAt_congr h.sameTrees hroot, he]
  · rintro ⟨parts, e, hparts, he, hview⟩
    rw [← entryAt_congr h.sameTrees hroot] at he
    exact ⟨parts, e, hparts, he, hview.congr (htarget he view (.inr hview))⟩

/-- An edit of a tree makes what `made` says of it, when it succeeds. -/
def EditMakes (edit : H → RepoM H H) (made : ObjectStore H → ObjectStore H → H → H → Prop)
    (w : World H) : Prop :=
  ∀ w₁ : World H, w₁.repo = w.repo → w₁.env = w.env → ∀ root, Whole w.repo.objects root →
    Post (edit root) w₁ (fun root' w' => w₁.Quiet w' ∧ Whole w'.repo.objects root' ∧
      made w.repo.objects w'.repo.objects root root') (fun _ _ => True)

section Edits

variable [LawfulFormat H] {w : World H}

/-- The blob is stored, and the file is put at the path. -/
def FilePut (path : String) (body : Bytes) (s s' : ObjectStore H) (root root' : H) : Prop :=
  ∃ parts, splitPath path = .ok parts ∧
    s'.load ((encode H (Blob.mk body)).hash H) = .ok (Blob.mk body) ∧
    PutAt s s' root root' parts
      ⟨parts.getLastD "", .file, (encode H (Blob.mk body)).hash H, .REGULAR, none⟩

/-- What lay at the path is removed. -/
def PathRemoved (path : String) (s s' : ObjectStore H) (root root' : H) : Prop :=
  ∃ parts, splitPath path = .ok parts ∧ RemovedAt s s' root root' parts

omit [LawfulFormat H] in
theorem FilePut.mono {path : String} {body : Bytes} {root root' : H}
    (h : FilePut path body s s' root root') (hwhole : Whole s' root') (hle : s'.Le s₁) :
    FilePut path body s s₁ root root' := by
  obtain ⟨parts, hparts, hload, hput⟩ := h
  exact ⟨parts, hparts, hle.load hload, hput.mono hwhole hle⟩

omit [LawfulFormat H] in
theorem PathRemoved.mono {path : String} {root root' : H} (h : PathRemoved path s s' root root')
    (hwhole : Whole s' root') (hle : s'.Le s₁) : PathRemoved path s s₁ root root' := by
  obtain ⟨parts, hparts, hremoved⟩ := h
  exact ⟨parts, hparts, hremoved.mono hwhole hle⟩

theorem editMakes_writeBlobAtPath (hi : w.repo.objects.Intact) (path : String) (body : Bytes) :
    EditMakes (fun tree : H => writeBlobAtPath tree path body) (FilePut path body) w := by
  intro w₁ hrepo henv root hwhole
  rw [← hrepo] at hi hwhole ⊢
  dsimp only
  rw [writeBlobAtPath, post_bind, post_fromExcept]
  refine ⟨fun parts hparts => ?_, fun e _ => trivial⟩
  obtain ⟨hne, hvalid⟩ := splitPath_valid hparts
  rw [post_bind]
  refine storeObject_spec (fun w₂ hq₂ hput => ?_) (fun _ _ _ _ _ => trivial)
  have hload : w₂.repo.objects.load ((encode H (Blob.mk body)).hash H) = .ok (Blob.mk body) := by
    rw [hput]
    exact ObjectStore.load_put LawfulFormat.blob hi _
  refine (rewriteInsert_exact (by decide) (hq₂.intact hi) (hwhole.mono hq₂.le) hne hvalid).mono
    (fun root' w₃ h₃ => ?_) (fun _ _ _ => trivial)
  obtain ⟨hq₃, -, hwhole₃, hat⟩ := h₃
  refine ⟨hq₂.trans hq₃, hwhole₃, parts, hparts, hq₃.le.load hload, hat.put, hat.above, hat.below, ?_⟩
  intro other hab hbe
  rw [hat.others other hab hbe, hwhole.entryAt_eq hq₂.le]

theorem editMakes_deleteAtPath (hi : w.repo.objects.Intact) (hrel : w.env.Reliable) (path : String) :
    EditMakes (fun tree : H => deleteAtPath tree path) (PathRemoved path) w := by
  intro w₁ hrepo henv root hwhole
  rw [← hrepo] at hi hwhole ⊢
  dsimp only
  rw [deleteAtPath, post_bind, post_fromExcept]
  refine ⟨fun parts hparts => ?_, fun e _ => trivial⟩
  obtain ⟨hne, hvalid⟩ := splitPath_valid hparts
  refine (rewriteRemove_exact (henv ▸ hrel) hi hwhole hne hvalid).mono (fun root' w₂ h₂ => ?_)
    (fun _ _ _ => trivial)
  exact ⟨h₂.1, h₂.2.2.1, parts, hparts, h₂.2.2.2⟩

/-! ## The change after an edit -/

/-- The tree of the current snapshot of a change. -/
def World.TreeOf (w : World H) (id : ChangeId) (root : H) : Prop :=
  ∃ (c : ChangeAt H id) (snap : Snapshot H), w.repo.refs.changes.lookup id = some c ∧
    w.repo.objects.load c.1.current = .ok snap ∧ snap.tree = root

omit [LinearOrder H] [Format H] [LawfulFormat H] in
/-- A record that was just written is there. -/
theorem lookup_write_ofChange {r : Refs H} {c : Change H} {id : ChangeId} (hid : c.id = id) :
    (r.write (.ofChange c)).changes.lookup id = some ⟨c, hid⟩ := by
  subst hid
  simp [Refs.write, RefSnapshot.ofChange]

/-- After a direct snapshot the change has the new tree. -/
theorem treeOf_snapChangeDirectly (hi : w.repo.objects.Intact) {id : ChangeId} {newTree : H}
    {opts : SnapOptions} : Post (snapChangeDirectly id newTree opts) w
      (fun _ w' => w.repo.objects.Le w'.repo.objects ∧ w'.TreeOf id newTree) (fun _ _ => True) := by
  refine snapChangeDirectly_spec (fun c prev w' hq hc hload hun => ⟨hq.le, c, prev, ?_, ?_, ?_⟩)
    (fun c now op w' hc hadv hcom _ _ _ _ hload => ⟨hcom.le, ?_⟩) (fun _ _ _ _ => trivial)
    (fun _ _ _ _ _ _ _ => trivial)
  · rw [hq.refs]
    exact hc
  · exact hq.le.load hload
  · simp only [SnapOptions.unchanged, Bool.and_eq_true, decide_eq_true_eq] at hun
    exact hun.1.1
  · obtain ⟨c, rfl⟩ := c
    dsimp only at hcom hload
    generalize hsnap : opts.snapshot [c.current] newTree now = snap at hcom hload
    refine ⟨⟨c.advance ((encode H snap).hash H), Change.advance_id _ _⟩, snap, ?_, ?_, ?_⟩
    · rw [hcom.refs]
      exact lookup_write_ofChange _
    · rw [Change.advance_current]
      exact hload hi
    · rw [← hsnap]
      rfl

omit [LawfulFormat H] in
/-- The snapshot of a change that may be mutated, which nothing is written for. -/
theorem mutableSnapshot_spec {srv : Server} {id : ChangeId} {headers : HeaderMap} :
    Post (Handlers.mutableSnapshot srv id headers) w
      (fun found w' => w'.repo = w.repo ∧ w'.env = w.env ∧ ∃ c : ChangeAt H id,
        w.repo.refs.changes.lookup id = some c ∧ w.repo.objects.load c.1.current = .ok found.2)
      (fun _ _ => True) := by
  rw [Handlers.mutableSnapshot, post_bind]
  refine (reads_callerFrom w).mono (fun caller w₁ h₁ => ?_) (fun _ _ _ => trivial)
  rw [post_bind]
  refine ((reads_loadMutableChange w₁).and keeps_loadMutableChange).mono (fun c w₂ h₂ => ?_)
    (fun _ _ _ => trivial)
  obtain ⟨⟨hrepo₂, henv₂⟩, -, hc, -⟩ := h₂
  rw [post_bind, engine, post_adaptExcept]
  refine loadObject_spec (fun snap w₃ hs₃ hr₃ hload => ?_) (fun _ _ _ _ _ => trivial)
  rw [h₁.1] at hc
  rw [hrepo₂, h₁.1] at hload
  exact ⟨(hr₃.trans hrepo₂).trans h₁.1, (hs₃.env.trans henv₂).trans h₁.2, c, hc, hload⟩

/-- **What an edit over HTTP leaves**: the change has the tree that the edit has made of the tree that
it had. -/
theorem editChange_made (hcomplete : w.Complete True) {srv : Server} {id : String}
    {headers : HeaderMap} {edit : H → RepoM H H}
    {made : ObjectStore H → ObjectStore H → H → H → Prop} (hedit : EditMakes edit made w)
    (hmono : ∀ {s s' s₁ : ObjectStore H} {root root' : H}, made s s' root root' → Whole s' root' →
      s'.Le s₁ → made s s₁ root root') :
    Post (Handlers.editChange srv id headers edit) w
      (fun _ w' => id ≠ "" ∧ w.repo.objects.Le w'.repo.objects ∧ ∃ root root', w.TreeOf id root ∧
        w'.TreeOf id root' ∧ made w.repo.objects w'.repo.objects root root') (fun _ _ => True) := by
  rw [Handlers.editChange, post_bind]
  refine ((ReadOnly.step.adaptExcept _ w)).mono (fun _ w₁ h₁ => ?_) (fun _ _ _ => trivial)
  rw [post_bind, post_fromExcept]
  refine ⟨fun id' hid => ?_, fun _ _ => trivial⟩
  obtain ⟨hne, rfl⟩ := parseChangeId_eq_ok.mp hid
  rw [post_bind]
  refine mutableSnapshot_spec.mono (fun found w₂ h₂ => ?_) (fun _ _ _ => trivial)
  obtain ⟨hrepo₂, henv₂, c, hc, hload⟩ := h₂
  have hrepo : w₂.repo = w.repo := hrepo₂.trans h₁.1
  rw [h₁.1] at hc hload
  have hwhole := hcomplete.closed.whole _ (hcomplete.closed.of_snapshot hload).1
  rw [post_bind, engine, post_adaptExcept]
  refine (hedit w₂ hrepo (henv₂.trans h₁.2) _ hwhole).mono (fun root' w₃ h₃ => ?_)
    (fun _ _ _ => trivial)
  obtain ⟨hq₃, hwhole₃, hmade⟩ := h₃
  have hi₃ := hq₃.intact (hrepo ▸ hcomplete.closed.intact)
  rw [post_bind, engine, post_adaptExcept]
  refine (treeOf_snapChangeDirectly hi₃).mono (fun out w₄ h₄ => ?_) (fun _ _ _ => trivial)
  exact ⟨hne, (hrepo ▸ hq₃.le).trans h₄.1, found.2.tree, root', ⟨c, found.2, hc, hload, rfl⟩, h₄.2,
    hmono hmade hwhole₃ h₄.1⟩

/-! ## What is fetched after an edit -/

variable {w₁ v v₁ : World H} {id : ChangeId} {srv srv' : Server} {headers headers' : HeaderMap}
  {caller : PrincipalId}

/-- What is found at a path does not depend on what has happened to the repository, as long as the
change has the same record. -/
theorem found_later (h₁ : w₁.Complete True) (hv : v.Complete True)
    (hsame : v.repo.refs.changes.lookup id = w₁.repo.refs.changes.lookup id) {root : H}
    (hroot : w₁.TreeOf id root) : v.TreeOf id root ∧ ∀ path view,
      FoundAt w₁.repo.objects root path view ↔ FoundAt v.repo.objects root path view := by
  obtain ⟨c, snap, hc, hload, rfl⟩ := hroot
  have hcv := hsame.trans hc
  have hlookup : ∀ x, x = c.1.current → w₁.repo.objects.lookup x = v.repo.objects.lookup x := by
    rintro x rfl
    exact h₁.closed.intact.lookup_eq hv.closed.intact
      (h₁.snapshots trivial hc List.mem_cons_self).mem
      (hv.snapshots trivial hcv List.mem_cons_self).mem
  have hagree := AgreeOn.of_closed h₁.closed hv.closed hlookup
  have hcurrent : ∃ x, x = c.1.current ∧ GcReaches w₁.repo.objects x c.1.current := ⟨_, rfl, .refl⟩
  refine ⟨⟨c, snap, hcv, (hagree.load hcurrent).symm.trans hload, rfl⟩, fun path view => ?_⟩
  exact FoundAt.congr hagree (hagree.of_snapshot hcurrent hload).1

omit [LawfulFormat H] in
/-- What is found at a path of which an edit has kept the entry. -/
theorem found_kept (h : w.Complete True) (hle : w.repo.objects.Le w₁.repo.objects) {root root' : H}
    {path : String} {parts : List String} (hparts : splitPath path = .ok parts)
    (hkept : entryAt w₁.repo.objects root' parts = entryAt w.repo.objects root parts)
    (view : Handlers.TreePathView) :
    FoundAt w₁.repo.objects root' path view ↔ FoundAt w.repo.objects root path view := by
  have hview : ∀ e, entryAt w.repo.objects root parts = some e →
      (ViewOf w₁.repo.objects e view ↔ ViewOf w.repo.objects e view) := by
    intro e he
    obtain ⟨d, t, hload, hmem⟩ := mem_of_entryAt he
    have hentry := (h.closed.of_tree hload).targets e hmem
    constructor
    · intro hlater
      have hk : e.kind ≠ .symlink := by
        cases hlater with
        | file hk => rw [hk]; decide
        | tree hk => rw [hk]; decide
        | sealed hk => rw [hk]; decide
      obtain ⟨view', hview'⟩ := hentry.viewed hk
      exact (hview'.mono hle).unique hlater ▸ hview'
    · exact fun hview => hview.mono hle
  constructor
  · rintro ⟨parts', e, hparts', he, hlater⟩
    obtain rfl := Except.ok.inj (hparts.symm.trans hparts')
    rw [hkept] at he
    exact ⟨parts, e, hparts, he, (hview e he).mp hlater⟩
  · rintro ⟨parts', e, hparts', he, hearlier⟩
    obtain rfl := Except.ok.inj (hparts.symm.trans hparts')
    exact ⟨parts, e, hparts, hkept.trans he, (hview e he).mpr hearlier⟩

omit [LawfulFormat H] in
/-- What is fetched at a path is what is found in the tree of the change. -/
theorem fetched_iff (hrel : v.env.Reliable) (hcaller : callerFrom srv headers v = .ok caller v₁)
    (hid : id ≠ "") (hsees : v.repo.refs.Sees caller id) {root : H} (hroot : v.TreeOf id root)
    (path : String) (view : Handlers.TreePathView) :
    outcome (Handlers.getTreePath srv id path headers) v = .ok view ↔
      FoundAt v.repo.objects root path view := by
  obtain ⟨c, snap, hc, hload, rfl⟩ := hroot
  obtain ⟨c', hc', hsee⟩ := hsees
  obtain rfl := Option.some.inj (hc.symm.trans hc')
  obtain ⟨hrepo, henv⟩ := (reads_callerFrom v).ok hcaller
  exact getTreePath_iff hcaller ⟨hrepo, henv ▸ hrel⟩ hid hc hsee hload path view

/-- **A file that was written is fetched**, and whatever lies at other paths is fetched as it was found
before, as long as the change has the record that the request has left it with. -/
theorem patchTreePath_fetched (hrun : Served True w) {path : String} {body : Bytes}
    {answer : ChangeView}
    (hpatch : Handlers.patchTreePath srv id path headers body w = .ok answer w₁)
    (hlater : Served True v) (hrel : v.env.Reliable)
    (hsame : v.repo.refs.changes.lookup id = w₁.repo.refs.changes.lookup id)
    (hcaller : callerFrom srv' headers' v = .ok caller v₁) (hsees : v.repo.refs.Sees caller id) :
    ∃ parts root, splitPath path = .ok parts ∧ w.TreeOf id root ∧
      outcome (Handlers.getTreePath srv' id path headers') v =
        .ok (.file ("\"" ++ HashFn.toHex ((encode H (Blob.mk body)).hash H) ++ "\"") body) ∧
      ∀ other otherParts, splitPath other = .ok otherParts → ¬ otherParts <+: parts →
        ¬ parts <+: otherParts → ∀ view,
          outcome (Handlers.getTreePath srv' id other headers') v = .ok view ↔
            FoundAt w.repo.objects root other view := by
  have hcomplete := hrun.complete
  have hrun₁ : Served True w₁ := by
    have h := Served.operation hrun rfl (.patchTreePath srv id path headers body) trivial
    rwa [Operation.effect, final, hpatch] at h
  have hedit := editMakes_writeBlobAtPath hcomplete.closed.intact path body
  obtain ⟨hid, hle, root, root', hroot, hroot', parts, hparts, hblob, hput⟩ :=
    (editChange_made hcomplete hedit FilePut.mono).ok hpatch
  obtain ⟨hrootv, hfound⟩ := found_later hrun₁.complete hlater.complete hsame hroot'
  have hiff := fetched_iff hrel hcaller hid hsees hrootv
  refine ⟨parts, root, hparts, hroot, ?_, fun other otherParts hother hab hbe view => ?_⟩
  · exact (hiff path _).mpr ((hfound path _).mp ⟨parts, _, hparts, hput.put, .file rfl _ hblob⟩)
  · rw [hiff, ← hfound]
    exact found_kept hcomplete hle hother (hput.others otherParts hab hbe) view

open WrittenFile in
/-- The file of the repository with a file. -/
theorem patchTreePath_written :
    outcome (Handlers.getTreePath UnreadableToken.server "a" "f" []) world =
      .ok (.file ("\"" ++ HashFn.toHex ((encode PlainHash (Blob.mk [104])).hash PlainHash) ++ "\"")
        [104]) := by
  obtain ⟨answer, hpatch⟩ := patched
  obtain ⟨parts, root, -, -, hfetched, -⟩ := patchTreePath_fetched Shadow.served_before hpatch served
    Env.calm_reliable rfl callerFrom_world sees
  exact hfetched

/-- **What was deleted is not found**, nor anything below it, and whatever lies at other paths is
fetched as it was found before. -/
theorem deleteTreePath_fetched (hrun : Served True w) (hrelw : w.env.Reliable) {path : String}
    {answer : ChangeView}
    (hdelete : Handlers.deleteTreePath srv id path headers w = .ok answer w₁)
    (hlater : Served True v) (hrel : v.env.Reliable)
    (hsame : v.repo.refs.changes.lookup id = w₁.repo.refs.changes.lookup id)
    (hcaller : callerFrom srv' headers' v = .ok caller v₁) (hsees : v.repo.refs.Sees caller id) :
    ∃ parts root, splitPath path = .ok parts ∧ w.TreeOf id root ∧
      ∀ other otherParts, splitPath other = .ok otherParts → ¬ otherParts <+: parts ∨ otherParts = parts →
        ∀ view, outcome (Handlers.getTreePath srv' id other headers') v = .ok view ↔
          ¬ parts <+: otherParts ∧ FoundAt w.repo.objects root other view := by
  have hcomplete := hrun.complete
  have hrun₁ : Served True w₁ := by
    have h := Served.operation hrun rfl (.deleteTreePath srv id path headers) trivial
    rwa [Operation.effect, final, hdelete] at h
  have hedit := editMakes_deleteAtPath hcomplete.closed.intact hrelw path
  obtain ⟨hid, hle, root, root', hroot, hroot', parts, hparts, hremoved⟩ :=
    (editChange_made hcomplete hedit PathRemoved.mono).ok hdelete
  obtain ⟨hrootv, hfound⟩ := found_later hrun₁.complete hlater.complete hsame hroot'
  have hiff := fetched_iff hrel hcaller hid hsees hrootv
  refine ⟨parts, root, hparts, hroot, fun other otherParts hother hnotAbove view => ?_⟩
  rw [hiff, ← hfound]
  by_cases hbelow : parts <+: otherParts
  · refine iff_of_false ?_ fun h => h.1 hbelow
    rintro ⟨parts', e, hparts', he, -⟩
    obtain rfl := Except.ok.inj (hother.symm.trans hparts')
    rw [hremoved.gone _ hbelow] at he
    cases he
  · have habove : ¬ otherParts <+: parts :=
      hnotAbove.resolve_right fun heq => hbelow (heq ▸ List.prefix_rfl)
    rw [and_iff_right hbelow]
    exact found_kept hcomplete hle hother (hremoved.others otherParts habove hbelow) view

namespace WrittenFile

/-- The repository after the file has been deleted. -/
def deleted : World PlainHash :=
  final (Handlers.deleteTreePath UnreadableToken.server "a" "f" []) world

set_option maxRecDepth 1000000 in
theorem deletes : ∃ answer, Handlers.deleteTreePath UnreadableToken.server "a" "f" [] world =
    .ok answer deleted := ⟨_, rfl⟩

set_option maxRecDepth 1000000 in
theorem sees_deleted : deleted.repo.refs.Sees defaultActor "a" := ⟨_, rfl, rfl⟩

set_option maxRecDepth 1000000 in
theorem reliable_deleted : deleted.env.Reliable := Env.calm_reliable

theorem callerFrom_deleted :
    callerFrom UnreadableToken.server [] deleted = .ok defaultActor deleted := rfl

theorem served_deleted : Served True deleted :=
  .operation served rfl (.deleteTreePath UnreadableToken.server "a" "f" []) trivial

end WrittenFile

open WrittenFile in
/-- The file is not found any more. -/
theorem deleteTreePath_written : ¬ ∃ view,
    outcome (Handlers.getTreePath UnreadableToken.server "a" "f" []) deleted = .ok view := by
  obtain ⟨answer, hdelete⟩ := deletes
  obtain ⟨parts, root, hparts, -, hfetched⟩ := deleteTreePath_fetched served Env.calm_reliable hdelete
    served_deleted reliable_deleted rfl callerFrom_deleted sees_deleted
  rintro ⟨view, h⟩
  exact ((hfetched "f" parts hparts (.inr rfl) view).mp h).1 List.prefix_rfl

end Edits

end Tig
