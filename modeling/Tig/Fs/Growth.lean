import Tig.Fs.Restore

set_option relaxedAutoImplicit false
set_option autoImplicit false

/-!
# What work on a repository leaves

Apart from the collector no program removes an object. What a snapshot was recorded with is there
as long as nothing is collected, whichever steps fail. Nor does any work change the environment, or
bring an id into the refs that has not come from the generator.

## Main definitions

* `Tig.World.Grows` — objects were at most added.
* `Tig.World.Onward`, `Tig.World.Aside` — what else stays, and what stays aside from the changes.
* `Tig.Leads`, `Tig.SiteM.Leads` — programs that lead to a world in such a relation.
* `Tig.OnlyAdds`, `Tig.SiteM.OnlyAdds` — programs that at most add objects.

## Main results

* `Tig.leads_snapNow`, `Tig.leads_snapChangeDirectly` — what snapshots leave.
-/

namespace Tig

open Program

variable {H : Type} [LinearOrder H] [Format H]

/-- Objects were at most added. -/
structure World.Grows (w w' : World H) : Prop where
  le : w.repo.objects.Le w'.repo.objects
  intact : w.repo.objects.Intact → w'.repo.objects.Intact

namespace World.Grows

variable {w w' w'' : World H}

@[refl] theorem refl (w : World H) : w.Grows w := ⟨.refl _, id⟩

@[trans] theorem trans (h : w.Grows w') (h' : w'.Grows w'') : w.Grows w'' :=
  ⟨h.le.trans h'.le, h'.intact ∘ h.intact⟩

theorem of_objects (h : w'.repo.objects = w.repo.objects) : w.Grows w' :=
  ⟨by rw [h], by rw [h]; exact id⟩

end World.Grows

theorem World.Quiet.grows {w w' : World H} (h : w.Quiet w') : w.Grows w' := ⟨h.le, h.intact⟩

theorem World.Kept.grows {w w' : World H} (h : w.Kept w') : w.Grows w' := ⟨h.le, h.intact⟩

/-- Objects were at most added, the environment is the same, and if the ids in use had come from the
generator, they have. -/
structure World.Onward (w w' : World H) : Prop extends w.Grows w' where
  env : w'.env = w.env
  ids : w.ids ≤ w'.ids
  below : IdsBelow w.env w.ids w.repo.refs → IdsBelow w'.env w'.ids w'.repo.refs

/-- Besides, no record of a change was written. -/
structure World.Aside (w w' : World H) : Prop extends w.Onward w' where
  changes : w'.repo.refs.changes = w.repo.refs.changes

/-- A relation between worlds that is transitive and holds of whatever keeps refs and log. -/
class World.Lax (R : World H → World H → Prop) : Prop where
  trans : ∀ {w w' w''}, R w w' → R w' w'' → R w w''
  kept : ∀ {w w'}, w.Kept w' → R w w'

section Relations

variable {w w' w'' : World H}

theorem World.Kept.onward (h : w.Kept w') : w.Onward w' where
  toGrows := h.grows
  env := h.env
  ids := h.idsLe
  below hb := by
    rw [h.env, h.refs]
    exact hb.mono h.idsLe

theorem World.Onward.trans (h : w.Onward w') (h' : w'.Onward w'') : w.Onward w'' where
  toGrows := h.toGrows.trans h'.toGrows
  env := h'.env.trans h.env
  ids := h.ids.trans h'.ids
  below := h'.below ∘ h.below

theorem World.Kept.aside (h : w.Kept w') : w.Aside w' := ⟨h.onward, by rw [h.refs]⟩

theorem World.Aside.trans (h : w.Aside w') (h' : w'.Aside w'') : w.Aside w'' :=
  ⟨h.toOnward.trans h'.toOnward, h'.changes.trans h.changes⟩

instance : World.Lax (World.Grows (H := H)) := ⟨World.Grows.trans, World.Kept.grows⟩

instance : World.Lax (World.Onward (H := H)) := ⟨World.Onward.trans, World.Kept.onward⟩

instance : World.Lax (World.Aside (H := H)) := ⟨World.Aside.trans, World.Kept.aside⟩

end Relations

/-! ## Programs -/

/-- Started here, the program leads to a world in the relation, whether or not it fails. -/
def Leads {ε α : Type} (R : World H → World H → Prop) (x : EStateM ε (World H) α) (w : World H) :
    Prop :=
  Post x w (fun _ w' => R w w') (fun _ w' => R w w')

/-- Started here, the program at most adds objects, whether or not it fails. -/
def OnlyAdds {ε α : Type} (x : EStateM ε (World H) α) (w : World H) : Prop :=
  Post x w (fun _ w' => w.Grows w') (fun _ w' => w.Grows w')

section Repo

variable {ε α β : Type} {R : World H → World H → Prop} {w w' : World H}

omit [LinearOrder H] [Format H] in
theorem Leads.mono {R' : World H → World H → Prop} {x : EStateM ε (World H) α} (h : Leads R x w)
    (hR : ∀ {w'}, R w w' → R' w w') : Leads R' x w :=
  Post.mono h (fun _ _ h => hR h) (fun _ _ h => hR h)

omit [LinearOrder H] [Format H] in
theorem Leads.engine {x : RepoM H α} (h : Leads R x w) (f : Error → ε) :
    Leads R (EStateM.adaptExcept f x) w :=
  (post_adaptExcept f).mpr h

section Rules

variable [World.Lax R]

theorem Leads.bind {x : EStateM ε (World H) α} {f : α → EStateM ε (World H) β} (hx : Leads R x w)
    (hf : ∀ a w₁, R w w₁ → Leads R (f a) w₁) : Leads R (x >>= f) w := by
  unfold Leads
  rw [post_bind]
  refine Post.mono hx (fun a w₁ h => ?_) (fun _ _ h => h)
  exact Post.mono (hf a w₁ h) (fun _ _ h' => World.Lax.trans h h')
    (fun _ _ h' => World.Lax.trans h h')

theorem Leads.pure {a : α} : Leads R (Pure.pure a : EStateM ε (World H) α) w :=
  World.Lax.kept (World.Quiet.refl w).kept

theorem Keeps.leads {x : EStateM ε (World H) α} {P : α → World H → Prop} (h : Keeps x w P) :
    Leads R x w :=
  Post.mono h (fun _ _ h => World.Lax.kept h.1) (fun _ _ h => World.Lax.kept h)

/-- What a program does first, as long as it keeps refs and log. -/
theorem Leads.of_keeps_bind {x : EStateM ε (World H) α} {f : α → EStateM ε (World H) β}
    {P : α → World H → Prop} (hx : Keeps x w P)
    (hf : ∀ a w₁, w.Kept w₁ → P a w₁ → Leads R (f a) w₁) : Leads R (x >>= f) w := by
  unfold Leads
  rw [post_bind]
  refine Post.mono hx (fun a w₁ h => ?_) (fun _ _ h => World.Lax.kept h)
  exact Post.mono (hf a w₁ h.1 h.2) (fun _ _ h' => World.Lax.trans (World.Lax.kept h.1) h')
    (fun _ _ h' => World.Lax.trans (World.Lax.kept h.1) h')

end Rules

/-- Writing a ref leads onward where it brings no id into use that is not known. -/
theorem leads_writeRef {e : RefSnapshot H} (hb : IdsBelow w.env w.ids w.repo.refs →
    IdsBelow w.env w.ids (w.repo.refs.write e)) : Leads World.Onward (writeRef e) w :=
  post_writeRef.mpr ⟨fun _ => ⟨.of_objects rfl, rfl, le_rfl, hb⟩,
    fun _ _ => ⟨.of_objects rfl, rfl, le_rfl, id⟩⟩

/-- Writing a manifest stays aside from the changes. -/
theorem leads_putWorkspace {m : WorkspaceManifest} (hm : ∃ k < w.ids, m.id = w.env.ulid k) :
    Leads World.Aside (putWorkspace m) w :=
  post_writeRef.mpr ⟨fun _ => ⟨⟨.of_objects rfl, rfl, le_rfl, fun hb => hb.writeManifest hm⟩, rfl⟩,
    fun _ _ => ⟨⟨.of_objects rfl, rfl, le_rfl, id⟩, rfl⟩⟩

/-- Appending a record writes no refs. -/
theorem leads_appendOp (op : OpInProgress H) : Leads World.Aside (appendOp op) w :=
  post_appendOp.mpr ⟨fun _ => ⟨fun _ => ⟨⟨.of_objects rfl, rfl, le_rfl, id⟩, rfl⟩,
      fun _ _ => ⟨⟨.of_objects rfl, rfl, le_rfl, id⟩, rfl⟩⟩,
    fun _ _ => ⟨⟨.of_objects rfl, rfl, le_rfl, id⟩, rfl⟩⟩

/-! ## Snapshots -/

/-- Recording a snapshot on top of a change that is there, or has a new id. -/
theorem leads_recordSnap {ws : Workspace} {opts : SnapOptions} {treeHash : H} {base : SnapBase H}
    (hkind : base.fresh = true → ws.kind = .main)
    (hid : base.change.id ∈ w.repo.refs.changes ∨ ∃ n < w.ids, base.change.id = w.env.ulid n) :
    Leads World.Onward (recordSnap ws opts treeHash base) w := by
  have hadvanced : ∀ h, (base.advanced h).id = base.change.id := by
    intro h
    rw [SnapBase.advanced]
    split
    · rfl
    · exact Change.advance_id _ _
  refine .of_keeps_bind keeps_captureWorkspaceRef fun _ w₁ h₁ _ => ?_
  refine .of_keeps_bind keeps_currentTimestampNs fun now w₂ h₂ _ => ?_
  refine .of_keeps_bind (keeps_storeObject LawfulFormat.snapshot) fun snapHash w₃ h₃ _ => ?_
  have hk := (h₁.trans h₂).trans h₃
  refine .bind (leads_writeRef fun hb => hb.writeChange ?_) fun _ w₄ _ => .bind ?_ fun _ w₅ _ => ?_
  · rw [hadvanced, hk.env]
    rcases hid with hid | ⟨n, hn, hid⟩
    · rw [hk.env, hk.refs] at hb
      exact hb.changes _ hid
    · exact ⟨n, hn.trans_le hk.idsLe, hid⟩
  · rw [pointAtFresh]
    split
    · obtain ⟨kind, dir⟩ := ws
      obtain rfl : kind = .main := hkind ‹_›
      exact .bind (.bind (leads_writeRef fun hb => hb.writeHead) fun _ _ _ => .pure) fun _ _ _ => .pure
    · exact .pure
  · refine .of_keeps_bind keeps_captureWorkspaceRef fun _ w₆ _ _ => ?_
    exact .bind ((leads_appendOp _).mono World.Aside.toOnward) fun _ _ _ => .pure

/-- **A snapshot of a workspace** leads onward. -/
theorem leads_snapNow (ws : Workspace) (copy : WorkingCopy) (opts : SnapOptions) :
    Leads World.Onward (snapNow ws copy opts) w := by
  refine .of_keeps_bind keeps_scan fun treeHash w₁ _ _ => ?_
  refine .of_keeps_bind keeps_snapBase fun base w₂ hk₂ ⟨n, hbase, hn⟩ => ?_
  refine .of_keeps_bind keeps_unchangedSince fun unchanged w₃ hk₃ _ => ?_
  split
  · exact .pure
  refine leads_recordSnap hbase.kind_of_fresh ?_
  cases hbase with
  | current id c _ hc =>
    rw [hk₃.refs, hk₂.refs]
    exact .inl (c.2.symm ▸ Finmap.mem_of_lookup_eq_some hc)
  | fresh =>
    refine .inr ⟨n, (hn rfl).trans_le hk₃.idsLe, ?_⟩
    rw [hk₃.env, hk₂.env]
    rfl

/-- A snapshot only adds objects. -/
theorem onlyAdds_snapNow (ws : Workspace) (copy : WorkingCopy) (opts : SnapOptions) :
    OnlyAdds (snapNow ws copy opts) w :=
  (leads_snapNow ws copy opts).mono World.Onward.toGrows

/-- **A direct snapshot** leads onward. -/
theorem leads_snapChangeDirectly (id : ChangeId) (newTree : H) (opts : SnapOptions) :
    Leads World.Onward (snapChangeDirectly id newTree opts) w := by
  refine .of_keeps_bind keeps_getChange fun c w₁ hk₁ hc => ?_
  refine .of_keeps_bind keeps_loadObject fun prevSnap w₂ hk₂ _ => ?_
  split
  · exact .pure
  refine .of_keeps_bind keeps_currentTimestampNs fun now w₃ hk₃ _ => ?_
  refine .of_keeps_bind (keeps_storeObject LawfulFormat.snapshot) fun snapHash w₄ hk₄ _ => ?_
  have hk := ((hk₁.trans hk₂).trans hk₃).trans hk₄
  refine .bind (leads_writeRef fun hb => hb.writeChange ?_) fun _ w₅ _ => ?_
  · rw [Change.advance_id]
    have hlookup : w₄.repo.refs.changes.lookup id = some c := by
      rw [hk.refs]
      exact hc
    exact hb.of_lookup hlookup
  · exact .bind ((leads_appendOp _).mono World.Aside.toOnward) fun _ _ _ => .pure

end Repo

/-! ## With a disk -/

/-- Started here, the program leads to a world in the relation, whether or not it fails and whatever
it does to the disk. -/
def SiteM.Leads {α : Type} (R : World H → World H → Prop) (x : SiteM H α) (σ : Site H) : Prop :=
  Post x σ (fun _ σ' => R σ.world σ'.world) (fun _ σ' => R σ.world σ'.world)

/-- Started here, the program at most adds objects, whatever it does to the disk. -/
def SiteM.OnlyAdds {α : Type} (x : SiteM H α) (σ : Site H) : Prop :=
  Post x σ (fun _ σ' => σ.world.Grows σ'.world) (fun _ σ' => σ.world.Grows σ'.world)

namespace SiteM.Leads

variable {α β : Type} {R : World H → World H → Prop} {σ : Site H}

omit [LinearOrder H] [Format H] in
theorem mono {R' : World H → World H → Prop} {x : SiteM H α} (h : SiteM.Leads R x σ)
    (hR : ∀ {w'}, R σ.world w' → R' σ.world w') : SiteM.Leads R' x σ :=
  Post.mono h (fun _ _ h => hR h) (fun _ _ h => hR h)

omit [LinearOrder H] [Format H] in
theorem get {f : Site H → SiteM H β} (hf : SiteM.Leads R (f σ) σ) :
    SiteM.Leads R (MonadStateOf.get >>= f) σ := hf

omit [LinearOrder H] [Format H] in
theorem onRepo {x : RepoM H α} (hx : Tig.Leads R x σ.world) : SiteM.Leads R (Tig.onRepo x) σ :=
  post_onRepo.mpr hx

variable [World.Lax R]

theorem bind {x : SiteM H α} {f : α → SiteM H β} (hx : SiteM.Leads R x σ)
    (hf : ∀ a σ', SiteM.Leads R (f a) σ') : SiteM.Leads R (x >>= f) σ := by
  unfold SiteM.Leads
  rw [post_bind]
  refine Post.mono hx (fun a σ₁ h => ?_) (fun _ _ h => h)
  exact Post.mono (hf a σ₁) (fun _ _ h' => World.Lax.trans h h') (fun _ _ h' => World.Lax.trans h h')

theorem pure (a : α) : SiteM.Leads R (Pure.pure a : SiteM H α) σ :=
  World.Lax.kept (World.Quiet.refl σ.world).kept

theorem throw (e : Error) : SiteM.Leads R (MonadExcept.throw e : SiteM H α) σ :=
  World.Lax.kept (World.Quiet.refl σ.world).kept

theorem fromExcept (r : Except Error α) : SiteM.Leads R (Program.fromExcept r) σ := by
  cases r with
  | ok a => exact .pure a
  | error e => exact .throw e

theorem onDisk (x : DirM α) : SiteM.Leads R (Tig.onDisk x) σ := by
  have hrefl : R σ.world σ.world := World.Lax.kept (World.Quiet.refl σ.world).kept
  apply post_onDisk.mpr
  apply Post.of_cases
  · exact fun _ _ _ => hrefl
  · exact fun _ _ _ => hrefl

/-- What keeps refs and log. -/
theorem keeps {x : RepoM H α} {P : α → World H → Prop} (h : Keeps x σ.world P) :
    SiteM.Leads R (Tig.onRepo x) σ := .onRepo h.leads

/-- What a program does first, as long as it keeps refs and log. -/
theorem of_keeps_bind {x : RepoM H α} {f : α → SiteM H β} {P : α → World H → Prop}
    (hx : Keeps x σ.world P)
    (hf : ∀ a w₁, σ.world.Kept w₁ → P a w₁ → SiteM.Leads R (f a) { σ with world := w₁ }) :
    SiteM.Leads R (Tig.onRepo x >>= f) σ := by
  unfold SiteM.Leads
  rw [post_bind, post_onRepo]
  refine Post.mono hx (fun a w₁ h => ?_) (fun _ _ h => World.Lax.kept h)
  exact Post.mono (hf a w₁ h.1 h.2) (fun _ _ h' => World.Lax.trans (World.Lax.kept h.1) h')
    (fun _ _ h' => World.Lax.trans (World.Lax.kept h.1) h')

end SiteM.Leads

/-! ## Restores -/

section Restore

variable {w : World H} {opts : RestoreOptions}

theorem keeps_refuseSealed (depth : Nat) (tree : H) :
    Keeps (refuseSealed depth opts tree) w fun _ _ => True := by
  rw [refuseSealed]
  split
  · refine Keeps.bind (keeps_step (k := .objectRead) (by simp [FsStep.Mutates])) fun _ w₁ _ _ => ?_
    show Keeps (fromExcept (collectSealedPaths w₁.repo.objects depth tree) >>= _) w₁ _
    refine Keeps.bind (P := fun _ _ => True) (Keeps.fromExcept fun _ _ => trivial)
      fun paths w₂ _ _ => ?_
    split
    · exact Keeps.pure trivial
    · exact Keeps.throw
  · exact Keeps.pure trivial

theorem keeps_refuseDirty (workdir : String) (copy : WorkingCopy) (currentSnapshot : H) :
    Keeps (refuseDirty opts workdir copy currentSnapshot) w fun _ _ => True := by
  rw [refuseDirty]
  split
  · exact Keeps.pure trivial
  · refine Keeps.bind (P := fun _ _ => True)
      (scan_spec (fun _ _ hg _ => ⟨hg.quiet.kept, trivial⟩) (fun _ _ hq _ => hq.kept))
      fun tree w₁ _ _ => ?_
    refine Keeps.bind keeps_loadObject fun snap w₂ _ _ => ?_
    split
    · exact Keeps.pure trivial
    · exact Keeps.throw

/-- The checks of a restore write objects at most. -/
theorem keeps_restoreChecks (depth : Nat) (workdir : String) (copy : WorkingCopy)
    (targetSnapshot currentSnapshot : H) :
    Keeps (restoreChecks depth opts workdir copy targetSnapshot currentSnapshot) w
      fun _ _ => True := by
  refine Keeps.bind keeps_loadObject fun target w₁ _ _ => ?_
  refine Keeps.bind (keeps_refuseSealed depth target.tree) fun _ w₂ _ _ => ?_
  exact Keeps.bind (keeps_refuseDirty workdir copy currentSnapshot) fun _ w₃ _ _ =>
    Keeps.pure trivial

/-- **A restore** stays aside from the changes. -/
theorem leads_restoreTreeInto {σ : Site H} (special : Node → Option Error) (depth : Nat)
    (workdir : String) (targetSnapshot currentSnapshot : H) :
    SiteM.Leads World.Aside
      (restoreTreeInto special depth workdir targetSnapshot currentSnapshot opts) σ := by
  refine .get (.bind (.keeps (keeps_restoreChecks ..)) fun target σ₁ => ?_)
  refine .bind (.onDisk _) fun removed σ₂ => .get (.bind (.onDisk _) fun stats σ₃ => .pure _)

end Restore

end Tig
