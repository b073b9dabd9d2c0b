import Tig.Cli.Commands
import Tig.Vis.Seal

set_option relaxedAutoImplicit false
set_option autoImplicit false

/-!
# Sealing and revealing from the command line

`tig seal` encrypts under the path as it was typed, and `tig reveal` decrypts under the path that is
typed there. A render decrypts under the tree path.

## Main definitions

* `Tig.sealFor`, `Tig.unsealWith` — encryption and decryption as the commands use them.
* `Tig.cmdReveal` — `tig reveal`.
* `Tig.CurrentTree` — the tree of the change that is checked out.

## Main results

* `Tig.cmdSeal_spec` — where a sealed payload is put.
* `Tig.cmdReveal_spec` — what revealing comes to.
-/

namespace Tig

open Program

variable {K : Type} (lib : SealLib K)

/-- How an operation of the sealing library stops, as text. -/
def SealHalt.toText : SealHalt → String
  | .panic => "the process panicked"
  | .error e => e.toText

/-- What encrypting to the recipients comes to, in `tig seal`. -/
def sealFor (rnd : SealRandom K) (plaintext : Bytes) (recipients : List PublicKey) (path : String) :
    Except Error Sealed :=
  (doSeal lib rnd plaintext recipients (Utf8.encode path)).mapError fun h => .cli h.toText

/-- Decryption with a secret key. -/
def unsealWith (secret : K) : UnsealFn := fun sealed aad =>
  (doUnseal lib sealed secret aad).mapError SealHalt.toText

variable {H : Type} [LinearOrder H] [Format H]

/-- The components of a path that is typed to `tig reveal`. -/
def revealParts (path : String) : List String :=
  ((path.toList.splitOn '/').map String.ofList).filter (· ≠ "")

/-- `tig reveal`. `secret` is what looking up the identity and its key comes to. -/
def cmdReveal (inv : Invocation) (secret : Except Error K) (path : String) : RepoM H Bytes := do
  let ws ← discoverWorkspace inv.repoWorkdir inv.place
  step .registryRead
  let secret ← fromExcept secret
  match ← ws.currentChangeId with
  | none => throw (.cli "no current change")
  | some currentChangeId => do
    let change ← getChange currentChangeId
    let snap : Snapshot H ← loadObject change.1.current
    let parts := revealParts path
    if parts = [] then throw (.cli "empty path")
    else do
      step .objectRead
      let w ← get
      let entry ← fromExcept (lookupEntry w.repo.objects snap.tree parts)
      if entry.kind ≠ .sealed then
        throw (.cli ("path " ++ path ++ " is a " ++ entry.kind.toText ++ ", not a sealed entry"))
      else do
        let sealed : Sealed ← loadObject entry.target
        fromExcept ((unsealWith lib secret sealed (Utf8.encode path)).mapError .cli)

/-! ## The tree that is checked out -/

/-- The change that is checked out at a place. -/
def Place.current (place : Place) (r : Refs H) : Option ChangeId :=
  match place with
  | .main => r.head
  | .marker id => (r.workspaces.lookup id).map fun m => m.1.changeId

/-- The tree of the change that is checked out at a place. -/
def CurrentTree (place : Place) (w : World H) (tree : H) : Prop :=
  ∃ (id : ChangeId) (c : ChangeAt H id) (snap : Snapshot H),
    place.current w.repo.refs = some id ∧ w.repo.refs.changes.lookup id = some c ∧
      w.repo.objects.load c.1.current = .ok snap ∧ snap.tree = tree

variable {w : World H}

/-- A workspace that is found where a command is started has checked out what its place says. -/
theorem discoverWorkspace_spec {repoWorkdir : String} {place : Place}
    {Q : Workspace → World H → Prop} {E : Error → World H → Prop}
    (hok : ∀ ws w', w.Quiet w' → w'.repo = w.repo →
      ws.current w.repo.refs = place.current w.repo.refs → Q ws w')
    (herr : ∀ e w', w.Quiet w' → w.env.Fault e ∨ place.current w.repo.refs = none → E e w') :
    Post (discoverWorkspace repoWorkdir place) w Q E := by
  cases place with
  | main => exact hok _ w (.refl w) rfl rfl
  | marker id =>
    rw [discoverWorkspace, post_bind]
    refine openWorkspaces_spec (fun w₁ hs₁ hr₁ => ?_)
      (fun e w₁ hs₁ hr₁ hf => herr e w₁ (.of_repo hs₁ hr₁) (Or.inl hf))
    have hq₁ : w.Quiet w₁ := .of_repo hs₁ hr₁
    rw [post_bind]
    refine getWorkspace_spec (fun m w₂ hs₂ hr₂ hm => ?_) (fun e w₂ hs₂ hr₂ he => ?_)
    · refine hok _ w₂ (hq₁.trans (.of_repo hs₂ hr₂)) (hr₂.trans hr₁) ?_
      rw [hr₁] at hm
      simp [Workspace.current, Place.current, hm]
    · refine herr e w₂ (hq₁.trans (.of_repo hs₂ hr₂)) (he.imp (fun hf => hs₁.env ▸ hf) ?_)
      rintro ⟨hnone, -⟩
      rw [hr₁] at hnone
      simp [Place.current, hnone]

/-! ## Sealing -/

/-- **A sealed payload is put at its path**: the entry there is a regular one of the sealed kind, and
its target is the payload. -/
theorem writeSealedAtPath_spec {rootTree : H} {path : String} {payload : Sealed}
    {Q : H → World H → Prop} {E : Error → World H → Prop}
    (hok : ∀ tree parts target w', splitPath path = .ok parts →
      w.Grew w' (fun s => entryAt s tree parts =
        some ⟨parts.getLastD "", .sealed, target, .REGULAR, none⟩ ∧ s.load target = .ok payload) →
      Q tree w')
    (herr : ∀ e w', w.Quiet w' → E e w') :
    Post (writeSealedAtPath rootTree path payload) w Q E := by
  rw [writeSealedAtPath, post_bind, post_fromExcept]
  refine ⟨fun parts hparts => ?_, fun e _ => herr e w (.refl w)⟩
  rw [post_bind]
  refine storeObject_grew LawfulFormat.sealed (fun w₁ hg₁ => ?_) (fun e w₁ hq₁ _ => herr e w₁ hq₁)
  refine rewriteInsert_spec (fun tree w₂ hg₂ => ?_)
    (fun e w₂ hq₂ => herr e w₂ (hg₁.quiet.trans hq₂))
  refine hok tree parts ((encode H payload).hash H) w₂ hparts ⟨hg₁.quiet.trans hg₂.quiet, fun hi => ?_⟩
  exact ⟨(hg₂.stored (hg₁.quiet.intact hi)).2.1, hg₂.quiet.le.load (hg₁.stored hi)⟩

/-- The change that is sealed into is the one that is checked out. -/
theorem sealTarget_spec {ws : Workspace} {Q : ChangeId → World H → Prop}
    {E : Error → World H → Prop}
    (hok : ∀ id w', w.Quiet w' → ws.current w.repo.refs = some id → Q id w')
    (herr : ∀ e w', w.Quiet w' → E e w') : Post (sealTarget ws) w Q E := by
  rw [sealTarget, post_bind]
  refine currentChangeId_spec (fun w₁ hs₁ hr₁ => ?_)
    (fun e w₁ hs₁ hr₁ _ => herr e w₁ (.of_repo hs₁ hr₁))
  have hq₁ : w.Quiet w₁ := .of_repo hs₁ hr₁
  cases hcur : ws.current w.repo.refs with
  | none => exact herr _ w₁ hq₁
  | some id => exact hok id w₁ hq₁ hcur

omit [LinearOrder H] [Format H] in
/-- Writing the record of a change leaves what is checked out. -/
theorem Place.current_write (place : Place) (r : Refs H) (c : Change H) :
    place.current (r.write (.ofChange c)) = place.current r := by
  cases place <;> rfl

omit [LinearOrder H] [Format H] in
/-- The record of a change that was just written is found. -/
theorem lookup_write_change (r : Refs H) {c : Change H} {id : ChangeId} (hid : c.id = id) :
    (r.write (.ofChange c)).changes.lookup id = some ⟨c, hid⟩ := by
  subst hid
  have hread := Refs.read_write r (.ofChange c)
  exact RefSnapshot.change.inj hread |>.2 |> eq_of_heq

/-- A direct snapshot that carries a message replaces the tree of the change. -/
theorem snapChangeDirectly_currentTree [LawfulFormat H] (place : Place) {id : ChangeId}
    {newTree : H} {opts : SnapOptions} (hi : w.repo.objects.Intact)
    (hid : place.current w.repo.refs = some id) (hmessage : opts.message.isNone = false) :
    Post (snapChangeDirectly id newTree opts) w
      (fun _ w' => w'.env = w.env ∧ w.repo.objects.Le w'.repo.objects ∧
        CurrentTree place w' newTree)
      (fun _ _ => True) := by
  refine snapChangeDirectly_spec (fun c prev w' _ _ _ hun => ?_) ?_ (fun _ _ _ _ => trivial)
    (fun _ _ _ _ _ _ _ => trivial)
  · simp [SnapOptions.unchanged, hmessage] at hun
  · intro c now op w' hc _ snap h hcom _ _ _ _ hload
    refine ⟨hcom.env, hcom.le, id, ⟨c.1.advance h, (Change.advance_id _ _).trans c.2⟩, snap, ?_, ?_, ?_,
      rfl⟩
    · rw [hcom.refs]
      exact (place.current_write _ _).trans hid
    · rw [hcom.refs]
      exact lookup_write_change _ _
    · rw [Change.advance_current]
      exact hload hi

/-- The payload is at the path, in the tree that is checked out. -/
def SealedAt (place : Place) (w : World H) (path : String) (payload : Sealed) : Prop :=
  ∃ tree parts target, CurrentTree place w tree ∧ splitPath path = .ok parts ∧
    entryAt w.repo.objects tree parts =
      some ⟨parts.getLastD "", .sealed, target, .REGULAR, none⟩ ∧
    w.repo.objects.load target = .ok payload

/-- **What `tig seal` leaves behind**: the sealed payload at its path, in the tree of the change that
is checked out. -/
theorem cmdSeal_spec [LawfulFormat H] {inv : Invocation} {path : String} {sealed : Except Error Sealed}
    (hi : w.repo.objects.Intact) :
    Post (cmdSeal inv path sealed) w
      (fun _ w' => w'.env = w.env ∧ ∃ payload, sealed = .ok payload ∧
        SealedAt inv.place w' path payload)
      (fun _ _ => True) := by
  rw [cmdSeal, post_bind]
  refine discoverWorkspace_spec (fun ws w₁ hq₁ hr₁ hws => ?_) (fun _ _ _ _ => trivial)
  rw [post_bind, lockForWrite]
  refine step_spec (by simp [FsStep.Mutates]) (fun w₂ hs₂ hr₂ => ?_) (fun _ _ _ _ _ => trivial)
  have hq₂ := hq₁.trans (.of_repo hs₂ hr₂)
  rw [post_bind]
  refine step_spec (by simp [FsStep.Mutates]) (fun w₃ hs₃ hr₃ => ?_) (fun _ _ _ _ _ => trivial)
  have hq₃ := hq₂.trans (.of_repo hs₃ hr₃)
  rw [post_bind, post_fromExcept]
  refine ⟨fun payload hpayload => ?_, fun _ _ => trivial⟩
  rw [post_bind]
  refine sealTarget_spec (fun id w₄ hq₄ hid => ?_) (fun _ _ _ => trivial)
  have hq₄ := hq₃.trans hq₄
  rw [hq₃.refs, hws] at hid
  rw [post_bind]
  refine getChange_spec (fun c w₅ hs₅ hr₅ hc => ?_) (fun _ _ _ _ _ => trivial)
  have hq₅ := hq₄.trans (.of_repo hs₅ hr₅)
  rw [post_bind]
  refine loadObject_spec (fun snap w₆ hs₆ hr₆ hsnap => ?_) (fun _ _ _ _ _ => trivial)
  have hq₆ := hq₅.trans (.of_repo hs₆ hr₆)
  rw [post_bind]
  refine writeSealedAtPath_spec (fun newTree parts target w₇ hparts hg₇ => ?_)
    (fun _ _ _ => trivial)
  have hq₇ := hq₆.trans hg₇.quiet
  obtain ⟨hentry, htarget⟩ := hg₇.stored (hq₆.intact hi)
  rw [post_bind]
  refine openLog_spec (fun w₈ hs₈ hr₈ => ?_) (fun _ _ _ _ _ => trivial)
  have hq₈ := hq₇.trans (.of_repo hs₈ hr₈)
  refine (snapChangeDirectly_currentTree (w := { w₈ with log := ⟨computeNextId w₇.repo.oplog⟩ })
    inv.place (hq₈.intact hi) ?_ rfl).mono ?_ (fun _ _ h => h)
  · exact (congrArg inv.place.current hq₈.refs).trans hid
  · rintro _ w' ⟨henv, hle, hcurrent⟩
    have hle' : w₇.repo.objects.Le w'.repo.objects := hr₈ ▸ hle
    exact ⟨henv.trans hq₈.env, payload, hpayload, newTree, parts, target, hcurrent, hparts,
      entryAt_mono hle' hentry, hle'.load htarget⟩

/-! ## Revealing -/

/-- **What revealing comes to**, where no step of the file system fails: what the payload at the path
decrypts to, under the path as it was typed. -/
theorem cmdReveal_spec {inv : Invocation} {secret : K} {path : String} {tree target : H}
    {entry : TreeEntry H} {payload : Sealed} (hrel : w.env.Reliable)
    (htree : CurrentTree inv.place w tree)
    (hentry : entryAt w.repo.objects tree (revealParts path) = some entry)
    (hk : entry.kind = .sealed) (ht : entry.target = target)
    (hpayload : w.repo.objects.load target = .ok payload) :
    Post (cmdReveal (H := H) lib inv (.ok secret) path) w
      (fun out _ => unsealWith lib secret payload (Utf8.encode path) = .ok out)
      (fun _ _ => ∃ reason, unsealWith lib secret payload (Utf8.encode path) = .error reason) := by
  obtain ⟨id, c, snap, hid, hc, hsnap, rfl⟩ := htree
  subst ht
  have hne : revealParts path ≠ [] := by
    intro hnil
    rw [hnil] at hentry
    cases hentry
  rw [cmdReveal, post_bind]
  refine discoverWorkspace_spec (fun ws w₁ hq₁ hr₁ hws => ?_) (fun e w₁ _ he => ?_)
  swap
  · rcases he with hf | hnone
    · exact absurd hf (hrel.not_fault e)
    · rw [hid] at hnone
      cases hnone
  rw [post_bind]
  refine step_spec (by simp [FsStep.Mutates]) (fun w₂ hs₂ hr₂ => ?_)
    (fun e _ _ _ hf => absurd hf (hq₁.env ▸ hrel.not_fault e))
  have hq₂ := hq₁.trans (.of_repo hs₂ hr₂)
  have hr₂' := hr₂.trans hr₁
  rw [post_bind, post_fromExcept]
  refine ⟨?_, fun e he => by cases he⟩
  rintro _ ⟨⟩
  rw [post_bind]
  refine currentChangeId_spec (fun w₃ hs₃ hr₃ => ?_)
    (fun e _ _ _ hf => absurd hf (hq₂.env ▸ hrel.not_fault e))
  have hq₃ := hq₂.trans (.of_repo hs₃ hr₃)
  have hr₃' := hr₃.trans hr₂'
  rw [hr₂', hws, hid]
  dsimp only
  rw [post_bind]
  refine getChange_spec (fun c' w₄ hs₄ hr₄ hc' => ?_) (fun e _ _ _ he => ?_)
  swap
  · rcases he with hf | ⟨hnone, -⟩
    · exact absurd hf (hq₃.env ▸ hrel.not_fault e)
    · rw [hr₃', hc] at hnone
      cases hnone
  have hq₄ := hq₃.trans (.of_repo hs₄ hr₄)
  have hr₄' := hr₄.trans hr₃'
  rw [hr₃'] at hc'
  obtain rfl := Option.some.inj (hc.symm.trans hc')
  rw [post_bind]
  refine loadObject_spec (fun snap' w₅ hs₅ hr₅ hsnap' => ?_) (fun e _ _ _ he => ?_)
  swap
  · rcases he with hf | herr
    · exact absurd hf (hq₄.env ▸ hrel.not_fault e)
    · rw [hr₄', hsnap] at herr
      cases herr
  have hq₅ := hq₄.trans (.of_repo hs₅ hr₅)
  have hr₅' := hr₅.trans hr₄'
  rw [hr₄'] at hsnap'
  obtain rfl := Except.ok.inj (hsnap.symm.trans hsnap')
  rw [if_neg hne, post_bind]
  refine step_spec (by simp [FsStep.Mutates]) (fun w₆ hs₆ hr₆ => ?_)
    (fun e _ _ _ hf => absurd hf (hq₅.env ▸ hrel.not_fault e))
  have hq₆ := hq₅.trans (.of_repo hs₆ hr₆)
  have hr₆' := hr₆.trans hr₅'
  have hlookup : lookupEntry w₆.repo.objects snap.tree (revealParts path) = .ok entry := by
    rw [hr₆']
    exact lookupBelow_eq_ok.mpr hentry
  rw [post_bind, post_get, hlookup, post_bind, post_fromExcept]
  refine ⟨?_, fun e he => by cases he⟩
  rintro _ ⟨⟩
  rw [if_neg (not_not.mpr hk), post_bind]
  refine loadObject_spec (fun payload' w₇ _ _ hpayload' => ?_) (fun e _ _ _ he => ?_)
  swap
  · rcases he with hf | herr
    · exact absurd hf (hq₆.env ▸ hrel.not_fault e)
    · rw [hr₆', hpayload] at herr
      cases herr
  rw [hr₆'] at hpayload'
  obtain rfl := Except.ok.inj (hpayload.symm.trans hpayload')
  rw [post_fromExcept]
  cases unsealWith lib secret payload (Utf8.encode path) <;> simp [Except.mapError]

end Tig
