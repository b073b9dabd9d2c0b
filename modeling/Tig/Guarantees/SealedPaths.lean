import Tig.Cli.Sealing
import Tig.Fs.PathMap
import Tig.Fs.Rendering
import Tig.Guarantees.Sealing

set_option relaxedAutoImplicit false
set_option autoImplicit false

/-!
# Sealed files under the path they were sealed at

`tig seal` binds a payload to the path as it was typed. The tree keeps the components of the path
only, and everything that decrypts the payload in place uses the tree path that is put together from
them. The two are the same unless the path was typed with a slash too many.

## Main definitions

* `Tig.OpensInPlace` — a render and a reveal decrypt the payload at its place.

## Main results

* `Tig.treePath_eq_iff` — when a typed path is the tree path of its components.
* `Tig.opensInPlace_iff` — when a sealed payload opens where it lives.
-/

namespace Tig

open Program

/-! ## Typed paths and tree paths -/

/-- A typed path with a slash at its start or at its end, or with two slashes in a row, has an empty
component. -/
def EmptyComponent (path : String) : Prop := [] ∈ path.toList.splitOn '/'

instance (path : String) : Decidable (EmptyComponent path) :=
  inferInstanceAs (Decidable ([] ∈ path.toList.splitOn '/'))

/-- Below a path that is not empty, each name adds a slash and itself. -/
theorem toList_treePath {pathPrefix : String} (h : pathPrefix ≠ "") {parts : List String} :
    (treePath pathPrefix parts).toList =
      pathPrefix.toList ++ parts.flatMap fun p => '/' :: p.toList := by
  induction parts generalizing pathPrefix with
  | nil => simp [treePath]
  | cons name parts ih =>
    have hne : pathPrefix ++ "/" ++ name ≠ "" := by simp [h]
    have hstep : treePath pathPrefix (name :: parts) =
        treePath (pathPrefix ++ "/" ++ name) parts := by
      simp [treePath, entryPath, h]
    rw [hstep, ih hne]
    simp

/-- A tree path is its names with slashes between them. -/
theorem toList_treePath_root {parts : List String} (h : "" ∉ parts) :
    (treePath "" parts).toList = ['/'].intercalate (parts.map String.toList) := by
  cases parts with
  | nil => rfl
  | cons name parts =>
    have hne : name ≠ "" := fun heq => h (heq ▸ List.mem_cons_self)
    have hstep : treePath "" (name :: parts) = treePath name parts := rfl
    rw [hstep, toList_treePath hne]
    clear hstep h hne
    induction parts generalizing name with
    | nil => simp
    | cons next parts ih =>
      rw [List.flatMap_cons, List.map_cons, List.map_cons, List.intercalate_cons_cons,
        ← List.map_cons, ← ih next]
      simp

/-- What splitting a path says of its components. -/
theorem splitPath_eq {path : String} {parts : List String} (h : splitPath path = .ok parts) :
    parts = ((path.toList.splitOn '/').map String.ofList).filter (· ≠ "") := by
  unfold splitPath at h
  dsimp only at h
  split at h
  · cases h
  · split at h
    · cases h
    · exact (Except.ok.inj h).symm

section Components

variable {path : String} {parts : List String}

/-- A tree path splits into the components it was put together from. -/
theorem splitOn_treePath (hne : parts ≠ []) (hvalid : ∀ p ∈ parts, TreeEntry.validateName p = .ok ()) :
    (treePath "" parts).toList.splitOn '/' = parts.map String.toList := by
  have hempty : "" ∉ parts := fun h => by simpa [TreeEntry.validateName] using hvalid "" h
  rw [toList_treePath_root hempty]
  refine List.splitOn_intercalate '/' ?_ (by simpa using hne)
  intro l hl hslash
  obtain ⟨p, hp, rfl⟩ := List.mem_map.mp hl
  simpa [TreeEntry.validateName, hslash] using hvalid p hp

/-- The tree path reveals at its components. -/
theorem revealParts_treePath (h : splitPath path = .ok parts) :
    revealParts (treePath "" parts) = parts := by
  obtain ⟨hne, hvalid⟩ := splitPath_valid h
  rw [revealParts, splitOn_treePath hne hvalid, List.map_map, List.filter_eq_self.mpr]
  · simp
  · intro p hp
    obtain ⟨q, hq, rfl⟩ := List.mem_map.mp hp
    have hvq := hvalid q hq
    simp only [Function.comp_apply, String.ofList_toList, ne_eq, decide_not, Bool.not_eq_eq_eq_not,
      Bool.not_true, decide_eq_false_iff_not]
    rintro rfl
    simp [TreeEntry.validateName] at hvq

/-- **A typed path is the tree path** of its components exactly when none of them is empty. -/
theorem treePath_eq_iff (h : splitPath path = .ok parts) :
    treePath "" parts = path ↔ ¬ EmptyComponent path := by
  obtain ⟨hne, hvalid⟩ := splitPath_valid h
  have hempty : "" ∉ parts := fun h => by simpa [TreeEntry.validateName] using hvalid "" h
  constructor
  · intro heq hmem
    rw [EmptyComponent, ← heq, splitOn_treePath hne hvalid] at hmem
    obtain ⟨p, hp, hnil⟩ := List.mem_map.mp hmem
    exact hempty (String.toList_eq_nil_iff.mp hnil ▸ hp)
  · intro hno
    have hparts : parts.map String.toList = path.toList.splitOn '/' := by
      rw [splitPath_eq h, List.filter_eq_self.mpr]
      · simp
      · intro p hp
        obtain ⟨piece, hpiece, rfl⟩ := List.mem_map.mp hp
        have hpne : piece ≠ [] := by
          rintro rfl
          exact hno hpiece
        simpa [String.ofList_eq_empty_iff] using hpne
    rw [← String.toList_inj, toList_treePath_root hempty, hparts, List.intercalate_splitOn]

end Components

/-! ## Where the payload lives -/

variable {H : Type} [LinearOrder H] [Format H] {K : Type} {lib : SealLib K}

variable (lib) in
/-- What was sealed at the typed path is decrypted to `plaintext` with the key where it lives: by a
render of the tree that is checked out, when it gets to the entry, and by a reveal at the tree
path. -/
structure OpensInPlace (inv : Invocation) (w : World H) (path : String) (secret : K)
    (plaintext : Bytes) : Prop where
  rendered : ∃ tree parts entry, CurrentTree inv.place w tree ∧ splitPath path = .ok parts ∧
    entryAt w.repo.objects tree parts = some entry ∧ entry.kind = .sealed ∧
    ∀ (policy : OnUnsealable) (dst : String),
      (∀ descend st, ∃ stats,
        renderEntry w.repo.objects ⟨some (unsealWith lib secret), policy⟩ dst descend parts
          (treePath "" parts) entry st =
          .ok () ⟨st.actions ++ [.write parts plaintext], stats⟩) ∧
      ∀ depth st, Post (renderTree w.repo.objects ⟨some (unsealWith lib secret), policy⟩ dst depth
        tree [] "") st (fun _ st' => .write parts plaintext ∈ st'.actions) (fun _ _ => True)
  revealed : ∀ parts, splitPath path = .ok parts →
    Post (cmdReveal lib inv (.ok secret) (treePath "" parts)) w (fun out _ => out = plaintext)
      (fun _ _ => False)

/-- What a key that was sealed for makes of the payload under some associated data. -/
theorem unsealWith_sealFor (hideal : lib.Ideal) {rnd : SealRandom K} {plaintext : Bytes}
    {recipients : List PublicKey} {path : String} {payload : Sealed}
    (h : sealFor lib rnd plaintext recipients path = .ok payload) {secret : K}
    (hmem : lib.publicKey secret ∈ recipients) (under : String) :
    unsealWith lib secret payload (Utf8.encode under) =
      if under = path then .ok plaintext else .error VisError.authFailure.toText := by
  have hseal : doSeal lib rnd plaintext recipients (Utf8.encode path) = .ok payload := by
    revert h
    rw [sealFor]
    cases doSeal lib rnd plaintext recipients (Utf8.encode path) <;> simp [Except.mapError]
  rw [unsealWith]
  split_ifs with heq
  · rw [heq, doUnseal_doSeal hideal hseal hmem]
    rfl
  · rw [doUnseal_doSeal_otherAad hseal fun hne => heq (Utf8.encode_injective hne)]
    rfl

/-- A payload at its path opens there exactly when it was sealed under the tree path. -/
theorem opensInPlace_iff_treePath {inv : Invocation} {w : World H} {path : String}
    {parts : List String} {payload : Sealed} {secret : K} {plaintext : Bytes}
    (hrel : w.env.Reliable) (hsealed : SealedAt inv.place w path payload)
    (hparts : splitPath path = .ok parts)
    (hunseal : ∀ under, unsealWith lib secret payload (Utf8.encode under) =
      if under = path then .ok plaintext else .error VisError.authFailure.toText) :
    OpensInPlace lib inv w path secret plaintext ↔ treePath "" parts = path := by
  obtain ⟨tree, parts', target, htree, hparts', hentry, htarget⟩ := hsealed
  obtain rfl := Except.ok.inj (hparts.symm.trans hparts')
  have hunder := hunseal (treePath "" parts)
  have hreveal : Post (cmdReveal (H := H) lib inv (.ok secret) (treePath "" parts)) w
      (fun out _ => unsealWith lib secret payload (Utf8.encode (treePath "" parts)) = .ok out)
      (fun _ _ => ∃ reason, unsealWith lib secret payload (Utf8.encode (treePath "" parts)) =
        .error reason) :=
    cmdReveal_spec lib hrel htree (by rwa [revealParts_treePath hparts]) rfl rfl htarget
  rw [hunder] at hreveal
  constructor
  · intro hopens
    by_contra hne
    rw [if_neg hne] at hreveal
    obtain ⟨out, _, -, -, hout⟩ :=
      ((hopens.revealed parts hparts).and hreveal).mono (fun _ _ h => h) (fun _ _ h => h.1)
        |>.exists_ok
    cases hout
  · intro heq
    rw [if_pos heq] at hunder hreveal
    constructor
    · refine ⟨tree, parts, _, htree, hparts, hentry, rfl, fun policy dst => ⟨?_, ?_⟩⟩
      · intro descend st
        refine ⟨⟨st.stats.files, st.stats.bytes + plaintext.length, st.stats.sealedUnsealed + 1,
          st.stats.sealedSkipped⟩, ?_⟩
        simp only [renderEntry, htarget, fromExcept, pure_bind, hunder]
        rfl
      · intro depth st
        -- the walk calls for what the entry calls for, which is to write the plaintext
        refine renderTree_spec.mono ?_ (fun _ _ _ => trivial)
        rintro _ st' ⟨ops, hst', hops⟩
        obtain ⟨_, ops', hin, hcalls⟩ := ((hops ops).mpr rfl).listed (listed_of_entryAt hentry)
        obtain ⟨_, sealed, ⟨⟩, hsealed, hcase⟩ := hcalls
        obtain rfl : payload = sealed := Except.ok.inj (htarget.symm.trans hsealed)
        rw [hunder] at hcase
        rcases hcase with ⟨out, hout, rfl⟩ | ⟨_, hout, -⟩
        · obtain rfl := Except.ok.inj hout
          rw [hst']
          exact List.mem_append_right _ (hin.subset List.mem_cons_self)
        · cases hout
    · intro parts' hparts'
      obtain rfl := Except.ok.inj (hparts.symm.trans hparts')
      refine hreveal.mono (fun _ _ h => (Except.ok.inj h).symm) fun _ _ h => ?_
      obtain ⟨_, h⟩ := h
      cases h

/-- **What `tig seal` accepts opens where it lives** exactly when no component of the path, as it was
typed, is empty. -/
theorem opensInPlace_iff [LawfulFormat H] (hideal : lib.Ideal) {inv : Invocation}
    {rnd : SealRandom K} {plaintext : Bytes} {recipients : List PublicKey} {path : String}
    {w w' : World H} {outcome : SnapOutcome H} (hi : w.repo.objects.Intact)
    (hrel : w.env.Reliable)
    (hrun : cmdSeal inv path (sealFor lib rnd plaintext recipients path) w = .ok outcome w')
    {secret : K} (hmem : lib.publicKey secret ∈ recipients) :
    OpensInPlace lib inv w' path secret plaintext ↔ ¬ EmptyComponent path := by
  obtain ⟨henv, payload, hpayload, hsealed⟩ := (cmdSeal_spec hi).ok hrun
  obtain ⟨parts, hparts⟩ : ∃ parts, splitPath path = .ok parts := by
    obtain ⟨_, parts, _, _, hparts, -⟩ := hsealed
    exact ⟨parts, hparts⟩
  rw [← treePath_eq_iff hparts]
  exact opensInPlace_iff_treePath (henv ▸ hrel) hsealed hparts
    (unsealWith_sealFor hideal hpayload hmem)

namespace SealedOnce

/-- A snapshot of the empty tree. -/
def snapshot : Snapshot PlainHash :=
  ⟨[], (encode PlainHash (Tree.new : Tree PlainHash)).hash PlainHash, "local:alice", 0, none, none⟩

/-- A change that points at it. -/
def change : Change PlainHash :=
  Change.new "c" "a change" "local:alice" ((encode PlainHash snapshot).hash PlainHash)

/-- A repository in which the change is checked out. -/
def world : World PlainHash :=
  let w := (World.fresh .calm).setObjects
    (((∅ : ObjectStore PlainHash).put (encode PlainHash (Tree.new : Tree PlainHash))).put
      (encode PlainHash snapshot))
  w.setRefs ((w.repo.refs.write (.ofChange change)).write (.head (some "c")))

def invocation : Invocation := ⟨"local:alice", "/repo", .main⟩

/-- `tig seal` of three bytes for one key. -/
def run (path : String) : EStateM.Result Error (World PlainHash) (SnapOutcome PlainHash) :=
  cmdSeal invocation path (sealFor plainSealLib random [1, 2, 3] [key 1] path) world

/-- Did a program return? -/
def returned {ε σ α : Type} : EStateM.Result ε σ α → Bool
  | .ok _ _ => true
  | .error _ _ => false

theorem exists_of_returned {ε σ α : Type} {r : EStateM.Result ε σ α} (h : returned r = true) :
    ∃ a s, r = .ok a s := by
  cases r with
  | ok a s => exact ⟨a, s, rfl⟩
  | error e s => cases h

theorem intact_world : world.repo.objects.Intact :=
  ((ObjectStore.intact_empty).put _).put _

end SealedOnce

open SealedOnce in
/-- A file sealed as `a/b` opens in place. -/
theorem opensInPlace_subdir : ∃ outcome w', run "a/b" = .ok outcome w' ∧
    OpensInPlace plainSealLib invocation w' "a/b" (key 1) [1, 2, 3] := by
  obtain ⟨outcome, w', hrun⟩ := exists_of_returned (r := run "a/b") (by decide +kernel)
  exact ⟨outcome, w', hrun, (opensInPlace_iff plainSealLib_ideal intact_world Env.calm_reliable hrun
    (by decide)).mpr (by decide)⟩

open SealedOnce in
/-- A file sealed as `/a` does not. -/
theorem not_opensInPlace_slash : ∃ outcome w', run "/a" = .ok outcome w' ∧
    ¬ OpensInPlace plainSealLib invocation w' "/a" (key 1) [1, 2, 3] := by
  obtain ⟨outcome, w', hrun⟩ := exists_of_returned (r := run "/a") (by decide +kernel)
  refine ⟨outcome, w', hrun, ?_⟩
  obtain ⟨henv, payload, hpayload, hsealed⟩ := (cmdSeal_spec intact_world).ok hrun
  have hrel : w'.env.Reliable := henv ▸ Env.calm_reliable
  have hparts : splitPath "/a" = .ok ["a"] := by decide
  rw [opensInPlace_iff_treePath hrel hsealed hparts
    (unsealWith_sealFor plainSealLib_ideal hpayload (by decide))]
  decide

end Tig
