import Tig.Fs.Blame
import Tig.Fs.Diff
import Tig.Fs.Grep
import Tig.Fs.Closure

set_option relaxedAutoImplicit false
set_option autoImplicit false

/-!
# Reading from two stores

What is read of a snapshot depends on the objects that its tree and its parents lead to, along the
edges that marking follows, and on no others. Only a render reads more, namely the targets of
symlinks.

## Main results

* `Tig.lookupEntry_congr`, `Tig.listTree_congr`, `Tig.grepTree_congr` — the readers of a tree.
* `Tig.blameAt_congr` — blaming.
-/

namespace Tig

open Program

variable {H : Type} [LinearOrder H] [Format H] {s s' : ObjectStore H}

/-- Stores that agree on a closed set have its trees in common. -/
theorem AgreeOn.sameTrees {R : H → Prop} (h : AgreeOn R s s') : SameTrees R s s' where
  tree := h.same
  leaf t ht tree hload e he hk := by
    refine h.same _ (h.of_entry ht hload he ?_)
    rcases hk with hk | hk
    · rw [hk]
      rfl
    · rw [hk]
      rfl
  dir t ht tree hload e he hk := h.of_entry ht hload he (by rw [hk]; rfl)

/-! ## Looking up a path -/

section Lookup

variable {T : H → Prop} {tree : H}

theorem lookupBelow_congr (h : SameTrees T s s') (ht : T tree) (walked parts : List String) :
    lookupBelow s walked tree parts = lookupBelow s' walked tree parts := by
  induction parts generalizing walked tree with
  | nil => rfl
  | cons part rest ih =>
    rw [lookupBelow, lookupBelow, ← ObjectStore.load_congr (h.tree tree ht)]
    cases hload : (s.load tree : Except Error (Tree H)) with
    | error e => rfl
    | ok t =>
      simp only [bind, Except.bind]
      cases hget : t.get part with
      | none => rfl
      | some entry =>
        dsimp only
        split_ifs with hrest hk
        · rfl
        · rfl
        · exact ih (h.dir tree ht t hload entry (mem_of_findEntry hget) (not_not.mp hk)) _

theorem lookupEntry_congr (h : SameTrees T s s') (ht : T tree) (parts : List String) :
    lookupEntry s tree parts = lookupEntry s' tree parts :=
  lookupBelow_congr h ht [] parts

theorem entryAt_congr (h : SameTrees T s s') (ht : T tree) (path : List String) :
    entryAt s tree path = entryAt s' tree path := by
  induction path generalizing tree with
  | nil => rfl
  | cons name rest ih =>
    cases hload : (s.load tree : Except Error (Tree H)) with
    | error e => rw [entryAt, entryAt, ← ObjectStore.load_congr (h.tree tree ht), hload]
    | ok t =>
      rw [entryAt_cons hload,
        entryAt_cons ((ObjectStore.load_congr (h.tree tree ht)).symm.trans hload)]
      refine Option.bind_congr fun e he => ?_
      split_ifs with hrest hk
      · rfl
      · exact ih (h.dir tree ht t hload e (mem_of_findEntry he) hk)
      · rfl

/-- An entry that was looked up is one of a tree in the set. -/
theorem entry_of_lookupBelow (h : SameTrees T s s') (ht : T tree) {walked parts : List String}
    {entry : TreeEntry H} (hlookup : lookupBelow s walked tree parts = .ok entry) :
    ∃ d, T d ∧ ∃ t : Tree H, s.load d = .ok t ∧ entry ∈ t.entries := by
  induction parts generalizing walked tree with
  | nil => cases hlookup
  | cons part rest ih =>
    rw [lookupBelow] at hlookup
    obtain ⟨t, hload, hlookup⟩ := Program.except_bind_eq_ok.mp hlookup
    cases hget : t.get part with
    | none =>
      rw [hget] at hlookup
      cases hlookup
    | some e =>
      rw [hget] at hlookup
      dsimp only at hlookup
      have hmem := mem_of_findEntry hget
      split_ifs at hlookup with hrest hk
      · obtain rfl := Except.ok.inj hlookup
        exact ⟨tree, ht, t, hload, hmem⟩
      · exact ih (h.dir tree ht t hload e hmem (not_not.mp hk)) hlookup

/-- The stores have in common what an entry that was looked up points at. -/
theorem sameTarget_of_lookupBelow (h : SameTrees T s s') (ht : T tree) {walked parts : List String}
    {entry : TreeEntry H} (hlookup : lookupBelow s walked tree parts = .ok entry) :
    (entry.kind = .file ∨ entry.kind = .sealed → s.lookup entry.target = s'.lookup entry.target) ∧
      (entry.kind = .tree → T entry.target) := by
  obtain ⟨d, hd, t, hload, hmem⟩ := entry_of_lookupBelow h ht hlookup
  exact ⟨h.leaf d hd t hload entry hmem, h.dir d hd t hload entry hmem⟩

/-- **Reading the file at a path.** -/
theorem readBlobAtPath_congr (h : SameTrees T s s') (ht : T tree) (path : String) :
    readBlobAtPath s tree path = readBlobAtPath s' tree path := by
  rw [readBlobAtPath, readBlobAtPath]
  cases splitPath path with
  | error e => rfl
  | ok parts =>
    simp only [bind, Except.bind]
    rw [← lookupEntry_congr h ht parts]
    cases hlookup : lookupEntry s tree parts with
    | error e => rfl
    | ok entry =>
      dsimp only
      split_ifs with hk
      · rfl
      · rw [ObjectStore.load_congr ((sameTarget_of_lookupBelow h ht hlookup).1 (.inl (not_not.mp hk)))]

theorem tryReadBelow_congr (h : SameTrees T s s') (ht : T tree) (parts : List String) :
    tryReadBelow s tree parts = tryReadBelow s' tree parts := by
  induction parts generalizing tree with
  | nil => rfl
  | cons part rest ih =>
    rw [tryReadBelow, tryReadBelow, ← ObjectStore.load_congr (h.tree tree ht)]
    cases hload : (s.load tree : Except Error (Tree H)) with
    | error e => rfl
    | ok t =>
      simp only [bind, Except.bind]
      cases hget : t.get part with
      | none => rfl
      | some entry =>
        have hmem := mem_of_findEntry hget
        dsimp only
        split_ifs with hrest hfile hk
        · rfl
        · rw [ObjectStore.load_congr (h.leaf tree ht t hload entry hmem (.inl (not_not.mp hfile)))]
        · rfl
        · exact ih (h.dir tree ht t hload entry hmem (not_not.mp hk))

theorem tryReadBlobAtPath_congr (h : SameTrees T s s') (ht : T tree) (path : String) :
    tryReadBlobAtPath s tree path = tryReadBlobAtPath s' tree path := by
  rw [tryReadBlobAtPath, tryReadBlobAtPath]
  cases splitPath path with
  | error e => rfl
  | ok parts => exact tryReadBelow_congr h ht parts

/-- **Listing the directory at a path.** -/
theorem listTree_congr (h : SameTrees T s s') (ht : T tree) (path : String) :
    listTree s tree path = listTree s' tree path := by
  rw [listTree, listTree]
  refine ite_congr rfl (fun _ => ObjectStore.load_congr (h.tree tree ht)) fun _ => ?_
  cases splitPath (trimSlashes path) with
  | error e => rfl
  | ok parts =>
    simp only [bind, Except.bind]
    rw [← lookupEntry_congr h ht parts]
    cases hlookup : lookupEntry s tree parts with
    | error e => rfl
    | ok entry =>
      dsimp only
      split_ifs with hk
      · rfl
      · exact ObjectStore.load_congr
          (h.tree _ ((sameTarget_of_lookupBelow h ht hlookup).2 (not_not.mp hk)))

end Lookup

/-! ## Searching -/

section Grep

variable {T : H → Prop} (lib : TextLib) (opts : GrepOptions)

theorem walkEntries_congr (matcher : Matcher)
    {descend descend' : H → String → List GrepMatch → Except Error (List GrepMatch)}
    {entries : List (TreeEntry H)}
    (hfile : ∀ e ∈ entries, e.kind = .file → s.lookup e.target = s'.lookup e.target)
    (hdir : ∀ e ∈ entries, e.kind = .tree → descend e.target = descend' e.target)
    (pathPrefix : String) (out : List GrepMatch) :
    walkEntries lib opts matcher s descend pathPrefix entries out =
      walkEntries lib opts matcher s' descend' pathPrefix entries out := by
  induction entries generalizing out with
  | nil => rfl
  | cons entry rest ih =>
    have hrest := ih (fun e he => hfile e (List.mem_cons_of_mem _ he))
      (fun e he => hdir e (List.mem_cons_of_mem _ he))
    have hf := hfile entry List.mem_cons_self
    have hd := hdir entry List.mem_cons_self
    rw [walkEntries, walkEntries]
    refine ite_congr rfl (fun _ => rfl) fun _ => ?_
    cases hk : entry.kind with
    | file =>
      dsimp only
      simp only [ObjectStore.load_congr (hf hk), hrest]
    | tree =>
      dsimp only
      simp only [hd hk, hrest]
    | «sealed» | conflict | submodule | symlink => exact hrest out

theorem grepWalk_congr (h : SameTrees T s s') (matcher : Matcher) (depth : Nat) {tree : H}
    (ht : T tree) : grepWalk lib opts matcher s depth tree = grepWalk lib opts matcher s' depth tree := by
  induction depth generalizing tree with
  | zero => rfl
  | succ depth ih =>
    funext pathPrefix out
    rw [grepWalk, grepWalk, ← ObjectStore.load_congr (h.tree tree ht)]
    cases hload : (s.load tree : Except Error (Tree H)) with
    | error e => rfl
    | ok t =>
      exact walkEntries_congr lib opts matcher
        (fun e he hk => h.leaf tree ht t hload e he (.inl hk))
        (fun e he hk => ih (h.dir tree ht t hload e he hk)) pathPrefix out

/-- **A search.** -/
theorem grepTree_congr (h : SameTrees T s s') (depth : Nat) {tree : H} (ht : T tree)
    (pattern : String) :
    grepTree lib s opts depth tree pattern = grepTree lib s' opts depth tree pattern := by
  rw [grepTree, grepTree]
  refine ite_congr rfl (fun _ => rfl) fun _ => ?_
  cases Matcher.compile lib pattern opts with
  | error e => rfl
  | ok matcher =>
    simp only [bind, Except.bind]
    rw [grepWalk_congr lib opts h matcher depth ht]

end Grep

/-! ## Blaming -/

/-- **A blame** walks from a snapshot to its first parent, and so on. -/
theorem blameAt_congr (lib : TextLib) {R : H → Prop} (h : AgreeOn R s s') (path : String)
    (depth : Nat) {target : H} (ht : R target) :
    blameAt lib s path depth target = blameAt lib s' path depth target := by
  induction depth generalizing target with
  | zero => rfl
  | succ depth ih =>
    rw [blameAt, blameAt]
    refine except_bind_congr (h.load ht) fun snap hload => ?_
    obtain ⟨htree, hparents⟩ := h.of_snapshot ht hload
    refine except_bind_congr (tryReadBlobAtPath_congr h.sameTrees htree path) fun read _ => ?_
    cases read with
    | none => rfl
    | some currentBytes =>
      refine ite_congr rfl (fun _ => rfl) fun _ => ?_
      cases hp : snap.parents with
      | nil => rfl
      | cons parentHash rest =>
        have hparent : R parentHash := hparents _ (hp ▸ List.mem_cons_self)
        refine except_bind_congr (h.load hparent) fun parentSnap hloadp => ?_
        refine except_bind_congr (tryReadBlobAtPath_congr h.sameTrees
          (h.of_snapshot hparent hloadp).1 path) fun read _ => ?_
        cases read with
        | none => rfl
        | some parentBytes =>
          refine ite_congr rfl (fun _ => rfl) fun _ => ?_
          exact except_bind_congr (ih hparent) fun _ _ => rfl

end Tig
