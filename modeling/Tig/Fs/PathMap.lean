import Tig.Fs.TreeEdit

set_option relaxedAutoImplicit false
set_option autoImplicit false

/-!
# A stored tree as a map of paths

A tree that is stored as a whole, with sorted directories, stands for a map from paths to entries.
An edit at a path succeeds exactly when the map allows it, and then changes the map at that path,
above it and below it, and nowhere else.

## Main definitions

* `Tig.Whole` — a tree is stored with all its directories, which are sorted.
* `Tig.Passable` — no file is in the way to a path.
* `Tig.PutAt`, `Tig.RemovedAt` — what an edit makes of the map.

## Main results

* `Tig.rewriteInsert_exact`, `Tig.rewriteRemove_exact` — when an edit succeeds, and what it does.
-/

namespace Tig

open Program

/-! ## Paths -/

/-- The pieces of a list are without the separator. -/
theorem not_mem_of_mem_splitOn {α : Type} [DecidableEq α] {a : α} {xs piece : List α}
    (h : piece ∈ xs.splitOn a) : a ∉ piece := by
  induction xs generalizing piece with
  | nil =>
    obtain rfl : piece = [] := by simpa using h
    exact List.not_mem_nil
  | cons x xs ih =>
    rw [List.splitOn_cons_eq_if_modifyHead] at h
    split at h
    · rcases List.mem_cons.mp h with rfl | h
      · exact List.not_mem_nil
      · exact ih h
    · rename_i hx
      cases hs : xs.splitOn a with
      | nil => simp [hs] at h
      | cons first rest =>
        rw [hs, List.modifyHead_cons] at h
        rcases List.mem_cons.mp h with rfl | h
        · have hfirst := ih (hs ▸ List.mem_cons_self)
          have hxa : a ≠ x := fun heq => hx (by simp [heq])
          simp [hxa, hfirst]
        · exact ih (hs ▸ List.mem_cons_of_mem _ h)

/-- The components of a path can all stand in a tree, and there is one at least. -/
theorem splitPath_valid {path : String} {parts : List String} (h : splitPath path = .ok parts) :
    parts ≠ [] ∧ ∀ p ∈ parts, TreeEntry.validateName p = .ok () := by
  unfold splitPath at h
  dsimp only at h
  split at h
  · cases h
  · rename_i hne
    split at h
    · cases h
    · rename_i hfind
      obtain rfl := Except.ok.inj h
      refine ⟨hne, fun p hp => ?_⟩
      have hbad := List.find?_eq_none.mp hfind p hp
      obtain ⟨hmem, hempty⟩ := List.mem_filter.mp hp
      obtain ⟨piece, hpiece, rfl⟩ := List.mem_map.mp hmem
      have hslash := not_mem_of_mem_splitOn hpiece
      rw [TreeEntry.validateName, if_neg]
      simp only [String.toList_ofList] at hbad ⊢
      simp only [decide_eq_true_eq, not_or] at hbad hempty ⊢
      exact ⟨hempty, hbad.1, hbad.2.1, hslash, hbad.2.2⟩

/-! ## Sorted directories -/

section Sorted

variable {H : Type}

theorem Tree.Sorted.remove {t : Tree H} (hs : t.Sorted) (head : String) : (t.remove head).Sorted :=
  List.Pairwise.sublist List.eraseP_sublist hs

/-- Removing an entry from a sorted directory is seen at its name and nowhere else. -/
theorem get_remove_eq {t : Tree H} (hs : t.Sorted) (head name : String) :
    (t.remove head).get name = if name = head then none else t.get name := by
  by_cases hn : name = head
  · subst hn
    rw [if_pos rfl, get_eq_none (hs.remove name)]
    intro e he
    unfold Tree.Sorted at hs
    unfold Tree.remove at he
    dsimp only at he
    generalize t.entries = es at hs he
    induction es with
    | nil => simp at he
    | cons a es ih =>
      obtain ⟨ha, hs⟩ := List.pairwise_cons.mp hs
      by_cases hname : a.name = name
      · rw [List.eraseP_cons_of_pos (by simpa using hname)] at he
        exact (hname ▸ ha e he).ne'
      · rw [List.eraseP_cons_of_neg (by simpa using hname)] at he
        rcases List.mem_cons.mp he with rfl | he
        · exact hname
        · exact ih hs he
  · rw [if_neg hn]
    cases hg : t.get name with
    | some entry => exact get_remove hn hg
    | none =>
      rw [get_eq_none hs] at hg
      rw [get_eq_none (hs.remove head)]
      exact fun e he => hg e (List.mem_of_mem_eraseP he)

end Sorted

variable {H : Type} [LinearOrder H] [Format H]

/-! ## Whole trees -/

/-- The tree is stored with all its directories, and these are sorted by name. -/
inductive Whole (s : ObjectStore H) : H → Prop
  | mk (tree : H) (t : Tree H) (hload : s.load tree = .ok t) (hsorted : t.Sorted)
      (hdirs : ∀ e ∈ t.entries, e.kind = .tree → Whole s e.target) : Whole s tree

variable {s s' : ObjectStore H}

theorem Whole.mono (hle : s.Le s') {tree : H} (h : Whole s tree) : Whole s' tree := by
  induction h with
  | mk tree t hload hsorted _ ih => exact .mk tree t (hle.load hload) hsorted ih

/-- What can be read of a whole tree does not depend on what else is stored. -/
theorem Whole.entryAt_eq (hle : s.Le s') {tree : H} (h : Whole s tree) (path : List String) :
    entryAt s' tree path = entryAt s tree path := by
  induction path generalizing tree with
  | nil => rfl
  | cons name rest ih =>
    obtain ⟨_, t, hload, hsorted, hdirs⟩ := h
    rw [entryAt_cons hload, entryAt_cons (hle.load hload)]
    refine Option.bind_congr fun e he => ?_
    split_ifs with h1 h2
    · rfl
    · exact ih (hdirs e (mem_of_findEntry he) h2)
    · rfl

/-- A stored empty directory. -/
theorem Whole.new {tree : H} (h : s.load tree = .ok (Tree.new : Tree H)) : Whole s tree :=
  .mk tree _ h List.Pairwise.nil fun _ he => absurd he List.not_mem_nil

/-! ## The way to a path -/

/-- No entry above the path is anything but a directory. -/
def Passable (s : ObjectStore H) (tree : H) (parts : List String) : Prop :=
  ∀ path, path <+: parts → path ≠ parts → ∀ e, entryAt s tree path = some e → e.kind = .tree

theorem passable_singleton (tree : H) (head : String) : Passable s tree [head] := by
  intro path hpre hne e he
  cases path with
  | nil => cases he
  | cons name rest =>
    obtain ⟨rfl, hrest⟩ := List.cons_prefix_cons.mp hpre
    exact absurd (by rw [List.prefix_nil.mp hrest]) hne

/-- The way to a longer path leads through the first directory, if it is there. -/
theorem passable_cons {tree : H} {t : Tree H} (ht : s.load tree = .ok t) {head : String}
    {rest : List String} (hrest : rest ≠ []) :
    Passable s tree (head :: rest) ↔
      ∀ e, t.get head = some e → e.kind = .tree ∧ Passable s e.target rest := by
  constructor
  · intro h e he
    have hk : e.kind = .tree := by
      refine h [head] (by simp) (by simpa using hrest.symm) e ?_
      rw [entryAt_cons ht, he]
      rfl
    refine ⟨hk, fun path hpre hne e' he' => ?_⟩
    have hne' : path ≠ [] := by
      rintro rfl
      cases he'
    refine h (head :: path) (List.cons_prefix_cons.mpr ⟨rfl, hpre⟩) (by simpa using hne) e' ?_
    rw [entryAt_cons ht, he, Option.bind_some, if_neg hne', if_pos hk, he']
  · intro h path hpre hne e he
    cases path with
    | nil => cases he
    | cons name path =>
      obtain ⟨rfl, hpath⟩ := List.cons_prefix_cons.mp hpre
      rw [entryAt_cons ht, Option.bind_eq_some_iff] at he
      obtain ⟨sub, hsub, he⟩ := he
      obtain ⟨hk, hpass⟩ := h sub hsub
      rw [if_pos hk] at he
      split at he
      · exact Option.some.inj he ▸ hk
      · exact hpass path hpath (fun heq => hne (by rw [heq])) e he

/-! ## What an insertion makes of the map -/

/-- The tree `tree'` is `tree` with `entry` put at `parts`, and with directories above it. -/
structure PutAt (s s' : ObjectStore H) (tree tree' : H) (parts : List String)
    (entry : TreeEntry H) : Prop where
  put : entryAt s' tree' parts = some entry
  above : ∀ path, path ≠ [] → path <+: parts → path ≠ parts →
    ∃ e, entryAt s' tree' path = some e ∧ e.kind = .tree
  below : ∀ path, parts <+: path → path ≠ parts → entryAt s' tree' path = none
  others : ∀ path, ¬ path <+: parts → ¬ parts <+: path →
    entryAt s' tree' path = entryAt s tree path

/-- Paths through other names of a directory are as before when these names are. -/
theorem entryAt_other (hle : s.Le s') {tree tree' : H} {t t' : Tree H}
    (hwhole : Whole s tree) (ht : s.load tree = .ok t) (ht' : s'.load tree' = .ok t')
    {name : String} (hname : t'.get name = t.get name) (rest : List String) :
    entryAt s' tree' (name :: rest) = entryAt s tree (name :: rest) := by
  obtain ⟨_, t₀, hload, -, hdirs⟩ := hwhole
  obtain rfl : t₀ = t := Except.ok.inj (hload.symm.trans ht)
  rw [entryAt_cons ht', entryAt_cons ht, hname]
  refine Option.bind_congr fun e he => ?_
  split_ifs with h1 h2
  · rfl
  · exact (hdirs e (mem_of_findEntry he) h2).entryAt_eq hle rest
  · rfl

/-- Putting an entry into a directory. -/
theorem PutAt.single (hle : s.Le s') {tree tree' : H} {t t' : Tree H} (hwhole : Whole s tree)
    (ht : s.load tree = .ok t) (ht' : s'.load tree' = .ok t') {entry : TreeEntry H}
    (hk : entry.kind ≠ .tree)
    (hget : ∀ name, t'.get name = if name = entry.name then some entry else t.get name) :
    PutAt s s' tree tree' [entry.name] entry where
  put := by
    rw [entryAt_cons ht', hget, if_pos rfl]
    rfl
  above path hne hpre hne' := by
    cases path with
    | nil => exact absurd rfl hne
    | cons name rest =>
      obtain ⟨rfl, hrest⟩ := List.cons_prefix_cons.mp hpre
      exact absurd (by rw [List.prefix_nil.mp hrest]) hne'
  below path hpre hne := by
    cases path with
    | nil => simp at hpre
    | cons name rest =>
      obtain ⟨rfl, -⟩ := List.cons_prefix_cons.mp hpre
      have hrest : rest ≠ [] := fun h => hne (by rw [h])
      rw [entryAt_cons ht', hget, if_pos rfl, Option.bind_some, if_neg hrest, if_neg hk]
  others path hab hbe := by
    cases path with
    | nil => exact absurd List.nil_prefix hab
    | cons name rest =>
      refine entryAt_other hle hwhole ht ht' ?_ rest
      rw [hget, if_neg]
      rintro rfl
      exact hbe (List.cons_prefix_cons.mpr ⟨rfl, List.nil_prefix⟩)

/-- Putting an entry at a path of a subdirectory, which may be a new one. -/
theorem PutAt.cons {s₁ : ObjectStore H} (hle : s.Le s₁) (hle' : s₁.Le s') {tree tree' sub : H}
    {t t' : Tree H} (hwhole : Whole s tree) (ht : s.load tree = .ok t)
    (ht' : s'.load tree' = .ok t') {head : String} {rest : List String} {entry dir : TreeEntry H}
    (hk : dir.kind = .tree) (hrest : rest ≠ [])
    (hget : ∀ name, t'.get name = if name = head then some dir else t.get name)
    (hsub : ∀ e, t.get head = some e → e.kind = .tree ∧ e.target = sub)
    (hnone : t.get head = none → ∀ path, entryAt s₁ sub path = none)
    (hput : PutAt s₁ s' sub dir.target rest entry) :
    PutAt s s' tree tree' (head :: rest) entry := by
  have hhead : ∀ path, path ≠ [] →
      entryAt s' tree' (head :: path) = entryAt s' dir.target path := by
    intro path hne
    rw [entryAt_cons ht', hget, if_pos rfl, Option.bind_some, if_neg hne, if_pos hk]
  constructor
  · rw [hhead rest hrest]
    exact hput.put
  · intro path hne hpre hne'
    cases path with
    | nil => exact absurd rfl hne
    | cons name path =>
      obtain ⟨rfl, hpath⟩ := List.cons_prefix_cons.mp hpre
      by_cases hp : path = []
      · subst hp
        refine ⟨dir, ?_, hk⟩
        rw [entryAt_cons ht', hget, if_pos rfl]
        rfl
      · rw [hhead path hp]
        exact hput.above path hp hpath fun h => hne' (by rw [h])
  · intro path hpre hne
    cases path with
    | nil => simp at hpre
    | cons name path =>
      obtain ⟨rfl, hpath⟩ := List.cons_prefix_cons.mp hpre
      have hp : path ≠ [] := by
        rintro rfl
        exact hrest (List.prefix_nil.mp hpath)
      rw [hhead path hp]
      exact hput.below path hpath fun h => hne (by rw [h])
  · intro path hab hbe
    cases path with
    | nil => exact absurd List.nil_prefix hab
    | cons name path =>
      by_cases hn : name = head
      · subst hn
        rw [List.cons_prefix_cons] at hab hbe
        have hab' : ¬ path <+: rest := fun h => hab ⟨rfl, h⟩
        have hbe' : ¬ rest <+: path := fun h => hbe ⟨rfl, h⟩
        have hp : path ≠ [] := fun h => hab' (h ▸ List.nil_prefix)
        rw [hhead path hp, hput.others path hab' hbe', entryAt_cons ht]
        cases hg : t.get name with
        | none => rw [hnone hg, Option.bind_none]
        | some e =>
          obtain ⟨hek, rfl⟩ := hsub e hg
          obtain ⟨_, t₀, hload, -, hdirs⟩ := hwhole
          obtain rfl : t₀ = t := Except.ok.inj (hload.symm.trans ht)
          rw [Option.bind_some, if_neg hp, if_pos hek]
          exact (hdirs e (mem_of_findEntry hg) hek).entryAt_eq hle path
      · exact entryAt_other (hle.trans hle') hwhole ht ht' (by rw [hget, if_neg hn]) path

/-! ## Inserting -/

variable {w : World H}

/-- The directory to go down into is there or is made; only a file in the way is an error, unless a
step fails. -/
theorem subtreeFor_exact [LawfulFormat H] (hi : w.repo.objects.Intact) {tree : Tree H} {head : String}
    {Q : H → World H → Prop} {E : Error → World H → Prop}
    (hok : ∀ sub w', w.Quiet w' → (∀ e, tree.get head = some e → e.kind = .tree ∧ e.target = sub) →
      (tree.get head = none → w'.repo.objects.load sub = .ok (Tree.new : Tree H)) → Q sub w')
    (herr : ∀ e w', (w.env.Reliable → ∃ sub, tree.get head = some sub ∧ sub.kind ≠ .tree) → E e w') :
    Post (subtreeFor tree head) w Q E := by
  rw [subtreeFor]
  cases hg : tree.get head with
  | none =>
    refine storeObject_grew LawfulFormat.tree (fun w' hgr => ?_)
      (fun e w' _ hf => herr e w' fun hrel => absurd hf (hrel.not_fault e))
    refine hok _ w' hgr.quiet ?_ fun _ => hgr.stored hi
    rw [hg]
    simp
  | some e =>
    dsimp only
    rw [post_ite]
    refine ⟨fun hk => ?_, fun hk => herr _ w fun _ => ⟨e, hg, hk⟩⟩
    refine hok _ w (.refl w) ?_ fun h => ?_
    · rw [hg]
      rintro _ ⟨⟩
      exact ⟨hk, rfl⟩
    · rw [hg] at h
      cases h

/-- The targets of a sorted directory after an insertion. -/
theorem Whole.insert {tree tree' : H} {t t' : Tree H} (hle : s.Le s') (hwhole : Whole s tree)
    (ht : s.load tree = .ok t) (ht' : s'.load tree' = .ok t') {entry : TreeEntry H}
    (hins : t.insert entry = .ok t') (hsub : entry.kind = .tree → Whole s' entry.target) :
    Whole s' tree' := by
  obtain ⟨_, t₀, hload, hsorted, hdirs⟩ := hwhole
  obtain rfl : t₀ = t := Except.ok.inj (hload.symm.trans ht)
  have hsorted' := hsorted.insert hins
  refine .mk tree' t' ht' hsorted' fun e he hk => ?_
  have hget := (findEntry_eq_some hsorted').mpr ⟨he, rfl⟩
  rw [← Tree.get, Tree.get_insert hins] at hget
  split at hget
  · obtain rfl := Option.some.inj hget
    exact hsub hk
  · exact (hdirs e (mem_of_findEntry hget) hk).mono hle

/-- **Inserting at a path** of a whole tree puts the entry there if the way to the path is passable,
and succeeds exactly then, unless a step fails. -/
theorem rewriteInsert_exact [LawfulFormat H] {target : H} {kind : EntryKind} {mode : FileMode}
    (hkind : kind ≠ .tree) {treeHash : H} {parts : List String} (hi : w.repo.objects.Intact)
    (hwhole : Whole w.repo.objects treeHash) (hne : parts ≠ [])
    (hvalid : ∀ p ∈ parts, TreeEntry.validateName p = .ok ()) :
    Post (rewriteInsert target kind mode treeHash parts) w
      (fun h' w' => w.Quiet w' ∧ Passable w.repo.objects treeHash parts ∧
        Whole w'.repo.objects h' ∧ PutAt w.repo.objects w'.repo.objects treeHash h' parts
          ⟨parts.getLastD "", kind, target, mode, none⟩)
      (fun _ _ => w.env.Reliable → ¬ Passable w.repo.objects treeHash parts) := by
  induction parts generalizing treeHash w with
  | nil => exact absurd rfl hne
  | cons head rest ih =>
    have hhead := hvalid head List.mem_cons_self
    obtain ⟨_, t, ht, hsorted, hdirs⟩ := hwhole
    rw [rewriteInsert, post_bind]
    refine loadObject_spec (fun t' w₁ hs₁ hr₁ ht' => ?_) (fun e w₁ hs₁ _ he hrel => ?_)
    swap
    · rcases he with hf | herr
      · exact absurd hf (hrel.not_fault e)
      · rw [ht] at herr
        cases herr
    obtain rfl : t = t' := Except.ok.inj (ht.symm.trans ht')
    have hq₁ : w.Quiet w₁ := .of_repo hs₁ hr₁
    rw [post_ite]
    refine ⟨fun hrest => ?_, fun hrest => ?_⟩
    · subst hrest
      have hins := insert_ok hhead t ⟨head, kind, target, mode, none⟩ rfl
      rw [hins, post_bind, post_fromExcept]
      refine ⟨?_, fun e he => by cases he⟩
      rintro t' ⟨⟩
      refine storeObject_grew LawfulFormat.tree (fun w₂ hg₂ => ?_)
        (fun e w₂ _ hf hrel => absurd hf ((hq₁.env ▸ hrel : w₁.env.Reliable).not_fault e))
      have hle := (hq₁.trans hg₂.quiet).le
      have hload := hg₂.stored (hq₁.intact hi)
      have hwhole : Whole w.repo.objects treeHash := .mk _ t ht hsorted hdirs
      refine ⟨hq₁.trans hg₂.quiet, passable_singleton _ _, ?_, ?_⟩
      · exact hwhole.insert hle ht hload hins fun hk => absurd hk hkind
      · exact .single hle hwhole ht hload hkind (Tree.get_insert hins)
    · rw [post_bind, passable_cons ht hrest]
      refine subtreeFor_exact (hq₁.intact hi) (fun sub w₂ hq₂ hsub hnew => ?_) ?_
      swap
      · intro e w₂ hfile hrel hpass
        obtain ⟨sub, hg, hk⟩ := hfile (hq₁.env ▸ hrel)
        exact hk (hpass sub hg).1
      have hq₂' := hq₁.trans hq₂
      have hwsub : Whole w₂.repo.objects sub := by
        cases hg : t.get head with
        | none => exact .new (hnew hg)
        | some e =>
          obtain ⟨hk, rfl⟩ := hsub e hg
          exact (hdirs e (mem_of_findEntry hg) hk).mono hq₂'.le
      -- the way below is passable in the directory, whether it was there or is new
      have hpass : Passable w₂.repo.objects sub rest ↔
          ∀ e, t.get head = some e → e.kind = .tree ∧ Passable w.repo.objects e.target rest := by
        cases hg : t.get head with
        | none =>
          refine iff_of_true (fun path _ _ e he => ?_) (by simp)
          rw [entryAt_of_isEmpty (hnew hg) rfl] at he
          cases he
        | some e =>
          obtain ⟨hk, rfl⟩ := hsub e hg
          have heq := (hdirs e (mem_of_findEntry hg) hk).entryAt_eq hq₂'.le
          simp only [Option.some.injEq, forall_eq', hk, true_and, Passable, heq]
      rw [post_bind]
      refine (ih (hq₂'.intact hi) hwsub hrest
        (fun p hp => hvalid p (List.mem_cons_of_mem _ hp))).mono
        (fun newSub w₃ h₃ => ?_)
        (fun e w₃ hno hrel => mt hpass.mpr (hno (hq₂'.env ▸ hrel)))
      obtain ⟨hq₃, hpass₃, hwhole₃, hput₃⟩ := h₃
      have hins := insert_ok hhead t ⟨head, .tree, newSub, .DIR, none⟩ rfl
      have hq₃' := hq₂'.trans hq₃
      rw [hins, post_bind, post_fromExcept]
      refine ⟨?_, fun e he => by cases he⟩
      rintro t' ⟨⟩
      refine storeObject_grew LawfulFormat.tree (fun w₄ hg₄ => ?_)
        (fun e w₄ _ hf hrel => absurd hf ((hq₃'.env ▸ hrel : w₃.env.Reliable).not_fault e))
      have hle := (hq₃'.trans hg₄.quiet).le
      have hload := hg₄.stored (hq₃'.intact hi)
      have hwhole : Whole w.repo.objects treeHash := .mk _ t ht hsorted hdirs
      have hput₄ : PutAt w₂.repo.objects w₄.repo.objects sub newSub rest
          ⟨rest.getLastD "", kind, target, mode, none⟩ := by
        have heq := hwhole₃.entryAt_eq hg₄.quiet.le
        exact ⟨by rw [heq, hput₃.put], fun path => by rw [heq]; exact hput₃.above path,
          fun path => by rw [heq]; exact hput₃.below path,
          fun path => by rw [heq]; exact hput₃.others path⟩
      have hlast : (head :: rest).getLastD "" = rest.getLastD "" := by
        cases rest with
        | nil => exact absurd rfl hrest
        | cons next rest => rw [List.getLastD_cons, List.getLastD_cons, List.getLastD_cons]
      refine ⟨hq₃'.trans hg₄.quiet, hpass.mp hpass₃, ?_, ?_⟩
      · exact hwhole.insert hle ht hload hins fun _ => hwhole₃.mono hg₄.quiet.le
      · rw [hlast]
        exact .cons hq₂'.le (hq₃.trans hg₄.quiet).le hwhole ht hload rfl hrest
          (Tree.get_insert hins) hsub
          (fun hg path => entryAt_of_isEmpty (hnew hg) rfl path) hput₄

/-! ## What a removal makes of the map -/

/-- Whatever is below `path` lies on the way to `parts` or below it: a removal at `parts` leaves
nothing below `path`. -/
def LeftEmpty (s : ObjectStore H) (tree : H) (parts path : List String) : Prop :=
  ∀ below e, path <+: below → below ≠ path → entryAt s tree below = some e →
    below <+: parts ∨ parts <+: below

/-- The tree `tree'` is `tree` with what is at `parts` removed, and the directories above it that
this leaves empty. -/
structure RemovedAt (s s' : ObjectStore H) (tree tree' : H) (parts : List String) : Prop where
  gone : ∀ path, parts <+: path → entryAt s' tree' path = none
  emptied : ∀ path, path ≠ [] → path <+: parts → path ≠ parts → LeftEmpty s tree parts path →
    entryAt s' tree' path = none
  above : ∀ path, path ≠ [] → path <+: parts → path ≠ parts → ¬ LeftEmpty s tree parts path →
    ∃ e, entryAt s' tree' path = some e ∧ e.kind = .tree
  others : ∀ path, ¬ path <+: parts → ¬ parts <+: path →
    entryAt s' tree' path = entryAt s tree path

/-- What is left empty by a removal in a directory. -/
theorem leftEmpty_cons {tree : H} {t : Tree H} (ht : s.load tree = .ok t) {head : String}
    {dir : TreeEntry H} (hg : t.get head = some dir) (hk : dir.kind = .tree)
    (rest path : List String) :
    LeftEmpty s tree (head :: rest) (head :: path) ↔ LeftEmpty s dir.target rest path := by
  have hhead : ∀ path, path ≠ [] →
      entryAt s tree (head :: path) = entryAt s dir.target path := by
    intro path hne
    rw [entryAt_cons ht, hg, Option.bind_some, if_neg hne, if_pos hk]
  constructor
  · intro h below e hpre hne he
    have hb : below ≠ [] := by
      rintro rfl
      cases he
    have := h (head :: below) e (List.cons_prefix_cons.mpr ⟨rfl, hpre⟩) (by simpa using hne)
      (by rw [hhead below hb, he])
    simpa [List.cons_prefix_cons] using this
  · intro h below e hpre hne he
    cases below with
    | nil => simp at hpre
    | cons name below =>
      obtain ⟨rfl, hpath⟩ := List.cons_prefix_cons.mp hpre
      by_cases hb : below = []
      · subst hb
        exact absurd (by rw [List.prefix_nil.mp hpath]) hne
      · rw [hhead below hb] at he
        have := h below e hpath (fun heq => hne (by rw [heq])) he
        simpa [List.cons_prefix_cons] using this

/-- Removing a whole entry of a directory, when nothing else is left below it. -/
theorem RemovedAt.prune (hle : s.Le s') {tree tree' : H} {t t' : Tree H} (hwhole : Whole s tree)
    (ht : s.load tree = .ok t) (ht' : s'.load tree' = .ok t') {head : String} {rest : List String}
    (hget : ∀ name, t'.get name = if name = head then none else t.get name)
    (hempty : LeftEmpty s tree (head :: rest) [head]) :
    RemovedAt s s' tree tree' (head :: rest) := by
  have hhead : ∀ path, entryAt s' tree' (head :: path) = none := by
    intro path
    rw [entryAt_cons ht', hget, if_pos rfl, Option.bind_none]
  constructor
  · intro path hpre
    cases path with
    | nil => rfl
    | cons name path =>
      obtain ⟨rfl, -⟩ := List.cons_prefix_cons.mp hpre
      exact hhead path
  · intro path hne hpre _ _
    cases path with
    | nil => rfl
    | cons name path =>
      obtain ⟨rfl, -⟩ := List.cons_prefix_cons.mp hpre
      exact hhead path
  · intro path hne hpre _ hno
    cases path with
    | nil => exact absurd rfl hne
    | cons name path =>
      obtain ⟨rfl, -⟩ := List.cons_prefix_cons.mp hpre
      refine absurd (fun below e hb hne he => ?_) hno
      refine hempty below e ((List.prefix_append [name] path).trans hb) ?_ he
      rintro rfl
      obtain rfl : path = [] := List.prefix_nil.mp (List.cons_prefix_cons.mp hb).2
      exact hne rfl
  · intro path hab hbe
    cases path with
    | nil => exact absurd List.nil_prefix hab
    | cons name path =>
      by_cases hn : name = head
      · subst hn
        rw [hhead]
        by_contra hsome
        obtain ⟨e, he⟩ := Option.ne_none_iff_exists'.mp (Ne.symm hsome)
        have hp : path ≠ [] := by
          rintro rfl
          exact hab (List.cons_prefix_cons.mpr ⟨rfl, List.nil_prefix⟩)
        rcases hempty _ e (List.cons_prefix_cons.mpr ⟨rfl, List.nil_prefix⟩) (by simpa using hp) he
          with h | h
        · exact hab h
        · exact hbe h
      · exact entryAt_other hle hwhole ht ht' (by rw [hget, if_neg hn]) path

/-- Removing something below a directory, in which something is left. -/
theorem RemovedAt.cons {s₁ : ObjectStore H} (hle : s.Le s₁) (hle' : s₁.Le s') {tree tree' : H}
    {t t' : Tree H} (hwhole : Whole s tree) (ht : s.load tree = .ok t)
    (ht' : s'.load tree' = .ok t') {head : String} {rest : List String} {old dir : TreeEntry H}
    (hg : t.get head = some old) (hold : old.kind = .tree) (hk : dir.kind = .tree)
    (hrest : rest ≠ [])
    (hget : ∀ name, t'.get name = if name = head then some dir else t.get name)
    (hkept : ¬ LeftEmpty s old.target rest [])
    (hrem : RemovedAt s s' old.target dir.target rest) :
    RemovedAt s s' tree tree' (head :: rest) := by
  have hhead : ∀ path, path ≠ [] →
      entryAt s' tree' (head :: path) = entryAt s' dir.target path := by
    intro path hne
    rw [entryAt_cons ht', hget, if_pos rfl, Option.bind_some, if_neg hne, if_pos hk]
  constructor
  · intro path hpre
    cases path with
    | nil => rfl
    | cons name path =>
      obtain ⟨rfl, hpath⟩ := List.cons_prefix_cons.mp hpre
      have hp : path ≠ [] := by
        rintro rfl
        exact hrest (List.prefix_nil.mp hpath)
      rw [hhead path hp]
      exact hrem.gone path hpath
  · intro path hne hpre hne' hleft
    cases path with
    | nil => rfl
    | cons name path =>
      obtain ⟨rfl, hpath⟩ := List.cons_prefix_cons.mp hpre
      rw [leftEmpty_cons ht hg hold] at hleft
      have hp : path ≠ [] := by
        rintro rfl
        exact hkept hleft
      rw [hhead path hp]
      exact hrem.emptied path hp hpath (fun h => hne' (by rw [h])) hleft
  · intro path hne hpre hne' hleft
    cases path with
    | nil => exact absurd rfl hne
    | cons name path =>
      obtain ⟨rfl, hpath⟩ := List.cons_prefix_cons.mp hpre
      rw [leftEmpty_cons ht hg hold] at hleft
      by_cases hp : path = []
      · subst hp
        refine ⟨dir, ?_, hk⟩
        rw [entryAt_cons ht', hget, if_pos rfl]
        rfl
      · rw [hhead path hp]
        exact hrem.above path hp hpath (fun h => hne' (by rw [h])) hleft
  · intro path hab hbe
    cases path with
    | nil => exact absurd List.nil_prefix hab
    | cons name path =>
      by_cases hn : name = head
      · subst hn
        rw [List.cons_prefix_cons] at hab hbe
        have hab' : ¬ path <+: rest := fun h => hab ⟨rfl, h⟩
        have hbe' : ¬ rest <+: path := fun h => hbe ⟨rfl, h⟩
        have hp : path ≠ [] := fun h => hab' (h ▸ List.nil_prefix)
        rw [hhead path hp, hrem.others path hab' hbe', entryAt_cons ht, hg, Option.bind_some,
          if_neg hp, if_pos hold]
      · exact entryAt_other (hle.trans hle') hwhole ht ht' (by rw [hget, if_neg hn]) path

/-- After a removal a directory is empty exactly when nothing else was in it. -/
theorem RemovedAt.isEmpty_iff {tree tree' : H} {t' : Tree H} {parts : List String}
    (h : RemovedAt s s' tree tree' parts) (ht' : s'.load tree' = .ok t') (hsorted : t'.Sorted) :
    t'.isEmpty = true ↔ LeftEmpty s tree parts [] := by
  constructor
  · intro hempty below e _ _ he
    by_contra hno
    rw [not_or] at hno
    rw [← h.others below hno.1 hno.2, entryAt_of_isEmpty ht' hempty] at he
    cases he
  · intro hleft
    rw [Tree.isEmpty, List.isEmpty_iff]
    refine List.eq_nil_iff_forall_not_mem.mpr fun e he => ?_
    have hat : entryAt s' tree' [e.name] = some e := by
      rw [entryAt_cons ht', Tree.get, (findEntry_eq_some hsorted).mpr ⟨he, rfl⟩]
      rfl
    by_cases hbe : parts <+: [e.name]
    · rw [h.gone _ hbe] at hat
      cases hat
    · by_cases hab : [e.name] <+: parts
      · -- a directory above what was removed, and emptied by the removal
        have hne : [e.name] ≠ parts := fun heq => hbe (heq ▸ List.prefix_refl _)
        have hsub : LeftEmpty s tree parts [e.name] := fun below e' _ _ he' =>
          hleft below e' List.nil_prefix (by rintro rfl; cases he') he'
        rw [h.emptied _ (by simp) hab hne hsub] at hat
        cases hat
      · rw [h.others _ hab hbe] at hat
        rcases hleft _ e List.nil_prefix (by simp) hat with h | h
        · exact hab h
        · exact hbe h

/-! ## Removing -/

/-- The directories of a sorted directory after a removal. -/
theorem Whole.remove {tree tree' : H} {t : Tree H} (hle : s.Le s') (hwhole : Whole s tree)
    (ht : s.load tree = .ok t) {head : String} (ht' : s'.load tree' = .ok (t.remove head)) :
    Whole s' tree' := by
  obtain ⟨_, t₀, hload, hsorted, hdirs⟩ := hwhole
  obtain rfl : t₀ = t := Except.ok.inj (hload.symm.trans ht)
  exact .mk tree' _ ht' (hsorted.remove head) fun e he hk =>
    (hdirs e (List.mem_of_mem_eraseP he) hk).mono hle

/-- **Removing at a path** of a whole tree succeeds exactly when there is something at the path,
and removes it. -/
theorem rewriteRemove_exact [LawfulFormat H] {treeHash : H} {parts : List String}
    (hrel : w.env.Reliable) (hi : w.repo.objects.Intact) (hwhole : Whole w.repo.objects treeHash)
    (hne : parts ≠ []) (hvalid : ∀ p ∈ parts, TreeEntry.validateName p = .ok ()) :
    Post (rewriteRemove treeHash parts) w
      (fun h' w' => w.Quiet w' ∧ (∃ e, entryAt w.repo.objects treeHash parts = some e) ∧
        Whole w'.repo.objects h' ∧ RemovedAt w.repo.objects w'.repo.objects treeHash h' parts)
      (fun _ _ => entryAt w.repo.objects treeHash parts = none) := by
  induction parts generalizing treeHash w with
  | nil => exact absurd rfl hne
  | cons head rest ih =>
    have hhead := hvalid head List.mem_cons_self
    have hwhole' := hwhole
    obtain ⟨_, t, ht, hsorted, hdirs⟩ := hwhole'
    rw [rewriteRemove, post_bind]
    refine loadObject_spec (fun t' w₁ hs₁ hr₁ ht' => ?_) (fun e w₁ hs₁ _ he => ?_)
    swap
    · rcases he with hf | herr
      · exact absurd hf (hrel.not_fault e)
      · rw [ht] at herr
        cases herr
    obtain rfl : t = t' := Except.ok.inj (ht.symm.trans ht')
    have hq₁ : w.Quiet w₁ := .of_repo hs₁ hr₁
    have hrel₁ : w₁.env.Reliable := hq₁.env ▸ hrel
    rw [post_ite]
    refine ⟨fun hrest => ?_, fun hrest => ?_⟩
    · subst hrest
      have hat : entryAt w.repo.objects treeHash [head] = t.get head := by
        rw [entryAt_cons ht]
        cases t.get head <;> rfl
      rw [post_ite]
      refine ⟨fun hany => ?_, fun hany => ?_⟩
      · refine storeObject_grew LawfulFormat.tree (fun w₂ hg₂ => ?_)
          (fun e w₂ _ hf => absurd hf (hrel₁.not_fault e))
        have hle := (hq₁.trans hg₂.quiet).le
        have hload := hg₂.stored (hq₁.intact hi)
        obtain ⟨e, he, hname⟩ := List.any_eq_true.mp hany
        have hget := (findEntry_eq_some hsorted).mpr ⟨he, of_decide_eq_true hname⟩
        refine ⟨hq₁.trans hg₂.quiet, ⟨e, hat.trans hget⟩, hwhole.remove hle ht hload, ?_⟩
        exact .prune hle hwhole ht hload (get_remove_eq hsorted head)
          fun below _ hpre _ _ => Or.inr hpre
      · rw [post_throw, hat, get_eq_none hsorted]
        intro e he hname
        exact hany (List.any_eq_true.mpr ⟨e, he, decide_eq_true hname⟩)
    · cases hg : t.get head with
      | none =>
        rw [post_throw, entryAt_cons ht, hg]
        rfl
      | some old =>
        dsimp only
        have hat : entryAt w.repo.objects treeHash (head :: rest) =
            if old.kind = .tree then entryAt w.repo.objects old.target rest else none := by
          rw [entryAt_cons ht, hg, Option.bind_some, if_neg hrest]
        rw [post_ite, hat]
        refine ⟨fun hk => if_neg hk, fun hk => ?_⟩
        rw [not_not] at hk
        have hwold := hdirs old (mem_of_findEntry hg) hk
        rw [post_bind, if_pos hk]
        refine (ih (w := w₁) hrel₁ (hq₁.intact hi) (hwold.mono hq₁.le) hrest
          (fun p hp => hvalid p (List.mem_cons_of_mem _ hp))).mono
          (fun newSub w₂ h₂ => ?_) (fun e w₂ hno => by rwa [hwold.entryAt_eq hq₁.le] at hno)
        obtain ⟨hq₂, hfound, hwhole₂, hrem₂⟩ := h₂
        rw [hr₁] at hfound hrem₂
        have hq₂' := hq₁.trans hq₂
        have hrel₂ : w₂.env.Reliable := hq₂'.env ▸ hrel
        have hwhole₂' := hwhole₂
        obtain ⟨_, sub', hsub', hsorted', -⟩ := hwhole₂'
        rw [post_bind]
        refine loadObject_spec (fun sub'' w₃ hs₃ hr₃ hsub'' => ?_) (fun e w₃ _ _ he => ?_)
        swap
        · rcases he with hf | herr
          · exact absurd hf (hrel₂.not_fault e)
          · rw [hsub'] at herr
            cases herr
        obtain rfl : sub' = sub'' := Except.ok.inj (hsub'.symm.trans hsub'')
        have hq₃ := hq₂'.trans (.of_repo hs₃ hr₃)
        have hrel₃ : w₃.env.Reliable := hq₃.env ▸ hrel
        have hiff := hrem₂.isEmpty_iff hsub' hsorted'
        rw [post_ite]
        refine ⟨fun hempty => ?_, fun hkept => ?_⟩
        · refine storeObject_grew LawfulFormat.tree (fun w₄ hg₄ => ?_)
            (fun e w₄ _ hf => absurd hf (hrel₃.not_fault e))
          have hle := (hq₃.trans hg₄.quiet).le
          have hload := hg₄.stored (hq₃.intact hi)
          refine ⟨hq₃.trans hg₄.quiet, hfound, hwhole.remove hle ht hload, ?_⟩
          exact .prune hle hwhole ht hload (get_remove_eq hsorted head)
            ((leftEmpty_cons ht hg hk rest []).mpr (hiff.mp hempty))
        · have hins := insert_ok hhead t ⟨head, .tree, newSub, .DIR, none⟩ rfl
          rw [hins, post_bind, post_fromExcept]
          refine ⟨?_, fun e he => by cases he⟩
          rintro t' ⟨⟩
          refine storeObject_grew LawfulFormat.tree (fun w₄ hg₄ => ?_)
            (fun e w₄ _ hf => absurd hf (hrel₃.not_fault e))
          have hle₄ : w₂.repo.objects.Le w₄.repo.objects := hr₃ ▸ hg₄.quiet.le
          have hload := hg₄.stored (hq₃.intact hi)
          have heq := hwhole₂.entryAt_eq hle₄
          have hrem₄ : RemovedAt w.repo.objects w₄.repo.objects old.target newSub rest :=
            ⟨fun path => by rw [heq]; exact hrem₂.gone path,
              fun path => by rw [heq]; exact hrem₂.emptied path,
              fun path => by rw [heq]; exact hrem₂.above path,
              fun path => by rw [heq]; exact hrem₂.others path⟩
          refine ⟨hq₃.trans hg₄.quiet, hfound, ?_, ?_⟩
          · exact hwhole.insert (hq₃.trans hg₄.quiet).le ht hload hins fun _ => hwhole₂.mono hle₄
          · exact .cons hq₂'.le hle₄ hwhole ht hload hg hk rfl hrest (Tree.get_insert hins)
              (fun h => hkept (hiff.mpr h)) hrem₄

end Tig
