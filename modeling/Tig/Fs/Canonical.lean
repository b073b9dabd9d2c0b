import Tig.Fs.PathMap
import Tig.Lib.PathTree

set_option relaxedAutoImplicit false
set_option autoImplicit false

/-!
# Trees in canonical form

A tree that has been encoded is stored under its hash. When it is sorted, and its directories have
the mode of a directory and are themselves in canonical form, then nothing but what it holds at its
paths determines its hash. Edits at paths keep the form.

## Main definitions

* `Tig.Canonical` — the tree is stored in canonical form, with entries of a given kind.
* `Tig.viewOf` — the tree as a map from paths.

## Main results

* `Tig.Canonical.ext` — a tree in canonical form is determined by the map.
* `Tig.canonical_rewriteInsert`, `Tig.canonical_rewriteRemove` — edits keep the form.
* `Tig.viewOf_of_putAt`, `Tig.viewOf_of_removedAt` — they are edits of the map.
-/

namespace Tig

open Program

variable {H : Type} [LinearOrder H] [Format H]

/-! ## The form -/

/-- The tree is stored under its hash, sorted, with plain directories, and with entries that `ok`
holds of. -/
inductive Canonical (ok : ObjectStore H → TreeEntry H → Prop) (s : ObjectStore H) : H → Prop
  | mk (tree : H) (t : Tree H) (hload : s.load tree = .ok t) (hhash : tree = (encode H t).hash H)
      (hsorted : t.Sorted) (hentries : ∀ e ∈ t.entries, ok s e)
      (hmodes : ∀ e ∈ t.entries, e.kind = .tree → e.mode = .DIR ∧ e.vis = none)
      (hdirs : ∀ e ∈ t.entries, e.kind = .tree → Canonical ok s e.target) : Canonical ok s tree

section Form

variable {ok : ObjectStore H → TreeEntry H → Prop} {s s' : ObjectStore H} {root root' : H}
  {t t' : Tree H}

theorem Canonical.mono (hok : ∀ e, ok s e → ok s' e) (hle : s.Le s') (h : Canonical ok s root) :
    Canonical ok s' root := by
  induction h with
  | mk tree t hload hhash hsorted hentries hmodes _ ih =>
    exact .mk tree t (hle.load hload) hhash hsorted (fun e he => hok e (hentries e he)) hmodes ih

theorem Canonical.whole (h : Canonical ok s root) : Whole s root := by
  induction h with
  | mk tree t hload _ hsorted _ _ _ ih => exact .mk tree t hload hsorted ih

/-- What the tree is, once it has been read. -/
structure Canonical.Parts (ok : ObjectStore H → TreeEntry H → Prop) (s : ObjectStore H) (root : H)
    (t : Tree H) : Prop where
  hash : root = (encode H t).hash H
  sorted : t.Sorted
  entries : ∀ e ∈ t.entries, ok s e
  modes : ∀ e ∈ t.entries, e.kind = .tree → e.mode = .DIR ∧ e.vis = none
  dirs : ∀ e ∈ t.entries, e.kind = .tree → Canonical ok s e.target

theorem Canonical.parts (h : Canonical ok s root) (ht : s.load root = .ok t) :
    Canonical.Parts ok s root t := by
  obtain ⟨_, t', hload, hhash, hsorted, hentries, hmodes, hdirs⟩ := h
  obtain rfl : t' = t := Except.ok.inj (hload.symm.trans ht)
  exact ⟨hhash, hsorted, hentries, hmodes, hdirs⟩

theorem Canonical.Parts.mono (hok : ∀ e, ok s e → ok s' e) (hle : s.Le s')
    (h : Canonical.Parts ok s root t) : Canonical.Parts ok s' root t :=
  ⟨h.hash, h.sorted, fun e he => hok e (h.entries e he), h.modes,
    fun e he hk => (h.dirs e he hk).mono hok hle⟩

/-- A stored tree of entries in canonical form. -/
theorem Canonical.of_entries (ht : s.load ((encode H t).hash H) = .ok t) (hsorted : t.Sorted)
    (h : ∀ e ∈ t.entries, ok s e ∧
      (e.kind = .tree → e.mode = .DIR ∧ e.vis = none ∧ Canonical ok s e.target)) :
    Canonical ok s ((encode H t).hash H) :=
  .mk _ t ht rfl hsorted (fun e he => (h e he).1)
    (fun e he hk => ⟨((h e he).2 hk).1, ((h e he).2 hk).2.1⟩) fun e he hk => ((h e he).2 hk).2.2

/-- The entries of a tree, one by one. -/
theorem Canonical.Parts.entry (h : Canonical.Parts ok s root t) {e : TreeEntry H}
    (he : e ∈ t.entries) : ok s e ∧
      (e.kind = .tree → e.mode = .DIR ∧ e.vis = none ∧ Canonical ok s e.target) :=
  ⟨h.entries e he, fun hk => ⟨(h.modes e he hk).1, (h.modes e he hk).2, h.dirs e he hk⟩⟩

theorem Canonical.new (h : s.load ((encode H (Tree.new : Tree H)).hash H) = .ok (Tree.new : Tree H)) :
    Canonical ok s ((encode H (Tree.new : Tree H)).hash H) :=
  .of_entries h List.Pairwise.nil fun _ he => absurd he List.not_mem_nil

/-- An entry put into a tree. -/
theorem Canonical.Parts.insert {entry : TreeEntry H} (h : Canonical.Parts ok s root t)
    (hok : ∀ e, ok s e → ok s' e) (hle : s.Le s') (hins : t.insert entry = .ok t')
    (ht' : s'.load ((encode H t').hash H) = .ok t')
    (hentry : ok s' entry ∧
      (entry.kind = .tree → entry.mode = .DIR ∧ entry.vis = none ∧ Canonical ok s' entry.target)) :
    Canonical ok s' ((encode H t').hash H) := by
  have hsorted' := h.sorted.insert hins
  refine .of_entries ht' hsorted' fun e he => ?_
  have hget := (findEntry_eq_some hsorted').mpr ⟨he, rfl⟩
  rw [← Tree.get, Tree.get_insert hins] at hget
  split at hget
  · obtain rfl := Option.some.inj hget
    exact hentry
  · exact (h.mono hok hle).entry (mem_of_findEntry hget)

/-- A tree without one of its entries. -/
theorem Canonical.Parts.remove (h : Canonical.Parts ok s root t) (hok : ∀ e, ok s e → ok s' e)
    (hle : s.Le s') (head : String)
    (ht' : s'.load ((encode H (t.remove head)).hash H) = .ok (t.remove head)) :
    Canonical ok s' ((encode H (t.remove head)).hash H) :=
  .of_entries ht' (h.sorted.remove head) fun _ he =>
    (h.mono hok hle).entry (List.mem_of_mem_eraseP he)

end Form

/-! ## The form determines the hash -/

/-- What an entry is for the map: a directory, or a leaf. -/
def TreeEntry.slot (e : TreeEntry H) : PathTree.Slot (TreeEntry H) :=
  if e.kind = .tree then .dir else .leaf e

/-- The tree as a map from paths. -/
def viewOf (s : ObjectStore H) (root : H) : PathTree.Table String (TreeEntry H) := fun path =>
  (entryAt s root path).map TreeEntry.slot

section View

variable {ok ok' : ObjectStore H → TreeEntry H → Prop} {s s' : ObjectStore H} {root root' : H}

omit [LinearOrder H] [Format H] in
theorem TreeEntry.slot_eq_dir {e : TreeEntry H} : e.slot = .dir ↔ e.kind = .tree := by
  unfold TreeEntry.slot
  split_ifs with h <;> simp [h]

omit [LinearOrder H] [Format H] in
theorem TreeEntry.slot_eq_leaf {e l : TreeEntry H} : e.slot = .leaf l ↔ e.kind ≠ .tree ∧ e = l := by
  unfold TreeEntry.slot
  split_ifs with h <;> simp [h]

theorem viewOf_eq_dir {path : List String} :
    viewOf s root path = some .dir ↔ ∃ e, entryAt s root path = some e ∧ e.kind = .tree := by
  simp only [viewOf, Option.map_eq_some_iff, TreeEntry.slot_eq_dir]

theorem viewOf_eq_leaf {path : List String} {l : TreeEntry H} :
    viewOf s root path = some (.leaf l) ↔ entryAt s root path = some l ∧ l.kind ≠ .tree := by
  simp only [viewOf, Option.map_eq_some_iff, TreeEntry.slot_eq_leaf]
  constructor
  · rintro ⟨e, he, hk, rfl⟩
    exact ⟨he, hk⟩
  · rintro ⟨he, hk⟩
    exact ⟨l, he, hk, rfl⟩

theorem viewOf_eq_none {path : List String} :
    viewOf s root path = none ↔ entryAt s root path = none := by
  simp [viewOf]

/-- **A tree in canonical form** is determined by what lies at its paths. -/
theorem Canonical.ext (h : Canonical ok s root) (h' : Canonical ok' s' root')
    (hview : viewOf s root = viewOf s' root') : root = root' := by
  induction h generalizing root' with
  | mk tree t hload hhash hsorted _ hmodes hdirs ih =>
    obtain ⟨_, t', hload', hhash', hsorted', -, hmodes', hdirs'⟩ := h'
    have hname : ∀ name, (t.get name).map TreeEntry.slot = (t'.get name).map TreeEntry.slot := by
      intro name
      have := congrFun hview [name]
      simpa [viewOf, entryAt_cons hload, entryAt_cons hload'] using this
    have hsame : t = t' := hsorted.ext hsorted' fun name => by
      have hslot := hname name
      cases hg : t.get name with
      | none =>
        rw [hg, Option.map_none, eq_comm, Option.map_eq_none_iff] at hslot
        exact hslot.symm
      | some e =>
        rw [hg, Option.map_some, eq_comm, Option.map_eq_some_iff] at hslot
        obtain ⟨e', hg', hslot⟩ := hslot
        rw [hg', Option.some.injEq]
        by_cases hk : e.kind = .tree
        · rw [TreeEntry.slot_eq_dir.mpr hk, TreeEntry.slot_eq_dir] at hslot
          have hmem := mem_of_findEntry hg
          have hmem' := mem_of_findEntry hg'
          -- below the two directories lies the same
          have htarget : e.target = e'.target := by
            refine ih e hmem hk (hdirs' e' hmem' hslot) (funext fun path => ?_)
            by_cases hpath : path = []
            · subst hpath
              rfl
            · have := congrFun hview (name :: path)
              simpa [viewOf, entryAt_cons hload, entryAt_cons hload', hg, hg', hpath, hk, hslot]
                using this
          obtain ⟨hm, hv⟩ := hmodes e hmem hk
          obtain ⟨hm', hv'⟩ := hmodes' e' hmem' hslot
          refine TreeEntry.ext ?_ (hk.trans hslot.symm) htarget (hm.trans hm'.symm)
            (hv.trans hv'.symm)
          exact (name_of_findEntry hg).trans (name_of_findEntry hg').symm
        · have hleaf : e.slot = .leaf e := TreeEntry.slot_eq_leaf.mpr ⟨hk, rfl⟩
          rw [hleaf] at hslot
          exact (TreeEntry.slot_eq_leaf.mp hslot).2.symm
    rw [hhash, hhash', hsame]

end View

/-! ## Edits keep the form -/

/-- A condition on entries that does not mind what else is stored, and that holds of the directories
which edits make. -/
structure EditsKeep (ok : ObjectStore H → TreeEntry H → Prop) : Prop where
  mono : ∀ {s s' : ObjectStore H} {e : TreeEntry H}, s.Le s' → ok s e → ok s' e
  dir : ∀ (s : ObjectStore H) (name : String) (sub : H), TreeEntry.validateName name = .ok () →
    ok s ⟨name, .tree, sub, .DIR, none⟩

section Edit

variable [LawfulFormat H] {ok : ObjectStore H → TreeEntry H → Prop} {w : World H}

/-- Inserting an entry at a path. -/
theorem canonical_rewriteInsert (hok : EditsKeep ok) {target : H} {kind : EntryKind}
    {mode : FileMode} (hkind : kind ≠ .tree) {treeHash : H} {parts : List String}
    (hi : w.repo.objects.Intact) (h : Canonical ok w.repo.objects treeHash)
    (hleaf : ∀ name, TreeEntry.validateName name = .ok () →
      ok w.repo.objects ⟨name, kind, target, mode, none⟩) :
    Post (rewriteInsert target kind mode treeHash parts) w
      (fun h' w' => w.Quiet w' ∧ Canonical ok w'.repo.objects h') (fun _ _ => True) := by
  induction parts generalizing treeHash w with
  | nil => trivial
  | cons head rest ih =>
    rw [rewriteInsert, post_bind]
    refine loadObject_spec (fun t w₁ hs₁ hr₁ ht => ?_) (fun _ _ _ _ _ => trivial)
    have hq₁ : w.Quiet w₁ := .of_repo hs₁ hr₁
    have hparts := h.parts ht
    rw [post_ite]
    refine ⟨fun _ => ?_, fun _ => ?_⟩
    · rw [post_bind, post_fromExcept]
      refine ⟨fun t' ht' => ?_, fun _ _ => trivial⟩
      refine storeObject_grew LawfulFormat.tree (fun w₂ hg₂ => ?_) (fun _ _ _ _ => trivial)
      have hq₂ := hq₁.trans hg₂.quiet
      have hins := eq_ok_of_mapError ht'
      refine ⟨hq₂, hparts.insert (fun _ => hok.mono hq₂.le) hq₂.le hins
        (hg₂.stored (hq₁.intact hi)) ⟨?_, fun hk => absurd hk hkind⟩⟩
      exact hok.mono hq₂.le (hleaf head (validateName_of_insert hins))
    · rw [post_bind]
      -- the directory to go down into
      have hsub : Post (subtreeFor t head) w₁
          (fun sub w₂ => w₁.Quiet w₂ ∧ Canonical ok w₂.repo.objects sub) (fun _ _ => True) := by
        rw [subtreeFor]
        cases hg : t.get head with
        | none =>
          refine storeObject_grew LawfulFormat.tree (fun w₂ hg₂ => ?_) (fun _ _ _ _ => trivial)
          exact ⟨hg₂.quiet, .new (hg₂.stored (hq₁.intact hi))⟩
        | some e =>
          dsimp only
          rw [post_ite]
          refine ⟨fun hk => ⟨.refl w₁, ?_⟩, fun _ => trivial⟩
          exact (hparts.dirs e (mem_of_findEntry hg) hk).mono (fun _ => hok.mono hq₁.le) hq₁.le
      refine hsub.mono (fun sub w₂ h₂ => ?_) (fun _ _ _ => trivial)
      obtain ⟨hq₂, hlike⟩ := h₂
      have hq₂' := hq₁.trans hq₂
      rw [post_bind]
      refine (ih (hq₂'.intact hi) hlike fun name hv => hok.mono hq₂'.le (hleaf name hv)).mono
        (fun newSub w₃ h₃ => ?_) (fun _ _ _ => trivial)
      obtain ⟨hq₃, hnew⟩ := h₃
      have hq₃' := hq₂'.trans hq₃
      rw [post_bind, post_fromExcept]
      refine ⟨fun t' ht' => ?_, fun _ _ => trivial⟩
      refine storeObject_grew LawfulFormat.tree (fun w₄ hg₄ => ?_) (fun _ _ _ _ => trivial)
      have hq₄ := hq₃'.trans hg₄.quiet
      have hins := eq_ok_of_mapError ht'
      refine ⟨hq₄, hparts.insert (fun _ => hok.mono hq₄.le) hq₄.le hins
        (hg₄.stored (hq₃'.intact hi)) ⟨hok.dir _ head newSub (validateName_of_insert hins), ?_⟩⟩
      exact fun _ => ⟨rfl, rfl, hnew.mono (fun _ => hok.mono hg₄.quiet.le) hg₄.quiet.le⟩

/-- Removing what is at a path. -/
theorem canonical_rewriteRemove (hok : EditsKeep ok) {treeHash : H} {parts : List String}
    (hi : w.repo.objects.Intact) (h : Canonical ok w.repo.objects treeHash) :
    Post (rewriteRemove treeHash parts) w
      (fun h' w' => w.Quiet w' ∧ Canonical ok w'.repo.objects h') (fun _ _ => True) := by
  induction parts generalizing treeHash w with
  | nil => trivial
  | cons head rest ih =>
    rw [rewriteRemove, post_bind]
    refine loadObject_spec (fun t w₁ hs₁ hr₁ ht => ?_) (fun _ _ _ _ _ => trivial)
    have hq₁ : w.Quiet w₁ := .of_repo hs₁ hr₁
    have hparts := h.parts ht
    -- a tree without the entry can be stored at any later point
    have hremoved : ∀ {w' : World H}, w.Quiet w' → Post (storeObject (t.remove head)) w'
        (fun h' w'' => w.Quiet w'' ∧ Canonical ok w''.repo.objects h') (fun _ _ => True) := by
      intro w' hq
      refine storeObject_grew LawfulFormat.tree (fun w₂ hg₂ => ?_) (fun _ _ _ _ => trivial)
      have hq₂ := hq.trans hg₂.quiet
      exact ⟨hq₂, hparts.remove (fun _ => hok.mono hq₂.le) hq₂.le head
        (hg₂.stored (hq.intact hi))⟩
    rw [post_ite]
    refine ⟨fun _ => ?_, fun _ => ?_⟩
    · rw [post_ite]
      exact ⟨fun _ => hremoved hq₁, fun _ => trivial⟩
    · cases hg : t.get head with
      | none => trivial
      | some e =>
        dsimp only
        rw [post_ite]
        refine ⟨fun _ => trivial, fun hk => ?_⟩
        rw [not_not] at hk
        have hdir := (hparts.dirs e (mem_of_findEntry hg) hk).mono (fun _ => hok.mono hq₁.le) hq₁.le
        rw [post_bind]
        refine (ih (hq₁.intact hi) hdir).mono (fun newSub w₂ h₂ => ?_) (fun _ _ _ => trivial)
        obtain ⟨hq₂, hnew⟩ := h₂
        have hq₂' := hq₁.trans hq₂
        rw [post_bind]
        refine loadObject_spec (fun sub w₃ hs₃ hr₃ _ => ?_) (fun _ _ _ _ _ => trivial)
        have hq₃ : w.Quiet w₃ := hq₂'.trans (.of_repo hs₃ hr₃)
        rw [post_ite]
        refine ⟨fun _ => hremoved hq₃, fun _ => ?_⟩
        rw [post_bind, post_fromExcept]
        refine ⟨fun t' ht' => ?_, fun _ _ => trivial⟩
        refine storeObject_grew LawfulFormat.tree (fun w₄ hg₄ => ?_) (fun _ _ _ _ => trivial)
        have hq₄ := hq₃.trans hg₄.quiet
        have hins := eq_ok_of_mapError ht'
        rw [← hr₃] at hnew
        refine ⟨hq₄, hparts.insert (fun _ => hok.mono hq₄.le) hq₄.le hins
          (hg₄.stored (hq₃.intact hi)) ⟨hok.dir _ head newSub (validateName_of_insert hins), ?_⟩⟩
        exact fun _ => ⟨rfl, rfl, hnew.mono (fun _ => hok.mono hg₄.quiet.le) hg₄.quiet.le⟩

end Edit

/-! ## Edits of the map -/

section Map

variable {s s' : ObjectStore H} {root root' : H} {parts : List String}

/-- A path is passable in the tree exactly when it is in the map. -/
theorem passable_viewOf : PathTree.Passable (viewOf s root) parts ↔ Passable s root parts := by
  constructor
  · intro h path hpre hne e he
    by_contra hk
    exact h path e hpre hne (viewOf_eq_leaf.mpr ⟨he, hk⟩)
  · intro h path l hpre hne hl
    obtain ⟨he, hk⟩ := viewOf_eq_leaf.mp hl
    exact hk (h path hpre hne l he)

/-- An insertion puts a leaf into the map. -/
theorem viewOf_of_putAt {entry : TreeEntry H} (hk : entry.kind ≠ .tree)
    (h : PutAt s s' root root' parts entry) :
    viewOf s' root' = PathTree.put (viewOf s root) parts entry := by
  refine PathTree.eq_put rfl rfl (viewOf_eq_leaf.mpr ⟨h.put, hk⟩) (fun path hne hpre hp => ?_)
    (fun path hpre hp => viewOf_eq_none.mpr (h.below path hpre hp)) fun path hab hbe => ?_
  · exact viewOf_eq_dir.mpr (h.above path hne hpre hp)
  · rw [viewOf, h.others path hab hbe, viewOf]

/-- A removal erases from the map. -/
theorem viewOf_of_removedAt (h : RemovedAt s s' root root' parts) :
    viewOf s' root' = PathTree.erase (viewOf s root) parts := by
  have hleft : ∀ path, PathTree.LeftEmpty (viewOf s root) parts path ↔
      LeftEmpty s root parts path := by
    intro path
    constructor
    · intro hl below e hpre hne he
      exact hl below hpre hne (by simp [viewOf, he])
    · intro hl below hpre hne hsome
      obtain ⟨e, he⟩ := Option.ne_none_iff_exists'.mp (mt viewOf_eq_none.mpr hsome)
      exact hl below e hpre hne he
  funext path
  unfold PathTree.erase
  split_ifs with hbe hab hempty
  · exact viewOf_eq_none.mpr (h.gone path hbe)
  · have hne : path ≠ parts := fun heq => hbe (heq ▸ List.prefix_refl _)
    exact viewOf_eq_none.mpr (h.emptied path hab.2 hab.1 hne ((hleft path).mp hempty))
  · have hne : path ≠ parts := fun heq => hbe (heq ▸ List.prefix_refl _)
    exact viewOf_eq_dir.mpr (h.above path hab.2 hab.1 hne (mt (hleft path).mpr hempty))
  · by_cases hpath : path = []
    · subst hpath
      rfl
    · rw [viewOf, h.others path (fun hpre => hab ⟨hpre, hpath⟩) hbe, viewOf]

/-- Above everything in a tree there are directories. -/
theorem closed_viewOf (s : ObjectStore H) (root : H) : PathTree.Closed (viewOf s root) := by
  intro path below hne hpre hstrict hsome
  obtain ⟨e, he⟩ := Option.ne_none_iff_exists'.mp (mt viewOf_eq_none.mpr hsome)
  rw [viewOf_eq_dir]
  clear hsome
  induction path generalizing root below with
  | nil => exact absurd rfl hne
  | cons name path ih =>
    cases below with
    | nil => simp at hpre
    | cons name' below =>
      obtain ⟨rfl, hrest⟩ := List.cons_prefix_cons.mp hpre
      have hstrict : below ≠ path := fun h => hstrict (by rw [h])
      have hbelow : below ≠ [] := by
        rintro rfl
        exact hstrict (List.prefix_nil.mp hrest).symm
      cases ht : s.load (α := Tree H) root with
      | error err => simp [entryAt, ht] at he
      | ok t =>
        rw [entryAt_cons ht, Option.bind_eq_some_iff] at he
        obtain ⟨dir, hdir, he⟩ := he
        rw [if_neg hbelow] at he
        split_ifs at he with hk
        rw [entryAt_cons ht, hdir, Option.bind_some]
        by_cases hpath : path = []
        · exact ⟨dir, if_pos hpath, hk⟩
        · rw [if_neg hpath, if_pos hk]
          exact ih dir.target below hpath hrest hstrict he

end Map

end Tig
