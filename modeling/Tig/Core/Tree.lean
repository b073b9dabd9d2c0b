import Mathlib.Data.String.Basic
import Tig.Core.Object

set_option relaxedAutoImplicit false
set_option autoImplicit false

/-!
# Blobs and trees

A blob is the bytes of a file. A tree is one level of a directory: entries sorted by name, each
with a kind, a target hash and mode bits. A decoded tree need not be sorted; trees made by
`insert` are.

## Main definitions

* `Tig.Blob`, `Tig.TreeEntry`, `Tig.Tree` — the objects.
* `Tig.Tree.insert`, `Tig.Tree.get` — upsert and lookup by name, by search in sorted order.

## Main results

* `Tig.Tree.get_insert` — an insertion is seen at its name and nowhere else.
* `Tig.Tree.Sorted.insert` — insertion keeps a tree sorted.
* `Tig.Tree.Sorted.ext` — a sorted tree is determined by its entries under each name.
-/

namespace Tig

/-- Opaque file bytes. -/
structure Blob where
  bytes : Bytes
deriving DecidableEq, Repr

/-- What a tree entry is. -/
inductive EntryKind where
  | file
  | tree
  | symlink
  | sealed
  | conflict
  | submodule
deriving DecidableEq, Repr

/-- The kind as `{:?}` prints it. -/
def EntryKind.toText : EntryKind → String
  | .file => "File"
  | .tree => "Tree"
  | .symlink => "Symlink"
  | .sealed => "Sealed"
  | .conflict => "Conflict"
  | .submodule => "Submodule"

/-- Unix mode bits; only the executable bits are used. -/
structure FileMode where
  bits : UInt32
deriving DecidableEq, Repr

namespace FileMode

def REGULAR : FileMode := ⟨0o100644⟩
def EXEC : FileMode := ⟨0o100755⟩
def SYMLINK : FileMode := ⟨0o120000⟩
def DIR : FileMode := ⟨0o040000⟩

/-- Some executable bit is set. -/
def isExecutable (m : FileMode) : Bool := m.bits &&& 0o111 != 0

end FileMode

/-- The visibility tag of a tree entry, which is recorded and not enforced. -/
abbrev VisTag := String

/-- One entry of a directory. -/
@[ext]
structure TreeEntry (H : Type) where
  name : String
  kind : EntryKind
  target : H
  mode : FileMode
  vis : Option VisTag
deriving DecidableEq, Repr

/-- One level of a directory. -/
@[ext]
structure Tree (H : Type) where
  entries : List (TreeEntry H)
deriving DecidableEq, Repr

variable {H : Type}

/-- A name that cannot stand in a path is refused. -/
def TreeEntry.validateName (name : String) : Except CoreError Unit :=
  if name = "" ∨ name = "." ∨ name = ".." ∨ '/' ∈ name.toList ∨ '\x00' ∈ name.toList then
    .error (.invalidPathComponent name)
  else .ok ()

/-- Put `entry` at its place among the sorted `entries`, over an entry of the same name. -/
def upsertEntry (entry : TreeEntry H) : List (TreeEntry H) → List (TreeEntry H)
  | [] => [entry]
  | e :: es =>
    if e.name < entry.name then e :: upsertEntry entry es
    else if e.name = entry.name then entry :: es
    else entry :: e :: es

/-- Search the sorted `entries` for a name. -/
def findEntry (name : String) : List (TreeEntry H) → Option (TreeEntry H)
  | [] => none
  | e :: es => if e.name < name then findEntry name es else if e.name = name then some e else none

namespace Tree

/-- The empty directory. -/
def new : Tree H := ⟨[]⟩

/-- Insert an entry, replacing the one of the same name. -/
def insert (t : Tree H) (entry : TreeEntry H) : Except CoreError (Tree H) :=
  (TreeEntry.validateName entry.name).map fun _ => ⟨upsertEntry entry t.entries⟩

/-- The entry of the given name. -/
def get (t : Tree H) (name : String) : Option (TreeEntry H) := findEntry name t.entries

/-- No entries at all. -/
def isEmpty (t : Tree H) : Bool := t.entries.isEmpty

/-- The entries are strictly sorted by name. -/
def Sorted (t : Tree H) : Prop := t.entries.Pairwise fun a b => a.name < b.name

end Tree

/-! ## Lookup and insertion -/

theorem findEntry_upsertEntry (entry : TreeEntry H) (es : List (TreeEntry H)) (name : String) :
    findEntry name (upsertEntry entry es) =
      if name = entry.name then some entry else findEntry name es := by
  rcases eq_or_ne name entry.name with rfl | hn
  · rw [if_pos rfl]
    induction es with
    | nil => simp [upsertEntry, findEntry]
    | cons e es ih =>
      simp only [upsertEntry]
      split_ifs with h1 h2
      · rw [findEntry, if_pos h1, ih]
      · simp [findEntry]
      · simp [findEntry]
  · rw [if_neg hn]
    induction es with
    | nil => simp [upsertEntry, findEntry, Ne.symm hn]
    | cons e es ih =>
      simp only [upsertEntry]
      split_ifs with h1 h2
      · rw [findEntry, findEntry, ih]
      · rw [findEntry, findEntry, h2, if_neg (Ne.symm hn), if_neg (Ne.symm hn)]
      · -- the new entry stands before `e`: a search for another name either goes past both,
        -- or has already failed at `e`
        have hlt : entry.name < e.name := lt_of_le_of_ne (not_lt.mp h1) (Ne.symm h2)
        rw [findEntry, if_neg (Ne.symm hn)]
        split_ifs with h3
        · rfl
        · have hle : name < e.name := lt_of_le_of_lt (not_lt.mp h3) hlt
          rw [findEntry, if_neg (not_lt.mpr hle.le), if_neg (ne_of_gt hle)]

/-- What a search finds has the name searched for. -/
theorem name_of_findEntry {name : String} {es : List (TreeEntry H)} {e : TreeEntry H}
    (h : findEntry name es = some e) : e.name = name := by
  induction es with
  | nil => simp [findEntry] at h
  | cons a es ih =>
    simp only [findEntry] at h
    split_ifs at h with h1 h2
    · exact ih h
    · simp_all

/-- What a search finds is an entry. -/
theorem mem_of_findEntry {name : String} {es : List (TreeEntry H)} {e : TreeEntry H}
    (h : findEntry name es = some e) : e ∈ es := by
  induction es with
  | nil => simp [findEntry] at h
  | cons a es ih =>
    simp only [findEntry] at h
    split_ifs at h with h1 h2
    · exact List.mem_cons_of_mem _ (ih h)
    · simp_all

theorem mem_upsertEntry {entry e : TreeEntry H} {es : List (TreeEntry H)}
    (h : e ∈ upsertEntry entry es) : e = entry ∨ e ∈ es := by
  induction es with
  | nil => simpa [upsertEntry] using h
  | cons a es ih =>
    simp only [upsertEntry] at h
    split_ifs at h with h1 h2
    · rcases List.mem_cons.mp h with rfl | h
      · simp
      · rcases ih h with h | h <;> simp [h]
    · rcases List.mem_cons.mp h with rfl | h <;> simp_all
    · simpa using h

/-- An upsert keeps entries sorted. -/
theorem pairwise_upsertEntry (entry : TreeEntry H) {es : List (TreeEntry H)}
    (hs : es.Pairwise fun a b => a.name < b.name) :
    (upsertEntry entry es).Pairwise fun a b => a.name < b.name := by
  induction es with
  | nil => simp [upsertEntry]
  | cons a es ih =>
    obtain ⟨ha, hes⟩ := List.pairwise_cons.mp hs
    simp only [upsertEntry]
    split_ifs with h1 h2
    · refine List.pairwise_cons.mpr ⟨fun b hb => ?_, ih hes⟩
      rcases mem_upsertEntry hb with rfl | hb
      · exact h1
      · exact ha b hb
    · exact List.pairwise_cons.mpr ⟨fun b hb => h2 ▸ ha b hb, hes⟩
    · have hlt : entry.name < a.name := lt_of_le_of_ne (not_lt.mp h1) (Ne.symm h2)
      refine List.pairwise_cons.mpr ⟨fun b hb => ?_, hs⟩
      rcases List.mem_cons.mp hb with rfl | hb
      · exact hlt
      · exact lt_trans hlt (ha b hb)

namespace Tree

/-- An insertion is seen at its own name and nowhere else. -/
theorem get_insert {t t' : Tree H} {entry : TreeEntry H} (h : t.insert entry = .ok t')
    (name : String) :
    t'.get name = if name = entry.name then some entry else t.get name := by
  unfold insert at h
  cases hv : TreeEntry.validateName entry.name with
  | error e => simp [hv, Except.map] at h
  | ok u =>
    simp only [hv, Except.map, Except.ok.injEq] at h
    subst h
    exact findEntry_upsertEntry entry t.entries name

/-- Insertion keeps a tree sorted. -/
theorem Sorted.insert {t t' : Tree H} {entry : TreeEntry H} (hs : t.Sorted)
    (h : t.insert entry = .ok t') : t'.Sorted := by
  unfold Tree.insert at h
  cases hv : TreeEntry.validateName entry.name with
  | error e => simp [hv, Except.map] at h
  | ok u =>
    simp only [hv, Except.map, Except.ok.injEq] at h
    subst h
    exact pairwise_upsertEntry entry hs

end Tree

/-! ## Trees as maps -/

/-- Inserting under a valid name succeeds. -/
theorem insert_ok {name : String} (hv : TreeEntry.validateName name = .ok ())
    (t : Tree H) (entry : TreeEntry H) (hn : entry.name = name) :
    t.insert entry = .ok ⟨upsertEntry entry t.entries⟩ := by
  rw [Tree.insert, hn, hv]
  rfl

theorem validateName_of_insert {tree tree' : Tree H} {entry : TreeEntry H}
    (h : tree.insert entry = .ok tree') : TreeEntry.validateName entry.name = .ok () := by
  rw [Tree.insert] at h
  cases hv : TreeEntry.validateName entry.name with
  | error e =>
    rw [hv] at h
    cases h
  | ok u => rfl

/-- In a sorted directory a search finds the entry with the name. -/
theorem findEntry_eq_some {es : List (TreeEntry H)} (hs : es.Pairwise fun a b => a.name < b.name)
    {name : String} {e : TreeEntry H} : findEntry name es = some e ↔ e ∈ es ∧ e.name = name := by
  refine ⟨fun h => ⟨mem_of_findEntry h, name_of_findEntry h⟩, ?_⟩
  rintro ⟨he, rfl⟩
  induction es with
  | nil => cases he
  | cons a es ih =>
    obtain ⟨ha, hs⟩ := List.pairwise_cons.mp hs
    rw [findEntry]
    rcases List.mem_cons.mp he with rfl | he
    · rw [if_neg (lt_irrefl _), if_pos rfl]
    · rw [if_pos (ha e he)]
      exact ih hs he

/-- A name has an entry exactly when a search finds one. -/
theorem get_eq_none {t : Tree H} (hs : t.Sorted) {name : String} :
    t.get name = none ↔ ∀ e ∈ t.entries, e.name ≠ name := by
  rw [Option.eq_none_iff_forall_ne_some]
  constructor
  · intro h e he hn
    exact h e ((findEntry_eq_some hs).mpr ⟨he, hn⟩)
  · intro h e he
    obtain ⟨hmem, hn⟩ := (findEntry_eq_some hs).mp he
    exact h e hmem hn

/-- Sorted trees with the same entry under each name are equal. -/
theorem Tree.Sorted.ext {t t' : Tree H} (ht : t.Sorted) (ht' : t'.Sorted)
    (h : ∀ name, t.get name = t'.get name) : t = t' := by
  have hmem : ∀ e, e ∈ t.entries ↔ e ∈ t'.entries := by
    intro e
    have hl : findEntry e.name t.entries = some e ↔ e ∈ t.entries ∧ e.name = e.name :=
      findEntry_eq_some ht
    have hr : findEntry e.name t'.entries = some e ↔ e ∈ t'.entries ∧ e.name = e.name :=
      findEntry_eq_some ht'
    have hget : findEntry e.name t.entries = findEntry e.name t'.entries := h e.name
    rw [hget] at hl
    constructor
    · intro he
      exact (hr.mp (hl.mpr ⟨he, rfl⟩)).1
    · intro he
      exact (hl.mp (hr.mpr ⟨he, rfl⟩)).1
  have hnodup : ∀ {u : Tree H}, u.Sorted → u.entries.Nodup := fun hu =>
    hu.imp fun hlt heq => absurd (congrArg TreeEntry.name heq) (ne_of_lt hlt)
  have hperm := (List.perm_ext_iff_of_nodup (hnodup ht) (hnodup ht')).mpr hmem
  have hentries := hperm.eq_of_pairwise (fun a b _ _ hab hba => absurd hab hba.asymm) ht ht'
  cases t
  cases t'
  exact congrArg Tree.mk hentries

end Tig
