import Mathlib.Data.List.TakeWhile
import Tig.Core.Plain
import Tig.Fs.StoredTree

set_option relaxedAutoImplicit false
set_option autoImplicit false

/-!
# The readers of a path

Three readers walk down a path, each in a loop of its own: one that looks an entry up, one that
reads a file or fails, and one that reads a file or says that there is none. On a tree that is there
as a whole they tell the same story.

## Main definitions

* `Tig.Present` — a tree with all its directories and files.
* `Tig.LookupFails` — why looking up an entry fails, and with which error.
* `Tig.ReadersAgree` — what the readers say of a path.

## Main results

* `Tig.tryReadBelow_eq` — reading a file that may be missing is looking at what is at the path.
* `Tig.lookupBelow_eq_error` — looking up fails for two reasons only.
* `Tig.splitPath_trimSlashes` — slashes around a path do not matter.
* `Tig.pathReaders_agree` — the readers agree on every path.
-/

namespace Tig

open Program

/-! ## Slashes around a path -/

/-- The components of a path that are not empty. -/
def pathPieces (path : List Char) : List String :=
  ((path.splitOn '/').map String.ofList).filter (· ≠ "")

theorem pathPieces_cons_slash (path : List Char) : pathPieces ('/' :: path) = pathPieces path := by
  have h : ('/' :: path).splitOn '/' = [] :: path.splitOn '/' :=
    List.splitOn_append_cons_self [] path
  rw [pathPieces, h]
  rfl

theorem pathPieces_concat_slash (path : List Char) :
    pathPieces (path ++ ['/']) = pathPieces path := by
  rw [pathPieces, List.splitOn_append_cons_self, List.splitOn_nil, List.map_append,
    List.filter_append]
  exact List.append_nil _

theorem pathPieces_dropWhile (path : List Char) :
    pathPieces (path.dropWhile (· = '/')) = pathPieces path := by
  induction path with
  | nil => rfl
  | cons c path ih =>
    by_cases hc : c = '/'
    · rw [List.dropWhile_cons_of_pos (by simpa using hc), ih, hc, pathPieces_cons_slash]
    · rw [List.dropWhile_cons_of_neg (by simpa using hc)]

theorem pathPieces_dropWhile_reverse (path : List Char) :
    pathPieces (path.reverse.dropWhile (· = '/')).reverse = pathPieces path := by
  induction path using List.reverseRecOn with
  | nil => rfl
  | append_singleton path c ih =>
    rw [List.reverse_append, List.reverse_singleton, List.singleton_append]
    by_cases hc : c = '/'
    · rw [List.dropWhile_cons_of_pos (by simpa using hc), ih, hc, pathPieces_concat_slash]
    · rw [List.dropWhile_cons_of_neg (by simpa using hc), List.reverse_cons, List.reverse_reverse]

/-- Splitting a path depends on its components alone. -/
theorem splitPath_congr {path path' : String}
    (h : pathPieces path.toList = pathPieces path'.toList) : splitPath path = splitPath path' := by
  unfold pathPieces at h
  rw [splitPath, splitPath, h]

/-- **Slashes around a path** do not change its components. -/
theorem splitPath_trimSlashes (path : String) : splitPath (trimSlashes path) = splitPath path := by
  apply splitPath_congr
  rw [trimSlashes, String.toList_ofList, pathPieces_dropWhile_reverse, pathPieces_dropWhile]

/-- Nothing is left of a path exactly when it is made of slashes only. -/
theorem trimSlashes_eq_empty {path : String} :
    trimSlashes path = "" ↔ ∀ c ∈ path.toList, c = '/' := by
  have hslash : ∀ l : List Char, l.dropWhile (· = '/') = [] ↔ ∀ c ∈ l, c = '/' := fun l => by
    rw [List.dropWhile_eq_nil_iff]
    simp only [decide_eq_true_eq]
  rw [trimSlashes, String.ofList_eq_empty_iff, List.reverse_eq_nil_iff, hslash, ← hslash path.toList]
  simp only [List.mem_reverse]
  constructor
  · intro h
    by_contra hne
    obtain ⟨c, rest, hc⟩ := List.exists_cons_of_ne_nil hne
    -- what is left starts with something else than a slash
    have hfirst := List.head?_dropWhile_not (fun c => decide (c = '/')) path.toList
    rw [hc] at hfirst h
    simp [h c List.mem_cons_self] at hfirst
  · intro h
    simp [h]

variable {H : Type} [LinearOrder H] [Format H] {s : ObjectStore H}

/-! ## Trees that are there -/

/-- The tree is stored, with all its directories and files. -/
structure Present (s : ObjectStore H) (root : H) : Prop where
  whole : Whole s root
  files : ∀ path e, entryAt s root path = some e → e.kind = .file →
    ∃ blob : Blob, s.load e.target = .ok blob

theorem WellStored.present {root : H} (h : WellStored s root) : Present s root := ⟨h.whole, h.files⟩

/-- At the path there is a directory; the empty path is the root. -/
def DirectoryAt (s : ObjectStore H) (root : H) (path : List String) : Prop :=
  path = [] ∨ ∃ e, entryAt s root path = some e ∧ e.kind = .tree

/-- Why looking up a path below `root` fails, after `walked`: a component is not there, or one that
is not the last is no directory. -/
inductive LookupFails (s : ObjectStore H) (walked : List String) (root : H) (parts : List String) :
    Error → Prop
  | missing {before after : List String} {part : String} :
      parts = before ++ part :: after → DirectoryAt s root before →
      entryAt s root (before ++ [part]) = none →
      LookupFails s walked root parts (.core (.decode
        ("no entry " ++ debugStr part ++ " at /" ++ "/".intercalate (walked ++ before))))
  | traverses {before after : List String} {part : String} {e : TreeEntry H} :
      parts = before ++ part :: after → after ≠ [] →
      entryAt s root (before ++ [part]) = some e → e.kind ≠ .tree →
      LookupFails s walked root parts (.core (.decode
        ("path traverses " ++ e.kind.toText ++ " at /" ++ "/".intercalate (walked ++ before) ++
          "/" ++ part)))

/-! ## Looking up -/

section Lookup

variable {walked : List String} {root : H} {t : Tree H} {part : String} {rest : List String}
  {entry : TreeEntry H} {err : Error}

/-- A directory below another one is reached through the first step of its path. -/
theorem directoryAt_cons (ht : s.load root = .ok t) (hg : t.get part = some entry)
    (hk : entry.kind = .tree) (before : List String) :
    DirectoryAt s root (part :: before) ↔ DirectoryAt s entry.target before := by
  unfold DirectoryAt
  rw [entryAt_cons ht, hg, Option.bind_some, if_pos hk]
  by_cases hb : before = []
  · simp [hb, hk]
  · simp [hb]

/-- Behind a directory, looking up goes on from there. -/
theorem lookupFails_cons (ht : s.load root = .ok t) (hg : t.get part = some entry)
    (hk : entry.kind = .tree) :
    LookupFails s walked root (part :: rest) err ↔
      LookupFails s (walked ++ [part]) entry.target rest err := by
  have hat : ∀ before name, entryAt s root (part :: (before ++ [name])) =
      entryAt s entry.target (before ++ [name]) := fun before name => by
    rw [entryAt_cons ht, hg, Option.bind_some, if_neg (by simp), if_pos hk]
  have hfirst : entryAt s root [part] = some entry := by
    rw [entryAt_cons ht, hg, Option.bind_some, if_pos rfl]
  constructor
  · intro h
    cases h with
    | @missing before after name hparts hdir hnone =>
      cases before with
      | nil =>
        obtain ⟨rfl, -⟩ := List.cons.inj hparts
        rw [List.nil_append, hfirst] at hnone
        cases hnone
      | cons first before =>
        obtain ⟨rfl, rfl⟩ := List.cons.inj hparts
        rw [List.cons_append, hat] at hnone
        have hfails : LookupFails s (walked ++ [part]) entry.target (before ++ name :: after) _ :=
          .missing rfl ((directoryAt_cons ht hg hk before).mp hdir) hnone
        rwa [List.append_assoc] at hfails
    | @traverses before after name e hparts hafter he hne =>
      cases before with
      | nil =>
        obtain ⟨rfl, -⟩ := List.cons.inj hparts
        rw [List.nil_append, hfirst] at he
        obtain rfl := Option.some.inj he
        exact absurd hk hne
      | cons first before =>
        obtain ⟨rfl, rfl⟩ := List.cons.inj hparts
        rw [List.cons_append, hat] at he
        have hfails : LookupFails s (walked ++ [part]) entry.target (before ++ name :: after) _ :=
          .traverses rfl hafter he hne
        rwa [List.append_assoc] at hfails
  · intro h
    cases h with
    | @missing before after name hparts hdir hnone =>
      have hfails : LookupFails s walked root ((part :: before) ++ name :: after) _ :=
        .missing rfl ((directoryAt_cons ht hg hk before).mpr hdir)
          ((hat before name).trans hnone)
      rw [List.append_assoc, hparts]
      exact hfails
    | @traverses before after name e hparts hafter he hne =>
      have hfails : LookupFails s walked root ((part :: before) ++ name :: after) _ :=
        .traverses rfl hafter ((hat before name).trans he) hne
      rw [List.append_assoc, hparts]
      exact hfails

/-- Where the first component is not there, this is why looking up fails. -/
theorem lookupFails_of_missing (ht : s.load root = .ok t) (hg : t.get part = none) :
    LookupFails s walked root (part :: rest) err ↔
      err = .core (.decode ("no entry " ++ debugStr part ++ " at /" ++ "/".intercalate walked)) := by
  have hnone : ∀ path, entryAt s root (part :: path) = none := fun path => by
    rw [entryAt_cons ht, hg, Option.bind_none]
  constructor
  · intro h
    cases h with
    | @missing before after name hparts hdir _ =>
      cases before with
      | nil =>
        obtain ⟨rfl, -⟩ := List.cons.inj hparts
        rw [List.append_nil]
      | cons first before =>
        obtain ⟨rfl, -⟩ := List.cons.inj hparts
        rcases hdir with hdir | ⟨e, he, -⟩
        · cases hdir
        · rw [hnone] at he
          cases he
    | @traverses before after name e hparts _ he _ =>
      cases before with
      | nil =>
        obtain ⟨rfl, -⟩ := List.cons.inj hparts
        rw [List.nil_append, hnone] at he
        cases he
      | cons first before =>
        obtain ⟨rfl, -⟩ := List.cons.inj hparts
        rw [List.cons_append, hnone] at he
        cases he
  · rintro rfl
    have hfails : LookupFails s walked root ([] ++ part :: rest) _ :=
      .missing rfl (.inl rfl) (hnone [])
    rwa [List.append_nil] at hfails

/-- Looking up does not fail at its last component when that is there. -/
theorem not_lookupFails_singleton (ht : s.load root = .ok t) (hg : t.get part = some entry) :
    ¬ LookupFails s walked root [part] err := by
  intro h
  cases h with
  | @missing before after name hparts _ hnone =>
    cases before with
    | nil =>
      obtain ⟨rfl, -⟩ := List.cons.inj hparts
      rw [List.nil_append, entryAt_cons ht, hg, Option.bind_some, if_pos rfl] at hnone
      cases hnone
    | cons first before => simp at hparts
  | @traverses before after name e hparts hafter _ _ =>
    cases before with
    | nil => exact hafter (List.cons.inj hparts).2.symm
    | cons first before => simp at hparts

/-- Where the first component is no directory, and not the last, this is why looking up fails. -/
theorem lookupFails_of_traverses (ht : s.load root = .ok t) (hg : t.get part = some entry)
    (hk : entry.kind ≠ .tree) (hrest : rest ≠ []) :
    LookupFails s walked root (part :: rest) err ↔
      err = .core (.decode ("path traverses " ++ entry.kind.toText ++ " at /" ++
        "/".intercalate walked ++ "/" ++ part)) := by
  have hfirst : entryAt s root [part] = some entry := by
    rw [entryAt_cons ht, hg, Option.bind_some, if_pos rfl]
  have hnone : ∀ path, path ≠ [] → entryAt s root (part :: path) = none := fun path hp => by
    rw [entryAt_cons ht, hg, Option.bind_some, if_neg hp, if_neg hk]
  constructor
  · intro h
    cases h with
    | @missing before after name hparts hdir hno =>
      cases before with
      | nil =>
        obtain ⟨rfl, -⟩ := List.cons.inj hparts
        rw [List.nil_append, hfirst] at hno
        cases hno
      | cons first before =>
        obtain ⟨rfl, -⟩ := List.cons.inj hparts
        rcases hdir with hdir | ⟨e, he, hek⟩
        · cases hdir
        · cases before with
          | nil =>
            obtain rfl := Option.some.inj (hfirst.symm.trans he)
            exact absurd hek hk
          | cons second before =>
            rw [hnone _ (List.cons_ne_nil _ _)] at he
            cases he
    | @traverses before after name e hparts _ he _ =>
      cases before with
      | nil =>
        obtain ⟨rfl, -⟩ := List.cons.inj hparts
        obtain rfl := Option.some.inj (hfirst.symm.trans he)
        rw [List.append_nil]
      | cons first before =>
        obtain ⟨rfl, -⟩ := List.cons.inj hparts
        rw [List.cons_append, hnone _ (by simp)] at he
        cases he
  · rintro rfl
    have hfails : LookupFails s walked root ([] ++ part :: rest) _ :=
      .traverses rfl hrest hfirst hk
    rwa [List.append_nil] at hfails

/-- **Looking up** in a tree that is stored fails for these two reasons only. -/
theorem lookupBelow_eq_error {parts : List String} (hwhole : Whole s root) (hne : parts ≠ []) :
    lookupBelow s walked root parts = .error err ↔ LookupFails s walked root parts err := by
  induction parts generalizing walked root with
  | nil => exact absurd rfl hne
  | cons part rest ih =>
    obtain ⟨_, t, ht, -, hdirs⟩ := hwhole
    rw [lookupBelow, ht]
    simp only [bind, Except.bind]
    cases hg : t.get part with
    | none =>
      rw [lookupFails_of_missing ht hg, Except.error.injEq]
      exact eq_comm
    | some entry =>
      dsimp only
      by_cases hrest : rest = []
      · subst hrest
        rw [if_pos rfl]
        exact iff_of_false (fun h => by cases h) (not_lookupFails_singleton ht hg)
      · rw [if_neg hrest]
        by_cases hk : entry.kind = .tree
        · rw [if_neg (not_not.mpr hk), lookupFails_cons ht hg hk]
          exact ih (hdirs entry (mem_of_findEntry hg) hk) hrest
        · rw [if_pos hk, lookupFails_of_traverses ht hg hk hrest, Except.error.injEq]
          exact eq_comm

end Lookup

/-! ## Reading -/

section Reading

variable {root : H} {path : String} {parts : List String}

/-- **Reading a file that may be missing** is looking at what is at its path. -/
theorem tryReadBelow_eq (hwhole : Whole s root) (hne : parts ≠ []) :
    tryReadBelow s root parts =
      match entryAt s root parts with
      | none => .ok none
      | some e =>
        if e.kind = .file then (s.load e.target : Except Error Blob).map fun blob => some blob.bytes
        else .ok none := by
  induction parts generalizing root with
  | nil => exact absurd rfl hne
  | cons part rest ih =>
    obtain ⟨_, t, ht, -, hdirs⟩ := hwhole
    rw [tryReadBelow, entryAt_cons ht, ht]
    simp only [bind, Except.bind]
    cases hg : t.get part with
    | none => rfl
    | some entry =>
      rw [Option.bind_some]
      dsimp only
      by_cases hrest : rest = []
      · rw [if_pos hrest, if_pos hrest]
        dsimp only
        by_cases hk : entry.kind = .file
        · rw [if_neg (not_not.mpr hk), if_pos hk]
          cases (s.load entry.target : Except Error Blob) <;> rfl
        · rw [if_pos hk, if_neg hk]
      · rw [if_neg hrest, if_neg hrest]
        by_cases hk : entry.kind = .tree
        · rw [if_neg (not_not.mpr hk), if_pos hk]
          exact ih (hdirs entry (mem_of_findEntry hg) hk) hrest
        · rw [if_pos hk, if_neg hk]

/-- What lies at a path of a tree that is there can be looked up, and nothing else can. -/
theorem lookupEntry_eq_ok {e : TreeEntry H} :
    lookupEntry s root parts = .ok e ↔ entryAt s root parts = some e := lookupBelow_eq_ok

theorem tryReadBlobAtPath_of_split (hparts : splitPath path = .ok parts) :
    tryReadBlobAtPath s root path = tryReadBelow s root parts := by
  rw [tryReadBlobAtPath, hparts]
  rfl

/-- A file is read when it is at the path, and its bytes are those of its blob. -/
theorem readBlobAtPath_eq_ok {bytes : Bytes} :
    readBlobAtPath s root path = .ok bytes ↔
      ∃ parts e blob, splitPath path = .ok parts ∧ entryAt s root parts = some e ∧
        e.kind = .file ∧ s.load e.target = .ok blob ∧ Blob.bytes blob = bytes := by
  rw [readBlobAtPath, except_bind_eq_ok]
  constructor
  · rintro ⟨parts, hparts, h⟩
    obtain ⟨e, he, h⟩ := except_bind_eq_ok.mp h
    split_ifs at h with hk
    obtain ⟨blob, hblob, h⟩ := except_bind_eq_ok.mp h
    exact ⟨parts, e, blob, hparts, lookupEntry_eq_ok.mp he, not_not.mp hk, hblob, Except.ok.inj h⟩
  · rintro ⟨parts, e, blob, hparts, he, hk, hblob, rfl⟩
    refine ⟨parts, hparts, except_bind_eq_ok.mpr ⟨e, lookupEntry_eq_ok.mpr he, ?_⟩⟩
    rw [if_neg (not_not.mpr hk), hblob]
    rfl

/-- A path with components is not made of slashes only. -/
theorem not_slashes_of_split (hparts : splitPath path = .ok parts) :
    ¬ ∀ c ∈ path.toList, c = '/' := by
  intro hall
  rw [← splitPath_trimSlashes, trimSlashes_eq_empty.mpr hall] at hparts
  cases hparts

/-- A path of slashes only lists the root. -/
theorem listTree_slashes (hpath : ∀ c ∈ path.toList, c = '/') :
    listTree s root path = s.load root := by
  rw [listTree, if_pos (trimSlashes_eq_empty.mpr hpath)]

/-- A path at which a directory is looked up lists that directory. -/
theorem listTree_directory {e : TreeEntry H} (hparts : splitPath path = .ok parts)
    (he : lookupEntry s root parts = .ok e) (hk : e.kind = .tree) :
    listTree s root path = s.load e.target := by
  rw [listTree, splitPath_trimSlashes,
    if_neg (mt trimSlashes_eq_empty.mp (not_slashes_of_split hparts)), hparts]
  simp only [bind, Except.bind, he, ne_eq, hk, not_true_eq_false, if_false]

/-- Nothing else is listed. -/
theorem directory_of_listTree (hpath : ¬ ∀ c ∈ path.toList, c = '/') {t : Tree H}
    (h : listTree s root path = .ok t) :
    ∃ parts e, splitPath path = .ok parts ∧ lookupEntry s root parts = .ok e ∧ e.kind = .tree := by
  rw [listTree, splitPath_trimSlashes, if_neg (mt trimSlashes_eq_empty.mp hpath)] at h
  obtain ⟨parts, hparts, h⟩ := except_bind_eq_ok.mp h
  obtain ⟨e, he, h⟩ := except_bind_eq_ok.mp h
  split_ifs at h with hk
  exact ⟨parts, e, hparts, he, not_not.mp hk⟩

/-- A directory at a path of a tree that is there is stored. -/
theorem Whole.load_dir (hwhole : Whole s root) {e : TreeEntry H}
    (he : entryAt s root parts = some e) (hk : e.kind = .tree) :
    ∃ t : Tree H, s.load e.target = .ok t := by
  induction parts generalizing root with
  | nil => cases he
  | cons part rest ih =>
    obtain ⟨_, t, ht, -, hdirs⟩ := hwhole
    rw [entryAt_cons ht, Option.bind_eq_some_iff] at he
    obtain ⟨entry, hg, he⟩ := he
    split_ifs at he with hrest hdir
    · obtain rfl := Option.some.inj he
      obtain ⟨_, t', ht', -, -⟩ := hdirs entry (mem_of_findEntry hg) hk
      exact ⟨t', ht'⟩
    · exact ih (hdirs entry (mem_of_findEntry hg) hdir) he

end Reading

/-! ## The readers agree -/

/-- What the readers say of a path below `root`. -/
structure ReadersAgree (s : ObjectStore H) (root : H) (path : String) : Prop where
  /-- The two readers of files read the same. -/
  some_iff : ∀ bytes,
    tryReadBlobAtPath s root path = .ok (some bytes) ↔ readBlobAtPath s root path = .ok bytes
  /-- There is no file where looking up fails for one of its reasons, or finds no file. -/
  none_iff : tryReadBlobAtPath s root path = .ok none ↔
    ∃ parts, splitPath path = .ok parts ∧
      ((∃ err, lookupEntry s root parts = .error err ∧ LookupFails s [] root parts err) ∨
        ∃ e, lookupEntry s root parts = .ok e ∧ e.kind ≠ .file)
  /-- Only a path that has no components, or a bad one, is an error. -/
  error_iff : ∀ err, tryReadBlobAtPath s root path = .error err ↔ splitPath path = .error err
  /-- The end of the loop is not reached. -/
  reachable : tryReadBlobAtPath s root path ≠ .error (.corrupt "entered unreachable code")
  /-- A listing succeeds for the root and for what is a directory when looked up. -/
  lists_iff : (∃ t, listTree s root path = .ok t) ↔
    (∀ c ∈ path.toList, c = '/') ∨
      ∃ parts e, splitPath path = .ok parts ∧ lookupEntry s root parts = .ok e ∧ e.kind = .tree
  /-- A path of slashes only lists the root. -/
  lists_root : (∀ c ∈ path.toList, c = '/') → listTree s root path = s.load root
  /-- Another path lists the tree that its entry is for. -/
  lists_target : ∀ parts e, splitPath path = .ok parts → lookupEntry s root parts = .ok e →
    e.kind = .tree → listTree s root path = s.load e.target

/-- Only a path that cannot be split is an error that the path reader reports. -/
theorem splitPath_error {path : String} {err : Error} (h : splitPath path = .error err) :
    ∃ part, err = .core (.invalidPathComponent part) := by
  unfold splitPath at h
  dsimp only at h
  split at h
  · exact ⟨_, (Except.error.inj h).symm⟩
  · split at h
    · exact ⟨_, (Except.error.inj h).symm⟩
    · cases h

/-- On a tree that is there a path with components has a file, or it has none. -/
theorem Present.tryRead {root : H} (hroot : Present s root) {path : String} {parts : List String}
    (hparts : splitPath path = .ok parts) :
    (∃ e blob, entryAt s root parts = some e ∧ e.kind = .file ∧ s.load e.target = .ok blob ∧
      tryReadBlobAtPath s root path = .ok (some (Blob.bytes blob))) ∨
    (∀ e, entryAt s root parts = some e → e.kind ≠ .file) ∧
      tryReadBlobAtPath s root path = .ok none := by
  rw [tryReadBlobAtPath_of_split hparts, tryReadBelow_eq hroot.whole (splitPath_valid hparts).1]
  cases he : entryAt s root parts with
  | none => exact .inr ⟨nofun, rfl⟩
  | some e =>
    dsimp only
    by_cases hk : e.kind = .file
    · obtain ⟨blob, hblob⟩ := hroot.files parts e he hk
      rw [if_pos hk, hblob]
      exact .inl ⟨e, blob, rfl, hk, hblob, rfl⟩
    · rw [if_neg hk]
      refine .inr ⟨?_, rfl⟩
      rintro _ ⟨⟩
      exact hk

theorem tryReadBlobAtPath_of_error {root : H} {path : String} {err : Error}
    (hsplit : splitPath path = .error err) : tryReadBlobAtPath s root path = .error err := by
  rw [tryReadBlobAtPath, hsplit]
  rfl

section Present

variable {root : H} (hroot : Present s root) (path : String)

include hroot

/-- On a tree that is there both readers of files read the same. -/
theorem Present.some_iff (bytes : Bytes) :
    tryReadBlobAtPath s root path = .ok (some bytes) ↔ readBlobAtPath s root path = .ok bytes := by
  rw [readBlobAtPath_eq_ok]
  cases hsplit : splitPath path with
  | error err =>
    rw [tryReadBlobAtPath_of_error hsplit]
    exact iff_of_false nofun fun ⟨_, _, _, h, _⟩ => by cases h
  | ok parts =>
    rcases hroot.tryRead hsplit with ⟨e, blob, he, hk, hblob, htry⟩ | ⟨hno, htry⟩
    · rw [htry]
      constructor
      · intro h
        exact ⟨parts, e, blob, rfl, he, hk, hblob, Option.some.inj (Except.ok.inj h)⟩
      · rintro ⟨parts', e', blob', hparts', he', -, hblob', rfl⟩
        obtain rfl := Except.ok.inj hparts'
        obtain rfl := Option.some.inj (he.symm.trans he')
        obtain rfl := Except.ok.inj (hblob.symm.trans hblob')
        rfl
    · rw [htry]
      refine iff_of_false nofun ?_
      rintro ⟨parts', e, -, hparts', he, hk, -⟩
      obtain rfl := Except.ok.inj hparts'
      exact hno e he hk

/-- On a tree that is there no file is read where looking up fails, or finds something else. -/
theorem Present.none_iff :
    tryReadBlobAtPath s root path = .ok none ↔
      ∃ parts, splitPath path = .ok parts ∧
        ((∃ err, lookupEntry s root parts = .error err ∧ LookupFails s [] root parts err) ∨
          ∃ e, lookupEntry s root parts = .ok e ∧ e.kind ≠ .file) := by
  cases hsplit : splitPath path with
  | error err =>
    rw [tryReadBlobAtPath_of_error hsplit]
    exact iff_of_false nofun fun ⟨_, h, _⟩ => by cases h
  | ok parts =>
    have hfails : ∀ err, lookupEntry s root parts = .error err ↔ LookupFails s [] root parts err :=
      fun err => lookupBelow_eq_error hroot.whole (splitPath_valid hsplit).1
    rcases hroot.tryRead hsplit with ⟨e, blob, he, hk, -, htry⟩ | ⟨hno, htry⟩
    · rw [htry]
      refine iff_of_false nofun ?_
      rintro ⟨parts', hparts', h⟩
      obtain rfl := Except.ok.inj hparts'
      rw [lookupEntry_eq_ok.mpr he] at h
      rcases h with ⟨err, herr, -⟩ | ⟨e', he', hk'⟩
      · cases herr
      · obtain rfl := Except.ok.inj he'
        exact hk' hk
    · rw [htry]
      refine iff_of_true rfl ⟨parts, rfl, ?_⟩
      cases hlook : lookupEntry s root parts with
      | error err => exact .inl ⟨err, rfl, (hfails err).mp hlook⟩
      | ok e => exact .inr ⟨e, rfl, hno e (lookupEntry_eq_ok.mp hlook)⟩

/-- On a tree that is there only a path that cannot be split is an error. -/
theorem Present.error_iff (err : Error) :
    tryReadBlobAtPath s root path = .error err ↔ splitPath path = .error err := by
  cases hsplit : splitPath path with
  | error err' =>
    rw [tryReadBlobAtPath_of_error hsplit, Except.error.injEq, Except.error.injEq]
  | ok parts =>
    rcases hroot.tryRead hsplit with ⟨e, blob, -, -, -, htry⟩ | ⟨-, htry⟩
    · rw [htry]
      exact iff_of_false nofun nofun
    · rw [htry]
      exact iff_of_false nofun nofun

/-- On a tree that is there a listing succeeds for the root and for directories. -/
theorem Present.lists_iff :
    (∃ t, listTree s root path = .ok t) ↔
      (∀ c ∈ path.toList, c = '/') ∨
        ∃ parts e, splitPath path = .ok parts ∧ lookupEntry s root parts = .ok e ∧
          e.kind = .tree := by
  constructor
  · rintro ⟨t, ht⟩
    by_cases hpath : ∀ c ∈ path.toList, c = '/'
    · exact .inl hpath
    · exact .inr (directory_of_listTree hpath ht)
  · rintro (hpath | ⟨parts, e, hparts, he, hk⟩)
    · obtain ⟨_, t, ht, -, -⟩ := hroot.whole
      exact ⟨t, (listTree_slashes hpath).trans ht⟩
    · obtain ⟨t, ht⟩ := hroot.whole.load_dir (lookupEntry_eq_ok.mp he) hk
      exact ⟨t, (listTree_directory hparts he hk).trans ht⟩

end Present

/-- **The readers of a path agree** on every path of a tree that is there. -/
theorem pathReaders_agree {root : H} (hroot : Present s root) (path : String) :
    ReadersAgree s root path where
  some_iff := hroot.some_iff path
  none_iff := hroot.none_iff path
  error_iff := hroot.error_iff path
  reachable h := by
    obtain ⟨part, hpart⟩ := splitPath_error ((hroot.error_iff path _).mp h)
    cases hpart
  lists_iff := hroot.lists_iff path
  lists_root := listTree_slashes
  lists_target _ _ := listTree_directory

/-! ## A file in a directory -/

namespace NestedFile

/-- The file. -/
def blob : Blob := ⟨[97]⟩

/-- The directory `src`. -/
def src : Tree PlainHash :=
  ⟨[⟨"main.rs", .file, (encode PlainHash blob).hash PlainHash, .REGULAR, none⟩]⟩

/-- A tree with that directory. -/
def root : Tree PlainHash :=
  ⟨[⟨"src", .tree, (encode PlainHash src).hash PlainHash, .DIR, none⟩]⟩

/-- What the tree is called. -/
def rootHash : PlainHash := (encode PlainHash root).hash PlainHash

/-- A store with the directory. -/
def dirStore : ObjectStore PlainHash :=
  ((∅ : ObjectStore PlainHash).put (encode PlainHash blob)).put (encode PlainHash src)

/-- A store with the tree. -/
def store : ObjectStore PlainHash := dirStore.put (encode PlainHash root)

theorem intact : dirStore.Intact := (ObjectStore.intact_empty.put _).put _

theorem load_root : store.load rootHash = .ok root :=
  ObjectStore.load_put LawfulFormat.tree intact _

theorem load_src : store.load ((encode PlainHash src).hash PlainHash) = .ok src :=
  (ObjectStore.le_put _ _).load
    (ObjectStore.load_put LawfulFormat.tree (ObjectStore.intact_empty.put _) _)

theorem load_blob : store.load ((encode PlainHash blob).hash PlainHash) = .ok blob :=
  ((ObjectStore.le_put _ _).trans (ObjectStore.le_put _ _)).load
    (ObjectStore.load_put LawfulFormat.blob ObjectStore.intact_empty _)

theorem present : Present store rootHash where
  whole := by
    refine .mk _ _ load_root (List.pairwise_singleton _ _) fun e he _ => ?_
    obtain rfl := List.mem_singleton.mp he
    refine .mk _ _ load_src (List.pairwise_singleton _ _) fun e he hk => ?_
    obtain rfl := List.mem_singleton.mp he
    cases hk
  files path e he hk := by
    refine ⟨blob, ?_⟩
    cases path with
    | nil => cases he
    | cons name rest =>
      rw [entryAt_cons load_root, Option.bind_eq_some_iff] at he
      obtain ⟨dir, hdir, he⟩ := he
      obtain rfl := List.mem_singleton.mp (mem_of_findEntry hdir)
      split_ifs at he with hrest
      · obtain rfl := Option.some.inj he
        cases hk
      · obtain ⟨name', rest', rfl⟩ := List.exists_cons_of_ne_nil hrest
        rw [entryAt_cons load_src, Option.bind_eq_some_iff] at he
        obtain ⟨file, hfile, he⟩ := he
        obtain rfl := List.mem_singleton.mp (mem_of_findEntry hfile)
        split_ifs at he with hrest' hdir'
        · obtain rfl := Option.some.inj he
          exact load_blob
        · cases hdir'

end NestedFile

/-- Slashes in a row on the way to a file do not matter to the readers. -/
theorem pathReaders_nestedFile :
    ReadersAgree NestedFile.store NestedFile.rootHash "src//main.rs/" :=
  pathReaders_agree NestedFile.present "src//main.rs/"

end Tig
