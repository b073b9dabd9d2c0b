import Tig.Core.Plain
import Tig.Fs.Grep
import Tig.Fs.StoredTree

set_option relaxedAutoImplicit false
set_option autoImplicit false

/-!
# Searches

A search gives the first of the matching lines of each searched file, and of these the first in all,
as the caps say. The walk enforces the caps where it stands; but the cap on a file is looked at only
after a match, so a cap of 0 is one of 1.

## Main definitions

* `Tig.Files` — the files of a directory, in the order of the walk.
* `Tig.grepReference` — the matches that are to be found.

## Main results

* `Tig.grepTree_eq` — what a search finds.
* `Tig.grepTree_reference_iff` — when that are the matches that are to be found.
-/

namespace Tig

/-! ## Caps -/

section Capped

variable {α : Type}

/-- The first elements of a list, if there is a cap on their number. -/
def capped (cap : Option Nat) (xs : List α) : List α := (cap.map fun n => xs.take n).getD xs

@[simp] theorem capped_none (xs : List α) : capped none xs = xs := rfl

@[simp] theorem capped_some (n : Nat) (xs : List α) : capped (some n) xs = xs.take n := rfl

@[simp] theorem capped_nil (cap : Option Nat) : capped cap ([] : List α) = [] := by
  cases cap <;> simp

/-- Capping what comes first changes nothing in the end. -/
theorem capped_append_capped (cap : Option Nat) (xs ys : List α) :
    capped cap (capped cap xs ++ ys) = capped cap (xs ++ ys) := by
  cases cap with
  | none => rfl
  | some n =>
    rw [capped_some, capped_some, capped_some, List.take_append, List.take_append, List.take_take,
      min_self, List.length_take]
    congr 2
    omega

theorem capped_of_length_le {cap : Option Nat} {xs : List α} (h : ∀ n ∈ cap, xs.length ≤ n) :
    capped cap xs = xs := by
  cases cap with
  | none => rfl
  | some n => exact List.take_of_length_le (h n rfl)

theorem length_capped_le (cap : Option Nat) (xs : List α) : ∀ n ∈ cap, (capped cap xs).length ≤ n := by
  rintro n rfl
  exact List.length_take_le n xs

end Capped

/-! ## One file -/

section File

variable (lib : TextLib) (opts : GrepOptions) (matcher : Matcher)

/-- The matching lines of a file, of which the first has the number `n`. -/
def fileMatches (path : String) : (n : Nat) → List String → List GrepMatch
  | _, [] => []
  | n, line :: rest =>
    if matcher.isMatch lib line then ⟨path, n, line⟩ :: fileMatches path (n + 1) rest
    else fileMatches path (n + 1) rest

/-- The cap on the matches in a file as the walk takes it. -/
def GrepOptions.fileCap : Option Nat := opts.maxMatchesPerFile.map fun m => max m 1

/-- The number of matches does not exceed the cap on all matches. -/
def GrepOptions.Within (out : List GrepMatch) : Prop := ∀ n ∈ opts.maxTotalMatches, out.length ≤ n

variable {opts}

theorem atGlobalCap_iff {out : List GrepMatch} :
    atGlobalCap opts out = true ↔ ∃ n, opts.maxTotalMatches = some n ∧ n ≤ out.length := by
  cases h : opts.maxTotalMatches <;> simp [atGlobalCap, h]

/-- Nothing comes after the cap on all matches. -/
theorem capped_of_atGlobalCap {out : List GrepMatch} (hcap : atGlobalCap opts out = true)
    (hout : opts.Within out) (more : List GrepMatch) :
    capped opts.maxTotalMatches (out ++ more) = out := by
  obtain ⟨n, hn, hle⟩ := atGlobalCap_iff.mp hcap
  have hlen : out.length = n := le_antisymm (hout n hn) hle
  rw [hn, capped_some, ← hlen, List.take_left]

/-- **What is found in a file** are its first matches, and of all matches the first.

**Proof sketch.** Induction on the lines; `k` matches have been found in the file, fewer than its
cap. After a match the search ends where either cap is reached, and then nothing more is let through
by that cap. -/
theorem grepLines_eq (path : String) (ls : List String) (n k : Nat) (out : List GrepMatch)
    (hk : ∀ m ∈ opts.fileCap, k < m) (hout : opts.Within out) (hcap : ¬ atGlobalCap opts out = true) :
    grepLines lib opts matcher path n k ls out =
      capped opts.maxTotalMatches
        (out ++ capped (opts.fileCap.map (· - k)) (fileMatches lib matcher path n ls)) := by
  induction ls generalizing n k out with
  | nil =>
    rw [grepLines, fileMatches, capped_nil, List.append_nil, capped_of_length_le hout]
  | cons line rest ih =>
    rw [grepLines, fileMatches]
    by_cases hm : matcher.isMatch lib line = true
    · rw [if_pos hm, if_pos hm]
      dsimp only
      have hout' : opts.Within (out ++ [⟨path, n, line⟩]) := by
        intro N hN
        have hlt : ¬ N ≤ out.length := fun hle => hcap (atGlobalCap_iff.mpr ⟨N, hN, hle⟩)
        rw [List.length_append, List.length_singleton]
        omega
      -- the match just found comes first
      have hfirst : capped (opts.fileCap.map (· - k))
          (⟨path, n, line⟩ :: fileMatches lib matcher path (n + 1) rest) =
          ⟨path, n, line⟩ :: capped (opts.fileCap.map (· - (k + 1)))
            (fileMatches lib matcher path (n + 1) rest) := by
        cases hf : opts.fileCap with
        | none => rfl
        | some m =>
          have hlt := hk m hf
          have hsub : m - k = (m - (k + 1)) + 1 := by omega
          rw [Option.map_some, Option.map_some, capped_some, capped_some, hsub, List.take_succ_cons]
      rw [hfirst, List.append_cons out ⟨path, n, line⟩ (capped _ _)]
      split_ifs with hstop
      · rcases Bool.or_eq_true_iff.mp hstop with hfile | hall
        · -- the cap of the file lets nothing more through
          obtain ⟨m, hm', hle⟩ : ∃ m, opts.fileCap = some m ∧ m ≤ k + 1 := by
            cases h : opts.maxMatchesPerFile with
            | none => simp [h] at hfile
            | some m =>
              have hle : m ≤ k + 1 := by simpa [h] using hfile
              exact ⟨max m 1, by simp [GrepOptions.fileCap, h], by omega⟩
          have hzero : m - (k + 1) = 0 := by omega
          rw [hm', Option.map_some, capped_some, hzero, List.take_zero, List.append_nil,
            capped_of_length_le hout']
        · exact (capped_of_atGlobalCap hall hout' _).symm
      · obtain ⟨hfile, hall⟩ := not_or.mp (mt Bool.or_eq_true_iff.mpr hstop)
        refine ih (n + 1) (k + 1) (out ++ [⟨path, n, line⟩]) (fun m hm' => ?_) hout' hall
        obtain ⟨m₀, hm₀, rfl⟩ := Option.map_eq_some_iff.mp hm'
        have hlt : ¬ m₀ ≤ k + 1 := fun hle => hfile (by simpa [hm₀] using hle)
        omega
    · rw [if_neg hm, if_neg hm]
      exact ih (n + 1) k out hk hout hcap

end File

/-! ## The walk -/

section Walk

variable {H : Type} [LinearOrder H] [Format H] (s : ObjectStore H)

/-- The files that entries of a directory lead to, with their paths, in the order of the walk. -/
inductive Files : String → List (TreeEntry H) → List (String × Bytes) → Prop
  | nil (pathPrefix : String) : Files pathPrefix [] []
  | file {pathPrefix : String} {e : TreeEntry H} {es : List (TreeEntry H)} {blob : Blob}
      {files : List (String × Bytes)} (hk : e.kind = .file) (hload : s.load e.target = .ok blob)
      (hrest : Files pathPrefix es files) :
      Files pathPrefix (e :: es) ((entryPath pathPrefix e.name, blob.bytes) :: files)
  | dir {pathPrefix : String} {e : TreeEntry H} {es : List (TreeEntry H)} {t : Tree H}
      {files below : List (String × Bytes)} (hk : e.kind = .tree) (hload : s.load e.target = .ok t)
      (hbelow : Files (entryPath pathPrefix e.name) t.entries below)
      (hrest : Files pathPrefix es files) : Files pathPrefix (e :: es) (below ++ files)
  | other {pathPrefix : String} {e : TreeEntry H} {es : List (TreeEntry H)}
      {files : List (String × Bytes)} (hfile : e.kind ≠ .file) (hdir : e.kind ≠ .tree)
      (hrest : Files pathPrefix es files) : Files pathPrefix (e :: es) files

variable {s}

/-- A stored tree has files, and the walk gets to them. -/
theorem WellStored.files_exists {tree : H} {t : Tree H} (h : WellStored s tree)
    (ht : s.load tree = .ok t) (pathPrefix : String) : ∃ files, Files s pathPrefix t.entries files := by
  have hwhole := h.whole
  induction hwhole generalizing t pathPrefix with
  | mk tree t₀ hload hsorted _ ih =>
    obtain rfl : t₀ = t := Except.ok.inj (hload.symm.trans ht)
    have hall : ∀ es, (∀ e ∈ es, e ∈ t₀.entries) → ∃ files, Files s pathPrefix es files := by
      intro es hes
      induction es with
      | nil => exact ⟨[], .nil pathPrefix⟩
      | cons e es ihes =>
        obtain ⟨files, hfiles⟩ := ihes fun e he => hes e (List.mem_cons_of_mem _ he)
        have he := hes e List.mem_cons_self
        have hget : t₀.get e.name = some e := (findEntry_eq_some hsorted).mpr ⟨he, rfl⟩
        by_cases hfile : e.kind = .file
        · have hat : entryAt s tree [e.name] = some e := by
            rw [entryAt_cons hload, hget, Option.bind_some, if_pos rfl]
          obtain ⟨blob, hblob⟩ := h.files [e.name] e hat hfile
          exact ⟨_, .file hfile hblob hfiles⟩
        · by_cases hdir : e.kind = .tree
          · have hsub := h.subdir hload hget hdir
            obtain ⟨_, sub, hsubload, -, -⟩ := hsub.whole
            obtain ⟨below, hbelow⟩ := ih e he hdir hsub hsubload (entryPath pathPrefix e.name)
            exact ⟨_, .dir hdir hsubload hbelow hfiles⟩
          · exact ⟨_, .other hfile hdir hfiles⟩
    exact hall t₀.entries fun _ he => he

/-- Entries lead to one list of files. -/
theorem Files.unique {pathPrefix : String} {es : List (TreeEntry H)}
    {files files' : List (String × Bytes)} (h : Files s pathPrefix es files)
    (h' : Files s pathPrefix es files') : files' = files := by
  induction h generalizing files' with
  | nil =>
    cases h'
    rfl
  | file hk hload _ ih =>
    cases h' with
    | file _ hload' hrest =>
      obtain rfl := Except.ok.inj (hload.symm.trans hload')
      rw [ih hrest]
    | dir hk' => exact absurd (hk.symm.trans hk') (by decide)
    | other hfile => exact absurd hk hfile
  | dir hk hload _ _ ihbelow ih =>
    cases h' with
    | file hk' => exact absurd (hk.symm.trans hk') (by decide)
    | dir _ hload' hbelow hrest =>
      obtain rfl := Except.ok.inj (hload.symm.trans hload')
      rw [ihbelow hbelow, ih hrest]
    | other _ hdir => exact absurd hk hdir
  | other hfile hdir _ ih =>
    cases h' with
    | file hk => exact absurd hk hfile
    | dir hk => exact absurd hk hdir
    | other _ _ hrest => exact ih hrest

variable (lib : TextLib) (opts : GrepOptions) (matcher : Matcher)

/-- Is a file searched? -/
def GrepOptions.searches (file : String × Bytes) : Bool :=
  pathPassesFilter file.1 opts.paths && !isBinary file.2

/-- The matching lines of a file. -/
def matchesOf (file : String × Bytes) : List GrepMatch :=
  fileMatches lib matcher file.1 1 (lines (Utf8.decodeLossy file.2))

/-- The first matches of each searched file, as many as the cap on a file lets through. -/
def cappedMatches (cap : Option Nat) (files : List (String × Bytes)) : List GrepMatch :=
  (files.filter opts.searches).flatMap fun file => capped cap (matchesOf lib matcher file)

/-- The matches that are to be found in files. -/
def grepReference (files : List (String × Bytes)) : List GrepMatch :=
  capped opts.maxTotalMatches (cappedMatches lib opts matcher opts.maxMatchesPerFile files)

variable {lib opts matcher}

/-- What is found in one file more. -/
theorem cappedMatches_cons (cap : Option Nat) (file : String × Bytes) (files : List (String × Bytes)) :
    cappedMatches lib opts matcher cap (file :: files) =
      (if opts.searches file then capped cap (matchesOf lib matcher file) else []) ++
        cappedMatches lib opts matcher cap files := by
  rw [cappedMatches, List.filter_cons]
  split_ifs
  · rfl
  · rfl

/-- **What the walk finds** in the files that entries lead to. -/
theorem walkEntries_eq {pathPrefix : String} {es : List (TreeEntry H)}
    {files : List (String × Bytes)} (h : Files s pathPrefix es files) :
    ∃ depth₀, ∀ depth, depth₀ ≤ depth → ∀ out, opts.Within out →
      walkEntries lib opts matcher s (grepWalk lib opts matcher s depth) pathPrefix es out =
        .ok (capped opts.maxTotalMatches
          (out ++ cappedMatches lib opts matcher opts.fileCap files)) := by
  induction h with
  | nil pathPrefix =>
    refine ⟨0, fun depth _ out hout => ?_⟩
    rw [walkEntries, cappedMatches, List.filter_nil, List.flatMap_nil, List.append_nil,
      capped_of_length_le hout]
  | @file pathPrefix e es blob files hk hload _ ih =>
    obtain ⟨depth₀, ih⟩ := ih
    refine ⟨depth₀, fun depth hle out hout => ?_⟩
    rw [walkEntries]
    split_ifs with hcap
    · rw [capped_of_atGlobalCap hcap hout]
    · simp only [hk]
      rw [cappedMatches_cons]
      cases hpass : pathPassesFilter (entryPath pathPrefix e.name) opts.paths with
      | false =>
        rw [if_neg (by simp), if_neg (by simp [GrepOptions.searches, hpass]), List.nil_append]
        exact ih depth hle out hout
      | true =>
        rw [if_pos rfl, hload]
        simp only [bind, Except.bind]
        cases hbin : isBinary blob.bytes with
        | true =>
          rw [if_pos rfl, if_neg (by simp [GrepOptions.searches, hbin]), List.nil_append]
          exact ih depth hle out hout
        | false =>
          have hpos : ∀ m ∈ opts.fileCap, 0 < m := by
            intro m hm
            obtain ⟨m₀, -, rfl⟩ := Option.map_eq_some_iff.mp hm
            exact Nat.lt_of_lt_of_le Nat.one_pos (le_max_right m₀ 1)
          have hzero : opts.fileCap.map (· - 0) = opts.fileCap := by simp
          rw [if_neg (by simp), if_pos (by simp [GrepOptions.searches, hpass, hbin]),
            grepLines_eq lib matcher _ _ 1 0 out hpos hout hcap, hzero,
            ih depth hle _ (length_capped_le _ _), capped_append_capped, List.append_assoc]
          rfl
  | @dir pathPrefix e es t files below hk hload _ _ ihbelow ih =>
    obtain ⟨d, ihbelow⟩ := ihbelow
    obtain ⟨d', ih⟩ := ih
    refine ⟨max (d + 1) d', fun depth hle out hout => ?_⟩
    obtain ⟨depth, rfl⟩ : ∃ n, depth = n + 1 := ⟨depth - 1, by omega⟩
    rw [walkEntries]
    split_ifs with hcap
    · rw [capped_of_atGlobalCap hcap hout]
    · simp only [hk]
      rw [grepWalk, hload]
      simp only [bind, Except.bind]
      rw [ihbelow depth (by omega) out hout]
      dsimp only
      rw [ih (depth + 1) (by omega) _ (length_capped_le _ _), capped_append_capped, List.append_assoc,
        cappedMatches, cappedMatches, cappedMatches, List.filter_append, List.flatMap_append]
  | @other pathPrefix e es files hfile hdir _ ih =>
    obtain ⟨depth₀, ih⟩ := ih
    refine ⟨depth₀, fun depth hle out hout => ?_⟩
    rw [walkEntries]
    split_ifs with hcap
    · rw [capped_of_atGlobalCap hcap hout]
    · cases hk : e.kind with
      | file => exact absurd hk hfile
      | tree => exact absurd hk hdir
      | symlink => exact ih depth hle out hout
      | «sealed» => exact ih depth hle out hout
      | conflict => exact ih depth hle out hout
      | submodule => exact ih depth hle out hout

/-- **What a search finds**, with enough stack. -/
theorem grepTree_eq {tree : H} {t : Tree H} {files : List (String × Bytes)} {pattern : String}
    (ht : s.load tree = .ok t) (hfiles : Files s "" t.entries files) (hpattern : pattern ≠ "")
    (hmatcher : Matcher.compile lib pattern opts = .ok matcher) :
    ∃ depth₀, ∀ depth, depth₀ ≤ depth → grepTree lib s opts depth tree pattern =
      .ok (capped opts.maxTotalMatches (cappedMatches lib opts matcher opts.fileCap files)) := by
  obtain ⟨depth₀, hwalk⟩ := @walkEntries_eq H _ _ s lib opts matcher _ _ _ hfiles
  refine ⟨depth₀ + 1, fun depth hle => ?_⟩
  obtain ⟨depth, rfl⟩ : ∃ n, depth = n + 1 := ⟨depth - 1, by omega⟩
  rw [grepTree, if_neg hpattern, hmatcher]
  simp only [bind, Except.bind]
  rw [grepWalk, ht]
  exact hwalk depth (by omega) [] fun n _ => Nat.zero_le n

/-- A cap of 0 on the matches in a file makes a difference when there is a match, unless nothing is
let through at all. -/
theorem capped_fileCap_eq_iff (files : List (String × Bytes)) :
    capped opts.maxTotalMatches (cappedMatches lib opts matcher opts.fileCap files) =
        grepReference lib opts matcher files ↔
      opts.maxMatchesPerFile ≠ some 0 ∨ opts.maxTotalMatches = some 0 ∨
        ∀ file ∈ files, opts.searches file = true → matchesOf lib matcher file = [] := by
  rw [grepReference]
  by_cases hzero : opts.maxMatchesPerFile = some 0
  · have hcap : opts.fileCap = some 1 := by simp [GrepOptions.fileCap, hzero]
    have hnone : cappedMatches lib opts matcher (some 0) files = [] := by
      simp [cappedMatches]
    have hone : cappedMatches lib opts matcher (some 1) files = [] ↔
        ∀ file ∈ files, opts.searches file = true → matchesOf lib matcher file = [] := by
      simp [cappedMatches, List.flatMap_eq_nil_iff]
    rw [hcap, hzero, hnone, capped_nil, ← hone]
    cases htotal : opts.maxTotalMatches with
    | none => simp
    | some n => cases n <;> simp
  · refine iff_of_true ?_ (Or.inl hzero)
    have hcap : opts.fileCap = opts.maxMatchesPerFile := by
      cases h : opts.maxMatchesPerFile with
      | none => simp [GrepOptions.fileCap, h]
      | some m =>
        have hm : m ≠ 0 := fun h0 => hzero (by rw [h, h0])
        have hmax : max m 1 = m := max_eq_left (Nat.one_le_iff_ne_zero.mpr hm)
        simp [GrepOptions.fileCap, h, hmax]
    rw [hcap]

/-- **A search gives the matches that are to be found** exactly when the cap on a file is not 0, or
nothing is let through at all, or there is no match. -/
theorem grepTree_reference_iff {tree : H} {pattern : String} (hstored : WellStored s tree)
    (hpattern : pattern ≠ "") (hmatcher : Matcher.compile lib pattern opts = .ok matcher) :
    ∃ t : Tree H, s.load tree = .ok t ∧ ∃ files : List (String × Bytes),
      (∀ files', Files s "" t.entries files' ↔ files' = files) ∧
      ((∃ depth₀, ∀ depth, depth₀ ≤ depth → grepTree lib s opts depth tree pattern =
          .ok (grepReference lib opts matcher files)) ↔
        opts.maxMatchesPerFile ≠ some 0 ∨ opts.maxTotalMatches = some 0 ∨
          ∀ file ∈ files, opts.searches file = true → matchesOf lib matcher file = []) := by
  obtain ⟨_, t, ht, -, -⟩ := id hstored.whole
  obtain ⟨files, hfiles⟩ := hstored.files_exists ht ""
  refine ⟨t, ht, files, fun files' => ⟨hfiles.unique, fun h => h ▸ hfiles⟩, ?_⟩
  obtain ⟨d, hfound⟩ := grepTree_eq ht hfiles hpattern hmatcher
  rw [← capped_fileCap_eq_iff]
  constructor
  · rintro ⟨d', href⟩
    have hboth := (hfound (max d d') (le_max_left d d')).symm.trans (href _ (le_max_right d d'))
    exact Except.ok.inj hboth
  · intro h
    exact ⟨d, fun depth hle => h ▸ hfound depth hle⟩

end Walk

/-! ## A cap of 0 -/

namespace NoMatches

/-- A library of which only what a search for a text needs is used. -/
def lib : TextLib where
  lineChanges _ _ := []
  hunkChanges _ _ _ := []
  regex _ _ := .error "unused"
  lowercase text := text

/-- A directory with one file. -/
def root : Tree PlainHash :=
  ⟨[⟨"f", .file, (encode PlainHash (Blob.mk [97])).hash PlainHash, .REGULAR, none⟩]⟩

/-- What the root is called. -/
def rootHash : PlainHash := (encode PlainHash root).hash PlainHash

/-- A store that holds it. -/
def store : ObjectStore PlainHash :=
  ((∅ : ObjectStore PlainHash).put (encode PlainHash (Blob.mk [97]))).put (encode PlainHash root)

/-- A search for a text, with a cap on the matches in each file. -/
def options (cap : Option Nat) : GrepOptions := ⟨false, false, [], cap, none⟩

theorem load_root : store.load rootHash = .ok root :=
  ObjectStore.load_put LawfulFormat.tree (ObjectStore.intact_empty.put _) _

theorem load_file : store.load ((encode PlainHash (Blob.mk [97])).hash PlainHash) =
    .ok (Blob.mk [97]) := rfl

/-- The file is found. -/
theorem files : Files store "" root.entries [("f", [97])] :=
  .file rfl load_file (.nil "")

theorem stored : WellStored store rootHash := by
  have hat : ∀ path e, entryAt store rootHash path = some e → e ∈ root.entries := by
    intro path e he
    cases path with
    | nil => cases he
    | cons name rest =>
      rw [entryAt_cons load_root, Option.bind_eq_some_iff] at he
      obtain ⟨e', hget, he⟩ := he
      have hmem := mem_of_findEntry hget
      obtain rfl := List.mem_singleton.mp hmem
      split_ifs at he with hrest hk
      · exact Option.some.inj he ▸ hmem
      · cases hk
  constructor
  · refine .mk _ _ load_root (List.pairwise_singleton _ _) fun e he hk => ?_
    obtain rfl := List.mem_singleton.mp he
    cases hk
  · intro path e he
    obtain rfl := List.mem_singleton.mp (hat path e he)
    decide
  · intro path e he _
    obtain rfl := List.mem_singleton.mp (hat path e he)
    exact ⟨_, load_file⟩

end NoMatches

open NoMatches in
/-- Without caps the one match is found. -/
theorem grepTree_uncapped : ∃ depth₀, ∀ depth, depth₀ ≤ depth →
    grepTree lib store (options none) depth rootHash "a" = .ok [⟨"f", 1, "a"⟩] := by
  obtain ⟨t, ht, found, hfound, hiff⟩ := @grepTree_reference_iff _ _ _ _ lib (options none) _ _ _ stored
    (show "a" ≠ "" by decide) (rfl : Matcher.compile lib "a" (options none) = .ok _)
  obtain rfl := Except.ok.inj (load_root.symm.trans ht)
  obtain rfl := (hfound _).mp files
  exact hiff.mpr (Or.inl (by decide))

set_option maxRecDepth 1000000 in
open NoMatches in
/-- With a cap of 0 on each file the match is found nevertheless. -/
theorem not_grepTree_reference : WellStored store rootHash ∧
    ∃ matcher, Matcher.compile lib "a" (options (some 0)) = .ok matcher ∧
      Files store "" root.entries [("f", [97])] ∧
      grepReference lib (options (some 0)) matcher [("f", [97])] = [] ∧
      ∀ depth, 1 ≤ depth →
        grepTree lib store (options (some 0)) depth rootHash "a" = .ok [⟨"f", 1, "a"⟩] := by
  refine ⟨stored, _, rfl, files, rfl, fun depth hle => ?_⟩
  obtain ⟨depth, rfl⟩ : ∃ n, depth = n + 1 := ⟨depth - 1, by omega⟩
  rfl

end Tig
