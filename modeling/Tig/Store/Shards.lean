import Mathlib.Data.List.Basic
import Tig.Core.Hash
import Tig.Store.Objects

set_option relaxedAutoImplicit false
set_option autoImplicit false

/-!
# Finding an object by a prefix of its hash

An object lies in the directory that the first two digits of its hash name, in a file that the
others name. A user gives the first digits of a hash, four at least, and gets the one object that
they fit.

A put makes the directory, writes a temporary file in it and renames that; a put that is cut short
leaves the directory or the temporary file behind. The order in which a directory lists its files is
up to the file system.

Slices of strings are cut at a number of bytes, and panic where that is not between two characters.
Lower case of characters beyond ASCII comes from elsewhere.

## Main definitions

* `Tig.Shards` — the directories of an object store, with what they list.
* `Tig.Shards.put`, `Tig.Shards.putUntil`, `Tig.Filled` — a put, one that is cut short, and the
  stores that come of them.
* `Tig.resolvePrefix` — the lookup.

## Main results

* `Tig.Filled.listed` — what the directories of a store list.
-/

namespace Tig

/-! ## Directories -/

/-- What each directory of an object store lists; a directory that is not there is `none`. -/
abbrev Shards := String → Option (List String)

namespace Shards

variable (s : Shards)

/-- The file of an object exists. -/
def objectExists (h : Hash) : Bool :=
  match s h.fanout with
  | none => false
  | some names => decide (h.rest ∈ names)

/-- The name of the temporary file of an object. -/
def tmpName (h : Hash) : String := ".tmp-" ++ h.rest

/-- Make a directory, if it is not there. -/
def createDirAll (dir : String) : Shards :=
  fun d => if d = dir then some ((s d).getD []) else s d

/-- Make a file, if it is not there. -/
def createFile (dir name : String) : Shards :=
  fun d => if d = dir then (s d).map fun names => if name ∈ names then names else names ++ [name]
    else s d

/-- Give a file another name, in place of a file of that name. -/
def rename (dir old new : String) : Shards :=
  fun d => if d = dir then
    (s d).map fun names => names.filter (fun name => name ≠ old ∧ name ≠ new) ++ [new]
  else s d

/-- How far a put has come when it is cut short. -/
inductive Stage where
  | dir
  | tmp
deriving DecidableEq, Repr

/-- A put that is cut short. -/
def putUntil (stage : Stage) (h : Hash) : Shards :=
  if s.objectExists h then s
  else match stage with
    | .dir => s.createDirAll h.fanout
    | .tmp => (s.createDirAll h.fanout).createFile h.fanout (tmpName h)

/-- Put an object. -/
def put (h : Hash) : Shards :=
  if s.objectExists h then s
  else (s.putUntil .tmp h).rename h.fanout (tmpName h) h.rest

end Shards

/-- The stores that puts have filled, with what puts that were cut short have left. -/
inductive Filled : Shards → Prop
  | empty : Filled fun _ => none
  | put {s : Shards} (h : Hash) : Filled s → Filled (s.put h)
  | putUntil {s : Shards} (stage : Shards.Stage) (h : Hash) : Filled s → Filled (s.putUntil stage h)
  | relist {s s' : Shards} : Filled s → (∀ dir, Option.Rel List.Perm (s dir) (s' dir)) → Filled s'

/-! ## Slices -/

/-- How a lookup stops without an object. -/
inductive ResolveHalt where
  | panic
  | error (e : Error)
deriving DecidableEq, Repr

/-- The characters before byte `n` and from it on, if it is between two characters. -/
def splitAtByte : (n : Nat) → List Char → Option (List Char × List Char)
  | 0, cs => some ([], cs)
  | _, [] => none
  | n + 1, c :: cs =>
    if c.utf8Size ≤ n + 1 then
      (splitAtByte (n + 1 - c.utf8Size) cs).map fun (before, after) => (c :: before, after)
    else none

/-- `&s[..n]` -/
def sliceTo (s : String) (n : Nat) : Except ResolveHalt String :=
  match splitAtByte n s.toList with
  | some (before, _) => .ok (String.ofList before)
  | none => .error .panic

/-- `&s[n..]` -/
def sliceFrom (s : String) (n : Nat) : Except ResolveHalt String :=
  match splitAtByte n s.toList with
  | some (_, after) => .ok (String.ofList after)
  | none => .error .panic

/-! ## The lookup -/

def isAsciiHexdigit (c : Char) : Bool :=
  (48 ≤ c.toNat && c.toNat ≤ 57) || (65 ≤ c.toNat && c.toNat ≤ 70) ||
    (97 ≤ c.toNat && c.toNat ≤ 102)

/-- The names that start with a prefix, after the name of their directory; five at most. Hidden
files are skipped. -/
def collectMatches (fanout restPrefix : String) : List String → List String → List String
  | found, [] => found
  | found, name :: names =>
    if ".".toList.isPrefixOf name.toList then collectMatches fanout restPrefix found names
    else if restPrefix.toList.isPrefixOf name.toList then
      let found := found ++ [fanout ++ name]
      if found.length > 4 then found else collectMatches fanout restPrefix found names
    else collectMatches fanout restPrefix found names

/-- Slices of all strings, from the first one on. -/
def previews : List String → Except ResolveHalt (List String)
  | [] => .ok []
  | s :: ss => do
    let preview ← sliceTo s 16
    let rest ← previews ss
    .ok (preview :: rest)

/-- The object whose hash starts with the digits, which are in lower case. -/
def resolveDigits (s : Shards) (digits : String) : Except ResolveHalt Hash :=
  if (Utf8.encode digits).length = 64 then
    -- the whole hash is given
    match Hash.fromHex digits with
    | .error e => .error (.error (.core e))
    | .ok h => if s.objectExists h then .ok h else .error (.error (.notFound digits))
  else do
    let fanout ← sliceTo digits 2
    let restPrefix ← sliceFrom digits 2
    match s fanout with
    | none => .error (.error (.notFound digits))
    | some names =>
      match collectMatches fanout restPrefix [] names with
      | [] => .error (.error (.notFound digits))
      | [found] => (Hash.fromHex found).mapError fun e => .error (.core e)
      | found => do
        let preview ← previews found
        .error (.error (.corrupt ("ambiguous prefix " ++ debugStr digits ++ "; matches: " ++
          String.intercalate ", " preview ++ "…")))

/-- The object whose hash starts with what a user has given; `lower` is `to_lowercase`. -/
def resolvePrefix (lower : String → String) (s : Shards) (given : String) :
    Except ResolveHalt Hash :=
  if (Utf8.encode given).length < 4 then
    .error (.error (.corrupt ("hash prefix must be at least 4 hex chars, got " ++ debugStr given)))
  else
    let digits := lower given
    if digits.toList.all isAsciiHexdigit = false then
      .error (.error (.corrupt ("hash prefix has non-hex characters: " ++ debugStr digits)))
    else resolveDigits s digits

/-- What lower case does: ASCII letters become small, and the lower case of a string with other
characters is not a number in hexadecimal. -/
structure Lowercases (lower : String → String) : Prop where
  ascii : ∀ s : String, (∀ c ∈ s.toList, c.toNat < 128) →
    lower s = String.ofList (s.toList.map Char.toLower)
  other : ∀ s : String, (∃ c ∈ s.toList, 128 ≤ c.toNat) →
    (lower s).toList.all isAsciiHexdigit = false

/-! ## What the directories list -/

namespace Shards

/-- A name that a directory lists: the file of an object, or a temporary file. -/
def NameIn (dir name : String) : Prop :=
  (∃ h : Hash, h.fanout = dir ∧ h.rest = name) ∨ ∃ h : Hash, tmpName h = name

/-- A directory lists files of objects and temporary files, each once. -/
def Listed (s : Shards) : Prop :=
  ∀ dir names, s dir = some names → names.Nodup ∧ ∀ name ∈ names, NameIn dir name

variable {s : Shards} {dir name : String}

theorem Listed.createDirAll (hs : Listed s) (dir : String) : Listed (s.createDirAll dir) := by
  intro d names hd
  unfold Shards.createDirAll at hd
  split_ifs at hd
  · cases hsd : s d with
    | none =>
      rw [hsd] at hd
      obtain rfl := Option.some.inj hd
      exact ⟨List.nodup_nil, nofun⟩
    | some names' =>
      rw [hsd] at hd
      obtain rfl := Option.some.inj hd
      exact hs d _ hsd
  · exact hs d names hd

theorem Listed.createFile (hs : Listed s) (hname : NameIn dir name) :
    Listed (s.createFile dir name) := by
  intro d names hd
  unfold Shards.createFile at hd
  split_ifs at hd with hdir
  · subst hdir
    obtain ⟨names', hsd, hnames⟩ := Option.map_eq_some_iff.mp hd
    obtain ⟨hnodup, hall⟩ := hs d names' hsd
    split_ifs at hnames with hmem
    · exact hnames ▸ ⟨hnodup, hall⟩
    · subst hnames
      refine ⟨hnodup.append (List.nodup_singleton _) (by simpa using hmem), fun n hn => ?_⟩
      rcases List.mem_append.mp hn with hn | hn
      · exact hall n hn
      · rwa [List.mem_singleton.mp hn]
  · exact hs d names hd

theorem Listed.rename (hs : Listed s) (old : String) (hname : NameIn dir name) :
    Listed (s.rename dir old name) := by
  intro d names hd
  unfold Shards.rename at hd
  split_ifs at hd with hdir
  · subst hdir
    obtain ⟨names', hsd, rfl⟩ := Option.map_eq_some_iff.mp hd
    obtain ⟨hnodup, hall⟩ := hs d names' hsd
    refine ⟨(hnodup.filter _).append (List.nodup_singleton _) (by simp), fun n hn => ?_⟩
    rcases List.mem_append.mp hn with hn | hn
    · exact hall n (List.mem_of_mem_filter hn)
    · rwa [List.mem_singleton.mp hn]
  · exact hs d names hd

theorem Listed.putUntil (hs : Listed s) (stage : Stage) (h : Hash) : Listed (s.putUntil stage h) := by
  unfold Shards.putUntil
  split_ifs
  · exact hs
  · cases stage with
    | dir => exact hs.createDirAll h.fanout
    | tmp => exact (hs.createDirAll h.fanout).createFile (Or.inr ⟨h, rfl⟩)

theorem Listed.put (hs : Listed s) (h : Hash) : Listed (s.put h) := by
  unfold Shards.put
  split_ifs
  · exact hs
  · exact (hs.putUntil .tmp h).rename _ (Or.inl ⟨h, rfl, rfl⟩)

theorem Listed.relist {s' : Shards} (hs : Listed s)
    (h : ∀ dir, Option.Rel List.Perm (s dir) (s' dir)) : Listed s' := by
  intro dir names hd
  have hrel := h dir
  rw [hd] at hrel
  cases hsd : s dir with
  | none => rw [hsd] at hrel; cases hrel
  | some names' =>
    rw [hsd] at hrel
    cases hrel with
    | some hperm =>
      obtain ⟨hnodup, hall⟩ := hs dir names' hsd
      exact ⟨hperm.nodup_iff.mp hnodup, fun n hn => hall n (hperm.mem_iff.mpr hn)⟩

end Shards

/-- **What a store lists**, whatever was put into it and whatever was cut short. -/
theorem Filled.listed {s : Shards} (hs : Filled s) : s.Listed := by
  induction hs with
  | empty => exact nofun
  | put h _ ih => exact ih.put h
  | putUntil stage h _ ih => exact ih.putUntil stage h
  | relist _ hperm ih => exact ih.relist hperm

end Tig
