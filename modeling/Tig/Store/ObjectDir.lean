import Mathlib.Data.List.AList
import Tig.Store.Gc
import Tig.Store.ObjectFile
import Tig.Store.Shards

set_option relaxedAutoImplicit false
set_option autoImplicit false

/-!
# The object store on disk

Objects are files in directories that are named by the first two digits of their hashes. A put writes
beside its place and renames, and one that is cut short leaves a directory or part of a temporary file.
A collection lists all directories, skips what is not named like an object, and removes files one by
one. The order in which directories list their files is up to the file system.

## Main definitions

* `Tig.ObjectDir` — the directories of an object store, with the files in them.
* `Tig.ObjectDir.put`, `Tig.ObjectDir.get`, `Tig.ObjectDir.has`, `Tig.ObjectDir.remove`,
  `Tig.ObjectDir.iterAll` — the operations.
* `Tig.ObjectDir.putUntil` — a put that is cut short.
* `Tig.ObjectDir.sweep` — what a collection does to the files.
* `Tig.DirRun` — directories after operations, and the objects that they should have.
-/

namespace Tig

/-! ## The map -/

namespace ObjectStore

variable {H : Type} [LinearOrder H] [Format H]

/-- What is in the file of an object. -/
def fileOf (s : ObjectStore H) (h : H) : Option Bytes := s.lookup h

/-- Remove an object, if it is there. -/
def remove (s : ObjectStore H) (h : H) : ObjectStore H := s.erase h

/-- Something else has got into the file of an object. -/
def damage (s : ObjectStore H) (h : H) (bytes : Bytes) : ObjectStore H := s.insert h bytes

variable {s : ObjectStore H} {h h' : H}

omit [Format H] in
theorem isSome_fileOf : (s.fileOf h).isSome = true ↔ h ∈ s := by
  rw [fileOf, Finmap.lookup_isSome]

/-- An object without a file is not found. -/
theorem get_of_fileOf_eq_none (hfile : s.fileOf h = none) :
    s.get h = .error (.notFound (HashFn.toHex h)) := by
  rw [fileOf] at hfile
  rw [get, hfile]

theorem fileOf_put (raw : RawObject) : (s.put raw).fileOf h =
    if h = raw.hash H ∧ raw.hash H ∉ s then some (frame raw) else s.fileOf h :=
  lookup_put s raw h

omit [Format H] in
theorem fileOf_remove : (s.remove h').fileOf h = if h = h' then none else s.fileOf h := by
  rw [fileOf, remove]
  split_ifs with hh
  · rw [hh, Finmap.lookup_erase]
  · exact Finmap.lookup_erase_ne hh

omit [Format H] in
/-- Removing objects one after the other removes those and no others. -/
theorem fileOf_foldl_remove {α : Type} (name : α → H) (l : List α) (s : ObjectStore H) :
    (l.foldl (fun s a => s.remove (name a)) s).fileOf h =
      if h ∈ l.map name then none else s.fileOf h := by
  induction l generalizing s with
  | nil => rfl
  | cons a l ih =>
    rw [List.foldl_cons, ih, fileOf_remove, List.map_cons]
    by_cases hh : h = name a
    · simp [hh]
    · simp [hh]

omit [Format H] in
theorem ext_fileOf {s s' : ObjectStore H} (h : ∀ x, s.fileOf x = s'.fileOf x) : s = s' :=
  Finmap.ext_lookup h

omit [Format H] in
theorem fileOf_damage (bytes : Bytes) :
    (s.damage h' bytes).fileOf h = if h = h' then some bytes else s.fileOf h := by
  rw [fileOf, damage]
  split_ifs with hh
  · rw [hh, Finmap.lookup_insert]
  · exact Finmap.lookup_insert_of_ne _ hh

end ObjectStore

/-! ## Directories -/

/-- The files of a directory. -/
abbrev FileList := AList fun _ : String => Bytes

/-- The directories of an object store, with the files in them. -/
abbrev ObjectDir := AList fun _ : String => FileList

namespace ObjectDir

variable (d : ObjectDir)

/-- What is in a file. -/
def contents (dir name : String) : Option Bytes := (d.lookup dir).bind fun files => files.lookup name

/-- What the directories list. -/
def listing : Shards := fun dir => (d.lookup dir).map AList.keys

/-! ## Steps -/

/-- Make a directory, if it is not there. -/
def createDirAll (dir : String) : ObjectDir := if dir ∈ d then d else d.insert dir ∅

/-- Work on the files of a directory. -/
def inDir (dir : String) (f : FileList → FileList) : ObjectDir :=
  match d.lookup dir with
  | none => d
  | some files => d.insert dir (f files)

/-- Create a file, or empty the one that is there, and write to it. -/
def writeFile (dir name : String) (bytes : Bytes) : ObjectDir := d.inDir dir (AList.insert name bytes)

/-- Give a file another name, in place of a file of that name. -/
def rename (dir old new : String) : ObjectDir :=
  d.inDir dir fun files =>
    match files.lookup old with
    | none => files
    | some bytes => (files.erase old).insert new bytes

/-- Remove a file, if it is there. -/
def removeFile (dir name : String) : ObjectDir := d.inDir dir (AList.erase name)

/-! ## Operations -/

/-- How far a put has got when it is cut short: its directory is there, or some bytes are in its
temporary file. -/
inductive Stage where
  | dir
  | tmp (written : Nat)
deriving DecidableEq, Repr

/-- The object file exists. -/
def has (h : Hash) : Bool := (d.contents h.fanout h.rest).isSome

section Objects

variable [LinearOrder Hash] [Format Hash]

/-- A put that is cut short. -/
def putUntil (stage : Stage) (obj : RawObject) : ObjectDir :=
  let h := obj.hash Hash
  if d.has h then d
  else match stage with
    | .dir => d.createDirAll h.fanout
    | .tmp written =>
      (d.createDirAll h.fanout).writeFile h.fanout (Shards.tmpName h) ((frame obj).take written)

/-- Put an object. -/
def put (obj : RawObject) : Hash × ObjectDir :=
  let h := obj.hash Hash
  if d.has h then (h, d)
  else
    let written := (d.createDirAll h.fanout).writeFile h.fanout (Shards.tmpName h) (frame obj)
    (h, written.rename h.fanout (Shards.tmpName h) h.rest)

/-- Read an object, checking it against its hash. -/
def get (h : Hash) : Except Error RawObject :=
  match d.contents h.fanout h.rest with
  | none => .error (.notFound h.toHex)
  | some bytes => readObjectFile h bytes

end Objects

/-- Remove an object, if it is there. -/
def remove (h : Hash) : ObjectDir := d.removeFile h.fanout h.rest

/-- Files and directories with such a name are skipped. -/
def isSkipped (name : String) (length : Nat) : Bool :=
  ".".toList.isPrefixOf name.toList || (Utf8.encode name).length ≠ length

/-- The object that a file is of, and the size of the file. -/
def fileEntry (shard : String) (file : Σ _ : String, Bytes) : Option (Hash × Nat) :=
  if isSkipped file.1 62 then none
  else match Hash.fromHex (shard ++ file.1) with
    | .ok h => some (h, file.2.length)
    | .error _ => none

/-- All objects, with the sizes of their files. -/
def iterAll : List (Hash × Nat) :=
  d.entries.flatMap fun shard =>
    if isSkipped shard.1 2 then [] else shard.2.entries.filterMap (fileEntry shard.1)

/-- Remove the objects that are not marked, unless this is only to see what would go. All files are
listed before the first one is removed. -/
def sweep (roots : Nat) (marked : Hash → Bool) (dryRun : Bool) : GcSummary × ObjectDir :=
  let toRemove := d.iterAll.filter fun p => !marked p.1
  (⟨roots, (d.iterAll.filter fun p => marked p.1).length, toRemove.length,
    (toRemove.map Prod.snd).sum, dryRun⟩,
    if dryRun then d else toRemove.foldl (fun d p => d.remove p.1) d)

/-- The same files, listed in another order. -/
def Relisted (d d' : ObjectDir) : Prop :=
  ∀ dir, Option.Rel (fun files files' : FileList => files.entries.Perm files'.entries) (d.lookup dir)
    (d'.lookup dir)

end ObjectDir

/-- The directories that operations lead to, one at a time, and the objects that are then stored. -/
inductive DirRun [LinearOrder Hash] [Format Hash] : ObjectDir → ObjectStore Hash → Prop
  | empty : DirRun ∅ ∅
  | put {d : ObjectDir} {s : ObjectStore Hash} (h : DirRun d s) (obj : RawObject) :
      DirRun (d.put obj).2 (s.put obj)
  | putUntil {d : ObjectDir} {s : ObjectStore Hash} (h : DirRun d s) (stage : ObjectDir.Stage)
      (obj : RawObject) : DirRun (d.putUntil stage obj) s
  | remove {d : ObjectDir} {s : ObjectStore Hash} (h : DirRun d s) (x : Hash) :
      DirRun (d.remove x) (s.remove x)
  | damage {d : ObjectDir} {s : ObjectStore Hash} (h : DirRun d s) (x : Hash) (hx : d.has x = true)
      (bytes : Bytes) : DirRun (d.writeFile x.fanout x.rest bytes) (s.damage x bytes)
  | relist {d d' : ObjectDir} {s : ObjectStore Hash} (h : DirRun d s) (hsame : d.Relisted d') :
      DirRun d' s

end Tig
