import Tig.Guarantees.Encodings
import Tig.Guarantees.Prefixes
import Tig.Store.ObjectDir

set_option relaxedAutoImplicit false
set_option autoImplicit false

/-!
# Object files stand for a finite map

Whatever is put, cut short, removed or damaged, and in whichever order the directories list their files:
the files of an object store hold a finite map from hashes to bytes, and each operation on the files does
what the operation on the map does. Temporary files that were left behind show nowhere.

## Main definitions

* `Tig.ObjectDir.Represents` — the files stand for a map.

## Main results

* `Tig.objectDir_refines` — **the files refine the map**: reading, listing and lookup by prefix.
* `Tig.collectGarbage_sweeps` — **a collection does to the files** what it does to the map.
-/

namespace Tig

open Program

/-! ## Names -/

namespace Hash

/-- The two parts of its form determine a hash. -/
theorem ext_parts {h h' : Hash} (hfanout : h.fanout = h'.fanout) (hrest : h.rest = h'.rest) :
    h = h' :=
  toHex_injective (by rw [h.toHex_eq, h'.toHex_eq, hfanout, hrest])

/-- A temporary file is not named like an object. -/
theorem tmpName_ne_rest (h h' : Hash) : Shards.tmpName h ≠ h'.rest := fun heq => by
  have hdot := not_isPrefixOf_dot (isHexDigit_rest h')
  rw [← heq, isPrefixOf_tmpName] at hdot
  cases hdot

theorem length_rest (h : Hash) : h.rest.toList.length = 62 := by
  rw [rest, length_toList_hexEncode, List.length_drop, h.length_bytes]

end Hash

namespace ObjectDir

/-- The file of an object is not skipped. -/
theorem isSkipped_rest (h : Hash) : isSkipped h.rest 62 = false := by
  have hascii : ∀ c ∈ h.rest.toList, c.toNat < 128 := fun c hc => (isHexDigit_rest h c hc).toNat_lt
  rw [isSkipped, not_isPrefixOf_dot (isHexDigit_rest h), length_encode_ascii hascii, h.length_rest]
  rfl

theorem isSkipped_fanout (h : Hash) : isSkipped h.fanout 2 = false := by
  have hdigits : ∀ c ∈ h.fanout.toList, IsHexDigit c := fun c hc => isHexDigit_of_mem hc
  have hascii : ∀ c ∈ h.fanout.toList, c.toNat < 128 := fun c hc => (hdigits c hc).toNat_lt
  rw [isSkipped, not_isPrefixOf_dot hdigits, length_encode_ascii hascii, h.length_fanout]
  rfl

/-- A temporary file is skipped. -/
theorem isSkipped_tmpName (h : Hash) (n : Nat) : isSkipped (Shards.tmpName h) n = true := by
  rw [isSkipped, isPrefixOf_tmpName, Bool.true_or]

/-! ## What the steps do to the files -/

variable {d : ObjectDir} {dir dir' name name' : String}

theorem contents_inDir (f : FileList → FileList) :
    (d.inDir dir f).contents dir' name =
      if dir' = dir then (d.lookup dir).bind fun files => (f files).lookup name
      else d.contents dir' name := by
  rw [inDir]
  cases hd : d.lookup dir with
  | none =>
    dsimp only
    split_ifs with h
    · rw [contents, h, hd]
      rfl
    · rfl
  | some files =>
    dsimp only
    rw [contents]
    split_ifs with h
    · rw [h, AList.lookup_insert]
      rfl
    · rw [AList.lookup_insert_ne h]
      rfl

theorem contents_createDirAll : (d.createDirAll dir).contents dir' name = d.contents dir' name := by
  rw [createDirAll]
  split_ifs with h
  · rfl
  · rw [contents, contents]
    by_cases hd : dir' = dir
    · subst hd
      rw [AList.lookup_insert, AList.lookup_eq_none.mpr h]
      rfl
    · rw [AList.lookup_insert_ne hd]

theorem mem_createDirAll : dir ∈ d.createDirAll dir := by
  rw [createDirAll]
  split_ifs with h
  · exact h
  · exact (AList.mem_insert d).mpr (Or.inl rfl)

theorem contents_writeFile (hdir : dir ∈ d) (bytes : Bytes) :
    (d.writeFile dir name bytes).contents dir' name' =
      if dir' = dir ∧ name' = name then some bytes else d.contents dir' name' := by
  obtain ⟨files, hfiles⟩ := Option.isSome_iff_exists.mp (AList.lookup_isSome.mpr hdir)
  rw [writeFile, contents_inDir, hfiles, Option.bind_some]
  by_cases hd : dir' = dir
  · subst hd
    by_cases hn : name' = name
    · subst hn
      rw [if_pos rfl, if_pos ⟨rfl, rfl⟩, AList.lookup_insert]
    · rw [if_pos rfl, if_neg fun h => hn h.2, AList.lookup_insert_ne hn, contents, hfiles,
        Option.bind_some]
  · rw [if_neg hd, if_neg fun h => hd h.1]

theorem contents_removeFile :
    (d.removeFile dir name).contents dir' name' =
      if dir' = dir ∧ name' = name then none else d.contents dir' name' := by
  rw [removeFile, contents_inDir]
  by_cases hd : dir' = dir
  · subst hd
    rw [if_pos rfl, contents]
    by_cases hn : name' = name
    · subst hn
      rw [if_pos ⟨rfl, rfl⟩]
      cases d.lookup dir' with
      | none => rfl
      | some files => exact AList.lookup_erase _ _
    · rw [if_neg fun h => hn h.2]
      cases d.lookup dir' with
      | none => rfl
      | some files => exact AList.lookup_erase_ne hn
  · rw [if_neg hd, if_neg fun h => hd h.1]

/-- Renaming a file that is there. -/
theorem contents_rename {old new : String} {bytes : Bytes} (hold : d.contents dir old = some bytes) :
    (d.rename dir old new).contents dir' name' =
      if dir' = dir ∧ name' = new then some bytes
      else if dir' = dir ∧ name' = old then none else d.contents dir' name' := by
  obtain ⟨files, hfiles, hbytes⟩ := Option.bind_eq_some_iff.mp hold
  rw [rename, contents_inDir, hfiles, Option.bind_some, hbytes]
  by_cases hd : dir' = dir
  · subst hd
    by_cases hn : name' = new
    · subst hn
      rw [if_pos rfl, if_pos ⟨rfl, rfl⟩]
      exact AList.lookup_insert _
    · rw [if_pos rfl, if_neg fun h => hn h.2]
      dsimp only
      rw [AList.lookup_insert_ne hn]
      by_cases ho : name' = old
      · subst ho
        rw [if_pos ⟨rfl, rfl⟩, AList.lookup_erase]
      · rw [if_neg fun h => ho h.2, AList.lookup_erase_ne ho, contents, hfiles, Option.bind_some]
  · rw [if_neg hd, if_neg fun h => hd h.1, if_neg fun h => hd h.1]

theorem has_iff {h : Hash} : d.has h = true ↔ ∃ bytes, d.contents h.fanout h.rest = some bytes :=
  Option.isSome_iff_exists

/-- What is in a file that is there is in the file that the directory lists. -/
theorem contents_eq_some {bytes : Bytes} : d.contents dir name = some bytes ↔
    ∃ files, ⟨dir, files⟩ ∈ d.entries ∧ ⟨name, bytes⟩ ∈ files.entries := by
  rw [contents, Option.bind_eq_some_iff]
  refine exists_congr fun files => and_congr ?_ ?_
  · exact AList.mem_lookup_iff
  · exact AList.mem_lookup_iff

/-- Listing the files in another order does not change what is in them. -/
theorem Relisted.contents_eq {d' : ObjectDir} (h : d.Relisted d') :
    d'.contents dir name = d.contents dir name := by
  have hdir := h dir
  rw [contents, contents]
  cases hd : d.lookup dir with
  | none =>
    rw [hd] at hdir
    cases hd' : d'.lookup dir with
    | none => rfl
    | some files' => rw [hd'] at hdir; cases hdir
  | some files =>
    rw [hd] at hdir
    cases hd' : d'.lookup dir with
    | none => rw [hd'] at hdir; cases hdir
    | some files' =>
      rw [hd'] at hdir
      cases hdir with
      | some hperm => exact (AList.perm_lookup hperm).symm

section Objects

variable [LinearOrder Hash] [Format Hash] {s : ObjectStore Hash} {obj : RawObject}

/-! ## What the operations do to the files -/

omit [LinearOrder Hash] in
/-- A put of an object that is not there makes its file and nothing else. -/
theorem contents_put (hhas : d.has (obj.hash Hash) = false) :
    (d.put obj).2.contents dir name =
      if dir = (obj.hash Hash).fanout ∧ name = (obj.hash Hash).rest then some (frame obj)
      else if dir = (obj.hash Hash).fanout ∧ name = Shards.tmpName (obj.hash Hash) then none
      else d.contents dir name := by
  have hput : (d.put obj).2 = ((d.createDirAll (obj.hash Hash).fanout).writeFile
      (obj.hash Hash).fanout (Shards.tmpName (obj.hash Hash)) (frame obj)).rename
      (obj.hash Hash).fanout (Shards.tmpName (obj.hash Hash)) (obj.hash Hash).rest := by
    simp only [put, hhas, Bool.false_eq_true, if_false]
  have hold : ((d.createDirAll (obj.hash Hash).fanout).writeFile (obj.hash Hash).fanout
      (Shards.tmpName (obj.hash Hash)) (frame obj)).contents (obj.hash Hash).fanout
      (Shards.tmpName (obj.hash Hash)) = some (frame obj) := by
    rw [contents_writeFile mem_createDirAll, if_pos ⟨rfl, rfl⟩]
  rw [hput, contents_rename hold, contents_writeFile mem_createDirAll, contents_createDirAll]
  split_ifs <;> rfl

omit [LinearOrder Hash] in
/-- A put that is cut short leaves a temporary file at most. -/
theorem contents_putUntil (stage : Stage) :
    (d.putUntil stage obj).contents dir name = d.contents dir name ∨
      name = Shards.tmpName (obj.hash Hash) := by
  unfold putUntil
  dsimp only
  split_ifs with hhas
  · exact Or.inl rfl
  · cases stage with
    | dir => exact Or.inl contents_createDirAll
    | tmp written =>
      dsimp only
      rw [contents_writeFile mem_createDirAll, contents_createDirAll]
      split_ifs with h
      · exact Or.inr h.2
      · exact Or.inl rfl

/-! ## Files that stand for a map -/

/-- The files stand for a map: the file of an object has what the map has for it, and there are no
other files than those of objects and temporary ones. -/
structure Represents (d : ObjectDir) (s : ObjectStore Hash) : Prop where
  contents : ∀ h : Hash, d.contents h.fanout h.rest = s.fileOf h
  named : ∀ dir name, (d.contents dir name).isSome = true → Shards.NameIn dir name

omit [Format Hash] in
theorem represents_empty : Represents ∅ (∅ : ObjectStore Hash) where
  contents _ := rfl
  named _ _ h := by cases h

omit [Format Hash] in
theorem Represents.has_iff (hd : d.Represents s) {h : Hash} : d.has h = true ↔ h ∈ s := by
  rw [has, hd.contents, ObjectStore.isSome_fileOf]

/-- A put on the files is the put on the map. -/
theorem Represents.put (hd : d.Represents s) (obj : RawObject) :
    (d.put obj).2.Represents (s.put obj) := by
  by_cases hhas : d.has (obj.hash Hash) = true
  · have hfiles : (d.put obj).2 = d := by rw [ObjectDir.put, if_pos hhas]
    rw [hfiles, ObjectStore.put, if_pos (hd.has_iff.mp hhas)]
    exact hd
  · have hnew : obj.hash Hash ∉ s := fun hmem => hhas (hd.has_iff.mpr hmem)
    rw [Bool.not_eq_true] at hhas
    refine ⟨fun h => ?_, fun dir name hsome => ?_⟩
    · rw [contents_put hhas, ObjectStore.fileOf_put]
      by_cases hh : h = obj.hash Hash
      · rw [hh, if_pos ⟨rfl, rfl⟩, if_pos ⟨rfl, hnew⟩]
      · rw [if_neg fun heq => hh (Hash.ext_parts heq.1 heq.2),
          if_neg fun heq => Hash.tmpName_ne_rest _ _ heq.2.symm, if_neg fun heq => hh heq.1]
        exact hd.contents h
    · rw [contents_put hhas] at hsome
      split_ifs at hsome with hfile htmp
      · obtain ⟨rfl, rfl⟩ := hfile
        exact Or.inl ⟨_, rfl, rfl⟩
      · cases hsome
      · exact hd.named dir name hsome

/-- A put that is cut short does not show. -/
theorem Represents.putUntil (hd : d.Represents s) (stage : Stage) (obj : RawObject) :
    (d.putUntil stage obj).Represents s := by
  refine ⟨fun h => ?_, fun dir name hsome => ?_⟩
  · rw [(contents_putUntil stage).resolve_right fun heq => Hash.tmpName_ne_rest _ _ heq.symm]
    exact hd.contents h
  · rcases contents_putUntil stage with hsame | htmp
    · exact hd.named dir name (hsame ▸ hsome)
    · exact Or.inr ⟨_, htmp.symm⟩

omit [Format Hash] in
/-- A removal on the files is the removal on the map. -/
theorem Represents.remove (hd : d.Represents s) (x : Hash) :
    (d.remove x).Represents (s.remove x) := by
  refine ⟨fun h => ?_, fun dir name hsome => ?_⟩
  · rw [ObjectDir.remove, contents_removeFile, ObjectStore.fileOf_remove]
    by_cases hh : h = x
    · rw [hh, if_pos ⟨rfl, rfl⟩, if_pos rfl]
    · rw [if_neg fun heq => hh (Hash.ext_parts heq.1 heq.2), if_neg hh]
      exact hd.contents h
  · rw [ObjectDir.remove, contents_removeFile] at hsome
    split_ifs at hsome
    · cases hsome
    · exact hd.named dir name hsome

omit [Format Hash] in
/-- Damage to a file is damage to the map. -/
theorem Represents.damage (hd : d.Represents s) {x : Hash} (hx : d.has x = true) (bytes : Bytes) :
    (d.writeFile x.fanout x.rest bytes).Represents (s.damage x bytes) := by
  have hdir : x.fanout ∈ d := by
    obtain ⟨old, hold⟩ := ObjectDir.has_iff.mp hx
    obtain ⟨files, hfiles, -⟩ := contents_eq_some.mp hold
    exact AList.mem_keys.mpr (List.mem_map_of_mem hfiles)
  refine ⟨fun h => ?_, fun dir name hsome => ?_⟩
  · rw [contents_writeFile hdir, ObjectStore.fileOf_damage]
    by_cases hh : h = x
    · rw [hh, if_pos ⟨rfl, rfl⟩, if_pos rfl]
    · rw [if_neg fun heq => hh (Hash.ext_parts heq.1 heq.2), if_neg hh]
      exact hd.contents h
  · rw [contents_writeFile hdir] at hsome
    split_ifs at hsome with hfile
    · obtain ⟨rfl, rfl⟩ := hfile
      exact Or.inl ⟨x, rfl, rfl⟩
    · exact hd.named dir name hsome

omit [Format Hash] in
/-- The order of the listings does not show. -/
theorem Represents.relist (hd : d.Represents s) {d' : ObjectDir} (hsame : d.Relisted d') :
    d'.Represents s where
  contents h := hsame.contents_eq.trans (hd.contents h)
  named dir name hsome := hd.named dir name (hsame.contents_eq ▸ hsome)

/-! ## Listing -/

omit [LinearOrder Hash] [Format Hash] in
/-- Of the names that a directory may list, only those of its objects stand for an object. -/
theorem fileEntry_eq_some {shard : String} {file : Σ _ : String, Bytes}
    (hname : Shards.NameIn shard file.1) {p : Hash × Nat} :
    fileEntry shard file = some p ↔
      p.1.fanout = shard ∧ p.1.rest = file.1 ∧ p.2 = file.2.length := by
  obtain ⟨name, bytes⟩ := file
  obtain ⟨x, n⟩ := p
  rcases hname with ⟨h, rfl, rfl⟩ | ⟨h, rfl⟩
  · rw [fileEntry, isSkipped_rest, ← h.toHex_eq, Hash.fromHex_toHex]
    simp only [Bool.false_eq_true, if_false, Option.some.injEq, Prod.mk.injEq]
    constructor
    · rintro ⟨rfl, rfl⟩
      exact ⟨rfl, rfl, rfl⟩
    · rintro ⟨hfanout, hrest, rfl⟩
      exact ⟨(Hash.ext_parts hfanout hrest).symm, rfl⟩
  · rw [fileEntry, isSkipped_tmpName, if_pos rfl]
    refine iff_of_false nofun fun hfile => ?_
    exact Hash.tmpName_ne_rest h x hfile.2.1.symm

omit [Format Hash] in
/-- The files of a directory that are of objects. -/
theorem mem_fileEntries (hd : d.Represents s) {shard : String} {files : FileList}
    (hfiles : ⟨shard, files⟩ ∈ d.entries) {p : Hash × Nat} :
    p ∈ files.entries.filterMap (fileEntry shard) ↔
      p.1.fanout = shard ∧ ∃ bytes, ⟨p.1.rest, bytes⟩ ∈ files.entries ∧ p.2 = bytes.length := by
  rw [List.mem_filterMap]
  constructor
  · rintro ⟨⟨name, bytes⟩, hmem, hfile⟩
    have hname := hd.named shard name (Option.isSome_iff_exists.mpr
      ⟨bytes, contents_eq_some.mpr ⟨files, hfiles, hmem⟩⟩)
    obtain ⟨hfanout, hrest, hlen⟩ := (fileEntry_eq_some hname).mp hfile
    exact ⟨hfanout, bytes, hrest ▸ hmem, hlen⟩
  · rintro ⟨hfanout, bytes, hmem, hlen⟩
    exact ⟨⟨p.1.rest, bytes⟩, hmem,
      (fileEntry_eq_some (Or.inl ⟨p.1, hfanout, rfl⟩)).mpr ⟨hfanout, rfl, hlen⟩⟩

omit [Format Hash] in
/-- What a listing of all objects has. -/
theorem Represents.mem_iterAll (hd : d.Represents s) {p : Hash × Nat} :
    p ∈ d.iterAll ↔ ∃ bytes, s.fileOf p.1 = some bytes ∧ p.2 = bytes.length := by
  rw [iterAll, List.mem_flatMap, ← hd.contents]
  constructor
  · rintro ⟨⟨shard, files⟩, hfiles, hp⟩
    split_ifs at hp
    · cases hp
    · obtain ⟨rfl, bytes, hmem, hlen⟩ := (mem_fileEntries hd hfiles).mp hp
      exact ⟨bytes, contents_eq_some.mpr ⟨files, hfiles, hmem⟩, hlen⟩
  · rintro ⟨bytes, hbytes, hlen⟩
    obtain ⟨files, hfiles, hmem⟩ := contents_eq_some.mp hbytes
    refine ⟨⟨p.1.fanout, files⟩, hfiles, ?_⟩
    rw [isSkipped_fanout, if_neg Bool.false_ne_true]
    exact (mem_fileEntries hd hfiles).mpr ⟨rfl, bytes, hmem, hlen⟩

omit [Format Hash] in
/-- A listing of all objects has each of them once. -/
theorem Represents.nodup_iterAll (hd : d.Represents s) :
    (d.iterAll.map Prod.fst).Nodup := by
  have hshard : ∀ shard ∈ d.entries, ∀ p : Hash × Nat,
      (p ∈ if isSkipped shard.1 2 then [] else shard.2.entries.filterMap (fileEntry shard.1)) →
      p.1.fanout = shard.1 := by
    rintro ⟨shard, files⟩ hfiles p hp
    split_ifs at hp
    · cases hp
    · exact ((mem_fileEntries hd hfiles).mp hp).1
  rw [List.Nodup, List.pairwise_map, iterAll, List.pairwise_flatMap]
  refine ⟨fun shard hshard' => ?_, ?_⟩
  · -- in one directory the names differ
    split_ifs
    · exact List.Pairwise.nil
    · refine List.Pairwise.filterMap (fileEntry shard.1) (R := fun file file' =>
        file.1 ≠ file'.1 ∧ Shards.NameIn shard.1 file.1 ∧ Shards.NameIn shard.1 file'.1) ?_ ?_
      · rintro file file' ⟨hne, hname, hname'⟩ p hp q hq heq
        refine hne ?_
        rw [← ((fileEntry_eq_some hname).mp hp).2.1, ← ((fileEntry_eq_some hname').mp hq).2.1, heq]
      · have hnodup : shard.2.entries.Pairwise fun file file' => file.1 ≠ file'.1 :=
          List.nodupKeys_iff_pairwise.mp shard.2.nodupKeys
        refine hnodup.imp_of_mem fun hmem hmem' hne => ⟨hne, ?_, ?_⟩
        · exact hd.named _ _ (Option.isSome_iff_exists.mpr
            ⟨_, contents_eq_some.mpr ⟨_, hshard', hmem⟩⟩)
        · exact hd.named _ _ (Option.isSome_iff_exists.mpr
            ⟨_, contents_eq_some.mpr ⟨_, hshard', hmem'⟩⟩)
  · -- in different directories the first two digits differ
    have hnodup : d.entries.Pairwise fun shard shard' => shard.1 ≠ shard'.1 :=
      List.nodupKeys_iff_pairwise.mp d.nodupKeys
    refine hnodup.imp_of_mem fun hmem hmem' hne p hp q hq heq => hne ?_
    rw [← hshard _ hmem p hp, ← hshard _ hmem' q hq, heq]

omit [Format Hash] in
/-- **A listing has the objects of the map**, with the sizes of their files, in some order. -/
theorem Represents.iterAll_perm (hd : d.Represents s) :
    d.iterAll.Perm
      ((FiniteMap.sortedKeys s).map fun h => (h, ((s.fileOf h).getD []).length)) := by
  have hnodup : d.iterAll.Nodup := hd.nodup_iterAll.of_map _
  have hnodup' : ((FiniteMap.sortedKeys s).map fun h =>
      (h, ((s.fileOf h).getD []).length)).Nodup :=
    (FiniteMap.nodup_sortedKeys s).map fun _ _ heq => congrArg Prod.fst heq
  refine (List.perm_ext_iff_of_nodup hnodup hnodup').mpr fun p => ?_
  rw [hd.mem_iterAll, List.mem_map]
  constructor
  · rintro ⟨bytes, hbytes, hlen⟩
    refine ⟨p.1, FiniteMap.mem_sortedKeys.mpr (ObjectStore.isSome_fileOf.mp ?_), ?_⟩
    · rw [hbytes]
      rfl
    · rw [hbytes, Option.getD_some, ← hlen]
  · rintro ⟨h, hmem, rfl⟩
    obtain ⟨bytes, hbytes⟩ := Option.isSome_iff_exists.mp
      (ObjectStore.isSome_fileOf.mpr (FiniteMap.mem_sortedKeys.mp hmem))
    exact ⟨bytes, hbytes, by rw [hbytes, Option.getD_some]⟩

/-! ## Lookup by prefix -/

omit [LinearOrder Hash] [Format Hash] in
theorem objectExists_listing {h : Hash} : d.listing.objectExists h = d.has h := by
  rw [Shards.objectExists, listing, has, contents]
  cases d.lookup h.fanout with
  | none => rfl
  | some files =>
    simp only [Option.map_some, Option.bind_some]
    rw [Bool.eq_iff_iff, decide_eq_true_iff, AList.lookup_isSome, AList.mem_keys]

omit [Format Hash] in
theorem Represents.listed (hd : d.Represents s) : d.listing.Listed := by
  intro dir names hdir
  obtain ⟨files, hfiles, rfl⟩ := Option.map_eq_some_iff.mp hdir
  refine ⟨files.keys_nodup, fun name hname => hd.named dir name ?_⟩
  rw [ObjectDir.contents, hfiles, Option.bind_some, AList.lookup_isSome]
  exact hname

omit [Format Hash] in
theorem Represents.matches_iff (hd : d.Represents s) {digits : String} {h : Hash} :
    Matches d.listing digits h ↔ h ∈ s ∧ digits.toList <+: h.toHex.toList := by
  rw [Matches, objectExists_listing, hd.has_iff]

/-! ## Reading -/

theorem Represents.get_eq (hd : d.Represents s) (hhex : ∀ h : Hash, HashFn.toHex h = h.toHex)
    (h : Hash) : d.get h = s.get h := by
  rw [ObjectDir.get, hd.contents]
  cases hfile : s.fileOf h with
  | none =>
    dsimp only
    rw [ObjectStore.get_of_fileOf_eq_none hfile, hhex]
  | some bytes => exact (ObjectStore.get_eq_readObjectFile hfile).symm

end Objects

end ObjectDir

/-- Whatever was put, cut short, removed or damaged: the files stand for a map. -/
theorem DirRun.represents [LinearOrder Hash] [Format Hash] {d : ObjectDir} {s : ObjectStore Hash}
    (h : DirRun d s) : d.Represents s := by
  induction h with
  | empty => exact ObjectDir.represents_empty
  | put _ obj ih => exact ih.put obj
  | putUntil _ stage obj ih => exact ih.putUntil stage obj
  | remove _ x ih => exact ih.remove x
  | damage _ x hx bytes ih => exact ih.damage hx bytes
  | relist _ hsame ih => exact ih.relist hsame

/-! ## Refinement -/

section Refinement

variable [LinearOrder Hash] [Format Hash]

/-- **The files refine the map.** Whatever was put, cut short, removed or damaged, and in whichever
order the directories list their files: an object reads as it does in the map, with the same error; it
is there exactly if the map has it; a listing gives every object of the map once, with the size of its
file, and nothing else; and the first digits of a hash, four at least, find an object exactly if it is
the only one of the map that they fit. -/
theorem objectDir_refines (hhex : ∀ h : Hash, HashFn.toHex h = h.toHex) {d : ObjectDir}
    {s : ObjectStore Hash} (hd : DirRun d s) :
    (∀ h, d.get h = s.get h) ∧ (∀ h, d.has h = true ↔ h ∈ s) ∧
    d.iterAll.Perm
      ((FiniteMap.sortedKeys s).map fun h => (h, ((s.fileOf h).getD []).length)) ∧
    ∀ digits : String, (∀ c ∈ digits.toList, IsHexDigit c) → 4 ≤ digits.toList.length → ∀ h,
      resolveDigits d.listing digits = .ok h ↔
        (h ∈ s ∧ digits.toList <+: h.toHex.toList) ∧
          ∀ h' ∈ s, digits.toList <+: h'.toHex.toList → h' = h := by
  have hrep := hd.represents
  refine ⟨hrep.get_eq hhex, fun h => hrep.has_iff, hrep.iterAll_perm, fun digits hdigits hlen h => ?_⟩
  rw [(resolveDigits_spec hrep.listed hdigits hlen).1]
  simp only [hrep.matches_iff, and_imp]

end Refinement

/-- The empty blob, as it is stored. -/
def emptyBlobObject : RawObject := ⟨.blob, [0xa1, 0x65, 0x62, 0x79, 0x74, 0x65, 0x73, 0x40]⟩

/-- A put that is cut short leaves a temporary file, the next one succeeds: the prefix of the hash
finds the object. -/
theorem objectDir_refines_secondPut :
    letI := cborFormat ciborium fun _ => emptyBlobHash
    resolveDigits
      (((∅ : ObjectDir).putUntil (.tmp 3) emptyBlobObject).put emptyBlobObject).2.listing "542b" =
        .ok emptyBlobHash := by
  let _ := cborFormat ciborium fun _ => emptyBlobHash
  have hlist : "542b".toList = ['5', '4', '2', 'b'] := rfl
  refine ((objectDir_refines (fun _ => rfl)
    ((DirRun.empty.putUntil (.tmp 3) emptyBlobObject).put emptyBlobObject)).2.2.2 "542b" ?_ ?_
    emptyBlobHash).mpr ⟨⟨ObjectStore.mem_put.mpr (Or.inl rfl), ?_⟩, fun h' hmem _ => ?_⟩
  · rw [hlist]
    intro c hc
    simp only [List.mem_cons, List.not_mem_nil, or_false] at hc
    rcases hc with rfl | rfl | rfl | rfl
    exacts [⟨5, by decide, rfl⟩, ⟨4, by decide, rfl⟩, ⟨2, by decide, rfl⟩, ⟨11, by decide, rfl⟩]
  · rw [hlist]
    exact Nat.le_refl 4
  · rw [hlist, Hash.toHex, hexEncode, String.toList_ofList]
    exact ⟨_, rfl⟩
  · exact (ObjectStore.mem_put.mp hmem).resolve_right fun h => absurd h Finmap.notMem_empty

/-! ## Collection -/

section Collection

variable {H : Type} [LinearOrder H] [Format H] {w : World H}

/-- What a collection that succeeds counts and removes. -/
def Swept (opts : GcOptions) (w : World H) (summary : GcSummary) (w' : World H) : Prop :=
  ∃ (roots : Finset H) (marked : H → Bool), (∀ h, h ∈ roots ↔ IsRoot opts w.repo h) ∧
    (∀ h, marked h = true ↔ Kept opts w.repo h) ∧
    summary = ⟨roots.card, ((FiniteMap.sortedKeys w.repo.objects).filter marked).length,
      ((FiniteMap.sortedKeys w.repo.objects).filter fun h => !marked h).length,
      (((FiniteMap.sortedKeys w.repo.objects).filter fun h => !marked h).map fun h =>
        ((w.repo.objects.fileOf h).getD []).length).sum, opts.dryRun⟩ ∧
    ∀ h, w'.repo.objects.fileOf h =
      if opts.dryRun = false ∧ marked h = false then none else w.repo.objects.fileOf h

theorem collectGarbage_swept (opts : GcOptions) :
    Post (collectGarbage opts) w (Swept opts w) fun _ _ => True := by
  rw [collectGarbage, post_bind]
  refine (gcRoots_spec opts).mono (fun roots w₁ h₁ => ?_) fun _ _ _ => trivial
  obtain ⟨-, hr₁, hroots⟩ := h₁
  rw [post_bind]
  refine step_spec (by simp [FsStep.Mutates]) (fun w₂ _ hr₂ => ?_) fun _ _ _ _ _ => trivial
  have hr : w₂.repo = w.repo := hr₂.trans hr₁
  rw [post_bind, post_get, post_bind, post_fromExcept, hr]
  refine ⟨fun marked hmark => ?_, fun _ _ => trivial⟩
  have hkept : ∀ h, h ∈ marked ↔ Kept opts w.repo h := by
    intro h
    rw [Marking.Graph.mem_mark hmark]
    simp only [FiniteMap.mem_sorted, Finset.mem_val, hroots]
    rfl
  have hswept : ∀ w' : World H, (∀ h, w'.repo.objects.fileOf h =
      if opts.dryRun = false ∧ decide (h ∈ marked) = false then none
      else w.repo.objects.fileOf h) → Swept opts w
        ⟨roots.card, ((FiniteMap.sortedKeys w.repo.objects).filter fun h => h ∈ marked).length,
          ((FiniteMap.sortedKeys w.repo.objects).filter fun h => h ∉ marked).length,
          (((FiniteMap.sortedKeys w.repo.objects).filter fun h => h ∉ marked).map fun h =>
            ((w.repo.objects.lookup h).getD []).length).sum, opts.dryRun⟩ w' := by
    intro w' hfiles
    refine ⟨roots, fun h => decide (h ∈ marked), hroots,
      fun h => decide_eq_true_iff.trans (hkept h), ?_, hfiles⟩
    simp only [decide_not]
    rfl
  by_cases hdry : opts.dryRun = true
  · simp only [hdry, Bool.not_true, Bool.false_eq_true, if_false, bind_pure_comp]
    refine hdry ▸ hswept w₂ fun h => ?_
    rw [hr, if_neg fun hc => ?_]
    rw [hdry] at hc
    cases hc.1
  · rw [Bool.not_eq_true] at hdry
    simp only [hdry, Bool.not_false, if_true, post_bind]
    refine (removeObjects_spec _).mono (fun _ w₃ h₃ => ?_) fun _ _ _ => trivial
    refine hdry ▸ hswept w₃ fun h => ?_
    rw [ObjectStore.fileOf, h₃.2 h, hr, ObjectStore.fileOf]
    by_cases hm : h ∈ marked
    · simp [hm]
    · by_cases hs : h ∈ w.repo.objects
      · simp [hm, hs, hdry]
      · rw [Finmap.lookup_eq_none.mpr hs, ite_self, ite_self]

end Collection

namespace ObjectDir

variable [LinearOrder Hash] [Format Hash] {d : ObjectDir} {s : ObjectStore Hash}

/-- Removing files one after the other. -/
theorem dirRun_foldl_remove (hd : DirRun d s) (l : List (Hash × Nat)) :
    DirRun (l.foldl (fun d p => d.remove p.1) d) (l.foldl (fun s p => s.remove p.1) s) := by
  induction l generalizing d s with
  | nil => exact hd
  | cons p l ih => exact ih (hd.remove p.1)

omit [Format Hash] in
/-- What a sweep counts is what the map has. -/
theorem Represents.sweep_fst (hd : d.Represents s) (roots : Nat) (marked : Hash → Bool)
    (dryRun : Bool) :
    (d.sweep roots marked dryRun).1 =
      ⟨roots, ((FiniteMap.sortedKeys s).filter marked).length,
        ((FiniteMap.sortedKeys s).filter fun h => !marked h).length,
        (((FiniteMap.sortedKeys s).filter fun h => !marked h).map fun h =>
          ((s.fileOf h).getD []).length).sum, dryRun⟩ := by
  have hfilter : ∀ keep : Hash → Bool, (d.iterAll.filter fun p => keep p.1).Perm
      (((FiniteMap.sortedKeys s).filter keep).map fun h => (h, ((s.fileOf h).getD []).length)) := by
    intro keep
    have hperm := hd.iterAll_perm.filter fun p => keep p.1
    rwa [List.filter_map] at hperm
  have hsum := ((hfilter fun h => !marked h).map Prod.snd).sum_eq
  rw [List.map_map] at hsum
  rw [sweep]
  simp only [(hfilter marked).length_eq, (hfilter fun h => !marked h).length_eq, List.length_map,
    hsum]
  rfl

omit [Format Hash] in
/-- What a sweep leaves. -/
theorem fileOf_sweep (hd : d.Represents s) (marked : Hash → Bool) (h : Hash) :
    ((d.iterAll.filter fun p => !marked p.1).foldl (fun s p => s.remove p.1) s).fileOf h =
      if marked h = false then none else s.fileOf h := by
  rw [ObjectStore.fileOf_foldl_remove]
  have hmem : h ∈ (d.iterAll.filter fun p => !marked p.1).map Prod.fst ↔
      marked h = false ∧ h ∈ s := by
    rw [List.mem_map, ← ObjectStore.isSome_fileOf, Option.isSome_iff_exists]
    constructor
    · rintro ⟨p, hp, rfl⟩
      obtain ⟨hlisted, hmarked⟩ := List.mem_filter.mp hp
      obtain ⟨bytes, hbytes, -⟩ := hd.mem_iterAll.mp hlisted
      exact ⟨by simpa using hmarked, bytes, hbytes⟩
    · rintro ⟨hmarked, bytes, hbytes⟩
      exact ⟨(h, bytes.length), List.mem_filter.mpr
        ⟨hd.mem_iterAll.mpr ⟨bytes, hbytes, rfl⟩, by rw [hmarked]; rfl⟩, rfl⟩
  by_cases hs : h ∈ s
  · simp [hmem, hs]
  · have hnone : s.fileOf h = none := by
      rwa [← Option.not_isSome_iff_eq_none, ObjectStore.isSome_fileOf]
    rw [hnone, ite_self, ite_self]

end ObjectDir

section Collection

variable [LinearOrder Hash] [Format Hash] {w w' : World Hash}

/-- **A collection does to the files what it does to the map.** For each collection that succeeds there
are roots and marks, the snapshots that changes and log name and the objects that these lead to, such
that the sweep of the files gives the same summary: as many objects kept, removed and bytes freed. The
files that it leaves are those of the map after the collection, and later operations on both agree. -/
theorem collectGarbage_sweeps {d : ObjectDir} (hd : DirRun d w.repo.objects) (opts : GcOptions)
    {summary : GcSummary} (hrun : collectGarbage opts w = .ok summary w') :
    ∃ (roots : Finset Hash) (marked : Hash → Bool), (∀ h, h ∈ roots ↔ IsRoot opts w.repo h) ∧
      (∀ h, marked h = true ↔ Kept opts w.repo h) ∧
      (d.sweep roots.card marked opts.dryRun).1 = summary ∧
      DirRun (d.sweep roots.card marked opts.dryRun).2 w'.repo.objects := by
  obtain ⟨roots, marked, hroots, hmarked, rfl, hfiles⟩ := (collectGarbage_swept opts).ok hrun
  refine ⟨roots, marked, hroots, hmarked, hd.represents.sweep_fst _ _ _, ?_⟩
  rw [ObjectDir.sweep]
  cases hdry : opts.dryRun with
  | true =>
    have hsame : w.repo.objects = w'.repo.objects :=
      ObjectStore.ext_fileOf fun h => by rw [hfiles h, hdry, if_neg fun hc => nomatch hc.1]
    exact hsame ▸ hd
  | false =>
    have hleft : (d.iterAll.filter fun p => !marked p.1).foldl (fun s p => s.remove p.1)
        w.repo.objects = w'.repo.objects :=
      ObjectStore.ext_fileOf fun h => by
        rw [hfiles h, hdry, ObjectDir.fileOf_sweep hd.represents]
        simp
    exact hleft ▸ ObjectDir.dirRun_foldl_remove hd _

end Collection

/-- A repository with a blob to which nothing leads. -/
def strayBlobWorld : World Hash :=
  letI := cborFormat ciborium fun _ => emptyBlobHash
  { (World.fresh Env.calm : World Hash) with
    repo := { Repo.empty with objects := (∅ : ObjectStore Hash).put emptyBlobObject } }

/-- It is collected, where a put that was cut short had left part of it. -/
theorem collectGarbage_sweeps_strayBlob :
    letI := cborFormat ciborium fun _ => emptyBlobHash
    ∃ summary w', collectGarbage .default strayBlobWorld = .ok summary w' ∧
      ∃ (n : Nat) (marked : Hash → Bool),
        ((((∅ : ObjectDir).putUntil (.tmp 3) emptyBlobObject).put emptyBlobObject).2.sweep n
          marked false).1 = summary ∧
        DirRun ((((∅ : ObjectDir).putUntil (.tmp 3) emptyBlobObject).put emptyBlobObject).2.sweep n
          marked false).2 w'.repo.objects := by
  let _ := cborFormat ciborium fun _ => emptyBlobHash
  have hread : ∀ h ∈ strayBlobWorld.repo.objects,
      ∃ next, referents strayBlobWorld.repo.objects h = .ok next := by
    intro h hmem
    obtain rfl := (ObjectStore.mem_put.mp hmem).resolve_right fun h => absurd h Finmap.notMem_empty
    have hget : strayBlobWorld.repo.objects.get (emptyBlobObject.hash Hash) = .ok emptyBlobObject := by
      rw [ObjectStore.get_eq_ok]
      refine ⟨?_, rfl⟩
      exact (ObjectStore.lookup_put ∅ _ _).trans (if_pos ⟨rfl, Finmap.notMem_empty⟩)
    exact ⟨[], by rw [referents, hget]; rfl⟩
  obtain ⟨summary, w', hrun⟩ := collectGarbage_succeeds .default Env.calm_reliable hread
  obtain ⟨roots, marked, -, -, hsame, hd⟩ := collectGarbage_sweeps
    ((DirRun.empty.putUntil (.tmp 3) emptyBlobObject).put emptyBlobObject) .default hrun
  exact ⟨summary, w', hrun, roots.card, marked, hsame, hd⟩

end Tig
