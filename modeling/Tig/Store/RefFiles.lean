import Mathlib.Data.Prod.Lex
import Tig.Fs.Files
import Tig.Fs.Text
import Tig.Store.Refs

set_option relaxedAutoImplicit false
set_option autoImplicit false

/-!
# The refs on disk

Every ref is a small file: a change is a record in a file named by its id, a bookmark and the HEAD
are files that hold an id. A file is written next to itself under a temporary name and then renamed.
Ids and names are joined to paths as they are.

## Main definitions

* `Tig.FsRefStore` — a directory of refs, on its file system.
* `Tig.FsRefStore.putChange`, `Tig.FsRefStore.setBookmark`, … — the operations that write.
* `Tig.FsRefStore.getChange`, `Tig.FsRefStore.listChanges`, … — those that read.
* `Tig.HoldsTable` — a directory that holds a table of files.
* `Tig.FsRefStore.Represents` — the files on disk stand for refs.

## Main results

* `Tig.FsRefStore.atomicWrite_spec` — what writing a file under a plain name leaves.
* `Tig.HoldsTable.put`, `Tig.HoldsTable.remove` — tables after writing and removing a file.
-/

namespace Tig

open Program

/-! ## The store -/

/-- Records of changes as JSON. -/
structure ChangeCodec (H : Type) where
  toVecPretty : Change H → Bytes
  fromSlice : Bytes → Except String (Change H)

/-- What was written of this record is read. -/
def ChangeCodec.Exact {H : Type} (codec : ChangeCodec H) (c : Change H) : Prop :=
  codec.fromSlice (codec.toVecPretty c) = .ok c

/-- The refs below a directory, of which the components are given. -/
structure FsRefStore (H : Type) where
  root : List Bytes
  fs : PathFs
  codec : ChangeCodec H

/-- Files with such a name are not listed. -/
def isHidden (name : String) : Bool := name.toList.head? = some '.'

namespace FsRefStore

variable {H : Type} (r : FsRefStore H)

def changePath (id : ChangeId) : RawPath := rawPath r.root ["changes", id]

def bookmarkPath (name : String) : RawPath := rawPath r.root ["bookmarks", name]

def headPath : RawPath := rawPath r.root ["HEAD"]

/-- Open the store: make its directories. -/
def «open» : DirM Unit := do
  r.fs.createDirAll (rawPath r.root ["changes"]).comps.reverse
  r.fs.createDirAll (rawPath r.root ["bookmarks"]).comps.reverse

/-- Write a file: to a temporary file beside it, which is then renamed. -/
def atomicWrite (path : RawPath) (contents : Bytes) : DirM Unit :=
  match path.parent with
  | none => throw (.corrupt "ref path has a parent")
  | some dir => do
    r.fs.createDirAll dir.comps.reverse
    let fileName := (path.fileName.bind Utf8.decode).getD "ref"
    let tmp := dir.join (".tmp-" ++ fileName)
    r.fs.write tmp contents
    r.fs.rename tmp path

/-- Remove a file. It is no error when it is not there. -/
def removeRef (path : RawPath) : DirM Unit :=
  tryCatch (r.fs.removeFile path) fun e =>
    if e = .io "No such file or directory (os error 2)" then return () else throw e

/-- Read a file that holds an id. -/
def readRef (disk : WorkingCopy) (path : RawPath) : Except Error (Option ChangeId) :=
  match r.fs.readToString disk path with
  | .ok s => .ok (some (trim s))
  | .error (.io "No such file or directory (os error 2)") => .ok none
  | .error e => .error e

/-! ### Changes -/

def putChange (change : Change H) : DirM Unit :=
  r.atomicWrite (r.changePath change.id) (r.codec.toVecPretty change)

def getChange (disk : WorkingCopy) (id : ChangeId) : Except Error (Change H) :=
  match r.fs.read disk (r.changePath id) with
  | .ok bytes => (r.codec.fromSlice bytes).mapError .json
  | .error (.io "No such file or directory (os error 2)") => .error (.notFound ("change " ++ id))
  | .error e => .error e

def listChanges (disk : WorkingCopy) : Except Error (List ChangeId) := do
  let entries ← r.fs.readDir disk (rawPath r.root ["changes"])
  .ok (((entries.map Utf8.decodeLossy).filter fun s => !isHidden s).insertionSort (· ≤ ·))

def deleteChange (id : ChangeId) : DirM Unit := r.removeRef (r.changePath id)

/-! ### Bookmarks -/

/-- The names that no bookmark has. -/
def isInvalidName (name : String) : Bool :=
  name = "" || '/' ∈ name.toList || '\x00' ∈ name.toList

def setBookmark (name : String) (change : ChangeId) : DirM Unit :=
  if isInvalidName name then throw (.corrupt ("invalid bookmark name: " ++ name))
  else r.atomicWrite (r.bookmarkPath name) (Utf8.encode change)

def getBookmark (disk : WorkingCopy) (name : String) : Except Error (Option ChangeId) :=
  r.readRef disk (r.bookmarkPath name)

/-- The bookmarks among files of the directory. -/
def bookmarksOf (disk : WorkingCopy) : List Bytes → Except Error (List (String × ChangeId))
  | [] => .ok []
  | entry :: rest => do
    let name := Utf8.decodeLossy entry
    if isHidden name then bookmarksOf disk rest
    else
      let idText ← r.fs.readToString disk ⟨(rawPath r.root ["bookmarks"]).comps ++ [entry], false⟩
      let out ← bookmarksOf disk rest
      .ok ((name, trim idText) :: out)

/-- The bookmarks, by name. -/
def listBookmarks (disk : WorkingCopy) : Except Error (List (String × ChangeId)) := do
  let entries ← r.fs.readDir disk (rawPath r.root ["bookmarks"])
  let out ← r.bookmarksOf disk entries
  .ok (out.insertionSort fun a b => toLex a ≤ toLex b)

def deleteBookmark (name : String) : DirM Unit := r.removeRef (r.bookmarkPath name)

/-! ### The HEAD -/

def head (disk : WorkingCopy) : Except Error (Option ChangeId) := r.readRef disk r.headPath

def setHead (change : ChangeId) : DirM Unit := r.atomicWrite r.headPath (Utf8.encode change)

def clearHead : DirM Unit := r.removeRef r.headPath

end FsRefStore

/-! ## Writing under a plain name -/

/-- A directory after a file has been written in it: under a temporary name first, and then renamed.
-/
def writtenIn (name : String) (contents : Bytes) (dir : WorkingCopy) : WorkingCopy :=
  putChild (Utf8.encode name) (.file contents false)
    (removeChild (Utf8.encode (".tmp-" ++ name))
      (putChild (Utf8.encode (".tmp-" ++ name)) (.file contents false) dir))

theorem childOf_writtenIn {name : String} {dir : WorkingCopy}
    (htmp : childOf (Utf8.encode (".tmp-" ++ name)) dir = none) (contents n : Bytes) :
    childOf n (writtenIn name contents dir) =
      if n = Utf8.encode name then some (.file contents false) else childOf n dir := by
  rw [writtenIn, childOf_putChild, childOf_removeChild, childOf_putChild]
  split_ifs with hn ht
  · rfl
  · rw [ht, htmp]
  · rfl

/-- The temporary name of a plain name can stand in a path. -/
theorem validateName_tmp {name : String} (h : TreeEntry.validateName name = .ok ()) :
    TreeEntry.validateName (".tmp-" ++ name) = .ok () := by
  unfold TreeEntry.validateName at h
  split_ifs at h with hbad
  push Not at hbad
  obtain ⟨-, -, -, hslash, hnul⟩ := hbad
  have hlist : (".tmp-" ++ name).toList = ['.', 't', 'm', 'p', '-'] ++ name.toList :=
    String.toList_append
  have hne : ∀ s : String, s.toList.length < 5 → ".tmp-" ++ name ≠ s := by
    rintro s hs rfl
    rw [hlist, List.length_append] at hs
    exact absurd hs (by simp)
  refine if_neg ?_
  rintro (hempty | hdot | hdots | hmem | hmem)
  · exact hne "" (by decide) hempty
  · exact hne "." (by decide) hdot
  · exact hne ".." (by decide) hdots
  · rw [hlist] at hmem
    exact (List.mem_append.mp hmem).elim (by decide) hslash
  · rw [hlist] at hmem
    exact (List.mem_append.mp hmem).elim (by decide) hnul

/-- A path of plain names has no NUL. -/
theorem zero_not_mem_encode {name : String} (h : TreeEntry.validateName name = .ok ()) :
    0 ∉ Utf8.encode name := by
  unfold TreeEntry.validateName at h
  split_ifs at h with hbad
  push Not at hbad
  exact fun hmem => hbad.2.2.2.2 (Utf8.mem_toList_of_mem_encode (c := '\x00') (by decide) hmem)

theorem checkNul_append {comps comps' : List Bytes} {slash slash' : Bool}
    (h : checkNul ⟨comps, slash⟩ = .ok ()) (h' : ∀ n ∈ comps', 0 ∉ n) :
    checkNul ⟨comps ++ comps', slash'⟩ = .ok () := by
  unfold checkNul at h ⊢
  split_ifs at h with hany
  refine if_neg ?_
  simp only [List.any_append, Bool.or_eq_true, not_or, List.any_eq_true, decide_eq_true_eq,
    not_exists, not_and] at hany ⊢
  exact ⟨hany, h'⟩

/-! ## Tables of files -/

/-- The names that are listed: they can stand in a path, and are not hidden. -/
def IsPlainName (name : String) : Prop :=
  TreeEntry.validateName name = .ok () ∧ isHidden name = false

/-- The names in a directory, as text. -/
def fileNames (dir : WorkingCopy) : List String := (dir.map Prod.fst).map Utf8.decodeLossy

/-- The directory holds the files of a table, each under its name, and nothing else. -/
structure HoldsTable (fs : PathFs) (dir : WorkingCopy) (table : String → Option Bytes) :
    Prop where
  distinct : DistinctNames dir
  file : ∀ name contents, table name = some contents →
    childOf (Utf8.encode name) dir = some (.file contents false)
  named : ∀ bytes node, childOf bytes dir = some node → ∃ name contents,
    bytes = Utf8.encode name ∧ table name = some contents
  plain : ∀ name contents, table name = some contents →
    IsPlainName name ∧ (Utf8.encode name).length ≤ fs.nameMax

namespace HoldsTable

variable {fs : PathFs} {dir : WorkingCopy} {table : String → Option Bytes}

theorem childOf_eq (h : HoldsTable fs dir table) (name : String) :
    childOf (Utf8.encode name) dir = (table name).map fun contents => .file contents false := by
  cases ht : table name with
  | some contents => exact h.file name contents ht
  | none =>
    cases hc : childOf (Utf8.encode name) dir with
    | none => rfl
    | some node =>
      obtain ⟨name', contents, hname, ht'⟩ := h.named _ _ hc
      rw [← Utf8.encode_injective hname, ht] at ht'
      cases ht'

/-- No temporary file is left. -/
theorem childOf_tmp (h : HoldsTable fs dir table) (name : String) :
    childOf (Utf8.encode (".tmp-" ++ name)) dir = none := by
  rw [h.childOf_eq]
  cases ht : table (".tmp-" ++ name) with
  | none => rfl
  | some contents =>
    have hhidden := (h.plain _ _ ht).1.2
    have hlist : (".tmp-" ++ name).toList = ['.', 't', 'm', 'p', '-'] ++ name.toList :=
      String.toList_append
    rw [isHidden, hlist] at hhidden
    cases hhidden

theorem not_dir (h : HoldsTable fs dir table) (bytes : Bytes) (children : WorkingCopy) :
    childOf bytes dir ≠ some (.dir children) := by
  intro hc
  obtain ⟨name, contents, rfl, ht⟩ := h.named _ _ hc
  rw [h.file name contents ht] at hc
  cases hc

theorem not_way (h : HoldsTable fs dir table) {bytes : Bytes} {node : Node}
    (hc : childOf bytes dir = some node) : node.shape.isWay = false := by
  obtain ⟨name, contents, rfl, ht⟩ := h.named _ _ hc
  rw [h.file name contents ht] at hc
  obtain rfl := Option.some.inj hc
  rfl

theorem not_symlink (h : HoldsTable fs dir table) (bytes target : Bytes) :
    childOf bytes dir ≠ some (.symlink target) := by
  intro hc
  cases h.not_way hc

theorem empty (fs : PathFs) : HoldsTable fs [] fun _ => none where
  distinct := List.nodup_nil
  file _ _ h := by cases h
  named _ _ h := by cases h
  plain _ _ h := by cases h

/-- **Writing a file** sets what the table has under its name. -/
theorem put (h : HoldsTable fs dir table) {name : String} (hname : IsPlainName name)
    (hlen : (Utf8.encode name).length ≤ fs.nameMax) (contents : Bytes) :
    HoldsTable fs (writtenIn name contents dir) (Function.update table name (some contents)) where
  distinct := ((h.distinct.putChild _ _).removeChild _).putChild _ _
  file n c hn := by
    rw [childOf_writtenIn (h.childOf_tmp name)]
    rw [Function.update_apply] at hn
    split_ifs at hn with heq
    · rw [heq, if_pos rfl, Option.some.inj hn]
    · rw [if_neg fun hb => heq (Utf8.encode_injective hb)]
      exact h.file n c hn
  named bytes node hc := by
    rw [childOf_writtenIn (h.childOf_tmp name)] at hc
    split_ifs at hc with hb
    · exact ⟨name, contents, hb, Function.update_self _ _ _⟩
    · obtain ⟨n, c, rfl, hn⟩ := h.named _ _ hc
      exact ⟨n, c, rfl, by rw [Function.update_of_ne fun heq => hb (by rw [heq]), hn]⟩
  plain n c hn := by
    rw [Function.update_apply] at hn
    split_ifs at hn with heq
    · exact heq ▸ ⟨hname, hlen⟩
    · exact h.plain n c hn

/-- **Removing a file** takes its name out of the table. -/
theorem remove (h : HoldsTable fs dir table) (name : String) :
    HoldsTable fs (removeChild (Utf8.encode name) dir) (Function.update table name none) where
  distinct := h.distinct.removeChild _
  file n c hn := by
    rw [Function.update_apply] at hn
    split_ifs at hn with heq
    rw [childOf_removeChild, if_neg fun hb => heq (Utf8.encode_injective hb)]
    exact h.file n c hn
  named bytes node hc := by
    rw [childOf_removeChild] at hc
    split_ifs at hc with hb
    obtain ⟨n, c, rfl, hn⟩ := h.named _ _ hc
    exact ⟨n, c, rfl, by rw [Function.update_of_ne fun heq => hb (by rw [heq]), hn]⟩
  plain n c hn := by
    rw [Function.update_apply] at hn
    split_ifs at hn with heq
    exact h.plain n c hn

/-- What is listed is in the table. -/
theorem named_of_mem (h : HoldsTable fs dir table) {bytes : Bytes}
    (hmem : bytes ∈ dir.map Prod.fst) :
    ∃ name contents, bytes = Utf8.encode name ∧ table name = some contents := by
  obtain ⟨⟨bytes, node⟩, hchild, rfl⟩ := List.mem_map.mp hmem
  exact h.named bytes node (h.distinct.mem_iff.mp hchild)

/-- The names of the files are those of the table. -/
theorem mem_fileNames (h : HoldsTable fs dir table) {name : String} :
    name ∈ fileNames dir ↔ table name ≠ none := by
  constructor
  · intro hmem
    obtain ⟨bytes, hbytes, rfl⟩ := List.mem_map.mp hmem
    obtain ⟨name, contents, rfl, ht⟩ := h.named_of_mem hbytes
    rw [Utf8.decodeLossy_encode, ht]
    exact Option.some_ne_none _
  · intro ht
    obtain ⟨contents, ht⟩ := Option.ne_none_iff_exists'.mp ht
    have hchild := mem_of_childOf (h.file name contents ht)
    have hbytes : Utf8.encode name ∈ dir.map Prod.fst :=
      List.mem_map.mpr ⟨_, hchild, rfl⟩
    exact List.mem_map.mpr ⟨_, hbytes, Utf8.decodeLossy_encode name⟩

theorem nodup_fileNames (h : HoldsTable fs dir table) : (fileNames dir).Nodup := by
  refine List.Nodup.of_map Utf8.encode ?_
  have hsame : (fileNames dir).map Utf8.encode = dir.map Prod.fst := by
    rw [fileNames, List.map_map]
    refine (List.map_congr_left fun bytes hbytes => ?_).trans (List.map_id _)
    obtain ⟨name, contents, rfl, -⟩ := h.named_of_mem hbytes
    rw [Function.comp_apply, Utf8.decodeLossy_encode, id]
  rw [hsame]
  exact h.distinct

end HoldsTable

namespace FsRefStore

section AtomicWrite

variable {H : Type} {r : FsRefStore H} {disk : WorkingCopy} {comps : List Bytes} {loc : Location}
  {dir : WorkingCopy} {name : String}

/-- The parts of the path of a plain name. -/
theorem parent_name (comps : List Bytes) (hname : TreeEntry.validateName name = .ok ()) :
    RawPath.parent ⟨comps ++ [Utf8.encode name], false⟩ =
        some ⟨comps.filter (· ≠ [46]), false⟩ ∧
      RawPath.fileName ⟨comps ++ [Utf8.encode name], false⟩ = some (Utf8.encode name) := by
  obtain ⟨-, hdots, -⟩ := encode_valid hname
  simp only [isDots, Bool.or_eq_false_iff, decide_eq_false_iff_not] at hdots
  have hlex : RawPath.lexical ⟨comps ++ [Utf8.encode name], false⟩ =
      comps.filter (· ≠ [46]) ++ [Utf8.encode name] := by
    rw [RawPath.lexical, List.filter_append, List.filter_cons_of_pos (by simpa using hdots.1),
      List.filter_nil]
  constructor
  · rw [RawPath.parent, hlex, if_neg (by simp), List.dropLast_concat]
  · rw [RawPath.fileName, hlex, List.getLast?_concat, Option.filter_some, if_pos]
    simpa using hdots.2

/-- **Writing a file** under a plain name of a directory that is there. -/
theorem atomicWrite_spec (hnul : checkNul ⟨comps, false⟩ = .ok ())
    (hwalk : walk disk r.fs.links [] comps = .ok loc) (hdir : dirOf disk loc = some dir)
    (hname : TreeEntry.validateName name = .ok ())
    (htmp : childOf (Utf8.encode (".tmp-" ++ name)) dir = none)
    (hnode : ∀ children, childOf (Utf8.encode name) dir ≠ some (.dir children))
    (contents : Bytes) :
    Post (r.atomicWrite ⟨comps ++ [Utf8.encode name], false⟩ contents) disk
      (fun _ disk' => (Utf8.encode name).length ≤ r.fs.nameMax ∧
        disk' = alter (writtenIn name contents) loc disk)
      (fun _ _ => True) := by
  obtain ⟨hparent, hfile⟩ := parent_name comps hname
  obtain ⟨-, hdots, -⟩ := encode_valid hname
  obtain ⟨-, hdots', -⟩ := encode_valid (validateName_tmp hname)
  have hnul' : checkNul ⟨comps.filter (· ≠ [46]), false⟩ = .ok () := by
    unfold checkNul at hnul ⊢
    split_ifs at hnul with hany
    refine if_neg fun hany' => hany ?_
    obtain ⟨n, hn, h0⟩ := List.any_eq_true.mp hany'
    exact List.any_eq_true.mpr ⟨n, List.mem_of_mem_filter hn, h0⟩
  have hwalk' : walk disk r.fs.links [] (comps.filter (· ≠ [46])) = .ok loc :=
    (walk_filter_dot disk r.fs.links [] [] comps).trans hwalk
  have hjoin : rawPath (comps.filter (· ≠ [46])) [".tmp-" ++ name] =
      ⟨comps.filter (· ≠ [46]) ++ [Utf8.encode (".tmp-" ++ name)], false⟩ :=
    rawPath_valid (List.forall_mem_singleton.mpr (validateName_tmp hname))
  change RawPath.join ⟨comps.filter (· ≠ [46]), false⟩ (".tmp-" ++ name) = _ at hjoin
  rw [atomicWrite, hparent]
  dsimp only
  rw [hfile, Option.bind_some, Utf8.decode_encode, Option.getD_some, hjoin, post_bind]
  refine (PathFs.createDirAll_dir hnul' hwalk').mono ?_ (fun _ _ h => h.elim)
  rintro _ _ rfl
  rw [post_bind]
  refine (PathFs.write_new hwalk' hdir hdots' htmp contents).mono ?_ (fun _ _ _ => trivial)
  rintro _ _ ⟨-, rfl⟩
  have hways : KeepsWays (putChild (Utf8.encode (".tmp-" ++ name)) (.file contents false)) dir :=
    keepsWays_putChild htmp _
  have hdir' := dirOf_alter_self (putChild (Utf8.encode (".tmp-" ++ name)) (.file contents false))
    hdir
  refine (PathFs.rename_file (walk_alter hdir hways hwalk') (walk_alter hdir hways hwalk) hdir'
    hdots' hdots (childOf_putChild _ _ _ _ |>.trans (if_pos rfl)) ?_).mono ?_
    (fun _ _ _ => trivial)
  · intro children
    rw [childOf_putChild]
    split_ifs
    · nofun
    · exact hnode children
  · rintro _ _ ⟨hlen, rfl⟩
    refine ⟨hlen, ?_⟩
    rw [alter_alter]
    rfl

end AtomicWrite

/-! ## Files that stand for refs -/

section Representing

variable {H : Type} {r : FsRefStore H}

/-- The files of the changes. -/
def changeFiles (r : FsRefStore H) (refs : Refs H) (id : ChangeId) : Option Bytes :=
  (refs.changes.lookup id).map fun c => r.codec.toVecPretty c.1

/-- The files of the bookmarks. -/
def bookmarkFiles (refs : Refs H) (name : String) : Option Bytes :=
  (refs.bookmarks.lookup name).map Utf8.encode

/-- The directory `refs` holds these refs. Ids that files hold have no white space around them. -/
structure HoldsRefs (r : FsRefStore H) (dir : WorkingCopy) (refs : Refs H) : Prop where
  changes : ∃ children, childOf (Utf8.encode "changes") dir = some (.dir children) ∧
    HoldsTable r.fs children (r.changeFiles refs)
  bookmarks : ∃ children, childOf (Utf8.encode "bookmarks") dir = some (.dir children) ∧
    HoldsTable r.fs children (bookmarkFiles refs)
  head : childOf (Utf8.encode "HEAD") dir =
    refs.head.map fun id => .file (Utf8.encode id) false
  tmp : childOf (Utf8.encode ".tmp-HEAD") dir = none
  targets : ∀ name id, refs.bookmarks.lookup name = some id → trim id = id
  current : ∀ id, refs.head = some id → trim id = id

/-- The disk holds these refs where the path of the store leads. -/
structure RepresentsAt (r : FsRefStore H) (disk : WorkingCopy) (loc : Location)
    (dir : WorkingCopy) (refs : Refs H) : Prop where
  nul : checkNul ⟨r.root, false⟩ = .ok ()
  short : (Utf8.encode "HEAD").length ≤ r.fs.nameMax
  leads : walk disk r.fs.links [] r.root = .ok loc
  there : dirOf disk loc = some dir
  holds : HoldsRefs r dir refs

def Represents (r : FsRefStore H) (disk : WorkingCopy) (refs : Refs H) : Prop :=
  ∃ loc dir, RepresentsAt r disk loc dir refs

theorem changeFiles_write (r : FsRefStore H) (refs : Refs H) (id : ChangeId)
    (value : Option (ChangeAt H id)) :
    r.changeFiles (refs.write (.change id value)) =
      Function.update (r.changeFiles refs) id (value.map fun c => r.codec.toVecPretty c.1) := by
  funext id'
  by_cases h : id' = id
  · subst h
    rw [Function.update_self, changeFiles, Refs.write, FiniteMap.lookup_set]
  · rw [Function.update_of_ne h, changeFiles, Refs.write, FiniteMap.lookup_set_of_ne _ _ h]
    rfl

theorem bookmarkFiles_write (refs : Refs H) (name : String) (value : Option ChangeId) :
    bookmarkFiles (refs.write (.bookmark name value)) =
      Function.update (bookmarkFiles refs) name (value.map Utf8.encode) := by
  funext name'
  by_cases h : name' = name
  · subst h
    rw [Function.update_self, bookmarkFiles, Refs.write, FiniteMap.lookup_set]
  · rw [Function.update_of_ne h, bookmarkFiles, Refs.write, FiniteMap.lookup_set_of_ne _ _ h]
    rfl

/-- The names in the directory `refs` are different. -/
theorem encode_ne {a b : String} (h : a ≠ b) : Utf8.encode a ≠ Utf8.encode b :=
  fun heq => h (Utf8.encode_injective heq)

/-- The names in the directory `refs`. -/
def refNames : List String := ["changes", "bookmarks", "HEAD", ".tmp-HEAD"]

namespace HoldsRefs

variable {dir : WorkingCopy} {refs : Refs H}

/-- No other names matter. -/
theorem congr (h : HoldsRefs r dir refs) {dir' : WorkingCopy}
    (hsame : ∀ name ∈ refNames, childOf (Utf8.encode name) dir' = childOf (Utf8.encode name) dir) :
    HoldsRefs r dir' refs where
  changes := by
    rw [hsame "changes" (by decide)]
    exact h.changes
  bookmarks := by
    rw [hsame "bookmarks" (by decide)]
    exact h.bookmarks
  head := by
    rw [hsame "HEAD" (by decide)]
    exact h.head
  tmp := by
    rw [hsame ".tmp-HEAD" (by decide)]
    exact h.tmp
  targets := h.targets
  current := h.current

theorem setChanges (h : HoldsRefs r dir refs) {id : ChangeId} {value : Option (ChangeAt H id)}
    {children : WorkingCopy} (htable : HoldsTable r.fs children
      (Function.update (r.changeFiles refs) id (value.map fun c => r.codec.toVecPretty c.1))) :
    HoldsRefs r (putChild (Utf8.encode "changes") (.dir children) dir)
      (refs.write (.change id value)) where
  changes := ⟨children, (childOf_putChild _ _ _ _).trans (if_pos rfl),
    r.changeFiles_write refs id value ▸ htable⟩
  bookmarks := by
    rw [childOf_putChild, if_neg (encode_ne (by decide))]
    exact h.bookmarks
  head := by
    rw [childOf_putChild, if_neg (encode_ne (by decide))]
    exact h.head
  tmp := by
    rw [childOf_putChild, if_neg (encode_ne (by decide))]
    exact h.tmp
  targets := h.targets
  current := h.current

theorem setBookmarks (h : HoldsRefs r dir refs) {name : String} {value : Option ChangeId}
    {children : WorkingCopy} (htable : HoldsTable r.fs children
      (Function.update (bookmarkFiles refs) name (value.map Utf8.encode)))
    (hvalue : ∀ id, value = some id → trim id = id) :
    HoldsRefs r (putChild (Utf8.encode "bookmarks") (.dir children) dir)
      (refs.write (.bookmark name value)) where
  changes := by
    rw [childOf_putChild, if_neg (encode_ne (by decide))]
    exact h.changes
  bookmarks := ⟨children, (childOf_putChild _ _ _ _).trans (if_pos rfl),
    bookmarkFiles_write refs name value ▸ htable⟩
  head := by
    rw [childOf_putChild, if_neg (encode_ne (by decide))]
    exact h.head
  tmp := by
    rw [childOf_putChild, if_neg (encode_ne (by decide))]
    exact h.tmp
  targets n id hn := by
    by_cases hname : n = name
    · subst hname
      rw [Refs.write, FiniteMap.lookup_set] at hn
      exact hvalue id hn
    · rw [Refs.write, FiniteMap.lookup_set_of_ne _ _ hname] at hn
      exact h.targets n id hn
  current := h.current

end HoldsRefs

namespace RepresentsAt

variable {disk : WorkingCopy} {loc : Location} {dir : WorkingCopy} {refs : Refs H}

/-- A path below the directory `refs`, of names that can stand in a path. -/
theorem path_eq (r : FsRefStore H) {names : List String}
    (h : ∀ n ∈ names, TreeEntry.validateName n = .ok ()) :
    rawPath r.root names = ⟨r.root ++ names.map Utf8.encode, false⟩ := rawPath_valid h

theorem nul_append (h : RepresentsAt r disk loc dir refs) {names : List String}
    (hnames : ∀ n ∈ names, TreeEntry.validateName n = .ok ()) :
    checkNul ⟨r.root ++ names.map Utf8.encode, false⟩ = .ok () := by
  refine checkNul_append h.nul fun n hn => ?_
  obtain ⟨name, hname, rfl⟩ := List.mem_map.mp hn
  exact zero_not_mem_encode (hnames name hname)

section Below

variable {sub : String} {children : WorkingCopy} (h : RepresentsAt r disk loc dir refs)
  (hsub : TreeEntry.validateName sub = .ok ())
  (hc : childOf (Utf8.encode sub) dir = some (.dir children))

include h hsub hc

/-- A directory below `refs` is where its path leads. -/
theorem leads_below : walk disk r.fs.links [] (r.root ++ [Utf8.encode sub]) =
      .ok (loc ++ [Utf8.encode sub]) ∧
    dirOf disk (loc ++ [Utf8.encode sub]) = some children := by
  have hnode : nodeOf disk loc (Utf8.encode sub) = some (.dir children) :=
    (nodeOf_dir h.there _).trans hc
  refine ⟨walk_into (encode_valid hsub).2.1 h.leads hnode, ?_⟩
  rw [dirOf_concat, hnode]

/-- A change of a directory below `refs` is a change of `refs` there. -/
theorem alter_below {f : WorkingCopy → WorkingCopy} (hf : KeepsWays f children)
    {refs' : Refs H}
    (holds : HoldsRefs r (putChild (Utf8.encode sub) (.dir (f children)) dir) refs') :
    Represents r (alter f (loc ++ [Utf8.encode sub]) disk) refs' := by
  obtain ⟨-, hdir⟩ := h.leads_below hsub hc
  refine ⟨loc, _, h.nul, h.short, walk_alter hdir hf h.leads, ?_, holds⟩
  rw [alter_append, dirOf_alter_self _ h.there, alter_singleton f hc]

end Below

/-- A change of the directory `refs` itself. -/
theorem alter_here (h : RepresentsAt r disk loc dir refs) {f : WorkingCopy → WorkingCopy}
    (hf : KeepsWays f dir) {refs' : Refs H} (holds : HoldsRefs r (f dir) refs') :
    Represents r (alter f loc disk) refs' :=
  ⟨loc, f dir, h.nul, h.short, walk_alter h.there hf h.leads, dirOf_alter_self f h.there, holds⟩

end RepresentsAt

/-- Writing a file in place of a file keeps the ways. -/
theorem keepsWays_writtenIn {name : String} {contents : Bytes} {dir : WorkingCopy}
    (htmp : childOf (Utf8.encode (".tmp-" ++ name)) dir = none)
    (hfile : ∀ node, childOf (Utf8.encode name) dir = some node → node.shape.isWay = false) :
    KeepsWays (writtenIn name contents) dir := by
  intro n node hn hway
  rw [childOf_writtenIn htmp, if_neg, hn]
  rintro rfl
  rw [hfile node hn] at hway
  cases hway

theorem keepsWays_removeChild {name : Bytes} {dir : WorkingCopy}
    (hfile : ∀ node, childOf name dir = some node → node.shape.isWay = false) :
    KeepsWays (removeChild name) dir := by
  intro n node hn hway
  rw [childOf_removeChild, if_neg, hn]
  rintro rfl
  rw [hfile node hn] at hway
  cases hway

/-! ## What the operations do to the refs -/

section Operations

variable {disk : WorkingCopy} {refs : Refs H}

theorem validateName_changes : TreeEntry.validateName "changes" = .ok () := by decide
theorem validateName_bookmarks : TreeEntry.validateName "bookmarks" = .ok () := by decide
theorem validateName_HEAD : TreeEntry.validateName "HEAD" = .ok () := by decide

/-- A name that is not empty and has no slash is one component of a path. -/
theorem path_below (r : FsRefStore H) {sub name : String}
    (hsub : TreeEntry.validateName sub = .ok ()) (hempty : name ≠ "") (hslash : '/' ∉ name.toList) :
    rawPath r.root [sub, name] = ⟨(r.root ++ [Utf8.encode sub]) ++ [Utf8.encode name], false⟩ := by
  obtain ⟨hne, -, hslash'⟩ := encode_valid hsub
  have hsub' := RawPath.join_name ⟨r.root, false⟩ hne hslash'
  have hname := RawPath.join_name ⟨r.root ++ [Utf8.encode sub], false⟩ (encode_ne hempty)
    fun hmem => hslash (Utf8.mem_toList_of_mem_encode (c := '/') (by decide) hmem)
  rw [← hname, ← hsub']
  rfl

theorem path_valid (r : FsRefStore H) {sub name : String}
    (hsub : TreeEntry.validateName sub = .ok ()) (hname : TreeEntry.validateName name = .ok ()) :
    rawPath r.root [sub, name] = ⟨(r.root ++ [Utf8.encode sub]) ++ [Utf8.encode name], false⟩ := by
  rw [RepresentsAt.path_eq r (by simp [hsub, hname])]
  simp

section Below

variable {loc : Location} {dir children : WorkingCopy} {sub name : String}
  {table : String → Option Bytes} (h : RepresentsAt r disk loc dir refs)
  (hsub : TreeEntry.validateName sub = .ok ())
  (hc : childOf (Utf8.encode sub) dir = some (.dir children))
  (htable : HoldsTable r.fs children table)

include h hsub hc htable

/-- Writing a file below a directory of `refs`. -/
theorem write_below (hname : IsPlainName name) (contents : Bytes) :
    Post (r.atomicWrite (rawPath r.root [sub, name]) contents) disk
      (fun _ disk' => disk' = alter (writtenIn name contents) (loc ++ [Utf8.encode sub]) disk ∧
        KeepsWays (writtenIn name contents) children ∧
        HoldsTable r.fs (writtenIn name contents children)
          (Function.update table name (some contents)))
      (fun _ _ => True) := by
  obtain ⟨hwalk, hdir⟩ := h.leads_below hsub hc
  have hnames : ∀ n ∈ [sub], TreeEntry.validateName n = .ok () := by simp [hsub]
  rw [path_valid r hsub hname.1]
  refine (atomicWrite_spec (h.nul_append hnames) hwalk hdir hname.1 (htable.childOf_tmp _)
    (htable.not_dir _) _).mono ?_ (fun _ _ _ => trivial)
  rintro _ _ ⟨hlen, rfl⟩
  exact ⟨rfl, keepsWays_writtenIn (htable.childOf_tmp _) fun _ => htable.not_way,
    htable.put hname hlen _⟩

/-- Removing a file below a directory of `refs`; when it is not there, nothing happens. -/
theorem remove_below (hname : TreeEntry.validateName name = .ok ()) :
    Post (r.removeRef (rawPath r.root [sub, name])) disk
      (fun _ disk' =>
        disk' = alter (removeChild (Utf8.encode name)) (loc ++ [Utf8.encode sub]) disk ∧
          KeepsWays (removeChild (Utf8.encode name)) children ∨
        table name = none ∧ disk' = disk)
      (fun _ _ => True) := by
  obtain ⟨hwalk, hdir⟩ := h.leads_below hsub hc
  rw [path_valid r hsub hname, removeRef, post_tryCatch]
  refine (PathFs.removeFile_name hwalk hdir (encode_valid hname).2.1 false).mono ?_ ?_
  · rintro _ _ ⟨-, -, rfl⟩
    exact .inl ⟨rfl, keepsWays_removeChild fun _ => htable.not_way⟩
  · rintro e _ ⟨rfl, hgone⟩
    rw [post_ite]
    refine ⟨fun he => .inr ⟨?_, rfl⟩, fun _ => trivial⟩
    have hnone := hgone he
    rw [htable.childOf_eq, Option.map_eq_none_iff] at hnone
    exact hnone

/-- Reading a file below a directory of `refs`. -/
theorem read_below (hname : TreeEntry.validateName name = .ok ())
    (hlen : (Utf8.encode name).length ≤ r.fs.nameMax) :
    r.fs.read disk (rawPath r.root [sub, name]) =
      match table name with
      | some contents => .ok contents
      | none => .error (.io "No such file or directory (os error 2)") := by
  obtain ⟨hwalk, hdir⟩ := h.leads_below hsub hc
  have hnames : ∀ n ∈ [sub, name], TreeEntry.validateName n = .ok () := by simp [hsub, hname]
  have hnul := h.nul_append hnames
  rw [List.map_cons, List.map_singleton, List.append_cons] at hnul
  rw [path_valid r hsub hname,
    PathFs.read_name hwalk hdir (encode_valid hname).2.1 (htable.not_symlink _) hnul hlen,
    htable.childOf_eq]
  cases table name <;> rfl

omit htable in
/-- Listing a directory of `refs`. -/
theorem readDir_below :
    r.fs.readDir disk (rawPath r.root [sub]) = .ok (children.map Prod.fst) := by
  obtain ⟨hwalk, hdir⟩ := h.leads_below hsub hc
  have hnames : ∀ n ∈ [sub], TreeEntry.validateName n = .ok () := by simp [hsub]
  rw [RepresentsAt.path_eq r hnames, PathFs.readDir, h.nul_append hnames]
  simp only [List.map_singleton, hwalk, bind, Except.bind, hdir]

end Below

/-- A name that a bookmark can have, and that is not hidden, can stand in a path. -/
theorem validateName_of_bookmark {name : String} (h : ¬ isInvalidName name = true)
    (hhidden : isHidden name = false) : TreeEntry.validateName name = .ok () := by
  simp only [isInvalidName, Bool.or_eq_true, decide_eq_true_eq, not_or] at h
  obtain ⟨⟨hempty, hslash⟩, hnul⟩ := h
  refine if_neg ?_
  rintro (hbad | rfl | rfl | hbad | hbad)
  · exact hempty hbad
  · exact absurd hhidden (by decide)
  · exact absurd hhidden (by decide)
  · exact hslash hbad
  · exact hnul hbad

/-! ### Opening -/

/-- There is no store yet: its directory is a new name in a directory that is there. -/
def Fresh (r : FsRefStore H) (disk : WorkingCopy) : Prop :=
  ∃ above name loc dir, r.root = above ++ [name] ∧ isDots name = false ∧
    walk disk r.fs.links [] above = .ok loc ∧ dirOf disk loc = some dir ∧ childOf name dir = none

/-- **A new store** has no refs. -/
theorem open_spec (h : r.Fresh disk) :
    Post r.open disk (fun _ disk' => Represents r disk' Refs.empty) (fun _ _ => True) := by
  obtain ⟨above, name, loc, dir, hroot, hname, hwalk, hdir, hnone⟩ := h
  have hpath : ∀ sub, TreeEntry.validateName sub = .ok () →
      (rawPath r.root [sub]).comps = r.root ++ [Utf8.encode sub] := fun sub hsub => by
    rw [RepresentsAt.path_eq r (by simp [hsub])]
    rfl
  have hnode := (nodeOf_dir hdir name).trans hnone
  rw [FsRefStore.open, hpath _ validateName_changes, hpath _ validateName_bookmarks, post_bind,
    hroot]
  refine (PathFs.createDirAll_below hwalk hname hnode hdir (encode_valid validateName_changes).2.1
    ).mono ?_ (fun _ _ _ => trivial)
  rintro _ disk₁ ⟨hnul, hwalk₁, hdir₁⟩
  have hnone₁ : childOf (Utf8.encode "bookmarks")
      (putChild (Utf8.encode "changes") (.dir []) []) = none := by
    rw [childOf_putChild, if_neg (encode_ne (by decide))]
    rfl
  refine (PathFs.createDirAll_new hwalk₁ (encode_valid validateName_bookmarks).2.1
    ((nodeOf_dir hdir₁ _).trans hnone₁)).mono ?_ (fun _ _ _ => trivial)
  rintro _ _ ⟨hlen, -, rfl⟩
  refine ⟨_, _, by rwa [hroot], le_trans (by decide) hlen, ?_, dirOf_alter_self _ hdir₁, ?_⟩
  · rw [hroot]
    exact walk_alter hdir₁ (keepsWays_putChild hnone₁ _) hwalk₁
  · exact
      { changes := ⟨[], by
          rw [childOf_putChild, if_neg (encode_ne (by decide)), childOf_putChild, if_pos rfl],
          HoldsTable.empty r.fs⟩
        bookmarks := ⟨[], by rw [childOf_putChild, if_pos rfl], HoldsTable.empty r.fs⟩
        head := by
          rw [childOf_putChild, if_neg (encode_ne (by decide)), childOf_putChild,
            if_neg (encode_ne (by decide))]
          rfl
        tmp := by
          rw [childOf_putChild, if_neg (encode_ne (by decide)), childOf_putChild,
            if_neg (encode_ne (by decide))]
          rfl
        targets := nofun
        current := nofun }

/-! ### Changes and bookmarks -/

/-- **Writing the record of a change** sets the change. -/
theorem putChange_spec (h : Represents r disk refs) {change : Change H}
    (hid : IsPlainName change.id) :
    Post (r.putChange change) disk
      (fun _ disk' => Represents r disk' (refs.write (.change change.id (some ⟨change, rfl⟩))))
      (fun _ _ => True) := by
  obtain ⟨loc, dir, h⟩ := h
  obtain ⟨children, hc, htable⟩ := h.holds.changes
  refine (write_below h validateName_changes hc htable hid _).mono ?_ (fun _ _ _ => trivial)
  rintro _ _ ⟨rfl, hways, htable'⟩
  exact h.alter_below validateName_changes hc hways (h.holds.setChanges htable')

/-- **Setting a bookmark** sets it, when nothing is trimmed off what it points at. -/
theorem setBookmark_spec (h : Represents r disk refs) {name : String} {change : ChangeId}
    (hname : isHidden name = false) (htrim : trim change = change) :
    Post (r.setBookmark name change) disk
      (fun _ disk' => Represents r disk' (refs.write (.bookmark name (some change))))
      (fun _ _ => True) := by
  obtain ⟨loc, dir, h⟩ := h
  obtain ⟨children, hc, htable⟩ := h.holds.bookmarks
  rw [setBookmark, post_ite]
  refine ⟨fun _ => trivial, fun hvalid => ?_⟩
  have hplain : IsPlainName name := ⟨validateName_of_bookmark hvalid hname, hname⟩
  refine (write_below h validateName_bookmarks hc htable hplain _).mono ?_ (fun _ _ _ => trivial)
  rintro _ _ ⟨rfl, hways, htable'⟩
  refine h.alter_below validateName_bookmarks hc hways (h.holds.setBookmarks htable' ?_)
  rintro _ ⟨⟩
  exact htrim

/-- Where a file is refused to be removed, nothing happens. -/
theorem removeRef_refused {path : RawPath}
    (h : Post (r.fs.removeFile path) disk (fun _ _ => False) (fun _ disk' => disk' = disk)) :
    Post (r.removeRef path) disk (fun _ disk' => disk' = disk) (fun _ _ => True) := by
  rw [removeRef, post_tryCatch]
  refine h.mono (fun _ _ h => h.elim) ?_
  rintro e _ rfl
  rw [post_ite]
  exact ⟨fun _ => rfl, fun _ => trivial⟩

/-- A name without a slash can stand in a path, or nothing is removed under it. -/
theorem valid_or_refused {sub name : String} (hsub : TreeEntry.validateName sub = .ok ())
    (hempty : name ≠ "") (hslash : '/' ∉ name.toList) (disk : WorkingCopy) :
    TreeEntry.validateName name = .ok () ∨
      Post (r.removeRef (rawPath r.root [sub, name])) disk (fun _ disk' => disk' = disk)
        (fun _ _ => True) := by
  rw [path_below r hsub hempty hslash]
  by_cases hdots : isDots (Utf8.encode name) = true
  · exact .inr (removeRef_refused
      (PathFs.removeFile_dots ⟨_, List.getLast?_concat, hdots⟩ disk))
  · by_cases hnul : '\x00' ∈ name.toList
    · have hzero : 0 ∈ Utf8.encode name := List.mem_flatMap.mpr ⟨'\x00', hnul, by decide⟩
      exact .inr (removeRef_refused (PathFs.removeFile_nul ⟨Utf8.encode name, by simp, hzero⟩ disk))
    · refine .inl (if_neg ?_)
      rintro (hbad | rfl | rfl | hbad | hbad)
      · exact hempty hbad
      · exact hdots (by decide)
      · exact hdots (by decide)
      · exact hslash hbad
      · exact hnul hbad

/-- Taking a ref away that is not there changes nothing. -/
theorem Represents.without (h : Represents r disk refs) {k : RefKey} {e : RefSnapshot H}
    (he : refs.read k = e) : Represents r disk (refs.write e) := by
  rwa [← he, Refs.write_read]

/-- Only a name that can stand in a path has a file. -/
theorem lookup_change_eq_none (h : Represents r disk refs) {id : ChangeId}
    (hid : TreeEntry.validateName id ≠ .ok ()) : refs.changes.lookup id = none := by
  obtain ⟨loc, dir, h⟩ := h
  obtain ⟨children, -, htable⟩ := h.holds.changes
  by_contra hne
  obtain ⟨c, hlookup⟩ := Option.ne_none_iff_exists'.mp hne
  have hfile : r.changeFiles refs id = some (r.codec.toVecPretty c.1) := by
    rw [changeFiles, hlookup]
    rfl
  exact hid (htable.plain _ _ hfile).1.1

theorem lookup_bookmark_eq_none (h : Represents r disk refs) {name : String}
    (hname : TreeEntry.validateName name ≠ .ok ()) : refs.bookmarks.lookup name = none := by
  obtain ⟨loc, dir, h⟩ := h
  obtain ⟨children, -, htable⟩ := h.holds.bookmarks
  by_contra hne
  obtain ⟨target, hlookup⟩ := Option.ne_none_iff_exists'.mp hne
  have hfile : bookmarkFiles refs name = some (Utf8.encode target) := by
    rw [bookmarkFiles, hlookup]
    rfl
  exact hname (htable.plain _ _ hfile).1.1

/-- **Deleting a change** with a name for its id takes the change away. -/
theorem deleteChange_spec (h : Represents r disk refs) {id : ChangeId} (hempty : id ≠ "")
    (hslash : '/' ∉ id.toList) :
    Post (r.deleteChange id) disk
      (fun _ disk' => Represents r disk' (refs.write (.change id none)))
      (fun _ _ => True) := by
  rw [deleteChange, changePath]
  by_cases hid : TreeEntry.validateName id = .ok ()
  · obtain ⟨loc, dir, h⟩ := h
    obtain ⟨children, hc, htable⟩ := h.holds.changes
    refine (remove_below h validateName_changes hc htable hid).mono ?_ (fun _ _ _ => trivial)
    rintro _ _ (⟨rfl, hways⟩ | ⟨hnone, rfl⟩)
    · exact h.alter_below validateName_changes hc hways (h.holds.setChanges (htable.remove id))
    · rw [changeFiles, Option.map_eq_none_iff] at hnone
      exact Represents.without ⟨loc, dir, h⟩ (k := .change id) (by rw [Refs.read, hnone])
  · refine ((valid_or_refused validateName_changes hempty hslash disk).resolve_left hid).mono ?_
      (fun _ _ _ => trivial)
    rintro _ _ rfl
    exact h.without (k := .change id) (by rw [Refs.read, lookup_change_eq_none h hid])

/-- The place of a file that belongs to a ref. -/
def IsRefFile (r : FsRefStore H) (disk : WorkingCopy) (loc : Location) (name : Bytes) : Prop :=
  ∃ top, walk disk r.fs.links [] r.root = .ok top ∧
    (loc = top ++ [Utf8.encode "changes"] ∨ loc = top ++ [Utf8.encode "bookmarks"] ∨
      loc = top ∧ name = Utf8.encode "HEAD")

/-- Whatever lies where the path ends is no way to anywhere, and no file of a ref. -/
def Elsewhere (r : FsRefStore H) (disk : WorkingCopy) (path : RawPath) : Prop :=
  ∀ loc name node, r.fs.lastSpot disk path = .ok (.entry loc name) →
    nodeOf disk loc name = some node →
    node.shape.isWay = false ∧ ¬ r.IsRefFile disk loc name

/-- The directory `refs` after something has been removed below it that is no file of a ref. -/
theorem HoldsRefs.removeBelow {dir below : WorkingCopy} (h : HoldsRefs r dir refs)
    {rest : Location} {name : Bytes} (hbelow : dirOf dir rest = some below)
    (hways : KeepsWays (removeChild name) below)
    (hrest : rest ≠ [Utf8.encode "changes"] ∧ rest ≠ [Utf8.encode "bookmarks"])
    (hname : rest = [] → name ≠ Utf8.encode "HEAD") :
    HoldsRefs r (alter (removeChild name) rest dir) refs := by
  obtain ⟨changes, hchanges, htable⟩ := h.changes
  obtain ⟨bookmarks, hbookmarks, htable'⟩ := h.bookmarks
  -- the tables have no directories, so nothing lies deeper in them
  have hshallow : ∀ {fs children table first rest}, HoldsTable fs children table →
      dirOf children (first :: rest) = some below → False := fun ht hd => by
    obtain ⟨c, hc, -⟩ := dirOf_cons hd
    exact ht.not_dir _ _ hc
  cases rest with
  | nil =>
    obtain rfl := Option.some.inj hbelow
    refine h.congr fun n hn => ?_
    rw [alter]
    simp only [refNames, List.mem_cons, List.not_mem_nil, or_false] at hn
    obtain rfl | rfl | rfl | rfl := hn
    · rw [hways _ _ hchanges rfl, hchanges]
    · rw [hways _ _ hbookmarks rfl, hbookmarks]
    · rw [childOf_removeChild, if_neg (Ne.symm (hname rfl))]
    · rw [childOf_removeChild, h.tmp, ite_self]
  | cons first rest =>
    obtain ⟨children, hc, hd⟩ := dirOf_cons hbelow
    refine h.congr fun n hn => ?_
    rw [alter, hc]
    dsimp only
    rw [childOf_putChild, if_neg]
    rintro rfl
    simp only [refNames, List.mem_cons, List.not_mem_nil, or_false] at hn
    obtain rfl | rfl | rfl | rfl := hn
    · rw [hchanges] at hc
      obtain rfl := Node.dir.inj (Option.some.inj hc)
      cases rest with
      | nil => exact hrest.1 rfl
      | cons next rest => exact hshallow htable hd
    · rw [hbookmarks] at hc
      obtain rfl := Node.dir.inj (Option.some.inj hc)
      cases rest with
      | nil => exact hrest.2 rfl
      | cons next rest => exact hshallow htable' hd
    · rw [h.head, Option.map_eq_some_iff] at hc
      obtain ⟨id, -, hfile⟩ := hc
      cases hfile
    · rw [h.tmp] at hc
      cases hc

/-- **Removing a file elsewhere** leaves the refs as they are. -/
theorem removeRef_elsewhere (h : Represents r disk refs) {path : RawPath}
    (helse : r.Elsewhere disk path) :
    Post (r.removeRef path) disk (fun _ disk' => Represents r disk' refs) (fun _ _ => True) := by
  rw [removeRef, post_tryCatch]
  refine (PathFs.removeFile_spec path disk).mono ?_ ?_
  · rintro _ _ ⟨loc', name, node, hspot, hnode, rfl⟩
    obtain ⟨hway, hfile⟩ := helse loc' name node hspot hnode
    obtain ⟨below, hbelow, hchild⟩ := Option.bind_eq_some_iff.mp hnode
    have hways : KeepsWays (removeChild name) below := keepsWays_removeChild fun node' hnode' => by
      obtain rfl := Option.some.inj (hchild.symm.trans hnode')
      exact hway
    obtain ⟨loc, dir, h⟩ := h
    have hwalk := walk_alter hbelow hways h.leads
    by_cases hpre : loc <+: loc'
    · obtain ⟨rest, rfl⟩ := hpre
      rw [dirOf_append, h.there, Option.bind_some] at hbelow
      refine ⟨loc, _, h.nul, h.short, hwalk, dirOf_alter_above _ h.there,
        h.holds.removeBelow hbelow hways ⟨?_, ?_⟩ ?_⟩
      · rintro rfl
        exact hfile ⟨loc, h.leads, .inl rfl⟩
      · rintro rfl
        exact hfile ⟨loc, h.leads, .inr (.inl rfl)⟩
      · rintro rfl rfl
        exact hfile ⟨loc, h.leads, .inr (.inr ⟨List.append_nil _, rfl⟩)⟩
    · exact ⟨loc, dir, h.nul, h.short, hwalk, dirOf_alter_apart hbelow hways hpre h.there, h.holds⟩
  · rintro e _ rfl
    rw [post_ite]
    exact ⟨fun _ => h, fun _ => trivial⟩

/-- **Deleting a change** under an id that leads elsewhere: there is no such change. -/
theorem deleteChange_elsewhere (h : Represents r disk refs) {id : ChangeId}
    (hslash : '/' ∈ id.toList) (helse : r.Elsewhere disk (r.changePath id)) :
    Post (r.deleteChange id) disk
      (fun _ disk' => Represents r disk' (refs.write (.change id none)))
      (fun _ _ => True) := by
  have hid : TreeEntry.validateName id ≠ .ok () := fun hvalid =>
    (encode_valid hvalid).2.2 (List.mem_flatMap.mpr ⟨'/', hslash, by decide⟩)
  have hnone : refs.write (.change id none) = refs := by
    rw [← lookup_change_eq_none h hid]
    exact refs.write_read (.change id)
  rw [hnone]
  exact removeRef_elsewhere h helse

/-- **Deleting a bookmark** with a name that bookmarks can have takes it away. -/
theorem deleteBookmark_spec (h : Represents r disk refs) {name : String}
    (hname : ¬ isInvalidName name = true) :
    Post (r.deleteBookmark name) disk
      (fun _ disk' => Represents r disk' (refs.write (.bookmark name none)))
      (fun _ _ => True) := by
  rw [deleteBookmark, bookmarkPath]
  simp only [isInvalidName, Bool.or_eq_true, decide_eq_true_eq, not_or] at hname
  obtain ⟨⟨hempty, hslash⟩, -⟩ := hname
  by_cases hvalid : TreeEntry.validateName name = .ok ()
  · obtain ⟨loc, dir, h⟩ := h
    obtain ⟨children, hc, htable⟩ := h.holds.bookmarks
    refine (remove_below h validateName_bookmarks hc htable hvalid).mono ?_ (fun _ _ _ => trivial)
    rintro _ _ (⟨rfl, hways⟩ | ⟨hnone, rfl⟩)
    · exact h.alter_below validateName_bookmarks hc hways
        (h.holds.setBookmarks (htable.remove name) nofun)
    · rw [bookmarkFiles, Option.map_eq_none_iff] at hnone
      exact Represents.without ⟨loc, dir, h⟩ (k := .bookmark name) (by rw [Refs.read, hnone])
  · refine ((valid_or_refused validateName_bookmarks hempty hslash disk).resolve_left hvalid).mono
      ?_ (fun _ _ _ => trivial)
    rintro _ _ rfl
    exact h.without (k := .bookmark name) (by rw [Refs.read, lookup_bookmark_eq_none h hvalid])

/-! ### The HEAD -/

/-- The HEAD is a file, or it is not there. -/
theorem RepresentsAt.head_file {loc : Location} {dir : WorkingCopy}
    (h : RepresentsAt r disk loc dir refs) {node : Node}
    (hnode : childOf (Utf8.encode "HEAD") dir = some node) :
    ∃ contents, node = .file contents false := by
  rw [h.holds.head, Option.map_eq_some_iff] at hnode
  obtain ⟨id, -, rfl⟩ := hnode
  exact ⟨_, rfl⟩

theorem headPath_eq (r : FsRefStore H) :
    r.headPath = ⟨r.root ++ [Utf8.encode "HEAD"], false⟩ := by
  rw [headPath, RepresentsAt.path_eq r (by simp [validateName_HEAD])]
  simp

theorem RepresentsAt.head_not_way {loc : Location} {dir : WorkingCopy}
    (h : RepresentsAt r disk loc dir refs) (node : Node)
    (hnode : childOf (Utf8.encode "HEAD") dir = some node) : node.shape.isWay = false := by
  obtain ⟨contents, rfl⟩ := h.head_file hnode
  rfl

/-- A change of the HEAD alone. -/
theorem RepresentsAt.alter_head {loc : Location} {dir : WorkingCopy}
    (h : RepresentsAt r disk loc dir refs) {f : WorkingCopy → WorkingCopy} (hf : KeepsWays f dir)
    (hother : ∀ name, name ≠ Utf8.encode "HEAD" → childOf name (f dir) = childOf name dir)
    {value : Option ChangeId}
    (hhead : childOf (Utf8.encode "HEAD") (f dir) =
      value.map fun id => .file (Utf8.encode id) false)
    (htrim : ∀ id, value = some id → trim id = id) :
    Represents r (alter f loc disk) (refs.write (.head value)) := by
  refine h.alter_here hf ?_
  exact
    { changes := by rw [hother _ (encode_ne (by decide))]; exact h.holds.changes
      bookmarks := by rw [hother _ (encode_ne (by decide))]; exact h.holds.bookmarks
      head := hhead
      tmp := by rw [hother _ (encode_ne (by decide))]; exact h.holds.tmp
      targets := h.holds.targets
      current := htrim }

/-- **Setting the HEAD** sets it, when nothing is trimmed off. -/
theorem setHead_spec (h : Represents r disk refs) {change : ChangeId}
    (htrim : trim change = change) :
    Post (r.setHead change) disk
      (fun _ disk' => Represents r disk' (refs.write (.head (some change))))
      (fun _ _ => True) := by
  obtain ⟨loc, dir, h⟩ := h
  have htmp : childOf (Utf8.encode (".tmp-" ++ "HEAD")) dir = none := h.holds.tmp
  rw [setHead, headPath_eq]
  refine (atomicWrite_spec h.nul h.leads h.there validateName_HEAD htmp (fun children hnode => ?_)
    _).mono ?_ (fun _ _ _ => trivial)
  · obtain ⟨contents, hfile⟩ := h.head_file hnode
    cases hfile
  · rintro _ _ ⟨-, rfl⟩
    have hchild := childOf_writtenIn htmp (Utf8.encode change)
    refine h.alter_head (keepsWays_writtenIn htmp h.head_not_way) (fun name hne => ?_) ?_ ?_
    · rw [hchild, if_neg hne]
    · rw [hchild, if_pos rfl]
      rfl
    · rintro _ ⟨⟩
      exact htrim

/-- **Clearing the HEAD** takes it away. -/
theorem clearHead_spec (h : Represents r disk refs) :
    Post (r.clearHead) disk
      (fun _ disk' => Represents r disk' (refs.write (.head none)))
      (fun _ _ => True) := by
  obtain ⟨loc, dir, h⟩ := h
  rw [clearHead, removeRef, post_tryCatch, headPath_eq]
  refine (PathFs.removeFile_name h.leads h.there (encode_valid validateName_HEAD).2.1 false).mono
    ?_ ?_
  · rintro _ _ ⟨-, -, rfl⟩
    refine h.alter_head (keepsWays_removeChild h.head_not_way) (fun name hne => ?_) ?_ nofun
    · rw [childOf_removeChild, if_neg hne]
    · rw [childOf_removeChild, if_pos rfl]
      rfl
  · rintro e _ ⟨rfl, hgone⟩
    rw [post_ite]
    refine ⟨fun he => ?_, fun _ => trivial⟩
    have hnone := hgone he
    rw [h.holds.head, Option.map_eq_none_iff] at hnone
    exact Represents.without ⟨loc, dir, h⟩ (k := .head) (by rw [Refs.read, hnone])

/-! ### Reading -/

/-- The text of a file of a bookmark, or of the HEAD. -/
theorem readRef_of_file {path : RawPath} {target : Option ChangeId}
    (hread : r.fs.read disk path =
      match target with
      | some id => .ok (Utf8.encode id)
      | none => .error (.io "No such file or directory (os error 2)"))
    (htrim : ∀ id, target = some id → trim id = id) : r.readRef disk path = .ok target := by
  rw [readRef, PathFs.readToString, hread]
  cases target with
  | none => rfl
  | some id =>
    simp only [bind, Except.bind, Utf8.decode_encode, htrim id rfl]

section Reading

variable (h : Represents r disk refs)

include h

/-- **The record of a change** is the one that was written last. -/
theorem getChange_spec {id : ChangeId} (hid : TreeEntry.validateName id = .ok ())
    (hlen : (Utf8.encode id).length ≤ r.fs.nameMax)
    (hexact : ∀ c, refs.changes.lookup id = some c → r.codec.Exact c.1) :
    r.getChange disk id =
      match refs.changes.lookup id with
      | some c => .ok c.1
      | none => .error (.notFound ("change " ++ id)) := by
  obtain ⟨loc, dir, h⟩ := h
  obtain ⟨children, hc, htable⟩ := h.holds.changes
  rw [getChange, changePath, read_below h validateName_changes hc htable hid hlen, changeFiles]
  cases hlookup : refs.changes.lookup id with
  | none => rfl
  | some c =>
    change Except.mapError Error.json (r.codec.fromSlice (r.codec.toVecPretty c.1)) = _
    rw [hexact c hlookup]
    rfl

/-- **A bookmark** points at what was set last. -/
theorem getBookmark_spec {name : String} (hname : TreeEntry.validateName name = .ok ())
    (hlen : (Utf8.encode name).length ≤ r.fs.nameMax) :
    r.getBookmark disk name = .ok (refs.bookmarks.lookup name) := by
  obtain ⟨loc, dir, h⟩ := h
  obtain ⟨children, hc, htable⟩ := h.holds.bookmarks
  refine readRef_of_file ?_ (h.holds.targets name)
  rw [bookmarkPath, read_below h validateName_bookmarks hc htable hname hlen, bookmarkFiles]
  cases refs.bookmarks.lookup name <;> rfl

/-- **The HEAD** is what was set last. -/
theorem head_spec : r.head disk = .ok refs.head := by
  obtain ⟨loc, dir, h⟩ := h
  have hnames : ∀ n ∈ ["HEAD"], TreeEntry.validateName n = .ok () := by
    simp [validateName_HEAD]
  have hlink : ∀ target, childOf (Utf8.encode "HEAD") dir ≠ some (.symlink target) :=
    fun target hnode => by
      obtain ⟨contents, hfile⟩ := h.head_file hnode
      cases hfile
  refine readRef_of_file ?_ h.holds.current
  rw [headPath_eq, PathFs.read_name h.leads h.there (encode_valid validateName_HEAD).2.1 hlink
    (h.nul_append hnames) h.short, h.holds.head]
  cases refs.head <;> rfl

/-- **The changes that are listed** are those that there are. -/
theorem listChanges_spec : r.listChanges disk = .ok (FiniteMap.sortedKeys refs.changes) := by
  obtain ⟨loc, dir, h⟩ := h
  obtain ⟨children, hc, htable⟩ := h.holds.changes
  have hshown : (fileNames children).filter (fun s => !isHidden s) = fileNames children := by
    refine List.filter_eq_self.mpr fun name hname => ?_
    obtain ⟨contents, ht⟩ := Option.ne_none_iff_exists'.mp (htable.mem_fileNames.mp hname)
    rw [(htable.plain name contents ht).1.2]
    rfl
  rw [listChanges, readDir_below h validateName_changes hc]
  simp only [bind, Except.bind]
  rw [← fileNames, hshown, FiniteMap.sortedKeys_eq htable.nodup_fileNames]
  intro name
  rw [htable.mem_fileNames, changeFiles, ne_eq, Option.map_eq_none_iff,
    Finmap.lookup_eq_none, not_not]

end Reading

/-- The bookmarks among some files of the table. -/
theorem bookmarksOf_eq {loc : Location} {dir children : WorkingCopy}
    (h : RepresentsAt r disk loc dir refs)
    (hc : childOf (Utf8.encode "bookmarks") dir = some (.dir children))
    (htable : HoldsTable r.fs children (bookmarkFiles refs)) {entries : List Bytes}
    (hentries : entries ⊆ children.map Prod.fst) :
    r.bookmarksOf disk entries =
      .ok ((entries.map Utf8.decodeLossy).filterMap (FiniteMap.binding refs.bookmarks)) := by
  induction entries with
  | nil => rfl
  | cons entry rest ih =>
    obtain ⟨hentry, hrest⟩ := List.cons_subset.mp hentries
    obtain ⟨name, contents, rfl, ht⟩ := htable.named_of_mem hentry
    obtain ⟨⟨hvalid, hshown⟩, hlen⟩ := htable.plain name contents ht
    obtain ⟨id, hid, rfl⟩ := Option.map_eq_some_iff.mp ht
    have hpath : ⟨(rawPath r.root ["bookmarks"]).comps ++ [Utf8.encode name], false⟩ =
        rawPath r.root ["bookmarks", name] := by
      rw [path_valid r validateName_bookmarks hvalid,
        RepresentsAt.path_eq r (by simp [validateName_bookmarks])]
      rfl
    have hbinding : FiniteMap.binding refs.bookmarks name = some (name, id) := by
      rw [FiniteMap.binding, hid]
      rfl
    have hread := read_below h validateName_bookmarks hc htable hvalid hlen
    rw [ht] at hread
    rw [bookmarksOf, Utf8.decodeLossy_encode, if_neg (by simp [hshown]), hpath,
      PathFs.readToString, hread, List.map_cons, Utf8.decodeLossy_encode,
      List.filterMap_cons_some hbinding, ih hrest]
    simp only [bind, Except.bind, Utf8.decode_encode, h.holds.targets name id hid]

/-- **The bookmarks that are listed** are those that there are. -/
theorem listBookmarks_spec (h : Represents r disk refs) :
    r.listBookmarks disk = .ok (FiniteMap.sortedBindings refs.bookmarks) := by
  obtain ⟨loc, dir, h⟩ := h
  obtain ⟨children, hc, htable⟩ := h.holds.bookmarks
  rw [listBookmarks, readDir_below h validateName_bookmarks hc]
  simp only [bind, Except.bind]
  rw [bookmarksOf_eq h hc htable (List.Subset.refl _), ← fileNames,
    FiniteMap.sortedBindings_eq htable.nodup_fileNames]
  intro name
  rw [htable.mem_fileNames, bookmarkFiles, ne_eq, Option.map_eq_none_iff,
    Finmap.lookup_eq_none, not_not]

end Operations

end Representing

end FsRefStore

end Tig
