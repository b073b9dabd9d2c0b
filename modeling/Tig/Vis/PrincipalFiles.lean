import Tig.Cli.Drops
import Tig.Daemon.Api
import Tig.Fs.Resolution

set_option relaxedAutoImplicit false
set_option autoImplicit false

/-!
# The registry on disk

The records of the principals are files of one directory. A record is written to the file that its
id names, and only ids that are plain names are written. A record is read from the file that any
text names: the text is joined to the path of the directory, and the file system reads it.

Around the directory lies a whole disk, and symlinks may be on the way to it.

## Main definitions

* `Tig.validateId` — the ids that are written.
* `Tig.KeysDisk`, `Tig.KeysDisk.get` — the directory on its disk, and reading a record.
* `Tig.KeysDir` — the directories that writing records makes.
* `Tig.respelled` — another text for the same file.

## Main results

* `Tig.KeysDisk.place_respelled` — every text has another spelling that leads to the same place.
* `Tig.KeysDisk.place_valid` — a plain name leads into the directory.
-/

namespace Tig

open Program

/-! ## Records -/

/-- Ids that are no plain name are refused. -/
def validateId (id : String) : Except VisError Unit :=
  if id = "" ∨ '/' ∈ id.toList ∨ '\\' ∈ id.toList ∨ '\x00' ∈ id.toList ∨ id = "." ∨ id = ".." then
    .error (.crypto ("invalid principal id: " ++ debugStr id))
  else .ok ()

/-- Records of a type `R`: the fields of one that are looked at, and its JSON. -/
structure PrincipalCodec (R : Type) where
  principal : R → Principal
  toVecPretty : R → Bytes
  fromSlice : Bytes → Except String R

/-- What was written is read. -/
def PrincipalCodec.Exact {R : Type} (codec : PrincipalCodec R) : Prop :=
  ∀ r, codec.fromSlice (codec.toVecPretty r) = .ok r

/-- The name of the file of a record. -/
def recordName (id : String) : String := id ++ ".json"

theorem recordName_injective : Function.Injective recordName := by
  intro a b h
  have hlist := congrArg String.toList h
  rw [recordName, recordName, String.toList_append, String.toList_append] at hlist
  exact String.toList_inj.mp (List.append_cancel_right hlist)

/-! ## The disk -/

/-- A disk, the components of the path of the directory `vis/keys`, and what the file system does:
how many symlinks it follows, and what reading something else than a file or a directory gives. -/
structure KeysDisk where
  root : WorkingCopy
  links : Nat
  keys : List Bytes
  special : Node → Except Error Bytes

namespace KeysDisk

variable (disk : KeysDisk)

/-- The path of a record. -/
def pathFor (id : String) : RawPath := RawPath.join ⟨disk.keys, false⟩ (recordName id)

/-- Where the path of a record leads, and whether a slash follows there. -/
def place (id : String) : Except Error (Spot × Bool) := do
  checkNul (disk.pathFor id)
  fileSpot disk.root disk.links [] (disk.pathFor id).comps (disk.pathFor id).slash

/-- Read a file. -/
def read (spot : Spot) (slash : Bool) : Except Error Bytes :=
  match spot with
  | .directory _ => .error (.io "Is a directory (os error 21)")
  | .entry loc name =>
    match nodeOf disk.root loc name with
    | none => .error (.io "No such file or directory (os error 2)")
    | some (.file bytes _) =>
      if slash then .error (.io "Not a directory (os error 20)") else .ok bytes
    | some (.dir _) => .error (.io "Is a directory (os error 21)")
    | some node => disk.special node

/-- Read the file of a record. -/
def readRecord (id : String) : Except Error Bytes := do
  let (spot, slash) ← disk.place id
  disk.read spot slash

/-- Read a record. A file that is not there is an unknown identity. -/
def get {R : Type} (codec : PrincipalCodec R) (id : String) : Except VisError R :=
  match disk.readRecord id with
  | .error (.io "No such file or directory (os error 2)") => .error (.identityNotFound id)
  | .error e => .error (.io e.toText)
  | .ok bytes => (codec.fromSlice bytes).mapError .json

variable {disk} in
theorem get_eq_ok {R : Type} {codec : PrincipalCodec R} {id : String} {record : R} :
    disk.get codec id = .ok record ↔
      ∃ bytes, disk.readRecord id = .ok bytes ∧ codec.fromSlice bytes = .ok record := by
  unfold get
  split
  · simp_all
  · simp_all
  · rename_i bytes hread
    rw [hread]
    cases hs : codec.fromSlice bytes <;> simp [Except.mapError, hs]

variable {disk} in
/-- Only a path without a NUL is read. -/
theorem checkNul_of_readRecord {id : String} {bytes : Bytes}
    (h : disk.readRecord id = .ok bytes) : checkNul (disk.pathFor id) = .ok () := by
  obtain ⟨_, hplace, -⟩ := except_bind_eq_ok.mp h
  obtain ⟨_, hnul, -⟩ := except_bind_eq_ok.mp hplace
  exact hnul

/-- The registry, as the daemon looks at it. -/
def store {R : Type} (codec : PrincipalCodec R) : PrincipalStore :=
  fun id => (disk.get codec id).map codec.principal

end KeysDisk

/-- The directory after a record was written: to a temporary file, which is then renamed. -/
def putRecord {R : Type} (codec : PrincipalCodec R) (record : R) (dir : WorkingCopy) : WorkingCopy :=
  let name := recordName (codec.principal record).id
  putChild (Utf8.encode name) (.file (codec.toVecPretty record) false)
    (removeChild (Utf8.encode (".tmp-" ++ name)) dir)

/-- Write a record, if its id is a plain name. -/
def putPrincipal {R : Type} (codec : PrincipalCodec R) (record : R) (dir : WorkingCopy) :
    Except VisError WorkingCopy := do
  validateId (codec.principal record).id
  .ok (putRecord codec record dir)

/-- The directories that writing records makes, from an empty one on. -/
inductive KeysDir {R : Type} (codec : PrincipalCodec R) : WorkingCopy → Prop
  | empty : KeysDir codec []
  | put {record : R} {dir dir' : WorkingCopy} :
      KeysDir codec dir → putPrincipal codec record dir = .ok dir' → KeysDir codec dir'

/-- Every file of such a directory is the record of the id that names it. -/
theorem KeysDir.childOf {R : Type} {codec : PrincipalCodec R} {dir : WorkingCopy}
    (h : KeysDir codec dir) {name : Bytes} {node : Node} (hnode : Tig.childOf name dir = some node) :
    ∃ record, validateId (codec.principal record).id = .ok () ∧
      name = Utf8.encode (recordName (codec.principal record).id) ∧
      node = .file (codec.toVecPretty record) false := by
  induction h with
  | empty => cases hnode
  | put _ hput ih =>
    obtain ⟨_, hvalid, hput⟩ := except_bind_eq_ok.mp hput
    obtain rfl := Except.ok.inj hput
    rw [putRecord, childOf_putChild] at hnode
    split_ifs at hnode with hname
    · exact ⟨_, hvalid, hname, (Option.some.inj hnode).symm⟩
    · rw [childOf_removeChild] at hnode
      split_ifs at hnode
      exact ih hnode

/-! ## Two spellings of one path -/

theorem spotOf_dot (root : WorkingCopy) (links : Nat) (start : Location) (before : List Bytes)
    {after : List Bytes} (hafter : after ≠ []) :
    spotOf root links start (before ++ [46] :: after) = spotOf root links start (before ++ after) := by
  obtain ⟨last, hlast⟩ : ∃ last, after.getLast? = some last :=
    ⟨after.getLast hafter, List.getLast?_eq_some_getLast hafter⟩
  have hdot : (before ++ [46] :: after).getLast? = some last := by
    rw [List.getLast?_append, List.getLast?_cons, hlast]
    rfl
  have hplain : (before ++ after).getLast? = some last := by
    rw [List.getLast?_append, hlast]
    rfl
  rw [spotOf, spotOf, hdot, hplain]
  dsimp only
  rw [walk_dot, List.dropLast_append_cons, List.dropLast_append_of_ne_nil hafter,
    List.dropLast_cons_of_ne_nil hafter, walk_dot]

theorem fileSpot_dot (root : WorkingCopy) (links : Nat) (start : Location) (before : List Bytes)
    {after : List Bytes} (hafter : after ≠ []) (slash : Bool) :
    fileSpot root links start (before ++ [46] :: after) slash =
      fileSpot root links start (before ++ after) slash := by
  have hwith : ∀ follow, fileSpotWith follow root links start (before ++ [46] :: after) slash =
      fileSpotWith follow root links start (before ++ after) slash := by
    intro follow
    unfold fileSpotWith
    rw [spotOf_dot root links start before hafter]
  cases links with
  | zero => exact hwith _
  | succ links => exact hwith _

/-! ## Components -/

theorem components_slash (bytes : Bytes) : components (47 :: bytes) = components bytes := by
  simp [components, List.splitOn, List.splitOnP_cons_eq_if_modifyHead]

theorem components_dot_slash (bytes : Bytes) :
    components (46 :: 47 :: bytes) = [46] :: components bytes := by
  simp [components, List.splitOn, List.splitOnP_cons_eq_if_modifyHead]

/-- A path that is not made of slashes only has a component. -/
theorem components_ne_nil {bytes : Bytes} {b : UInt8} (hmem : b ∈ bytes) (hb : b ≠ 47) :
    components bytes ≠ [] := by
  induction bytes with
  | nil => cases hmem
  | cons c bytes ih =>
    by_cases hc : c = 47
    · subst hc
      rw [components_slash]
      exact ih ((List.mem_cons.mp hmem).resolve_left hb)
    · obtain ⟨first, rest, hsplit⟩ := List.exists_cons_of_ne_nil
        (List.splitOnP_ne_nil (fun x => x == 47) bytes)
      have hcons : (c :: bytes).splitOn 47 = (c :: first) :: rest := by
        rw [List.splitOn, List.splitOnP_cons_eq_if_modifyHead, if_neg (by simpa using hc), hsplit]
        rfl
      rw [components, hcons]
      simp

/-- Another text for the file that a text names. -/
def respelled (id : String) : String :=
  if id.toList.head? = some '/' then "/." ++ id else "./" ++ id

theorem respelled_ne (id : String) : respelled id ≠ id := by
  intro h
  have hlen := congrArg (fun s => s.toList.length) h
  unfold respelled at hlen
  split_ifs at hlen <;> simp only [String.toList_append, List.length_append] at hlen
  · have htwo : "/.".toList.length = 2 := rfl
    omega
  · have htwo : "./".toList.length = 2 := rfl
    omega

theorem encode_append (a b : String) : Utf8.encode (a ++ b) = Utf8.encode a ++ Utf8.encode b := by
  rw [Utf8.encode, String.toList_append, List.flatMap_append, Utf8.encode, Utf8.encode]

/-- The encoding of a string starts with a slash when the string does. -/
theorem head_encode {s : String} (h : (Utf8.encode s).head? = some 47) :
    s.toList.head? = some '/' := by
  unfold Utf8.encode at h
  cases hs : s.toList with
  | nil =>
    rw [hs] at h
    cases h
  | cons c cs =>
    rw [hs, List.flatMap_cons] at h
    obtain ⟨b, rest, hc⟩ := List.exists_cons_of_ne_nil (String.utf8EncodeChar_ne_nil (c := c))
    rw [hc] at h
    obtain rfl := Option.some.inj h
    have hmem : (47 : UInt8) ∈ String.utf8EncodeChar c := by
      rw [hc]
      exact List.mem_cons_self
    have hnat : c.toNat = 47 := Utf8.toNat_of_mem_utf8EncodeChar hmem (by decide)
    rw [List.head?_cons, ← Char.ofNat_toNat c, hnat]

theorem join_absolute (path : RawPath) {name : String} {rest : Bytes}
    (h : Utf8.encode name = 47 :: rest) :
    path.join name = ⟨components rest, decide ((47 :: rest).getLast? = some 47)⟩ := by
  rw [RawPath.join, h, if_pos List.head?_cons, components_slash]

theorem join_relative (path : RawPath) {name : String} (h : (Utf8.encode name).head? ≠ some 47)
    (hne : Utf8.encode name ≠ []) :
    path.join name = ⟨path.comps ++ components (Utf8.encode name),
      decide ((Utf8.encode name).getLast? = some 47)⟩ := by
  rw [RawPath.join, if_neg h, if_neg hne]

/-- The path of another spelling has a dot more. -/
theorem KeysDisk.pathFor_respelled (disk : KeysDisk) (id : String) :
    ∃ before after slash, after ≠ [] ∧ disk.pathFor id = ⟨before ++ after, slash⟩ ∧
      disk.pathFor (respelled id) = ⟨before ++ [46] :: after, slash⟩ := by
  have hn : (110 : UInt8) ∈ Utf8.encode (recordName id) := by
    rw [recordName, encode_append]
    exact List.mem_append_right _ (by decide)
  have hne : Utf8.encode (recordName id) ≠ [] := List.ne_nil_of_mem hn
  unfold respelled KeysDisk.pathFor
  split_ifs with hroot
  · -- an absolute text starts over at the root, and the dot goes behind the slash
    obtain ⟨cs, hcs⟩ := List.head?_eq_some_iff.mp hroot
    obtain ⟨rest, hrest⟩ : ∃ rest, Utf8.encode (recordName id) = 47 :: rest := by
      rw [recordName, Utf8.encode, String.toList_append, hcs]
      exact ⟨_, rfl⟩
    have hrespelled : Utf8.encode (recordName ("/." ++ id)) = 47 :: 46 :: 47 :: rest := by
      rw [recordName, String.append_assoc, encode_append, ← recordName, hrest]
      rfl
    rw [hrest] at hn
    refine ⟨[], components rest, _,
      components_ne_nil ((List.mem_cons.mp hn).resolve_left (by decide)) (by decide),
      join_absolute _ hrest, ?_⟩
    rw [join_absolute _ hrespelled, components_dot_slash, List.getLast?_cons_cons,
      List.getLast?_cons_cons]
    rfl
  · have hhead : (Utf8.encode (recordName id)).head? ≠ some 47 := by
      intro h
      have hslash := head_encode h
      rw [recordName, String.toList_append, List.head?_append] at hslash
      cases hid : id.toList.head? with
      | none =>
        rw [hid] at hslash
        cases hslash
      | some c =>
        rw [hid] at hslash
        exact hroot (hid.trans hslash)
    have hrespelled : Utf8.encode (recordName ("./" ++ id)) =
        46 :: 47 :: Utf8.encode (recordName id) := by
      rw [recordName, String.append_assoc, encode_append, ← recordName]
      rfl
    refine ⟨disk.keys, components (Utf8.encode (recordName id)), _,
      components_ne_nil hn (by decide), join_relative _ hhead hne, ?_⟩
    have hfirst : (Utf8.encode (recordName ("./" ++ id))).head? ≠ some 47 := by
      rw [hrespelled, List.head?_cons]
      decide
    rw [join_relative _ hfirst (by rw [hrespelled]; exact List.cons_ne_nil _ _), hrespelled,
      components_dot_slash]
    obtain ⟨b, rest, hrest⟩ := List.exists_cons_of_ne_nil hne
    rw [hrest, List.getLast?_cons_cons, List.getLast?_cons_cons]

/-- Every text has another spelling that leads to the same place. -/
theorem KeysDisk.place_respelled (disk : KeysDisk) (id : String) :
    disk.place (respelled id) = disk.place id := by
  obtain ⟨before, after, slash, hafter, hpath, hpath'⟩ := disk.pathFor_respelled id
  have hnul : checkNul ⟨before ++ [46] :: after, slash⟩ = checkNul ⟨before ++ after, slash⟩ := by
    simp [checkNul]
  rw [KeysDisk.place, KeysDisk.place, hpath, hpath', hnul]
  dsimp only
  rw [fileSpot_dot _ _ _ before hafter]

/-! ## Plain names -/

/-- The file of a plain name is a plain name. -/
theorem validateName_recordName {id : String} (h : validateId id = .ok ()) :
    TreeEntry.validateName (recordName id) = .ok () := by
  unfold validateId at h
  split_ifs at h with hbad
  push Not at hbad
  obtain ⟨-, hslash, -, hnul, -⟩ := hbad
  have hlist : (recordName id).toList = id.toList ++ ".json".toList := String.toList_append
  have hlen : (recordName id).toList.length = id.toList.length + 5 := by
    rw [hlist, List.length_append]
    rfl
  have hne : ∀ s : String, s.toList.length < 5 → recordName id ≠ s := by
    rintro s hs rfl
    omega
  refine if_neg ?_
  rintro (hempty | hdot | hdots | hmem | hmem)
  · exact hne "" (by decide) hempty
  · exact hne "." (by decide) hdot
  · exact hne ".." (by decide) hdots
  · rw [hlist] at hmem
    exact (List.mem_append.mp hmem).elim hslash (by decide)
  · rw [hlist] at hmem
    exact (List.mem_append.mp hmem).elim hnul (by decide)

section Valid

variable {R : Type} {codec : PrincipalCodec R} {disk : KeysDisk} {keysLoc : Location}
  {dir : WorkingCopy} (hwalk : walk disk.root disk.links [] disk.keys = .ok keysLoc)
  (hdir : dirOf disk.root keysLoc = some dir) (hkeys : KeysDir codec dir) {id : String}
  (hid : validateId id = .ok ())

include hid

/-- The path of a plain name. -/
theorem KeysDisk.pathFor_valid :
    disk.pathFor id = ⟨disk.keys ++ [Utf8.encode (recordName id)], false⟩ := by
  have hpath : rawPath disk.keys [recordName id] = _ :=
    rawPath_valid (List.forall_mem_singleton.mpr (validateName_recordName hid))
  exact hpath

include hwalk hdir hkeys

/-- A plain name leads into the directory, to the file of that name. -/
theorem KeysDisk.place_valid (hnul : checkNul (disk.pathFor id) = .ok ()) :
    disk.place id = .ok (.entry keysLoc (Utf8.encode (recordName id)), false) := by
  obtain ⟨-, hdots, -⟩ := encode_valid (validateName_recordName hid)
  have hspot : spotOf disk.root disk.links [] (disk.pathFor id).comps =
      .ok (.entry keysLoc (Utf8.encode (recordName id))) := by
    rw [KeysDisk.pathFor_valid hid]
    simp [spotOf, hdots, hwalk, Except.map]
  have hlink : ∀ target, nodeOf disk.root keysLoc (Utf8.encode (recordName id)) ≠
      some (.symlink target) := by
    intro target hnode
    rw [nodeOf, hdir, Option.bind_some] at hnode
    obtain ⟨_, -, -, hfile⟩ := hkeys.childOf hnode
    cases hfile
  rw [KeysDisk.place, hnul, fileSpot_entry hspot hlink, KeysDisk.pathFor_valid hid]
  rfl

/-- What is read under a plain name is the record with that id. -/
theorem KeysDisk.get_valid (hexact : codec.Exact) {record : R}
    (hget : disk.get codec id = .ok record) : (codec.principal record).id = id := by
  obtain ⟨bytes, hread, hslice⟩ := KeysDisk.get_eq_ok.mp hget
  have hplace := KeysDisk.place_valid hwalk hdir hkeys hid (KeysDisk.checkNul_of_readRecord hread)
  rw [KeysDisk.readRecord, hplace] at hread
  change disk.read (.entry keysLoc (Utf8.encode (recordName id))) false = .ok bytes at hread
  rw [KeysDisk.read, nodeOf, hdir, Option.bind_some] at hread
  cases hnode : childOf (Utf8.encode (recordName id)) dir with
  | none =>
    rw [hnode] at hread
    cases hread
  | some node =>
    obtain ⟨stored, -, hname, rfl⟩ := hkeys.childOf hnode
    rw [hnode] at hread
    obtain rfl := Except.ok.inj hread
    rw [hexact] at hslice
    obtain rfl := Except.ok.inj hslice
    exact (recordName_injective (Utf8.encode_injective hname)).symm

end Valid

end Tig
