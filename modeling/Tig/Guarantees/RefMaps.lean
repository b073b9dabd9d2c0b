import Tig.Daemon.Handlers
import Tig.Store.RefFiles

set_option relaxedAutoImplicit false
set_option autoImplicit false

/-!
# The refs on disk are finite maps

Every call that writes a ref writes one entry of the refs. In a run of calls from a new store the
files stand for the entries written so far, as long as a call writes under a name that is listed,
what it writes has no white space around it, and a deletion stays clear of the files of other refs.

## Main definitions

* `Tig.RefWrite` — the calls that write refs; `Tig.RefWrite.entry` is what a call writes.
* `Tig.RefRun` — runs of calls that return `Ok`.
* `Tig.mapsAfter` — the refs as finite maps, after calls.
* `Tig.Answers` — what the calls that read return is what the maps say.
* `Tig.RefWrite.Faithful` — what a call may do for the files to stand for the maps.

## Main results

* `Tig.RefWrite.represents` — one call is one write to the maps.
* `Tig.fsRefStore_refines` — in every run of such calls the store answers as the maps do.
* `Tig.not_fsRefStore_refines` — a bookmark can be lost to the temporary file of another one.
-/

namespace Tig

open Program FsRefStore

variable {H : Type}

/-! ## Runs -/

/-- The calls that write refs. -/
inductive RefWrite (H : Type) where
  | putChange (change : Change H)
  | deleteChange (id : ChangeId)
  | setBookmark (name : String) (change : ChangeId)
  | deleteBookmark (name : String)
  | setHead (change : ChangeId)
  | clearHead

namespace RefWrite

/-- What the store does. -/
def run (r : FsRefStore H) : RefWrite H → DirM Unit
  | putChange change => r.putChange change
  | deleteChange id => r.deleteChange id
  | setBookmark name change => r.setBookmark name change
  | deleteBookmark name => r.deleteBookmark name
  | setHead change => r.setHead change
  | clearHead => r.clearHead

/-- What is written, as an entry of the refs. -/
def entry : RefWrite H → RefSnapshot H
  | putChange change => .ofChange change
  | deleteChange id => .change id none
  | setBookmark name change => .bookmark name (some change)
  | deleteBookmark name => .bookmark name none
  | setHead change => .head (some change)
  | clearHead => .head none

/-- The ids are accepted in requests, and the names can be names of bookmarks. -/
def Accepted : RefWrite H → Prop
  | putChange change => parseChangeId change.id = .ok change.id
  | deleteChange id => parseChangeId id = .ok id
  | setBookmark name change => isInvalidName name = false ∧ parseChangeId change = .ok change
  | deleteBookmark name => isInvalidName name = false
  | setHead change => parseChangeId change = .ok change
  | clearHead => True

/-- The call writes under a name that is listed and something that is read back as it is; or it
deletes, and no file that belongs to another ref. -/
def Faithful (r : FsRefStore H) (disk : WorkingCopy) : RefWrite H → Prop
  | putChange change => IsPlainName change.id
  | deleteChange id => '/' ∈ id.toList → r.Elsewhere disk (r.changePath id)
  | setBookmark name change => isHidden name = false ∧ trim change = change
  | deleteBookmark _ => True
  | setHead change => trim change = change
  | clearHead => True

end RefWrite

/-- Runs of calls that return `Ok`. Every call meets `ok` on the disk it finds. -/
inductive RefRun (r : FsRefStore H) (ok : WorkingCopy → RefWrite H → Prop) (disk : WorkingCopy) :
    List (RefWrite H) → WorkingCopy → Prop
  | start : RefRun r ok disk [] disk
  | call {calls : List (RefWrite H)} {disk' disk'' : WorkingCopy} {c : RefWrite H}
      (h : RefRun r ok disk calls disk') (haccepted : c.Accepted) (hok : ok disk' c)
      (hrun : c.run r disk' = .ok () disk'') : RefRun r ok disk (calls ++ [c]) disk''

/-! ## The maps -/

/-- The refs after calls, from a new store on. -/
def mapsAfter (calls : List (RefWrite H)) : Refs H :=
  calls.foldl (fun refs c => refs.write c.entry) Refs.empty

theorem mapsAfter_concat (calls : List (RefWrite H)) (c : RefWrite H) :
    mapsAfter (calls ++ [c]) = (mapsAfter calls).write c.entry := by
  rw [mapsAfter, List.foldl_append]
  rfl

/-- What was written last for a ref; at first there is nothing. -/
def lastWritten (calls : List (RefWrite H)) (k : RefKey) : RefSnapshot H :=
  ((calls.reverse.find? fun c => c.entry.key = k).map RefWrite.entry).getD (Refs.empty.read k)

/-- **The maps have what was written last.** -/
theorem mapsAfter_read (calls : List (RefWrite H)) (k : RefKey) :
    (mapsAfter calls).read k = lastWritten calls k := by
  induction calls using List.reverseRecOn with
  | nil => rfl
  | append_singleton calls c ih =>
    rw [mapsAfter_concat, lastWritten, List.reverse_append, List.reverse_singleton,
      List.singleton_append]
    by_cases hk : c.entry.key = k
    · subst hk
      rw [List.find?_cons_of_pos (by simp), Refs.read_write]
      rfl
    · rw [List.find?_cons_of_neg (by simpa using hk), Refs.read_write_of_ne _ _ _ (Ne.symm hk), ih]
      rfl

/-- The records in the maps have been put. -/
theorem putChange_of_lookup {calls : List (RefWrite H)} {id : ChangeId} {c : ChangeAt H id}
    (h : (mapsAfter calls).changes.lookup id = some c) : RefWrite.putChange c.1 ∈ calls := by
  have hlast := mapsAfter_read calls (.change id)
  rw [Refs.read, h, lastWritten] at hlast
  cases hfind : calls.reverse.find? fun c => c.entry.key = .change id with
  | none =>
    rw [hfind] at hlast
    cases hlast
  | some call =>
    rw [hfind] at hlast
    have hmem := List.mem_reverse.mp (List.mem_of_find?_eq_some hfind)
    change RefSnapshot.change id (some c) = call.entry at hlast
    cases call with
    | putChange change =>
      rw [RefWrite.entry, RefSnapshot.ofChange] at hlast
      injection hlast with hid hvalue
      subst hid
      obtain rfl := Option.some.inj (eq_of_heq hvalue)
      exact hmem
    | _ => cases hlast

/-! ## What is read -/

/-- The calls that read return what the maps say, for these ids and these names of bookmarks. -/
structure Answers (r : FsRefStore H) (disk : WorkingCopy) (refs : Refs H)
    (ids : ChangeId → Prop) (names : String → Prop) : Prop where
  getChange : ∀ id, ids id → r.getChange disk id =
    match refs.changes.lookup id with
    | some c => .ok c.1
    | none => .error (.notFound ("change " ++ id))
  getBookmark : ∀ name, names name → r.getBookmark disk name = .ok (refs.bookmarks.lookup name)
  head : r.head disk = .ok refs.head
  listChanges : r.listChanges disk = .ok (FiniteMap.sortedKeys refs.changes)
  listBookmarks : r.listBookmarks disk = .ok (FiniteMap.sortedBindings refs.bookmarks)

/-- A file can have this name. -/
def FsRefStore.IsFileName (r : FsRefStore H) (name : String) : Prop :=
  TreeEntry.validateName name = .ok () ∧ (Utf8.encode name).length ≤ r.fs.nameMax

/-- The path of an id leads to nothing. -/
def FsRefStore.LeadsNowhere (r : FsRefStore H) (disk : WorkingCopy) (id : ChangeId) : Prop :=
  r.fs.read disk (r.changePath id) = .error (.io "No such file or directory (os error 2)")

/-- No change has an id that leads to nothing. -/
theorem FsRefStore.Represents.lookup_of_leadsNowhere {r : FsRefStore H} {disk : WorkingCopy}
    {refs : Refs H} (h : Represents r disk refs) {id : ChangeId} (hid : r.LeadsNowhere disk id) :
    refs.changes.lookup id = none := by
  by_cases hvalid : TreeEntry.validateName id = .ok ()
  · obtain ⟨loc, dir, h⟩ := h
    obtain ⟨children, hc, htable⟩ := h.holds.changes
    by_contra hne
    obtain ⟨c, hlookup⟩ := Option.ne_none_iff_exists'.mp hne
    have hfile : r.changeFiles refs id = some (r.codec.toVecPretty c.1) := by
      rw [changeFiles, hlookup]
      rfl
    have hread := read_below h validateName_changes hc htable hvalid (htable.plain _ _ hfile).2
    rw [hfile] at hread
    cases hread.symm.trans hid
  · exact lookup_change_eq_none h hvalid

/-- **Files that stand for refs** are read as these refs. -/
theorem FsRefStore.Represents.answers {r : FsRefStore H} {disk : WorkingCopy} {refs : Refs H}
    (h : Represents r disk refs)
    (hexact : ∀ id c, refs.changes.lookup id = some c → r.codec.Exact c.1) :
    Answers r disk refs (fun id => r.IsFileName id ∨ r.LeadsNowhere disk id) r.IsFileName where
  getChange id hid := by
    rcases hid with ⟨hvalid, hlen⟩ | hid
    · exact getChange_spec h hvalid hlen (hexact id)
    · rw [h.lookup_of_leadsNowhere hid, FsRefStore.getChange, hid]
      rfl
  getBookmark name hname := getBookmark_spec h hname.1 hname.2
  head := head_spec h
  listChanges := listChanges_spec h
  listBookmarks := listBookmarks_spec h

/-! ## What runs keep -/

/-- **One call** is one write to the maps. -/
theorem RefWrite.represents {r : FsRefStore H} {disk : WorkingCopy} {refs : Refs H}
    (h : Represents r disk refs) (c : RefWrite H) (haccepted : c.Accepted)
    (hfaithful : c.Faithful r disk) :
    Post (c.run r) disk (fun _ disk' => Represents r disk' (refs.write c.entry))
      (fun _ _ => True) := by
  cases c with
  | putChange change => exact putChange_spec h hfaithful
  | deleteChange id =>
    by_cases hslash : '/' ∈ id.toList
    · exact deleteChange_elsewhere h hslash (hfaithful hslash)
    · exact deleteChange_spec h (parseChangeId_eq_ok.mp haccepted).1 hslash
  | setBookmark name change => exact setBookmark_spec h hfaithful.1 hfaithful.2
  | deleteBookmark name => exact deleteBookmark_spec h (by simp [show _ = false from haccepted])
  | setHead change => exact setHead_spec h hfaithful
  | clearHead => exact clearHead_spec h

/-- **Runs keep** that the files stand for the maps. -/
theorem RefRun.represents {r : FsRefStore H} {disk disk' : WorkingCopy}
    {calls : List (RefWrite H)} (hrun : RefRun r (RefWrite.Faithful r) disk calls disk')
    (h : Represents r disk Refs.empty) : Represents r disk' (mapsAfter calls) := by
  induction hrun with
  | start => exact h
  | call _ haccepted hok hrun ih =>
    rw [mapsAfter_concat]
    exact (RefWrite.represents ih _ haccepted hok).ok hrun

/-- **The store refines finite maps.** After every run of calls from a new store, the calls that
read return what was written last. -/
theorem fsRefStore_refines {r : FsRefStore H} {disk disk₀ disk' : WorkingCopy}
    {calls : List (RefWrite H)} (hfresh : r.Fresh disk) (hopen : r.open disk = .ok () disk₀)
    (hrun : RefRun r (RefWrite.Faithful r) disk₀ calls disk')
    (hexact : ∀ change, .putChange change ∈ calls → r.codec.Exact change) :
    Answers r disk' (mapsAfter calls) (fun id => r.IsFileName id ∨ r.LeadsNowhere disk' id)
        r.IsFileName ∧
      ∀ k, (mapsAfter calls).read k = lastWritten calls k := by
  have hopened : Represents r disk₀ Refs.empty := (open_spec hfresh).ok hopen
  have hrep := hrun.represents hopened
  exact ⟨hrep.answers fun _ c hlookup => hexact c.1 (putChange_of_lookup hlookup),
    mapsAfter_read calls⟩

/-! ## Runs that can be carried out -/

/-- Calls one after the other. -/
def runAll (r : FsRefStore H) : List (RefWrite H) → DirM Unit
  | [] => return ()
  | c :: rest => do
    c.run r
    runAll r rest

/-- Calls that meet `ok` on every disk make a run, if all of them return. -/
theorem RefRun.runAll {r : FsRefStore H} {ok : WorkingCopy → RefWrite H → Prop}
    {disk disk' disk'' : WorkingCopy} {before calls : List (RefWrite H)}
    (h : RefRun r ok disk before disk')
    (hok : ∀ c ∈ calls, c.Accepted ∧ ∀ d, ok d c) (hrun : runAll r calls disk' = .ok () disk'') :
    RefRun r ok disk (before ++ calls) disk'' := by
  induction calls generalizing before disk' with
  | nil =>
    obtain ⟨⟩ := hrun
    rwa [List.append_nil]
  | cons c rest ih =>
    obtain ⟨haccepted, hc⟩ := hok c List.mem_cons_self
    rw [List.append_cons]
    cases hcall : c.run r disk' with
    | ok u d =>
      refine ih (h.call haccepted (hc _) hcall) (fun c' hc' => hok c' (List.mem_cons_of_mem _ hc')) ?_
      rwa [Tig.runAll, run_bind_ok _ hcall] at hrun
    | error e d =>
      rw [Tig.runAll, run_bind_error _ hcall] at hrun
      cases hrun

theorem eq_final {x : DirM Unit} {disk : WorkingCopy} (h : returns x disk = true) :
    x disk = .ok () (final x disk) := by
  obtain ⟨_, hrun⟩ := exists_eq_final h
  exact hrun

namespace NewStore

/-- A repository in the making. -/
def disk : WorkingCopy := [(Utf8.encode ".tig", .dir [])]

/-- The bytes of a hash, one in a line. -/
def hashLines (indent : String) (h : Hash) : String :=
  ",\n".intercalate (h.bytes.map fun b => indent ++ toString b.toNat)

def hash : Hash := ⟨List.replicate 32 7, by simp⟩

def change : Change Hash := Change.new "c1" "the work" "local:alice" hash

/-- The record of the change as it is written. -/
def json : Bytes :=
  Utf8.encode ("\x7b\n  \"id\": \"c1\",\n  \"current\": [\n" ++ hashLines "    " hash ++
    "\n  ],\n  \"description\": \"the work\",\n  \"state\": \"Working\",\n  \"history\": [\n" ++
    "    [\n" ++ hashLines "      " hash ++ "\n    ]\n  ],\n  \"author\": \"local:alice\",\n" ++
    "  \"visibility\": \"Public\"\n\x7d")

/-- The store; the codec knows one record. -/
def store : FsRefStore Hash where
  root := [Utf8.encode ".tig", Utf8.encode "refs"]
  fs := ⟨40, 255, fun _ => .error "Input/output error (os error 5)", fun _ => none⟩
  codec :=
    { toVecPretty := fun c => if c = change then json else []
      fromSlice := fun bytes =>
        if bytes = json then .ok change
        else .error "EOF while parsing a value at line 1 column 0" }

theorem exact_change : store.codec.Exact change := by
  simp only [ChangeCodec.Exact, store, if_true]

def opened : WorkingCopy := final store.open disk

theorem fresh : store.Fresh disk :=
  ⟨[Utf8.encode ".tig"], Utf8.encode "refs", [Utf8.encode ".tig"], [], rfl, by decide +kernel,
    rfl, rfl, rfl⟩

theorem open_disk : store.open disk = .ok () opened := eq_final (by decide +kernel)

/-- A change that is the HEAD and has a bookmark; another bookmark is removed again. -/
def calls : List (RefWrite Hash) :=
  [.putChange change, .setBookmark "next" "c1", .setHead "c1", .setBookmark "main" "c1",
    .deleteBookmark "next", .deleteChange "c0"]

def closed : WorkingCopy := final (runAll store calls) opened

theorem run_calls : RefRun store (RefWrite.Faithful store) opened calls closed := by
  change RefRun _ _ _ ([] ++ calls) _
  refine RefRun.start.runAll (fun c hc => ?_) (eq_final (by decide +kernel))
  simp only [calls, List.mem_cons, List.not_mem_nil, or_false] at hc
  obtain rfl | rfl | rfl | rfl | rfl | rfl := hc
  · exact ⟨rfl, fun _ => ⟨rfl, rfl⟩⟩
  · exact ⟨⟨rfl, rfl⟩, fun _ => ⟨rfl, rfl⟩⟩
  · exact ⟨rfl, fun _ => rfl⟩
  · exact ⟨⟨rfl, rfl⟩, fun _ => ⟨rfl, rfl⟩⟩
  · exact ⟨rfl, fun _ => trivial⟩
  · exact ⟨rfl, fun _ h => absurd h (by decide)⟩

end NewStore

/-- The files of a first change stand for it. -/
theorem fsRefStore_firstChange :
    Answers NewStore.store NewStore.closed (mapsAfter NewStore.calls)
        (fun id => NewStore.store.IsFileName id ∨ NewStore.store.LeadsNowhere NewStore.closed id)
        NewStore.store.IsFileName ∧
      ∀ k, (mapsAfter NewStore.calls).read k = lastWritten NewStore.calls k := by
  refine fsRefStore_refines NewStore.fresh NewStore.open_disk NewStore.run_calls fun c hc => ?_
  simp only [NewStore.calls, List.mem_cons, List.not_mem_nil, or_false, reduceCtorEq,
    RefWrite.putChange.injEq] at hc
  subst hc
  exact NewStore.exact_change

namespace NewStore

/-- The second bookmark is written next to itself, where the first one is. -/
def clash : List (RefWrite Hash) := [.setBookmark ".tmp-main" "c1", .setBookmark "main" "c2"]

def lost : WorkingCopy := final (runAll store clash) opened

theorem run_clash : RefRun store (fun _ _ => True) opened clash lost := by
  change RefRun _ _ _ ([] ++ clash) _
  refine RefRun.start.runAll (fun c hc => ?_) (eq_final (by decide +kernel))
  simp only [clash, List.mem_cons, List.not_mem_nil, or_false] at hc
  obtain rfl | rfl := hc
  · exact ⟨⟨rfl, rfl⟩, fun _ => trivial⟩
  · exact ⟨⟨rfl, rfl⟩, fun _ => trivial⟩

end NewStore

/-- The bookmark `.tmp-main` is lost when `main` is set. -/
theorem not_fsRefStore_refines :
    ¬ ∀ (r : FsRefStore Hash) (disk disk₀ disk' : WorkingCopy) (calls : List (RefWrite Hash)),
      r.Fresh disk → r.open disk = .ok () disk₀ → RefRun r (fun _ _ => True) disk₀ calls disk' →
      (∀ change, .putChange change ∈ calls → r.codec.Exact change) →
      Answers r disk' (mapsAfter calls) (fun id => parseChangeId id = .ok id)
        (fun name => isInvalidName name = false) := by
  intro h
  have hanswers := h NewStore.store _ _ _ _ NewStore.fresh NewStore.open_disk NewStore.run_clash
    fun c hc => by simp [NewStore.clash] at hc
  have hmap := hanswers.getBookmark ".tmp-main" rfl
  have hgone : (NewStore.store.getBookmark NewStore.lost ".tmp-main").toOption = some none := by
    decide +kernel
  have hlast := mapsAfter_read NewStore.clash (.bookmark ".tmp-main")
  rw [hmap] at hgone
  cases hlookup : (mapsAfter NewStore.clash).bookmarks.lookup ".tmp-main" with
  | none =>
    rw [Refs.read, hlookup] at hlast
    cases hlast
  | some id =>
    rw [hlookup] at hgone
    cases hgone

end Tig
