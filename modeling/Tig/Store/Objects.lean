import Mathlib.Data.Finmap
import Tig.Core.Snapshot

set_option relaxedAutoImplicit false
set_option autoImplicit false

/-!
# The object store

Objects lie in files named by their hash, each holding the kind byte followed by the canonical
bytes. Reading checks the content against the name; writing an object whose file exists does
nothing. Leftover temporary files are not part of the model.

## Main definitions

* `Tig.Error` — the errors of the store and of the layers above it.
* `Tig.ObjectStore` with `get`, `put`, `load` — the store, as a finite map of object files.
* `Tig.ObjectStore.Intact` — every object file is what its name says.

## Main results

* `Tig.ObjectStore.get_eq_ok` — what a successful read means.
* `Tig.ObjectStore.get_put` — an object that was put can be read.
* `Tig.ObjectStore.le_put` — putting leaves the other objects alone.
-/

namespace Tig

/-! ## Errors -/

/-- The errors of the store, of the working-copy layer and of the commands. -/
inductive Error where
  | io (msg : String)
  | notFound (what : String)
  | alreadyExists (what : String)
  | core (e : CoreError)
  | json (msg : String)
  | corrupt (msg : String)
  | unsupportedFileKind (path kind : String)
  | escapesWorkdir (path : String)
  | cli (msg : String)
deriving DecidableEq, Repr

/-! ## Frames -/

/-- The content of an object file. -/
def frame (raw : RawObject) : Bytes := raw.kind.tag :: raw.bytes

/-- Read an object file. -/
def unframe : Bytes → Except Error RawObject
  | [] => .error (.corrupt "object file is empty")
  | tag :: rest => ((ObjectKind.fromTag tag).mapError .core).map fun kind => ⟨kind, rest⟩

@[simp] theorem unframe_frame (raw : RawObject) : unframe (frame raw) = .ok raw := by
  simp [unframe, frame, Except.mapError, Except.map]

/-- Only its own kind has a given tag. -/
theorem tag_of_fromTag {b : UInt8} {k : ObjectKind} (h : ObjectKind.fromTag b = .ok k) :
    k.tag = b := by
  unfold ObjectKind.fromTag at h
  split_ifs at h <;> simp_all [ObjectKind.tag] <;> subst h <;> rfl

/-- What was read from a file is framed by the file. -/
theorem frame_of_unframe {bytes : Bytes} {raw : RawObject} (h : unframe bytes = .ok raw) :
    frame raw = bytes := by
  cases bytes with
  | nil => simp [unframe] at h
  | cons tag rest =>
    cases hk : ObjectKind.fromTag tag with
    | error e => simp [unframe, hk, Except.mapError, Except.map] at h
    | ok kind =>
      simp only [unframe, hk, Except.mapError, Except.map, Except.ok.injEq] at h
      subst h
      simp [frame, tag_of_fromTag hk]

/-! ## The store -/

/-- The object files, by hash. -/
abbrev ObjectStore (H : Type) := Finmap fun _ : H => Bytes

namespace ObjectStore

variable {H : Type} [LinearOrder H] [Format H]

/-- Read an object, checking it against its hash. -/
def get (s : ObjectStore H) (h : H) : Except Error RawObject :=
  match s.lookup h with
  | none => .error (.notFound (HashFn.toHex h))
  | some bytes => do
    let raw ← unframe bytes
    (raw.verify h).mapError .core
    .ok raw

/-- Write an object; an object file that exists is left as it is. -/
def put (s : ObjectStore H) (raw : RawObject) : ObjectStore H :=
  if raw.hash H ∈ s then s else s.insert (raw.hash H) (frame raw)

/-- Read a typed object. -/
def load {α : Type} [Encodable H α] (s : ObjectStore H) (h : H) : Except Error α := do
  let raw ← s.get h
  (decode H raw).mapError .core

/-- Every object file is the frame of an object with the hash it is named by. -/
def Intact (s : ObjectStore H) : Prop :=
  ∀ h bytes, s.lookup h = some bytes → ∃ raw : RawObject, bytes = frame raw ∧ raw.hash H = h

/-- The second store has every object of the first, unchanged. -/
def Le (s s' : ObjectStore H) : Prop :=
  ∀ h bytes, s.lookup h = some bytes → s'.lookup h = some bytes

variable {s s' s'' : ObjectStore H} {h : H} {raw : RawObject}

/-- A successful read: the file is there, frames the object, and is rightly named. -/
theorem get_eq_ok : s.get h = .ok raw ↔ s.lookup h = some (frame raw) ∧ raw.hash H = h := by
  unfold get
  cases hs : s.lookup h with
  | none => simp
  | some bytes =>
    simp only [Option.some.injEq]
    constructor
    · intro hget
      cases hu : unframe bytes with
      | error e => simp [hu, bind, Except.bind] at hget
      | ok r =>
        cases hv : r.verify h with
        | error e => simp [hu, hv, bind, Except.bind, Except.mapError] at hget
        | ok u =>
          simp only [hu, hv, bind, Except.bind, Except.mapError, Except.ok.injEq] at hget
          subst hget
          exact ⟨(frame_of_unframe hu).symm, RawObject.verify_eq_ok.mp hv⟩
    · rintro ⟨rfl, hh⟩
      simp [RawObject.verify_eq_ok.mpr hh, bind, Except.bind, Except.mapError]

/-- Only a missing file is reported as not found. -/
theorem get_eq_notFound {what : String} (hget : s.get h = .error (.notFound what)) :
    s.lookup h = none := by
  unfold get at hget
  cases hs : s.lookup h with
  | none => rfl
  | some bytes =>
    exfalso
    simp only [hs] at hget
    cases hu : unframe bytes with
    | error e =>
      cases bytes with
      | nil =>
        simp only [unframe, Except.error.injEq] at hu
        subst hu
        simp [unframe, bind, Except.bind] at hget
      | cons tag rest =>
        cases hk : ObjectKind.fromTag tag <;>
          simp [unframe, hk, Except.mapError, Except.map, bind, Except.bind] at hu hget
    | ok r =>
      cases hv : r.verify h <;>
        simp [hu, hv, bind, Except.bind, Except.mapError] at hget

/-- A read depends on the file of that name only. -/
theorem get_congr (heq : s.lookup h = s'.lookup h) : s.get h = s'.get h := by
  simp [get, heq]

theorem load_congr {α : Type} [Encodable H α] (heq : s.lookup h = s'.lookup h) :
    (s.load h : Except Error α) = s'.load h := by
  simp [load, get_congr heq]

/-- A typed read succeeds when the object can be read and decodes. -/
theorem load_eq_ok {α : Type} [Encodable H α] {a : α} :
    s.load h = .ok a ↔ ∃ raw, s.get h = .ok raw ∧ decode H raw = .ok a := by
  unfold load
  cases hg : s.get h with
  | error e => simp [bind, Except.bind]
  | ok raw =>
    cases hd : (decode H raw : Except CoreError α) <;>
      simp [hd, bind, Except.bind, Except.mapError]

/-- What can be read is stored. -/
theorem mem_of_get (hget : s.get h = .ok raw) : h ∈ s :=
  Finmap.mem_of_lookup_eq_some (get_eq_ok.mp hget).1

theorem mem_of_load {α : Type} [Encodable H α] {a : α} (hload : s.load h = .ok a) : h ∈ s := by
  obtain ⟨raw, hget, -⟩ := load_eq_ok.mp hload
  exact mem_of_get hget

/-! ## Growth -/

omit [Format H] in
@[refl] theorem Le.refl (s : ObjectStore H) : s.Le s := fun _ _ h => h

omit [Format H] in
@[trans] theorem Le.trans (h : s.Le s') (h' : s'.Le s'') : s.Le s'' :=
  fun k b hk => h' k b (h k b hk)

/-- What can be read in a store can be read in a larger one. -/
theorem Le.get (hle : s.Le s') (hget : s.get h = .ok raw) : s'.get h = .ok raw := by
  rw [get_eq_ok] at hget ⊢
  exact ⟨hle h _ hget.1, hget.2⟩

theorem Le.load {α : Type} [Encodable H α] {a : α} (hle : s.Le s') (hload : s.load h = .ok a) :
    s'.load h = .ok a := by
  obtain ⟨raw, hget, hdec⟩ := load_eq_ok.mp hload
  exact load_eq_ok.mpr ⟨raw, hle.get hget, hdec⟩

theorem lookup_put (s : ObjectStore H) (raw : RawObject) (h : H) :
    (s.put raw).lookup h =
      if h = raw.hash H ∧ raw.hash H ∉ s then some (frame raw) else s.lookup h := by
  unfold put
  by_cases hm : raw.hash H ∈ s
  · simp [hm]
  · by_cases hh : h = raw.hash H
    · subst hh
      simp [hm]
    · simp [hm, hh]

theorem mem_put {s : ObjectStore H} {raw : RawObject} {h : H} :
    h ∈ s.put raw ↔ h = raw.hash H ∨ h ∈ s := by
  unfold put
  split_ifs with hm
  · exact ⟨Or.inr, by rintro (rfl | h) <;> assumption⟩
  · exact Finmap.mem_insert

/-- Putting an object leaves the others alone. -/
theorem le_put (s : ObjectStore H) (raw : RawObject) : s.Le (s.put raw) := by
  intro h bytes hs
  rw [lookup_put]
  split_ifs with hc
  · exact absurd (Finmap.mem_of_lookup_eq_some (hc.1 ▸ hs)) hc.2
  · exact hs

/-- The empty store is intact. -/
theorem intact_empty : Intact (∅ : ObjectStore H) := by
  intro h bytes hb
  simp at hb

theorem Intact.put (hs : s.Intact) (raw : RawObject) : (s.put raw).Intact := by
  intro h bytes hb
  rw [lookup_put] at hb
  split_ifs at hb with hc
  · exact ⟨raw, (Option.some.inj hb).symm, hc.1.symm⟩
  · exact hs h bytes hb

/-- **An object that was put can be read.** In an intact store without collisions, a file that
was there already holds the same object. -/
theorem get_put [CollisionFree H] (hs : s.Intact) (raw : RawObject) :
    (s.put raw).get (raw.hash H) = .ok raw := by
  rw [get_eq_ok, lookup_put]
  refine ⟨?_, rfl⟩
  by_cases hm : raw.hash H ∈ s
  · obtain ⟨bytes, hb⟩ := Finmap.mem_iff.mp hm
    obtain ⟨raw', rfl, hh⟩ := hs _ _ hb
    rw [RawObject.hash_inj hh] at hb
    simp [hm, hb]
  · simp [hm]

theorem load_put [LawfulFormat H] {α : Type} [Encodable H α]
    (hc : (Encodable.codec H (α := α)).Lawful) (hs : s.Intact) (a : α) :
    (s.put (encode H a)).load ((encode H a).hash H) = .ok a :=
  load_eq_ok.mpr ⟨_, get_put hs _, decode_encode hc a⟩

end ObjectStore

end Tig
