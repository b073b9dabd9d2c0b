import Mathlib.Data.Finset.Basic
import Tig.Lib.Inodes
import Tig.Store.Objects

set_option relaxedAutoImplicit false
set_option autoImplicit false

/-!
# Writing an object file

Putting an object, system call by system call. An object whose file exists is not written. Otherwise
its frame goes to a temporary file beside it, in as many writes as the system makes of it, and the
temporary file is renamed. The name of the temporary file is made from the hash, so all that put
one object use one temporary file.

## Main definitions

* `Tig.PutState`, `Tig.PutState.step` — a put, and its next system call.
* `Tig.Race` — puts of one object, at work on one disk.
* `Tig.Race.run` — what comes of a schedule.
* `Tig.readObjectFile` — what a reader makes of the bytes of an object file.
-/

namespace Tig

open Inodes (Disk)

/-- The two names that a put of an object uses. -/
inductive ObjectName where
  /-- `<fanout>/.tmp-<rest>` -/
  | tmp
  /-- `<fanout>/<rest>` -/
  | final
deriving DecidableEq, Repr

variable {H : Type} [LinearOrder H] [Format H]

/-- What a reader makes of the bytes of an object file. -/
def readObjectFile (h : H) (bytes : Bytes) : Except Error RawObject := do
  let raw ← unframe bytes
  (raw.verify h).mapError .core
  .ok raw

/-- Reading an object is reading its file. -/
theorem ObjectStore.get_eq_readObjectFile {s : ObjectStore H} {h : H} {bytes : Bytes}
    (hs : s.lookup h = some bytes) : s.get h = readObjectFile h bytes := by
  rw [ObjectStore.get, hs]
  rfl

/-- The frame of an object reads as the object. -/
theorem readObjectFile_frame (raw : RawObject) :
    readObjectFile (raw.hash H) (frame raw) = .ok raw := by
  rw [readObjectFile, unframe_frame]
  change (raw.verify (raw.hash H)).mapError Error.core >>= _ = _
  rw [RawObject.verify_eq_ok.mpr rfl]
  rfl

/-- How far a put has come. -/
inductive PutState (H : Type) where
  | start
  /-- There is no object file, so one has to be written. -/
  | missing
  /-- The temporary file is open, and `written` bytes have been written to it. -/
  | writing (fd written : Nat)
  | done (result : Except Error H)

/-- The put has its temporary file open. -/
def PutState.Writing (p : PutState H) : Prop := ∃ fd k, p = .writing fd k

/-- The put has returned. -/
def PutState.Done (p : PutState H) : Prop := ∃ r, p = .done r

/-- The next system call of a put. A write takes `size` bytes, which is up to the system. -/
def PutState.step (raw : RawObject) (size : Nat) (d : Disk ObjectName) :
    PutState H → Option (PutState H × Disk ObjectName)
  | .start =>
    if (d.link .final).isSome then some (.done (.ok (raw.hash H)), d) else some (.missing, d)
  | .missing => some (.writing (d.create .tmp).1 0, (d.create .tmp).2)
  | .writing fd k =>
    if k < (frame raw).length then
      if 0 < size ∧ k + size ≤ (frame raw).length then
        some (.writing fd (k + size), d.writeAt fd k (((frame raw).drop k).take size))
      else none
    else
      match d.rename .tmp .final with
      | some d' => some (.done (.ok (raw.hash H)), d')
      | none => some (.done (.error (.io "No such file or directory (os error 2)")), d)
  | .done _ => none

/-- Puts of one object, at work on one disk. -/
structure Race (ι H : Type) where
  disk : Disk ObjectName
  puts : ι → PutState H

variable {ι : Type} [DecidableEq ι]

/-- The put `i` makes its next system call. -/
def Race.step (raw : RawObject) (s : Race ι H) (i : ι) (size : Nat) : Option (Race ι H) :=
  ((s.puts i).step raw size s.disk).map fun next => ⟨next.2, Function.update s.puts i next.1⟩

/-- The puts make their system calls in the order of a schedule. -/
def Race.run (raw : RawObject) (s : Race ι H) : List (ι × Nat) → Option (Race ι H)
  | [] => some s
  | (i, size) :: rest => (s.step raw i size).bind fun s' => s'.run raw rest

end Tig
