import Mathlib.Algebra.Order.Group.Int
import Tig.Lib.Framing
import Tig.Store.World

set_option relaxedAutoImplicit false
set_option autoImplicit false

/-!
# The file of the log

The log is one file of records, each after its length in four bytes. A record is appended by
writing the length and then the payload; a reader takes the size of the file first and then reads
record after record up to it. Sizes, positions and ids are 64-bit words, and arithmetic that leaves
them is a fault of its own, as is an encoder of records that refuses one.

## Main definitions

* `Tig.OpCodec` — how records are encoded; CBOR is not part of the repository.
* `Tig.readRecords`, `Tig.readAll` — the reader.
* `Tig.openLogFile`, `Tig.appendRecord` — the two operations on a handle.
* `Tig.Reads` — the records that bytes hold.

## Main results

* `Tig.readRecords_of_reads`, `Tig.reads_of_readAll` — the reader reads what the bytes hold.
* `Tig.readRecords_torn` — the reader stops at a torn record, and calls it corrupt.
* `Tig.readRecords_fault` — the reader stops for nothing else than corruption.
-/

namespace Tig

open Program
open Framing (toBytesBE fromBytesBE length_toBytesBE fromBytesBE_toBytesBE Torn)

/-- How records are written to the log and read from it. -/
structure OpCodec (H : Type) where
  intoWriter : Op H → Except String Bytes
  fromReader : Bytes → Except String (Op H)

/-- A codec that decodes what it encoded. -/
def OpCodec.Lawful {H : Type} (c : OpCodec H) : Prop :=
  ∀ op bytes, c.intoWriter op = .ok bytes → c.fromReader bytes = .ok op

/-- A file, whose size is a machine word. -/
@[ext]
structure LogFile where
  bytes : Bytes
  fits : bytes.length < 2 ^ 64

/-- Why work on the log file stops: arithmetic left its range, or there was an error. -/
inductive LogFault where
  | overflow
  | failed (e : Error)

/-! ## Machine words -/

/-- `a - b`, which must not go below zero. -/
def subU64 (a b : Nat) : Except LogFault Nat := if b ≤ a then .ok (a - b) else .error .overflow

/-- `a + b`, which must stay a word. -/
def addU64 (a b : Nat) : Except LogFault Nat :=
  if a + b < 2 ^ 64 then .ok (a + b) else .error .overflow

/-- A word read as a signed number. -/
def asI64 (n : Nat) : Int := Int.bmod n (2 ^ 64)

/-- A signed number read as a word. -/
def asU64 (i : Int) : Nat := (i % 2 ^ 64).toNat

theorem subU64_eq {a b : Nat} (h : b ≤ a) : subU64 a b = .ok (a - b) := if_pos h

theorem addU64_eq {a b : Nat} (h : a + b < 2 ^ 64) : addU64 a b = .ok (a + b) := if_pos h

/-- Small words are themselves as signed numbers. -/
theorem asI64_eq {n : Nat} (h : n < 2 ^ 63) : asI64 n = n := by
  unfold asI64
  rw [Int.bmod_eq_of_le] <;> omega

/-- Small numbers are themselves as words. -/
theorem asU64_eq {n : Nat} (h : n < 2 ^ 64) : asU64 n = n := by
  unfold asU64
  omega

/-! ## Reading -/

variable {H : Type} (codec : OpCodec H)

/-- Read `n` bytes at `pos`. -/
def readExact (file : Bytes) (pos n : Nat) : Except LogFault Bytes :=
  if pos + n ≤ file.length then .ok ((file.drop pos).take n)
  else .error (.failed (.io "failed to fill whole buffer"))

/-- Read the record at `pos`, and find where it ends. -/
def readRecord (file : Bytes) (total pos : Nat) : Except LogFault (Op H × Nat) := do
  let left ← subU64 total pos
  if left < 4 then
    .error (.failed (.corrupt ("oplog truncated header at byte " ++ toString pos)))
  else do
    let lenBuf ← readExact file pos 4
    let pos ← addU64 pos 4
    let len := fromBytesBE lenBuf
    let left ← subU64 total pos
    if left < len then
      .error (.failed (.corrupt ("oplog truncated payload at byte " ++ toString pos ++ " (need " ++
        toString len ++ ")")))
    else do
      let payload ← readExact file pos len
      let pos ← addU64 pos len
      match codec.fromReader payload with
      | .ok op => .ok (op, pos)
      | .error e =>
        .error (.failed (.corrupt ("oplog decode at " ++ toString pos ++ ": " ++ e)))

theorem eq_of_addU64 {a b c : Nat} (h : addU64 a b = .ok c) : c = a + b := by
  unfold addU64 at h
  split_ifs at h
  exact (Except.ok.inj h).symm

/-- A record ends behind its beginning. -/
theorem readRecord_advances {file : Bytes} {total pos next : Nat} {op : Op H}
    (h : readRecord codec file total pos = .ok (op, next)) : pos < next := by
  rw [readRecord, except_bind_eq_ok] at h
  obtain ⟨left, -, h⟩ := h
  split_ifs at h
  simp only [except_bind_eq_ok] at h
  obtain ⟨lenBuf, -, pos₁, hpos₁, left, -, h⟩ := h
  split_ifs at h
  simp only [except_bind_eq_ok] at h
  obtain ⟨payload, -, pos₂, hpos₂, h⟩ := h
  apply eq_of_addU64 at hpos₁
  apply eq_of_addU64 at hpos₂
  cases hdec : codec.fromReader payload with
  | error e =>
    rw [hdec] at h
    cases h
  | ok op' =>
    rw [hdec] at h
    obtain ⟨-, rfl⟩ := Prod.mk.inj (Except.ok.inj h)
    omega

/-- Read the records from `pos` up to `total`, behind those that have been read. -/
def readRecords (file : Bytes) (total pos : Nat) (out : List (Op H)) :
    Except LogFault (List (Op H)) :=
  if _hlt : pos < total then
    match hrec : readRecord codec file total pos with
    | .ok (op, next) =>
      have := readRecord_advances codec hrec
      readRecords file total next (out ++ [op])
    | .error e => .error e
  else .ok out
termination_by total - pos

/-- Read all records of the log. A log that does not exist has none. -/
def readAll (file : Option LogFile) : Except LogFault (List (Op H)) :=
  match file with
  | none => .ok []
  | some f => readRecords codec f.bytes f.bytes.length 0 []

/-- The id after the greatest one among the records. -/
def nextIdAfter (ops : List (Op H)) : OpId :=
  asU64 (ops.foldl (fun max op => if asI64 op.id > max then asI64 op.id else max) (-1) + 1)

/-! ## A handle on the file -/

/-- A process that has the log open: the file, and its handle. -/
structure LogSession where
  file : Option LogFile
  log : FileLog

/-- Programs that work on the log file. -/
abbrev LogM := EStateM LogFault LogSession

/-- Make the file if it is not there. -/
def touchLog : LogM Unit :=
  modify fun st => { st with file := some (st.file.getD ⟨[], by decide⟩) }

/-- Open the log: scan it for the next id. -/
def openLogFile : LogM Unit := do
  touchLog
  let st ← get
  let ops ← fromExcept (readAll codec st.file)
  set { st with log := ⟨nextIdAfter ops⟩ }

/-- The file with bytes written to its end, unless it becomes too large. -/
def LogFile.extend (f : LogFile) (bs : Bytes) : Option LogFile :=
  if h : (f.bytes ++ bs).length < 2 ^ 64 then some ⟨f.bytes ++ bs, h⟩ else none

/-- Write to the end of the file. -/
def writeAll (bs : Bytes) : LogM Unit := do
  touchLog
  let st ← get
  match st.file.bind fun f => f.extend bs with
  | some f => set { st with file := some f }
  | none => throw (.failed (.io "File too large (os error 27)"))

/-- The record that a handle gives an operation. -/
def FileLog.finalize (log : FileLog) (now : Nat) (op : OpInProgress H) : Op H :=
  ⟨log.nextId, now, op.actor, op.kind, op.before, op.after⟩

/-- Append an operation; the clock shows `now`. -/
def appendRecord (now : Nat) (op : OpInProgress H) : LogM (Op H) := do
  let st ← get
  let finalized := st.log.finalize now op
  match codec.intoWriter finalized with
  | .error e => throw (.failed (.corrupt ("oplog encode: " ++ e)))
  | .ok bytes => do
    if 2 ^ 32 ≤ bytes.length then
      throw (.failed (.corrupt "oplog record too large"))
    writeAll (toBytesBE 4 bytes.length)
    writeAll bytes
    let nextId ← fromExcept (addU64 st.log.nextId 1)
    modify fun st => { st with log := ⟨nextId⟩ }
    return finalized

/-! ## What bytes hold -/

/-- The bytes hold the records, one after the other. -/
inductive Reads : Bytes → List (Op H) → Prop
  | nil : Reads [] []
  | cons {payload rest : Bytes} {op : Op H} {ops : List (Op H)} (hlen : payload.length < 2 ^ 32)
      (hop : codec.fromReader payload = .ok op) (hrest : Reads rest ops) :
      Reads (Framing.frame 4 payload ++ rest) (op :: ops)

variable {codec}

/-- What follows other records is read after them. -/
theorem Reads.append {bs bs' : Bytes} {ops ops' : List (Op H)} (h : Reads codec bs ops)
    (h' : Reads codec bs' ops') : Reads codec (bs ++ bs') (ops ++ ops') := by
  induction h with
  | nil => exact h'
  | cons hlen hop _ ih =>
    rw [List.append_assoc]
    exact .cons hlen hop ih

/-- Every record takes at least the four bytes of its length. -/
theorem Reads.le_length {bs : Bytes} {ops : List (Op H)} (h : Reads codec bs ops) :
    4 * ops.length ≤ bs.length := by
  induction h with
  | nil => simp
  | cons hlen hop _ ih =>
    simp only [List.length_cons, List.length_append, Framing.length_frame]
    omega

/-! ## The reader -/

section Reader

variable {file : Bytes} {total pos : Nat}

/-- **One record.** Inside a file whose size is a word, the reader stops only at what it calls
corrupt. -/
theorem readRecord_eq (hpos : pos < total) (htotal : total ≤ file.length)
    (hword : total < 2 ^ 64) :
    readRecord codec file total pos =
      if total - pos < 4 then
        .error (.failed (.corrupt ("oplog truncated header at byte " ++ toString pos)))
      else if total - (pos + 4) < fromBytesBE ((file.drop pos).take 4) then
        .error (.failed (.corrupt ("oplog truncated payload at byte " ++ toString (pos + 4) ++
          " (need " ++ toString (fromBytesBE ((file.drop pos).take 4)) ++ ")")))
      else match codec.fromReader
          ((file.drop (pos + 4)).take (fromBytesBE ((file.drop pos).take 4))) with
        | .ok op => .ok (op, pos + 4 + fromBytesBE ((file.drop pos).take 4))
        | .error e => .error (.failed (.corrupt ("oplog decode at " ++
            toString (pos + 4 + fromBytesBE ((file.drop pos).take 4)) ++ ": " ++ e))) := by
  rw [readRecord, subU64_eq (Nat.le_of_lt hpos)]
  change (if total - pos < 4 then _ else _) = _
  split_ifs with hhead hpayload
  · rfl
  · have hread : readExact file pos 4 = .ok ((file.drop pos).take 4) := if_pos (by omega)
    rw [hread]
    change addU64 pos 4 >>= _ = _
    rw [addU64_eq (by omega)]
    change subU64 total (pos + 4) >>= _ = _
    rw [subU64_eq (by omega)]
    exact if_pos hpayload
  · have hread : readExact file pos 4 = .ok ((file.drop pos).take 4) := if_pos (by omega)
    rw [hread]
    change addU64 pos 4 >>= _ = _
    rw [addU64_eq (by omega)]
    change subU64 total (pos + 4) >>= _ = _
    rw [subU64_eq (by omega)]
    refine (if_neg hpayload).trans ?_
    generalize fromBytesBE ((file.drop pos).take 4) = len at hpayload
    have hbody : readExact file (pos + 4) len = .ok ((file.drop (pos + 4)).take len) :=
      if_pos (by omega)
    rw [hbody]
    change addU64 (pos + 4) len >>= _ = _
    rw [addU64_eq (by omega)]
    rfl

variable {front payload tail : Bytes}

/-- A whole record is read. -/
theorem readRecord_frame {op : Op H} (hlen : payload.length < 2 ^ 32)
    (hop : codec.fromReader payload = .ok op)
    (htotal : total ≤ (front ++ (Framing.frame 4 payload ++ tail)).length)
    (hin : front.length + (Framing.frame 4 payload).length ≤ total) (hword : total < 2 ^ 64) :
    readRecord codec (front ++ (Framing.frame 4 payload ++ tail)) total front.length =
      .ok (op, front.length + (Framing.frame 4 payload).length) := by
  rw [Framing.length_frame] at hin
  have hsize : fromBytesBE (((front ++ (Framing.frame 4 payload ++ tail)).drop
      front.length).take 4) = payload.length := by
    rw [List.drop_left, Framing.frame, List.append_assoc, List.take_left' (length_toBytesBE 4 _)]
    exact fromBytesBE_toBytesBE (by omega)
  have hbody : ((front ++ (Framing.frame 4 payload ++ tail)).drop (front.length + 4)).take
      payload.length = payload := by
    rw [← List.drop_drop, List.drop_left, Framing.frame, List.append_assoc,
      List.drop_left' (length_toBytesBE 4 _), List.take_left]
  rw [readRecord_eq (by omega) htotal hword, hsize, hbody, hop, if_neg (by omega),
    if_neg (by omega), Framing.length_frame, Nat.add_assoc]

/-- The reader goes on behind a record that it has read. -/
theorem readRecords_next {op : Op H} {next : Nat} (hlt : pos < total)
    (hrec : readRecord codec file total pos = .ok (op, next)) (out : List (Op H)) :
    readRecords codec file total pos out = readRecords codec file total next (out ++ [op]) := by
  rw [readRecords, dif_pos hlt]
  split
  · rename_i op' next' hrec'
    obtain ⟨rfl, rfl⟩ := Prod.mk.inj (Except.ok.inj (hrec.symm.trans hrec'))
    rfl
  · rename_i e hrec'
    rw [hrec] at hrec'
    cases hrec'

/-- The reader stops where it cannot read a record. -/
theorem readRecords_stop {e : LogFault} (hlt : pos < total)
    (hrec : readRecord codec file total pos = .error e) (out : List (Op H)) :
    readRecords codec file total pos out = .error e := by
  rw [readRecords, dif_pos hlt]
  split
  · rename_i op next hrec'
    rw [hrec] at hrec'
    cases hrec'
  · rename_i e' hrec'
    rw [← Except.error.inj (hrec.symm.trans hrec')]

/-- A reader that has come to the end of the file is done. -/
theorem readRecords_end (h : total ≤ pos) (out : List (Op H)) :
    readRecords codec file total pos out = .ok out := by
  rw [readRecords, dif_neg (Nat.not_lt.mpr h)]

/-- **What the bytes hold is read**, and then what follows. -/
theorem readRecords_of_reads (front tail : Bytes) {bs : Bytes} {ops : List (Op H)}
    (h : Reads codec bs ops)
    (htotal : total ≤ (front ++ (bs ++ tail)).length) (hin : front.length + bs.length ≤ total)
    (hword : total < 2 ^ 64) (out : List (Op H)) :
    readRecords codec (front ++ (bs ++ tail)) total front.length out =
      readRecords codec (front ++ (bs ++ tail)) total (front.length + bs.length) (out ++ ops) := by
  induction h generalizing front out with
  | nil => simp
  | @cons payload rest op ops hlen hop _ ih =>
    rw [List.length_append] at hin
    have hfile : front ++ (Framing.frame 4 payload ++ rest ++ tail) =
        (front ++ Framing.frame 4 payload) ++ (rest ++ tail) := by simp only [List.append_assoc]
    have hrec : readRecord codec (front ++ (Framing.frame 4 payload ++ rest ++ tail)) total
        front.length = .ok (op, front.length + (Framing.frame 4 payload).length) := by
      rw [List.append_assoc] at htotal ⊢
      exact readRecord_frame hlen hop htotal (by omega) hword
    have hlt : front.length < total := by
      rw [Framing.length_frame] at hin
      omega
    have hrest := ih (front ++ Framing.frame 4 payload) (by rwa [← hfile])
      (by rw [List.length_append]; omega) (out ++ [op])
    rw [← hfile, List.length_append] at hrest
    have hout : out ++ [op] ++ ops = out ++ op :: ops := by simp
    rw [readRecords_next hlt hrec, hrest, hout, List.length_append, Nat.add_assoc]

/-- **A torn record** is reported as corruption. -/
theorem readRecords_torn {rest : Bytes} (htorn : Torn 4 payload rest)
    (hlen : payload.length < 2 ^ 32) (hword : front.length + rest.length < 2 ^ 64)
    (out : List (Op H)) :
    ∃ msg, readRecords codec (front ++ (rest ++ tail)) (front.length + rest.length) front.length
      out = .error (.failed (.corrupt msg)) := by
  have hpos : 0 < rest.length := List.length_pos_iff.mpr htorn.ne_nil
  have htotal : front.length + rest.length ≤ (front ++ (rest ++ tail)).length := by
    simp only [List.length_append]
    omega
  have hrec : ∃ msg, readRecord codec (front ++ (rest ++ tail)) (front.length + rest.length)
      front.length = .error (.failed (.corrupt msg)) := by
    rw [readRecord_eq (by omega) htotal hword]
    rcases htorn.cases with ⟨-, hhead⟩ | ⟨part, rfl, hpart⟩
    · exact ⟨_, if_pos (by omega)⟩
    · have hsize : fromBytesBE (((front ++ (toBytesBE 4 payload.length ++ part ++ tail)).drop
          front.length).take 4) = payload.length := by
        rw [List.drop_left, List.append_assoc, List.take_left' (length_toBytesBE 4 _)]
        exact fromBytesBE_toBytesBE (by omega)
      rw [hsize]
      rw [List.length_append, length_toBytesBE]
      exact ⟨_, (if_neg (by omega)).trans (if_pos (by omega))⟩
  obtain ⟨msg, hrec⟩ := hrec
  exact ⟨msg, readRecords_stop (by omega) hrec out⟩

/-- The reader stops for nothing else than corruption: no arithmetic leaves its range, and no read
goes past the end. -/
theorem readRecords_fault (htotal : total ≤ file.length) (hword : total < 2 ^ 64)
    {out : List (Op H)} {e : LogFault} (h : readRecords codec file total pos out = .error e) :
    ∃ msg, e = .failed (.corrupt msg) := by
  fun_induction readRecords codec file total pos out with
  | case1 pos out hlt op next hrec _ ih => exact ih h
  | case2 pos out hlt e' hrec =>
    obtain rfl := Except.error.inj h
    rw [readRecord_eq hlt htotal hword] at hrec
    split_ifs at hrec
    · exact ⟨_, (Except.error.inj hrec).symm⟩
    · exact ⟨_, (Except.error.inj hrec).symm⟩
    · split at hrec
      · cases hrec
      · exact ⟨_, (Except.error.inj hrec).symm⟩
  | case3 pos out hge => cases h

/-- **What is read is what the bytes hold**, all of them. -/
theorem reads_of_readRecords (hpos : pos ≤ file.length) (hword : file.length < 2 ^ 64)
    {out res : List (Op H)} (h : readRecords codec file file.length pos out = .ok res) :
    ∃ ops, res = out ++ ops ∧ Reads codec (file.drop pos) ops := by
  fun_induction readRecords codec file file.length pos out with
  | case1 pos out hlt op next hrec _ ih =>
    rw [readRecord_eq hlt (Nat.le_refl _) hword] at hrec
    split_ifs at hrec with hhead hbody
    generalize hlen : fromBytesBE ((file.drop pos).take 4) = len at hrec hbody
    cases hdec : codec.fromReader ((file.drop (pos + 4)).take len) with
    | error e =>
      rw [hdec] at hrec
      cases hrec
    | ok op' =>
      rw [hdec] at hrec
      obtain ⟨rfl, rfl⟩ := Prod.mk.inj (Except.ok.inj hrec)
      obtain ⟨ops, rfl, hreads⟩ := ih (by omega) h
      refine ⟨op' :: ops, by rw [List.append_assoc]; rfl, ?_⟩
      -- the four bytes of the length, and as many bytes as they say
      have hhead_len : ((file.drop pos).take 4).length = 4 := by
        rw [List.length_take, List.length_drop]
        omega
      have hbody_len : ((file.drop (pos + 4)).take len).length = len := by
        rw [List.length_take, List.length_drop]
        omega
      have hfit : len < 256 ^ 4 := by
        have := Framing.fromBytesBE_lt ((file.drop pos).take 4)
        rwa [hlen, hhead_len] at this
      have hhead_eq : (file.drop pos).take 4 = toBytesBE 4 len := by
        have := Framing.toBytesBE_fromBytesBE ((file.drop pos).take 4)
        rw [hlen, hhead_len] at this
        exact this.symm
      have hsplit : file.drop pos = Framing.frame 4 ((file.drop (pos + 4)).take len) ++
          file.drop (pos + 4 + len) := by
        rw [Framing.frame, hbody_len, ← hhead_eq, List.append_assoc, ← List.drop_drop (i := len),
          List.take_append_drop, ← List.drop_drop, List.take_append_drop]
      rw [hsplit]
      exact .cons (by rw [hbody_len]; omega) hdec hreads
  | case2 pos out hlt e' hrec => cases h
  | case3 pos out hge =>
    obtain rfl := Except.ok.inj h
    refine ⟨[], (List.append_nil _).symm, ?_⟩
    rw [List.drop_eq_nil_of_le (by omega)]
    exact .nil

end Reader

end Tig
