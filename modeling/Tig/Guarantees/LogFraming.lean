import Tig.Guarantees.OpIds
import Tig.Store.PlainLog

set_option relaxedAutoImplicit false
set_option autoImplicit false

/-!
# The framing of the log

Whatever sequence of processes has appended to the log, one at a time, the file holds their records
one after the other, numbered from zero. Cut off anywhere, it still reads as its first records, or
as corrupt. An append is not one write: while it is under way, or when it has stopped half way, the
file ends in a torn record, and nobody can read the log any more.

## Main definitions

* `Tig.LogRun` — processes that open the log and append to it, one at a time.
* `Tig.Holds` — the bytes are those of numbered records.
* `Tig.SeenWhole` — what readers and later writers should see of an append under way.

## Main results

* `Tig.appendRecord_refines`, `Tig.openLogFile_refines` — the file implements the list of records
  that the rest of the model works with.
* `Tig.log_lossless` — the log reads back as what was appended, and a cut is detected.
* `Tig.seenWhole_iff` — at which moments of an append the log can be read.
-/

namespace Tig

open Program
open Framing (frames Torn torn_or take_frames)

variable {H : Type}

/-! ## Runs -/

/-- Processes use the log one at a time. Starting from a file, each opens it and appends; `ops` are
the records that were appended. An append that is refused writes nothing. -/
inductive LogRun (codec : OpCodec H) (start : Option LogFile) : LogSession → List (Op H) → Prop
  | first {log : FileLog} {st : LogSession} (hopen : openLogFile codec ⟨start, log⟩ = .ok () st) :
      LogRun codec start st []
  | reopen {st st' : LogSession} {ops : List (Op H)} (h : LogRun codec start st ops)
      (hopen : openLogFile codec st = .ok () st') : LogRun codec start st' ops
  | append {st st' : LogSession} {ops : List (Op H)} (h : LogRun codec start st ops) (now : Nat)
      (op : OpInProgress H) {new : Op H} (happend : appendRecord codec now op st = .ok new st') :
      LogRun codec start st' (ops ++ [new])
  | refuse {st st' : LogSession} {ops : List (Op H)} (h : LogRun codec start st ops) (now : Nat)
      (op : OpInProgress H) {e : LogFault} (happend : appendRecord codec now op st = .error e st')
      (hsame : st' = st) : LogRun codec start st' ops

/-- The bytes of a file; a file that does not exist has none. -/
def contents (file : Option LogFile) : Bytes :=
  match file with
  | none => []
  | some f => f.bytes

theorem contents_fits (file : Option LogFile) : (contents file).length < 2 ^ 64 := by
  cases file with
  | none => simp [contents]
  | some f => exact f.fits

/-- The payload of a record. -/
def Encodes (codec : OpCodec H) (payload : Bytes) (op : Op H) : Prop :=
  codec.intoWriter op = .ok payload ∧ payload.length < 2 ^ 32

/-- The records are numbered from zero. -/
def NumberedFromZero (ops : List (Op H)) : Prop := ∀ (i : Nat) (op : Op H), ops[i]? = some op → op.id = i

/-- The bytes are those of the records, which are numbered from zero. -/
structure Holds (codec : OpCodec H) (bytes : Bytes) (ops : List (Op H)) : Prop where
  framed : ∃ payloads, bytes = frames 4 payloads ∧ List.Forall₂ (Encodes codec) payloads ops
  numbered : NumberedFromZero ops

variable {codec : OpCodec H}

/-! ## Reading what was written -/

/-- Encoded records are read back. -/
theorem reads_of_encodes (hcodec : codec.Lawful) {payloads : List Bytes} {ops : List (Op H)}
    (h : List.Forall₂ (Encodes codec) payloads ops) : Reads codec (frames 4 payloads) ops := by
  induction h with
  | nil => exact .nil
  | cons hop _ ih => exact .cons hop.2 (hcodec _ _ hop.1) ih

theorem Holds.reads (hcodec : codec.Lawful) {bytes : Bytes} {ops : List (Op H)}
    (h : Holds codec bytes ops) : Reads codec bytes ops := by
  obtain ⟨payloads, rfl, hall⟩ := h.framed
  exact reads_of_encodes hcodec hall

/-- A reader of a file that starts with these bytes, and that had this size when the reader looked,
sees the records. -/
theorem readRecords_growing {bytes : Bytes} {ops : List (Op H)} (h : Reads codec bytes ops)
    (hfits : bytes.length < 2 ^ 64) (more : Bytes) :
    readRecords codec (bytes ++ more) bytes.length 0 [] = .ok ops := by
  have hread := readRecords_of_reads [] more h (by simp) (by simp) hfits []
  simp only [List.nil_append, List.length_nil, Nat.zero_add] at hread
  rw [hread]
  exact readRecords_end (Nat.le_refl _) ops

/-- The records of a file are those its bytes hold. -/
theorem readAll_of_reads {file : Option LogFile} {ops : List (Op H)}
    (h : Reads codec (contents file) ops) : readAll codec file = .ok ops := by
  cases file with
  | none =>
    change Reads codec [] ops at h
    have hlen := h.le_length
    have hnil : ops = [] := by
      apply List.eq_nil_of_length_eq_zero
      simp only [List.length_nil] at hlen
      omega
    rw [hnil]
    rfl
  | some f =>
    have hread := readRecords_growing h f.fits []
    rw [List.append_nil] at hread
    exact hread

/-! ## The next id -/

/-- The greatest of the ids `0`, …, `n - 1`. -/
theorem foldl_max_numbered {ops : List (Op H)} (hids : NumberedFromZero ops)
    (hlen : ops.length < 2 ^ 63) :
    ops.foldl (fun max op => if asI64 op.id > max then asI64 op.id else max) (-1) =
      (ops.length : Int) - 1 := by
  induction ops using List.reverseRecOn with
  | nil => rfl
  | append_singleton ops op ih =>
    rw [List.length_append, List.length_singleton] at hlen ⊢
    have hlast : op.id = ops.length := by
      apply hids
      simp
    have hids' : NumberedFromZero ops := by
      intro i o ho
      apply hids
      rw [List.getElem?_append_left (List.getElem?_eq_some_iff.mp ho).1]
      exact ho
    have hword : asI64 op.id = ops.length := by
      rw [hlast]
      exact asI64_eq (by omega)
    rw [List.foldl_append, ih hids' (by omega), List.foldl_cons, List.foldl_nil, hword]
    rw [if_pos (by omega)]
    omega

/-- After the ids `0`, …, `n - 1` comes `n`. -/
theorem nextIdAfter_numbered {ops : List (Op H)} (hids : NumberedFromZero ops)
    (hlen : ops.length < 2 ^ 63) : nextIdAfter ops = ops.length := by
  have hnext : ((ops.length : Int) - 1 + 1) = ((ops.length : Nat) : Int) := by omega
  rw [nextIdAfter, foldl_max_numbered hids hlen, hnext]
  exact asU64_eq (by omega)

/-! ## The two operations -/

/-- A file that was made because it was not there has the same bytes: none. -/
theorem contents_touch (file : Option LogFile) :
    contents (some (file.getD ⟨[], by decide⟩)) = contents file := by
  cases file <;> rfl

/-- Opening reads the file and leaves its bytes alone. -/
theorem openLogFile_spec (st : LogSession) {ops : List (Op H)}
    (h : Reads codec (contents st.file) ops) :
    ∃ st', openLogFile codec st = .ok () st' ∧ contents st'.file = contents st.file ∧
      st'.log.nextId = nextIdAfter ops := by
  have hread : readAll codec (some (st.file.getD ⟨[], by decide⟩)) = .ok ops := by
    apply readAll_of_reads
    rwa [contents_touch]
  have hpost : Post (openLogFile codec) st
      (fun _ st' => contents st'.file = contents st.file ∧ st'.log.nextId = nextIdAfter ops)
      (fun _ _ => False) := by
    simp only [openLogFile, touchLog, post_bind, post_modify, post_get, hread]
    exact ⟨contents_touch st.file, rfl⟩
  obtain ⟨_, st', hrun, hst'⟩ := hpost.exists_ok
  exact ⟨st', hrun, hst'⟩

/-- Writing puts bytes at the end of the file, if it can grow that much. -/
theorem writeAll_spec {st : LogSession} {bs : Bytes} :
    Post (writeAll bs) st
      (fun _ st' => contents st'.file = contents st.file ++ bs ∧ st'.log = st.log)
      (fun _ _ => ¬ (contents st.file ++ bs).length < 2 ^ 64) := by
  simp only [writeAll, touchLog, post_bind, post_modify, post_get, Option.bind_some]
  rw [← contents_touch st.file]
  generalize st.file.getD ⟨[], by decide⟩ = f
  unfold LogFile.extend
  split
  · rename_i f' hf'
    split_ifs at hf'
    obtain rfl := Option.some.inj hf'
    exact ⟨rfl, rfl⟩
  · rename_i hf'
    split_ifs at hf' with hfits
    exact hfits

/-- **Appending** writes the record behind the others and counts on, unless the record cannot be
encoded or framed, or the file or the ids are at their limit. -/
theorem appendRecord_spec {st : LogSession} {now : Nat} {op : OpInProgress H} :
    Post (appendRecord codec now op) st
      (fun new st' => new = st.log.finalize now op ∧ ∃ payload, Encodes codec payload new ∧
        contents st'.file = contents st.file ++ Framing.frame 4 payload ∧
        st'.log.nextId = st.log.nextId + 1)
      (fun _ _ => ∀ payload, Encodes codec payload (st.log.finalize now op) →
        ¬ ((contents st.file ++ Framing.frame 4 payload).length < 2 ^ 64 ∧
          st.log.nextId + 1 < 2 ^ 64)) := by
  simp only [appendRecord, post_bind, post_get]
  cases henc : codec.intoWriter (st.log.finalize now op) with
  | error e =>
    rintro payload ⟨hpayload, -⟩
    rw [henc] at hpayload
    cases hpayload
  | ok bytes =>
    have honly : ∀ payload, Encodes codec payload (st.log.finalize now op) → payload = bytes := by
      intro payload hpayload
      exact Except.ok.inj (hpayload.1.symm.trans henc)
    dsimp only
    split_ifs with hlong
    · intro payload hpayload
      obtain rfl := honly payload hpayload
      exact absurd hpayload.2 (by omega)
    · simp only [post_bind, post_pure]
      refine writeAll_spec.mono ?_ ?_
      · rintro _ st₁ ⟨hfile₁, hlog₁⟩
        refine writeAll_spec.mono ?_ ?_
        · rintro _ st₂ ⟨hfile₂, hlog₂⟩
          rw [post_fromExcept]
          constructor
          · intro nextId hnext
            rw [post_modify]
            refine ⟨trivial, bytes, ⟨henc, by omega⟩, ?_, eq_of_addU64 hnext⟩
            rw [hfile₂, hfile₁, Framing.frame, List.append_assoc]
          · rintro e he payload hpayload ⟨-, hids⟩
            rw [addU64_eq hids] at he
            cases he
        · rintro _ _ hfull payload hpayload ⟨hfits, -⟩
          obtain rfl := honly payload hpayload
          rw [hfile₁, List.append_assoc] at hfull
          exact hfull hfits
      · rintro _ _ hfull payload hpayload ⟨hfits, -⟩
        obtain rfl := honly payload hpayload
        apply hfull
        simp only [List.length_append, Framing.length_frame, Framing.length_toBytesBE] at hfits ⊢
        omega

/-! ## What a run leaves -/

/-- There are fewer than `2 ^ 62` records in a file. -/
theorem Holds.length_lt (hcodec : codec.Lawful) {file : Option LogFile} {ops : List (Op H)}
    (h : Holds codec (contents file) ops) : ops.length < 2 ^ 62 := by
  have hlen := (h.reads hcodec).le_length
  have hfits := contents_fits file
  omega

/-- A record with the next number may follow. -/
theorem Holds.append {bytes payload : Bytes} {ops : List (Op H)} {new : Op H}
    (h : Holds codec bytes ops) (hnew : Encodes codec payload new) (hid : new.id = ops.length) :
    Holds codec (bytes ++ Framing.frame 4 payload) (ops ++ [new]) := by
  obtain ⟨payloads, rfl, hall⟩ := h.framed
  refine ⟨⟨payloads ++ [payload], ?_, ?_⟩, ?_⟩
  · simp
  · exact List.rel_append hall (.cons hnew .nil)
  · intro i op hop
    rw [List.getElem?_append] at hop
    split_ifs at hop with hlt
    · exact h.numbered i op hop
    · have hlast := List.mem_of_getElem? hop
      have hi := (List.getElem?_eq_some_iff.mp hop).1
      rw [List.mem_singleton.mp hlast, hid]
      simp only [List.length_singleton] at hi
      change ops.length = i
      omega

/-- **What a run leaves**: the records that were there, and those that were appended. -/
theorem LogRun.holds (hcodec : codec.Lawful) {start : Option LogFile} {seen : List (Op H)}
    (hstart : Holds codec (contents start) seen) {st : LogSession} {ops : List (Op H)}
    (h : LogRun codec start st ops) :
    Holds codec (contents st.file) (seen ++ ops) ∧ st.log.nextId = (seen ++ ops).length := by
  -- opening does not change the file, and finds the next id
  have hopen : ∀ {st st' : LogSession} {ops : List (Op H)}, openLogFile codec st = .ok () st' →
      Holds codec (contents st.file) ops →
      Holds codec (contents st'.file) ops ∧ st'.log.nextId = ops.length := by
    intro st st' ops hrun hholds
    obtain ⟨st'', hrun', hfile, hid⟩ := openLogFile_spec _ (hholds.reads hcodec)
    rw [hrun] at hrun'
    cases hrun'
    have hlen := hholds.length_lt hcodec
    rw [hfile, hid, nextIdAfter_numbered hholds.numbered (by omega)]
    exact ⟨hholds, rfl⟩
  induction h with
  | first hrun =>
    rw [List.append_nil]
    exact hopen hrun hstart
  | reopen _ hrun ih => exact hopen hrun ih.1
  | append _ now op hrun ih =>
    obtain ⟨hholds, hid⟩ := ih
    obtain ⟨rfl, payload, hnew, hfile, hnext⟩ := appendRecord_spec.ok hrun
    rw [hfile, hnext, ← List.append_assoc, List.length_append, List.length_singleton, hid]
    exact ⟨hholds.append hnew hid, rfl⟩
  | refuse _ now op hrun hsame ih =>
    rw [hsame]
    exact ih

/-- Where there was no log, there is what was appended. -/
theorem LogRun.holds_new (hcodec : codec.Lawful) {st : LogSession} {ops : List (Op H)}
    (h : LogRun codec none st ops) :
    Holds codec (contents st.file) ops ∧ st.log.nextId = ops.length :=
  have hstart : Holds codec (contents none) [] := ⟨⟨[], rfl, .nil⟩, fun i op h => by simp at h⟩
  h.holds hcodec hstart

/-! ## The file implements the list -/

/-- **Appending to the file is appending to the list.** Where the file holds the log of a repository
in which nothing fails, and the handles agree, they still do after an append. -/
theorem appendRecord_refines {w : World H} (hrel : w.env.Reliable) {st st' : LogSession}
    (hholds : Holds codec (contents st.file) w.repo.oplog) (hlog : st.log = w.log)
    (hid : w.log.nextId = w.repo.oplog.length) {op : OpInProgress H} {new : Op H}
    (hrun : appendRecord codec (w.env.now w.clock) op st = .ok new st') :
    ∃ w', appendOp op w = .ok new w' ∧ Holds codec (contents st'.file) w'.repo.oplog ∧
      st'.log = w'.log ∧ w'.log.nextId = w'.repo.oplog.length := by
  obtain ⟨rfl, payload, hpayload, hfile, hnext⟩ := appendRecord_spec.ok hrun
  have hpost : Post (appendOp op) w
      (fun new w' => new = st.log.finalize (w.env.now w.clock) op ∧
        w'.repo.oplog = w.repo.oplog ++ [new] ∧ w'.log.nextId = w.log.nextId + 1)
      (fun _ _ => False) := by
    rw [post_appendOp, hlog]
    refine ⟨fun _ => ⟨fun _ => ⟨rfl, rfl, rfl⟩, fun e he => ?_⟩, fun e he => ?_⟩
    · rw [hrel.failure] at he
      cases he
    · rw [hrel.failure] at he
      cases he
  obtain ⟨new, w', hw', rfl, hoplog, hnext'⟩ := hpost.exists_ok
  have hnew : st.log.nextId = w.repo.oplog.length := by rw [hlog, hid]
  refine ⟨w', hw', ?_, ?_, ?_⟩
  · rw [hfile, hoplog]
    exact hholds.append hpayload hnew
  · have hsame : st'.log.nextId = w'.log.nextId := by rw [hnext, hnext', hlog]
    exact congrArg FileLog.mk hsame
  · rw [hnext', hoplog, hid, List.length_append, List.length_singleton]

/-- **Opening the file is opening the list.** -/
theorem openLogFile_refines (hcodec : codec.Lawful) {w : World H} (hrel : w.env.Reliable)
    {st : LogSession} (hholds : Holds codec (contents st.file) w.repo.oplog) :
    ∃ st' w', openLogFile codec st = .ok () st' ∧ openLog w = .ok () w' ∧
      contents st'.file = contents st.file ∧ w'.repo.oplog = w.repo.oplog ∧ st'.log = w'.log ∧
      w'.log.nextId = w'.repo.oplog.length := by
  obtain ⟨st', hst', hfile, hid⟩ := openLogFile_spec _ (hholds.reads hcodec)
  have hlen := hholds.length_lt hcodec
  rw [nextIdAfter_numbered hholds.numbered (by omega)] at hid
  have hpost : Post openLog w
      (fun _ w' => w'.repo.oplog = w.repo.oplog ∧ w'.log = ⟨w.repo.oplog.length⟩)
      (fun _ _ => False) := by
    rw [openLog, post_bind, post_step]
    refine ⟨fun _ => ?_, fun e he => ?_⟩
    · rw [post_modify]
      exact ⟨rfl, congrArg FileLog.mk (computeNextId_of_dense hholds.numbered)⟩
    · rw [hrel.failure] at he
      cases he
  obtain ⟨_, w', hw', hoplog, hlog⟩ := hpost.exists_ok
  refine ⟨st', w', hst', hw', hfile, hoplog, ?_, ?_⟩
  · rw [hlog]
    exact congrArg FileLog.mk hid
  · rw [hlog, hoplog]

/-! ## Cuts -/

/-- The first `n` bytes of a file. -/
def LogFile.cut (f : LogFile) (n : Nat) : LogFile where
  bytes := f.bytes.take n
  fits := by
    have := f.fits
    rw [List.length_take]
    omega

/-- The bytes of a record. -/
def recordBytes (codec : OpCodec H) (op : Op H) : Bytes :=
  match codec.intoWriter op with
  | .ok payload => Framing.frame 4 payload
  | .error _ => []

/-- Where the first `k` records of the log end. -/
def frameBoundary (codec : OpCodec H) (ops : List (Op H)) (k : Nat) : Nat :=
  ((ops.take k).flatMap (recordBytes codec)).length

/-- The bytes of records are their frames. -/
theorem frames_eq_flatMap {payloads : List Bytes} {ops : List (Op H)}
    (h : List.Forall₂ (Encodes codec) payloads ops) :
    frames 4 payloads = ops.flatMap (recordBytes codec) := by
  induction h with
  | nil => rfl
  | @cons payload op _ _ hop _ ih =>
    have hrecord : recordBytes codec op = Framing.frame 4 payload := by
      rw [recordBytes, hop.1]
    rw [Framing.frames_cons, List.flatMap_cons, ih, hrecord]

/-- A log that ends in a torn record is corrupt. -/
theorem readAll_torn {f : LogFile} {bytes payload rest : Bytes} {ops : List (Op H)}
    (h : Reads codec bytes ops) (htorn : Torn 4 payload rest) (hlen : payload.length < 2 ^ 32)
    (hf : f.bytes = bytes ++ rest) :
    ∃ msg, readAll codec (some f) = .error (.failed (.corrupt msg)) := by
  have hfits := f.fits
  rw [hf, List.length_append] at hfits
  have hread := readRecords_of_reads [] rest h (by simp) (by simp) hfits []
  have hcorrupt : ∃ msg, readRecords codec (bytes ++ (rest ++ [])) (bytes.length + rest.length)
      bytes.length ops = .error (.failed (.corrupt msg)) := readRecords_torn htorn hlen hfits ops
  obtain ⟨msg, hmsg⟩ := hcorrupt
  simp only [List.nil_append, List.length_nil, Nat.zero_add, List.append_nil] at hread hmsg
  refine ⟨msg, ?_⟩
  change readRecords codec f.bytes f.bytes.length 0 [] = _
  rw [hf, List.length_append, hread, hmsg]

/-- **A cut between records** leaves the first ones. -/
theorem Holds.cut_boundary (hcodec : codec.Lawful) {f : LogFile} {ops : List (Op H)}
    (h : Holds codec f.bytes ops) {k : Nat} :
    readAll codec (some (f.cut (frameBoundary codec ops k))) = .ok (ops.take k) := by
  obtain ⟨payloads, hbytes, hall⟩ := h.framed
  have htake := List.forall₂_take k hall
  have hcut : (f.cut (frameBoundary codec ops k)).bytes = frames 4 (payloads.take k) := by
    change f.bytes.take (frameBoundary codec ops k) = _
    have hsplit : frames 4 payloads = frames 4 (payloads.take k) ++ frames 4 (payloads.drop k) := by
      rw [← Framing.frames_append, List.take_append_drop]
    rw [frameBoundary, ← frames_eq_flatMap htake, hbytes, hsplit, List.take_left]
  apply readAll_of_reads
  change Reads codec (f.cut (frameBoundary codec ops k)).bytes (ops.take k)
  rw [hcut]
  exact reads_of_encodes hcodec htake

/-- **A cut through a record** leaves a log that is corrupt. -/
theorem Holds.cut_inside (hcodec : codec.Lawful) {f : LogFile} {ops : List (Op H)}
    (h : Holds codec f.bytes ops) {n : Nat} (hn : n < f.bytes.length)
    (hboundary : ∀ k, n ≠ frameBoundary codec ops k) :
    ∃ msg, readAll codec (some (f.cut n)) = .error (.failed (.corrupt msg)) := by
  obtain ⟨payloads, hbytes, hall⟩ := h.framed
  rw [hbytes] at hn
  obtain ⟨k, payload, hk, rest, htake, hrest⟩ := take_frames hn
  have hfirst := List.forall₂_take k hall
  rcases hrest with rfl | htorn
  · -- then the cut is after the first `k` records
    exfalso
    apply hboundary k
    have hlen := congrArg List.length htake
    rw [List.append_nil, List.length_take, Nat.min_eq_left (Nat.le_of_lt hn)] at hlen
    rw [hlen, frameBoundary, frames_eq_flatMap hfirst]
  · obtain ⟨hk', rfl⟩ := List.getElem?_eq_some_iff.mp hk
    have hlen : (payloads[k]).length < 2 ^ 32 := by
      have hpair := (List.forall₂_iff_get.mp hall).2 k hk' (by rwa [← hall.length_eq])
      exact hpair.2
    apply readAll_torn (reads_of_encodes hcodec hfirst) htorn hlen
    change f.bytes.take n = _
    rw [hbytes, htake]

/-- **The log is lossless, and truncation is detected.** Whatever processes have appended, opening
the log again and again, the file reads as the records appended, numbered from zero, and opening it
once more resumes at the next number. Cut off anywhere, the file reads as its first records when
the cut is between two records, and as corrupt otherwise. -/
theorem log_lossless (hcodec : codec.Lawful) {st : LogSession} {ops : List (Op H)}
    (h : LogRun codec none st ops) :
    readAll codec st.file = .ok ops ∧ NumberedFromZero ops ∧
      (∃ st', openLogFile codec st = .ok () st' ∧ readAll codec st'.file = .ok ops ∧
        st'.log.nextId = ops.length) ∧
      ∀ f, st.file = some f → ∀ n < f.bytes.length,
        (∀ k, n = frameBoundary codec ops k → readAll codec (some (f.cut n)) = .ok (ops.take k)) ∧
        ((∀ k, n ≠ frameBoundary codec ops k) →
          ∃ msg, readAll codec (some (f.cut n)) = .error (.failed (.corrupt msg))) := by
  obtain ⟨hholds, -⟩ := h.holds_new hcodec
  have hreads := hholds.reads hcodec
  refine ⟨readAll_of_reads hreads, hholds.numbered, ?_, ?_⟩
  · obtain ⟨st', hrun, hfile, hid⟩ := openLogFile_spec _ hreads
    have hlen := hholds.length_lt hcodec
    rw [nextIdAfter_numbered hholds.numbered (by omega)] at hid
    refine ⟨st', hrun, ?_, hid⟩
    apply readAll_of_reads
    rwa [hfile]
  · intro f hf n hn
    rw [hf] at hholds
    constructor
    · rintro k rfl
      exact hholds.cut_boundary hcodec
    · intro hboundary
      exact hholds.cut_inside hcodec hn hboundary

/-! ### One record -/

/-- A record that can be written is written. -/
theorem appendRecord_returns {st : LogSession} {now : Nat} {op : OpInProgress H} {payload : Bytes}
    (hpayload : Encodes codec payload (st.log.finalize now op))
    (hfits : (contents st.file ++ Framing.frame 4 payload).length < 2 ^ 64)
    (hid : st.log.nextId + 1 < 2 ^ 64) :
    ∃ st', appendRecord codec now op st = .ok (st.log.finalize now op) st' ∧
      contents st'.file = contents st.file ++ Framing.frame 4 payload := by
  have hpost : Post (appendRecord codec now op) st
      (fun new st' => new = st.log.finalize now op ∧ ∃ payload, Encodes codec payload new ∧
        contents st'.file = contents st.file ++ Framing.frame 4 payload ∧
        st'.log.nextId = st.log.nextId + 1)
      (fun _ _ => False) :=
    appendRecord_spec.mono (fun _ _ h => h) (fun _ _ h => h payload hpayload ⟨hfits, hid⟩)
  obtain ⟨new, st', hrun, rfl, payload', hpayload', hfile, -⟩ := hpost.exists_ok
  obtain rfl := Except.ok.inj (hpayload.1.symm.trans hpayload'.1)
  exact ⟨st', hrun, hfile⟩

namespace FirstRecord

/-- The operation of the record. -/
def op : OpInProgress PlainHash := ⟨"local:alice", .undo 0, [], []⟩

/-- The record. -/
def record : Op PlainHash := FileLog.finalize ⟨0⟩ 7 op

/-- What it is encoded as. -/
def payload : Bytes := Plain.op.encodeBytes record

theorem encodes : Encodes plainOpCodec payload record := ⟨rfl, by decide +kernel⟩

/-- A process creates the log and appends the record. -/
theorem run : ∃ st, LogRun plainOpCodec none st [record] ∧
    contents st.file = Framing.frame 4 payload := by
  have hempty : Reads plainOpCodec (contents none) [] := .nil
  obtain ⟨st, hopen, hfile, hid⟩ := openLogFile_spec ⟨none, ⟨0⟩⟩ hempty
  have hlog : st.log = ⟨0⟩ := congrArg FileLog.mk hid
  have hencodes : Encodes plainOpCodec payload (st.log.finalize 7 op) := by
    rw [hlog]
    exact encodes
  obtain ⟨st', happend, hfile'⟩ := appendRecord_returns hencodes
    (by rw [hfile]; decide +kernel) (by rw [hlog]; decide)
  refine ⟨st', .append (.first hopen) 7 op ?_, ?_⟩
  · rw [happend, hlog]
    rfl
  · rw [hfile', hfile]
    rfl

end FirstRecord

/-- The log with one record reads back. -/
theorem log_lossless_firstRecord : ∃ st, LogRun plainOpCodec none st [FirstRecord.record] ∧
    readAll plainOpCodec st.file = .ok [FirstRecord.record] := by
  obtain ⟨st, hrun, -⟩ := FirstRecord.run
  exact ⟨st, hrun, (log_lossless plainOpCodec_lawful hrun).1⟩

/-! ## An append under way -/

/-- An append of `new` to the log `ops` is under way, or has stopped, and the file is `f`. Whoever
reads it, while more bytes may be coming in, finds the records as they were before or as they will
be after; and whoever opens it can go on from there. -/
def SeenWhole (codec : OpCodec H) (f : LogFile) (ops : List (Op H)) (new : Op H) : Prop :=
  ∃ seen, (seen = ops ∨ seen = ops ++ [new]) ∧
    (∀ more, readRecords codec (f.bytes ++ more) f.bytes.length 0 [] = .ok seen) ∧
    (∀ log, ∃ st, openLogFile codec ⟨some f, log⟩ = .ok () st) ∧
    ∀ st later, LogRun codec (some f) st later →
      readAll codec st.file = .ok (seen ++ later) ∧
      (∃ st', openLogFile codec st = .ok () st') ∧
      ∀ now op payload, Encodes codec payload (st.log.finalize now op) →
        (contents st.file ++ Framing.frame 4 payload).length < 2 ^ 64 →
        ∃ st', appendRecord codec now op st = .ok (st.log.finalize now op) st'

/-- A file of whole records can be read, and the log goes on from there. -/
theorem Holds.seenWhole (hcodec : codec.Lawful) {f : LogFile} {ops seen : List (Op H)} {new : Op H}
    (h : Holds codec f.bytes seen) (hseen : seen = ops ∨ seen = ops ++ [new]) :
    SeenWhole codec f ops new := by
  refine ⟨seen, hseen, readRecords_growing (h.reads hcodec) f.fits, ?_, ?_⟩
  · intro log
    obtain ⟨st, hrun, -⟩ := openLogFile_spec ⟨some f, log⟩ (h.reads hcodec)
    exact ⟨st, hrun⟩
  · intro st later hrun
    have hstart : Holds codec (contents (some f)) seen := h
    obtain ⟨hholds, hid⟩ := hrun.holds hcodec hstart
    refine ⟨readAll_of_reads (hholds.reads hcodec), ?_, ?_⟩
    · obtain ⟨st', hopen, -⟩ := openLogFile_spec _ (hholds.reads hcodec)
      exact ⟨st', hopen⟩
    · intro now op payload hpayload hfits
      have hlen := hholds.length_lt hcodec
      have hnext : st.log.nextId + 1 < 2 ^ 64 := by
        rw [hid]
        change (seen ++ later).length + 1 < 2 ^ 64
        omega
      obtain ⟨st', happend, -⟩ := appendRecord_returns hpayload hfits hnext
      exact ⟨st', happend⟩

/-- **When an append can be seen.** Some bytes of a record have reached the file, from its front.
Readers find a whole log, and the log goes on from there, exactly when these are no bytes or all of
them. -/
theorem seenWhole_iff (hcodec : codec.Lawful) {st : LogSession} {ops : List (Op H)}
    (h : LogRun codec none st ops) {now : Nat} {op : OpInProgress H} {payload : Bytes}
    (hpayload : Encodes codec payload (st.log.finalize now op)) {written : Bytes}
    (hwritten : written <+: Framing.frame 4 payload) {f : LogFile}
    (hf : f.bytes = contents st.file ++ written) :
    SeenWhole codec f ops (st.log.finalize now op) ↔
      written = [] ∨ written = Framing.frame 4 payload := by
  obtain ⟨hholds, hid⟩ := h.holds_new hcodec
  constructor
  · rintro ⟨seen, -, hread, -⟩
    rcases torn_or hwritten with hnil | hall | htorn
    · exact Or.inl hnil
    · exact Or.inr hall
    · -- a reader would have to find the torn record corrupt
      obtain ⟨msg, hmsg⟩ := readAll_torn (hholds.reads hcodec) htorn hpayload.2 hf
      have hok := hread []
      rw [List.append_nil] at hok
      exact absurd (hok.symm.trans hmsg) (by simp)
  · rintro (rfl | rfl)
    · rw [List.append_nil] at hf
      rw [← hf] at hholds
      exact hholds.seenWhole hcodec (Or.inl rfl)
    · have hafter := hholds.append hpayload hid
      rw [← hf] at hafter
      exact hafter.seenWhole hcodec (Or.inr rfl)

/-- Before the first record reaches the log, the log can be read. -/
theorem seenWhole_firstRecord : ∃ st, LogRun plainOpCodec none st [FirstRecord.record] ∧
    SeenWhole plainOpCodec ⟨contents st.file, contents_fits st.file⟩ [FirstRecord.record]
      (st.log.finalize 8 FirstRecord.op) := by
  obtain ⟨st, hrun, -⟩ := FirstRecord.run
  have hid := (hrun.holds_new plainOpCodec_lawful).2
  have hlog : st.log = ⟨1⟩ := congrArg FileLog.mk hid
  have hpayload : Encodes plainOpCodec (Plain.op.encodeBytes (st.log.finalize 8 FirstRecord.op))
      (st.log.finalize 8 FirstRecord.op) := by
    rw [hlog]
    exact ⟨rfl, by decide +kernel⟩
  refine ⟨st, hrun, (seenWhole_iff plainOpCodec_lawful hrun hpayload List.nil_prefix ?_).mpr
    (Or.inl rfl)⟩
  exact (List.append_nil _).symm

/-- While the length of the first record is being written, nobody can read the log. -/
theorem not_seenWhole_header : ∃ st, LogRun plainOpCodec none st [] ∧
    ∃ (f : LogFile) (written : Bytes), written <+: Framing.frame 4 FirstRecord.payload ∧
      f.bytes = contents st.file ++ written ∧
      ¬ SeenWhole plainOpCodec f [] (st.log.finalize 7 FirstRecord.op) := by
  have hempty : Reads plainOpCodec (contents none) [] := .nil
  obtain ⟨st, hopen, hfile, -⟩ := openLogFile_spec ⟨none, ⟨0⟩⟩ hempty
  refine ⟨st, .first hopen, ⟨[0, 0, 0], by decide⟩, [0, 0, 0], by decide +kernel, ?_, ?_⟩
  · rw [hfile]
    rfl
  · rintro ⟨seen, -, hread, -⟩
    have htorn : Torn 4 FirstRecord.payload [0, 0, 0] :=
      ⟨by decide +kernel, by decide, by decide +kernel⟩
    have hcorrupt : ∃ msg, readAll plainOpCodec (some ⟨[0, 0, 0], by decide⟩) =
        .error (.failed (.corrupt msg)) := readAll_torn .nil htorn (by decide +kernel) rfl
    obtain ⟨msg, hmsg⟩ := hcorrupt
    have hok := hread []
    rw [List.append_nil] at hok
    exact absurd (hok.symm.trans hmsg) (by simp)

end Tig
