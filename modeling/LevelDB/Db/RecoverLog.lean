import LevelDB.Db.LogRoundTrip
import LevelDB.Db.WriteBatch

/-!
# Replay of a log

`DBImpl::RecoverLogFile`: the records of a log are read as batches and inserted into memtables, each of which
is written as a table of level 0 when it is full.  A memtable is given by the calls of `Add` that it got.
-/

namespace LevelDB.Db.RecoverLog

open Log Format WriteBatch Util.Coding

/-- A call of `MemTable::Add`: the sequence number, the type, the key and the value. -/
abbrev AddCall : Type := ℕ × ValueType × Bytes × Bytes

abbrev Batch : Type := GroupCommit.WriteBatch Record

structure Options where
  paranoidChecks : Bool
  /-- `mem->ApproximateMemoryUsage() > write_buffer_size` -/
  full : List AddCall → Bool
  /-- The error of `WriteLevel0Table`, if it fails. -/
  writeLevel0Table : List AddCall → Option String

/-- The variables of the replay; `status` has the message of an error. -/
structure Replay where
  mem : Option (List AddCall)
  tables : List (List AddCall)
  maxSequence : ℕ
  status : Option String

variable (crc : Checksum) (o : Options)

namespace Replay

/-- `LogReporter::Corruption`, which keeps the first error, and this with `paranoid_checks` only. -/
def corruption (s : Replay) (reports : List Report) : Replay :=
  if o.paranoidChecks then { s with status := s.status.or (reports.head?.map Prod.snd) } else s

def writeTable (s : Replay) (mem : List AddCall) : Replay :=
  match o.writeLevel0Table mem with
  | none => { s with mem := none, tables := s.tables ++ [mem] }
  | some error => { s with mem := some mem, status := some error }

/-- The body of the loop. -/
def addRecord (s : Replay) (record : Bytes) : Replay :=
  if record.length < 12 then s.corruption o [(record.length, "log record too small")]
  else
    match insertInto (fun mem seq type key value ↦ mem ++ [(seq, type, key, value)]) record (s.mem.getD []) with
    | none => s
    | some (mem, status) =>
      match status, o.paranoidChecks with
      | .corruption error, true => { s with mem := some mem, status := some error }
      | _, _ =>
        let lastSeq := ((sequence record + count record - 1) % 2 ^ 64).toNat
        let s := { s with mem := some mem, maxSequence := max s.maxSequence lastSeq }
        if o.full mem then s.writeTable o mem else s

/-- What follows the loop. -/
def finish (s : Replay) : Replay :=
  match s.status, s.mem with
  | none, some mem => s.writeTable o mem
  | _, _ => s

end Replay

set_option linter.unusedVariables false in
def recoverRecords (r : Reader) (s : Replay) : Replay :=
  let s := s.corruption o (r.readRecord crc).1.dropped
  match hread : (r.readRecord crc).2 with
  | none => s
  | some record =>
    if s.status.isSome then s else recoverRecords (r.readRecord crc).1 (s.addRecord o record)
termination_by r.remaining
decreasing_by exact Reader.remaining_readRecord_lt crc r hread

/-- `RecoverLogFile` on a file that can be opened.  The reader does not initialise two of its members. -/
def recoverLogFile (file : Bytes) (lastRecordOffset endOfBufferOffset : UInt64) (maxSequence : ℕ) : Replay :=
  (recoverRecords crc o (Reader.new file true 0 lastRecordOffset endOfBufferOffset)
    ⟨none, [], maxSequence, none⟩).finish o

def addCalls (b : Batch) : List AddCall :=
  b.records.zipIdx.map fun p ↦ ((b.sequence + p.2) % 2 ^ 64, p.1.type, p.1.key, p.1.value)

def lastSeq (b : Batch) : ℕ := (((b.sequence : ℤ) + b.count - 1) % 2 ^ 64).toNat

structure Logged (b : Batch) : Prop where
  count_lt : b.records.length < 2 ^ 31
  small : ∀ record ∈ b.records, record.Small
  sequence_lt : b.sequence < 2 ^ 64

/-- The replay has come past these batches without an error. -/
structure Replayed (first : ℕ) (batches : List Batch) (s : Replay) : Prop where
  status : s.status = none
  calls : s.tables.flatten ++ s.mem.getD [] = batches.flatMap addCalls
  maxSequence : s.maxSequence = batches.foldl (fun m b ↦ max m (lastSeq b)) first

variable {crc o} {first : ℕ} {batches : List Batch} {s : Replay}

theorem Logged.insertInto_eq {b : Batch} (h : Logged b) (mem : List AddCall) :
    insertInto (fun mem seq type key value ↦ mem ++ [(seq, type, key, value)]) (encode b) mem =
      some (mem ++ addCalls b, .ok) := by
  have hfold := foldl_memTableInserter (fun (mem : List AddCall) seq type key value ↦
    mem ++ [(seq, type, key, value)]) mem b.sequence 0 b.records
  rw [Nat.add_zero, Nat.mod_eq_of_lt h.sequence_lt, List.foldl_append_eq_append] at hfold
  rw [insertInto, sequence_encode h.sequence_lt, iterate_encode _ h.count_lt h.small, Option.map_some]
  dsimp only
  rw [hfold, ← List.flatMap_def, ← List.map_eq_flatMap, addCalls]

theorem Replay.corruption_eq {reports : List Report} (h : o.paranoidChecks = false ∨ reports = []) :
    s.corruption o reports = s := by
  rw [Replay.corruption]
  rcases h with h | rfl
  · rw [h, if_neg Bool.false_ne_true]
  · simp

section Writes

variable (hwrites : ∀ mem, o.writeLevel0Table mem = none) (h : Replayed first batches s)

include hwrites h

theorem Replayed.writeTable {mem : List AddCall} (hmem : s.mem = some mem) :
    Replayed first batches (s.writeTable o mem) := by
  rw [Replay.writeTable, hwrites]
  refine ⟨h.status, ?_, h.maxSequence⟩
  rw [← h.calls, hmem]
  simp

theorem Replayed.finish : Replayed first batches (s.finish o) ∧ (s.finish o).mem = none := by
  rw [Replay.finish, h.status]
  cases hmem : s.mem with
  | none => exact ⟨h, hmem⟩
  | some mem => exact ⟨h.writeTable hwrites hmem, by simp [Replay.writeTable, hwrites]⟩

theorem Replayed.addRecord {b : Batch} (hb : Logged b) :
    Replayed first (batches ++ [b]) (s.addRecord o (encode b)) := by
  have hlength : ¬(encode b).length < 12 := by
    rw [encode, List.length_append, List.length_append, length_encodeFixed, length_encodeFixed]
    omega
  have hadded : Replayed first (batches ++ [b]) { s with
      mem := some (s.mem.getD [] ++ addCalls b)
      maxSequence := max s.maxSequence (lastSeq b) } := by
    refine ⟨h.status, ?_, ?_⟩
    · rw [List.flatMap_append, ← h.calls]
      simp
    · rw [List.foldl_append, ← h.maxSequence]
      rfl
  rw [Replay.addRecord, if_neg hlength, hb.insertInto_eq, sequence_encode hb.sequence_lt,
    count_encode (by rw [b.count_eq]; exact hb.count_lt)]
  dsimp only
  split
  · exact hadded.writeTable hwrites rfl
  · exact hadded

/-- The replay inserts what a reader returns, unless a report stops it. -/
theorem Replayed.recoverRecords {r : Reader} (hr : r.FromStart)
    (hreports : o.paranoidChecks = false ∨ (r.readAll crc).2.dropped = []) {more : List Batch}
    (hmore : ∀ b ∈ more, Logged b) (hread : (r.readAll crc).1 = more.map encode) :
    Replayed first (batches ++ more) (recoverRecords crc o r s) := by
  fun_induction Reader.readAll crc r generalizing batches s more with
  | case1 r hnone =>
    obtain rfl := List.map_eq_nil_iff.mp hread.symm
    rw [RecoverLog.recoverRecords, Replay.corruption_eq hreports, List.append_nil]
    split <;> rename_i heq <;> rw [hnone] at heq <;> cases heq
    exact h
  | case2 r record hsome rest =>
    rename_i ih
    obtain ⟨b, more, rfl, rfl, hrest⟩ := List.map_eq_cons_iff.mp hread.symm
    obtain ⟨hb, hmore⟩ := List.forall_mem_cons.mp hmore
    have hdropped : o.paranoidChecks = false ∨ (r.readRecord crc).1.dropped = [] := by
      exact hreports.imp_right hr.readRecord.dropped_eq_nil
    have hadded := ih (h.addRecord hwrites hb) hr.readRecord hreports hmore hrest.symm
    rw [RecoverLog.recoverRecords, Replay.corruption_eq hdropped, List.append_cons]
    split <;> rename_i heq <;> rw [hsome] at heq <;> cases heq
    rw [h.status]
    exact hadded

end Writes

/-- **Replay of a log that is cut short.**  The log has the batches of successful writes, and a crash leaves
its first `n` bytes.  When the tables can be written and the checksums are taken for right, the replay ends
without an error, and its tables hold the entries of exactly the batches that are complete, in order and under
their sequence numbers, whenever it chooses to begin a new table.  With `paranoid_checks` this holds of a log
that nothing is missing from. -/
theorem replay_recovers_complete_batches (crc : Checksum) (o : Options)
    (hwrites : ∀ mem, o.writeLevel0Table mem = none) (batches : List Batch) (hlogged : ∀ b ∈ batches, Logged b) :
    ∃ w placed, Writer.addRecords crc {} (batches.map encode) = some (w, placed) ∧
      List.Forall₂ Fragments (batches.map encode) placed ∧ ((∀ p ∈ placed.flatten, p.Agrees crc) →
      ∀ (n : ℕ) (x y : UInt64) (first : ℕ), o.paranoidChecks = false ∨ n = w.dest.length →
        let complete := ((batches.zip placed).filter fun b ↦ b.2.all fun p ↦ p.limit ≤ n).map Prod.fst
        let s := recoverLogFile crc o (w.dest.take n) x y first
        s.status = none ∧ s.tables.flatten = complete.flatMap addCalls ∧
          s.maxSequence = complete.foldl (fun m b ↦ max m (lastSeq b)) first) := by
  obtain ⟨w, placed, closed, last, hadd, hwritten⟩ := exists_written crc (batches.map encode)
  refine ⟨w, placed, hadd, hwritten.fragments, ?_⟩
  intro hagrees n x y first hn complete s
  have hread : ((Reader.new (w.dest.take n) true 0 x y).readAll crc).1 = complete.map encode := by
    rw [hwritten.readAll_take hagrees, List.zip_map_left, List.filter_map, List.map_map, List.map_map]
    rfl
  have hreports : o.paranoidChecks = false ∨
      ((Reader.new (w.dest.take n) true 0 x y).readAll crc).2.dropped = [] := by
    refine hn.imp_right ?_
    rintro rfl
    rw [List.take_length]
    exact hwritten.dropped_readAll hagrees x y
  have hcomplete : ∀ b ∈ complete, Logged b := by
    intro b hb
    obtain ⟨p, hp, rfl⟩ := List.mem_map.mp hb
    exact hlogged p.1 (List.of_mem_zip (List.mem_of_mem_filter hp)).1
  have hnew : Replayed first [] ⟨none, [], first, none⟩ := ⟨rfl, rfl, rfl⟩
  have h := hnew.recoverRecords hwrites (Reader.fromStart_new _ x y) hreports hcomplete hread
  obtain ⟨hend, hmem⟩ := h.finish hwrites
  refine ⟨hend.status, ?_, hend.maxSequence⟩
  have hcalls := hend.calls
  rwa [hmem, Option.getD_none, List.append_nil] at hcalls

def onePut : Batch := (GroupCommit.WriteBatch.cleared.add (.put ['k'.toUInt8] ['v'.toUInt8])).setSequence 5

def oneDeletion : Batch := (GroupCommit.WriteBatch.cleared.add (.delete ['k'.toUInt8])).setSequence 6

/-- The last byte of a second batch is missing. -/
theorem replay_recovers_one_put :
    ∃ w placed, Writer.addRecords byteSum {} ([onePut, oneDeletion].map encode) = some (w, placed) ∧
      let s := recoverLogFile byteSum ⟨false, fun _ ↦ true, fun _ ↦ none⟩ (w.dest.take (w.dest.length - 1)) 1 2 3
      s.status = none ∧ s.tables.flatten = [(5, .kTypeValue, ['k'.toUInt8], ['v'.toUInt8])] ∧
        s.maxSequence = 5 := by
  have hlogged : ∀ b ∈ [onePut, oneDeletion], Logged b := by
    rw [List.forall_mem_cons, List.forall_mem_singleton]
    exact ⟨⟨by decide, by decide, by decide⟩, ⟨by decide, by decide, by decide⟩⟩
  obtain ⟨w, placed, hadd, -, hreplay⟩ := replay_recovers_complete_batches byteSum
    ⟨false, fun _ ↦ true, fun _ ↦ none⟩ (fun _ ↦ rfl) [onePut, oneDeletion] hlogged
  obtain ⟨hstatus, htables, hsequence⟩ :=
    hreplay (fun p _ ↦ byteSum.agrees p) (w.dest.length - 1) 1 2 3 (.inl rfl)
  have hcomplete : (Writer.addRecords byteSum {} ([onePut, oneDeletion].map encode)).map (fun written ↦
      written.2.map fun ps ↦ ps.all fun p ↦ p.limit ≤ written.1.dest.length - 1) = some [true, false] := by
    decide +kernel
  rw [hadd, Option.map_some, Option.some.injEq] at hcomplete
  obtain ⟨ps, rest, rfl, hps, hrest⟩ := List.map_eq_cons_iff.mp hcomplete
  obtain ⟨qs, rest, rfl, hqs, -⟩ := List.map_eq_cons_iff.mp hrest
  have hzip : [onePut, oneDeletion].zip (ps :: qs :: rest) = [(onePut, ps), (oneDeletion, qs)] := rfl
  simp only [hzip, List.filter_cons, hps, hqs, if_true, Bool.false_eq_true, if_false, List.filter_nil]
    at htables hsequence
  exact ⟨w, _, hadd, hstatus, htables, hsequence⟩

end LevelDB.Db.RecoverLog
