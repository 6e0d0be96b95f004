import LevelDB.Db.LogAhead
import LevelDB.Util.Crc32c

/-!
# The checksums of a log

The writer extends the checksum of the type by the payload, and the reader computes the checksum of both in its
buffer.  With `util/crc32c.cpp` the two depend on where the buffers lie and need not be the same.  A physical
record whose checksums differ is reported and lost with the rest of its block, though nothing has happened to
the file: damage stays where it is (`damaged_log_reads_written_records_iff`), and the records of a preallocated
file are read without a report (`preallocated_log_reads_records_iff`), exactly when they are the same for all
physical records.
-/

namespace LevelDB.Db.Log

open LevelDB.Library.Slices List

/-- Where the buffers lie of which checksums are computed. -/
structure Addresses where
  /-- `&t` in the constructor of `Writer` -/
  t : ℕ
  /-- `ptr` of `EmitPhysicalRecord`, for the physical record at an offset of the file -/
  ptr : ℕ → ℕ
  /-- `backing_store_` -/
  backingStore : ℕ

/-- The checksums that `util/crc32c.cpp` computes there. -/
def Addresses.checksum (addresses : Addresses) : Checksum where
  stored offset type payload := .ofBitVec
    (Util.Crc32c.extend (addresses.ptr offset) (Util.Crc32c.value addresses.t [type]) payload)
  computed place bytes := .ofBitVec (Util.Crc32c.value (addresses.backingStore + place + 6) bytes)

section Bad

variable {crc : Checksum} {filled start : ℕ} {ps last : List PhysicalRecord} {closed : List (List PhysicalRecord)}
  {written : Bytes}

theorem scan_of_not_agrees (h : Laid start ps) (hfit : total ps ≤ kBlockSize) {rest : Bytes}
    (hbad : ∃ p ∈ ps, ¬ p.Agrees crc)
    (hplaced : ∀ p ∈ ps, p.Placed filled (start + (bytesOf crc ps ++ rest).length)) :
    ∃ (before : List PhysicalRecord) (report : Report),
      scan crc filled (bytesOf crc ps ++ rest) = (before.map PhysicalRecord.event ++ [.bad [report]], []) := by
  induction ps generalizing start with
  | nil =>
    obtain ⟨p, hp, -⟩ := hbad
    cases hp
  | cons p ps ih =>
    obtain ⟨hplacedp, hplaced⟩ := forall_mem_cons.mp hplaced
    rw [scan_bytesOf_cons h hfit hplacedp]
    by_cases hagrees : p.Agrees crc
    · rw [h.limit_add] at hplaced
      rw [total_cons] at hfit
      have hlater := ((exists_mem_cons_iff _ p ps).mp hbad).resolve_left (not_not_intro hagrees)
      obtain ⟨before, report, hscan⟩ := ih h.2.2 (by omega) hlater hplaced
      refine ⟨p :: before, report, ?_⟩
      rw [if_pos hagrees, hscan]
      rfl
    · rw [if_neg hagrees]
      exact ⟨[], _, rfl⟩

theorem Blocks.exists_bad (h : Blocks crc last start closed written) (hstart : kBlockSize ∣ start)
    (hbad : ∃ p ∈ closed.flatten ++ last, ¬ p.Agrees crc) (tail : Bytes) :
    ∃ (before : List PhysicalRecord) (report : Report) (es : List Event),
      fileEvents crc (written ++ tail) = before.map PhysicalRecord.event ++ .bad [report] :: es := by
  induction h with
  | @last start hlaid hfit =>
    have hlength := length_bytesOf crc last
    have htake : (bytesOf crc last ++ tail).take kBlockSize =
        bytesOf crc last ++ tail.take (kBlockSize - total last) := by
      rw [take_append, hlength, take_of_length_le (hlength.trans_le hfit)]
    obtain ⟨before, report, hscan⟩ := scan_of_not_agrees hlaid hfit hbad fun p hp ↦
      hlaid.placed hstart hfit hp (bytesOf crc last ++ tail.take (kBlockSize - total last)).length
    rw [fileEvents_eq_scan, htake]
    dsimp only
    rw [hscan, append_assoc, singleton_append]
    exact ⟨before, report, _, rfl⟩
  | @cons start ps closed written hlaid hfit hfull hrest ih =>
    have hlength := length_block crc hfit
    have hplaced (p : PhysicalRecord) (hp : p ∈ ps) :=
      hlaid.placed hstart hfit hp (bytesOf crc ps ++ List.replicate (kBlockSize - total ps) 0).length
    rw [append_assoc, fileEvents_eq_scan]
    dsimp only
    rw [take_left' hlength, drop_left' hlength]
    by_cases hps : ∃ p ∈ ps, ¬ p.Agrees crc
    · obtain ⟨before, report, hscan⟩ := scan_of_not_agrees hlaid hfit hps hplaced
      rw [hscan, append_assoc, singleton_append]
      exact ⟨before, report, _, rfl⟩
    · have hagrees : ∀ p ∈ ps, p.Agrees crc := fun p hp ↦ by_contra fun hp' ↦ hps ⟨p, hp, hp'⟩
      have hlater : ∃ p ∈ closed.flatten ++ last, ¬ p.Agrees crc := by
        obtain ⟨p, hp, hbad⟩ := hbad
        rw [flatten_cons, append_assoc] at hp
        exact ⟨p, (mem_append.mp hp).resolve_left fun hp ↦ hbad (hagrees p hp), hbad⟩
      have htrailer : (List.replicate (kBlockSize - total ps) (0 : UInt8)).length < kHeaderSize := by
        rw [length_replicate]
        omega
      obtain ⟨before, report, es, hevents⟩ := ih (Nat.dvd_add hstart (dvd_refl _)) hlater
      refine ⟨ps ++ before, report, es, ?_⟩
      rw [scan_bytesOf hlaid hfit hagrees hplaced, scan_of_lt crc _ htrailer, append_nil, if_neg, hevents,
        map_append, append_assoc]
      rw [length_append, hlength]
      omega

theorem dispatch_ne_endOfFile (inFragmentedRecord : Bool) (scratch : Bytes) (type : RecordType)
    (fragment : Bytes) :
    (Reader.dispatch inFragmentedRecord scratch type.code fragment).1 ≠ .endOfFile := by
  cases type <;> cases inFragmentedRecord <;>
    simp [Reader.dispatch, RecordType.code, kEof, kMaxRecordType, kBadRecord]

theorem reports_assemble_bad (before : List PhysicalRecord) (report : Report) (es : List Event)
    (inFragmentedRecord : Bool) (scratch : Bytes) :
    (assemble inFragmentedRecord scratch (before.map PhysicalRecord.event ++ .bad [report] :: es)).2 ≠ [] := by
  induction before generalizing inFragmentedRecord scratch with
  | nil =>
    rw [map_nil, nil_append, assemble]
    split <;> exact cons_ne_nil _ _
  | cons p before ih =>
    rw [map_cons, cons_append, assemble]
    split
    · exact append_ne_nil_of_right_ne_nil _ (ih false [])
    · rename_i hend
      exact absurd hend (dispatch_ne_endOfFile inFragmentedRecord scratch p.type p.payload)
    · exact append_ne_nil_of_right_ne_nil _ (ih _ _)

end Bad

section Logs

variable {crc : Checksum} {records : List Bytes} {w : Writer} {placed closed : List (List PhysicalRecord)}
  {last : List PhysicalRecord}

section

variable (h : Written crc records w placed closed last)
include h

/-- A log that is read without a report has the checksums that the reader computes. -/
theorem Written.agrees_of_dropped {tail : Bytes} {lastRecordOffset endOfBufferOffset : UInt64}
    (hdropped :
      ((Reader.new (w.dest ++ tail) true 0 lastRecordOffset endOfBufferOffset).readAll crc).2.dropped = []) :
    ∀ p ∈ placed.flatten, p.Agrees crc := by
  rw [← h.flatten]
  by_contra hbad
  simp only [not_forall, exists_prop] at hbad
  obtain ⟨before, report, es, hevents⟩ := h.blocks.exists_bad (dvd_zero _) hbad tail
  rw [(Reader.fromStart_new _ _ _).readAll_eq_assemble.2, Reader.events_new, hevents] at hdropped
  exact reports_assemble_bad before report es false [] (append_eq_nil_iff.mp hdropped).2

/-- The records read from a file in which no physical record that was changed passes for one. -/
theorem Written.readAll_damaged {data : Bytes} (hlength : data.length = w.dest.length)
    (hchecksum : ∀ p ∈ placed.flatten, PassesAt crc data p.offset →
      physicalBytes (slice data p.offset (blockEnd p.offset)) = p.bytes crc)
    (lastRecordOffset endOfBufferOffset : UInt64) :
    ((Reader.new data true 0 lastRecordOffset endOfBufferOffset).readAll crc).1 =
      survivors (readable crc data placed.flatten) (records.zip placed) :=
  h.readAll_eq hlength.le (fun p hp _ hlost hpasses ↦
    hlost (h.intact_of_passes hp hpasses (hchecksum p hp hpasses))) _ _

theorem Written.physicalBytes_eq {p : PhysicalRecord} (hp : p ∈ placed.flatten) :
    physicalBytes (slice w.dest p.offset (blockEnd p.offset)) = p.bytes crc := by
  rw [(h.stands hp).slice_eq (h.limit_le_blockEnd hp), physicalBytes,
    headerLength_bytes crc (h.length_payload_le hp)]
  exact take_left' (p.length_bytes crc)

theorem Written.records_readAll (hagrees : ∀ p ∈ placed.flatten, p.Agrees crc)
    (lastRecordOffset endOfBufferOffset : UInt64) :
    ((Reader.new w.dest true 0 lastRecordOffset endOfBufferOffset).readAll crc).1 = records := by
  rw [h.readAll_damaged rfl fun p hp _ ↦ h.physicalBytes_eq hp, survivors, filter_eq_self.mpr,
    map_fst_zip (List.Forall₂.length_eq h.fragments).le]
  intro r _
  rw [all_eq_true]
  exact fun p _ ↦ h.readable_of_untouched hagrees fun i _ _ ↦ rfl

theorem agrees_of_survivors
    (hall : survivors (readable crc w.dest placed.flatten) (records.zip placed) = records) :
    ∀ p ∈ placed.flatten, p.Agrees crc := by
  have hlength := congrArg List.length hall
  have hcount : records.length = (records.zip placed).length := by
    rw [length_zip, List.Forall₂.length_eq h.fragments, Nat.min_self]
  rw [survivors, length_map, hcount, length_filter_eq_length_iff] at hlength
  intro p hp
  have hp' := hp
  rw [← h.map_snd_zip, mem_flatten] at hp'
  obtain ⟨ps, hps, hmem⟩ := hp'
  obtain ⟨r, hr, rfl⟩ := mem_map.mp hps
  have hreadable := all_eq_true.mp (hlength r hr) p hmem
  rw [readable, decide_eq_true_iff] at hreadable
  exact (hreadable p hp rfl le_rfl).agrees

end

end Logs

/-- **Damage stays where it is** exactly if the checksums of all physical records are those that the reader
computes: then a reader over a file that was changed in any of its bytes, where no physical record that was
changed passes for one, returns records that were written, each at most once and in order, among them every
record that has no byte in a block that was changed. -/
theorem damaged_log_reads_written_records_iff (addresses : Addresses) (records : List Bytes) :
    ∃ w placed, Writer.addRecords addresses.checksum {} records = some (w, placed) ∧
      List.Forall₂ Fragments records placed ∧
      ((∀ data : Bytes, data.length = w.dest.length →
        (∀ p ∈ placed.flatten, PassesAt addresses.checksum data p.offset →
          physicalBytes (slice data p.offset (blockEnd p.offset)) = p.bytes addresses.checksum) →
        ∀ lastRecordOffset endOfBufferOffset : UInt64,
          ∃ returned : List Bool, returned.length = records.length ∧
            ((Reader.new data true 0 lastRecordOffset endOfBufferOffset).readAll addresses.checksum).1 =
              ((records.zip returned).filter Prod.snd).map Prod.fst ∧
            ∀ i, (∀ p ∈ placed.getD i [], Untouched data w.dest p) → i < records.length →
              returned.getD i false = true) ↔
        ∀ p ∈ placed.flatten, p.Agrees addresses.checksum) := by
  obtain ⟨w, placed, closed, last, hadd, h⟩ := exists_written addresses.checksum records
  have hcount := List.Forall₂.length_eq h.fragments
  refine ⟨w, placed, hadd, h.fragments, fun hcontained ↦ ?_, fun hagrees data hlength hchecksum _ _ ↦ ?_⟩
  · -- the file as it was written is untouched everywhere
    obtain ⟨returned, hreturned, hread, hall⟩ := hcontained w.dest rfl (fun p hp _ ↦ h.physicalBytes_eq hp) 0 0
    rw [h.readAll_damaged rfl fun p hp _ ↦ h.physicalBytes_eq hp] at hread
    refine agrees_of_survivors h (hread.trans ?_)
    rw [filter_eq_self.mpr, map_fst_zip hreturned.ge]
    rintro ⟨record, flag⟩ hmem
    obtain ⟨i, hi, heq⟩ := mem_iff_getElem.mp (of_mem_zip hmem).2
    have hflag := hall i (fun p _ j _ _ ↦ rfl) (hreturned ▸ hi)
    rwa [getD_eq_getElem _ _ hi, heq] at hflag
  · refine ⟨placed.map fun ps ↦ ps.all (readable addresses.checksum data placed.flatten), ?_, ?_, ?_⟩
    · rw [length_map, hcount]
    · rw [← survivors_zip]
      exact h.readAll_damaged hlength hchecksum _ _
    · intro i huntouched hi
      have hi' : i < placed.length := hcount ▸ hi
      rw [getD_eq_getElem _ _ (by rwa [length_map]), getElem_map, all_eq_true]
      rw [getD_eq_getElem _ _ hi'] at huntouched
      exact fun p hp ↦ h.readable_of_untouched hagrees (huntouched p hp)

def alignedBuffers : Addresses := ⟨0, fun _ ↦ 0, 0⟩

/-- A log of the record `abcd` to which nothing has happened. -/
theorem undamaged_record_is_lost :
    ∃ w placed, Writer.addRecords alignedBuffers.checksum {} [[97, 98, 99, 100]] = some (w, placed) ∧
      (∀ p ∈ placed.flatten, PassesAt alignedBuffers.checksum w.dest p.offset →
        physicalBytes (slice w.dest p.offset (blockEnd p.offset)) = p.bytes alignedBuffers.checksum) ∧
      (∀ p ∈ placed.flatten, Untouched w.dest w.dest p) ∧
      (Reader.new w.dest true 0 0 0).readAll alignedBuffers.checksum =
        ([], { Reader.new w.dest true 0 0 0 with
          file := [], filled := 11, eof := true, endOfBufferOffset := 11,
          dropped := [(11, "checksum mismatch")] }) := by
  obtain ⟨w, placed, closed, last, hadd, h⟩ := exists_written alignedBuffers.checksum [[97, 98, 99, 100]]
  refine ⟨w, placed, hadd, fun p hp _ ↦ h.physicalBytes_eq hp, fun p _ i _ _ ↦ rfl, ?_⟩
  have hread : (Writer.addRecords alignedBuffers.checksum {} [[97, 98, 99, 100]]).all (fun written ↦
      (Reader.new written.1.dest true 0 0 0).readAll alignedBuffers.checksum =
        ([], { Reader.new written.1.dest true 0 0 0 with
          file := [], filled := 11, eof := true, endOfBufferOffset := 11,
          dropped := [(11, "checksum mismatch")] })) := by
    decide +kernel
  rw [hadd] at hread
  simpa using hread

/-- A log that is followed by zeros up to the end of a block, as a preallocated file is, gives its records
without a report exactly if the checksums of all physical records are those that the reader computes. -/
theorem preallocated_log_reads_records_iff (addresses : Addresses) (records : List Bytes) :
    ∃ w placed, Writer.addRecords addresses.checksum {} records = some (w, placed) ∧
      List.Forall₂ Fragments records placed ∧
      ((∀ n : ℕ, kBlockSize ∣ w.dest.length + n →
        ∀ (checksum : Bool) (lastRecordOffset endOfBufferOffset : UInt64),
          ∃ r, (Reader.new (w.dest ++ List.replicate n 0) checksum 0 lastRecordOffset
            endOfBufferOffset).readAll addresses.checksum = (records, r) ∧ r.dropped = []) ↔
        ∀ p ∈ placed.flatten, p.Agrees addresses.checksum) := by
  obtain ⟨w, placed, closed, last, hadd, h⟩ := exists_written addresses.checksum records
  refine ⟨w, placed, hadd, h.fragments, fun hread ↦ ?_, fun hagrees n hn ↦ h.readAll_preallocated hagrees hn⟩
  have hdvd : kBlockSize ∣ w.dest.length + w.dest.length * (kBlockSize - 1) := by
    refine ⟨w.dest.length, ?_⟩
    simp only [kBlockSize]
    omega
  obtain ⟨r, hr, hdropped⟩ := hread _ hdvd true 0 0
  rw [← show _ = r from congrArg Prod.snd hr] at hdropped
  exact h.agrees_of_dropped hdropped

/-- The record `abcd`, followed by zeros up to the end of the block, is reported. -/
theorem preallocated_record_is_reported :
    ∃ w placed, Writer.addRecords alignedBuffers.checksum {} [[97, 98, 99, 100]] = some (w, placed) ∧
      kBlockSize ∣ w.dest.length + 32757 ∧
      ((Reader.new (w.dest ++ List.replicate 32757 0) true 0 0 0).readAll
        alignedBuffers.checksum).2.dropped ≠ [] := by
  obtain ⟨w, placed, closed, last, hadd, h⟩ := exists_written alignedBuffers.checksum [[97, 98, 99, 100]]
  have hwritten : (Writer.addRecords alignedBuffers.checksum {} [[97, 98, 99, 100]]).all (fun written ↦
      written.1.dest.length = 11 ∧ ¬ ∀ p ∈ written.2.flatten, p.Agrees alignedBuffers.checksum) := by
    decide +kernel
  rw [hadd, Option.all_some, decide_eq_true_iff] at hwritten
  refine ⟨w, placed, hadd, ?_, fun hdropped ↦ hwritten.2 (h.agrees_of_dropped hdropped)⟩
  rw [hwritten.1]
  exact dvd_refl _

end LevelDB.Db.Log
