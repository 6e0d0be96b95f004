import LevelDB.Util.Coding

/-!
# Log files

`log::Writer` of `db/log_writer.cpp` and `log::Reader` of `db/log_reader.cpp`, over files that are lists
of bytes.  A log is cut into blocks of `kBlockSize` bytes; a record is stored as one or more physical
records, none of which crosses a block boundary, and fewer than `kHeaderSize` bytes at the end of a block
are filled with zeros.

Appends succeed and `SequentialFile::Read` gives fewer bytes than asked for only at the end of the file,
as the files of `util/env_posix.cpp` do.  A failed assertion of the source is `none`.
-/

namespace LevelDB.Db.Log

open LevelDB.Util.Coding List

abbrev Bytes : Type := List UInt8

inductive RecordType where
  | kZeroType
  | kFullType
  | kFirstType
  | kMiddleType
  | kLastType
  deriving DecidableEq, Repr

/-- The value of the enumerator. -/
def RecordType.code : RecordType → ℕ
  | .kZeroType => 0
  | .kFullType => 1
  | .kFirstType => 2
  | .kMiddleType => 3
  | .kLastType => 4

def kMaxRecordType : ℕ := RecordType.kLastType.code

/-- The two further values that `ReadPhysicalRecord` can return. -/
def kEof : ℕ := kMaxRecordType + 1

def kBadRecord : ℕ := kMaxRecordType + 2

def kBlockSize : ℕ := 32768

/-- Checksum, length and type. -/
def kHeaderSize : ℕ := 4 + 1 + 2

/-- The checksums of the physical records of a log.  The ones of the source depend on the addresses of the
buffers. -/
structure Checksum where
  /-- `Extend(type_crc_[t], ptr, n)` for the physical record that is put at an offset of the file. -/
  stored : ℕ → UInt8 → Bytes → UInt32
  /-- `Value(header + 6, 1 + length)` for a header at an offset of `backing_store_`. -/
  computed : ℕ → Bytes → UInt32

/-- `crc32c::Value` and `crc32c::Extend` with their documented relation. -/
structure Crc32c where
  value : Bytes → UInt32
  extend : UInt32 → Bytes → UInt32
  extend_value : ∀ a b, extend (value a) b = value (a ++ b)

namespace Crc32c

def kMaskDelta : UInt32 := 0xa282ead8

/-- Rotate right by 15 bits and add a constant. -/
def mask (crc : UInt32) : UInt32 := ((crc >>> 15) ||| (crc <<< 17)) + kMaskDelta

def unmask (maskedCrc : UInt32) : UInt32 :=
  let rot := maskedCrc - kMaskDelta
  (rot >>> 17) ||| (rot <<< 15)

/-- The same checksums at all addresses. -/
def checksum (crc : Crc32c) : Checksum where
  stored _ t := crc.extend (crc.value [t])
  computed _ := crc.value

instance : Coe Crc32c Checksum := ⟨checksum⟩

end Crc32c

theorem Crc32c.unmask_mask (crc : UInt32) : Crc32c.unmask (Crc32c.mask crc) = crc := by
  simp only [unmask, mask, UInt32.add_sub_cancel]
  apply UInt32.toBitVec_inj.mp
  simp only [UInt32.toBitVec_or, UInt32.toBitVec_shiftRight, UInt32.toBitVec_shiftLeft]
  ext i hi
  interval_cases i <;> simp

structure Writer where
  dest : Bytes := []
  blockOffset : ℕ := 0
  deriving DecidableEq, Repr

/-- A physical record together with the offset in the file at which its header starts. -/
structure PhysicalRecord where
  offset : ℕ
  type : RecordType
  payload : Bytes
  deriving DecidableEq, Repr

namespace PhysicalRecord

def bytes (crc : Checksum) (p : PhysicalRecord) : Bytes :=
  let t := UInt8.ofNat p.type.code
  let checksum := Crc32c.mask (crc.stored p.offset t p.payload)
  encodeFixed32 checksum.toNat ++
    [UInt8.ofNat p.payload.length, UInt8.ofNat (p.payload.length / 256), t] ++ p.payload

def size (p : PhysicalRecord) : ℕ := kHeaderSize + p.payload.length

def limit (p : PhysicalRecord) : ℕ := p.offset + p.size

end PhysicalRecord

namespace Writer

variable (crc : Checksum)

def emitPhysicalRecord (w : Writer) (p : PhysicalRecord) : Option Writer :=
  if p.payload.length ≤ 0xffff ∧ w.blockOffset + kHeaderSize + p.payload.length ≤ kBlockSize then
    some { dest := w.dest ++ p.bytes crc, blockOffset := w.blockOffset + kHeaderSize + p.payload.length }
  else none

/-- The start of the loop of `AddRecord`: a block with no room for a header is filled with zeros. -/
def switchBlock (w : Writer) : Option Writer :=
  if w.blockOffset ≤ kBlockSize then
    let leftover := kBlockSize - w.blockOffset
    if leftover < kHeaderSize then
      some { dest := w.dest ++ List.replicate leftover 0, blockOffset := 0 }
    else some w
  else none

def fragmentType (begins ends : Bool) : RecordType :=
  if begins && ends then .kFullType
  else if begins then .kFirstType
  else if ends then .kLastType
  else .kMiddleType

def nextFragment (w : Writer) (begins : Bool) (left : Bytes) : PhysicalRecord :=
  let avail := kBlockSize - w.blockOffset - kHeaderSize
  let fragmentLength := if left.length < avail then left.length else avail
  { offset := w.dest.length
    type := fragmentType begins (left.length == fragmentLength)
    payload := left.take fragmentLength }

theorem length_payload_nextFragment (w : Writer) (begins : Bool) (left : Bytes) :
    (w.nextFragment begins left).payload.length =
      min left.length (kBlockSize - w.blockOffset - kHeaderSize) := by
  simp only [nextFragment, length_take]
  split <;> omega

set_option linter.unusedVariables false in
def addFragments (w : Writer) (begins : Bool) (left : Bytes) : Option (Writer × List PhysicalRecord) :=
  match hswitch : w.switchBlock with
  | none => none
  | some w₁ =>
    let p := w₁.nextFragment begins left
    match hemit : w₁.emitPhysicalRecord crc p with
    | none => none
    | some w₂ =>
      if 0 < left.length - p.payload.length then
        (addFragments w₂ false (left.drop p.payload.length)).map fun result ↦ (result.1, p :: result.2)
      else some (w₂, [p])
termination_by left.length * (kBlockSize + 1) + (kBlockSize - w.blockOffset)
decreasing_by
  have hlength : p.payload.length = _ := length_payload_nextFragment w₁ begins left
  change (left.drop p.payload.length).length * _ + _ < _
  clear_value p
  -- An empty fragment with more to come fills a block of which only a header's room was left.
  simp only [switchBlock] at hswitch
  simp only [emitPhysicalRecord, Option.ite_none_right_eq_some, Option.some.injEq] at hemit
  rw [← hemit.2, length_drop]
  split at hswitch
  · split at hswitch
    all_goals
      simp only [Option.some.injEq] at hswitch
      subst hswitch
      simp only [kBlockSize, kHeaderSize] at *
      omega
  · contradiction

def addRecord (w : Writer) (record : Bytes) : Option (Writer × List PhysicalRecord) :=
  w.addFragments crc true record

def addRecords (w : Writer) : List Bytes → Option (Writer × List (List PhysicalRecord))
  | [] => some (w, [])
  | record :: rest =>
    match w.addRecord crc record with
    | none => none
    | some (w₁, fragments) =>
      (addRecords w₁ rest).map fun result ↦ (result.1, fragments :: result.2)

end Writer

/-- A byte count and a reason, as given to `Reporter::Corruption`. -/
abbrev Report : Type := ℕ × String

/-- `log::Reader`, with what its file has still to give and what it has reported so far. -/
structure Reader where
  file : Bytes
  checksum : Bool
  initialOffset : UInt64
  buffer : Bytes := []
  /-- How many bytes of `backing_store_` the last read has filled. -/
  filled : ℕ := 0
  eof : Bool := false
  lastRecordOffset : UInt64
  endOfBufferOffset : UInt64
  dropped : List Report := []
  deriving DecidableEq, Repr

namespace Reader

variable (crc : Checksum)

/-- The constructor.  It leaves `last_record_offset_` and `end_of_buffer_offset_` uninitialised, so
their values are arguments here. -/
def new (file : Bytes) (checksum : Bool) (initialOffset lastRecordOffset endOfBufferOffset : UInt64) :
    Reader where
  file
  checksum
  initialOffset
  lastRecordOffset
  endOfBufferOffset

def position (r : Reader) : UInt64 := r.endOfBufferOffset - UInt64.ofNat r.buffer.length

def reportDrop (r : Reader) (report : Report) : Reader :=
  if r.initialOffset ≤ r.position - UInt64.ofNat report.1 then
    { r with dropped := r.dropped ++ [report] }
  else r

def blockStartLocation (initialOffset : UInt64) : UInt64 :=
  let offsetInBlock := initialOffset % UInt64.ofNat kBlockSize
  let blockStartLocation := initialOffset - offsetInBlock
  -- don't search a block if we'd be in the trailer
  if UInt64.ofNat kBlockSize - 6 < offsetInBlock then blockStartLocation + UInt64.ofNat kBlockSize
  else blockStartLocation

/-- `SkipToInitialBlock`; `Skip` succeeds, also past the end of the file. -/
def skipToInitialBlock (r : Reader) : Reader :=
  { r with
    endOfBufferOffset := blockStartLocation r.initialOffset
    file := r.file.drop (blockStartLocation r.initialOffset).toNat }

/-- The loop of `ReadPhysicalRecord` reads the next block and continues. -/
def refill (r : Reader) : Reader :=
  let block := r.file.take kBlockSize
  { r with
    file := r.file.drop kBlockSize
    buffer := block
    filled := block.length
    endOfBufferOffset := r.endOfBufferOffset + UInt64.ofNat block.length
    eof := decide (block.length < kBlockSize) }

def headerLength (buffer : Bytes) : ℕ := (buffer.getD 4 0).toNat ||| ((buffer.getD 5 0).toNat <<< 8)

/-- The type in the header at the start of the buffer: a signed `char` converted to `unsigned int`. -/
def headerType (buffer : Bytes) : ℕ :=
  let byte := (buffer.getD 6 0).toNat
  if byte < 128 then byte else 2 ^ 32 - 256 + byte

def expectedCrc (buffer : Bytes) : UInt32 := Crc32c.unmask (UInt32.ofNat (decodeFixed32 buffer 0))

/-- The buffer is the end of what was read into `backing_store_`. -/
def actualCrc (filled : ℕ) (buffer : Bytes) : UInt32 :=
  crc.computed (filled - buffer.length) ((buffer.drop 6).take (1 + headerLength buffer))

/-- `ReadPhysicalRecord` once the buffer holds a header. -/
def parseHeader (r : Reader) : Reader × ℕ × Bytes :=
  let length := headerLength r.buffer
  let type := headerType r.buffer
  let cleared := { r with buffer := [] }
  if r.buffer.length < kHeaderSize + length then
    (cleared.reportDrop (r.buffer.length, "bad record length"), kBadRecord, [])
  else if type = RecordType.kZeroType.code ∧ length = 0 then
    (cleared, kBadRecord, [])
  else if r.checksum ∧ actualCrc crc r.filled r.buffer ≠ expectedCrc r.buffer then
    (cleared.reportDrop (r.buffer.length, "checksum mismatch"), kBadRecord, [])
  else
    let rest := { r with buffer := r.buffer.drop (kHeaderSize + length) }
    if rest.position - UInt64.ofNat kHeaderSize - UInt64.ofNat length < r.initialOffset then
      (rest, kBadRecord, [])
    else (rest, type, (r.buffer.drop kHeaderSize).take length)

def readPhysicalRecord (r : Reader) : Reader × ℕ × Bytes :=
  if r.buffer.length < kHeaderSize then
    if r.eof = false then readPhysicalRecord r.refill
    else if r.buffer.length = 0 then (r, kEof, [])
    else
      (reportDrop { r with buffer := [] } (r.buffer.length, "truncated record at end of file"), kEof, [])
  else r.parseHeader crc
termination_by if r.eof then 0 else r.file.length + 1
decreasing_by
  rename_i heof
  simp only [refill, heof, length_drop, length_take, decide_eq_true_eq, kBlockSize]
  split <;> simp only [Bool.false_eq_true, if_false] <;> omega

/-- What `ReadRecord` does with a physical record. -/
inductive Verdict where
  | returned (record : Bytes)
  | endOfFile
  | again (inFragmentedRecord : Bool) (scratch : Bytes)
  deriving DecidableEq, Repr

/-- The switch in the loop of `ReadRecord`, with the corruption that it reports. -/
def dispatch (inFragmentedRecord : Bool) (scratch : Bytes) (type : ℕ) (fragment : Bytes) :
    Verdict × List Report :=
  if type = RecordType.kFullType.code then
    -- An unfinished record without a byte is what an earlier writer could leave at the end of a block.
    (.returned fragment,
      if inFragmentedRecord ∧ scratch ≠ [] then [(scratch.length, "partial record without end(1)")] else [])
  else if type = RecordType.kFirstType.code then
    (.again true fragment,
      if inFragmentedRecord ∧ scratch ≠ [] then [(scratch.length, "partial record without end(2)")] else [])
  else if type = RecordType.kMiddleType.code then
    if inFragmentedRecord then (.again true (scratch ++ fragment), [])
    else (.again false scratch, [(fragment.length, "missing start of fragmented record(1)")])
  else if type = RecordType.kLastType.code then
    if inFragmentedRecord then (.returned (scratch ++ fragment), [])
    else (.again false scratch, [(fragment.length, "missing start of fragmented record(2)")])
  else if type = kEof then
    (.endOfFile, if inFragmentedRecord then [(scratch.length, "partial record without end(3)")] else [])
  else if type = kBadRecord then
    if inFragmentedRecord then (.again false [], [(scratch.length, "error in middle of record")])
    else (.again false scratch, [])
  else
    (.again false [], [(fragment.length + (if inFragmentedRecord then scratch.length else 0),
        "unknown record type " ++ toString type)])

def reportDrops (r : Reader) (reports : List Report) : Reader := reports.foldl reportDrop r

def remaining (r : Reader) : ℕ := r.file.length + r.buffer.length

@[simp]
theorem remaining_reportDrop (r : Reader) (report : Report) :
    (r.reportDrop report).remaining = r.remaining := by
  unfold reportDrop
  split <;> rfl

@[simp]
theorem remaining_reportDrops (r : Reader) (reports : List Report) :
    (r.reportDrops reports).remaining = r.remaining := by
  induction reports generalizing r with
  | nil => rfl
  | cons report reports ih => exact (ih (r.reportDrop report)).trans (remaining_reportDrop r report)

theorem remaining_parseHeader_lt (r : Reader) (h : kHeaderSize ≤ r.buffer.length) :
    (r.parseHeader crc).1.remaining < r.remaining := by
  have hpos : 0 < r.buffer.length := lt_of_lt_of_le (by decide) h
  have hcleared : Reader.remaining { r with buffer := [] } < r.remaining :=
    Nat.add_lt_add_left hpos r.file.length
  have hrest : Reader.remaining
      { r with buffer := r.buffer.drop (kHeaderSize + headerLength r.buffer) } < r.remaining := by
    simp only [remaining, length_drop, kHeaderSize] at *
    omega
  simp only [parseHeader]
  split_ifs <;> simpa only [remaining_reportDrop]

/-- Every physical record before the end of the file takes something away. -/
theorem remaining_readPhysicalRecord_lt (r : Reader) (h : (r.readPhysicalRecord crc).2.1 ≠ kEof) :
    (r.readPhysicalRecord crc).1.remaining < r.remaining := by
  induction r using readPhysicalRecord.induct with
  | case1 r hshort heof ih =>
    rw [readPhysicalRecord, if_pos hshort, if_pos heof] at h ⊢
    refine lt_of_lt_of_le (ih h) ?_
    simp only [remaining, refill, length_drop, length_take]
    omega
  | case2 r hshort heof hempty =>
    rw [readPhysicalRecord, if_pos hshort, if_neg heof, if_pos hempty] at h
    exact absurd rfl h
  | case3 r hshort heof hempty =>
    rw [readPhysicalRecord, if_pos hshort, if_neg heof, if_neg hempty] at h
    exact absurd rfl h
  | case4 r hlong =>
    rw [readPhysicalRecord, if_neg hlong]
    exact remaining_parseHeader_lt crc r (not_lt.mp hlong)

theorem dispatch_kEof (inFragmentedRecord : Bool) (scratch fragment : Bytes) :
    (dispatch inFragmentedRecord scratch kEof fragment).1 = .endOfFile := rfl

/-- Where the record that is being read starts: a first or full fragment starts it anew. -/
def prospectiveRecordOffset (r : Reader) (type : ℕ) (previous : UInt64) : UInt64 :=
  if type = RecordType.kFullType.code ∨ type = RecordType.kFirstType.code then r.position else previous

def afterPhysicalRecord (r : Reader) (inFragmentedRecord : Bool) (scratch : Bytes) : Reader :=
  let read := r.readPhysicalRecord crc
  read.1.reportDrops (dispatch inFragmentedRecord scratch read.2.1 read.2.2).2

theorem remaining_afterPhysicalRecord_lt (r : Reader) {inFragmentedRecord : Bool} {scratch : Bytes}
    (h : (dispatch inFragmentedRecord scratch (r.readPhysicalRecord crc).2.1
      (r.readPhysicalRecord crc).2.2).1 ≠ .endOfFile) :
    (r.afterPhysicalRecord crc inFragmentedRecord scratch).remaining < r.remaining := by
  rw [afterPhysicalRecord, remaining_reportDrops]
  apply remaining_readPhysicalRecord_lt
  intro heof
  apply h
  rw [heof, dispatch_kEof]

set_option linter.unusedVariables false in
def readFragments (r : Reader) (inFragmentedRecord : Bool) (scratch : Bytes) (prospective : UInt64) :
    Reader × Option Bytes :=
  let read := r.readPhysicalRecord crc
  let r₁ := r.afterPhysicalRecord crc inFragmentedRecord scratch
  let prospective := r.prospectiveRecordOffset read.2.1 prospective
  match hverdict : (dispatch inFragmentedRecord scratch read.2.1 read.2.2).1 with
  | .returned record => ({ r₁ with lastRecordOffset := prospective }, some record)
  | .endOfFile => (r₁, none)
  | .again inFragmentedRecord scratch => readFragments r₁ inFragmentedRecord scratch prospective
termination_by r.remaining
decreasing_by
  apply remaining_afterPhysicalRecord_lt
  rw [hverdict]
  exact Verdict.noConfusion

def readRecord (r : Reader) : Reader × Option Bytes :=
  let r := if r.lastRecordOffset < r.initialOffset then r.skipToInitialBlock else r
  r.readFragments crc false [] 0

theorem remaining_readFragments_lt (r : Reader) (inFragmentedRecord : Bool) (scratch : Bytes)
    (prospective : UInt64) {record : Bytes}
    (h : (r.readFragments crc inFragmentedRecord scratch prospective).2 = some record) :
    (r.readFragments crc inFragmentedRecord scratch prospective).1.remaining < r.remaining := by
  fun_induction readFragments crc r inFragmentedRecord scratch prospective with
  | case1 r f s p read r₁ prospective record' hverdict =>
    refine @remaining_afterPhysicalRecord_lt crc r f s ?_
    rw [hverdict]
    exact Verdict.noConfusion
  | case2 => contradiction
  | case3 r f s p read r₁ prospective f' s' hverdict ih =>
    refine (ih h).trans (remaining_afterPhysicalRecord_lt crc r ?_)
    rw [hverdict]
    exact Verdict.noConfusion

theorem remaining_readRecord_lt (r : Reader) {record : Bytes} (h : (r.readRecord crc).2 = some record) :
    (r.readRecord crc).1.remaining < r.remaining := by
  refine (remaining_readFragments_lt crc _ false [] 0 h).trans_le ?_
  split
  · simp only [remaining, skipToInitialBlock, length_drop]
    omega
  · exact le_rfl

set_option linter.unusedVariables false in
/-- The records that `ReadRecord` gives until it returns false. -/
def readAll (r : Reader) : List Bytes × Reader :=
  match hread : (r.readRecord crc).2 with
  | none => ([], (r.readRecord crc).1)
  | some record =>
    let rest := readAll (r.readRecord crc).1
    (record :: rest.1, rest.2)
termination_by r.remaining
decreasing_by exact remaining_readRecord_lt crc r hread

end Reader

end LevelDB.Db.Log
