import LevelDB.Db.Format
import LevelDB.Util.Coding
import Mathlib.Data.Finset.Sort
import Mathlib.Data.Prod.Lex

/-!
# Version edits as bytes

`VersionEdit::EncodeTo` and `VersionEdit::DecodeFrom` of `db/version_edit.cpp`, with the version edit as the
class has it: the internal keys are their encodings and the deleted files a set.  The bytes are a sequence
of tagged records.  One round of the loop of `DecodeFrom` reads one record, so it reads back all of them.
-/

namespace LevelDB.Db.VersionEditCoding

open Format Util.Coding List

inductive Tag
  | kComparator
  | kLogNumber
  | kNextFileNumber
  | kLastSequence
  | kCompactPointer
  | kDeletedFile
  | kNewFile
  | kPrevLogNumber
  deriving DecidableEq, Repr

namespace Tag

def number : Tag → ℕ
  | kComparator => 1
  | kLogNumber => 2
  | kNextFileNumber => 3
  | kLastSequence => 4
  | kCompactPointer => 5
  | kDeletedFile => 6
  | kNewFile => 7
  -- 8 was used for large value refs
  | kPrevLogNumber => 9

def ofNumber : ℕ → Option Tag
  | 1 => some kComparator
  | 2 => some kLogNumber
  | 3 => some kNextFileNumber
  | 4 => some kLastSequence
  | 5 => some kCompactPointer
  | 6 => some kDeletedFile
  | 7 => some kNewFile
  | 9 => some kPrevLogNumber
  | _ => none

@[simp]
theorem ofNumber_number (tag : Tag) : ofNumber tag.number = some tag := by
  cases tag <;> rfl

theorem number_lt (tag : Tag) : tag.number < 2 ^ 32 := by
  cases tag <;> decide

end Tag

/-- `InternalKey`: the bytes of `rep_`. -/
structure KeyRep where
  rep : List UInt8
  deriving DecidableEq

/-- `InternalKey::Encode`; `none` is the failed assertion that the key is not empty. -/
def KeyRep.encode (key : KeyRep) : Option (List UInt8) := if key.rep = [] then none else some key.rep

/-- The fields of `FileMetaData` that are written. -/
structure FileRep where
  number : ℕ
  fileSize : ℕ
  smallest : KeyRep
  largest : KeyRep
  deriving DecidableEq

/-- `VersionEdit`; `has_x_` and `x_` together are an optional field. -/
structure VersionEdit where
  comparator : Option (List UInt8) := none
  logNumber : Option ℕ := none
  prevLogNumber : Option ℕ := none
  nextFileNumber : Option ℕ := none
  lastSequence : Option ℕ := none
  compactPointers : List (ℕ × KeyRep) := []
  deletedFiles : Finset (ℕ ×ₗ ℕ) := ∅
  newFiles : List (ℕ × FileRep) := []

/-- The statuses of `DecodeFrom`. -/
inductive Status
  | ok
  | corruption (message detail : String)
  deriving DecidableEq

namespace VersionEdit

def clear (edit : VersionEdit) : VersionEdit := { compactPointers := edit.compactPointers }

def setCompactPointer (edit : VersionEdit) (level : ℕ) (key : KeyRep) : VersionEdit :=
  { edit with compactPointers := edit.compactPointers ++ [(level, key)] }

def deleteFile (edit : VersionEdit) (level number : ℕ) : VersionEdit :=
  { edit with deletedFiles := insert (toLex (level, number)) edit.deletedFiles }

def addFile (edit : VersionEdit) (level : ℕ) (f : FileRep) : VersionEdit :=
  { edit with newFiles := edit.newFiles ++ [(level, f)] }

def putNumber (tag : Tag) (number : Option ℕ) (dst : List UInt8) : List UInt8 :=
  match number with
  | some number => putVarint64 (putVarint32 dst tag.number) number
  | none => dst

def putComparator (name : Option (List UInt8)) (dst : List UInt8) : List UInt8 :=
  match name with
  | some name => putLengthPrefixedSlice (putVarint32 dst Tag.kComparator.number) name
  | none => dst

def putCompactPointer (dst : List UInt8) (p : ℕ × KeyRep) : Option (List UInt8) := do
  let dst := putVarint32 (putVarint32 dst Tag.kCompactPointer.number) p.1
  return putLengthPrefixedSlice dst (← p.2.encode)

def putDeletedFile (dst : List UInt8) (p : ℕ ×ₗ ℕ) : List UInt8 :=
  putVarint64 (putVarint32 (putVarint32 dst Tag.kDeletedFile.number) (ofLex p).1) (ofLex p).2

def putNewFile (dst : List UInt8) (p : ℕ × FileRep) : Option (List UInt8) := do
  let dst := putVarint32 (putVarint32 dst Tag.kNewFile.number) p.1
  let dst := putVarint64 (putVarint64 dst p.2.number) p.2.fileSize
  let dst := putLengthPrefixedSlice dst (← p.2.smallest.encode)
  return putLengthPrefixedSlice dst (← p.2.largest.encode)

/-- `EncodeTo`; `none` is a failed assertion. -/
def encodeTo (edit : VersionEdit) (dst : List UInt8) : Option (List UInt8) := do
  let dst := putComparator edit.comparator dst
  let dst := putNumber .kLogNumber edit.logNumber dst
  let dst := putNumber .kPrevLogNumber edit.prevLogNumber dst
  let dst := putNumber .kNextFileNumber edit.nextFileNumber dst
  let dst := putNumber .kLastSequence edit.lastSequence dst
  let dst ← edit.compactPointers.foldlM putCompactPointer dst
  -- a `std::set` is gone through in order
  let dst := edit.deletedFiles.sort.foldl putDeletedFile dst
  edit.newFiles.foldlM putNewFile dst

def getInternalKey (input : List UInt8) : Option (KeyRep × List UInt8) := do
  let (str, input) ← getLengthPrefixedSlice input
  return (⟨str⟩, input)

def getLevel (input : List UInt8) : Option (ℕ × List UInt8) := do
  let (v, input) ← getVarint32 input
  if v < kNumLevels then some (v, input) else none

def getCompactPointer (edit : VersionEdit) (input : List UInt8) : Option (VersionEdit × List UInt8) := do
  let (level, input) ← getLevel input
  let (key, input) ← getInternalKey input
  return (edit.setCompactPointer level key, input)

def getDeletedFile (edit : VersionEdit) (input : List UInt8) : Option (VersionEdit × List UInt8) := do
  let (level, input) ← getLevel input
  let (number, input) ← getVarint64 input
  return (edit.deleteFile level number, input)

def getNewFile (edit : VersionEdit) (input : List UInt8) : Option (VersionEdit × List UInt8) := do
  let (level, input) ← getLevel input
  let (number, input) ← getVarint64 input
  let (fileSize, input) ← getVarint64 input
  let (smallest, input) ← getInternalKey input
  let (largest, input) ← getInternalKey input
  return (edit.addFile level ⟨number, fileSize, smallest, largest⟩, input)

/-- The `switch` of `DecodeFrom`: the edit and the input after the record, or `msg`.  When a part of a
record is missing nothing of it has reached the edit. -/
def decodeRecord (edit : VersionEdit) (tag : ℕ) (input : List UInt8) :
    Except String (VersionEdit × List UInt8) :=
  match Tag.ofNumber tag with
  | some .kComparator =>
    ((getLengthPrefixedSlice input).map fun (str, input) ↦
      ({ edit with comparator := some str }, input)).elim (.error "comparator name") .ok
  | some .kLogNumber =>
    ((getVarint64 input).map fun (number, input) ↦
      ({ edit with logNumber := some number }, input)).elim (.error "log number") .ok
  | some .kPrevLogNumber =>
    ((getVarint64 input).map fun (number, input) ↦
      ({ edit with prevLogNumber := some number }, input)).elim (.error "previous log number") .ok
  | some .kNextFileNumber =>
    ((getVarint64 input).map fun (number, input) ↦
      ({ edit with nextFileNumber := some number }, input)).elim (.error "next file number") .ok
  | some .kLastSequence =>
    ((getVarint64 input).map fun (number, input) ↦
      ({ edit with lastSequence := some number }, input)).elim (.error "last sequence number") .ok
  | some .kCompactPointer => (edit.getCompactPointer input).elim (.error "compaction pointer") .ok
  | some .kDeletedFile => (edit.getDeletedFile input).elim (.error "deleted file") .ok
  | some .kNewFile => (edit.getNewFile input).elim (.error "new-file entry") .ok
  | none => .error "unknown tag"

/-- The loop of `DecodeFrom` and what follows it.  `none` means that the rounds are used up. -/
def decodeLoop : ℕ → VersionEdit → List UInt8 → Option (VersionEdit × Status)
  | 0, _, _ => none
  | rounds + 1, edit, input =>
    match getVarint32 input with
    | none => some (edit, if input = [] then .ok else .corruption "VersionEdit" "invalid tag")
    | some (tag, input) =>
      match edit.decodeRecord tag input with
      | .error msg => some (edit, .corruption "VersionEdit" msg)
      | .ok (edit, input) => decodeLoop rounds edit input

/-- `DecodeFrom`.  Every round takes a byte at least, so that these rounds are enough. -/
def decodeFrom (edit : VersionEdit) (src : List UInt8) : Option (VersionEdit × Status) :=
  decodeLoop (src.length + 1) edit.clear src

end VersionEdit

/-- What one round of `DecodeFrom` reads. -/
inductive Record
  | comparator (name : List UInt8)
  | logNumber (number : ℕ)
  | prevLogNumber (number : ℕ)
  | nextFileNumber (number : ℕ)
  | lastSequence (number : ℕ)
  | compactPointer (level : ℕ) (key : KeyRep)
  | deletedFile (level number : ℕ)
  | newFile (level : ℕ) (f : FileRep)

/-- A key that can be written and read back. -/
@[mk_iff]
structure KeyRep.Encodable (key : KeyRep) : Prop where
  ne_nil : key.rep ≠ []
  length_lt : key.rep.length < 2 ^ 32

instance (key : KeyRep) : Decidable key.Encodable := decidable_of_iff' _ (KeyRep.encodable_iff key)

@[mk_iff]
structure FileRep.Encodable (f : FileRep) : Prop where
  number_lt : f.number < 2 ^ 64
  fileSize_lt : f.fileSize < 2 ^ 64
  smallest : f.smallest.Encodable
  largest : f.largest.Encodable

instance (f : FileRep) : Decidable f.Encodable := decidable_of_iff' _ (FileRep.encodable_iff f)

namespace Record

def tag : Record → Tag
  | comparator _ => .kComparator
  | logNumber _ => .kLogNumber
  | prevLogNumber _ => .kPrevLogNumber
  | nextFileNumber _ => .kNextFileNumber
  | lastSequence _ => .kLastSequence
  | compactPointer _ _ => .kCompactPointer
  | deletedFile _ _ => .kDeletedFile
  | newFile _ _ => .kNewFile

/-- The bytes after the tag. -/
def body : Record → List UInt8
  | comparator name => putLengthPrefixedSlice [] name
  | logNumber number | prevLogNumber number | nextFileNumber number | lastSequence number =>
    encodeVarint64 number
  | compactPointer level key => encodeVarint32 level ++ putLengthPrefixedSlice [] key.rep
  | deletedFile level number => encodeVarint32 level ++ encodeVarint64 number
  | newFile level f =>
    encodeVarint32 level ++ (encodeVarint64 f.number ++ (encodeVarint64 f.fileSize ++
      (putLengthPrefixedSlice [] f.smallest.rep ++ putLengthPrefixedSlice [] f.largest.rep)))

def bytes (record : Record) : List UInt8 := encodeVarint32 record.tag.number ++ record.body

def applyTo (edit : VersionEdit) : Record → VersionEdit
  | comparator name => { edit with comparator := some name }
  | logNumber number => { edit with logNumber := some number }
  | prevLogNumber number => { edit with prevLogNumber := some number }
  | nextFileNumber number => { edit with nextFileNumber := some number }
  | lastSequence number => { edit with lastSequence := some number }
  | compactPointer level key => edit.setCompactPointer level key
  | deletedFile level number => edit.deleteFile level number
  | newFile level f => edit.addFile level f

/-- The values fit their fields. -/
def Encodable : Record → Prop
  | comparator name => name.length < 2 ^ 32
  | logNumber number | prevLogNumber number | nextFileNumber number | lastSequence number => number < 2 ^ 64
  | compactPointer level key => level < kNumLevels ∧ key.Encodable
  | deletedFile level number => level < kNumLevels ∧ number < 2 ^ 64
  | newFile level f => level < kNumLevels ∧ f.Encodable

end Record

namespace VersionEdit

def records (edit : VersionEdit) : List Record :=
  edit.comparator.toList.map .comparator ++ edit.logNumber.toList.map .logNumber ++
    edit.prevLogNumber.toList.map .prevLogNumber ++ edit.nextFileNumber.toList.map .nextFileNumber ++
    edit.lastSequence.toList.map .lastSequence ++
    edit.compactPointers.map (fun p ↦ .compactPointer p.1 p.2) ++
    edit.deletedFiles.sort.map (fun p ↦ .deletedFile (ofLex p).1 (ofLex p).2) ++
    edit.newFiles.map (fun p ↦ .newFile p.1 p.2)

/-- Levels, keys, lengths and numbers within the bounds of their fields. -/
@[mk_iff]
structure Encodable (edit : VersionEdit) : Prop where
  comparator : ∀ name ∈ edit.comparator, name.length < 2 ^ 32
  logNumber : ∀ number ∈ edit.logNumber, number < 2 ^ 64
  prevLogNumber : ∀ number ∈ edit.prevLogNumber, number < 2 ^ 64
  nextFileNumber : ∀ number ∈ edit.nextFileNumber, number < 2 ^ 64
  lastSequence : ∀ number ∈ edit.lastSequence, number < 2 ^ 64
  compactPointers : ∀ p ∈ edit.compactPointers, p.1 < kNumLevels ∧ p.2.Encodable
  deletedFiles : ∀ p ∈ edit.deletedFiles, (ofLex p).1 < kNumLevels ∧ (ofLex p).2 < 2 ^ 64
  newFiles : ∀ p ∈ edit.newFiles, p.1 < kNumLevels ∧ p.2.Encodable

instance (edit : VersionEdit) : Decidable edit.Encodable := decidable_of_iff' _ (encodable_iff edit)

variable {edit : VersionEdit}

theorem Encodable.records (h : edit.Encodable) : ∀ record ∈ edit.records, record.Encodable := by
  intro record hrecord
  simp only [VersionEdit.records, mem_append, mem_map, Option.mem_toList, Finset.mem_sort] at hrecord
  rcases hrecord with ((((((⟨x, hx, rfl⟩ | ⟨x, hx, rfl⟩) | ⟨x, hx, rfl⟩) | ⟨x, hx, rfl⟩) | ⟨x, hx, rfl⟩) |
    ⟨p, hp, rfl⟩) | ⟨p, hp, rfl⟩) | ⟨p, hp, rfl⟩
  · exact h.comparator x hx
  · exact h.logNumber x hx
  · exact h.prevLogNumber x hx
  · exact h.nextFileNumber x hx
  · exact h.lastSequence x hx
  · exact h.compactPointers p hp
  · exact h.deletedFiles p hp
  · exact h.newFiles p hp

theorem encode_eq {key : KeyRep} (h : key.Encodable) : key.encode = some key.rep := if_neg h.ne_nil

theorem putNumber_eq (record : ℕ → Record) {tag : Tag}
    (hbytes : ∀ n, (record n).bytes = encodeVarint32 tag.number ++ encodeVarint64 n) (number : Option ℕ)
    (dst : List UInt8) :
    putNumber tag number dst = dst ++ (number.toList.map record).flatMap Record.bytes := by
  cases number with
  | none => simp [putNumber]
  | some n => simp [putNumber, putVarint64, putVarint32, hbytes]

theorem putComparator_eq (name : Option (List UInt8)) (dst : List UInt8) :
    putComparator name dst = dst ++ (name.toList.map Record.comparator).flatMap Record.bytes := by
  cases name with
  | none => simp [putComparator]
  | some name =>
    rw [putComparator, putLengthPrefixedSlice_eq, putVarint32]
    simp [Record.bytes, Record.body, Record.tag]

theorem putCompactPointer_eq {p : ℕ × KeyRep} (h : p.2.Encodable) (dst : List UInt8) :
    putCompactPointer dst p = some (dst ++ (Record.compactPointer p.1 p.2).bytes) := by
  simp only [putCompactPointer, encode_eq h, Option.bind_eq_bind, Option.bind_some]
  rw [putLengthPrefixedSlice_eq]
  simp [putVarint32, Record.bytes, Record.body, Record.tag]

theorem putDeletedFile_eq (dst : List UInt8) (p : ℕ ×ₗ ℕ) :
    putDeletedFile dst p = dst ++ (Record.deletedFile (ofLex p).1 (ofLex p).2).bytes := by
  simp [putDeletedFile, putVarint32, putVarint64, Record.bytes, Record.body, Record.tag]

theorem putNewFile_eq {p : ℕ × FileRep} (h : p.2.Encodable) (dst : List UInt8) :
    putNewFile dst p = some (dst ++ (Record.newFile p.1 p.2).bytes) := by
  simp only [putNewFile, encode_eq h.smallest, encode_eq h.largest, Option.bind_eq_bind, Option.bind_some]
  rw [putLengthPrefixedSlice_eq, putLengthPrefixedSlice_eq (putVarint64 _ _)]
  simp [putVarint32, putVarint64, Record.bytes, Record.body, Record.tag]

/-- A loop that writes one record for each element. -/
theorem foldlM_put {α : Type*} {put : List UInt8 → α → Option (List UInt8)} {record : α → Record}
    {l : List α} (h : ∀ a ∈ l, ∀ dst, put dst a = some (dst ++ (record a).bytes)) (dst : List UInt8) :
    l.foldlM put dst = some (dst ++ (l.map record).flatMap Record.bytes) := by
  induction l generalizing dst with
  | nil => simp
  | cons a l ih =>
    rw [foldlM_cons, h a mem_cons_self, Option.bind_eq_bind, Option.bind_some,
      ih fun b hb ↦ h b (mem_cons_of_mem a hb)]
    simp

theorem encodeTo_eq (h : edit.Encodable) (dst : List UInt8) :
    edit.encodeTo dst = some (dst ++ edit.records.flatMap Record.bytes) := by
  have hdeleted : ∀ dst, edit.deletedFiles.sort.foldl putDeletedFile dst =
      dst ++ (edit.deletedFiles.sort.map fun p ↦
        Record.deletedFile (ofLex p).1 (ofLex p).2).flatMap Record.bytes := by
    generalize edit.deletedFiles.sort = l
    induction l with
    | nil => simp
    | cons p l ih => simp [ih, putDeletedFile_eq]
  simp only [encodeTo, putComparator_eq, hdeleted, Option.bind_eq_bind, Option.bind_some,
    foldlM_put fun p hp ↦ putCompactPointer_eq (h.compactPointers p hp).2,
    foldlM_put fun p hp ↦ putNewFile_eq (h.newFiles p hp).2]
  rw [putNumber_eq Record.logNumber fun _ ↦ rfl, putNumber_eq Record.prevLogNumber fun _ ↦ rfl,
    putNumber_eq Record.nextFileNumber fun _ ↦ rfl,
    putNumber_eq Record.lastSequence fun _ ↦ rfl]
  simp [VersionEdit.records]

theorem getLevel_encode {level : ℕ} (h : level < kNumLevels) (rest : List UInt8) :
    getLevel (encodeVarint32 level ++ rest) = some (level, rest) := by
  have hlt : level < 2 ^ 32 := h.trans (by decide)
  simp [getLevel, getVarint32_encodeVarint32 hlt, h]

theorem getInternalKey_put {key : KeyRep} (h : key.Encodable) (rest : List UInt8) :
    getInternalKey (putLengthPrefixedSlice [] key.rep ++ rest) = some (key, rest) := by
  simp [getInternalKey, getLengthPrefixedSlice_put h.length_lt]

theorem decodeRecord_body {record : Record} (h : record.Encodable) (edit : VersionEdit) (rest : List UInt8) :
    edit.decodeRecord record.tag.number (record.body ++ rest) = .ok (record.applyTo edit, rest) := by
  unfold decodeRecord
  rw [Tag.ofNumber_number]
  cases record with
  | comparator name => simp [Record.tag, Record.body, Record.applyTo, getLengthPrefixedSlice_put h]
  | logNumber number => simp [Record.tag, Record.body, Record.applyTo, getVarint64_encodeVarint64 h]
  | prevLogNumber number => simp [Record.tag, Record.body, Record.applyTo, getVarint64_encodeVarint64 h]
  | nextFileNumber number => simp [Record.tag, Record.body, Record.applyTo, getVarint64_encodeVarint64 h]
  | lastSequence number => simp [Record.tag, Record.body, Record.applyTo, getVarint64_encodeVarint64 h]
  | compactPointer level key =>
    obtain ⟨hlevel, hkey⟩ := h
    simp [Record.tag, Record.body, Record.applyTo, getCompactPointer, getLevel_encode hlevel,
      getInternalKey_put hkey]
  | deletedFile level number =>
    obtain ⟨hlevel, hnumber⟩ := h
    simp [Record.tag, Record.body, Record.applyTo, getDeletedFile, getLevel_encode hlevel,
      getVarint64_encodeVarint64 hnumber]
  | newFile level f =>
    obtain ⟨hlevel, hf⟩ := h
    simp [Record.tag, Record.body, Record.applyTo, getNewFile, getLevel_encode hlevel,
      getVarint64_encodeVarint64 hf.number_lt, getVarint64_encodeVarint64 hf.fileSize_lt,
      getInternalKey_put hf.smallest, getInternalKey_put hf.largest]

theorem decodeLoop_record {record : Record} (h : record.Encodable) (rounds : ℕ) (edit : VersionEdit)
    (rest : List UInt8) :
    decodeLoop (rounds + 1) edit (record.bytes ++ rest) = decodeLoop rounds (record.applyTo edit) rest := by
  rw [decodeLoop, Record.bytes, append_assoc, getVarint32_encodeVarint32 record.tag.number_lt]
  simp only [decodeRecord_body h]

/-- The loop reads all records and ends at the end of the input. -/
theorem decodeLoop_records {records : List Record} (h : ∀ record ∈ records, record.Encodable)
    {rounds : ℕ} (hrounds : records.length < rounds) (edit : VersionEdit) :
    decodeLoop rounds edit (records.flatMap Record.bytes) =
      some (records.foldl Record.applyTo edit, .ok) := by
  induction records generalizing rounds edit with
  | nil =>
    obtain ⟨rounds, rfl⟩ := Nat.exists_eq_succ_of_ne_zero (Nat.ne_of_gt hrounds)
    rfl
  | cons record records ih =>
    obtain ⟨rounds, rfl⟩ := Nat.exists_eq_succ_of_ne_zero (Nat.ne_of_gt (Nat.zero_lt_of_lt hrounds))
    rw [flatMap_cons, decodeLoop_record (h record mem_cons_self), foldl_cons]
    exact ih (fun r hr ↦ h r (mem_cons_of_mem record hr)) (Nat.lt_of_succ_lt_succ hrounds) _

/-- Each record has a byte at least. -/
theorem length_le_bytes {records : List Record} (h : ∀ record ∈ records, record.Encodable) :
    records.length ≤ (records.flatMap Record.bytes).length := by
  induction records with
  | nil => exact le_rfl
  | cons record records ih =>
    have hget := getVarint32_encodeVarint32 record.tag.number_lt []
    have hpos := length_of_getVarint32 hget
    have hrest := ih fun r hr ↦ h r (mem_cons_of_mem record hr)
    simp only [flatMap_cons, length_append, length_cons, Record.bytes, length_nil] at *
    omega

theorem length_of_getInternalKey {input rest : List UInt8} {key : KeyRep}
    (h : getInternalKey input = some (key, rest)) : rest.length < input.length := by
  obtain ⟨⟨str, rest'⟩, hstr, hkey⟩ := Option.bind_eq_some_iff.mp h
  cases hkey
  exact length_of_getLengthPrefixedSlice hstr

theorem length_of_getLevel {input rest : List UInt8} {level : ℕ} (h : getLevel input = some (level, rest)) :
    rest.length < input.length := by
  obtain ⟨⟨v, rest'⟩, hv, hlevel⟩ := Option.bind_eq_some_iff.mp h
  dsimp only at hlevel
  split at hlevel
  · cases hlevel
    exact length_of_getVarint32 hv
  · cases hlevel

theorem elim_eq_ok {α : Type*} {o : Option α} {msg : String} {a : α} :
    o.elim (.error msg) Except.ok = .ok a ↔ o = some a := by
  cases o <;> simp

theorem length_of_decodeRecord {tag : ℕ} {input rest : List UInt8} {edit' : VersionEdit}
    (h : edit.decodeRecord tag input = .ok (edit', rest)) : rest.length < input.length := by
  have hnumber : ∀ {f : ℕ × List UInt8 → VersionEdit × List UInt8}, (∀ p, (f p).2 = p.2) →
      (getVarint64 input).map f = some (edit', rest) → rest.length < input.length := by
    intro f hf hmap
    obtain ⟨p, hp, heq⟩ := Option.map_eq_some_iff.mp hmap
    have hrest : rest = p.2 := by rw [← hf, heq]
    rw [hrest]
    exact length_of_getVarint64 hp
  unfold decodeRecord at h
  split at h <;> try rw [elim_eq_ok] at h
  · obtain ⟨p, hp, heq⟩ := Option.map_eq_some_iff.mp h
    cases heq
    exact length_of_getLengthPrefixedSlice hp
  · exact hnumber (fun _ ↦ rfl) h
  · exact hnumber (fun _ ↦ rfl) h
  · exact hnumber (fun _ ↦ rfl) h
  · exact hnumber (fun _ ↦ rfl) h
  · obtain ⟨p, hlevel, h⟩ := Option.bind_eq_some_iff.mp h
    obtain ⟨q, hkey, h⟩ := Option.bind_eq_some_iff.mp h
    cases h
    exact (length_of_getInternalKey hkey).trans (length_of_getLevel hlevel)
  · obtain ⟨p, hlevel, h⟩ := Option.bind_eq_some_iff.mp h
    obtain ⟨q, hvarint, h⟩ := Option.bind_eq_some_iff.mp h
    cases h
    exact (length_of_getVarint64 hvarint).trans (length_of_getLevel hlevel)
  · obtain ⟨p, hlevel, h⟩ := Option.bind_eq_some_iff.mp h
    obtain ⟨q, hfile, h⟩ := Option.bind_eq_some_iff.mp h
    obtain ⟨r, hsize, h⟩ := Option.bind_eq_some_iff.mp h
    obtain ⟨s, hsmallest, h⟩ := Option.bind_eq_some_iff.mp h
    obtain ⟨t, hlargest, h⟩ := Option.bind_eq_some_iff.mp h
    cases h
    calc t.2.length
        < s.2.length := length_of_getInternalKey hlargest
      _ < r.2.length := length_of_getInternalKey hsmallest
      _ < q.2.length := length_of_getVarint64 hsize
      _ < p.2.length := length_of_getVarint64 hfile
      _ < input.length := length_of_getLevel hlevel
  · cases h

theorem decodeLoop_isSome {rounds : ℕ} {input : List UInt8} (h : input.length < rounds)
    (edit : VersionEdit) : (decodeLoop rounds edit input).isSome := by
  induction rounds generalizing input edit with
  | zero => cases h
  | succ rounds ih =>
    rw [decodeLoop]
    split
    · rfl
    · rename_i tag rest htag
      have hrest := length_of_getVarint32 htag
      split
      · rfl
      · rename_i edit' rest' hrecord
        have hrest' := length_of_decodeRecord hrecord
        exact ih (by omega) edit'

theorem decodeFrom_isSome (edit : VersionEdit) (src : List UInt8) : (edit.decodeFrom src).isSome :=
  decodeLoop_isSome (Nat.lt_succ_self _) _

theorem foldl_compactPointers (l : List (ℕ × KeyRep)) (edit : VersionEdit) :
    (l.map fun p ↦ Record.compactPointer p.1 p.2).foldl Record.applyTo edit =
      { edit with compactPointers := edit.compactPointers ++ l } := by
  induction l generalizing edit with
  | nil => simp
  | cons p l ih => simp [ih, Record.applyTo, setCompactPointer]

theorem foldl_deletedFiles (l : List (ℕ ×ₗ ℕ)) (edit : VersionEdit) :
    (l.map fun p ↦ Record.deletedFile (ofLex p).1 (ofLex p).2).foldl Record.applyTo edit =
      { edit with deletedFiles := edit.deletedFiles ∪ l.toFinset } := by
  induction l generalizing edit with
  | nil => simp
  | cons p l ih => simp [ih, Record.applyTo, deleteFile]

theorem foldl_newFiles (l : List (ℕ × FileRep)) (edit : VersionEdit) :
    (l.map fun p ↦ Record.newFile p.1 p.2).foldl Record.applyTo edit =
      { edit with newFiles := edit.newFiles ++ l } := by
  induction l generalizing edit with
  | nil => simp
  | cons p l ih => simp [ih, Record.applyTo, addFile]

theorem foldl_records (edit : VersionEdit) : edit.records.foldl Record.applyTo {} = edit := by
  obtain ⟨comparator, logNumber, prevLogNumber, nextFileNumber, lastSequence, pointers, deleted, files⟩ := edit
  simp only [records, foldl_append, foldl_compactPointers, foldl_deletedFiles, foldl_newFiles]
  cases comparator <;> cases logNumber <;> cases prevLogNumber <;> cases nextFileNumber <;>
    cases lastSequence <;> simp [Record.applyTo]

theorem Encodable.decodeFrom_bytes {edit : VersionEdit} (h : edit.Encodable) :
    decodeFrom {} (edit.records.flatMap Record.bytes) = some (edit, .ok) := by
  have hlength := length_le_bytes h.records
  rw [decodeFrom, decodeLoop_records h.records (Nat.lt_succ_of_le hlength)]
  exact congrArg (fun e ↦ some (e, Status.ok)) (foldl_records edit)

/-- An edit with levels below `kNumLevels`, keys that are not empty and lengths below `2 ^ 32` is written
without a failed assertion, and `DecodeFrom` reads it back into a new edit with status OK. -/
theorem decodeFrom_encodeTo (edit : VersionEdit) (h : edit.Encodable) :
    ∃ bytes, edit.encodeTo [] = some bytes ∧ decodeFrom {} bytes = some (edit, .ok) :=
  ⟨_, encodeTo_eq h [], h.decodeFrom_bytes⟩

def sampleEdit : VersionEdit where
  comparator := some [108, 101]
  logNumber := some 300
  prevLogNumber := some 0
  nextFileNumber := some (2 ^ 64 - 1)
  lastSequence := some 70000
  compactPointers := [(1, ⟨[97, 1]⟩), (1, ⟨[98]⟩)]
  deletedFiles := {toLex (3, 9), toLex (0, 200)}
  newFiles := [(6, ⟨12, 4096, ⟨[97]⟩, ⟨[99]⟩⟩)]

theorem decodeFrom_encodeTo_sampleEdit :
    ∃ bytes, sampleEdit.encodeTo [] = some bytes ∧ decodeFrom {} bytes = some (sampleEdit, .ok) :=
  decodeFrom_encodeTo sampleEdit (by decide)

def withPointers (pointers : List (ℕ × KeyRep)) (edit : VersionEdit) : VersionEdit :=
  { edit with compactPointers := pointers ++ edit.compactPointers }

theorem elim_map_ok {α β : Type*} (f : α → β) (o : Option α) (msg : String) :
    (o.map f).elim (.error msg) Except.ok = (o.elim (.error msg) Except.ok).map f := by
  cases o <;> rfl

theorem decodeRecord_withPointers (pointers : List (ℕ × KeyRep)) (edit : VersionEdit) (tag : ℕ)
    (input : List UInt8) :
    (edit.withPointers pointers).decodeRecord tag input =
      (edit.decodeRecord tag input).map fun r ↦ (r.1.withPointers pointers, r.2) := by
  have hpointer : (edit.withPointers pointers).getCompactPointer input =
      (edit.getCompactPointer input).map fun r ↦ (r.1.withPointers pointers, r.2) := by
    unfold getCompactPointer
    cases getLevel input with
    | none => rfl
    | some level =>
      simp only [Option.bind_eq_bind, Option.bind_some]
      cases getInternalKey level.2 with
      | none => rfl
      | some key => simp [withPointers, setCompactPointer]
  have hdeleted : (edit.withPointers pointers).getDeletedFile input =
      (edit.getDeletedFile input).map fun r ↦ (r.1.withPointers pointers, r.2) := by
    unfold getDeletedFile
    simp only [Option.bind_eq_bind, Option.map_bind, Function.comp_def]
    rfl
  have hnew : (edit.withPointers pointers).getNewFile input =
      (edit.getNewFile input).map fun r ↦ (r.1.withPointers pointers, r.2) := by
    unfold getNewFile
    simp only [Option.bind_eq_bind, Option.map_bind, Function.comp_def]
    rfl
  unfold decodeRecord
  split
  · rw [← elim_map_ok, Option.map_map]
    rfl
  · rw [← elim_map_ok, Option.map_map]
    rfl
  · rw [← elim_map_ok, Option.map_map]
    rfl
  · rw [← elim_map_ok, Option.map_map]
    rfl
  · rw [← elim_map_ok, Option.map_map]
    rfl
  · rw [hpointer, elim_map_ok]
  · rw [hdeleted, elim_map_ok]
  · rw [hnew, elim_map_ok]
  · rfl

theorem decodeLoop_withPointers (pointers : List (ℕ × KeyRep)) (rounds : ℕ) (edit : VersionEdit)
    (input : List UInt8) :
    decodeLoop rounds (edit.withPointers pointers) input =
      (decodeLoop rounds edit input).map fun r ↦ (r.1.withPointers pointers, r.2) := by
  induction rounds generalizing edit input with
  | zero => rfl
  | succ rounds ih =>
    rw [decodeLoop, decodeLoop]
    cases getVarint32 input with
    | none => rfl
    | some tag =>
      simp only [decodeRecord_withPointers]
      cases edit.decodeRecord tag.1 tag.2 with
      | error msg => rfl
      | ok r => exact ih r.1 r.2

/-- `DecodeFrom` decodes into the target what it decodes into a new edit, behind the compaction pointers of the
target. -/
theorem decodeFrom_eq (edit : VersionEdit) (src : List UInt8) :
    edit.decodeFrom src = (decodeFrom {} src).map fun r ↦ (r.1.withPointers edit.compactPointers, r.2) := by
  have hclear : edit.clear = withPointers edit.compactPointers {} := by
    simp [clear, withPointers]
  rw [decodeFrom, hclear, decodeLoop_withPointers]
  rfl

/-- Two targets agree after `DecodeFrom` has returned OK exactly when they had the same compaction pointers; in
the other fields they agree in any case. -/
theorem decodeFrom_forgets_past {src : List UInt8} {edit₁ edit₂ result₁ result₂ : VersionEdit}
    (h₁ : edit₁.decodeFrom src = some (result₁, .ok)) (h₂ : edit₂.decodeFrom src = some (result₂, .ok)) :
    { result₁ with compactPointers := [] } = { result₂ with compactPointers := [] } ∧
      (edit₁.compactPointers = edit₂.compactPointers ↔ result₁ = result₂) := by
  rw [decodeFrom_eq, Option.map_eq_some_iff] at h₁ h₂
  obtain ⟨⟨fresh, status⟩, hfresh, heq₁⟩ := h₁
  obtain ⟨r, hr, heq₂⟩ := h₂
  obtain rfl := Option.some.inj (hfresh.symm.trans hr)
  obtain ⟨rfl, -⟩ := Prod.mk.inj heq₁
  obtain ⟨rfl, -⟩ := Prod.mk.inj heq₂
  refine ⟨rfl, fun hpointers ↦ by rw [hpointers], fun hresults ↦ ?_⟩
  exact append_cancel_right (congrArg compactPointers hresults)

/-- Two targets with the same compaction pointers and different log numbers. -/
theorem decodeFrom_forgets_past_log_number : ∃ result₁ result₂ : VersionEdit,
      decodeFrom { logNumber := some 3, compactPointers := [(1, ⟨[97]⟩)] } [4, 7] = some (result₁, .ok) ∧
      decodeFrom { logNumber := some 5, compactPointers := [(1, ⟨[97]⟩)] } [4, 7] = some (result₂, .ok) ∧
      result₁ = result₂ := by
  have h₁ : decodeFrom { logNumber := some 3, compactPointers := [(1, ⟨[97]⟩)] } [4, 7] =
      some ({ lastSequence := some 7, compactPointers := [(1, ⟨[97]⟩)] }, .ok) := rfl
  have h₂ : decodeFrom { logNumber := some 5, compactPointers := [(1, ⟨[97]⟩)] } [4, 7] =
      some ({ lastSequence := some 7, compactPointers := [(1, ⟨[97]⟩)] }, .ok) := rfl
  exact ⟨_, _, h₁, h₂, (decodeFrom_forgets_past h₁ h₂).2.mp rfl⟩

/-- The compaction pointer of a target is still there after an empty record was decoded into it. -/
theorem decodeFrom_keeps_compact_pointer :
    ∃ result₁ result₂ : VersionEdit, decodeFrom {} [] = some (result₁, .ok) ∧
      decodeFrom (setCompactPointer {} 1 ⟨[97]⟩) [] = some (result₂, .ok) ∧
      result₁.compactPointers = [] ∧ result₂.compactPointers = [(1, ⟨[97]⟩)] :=
  ⟨_, _, rfl, rfl, rfl, rfl⟩

end VersionEdit

end LevelDB.Db.VersionEditCoding
