import LevelDB.Db.Log
import LevelDB.Table.Block

/-!
# The format of tables

Block handles, the footer, the trailer of a block and `ReadBlock`, as in `table/format.h` and
`table/format.cpp`.  Offsets and sizes are below `2 ^ 64`; a failed assertion is `none`.
-/

namespace LevelDB.Table.Format

open Util.Coding Block Db.Log List

/-- `BlockHandle`; the constructor sets both members to `~static_cast<uint64_t>(0)`. -/
structure BlockHandle where
  offset : ℕ := 2 ^ 64 - 1
  size : ℕ := 2 ^ 64 - 1
  deriving DecidableEq, Repr

namespace BlockHandle

def encodeTo (handle : BlockHandle) : Option (List UInt8) :=
  if handle.offset ≠ 2 ^ 64 - 1 ∧ handle.size ≠ 2 ^ 64 - 1 then
    some (encodeVarint64 handle.offset ++ encodeVarint64 handle.size)
  else none

/-- `DecodeFrom`: the handle and the rest of the input. -/
def decodeFrom (input : List UInt8) : Except Status (BlockHandle × List UInt8) :=
  match getVarint64 input with
  | some (offset, input) =>
    match getVarint64 input with
    | some (size, input) => .ok (⟨offset, size⟩, input)
    | none => .error (.corruption "bad block handle")
  | none => .error (.corruption "bad block handle")

theorem decodeHandle_encodeTo {handle : BlockHandle} (hoffset : handle.offset < 2 ^ 64 - 1)
    (hsize : handle.size < 2 ^ 64 - 1) :
    ∃ encoding, handle.encodeTo = some encoding ∧
      ∀ rest, decodeFrom (encoding ++ rest) = .ok (handle, rest) := by
  refine ⟨encodeVarint64 handle.offset ++ encodeVarint64 handle.size, ?_, ?_⟩
  · rw [encodeTo, if_pos ⟨hoffset.ne, hsize.ne⟩]
  · intro rest
    rw [decodeFrom, append_assoc, getVarint64_encodeVarint64 (by omega)]
    dsimp only
    rw [getVarint64_encodeVarint64 (by omega)]

end BlockHandle

def kMaxEncodedLength : ℕ := 10 + 10

theorem BlockHandle.length_encodeTo_le {handle : BlockHandle} {encoding : List UInt8}
    (h : handle.encodeTo = some encoding) : encoding.length ≤ kMaxEncodedLength := by
  obtain ⟨-, hencoding⟩ := Option.ite_none_right_eq_some.mp h
  rw [← Option.some.inj hencoding, length_append]
  exact Nat.add_le_add (length_encodeVarint_le 9 _) (length_encodeVarint_le 9 _)

structure Footer where
  metaindexHandle : BlockHandle
  indexHandle : BlockHandle
  deriving DecidableEq, Repr

def kTableMagicNumber : ℕ := 0xdb4775248b80fb57

/-- The two handles, padding and the magic number. -/
def kEncodedLength : ℕ := 2 * kMaxEncodedLength + 8

/-- `Footer::EncodeTo`; the padding resizes the whole string. -/
def Footer.encodeTo (footer : Footer) (dst : List UInt8) : Option (List UInt8) := do
  let metaindex ← footer.metaindexHandle.encodeTo
  let index ← footer.indexHandle.encodeTo
  let handles := dst ++ metaindex ++ index
  let padded := handles.take (2 * kMaxEncodedLength) ++
    List.replicate (2 * kMaxEncodedLength - handles.length) 0
  let encoding := padded ++ encodeFixed32 (kTableMagicNumber &&& 0xffffffff) ++
    encodeFixed32 (kTableMagicNumber >>> 32)
  if encoding.length = dst.length + kEncodedLength then some encoding else none

theorem Footer.exists_encodeTo {footer : Footer} {metaindex index : List UInt8}
    (hmetaindex : footer.metaindexHandle.encodeTo = some metaindex)
    (hindex : footer.indexHandle.encodeTo = some index) : ∃ encoding, footer.encodeTo [] = some encoding := by
  simp only [encodeTo, hmetaindex, hindex, Option.bind_eq_bind, Option.bind_some]
  rw [if_pos]
  · exact ⟨_, rfl⟩
  · simp only [length_append, length_take, length_replicate, encodeFixed32, length_encodeFixed,
      kEncodedLength, length_nil]
    omega

/-- `Footer::DecodeFrom`: the magic number is read at its place, the handles one after the other, and the
input goes on after the footer.  It is `none` where the magic number would be read beyond the input. -/
def Footer.decodeFrom (input : List UInt8) : Option (Except Status (Footer × List UInt8)) :=
  if input.length < kEncodedLength then none
  else
    let magicLo := decodeFixed32 input (kEncodedLength - 8)
    let magicHi := decodeFixed32 input (kEncodedLength - 8 + 4)
    if magicHi <<< 32 ||| magicLo ≠ kTableMagicNumber then
      some (.error (.invalidArgument "not an sstable (bad magic number)"))
    else some do
      let (metaindexHandle, rest) ← BlockHandle.decodeFrom input
      let (indexHandle, _) ← BlockHandle.decodeFrom rest
      return (⟨metaindexHandle, indexHandle⟩, input.drop kEncodedLength)

/-- The two halves of the magic number are one number of 64 bits. -/
theorem decodeFixed32_halves {input : List UInt8} {offset : ℕ} (h : offset + 8 ≤ input.length) :
    decodeFixed32 input (offset + 4) <<< 32 ||| decodeFixed32 input offset =
      decodeFixed ((input.drop offset).take 8) := by
  have hsplit : (input.drop offset).take 8 =
      (input.drop offset).take 4 ++ (input.drop (offset + 4)).take 4 := by
    rw [← drop_drop, ← take_add]
  have hlength : ((input.drop offset).take 4).length = 4 := by
    rw [length_take, length_drop]
    omega
  have hlow := decodeFixed32_lt input offset
  calc decodeFixed32 input (offset + 4) <<< 32 ||| decodeFixed32 input offset
      = decodeFixed32 input offset + decodeFixed32 input (offset + 4) * 2 ^ 32 := by
        rw [Nat.or_comm, or_shiftLeft hlow]
    _ = decodeFixed ((input.drop offset).take 8) := by
        rw [hsplit, decodeFixed_append, hlength, Nat.mul_comm]
        rfl

/-- What `EncodeTo` writes to an empty string: the handles, padding and the magic number. -/
theorem Footer.encodeTo_nil {footer : Footer} {metaindex index : List UInt8}
    (hmetaindex : footer.metaindexHandle.encodeTo = some metaindex)
    (hindex : footer.indexHandle.encodeTo = some index) :
    ∃ padding, (metaindex ++ (index ++ padding)).length = kEncodedLength - 8 ∧
      footer.encodeTo [] = some (metaindex ++ (index ++ padding) ++ encodeFixed 8 kTableMagicNumber) := by
  have hhandles : (metaindex ++ index).length ≤ 2 * kMaxEncodedLength := by
    have := BlockHandle.length_encodeTo_le hmetaindex
    have := BlockHandle.length_encodeTo_le hindex
    rw [length_append]
    omega
  refine ⟨List.replicate (2 * kMaxEncodedLength - (metaindex ++ index).length) 0, ?_, ?_⟩
  · rw [← append_assoc, length_append, length_replicate, Nat.add_sub_cancel' hhandles]
    rfl
  · have hmagic : encodeFixed32 (kTableMagicNumber &&& 0xffffffff) ++ encodeFixed32 (kTableMagicNumber >>> 32) =
        encodeFixed 8 kTableMagicNumber := by decide
    obtain ⟨encoding, hencode⟩ := exists_encodeTo hmetaindex hindex
    have hwritten := hencode
    simp only [encodeTo, hmetaindex, hindex, Option.bind_eq_bind, Option.bind_some, nil_append] at hwritten
    obtain ⟨-, hwritten⟩ := Option.ite_none_right_eq_some.mp hwritten
    rw [hencode, ← Option.some.inj hwritten, take_of_length_le hhandles, append_assoc, hmagic]
    simp only [append_assoc]

/-- The check of the magic number compares the last eight bytes of the footer. -/
theorem Footer.decodeFrom_eq {input : List UInt8} (hlength : kEncodedLength ≤ input.length) :
    decodeFrom input = if (input.drop (kEncodedLength - 8)).take 8 = encodeFixed 8 kTableMagicNumber then
        some (do
          let (metaindexHandle, rest) ← BlockHandle.decodeFrom input
          let (indexHandle, _) ← BlockHandle.decodeFrom rest
          return (⟨metaindexHandle, indexHandle⟩, input.drop kEncodedLength))
      else some (.error (.invalidArgument "not an sstable (bad magic number)")) := by
  have hlast : ((input.drop (kEncodedLength - 8)).take 8).length = 8 := by
    rw [length_take, length_drop]
    simp only [kEncodedLength] at *
    omega
  have hmagic : decodeFixed ((input.drop (kEncodedLength - 8)).take 8) = kTableMagicNumber ↔
      (input.drop (kEncodedLength - 8)).take 8 = encodeFixed 8 kTableMagicNumber := by
    have hiff := @decodeFixed_eq_iff ((input.drop (kEncodedLength - 8)).take 8) kTableMagicNumber
      (by rw [hlast]; decide)
    rwa [hlast] at hiff
  have hhalves := @decodeFixed32_halves input (kEncodedLength - 8) hlength
  rw [decodeFrom, if_neg (not_lt.mpr hlength)]
  simp only [hhalves, ne_eq, hmagic, ite_not]

/-- Footers of usable handles are read back, and what does not end in the magic number is rejected. -/
theorem footers_read_back : (∀ footer : Footer,
      footer.metaindexHandle.offset < 2 ^ 64 - 1 → footer.metaindexHandle.size < 2 ^ 64 - 1 →
      footer.indexHandle.offset < 2 ^ 64 - 1 → footer.indexHandle.size < 2 ^ 64 - 1 →
        ∃ encoding, footer.encodeTo [] = some encoding ∧ encoding.length = kEncodedLength ∧
          ∀ rest, Footer.decodeFrom (encoding ++ rest) = some (.ok (footer, rest))) ∧
    ∀ input : List UInt8, input.length = kEncodedLength →
      input.drop (kEncodedLength - 8) ≠ encodeFixed 8 kTableMagicNumber →
        Footer.decodeFrom input = some (.error (.invalidArgument "not an sstable (bad magic number)")) := by
  constructor
  · intro footer hmetaOffset hmetaSize hindexOffset hindexSize
    obtain ⟨metaindex, hmetaindex, hreadMeta⟩ := BlockHandle.decodeHandle_encodeTo hmetaOffset hmetaSize
    obtain ⟨index, hindex, hreadIndex⟩ := BlockHandle.decodeHandle_encodeTo hindexOffset hindexSize
    obtain ⟨padding, hlength, hencode⟩ := Footer.encodeTo_nil hmetaindex hindex
    have htotal : (metaindex ++ (index ++ padding) ++ encodeFixed 8 kTableMagicNumber).length =
        kEncodedLength := by
      rw [length_append, hlength, length_encodeFixed]
      rfl
    refine ⟨_, hencode, htotal, fun rest ↦ ?_⟩
    have hlast : ((metaindex ++ (index ++ padding) ++ encodeFixed 8 kTableMagicNumber ++ rest).drop
        (kEncodedLength - 8)).take 8 = encodeFixed 8 kTableMagicNumber := by
      rw [append_assoc, drop_left' hlength, take_left' (length_encodeFixed _ _)]
    rw [Footer.decodeFrom_eq (by rw [length_append, htotal]; exact Nat.le_add_right _ _), if_pos hlast,
      drop_left' htotal]
    simp only [append_assoc, hreadMeta, hreadIndex, bind, Except.bind]
    rfl
  · intro input hlength hlast
    rw [Footer.decodeFrom_eq hlength.ge, if_neg]
    rwa [take_of_length_le]
    rw [length_drop, hlength]
    exact le_rfl

/-- 1-byte type and 32-bit crc -/
def kBlockTrailerSize : ℕ := 5

inductive CompressionType
  | kNoCompression
  | kSnappyCompression
  deriving DecidableEq, Repr

/-- The value of the enumerator. -/
def CompressionType.code : CompressionType → UInt8
  | .kNoCompression => 0
  | .kSnappyCompression => 1

abbrev BlockChecksum : Type := List UInt8 → UInt8 → UInt32

def blockTrailer (crc : BlockChecksum) (type : CompressionType) (contents : List UInt8) : List UInt8 :=
  type.code :: encodeFixed32 (Crc32c.mask (crc contents type.code)).toNat

theorem length_blockTrailer (crc : BlockChecksum) (type : CompressionType) (contents : List UInt8) :
    (blockTrailer crc type contents).length = kBlockTrailerSize := by
  rw [blockTrailer, length_cons, encodeFixed32, length_encodeFixed]
  rfl

def contentsAt (file : List UInt8) (handle : BlockHandle) : List UInt8 :=
  (file.drop handle.offset).take handle.size

theorem contentsAt_append (before contents after : List UInt8) :
    contentsAt (before ++ (contents ++ after)) ⟨before.length, contents.length⟩ = contents := by
  rw [contentsAt, drop_left, take_left]

end LevelDB.Table.Format
