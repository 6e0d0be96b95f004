import LevelDB.Db.LogReader
import LevelDB.Library.Slices

/-!
# How a log writer lays out its file

The file consists of blocks of physical records.  Every block but the last is filled with zeros up to
`kBlockSize` bytes, which leaves no room for another header, and the physical records of the blocks are
those of the records added, in order (`addRecords_spec`).  What stands at the offset of a physical record
is parsed as that physical record (`parse_bytes`).
-/

namespace LevelDB.Db.Log

open LevelDB.Util.Coding List

section Parse

variable (crc : Checksum) {p : PhysicalRecord}

theorem PhysicalRecord.length_bytes (p : PhysicalRecord) : (p.bytes crc).length = p.size := by
  simp only [bytes, encodeFixed32, length_append, length_encodeFixed, length_cons, length_nil,
    size, kHeaderSize]

theorem PhysicalRecord.size_pos (p : PhysicalRecord) : 0 < p.size := by
  simp only [size, kHeaderSize]
  omega

/-- The reader computes the checksum that the writer has stored. -/
def PhysicalRecord.Agrees (p : PhysicalRecord) : Prop :=
  crc.computed (p.offset % kBlockSize) (UInt8.ofNat p.type.code :: p.payload) =
    crc.stored p.offset (UInt8.ofNat p.type.code) p.payload

instance (p : PhysicalRecord) : Decidable (p.Agrees crc) := inferInstanceAs (Decidable (_ = _))

/-- The physical record stands in `backing_store_` where it stands in its block, when `filled` bytes of it hold
the file up to `limit`. -/
def PhysicalRecord.Placed (filled limit : ℕ) (p : PhysicalRecord) : Prop :=
  p.offset % kBlockSize + limit = p.offset + filled

theorem Crc32c.agrees (crc : Crc32c) (p : PhysicalRecord) : p.Agrees crc :=
  (crc.extend_value [UInt8.ofNat p.type.code] p.payload).symm

theorem headerLength_bytes (hlength : p.payload.length ≤ 0xffff) (rest : Bytes) :
    Reader.headerLength (p.bytes crc ++ rest) = p.payload.length := by
  have hlow : p.payload.length % 256 < 2 ^ 8 := Nat.mod_lt _ (by decide)
  have hhigh : p.payload.length / 256 < 2 ^ 8 := by omega
  have hor := Nat.shiftLeft_add_eq_or_of_lt hlow (p.payload.length / 256)
  change (UInt8.ofNat p.payload.length).toNat ||| (UInt8.ofNat (p.payload.length / 256)).toNat <<< 8 = _
  rw [UInt8.toNat_ofNat', UInt8.toNat_ofNat', Nat.or_comm, Nat.mod_eq_of_lt hhigh, ← hor, Nat.shiftLeft_eq]
  omega

theorem headerType_bytes (rest : Bytes) : Reader.headerType (p.bytes crc ++ rest) = p.type.code := by
  have hbyte : (p.bytes crc ++ rest).getD 6 0 = UInt8.ofNat p.type.code := rfl
  simp only [Reader.headerType, hbyte]
  cases p.type <;> decide

theorem expectedCrc_bytes (rest : Bytes) :
    Reader.expectedCrc (p.bytes crc ++ rest) = crc.stored p.offset (UInt8.ofNat p.type.code) p.payload := by
  have hlt := (Crc32c.mask (crc.stored p.offset (UInt8.ofNat p.type.code) p.payload)).toNat_lt
  have hdecode := @decodeFixed32_append [] ([UInt8.ofNat p.payload.length,
    UInt8.ofNat (p.payload.length / 256), UInt8.ofNat p.type.code] ++ p.payload ++ rest) _ (by omega : _ < 2 ^ 32)
  rw [nil_append, length_nil, ← append_assoc, ← append_assoc] at hdecode
  rw [Reader.expectedCrc, PhysicalRecord.bytes, hdecode, UInt32.ofNat_toNat, Crc32c.unmask_mask]

variable {filled : ℕ} {rest : Bytes}

theorem actualCrc_bytes (hlength : p.payload.length ≤ 0xffff)
    (hplaced : p.Placed filled (p.offset + (p.bytes crc ++ rest).length)) :
    Reader.actualCrc crc filled (p.bytes crc ++ rest) =
      crc.computed (p.offset % kBlockSize) (UInt8.ofNat p.type.code :: p.payload) := by
  have hplace : filled - (p.bytes crc ++ rest).length = p.offset % kBlockSize := by
    rw [PhysicalRecord.Placed] at hplaced
    omega
  rw [Reader.actualCrc, headerLength_bytes crc hlength, hplace]
  change crc.computed _ ((UInt8.ofNat p.type.code :: (p.payload ++ rest)).take (1 + p.payload.length)) = _
  rw [Nat.add_comm, take_succ_cons, take_left]

/-- What the writer emits is what the reader parses, or its checksum is not taken for right. -/
theorem parse_bytes (htype : p.type ≠ .kZeroType) (hlength : p.payload.length ≤ 0xffff)
    (hplaced : p.Placed filled (p.offset + (p.bytes crc ++ rest).length)) :
    parse crc filled (p.bytes crc ++ rest) = if p.Agrees crc then (p.event, rest)
      else (.bad [((p.bytes crc ++ rest).length, "checksum mismatch")], []) := by
  have hsize : (p.bytes crc ++ rest).length = kHeaderSize + p.payload.length + rest.length := by
    rw [length_append, PhysicalRecord.length_bytes, PhysicalRecord.size]
  have hnonzero : p.type.code ≠ RecordType.kZeroType.code := by
    revert htype
    cases p.type <;> decide
  have hpayload : ((p.bytes crc ++ rest).drop kHeaderSize).take p.payload.length = p.payload := take_left
  have hrest : (p.bytes crc ++ rest).drop (kHeaderSize + p.payload.length) = rest :=
    drop_left' (p.length_bytes crc)
  simp only [parse, headerLength_bytes crc hlength, headerType_bytes, actualCrc_bytes crc hlength hplaced,
    expectedCrc_bytes, hpayload, hrest]
  rw [if_neg (by omega), if_neg (fun h ↦ hnonzero h.1), ite_not]
  rfl

end Parse

def total (ps : List PhysicalRecord) : ℕ := (ps.map PhysicalRecord.size).sum

@[simp]
theorem total_nil : total [] = 0 := rfl

@[simp]
theorem total_cons (p : PhysicalRecord) (ps : List PhysicalRecord) : total (p :: ps) = p.size + total ps :=
  rfl

theorem total_append (ps qs : List PhysicalRecord) : total (ps ++ qs) = total ps + total qs := by
  rw [total, map_append, sum_append]
  rfl

def Laid : ℕ → List PhysicalRecord → Prop
  | _, [] => True
  | start, p :: ps => p.offset = start ∧ p.type ≠ .kZeroType ∧ Laid p.limit ps

theorem Laid.append_singleton {start : ℕ} {ps : List PhysicalRecord} {p : PhysicalRecord} (h : Laid start ps)
    (hoffset : p.offset = start + total ps) (htype : p.type ≠ .kZeroType) : Laid start (ps ++ [p]) := by
  induction ps generalizing start with
  | nil => exact ⟨hoffset, htype, trivial⟩
  | cons q ps ih =>
    refine ⟨h.1, h.2.1, ih h.2.2 ?_⟩
    rw [hoffset, PhysicalRecord.limit, h.1, total_cons, Nat.add_assoc]

variable (crc : Checksum)

def bytesOf (ps : List PhysicalRecord) : Bytes := ps.flatMap (PhysicalRecord.bytes crc)

theorem length_bytesOf (ps : List PhysicalRecord) : (bytesOf crc ps).length = total ps := by
  rw [bytesOf, length_flatMap, total]
  simp only [PhysicalRecord.length_bytes]

/-- A block that is filled up with zeros. -/
theorem length_block {ps : List PhysicalRecord} (hfit : total ps ≤ kBlockSize) :
    (bytesOf crc ps ++ List.replicate (kBlockSize - total ps) 0).length = kBlockSize := by
  rw [length_append, length_bytesOf, length_replicate]
  omega

/-- The bytes of a log from the offset `start` of a block on: blocks that are filled up, and a last one. -/
inductive Blocks (last : List PhysicalRecord) : ℕ → List (List PhysicalRecord) → Bytes → Prop
  | last {start : ℕ} (hlaid : Laid start last) (hfit : total last ≤ kBlockSize) :
      Blocks last start [] (bytesOf crc last)
  | cons {start : ℕ} {ps : List PhysicalRecord} {closed : List (List PhysicalRecord)} {data : Bytes}
      (hlaid : Laid start ps) (hfit : total ps ≤ kBlockSize) (hfull : kBlockSize < total ps + kHeaderSize)
      (hrest : Blocks last (start + kBlockSize) closed data) :
      Blocks last start (ps :: closed)
        (bytesOf crc ps ++ List.replicate (kBlockSize - total ps) 0 ++ data)

namespace Blocks

variable {crc} {last : List PhysicalRecord} {start : ℕ} {closed : List (List PhysicalRecord)} {data : Bytes}

theorem length_eq (h : Blocks crc last start closed data) :
    data.length = closed.length * kBlockSize + total last := by
  induction h with
  | last => rw [length_bytesOf, length_nil, Nat.zero_mul, Nat.zero_add]
  | cons hlaid hfit hfull hrest ih =>
    rw [length_append, length_append, length_bytesOf, length_replicate, ih, length_cons, Nat.add_mul]
    omega

theorem total_le (h : Blocks crc last start closed data) : total last ≤ kBlockSize := by
  induction h with
  | last _ hfit => exact hfit
  | cons _ _ _ _ ih => exact ih

theorem add {p : PhysicalRecord} (h : Blocks crc last start closed data)
    (hoffset : p.offset = start + data.length) (htype : p.type ≠ .kZeroType)
    (hfit : total last + p.size ≤ kBlockSize) :
    Blocks crc (last ++ [p]) start closed (data ++ p.bytes crc) := by
  induction h with
  | last hlaid =>
    have hbytes : bytesOf crc last ++ p.bytes crc = bytesOf crc (last ++ [p]) := by
      rw [bytesOf, bytesOf, flatMap_append, flatMap_singleton]
    rw [length_bytesOf] at hoffset
    rw [hbytes]
    refine .last (hlaid.append_singleton hoffset htype) ?_
    rwa [total_append, total_cons, total_nil, Nat.add_zero]
  | cons hlaid hfit' hfull hrest ih =>
    rw [append_assoc]
    refine .cons hlaid hfit' hfull (ih ?_)
    rw [hoffset, length_append, length_append, length_bytesOf, length_replicate]
    omega

theorem close (h : Blocks crc last start closed data) (hfull : kBlockSize < total last + kHeaderSize) :
    Blocks crc [] start (closed ++ [last]) (data ++ List.replicate (kBlockSize - total last) 0) := by
  induction h with
  | @last start hlaid hfit =>
    have hnext : Blocks crc [] (start + kBlockSize) [] (bytesOf crc []) := .last trivial (by decide)
    have hclosed := Blocks.cons hlaid hfit hfull hnext
    rwa [show bytesOf crc [] = [] from rfl, append_nil] at hclosed
  | cons hlaid hfit hfull' hrest ih =>
    rw [append_assoc]
    exact .cons hlaid hfit hfull' ih

end Blocks

/-- The state of a writer, with the physical records of the blocks that it has filled and of the block
that it is filling. -/
structure Writer.Lays (w : Writer) (closed : List (List PhysicalRecord)) (last : List PhysicalRecord) :
    Prop where
  blocks : Blocks crc last 0 closed w.dest
  blockOffset : w.blockOffset = total last

namespace Writer

variable {crc} {w : Writer} {closed : List (List PhysicalRecord)} {last : List PhysicalRecord}

theorem Lays.switchBlock_spec (h : w.Lays crc closed last) :
    ∃ w₁ closed₁ last₁, w.switchBlock = some w₁ ∧ w₁.Lays crc closed₁ last₁ ∧
      closed₁.flatten ++ last₁ = closed.flatten ++ last ∧ total last₁ + kHeaderSize ≤ kBlockSize := by
  have hle := h.blocks.total_le
  rw [switchBlock, h.blockOffset, if_pos hle]
  by_cases hfull : kBlockSize - total last < kHeaderSize
  · have hclose := h.blocks.close (by omega)
    refine ⟨_, closed ++ [last], [], if_pos hfull, ⟨hclose, rfl⟩, ?_, by decide⟩
    rw [append_nil, flatten_append, flatten_singleton]
  · exact ⟨w, closed, last, if_neg hfull, h, rfl, by omega⟩

theorem Lays.emitPhysicalRecord_spec {p : PhysicalRecord} (h : w.Lays crc closed last)
    (hoffset : p.offset = w.dest.length) (htype : p.type ≠ .kZeroType)
    (hfit : total last + p.size ≤ kBlockSize) :
    ∃ w₁, w.emitPhysicalRecord crc p = some w₁ ∧ w₁.Lays crc closed (last ++ [p]) := by
  have hadd := h.blocks.add (hoffset.trans (Nat.zero_add _).symm) htype hfit
  rw [PhysicalRecord.size] at hfit
  have hassert : p.payload.length ≤ 0xffff ∧
      w.blockOffset + kHeaderSize + p.payload.length ≤ kBlockSize := by
    simp only [kHeaderSize, kBlockSize, h.blockOffset] at *
    omega
  refine ⟨_, if_pos hassert, hadd, ?_⟩
  simp only [total_append, total_cons, total_nil, PhysicalRecord.size, h.blockOffset, Nat.add_zero,
    Nat.add_assoc]

theorem payload_nextFragment (begins : Bool) (left : Bytes) :
    (w.nextFragment begins left).payload = left.take (w.nextFragment begins left).payload.length := by
  simp only [nextFragment, length_take]
  split <;> simp

theorem type_nextFragment (begins : Bool) (left : Bytes) : (w.nextFragment begins left).type =
      fragmentType begins (left.length == (w.nextFragment begins left).payload.length) := by
  simp only [nextFragment, length_take]
  split
  · rw [Nat.min_self]
  · rw [Nat.min_eq_left (not_lt.mp ‹_›)]

theorem fragmentType_ne_kZeroType (begins ends : Bool) : fragmentType begins ends ≠ .kZeroType := by
  cases begins <;> cases ends <;> decide

theorem Lays.round (h : w.Lays crc closed last) (begins : Bool) (left : Bytes) :
    ∃ w₁ w₂ closed₁ last₁, w.switchBlock = some w₁ ∧
      w₁.emitPhysicalRecord crc (w₁.nextFragment begins left) = some w₂ ∧
      w₁.Lays crc closed₁ last₁ ∧ w₂.Lays crc closed₁ (last₁ ++ [w₁.nextFragment begins left]) ∧
      closed₁.flatten ++ last₁ = closed.flatten ++ last := by
  obtain ⟨w₁, closed₁, last₁, hswitch, hlays, hflatten, hroom⟩ := h.switchBlock_spec
  have hfit : total last₁ + (w₁.nextFragment begins left).size ≤ kBlockSize := by
    rw [PhysicalRecord.size, length_payload_nextFragment, hlays.blockOffset]
    omega
  have htype : (w₁.nextFragment begins left).type ≠ .kZeroType := by
    rw [type_nextFragment]
    exact fragmentType_ne_kZeroType begins _
  obtain ⟨w₂, hemit, hlays₂⟩ := hlays.emitPhysicalRecord_spec rfl htype hfit
  exact ⟨w₁, w₂, closed₁, last₁, hswitch, hemit, hlays, hlays₂, hflatten⟩

section

variable {p : PhysicalRecord} {begins : Bool} {left : Bytes}

theorem fragments_cons {ps : List PhysicalRecord} (hpayload : p.payload = left.take p.payload.length)
    (htype : p.type = fragmentType begins (left.length == p.payload.length))
    (hmore : 0 < left.length - p.payload.length)
    (hrest : if false then Fragments (left.drop p.payload.length) ps
      else Continues (left.drop p.payload.length) ps) :
    if begins then Fragments left (p :: ps) else Continues left (p :: ps) := by
  have hends : (left.length == p.payload.length) = false := by
    rw [beq_eq_false_iff_ne]
    omega
  have hleft : left = p.payload ++ left.drop p.payload.length := by
    conv_lhs => rw [← take_append_drop p.payload.length left, ← hpayload]
  rw [hends] at htype
  rw [hleft]
  cases begins with
  | true => exact .first htype hrest
  | false => exact .middle htype hrest

/-- The fragment that takes all that remains. -/
theorem fragments_singleton (hpayload : p.payload = left.take p.payload.length)
    (htype : p.type = fragmentType begins (left.length == p.payload.length))
    (hdone : ¬ 0 < left.length - p.payload.length) :
    if begins then Fragments left [p] else Continues left [p] := by
  have hlength : p.payload.length = left.length := by
    have := congrArg List.length hpayload
    rw [length_take] at this
    omega
  have hleft : left = p.payload := by
    rw [hpayload, hlength, take_length]
  rw [hlength, beq_self_eq_true] at htype
  rw [hleft]
  cases begins with
  | true => exact .full htype
  | false => exact .last htype

end

/-- The physical records that one call of `AddRecord` still has to emit. -/
theorem Lays.addFragments_spec (h : w.Lays crc closed last) (begins : Bool) (left : Bytes) :
    ∃ w₁ closed₁ last₁ ps, w.addFragments crc begins left = some (w₁, ps) ∧ w₁.Lays crc closed₁ last₁ ∧
      closed₁.flatten ++ last₁ = closed.flatten ++ last ++ ps ∧
      (if begins then Fragments left ps else Continues left ps) := by
  fun_induction addFragments crc w begins left generalizing closed last with
  | case1 w begins left hswitch =>
    obtain ⟨w₁, _, _, hsome, -⟩ := h.switchBlock_spec
    rw [hswitch] at hsome
    contradiction
  | case2 w begins left w₁ hswitch p =>
    rename_i hemit
    obtain ⟨w₁', w₂, closed₁, last₁, hswitch', hemit', -⟩ := h.round begins left
    obtain rfl := Option.some.inj (hswitch.symm.trans hswitch')
    cases hemit.symm.trans hemit'
  | case3 w begins left w₁ hswitch p w₂ hemit hmore =>
    rename_i ih
    obtain ⟨w₁', w₂', closed₁, last₁, hswitch', hemit', -, hlays, hflatten⟩ := h.round begins left
    obtain rfl := Option.some.inj (hswitch.symm.trans hswitch')
    obtain rfl := Option.some.inj (hemit.symm.trans hemit')
    obtain ⟨w₃, closed₂, last₂, ps, hrest, hlays₂, hflatten₂, hcontinues⟩ := ih hlays
    refine ⟨w₃, closed₂, last₂, p :: ps, ?_, hlays₂, ?_, ?_⟩
    · rw [hrest]
      rfl
    · rw [hflatten₂, ← hflatten]
      simp only [p, append_assoc, singleton_append]
    · exact fragments_cons (payload_nextFragment begins left) (type_nextFragment begins left) hmore hcontinues
  | case4 w begins left w₁ hswitch p w₂ hemit =>
    rename_i hdone
    obtain ⟨w₁', w₂', closed₁, last₁, hswitch', hemit', -, hlays, hflatten⟩ := h.round begins left
    obtain rfl := Option.some.inj (hswitch.symm.trans hswitch')
    obtain rfl := Option.some.inj (hemit.symm.trans hemit')
    refine ⟨w₂, closed₁, last₁ ++ [p], [p], rfl, hlays, ?_, ?_⟩
    · rw [← append_assoc, hflatten]
    · exact fragments_singleton (payload_nextFragment begins left) (type_nextFragment begins left) hdone

theorem Lays.addRecords_spec (h : w.Lays crc closed last) (records : List Bytes) :
    ∃ w₁ closed₁ last₁ placed, w.addRecords crc records = some (w₁, placed) ∧ w₁.Lays crc closed₁ last₁ ∧
      closed₁.flatten ++ last₁ = closed.flatten ++ last ++ placed.flatten ∧
      List.Forall₂ Fragments records placed := by
  induction records generalizing w closed last with
  | nil => exact ⟨w, closed, last, [], rfl, h, by simp, .nil⟩
  | cons record records ih =>
    obtain ⟨w₁, closed₁, last₁, ps, hadd, hlays, hflatten, hfragments⟩ := h.addFragments_spec true record
    obtain ⟨w₂, closed₂, last₂, placed, hrest, hlays₂, hflatten₂, hplaced⟩ := ih hlays
    refine ⟨w₂, closed₂, last₂, ps :: placed, ?_, hlays₂, ?_, .cons hfragments hplaced⟩
    · rw [addRecords, addRecord, hadd]
      simp only [hrest, Option.map_some]
    · rw [hflatten₂, hflatten, flatten_cons, append_assoc]

theorem lays_empty : Lays crc {} [] [] := ⟨.last trivial (by decide), rfl⟩

end Writer

end LevelDB.Db.Log
