import LevelDB.Table.TableIndex

/-!
# Reading blocks of a table

`ReadBlock` of `table/format.cpp` and `Table::BlockReader` of `table/table.cpp`.  Neither has a `return` at its
end: `ReadBlock` gives no status to its caller after it has filled the result, and `BlockReader` never gives
the iterator that it has made.  `none` stands for such a call, whose caller goes on with no value.
-/

namespace LevelDB.Table.BlockReader

open Util.Coding Db.Log Block Format TableBuilder TableIndex List

/-- `RandomAccessFile::Read` of so many bytes at an offset: the bytes, and whether they are in the scratch
buffer of the caller. -/
structure RandomAccessFile where
  read : ℕ → ℕ → Except Status (List UInt8 × Bool)

/-- The file has these bytes, and reading does not fail. -/
def RandomAccessFile.Serves (file : RandomAccessFile) (bytes : List UInt8) : Prop :=
  ∀ offset n, ∃ inScratch, file.read offset n = .ok ((bytes.drop offset).take n, inScratch)

structure BlockContents where
  data : List UInt8 := []
  cachable : Bool := false
  heapAllocated : Bool := false
  deriving DecidableEq

def blockChecksum (crc : Crc32c) : BlockChecksum := fun contents type ↦ crc.extend (crc.value contents) [type]

def readBlock (crc : Crc32c) (file : RandomAccessFile) (verifyChecksums : Bool) (handle : BlockHandle) :
    Option Status × BlockContents :=
  let n := handle.size
  match file.read handle.offset (n + kBlockTrailerSize) with
  | .error s => (some s, {})
  | .ok (contents, inScratch) =>
    if contents.length ≠ n + kBlockTrailerSize then (some (.corruption "truncated block read"), {})
    else if verifyChecksums ∧ crc.value (contents.take (n + 1)) ≠
        Crc32c.unmask (UInt32.ofNat (decodeFixed32 contents (n + 1))) then
      (some (.corruption "block checksum mismatch"), {})
    else if contents.getD n 0 = CompressionType.kNoCompression.code then
      -- the end of the function is reached without a `return`
      (none, ⟨contents.take n, inScratch, inScratch⟩)
    else (some (.corruption "bad block type"), {})

structure ReadOptions where
  verifyChecksums : Bool
  fillCache : Bool

/-- The members of `Table::Rep` that `BlockReader` reads. -/
structure TableRep where
  file : RandomAccessFile
  cacheId : ℕ

abbrev BlockCache := List (List UInt8 × Contents)

def cacheKey (table : TableRep) (handle : BlockHandle) : List UInt8 :=
  encodeFixed 8 table.cacheId ++ encodeFixed 8 handle.offset

/-- `ReadBlock` in `BlockReader`: the status and the new block. -/
def loadBlock (crc : Crc32c) (table : TableRep) (options : ReadOptions) (handle : BlockHandle) :
    Option (Except Status (Contents × BlockContents)) := do
  let (returned, contents) := readBlock crc table.file options.verifyChecksums handle
  let s ← returned
  if s = .ok then
    let block ← Block.new contents.data
    return .ok (block, contents)
  else return .error s

/-- `BlockReader` up to its last statement: the local `iter`, and the cache. -/
def openBlock (crc : Crc32c) (table : TableRep) (options : ReadOptions) (indexValue : List UInt8)
    (blockCache : Option BlockCache) : Option ((Status ⊕ Iter) × Option BlockCache) :=
  match BlockHandle.decodeFrom indexValue with
  | .error s => some (.inl s, blockCache)
  | .ok (handle, _) =>
    match blockCache with
    | some cache =>
      match cache.lookup (cacheKey table handle) with
      | some block => block.newIterator.map fun iter ↦ (iter, some cache)
      | none => do
        match ← loadBlock crc table options handle with
        | .ok (block, contents) =>
          let iter ← block.newIterator
          if contents.cachable ∧ options.fillCache then
            return (iter, some ((cacheKey table handle, block) :: cache))
          else return (iter, some cache)
        | .error s => return (.inl s, some cache)
    | none => do
      match ← loadBlock crc table options handle with
      | .ok (block, _) => block.newIterator.map fun iter ↦ (iter, none)
      | .error s => return (.inl s, none)

/-- What `BlockReader` returns.  It ends with the assignment of `iter`. -/
def blockReader (crc : Crc32c) (table : TableRep) (options : ReadOptions) (indexValue : List UInt8)
    (blockCache : Option BlockCache) : Option ((Status ⊕ Iter) × Option BlockCache) := do
  let _ ← openBlock crc table options indexValue blockCache
  none

/-- The caches that reads of tables can leave; entries can be evicted at any time. -/
inductive CacheReached (crc : Crc32c) (tables : List TableRep) : Option BlockCache → Prop
  | absent : CacheReached crc tables none
  | empty : CacheReached crc tables (some [])
  | read {blockCache blockCache' : Option BlockCache} {table : TableRep} {options : ReadOptions}
      {indexValue : List UInt8} {iter : Status ⊕ Iter} (h : CacheReached crc tables blockCache)
      (htable : table ∈ tables)
      (hread : blockReader crc table options indexValue blockCache = some (iter, blockCache')) :
      CacheReached crc tables blockCache'
  | evict {cache cache' : BlockCache} (h : CacheReached crc tables (some cache)) (hevict : cache'.Sublist cache) :
      CacheReached crc tables (some cache')

/-- The calls of `WriteRawBlock` for these blocks, up to the first that fails, with their handles. -/
def writeRawBlocks (crc : Crc32c) (faults : ℕ → Bool) (r : Rep) : List (List UInt8) → Rep × List BlockHandle
  | [] => (r, [])
  | contents :: rest =>
    if r.status = .ok then
      let (r, handle) := r.writeRawBlock (blockChecksum crc) faults contents .kNoCompression
      let (r, handles) := writeRawBlocks crc faults r rest
      (r, handle :: handles)
    else (r, [])

structure ReadsBack (crc : Crc32c) (tables : List TableRep) (table : TableRep) (handle : BlockHandle)
    (contents : List UInt8) : Prop where
  readBlock : ∀ verifyChecksums, (readBlock crc table.file verifyChecksums handle).1 = some .ok ∧
    (readBlock crc table.file verifyChecksums handle).2.data = contents
  blockReader : ∀ options encoding blockCache, handle.encodeTo = some encoding →
    CacheReached crc tables blockCache → ∃ iter blockCache',
      (Block.new contents).bind Contents.newIterator = some iter ∧
      blockReader crc table options encoding blockCache = some (iter, blockCache')

/-- With `verify_checksums`, a block whose checksum is not that of its bytes is reported. -/
def DetectsMismatch (crc : Crc32c) (file : RandomAccessFile) : Prop :=
  ∀ handle contents inScratch,
    file.read handle.offset (handle.size + kBlockTrailerSize) = .ok (contents, inScratch) →
    contents.length = handle.size + kBlockTrailerSize →
    crc.value (contents.take (handle.size + 1)) ≠
      Crc32c.unmask (UInt32.ofNat (decodeFixed32 contents (handle.size + 1))) →
    (readBlock crc file true handle).1 = some (.corruption "block checksum mismatch")

section Written

variable {crc : Crc32c} {faults : ℕ → Bool}

theorem readBlock_written {file : RandomAccessFile} {before contents after : List UInt8}
    (hserves : file.Serves
      (before ++ (contents ++ (blockTrailer (blockChecksum crc) .kNoCompression contents ++ after))))
    (verifyChecksums : Bool) :
    (readBlock crc file verifyChecksums ⟨before.length, contents.length⟩).1 = none ∧
      (readBlock crc file verifyChecksums ⟨before.length, contents.length⟩).2.data = contents := by
  obtain ⟨inScratch, hread⟩ := hserves before.length (contents.length + kBlockTrailerSize)
  have hbytes : (List.drop before.length
      (before ++ (contents ++ (blockTrailer (blockChecksum crc) .kNoCompression contents ++
      after)))).take (contents.length + kBlockTrailerSize) =
        contents ++ blockTrailer (blockChecksum crc) .kNoCompression contents := by
    rw [drop_left, ← append_assoc]
    apply take_left'
    rw [length_append, length_blockTrailer]
  rw [hbytes] at hread
  have hlength : (contents ++ blockTrailer (blockChecksum crc) .kNoCompression contents).length =
      contents.length + kBlockTrailerSize := by rw [length_append, length_blockTrailer]
  -- the type byte and the checksum of the trailer
  have htake : (contents ++ blockTrailer (blockChecksum crc) .kNoCompression contents).take (contents.length + 1) =
      contents ++ [CompressionType.kNoCompression.code] := by
    rw [take_length_add_append]
    rfl
  have htype : (contents ++ blockTrailer (blockChecksum crc) .kNoCompression contents).getD contents.length 0 =
      CompressionType.kNoCompression.code := by
    rw [getD_eq_getElem?_getD, getElem?_append_right le_rfl, Nat.sub_self]
    rfl
  have hsplit : contents ++ blockTrailer (blockChecksum crc) .kNoCompression contents =
      (contents ++ [CompressionType.kNoCompression.code]) ++ (encodeFixed32 (Crc32c.mask
        (crc.extend (crc.value contents) [CompressionType.kNoCompression.code])).toNat ++ []) := by
    rw [append_nil, append_assoc]
    rfl
  have hcrc : Crc32c.unmask (UInt32.ofNat
      (decodeFixed32 (contents ++ blockTrailer (blockChecksum crc) .kNoCompression contents)
      (contents.length + 1))) = crc.value (contents ++ [CompressionType.kNoCompression.code]) := by
    have hoffset : contents.length + 1 = (contents ++ [CompressionType.kNoCompression.code]).length := by simp
    rw [hsplit, hoffset, decodeFixed32_append (UInt32.toNat_lt _), UInt32.ofNat_toNat, Crc32c.unmask_mask,
      crc.extend_value]
  have hdata :
      (contents ++ blockTrailer (blockChecksum crc) .kNoCompression contents).take contents.length = contents :=
    take_left
  simp only [readBlock, hread, hlength, ne_eq, not_true_eq_false, if_false, htake, hcrc, and_false, htype, if_true,
    hdata, and_self]

theorem detectsMismatch (file : RandomAccessFile) : DetectsMismatch crc file := by
  intro handle contents inScratch hread hlength hcrc
  simp [readBlock, hread, hlength, hcrc]

def WrittenAt (crc : Crc32c) (file : List UInt8) (handle : BlockHandle) (contents : List UInt8) : Prop :=
  ∃ before after,
    file = before ++ (contents ++ (blockTrailer (blockChecksum crc) .kNoCompression contents ++ after)) ∧
    handle = ⟨before.length, contents.length⟩

theorem writeRawBlocks_of_failed {r : Rep} {blocks : List (List UInt8)} (hstatus : r.status ≠ .ok) :
    writeRawBlocks crc faults r blocks = (r, []) := by
  cases blocks with
  | nil => rfl
  | cons contents rest => exact if_neg hstatus

/-- If all blocks have been written, each is where its handle says. -/
theorem writeRawBlocks_spec {r : Rep} {blocks : List (List UInt8)} (hoffset : r.offset = r.file.length)
    (hstatus : (writeRawBlocks crc faults r blocks).1.status = .ok) :
    (∃ more, (writeRawBlocks crc faults r blocks).1.file = r.file ++ more) ∧
      (writeRawBlocks crc faults r blocks).2.length = blocks.length ∧
      ∀ p ∈ (writeRawBlocks crc faults r blocks).2.zip blocks,
        WrittenAt crc (writeRawBlocks crc faults r blocks).1.file p.1 p.2 := by
  induction blocks generalizing r with
  | nil => exact ⟨⟨[], (append_nil _).symm⟩, rfl, by simp [writeRawBlocks]⟩
  | cons contents rest ih =>
    by_cases hok : r.status = .ok
    · obtain ⟨file, operations, offset, status, hwrite, hcases⟩ :=
        writeRawBlock_cases (blockChecksum crc) faults r contents .kNoCompression
      simp only [writeRawBlocks, if_pos hok, hwrite] at hstatus ⊢
      rcases hcases with rfl | ⟨rfl, hfile, hend, -⟩
      · rw [writeRawBlocks_of_failed (by simp)] at hstatus
        cases hstatus
      · have hnext : offset = file.length := by
          rw [hend, hoffset, hfile, length_append, length_append, length_blockTrailer]
        obtain ⟨⟨more, hmore⟩, hlength, hwritten⟩ := ih hnext hstatus
        have hgrown : file ++ more =
            r.file ++ (contents ++ (blockTrailer (blockChecksum crc) .kNoCompression contents ++ more)) := by
          rw [hfile]
          simp only [append_assoc]
        refine ⟨⟨_, hmore.trans hgrown⟩, congrArg Nat.succ hlength, ?_⟩
        intro p hp
        rcases mem_cons.mp hp with rfl | hp
        · exact ⟨r.file, more, hmore.trans hgrown, by rw [hoffset]⟩
        · exact hwritten p hp
    · rw [writeRawBlocks_of_failed hok] at hstatus
      exact absurd hstatus hok

/-- The block is read, but there is no status, for every block; so written blocks are read back, and damaged
ones are reported, exactly when there are no blocks. -/
theorem written_blocks_read_back_iff {blocks : List (List UInt8)} {table : TableRep} {after : List UInt8}
    (hstatus : (writeRawBlocks crc faults {} blocks).1.status = .ok)
    (hserves : table.file.Serves ((writeRawBlocks crc faults {} blocks).1.file ++ after))
    (tables : List TableRep) :
    (∀ p ∈ (writeRawBlocks crc faults {} blocks).2.zip blocks, ∀ verifyChecksums,
        (readBlock crc table.file verifyChecksums p.1).1 = none ∧
          (readBlock crc table.file verifyChecksums p.1).2.data = p.2) ∧
      (((∀ p ∈ (writeRawBlocks crc faults {} blocks).2.zip blocks, ReadsBack crc tables table p.1 p.2) ∧
        DetectsMismatch crc table.file) ↔ blocks = []) := by
  obtain ⟨-, hlength, hwritten⟩ := writeRawBlocks_spec rfl hstatus
  have hread : ∀ p ∈ (writeRawBlocks crc faults {} blocks).2.zip blocks, ∀ verifyChecksums,
      (readBlock crc table.file verifyChecksums p.1).1 = none ∧
        (readBlock crc table.file verifyChecksums p.1).2.data = p.2 := by
    intro p hp verifyChecksums
    obtain ⟨before, rest, hfile, hhandle⟩ := hwritten p hp
    rw [hfile] at hserves
    simp only [append_assoc] at hserves
    rw [hhandle]
    exact readBlock_written hserves verifyChecksums
  refine ⟨hread, ?_⟩
  constructor
  · rintro ⟨hback, -⟩
    by_contra hnil
    have hpos := length_pos_iff.mpr hnil
    have hzip : (writeRawBlocks crc faults {} blocks).2.zip blocks ≠ [] := by
      rw [← length_pos_iff, length_zip, hlength, Nat.min_self]
      exact hpos
    obtain ⟨p, hp⟩ := exists_mem_of_ne_nil _ hzip
    have hsome := ((hback p hp).readBlock true).1
    rw [(hread p hp true).1] at hsome
    cases hsome
  · rintro rfl
    exact ⟨by simp, detectsMismatch table.file⟩

def memoryFile (bytes : List UInt8) : RandomAccessFile := ⟨fun offset n ↦ .ok ((bytes.drop offset).take n, false)⟩

def zeroCrc : Crc32c := ⟨fun _ ↦ 0, fun _ _ ↦ 0, fun _ _ ↦ rfl⟩

/-- No blocks are read back, and a block of two bytes is not. -/
theorem written_blocks_read_back_iff_of_two_bytes :
    ((∀ p ∈ (writeRawBlocks zeroCrc (fun _ ↦ false) {} []).2.zip [],
        ReadsBack zeroCrc [] ⟨memoryFile [], 0⟩ p.1 p.2) ∧ DetectsMismatch zeroCrc (memoryFile [])) ∧
      let (r, handles) := writeRawBlocks zeroCrc (fun _ ↦ false) {} [[1, 2]]
      (∀ p ∈ handles.zip [[1, 2]], ∀ verifyChecksums,
        (readBlock zeroCrc (memoryFile r.file) verifyChecksums p.1).1 = none ∧
          (readBlock zeroCrc (memoryFile r.file) verifyChecksums p.1).2.data = p.2) ∧
        ¬ ((∀ p ∈ handles.zip [[1, 2]], ReadsBack zeroCrc [] ⟨memoryFile r.file, 0⟩ p.1 p.2) ∧
          DetectsMismatch zeroCrc (memoryFile r.file)) := by
  constructor
  · exact (@written_blocks_read_back_iff zeroCrc (fun _ ↦ false) [] ⟨memoryFile [], 0⟩ [] rfl
      (fun _ _ ↦ ⟨false, rfl⟩) []).2.mpr rfl
  · obtain ⟨hread, hiff⟩ := @written_blocks_read_back_iff zeroCrc (fun _ ↦ false) [[1, 2]]
      ⟨memoryFile (writeRawBlocks zeroCrc (fun _ ↦ false) {} [[1, 2]]).1.file, 0⟩ [] (by decide +kernel)
      (fun _ _ ↦ ⟨false, by rw [append_nil]; rfl⟩) []
    exact ⟨hread, fun hback ↦ cons_ne_nil _ _ (hiff.mp hback)⟩

/-- A block of two bytes is read, and no status is returned. -/
theorem readBlock_returns_nothing :
    (writeRawBlocks zeroCrc (fun _ ↦ false) {} [[1, 2]]).1.file = [1, 2, 0, 216, 234, 130, 162] ∧
      (writeRawBlocks zeroCrc (fun _ ↦ false) {} [[1, 2]]).2 = [⟨0, 2⟩] ∧
      readBlock zeroCrc (memoryFile [1, 2, 0, 216, 234, 130, 162]) true ⟨0, 2⟩ =
        (none, ⟨[1, 2], false, false⟩) := by
  decide +kernel

end Written

end LevelDB.Table.BlockReader
