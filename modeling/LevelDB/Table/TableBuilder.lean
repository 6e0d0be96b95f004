import LevelDB.Table.BlockBuilder
import LevelDB.Table.FilterBlock
import LevelDB.Table.Format
import LevelDB.Util.Comparator

/-!
# Building tables

`TableBuilder` of `table/table_builder.cpp`.  A file operation fails where `faults` says so, and an append
also where the file would become longer than a block handle can say.  A failed assertion is `none`.

`Add` does not reset `pending_index_entry` after it has added the index entry of the block before: the first
`Add` after a block has been written leaves a builder that fails an assertion in its next operation.
-/

namespace LevelDB.Table.TableBuilder

open Util Util.Coding Db.Log Block BlockBuilder FilterBlock Format

/-- The members of `Options` that a table builder reads.  A filter policy comes with its name. -/
structure Options (τ : Type*) [LinearOrder τ] where
  comparator : Comparator τ
  blockSize : ℕ
  blockRestartInterval : ℕ
  compression : CompressionType
  filterPolicy : Option (List UInt8 × FilterPolicy)

/-- `TableBuilder::Rep`, with the bytes of the file and the number of operations on it. -/
structure Rep where
  file : List UInt8 := []
  operations : ℕ := 0
  offset : ℕ := 0
  status : Status := .ok
  dataBlock : Builder := {}
  indexBlock : Builder := {}
  lastKey : List UInt8 := []
  numEntries : ℕ := 0
  closed : Bool := false
  filterBlock : Option FilterBlockBuilder := none
  pendingIndexEntry : Bool := false
  pendingHandle : BlockHandle := {}

section Operations

variable (crc : BlockChecksum) (faults : ℕ → Bool) {τ : Type*} [LinearOrder τ] (options : Options τ)

/-- `r->status = r->file->Append(data)` -/
def Rep.append (r : Rep) (data : List UInt8) : Rep :=
  if faults r.operations ∨ 2 ^ 64 - 1 ≤ r.file.length + data.length then
    { r with operations := r.operations + 1, status := .ioError }
  else { r with operations := r.operations + 1, file := r.file ++ data, status := .ok }

/-- `r->status = r->file->Flush()` -/
def Rep.flushFile (r : Rep) : Rep :=
  { r with operations := r.operations + 1, status := if faults r.operations then .ioError else .ok }

def Rep.writeRawBlock (r : Rep) (contents : List UInt8) (type : CompressionType) : Rep × BlockHandle :=
  let handle : BlockHandle := ⟨r.offset, contents.length⟩
  let r := r.append faults contents
  if r.status = .ok then
    let r := r.append faults (blockTrailer crc type contents)
    if r.status = .ok then ({ r with offset := r.offset + (contents.length + kBlockTrailerSize) }, handle)
    else (r, handle)
  else (r, handle)

/-- `WriteBlock`; the caller resets the block. -/
def Rep.writeBlock (r : Rep) (block : Builder) : Option (Rep × BlockHandle) :=
  if r.status = .ok then
    let raw := block.finish.buffer
    -- no compression is assumed
    let (contents, type) := match options.compression with
      | .kNoCompression => (raw, CompressionType.kNoCompression)
      | .kSnappyCompression => (raw, CompressionType.kNoCompression)
    some (r.writeRawBlock crc faults contents type)
  else none

def Rep.startFilterBlock (r : Rep) : Option Rep :=
  match options.filterPolicy, r.filterBlock with
  | some (_, policy), some filterBlock => do
    let filterBlock ← filterBlock.startBlock policy r.offset
    return { r with filterBlock := some filterBlock }
  | _, _ => some r

def Rep.flush (r : Rep) : Option Rep :=
  if r.closed then none
  else if r.status ≠ .ok then some r
  else if r.dataBlock.buffer = [] then some r
  else if r.pendingIndexEntry then none
  else do
    let (r, handle) ← r.writeBlock crc faults options r.dataBlock
    let r := { r with dataBlock := {}, pendingHandle := handle }
    let r := if r.status = .ok then { r with pendingIndexEntry := true }.flushFile faults else r
    r.startFilterBlock options

def Rep.addIndexEntry (r : Rep) (key : List UInt8) : Option Rep :=
  if r.pendingIndexEntry then
    if r.dataBlock.buffer = [] then do
      let lastKey := options.comparator.findShortestSeparator r.lastKey key
      let handleEncoding ← r.pendingHandle.encodeTo
      let indexBlock ← r.indexBlock.add options.comparator.rank 1 (lastKey, handleEncoding)
      return { r with lastKey := lastKey, indexBlock := indexBlock }
    else none
  else some r

/-- A key is added to the filter block and becomes the last one. -/
def Rep.noteKey (r : Rep) (key : List UInt8) : Rep :=
  { r with
    filterBlock := r.filterBlock.map fun filterBlock ↦ filterBlock.addKey key
    lastKey := key
    numEntries := r.numEntries + 1 }

def Rep.add (r : Rep) (e : Entry) : Option Rep :=
  if r.closed then none
  else if r.status ≠ .ok then some r
  else if 0 < r.numEntries ∧ ¬options.comparator.rank r.lastKey < options.comparator.rank e.1 then none
  else do
    let r ← r.addIndexEntry options e.1
    let r := r.noteKey e.1
    let dataBlock ← r.dataBlock.add options.comparator.rank options.blockRestartInterval e
    let r := { r with dataBlock := dataBlock }
    if options.blockSize ≤ dataBlock.currentSizeEstimate then r.flush crc faults options else return r

def Rep.writeFilterBlock (r : Rep) : Rep × BlockHandle :=
  match options.filterPolicy, r.filterBlock with
  | some (_, policy), some filterBlock =>
    if r.status = .ok then r.writeRawBlock crc faults (filterBlock.finish policy) .kNoCompression else (r, {})
  | _, _ => (r, {})

def Rep.writeMetaindexBlock (r : Rep) (filterHandle : BlockHandle) : Option (Rep × BlockHandle) :=
  if r.status = .ok then do
    let metaIndexBlock ← BlockBuilder.new options.blockRestartInterval
    let metaIndexBlock ← match options.filterPolicy, r.filterBlock with
      | some (name, _), some _ => do
        let handleEncoding ← filterHandle.encodeTo
        metaIndexBlock.add options.comparator.rank options.blockRestartInterval
          ("filter.".toUTF8.toList ++ name, handleEncoding)
      | _, _ => some metaIndexBlock
    r.writeBlock crc faults options metaIndexBlock
  else some (r, {})

def Rep.writeIndexBlock (r : Rep) : Option (Rep × BlockHandle) :=
  if r.status = .ok then do
    let r ← if r.pendingIndexEntry then do
        let lastKey := options.comparator.findShortSuccessor r.lastKey
        let handleEncoding ← r.pendingHandle.encodeTo
        let indexBlock ← r.indexBlock.add options.comparator.rank 1 (lastKey, handleEncoding)
        some { r with lastKey := lastKey, indexBlock := indexBlock, pendingIndexEntry := false }
      else some r
    let (r, handle) ← r.writeBlock crc faults options r.indexBlock
    return ({ r with indexBlock := {} }, handle)
  else some (r, {})

def Rep.writeFooter (r : Rep) (footer : Footer) : Option Rep :=
  if r.status = .ok then do
    let encoding ← footer.encodeTo []
    let r := r.append faults encoding
    return if r.status = .ok then { r with offset := r.offset + encoding.length } else r
  else some r

/-- What `Finish` writes after the last data block; the handles are those of the footer, if it is written. -/
def Rep.writeTail (r : Rep) : Option (Rep × Footer) := do
  let (r, filterHandle) := r.writeFilterBlock crc faults options
  let (r, metaindexHandle) ← r.writeMetaindexBlock crc faults options filterHandle
  let (r, indexHandle) ← r.writeIndexBlock crc faults options
  let r ← r.writeFooter faults ⟨metaindexHandle, indexHandle⟩
  return (r, ⟨metaindexHandle, indexHandle⟩)

def Rep.finish (r : Rep) : Option (Rep × Footer) := do
  let r ← r.flush crc faults options
  if r.closed then none else Rep.writeTail crc faults options { r with closed := true }

/-- The constructor, with those of the data block and the index block. -/
def Rep.new : Option Rep := do
  let dataBlock ← BlockBuilder.new options.blockRestartInterval
  let indexBlock ← BlockBuilder.new options.blockRestartInterval
  let r : Rep := { dataBlock, indexBlock, filterBlock := options.filterPolicy.map fun _ ↦ {} }
  r.startFilterBlock options

/-- The calls before `Finish`. -/
inductive Op
  | add (e : Entry)
  | flush
  deriving DecidableEq

def Rep.step (r : Rep) : Op → Option Rep
  | .add e => r.add crc faults options e
  | .flush => r.flush crc faults options

def buildTable (ops : List Op) : Option (Rep × Footer) := do
  let r ← Rep.new options
  let r ← ops.foldlM (Rep.step crc faults options) r
  r.finish crc faults options

end Operations

section Blocks

variable {τ : Type*} [LinearOrder τ] (options : Options τ)

def entriesOf (ops : List Op) : List Entry := ops.filterMap fun
  | .add e => some e
  | .flush => none

/-- A data block with these entries has reached the block size. -/
def full (entries : List Entry) : Bool :=
  match entries.foldlM (Builder.add options.comparator.rank options.blockRestartInterval) {} with
  | some block => decide (options.blockSize ≤ block.currentSizeEstimate)
  | none => false

/-- The blocks that are complete and the entries of the current one, after one more call. -/
def place : List (List Entry) × List Entry → Op → List (List Entry) × List Entry
  | (blocks, current), .add e =>
    if full options (current ++ [e]) then (blocks ++ [current ++ [e]], []) else (blocks, current ++ [e])
  | (blocks, current), .flush => if current = [] then (blocks, []) else (blocks ++ [current], [])

/-- The entries of each data block: a block ends where it has reached the block size, at an explicit
`Flush` and at the end. -/
def dataBlocks (ops : List Op) : List (List Entry) :=
  let (blocks, current) := ops.foldl (place options) ([], [])
  if current = [] then blocks else blocks ++ [current]

structure Indexes (blocks : List (List Entry)) (file : List UInt8) (index : List Entry) : Prop where
  length_eq : index.length = blocks.length
  handle : ∀ i (hi : i < blocks.length) (hi' : i < index.length), ∃ handle,
    BlockHandle.decodeFrom index[i].2 = .ok (handle, []) ∧
      build options.comparator.rank options.blockRestartInterval blocks[i] = some (contentsAt file handle)
  last_le : ∀ i (hi : i < blocks.length) (hi' : i < index.length), ∀ e ∈ blocks[i],
    options.comparator.rank e.1 ≤ options.comparator.rank index[i].1
  lt_first : ∀ i (hi : i + 1 < blocks.length) (hi' : i < index.length), ∀ e ∈ blocks[i + 1],
    options.comparator.rank index[i].1 < options.comparator.rank e.1

end Blocks

end LevelDB.Table.TableBuilder
