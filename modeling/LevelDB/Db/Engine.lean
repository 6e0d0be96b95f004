import LevelDB.Db.FileStore
import LevelDB.Db.DropRules
import LevelDB.Library.Machine

/-!
# The database as a machine

The state of `DBImpl` and `VersionSet` that reads and writes depend on, and the steps that change it:
writes, memtable switches, flushes of the immutable memtable, automatic compactions, lookups (which
may charge a seek and so make a file due for compaction) and snapshots.  A compaction is not one
step.  It picks its inputs, writes its outputs one file at a time and is installed later, with any
other steps in between, among them flushes that `DoCompactionWork` runs itself.

`Builder::SaveTo` may run into an assertion when an edit is applied; that outcome is `abort`.
-/

namespace LevelDB.Db.Engine

open Format TableFiles VersionBuilder CompactionPick DropRules Lookup FileStore Library Function

inductive WriteOp (K V : Type*) where
  | put (key : K) (value : V)
  | delete (key : K)
  deriving DecidableEq, Repr

structure CompactionState (K V : Type*) where
  compaction : Compaction K
  smallestSnapshot : ℕ
  /-- The finished output files. -/
  outputs : List (FileMetaData K)
  /-- The kept entries that are not in an output file yet. -/
  remaining : List (Entry K V)

/-- The parts of `DBImpl` and `VersionSet` that the modelled steps read and write. -/
structure State (K V : Type*) where
  mem : List (Entry K V)
  imm : Option (List (Entry K V))
  current : Version K
  /-- The contents of the table files, by file number. -/
  tables : ℕ → List (Entry K V)
  /-- `allowed_seeks` of the files, by file number. -/
  allowedSeeks : ℕ → ℤ
  compactPointer : ℕ → Option (InternalKey K)
  nextFileNumber : ℕ
  lastSequence : ℕ
  /-- The snapshot list, oldest first. -/
  snapshots : List ℕ
  running : Option (CompactionState K V)

/-- The steps.  File sizes and the places where a compaction cuts its output are free. -/
inductive Action (K V : Type*) where
  | write (batch : List (WriteOp K V))
  /-- A write whose log record could not be written: its sequence numbers are used up. -/
  | failedWrite (count : ℕ)
  | switchMemTable
  | compactMemTable (fileSize : ℕ)
  | beginCompaction
  | finishOutput (count fileSize : ℕ)
  | installCompaction
  /-- The compaction ends with an error. -/
  | abandonCompaction
  | get (userKey : K) (snapshot : ℕ)
  /-- The end of a lookup in a version that is no longer current. -/
  | chargeSeek (number : ℕ)
  | getSnapshot
  | releaseSnapshot (index : ℕ)

section Definitions

variable {K V : Type*}

/-- The entry that a record becomes.  A deletion has the empty value. -/
def WriteOp.entry [Inhabited V] (op : WriteOp K V) (sequence : ℕ) : Entry K V :=
  match op with
  | .put key value => ⟨InternalKey.mk' key sequence .kTypeValue, value⟩
  | .delete key => ⟨InternalKey.mk' key sequence .kTypeDeletion, default⟩

def batchEntries [Inhabited V] : ℕ → List (WriteOp K V) → List (Entry K V)
  | _, [] => []
  | sequence, op :: rest => op.entry sequence :: batchEntries (sequence + 1) rest

/-- The metadata of a table with these entries; `none` for no entries. -/
def tableMeta (number fileSize : ℕ) (entries : List (Entry K V)) : Option (FileMetaData K) :=
  match entries.head?, entries.getLast? with
  | some first, some last => some ⟨number, fileSize, first.key, last.key⟩
  | _, _ => none

def initialSeeks (f : FileMetaData K) : ℤ := max 100 (f.fileSize / 16384 : ℕ)

def State.smallestSnapshot (state : State K V) : ℕ := state.snapshots.head?.getD state.lastSequence

variable [LinearOrder K]

/-- `MemTable::Add` into the skip list. -/
def memTableAdd (mem : List (Entry K V)) (e : Entry K V) : List (Entry K V) :=
  SortedLists.insertByKey Entry.key e mem

/-- The part of `LogAndApply` that builds and installs the next version, when the manifest can be
written. -/
def State.logAndApply (scoring : Scoring K) (state : State K V) (edit : VersionEdit K) :
    Option (State K V) :=
  ((Builder.empty.apply edit).saveTo state.current.files).map fun files ↦ { state with
    current := finalize scoring files
    allowedSeeks := edit.newFiles.foldl
      (fun seeks p ↦ update seeks p.2.number (initialSeeks p.2)) state.allowedSeeks
    compactPointer := edit.compactPointers.foldl
      (fun pointers p ↦ update pointers p.1 (some p.2)) state.compactPointer }

/-- What `WriteLevel0Table` adds to the edit of a flush.  An empty memtable makes no file. -/
def State.writeLevel0Table (state : State K V) (imm : List (Entry K V)) (fileSize : ℕ) :
    VersionEdit K :=
  match tableMeta state.nextFileNumber fileSize imm with
  | none => {}
  | some f => ({} : VersionEdit K).addFile (state.current.pickLevelForMemTableOutput f.lo f.hi) f

def State.compactMemTable (scoring : Scoring K) (state : State K V) (fileSize : ℕ) :
    Outcome (State K V) :=
  match state.imm with
  | none => .blocked
  | some imm =>
    .ofOption (({ state with
      imm := none
      nextFileNumber := state.nextFileNumber + 1
      tables := update state.tables state.nextFileNumber imm }).logAndApply scoring
        (state.writeLevel0Table imm fileSize))

def mergedInputs (tables : ℕ → List (Entry K V)) (c : Compaction K) : List (Entry K V) :=
  (levelEntries tables (c.inputs0 ++ c.inputs1)).insertionSort fun a b ↦ a.key ≤ b.key

/-- `PickCompaction` and the decisions of `DoCompactionWork` about every input entry. -/
def State.beginCompaction (state : State K V) : Outcome (State K V) :=
  .guarded (state.running.isNone ∧ state.imm.isNone)
    (match state.current.pickCompaction state.compactPointer with
    | none => .blocked
    | some c =>
      .next { state with
        compactPointer := update state.compactPointer c.level (some c.largest)
        running := some {
          compaction := c
          smallestSnapshot := state.smallestSnapshot
          outputs := []
          remaining := keptEntries c.inputVersion.files c.level state.smallestSnapshot
            (mergedInputs state.tables c) } })

def State.finishOutput (state : State K V) (count fileSize : ℕ) : Outcome (State K V) :=
  match state.running with
  | none => .blocked
  | some compact =>
    match tableMeta state.nextFileNumber fileSize (compact.remaining.take count) with
    | none => .blocked
    | some f =>
      .next { state with
        nextFileNumber := state.nextFileNumber + 1
        tables := update state.tables state.nextFileNumber (compact.remaining.take count)
        running := some { compact with
          outputs := compact.outputs ++ [f]
          remaining := compact.remaining.drop count } }

def CompactionState.edit (compact : CompactionState K V) : VersionEdit K :=
  .ofCompaction compact.compaction.level compact.compaction.largest compact.compaction.inputs0
    compact.compaction.inputs1 compact.outputs

/-- `InstallCompactionResults`, once every kept entry is in an output file. -/
def State.installCompaction (scoring : Scoring K) (state : State K V) : Outcome (State K V) :=
  match state.running with
  | none => .blocked
  | some compact =>
    .guarded (compact.remaining.isEmpty)
      (.ofOption (({ state with running := none }).logAndApply scoring compact.edit))

/-- `DBImpl::Get` at a sequence number. -/
def State.get (state : State K V) (userKey : K) (snapshot : ℕ) : GetStatus V :=
  let lkey := lookupKey userKey snapshot
  match memTableGet state.mem lkey with
  | some status => status
  | none =>
    match state.imm.bind fun imm ↦ memTableGet imm lkey with
    | some status => status
    | none => (versionGet state.current state.tables lkey).1

/-- The seek that `DBImpl::Get` charges after it has searched files. -/
def State.afterGet (state : State K V) (userKey : K) (snapshot : ℕ) : State K V :=
  let lkey := lookupKey userKey snapshot
  if (memTableGet state.mem lkey).isSome ∨ (state.imm.bind fun imm ↦ memTableGet imm lkey).isSome then
    state
  else
    let (current, allowedSeeks) :=
      updateStats state.current state.allowedSeeks (versionGet state.current state.tables lkey).2
    { state with current, allowedSeeks }

/-- A database without entries. -/
def State.empty (scoring : Scoring K) (nextFileNumber : ℕ) : State K V where
  mem := []
  imm := none
  current := finalize scoring fun _ ↦ []
  tables _ := []
  allowedSeeks _ := 0
  compactPointer _ := none
  nextFileNumber := nextFileNumber
  lastSequence := 0
  snapshots := []
  running := none

/-- One step.  Sequence numbers of writes stay below `kMaxSequenceNumber`, the number that the code
uses as later than every write. -/
def step [Inhabited V] (scoring : Scoring K) (state : State K V) : Action K V → Outcome (State K V)
  | .write batch =>
    .guarded (state.lastSequence + batch.length < kMaxSequenceNumber)
      (.next { state with
        mem := (batchEntries (state.lastSequence + 1) batch).foldl memTableAdd state.mem
        lastSequence := state.lastSequence + batch.length })
  | .failedWrite count =>
    .guarded (state.lastSequence + count < kMaxSequenceNumber)
      (.next { state with lastSequence := state.lastSequence + count })
  | .switchMemTable =>
    .guarded (state.imm.isNone ∧ (state.current.files 0).length < kL0StopWritesTrigger)
      (.next { state with
        imm := some state.mem
        mem := []
        nextFileNumber := state.nextFileNumber + 1 })
  | .compactMemTable fileSize => state.compactMemTable scoring fileSize
  | .beginCompaction => state.beginCompaction
  | .finishOutput count fileSize => state.finishOutput count fileSize
  | .installCompaction => state.installCompaction scoring
  | .abandonCompaction => .next { state with running := none }
  | .get userKey snapshot =>
    .guarded (snapshot = state.lastSequence ∨ snapshot ∈ state.snapshots)
      (.next (state.afterGet userKey snapshot))
  | .chargeSeek number =>
    .next { state with
      allowedSeeks := update state.allowedSeeks number (state.allowedSeeks number - 1) }
  | .getSnapshot => .next { state with snapshots := state.snapshots ++ [state.lastSequence] }
  | .releaseSnapshot index => .next { state with snapshots := state.snapshots.eraseIdx index }

/-- The database, from an empty one on. -/
def engine [Inhabited V] (scoring : Scoring K) : Machine (State K V) (Action K V) where
  init state := ∃ nextFileNumber, state = State.empty scoring nextFileNumber
  step := step scoring

end Definitions

end LevelDB.Db.Engine
