import LevelDB.Db.Manifest
import LevelDB.Db.CompactionPick
import LevelDB.Library.RefCount

/-!
# The files of a database

The directory of a database and the process that works on it, at the level of files: which tables,
logs and descriptors exist, which of their bytes have been synced, and which of them the process still
needs.  One step is what a thread does while it holds `mutex_`, or one operation on a file while it
does not, so that the background thread interleaves with readers and with the switch of the memtable.
Steps that can fail carry the result of the operation; a crash may come between any two steps.

Modelled from `db/db_impl.cpp`, `db/builder.cpp`, `db/filename.cpp` and `db/version_set.cpp`.
-/

namespace LevelDB.Db.Storage

open Format TableFiles VersionBuilder CompactionPick Manifest Library RefCount Function

variable {K : Type*}

abbrev Files (K : Type*) := ℕ → List (FileMetaData K)

/-- A MANIFEST file. -/
structure Descriptor (K : Type*) where
  records : List (VersionEdit K)
  /-- A failed append has left bytes that `Recover` reports as a corruption. -/
  torn : Bool
  /-- `Sync` has succeeded after the last `Append`. -/
  synced : Bool

structure Directory (K : Type*) where
  tables : ℕ → Bool := fun _ ↦ false
  /-- `Sync` has succeeded after the last `Append` to the table of this number. -/
  tableSynced : ℕ → Bool := fun _ ↦ false
  logs : ℕ → Bool := fun _ ↦ false
  descriptors : ℕ → Option (Descriptor K) := fun _ ↦ none
  /-- The number of the descriptor that `CURRENT` names. -/
  current : Option ℕ := none

namespace Directory

def newTable (disk : Directory K) (number : ℕ) : Directory K :=
  { disk with
    tables := update disk.tables number true
    tableSynced := update disk.tableSynced number false }

def syncTable (disk : Directory K) (number : ℕ) : Directory K :=
  { disk with tableSynced := update disk.tableSynced number true }

def deleteTable (disk : Directory K) (number : ℕ) : Directory K :=
  { disk with tables := update disk.tables number false }

def newLog (disk : Directory K) (number : ℕ) : Directory K :=
  { disk with logs := update disk.logs number true }

def setDescriptor (disk : Directory K) (number : ℕ) (descriptor : Option (Descriptor K)) :
    Directory K :=
  { disk with descriptors := update disk.descriptors number descriptor }

end Directory

/-- The results of `AddRecord` on the descriptor log: `lost` has left nothing of the record, `torn` a
part of it, and after `readable` (a failed `Flush`) the record can be read although it failed. -/
inductive AppendResult
  | ok
  | lost
  | torn
  | readable
  deriving DecidableEq

def Descriptor.append (descriptor : Descriptor K) (edit : VersionEdit K) :
    AppendResult → Descriptor K
  | .ok | .readable => { descriptor with records := descriptor.records ++ [edit], synced := false }
  | .lost => { descriptor with synced := false }
  | .torn => { descriptor with torn := true, synced := false }

/-! ## The process -/

/-- `CompactMemTable` at work.  `base` is released when the table is written. -/
structure Flush (K : Type*) where
  number : ℕ
  base : Option (Handle (Files K))
  /-- `BuildTable` has created the file. -/
  written : Bool

structure CompactionWork (K : Type*) where
  level : ℕ
  inputVersion : Handle (Files K)
  inputs0 : List (FileMetaData K)
  inputs1 : List (FileMetaData K)
  /-- The new compaction pointer of the level. -/
  pointer : InternalKey K
  /-- The outputs that are finished. -/
  outputs : List (FileMetaData K)
  /-- The number of the output that is open. -/
  building : Option ℕ

def CompactionWork.numbers (c : CompactionWork K) : List ℕ :=
  c.outputs.map FileMetaData.number ++ c.building.toList

def CompactionWork.edit (c : CompactionWork K) : VersionEdit K :=
  .ofCompaction c.level c.pointer c.inputs0 c.inputs1 c.outputs

/-- How far `LogAndApply` has got with the files. -/
inductive Stage
  | start
  | appended
  | synced
  | currentSet
  | failed
  deriving DecidableEq

/-- `LogAndApply` at work: the completed edit and the version that it will install. -/
structure Logging (K : Type*) where
  edit : VersionEdit K
  version : Files K
  stage : Stage

/-- `DBImpl` and its `VersionSet`.  `vs.descriptorLog` is set when the first `LogAndApply` has
succeeded, that is, at the end of `DB::Open`. -/
structure DBImpl (K : Type*) where
  vs : VersionSet K
  /-- The linked list of versions. -/
  versions : List (Counted (Files K))
  currentId : ℕ
  nextId : ℕ
  /-- The versions that iterators and calls of `Get` hold. -/
  readers : List (Handle (Files K)) := []
  pendingOutputs : List ℕ := []
  /-- The log of `mem_`. -/
  logfileNumber : ℕ := 0
  /-- The log of `imm_`. -/
  imm : Option ℕ := none
  flush : Option (Flush K) := none
  compaction : Option (CompactionWork K) := none
  /-- The edit of `DB::Open`, which collects the tables that `RecoverLogFile` writes. -/
  openEdit : VersionEdit K := {}
  logging : Option (Logging K) := none

namespace DBImpl

def currentVersion (db : DBImpl K) : Handle (Files K) := ⟨db.currentId, db.vs.current⟩

/-- Everyone who holds a reference on a version. -/
def holders (db : DBImpl K) : List (Handle (Files K)) :=
  db.currentVersion :: (db.readers ++ (db.flush.bind Flush.base).toList ++
    (db.compaction.map CompactionWork.inputVersion).toList)

/-- `pending_outputs_` and `AddLiveFiles`. -/
def live (db : DBImpl K) (number : ℕ) : Bool :=
  decide (number ∈ db.pendingOutputs) || db.versions.any fun v ↦
    (List.range kNumLevels).any fun level ↦ (v.value level).any fun f ↦ decide (f.number = number)

/-- The process after `VersionSet::Recover`. -/
def recovered (vs : VersionSet K) : DBImpl K where
  vs := vs
  versions := [{ id := 1, value := vs.current, refs := 1 }]
  currentId := 1
  nextId := 2

def newFileNumber (db : DBImpl K) : DBImpl K := { db with vs := db.vs.newFileNumber }

def endCompaction (db : DBImpl K) (c : CompactionWork K) : DBImpl K :=
  { db with
    pendingOutputs := db.pendingOutputs.filter fun number ↦ number ∉ c.numbers
    versions := unref c.inputVersion.id db.versions
    compaction := none }

/-- The stage at which `LogAndApply` has succeeded with the files; only the first call sets `CURRENT`. -/
def lastStage (db : DBImpl K) : Stage := if db.vs.descriptorLog then .synced else .currentSet

/-- `LogAndApply` has applied the edit to a builder and built the version. -/
def startLogging (db : DBImpl K) (edit : VersionEdit K) (version : Files K) : DBImpl K :=
  { db with
    vs := { db.vs with compactPointer := applyCompactPointers edit db.vs.compactPointer }
    logging := some ⟨db.vs.completeEdit edit, version, .start⟩ }

/-- The process with the call of `LogAndApply` at another stage. -/
def atStage (db : DBImpl K) (logging : Logging K) (stage : Stage) : DBImpl K :=
  { db with logging := some { logging with stage := stage } }

/-- The end of a successful `LogAndApply`, with `AppendVersion`. -/
def install (db : DBImpl K) (logging : Logging K) : DBImpl K :=
  { db with
    vs := { db.vs with
      current := logging.version
      logNumber := logging.edit.logNumber.getD db.vs.logNumber
      prevLogNumber := logging.edit.prevLogNumber.getD db.vs.prevLogNumber
      descriptorLog := true }
    versions := unref db.currentId db.versions ++ [{ id := db.nextId, value := logging.version, refs := 1 }]
    currentId := db.nextId
    nextId := db.nextId + 1
    logging := none }

end DBImpl

def deleteObsoleteFiles (disk : Directory K) (db : DBImpl K) : Directory K :=
  { disk with
    tables := fun number ↦ disk.tables number && db.live number
    logs := fun number ↦ disk.logs number &&
      decide (db.vs.logNumber ≤ number ∨ number = db.vs.prevLogNumber)
    descriptors := fun number ↦
      if db.vs.manifestFileNumber ≤ number then disk.descriptors number else none }

structure State (K : Type*) where
  disk : Directory K
  /-- `none` when no process has the database open. -/
  db : Option (DBImpl K) := none
  /-- The last call of `LogAndApply` or `SetCurrentFile` has returned OK. -/
  returnedOk : Bool := false

/-! ## The steps -/

inductive NewDBResult
  | ok
  /-- The descriptor could not be written. -/
  | failedDescriptor
  /-- `SetCurrentFile` failed. -/
  | failedCurrent

/-- How `WriteLevel0Table` ends in `CompactMemTable`. -/
inductive FlushResult (K : Type*)
  | built (file : FileMetaData K)
  /-- The memtable was empty. -/
  | empty
  /-- `BuildTable` failed. -/
  | failed
  /-- The table is built, but the database is shutting down. -/
  | shuttingDown

inductive Action (K : Type*)
  /-- `DBImpl::NewDB` -/
  | newDB (result : NewDBResult)
  /-- `VersionSet::Recover` -/
  | recover
  /-- `RecoverLogFile` writes a table. -/
  | spill (file : FileMetaData K)
  /-- `RecoverLogFile` has read a log. -/
  | markFileNumberUsed (number : ℕ)
  /-- `DB::Open` creates the log and calls `LogAndApply`. -/
  | openLog
  /-- The switch in `MakeRoomForWrite`. -/
  | switchMemTable
  /-- `Get` or `NewInternalIterator` takes a reference on the current version. -/
  | pin
  | unpin (index : ℕ)
  | beginFlush
  /-- `BuildTable` writes the file. -/
  | writeTable
  | finishFlush (result : FlushResult K)
  /-- `PickCompaction` has picked these inputs. -/
  | beginCompaction (level : ℕ) (inputs0 inputs1 : List (FileMetaData K)) (pointer : InternalKey K)
  | openOutput
  | syncOutput
  | finishOutput (file : FileMetaData K)
  /-- `DoCompactionWork` ends with an error; an output that could not be opened has used a number. -/
  | failCompaction (usedNumber : Bool)
  | installCompactionResults
  /-- The write of the record, and before it of the snapshot, in `LogAndApply`. -/
  | appendRecord (result : AppendResult)
  | syncDescriptor (ok : Bool)
  | setCurrentFile (ok : Bool)
  /-- `LogAndApply` returns to its caller, which goes on. -/
  | logReturn
  | crash

variable [LinearOrder K]

def newDBEdit (K : Type*) (comparator : String) : VersionEdit K where
  comparator := some comparator
  logNumber := some 0
  nextFileNumber := some 2
  lastSequence := some 0

namespace State

def newDB (comparator : String) (state : State K) : NewDBResult → State K
  | .ok =>
    { state with
      disk := { state.disk.setDescriptor 1 (some ⟨[newDBEdit K comparator], false, false⟩) with
        current := some 1 }
      returnedOk := true }
  | .failedDescriptor => { state with disk := state.disk.setDescriptor 1 none, returnedOk := false }
  | .failedCurrent =>
    { state with
      disk := state.disk.setDescriptor 1 (some ⟨[newDBEdit K comparator], false, false⟩)
      returnedOk := false }

/-- `VersionSet::Recover` in a new process. -/
def recover (comparator : String) (state : State K) : Outcome (State K) :=
  match state.disk.current.bind state.disk.descriptors with
  | none => .blocked
  | some descriptor =>
    if descriptor.torn then .blocked
    else match Manifest.recover comparator descriptor.records with
      | .error _ => .blocked
      | .ok vs => .next { state with db := some (DBImpl.recovered vs) }

def startLogAndApply (state : State K) (db : DBImpl K) (edit : VersionEdit K) : Outcome (State K) :=
  if db.vs.acceptsLogNumber edit then
    .ofOption (((Builder.empty.apply (db.vs.completeEdit edit)).saveTo db.vs.current).map fun v ↦
      { state with db := some (db.startLogging edit v), returnedOk := false })
  else .abort

/-- The steps of `DB::Open` after `VersionSet::Recover`. -/
def openStep (state : State K) (db : DBImpl K) : Action K → Outcome (State K)
  | .spill file => .guarded (file.number = db.vs.nextFileNumber) (.next { state with
      disk := state.disk.newTable file.number
      db := some { db.newFileNumber with openEdit := db.openEdit.addFile 0 file } })
  | .markFileNumberUsed number => .guarded (state.disk.logs number = true) (.next { state with
      db := some { db with vs := db.vs.markFileNumberUsed number } })
  | .openLog => startLogAndApply { state with disk := state.disk.newLog db.vs.nextFileNumber }
      { db.newFileNumber with logfileNumber := db.vs.nextFileNumber }
      { db.openEdit with logNumber := some db.vs.nextFileNumber }
  | _ => .blocked

def foregroundStep (state : State K) (db : DBImpl K) : Action K → Outcome (State K)
  | .switchMemTable => .guarded (db.imm = none) <|
      if db.vs.prevLogNumber = 0 then .next { state with
        disk := state.disk.newLog db.vs.nextFileNumber
        db := some { db.newFileNumber with
          imm := some db.logfileNumber
          logfileNumber := db.vs.nextFileNumber } }
      else .abort
  | .pin => .next { state with db := some { db with
      readers := db.currentVersion :: db.readers
      versions := ref db.currentId db.versions } }
  | .unpin index =>
    match db.readers[index]? with
    | none => .blocked
    | some reader => .next { state with db := some { db with
        readers := db.readers.eraseIdx index
        versions := unref reader.id db.versions } }
  | _ => .blocked

/-- `CompactMemTable` after `BuildTable`. -/
def finishFlush (state : State K) (db : DBImpl K) (flush : Flush K) (base : Handle (Files K)) :
    FlushResult K → Outcome (State K)
  | .built file => .guarded (flush.written = true ∧ file.number = flush.number) <|
      let level := ({ files := base.value } : Version K).pickLevelForMemTableOutput file.lo file.hi
      startLogAndApply state released
        { newFiles := [(level, file)], prevLogNumber := some 0, logNumber := some db.logfileNumber }
  | .empty => .guarded (flush.written = false) <|
      startLogAndApply { state with disk := state.disk.deleteTable flush.number } released
        { prevLogNumber := some 0, logNumber := some db.logfileNumber }
  | .failed => .next { state with
      disk := if flush.written then state.disk.deleteTable flush.number else state.disk
      db := some { released with flush := none } }
  | .shuttingDown => .guarded (flush.written = true)
      (.next { state with db := some { released with flush := none } })

where
  /-- `pending_outputs_` and the base version are released. -/
  released : DBImpl K :=
    { db with
      pendingOutputs := db.pendingOutputs.filter fun number ↦ number ≠ flush.number
      versions := unref base.id db.versions
      flush := some { flush with base := none } }

def flushStep (state : State K) (db : DBImpl K) : Action K → Outcome (State K)
  | .beginFlush => .guarded (db.flush.isNone ∧ db.imm.isSome) (.next { state with
      db := some { db.newFileNumber with
        flush := some ⟨db.vs.nextFileNumber, some db.currentVersion, false⟩
        pendingOutputs := db.vs.nextFileNumber :: db.pendingOutputs
        versions := ref db.currentId db.versions } })
  | .writeTable =>
    match db.flush with
    | some ⟨number, some base, false⟩ => .next { state with
        disk := state.disk.newTable number
        db := some { db with flush := some ⟨number, some base, true⟩ } }
    | _ => .blocked
  | .finishFlush result =>
    match db.flush with
    | some ⟨number, some base, written⟩ => finishFlush state db ⟨number, some base, written⟩ base result
    | _ => .blocked
  | _ => .blocked

def compactionStep (state : State K) (db : DBImpl K) : Action K → Outcome (State K)
  | .beginCompaction level inputs0 inputs1 pointer =>
    .guarded (db.compaction.isNone ∧ db.imm = none ∧ inputs0 ⊆ db.vs.current level ∧
        inputs1 ⊆ db.vs.current (level + 1)) (.next { state with
      db := some { db with
        vs := { db.vs with
          compactPointer := update db.vs.compactPointer level (some pointer) }
        compaction := some ⟨level, db.currentVersion, inputs0, inputs1, pointer, [], none⟩
        versions := ref db.currentId db.versions } })
  | .openOutput =>
    match db.compaction with
    | some c => .guarded (c.building = none) (.next { state with
        disk := state.disk.newTable db.vs.nextFileNumber
        db := some { db.newFileNumber with
          compaction := some { c with building := some db.vs.nextFileNumber }
          pendingOutputs := db.vs.nextFileNumber :: db.pendingOutputs } })
    | none => .blocked
  | .syncOutput =>
    match db.compaction.bind CompactionWork.building with
    | some number => .next { state with disk := state.disk.syncTable number }
    | none => .blocked
  | .finishOutput file =>
    match db.compaction with
    | some c => .guarded (c.building = some file.number ∧ state.disk.tableSynced file.number = true)
        (.next { state with
          db := some { db with
            compaction := some { c with outputs := c.outputs ++ [file], building := none } } })
    | none => .blocked
  | .failCompaction usedNumber =>
    match db.compaction with
    | some c =>
      let db := if usedNumber then db.newFileNumber else db
      .next { state with
        disk := deleteObsoleteFiles state.disk (db.endCompaction c)
        db := some (db.endCompaction c) }
    | none => .blocked
  | .installCompactionResults =>
    match db.compaction with
    | some c => .guarded (c.building = none) (startLogAndApply state db c.edit)
    | none => .blocked
  | _ => .blocked

/-- The caller of `LogAndApply` after a success: `DB::Open`, `CompactMemTable` or the end of
`BackgroundCompaction`.  All of them delete the obsolete files. -/
def continueOk (db : DBImpl K) (logging : Logging K) : DBImpl K :=
  let installed := db.install logging
  if !db.vs.descriptorLog then { installed with openEdit := {} }
  else match db.flush, db.compaction with
    | some _, _ => { installed with flush := none, imm := none }
    | none, some c => installed.endCompaction c
    | none, none => installed

def loggingStep (comparator : String) (state : State K) (db : DBImpl K) (logging : Logging K) :
    Action K → Outcome (State K)
  | .appendRecord result => .guarded (logging.stage = .start) <|
      let number := db.vs.manifestFileNumber
      let descriptor := if db.vs.descriptorLog then state.disk.descriptors number
        else some ⟨[db.vs.writeSnapshot comparator], false, false⟩
      .next { state with
        disk := state.disk.setDescriptor number (descriptor.map fun d ↦ d.append logging.edit result)
        db := some (db.atStage logging (if result = .ok then .appended else .failed)) }
  | .syncDescriptor ok => .guarded (logging.stage = .appended) <|
      let number := db.vs.manifestFileNumber
      .next { state with
        disk := if ok then state.disk.setDescriptor number
            ((state.disk.descriptors number).map fun d ↦ { d with synced := true })
          else state.disk
        db := some (db.atStage logging (if ok then .synced else .failed)) }
  | .setCurrentFile ok => .guarded (logging.stage = .synced ∧ db.vs.descriptorLog = false) <|
      .next { state with
        disk := if ok then { state.disk with current := some db.vs.manifestFileNumber } else state.disk
        db := some (db.atStage logging (if ok then .currentSet else .failed))
        returnedOk := ok }
  | .logReturn =>
    if logging.stage = db.lastStage then
      .next {
        disk := deleteObsoleteFiles state.disk (continueOk db logging)
        db := some (continueOk db logging)
        returnedOk := true }
    else if logging.stage = .failed then
      if !db.vs.descriptorLog then
        -- `DB::Open` fails, and the new descriptor is deleted
        .next ⟨state.disk.setDescriptor db.vs.manifestFileNumber none, none, false⟩
      else match db.flush, db.compaction with
        | some _, _ => .next ⟨state.disk, some { db with flush := none, logging := none }, false⟩
        | none, some c =>
          let ended := ({ db with logging := none } : DBImpl K).endCompaction c
          .next ⟨deleteObsoleteFiles state.disk ended, some ended, false⟩
        | none, none => .next ⟨state.disk, some { db with logging := none }, false⟩
    else .blocked
  | _ => .blocked

/-- The steps of a process.  While `LogAndApply` runs, only its own steps and those of other threads
are taken; the background thread compacts a memtable before, or inside, a compaction of tables. -/
def processStep (comparator : String) (state : State K) (db : DBImpl K) (action : Action K) :
    Outcome (State K) :=
  match action with
  | .spill _ | .markFileNumberUsed _ | .openLog =>
    .guarded (db.vs.descriptorLog = false ∧ db.logging.isNone) (openStep state db action)
  | .switchMemTable | .pin | .unpin _ =>
    .guarded (db.vs.descriptorLog = true) (foregroundStep state db action)
  | .beginFlush | .writeTable | .finishFlush _ =>
    .guarded (db.vs.descriptorLog = true ∧ db.logging.isNone) (flushStep state db action)
  | .beginCompaction _ _ _ _ | .openOutput | .syncOutput | .finishOutput _ | .failCompaction _
  | .installCompactionResults =>
    .guarded (db.vs.descriptorLog = true ∧ db.logging.isNone ∧ db.flush.isNone)
      (compactionStep state db action)
  | .appendRecord _ | .syncDescriptor _ | .setCurrentFile _ | .logReturn =>
    match db.logging with
    | some logging => loggingStep comparator state db logging action
    | none => .blocked
  | _ => .blocked

def step (comparator : String) (state : State K) (action : Action K) : Outcome (State K) :=
  match action, state.db with
  | .newDB result, none => .guarded (state.disk.current = none) (.next (state.newDB comparator result))
  | .recover, none => state.recover comparator
  | .crash, some _ => .next { state with db := none }
  | action, some db => processStep comparator state db action
  | _, none => .blocked

end State

/-! ## The transitions -/

variable {comparator : String} {state state' : State K} {db : DBImpl K} {action : Action K}

def flushEdit (db : DBImpl K) (newFiles : List (ℕ × FileMetaData K)) : VersionEdit K where
  newFiles := newFiles
  prevLogNumber := some 0
  logNumber := some db.logfileNumber

/-- What a step does, with the conditions under which it does it. -/
inductive Transition (comparator : String) (state : State K) : Action K → State K → Prop
  | newDB {result : NewDBResult} : state.db = none → state.disk.current = none →
      Transition comparator state (.newDB result) (state.newDB comparator result)
  | recover {number : ℕ} {descriptor : Descriptor K} {vs : VersionSet K} : state.db = none →
      state.disk.current = some number → state.disk.descriptors number = some descriptor →
      descriptor.torn = false → Manifest.recover comparator descriptor.records = .ok vs →
      Transition comparator state .recover { state with db := some (.recovered vs) }
  | crash {db : DBImpl K} : state.db = some db →
      Transition comparator state .crash { state with db := none }
  | spill {db : DBImpl K} {file : FileMetaData K} : state.db = some db →
      db.vs.descriptorLog = false → db.logging = none → file.number = db.vs.nextFileNumber →
      Transition comparator state (.spill file) { state with
        disk := state.disk.newTable file.number
        db := some { db.newFileNumber with openEdit := db.openEdit.addFile 0 file } }
  | markFileNumberUsed {db : DBImpl K} {number : ℕ} : state.db = some db →
      db.vs.descriptorLog = false → db.logging = none →
      Transition comparator state (.markFileNumberUsed number) { state with
        db := some { db with vs := db.vs.markFileNumberUsed number } }
  | openLog {db opened : DBImpl K} : state.db = some db →
      db.vs.descriptorLog = false → db.logging = none →
      opened = { db.newFileNumber with logfileNumber := db.vs.nextFileNumber } →
      Transition comparator state .openLog {
        disk := state.disk.newLog db.vs.nextFileNumber
        db := some (opened.startLogging { db.openEdit with logNumber := some db.vs.nextFileNumber }
          (editedFiles db.vs.current { db.openEdit with logNumber := some db.vs.nextFileNumber }))
        returnedOk := false }
  | switchMemTable {db : DBImpl K} : state.db = some db → db.vs.descriptorLog = true → db.imm = none →
      Transition comparator state .switchMemTable { state with
        disk := state.disk.newLog db.vs.nextFileNumber
        db := some { db.newFileNumber with
          imm := some db.logfileNumber
          logfileNumber := db.vs.nextFileNumber } }
  | pin {db : DBImpl K} : state.db = some db → db.vs.descriptorLog = true →
      Transition comparator state .pin { state with db := some { db with
        readers := db.currentVersion :: db.readers
        versions := ref db.currentId db.versions } }
  | unpin {db : DBImpl K} {index : ℕ} {reader : Handle (Files K)} : state.db = some db →
      db.vs.descriptorLog = true → db.readers[index]? = some reader →
      Transition comparator state (.unpin index) { state with db := some { db with
        readers := db.readers.eraseIdx index
        versions := unref reader.id db.versions } }
  | beginFlush {db : DBImpl K} : state.db = some db → db.vs.descriptorLog = true →
      db.logging = none → db.flush = none →
      Transition comparator state .beginFlush { state with
        db := some { db.newFileNumber with
          flush := some ⟨db.vs.nextFileNumber, some db.currentVersion, false⟩
          pendingOutputs := db.vs.nextFileNumber :: db.pendingOutputs
          versions := ref db.currentId db.versions } }
  | writeTable {db : DBImpl K} {number : ℕ} {base : Handle (Files K)} : state.db = some db →
      db.vs.descriptorLog = true → db.logging = none → db.flush = some ⟨number, some base, false⟩ →
      Transition comparator state .writeTable { state with
        disk := state.disk.newTable number
        db := some { db with flush := some ⟨number, some base, true⟩ } }
  | flushBuilt {db : DBImpl K} {number level : ℕ} {base : Handle (Files K)} {file : FileMetaData K} :
      state.db = some db → db.vs.descriptorLog = true → db.logging = none →
      db.flush = some ⟨number, some base, true⟩ → file.number = number →
      Transition comparator state (.finishFlush (.built file)) { state with
        db := some ((State.finishFlush.released db ⟨number, some base, true⟩ base).startLogging
          (flushEdit db [(level, file)]) (editedFiles db.vs.current (flushEdit db [(level, file)])))
        returnedOk := false }
  | flushEmpty {db : DBImpl K} {number : ℕ} {base : Handle (Files K)} :
      state.db = some db → db.vs.descriptorLog = true → db.logging = none →
      db.flush = some ⟨number, some base, false⟩ →
      Transition comparator state (.finishFlush .empty) {
        disk := state.disk.deleteTable number
        db := some ((State.finishFlush.released db ⟨number, some base, false⟩ base).startLogging
          (flushEdit db []) (editedFiles db.vs.current (flushEdit db [])))
        returnedOk := false }
  | flushFailed {db : DBImpl K} {number : ℕ} {base : Handle (Files K)} {written : Bool} :
      state.db = some db → db.vs.descriptorLog = true → db.logging = none →
      db.flush = some ⟨number, some base, written⟩ →
      Transition comparator state (.finishFlush .failed) { state with
        disk := if written then state.disk.deleteTable number else state.disk
        db := some { State.finishFlush.released db ⟨number, some base, written⟩ base with
          flush := none } }
  | flushShuttingDown {db : DBImpl K} {number : ℕ} {base : Handle (Files K)} :
      state.db = some db → db.vs.descriptorLog = true → db.logging = none →
      db.flush = some ⟨number, some base, true⟩ →
      Transition comparator state (.finishFlush .shuttingDown) { state with
        db := some { State.finishFlush.released db ⟨number, some base, true⟩ base with
          flush := none } }
  | beginCompaction {db : DBImpl K} {level : ℕ} {inputs0 inputs1 : List (FileMetaData K)}
      {pointer : InternalKey K} : state.db = some db → db.vs.descriptorLog = true →
      db.logging = none → db.flush = none → db.compaction = none →
      Transition comparator state (.beginCompaction level inputs0 inputs1 pointer) { state with
        db := some { db with
          vs := { db.vs with
            compactPointer := update db.vs.compactPointer level (some pointer) }
          compaction := some ⟨level, db.currentVersion, inputs0, inputs1, pointer, [], none⟩
          versions := ref db.currentId db.versions } }
  | openOutput {db : DBImpl K} {c : CompactionWork K} : state.db = some db →
      db.vs.descriptorLog = true → db.logging = none → db.flush = none → db.compaction = some c →
      c.building = none →
      Transition comparator state .openOutput { state with
        disk := state.disk.newTable db.vs.nextFileNumber
        db := some { db.newFileNumber with
          compaction := some { c with building := some db.vs.nextFileNumber }
          pendingOutputs := db.vs.nextFileNumber :: db.pendingOutputs } }
  | syncOutput {db : DBImpl K} {c : CompactionWork K} {number : ℕ} : state.db = some db →
      db.compaction = some c → c.building = some number →
      Transition comparator state .syncOutput { state with disk := state.disk.syncTable number }
  | finishOutput {db : DBImpl K} {c : CompactionWork K} {file : FileMetaData K} :
      state.db = some db → db.vs.descriptorLog = true → db.logging = none → db.flush = none →
      db.compaction = some c → c.building = some file.number →
      state.disk.tableSynced file.number = true →
      Transition comparator state (.finishOutput file) { state with
        db := some { db with
          compaction := some { c with outputs := c.outputs ++ [file], building := none } } }
  | failCompaction {db counted : DBImpl K} {c : CompactionWork K} {usedNumber : Bool} :
      state.db = some db → db.vs.descriptorLog = true → db.logging = none → db.flush = none →
      db.compaction = some c → counted = (if usedNumber then db.newFileNumber else db) →
      Transition comparator state (.failCompaction usedNumber) { state with
        disk := deleteObsoleteFiles state.disk (counted.endCompaction c)
        db := some (counted.endCompaction c) }
  | installCompactionResults {db : DBImpl K} {c : CompactionWork K} : state.db = some db →
      db.vs.descriptorLog = true → db.logging = none → db.flush = none → db.compaction = some c →
      c.building = none →
      Transition comparator state .installCompactionResults { state with
        db := some (db.startLogging c.edit (editedFiles db.vs.current c.edit)), returnedOk := false }
  | appendRecord {db : DBImpl K} {logging : Logging K} {result : AppendResult} : state.db = some db →
      db.logging = some logging → logging.stage = .start →
      Transition comparator state (.appendRecord result) { state with
        disk := state.disk.setDescriptor db.vs.manifestFileNumber
          ((if db.vs.descriptorLog then state.disk.descriptors db.vs.manifestFileNumber
            else some ⟨[db.vs.writeSnapshot comparator], false, false⟩).map
              fun d ↦ d.append logging.edit result)
        db := some (db.atStage logging (if result = .ok then .appended else .failed)) }
  | syncDescriptor {db : DBImpl K} {logging : Logging K} {ok : Bool} : state.db = some db →
      db.logging = some logging → logging.stage = .appended →
      Transition comparator state (.syncDescriptor ok) { state with
        disk := if ok then state.disk.setDescriptor db.vs.manifestFileNumber
            ((state.disk.descriptors db.vs.manifestFileNumber).map fun d ↦ { d with synced := true })
          else state.disk
        db := some (db.atStage logging (if ok then .synced else .failed)) }
  | setCurrentFile {db : DBImpl K} {logging : Logging K} {ok : Bool} : state.db = some db →
      db.logging = some logging → logging.stage = .synced → db.vs.descriptorLog = false →
      Transition comparator state (.setCurrentFile ok) { state with
        disk := if ok then { state.disk with current := some db.vs.manifestFileNumber } else state.disk
        db := some (db.atStage logging (if ok then .currentSet else .failed))
        returnedOk := ok }
  | logReturnOk {db : DBImpl K} {logging : Logging K} : state.db = some db →
      db.logging = some logging →
      logging.stage = db.lastStage →
      Transition comparator state .logReturn {
        disk := deleteObsoleteFiles state.disk (State.continueOk db logging)
        db := some (State.continueOk db logging)
        returnedOk := true }
  | openFailed {db : DBImpl K} {logging : Logging K} : state.db = some db →
      db.logging = some logging → logging.stage = .failed → db.vs.descriptorLog = false →
      Transition comparator state .logReturn
        ⟨state.disk.setDescriptor db.vs.manifestFileNumber none, none, false⟩
  | flushNotLogged {db : DBImpl K} {logging : Logging K} {flush : Flush K} : state.db = some db →
      db.logging = some logging → logging.stage = .failed → db.vs.descriptorLog = true →
      db.flush = some flush →
      Transition comparator state .logReturn
        ⟨state.disk, some { db with flush := none, logging := none }, false⟩
  | compactionNotLogged {db : DBImpl K} {logging : Logging K} {c : CompactionWork K} :
      state.db = some db → db.logging = some logging → logging.stage = .failed →
      db.vs.descriptorLog = true → db.flush = none → db.compaction = some c →
      Transition comparator state .logReturn
        ⟨deleteObsoleteFiles state.disk (({ db with logging := none } : DBImpl K).endCompaction c),
          some (({ db with logging := none } : DBImpl K).endCompaction c), false⟩
  | notLogged {db : DBImpl K} {logging : Logging K} : state.db = some db →
      db.logging = some logging → logging.stage = .failed → db.vs.descriptorLog = true →
      db.flush = none → db.compaction = none →
      Transition comparator state .logReturn ⟨state.disk, some { db with logging := none }, false⟩

theorem startLogAndApply_eq_next {edit : VersionEdit K}
    (h : state.startLogAndApply db edit = .next state') : state' = { state with
      db := some (db.startLogging edit (editedFiles db.vs.current edit)), returnedOk := false } := by
  unfold State.startLogAndApply at h
  split at h
  · rw [Outcome.ofOption_eq_next, Option.map_eq_some_iff] at h
    obtain ⟨v, hsave, rfl⟩ := h
    have hv : v = editedFiles db.vs.current edit := eq_savedFiles_of_saveTo hsave
    rw [hv]
  · cases h

section

variable (hdb : state.db = some db)
include hdb

theorem transition_of_finishFlush (hopen : db.vs.descriptorLog = true) (hidle : db.logging = none)
    {number : ℕ} {base : Handle (Files K)} {written : Bool}
    (hflush : db.flush = some ⟨number, some base, written⟩) {result : FlushResult K}
    (h : state.finishFlush db ⟨number, some base, written⟩ base result = .next state') :
    Transition comparator state (.finishFlush result) state' := by
  cases result with
  | built file =>
    rw [State.finishFlush, Outcome.guarded_eq_next] at h
    obtain ⟨⟨hwritten, hnumber⟩, hstart⟩ := h
    cases hwritten
    rw [startLogAndApply_eq_next hstart]
    exact .flushBuilt hdb hopen hidle hflush hnumber
  | empty =>
    rw [State.finishFlush, Outcome.guarded_eq_next] at h
    obtain ⟨hwritten, hstart⟩ := h
    cases hwritten
    rw [startLogAndApply_eq_next hstart]
    exact .flushEmpty hdb hopen hidle hflush
  | failed =>
    cases h
    exact .flushFailed hdb hopen hidle hflush
  | shuttingDown =>
    rw [State.finishFlush, Outcome.guarded_eq_next] at h
    obtain ⟨hwritten, hnext⟩ := h
    cases hwritten
    cases hnext
    exact .flushShuttingDown hdb hopen hidle hflush

theorem transition_of_openStep (hclosed : db.vs.descriptorLog = false) (hidle : db.logging = none)
    (h : state.openStep db action = .next state') : Transition comparator state action state' := by
  cases action with
  | spill file =>
    rw [State.openStep, Outcome.guarded_eq_next] at h
    obtain ⟨hnumber, hnext⟩ := h
    cases hnext
    exact .spill hdb hclosed hidle hnumber
  | markFileNumberUsed number =>
    rw [State.openStep, Outcome.guarded_eq_next] at h
    obtain ⟨-, hnext⟩ := h
    cases hnext
    exact .markFileNumberUsed hdb hclosed hidle
  | openLog =>
    rw [startLogAndApply_eq_next h]
    exact .openLog hdb hclosed hidle rfl
  | _ => cases h

theorem transition_of_foregroundStep (hopen : db.vs.descriptorLog = true)
    (h : state.foregroundStep db action = .next state') : Transition comparator state action state' := by
  cases action with
  | switchMemTable =>
    rw [State.foregroundStep, Outcome.guarded_eq_next] at h
    obtain ⟨himm, hnext⟩ := h
    split at hnext
    · cases hnext
      exact .switchMemTable hdb hopen himm
    · cases hnext
  | pin =>
    cases h
    exact .pin hdb hopen
  | unpin index =>
    simp only [State.foregroundStep] at h
    split at h
    · cases h
    · rename_i reader hreader
      cases h
      exact .unpin hdb hopen hreader
  | _ => cases h

theorem transition_of_flushStep (hopen : db.vs.descriptorLog = true) (hidle : db.logging = none)
    (h : state.flushStep db action = .next state') : Transition comparator state action state' := by
  cases action with
  | beginFlush =>
    rw [State.flushStep, Outcome.guarded_eq_next] at h
    obtain ⟨⟨hflush, -⟩, hnext⟩ := h
    cases hnext
    exact .beginFlush hdb hopen hidle (Option.isNone_iff_eq_none.mp hflush)
  | writeTable =>
    simp only [State.flushStep] at h
    split at h
    · rename_i hflush
      cases h
      exact .writeTable hdb hopen hidle hflush
    · cases h
  | finishFlush result =>
    simp only [State.flushStep] at h
    split at h
    · rename_i hflush
      exact transition_of_finishFlush hdb hopen hidle hflush h
    · cases h
  | _ => cases h

theorem transition_of_compactionStep (hopen : db.vs.descriptorLog = true) (hidle : db.logging = none)
    (hflush : db.flush = none) (h : state.compactionStep db action = .next state') :
    Transition comparator state action state' := by
  cases action with
  | beginCompaction level inputs0 inputs1 pointer =>
    rw [State.compactionStep, Outcome.guarded_eq_next] at h
    obtain ⟨⟨hcompaction, -⟩, hnext⟩ := h
    cases hnext
    exact .beginCompaction hdb hopen hidle hflush (Option.isNone_iff_eq_none.mp hcompaction)
  | openOutput =>
    simp only [State.compactionStep] at h
    split at h
    · rename_i c hcompaction
      rw [Outcome.guarded_eq_next] at h
      obtain ⟨hbuilding, hnext⟩ := h
      cases hnext
      exact .openOutput hdb hopen hidle hflush hcompaction hbuilding
    · cases h
  | syncOutput =>
    simp only [State.compactionStep] at h
    split at h
    · rename_i number hnumber
      obtain ⟨c, hcompaction, hbuilding⟩ := Option.bind_eq_some_iff.mp hnumber
      cases h
      exact .syncOutput hdb hcompaction hbuilding
    · cases h
  | finishOutput file =>
    simp only [State.compactionStep] at h
    split at h
    · rename_i c hcompaction
      rw [Outcome.guarded_eq_next] at h
      obtain ⟨⟨hbuilding, hsynced⟩, hnext⟩ := h
      cases hnext
      exact .finishOutput hdb hopen hidle hflush hcompaction hbuilding hsynced
    · cases h
  | failCompaction usedNumber =>
    simp only [State.compactionStep] at h
    split at h
    · rename_i c hcompaction
      cases h
      exact .failCompaction hdb hopen hidle hflush hcompaction rfl
    · cases h
  | installCompactionResults =>
    simp only [State.compactionStep] at h
    split at h
    · rename_i c hcompaction
      rw [Outcome.guarded_eq_next] at h
      obtain ⟨hbuilding, hstart⟩ := h
      rw [startLogAndApply_eq_next hstart]
      exact .installCompactionResults hdb hopen hidle hflush hcompaction hbuilding
    · cases h
  | _ => cases h

theorem transition_of_loggingStep {logging : Logging K} (hlogging : db.logging = some logging)
    (h : state.loggingStep comparator db logging action = .next state') :
    Transition comparator state action state' := by
  cases action with
  | appendRecord result =>
    rw [State.loggingStep, Outcome.guarded_eq_next] at h
    obtain ⟨hstage, hnext⟩ := h
    cases hnext
    exact .appendRecord hdb hlogging hstage
  | syncDescriptor ok =>
    rw [State.loggingStep, Outcome.guarded_eq_next] at h
    obtain ⟨hstage, hnext⟩ := h
    cases hnext
    exact .syncDescriptor hdb hlogging hstage
  | setCurrentFile ok =>
    rw [State.loggingStep, Outcome.guarded_eq_next] at h
    obtain ⟨⟨hstage, hclosed⟩, hnext⟩ := h
    cases hnext
    exact .setCurrentFile hdb hlogging hstage hclosed
  | logReturn =>
    simp only [State.loggingStep] at h
    split at h
    · rename_i hstage
      cases h
      exact .logReturnOk hdb hlogging hstage
    · split at h
      · rename_i hstage
        split at h
        · rename_i hclosed
          cases h
          exact .openFailed hdb hlogging hstage (by simpa using hclosed)
        · rename_i hopen
          have hopen : db.vs.descriptorLog = true := by simpa using hopen
          split at h
          · rename_i flush _ hflush
            cases h
            exact .flushNotLogged hdb hlogging hstage hopen hflush
          · rename_i c hflush hcompaction
            cases h
            exact .compactionNotLogged hdb hlogging hstage hopen hflush hcompaction
          · rename_i hflush hcompaction
            cases h
            exact .notLogged hdb hlogging hstage hopen hflush hcompaction
      · cases h
  | _ => cases h

end

theorem transition_of_step (h : state.step comparator action = .next state') :
    Transition comparator state action state' := by
  cases hdb : state.db with
  | none =>
    cases action with
    | newDB result =>
      simp only [State.step, hdb, Outcome.guarded_eq_next] at h
      obtain ⟨hcurrent, hnext⟩ := h
      cases hnext
      exact .newDB hdb hcurrent
    | recover =>
      simp only [State.step, hdb, State.recover] at h
      split at h
      · cases h
      · rename_i descriptor hdescriptor
        obtain ⟨number, hcurrent, hfile⟩ := Option.bind_eq_some_iff.mp hdescriptor
        split at h
        · cases h
        · rename_i htorn
          split at h
          · cases h
          · rename_i vs hrecover
            cases h
            exact .recover hdb hcurrent hfile (by simpa using htorn) hrecover
    | _ => simp only [State.step, hdb] at h; cases h
  | some db =>
    cases action with
    | crash =>
      simp only [State.step, hdb] at h
      cases h
      exact .crash hdb
    | spill | markFileNumberUsed | openLog =>
      simp only [State.step, hdb, State.processStep, Outcome.guarded_eq_next,
        Option.isNone_iff_eq_none] at h
      exact transition_of_openStep hdb h.1.1 h.1.2 h.2
    | switchMemTable | pin | unpin =>
      simp only [State.step, hdb, State.processStep, Outcome.guarded_eq_next] at h
      exact transition_of_foregroundStep hdb h.1 h.2
    | beginFlush | writeTable | finishFlush =>
      simp only [State.step, hdb, State.processStep, Outcome.guarded_eq_next,
        Option.isNone_iff_eq_none] at h
      exact transition_of_flushStep hdb h.1.1 h.1.2 h.2
    | beginCompaction | openOutput | syncOutput | finishOutput | failCompaction
    | installCompactionResults =>
      simp only [State.step, hdb, State.processStep, Outcome.guarded_eq_next,
        Option.isNone_iff_eq_none] at h
      exact transition_of_compactionStep hdb h.1.1 h.1.2.1 h.1.2.2 h.2
    | appendRecord | syncDescriptor | setCurrentFile | logReturn =>
      simp only [State.step, hdb, State.processStep] at h
      split at h
      · rename_i logging hlogging
        exact transition_of_loggingStep hdb hlogging h
      · cases h
    | newDB | recover => simp only [State.step, hdb, State.processStep] at h; cases h

/-- The machine that starts without a process in a directory that meets `start`. -/
def storage (comparator : String) (start : Directory K → Prop) : Machine (State K) (Action K) where
  init state := state.db = none ∧ state.returnedOk = false ∧ start state.disk
  step := State.step comparator

end LevelDB.Db.Storage
