import LevelDB.Db.StorageTables

/-!
# File numbers

The loop of `DBImpl::Recover` over the logs and the failed creation of a log, on top of the storage machine.
`next_file_number_` is saved only with edits, goes back in `ReuseFileNumber`, and passes the numbers of
replayed logs only after their tables have got theirs.  No file that is still in use is ever created anew.
-/

namespace LevelDB.Db.FileNumbers

open Format TableFiles VersionBuilder Manifest Storage Library RefCount List Function

variable {K : Type*} {comparator : String} {disk : Directory K}
  {db db' : DBImpl K}
  {files : Storage.State K} {action : Storage.Action K}

def reuseFileNumber (vs : VersionSet K) (number : ℕ) : VersionSet K :=
  if vs.nextFileNumber = number + 1 then { vs with nextFileNumber := number } else vs

/-- The number of a log that could not be created is given out again. -/
theorem reuseFileNumber_newFileNumber (vs : VersionSet K) :
    reuseFileNumber vs.newFileNumber vs.nextFileNumber = vs :=
  if_pos rfl

/-! ## The machine -/

structure State (K : Type*) where
  files : Storage.State K
  /-- The logs that `GetChildren` lists. -/
  logFiles : List ℕ
  /-- The logs that the loop of `Recover` has not finished, in its order. -/
  logs : List ℕ := []

inductive Action (K : Type*)
  | storage (action : Storage.Action K)
  /-- `VersionSet::Recover`, and the listing of the logs. -/
  | recover
  /-- `WriteLevel0Table` in `RecoverLogFile` adds no table to the edit: the memtable is empty or
  `BuildTable` fails. -/
  | spillNothing
  /-- `RecoverLogFile` returns, with any status, and its log is marked. -/
  | finishLog
  /-- `DB::Open` cannot create its log. -/
  | openLogFailed
  /-- `MakeRoomForWrite` cannot create the log. -/
  | switchFailed
  | setLastSequence (s : ℕ)

def newLog (files : Storage.State K) : Storage.Action K → Option ℕ
  | .openLog | .switchMemTable => files.db.map fun db ↦ db.vs.nextFileNumber
  | _ => none

/-- The logs to recover: those that are not older than the log of the descriptor. -/
def logsToRecover (vs : VersionSet K) (logFiles : List ℕ) : List ℕ :=
  (logFiles.filter fun n ↦ vs.logNumber ≤ n ∨ n = vs.prevLogNumber).insertionSort (· ≤ ·)

namespace State

/-- `RecoverLogFile` writes its tables while its log is read, and `DB::Open` goes on after the last log. -/
def permits (state : State K) : Storage.Action K → Bool
  | .recover | .markFileNumberUsed _ => false
  | .spill _ => decide (state.logs ≠ [])
  | .openLog => decide (state.logs = [])
  | _ => true

def after (state : State K) (action : Storage.Action K) (files : Storage.State K) : State K where
  files := files
  logFiles := (state.logFiles ++ (newLog state.files action).toList).filter files.disk.logs
  logs := if files.db.isNone then [] else state.logs

def withDb (state : State K) (db : DBImpl K) : State K :=
  { state with files := { state.files with db := some db } }

variable [LinearOrder K]

def step (comparator : String) (state : State K) : Action K → Outcome (State K)
  | .storage action =>
    .guarded (state.permits action = true) ((state.files.step comparator action).map (state.after action))
  | .recover => (state.files.step comparator .recover).map fun files ↦
      { state with
        files
        logs := (files.db.map fun db ↦ logsToRecover db.vs state.logFiles).getD [] }
  | .finishLog =>
    match state.logs with
    | [] => .blocked
    | number :: rest => (state.files.step comparator (.markFileNumberUsed number)).map fun files ↦
        { state with files, logs := rest }
  | .spillNothing =>
    match state.files.db with
    | none => .blocked
    | some db => .guarded (db.vs.descriptorLog = false ∧ db.logging.isNone ∧ state.logs ≠ [])
        (.next (state.withDb db.newFileNumber))
  | .openLogFailed =>
    match state.files.db with
    | none => .blocked
    | some db => .guarded (db.vs.descriptorLog = false ∧ db.logging.isNone ∧ state.logs = [])
        (.next { state with files := { state.files with db := none } })
  | .switchFailed =>
    match state.files.db with
    | none => .blocked
    | some db => .guarded (db.vs.descriptorLog = true ∧ db.imm = none) <|
        if db.vs.prevLogNumber = 0 then .next (state.withDb { db with
          vs := reuseFileNumber db.vs.newFileNumber db.vs.nextFileNumber })
        else .abort
  | .setLastSequence s =>
    match state.files.db with
    | none => .blocked
    | some db => .guarded (db.vs.descriptorLog = true ∨ db.logging.isNone) <|
        if db.vs.lastSequence ≤ s then .next (state.withDb { db with vs := { db.vs with lastSequence := s } })
        else .abort

end State

section Files

variable [LinearOrder K]

/-- The log number that the descriptor saves is not above the file number that it saves. -/
def LogNumberSaved (disk : Directory K) : Prop :=
  ∀ number descriptor, disk.current = some number → disk.descriptors number = some descriptor →
    ∃ logNumber nextFile, (descriptor.records.foldl Replay.apply {}).logNumber = some logNumber ∧
      (descriptor.records.foldl Replay.apply {}).nextFile = some nextFile ∧ logNumber ≤ nextFile

/-- The machine that starts without a process, in a directory whose `CURRENT`, if there is one, names a
descriptor that can be recovered. -/
def fileNumbers (comparator : String) : Machine (State K) (Action K) where
  init state := state.files.db = none ∧ state.logs = [] ∧
    (∀ n, n ∈ state.logFiles ↔ state.files.disk.logs n = true) ∧
    Closed state.files.disk ∧ LogNumberSaved state.files.disk
  step := State.step comparator

end Files

inductive FileName
  | table (number : ℕ)
  | log (number : ℕ)
  | descriptor (number : ℕ)
  deriving DecidableEq

/-- The names that a step of the storage machine passes to `NewWritableFile`, whether it succeeds or not. -/
def creates (files : Storage.State K) (action : Storage.Action K) : Option FileName :=
  match action, files.db with
  | .newDB _, _ => some (.descriptor 1)
  | .spill file, _ => some (.table file.number)
  | .openLog, some db | .switchMemTable, some db => some (.log db.vs.nextFileNumber)
  | .writeTable, some db => db.flush.map fun flush ↦ .table flush.number
  -- a table that is not written could not be created
  | .finishFlush .failed, some db =>
    (db.flush.filter fun flush ↦ !flush.written).map fun flush ↦ .table flush.number
  | .openOutput, some db | .failCompaction true, some db => some (.table db.vs.nextFileNumber)
  | .appendRecord _, some db =>
    if db.vs.descriptorLog then none else some (.descriptor db.vs.manifestFileNumber)
  | _, _ => none

def State.creates (state : State K) : Action K → Option FileName
  | .storage action => FileNumbers.creates state.files action
  | .spillNothing => state.files.db.map fun db ↦ .table db.vs.nextFileNumber
  | .openLogFailed | .switchFailed => state.files.db.map fun db ↦ .log db.vs.nextFileNumber
  | _ => none

/-- The entry of `pending_outputs_` that a step has made itself: `WriteLevel0Table` enters its number before
`BuildTable` creates the file. -/
def ownOutput (db : DBImpl K) : Action K → List ℕ
  | .storage .writeTable | .storage (.finishFlush _) => (db.flush.map Flush.number).toList
  | _ => []

variable [LinearOrder K]

/-- A log that `Recover` would read from the files as they are. -/
def NeededLog (disk : Directory K) (n : ℕ) : Prop :=
  disk.logs n = true ∧ ∃ number descriptor, disk.current = some number ∧
    disk.descriptors number = some descriptor ∧
    ((descriptor.records.foldl Replay.apply {}).logNumber.getD 0 ≤ n ∨
      n = (descriptor.records.foldl Replay.apply {}).prevLogNumber.getD 0)

/-- The files that a step must not create: the tables of a version on the list or in `pending_outputs_`, the
logs that recovery still needs, and the descriptor that `CURRENT` names. -/
def InUse (state : State K) (action : Action K) : FileName → Prop
  | .table n => ∃ db, state.files.db = some db ∧
      ((∃ v ∈ db.versions, ∃ level, ∃ f ∈ v.value level, f.number = n) ∨
        n ∈ db.pendingOutputs.diff (ownOutput db action))
  | .log n => NeededLog state.files.disk n
  | .descriptor n => state.files.disk.current = some n

/-! ## What a step does to the numbers -/

omit [LinearOrder K] in
theorem logs_deleteObsoleteFiles {n : ℕ} (h : (deleteObsoleteFiles disk db).logs n = true) :
    disk.logs n = true := by
  rw [deleteObsoleteFiles, Bool.and_eq_true] at h
  exact h.1

omit [LinearOrder K] in
theorem logs_newLog {number n : ℕ} (h : (disk.newLog number).logs n = true) :
    disk.logs n = true ∨ number = n := by
  by_cases heq : n = number
  · exact .inr heq.symm
  · exact .inl ((update_of_ne heq _ _).symm.trans h)

/-- A log is there before a step, or the step creates it. -/
theorem logs_of_transition {state state' : Storage.State K} (h : Transition comparator state action state')
    {n : ℕ} (hn : state'.disk.logs n = true) : state.disk.logs n = true ∨ newLog state action = some n := by
  cases h with
  | newDB =>
    rename_i result _ _
    cases result <;> exact .inl hn
  | openLog hdb _ _ _ | switchMemTable hdb _ _ =>
    rcases logs_newLog hn with hn | rfl
    · exact .inl hn
    · exact .inr (by simp [newLog, hdb])
  | flushFailed | syncDescriptor | setCurrentFile =>
    dsimp only at hn
    split at hn <;> exact .inl hn
  | failCompaction | logReturnOk | compactionNotLogged => exact .inl (logs_deleteObsoleteFiles hn)
  | _ => exact .inl hn

theorem db_of_transition {state state' : Storage.State K} (h : Transition comparator state action state')
    {db' : DBImpl K} (hdb' : state'.db = some db') : action = .recover ∨ ∃ db, state.db = some db := by
  cases h with
  | newDB hdb hcurrent =>
    rename_i result
    cases result <;> cases hdb.symm.trans hdb'
  | recover => exact .inl rfl
  | _ => exact .inr ⟨_, ‹state.db = some _›⟩

/-- The counter grows, a new log is below it, and only the number that it gives out becomes pending. -/
structure NumbersGrow (created : Option ℕ) (db db' : DBImpl K) : Prop where
  next_le : db.vs.nextFileNumber ≤ db'.vs.nextFileNumber
  created_lt : ∀ n, created = some n → n < db'.vs.nextFileNumber
  pending : db'.pendingOutputs.Sublist db.pendingOutputs ∨
    db'.pendingOutputs = db.vs.nextFileNumber :: db.pendingOutputs ∧
      db.vs.nextFileNumber < db'.vs.nextFileNumber
  phase : db'.vs.descriptorLog = true ∨ db'.logging ≠ none →
    (db.vs.descriptorLog = true ∨ db.logging ≠ none) ∨ created.isSome

omit [LinearOrder K] in
/-- Most steps create no log and add no pending number. -/
theorem NumbersGrow.of_none (hnext : db.vs.nextFileNumber ≤ db'.vs.nextFileNumber)
    (hpending : db'.pendingOutputs.Sublist db.pendingOutputs)
    (hphase : db'.vs.descriptorLog = true ∨ db'.logging ≠ none → db.vs.descriptorLog = true ∨ db.logging ≠ none) :
    NumbersGrow none db db' :=
  ⟨hnext, by simp, .inl hpending, fun h ↦ .inl (hphase h)⟩

omit [LinearOrder K] in
theorem continueOk_numbers (db : DBImpl K) (logging : Logging K) :
    (State.continueOk db logging).vs.nextFileNumber = db.vs.nextFileNumber ∧
      (State.continueOk db logging).pendingOutputs.Sublist db.pendingOutputs := by
  unfold State.continueOk
  split
  · exact ⟨rfl, .refl _⟩
  · split
    · exact ⟨rfl, .refl _⟩
    · exact ⟨rfl, filter_sublist⟩
    · exact ⟨rfl, .refl _⟩

/-- Steps within one process. -/
def Grows (created : Option ℕ) (state state' : Storage.State K) : Prop :=
  ∀ db db', state.db = some db → state'.db = some db' → NumbersGrow created db db'

omit [LinearOrder K] in
theorem Grows.of {created : Option ℕ} {state state' : Storage.State K} (hdb : state.db = some db)
    (hdb' : state'.db = some db') (h : NumbersGrow created db db') : Grows created state state' := by
  intro d d' hd hd'
  cases hdb.symm.trans hd
  cases hdb'.symm.trans hd'
  exact h

theorem grows_of_transition {state state' : Storage.State K} (h : Transition comparator state action state') :
    Grows (newLog state action) state state' := by
  cases h with
  | newDB hnone _ | recover hnone _ _ _ _ =>
    intro _ _ hdb
    cases hnone.symm.trans hdb
  | crash | openFailed => rintro _ _ _ ⟨⟩
  | spill hdb _ _ _ => exact .of hdb rfl (.of_none (Nat.le_succ _) (.refl _) id)
  | markFileNumberUsed hdb hclosed hidle =>
    refine .of hdb rfl (.of_none (VersionSet.le_markFileNumberUsed _ _) (.refl _) ?_)
    dsimp only [VersionSet.markFileNumberUsed]
    split <;> exact id
  | openLog hdb _ _ hopened =>
    subst hopened
    refine .of hdb rfl ⟨Nat.le_succ _, ?_, .inl (.refl _), fun _ ↦ .inr (by simp [newLog, hdb])⟩
    simp [newLog, hdb, DBImpl.startLogging, DBImpl.newFileNumber, VersionSet.newFileNumber]
  | switchMemTable hdb hopen _ =>
    refine .of hdb rfl ⟨Nat.le_succ _, ?_, .inl (.refl _), fun _ ↦ .inl (.inl hopen)⟩
    simp [newLog, hdb, DBImpl.newFileNumber, VersionSet.newFileNumber]
  | pin hdb hopen | unpin hdb hopen _ | writeTable hdb hopen _ _ | beginCompaction hdb hopen _ _ _
  | installCompactionResults hdb hopen _ _ _ _ | finishOutput hdb hopen _ _ _ _ _
  | flushNotLogged hdb _ _ hopen _ | notLogged hdb _ _ hopen _ _ =>
    exact .of hdb rfl (.of_none le_rfl (.refl _) fun _ ↦ .inl hopen)
  | beginFlush hdb hopen _ _ | openOutput hdb hopen _ _ _ _ =>
    exact .of hdb rfl ⟨Nat.le_succ _, by simp [newLog], .inr ⟨rfl, Nat.lt_succ_self _⟩,
      fun _ ↦ .inl (.inl hopen)⟩
  | flushBuilt hdb hopen _ _ _ | flushEmpty hdb hopen _ _ | flushFailed hdb hopen _ _
  | flushShuttingDown hdb hopen _ _ | compactionNotLogged hdb _ _ hopen _ _ =>
    exact .of hdb rfl (.of_none le_rfl filter_sublist fun _ ↦ .inl hopen)
  | syncOutput hdb _ _ => exact .of hdb hdb (.of_none le_rfl (.refl _) id)
  | failCompaction hdb hopen _ _ _ hcounted =>
    subst hcounted
    refine .of hdb rfl (.of_none ?_ ?_ fun _ ↦ .inl hopen)
    · change _ ≤ (ite _ _ _ : DBImpl K).vs.nextFileNumber
      split
      · exact Nat.le_succ _
      · exact le_rfl
    · refine filter_sublist.trans ?_
      split <;> exact .refl _
  | appendRecord hdb hlogging _ | syncDescriptor hdb hlogging _ | setCurrentFile hdb hlogging _ _ =>
    exact .of hdb rfl (.of_none le_rfl (.refl _) fun _ ↦ .inr (by simp [hlogging]))
  | logReturnOk hdb hlogging _ =>
    obtain ⟨hnext, hpending⟩ := continueOk_numbers _ _
    exact .of hdb rfl (.of_none hnext.ge hpending fun _ ↦ .inr (by simp [hlogging]))

/-! ## The log number in the descriptor -/

/-- The log number of a completed edit is not above its file number. -/
def EditNumbered (edit : VersionEdit K) : Prop :=
  ∃ logNumber next, edit.logNumber = some logNumber ∧ edit.nextFileNumber = some next ∧ logNumber ≤ next

structure SavedOk (state : Storage.State K) : Prop where
  saved : LogNumberSaved state.disk
  logging : ∀ db, state.db = some db → ∀ logging, db.logging = some logging → EditNumbered logging.edit

/-- `CURRENT` names a descriptor with the same records. -/
theorem LogNumberSaved.of_records {disk disk' : Directory K} (h : LogNumberSaved disk)
    (hcurrent : disk'.current = disk.current)
    (hrecords : ∀ m d', disk.current = some m → disk'.descriptors m = some d' →
      ∃ d, disk.descriptors m = some d ∧ d'.records = d.records) : LogNumberSaved disk' := by
  intro number descriptor hnumber hfile
  rw [hcurrent] at hnumber
  obtain ⟨d, hd, heq⟩ := hrecords number descriptor hnumber hfile
  rw [heq]
  exact h number d hnumber hd

theorem LogNumberSaved.deleteObsoleteFiles (h : LogNumberSaved disk) (db : DBImpl K) :
    LogNumberSaved (deleteObsoleteFiles disk db) := by
  refine h.of_records rfl fun m d' _ hfile ↦ ⟨d', ?_, rfl⟩
  dsimp only [Storage.deleteObsoleteFiles] at hfile
  split at hfile
  · exact hfile
  · cases hfile

/-- The last record gives the numbers that `Recover` reads. -/
theorem saved_of_append (records : List (VersionEdit K)) {edit : VersionEdit K} (h : EditNumbered edit) :
    ∃ logNumber nextFile, ((records ++ [edit]).foldl Replay.apply {}).logNumber = some logNumber ∧
      ((records ++ [edit]).foldl Replay.apply {}).nextFile = some nextFile ∧ logNumber ≤ nextFile := by
  obtain ⟨logNumber, next, hlog, hnext, hle⟩ := h
  refine ⟨logNumber, next, ?_, ?_, hle⟩
  · rw [foldl_append]
    simp only [foldl_cons, foldl_nil, Replay.apply, hlog, Option.some_or]
  · rw [foldl_append]
    simp only [foldl_cons, foldl_nil, Replay.apply, hnext, Option.some_or]

theorem LogNumberSaved.appendRecord (h : LogNumberSaved disk) (hok : Structured comparator disk db)
    {logging : Logging K} (hlogging : db.logging = some logging) (hstart : logging.stage = .start)
    (hedit : EditNumbered logging.edit) (result : AppendResult) :
    LogNumberSaved (disk.setDescriptor db.vs.manifestFileNumber
      ((if db.vs.descriptorLog then disk.descriptors db.vs.manifestFileNumber
        else some ⟨[db.vs.writeSnapshot comparator], false, false⟩).map
          fun d ↦ d.append logging.edit result)) := by
  obtain ⟨m, descriptor, hcurrent⟩ := hok.current
  intro number d hnumber hfile
  obtain rfl : m = number := Option.some.inj (hcurrent.current.symm.trans hnumber)
  cases hopen : db.vs.descriptorLog with
  | true =>
    simp only [Directory.setDescriptor, hopen, if_true, ← hcurrent.own hopen, hcurrent.file, Option.map_some,
      update_self, Option.some.injEq] at hfile
    subst hfile
    rcases append_records descriptor logging.edit result with heq | heq
    · rw [heq]
      exact h m descriptor hcurrent.current hcurrent.file
    · rw [heq]
      exact saved_of_append _ hedit
  | false =>
    have hunset : ¬db.CurrentSet := not_currentSet hlogging (by simp [hstart])
    have hne : m ≠ db.vs.manifestFileNumber := (hcurrent.old hopen hunset).ne
    exact h m d hcurrent.current ((update_of_ne hne _ _).symm.trans hfile)

/-- `LogAndApply` checks its log number, and saves the counter with it. -/
theorem editNumbered_startLogging {edit : VersionEdit K} {version : Files K}
    (h : Structured comparator disk (db.startLogging edit version)) :
    EditNumbered (db.vs.completeEdit edit) := by
  obtain ⟨number, hnumber, hle, -⟩ := (h.logging _ rfl).log
  exact ⟨number, db.vs.nextFileNumber, hnumber, rfl, hle.trans h.logfile_lt.le⟩

theorem SavedOk.idle {db : Option (DBImpl K)} {ok : Bool} (h : LogNumberSaved disk)
    (hidle : ∀ d, db = some d → d.logging = none) : SavedOk ⟨disk, db, ok⟩ := by
  refine ⟨h, fun d hd logging hlogging ↦ ?_⟩
  cases (hidle d hd).symm.trans hlogging

/-- The same call of `LogAndApply` is under way. -/
theorem SavedOk.of_logging {state : Storage.State K} (h : SavedOk state) (hdb : state.db = some db)
    {ok : Bool} (hdisk : LogNumberSaved disk)
    (hlogging : db'.logging.map Logging.edit = db.logging.map Logging.edit) :
    SavedOk ⟨disk, some db', ok⟩ := by
  refine ⟨hdisk, ?_⟩
  rintro _ ⟨⟩ logging' hlogging'
  rw [hlogging', Option.map_some, eq_comm, Option.map_eq_some_iff] at hlogging
  obtain ⟨logging, hsome, hedit⟩ := hlogging
  exact hedit ▸ h.logging db hdb logging hsome

theorem SavedOk.started {edit : VersionEdit K} {version : Files K} {ok : Bool} (h : LogNumberSaved disk)
    (hok : StateOk comparator ⟨disk, some (db.startLogging edit version), ok⟩) :
    SavedOk ⟨disk, some (db.startLogging edit version), ok⟩ := by
  refine ⟨h, ?_⟩
  rintro _ ⟨⟩ _ ⟨⟩
  exact editNumbered_startLogging (hok.structured _ rfl)

theorem SavedOk.step {state state' : Storage.State K} (h : SavedOk state) (hok : StateOk comparator state)
    (hok' : StateOk comparator state')
    (hstep : Transition comparator state action state') : SavedOk state' := by
  have hdisk := h.saved
  cases hstep with
  | newDB hdb hcurrent =>
    rename_i result
    cases result with
    | ok =>
      refine SavedOk.idle ?_ fun d hd ↦ by cases hdb.symm.trans hd
      rintro _ descriptor ⟨⟩ hfile
      change update state.disk.descriptors 1 _ 1 = some descriptor at hfile
      rw [update_self] at hfile
      cases hfile
      exact ⟨0, 2, rfl, rfl, by omega⟩
    | failedDescriptor | failedCurrent =>
      refine SavedOk.idle ?_ fun d hd ↦ by cases hdb.symm.trans hd
      intro number descriptor hnumber
      cases hcurrent.symm.trans hnumber
  | recover _ _ _ _ _ => exact .idle hdisk fun d hd ↦ by cases hd; rfl
  | crash _ => exact .idle hdisk fun d hd ↦ by cases hd
  | spill hdb _ hidle _ | markFileNumberUsed hdb _ hidle | beginFlush hdb _ hidle _ | writeTable hdb _ hidle _
  | flushShuttingDown hdb _ hidle _ | beginCompaction hdb _ hidle _ _ | openOutput hdb _ hidle _ _ _
  | finishOutput hdb _ hidle _ _ _ _ =>
    exact .idle hdisk fun d hd ↦ by cases hd; exact hidle
  | flushFailed hdb _ hidle _ =>
    refine .idle ?_ fun d hd ↦ by cases hd; exact hidle
    split <;> exact hdisk
  | failCompaction hdb _ hidle _ _ hcounted =>
    subst hcounted
    refine .idle (hdisk.deleteObsoleteFiles _) fun d hd ↦ ?_
    cases hd
    change (ite _ _ _ : DBImpl K).logging = none
    split <;> exact hidle
  | openLog hdb _ _ hopened =>
    subst hopened
    exact .started hdisk hok'
  | flushBuilt hdb _ _ _ _ | flushEmpty hdb _ _ _ | installCompactionResults hdb _ _ _ _ _ =>
    exact .started hdisk hok'
  | switchMemTable hdb _ _ | pin hdb _ | unpin hdb _ _ => exact h.of_logging hdb hdisk rfl
  | syncOutput hdb _ _ =>
    refine ⟨hdisk, fun d hd ↦ ?_⟩
    exact h.logging d hd
  | appendRecord hdb hlogging hstage =>
    have hedit := h.logging _ hdb _ hlogging
    refine h.of_logging hdb (hdisk.appendRecord (hok.structured _ hdb) hlogging hstage hedit _) ?_
    rw [hlogging]
    rfl
  | syncDescriptor hdb hlogging hstage =>
    rename_i db logging ok
    refine h.of_logging hdb ?_ (by rw [hlogging]; rfl)
    split
    · refine hdisk.of_records rfl fun m d' _ hfile ↦ ?_
      by_cases heq : m = db.vs.manifestFileNumber
      · subst heq
        simp only [Directory.setDescriptor, update_self, Option.map_eq_some_iff] at hfile
        obtain ⟨d, hd, rfl⟩ := hfile
        exact ⟨d, hd, rfl⟩
      · exact ⟨d', (update_of_ne heq _ _).symm.trans hfile, rfl⟩
    · exact hdisk
  | setCurrentFile hdb hlogging hstage hclosed =>
    rename_i db logging ok
    refine h.of_logging hdb ?_ (by rw [hlogging]; rfl)
    split
    · obtain ⟨new, hfile, hrecords⟩ :=
        ((hok.structured _ hdb).logging _ hlogging).new_descriptor hclosed (.inr hstage)
      rintro _ descriptor ⟨⟩ hfile'
      cases hfile.symm.trans hfile'
      rw [hrecords]
      exact saved_of_append [_] (h.logging _ hdb _ hlogging)
    · exact hdisk
  | logReturnOk hdb hlogging _ =>
    exact .idle (hdisk.deleteObsoleteFiles _) fun d hd ↦ by cases hd; exact (continueOk_spec _ _).2.2
  | openFailed hdb hlogging hstage hclosed =>
    rename_i db logging
    obtain ⟨m, descriptor, hcurrent⟩ := (hok.structured _ hdb).current
    have hne := (hcurrent.old hclosed (not_currentSet hlogging (by simp [hstage]))).ne
    refine .idle (hdisk.of_records rfl fun number d' hnumber hfile ↦ ⟨d', ?_, rfl⟩) fun d hd ↦ by cases hd
    obtain rfl : m = number := Option.some.inj (hcurrent.current.symm.trans hnumber)
    exact (update_of_ne hne _ _).symm.trans hfile
  | flushNotLogged _ _ _ _ _ | notLogged _ _ _ _ _ _ => exact .idle hdisk fun d hd ↦ by cases hd; rfl
  | compactionNotLogged _ _ _ _ _ _ =>
    exact .idle (hdisk.deleteObsoleteFiles _) fun d hd ↦ by cases hd; rfl

/-! ## The invariant -/

/-- All logs are below the counter, or the loop of `Recover` will mark them. -/
structure LogsBelow (state : State K) (db : DBImpl K) : Prop where
  logs_lt : ∀ n, state.files.disk.logs n = true → n < db.vs.nextFileNumber ∨ n ∈ state.logs
  finished : db.vs.descriptorLog = true ∨ db.logging ≠ none → state.logs = []
  pending_nodup : db.pendingOutputs.Nodup
  pending_lt : ∀ n ∈ db.pendingOutputs, n < db.vs.nextFileNumber

structure NumbersOk (comparator : String) (state : State K) : Prop where
  ok : StateOk comparator state.files
  saved : SavedOk state.files
  listed : ∀ n, state.files.disk.logs n = true → n ∈ state.logFiles
  below : ∀ db, state.files.db = some db → LogsBelow state db

omit [LinearOrder K] in
theorem LogsBelow.grow {state state' : State K} (h : LogsBelow state db) {created : Option ℕ}
    (hgrow : NumbersGrow created db db')
    (hlogs : ∀ n, state'.files.disk.logs n = true → state.files.disk.logs n = true ∨ created = some n)
    (hmarked : ∀ n ∈ state.logs, n < db'.vs.nextFileNumber ∨ n ∈ state'.logs)
    (hfinished : db'.vs.descriptorLog = true ∨ db'.logging ≠ none → state'.logs = []) : LogsBelow state' db' := by
  refine ⟨?_, hfinished, ?_, ?_⟩
  · intro n hn
    rcases hlogs n hn with hold | hnew
    · rcases h.logs_lt n hold with hlt | hmem
      · exact .inl (hlt.trans_le hgrow.next_le)
      · exact hmarked n hmem
    · exact .inl (hgrow.created_lt n hnew)
  · rcases hgrow.pending with hsub | ⟨heq, -⟩
    · exact h.pending_nodup.sublist hsub
    · rw [heq, nodup_cons]
      exact ⟨fun hmem ↦ (h.pending_lt _ hmem).false, h.pending_nodup⟩
  · intro n hn
    rcases hgrow.pending with hsub | ⟨heq, hlt⟩
    · exact (h.pending_lt n (hsub.subset hn)).trans_le hgrow.next_le
    · rw [heq] at hn
      rcases mem_cons.mp hn with rfl | hn
      · exact hlt
      · exact (h.pending_lt n hn).trans_le hgrow.next_le

theorem NumbersOk.storage {state : State K} (h : NumbersOk comparator state)
    (hpermits : state.permits action = true)
    (hstep : Transition comparator state.files action files) :
    NumbersOk comparator (state.after action files) := by
  have hok := h.ok.step hstep
  refine ⟨hok, h.saved.step h.ok hok hstep, ?_, ?_⟩
  · intro n hn
    refine mem_filter.mpr ⟨mem_append.mpr ?_, hn⟩
    rcases logs_of_transition hstep hn with hold | hnew
    · exact .inl (h.listed n hold)
    · exact .inr (Option.mem_toList.mpr hnew)
  · intro db' hdb'
    have hlogs : (state.after action files).logs = state.logs := by
      change (if files.db.isNone then [] else state.logs) = state.logs
      rw [show files.db = some db' from hdb']
      rfl
    rcases db_of_transition hstep hdb' with rfl | ⟨db, hdb⟩
    · cases hpermits
    have hbelow := h.below db hdb
    have hgrow := grows_of_transition hstep db db' hdb hdb'
    refine hbelow.grow hgrow (fun n ↦ logs_of_transition hstep) (fun n hn ↦ .inr (hlogs ▸ hn)) fun hphase ↦ ?_
    rw [hlogs]
    rcases hgrow.phase hphase with hbefore | hcreated
    · exact hbelow.finished hbefore
    · cases hstep with
      | openLog => exact of_decide_eq_true hpermits
      | switchMemTable hsome hopen _ =>
        cases hdb.symm.trans hsome
        exact hbelow.finished (.inl hopen)
      | _ => cases hcreated

theorem NumbersOk.recover {state : State K} (h : NumbersOk comparator state)
    (hstep : Transition comparator state.files .recover files) : NumbersOk comparator { state with
      files := files
      logs := (files.db.map fun db ↦ logsToRecover db.vs state.logFiles).getD [] } := by
  have hok := h.ok.step hstep
  refine ⟨hok, h.saved.step h.ok hok hstep, ?_, ?_⟩
  · intro n hn
    rcases logs_of_transition hstep hn with hold | ⟨⟨⟩⟩
    exact h.listed n hold
  · cases hstep with
    | recover hnone hcurrent hfile htorn hrecover =>
      rename_i number descriptor vs
      rintro _ ⟨⟩
      obtain ⟨nextFile, logNumber, lastSequence, hnext, hlog, -, rfl⟩ := versionSet_of_recover hrecover
      obtain ⟨logNumber', nextFile', hlog', hnext', hle⟩ := h.saved.saved _ _ hcurrent hfile
      cases hnext.symm.trans hnext'
      cases hlog.symm.trans hlog'
      refine ⟨?_, ?_, nodup_nil, by simp [DBImpl.recovered]⟩
      · intro n hn
        by_cases hneeded : logNumber ≤ n ∨
            n = (Replay.versionSet descriptor.records nextFile logNumber lastSequence).prevLogNumber
        · right
          refine (mem_insertionSort _).mpr (mem_filter.mpr ⟨h.listed n hn, ?_⟩)
          exact decide_eq_true hneeded
        · left
          change n < nextFile + 1
          omega
      · rintro (⟨⟨⟩⟩ | hne)
        exact absurd rfl hne

omit [LinearOrder K] in
theorem lt_markFileNumberUsed (vs : VersionSet K) (number : ℕ) :
    number < (vs.markFileNumberUsed number).nextFileNumber := by
  unfold VersionSet.markFileNumberUsed
  split
  · exact Nat.lt_succ_self number
  · rename_i hnot
    exact Nat.not_le.mp hnot

theorem NumbersOk.finishLog {state : State K} (h : NumbersOk comparator state) {number : ℕ} {rest : List ℕ}
    (hlogs : state.logs = number :: rest)
    (hstep : Transition comparator state.files (.markFileNumberUsed number) files) :
    NumbersOk comparator { state with files := files, logs := rest } := by
  have hok := h.ok.step hstep
  refine ⟨hok, h.saved.step h.ok hok hstep, ?_, ?_⟩
  · intro n hn
    rcases logs_of_transition hstep hn with hold | ⟨⟨⟩⟩
    exact h.listed n hold
  · intro db' hdb'
    rcases db_of_transition hstep hdb' with ⟨⟨⟩⟩ | ⟨db, hdb⟩
    have hbelow := h.below db hdb
    have hgrow := grows_of_transition hstep db db' hdb hdb'
    have hmarked : number < db'.vs.nextFileNumber := by
      cases hstep with
      | markFileNumberUsed hsome _ _ =>
        cases hdb'
        exact lt_markFileNumberUsed _ number
    refine hbelow.grow hgrow (fun n ↦ logs_of_transition hstep) ?_ ?_
    · intro n hn
      rw [hlogs] at hn
      rcases mem_cons.mp hn with rfl | hn
      · exact .inl hmarked
      · exact .inr hn
    · intro hphase
      rcases hgrow.phase hphase with hbefore | ⟨⟨⟩⟩
      cases hlogs.symm.trans (hbelow.finished hbefore)

/-- The process goes on with a higher counter or another last sequence number. -/
theorem NumbersOk.withDb {state : State K} (h : NumbersOk comparator state) (hdb : state.files.db = some db)
    (hok : Structured comparator state.files.disk db')
    (hnext : db.vs.nextFileNumber ≤ db'.vs.nextFileNumber) (hpending : db'.pendingOutputs = db.pendingOutputs)
    (hopen : db'.vs.descriptorLog = db.vs.descriptorLog) (hlogging : db'.logging = db.logging) :
    NumbersOk comparator (state.withDb db') := by
  refine ⟨.of_structured hok, h.saved.of_logging hdb h.saved.saved (by rw [hlogging]), h.listed, ?_⟩
  rintro _ ⟨⟩
  have hgrow : NumbersGrow none db db' :=
    .of_none hnext (hpending ▸ .refl _) fun hphase ↦ by rwa [hopen, hlogging] at hphase
  refine (h.below db hdb).grow hgrow (fun n hn ↦ .inl hn) (fun n hn ↦ .inr hn) fun hphase ↦ ?_
  rw [hopen, hlogging] at hphase
  exact (h.below db hdb).finished hphase

theorem structured_newFileNumber (h : Structured comparator disk db) (hidle : db.logging = none)
    (hclosed : db.vs.descriptorLog = false) : Structured comparator disk db.newFileNumber := by
  have hmark := h.markFileNumberUsed hidle hclosed db.vs.nextFileNumber
  rwa [VersionSet.markFileNumberUsed, if_pos le_rfl] at hmark

theorem structured_setLastSequence (h : Structured comparator disk db) (s : ℕ) :
    Structured comparator disk { db with vs := { db.vs with lastSequence := s } } := by
  obtain ⟨m, descriptor, hcurrent⟩ := h.current
  exact { h with
    current := ⟨m, descriptor, { hcurrent with }⟩
    logging := fun logging hlogging ↦ { h.logging logging hlogging with }
    logs := fun hopen ↦ { h.logs hopen with } }

theorem NumbersOk.step {state state' : State K} {action : Action K} (h : NumbersOk comparator state)
    (hstep : state.step comparator action = .next state') : NumbersOk comparator state' := by
  cases action with
  | storage action =>
    rw [State.step, Outcome.guarded_eq_next, Outcome.map_eq_next] at hstep
    obtain ⟨hpermits, files, hfiles, rfl⟩ := hstep
    exact h.storage hpermits (transition_of_step hfiles)
  | recover =>
    rw [State.step, Outcome.map_eq_next] at hstep
    obtain ⟨files, hfiles, rfl⟩ := hstep
    exact h.recover (transition_of_step hfiles)
  | finishLog =>
    simp only [State.step] at hstep
    split at hstep
    · cases hstep
    · rename_i number rest hlogs
      obtain ⟨files, hfiles, rfl⟩ := Outcome.map_eq_next.mp hstep
      exact h.finishLog hlogs (transition_of_step hfiles)
  | spillNothing =>
    simp only [State.step] at hstep
    split at hstep
    · cases hstep
    · rename_i db hdb
      rw [Outcome.guarded_eq_next] at hstep
      obtain ⟨⟨hclosed, hidle, -⟩, hnext⟩ := hstep
      cases hnext
      have hok := structured_newFileNumber (h.ok.structured db hdb) (Option.isNone_iff_eq_none.mp hidle) hclosed
      exact h.withDb hdb hok (Nat.le_succ _) rfl rfl rfl
  | openLogFailed =>
    simp only [State.step] at hstep
    split at hstep
    · cases hstep
    · rename_i db hdb
      rw [Outcome.guarded_eq_next] at hstep
      obtain ⟨-, hnext⟩ := hstep
      cases hnext
      refine ⟨.of_closed (h.ok.structured db hdb).closed, .idle h.saved.saved ?_, h.listed, ?_⟩
      · rintro _ ⟨⟩
      · rintro _ ⟨⟩
  | switchFailed =>
    simp only [State.step] at hstep
    split at hstep
    · cases hstep
    · rename_i db hdb
      rw [Outcome.guarded_eq_next] at hstep
      obtain ⟨-, hnext⟩ := hstep
      split at hnext
      · cases hnext
        rw [reuseFileNumber_newFileNumber]
        exact h.withDb hdb (h.ok.structured db hdb) le_rfl rfl rfl rfl
      · cases hnext
  | setLastSequence s =>
    simp only [State.step] at hstep
    split at hstep
    · cases hstep
    · rename_i db hdb
      rw [Outcome.guarded_eq_next] at hstep
      obtain ⟨-, hnext⟩ := hstep
      split at hnext
      · cases hnext
        exact h.withDb hdb (structured_setLastSequence (h.ok.structured db hdb) s) le_rfl rfl rfl rfl
      · cases hnext

theorem numbersOk_of_reachable {state : State K} (hreach : (fileNumbers comparator).Reachable state) :
    NumbersOk comparator state := by
  refine hreach.invariant (P := NumbersOk comparator) ?_ ?_
  · rintro ⟨⟨disk, db, ok⟩, logFiles, logs⟩ ⟨hdb, -, hlisted, hclosed, hsaved⟩
    cases hdb
    refine ⟨.of_closed hclosed, .idle hsaved ?_, fun n hn ↦ (hlisted n).mpr hn, ?_⟩
    · rintro _ ⟨⟩
    · rintro _ ⟨⟩
  · exact fun state action state' h _ hstep ↦ h.step hstep

section Created

variable {comparator : String} {state : State K} {db : DBImpl K}

section

variable (h : NumbersOk comparator state)
include h

section

variable (hdb : state.files.db = some db)
include hdb

theorem NumbersOk.next_table_unused (action : Action K) :
    ¬InUse state action (.table db.vs.nextFileNumber) := by
  rintro ⟨_, hsome, ⟨v, hv, level, f, hf, hnumber⟩ | hpending⟩
  · cases hdb.symm.trans hsome
    have hlt := (h.ok.structured db hdb).numbers.file_lt v hv level f hf
    omega
  · cases hdb.symm.trans hsome
    exact absurd ((h.below db hdb).pending_lt _ (diff_subset _ _ hpending)) (Nat.lt_irrefl _)

/-- Nor is it that of a log, once the loop of `Recover` has marked the logs. -/
theorem NumbersOk.next_log_unused (hlogs : state.logs = []) (action : Action K) :
    ¬InUse state action (.log db.vs.nextFileNumber) := by
  rintro ⟨hexists, -⟩
  rcases (h.below db hdb).logs_lt _ hexists with hlt | hmem
  · exact absurd hlt (Nat.lt_irrefl _)
  · rw [hlogs] at hmem
    cases hmem

/-- The table of a flush is in no version, and no other output has its number. -/
theorem NumbersOk.flush_table_unused {flush : Flush K} (hflush : db.flush = some flush) {action : Action K}
    (hown : ownOutput db action = [flush.number]) : ¬InUse state action (.table flush.number) := by
  have hok := h.ok.structured db hdb
  rintro ⟨_, hsome, ⟨v, hv, level, f, hf, hnumber⟩ | hpending⟩
  · cases hdb.symm.trans hsome
    have hwriting : flush.number ∈ db.writing := by simp [DBImpl.writing, hflush]
    exact hok.numbers.unlisted _ hwriting v hv level f hf hnumber
  · cases hdb.symm.trans hsome
    rw [hown, diff_cons, diff_nil] at hpending
    exact absurd rfl ((h.below db hdb).pending_nodup.mem_erase_iff.mp hpending).1

/-- The new descriptor of `DB::Open` is not the one that `CURRENT` names. -/
theorem NumbersOk.descriptor_unused {logging : Logging K} (hlogging : db.logging = some logging)
    (hstart : logging.stage = .start) (hclosed : db.vs.descriptorLog = false) (action : Action K) :
    ¬InUse state action (.descriptor db.vs.manifestFileNumber) := by
  intro hcurrent
  obtain ⟨m, descriptor, hok⟩ := (h.ok.structured db hdb).current
  have hlt := hok.old hclosed (not_currentSet hlogging (by simp [hstart]))
  cases hok.current.symm.trans hcurrent
  exact absurd hlt (Nat.lt_irrefl _)

end

/-- The names that steps of the storage machine create. -/
theorem NumbersOk.storage_unused (hpermits : state.permits action = true)
    (hstep : Transition comparator state.files action files) {name : FileName}
    (hname : creates state.files action = some name) : ¬InUse state (.storage action) name := by
  cases hstep with
  | newDB _ hcurrent =>
    cases hname
    intro huse
    cases hcurrent.symm.trans huse
  | spill hdb _ _ hnumber =>
    cases hname
    rw [hnumber]
    exact h.next_table_unused hdb _
  | openLog hdb _ _ _ =>
    simp only [creates, hdb, Option.some.injEq] at hname
    subst hname
    exact h.next_log_unused hdb (of_decide_eq_true hpermits) _
  | switchMemTable hdb hopen _ =>
    simp only [creates, hdb, Option.some.injEq] at hname
    subst hname
    exact h.next_log_unused hdb ((h.below _ hdb).finished (.inl hopen)) _
  | writeTable hdb _ _ hflush =>
    simp only [creates, hdb, hflush, Option.map_some, Option.some.injEq] at hname
    subst hname
    exact h.flush_table_unused hdb hflush (by simp [ownOutput, hflush])
  | flushFailed hdb _ _ hflush =>
    simp only [creates, hdb, hflush, Option.map_eq_some_iff, Option.filter_eq_some_iff] at hname
    obtain ⟨flush, ⟨hsome, -⟩, rfl⟩ := hname
    cases hsome
    exact h.flush_table_unused hdb hflush (by simp [ownOutput, hflush])
  | openOutput hdb _ _ _ _ _ =>
    simp only [creates, hdb, Option.some.injEq] at hname
    subst hname
    exact h.next_table_unused hdb _
  | @failCompaction _ _ _ usedNumber hdb _ _ _ _ _ =>
    cases usedNumber with
    | true =>
      simp only [creates, hdb, Option.some.injEq] at hname
      subst hname
      exact h.next_table_unused hdb _
    | false => cases hname
  | appendRecord hdb hlogging hstart =>
    simp only [creates, hdb] at hname
    split at hname
    · cases hname
    · rename_i hclosed
      cases hname
      exact h.descriptor_unused hdb hlogging hstart (by simpa using hclosed) _
  | _ => cases hname

end

/-- In every run, no step creates a file that is in use. -/
theorem created_files_not_in_use (hreach : (fileNumbers comparator).Reachable state) {action : Action K}
    {state' : State K} (hstep : (fileNumbers comparator).step state action = .next state') {name : FileName}
    (hname : state.creates action = some name) : ¬InUse state action name := by
  have h := numbersOk_of_reachable hreach
  change state.step comparator action = .next state' at hstep
  cases action with
  | storage action =>
    rw [State.step, Outcome.guarded_eq_next, Outcome.map_eq_next] at hstep
    obtain ⟨hpermits, files, hfiles, rfl⟩ := hstep
    exact h.storage_unused hpermits (transition_of_step hfiles) hname
  | spillNothing =>
    obtain ⟨db, hdb, rfl⟩ := Option.map_eq_some_iff.mp hname
    exact h.next_table_unused hdb _
  | openLogFailed =>
    obtain ⟨db, hdb, rfl⟩ := Option.map_eq_some_iff.mp hname
    simp only [State.step, hdb, Outcome.guarded_eq_next] at hstep
    exact h.next_log_unused hdb hstep.1.2.2 _
  | switchFailed =>
    obtain ⟨db, hdb, rfl⟩ := Option.map_eq_some_iff.mp hname
    simp only [State.step, hdb, Outcome.guarded_eq_next] at hstep
    exact h.next_log_unused hdb ((h.below db hdb).finished (.inl hstep.1.1)) _
  | recover | finishLog | setLastSequence => cases hname

end Created

/-- The first process creates the logs 3 and 4, where the number 4 is given out twice; the second one replays
both and takes the number 7 for its log. -/
def reopening : List (Action ℕ) :=
  [.storage (.newDB .ok), .recover, .storage .openLog, .storage (.appendRecord .ok),
    .storage (.syncDescriptor true),
    .storage (.setCurrentFile true), .storage .logReturn, .switchFailed, .storage .switchMemTable, .storage .crash,
    .recover, .storage (.spill ⟨5, 10, ⟨1, 257⟩, ⟨1, 257⟩⟩), .finishLog, .spillNothing, .finishLog]

theorem created_files_not_in_use_after_reopening :
    ∃ state : State ℕ, state.creates (.storage .openLog) = some (.log 7) ∧
      ¬InUse state (.storage .openLog) (.log 7) := by
  obtain ⟨state, hrun, hstate⟩ := Machine.Run.of_exec (fileNumbers (K := ℕ) "cmp") (fun _ _ ↦ true)
    ⟨⟨{}, none, false⟩, [], []⟩ ⟨rfl, rfl, by simp, by rintro _ ⟨⟩, by rintro _ _ ⟨⟩⟩ reopening
    (fun state ↦ state.creates (.storage .openLog) = some (.log 7) ∧
      (((fileNumbers "cmp").step state (.storage .openLog)).toOption.isSome = true)) (by decide +kernel)
  obtain ⟨hname, hnext⟩ := hstate
  obtain ⟨state', hnext⟩ := Option.isSome_iff_exists.mp hnext
  have hreach : (fileNumbers "cmp").Reachable state := ⟨_, hrun.mono fun _ _ _ ↦ trivial⟩
  exact ⟨state, hname, created_files_not_in_use hreach (Outcome.toOption_eq_some.mp hnext) hname⟩

end LevelDB.Db.FileNumbers
