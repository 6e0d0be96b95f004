import LevelDB.Db.Storage

/-!
# What every run keeps

The invariant of the storage machine that needs no condition on the steps: the reference counts of the
versions, the use of file numbers, the descriptor that `CURRENT` names, the call of `LogAndApply` that
is under way, and the logs of the two memtables.
-/

namespace LevelDB.Db.Storage

open Format TableFiles VersionBuilder Manifest Library RefCount List Function

variable {K : Type*}

/-! ## File numbers -/

/-- The numbers of the tables that a flush, a compaction or `DB::Open` writes and has not installed. -/
def DBImpl.writing (db : DBImpl K) : List ℕ :=
  (db.flush.map Flush.number).toList ++ ((db.compaction.map CompactionWork.numbers).getD [] ++
    db.openEdit.newFiles.map fun p ↦ p.2.number)

def Recorded (records : List (VersionEdit K)) (number : ℕ) : Prop :=
  ∃ record ∈ records, ∃ p ∈ record.newFiles, p.2.number = number

/-- The numbers of the tables whose writer has called `LogAndApply`. -/
def DBImpl.callerNumbers (db : DBImpl K) : List ℕ :=
  if db.vs.descriptorLog then
    match db.flush with
    | some flush => [flush.number]
    | none => (db.compaction.map CompactionWork.numbers).getD []
  else db.openEdit.newFiles.map fun p ↦ p.2.number

/-- `SetCurrentFile` has named the new descriptor of `DB::Open`. -/
def DBImpl.CurrentSet (db : DBImpl K) : Prop :=
  ∃ logging, db.logging = some logging ∧ logging.stage = .currentSet

theorem not_currentSet {db : DBImpl K} {logging : Logging K} (hlogging : db.logging = some logging)
    (hstage : logging.stage ≠ .currentSet) : ¬db.CurrentSet := by
  rintro ⟨_, heq, hset⟩
  rw [hlogging] at heq
  cases heq
  exact hstage hset

/-- The numbers of an edit whose record may be in the descriptor. -/
def DBImpl.logged (db : DBImpl K) : List ℕ :=
  match db.logging with
  | some logging =>
    if logging.stage = .start then [] else logging.edit.newFiles.map fun p ↦ p.2.number
  | none => []

/-- Numbers below the counter, and numbers in use that no version lists. -/
structure Numbers (versions : List (Counted (Files K))) (writing : List ℕ) (next : ℕ) : Prop where
  file_lt : ∀ v ∈ versions, ∀ level, ∀ f ∈ v.value level, f.number < next
  nodup : writing.Nodup
  writing_lt : ∀ number ∈ writing, number < next
  unlisted : ∀ number ∈ writing, ∀ v ∈ versions, ∀ level, ∀ f ∈ v.value level, f.number ≠ number

namespace Numbers

variable {versions versions' : List (Counted (Files K))} {writing writing' : List ℕ} {next next' : ℕ}

theorem mono (h : Numbers versions writing next)
    (hversions : ∀ v' ∈ versions', ∃ v ∈ versions, v.toHandle = v'.toHandle)
    (hwriting : writing'.Sublist writing) (hnext : next ≤ next') : Numbers versions' writing' next' := by
  refine ⟨?_, h.nodup.sublist hwriting, ?_, ?_⟩
  · intro v' hv' level f hf
    obtain ⟨v, hv, heq⟩ := hversions v' hv'
    have hvalue : v.value = v'.value := congrArg Handle.value heq
    exact (h.file_lt v hv level f (hvalue ▸ hf)).trans_le hnext
  · exact fun number hnumber ↦ (h.writing_lt number (hwriting.subset hnumber)).trans_le hnext
  · intro number hnumber v' hv' level f hf
    obtain ⟨v, hv, heq⟩ := hversions v' hv'
    have hvalue : v.value = v'.value := congrArg Handle.value heq
    exact h.unlisted number (hwriting.subset hnumber) v hv level f (hvalue ▸ hf)

theorem perm (h : Numbers versions writing next) (hperm : writing.Perm writing') :
    Numbers versions writing' next where
  file_lt := h.file_lt
  nodup := hperm.nodup_iff.mp h.nodup
  writing_lt number hnumber := h.writing_lt number (hperm.mem_iff.mpr hnumber)
  unlisted number hnumber := h.unlisted number (hperm.mem_iff.mpr hnumber)

theorem newFileNumber (h : Numbers versions writing next) :
    Numbers versions (next :: writing) (next + 1) := by
  refine ⟨?_, ?_, ?_, ?_⟩
  · exact fun v hv level f hf ↦ (h.file_lt v hv level f hf).trans (Nat.lt_succ_self next)
  · exact nodup_cons.mpr ⟨fun hmem ↦ (h.writing_lt next hmem).false, h.nodup⟩
  · intro number hnumber
    rcases mem_cons.mp hnumber with rfl | hnumber
    · exact Nat.lt_succ_self _
    · exact (h.writing_lt number hnumber).trans (Nat.lt_succ_self next)
  · intro number hnumber v hv level f hf
    rcases mem_cons.mp hnumber with rfl | hnumber
    · exact (h.file_lt v hv level f hf).ne
    · exact h.unlisted number hnumber v hv level f hf

end Numbers

theorem DBImpl.callerNumbers_subset (db : DBImpl K) : db.callerNumbers ⊆ db.writing := by
  intro n hn
  unfold callerNumbers at hn
  unfold writing
  split at hn
  · split at hn
    · rename_i flush hflush
      simp_all
    · exact mem_append_right _ (mem_append_left _ hn)
  · exact mem_append_right _ (mem_append_right _ hn)

theorem holders_endCompaction {db : DBImpl K} {c : CompactionWork K} (hcompaction : db.compaction = some c) :
    db.holders.Perm (c.inputVersion :: (db.endCompaction c).holders) := by
  simp only [DBImpl.holders, DBImpl.endCompaction, hcompaction, DBImpl.currentVersion, Option.map_some,
    Option.toList_some, Option.map_none, Option.toList_none, append_nil]
  exact (List.Perm.cons _ (perm_append_singleton _ _)).trans (List.Perm.swap _ _ _)

theorem writing_endCompaction_sublist (db : DBImpl K) (c : CompactionWork K) :
    (db.endCompaction c).writing.Sublist db.writing := by
  apply List.Sublist.append_left
  exact sublist_append_right _ _

theorem recorded_append {records : List (VersionEdit K)} {edit : VersionEdit K} {n : ℕ}
    (h : Recorded (records ++ [edit]) n) :
    Recorded records n ∨ n ∈ edit.newFiles.map fun p ↦ p.2.number := by
  obtain ⟨record, hrecord, p, hp, rfl⟩ := h
  rcases mem_append.mp hrecord with hrecord | hrecord
  · exact Or.inl ⟨record, hrecord, p, hp, rfl⟩
  · rw [mem_singleton.mp hrecord] at hp
    exact Or.inr (mem_map_of_mem hp)

theorem logged_of_ne_start {db : DBImpl K} {logging : Logging K} (hlogging : db.logging = some logging)
    (hstage : logging.stage ≠ .start) : db.logged = logging.edit.newFiles.map fun p ↦ p.2.number := by
  unfold DBImpl.logged
  rw [hlogging]
  exact if_neg hstage

theorem logged_of_start {db : DBImpl K} {logging : Logging K} (hlogging : db.logging = some logging)
    (hstage : logging.stage = .start) : db.logged = [] := by
  unfold DBImpl.logged
  rw [hlogging]
  exact if_pos hstage

theorem append_records (descriptor : Descriptor K) (edit : VersionEdit K) (result : AppendResult) :
    (descriptor.append edit result).records = descriptor.records ∨
      (descriptor.append edit result).records = descriptor.records ++ [edit] := by
  cases result with
  | ok | readable => exact .inr rfl
  | lost | torn => exact .inl rfl

theorem currentSet_atStage {db : DBImpl K} {logging : Logging K} {stage : Stage} :
    (db.atStage logging stage).CurrentSet ↔ stage = .currentSet := by
  constructor
  · rintro ⟨_, ⟨⟩, heq⟩
    exact heq
  · exact fun heq ↦ ⟨_, rfl, heq⟩

theorem recorded_writeSnapshot {comparator : String} {vs : VersionSet K} {n : ℕ}
    (h : Recorded [vs.writeSnapshot comparator] n) : ∃ level, ∃ f ∈ vs.current level, f.number = n := by
  obtain ⟨record, hrecord, p, hp, rfl⟩ := h
  rw [mem_singleton.mp hrecord] at hp
  simp only [VersionSet.writeSnapshot, mem_flatMap, mem_map] at hp
  obtain ⟨level, -, f, hf, rfl⟩ := hp
  exact ⟨level, f, hf, rfl⟩

theorem exists_of_mem_install {db : DBImpl K} {logging : Logging K} :
    ∀ v' ∈ (db.install logging).versions, (∃ v ∈ db.versions, v.toHandle = v'.toHandle) ∨
      v'.toHandle = ⟨db.nextId, logging.version⟩ := by
  intro v' hv'
  rcases mem_append.mp hv' with hv' | hv'
  · exact .inl (exists_of_mem_unref v' hv')
  · rw [mem_singleton.mp hv']
    exact .inr rfl

theorem newLog_self (disk : Directory K) (number : ℕ) : (disk.newLog number).logs number = true :=
  update_self _ _ _

theorem newLog_of_logs {disk : Directory K} {n : ℕ} (h : disk.logs n = true) (number : ℕ) :
    (disk.newLog number).logs n = true := by
  change update disk.logs number true n = true
  rw [update_apply]
  split
  · rfl
  · exact h

variable [LinearOrder K] {comparator : String} {disk : Directory K} {db db' : DBImpl K} {logging : Logging K}
  {c : CompactionWork K} {descriptor : Descriptor K} {stage : Stage} {number : ℕ}

/-- The descriptor could be recovered from: its number and those of its files are below the file
number that it saves. -/
def Recoverable (number : ℕ) (descriptor : Descriptor K) : Prop :=
  ∃ nextFile, (descriptor.records.foldl Replay.apply {}).nextFile = some nextFile ∧
    number < nextFile ∧ ∀ n, Recorded descriptor.records n → n < nextFile

structure CurrentOk (disk : Directory K) (db : DBImpl K) (number : ℕ) (descriptor : Descriptor K) :
    Prop where
  current : disk.current = some number
  file : disk.descriptors number = some descriptor
  recoverable : Recoverable number descriptor
  recorded_lt : ∀ n, Recorded descriptor.records n → n < db.vs.nextFileNumber
  unrecorded : ∀ n ∈ db.writing, n ∉ db.logged → ¬Recorded descriptor.records n
  own : db.vs.descriptorLog = true → number = db.vs.manifestFileNumber
  old : db.vs.descriptorLog = false → ¬db.CurrentSet → number < db.vs.manifestFileNumber
  new : db.vs.descriptorLog = false → db.CurrentSet → number = db.vs.manifestFileNumber
  logging_lt : ∀ logging, db.logging = some logging → logging.stage = .start →
    ∀ n, Recorded descriptor.records n → ∀ next, logging.edit.nextFileNumber = some next → n < next

structure LoggingOk (comparator : String) (disk : Directory K) (db : DBImpl K) (logging : Logging K) :
    Prop where
  version_eq : logging.version = editedFiles db.vs.current logging.edit
  number_mem : ∀ p ∈ logging.edit.newFiles, p.2.number ∈ db.callerNumbers
  nodup : (logging.edit.newFiles.map fun p ↦ p.2.number).Nodup
  next : ∃ next, logging.edit.nextFileNumber = some next ∧ next ≤ db.vs.nextFileNumber ∧
    db.vs.manifestFileNumber < next ∧ (∀ p ∈ logging.edit.newFiles, p.2.number < next) ∧
    ∀ level, ∀ f ∈ db.vs.current level, f.number < next
  /-- The new log number retires no log that is still needed. -/
  log : ∃ number, logging.edit.logNumber = some number ∧ number ≤ db.logfileNumber ∧
    (db.flush = none → ∀ n, db.imm = some n → number ≤ n)
  logfile : disk.logs db.logfileNumber = true
  current_set : logging.stage = .currentSet → db.vs.descriptorLog = false
  open_edit : db.vs.descriptorLog = false → logging.edit.newFiles = db.openEdit.newFiles
  base_released : ∀ flush, db.flush = some flush → flush.base = none
  /-- The new descriptor of `DB::Open` before `CURRENT` names it. -/
  new_descriptor : db.vs.descriptorLog = false → logging.stage = .appended ∨ logging.stage = .synced →
      ∃ descriptor, disk.descriptors db.vs.manifestFileNumber = some descriptor ∧
        descriptor.records = [db.vs.writeSnapshot comparator, logging.edit]

/-- The logs of `mem_` and `imm_` exist and are not retired. -/
structure LogsOk (disk : Directory K) (db : DBImpl K) : Prop where
  mem : disk.logs db.logfileNumber = true
  mem_le : db.vs.logNumber ≤ db.logfileNumber
  imm : ∀ n, db.imm = some n → disk.logs n = true ∧ db.vs.logNumber ≤ n

/-- The invariant of a process that has the database open. -/
structure Structured (comparator : String) (disk : Directory K) (db : DBImpl K) : Prop where
  tracks : Tracks db.versions db.holders
  id_lt : ∀ v ∈ db.versions, v.id < db.nextId
  numbers : Numbers db.versions db.writing db.vs.nextFileNumber
  opening : db.vs.descriptorLog = false → db.flush = none ∧ db.compaction = none ∧ db.imm = none
  opened : db.vs.descriptorLog = true → db.openEdit.newFiles = []
  manifest_lt : db.vs.manifestFileNumber < db.vs.nextFileNumber
  current : ∃ number descriptor, CurrentOk disk db number descriptor
  logging : ∀ logging, db.logging = some logging → LoggingOk comparator disk db logging
  logfile_lt : db.logfileNumber < db.vs.nextFileNumber
  logs : db.vs.descriptorLog = true → LogsOk disk db

/-- The invariant of a directory without a process. -/
def Closed (disk : Directory K) : Prop :=
  ∀ number, disk.current = some number →
    ∃ descriptor, disk.descriptors number = some descriptor ∧ Recoverable number descriptor

structure StateOk (comparator : String) (state : State K) : Prop where
  closed : state.db = none → Closed state.disk
  structured : ∀ db, state.db = some db → Structured comparator state.disk db

theorem Structured.exists_current (h : Structured comparator disk db) :
    ∃ v ∈ db.versions, v.toHandle = db.currentVersion :=
  h.tracks.held db.currentVersion mem_cons_self

theorem Structured.current_lt (h : Structured comparator disk db) :
    ∀ level, ∀ f ∈ db.vs.current level, f.number < db.vs.nextFileNumber := by
  obtain ⟨v, hv, heq⟩ := h.exists_current
  have hvalue : v.value = db.vs.current := congrArg Handle.value heq
  exact fun level f hf ↦ h.numbers.file_lt v hv level f (hvalue ▸ hf)

/-! ## Frames -/

/-- `CurrentOk` looks at the process only through what it writes and logs. -/
theorem CurrentOk.mono {disk disk' : Directory K} (h : CurrentOk disk db number descriptor)
    (hcurrent : disk'.current = disk.current) (hfile : disk'.descriptors number = disk.descriptors number)
    (hlog : db'.vs.descriptorLog = db.vs.descriptorLog)
    (hmanifest : db'.vs.manifestFileNumber = db.vs.manifestFileNumber)
    (hnext : db.vs.nextFileNumber ≤ db'.vs.nextFileNumber) (hlogging : db'.logging = db.logging)
    (hwriting : ∀ n ∈ db'.writing, n ∈ db.writing ∨ db.vs.nextFileNumber ≤ n) :
    CurrentOk disk' db' number descriptor := by
  have hlogged : db'.logged = db.logged := by
    unfold DBImpl.logged
    rw [hlogging]
  have hset : db'.CurrentSet ↔ db.CurrentSet := by
    unfold DBImpl.CurrentSet
    rw [hlogging]
  refine ⟨hcurrent.trans h.current, hfile.trans h.file, h.recoverable, ?_, ?_, ?_, ?_, ?_, ?_⟩
  · exact fun n hn ↦ (h.recorded_lt n hn).trans_le hnext
  · intro n hn hnot hrecorded
    rw [hlogged] at hnot
    rcases hwriting n hn with hn | hn
    · exact h.unrecorded n hn hnot hrecorded
    · exact absurd (h.recorded_lt n hrecorded) (Nat.not_lt.mpr hn)
  · rw [hlog, hmanifest]
    exact h.own
  · rw [hlog, hmanifest, hset]
    exact h.old
  · rw [hlog, hmanifest, hset]
    exact h.new
  · rw [hlogging]
    exact h.logging_lt

omit [LinearOrder K] in
theorem LogsOk.of_eq (h : LogsOk disk db) (hlogfile : db'.logfileNumber = db.logfileNumber)
    (himm : db'.imm = db.imm) (hlog : db'.vs.logNumber = db.vs.logNumber) : LogsOk disk db' where
  mem := hlogfile ▸ h.mem
  mem_le := by rw [hlogfile, hlog]; exact h.mem_le
  imm := by rw [himm, hlog]; exact h.imm

section

variable (h : Structured comparator disk db)
include h

/-- Reference counts play no part in the ids. -/
theorem Structured.id_lt_of_handles {versions : List (Counted (Files K))}
    (hversions : ∀ v' ∈ versions, ∃ v ∈ db.versions, v.toHandle = v'.toHandle) :
    ∀ v' ∈ versions, v'.id < db.nextId := by
  intro v' hv'
  obtain ⟨v, hv, heq⟩ := hversions v' hv'
  exact (congrArg Handle.id heq) ▸ h.id_lt v hv

theorem Structured.startLogging (hidle : db.logging = none) {edit : VersionEdit K}
    (hmem : ∀ p ∈ edit.newFiles, p.2.number ∈ db.callerNumbers)
    (hnodup : (edit.newFiles.map fun p ↦ p.2.number).Nodup)
    (hlog : edit.logNumber.getD db.vs.logNumber ≤ db.logfileNumber)
    (himm : db.flush = none → ∀ n, db.imm = some n → edit.logNumber.getD db.vs.logNumber ≤ n)
    (hlogfile : disk.logs db.logfileNumber = true)
    (hopen : db.vs.descriptorLog = false → edit.newFiles = db.openEdit.newFiles)
    (hbase : ∀ flush, db.flush = some flush → flush.base = none) :
    Structured comparator disk (db.startLogging edit (editedFiles db.vs.current edit)) := by
  obtain ⟨number, descriptor, hcurrent⟩ := h.current
  have hlogged : db.logged = [] := by
    unfold DBImpl.logged
    rw [hidle]
  refine { h with
    current := ⟨number, descriptor, { hcurrent with
      unrecorded := ?_
      old := ?_
      new := ?_
      logging_lt := ?_ }⟩
    logging := ?_
    logs := fun hrunning ↦ ⟨(h.logs hrunning).mem, (h.logs hrunning).mem_le, (h.logs hrunning).imm⟩ }
  · intro n hn _
    exact hcurrent.unrecorded n hn (by simp [hlogged])
  · intro hclosed _
    apply hcurrent.old hclosed
    rintro ⟨logging, hlogging, -⟩
    rw [hidle] at hlogging
    cases hlogging
  · rintro - ⟨_, ⟨⟩, hstage⟩
    cases hstage
  · rintro _ ⟨⟩ _ n hn _ ⟨⟩
    exact hcurrent.recorded_lt n hn
  · rintro _ ⟨⟩
    exact {
      version_eq := rfl
      number_mem := hmem
      nodup := hnodup
      next := ⟨_, rfl, le_rfl, h.manifest_lt,
        fun p hp ↦ h.numbers.writing_lt _ (db.callerNumbers_subset (hmem p hp)), h.current_lt⟩
      log := ⟨_, rfl, hlog, himm⟩
      logfile := hlogfile
      current_set := by simp
      open_edit := hopen
      base_released := hbase
      new_descriptor := by simp }

/-! ## DB::Open -/

omit h in
/-- The process that `Recover` starts. -/
theorem Structured.recovered (h : Closed disk) (hcurrent : disk.current = some number)
    (hfile : disk.descriptors number = some descriptor) {vs : VersionSet K}
    (hrecover : Manifest.recover comparator descriptor.records = .ok vs) :
    Structured comparator disk (DBImpl.recovered vs) := by
  obtain ⟨nextFile, logNumber, lastSequence, hnext, -, -, rfl⟩ := versionSet_of_recover hrecover
  obtain ⟨descriptor', hfile', nextFile', hnext', hlt, hrecorded⟩ := h number hcurrent
  rw [hfile] at hfile'
  cases hfile'
  rw [hnext] at hnext'
  cases hnext'
  have hfiles : ∀ level, ∀ f ∈ recoveredFiles descriptor.records level, f.number < nextFile := by
    intro level f hf
    obtain ⟨record, hrecord, hnew⟩ := exists_record_of_recovered hf
    exact hrecorded f.number ⟨record, hrecord, (level, f), VersionEdit.mem_newAt.mp hnew, rfl⟩
  have hsucc : ∀ n, Recorded descriptor.records n → n < nextFile + 1 :=
    fun n hn ↦ (hrecorded n hn).trans (Nat.lt_succ_self nextFile)
  refine {
    tracks := ?_
    id_lt := ?_
    numbers := ⟨?_, nodup_nil, by simp [DBImpl.writing, DBImpl.recovered],
      by simp [DBImpl.writing, DBImpl.recovered]⟩
    opening := fun _ ↦ ⟨rfl, rfl, rfl⟩
    opened := fun _ ↦ rfl
    manifest_lt := Nat.lt_succ_self nextFile
    current := ⟨number, descriptor, hcurrent, hfile, ⟨nextFile, hnext, hlt, hrecorded⟩, hsucc,
      by simp [DBImpl.writing, DBImpl.recovered], ?_, fun _ _ ↦ hlt, ?_, ?_⟩
    logging := ?_
    logfile_lt := Nat.succ_pos nextFile
    logs := ?_ }
  · exact ⟨by simp [DBImpl.recovered], by simp [DBImpl.recovered, DBImpl.holders, DBImpl.currentVersion],
      by simp [DBImpl.recovered], by simp [DBImpl.recovered, DBImpl.holders, DBImpl.currentVersion]⟩
  · simp [DBImpl.recovered]
  · intro v hv level f hf
    rw [mem_singleton.mp hv] at hf
    exact (hfiles level f hf).trans (Nat.lt_succ_self nextFile)
  · rintro ⟨⟩
  · rintro - ⟨_, ⟨⟩, -⟩
  · rintro _ ⟨⟩
  · rintro _ ⟨⟩
  · rintro ⟨⟩

theorem Structured.spill (hidle : db.logging = none) (hclosed : db.vs.descriptorLog = false)
    {file : FileMetaData K} (hnumber : file.number = db.vs.nextFileNumber) :
    Structured comparator (disk.newTable file.number)
      { db.newFileNumber with openEdit := db.openEdit.addFile 0 file } := by
  obtain ⟨number, descriptor, hcurrent⟩ := h.current
  have hwriting : ({ db.newFileNumber with openEdit := db.openEdit.addFile 0 file } : DBImpl K).writing =
      db.writing ++ [db.vs.nextFileNumber] := by
    simp [DBImpl.writing, VersionEdit.addFile, DBImpl.newFileNumber, hnumber]
  refine { h with
    numbers := ?_
    opened := fun hopened ↦ absurd (hclosed.symm.trans hopened) (by simp)
    manifest_lt := h.manifest_lt.trans (Nat.lt_succ_self _)
    current := ⟨number, descriptor, hcurrent.mono rfl rfl rfl rfl (Nat.le_succ _) rfl ?_⟩
    logging := fun _ hsome ↦ absurd (hidle.symm.trans hsome) (by simp)
    logfile_lt := h.logfile_lt.trans (Nat.lt_succ_self _)
    logs := fun hopened ↦ absurd (hclosed.symm.trans hopened) (by simp) }
  · rw [hwriting]
    exact h.numbers.newFileNumber.perm (perm_append_singleton _ _).symm
  · intro n hn
    rw [hwriting] at hn
    rcases mem_append.mp hn with hn | hn
    · exact .inl hn
    · exact .inr (mem_singleton.mp hn).ge

theorem Structured.markFileNumberUsed (hidle : db.logging = none) (hclosed : db.vs.descriptorLog = false)
    (number : ℕ) : Structured comparator disk { db with vs := db.vs.markFileNumberUsed number } := by
  obtain ⟨m, descriptor, hcurrent⟩ := h.current
  have hnext := db.vs.le_markFileNumberUsed number
  have hvs : db.vs.markFileNumberUsed number =
      { db.vs with nextFileNumber := (db.vs.markFileNumberUsed number).nextFileNumber } := by
    unfold VersionSet.markFileNumberUsed
    split <;> rfl
  rw [hvs]
  exact { h with
    numbers := h.numbers.mono (fun v hv ↦ ⟨v, hv, rfl⟩) (.refl _) hnext
    manifest_lt := h.manifest_lt.trans_le hnext
    current := ⟨m, descriptor, hcurrent.mono rfl rfl rfl rfl hnext rfl fun n hn ↦ .inl hn⟩
    logging := fun _ hsome ↦ absurd (hidle.symm.trans hsome) (by simp)
    logfile_lt := h.logfile_lt.trans_le hnext
    logs := fun hopened ↦ absurd (hclosed.symm.trans hopened) (by simp) }

/-- `DB::Open` creates its log. -/
theorem Structured.openLog (hidle : db.logging = none) (hclosed : db.vs.descriptorLog = false) :
    Structured comparator (disk.newLog db.vs.nextFileNumber)
      { db.newFileNumber with logfileNumber := db.vs.nextFileNumber } := by
  obtain ⟨m, descriptor, hcurrent⟩ := h.current
  exact { h with
    numbers := h.numbers.mono (fun v hv ↦ ⟨v, hv, rfl⟩) (.refl _) (Nat.le_succ _)
    manifest_lt := h.manifest_lt.trans (Nat.lt_succ_self _)
    current := ⟨m, descriptor, hcurrent.mono rfl rfl rfl rfl (Nat.le_succ _) rfl fun n hn ↦ .inl hn⟩
    logging := fun _ hsome ↦ absurd (hidle.symm.trans hsome) (by simp)
    logfile_lt := Nat.lt_succ_self _
    logs := fun hopened ↦ absurd (hclosed.symm.trans hopened) (by simp) }

end

/-! ## Writers and readers -/

section

variable (h : Structured comparator disk db)

include h

theorem Structured.switchMemTable (hopen : db.vs.descriptorLog = true) :
    Structured comparator (disk.newLog db.vs.nextFileNumber)
      { db.newFileNumber with imm := some db.logfileNumber, logfileNumber := db.vs.nextFileNumber } := by
  obtain ⟨m, descriptor, hcurrent⟩ := h.current
  refine { h with
    numbers := h.numbers.mono (fun v hv ↦ ⟨v, hv, rfl⟩) (.refl _) (Nat.le_succ _)
    opening := fun hclosed ↦ absurd (hopen.symm.trans hclosed) (by simp)
    manifest_lt := h.manifest_lt.trans (Nat.lt_succ_self _)
    current := ⟨m, descriptor, hcurrent.mono rfl rfl rfl rfl (Nat.le_succ _) rfl fun n hn ↦ .inl hn⟩
    logging := ?_
    logfile_lt := Nat.lt_succ_self _
    logs := ?_ }
  · intro logging hlogging
    have hok := h.logging logging hlogging
    obtain ⟨next, hnext, hle, hmanifest, hlt⟩ := hok.next
    obtain ⟨number, hnumber, hlog, -⟩ := hok.log
    refine { hok with
      next := ⟨next, hnext, Nat.le_succ_of_le hle, hmanifest, hlt⟩
      log := ⟨number, hnumber, hlog.trans h.logfile_lt.le, ?_⟩
      logfile := newLog_self disk _ }
    rintro _ _ ⟨⟩
    exact hlog
  · intro _
    have hlogs := h.logs hopen
    refine ⟨newLog_self disk _, hlogs.mem_le.trans h.logfile_lt.le, ?_⟩
    rintro _ ⟨⟩
    exact ⟨newLog_of_logs hlogs.mem _, hlogs.mem_le⟩

/-- The invariant depends on the readers and the reference counts only through `Tracks`. -/
theorem Structured.of_refs {versions : List (Counted (Files K))} {readers : List (Handle (Files K))}
    (hversions : ∀ v' ∈ versions, ∃ v ∈ db.versions, v.toHandle = v'.toHandle)
    (htracks : Tracks versions ({ db with versions := versions, readers := readers } : DBImpl K).holders) :
    Structured comparator disk { db with versions := versions, readers := readers } := by
  obtain ⟨m, descriptor, hcurrent⟩ := h.current
  exact { h with
    tracks := htracks
    id_lt := h.id_lt_of_handles hversions
    numbers := h.numbers.mono hversions (.refl _) le_rfl
    current := ⟨m, descriptor, { hcurrent with }⟩
    logging := fun logging hlogging ↦ { h.logging logging hlogging with }
    logs := fun hopen ↦ { h.logs hopen with } }

theorem Structured.pin : Structured comparator disk { db with
      readers := db.currentVersion :: db.readers, versions := ref db.currentId db.versions } := by
  apply h.of_refs exists_of_mem_ref
  have hmem : db.currentVersion ∈ db.holders := mem_cons_self
  exact h.tracks.ref hmem

theorem Structured.unpin {index : ℕ} {reader : Handle (Files K)}
    (hreader : db.readers[index]? = some reader) : Structured comparator disk { db with
      readers := db.readers.eraseIdx index, versions := unref reader.id db.versions } := by
  apply h.of_refs exists_of_mem_unref
  apply Tracks.unref
  apply h.tracks.perm
  obtain ⟨hlt, rfl⟩ := List.getElem?_eq_some_iff.mp hreader
  have hperm := (getElem_cons_eraseIdx_perm hlt).symm
  exact (((hperm.append_right _).append_right _).cons _).trans (.swap _ _ _)

end

/-! ## Flushes and compactions -/

section

variable (h : Structured comparator disk db)

include h

/-- The tables and their bytes are not part of the invariant. -/
theorem Structured.of_tables (tables tableSynced : ℕ → Bool) :
    Structured comparator { disk with tables := tables, tableSynced := tableSynced } db := by
  obtain ⟨m, descriptor, hcurrent⟩ := h.current
  exact { h with
    current := ⟨m, descriptor, { hcurrent with }⟩
    logging := fun logging hlogging ↦ { h.logging logging hlogging with }
    logs := fun hopen ↦ { h.logs hopen with } }

variable (hopen : db.vs.descriptorLog = true) (hidle : db.logging = none)

include hopen hidle

/-- While `LogAndApply` is not under way, the invariant depends on the background thread only through its
references and its numbers. -/
theorem Structured.of_work {next : ℕ} {pointers : ℕ → Option (InternalKey K)}
    (hvs : db'.vs = { db.vs with nextFileNumber := next, compactPointer := pointers })
    (hnext : db.vs.nextFileNumber ≤ next)
    (hsame : db'.nextId = db.nextId ∧ db'.logfileNumber = db.logfileNumber ∧ db'.imm = db.imm ∧
      db'.openEdit = db.openEdit ∧ db'.logging = db.logging)
    (hversions : ∀ v' ∈ db'.versions, ∃ v ∈ db.versions, v.toHandle = v'.toHandle)
    (htracks : Tracks db'.versions db'.holders) (hnumbers : Numbers db'.versions db'.writing next)
    (hwriting : ∀ n ∈ db'.writing, n ∈ db.writing ∨ db.vs.nextFileNumber ≤ n) :
    Structured comparator disk db' := by
  obtain ⟨m, descriptor, hcurrent⟩ := h.current
  obtain ⟨hid, hlogfile, himm, hedit, hlogging⟩ := hsame
  have hopen' : db'.vs.descriptorLog = true := by rw [hvs]; exact hopen
  refine {
    tracks := htracks
    id_lt := hid ▸ h.id_lt_of_handles hversions
    numbers := by rw [hvs]; exact hnumbers
    opening := fun hclosed ↦ absurd (hopen'.symm.trans hclosed) (by simp)
    opened := fun _ ↦ by rw [hedit]; exact h.opened hopen
    manifest_lt := by rw [hvs]; exact h.manifest_lt.trans_le hnext
    current := ⟨m, descriptor, hcurrent.mono rfl rfl (by rw [hvs]) (by rw [hvs])
      (by rw [hvs]; exact hnext) hlogging hwriting⟩
    logging := ?_
    logfile_lt := by rw [hvs, hlogfile]; exact h.logfile_lt.trans_le hnext
    logs := fun _ ↦ (h.logs hopen).of_eq hlogfile himm (by rw [hvs]) }
  intro logging hsome
  rw [hlogging, hidle] at hsome
  cases hsome

theorem Structured.beginFlush (hflush : db.flush = none) :
    Structured comparator disk { db.newFileNumber with
      flush := some ⟨db.vs.nextFileNumber, some db.currentVersion, false⟩
      pendingOutputs := db.vs.nextFileNumber :: db.pendingOutputs
      versions := ref db.currentId db.versions } := by
  have hmem : db.currentVersion ∈ db.holders := mem_cons_self
  have hwriting : db.writing = (db.compaction.map CompactionWork.numbers).getD [] ++
      db.openEdit.newFiles.map fun p ↦ p.2.number := by
    simp [DBImpl.writing, hflush]
  refine h.of_work hopen hidle rfl (Nat.le_succ _) ⟨rfl, rfl, rfl, rfl, rfl⟩ exists_of_mem_ref ?_ ?_ ?_
  · refine (h.tracks.ref hmem).perm ?_
    simp only [DBImpl.holders, hflush, DBImpl.currentVersion, DBImpl.newFileNumber,
      VersionSet.newFileNumber, Option.bind_none, Option.toList_none, append_nil, Option.bind_some,
      Option.toList_some, append_assoc, singleton_append]
    exact .cons _ perm_middle.symm
  · have hnumbers := h.numbers.newFileNumber
    rw [hwriting] at hnumbers
    exact hnumbers.mono exists_of_mem_ref (.refl _) le_rfl
  · intro n hn
    rw [hwriting]
    rcases mem_cons.mp hn with rfl | hn
    · exact .inr le_rfl
    · exact .inl hn

theorem Structured.writeTable {base : Option (Handle (Files K))} {written : Bool}
    (hflush : db.flush = some ⟨number, base, written⟩) :
    Structured comparator (disk.newTable number) { db with flush := some ⟨number, base, true⟩ } := by
  apply Structured.of_tables
  have hwriting : ({ db with flush := some ⟨number, base, true⟩ } : DBImpl K).writing = db.writing := by
    simp [DBImpl.writing, hflush]
  refine h.of_work hopen hidle rfl le_rfl ⟨rfl, rfl, rfl, rfl, rfl⟩ (fun v hv ↦ ⟨v, hv, rfl⟩) ?_ ?_ ?_
  · have htracks := h.tracks
    simpa [DBImpl.holders, hflush, DBImpl.currentVersion] using htracks
  · rw [hwriting]
    exact h.numbers
  · rw [hwriting]
    exact fun n hn ↦ .inl hn

/-- `WriteLevel0Table` releases the base version. -/
theorem Structured.released {base : Handle (Files K)} {written : Bool}
    (hflush : db.flush = some ⟨number, some base, written⟩) :
    Structured comparator disk
      (State.finishFlush.released db ⟨number, some base, written⟩ base) := by
  have hwriting : (State.finishFlush.released db ⟨number, some base, written⟩ base).writing =
      db.writing := by
    simp [DBImpl.writing, hflush, State.finishFlush.released]
  refine h.of_work hopen hidle rfl le_rfl ⟨rfl, rfl, rfl, rfl, rfl⟩ exists_of_mem_unref ?_ ?_ ?_
  · apply Tracks.unref
    apply h.tracks.perm
    simp only [State.finishFlush.released, DBImpl.holders, hflush, DBImpl.currentVersion,
      Option.bind_some, Option.toList_some, Option.toList_none, append_nil, append_assoc,
      singleton_append]
    exact (List.Perm.cons _ perm_middle).trans (List.Perm.swap _ _ _)
  · rw [hwriting]
    exact h.numbers.mono exists_of_mem_unref (.refl _) le_rfl
  · rw [hwriting]
    exact fun n hn ↦ .inl hn

/-- A flush that fails. -/
theorem Structured.endFlush {written : Bool} (hflush : db.flush = some ⟨number, none, written⟩) :
    Structured comparator disk { db with flush := none } := by
  have hwriting : db.writing = number :: ({ db with flush := none } : DBImpl K).writing := by
    simp [DBImpl.writing, hflush]
  refine h.of_work hopen hidle rfl le_rfl ⟨rfl, rfl, rfl, rfl, rfl⟩ (fun v hv ↦ ⟨v, hv, rfl⟩) ?_ ?_ ?_
  · have htracks := h.tracks
    simpa [DBImpl.holders, hflush, DBImpl.currentVersion] using htracks
  · have hnumbers := h.numbers
    rw [hwriting] at hnumbers
    exact hnumbers.mono (fun v hv ↦ ⟨v, hv, rfl⟩) (sublist_cons_self _ _) le_rfl
  · intro n hn
    rw [hwriting]
    exact .inl (mem_cons_of_mem _ hn)

theorem Structured.beginCompaction (hcompaction : db.compaction = none) (level : ℕ)
    (inputs0 inputs1 : List (FileMetaData K)) (pointer : InternalKey K) :
    Structured comparator disk { db with
      vs := { db.vs with compactPointer := update db.vs.compactPointer level (some pointer) }
      compaction := some ⟨level, db.currentVersion, inputs0, inputs1, pointer, [], none⟩
      versions := ref db.currentId db.versions } := by
  have hmem : db.currentVersion ∈ db.holders := mem_cons_self
  have hwriting : db.writing = (db.flush.map Flush.number).toList ++
      db.openEdit.newFiles.map fun p ↦ p.2.number := by
    simp [DBImpl.writing, hcompaction]
  refine h.of_work hopen hidle rfl le_rfl ⟨rfl, rfl, rfl, rfl, rfl⟩ exists_of_mem_ref ?_ ?_ ?_
  · refine (h.tracks.ref hmem).perm ?_
    simp only [DBImpl.holders, hcompaction, DBImpl.currentVersion, Option.map_none, Option.toList_none,
      append_nil, Option.map_some, Option.toList_some]
    exact .cons _ (perm_append_singleton _ _).symm
  · have hnumbers := h.numbers
    rw [hwriting] at hnumbers
    exact hnumbers.mono exists_of_mem_ref (.refl _) le_rfl
  · intro n hn
    rw [hwriting]
    exact .inl hn

theorem Structured.of_outputs (hcompaction : db.compaction = some c) {next : ℕ}
    (hnext : db.vs.nextFileNumber ≤ next) {outputs : List (FileMetaData K)} {building : Option ℕ}
    {pending : List ℕ} (db' : DBImpl K) (hdb : db' = { db with
      vs := { db.vs with nextFileNumber := next }
      compaction := some { c with outputs := outputs, building := building }
      pendingOutputs := pending }) (hnumbers : Numbers db.versions db'.writing next)
    (hwriting : ∀ n ∈ db'.writing, n ∈ db.writing ∨ db.vs.nextFileNumber ≤ n) :
    Structured comparator disk db' := by
  subst hdb
  refine h.of_work hopen hidle rfl hnext ⟨rfl, rfl, rfl, rfl, rfl⟩ (fun v hv ↦ ⟨v, hv, rfl⟩) ?_ hnumbers
    hwriting
  have htracks := h.tracks
  simpa [DBImpl.holders, hcompaction, DBImpl.currentVersion] using htracks

theorem Structured.openOutput (hflush : db.flush = none) (hcompaction : db.compaction = some c)
    (hbuilding : c.building = none) :
    Structured comparator (disk.newTable db.vs.nextFileNumber) { db.newFileNumber with
      compaction := some { c with building := some db.vs.nextFileNumber }
      pendingOutputs := db.vs.nextFileNumber :: db.pendingOutputs } := by
  apply Structured.of_tables
  have hwriting : ({ db.newFileNumber with
      compaction := some { c with building := some db.vs.nextFileNumber }
      pendingOutputs := db.vs.nextFileNumber :: db.pendingOutputs } : DBImpl K).writing =
        db.writing ++ [db.vs.nextFileNumber] := by
    simp [DBImpl.writing, DBImpl.newFileNumber, hcompaction, hflush, hbuilding, CompactionWork.numbers,
      h.opened hopen]
  refine h.of_outputs hopen hidle hcompaction (Nat.le_succ _) _ rfl ?_ ?_
  · exact hwriting ▸ h.numbers.newFileNumber.perm (perm_append_singleton _ _).symm
  · intro n hn
    rcases mem_append.mp (hwriting ▸ hn) with hn | hn
    · exact .inl hn
    · exact .inr (mem_singleton.mp hn).ge

theorem Structured.finishOutput (hcompaction : db.compaction = some c) {file : FileMetaData K}
    (hbuilding : c.building = some file.number) :
    Structured comparator disk { db with
      compaction := some { c with outputs := c.outputs ++ [file], building := none } } := by
  have hwriting : ({ db with
      compaction := some { c with outputs := c.outputs ++ [file], building := none } } :
        DBImpl K).writing = db.writing := by
    simp [DBImpl.writing, hcompaction, hbuilding, CompactionWork.numbers]
  refine h.of_outputs hopen hidle hcompaction le_rfl _ rfl ?_ ?_
  · exact hwriting ▸ h.numbers
  · exact fun n hn ↦ .inl (hwriting ▸ hn)

/-- `NewFileNumber` for a file that is not a table. -/
theorem Structured.newFileNumber : Structured comparator disk db.newFileNumber :=
  h.of_work hopen hidle rfl (Nat.le_succ _) ⟨rfl, rfl, rfl, rfl, rfl⟩ (fun v hv ↦ ⟨v, hv, rfl⟩) h.tracks
    (h.numbers.mono (fun v hv ↦ ⟨v, hv, rfl⟩) (.refl _) (Nat.le_succ _))
    fun _ hn ↦ .inl hn

theorem Structured.endCompaction (hcompaction : db.compaction = some c) :
    Structured comparator disk (db.endCompaction c) := by
  have hsublist := writing_endCompaction_sublist db c
  refine h.of_work hopen hidle rfl le_rfl ⟨rfl, rfl, rfl, rfl, rfl⟩ exists_of_mem_unref ?_ ?_ ?_
  · apply Tracks.unref
    exact h.tracks.perm (holders_endCompaction hcompaction)
  · exact h.numbers.mono exists_of_mem_unref hsublist le_rfl
  · exact fun n hn ↦ .inl (hsublist.subset hn)

theorem Structured.deleteObsoleteFiles : Structured comparator (deleteObsoleteFiles disk db) db := by
  obtain ⟨m, descriptor, hcurrent⟩ := h.current
  have hlogs := h.logs hopen
  have hkeep : ∀ n, disk.logs n = true → db.vs.logNumber ≤ n →
      (Storage.deleteObsoleteFiles disk db).logs n = true := by
    intro n hn hle
    simp [Storage.deleteObsoleteFiles, hn, hle]
  refine { h with
    current := ⟨m, descriptor, { hcurrent with file := ?_ }⟩
    logging := ?_
    logs := fun _ ↦ ⟨hkeep _ hlogs.mem hlogs.mem_le, hlogs.mem_le, ?_⟩ }
  · simp only [Storage.deleteObsoleteFiles, hcurrent.own hopen, le_refl, if_true]
    rw [← hcurrent.own hopen]
    exact hcurrent.file
  · intro logging hlogging
    rw [hidle] at hlogging
    cases hlogging
  · intro n hn
    obtain ⟨hlog, hle⟩ := hlogs.imm n hn
    exact ⟨hkeep n hlog hle, hle⟩

end

/-! ## LogAndApply at work -/

theorem recoverable_append {number next : ℕ} {records : List (VersionEdit K)} {edit : VersionEdit K}
    (hrecords : descriptor.records = records ++ [edit])
    (hnext : edit.nextFileNumber = some next) (hnumber : number < next)
    (hold : ∀ n, Recorded records n → n < next) (hnew : ∀ p ∈ edit.newFiles, p.2.number < next) :
    Recoverable number descriptor := by
  refine ⟨next, ?_, hnumber, ?_⟩
  · rw [hrecords, foldl_append]
    simp only [foldl_cons, foldl_nil, Replay.apply, hnext, Option.some_or]
  · rintro n ⟨record, hrecord, p, hp, rfl⟩
    rw [hrecords] at hrecord
    rcases mem_append.mp hrecord with hrecord | hrecord
    · exact hold _ ⟨record, hrecord, p, hp, rfl⟩
    · rw [mem_singleton.mp hrecord] at hp
      exact hnew p hp

theorem CurrentOk.append {disk disk' : Directory K} {m : ℕ} (h : CurrentOk disk db m descriptor)
    (hlogging : db.logging = some logging) (hok : LoggingOk comparator disk db logging)
    (hopen : db.vs.descriptorLog = true) (hstart : logging.stage = .start)
    (hstage : stage ≠ .start) (result : AppendResult) (hcurrent : disk'.current = disk.current)
    (hfile : disk'.descriptors m = some (descriptor.append logging.edit result)) :
    CurrentOk disk' (db.atStage logging stage) m (descriptor.append logging.edit result) := by
  obtain ⟨next, hnext, hle, hmanifest, hnew, -⟩ := hok.next
  have hm := h.own hopen
  have hclosed : ¬db.vs.descriptorLog = false := by simp [hopen]
  refine ⟨hcurrent.trans h.current, hfile, ?_, ?_, ?_, fun _ ↦ hm, fun h ↦ absurd h hclosed,
    fun h ↦ absurd h hclosed, ?_⟩
  · rcases append_records descriptor logging.edit result with hrecords | hrecords
    · obtain ⟨nextFile, hnextFile⟩ := h.recoverable
      exact ⟨nextFile, by rw [hrecords]; exact hnextFile⟩
    · exact recoverable_append hrecords hnext (hm ▸ hmanifest)
        (fun n hn ↦ h.logging_lt logging hlogging hstart n hn next hnext) hnew
  · intro n hn
    rcases append_records descriptor logging.edit result with hrecords | hrecords
    · exact h.recorded_lt n (hrecords ▸ hn)
    · rcases recorded_append (hrecords ▸ hn) with hn | hn
      · exact h.recorded_lt n hn
      · obtain ⟨p, hp, rfl⟩ := mem_map.mp hn
        exact (hnew p hp).trans_le hle
  · intro n hn hnot hrecorded
    rw [logged_of_ne_start rfl hstage] at hnot
    have hunrecorded := h.unrecorded n hn (by simp [logged_of_start hlogging hstart])
    rcases append_records descriptor logging.edit result with hrecords | hrecords
    · exact hunrecorded (hrecords ▸ hrecorded)
    · exact (recorded_append (hrecords ▸ hrecorded)).elim hunrecorded hnot
  · rintro _ ⟨⟩ heq
    exact absurd heq hstage

/-- The call goes on and leaves the records of the descriptor that `CURRENT` names. -/
theorem CurrentOk.atStage {disk disk' : Directory K} {m : ℕ} {descriptor descriptor' : Descriptor K}
    (h : CurrentOk disk db m descriptor) (hlogging : db.logging = some logging)
    (hbefore : logging.stage ≠ .currentSet) (hstage : stage ≠ .start) (hset : stage ≠ .currentSet)
    (hcurrent : disk'.current = disk.current) (hfile : disk'.descriptors m = some descriptor')
    (hrecords : descriptor'.records = descriptor.records) :
    CurrentOk disk' (db.atStage logging stage) m descriptor' := by
  have hunset := not_currentSet hlogging hbefore
  refine ⟨hcurrent.trans h.current, hfile, ?_, ?_, ?_, h.own, fun hclosed _ ↦ h.old hclosed hunset,
    fun _ hnow ↦ absurd (currentSet_atStage.mp hnow) hset, ?_⟩
  · unfold Recoverable
    rw [hrecords]
    exact h.recoverable
  · rw [hrecords]
    exact h.recorded_lt
  · intro n hn hnot
    rw [hrecords]
    rw [logged_of_ne_start rfl hstage] at hnot
    apply h.unrecorded n hn
    by_cases hstart : logging.stage = .start
    · simp [logged_of_start hlogging hstart]
    · rwa [logged_of_ne_start hlogging hstart]
  · rintro _ ⟨⟩ heq
    exact absurd heq hstage

section

variable (h : Structured comparator disk db) (hlogging : db.logging = some logging)

include h hlogging

/-- While the call is under way, a step of it changes the descriptors only. -/
theorem Structured.atStage (descriptors : ℕ → Option (Descriptor K)) (current : Option ℕ)
    (hcurrent : ∃ m descriptor, CurrentOk { disk with descriptors := descriptors, current := current }
      (db.atStage logging stage) m descriptor) (hset : stage = .currentSet → db.vs.descriptorLog = false)
    (hnew : db.vs.descriptorLog = false → stage = .appended ∨ stage = .synced →
      ∃ descriptor, descriptors db.vs.manifestFileNumber = some descriptor ∧
        descriptor.records = [db.vs.writeSnapshot comparator, logging.edit]) :
    Structured comparator { disk with descriptors := descriptors, current := current }
      (db.atStage logging stage) := by
  refine { h with
    current := hcurrent
    logging := ?_
    logs := fun hopen ↦ { h.logs hopen with } }
  rintro _ ⟨⟩
  exact { h.logging logging hlogging with current_set := hset, new_descriptor := hnew }

/-- The record goes to the descriptor that `CURRENT` names, or to the new one of `DB::Open`. -/
theorem Structured.appendRecord (hstart : logging.stage = .start) (result : AppendResult) :
    Structured comparator (disk.setDescriptor db.vs.manifestFileNumber
        ((if db.vs.descriptorLog then disk.descriptors db.vs.manifestFileNumber
          else some ⟨[db.vs.writeSnapshot comparator], false, false⟩).map
            fun d ↦ d.append logging.edit result))
      (db.atStage logging (if result = .ok then .appended else .failed)) := by
  obtain ⟨m, descriptor, hcurrent⟩ := h.current
  have hok := h.logging logging hlogging
  have hstage : (if result = AppendResult.ok then Stage.appended else Stage.failed) ≠ .start := by
    split <;> simp
  have hset : (if result = AppendResult.ok then Stage.appended else Stage.failed) ≠ .currentSet := by
    split <;> simp
  apply h.atStage hlogging
  · cases hopen : db.vs.descriptorLog with
    | true =>
      have hm := hcurrent.own hopen
      refine ⟨m, _, hcurrent.append hlogging hok hopen hstart hstage result rfl ?_⟩
      simp only [if_true, hm, update_self]
      rw [← hm, hcurrent.file]
      rfl
    | false =>
      have hunset := not_currentSet hlogging (by simp [hstart])
      have hne : m ≠ db.vs.manifestFileNumber := (hcurrent.old hopen hunset).ne
      refine ⟨m, descriptor, hcurrent.atStage hlogging (by simp [hstart]) hstage hset rfl ?_ rfl⟩
      exact (update_of_ne hne _ _).trans hcurrent.file
  · exact fun heq ↦ absurd heq hset
  · intro hclosed hwritten
    have hresult : result = .ok := by
      by_contra hne
      simp [hne] at hwritten
    subst hresult
    refine ⟨⟨[db.vs.writeSnapshot comparator, logging.edit], false, false⟩, ?_, rfl⟩
    rw [hclosed, update_self]
    rfl

theorem Structured.syncDescriptor (hstage : logging.stage = .appended) (ok : Bool) : Structured comparator
      (if ok then disk.setDescriptor db.vs.manifestFileNumber
          ((disk.descriptors db.vs.manifestFileNumber).map fun d ↦ { d with synced := true })
        else disk)
      (db.atStage logging (if ok then .synced else .failed)) := by
  obtain ⟨m, descriptor, hcurrent⟩ := h.current
  have hbefore : logging.stage ≠ .currentSet := by simp [hstage]
  cases ok with
  | false =>
    refine h.atStage hlogging disk.descriptors disk.current ⟨m, descriptor, ?_⟩ (by simp) (by simp)
    exact hcurrent.atStage hlogging hbefore (by simp) (by simp) rfl hcurrent.file rfl
  | true =>
    refine h.atStage hlogging _ disk.current ?_ (by simp) ?_
    · by_cases heq : m = db.vs.manifestFileNumber
      · refine ⟨m, { descriptor with synced := true },
          hcurrent.atStage hlogging hbefore (by simp) (by simp) rfl ?_ rfl⟩
        simp only [← heq, update_self]
        rw [hcurrent.file]
        rfl
      · exact ⟨m, descriptor, hcurrent.atStage hlogging hbefore (by simp) (by simp) rfl
          ((update_of_ne heq _ _).trans hcurrent.file) rfl⟩
    · intro hclosed _
      obtain ⟨new, hfile, hrecords⟩ := (h.logging logging hlogging).new_descriptor hclosed (.inl hstage)
      refine ⟨{ new with synced := true }, ?_, hrecords⟩
      rw [update_self, hfile]
      rfl

theorem Structured.setCurrentFile (hstage : logging.stage = .synced) (hclosed : db.vs.descriptorLog = false)
    (ok : Bool) :
    Structured comparator
      (if ok then { disk with current := some db.vs.manifestFileNumber } else disk)
      (db.atStage logging (if ok then .currentSet else .failed)) := by
  obtain ⟨m, descriptor, hcurrent⟩ := h.current
  have hok := h.logging logging hlogging
  have hbefore : logging.stage ≠ .currentSet := by simp [hstage]
  cases ok with
  | false =>
    refine h.atStage hlogging disk.descriptors disk.current ⟨m, descriptor, ?_⟩ (by simp) (by simp)
    exact hcurrent.atStage hlogging hbefore (by simp) (by simp) rfl hcurrent.file rfl
  | true =>
    obtain ⟨new, hfile, hrecords⟩ := hok.new_descriptor hclosed (.inr hstage)
    obtain ⟨next, hnext, hle, hmanifest, hnew, hversion⟩ := hok.next
    have hold : ∀ n, Recorded [db.vs.writeSnapshot comparator] n → n < next := by
      intro n hn
      obtain ⟨level, f, hf, rfl⟩ := recorded_writeSnapshot hn
      exact hversion level f hf
    refine h.atStage hlogging disk.descriptors _ ⟨db.vs.manifestFileNumber, new, rfl, hfile,
      recoverable_append hrecords hnext hmanifest hold hnew, ?_, ?_, fun _ ↦ rfl, ?_, fun _ _ ↦ rfl, ?_⟩
      (fun _ ↦ hclosed) (by simp)
    · intro n hn
      rw [hrecords] at hn
      change Recorded ([db.vs.writeSnapshot comparator] ++ [logging.edit]) n at hn
      rcases recorded_append hn with hn | hn
      · exact (hold n hn).trans_le hle
      · obtain ⟨p, hp, rfl⟩ := mem_map.mp hn
        exact (hnew p hp).trans_le hle
    · -- everything that `DB::Open` writes is in the edit
      intro n hn hnot
      obtain ⟨hflush, hcompaction, -⟩ := h.opening hclosed
      rw [logged_of_ne_start rfl (by simp)] at hnot
      have hwriting : db.writing = logging.edit.newFiles.map fun p ↦ p.2.number := by
        simp [DBImpl.writing, hflush, hcompaction, hok.open_edit hclosed]
      exact absurd (hwriting ▸ hn) hnot
    · exact fun _ hnot ↦ absurd (currentSet_atStage.mpr rfl) hnot
    · rintro _ ⟨⟩ heq
      cases heq

end

/-! ## The end of LogAndApply -/

theorem LoggingOk.logged_subset (h : LoggingOk comparator disk db logging)
    (hlogging : db.logging = some logging) : db.logged ⊆ db.callerNumbers := by
  intro n hn
  by_cases hstart : logging.stage = .start
  · rw [logged_of_start hlogging hstart] at hn
    cases hn
  · rw [logged_of_ne_start hlogging hstart] at hn
    obtain ⟨p, hp, rfl⟩ := mem_map.mp hn
    exact h.number_mem p hp

section

variable (h : Structured comparator disk db)

include h

/-- The call fails, and its caller gives up the tables that it has written. -/
theorem Structured.failLogging (hopen : db.vs.descriptorLog = true) (hlogging : db.logging = some logging)
    (hsame : db'.vs = db.vs ∧ db'.nextId = db.nextId ∧ db'.logfileNumber = db.logfileNumber ∧
      db'.imm = db.imm ∧ db'.openEdit = db.openEdit ∧ db'.logging = none)
    (hversions : ∀ v' ∈ db'.versions, ∃ v ∈ db.versions, v.toHandle = v'.toHandle)
    (htracks : Tracks db'.versions db'.holders) (hwriting : db'.writing.Sublist db.writing)
    (hcaller : ∀ n ∈ db'.writing, n ∉ db.callerNumbers) : Structured comparator disk db' := by
  obtain ⟨m, descriptor, hcurrent⟩ := h.current
  obtain ⟨hvs, hid, hlogfile, himm, hedit, hidle⟩ := hsame
  have hsubset := (h.logging logging hlogging).logged_subset hlogging
  have hclosed : ¬db.vs.descriptorLog = false := by simp [hopen]
  refine {
    tracks := htracks
    id_lt := hid ▸ h.id_lt_of_handles hversions
    numbers := by rw [hvs]; exact h.numbers.mono hversions hwriting le_rfl
    opening := fun h ↦ absurd (hvs ▸ h) hclosed
    opened := fun _ ↦ by rw [hedit]; exact h.opened hopen
    manifest_lt := by rw [hvs]; exact h.manifest_lt
    current := ⟨m, descriptor, hcurrent.current, hcurrent.file, hcurrent.recoverable, ?_, ?_, ?_,
      fun h ↦ absurd (hvs ▸ h) hclosed, fun h ↦ absurd (hvs ▸ h) hclosed, by simp [hidle]⟩
    logging := by simp [hidle]
    logfile_lt := by rw [hvs, hlogfile]; exact h.logfile_lt
    logs := fun _ ↦ (h.logs hopen).of_eq hlogfile himm (by rw [hvs]) }
  · rw [hvs]
    exact hcurrent.recorded_lt
  · intro n hn _
    exact hcurrent.unrecorded n (hwriting.subset hn) fun hmem ↦ hcaller n hn (hsubset hmem)
  · rw [hvs]
    exact hcurrent.own

theorem Structured.tracks_install (logging : Logging K) :
    Tracks (db.install logging).versions (db.install logging).holders := by
  have htracks : Tracks (unref db.currentId db.versions) db.holders.tail := Tracks.unref h.tracks
  have hfresh : ∀ v ∈ unref db.currentId db.versions,
      v.id ≠ (⟨db.nextId, logging.version⟩ : Handle (Files K)).id := by
    intro v' hv'
    obtain ⟨v, hv, heq⟩ := exists_of_mem_unref v' hv'
    have hid : v.id = v'.id := congrArg Handle.id heq
    exact (hid ▸ h.id_lt v hv).ne
  exact htracks.append _ hfresh

/-- The call succeeds: the version is installed, and its caller has no more tables to install. -/
theorem Structured.install (hlogging : db.logging = some logging) (hstage : logging.stage = db.lastStage)
    (hsame : db'.vs = (db.install logging).vs ∧ db'.nextId = db.nextId + 1 ∧
      db'.logfileNumber = db.logfileNumber ∧ db'.openEdit.newFiles = [] ∧ db'.logging = none)
    (himm : ∀ n, db'.imm = some n → db.imm = some n ∧ db.flush = none)
    (hversions : ∀ v' ∈ db'.versions, (∃ v ∈ db.versions, v.toHandle = v'.toHandle) ∨
      v'.toHandle = ⟨db.nextId, logging.version⟩) (htracks : Tracks db'.versions db'.holders)
    (hwriting : db'.writing.Sublist db.writing) (hcaller : ∀ n ∈ db'.writing, n ∉ db.callerNumbers) :
    Structured comparator disk db' := by
  obtain ⟨m, descriptor, hcurrent⟩ := h.current
  obtain ⟨hvs, hid, hlogfile, hedit, hidle⟩ := hsame
  have hok := h.logging logging hlogging
  have hsubset := hok.logged_subset hlogging
  have hnext : db'.vs.nextFileNumber = db.vs.nextFileNumber := by rw [hvs]; rfl
  have hopen' : db'.vs.descriptorLog = true := by rw [hvs]; rfl
  have hclosed' : ¬db'.vs.descriptorLog = false := by simp [hopen']
  -- a file of the new version is one of the current version or of the edit
  have hfile : ∀ level, ∀ f ∈ logging.version level,
      f ∈ db.vs.current level ∨ f.number ∈ db.callerNumbers := by
    intro level f hf
    rw [hok.version_eq] at hf
    rcases mem_of_mem_editedFiles hf with hf | hf
    · exact .inl hf
    · exact .inr (hok.number_mem (level, f) (VersionEdit.mem_newAt.mp hf))
  have hvalue : ∀ v' ∈ db'.versions, ∀ level, ∀ f ∈ v'.value level,
      (∃ v ∈ db.versions, f ∈ v.value level) ∨ f.number ∈ db.callerNumbers := by
    intro v' hv' level f hf
    rcases hversions v' hv' with ⟨v, hv, heq⟩ | heq
    · have hval : v.value = v'.value := congrArg Handle.value heq
      exact .inl ⟨v, hv, hval ▸ hf⟩
    · have hval : v'.value = logging.version := congrArg Handle.value heq
      rcases hfile level f (hval ▸ hf) with hf | hf
      · obtain ⟨v, hv, hcv⟩ := h.exists_current
        have hcur : v.value = db.vs.current := congrArg Handle.value hcv
        exact .inl ⟨v, hv, hcur ▸ hf⟩
      · exact .inr hf
  obtain ⟨number, hnumber, hle, hleimm⟩ := hok.log
  have hlog : db'.vs.logNumber = number := by
    rw [hvs]
    simp [DBImpl.install, hnumber]
  have hm : m = db.vs.manifestFileNumber := by
    cases hopen : db.vs.descriptorLog with
    | true => exact hcurrent.own hopen
    | false => exact hcurrent.new hopen ⟨logging, hlogging, by simpa [DBImpl.lastStage, hopen] using hstage⟩
  refine {
    tracks := htracks
    id_lt := ?_
    numbers := ⟨?_, h.numbers.nodup.sublist hwriting, ?_, ?_⟩
    opening := fun h ↦ absurd h hclosed'
    opened := fun _ ↦ hedit
    manifest_lt := by rw [hvs]; exact h.manifest_lt
    current := ⟨m, descriptor, hcurrent.current, hcurrent.file, hcurrent.recoverable, ?_, ?_, ?_,
      fun h ↦ absurd h hclosed', fun h ↦ absurd h hclosed', by simp [hidle]⟩
    logging := by simp [hidle]
    logfile_lt := by rw [hnext, hlogfile]; exact h.logfile_lt
    logs := fun _ ↦ ⟨?_, ?_, ?_⟩ }
  · intro v' hv'
    rw [hid]
    rcases hversions v' hv' with ⟨v, hv, heq⟩ | heq
    · have hid' : v.id = v'.id := congrArg Handle.id heq
      exact (hid' ▸ h.id_lt v hv).trans (Nat.lt_succ_self _)
    · have hid' : v'.id = db.nextId := congrArg Handle.id heq
      exact hid' ▸ Nat.lt_succ_self _
  · intro v' hv' level f hf
    rw [hnext]
    rcases hvalue v' hv' level f hf with ⟨v, hv, hf⟩ | hf
    · exact h.numbers.file_lt v hv level f hf
    · exact h.numbers.writing_lt _ (db.callerNumbers_subset hf)
  · intro n hn
    rw [hnext]
    exact h.numbers.writing_lt n (hwriting.subset hn)
  · intro n hn v' hv' level f hf
    rcases hvalue v' hv' level f hf with ⟨v, hv, hf⟩ | hf
    · exact h.numbers.unlisted n (hwriting.subset hn) v hv level f hf
    · exact fun heq ↦ hcaller n hn (heq ▸ hf)
  · rw [hnext]
    exact hcurrent.recorded_lt
  · intro n hn _
    exact hcurrent.unrecorded n (hwriting.subset hn) fun hmem ↦ hcaller n hn (hsubset hmem)
  · intro _
    rw [hvs]
    exact hm
  · rw [hlogfile]
    exact hok.logfile
  · rw [hlog, hlogfile]
    exact hle
  · intro n hn
    obtain ⟨himm, hflush⟩ := himm n hn
    rw [hlog]
    refine ⟨?_, hleimm hflush n himm⟩
    cases hopen : db.vs.descriptorLog with
    | true => exact ((h.logs hopen).imm n himm).1
    | false =>
      rw [(h.opening hopen).2.2] at himm
      cases himm

section

variable (hopen : db.vs.descriptorLog = true)
include hopen

theorem Structured.writing_opened :
    db.writing = (db.flush.map Flush.number).toList ++
      (db.compaction.map CompactionWork.numbers).getD [] := by
  simp [DBImpl.writing, h.opened hopen]

theorem Structured.not_mem_callerNumbers {flush : Flush K} (hflush : db.flush = some flush) {n : ℕ}
    (hn : n ∈ (db.compaction.map CompactionWork.numbers).getD []) : n ∉ db.callerNumbers := by
  have hnodup := h.numbers.nodup
  rw [h.writing_opened hopen, hflush] at hnodup
  simp only [Option.map_some, Option.toList_some, singleton_append, nodup_cons] at hnodup
  simp only [DBImpl.callerNumbers, hopen, hflush, if_true, mem_singleton]
  rintro rfl
  exact hnodup.1 hn

variable (hlogging : db.logging = some logging)
include hlogging

omit hopen in
theorem Structured.continueOk (hstage : logging.stage = db.lastStage) :
    Structured comparator disk (State.continueOk db logging) ∧
      (State.continueOk db logging).vs.descriptorLog = true ∧
      (State.continueOk db logging).logging = none := by
  have hok := h.logging logging hlogging
  have htracks := h.tracks_install logging
  unfold State.continueOk
  cases hopen : db.vs.descriptorLog with
  | false =>
    obtain ⟨hflush, hcompaction, himm⟩ := h.opening hopen
    have hwriting : ({ db.install logging with openEdit := {} } : DBImpl K).writing = [] := by
      simp [DBImpl.writing, DBImpl.install, hflush, hcompaction]
    refine ⟨h.install hlogging hstage ⟨rfl, rfl, rfl, rfl, rfl⟩ ?_ exists_of_mem_install htracks ?_ ?_,
      rfl, rfl⟩
    · exact fun n hn ↦ ⟨hn, hflush⟩
    · simp [hwriting]
    · simp [hwriting]
  | true =>
    have hedit := h.opened hopen
    cases hflush : db.flush with
    | some flush =>
      have hbase := hok.base_released flush hflush
      have hwriting : ({ db.install logging with flush := none, imm := none } : DBImpl K).writing =
          (db.compaction.map CompactionWork.numbers).getD [] := by
        simp [DBImpl.writing, DBImpl.install, hedit]
      refine ⟨h.install hlogging hstage ⟨rfl, rfl, rfl, hedit, rfl⟩ (by simp) exists_of_mem_install
        ?_ ?_ ?_, rfl, rfl⟩
      · simpa [DBImpl.holders, DBImpl.currentVersion, DBImpl.install, hflush, hbase] using htracks
      · change List.Sublist ({ db.install logging with flush := none, imm := none } : DBImpl K).writing _
        rw [hwriting, h.writing_opened hopen]
        exact sublist_append_right _ _
      · intro n hn
        change n ∈ ({ db.install logging with flush := none, imm := none } : DBImpl K).writing at hn
        rw [hwriting] at hn
        exact h.not_mem_callerNumbers hopen hflush hn
    | none =>
      have himm : ∀ n, db.imm = some n → db.imm = some n ∧ db.flush = none := fun n hn ↦ ⟨hn, hflush⟩
      cases hcompaction : db.compaction with
      | some c =>
        have hwriting : ((db.install logging).endCompaction c).writing = [] := by
          simp [DBImpl.writing, DBImpl.install, DBImpl.endCompaction, hflush, hedit]
        refine ⟨h.install hlogging hstage ⟨rfl, rfl, rfl, hedit, rfl⟩ himm ?_ ?_ ?_ ?_, rfl, rfl⟩
        · intro v' hv'
          obtain ⟨v, hv, heq⟩ := exists_of_mem_unref v' hv'
          rcases exists_of_mem_install v hv with ⟨u, hu, heq'⟩ | heq'
          · exact .inl ⟨u, hu, heq'.trans heq⟩
          · exact .inr (heq.symm.trans heq')
        · apply Tracks.unref
          exact htracks.perm (holders_endCompaction hcompaction)
        · simp [hwriting]
        · simp [hwriting]
      | none =>
        have hwriting : (db.install logging).writing = [] := by
          simp [DBImpl.writing, DBImpl.install, hflush, hcompaction, hedit]
        refine ⟨h.install hlogging hstage ⟨rfl, rfl, rfl, hedit, rfl⟩ himm exists_of_mem_install htracks
          ?_ ?_, rfl, rfl⟩
        · simp [hwriting]
        · simp [hwriting]

theorem Structured.flushNotLogged {flush : Flush K} (hflush : db.flush = some flush) :
    Structured comparator disk { db with flush := none, logging := none } := by
  have hbase := (h.logging logging hlogging).base_released flush hflush
  have hwriting : ({ db with flush := none, logging := none } : DBImpl K).writing =
      (db.compaction.map CompactionWork.numbers).getD [] := by
    simp [DBImpl.writing, h.opened hopen]
  refine h.failLogging hopen hlogging ⟨rfl, rfl, rfl, rfl, rfl, rfl⟩ (fun v hv ↦ ⟨v, hv, rfl⟩) ?_ ?_ ?_
  · have htracks := h.tracks
    simpa [DBImpl.holders, DBImpl.currentVersion, hflush, hbase] using htracks
  · rw [hwriting, h.writing_opened hopen]
    exact sublist_append_right _ _
  · intro n hn
    rw [hwriting] at hn
    exact h.not_mem_callerNumbers hopen hflush hn

theorem Structured.compactionNotLogged (hflush : db.flush = none) (hcompaction : db.compaction = some c) :
    Structured comparator disk (({ db with logging := none } : DBImpl K).endCompaction c) := by
  have hwriting : (({ db with logging := none } : DBImpl K).endCompaction c).writing = [] := by
    simp [DBImpl.writing, DBImpl.endCompaction, hflush, h.opened hopen]
  refine h.failLogging hopen hlogging ⟨rfl, rfl, rfl, rfl, rfl, rfl⟩ exists_of_mem_unref ?_ ?_ ?_
  · apply Tracks.unref
    exact h.tracks.perm (holders_endCompaction hcompaction)
  · simp [hwriting]
  · simp [hwriting]

theorem Structured.notLogged (hflush : db.flush = none) (hcompaction : db.compaction = none) :
    Structured comparator disk { db with logging := none } := by
  have hwriting : ({ db with logging := none } : DBImpl K).writing = [] := by
    simp [DBImpl.writing, hflush, hcompaction, h.opened hopen]
  refine h.failLogging hopen hlogging ⟨rfl, rfl, rfl, rfl, rfl, rfl⟩ (fun v hv ↦ ⟨v, hv, rfl⟩) h.tracks
    ?_ ?_
  · simp [hwriting]
  · simp [hwriting]

end

/-- What a process leaves behind. -/
theorem Structured.closed : Closed disk := by
  obtain ⟨m, descriptor, hcurrent⟩ := h.current
  intro number hnumber
  rw [hcurrent.current] at hnumber
  cases hnumber
  exact ⟨descriptor, hcurrent.file, hcurrent.recoverable⟩

end

theorem closed_newDB {state : State K} (hcurrent : state.disk.current = none) (result : NewDBResult) :
    Closed (state.newDB comparator result).disk := by
  intro number hnumber
  cases result with
  | ok =>
    cases hnumber
    refine ⟨⟨[newDBEdit K comparator], false, false⟩, ?_, 2, rfl, by omega, ?_⟩
    · simp [State.newDB, Directory.setDescriptor]
    rintro n ⟨record, hrecord, p, hp, -⟩
    rw [mem_singleton.mp hrecord] at hp
    cases hp
  | failedDescriptor | failedCurrent =>
    change state.disk.current = some number at hnumber
    rw [hcurrent] at hnumber
    cases hnumber

theorem StateOk.of_structured {ok : Bool} (h : Structured comparator disk db) :
    StateOk comparator ⟨disk, some db, ok⟩ := by
  constructor
  · rintro ⟨⟩
  · rintro _ ⟨⟩
    exact h

theorem StateOk.of_closed {ok : Bool} (h : Closed disk) : StateOk comparator ⟨disk, none, ok⟩ := by
  constructor
  · exact fun _ ↦ h
  · rintro _ ⟨⟩

/-- `LogAndApply` in `CompactMemTable`. -/
theorem Structured.flushLogging (h : Structured comparator disk db) (hopen : db.vs.descriptorLog = true)
    (hidle : db.logging = none) {base : Handle (Files K)} {written : Bool}
    (hflush : db.flush = some ⟨number, some base, written⟩) {newFiles : List (ℕ × FileMetaData K)}
    (hnumber : ∀ p ∈ newFiles, p.2.number = number) (hlength : newFiles.length ≤ 1) :
    Structured comparator disk
      ((State.finishFlush.released db ⟨number, some base, written⟩ base).startLogging
        (flushEdit db newFiles) (editedFiles db.vs.current (flushEdit db newFiles))) := by
  have hlogs := h.logs hopen
  have hclosed : ¬db.vs.descriptorLog = false := by simp [hopen]
  refine (h.released hopen hidle hflush).startLogging hidle ?_ ?_ le_rfl ?_ hlogs.mem
    (fun h ↦ absurd h hclosed) ?_
  · intro p hp
    simp [DBImpl.callerNumbers, State.finishFlush.released, hopen, hnumber p hp]
  · match newFiles, hlength with
    | [], _ => exact nodup_nil
    | [p], _ => exact nodup_singleton _
  · rintro ⟨⟩
  · rintro _ ⟨⟩
    rfl

theorem StateOk.step {state state' : State K} {action : Action K} (h : StateOk comparator state)
    (hstep : Transition comparator state action state') : StateOk comparator state' := by
  have hdisk := h.structured
  cases hstep with
  | newDB hdb hcurrent =>
    rename_i result
    have hnone : (state.newDB comparator result).db = none := by
      cases result <;> exact hdb
    exact ⟨fun _ ↦ closed_newDB hcurrent result, fun db heq ↦ absurd (hnone.symm.trans heq) (by simp)⟩
  | recover hdb hcurrent hfile _ hrecover =>
    exact .of_structured (.recovered (h.closed hdb) hcurrent hfile hrecover)
  | crash hdb => exact .of_closed (hdisk _ hdb).closed
  | spill hdb hclosed hidle hnumber => exact .of_structured ((hdisk _ hdb).spill hidle hclosed hnumber)
  | markFileNumberUsed hdb hclosed hidle =>
    exact .of_structured ((hdisk _ hdb).markFileNumberUsed hidle hclosed _)
  | openLog hdb hclosed hidle hopened =>
    subst hopened
    have hok := (hdisk _ hdb).openLog hidle hclosed
    obtain ⟨hflush, hcompaction, himm⟩ := hok.opening hclosed
    refine .of_structured (hok.startLogging hidle ?_ ?_ le_rfl ?_ (newLog_self _ _) (fun _ ↦ rfl) ?_)
    · intro p hp
      simp only [DBImpl.callerNumbers, DBImpl.newFileNumber, VersionSet.newFileNumber, hclosed]
      exact mem_map_of_mem hp
    · exact hok.numbers.nodup.sublist ((sublist_append_right _ _).trans
        (sublist_append_right _ _))
    · intro _ n hn
      rw [himm] at hn
      cases hn
    · intro flush hsome
      rw [hflush] at hsome
      cases hsome
  | switchMemTable hdb hopen _ => exact .of_structured ((hdisk _ hdb).switchMemTable hopen)
  | pin hdb _ => exact .of_structured (hdisk _ hdb).pin
  | unpin hdb _ hreader => exact .of_structured ((hdisk _ hdb).unpin hreader)
  | beginFlush hdb hopen hidle hflush =>
    exact .of_structured ((hdisk _ hdb).beginFlush hopen hidle hflush)
  | writeTable hdb hopen hidle hflush =>
    exact .of_structured ((hdisk _ hdb).writeTable hopen hidle hflush)
  | flushBuilt hdb hopen hidle hflush hnumber =>
    exact .of_structured ((hdisk _ hdb).flushLogging hopen hidle hflush (by simp [hnumber]) (by simp))
  | flushEmpty hdb hopen hidle hflush =>
    exact .of_structured (((hdisk _ hdb).flushLogging hopen hidle hflush (by simp) (by simp)).of_tables _ _)
  | flushFailed hdb hopen hidle hflush =>
    have hok := ((hdisk _ hdb).released hopen hidle hflush).endFlush hopen hidle rfl
    refine .of_structured ?_
    split
    · exact hok.of_tables _ _
    · exact hok
  | flushShuttingDown hdb hopen hidle hflush =>
    exact .of_structured (((hdisk _ hdb).released hopen hidle hflush).endFlush hopen hidle rfl)
  | beginCompaction hdb hopen hidle _ hcompaction =>
    exact .of_structured ((hdisk _ hdb).beginCompaction hopen hidle hcompaction _ _ _ _)
  | openOutput hdb hopen hidle hflush hcompaction hbuilding =>
    exact .of_structured ((hdisk _ hdb).openOutput hopen hidle hflush hcompaction hbuilding)
  | syncOutput hdb _ _ =>
    rw [hdb]
    exact .of_structured ((hdisk _ hdb).of_tables _ _)
  | finishOutput hdb hopen hidle _ hcompaction hbuilding _ =>
    exact .of_structured ((hdisk _ hdb).finishOutput hopen hidle hcompaction hbuilding)
  | failCompaction hdb hopen hidle _ hcompaction hcounted =>
    subst hcounted
    refine .of_structured ?_
    split
    · exact (((hdisk _ hdb).newFileNumber hopen hidle).endCompaction hopen hidle
        hcompaction).deleteObsoleteFiles hopen hidle
    · exact ((hdisk _ hdb).endCompaction hopen hidle hcompaction).deleteObsoleteFiles hopen hidle
  | installCompactionResults hdb hopen hidle hflush hcompaction hbuilding =>
    rename_i db c
    have hok := hdisk _ hdb
    have hlogs := hok.logs hopen
    have hnumbers : c.edit.newFiles.map (fun p ↦ p.2.number) = c.numbers := by
      simp [CompactionWork.edit, VersionEdit.ofCompaction, CompactionWork.numbers, hbuilding]
    have hcaller : db.callerNumbers = c.numbers := by
      simp [DBImpl.callerNumbers, hopen, hflush, hcompaction]
    refine .of_structured (hok.startLogging hidle ?_ ?_ hlogs.mem_le ?_ hlogs.mem ?_ ?_)
    · intro p hp
      rw [hcaller, ← hnumbers]
      exact mem_map_of_mem hp
    · have hnodup := hok.numbers.nodup
      rw [hok.writing_opened hopen, hflush, hcompaction] at hnodup
      rw [hnumbers]
      exact hnodup
    · exact fun _ n hn ↦ (hlogs.imm n hn).2
    · exact fun hclosed ↦ absurd (hopen.symm.trans hclosed) (by simp)
    · simp [hflush]
  | appendRecord hdb hlogging hstage =>
    exact .of_structured ((hdisk _ hdb).appendRecord hlogging hstage _)
  | syncDescriptor hdb hlogging hstage =>
    exact .of_structured ((hdisk _ hdb).syncDescriptor hlogging hstage _)
  | setCurrentFile hdb hlogging hstage hclosed =>
    exact .of_structured ((hdisk _ hdb).setCurrentFile hlogging hstage hclosed _)
  | logReturnOk hdb hlogging hstage =>
    obtain ⟨hok, hopen, hidle⟩ := (hdisk _ hdb).continueOk hlogging hstage
    exact .of_structured (hok.deleteObsoleteFiles hopen hidle)
  | openFailed hdb hlogging hstage hclosed =>
    obtain ⟨m, descriptor, hcurrent⟩ := (hdisk _ hdb).current
    have hunset := not_currentSet hlogging (by simp [hstage])
    apply StateOk.of_closed
    intro number hnumber
    change state.disk.current = some number at hnumber
    rw [hcurrent.current] at hnumber
    cases hnumber
    exact ⟨descriptor, (update_of_ne (hcurrent.old hclosed hunset).ne _ _).trans hcurrent.file,
      hcurrent.recoverable⟩
  | flushNotLogged hdb hlogging _ hopen hflush =>
    exact .of_structured ((hdisk _ hdb).flushNotLogged hopen hlogging hflush)
  | compactionNotLogged hdb hlogging _ hopen hflush hcompaction =>
    exact .of_structured
      (((hdisk _ hdb).compactionNotLogged hopen hlogging hflush hcompaction).deleteObsoleteFiles hopen rfl)
  | notLogged hdb hlogging _ hopen hflush hcompaction =>
    exact .of_structured ((hdisk _ hdb).notLogged hopen hlogging hflush hcompaction)

end LevelDB.Db.Storage
