import LevelDB.Db.StorageTables

/-!
# What has been synced

`FinishCompactionOutputFile` syncs an output before it is installed, and `LogAndApply` syncs the
descriptor before it returns.  `BuildTable` only closes the table of a flush, and `NewDB` only closes
the first descriptor.  In runs without these two, every table that is named by a version or by the
descriptor of `CURRENT` has been synced, and so has that descriptor when a call has returned.
-/

namespace LevelDB.Db.Storage

open Format TableFiles VersionBuilder Manifest Library RefCount List Function

variable {K : Type*} {comparator : String} {disk : Directory K} {db db' : DBImpl K} {logging : Logging K}
  {state : State K}
  {disk' : Directory K} {number : ℕ}

/-- The numbers of the tables that a version, the descriptor of `CURRENT`, a finished output or the edit
of `LogAndApply` names. -/
inductive Named (disk : Directory K) (db : DBImpl K) : ℕ → Prop
  | listed {v : Counted (Files K)} {level : ℕ} {f : FileMetaData K} :
      v ∈ db.versions → f ∈ v.value level → Named disk db f.number
  | recorded {number n : ℕ} {descriptor : Descriptor K} : disk.current = some number →
      disk.descriptors number = some descriptor → Recorded descriptor.records n → Named disk db n
  | output {c : CompactionWork K} {f : FileMetaData K} :
      db.compaction = some c → f ∈ c.outputs → Named disk db f.number
  | logged {logging : Logging K} {p : ℕ × FileMetaData K} :
      db.logging = some logging → p ∈ logging.edit.newFiles → Named disk db p.2.number

/-- The tables that the descriptor of `CURRENT` names have been synced. -/
def RecordedSynced (disk : Directory K) : Prop :=
  ∀ number descriptor n, disk.current = some number → disk.descriptors number = some descriptor →
    Recorded descriptor.records n → disk.tableSynced n = true

def CurrentSynced (disk : Directory K) : Prop :=
  ∃ number descriptor, disk.current = some number ∧ disk.descriptors number = some descriptor ∧
    descriptor.synced = true

structure SyncOk (state : State K) : Prop where
  closed : state.db = none → RecordedSynced state.disk
  named : ∀ db, state.db = some db → ∀ n, Named state.disk db n → state.disk.tableSynced n = true
  /-- A call of `LogAndApply` has not returned. -/
  calling : ∀ db logging, state.db = some db → db.logging = some logging →
    logging.stage ≠ .currentSet → state.returnedOk = false
  descriptor : ∀ db logging, state.db = some db → db.logging = some logging →
    logging.stage = .synced → ∃ descriptor,
      state.disk.descriptors db.vs.manifestFileNumber = some descriptor ∧ descriptor.synced = true
  set : ∀ db logging, state.db = some db → db.logging = some logging →
    logging.stage = .currentSet → state.returnedOk = true
  returned : state.returnedOk = true → CurrentSynced state.disk

theorem SyncOk.outputs (h : SyncOk state) (hdb : state.db = some db) :
    ∀ c, db.compaction = some c → ∀ f ∈ c.outputs, state.disk.tableSynced f.number = true :=
  fun _ hc _ hf ↦ h.named db hdb _ (.output hc hf)

/-- A step that touches neither the descriptors nor the call of `LogAndApply`. -/
theorem SyncOk.frame (h : SyncOk state) (hdb : state.db = some db)
    (hdisk : disk'.current = state.disk.current ∧ disk'.descriptors = state.disk.descriptors)
    (hsame : db'.logging = db.logging ∧ db'.vs.manifestFileNumber = db.vs.manifestFileNumber)
    (hversions : ∀ v' ∈ db'.versions, ∃ v ∈ db.versions, v.toHandle = v'.toHandle)
    (hsynced : ∀ n, Named state.disk db n → disk'.tableSynced n = true)
    (houtputs : ∀ c, db'.compaction = some c → ∀ f ∈ c.outputs, disk'.tableSynced f.number = true) :
    SyncOk { state with disk := disk', db := some db' } := by
  obtain ⟨hcurrent, hdescriptors⟩ := hdisk
  obtain ⟨hlogging, hmanifest⟩ := hsame
  refine ⟨by rintro ⟨⟩, ?_, ?_, ?_, ?_, ?_⟩
  · rintro _ ⟨⟩ n hn
    cases hn with
    | listed hv hf =>
      obtain ⟨v, hv, heq⟩ := hversions _ hv
      have hvalue : v.value = _ := congrArg Handle.value heq
      exact hsynced _ (.listed hv (hvalue ▸ hf))
    | recorded hnumber hfile hrecorded =>
      exact hsynced n (.recorded (hcurrent ▸ hnumber) (hdescriptors ▸ hfile) hrecorded)
    | output hc hf => exact houtputs _ hc _ hf
    | logged hsome hp => exact hsynced _ (.logged (hlogging ▸ hsome) hp)
  · rintro _ logging ⟨⟩ hsome
    exact h.calling db logging hdb (hlogging ▸ hsome)
  · rintro _ logging ⟨⟩ hsome
    change logging.stage = .synced → ∃ descriptor, disk'.descriptors db'.vs.manifestFileNumber = _ ∧ _
    rw [hdescriptors, hmanifest]
    exact h.descriptor db logging hdb (hlogging ▸ hsome)
  · rintro _ logging ⟨⟩ hsome
    exact h.set db logging hdb (hlogging ▸ hsome)
  · intro hreturned
    unfold CurrentSynced
    change ∃ number descriptor, disk'.current = _ ∧ disk'.descriptors _ = _ ∧ _
    rw [hcurrent, hdescriptors]
    exact h.returned hreturned

/-- A step that changes only the references and logs. -/
theorem SyncOk.of_refs (h : SyncOk state) (hdb : state.db = some db)
    (hdisk : disk'.current = state.disk.current ∧ disk'.descriptors = state.disk.descriptors ∧
      disk'.tableSynced = state.disk.tableSynced)
    (hsame : db'.logging = db.logging ∧ db'.vs.manifestFileNumber = db.vs.manifestFileNumber ∧
      db'.compaction = db.compaction)
    (hversions : ∀ v' ∈ db'.versions, ∃ v ∈ db.versions, v.toHandle = v'.toHandle) :
    SyncOk { state with disk := disk', db := some db' } := by
  obtain ⟨hcurrent, hdescriptors, hsynced⟩ := hdisk
  obtain ⟨hlogging, hmanifest, hcompaction⟩ := hsame
  refine h.frame hdb ⟨hcurrent, hdescriptors⟩ ⟨hlogging, hmanifest⟩ hversions ?_ ?_
  · rw [hsynced]
    exact h.named db hdb
  · rw [hcompaction, hsynced]
    exact h.outputs hdb

theorem tableSynced_newTable {n number : ℕ} (h : disk.tableSynced n = true) (hne : n ≠ number) :
    (disk.newTable number).tableSynced n = true :=
  (update_of_ne hne _ _).trans h

/-- A table whose number is not named is created. -/
theorem SyncOk.newTable (h : SyncOk state) (hdb : state.db = some db)
    (hnew : ∀ n, Named state.disk db n → n ≠ number)
    (hsame : db'.logging = db.logging ∧ db'.vs.manifestFileNumber = db.vs.manifestFileNumber)
    (hversions : db'.versions = db.versions)
    (houtputs : ∀ c', db'.compaction = some c' → ∃ c, db.compaction = some c ∧ c'.outputs = c.outputs) :
    SyncOk { state with disk := state.disk.newTable number, db := some db' } := by
  refine h.frame hdb ⟨rfl, rfl⟩ hsame (fun v hv ↦ ⟨v, hversions ▸ hv, rfl⟩) ?_ ?_
  · exact fun n hn ↦ tableSynced_newTable (h.named _ hdb n hn) (hnew n hn)
  · intro c' hc' f hf
    obtain ⟨c, hc, heq⟩ := houtputs c' hc'
    rw [heq] at hf
    exact tableSynced_newTable (h.outputs hdb c hc f hf) (hnew _ (.output hc hf))

theorem tableSynced_syncTable {n : ℕ} (h : disk.tableSynced n = true) (number : ℕ) :
    (disk.syncTable number).tableSynced n = true := by
  change update disk.tableSynced number true n = true
  rw [update_apply]
  split
  · rfl
  · exact h

theorem SyncOk.startLogging (h : SyncOk state) (hdb : state.db = some db)
    (hdisk : disk'.current = state.disk.current ∧ disk'.descriptors = state.disk.descriptors ∧
      disk'.tableSynced = state.disk.tableSynced)
    (hversions : ∀ v' ∈ db'.versions, ∃ v ∈ db.versions, v.toHandle = v'.toHandle)
    (houtputs : db'.compaction = db.compaction) {edit : VersionEdit K}
    (hedit : ∀ p ∈ edit.newFiles, Named state.disk db p.2.number) (version : Files K) :
    SyncOk ⟨disk', some (db'.startLogging edit version), false⟩ := by
  obtain ⟨hcurrent, hdescriptors, hsynced⟩ := hdisk
  refine ⟨by rintro ⟨⟩, ?_, fun _ _ _ _ _ ↦ rfl, ?_, ?_, by rintro ⟨⟩⟩
  · rintro _ ⟨⟩ n hn
    change disk'.tableSynced n = true
    rw [hsynced]
    apply h.named db hdb n
    cases hn with
    | listed hv hf =>
      obtain ⟨v, hv, heq⟩ := hversions _ hv
      have hvalue : v.value = _ := congrArg Handle.value heq
      exact .listed hv (hvalue ▸ hf)
    | recorded hnumber hfile hrecorded =>
      exact .recorded (hcurrent ▸ hnumber) (hdescriptors ▸ hfile) hrecorded
    | output hc hf => exact .output (houtputs ▸ hc) hf
    | logged hsome hp =>
      cases hsome
      exact hedit _ hp
  · rintro _ _ ⟨⟩ ⟨⟩ hstage
    cases hstage
  · rintro _ _ ⟨⟩ ⟨⟩ hstage
    cases hstage

theorem SyncOk.atStage (h : SyncOk state) (hdb : state.db = some db) (hlogging : db.logging = some logging)
    (hbefore : logging.stage ≠ .currentSet)
    {stage : Stage} (hstage : stage ≠ .currentSet) (descriptors : ℕ → Option (Descriptor K))
    (hrecorded : ∀ number descriptor n, state.disk.current = some number →
      descriptors number = some descriptor → Recorded descriptor.records n → Named state.disk db n)
    (hsynced : stage = .synced → ∃ descriptor,
      descriptors db.vs.manifestFileNumber = some descriptor ∧ descriptor.synced = true) :
    SyncOk { state with
      disk := { state.disk with descriptors := descriptors }
      db := some (db.atStage logging stage) } := by
  have hcalling := h.calling db logging hdb hlogging hbefore
  refine ⟨by rintro ⟨⟩, ?_, fun _ _ _ _ _ ↦ hcalling, ?_, ?_, ?_⟩
  · rintro _ ⟨⟩ n hn
    apply h.named db hdb n
    cases hn with
    | listed hv hf => exact .listed hv hf
    | recorded hcurrent hfile hmem => exact hrecorded _ _ n hcurrent hfile hmem
    | output hc hf => exact .output hc hf
    | logged hsome hp =>
      cases hsome
      exact .logged hlogging hp
  · rintro _ _ ⟨⟩ ⟨⟩ heq
    exact hsynced heq
  · rintro _ _ ⟨⟩ ⟨⟩ heq
    exact absurd heq hstage
  · intro hreturned
    change state.returnedOk = true at hreturned
    rw [hcalling] at hreturned
    cases hreturned

theorem descriptors_deleteObsoleteFiles {descriptor : Descriptor K}
    (hfile : (deleteObsoleteFiles disk db).descriptors number = some descriptor) :
    disk.descriptors number = some descriptor := by
  simp only [deleteObsoleteFiles] at hfile
  split at hfile
  · exact hfile
  · cases hfile

/-- The descriptor of the process is kept. -/
theorem CurrentSynced.deleteObsoleteFiles (h : CurrentSynced disk)
    (hcurrent : disk.current = some db.vs.manifestFileNumber) :
    CurrentSynced (deleteObsoleteFiles disk db) := by
  obtain ⟨number, descriptor, hnumber, hfile, hsynced⟩ := h
  refine ⟨number, descriptor, hnumber, ?_, hsynced⟩
  cases hcurrent.symm.trans hnumber
  simp [Storage.deleteObsoleteFiles, hfile]

theorem SyncOk.of_closed {ok : Bool} (h : RecordedSynced disk) (hreturned : ok = true → CurrentSynced disk) :
    SyncOk ⟨disk, none, ok⟩ where
  closed _ := h
  named := by rintro _ ⟨⟩
  calling := by rintro _ _ ⟨⟩
  descriptor := by rintro _ _ ⟨⟩
  set := by rintro _ _ ⟨⟩
  returned := hreturned

/-- A `NewDB` that fails does not set `CURRENT`. -/
theorem SyncOk.newDB (hnone : state.db = none) (hcurrent : state.disk.current = none) {result : NewDBResult}
    (hresult : result ≠ .ok) : SyncOk (state.newDB comparator result) := by
  cases result with
  | ok => exact absurd rfl hresult
  | failedDescriptor | failedCurrent =>
    unfold State.newDB
    simp only [hnone]
    refine .of_closed ?_ (by rintro ⟨⟩)
    intro number descriptor n hnumber
    cases hcurrent.symm.trans hnumber

/-- What a process leaves when it ends. -/
theorem SyncOk.recordedSynced (h : SyncOk state) (hdb : state.db = some db) : RecordedSynced state.disk :=
  fun _ _ n hcurrent hfile hrecorded ↦ h.named _ hdb n (.recorded hcurrent hfile hrecorded)

theorem RecordedSynced.removeDescriptor (h : RecordedSynced disk) :
    RecordedSynced (disk.setDescriptor number none) := by
  intro m descriptor n hcurrent hfile hrecorded
  have hfile : update disk.descriptors number none m = some descriptor := hfile
  rw [update_apply] at hfile
  split at hfile
  · cases hfile
  · exact h m descriptor n hcurrent hfile hrecorded

variable [LinearOrder K]

theorem Structured.named_lt (h : Structured comparator disk db) {n : ℕ} (hn : Named disk db n) :
    n < db.vs.nextFileNumber := by
  cases hn with
  | listed hv hf => exact h.numbers.file_lt _ hv _ _ hf
  | recorded hcurrent hfile hrecorded =>
    obtain ⟨number, descriptor, hm⟩ := h.current
    rw [hm.current] at hcurrent
    cases hcurrent
    rw [hm.file] at hfile
    cases hfile
    exact hm.recorded_lt n hrecorded
  | output hc hf =>
    apply h.numbers.writing_lt
    apply mem_append_right
    apply mem_append_left
    rw [hc]
    exact mem_append_left _ (mem_map_of_mem hf)
  | logged hlogging hp =>
    exact h.numbers.writing_lt _ (db.callerNumbers_subset ((h.logging _ hlogging).number_mem _ hp))

/-- The table of a flush is not named before `LogAndApply` is called. -/
theorem Structured.flush_ne_named (h : Structured comparator disk db) (hidle : db.logging = none)
    {flush : Flush K} (hflush : db.flush = some flush) {n : ℕ} (hn : Named disk db n) : n ≠ flush.number := by
  have hwriting : flush.number ∈ db.writing := by simp [DBImpl.writing, hflush]
  cases hn with
  | listed hv hf => exact h.numbers.unlisted _ hwriting _ hv _ _ hf
  | recorded hcurrent hfile hrecorded =>
    obtain ⟨number, descriptor, hm⟩ := h.current
    rw [hm.current] at hcurrent
    cases hcurrent
    rw [hm.file] at hfile
    cases hfile
    rintro rfl
    exact hm.unrecorded _ hwriting (by simp [DBImpl.logged, hidle]) hrecorded
  | output hc hf =>
    intro heq
    apply h.flush_not_mem hflush
    apply mem_append_left
    rw [hc, ← heq]
    exact mem_append_left _ (mem_map_of_mem hf)
  | logged hlogging _ =>
    rw [hidle] at hlogging
    cases hlogging

/-- The version that `LogAndApply` is to install names nothing new. -/
theorem Structured.named_version (h : Structured comparator disk db) (hlogging : db.logging = some logging)
    {level : ℕ} {f : FileMetaData K} (hf : f ∈ logging.version level) : Named disk db f.number := by
  rw [(h.logging logging hlogging).version_eq] at hf
  rcases mem_of_mem_editedFiles hf with hf | hf
  · obtain ⟨v, hv, heq⟩ := h.exists_current
    have hvalue : v.value = db.vs.current := congrArg Handle.value heq
    exact .listed hv (hvalue ▸ hf)
  · exact .logged hlogging (VersionEdit.mem_newAt.mp hf)

section

variable (h : SyncOk state)
include h

section

variable (hdb : state.db = some db) (hok : Structured comparator state.disk db)
include hdb hok

theorem SyncOk.appendRecord (hlogging : db.logging = some logging) (hstart : logging.stage = .start)
    (result : AppendResult) :
    SyncOk { state with
      disk := state.disk.setDescriptor db.vs.manifestFileNumber
        ((if db.vs.descriptorLog then state.disk.descriptors db.vs.manifestFileNumber
          else some ⟨[db.vs.writeSnapshot comparator], false, false⟩).map
            fun d ↦ d.append logging.edit result)
      db := some (db.atStage logging (if result = .ok then .appended else .failed)) } := by
  obtain ⟨m, old, hm⟩ := hok.current
  have hunset : ¬db.CurrentSet := not_currentSet hlogging (by simp [hstart])
  refine h.atStage hdb hlogging (by simp [hstart]) (by split <;> simp) _ ?_ (by split <;> simp)
  intro number descriptor n hcurrent hfile hrecorded
  have hnumber : number = m := Option.some.inj (hcurrent.symm.trans hm.current)
  subst hnumber
  cases hopen : db.vs.descriptorLog with
  | false =>
    rw [update_of_ne (hm.old hopen hunset).ne] at hfile
    exact .recorded hcurrent hfile hrecorded
  | true =>
    have heq := hm.own hopen
    simp only [hopen, if_true, ← heq, update_self, hm.file, Option.map_some] at hfile
    cases hfile
    rcases append_records old logging.edit result with hrecords | hrecords
    · exact .recorded hcurrent hm.file (hrecords ▸ hrecorded)
    · rw [hrecords] at hrecorded
      rcases recorded_append hrecorded with hold | hnew
      · exact .recorded hcurrent hm.file hold
      · obtain ⟨p, hp, rfl⟩ := mem_map.mp hnew
        exact .logged hlogging hp

theorem SyncOk.syncDescriptor (hlogging : db.logging = some logging) (hstage : logging.stage = .appended)
    (ok : Bool) : SyncOk { state with
      disk := if ok then state.disk.setDescriptor db.vs.manifestFileNumber
          ((state.disk.descriptors db.vs.manifestFileNumber).map fun d ↦ { d with synced := true })
        else state.disk
      db := some (db.atStage logging (if ok then .synced else .failed)) } := by
  have hbefore : logging.stage ≠ .currentSet := by simp [hstage]
  cases ok with
  | false =>
    refine h.atStage hdb hlogging hbefore (by simp) state.disk.descriptors ?_ (by simp)
    exact fun number descriptor n hcurrent hfile hrecorded ↦ .recorded hcurrent hfile hrecorded
  | true =>
    refine h.atStage hdb hlogging hbefore (by simp) _ ?_ ?_
    · intro number descriptor n hcurrent hfile hrecorded
      rw [update_apply] at hfile
      split at hfile
      · rename_i heq
        obtain ⟨old, hold, rfl⟩ := Option.map_eq_some_iff.mp hfile
        rw [← heq] at hold
        have holdRecorded : Recorded old.records n := hrecorded
        exact .recorded hcurrent hold holdRecorded
      · exact .recorded hcurrent hfile hrecorded
    · intro _
      have hfile : ∃ descriptor, state.disk.descriptors db.vs.manifestFileNumber = some descriptor := by
        cases hopen : db.vs.descriptorLog with
        | true =>
          obtain ⟨m, old, hm⟩ := hok.current
          exact ⟨old, hm.own hopen ▸ hm.file⟩
        | false =>
          obtain ⟨new, hnew, -⟩ := (hok.logging logging hlogging).new_descriptor hopen (.inl hstage)
          exact ⟨new, hnew⟩
      obtain ⟨descriptor, hfile⟩ := hfile
      refine ⟨{ descriptor with synced := true }, ?_, rfl⟩
      rw [update_self, hfile]
      rfl

theorem SyncOk.setCurrentFile (hlogging : db.logging = some logging) (hstage : logging.stage = .synced)
    (hclosed : db.vs.descriptorLog = false) (ok : Bool) : SyncOk {
      disk := if ok then { state.disk with current := some db.vs.manifestFileNumber } else state.disk
      db := some (db.atStage logging (if ok then .currentSet else .failed))
      returnedOk := ok } := by
  have hbefore : logging.stage ≠ .currentSet := by simp [hstage]
  cases ok with
  | false =>
    have hfailed : SyncOk { state with
        disk := { state.disk with descriptors := state.disk.descriptors }
        db := some (db.atStage logging .failed) } :=
      h.atStage hdb hlogging hbefore (by simp) _
        (fun number descriptor n hcurrent hfile hrecorded ↦ .recorded hcurrent hfile hrecorded) (by simp)
    rw [h.calling db logging hdb hlogging hbefore] at hfailed
    exact hfailed
  | true =>
    obtain ⟨new, hnew, hrecords⟩ := (hok.logging logging hlogging).new_descriptor hclosed (.inr hstage)
    obtain ⟨descriptor, hfile, hsynced⟩ := h.descriptor db logging hdb hlogging hstage
    refine ⟨by rintro ⟨⟩, ?_, ?_, ?_, fun _ _ _ _ _ ↦ rfl, fun _ ↦ ⟨_, descriptor, rfl, hfile, hsynced⟩⟩
    · rintro _ ⟨⟩ n hn
      apply h.named db hdb n
      cases hn with
      | listed hv hf => exact .listed hv hf
      | recorded hcurrent hfile hrecorded =>
        cases hcurrent
        cases hnew.symm.trans hfile
        rw [hrecords] at hrecorded
        change Recorded ([db.vs.writeSnapshot comparator] ++ [logging.edit]) n at hrecorded
        rcases recorded_append hrecorded with hold | hadded
        · obtain ⟨level, f, hf, rfl⟩ := recorded_writeSnapshot hold
          obtain ⟨v, hv, heq⟩ := hok.exists_current
          have hvalue : v.value = db.vs.current := congrArg Handle.value heq
          exact .listed hv (hvalue ▸ hf)
        · obtain ⟨p, hp, rfl⟩ := mem_map.mp hadded
          exact .logged hlogging hp
      | output hc hf => exact .output hc hf
      | logged hsome hp =>
        cases hsome
        exact .logged hlogging hp
    · rintro _ _ ⟨⟩ ⟨⟩ heq
      exact absurd rfl heq
    · rintro _ _ ⟨⟩ ⟨⟩ heq
      cases heq

theorem SyncOk.logReturn {ok : Bool} (hidle : db'.logging = none)
    (hdisk : disk'.current = state.disk.current ∧ disk'.tableSynced = state.disk.tableSynced ∧
      ∀ number descriptor, disk'.descriptors number = some descriptor →
        state.disk.descriptors number = some descriptor)
    (hversions : ∀ v' ∈ db'.versions, (∃ v ∈ db.versions, v.toHandle = v'.toHandle) ∨
      ∃ logging, db.logging = some logging ∧ v'.value = logging.version)
    (houtputs : ∀ c, db'.compaction = some c → db.compaction = some c)
    (hreturned : ok = true → CurrentSynced disk') : SyncOk ⟨disk', some db', ok⟩ := by
  obtain ⟨hcurrent, hsynced, hdescriptors⟩ := hdisk
  refine ⟨by rintro ⟨⟩, ?_, ?_, ?_, ?_, hreturned⟩
  · rintro _ ⟨⟩ n hn
    change disk'.tableSynced n = true
    rw [hsynced]
    apply h.named db hdb n
    cases hn with
    | listed hv hf =>
      rcases hversions _ hv with ⟨v, hv, heq⟩ | ⟨logging, hlogging, heq⟩
      · have hvalue : v.value = _ := congrArg Handle.value heq
        exact .listed hv (hvalue ▸ hf)
      · exact hok.named_version hlogging (heq ▸ hf)
    | recorded hnumber hfile hrecorded =>
      exact .recorded (hcurrent.symm.trans hnumber) (hdescriptors _ _ hfile) hrecorded
    | output hc hf => exact .output (houtputs _ hc) hf
    | logged hsome _ => cases hidle.symm.trans hsome
  all_goals
    rintro _ logging ⟨⟩ hsome
    cases hidle.symm.trans hsome

/-- After a success the descriptor that `CURRENT` names has been synced, and it is kept. -/
theorem SyncOk.currentSynced (hlogging : db.logging = some logging) (hstage : logging.stage = db.lastStage) :
    CurrentSynced (deleteObsoleteFiles state.disk (State.continueOk db logging)) := by
  obtain ⟨m, old, hm⟩ := hok.current
  have hspec := continueOk_spec db logging
  cases hopen : db.vs.descriptorLog with
  | true =>
    have hsynced : logging.stage = .synced := by simpa [DBImpl.lastStage, hopen] using hstage
    obtain ⟨descriptor, hfile, htrue⟩ := h.descriptor db logging hdb hlogging hsynced
    have hcurrent := hm.own hopen ▸ hm.current
    apply CurrentSynced.deleteObsoleteFiles ⟨_, descriptor, hcurrent, hfile, htrue⟩
    rw [hspec.1, hcurrent]
  | false =>
    have hset : logging.stage = .currentSet := by simpa [DBImpl.lastStage, hopen] using hstage
    apply (h.returned (h.set db logging hdb hlogging hset)).deleteObsoleteFiles
    rw [hspec.1, hm.current, hm.new hopen ⟨logging, hlogging, hset⟩]

end

theorem SyncOk.recover (hnone : state.db = none) {descriptor : Descriptor K}
    (hcurrent : state.disk.current = some number) (hfile : state.disk.descriptors number = some descriptor)
    {vs : VersionSet K} (hrecover : Manifest.recover comparator descriptor.records = .ok vs) :
    SyncOk { state with db := some (.recovered vs) } := by
  obtain ⟨nextFile, logNumber, lastSequence, -, -, -, rfl⟩ := versionSet_of_recover hrecover
  refine ⟨by rintro ⟨⟩, ?_, by rintro _ _ ⟨⟩ ⟨⟩, by rintro _ _ ⟨⟩ ⟨⟩, by rintro _ _ ⟨⟩ ⟨⟩, h.returned⟩
  rintro _ ⟨⟩ n hn
  cases hn with
  | listed hv hf =>
    rw [mem_singleton.mp hv] at hf
    obtain ⟨record, hrecord, hnew⟩ := exists_record_of_recovered hf
    exact h.closed hnone _ _ _ hcurrent hfile ⟨record, hrecord, _, VersionEdit.mem_newAt.mp hnew, rfl⟩
  | recorded hnumber hdescriptor hrecorded =>
    exact h.closed hnone _ _ n hnumber hdescriptor hrecorded
  | output hc _ => cases hc
  | logged hlogging _ => cases hlogging

theorem SyncOk.failCompaction (hdb : state.db = some db) (hok : Structured comparator state.disk db)
    (hopen : db.vs.descriptorLog = true) (hidle : db.logging = none) {counted : DBImpl K}
    {usedNumber : Bool} (hcounted : counted = (if usedNumber then db.newFileNumber else db))
    (c : CompactionWork K) :
    SyncOk { state with
      disk := deleteObsoleteFiles state.disk (counted.endCompaction c)
      db := some (counted.endCompaction c) } := by
  have hsame : counted.logging = none ∧ counted.versions = db.versions ∧
      counted.vs.manifestFileNumber = db.vs.manifestFileNumber := by
    subst hcounted
    split <;> exact ⟨hidle, rfl, rfl⟩
  obtain ⟨hnone, hversions, hmanifest⟩ := hsame
  obtain ⟨m, old, hm⟩ := hok.current
  refine h.logReturn hdb hok hnone ⟨rfl, rfl, fun _ _ ↦ descriptors_deleteObsoleteFiles⟩
    ?_ (by rintro _ ⟨⟩) ?_
  · intro v hv
    have hold := exists_of_mem_unref v hv
    rw [hversions] at hold
    exact .inl hold
  · intro hreturned
    apply (h.returned hreturned).deleteObsoleteFiles
    change state.disk.current = some counted.vs.manifestFileNumber
    rw [hmanifest, ← hm.own hopen]
    exact hm.current

end

/-- The step neither creates a database nor hands a table of `BuildTable` to `LogAndApply`. -/
def syncsFiles (state : State K) : Action K → Bool
  | .newDB .ok | .finishFlush (.built _) => false
  | .openLog => state.db.all fun db ↦ db.openEdit.newFiles.isEmpty
  | _ => true

theorem SyncOk.step {state state' : State K} {action : Action K} (h : SyncOk state)
    (hok : StateOk comparator state) (hstep : Transition comparator state action state')
    (hsync : syncsFiles state action = true) : SyncOk state' := by
  have hs := hok.structured
  cases hstep with
  | newDB hnone hcurrent =>
    apply SyncOk.newDB hnone hcurrent
    rintro rfl
    cases hsync
  | recover hnone hcurrent hfile _ hrecover => exact h.recover hnone hcurrent hfile hrecover
  | crash hdb => exact .of_closed (h.recordedSynced hdb) h.returned
  | spill hdb _ _ hnumber =>
    refine h.newTable hdb ?_ ⟨rfl, rfl⟩ rfl fun c hc ↦ ⟨c, hc, rfl⟩
    rw [hnumber]
    exact fun n hn ↦ ((hs _ hdb).named_lt hn).ne
  | markFileNumberUsed hdb _ _ =>
    refine h.of_refs hdb ⟨rfl, rfl, rfl⟩ ⟨rfl, ?_, rfl⟩ fun v hv ↦ ⟨v, hv, rfl⟩
    unfold VersionSet.markFileNumberUsed
    split <;> rfl
  | openLog hdb _ _ hopened =>
    subst hopened
    apply h.startLogging hdb
    · exact ⟨rfl, rfl, rfl⟩
    · exact fun v hv ↦ ⟨v, hv, rfl⟩
    · rfl
    · intro p hp
      simp only [syncsFiles, hdb, Option.all_some, List.isEmpty_iff] at hsync
      rw [hsync] at hp
      cases hp
  | switchMemTable hdb _ _ =>
    exact h.of_refs hdb ⟨rfl, rfl, rfl⟩ ⟨rfl, rfl, rfl⟩ fun v hv ↦ ⟨v, hv, rfl⟩
  | pin hdb _ =>
    exact h.of_refs hdb ⟨rfl, rfl, rfl⟩ ⟨rfl, rfl, rfl⟩ exists_of_mem_ref
  | unpin hdb _ _ =>
    exact h.of_refs hdb ⟨rfl, rfl, rfl⟩ ⟨rfl, rfl, rfl⟩ exists_of_mem_unref
  | beginFlush hdb _ _ _ =>
    exact h.of_refs hdb ⟨rfl, rfl, rfl⟩ ⟨rfl, rfl, rfl⟩ exists_of_mem_ref
  | writeTable hdb _ hidle hflush =>
    exact h.newTable hdb (fun n hn ↦ (hs _ hdb).flush_ne_named hidle hflush hn) ⟨rfl, rfl⟩ rfl
      fun c hc ↦ ⟨c, hc, rfl⟩
  | flushBuilt _ _ _ _ _ => cases hsync
  | flushEmpty hdb _ _ _ =>
    apply h.startLogging hdb
    · exact ⟨rfl, rfl, rfl⟩
    · exact exists_of_mem_unref
    · rfl
    · simp [flushEdit]
  | flushFailed hdb _ _ _ =>
    split
    · exact h.of_refs hdb ⟨rfl, rfl, rfl⟩ ⟨rfl, rfl, rfl⟩ exists_of_mem_unref
    · exact h.of_refs hdb ⟨rfl, rfl, rfl⟩ ⟨rfl, rfl, rfl⟩ exists_of_mem_unref
  | flushShuttingDown hdb _ _ _ =>
    exact h.of_refs hdb ⟨rfl, rfl, rfl⟩ ⟨rfl, rfl, rfl⟩ exists_of_mem_unref
  | beginCompaction hdb _ _ _ _ =>
    refine h.frame hdb ⟨rfl, rfl⟩ ⟨rfl, rfl⟩ exists_of_mem_ref (h.named _ hdb) ?_
    rintro _ ⟨⟩ f hf
    cases hf
  | openOutput hdb _ _ _ hcompaction _ =>
    refine h.newTable hdb (fun n hn ↦ ((hs _ hdb).named_lt hn).ne) ⟨rfl, rfl⟩ rfl ?_
    rintro _ ⟨⟩
    exact ⟨_, hcompaction, rfl⟩
  | syncOutput hdb _ _ =>
    rw [hdb]
    refine h.frame hdb ⟨rfl, rfl⟩ ⟨rfl, rfl⟩ (fun v hv ↦ ⟨v, hv, rfl⟩) ?_ ?_
    · exact fun n hn ↦ tableSynced_syncTable (h.named _ hdb n hn) _
    · exact fun c hc f hf ↦ tableSynced_syncTable (h.outputs hdb c hc f hf) _
  | finishOutput hdb _ _ _ hcompaction _ hsynced =>
    refine h.frame hdb ⟨rfl, rfl⟩ ⟨rfl, rfl⟩ (fun v hv ↦ ⟨v, hv, rfl⟩) (h.named _ hdb) ?_
    rintro _ ⟨⟩ f hf
    rcases mem_append.mp hf with hf | hf
    · exact h.outputs hdb _ hcompaction f hf
    · rw [mem_singleton.mp hf]
      exact hsynced
  | failCompaction hdb hopen hidle _ _ hcounted =>
    exact h.failCompaction hdb (hs _ hdb) hopen hidle hcounted _
  | installCompactionResults hdb _ _ _ hcompaction _ =>
    refine h.startLogging hdb ⟨rfl, rfl, rfl⟩ (fun v hv ↦ ⟨v, hv, rfl⟩) rfl ?_ _
    intro p hp
    obtain ⟨f, hf, rfl⟩ := mem_map.mp hp
    exact .output hcompaction hf
  | appendRecord hdb hlogging hstart => exact h.appendRecord hdb (hs _ hdb) hlogging hstart _
  | syncDescriptor hdb hlogging hstage => exact h.syncDescriptor hdb (hs _ hdb) hlogging hstage _
  | setCurrentFile hdb hlogging hstage hclosed =>
    exact h.setCurrentFile hdb (hs _ hdb) hlogging hstage hclosed _
  | logReturnOk hdb hlogging hstage =>
    exact h.logReturn hdb (hs _ hdb) (continueOk_spec _ _).2.2
      ⟨rfl, rfl, fun _ _ ↦ descriptors_deleteObsoleteFiles⟩ (versions_continueOk hlogging)
      (fun c hc ↦ (compaction_continueOk hc).1) fun _ ↦ h.currentSynced hdb (hs _ hdb) hlogging hstage
  | openFailed hdb _ _ _ => exact .of_closed (h.recordedSynced hdb).removeDescriptor (by rintro ⟨⟩)
  | flushNotLogged hdb _ _ _ _ =>
    exact h.logReturn hdb (hs _ hdb) rfl ⟨rfl, rfl, fun _ _ hfile ↦ hfile⟩
      (fun v hv ↦ .inl ⟨v, hv, rfl⟩) (fun c hc ↦ hc) (by rintro ⟨⟩)
  | compactionNotLogged hdb _ _ _ _ _ =>
    exact h.logReturn hdb (hs _ hdb) rfl ⟨rfl, rfl, fun _ _ ↦ descriptors_deleteObsoleteFiles⟩
      (fun v hv ↦ .inl (exists_of_mem_unref v hv)) (by rintro _ ⟨⟩) (by rintro ⟨⟩)
  | notLogged hdb _ _ _ _ _ =>
    exact h.logReturn hdb (hs _ hdb) rfl ⟨rfl, rfl, fun _ _ hfile ↦ hfile⟩
      (fun v hv ↦ .inl ⟨v, hv, rfl⟩) (fun c hc ↦ hc) (by rintro ⟨⟩)

def Durable (disk : Directory K) : Prop := Closed disk ∧ RecordedSynced disk

/-- In every run that neither creates a database nor installs a table of `BuildTable`, the tables of the
current version have been synced, and when `LogAndApply` or `SetCurrentFile` has returned OK, so has the
descriptor that `CURRENT` names. -/
theorem installed_files_synced (comparator : String) (state : State K)
    (hreach : (storage comparator Durable).ReachableWhen
      (fun state action ↦ syncsFiles state action = true) state) :
    (∀ db, state.db = some db →
      ∀ level, ∀ f ∈ db.vs.current level, state.disk.tableSynced f.number = true) ∧
    (state.returnedOk = true → CurrentSynced state.disk) := by
  have hinv : StateOk comparator state ∧ SyncOk state := by
    refine hreach.invariant (P := fun state ↦ StateOk comparator state ∧ SyncOk state) ?_ ?_
    · rintro ⟨disk, db, ok⟩ ⟨hdb, hok, hclosed, hrecorded⟩
      cases hdb
      cases hok
      exact ⟨.of_closed hclosed, .of_closed hrecorded (by rintro ⟨⟩)⟩
    · intro state action state' h hsync hnext
      have hstep := transition_of_step hnext
      exact ⟨h.1.step hstep, h.2.step h.1 hstep hsync⟩
  obtain ⟨hstate, hsync⟩ := hinv
  refine ⟨?_, hsync.returned⟩
  intro db hdb level f hf
  obtain ⟨v, hv, heq⟩ := (hstate.structured db hdb).exists_current
  have hvalue : v.value = db.vs.current := congrArg Handle.value heq
  exact hsync.named db hdb _ (.listed hv (hvalue ▸ hf))

def oneTable (comparator : String) (file : FileMetaData K) : Directory K where
  tables number := decide (number = file.number)
  tableSynced number := decide (number = file.number)
  descriptors number := if number = 1 then some ⟨[{ newDBEdit K comparator with
    nextFileNumber := some (file.number + 2)
    newFiles := [(2, file)] }], false, true⟩ else none
  current := some 1

theorem durable_oneTable (comparator : String) (file : FileMetaData K) :
    Durable (oneTable comparator file) := by
  have hrecorded : ∀ descriptor n, (oneTable comparator file).descriptors 1 = some descriptor →
      Recorded descriptor.records n → n = file.number := by
    rintro descriptor n hfile ⟨record, hrecord, p, hp, rfl⟩
    cases hfile
    rw [mem_singleton.mp hrecord] at hp
    rw [mem_singleton.mp hp]
  constructor
  · rintro number ⟨⟩
    refine ⟨_, rfl, file.number + 2, rfl, Nat.lt_add_left _ Nat.one_lt_two, ?_⟩
    intro n hn
    rw [hrecorded _ n rfl hn]
    exact Nat.lt_add_of_pos_right Nat.two_pos
  · rintro number descriptor n ⟨⟩ hfile hn
    exact decide_eq_true (hrecorded descriptor n hfile hn)

/-- A compaction of the table of an older process. -/
theorem installed_files_synced_after_compaction :
    ∃ (state : State ℕ) (db : DBImpl ℕ), state.db = some db ∧ state.returnedOk = true ∧
      (db.vs.current 3).map FileMetaData.number = [7] ∧
      (∀ level, ∀ f ∈ db.vs.current level, state.disk.tableSynced f.number = true) ∧
      CurrentSynced state.disk := by
  obtain ⟨state, hrun, hreturned, hstate⟩ := Machine.Run.of_exec (storage (K := ℕ) "cmp" Durable)
    syncsFiles ⟨oneTable "cmp" ⟨3, 100, ⟨1, 7⟩, ⟨3, 8⟩⟩, none, false⟩
    ⟨rfl, rfl, durable_oneTable _ _⟩
    [.recover, .openLog, .appendRecord .ok, .syncDescriptor true, .setCurrentFile true, .logReturn,
      .beginCompaction 2 [⟨3, 100, ⟨1, 7⟩, ⟨3, 8⟩⟩] [] ⟨3, 8⟩, .openOutput, .syncOutput,
      .finishOutput ⟨7, 90, ⟨1, 7⟩, ⟨3, 8⟩⟩, .installCompactionResults, .appendRecord .ok,
      .syncDescriptor true, .logReturn]
    (fun state ↦ state.returnedOk = true ∧ (state.db.any fun db ↦
      decide ((db.vs.current 3).map FileMetaData.number = [7])) = true) (by decide +kernel)
  obtain ⟨db, hdb, hfiles⟩ := (Option.any_eq_true _ _).mp hstate
  obtain ⟨htables, hdescriptor⟩ := installed_files_synced "cmp" state ⟨_, hrun⟩
  exact ⟨state, db, hdb, hreturned, of_decide_eq_true hfiles, htables db hdb, hdescriptor hreturned⟩

theorem durable_empty : Durable ({} : Directory K) := ⟨by rintro _ ⟨⟩, by rintro _ _ _ ⟨⟩⟩

/-- The table of a flush has not been synced when `LogAndApply` has installed it, and the first
descriptor has not been synced when `SetCurrentFile` has made it the current one. -/
theorem installed_files_not_synced :
    (∃ state : State ℕ, (storage "cmp" Durable).Reachable state ∧ state.returnedOk = true ∧
      ∃ db level f, state.db = some db ∧ f ∈ db.vs.current level ∧
        state.disk.tableSynced f.number = false) ∧
    ∃ state : State ℕ, (storage "cmp" Durable).Reachable state ∧ state.returnedOk = true ∧
      ∃ number descriptor, state.disk.current = some number ∧
        state.disk.descriptors number = some descriptor ∧ descriptor.synced = false := by
  constructor
  · obtain ⟨state, hrun, hreturned, hstate⟩ := Machine.Run.of_exec (storage (K := ℕ) "cmp" Durable)
      (fun _ _ ↦ true) ⟨{}, none, false⟩ ⟨rfl, rfl, durable_empty⟩
      (openAndFlush ⟨5, 100, ⟨1, 7⟩, ⟨3, 8⟩⟩)
      (fun state ↦ state.returnedOk = true ∧ (state.db.any fun db ↦
        (db.vs.current 2).any fun f ↦ !state.disk.tableSynced f.number) = true) (by decide +kernel)
    obtain ⟨db, hdb, hfiles⟩ := (Option.any_eq_true _ _).mp hstate
    obtain ⟨f, hf, hsynced⟩ := any_eq_true.mp hfiles
    exact ⟨state, ⟨_, hrun.mono fun _ _ _ ↦ trivial⟩, hreturned, db, 2, f, hdb, hf, by simpa using hsynced⟩
  · obtain ⟨state, hrun, hreturned, hstate⟩ := Machine.Run.of_exec (storage (K := ℕ) "cmp" Durable)
      (fun _ _ ↦ true) ⟨{}, none, false⟩ ⟨rfl, rfl, durable_empty⟩ [.newDB .ok]
      (fun state ↦ state.returnedOk = true ∧ (state.disk.current.any fun number ↦
        (state.disk.descriptors number).any fun d ↦ !d.synced) = true) (by decide +kernel)
    obtain ⟨number, hcurrent, hfile⟩ := (Option.any_eq_true _ _).mp hstate
    obtain ⟨descriptor, hfile, hsynced⟩ := (Option.any_eq_true _ _).mp hfile
    exact ⟨state, ⟨_, hrun.mono fun _ _ _ ↦ trivial⟩, hreturned, number, descriptor, hcurrent, hfile,
      by simpa using hsynced⟩

end LevelDB.Db.Storage
