import LevelDB.Db.StorageInvariant

/-!
# The tables that exist

`DeleteObsoleteFiles` derives what is live from the list of versions, `pending_outputs_` and the log
and descriptor numbers.  Here the tables of every referenced version, the tables under construction and
the tables of the version that `Recover` would rebuild are shown to exist in every state.  The last part
needs that no edit with new tables fails after its record is in the descriptor: the record stays there,
and the tables are deleted with the failed compaction or the next one.
-/

namespace LevelDB.Db.Storage

open Format TableFiles VersionBuilder Manifest Library RefCount List Function

variable {K : Type*} {comparator : String} {disk : Directory K} {db : DBImpl K} {logging : Logging K}

/-- The tables that have been created and are not installed. -/
def DBImpl.written (db : DBImpl K) : List ℕ :=
  ((db.flush.filter Flush.written).map Flush.number).toList ++
    ((db.compaction.map CompactionWork.numbers).getD [] ++ db.openEdit.newFiles.map fun p ↦ p.2.number)

/-- The version to which the descriptor named by `CURRENT` leads when no write of it has failed: the
one that is being installed once its record is there. -/
def DBImpl.target (db : DBImpl K) : Files K :=
  match db.logging with
  | some logging =>
    if logging.stage = .currentSet ∨
        (db.vs.descriptorLog = true ∧ (logging.stage = .appended ∨ logging.stage = .synced))
    then logging.version else db.vs.current
  | none => db.vs.current

theorem newTable_of_tables {n : ℕ} (h : disk.tables n = true) (number : ℕ) :
    (disk.newTable number).tables n = true := by
  change update disk.tables number true n = true
  rw [update_apply]
  split
  · rfl
  · exact h

theorem deleteTable_of_ne {n number : ℕ} (hne : n ≠ number) :
    (disk.deleteTable number).tables n = disk.tables n :=
  update_of_ne hne _ _

theorem live_of_mem {v : Counted (Files K)} (hv : v ∈ db.versions) {level : ℕ} (hlevel : level < kNumLevels)
    {f : FileMetaData K} (hf : f ∈ v.value level) : db.live f.number = true := by
  simp only [DBImpl.live, Bool.or_eq_true, decide_eq_true_eq, any_eq_true, mem_range]
  exact .inr ⟨v, hv, level, hlevel, f, hf, rfl⟩

theorem live_of_pending {n : ℕ} (hn : n ∈ db.pendingOutputs) : db.live n = true := by
  simp [DBImpl.live, hn]

theorem target_of_idle (hidle : db.logging = none) : db.target = db.vs.current := by
  simp [DBImpl.target, hidle]

theorem mem_target {level : ℕ} {f : FileMetaData K} (hf : f ∈ db.target level) :
    f ∈ db.vs.current level ∨ ∃ logging, db.logging = some logging ∧ f ∈ logging.version level := by
  cases hlogging : db.logging with
  | none => exact .inl (target_of_idle hlogging ▸ hf)
  | some logging =>
    simp only [DBImpl.target, hlogging] at hf
    split at hf
    · exact .inr ⟨logging, rfl, hf⟩
    · exact .inl hf

theorem numbers_finishOutput {c : CompactionWork K} {file : FileMetaData K}
    (hbuilding : c.building = some file.number) :
    ({ c with outputs := c.outputs ++ [file], building := none } : CompactionWork K).numbers =
      c.numbers := by
  simp [CompactionWork.numbers, hbuilding]

theorem target_of_failed (hlogging : db.logging = some logging)
    (hstage : logging.stage = .start ∨ logging.stage = .failed) : db.target = db.vs.current := by
  rcases hstage with hstage | hstage <;> simp [DBImpl.target, hlogging, hstage]

theorem target_of_lastStage (hlogging : db.logging = some logging) (hstage : logging.stage = db.lastStage) :
    db.target = logging.version := by
  unfold DBImpl.lastStage at hstage
  cases hopen : db.vs.descriptorLog with
  | true => simp_all [DBImpl.target]
  | false => simp_all [DBImpl.target]

theorem target_of_opening (hclosed : db.vs.descriptorLog = false) (hunset : ¬db.CurrentSet) :
    db.target = db.vs.current := by
  cases hlogging : db.logging with
  | none => exact target_of_idle hlogging
  | some logging =>
    have hstage : logging.stage ≠ .currentSet := fun heq ↦ hunset ⟨logging, hlogging, heq⟩
    simp [DBImpl.target, hlogging, hclosed, hstage]

theorem continueOk_spec (db : DBImpl K) (logging : Logging K) :
    (State.continueOk db logging).vs.manifestFileNumber = db.vs.manifestFileNumber ∧
      (State.continueOk db logging).vs.current = logging.version ∧
      (State.continueOk db logging).logging = none := by
  unfold State.continueOk
  split
  · exact ⟨rfl, rfl, rfl⟩
  · split <;> exact ⟨rfl, rfl, rfl⟩

theorem versions_continueOk (hlogging : db.logging = some logging) :
    ∀ v' ∈ (State.continueOk db logging).versions, (∃ v ∈ db.versions, v.toHandle = v'.toHandle) ∨
      ∃ logging, db.logging = some logging ∧ v'.value = logging.version := by
  have hinstall : ∀ v' ∈ (db.install logging).versions, (∃ v ∈ db.versions, v.toHandle = v'.toHandle) ∨
        ∃ logging, db.logging = some logging ∧ v'.value = logging.version := by
    intro v' hv'
    rcases exists_of_mem_install v' hv' with hold | heq
    · exact .inl hold
    · exact .inr ⟨logging, hlogging, congrArg Handle.value heq⟩
  unfold State.continueOk
  split
  · exact hinstall
  · split
    · exact hinstall
    · intro v' hv'
      obtain ⟨v, hv, heq⟩ := exists_of_mem_unref v' hv'
      rcases hinstall v hv with ⟨u, hu, hold⟩ | ⟨logging, hlogging, hnew⟩
      · exact .inl ⟨u, hu, hold.trans heq⟩
      · exact .inr ⟨logging, hlogging, (congrArg Handle.value heq).symm.trans hnew⟩
    · exact hinstall

/-- A compaction goes on when the memtable flushed inside it has been installed. -/
theorem compaction_continueOk {c : CompactionWork K}
    (hc : (State.continueOk db logging).compaction = some c) :
    db.compaction = some c ∧ (State.continueOk db logging).pendingOutputs = db.pendingOutputs := by
  unfold State.continueOk at hc ⊢
  split at hc
  · rename_i hclosed
    rw [if_pos hclosed]
    exact ⟨hc, rfl⟩
  · rename_i hopen
    rw [if_neg hopen]
    split at hc
    · exact ⟨hc, rfl⟩
    · cases hc
    · exact ⟨hc, rfl⟩

theorem written_continueOk (db : DBImpl K) (logging : Logging K) :
    (State.continueOk db logging).written ⊆ db.written := by
  intro n hn
  unfold State.continueOk at hn
  split at hn
  · rcases mem_append.mp hn with hn | hn
    · exact mem_append_left _ hn
    · apply mem_append_right
      rcases mem_append.mp hn with hn | hn
      · exact mem_append_left _ hn
      · cases hn
  · split at hn
    · exact mem_append_right _ hn
    · rcases mem_append.mp hn with hn | hn
      · exact mem_append_left _ hn
      · exact mem_append_right _ (mem_append_right _ hn)
    · exact hn

variable [LinearOrder K]

/-- The tables that the process and the descriptor need exist. -/
structure Protected (disk : Directory K) (db : DBImpl K) : Prop where
  last : ∀ v ∈ db.versions, ∀ level, kNumLevels ≤ level → v.value level = []
  listed : ∀ v ∈ db.versions, ∀ level, ∀ f ∈ v.value level, disk.tables f.number = true
  written : ∀ n ∈ db.written, disk.tables n = true
  logging_written : ∀ logging, db.logging = some logging →
    ∀ p ∈ logging.edit.newFiles, p.2.number ∈ db.written
  pending : ∀ c, db.compaction = some c → ∀ n ∈ c.numbers, n ∈ db.pendingOutputs
  on_disk : ∀ number descriptor, disk.current = some number → disk.descriptors number = some descriptor →
    ∀ level, ∀ f ∈ recoveredFiles descriptor.records level, f ∈ db.target level

def TablesExist (disk : Directory K) : Prop :=
  ∀ number descriptor, disk.current = some number → disk.descriptors number = some descriptor →
    ∀ level, ∀ f ∈ recoveredFiles descriptor.records level, disk.tables f.number = true

def Intact (disk : Directory K) : Prop := Closed disk ∧ TablesExist disk

/-! ## Frames -/

section

variable (h : Protected disk db) (hok : Structured comparator disk db)
include h hok

theorem Protected.tables_current : ∀ level, ∀ f ∈ db.vs.current level, disk.tables f.number = true := by
  obtain ⟨v, hv, heq⟩ := hok.exists_current
  have hvalue : v.value = db.vs.current := congrArg Handle.value heq
  exact fun level f hf ↦ h.listed v hv level f (hvalue ▸ hf)

theorem Protected.tables_version (hlogging : db.logging = some logging) :
    ∀ level, ∀ f ∈ logging.version level, disk.tables f.number = true := by
  intro level f hf
  rw [(hok.logging logging hlogging).version_eq] at hf
  rcases mem_of_mem_editedFiles hf with hf | hf
  · exact h.tables_current hok level f hf
  · apply h.written
    exact h.logging_written logging hlogging (level, f) (VersionEdit.mem_newAt.mp hf)

theorem Protected.tablesExist : TablesExist disk := by
  intro number descriptor hcurrent hfile level f hf
  have htarget := h.on_disk number descriptor hcurrent hfile level f hf
  rcases mem_target htarget with hf | ⟨logging, hlogging, hf⟩
  · exact h.tables_current hok level f hf
  · exact h.tables_version hok hlogging level f hf

omit hok in
theorem Protected.of_refs {versions : List (Counted (Files K))}
    (hversions : ∀ v' ∈ versions, ∃ v ∈ db.versions, v.toHandle = v'.toHandle)
    (readers : List (Handle (Files K))) :
    Protected disk { db with versions := versions, readers := readers } := by
  refine { h with last := ?_, listed := ?_ }
  · intro v' hv' level hlevel
    obtain ⟨v, hv, heq⟩ := hversions v' hv'
    have hvalue : v.value = v'.value := congrArg Handle.value heq
    exact hvalue ▸ h.last v hv level hlevel
  · intro v' hv' level f hf
    obtain ⟨v, hv, heq⟩ := hversions v' hv'
    have hvalue : v.value = v'.value := congrArg Handle.value heq
    exact h.listed v hv level f (hvalue ▸ hf)

omit h hok in
/-- A step of a flush, of a compaction or of `DB::Open` on its tables. -/
theorem Protected.of_work {disk disk' : Directory K} {db db' : DBImpl K} (h : Protected disk db)
    (hok : Structured comparator disk db) (hidle : db.logging = none)
    (hdisk : disk'.current = disk.current ∧ disk'.descriptors = disk.descriptors)
    (hsame : db'.vs.current = db.vs.current ∧ db'.logging = none)
    (hversions : ∀ v' ∈ db'.versions, ∃ v ∈ db.versions, v.toHandle = v'.toHandle)
    (htables : ∀ n, disk.tables n = true → (n ∈ db.writing → n ∈ db'.written) → disk'.tables n = true)
    (hwritten : ∀ n ∈ db'.written, n ∈ db.written ∨ disk'.tables n = true)
    (hpending : ∀ c, db'.compaction = some c → ∀ n ∈ c.numbers, n ∈ db'.pendingOutputs) :
    Protected disk' db' := by
  obtain ⟨hcurrent, hdescriptors⟩ := hdisk
  obtain ⟨hversion, hidle'⟩ := hsame
  have hrefs := h.of_refs hversions db.readers
  refine ⟨hrefs.last, ?_, ?_, by simp [hidle'], hpending, ?_⟩
  · intro v' hv' level f hf
    apply htables _ (hrefs.listed v' hv' level f hf)
    intro hmem
    obtain ⟨v, hv, heq⟩ := hversions v' hv'
    have hvalue : v.value = v'.value := congrArg Handle.value heq
    exact absurd rfl (hok.numbers.unlisted f.number hmem v hv level f (hvalue ▸ hf))
  · intro n hn
    rcases hwritten n hn with hmem | hmem
    · exact htables n (h.written n hmem) fun _ ↦ hn
    · exact hmem
  · rw [hcurrent, hdescriptors, target_of_idle hidle', hversion, ← target_of_idle hidle]
    exact h.on_disk

omit hok in
theorem Protected.startLogging (hidle : db.logging = none) {edit : VersionEdit K}
    (hwritten : ∀ p ∈ edit.newFiles, p.2.number ∈ db.written) (version : Files K) :
    Protected disk (db.startLogging edit version) := by
  have htarget : (db.startLogging edit version).target = db.target := by
    simp [DBImpl.target, DBImpl.startLogging, hidle]
  refine ⟨h.last, h.listed, h.written, ?_, h.pending, ?_⟩
  · rintro _ ⟨⟩
    exact hwritten
  · rw [htarget]
    exact h.on_disk

theorem Protected.deleteObsoleteFiles (hopen : db.vs.descriptorLog = true) (hflush : db.flush = none) :
    Protected (deleteObsoleteFiles disk db) db := by
  have hkeep : ∀ n, disk.tables n = true → db.live n = true →
      (Storage.deleteObsoleteFiles disk db).tables n = true := by
    intro n hn hlive
    simp [Storage.deleteObsoleteFiles, hn, hlive]
  refine { h with listed := ?_, written := ?_, on_disk := ?_ }
  · intro v hv level f hf
    have hlevel : level < kNumLevels := by
      by_contra hge
      rw [h.last v hv level (Nat.not_lt.mp hge)] at hf
      cases hf
    exact hkeep _ (h.listed v hv level f hf) (live_of_mem hv hlevel hf)
  · intro n hn
    have hmem := hn
    simp only [DBImpl.written, hflush, hok.opened hopen, Option.filter_none, Option.map_none,
      Option.toList_none, nil_append, map_nil, append_nil] at hmem
    apply hkeep n (h.written n hn)
    cases hcompaction : db.compaction with
    | none => simp [hcompaction] at hmem
    | some c =>
      rw [hcompaction] at hmem
      exact live_of_pending (h.pending c hcompaction n hmem)
  · intro number descriptor hcurrent hfile
    obtain ⟨m, d, hm⟩ := hok.current
    change disk.current = some number at hcurrent
    have heq : number = db.vs.manifestFileNumber := by
      rw [hm.current] at hcurrent
      exact (Option.some.inj hcurrent) ▸ hm.own hopen
    have hfile : disk.descriptors number = some descriptor := by
      simpa [Storage.deleteObsoleteFiles, heq] using hfile
    exact h.on_disk number descriptor hcurrent hfile

omit h hok in
theorem Protected.recovered (h : TablesExist disk) {number : ℕ} {descriptor : Descriptor K}
    (hcurrent : disk.current = some number) (hfile : disk.descriptors number = some descriptor)
    {vs : VersionSet K} (hrecover : Manifest.recover comparator descriptor.records = .ok vs) :
    Protected disk (DBImpl.recovered vs) := by
  obtain ⟨nextFile, logNumber, lastSequence, -, -, -, rfl⟩ := versionSet_of_recover hrecover
  refine ⟨?_, ?_, ?_, ?_, ?_, ?_⟩
  · intro v hv level hlevel
    rw [mem_singleton.mp hv]
    exact recoveredFiles_last _ hlevel
  · intro v hv level f hf
    rw [mem_singleton.mp hv] at hf
    exact h number descriptor hcurrent hfile level f hf
  · simp [DBImpl.written, DBImpl.recovered]
  · simp [DBImpl.recovered]
  · simp [DBImpl.recovered]
  · intro number' descriptor' hcurrent' hfile'
    rw [hcurrent] at hcurrent'
    cases hcurrent'
    rw [hfile] at hfile'
    cases hfile'
    exact fun level f hf ↦ hf

section

variable (hidle : db.logging = none)
include hidle

theorem Protected.spill (file : FileMetaData K) : Protected (disk.newTable file.number)
      { db.newFileNumber with openEdit := db.openEdit.addFile 0 file } := by
  refine h.of_work hok hidle ⟨rfl, rfl⟩ ⟨rfl, hidle⟩ (fun v hv ↦ ⟨v, hv, rfl⟩) ?_ ?_ h.pending
  · exact fun n hn _ ↦ newTable_of_tables hn file.number
  · intro n hn
    simp only [DBImpl.written, DBImpl.newFileNumber, VersionEdit.addFile, map_append, map_cons,
      map_nil, ← append_assoc] at hn
    rcases mem_append.mp hn with hn | hn
    · left
      simpa [DBImpl.written, or_assoc] using hn
    · right
      rw [mem_singleton.mp hn]
      exact update_self _ _ _

/-! ## Flushes -/

theorem Protected.beginFlush (hflush : db.flush = none) : Protected disk { db.newFileNumber with
      flush := some ⟨db.vs.nextFileNumber, some db.currentVersion, false⟩
      pendingOutputs := db.vs.nextFileNumber :: db.pendingOutputs
      versions := ref db.currentId db.versions } := by
  refine h.of_work hok hidle ⟨rfl, rfl⟩ ⟨rfl, hidle⟩ exists_of_mem_ref (fun n hn _ ↦ hn) ?_ ?_
  · intro n hn
    left
    simpa [DBImpl.written, hflush, Option.filter, DBImpl.newFileNumber] using hn
  · exact fun c hc n hn ↦ mem_cons_of_mem _ (h.pending c hc n hn)

theorem Protected.writeTable {number : ℕ} {base : Handle (Files K)} :
    Protected (disk.newTable number) { db with flush := some ⟨number, some base, true⟩ } := by
  refine h.of_work hok hidle ⟨rfl, rfl⟩ ⟨rfl, hidle⟩ (fun v hv ↦ ⟨v, hv, rfl⟩) ?_ ?_ h.pending
  · exact fun n hn _ ↦ newTable_of_tables hn number
  · intro n hn
    rcases mem_append.mp hn with hn | hn
    · right
      rw [mem_singleton.mp hn]
      exact update_self _ _ _
    · exact .inl (mem_append_right _ hn)

omit h hidle in
/-- The number of a flush is not one of the compaction inside which it runs. -/
theorem Structured.flush_not_mem {flush : Flush K} (hflush : db.flush = some flush) :
    flush.number ∉ (db.compaction.map CompactionWork.numbers).getD [] ++
      db.openEdit.newFiles.map fun p ↦ p.2.number := by
  have hnodup := hok.numbers.nodup
  simp only [DBImpl.writing, hflush, Option.map_some, Option.toList_some, singleton_append] at hnodup
  exact (nodup_cons.mp hnodup).1

/-- `WriteLevel0Table` releases the base version and its number; a table that it does not keep may be
deleted. -/
theorem Protected.released {number : ℕ} {base : Handle (Files K)} {written : Bool}
    (hflush : db.flush = some ⟨number, some base, written⟩) {flush : Option (Flush K)}
    (hkeep : flush = none ∨ flush = some ⟨number, none, written⟩) {tables : ℕ → Bool}
    (htables : ∀ n, n ≠ number ∨ (∃ f, flush = some f ∧ f.written = true) → tables n = disk.tables n) :
    Protected { disk with tables := tables }
      { State.finishFlush.released db ⟨number, some base, written⟩ base with flush := flush } := by
  have hnumber := hok.flush_not_mem hflush
  refine h.of_work hok hidle ⟨rfl, rfl⟩ ⟨rfl, hidle⟩ exists_of_mem_unref ?_ ?_ ?_
  · intro n hn hmem
    change tables n = true
    rw [htables n, hn]
    by_cases hne : n = number
    · right
      subst hne
      have hwritten := hmem (by simp [DBImpl.writing, hflush])
      rcases mem_append.mp hwritten with hwritten | hwritten
      · rcases hkeep with rfl | rfl
        · cases hwritten
        · cases written with
          | false => cases hwritten
          | true => exact ⟨_, rfl, rfl⟩
      · exact absurd hwritten hnumber
    · exact .inl hne
  · intro n hn
    left
    rcases mem_append.mp hn with hn | hn
    · apply mem_append_left
      rw [hflush]
      rcases hkeep with rfl | rfl
      · cases hn
      · cases written with
        | false => cases hn
        | true => exact hn
    · exact mem_append_right _ hn
  · intro c hc n hn
    apply mem_filter.mpr
    refine ⟨h.pending c hc n hn, ?_⟩
    have hcompaction : db.compaction = some c := hc
    simp only [decide_eq_true_eq]
    rintro rfl
    apply hnumber
    rw [hcompaction]
    exact mem_append_left _ hn

/-! ## Compactions -/

theorem Protected.beginCompaction (level : ℕ) (inputs0 inputs1 : List (FileMetaData K))
    (pointer : InternalKey K) :
    Protected disk { db with
      vs := { db.vs with compactPointer := update db.vs.compactPointer level (some pointer) }
      compaction := some ⟨level, db.currentVersion, inputs0, inputs1, pointer, [], none⟩
      versions := ref db.currentId db.versions } := by
  refine h.of_work hok hidle ⟨rfl, rfl⟩ ⟨rfl, hidle⟩ exists_of_mem_ref (fun n hn _ ↦ hn) ?_ ?_
  · intro n hn
    left
    rcases mem_append.mp hn with hn | hn
    · exact mem_append_left _ hn
    · exact mem_append_right _ (mem_append_right _ hn)
  · rintro _ ⟨⟩ n hn
    cases hn

theorem Protected.openOutput {c : CompactionWork K} (hcompaction : db.compaction = some c)
    (hbuilding : c.building = none) :
    Protected (disk.newTable db.vs.nextFileNumber) { db.newFileNumber with
      compaction := some { c with building := some db.vs.nextFileNumber }
      pendingOutputs := db.vs.nextFileNumber :: db.pendingOutputs } := by
  have hnumbers : ∀ n ∈ ({ c with building := some db.vs.nextFileNumber } : CompactionWork K).numbers,
      n ∈ c.numbers ∨ n = db.vs.nextFileNumber := by
    intro n hn
    simpa [CompactionWork.numbers, hbuilding] using hn
  refine h.of_work hok hidle ⟨rfl, rfl⟩ ⟨rfl, hidle⟩ (fun v hv ↦ ⟨v, hv, rfl⟩) ?_ ?_ ?_
  · exact fun n hn _ ↦ newTable_of_tables hn _
  · intro n hn
    rcases mem_append.mp hn with hn | hn
    · exact .inl (mem_append_left _ hn)
    · rcases mem_append.mp hn with hn | hn
      · rcases hnumbers n hn with hn | rfl
        · left
          apply mem_append_right
          rw [hcompaction]
          exact mem_append_left _ hn
        · exact .inr (update_self _ _ _)
      · exact .inl (mem_append_right _ (mem_append_right _ hn))
  · rintro _ ⟨⟩ n hn
    rcases hnumbers n hn with hn | rfl
    · exact mem_cons_of_mem _ (h.pending c hcompaction n hn)
    · exact mem_cons_self

theorem Protected.finishOutput {c : CompactionWork K} (hcompaction : db.compaction = some c)
    {file : FileMetaData K} (hbuilding : c.building = some file.number) :
    Protected disk { db with
      compaction := some { c with outputs := c.outputs ++ [file], building := none } } := by
  have hnumbers := numbers_finishOutput hbuilding
  refine h.of_work hok hidle ⟨rfl, rfl⟩ ⟨rfl, hidle⟩ (fun v hv ↦ ⟨v, hv, rfl⟩) (fun n hn _ ↦ hn) ?_ ?_
  · intro n hn
    left
    simpa [DBImpl.written, hcompaction, hnumbers] using hn
  · rintro _ ⟨⟩ n hn
    rw [hnumbers] at hn
    exact h.pending c hcompaction n hn

/-- The end of a compaction without its results. -/
theorem Protected.endCompaction (c : CompactionWork K) : Protected disk (db.endCompaction c) := by
  refine h.of_work hok hidle ⟨rfl, rfl⟩ ⟨rfl, hidle⟩ exists_of_mem_unref (fun n hn _ ↦ hn) ?_ ?_
  · intro n hn
    left
    rcases mem_append.mp hn with hn | hn
    · exact mem_append_left _ hn
    · exact mem_append_right _ (mem_append_right _ hn)
  · rintro _ ⟨⟩

end

/-! ## LogAndApply -/

section

variable (hlogging : db.logging = some logging)
include hlogging

omit hok in
theorem Protected.atStage {stage : Stage} (descriptors : ℕ → Option (Descriptor K)) (current : Option ℕ)
    (hdisk : ∀ number descriptor, current = some number → descriptors number = some descriptor →
      ∀ level, ∀ f ∈ recoveredFiles descriptor.records level, f ∈ (db.atStage logging stage).target level) :
    Protected { disk with descriptors := descriptors, current := current } (db.atStage logging stage) := by
  refine ⟨h.last, h.listed, h.written, ?_, h.pending, hdisk⟩
  rintro _ ⟨⟩
  exact h.logging_written logging hlogging

omit h in
/-- Behind records that do not know the new files, the record does what the edit does. -/
theorem Structured.mem_version_of_recovered {records : List (VersionEdit K)}
    (hunrecorded : ∀ p ∈ logging.edit.newFiles, ¬Recorded records p.2.number)
    (hrecords : ∀ level, ∀ f ∈ recoveredFiles records level, f ∈ db.vs.current level) {level : ℕ}
    {f : FileMetaData K} (hf : f ∈ recoveredFiles (records ++ [logging.edit]) level) :
    f ∈ logging.version level := by
  have hedit := hok.logging logging hlogging
  have hlevel : level < kNumLevels := by
    by_contra hge
    rw [recoveredFiles_last _ (Nat.not_lt.mp hge)] at hf
    cases hf
  have hin : FreshIn records logging.edit level := by
    refine ⟨VersionEdit.nodup_newAt hedit.nodup level, ?_⟩
    intro f hf record hrecord g hg heq
    apply hunrecorded _ (VersionEdit.mem_newAt.mp hf)
    exact ⟨record, hrecord, (level, g), VersionEdit.mem_newAt.mp hg, heq⟩
  have hat : FreshAt db.vs.current logging.edit level := by
    refine ⟨VersionEdit.nodup_newAt hedit.nodup level, ?_⟩
    intro f hf g hg
    obtain ⟨v, hv, heq⟩ := hok.exists_current
    have hvalue : v.value = db.vs.current := congrArg Handle.value heq
    have hmem := hedit.number_mem _ (VersionEdit.mem_newAt.mp hf)
    exact hok.numbers.unlisted f.number (db.callerNumbers_subset hmem) v hv level g (hvalue ▸ hg)
  rw [hedit.version_eq, mem_editedFiles hlevel hat]
  rw [mem_recoveredFiles_append hlevel hin] at hf
  exact hf.imp_left fun hold ↦ ⟨hrecords level f hold.1, hold.2⟩

theorem Protected.appendRecord (hstart : logging.stage = .start) {result : AppendResult}
    (hkeep : result = .readable → db.vs.descriptorLog = true → logging.edit.newFiles = []) :
    Protected (disk.setDescriptor db.vs.manifestFileNumber
        ((if db.vs.descriptorLog then disk.descriptors db.vs.manifestFileNumber
          else some ⟨[db.vs.writeSnapshot comparator], false, false⟩).map
            fun d ↦ d.append logging.edit result))
      (db.atStage logging (if result = .ok then .appended else .failed)) := by
  obtain ⟨m, old, hm⟩ := hok.current
  have hrecords : ∀ level, ∀ f ∈ recoveredFiles old.records level, f ∈ db.vs.current level := by
    rw [← target_of_failed hlogging (.inl hstart)]
    exact h.on_disk m old hm.current hm.file
  apply h.atStage hlogging
  intro number descriptor hcurrent hfile level f hf
  rw [hm.current] at hcurrent
  cases hcurrent
  cases hopen : db.vs.descriptorLog with
  | false =>
    -- `CURRENT` names the descriptor of an earlier process
    have hunset : ¬db.CurrentSet := not_currentSet hlogging (by simp [hstart])
    rw [update_of_ne (hm.old hopen hunset).ne, hm.file] at hfile
    cases hfile
    have htarget : (db.atStage logging (if result = .ok then .appended else .failed)).target =
        db.vs.current := by
      refine target_of_opening ?_ ?_
      · exact hopen
      · rw [currentSet_atStage]
        split <;> simp
    rw [htarget]
    exact hrecords level f hf
  | true =>
    have hnumber := hm.own hopen
    simp only [hopen, if_true, ← hnumber, update_self, hm.file, Option.map_some] at hfile
    cases hfile
    have hunrecorded : ∀ p ∈ logging.edit.newFiles, ¬Recorded old.records p.2.number := by
      intro p hp
      have hmem := (hok.logging logging hlogging).number_mem p hp
      exact hm.unrecorded _ (db.callerNumbers_subset hmem) (by simp [logged_of_start hlogging hstart])
    have hfailed : (db.atStage logging .failed).target = db.vs.current := target_of_failed rfl (.inr rfl)
    cases result with
    | ok =>
      have htarget : (db.atStage logging .appended).target = logging.version := by
        simp [DBImpl.target, DBImpl.atStage, hopen]
      rw [if_pos rfl, htarget]
      exact hok.mem_version_of_recovered hlogging hunrecorded hrecords hf
    | readable =>
      have hversion := hok.mem_version_of_recovered hlogging hunrecorded hrecords hf
      rw [(hok.logging logging hlogging).version_eq] at hversion
      rw [if_neg (by simp), hfailed]
      rcases mem_of_mem_editedFiles hversion with hmem | hmem
      · exact hmem
      · have hnew := VersionEdit.mem_newAt.mp hmem
        rw [hkeep rfl hopen] at hnew
        cases hnew
    | lost | torn =>
      rw [if_neg (by simp), hfailed]
      exact hrecords level f hf

theorem Protected.syncDescriptor (hstage : logging.stage = .appended) {ok : Bool}
    (hkeep : ok = false → db.vs.descriptorLog = true → logging.edit.newFiles = []) :
    Protected
      (if ok then disk.setDescriptor db.vs.manifestFileNumber
          ((disk.descriptors db.vs.manifestFileNumber).map fun d ↦ { d with synced := true })
        else disk)
      (db.atStage logging (if ok then .synced else .failed)) := by
  cases ok with
  | false =>
    apply h.atStage hlogging disk.descriptors disk.current
    intro number descriptor hcurrent hfile level f hf
    have hmem := h.on_disk number descriptor hcurrent hfile level f hf
    have hfailed : (db.atStage logging .failed).target = db.vs.current := target_of_failed rfl (.inr rfl)
    rw [if_neg (by simp), hfailed]
    cases hopen : db.vs.descriptorLog with
    | false =>
      have hunset : ¬db.CurrentSet := not_currentSet hlogging (by simp [hstage])
      exact target_of_opening hopen hunset ▸ hmem
    | true =>
      rcases mem_target hmem with hmem | ⟨_, heq, hmem⟩
      · exact hmem
      · rw [hlogging] at heq
        cases heq
        rw [(hok.logging logging hlogging).version_eq] at hmem
        rcases mem_of_mem_editedFiles hmem with hmem | hmem
        · exact hmem
        · have hnew := VersionEdit.mem_newAt.mp hmem
          rw [hkeep rfl hopen] at hnew
          cases hnew
  | true =>
    have htarget : (db.atStage logging .synced).target = db.target := by
      simp [DBImpl.target, DBImpl.atStage, hlogging, hstage]
    apply h.atStage hlogging _ disk.current
    intro number descriptor hcurrent hfile level f hf
    rw [if_pos rfl, htarget]
    rw [update_apply] at hfile
    split at hfile
    · rename_i heq
      obtain ⟨old, hold, rfl⟩ := Option.map_eq_some_iff.mp hfile
      exact h.on_disk number old hcurrent (heq ▸ hold) level f hf
    · exact h.on_disk number descriptor hcurrent hfile level f hf

omit h hok hlogging in
theorem mem_current_of_snapshot {vs : VersionSet K} {level : ℕ} {f : FileMetaData K}
    (hf : f ∈ recoveredFiles [vs.writeSnapshot comparator] level) : f ∈ vs.current level := by
  have hlevel : level < kNumLevels := by
    by_contra hge
    rw [recoveredFiles_last _ (Nat.not_lt.mp hge)] at hf
    cases hf
  obtain ⟨record, hrecord, hnew⟩ := exists_record_of_recovered hf
  rw [mem_singleton.mp hrecord, newAt_writeSnapshot comparator vs hlevel] at hnew
  exact hnew

theorem Protected.setCurrentFile (hstage : logging.stage = .synced) (hclosed : db.vs.descriptorLog = false)
    (ok : Bool) :
    Protected
      (if ok then { disk with current := some db.vs.manifestFileNumber } else disk)
      (db.atStage logging (if ok then .currentSet else .failed)) := by
  have hunset : ¬db.CurrentSet := not_currentSet hlogging (by simp [hstage])
  cases ok with
  | false =>
    have hfailed : (db.atStage logging .failed).target = db.target := by
      rw [target_of_opening hclosed hunset]
      exact target_of_failed rfl (.inr rfl)
    apply h.atStage hlogging disk.descriptors disk.current
    rw [if_neg (by simp), hfailed]
    exact h.on_disk
  | true =>
    have hedit := hok.logging logging hlogging
    obtain ⟨new, hnew, hrecords⟩ := hedit.new_descriptor hclosed (.inr hstage)
    apply h.atStage hlogging disk.descriptors
    intro number descriptor hcurrent hfile level f hf
    cases hcurrent
    rw [hnew] at hfile
    cases hfile
    rw [hrecords] at hf
    change f ∈ recoveredFiles ([db.vs.writeSnapshot comparator] ++ [logging.edit]) level at hf
    refine hok.mem_version_of_recovered hlogging ?_ ?_ hf
    · intro p hp hrecorded
      obtain ⟨level, g, hg, heq⟩ := recorded_writeSnapshot hrecorded
      obtain ⟨v, hv, hcv⟩ := hok.exists_current
      have hvalue : v.value = db.vs.current := congrArg Handle.value hcv
      have hmem := db.callerNumbers_subset (hedit.number_mem p hp)
      exact hok.numbers.unlisted _ hmem v hv level g (hvalue ▸ hg) heq
    · exact fun level f hf ↦ mem_current_of_snapshot hf

omit h hok hlogging in
/-- `LogAndApply` has returned: the version on the disk is the current one. -/
theorem Protected.logReturn {db db' : DBImpl K} (h : Protected disk db)
    (hok : Structured comparator disk db) (hidle : db'.logging = none)
    (hcurrent : db'.vs.current = db.target)
    (hversions : ∀ v' ∈ db'.versions, (∃ v ∈ db.versions, v.toHandle = v'.toHandle) ∨
      ∃ logging, db.logging = some logging ∧ v'.value = logging.version)
    (hwritten : db'.written ⊆ db.written)
    (hpending : ∀ c, db'.compaction = some c → ∀ n ∈ c.numbers, n ∈ db'.pendingOutputs) :
    Protected disk db' := by
  refine ⟨?_, ?_, fun n hn ↦ h.written n (hwritten hn), by simp [hidle], hpending, ?_⟩
  · intro v' hv' level hlevel
    rcases hversions v' hv' with ⟨v, hv, heq⟩ | ⟨logging, hlogging, heq⟩
    · have hvalue : v.value = v'.value := congrArg Handle.value heq
      exact hvalue ▸ h.last v hv level hlevel
    · rw [heq, (hok.logging logging hlogging).version_eq]
      exact if_neg (Nat.not_lt.mpr hlevel)
  · intro v' hv' level f hf
    rcases hversions v' hv' with ⟨v, hv, heq⟩ | ⟨logging, hlogging, heq⟩
    · have hvalue : v.value = v'.value := congrArg Handle.value heq
      exact h.listed v hv level f (hvalue ▸ hf)
    · exact h.tables_version hok hlogging level f (heq ▸ hf)
  · rw [target_of_idle hidle, hcurrent]
    exact h.on_disk

theorem Protected.continueOk (hstage : logging.stage = db.lastStage) :
    Protected disk (State.continueOk db logging) ∧ (State.continueOk db logging).flush = none := by
  obtain ⟨-, hcurrent, hidle⟩ := continueOk_spec db logging
  have htarget := target_of_lastStage hlogging hstage
  constructor
  · refine h.logReturn hok hidle (hcurrent.trans htarget.symm) (versions_continueOk hlogging)
      (written_continueOk db logging) ?_
    intro c hc n hn
    obtain ⟨hcompaction, hpending⟩ := compaction_continueOk hc
    rw [hpending]
    exact h.pending c hcompaction n hn
  · unfold State.continueOk
    cases hopen : db.vs.descriptorLog with
    | false => exact (hok.opening hopen).1
    | true =>
      cases hflush : db.flush with
      | some flush => rfl
      | none =>
        cases db.compaction with
        | some c => exact hflush
        | none => exact hflush

omit hlogging in
/-- A compaction that ends with an error, after it may have taken a number for an output. -/
theorem Protected.failCompaction (hopen : db.vs.descriptorLog = true) (hidle : db.logging = none)
    (hflush : db.flush = none) {c : CompactionWork K} (hcompaction : db.compaction = some c)
    (usedNumber : Bool) :
    Protected
      (Storage.deleteObsoleteFiles disk ((if usedNumber then db.newFileNumber else db).endCompaction c))
      ((if usedNumber then db.newFileNumber else db).endCompaction c) := by
  cases usedNumber with
  | true =>
    have hcounted : Protected disk db.newFileNumber := { h with }
    have hnumbered := hok.newFileNumber hopen hidle
    exact (hcounted.endCompaction hnumbered hidle c).deleteObsoleteFiles
      (hnumbered.endCompaction hopen hidle hcompaction) hopen hflush
  | false =>
    exact (h.endCompaction hok hidle c).deleteObsoleteFiles
      (hok.endCompaction hopen hidle hcompaction) hopen hflush

/-- A compaction whose edit could not be logged. -/
theorem Protected.compactionNotLogged (hstage : logging.stage = .failed)
    (hopen : db.vs.descriptorLog = true) (hflush : db.flush = none) {c : CompactionWork K}
    (hcompaction : db.compaction = some c) :
    Protected
      (Storage.deleteObsoleteFiles disk (({ db with logging := none } : DBImpl K).endCompaction c))
      (({ db with logging := none } : DBImpl K).endCompaction c) := by
  have hok' := hok.compactionNotLogged hopen hlogging hflush hcompaction
  refine Protected.deleteObsoleteFiles ?_ hok' hopen hflush
  refine h.logReturn hok rfl (target_of_failed hlogging (.inr hstage)).symm
    (fun v hv ↦ .inl (exists_of_mem_unref v hv)) ?_ (by rintro _ ⟨⟩)
  intro n hn
  rcases mem_append.mp hn with hn | hn
  · exact mem_append_left _ hn
  · exact mem_append_right _ (mem_append_right _ hn)

end

/-- `DB::Open` fails and removes its new descriptor, which `CURRENT` does not name. -/
theorem Protected.openFailed (hclosed : db.vs.descriptorLog = false) (hunset : ¬db.CurrentSet) :
    TablesExist (disk.setDescriptor db.vs.manifestFileNumber none) := by
  intro number descriptor hcurrent hfile
  change disk.current = some number at hcurrent
  obtain ⟨m, old, hm⟩ := hok.current
  have heq : m = number := Option.some.inj (hm.current.symm.trans hcurrent)
  have hne : number ≠ db.vs.manifestFileNumber := heq ▸ (hm.old hclosed hunset).ne
  exact h.tablesExist hok number descriptor hcurrent ((update_of_ne hne _ _).symm.trans hfile)

end

/-! ## The steps -/

/-- A call of `LogAndApply` that adds tables does not fail when its record can be read from the
descriptor that `CURRENT` names. -/
def keepsRecords (state : State K) : Action K → Bool
  | .appendRecord .readable | .syncDescriptor false =>
    (state.db.bind fun db ↦ if db.vs.descriptorLog then db.logging else none).all
      fun logging ↦ logging.edit.newFiles.isEmpty
  | _ => true

/-- The tables that a directory or its process needs exist. -/
structure TablesOk (state : State K) : Prop where
  closed : state.db = none → TablesExist state.disk
  running : ∀ db, state.db = some db → Protected state.disk db

theorem TablesOk.of_protected {ok : Bool} (h : Protected disk db) : TablesOk ⟨disk, some db, ok⟩ := by
  refine ⟨by simp, ?_⟩
  rintro _ ⟨⟩
  exact h

theorem TablesOk.of_closed {ok : Bool} (h : TablesExist disk) : TablesOk ⟨disk, none, ok⟩ :=
  ⟨fun _ ↦ h, by simp⟩

/-- The descriptor of `NewDB` names no tables. -/
theorem tablesExist_newDB {state : State K} (hcurrent : state.disk.current = none) (result : NewDBResult) :
    TablesExist (state.newDB comparator result).disk := by
  cases result with
  | ok =>
    intro number descriptor hnumber hfile level f hf
    cases hnumber
    have hfile : update state.disk.descriptors 1
      (some ⟨[newDBEdit K comparator], false, false⟩) 1 = some descriptor := hfile
    rw [update_self] at hfile
    cases hfile
    obtain ⟨record, hrecord, hnew⟩ := exists_record_of_recovered hf
    rw [mem_singleton.mp hrecord] at hnew
    cases hnew
  | failedDescriptor | failedCurrent =>
    intro number descriptor hnumber
    change state.disk.current = some number at hnumber
    rw [hcurrent] at hnumber
    cases hnumber

theorem TablesOk.step {state state' : State K} {action : Action K} (h : TablesOk state)
    (hok : StateOk comparator state) (hstep : Transition comparator state action state')
    (hkeep : keepsRecords state action = true) : TablesOk state' := by
  have hdb := h.running
  have hs := hok.structured
  cases hstep with
  | newDB hnone hcurrent =>
    exact ⟨fun _ ↦ tablesExist_newDB hcurrent _, fun db hsome ↦ by
      cases ‹NewDBResult› <;> simp [State.newDB, hnone] at hsome⟩
  | recover hnone hcurrent hfile _ hrecover =>
    exact .of_protected (.recovered (h.closed hnone) hcurrent hfile hrecover)
  | crash hsome => exact .of_closed ((hdb _ hsome).tablesExist (hs _ hsome))
  | spill hsome _ hidle _ => exact .of_protected ((hdb _ hsome).spill (hs _ hsome) hidle _)
  | markFileNumberUsed hsome _ _ =>
    apply TablesOk.of_protected
    unfold VersionSet.markFileNumberUsed
    split <;> exact { hdb _ hsome with }
  | openLog hsome _ hidle hopened =>
    rename_i db _ _
    subst hopened
    have hopened : Protected (state.disk.newLog db.vs.nextFileNumber)
        { db.newFileNumber with logfileNumber := db.vs.nextFileNumber } := { hdb _ hsome with }
    apply TablesOk.of_protected
    apply hopened.startLogging hidle
    intro p hp
    apply mem_append_right
    apply mem_append_right
    exact mem_map_of_mem hp
  | switchMemTable hsome _ _ => exact .of_protected { hdb _ hsome with }
  | pin hsome _ => exact .of_protected ((hdb _ hsome).of_refs exists_of_mem_ref _)
  | unpin hsome _ _ => exact .of_protected ((hdb _ hsome).of_refs exists_of_mem_unref _)
  | beginFlush hsome _ hidle hflush =>
    exact .of_protected ((hdb _ hsome).beginFlush (hs _ hsome) hidle hflush)
  | writeTable hsome _ hidle _ => exact .of_protected ((hdb _ hsome).writeTable (hs _ hsome) hidle)
  | flushBuilt hsome _ hidle hflush hnumber =>
    have hp := (hdb _ hsome).released (hs _ hsome) hidle hflush (.inr rfl) fun n _ ↦ rfl
    apply TablesOk.of_protected
    apply hp.startLogging hidle
    simp [flushEdit, DBImpl.written, Option.filter, hnumber]
  | flushEmpty hsome _ hidle hflush =>
    have hp := (hdb _ hsome).released (hs _ hsome) hidle hflush (.inr rfl)
      fun n hn ↦ deleteTable_of_ne (hn.resolve_right (by simp))
    apply TablesOk.of_protected
    apply hp.startLogging hidle
    simp [flushEdit]
  | flushFailed hsome _ hidle hflush =>
    apply TablesOk.of_protected
    split
    · exact (hdb _ hsome).released (hs _ hsome) hidle hflush (.inl rfl)
        fun n hn ↦ deleteTable_of_ne (hn.resolve_right (by simp))
    · exact (hdb _ hsome).released (hs _ hsome) hidle hflush (.inl rfl) fun n _ ↦ rfl
  | flushShuttingDown hsome _ hidle hflush =>
    exact .of_protected ((hdb _ hsome).released (hs _ hsome) hidle hflush (.inl rfl) fun n _ ↦ rfl)
  | beginCompaction hsome _ hidle _ _ =>
    exact .of_protected ((hdb _ hsome).beginCompaction (hs _ hsome) hidle _ _ _ _)
  | openOutput hsome _ hidle _ hcompaction hbuilding =>
    exact .of_protected ((hdb _ hsome).openOutput (hs _ hsome) hidle hcompaction hbuilding)
  | syncOutput hsome _ _ =>
    rw [hsome]
    exact .of_protected { hdb _ hsome with }
  | finishOutput hsome _ hidle _ hcompaction hbuilding _ =>
    exact .of_protected ((hdb _ hsome).finishOutput (hs _ hsome) hidle hcompaction hbuilding)
  | failCompaction hsome hopen hidle hflush hcompaction hcounted =>
    subst hcounted
    exact .of_protected ((hdb _ hsome).failCompaction (hs _ hsome) hopen hidle hflush hcompaction _)
  | installCompactionResults hsome _ hidle hflush hcompaction hbuilding =>
    apply TablesOk.of_protected
    apply (hdb _ hsome).startLogging hidle
    intro p hp
    obtain ⟨f, hf, rfl⟩ := mem_map.mp hp
    apply mem_append_right
    apply mem_append_left
    rw [hcompaction]
    exact mem_append_left _ (mem_map_of_mem hf)
  | appendRecord hsome hlogging hstart =>
    apply TablesOk.of_protected
    apply (hdb _ hsome).appendRecord (hs _ hsome) hlogging hstart
    rintro rfl hopen
    simpa [keepsRecords, hsome, hlogging, hopen] using hkeep
  | syncDescriptor hsome hlogging hstage =>
    apply TablesOk.of_protected
    apply (hdb _ hsome).syncDescriptor (hs _ hsome) hlogging hstage
    rintro rfl hopen
    simpa [keepsRecords, hsome, hlogging, hopen] using hkeep
  | setCurrentFile hsome hlogging hstage hclosed =>
    exact .of_protected ((hdb _ hsome).setCurrentFile (hs _ hsome) hlogging hstage hclosed _)
  | logReturnOk hsome hlogging hstage =>
    obtain ⟨hp, hflush⟩ := (hdb _ hsome).continueOk (hs _ hsome) hlogging hstage
    obtain ⟨hok', hopen, -⟩ := (hs _ hsome).continueOk hlogging hstage
    exact .of_protected (hp.deleteObsoleteFiles hok' hopen hflush)
  | openFailed hsome hlogging hstage hclosed =>
    exact .of_closed ((hdb _ hsome).openFailed (hs _ hsome) hclosed
      (not_currentSet hlogging (by simp [hstage])))
  | flushNotLogged hsome hlogging hstage _ _ =>
    apply TablesOk.of_protected
    refine (hdb _ hsome).logReturn (hs _ hsome) rfl (target_of_failed hlogging (.inr hstage)).symm
      (fun v hv ↦ .inl ⟨v, hv, rfl⟩) ?_ (hdb _ hsome).pending
    exact fun n hn ↦ mem_append_right _ hn
  | compactionNotLogged hsome hlogging hstage hopen hflush hcompaction =>
    exact .of_protected ((hdb _ hsome).compactionNotLogged (hs _ hsome) hlogging hstage hopen hflush
      hcompaction)
  | notLogged hsome hlogging hstage _ _ _ =>
    apply TablesOk.of_protected
    exact (hdb _ hsome).logReturn (hs _ hsome) rfl (target_of_failed hlogging (.inr hstage)).symm
      (fun v hv ↦ .inl ⟨v, hv, rfl⟩) (fun n hn ↦ hn) (hdb _ hsome).pending

theorem tables_of_reachable {state : State K} (hreach : (storage comparator Intact).ReachableWhen
      (fun state action ↦ keepsRecords state action = true) state) :
    StateOk comparator state ∧ TablesOk state := by
  refine hreach.invariant (P := fun state ↦ StateOk comparator state ∧ TablesOk state) ?_ ?_
  · rintro ⟨disk, db, ok⟩ ⟨hdb, -, hclosed, htables⟩
    cases hdb
    exact ⟨.of_closed hclosed, .of_closed htables⟩
  · intro state action state' h hkeep hnext
    have hstep := transition_of_step hnext
    exact ⟨h.1.step hstep, h.2.step h.1 hstep hkeep⟩

/-! ## Garbage collection -/

def logSucceeds : Action K → Bool
  | .appendRecord result => decide (result = .ok)
  | .syncDescriptor ok | .setCurrentFile ok => ok
  | _ => true

omit [LinearOrder K] in
theorem keepsRecords_of_logSucceeds {state : State K} {action : Action K}
    (h : logSucceeds action = true) : keepsRecords state action = true := by
  unfold keepsRecords
  split <;> simp_all [logSucceeds]

/-- The files that no call of `DeleteObsoleteFiles` may remove. -/
structure FilesKept (disk : Directory K) (db : DBImpl K) : Prop where
  /-- The tables of every version on which someone holds a reference. -/
  referenced : ∀ holder ∈ db.holders, ∀ level, ∀ f ∈ holder.value level, disk.tables f.number = true
  /-- The table of the flush, the outputs of the compaction and the tables that `DB::Open` writes. -/
  writing : ∀ n ∈ db.written, disk.tables n = true
  /-- The logs of `mem_` and of `imm_`. -/
  logs : db.vs.descriptorLog = true →
    disk.logs db.logfileNumber = true ∧ ∀ n, db.imm = some n → disk.logs n = true
  descriptor : ∃ number descriptor, disk.current = some number ∧ disk.descriptors number = some descriptor

/-- In every run whose calls of `LogAndApply` succeed, the files in use exist. -/
theorem deleteObsoleteFiles_keeps_used (comparator : String) (state : State K)
    (hreach : (storage comparator Intact).ReachableWhen (fun _ action ↦ logSucceeds action = true) state)
    (db : DBImpl K) (hdb : state.db = some db) : FilesKept state.disk db := by
  obtain ⟨actions, hrun⟩ := hreach
  have hkeeps := hrun.mono fun state action h ↦
    (keepsRecords_of_logSucceeds h : keepsRecords state action = true)
  obtain ⟨hstate, htables⟩ := tables_of_reachable ⟨actions, hkeeps⟩
  have hok := hstate.structured db hdb
  have hprotected := htables.running db hdb
  obtain ⟨number, descriptor, hcurrent⟩ := hok.current
  refine ⟨?_, hprotected.written, ?_, number, descriptor, hcurrent.current, hcurrent.file⟩
  · intro holder hmem level f hf
    obtain ⟨v, hv, heq⟩ := hok.tracks.held holder hmem
    have hvalue : v.value = holder.value := congrArg Handle.value heq
    exact hprotected.listed v hv level f (hvalue ▸ hf)
  · exact fun hopen ↦ ⟨(hok.logs hopen).mem, fun n hn ↦ ((hok.logs hopen).imm n hn).1⟩

theorem intact_empty : Intact ({} : Directory K) := ⟨by rintro _ ⟨⟩, by rintro _ _ ⟨⟩⟩

/-- The steps from an empty directory until the database is open, and the flush of one memtable. -/
def openAndFlush (file : FileMetaData K) : List (Action K) :=
  [.newDB .ok, .recover, .openLog, .appendRecord .ok, .syncDescriptor true, .setCurrentFile true,
    .logReturn, .switchMemTable, .beginFlush, .writeTable, .finishFlush (.built file), .appendRecord .ok,
    .syncDescriptor true, .logReturn]

/-- An iterator holds a version while its table is compacted and a memtable is flushed in between. -/
theorem deleteObsoleteFiles_keeps_pinned_table : ∃ (state : State ℕ) (db : DBImpl ℕ), state.db = some db ∧
      db.readers.map (fun reader ↦ (reader.value 2).map FileMetaData.number) = [[5]] ∧
      (db.vs.current 2).map FileMetaData.number = [] ∧
      (db.vs.current 3).map FileMetaData.number = [6] ∧ FilesKept state.disk db := by
  obtain ⟨state, hrun, hstate⟩ := Machine.Run.of_exec (storage (K := ℕ) "cmp" Intact)
    (fun _ action ↦ logSucceeds action) ⟨{}, none, false⟩ ⟨rfl, rfl, intact_empty⟩
    (openAndFlush ⟨5, 100, ⟨1, 7⟩, ⟨3, 8⟩⟩ ++
      [.pin, .beginCompaction 2 [⟨5, 100, ⟨1, 7⟩, ⟨3, 8⟩⟩] [] ⟨3, 8⟩, .openOutput, .syncOutput,
        .switchMemTable, .beginFlush, .writeTable, .finishFlush (.built ⟨8, 100, ⟨2, 9⟩, ⟨4, 9⟩⟩),
        .appendRecord .ok, .syncDescriptor true, .logReturn, .finishOutput ⟨6, 90, ⟨1, 7⟩, ⟨3, 8⟩⟩,
        .installCompactionResults, .appendRecord .ok, .syncDescriptor true, .logReturn])
    (fun state ↦ (state.db.any fun db ↦ decide (
      db.readers.map (fun reader ↦ (reader.value 2).map FileMetaData.number) = [[5]] ∧
      (db.vs.current 2).map FileMetaData.number = [] ∧
      (db.vs.current 3).map FileMetaData.number = [6])) = true) (by decide +kernel)
  obtain ⟨db, hdb, htest⟩ := (Option.any_eq_true _ _).mp hstate
  obtain ⟨hreader, hlevel2, hlevel3⟩ := of_decide_eq_true htest
  exact ⟨state, db, hdb, hreader, hlevel2, hlevel3,
    deleteObsoleteFiles_keeps_used "cmp" state ⟨_, hrun⟩ db hdb⟩

/-! ## Failures of LogAndApply -/

theorem Transition.vs_eq {state state' : State K} {action : Action K}
    (hstep : Transition comparator state action state') {db db' : DBImpl K} (hdb : state.db = some db)
    (hdb' : state'.db = some db') (hfail : action = .logReturn → state'.returnedOk = false) :
    db'.vs.current = db.vs.current ∧ db'.vs.logNumber = db.vs.logNumber ∧
      db'.vs.prevLogNumber = db.vs.prevLogNumber := by
  have heq : ∀ {db₀ : DBImpl K}, state.db = some db₀ → db₀ = db :=
    fun h ↦ Option.some.inj (h.symm.trans hdb)
  cases hstep with
  | newDB hnone _ | recover hnone _ _ _ _ => rw [hdb] at hnone; cases hnone
  | crash _ | openFailed _ _ _ _ => cases hdb'
  | logReturnOk _ _ _ => cases hfail rfl
  | syncOutput hsome _ _ =>
    cases heq hsome
    cases hdb.symm.trans hdb'
    exact ⟨rfl, rfl, rfl⟩
  | markFileNumberUsed hsome _ _ =>
    cases heq hsome
    cases hdb'
    unfold VersionSet.markFileNumberUsed
    split <;> exact ⟨rfl, rfl, rfl⟩
  | failCompaction hsome _ _ _ _ hcounted =>
    cases heq hsome
    cases hdb'
    subst hcounted
    split <;> exact ⟨rfl, rfl, rfl⟩
  | openLog hsome _ _ hopened =>
    cases heq hsome
    subst hopened
    cases hdb'
    exact ⟨rfl, rfl, rfl⟩
  | _ hsome => cases heq hsome; cases hdb'; exact ⟨rfl, rfl, rfl⟩

/-- In every run in which no call that adds tables fails behind a readable record, the tables of the
version that `Recover` would rebuild exist.  In every state, a step other than a successful return of
`LogAndApply` leaves the current version and the log numbers as they are. -/
theorem recovered_tables_exist (comparator : String) (state : State K)
    (hreach : (storage comparator Intact).ReachableWhen
      (fun state action ↦ keepsRecords state action = true) state) :
    (∀ state' db, state.recover comparator = .next state' → state'.db = some db →
      ∀ level, ∀ f ∈ db.vs.current level, state.disk.tables f.number = true) ∧
    ∀ action state' db db', (storage comparator Intact).step state action = .next state' →
      state.db = some db → state'.db = some db' →
      (action = .logReturn → state'.returnedOk = false) →
      db'.vs.current = db.vs.current ∧ db'.vs.logNumber = db.vs.logNumber ∧
        db'.vs.prevLogNumber = db.vs.prevLogNumber := by
  obtain ⟨hstate, htables⟩ := tables_of_reachable hreach
  have hexist : TablesExist state.disk := by
    cases hdb : state.db with
    | none => exact htables.closed hdb
    | some db => exact (htables.running db hdb).tablesExist (hstate.structured db hdb)
  constructor
  · intro state' db hrecover hdb' level f hf
    unfold State.recover at hrecover
    split at hrecover
    · cases hrecover
    · rename_i descriptor hdescriptor
      obtain ⟨number, hcurrent, hfile⟩ := Option.bind_eq_some_iff.mp hdescriptor
      split at hrecover
      · cases hrecover
      · split at hrecover
        · cases hrecover
        · rename_i vs hvs
          cases hrecover
          cases hdb'
          obtain ⟨nextFile, logNumber, lastSequence, -, -, -, rfl⟩ := versionSet_of_recover hvs
          exact hexist number descriptor hcurrent hfile level f hf
  · exact fun action state' db db' hnext hdb hdb' hfail ↦
      (transition_of_step hnext).vs_eq hdb hdb' hfail

/-- The append of a compaction's record fails and leaves nothing. -/
theorem recovered_tables_exist_after_failure :
    ∃ state : State ℕ, state.returnedOk = false ∧ state.disk.tables 5 = true ∧ state.disk.tables 6 = false ∧
      ∀ state' db, state.recover "cmp" = .next state' → state'.db = some db →
        ∀ level, ∀ f ∈ db.vs.current level, state.disk.tables f.number = true := by
  obtain ⟨state, hrun, hfailed, hinput, houtput⟩ := Machine.Run.of_exec (storage (K := ℕ) "cmp" Intact)
    keepsRecords ⟨{}, none, false⟩ ⟨rfl, rfl, intact_empty⟩
    (openAndFlush ⟨5, 100, ⟨1, 7⟩, ⟨3, 8⟩⟩ ++
      [.beginCompaction 2 [⟨5, 100, ⟨1, 7⟩, ⟨3, 8⟩⟩] [] ⟨3, 8⟩, .openOutput, .syncOutput,
        .finishOutput ⟨6, 90, ⟨1, 7⟩, ⟨3, 8⟩⟩, .installCompactionResults, .appendRecord .lost,
        .logReturn])
    (fun state ↦ state.returnedOk = false ∧ state.disk.tables 5 = true ∧ state.disk.tables 6 = false)
    (by decide +kernel)
  exact ⟨state, hfailed, hinput, houtput, (recovered_tables_exist "cmp" state ⟨_, hrun⟩).1⟩

/-- The sync of a compaction's record fails: the output is deleted with the compaction, and the record
that names it stays in the descriptor. -/
theorem recovered_table_missing : ∃ state : State ℕ, (storage "cmp" Intact).Reachable state ∧
      ∃ state' db level f, state.recover "cmp" = .next state' ∧ state'.db = some db ∧
        f ∈ db.vs.current level ∧ state.disk.tables f.number = false := by
  obtain ⟨state, hrun, hmissing⟩ := Machine.Run.of_exec (storage (K := ℕ) "cmp" Intact)
    (fun _ _ ↦ true) ⟨{}, none, false⟩ ⟨rfl, rfl, intact_empty⟩
    (openAndFlush ⟨5, 100, ⟨1, 7⟩, ⟨3, 8⟩⟩ ++
      [.beginCompaction 2 [⟨5, 100, ⟨1, 7⟩, ⟨3, 8⟩⟩] [] ⟨3, 8⟩, .openOutput, .syncOutput,
        .finishOutput ⟨6, 90, ⟨1, 7⟩, ⟨3, 8⟩⟩, .installCompactionResults, .appendRecord .ok,
        .syncDescriptor false, .logReturn])
    (fun state ↦ ((state.recover "cmp").toOption.any fun state' ↦ state'.db.any fun db ↦
      (db.vs.current 3).any fun f ↦ !state.disk.tables f.number) = true) (by decide +kernel)
  obtain ⟨state', hrecover, hdb⟩ := (Option.any_eq_true _ _).mp hmissing
  obtain ⟨db, hdb, hfiles⟩ := (Option.any_eq_true _ _).mp hdb
  obtain ⟨f, hf, htable⟩ := any_eq_true.mp hfiles
  exact ⟨state, ⟨_, hrun.mono fun _ _ _ ↦ trivial⟩, state', db, 3, f,
    Outcome.toOption_eq_some.mp hrecover, hdb, hf, by simpa using htable⟩

end LevelDB.Db.Storage
