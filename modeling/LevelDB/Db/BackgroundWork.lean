import LevelDB.Db.Format
import LevelDB.Library.Machine

/-!
# Scheduling of background work

The switch of the memtable in `MakeRoomForWrite`, the background call and the flag
`bg_compaction_scheduled_`, from `db/db_impl.cpp`.  A step is what a thread does from the moment it gets
`mutex_` until it releases it, by `Unlock`, by `Wait` or at the end of its `MutexLock`, so in every state
of the machine `mutex_` is free.  Threads are woken from `Wait` at any time.  The answers of the version
set and of the file system are arguments of the steps.
-/

namespace LevelDB.Db.BackgroundWork

open Format Library

structure Versions where
  /-- `NeedsCompaction` -/
  needsCompaction : Bool
  /-- `NumLevelFiles(0)` -/
  level0 : ℕ

/-- The writer at the front of the queue, in `MakeRoomForWrite` or behind it. -/
inductive Writer
  | idle
  /-- In `SleepForMicroseconds(1000)`. -/
  | delayed (nullBatch force : Bool)
  /-- In `bg_cv_.Wait()`. -/
  | waiting (nullBatch force allowDelay : Bool)
  /-- Appends to the log and inserts into `mem_`. -/
  | writing
  deriving DecidableEq

/-- A background call.  A memtable is also compacted inside a compaction of tables (`nested`). -/
inductive Call
  /-- `Schedule` has taken the call, and no thread has begun it. -/
  | queued
  /-- `CompactMemTable` in `BuildTable`. -/
  | buildTable (nested : Bool)
  /-- `CompactMemTable` in `LogAndApply`. -/
  | logMemTable (nested : Bool)
  /-- The loop of `DoCompactionWork`. -/
  | compacting
  /-- `InstallCompactionResults` in `LogAndApply`. -/
  | installing
  /-- Waiting after an error. -/
  | sleeping
  deriving DecidableEq

structure DBImpl where
  versions : Versions
  paranoidChecks : Bool
  /-- `mem_` uses more than `write_buffer_size`. -/
  memFull : Bool := false
  /-- `imm_ != NULL` -/
  imm : Bool := false
  shuttingDown : Bool := false
  /-- `!bg_error_.ok()` -/
  bgError : Bool := false
  bgCompactionScheduled : Bool := false
  /-- The calls of `BGWork` that `Schedule` has taken and that have not returned. -/
  calls : List Call := []
  writer : Writer := .idle

namespace DBImpl

/-- `MaybeScheduleCompaction`; `manual_compaction_` is never set. -/
def maybeScheduleCompaction (db : DBImpl) : DBImpl :=
  if db.bgCompactionScheduled then db
  else if db.shuttingDown then db
  else if !db.imm && !db.versions.needsCompaction then db
  else { db with bgCompactionScheduled := true, calls := db.calls ++ [.queued] }

/-- The cases of the loop. -/
inductive Room
  | error
  | delay
  | room
  | wait
  | switch
  deriving DecidableEq

def room (db : DBImpl) (force allowDelay : Bool) : Room :=
  if db.bgError then .error
  else if allowDelay && decide (kL0SlowdownWritesTrigger ≤ db.versions.level0) then .delay
  else if !force && !db.memFull then .room
  else if db.imm then .wait
  else if kL0StopWritesTrigger ≤ db.versions.level0 then .wait
  else .switch

theorem imm_of_switch {db : DBImpl} {force allowDelay : Bool} (h : db.room force allowDelay = .switch) :
    db.imm = false := by
  unfold room at h
  split at h
  · cases h
  · split at h
    · cases h
    · split at h
      · cases h
      · split at h
        · cases h
        · rename_i himm
          simpa using himm

/-- The loop until the writer leaves it or releases the mutex.  `logOk` tells whether the new log file
could be created. -/
def makeRoomForWrite (db : DBImpl) (nullBatch force allowDelay logOk : Bool) : DBImpl :=
  match _h : db.room force allowDelay with
  | .error => { db with writer := .idle }
  | .delay => { db with writer := .delayed nullBatch force }
  | .room => { db with writer := if nullBatch then .idle else .writing }
  | .wait => { db with writer := .waiting nullBatch force allowDelay }
  | .switch =>
    if logOk then
      -- the source has `// TODO` where the switch is to be followed by `MaybeScheduleCompaction`
      makeRoomForWrite { db with imm := true, memFull := false } nullBatch false allowDelay logOk
    else { db with writer := .idle }
termination_by (!db.imm).toNat
decreasing_by simp [imm_of_switch ‹db.room force allowDelay = .switch›]

def setCall (db : DBImpl) (index : ℕ) (call : Call) : DBImpl := { db with calls := db.calls.set index call }

def finishCall (db : DBImpl) (index : ℕ) : DBImpl :=
  maybeScheduleCompaction
    { db with bgCompactionScheduled := false, calls := db.calls.eraseIdx index }

/-- `BackgroundCall` after an error of `BackgroundCompaction`. -/
def failCall (db : DBImpl) (index : ℕ) : DBImpl :=
  if db.shuttingDown then db.finishCall index else db.setCall index .sleeping

/-- `BackgroundCompaction` after an error of `DoCompactionWork`. -/
def failCompaction (db : DBImpl) (index : ℕ) : DBImpl :=
  if !db.shuttingDown && db.paranoidChecks then ({ db with bgError := true }).failCall index
  else db.failCall index

/-- `CompactMemTable` returns; inside a compaction of tables its status is not looked at. -/
def returnMemTable (db : DBImpl) (index : ℕ) (nested ok : Bool) : DBImpl :=
  if nested then db.setCall index .compacting
  else if ok then db.finishCall index
  else db.failCall index

end DBImpl

/-- What a background call meets when it goes on. -/
inductive Event
  /-- A thread begins the call; `picked` tells whether `PickCompaction` finds a compaction. -/
  | start (picked : Bool)
  | tableBuilt (ok : Bool)
  | memTableLogged (ok : Bool) (versions : Versions)
  /-- The loop of `DoCompactionWork` finds `has_imm_` set. -/
  | foundImm
  | compacted (ok : Bool)
  | resultsLogged (ok : Bool) (versions : Versions)
  | slept

inductive Action
  /-- A writer gets to the front of the queue; `nullBatch` is the call that forces a switch. -/
  | write (nullBatch logOk : Bool)
  /-- The writer in front goes on after its delay or `Wait`. -/
  | resume (logOk : Bool)
  | finishWrite (memFull : Bool)
  /-- `Get` ends; `updated` is set when `UpdateStats` has found a file to compact, in the current version
  or in one that has been replaced. -/
  | get (updated current : Bool)
  | background (index : ℕ) (event : Event)
  /-- The destructor sets `shutting_down_`. -/
  | shutDown

namespace DBImpl

def callStep (db : DBImpl) (index : ℕ) : Call → Event → Outcome DBImpl
  | .queued, .start picked =>
    if db.bgCompactionScheduled then
      .next (if db.shuttingDown then db.finishCall index
        else if db.imm then db.setCall index (.buildTable false)
        else if picked then db.setCall index .compacting
        else db.finishCall index)
    else .abort
  | .buildTable nested, .tableBuilt ok =>
    .next (if ok && !db.shuttingDown then db.setCall index (.logMemTable nested)
      else db.returnMemTable index nested false)
  | .logMemTable nested, .memTableLogged ok versions =>
    .next (if ok then
        ({ db with versions := versions, imm := false }).returnMemTable index nested true
      else db.returnMemTable index nested false)
  | .compacting, .foundImm => .guarded (db.imm = true) (.next (db.setCall index (.buildTable true)))
  | .compacting, .compacted ok =>
    .next (if ok && !db.shuttingDown then db.setCall index .installing else db.failCompaction index)
  | .installing, .resultsLogged ok versions =>
    .next (if ok then ({ db with versions := versions }).finishCall index else db.failCompaction index)
  | .sleeping, .slept => .next (db.finishCall index)
  | _, _ => .blocked

def step (db : DBImpl) : Action → Outcome DBImpl
  | .write nullBatch logOk => .guarded (db.writer = .idle)
      (.next (db.makeRoomForWrite nullBatch nullBatch (!nullBatch) logOk))
  | .resume logOk =>
    match db.writer with
    | .delayed nullBatch force => .next (db.makeRoomForWrite nullBatch force false logOk)
    | .waiting nullBatch force allowDelay => .next (db.makeRoomForWrite nullBatch force allowDelay logOk)
    | _ => .blocked
  | .finishWrite memFull => .guarded (db.writer = .writing)
      (.next { db with memFull := memFull, writer := .idle })
  | .get updated current => .next (if updated then
      maybeScheduleCompaction
        { db with versions.needsCompaction := db.versions.needsCompaction || current }
      else db)
  | .background index event =>
    match db.calls[index]? with
    | some call => db.callStep index call event
    | none => .blocked
  | .shutDown => .next { db with shuttingDown := true }

end DBImpl

/-- The machine starts at the end of `DB::Open`. -/
def background : Machine DBImpl Action where
  init db := ∃ versions paranoidChecks, db = DBImpl.maybeScheduleCompaction { versions, paranoidChecks }
  step := DBImpl.step

/-- The flag is set for an immutable memtable, and it counts the calls. -/
structure Scheduled (db : DBImpl) : Prop where
  imm : db.imm = true → db.shuttingDown = false → db.bgCompactionScheduled = true
  calls : db.calls.length = db.bgCompactionScheduled.toNat

namespace DBImpl

theorem makeRoomForWrite_frame (db : DBImpl) (nullBatch force allowDelay logOk : Bool) :
    (db.makeRoomForWrite nullBatch force allowDelay logOk).bgCompactionScheduled =
        db.bgCompactionScheduled ∧
      (db.makeRoomForWrite nullBatch force allowDelay logOk).shuttingDown = db.shuttingDown ∧
      (db.makeRoomForWrite nullBatch force allowDelay logOk).calls = db.calls := by
  fun_induction makeRoomForWrite with
  | case5 _ _ _ _ ih => exact ih
  | _ => exact ⟨rfl, rfl, rfl⟩

/-- `imm_` is set by the switch, and nothing else in the loop touches it. -/
theorem makeRoomForWrite_imm (db : DBImpl) (nullBatch force allowDelay logOk : Bool) :
    (db.makeRoomForWrite nullBatch force allowDelay logOk).imm =
      (db.imm || (logOk && decide (db.room force allowDelay = .switch))) := by
  fun_induction makeRoomForWrite with
  | case5 _ _ hswitch hlog ih =>
    rw [ih]
    simp [hlog, hswitch]
  | _ => simp_all

def switchesMemTable (db : DBImpl) : Action → Bool
  | .write nullBatch logOk => logOk && decide (db.room nullBatch (!nullBatch) = .switch)
  | .resume logOk =>
    match db.writer with
    | .delayed _ force => logOk && decide (db.room force false = .switch)
    | .waiting _ force allowDelay => logOk && decide (db.room force allowDelay = .switch)
    | _ => false
  | _ => false

end DBImpl

/-- A memtable is switched only while a background call is scheduled, or at shutdown. -/
def switchIsScheduled (db : DBImpl) (action : Action) : Bool :=
  !db.switchesMemTable action || db.bgCompactionScheduled || db.shuttingDown

namespace Scheduled

variable {db : DBImpl}

theorem maybeScheduleCompaction (hcalls : db.calls.length = db.bgCompactionScheduled.toNat) :
    Scheduled db.maybeScheduleCompaction := by
  unfold DBImpl.maybeScheduleCompaction
  split
  · rename_i hscheduled
    exact ⟨fun _ _ ↦ hscheduled, hcalls⟩
  · rename_i hscheduled
    split
    · rename_i hshutting
      exact ⟨fun _ hnot ↦ absurd hshutting (by simp [hnot]), hcalls⟩
    · split
      · rename_i hidle
        simp only [Bool.and_eq_true, Bool.not_eq_true'] at hidle
        exact ⟨fun himm ↦ absurd himm (by simp [hidle.1]), hcalls⟩
      · refine ⟨fun _ _ ↦ rfl, ?_⟩
        have hzero : db.calls.length = 0 := by simpa [hscheduled] using hcalls
        simp [hzero]

theorem setCall (h : Scheduled db) (index : ℕ) (call : Call) : Scheduled (db.setCall index call) :=
  ⟨h.imm, by simpa [DBImpl.setCall] using h.calls⟩

/-- There is only one call, so none is left when it returns. -/
theorem finishCall (hcalls : db.calls.length = db.bgCompactionScheduled.toNat) {index : ℕ}
    (hindex : index < db.calls.length) : Scheduled (db.finishCall index) := by
  apply maybeScheduleCompaction
  have hone : db.bgCompactionScheduled.toNat ≤ 1 := Bool.toNat_le _
  have hlength := List.length_eraseIdx_add_one hindex
  simp only [Bool.toNat_false]
  omega

theorem failCall (h : Scheduled db) {index : ℕ} (hindex : index < db.calls.length) :
    Scheduled (db.failCall index) := by
  unfold DBImpl.failCall
  split
  · exact finishCall h.calls hindex
  · exact h.setCall index .sleeping

theorem failCompaction (h : Scheduled db) {index : ℕ} (hindex : index < db.calls.length) :
    Scheduled (db.failCompaction index) := by
  have herror : Scheduled { db with bgError := true } := ⟨h.imm, h.calls⟩
  unfold DBImpl.failCompaction
  split
  · exact herror.failCall hindex
  · exact h.failCall hindex

theorem returnMemTable (h : Scheduled db) {index : ℕ} (hindex : index < db.calls.length)
    (nested ok : Bool) : Scheduled (db.returnMemTable index nested ok) := by
  unfold DBImpl.returnMemTable
  split
  · exact h.setCall index .compacting
  · split
    · exact finishCall h.calls hindex
    · exact h.failCall hindex

/-- No call finds the flag cleared. -/
theorem scheduled_of_call (h : Scheduled db) {index : ℕ} (hindex : index < db.calls.length) :
    db.bgCompactionScheduled = true := by
  have hcalls := h.calls
  cases hflag : db.bgCompactionScheduled with
  | true => rfl
  | false =>
    simp only [hflag, Bool.toNat_false] at hcalls
    omega

theorem callStep (h : Scheduled db) {index : ℕ} (hindex : index < db.calls.length) {call : Call}
    {event : Event} {db' : DBImpl} (hnext : db.callStep index call event = .next db') : Scheduled db' := by
  unfold DBImpl.callStep at hnext
  split at hnext
  · rw [if_pos (h.scheduled_of_call hindex)] at hnext
    cases hnext
    split
    · exact finishCall h.calls hindex
    · split
      · exact h.setCall index _
      · split
        · exact h.setCall index _
        · exact finishCall h.calls hindex
  · cases hnext
    split
    · exact h.setCall index _
    · exact h.returnMemTable hindex _ _
  · rename_i nested ok versions
    have hflushed : Scheduled { db with versions := versions, imm := false } := ⟨by simp, h.calls⟩
    cases hnext
    split
    · exact hflushed.returnMemTable hindex _ _
    · exact h.returnMemTable hindex _ _
  · rw [Outcome.guarded_eq_next] at hnext
    cases hnext.2
    exact h.setCall index _
  · cases hnext
    split
    · exact h.setCall index _
    · exact h.failCompaction hindex
  · rename_i ok versions
    have hinstalled : Scheduled { db with versions := versions } := ⟨h.imm, h.calls⟩
    cases hnext
    split
    · exact finishCall hinstalled.calls hindex
    · exact h.failCompaction hindex
  · cases hnext
    exact finishCall h.calls hindex
  · cases hnext

theorem makeRoomForWrite (h : Scheduled db) {nullBatch force allowDelay logOk : Bool}
    (hswitch : (logOk && decide (db.room force allowDelay = .switch)) = true →
      db.bgCompactionScheduled = true ∨ db.shuttingDown = true) :
    Scheduled (db.makeRoomForWrite nullBatch force allowDelay logOk) := by
  obtain ⟨hflag, hshutting, hcalls⟩ := db.makeRoomForWrite_frame nullBatch force allowDelay logOk
  constructor
  · intro himm hrunning
    rw [DBImpl.makeRoomForWrite_imm, Bool.or_eq_true] at himm
    rw [hshutting] at hrunning
    rw [hflag]
    rcases himm with himm | himm
    · exact h.imm himm hrunning
    · exact (hswitch himm).resolve_right (by simp [hrunning])
  · rw [hcalls, hflag]
    exact h.calls

theorem step (h : Scheduled db) {action : Action} {db' : DBImpl} (hnext : db.step action = .next db')
    (hswitch : switchIsScheduled db action = true) : Scheduled db' := by
  have hok : db.switchesMemTable action = true →
      db.bgCompactionScheduled = true ∨ db.shuttingDown = true := by
    intro hswitches
    simpa [switchIsScheduled, hswitches] using hswitch
  cases action with
  | write nullBatch logOk =>
    rw [DBImpl.step, Outcome.guarded_eq_next] at hnext
    cases hnext.2
    exact h.makeRoomForWrite hok
  | resume logOk =>
    simp only [DBImpl.step] at hnext
    simp only [DBImpl.switchesMemTable] at hok
    split at hnext
    · rename_i nullBatch force hwriter
      cases hnext
      rw [hwriter] at hok
      exact h.makeRoomForWrite hok
    · rename_i nullBatch force allowDelay hwriter
      cases hnext
      rw [hwriter] at hok
      exact h.makeRoomForWrite hok
    · cases hnext
  | finishWrite memFull =>
    rw [DBImpl.step, Outcome.guarded_eq_next] at hnext
    cases hnext.2
    exact ⟨h.imm, h.calls⟩
  | get updated current =>
    cases hnext
    split
    · exact maybeScheduleCompaction h.calls
    · exact h
  | background index event =>
    simp only [DBImpl.step] at hnext
    split at hnext
    · rename_i call hcall
      obtain ⟨hindex, -⟩ := List.getElem?_eq_some_iff.mp hcall
      exact h.callStep hindex hnext
    · cases hnext
  | shutDown =>
    cases hnext
    exact ⟨by simp, h.calls⟩

end Scheduled

theorem scheduled_of_reachable {db : DBImpl} (hreach : background.ReachableWhen
    (fun db action ↦ switchIsScheduled db action = true) db) : Scheduled db := by
  refine hreach.invariant ?_ ?_
  · rintro _ ⟨versions, paranoidChecks, rfl⟩
    exact .maybeScheduleCompaction rfl
  · exact fun db action db' h hswitch hnext ↦ h.step hnext hswitch

/-- The steps of a call, none of which fails, until `imm_` is flushed. -/
def flushEvents (versions : Versions) : Call → List Event
  | .queued => [.start false, .tableBuilt true, .memTableLogged true versions]
  | .buildTable _ => [.tableBuilt true, .memTableLogged true versions]
  | .logMemTable _ => [.memTableLogged true versions]
  | .compacting => [.foundImm, .tableBuilt true, .memTableLogged true versions]
  | .installing =>
    [.resultsLogged true versions, .start false, .tableBuilt true, .memTableLogged true versions]
  | .sleeping => [.slept, .start false, .tableBuilt true, .memTableLogged true versions]

theorem imm_maybeScheduleCompaction (db : DBImpl) : db.maybeScheduleCompaction.imm = db.imm := by
  unfold DBImpl.maybeScheduleCompaction
  split
  · rfl
  · split
    · rfl
    · split <;> rfl

theorem imm_returnMemTable (db : DBImpl) (index : ℕ) (nested : Bool) :
    (db.returnMemTable index nested true).imm = db.imm := by
  cases nested with
  | false =>
    change (db.finishCall index).imm = db.imm
    rw [DBImpl.finishCall, imm_maybeScheduleCompaction]
  | true => rfl

/-- The end of a call schedules the next one when there is an immutable memtable. -/
theorem finishCall_of_imm {db : DBImpl} (himm : db.imm = true) (hrunning : db.shuttingDown = false)
    (index : ℕ) : db.finishCall index = { db with
      bgCompactionScheduled := true, calls := db.calls.eraseIdx index ++ [.queued] } := by
  simp [DBImpl.finishCall, DBImpl.maybeScheduleCompaction, himm, hrunning]

/-- The only call is at this point, and there is a memtable to flush. -/
structure Flushing (db : DBImpl) (call : Call) : Prop where
  imm : db.imm = true
  running : db.shuttingDown = false
  flag : db.bgCompactionScheduled = true
  calls : db.calls = [call]

def Flushes (versions : Versions) (call : Call) : Prop :=
  ∀ db, Flushing db call → ∃ db', background.exec (fun _ _ ↦ true) db
    ((flushEvents versions call).map (.background 0)) = some db' ∧ db'.imm = false

theorem Flushing.setCall {db : DBImpl} {call : Call} (h : Flushing db call) (next : Call) :
    Flushing (db.setCall 0 next) next where
  imm := h.imm
  running := h.running
  flag := h.flag
  calls := by rw [DBImpl.setCall, h.calls, List.set_cons_zero]

theorem Flushing.finishCall {db : DBImpl} {call : Call} (h : Flushing db call) :
    Flushing (db.finishCall 0) .queued := by
  rw [finishCall_of_imm h.imm h.running]
  exact ⟨h.imm, h.running, rfl, by rw [h.calls]; rfl⟩

theorem Flushing.exec_cons {db db' : DBImpl} {call : Call} {event : Event} (h : Flushing db call)
    (hstep : db.callStep 0 call event = .next db') (events : List Event) :
    background.exec (fun _ _ ↦ true) db ((event :: events).map (.background 0)) =
      background.exec (fun _ _ ↦ true) db' (events.map (.background 0)) := by
  have hnext : background.step db (.background 0 event) = .next db' := by
    change db.step (.background 0 event) = .next db'
    simp [DBImpl.step, h.calls, hstep]
  rw [List.map_cons, Machine.exec, if_pos rfl, hnext]
  rfl

theorem Flushes.of_step {versions : Versions} {call next : Call} {event : Event}
    (hflush : Flushes versions next)
    (hevents : flushEvents versions call = event :: flushEvents versions next)
    (hstep : ∀ db, Flushing db call → ∃ db', db.callStep 0 call event = .next db' ∧ Flushing db' next) :
    Flushes versions call := by
  intro db h
  obtain ⟨db', hnext, h'⟩ := hstep db h
  rw [hevents, h.exec_cons hnext]
  exact hflush db' h'

theorem flushes (versions : Versions) (call : Call) : Flushes versions call := by
  have hlog : ∀ nested, Flushes versions (.logMemTable nested) := by
    intro nested db h
    exact ⟨_, h.exec_cons rfl [], imm_returnMemTable _ 0 nested⟩
  have hbuild : ∀ nested, Flushes versions (.buildTable nested) := by
    refine fun nested ↦ (hlog nested).of_step rfl fun db h ↦ ⟨_, ?_, h.setCall _⟩
    simp [DBImpl.callStep, h.running]
  have hqueued : Flushes versions .queued := by
    refine (hbuild false).of_step rfl fun db h ↦ ⟨_, ?_, h.setCall _⟩
    simp [DBImpl.callStep, h.imm, h.running, h.flag]
  cases call with
  | queued => exact hqueued
  | buildTable nested => exact hbuild nested
  | logMemTable nested => exact hlog nested
  | compacting =>
    refine (hbuild true).of_step rfl fun db h ↦ ⟨_, ?_, h.setCall _⟩
    simp [DBImpl.callStep, h.imm, Outcome.guarded]
  -- the call ends and schedules the one that flushes
  | installing =>
    refine hqueued.of_step rfl fun db h ↦ ⟨_, rfl, ?_⟩
    exact @Flushing.finishCall _ .installing ⟨h.imm, h.running, h.flag, h.calls⟩
  | sleeping => exact hqueued.of_step rfl fun db h ↦ ⟨_, rfl, h.finishCall⟩

/-- In every run whose memtables are switched only while a background call is scheduled, an immutable
memtable has a scheduled call, and the steps of that call flush it. -/
theorem imm_has_background_call (db : DBImpl)
    (hreach : background.ReachableWhen (fun db action ↦ switchIsScheduled db action = true) db)
    (himm : db.imm = true) (hrunning : db.shuttingDown = false) :
    db.bgCompactionScheduled = true ∧ ∃ call, db.calls = [call] ∧
      ∀ versions, ∃ db', background.exec (fun _ _ ↦ true) db
        ((flushEvents versions call).map (.background 0)) = some db' ∧ db'.imm = false := by
  have h := scheduled_of_reachable hreach
  have hflag := h.imm himm hrunning
  have hlength : db.calls.length = 1 := by simpa [hflag] using h.calls
  obtain ⟨call, hcalls⟩ := List.length_eq_one_iff.mp hlength
  exact ⟨hflag, call, hcalls, fun versions ↦ flushes versions call db ⟨himm, hrunning, hflag, hcalls⟩⟩

/-- A database that is opened with a compaction to do, and whose memtable fills. -/
theorem imm_has_background_call_after_switch :
    ∃ db : DBImpl, db.imm = true ∧ db.shuttingDown = false ∧ db.bgCompactionScheduled = true ∧
      ∃ call, db.calls = [call] := by
  obtain ⟨db, hrun, himm, hrunning⟩ := Machine.Run.of_exec background switchIsScheduled
    (DBImpl.maybeScheduleCompaction ⟨⟨true, 4⟩, false, false, false, false, false, false, [], .idle⟩)
    ⟨⟨true, 4⟩, false, rfl⟩
    [.write false true, .finishWrite true, .write false true]
    (fun db ↦ db.imm = true ∧ db.shuttingDown = false) (by decide +kernel)
  obtain ⟨hflag, call, hcalls, -⟩ := imm_has_background_call db ⟨_, hrun⟩ himm hrunning
  exact ⟨db, himm, hrunning, hflag, call, hcalls⟩

/-- After a switch in a database without other work no call is scheduled, and the next writer that needs
a switch waits for one. -/
theorem imm_without_background_call :
    ∃ db : DBImpl, background.Reachable db ∧ db.imm = true ∧ db.shuttingDown = false ∧
      db.bgCompactionScheduled = false ∧ db.calls = [] ∧ db.writer = .waiting false false true := by
  obtain ⟨db, hrun, hstate⟩ := Machine.Run.of_exec background (fun _ _ ↦ true)
    (DBImpl.maybeScheduleCompaction ⟨⟨false, 0⟩, false, false, false, false, false, false, [], .idle⟩)
    ⟨⟨false, 0⟩, false, rfl⟩
    [.write false true, .finishWrite true, .write false true, .finishWrite true, .write false true]
    (fun db ↦ db.imm = true ∧ db.shuttingDown = false ∧ db.bgCompactionScheduled = false ∧
      db.calls = [] ∧ db.writer = .waiting false false true) (by decide +kernel)
  exact ⟨db, ⟨_, hrun.mono fun _ _ _ ↦ trivial⟩, hstate⟩

end LevelDB.Db.BackgroundWork
