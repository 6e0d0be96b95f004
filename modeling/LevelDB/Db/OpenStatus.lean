import LevelDB.Db.FileNumbers

/-!
# The status of an open

`DBImpl::Recover` and `DB::Open` of `db/db_impl.cpp`, for any statuses of the calls they make.
`Recover` replays the logs in order and keeps the status of the last replay only, so the failure of
an earlier log is lost when a later one can be replayed.  `Open` then installs a new log number and
`DeleteObsoleteFiles` removes the log that was not recovered.
-/

namespace LevelDB.Db.OpenStatus

open Manifest FileNumbers

inductive Status
  | ok
  | invalidArgument (name message : String)
  | ioError (message : String)
  | corruption (message : String)
  deriving DecidableEq, Repr

variable {K : Type*}

/-- What an open finds and what the calls that it makes return. -/
structure Opening (K : Type*) where
  dbname : String := "db"
  createIfMissing : Bool := false
  errorIfExists : Bool := false
  currentExists : Bool := true
  lockFile : Status := .ok
  newDB : Status := .ok
  versionsRecover : Status := .ok
  /-- The version set after `VersionSet::Recover`. -/
  versions : VersionSet K
  getChildren : Status := .ok
  /-- The numbers of the log files in the directory. -/
  logFiles : List ℕ
  recoverLogFile : ℕ → Status
  /-- How many file numbers the replay of a log takes for its tables. -/
  tablesWritten : ℕ → ℕ := fun _ ↦ 0
  newWritableFile : Status := .ok
  logAndApply : Status := .ok

namespace Opening

def logs (o : Opening K) : List ℕ := logsToRecover o.versions o.logFiles

def beforeLogs (o : Opening K) : Status :=
  if o.lockFile ≠ .ok then o.lockFile
  else if ¬o.currentExists ∧ ¬o.createIfMissing then
    .invalidArgument o.dbname "does not exist (create_if_missing is false)"
  else if ¬o.currentExists ∧ o.newDB ≠ .ok then o.newDB
  else if o.currentExists ∧ o.errorIfExists then
    .invalidArgument o.dbname "exists (error_if_exists is true)"
  else if o.versionsRecover ≠ .ok then o.versionsRecover
  else o.getChildren

/-- The loop over the logs assigns `s` anew in every round. -/
def replayStatus (o : Opening K) (s : Status) (logs : List ℕ) : Status :=
  logs.foldl (fun _ log ↦ o.recoverLogFile log) s

def recover (o : Opening K) : Status :=
  if o.beforeLogs ≠ .ok then o.beforeLogs else o.replayStatus .ok o.logs

/-- The version set after the replay of a log: the file numbers of its tables, and its own. -/
def replayedVersions (o : Opening K) (vs : VersionSet K) (log : ℕ) : VersionSet K :=
  ((VersionSet.newFileNumber)^[o.tablesWritten log] vs).markFileNumberUsed log

/-- `new_log_number` of `DB::Open`. -/
def newLogNumber (o : Opening K) : ℕ := (o.logs.foldl o.replayedVersions o.versions).nextFileNumber

/-- `DB::Open`. -/
def openStatus (o : Opening K) : Status :=
  if o.recover ≠ .ok then o.recover
  else if o.newWritableFile ≠ .ok then o.newWritableFile
  else o.logAndApply

def retiredLogs (o : Opening K) : List ℕ :=
  if o.openStatus = .ok then
    o.logFiles.filter fun number ↦
      ¬(o.newLogNumber ≤ number ∨ number = o.versions.prevLogNumber)
  else []

/-- The last log can be replayed only if all of them can. -/
def LastLogDecides (o : Opening K) : Prop :=
  ∀ last, o.logs.getLast? = some last → o.recoverLogFile last = .ok →
    ∀ log ∈ o.logs, o.recoverLogFile log = .ok

theorem replayStatus_eq (o : Opening K) (s : Status) (logs : List ℕ) :
    o.replayStatus s logs = (logs.getLast?.map o.recoverLogFile).getD s := by
  induction logs generalizing s with
  | nil => rfl
  | cons log rest ih =>
    have hrest := ih (o.recoverLogFile log)
    cases hlast : rest.getLast? with
    | none =>
      rw [List.getLast?_eq_none_iff] at hlast
      subst hlast
      rfl
    | some last =>
      rw [hlast] at hrest
      rw [List.getLast?_cons, hlast]
      exact hrest

theorem recover_eq_ok_iff (o : Opening K) : o.recover = .ok ↔ o.beforeLogs = .ok ∧
      ∀ last, o.logs.getLast? = some last → o.recoverLogFile last = .ok := by
  unfold recover
  split
  · rename_i hbefore
    simp [hbefore]
  · rename_i hbefore
    rw [not_not] at hbefore
    rw [replayStatus_eq]
    cases o.logs.getLast? with
    | none => simp [hbefore]
    | some last => simp [hbefore]

theorem recover_eq_ok_of_openStatus {o : Opening K} (h : o.openStatus = .ok) : o.recover = .ok := by
  unfold openStatus at h
  split at h
  · exact h
  · rename_i hok
    exact not_not.mp hok

/-- A successful recovery vouches for all of its logs, and no log that failed is retired, exactly
when the last log decides for the ones before it. -/
theorem failed_log_reported_iff (o : Opening K) :
    ((o.recover = .ok → ∀ log ∈ o.logs, o.recoverLogFile log = .ok) ∧
      ∀ log ∈ o.logs, log ∈ o.retiredLogs → o.recoverLogFile log = .ok) ↔
    (o.beforeLogs = .ok → o.LastLogDecides) := by
  constructor
  · rintro ⟨hrecover, -⟩ hbefore last hlast hok
    have hlastOk : ∀ last', o.logs.getLast? = some last' → o.recoverLogFile last' = .ok := by
      intro last' hlast'
      rw [hlast, Option.some.injEq] at hlast'
      exact hlast' ▸ hok
    exact hrecover (o.recover_eq_ok_iff.mpr ⟨hbefore, hlastOk⟩)
  · intro hdecides
    have hall : o.recover = .ok → ∀ log ∈ o.logs, o.recoverLogFile log = .ok := by
      intro hok log hlog
      obtain ⟨hbefore, hlast⟩ := o.recover_eq_ok_iff.mp hok
      have hgetLast := List.getLast?_eq_some_getLast (List.ne_nil_of_mem hlog)
      exact hdecides hbefore _ hgetLast (hlast _ hgetLast) log hlog
    refine ⟨hall, fun log hlog hretired ↦ ?_⟩
    unfold retiredLogs at hretired
    split at hretired
    · rename_i hopen
      exact hall (recover_eq_ok_of_openStatus hopen) log hlog
    · cases hretired

/-- What a crash leaves after the first memtable of a new database was replaced: `VersionSet::Recover`
reads next file number 4 from the descriptor.  Log 3 cannot be replayed because its table cannot be
written. -/
def twoLogs : Opening ℕ where
  versions := { nextFileNumber := 5, manifestFileNumber := 4, logNumber := 3 }
  logFiles := [4, 3]
  recoverLogFile log := if log = 3 then .ioError "No space left on device" else .ok

/-- The open succeeds and removes the log that was not recovered. -/
theorem failed_log_retired : twoLogs.openStatus = .ok ∧ 3 ∈ twoLogs.logs ∧ twoLogs.recoverLogFile 3 ≠ .ok ∧
      3 ∈ twoLogs.retiredLogs := by
  decide

end Opening

end LevelDB.Db.OpenStatus
