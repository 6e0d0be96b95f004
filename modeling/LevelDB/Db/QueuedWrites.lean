import LevelDB.Db.EngineReads
import LevelDB.Db.GroupCommit

/-!
# The queue of writers in front of the database

To the database, a group of the queue of `DBImpl::Write` is one write, or a failed one, at the moment in
which the front writer dequeues it.
-/

namespace LevelDB.Db.Engine

open Format CompactionPick Library List GroupCommit

variable {K V : Type*} [Inhabited V] {queue queue' : GroupCommit.State (WriteOp K V)}
  {size : WriteOp K V → ℕ} {action : GroupCommit.Action (WriteOp K V)}

def recordEntries (records : List (WriteOp K V × ℕ)) : List (Entry K V) := records.map fun p ↦ p.1.entry p.2

theorem recordEntries_zipIdx (batch : List (WriteOp K V)) (sequence : ℕ) :
    recordEntries (batch.zipIdx sequence) = batchEntries sequence batch := by
  induction batch generalizing sequence with
  | nil => rfl
  | cons op rest ih => exact congrArg _ (ih (sequence + 1))

/-- What the front writer has inserted and not made visible. -/
def unpublished (queue : GroupCommit.State (WriteOp K V)) : List (WriteOp K V × ℕ) :=
  match queue.leader with
  | some (.committing commit) => if commit.phase = .finish .ok then commit.updates.entries else []
  | _ => []

omit [Inhabited V] in
theorem commitStep_of_step (hstep : queue.step size action = .next queue')
    (haction : action = .insertInto ∨ action = .finish) :
    ∃ commit, queue.leader = some (.committing commit) ∧ queue.commitStep commit action = .next queue' := by
  unfold State.step at hstep
  grind

omit [Inhabited V] in
theorem step_keeps (hstep : queue.step size action = .next queue') (hinsert : action ≠ .insertInto)
    (hfinish : action ≠ .finish) : queue'.lastSequence = queue.lastSequence ∧
      queue'.inserted = queue.inserted ∧ unpublished queue' = unpublished queue := by
  unfold State.step at hstep
  cases action with
  | insertInto => exact absurd rfl hinsert
  | finish => exact absurd rfl hfinish
  | roomMade status =>
    unfold State.roomMade State.dequeue at hstep
    grind [State.commitStep, unpublished]
  | enqueue | proceed | switchMemTable | addRecord | syncLog =>
    grind [State.proceed, State.commitStep, Outcome.guarded, unpublished]

variable [LinearOrder K] {scoring : Scoring K} {start db : State K V} {writes : List (Entry K V)}

def Reaches (scoring : Scoring K) : State K V → State K V → Prop :=
  Relation.ReflTransGen fun db db' ↦ ∃ action, step scoring db action = .next db'

/-- The database has come from `start` and reads as if it had taken, behind `writes`, those of the queue. -/
structure Follows (scoring : Scoring K) (start : State K V) (writes : List (Entry K V))
    (queue : GroupCommit.State (WriteOp K V)) (db : State K V) : Prop where
  steps : Reaches scoring start db
  reads : ∃ published, ReadsHistory ⟨queue.lastSequence, published⟩ db ∧
    published ++ recordEntries (unpublished queue) = writes ++ recordEntries queue.inserted

/-- Sequence numbers have 56 bits, which the source does not check. -/
def InRange (queue : GroupCommit.State (WriteOp K V)) (_ : GroupCommit.Action (WriteOp K V)) : Prop :=
  ∀ commit, queue.leader = some (.committing commit) → commit.lastSequence < kMaxSequenceNumber

section Commit

variable (h : Follows scoring start writes queue db)
include h

theorem Follows.insertInto (hstep : queue.step size .insertInto = .next queue') :
    Follows scoring start writes queue' db := by
  obtain ⟨commit, hleader, hcommit⟩ := commitStep_of_step hstep (.inl rfl)
  obtain ⟨hphase, hnext⟩ := Outcome.guarded_eq_next.mp hcommit
  cases hnext
  obtain ⟨published, hreads, hwrites⟩ := h.reads
  refine ⟨h.steps, published, hreads, ?_⟩
  simp only [unpublished, hleader, hphase, reduceCtorEq, if_false, recordEntries, map_nil, append_nil] at hwrites
  simp [unpublished, commit.updates.iterateStatus_eq_ok, recordEntries, hwrites]

/-- The group is dequeued: the database takes its write. -/
theorem Follows.finish (hok : StateOk queue) (hrange : InRange queue .finish)
    (hstep : queue.step size .finish = .next queue') : ∃ db', Follows scoring start writes queue' db' := by
  obtain ⟨commit, hleader, hcommit⟩ := commitStep_of_step hstep (.inr rfl)
  obtain ⟨groups, inFlight, -, hl⟩ := hok
  obtain ⟨g, -, hc⟩ := hl.committing commit hleader
  obtain ⟨published, hreads, hwrites⟩ := h.reads
  have hsum : commit.lastSequence = queue.lastSequence + commit.updates.records.length := by
    rw [hc.last_sequence, hc.records]
  have hroom : db.lastSequence + commit.updates.records.length < kMaxSequenceNumber := by
    rw [← hreads.last_eq]
    exact hsum ▸ hrange commit hleader
  obtain ⟨hlast, hinserted, hnone⟩ : queue'.lastSequence = commit.lastSequence ∧
      queue'.inserted = queue.inserted ∧ unpublished queue' = [] := by
    grind [State.commitStep, State.dequeue, unpublished]
  obtain ⟨action, db', hdb, hreads'⟩ : ∃ action db', step scoring db action = .next db' ∧ ReadsHistory
      ⟨queue'.lastSequence, published ++ recordEntries (unpublished queue)⟩ db' := by
    rw [hlast, hsum]
    by_cases hphase : commit.phase = .finish .ok
    · have hdb : step scoring db (.write commit.updates.records) = _ := if_pos hroom
      refine ⟨_, _, hdb, ?_⟩
      simp only [unpublished, hleader, hphase, if_true]
      rw [WriteBatch.entries, recordEntries_zipIdx, hc.sequence]
      exact hreads.write hdb
    · have hdb : step scoring db (.failedWrite commit.updates.records.length) = _ := if_pos hroom
      refine ⟨_, _, hdb, ?_⟩
      simp only [unpublished, hleader, hphase, if_false, recordEntries, map_nil, append_nil]
      exact hreads.failedWrite hdb
  refine ⟨db', h.steps.tail ⟨action, hdb⟩, _, hreads', ?_⟩
  rw [hnone, hinserted, hwrites]
  exact append_nil _

theorem Follows.step (hok : StateOk queue) (hrange : InRange queue action)
    (hstep : queue.step size action = .next queue') : ∃ db', Follows scoring start writes queue' db' := by
  by_cases hinsert : action = .insertInto
  · exact ⟨db, h.insertInto (hinsert ▸ hstep)⟩
  by_cases hfinish : action = .finish
  · subst hfinish
    exact h.finish hok hrange hstep
  obtain ⟨hlast, hinserted, hunpublished⟩ := step_keeps hstep hinsert hfinish
  exact ⟨db, h.steps, by rw [hlast, hinserted, hunpublished]; exact h.reads⟩

end Commit

theorem exists_follows (scoring : Scoring K) (h : (groupCommit size).ReachableWhen InRange queue) :
    ∃ s, ∀ (start : State K V) writes, ReadsHistory ⟨s, writes⟩ start →
      ∃ db, Follows scoring start writes queue db := by
  obtain ⟨actions, hrun⟩ := h
  induction hrun with
  | init hinit =>
    obtain ⟨s, logFile, rfl⟩ := hinit
    exact ⟨s, fun start writes hreads ↦ ⟨start, .refl, writes, hreads, rfl⟩⟩
  | step hrun hrange hstep ih =>
    obtain ⟨s, h⟩ := ih
    refine ⟨s, fun start writes hreads ↦ ?_⟩
    obtain ⟨db, hdb⟩ := h start writes hreads
    exact hdb.step (stateOk_of_reachable ⟨_, hrun.mono fun _ _ _ ↦ trivial⟩) hrange hstep

/-- When no group is being committed, lookups find what the queue has inserted, and behind it what the
database held before. -/
theorem get_after_queued_writes (scoring : Scoring K) (h : (groupCommit size).ReachableWhen InRange queue)
    (hidle : ∀ commit, queue.leader ≠ some (.committing commit)) :
    ∃ s, ∀ (start : State K V) writes, ReadsHistory ⟨s, writes⟩ start → ∃ db, Reaches scoring start db ∧
      ∀ userKey, db.get userKey queue.lastSequence =
        History.get ⟨queue.lastSequence, writes ++ recordEntries queue.inserted⟩ userKey queue.lastSequence := by
  obtain ⟨s, hfollows⟩ := exists_follows scoring h
  refine ⟨s, fun start writes hreads ↦ ?_⟩
  obtain ⟨db, hsteps, published, hread, hwrites⟩ := hfollows start writes hreads
  have hnone : unpublished queue = [] := by grind [unpublished]
  rw [hnone, recordEntries, map_nil, append_nil] at hwrites
  exact ⟨db, hsteps, fun userKey ↦ hwrites ▸ hread.get_eq (.inr hread.last_eq.ge) userKey⟩

end LevelDB.Db.Engine
