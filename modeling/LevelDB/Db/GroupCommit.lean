import LevelDB.Library.Machine
import Mathlib.Tactic

/-!
# Group commit

The queue of writers in `DBImpl::Write` and `BuildBatchGroup`, from `db/db_impl.cpp` and
`db/write_batch.cpp`.  The writer at the front of the queue makes room, joins the batches behind its own
into one group, releases `mutex_`, appends the group to the log, syncs it and inserts it into the
memtable, and then takes the group from the queue.  A step is what a thread does while it holds
`mutex_`, or one operation of the front writer while it does not; other threads may enqueue and return
between any two steps.
-/

namespace LevelDB.Db.GroupCommit

open Library List

inductive Status
  | ok
  | error (message : String)
  deriving DecidableEq

/-- `WriteBatch`: the header with the sequence number and the count, and the records.  `Put`, `Delete`,
`Clear` and `Append` keep the count. -/
structure WriteBatch (R : Type*) where
  sequence : ℕ
  count : ℕ
  records : List R
  count_eq : count = records.length

def kHeader : ℕ := 12

namespace WriteBatch

variable {R : Type*}

def cleared : WriteBatch R := ⟨0, 0, [], rfl⟩

/-- `Put` or `Delete`. -/
def add (b : WriteBatch R) (record : R) : WriteBatch R :=
  ⟨b.sequence, b.count + 1, b.records ++ [record], by simp [b.count_eq]⟩

def setSequence (b : WriteBatch R) (sequence : ℕ) : WriteBatch R := { b with sequence := sequence }

def append (dst src : WriteBatch R) : WriteBatch R :=
  ⟨dst.sequence, dst.count + src.count, dst.records ++ src.records, by
    rw [length_append, dst.count_eq, src.count_eq]⟩

def byteSize (size : R → ℕ) (b : WriteBatch R) : ℕ := kHeader + (b.records.map size).sum

/-- The entries that `InsertInto` adds to the memtable: each record with its sequence number. -/
def entries (b : WriteBatch R) : List (R × ℕ) := b.records.zipIdx b.sequence

def iterateStatus (b : WriteBatch R) : Status :=
  if b.records.length = b.count then .ok else .error "WriteBatch has wrong count"

theorem iterateStatus_eq_ok (b : WriteBatch R) : b.iterateStatus = .ok := if_pos b.count_eq.symm

end WriteBatch

/-- `Writer`, with a number for its address.  A null batch forces the switch of the memtable. -/
structure Writer (R : Type*) where
  id : ℕ
  batch : Option (WriteBatch R)
  sync : Bool

def Writer.records {R : Type*} (w : Writer R) : List R := (w.batch.map WriteBatch.records).getD []

/-- The variables of `BuildBatchGroup`: `result` is `tmp_batch_` when `usesTmp` is set, and the batch of
the first writer otherwise. -/
structure Group (R : Type*) where
  usesTmp : Bool
  tmpBatch : WriteBatch R
  size : ℕ
  lastWriter : ℕ

section BuildBatchGroup

variable {R : Type*} (size : R → ℕ)

def groupLoop (firstSync : Bool) (firstBatch : WriteBatch R) (maxSize : ℕ) (group : Group R) :
    List (Writer R) → Outcome (Group R)
  | [] => .next group
  | w :: rest =>
    if w.sync && !firstSync then .next group
    else match w.batch with
    | none => groupLoop firstSync firstBatch maxSize { group with lastWriter := w.id } rest
    | some batch =>
      let size := group.size + batch.byteSize size
      if maxSize < size then .next group
      else if group.usesTmp then
        groupLoop firstSync firstBatch maxSize
          ⟨true, group.tmpBatch.append batch, size, w.id⟩ rest
      else if group.tmpBatch.count = 0 then
        groupLoop firstSync firstBatch maxSize
          ⟨true, (group.tmpBatch.append firstBatch).append batch, size, w.id⟩ rest
      else .abort

def maxSize (firstSize : ℕ) : ℕ := if firstSize ≤ 128 * 1024 then firstSize + 128 * 1024 else 1024 * 1024

def buildBatchGroup (tmpBatch : WriteBatch R) (first : Writer R) (batch : WriteBatch R)
    (behind : List (Writer R)) : Outcome (Group R) :=
  groupLoop size first.sync batch (maxSize (batch.byteSize size))
    ⟨false, tmpBatch, batch.byteSize size, first.id⟩ behind

end BuildBatchGroup

/-! ## The state -/

/-- What the front writer does next without the mutex. -/
inductive Phase
  | append
  | sync
  | insert
  | finish (status : Status)
  deriving DecidableEq

/-- The local variables of `Write` behind `BuildBatchGroup`. -/
structure Commit (R : Type*) where
  writer : Writer R
  lastWriter : ℕ
  usesTmp : Bool
  updates : WriteBatch R
  lastSequence : ℕ
  phase : Phase

/-- The writer at the front of the queue. -/
inductive Leader (R : Type*)
  /-- In `MakeRoomForWrite`. -/
  | makingRoom (writer : Writer R)
  | committing (commit : Commit R)

structure LogRecord (R : Type*) where
  /-- The number of the log file. -/
  file : ℕ
  contents : WriteBatch R
  /-- The file has been synced after the record was appended. -/
  synced : Bool

structure State (R : Type*) where
  writers : List (Writer R) := []
  leader : Option (Leader R) := none
  tmpBatch : WriteBatch R := .cleared
  lastSequence : ℕ
  logFile : ℕ
  log : List (LogRecord R) := []
  /-- What has been inserted into the memtables. -/
  inserted : List (R × ℕ) := []
  /-- The writers that are done and have not returned, with their status. -/
  done : List (ℕ × Status) := []
  returned : List (ℕ × Status) := []
  /-- All calls of `Write` in the order of their `push_back`. -/
  arrived : List (Writer R) := []

inductive Action (R : Type*)
  | enqueue (writer : Writer R)
  /-- A writer tests the condition of its loop. -/
  | proceed (id : ℕ)
  /-- `MakeRoomForWrite` switches to a new log and memtable. -/
  | switchMemTable
  /-- `MakeRoomForWrite` returns. -/
  | roomMade (status : Status)
  /-- `AddRecord`; the record may be in the file although it failed. -/
  | addRecord (status : Status) (written : Bool)
  | syncLog (status : Status)
  | insertInto
  /-- The front writer takes the mutex again and dequeues its group. -/
  | finish

def popUntil {R : Type*} (lastWriter : ℕ) : List (Writer R) → Option (List (Writer R) × List (Writer R))
  | [] => none
  | w :: rest =>
    if w.id = lastWriter then some ([w], rest)
    else (popUntil lastWriter rest).map fun p ↦ (w :: p.1, p.2)

namespace State

variable {R : Type*} (size : R → ℕ)

/-- The end of `Write`. -/
def dequeue (state : State R) (writer : Writer R) (lastWriter : ℕ) (status : Status) :
    Outcome (State R) :=
  match popUntil lastWriter state.writers with
  | none => .abort
  | some (ready, behind) => .next { state with
      writers := behind
      leader := none
      done := state.done ++ (ready.filter fun w ↦ w.id ≠ writer.id).map fun w ↦ (w.id, status)
      returned := state.returned ++ [(writer.id, status)] }

def roomMade (state : State R) (writer : Writer R) (status : Status) : Outcome (State R) :=
  match status, writer.batch with
  | .ok, some batch =>
    match buildBatchGroup size state.tmpBatch writer batch state.writers.tail with
    | .next group =>
      let updates := (if group.usesTmp then group.tmpBatch else batch).setSequence (state.lastSequence + 1)
      .next { state with
        tmpBatch := if group.usesTmp then updates else group.tmpBatch
        leader := some (.committing ⟨writer, group.lastWriter, group.usesTmp, updates,
          state.lastSequence + updates.count, .append⟩) }
    | .blocked => .blocked
    | .abort => .abort
  | status, _ => state.dequeue writer writer.id status

def commitStep (state : State R) (commit : Commit R) : Action R → Outcome (State R)
  | .addRecord status written => .guarded (commit.phase = .append) <|
      .next { state with
        log := if status = .ok ∨ written = true
          then state.log ++ [⟨state.logFile, commit.updates, false⟩] else state.log
        leader := some (.committing { commit with
          phase := if status = .ok then (if commit.writer.sync then .sync else .insert)
            else .finish status }) }
  | .syncLog status => .guarded (commit.phase = .sync) <|
      .next { state with
        log := if status = .ok
          then state.log.map fun r ↦ if r.file = state.logFile then { r with synced := true } else r
          else state.log
        leader := some (.committing { commit with
          phase := if status = .ok then .insert else .finish status }) }
  | .insertInto => .guarded (commit.phase = .insert) <|
      .next { state with
        inserted := state.inserted ++ commit.updates.entries
        leader := some (.committing { commit with phase := .finish commit.updates.iterateStatus }) }
  | .finish =>
    match commit.phase with
    | .finish status => dequeue { state with
        tmpBatch := if commit.usesTmp then .cleared else state.tmpBatch
        lastSequence := commit.lastSequence } commit.writer commit.lastWriter status
    | _ => .blocked
  | _ => .blocked

/-- A writer that waits: it returns when it is done, and leads when it is at the front. -/
def proceed (state : State R) (id : ℕ) : Outcome (State R) :=
  match state.done.lookup id with
  | some status => .next { state with
      done := state.done.filter fun p ↦ p.1 ≠ id
      returned := state.returned ++ [(id, status)] }
  | none =>
    match state.leader, state.writers with
    | none, w :: _ => .guarded (w.id = id) (.next { state with leader := some (.makingRoom w) })
    | _, _ => .blocked

def step (state : State R) (action : Action R) : Outcome (State R) :=
  match action, state.leader with
  | .enqueue writer, _ => .guarded (writer.id ∉ state.arrived.map Writer.id) (.next { state with
      writers := state.writers ++ [writer]
      arrived := state.arrived ++ [writer] })
  | .proceed id, _ => state.proceed id
  | .switchMemTable, some (.makingRoom _) => .next { state with logFile := state.logFile + 1 }
  | .roomMade status, some (.makingRoom writer) => state.roomMade size writer status
  | action, some (.committing commit) => state.commitStep commit action
  | _, _ => .blocked

end State

def groupCommit {R : Type*} (size : R → ℕ) : Machine (State R) (Action R) where
  init state := ∃ lastSequence logFile, state = { lastSequence, logFile }
  step := State.step size

section BuildBatchGroup

variable {R : Type*}

def Group.records (group : Group R) (firstBatch : WriteBatch R) : List R :=
  if group.usesTmp then group.tmpBatch.records else firstBatch.records

structure Group.Joins (firstSync : Bool) (firstBatch : WriteBatch R) (group : Group R)
    (taken : List (Writer R)) (group' : Group R) : Prop where
  last : group'.lastWriter = (taken.getLast?.map Writer.id).getD group.lastWriter
  records : group'.records firstBatch = group.records firstBatch ++ taken.flatMap Writer.records
  /-- A first writer without `sync` takes none with `sync`. -/
  sync : firstSync = false → ∀ w ∈ taken, w.sync = false
  tmp_empty : group'.usesTmp = false → group'.tmpBatch.records = []

theorem Group.Joins.cons {firstSync : Bool} {firstBatch : WriteBatch R} {group next group' : Group R}
    {w : Writer R} {taken : List (Writer R)} (h : next.Joins firstSync firstBatch taken group')
    (hlast : next.lastWriter = w.id)
    (hrecords : next.records firstBatch = group.records firstBatch ++ w.records)
    (hsync : firstSync = false → w.sync = false) :
    group.Joins firstSync firstBatch (w :: taken) group' := by
  refine ⟨?_, ?_, ?_, h.tmp_empty⟩
  · rw [h.last, hlast]
    cases taken <;> simp [getLast?_cons]
  · rw [h.records, hrecords, flatMap_cons, append_assoc]
  · intro hfirst m hm
    rcases mem_cons.mp hm with rfl | hm
    · exact hsync hfirst
    · exact h.sync hfirst m hm

theorem groupLoop_joins (size : R → ℕ) (firstSync : Bool) (firstBatch : WriteBatch R) (maxSize : ℕ)
    (rest : List (Writer R)) (group : Group R) (htmp : group.usesTmp = false → group.tmpBatch.records = []) :
    ∃ (group' : Group R) (taken behind : List (Writer R)),
      groupLoop size firstSync firstBatch maxSize group rest = .next group' ∧
        rest = taken ++ behind ∧ group.Joins firstSync firstBatch taken group' := by
  induction rest generalizing group with
  | nil => exact ⟨group, [], [], rfl, rfl, rfl, by simp, by simp, htmp⟩
  | cons w rest ih =>
    have hstop : group.Joins firstSync firstBatch [] group := ⟨rfl, by simp, by simp, htmp⟩
    unfold groupLoop
    split
    · exact ⟨group, [], w :: rest, rfl, rfl, hstop⟩
    · rename_i hsync
      have hgo : ∀ next : Group R, next.lastWriter = w.id →
          next.records firstBatch = group.records firstBatch ++ w.records →
          (next.usesTmp = false → next.tmpBatch.records = []) →
          ∃ (group' : Group R) (taken behind : List (Writer R)),
            groupLoop size firstSync firstBatch maxSize next rest = .next group' ∧
              w :: rest = taken ++ behind ∧ group.Joins firstSync firstBatch taken group' := by
        intro next hlast hrecords hempty
        obtain ⟨group', taken, behind, hloop, hrest, hjoins⟩ := ih next hempty
        refine ⟨group', w :: taken, behind, hloop, by rw [hrest]; rfl, hjoins.cons hlast hrecords ?_⟩
        intro hfirst
        simpa [hfirst] using hsync
      split
      · rename_i hbatch
        apply hgo
        · rfl
        · simp [Group.records, Writer.records, hbatch]
        · exact htmp
      · rename_i batch hbatch
        have hw : w.records = batch.records := by simp [Writer.records, hbatch]
        dsimp only
        split
        · exact ⟨group, [], w :: rest, rfl, rfl, hstop⟩
        · split
          · rename_i htrue
            apply hgo
            · rfl
            · simp [Group.records, WriteBatch.append, htrue, hw]
            · simp
          · rename_i hfalse
            have hrecords := htmp (by simpa using hfalse)
            rw [if_pos (by rw [group.tmpBatch.count_eq, hrecords]; rfl)]
            apply hgo
            · rfl
            · simp [Group.records, WriteBatch.append, hfalse, hw, hrecords]
            · simp

theorem buildBatchGroup_spec (size : R → ℕ) {tmpBatch : WriteBatch R} (htmp : tmpBatch.records = [])
    {first : Writer R} {batch : WriteBatch R} (hbatch : first.batch = some batch) (behind : List (Writer R)) :
    ∃ (group : Group R) (others : List (Writer R)) (last : Writer R) (rest : List (Writer R)),
      buildBatchGroup size tmpBatch first batch behind = .next group ∧
      first :: behind = others ++ last :: rest ∧ group.lastWriter = last.id ∧
      first ∈ others ++ [last] ∧
      group.records batch = (others ++ [last]).flatMap Writer.records ∧
      (first.sync = false → ∀ w ∈ others ++ [last], w.sync = false) ∧
      (group.usesTmp = false → group.tmpBatch.records = []) := by
  obtain ⟨group, taken, rest, hloop, hbehind, hjoins⟩ := groupLoop_joins size first.sync batch
    (maxSize (batch.byteSize size)) behind ⟨false, tmpBatch, batch.byteSize size, first.id⟩ fun _ ↦ htmp
  have hne : first :: taken ≠ [] := cons_ne_nil first taken
  have hsplit := dropLast_append_getLast hne
  refine ⟨group, (first :: taken).dropLast, (first :: taken).getLast hne, rest, hloop, ?_, ?_, ?_, ?_, ?_,
    hjoins.tmp_empty⟩
  · rw [hbehind, append_cons, hsplit]
    rfl
  · rw [hjoins.last]
    cases taken with
    | nil => rfl
    | cons w taken => simp [getLast?_eq_some_getLast]
  · rw [hsplit]
    exact mem_cons_self
  · rw [hsplit, hjoins.records]
    simp [Group.records, Writer.records, hbatch]
  · rw [hsplit]
    intro hfirst w hw
    rcases mem_cons.mp hw with rfl | hw
    · exact hfirst
    · exact hjoins.sync hfirst w hw

end BuildBatchGroup

theorem popUntil_append {R : Type*} {others rest : List (Writer R)} {last : Writer R}
    (hnodup : ((others ++ last :: rest).map Writer.id).Nodup) :
    popUntil last.id (others ++ last :: rest) = some (others ++ [last], rest) := by
  induction others with
  | nil => simp [popUntil]
  | cons w others ih =>
    simp only [cons_append, map_cons, nodup_cons] at hnodup
    have hne : w.id ≠ last.id := by
      intro heq
      apply hnodup.1
      rw [heq]
      simp
    rw [cons_append, popUntil, if_neg hne, ih hnodup.2]
    rfl

/-! ## The history of groups -/

structure Committed (R : Type*) where
  members : List (Writer R)
  /-- The sequence number of its first record; `none` when `BuildBatchGroup` was not reached. -/
  first : Option ℕ
  status : Status
  logged : Bool
  synced : Bool
  inserted : Bool

namespace Committed

variable {R : Type*}

def records (g : Committed R) : List R := g.members.flatMap Writer.records

/-- The first sequence number and the number of sequence numbers. -/
def block (g : Committed R) : Option (ℕ × ℕ) := g.first.map fun s ↦ (s, g.records.length)

def entries (g : Committed R) : List (R × ℕ) := g.records.zipIdx (g.first.getD 0)

def progress (g : Committed R) (status : Status) (isLogged isSynced isInserted : Bool) : Committed R :=
  { g with status := status, logged := isLogged, synced := isSynced, inserted := isInserted }

structure Matches (g : Committed R) (r : LogRecord R) : Prop where
  records : r.contents.records = g.records
  first : g.first = some r.contents.sequence
  synced : g.synced = true → r.synced = true

/-- Everything that OK promises to the members with a batch. -/
structure Complete (g : Committed R) : Prop where
  first : g.first ≠ none
  logged : g.logged = true
  inserted : g.inserted = true
  synced : ∀ w ∈ g.members, w.sync = true → g.synced = true

/-- The sequence numbers of a member are one block, behind those of the members before it. -/
theorem entries_split {g : Committed R} {before after : List (Writer R)} {w : Writer R}
    (hmembers : g.members = before ++ w :: after) {s : ℕ} (hfirst : g.first = some s) :
    g.entries = (before.flatMap Writer.records).zipIdx s ++
      (w.records.zipIdx (s + (before.flatMap Writer.records).length) ++
        (after.flatMap Writer.records).zipIdx
          (s + (before.flatMap Writer.records).length + w.records.length)) := by
  unfold entries records
  rw [hmembers, hfirst, flatMap_append, flatMap_cons, Option.getD_some, zipIdx_append, zipIdx_append]

end Committed

variable {R : Type*} {state : State R} {groups : List (Committed R)} {g : Committed R} {commit : Commit R}

def Stored (groups : List (Committed R)) (log : List (LogRecord R)) : Prop :=
  List.Forall₂ Committed.Matches (groups.filter Committed.logged) log

theorem stored_snoc_of_not_logged {log : List (LogRecord R)} (hlogged : g.logged = false) :
    Stored (groups ++ [g]) log ↔ Stored groups log := by
  unfold Stored
  rw [filter_append, filter_singleton, hlogged]
  simp

theorem Stored.snoc {log : List (LogRecord R)} {r : LogRecord R} (h : Stored groups log)
    (hlogged : g.logged = true) (hmatches : g.Matches r) : Stored (groups ++ [g]) (log ++ [r]) := by
  unfold Stored
  rw [filter_append, filter_singleton, hlogged]
  exact rel_append h (.cons hmatches .nil)

theorem Stored.exists_snoc {log : List (LogRecord R)} (h : Stored (groups ++ [g]) log)
    (hlogged : g.logged = true) : ∃ old r, log = old ++ [r] ∧ Stored groups old ∧ g.Matches r := by
  unfold Stored at h
  rw [filter_append, filter_singleton, hlogged] at h
  have hold := (forall₂_take_append _ _ _ h.flip).flip
  have hlast := (forall₂_drop_append _ _ _ h.flip).flip
  generalize hn : (groups.filter Committed.logged).length = n at hold hlast
  obtain ⟨r, rest, hmatches, hnil, hdrop⟩ := forall₂_cons_left_iff.mp hlast
  rw [forall₂_nil_left_iff.mp hnil] at hdrop
  refine ⟨log.take n, r, ?_, hold, hmatches⟩
  rw [← hdrop, take_append_drop]

theorem Stored.map {log : List (LogRecord R)} (h : Stored groups log) {f : LogRecord R → LogRecord R}
    (hcontents : ∀ r, (f r).contents = r.contents)
    (hsynced : ∀ r, r.synced = true → (f r).synced = true) : Stored groups (log.map f) := by
  apply forall₂_map_right_iff.mpr
  apply h.imp
  intro g r hmatches
  refine ⟨?_, ?_, fun hsync ↦ hsynced r (hmatches.synced hsync)⟩
  · rw [hcontents, hmatches.records]
  · rw [hcontents, hmatches.first]

structure Describes (groups inFlight : List (Committed R)) (state : State R) : Prop where
  arrived : state.arrived = groups.flatMap Committed.members ++ state.writers
  in_flight : inFlight.flatMap Committed.members <+: state.writers
  nodup : (state.arrived.map Writer.id).Nodup
  blocks : ((groups ++ inFlight).filterMap Committed.block).Pairwise fun a b ↦ a.1 + a.2 ≤ b.1
  block_le : ∀ b ∈ groups.filterMap Committed.block, b.1 + b.2 ≤ state.lastSequence + 1
  log : Stored (groups ++ inFlight) state.log
  inserted : state.inserted = ((groups ++ inFlight).filter Committed.inserted).flatMap Committed.entries
  complete : ∀ g ∈ groups, g.status = .ok → (∃ w ∈ g.members, w.batch ≠ none) → g.Complete
  status : ∀ p ∈ state.done ++ state.returned, ∃ g ∈ groups, p.1 ∈ g.members.map Writer.id ∧ p.2 = g.status
  answered : ∀ g ∈ groups, ∀ w ∈ g.members, (w.id, g.status) ∈ state.done ++ state.returned

theorem Describes.group_unique {groups inFlight : List (Committed R)} (hd : Describes groups inFlight state)
    {g g' : Committed R} (hg : g ∈ groups) (hg' : g' ∈ groups)
    {id : ℕ} (hid : id ∈ g.members.map Writer.id) (hid' : id ∈ g'.members.map Writer.id) : g = g' := by
  have hnodup := hd.nodup
  rw [hd.arrived, map_append, map_flatMap] at hnodup
  have hdisjoint := (nodup_flatMap.mp hnodup.of_append_left).2
  by_contra hne
  have hsymm : Std.Symm (Function.onFun List.Disjoint fun g : Committed R ↦ g.members.map Writer.id) :=
    ⟨fun _ _ h ↦ List.Disjoint.symm h⟩
  exact hdisjoint.forall hg hg' hne hid hid'

def PhaseOk (state : State R) (commit : Commit R) (g : Committed R) : Prop :=
  match commit.phase with
  | .append => g.logged = false ∧ g.inserted = false
  | .sync => g.logged = true ∧ g.inserted = false ∧
      ∃ r, state.log.getLast? = some r ∧ r.file = state.logFile
  | .insert => g.logged = true ∧ g.inserted = false ∧ (commit.writer.sync = true → g.synced = true)
  | .finish status => g.status = status ∧ (status = .ok →
      g.logged = true ∧ g.inserted = true ∧ (commit.writer.sync = true → g.synced = true))

/-- The group in flight is the front of the queue. -/
structure CommitOk (state : State R) (commit : Commit R) (g : Committed R) : Prop where
  members : ∃ others last behind, g.members = others ++ [last] ∧
    state.writers = others ++ last :: behind ∧ commit.lastWriter = last.id
  writer_mem : commit.writer ∈ g.members
  records : commit.updates.records = g.records
  sequence : commit.updates.sequence = state.lastSequence + 1
  first : g.first = some (state.lastSequence + 1)
  last_sequence : commit.lastSequence = state.lastSequence + g.records.length
  tmp_empty : commit.usesTmp = false → state.tmpBatch.records = []
  sync : commit.writer.sync = false → ∀ w ∈ g.members, w.sync = false
  phase : PhaseOk state commit g

structure Leads (inFlight : List (Committed R)) (state : State R) : Prop where
  idle : (∀ commit, state.leader ≠ some (.committing commit)) → inFlight = [] ∧ state.tmpBatch.records = []
  front : ∀ writer, state.leader = some (.makingRoom writer) → state.writers.head? = some writer
  committing : ∀ commit, state.leader = some (.committing commit) →
    ∃ g, inFlight = [g] ∧ CommitOk state commit g

def StateOk (state : State R) : Prop :=
  ∃ groups inFlight, Describes groups inFlight state ∧ Leads inFlight state

/-! ## Steps of the queue -/

theorem StateOk.enqueue (h : StateOk state) {writer : Writer R}
    (hnew : writer.id ∉ state.arrived.map Writer.id) : StateOk { state with
      writers := state.writers ++ [writer]
      arrived := state.arrived ++ [writer] } := by
  obtain ⟨groups, inFlight, hd, hl⟩ := h
  refine ⟨groups, inFlight, { hd with arrived := ?_, in_flight := ?_, nodup := ?_ }, ?_⟩
  · change state.arrived ++ [writer] = _ ++ (state.writers ++ [writer])
    rw [hd.arrived, append_assoc]
  · exact hd.in_flight.trans (prefix_append _ _)
  · change ((state.arrived ++ [writer]).map Writer.id).Nodup
    rw [map_append]
    exact hd.nodup.append (nodup_singleton _) (by simpa using hnew)
  · refine { hl with front := ?_, committing := ?_ }
    · intro leading hleader
      change (state.writers ++ [writer]).head? = some leading
      rw [head?_append, hl.front leading hleader]
      rfl
    · intro commit hleader
      obtain ⟨g, hin, hc⟩ := hl.committing commit hleader
      obtain ⟨others, last, behind, hmembers, hwriters, hlast⟩ := hc.members
      refine ⟨g, hin, { hc with members := ⟨others, last, behind ++ [writer], hmembers, ?_, hlast⟩ }⟩
      change state.writers ++ [writer] = _
      rw [hwriters, append_assoc]
      rfl

theorem StateOk.proceed {state state' : State R} (h : StateOk state) {id : ℕ}
    (hnext : state.proceed id = .next state') : StateOk state' := by
  obtain ⟨groups, inFlight, hd, hl⟩ := h
  unfold State.proceed at hnext
  split at hnext
  · rename_i status hlookup
    cases hnext
    have hmem : (id, status) ∈ state.done := by
      obtain ⟨before, after, hsplit, -⟩ := lookup_eq_some_iff.mp hlookup
      simp [hsplit]
    refine ⟨groups, inFlight, { hd with status := ?_, answered := ?_ }, ?_⟩
    · intro p hp
      apply hd.status p
      rcases mem_append.mp hp with hp | hp
      · exact mem_append_left _ (mem_of_mem_filter hp)
      · rcases mem_append.mp hp with hp | hp
        · exact mem_append_right _ hp
        · rw [mem_singleton.mp hp]
          exact mem_append_left _ hmem
    · intro g hg w hw
      have hid := mem_map_of_mem (f := Writer.id) hw
      rcases mem_append.mp (hd.answered g hg w hw) with hdone | hreturned
      · by_cases heq : w.id = id
        · obtain ⟨g', hg', hid', hstatus⟩ := hd.status _ (mem_append_left _ hmem)
          have hsame := hd.group_unique hg hg' (heq ▸ hid) hid'
          rw [hsame, heq, ← show status = g'.status from hstatus]
          simp
        · exact mem_append_left _ (mem_filter.mpr ⟨hdone, by simpa using heq⟩)
      · exact mem_append_right _ (mem_append_left _ hreturned)
    · refine { hl with committing := ?_ }
      intro commit hleader
      obtain ⟨g, hin, hc⟩ := hl.committing commit hleader
      exact ⟨g, hin, { hc with }⟩
  · split at hnext
    · rename_i w rest hleader hwriters
      rw [Outcome.guarded_eq_next] at hnext
      cases hnext.2
      refine ⟨groups, inFlight, { hd with }, fun _ ↦ hl.idle (by simp [hleader]), ?_, by rintro _ ⟨⟩⟩
      rintro _ ⟨⟩
      change state.writers.head? = some w
      rw [hwriters]
      rfl
    · cases hnext

/-! ## Steps of the front writer -/

/-- A group is built from the front of the queue. -/
theorem Describes.launch (hd : Describes groups [] state) (hmembers : g.members <+: state.writers)
    (hlogged : g.logged = false)
    (hinserted : g.inserted = false) (hblock : ∀ b, g.block = some b → b.1 = state.lastSequence + 1) :
    Describes groups [g] state := by
  have hlog := hd.log
  have hold := hd.inserted
  have hblocks := hd.blocks
  rw [append_nil] at hlog hold hblocks
  refine { hd with in_flight := ?_, blocks := ?_, log := ?_, inserted := ?_ }
  · simpa using hmembers
  · rw [filterMap_append, pairwise_append]
    refine ⟨hblocks, ?_, ?_⟩
    · cases hfirst : g.block <;> simp [hfirst]
    · intro a ha b hb
      have hb : g.block = some b := by simpa using hb
      rw [hblock b hb]
      exact hd.block_le a ha
  · exact (stored_snoc_of_not_logged hlogged).mpr hlog
  · rw [hold, filter_append]
    simp [hinserted]

/-- The group in flight goes on. -/
theorem Describes.update (hd : Describes groups [g] state) {status : Status}
    {isLogged isSynced isInserted : Bool} {log : List (LogRecord R)}
    (hlog : Stored (groups ++ [g.progress status isLogged isSynced isInserted]) log)
    {inserted : List (R × ℕ)}
    (hinserted : inserted = ((groups ++ [g.progress status isLogged isSynced isInserted]).filter
      Committed.inserted).flatMap Committed.entries) (leader : Option (Leader R)) :
    Describes groups [g.progress status isLogged isSynced isInserted]
      { state with log := log, inserted := inserted, leader := leader } := by
  refine { hd with in_flight := ?_, blocks := ?_, log := hlog, inserted := hinserted }
  · have hprefix := hd.in_flight
    simp only [flatMap_singleton] at hprefix ⊢
    exact hprefix
  · have hblocks := hd.blocks
    rw [filterMap_append] at hblocks ⊢
    exact hblocks

theorem Describes.dequeue (hd : Describes groups [g] state) {writer last : Writer R}
    {others behind : List (Writer R)}
    (hmembers : g.members = others ++ [last]) (hwriters : state.writers = others ++ last :: behind)
    (hwriter : writer ∈ g.members) (htmp : state.tmpBatch.records = [])
    (hcomplete : g.status = .ok → (∃ w ∈ g.members, w.batch ≠ none) → g.Complete)
    (hblock : ∀ b, g.block = some b → b.1 + b.2 ≤ state.lastSequence + 1) :
    ∃ state', state.dequeue writer last.id g.status = .next state' ∧ StateOk state' := by
  have hnodup : ((others ++ last :: behind).map Writer.id).Nodup := by
    have hsub := hd.nodup
    rw [hd.arrived, hwriters, map_append] at hsub
    exact hsub.of_append_right
  have hpop := popUntil_append hnodup
  unfold State.dequeue
  rw [hwriters, hpop]
  refine ⟨_, rfl, groups ++ [g], [], ⟨?_, nil_prefix, hd.nodup, ?_, ?_, ?_, ?_, ?_, ?_, ?_⟩,
    fun _ ↦ ⟨rfl, htmp⟩, by rintro _ ⟨⟩, by rintro _ ⟨⟩⟩
  · change state.arrived = _ ++ behind
    rw [hd.arrived, hwriters, flatMap_append, flatMap_singleton, hmembers]
    simp
  · rw [append_nil]
    exact hd.blocks
  · intro b hb
    rw [filterMap_append, mem_append] at hb
    rcases hb with hb | hb
    · exact hd.block_le b hb
    · exact hblock b (by simpa using hb)
  · rw [append_nil]
    exact hd.log
  · rw [append_nil]
    exact hd.inserted
  · intro g' hg'
    rcases mem_append.mp hg' with hg' | hg'
    · exact hd.complete g' hg'
    · rw [mem_singleton.mp hg']
      exact hcomplete
  · -- everyone who leaves with the group has its status
    have hgroup : ∀ w ∈ g.members, ∃ g' ∈ groups ++ [g],
        w.id ∈ g'.members.map Writer.id ∧ g.status = g'.status :=
      fun w hw ↦ ⟨g, by simp, mem_map_of_mem hw, rfl⟩
    have hold : ∀ p ∈ state.done ++ state.returned, ∃ g' ∈ groups ++ [g],
        p.1 ∈ g'.members.map Writer.id ∧ p.2 = g'.status := by
      intro p hp
      obtain ⟨g', hg', hid, hstatus⟩ := hd.status p hp
      exact ⟨g', mem_append_left _ hg', hid, hstatus⟩
    intro p hp
    simp only [mem_append, mem_map, mem_singleton] at hp
    rcases hp with (hp | ⟨w, hw, rfl⟩) | hp | rfl
    · exact hold p (mem_append_left _ hp)
    · exact hgroup w (hmembers ▸ mem_of_mem_filter hw)
    · exact hold p (mem_append_right _ hp)
    · exact hgroup writer hwriter
  · intro g' hg' w hw
    simp only [mem_append, mem_map, mem_singleton]
    rcases mem_append.mp hg' with hg' | hg'
    · rcases mem_append.mp (hd.answered g' hg' w hw) with hdone | hreturned
      · exact .inl (.inl hdone)
      · exact .inr (.inl hreturned)
    · rw [mem_singleton.mp hg'] at hw ⊢
      by_cases heq : w.id = writer.id
      · exact .inr (.inr (by rw [heq]))
      · exact .inl (.inr ⟨w, mem_filter.mpr ⟨hmembers ▸ hw, by simpa using heq⟩, rfl⟩)

theorem StateOk.roomMade (h : StateOk state) (size : R → ℕ) {writer : Writer R}
    (hleader : state.leader = some (.makingRoom writer)) (status : Status) :
    ∃ state', state.roomMade size writer status = .next state' ∧ StateOk state' := by
  obtain ⟨groups, inFlight, hd, hl⟩ := h
  obtain ⟨rfl, htmp⟩ := hl.idle (by simp [hleader])
  obtain ⟨behind, hwriters⟩ := head?_eq_some_iff.mp (hl.front writer hleader)
  -- without a group, the writer leaves the queue alone
  have halone : (status = .ok → writer.batch = none) →
      ∃ state', state.dequeue writer writer.id status = .next state' ∧ StateOk state' := by
    intro hnone
    have hlaunch : Describes groups [⟨[writer], none, status, false, false, false⟩] state :=
      hd.launch (by simp [hwriters]) rfl rfl (by simp [Committed.block])
    have hwriters : state.writers = [] ++ writer :: behind := hwriters
    refine hlaunch.dequeue rfl hwriters (by simp) htmp ?_ (by simp [Committed.block])
    rintro hok ⟨w, hw, hbatch⟩
    rw [mem_singleton.mp hw] at hbatch
    exact absurd (hnone hok) hbatch
  unfold State.roomMade
  split
  · rename_i batch hbatch
    obtain ⟨group, others, last, rest, hbuild, hsplit, hlast, hfirst, hrecords, hsync, hempty⟩ :=
      buildBatchGroup_spec size htmp hbatch state.writers.tail
    have hqueue : state.writers = others ++ last :: rest := by
      rw [← hsplit, hwriters]
      rfl
    rw [hbuild]
    let g : Committed R := ⟨others ++ [last], some (state.lastSequence + 1), .ok, false, false, false⟩
    have hgrecords : (if group.usesTmp then group.tmpBatch else batch).records = g.records := by
      change _ = (others ++ [last]).flatMap Writer.records
      rw [← hrecords]
      unfold Group.records
      split <;> rfl
    have hlaunch : Describes groups [g] state := by
      refine hd.launch ?_ rfl rfl ?_
      · rw [hqueue]
        exact ⟨rest, by simp [g]⟩
      · rintro b ⟨⟩
        rfl
    refine ⟨_, rfl, groups, [g], { hlaunch with }, fun hnot ↦ absurd rfl (hnot _), by rintro _ ⟨⟩, ?_⟩
    rintro _ ⟨⟩
    refine ⟨g, rfl, ⟨others, last, rest, rfl, hqueue, hlast⟩, hfirst, hgrecords, rfl, rfl, ?_, ?_, hsync,
      rfl, rfl⟩
    · change state.lastSequence + _ = _
      rw [← hgrecords]
      exact congrArg _ (WriteBatch.count_eq _)
    · intro hfalse
      have hfalse : group.usesTmp = false := hfalse
      simp only [hfalse]
      exact hempty hfalse
  · rename_i hnot
    apply halone
    intro hok
    cases hbatch : writer.batch with
    | none => rfl
    | some batch => exact absurd hbatch (hnot batch hok)

/-- Until its insertion, the group in flight has nothing in the memtables. -/
theorem Describes.inserted_progress (hd : Describes groups [g] state) (hout : g.inserted = false)
    (status : Status) (isLogged isSynced : Bool) :
    state.inserted = ((groups ++ [g.progress status isLogged isSynced false]).filter
      Committed.inserted).flatMap Committed.entries := by
  rw [hd.inserted, filter_append, filter_append]
  simp [Committed.progress, hout]

section

variable (hc : CommitOk state commit g) (hd : Describes groups [g] state)
include hc hd

/-- The front writer has done something to the log or the memtable for its group. -/
theorem CommitOk.advance (status : Status) (isLogged isSynced isInserted : Bool) (log : List (LogRecord R))
    (inserted : List (R × ℕ)) (phase : Phase)
    (hlog : Stored (groups ++ [g.progress status isLogged isSynced isInserted]) log)
    (hinserted : inserted = ((groups ++ [g.progress status isLogged isSynced isInserted]).filter
      Committed.inserted).flatMap Committed.entries)
    (hphase : PhaseOk { state with log := log } { commit with phase := phase }
      (g.progress status isLogged isSynced isInserted)) :
    StateOk { state with
      log := log
      inserted := inserted
      leader := some (.committing { commit with phase := phase }) } := by
  refine ⟨groups, _, hd.update hlog hinserted _, fun hnot ↦ absurd rfl (hnot _), by rintro _ ⟨⟩, ?_⟩
  rintro _ ⟨⟩
  exact ⟨_, rfl, { hc with phase := hphase }⟩

theorem CommitOk.addRecord (hphase : commit.phase = .append) (status : Status) (written : Bool) :
    StateOk { state with
      log := if status = .ok ∨ written = true
        then state.log ++ [⟨state.logFile, commit.updates, false⟩] else state.log
      leader := some (.committing { commit with
        phase := if status = .ok then (if commit.writer.sync then .sync else .insert)
          else .finish status }) } := by
  have hstart := hc.phase
  simp only [PhaseOk, hphase] at hstart
  obtain ⟨hnot, hout⟩ := hstart
  have hold : Stored groups state.log := (stored_snoc_of_not_logged hnot).mp hd.log
  have hinserted := hd.inserted_progress hout
  by_cases hwritten : status = .ok ∨ written = true
  · rw [if_pos hwritten]
    refine hc.advance hd status true false false _ _ _ ?_ (hinserted status true false) ?_
    · apply hold.snoc rfl
      exact ⟨hc.records, hc.first.trans (congrArg some hc.sequence.symm), by rintro ⟨⟩⟩
    · by_cases hok : status = .ok
      · rw [if_pos hok]
        by_cases hsync : commit.writer.sync = true
        · rw [if_pos hsync]
          exact ⟨rfl, rfl, _, getLast?_concat, rfl⟩
        · rw [if_neg hsync]
          exact ⟨rfl, rfl, fun h ↦ absurd h hsync⟩
      · rw [if_neg hok]
        exact ⟨rfl, fun h ↦ absurd h hok⟩
  · have hok : status ≠ .ok := fun h ↦ hwritten (.inl h)
    rw [if_neg hwritten, if_neg hok]
    refine hc.advance hd status false false false _ _ _ ?_ (hinserted status false false) ?_
    · exact (stored_snoc_of_not_logged rfl).mpr hold
    · exact ⟨rfl, fun h ↦ absurd h hok⟩

theorem CommitOk.syncLog (hphase : commit.phase = .sync) (status : Status) : StateOk { state with
      log := if status = .ok
        then state.log.map fun r ↦ if r.file = state.logFile then { r with synced := true } else r
        else state.log
      leader := some (.committing { commit with
        phase := if status = .ok then .insert else .finish status }) } := by
  have hstart := hc.phase
  simp only [PhaseOk, hphase] at hstart
  obtain ⟨hlogged, hout, r, hlast, hfile⟩ := hstart
  obtain ⟨old, r', hlog, hold, hmatches⟩ := Stored.exists_snoc hd.log hlogged
  obtain rfl : r' = r := by
    rw [hlog, getLast?_concat] at hlast
    exact Option.some_injective _ hlast
  have hinserted := hd.inserted_progress hout
  by_cases hok : status = .ok
  · rw [if_pos hok, if_pos hok]
    refine hc.advance hd .ok true true false _ _ _ ?_ (hinserted .ok true true) ⟨rfl, rfl, fun _ ↦ rfl⟩
    rw [hlog, map_append]
    refine Stored.snoc ?_ rfl ⟨?_, ?_, ?_⟩
    · apply hold.map
      · intro r
        split <;> rfl
      · intro r hsynced
        split
        · rfl
        · exact hsynced
    all_goals simp only [hfile, if_true]
    · exact hmatches.records
    · exact hmatches.first
    · simp
  · rw [if_neg hok, if_neg hok]
    refine hc.advance hd status true false false _ _ _ ?_ (hinserted status true false) ⟨rfl, fun h ↦ absurd h hok⟩
    rw [hlog]
    exact hold.snoc rfl ⟨hmatches.records, hmatches.first, by rintro ⟨⟩⟩

theorem CommitOk.insertInto (hphase : commit.phase = .insert) : StateOk { state with
      inserted := state.inserted ++ commit.updates.entries
      leader := some (.committing { commit with phase := .finish commit.updates.iterateStatus }) } := by
  have hstart := hc.phase
  simp only [PhaseOk, hphase] at hstart
  obtain ⟨hlogged, hout, hsync⟩ := hstart
  obtain ⟨old, r, hlog, hold, hmatches⟩ := Stored.exists_snoc hd.log hlogged
  have hentries : commit.updates.entries = g.entries := by
    unfold WriteBatch.entries Committed.entries
    rw [hc.records, hc.sequence, hc.first, Option.getD_some]
  rw [WriteBatch.iterateStatus_eq_ok]
  refine hc.advance hd .ok true g.synced true _ _ _ ?_ ?_ ⟨rfl, fun _ ↦ ⟨rfl, rfl, hsync⟩⟩
  · rw [hlog]
    exact hold.snoc rfl ⟨hmatches.records, hmatches.first, hmatches.synced⟩
  · rw [hd.inserted, hentries, filter_append, filter_append]
    simp [hout, Committed.progress, Committed.entries, Committed.records]

theorem CommitOk.finish {status : Status} (hphase : commit.phase = .finish status) :
    ∃ state', State.dequeue { state with
        tmpBatch := if commit.usesTmp then .cleared else state.tmpBatch
        lastSequence := commit.lastSequence } commit.writer commit.lastWriter status = .next state' ∧
      StateOk state' := by
  have hend := hc.phase
  simp only [PhaseOk, hphase] at hend
  obtain ⟨rfl, hok⟩ := hend
  obtain ⟨others, last, behind, hmembers, hwriters, hlast⟩ := hc.members
  have hle : state.lastSequence ≤ commit.lastSequence := by
    rw [hc.last_sequence]
    exact Nat.le_add_right _ _
  have hd' : Describes groups [g] { state with
      tmpBatch := if commit.usesTmp then .cleared else state.tmpBatch
      lastSequence := commit.lastSequence } :=
    { hd with block_le := fun b hb ↦ (hd.block_le b hb).trans (Nat.succ_le_succ hle) }
  rw [hlast]
  refine hd'.dequeue hmembers hwriters hc.writer_mem ?_ ?_ ?_
  · cases htmp : commit.usesTmp with
    | true => rfl
    | false => exact hc.tmp_empty htmp
  · intro hstatus _
    obtain ⟨hlogged, hinserted, hsync⟩ := hok hstatus
    refine ⟨by simp [hc.first], hlogged, hinserted, ?_⟩
    intro w hw hwsync
    apply hsync
    by_contra hnot
    have hfalse := hc.sync (by simpa using hnot) w hw
    simp [hwsync] at hfalse
  · intro b hb
    have hb : (state.lastSequence + 1, g.records.length) = b := by
      simpa [Committed.block, hc.first] using hb
    rw [← hb]
    change state.lastSequence + 1 + g.records.length ≤ commit.lastSequence + 1
    rw [hc.last_sequence, Nat.add_right_comm]

end

/-! ## Runs -/

/-- No step fails an assertion, and the next state is described too. -/
theorem StateOk.step (size : R → ℕ) (h : StateOk state) (action : Action R) :
    state.step size action ≠ .abort ∧ ∀ state', state.step size action = .next state' → StateOk state' := by
  have hkeeps : ∀ outcome : Outcome (State R), (∃ state', outcome = .next state' ∧ StateOk state') →
      outcome ≠ .abort ∧ ∀ state', outcome = .next state' → StateOk state' := by
    rintro outcome ⟨state', rfl, hstate'⟩
    refine ⟨by simp, ?_⟩
    rintro _ ⟨⟩
    exact hstate'
  have hguarded : ∀ (P : Prop) [Decidable P] (next : State R), (P → StateOk next) →
      Outcome.guarded P (.next next) ≠ .abort ∧
        ∀ state', Outcome.guarded P (.next next) = .next state' → StateOk state' := by
    intro P _ next hnext
    refine ⟨by unfold Outcome.guarded; split <;> simp, ?_⟩
    intro state' hstate'
    rw [Outcome.guarded_eq_next] at hstate'
    cases hstate'.2
    exact hnext hstate'.1
  unfold State.step
  split
  · exact hguarded _ _ h.enqueue
  · refine ⟨?_, fun _ ↦ h.proceed⟩
    unfold State.proceed
    split
    · simp
    · split
      · unfold Outcome.guarded
        split <;> simp
      · simp
  · rename_i writer hleader
    apply hkeeps
    obtain ⟨groups, inFlight, hd, hl⟩ := h
    refine ⟨_, rfl, groups, inFlight, { hd with }, { hl with committing := ?_ }⟩
    intro commit hcommit
    cases hleader.symm.trans hcommit
  · rename_i status writer hleader
    exact hkeeps _ (h.roomMade size hleader status)
  · rename_i commit _ _ hleader
    obtain ⟨groups, inFlight, hd, hl⟩ := h
    obtain ⟨g, rfl, hc⟩ := hl.committing commit hleader
    unfold State.commitStep
    split
    · exact hguarded _ _ fun hphase ↦ hc.addRecord hd hphase _ _
    · exact hguarded _ _ fun hphase ↦ hc.syncLog hd hphase _
    · exact hguarded _ _ fun hphase ↦ hc.insertInto hd hphase
    · split
      · rename_i status hphase
        exact hkeeps _ (hc.finish hd hphase)
      · simp
    · simp
  · simp

theorem stateOk_of_reachable {size : R → ℕ} (h : (groupCommit size).Reachable state) : StateOk state := by
  apply h.invariant
  · rintro _ ⟨lastSequence, logFile, rfl⟩
    refine ⟨[], [], ⟨rfl, nil_prefix, nodup_nil, by simp, by simp, .nil, rfl, by simp, by simp,
      by simp⟩, fun _ ↦ ⟨rfl, rfl⟩, by rintro _ ⟨⟩, by rintro _ ⟨⟩⟩
  · intro state action state' hstate _ hstep
    exact (hstate.step size action).2 state' hstep

theorem Describes.complete_of_returned {groups inFlight : List (Committed R)}
    (hd : Describes groups inFlight state) {w : Writer R} (hw : w ∈ state.arrived) (hbatch : w.batch ≠ none)
    (hreturned : (w.id, Status.ok) ∈ state.returned) :
    ∃ g ∈ groups, w ∈ g.members ∧ g.Complete ∧ ∀ g' ∈ groups, w ∈ g'.members → g' = g := by
  obtain ⟨g, hg, hid, hstatus⟩ := hd.status _ (mem_append_right _ hreturned)
  obtain ⟨w', hw', hsame⟩ := mem_map.mp hid
  have harrived : w' ∈ state.arrived := by
    rw [hd.arrived]
    exact mem_append_left _ (mem_flatMap_of_mem hg hw')
  obtain rfl : w' = w := inj_on_of_nodup_map hd.nodup harrived hw hsame
  refine ⟨g, hg, hw', hd.complete g hg hstatus.symm ⟨w', hw', hbatch⟩, ?_⟩
  intro g' hg' hmem
  exact hd.group_unique hg' hg (mem_map_of_mem hmem) hid

/-- In every reachable state the writers that have left the queue did so in groups, in queue order.  A
group is one log record and one block of sequence numbers in the memtables, of which each member has its
part; every member has the status of its group, and OK means that all of this has been done.  The
assertions of `Write` and `BuildBatchGroup` hold. -/
theorem writes_commit_in_groups (size : R → ℕ) {state : State R} (h : (groupCommit size).Reachable state) :
    (∃ groups inFlight, Describes groups inFlight state ∧
      (∀ w ∈ state.arrived, w.batch ≠ none → (w.id, Status.ok) ∈ state.returned →
        ∃ g ∈ groups, w ∈ g.members ∧ g.Complete ∧ ∀ g' ∈ groups, w ∈ g'.members → g' = g) ∧
      ∀ g ∈ groups ++ inFlight, ∀ first before w after, g.first = some first →
        g.members = before ++ w :: after →
        g.entries = (before.flatMap Writer.records).zipIdx first ++
          (w.records.zipIdx (first + (before.flatMap Writer.records).length) ++
            (after.flatMap Writer.records).zipIdx
              (first + (before.flatMap Writer.records).length + w.records.length))) ∧
    (∀ writer, state.leader = some (.makingRoom writer) → state.tmpBatch.count = 0) ∧
    ∀ action, state.step size action ≠ .abort := by
  have hok := stateOk_of_reachable h
  refine ⟨?_, ?_, fun action ↦ (hok.step size action).1⟩
  · obtain ⟨groups, inFlight, hd, -⟩ := hok
    exact ⟨groups, inFlight, hd, fun w hw ↦ hd.complete_of_returned hw,
      fun g _ first before w after hfirst hmembers ↦ g.entries_split hmembers hfirst⟩
  · intro writer hleader
    obtain ⟨groups, inFlight, -, hl⟩ := hok
    obtain ⟨-, htmp⟩ := hl.idle (by simp [hleader])
    rw [state.tmpBatch.count_eq, htmp]
    rfl

/-- Three writers arrive; the first two commit as one synced group while the third waits. -/
def groupOfTwo : List (Action ℕ) :=
  [.enqueue ⟨0, some ⟨0, 2, [10, 11], rfl⟩, true⟩, .proceed 0, .enqueue ⟨1, some ⟨0, 1, [12], rfl⟩, false⟩,
    .roomMade .ok, .enqueue ⟨2, some ⟨0, 1, [13], rfl⟩, false⟩, .addRecord .ok true, .syncLog .ok, .insertInto,
    .finish, .proceed 1]

theorem writes_commit_in_groups_of_two : ∃ state : State ℕ, (groupCommit fun _ ↦ 1).Reachable state ∧
      state.returned = [(0, .ok), (1, .ok)] ∧ state.inserted = [(10, 8), (11, 9), (12, 10)] ∧
      state.log.map (fun r ↦ (r.contents.records, r.synced)) = [([10, 11, 12], true)] ∧
      state.lastSequence = 10 ∧ ∀ action, state.step (fun _ ↦ 1) action ≠ .abort := by
  obtain ⟨state, hrun, hend⟩ := Machine.Run.of_exec (groupCommit fun _ : ℕ ↦ 1) (fun _ _ ↦ true)
    { lastSequence := 7, logFile := 3 } ⟨7, 3, rfl⟩ groupOfTwo
    (fun state ↦ state.returned = [(0, .ok), (1, .ok)] ∧ state.inserted = [(10, 8), (11, 9), (12, 10)] ∧
      state.log.map (fun r ↦ (r.contents.records, r.synced)) = [([10, 11, 12], true)] ∧
      state.lastSequence = 10) (by decide +kernel)
  have hreach : (groupCommit fun _ : ℕ ↦ 1).Reachable state := ⟨_, hrun.mono fun _ _ _ ↦ trivial⟩
  exact ⟨state, hreach, hend.1, hend.2.1, hend.2.2.1, hend.2.2.2,
    (writes_commit_in_groups (fun _ ↦ 1) hreach).2.2⟩

end LevelDB.Db.GroupCommit
