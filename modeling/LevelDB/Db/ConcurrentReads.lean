import LevelDB.Db.Replay
import LevelDB.Db.Scan

/-!
# Readers beside a writer

`DBImpl::Get` and `NewIterator` take a sequence number and pointers to the memtables and to the current
version while they hold `mutex_`, and search them after they have released it.  In the meantime the front
writer inserts its group into the memtable, one record after another, and publishes the new `LastSequence`
when it has the mutex again; it may later switch memtables, and the background thread may install a flush.

The machine below takes these steps one by one, with the memtables in a heap so that a reader keeps the
ones it has captured.  A read sees whole batches: its answers are those of the contents after all records
of the batches up to its sequence number, in order.
-/

namespace LevelDB.Db.ConcurrentReads

open Format TableFiles VersionBuilder CompactionPick Lookup Engine Library List Function

variable {K V : Type*}

/-! ## Writes and reads in progress -/

structure NumberedBatch (K V : Type*) where
  sequence : ℕ
  ops : List (WriteOp K V)

def numbered : ℕ → List (List (WriteOp K V)) → List (NumberedBatch K V)
  | _, [] => []
  | sequence, ops :: rest => ⟨sequence, ops⟩ :: numbered (sequence + ops.length) rest

/-- What the front writer does while it does not hold the mutex. -/
inductive WritePhase
  /-- `AddRecord` and `Sync`. -/
  | log
  /-- `InsertInto`, after this many records. -/
  | insert (found : ℕ)
  | failed
  deriving DecidableEq

/-- The local variables of `Write` behind `BuildBatchGroup`. -/
structure Write (K V : Type*) where
  /-- The batches of the group; `updates` is their concatenation. -/
  group : List (List (WriteOp K V))
  /-- The sequence number of `updates`. -/
  sequence : ℕ
  lastSequence : ℕ
  phase : WritePhase

/-- What a read captures under the mutex: its sequence number, `mem_`, `imm_` and the current version. -/
structure View (K : Type*) where
  sequence : ℕ
  mem : ℕ
  imm : Option ℕ
  version : Version K

/-- Where a call of `Get` looks next, or its status. -/
inductive Stage (V : Type*)
  | mem
  | imm
  | version
  | done (status : GetStatus V)
  deriving DecidableEq

structure GetCall (K V : Type*) where
  view : View K
  userKey : K
  stage : Stage V

/-- The parts of `DBImpl` and `VersionSet` that the steps read and write.  Memtables are numbered in the
order of their allocation; they stay in the heap while readers may hold them. -/
structure State (K V : Type*) where
  memtables : ℕ → List (Entry K V)
  mem : ℕ
  imm : Option ℕ
  current : Version K
  tables : ℕ → List (Entry K V)
  allowedSeeks : ℕ → ℤ
  compactPointer : ℕ → Option (InternalKey K)
  nextFileNumber : ℕ
  lastSequence : ℕ
  snapshots : List ℕ
  /-- The write in progress, if there is one. -/
  writing : Option (Write K V)
  /-- The batches that were written successfully, oldest first. -/
  written : List (NumberedBatch K V)
  iterators : List (View K)
  gets : List (GetCall K V)

inductive Action (K V : Type*)
  /-- The front writer builds its group and releases the mutex. -/
  | beginWrite (group : List (List (WriteOp K V)))
  /-- `AddRecord` and `Sync` end. -/
  | log (ok : Bool)
  /-- `MemTable::Add` of the next record. -/
  | insert
  /-- `SetLastSequence`, with the mutex held again. -/
  | publish
  | switchMemTable
  | compactMemTable (fileSize : ℕ)
  | getSnapshot
  | releaseSnapshot (index : ℕ)
  /-- `Get` captures its view, at a snapshot or at `LastSequence`. -/
  | get (userKey : K) (snapshot : Option ℕ)
  /-- A call of `Get` looks in one more place. -/
  | look (index : ℕ)
  | newIterator (snapshot : Option ℕ)

section Definitions

def NumberedBatch.entries [Inhabited V] (batch : NumberedBatch K V) : List (Entry K V) :=
  batchEntries batch.sequence batch.ops

/-- The entries that `InsertInto` adds to the memtable. -/
def Write.entries [Inhabited V] (write : Write K V) : List (Entry K V) :=
  batchEntries write.sequence write.group.flatten

variable [LinearOrder K]

/-- The database with the memtables that are current now. -/
def State.toEngine (state : State K V) : Engine.State K V where
  mem := state.memtables state.mem
  imm := state.imm.map state.memtables
  current := state.current
  tables := state.tables
  allowedSeeks := state.allowedSeeks
  compactPointer := state.compactPointer
  nextFileNumber := state.nextFileNumber
  lastSequence := state.lastSequence
  snapshots := state.snapshots
  running := none

/-- The database as a read finds it: what it has captured, with the contents of now. -/
def State.viewed (state : State K V) (view : View K) : Engine.State K V :=
  { state.toEngine with
    mem := state.memtables view.mem
    imm := view.imm.map state.memtables
    current := view.version }

/-- A database in which no write and no read is in progress. -/
def State.ofEngine (db : Engine.State K V) : State K V where
  memtables number := if number = 0 then db.imm.getD [] else if number = 1 then db.mem else []
  mem := 1
  imm := db.imm.map fun _ ↦ 0
  current := db.current
  tables := db.tables
  allowedSeeks := db.allowedSeeks
  compactPointer := db.compactPointer
  nextFileNumber := db.nextFileNumber
  lastSequence := db.lastSequence
  snapshots := db.snapshots
  writing := none
  written := []
  iterators := []
  gets := []

def State.view (state : State K V) (snapshot : Option ℕ) : View K where
  sequence := snapshot.getD state.lastSequence
  mem := state.mem
  imm := state.imm
  version := state.current

def GetCall.look (call : GetCall K V) (memtables tables : ℕ → List (Entry K V)) : Option (GetCall K V) :=
  let lkey := lookupKey call.userKey call.view.sequence
  match call.stage with
  | .mem =>
    match memTableGet (memtables call.view.mem) lkey with
    | some status => some { call with stage := .done status }
    | none => some { call with stage := .imm }
  | .imm =>
    match call.view.imm.bind fun imm ↦ memTableGet (memtables imm) lkey with
    | some status => some { call with stage := .done status }
    | none => some { call with stage := .version }
  | .version => some { call with stage := .done (versionGet call.view.version tables lkey).1 }
  | .done _ => none

def State.compactMemTable (scoring : Scoring K) (state : State K V) (fileSize : ℕ) :
    Outcome (State K V) :=
  match state.toEngine.compactMemTable scoring fileSize with
  | .next db => .next { state with
      imm := none
      current := db.current
      tables := db.tables
      allowedSeeks := db.allowedSeeks
      compactPointer := db.compactPointer
      nextFileNumber := db.nextFileNumber }
  | .blocked => .blocked
  | .abort => .abort

variable [Inhabited V]

/-- `SetSequence` and the new `last_sequence` of a group. -/
def State.beginWrite (state : State K V) (group : List (List (WriteOp K V))) : Write K V where
  group := group
  sequence := state.lastSequence + 1
  lastSequence := state.lastSequence + group.flatten.length
  phase := .log

/-- The next record of the group goes into the memtable. -/
def State.insert (state : State K V) (write : Write K V) (found : ℕ) : Outcome (State K V) :=
  match write.entries[found]? with
  | some e => .next { state with
      memtables := update state.memtables state.mem (memTableAdd (state.memtables state.mem) e)
      writing := some { write with phase := .insert (found + 1) } }
  | none => .blocked

/-- `SetLastSequence`, also after a failure. -/
def State.publish (state : State K V) (write : Write K V) (batches : List (NumberedBatch K V)) : State K V :=
  { state with
    lastSequence := write.lastSequence
    writing := none
    written := state.written ++ batches }

/-- One step.  Only the front writer switches memtables, so it does not while a write is in progress. -/
def step (scoring : Scoring K) (state : State K V) (action : Action K V) : Outcome (State K V) :=
  match action, state.writing with
  | .beginWrite group, none =>
    .guarded (state.lastSequence + group.flatten.length < kMaxSequenceNumber)
      (.next { state with writing := some (state.beginWrite group) })
  | .log ok, some write =>
    .guarded (write.phase = .log)
      (.next { state with writing := some { write with phase := if ok then .insert 0 else .failed } })
  | .insert, some write =>
    match write.phase with
    | .insert found => state.insert write found
    | _ => .blocked
  | .publish, some write =>
    match write.phase with
    | .insert found =>
      .guarded (found = write.entries.length)
        (.next (state.publish write (numbered write.sequence write.group)))
    | .failed => .next (state.publish write [])
    | .log => .blocked
  | .switchMemTable, none =>
    .guarded (state.imm.isNone ∧ (state.current.files 0).length < kL0StopWritesTrigger)
      (.next { state with
        memtables := update state.memtables (state.mem + 1) []
        mem := state.mem + 1
        imm := some state.mem
        nextFileNumber := state.nextFileNumber + 1 })
  | .compactMemTable fileSize, _ => state.compactMemTable scoring fileSize
  | .getSnapshot, _ => .next { state with snapshots := state.snapshots ++ [state.lastSequence] }
  | .releaseSnapshot index, _ => .next { state with snapshots := state.snapshots.eraseIdx index }
  | .get userKey snapshot, _ =>
    .guarded (∀ s ∈ snapshot, s ∈ state.snapshots)
      (.next { state with gets := state.gets ++ [⟨state.view snapshot, userKey, .mem⟩] })
  | .look index, _ =>
    match (state.gets[index]?).bind fun call ↦ call.look state.memtables state.tables with
    | some call => .next { state with gets := state.gets.set index call }
    | none => .blocked
  | .newIterator snapshot, _ =>
    .guarded (∀ s ∈ snapshot, s ∈ state.snapshots)
      (.next { state with iterators := state.iterators ++ [state.view snapshot] })
  | _, _ => .blocked

/-- Readers and writers on a database, from a state in which none of them is active. -/
def readers (scoring : Scoring K) (start : Engine.State K V) : Machine (State K V) (Action K V) where
  init state := state = State.ofEngine start
  step := step scoring

end Definitions

section Batches

/-- The sequence number cuts no batch: all of its records are at or below the number, or none. -/
def NumberedBatch.Whole (batch : NumberedBatch K V) (s : ℕ) : Prop :=
  batch.sequence + batch.ops.length ≤ s + 1 ∨ s < batch.sequence

def observed (written : List (NumberedBatch K V)) (s : ℕ) : List (WriteOp K V) :=
  (written.filter fun batch ↦ batch.sequence ≤ s).flatMap NumberedBatch.ops

theorem mem_numbered {sequence : ℕ} {group : List (List (WriteOp K V))} {batch : NumberedBatch K V}
    (h : batch ∈ numbered sequence group) :
    sequence ≤ batch.sequence ∧ batch.sequence + batch.ops.length ≤ sequence + group.flatten.length := by
  induction group generalizing sequence with
  | nil => cases h
  | cons ops rest ih =>
    rw [flatten_cons, length_append]
    rcases mem_cons.mp h with rfl | h
    · exact ⟨le_rfl, by dsimp only; omega⟩
    · obtain ⟨hle, hlast⟩ := ih h
      exact ⟨by omega, by omega⟩

theorem observed_append_of_lt (written : List (NumberedBatch K V)) {later : List (NumberedBatch K V)}
    {s : ℕ} (hlater : ∀ batch ∈ later, s < batch.sequence) :
    observed (written ++ later) s = observed written s := by
  have hnone : (later.filter fun batch ↦ batch.sequence ≤ s) = [] := by
    rw [filter_eq_nil_iff]
    intro batch hbatch
    simpa using hlater batch hbatch
  rw [observed, filter_append, hnone, append_nil]
  rfl

variable [Inhabited V]

theorem batchEntries_append (sequence : ℕ) (ops ops' : List (WriteOp K V)) :
    batchEntries sequence (ops ++ ops') =
      batchEntries sequence ops ++ batchEntries (sequence + ops.length) ops' := by
  induction ops generalizing sequence with
  | nil => rfl
  | cons op rest ih =>
    rw [cons_append, batchEntries, batchEntries, ih, cons_append, length_cons,
      Nat.add_right_comm, Nat.add_assoc]

theorem numbered_entries (sequence : ℕ) (group : List (List (WriteOp K V))) :
    (numbered sequence group).flatMap NumberedBatch.entries = batchEntries sequence group.flatten := by
  induction group generalizing sequence with
  | nil => rfl
  | cons ops rest ih =>
    rw [numbered, flatMap_cons, ih, flatten_cons, batchEntries_append]
    rfl

theorem NumberedBatch.lt_of_mem_entries {batch : NumberedBatch K V} {s : ℕ} (hlt : s < batch.sequence) :
    ∀ e ∈ batch.entries, s < e.sequence :=
  fun _ he ↦ hlt.trans_le (mem_batchEntries he).2.1

variable [LinearOrder K]

/-- At a sequence number that cuts no batch, the newest writes are those of whole batches. -/
theorem valueAt_written (writes : List (Entry K V)) {written : List (NumberedBatch K V)} {s : ℕ}
    (hwhole : ∀ batch ∈ written, batch.Whole s) :
    valueAt (writes ++ written.flatMap NumberedBatch.entries) s =
      replay (valueAt writes s) (observed written s) := by
  induction written generalizing writes with
  | nil => rw [flatMap_nil, append_nil]; rfl
  | cons batch rest ih =>
    rw [flatMap_cons, ← append_assoc, ih _ fun b hb ↦ hwhole b (mem_cons_of_mem _ hb)]
    unfold observed
    by_cases hle : batch.sequence ≤ s
    · have hlast := (hwhole batch mem_cons_self).resolve_right (Nat.not_lt.mpr hle)
      rw [filter_cons_of_pos (by simpa using hle), flatMap_cons, replay_append]
      exact congrArg (replay · _) (valueAt_append_batch writes hlast)
    · have hlt := batch.lt_of_mem_entries (Nat.not_le.mp hle)
      rw [filter_cons_of_neg (by simpa using hle), valueAt_append_of_lt writes hlt]

end Batches

/-! ## Views -/

variable [LinearOrder K] [Inhabited V]

/-- `frozen` is the database of the moment in which the view was captured, without the write that was in
progress.  What has been added to the captured memtable since is newer. -/
structure Froze (writes : List (Entry K V)) (state : State K V) (view : View K)
    (frozen : Engine.State K V) : Prop where
  layers : ReadLayers frozen
  largest : LargestAttained frozen
  written : ∀ e ∈ frozen.allEntries, Written frozen.lastSequence e
  resolves : ∀ userKey result, Resolves frozen.allEntries userKey view.sequence result ↔
    result = replay (valueAt writes view.sequence) (observed state.written view.sequence) userKey
  whole : ∀ batch ∈ state.written,
    (∀ e ∈ batch.entries, e.sequence ≤ view.sequence ∧ e ∈ frozen.allEntries) ∨
      ∀ e ∈ batch.entries, view.sequence < e.sequence
  sequence_le : view.sequence ≤ frozen.lastSequence
  last_le : frozen.lastSequence ≤ state.lastSequence
  mem_sorted : SortedEntries (state.memtables view.mem)
  mem_subset : ∀ e ∈ frozen.mem, e ∈ state.memtables view.mem
  mem_new : ∀ e ∈ state.memtables view.mem,
    e ∈ frozen.mem ∨ e.type.isSome ∧ frozen.lastSequence < e.sequence
  mem_le : view.mem ≤ state.mem
  imm_eq : view.imm.map state.memtables = frozen.imm
  imm_lt : ∀ number ∈ view.imm, number < state.mem
  version_eq : view.version = frozen.current
  tables_eq : ∀ level, ∀ f ∈ frozen.current.files level, state.tables f.number = frozen.tables f.number
  number_lt : ∀ level, ∀ f ∈ frozen.current.files level, f.number < state.nextFileNumber

/-- What any step may change of the data that views refer to. -/
structure Grows (state state' : State K V) : Prop where
  memtables : ∀ number < state.mem, state'.memtables number = state.memtables number
  mem_table : state'.memtables state.mem = state.memtables state.mem ∨
    ∃ e, e.type.isSome ∧ state.lastSequence < e.sequence ∧
      state'.memtables state.mem = memTableAdd (state.memtables state.mem) e
  mem_le : state.mem ≤ state'.mem
  tables : ∀ number < state.nextFileNumber, state'.tables number = state.tables number
  next_le : state.nextFileNumber ≤ state'.nextFileNumber
  last_le : state.lastSequence ≤ state'.lastSequence
  written : ∃ later, state'.written = state.written ++ later ∧
    ∀ batch ∈ later, state.lastSequence < batch.sequence

omit [Inhabited V] in
theorem Grows.of_same {state state' : State K V} (hmemtables : state'.memtables = state.memtables)
    (hmem : state'.mem = state.mem) (htables : state'.tables = state.tables)
    (hnext : state'.nextFileNumber = state.nextFileNumber)
    (hlast : state'.lastSequence = state.lastSequence) (hwritten : state'.written = state.written) :
    Grows state state' where
  memtables := by simp [hmemtables]
  mem_table := by simp [hmemtables]
  mem_le := hmem.ge
  tables := by simp [htables]
  next_le := hnext.ge
  last_le := hlast.ge
  written := ⟨[], by simp [hwritten], by simp⟩

/-- A view stays as it was captured. -/
theorem Froze.grows {writes : List (Entry K V)} {state state' : State K V} {view : View K}
    {frozen : Engine.State K V} (h : Froze writes state view frozen) (hgrows : Grows state state') :
    Froze writes state' view frozen := by
  obtain ⟨later, hwritten, hlater⟩ := hgrows.written
  have hbeyond : ∀ batch ∈ later, view.sequence < batch.sequence := fun batch hbatch ↦
    (h.sequence_le.trans h.last_le).trans_lt (hlater batch hbatch)
  have htable : state'.memtables view.mem = state.memtables view.mem ∨
      ∃ e, e.type.isSome ∧ frozen.lastSequence < e.sequence ∧
        state'.memtables view.mem = memTableAdd (state.memtables view.mem) e := by
    rcases h.mem_le.lt_or_eq with hlt | heq
    · exact .inl (hgrows.memtables view.mem hlt)
    · rw [heq]
      refine hgrows.mem_table.imp_right ?_
      rintro ⟨e, htype, hlt, hadd⟩
      exact ⟨e, htype, h.last_le.trans_lt hlt, hadd⟩
  refine { h with
    resolves := ?_, whole := ?_, mem_sorted := ?_, mem_subset := ?_, mem_new := ?_, imm_eq := ?_
    last_le := h.last_le.trans hgrows.last_le
    mem_le := h.mem_le.trans hgrows.mem_le
    imm_lt := fun number hnumber ↦ (h.imm_lt number hnumber).trans_le hgrows.mem_le
    tables_eq := fun level f hf ↦ (hgrows.tables _ (h.number_lt level f hf)).trans (h.tables_eq level f hf)
    number_lt := fun level f hf ↦ (h.number_lt level f hf).trans_le hgrows.next_le }
  · rw [hwritten, observed_append_of_lt _ hbeyond]
    exact h.resolves
  · intro batch hbatch
    rw [hwritten] at hbatch
    rcases mem_append.mp hbatch with hbatch | hbatch
    · exact h.whole batch hbatch
    · exact .inr (batch.lt_of_mem_entries (hbeyond batch hbatch))
  · rcases htable with heq | ⟨e, -, -, heq⟩
    · exact heq ▸ h.mem_sorted
    · rw [heq]
      exact SortedLists.pairwise_insertByKey h.mem_sorted
  · intro e he
    rcases htable with heq | ⟨x, -, -, heq⟩
    · exact heq ▸ h.mem_subset e he
    · rw [heq]
      exact SortedLists.mem_insertByKey_of_mem (h.mem_subset e he)
  · intro e he
    rcases htable with heq | ⟨x, htype, hlt, heq⟩
    · exact h.mem_new e (heq ▸ he)
    · rw [heq] at he
      rcases SortedLists.mem_of_mem_insertByKey he with rfl | he
      · exact .inr ⟨htype, hlt⟩
      · exact h.mem_new e he
  · rw [← h.imm_eq]
    refine Option.map_congr fun number hnumber ↦ ?_
    exact hgrows.memtables number (h.imm_lt number hnumber)

section Froze

variable {writes : List (Entry K V)} {state : State K V} {view : View K} {frozen : Engine.State K V}

section

variable (h : Froze writes state view frozen)

include h

theorem Froze.storedEntries_eq : storedEntries (state.viewed view).current (state.viewed view).tables =
      storedEntries frozen.current frozen.tables := by
  change storedEntries view.version state.tables = _
  rw [h.version_eq]
  exact storedEntries_congr h.tables_eq

theorem Froze.immEntries_eq : (state.viewed view).immEntries = frozen.immEntries :=
  congrArg (Option.getD · []) h.imm_eq

theorem Froze.mem_allEntries {e : Entry K V} : e ∈ (state.viewed view).allEntries ↔
      e ∈ frozen.allEntries ∨ e ∈ state.memtables view.mem ∧ frozen.lastSequence < e.sequence := by
  have hmem : e ∈ (state.viewed view).mem ↔
      e ∈ frozen.mem ∨ e ∈ state.memtables view.mem ∧ frozen.lastSequence < e.sequence := by
    constructor
    · intro he
      exact (h.mem_new e he).imp_right fun hnew ↦ ⟨he, hnew.2⟩
    · rintro (he | ⟨he, -⟩)
      · exact h.mem_subset e he
      · exact he
  simp only [Engine.State.allEntries, Set.mem_union, Set.mem_ofPred_eq, hmem, h.immEntries_eq,
    h.storedEntries_eq]
  tauto

theorem Froze.parses : ∀ e ∈ (state.viewed view).allEntries, e.type.isSome := by
  rintro e (he | he)
  · rcases h.mem_new e he with hold | hnew
    · exact h.layers.parses e (.inl hold)
    · exact hnew.1
  · rw [h.immEntries_eq, h.storedEntries_eq] at he
    exact h.layers.parses e (.inr he)

theorem Froze.readLayers : ReadLayers (state.viewed view) where
  parses := h.parses
  mem_sorted := h.mem_sorted
  imm_sorted := h.immEntries_eq ▸ h.layers.imm_sorted
  sorted := by
    change ∀ level, level ≠ 0 → SortedLevel (view.version.files level)
    exact h.version_eq ▸ h.layers.sorted
  within := by
    change ∀ level, ∀ f ∈ view.version.files level, TableWithin f (state.tables f.number)
    rw [h.version_eq]
    intro level f hf
    rw [h.tables_eq level f hf]
    exact h.layers.within level f hf
  number_ne := by
    change (view.version.files 0).Pairwise fun f g ↦ f.number ≠ g.number
    exact h.version_eq ▸ h.layers.number_ne
  mem_newer := by
    rw [h.immEntries_eq, h.storedEntries_eq]
    intro a ha b hb huser
    rcases h.mem_new a ha with hold | hnew
    · exact h.layers.mem_newer a hold b hb huser
    · exact tag_lt_of_sequence_lt ((h.written b (.inr hb)).2.trans_lt hnew.2)
  imm_newer := by
    rw [h.immEntries_eq, h.storedEntries_eq]
    exact h.layers.imm_newer
  layered := by
    change Layered view.version state.tables
    rw [h.version_eq]
    exact h.layers.layered.congr h.tables_eq

/-- A read of the view sees the contents after whole batches. -/
theorem Froze.resolves_viewed (userKey : K) (result : Option V) :
    Resolves (state.viewed view).allEntries userKey view.sequence result ↔
      result = replay (valueAt writes view.sequence) (observed state.written view.sequence) userKey := by
  rw [← h.resolves]
  apply Newest.reads_congr
  rintro e - htag
  constructor
  · rintro ⟨he, hsome⟩
    have hle := (Entry.tag_le_snapshotTag hsome _).mp htag
    rcases h.mem_allEntries.mp he with he | ⟨-, hlt⟩
    · exact ⟨he, hsome⟩
    · exact absurd (hle.trans h.sequence_le) (Nat.not_le.mpr hlt)
  · rintro ⟨he, hsome⟩
    exact ⟨h.mem_allEntries.mpr (.inl he), hsome⟩

theorem Froze.memTableGet_mem (userKey : K) :
    memTableGet (state.memtables view.mem) (lookupKey userKey view.sequence) =
      memTableGet frozen.mem (lookupKey userKey view.sequence) := by
  refine memTableGet_congr h.mem_sorted h.layers.mem_sorted (fun e he ↦ h.parses e (.inl he))
    (fun e he ↦ h.layers.parses e (.inl he)) (fun e hle ↦ ?_) userKey
  refine ⟨fun he ↦ (h.mem_new e he).resolve_right fun hnew ↦ ?_, h.mem_subset e⟩
  exact absurd (hle.trans h.sequence_le) (Nat.not_le.mpr hnew.2)

theorem Froze.memTableGet_imm (lkey : InternalKey K) :
    (view.imm.bind fun imm ↦ memTableGet (state.memtables imm) lkey) =
      frozen.imm.bind fun imm ↦ memTableGet imm lkey := by
  rw [← h.imm_eq]
  cases view.imm <;> rfl

theorem Froze.versionGet_eq (lkey : InternalKey K) :
    versionGet view.version state.tables lkey = versionGet frozen.current frozen.tables lkey := by
  rw [h.version_eq]
  exact versionGet_congr h.tables_eq lkey

end

def GetCall.StageOk (call : GetCall K V) (frozen : Engine.State K V) : Prop :=
  let lkey := lookupKey call.userKey call.view.sequence
  match call.stage with
  | .mem => True
  | .imm => memTableGet frozen.mem lkey = none
  | .version => memTableGet frozen.mem lkey = none ∧
      (frozen.imm.bind fun imm ↦ memTableGet imm lkey) = none
  | .done status => status = frozen.get call.userKey call.view.sequence

/-- However the steps of the writer fall between the looks of `Get`, it answers as in the captured
database. -/
theorem Froze.look {call call' : GetCall K V} (h : Froze writes state call.view frozen)
    (hstage : call.StageOk frozen) (hlook : call.look state.memtables state.tables = some call') :
    call'.view = call.view ∧ call'.StageOk frozen := by
  unfold GetCall.StageOk at hstage
  unfold GetCall.look at hlook
  dsimp only at hlook hstage
  cases hcall : call.stage with
  | mem =>
    rw [hcall] at hlook
    dsimp only at hlook
    rw [h.memTableGet_mem] at hlook
    cases hget : memTableGet frozen.mem (lookupKey call.userKey call.view.sequence) with
    | some status =>
      rw [hget] at hlook
      obtain rfl := Option.some.inj hlook
      refine ⟨rfl, ?_⟩
      simp [GetCall.StageOk, Engine.State.get, hget]
    | none =>
      rw [hget] at hlook
      obtain rfl := Option.some.inj hlook
      exact ⟨rfl, hget⟩
  | imm =>
    rw [hcall] at hlook hstage
    dsimp only at hlook hstage
    rw [h.memTableGet_imm] at hlook
    cases hget : frozen.imm.bind fun imm ↦
        memTableGet imm (lookupKey call.userKey call.view.sequence) with
    | some status =>
      rw [hget] at hlook
      obtain rfl := Option.some.inj hlook
      refine ⟨rfl, ?_⟩
      simp [GetCall.StageOk, Engine.State.get, hget, hstage]
    | none =>
      rw [hget] at hlook
      obtain rfl := Option.some.inj hlook
      exact ⟨rfl, hstage, hget⟩
  | version =>
    rw [hcall] at hlook hstage
    dsimp only at hlook hstage
    rw [h.versionGet_eq] at hlook
    obtain rfl := Option.some.inj hlook
    refine ⟨rfl, ?_⟩
    simp [GetCall.StageOk, Engine.State.get, hstage.1, hstage.2]
  | done status =>
    rw [hcall] at hlook
    cases hlook

end Froze

/-! ## The invariant -/

/-- The records that the write in progress has inserted so far. -/
def State.inserted (state : State K V) : List (Entry K V) :=
  match state.writing with
  | none => []
  | some write =>
    match write.phase with
    | .insert found => write.entries.take found
    | _ => []

/-- The state is `db`, which reads as `history`, together with the records that have been inserted but not
published.  The history goes on from `writes` with the batches written since. -/
structure Describes (writes : List (Entry K V)) (state : State K V) (history : History K V)
    (db : Engine.State K V) : Prop where
  reads : ReadsHistory history db
  engine : state.toEngine = { db with mem := state.inserted.foldl memTableAdd db.mem }
  history_eq : history.writes = writes ++ state.written.flatMap NumberedBatch.entries
  stored : ∀ batch ∈ state.written, ∀ e ∈ batch.entries, e ∈ db.allEntries
  ended : ∀ batch ∈ state.written, batch.sequence + batch.ops.length ≤ state.lastSequence + 1
  whole : ∀ s ∈ state.snapshots, ∀ batch ∈ state.written, batch.Whole s
  write : ∀ write, state.writing = some write → write.sequence = state.lastSequence + 1 ∧
    write.lastSequence = state.lastSequence + write.group.flatten.length ∧
    write.lastSequence < kMaxSequenceNumber
  imm_lt : ∀ number ∈ state.imm, number < state.mem

/-- Every read in progress has captured a database of its own moment. -/
structure ViewsOk (writes : List (Entry K V)) (state : State K V) : Prop where
  iterators : ∀ view ∈ state.iterators, ∃ frozen, Froze writes state view frozen
  gets : ∀ call ∈ state.gets, ∃ frozen, Froze writes state call.view frozen ∧ call.StageOk frozen

section Steps

variable {scoring : Scoring K} {writes : List (Entry K V)} {state state' : State K V}
  {history : History K V} {db : Engine.State K V}

section

variable (h : Describes writes state history db)
include h

theorem Describes.lastSequence_eq : state.lastSequence = db.lastSequence :=
  congrArg Engine.State.lastSequence h.engine

theorem Describes.mem_eq : state.memtables state.mem = state.inserted.foldl memTableAdd db.mem :=
  congrArg Engine.State.mem h.engine

theorem Describes.entries_new {write : Write K V} (hwriting : state.writing = some write) {e : Entry K V}
    (he : e ∈ write.entries) : e.type.isSome ∧ state.lastSequence < e.sequence := by
  obtain ⟨htype, hle, -⟩ := mem_batchEntries he
  rw [(h.write write hwriting).1] at hle
  exact ⟨htype, hle⟩

end

omit [LinearOrder K] in
theorem mem_inserted {e : Entry K V} (he : e ∈ state.inserted) :
    ∃ write, state.writing = some write ∧ e ∈ write.entries := by
  unfold State.inserted at he
  split at he
  · cases he
  · rename_i write hwriting
    refine ⟨write, hwriting, ?_⟩
    split at he
    · exact mem_of_mem_take he
    · cases he

omit [LinearOrder K] in
theorem inserted_increasing (state : State K V) :
    state.inserted.Pairwise fun a b ↦ a.sequence < b.sequence := by
  unfold State.inserted
  split
  · exact .nil
  · split
    · exact (batchEntries_increasing _ _).sublist (take_sublist _ _)
    · exact .nil

theorem Describes.mem_memtable (h : Describes writes state history db) {e : Entry K V} :
    e ∈ state.memtables state.mem ↔ e ∈ db.mem ∨ e ∈ state.inserted := by
  rw [h.mem_eq]
  apply mem_foldl_memTableAdd
  · intro a ha b hb
    obtain ⟨write, hwriting, ha⟩ := mem_inserted ha
    have hlt := (h.entries_new hwriting ha).2
    rw [h.lastSequence_eq] at hlt
    exact key_ne_of_sequence_lt ((h.reads.sound.mem_written b hb).2.trans_lt hlt)
  · exact (inserted_increasing state).imp key_ne_of_sequence_lt

omit [LinearOrder K] in
theorem NumberedBatch.le_of_mem_entries {batch : NumberedBatch K V} {s : ℕ}
    (hle : batch.sequence + batch.ops.length ≤ s + 1) : ∀ e ∈ batch.entries, e.sequence ≤ s := by
  intro e he
  have hlt := (mem_batchEntries he).2.2
  omega

section

variable (h : Describes writes state history db)

include h

/-- A read that takes its view now captures the published database. -/
theorem Describes.view {snapshot : Option ℕ} (hsnapshot : ∀ s ∈ snapshot, s ∈ state.snapshots) :
    Froze writes state (state.view snapshot) db := by
  have hsound := h.reads.sound
  have hsnapshots : state.snapshots = db.snapshots := congrArg Engine.State.snapshots h.engine
  have htables : state.tables = db.tables := congrArg Engine.State.tables h.engine
  have hnext : state.nextFileNumber = db.nextFileNumber := congrArg Engine.State.nextFileNumber h.engine
  have hs : (state.view snapshot).sequence = state.lastSequence ∨
      (state.view snapshot).sequence ∈ state.snapshots := by
    cases snapshot with
    | none => exact .inl rfl
    | some s => exact .inr (hsnapshot s rfl)
  have hreadable : Readable db (state.view snapshot).sequence := by
    rw [Readable, ← hsnapshots, ← h.lastSequence_eq]
    exact hs.symm.imp_right Eq.ge
  have hwhole : ∀ batch ∈ state.written, batch.Whole (state.view snapshot).sequence := by
    intro batch hbatch
    rcases hs with hs | hs
    · exact .inl (hs ▸ h.ended batch hbatch)
    · exact h.whole _ hs batch hbatch
  refine
    { layers := hsound.readLayers h.reads.layered
      largest := fun level _ f hf ↦ (hsound.stored.table level f hf).largest_mem
      written := hsound.allEntries_written
      resolves := ?_, whole := ?_, sequence_le := ?_
      last_le := h.lastSequence_eq.ge
      mem_sorted := ?_, mem_subset := ?_, mem_new := ?_
      mem_le := le_rfl
      imm_eq := congrArg Engine.State.imm h.engine
      imm_lt := h.imm_lt
      version_eq := congrArg Engine.State.current h.engine
      tables_eq := fun level f _ ↦ congrFun htables f.number
      number_lt := fun level f hf ↦ hnext ▸ hsound.stored.number_lt level f hf }
  · intro userKey result
    rw [h.reads.reads _ hreadable, resolves_iff_valueAt (fun e he ↦ (h.reads.written e he).1)
      h.reads.increasing, h.history_eq, valueAt_written writes hwhole]
  · intro batch hbatch
    refine (hwhole batch hbatch).imp (fun hle e he ↦ ?_) batch.lt_of_mem_entries
    exact ⟨batch.le_of_mem_entries hle e he, h.stored batch hbatch e he⟩
  · rw [← h.lastSequence_eq]
    rcases hs with hs | hs
    · exact hs.le
    · rw [hsnapshots] at hs
      exact (h.reads.snapshots_le _ hs).trans h.lastSequence_eq.ge
  · change SortedEntries (state.memtables state.mem)
    rw [h.mem_eq]
    exact memTableAdd_sorted hsound.mem_sorted _
  · intro e he
    exact h.mem_memtable.mpr (.inl he)
  · intro e he
    refine (h.mem_memtable.mp he).imp_right fun hinserted ↦ ?_
    obtain ⟨write, hwriting, he⟩ := mem_inserted hinserted
    exact h.lastSequence_eq ▸ h.entries_new hwriting he

/-- A step that changes no contents and numbers. -/
theorem Describes.of_same (hengine : state'.toEngine = state.toEngine)
    (hinserted : state'.inserted = state.inserted) (hwritten : state'.written = state.written)
    (himm : state'.imm = state.imm) (hmem : state'.mem = state.mem)
    (hwrite : ∀ write, state'.writing = some write → write.sequence = state.lastSequence + 1 ∧
      write.lastSequence = state.lastSequence + write.group.flatten.length ∧
      write.lastSequence < kMaxSequenceNumber) : Describes writes state' history db := by
  have hlast : state'.lastSequence = state.lastSequence := congrArg Engine.State.lastSequence hengine
  have hsnapshots : state'.snapshots = state.snapshots := congrArg Engine.State.snapshots hengine
  refine ⟨h.reads, ?_, ?_, ?_, ?_, ?_, ?_, ?_⟩
  · rw [hengine, hinserted]
    exact h.engine
  · rw [hwritten]
    exact h.history_eq
  · rw [hwritten]
    exact h.stored
  · rw [hwritten, hlast]
    exact h.ended
  · rw [hwritten, hsnapshots]
    exact h.whole
  · rw [hlast]
    exact hwrite
  · rw [himm, hmem]
    exact h.imm_lt

theorem Describes.beginWrite {group : List (List (WriteOp K V))} (hidle : state.writing = none)
    (hmax : state.lastSequence + group.flatten.length < kMaxSequenceNumber) :
    Describes writes { state with writing := some (state.beginWrite group) } history db := by
  refine h.of_same rfl ?_ rfl rfl rfl ?_
  · simp [State.inserted, State.beginWrite, hidle]
  · rintro write hwriting
    obtain rfl := Option.some.inj hwriting
    exact ⟨rfl, rfl, hmax⟩

theorem Describes.log {write : Write K V} (hwriting : state.writing = some write)
    (hphase : write.phase = .log) (ok : Bool) :
    Describes writes
      { state with writing := some { write with phase := if ok then .insert 0 else .failed } }
      history db := by
  refine h.of_same rfl ?_ rfl rfl rfl ?_
  · cases ok <;> simp [State.inserted, hwriting, hphase]
  · rintro _ hnext
    obtain rfl := Option.some.inj hnext
    exact h.write write hwriting

theorem Describes.insert {write : Write K V} {found : ℕ} (hwriting : state.writing = some write)
    (hphase : write.phase = .insert found) (hinsert : state.insert write found = .next state') :
    Describes writes state' history db ∧ Grows state state' := by
  unfold State.insert at hinsert
  cases hentry : write.entries[found]? with
  | none => simp [hentry] at hinsert
  | some e =>
    rw [hentry] at hinsert
    obtain rfl := Outcome.next.inj hinsert
    have hinserted : state.inserted = write.entries.take found := by
      simp [State.inserted, hwriting, hphase]
    obtain ⟨htype, hlt⟩ := h.entries_new hwriting (mem_of_getElem? hentry)
    have himm : state.imm.map (update state.memtables state.mem
        (memTableAdd (state.memtables state.mem) e)) = state.imm.map state.memtables := by
      refine Option.map_congr fun number hnumber ↦ ?_
      rw [update_of_ne (h.imm_lt number hnumber).ne]
    constructor
    · refine { h with engine := ?_, write := ?_ }
      · have htake : (write.entries.take (found + 1)).foldl memTableAdd db.mem =
            memTableAdd (state.memtables state.mem) e := by
          rw [take_add_one, hentry, h.mem_eq, hinserted, foldl_append]
          rfl
        have hold := h.engine
        rw [Engine.State.mk.injEq] at hold ⊢
        exact ⟨(update_self _ _ _).trans htake.symm, himm.trans hold.2.1, hold.2.2⟩
      · rintro _ hnext
        obtain rfl := Option.some.inj hnext
        exact h.write write hwriting
    · exact {
        memtables := fun number hnumber ↦ update_of_ne hnumber.ne _ _
        mem_table := .inr ⟨e, htype, hlt, update_self _ _ _⟩
        mem_le := le_rfl
        tables := fun _ _ ↦ rfl
        next_le := le_rfl
        last_le := le_rfl
        written := ⟨[], by simp, by simp⟩ }

/-- The group that is written now begins beyond every snapshot. -/
theorem Describes.snapshot_lt {write : Write K V} (hwriting : state.writing = some write) {s : ℕ}
    (hs : s ∈ state.snapshots) : s < write.sequence := by
  have hsnapshots : state.snapshots = db.snapshots := congrArg Engine.State.snapshots h.engine
  have hle := h.reads.snapshots_le s (hsnapshots ▸ hs)
  rw [← h.lastSequence_eq] at hle
  rw [(h.write write hwriting).1]
  omega

end

theorem Describes.published (scoring : Scoring K) (h : Describes writes state history db)
    {write : Write K V} (hwriting : state.writing = some write) (hinserted : state.inserted = write.entries) :
    ∃ history' db', Describes writes (state.publish write (numbered write.sequence write.group))
      history' db' := by
  obtain ⟨hsequence, hlast, hmax⟩ := h.write write hwriting
  rw [h.lastSequence_eq] at hlast hsequence
  have hentries : write.entries = batchEntries (db.lastSequence + 1) write.group.flatten := by
    rw [← hsequence]
    rfl
  have hstep : Engine.step scoring db (.write write.group.flatten) = .next { db with
      mem := write.entries.foldl memTableAdd db.mem
      lastSequence := write.lastSequence } := by
    rw [hlast, hentries, Engine.step, Outcome.guarded, if_pos (hlast ▸ hmax)]
  have hreads := h.reads.write hstep
  have hnew : (numbered write.sequence write.group).flatMap NumberedBatch.entries = write.entries :=
    numbered_entries _ _
  refine ⟨_, _, hreads, ?_, ?_, ?_, ?_, ?_, ?_, h.imm_lt⟩
  · have hold := h.engine
    rw [Engine.State.mk.injEq, hinserted] at hold
    rw [Engine.State.mk.injEq]
    obtain ⟨hmem, himm, hcurrent, htables, hseeks, hpointer, hnext, -, hrest⟩ := hold
    exact ⟨hmem, himm, hcurrent, htables, hseeks, hpointer, hnext, rfl, hrest⟩
  · change history.writes ++ batchEntries (history.lastSequence + 1) write.group.flatten =
      writes ++ (state.written ++ numbered write.sequence write.group).flatMap NumberedBatch.entries
    rw [flatMap_append, hnew, h.reads.last_eq, ← hentries, h.history_eq, append_assoc]
  · intro batch hbatch e he
    have hmem := h.mem_memtable (e := e)
    rw [h.mem_eq, hinserted] at hmem
    rcases mem_append.mp hbatch with hbatch | hbatch
    · rcases h.stored batch hbatch e he with he | he
      · exact .inl (hmem.mpr (.inl he))
      · exact .inr he
    · exact .inl (hmem.mpr (.inr (hnew ▸ mem_flatMap.mpr ⟨batch, hbatch, he⟩)))
  · intro batch hbatch
    change batch.sequence + batch.ops.length ≤ write.lastSequence + 1
    rcases mem_append.mp hbatch with hbatch | hbatch
    · have hended := h.ended batch hbatch
      rw [h.lastSequence_eq] at hended
      omega
    · have hended := (mem_numbered hbatch).2
      omega
  · intro s hs batch hbatch
    rcases mem_append.mp hbatch with hbatch | hbatch
    · exact h.whole s hs batch hbatch
    · exact .inr ((h.snapshot_lt hwriting hs).trans_le (mem_numbered hbatch).1)
  · intro _ hnone
    cases hnone

/-- A failed write publishes its sequence numbers and no batch. -/
theorem Describes.failed (scoring : Scoring K) (h : Describes writes state history db)
    {write : Write K V} (hwriting : state.writing = some write) (hphase : write.phase = .failed) :
    ∃ history' db', Describes writes (state.publish write []) history' db' := by
  obtain ⟨-, hlast, hmax⟩ := h.write write hwriting
  have hle : state.lastSequence ≤ write.lastSequence := hlast ▸ Nat.le_add_right _ _
  rw [h.lastSequence_eq] at hlast
  have hstep : Engine.step scoring db (.failedWrite write.group.flatten.length) =
      .next { db with lastSequence := write.lastSequence } := by
    rw [hlast, Engine.step, Outcome.guarded, if_pos (hlast ▸ hmax)]
  have hreads := h.reads.failedWrite hstep
  have hinserted : state.inserted = [] := by simp [State.inserted, hwriting, hphase]
  have hwritten : state.written ++ [] = state.written := append_nil _
  refine ⟨_, _, hreads, ?_, ?_, ?_, ?_, ?_, ?_, h.imm_lt⟩
  · have hold := h.engine
    rw [Engine.State.mk.injEq, hinserted] at hold
    rw [Engine.State.mk.injEq]
    obtain ⟨hmem, himm, hcurrent, htables, hseeks, hpointer, hnext, -, hrest⟩ := hold
    exact ⟨hmem, himm, hcurrent, htables, hseeks, hpointer, hnext, rfl, hrest⟩
  · change history.writes = writes ++ (state.written ++ []).flatMap NumberedBatch.entries
    rw [hwritten]
    exact h.history_eq
  · intro batch hbatch
    exact h.stored batch (hwritten ▸ hbatch)
  · intro batch hbatch
    exact (h.ended batch (hwritten ▸ hbatch)).trans (Nat.succ_le_succ hle)
  · intro s hs batch hbatch
    exact h.whole s hs batch (hwritten ▸ hbatch)
  · intro _ hnone
    cases hnone

omit [Inhabited V] in
/-- `SetLastSequence` makes no view see more. -/
theorem Grows.publish {write : Write K V} (hlast : state.lastSequence ≤ write.lastSequence)
    {batches : List (NumberedBatch K V)} (hbatches : ∀ batch ∈ batches, state.lastSequence < batch.sequence) :
    Grows state (state.publish write batches) where
  memtables _ _ := rfl
  mem_table := .inl rfl
  mem_le := le_rfl
  tables _ _ := rfl
  next_le := le_rfl
  last_le := hlast
  written := ⟨batches, rfl, hbatches⟩

/-- Without a write in progress the state is the database itself. -/
theorem Describes.toEngine_eq (h : Describes writes state history db) (hidle : state.writing = none) :
    state.toEngine = db := by
  have hinserted : state.inserted = [] := by simp [State.inserted, hidle]
  rw [h.engine, hinserted]
  rfl

theorem Describes.switchMemTable (scoring : Scoring K) (h : Describes writes state history db)
    (hidle : state.writing = none)
    (hguard : state.imm.isNone ∧ (state.current.files 0).length < kL0StopWritesTrigger)
    (hnext : state' = { state with
      memtables := update state.memtables (state.mem + 1) []
      mem := state.mem + 1
      imm := some state.mem
      nextFileNumber := state.nextFileNumber + 1 }) :
    Describes writes state' history state'.toEngine ∧ Grows state state' := by
  obtain rfl := h.toEngine_eq hidle
  have himm := Option.isNone_iff_eq_none.mp hguard.1
  have hold : update state.memtables (state.mem + 1) [] state.mem = state.memtables state.mem :=
    update_of_ne (Nat.lt_succ_self _).ne _ _
  have hengine : state'.toEngine = { state.toEngine with
      imm := some (state.memtables state.mem)
      mem := []
      nextFileNumber := state.nextFileNumber + 1 } := by
    rw [hnext]
    simp only [State.toEngine, Option.map_some, hold, update_self]
  have hstep : Engine.step scoring state.toEngine .switchMemTable = .next state'.toEngine := by
    have hguard' : state.toEngine.imm.isNone ∧
        (state.toEngine.current.files 0).length < kL0StopWritesTrigger := by
      simp [State.toEngine, himm, hguard.2]
    rw [hengine, Engine.step, Outcome.guarded, if_pos hguard']
    rfl
  have hentries : state'.toEngine.allEntries = state.toEngine.allEntries := by
    rw [hengine]
    ext e
    simp [Engine.State.allEntries, Engine.State.immEntries, State.toEngine, himm]
  constructor
  · refine ⟨h.reads.switchMemTable hstep, ?_, ?_, ?_, ?_, ?_, ?_, ?_⟩
    · have hinserted : state'.inserted = [] := by simp [State.inserted, hnext, hidle]
      rw [hinserted]
      rfl
    · rw [hnext]
      exact h.history_eq
    · rw [hentries, hnext]
      exact h.stored
    · rw [hnext]
      exact h.ended
    · rw [hnext]
      exact h.whole
    · rw [hnext]
      exact h.write
    · rw [hnext]
      rintro _ ⟨⟩
      exact Nat.lt_succ_self _
  · rw [hnext]
    exact {
      memtables := fun number hnumber ↦ update_of_ne (by omega) _ _
      mem_table := .inl hold
      mem_le := Nat.le_succ _
      tables := fun _ _ ↦ rfl
      next_le := Nat.le_succ _
      last_le := le_rfl
      written := ⟨[], by simp, by simp⟩ }

/-- Which steps need a write in progress, and which need that there is none. -/
theorem writing_of_step {action : Action K V} (hstep : step scoring state action = .next state') :
    match action with
    | .log _ | .insert | .publish => ∃ write, state.writing = some write
    | .beginWrite _ | .switchMemTable => state.writing = none
    | _ => True := by
  cases action <;> cases hwriting : state.writing <;> simp [ConcurrentReads.step, hwriting] at hstep ⊢

section

variable (h : Describes writes state history db)

include h

theorem Describes.compactMemTable {fileSize : ℕ}
    (hstep : state.compactMemTable scoring fileSize = .next state') :
    ∃ db', Describes writes state' history db' ∧ Grows state state' := by
  have hsound := h.reads.sound
  unfold State.compactMemTable at hstep
  rw [h.engine] at hstep
  cases himm : db.imm with
  | none => simp [Engine.State.compactMemTable, himm] at hstep
  | some imm =>
    have hflush : ({ db with mem := state.inserted.foldl memTableAdd db.mem } :
        Engine.State K V).compactMemTable scoring fileSize =
        .next { db.flushed scoring imm fileSize with
          mem := state.inserted.foldl memTableAdd db.mem } := by
      unfold Engine.State.compactMemTable
      dsimp only
      rw [himm]
      exact congrArg Outcome.ofOption (logAndApply_eq scoring _ (hsound.flushed_stored himm fileSize))
    rw [hflush] at hstep
    obtain rfl := Outcome.next.inj hstep
    have hold := h.engine
    rw [Engine.State.mk.injEq] at hold
    obtain ⟨hmem, -, -, htables, -, -, hnext, hrest⟩ := hold
    refine ⟨db.flushed scoring imm fileSize, ⟨h.reads.flushed scoring himm fileSize, ?_, h.history_eq, ?_,
      h.ended, h.whole, h.write, by simp⟩, ?_⟩
    · rw [Engine.State.mk.injEq]
      exact ⟨hmem, rfl, rfl, rfl, rfl, rfl, rfl, hrest⟩
    · rw [hsound.allEntries_flushed scoring himm fileSize]
      exact h.stored
    · have hnumber : state.nextFileNumber = db.nextFileNumber := hnext
      exact {
        memtables := fun _ _ ↦ rfl
        mem_table := .inl rfl
        mem_le := le_rfl
        tables := fun number hlt ↦ (update_of_ne (hnumber ▸ hlt.ne) _ _).trans
          (congrFun htables number).symm
        next_le := hnumber.le.trans (Nat.le_succ _)
        last_le := le_rfl
        written := ⟨[], by simp, by simp⟩ }

theorem Describes.getSnapshot :
    Describes writes { state with snapshots := state.snapshots ++ [state.lastSequence] } history
      { db with snapshots := db.snapshots ++ [db.lastSequence] } := by
  have hold := h.engine
  rw [Engine.State.mk.injEq] at hold
  refine ⟨h.reads.getSnapshot, ?_, h.history_eq, h.stored, h.ended, ?_, h.write, h.imm_lt⟩
  · rw [Engine.State.mk.injEq]
    obtain ⟨hmem, himm, hcurrent, htables, hseeks, hpointer, hnext, hlast, hsnapshots, hrunning⟩ := hold
    refine ⟨hmem, himm, hcurrent, htables, hseeks, hpointer, hnext, hlast, ?_, hrunning⟩
    change state.snapshots ++ [state.lastSequence] = db.snapshots ++ [db.lastSequence]
    rw [← hlast, ← hsnapshots]
    rfl
  · intro s hs batch hbatch
    rcases mem_append.mp hs with hs | hs
    · exact h.whole s hs batch hbatch
    · rw [mem_singleton.mp hs]
      exact .inl (h.ended batch hbatch)

theorem Describes.releaseSnapshot (index : ℕ) :
    Describes writes { state with snapshots := state.snapshots.eraseIdx index } history
      { db with snapshots := db.snapshots.eraseIdx index } := by
  have hold := h.engine
  rw [Engine.State.mk.injEq] at hold
  refine ⟨h.reads.releaseSnapshot index, ?_, h.history_eq, h.stored, h.ended, ?_, h.write, h.imm_lt⟩
  · rw [Engine.State.mk.injEq]
    obtain ⟨hmem, himm, hcurrent, htables, hseeks, hpointer, hnext, hlast, hsnapshots, hrunning⟩ := hold
    exact ⟨hmem, himm, hcurrent, htables, hseeks, hpointer, hnext, hlast,
      congrArg (List.eraseIdx · index) hsnapshots, hrunning⟩
  · intro s hs batch hbatch
    exact h.whole s (mem_of_mem_eraseIdx hs) batch hbatch

/-- Every step keeps the description, and only adds to the data that views refer to. -/
theorem Describes.step {action : Action K V} (hstep : step scoring state action = .next state') :
    (∃ history' db', Describes writes state' history' db') ∧ Grows state state' := by
  have hsame : ∀ state'' : State K V, Describes writes state'' history db → Grows state state'' →
      (∃ history' db', Describes writes state'' history' db') ∧ Grows state state'' :=
    fun _ hdescribes hgrows ↦ ⟨⟨_, _, hdescribes⟩, hgrows⟩
  have hunchanged : ∀ (iterators : List (View K)) (gets : List (GetCall K V)),
      Describes writes { state with iterators := iterators, gets := gets } history db :=
    fun _ _ ↦ h.of_same rfl rfl rfl rfl rfl h.write
  cases action with
  | beginWrite group =>
    have hwriting : state.writing = none := writing_of_step hstep
    simp only [ConcurrentReads.step, hwriting, Outcome.guarded_eq_next, Outcome.next.injEq] at hstep
    obtain ⟨hmax, rfl⟩ := hstep
    exact hsame _ (h.beginWrite hwriting hmax) (Grows.of_same rfl rfl rfl rfl rfl rfl)
  | log ok =>
    obtain ⟨write, hwriting⟩ := writing_of_step hstep
    simp only [ConcurrentReads.step, hwriting, Outcome.guarded_eq_next, Outcome.next.injEq] at hstep
    obtain ⟨hphase, rfl⟩ := hstep
    exact hsame _ (h.log hwriting hphase ok) (Grows.of_same rfl rfl rfl rfl rfl rfl)
  | insert =>
    obtain ⟨write, hwriting⟩ := writing_of_step hstep
    simp only [ConcurrentReads.step, hwriting] at hstep
    cases hphase : write.phase with
    | insert found =>
      rw [hphase] at hstep
      obtain ⟨hdescribes, hgrows⟩ := h.insert hwriting hphase hstep
      exact hsame _ hdescribes hgrows
    | log => simp [hphase] at hstep
    | failed => simp [hphase] at hstep
  | publish =>
    obtain ⟨write, hwriting⟩ := writing_of_step hstep
    simp only [ConcurrentReads.step, hwriting] at hstep
    obtain ⟨hsequence, hlast, -⟩ := h.write write hwriting
    have hle : state.lastSequence ≤ write.lastSequence := hlast ▸ Nat.le_add_right _ _
    cases hphase : write.phase with
    | insert found =>
      simp only [hphase, Outcome.guarded_eq_next, Outcome.next.injEq] at hstep
      obtain ⟨hfound, rfl⟩ := hstep
      have hinserted : state.inserted = write.entries := by
        simp [State.inserted, hwriting, hphase, hfound]
      refine ⟨h.published scoring hwriting hinserted, Grows.publish hle fun batch hbatch ↦ ?_⟩
      have hbegin := (mem_numbered hbatch).1
      omega
    | failed =>
      rw [hphase] at hstep
      obtain rfl := Outcome.next.inj hstep
      exact ⟨h.failed scoring hwriting hphase, Grows.publish hle (by simp)⟩
    | log => simp [hphase] at hstep
  | switchMemTable =>
    have hwriting : state.writing = none := writing_of_step hstep
    simp only [ConcurrentReads.step, hwriting, Outcome.guarded_eq_next, Outcome.next.injEq] at hstep
    obtain ⟨hguard, hnext⟩ := hstep
    rw [← hwriting] at hnext
    obtain ⟨hdescribes, hgrows⟩ := h.switchMemTable scoring hwriting hguard hnext.symm
    exact ⟨⟨_, _, hdescribes⟩, hgrows⟩
  | compactMemTable fileSize =>
    obtain ⟨db', hdescribes, hgrows⟩ := h.compactMemTable hstep
    exact ⟨⟨_, _, hdescribes⟩, hgrows⟩
  | getSnapshot =>
    obtain rfl := Outcome.next.inj hstep
    exact ⟨⟨_, _, h.getSnapshot⟩, Grows.of_same rfl rfl rfl rfl rfl rfl⟩
  | releaseSnapshot index =>
    obtain rfl := Outcome.next.inj hstep
    exact ⟨⟨_, _, h.releaseSnapshot index⟩, Grows.of_same rfl rfl rfl rfl rfl rfl⟩
  | get userKey snapshot =>
    obtain ⟨-, hnext⟩ := Outcome.guarded_eq_next.mp hstep
    obtain rfl := Outcome.next.inj hnext
    exact hsame _ (hunchanged _ _) (Grows.of_same rfl rfl rfl rfl rfl rfl)
  | look index =>
    simp only [ConcurrentReads.step] at hstep
    split at hstep
    · obtain rfl := Outcome.next.inj hstep
      exact hsame _ (hunchanged _ _) (Grows.of_same rfl rfl rfl rfl rfl rfl)
    · cases hstep
  | newIterator snapshot =>
    obtain ⟨-, hnext⟩ := Outcome.guarded_eq_next.mp hstep
    obtain rfl := Outcome.next.inj hnext
    exact hsame _ (hunchanged _ _) (Grows.of_same rfl rfl rfl rfl rfl rfl)

end

/-- A step of a read, and not of a writer or of the background thread. -/
def Action.isRead : Action K V → Bool
  | .get _ _ | .look _ | .newIterator _ => true
  | _ => false

theorem reads_kept {action : Action K V} (haction : action.isRead = false)
    (hstep : step scoring state action = .next state') :
    state'.iterators = state.iterators ∧ state'.gets = state.gets := by
  cases action with
  | get | look | newIterator => cases haction
  | getSnapshot | releaseSnapshot => exact Outcome.next.inj hstep ▸ ⟨rfl, rfl⟩
  | compactMemTable fileSize =>
    simp only [ConcurrentReads.step, State.compactMemTable] at hstep
    split at hstep
    · exact Outcome.next.inj hstep ▸ ⟨rfl, rfl⟩
    · cases hstep
    · cases hstep
  | beginWrite | log | switchMemTable =>
    cases hwriting : state.writing <;>
      simp only [ConcurrentReads.step, hwriting, Outcome.guarded_eq_next, reduceCtorEq,
        Outcome.next.injEq] at hstep
    exact hstep.2 ▸ ⟨rfl, rfl⟩
  | insert =>
    obtain ⟨write, hwriting⟩ := writing_of_step hstep
    simp only [ConcurrentReads.step, hwriting] at hstep
    split at hstep
    · unfold State.insert at hstep
      split at hstep
      · exact Outcome.next.inj hstep ▸ ⟨rfl, rfl⟩
      · cases hstep
    · cases hstep
  | publish =>
    obtain ⟨write, hwriting⟩ := writing_of_step hstep
    simp only [ConcurrentReads.step, hwriting] at hstep
    split at hstep
    · obtain ⟨-, hnext⟩ := Outcome.guarded_eq_next.mp hstep
      exact Outcome.next.inj hnext ▸ ⟨rfl, rfl⟩
    · exact Outcome.next.inj hstep ▸ ⟨rfl, rfl⟩
    · cases hstep

/-- Reads that are in progress keep what they have captured, and new ones capture the database of now. -/
theorem ViewsOk.step {action : Action K V} (h : ViewsOk writes state)
    (hdescribes : Describes writes state history db) (hstep : step scoring state action = .next state') :
    ViewsOk writes state' := by
  have hgrows := (hdescribes.step hstep).2
  have hiterators : ∀ view ∈ state.iterators, ∃ frozen, Froze writes state' view frozen := by
    intro view hview
    obtain ⟨frozen, hfroze⟩ := h.iterators view hview
    exact ⟨frozen, hfroze.grows hgrows⟩
  have hgets : ∀ call ∈ state.gets, ∃ frozen, Froze writes state' call.view frozen ∧ call.StageOk frozen := by
    intro call hcall
    obtain ⟨frozen, hfroze, hstage⟩ := h.gets call hcall
    exact ⟨frozen, hfroze.grows hgrows, hstage⟩
  have hnew : ∀ snapshot : Option ℕ, (∀ s ∈ snapshot, s ∈ state.snapshots) →
      Froze writes state' (state.view snapshot) db :=
    fun snapshot hsnapshot ↦ (hdescribes.view hsnapshot).grows hgrows
  cases action with
  | get userKey snapshot =>
    obtain ⟨hsnapshot, hnext⟩ := Outcome.guarded_eq_next.mp hstep
    obtain rfl := Outcome.next.inj hnext
    refine ⟨hiterators, fun call hcall ↦ ?_⟩
    rcases mem_append.mp hcall with hcall | hcall
    · exact hgets call hcall
    · rw [mem_singleton.mp hcall]
      exact ⟨db, hnew snapshot hsnapshot, trivial⟩
  | newIterator snapshot =>
    obtain ⟨hsnapshot, hnext⟩ := Outcome.guarded_eq_next.mp hstep
    obtain rfl := Outcome.next.inj hnext
    refine ⟨fun view hview ↦ ?_, hgets⟩
    rcases mem_append.mp hview with hview | hview
    · exact hiterators view hview
    · rw [mem_singleton.mp hview]
      exact ⟨db, hnew snapshot hsnapshot⟩
  | look index =>
    simp only [ConcurrentReads.step] at hstep
    split at hstep
    · rename_i call' hlook
      obtain rfl := Outcome.next.inj hstep
      obtain ⟨call, hcall, hlook⟩ := Option.bind_eq_some_iff.mp hlook
      refine ⟨hiterators, fun other hother ↦ ?_⟩
      rcases mem_or_eq_of_mem_set hother with hother | rfl
      · exact hgets other hother
      · obtain ⟨frozen, hfroze, hstage⟩ := h.gets call (mem_of_getElem? hcall)
        obtain ⟨hview, hstage'⟩ := hfroze.look hstage hlook
        exact ⟨frozen, hview ▸ hfroze.grows hgrows, hstage'⟩
    · cases hstep
  | _ =>
    have hkept := reads_kept rfl hstep
    exact ⟨hkept.1 ▸ hiterators, hkept.2 ▸ hgets⟩

theorem describes_ofEngine {start : Engine.State K V} (hstart : ReadsHistory history start) :
    Describes history.writes (State.ofEngine start) history { start with running := none } := by
  have hreads : ReadsHistory history { start with running := none } :=
    { hstart with sound := { hstart.sound with running := by simp }, running := by simp }
  refine ⟨hreads, ?_, by simp [State.ofEngine], by simp [State.ofEngine], by simp [State.ofEngine],
    by simp [State.ofEngine], by simp [State.ofEngine], ?_⟩
  · rw [Engine.State.mk.injEq]
    refine ⟨rfl, ?_, rfl, rfl, rfl, rfl, rfl, rfl, rfl, rfl⟩
    change (start.imm.map fun _ ↦ 0).map (State.ofEngine start).memtables = start.imm
    cases himm : start.imm with
    | none => rfl
    | some imm => simp [State.ofEngine, himm]
  · intro number hnumber
    obtain ⟨imm, -, rfl⟩ := Option.mem_map.mp hnumber
    exact Nat.zero_lt_one

theorem invariant_of_reachable {start : Engine.State K V} (hstart : ReadsHistory history start)
    (hreach : (readers scoring start).Reachable state) :
    (∃ history' db, Describes history.writes state history' db) ∧ ViewsOk history.writes state := by
  refine hreach.invariant (P := fun state ↦
    (∃ history' db, Describes history.writes state history' db) ∧ ViewsOk history.writes state) ?_ ?_
  · rintro _ rfl
    exact ⟨⟨_, _, describes_ofEngine hstart⟩, by simp [State.ofEngine], by simp [State.ofEngine]⟩
  · rintro state action state' ⟨⟨history', db, hdescribes⟩, hviews⟩ - hstep
    exact ⟨(hdescribes.step hstep).1, hviews.step hdescribes hstep⟩

end Steps

/-! ## Reads see whole batches -/

def State.views (state : State K V) : List (View K) := state.iterators ++ state.gets.map GetCall.view

/-- The contents at a sequence number: those of the start, changed by all records of the batches up to the
number. -/
def State.contents (state : State K V) (writes : List (Entry K V)) (s : ℕ) : K → Option V :=
  replay (valueAt writes s) (observed state.written s)

theorem ViewsOk.views {writes : List (Entry K V)} {state : State K V} (h : ViewsOk writes state) :
    ∀ view ∈ state.views, ∃ frozen, Froze writes state view frozen := by
  intro view hview
  rcases mem_append.mp hview with hview | hview
  · exact h.iterators view hview
  · obtain ⟨call, hcall, rfl⟩ := mem_map.mp hview
    obtain ⟨frozen, hfroze, -⟩ := h.gets call hcall
    exact ⟨frozen, hfroze⟩

/-- In every interleaving, from any database that reads as a history: every read that has captured its
view has, at every later moment, all entries of a written batch within its reach or none.  A scan of the
iterators of the view sees the contents after the batches up to its sequence number, and so does every
`Get` that has ended, at whatever moments it looked into the memtables and the version. -/
theorem reads_observe_whole_batches (scoring : Scoring K) (start : Engine.State K V)
    (history : History K V) (hstart : ReadsHistory history start) (state : State K V)
    (hreach : (readers scoring start).Reachable state) :
    (∀ view ∈ state.views, (∀ batch ∈ state.written,
        (∀ e ∈ batch.entries, e.sequence ≤ view.sequence ∧ e ∈ (state.viewed view).allEntries) ∨
          ∀ e ∈ batch.entries, view.sequence < e.sequence) ∧
      ∃ bound pairs, scan (state.viewed view).newInternalIterator view.sequence bound none = some pairs ∧
        ∀ k v, (k, v) ∈ pairs ↔ state.contents history.writes view.sequence k = some v) ∧
    ∀ call ∈ state.gets, ∀ status, call.stage = .done status →
      status = GetStatus.ofResolved (state.contents history.writes call.view.sequence call.userKey) := by
  obtain ⟨-, hviews⟩ := invariant_of_reachable hstart hreach
  constructor
  · intro view hview
    obtain ⟨frozen, hfroze⟩ := hviews.views view hview
    constructor
    · intro batch hbatch
      refine (hfroze.whole batch hbatch).imp_left fun hall e he ↦ ?_
      exact ⟨(hall e he).1, hfroze.mem_allEntries.mpr (.inl (hall e he).2)⟩
    · obtain ⟨bound, pairs, hscan, -, hpairs⟩ := hfroze.readLayers.scan_returns view.sequence none
      refine ⟨bound, pairs, hscan, fun k v ↦ ?_⟩
      rw [hpairs, hfroze.resolves_viewed, eq_comm]
      simp [State.contents]
  · intro call hcall status hdone
    obtain ⟨frozen, hfroze, hstage⟩ := hviews.gets call hcall
    obtain ⟨result, hget, hresult⟩ :=
      hfroze.layers.resolves_get hfroze.largest call.userKey call.view.sequence
    simp only [GetCall.StageOk, hdone] at hstage
    rw [hstage, hget, (hfroze.resolves call.userKey result).mp hresult]
    rfl

/-- A read that begins and looks while the second of two batches is being inserted, with a flush between
its looks, sees the first batch as a whole and nothing of the second. -/
theorem reads_observe_whole_batches_during_write : ∃ state : State ℕ ℕ,
      (readers (exactScoring ℕ) (Engine.State.empty (exactScoring ℕ) 2)).Reachable state ∧
      state.written.map NumberedBatch.sequence = [1, 3, 4] ∧
      (∃ call ∈ state.gets, call.view.sequence = 2 ∧ call.userKey = 1 ∧ call.stage = .done (.ok 10)) ∧
      state.contents [] 2 1 = some 10 := by
  obtain ⟨state, hrun, hwritten, call, hcall, hsequence, huser, hdone⟩ := Machine.Run.of_exec
    (readers (exactScoring ℕ) (Engine.State.empty (exactScoring ℕ) 2)) (fun _ _ ↦ true)
    (State.ofEngine (Engine.State.empty (exactScoring ℕ) 2)) rfl
    [.beginWrite [[.put 1 10, .put 2 20]], .log true, .insert, .insert, .publish, .switchMemTable,
      .beginWrite [[.put 1 11], [.put 2 21]], .log true, .insert, .get 1 none, .look 0, .insert,
      .compactMemTable 100, .look 0, .publish]
    (fun state ↦ state.written.map NumberedBatch.sequence = [1, 3, 4] ∧
      ∃ call ∈ state.gets, call.view.sequence = 2 ∧ call.userKey = 1 ∧ call.stage = .done (.ok 10))
    (by decide +kernel)
  have hreach : (readers (exactScoring ℕ) (Engine.State.empty (exactScoring ℕ) 2)).Reachable state :=
    ⟨_, hrun.mono fun _ _ _ ↦ trivial⟩
  refine ⟨state, hreach, hwritten, ⟨call, hcall, hsequence, huser, hdone⟩, ?_⟩
  have hresult := (reads_observe_whole_batches (exactScoring ℕ) _ ⟨0, []⟩ (ReadsHistory.empty _ 2) state
    hreach).2 call hcall _ hdone
  rw [hsequence, huser, show GetStatus.ok 10 = GetStatus.ofResolved (some 10) from rfl] at hresult
  exact (GetStatus.ofResolved_injective hresult).symm

end LevelDB.Db.ConcurrentReads
