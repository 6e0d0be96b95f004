import LevelDB.Db.CompactionInputs
import LevelDB.Db.Manifest
import LevelDB.Library.RefCount

/-!
# References on versions across background compactions

`DBImpl::BackgroundCompaction` of `db/db_impl.cpp` with everything that takes or drops a reference on
a version: `PickCompaction` and `CompactRange` on their input version, `CompactMemTable` on its base,
`Get` and iterators on the version they read, and `AppendVersion`.  Calls are automatic or manual and
end with nothing to do, a trivial move, a success or a failure.

`ReleaseInputs` is called after `DoCompactionWork` only, and deleting a `Compaction` does not release
anything.  A trivial move therefore leaves the reference on its input version behind, for good.  The
machine records such references, which nobody holds any more, in `lost`.
-/

namespace LevelDB.Db.VersionRefs

open Format TableFiles VersionBuilder CompactionPick CompactionInputs Library RefCount List

variable {K : Type*}

abbrev LevelFiles (K : Type*) := ℕ → List (FileMetaData K)

structure ManualCompaction (K : Type*) where
  level : ℕ
  rangeBegin : WithBot K
  rangeEnd : WithTop K

/-- `CompactMemTable` at work: in `WriteLevel0Table`, with a reference on the base, or in
`LogAndApply`. -/
inductive FlushStage (K : Type*)
  | building (base : Handle (LevelFiles K))
  | logging

/-- A compaction at work, with the reference on its input version. -/
structure Running (K : Type*) where
  compaction : Compaction K
  inputVersion : Handle (LevelFiles K)
  /-- The compaction is done as a trivial move. -/
  move : Bool

structure State (K : Type*) where
  /-- The linked list of versions. -/
  versions : List (Counted (LevelFiles K))
  current : Handle (LevelFiles K)
  nextId : ℕ
  /-- The file that `UpdateStats` has marked in the current version. -/
  fileToCompact : Option (FileMetaData K × ℕ) := none
  compactPointer : ℕ → Option (InternalKey K) := fun _ ↦ none
  /-- The versions that iterators and calls of `Get` hold. -/
  readers : List (Handle (LevelFiles K)) := []
  /-- `imm_ != NULL` -/
  imm : Bool := false
  manualCompaction : Option (ManualCompaction K) := none
  flush : Option (FlushStage K) := none
  running : Option (Running K) := none
  /-- References that were taken and that nobody can release any more. -/
  lost : List (Handle (LevelFiles K)) := []

inductive Action (K : Type*)
  /-- A call of `Get` or a new iterator takes a reference on the current version. -/
  | pin
  | unpin (index : ℕ)
  | updateStats (f : FileMetaData K) (level : ℕ)
  | switchMemTable
  | requestManual (manual : ManualCompaction K)
  | beginCompactMemTable
  /-- `WriteLevel0Table` returns, with any status, and the base is released. -/
  | releaseBase
  /-- `CompactMemTable` returns; the edit of a flush that succeeds. -/
  | endCompactMemTable (edit : Option (VersionEdit K))
  /-- `BackgroundCompaction` without a memtable to flush, up to the work of its compaction. -/
  | beginCompaction
  /-- The work ends; the outputs of a compaction that succeeds. -/
  | endCompaction (outputs : Option (List (FileMetaData K)))

def isTrivialMove (c : Compaction K) : Bool :=
  decide (c.inputs0.length = 1 ∧ c.inputs1.length = 0 ∧
    totalFileSize c.grandparents ≤ kMaxGrandParentOverlapBytes)

/-- The edit of a compaction.  A trivial move adds its input to the next level. -/
def compactionEdit (c : Compaction K) (move : Bool) (outputs : List (FileMetaData K)) : VersionEdit K :=
  .ofCompaction c.level c.largest c.inputs0 c.inputs1 (if move then c.inputs0 else outputs)

namespace State

def holders (state : State K) : List (Handle (LevelFiles K)) :=
  state.current :: (state.readers ++ (state.flush.elim [] fun
      | .building base => [base]
      | .logging => []) ++
    state.running.elim [] fun running ↦ [running.inputVersion])

/-- No `Get`, iterator, flush or compaction is in progress. -/
def idle (state : State K) : Bool := state.readers.isEmpty && state.flush.isNone && state.running.isNone

def liveFiles (state : State K) : List ℕ :=
  state.versions.flatMap fun v ↦
    (List.range kNumLevels).flatMap fun level ↦ (v.value level).map FileMetaData.number

variable [LinearOrder K]

/-- `Builder` and `AppendVersion` for an edit whose record was written; `none` is a failed assertion. -/
def logAndApply (state : State K) (edit : VersionEdit K) : Option (State K) :=
  ((Builder.empty.apply edit).saveTo state.current.value).map fun files ↦ { state with
    versions := unref state.current.id state.versions ++ [{ id := state.nextId, value := files, refs := 1 }]
    current := ⟨state.nextId, files⟩
    nextId := state.nextId + 1
    fileToCompact := none
    compactPointer := Manifest.applyCompactPointers edit state.compactPointer }

def findCompaction (scoring : Scoring K) (state : State K) : Option (Compaction K) :=
  let v := { finalize scoring state.current.value with fileToCompact := state.fileToCompact }
  match state.manualCompaction with
  | some manual => compactRange v manual.level manual.rangeBegin manual.rangeEnd
  | none => v.pickCompaction state.compactPointer

/-- The state once the work is over: a trivial move deletes its compaction as it is, other
compactions release their inputs first. -/
def finish (state : State K) (running : Running K) : State K :=
  if running.move then
    { state with running := none, manualCompaction := none, lost := running.inputVersion :: state.lost }
  else
    { state with
      running := none
      manualCompaction := none
      versions := unref running.inputVersion.id state.versions }

def step (scoring : Scoring K) (state : State K) : Action K → Outcome (State K)
  | .pin => .next { state with
      readers := state.current :: state.readers
      versions := ref state.current.id state.versions }
  | .unpin index =>
    match state.readers[index]? with
    | none => .blocked
    | some reader => .next { state with
        readers := state.readers.eraseIdx index
        versions := unref reader.id state.versions }
  | .updateStats f level => .next { state with fileToCompact := state.fileToCompact.or (some (f, level)) }
  | .switchMemTable => .guarded (state.imm = false) (.next { state with imm := true })
  | .requestManual manual =>
    .guarded (state.manualCompaction.isNone) (.next { state with manualCompaction := some manual })
  | .beginCompactMemTable =>
    -- a compaction at work flushes the memtable in between, a trivial move does not
    .guarded (state.imm = true ∧ state.flush.isNone ∧ state.running.all fun running ↦ !running.move)
      (.next { state with
        flush := some (.building state.current)
        versions := ref state.current.id state.versions })
  | .releaseBase =>
    match state.flush with
    | some (.building base) => .next { state with
        flush := some .logging
        versions := unref base.id state.versions }
    | _ => .blocked
  | .endCompactMemTable edit =>
    match state.flush with
    | some .logging =>
      match edit with
      | none => .next { state with flush := none }
      | some edit =>
        Outcome.ofOption (({ state with flush := none, imm := false } : State K).logAndApply edit)
    | _ => .blocked
  | .beginCompaction =>
    .guarded (state.imm = false ∧ state.flush.isNone ∧ state.running.isNone) <|
      match state.findCompaction scoring with
      | none => .next { state with manualCompaction := none }
      | some c => .next { state with
          running := some ⟨c, state.current, state.manualCompaction.isSome && isTrivialMove c⟩
          versions := ref state.current.id state.versions
          compactPointer := Function.update state.compactPointer c.level (some c.largest) }
  | .endCompaction outputs =>
    .guarded (state.flush.isNone) <|
      match state.running with
      | none => .blocked
      | some running =>
        match outputs with
        | none => .next (state.finish running)
        | some outputs =>
          Outcome.ofOption ((state.logAndApply
            (compactionEdit running.compaction running.move outputs)).map fun state ↦ state.finish running)

end State

def versionRefs [LinearOrder K] (scoring : Scoring K) : Machine (State K) (Action K) where
  init state := state =
    { versions := [{ id := 0, value := fun _ ↦ [], refs := 1 }], current := ⟨0, fun _ ↦ []⟩, nextId := 1 }
  step state action := state.step scoring action

/-- The counts are those of the references that somebody holds and of the lost ones. -/
structure Balanced (state : State K) : Prop where
  tracks : Tracks state.versions (state.holders ++ state.lost)
  id_lt : ∀ v ∈ state.versions, v.id < state.nextId

section Steps

variable {state state' : State K}

/-- The references pass from one owner to another. -/
theorem Balanced.of_perm (h : Balanced state)
    (hperm : (state.holders ++ state.lost).Perm (state'.holders ++ state'.lost))
    (hversions : state'.versions = state.versions) (hnextId : state'.nextId = state.nextId) :
    Balanced state' := by
  refine ⟨?_, ?_⟩
  · rw [hversions]
    exact h.tracks.perm hperm
  · rw [hversions, hnextId]
    exact h.id_lt

theorem Balanced.of_ref (h : Balanced state)
    (hperm : (state.current :: (state.holders ++ state.lost)).Perm (state'.holders ++ state'.lost))
    (hversions : state'.versions = ref state.current.id state.versions)
    (hnextId : state'.nextId = state.nextId) : Balanced state' := by
  refine ⟨?_, ?_⟩
  · rw [hversions]
    exact (h.tracks.ref mem_cons_self).perm hperm
  · intro v hv
    rw [hversions] at hv
    obtain ⟨w, hw, heq⟩ := exists_of_mem_ref v hv
    rw [hnextId, ← congrArg Handle.id heq]
    exact h.id_lt w hw

/-- Somebody releases a reference. -/
theorem Balanced.of_unref (h : Balanced state) (handle : Handle (LevelFiles K))
    (hperm : (state.holders ++ state.lost).Perm (handle :: (state'.holders ++ state'.lost)))
    (hversions : state'.versions = unref handle.id state.versions)
    (hnextId : state'.nextId = state.nextId) : Balanced state' := by
  refine ⟨?_, ?_⟩
  · rw [hversions]
    exact (h.tracks.perm hperm).unref
  · intro v hv
    rw [hversions] at hv
    obtain ⟨w, hw, heq⟩ := exists_of_mem_unref v hv
    rw [hnextId, ← congrArg Handle.id heq]
    exact h.id_lt w hw

/-- The end of the work passes the reference of a trivial move to nobody and releases that of any
other compaction. -/
theorem Balanced.finish (h : Balanced state) {running : Running K} (hrunning : state.running = some running) :
    Balanced (state.finish running) := by
  unfold State.finish
  have hperm : (state.holders ++ state.lost).Perm (running.inputVersion ::
      (({ state with running := none } : State K).holders ++ state.lost)) := by
    simp only [State.holders, hrunning, Option.elim_some, Option.elim_none, append_nil]
    rw [← cons_append, append_assoc, singleton_append]
    exact perm_middle
  split
  · exact h.of_perm (hperm.trans perm_middle.symm) rfl rfl
  · exact h.of_unref _ hperm rfl rfl

variable [LinearOrder K]

/-- `AppendVersion` moves the reference of the version set. -/
theorem Balanced.logAndApply (h : Balanced state) {edit : VersionEdit K}
    (happly : state.logAndApply edit = some state') : Balanced state' := by
  obtain ⟨files, -, rfl⟩ := Option.map_eq_some_iff.mp happly
  have hid : ∀ v ∈ unref state.current.id state.versions, v.id < state.nextId := by
    intro v hv
    obtain ⟨w, hw, heq⟩ := exists_of_mem_unref v hv
    rw [← congrArg Handle.id heq]
    exact h.id_lt w hw
  have hrest : Tracks (unref state.current.id state.versions)
      (state.holders.tail ++ state.lost) := Tracks.unref h.tracks
  refine ⟨hrest.append ⟨state.nextId, files⟩ fun v hv ↦ (hid v hv).ne, fun v hv ↦ ?_⟩
  rcases mem_append.mp hv with hv | hv
  · exact Nat.lt_succ_of_lt (hid v hv)
  · rw [mem_singleton.mp hv]
    exact Nat.lt_succ_self _

theorem logAndApply_fields {edit : VersionEdit K} (happly : state.logAndApply edit = some state') :
    state'.readers = state.readers ∧ state'.flush = state.flush ∧ state'.running = state.running ∧
      state'.lost = state.lost := by
  obtain ⟨files, -, rfl⟩ := Option.map_eq_some_iff.mp happly
  exact ⟨rfl, rfl, rfl, rfl⟩

theorem Balanced.unpin (h : Balanced state) {scoring : Scoring K} {index : ℕ}
    (hstep : state.step scoring (.unpin index) = .next state') : Balanced state' := by
  simp only [State.step] at hstep
  split at hstep
  · cases hstep
  · rename_i reader hreader
    cases hstep
    have hperm : state.readers.Perm (reader :: state.readers.eraseIdx index) := by
      obtain ⟨hlt, rfl⟩ := List.getElem?_eq_some_iff.mp hreader
      exact (getElem_cons_eraseIdx_perm hlt).symm
    refine h.of_unref reader ?_ rfl rfl
    simp only [State.holders]
    refine (((hperm.append_right _).append_right _).cons _).append_right _ |>.trans ?_
    exact .swap _ _ _

theorem Balanced.releaseBase (h : Balanced state) {scoring : Scoring K}
    (hstep : state.step scoring .releaseBase = .next state') : Balanced state' := by
  simp only [State.step] at hstep
  split at hstep
  · rename_i base hflush
    cases hstep
    refine h.of_unref base ?_ rfl rfl
    simp only [State.holders, hflush, Option.elim_some, append_nil, cons_append, append_assoc, nil_append]
    exact (perm_middle.cons _).trans (.swap _ _ _)
  · cases hstep

theorem Balanced.endCompactMemTable (h : Balanced state) {scoring : Scoring K}
    {edit : Option (VersionEdit K)}
    (hstep : state.step scoring (.endCompactMemTable edit) = .next state') : Balanced state' := by
  simp only [State.step] at hstep
  split at hstep
  · rename_i hflush
    have hsame : (state.holders ++ state.lost).Perm
        (({ state with flush := none } : State K).holders ++ state.lost) := by
      simp only [State.holders, hflush, Option.elim_some, Option.elim_none]
      exact .refl _
    split at hstep
    · cases hstep
      exact h.of_perm hsame rfl rfl
    · rw [Outcome.ofOption_eq_next] at hstep
      have hbefore : Balanced ({ state with flush := none, imm := false } : State K) :=
        h.of_perm hsame rfl rfl
      exact hbefore.logAndApply hstep
  · cases hstep

theorem Balanced.beginCompaction (h : Balanced state) {scoring : Scoring K}
    (hstep : state.step scoring .beginCompaction = .next state') : Balanced state' := by
  simp only [State.step, Outcome.guarded_eq_next] at hstep
  obtain ⟨⟨-, -, hrunning⟩, hstep⟩ := hstep
  rw [Option.isNone_iff_eq_none] at hrunning
  split at hstep
  · cases hstep
    exact h.of_perm (.refl _) rfl rfl
  · cases hstep
    refine h.of_ref ?_ rfl rfl
    simp only [State.holders, hrunning, Option.elim_some, Option.elim_none, append_nil,
      cons_append, append_assoc, nil_append]
    rw [← append_assoc, ← append_assoc]
    exact perm_middle.symm.cons _

theorem Balanced.endCompaction (h : Balanced state) {scoring : Scoring K}
    {outputs : Option (List (FileMetaData K))}
    (hstep : state.step scoring (.endCompaction outputs) = .next state') : Balanced state' := by
  simp only [State.step, Outcome.guarded_eq_next] at hstep
  obtain ⟨-, hstep⟩ := hstep
  split at hstep
  · cases hstep
  · rename_i running hrunning
    split at hstep
    · cases hstep
      exact h.finish hrunning
    · rw [Outcome.ofOption_eq_next, Option.map_eq_some_iff] at hstep
      obtain ⟨applied, happly, rfl⟩ := hstep
      exact (h.logAndApply happly).finish ((logAndApply_fields happly).2.2.1.trans hrunning)

theorem Balanced.step (h : Balanced state) {scoring : Scoring K} {action : Action K}
    (hstep : state.step scoring action = .next state') : Balanced state' := by
  cases action with
  | pin =>
    cases hstep
    exact h.of_ref (.refl _) rfl rfl
  | unpin index => exact h.unpin hstep
  | updateStats f level =>
    cases hstep
    exact h.of_perm (.refl _) rfl rfl
  | switchMemTable =>
    simp only [State.step, Outcome.guarded_eq_next] at hstep
    cases hstep.2
    exact h.of_perm (.refl _) rfl rfl
  | requestManual manual =>
    simp only [State.step, Outcome.guarded_eq_next] at hstep
    cases hstep.2
    exact h.of_perm (.refl _) rfl rfl
  | beginCompactMemTable =>
    simp only [State.step, Outcome.guarded_eq_next] at hstep
    obtain ⟨⟨-, hflush, -⟩, hstep⟩ := hstep
    rw [Option.isNone_iff_eq_none] at hflush
    cases hstep
    refine h.of_ref ?_ rfl rfl
    simp only [State.holders, hflush, Option.elim_some, Option.elim_none, append_nil,
      cons_append, append_assoc, nil_append]
    exact perm_middle.symm.cons _
  | releaseBase => exact h.releaseBase hstep
  | endCompactMemTable edit => exact h.endCompactMemTable hstep
  | beginCompaction => exact h.beginCompaction hstep
  | endCompaction outputs => exact h.endCompaction hstep

end Steps

theorem balanced_of_reachable [LinearOrder K] {scoring : Scoring K} {ok : State K → Action K → Prop}
    {state : State K} (hreach : (versionRefs scoring).ReachableWhen ok state) : Balanced state := by
  refine Machine.ReachableWhen.invariant (fun state hinit ↦ ?_)
    (fun state action state' h _ hstep ↦ h.step hstep) hreach
  cases hinit
  refine ⟨⟨by simp, ?_, by simp, ?_⟩, by simp⟩
  · intro v hv
    rw [mem_singleton.mp hv]
    simp [State.holders]
  · intro handle hhandle
    simp only [State.holders, Option.elim_none, append_nil, mem_singleton] at hhandle
    exact ⟨_, mem_singleton_self _, hhandle.symm⟩

section NoMove

variable [LinearOrder K] {scoring : Scoring K}

/-- The call of `BackgroundCompaction` that begins, if one does, is not a trivial move. -/
def noTrivialMove (scoring : Scoring K) (state : State K) : Action K → Bool
  | .beginCompaction => (state.findCompaction scoring).all fun c ↦
      !(state.manualCompaction.isSome && isTrivialMove c)
  | _ => true

structure NothingLost (state : State K) : Prop where
  lost : state.lost = []
  move : ∀ running, state.running = some running → running.move = false

theorem NothingLost.logAndApply {state state' : State K} (h : NothingLost state) {edit : VersionEdit K}
    (happly : state.logAndApply edit = some state') : NothingLost state' := by
  obtain ⟨-, -, hrunning, hlost⟩ := logAndApply_fields happly
  exact ⟨hlost.trans h.lost, hrunning ▸ h.move⟩

omit [LinearOrder K] in
theorem NothingLost.finish {state : State K} (h : NothingLost state) {running : Running K}
    (hrunning : state.running = some running) : NothingLost (state.finish running) := by
  simp only [State.finish, h.move running hrunning, Bool.false_eq_true, if_false]
  exact ⟨h.lost, by simp⟩

theorem NothingLost.step {state state' : State K} (h : NothingLost state) {action : Action K}
    (hok : noTrivialMove scoring state action = true) (hstep : state.step scoring action = .next state') :
    NothingLost state' := by
  cases action with
  | pin => cases hstep; exact ⟨h.lost, h.move⟩
  | unpin index =>
    simp only [State.step] at hstep
    split at hstep
    · cases hstep
    · cases hstep
      exact ⟨h.lost, h.move⟩
  | updateStats f level => cases hstep; exact ⟨h.lost, h.move⟩
  | switchMemTable | requestManual manual | beginCompactMemTable =>
    simp only [State.step, Outcome.guarded_eq_next] at hstep
    cases hstep.2
    exact ⟨h.lost, h.move⟩
  | releaseBase =>
    simp only [State.step] at hstep
    split at hstep
    · cases hstep
      exact ⟨h.lost, h.move⟩
    · cases hstep
  | endCompactMemTable edit =>
    simp only [State.step] at hstep
    split at hstep
    · split at hstep
      · cases hstep
        exact ⟨h.lost, h.move⟩
      · have hbefore : NothingLost ({ state with flush := none, imm := false } : State K) :=
          ⟨h.lost, h.move⟩
        exact hbefore.logAndApply (Outcome.ofOption_eq_next.mp hstep)
    · cases hstep
  | beginCompaction =>
    simp only [State.step, Outcome.guarded_eq_next] at hstep
    obtain ⟨-, hstep⟩ := hstep
    split at hstep
    · cases hstep
      exact ⟨h.lost, h.move⟩
    · rename_i c hc
      cases hstep
      refine ⟨h.lost, fun running hrunning ↦ ?_⟩
      cases hrunning
      simpa only [noTrivialMove, hc, Option.all_some, Bool.not_eq_true'] using hok
  | endCompaction outputs =>
    simp only [State.step, Outcome.guarded_eq_next] at hstep
    obtain ⟨-, hstep⟩ := hstep
    split at hstep
    · cases hstep
    · rename_i running hrunning
      split at hstep
      · cases hstep
        exact h.finish hrunning
      · rw [Outcome.ofOption_eq_next, Option.map_eq_some_iff] at hstep
        obtain ⟨applied, happly, rfl⟩ := hstep
        exact (h.logAndApply happly).finish ((logAndApply_fields happly).2.2.1.trans hrunning)

theorem nothingLost_of_reachable {state : State K} (hreach : (versionRefs scoring).ReachableWhen
      (fun state action ↦ noTrivialMove scoring state action = true) state) : NothingLost state := by
  refine Machine.ReachableWhen.invariant (fun state hinit ↦ ?_)
    (fun state action state' h hok hstep ↦ h.step hok hstep) hreach
  cases hinit
  exact ⟨rfl, by simp⟩

/-- Without trivial moves the counts are those of the references that somebody holds, so the
reference of a compaction is released when its call returns.  When nothing is in progress the current
version is alone on the list and only its files are live. -/
theorem references_balance {state : State K} (hreach : (versionRefs scoring).ReachableWhen
      (fun state action ↦ noTrivialMove scoring state action = true) state) :
    (∀ v ∈ state.versions, v.refs = state.holders.countP fun holder ↦ holder.id = v.id) ∧
      (state.idle = true → state.versions = [{ state.current with refs := 1 }] ∧
        ∀ number ∈ state.liveFiles, ∃ level < kNumLevels, ∃ f ∈ state.current.value level,
          f.number = number) := by
  have htracks : Tracks state.versions state.holders := by
    have htracks := (balanced_of_reachable hreach).tracks
    rwa [(nothingLost_of_reachable hreach).lost, append_nil] at htracks
  refine ⟨htracks.count, fun hidle ↦ ?_⟩
  have hholders : state.holders = [state.current] := by
    simp only [State.idle, Bool.and_eq_true, List.isEmpty_iff, Option.isNone_iff_eq_none] at hidle
    obtain ⟨⟨hreaders, hflush⟩, hrunning⟩ := hidle
    simp only [State.holders, hreaders, hflush, hrunning, Option.elim_none, append_nil]
  have hversions := (hholders ▸ htracks).eq_singleton
  refine ⟨hversions, fun number hnumber ↦ ?_⟩
  rw [State.liveFiles, hversions] at hnumber
  simp only [flatMap_cons, flatMap_nil, append_nil, mem_flatMap, mem_range, mem_map] at hnumber
  exact hnumber

end NoMove

def flushTo (number : ℕ) : List (Action ℕ) :=
  [.switchMemTable, .beginCompactMemTable, .releaseBase, .endCompactMemTable (some
    (({} : VersionEdit ℕ).addFile 0
      ⟨number, 4096, .mk' 1 (2 * number) .kTypeValue, .mk' 5 (2 * number + 1) .kTypeValue⟩))]

/-- A manual compaction of two tables, read across by an iterator. -/
theorem references_balance_two_tables : ∃ state, (versionRefs (exactScoring ℕ)).ReachableWhen
        (fun state action ↦ noTrivialMove (exactScoring ℕ) state action = true) state ∧
      state.idle = true ∧ state.liveFiles = [7] ∧
      ((∀ v ∈ state.versions, v.refs = state.holders.countP fun holder ↦ holder.id = v.id) ∧
        (state.idle = true → state.versions = [{ state.current with refs := 1 }] ∧
          ∀ number ∈ state.liveFiles, ∃ level < kNumLevels, ∃ f ∈ state.current.value level,
            f.number = number)) := by
  obtain ⟨state, hrun, hidle, hlive⟩ := Machine.Run.of_exec (versionRefs (exactScoring ℕ))
    (noTrivialMove (exactScoring ℕ)) _ rfl
    (flushTo 5 ++ flushTo 6 ++ [.requestManual ⟨0, ⊥, ⊤⟩, .pin, .beginCompaction, .endCompaction
      (some [⟨7, 4096, .mk' 1 13 .kTypeValue, .mk' 5 12 .kTypeValue⟩]), .unpin 0])
    (fun state ↦ state.idle = true ∧ state.liveFiles = [7]) (by decide +kernel)
  exact ⟨state, ⟨_, hrun⟩, hidle, hlive, references_balance ⟨_, hrun⟩⟩

/-- A trivial move of the only table leaves the version before it on the list. -/
theorem trivial_move_loses_reference :
    ∃ actions state, (versionRefs (exactScoring ℕ)).Run (fun _ _ ↦ True) actions state ∧
      state.idle = true ∧ state.versions.length = 2 := by
  obtain ⟨state, hrun, hstate⟩ := Machine.Run.of_exec (versionRefs (exactScoring ℕ))
    (fun _ _ ↦ true) _ rfl
    (flushTo 5 ++ [.requestManual ⟨0, ⊥, ⊤⟩, .beginCompaction, .endCompaction (some [])])
    (fun state ↦ state.idle = true ∧ state.versions.length = 2) (by decide +kernel)
  exact ⟨_, state, hrun.mono fun _ _ _ ↦ trivial, hstate⟩

end LevelDB.Db.VersionRefs
