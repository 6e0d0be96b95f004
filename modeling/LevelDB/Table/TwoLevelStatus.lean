import LevelDB.Table.Block
import LevelDB.Table.TwoLevelIterator

/-!
# The status of a two-level iterator

`TwoLevelIterator` of `table/two_level_iterator.cpp` once more, with the statuses of its iterators: the
index iterator and the data iterators can fail, and the block function may return something else each
time it is called.  `SetDataIterator` saves the error of the iterator that it replaces.  Without the
statuses the iterator is the one of the model without failures.

A state remembers whether any of the iterators has reported an error so far.  The last branch of
`status()` evaluates the saved status and does not return it: control reaches the end of the function
without a value, unless the index iterator or the current data iterator fails.
-/

namespace LevelDB.Table.TwoLevelStatus

open Library Block Iterator

variable {α τ : Type*} {H : Type}

structure StatusIterator (α τ : Type*) extends AnyIterator α τ where
  status : State → Status

/-- The members of `TwoLevelIterator`.  A data iterator is known by the number of the call of the block
function that made it and by its handle. -/
structure State (index : StatusIterator (τ × H) τ) (block : ℕ → H → StatusIterator α τ) where
  index : index.State
  data : Option (Σ made : ℕ × H, (block made.1 made.2).State)
  /-- `status_`. -/
  savedStatus : Status
  /-- How often the block function was called. -/
  blocksMade : ℕ
  /-- No loop has used up its rounds. -/
  returned : Bool
  /-- The index iterator or a data iterator has reported an error since the start. -/
  reported : Bool

section Operations

variable {index : StatusIterator (τ × H) τ} {block : ℕ → H → StatusIterator α τ}

namespace State

def get (state : State index block) : Option α :=
  state.data.bind fun data ↦ (block data.1.1 data.1.2).ops.get data.2

def indexStatus (state : State index block) : Status := index.status state.index

def dataStatus (state : State index block) : Option Status :=
  state.data.map fun data ↦ (block data.1.1 data.1.2).status data.2

/-- The index iterator or the current data iterator reports an error. -/
def failing (state : State index block) : Bool :=
  decide (state.indexStatus ≠ .ok) || state.dataStatus.any fun s ↦ decide (s ≠ .ok)

/-- `status()`, with no value where the source returns none. -/
def status (state : State index block) : Option Status :=
  if state.indexStatus ≠ .ok then some state.indexStatus
  else
    match state.dataStatus with
    | some s => if s ≠ .ok then some s else none
    | none => none

/-- Take note of what the iterators report now. -/
def observe (state : State index block) : State index block :=
  { state with reported := state.reported || state.failing }

def moveIndex (call : Call τ) (state : State index block) : State index block :=
  observe { state with index := index.ops.apply state.index call }

def moveData (call : Call τ) (state : State index block) : State index block :=
  observe { state with
    data := state.data.map fun data ↦ ⟨data.1, (block data.1.1 data.1.2).ops.apply data.2 call⟩ }

def saveError (s : Status) (state : State index block) : State index block :=
  if state.savedStatus = .ok ∧ s ≠ .ok then { state with savedStatus := s } else state

def saveDataError (state : State index block) : State index block :=
  state.dataStatus.elim state fun s ↦ state.saveError s

def setDataIterator (data : Option (Σ made : ℕ × H, (block made.1 made.2).State))
    (state : State index block) : State index block :=
  observe { state.saveDataError with data := data }

def makeBlock (handle : H) (state : State index block) : State index block :=
  setDataIterator (some ⟨(state.blocksMade, handle), (block state.blocksMade handle).start⟩)
    { state with blocksMade := state.blocksMade + 1 }

variable [DecidableEq H]

def initDataBlock (state : State index block) : State index block :=
  match index.ops.get state.index with
  | none => state.setDataIterator none
  | some (_, handle) =>
    -- a data iterator that is already made for this handle stays as it is
    if state.data.any fun data ↦ data.1.2 = handle then state else state.makeBlock handle

def openBlock (indexCall dataCall : Call τ) (state : State index block) : State index block :=
  ((state.moveIndex indexCall).initDataBlock).moveData dataCall

def skip (indexCall dataCall : Call τ) : ℕ → State index block → State index block
  | 0, state => { state with returned := false }
  | rounds + 1, state =>
    if state.get.isSome then state
    else if (index.ops.get state.index).isNone then state.setDataIterator none
    else skip indexCall dataCall rounds (state.openBlock indexCall dataCall)

def apply (rounds : ℕ) (state : State index block) : Call τ → State index block
  | .seek t => (state.openBlock (.seek t) (.seek t)).skip .next .seekToFirst rounds
  | .seekToFirst => (state.openBlock .seekToFirst .seekToFirst).skip .next .seekToFirst rounds
  | .seekToLast => (state.openBlock .seekToLast .seekToLast).skip .prev .seekToLast rounds
  | .next => (state.moveData .next).skip .next .seekToFirst rounds
  | .prev => (state.moveData .prev).skip .prev .seekToLast rounds

end State

@[simp]
theorem observe_failing (state : State index block) : state.observe.failing = state.failing := rfl

@[simp]
theorem observe_reported (state : State index block) :
    state.observe.reported = (state.reported || state.failing) := rfl

def start (index : StatusIterator (τ × H) τ) (block : ℕ → H → StatusIterator α τ) : State index block :=
  State.observe ⟨index.start, none, .ok, 0, true, false⟩

def run [DecidableEq H] (index : StatusIterator (τ × H) τ) (block : ℕ → H → StatusIterator α τ)
    (rounds : ℕ) (calls : List (Call τ)) : State index block :=
  calls.foldl (State.apply rounds) (start index block)

end Operations

section Runs

variable {index : StatusIterator (τ × H) τ} {block : ℕ → H → StatusIterator α τ}

/-- What the elementary operations of the iterator keep. -/
structure Kept (P : State index block → Prop) : Prop where
  moveIndex : ∀ call state, P state → P (state.moveIndex call)
  moveData : ∀ call state, P state → P (state.moveData call)
  setDataIterator : ∀ data state, P state → P (state.setDataIterator data)
  blocksMade : ∀ n state, P state → P { state with blocksMade := n }
  returned : ∀ state, P state → P { state with returned := false }

variable [DecidableEq H]

theorem Kept.openBlock {P : State index block → Prop} (h : Kept P) (indexCall dataCall : Call τ)
    {state : State index block} (hstate : P state) : P (state.openBlock indexCall dataCall) := by
  apply h.moveData
  have hmoved := h.moveIndex indexCall state hstate
  unfold State.initDataBlock
  split
  · exact h.setDataIterator _ _ hmoved
  · split
    · exact hmoved
    · exact h.setDataIterator _ _ (h.blocksMade _ _ hmoved)

theorem Kept.skip {P : State index block → Prop} (h : Kept P) (indexCall dataCall : Call τ) (rounds : ℕ)
    {state : State index block} (hstate : P state) : P (state.skip indexCall dataCall rounds) := by
  induction rounds generalizing state with
  | zero => exact h.returned state hstate
  | succ rounds ih =>
    unfold State.skip
    split
    · exact hstate
    · split
      · exact h.setDataIterator _ _ hstate
      · exact ih (h.openBlock indexCall dataCall hstate)

theorem Kept.run {P : State index block → Prop} (h : Kept P) (hstart : P (start index block))
    (rounds : ℕ) (calls : List (Call τ)) : P (run index block rounds calls) := by
  have happly : ∀ call state, P state → P (State.apply rounds state call) := by
    intro call state hstate
    cases call with
    | seek t => exact h.skip _ _ _ (h.openBlock _ _ hstate)
    | seekToFirst => exact h.skip _ _ _ (h.openBlock _ _ hstate)
    | seekToLast => exact h.skip _ _ _ (h.openBlock _ _ hstate)
    | next => exact h.skip _ _ _ (h.moveData _ _ hstate)
    | prev => exact h.skip _ _ _ (h.moveData _ _ hstate)
  unfold TwoLevelStatus.run
  induction calls using List.reverseRecOn with
  | nil => exact hstart
  | append_singleton calls call ih =>
    rw [List.foldl_append]
    exact happly call _ ih

end Runs

theorem failing_iff {index : StatusIterator (τ × H) τ} {block : ℕ → H → StatusIterator α τ}
    {state : State index block} :
    state.failing = true ↔ state.indexStatus ≠ .ok ∨ ∃ s, state.dataStatus = some s ∧ s ≠ .ok := by
  unfold State.failing
  simp only [Bool.or_eq_true, decide_eq_true_eq, Option.any_eq_true]

section Erase

variable {index : StatusIterator (τ × H) τ} {block : H → StatusIterator α τ}

/-- The state of the iterator without failures. -/
def erase (state : State index fun _ ↦ block) :
    TwoLevelIterator.State index.toAnyIterator fun handle ↦ (block handle).toAnyIterator where
  index := state.index
  data := state.data.map fun data ↦ ⟨data.1.2, data.2⟩
  returned := state.returned

@[simp]
theorem erase_index (state : State index fun _ ↦ block) : (erase state).index = state.index := rfl

theorem erase_moveData (call : Call τ) (state : State index fun _ ↦ block) :
    erase (state.moveData call) = TwoLevelIterator.onData _ _
      (fun handle data ↦ (block handle).ops.apply data call) (erase state) := by
  unfold erase State.moveData State.observe TwoLevelIterator.onData
  simp only [Option.map_map]
  rfl

theorem exists_saveDataError_eq (state : State index fun _ ↦ block) :
    ∃ saved, state.saveDataError = { state with savedStatus := saved } := by
  unfold State.saveDataError State.saveError
  cases state.dataStatus with
  | none => exact ⟨_, rfl⟩
  | some s =>
    rw [Option.elim_some]
    split <;> exact ⟨_, rfl⟩

theorem erase_setDataIterator (data : Option (Σ made : ℕ × H, (block made.2).State))
    (state : State index fun _ ↦ block) :
    erase (state.setDataIterator data) =
      { erase state with data := data.map fun data ↦ ⟨data.1.2, data.2⟩ } := by
  obtain ⟨saved, heq⟩ := exists_saveDataError_eq state
  unfold State.setDataIterator
  rw [heq]
  rfl

theorem erase_get (state : State index fun _ ↦ block) :
    TwoLevelIterator.get _ _ (erase state) = state.get := by
  unfold TwoLevelIterator.get erase State.get
  simp only [Option.bind_map]
  rfl

variable [DecidableEq H]

theorem erase_initDataBlock (state : State index fun _ ↦ block) :
    erase state.initDataBlock = TwoLevelIterator.initDataBlock _ _ (erase state) := by
  unfold State.initDataBlock TwoLevelIterator.initDataBlock
  rw [erase_index]
  cases index.ops.get state.index with
  | none => exact erase_setDataIterator none state
  | some entry =>
    have hsame : ((erase state).data.any fun data ↦ decide (data.1 = entry.2)) =
        state.data.any fun data ↦ decide (data.1.2 = entry.2) := by
      unfold erase
      rw [Option.any_map]
    dsimp only
    rw [hsame]
    split
    · rfl
    · exact erase_setDataIterator _ _

theorem erase_openBlock (indexCall dataCall : Call τ) (state : State index fun _ ↦ block) :
    erase (state.openBlock indexCall dataCall) = TwoLevelIterator.onData _ _
      (fun handle data ↦ (block handle).ops.apply data dataCall) (TwoLevelIterator.initDataBlock _ _
        { erase state with index := index.ops.apply state.index indexCall }) := by
  rw [State.openBlock, erase_moveData, erase_initDataBlock]
  rfl

theorem erase_skipForward (rounds : ℕ) (state : State index fun _ ↦ block) :
    erase (state.skip .next .seekToFirst rounds) =
      TwoLevelIterator.skipForward _ _ rounds (erase state) := by
  induction rounds generalizing state with
  | zero => rfl
  | succ rounds ih =>
    rw [State.skip, TwoLevelIterator.skipForward, erase_get, erase_index]
    split
    · rfl
    · split
      · exact erase_setDataIterator none state
      · rw [ih, erase_openBlock]
        rfl

theorem erase_skipBackward (rounds : ℕ) (state : State index fun _ ↦ block) :
    erase (state.skip .prev .seekToLast rounds) =
      TwoLevelIterator.skipBackward _ _ rounds (erase state) := by
  induction rounds generalizing state with
  | zero => rfl
  | succ rounds ih =>
    rw [State.skip, TwoLevelIterator.skipBackward, erase_get, erase_index]
    split
    · rfl
    · split
      · exact erase_setDataIterator none state
      · rw [ih, erase_openBlock]
        rfl

/-- Every call acts on the iterators as in the model without failures. -/
theorem erase_apply (rounds : ℕ) (state : State index fun _ ↦ block) (call : Call τ) :
    erase (state.apply rounds call) = (TwoLevelIterator.iterator _ _ rounds).apply (erase state) call := by
  cases call with
  | seek t =>
    rw [State.apply, erase_skipForward, erase_openBlock]
    rfl
  | seekToFirst =>
    rw [State.apply, erase_skipForward, erase_openBlock]
    rfl
  | seekToLast =>
    rw [State.apply, erase_skipBackward, erase_openBlock]
    rfl
  | next =>
    rw [State.apply, erase_skipForward, erase_moveData]
    rfl
  | prev =>
    rw [State.apply, erase_skipBackward, erase_moveData]
    rfl

end Erase

section Returned

variable {index : StatusIterator (τ × H) τ} {block : ℕ → H → StatusIterator α τ}

/-- `status()` returns an error when one has been reported and `OK` when none has. -/
def StatusRight (state : State index block) : Prop :=
  (state.reported = true → ∃ s, state.status = some s ∧ s ≠ .ok) ∧
    (state.reported = false → state.status = some .ok)

/-- What `status()` returns, if it returns a value, is the error of an iterator that fails now. -/
theorem status_isSome_iff (state : State index block) :
    (∃ s, state.status = some s) ↔ state.failing = true := by
  rw [failing_iff]
  unfold State.status
  split
  · rename_i hindex
    simp [hindex]
  · rename_i hindex
    cases hdata : state.dataStatus with
    | none => simp [hindex]
    | some s => by_cases hs : s = .ok <;> simp [hindex, hs]

theorem status_ne_ok {state : State index block} {s : Status} (h : state.status = some s) : s ≠ .ok := by
  unfold State.status at h
  split at h
  · rename_i hindex
    cases h
    exact hindex
  · split at h
    · split at h
      · rename_i hdata
        cases h
        exact hdata
      · cases h
    · cases h

/-- What fails now has been noted. -/
theorem reported_of_failing_kept :
    Kept fun state : State index block ↦ state.failing = true → state.reported = true := by
  have hobserve : ∀ state : State index block,
      state.observe.failing = true → state.observe.reported = true := by
    intro state hfailing
    rw [observe_failing] at hfailing
    rw [observe_reported, hfailing, Bool.or_true]
  exact ⟨fun _ _ _ ↦ hobserve _, fun _ _ _ ↦ hobserve _, fun _ _ _ ↦ hobserve _, fun _ _ h ↦ h, fun _ h ↦ h⟩

/-- After every run, `status()` is right exactly when the index iterator or the current data iterator
reports an error: in all other cases it ends without a value. -/
theorem status_right_iff [DecidableEq H] (index : StatusIterator (τ × H) τ)
    (block : ℕ → H → StatusIterator α τ) (rounds : ℕ) (calls : List (Call τ)) :
    StatusRight (run index block rounds calls) ↔ ((run index block rounds calls).indexStatus ≠ .ok ∨
        ∃ s, (run index block rounds calls).dataStatus = some s ∧ s ≠ .ok) := by
  have hnoted : (run index block rounds calls).failing = true →
      (run index block rounds calls).reported = true := by
    refine reported_of_failing_kept.run (fun hfailing ↦ ?_) rounds calls
    rw [start, observe_failing] at hfailing
    rw [start, observe_reported, hfailing, Bool.or_true]
  rw [← failing_iff]
  constructor
  · rintro ⟨herror, hok⟩
    rw [← status_isSome_iff]
    cases hreported : (run index block rounds calls).reported with
    | true =>
      obtain ⟨s, hs, -⟩ := herror hreported
      exact ⟨s, hs⟩
    | false => exact ⟨_, hok hreported⟩
  · intro hfailing
    obtain ⟨s, hs⟩ := (status_isSome_iff _).mpr hfailing
    refine ⟨fun _ ↦ ⟨s, hs, status_ne_ok hs⟩, fun hreported ↦ ?_⟩
    rw [hnoted hfailing] at hreported
    cases hreported

def twoBlocks : StatusIterator (ℕ × ℕ) ℕ where
  toAnyIterator := AnyIterator.ofList Prod.fst [(1, 0), (2, 1)]
  status _ := .ok

/-- The block with handle 0 cannot be read, the other one has one entry. -/
def unreadableFirst (_ : ℕ) (handle : ℕ) : StatusIterator ℕ ℕ where
  toAnyIterator := AnyIterator.ofList id (if handle = 0 then [] else [2])
  status _ := if handle = 0 then .ioError else .ok

/-- The unreadable block is skipped: its error was reported and saved, and `status()` has no value. -/
theorem skipped_error_not_returned : (run twoBlocks unreadableFirst 5 [.seekToFirst]).get = some 2 ∧
      (run twoBlocks unreadableFirst 5 [.seekToFirst]).returned = true ∧
      (run twoBlocks unreadableFirst 5 [.seekToFirst]).reported = true ∧
      (run twoBlocks unreadableFirst 5 [.seekToFirst]).savedStatus = .ioError ∧
      (run twoBlocks unreadableFirst 5 [.seekToFirst]).status = none := by
  decide

end Returned

end LevelDB.Table.TwoLevelStatus
