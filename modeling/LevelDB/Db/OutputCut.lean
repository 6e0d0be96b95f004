import LevelDB.Db.CompactionPick

/-!
# Where a compaction cuts its outputs

`Compaction::ShouldStopBefore` of `db/version_set.cpp`, which `DBImpl::DoCompactionWork` asks before
each entry whether the output it builds overlaps too much of the grandparents' level.  What the
calls on one compaction are meant to answer is stated on its own, from the keys alone.

The loop of the source looks at `grandparents_[grandparent_index_]` and never moves
`grandparent_index_`, so a key after the first grandparent keeps it there for ever.  The calls
therefore answer as they are meant to exactly for compactions whose keys never pass the first
grandparent.
-/

namespace LevelDB.Db.OutputCut

open Format TableFiles List

variable {K : Type*} [LinearOrder K] {grandparents : List (FileMetaData K)} {state : StopState}

/-- State used to check for the number of overlapping grandparent files. -/
structure StopState where
  /-- Index in `grandparents_`. -/
  grandparentIndex : ℕ := 0
  /-- Some output key has been seen. -/
  seenKey : Bool := false
  /-- Bytes of overlap between the current output and the grandparent files. -/
  overlappedBytes : ℕ := 0
  deriving DecidableEq, Repr

/-- The loop that scans for the earliest grandparent file that contains the key, for at most the
given number of rounds; `none` when it has not ended by then. -/
def stopLoop (grandparents : List (FileMetaData K)) (internalKey : InternalKey K) :
    ℕ → StopState → Option StopState
  | 0, _ => none
  | rounds + 1, state =>
    match grandparents[state.grandparentIndex]? with
    | none => some state
    | some f =>
      if f.largest < internalKey then
        -- the source adds the size and leaves the index where it is
        stopLoop grandparents internalKey rounds
          (if state.seenKey then { state with overlappedBytes := state.overlappedBytes + f.fileSize }
          else state)
      else some state

/-- `ShouldStopBefore`: the answer and the state after the call. -/
def shouldStopBefore (grandparents : List (FileMetaData K)) (rounds : ℕ) (internalKey : InternalKey K)
    (state : StopState) : Option (Bool × StopState) := do
  let scanned ← stopLoop grandparents internalKey rounds state
  if kMaxGrandParentOverlapBytes < scanned.overlappedBytes then
    -- too much overlap for the current output; start a new one
    return (true, { scanned with seenKey := true, overlappedBytes := 0 })
  else return (false, { scanned with seenKey := true })

/-- The answers to calls that are made one after the other on one compaction, each with at most the
given number of rounds. -/
def stopAnswers (grandparents : List (FileMetaData K)) (rounds : ℕ) :
    StopState → List (InternalKey K) → Option (List Bool)
  | _, [] => some []
  | state, internalKey :: rest => do
    let (stop, state') ← shouldStopBefore grandparents rounds internalKey state
    let answers ← stopAnswers grandparents rounds state' rest
    return stop :: answers

def passedBytes (grandparents : List (FileMetaData K)) (before after : InternalKey K) : ℕ :=
  totalFileSize (grandparents.filter fun f ↦ decide (before ≤ f.largest ∧ f.largest < after))

/-- The intended answers: `true` when the grandparents that the calls after the first one passed,
since the last `true`, are larger than the limit.  `previous` is the key of the call before. -/
def intendedAnswers (grandparents : List (FileMetaData K)) :
    Option (InternalKey K) → ℕ → List (InternalKey K) → List Bool
  | _, _, [] => []
  | previous, overlapped, internalKey :: rest =>
    let overlapped := overlapped + previous.elim 0 fun before ↦
      passedBytes grandparents before internalKey
    if kMaxGrandParentOverlapBytes < overlapped then
      true :: intendedAnswers grandparents (some internalKey) 0 rest
    else false :: intendedAnswers grandparents (some internalKey) overlapped rest

/-- The key lies after no grandparent: it does not pass the first one. -/
def BeforeGrandparents (grandparents : List (FileMetaData K)) (internalKey : InternalKey K) : Prop :=
  ∀ f, grandparents.head? = some f → internalKey ≤ f.largest

theorem stopLoop_eq_none {internalKey : InternalKey K}
    (hpast : ¬BeforeGrandparents grandparents internalKey) (rounds : ℕ)
    (hindex : state.grandparentIndex = 0) : stopLoop grandparents internalKey rounds state = none := by
  simp only [BeforeGrandparents, not_forall, not_le] at hpast
  obtain ⟨f, hhead, hlt⟩ := hpast
  rw [head?_eq_getElem?] at hhead
  induction rounds generalizing state with
  | zero => rfl
  | succ rounds ih =>
    simp only [stopLoop, hindex, hhead, if_pos hlt]
    apply ih
    split
    · rfl
    · exact hindex

/-- A key that passes no grandparent ends the loop at once. -/
theorem stopLoop_eq_self {internalKey : InternalKey K}
    (hbefore : BeforeGrandparents grandparents internalKey) (rounds : ℕ)
    (hindex : state.grandparentIndex = 0) :
    stopLoop grandparents internalKey (rounds + 1) state = some state := by
  simp only [stopLoop, hindex, ← head?_eq_getElem?]
  cases hhead : grandparents.head? with
  | none => rfl
  | some f => exact if_neg (not_lt.mpr (hbefore f hhead))

theorem shouldStopBefore_of_before {internalKey : InternalKey K}
    (hbefore : BeforeGrandparents grandparents internalKey) (rounds : ℕ)
    (hindex : state.grandparentIndex = 0) (hbytes : state.overlappedBytes = 0) :
    shouldStopBefore grandparents (rounds + 1) internalKey state =
      some (false, { state with seenKey := true }) := by
  simp only [shouldStopBefore, stopLoop_eq_self hbefore rounds hindex, Option.bind_eq_bind,
    Option.bind_some, hbytes, Nat.not_lt_zero, if_false]
  rfl

/-- Calls that all end have keys that pass no grandparent. -/
theorem before_of_stopAnswers {rounds : ℕ} {keys : List (InternalKey K)} {answers : List Bool}
    (hindex : state.grandparentIndex = 0) (h : stopAnswers grandparents rounds state keys = some answers) :
    ∀ internalKey ∈ keys, BeforeGrandparents grandparents internalKey := by
  induction keys generalizing state answers with
  | nil => simp
  | cons internalKey rest ih =>
    obtain ⟨⟨stop, state'⟩, hcall, hrest⟩ := Option.bind_eq_some_iff.mp h
    obtain ⟨scanned, hloop, hcall⟩ := Option.bind_eq_some_iff.mp hcall
    obtain ⟨answers', hrest, -⟩ := Option.bind_eq_some_iff.mp hrest
    have hbefore : BeforeGrandparents grandparents internalKey := by
      by_contra hpast
      rw [stopLoop_eq_none hpast rounds hindex] at hloop
      cases hloop
    obtain ⟨rounds, rfl⟩ : ∃ n, rounds = n + 1 := by
      cases rounds with
      | zero => cases hloop
      | succ n => exact ⟨n, rfl⟩
    rw [stopLoop_eq_self hbefore rounds hindex] at hloop
    cases hloop
    have hindex' : state'.grandparentIndex = 0 := by
      split at hcall
      · cases hcall
        exact hindex
      · cases hcall
        exact hindex
    intro key hkey
    rcases mem_cons.mp hkey with rfl | hkey
    · exact hbefore
    · exact ih hindex' hrest key hkey

/-- Keys that pass no grandparent are all answered with `false`. -/
theorem stopAnswers_of_before {keys : List (InternalKey K)}
    (hbefore : ∀ internalKey ∈ keys, BeforeGrandparents grandparents internalKey) (rounds : ℕ)
    (hindex : state.grandparentIndex = 0) (hbytes : state.overlappedBytes = 0) :
    stopAnswers grandparents (rounds + 1) state keys = some (keys.map fun _ ↦ false) := by
  induction keys generalizing state with
  | nil => rfl
  | cons internalKey rest ih =>
    have hcall := shouldStopBefore_of_before (hbefore internalKey mem_cons_self) rounds hindex hbytes
    have hrest : stopAnswers grandparents (rounds + 1) { state with seenKey := true } rest =
        some (rest.map fun _ ↦ false) :=
      ih (fun key hkey ↦ hbefore key (mem_cons_of_mem internalKey hkey)) hindex hbytes
    simp only [stopAnswers, hcall, Option.bind_eq_bind, Option.bind_some, hrest, map_cons]
    rfl

/-- On a sorted level a key that does not pass the first file passes none. -/
theorem passedBytes_of_before (hsorted : SortedLevel grandparents) (before : InternalKey K)
    {after : InternalKey K}
    (hbefore : BeforeGrandparents grandparents after) : passedBytes grandparents before after = 0 := by
  have hnone : grandparents.filter
      (fun f ↦ decide (before ≤ f.largest ∧ f.largest < after)) = [] := by
    rw [filter_eq_nil_iff]
    intro f hf
    have hle : after ≤ f.largest := by
      cases grandparents with
      | nil => cases hf
      | cons g rest =>
        have hfirst := hbefore g rfl
        rcases mem_cons.mp hf with rfl | hmem
        · exact hfirst
        · have hlt := (pairwise_cons.mp hsorted.ordered).1 f hmem
          exact hfirst.trans (hlt.le.trans (hsorted.valid f hf))
    simp only [decide_eq_true_eq, not_and, not_lt]
    exact fun _ ↦ hle
  rw [passedBytes, hnone]
  rfl

theorem intendedAnswers_of_before (hsorted : SortedLevel grandparents) {keys : List (InternalKey K)}
    (hbefore : ∀ internalKey ∈ keys, BeforeGrandparents grandparents internalKey)
    (previous : Option (InternalKey K)) :
    intendedAnswers grandparents previous 0 keys = keys.map fun _ ↦ false := by
  induction keys generalizing previous with
  | nil => rfl
  | cons internalKey rest ih =>
    have hpassed : (previous.elim 0 fun before ↦ passedBytes grandparents before internalKey) = 0 := by
      cases previous with
      | none => rfl
      | some before => exact passedBytes_of_before hsorted before (hbefore internalKey mem_cons_self)
    have hrest := ih (fun key hkey ↦ hbefore key (mem_cons_of_mem internalKey hkey)) (some internalKey)
    simp only [intendedAnswers, hpassed, Nat.add_zero, Nat.not_lt_zero, if_false, map_cons, hrest]

/-- All calls end and answer as intended exactly when no key passes the first grandparent. -/
theorem stopAnswers_intended_iff {grandparents : List (FileMetaData K)} (hsorted : SortedLevel grandparents)
    {keys : List (InternalKey K)} (hkeys : keys.Pairwise (· ≤ ·)) :
    (∃ rounds, stopAnswers grandparents rounds {} keys = some (intendedAnswers grandparents none 0 keys)) ↔
      ∀ f, grandparents.head? = some f → ∀ internalKey, keys.getLast? = some internalKey →
        internalKey ≤ f.largest := by
  have hlast : (∀ f, grandparents.head? = some f → ∀ internalKey, keys.getLast? = some internalKey →
      internalKey ≤ f.largest) ↔ ∀ internalKey ∈ keys, BeforeGrandparents grandparents internalKey := by
    constructor
    · intro h internalKey hkey f hhead
      have hne : keys ≠ [] := ne_nil_of_mem hkey
      have hle : internalKey ≤ keys.getLast hne := by
        have hsplit := dropLast_append_getLast hne
        rw [← hsplit, mem_append, mem_singleton] at hkey
        rw [← hsplit, pairwise_append] at hkeys
        rcases hkey with hkey | hkey
        · exact hkeys.2.2 internalKey hkey _ (mem_singleton_self _)
        · exact hkey.le
      exact hle.trans (h f hhead _ (getLast?_eq_some_getLast hne))
    · intro h f hhead internalKey hkey
      exact h internalKey (mem_of_getLast? hkey) f hhead
  rw [hlast]
  constructor
  · rintro ⟨rounds, hanswers⟩
    exact before_of_stopAnswers rfl hanswers
  · intro hbefore
    refine ⟨1, ?_⟩
    rw [stopAnswers_of_before hbefore 0 rfl rfl, intendedAnswers_of_before hsorted hbefore]

theorem stopAnswers_intended_iff_first :
    (∃ rounds, stopAnswers sharedBoundary rounds {} [.mk' 1 4 .kTypeValue, .mk' 2 9 .kTypeValue] =
        some (intendedAnswers sharedBoundary none 0
          [.mk' 1 4 .kTypeValue, .mk' 2 9 .kTypeValue])) ↔
      ∀ f, sharedBoundary.head? = some f → ∀ internalKey,
        [InternalKey.mk' 1 4 .kTypeValue, .mk' 2 9 .kTypeValue].getLast? = some internalKey →
          internalKey ≤ f.largest :=
  stopAnswers_intended_iff ⟨by decide, by decide⟩ (by decide)

/-- The second call lies after the first of two small grandparents and never returns, where it
should answer `false`. -/
theorem stopAnswers_hangs : SortedLevel sharedBoundary ∧
      [InternalKey.mk' 1 4 .kTypeValue, .mk' 3 9 .kTypeValue].Pairwise (· ≤ ·) ∧
      intendedAnswers sharedBoundary none 0 [.mk' 1 4 .kTypeValue, .mk' 3 9 .kTypeValue] = [false, false] ∧
      ∀ rounds, stopAnswers sharedBoundary rounds {}
        [.mk' 1 4 .kTypeValue, .mk' 3 9 .kTypeValue] = none := by
  refine ⟨⟨by decide, by decide⟩, by decide, by decide, fun rounds ↦ ?_⟩
  cases hanswers : stopAnswers sharedBoundary rounds {}
      [.mk' 1 4 .kTypeValue, .mk' 3 9 .kTypeValue] with
  | none => rfl
  | some answers =>
    have hbefore := before_of_stopAnswers rfl hanswers (.mk' 3 9 .kTypeValue) (by simp) _ rfl
    exact absurd hbefore (by decide)

end LevelDB.Db.OutputCut
