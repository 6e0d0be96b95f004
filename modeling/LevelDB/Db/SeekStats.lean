import LevelDB.Db.CompactionInputs
import LevelDB.Db.Lookup
import LevelDB.Db.Manifest

/-!
# Seek statistics of the versions

A lookup charges a seek to a file of the version it read, and `Version::UpdateStats` may later mark
that file for compaction in the same version, which need not be current any more.  The machine runs
lookups on any versions, the updates of their statistics, installs of new versions and
`PickCompaction` in any order.  What a file's `allowed_seeks` has come down to at an update is free.

In every reachable state the file marked in a version is a file of that version and has a level
below it, so a compaction that it triggers stays within the levels.  Together with `Finalize` this
is all that `PickCompaction` relies on, so the inputs of every compaction are exactly the ones that
its file asks for.
-/

namespace LevelDB.Db.SeekStats

open Format TableFiles VersionBuilder CompactionPick CompactionInputs Lookup Library

variable {K : Type*} [LinearOrder K]

/-- A lookup that has read its version and has not updated the statistics yet. -/
structure FinishedGet (K : Type*) where
  /-- The index of the version that was read. -/
  version : ℕ
  seekFile : Option (FileMetaData K × ℕ)

structure State (K : Type*) where
  /-- The versions in the order in which they were installed; the last one is `current_`. -/
  versions : List (Version K)
  compactPointer : ℕ → Option (InternalKey K)
  gets : List (FinishedGet K)

inductive Action (K : Type*) where
  /-- `Version::Get`; `ends` says at which files the search ends. -/
  | get (version : ℕ) (lkey : InternalKey K) (ends : FileMetaData K → Bool)
  | updateStats (index : ℕ) (allowedSeeks : ℕ → ℤ)
  /-- A new version built from `current_` by `LogAndApply`, or from several edits by `Recover`. -/
  | install (edits : List (VersionEdit K))
  | pickCompaction

def State.current (state : State K) : Option (Version K) := state.versions.getLast?

def step (scoring : Scoring K) (state : State K) : Action K → Outcome (State K)
  | .get version lkey ends =>
    match state.versions[version]? with
    | none => .blocked
    | some v => .next { state with
        gets := state.gets ++ [⟨version, chargedFile ends none none (searchOrder v lkey)⟩] }
  | .updateStats index allowedSeeks =>
    match state.gets[index]? with
    | none => .blocked
    | some get => .next { state with
        versions := state.versions.modify get.version fun v ↦
          (updateStats v allowedSeeks get.seekFile).1
        gets := state.gets.eraseIdx index }
  | .install edits =>
    match state.current with
    | none => .blocked
    | some v =>
      Outcome.ofOption (((edits.foldl Builder.apply Builder.empty).saveTo v.files).map fun files ↦
        { state with
          versions := state.versions ++ [finalize scoring files]
          compactPointer := edits.foldl (fun pointers edit ↦ Manifest.applyCompactPointers edit pointers)
            state.compactPointer })
  | .pickCompaction =>
    match state.current with
    | none => .blocked
    | some v =>
      match v.pickCompaction state.compactPointer with
      | none => .next state
      | some c => .next { state with
          compactPointer := Function.update state.compactPointer c.level (some c.largest) }

def versionSet (scoring : Scoring K) : Machine (State K) (Action K) where
  init state := state = ⟨[{ files := fun _ ↦ [] }], fun _ ↦ none, []⟩
  step := step scoring

structure Invariant (state : State K) : Prop where
  marks : ∀ v ∈ state.versions, v.MarksInRange
  gets : ∀ get ∈ state.gets, ∃ v, state.versions[get.version]? = some v ∧
    ∀ f level, get.seekFile = some (f, level) → v.InRange f level

omit [LinearOrder K] in
@[simp]
theorem updateStats_files (v : Version K) (allowedSeeks : ℕ → ℤ) (seekFile : Option (FileMetaData K × ℕ)) :
    (updateStats v allowedSeeks seekFile).1.files = v.files := by
  unfold updateStats
  split
  · rfl
  · dsimp only
    split <;> rfl

omit [LinearOrder K] in
/-- `UpdateStats` marks the file that it is given, or none. -/
theorem marksInRange_updateStats {v : Version K} (h : v.MarksInRange) (allowedSeeks : ℕ → ℤ)
    {seekFile : Option (FileMetaData K × ℕ)}
    (hseek : ∀ f level, seekFile = some (f, level) → v.InRange f level) :
    (updateStats v allowedSeeks seekFile).1.MarksInRange := by
  unfold Lookup.updateStats
  split
  · exact h
  · rename_i f level
    dsimp only
    split
    · refine ⟨h.due, fun g l hmark ↦ ?_⟩
      cases hmark
      exact hseek f level rfl
    · exact h

theorem Invariant.get {state state' : State K} (h : Invariant state) {scoring : Scoring K}
    {version : ℕ} {lkey : InternalKey K} {ends : FileMetaData K → Bool}
    (hstep : step scoring state (.get version lkey ends) = .next state') : Invariant state' := by
  simp only [step] at hstep
  split at hstep
  · cases hstep
  · rename_i v hv
    cases hstep
    refine ⟨h.marks, fun get hget ↦ ?_⟩
    rcases List.mem_append.mp hget with hget | hget
    · exact h.gets get hget
    · rw [List.mem_singleton.mp hget]
      exact ⟨v, hv, fun f level hcharged ↦ chargedFile_searchOrder hcharged⟩

theorem Invariant.updateStats {state state' : State K} (h : Invariant state) {scoring : Scoring K}
    {index : ℕ} {allowedSeeks : ℕ → ℤ}
    (hstep : step scoring state (.updateStats index allowedSeeks) = .next state') : Invariant state' := by
  simp only [step] at hstep
  split at hstep
  · cases hstep
  · rename_i get hget
    cases hstep
    obtain ⟨v, hv, hseek⟩ := h.gets get (List.mem_of_getElem? hget)
    constructor
    · -- the version that was read is the only one whose mark changes
      intro w hw
      obtain ⟨i, hi⟩ := List.mem_iff_getElem?.mp hw
      rw [List.getElem?_modify] at hi
      obtain ⟨u, hu, rfl⟩ := Option.map_eq_some_iff.mp hi
      have hmarks := h.marks u (List.mem_of_getElem? hu)
      split
      · rename_i heq
        rw [← heq, hv, Option.some.injEq] at hu
        subst hu
        exact marksInRange_updateStats hmarks allowedSeeks hseek
      · exact hmarks
    · intro get' hget'
      obtain ⟨u, hu, hseek'⟩ := h.gets get' (List.mem_of_mem_eraseIdx hget')
      refine ⟨_, by rw [List.getElem?_modify, hu]; rfl, fun f level hf ↦ ?_⟩
      have hrange := hseek' f level hf
      split
      · exact ⟨by rw [updateStats_files]; exact hrange.1, hrange.2⟩
      · exact hrange

theorem Invariant.install {state state' : State K} (h : Invariant state) {scoring : Scoring K}
    {edits : List (VersionEdit K)}
    (hstep : step scoring state (.install edits) = .next state') : Invariant state' := by
  simp only [step] at hstep
  split at hstep
  · cases hstep
  · rw [Outcome.ofOption_eq_next, Option.map_eq_some_iff] at hstep
    obtain ⟨files, -, rfl⟩ := hstep
    constructor
    · intro v hv
      rcases List.mem_append.mp hv with hv | hv
      · exact h.marks v hv
      · rw [List.mem_singleton.mp hv]
        exact marksInRange_finalize scoring files
    · intro get hget
      obtain ⟨v, hv, hseek⟩ := h.gets get hget
      exact ⟨v, by rw [List.getElem?_append_left (List.getElem?_eq_some_iff.mp hv).1]; exact hv, hseek⟩

theorem Invariant.pickCompaction {state state' : State K} (h : Invariant state) {scoring : Scoring K}
    (hstep : step scoring state .pickCompaction = .next state') : Invariant state' := by
  simp only [step] at hstep
  split at hstep
  · cases hstep
  · split at hstep
    · cases hstep
      exact h
    · cases hstep
      exact ⟨h.marks, h.gets⟩

theorem invariant_of_reachable {scoring : Scoring K} {state : State K}
    (hreach : (versionSet scoring).Reachable state) : Invariant state := by
  refine Machine.ReachableWhen.invariant (fun state hinit ↦ ?_)
    (fun state action state' h _ hstep ↦ ?_) hreach
  · cases hinit
    refine ⟨fun v hv ↦ ?_, by simp⟩
    rw [List.mem_singleton.mp hv]
    exact ⟨fun hscore ↦ by norm_num at hscore, fun f level hmark ↦ by cases hmark⟩
  · replace hstep : step scoring state action = .next state' := hstep
    cases action with
    | get version lkey ends => exact h.get hstep
    | updateStats index allowedSeeks => exact h.updateStats hstep
    | install edits => exact h.install hstep
    | pickCompaction => exact h.pickCompaction hstep

/-- In every version the file marked by seeks and the file that `PickCompaction` would start from
are files of the version with a level below theirs. -/
theorem marked_files_inRange {scoring : Scoring K} {state : State K}
    (hreach : (versionSet scoring).Reachable state) :
    ∀ v ∈ state.versions, (∀ f level, v.fileToCompact = some (f, level) →
        f ∈ v.files level ∧ level + 1 < kNumLevels) ∧
      ∀ f level, v.pickFile state.compactPointer = some (f, level) →
        f ∈ v.files level ∧ level + 1 < kNumLevels := by
  intro v hv
  have hmarks := (invariant_of_reachable hreach).marks v hv
  exact ⟨hmarks.seek, fun f level hpick ↦ hmarks.pickFile hpick⟩

/-- A file at level 0 over one at level 1, and a lookup that reads both. -/
def seekRun : List (Action ℕ) :=
  [.install [(({} : VersionEdit ℕ).addFile 0
      ⟨5, 4096, .mk' 1 8 .kTypeValue, .mk' 5 7 .kTypeValue⟩).addFile 1
      ⟨4, 4096, .mk' 1 3 .kTypeValue, .mk' 5 2 .kTypeValue⟩],
    .get 1 (.mk' 3 9 .kTypeValue) (fun _ ↦ false), .updateStats 0 (fun _ ↦ 1)]

theorem marked_files_inRange_seekRun : ∃ state, (versionSet (exactScoring ℕ)).Reachable state ∧
      (state.versions.any fun v ↦ v.fileToCompact.isSome) = true ∧
      ∀ v ∈ state.versions, (∀ f level, v.fileToCompact = some (f, level) →
          f ∈ v.files level ∧ level + 1 < kNumLevels) ∧
        ∀ f level, v.pickFile state.compactPointer = some (f, level) →
          f ∈ v.files level ∧ level + 1 < kNumLevels := by
  obtain ⟨state, hrun, hmarked⟩ := Machine.Run.of_exec (versionSet (exactScoring ℕ))
    (fun _ _ ↦ true) _ rfl seekRun
    (fun state ↦ (state.versions.any fun v ↦ v.fileToCompact.isSome) = true) (by decide +kernel)
  have hreach := Machine.ReachableWhen.reachable ⟨_, hrun⟩
  exact ⟨state, hreach, hmarked, marked_files_inRange hreach⟩

/-- The inputs and the grandparents of a compaction that `PickCompaction` returns for a reachable
version are exactly the files that the file it picked asks for. -/
theorem pickCompaction_inputs {scoring : Scoring K} {state : State K}
    (hreach : (versionSet scoring).Reachable state) {v : Version K} (hv : v ∈ state.versions)
    (hvalid : ∀ level < kNumLevels, ∀ f ∈ v.files level, f.smallest ≤ f.largest)
    {compactPointer : ℕ → Option (InternalKey K)} {c : Compaction K}
    (h : v.pickCompaction compactPointer = some c) :
    ExactInputs v c ∧ ∃ f, v.pickFile compactPointer = some (f, c.level) ∧ f ∈ c.inputs0 :=
  pickCompaction_exact hvalid
    (fun _ _ hpick ↦ ((invariant_of_reachable hreach).marks v hv).pickFile hpick) h

theorem pickCompaction_inputs_seekRun : ∃ v : Version ℕ, ∃ c, v.pickCompaction (fun _ ↦ none) = some c ∧
      ExactInputs v c ∧ ∃ f, v.pickFile (fun _ ↦ none) = some (f, c.level) ∧ f ∈ c.inputs0 := by
  obtain ⟨state, hrun, v, hv, hvalid, hsome⟩ := Machine.Run.of_exec (versionSet (exactScoring ℕ))
    (fun _ _ ↦ true) _ rfl seekRun
    (fun state ↦ ∃ v ∈ state.versions, (∀ level < kNumLevels, ∀ f ∈ v.files level, f.smallest ≤ f.largest) ∧
        (v.pickCompaction fun _ ↦ none).isSome) (by decide +kernel)
  obtain ⟨c, hc⟩ := Option.isSome_iff_exists.mp hsome
  exact ⟨v, c, hc, pickCompaction_inputs (Machine.ReachableWhen.reachable ⟨_, hrun⟩) hv hvalid hc⟩

end LevelDB.Db.SeekStats
