import LevelDB.Db.VersionBuilder
import LevelDB.Library.Machine

/-!
# The descriptor log

`VersionSet::LogAndApply`, `VersionSet::WriteSnapshot` and `VersionSet::Recover` of
`db/version_set.cpp`.  The MANIFEST is the list of the edits that its records encode.  `LogAndApply`
builds every version from the one before it; `Recover` collects all records in one builder on an empty
base.  Both lead to the version that the edits describe one after the other (`Applied`).
-/

namespace LevelDB.Db.Manifest

open Format TableFiles VersionBuilder Library SortedLists List

variable {K : Type*}

/-! ## The version set -/

/-- The members of `VersionSet` that the descriptor log saves and restores, with the values that the
constructor gives them.  It leaves `log_number_` to `Recover`. -/
structure VersionSet (K : Type*) where
  current : ℕ → List (FileMetaData K) := fun _ ↦ []
  compactPointer : ℕ → Option (InternalKey K) := fun _ ↦ none
  nextFileNumber : ℕ := 2
  manifestFileNumber : ℕ := 0
  lastSequence : ℕ := 0
  logNumber : ℕ := 0
  prevLogNumber : ℕ := 0
  /-- `descriptor_log_ != NULL` -/
  descriptorLog : Bool := false

/-- The part of `Builder::Apply` that acts on `compact_pointer_`. -/
def applyCompactPointers (edit : VersionEdit K) (pointers : ℕ → Option (InternalKey K)) :
    ℕ → Option (InternalKey K) :=
  edit.compactPointers.foldl (fun pointers p ↦ Function.update pointers p.1 (some p.2)) pointers

namespace VersionSet

def newFileNumber (vs : VersionSet K) : VersionSet K := { vs with nextFileNumber := vs.nextFileNumber + 1 }

def markFileNumberUsed (vs : VersionSet K) (number : ℕ) : VersionSet K :=
  if vs.nextFileNumber ≤ number then { vs with nextFileNumber := number + 1 } else vs

/-- The assertions of `LogAndApply` on the log number of the edit. -/
def acceptsLogNumber (vs : VersionSet K) (edit : VersionEdit K) : Bool :=
  match edit.logNumber with
  | some number => decide (vs.logNumber ≤ number ∧ number < vs.nextFileNumber)
  | none => true

/-- The fields that `LogAndApply` fills in before it applies the edit. -/
def completeEdit (vs : VersionSet K) (edit : VersionEdit K) : VersionEdit K :=
  { edit with
    logNumber := some (edit.logNumber.getD vs.logNumber)
    prevLogNumber := some (edit.prevLogNumber.getD vs.prevLogNumber)
    nextFileNumber := some vs.nextFileNumber
    lastSequence := some vs.lastSequence }

def writeSnapshot (comparator : String) (vs : VersionSet K) : VersionEdit K where
  comparator := some comparator
  compactPointers := (List.range kNumLevels).filterMap fun level ↦
    (vs.compactPointer level).map fun key ↦ (level, key)
  newFiles := (List.range kNumLevels).flatMap fun level ↦ (vs.current level).map fun f ↦ (level, f)

theorem le_markFileNumberUsed (vs : VersionSet K) (number : ℕ) :
    vs.nextFileNumber ≤ (vs.markFileNumberUsed number).nextFileNumber := by
  unfold markFileNumberUsed
  split
  · exact Nat.le_succ_of_le ‹_›
  · exact le_rfl

end VersionSet

theorem newAt_writeSnapshot (comparator : String) (vs : VersionSet K) {level : ℕ}
    (hlevel : level < kNumLevels) : (vs.writeSnapshot comparator).newAt level = vs.current level := by
  have hpick : ∀ l, ((vs.current l).map fun f ↦ (l, f)).filter (fun p ↦ decide (p.1 = level)) =
      if l = level then (vs.current l).map fun f ↦ (l, f) else [] := by
    intro l
    split
    · rename_i heq
      exact filter_eq_self.mpr (by simp [heq])
    · rename_i hne
      exact filter_eq_nil_iff.mpr (by simp [hne])
  have hrange : ∀ n, level < n → ((List.range n).flatMap fun l ↦
      if l = level then (vs.current l).map fun f ↦ (l, f) else []) =
        (vs.current level).map fun f ↦ (level, f) := by
    intro n
    induction n with
    | zero => intro h; cases h
    | succ n ih =>
      intro h
      rw [range_succ, flatMap_append, flatMap_singleton]
      rcases Nat.lt_or_eq_of_le (Nat.le_of_lt_succ h) with hlt | rfl
      · rw [ih hlt, if_neg hlt.ne', append_nil]
      · have hnil : ((List.range level).flatMap fun l ↦
            if l = level then (vs.current l).map fun f ↦ (l, f) else []) = [] := by
          apply flatMap_eq_nil_iff.mpr
          intro l hl
          exact if_neg (mem_range.mp hl).ne
        rw [hnil, if_pos rfl, nil_append]
  unfold VersionEdit.newAt VersionSet.writeSnapshot
  simp only [filter_flatMap, hpick, hrange kNumLevels hlevel, map_map]
  exact map_id _

variable [LinearOrder K] {comparator : String} {manifest : List (VersionEdit K)} {edit : VersionEdit K}

/-- `LogAndApply` with a descriptor log that can be written: the version set and the MANIFEST after
it.  `none` is a failed assertion, of the log number or of `SaveTo`. -/
def VersionSet.logAndApply (comparator : String) (vs : VersionSet K)
    (manifest : List (VersionEdit K)) (edit : VersionEdit K) :
    Option (VersionSet K × List (VersionEdit K)) :=
  if vs.acceptsLogNumber edit then
    ((Builder.empty.apply (vs.completeEdit edit)).saveTo vs.current).map fun v ↦
      -- `Apply` has moved the compaction pointers before a snapshot is written
      let vs := { vs with compactPointer := applyCompactPointers edit vs.compactPointer }
      ({ vs with
          current := v
          logNumber := edit.logNumber.getD vs.logNumber
          prevLogNumber := edit.prevLogNumber.getD vs.prevLogNumber
          descriptorLog := true },
        (if vs.descriptorLog then manifest else [vs.writeSnapshot comparator]) ++ [vs.completeEdit edit])
  else none

/-! ## Recover -/

/-- The statuses of `Recover`; `aborted` is a failed assertion of `SaveTo`. -/
inductive RecoverError
  | invalidArgument (message detail : String)
  | corruption (message : String)
  | aborted
  deriving DecidableEq

/-- The variables of `Recover` while it reads the records; `have_x` and `x` are an optional value. -/
structure Replay (K : Type*) where
  builder : Builder K := Builder.empty
  compactPointer : ℕ → Option (InternalKey K) := fun _ ↦ none
  logNumber : Option ℕ := none
  prevLogNumber : Option ℕ := none
  nextFile : Option ℕ := none
  lastSequence : Option ℕ := none

def Replay.apply (replay : Replay K) (edit : VersionEdit K) : Replay K where
  builder := replay.builder.apply edit
  compactPointer := applyCompactPointers edit replay.compactPointer
  logNumber := edit.logNumber.or replay.logNumber
  prevLogNumber := edit.prevLogNumber.or replay.prevLogNumber
  nextFile := edit.nextFileNumber.or replay.nextFile
  lastSequence := edit.lastSequence.or replay.lastSequence

def Replay.read (comparator : String) (replay : Replay K) (edit : VersionEdit K) :
    Except RecoverError (Replay K) :=
  match edit.comparator with
  | some name =>
    if name ≠ comparator then
      .error (.invalidArgument (name ++ " does not match existing comparator ") comparator)
    else .ok (replay.apply edit)
  | none => .ok (replay.apply edit)

/-- The end of `Recover`, after the last record.  The calls of `MarkFileNumberUsed` have no effect:
`next_file_number_` is overwritten after them. -/
def Replay.finish (replay : Replay K) : Except RecoverError (VersionSet K) :=
  match replay.nextFile, replay.logNumber, replay.lastSequence with
  | none, _, _ => .error (.corruption "no meta-nextfile entry in descriptor")
  | some _, none, _ => .error (.corruption "no meta-lognumber entry in descriptor")
  | some _, some _, none => .error (.corruption "no last-sequence-number entry in descriptor")
  | some nextFile, some logNumber, some lastSequence =>
    match replay.builder.saveTo fun _ ↦ [] with
    | none => .error .aborted
    | some v => .ok {
        current := v
        compactPointer := replay.compactPointer
        nextFileNumber := nextFile + 1
        manifestFileNumber := nextFile
        lastSequence := lastSequence
        logNumber := logNumber
        prevLogNumber := replay.prevLogNumber.getD 0 }

def recover (comparator : String) (manifest : List (VersionEdit K)) :
    Except RecoverError (VersionSet K) := do
  let replay ← manifest.foldlM (Replay.read comparator) {}
  replay.finish

def replayed (manifest : List (VersionEdit K)) : Builder K := manifest.foldl Builder.apply Builder.empty

def recoveredFiles (manifest : List (VersionEdit K)) (level : ℕ) : List (FileMetaData K) :=
  savedFiles (replayed manifest) (fun _ ↦ []) level

theorem replayed_append (manifest : List (VersionEdit K)) (edit : VersionEdit K) :
    replayed (manifest ++ [edit]) = (replayed manifest).apply edit := by
  rw [replayed, foldl_append]
  rfl

theorem recoveredFiles_of_lt (manifest : List (VersionEdit K)) {level : ℕ} (hlevel : level < kNumLevels) :
    recoveredFiles manifest level = keptFiles (replayed manifest level) [] :=
  if_pos hlevel

theorem recoveredFiles_last (manifest : List (VersionEdit K)) {level : ℕ}
    (hlevel : kNumLevels ≤ level) : recoveredFiles manifest level = [] :=
  if_neg (Nat.not_lt.mpr hlevel)

theorem exists_record_of_added {level : ℕ} {f : FileMetaData K}
    (hf : f ∈ (replayed manifest level).addedFiles) : ∃ record ∈ manifest, f ∈ record.newAt level := by
  induction manifest using List.reverseRecOn with
  | nil => cases hf
  | append_singleton manifest edit ih =>
    rw [replayed_append] at hf
    rcases mem_addedFiles_of_apply hf with hf | hf
    · exact ⟨edit, by simp, hf⟩
    · obtain ⟨record, hmem, hnew⟩ := ih hf
      exact ⟨record, mem_append_left _ hmem, hnew⟩

theorem exists_record_of_recovered {level : ℕ} {f : FileMetaData K} (hf : f ∈ recoveredFiles manifest level) :
    ∃ record ∈ manifest, f ∈ record.newAt level := by
  unfold recoveredFiles savedFiles at hf
  split at hf
  · rcases mem_keptFiles.mp hf with ⟨hbase | hadded, -⟩
    · cases hbase
    · exact exists_record_of_added hadded
  · cases hf

/-- The numbers that an edit adds to a level have not been added to it by a record. -/
structure FreshIn (manifest : List (VersionEdit K)) (edit : VersionEdit K) (level : ℕ) : Prop where
  nodup : ((edit.newAt level).map FileMetaData.number).Nodup
  fresh : ∀ f ∈ edit.newAt level, ∀ record ∈ manifest, ∀ g ∈ record.newAt level, g.number ≠ f.number

theorem FreshIn.of_added {level : ℕ} (h : FreshIn manifest edit level) :
    ∀ f ∈ edit.newAt level, ∀ g ∈ (replayed manifest level).addedFiles, g.number ≠ f.number := by
  intro f hf g hg
  obtain ⟨record, hrecord, hnew⟩ := exists_record_of_added hg
  exact h.fresh f hf record hrecord g hnew

theorem mem_recoveredFiles_append {level : ℕ} (hlevel : level < kNumLevels)
    (hfresh : FreshIn manifest edit level) {f : FileMetaData K} :
    f ∈ recoveredFiles (manifest ++ [edit]) level ↔
      (f ∈ recoveredFiles manifest level ∧ f.number ∉ edit.deletedAt level) ∨ f ∈ edit.newAt level := by
  rw [recoveredFiles_of_lt _ hlevel, recoveredFiles_of_lt _ hlevel, replayed_append]
  exact mem_keptFiles_apply hfresh.nodup hfresh.of_added

theorem recoveredFiles_ordered (manifest : List (VersionEdit K)) (level : ℕ) :
    Ordered (recoveredFiles manifest level) := by
  have hadded : Ordered (replayed manifest level).addedFiles := by
    induction manifest using List.reverseRecOn with
    | nil => exact .nil
    | append_singleton manifest edit ih =>
      rw [replayed_append]
      exact apply_ordered edit ih
  unfold recoveredFiles savedFiles
  split
  · exact keptFiles_ordered .nil hadded (by simp)
  · exact .nil

/-! ## What Recover returns -/

theorem foldl_apply_builder (manifest : List (VersionEdit K)) (replay : Replay K) :
    (manifest.foldl Replay.apply replay).builder = manifest.foldl Builder.apply replay.builder := by
  induction manifest generalizing replay with
  | nil => rfl
  | cons edit rest ih => rw [foldl_cons, ih]; rfl

def Comparable (comparator : String) (edit : VersionEdit K) : Prop :=
  ∀ name, edit.comparator = some name → name = comparator

theorem read_eq (h : Comparable comparator edit) (replay : Replay K) :
    replay.read comparator edit = .ok (replay.apply edit) := by
  unfold Replay.read
  split
  · rename_i name hname
    rw [if_neg (not_not.mpr (h name hname))]
  · rfl

theorem foldlM_read (h : ∀ record ∈ manifest, Comparable comparator record) (replay : Replay K) :
    manifest.foldlM (Replay.read comparator) replay = .ok (manifest.foldl Replay.apply replay) := by
  induction manifest generalizing replay with
  | nil => rfl
  | cons edit rest ih =>
    rw [foldlM_cons, read_eq (h edit mem_cons_self)]
    exact ih (fun record hrecord ↦ h record (mem_cons_of_mem edit hrecord)) _

theorem apply_of_read {replay replay' : Replay K} (h : replay.read comparator edit = .ok replay') :
    replay' = replay.apply edit := by
  unfold Replay.read at h
  split at h
  · split at h
    · cases h
    · exact (Except.ok.inj h).symm
  · exact (Except.ok.inj h).symm

theorem foldl_apply_of_read {replay replay' : Replay K}
    (h : manifest.foldlM (Replay.read comparator) replay = .ok replay') :
    replay' = manifest.foldl Replay.apply replay := by
  induction manifest generalizing replay with
  | nil => exact (Except.ok.inj h).symm
  | cons edit rest ih =>
    rw [foldlM_cons] at h
    cases hread : replay.read comparator edit with
    | error e => rw [hread] at h; cases h
    | ok next =>
      rw [hread] at h
      rw [ih h, apply_of_read hread]
      rfl

def Replay.versionSet (manifest : List (VersionEdit K)) (nextFile logNumber lastSequence : ℕ) :
    VersionSet K where
  current := recoveredFiles manifest
  compactPointer := (manifest.foldl Replay.apply {}).compactPointer
  nextFileNumber := nextFile + 1
  manifestFileNumber := nextFile
  lastSequence := lastSequence
  logNumber := logNumber
  prevLogNumber := (manifest.foldl Replay.apply {}).prevLogNumber.getD 0

/-- `Recover` succeeds when the comparator fits, the levels above 0 come out without overlap and every
required field is in some record. -/
theorem recover_eq (hcomparable : ∀ record ∈ manifest, Comparable comparator record)
    (hseparated : ∀ level, 0 < level → Separated (recoveredFiles manifest level))
    {nextFile logNumber lastSequence : ℕ}
    (hnext : (manifest.foldl Replay.apply {}).nextFile = some nextFile)
    (hlog : (manifest.foldl Replay.apply {}).logNumber = some logNumber)
    (hlast : (manifest.foldl Replay.apply {}).lastSequence = some lastSequence) :
    recover comparator manifest = .ok (Replay.versionSet manifest nextFile logNumber lastSequence) := by
  have hbuilder : (manifest.foldl Replay.apply {}).builder = replayed manifest := foldl_apply_builder _ _
  have hsave : (replayed manifest).saveTo (fun _ ↦ []) = some (recoveredFiles manifest) := by
    apply saveTo_of_separated
    intro level hpos hlevel
    rw [← recoveredFiles_of_lt manifest hlevel]
    exact hseparated level hpos
  unfold recover
  rw [foldlM_read hcomparable]
  change (manifest.foldl Replay.apply {}).finish = _
  unfold Replay.finish
  simp only [hnext, hlog, hlast, hbuilder, hsave]
  rfl

theorem versionSet_of_recover {vs : VersionSet K} (h : recover comparator manifest = .ok vs) :
    ∃ nextFile logNumber lastSequence, (manifest.foldl Replay.apply {}).nextFile = some nextFile ∧
      (manifest.foldl Replay.apply {}).logNumber = some logNumber ∧
      (manifest.foldl Replay.apply {}).lastSequence = some lastSequence ∧
      vs = Replay.versionSet manifest nextFile logNumber lastSequence := by
  unfold recover at h
  cases hread : manifest.foldlM (Replay.read comparator) {} with
  | error e => rw [hread] at h; cases h
  | ok replay =>
    rw [hread] at h
    have hreplay := foldl_apply_of_read hread
    change replay.finish = _ at h
    unfold Replay.finish at h
    split at h
    · cases h
    · cases h
    · cases h
    · rename_i nextFile logNumber lastSequence hnext hlog hlast
      split at h
      · cases h
      · rename_i v hsave
        subst hreplay
        rw [foldl_apply_builder] at hsave
        have hv : v = recoveredFiles manifest := eq_savedFiles_of_saveTo hsave
        subst hv
        exact ⟨nextFile, logNumber, lastSequence, hnext, hlog, hlast, (Except.ok.inj h).symm⟩

/-! ## Runs of the descriptor log -/

/-- A version set and the MANIFEST that it writes. -/
structure LogState (K : Type*) where
  vs : VersionSet K
  manifest : List (VersionEdit K)

/-- The operations on a version set between and with calls of `LogAndApply`. -/
inductive LogAction (K : Type*)
  | newFileNumber
  | markFileNumberUsed (number : ℕ)
  | setLastSequence (sequence : ℕ)
  /-- `SetupOtherInputs` moves `compact_pointer_` before the edit is installed. -/
  | setCompactPointer (level : ℕ) (key : InternalKey K)
  | logAndApply (edit : VersionEdit K)

def LogState.step (comparator : String) (state : LogState K) : LogAction K → Outcome (LogState K)
  | .newFileNumber => .next { state with vs := state.vs.newFileNumber }
  | .markFileNumberUsed number => .next { state with vs := state.vs.markFileNumberUsed number }
  | .setLastSequence sequence =>
    if state.vs.lastSequence ≤ sequence then
      .next { state with vs := { state.vs with lastSequence := sequence } }
    else .abort
  | .setCompactPointer level key =>
    .next { state with vs := { state.vs with
      compactPointer := Function.update state.vs.compactPointer level (some key) } }
  | .logAndApply edit =>
    .ofOption ((state.vs.logAndApply comparator state.manifest edit).map fun p ↦ ⟨p.1, p.2⟩)

/-- The file lists of a version that `SaveTo` has stored, under numbers that have been given out. -/
structure Listed (vs : VersionSet K) : Prop where
  ordered : ∀ level, Ordered (vs.current level)
  nodup : ∀ level, ((vs.current level).map FileMetaData.number).Nodup
  last : ∀ level, kNumLevels ≤ level → vs.current level = []
  number_lt : ∀ level, ∀ f ∈ vs.current level, f.number < vs.nextFileNumber

/-- Runs start with a version set that has not written its MANIFEST. -/
def descriptorLog (comparator : String) (start : VersionSet K) : Machine (LogState K) (LogAction K) where
  init state := state = ⟨start, []⟩ ∧ start.descriptorLog = false
  step := LogState.step comparator

/-- What the calls of a run describe. -/
structure Applied (K : Type*) where
  files : ℕ → List (FileMetaData K)
  logNumber : ℕ
  prevLogNumber : ℕ
  sequence : ℕ
  /-- The sequence number at the last edit. -/
  savedSequence : ℕ

/-- The files of a level that an edit does not delete and those that it adds, in order. -/
def editedLevel (edit : VersionEdit K) (level : ℕ) (files : List (FileMetaData K)) : List (FileMetaData K) :=
  ((files.filter fun f ↦ decide (f.number ∉ edit.deletedAt level)) ++ edit.newAt level).mergeSort
    fun f g ↦ decide (bySmallestKey f ≤ bySmallestKey g)

def Applied.next (applied : Applied K) : LogAction K → Applied K
  | .setLastSequence sequence => { applied with sequence }
  | .logAndApply edit =>
    { applied with
      files := fun level ↦ editedLevel edit level (applied.files level)
      logNumber := edit.logNumber.getD applied.logNumber
      prevLogNumber := edit.prevLogNumber.getD applied.prevLogNumber
      savedSequence := applied.sequence }
  | _ => applied

def applied (start : VersionSet K) (actions : List (LogAction K)) : Applied K :=
  actions.foldl Applied.next
    ⟨start.current, start.logNumber, start.prevLogNumber, start.lastSequence, start.lastSequence⟩

/-- What `LogAndApply` requires of an edit: numbers that are given out and that the level has not seen
before.  A file may come back at another level. -/
structure Installable (comparator : String) (state : LogState K) (edit : VersionEdit K) : Prop where
  comparable : Comparable comparator edit
  number_lt : ∀ level, ∀ f ∈ edit.newAt level, f.number < state.vs.nextFileNumber
  fresh : ∀ level, FreshIn state.manifest edit level
  fresh_current : ∀ level, ∀ f ∈ edit.newAt level, ∀ g ∈ state.vs.current level, g.number ≠ f.number

/-- The condition on the steps of a run. -/
def InstallsFresh (comparator : String) (state : LogState K) : LogAction K → Prop
  | .logAndApply edit => Installable comparator state edit
  | _ => True

/-- The MANIFEST leads to the version set. -/
structure Logged (comparator : String) (state : LogState K) : Prop where
  comparable : ∀ record ∈ state.manifest, Comparable comparator record
  files : recoveredFiles state.manifest = state.vs.current
  separated : ∀ level, 0 < level → Separated (state.vs.current level)
  last_record : ∃ records record nextFile lastSequence, state.manifest = records ++ [record] ∧
    record.logNumber = some state.vs.logNumber ∧
    record.prevLogNumber = some state.vs.prevLogNumber ∧
    record.nextFileNumber = some nextFile ∧ record.lastSequence = some lastSequence ∧
    ∀ level, ∀ f ∈ state.vs.current level, f.number < nextFile

structure LogInvariant (comparator : String) (state : LogState K) : Prop where
  listed : Listed state.vs
  logged : state.vs.descriptorLog = true → Logged comparator state
  empty : state.vs.descriptorLog = false → state.manifest = []

variable {state : LogState K}

theorem recoveredFiles_writeSnapshot (comparator : String) {vs : VersionSet K} (h : Listed vs) :
    recoveredFiles [vs.writeSnapshot comparator] = vs.current := by
  funext level
  by_cases hlevel : level < kNumLevels
  · apply Ordered.eq_of_mem_iff (recoveredFiles_ordered _ level) (h.ordered level)
    intro f
    have hnew := newAt_writeSnapshot comparator vs hlevel
    have hfresh : FreshIn [] (vs.writeSnapshot comparator) level :=
      ⟨by rw [hnew]; exact h.nodup level, by simp⟩
    rw [← nil_append [vs.writeSnapshot comparator], mem_recoveredFiles_append hlevel hfresh, hnew,
      recoveredFiles_of_lt _ hlevel]
    simp [replayed, Builder.empty, LevelState.empty, mem_keptFiles]
  · rw [recoveredFiles_last _ (Nat.not_lt.mp hlevel), h.last level (Nat.not_lt.mp hlevel)]

/-- The records before the one of this call: a new MANIFEST starts with a snapshot. -/
def recordsBefore (comparator : String) (vs : VersionSet K) (manifest : List (VersionEdit K))
    (edit : VersionEdit K) : List (VersionEdit K) :=
  if vs.descriptorLog then manifest
  else [VersionSet.writeSnapshot comparator
    { vs with compactPointer := applyCompactPointers edit vs.compactPointer }]

theorem logAndApply_spec {vs vs' : VersionSet K} {manifest manifest' : List (VersionEdit K)}
    (h : vs.logAndApply comparator manifest edit = some (vs', manifest')) :
    (Builder.empty.apply edit).saveTo vs.current = some vs'.current ∧
      manifest' = recordsBefore comparator vs manifest edit ++ [vs.completeEdit edit] ∧
      vs'.logNumber = edit.logNumber.getD vs.logNumber ∧
      vs'.prevLogNumber = edit.prevLogNumber.getD vs.prevLogNumber ∧
      vs'.nextFileNumber = vs.nextFileNumber ∧ vs'.descriptorLog = true ∧
      vs'.lastSequence = vs.lastSequence := by
  unfold VersionSet.logAndApply at h
  split at h
  · obtain ⟨v, hsave, heq⟩ := Option.map_eq_some_iff.mp h
    cases heq
    exact ⟨hsave, rfl, rfl, rfl, rfl, rfl, rfl⟩
  · cases h

theorem Listed.applied (h : Listed state.vs) (hedit : Installable comparator state edit)
    {vs' : VersionSet K} (hcurrent : vs'.current = editedFiles state.vs.current edit)
    (hnext : vs'.nextFileNumber = state.vs.nextFileNumber) : Listed vs' := by
  have hfresh : ∀ level, FreshAt state.vs.current edit level := fun level ↦
    ⟨(hedit.fresh level).nodup, hedit.fresh_current level⟩
  have hordered : ∀ level, Ordered (vs'.current level) := by
    intro level
    rw [hcurrent]
    exact editedFiles_ordered (hfresh level) (h.ordered level)
  have hmem : ∀ level, ∀ f ∈ vs'.current level, f ∈ state.vs.current level ∨ f ∈ edit.newAt level := by
    intro level f hf
    rw [hcurrent] at hf
    by_cases hlevel : level < kNumLevels
    · exact ((mem_editedFiles hlevel (hfresh level)).mp hf).imp_left And.left
    · rw [editedFiles, savedFiles, if_neg hlevel] at hf
      cases hf
  refine ⟨hordered, ?_, ?_, ?_⟩
  · intro level
    refine List.Nodup.map_on ?_ ((hordered level).imp fun hlt heq ↦ hlt.ne (congrArg bySmallestKey heq))
    intro f hf g hg hnumber
    rcases hmem level f hf with hf | hf <;> rcases hmem level g hg with hg | hg
    · exact inj_on_of_nodup_map (h.nodup level) hf hg hnumber
    · exact absurd hnumber (hedit.fresh_current level g hg f hf)
    · exact absurd hnumber.symm (hedit.fresh_current level f hf g hg)
    · exact inj_on_of_nodup_map (hedit.fresh level).nodup hf hg hnumber
  · intro level hlevel
    rw [hcurrent, editedFiles, savedFiles, if_neg (Nat.not_lt.mpr hlevel)]
  · intro level f hf
    rw [hnext]
    exact (hmem level f hf).elim (h.number_lt level f) (hedit.number_lt level f)

theorem LogInvariant.recordsBefore (h : LogInvariant comparator state)
    (hedit : Installable comparator state edit) :
    recoveredFiles (recordsBefore comparator state.vs state.manifest edit) = state.vs.current ∧
      (∀ level, FreshIn (recordsBefore comparator state.vs state.manifest edit) edit level) ∧
      ∀ record ∈ recordsBefore comparator state.vs state.manifest edit, Comparable comparator record := by
  unfold Manifest.recordsBefore
  split
  · rename_i hopen
    exact ⟨(h.logged hopen).files, hedit.fresh, (h.logged hopen).comparable⟩
  · refine ⟨recoveredFiles_writeSnapshot comparator ⟨h.listed.ordered, h.listed.nodup, h.listed.last,
      h.listed.number_lt⟩, ?_, ?_⟩
    · intro level
      refine ⟨(hedit.fresh level).nodup, ?_⟩
      intro f hf record hrecord g hg
      rw [mem_singleton.mp hrecord] at hg
      have hcurrent : g ∈ state.vs.current level := by
        simp only [VersionEdit.mem_newAt, VersionSet.writeSnapshot, mem_flatMap, mem_map,
          Prod.mk.injEq] at hg
        obtain ⟨l, -, f', hf', rfl, rfl⟩ := hg
        exact hf'
      exact hedit.fresh_current level f hf g hcurrent
    · intro record hrecord name hname
      rw [mem_singleton.mp hrecord] at hname
      exact (Option.some.inj hname).symm

theorem LogInvariant.logAndApply (h : LogInvariant comparator state)
    (hedit : Installable comparator state edit) {vs' : VersionSet K} {manifest' : List (VersionEdit K)}
    (hcall : state.vs.logAndApply comparator state.manifest edit = some (vs', manifest')) :
    LogInvariant comparator ⟨vs', manifest'⟩ := by
  obtain ⟨hsave, hmanifest, hlog, hprev, hnext, hopen, -⟩ := logAndApply_spec hcall
  obtain ⟨hfiles, hfresh, hcomparable⟩ := h.recordsBefore hedit
  have hcurrent : vs'.current = editedFiles state.vs.current edit := eq_savedFiles_of_saveTo hsave
  have hlisted : Listed vs' := h.listed.applied hedit hcurrent hnext
  refine ⟨hlisted, fun _ ↦ ⟨?_, ?_, ?_, ?_⟩, fun hclosed ↦ ?_⟩
  · intro record hrecord
    rw [hmanifest] at hrecord
    rcases mem_append.mp hrecord with hrecord | hrecord
    · exact hcomparable record hrecord
    · rw [mem_singleton.mp hrecord]
      exact hedit.comparable
  · -- the batched builder and the stepwise one keep the same files in the same order
    funext level
    by_cases hlevel : level < kNumLevels
    · apply Ordered.eq_of_mem_iff (recoveredFiles_ordered _ level) (hlisted.ordered level)
      intro f
      have hrecord : FreshIn (Manifest.recordsBefore comparator state.vs state.manifest edit)
          (state.vs.completeEdit edit) level := ⟨(hfresh level).nodup, (hfresh level).fresh⟩
      subst hmanifest
      rw [mem_recoveredFiles_append hlevel hrecord, hfiles, hcurrent,
        mem_editedFiles hlevel ⟨(hfresh level).nodup, hedit.fresh_current level⟩]
      rfl
    · rw [recoveredFiles_last _ (Nat.not_lt.mp hlevel), hlisted.last level (Nat.not_lt.mp hlevel)]
  · exact fun level hpos ↦ separated_of_saveTo hsave hpos
  · refine ⟨_, _, state.vs.nextFileNumber, state.vs.lastSequence, hmanifest, ?_, ?_, rfl, rfl, ?_⟩
    · rw [hlog]
      rfl
    · rw [hprev]
      rfl
    · intro level f hf
      rw [← hnext]
      exact hlisted.number_lt level f hf
  · rw [hopen] at hclosed
    cases hclosed

/-- An operation that leaves the version and the log numbers and takes back no file number. -/
theorem LogInvariant.of_same (h : LogInvariant comparator state) {vs' : VersionSet K}
    (hcurrent : vs'.current = state.vs.current)
    (hlog : vs'.logNumber = state.vs.logNumber) (hprev : vs'.prevLogNumber = state.vs.prevLogNumber)
    (hopen : vs'.descriptorLog = state.vs.descriptorLog)
    (hnext : state.vs.nextFileNumber ≤ vs'.nextFileNumber) :
    LogInvariant comparator { state with vs := vs' } := by
  refine ⟨⟨?_, ?_, ?_, ?_⟩, fun hlogged ↦ ?_, fun hclosed ↦ h.empty (hopen ▸ hclosed)⟩
  · exact hcurrent ▸ h.listed.ordered
  · exact hcurrent ▸ h.listed.nodup
  · exact hcurrent ▸ h.listed.last
  · intro level f hf
    exact (h.listed.number_lt level f (hcurrent ▸ hf)).trans_le hnext
  · have hstate := h.logged (hopen ▸ hlogged)
    refine ⟨hstate.comparable, ?_, ?_, ?_⟩
    · exact hstate.files.trans hcurrent.symm
    · exact hcurrent ▸ hstate.separated
    · rw [hcurrent, hlog, hprev]
      exact hstate.last_record

theorem LogInvariant.step {state state' : LogState K} (h : LogInvariant comparator state)
    {action : LogAction K} (hsafe : InstallsFresh comparator state action)
    (hstep : state.step comparator action = .next state') : LogInvariant comparator state' := by
  cases action with
  | newFileNumber =>
    cases hstep
    exact h.of_same rfl rfl rfl rfl (Nat.le_succ _)
  | markFileNumberUsed number =>
    cases hstep
    apply h.of_same _ _ _ _ (state.vs.le_markFileNumberUsed number)
    all_goals
      unfold VersionSet.markFileNumberUsed
      split <;> rfl
  | setLastSequence sequence =>
    unfold LogState.step at hstep
    dsimp only at hstep
    split at hstep
    · cases hstep
      exact h.of_same rfl rfl rfl rfl le_rfl
    · cases hstep
  | setCompactPointer level key =>
    cases hstep
    exact h.of_same rfl rfl rfl rfl le_rfl
  | logAndApply edit =>
    rw [LogState.step, Outcome.ofOption_eq_next, Option.map_eq_some_iff] at hstep
    obtain ⟨⟨vs', manifest'⟩, hcall, rfl⟩ := hstep
    exact h.logAndApply hsafe hcall

/-- The version set is what the calls describe. -/
structure Follows (applied : Applied K) (state : LogState K) : Prop where
  files : ∀ level < kNumLevels, state.vs.current level = applied.files level
  logNumber : state.vs.logNumber = applied.logNumber
  prevLogNumber : state.vs.prevLogNumber = applied.prevLogNumber
  sequence : state.vs.lastSequence = applied.sequence
  saved : ∀ record ∈ state.manifest.getLast?, record.lastSequence = some applied.savedSequence

/-- What `SaveTo` stores for one edit. -/
theorem editedFiles_eq_editedLevel {files : ℕ → List (FileMetaData K)} {level : ℕ} (hlevel : level < kNumLevels)
    (hfresh : FreshAt files edit level) (hordered : Ordered (files level))
    (hnodup : ((files level).map FileMetaData.number).Nodup) :
    editedFiles files edit level = editedLevel edit level (files level) := by
  apply Ordered.eq_of_mem_iff (editedFiles_ordered hfresh hordered)
  · have hsorted : (editedLevel edit level (files level)).Pairwise
        fun f g ↦ bySmallestKey f ≤ bySmallestKey g := by
      refine (pairwise_mergeSort ?_ ?_ _).imp of_decide_eq_true
      · intro f g k hfg hgk
        exact decide_eq_true ((of_decide_eq_true hfg).trans (of_decide_eq_true hgk))
      · intro f g
        rw [Bool.or_eq_true, decide_eq_true_eq, decide_eq_true_eq]
        exact le_total _ _
    have hnumbers : ((editedLevel edit level (files level)).map FileMetaData.number).Nodup := by
      refine ((mergeSort_perm _ _).map _).nodup_iff.mpr ?_
      rw [map_append, nodup_append]
      refine ⟨hnodup.sublist (filter_sublist.map _), hfresh.nodup, ?_⟩
      intro a ha b hb
      obtain ⟨g, hg, rfl⟩ := mem_map.mp ha
      obtain ⟨f, hf, rfl⟩ := mem_map.mp hb
      exact hfresh.fresh f hf g (mem_of_mem_filter hg)
    refine (hsorted.and (pairwise_map.mp hnumbers)).imp ?_
    rintro f g ⟨hle, hne⟩
    exact lt_of_le_of_ne hle (bySmallestKey_ne hne)
  · intro f
    rw [mem_editedFiles hlevel hfresh, editedLevel, mem_mergeSort, mem_append, mem_filter,
      decide_eq_true_eq]

theorem Follows.logAndApply {applied : Applied K} (h : Follows applied state) (hlisted : Listed state.vs)
    (hedit : Installable comparator state edit) {vs' : VersionSet K} {manifest' : List (VersionEdit K)}
    (hcall : state.vs.logAndApply comparator state.manifest edit = some (vs', manifest')) :
    Follows (applied.next (.logAndApply edit)) ⟨vs', manifest'⟩ := by
  obtain ⟨hsave, hmanifest, hlog, hprev, -, -, hsequence⟩ := logAndApply_spec hcall
  refine ⟨fun level hlevel ↦ ?_, ?_, ?_, hsequence.trans h.sequence, ?_⟩
  · have hcurrent : vs'.current = editedFiles state.vs.current edit := eq_savedFiles_of_saveTo hsave
    dsimp only [Applied.next]
    rw [hcurrent, ← h.files level hlevel]
    exact editedFiles_eq_editedLevel hlevel ⟨(hedit.fresh level).nodup, hedit.fresh_current level⟩
      (hlisted.ordered level) (hlisted.nodup level)
  · exact hlog.trans (congrArg edit.logNumber.getD h.logNumber)
  · exact hprev.trans (congrArg edit.prevLogNumber.getD h.prevLogNumber)
  · intro record hrecord
    dsimp only at hrecord
    rw [hmanifest, getLast?_append] at hrecord
    cases hrecord
    exact congrArg some h.sequence

theorem Follows.step {applied : Applied K} {state' : LogState K} (h : Follows applied state)
    (hlisted : Listed state.vs) {action : LogAction K} (hsafe : InstallsFresh comparator state action)
    (hstep : state.step comparator action = .next state') : Follows (applied.next action) state' := by
  cases action with
  | newFileNumber =>
    cases hstep
    exact ⟨h.files, h.logNumber, h.prevLogNumber, h.sequence, h.saved⟩
  | markFileNumberUsed number =>
    cases hstep
    unfold VersionSet.markFileNumberUsed
    split
    · exact ⟨h.files, h.logNumber, h.prevLogNumber, h.sequence, h.saved⟩
    · exact h
  | setLastSequence sequence =>
    unfold LogState.step at hstep
    dsimp only at hstep
    split at hstep
    · cases hstep
      exact ⟨h.files, h.logNumber, h.prevLogNumber, rfl, h.saved⟩
    · cases hstep
  | setCompactPointer level key =>
    cases hstep
    exact ⟨h.files, h.logNumber, h.prevLogNumber, h.sequence, h.saved⟩
  | logAndApply edit =>
    rw [LogState.step, Outcome.ofOption_eq_next, Option.map_eq_some_iff] at hstep
    obtain ⟨⟨vs', manifest'⟩, hcall, rfl⟩ := hstep
    exact h.logAndApply hlisted hsafe hcall

theorem logInvariant_of_run {start : VersionSet K} (hstart : Listed start) {actions : List (LogAction K)}
    (hrun : (descriptorLog comparator start).Run (InstallsFresh comparator) actions state) :
    LogInvariant comparator state ∧ Follows (applied start actions) state := by
  refine hrun.invariant
    (P := fun actions state ↦ LogInvariant comparator state ∧ Follows (applied start actions) state) ?_ ?_
  · rintro _ ⟨rfl, hclosed⟩
    refine ⟨⟨hstart, fun hopen ↦ ?_, fun _ ↦ rfl⟩, fun _ _ ↦ rfl, rfl, rfl, rfl, by simp⟩
    rw [hclosed] at hopen
    cases hopen
  · rintro actions state action state' ⟨hinvariant, hfollows⟩ hsafe hstep
    rw [applied, foldl_append]
    exact ⟨hinvariant.step hsafe hstep, hfollows.step hinvariant.listed hsafe hstep⟩

/-- What `Recover` makes of a MANIFEST that leads to the version set. -/
theorem Logged.recover_eq (h : Logged comparator state) :
    ∃ vs record, recover comparator state.manifest = .ok vs ∧ state.manifest.getLast? = some record ∧
      vs.current = state.vs.current ∧ vs.logNumber = state.vs.logNumber ∧
      vs.prevLogNumber = state.vs.prevLogNumber ∧ record.lastSequence = some vs.lastSequence ∧
      ∀ level, ∀ f ∈ vs.current level, f.number < vs.nextFileNumber := by
  obtain ⟨records, record, nextFile, lastSequence, hmanifest, hlog, hprev, hnext, hlast, hlt⟩ :=
    h.last_record
  -- every field is taken from the last record
  have hreplay : state.manifest.foldl Replay.apply {} = (records.foldl Replay.apply {}).apply record := by
    rw [hmanifest, foldl_append]
    rfl
  have hrecover : recover comparator state.manifest =
      .ok (Replay.versionSet state.manifest nextFile state.vs.logNumber lastSequence) := by
    apply Manifest.recover_eq h.comparable
    · rw [h.files]
      exact h.separated
    · rw [hreplay, Replay.apply, hnext]
      rfl
    · rw [hreplay, Replay.apply, hlog]
      rfl
    · rw [hreplay, Replay.apply, hlast]
      rfl
  refine ⟨_, record, hrecover, ?_, h.files, rfl, ?_, hlast, ?_⟩
  · rw [hmanifest, getLast?_append]
    rfl
  · simp only [Replay.versionSet, hreplay, Replay.apply, hprev, Option.some_or, Option.getD_some]
  · intro level f hf
    calc f.number < nextFile := hlt level f (h.files ▸ hf)
      _ < nextFile + 1 := Nat.lt_succ_self _

/-- The condition on the steps as a test. -/
def installsFresh (comparator : String) (state : LogState K) : LogAction K → Bool
  | .logAndApply edit =>
    edit.comparator.all (fun name ↦ decide (name = comparator)) &&
    decide (edit.newFiles.map fun p ↦ (p.1, p.2.number)).Nodup &&
    edit.newFiles.all fun p ↦ decide (p.2.number < state.vs.nextFileNumber ∧
      (∀ record ∈ state.manifest, ∀ q ∈ record.newFiles, q.1 = p.1 → q.2.number ≠ p.2.number) ∧
      ∀ g ∈ state.vs.current p.1, g.number ≠ p.2.number)
  | _ => true

omit [LinearOrder K] in
theorem InstallsFresh.of_test {action : LogAction K} (h : installsFresh comparator state action = true) :
    InstallsFresh comparator state action := by
  cases action with
  | logAndApply edit =>
    simp only [installsFresh, Bool.and_eq_true, decide_eq_true_eq, all_eq_true] at h
    obtain ⟨⟨hname, hnodup⟩, hfiles⟩ := h
    refine ⟨?_, ?_, ?_, ?_⟩
    · intro name heq
      simpa [heq] using hname
    · intro level f hf
      exact (hfiles (level, f) (VersionEdit.mem_newAt.mp hf)).1
    · intro level
      constructor
      · have hsub := hnodup.sublist ((filter_sublist (p := fun p ↦ decide (p.1 = level))).map _)
        apply List.Nodup.of_map (fun number ↦ (level, number))
        rw [VersionEdit.newAt, map_map, map_map]
        convert hsub using 1
        apply map_congr_left
        intro p hp
        have hlevel := mem_filter.mp hp
        simp_all
      · intro f hf record hrecord g hg
        have hfresh := (hfiles (level, f) (VersionEdit.mem_newAt.mp hf)).2.1
        exact hfresh record hrecord (level, g) (VersionEdit.mem_newAt.mp hg) rfl
    · intro level f hf g hg
      exact (hfiles (level, f) (VersionEdit.mem_newAt.mp hf)).2.2 g hg
  | _ => trivial

end LevelDB.Db.Manifest
