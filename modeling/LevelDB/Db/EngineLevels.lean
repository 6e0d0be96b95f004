import LevelDB.Db.Engine

/-!
# The levels stay sorted

The invariant of the database machine that needs no condition on its runs: memtables and tables are
sorted, sequence numbers grow from the files over the immutable to the active memtable, and the
files of every level above 0 lie apart.  The last point rests on the inputs of a compaction being
linked: a file that is flushed to the output level while the compaction runs avoids all inputs, so
it lies on one side of all of them and of everything that is made from them.
-/

namespace LevelDB.Db.Engine

open Format TableFiles VersionBuilder CompactionPick DropRules Lookup FileStore Library List Function

variable {K V : Type*}

section Entries

variable [Inhabited V]

theorem WriteOp.entry_sequence (op : WriteOp K V) (sequence : ℕ) :
    (op.entry sequence).sequence = sequence := by
  cases op <;> exact packSequenceAndType_div _ _

theorem WriteOp.entry_type (op : WriteOp K V) (sequence : ℕ) : (op.entry sequence).type.isSome := by
  cases op <;> simp [entry, Entry.type]

theorem mem_batchEntries {sequence : ℕ} {batch : List (WriteOp K V)} {e : Entry K V}
    (h : e ∈ batchEntries sequence batch) :
    e.type.isSome ∧ sequence ≤ e.sequence ∧ e.sequence < sequence + batch.length := by
  induction batch generalizing sequence with
  | nil => cases h
  | cons op rest ih =>
    rw [length_cons]
    rcases mem_cons.mp h with rfl | h
    · refine ⟨op.entry_type sequence, ?_⟩
      rw [op.entry_sequence]
      omega
    · obtain ⟨htype, hle, hlt⟩ := ih h
      exact ⟨htype, by omega, by omega⟩

theorem batchEntries_increasing (sequence : ℕ) (batch : List (WriteOp K V)) :
    (batchEntries sequence batch).Pairwise fun a b ↦ a.sequence < b.sequence := by
  induction batch generalizing sequence with
  | nil => exact .nil
  | cons op rest ih =>
    refine pairwise_cons.mpr ⟨fun e he ↦ ?_, ih (sequence + 1)⟩
    rw [op.entry_sequence]
    have := (mem_batchEntries he).2.1
    omega

end Entries

theorem key_ne_of_sequence_lt {a b : Entry K V} (h : a.sequence < b.sequence) : a.key ≠ b.key := by
  intro heq
  have : a.sequence = b.sequence := congrArg (fun key ↦ key.tag / 256) heq
  omega

theorem tag_lt_of_sequence_lt {a b : Entry K V} (h : a.sequence < b.sequence) : a.tag < b.tag := by
  by_contra hle
  have := Entry.sequence_le_of_tag_le (Nat.not_lt.mp hle)
  omega

def Written (lastSequence : ℕ) (e : Entry K V) : Prop := e.type.isSome ∧ e.sequence ≤ lastSequence

theorem Written.mono {s s' : ℕ} {e : Entry K V} (h : Written s e) (hle : s ≤ s') : Written s' e :=
  ⟨h.1, h.2.trans hle⟩

theorem Written.tag_le {s : ℕ} {e : Entry K V} (h : Written s e) (hs : s < kMaxSequenceNumber) :
    e.tag ≤ maxTag :=
  (Entry.tag_le_snapshotTag h.1 kMaxSequenceNumber).mpr (h.2.trans hs.le)

theorem tableMeta_eq_none {number fileSize : ℕ} {entries : List (Entry K V)}
    (h : tableMeta number fileSize entries = none) : entries = [] := by
  cases entries with
  | nil => rfl
  | cons e rest => simp [tableMeta, getLast?_cons] at h

def inputs (c : Compaction K) : List (FileMetaData K) := c.inputs0 ++ c.inputs1

/-- The tables of known files do not change when a new table is written. -/
theorem levelEntries_update (tables : ℕ → List (Entry K V)) {nextFileNumber : ℕ}
    {files : List (FileMetaData K)} (hnumber : ∀ f ∈ files, f.number < nextFileNumber)
    (entries : List (Entry K V)) :
    levelEntries (update tables nextFileNumber entries) files = levelEntries tables files := by
  unfold levelEntries
  apply flatMap_congr
  intro f hf
  exact update_of_ne (hnumber f hf).ne _ _

theorem levelEntries_append {tables : ℕ → List (Entry K V)} {outputs : List (FileMetaData K)}
    {f : FileMetaData K} :
    levelEntries tables (outputs ++ [f]) = levelEntries tables outputs ++ tables f.number := by
  simp [levelEntries]

theorem mem_inputs {c : Compaction K} {f : FileMetaData K} : f ∈ inputs c ↔ f ∈ c.inputs0 ∨ f ∈ c.inputs1 :=
  mem_append

variable [LinearOrder K]
  {state : State K V} {compact : CompactionState K V} {files : ℕ → List (FileMetaData K)}
  {tables : ℕ → List (Entry K V)} {nextFileNumber : ℕ} {imm : List (Entry K V)} {f : FileMetaData K}

theorem memTableAdd_sorted {mem : List (Entry K V)} (h : SortedEntries mem) (news : List (Entry K V)) :
    SortedEntries (news.foldl memTableAdd mem) := by
  induction news generalizing mem with
  | nil => exact h
  | cons e rest ih => exact ih (SortedLists.pairwise_insertByKey h)

theorem mem_foldl_memTableAdd {mem news : List (Entry K V)} (hfresh : ∀ a ∈ news, ∀ b ∈ mem, b.key ≠ a.key)
    (hnews : news.Pairwise fun a b ↦ a.key ≠ b.key) {e : Entry K V} :
    e ∈ news.foldl memTableAdd mem ↔ e ∈ mem ∨ e ∈ news := by
  induction news generalizing mem with
  | nil => simp
  | cons a rest ih =>
    rw [pairwise_cons] at hnews
    have hadd : ∀ x, x ∈ memTableAdd mem a ↔ x = a ∨ x ∈ mem := by
      intro x
      refine ⟨SortedLists.mem_of_mem_insertByKey, ?_⟩
      rintro (rfl | hx)
      · exact SortedLists.mem_insertByKey_self (hfresh x mem_cons_self)
      · exact SortedLists.mem_insertByKey_of_mem hx
    rw [foldl_cons, ih _ hnews.2, hadd, mem_cons]
    · tauto
    · intro b hb x hx
      rcases (hadd x).mp hx with rfl | hx
      · exact hnews.1 b hb
      · exact hfresh b (mem_cons_of_mem a hb) x hx

theorem tableMeta_spec {number fileSize : ℕ} {entries : List (Entry K V)} (hentries : SortedEntries entries)
    (h : tableMeta number fileSize entries = some f) : f.number = number ∧ TableOf f entries := by
  unfold tableMeta at h
  split at h
  · rename_i first last hfirst hlast
    cases h
    have hheadMem : first ∈ entries := mem_of_mem_head? hfirst
    have hlastMem : last ∈ entries := mem_of_getLast? hlast
    refine ⟨rfl, hentries, ?_, ?_, ⟨first, hheadMem, rfl⟩, ⟨last, hlastMem, rfl⟩⟩
    · obtain ⟨rest, rfl⟩ := head?_eq_some_iff.mp hfirst
      intro e he
      rcases mem_cons.mp he with rfl | he
      · exact le_rfl
      · exact ((pairwise_cons.mp hentries).1 e he).le
    · obtain ⟨init, rfl⟩ := getLast?_eq_some_iff.mp hlast
      intro e he
      rcases mem_append.mp he with he | he
      · exact ((pairwise_append.mp hentries).2.2 e he last mem_cons_self).le
      · rw [mem_singleton.mp he]
  · cases h

theorem keptFrom_sublist (files : ℕ → List (FileMetaData K)) (level smallestSnapshot : ℕ)
    (state : DropState K) (entries : List (Entry K V)) :
    (keptFrom files level smallestSnapshot state entries).Sublist entries := by
  induction entries generalizing state with
  | nil => exact .refl _
  | cons e rest ih =>
    simp only [keptFrom]
    split
    · exact (ih _).cons e
    · exact (ih _).cons_cons e

theorem mem_mergedInputs {c : Compaction K} {e : Entry K V} :
    e ∈ mergedInputs tables c ↔ e ∈ levelEntries tables (c.inputs0 ++ c.inputs1) := by
  unfold mergedInputs
  rw [mem_insertionSort]

theorem levelEntries_ne (hstored : WellStored files tables nextFileNumber) {chosen : List (FileMetaData K)}
    (hnumber : chosen.Pairwise fun f g ↦ f.number ≠ g.number) (hmem : ∀ f ∈ chosen, ∃ level, f ∈ files level) :
    (levelEntries tables chosen).Pairwise fun a b ↦ a.key ≠ b.key := by
  refine pairwise_flatMap.mpr ⟨fun f hf ↦ ?_, hnumber.imp_of_mem ?_⟩
  · obtain ⟨level, hf⟩ := hmem f hf
    exact (hstored.table level f hf).sorted.imp fun hlt ↦ hlt.ne
  · intro f g hf hg hne
    obtain ⟨i, hf⟩ := hmem f hf
    obtain ⟨j, hg⟩ := hmem g hg
    exact hstored.keys i f hf j g hg hne

theorem mergedInputs_sorted (hstored : WellStored files tables nextFileNumber) {c : Compaction K}
    (hinputs0 : c.inputs0.Sublist (files c.level)) (hinputs1 : c.inputs1.Sublist (files (c.level + 1))) :
    SortedEntries (mergedInputs tables c) := by
  have hnumber : (c.inputs0 ++ c.inputs1).Pairwise fun f g ↦ f.number ≠ g.number := by
    refine pairwise_append.mpr ⟨(hstored.number_ne _).sublist hinputs0,
      (hstored.number_ne _).sublist hinputs1, fun f hf g hg heq ↦ ?_⟩
    have := (hstored.number_inj _ f (hinputs0.subset hf) _ g (hinputs1.subset hg) heq).1
    omega
  have hmem : ∀ f ∈ c.inputs0 ++ c.inputs1, ∃ level, f ∈ files level := by
    intro f hf
    rcases mem_append.mp hf with hf | hf
    · exact ⟨_, hinputs0.subset hf⟩
    · exact ⟨_, hinputs1.subset hf⟩
  have hle : (mergedInputs tables c).Pairwise fun a b ↦ a.key ≤ b.key := pairwise_insertionSort _ _
  have hne : (mergedInputs tables c).Pairwise fun a b ↦ a.key ≠ b.key :=
    (perm_insertionSort _ _).symm.pairwise (levelEntries_ne hstored hnumber hmem) fun h ↦ h.symm
  exact (hle.and hne).imp fun h ↦ lt_of_le_of_ne h.1 h.2

def Aside (c : Compaction K) (g : FileMetaData K) : Prop :=
  (∀ f ∈ inputs c, g.largest < f.smallest) ∨ ∀ f ∈ inputs c, f.largest < g.smallest

/-- A running compaction: its inputs are still files of the current version, the other files of the
output level lie aside, and its outputs are cut from a sorted run of input entries. -/
structure RunningOk (files : ℕ → List (FileMetaData K)) (tables : ℕ → List (Entry K V))
    (nextFileNumber : ℕ) (compact : CompactionState K V) : Prop where
  level_lt : compact.compaction.level + 1 < kNumLevels
  inputs0 : ∀ f ∈ compact.compaction.inputs0, f ∈ files compact.compaction.level
  inputs1 : ∀ f ∈ compact.compaction.inputs1, f ∈ files (compact.compaction.level + 1)
  linked : Ranges.Linked FileMetaData.lo FileMetaData.hi {f | f ∈ inputs compact.compaction}
  aside : ∀ g ∈ files (compact.compaction.level + 1), g ∉ compact.compaction.inputs1 →
    Aside compact.compaction g
  kept_sorted : SortedEntries (levelEntries tables compact.outputs ++ compact.remaining)
  kept_mem : ∀ e ∈ levelEntries tables compact.outputs ++ compact.remaining,
    e ∈ levelEntries tables (inputs compact.compaction)
  output_table : ∀ f ∈ compact.outputs, TableOf f (tables f.number)
  output_increasing : compact.outputs.Pairwise fun f g ↦ f.number < g.number
  output_number : ∀ f ∈ compact.outputs, f.number < nextFileNumber
  output_fresh : ∀ f ∈ compact.outputs, ∀ level, ∀ g ∈ files level, g.number ≠ f.number

/-- The invariant of the machine. -/
structure Sound (state : State K V) : Prop where
  stored : WellStored state.current.files state.tables state.nextFileNumber
  pickable : state.current.Pickable
  last_lt : state.lastSequence < kMaxSequenceNumber
  mem_sorted : SortedEntries state.mem
  mem_written : ∀ e ∈ state.mem, Written state.lastSequence e
  imm_sorted : ∀ imm, state.imm = some imm → SortedEntries imm
  imm_written : ∀ imm, state.imm = some imm → ∀ e ∈ imm, Written state.lastSequence e
  file_written : ∀ level, ∀ f ∈ state.current.files level, ∀ e ∈ state.tables f.number,
    Written state.lastSequence e
  imm_lt_mem : ∀ imm, state.imm = some imm → ∀ a ∈ imm, ∀ b ∈ state.mem, a.sequence < b.sequence
  file_lt_mem : ∀ level, ∀ f ∈ state.current.files level, ∀ a ∈ state.tables f.number,
    ∀ b ∈ state.mem, a.sequence < b.sequence
  file_lt_imm : ∀ level, ∀ f ∈ state.current.files level, ∀ a ∈ state.tables f.number,
    ∀ imm, state.imm = some imm → ∀ b ∈ imm, a.sequence < b.sequence
  running : ∀ compact, state.running = some compact →
    RunningOk state.current.files state.tables state.nextFileNumber compact

theorem pickable_finalize (scoring : Scoring K)
    (hvalid : ∀ level, ∀ f ∈ files level, f.smallest ≤ f.largest) : (finalize scoring files).Pickable :=
  ⟨marksInRange_finalize scoring files, hvalid⟩

theorem Sound.empty (scoring : Scoring K) (nextFileNumber : ℕ) :
    Sound (State.empty scoring nextFileNumber : State K V) where
  stored := wellStored_empty _ _
  pickable := pickable_finalize scoring (by simp)
  last_lt := show 0 < kMaxSequenceNumber by decide
  mem_sorted := .nil
  mem_written := by simp [State.empty]
  imm_sorted := by simp [State.empty]
  imm_written := by simp [State.empty]
  file_written := by simp [State.empty, finalize]
  imm_lt_mem := by simp [State.empty]
  file_lt_mem := by simp [State.empty]
  file_lt_imm := by simp [State.empty]
  running := by simp [State.empty]

/-! ## Steps that leave the files alone -/

/-- A running compaction does not mind file numbers that are used elsewhere. -/
theorem RunningOk.mono {nextFileNumber next : ℕ} (h : RunningOk files tables nextFileNumber compact)
    (hle : nextFileNumber ≤ next) : RunningOk files tables next compact :=
  { h with output_number := fun f hf ↦ (h.output_number f hf).trans_le hle }

theorem Sound.afterGet (h : Sound state) (userKey : K) (snapshot : ℕ) :
    Sound (state.afterGet userKey snapshot) := by
  unfold State.afterGet
  dsimp only
  split
  · exact h
  · unfold updateStats
    split
    · exact h
    · rename_i f level hseek
      dsimp only
      split
      · refine { h with pickable := ⟨⟨h.pickable.due, fun g l hg ↦ ?_⟩, h.pickable.valid⟩ }
        cases hg
        exact versionGet_seekFile hseek
      · exact { h with }

section Steps

variable [Inhabited V] {scoring : Scoring K} {state state' : State K V}

theorem Sound.write (h : Sound state) {batch : List (WriteOp K V)}
    (hstep : step scoring state (.write batch) = .next state') : Sound state' := by
  simp only [step, Outcome.guarded_eq_next, Outcome.next.injEq] at hstep
  obtain ⟨hlt, rfl⟩ := hstep
  have hle : state.lastSequence ≤ state.lastSequence + batch.length := Nat.le_add_right _ _
  have hnew : ∀ e ∈ batchEntries (state.lastSequence + 1) batch,
      Written (state.lastSequence + batch.length) e ∧ state.lastSequence < e.sequence := by
    intro e he
    obtain ⟨htype, hlo, hhi⟩ := mem_batchEntries he
    exact ⟨⟨htype, by omega⟩, by omega⟩
  have hmem : ∀ e, e ∈ (batchEntries (state.lastSequence + 1) batch).foldl memTableAdd state.mem ↔
      e ∈ state.mem ∨ e ∈ batchEntries (state.lastSequence + 1) batch := by
    intro e
    apply mem_foldl_memTableAdd
    · intro a ha b hb
      exact key_ne_of_sequence_lt ((h.mem_written b hb).2.trans_lt (hnew a ha).2)
    · exact (batchEntries_increasing _ _).imp key_ne_of_sequence_lt
  refine ⟨h.stored, h.pickable, hlt, memTableAdd_sorted h.mem_sorted _, ?_, h.imm_sorted, ?_, ?_, ?_,
    ?_, h.file_lt_imm, h.running⟩
  · intro e he
    rcases (hmem e).mp he with he | he
    · exact (h.mem_written e he).mono hle
    · exact (hnew e he).1
  · exact fun imm himm e he ↦ (h.imm_written imm himm e he).mono hle
  · exact fun level f hf e he ↦ (h.file_written level f hf e he).mono hle
  · intro imm himm a ha b hb
    rcases (hmem b).mp hb with hb | hb
    · exact h.imm_lt_mem imm himm a ha b hb
    · exact (h.imm_written imm himm a ha).2.trans_lt (hnew b hb).2
  · intro level f hf a ha b hb
    rcases (hmem b).mp hb with hb | hb
    · exact h.file_lt_mem level f hf a ha b hb
    · exact (h.file_written level f hf a ha).2.trans_lt (hnew b hb).2

theorem Sound.failedWrite (h : Sound state) {count : ℕ}
    (hstep : step scoring state (.failedWrite count) = .next state') : Sound state' := by
  simp only [step, Outcome.guarded_eq_next, Outcome.next.injEq] at hstep
  obtain ⟨hlt, rfl⟩ := hstep
  have hle : state.lastSequence ≤ state.lastSequence + count := Nat.le_add_right _ _
  exact { h with
    last_lt := hlt
    mem_written := fun e he ↦ (h.mem_written e he).mono hle
    imm_written := fun imm himm e he ↦ (h.imm_written imm himm e he).mono hle
    file_written := fun level f hf e he ↦ (h.file_written level f hf e he).mono hle }

theorem Sound.switchMemTable (h : Sound state)
    (hstep : step scoring state .switchMemTable = .next state') : Sound state' := by
  simp only [step, Outcome.guarded_eq_next, Outcome.next.injEq] at hstep
  obtain ⟨-, rfl⟩ := hstep
  refine ⟨h.stored.mono (Nat.le_succ _), h.pickable, h.last_lt, .nil, by simp, ?_, ?_,
    h.file_written, ?_, by simp, ?_, fun compact hc ↦ (h.running compact hc).mono (Nat.le_succ _)⟩
  · rintro imm ⟨⟩
    exact h.mem_sorted
  · rintro imm ⟨⟩
    exact h.mem_written
  · rintro imm ⟨⟩ a _ b hb
    cases hb
  · rintro level f hf a ha imm ⟨⟩ b hb
    exact h.file_lt_mem level f hf a ha b hb

end Steps

/-! ## Flushes -/

def State.withEdit (scoring : Scoring K) (state : State K V) (edit : VersionEdit K) : State K V :=
  { state with
    current := finalize scoring (editedFiles state.current.files edit)
    allowedSeeks := edit.newFiles.foldl
      (fun seeks p ↦ update seeks p.2.number (initialSeeks p.2)) state.allowedSeeks
    compactPointer := edit.compactPointers.foldl
      (fun pointers p ↦ update pointers p.1 (some p.2)) state.compactPointer }

theorem logAndApply_eq (scoring : Scoring K) (state : State K V) {edit : VersionEdit K}
    (h : WellStored (editedFiles state.current.files edit) state.tables state.nextFileNumber) :
    state.logAndApply scoring edit = some (state.withEdit scoring edit) := by
  unfold State.logAndApply
  rw [saveTo_eq_editedFiles h]
  rfl

theorem mem_newAt_writeLevel0Table {fileSize level : ℕ} :
    f ∈ (state.writeLevel0Table imm fileSize).newAt level ↔
      tableMeta state.nextFileNumber fileSize imm = some f ∧
        level = state.current.pickLevelForMemTableOutput f.lo f.hi := by
  rw [VersionEdit.mem_newAt]
  unfold State.writeLevel0Table
  split
  · rename_i hnone
    simp [hnone]
  · rename_i g hg
    simp only [VersionEdit.addFile, nil_append, mem_singleton, Prod.mk.injEq, hg, Option.some.injEq]
    constructor
    · rintro ⟨rfl, rfl⟩
      exact ⟨rfl, rfl⟩
    · rintro ⟨rfl, rfl⟩
      exact ⟨rfl, rfl⟩

theorem deletedAt_writeLevel0Table {fileSize level : ℕ} :
    (state.writeLevel0Table imm fileSize).deletedAt level = [] := by
  unfold State.writeLevel0Table
  split <;> rfl

/-- A flushed file overlaps nothing at its level and above, if it does not go to level 0. -/
theorem Sound.flushed_avoids (h : Sound state) {level : ℕ}
    (hlevel : level = state.current.pickLevelForMemTableOutput f.lo f.hi) (hne : level ≠ 0) :
    ∀ l ≤ level, ∀ g ∈ state.current.files l,
      Ranges.Avoids FileMetaData.lo FileMetaData.hi f.lo f.hi g := by
  intro l hl
  have hspec := (state.current.pickLevelForMemTableOutput_spec f.lo f.hi).2
  rw [← hlevel] at hspec
  refine avoids_of_someFileOverlapsRange ?_ ?_ (hspec hne l hl)
  · intro hpos
    exact h.stored.sorted l (Nat.pos_iff_ne_zero.mp (of_decide_eq_true hpos))
  · intro g hg
    obtain ⟨e, he, heq⟩ := (h.stored.table l g hg).largest_mem
    rw [← heq]
    exact (h.file_written l g hg e he).tag_le h.last_lt

/-- Files whose user-key ranges do not meet lie apart. -/
theorem apart_of_avoids {f g : FileMetaData K}
    (h : Ranges.Avoids FileMetaData.lo FileMetaData.hi f.lo f.hi g) : Apart f g :=
  h.symm.imp InternalKey.lt_of_userKey_lt InternalKey.lt_of_userKey_lt

theorem Sound.writeLevel0Table_applicable (h : Sound state) (himm : state.imm = some imm) (fileSize : ℕ) :
    Applicable state.current.files (update state.tables state.nextFileNumber imm)
      (state.nextFileNumber + 1) (state.writeLevel0Table imm fileSize) := by
  have hsorted := h.imm_sorted imm himm
  have hnumber : ∀ level, ∀ f ∈ (state.writeLevel0Table imm fileSize).newAt level,
      f.number = state.nextFileNumber :=
    fun level f hf ↦ (tableMeta_spec hsorted (mem_newAt_writeLevel0Table.mp hf).1).1
  have hone : ∀ i, ∀ f ∈ (state.writeLevel0Table imm fileSize).newAt i,
      ∀ j, ∀ g ∈ (state.writeLevel0Table imm fileSize).newAt j, i = j ∧ f = g := by
    intro i f hf j g hg
    obtain ⟨hmetaf, hi⟩ := mem_newAt_writeLevel0Table.mp hf
    obtain ⟨hmetag, hj⟩ := mem_newAt_writeLevel0Table.mp hg
    have heq : f = g := Option.some.inj (hmetaf.symm.trans hmetag)
    exact ⟨by rw [hi, hj, heq], heq⟩
  constructor
  · intro level f hf
    obtain ⟨-, rfl⟩ := mem_newAt_writeLevel0Table.mp hf
    have := (state.current.pickLevelForMemTableOutput_spec f.lo f.hi).1
    unfold kMaxMemCompactLevel at this
    unfold kNumLevels
    omega
  · exact fun i f hf j g hg _ ↦ hone i f hf j g hg
  · intro level
    have hlength : (state.writeLevel0Table imm fileSize).newFiles.length ≤ 1 := by
      unfold State.writeLevel0Table
      split <;> simp [VersionEdit.addFile]
    have hmap : (((state.writeLevel0Table imm fileSize).newAt level).map FileMetaData.number).length ≤ 1 := by
      rw [length_map, VersionEdit.newAt, length_map]
      exact (length_filter_le _ _).trans hlength
    exact nodup_iff_count_le_one.mpr fun n ↦ count_le_length.trans hmap
  · intro level f hf
    rw [hnumber level f hf]
    exact Nat.lt_succ_self _
  · intro level f hf j g hg
    rw [hnumber level f hf]
    exact (h.stored.number_lt j g hg).ne
  · intro level f hf
    rw [hnumber level f hf, update_self]
    exact (tableMeta_spec hsorted (mem_newAt_writeLevel0Table.mp hf).1).2
  · intro i f hf j g hg hne
    exact absurd (by rw [hnumber i f hf, hnumber j g hg]) hne
  · intro i f hf j g hg
    rw [hnumber i f hf, update_self, update_of_ne (h.stored.number_lt j g hg.1).ne]
    intro x hx y hy
    exact (key_ne_of_sequence_lt (h.file_lt_imm j g hg.1 y hy imm himm x hx)).symm
  · intro level _ f hf g hg hne
    exact absurd (hone level f hf level g hg).2 hne
  · intro level hne f hf g hg
    exact apart_of_avoids (h.flushed_avoids (mem_newAt_writeLevel0Table.mp hf).2 hne level le_rfl g hg.1)

theorem RunningOk.input_mem (h : RunningOk files tables nextFileNumber compact)
    (hf : f ∈ inputs compact.compaction) : ∃ level ≤ compact.compaction.level + 1, f ∈ files level := by
  rcases mem_inputs.mp hf with hf | hf
  · exact ⟨_, Nat.le_succ _, h.inputs0 f hf⟩
  · exact ⟨_, le_rfl, h.inputs1 f hf⟩

/-- Writing a new table does not touch what a running compaction knows. -/
theorem RunningOk.update (h : RunningOk files tables nextFileNumber compact)
    (hstored : WellStored files tables nextFileNumber) (entries : List (Entry K V)) :
    RunningOk files (update tables nextFileNumber entries) (nextFileNumber + 1) compact := by
  have hnumber : ∀ f ∈ inputs compact.compaction, f.number < nextFileNumber := by
    intro f hf
    obtain ⟨level, -, hmem⟩ := h.input_mem hf
    exact hstored.number_lt level f hmem
  have hinputs := levelEntries_update tables hnumber entries
  have houtputs := levelEntries_update tables h.output_number entries
  refine { h with
    kept_sorted := by rw [houtputs]; exact h.kept_sorted
    kept_mem := by rw [houtputs, hinputs]; exact h.kept_mem
    output_table := fun f hf ↦ ?_
    output_number := fun f hf ↦ (h.output_number f hf).trans (Nat.lt_succ_self _) }
  rw [update_of_ne (h.output_number f hf).ne]
  exact h.output_table f hf

theorem Sound.flushed_aside (h : Sound state) (hrunning : state.running = some compact)
    (hvalid : f.smallest ≤ f.largest)
    (hlevel : compact.compaction.level + 1 = state.current.pickLevelForMemTableOutput f.lo f.hi) :
    Aside compact.compaction f := by
  have hok := h.running compact hrunning
  have havoids := h.flushed_avoids hlevel (Nat.succ_ne_zero _)
  have hside := hok.linked f.lo f.hi (FileMetaData.lo_le_hi hvalid) fun g hg ↦ by
    obtain ⟨level, hle, hmem⟩ := hok.input_mem hg
    exact havoids level hle g hmem
  rcases hside with hleft | hright
  · exact .inr fun g hg ↦ InternalKey.lt_of_userKey_lt (hleft g hg)
  · exact .inl fun g hg ↦ InternalKey.lt_of_userKey_lt (hright g hg)

def State.flushed (scoring : Scoring K) (state : State K V) (imm : List (Entry K V)) (fileSize : ℕ) :
    State K V :=
  ({ state with
    imm := none
    nextFileNumber := state.nextFileNumber + 1
    tables := update state.tables state.nextFileNumber imm } : State K V).withEdit scoring
      (state.writeLevel0Table imm fileSize)

theorem Sound.flushed_stored (h : Sound state) (himm : state.imm = some imm) (fileSize : ℕ) :
    WellStored (editedFiles state.current.files (state.writeLevel0Table imm fileSize))
      (update state.tables state.nextFileNumber imm) (state.nextFileNumber + 1) :=
  (h.stored.update imm).applied (h.writeLevel0Table_applicable himm fileSize)

/-- A flush runs into no assertion. -/
theorem Sound.compactMemTable_eq (scoring : Scoring K) (h : Sound state) (himm : state.imm = some imm)
    (fileSize : ℕ) :
    state.compactMemTable scoring fileSize = .next (state.flushed scoring imm fileSize) := by
  unfold State.compactMemTable
  rw [himm]
  dsimp only
  rw [logAndApply_eq scoring _ (h.flushed_stored himm fileSize)]
  rfl

theorem Sound.mem_flushed {scoring : Scoring K} (h : Sound state) (himm : state.imm = some imm)
    {fileSize level : ℕ}
    (hf : f ∈ (state.flushed scoring imm fileSize).current.files level) : (f ∈ state.current.files level ∧
        (state.flushed scoring imm fileSize).tables f.number = state.tables f.number) ∨
      (tableMeta state.nextFileNumber fileSize imm = some f ∧ f.number = state.nextFileNumber ∧
        level = state.current.pickLevelForMemTableOutput f.lo f.hi ∧
        (state.flushed scoring imm fileSize).tables f.number = imm) := by
  have ha := h.writeLevel0Table_applicable himm fileSize
  rcases (ha.mem_editedFiles h.stored.last _ _).mp hf with hf | hf
  · exact .inl ⟨hf.1, update_of_ne (h.stored.number_lt level f hf.1).ne _ _⟩
  · obtain ⟨hmeta, hlevel⟩ := mem_newAt_writeLevel0Table.mp hf
    have hnumber := (tableMeta_spec (h.imm_sorted imm himm) hmeta).1
    refine .inr ⟨hmeta, hnumber, hlevel, ?_⟩
    rw [hnumber]
    exact update_self _ _ _

theorem Sound.flushed (scoring : Scoring K) (h : Sound state) (himm : state.imm = some imm) (fileSize : ℕ) :
    Sound (state.flushed scoring imm fileSize) := by
  have hstored := h.flushed_stored himm fileSize
  have hfile : ∀ level f, f ∈ (state.flushed scoring imm fileSize).current.files level →
      ∀ e ∈ (state.flushed scoring imm fileSize).tables f.number,
        e ∈ imm ∨ f ∈ state.current.files level ∧ e ∈ state.tables f.number := by
    intro level f hf e he
    rcases h.mem_flushed himm hf with ⟨hf, htable⟩ | ⟨-, -, -, htable⟩
    · exact .inr ⟨hf, htable ▸ he⟩
    · exact .inl (htable ▸ he)
  refine ⟨hstored, pickable_finalize scoring fun level f hf ↦ (hstored.table level f hf).valid,
    h.last_lt, h.mem_sorted, h.mem_written, by simp [State.flushed, State.withEdit],
    by simp [State.flushed, State.withEdit], ?_, by simp [State.flushed, State.withEdit], ?_,
    by simp [State.flushed, State.withEdit], ?_⟩
  · intro level f hf e he
    rcases hfile level f hf e he with he | ⟨hf, he⟩
    · exact h.imm_written imm himm e he
    · exact h.file_written level f hf e he
  · intro level f hf a ha b hb
    rcases hfile level f hf a ha with ha | ⟨hf, ha⟩
    · exact h.imm_lt_mem imm himm a ha b hb
    · exact h.file_lt_mem level f hf a ha b hb
  · intro compact hrunning
    have hok := (h.running compact hrunning).update h.stored imm
    have hstay : ∀ level, ∀ f ∈ state.current.files level,
        f ∈ (state.flushed scoring imm fileSize).current.files level := by
      intro level f hf
      exact ((h.writeLevel0Table_applicable himm fileSize).mem_editedFiles h.stored.last _ _).mpr
        (.inl ⟨hf, by simp [deletedAt_writeLevel0Table]⟩)
    refine { hok with
      inputs0 := fun f hf ↦ hstay _ f (hok.inputs0 f hf)
      inputs1 := fun f hf ↦ hstay _ f (hok.inputs1 f hf)
      aside := fun g hg hnot ↦ ?_
      output_fresh := fun f hf level g hg ↦ ?_ }
    · rcases h.mem_flushed himm hg with ⟨hg, -⟩ | ⟨-, -, hlevel, -⟩
      · exact hok.aside g hg hnot
      · exact h.flushed_aside hrunning (hstored.table _ g hg).valid hlevel
    · rcases h.mem_flushed himm hg with ⟨hg, -⟩ | ⟨-, hnumber, -, -⟩
      · exact hok.output_fresh f hf level g hg
      · rw [hnumber]
        exact ((h.running compact hrunning).output_number f hf).ne'

/-! ## Compactions -/

theorem Sound.picked_aside (h : Sound state) {c : Compaction K} {range : InternalKey K × InternalKey K}
    (hpicked : Picked state.current c range) {g : FileMetaData K}
    (hg : g ∈ state.current.files (c.level + 1)) (hnot : g ∉ c.inputs1) : Aside c g := by
  have hsorted := h.stored.sorted (c.level + 1) (Nat.succ_ne_zero _)
  have hhull := hpicked.inputs0.covers.isHull
  have hmiss : ¬(range.1.userKey ≤ g.hi ∧ g.lo ≤ range.2.userKey) := by
    intro hmeets
    rw [hpicked.inputs1_eq, mem_filter] at hnot
    exact hnot ⟨hg, meetsRange_iff.mpr hmeets⟩
  have hinputs1 : ∀ f ∈ c.inputs1, f ∈ state.current.files (c.level + 1) ∧
      range.1.userKey ≤ f.hi ∧ f.lo ≤ range.2.userKey := by
    intro f hf
    rw [hpicked.inputs1_eq, mem_filter] at hf
    exact ⟨hf.1, meetsRange_iff.mp hf.2⟩
  have hgvalid := FileMetaData.lo_le_hi (hsorted.valid g hg)
  rcases lt_or_ge g.hi range.1.userKey with hleft | hge
  · left
    intro f hf
    rcases mem_inputs.mp hf with hf | hf
    · exact InternalKey.lt_of_userKey_lt (hleft.trans_le (hhull.le_lo f hf))
    · obtain ⟨hmem, hlo, -⟩ := hinputs1 f hf
      rcases hsorted.eq_or_lt hg hmem with rfl | hlt | hlt
      · exact absurd hf hnot
      · exact hlt
      · have hle : f.hi ≤ g.lo := InternalKey.userKey_le_of_lt hlt
        exact absurd (hlo.trans (hle.trans hgvalid)) (not_le.mpr hleft)
  · have hright : range.2.userKey < g.lo := not_le.mp fun hle ↦ hmiss ⟨hge, hle⟩
    right
    intro f hf
    rcases mem_inputs.mp hf with hf | hf
    · exact InternalKey.lt_of_userKey_lt ((hhull.hi_le f hf).trans_lt hright)
    · obtain ⟨hmem, -, hhi⟩ := hinputs1 f hf
      rcases hsorted.eq_or_lt hg hmem with rfl | hlt | hlt
      · exact absurd hf hnot
      · have hle : g.hi ≤ f.lo := InternalKey.userKey_le_of_lt hlt
        exact absurd ((hgvalid.trans hle).trans hhi) (not_le.mpr hright)
      · exact hlt

theorem Picked.inputs1_sublist {v : Version K} {c : Compaction K} {range : InternalKey K × InternalKey K}
    (h : Picked v c range) : c.inputs1.Sublist (v.files (c.level + 1)) := by
  rw [h.inputs1_eq]
  exact filter_sublist

theorem Sound.beginCompaction {state state' : State K V} (h : Sound state)
    (hstep : state.beginCompaction = .next state') : Sound state' := by
  unfold State.beginCompaction at hstep
  rw [Outcome.guarded_eq_next] at hstep
  obtain ⟨-, hstep⟩ := hstep
  split at hstep
  · cases hstep
  · rename_i c hpick
    cases hstep
    obtain ⟨range, hpicked⟩ := Version.pickCompaction_spec h.pickable hpick
    have hmerged := mergedInputs_sorted h.stored hpicked.inputs0.sublist (Picked.inputs1_sublist hpicked)
    refine { h with running := ?_ }
    rintro compact ⟨⟩
    refine ⟨hpicked.level_lt, fun f hf ↦ hpicked.inputs0.sublist.subset hf,
      fun f hf ↦ (Picked.inputs1_sublist hpicked).subset hf, ?_, fun g ↦ h.picked_aside hpicked, ?_,
      ?_, by simp, by simp, by simp, by simp⟩
    · simpa only [mem_inputs] using hpicked.linked
    · exact hmerged.sublist (keptFrom_sublist _ _ _ _ _)
    · intro e he
      exact mem_mergedInputs.mp ((keptFrom_sublist _ _ _ _ _).subset he)

section

variable (h : RunningOk files tables nextFileNumber compact)
include h

theorem RunningOk.output_spec {count fileSize : ℕ}
    (hmeta : tableMeta nextFileNumber fileSize (compact.remaining.take count) = some f) :
    f.number = nextFileNumber ∧ TableOf f (compact.remaining.take count) :=
  tableMeta_spec ((pairwise_append.mp h.kept_sorted).2.1.sublist (take_sublist _ _)) hmeta

/-- Cutting off an output file does not change the run of kept entries. -/
theorem RunningOk.kept_cut {count fileSize : ℕ}
    (hmeta : tableMeta nextFileNumber fileSize (compact.remaining.take count) = some f) :
    levelEntries (Function.update tables nextFileNumber (compact.remaining.take count))
        (compact.outputs ++ [f]) ++ compact.remaining.drop count =
      levelEntries tables compact.outputs ++ compact.remaining := by
  rw [levelEntries_append, levelEntries_update _ h.output_number, (h.output_spec hmeta).1,
    update_self, append_assoc, take_append_drop]

theorem RunningOk.finishOutput (hstored : WellStored files tables nextFileNumber) {count fileSize : ℕ}
    (hmeta : tableMeta nextFileNumber fileSize (compact.remaining.take count) = some f) :
    RunningOk files (Function.update tables nextFileNumber (compact.remaining.take count))
      (nextFileNumber + 1) { compact with
        outputs := compact.outputs ++ [f]
        remaining := compact.remaining.drop count } := by
  have h' := h.update hstored (compact.remaining.take count)
  have hkept := h.kept_cut hmeta
  obtain ⟨hnumber, htable⟩ := h.output_spec hmeta
  have hmem : ∀ g ∈ compact.outputs ++ [f], g ∈ compact.outputs ∨ g = f := by simp
  refine { h' with
    kept_sorted := by rw [hkept]; exact h.kept_sorted
    kept_mem := fun e he ↦ ?_
    output_table := fun g hg ↦ ?_
    output_increasing := ?_
    output_number := fun g hg ↦ ?_
    output_fresh := fun g hg ↦ ?_ }
  · rw [hkept, ← levelEntries_update _ h.output_number (compact.remaining.take count)] at he
    exact h'.kept_mem e he
  · rcases hmem g hg with hg | rfl
    · exact h'.output_table g hg
    · rw [hnumber, update_self]
      exact htable
  · refine pairwise_append.mpr ⟨h.output_increasing, pairwise_singleton _ _, ?_⟩
    intro g hg x hx
    rw [mem_singleton.mp hx, hnumber]
    exact h.output_number g hg
  · rcases hmem g hg with hg | rfl
    · exact h'.output_number g hg
    · rw [hnumber]
      exact Nat.lt_succ_self _
  · rcases hmem g hg with hg | rfl
    · exact h'.output_fresh g hg
    · rw [hnumber]
      exact fun level x hx ↦ (hstored.number_lt level x hx).ne

end

theorem Sound.finishOutput {state state' : State K V} (h : Sound state) {count fileSize : ℕ}
    (hstep : state.finishOutput count fileSize = .next state') : Sound state' := by
  unfold State.finishOutput at hstep
  split at hstep
  · cases hstep
  · rename_i compact hrunning
    split at hstep
    · cases hstep
    · rename_i f hmeta
      cases hstep
      have hfile : ∀ level, ∀ g ∈ state.current.files level, ∀ e, e ∈ update state.tables
          state.nextFileNumber (compact.remaining.take count) g.number → e ∈ state.tables g.number := by
        intro level g hg e he
        rwa [update_of_ne (h.stored.number_lt level g hg).ne] at he
      refine { h with
        stored := h.stored.update _
        file_written := fun level g hg e he ↦ h.file_written level g hg e (hfile level g hg e he)
        file_lt_mem := fun level g hg e he ↦ h.file_lt_mem level g hg e (hfile level g hg e he)
        file_lt_imm := fun level g hg e he ↦ h.file_lt_imm level g hg e (hfile level g hg e he)
        running := ?_ }
      rintro _ ⟨⟩
      exact (h.running compact hrunning).finishOutput h.stored hmeta

/-! ## Installing a compaction -/

omit [LinearOrder K] in
theorem mem_deletedAt_edit {level number : ℕ} : number ∈ compact.edit.deletedAt level ↔
      (level = compact.compaction.level ∧ ∃ f ∈ compact.compaction.inputs0, f.number = number) ∨
        (level = compact.compaction.level + 1 ∧ ∃ f ∈ compact.compaction.inputs1, f.number = number) := by
  simp only [VersionEdit.mem_deletedAt, CompactionState.edit, VersionEdit.ofCompaction, mem_append,
    mem_map, Prod.mk.injEq]
  constructor
  · rintro (⟨f, hf, rfl, rfl⟩ | ⟨f, hf, rfl, rfl⟩)
    · exact .inl ⟨rfl, f, hf, rfl⟩
    · exact .inr ⟨rfl, f, hf, rfl⟩
  · rintro (⟨rfl, f, hf, rfl⟩ | ⟨rfl, f, hf, rfl⟩)
    · exact .inl ⟨f, hf, rfl, rfl⟩
    · exact .inr ⟨f, hf, rfl, rfl⟩

omit [LinearOrder K] in
theorem mem_newAt_edit {level : ℕ} :
    f ∈ compact.edit.newAt level ↔ level = compact.compaction.level + 1 ∧ f ∈ compact.outputs := by
  simp only [VersionEdit.mem_newAt, CompactionState.edit, VersionEdit.ofCompaction, mem_map, Prod.mk.injEq]
  constructor
  · rintro ⟨g, hg, rfl, rfl⟩
    exact ⟨rfl, hg⟩
  · rintro ⟨rfl, hf⟩
    exact ⟨f, hf, rfl, rfl⟩

section Install

variable {files : ℕ → List (FileMetaData K)} {tables : ℕ → List (Entry K V)} {nextFileNumber : ℕ}
  {compact : CompactionState K V}

section

variable (hok : RunningOk files tables nextFileNumber compact)
include hok

/-- A file that stays is not an input. -/
theorem RunningOk.number_ne_of_stays (hstored : WellStored files tables nextFileNumber) {level : ℕ}
    {g : FileMetaData K} (hg : Stays files compact.edit level g) (hf : f ∈ inputs compact.compaction) :
    f.number ≠ g.number := by
  intro heq
  have hnot := hg.2
  rw [mem_deletedAt_edit] at hnot
  rcases mem_inputs.mp hf with hf | hf
  · obtain ⟨rfl, rfl⟩ := hstored.number_inj _ f (hok.inputs0 f hf) level g hg.1 heq
    exact hnot (.inl ⟨rfl, f, hf, rfl⟩)
  · obtain ⟨rfl, rfl⟩ := hstored.number_inj _ f (hok.inputs1 f hf) level g hg.1 heq
    exact hnot (.inr ⟨rfl, f, hf, rfl⟩)

theorem RunningOk.output_entry (hf : f ∈ compact.outputs) {e : Entry K V} (he : e ∈ tables f.number) :
    ∃ g ∈ inputs compact.compaction, e ∈ tables g.number :=
  mem_levelEntries.mp (hok.kept_mem e
    (mem_append_left _ (mem_levelEntries.mpr ⟨f, hf, he⟩)))

theorem RunningOk.output_apart : ∀ f ∈ compact.outputs, ∀ g ∈ compact.outputs, f ≠ g → Apart f g := by
  have hsorted := (pairwise_append.mp hok.kept_sorted).1
  have hpairs : compact.outputs.Pairwise Apart := by
    apply (pairwise_flatMap.mp hsorted).2.imp_of_mem
    intro f g hf hg hlt
    obtain ⟨x, hx, hxkey⟩ := (hok.output_table f hf).largest_mem
    obtain ⟨y, hy, hykey⟩ := (hok.output_table g hg).smallest_mem
    left
    rw [← hxkey, ← hykey]
    exact hlt x hx y hy
  have hsymm : Std.Symm (Apart (K := K)) := ⟨fun _ _ ↦ Apart.symm⟩
  exact fun f hf g hg hne ↦ hpairs.forall hf hg hne

theorem RunningOk.edit_applicable (hstored : WellStored files tables nextFileNumber) :
    Applicable files tables nextFileNumber compact.edit := by
  have hinputs : ∀ f ∈ inputs compact.compaction, ∃ level, f ∈ files level := by
    intro f hf
    obtain ⟨level, -, hmem⟩ := hok.input_mem hf
    exact ⟨level, hmem⟩
  have hne : ∀ f ∈ compact.outputs, ∀ g ∈ compact.outputs, f.number = g.number → f = g := by
    have hsymm : Std.Symm fun f g : FileMetaData K ↦ f.number ≠ g.number := ⟨fun _ _ ↦ Ne.symm⟩
    have hpairs : compact.outputs.Pairwise fun f g ↦ f.number ≠ g.number :=
      hok.output_increasing.imp fun hlt ↦ hlt.ne
    intro f hf g hg heq
    by_contra hfg
    exact hpairs.forall hf hg hfg heq
  constructor
  · intro level f hf
    rw [(mem_newAt_edit.mp hf).1]
    exact hok.level_lt
  · intro i f hf j g hg heq
    obtain ⟨hi, hf⟩ := mem_newAt_edit.mp hf
    obtain ⟨hj, hg⟩ := mem_newAt_edit.mp hg
    exact ⟨hi.trans hj.symm, hne f hf g hg heq⟩
  · intro level
    have hsub : (compact.edit.newAt level).Sublist compact.outputs := by
      have hmap : compact.outputs = compact.edit.newFiles.map Prod.snd := by
        simp [CompactionState.edit, VersionEdit.ofCompaction, comp_def]
      rw [hmap]
      exact filter_sublist.map Prod.snd
    exact pairwise_map.mpr ((hok.output_increasing.imp fun hlt ↦ hlt.ne).sublist hsub)
  · exact fun level f hf ↦ hok.output_number f (mem_newAt_edit.mp hf).2
  · exact fun level f hf ↦ hok.output_fresh f (mem_newAt_edit.mp hf).2
  · exact fun level f hf ↦ hok.output_table f (mem_newAt_edit.mp hf).2
  · intro i f hf j g hg hfg x hx y hy hkey
    have hf := (mem_newAt_edit.mp hf).2
    have hg := (mem_newAt_edit.mp hg).2
    have hlast : ∀ {a b : FileMetaData K}, a ∈ compact.outputs → b ∈ compact.outputs →
        a.largest < b.smallest → ∀ x ∈ tables a.number, ∀ y ∈ tables b.number, x.key ≠ y.key := by
      intro a b ha hb hlt x hx y hy
      exact (((hok.output_table a ha).le_largest x hx).trans_lt
        (hlt.trans_le ((hok.output_table b hb).smallest_le y hy))).ne
    rcases hok.output_apart f hf g hg (fun heq ↦ hfg (heq ▸ rfl)) with hlt | hlt
    · exact hlast hf hg hlt x hx y hy hkey
    · exact hlast hg hf hlt y hy x hx hkey.symm
  · intro i f hf j g hg x hx y hy
    obtain ⟨a, ha, hxa⟩ := hok.output_entry (mem_newAt_edit.mp hf).2 hx
    obtain ⟨l, hal⟩ := hinputs a ha
    exact hstored.keys l a hal j g hg.1 (hok.number_ne_of_stays hstored hg ha) x hxa y hy
  · intro level _ f hf g hg hfg
    exact hok.output_apart f (mem_newAt_edit.mp hf).2 g (mem_newAt_edit.mp hg).2 hfg
  · intro level _ f hnew g hg
    obtain ⟨rfl, hf⟩ := mem_newAt_edit.mp hnew
    have hnot : g ∉ compact.compaction.inputs1 := fun hmem ↦
      hok.number_ne_of_stays hstored hg (mem_inputs.mpr (.inr hmem)) rfl
    -- the bounds of the output are keys of input entries, and those lie on one side of `g`
    rcases hok.aside g hg.1 hnot with hside | hside
    · right
      obtain ⟨x, hx, hkey⟩ := (hok.output_table f hf).smallest_mem
      obtain ⟨a, ha, hxa⟩ := hok.output_entry hf hx
      obtain ⟨l, hal⟩ := hinputs a ha
      exact hkey ▸ (hside a ha).trans_le ((hstored.table l a hal).smallest_le x hxa)
    · left
      obtain ⟨x, hx, hkey⟩ := (hok.output_table f hf).largest_mem
      obtain ⟨a, ha, hxa⟩ := hok.output_entry hf hx
      obtain ⟨l, hal⟩ := hinputs a ha
      exact hkey ▸ ((hstored.table l a hal).le_largest x hxa).trans_lt (hside a ha)

end

end Install

def State.installed (scoring : Scoring K) (state : State K V) (compact : CompactionState K V) :
    State K V :=
  ({ state with running := none } : State K V).withEdit scoring compact.edit

/-- Installing a compaction runs into no assertion. -/
theorem Sound.installCompaction_eq (scoring : Scoring K) (h : Sound state)
    (hrunning : state.running = some compact) :
    state.installCompaction scoring =
      .guarded (compact.remaining.isEmpty) (.next (state.installed scoring compact)) := by
  have ha := (h.running compact hrunning).edit_applicable h.stored
  unfold State.installCompaction
  rw [hrunning]
  dsimp only
  rw [logAndApply_eq scoring { state with running := none } (h.stored.applied ha)]
  rfl

theorem Sound.mem_installed (scoring : Scoring K) (h : Sound state)
    (hrunning : state.running = some compact) (level : ℕ)
    (f : FileMetaData K) (hf : f ∈ (state.installed scoring compact).current.files level) :
    ∀ e ∈ state.tables f.number, ∃ l, ∃ g ∈ state.current.files l, e ∈ state.tables g.number := by
  have hok := h.running compact hrunning
  intro e he
  rcases ((hok.edit_applicable h.stored).mem_editedFiles h.stored.last _ _).mp hf with hf | hf
  · exact ⟨level, f, hf.1, he⟩
  · obtain ⟨g, hg, heg⟩ := hok.output_entry (mem_newAt_edit.mp hf).2 he
    obtain ⟨l, -, hmem⟩ := hok.input_mem hg
    exact ⟨l, g, hmem, heg⟩

theorem Sound.installed (scoring : Scoring K) (h : Sound state) (hrunning : state.running = some compact) :
    Sound (state.installed scoring compact) := by
  have hstored := h.stored.applied ((h.running compact hrunning).edit_applicable h.stored)
  have hfile := h.mem_installed scoring hrunning
  refine ⟨hstored, pickable_finalize scoring fun level f hf ↦ (hstored.table level f hf).valid,
    h.last_lt, h.mem_sorted, h.mem_written, h.imm_sorted, h.imm_written, ?_, h.imm_lt_mem, ?_, ?_,
    by simp [State.installed, State.withEdit]⟩
  · intro level f hf e he
    obtain ⟨l, g, hg, heg⟩ := hfile level f hf e he
    exact h.file_written l g hg e heg
  · intro level f hf e he
    obtain ⟨l, g, hg, heg⟩ := hfile level f hf e he
    exact h.file_lt_mem l g hg e heg
  · intro level f hf e he
    obtain ⟨l, g, hg, heg⟩ := hfile level f hf e he
    exact h.file_lt_imm l g hg e heg

/-! ## Runs -/

variable [Inhabited V]

theorem Sound.step {scoring : Scoring K} {state state' : State K V} (h : Sound state)
    {action : Action K V} (hstep : step scoring state action = .next state') : Sound state' := by
  cases action with
  | write batch => exact h.write hstep
  | failedWrite count => exact h.failedWrite hstep
  | switchMemTable => exact h.switchMemTable hstep
  | compactMemTable fileSize =>
    cases himm : state.imm with
    | none => simp [Engine.step, State.compactMemTable, himm] at hstep
    | some imm =>
      rw [Engine.step, h.compactMemTable_eq scoring himm] at hstep
      cases hstep
      exact h.flushed scoring himm fileSize
  | beginCompaction => exact h.beginCompaction hstep
  | finishOutput count fileSize => exact h.finishOutput hstep
  | installCompaction =>
    cases hrunning : state.running with
    | none => simp [Engine.step, State.installCompaction, hrunning] at hstep
    | some compact =>
      rw [Engine.step, h.installCompaction_eq scoring hrunning, Outcome.guarded_eq_next] at hstep
      cases hstep.2
      exact h.installed scoring hrunning
  | abandonCompaction =>
    cases hstep
    exact { h with running := by simp }
  | get userKey snapshot =>
    simp only [Engine.step, Outcome.guarded_eq_next, Outcome.next.injEq] at hstep
    obtain ⟨-, rfl⟩ := hstep
    exact h.afterGet userKey snapshot
  | chargeSeek number =>
    cases hstep
    exact { h with }
  | getSnapshot =>
    cases hstep
    exact { h with }
  | releaseSnapshot index =>
    cases hstep
    exact { h with }

theorem Sound.no_abort {scoring : Scoring K} (h : Sound state) (action : Action K V) :
    Engine.step scoring state action ≠ .abort := by
  cases action with
  | compactMemTable fileSize =>
    cases himm : state.imm with
    | none => simp [Engine.step, State.compactMemTable, himm]
    | some imm => simp [Engine.step, h.compactMemTable_eq scoring himm]
  | beginCompaction =>
    simp only [Engine.step, State.beginCompaction, ne_eq, Outcome.guarded_eq_abort, not_and]
    intro _
    split <;> simp
  | finishOutput count fileSize =>
    simp only [Engine.step, State.finishOutput]
    split
    · simp
    · split <;> simp
  | installCompaction =>
    cases hrunning : state.running with
    | none => simp [Engine.step, State.installCompaction, hrunning]
    | some compact => simp [Engine.step, h.installCompaction_eq scoring hrunning]
  | _ => simp [Engine.step]

theorem sound_of_reachable {scoring : Scoring K} {ok : State K V → Action K V → Prop}
    (h : (engine scoring).ReachableWhen ok state) : Sound state := by
  refine h.invariant ?_ fun _ _ _ hsound _ hstep ↦ hsound.step hstep
  rintro _ ⟨nextFileNumber, rfl⟩
  exact Sound.empty scoring nextFileNumber

/-- In every reachable version the files of every level above 0 are sorted and disjoint in
internal-key order, and no step fails an assertion of `Builder::SaveTo`. -/
theorem reachable_levels_disjoint (scoring : Scoring K) (state : State K V)
    (h : (engine scoring).Reachable state) :
    (∀ level, 0 < level → (state.current.files level).Pairwise fun f g ↦
        f.smallest < g.smallest ∧ f.largest < g.smallest) ∧
      ∀ action, (engine scoring).step state action ≠ .abort := by
  have hsound := sound_of_reachable h
  refine ⟨fun level hlevel ↦ ?_, hsound.no_abort⟩
  have hsorted := hsound.stored.sorted level (Nat.pos_iff_ne_zero.mp hlevel)
  apply hsorted.ordered.imp_of_mem
  intro f g hf _ hlt
  exact ⟨(hsorted.valid f hf).trans_lt hlt, hlt⟩

/-- A flush is installed while a compaction of level 2 writes its two outputs. -/
theorem reachable_levels_disjoint_after_compaction :
    ∃ state : State ℕ ℕ, (engine (exactScoring ℕ)).Reachable state ∧
      (state.current.files 2).length = 1 ∧ (state.current.files 3).length = 2 ∧
      ((state.current.files 3).Pairwise fun f g ↦ f.smallest < g.smallest ∧ f.largest < g.smallest) ∧
      ∀ action, (engine (exactScoring ℕ)).step state action ≠ .abort := by
  obtain ⟨state, hrun, hone, htwo⟩ := Machine.Run.of_exec (engine (exactScoring ℕ)) (fun _ _ ↦ true)
    (State.empty (exactScoring ℕ) 2) ⟨2, rfl⟩
    [.write [.put 1 7, .put 5 9], .switchMemTable, .compactMemTable 200000000, .beginCompaction,
      .write [.put 9 8], .switchMemTable, .finishOutput 1 100000000, .compactMemTable 100,
      .finishOutput 1 100000000, .installCompaction]
    (fun state ↦ (state.current.files 2).length = 1 ∧ (state.current.files 3).length = 2)
    (by decide +kernel)
  have hreach := Machine.ReachableWhen.reachable ⟨_, hrun⟩
  obtain ⟨hdisjoint, habort⟩ := reachable_levels_disjoint (exactScoring ℕ) state hreach
  exact ⟨state, hreach, hone, htwo, hdisjoint 3 (by decide), habort⟩

end LevelDB.Db.Engine
