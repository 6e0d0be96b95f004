import LevelDB.Db.EngineLevels
import LevelDB.Db.EngineLookups

/-!
# Lookups read the newest write

The purpose of the database: a history of writes, of which a lookup at a sequence number sees the
newest one of its key up to that number.  Lookups of the machine answer as the history does in every
run whose compactions leave no older file of a user key behind at the level of their inputs, and drop
no deletion marker while an older file of its user key is left behind at the next level.  A run that
breaks the first condition is given at the end.
-/

namespace LevelDB.Db.Engine

open Format TableFiles VersionBuilder CompactionPick DropRules Lookup FileStore Library List Function

variable {K V : Type*}

/-! ## The history of writes -/

/-- The writes so far, oldest first, with their sequence numbers. -/
structure History (K V : Type*) where
  lastSequence : ℕ
  writes : List (Entry K V)

/-- What a step adds to the history.  A failed write only uses up sequence numbers. -/
def History.step [Inhabited V] (history : History K V) : Action K V → History K V
  | .write batch =>
    ⟨history.lastSequence + batch.length, history.writes ++ batchEntries (history.lastSequence + 1) batch⟩
  | .failedWrite count => ⟨history.lastSequence + count, history.writes⟩
  | _ => history

def historyOf [Inhabited V] (actions : List (Action K V)) : History K V :=
  actions.foldl History.step ⟨0, []⟩

/-- The newest write to `userKey` with a sequence up to `s`: its value, or `notFound` when it is a
deletion or when there is none. -/
def History.get [DecidableEq K] (history : History K V) (userKey : K) (s : ℕ) : GetStatus V :=
  GetStatus.ofResolved ((history.writes.reverse.find? fun e ↦
    decide (e.userKey = userKey ∧ e.sequence ≤ s)).bind Entry.resolve)

/-- Entries that are newer than everything on both sides do not disturb equal reads. -/
theorem resolves_union_congr {N E H : Set (Entry K V)} {lastSequence : ℕ}
    (hN : ∀ e ∈ N, e.type.isSome ∧ lastSequence < e.sequence)
    (hE : ∀ e ∈ E, Written lastSequence e) (hH : ∀ e ∈ H, Written lastSequence e) {userKey : K} {s : ℕ}
    (h : ∀ result, Resolves E userKey s result ↔ Resolves H userKey s result) (result : Option V) :
    Resolves (N ∪ E) userKey s result ↔ Resolves (N ∪ H) userKey s result := by
  have hnewer : ∀ A : Set (Entry K V), (∀ e ∈ A, Written lastSequence e) →
      Newest.NewerAt Entry.userKey Entry.tag userKey N A :=
    fun A hA a ha b hb _ _ ↦ tag_lt_of_sequence_lt ((hA b hb).2.trans_lt (hN a ha).2)
  unfold Resolves at h ⊢
  rw [parsed_eq fun e he ↦ (hE e he).1, parsed_eq fun e he ↦ (hH e he).1] at h
  have hNE : ∀ e ∈ N ∪ E, e.type.isSome := fun e he ↦ he.elim (fun he ↦ (hN e he).1) fun he ↦ (hE e he).1
  have hNH : ∀ e ∈ N ∪ H, e.type.isSome := fun e he ↦ he.elim (fun he ↦ (hN e he).1) fun he ↦ (hH e he).1
  rw [parsed_eq hNE, parsed_eq hNH]
  exact Newest.reads_union_congr (hnewer E hE) (hnewer H hH) h result

variable [LinearOrder K] {state : State K V} {compact : CompactionState K V} {imm : List (Entry K V)}

/-- The lookup in the history finds the newest write. -/
theorem History.resolves_get {history : History K V}
    (hparse : ∀ e ∈ {e | e ∈ history.writes}, e.type.isSome)
    (hincreasing : history.writes.Pairwise fun a b ↦ a.sequence < b.sequence) (userKey : K) (s : ℕ) :
    ∃ result, history.get userKey s = GetStatus.ofResolved result ∧
      Resolves {e | e ∈ history.writes} userKey s result := by
  refine ⟨_, rfl, _, ?_, rfl⟩
  rw [parsed_eq hparse]
  cases hfind : history.writes.reverse.find? fun e ↦ decide (e.userKey = userKey ∧ e.sequence ≤ s) with
  | none =>
    intro e he huser
    have hnot := find?_eq_none.mp hfind e (mem_reverse.mpr he)
    by_contra hle
    refine hnot (decide_eq_true ⟨huser, ?_⟩)
    exact (Entry.tag_le_snapshotTag (hparse e he) s).mp (Nat.not_lt.mp hle)
  | some e =>
    obtain ⟨hmatch, newer, older, hsplit, hnewer⟩ := find?_eq_some_iff_append.mp hfind
    obtain ⟨huser, hseq⟩ := of_decide_eq_true hmatch
    have hmem : e ∈ history.writes := by
      rw [← mem_reverse, hsplit]
      simp
    refine ⟨hmem, huser, (Entry.tag_le_snapshotTag (hparse e hmem) s).mpr hseq, ?_⟩
    intro x hx hxuser hxtag
    have hxseq := (Entry.tag_le_snapshotTag (hparse x hx) s).mp hxtag
    have hdesc : history.writes.reverse.Pairwise fun a b ↦ b.sequence < a.sequence :=
      pairwise_reverse.mpr hincreasing
    have hx := mem_reverse.mpr hx
    rw [hsplit] at hdesc hx
    rcases mem_append.mp hx with hx | hx
    · have hnot := hnewer x hx
      simp only [Bool.not_eq_true', decide_eq_false_iff_not] at hnot
      exact absurd ⟨hxuser, hxseq⟩ hnot
    · rcases mem_cons.mp hx with rfl | hx
      · exact le_rfl
      · have hlt := (pairwise_cons.mp (pairwise_append.mp hdesc).2.1).1 x hx
        exact (tag_lt_of_sequence_lt hlt).le

omit [LinearOrder K] in
/-- Writes with increasing sequence numbers have one newest write. -/
theorem resolves_unique {writes : List (Entry K V)}
    (hincreasing : writes.Pairwise fun a b ↦ a.sequence < b.sequence) {userKey : K} {s : ℕ} {x y : Option V}
    (hx : Resolves {e | e ∈ writes} userKey s x) (hy : Resolves {e | e ∈ writes} userKey s y) : x = y := by
  refine Newest.Reads.unique ?_ hx hy
  rintro a ⟨ha, -⟩ b ⟨hb, -⟩ _ htag
  by_contra hne
  have hsymm : Std.Symm fun a b : Entry K V ↦ a.tag ≠ b.tag := ⟨fun _ _ ↦ Ne.symm⟩
  have htags : writes.Pairwise fun a b ↦ a.tag ≠ b.tag :=
    hincreasing.imp fun hlt ↦ (tag_lt_of_sequence_lt hlt).ne
  exact htags.forall ha hb hne htag

theorem Sound.mem_storedEntries (h : Sound state) {e : Entry K V} :
    e ∈ storedEntries state.current state.tables ↔
      ∃ level, ∃ f ∈ state.current.files level, e ∈ state.tables f.number := by
  constructor
  · rintro ⟨level, -, he⟩
    obtain ⟨f, hf, hef⟩ := mem_levelEntries.mp he
    exact ⟨level, f, hf, hef⟩
  · rintro ⟨level, f, hf, hef⟩
    refine ⟨level, mem_range.mpr ?_, mem_levelEntries.mpr ⟨f, hf, hef⟩⟩
    by_contra hlevel
    rw [h.stored.last level (Nat.not_lt.mp hlevel)] at hf
    cases hf

/-- What the invariant says about the entries of the immutable memtable. -/
theorem Sound.immEntries (h : Sound state) :
    SortedEntries state.immEntries ∧ (∀ e ∈ state.immEntries, Written state.lastSequence e) ∧
      (∀ a ∈ state.immEntries, ∀ b ∈ state.mem, a.sequence < b.sequence) ∧
      ∀ level, ∀ f ∈ state.current.files level, ∀ a ∈ state.tables f.number,
        ∀ b ∈ state.immEntries, a.sequence < b.sequence := by
  unfold State.immEntries
  cases himm : state.imm with
  | none => exact ⟨.nil, by simp⟩
  | some imm =>
    exact ⟨h.imm_sorted imm himm, h.imm_written imm himm, h.imm_lt_mem imm himm,
      fun level f hf a ha ↦ h.file_lt_imm level f hf a ha imm himm⟩

theorem Sound.allEntries_written (h : Sound state) :
    ∀ e ∈ state.allEntries, Written state.lastSequence e := by
  rintro e (he | he | he)
  · exact h.mem_written e he
  · exact h.immEntries.2.1 e he
  · obtain ⟨level, f, hf, hef⟩ := h.mem_storedEntries.mp he
    exact h.file_written level f hf e hef

theorem Sound.readLayers (h : Sound state) (hlayered : Layered state.current state.tables) :
    ReadLayers state := by
  obtain ⟨himmSorted, -, himmMem, himmFile⟩ := h.immEntries
  refine ⟨fun e he ↦ (h.allEntries_written e he).1, h.mem_sorted, himmSorted, h.stored.sorted,
    fun level f hf ↦ (h.stored.table level f hf).within, h.stored.number_ne 0, ?_, ?_, hlayered⟩
  · rintro a ha b (hb | hb) _
    · exact tag_lt_of_sequence_lt (himmMem b hb a ha)
    · obtain ⟨level, f, hf, hbf⟩ := h.mem_storedEntries.mp hb
      exact tag_lt_of_sequence_lt (h.file_lt_mem level f hf b hbf a ha)
  · intro a ha b hb _
    obtain ⟨level, f, hf, hbf⟩ := h.mem_storedEntries.mp hb
    exact tag_lt_of_sequence_lt (himmFile level f hf b hbf a ha)

/-- On layered files `DBImpl::Get` reads all entries of the database. -/
theorem Sound.resolves_get (h : Sound state) (hlayered : Layered state.current state.tables) (userKey : K)
    (s : ℕ) : ∃ result, state.get userKey s = GetStatus.ofResolved result ∧
      Resolves state.allEntries userKey s result :=
  (h.readLayers hlayered).resolves_get (fun level _ f hf ↦ (h.stored.table level f hf).largest_mem)
    userKey s

/-! ## What reads rest on -/

/-- The sequence numbers at which lookups may happen now or later. -/
def Readable (state : State K V) (s : ℕ) : Prop := s ∈ state.snapshots ∨ state.lastSequence ≤ s

/-- All entries of one table are newer than the entries of the same user key in the other. -/
def NewerTable (tables : ℕ → List (Entry K V)) (f g : FileMetaData K) : Prop :=
  Newest.Newer Entry.userKey Entry.tag {e | e ∈ tables f.number} {e | e ∈ tables g.number}

/-- What the reads need of a running compaction: no readable view is older than its smallest
snapshot, what it leaves at its level is newer than what it takes, and below that level nothing is
older than a deletion marker that it drops. -/
structure CompactionOk (state : State K V) (compact : CompactionState K V) : Prop where
  smallest_lt : compact.smallestSnapshot < kMaxSequenceNumber
  readable : ∀ s, Readable state s → compact.smallestSnapshot ≤ s
  sortedFrom : SortedFrom compact.compaction.inputVersion.files compact.compaction.level
  merged_sorted : SortedEntries (mergedInputs state.tables compact.compaction)
  kept_eq : levelEntries state.tables compact.outputs ++ compact.remaining =
    keptEntries compact.compaction.inputVersion.files compact.compaction.level
      compact.smallestSnapshot (mergedInputs state.tables compact.compaction)
  above : ∀ g ∈ state.current.files compact.compaction.level, g ∉ compact.compaction.inputs0 →
    ∀ f ∈ compact.compaction.inputs0, NewerTable state.tables g f
  below : ∀ level, compact.compaction.level < level → ∀ g ∈ state.current.files level,
    (level = compact.compaction.level + 1 → g ∉ compact.compaction.inputs1) →
    ∀ marker, DroppedMarker compact.compaction.inputVersion.files compact.compaction.level
      compact.smallestSnapshot (mergedInputs state.tables compact.compaction) marker →
    ∀ d ∈ state.tables g.number, d.userKey = marker.userKey → marker.tag < d.tag

structure ReadsHistory (history : History K V) (state : State K V) : Prop where
  sound : Sound state
  last_eq : history.lastSequence = state.lastSequence
  written : ∀ e ∈ history.writes, Written state.lastSequence e
  increasing : history.writes.Pairwise fun a b ↦ a.sequence < b.sequence
  snapshots_sorted : state.snapshots.Pairwise (· ≤ ·)
  snapshots_le : ∀ s ∈ state.snapshots, s ≤ state.lastSequence
  layered : Layered state.current state.tables
  reads : ∀ s, Readable state s → ∀ userKey result, Resolves state.allEntries userKey s result ↔
      Resolves {e | e ∈ history.writes} userKey s result
  running : ∀ compact, state.running = some compact → CompactionOk state compact

theorem ReadsHistory.get_eq {history : History K V} (h : ReadsHistory history state) {s : ℕ}
    (hs : Readable state s) (userKey : K) : state.get userKey s = history.get userKey s := by
  obtain ⟨x, hx, hresolves⟩ := h.sound.resolves_get h.layered userKey s
  obtain ⟨y, hy, hhistory⟩ := History.resolves_get (fun e he ↦ (h.written e he).1) h.increasing userKey s
  have heq : x = y := resolves_unique h.increasing ((h.reads s hs userKey x).mp hresolves) hhistory
  rw [hx, hy, heq]

theorem ReadsHistory.empty (scoring : Scoring K) (nextFileNumber : ℕ) :
    ReadsHistory (⟨0, []⟩ : History K V) (State.empty scoring nextFileNumber) where
  sound := Sound.empty scoring nextFileNumber
  last_eq := rfl
  written := by simp
  increasing := .nil
  snapshots_sorted := .nil
  snapshots_le := by simp [State.empty]
  layered := ⟨by simp [State.empty, finalize], by simp [State.empty, finalize]⟩
  reads := by
    intro s _ userKey result
    have hnone : (State.empty scoring nextFileNumber : State K V).allEntries = ∅ := by
      ext e
      simp [State.allEntries, State.empty, State.immEntries, storedEntries, finalize, levelEntries]
    rw [hnone]
    simp
  running := by simp [State.empty]

/-! ## Steps that leave the files alone -/

/-- A step that keeps files, tables and entries, and makes no older view readable. -/
theorem ReadsHistory.of_same {history history' : History K V} {state state' : State K V}
    (h : ReadsHistory history state) (hsound : Sound state') (hwrites : history'.writes = history.writes)
    (hlast : history'.lastSequence = state'.lastSequence) (hle : state.lastSequence ≤ state'.lastSequence)
    (hsorted : state'.snapshots.Pairwise (· ≤ ·))
    (hsnapshots : ∀ s ∈ state'.snapshots, s ≤ state'.lastSequence)
    (hreadable : ∀ s, Readable state' s → Readable state s)
    (hfiles : state'.current.files = state.current.files) (htables : state'.tables = state.tables)
    (hentries : state'.allEntries = state.allEntries)
    (hrunning : ∀ compact, state'.running = some compact → state.running = some compact) :
    ReadsHistory history' state' where
  sound := hsound
  last_eq := hlast
  written := by
    rw [hwrites]
    exact fun e he ↦ (h.written e he).mono hle
  increasing := hwrites ▸ h.increasing
  snapshots_sorted := hsorted
  snapshots_le := hsnapshots
  layered := by
    constructor
    · rw [hfiles, htables]
      exact h.layered.zero
    · rw [hfiles, htables]
      exact h.layered.levels
  reads := by
    rw [hentries, hwrites]
    exact fun s hs ↦ h.reads s (hreadable s hs)
  running := by
    intro compact hc
    have hok := h.running compact (hrunning compact hc)
    refine ⟨hok.smallest_lt, fun s hs ↦ hok.readable s (hreadable s hs), hok.sortedFrom, ?_, ?_, ?_, ?_⟩
    · rw [htables]
      exact hok.merged_sorted
    · rw [htables]
      exact hok.kept_eq
    · rw [hfiles, htables]
      exact hok.above
    · rw [hfiles, htables]
      exact hok.below

section Writes

variable [Inhabited V] {scoring : Scoring K} {history : History K V} {state state' : State K V}

theorem ReadsHistory.write (h : ReadsHistory history state) {batch : List (WriteOp K V)}
    (hstep : Engine.step scoring state (.write batch) = .next state') :
    ReadsHistory (history.step (.write batch)) state' := by
  have hsound := h.sound.write hstep
  simp only [Engine.step, Outcome.guarded_eq_next, Outcome.next.injEq] at hstep
  obtain ⟨-, rfl⟩ := hstep
  set news := batchEntries (state.lastSequence + 1) batch with hnews
  have hle : state.lastSequence ≤ state.lastSequence + batch.length := Nat.le_add_right _ _
  have hnew : ∀ e ∈ news, e.type.isSome ∧ state.lastSequence < e.sequence := by
    intro e he
    obtain ⟨htype, hlo, -⟩ := mem_batchEntries he
    exact ⟨htype, by omega⟩
  have hwrites : (history.step (.write batch)).writes = history.writes ++ news := by
    rw [hnews, ← h.last_eq]
    rfl
  have hmem : ∀ e, e ∈ news.foldl memTableAdd state.mem ↔ e ∈ state.mem ∨ e ∈ news := by
    intro e
    apply mem_foldl_memTableAdd
    · intro a ha b hb
      exact key_ne_of_sequence_lt ((h.sound.mem_written b hb).2.trans_lt (hnew a ha).2)
    · exact (batchEntries_increasing _ _).imp key_ne_of_sequence_lt
  have hreadable : ∀ s, Readable { state with
      mem := news.foldl memTableAdd state.mem
      lastSequence := state.lastSequence + batch.length } s → Readable state s :=
    fun s hs ↦ hs.imp_right fun hs ↦ hle.trans hs
  refine ⟨hsound, ?_, ?_, ?_, h.snapshots_sorted, fun s hs ↦ (h.snapshots_le s hs).trans hle,
    h.layered, ?_, ?_⟩
  · show history.lastSequence + batch.length = state.lastSequence + batch.length
    rw [h.last_eq]
  · rw [hwrites]
    intro e he
    rcases mem_append.mp he with he | he
    · exact (h.written e he).mono hle
    · obtain ⟨htype, -, hhi⟩ := mem_batchEntries he
      exact ⟨htype, by dsimp only; omega⟩
  · rw [hwrites]
    refine pairwise_append.mpr ⟨h.increasing, batchEntries_increasing _ _, ?_⟩
    exact fun a ha b hb ↦ (h.written a ha).2.trans_lt (hnew b hb).2
  · intro s hs userKey result
    have hall : ({ state with
        mem := news.foldl memTableAdd state.mem
        lastSequence := state.lastSequence + batch.length } : State K V).allEntries =
        {e | e ∈ news} ∪ state.allEntries := by
      ext e
      simp only [State.allEntries, State.immEntries, Set.mem_union, Set.mem_ofPred_eq, hmem]
      tauto
    have hhist : {e | e ∈ (history.step (.write batch)).writes} =
        {e | e ∈ news} ∪ {e | e ∈ history.writes} := by
      ext e
      simp only [hwrites, mem_append, Set.mem_union, Set.mem_ofPred_eq]
      tauto
    rw [hall, hhist]
    exact resolves_union_congr hnew h.sound.allEntries_written h.written
      (h.reads s (hreadable s hs) userKey) result
  · intro compact hc
    have hok := h.running compact hc
    exact { hok with readable := fun s hs ↦ hok.readable s (hreadable s hs) }

theorem ReadsHistory.failedWrite (h : ReadsHistory history state) {count : ℕ}
    (hstep : Engine.step scoring state (.failedWrite count) = .next state') :
    ReadsHistory (history.step (.failedWrite count)) state' := by
  have hsound := h.sound.failedWrite hstep
  simp only [Engine.step, Outcome.guarded_eq_next, Outcome.next.injEq] at hstep
  obtain ⟨-, rfl⟩ := hstep
  have hle : state.lastSequence ≤ state.lastSequence + count := Nat.le_add_right _ _
  refine h.of_same hsound rfl ?_ hle h.snapshots_sorted
    (fun s hs ↦ (h.snapshots_le s hs).trans hle) (fun s hs ↦ hs.imp_right fun hs ↦ hle.trans hs) rfl
    rfl rfl fun _ hc ↦ hc
  show history.lastSequence + count = state.lastSequence + count
  rw [h.last_eq]

theorem ReadsHistory.switchMemTable (h : ReadsHistory history state)
    (hstep : Engine.step scoring state .switchMemTable = .next state') : ReadsHistory history state' := by
  have hsound := h.sound.switchMemTable hstep
  simp only [Engine.step, Outcome.guarded_eq_next, Outcome.next.injEq] at hstep
  obtain ⟨⟨himm, -⟩, rfl⟩ := hstep
  refine h.of_same hsound rfl h.last_eq le_rfl h.snapshots_sorted h.snapshots_le (fun s hs ↦ hs) rfl
    rfl ?_ fun _ hc ↦ hc
  ext e
  simp [State.allEntries, State.immEntries, Option.isNone_iff_eq_none.mp himm]

end Writes

section Files

variable {history : History K V} {state state' : State K V}

theorem afterGet_same (state : State K V) (userKey : K) (snapshot : ℕ) :
    (state.afterGet userKey snapshot).current.files = state.current.files ∧
      ∃ current allowedSeeks, state.afterGet userKey snapshot =
        { state with current := current, allowedSeeks := allowedSeeks } := by
  unfold State.afterGet
  dsimp only
  split
  · exact ⟨rfl, state.current, state.allowedSeeks, rfl⟩
  · refine ⟨?_, _, _, rfl⟩
    unfold updateStats
    split
    · rfl
    · dsimp only
      split <;> rfl

theorem ReadsHistory.afterGet (h : ReadsHistory history state) (userKey : K) (snapshot : ℕ) :
    ReadsHistory history (state.afterGet userKey snapshot) := by
  have hsound := h.sound.afterGet userKey snapshot
  obtain ⟨hfiles, current, allowedSeeks, heq⟩ := afterGet_same state userKey snapshot
  rw [heq] at hfiles hsound ⊢
  refine h.of_same hsound rfl h.last_eq le_rfl h.snapshots_sorted h.snapshots_le (fun s hs ↦ hs)
    hfiles rfl ?_ fun _ hc ↦ hc
  ext e
  have hfiles : current.files = state.current.files := hfiles
  simp only [State.allEntries, State.immEntries, storedEntries, hfiles]

theorem ReadsHistory.getSnapshot (h : ReadsHistory history state) :
    ReadsHistory history { state with snapshots := state.snapshots ++ [state.lastSequence] } := by
  refine h.of_same { h.sound with } rfl h.last_eq le_rfl ?_ ?_ ?_ rfl rfl rfl fun _ hc ↦ hc
  · refine pairwise_append.mpr ⟨h.snapshots_sorted, pairwise_singleton _ _, ?_⟩
    intro s hs t ht
    rw [mem_singleton.mp ht]
    exact h.snapshots_le s hs
  · intro s hs
    rcases mem_append.mp hs with hs | hs
    · exact h.snapshots_le s hs
    · exact (mem_singleton.mp hs).le
  · rintro s (hs | hs)
    · rcases mem_append.mp hs with hs | hs
      · exact .inl hs
      · exact .inr (mem_singleton.mp hs).ge
    · exact .inr hs

theorem ReadsHistory.releaseSnapshot (h : ReadsHistory history state) (index : ℕ) :
    ReadsHistory history { state with snapshots := state.snapshots.eraseIdx index } := by
  have hsub := eraseIdx_sublist state.snapshots index
  exact h.of_same { h.sound with } rfl h.last_eq le_rfl (h.snapshots_sorted.sublist hsub)
    (fun s hs ↦ h.snapshots_le s (hsub.subset hs)) (fun s hs ↦ hs.imp_left fun hs ↦ hsub.subset hs)
    rfl rfl rfl fun _ hc ↦ hc

/-! ## Flushes -/

/-- Everything in the flushed memtable is newer than everything in the files. -/
theorem Sound.imm_newer (h : Sound state) (himm : state.imm = some imm) :
    ∀ a ∈ imm, ∀ level, ∀ g ∈ state.current.files level, ∀ b ∈ state.tables g.number, b.tag < a.tag :=
  fun a ha level g hg b hb ↦ tag_lt_of_sequence_lt (h.file_lt_imm level g hg b hb imm himm a ha)

theorem Sound.flushed_tables (scoring : Scoring K) (h : Sound state) (imm : List (Entry K V))
    (fileSize : ℕ) {level : ℕ} {g : FileMetaData K} (hg : g ∈ state.current.files level) :
    (state.flushed scoring imm fileSize).tables g.number = state.tables g.number :=
  update_of_ne (h.stored.number_lt level g hg).ne _ _

/-- A file that was flushed below level `i` shares no user key with the files of that level. -/
theorem Sound.userKey_ne_of_flushed (h : Sound state) (himm : state.imm = some imm) {fileSize i j : ℕ}
    {f g : FileMetaData K} (hmeta : tableMeta state.nextFileNumber fileSize imm = some g)
    (hj : j = state.current.pickLevelForMemTableOutput g.lo g.hi) (hij : i < j)
    (hf : f ∈ state.current.files i) {a b : Entry K V} (ha : a ∈ state.tables f.number)
    (hb : b ∈ imm) : a.userKey ≠ b.userKey := by
  intro hab
  have hft := h.stored.table i f hf
  have hgt := (tableMeta_spec (h.imm_sorted imm himm) hmeta).2
  rcases h.flushed_avoids hj (by omega) i hij.le f hf with hlt | hlt
  · exact absurd ((hab.symm.le.trans (hft.le_hi ha)).trans_lt hlt) (not_lt.mpr (hgt.lo_le hb))
  · exact absurd ((hab.le.trans (hgt.le_hi hb)).trans_lt hlt) (not_lt.mpr (hft.lo_le ha))

theorem Layered.flushed (scoring : Scoring K) (hlayered : Layered state.current state.tables)
    (h : Sound state) (himm : state.imm = some imm) (fileSize : ℕ) :
    Layered (state.flushed scoring imm fileSize).current
      (state.flushed scoring imm fileSize).tables := by
  have hnewer := h.imm_newer himm
  constructor
  · intro f hf g hg hlt a ha b hb hab
    rcases h.mem_flushed himm hf with ⟨hf, hft⟩ | ⟨-, hfn, -, hft⟩ <;>
      rcases h.mem_flushed himm hg with ⟨hg, hgt⟩ | ⟨-, hgn, -, hgt⟩
    · exact hlayered.zero f hf g hg hlt a (hft ▸ ha) b (hgt ▸ hb) hab
    · have := h.stored.number_lt 0 f hf
      omega
    · exact hnewer a (hft ▸ ha) 0 g hg b (hgt ▸ hb)
    · omega
  · intro i j hij f hf g hg a ha b hb hab
    rcases h.mem_flushed himm hf with ⟨hf, hft⟩ | ⟨hfmeta, -, hi, hft⟩ <;>
      rcases h.mem_flushed himm hg with ⟨hg, hgt⟩ | ⟨hgmeta, -, hj, hgt⟩
    · exact hlayered.levels i j hij f hf g hg a (hft ▸ ha) b (hgt ▸ hb) hab
    · exact absurd hab (h.userKey_ne_of_flushed himm hgmeta hj hij hf (hft ▸ ha) (hgt ▸ hb))
    · exact hnewer a (hft ▸ ha) j g hg b (hgt ▸ hb)
    · have heq : f = g := Option.some.inj (hfmeta.symm.trans hgmeta)
      rw [hi, hj, heq] at hij
      exact absurd hij (lt_irrefl _)

theorem Sound.allEntries_flushed (scoring : Scoring K) (h : Sound state) (himm : state.imm = some imm)
    (fileSize : ℕ) : (state.flushed scoring imm fileSize).allEntries = state.allEntries := by
  have ha := h.writeLevel0Table_applicable himm fileSize
  have hstored : ∀ e, e ∈ storedEntries (state.flushed scoring imm fileSize).current
        (state.flushed scoring imm fileSize).tables ↔
      e ∈ imm ∨ e ∈ storedEntries state.current state.tables := by
    intro e
    rw [(h.flushed scoring himm fileSize).mem_storedEntries, h.mem_storedEntries]
    constructor
    · rintro ⟨level, f, hf, he⟩
      rcases h.mem_flushed himm hf with ⟨hf, hft⟩ | ⟨-, -, -, hft⟩
      · exact .inr ⟨level, f, hf, hft ▸ he⟩
      · exact .inl (hft ▸ he)
    · rintro (he | ⟨level, f, hf, he⟩)
      · cases hmeta : tableMeta state.nextFileNumber fileSize imm with
        | none =>
          rw [tableMeta_eq_none hmeta] at he
          cases he
        | some f =>
          refine ⟨_, f, (ha.mem_editedFiles h.stored.last _ _).mpr
            (.inr (mem_newAt_writeLevel0Table.mpr ⟨hmeta, rfl⟩)), ?_⟩
          rw [(tableMeta_spec (h.imm_sorted imm himm) hmeta).1]
          show e ∈ update state.tables state.nextFileNumber imm state.nextFileNumber
          rwa [update_self]
      · refine ⟨level, f, (ha.mem_editedFiles h.stored.last _ _).mpr
          (.inl ⟨hf, by simp [deletedAt_writeLevel0Table]⟩), ?_⟩
        rwa [h.flushed_tables scoring imm fileSize hf]
  have himm' : state.immEntries = imm := by simp [State.immEntries, himm]
  have hnone : (state.flushed scoring imm fileSize).immEntries = [] := rfl
  have hmem : (state.flushed scoring imm fileSize).mem = state.mem := rfl
  ext e
  simp only [State.allEntries, Set.mem_union, Set.mem_ofPred_eq, hstored, himm', hnone, hmem,
    not_mem_nil, false_or]

theorem RunningOk.mergedInputs_update
    (hrun : RunningOk state.current.files state.tables state.nextFileNumber compact)
    (h : Sound state) (entries : List (Entry K V)) :
    mergedInputs (Function.update state.tables state.nextFileNumber entries) compact.compaction =
      mergedInputs state.tables compact.compaction := by
  have hinputs : levelEntries (Function.update state.tables state.nextFileNumber entries)
      (inputs compact.compaction) = levelEntries state.tables (inputs compact.compaction) := by
    apply levelEntries_update
    intro f hf
    obtain ⟨level, -, hmem⟩ := hrun.input_mem hf
    exact h.stored.number_lt level f hmem
  exact congrArg (fun l ↦ l.insertionSort fun a b : Entry K V ↦ a.key ≤ b.key) hinputs

theorem CompactionOk.flushed (scoring : Scoring K) (hok : CompactionOk state compact) (h : Sound state)
    (hrunning : state.running = some compact) (himm : state.imm = some imm) (fileSize : ℕ) :
    CompactionOk (state.flushed scoring imm fileSize) compact := by
  have hrun := h.running compact hrunning
  have hnewer := h.imm_newer himm
  have hmerged : mergedInputs (state.flushed scoring imm fileSize).tables compact.compaction =
      mergedInputs state.tables compact.compaction := hrun.mergedInputs_update h imm
  have houtputs : levelEntries (state.flushed scoring imm fileSize).tables compact.outputs =
      levelEntries state.tables compact.outputs := levelEntries_update _ hrun.output_number imm
  refine ⟨hok.smallest_lt, hok.readable, hok.sortedFrom, ?_, ?_, ?_, ?_⟩
  · rw [hmerged]
    exact hok.merged_sorted
  · rw [hmerged, houtputs]
    exact hok.kept_eq
  · intro g hg hnot f hf a ha b hb hab
    have hinput := hrun.inputs0 f hf
    have hb' : b ∈ state.tables f.number := h.flushed_tables scoring imm fileSize hinput ▸ hb
    rcases h.mem_flushed himm hg with ⟨hg, hgt⟩ | ⟨-, -, -, hgt⟩
    · exact hok.above g hg hnot f hf a (hgt ▸ ha) b hb' hab
    · exact hnewer a (hgt ▸ ha) _ f hinput b hb'
  · intro level hlt g hg hnot marker hmarker d hd huser
    rw [hmerged] at hmarker
    rcases h.mem_flushed himm hg with ⟨hg, hgt⟩ | ⟨-, -, -, hgt⟩
    · exact hok.below level hlt g hg hnot marker hmarker d (hgt ▸ hd) huser
    · obtain ⟨f, hf, hmf⟩ := mem_levelEntries.mp (mem_mergedInputs.mp hmarker.mem)
      obtain ⟨l, -, hmem⟩ := hrun.input_mem hf
      exact hnewer d (hgt ▸ hd) l f hmem marker hmf

theorem ReadsHistory.flushed (scoring : Scoring K) (h : ReadsHistory history state)
    (himm : state.imm = some imm) (fileSize : ℕ) :
    ReadsHistory history (state.flushed scoring imm fileSize) :=
  { h with
    sound := h.sound.flushed scoring himm fileSize
    layered := Layered.flushed scoring h.layered h.sound himm fileSize
    reads := by
      rw [h.sound.allEntries_flushed scoring himm fileSize]
      exact h.reads
    running := fun compact hc ↦ (h.running compact hc).flushed scoring h.sound hc himm fileSize }

/-! ## Compactions -/

/-- No file that the compaction leaves at its level continues the user key at which one of its input
files ends: the input file would carry the newer entries of that user key below the older ones. -/
def KeepsOrder (state : State K V) (c : Compaction K) : Prop :=
  ∀ f ∈ c.inputs0, ∀ g ∈ state.current.files c.level, g ∉ c.inputs0 → f.largest < g.smallest → f.hi ≠ g.lo

/-- A file left at the next level continues the user key at which an input file ends only if no
deletion marker of that user key is dropped. -/
def KeepsMarkers (state : State K V) (c : Compaction K) : Prop :=
  ∀ f ∈ c.inputs1, ∀ g ∈ state.current.files (c.level + 1), g ∉ c.inputs1 →
    f.largest < g.smallest → f.hi = g.lo →
    ∀ marker, DroppedMarker state.current.files c.level state.smallestSnapshot
      (mergedInputs state.tables c) marker → marker.userKey ≠ f.hi

/-- Of two files of a sorted level the earlier one has the newer entries of a user key, or it ends with
the user key that the later one starts with. -/
theorem tag_lt_or_boundary {tables : ℕ → List (Entry K V)} {f g : FileMetaData K}
    (hf : TableOf f (tables f.number)) (hg : TableOf g (tables g.number)) (hlt : f.largest < g.smallest)
    {a b : Entry K V} (ha : a ∈ tables f.number) (hb : b ∈ tables g.number)
    (hab : a.userKey = b.userKey) : b.tag < a.tag ∧ f.hi = g.lo ∧ a.userKey = f.hi := by
  have hkey : a.key < b.key := (hf.le_largest a ha).trans_lt (hlt.trans_le (hg.smallest_le b hb))
  have hle : f.hi ≤ g.lo := InternalKey.userKey_le_of_lt hlt
  have hge : g.lo ≤ f.hi := (hg.lo_le hb).trans (hab.symm.le.trans (hf.le_hi ha))
  refine ⟨InternalKey.tag_lt_of_lt hkey hab, le_antisymm hle hge, ?_⟩
  exact le_antisymm (hf.le_hi ha) (hle.trans ((hg.lo_le hb).trans hab.symm.le))

/-- A file that does not meet the range of the inputs shares no user key with them. -/
theorem userKey_ne_of_not_meetsRange {tables : ℕ → List (Entry K V)} {inputs0 : List (FileMetaData K)}
    {range : InternalKey K × InternalKey K} (hcovers : Covers inputs0 range) {f g : FileMetaData K}
    (hf : f ∈ inputs0) (hft : TableOf f (tables f.number)) (hgt : TableOf g (tables g.number))
    (hmiss : ¬meetsRange range g = true) {a b : Entry K V} (ha : a ∈ tables f.number)
    (hb : b ∈ tables g.number) : a.userKey ≠ b.userKey := by
  intro hab
  refine hmiss (meetsRange_iff.mpr ⟨?_, ?_⟩)
  · exact (hcovers.isHull.le_lo f hf).trans
      ((hft.lo_le ha).trans (hab.le.trans (hgt.le_hi hb)))
  · exact (hgt.lo_le hb).trans
      (hab.symm.le.trans ((hft.le_hi ha).trans (hcovers.isHull.hi_le f hf)))

theorem Sound.picked_above (h : Sound state) {c : Compaction K} {range : InternalKey K × InternalKey K}
    (hpicked : Picked state.current c range) (hsafe : KeepsOrder state c) :
    ∀ g ∈ state.current.files c.level, g ∉ c.inputs0 → ∀ f ∈ c.inputs0, NewerTable state.tables g f := by
  intro g hg hnot f hf a ha b hb hab
  have hfmem := hpicked.inputs0.sublist.subset hf
  have hft := h.stored.table _ f hfmem
  have hgt := h.stored.table _ g hg
  by_cases hlevel : c.level = 0
  · have hmiss : ¬meetsRange range g = true := by
      intro hmeets
      rw [hpicked.inputs0.closed hlevel, mem_filter] at hnot
      exact hnot ⟨hlevel ▸ hg, hmeets⟩
    exact absurd hab.symm (userKey_ne_of_not_meetsRange hpicked.inputs0.covers hf hft hgt hmiss hb ha)
  · rcases (h.stored.sorted c.level hlevel).eq_or_lt hg hfmem with rfl | hlt | hlt
    · exact absurd hf hnot
    · exact (tag_lt_or_boundary hgt hft hlt ha hb hab).1
    · exact absurd (tag_lt_or_boundary hft hgt hlt hb ha hab.symm).2.1 (hsafe f hf g hg hnot hlt)

theorem Sound.picked_below (h : Sound state) {c : Compaction K} {range : InternalKey K × InternalKey K}
    (hpicked : Picked state.current c range) (hsafe : KeepsMarkers state c) :
    ∀ level, c.level < level → ∀ g ∈ state.current.files level, (level = c.level + 1 → g ∉ c.inputs1) →
      ∀ marker, DroppedMarker state.current.files c.level state.smallestSnapshot
        (mergedInputs state.tables c) marker →
      ∀ d ∈ state.tables g.number, d.userKey = marker.userKey → marker.tag < d.tag := by
  intro level hlt g hg hnot marker hmarker d hd huser
  have hgt := h.stored.table level g hg
  by_cases hnext : level = c.level + 1
  · subst hnext
    have hnot := hnot rfl
    obtain ⟨f, hf, hmf⟩ := mem_levelEntries.mp (mem_mergedInputs.mp hmarker.mem)
    rcases mem_inputs.mp hf with hf | hf
    · have hmiss : ¬meetsRange range g = true := by
        intro hmeets
        rw [hpicked.inputs1_eq, mem_filter] at hnot
        exact hnot ⟨hg, hmeets⟩
      exact absurd huser.symm (userKey_ne_of_not_meetsRange hpicked.inputs0.covers hf
        (h.stored.table _ f (hpicked.inputs0.sublist.subset hf)) hgt hmiss hmf hd)
    · have hfmem := (Picked.inputs1_sublist hpicked).subset hf
      have hft := h.stored.table _ f hfmem
      rcases (h.stored.sorted _ (Nat.succ_ne_zero _)).eq_or_lt hg hfmem with rfl | hlt | hlt
      · exact absurd hf hnot
      · exact (tag_lt_or_boundary hgt hft hlt hd hmf huser).1
      · obtain ⟨-, hbound, hkey⟩ := tag_lt_or_boundary hft hgt hlt hmf hd huser.symm
        exact absurd hkey (hsafe f hf g hg hnot hlt hbound marker hmarker)
  · -- deeper levels hold nothing of a base-level key
    have hlast : level < kNumLevels := by
      by_contra hge
      rw [h.stored.last level (Nat.not_lt.mp hge)] at hg
      cases hg
    refine absurd ?_ (hmarker.obsolete.2.2 level (mem_deeperLevels.mpr ⟨by omega, hlast⟩) g hg)
    exact ⟨huser ▸ hgt.lo_le hd, huser ▸ hgt.le_hi hd⟩

theorem ReadsHistory.smallestSnapshot_le (h : ReadsHistory history state) {s : ℕ}
    (hs : Readable state s) : state.smallestSnapshot ≤ s := by
  have hsorted := h.snapshots_sorted
  have hle := h.snapshots_le
  unfold Readable at hs
  unfold State.smallestSnapshot
  cases hsnap : state.snapshots with
  | nil =>
    rw [hsnap] at hs
    exact hs.resolve_left (by simp)
  | cons oldest rest =>
    rw [hsnap] at hs hsorted hle
    show oldest ≤ s
    rcases hs with hs | hs
    · rcases mem_cons.mp hs with rfl | hs
      · exact le_rfl
      · exact (pairwise_cons.mp hsorted).1 s hs
    · exact (hle oldest mem_cons_self).trans hs

def SafeCompaction (state : State K V) : Prop :=
  ∀ c, state.current.pickCompaction state.compactPointer = some c →
    KeepsOrder state c ∧ KeepsMarkers state c

theorem ReadsHistory.beginCompaction (h : ReadsHistory history state) (hsafe : SafeCompaction state)
    (hstep : state.beginCompaction = .next state') : ReadsHistory history state' := by
  have hsound := h.sound.beginCompaction hstep
  unfold State.beginCompaction at hstep
  rw [Outcome.guarded_eq_next] at hstep
  obtain ⟨-, hstep⟩ := hstep
  split at hstep
  · cases hstep
  · rename_i c hpick
    cases hstep
    obtain ⟨range, hpicked⟩ := Version.pickCompaction_spec h.sound.pickable hpick
    obtain ⟨horder, hmarkers⟩ := hsafe c hpick
    refine { h with sound := hsound, running := ?_ }
    rintro _ ⟨⟩
    refine ⟨?_, fun s hs ↦ h.smallestSnapshot_le hs, ?_, ?_, rfl, h.sound.picked_above hpicked horder, ?_⟩
    · exact (h.smallestSnapshot_le (.inr le_rfl)).trans_lt h.sound.last_lt
    · rw [hpicked.inputVersion_eq]
      intro lvl hlvl
      have := (mem_deeperLevels.mp hlvl).1
      exact h.sound.stored.sorted lvl (by omega)
    · exact mergedInputs_sorted h.sound.stored hpicked.inputs0.sublist
        (Picked.inputs1_sublist hpicked)
    · rw [hpicked.inputVersion_eq]
      exact h.sound.picked_below hpicked hmarkers

theorem CompactionOk.finishOutput (hok : CompactionOk state compact) (h : Sound state)
    (hrunning : state.running = some compact) {count fileSize : ℕ} {f : FileMetaData K}
    (hmeta : tableMeta state.nextFileNumber fileSize (compact.remaining.take count) = some f)
    (hstate : state'.snapshots = state.snapshots ∧ state'.lastSequence = state.lastSequence ∧
      state'.current = state.current ∧ state'.tables =
        update state.tables state.nextFileNumber (compact.remaining.take count)) :
    CompactionOk state' { compact with
      outputs := compact.outputs ++ [f]
      remaining := compact.remaining.drop count } := by
  obtain ⟨hsnapshots, hlast, hcurrent, htables⟩ := hstate
  have hrun := h.running compact hrunning
  have hmerged := hrun.mergedInputs_update h (compact.remaining.take count)
  have hsame : ∀ level, ∀ g ∈ state.current.files level, update state.tables
      state.nextFileNumber (compact.remaining.take count) g.number = state.tables g.number :=
    fun level g hg ↦ update_of_ne (h.stored.number_lt level g hg).ne _ _
  refine ⟨hok.smallest_lt, fun s hs ↦ hok.readable s ?_, hok.sortedFrom, ?_, ?_, ?_, ?_⟩
  · unfold Readable at hs ⊢
    rwa [hsnapshots, hlast] at hs
  · rw [htables, hmerged]
    exact hok.merged_sorted
  · rw [htables, hmerged, hrun.kept_cut hmeta]
    exact hok.kept_eq
  · intro g hg hnot f hf
    rw [hcurrent] at hg
    unfold NewerTable
    rw [htables, hsame _ g hg, hsame _ f (hrun.inputs0 f hf)]
    exact hok.above g hg hnot f hf
  · intro level hlt g hg hnot marker hmarker
    rw [hcurrent] at hg
    rw [htables, hmerged] at hmarker
    rw [htables, hsame level g hg]
    exact hok.below level hlt g hg hnot marker hmarker

theorem ReadsHistory.finishOutput (h : ReadsHistory history state) {count fileSize : ℕ}
    (hstep : state.finishOutput count fileSize = .next state') : ReadsHistory history state' := by
  have hsound := h.sound.finishOutput hstep
  unfold State.finishOutput at hstep
  split at hstep
  · cases hstep
  · rename_i compact hrunning
    split at hstep
    · cases hstep
    · rename_i f hmeta
      cases hstep
      have hsame : ∀ level, ∀ g ∈ state.current.files level, update state.tables
          state.nextFileNumber (compact.remaining.take count) g.number = state.tables g.number :=
        fun level g hg ↦ update_of_ne (h.sound.stored.number_lt level g hg).ne _ _
      have hstored : storedEntries state.current (update state.tables state.nextFileNumber
          (compact.remaining.take count)) = storedEntries state.current state.tables := by
        unfold storedEntries
        simp only [levelEntries_update _ (h.sound.stored.number_lt _)]
      refine { h with
        sound := hsound
        layered := h.layered.congr hsame
        reads := ?_
        running := ?_ }
      · intro s hs userKey result
        unfold State.allEntries
        dsimp only
        rw [hstored]
        exact h.reads s hs userKey result
      · rintro _ ⟨⟩
        exact (h.running compact hrunning).finishOutput h.sound hrunning hmeta ⟨rfl, rfl, rfl, rfl⟩

/-! ## Installing a compaction -/

def State.restEntries (state : State K V) (compact : CompactionState K V) : Set (Entry K V) :=
  {e | e ∈ state.mem} ∪ ({e | e ∈ state.immEntries} ∪
    {e | ∃ level f, Stays state.current.files compact.edit level f ∧ e ∈ state.tables f.number})

theorem Sound.allEntries_eq (h : Sound state) (hrunning : state.running = some compact) :
    state.allEntries = {e | e ∈ mergedInputs state.tables compact.compaction} ∪
      state.restEntries compact := by
  have hok := h.running compact hrunning
  ext e
  have hsplit : e ∈ storedEntries state.current state.tables ↔
      e ∈ mergedInputs state.tables compact.compaction ∨
        ∃ level f, Stays state.current.files compact.edit level f ∧ e ∈ state.tables f.number := by
    rw [h.mem_storedEntries, mem_mergedInputs, mem_levelEntries]
    constructor
    · rintro ⟨level, f, hf, he⟩
      by_cases hdel : f.number ∈ compact.edit.deletedAt level
      · left
        rcases mem_deletedAt_edit.mp hdel with ⟨rfl, g, hg, heq⟩ | ⟨rfl, g, hg, heq⟩
        · exact ⟨g, mem_append_left _ hg, heq ▸ he⟩
        · exact ⟨g, mem_append_right _ hg, heq ▸ he⟩
      · exact .inr ⟨level, f, ⟨hf, hdel⟩, he⟩
    · rintro (⟨f, hf, he⟩ | ⟨level, f, hf, he⟩)
      · obtain ⟨level, -, hmem⟩ := hok.input_mem hf
        exact ⟨level, f, hmem, he⟩
      · exact ⟨level, f, hf.1, he⟩
  simp only [State.allEntries, State.restEntries, Set.mem_union, Set.mem_ofPred_eq, hsplit]
  tauto

theorem Sound.allEntries_installed (scoring : Scoring K) (h : Sound state)
    (hrunning : state.running = some compact)
    (hok : CompactionOk state compact) (hremaining : compact.remaining = []) :
    (state.installed scoring compact).allEntries =
      {e | e ∈ keptEntries compact.compaction.inputVersion.files compact.compaction.level
        compact.smallestSnapshot (mergedInputs state.tables compact.compaction)} ∪
      state.restEntries compact := by
  have hrun := h.running compact hrunning
  have ha := hrun.edit_applicable h.stored
  have hkept := hok.kept_eq
  rw [hremaining, append_nil] at hkept
  ext e
  have hsplit : e ∈ storedEntries (state.installed scoring compact).current state.tables ↔
      e ∈ keptEntries compact.compaction.inputVersion.files compact.compaction.level
        compact.smallestSnapshot (mergedInputs state.tables compact.compaction) ∨
        ∃ level f, Stays state.current.files compact.edit level f ∧ e ∈ state.tables f.number := by
    rw [← hkept, mem_levelEntries]
    have hmem := (h.installed scoring hrunning).mem_storedEntries (e := e)
    rw [show (state.installed scoring compact).tables = state.tables from rfl] at hmem
    rw [hmem]
    constructor
    · rintro ⟨level, f, hf, he⟩
      rcases (ha.mem_editedFiles h.stored.last _ _).mp hf with hf | hf
      · exact .inr ⟨level, f, hf, he⟩
      · exact .inl ⟨f, (mem_newAt_edit.mp hf).2, he⟩
    · rintro (⟨f, hf, he⟩ | ⟨level, f, hf, he⟩)
      · exact ⟨_, f, (ha.mem_editedFiles h.stored.last _ _).mpr
          (.inr (mem_newAt_edit.mpr ⟨rfl, hf⟩)), he⟩
      · exact ⟨level, f, (ha.mem_editedFiles h.stored.last _ _).mpr (.inl hf), he⟩
  have hmem : (state.installed scoring compact).mem = state.mem := rfl
  have himm : (state.installed scoring compact).immEntries = state.immEntries := rfl
  have htables : (state.installed scoring compact).tables = state.tables := rfl
  simp only [State.allEntries, State.restEntries, Set.mem_union, Set.mem_ofPred_eq, hmem, himm,
    htables, hsplit]
  tauto

/-- Nothing outside the inputs is older than a deletion marker that the compaction drops. -/
theorem ReadsHistory.marker_lt_rest (h : ReadsHistory history state)
    (hrunning : state.running = some compact) {marker : Entry K V}
    (hmarker : DroppedMarker compact.compaction.inputVersion.files compact.compaction.level
      compact.smallestSnapshot (mergedInputs state.tables compact.compaction) marker) :
    ∀ d ∈ state.restEntries compact, d.userKey = marker.userKey → marker.tag < d.tag := by
  have hrun := h.sound.running compact hrunning
  have hok := h.running compact hrunning
  obtain ⟨f, hf, hmf⟩ := mem_levelEntries.mp (mem_mergedInputs.mp hmarker.mem)
  obtain ⟨l, hl, hfmem⟩ := hrun.input_mem hf
  obtain ⟨-, -, -, himm⟩ := h.sound.immEntries
  rintro d (hd | hd | ⟨level, g, hg, hd⟩) huser
  · exact tag_lt_of_sequence_lt (h.sound.file_lt_mem l f hfmem marker hmf d hd)
  · exact tag_lt_of_sequence_lt (himm l f hfmem marker hmf d hd)
  · have hnot : g ∉ inputs compact.compaction :=
      fun hmem ↦ hrun.number_ne_of_stays h.sound.stored hg hmem rfl
    rcases lt_trichotomy level compact.compaction.level with hlt | rfl | hlt
    · rcases mem_inputs.mp hf with hf | hf
      · exact h.layered.levels _ _ hlt g hg.1 f (hrun.inputs0 f hf) d hd marker hmf huser
      · exact h.layered.levels _ _ (by omega) g hg.1 f (hrun.inputs1 f hf) d hd marker hmf huser
    · rcases mem_inputs.mp hf with hf | hf
      · exact hok.above g hg.1 (fun hmem ↦ hnot (mem_inputs.mpr (.inl hmem))) f hf d hd marker hmf
          huser
      · exact h.layered.levels _ _ (Nat.lt_succ_self _) g hg.1 f (hrun.inputs1 f hf) d hd marker hmf
          huser
    · exact hok.below level hlt g hg.1 (fun _ hmem ↦ hnot (mem_inputs.mpr (.inr hmem))) marker
        hmarker d hd huser

theorem Layered.installed (scoring : Scoring K) (h : ReadsHistory history state)
    (hrunning : state.running = some compact) :
    Layered (state.installed scoring compact).current state.tables := by
  have hrun := h.sound.running compact hrunning
  have hok := h.running compact hrunning
  have hmem := (hrun.edit_applicable h.sound.stored).mem_editedFiles h.sound.stored.last
  constructor
  · intro f hf g hg
    rcases (hmem 0 f).mp hf with hf | hf
    · rcases (hmem 0 g).mp hg with hg | hg
      · exact h.layered.zero f hf.1 g hg.1
      · exact absurd (mem_newAt_edit.mp hg).1 (by omega)
    · exact absurd (mem_newAt_edit.mp hf).1 (by omega)
  · intro i j hij f hf g hg a ha b hb hab
    rcases (hmem i f).mp hf with hf | hf <;> rcases (hmem j g).mp hg with hg | hg
    · exact h.layered.levels i j hij f hf.1 g hg.1 a ha b hb hab
    · -- a file that stays above an output: the output's entries come from the inputs
      obtain ⟨rfl, hout⟩ := mem_newAt_edit.mp hg
      obtain ⟨x, hx, hbx⟩ := hrun.output_entry hout hb
      have hnot : f ∉ inputs compact.compaction :=
        fun hmem ↦ hrun.number_ne_of_stays h.sound.stored hf hmem rfl
      rcases mem_inputs.mp hx with hx | hx
      · rcases Nat.lt_or_eq_of_le (Nat.le_of_lt_succ hij) with hlt | rfl
        · exact h.layered.levels _ _ hlt f hf.1 x (hrun.inputs0 x hx) a ha b hbx hab
        · exact hok.above f hf.1 (fun hmem ↦ hnot (mem_inputs.mpr (.inl hmem))) x hx a ha b hbx hab
      · exact h.layered.levels _ _ hij f hf.1 x (hrun.inputs1 x hx) a ha b hbx hab
    · obtain ⟨rfl, hout⟩ := mem_newAt_edit.mp hf
      obtain ⟨x, hx, hax⟩ := hrun.output_entry hout ha
      obtain ⟨l, hl, hxmem⟩ := hrun.input_mem hx
      exact h.layered.levels l j (by omega) x hxmem g hg.1 a hax b hb hab
    · have hi := (mem_newAt_edit.mp hf).1
      have hj := (mem_newAt_edit.mp hg).1
      omega

theorem ReadsHistory.installed (scoring : Scoring K) (h : ReadsHistory history state)
    (hrunning : state.running = some compact)
    (hremaining : compact.remaining = []) : ReadsHistory history (state.installed scoring compact) := by
  have hrun := h.sound.running compact hrunning
  have hok := h.running compact hrunning
  refine { h with
    sound := h.sound.installed scoring hrunning
    layered := Layered.installed scoring h hrunning
    reads := ?_
    running := by simp [State.installed, State.withEdit] }
  intro s hs userKey result
  rw [← h.reads s hs userKey result, h.sound.allEntries_eq hrunning,
    h.sound.allEntries_installed scoring hrunning hok hremaining]
  apply resolves_keptEntries hok.sortedFrom hok.smallest_lt hok.merged_sorted _ _ userKey
    (hok.readable s hs) result
  · exact fun marker hmarker ↦ h.marker_lt_rest hrunning hmarker
  · -- every input entry parses, so no value is exposed
    intro marker bad value hexposes
    obtain ⟨f, hf, hbad⟩ := mem_levelEntries.mp (mem_mergedInputs.mp hexposes.bad_precedes.1)
    obtain ⟨level, -, hmem⟩ := hrun.input_mem hf
    have hparse := (h.sound.file_written level f hmem bad hbad).1
    rw [hexposes.bad_type] at hparse
    cases hparse

end Files

/-! ## Runs -/

/-- The condition on the steps of a run: it restricts only the start of a compaction. -/
def SafeStep (state : State K V) : Action K V → Prop
  | .beginCompaction => SafeCompaction state
  | _ => True

/-- A condition that can be evaluated: a compaction takes the whole of its two levels. -/
def takesWholeLevels (state : State K V) : Action K V → Bool
  | .beginCompaction => (state.current.pickCompaction state.compactPointer).all fun c ↦
      decide (state.current.files c.level = c.inputs0 ∧ state.current.files (c.level + 1) = c.inputs1)
  | _ => true

theorem SafeStep.of_takesWholeLevels {action : Action K V} (h : takesWholeLevels state action = true) :
    SafeStep state action := by
  cases action with
  | beginCompaction =>
    intro c hpick
    rw [takesWholeLevels, hpick, Option.all_some, decide_eq_true_iff] at h
    constructor
    · intro f _ g hg hnot
      exact absurd (h.1 ▸ hg) hnot
    · intro f _ g hg hnot
      exact absurd (h.2 ▸ hg) hnot
  | _ => trivial

variable [Inhabited V]

theorem ReadsHistory.step {scoring : Scoring K} {history : History K V} {state state' : State K V}
    (h : ReadsHistory history state) {action : Action K V} (hsafe : SafeStep state action)
    (hstep : Engine.step scoring state action = .next state') :
    ReadsHistory (history.step action) state' := by
  cases action with
  | write batch => exact h.write hstep
  | failedWrite count => exact h.failedWrite hstep
  | switchMemTable => exact h.switchMemTable hstep
  | compactMemTable fileSize =>
    cases himm : state.imm with
    | none => simp [Engine.step, State.compactMemTable, himm] at hstep
    | some imm =>
      rw [Engine.step, h.sound.compactMemTable_eq scoring himm] at hstep
      cases hstep
      exact h.flushed scoring himm fileSize
  | beginCompaction => exact h.beginCompaction hsafe hstep
  | finishOutput count fileSize => exact h.finishOutput hstep
  | installCompaction =>
    cases hrunning : state.running with
    | none => simp [Engine.step, State.installCompaction, hrunning] at hstep
    | some compact =>
      rw [Engine.step, h.sound.installCompaction_eq scoring hrunning, Outcome.guarded_eq_next] at hstep
      obtain ⟨hempty, hnext⟩ := hstep
      cases hnext
      exact h.installed scoring hrunning (isEmpty_iff.mp hempty)
  | abandonCompaction =>
    have hsound := h.sound.step hstep
    cases hstep
    exact h.of_same hsound rfl h.last_eq le_rfl h.snapshots_sorted h.snapshots_le (fun s hs ↦ hs) rfl
      rfl rfl (by simp)
  | get userKey snapshot =>
    simp only [Engine.step, Outcome.guarded_eq_next, Outcome.next.injEq] at hstep
    obtain ⟨-, rfl⟩ := hstep
    exact h.afterGet userKey snapshot
  | chargeSeek number =>
    have hsound := h.sound.step hstep
    cases hstep
    exact h.of_same hsound rfl h.last_eq le_rfl h.snapshots_sorted h.snapshots_le (fun s hs ↦ hs) rfl
      rfl rfl fun _ hc ↦ hc
  | getSnapshot =>
    cases hstep
    exact h.getSnapshot
  | releaseSnapshot index =>
    cases hstep
    exact h.releaseSnapshot index

theorem readsHistory_of_run {scoring : Scoring K} {actions : List (Action K V)}
    (hrun : (engine scoring).Run SafeStep actions state) : ReadsHistory (historyOf actions) state := by
  refine hrun.invariant (P := fun actions state ↦ ReadsHistory (historyOf actions) state) ?_ ?_
  · rintro _ ⟨nextFileNumber, rfl⟩
    exact ReadsHistory.empty scoring nextFileNumber
  · intro actions state action state' h hsafe hstep
    rw [historyOf, foldl_append]
    exact h.step hsafe hstep

/-- In every run whose compactions all start safely, a lookup at the latest sequence number or at a
snapshot in the list returns the newest write of the history up to that number. -/
theorem get_eq_newest_write (scoring : Scoring K) (actions : List (Action K V)) (state : State K V)
    (hrun : (engine scoring).Run SafeStep actions state) (userKey : K) (s : ℕ)
    (hs : s = state.lastSequence ∨ s ∈ state.snapshots) :
    state.get userKey s = (historyOf actions).get userKey s :=
  (readsHistory_of_run hrun).get_eq (hs.symm.imp_right fun h ↦ h.ge) userKey

/-- Two versions of a user key and a snapshot between them, through a flush and a compaction. -/
theorem get_eq_newest_write_after_compaction : ∃ (actions : List (Action ℕ ℕ)) (state : State ℕ ℕ),
      (engine (exactScoring ℕ)).Run SafeStep actions state ∧
      state.snapshots = [1] ∧ (state.current.files 3).length = 1 ∧
      (historyOf actions).get 1 2 = .ok 20 ∧ state.get 1 2 = .ok 20 ∧
      (historyOf actions).get 1 1 = .ok 10 ∧ state.get 1 1 = .ok 10 := by
  obtain ⟨state, hrun, hlast, hsnapshots, hfiles⟩ := Machine.Run.of_exec (engine (exactScoring ℕ))
    takesWholeLevels (State.empty (exactScoring ℕ) 2) ⟨2, rfl⟩
    [.write [.put 1 10], .getSnapshot, .write [.put 1 20], .switchMemTable, .compactMemTable 200000000,
      .beginCompaction, .finishOutput 2 200000000, .installCompaction]
    (fun state ↦ state.lastSequence = 2 ∧ state.snapshots = [1] ∧
      (state.current.files 3).length = 1) (by decide +kernel)
  have hsafe : (engine (exactScoring ℕ)).Run SafeStep _ state :=
    hrun.mono fun _ _ ↦ SafeStep.of_takesWholeLevels
  refine ⟨_, state, hsafe, hsnapshots, hfiles, by decide, ?_, by decide, ?_⟩
  · rw [get_eq_newest_write (exactScoring ℕ) _ state hsafe 1 2 (.inl hlast.symm)]
    decide
  · rw [get_eq_newest_write (exactScoring ℕ) _ state hsafe 1 1 (.inr (by simp [hsnapshots]))]
    decide

/-- With a snapshot between two versions of a user key, a compaction can write them into two files of
a level.  The next compaction takes only the first file and moves the newer version below the older
one, which a lookup then returns. -/
theorem get_returns_older_write : ∃ (actions : List (Action ℕ ℕ)) (state : State ℕ ℕ),
      (engine (exactScoring ℕ)).Run (fun _ _ ↦ True) actions state ∧ state.lastSequence = 2 ∧
      state.get 1 2 = .ok 10 ∧ (historyOf actions).get 1 2 = .ok 20 := by
  obtain ⟨state, hrun, hlast, hget⟩ := Machine.Run.of_exec (engine (exactScoring ℕ)) (fun _ _ ↦ true)
    (State.empty (exactScoring ℕ) 2) ⟨2, rfl⟩
    [.write [.put 1 10], .getSnapshot, .write [.put 1 20], .switchMemTable, .compactMemTable 1200000000,
      .beginCompaction, .finishOutput 1 600000000, .finishOutput 1 600000000, .installCompaction,
      .beginCompaction, .finishOutput 1 600000000, .installCompaction]
    (fun state ↦ state.lastSequence = 2 ∧ state.get 1 2 = .ok 10) (by decide +kernel)
  exact ⟨_, state, hrun.mono fun _ _ _ ↦ trivial, hlast, hget, by decide⟩

end LevelDB.Db.Engine
