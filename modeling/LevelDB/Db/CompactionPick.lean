import LevelDB.Db.VersionBuilder

/-!
# Versions and the choice of compaction inputs

`Version::PickLevelForMemTableOutput`, `VersionSet::Finalize`, `VersionSet::PickCompaction` and
`VersionSet::SetupOtherInputs` of `db/version_set.cpp`.  The result about the last two is that the
inputs of a compaction are linked: their user-key ranges leave no hole into which another range
would fit.
-/

namespace LevelDB.Db.CompactionPick

open Format TableFiles VersionBuilder Library List

variable {K : Type*}

/-- The fields of `Version` that the code modelled here reads. -/
structure Version (K : Type*) where
  files : ℕ → List (FileMetaData K)
  /-- Next file to compact based on seek stats, with its level. -/
  fileToCompact : Option (FileMetaData K × ℕ) := none
  /-- Score < 1 means compaction is not strictly needed. -/
  compactionScore : ℚ := -1
  compactionLevel : ℕ := 0

/-- How `Finalize` scores a level.  The source computes with doubles; what the rest relies on is
that an empty level never reaches the threshold. -/
structure Scoring (K : Type*) where
  score : ℕ → List (FileMetaData K) → ℚ
  score_nil_lt_one : ∀ level, score level [] < 1

def maxBytesForLevel (level : ℕ) : ℚ := 10 * 1048576 * 10 ^ (level - 1)

/-- The quotients of `Finalize` without rounding. -/
def exactScoring (K : Type*) : Scoring K where
  score level files :=
    if level = 0 then (files.length : ℚ) / kL0CompactionTrigger
    else (totalFileSize files : ℚ) / maxBytesForLevel level
  score_nil_lt_one level := by
    by_cases h : level = 0 <;> simp [h, totalFileSize]

/-- One round of the loop of `Finalize`. -/
def betterLevel (scoring : Scoring K) (files : ℕ → List (FileMetaData K)) (best : ℕ × ℚ)
    (level : ℕ) : ℕ × ℚ :=
  if best.2 < scoring.score level (files level) then (level, scoring.score level (files level))
  else best

def finalize (scoring : Scoring K) (files : ℕ → List (FileMetaData K)) : Version K :=
  let best := (List.range (kNumLevels - 1)).foldl (betterLevel scoring files) (0, -1)
  { files, compactionScore := best.2, compactionLevel := best.1 }

/-- A level that is due for compaction is not the last one and holds a file. -/
theorem finalize_level {scoring : Scoring K} {files : ℕ → List (FileMetaData K)}
    (hscore : 1 ≤ (finalize scoring files).compactionScore) :
    (finalize scoring files).compactionLevel + 1 < kNumLevels ∧
      files (finalize scoring files).compactionLevel ≠ [] := by
  have hbest : ∀ (levels : List ℕ) (best : ℕ × ℚ), (∀ level ∈ levels, level + 1 < kNumLevels) →
      (1 ≤ best.2 → best.1 + 1 < kNumLevels ∧ files best.1 ≠ []) →
      1 ≤ (levels.foldl (betterLevel scoring files) best).2 →
      (levels.foldl (betterLevel scoring files) best).1 + 1 < kNumLevels ∧
        files (levels.foldl (betterLevel scoring files) best).1 ≠ [] := by
    intro levels
    induction levels with
    | nil => exact fun best _ h ↦ h
    | cons level rest ih =>
      intro best hlevels h
      rw [foldl_cons]
      apply ih _ fun l hl ↦ hlevels l (mem_cons_of_mem level hl)
      unfold betterLevel
      split
      · intro hone
        refine ⟨hlevels level mem_cons_self, fun hnil ↦ ?_⟩
        have := scoring.score_nil_lt_one level
        simp only [hnil] at hone
        exact absurd hone (not_le.mpr this)
      · exact h
  apply hbest _ (0, -1)
  · intro level hlevel
    have := mem_range.mp hlevel
    unfold kNumLevels at this ⊢
    omega
  · intro h
    norm_num at h
  · exact hscore

variable [LinearOrder K]
  {v : Version K} {level : ℕ} {inputs : List (FileMetaData K)} {range : InternalKey K × InternalKey K}
  {f : FileMetaData K}

def Version.overlapInLevel (v : Version K) (level : ℕ) (smallest : WithBot K)
    (largest : WithTop K) : Bool :=
  someFileOverlapsRange (decide (0 < level)) (v.files level) smallest largest

/-- The loop that pushes a memtable output down while nothing overlaps. -/
def Version.pickLevelLoop (v : Version K) (smallest largest : K) : ℕ → ℕ → ℕ
  | 0, level => level
  | fuel + 1, level =>
    if level < kMaxMemCompactLevel then
      if v.overlapInLevel (level + 1) smallest largest then level
      else if kMaxGrandParentOverlapBytes < totalFileSize (getOverlappingInputs (level + 2)
          (v.files (level + 2)) smallest largest) then level
      else v.pickLevelLoop smallest largest fuel (level + 1)
    else level

def Version.pickLevelForMemTableOutput (v : Version K) (smallest largest : K) : ℕ :=
  if v.overlapInLevel 0 smallest largest then 0
  else v.pickLevelLoop smallest largest kMaxMemCompactLevel 0

theorem Version.pickLevelLoop_spec {smallest largest : K} (fuel : ℕ) (hlevel : level ≤ kMaxMemCompactLevel)
    (hclear : ∀ l ≤ level, v.overlapInLevel l smallest largest = false) :
    v.pickLevelLoop smallest largest fuel level ≤ kMaxMemCompactLevel ∧
      ∀ l ≤ v.pickLevelLoop smallest largest fuel level, v.overlapInLevel l smallest largest = false := by
  induction fuel generalizing level with
  | zero => exact ⟨hlevel, hclear⟩
  | succ fuel ih =>
    simp only [pickLevelLoop]
    split_ifs with h₁ h₂ h₃
    · exact ⟨hlevel, hclear⟩
    · exact ⟨hlevel, hclear⟩
    · apply ih h₁
      intro l hl
      rcases Nat.lt_or_eq_of_le hl with hl | rfl
      · exact hclear l (by omega)
      · simpa using h₂
    · exact ⟨hlevel, hclear⟩

/-- A memtable output goes to level 0, or to a level such that it overlaps nothing at that level
and above. -/
theorem Version.pickLevelForMemTableOutput_spec (v : Version K) (smallest largest : K) :
    v.pickLevelForMemTableOutput smallest largest ≤ kMaxMemCompactLevel ∧
      (v.pickLevelForMemTableOutput smallest largest ≠ 0 →
        ∀ l ≤ v.pickLevelForMemTableOutput smallest largest,
          v.overlapInLevel l smallest largest = false) := by
  unfold pickLevelForMemTableOutput
  split
  · exact ⟨Nat.zero_le _, fun h ↦ absurd rfl h⟩
  · rename_i hzero
    have hclear : ∀ l ≤ 0, v.overlapInLevel l smallest largest = false := by
      intro l hl
      rw [Nat.le_zero.mp hl]
      simpa using hzero
    have hspec := pickLevelLoop_spec kMaxMemCompactLevel (Nat.zero_le _) hclear
    exact ⟨hspec.1, fun _ ↦ hspec.2⟩

/-- The minimal range that covers all entries in `inputs`; `none` for no inputs. -/
def getRange : List (FileMetaData K) → Option (InternalKey K × InternalKey K)
  | [] => none
  | f :: rest => some (rest.foldl (fun range g ↦
      (if g.smallest < range.1 then g.smallest else range.1,
        if range.2 < g.largest then g.largest else range.2)) (f.smallest, f.largest))

structure Covers (inputs : List (FileMetaData K)) (range : InternalKey K × InternalKey K) :
    Prop where
  smallest_le : ∀ f ∈ inputs, range.1 ≤ f.smallest
  le_largest : ∀ f ∈ inputs, f.largest ≤ range.2
  smallest_mem : ∃ f ∈ inputs, f.smallest = range.1
  largest_mem : ∃ f ∈ inputs, f.largest = range.2

theorem covers_foldl {inputs rest : List (FileMetaData K)} (h : Covers inputs range) :
    Covers (inputs ++ rest) (rest.foldl (fun range g ↦
      (if g.smallest < range.1 then g.smallest else range.1,
        if range.2 < g.largest then g.largest else range.2)) range) := by
  induction rest generalizing inputs range with
  | nil => simpa using h
  | cons g rest ih =>
    rw [foldl_cons, show inputs ++ g :: rest = (inputs ++ [g]) ++ rest by simp]
    apply ih
    constructor
    · intro f hf
      rcases mem_append.mp hf with hf | hf
      · have := h.smallest_le f hf
        dsimp only
        split_ifs with hlt
        · exact hlt.le.trans this
        · exact this
      · rw [mem_singleton.mp hf]
        dsimp only
        split_ifs with hlt
        · exact le_rfl
        · exact not_lt.mp hlt
    · intro f hf
      rcases mem_append.mp hf with hf | hf
      · have := h.le_largest f hf
        dsimp only
        split_ifs with hlt
        · exact this.trans hlt.le
        · exact this
      · rw [mem_singleton.mp hf]
        dsimp only
        split_ifs with hlt
        · exact le_rfl
        · exact not_lt.mp hlt
    · obtain ⟨f, hf, heq⟩ := h.smallest_mem
      dsimp only
      split_ifs with hlt
      · exact ⟨g, by simp, rfl⟩
      · exact ⟨f, mem_append_left _ hf, heq⟩
    · obtain ⟨f, hf, heq⟩ := h.largest_mem
      dsimp only
      split_ifs with hlt
      · exact ⟨g, by simp, rfl⟩
      · exact ⟨f, mem_append_left _ hf, heq⟩

theorem getRange_covers (h : getRange inputs = some range) : Covers inputs range := by
  cases inputs with
  | nil => cases h
  | cons f rest =>
    cases h
    have hone : Covers [f] (f.smallest, f.largest) := ⟨by simp, by simp, by simp, by simp⟩
    exact covers_foldl hone

theorem getRange_isSome (h : inputs ≠ []) : ∃ range, getRange inputs = some range := by
  cases inputs with
  | nil => exact absurd rfl h
  | cons f rest => exact ⟨_, rfl⟩

theorem Covers.isHull (h : Covers inputs range) :
    Ranges.IsHull FileMetaData.lo FileMetaData.hi {f | f ∈ inputs} range.1.userKey
      range.2.userKey := by
  constructor
  · exact fun f hf ↦ InternalKey.userKey_le_of_le (h.smallest_le f hf)
  · exact fun f hf ↦ InternalKey.userKey_le_of_le (h.le_largest f hf)
  · obtain ⟨f, hf, heq⟩ := h.smallest_mem
    exact ⟨f, hf, congrArg InternalKey.userKey heq⟩
  · obtain ⟨f, hf, heq⟩ := h.largest_mem
    exact ⟨f, hf, congrArg InternalKey.userKey heq⟩

structure Compaction (K : Type*) where
  level : ℕ
  inputVersion : Version K
  inputs0 : List (FileMetaData K)
  inputs1 : List (FileMetaData K)
  grandparents : List (FileMetaData K)
  /-- The key up to which this compaction covers its level, for `compact_pointer_`. -/
  largest : InternalKey K

def Version.overlapping (v : Version K) (level : ℕ) (range : InternalKey K × InternalKey K) :
    List (FileMetaData K) :=
  getOverlappingInputs level (v.files level) (range.1.userKey : WithBot K)
    (range.2.userKey : WithTop K)

/-- The end of `SetupOtherInputs`, for the inputs it settles on. -/
def Version.withGrandparents (v : Version K) (level : ℕ) (inputs0 inputs1 : List (FileMetaData K))
    (largest : InternalKey K) : Option (Compaction K) := do
  let all ← getRange (inputs0 ++ inputs1)
  return { level, inputVersion := v, inputs0, inputs1, largest
           grandparents := if level + 2 < kNumLevels then v.overlapping (level + 2) all else [] }

/-- See if we can grow the number of inputs in `level` without changing those of `level+1`: the expanded
inputs with their range. -/
def Version.expandedInputs (v : Version K) (level : ℕ) (inputs0 inputs1 : List (FileMetaData K))
    (all : InternalKey K × InternalKey K) :
    Option (List (FileMetaData K) × (InternalKey K × InternalKey K)) := do
  let expanded0 := v.overlapping level all
  if inputs1 ≠ [] ∧ inputs0.length < expanded0.length ∧
      totalFileSize inputs1 + totalFileSize expanded0 < kExpandedCompactionByteSizeLimit then
    let newRange ← getRange expanded0
    if (v.overlapping (level + 1) newRange).length = inputs1.length then return (expanded0, newRange)
    else none
  else none

/-- `SetupOtherInputs`; `none` only for no inputs, on which `GetRange` must not be called. -/
def Version.setupOtherInputs (v : Version K) (level : ℕ) (inputs0 : List (FileMetaData K)) :
    Option (Compaction K) := do
  let range ← getRange inputs0
  let inputs1 := v.overlapping (level + 1) range
  let all ← getRange (inputs0 ++ inputs1)
  match v.expandedInputs level inputs0 inputs1 all with
  | some (expanded0, newRange) =>
    v.withGrandparents level expanded0 (v.overlapping (level + 1) newRange) newRange.2
  | none => v.withGrandparents level inputs0 inputs1 range.2

def Version.pickFile (v : Version K) (compactPointer : ℕ → Option (InternalKey K)) :
    Option (FileMetaData K × ℕ) :=
  if 1 ≤ v.compactionScore then
    let files := v.files v.compactionLevel
    let next := files.find? fun f ↦ (compactPointer v.compactionLevel).all fun p ↦ decide (p < f.largest)
    (next.or files.head?).map fun f ↦ (f, v.compactionLevel)
  else v.fileToCompact

/-- `PickCompaction` on the current version; `none` when there is nothing to do. -/
def Version.pickCompaction (v : Version K) (compactPointer : ℕ → Option (InternalKey K)) :
    Option (Compaction K) := do
  let (f, level) ← v.pickFile compactPointer
  let inputs0 := if level = 0 then v.overlapping 0 (f.smallest, f.largest) else [f]
  v.setupOtherInputs level inputs0

def Version.InRange (v : Version K) (f : FileMetaData K) (level : ℕ) : Prop :=
  f ∈ v.files level ∧ level + 1 < kNumLevels

structure Version.MarksInRange (v : Version K) : Prop where
  due : 1 ≤ v.compactionScore → v.compactionLevel + 1 < kNumLevels ∧ v.files v.compactionLevel ≠ []
  seek : ∀ f level, v.fileToCompact = some (f, level) → v.InRange f level

omit [LinearOrder K] in
theorem marksInRange_finalize (scoring : Scoring K) (files : ℕ → List (FileMetaData K)) :
    (finalize scoring files).MarksInRange where
  due := finalize_level
  seek _ _ h := by cases h

structure Version.Pickable (v : Version K) : Prop extends v.MarksInRange where
  valid : ∀ level, ∀ f ∈ v.files level, f.smallest ≤ f.largest

theorem Version.MarksInRange.pickFile (h : v.MarksInRange) {compactPointer : ℕ → Option (InternalKey K)}
    (hpick : v.pickFile compactPointer = some (f, level)) : v.InRange f level := by
  unfold Version.pickFile at hpick
  split at hpick
  · rename_i hscore
    obtain ⟨g, hg, heq⟩ := Option.map_eq_some_iff.mp hpick
    cases heq
    refine ⟨?_, (h.due hscore).1⟩
    rcases Option.or_eq_some_iff.mp hg with hfind | ⟨-, hhead⟩
    · exact mem_of_find?_eq_some hfind
    · exact mem_of_mem_head? hhead
  · exact h.seek f level hpick

theorem linked_union_overlapping {S : Set (FileMetaData K)} {b e : K}
    (hlinked : Ranges.Linked FileMetaData.lo FileMetaData.hi S)
    (hhull : Ranges.IsHull FileMetaData.lo FileMetaData.hi S b e) (level : ℕ)
    (files : List (FileMetaData K)) :
    Ranges.Linked FileMetaData.lo FileMetaData.hi
      (S ∪ {f | f ∈ getOverlappingInputs level files (b : WithBot K) (e : WithTop K)}) := by
  by_cases hlevel : level = 0
  · subst hlevel
    obtain ⟨b', e', hcl⟩ := getOverlappingInputs_zero files (b : WithBot K) (e : WithTop K)
    intro a c hac havoid
    have hsides := hcl.sides a c hac fun f hf ↦ havoid f (.inr hf)
    rcases hlinked.hull_side hhull hac fun f hf ↦ havoid f (.inl hf) with hside | hside
    · left
      rintro f (hf | hf)
      · exact (hhull.hi_le f hf).trans_lt hside
      · exact WithTop.coe_lt_coe.mp
          ((hcl.within f hf).2.trans_lt (hsides.1 (WithTop.coe_lt_coe.mpr hside)))
    · right
      rintro f (hf | hf)
      · exact hside.trans_le (hhull.le_lo f hf)
      · exact WithBot.coe_lt_coe.mp
          ((hsides.2 (WithBot.coe_lt_coe.mpr hside)).trans_le (hcl.within f hf).1)
  · rw [getOverlappingInputs_of_ne_zero hlevel]
    apply hlinked.union hhull
    intro g hg
    have hmeets := meets_iff.mp (mem_filter.mp hg).2
    exact ⟨WithTop.coe_le_coe.mp hmeets.2, WithBot.coe_le_coe.mp hmeets.1⟩

def meetsRange (range : InternalKey K × InternalKey K) (f : FileMetaData K) : Bool :=
  meets (range.1.userKey : WithBot K) (range.2.userKey : WithTop K) f

theorem meetsRange_iff : meetsRange range f = true ↔ range.1.userKey ≤ f.hi ∧ f.lo ≤ range.2.userKey := by
  unfold meetsRange
  rw [meets_iff, WithBot.coe_le_coe, WithTop.coe_le_coe]

theorem Covers.meetsRange (h : Covers inputs range) (hf : f ∈ inputs) (hvalid : f.smallest ≤ f.largest) :
    meetsRange range f = true :=
  meetsRange_iff.mpr ⟨(h.isHull.le_lo f hf).trans (FileMetaData.lo_le_hi hvalid),
    (FileMetaData.lo_le_hi hvalid).trans (h.isHull.hi_le f hf)⟩

theorem Covers.meetsRange_mono {inputs inputs' : List (FileMetaData K)}
    {range range' : InternalKey K × InternalKey K} (h : Covers inputs range)
    (h' : Covers inputs' range') (hsub : ∀ f ∈ inputs, f ∈ inputs')
    (hf : CompactionPick.meetsRange range f = true) : CompactionPick.meetsRange range' f = true := by
  rw [meetsRange_iff] at hf ⊢
  obtain ⟨g, hg, hlo⟩ := h.isHull.lo_mem
  obtain ⟨g', hg', hhi⟩ := h.isHull.hi_mem
  constructor
  · exact (h'.isHull.le_lo g (hsub g hg)).trans (hlo.le.trans hf.1)
  · exact (hf.2.trans hhi.ge).trans (h'.isHull.hi_le g' (hsub g' hg'))

theorem Version.overlapping_of_ne_zero (v : Version K) (hlevel : level ≠ 0)
    (range : InternalKey K × InternalKey K) :
    v.overlapping level range = (v.files level).filter (meetsRange range) :=
  getOverlappingInputs_of_ne_zero hlevel _ _ _

theorem Version.overlapping_sublist (v : Version K) (level : ℕ)
    (range : InternalKey K × InternalKey K) : (v.overlapping level range).Sublist (v.files level) :=
  getOverlappingInputs_sublist _ _ _ _

theorem Version.mem_overlapping (hf : f ∈ v.files level) (hmeets : meetsRange range f = true) :
    f ∈ v.overlapping level range :=
  mem_getOverlappingInputs_of_meets hf hmeets

/-- At level 0 the inputs are closed: they are all the files that meet their own range. -/
theorem Version.overlapping_zero_closed (hv : v.Pickable) {range range' : InternalKey K × InternalKey K}
    (hcovers : Covers (v.overlapping 0 range) range') :
    v.overlapping 0 range = (v.files 0).filter (meetsRange range') := by
  obtain ⟨b', e', hcl⟩ := getOverlappingInputs_zero (v.files 0) (range.1.userKey : WithBot K)
    (range.2.userKey : WithTop K)
  have heq : v.overlapping 0 range = (v.files 0).filter (meets b' e') := hcl.inputs_eq
  rw [heq]
  apply filter_congr
  intro f hf
  rw [Bool.eq_iff_iff]
  constructor
  · intro hmeets
    have hmem : f ∈ v.overlapping 0 range := heq ▸ mem_filter.mpr ⟨hf, hmeets⟩
    exact hcovers.meetsRange hmem (hv.valid 0 f hf)
  · intro hmeets
    rw [meetsRange_iff] at hmeets
    obtain ⟨g, hg, hlo⟩ := hcovers.isHull.lo_mem
    obtain ⟨g', hg', hhi⟩ := hcovers.isHull.hi_mem
    rw [meets_iff]
    constructor
    · exact (hcl.within g hg).1.trans (WithBot.coe_le_coe.mpr (hlo.le.trans hmeets.1))
    · exact (WithTop.coe_le_coe.mpr (hmeets.2.trans hhi.ge)).trans (hcl.within g' hg').2

/-- What is settled about the inputs of level `level` before `SetupOtherInputs` runs, and kept by
it: they are files of the level that leave no hole, and at level 0 they are closed. -/
structure LevelInputs (v : Version K) (level : ℕ) (inputs : List (FileMetaData K))
    (range : InternalKey K × InternalKey K) : Prop where
  sublist : inputs.Sublist (v.files level)
  covers : Covers inputs range
  closed : level = 0 → inputs = (v.files 0).filter (meetsRange range)

structure Picked (v : Version K) (c : Compaction K) (range : InternalKey K × InternalKey K) :
    Prop where
  inputVersion_eq : c.inputVersion = v
  level_lt : c.level + 1 < kNumLevels
  inputs0 : LevelInputs v c.level c.inputs0 range
  inputs1_eq : c.inputs1 = (v.files (c.level + 1)).filter (meetsRange range)
  linked : Ranges.Linked FileMetaData.lo FileMetaData.hi {f | f ∈ c.inputs0 ∨ f ∈ c.inputs1}

theorem Version.withGrandparents_spec {inputs0 inputs1 : List (FileMetaData K)} {largest : InternalKey K}
    {c : Compaction K} (h : v.withGrandparents level inputs0 inputs1 largest = some c) :
    c.inputVersion = v ∧ c.level = level ∧ c.inputs0 = inputs0 ∧ c.inputs1 = inputs1 := by
  unfold withGrandparents at h
  obtain ⟨all, _, hc⟩ := Option.bind_eq_some_iff.mp h
  cases hc
  exact ⟨rfl, rfl, rfl, rfl⟩

theorem picked_of_withGrandparents {inputs0 inputs1 : List (FileMetaData K)} {largest : InternalKey K}
    {c : Compaction K} (hlevel : level + 1 < kNumLevels)
    (h : v.withGrandparents level inputs0 inputs1 largest = some c)
    (hinputs0 : LevelInputs v level inputs0 range)
    (hinputs1 : inputs1 = (v.files (level + 1)).filter (meetsRange range))
    (hlinked : Ranges.Linked FileMetaData.lo FileMetaData.hi {f | f ∈ inputs0 ∨ f ∈ inputs1}) :
    Picked v c range := by
  obtain ⟨hv, rfl, rfl, rfl⟩ := Version.withGrandparents_spec h
  exact ⟨hv, hlevel, hinputs0, hinputs1, hlinked⟩

theorem LevelInputs.linked_union (h : LevelInputs v level inputs range)
    (hlinked : Ranges.Linked FileMetaData.lo FileMetaData.hi {f | f ∈ inputs}) :
    Ranges.Linked FileMetaData.lo FileMetaData.hi
      {f | f ∈ inputs ∨ f ∈ v.overlapping (level + 1) range} :=
  linked_union_overlapping hlinked h.covers.isHull (level + 1) (v.files (level + 1))

theorem Version.subset_overlapping {inputs0 inputs1 : List (FileMetaData K)} {all : InternalKey K × InternalKey K}
    (hvalid : ∀ f ∈ v.files level, f.smallest ≤ f.largest) (hsublist : inputs0.Sublist (v.files level))
    (hall : Covers (inputs0 ++ inputs1) all) : ∀ f ∈ inputs0, f ∈ v.overlapping level all := by
  intro f hf
  have hmem := hsublist.subset hf
  exact mem_overlapping hmem (hall.meetsRange (mem_append_left _ hf) (hvalid f hmem))

/-- The expansion of `SetupOtherInputs` adds files that meet the hull of what was picked. -/
theorem linked_expanded (hv : v.Pickable) {inputs0 inputs1 : List (FileMetaData K)}
    {range all : InternalKey K × InternalKey K} (hinputs0 : LevelInputs v level inputs0 range)
    (hlinked : Ranges.Linked FileMetaData.lo FileMetaData.hi {f | f ∈ inputs0 ∨ f ∈ inputs1})
    (hall : Covers (inputs0 ++ inputs1) all) :
    Ranges.Linked FileMetaData.lo FileMetaData.hi
      {f | f ∈ v.overlapping level all ∨ f ∈ inputs1} := by
  have hsub := Version.subset_overlapping (hv.valid level) hinputs0.sublist hall
  have hgrown := linked_union_overlapping (S := {f | f ∈ inputs0 ++ inputs1})
    (by simpa only [mem_append] using hlinked) hall.isHull level (v.files level)
  have hset : {f | f ∈ v.overlapping level all ∨ f ∈ inputs1} =
      {f | f ∈ inputs0 ++ inputs1} ∪ {f | f ∈ v.overlapping level all} := by
    ext f
    simp only [Set.mem_ofPred_eq, Set.mem_union, mem_append]
    have := hsub f
    tauto
  rw [hset]
  exact hgrown

/-- Two searches of a level that find equally many files, one for a wider range, find the same. -/
theorem filter_meetsRange_eq {files inputs inputs' : List (FileMetaData K)}
    {range range' : InternalKey K × InternalKey K} (h : Covers inputs range)
    (h' : Covers inputs' range') (hsub : ∀ f ∈ inputs, f ∈ inputs')
    (hlength : (files.filter (meetsRange range')).length = (files.filter (meetsRange range)).length) :
    files.filter (meetsRange range') = files.filter (meetsRange range) := by
  symm
  apply List.Sublist.eq_of_length _ hlength.symm
  apply monotone_filter_right
  intro f hf
  exact h.meetsRange_mono h' hsub hf

theorem Version.expandedInputs_eq_some {inputs0 inputs1 expanded : List (FileMetaData K)}
    {all newRange : InternalKey K × InternalKey K}
    (h : v.expandedInputs level inputs0 inputs1 all = some (expanded, newRange)) :
    expanded = v.overlapping level all ∧ Covers expanded newRange ∧
      (v.overlapping (level + 1) newRange).length = inputs1.length := by
  unfold expandedInputs at h
  dsimp only at h
  split at h
  · obtain ⟨range, hrange, h⟩ := Option.bind_eq_some_iff.mp h
    split at h
    · rename_i hlength
      cases h
      exact ⟨rfl, getRange_covers hrange, hlength⟩
    · cases h
  · cases h

theorem Version.setupOtherInputs_spec (hv : v.Pickable) (hlevel : level + 1 < kNumLevels)
    {inputs0 : List (FileMetaData K)} (hrange : getRange inputs0 = some range)
    (hinputs0 : LevelInputs v level inputs0 range)
    (hlinked : Ranges.Linked FileMetaData.lo FileMetaData.hi {f | f ∈ inputs0}) {c : Compaction K}
    (hc : v.setupOtherInputs level inputs0 = some c) : ∃ range, Picked v c range := by
  have hinputs1 : v.overlapping (level + 1) range = (v.files (level + 1)).filter (meetsRange range) :=
    v.overlapping_of_ne_zero (Nat.succ_ne_zero level) range
  have hlinked1 := hinputs0.linked_union hlinked
  unfold setupOtherInputs at hc
  rw [hrange] at hc
  simp only [Option.bind_eq_bind, Option.bind_some] at hc
  obtain ⟨all, hall, hc⟩ := Option.bind_eq_some_iff.mp hc
  have hall := getRange_covers hall
  split at hc
  · rename_i expanded newRange hexpanded
    obtain ⟨rfl, hnew, hlength⟩ := expandedInputs_eq_some hexpanded
    -- the wider range finds the same files of the next level
    have hsub := subset_overlapping (hv.valid level) hinputs0.sublist hall
    have hexpanded1 := v.overlapping_of_ne_zero (Nat.succ_ne_zero level) newRange
    refine ⟨newRange, picked_of_withGrandparents hlevel hc ⟨v.overlapping_sublist _ _, hnew, ?_⟩
      hexpanded1 ?_⟩
    · rintro rfl
      exact overlapping_zero_closed hv hnew
    · rw [hexpanded1, hinputs1] at hlength
      rw [hexpanded1, filter_meetsRange_eq hinputs0.covers hnew hsub hlength, ← hinputs1]
      exact linked_expanded hv hinputs0 hlinked1 hall
  · exact ⟨range, picked_of_withGrandparents hlevel hc hinputs0 hinputs1 hlinked1⟩

theorem Version.startInputs_spec (hv : v.Pickable) (hf : f ∈ v.files level)
    {inputs0 : List (FileMetaData K)}
    (hinputs0 : inputs0 = if level = 0 then v.overlapping 0 (f.smallest, f.largest) else [f]) :
    ∃ range, getRange inputs0 = some range ∧ LevelInputs v level inputs0 range ∧
      Ranges.Linked FileMetaData.lo FileMetaData.hi {g | g ∈ inputs0} := by
  by_cases hlevel : level = 0
  · subst hlevel
    rw [if_pos rfl] at hinputs0
    subst hinputs0
    have hself : Covers [f] (f.smallest, f.largest) := ⟨by simp, by simp, by simp, by simp⟩
    have hmem : f ∈ v.overlapping 0 (f.smallest, f.largest) :=
      mem_overlapping hf (hself.meetsRange mem_cons_self (hv.valid 0 f hf))
    obtain ⟨range, hrange⟩ := getRange_isSome (ne_nil_of_mem hmem)
    have hcovers := getRange_covers hrange
    refine ⟨range, hrange, ⟨v.overlapping_sublist _ _, hcovers, fun _ ↦
      overlapping_zero_closed hv hcovers⟩, ?_⟩
    have hgrown := linked_union_overlapping (S := {g | g ∈ [f]})
      (by simpa using Ranges.linked_singleton f) hself.isHull 0 (v.files 0)
    rwa [Set.union_eq_self_of_subset_left] at hgrown
    rintro g hg
    rw [mem_singleton.mp hg]
    exact hmem
  · rw [if_neg hlevel] at hinputs0
    subst hinputs0
    refine ⟨(f.smallest, f.largest), rfl, ⟨singleton_sublist.mpr hf, ⟨by simp, by simp, by simp,
      by simp⟩, fun h ↦ absurd h hlevel⟩, by simpa using Ranges.linked_singleton f⟩

/-- The inputs of an automatic compaction are linked, complete at the next level and, at level 0,
closed. -/
theorem Version.pickCompaction_spec (hv : v.Pickable) {compactPointer : ℕ → Option (InternalKey K)}
    {c : Compaction K} (h : v.pickCompaction compactPointer = some c) : ∃ range, Picked v c range := by
  unfold pickCompaction at h
  obtain ⟨⟨f, level⟩, hpick, hsetup⟩ := Option.bind_eq_some_iff.mp h
  obtain ⟨hf, hlevel⟩ := hv.pickFile hpick
  obtain ⟨range, hrange, hinputs, hlinked⟩ := startInputs_spec hv hf rfl
  exact setupOtherInputs_spec hv hlevel hrange hinputs hlinked hsetup

end LevelDB.Db.CompactionPick
