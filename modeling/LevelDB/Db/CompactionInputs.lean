import LevelDB.Db.CompactionPick

/-!
# Which files a compaction takes

The inputs that `SetupOtherInputs` settles on, described by user keys alone: at level 0 they are
closed under overlap, at the next level they are the files that meet their hull, and the
grandparents are the files that meet the hull of all of them.

`VersionSet::CompactRange`, the manual sibling of `PickCompaction`, starts from the files that
`GetOverlappingInputs` finds for the range and cuts that list once it holds enough bytes.  It does
so at level 0 too, where files overlap each other, so the cut can separate a file from an older one
of the same keys.
-/

namespace LevelDB.Db.CompactionInputs

open Format TableFiles CompactionPick Library List

variable {K : Type*} [LinearOrder K]
  {files inputs : List (FileMetaData K)} {v : Version K}
  {range : InternalKey K × InternalKey K} {c : Compaction K} {level : ℕ}

def OverlapClosed (files inputs : List (FileMetaData K)) : Prop :=
  ∀ f ∈ inputs, ∀ g ∈ files, f.lo ≤ g.hi ∧ g.lo ≤ f.hi → g ∈ inputs

instance (files inputs : List (FileMetaData K)) : Decidable (OverlapClosed files inputs) :=
  inferInstanceAs (Decidable (∀ f ∈ inputs, ∀ g ∈ files, f.lo ≤ g.hi ∧ g.lo ≤ f.hi → g ∈ inputs))

def MeetHull (inputs files found : List (FileMetaData K)) : Prop :=
  ∃ b e, Ranges.IsHull FileMetaData.lo FileMetaData.hi {f | f ∈ inputs} b e ∧
    found = files.filter fun g ↦ decide (b ≤ g.hi ∧ g.lo ≤ e)

theorem overlapClosed_getOverlappingInputs (files : List (FileMetaData K)) (b : WithBot K) (e : WithTop K) :
    OverlapClosed files (getOverlappingInputs 0 files b e) := by
  obtain ⟨b', e', hcl⟩ := getOverlappingInputs_zero files b e
  intro f hf g hg hoverlap
  have hwithin := hcl.within f hf
  rw [hcl.inputs_eq, mem_filter, meets_iff]
  exact ⟨hg, hwithin.1.trans (WithBot.coe_le_coe.mpr hoverlap.1),
    (WithTop.coe_le_coe.mpr hoverlap.2).trans hwithin.2⟩

theorem meetHull_of_covers {inputs files : List (FileMetaData K)} (h : Covers inputs range) :
    MeetHull inputs files (files.filter (meetsRange range)) := by
  refine ⟨range.1.userKey, range.2.userKey, h.isHull, filter_congr fun g _ ↦ ?_⟩
  rw [Bool.eq_iff_iff, meetsRange_iff, decide_eq_true_eq]

/-- Each way through `SetupOtherInputs` ends with the inputs of `level`, as given or expanded, and
with what meets their hull at the next level. -/
theorem setupOtherInputs_cases {inputs0 : List (FileMetaData K)} (h : v.setupOtherInputs level inputs0 = some c) :
    ∃ range all, Covers inputs0 range ∧ Covers (inputs0 ++ v.overlapping (level + 1) range) all ∧
      ((v.expandedInputs level inputs0 (v.overlapping (level + 1) range) all = none ∧
          v.withGrandparents level inputs0 (v.overlapping (level + 1) range) range.2 = some c) ∨
        ∃ newRange, v.expandedInputs level inputs0 (v.overlapping (level + 1) range) all =
            some (v.overlapping level all, newRange) ∧ Covers (v.overlapping level all) newRange ∧
          v.withGrandparents level (v.overlapping level all) (v.overlapping (level + 1) newRange)
            newRange.2 = some c) := by
  unfold Version.setupOtherInputs at h
  obtain ⟨range, hrange, h⟩ := Option.bind_eq_some_iff.mp h
  obtain ⟨all, hall, h⟩ := Option.bind_eq_some_iff.mp h
  refine ⟨range, all, getRange_covers hrange, getRange_covers hall, ?_⟩
  split at h
  · rename_i expanded newRange hexpanded
    obtain ⟨rfl, hnew, -⟩ := Version.expandedInputs_eq_some hexpanded
    exact .inr ⟨newRange, hexpanded, hnew, h⟩
  · rename_i hexpanded
    exact .inl ⟨hexpanded, h⟩

/-- The files of a compaction, on user keys. -/
structure ExactInputs (v : Version K) (c : Compaction K) : Prop where
  inputs0_ne_nil : c.inputs0 ≠ []
  inputs0_sublist : c.inputs0.Sublist (v.files c.level)
  inputs0_closed : c.level = 0 → OverlapClosed (v.files 0) c.inputs0
  inputs1_exact : MeetHull c.inputs0 (v.files (c.level + 1)) c.inputs1
  grandparents_exact : c.level + 2 < kNumLevels →
    MeetHull (c.inputs0 ++ c.inputs1) (v.files (c.level + 2)) c.grandparents
  grandparents_none : ¬c.level + 2 < kNumLevels → c.grandparents = []

/-- The grandparents are found for the hull of whatever inputs the compaction has in the end. -/
theorem exactInputs_of_withGrandparents {inputs0 : List (FileMetaData K)} (hcovers : Covers inputs0 range)
    (hsublist : inputs0.Sublist (v.files level)) (hclosed : level = 0 → OverlapClosed (v.files 0) inputs0)
    (h : v.withGrandparents level inputs0 (v.overlapping (level + 1) range) range.2 = some c) :
    ExactInputs v c := by
  unfold Version.withGrandparents at h
  obtain ⟨all, hall, hc⟩ := Option.bind_eq_some_iff.mp h
  have hall := getRange_covers hall
  cases hc
  refine ⟨?_, hsublist, hclosed, ?_, ?_, ?_⟩
  · obtain ⟨f, hf, -⟩ := hcovers.smallest_mem
    exact ne_nil_of_mem hf
  · dsimp only
    rw [v.overlapping_of_ne_zero (Nat.succ_ne_zero level)]
    exact meetHull_of_covers hcovers
  · intro hlevel
    dsimp only
    rw [if_pos hlevel, v.overlapping_of_ne_zero (Nat.succ_ne_zero (level + 1))]
    exact meetHull_of_covers hall
  · exact fun hlevel ↦ if_neg hlevel

theorem setupOtherInputs_exact (hvalid : ∀ f ∈ v.files level, f.smallest ≤ f.largest)
    {inputs0 : List (FileMetaData K)} (hsublist : inputs0.Sublist (v.files level))
    (hclosed : level = 0 → OverlapClosed (v.files 0) inputs0)
    (h : v.setupOtherInputs level inputs0 = some c) :
    c.level = level ∧ ExactInputs v c ∧ ∀ f ∈ inputs0, f ∈ c.inputs0 := by
  obtain ⟨range, all, hcovers, hall, ⟨-, hc⟩ | ⟨newRange, -, hnew, hc⟩⟩ := setupOtherInputs_cases h
  · obtain ⟨-, hlevel, hinputs0, -⟩ := Version.withGrandparents_spec hc
    refine ⟨hlevel, exactInputs_of_withGrandparents hcovers hsublist hclosed hc, fun f hf ↦ ?_⟩
    rwa [hinputs0]
  · obtain ⟨-, hlevel, hinputs0, -⟩ := Version.withGrandparents_spec hc
    refine ⟨hlevel, exactInputs_of_withGrandparents hnew (v.overlapping_sublist _ _) ?_ hc, fun f hf ↦ ?_⟩
    · rintro rfl
      exact overlapClosed_getOverlappingInputs _ _ _
    · rw [hinputs0]
      exact Version.subset_overlapping hvalid hsublist hall f hf

theorem pickCompaction_exact (hvalid : ∀ level < kNumLevels, ∀ f ∈ v.files level, f.smallest ≤ f.largest)
    {compactPointer : ℕ → Option (InternalKey K)}
    (hpicks : ∀ f level, v.pickFile compactPointer = some (f, level) →
      f ∈ v.files level ∧ level + 1 < kNumLevels) (h : v.pickCompaction compactPointer = some c) :
    ExactInputs v c ∧ ∃ f, v.pickFile compactPointer = some (f, c.level) ∧ f ∈ c.inputs0 := by
  unfold Version.pickCompaction at h
  obtain ⟨⟨f, level⟩, hpick, hsetup⟩ := Option.bind_eq_some_iff.mp h
  obtain ⟨hf, hlevel⟩ := hpicks f level hpick
  have hvalid := hvalid level (Nat.lt_of_succ_lt hlevel)
  have hstart : (if level = 0 then v.overlapping 0 (f.smallest, f.largest) else [f]).Sublist
        (v.files level) ∧
      (level = 0 → OverlapClosed (v.files 0)
        (if level = 0 then v.overlapping 0 (f.smallest, f.largest) else [f])) ∧
      f ∈ (if level = 0 then v.overlapping 0 (f.smallest, f.largest) else [f]) := by
    split
    · subst level
      have hself : Covers [f] (f.smallest, f.largest) := ⟨by simp, by simp, by simp, by simp⟩
      exact ⟨v.overlapping_sublist _ _, fun _ ↦ overlapClosed_getOverlappingInputs _ _ _,
        Version.mem_overlapping hf (hself.meetsRange mem_cons_self (hvalid f hf))⟩
    · rename_i hne
      exact ⟨singleton_sublist.mpr hf, fun h ↦ absurd h hne, mem_singleton_self f⟩
  obtain ⟨hsublist, hclosed, hmem⟩ := hstart
  obtain ⟨rfl, hexact, hkept⟩ := setupOtherInputs_exact hvalid hsublist hclosed hsetup
  exact ⟨hexact, f, hpick, hkept f hmem⟩

inductive Reached (files : List (FileMetaData K)) (p : FileMetaData K → Prop) : FileMetaData K → Prop
  | base {f : FileMetaData K} : f ∈ files → p f → Reached files p f
  | overlap {f g : FileMetaData K} :
      Reached files p f → g ∈ files → f.lo ≤ g.hi → g.lo ≤ f.hi → Reached files p g

theorem Reached.mono {p q : FileMetaData K → Prop} {f : FileMetaData K} (h : Reached files p f)
    (himp : ∀ g ∈ files, p g → Reached files q g) : Reached files q f := by
  induction h with
  | base hf hp => exact himp _ hf hp
  | overlap _ hg hleft hright ih => exact .overlap ih hg hleft hright

open Classical in
noncomputable def overlapClosure (files : List (FileMetaData K)) (p : FileMetaData K → Prop) :
    List (FileMetaData K) :=
  files.filter fun f ↦ decide (Reached files p f)

theorem overlapClosure_sublist (files : List (FileMetaData K)) (p : FileMetaData K → Prop) :
    (overlapClosure files p).Sublist files := filter_sublist

theorem mem_overlapClosure {p : FileMetaData K → Prop} {f : FileMetaData K} :
    f ∈ overlapClosure files p ↔ f ∈ files ∧ Reached files p f := by
  simp only [overlapClosure, mem_filter, decide_eq_true_eq]

/-- Each restart of the search widens the range by a file that is reached. -/
theorem reached_of_overlapLoop (hvalid : ∀ f ∈ files, f.smallest ≤ f.largest) {fuel : ℕ} {b : WithBot K}
    {e : WithTop K} (h : overlapLoop 0 files fuel b e = some inputs) {f : FileMetaData K}
    (hf : f ∈ inputs) : Reached files (fun f ↦ meets b e f = true) f := by
  induction fuel generalizing b e with
  | zero => cases h
  | succ fuel ih =>
    rw [overlapLoop] at h
    rcases overlapPass_cases 0 b e [] files with ⟨hdone, -⟩ | ⟨g, hg, -, hmeets, -, hpass⟩ |
      ⟨g, hg, -, hmeets, -, hpass⟩
    · rw [hdone] at h
      cases h
      obtain ⟨hmem, hmeets⟩ := mem_filter.mp hf
      exact .base hmem hmeets
    · rw [hpass] at h
      refine (ih h).mono fun k hk hmeets' ↦ ?_
      rw [meets_iff, WithBot.coe_le_coe] at hmeets'
      by_cases hlo : k.lo ≤ g.hi
      · exact .overlap (.base hg hmeets) hk hmeets'.1 hlo
      · -- `k` starts after `g`, so it does not need the wider range
        have hhi : g.hi ≤ k.hi := (not_le.mp hlo).le.trans (FileMetaData.lo_le_hi (hvalid k hk))
        exact .base hk (meets_iff.mpr
          ⟨(meets_iff.mp hmeets).1.trans (WithBot.coe_le_coe.mpr hhi), hmeets'.2⟩)
    · rw [hpass] at h
      refine (ih h).mono fun k hk hmeets' ↦ ?_
      rw [meets_iff, WithTop.coe_le_coe] at hmeets'
      by_cases hhi : g.lo ≤ k.hi
      · exact .overlap (.base hg hmeets) hk hhi hmeets'.2
      · have hlo : k.lo ≤ g.lo := (FileMetaData.lo_le_hi (hvalid k hk)).trans (not_le.mp hhi).le
        exact .base hk (meets_iff.mpr
          ⟨hmeets'.1, (WithTop.coe_le_coe.mpr hlo).trans (meets_iff.mp hmeets).2⟩)

theorem getOverlappingInputs_zero_eq (hvalid : ∀ f ∈ files, f.smallest ≤ f.largest) (b : WithBot K)
    (e : WithTop K) : getOverlappingInputs 0 files b e = overlapClosure files fun f ↦ meets b e f = true := by
  obtain ⟨inputs, hloop⟩ := overlapLoop_ends 0 files b e (Nat.lt_succ_self _)
  have hinputs : getOverlappingInputs 0 files b e = inputs := by
    rw [getOverlappingInputs, hloop, Option.getD_some]
  have hreached : ∀ f, Reached files (fun f ↦ meets b e f = true) f → f ∈ getOverlappingInputs 0 files b e := by
    intro f hf
    induction hf with
    | base hf hmeets => exact mem_getOverlappingInputs_of_meets hf hmeets
    | overlap _ hg hleft hright ih =>
      exact overlapClosed_getOverlappingInputs files b e _ ih _ hg ⟨hleft, hright⟩
  obtain ⟨b', e', hcl⟩ := getOverlappingInputs_zero files b e
  rw [hcl.inputs_eq, overlapClosure]
  apply filter_congr
  intro f hf
  rw [Bool.eq_iff_iff]
  simp only [decide_eq_true_eq]
  constructor
  · intro hmeets
    refine reached_of_overlapLoop hvalid hloop ?_
    rw [← hinputs, hcl.inputs_eq]
    exact mem_filter.mpr ⟨hf, hmeets⟩
  · intro hf
    have hmem := hreached f hf
    rw [hcl.inputs_eq] at hmem
    exact (mem_filter.mp hmem).2

def TouchesHull (inputs : List (FileMetaData K)) (f : FileMetaData K) : Prop :=
  (∃ g ∈ inputs, g.lo ≤ f.hi) ∧ ∃ g ∈ inputs, f.lo ≤ g.hi

instance (inputs : List (FileMetaData K)) : DecidablePred (TouchesHull inputs) := fun f ↦
  inferInstanceAs (Decidable ((∃ g ∈ inputs, g.lo ≤ f.hi) ∧ ∃ g ∈ inputs, f.lo ≤ g.hi))

theorem meetsRange_iff_touchesHull (h : Covers inputs range) (f : FileMetaData K) :
    CompactionPick.meetsRange range f = true ↔ TouchesHull inputs f := by
  rw [meetsRange_iff]
  refine and_congr ⟨fun hle ↦ ?_, ?_⟩ ⟨fun hle ↦ ?_, ?_⟩
  · obtain ⟨g, hg, hlo⟩ := h.isHull.lo_mem
    exact ⟨g, hg, hlo.le.trans hle⟩
  · rintro ⟨g, hg, hle⟩
    exact (h.isHull.le_lo g hg).trans hle
  · obtain ⟨g, hg, hhi⟩ := h.isHull.hi_mem
    exact ⟨g, hg, hle.trans hhi.ge⟩
  · rintro ⟨g, hg, hle⟩
    exact hle.trans (h.isHull.hi_le g hg)

theorem overlapping_eq_touchesHull (hlevel : level ≠ 0) (h : Covers inputs range) :
    v.overlapping level range = (v.files level).filter fun f ↦ decide (TouchesHull inputs f) := by
  rw [v.overlapping_of_ne_zero hlevel]
  apply filter_congr
  intro f _
  rw [Bool.eq_iff_iff, decide_eq_true_eq, meetsRange_iff_touchesHull h]

theorem overlapping_zero_eq_closure (hvalid : ∀ f ∈ v.files 0, f.smallest ≤ f.largest) (h : Covers inputs range) :
    v.overlapping 0 range = overlapClosure (v.files 0) (TouchesHull inputs) := by
  have heq : (fun f ↦ CompactionPick.meetsRange range f = true) = TouchesHull inputs := by
    funext f
    exact propext (meetsRange_iff_touchesHull h f)
  rw [← heq]
  exact getOverlappingInputs_zero_eq hvalid _ _

/-- The source has the same limit for all levels. -/
def maxFileSizeForLevel (_level : ℕ) : ℕ := kTargetFileSize

def cutInputs (limit : ℕ) : ℕ → List (FileMetaData K) → List (FileMetaData K)
  | _, [] => []
  | total, f :: rest =>
    if limit ≤ total + f.fileSize then [f] else f :: cutInputs limit (total + f.fileSize) rest

/-- `CompactRange`; `none` when nothing overlaps the range.  The files after the limit are left out, to
avoid compacting too much in one shot. -/
def compactRange (v : Version K) (level : ℕ) (rangeBegin : WithBot K) (rangeEnd : WithTop K) :
    Option (Compaction K) :=
  let inputs := getOverlappingInputs level (v.files level) rangeBegin rangeEnd
  if inputs = [] then none
  else v.setupOtherInputs level (cutInputs (maxFileSizeForLevel level) 0 inputs)

def sizeBefore (files : List (FileMetaData K)) (f : FileMetaData K) : ℕ :=
  totalFileSize (files.takeWhile fun g ↦ decide (g ≠ f))

theorem cutInputs_eq {limit total : ℕ} (hnodup : files.Nodup) (htotal : total < limit) :
    cutInputs limit total files = files.filter fun f ↦ decide (total + sizeBefore files f < limit) := by
  induction files generalizing total with
  | nil => rfl
  | cons f rest ih =>
    obtain ⟨hf, hrest⟩ := nodup_cons.mp hnodup
    have hself : sizeBefore (f :: rest) f = 0 := by simp [sizeBefore, totalFileSize]
    have hlater : ∀ g ∈ rest, sizeBefore (f :: rest) g = f.fileSize + sizeBefore rest g := by
      intro g hg
      have hne : f ≠ g := fun heq ↦ hf (heq ▸ hg)
      simp [sizeBefore, totalFileSize, hne]
    rw [cutInputs, filter_cons_of_pos (by rw [hself]; exact decide_eq_true htotal)]
    split
    · rename_i hle
      congr 1
      symm
      rw [filter_eq_nil_iff]
      intro g hg
      rw [hlater g hg, decide_eq_true_eq]
      omega
    · rename_i hlt
      congr 1
      rw [ih hrest (not_le.mp hlt)]
      apply filter_congr
      intro g hg
      rw [hlater g hg, Nat.add_assoc]

def keptFiles (limit : ℕ) (files : List (FileMetaData K)) : List (FileMetaData K) :=
  files.filter fun f ↦ decide (sizeBefore files f < limit)

/-- The limit does not separate files that overlap. -/
def LimitRespectsOverlap (limit : ℕ) (files : List (FileMetaData K)) : Prop :=
  ∀ f ∈ files, ∀ g ∈ files, f.lo ≤ g.hi ∧ g.lo ≤ f.hi → sizeBefore files f < limit →
    sizeBefore files g < limit

/-- The files of level 0 can be expanded to all that their hull with the next level reaches: there are more
of them, together with the files of the next level they are small enough, and they meet no further file
there. -/
def ExpansionFits (v : Version K) (inputs : List (FileMetaData K)) : Prop :=
  let inputs1 := (v.files 1).filter fun f ↦ decide (TouchesHull inputs f)
  let expanded := overlapClosure (v.files 0) (TouchesHull (inputs ++ inputs1))
  inputs1 ≠ [] ∧ inputs.length < expanded.length ∧
    totalFileSize inputs1 + totalFileSize expanded < kExpandedCompactionByteSizeLimit ∧
    ((v.files 1).filter fun f ↦ decide (TouchesHull expanded f)).length = inputs1.length

theorem overlapClosed_keptFiles_iff {p : FileMetaData K → Prop} {limit : ℕ} :
    OverlapClosed files (keptFiles limit (overlapClosure files p)) ↔
      LimitRespectsOverlap limit (overlapClosure files p) := by
  simp only [OverlapClosed, LimitRespectsOverlap, keptFiles, mem_filter, decide_eq_true_eq]
  constructor
  · intro h f hf g hg hoverlap hlt
    exact (h f ⟨hf, hlt⟩ g (mem_overlapClosure.mp hg).1 hoverlap).2
  · intro h f hf g hg hoverlap
    have hreached := mem_overlapClosure.mpr
      ⟨hg, (mem_overlapClosure.mp hf.1).2.overlap hg hoverlap.1 hoverlap.2⟩
    exact ⟨hreached, h f hf.1 g hreached hoverlap hf.2⟩

theorem expandedInputs_isSome_iff (hvalid : ∀ f ∈ v.files 0, f.smallest ≤ f.largest)
    {range all : InternalKey K × InternalKey K} (hrange : Covers inputs range)
    (hall : Covers (inputs ++ v.overlapping 1 range) all) :
    (v.expandedInputs 0 inputs (v.overlapping 1 range) all).isSome ↔ ExpansionFits v inputs := by
  have hinputs1 := overlapping_eq_touchesHull (v := v) one_ne_zero hrange
  have hexpanded := overlapping_zero_eq_closure hvalid hall
  rw [hinputs1] at hexpanded ⊢
  unfold Version.expandedInputs ExpansionFits
  dsimp only
  rw [hexpanded]
  split
  · rename_i hgrow
    obtain ⟨newRange, hnew⟩ := getRange_isSome (ne_nil_of_length_pos (Nat.zero_lt_of_lt hgrow.2.1))
    have hexpanded1 : v.overlapping (0 + 1) newRange = _ :=
      overlapping_eq_touchesHull one_ne_zero (getRange_covers hnew)
    simp only [hnew, hexpanded1, Option.bind_eq_bind, Option.bind_some]
    split
    · rename_i hlength
      exact iff_of_true rfl ⟨hgrow.1, hgrow.2.1, hgrow.2.2, hlength⟩
    · rename_i hlength
      exact iff_of_false (by simp) fun h ↦ hlength h.2.2.2
  · rename_i hgrow
    exact iff_of_false (by simp) fun h ↦ hgrow ⟨h.1, h.2.1, h.2.2.1⟩

/-- A manual compaction of level 0 is closed under overlap exactly when the byte limit separates no two
overlapping files among those that are reached from the range, or the files within the limit can be
expanded. -/
theorem compactRange_closed_iff {v : Version K} (hvalid : ∀ f ∈ v.files 0, f.smallest ≤ f.largest)
    (hnodup : (v.files 0).Nodup) {rangeBegin : WithBot K} {rangeEnd : WithTop K} {c : Compaction K}
    (h : compactRange v 0 rangeBegin rangeEnd = some c) :
    OverlapClosed (v.files 0) c.inputs0 ↔ LimitRespectsOverlap kTargetFileSize
          (overlapClosure (v.files 0) fun f ↦ meets rangeBegin rangeEnd f = true) ∨
        ExpansionFits v (keptFiles kTargetFileSize
          (overlapClosure (v.files 0) fun f ↦ meets rangeBegin rangeEnd f = true)) := by
  unfold compactRange at h
  dsimp only at h
  rw [getOverlappingInputs_zero_eq hvalid] at h
  generalize hp : (fun f ↦ meets rangeBegin rangeEnd f = true) = p at h
  have hcut : cutInputs (maxFileSizeForLevel 0) 0 (overlapClosure (v.files 0) p) =
      keptFiles kTargetFileSize (overlapClosure (v.files 0) p) := by
    rw [cutInputs_eq ((overlapClosure_sublist _ _).nodup hnodup) (by decide : 0 < maxFileSizeForLevel 0)]
    simp only [Nat.zero_add]
    rfl
  split at h
  · cases h
  · rw [hcut] at h
    obtain ⟨range, all, hrange, hall, hcases⟩ := setupOtherInputs_cases h
    rw [← overlapClosed_keptFiles_iff, ← expandedInputs_isSome_iff hvalid hrange hall]
    rcases hcases with ⟨hnone, hc⟩ | ⟨newRange, hsome, -, hc⟩
    · rw [(Version.withGrandparents_spec hc).2.2.1, hnone]
      simp
    · rw [(Version.withGrandparents_spec hc).2.2.1, hsome]
      exact iff_of_true (overlapClosed_getOverlappingInputs _ _ _) (.inr rfl)

/-- Two files of level 0 with the same user keys, the newer one first, as large as a memtable. -/
def twoFlushes : Version ℕ where
  files level := if level = 0 then
    [⟨9, 4 * 1048576, .mk' 1 8 .kTypeValue, .mk' 5 7 .kTypeValue⟩,
      ⟨7, 4 * 1048576, .mk' 1 3 .kTypeValue, .mk' 5 2 .kTypeValue⟩] else []

def twoSmallFlushes : Version ℕ where
  files level := if level = 0 then
    [⟨9, 4096, .mk' 1 8 .kTypeValue, .mk' 5 7 .kTypeValue⟩,
      ⟨7, 4096, .mk' 1 3 .kTypeValue, .mk' 5 2 .kTypeValue⟩] else []

theorem compactRange_closed_iff_twoSmallFlushes :
    ∃ c, compactRange twoSmallFlushes 0 ⊥ ⊤ = some c ∧ c.inputs0.map FileMetaData.number = [9, 7] ∧
      OverlapClosed (twoSmallFlushes.files 0) c.inputs0 := by
  have hany : (compactRange twoSmallFlushes 0 ⊥ ⊤).any (fun c ↦
      decide (c.inputs0.map FileMetaData.number = [9, 7])) = true := by decide
  cases hc : compactRange twoSmallFlushes 0 ⊥ ⊤ with
  | none => simp [hc] at hany
  | some c =>
    rw [hc, Option.any_some] at hany
    refine ⟨c, rfl, of_decide_eq_true hany, ?_⟩
    refine (compactRange_closed_iff (by decide) (by decide) hc).mpr (.inl ?_)
    -- the two files together stay below the limit
    intro f _ g _ _ _
    have hle : sizeBefore (overlapClosure (twoSmallFlushes.files 0) fun f ↦ meets ⊥ ⊤ f = true) g ≤
        totalFileSize (twoSmallFlushes.files 0) := by
      refine List.Sublist.sum_le_sum ?_ fun _ _ ↦ Nat.zero_le _
      exact ((takeWhile_sublist _).trans (overlapClosure_sublist _ _)).map _
    exact hle.trans_lt (by decide)

/-- The cut takes the newer of two files with the same keys and leaves the older one. -/
theorem compactRange_leaves_older :
    ∃ c, compactRange twoFlushes 0 ⊥ ⊤ = some c ∧ c.inputs0.map FileMetaData.number = [9] ∧
      ¬OverlapClosed (twoFlushes.files 0) c.inputs0 := by
  have hany : (compactRange twoFlushes 0 ⊥ ⊤).any (fun c ↦
      decide (c.inputs0.map FileMetaData.number = [9] ∧
        ¬OverlapClosed (twoFlushes.files 0) c.inputs0)) = true := by decide
  cases hc : compactRange twoFlushes 0 ⊥ ⊤ with
  | none => simp [hc] at hany
  | some c =>
    rw [hc, Option.any_some] at hany
    exact ⟨c, rfl, of_decide_eq_true hany⟩

end LevelDB.Db.CompactionInputs
