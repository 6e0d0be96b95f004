import LevelDB.Db.CompactionPick

/-!
# The drop rules of a compaction

The loop of `DBImpl::DoCompactionWork` in `db/db_impl.cpp` decides for every input entry whether it
is copied to the output, with state that it carries from one entry to the next, and asks
`Compaction::IsBaseLevelForKey` of `db/version_set.cpp`, which moves pointers into the deeper levels
as the keys go by.  The file shows which entries are kept and when the entries that are kept read as
all input entries do.
-/

namespace LevelDB.Db.DropRules

open Format TableFiles CompactionPick Library List

variable {K V : Type*} [LinearOrder K]
  {entries : List (Entry K V)} {e : Entry K V} {D : Set (Entry K V)} {userKey : K}

/-- `level_ptrs_`: indices into the files of the levels of `input_version_`. -/
abbrev LevelPtrs := ℕ → ℕ

/-- The inner loop moves the pointer of a level past the files that end before the key. -/
def advancePtr (files : List (FileMetaData K)) (userKey : K) (ptr : ℕ) : ℕ :=
  ptr + ((files.drop ptr).takeWhile fun f ↦ decide (f.hi < userKey)).length

def isBaseLevelLoop (files : ℕ → List (FileMetaData K)) (userKey : K) :
    List ℕ → LevelPtrs → Bool × LevelPtrs
  | [], ptrs => (true, ptrs)
  | level :: rest, ptrs =>
    let ptr := advancePtr (files level) userKey (ptrs level)
    let ptrs := Function.update ptrs level ptr
    match (files level)[ptr]? with
    | some f => if f.lo ≤ userKey then (false, ptrs) else isBaseLevelLoop files userKey rest ptrs
    | none => isBaseLevelLoop files userKey rest ptrs

def deeperLevels (level : ℕ) : List ℕ := List.range' (level + 2) (kNumLevels - (level + 2))

/-- `IsBaseLevelForKey`: whether the information available guarantees that the compaction produces
data at `level + 1` for which no data exists in deeper levels, and the pointers after the call. -/
def isBaseLevelForKey (files : ℕ → List (FileMetaData K)) (level : ℕ) (userKey : K)
    (ptrs : LevelPtrs) : Bool × LevelPtrs :=
  isBaseLevelLoop files userKey (deeperLevels level) ptrs

/-- The state that the loop carries for its drop rules; `currentUserKey` is `current_user_key`
together with `has_current_user_key`. -/
structure DropState (K : Type*) where
  currentUserKey : Option K
  lastSequenceForKey : ℕ
  levelPtrs : LevelPtrs

def DropState.start : DropState K := ⟨none, kMaxSequenceNumber, fun _ ↦ 0⟩

def DropState.lastSequenceAt (state : DropState K) (userKey : K) : ℕ :=
  -- first occurrence of this user key
  if state.currentUserKey ≠ some userKey then kMaxSequenceNumber else state.lastSequenceForKey

/-- One round of the loop: whether the entry is dropped, and the state after it. -/
def dropStep (files : ℕ → List (FileMetaData K)) (level smallestSnapshot : ℕ) (state : DropState K)
    (key : InternalKey K) : Bool × DropState K :=
  match parseInternalKey key with
  | none =>
    -- do not hide error keys
    (false, { state with currentUserKey := none, lastSequenceForKey := kMaxSequenceNumber })
  | some ikey =>
    let next := { state with currentUserKey := some ikey.userKey
                             lastSequenceForKey := ikey.sequence }
    if state.lastSequenceAt ikey.userKey ≤ smallestSnapshot then (true, next)
    else if ikey.type = .kTypeDeletion ∧ ikey.sequence ≤ smallestSnapshot then
      let (base, ptrs) := isBaseLevelForKey files level ikey.userKey state.levelPtrs
      (base, { next with levelPtrs := ptrs })
    else (false, next)

/-- The entries that the loop adds to its outputs, in order. -/
def keptFrom (files : ℕ → List (FileMetaData K)) (level smallestSnapshot : ℕ) :
    DropState K → List (Entry K V) → List (Entry K V)
  | _, [] => []
  | state, e :: rest =>
    let (drop, state') := dropStep files level smallestSnapshot state e.key
    if drop then keptFrom files level smallestSnapshot state' rest
    else e :: keptFrom files level smallestSnapshot state' rest

def keptEntries (files : ℕ → List (FileMetaData K)) (level smallestSnapshot : ℕ)
    (entries : List (Entry K V)) : List (Entry K V) :=
  keptFrom files level smallestSnapshot DropState.start entries

def BaseLevel (files : ℕ → List (FileMetaData K)) (level : ℕ) (userKey : K) : Prop :=
  ∀ lvl ∈ deeperLevels level, ∀ f ∈ files lvl, ¬(f.lo ≤ userKey ∧ userKey ≤ f.hi)

instance (files : ℕ → List (FileMetaData K)) (level : ℕ) (userKey : K) :
    Decidable (BaseLevel files level userKey) :=
  inferInstanceAs (Decidable (∀ lvl ∈ deeperLevels level, ∀ f ∈ files lvl, _))

theorem mem_deeperLevels {level lvl : ℕ} :
    lvl ∈ deeperLevels level ↔ level + 2 ≤ lvl ∧ lvl < kNumLevels := by
  simp only [deeperLevels, mem_range'_1]
  omega

def Passed (files : List (FileMetaData K)) (userKey : K) (ptr : ℕ) : Prop :=
  ∀ f ∈ files.take ptr, f.hi < userKey

theorem Passed.mono {files : List (FileMetaData K)} {userKey userKey' : K} {ptr : ℕ}
    (h : Passed files userKey ptr) (hle : userKey ≤ userKey') : Passed files userKey' ptr :=
  fun f hf ↦ (h f hf).trans_le hle

theorem passed_advancePtr {files : List (FileMetaData K)} {ptr : ℕ} (h : Passed files userKey ptr) :
    Passed files userKey (advancePtr files userKey ptr) := by
  intro f hf
  unfold advancePtr at hf
  rw [take_add, mem_append] at hf
  rcases hf with hf | hf
  · exact h f hf
  · rw [(prefix_iff_eq_take.mp ( takeWhile_prefix _)).symm] at hf
    simpa using mem_takeWhile_imp hf

theorem level_hasKey_iff {files : List (FileMetaData K)} (hsorted : SortedLevel files) {ptr : ℕ}
    (hpassed : Passed files userKey ptr) : (∃ f ∈ files, f.lo ≤ userKey ∧ userKey ≤ f.hi) ↔
      ∃ f, files[advancePtr files userKey ptr]? = some f ∧ f.lo ≤ userKey := by
  have hpassed' := passed_advancePtr hpassed
  set ptr' := advancePtr files userKey ptr with hptr'
  have hhead : ∀ f, files[ptr']? = some f → userKey ≤ f.hi := by
    intro f hf
    rw [hptr', advancePtr, ← getElem?_drop, SortedLists.getElem?_length_takeWhile] at hf
    simpa using find?_some hf
  constructor
  · rintro ⟨f, hf, hlo, hhi⟩
    -- `f` is not among the passed files, so the file at the pointer is `f` or lies before it
    obtain ⟨i, hi, rfl⟩ := mem_iff_getElem.mp hf
    have hle : ptr' ≤ i := by
      by_contra hlt
      have hmem : files[i] ∈ files.take ptr' := mem_take_iff_getElem.mpr ⟨i, by omega, rfl⟩
      exact absurd hhi (not_le.mpr (hpassed' _ hmem))
    have hlt : ptr' < files.length := by omega
    refine ⟨files[ptr'], getElem?_eq_getElem hlt, ?_⟩
    rcases hle.eq_or_lt with heq | hlt'
    · simpa only [heq] using hlo
    · have hord := pairwise_iff_getElem.mp hsorted.ordered ptr' i hlt hi hlt'
      have hvalid := hsorted.valid files[ptr'] (getElem_mem hlt)
      exact (InternalKey.userKey_le_of_le (hvalid.trans hord.le)).trans hlo
  · rintro ⟨f, hf, hlo⟩
    exact ⟨f, mem_of_getElem? hf, hlo, hhead f hf⟩

def SortedFrom (files : ℕ → List (FileMetaData K)) (level : ℕ) : Prop :=
  ∀ lvl ∈ deeperLevels level, SortedLevel (files lvl)

/-- All pointers have passed only files that end before the key. -/
def AllPassed (files : ℕ → List (FileMetaData K)) (userKey : K) (ptrs : LevelPtrs) : Prop :=
  ∀ lvl, Passed (files lvl) userKey (ptrs lvl)

theorem isBaseLevelLoop_spec {files : ℕ → List (FileMetaData K)} {levels : List ℕ}
    (hsorted : ∀ lvl ∈ levels, SortedLevel (files lvl)) {ptrs : LevelPtrs}
    (hpassed : AllPassed files userKey ptrs) :
    ((isBaseLevelLoop files userKey levels ptrs).1 = true ↔
        ∀ lvl ∈ levels, ∀ f ∈ files lvl, ¬(f.lo ≤ userKey ∧ userKey ≤ f.hi)) ∧
      AllPassed files userKey (isBaseLevelLoop files userKey levels ptrs).2 := by
  induction levels generalizing ptrs with
  | nil => simpa [isBaseLevelLoop] using hpassed
  | cons level rest ih =>
    have hhas := level_hasKey_iff (hsorted level mem_cons_self) (hpassed level)
    have hpassed' : AllPassed files userKey
        (Function.update ptrs level (advancePtr (files level) userKey (ptrs level))) := by
      intro lvl
      by_cases hlvl : lvl = level
      · subst hlvl
        rw [Function.update_self]
        exact passed_advancePtr (hpassed lvl)
      · rw [Function.update_of_ne hlvl]
        exact hpassed lvl
    have hrest := ih (fun lvl hlvl ↦ hsorted lvl (mem_cons_of_mem level hlvl)) hpassed'
    have hskip : (¬∃ f, (files level)[advancePtr (files level) userKey (ptrs level)]? = some f ∧
          f.lo ≤ userKey) →
        ((∀ lvl ∈ level :: rest, ∀ f ∈ files lvl, ¬(f.lo ≤ userKey ∧ userKey ≤ f.hi)) ↔
          ∀ lvl ∈ rest, ∀ f ∈ files lvl, ¬(f.lo ≤ userKey ∧ userKey ≤ f.hi)) := by
      intro hnone
      rw [← hhas] at hnone
      simp only [mem_cons, forall_eq_or_imp, and_iff_right_iff_imp]
      exact fun _ f hf hin ↦ hnone ⟨f, hf, hin⟩
    simp only [isBaseLevelLoop]
    split
    · rename_i f hf
      split
      · rename_i hlo
        refine ⟨?_, hpassed'⟩
        obtain ⟨g, hg, hin⟩ := hhas.mpr ⟨f, hf, hlo⟩
        simp only [Bool.false_eq_true, false_iff]
        exact fun hall ↦ hall level mem_cons_self g hg hin
      · rename_i hlo
        rw [hskip (by rintro ⟨g, hg, hlo'⟩; rw [hf] at hg; cases hg; exact hlo hlo')]
        exact hrest
    · rename_i hnone
      rw [hskip (by rintro ⟨g, hg, _⟩; rw [hnone] at hg; cases hg)]
      exact hrest

theorem isBaseLevelForKey_spec {files : ℕ → List (FileMetaData K)} {level : ℕ}
    (hsorted : SortedFrom files level) {ptrs : LevelPtrs} (hpassed : AllPassed files userKey ptrs) :
    ((isBaseLevelForKey files level userKey ptrs).1 = true ↔ BaseLevel files level userKey) ∧
      AllPassed files userKey (isBaseLevelForKey files level userKey ptrs).2 :=
  isBaseLevelLoop_spec hsorted hpassed

def baseLevelAnswers (files : ℕ → List (FileMetaData K)) (level : ℕ) : LevelPtrs → List K → List Bool
  | _, [] => []
  | ptrs, userKey :: rest =>
    let (base, ptrs') := isBaseLevelForKey files level userKey ptrs
    base :: baseLevelAnswers files level ptrs' rest

theorem baseLevelAnswers_of_passed {files : ℕ → List (FileMetaData K)} {level : ℕ}
    (hsorted : SortedFrom files level) {keys : List K} (hkeys : keys.Pairwise (· ≤ ·))
    {ptrs : LevelPtrs} (hpassed : ∀ userKey ∈ keys, AllPassed files userKey ptrs) :
    baseLevelAnswers files level ptrs keys =
      keys.map fun userKey ↦ decide (BaseLevel files level userKey) := by
  induction keys generalizing ptrs with
  | nil => rfl
  | cons userKey rest ih =>
    obtain ⟨hanswer, hpassed'⟩ := isBaseLevelForKey_spec hsorted (hpassed userKey mem_cons_self)
    rw [pairwise_cons] at hkeys
    have hrest := ih hkeys.2 fun userKey' hmem lvl ↦ (hpassed' lvl).mono (hkeys.1 userKey' hmem)
    have hfirst : (isBaseLevelForKey files level userKey ptrs).1 =
        decide (BaseLevel files level userKey) := by
      rw [Bool.eq_iff_iff, hanswer, decide_eq_true_eq]
    simp only [baseLevelAnswers, map_cons, hfirst, hrest]

/-- The pointers never lose a file: queries with user keys in order are all answered as a scan of
the deeper levels answers them. -/
theorem baseLevelAnswers_eq {files : ℕ → List (FileMetaData K)} {level : ℕ}
    (hsorted : SortedFrom files level) {keys : List K} (hkeys : keys.Pairwise (· ≤ ·)) :
    baseLevelAnswers files level (fun _ ↦ 0) keys =
      keys.map fun userKey ↦ decide (BaseLevel files level userKey) :=
  baseLevelAnswers_of_passed hsorted hkeys fun _ _ _ f hf ↦ by simp at hf

theorem baseLevelAnswers_eq_sharedBoundary :
    baseLevelAnswers (fun lvl ↦ if lvl = 3 then sharedBoundary else []) 1 (fun _ ↦ 0) [0, 2, 2, 3, 5] =
      [0, 2, 2, 3, 5].map fun userKey ↦
        decide (BaseLevel (fun lvl ↦ if lvl = 3 then sharedBoundary else []) 1 userKey) := by
  apply baseLevelAnswers_eq
  · intro lvl _
    dsimp only
    split
    · exact ⟨by decide, by decide⟩
    · exact ⟨.nil, by simp⟩
  · decide

section Kept

variable {files : ℕ → List (FileMetaData K)} {level smallestSnapshot : ℕ}

/-- The entry is a deletion marker that nothing at a deeper level needs. -/
def Obsolete (files : ℕ → List (FileMetaData K)) (level smallestSnapshot : ℕ) (e : Entry K V) :
    Prop :=
  e.type = some .kTypeDeletion ∧ e.sequence ≤ smallestSnapshot ∧ BaseLevel files level e.userKey

/-- The entry before this one is of the same user key and visible at the smallest snapshot. -/
def HiddenBy (smallestSnapshot : ℕ) (prev : Option (Entry K V)) (e : Entry K V) : Prop :=
  e.type.isSome ∧ ∃ p, prev = some p ∧ p.type.isSome ∧ p.userKey = e.userKey ∧ p.sequence ≤ smallestSnapshot

def DropState.Follows (state : DropState K) (prev : Option (Entry K V)) : Prop :=
  match prev with
  | some p =>
    (p.type.isSome ∧ state.currentUserKey = some p.userKey ∧ state.lastSequenceForKey = p.sequence) ∨
      (p.type = none ∧ state.currentUserKey = none)
  | none => state.currentUserKey = none

/-- The test of rule (A), in terms of the entry before. -/
theorem DropState.Follows.hidden_iff {state : DropState K} {prev : Option (Entry K V)}
    (h : state.Follows prev) (hS : smallestSnapshot < kMaxSequenceNumber) (htype : e.type.isSome) :
    state.lastSequenceAt e.userKey ≤ smallestSnapshot ↔ HiddenBy smallestSnapshot prev e := by
  have hmax : ¬kMaxSequenceNumber ≤ smallestSnapshot := Nat.not_le.mpr hS
  unfold HiddenBy lastSequenceAt
  cases prev with
  | none =>
    have hkey : state.currentUserKey = none := h
    simp [hkey, hmax]
  | some p =>
    rcases h with ⟨hsome, hkey, hlast⟩ | ⟨hnone, hkey⟩
    · by_cases hu : p.userKey = e.userKey
      · simp [hkey, hlast, hu, hsome, htype]
      · simp [hkey, hu, hmax]
    · simp [hkey, hnone, hmax]

section

variable (hsorted : SortedFrom files level) (hS : smallestSnapshot < kMaxSequenceNumber)
include hsorted hS

theorem dropStep_spec {state : DropState K} {prev : Option (Entry K V)} (hfollows : state.Follows prev)
    (hpassed : AllPassed files e.userKey state.levelPtrs) :
    ((dropStep files level smallestSnapshot state e.key).1 = true ↔
        HiddenBy smallestSnapshot prev e ∨ Obsolete files level smallestSnapshot e) ∧
      (dropStep files level smallestSnapshot state e.key).2.Follows (some e) ∧
      AllPassed files e.userKey (dropStep files level smallestSnapshot state e.key).2.levelPtrs := by
  unfold dropStep
  rw [Entry.parseInternalKey_key]
  cases htype : e.type with
  | none =>
    refine ⟨?_, .inr ⟨htype, rfl⟩, hpassed⟩
    simp [HiddenBy, Obsolete, htype]
  | some t =>
    have hsome : e.type.isSome := by rw [htype]; rfl
    have hhidden := hfollows.hidden_iff hS hsome
    obtain ⟨hbase, hpassed'⟩ := isBaseLevelForKey_spec hsorted hpassed
    simp only [Option.map_some]
    split
    · rename_i hA
      refine ⟨?_, .inl ⟨hsome, rfl, rfl⟩, hpassed⟩
      simp [hhidden.mp hA]
    · rename_i hA
      rw [hhidden] at hA
      split
      · rename_i hB
        refine ⟨?_, .inl ⟨hsome, rfl, rfl⟩, hpassed'⟩
        simp [hbase, hA, Obsolete, htype, hB]
      · rename_i hB
        refine ⟨?_, .inl ⟨hsome, rfl, rfl⟩, hpassed⟩
        simp only [Bool.false_eq_true, hA, Obsolete, htype, false_or, false_iff]
        rintro ⟨hdel, hseq, _⟩
        exact hB ⟨Option.some.inj hdel, hseq⟩

theorem mem_keptFrom {state : DropState K} {prev : Option (Entry K V)} (hfollows : state.Follows prev)
    {rest : List (Entry K V)} (hrest : rest.Pairwise fun a b ↦ a.userKey ≤ b.userKey)
    (hpassed : ∀ e ∈ rest, AllPassed files e.userKey state.levelPtrs) :
    e ∈ keptFrom files level smallestSnapshot state rest ↔ ∃ before after, rest = before ++ e :: after ∧
        ¬(HiddenBy smallestSnapshot (before.getLast?.or prev) e ∨
          Obsolete files level smallestSnapshot e) := by
  induction rest generalizing state prev with
  | nil => simp [keptFrom]
  | cons x rest ih =>
    obtain ⟨hdrop, hfollows', hpassed'⟩ := dropStep_spec hsorted hS hfollows (hpassed x mem_cons_self)
    rw [pairwise_cons] at hrest
    have htail := ih hfollows' hrest.2 fun y hy lvl ↦ (hpassed' lvl).mono (hrest.1 y hy)
    have hlast : ∀ before : List (Entry K V),
        (x :: before).getLast?.or prev = before.getLast?.or (some x) := by
      intro before
      rw [getLast?_cons]
      cases before.getLast? <;> rfl
    have hmem : e ∈ keptFrom files level smallestSnapshot state (x :: rest) ↔
        (e = x ∧ ¬(dropStep files level smallestSnapshot state x.key).1 = true) ∨
          e ∈ keptFrom files level smallestSnapshot
            (dropStep files level smallestSnapshot state x.key).2 rest := by
      simp only [keptFrom]
      split
      · rename_i h
        simp [h]
      · rename_i h
        simp [h]
    rw [hmem, htail, hdrop]
    constructor
    · rintro (⟨rfl, hkeep⟩ | ⟨before, after, rfl, hkeep⟩)
      · exact ⟨[], rest, rfl, by simpa using hkeep⟩
      · exact ⟨x :: before, after, rfl, by rwa [hlast]⟩
    · rintro ⟨before, after, heq, hkeep⟩
      cases before with
      | nil =>
        cases heq
        exact .inl ⟨rfl, by simpa using hkeep⟩
      | cons y before =>
        rw [cons_append, List.cons.injEq] at heq
        obtain ⟨rfl, rfl⟩ := heq
        exact .inr ⟨before, after, rfl, by rwa [hlast] at hkeep⟩

def Precedes (entries : List (Entry K V)) (p e : Entry K V) : Prop :=
  p ∈ entries ∧ p.key < e.key ∧ ∀ q ∈ entries, q.key < e.key → q.key ≤ p.key

omit hsorted hS in
theorem getLast?_eq_some_iff_precedes {before after : List (Entry K V)}
    (h : SortedEntries (before ++ e :: after)) {p : Entry K V} :
    before.getLast? = some p ↔ Precedes (before ++ e :: after) p e := by
  obtain ⟨hbefore, hafter, hcross⟩ := pairwise_append.mp h
  have hlast : ∀ p, before.getLast? = some p → Precedes (before ++ e :: after) p e := by
    intro p hp
    obtain ⟨init, rfl⟩ := getLast?_eq_some_iff.mp hp
    refine ⟨by simp, hcross p (by simp) e mem_cons_self, fun q hq hlt ↦ ?_⟩
    have hqmem : q ∈ init ++ [p] := by
      refine (mem_append.mp hq).resolve_right fun hq ↦ ?_
      rcases mem_cons.mp hq with rfl | hq
      · exact lt_irrefl _ hlt
      · exact absurd hlt ((pairwise_cons.mp hafter).1 q hq).asymm
    rcases mem_append.mp hqmem with hq | hq
    · exact ((pairwise_append.mp hbefore).2.2 q hq p mem_cons_self).le
    · rw [mem_singleton.mp hq]
  refine ⟨hlast p, fun hp ↦ ?_⟩
  have hpmem : p ∈ before := by
    refine (mem_append.mp hp.1).resolve_right fun hq ↦ ?_
    rcases mem_cons.mp hq with rfl | hq
    · exact lt_irrefl _ hp.2.1
    · exact absurd hp.2.1 ((pairwise_cons.mp hafter).1 p hq).asymm
  cases hget : before.getLast? with
  | none => simp [getLast?_eq_none_iff.mp hget] at hpmem
  | some p' =>
    have hp' := hlast p' hget
    have hkey := le_antisymm (hp.2.2 p' hp'.1 hp'.2.1) (hp'.2.2 p hp.1 hp.2.1)
    rw [h.eq_of_key hp'.1 hp.1 hkey]

def Hidden (smallestSnapshot : ℕ) (entries : List (Entry K V)) (e : Entry K V) : Prop :=
  e.type.isSome ∧ ∃ p, Precedes entries p e ∧ p.type.isSome ∧ p.userKey = e.userKey ∧
    p.sequence ≤ smallestSnapshot

variable (hentries : SortedEntries entries)
include hentries

/-- The loop keeps the entries that neither rule drops. -/
theorem mem_keptEntries : e ∈ keptEntries files level smallestSnapshot entries ↔
      e ∈ entries ∧ ¬Hidden smallestSnapshot entries e ∧ ¬Obsolete files level smallestSnapshot e := by
  have huser : entries.Pairwise fun a b ↦ a.userKey ≤ b.userKey :=
    hentries.imp fun hlt ↦ InternalKey.userKey_le_of_lt hlt
  have hhidden : ∀ before after, entries = before ++ e :: after →
      (HiddenBy smallestSnapshot (before.getLast?.or none) e ↔ Hidden smallestSnapshot entries e) := by
    rintro before after rfl
    simp only [HiddenBy, Hidden, Option.or_none, getLast?_eq_some_iff_precedes hentries]
  have hstart : (DropState.start : DropState K).Follows (none : Option (Entry K V)) := rfl
  unfold keptEntries
  rw [mem_keptFrom hsorted hS hstart huser (by simp [AllPassed, Passed, DropState.start])]
  constructor
  · rintro ⟨before, after, heq, hkeep⟩
    rw [hhidden before after heq, not_or] at hkeep
    exact ⟨by simp [heq], hkeep⟩
  · rintro ⟨hmem, hkeep⟩
    obtain ⟨before, after, heq⟩ := append_of_mem hmem
    exact ⟨before, after, heq, by rwa [hhidden before after heq, not_or]⟩

omit hsorted hS in
theorem exists_precedes {e x : Entry K V} (he : e ∈ entries) (hx : x ∈ entries) (hlt : e.key < x.key) :
    ∃ p, Precedes entries p x := by
  obtain ⟨before, after, rfl⟩ := append_of_mem hx
  have hmem : e ∈ before := by
    refine (mem_append.mp he).resolve_right fun he ↦ ?_
    obtain ⟨-, hafter, -⟩ := pairwise_append.mp hentries
    rcases mem_cons.mp he with rfl | he
    · exact lt_irrefl _ hlt
    · exact absurd hlt ((pairwise_cons.mp hafter).1 e he).asymm
  obtain ⟨p, hp⟩ := Option.isSome_iff_exists.mp (getLast?_isSome.mpr (ne_nil_of_mem hmem))
  exact ⟨p, (getLast?_eq_some_iff_precedes hentries).mp hp⟩

structure DroppedMarker (files : ℕ → List (FileMetaData K)) (level smallestSnapshot : ℕ)
    (entries : List (Entry K V)) (marker : Entry K V) : Prop where
  mem : marker ∈ entries
  obsolete : Obsolete files level smallestSnapshot marker
  newest : ∀ x ∈ entries, x.type.isSome → x.userKey = marker.userKey →
    x.sequence ≤ smallestSnapshot → x.tag ≤ marker.tag

/-- A dropped deletion marker hides a value, but an entry that does not parse stands right before
that value, so that the loop has forgotten the user key and keeps the value. -/
structure Exposes (files : ℕ → List (FileMetaData K)) (level smallestSnapshot : ℕ)
    (entries : List (Entry K V)) (marker bad value : Entry K V) : Prop where
  dropped : DroppedMarker files level smallestSnapshot entries marker
  value_mem : value ∈ entries
  value_type : value.type = some .kTypeValue
  value_userKey : value.userKey = marker.userKey
  bad_precedes : Precedes entries bad value
  bad_type : bad.type = none
  marker_lt : marker.key < bad.key

theorem exposes_of_kept {marker x : Entry K V}
    (hmarker : DroppedMarker files level smallestSnapshot entries marker)
    (hx : x ∈ keptEntries files level smallestSnapshot entries) (htype : x.type.isSome)
    (huser : x.userKey = marker.userKey) (hseq : x.sequence ≤ smallestSnapshot) :
    ∃ bad, Exposes files level smallestSnapshot entries marker bad x := by
  obtain ⟨hmem, hnotHidden, hnotObsolete⟩ := (mem_keptEntries hsorted hS hentries).mp hx
  have hle : marker.key ≤ x.key := (Entry.key_le_iff huser.symm).mpr (hmarker.newest x hmem htype huser hseq)
  have hlt : marker.key < x.key := by
    refine hle.lt_of_ne fun hkey ↦ hnotObsolete ?_
    rw [← hentries.eq_of_key hmarker.mem hmem hkey]
    exact hmarker.obsolete
  obtain ⟨p, hp⟩ := exists_precedes hentries hmarker.mem hmem hlt
  have hpm := hp.2.2 marker hmarker.mem hlt
  have hpuser : p.userKey = marker.userKey := by
    apply le_antisymm
    · exact (InternalKey.userKey_le_of_lt hp.2.1).trans huser.le
    · exact InternalKey.userKey_le_of_le hpm
  -- a predecessor that parses would hide `x`
  have hbad : p.type = none := by
    by_contra hsome
    rw [← ne_eq, Option.ne_none_iff_isSome] at hsome
    refine hnotHidden ⟨htype, p, hp, hsome, hpuser.trans huser.symm, ?_⟩
    exact (Entry.sequence_le_of_tag_le ((Entry.key_le_iff hpuser.symm).mp hpm)).trans hmarker.obsolete.2.1
  have hvalue : x.type = some .kTypeValue := by
    obtain ⟨t, ht⟩ := Option.isSome_iff_exists.mp htype
    cases t with
    | kTypeValue => exact ht
    | kTypeDeletion => exact absurd ⟨ht, hseq, huser ▸ hmarker.obsolete.2.2⟩ hnotObsolete
  refine ⟨p, hmarker, hmem, hvalue, huser, hp, hbad, hpm.lt_of_ne fun hkey ↦ ?_⟩
  have htype := hmarker.obsolete.1
  rw [hentries.eq_of_key hmarker.mem hp.1 hkey, hbad] at htype
  cases htype

theorem keptEntries_subset (D : Set (Entry K V)) :
    parsed ({e | e ∈ keptEntries files level smallestSnapshot entries} ∪ D) ⊆
      parsed ({e | e ∈ entries} ∪ D) := by
  rintro e ⟨he | he, htype⟩
  · exact ⟨.inl ((mem_keptEntries hsorted hS hentries).mp he).1, htype⟩
  · exact ⟨.inr he, htype⟩

theorem newest_kept_or_obsolete {s : ℕ} (hs : smallestSnapshot ≤ s)
    (hnewest : Newest.IsNewest Entry.userKey Entry.tag (parsed ({e | e ∈ entries} ∪ D)) userKey
      (snapshotTag s) e) :
    e ∈ {e | e ∈ keptEntries files level smallestSnapshot entries} ∪ D ∨
      (e ∈ entries ∧ Obsolete files level smallestSnapshot e) := by
  rcases hnewest.mem.1 with he | he
  · by_cases hobsolete : Obsolete files level smallestSnapshot e
    · exact .inr ⟨he, hobsolete⟩
    · refine .inl (.inl ((mem_keptEntries hsorted hS hentries).mpr ⟨he, ?_, hobsolete⟩))
      -- an entry that hides `e` would be newer and visible as well
      rintro ⟨htype, p, hp, hptype, hpuser, hpseq⟩
      have hlt := InternalKey.tag_lt_of_lt hp.2.1 hpuser
      have hle := hnewest.newest p ⟨.inl hp.1, hptype⟩ (hpuser.trans hnewest.key_eq)
        ((Entry.tag_le_snapshotTag hptype s).mpr (hpseq.trans hs))
      exact absurd hlt (Nat.not_lt.mpr hle)
  · exact .inl (.inr he)

omit hsorted hS hentries in
theorem droppedMarker_of_newest {s : ℕ} (hs : smallestSnapshot ≤ s)
    (hnewest : Newest.IsNewest Entry.userKey Entry.tag (parsed ({e | e ∈ entries} ∪ D)) userKey
      (snapshotTag s) e) (he : e ∈ entries) (hobsolete : Obsolete files level smallestSnapshot e) :
    DroppedMarker files level smallestSnapshot entries e := by
  refine ⟨he, hobsolete, fun x hx htype huser hseq ↦ ?_⟩
  exact hnewest.newest x ⟨.inl hx, htype⟩ (huser.trans hnewest.key_eq)
    ((Entry.tag_le_snapshotTag htype s).mpr (hseq.trans hs))

theorem noVersion_of_droppedMarker {s : ℕ}
    (hnewest : Newest.IsNewest Entry.userKey Entry.tag (parsed ({e | e ∈ entries} ∪ D)) userKey
      (snapshotTag s) e) (hmarker : DroppedMarker files level smallestSnapshot entries e)
    (hD : ∀ d ∈ D, d.userKey = e.userKey → e.tag < d.tag)
    (hsafe : ∀ bad value, ¬Exposes files level smallestSnapshot entries e bad value) :
    Newest.NoVersion Entry.userKey Entry.tag
      (parsed ({e | e ∈ keptEntries files level smallestSnapshot entries} ∪ D)) userKey
      (snapshotTag s) := by
  intro x hx huser
  by_contra hle
  have hle := Nat.not_lt.mp hle
  have hxe := hnewest.newest x (keptEntries_subset hsorted hS hentries D hx) huser hle
  rcases hx with ⟨hx | hx, htype⟩
  · have hseq : x.sequence ≤ smallestSnapshot :=
      (Entry.sequence_le_of_tag_le hxe).trans hmarker.obsolete.2.1
    obtain ⟨bad, hexposes⟩ := exposes_of_kept hsorted hS hentries hmarker hx htype
      (huser.trans hnewest.key_eq.symm) hseq
    exact hsafe bad x hexposes
  · exact absurd (hD x hx (huser.trans hnewest.key_eq.symm)) (Nat.not_lt.mpr hxe)

omit hsorted hS hentries in
theorem Obsolete.resolve (h : Obsolete files level smallestSnapshot e) : e.resolve = none := by
  simp [Entry.resolve, h.1]

/-- Together with entries `D` that hold nothing older than a dropped marker of their key, the kept
entries read as all input entries do, at every sequence from the smallest snapshot on. -/
theorem resolves_keptEntries (hD : ∀ e, DroppedMarker files level smallestSnapshot entries e →
      ∀ d ∈ D, d.userKey = e.userKey → e.tag < d.tag)
    (hsafe : ∀ marker bad value, ¬Exposes files level smallestSnapshot entries marker bad value)
    (userKey : K) {s : ℕ} (hs : smallestSnapshot ≤ s) (result : Option V) :
    Resolves ({e | e ∈ keptEntries files level smallestSnapshot entries} ∪ D) userKey s result ↔
      Resolves ({e | e ∈ entries} ∪ D) userKey s result := by
  have hsub := keptEntries_subset hsorted hS hentries D
  -- the newest input entry decides: it is kept, or an obsolete marker with nothing kept behind it
  have hforward : ∀ found, Newest.Finds Entry.userKey Entry.tag (parsed ({e | e ∈ entries} ∪ D))
      userKey (snapshotTag s) found →
      ∃ found', Newest.Finds Entry.userKey Entry.tag
        (parsed ({e | e ∈ keptEntries files level smallestSnapshot entries} ∪ D)) userKey
        (snapshotTag s) found' ∧ found'.bind Entry.resolve = found.bind Entry.resolve := by
    intro found hfound
    cases found with
    | none => exact ⟨none, fun x hx ↦ hfound x (hsub hx), rfl⟩
    | some e =>
      rcases newest_kept_or_obsolete hsorted hS hentries hs hfound with hkept | ⟨he, hobsolete⟩
      · exact ⟨some e, ⟨⟨hkept, hfound.mem.2⟩, hfound.key_eq, hfound.le_bound, fun x hx ↦
          hfound.newest x (hsub hx)⟩, rfl⟩
      · have hmarker := droppedMarker_of_newest hs hfound he hobsolete
        exact ⟨none, noVersion_of_droppedMarker hsorted hS hentries hfound hmarker (hD e hmarker)
          (hsafe e), hobsolete.resolve.symm⟩
  constructor
  · rintro ⟨found, hfound, rfl⟩
    obtain ⟨all, hall⟩ := Newest.exists_finds Entry.userKey Entry.tag (parsed ({e | e ∈ entries} ∪ D))
      userKey (snapshotTag s)
    cases found with
    | none =>
      obtain ⟨found', hfound', heq⟩ := hforward all hall
      cases found' with
      | none => exact ⟨all, hall, heq.symm⟩
      | some x => exact absurd hfound'.le_bound (Nat.not_le.mpr (hfound x hfound'.mem hfound'.key_eq))
    | some x =>
      refine ⟨some x, ?_, rfl⟩
      cases all with
      | none => exact absurd hfound.le_bound (Nat.not_le.mpr (hall x (hsub hfound.mem) hfound.key_eq))
      | some e =>
        have hxe := hall.newest x (hsub hfound.mem) hfound.key_eq hfound.le_bound
        refine ⟨hsub hfound.mem, hfound.key_eq, hfound.le_bound, fun y hy huser hle ↦ ?_⟩
        rcases newest_kept_or_obsolete hsorted hS hentries hs hall with hkept | ⟨he, hobsolete⟩
        · exact (hall.newest y hy huser hle).trans
            (hfound.newest e ⟨hkept, hall.mem.2⟩ hall.key_eq hall.le_bound)
        · have hmarker := droppedMarker_of_newest hs hall he hobsolete
          have hnone := noVersion_of_droppedMarker hsorted hS hentries hall hmarker (hD e hmarker) (hsafe e)
          exact absurd hfound.le_bound (Nat.not_le.mpr (hnone x hfound.mem hfound.key_eq))
  · rintro ⟨found, hfound, rfl⟩
    obtain ⟨found', hfound', heq⟩ := hforward found hfound
    exact ⟨found', hfound', heq⟩

def HeldDeeper (files : ℕ → List (FileMetaData K)) (level : ℕ) (D : Set (Entry K V)) : Prop :=
  ∀ d ∈ D, ∃ lvl ∈ deeperLevels level, ∃ f ∈ files lvl, f.smallest ≤ d.key ∧ d.key ≤ f.largest

omit hsorted hS hentries in
theorem HeldDeeper.userKey_ne (hD : HeldDeeper files level D) (hbase : BaseLevel files level userKey) :
    ∀ d ∈ D, d.userKey ≠ userKey := by
  rintro d hd rfl
  obtain ⟨lvl, hlvl, f, hf, hlo, hhi⟩ := hD d hd
  exact hbase lvl hlvl f hf ⟨InternalKey.userKey_le_of_le hlo, InternalKey.userKey_le_of_le hhi⟩

theorem Exposes.value_kept {marker bad value : Entry K V}
    (h : Exposes files level smallestSnapshot entries marker bad value) :
    value ∈ keptEntries files level smallestSnapshot entries := by
  refine (mem_keptEntries hsorted hS hentries).mpr ⟨h.value_mem, ?_, ?_⟩
  · rintro ⟨_, p, hp, hptype, -⟩
    have hkey := le_antisymm (h.bad_precedes.2.2 p hp.1 hp.2.1)
      (hp.2.2 bad h.bad_precedes.1 h.bad_precedes.2.1)
    rw [hentries.eq_of_key hp.1 h.bad_precedes.1 hkey, h.bad_type] at hptype
    cases hptype
  · rintro ⟨hdel, -⟩
    rw [h.value_type] at hdel
    cases hdel

/-- An exposed value comes back: at the smallest snapshot the outputs read a value of the user key
where the inputs read a deletion. -/
theorem Exposes.resolves_some (hD : HeldDeeper files level D) {marker bad value : Entry K V}
    (h : Exposes files level smallestSnapshot entries marker bad value) :
    ∃ v, Resolves ({e | e ∈ keptEntries files level smallestSnapshot entries} ∪ D) marker.userKey
        smallestSnapshot (some v) ∧
      ¬Resolves ({e | e ∈ entries} ∪ D) marker.userKey smallestSnapshot (some v) := by
  have hnone := hD.userKey_ne h.dropped.obsolete.2.2
  obtain ⟨found, hfound⟩ := Newest.exists_finds Entry.userKey Entry.tag
    (parsed ({e | e ∈ keptEntries files level smallestSnapshot entries} ∪ D)) marker.userKey
    (snapshotTag smallestSnapshot)
  have hvtype : value.type.isSome := by rw [h.value_type]; rfl
  have hmtype : marker.type.isSome := by rw [h.dropped.obsolete.1]; rfl
  have hvseq : value.sequence ≤ smallestSnapshot := by
    have hle := (h.marker_lt.trans h.bad_precedes.2.1).le
    exact (Entry.sequence_le_of_tag_le ((Entry.key_le_iff h.value_userKey.symm).mp hle)).trans
      h.dropped.obsolete.2.1
  cases found with
  | none =>
    have hlt := hfound value ⟨.inl (h.value_kept hsorted hS hentries), hvtype⟩ h.value_userKey
    exact absurd ((Entry.tag_le_snapshotTag hvtype _).mpr hvseq) (Nat.not_le.mpr hlt)
  | some x =>
    have hx : x ∈ keptEntries files level smallestSnapshot entries :=
      hfound.mem.1.resolve_right fun hx ↦ hnone x hx hfound.key_eq
    have hxseq := (Entry.tag_le_snapshotTag hfound.mem.2 _).mp hfound.le_bound
    obtain ⟨bad', hx'⟩ := exposes_of_kept hsorted hS hentries h.dropped hx hfound.mem.2 hfound.key_eq hxseq
    refine ⟨x.value, ⟨some x, hfound, by simp [Entry.resolve, hx'.value_type]⟩, ?_⟩
    rintro ⟨found, hall, hvalue⟩
    cases found with
    | none => cases hvalue
    | some y =>
      have hy : y ∈ entries := hall.mem.1.resolve_right fun hy ↦ hnone y hy hall.key_eq
      have hle := h.dropped.newest y hy hall.mem.2 hall.key_eq
        ((Entry.tag_le_snapshotTag hall.mem.2 _).mp hall.le_bound)
      have hge := hall.newest marker ⟨.inl h.dropped.mem, hmtype⟩ rfl
        ((Entry.tag_le_snapshotTag hmtype _).mpr h.dropped.obsolete.2.1)
      have hkey : y.key = marker.key := InternalKey.ext hall.key_eq (le_antisymm hle hge)
      rw [hentries.eq_of_key hy h.dropped.mem hkey, Option.bind_some, h.dropped.obsolete.resolve] at hvalue
      cases hvalue

end

end Kept

/-- A compaction preserves every view at or above its smallest snapshot, and keeps every entry whose
key does not parse, exactly when no deletion marker that it drops as obsolete exposes a value. -/
theorem compaction_preserves_views_iff (version : Version K) (level smallestSnapshot : ℕ)
    (hlevels : SortedFrom version.files level) (hS : smallestSnapshot < kMaxSequenceNumber)
    (entries : List (Entry K V)) (hentries : SortedEntries entries) (D : Set (Entry K V))
    (hD : HeldDeeper version.files level D) :
    ((∀ userKey s, smallestSnapshot ≤ s → ∀ result,
        Resolves ({e | e ∈ keptEntries version.files level smallestSnapshot entries} ∪ D) userKey s
          result ↔
        Resolves ({e | e ∈ entries} ∪ D) userKey s result) ∧
      ∀ e ∈ entries, parseInternalKey e.key = none →
        e ∈ keptEntries version.files level smallestSnapshot entries) ↔
    ¬∃ marker bad value, Exposes version.files level smallestSnapshot entries marker bad value := by
  constructor
  · rintro ⟨hviews, -⟩ ⟨marker, bad, value, hexposes⟩
    obtain ⟨v, hkept, hinputs⟩ := hexposes.resolves_some hlevels hS hentries hD
    exact hinputs ((hviews marker.userKey smallestSnapshot le_rfl (some v)).mp hkept)
  · intro hsafe
    constructor
    · intro userKey s hs result
      apply resolves_keptEntries hlevels hS hentries _ _ userKey hs
      · intro e hmarker d hd huser
        exact absurd huser (hD.userKey_ne hmarker.obsolete.2.2 d hd)
      · exact fun marker bad value h ↦ hsafe ⟨marker, bad, value, h⟩
    · intro e he hparse
      have htype : e.type = none := by simp [Entry.type, hparse]
      refine (mem_keptEntries hlevels hS hentries).mpr ⟨he, ?_, ?_⟩
      · rintro ⟨hsome, -⟩
        rw [htype] at hsome
        cases hsome
      · rintro ⟨hdel, -⟩
        rw [htype] at hdel
        cases hdel

/-- A value, the deletion after it and, between the two, an entry whose type byte is damaged. -/
def damagedInputs : List (Entry ℕ ℕ) :=
  [⟨InternalKey.mk' 1 5 .kTypeDeletion, 0⟩, ⟨⟨1, 4 * 256 + 2⟩, 0⟩, ⟨InternalKey.mk' 1 3 .kTypeValue, 7⟩]

/-- A version without deeper files. -/
def emptyVersion : Version ℕ where
  files _ := []

theorem emptyVersion_sorted (level : ℕ) : SortedFrom emptyVersion.files level :=
  fun _ _ ↦ ⟨.nil, by simp [emptyVersion]⟩

theorem damagedInputs_resurrect :
    SortedEntries damagedInputs ∧ SortedFrom emptyVersion.files 0 ∧ 5 < kMaxSequenceNumber ∧
      HeldDeeper emptyVersion.files 0 (∅ : Set (Entry ℕ ℕ)) ∧
      keptEntries emptyVersion.files 0 5 damagedInputs = damagedInputs.tail ∧
      ∃ v, Resolves ({e | e ∈ keptEntries emptyVersion.files 0 5 damagedInputs} ∪ ∅) 1 5 (some v) ∧
        ¬Resolves ({e | e ∈ damagedInputs} ∪ ∅) 1 5 (some v) := by
  have hentries : SortedEntries damagedInputs := by
    unfold SortedEntries
    decide
  have hexposes : Exposes emptyVersion.files 0 5 damagedInputs
      ⟨InternalKey.mk' 1 5 .kTypeDeletion, 0⟩ ⟨⟨1, 4 * 256 + 2⟩, 0⟩
      ⟨InternalKey.mk' 1 3 .kTypeValue, 7⟩ :=
    ⟨⟨by decide, ⟨by decide, by decide, by decide⟩, by decide⟩, by decide, by decide, by decide,
      ⟨by decide, by decide, by decide⟩, by decide, by decide⟩
  exact ⟨hentries, emptyVersion_sorted 0, by decide, by simp [HeldDeeper], by decide,
    hexposes.resolves_some (emptyVersion_sorted 0) (by decide) hentries (by simp [HeldDeeper])⟩

/-- The deletion and the value without the damaged entry. -/
def undamagedInputs : List (Entry ℕ ℕ) :=
  [⟨InternalKey.mk' 1 5 .kTypeDeletion, 0⟩, ⟨InternalKey.mk' 1 3 .kTypeValue, 7⟩]

theorem undamagedInputs_views : keptEntries emptyVersion.files 0 5 undamagedInputs = [] ∧
      ∀ userKey s, 5 ≤ s → ∀ result,
        Resolves ({e | e ∈ keptEntries emptyVersion.files 0 5 undamagedInputs} ∪ ∅) userKey s result ↔
          Resolves ({e | e ∈ undamagedInputs} ∪ ∅) userKey s result := by
  have hentries : SortedEntries undamagedInputs := by
    unfold SortedEntries
    decide
  refine ⟨by decide, ((compaction_preserves_views_iff emptyVersion 0 5 (emptyVersion_sorted 0)
    (by decide) undamagedInputs hentries ∅ (by simp [HeldDeeper])).mpr ?_).1⟩
  rintro ⟨marker, bad, value, h⟩
  have htypes : ∀ e ∈ undamagedInputs, e.type ≠ none := by decide
  exact htypes bad h.bad_precedes.1 h.bad_type

end LevelDB.Db.DropRules
