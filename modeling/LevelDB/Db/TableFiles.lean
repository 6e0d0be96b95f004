import LevelDB.Db.Format
import LevelDB.Library.Ranges
import LevelDB.Library.SortedLists
import Mathlib.Order.WithBot

/-!
# Table files of a level

`FileMetaData` of `db/version_edit.h` and the searches over the files of one level in
`db/version_set.cpp`: `FindFile`, `SomeFileOverlapsRange` and `GetOverlappingInputs`.  A `NULL`
begin occurs before all keys and a `NULL` end after all keys, so begins live in `WithBot` and ends
in `WithTop`.

Above level 0 the files of a level are sorted and disjoint in internal-key order.  Adjacent files may
then still share a user key, which is why the searches are stated on user keys with care.
-/

namespace LevelDB.Db.TableFiles

open Format Library List

structure FileMetaData (K : Type*) where
  number : ℕ
  fileSize : ℕ
  smallest : InternalKey K
  largest : InternalKey K
  deriving DecidableEq, Repr

namespace FileMetaData

variable {K : Type*}

def lo (f : FileMetaData K) : K := f.smallest.userKey

def hi (f : FileMetaData K) : K := f.largest.userKey

end FileMetaData

def kTargetFileSize : ℕ := 2 * 1048576

/-- Maximum bytes of overlaps in grandparent (i.e., level+2). -/
def kMaxGrandParentOverlapBytes : ℕ := 10 * kTargetFileSize

def kExpandedCompactionByteSizeLimit : ℕ := 25 * kTargetFileSize

variable {K : Type*}

def totalFileSize (files : List (FileMetaData K)) : ℕ := (files.map FileMetaData.fileSize).sum

variable [LinearOrder K]
  {files : List (FileMetaData K)} {f : FileMetaData K} {b : WithBot K} {e : WithTop K}

/-- The files of a level above 0: valid ranges, sorted and disjoint in internal-key order. -/
structure SortedLevel (files : List (FileMetaData K)) : Prop where
  ordered : files.Pairwise fun f g ↦ f.largest < g.smallest
  valid : ∀ f ∈ files, f.smallest ≤ f.largest

theorem FileMetaData.lo_le_hi (h : f.smallest ≤ f.largest) : f.lo ≤ f.hi := InternalKey.userKey_le_of_le h

namespace SortedLevel

variable {files : List (FileMetaData K)}

theorem tail (h : SortedLevel (f :: files)) : SortedLevel files :=
  ⟨(pairwise_cons.mp h.ordered).2, fun g hg ↦ h.valid g (mem_cons_of_mem f hg)⟩

/-- Two files of a sorted level are the same or one lies before the other. -/
theorem eq_or_lt (h : SortedLevel files) {f g : FileMetaData K} (hf : f ∈ files) (hg : g ∈ files) :
    f = g ∨ f.largest < g.smallest ∨ g.largest < f.smallest := by
  by_cases hne : f = g
  · exact .inl hne
  · right
    have hsides : files.Pairwise fun f g ↦ f.largest < g.smallest ∨ g.largest < f.smallest :=
      h.ordered.imp fun hlt ↦ .inl hlt
    have hsymm : Std.Symm fun f g : FileMetaData K ↦
        f.largest < g.smallest ∨ g.largest < f.smallest := ⟨fun _ _ ↦ Or.symm⟩
    exact hsides.forall hf hg hne

end SortedLevel

/-- Return the smallest index `i` such that `files[i]->largest >= key`. -/
def findFile (files : List (FileMetaData K)) (key : InternalKey K) : ℕ :=
  SortedLists.partitionPoint (fun mid ↦ files[mid]?.any fun f ↦ decide (f.largest < key))
    files.length 0 files.length

theorem findFile_eq (h : SortedLevel files) (key : InternalKey K) :
    findFile files key = (files.takeWhile fun f ↦ decide (f.largest < key)).length := by
  have hmono : files.Pairwise fun f g ↦
      decide (g.largest < key) = true → decide (f.largest < key) = true := by
    apply h.ordered.imp_of_mem
    intro f g _ hg hlt hgk
    rw [decide_eq_true_eq] at hgk ⊢
    exact (hlt.trans_le (h.valid g hg)).trans hgk
  apply SortedLists.partitionPoint_eq (Nat.zero_le _) ( takeWhile_prefix _).length_le
  · intro i hi
    rw [getElem?_eq_getElem hi, Option.any_some]
    exact SortedLists.getElem_test_iff hmono hi
  · omega

theorem getElem?_findFile (h : SortedLevel files) (key : InternalKey K) :
    files[findFile files key]? = files.find? fun f ↦ decide (key ≤ f.largest) := by
  rw [findFile_eq h, SortedLists.getElem?_length_takeWhile]
  congr 1
  funext f
  simp [← not_lt]

/-- A `NULL` user key is never after a file. -/
def afterFile (userKey : WithBot K) (f : FileMetaData K) : Bool := decide ((f.hi : WithBot K) < userKey)

/-- A `NULL` user key is never before a file. -/
def beforeFile (userKey : WithTop K) (f : FileMetaData K) : Bool := decide (userKey < (f.lo : WithTop K))

/-- The binary search for the first file that does not end before `smallest`. -/
def firstFileFrom (files : List (FileMetaData K)) (smallest : WithBot K) : ℕ :=
  match smallest with
  | none => 0
  | some userKey => findFile files (InternalKey.mk' userKey kMaxSequenceNumber kValueTypeForSeek)

def someFileOverlapsRange (disjointSortedFiles : Bool) (files : List (FileMetaData K))
    (smallest : WithBot K) (largest : WithTop K) : Bool :=
  if disjointSortedFiles then
    match files[firstFileFrom files smallest]? with
    | none => false
    | some f => !beforeFile largest f
  else files.any fun f ↦ !(afterFile smallest f || beforeFile largest f)

/-- The largest tag of a key that parses. -/
def maxTag : ℕ := packSequenceAndType kMaxSequenceNumber kValueTypeForSeek

theorem getElem?_firstFileFrom (h : SortedLevel files) (htag : ∀ f ∈ files, f.largest.tag ≤ maxTag)
    (smallest : WithBot K) :
    files[firstFileFrom files smallest]? = files.find? fun f ↦ !afterFile smallest f := by
  cases smallest with
  | bot => cases files <;> simp [firstFileFrom, afterFile]
  | coe userKey =>
    change files[findFile files (InternalKey.mk' userKey kMaxSequenceNumber kValueTypeForSeek)]? = _
    rw [getElem?_findFile h]
    apply find?_congr
    intro f hf
    have htag := htag f hf
    simp only [afterFile, WithBot.coe_lt_coe, FileMetaData.hi, ← decide_not, not_lt, decide_eq_decide,
      InternalKey.le_iff, InternalKey.mk']
    constructor
    · rintro (hlt | ⟨heq, _⟩)
      · exact hlt.le
      · exact heq.le
    · intro hle
      rcases hle.lt_or_eq with hlt | heq
      · exact .inl hlt
      · exact .inr ⟨heq, htag⟩

/-- On sorted disjoint files the binary search answers as the scan of all files does. -/
theorem someFileOverlapsRange_true_eq (h : SortedLevel files) (htag : ∀ f ∈ files, f.largest.tag ≤ maxTag)
    (smallest : WithBot K) (largest : WithTop K) : someFileOverlapsRange true files smallest largest =
      someFileOverlapsRange false files smallest largest := by
  simp only [someFileOverlapsRange, if_true, Bool.false_eq_true, if_false, getElem?_firstFileFrom h htag]
  clear htag
  induction files with
  | nil => rfl
  | cons f rest ih =>
    cases hafter : afterFile smallest f with
    | true => simpa [hafter] using ih h.tail
    | false =>
      rw [find?_cons_of_pos (by simp [hafter])]
      simp only [any_cons, hafter, Bool.false_or]
      cases hbefore : beforeFile largest f with
      | false => simp
      | true =>
        -- a range that ends before the first candidate ends before all later files
        simp only [Bool.not_true, Bool.false_or]
        symm
        rw [any_eq_false]
        intro g hg
        have hlt := (pairwise_cons.mp h.ordered).1 g hg
        have hle : f.lo ≤ g.lo := InternalKey.userKey_le_of_le ((h.valid f mem_cons_self).trans hlt.le)
        simp only [beforeFile, decide_eq_true_eq] at hbefore
        have : beforeFile largest g = true := by
          simp only [beforeFile, decide_eq_true_eq]
          exact hbefore.trans_le (WithTop.coe_le_coe.mpr hle)
        simp [this]

def IsInternalKey (key : InternalKey K) : Prop :=
  ∃ seq ≤ kMaxSequenceNumber, ∃ t, key = InternalKey.mk' key.userKey seq t

omit [LinearOrder K] in
theorem IsInternalKey.tag_le_maxTag {key : InternalKey K} (h : IsInternalKey key) : key.tag ≤ maxTag := by
  obtain ⟨seq, hseq, t, heq⟩ := h
  have hcode := t.code_le_one
  have htag : key.tag = packSequenceAndType seq t := congrArg InternalKey.tag heq
  rw [htag]
  simp only [maxTag, packSequenceAndType, kValueTypeForSeek, ValueType.code_kTypeValue]
  omega

/-- The binary search gives the answer of the scan for every range, open on either side or not. -/
theorem someFileOverlapsRange_agrees {files : List (FileMetaData K)} (hsorted : SortedLevel files)
    (hkeys : ∀ f ∈ files, IsInternalKey f.largest) (smallest : WithBot K) (largest : WithTop K) :
    someFileOverlapsRange true files smallest largest =
      someFileOverlapsRange false files smallest largest :=
  someFileOverlapsRange_true_eq hsorted (fun f hf ↦ (hkeys f hf).tag_le_maxTag) smallest largest

def sharedBoundary : List (FileMetaData ℕ) :=
  [⟨1, 10, .mk' 1 9 .kTypeValue, .mk' 2 8 .kTypeValue⟩,
    ⟨2, 10, .mk' 2 7 .kTypeDeletion, .mk' 4 6 .kTypeValue⟩]

theorem someFileOverlapsRange_agrees_sharedBoundary :
    someFileOverlapsRange true sharedBoundary ((2 : ℕ) : WithBot ℕ) ((3 : ℕ) : WithTop ℕ) =
      someFileOverlapsRange false sharedBoundary ((2 : ℕ) : WithBot ℕ) ((3 : ℕ) : WithTop ℕ) := by
  apply someFileOverlapsRange_agrees
  · exact ⟨by decide, by decide⟩
  · intro f hf
    simp only [sharedBoundary, mem_cons, not_mem_nil, or_false] at hf
    rcases hf with rfl | rfl
    · exact ⟨8, by decide, .kTypeValue, rfl⟩
    · exact ⟨6, by decide, .kTypeValue, rfl⟩

theorem avoids_of_someFileOverlapsRange {disjointSortedFiles : Bool}
    (h : disjointSortedFiles = true → SortedLevel files)
    (htag : ∀ f ∈ files, f.largest.tag ≤ maxTag) {a c : K}
    (hno : someFileOverlapsRange disjointSortedFiles files (a : WithBot K) (c : WithTop K) = false) :
    ∀ f ∈ files, Ranges.Avoids FileMetaData.lo FileMetaData.hi a c f := by
  have hscan : someFileOverlapsRange false files (a : WithBot K) (c : WithTop K) = false := by
    cases disjointSortedFiles with
    | false => exact hno
    | true => rw [← someFileOverlapsRange_true_eq (h rfl) htag]; exact hno
  intro f hf
  simp only [someFileOverlapsRange, Bool.false_eq_true, if_false, any_eq_false] at hscan
  have := hscan f hf
  simp only [afterFile, beforeFile, WithBot.coe_lt_coe, WithTop.coe_lt_coe, Bool.not_eq_true,
    Bool.not_eq_false', Bool.or_eq_true, decide_eq_true_eq] at this
  exact this

def meets (userBegin : WithBot K) (userEnd : WithTop K) (f : FileMetaData K) : Bool :=
  !(afterFile userBegin f || beforeFile userEnd f)

/-- How a pass over the files of the level ends: with the inputs collected, or with a wider range
for which the search restarts. -/
inductive Pass (K : Type*) where
  | done (inputs : List (FileMetaData K))
  | restart (userBegin : WithBot K) (userEnd : WithTop K)

/-- The loop from the current file on.  At level 0 a file that sticks out of the range makes the
source clear the inputs and restart at `i = 0` with the wider range. -/
def overlapPass (level : ℕ) (userBegin : WithBot K) (userEnd : WithTop K) :
    List (FileMetaData K) → List (FileMetaData K) → Pass K
  | inputs, [] => .done inputs
  | inputs, f :: rest =>
    if afterFile userBegin f then overlapPass level userBegin userEnd inputs rest
    else if beforeFile userEnd f then overlapPass level userBegin userEnd inputs rest
    else if level = 0 ∧ (f.lo : WithBot K) < userBegin then .restart f.lo userEnd
    else if level = 0 ∧ userEnd < (f.hi : WithTop K) then .restart userBegin f.hi
    else overlapPass level userBegin userEnd (inputs ++ [f]) rest

/-- The passes, with a bound on their number. -/
def overlapLoop (level : ℕ) (files : List (FileMetaData K)) :
    ℕ → WithBot K → WithTop K → Option (List (FileMetaData K))
  | 0, _, _ => none
  | fuel + 1, userBegin, userEnd =>
    match overlapPass level userBegin userEnd [] files with
    | .done inputs => some inputs
    | .restart userBegin' userEnd' => overlapLoop level files fuel userBegin' userEnd'

def getOverlappingInputs (level : ℕ) (files : List (FileMetaData K)) (userBegin : WithBot K)
    (userEnd : WithTop K) : List (FileMetaData K) :=
  (overlapLoop level files (2 * files.length + 1) userBegin userEnd).getD []

theorem overlapPass_cases (level : ℕ) (userBegin : WithBot K) (userEnd : WithTop K)
    (inputs files : List (FileMetaData K)) :
    (overlapPass level userBegin userEnd inputs files =
        .done (inputs ++ files.filter (meets userBegin userEnd)) ∧
      (level = 0 → ∀ f ∈ files, meets userBegin userEnd f = true →
        userBegin ≤ (f.lo : WithBot K) ∧ (f.hi : WithTop K) ≤ userEnd)) ∨
    (∃ f ∈ files, level = 0 ∧ meets userBegin userEnd f = true ∧ (f.lo : WithBot K) < userBegin ∧
      overlapPass level userBegin userEnd inputs files = .restart f.lo userEnd) ∨
    (∃ f ∈ files, level = 0 ∧ meets userBegin userEnd f = true ∧ userEnd < (f.hi : WithTop K) ∧
      overlapPass level userBegin userEnd inputs files = .restart userBegin f.hi) := by
  induction files generalizing inputs with
  | nil => simp [overlapPass]
  | cons f rest ih =>
    by_cases hmeets : meets userBegin userEnd f = true
    · have hskip : afterFile userBegin f = false ∧ beforeFile userEnd f = false := by
        simpa [meets] using hmeets
      by_cases hlo : level = 0 ∧ (f.lo : WithBot K) < userBegin
      · right; left
        exact ⟨f, mem_cons_self, hlo.1, hmeets, hlo.2, by
          simp [overlapPass, hskip, hlo]⟩
      · by_cases hhi : level = 0 ∧ userEnd < (f.hi : WithTop K)
        · right; right
          refine ⟨f, mem_cons_self, hhi.1, hmeets, hhi.2, ?_⟩
          simp only [overlapPass, hskip.1, hskip.2, Bool.false_eq_true, if_false, if_neg hlo, if_pos hhi]
        · have hpass : overlapPass level userBegin userEnd inputs (f :: rest) =
              overlapPass level userBegin userEnd (inputs ++ [f]) rest := by
            simp only [overlapPass, hskip.1, hskip.2, Bool.false_eq_true, if_false, if_neg hlo, if_neg hhi]
          rw [hpass]
          rcases ih (inputs ++ [f]) with ⟨hdone, hin⟩ | ⟨g, hg, h⟩ | ⟨g, hg, h⟩
          · left
            refine ⟨?_, fun hl g hg hgm ↦ ?_⟩
            · rw [hdone, filter_cons_of_pos hmeets]
              simp
            · rcases mem_cons.mp hg with rfl | hg
              · exact ⟨not_lt.mp fun h ↦ hlo ⟨hl, h⟩, not_lt.mp fun h ↦ hhi ⟨hl, h⟩⟩
              · exact hin hl g hg hgm
          · exact .inr (.inl ⟨g, mem_cons_of_mem f hg, h⟩)
          · exact .inr (.inr ⟨g, mem_cons_of_mem f hg, h⟩)
    · have hpass : overlapPass level userBegin userEnd inputs (f :: rest) =
          overlapPass level userBegin userEnd inputs rest := by
        have hskip : afterFile userBegin f = true ∨ beforeFile userEnd f = true := by
          simpa [meets, or_iff_not_imp_left] using hmeets
        rcases hskip with h | h
        · simp [overlapPass, h]
        · simp only [overlapPass, h, if_true, ite_self]
      rw [hpass]
      rcases ih inputs with ⟨hdone, hin⟩ | ⟨g, hg, h⟩ | ⟨g, hg, h⟩
      · left
        refine ⟨?_, fun hl g hg hgm ↦ ?_⟩
        · rw [hdone, filter_cons_of_neg hmeets]
        · rcases mem_cons.mp hg with rfl | hg
          · exact absurd hgm hmeets
          · exact hin hl g hg hgm
      · exact .inr (.inl ⟨g, mem_cons_of_mem f hg, h⟩)
      · exact .inr (.inr ⟨g, mem_cons_of_mem f hg, h⟩)

/-- Above level 0 one pass suffices. -/
theorem getOverlappingInputs_of_ne_zero {level : ℕ} (hlevel : level ≠ 0)
    (files : List (FileMetaData K)) (userBegin : WithBot K) (userEnd : WithTop K) :
    getOverlappingInputs level files userBegin userEnd = files.filter (meets userBegin userEnd) := by
  unfold getOverlappingInputs
  simp only [overlapLoop]
  rcases overlapPass_cases level userBegin userEnd [] files with ⟨hdone, _⟩ | ⟨_, _, h, _⟩ | ⟨_, _, h, _⟩
  · simp [hdone]
  · exact absurd h hlevel
  · exact absurd h hlevel

/-- The result of the search at level 0, for the range `[b', e']` at which it stops. -/
structure OverlapClosure (files : List (FileMetaData K)) (b : WithBot K) (e : WithTop K)
    (inputs : List (FileMetaData K)) (b' : WithBot K) (e' : WithTop K) : Prop where
  begin_le : b' ≤ b
  le_end : e ≤ e'
  inputs_eq : inputs = files.filter (meets b' e')
  within : ∀ f ∈ inputs, b' ≤ (f.lo : WithBot K) ∧ (f.hi : WithTop K) ≤ e'
  /-- The range never grows across a hole that all inputs leave. -/
  sides : ∀ a c : K, a ≤ c → (∀ f ∈ inputs, Ranges.Avoids FileMetaData.lo FileMetaData.hi a c f) →
    (e < (a : WithTop K) → e' < (a : WithTop K)) ∧ ((c : WithBot K) < b → (c : WithBot K) < b')

theorem meets_mono {b b' : WithBot K} {e e' : WithTop K} (hb : b' ≤ b) (he : e ≤ e')
    (h : meets b e f = true) : meets b' e' f = true := by
  simp only [meets, afterFile, beforeFile, Bool.not_eq_true', Bool.or_eq_false_iff,
    decide_eq_false_iff_not, not_lt] at h ⊢
  exact ⟨hb.trans h.1, h.2.trans he⟩

theorem meets_iff : meets b e f = true ↔ b ≤ (f.hi : WithBot K) ∧ (f.lo : WithTop K) ≤ e := by
  simp [meets, afterFile, beforeFile]

def protruding (files : List (FileMetaData K)) (b : WithBot K) (e : WithTop K) : ℕ :=
  files.countP (fun f ↦ decide ((f.lo : WithBot K) < b)) +
    files.countP fun f ↦ decide (e < (f.hi : WithTop K))

theorem protruding_le (files : List (FileMetaData K)) (b : WithBot K) (e : WithTop K) :
    protruding files b e ≤ 2 * files.length := by
  have h₁ := countP_le_length (p := fun f ↦ decide ((f.lo : WithBot K) < b)) (l := files)
  have h₂ := countP_le_length (p := fun f ↦ decide (e < (f.hi : WithTop K))) (l := files)
  unfold protruding
  omega

theorem protruding_lt_of_begin (hf : f ∈ files) (hlt : (f.lo : WithBot K) < b) :
    protruding files f.lo e < protruding files b e := by
  unfold protruding
  have := SortedLists.countP_lt_countP (p := fun g ↦ decide ((g.lo : WithBot K) < f.lo))
    (q := fun g ↦ decide ((g.lo : WithBot K) < b)) (l := files)
    (fun g _ hg ↦ by simp only [decide_eq_true_eq] at hg ⊢; exact hg.trans hlt)
    hf (by simp) (by simpa using hlt)
  omega

theorem protruding_lt_of_end (hf : f ∈ files) (hlt : e < (f.hi : WithTop K)) :
    protruding files b f.hi < protruding files b e := by
  unfold protruding
  have := SortedLists.countP_lt_countP (p := fun g ↦ decide ((f.hi : WithTop K) < g.hi))
    (q := fun g ↦ decide (e < (g.hi : WithTop K))) (l := files)
    (fun g _ hg ↦ by simp only [decide_eq_true_eq] at hg ⊢; exact hlt.trans hg)
    hf (by simp) (by simpa using hlt)
  omega

/-- Each restart takes in a file that stuck out, so the passes end; the range they end with is the
closure of the one they started from. -/
theorem overlapLoop_closure {fuel : ℕ} (hfuel : protruding files b e < fuel) :
    ∃ inputs b' e', overlapLoop 0 files fuel b e = some inputs ∧ OverlapClosure files b e inputs b' e' := by
  induction fuel generalizing b e with
  | zero => omega
  | succ fuel ih =>
    simp only [overlapLoop]
    rcases overlapPass_cases 0 b e [] files with ⟨hdone, hin⟩ | ⟨f, hf, _, hmeets, hlt, hpass⟩ |
      ⟨f, hf, _, hmeets, hlt, hpass⟩
    · refine ⟨files.filter (meets b e), b, e, by simp [hdone], le_rfl, le_rfl, rfl, ?_, ?_⟩
      · intro f hf
        rw [mem_filter] at hf
        exact hin rfl f hf.1 hf.2
      · intro a c _ _
        exact ⟨id, id⟩
    · have hdec := protruding_lt_of_begin (e := e) hf hlt
      obtain ⟨inputs, b', e', hloop, hcl⟩ := ih (b := f.lo) (e := e) (by omega)
      refine ⟨inputs, b', e', by simp [hpass, hloop], hcl.begin_le.trans hlt.le, hcl.le_end,
        hcl.inputs_eq, hcl.within, ?_⟩
      intro a c hac havoid
      obtain ⟨hend, hbegin⟩ := hcl.sides a c hac havoid
      refine ⟨hend, fun hcb ↦ hbegin ?_⟩
      -- `f` meets the range and is one of the inputs, so it cannot lie left of the hole
      have hfin : f ∈ inputs := by
        rw [hcl.inputs_eq, mem_filter]
        exact ⟨hf, meets_mono (hcl.begin_le.trans hlt.le) hcl.le_end hmeets⟩
      rcases havoid f hfin with hleft | hright
      · have hb := (meets_iff.mp hmeets).1
        have : (c : WithBot K) < (f.hi : WithBot K) := hcb.trans_le hb
        rw [WithBot.coe_lt_coe] at this
        exact absurd (hleft.trans_le hac) this.asymm
      · exact WithBot.coe_lt_coe.mpr hright
    · have hdec := protruding_lt_of_end (b := b) hf hlt
      obtain ⟨inputs, b', e', hloop, hcl⟩ := ih (b := b) (e := f.hi) (by omega)
      refine ⟨inputs, b', e', by simp [hpass, hloop], hcl.begin_le, hlt.le.trans hcl.le_end,
        hcl.inputs_eq, hcl.within, ?_⟩
      intro a c hac havoid
      obtain ⟨hend, hbegin⟩ := hcl.sides a c hac havoid
      refine ⟨fun hea ↦ hend ?_, hbegin⟩
      have hfin : f ∈ inputs := by
        rw [hcl.inputs_eq, mem_filter]
        exact ⟨hf, meets_mono hcl.begin_le (hlt.le.trans hcl.le_end) hmeets⟩
      rcases havoid f hfin with hleft | hright
      · exact WithTop.coe_lt_coe.mpr hleft
      · have he := (meets_iff.mp hmeets).2
        have : (f.lo : WithTop K) < (a : WithTop K) := he.trans_lt hea
        rw [WithTop.coe_lt_coe] at this
        exact absurd (hac.trans_lt hright) this.asymm

theorem getOverlappingInputs_zero (files : List (FileMetaData K)) (b : WithBot K) (e : WithTop K) :
    ∃ b' e', OverlapClosure files b e (getOverlappingInputs 0 files b e) b' e' := by
  have hfuel : protruding files b e < 2 * files.length + 1 := by
    have := protruding_le files b e
    omega
  obtain ⟨inputs, b', e', hloop, hcl⟩ := overlapLoop_closure hfuel
  refine ⟨b', e', ?_⟩
  unfold getOverlappingInputs
  rw [hloop]
  exact hcl

/-! ### The least closed range -/

structure ClosedRange (files : List (FileMetaData K)) (b : WithBot K) (e : WithTop K)
    (x : WithBot K) (y : WithTop K) : Prop where
  begin_le : x ≤ b
  le_end : e ≤ y
  within : ∀ f ∈ files, meets x y f = true → x ≤ (f.lo : WithBot K) ∧ (f.hi : WithTop K) ≤ y

def LeastClosedRange (files : List (FileMetaData K)) (b : WithBot K) (e : WithTop K)
    (x : WithBot K) (y : WithTop K) : Prop :=
  ClosedRange files b e x y ∧ ∀ x' y', ClosedRange files b e x' y' → x' ≤ x ∧ y ≤ y'

theorem ClosedRange.holds {b x : WithBot K} {e y : WithTop K} (h : ClosedRange files b e x y)
    (hf : f ∈ files) (hmeets : meets b e f = true) : x ≤ (f.lo : WithBot K) ∧ (f.hi : WithTop K) ≤ y :=
  h.within f hf (meets_mono h.begin_le h.le_end hmeets)

theorem LeastClosedRange.of_begin {b x : WithBot K} {e y : WithTop K} (hf : f ∈ files)
    (hmeets : meets b e f = true) (hlt : (f.lo : WithBot K) < b) (h : LeastClosedRange files f.lo e x y) :
    LeastClosedRange files b e x y := by
  obtain ⟨hclosed, hleast⟩ := h
  refine ⟨⟨hclosed.begin_le.trans hlt.le, hclosed.le_end, hclosed.within⟩, fun x' y' h' ↦ ?_⟩
  exact hleast x' y' ⟨(h'.holds hf hmeets).1, h'.le_end, h'.within⟩

theorem LeastClosedRange.of_end {b x : WithBot K} {e y : WithTop K} (hf : f ∈ files)
    (hmeets : meets b e f = true) (hlt : e < (f.hi : WithTop K)) (h : LeastClosedRange files b f.hi x y) :
    LeastClosedRange files b e x y := by
  obtain ⟨hclosed, hleast⟩ := h
  refine ⟨⟨hclosed.begin_le, hlt.le.trans hclosed.le_end, hclosed.within⟩, fun x' y' h' ↦ ?_⟩
  exact hleast x' y' ⟨h'.begin_le, (h'.holds hf hmeets).2, h'.within⟩

theorem overlapLoop_least {fuel : ℕ} {inputs : List (FileMetaData K)}
    (h : overlapLoop 0 files fuel b e = some inputs) :
    ∃ x y, LeastClosedRange files b e x y ∧ inputs = files.filter (meets x y) := by
  induction fuel generalizing b e with
  | zero => cases h
  | succ fuel ih =>
    simp only [overlapLoop] at h
    rcases overlapPass_cases 0 b e [] files with ⟨hdone, hin⟩ | ⟨f, hf, _, hmeets, hlt, hpass⟩ |
      ⟨f, hf, _, hmeets, hlt, hpass⟩
    · simp only [hdone, nil_append, Option.some.injEq] at h
      exact ⟨b, e, ⟨⟨le_rfl, le_rfl, hin rfl⟩, fun x' y' h' ↦ ⟨h'.begin_le, h'.le_end⟩⟩, h.symm⟩
    · simp only [hpass] at h
      obtain ⟨x, y, hleast, heq⟩ := ih h
      exact ⟨x, y, hleast.of_begin hf hmeets hlt, heq⟩
    · simp only [hpass] at h
      obtain ⟨x, y, hleast, heq⟩ := ih h
      exact ⟨x, y, hleast.of_end hf hmeets hlt, heq⟩

theorem overlapLoop_ends (level : ℕ) (files : List (FileMetaData K)) (b : WithBot K)
    (e : WithTop K) {fuel : ℕ} (hfuel : 2 * files.length < fuel) :
    ∃ inputs, overlapLoop level files fuel b e = some inputs := by
  by_cases hlevel : level = 0
  · subst hlevel
    obtain ⟨inputs, -, -, hloop, -⟩ := overlapLoop_closure ((protruding_le files b e).trans_lt hfuel)
    exact ⟨inputs, hloop⟩
  · obtain ⟨fuel, rfl⟩ : ∃ n, fuel = n + 1 := ⟨fuel - 1, by omega⟩
    rcases overlapPass_cases level b e [] files with ⟨hdone, _⟩ | ⟨_, _, h, _⟩ | ⟨_, _, h, _⟩
    · exact ⟨[] ++ files.filter (meets b e), by simp only [overlapLoop, hdone]⟩
    · exact absurd h hlevel
    · exact absurd h hlevel

/-- More passes than needed change nothing. -/
theorem overlapLoop_succ {level : ℕ} {fuel : ℕ} {inputs : List (FileMetaData K)}
    (h : overlapLoop level files fuel b e = some inputs) :
    overlapLoop level files (fuel + 1) b e = some inputs := by
  induction fuel generalizing b e with
  | zero => cases h
  | succ fuel ih =>
    rw [overlapLoop] at h ⊢
    cases hpass : overlapPass level b e [] files with
    | done inputs' => simpa only [hpass] using h
    | restart b' e' =>
      simp only [hpass] at h ⊢
      exact ih h

/-- The search ends after at most `2 n + 1` passes over `n` files.  Above level 0 it returns the
files that meet the range; at level 0 it returns those that meet the least closed range around it. -/
theorem getOverlappingInputs_exact (level : ℕ) (files : List (FileMetaData K)) (b : WithBot K)
    (e : WithTop K) :
    (∀ fuel, 2 * files.length < fuel →
      overlapLoop level files fuel b e = some (getOverlappingInputs level files b e)) ∧
    (level ≠ 0 → getOverlappingInputs level files b e = files.filter (meets b e)) ∧
    (level = 0 → ∃ x y, LeastClosedRange files b e x y ∧
      getOverlappingInputs level files b e = files.filter (meets x y)) := by
  obtain ⟨inputs, hloop⟩ := overlapLoop_ends level files b e (Nat.lt_succ_self _)
  have hinputs : getOverlappingInputs level files b e = inputs := by
    rw [getOverlappingInputs, hloop, Option.getD_some]
  refine ⟨fun fuel hfuel ↦ ?_, fun hlevel ↦ getOverlappingInputs_of_ne_zero hlevel files b e, ?_⟩
  · rw [hinputs]
    induction fuel, hfuel using Nat.le_induction with
    | base => exact hloop
    | succ fuel _ ih => exact overlapLoop_succ ih
  · rintro rfl
    rw [hinputs]
    exact overlapLoop_least hloop

theorem getOverlappingInputs_sublist (level : ℕ) (files : List (FileMetaData K)) (b : WithBot K)
    (e : WithTop K) : (getOverlappingInputs level files b e).Sublist files := by
  by_cases hlevel : level = 0
  · subst hlevel
    obtain ⟨b', e', hcl⟩ := getOverlappingInputs_zero files b e
    rw [hcl.inputs_eq]
    exact filter_sublist
  · rw [getOverlappingInputs_of_ne_zero hlevel]
    exact filter_sublist

theorem mem_getOverlappingInputs_of_meets {level : ℕ} (hf : f ∈ files) (hmeets : meets b e f = true) :
    f ∈ getOverlappingInputs level files b e := by
  by_cases hlevel : level = 0
  · subst hlevel
    obtain ⟨b', e', hcl⟩ := getOverlappingInputs_zero files b e
    rw [hcl.inputs_eq, mem_filter]
    exact ⟨hf, meets_mono hcl.begin_le hcl.le_end hmeets⟩
  · rw [getOverlappingInputs_of_ne_zero hlevel, mem_filter]
    exact ⟨hf, hmeets⟩

end LevelDB.Db.TableFiles
