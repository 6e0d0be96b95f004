import Mathlib.Data.List.Lex
import Mathlib.Tactic

/-!
# Comparators

`Comparator` of `leveldb/comparator.h`, with what its comments say about the two functions that shorten keys,
and the comparator of `util/comparator.cpp`, which meets this contract.  The three-way comparison is given by a
rank in a linear order.
-/

namespace LevelDB.Util

open List

structure Comparator (τ : Type*) [LinearOrder τ] where
  /-- `Compare(a, b) < 0` exactly when `rank a < rank b`. -/
  rank : List UInt8 → τ
  findShortestSeparator : List UInt8 → List UInt8 → List UInt8
  findShortSuccessor : List UInt8 → List UInt8
  /-- If `*start < limit`, changes `*start` to a short string in `[start,limit)`. -/
  separator_mem : ∀ {start limit}, rank start < rank limit →
    rank start ≤ rank (findShortestSeparator start limit) ∧ rank (findShortestSeparator start limit) < rank limit
  /-- Changes `*key` to a short string `>= *key`. -/
  le_successor : ∀ key, rank key ≤ rank (findShortSuccessor key)

namespace Bytewise

def memcmp : ℕ → List UInt8 → List UInt8 → Ordering
  | n + 1, x :: a, y :: b =>
    if x.toNat < y.toNat then .lt else if y.toNat < x.toNat then .gt else memcmp n a b
  | _, _, _ => .eq

/-- `Slice::compare`. -/
def compare (a b : List UInt8) : Ordering :=
  match memcmp (min a.length b.length) a b with
  | .eq => if a.length < b.length then .lt else if b.length < a.length then .gt else .eq
  | r => r

/-- The lexicographic order of the bytes. -/
def rank (key : List UInt8) : List ℕ := key.map UInt8.toNat

/-- The loop that finds the length of the common prefix. -/
def diffIndex : List UInt8 → List UInt8 → ℕ
  | x :: start, y :: limit => if x = y then diffIndex start limit + 1 else 0
  | _, _ => 0

/-- `BytewiseComparatorImpl::FindShortestSeparator`; `none` is a failed assertion. -/
def findShortestSeparator (start limit : List UInt8) : Option (List UInt8) :=
  let minLength := min start.length limit.length
  let diffIndex := diffIndex start limit
  if minLength ≤ diffIndex then
    -- one string is a prefix of the other
    some start
  else
    let diffByte := start.getD diffIndex 0
    if diffByte.toNat < 0xff ∧ diffByte.toNat + 1 < (limit.getD diffIndex 0).toNat then
      let shortened := start.take diffIndex ++ [diffByte + 1]
      if compare shortened limit = .lt then some shortened else none
    else some start

/-- `BytewiseComparatorImpl::FindShortSuccessor`: the first byte that can be incremented is the last of the
result; a run of `0xff` is left alone. -/
def findShortSuccessor : List UInt8 → List UInt8
  | [] => []
  | byte :: key => if byte ≠ 0xff then [byte + 1] else byte :: findShortSuccessor key

@[simp]
theorem rank_cons (x : UInt8) (key : List UInt8) : rank (x :: key) = x.toNat :: rank key := rfl

theorem compare_cons (x y : UInt8) (a b : List UInt8) : compare (x :: a) (y :: b) =
      if x.toNat < y.toNat then .lt else if y.toNat < x.toNat then .gt else compare a b := by
  have hmin : min (a.length + 1) (b.length + 1) = min a.length b.length + 1 := by omega
  unfold compare
  rw [length_cons, length_cons, hmin, memcmp]
  by_cases hlt : x.toNat < y.toNat
  · rw [if_pos hlt, if_pos hlt]
  rw [if_neg hlt, if_neg hlt]
  by_cases hgt : y.toNat < x.toNat
  · rw [if_pos hgt, if_pos hgt]
  · rw [if_neg hgt, if_neg hgt]
    simp only [Nat.add_lt_add_iff_right]

/-- `Slice::compare` is the lexicographic order. -/
theorem compare_iff (a b : List UInt8) :
    (compare a b = .lt ↔ rank a < rank b) ∧ (compare a b = .gt ↔ rank b < rank a) := by
  induction a generalizing b with
  | nil =>
    cases b with
    | nil => decide
    | cons y b =>
      have hlt : rank [] < rank (y :: b) := nil_lt_cons _ _
      rw [show compare [] (y :: b) = .lt from rfl]
      exact ⟨iff_of_true rfl hlt, iff_of_false (by decide) hlt.asymm⟩
  | cons x a ih =>
    cases b with
    | nil =>
      have hlt : rank [] < rank (x :: a) := nil_lt_cons _ _
      rw [show compare (x :: a) [] = .gt from rfl]
      exact ⟨iff_of_false (by decide) hlt.asymm, iff_of_true rfl hlt⟩
    | cons y b =>
      rw [compare_cons, rank_cons, rank_cons, cons_lt_cons_iff, cons_lt_cons_iff]
      rcases lt_trichotomy x.toNat y.toNat with h | h | h
      · simp [h, h.ne', h.asymm]
      · simpa [h] using ih b
      · simp [h, h.ne', h.asymm]

theorem compare_eq_lt {a b : List UInt8} : compare a b = .lt ↔ rank a < rank b := (compare_iff a b).1

theorem compare_ne_gt {a b : List UInt8} : compare a b ≠ .gt ↔ rank a ≤ rank b := by
  rw [ne_eq, (compare_iff a b).2, not_lt]

/-- Where two strings differ, neither is a prefix of the other. -/
theorem diffIndex_cases (start limit : List UInt8) : min start.length limit.length ≤ diffIndex start limit ∨
      ∃ common x a y b, start = common ++ x :: a ∧ limit = common ++ y :: b ∧ x ≠ y ∧
        diffIndex start limit = common.length := by
  induction start generalizing limit with
  | nil => exact .inl (Nat.zero_le _)
  | cons x start ih =>
    cases limit with
    | nil => exact .inl (Nat.zero_le _)
    | cons y limit =>
      by_cases hxy : x = y
      · subst hxy
        have hdiff : diffIndex (x :: start) (x :: limit) = diffIndex start limit + 1 := if_pos rfl
        rcases ih limit with hle | ⟨common, x', a, y', b, rfl, rfl, hne, hlen⟩
        · left
          rw [hdiff, length_cons, length_cons]
          omega
        · exact .inr ⟨x :: common, x', a, y', b, rfl, rfl, hne, by rw [hdiff, hlen, length_cons]⟩
      · exact .inr ⟨[], x, start, y, limit, rfl, rfl, hxy, if_neg hxy⟩

theorem rank_append_lt {common a b : List UInt8} (h : rank a < rank b) :
    rank (common ++ a) < rank (common ++ b) := by
  induction common with
  | nil => exact h
  | cons x common ih => exact cons_lt_cons_iff.mpr (.inr ⟨rfl, ih⟩)

theorem toNat_add_one {x : UInt8} (h : x.toNat < 0xff) : (x + 1).toNat = x.toNat + 1 := by
  rw [UInt8.toNat_add]
  exact Nat.mod_eq_of_lt (Nat.succ_lt_succ h)

/-- The assertion of `FindShortestSeparator` holds for any two strings; the result is the start, or a shorter
string between the start and the limit. -/
theorem findShortestSeparator_cases (start limit : List UInt8) :
    findShortestSeparator start limit = some start ∨
      ∃ sep, findShortestSeparator start limit = some sep ∧ rank start < rank sep ∧ rank sep < rank limit ∧
        sep.length ≤ start.length := by
  unfold findShortestSeparator
  rcases diffIndex_cases start limit with hle | ⟨common, x, a, y, b, rfl, rfl, -, hindex⟩
  · exact .inl (if_pos hle)
  have hlong : ¬min (common ++ x :: a).length (common ++ y :: b).length ≤ common.length := by
    rw [length_append, length_append, length_cons, length_cons]
    omega
  have hx : (common ++ x :: a).getD common.length 0 = x := by simp
  have hy : (common ++ y :: b).getD common.length 0 = y := by simp
  simp only [hindex, if_neg hlong, hx, hy, take_left]
  by_cases hbyte : x.toNat < 0xff ∧ x.toNat + 1 < y.toNat
  · have hadd := toNat_add_one hbyte.1
    have hstart : rank (common ++ x :: a) < rank (common ++ [x + 1]) :=
      rank_append_lt (cons_lt_cons_iff.mpr (.inl (by omega)))
    have hlimit : rank (common ++ [x + 1]) < rank (common ++ y :: b) :=
      rank_append_lt (cons_lt_cons_iff.mpr (.inl (by omega)))
    refine .inr ⟨common ++ [x + 1], ?_, hstart, hlimit, ?_⟩
    · rw [if_pos hbyte, if_pos (compare_eq_lt.mpr hlimit)]
    · rw [length_append, length_append, length_cons, length_cons]
      exact Nat.add_le_add_left (Nat.succ_le_succ (Nat.zero_le _)) _
  · exact .inl (if_neg hbyte)

theorem rank_le_findShortSuccessor (key : List UInt8) : rank key ≤ rank (findShortSuccessor key) := by
  induction key with
  | nil => exact le_rfl
  | cons byte key ih =>
    unfold findShortSuccessor
    split
    · rename_i hne
      have hlt : byte.toNat < 0xff := by
        have hle := byte.toNat_lt
        have hne' : byte.toNat ≠ 0xff := fun heq ↦ hne (UInt8.toNat_inj.mp heq)
        omega
      have hadd := toNat_add_one hlt
      exact le_of_lt (cons_lt_cons_iff.mpr (.inl (by omega)))
    · exact cons_le_cons _ ih

end Bytewise

/-- `BytewiseComparator()`.  The assertion of `FindShortestSeparator` never fails, so that its result is always
there. -/
def bytewise : Comparator (List ℕ) where
  rank := Bytewise.rank
  findShortestSeparator start limit := (Bytewise.findShortestSeparator start limit).getD start
  findShortSuccessor := Bytewise.findShortSuccessor
  separator_mem {start limit} hlt := by
    rcases Bytewise.findShortestSeparator_cases start limit with h | ⟨sep, h, hstart, hlimit, -⟩
    · rw [h, Option.getD_some]
      exact ⟨le_rfl, hlt⟩
    · rw [h, Option.getD_some]
      exact ⟨hstart.le, hlimit⟩
  le_successor := Bytewise.rank_le_findShortSuccessor

/-- The bytewise comparator shortens nothing for a start that is not before the limit. -/
theorem bytewise_separator_le {start limit : List UInt8} (h : bytewise.rank limit ≤ bytewise.rank start) :
    bytewise.findShortestSeparator start limit = start := by
  change (Bytewise.findShortestSeparator start limit).getD start = start
  rcases Bytewise.findShortestSeparator_cases start limit with heq | ⟨sep, heq, hstart, hlimit, -⟩
  · rw [heq, Option.getD_some]
  · exact absurd (hstart.trans hlimit) (not_lt.mpr h)

end LevelDB.Util
