import Mathlib.Data.List.Basic
import Mathlib.Tactic

/-!
# Parts of a concatenation

A list of parts laid end to end, found again by the positions at which they begin.
-/

namespace LevelDB.Library.Slices

open List

variable {α : Type*}

def slice (data : List α) (start limit : ℕ) : List α := (data.drop start).take (limit - start)

theorem length_slice (data : List α) (start limit : ℕ) :
    (slice data start limit).length = min (limit - start) (data.length - start) := by
  rw [slice, length_take, length_drop]

theorem drop_slice (data : List α) (start limit k : ℕ) :
    (slice data start limit).drop k = slice data (start + k) limit := by
  rw [slice, slice, drop_take, drop_drop, Nat.sub_sub]

theorem take_slice (data : List α) {start limit k : ℕ} (h : start + k ≤ limit) :
    (slice data start limit).take k = slice data start (start + k) := by
  rw [slice, slice, take_take, Nat.add_sub_cancel_left, Nat.min_eq_left (by omega)]

theorem slice_take (data : List α) (n start limit : ℕ) :
    slice (data.take n) start limit = (slice data start limit).take (n - start) := by
  rw [slice, slice, drop_take, take_take, take_take, Nat.min_comm]

/-- A slice up to its end is a first part followed by the rest. -/
theorem slice_append_slice (data : List α) {start middle limit : ℕ} (h : start ≤ middle) (h' : middle ≤ limit) :
    slice data start middle ++ slice data middle limit = slice data start limit := by
  obtain ⟨k, rfl⟩ := Nat.exists_eq_add_of_le h
  rw [← take_slice data h', ← drop_slice, take_append_drop]

/-- Where part `i` begins; with `i = parts.length`, where the last part ends. -/
def position (parts : List (List α)) (i : ℕ) : ℕ := (parts.take i).flatten.length

theorem position_length (parts : List (List α)) : position parts parts.length = parts.flatten.length := by
  rw [position, take_length]

theorem position_append {parts more : List (List α)} {i : ℕ} (hi : i ≤ parts.length) :
    position (parts ++ more) i = position parts i := by
  rw [position, position, take_append_of_le_length hi]

theorem position_succ {parts : List (List α)} {i : ℕ} (hi : i < parts.length) :
    position parts (i + 1) = position parts i + parts[i].length := by
  rw [position, position, take_succ_eq_append_getElem hi, flatten_append, length_append, flatten_singleton]

theorem position_le_length (parts : List (List α)) (i : ℕ) : position parts i ≤ parts.flatten.length := by
  conv_rhs => rw [← take_append_drop i parts, flatten_append, length_append]
  exact Nat.le_add_right _ _

theorem position_of_width {parts : List (List α)} {width : ℕ} (h : ∀ part ∈ parts, part.length = width)
    {i : ℕ} (hi : i ≤ parts.length) : position parts i = width * i := by
  induction i with
  | zero => rfl
  | succ i ih =>
    rw [position_succ hi, ih (Nat.le_of_succ_le hi), h _ (getElem_mem _), Nat.mul_succ]

theorem slice_flatten {parts : List (List α)} {i : ℕ} (hi : i < parts.length) (rest : List α) :
    slice (parts.flatten ++ rest) (position parts i) (position parts (i + 1)) = parts[i] := by
  have hsplit : parts.flatten ++ rest =
      (parts.take i).flatten ++ (parts[i] ++ ((parts.drop (i + 1)).flatten ++ rest)) := by
    conv_lhs => rw [← take_append_drop i parts, drop_eq_getElem_cons hi]
    rw [flatten_append, flatten_cons, append_assoc, append_assoc]
  rw [slice, position_succ hi, Nat.add_sub_cancel_left, hsplit, position, drop_left, take_left]

end LevelDB.Library.Slices
