import Mathlib.Data.Nat.Digits.Lemmas
import Mathlib.Tactic

/-!
# Decimal numbers in text

`ConsumeDecimalNumber` of `util/logging.cpp` and the decimal conversions of `snprintf`.  The reader gives the
value of all digits at the start of its input if that fits 64 bits, and fails otherwise
(`consumeDecimalNumber_eq_some`).
-/

namespace LevelDB.Util.Logging

open List

def ascii (s : String) : List UInt8 := s.toList.map fun c ↦ UInt8.ofNat c.toNat

/-- `c >= '0' && c <= '9'` -/
def isDigit (c : UInt8) : Bool := decide (48 ≤ c.toNat ∧ c.toNat ≤ 57)

def kMaxUint64 : ℕ := 2 ^ 64 - 1

/-- The loop of `ConsumeDecimalNumber`: the value, how many digits were read and what is left of the input, or
`none` on overflow.  (The count is an `int` in the source; a name is far too short for it to wrap.) -/
def consumeLoop (v digits : ℕ) : List UInt8 → Option (ℕ × ℕ × List UInt8)
  | [] => some (v, digits, [])
  | c :: rest =>
    if isDigit c then
      let delta := c.toNat - 48
      if kMaxUint64 / 10 < v ∨ v = kMaxUint64 / 10 ∧ kMaxUint64 % 10 < delta then none
      else consumeLoop ((v * 10 + delta) % 2 ^ 64) (digits + 1) rest
    else some (v, digits, c :: rest)

def consumeDecimalNumber (input : List UInt8) : Option (ℕ × List UInt8) :=
  match consumeLoop 0 0 input with
  | none => none
  | some (v, digits, rest) => if 0 < digits then some (v, rest) else none

def decimalFrom (v : ℕ) (digits : List UInt8) : ℕ := digits.foldl (fun v c ↦ v * 10 + (c.toNat - 48)) v

def decimalValue (digits : List UInt8) : ℕ := decimalFrom 0 digits

/-- One or more digits with a value of 64 bits. -/
structure Decimal (digits : List UInt8) (v : ℕ) : Prop where
  ne_nil : digits ≠ []
  digit : ∀ c ∈ digits, isDigit c = true
  value : decimalValue digits = v
  lt : v < 2 ^ 64

/-- The input has no digit where it starts. -/
def NoDigit (input : List UInt8) : Prop := ∀ c ∈ input.head?, isDigit c = false

theorem le_decimalFrom (v : ℕ) (digits : List UInt8) : v ≤ decimalFrom v digits := by
  induction digits generalizing v with
  | nil => exact le_rfl
  | cons c digits ih => exact le_trans (by omega) (ih (v * 10 + (c.toNat - 48)))

/-- The test of the loop finds out whether the next value has more than 64 bits. -/
theorem overflow_iff {v : ℕ} {c : UInt8} (hv : v < 2 ^ 64) (hc : isDigit c = true) :
    (kMaxUint64 / 10 < v ∨ v = kMaxUint64 / 10 ∧ kMaxUint64 % 10 < c.toNat - 48) ↔
      2 ^ 64 ≤ v * 10 + (c.toNat - 48) := by
  have hdigit := of_decide_eq_true hc
  unfold kMaxUint64
  omega

/-- The loop reads all digits unless their value has more than 64 bits. -/
theorem consumeLoop_digits {digits rest : List UInt8} (hdigits : ∀ c ∈ digits, isDigit c = true)
    (hrest : NoDigit rest) {v : ℕ} (hv : v < 2 ^ 64) (count : ℕ) :
    consumeLoop v count (digits ++ rest) =
      if decimalFrom v digits < 2 ^ 64 then some (decimalFrom v digits, count + digits.length, rest)
      else none := by
  induction digits generalizing v count with
  | nil =>
    rw [if_pos (show decimalFrom v [] < 2 ^ 64 from hv)]
    cases rest with
    | nil => rfl
    | cons c rest =>
      have hc : ¬isDigit c = true := by simp [hrest c rfl]
      rw [nil_append, consumeLoop, if_neg hc]
      rfl
  | cons c digits ih =>
    obtain ⟨hc, hdigits⟩ := forall_mem_cons.mp hdigits
    have hfrom : decimalFrom v (c :: digits) = decimalFrom (v * 10 + (c.toNat - 48)) digits := rfl
    rw [cons_append, consumeLoop, if_pos hc]
    simp only [overflow_iff hv hc]
    by_cases hlt : 2 ^ 64 ≤ v * 10 + (c.toNat - 48)
    · have hle := le_decimalFrom (v * 10 + (c.toNat - 48)) digits
      rw [if_pos hlt, hfrom, if_neg (by omega)]
    · rw [if_neg hlt, Nat.mod_eq_of_lt (not_le.mp hlt), ih hdigits (not_le.mp hlt), hfrom, length_cons,
        Nat.add_assoc, Nat.add_comm 1]

theorem exists_digits (input : List UInt8) :
    ∃ digits rest, input = digits ++ rest ∧ (∀ c ∈ digits, isDigit c = true) ∧ NoDigit rest := by
  refine ⟨input.takeWhile isDigit, input.dropWhile isDigit, takeWhile_append_dropWhile.symm,
    fun c hc ↦ all_eq_true.mp all_takeWhile c hc, fun c hc ↦ ?_⟩
  have hhead := head?_dropWhile_not isDigit input
  rw [Option.mem_def.mp hc] at hhead
  simpa using hhead

theorem consumeDecimalNumber_digits {digits rest : List UInt8} (hdigits : ∀ c ∈ digits, isDigit c = true)
    (hrest : NoDigit rest) :
    consumeDecimalNumber (digits ++ rest) =
      if decimalValue digits < 2 ^ 64 ∧ digits ≠ [] then some (decimalValue digits, rest) else none := by
  have hloop := consumeLoop_digits hdigits hrest (v := 0) (by norm_num) 0
  unfold consumeDecimalNumber decimalValue
  rw [hloop, Nat.zero_add]
  by_cases hlt : decimalFrom 0 digits < 2 ^ 64
  · simp only [hlt, if_true, true_and, length_pos_iff]
  · simp only [hlt, if_false, false_and]

/-- `ConsumeDecimalNumber` takes all digits at the start, if there are any and their value has 64 bits. -/
theorem consumeDecimalNumber_eq_some {input rest : List UInt8} {v : ℕ} :
    consumeDecimalNumber input = some (v, rest) ↔
      ∃ digits, input = digits ++ rest ∧ Decimal digits v ∧ NoDigit rest := by
  constructor
  · intro h
    obtain ⟨digits, rest', rfl, hdigits, hrest⟩ := exists_digits input
    rw [consumeDecimalNumber_digits hdigits hrest] at h
    split at h
    · rename_i hvalue
      cases h
      exact ⟨digits, rfl, ⟨hvalue.2, hdigits, rfl, hvalue.1⟩, hrest⟩
    · cases h
  · rintro ⟨digits, rfl, hdecimal, hrest⟩
    rw [consumeDecimalNumber_digits hdecimal.digit hrest, hdecimal.value, if_pos ⟨hdecimal.lt, hdecimal.ne_nil⟩]

def digitChar (d : ℕ) : UInt8 := UInt8.ofNat (48 + d)

/-- The conversion `%llu`. -/
def decimal (number : ℕ) : List UInt8 :=
  if number = 0 then [digitChar 0] else ((Nat.digits 10 number).map digitChar).reverse

/-- The conversion `%06llu`, for any width. -/
def zeroPadded (width number : ℕ) : List UInt8 :=
  List.replicate (width - (decimal number).length) (digitChar 0) ++ decimal number

theorem toNat_digitChar {d : ℕ} (h : d < 10) : (digitChar d).toNat = 48 + d :=
  UInt8.toNat_ofNat_of_lt' (by norm_num [UInt8.size]; omega)

theorem isDigit_digitChar {d : ℕ} (h : d < 10) : isDigit (digitChar d) = true := by
  rw [isDigit, toNat_digitChar h, decide_eq_true_iff]
  omega

theorem isDigit_of_mem_decimal {number : ℕ} {c : UInt8} (hc : c ∈ decimal number) : isDigit c = true := by
  unfold decimal at hc
  split at hc
  · rw [mem_singleton.mp hc]
    exact isDigit_digitChar (by norm_num)
  · obtain ⟨d, hd, rfl⟩ := mem_map.mp (mem_reverse.mp hc)
    exact isDigit_digitChar (Nat.digits_lt_base (by norm_num) hd)

theorem decimal_ne_nil (number : ℕ) : decimal number ≠ [] := by
  unfold decimal
  split
  · exact cons_ne_nil _ _
  · rename_i hne
    rw [ne_eq, reverse_eq_nil_iff, map_eq_nil_iff]
    exact Nat.digits_ne_nil_iff_ne_zero.mpr hne

theorem decimalValue_decimal (number : ℕ) : decimalValue (decimal number) = number := by
  have hdigits : ∀ digits : List ℕ, (∀ d ∈ digits, d < 10) →
      decimalValue (digits.map digitChar).reverse = Nat.ofDigits 10 digits := by
    intro digits hlt
    rw [decimalValue, decimalFrom, foldl_reverse]
    induction digits with
    | nil => rfl
    | cons d digits ih =>
      obtain ⟨hd, hlt⟩ := forall_mem_cons.mp hlt
      rw [map_cons, foldr_cons, ih hlt, toNat_digitChar hd, Nat.ofDigits_cons]
      omega
  unfold decimal
  split
  · rename_i hzero
    rw [hzero]
    rfl
  · rw [hdigits _ fun d hd ↦ Nat.digits_lt_base (by norm_num) hd, Nat.ofDigits_digits]

theorem decimalFrom_zeros (count : ℕ) (digits : List UInt8) :
    decimalValue (List.replicate count (digitChar 0) ++ digits) = decimalValue digits := by
  induction count with
  | zero => rfl
  | succ count ih => exact ih

theorem decimal_zeroPadded (width : ℕ) {number : ℕ} (h : number < 2 ^ 64) :
    Decimal (zeroPadded width number) number where
  ne_nil := append_ne_nil_of_right_ne_nil _ (decimal_ne_nil number)
  digit c hc := by
    rcases mem_append.mp hc with hc | hc
    · rw [eq_of_mem_replicate hc]
      exact isDigit_digitChar (by norm_num)
    · exact isDigit_of_mem_decimal hc
  value := (decimalFrom_zeros _ _).trans (decimalValue_decimal number)
  lt := h

end LevelDB.Util.Logging
