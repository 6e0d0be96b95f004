import Mathlib.Tactic

/-!
# Cyclic redundancy checks

The remainder of a reflected CRC of any width, one bit at a time.  A step is linear in exclusive or, moves
bits down until they reach the low end, and loses nothing when the polynomial has its high bit set.  So
the remainder of several bytes can be taken byte by byte from tables.
-/

namespace LevelDB.Library.Crc

variable {w : ℕ} (poly : BitVec w)

/-- The remainder after one more bit. -/
def bitStep (x : BitVec w) : BitVec w := if x.getLsbD 0 then (x >>> 1) ^^^ poly else x >>> 1

def bitSteps (n : ℕ) (x : BitVec w) : BitVec w := (bitStep poly)^[n] x

theorem bitStep_xor (x y : BitVec w) : bitStep poly (x ^^^ y) = bitStep poly x ^^^ bitStep poly y := by
  have hcancel : ∀ a b : BitVec w, a ^^^ b = a ^^^ poly ^^^ (b ^^^ poly) := by
    intro a b
    rw [BitVec.xor_assoc, ← BitVec.xor_assoc poly, BitVec.xor_comm poly, BitVec.xor_assoc b, BitVec.xor_self,
      BitVec.xor_zero]
  unfold bitStep
  rw [BitVec.getLsbD_xor, BitVec.ushiftRight_xor_distrib]
  cases x.getLsbD 0 <;> cases y.getLsbD 0
  · rfl
  · exact BitVec.xor_assoc _ _ _
  · simp only [Bool.true_xor, Bool.not_false, if_true, Bool.false_eq_true, if_false]
    ac_rfl
  · exact hcancel _ _

theorem bitSteps_xor (n : ℕ) (x y : BitVec w) :
    bitSteps poly n (x ^^^ y) = bitSteps poly n x ^^^ bitSteps poly n y := by
  induction n generalizing x y with
  | zero => rfl
  | succ n ih =>
    simp only [bitSteps, Function.iterate_succ_apply, bitStep_xor]
    exact ih _ _

theorem bitSteps_add (m n : ℕ) (x : BitVec w) :
    bitSteps poly (m + n) x = bitSteps poly m (bitSteps poly n x) := Function.iterate_add_apply _ m n x

/-- While the low bits are clear the others only move down. -/
theorem bitSteps_of_low_clear {n : ℕ} {x : BitVec w} (h : ∀ i < n, x.getLsbD i = false) :
    bitSteps poly n x = x >>> n := by
  induction n with
  | zero => simp [bitSteps]
  | succ n ih =>
    have hlow : (x >>> n).getLsbD 0 = false := by simpa using h n (Nat.lt_succ_self n)
    rw [Nat.add_comm, bitSteps_add, ih fun i hi ↦ h i (Nat.lt_succ_of_lt hi), Nat.add_comm,
      BitVec.shiftRight_add]
    simp [bitSteps, bitStep, hlow]

/-- Bits that were moved up come back down. -/
theorem bitSteps_shiftLeft {n : ℕ} {x : BitVec w} (h : x.toNat < 2 ^ (w - n)) (hn : n ≤ w) :
    bitSteps poly n (x <<< n) = x := by
  rw [bitSteps_of_low_clear poly fun i hi ↦ by simp [BitVec.getLsbD_shiftLeft, hi]]
  apply BitVec.eq_of_toNat_eq
  have hlt : x.toNat * 2 ^ n < 2 ^ w := by
    calc x.toNat * 2 ^ n
        < 2 ^ (w - n) * 2 ^ n := Nat.mul_lt_mul_of_pos_right h (Nat.two_pow_pos n)
      _ = 2 ^ w := by rw [← pow_add, Nat.sub_add_cancel hn]
  rw [BitVec.toNat_ushiftRight, BitVec.toNat_shiftLeft, Nat.shiftLeft_eq, Nat.mod_eq_of_lt hlt,
    Nat.shiftRight_eq_div_pow, Nat.mul_div_cancel _ (Nat.two_pow_pos n)]

/-- The steps over the low bits and the bits above them are independent. -/
theorem bitSteps_split (n : ℕ) (x : BitVec w) :
    bitSteps poly n x = bitSteps poly n (x &&& BitVec.ofNat w (2 ^ n - 1)) ^^^ (x >>> n) := by
  have hsplit : x = (x &&& BitVec.ofNat w (2 ^ n - 1)) ^^^ (x &&& ~~~BitVec.ofNat w (2 ^ n - 1)) := by
    apply BitVec.eq_of_getLsbD_eq
    intro i hi
    simp only [BitVec.getLsbD_xor, BitVec.getLsbD_and, BitVec.getLsbD_not, hi, decide_true, Bool.true_and]
    cases x.getLsbD i <;> cases (BitVec.ofNat w (2 ^ n - 1)).getLsbD i <;> rfl
  have hmask : ∀ i < w, (BitVec.ofNat w (2 ^ n - 1)).getLsbD i = decide (i < n) := by
    intro i hi
    rw [BitVec.getLsbD_ofNat, Nat.testBit_two_pow_sub_one, decide_eq_true hi, Bool.true_and]
  have hhigh : bitSteps poly n (x &&& ~~~BitVec.ofNat w (2 ^ n - 1)) = x >>> n := by
    rw [bitSteps_of_low_clear]
    · apply BitVec.eq_of_getLsbD_eq
      intro i hi
      rw [BitVec.getLsbD_ushiftRight, BitVec.getLsbD_ushiftRight, BitVec.getLsbD_and, BitVec.getLsbD_not]
      by_cases hlt : n + i < w
      · rw [hmask _ hlt]
        simp [hlt]
      · simp [BitVec.getLsbD_of_ge x (n + i) (by omega)]
    · intro i hi
      by_cases hlt : i < w
      · simp [hmask i hlt, hi]
      · simp [BitVec.getLsbD_of_ge x i (by omega)]
  conv_lhs => rw [hsplit]
  rw [bitSteps_xor, hhigh]

/-- With the high bit of the polynomial set, a step can be undone. -/
theorem bitStep_injective (h : poly.msb = true) : Function.Injective (bitStep poly) := by
  intro x y hxy
  have hzero : ∀ z : BitVec w, bitStep poly z = 0#w → z = 0#w := by
    intro z hz
    have hw : 0 < w := by
      rcases Nat.eq_zero_or_pos w with rfl | hw
      · simp [BitVec.eq_nil poly] at h
      · exact hw
    unfold bitStep at hz
    split at hz
    · have hpoly : z >>> 1 = poly := by
        rwa [BitVec.xor_eq_zero_iff] at hz
      have hmsb : (z >>> 1).msb = false := by simp [BitVec.msb_ushiftRight]
      rw [hpoly, h] at hmsb
      cases hmsb
    · rename_i hlow
      apply BitVec.eq_of_getLsbD_eq
      intro i hi
      cases i with
      | zero => simpa using hlow
      | succ i =>
        have hbit := congrArg (fun z ↦ BitVec.getLsbD z i) hz
        simpa [Nat.add_comm] using hbit
  have hsum : bitStep poly (x ^^^ y) = 0#w := by rw [bitStep_xor, hxy, BitVec.xor_self]
  have hdiff := hzero _ hsum
  rwa [BitVec.xor_eq_zero_iff] at hdiff

theorem bitSteps_injective (h : poly.msb = true) (n : ℕ) : Function.Injective (bitSteps poly n) :=
  (bitStep_injective poly h).iterate n

end LevelDB.Library.Crc
