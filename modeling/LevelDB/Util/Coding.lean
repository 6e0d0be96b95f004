import Mathlib.Tactic

/-!
# Integer codings

The fixed-width integers, varints and length-prefixed slices of `util/coding.h` and `util/coding.cpp`, on a
little-endian machine.
-/

namespace LevelDB.Util.Coding

open List

/-- The low `width` bytes of `value`, least significant first. -/
def encodeFixed : ℕ → ℕ → List UInt8
  | 0, _ => []
  | width + 1, value => UInt8.ofNat value :: encodeFixed width (value / 256)

def decodeFixed : List UInt8 → ℕ
  | [] => 0
  | b :: rest => b.toNat + 256 * decodeFixed rest

@[simp]
theorem length_encodeFixed (width value : ℕ) : (encodeFixed width value).length = width := by
  induction width generalizing value with
  | zero => rfl
  | succ width ih => rw [encodeFixed, length_cons, ih]

theorem decodeFixed_encodeFixed {width value : ℕ} (h : value < 256 ^ width) :
    decodeFixed (encodeFixed width value) = value := by
  induction width generalizing value with
  | zero =>
    rw [pow_zero, Nat.lt_one_iff] at h
    rw [h]
    rfl
  | succ width ih =>
    have hdiv : value / 256 < 256 ^ width := by
      apply Nat.div_lt_of_lt_mul
      rwa [pow_succ'] at h
    rw [encodeFixed, decodeFixed, ih hdiv, UInt8.toNat_ofNat']
    exact Nat.mod_add_div value 256

/-- Only the low bytes are written. -/
theorem encodeFixed_mod (width value : ℕ) : encodeFixed width (value % 256 ^ width) = encodeFixed width value := by
  induction width generalizing value with
  | zero => rfl
  | succ width ih =>
    have hdiv : value % 256 ^ (width + 1) / 256 = value / 256 % 256 ^ width := by
      rw [pow_succ, Nat.mul_comm, Nat.mod_mul_right_div_self]
    have hlow : value % 256 ^ (width + 1) % 256 = value % 256 :=
      Nat.mod_mod_of_dvd _ (dvd_pow_self 256 (Nat.succ_ne_zero width))
    have hbyte : UInt8.ofNat (value % 256 ^ (width + 1)) = UInt8.ofNat value := by
      apply UInt8.toNat_inj.mp
      rw [UInt8.toNat_ofNat', UInt8.toNat_ofNat']
      exact hlow
    rw [encodeFixed, encodeFixed, hdiv, ih, hbyte]

theorem decodeFixed_encodeFixed_mod (width value : ℕ) :
    decodeFixed (encodeFixed width value) = value % 256 ^ width := by
  rw [← encodeFixed_mod, decodeFixed_encodeFixed (Nat.mod_lt _ (by positivity))]

theorem decodeFixed_lt (bytes : List UInt8) : decodeFixed bytes < 256 ^ bytes.length := by
  induction bytes with
  | nil => exact Nat.one_pos
  | cons byte bytes ih =>
    have hbyte := byte.toNat_lt
    rw [decodeFixed, length_cons, pow_succ]
    omega

theorem encodeFixed_decodeFixed (bytes : List UInt8) : encodeFixed bytes.length (decodeFixed bytes) = bytes := by
  induction bytes with
  | nil => rfl
  | cons byte bytes ih =>
    have hlow : (byte.toNat + 256 * decodeFixed bytes) % 256 = byte.toNat := by
      rw [Nat.add_mul_mod_self_left]
      exact Nat.mod_eq_of_lt byte.toNat_lt
    have hhigh : (byte.toNat + 256 * decodeFixed bytes) / 256 = decodeFixed bytes := by
      rw [Nat.add_mul_div_left _ _ (by norm_num), Nat.div_eq_of_lt byte.toNat_lt, Nat.zero_add]
    have hbyte : UInt8.ofNat (byte.toNat + 256 * decodeFixed bytes) = byte := by
      apply UInt8.toNat_inj.mp
      rw [UInt8.toNat_ofNat']
      exact hlow
    rw [length_cons, encodeFixed, decodeFixed, hhigh, ih, hbyte]

theorem decodeFixed_eq_iff {bytes : List UInt8} {value : ℕ} (h : value < 256 ^ bytes.length) :
    decodeFixed bytes = value ↔ bytes = encodeFixed bytes.length value := by
  constructor
  · rintro rfl
    exact (encodeFixed_decodeFixed bytes).symm
  · intro heq
    rw [heq, decodeFixed_encodeFixed h]

theorem decodeFixed_append (low high : List UInt8) :
    decodeFixed (low ++ high) = decodeFixed low + 256 ^ low.length * decodeFixed high := by
  induction low with
  | nil => simp [decodeFixed]
  | cons byte low ih =>
    rw [cons_append, decodeFixed, decodeFixed, ih, length_cons, pow_succ]
    ring

def encodeFixed32 (value : ℕ) : List UInt8 := encodeFixed 4 value

def decodeFixed32 (data : List UInt8) (offset : ℕ) : ℕ := decodeFixed ((data.drop offset).take 4)

theorem decodeFixed32_lt (data : List UInt8) (offset : ℕ) : decodeFixed32 data offset < 2 ^ 32 := by
  have hlength : ((data.drop offset).take 4).length ≤ 4 := length_take_le 4 _
  calc decodeFixed32 data offset
      < 256 ^ ((data.drop offset).take 4).length := decodeFixed_lt _
    _ ≤ 256 ^ 4 := Nat.pow_le_pow_right (by norm_num) hlength
    _ = 2 ^ 32 := by norm_num

theorem decodeFixed32_append {before rest : List UInt8} {value : ℕ} (h : value < 2 ^ 32) :
    decodeFixed32 (before ++ (encodeFixed32 value ++ rest)) before.length = value := by
  unfold decodeFixed32 encodeFixed32
  rw [drop_left, take_left' (length_encodeFixed 4 value), decodeFixed_encodeFixed]
  exact h

/-- One of several words. -/
theorem decodeFixed32_flatMap {before after : List UInt8} {l : List ℕ} {j : ℕ} (hj : j < l.length)
    (hlt : l[j] < 2 ^ 32) :
    decodeFixed32 (before ++ (l.flatMap encodeFixed32 ++ after)) (before.length + j * 4) = l[j] := by
  induction l generalizing before j with
  | nil => cases hj
  | cons a l ih =>
    rw [flatMap_cons, append_assoc]
    cases j with
    | zero => exact decodeFixed32_append hlt
    | succ j =>
      have hlength : before.length + (j + 1) * 4 = (before ++ encodeFixed32 a).length + j * 4 := by
        rw [length_append, encodeFixed32, length_encodeFixed]
        omega
      rw [hlength, ← append_assoc]
      exact ih (Nat.lt_of_succ_lt_succ hj) hlt

/-- The loop of `EncodeVarint64`: seven bits in each byte, least significant first, with the high bit set
in all bytes but the last.  `more` bounds the bytes before the last one. -/
def encodeVarint : ℕ → ℕ → List UInt8
  | 0, v => [UInt8.ofNat v]
  | more + 1, v =>
    if 128 ≤ v then UInt8.ofNat ((v &&& 127) ||| 128) :: encodeVarint more (v >>> 7)
    else [UInt8.ofNat v]

/-- `EncodeVarint64` of a value below `2 ^ 64`, in at most ten bytes. -/
def encodeVarint64 (v : ℕ) : List UInt8 := encodeVarint 9 v

def encodeVarint32 (v : ℕ) : List UInt8 :=
  if v < 1 <<< 7 then
    [UInt8.ofNat v]
  else if v < 1 <<< 14 then
    [UInt8.ofNat (v ||| 128), UInt8.ofNat (v >>> 7)]
  else if v < 1 <<< 21 then
    [UInt8.ofNat (v ||| 128), UInt8.ofNat ((v >>> 7) ||| 128), UInt8.ofNat (v >>> 14)]
  else if v < 1 <<< 28 then
    [UInt8.ofNat (v ||| 128), UInt8.ofNat ((v >>> 7) ||| 128), UInt8.ofNat ((v >>> 14) ||| 128),
      UInt8.ofNat (v >>> 21)]
  else
    [UInt8.ofNat (v ||| 128), UInt8.ofNat ((v >>> 7) ||| 128), UInt8.ofNat ((v >>> 14) ||| 128),
      UInt8.ofNat ((v >>> 21) ||| 128), UInt8.ofNat (v >>> 28)]

def putVarint32 (dst : List UInt8) (value : ℕ) : List UInt8 := dst ++ encodeVarint32 value

def putVarint64 (dst : List UInt8) (value : ℕ) : List UInt8 := dst ++ encodeVarint64 value

/-- `PutLengthPrefixedSlice`; the size of the slice becomes a `uint32_t`. -/
def putLengthPrefixedSlice (dst value : List UInt8) : List UInt8 :=
  putVarint32 dst (value.length % 2 ^ 32) ++ value

/-- The loop of `VarintLength`; `more` bounds its rounds. -/
def varintLengthLoop : ℕ → ℕ → ℕ
  | 0, _ => 1
  | more + 1, v => if 128 ≤ v then varintLengthLoop more (v >>> 7) + 1 else 1

def varintLength (v : ℕ) : ℕ := varintLengthLoop 9 v

/-- The loop of `GetVarint32PtrFallback` and `GetVarint64Ptr` on the bytes between `p` and `limit`, for
integers of `width` bits: the value and the bytes after it. -/
def getVarintLoop (width : ℕ) : ℕ → ℕ → ℕ → List UInt8 → Option (ℕ × List UInt8)
  | 0, _, _, _ => none
  | _ + 1, _, _, [] => none
  | rounds + 1, shift, result, byte :: rest =>
    if byte.toNat &&& 128 ≠ 0 then
      getVarintLoop width rounds (shift + 7) (result ||| ((byte.toNat &&& 127) <<< shift) % 2 ^ width) rest
    else some (result ||| (byte.toNat <<< shift) % 2 ^ width, rest)

/-- `GetVarint32PtrFallback`: the shifts 0, 7, 14, 21 and 28. -/
def getVarint32PtrFallback (input : List UInt8) : Option (ℕ × List UInt8) := getVarintLoop 32 5 0 0 input

def getVarint32 (input : List UInt8) : Option (ℕ × List UInt8) :=
  match input with
  | [] => getVarint32PtrFallback input
  | byte :: rest =>
    if byte.toNat &&& 128 = 0 then some (byte.toNat, rest) else getVarint32PtrFallback input

/-- `GetVarint64Ptr` and `GetVarint64`: the shifts 0, 7, ..., 63. -/
def getVarint64 (input : List UInt8) : Option (ℕ × List UInt8) := getVarintLoop 64 10 0 0 input

def getLengthPrefixedSlice (input : List UInt8) : Option (List UInt8 × List UInt8) := do
  let (len, input) ← getVarint32 input
  if len ≤ input.length then some (input.take len, input.drop len) else none

theorem and_127 (v : ℕ) : v &&& 127 = v % 128 := Nat.and_two_pow_sub_one_eq_mod v 7

theorem or_128 {v : ℕ} (h : v < 128) : v ||| 128 = v + 128 := by
  rw [Nat.or_comm, Nat.add_comm]
  exact (Nat.two_pow_add_eq_or_of_lt (i := 7) h 1).symm

theorem and_128_eq_zero_iff (byte : UInt8) : byte.toNat &&& 128 = 0 ↔ byte.toNat < 128 := by
  have hall : ∀ b : Fin 256, b.val &&& 128 = 0 ↔ b.val < 128 := by decide +kernel
  exact hall ⟨byte.toNat, byte.toNat_lt⟩

/-- In a byte only the low seven bits of the value and the high bit are left. -/
theorem ofNat_or_128 (v : ℕ) : UInt8.ofNat (v ||| 128) = UInt8.ofNat ((v &&& 127) ||| 128) := by
  have hall : ∀ b : Fin 256, UInt8.ofNat (b.val ||| 128) = UInt8.ofNat ((b.val &&& 127) ||| 128) := by
    decide +kernel
  have hbyte := hall ⟨v % 256, Nat.mod_lt _ (by norm_num)⟩
  have hor : UInt8.ofNat (v ||| 128) = UInt8.ofNat (v % 256 ||| 128) := by
    rw [UInt8.ofNat_or, UInt8.ofNat_or, ← UInt8.ofNat_mod_size]
  have hand : v % 256 &&& 127 = v &&& 127 := by
    rw [and_127, and_127]
    omega
  rw [hor, hbyte]
  exact congrArg (fun low ↦ UInt8.ofNat (low ||| 128)) hand

theorem toNat_ofNat {v : ℕ} (h : v < 256) : (UInt8.ofNat v).toNat = v := UInt8.toNat_ofNat_of_lt' h

theorem toNat_more (v : ℕ) : (UInt8.ofNat ((v &&& 127) ||| 128)).toNat = v % 128 + 128 := by
  have hlt : v % 128 < 128 := Nat.mod_lt _ (by norm_num)
  rw [and_127, or_128 hlt, toNat_ofNat (by omega)]

theorem encodeVarint32_eq {v : ℕ} (h : v < 2 ^ 32) : encodeVarint32 v = encodeVarint 4 v := by
  have h14 : v / 2 ^ 7 / 2 ^ 7 = v / 2 ^ 14 := Nat.div_div_eq_div_mul _ _ _
  have h21 : v / 2 ^ 14 / 2 ^ 7 = v / 2 ^ 21 := Nat.div_div_eq_div_mul _ _ _
  have h28 : v / 2 ^ 21 / 2 ^ 7 = v / 2 ^ 28 := Nat.div_div_eq_div_mul _ _ _
  unfold encodeVarint32
  simp only [encodeVarint, ← ofNat_or_128, Nat.shiftRight_eq_div_pow, Nat.one_shiftLeft, h14, h21, h28]
  by_cases h7 : v < 2 ^ 7
  · rw [if_pos h7, if_neg (by omega)]
  rw [if_neg h7, if_pos (by omega : 128 ≤ v)]
  by_cases h14 : v < 2 ^ 14
  · rw [if_pos h14, if_neg (by omega)]
  rw [if_neg h14, if_pos (by omega : 128 ≤ v / 2 ^ 7)]
  by_cases h21 : v < 2 ^ 21
  · rw [if_pos h21, if_neg (by omega)]
  rw [if_neg h21, if_pos (by omega : 128 ≤ v / 2 ^ 14)]
  by_cases h28 : v < 2 ^ 28
  · rw [if_pos h28, if_neg (by omega)]
  rw [if_neg h28, if_pos (by omega : 128 ≤ v / 2 ^ 21)]

/-- A shifted value is or-ed onto the bits below it as it is added to them. -/
theorem or_shiftLeft {result shift v : ℕ} (h : result < 2 ^ shift) :
    result ||| v <<< shift = result + v * 2 ^ shift := by
  rw [Nat.or_comm, Nat.shiftLeft_eq, Nat.mul_comm, ← Nat.two_pow_add_eq_or_of_lt h, Nat.add_comm]

theorem shiftRight_lt {more v : ℕ} (h : v < 128 ^ (more + 2)) : v >>> 7 < 128 ^ (more + 1) := by
  rw [Nat.shiftRight_eq_div_pow]
  exact Nat.div_lt_of_lt_mul (by rwa [pow_succ'] at h)

section Loop

variable {width rounds shift result : ℕ} {byte : UInt8} {rest : List UInt8}

theorem getVarintLoop_last (hbyte : byte.toNat < 128) (hwidth : byte.toNat * 2 ^ shift < 2 ^ width)
    (hresult : result < 2 ^ shift) :
    getVarintLoop width (rounds + 1) shift result (byte :: rest) =
      some (result + byte.toNat * 2 ^ shift, rest) := by
  have hbit : ¬byte.toNat &&& 128 ≠ 0 := not_not.mpr ((and_128_eq_zero_iff byte).mpr hbyte)
  rw [getVarintLoop, if_neg hbit, Nat.mod_eq_of_lt (by rwa [Nat.shiftLeft_eq]), or_shiftLeft hresult]

theorem getVarintLoop_more (hbyte : 128 ≤ byte.toNat)
    (hwidth : byte.toNat % 128 * 2 ^ shift < 2 ^ width) (hresult : result < 2 ^ shift) :
    getVarintLoop width (rounds + 1) shift result (byte :: rest) =
      getVarintLoop width rounds (shift + 7) (result + byte.toNat % 128 * 2 ^ shift) rest := by
  have hbit : byte.toNat &&& 128 ≠ 0 := by
    rw [ne_eq, and_128_eq_zero_iff]
    omega
  rw [getVarintLoop, if_pos hbit, and_127, Nat.mod_eq_of_lt (by rwa [Nat.shiftLeft_eq]),
    or_shiftLeft hresult]

/-- The loop reads back what was written, on top of the bits that it has already read. -/
theorem getVarintLoop_encodeVarint {more v : ℕ} (hrounds : more < rounds) (hmore : v < 128 ^ (more + 1))
    (hwidth : v * 2 ^ shift < 2 ^ width) (hresult : result < 2 ^ shift) :
    getVarintLoop width rounds shift result (encodeVarint more v ++ rest) =
      some (result + v * 2 ^ shift, rest) := by
  induction more generalizing rounds shift result v with
  | zero =>
    obtain ⟨rounds, rfl⟩ := Nat.exists_eq_succ_of_ne_zero (Nat.ne_of_gt hrounds)
    have hv : v < 128 := hmore
    have hbyte : (UInt8.ofNat v).toNat = v := toNat_ofNat (by omega)
    rw [encodeVarint, singleton_append, getVarintLoop_last (by omega) (by rwa [hbyte]) hresult, hbyte]
  | succ more ih =>
    obtain ⟨rounds, rfl⟩ := Nat.exists_eq_succ_of_ne_zero (Nat.ne_of_gt (Nat.zero_lt_of_lt hrounds))
    rw [encodeVarint]
    split
    · have hbyte := toNat_more v
      have hlow : (UInt8.ofNat ((v &&& 127) ||| 128)).toNat % 128 = v % 128 := by omega
      have hsplit : v % 128 * 2 ^ shift + v / 2 ^ 7 * 2 ^ (shift + 7) = v * 2 ^ shift := by
        calc v % 128 * 2 ^ shift + v / 2 ^ 7 * 2 ^ (shift + 7)
            = (v % 128 + 128 * (v / 128)) * 2 ^ shift := by norm_num [pow_add]; ring
          _ = v * 2 ^ shift := by rw [Nat.mod_add_div]
      have hnext : result + v % 128 * 2 ^ shift < 2 ^ (shift + 7) := by
        have hle : v % 128 * 2 ^ shift ≤ 127 * 2 ^ shift :=
          Nat.mul_le_mul_right _ (Nat.le_of_lt_succ (Nat.mod_lt v (by norm_num)))
        rw [pow_add]
        omega
      rw [cons_append, getVarintLoop_more (by omega) (by rw [hlow]; omega) hresult, hlow,
        ih (by omega) (shiftRight_lt hmore) (by rw [Nat.shiftRight_eq_div_pow]; omega) hnext,
        Nat.shiftRight_eq_div_pow, Nat.add_assoc, hsplit]
    · rename_i hsmall
      have hbyte : (UInt8.ofNat v).toNat = v := toNat_ofNat (by omega)
      rw [singleton_append, getVarintLoop_last (by omega) (by rwa [hbyte]) hresult, hbyte]

/-- Seven more bits above those that have been read. -/
theorem or_mod_lt {low : ℕ} (hresult : result < 2 ^ shift) (hlow : low < 128) :
    result ||| (low <<< shift) % 2 ^ width < 2 ^ (shift + 7) := by
  apply Nat.or_lt_two_pow
  · exact hresult.trans_le (Nat.pow_le_pow_right (by norm_num) (Nat.le_add_right _ _))
  · calc (low <<< shift) % 2 ^ width
        ≤ low * 2 ^ shift := (Nat.mod_le _ _).trans_eq (Nat.shiftLeft_eq _ _)
      _ < 2 ^ 7 * 2 ^ shift := Nat.mul_lt_mul_of_pos_right hlow (Nat.two_pow_pos shift)
      _ = 2 ^ (shift + 7) := by rw [Nat.pow_add, Nat.mul_comm]

/-- The bytes of a value have room for its bits, seven in each. -/
theorem getVarintLoop_spec {input : List UInt8} {v : ℕ} (hresult : result < 2 ^ shift)
    (h : getVarintLoop width rounds shift result input = some (v, rest)) :
    ∃ used, input = used ++ rest ∧ 1 ≤ used.length ∧ v < 2 ^ (shift + 7 * used.length) := by
  induction rounds generalizing shift result input with
  | zero => cases h
  | succ rounds ih =>
    cases input with
    | nil => cases h
    | cons byte input =>
      rw [getVarintLoop] at h
      split at h
      · have hlow : byte.toNat &&& 127 < 128 := and_127 byte.toNat ▸ Nat.mod_lt _ (by norm_num)
        obtain ⟨used, hinput, -, hv⟩ := ih (or_mod_lt hresult hlow) h
        refine ⟨byte :: used, by rw [hinput, cons_append], Nat.succ_le_succ (Nat.zero_le _), ?_⟩
        rwa [length_cons, Nat.mul_add, Nat.add_comm (7 * _), ← Nat.add_assoc]
      · rename_i hbit
        cases h
        have hbyte := (and_128_eq_zero_iff byte).mp (not_not.mp hbit)
        exact ⟨[byte], rfl, le_rfl, or_mod_lt hresult hbyte⟩

end Loop

theorem getVarint64_encodeVarint64 {v : ℕ} (h : v < 2 ^ 64) (rest : List UInt8) :
    getVarint64 (encodeVarint64 v ++ rest) = some (v, rest) := by
  have hv : v < 128 ^ 10 := h.trans_le (by norm_num)
  rw [getVarint64, encodeVarint64, getVarintLoop_encodeVarint (by norm_num) hv (by simpa using h) (by simp)]
  simp

theorem getVarint32_eq (input : List UInt8) : getVarint32 input = getVarint32PtrFallback input := by
  cases input with
  | nil => rfl
  | cons byte rest =>
    rw [getVarint32]
    split
    · rename_i hbit
      have hbyte := (and_128_eq_zero_iff byte).mp hbit
      rw [getVarint32PtrFallback, getVarintLoop_last hbyte (by norm_num; omega) (by simp)]
      simp
    · rfl

theorem getVarint32_encodeVarint32 {v : ℕ} (h : v < 2 ^ 32) (rest : List UInt8) :
    getVarint32 (encodeVarint32 v ++ rest) = some (v, rest) := by
  have hv : v < 128 ^ 5 := h.trans_le (by norm_num)
  rw [getVarint32_eq, encodeVarint32_eq h, getVarint32PtrFallback,
    getVarintLoop_encodeVarint (by norm_num) hv (by simpa using h) (by simp)]
  simp

/-- A value of `n` groups of seven bits is written in at most `n` bytes. -/
theorem length_encodeVarint32_le {v n : ℕ} (hn : 1 ≤ n) (hv : v < 2 ^ (7 * n)) :
    (encodeVarint32 v).length ≤ n := by
  have hgroups : ∀ m, n ≤ m → v < 2 ^ (7 * m) := fun m hm ↦
    hv.trans_le (Nat.pow_le_pow_right (by norm_num) (Nat.mul_le_mul_left 7 hm))
  unfold encodeVarint32
  split_ifs with h7 h14 h21 h28
  · exact hn
  · by_contra hlt
    exact h7 (hgroups 1 (by simp at hlt; omega))
  · by_contra hlt
    exact h14 (hgroups 2 (by simp at hlt; omega))
  · by_contra hlt
    exact h21 (hgroups 3 (by simp at hlt; omega))
  · by_contra hlt
    exact h28 (hgroups 4 (by simp at hlt; omega))

theorem length_encodeVarint (more v : ℕ) : (encodeVarint more v).length = varintLengthLoop more v := by
  induction more generalizing v with
  | zero => rfl
  | succ more ih =>
    rw [encodeVarint, varintLengthLoop]
    split
    · rw [length_cons, ih]
    · rfl

/-- The rounds that a value does not need make no difference. -/
theorem encodeVarint_of_le {more more' v : ℕ} (hle : more ≤ more') (hv : v < 128 ^ (more + 1)) :
    encodeVarint more' v = encodeVarint more v := by
  induction more generalizing more' v with
  | zero =>
    have hsmall : ¬128 ≤ v := by omega
    cases more' with
    | zero => rfl
    | succ more' => exact if_neg hsmall
  | succ more ih =>
    obtain ⟨more', rfl⟩ := Nat.exists_eq_add_of_le' (Nat.one_le_of_lt hle)
    rw [encodeVarint, encodeVarint, ih (Nat.le_of_succ_le_succ hle) (shiftRight_lt hv)]

theorem encodeVarint32_eq_encodeVarint64 {v : ℕ} (h : v < 2 ^ 32) : encodeVarint32 v = encodeVarint64 v := by
  have hlt : v < 128 ^ (4 + 1) := h.trans (by norm_num)
  rw [encodeVarint32_eq h]
  exact (encodeVarint_of_le (by norm_num) hlt).symm

theorem length_encodeVarint32 {v : ℕ} (h : v < 2 ^ 32) : (encodeVarint32 v).length = varintLength v := by
  rw [encodeVarint32_eq_encodeVarint64 h]
  exact length_encodeVarint 9 v

/-- A value is read from no fewer bytes than it is written in. -/
theorem getVarint32_spec {input rest : List UInt8} {v : ℕ} (h : getVarint32 input = some (v, rest)) :
    ∃ used, input = used ++ rest ∧ (encodeVarint32 v).length ≤ used.length := by
  rw [getVarint32_eq] at h
  obtain ⟨used, hinput, hone, hv⟩ := getVarintLoop_spec (by norm_num) h
  rw [Nat.zero_add] at hv
  exact ⟨used, hinput, length_encodeVarint32_le hone hv⟩

theorem encodeVarint32_ne_nil (v : ℕ) : encodeVarint32 v ≠ [] := by
  unfold encodeVarint32
  split_ifs <;> simp

/-- One more is written in at most one more byte. -/
theorem length_encodeVarint32_succ_le (v : ℕ) :
    (encodeVarint32 v).length ≤ (encodeVarint32 (v + 1)).length ∧
      (encodeVarint32 (v + 1)).length ≤ (encodeVarint32 v).length + 1 := by
  unfold encodeVarint32
  simp only [Nat.one_shiftLeft]
  split_ifs
  all_goals simp
  all_goals omega

theorem length_of_getVarint32 {input rest : List UInt8} {v : ℕ} (h : getVarint32 input = some (v, rest)) :
    rest.length < input.length := by
  rw [getVarint32_eq] at h
  obtain ⟨used, rfl, hone, -⟩ := getVarintLoop_spec (by norm_num) h
  rw [length_append]
  omega

theorem length_of_getVarint64 {input : List UInt8} {p : ℕ × List UInt8} (h : getVarint64 input = some p) :
    p.2.length < input.length := by
  obtain ⟨used, rfl, hone, -⟩ := getVarintLoop_spec (by norm_num) h
  rw [length_append]
  omega

theorem length_of_getLengthPrefixedSlice {input : List UInt8} {p : List UInt8 × List UInt8}
    (h : getLengthPrefixedSlice input = some p) : p.2.length < input.length := by
  obtain ⟨⟨len, rest⟩, hlen, h⟩ := Option.bind_eq_some_iff.mp h
  have hrest := length_of_getVarint32 hlen
  dsimp only at h
  split at h
  · cases h
    exact lt_of_le_of_lt (by simp) hrest
  · cases h

theorem getLengthPrefixedSlice_put {value : List UInt8} (h : value.length < 2 ^ 32) (rest : List UInt8) :
    getLengthPrefixedSlice (putLengthPrefixedSlice [] value ++ rest) = some (value, rest) := by
  have hput : putLengthPrefixedSlice [] value ++ rest = encodeVarint32 value.length ++ (value ++ rest) := by
    rw [putLengthPrefixedSlice, putVarint32, Nat.mod_eq_of_lt h, nil_append, append_assoc]
  rw [hput, getLengthPrefixedSlice, getVarint32_encodeVarint32 h]
  simp

theorem putLengthPrefixedSlice_eq (dst value : List UInt8) :
    putLengthPrefixedSlice dst value = dst ++ putLengthPrefixedSlice [] value := by
  simp only [putLengthPrefixedSlice, putVarint32, nil_append, append_assoc]

/-- Every byte but the last has its high bit set. -/
theorem exists_encodeVarint_eq (more v : ℕ) :
    ∃ init last, encodeVarint more v = init ++ [last] ∧ ∀ byte ∈ init, 128 ≤ byte.toNat := by
  induction more generalizing v with
  | zero => exact ⟨[], _, rfl, by simp⟩
  | succ more ih =>
    rw [encodeVarint]
    split
    · obtain ⟨init, last, heq, hinit⟩ := ih (v >>> 7)
      have hbyte := toNat_more v
      refine ⟨_ :: init, last, by rw [heq, cons_append], forall_mem_cons.mpr ⟨?_, hinit⟩⟩
      omega
    · exact ⟨[], _, rfl, by simp⟩

/-- Bytes that all have the high bit set end inside a value. -/
theorem getVarintLoop_of_continues {width rounds shift result : ℕ} {input : List UInt8}
    (h : ∀ byte ∈ input, 128 ≤ byte.toNat) : getVarintLoop width rounds shift result input = none := by
  induction rounds generalizing shift result input with
  | zero => rfl
  | succ rounds ih =>
    cases input with
    | nil => rfl
    | cons byte input =>
      obtain ⟨hbyte, hinput⟩ := forall_mem_cons.mp h
      have hbit : byte.toNat &&& 128 ≠ 0 := by
        rw [ne_eq, and_128_eq_zero_iff]
        omega
      rw [getVarintLoop, if_pos hbit, ih hinput]

theorem getVarintLoop_of_prefix {width rounds shift result more v : ℕ} {p : List UInt8}
    (hinside : p <+: encodeVarint more v) (hne : p ≠ encodeVarint more v) :
    getVarintLoop width rounds shift result p = none := by
  obtain ⟨init, last, heq, hinit⟩ := exists_encodeVarint_eq more v
  rw [heq] at hinside hne
  have hp : p <+: init := (prefix_concat_iff.mp hinside).resolve_left hne
  exact getVarintLoop_of_continues fun byte hbyte ↦ hinit byte (hp.subset hbyte)

theorem length_encodeVarint_le (more v : ℕ) : (encodeVarint more v).length ≤ more + 1 := by
  induction more generalizing v with
  | zero => exact le_rfl
  | succ more ih =>
    rw [encodeVarint]
    split
    · exact Nat.succ_le_succ (ih _)
    · exact Nat.succ_le_succ (Nat.zero_le _)

/-- A decoder reads the value from its encoding, stops there, and fails inside of it. -/
structure DecodesExactly (decode : List UInt8 → Option (ℕ × List UInt8)) (encoding : List UInt8) (v : ℕ) :
    Prop where
  stops : ∀ rest, decode (encoding ++ rest) = some (v, rest)
  fails : ∀ p, p <+: encoding → p ≠ encoding → decode p = none

theorem decodesExactly_getVarint32 {v : ℕ} (h : v < 2 ^ 32) : DecodesExactly getVarint32 (encodeVarint32 v) v where
  stops := getVarint32_encodeVarint32 h
  fails := by
    intro p hinside hne
    rw [encodeVarint32_eq h] at hinside hne
    rw [getVarint32_eq]
    exact getVarintLoop_of_prefix hinside hne

theorem decodesExactly_getVarint64 {v : ℕ} (h : v < 2 ^ 64) : DecodesExactly getVarint64 (encodeVarint64 v) v where
  stops := getVarint64_encodeVarint64 h
  fails := fun _ hinside hne ↦ getVarintLoop_of_prefix hinside hne

/-- The varints of 32 and of 64 bits are read back, and are as long as `VarintLength` says; a value of 32
bits has the same bytes in both, and the fast path of `GetVarint32Ptr` changes nothing. -/
theorem varints_read_back : (∀ v < 2 ^ 32, DecodesExactly getVarint32 (encodeVarint32 v) v ∧
      (encodeVarint32 v).length = varintLength v ∧ encodeVarint32 v = encodeVarint64 v) ∧
    (∀ v < 2 ^ 64, DecodesExactly getVarint64 (encodeVarint64 v) v ∧
      (encodeVarint64 v).length = varintLength v) ∧
    ∀ input, getVarint32 input = getVarint32PtrFallback input := by
  refine ⟨fun v hv ↦ ?_, fun v hv ↦ ?_, getVarint32_eq⟩
  · exact ⟨decodesExactly_getVarint32 hv, length_encodeVarint32 hv, encodeVarint32_eq_encodeVarint64 hv⟩
  · exact ⟨decodesExactly_getVarint64 hv, length_encodeVarint 9 v⟩

end LevelDB.Util.Coding
