import LevelDB.Table.FilterBlock

/-!
# The Bloom filter policy

`BloomFilterPolicy` of `util/bloom.cpp` with the hash of `util/hash.cpp`.  `CreateFilter` sets a bit for
every probe of every key and appends the number of probes; `KeyMayMatch` reads that number and tests the
same probes.
-/

namespace LevelDB.Util.Bloom

open Coding Table.FilterBlock List

/-- A `char` as the 32-bit number that it is converted to, with its sign. -/
def signExtend (c : UInt8) : UInt32 := if c < 128 then c.toUInt32 else c.toUInt32 ||| 0xffffff00

/-- The loop of `Hash` over groups of four bytes, and the switch on the rest. -/
def hashFrom (n : ℕ) (h : UInt32) : List UInt8 → UInt32
  | a :: b :: c :: d :: rest =>
    let h := h + UInt32.ofNat (decodeFixed [a, b, c, d])
    let h := h * 0xc6a4a793
    hashFrom n (h ^^^ (h >>> 16)) rest
  | [] => h
  | [a] => last (h + signExtend a)
  | [a, b] => last (h + (signExtend b <<< 8) + signExtend a)
  | [a, b, c] => last (h + (signExtend c <<< 16) + (signExtend b <<< 8) + signExtend a)
where
  last (h : UInt32) : UInt32 :=
    let h := h * UInt32.ofNat n
    h ^^^ (h >>> 24)

def hash (data : List UInt8) (seed : UInt32) : UInt32 :=
  hashFrom data.length (seed ^^^ (UInt32.ofNat data.length * 0xc6a4a793)) data

def bloomHash (key : Key) : UInt32 := hash key 0xbc9f1d34

def mask (bitpos : ℕ) : UInt8 := 1 <<< UInt8.ofNat (bitpos % 8)

/-- `array[bitpos/8] |= (1 << (bitpos % 8))` -/
def setBit (array : List UInt8) (bitpos : ℕ) : List UInt8 :=
  array.modify (bitpos / 8) fun byte ↦ byte ||| mask bitpos

/-- `(array[bitpos/8] & (1 << (bitpos % 8))) != 0` -/
def testBit (array : List UInt8) (bitpos : ℕ) : Bool := array.getD (bitpos / 8) 0 &&& mask bitpos ≠ 0

def rotate (h : UInt32) : UInt32 := (h >>> 17) ||| (h <<< 15)

/-- The loop over the probes of a key in `CreateFilter`. -/
def setProbes (bits : ℕ) (delta : UInt32) : ℕ → UInt32 → List UInt8 → List UInt8
  | 0, _, array => array
  | k + 1, h, array => setProbes bits delta k (h + delta) (setBit array (h.toNat % bits))

/-- The loop of `KeyMayMatch`. -/
def testProbes (bits : ℕ) (delta : UInt32) (array : List UInt8) : ℕ → UInt32 → Bool
  | 0, _ => true
  | k + 1, h => if testBit array (h.toNat % bits) then testProbes bits delta array k (h + delta) else false

/-- `BloomFilterPolicy` with the members `bits_per_key_` and `k_`.  The number of keys and
`bits_per_key_` are below 2^31, so that `bits` does not overflow. -/
def bloomFilterPolicy (bitsPerKey k : ℕ) : FilterPolicy where
  createFilter keys :=
    let bytes := (max 64 (keys.length * bitsPerKey) + 7) / 8
    let bits := bytes * 8
    keys.foldl (fun array key ↦ setProbes bits (rotate (bloomHash key)) k (bloomHash key) array)
      (List.replicate bytes 0) ++ [UInt8.ofNat k]
  keyMayMatch key bloomFilter :=
    let len := bloomFilter.length
    if len < 2 then false
    else
      let bits := (len - 1) * 8
      let k := (bloomFilter.getD (len - 1) 0).toNat
      -- reserved for potentially new encodings
      if 30 < k then true
      else testProbes bits (rotate (bloomHash key)) bloomFilter k (bloomHash key)

/-- The constructor: `k_` is `bits_per_key * 0.69`, kept between 1 and 30. -/
def newBloomFilterPolicy (bitsPerKey : ℕ) : FilterPolicy :=
  bloomFilterPolicy bitsPerKey (min 30 (max 1 (bitsPerKey * 69 / 100)))

theorem mask_ne_zero (bitpos : ℕ) : mask bitpos ≠ 0 := by
  have hlt : bitpos % 8 < 8 := Nat.mod_lt _ (by decide)
  unfold mask
  generalize bitpos % 8 = i at hlt
  interval_cases i <;> decide

theorem or_and_self (a m : UInt8) : (a ||| m) &&& m = m := by
  apply UInt8.eq_of_toBitVec_eq
  rw [UInt8.toBitVec_and, UInt8.toBitVec_or]
  ext i hi
  simp only [BitVec.getElem_and, BitVec.getElem_or]
  cases m.toBitVec[i] <;> simp

theorem or_and_ne_zero {a m' : UInt8} (h : a &&& m' ≠ 0) (m : UInt8) : (a ||| m) &&& m' ≠ 0 := by
  intro hzero
  apply h
  apply UInt8.eq_of_toBitVec_eq
  have hbits := congrArg UInt8.toBitVec hzero
  rw [UInt8.toBitVec_and, UInt8.toBitVec_or] at hbits
  rw [UInt8.toBitVec_and]
  ext i hi
  have hbit := congrArg (fun x ↦ x[i]) hbits
  simp only [BitVec.getElem_and, BitVec.getElem_or] at hbit ⊢
  cases ha : a.toBitVec[i]
  · simp
  · rw [ha] at hbit
    exact hbit

variable {array : List UInt8}

theorem lt_of_testBit {p : ℕ} (h : testBit array p = true) : p / 8 < array.length := by
  by_contra hge
  unfold testBit at h
  rw [getD_eq_default _ _ (Nat.not_lt.mp hge)] at h
  simp at h

theorem testBit_setBit_self {p : ℕ} (h : p / 8 < array.length) : testBit (setBit array p) p = true := by
  unfold testBit setBit
  rw [getD_eq_getElem _ _ (by simpa using h), getElem_modify_eq, or_and_self]
  exact decide_eq_true (mask_ne_zero p)

/-- Bits are only ever set. -/
theorem testBit_setBit {p : ℕ} (h : testBit array p = true) (q : ℕ) : testBit (setBit array q) p = true := by
  have hlt := lt_of_testBit h
  unfold testBit setBit at *
  rw [getD_eq_getElem _ _ hlt] at h
  rw [getD_eq_getElem _ _ (by simpa using hlt), getElem_modify]
  split
  · exact decide_eq_true (or_and_ne_zero (of_decide_eq_true h) _)
  · exact h

theorem testBit_append {p : ℕ} (h : testBit array p = true) (rest : List UInt8) :
    testBit (array ++ rest) p = true := by
  unfold testBit at *
  rw [getD_append _ _ _ _ (lt_of_testBit h)]
  exact h

variable {bits : ℕ} {delta : UInt32}

theorem length_setProbes (k : ℕ) (h : UInt32) (array : List UInt8) :
    (setProbes bits delta k h array).length = array.length := by
  induction k generalizing h array with
  | zero => rfl
  | succ k ih => rw [setProbes, ih, setBit, length_modify]

theorem testBit_setProbes {p : ℕ} (k : ℕ) (h : UInt32) (hp : testBit array p = true) :
    testBit (setProbes bits delta k h array) p = true := by
  induction k generalizing h array with
  | zero => exact hp
  | succ k ih => exact ih (h + delta) (testBit_setBit hp _)

theorem testProbes_mono {array array' : List UInt8}
    (hle : ∀ p, testBit array p = true → testBit array' p = true) {k : ℕ} {h : UInt32}
    (htest : testProbes bits delta array k h = true) : testProbes bits delta array' k h = true := by
  induction k generalizing h with
  | zero => rfl
  | succ k ih =>
    rw [testProbes] at htest ⊢
    split at htest
    · rename_i hbit
      rw [if_pos (hle _ hbit)]
      exact ih htest
    · cases htest

theorem testProbes_setProbes (k : ℕ) (h : UInt32) (hbits : bits = array.length * 8) (hpos : 0 < bits) :
    testProbes bits delta (setProbes bits delta k h array) k h = true := by
  induction k generalizing h array with
  | zero => rfl
  | succ k ih =>
    have hlt : h.toNat % bits / 8 < array.length := by
      apply Nat.div_lt_of_lt_mul
      rw [Nat.mul_comm, ← hbits]
      exact Nat.mod_lt _ hpos
    have hset := testBit_setBit_self hlt
    rw [testProbes, setProbes, if_pos (testBit_setProbes k _ hset)]
    apply ih
    rw [hbits, setBit, length_modify]

theorem testProbes_foldl {k : ℕ} {keys : List Key} {key : Key} (hkey : key ∈ keys)
    (hbits : bits = array.length * 8) (hpos : 0 < bits) :
    testProbes bits (rotate (bloomHash key)) (keys.foldl
      (fun array key ↦ setProbes bits (rotate (bloomHash key)) k (bloomHash key) array) array) k
      (bloomHash key) = true := by
  have hkeeps : ∀ (keys : List Key) (array : List UInt8) (p : ℕ), testBit array p = true →
      testBit (keys.foldl (fun array key ↦
        setProbes bits (rotate (bloomHash key)) k (bloomHash key) array) array) p = true := by
    intro keys
    induction keys with
    | nil => exact fun _ _ hp ↦ hp
    | cons key rest ih => exact fun array p hp ↦ ih _ p (testBit_setProbes k _ hp)
  induction keys generalizing array with
  | nil => cases hkey
  | cons first rest ih =>
    rw [foldl_cons]
    rcases mem_cons.mp hkey with rfl | hrest
    · apply testProbes_mono (hkeeps rest _)
      exact testProbes_setProbes k _ hbits hpos
    · apply ih hrest
      rw [length_setProbes]
      exact hbits

theorem length_foldl_setProbes (k : ℕ) (keys : List Key) (array : List UInt8) :
    (keys.foldl (fun array key ↦ setProbes bits (rotate (bloomHash key)) k (bloomHash key) array)
      array).length = array.length := by
  induction keys generalizing array with
  | nil => rfl
  | cons key rest ih => rw [foldl_cons, ih, length_setProbes]

theorem bloomFilterPolicy_noFalseNegatives (bitsPerKey : ℕ) {k : ℕ} (hk : k ≤ 30) :
    (bloomFilterPolicy bitsPerKey k).NoFalseNegatives := by
  intro keys key hkey
  have hbytes : 8 ≤ (max 64 (keys.length * bitsPerKey) + 7) / 8 := by omega
  unfold bloomFilterPolicy
  dsimp only
  set bytes := (max 64 (keys.length * bitsPerKey) + 7) / 8
  set array := keys.foldl (fun array key ↦
    setProbes (bytes * 8) (rotate (bloomHash key)) k (bloomHash key) array)
    (List.replicate bytes 0) with harray
  have hlength : array.length = (List.replicate bytes (0 : UInt8)).length := length_foldl_setProbes k keys _
  have htest : testProbes (bytes * 8) (rotate (bloomHash key)) array k (bloomHash key) = true :=
    testProbes_foldl hkey (by simp) (by omega)
  rw [length_replicate] at hlength
  rw [length_append, length_singleton, Nat.add_sub_cancel, getD_append_right _ _ _ _ le_rfl,
    Nat.sub_self, hlength, if_neg (by omega)]
  have hlast : (([UInt8.ofNat k] : List UInt8).getD 0 0).toNat = k := by
    change (UInt8.ofNat k).toNat = k
    rw [UInt8.toNat_ofNat']
    omega
  rw [hlast, if_neg (by omega)]
  exact testProbes_mono (fun p hp ↦ testBit_append hp _) htest

/-- No filter block excludes a key that was added to it, if the policy excludes no key of its filters;
the Bloom filter policy is one that does not. -/
theorem filters_exclude_no_key :
    (∀ policy : FilterPolicy, policy.NoFalseNegatives → ∀ blocks : List (ℕ × List Key),
      blocks.Pairwise (fun a b ↦ a.1 ≤ b.1) →
      ∃ b, FilterBlockBuilder.build policy blocks = some b ∧
        ((b.generateLast policy).result.length < 2 ^ 32 → ∀ block ∈ blocks, ∀ key ∈ block.2,
          (FilterBlockReader.ofContents (b.finish policy)).keyMayMatch policy block.1 key = true)) ∧
    (∀ bitsPerKey k, 1 ≤ k → k ≤ 30 → (bloomFilterPolicy bitsPerKey k).NoFalseNegatives) ∧
    ∀ bitsPerKey, (newBloomFilterPolicy bitsPerKey).NoFalseNegatives := by
  refine ⟨?_, ?_, ?_⟩
  · intro policy hpolicy blocks hsorted
    exact keyMayMatch_of_build hpolicy hsorted
  · intro bitsPerKey k _ hk
    exact bloomFilterPolicy_noFalseNegatives bitsPerKey hk
  · intro bitsPerKey
    exact bloomFilterPolicy_noFalseNegatives bitsPerKey (min_le_left _ _)

/-- Two small data blocks share a filter, the third one starts 6 KB later. -/
theorem filters_exclude_no_key_of_three : ∃ b, FilterBlockBuilder.build (newBloomFilterPolicy 10)
        [(0, [[1, 2], []]), (100, [[1, 2, 3]]), (6244, [[7]])] = some b ∧
      b.filterOffsets = [0, 9, 9] ∧
      (FilterBlockReader.ofContents (b.finish (newBloomFilterPolicy 10))).keyMayMatch
        (newBloomFilterPolicy 10) 100 [1, 2, 3] = true ∧
      (FilterBlockReader.ofContents (b.finish (newBloomFilterPolicy 10))).keyMayMatch
        (newBloomFilterPolicy 10) 100 [7] = false := by
  obtain ⟨hblock, -, hbloom⟩ := filters_exclude_no_key
  obtain ⟨b, hbuild, hmatch⟩ := hblock (newBloomFilterPolicy 10) (hbloom 10)
    [(0, [[1, 2], []]), (100, [[1, 2, 3]]), (6244, [[7]])] (by decide)
  have hall : (FilterBlockBuilder.build (newBloomFilterPolicy 10)
      [(0, [[1, 2], []]), (100, [[1, 2, 3]]), (6244, [[7]])]).any (fun b ↦
        decide (b.filterOffsets = [0, 9, 9] ∧
          (b.generateLast (newBloomFilterPolicy 10)).result.length < 2 ^ 32 ∧
          (FilterBlockReader.ofContents (b.finish (newBloomFilterPolicy 10))).keyMayMatch
            (newBloomFilterPolicy 10) 100 [7] = false)) = true := by decide +kernel
  rw [hbuild, Option.any_some] at hall
  obtain ⟨hoffsets, hsize, hother⟩ := of_decide_eq_true hall
  exact ⟨b, hbuild, hoffsets, hmatch hsize (100, [[1, 2, 3]]) (by simp) [1, 2, 3] (by simp), hother⟩

end LevelDB.Util.Bloom
