import LevelDB.Db.Format
import LevelDB.Db.GroupCommit
import LevelDB.Util.Coding

/-!
# Write batches as bytes

`rep_` of `WriteBatch` and the functions of `db/write_batch.cpp` on it: a header with the sequence number and
the count, and after it the records as raw bytes.  The bytes represent the batches of `GroupCommit`
(`Built.encodes`), and what `Iterate` reads from them is what was put in.
-/

namespace LevelDB.Db.WriteBatch

open Util.Coding Format GroupCommit List

inductive Status
  | ok
  | corruption (msg : String)
  deriving DecidableEq

inductive Record
  | put (key value : List UInt8)
  | delete (key : List UInt8)
  deriving DecidableEq

structure Handler (σ : Type*) where
  put : σ → List UInt8 → List UInt8 → σ
  delete : σ → List UInt8 → σ

def clear : List UInt8 := List.replicate kHeader 0

/-- `WriteBatchInternal::Count`, an `int`. -/
def count (rep : List UInt8) : ℤ :=
  let n := decodeFixed ((rep.drop 8).take 4)
  if n < 2 ^ 31 then n else n - 2 ^ 32

def setCount (rep : List UInt8) (n : ℤ) : List UInt8 :=
  rep.take 8 ++ encodeFixed 4 (n % 2 ^ 32).toNat ++ rep.drop 12

def sequence (rep : List UInt8) : ℕ := decodeFixed (rep.take 8)

def setSequence (rep : List UInt8) (seq : ℕ) : List UInt8 := encodeFixed 8 seq ++ rep.drop 8

/-- The tag of a record, `static_cast<char>` of the type. -/
def tag (type : ValueType) : UInt8 := UInt8.ofNat type.code

def put (rep key value : List UInt8) : List UInt8 :=
  let rep := setCount rep (count rep + 1)
  let rep := rep ++ [tag .kTypeValue]
  let rep := putLengthPrefixedSlice rep key
  putLengthPrefixedSlice rep value

def delete (rep key : List UInt8) : List UInt8 :=
  let rep := setCount rep (count rep + 1)
  let rep := rep ++ [tag .kTypeDeletion]
  putLengthPrefixedSlice rep key

/-- `WriteBatchInternal::Append`; `none` is a failed assertion. -/
def append (dst src : List UInt8) : Option (List UInt8) :=
  let dst := setCount dst (count dst + count src)
  if kHeader ≤ src.length then some (dst ++ src.drop kHeader) else none

section Iterate

variable {σ : Type*} (handler : Handler σ)

/-- The loop of `Iterate` and the check of the count after it.  `none` means that the rounds are used up. -/
def iterateLoop (count : ℤ) : ℕ → σ → ℕ → List UInt8 → Option (σ × Status)
  | 0, _, _, _ => none
  | _ + 1, s, found, [] => some (s, if (found : ℤ) ≠ count then .corruption "WriteBatch has wrong count" else .ok)
  | rounds + 1, s, found, t :: input =>
    if t = tag .kTypeValue then
      match getLengthPrefixedSlice input with
      | none => some (s, .corruption "bad WriteBatch Put")
      | some (key, input) =>
        match getLengthPrefixedSlice input with
        | none => some (s, .corruption "bad WriteBatch Put")
        | some (value, input) => iterateLoop count rounds (handler.put s key value) (found + 1) input
    else if t = tag .kTypeDeletion then
      match getLengthPrefixedSlice input with
      | none => some (s, .corruption "bad WriteBatch Delete")
      | some (key, input) => iterateLoop count rounds (handler.delete s key) (found + 1) input
    else some (s, .corruption "unknown WriteBatch tag")

/-- `Iterate`.  Every round takes a byte at least, so that these rounds are enough. -/
def iterate (rep : List UInt8) (s : σ) : Option (σ × Status) :=
  if rep.length < kHeader then some (s, .corruption "malformed WriteBatch (too small)")
  else iterateLoop handler (count rep) (rep.length + 1) s 0 (rep.drop kHeader)

end Iterate

section InsertInto

/-! `MemTable::Add` is a parameter: the memtable, the sequence number, the type, the key and the value. -/

variable {M : Type*} (add : M → ℕ → ValueType → List UInt8 → List UInt8 → M)

def memTableInserter : Handler (ℕ × M) where
  put s key value := ((s.1 + 1) % 2 ^ 64, add s.2 s.1 .kTypeValue key value)
  delete s key := ((s.1 + 1) % 2 ^ 64, add s.2 s.1 .kTypeDeletion key [])

def insertInto (rep : List UInt8) (memtable : M) : Option (M × Status) :=
  (iterate (memTableInserter add) rep (sequence rep, memtable)).map fun (s, status) ↦ (s.2, status)

end InsertInto

/-- The loop ends for any bytes. -/
theorem iterateLoop_isSome {σ : Type*} (handler : Handler σ) (count : ℤ) (s : σ) (found : ℕ) {rounds : ℕ}
    {input : List UInt8} (h : input.length < rounds) :
    (iterateLoop handler count rounds s found input).isSome = true := by
  induction rounds generalizing s found input with
  | zero => exact absurd h (Nat.not_lt_zero _)
  | succ rounds ih =>
    cases input with
    | nil => rfl
    | cons t input =>
      have hinput : input.length < rounds := Nat.lt_of_succ_lt_succ h
      unfold iterateLoop
      split
      · split
        · rfl
        · rename_i hkey
          have hlt := length_of_getLengthPrefixedSlice hkey
          split
          · rfl
          · rename_i hvalue
            have hlt' := length_of_getLengthPrefixedSlice hvalue
            exact ih _ _ (hlt'.trans (hlt.trans hinput))
      · split
        · split
          · rfl
          · rename_i hkey
            have hlt := length_of_getLengthPrefixedSlice hkey
            exact ih _ _ (hlt.trans hinput)
        · rfl

theorem iterate_isSome {σ : Type*} (handler : Handler σ) (rep : List UInt8) (s : σ) :
    (iterate handler rep s).isSome = true := by
  unfold iterate
  split
  · rfl
  · apply iterateLoop_isSome
    rw [length_drop]
    omega

namespace Record

def type : Record → ValueType
  | put _ _ => .kTypeValue
  | delete _ => .kTypeDeletion

def key : Record → List UInt8
  | put key _ => key
  | delete key => key

def value : Record → List UInt8
  | put _ value => value
  | delete _ => []

def bytes : Record → List UInt8
  | put key value => tag .kTypeValue :: (putLengthPrefixedSlice [] key ++ putLengthPrefixedSlice [] value)
  | delete key => tag .kTypeDeletion :: putLengthPrefixedSlice [] key

/-- Both slices have sizes of 32 bits. -/
def Small (record : Record) : Prop := record.key.length < 2 ^ 32 ∧ record.value.length < 2 ^ 32

instance (record : Record) : Decidable record.Small :=
  inferInstanceAs (Decidable (record.key.length < 2 ^ 32 ∧ record.value.length < 2 ^ 32))

def handle {σ : Type*} (handler : Handler σ) (s : σ) : Record → σ
  | put key value => handler.put s key value
  | delete key => handler.delete s key

end Record

theorem length_le_flatMap_bytes (records : List Record) :
    records.length ≤ (records.flatMap Record.bytes).length := by
  induction records with
  | nil => exact le_rfl
  | cons record records ih =>
    have hone : 1 ≤ record.bytes.length := by
      cases record <;> exact Nat.succ_le_succ (Nat.zero_le _)
    rw [flatMap_cons, length_append, length_cons]
    omega

/-- What is put in is replayed, whatever the keys and values contain. -/
theorem iterateLoop_records {σ : Type*} (handler : Handler σ) (count : ℤ) (s : σ) (found : ℕ) {rounds : ℕ}
    {records : List Record} (hsmall : ∀ record ∈ records, record.Small) (hrounds : records.length < rounds) :
    iterateLoop handler count rounds s found (records.flatMap Record.bytes) =
      some (records.foldl (Record.handle handler) s,
        if ((found + records.length : ℕ) : ℤ) ≠ count then .corruption "WriteBatch has wrong count" else .ok) := by
  induction records generalizing s found rounds with
  | nil =>
    obtain ⟨rounds, rfl⟩ := Nat.exists_eq_succ_of_ne_zero (Nat.ne_of_gt hrounds)
    rfl
  | cons record records ih =>
    obtain ⟨hrecord, hrecords⟩ := forall_mem_cons.mp hsmall
    obtain ⟨rounds, rfl⟩ := Nat.exists_eq_succ_of_ne_zero (Nat.ne_of_gt (Nat.zero_lt_of_lt hrounds))
    have hlt : records.length < rounds := Nat.lt_of_succ_lt_succ hrounds
    have hfound : found + (record :: records).length = found + 1 + records.length := by
      rw [length_cons]
      omega
    rw [flatMap_cons, hfound]
    cases record with
    | put key value =>
      obtain ⟨hkey, hvalue⟩ : key.length < 2 ^ 32 ∧ value.length < 2 ^ 32 := hrecord
      rw [Record.bytes, cons_append, append_assoc, iterateLoop, if_pos rfl, getLengthPrefixedSlice_put hkey]
      dsimp only
      rw [getLengthPrefixedSlice_put hvalue]
      exact ih _ _ hrecords hlt
    | delete key =>
      have hkey : key.length < 2 ^ 32 := hrecord.1
      rw [Record.bytes, cons_append, iterateLoop, if_neg (by decide), if_pos rfl,
        getLengthPrefixedSlice_put hkey]
      exact ih _ _ hrecords hlt

def encode (batch : GroupCommit.WriteBatch Record) : List UInt8 :=
  encodeFixed 8 batch.sequence ++ (encodeFixed 4 batch.count ++ batch.records.flatMap Record.bytes)

theorem drop_encode (batch : GroupCommit.WriteBatch Record) :
    (encode batch).drop kHeader = batch.records.flatMap Record.bytes := by
  rw [encode, ← append_assoc]
  exact drop_left' (by simp [kHeader])

theorem setSequence_encode (batch : GroupCommit.WriteBatch Record) (seq : ℕ) :
    setSequence (encode batch) seq = encode (batch.setSequence seq) := by
  rw [setSequence, encode, drop_left' (length_encodeFixed 8 _)]
  rfl

theorem sequence_encode {batch : GroupCommit.WriteBatch Record} (h : batch.sequence < 2 ^ 64) :
    sequence (encode batch) = batch.sequence := by
  rw [sequence, encode, take_left' (length_encodeFixed 8 _)]
  exact decodeFixed_encodeFixed h

theorem setCount_encode (batch : GroupCommit.WriteBatch Record) (n : ℤ) : setCount (encode batch) n =
      encodeFixed 8 batch.sequence ++
        (encodeFixed 4 (n % 2 ^ 32).toNat ++ batch.records.flatMap Record.bytes) := by
  have hdrop : (encode batch).drop 12 = batch.records.flatMap Record.bytes := drop_encode batch
  rw [setCount, hdrop, encode, take_left' (length_encodeFixed 8 _), append_assoc]

theorem count_encode_mod (batch : GroupCommit.WriteBatch Record) :
    count (encode batch) % 2 ^ 32 = (batch.count : ℤ) % 2 ^ 32 := by
  have hdecode : decodeFixed (((encode batch).drop 8).take 4) = batch.count % 2 ^ 32 := by
    rw [encode, drop_left' (length_encodeFixed 8 _), take_left' (length_encodeFixed 4 _)]
    exact decodeFixed_encodeFixed_mod 4 batch.count
  simp only [count, hdecode]
  split <;> omega

theorem count_encode {batch : GroupCommit.WriteBatch Record} (h : batch.count < 2 ^ 31) :
    count (encode batch) = batch.count := by
  have hdecode : decodeFixed (((encode batch).drop 8).take 4) = batch.count := by
    rw [encode, drop_left' (length_encodeFixed 8 _), take_left' (length_encodeFixed 4 _)]
    exact decodeFixed_encodeFixed (by omega)
  simp only [count, hdecode]
  exact if_pos h

/-- A new count that is right up to a multiple of `2 ^ 32`. -/
theorem encodeFixed_count {n : ℤ} {k : ℕ} (h : n % 2 ^ 32 = (k : ℤ) % 2 ^ 32) :
    encodeFixed 4 (n % 2 ^ 32).toNat = encodeFixed 4 k := by
  have hk : (n % 2 ^ 32).toNat = k % 2 ^ 32 := by omega
  rw [hk]
  exact encodeFixed_mod 4 k

theorem encode_add (batch : GroupCommit.WriteBatch Record) (record : Record) :
    setCount (encode batch) (count (encode batch) + 1) ++ record.bytes = encode (batch.add record) := by
  have hcount := count_encode_mod batch
  have hadd : (count (encode batch) + 1) % 2 ^ 32 = ((batch.count + 1 : ℕ) : ℤ) % 2 ^ 32 := by omega
  rw [setCount_encode, encodeFixed_count hadd, encode]
  simp only [GroupCommit.WriteBatch.add, flatMap_append, flatMap_singleton, append_assoc]

theorem put_encode (batch : GroupCommit.WriteBatch Record) (key value : List UInt8) :
    put (encode batch) key value = encode (batch.add (.put key value)) := by
  rw [← encode_add, put, putLengthPrefixedSlice_eq, putLengthPrefixedSlice_eq _ key, append_assoc,
    append_assoc]
  rfl

theorem delete_encode (batch : GroupCommit.WriteBatch Record) (key : List UInt8) :
    delete (encode batch) key = encode (batch.add (.delete key)) := by
  rw [← encode_add, delete, putLengthPrefixedSlice_eq, append_assoc]
  rfl

theorem append_encode (dst src : GroupCommit.WriteBatch Record) :
    append (encode dst) (encode src) = some (encode (dst.append src)) := by
  have hlength : kHeader ≤ (encode src).length := by
    rw [encode, length_append, length_append, length_encodeFixed, length_encodeFixed, kHeader]
    omega
  have hdst := count_encode_mod dst
  have hsrc := count_encode_mod src
  have hsum : (count (encode dst) + count (encode src)) % 2 ^ 32 =
      ((dst.count + src.count : ℕ) : ℤ) % 2 ^ 32 := by omega
  rw [append, if_pos hlength, drop_encode, setCount_encode, encodeFixed_count hsum, encode]
  simp only [GroupCommit.WriteBatch.append, flatMap_append, append_assoc]

theorem clear_eq_encode : clear = encode GroupCommit.WriteBatch.cleared := by decide

inductive Built : List UInt8 → GroupCommit.WriteBatch Record → Prop where
  | clear : Built clear .cleared
  | put {rep : List UInt8} {batch : GroupCommit.WriteBatch Record} (h : Built rep batch) (key value : List UInt8) :
      Built (put rep key value) (batch.add (.put key value))
  | delete {rep : List UInt8} {batch : GroupCommit.WriteBatch Record} (h : Built rep batch) (key : List UInt8) :
      Built (delete rep key) (batch.add (.delete key))
  | append {dst src rep : List UInt8} {dstBatch srcBatch : GroupCommit.WriteBatch Record}
      (hdst : Built dst dstBatch) (hsrc : Built src srcBatch) (h : append dst src = some rep) :
      Built rep (dstBatch.append srcBatch)
  | setSequence {rep : List UInt8} {batch : GroupCommit.WriteBatch Record} (h : Built rep batch) (seq : ℕ) :
      Built (setSequence rep seq) (batch.setSequence seq)

theorem Built.encodes {rep : List UInt8} {batch : GroupCommit.WriteBatch Record} (h : Built rep batch) :
    rep = encode batch := by
  induction h with
  | clear => exact clear_eq_encode
  | put _ key value ih => rw [ih, put_encode]
  | delete _ key ih => rw [ih, delete_encode]
  | append _ _ h ihdst ihsrc =>
    rw [ihdst, ihsrc, append_encode] at h
    exact (Option.some.inj h).symm
  | setSequence _ seq ih => rw [ih, setSequence_encode]

theorem iterate_encode {σ : Type*} (handler : Handler σ) {batch : GroupCommit.WriteBatch Record}
    (hcount : batch.records.length < 2 ^ 31) (hsmall : ∀ record ∈ batch.records, record.Small) (s : σ) :
    iterate handler (encode batch) s = some (batch.records.foldl (Record.handle handler) s, .ok) := by
  have hlength : ¬(encode batch).length < kHeader := by
    rw [encode, length_append, length_append, length_encodeFixed, length_encodeFixed, kHeader]
    omega
  have hrounds : batch.records.length < (encode batch).length + 1 := by
    have hle := length_le_flatMap_bytes batch.records
    rw [← drop_encode, length_drop] at hle
    omega
  have hbatch : batch.count < 2 ^ 31 := by rwa [batch.count_eq]
  rw [iterate, if_neg hlength, drop_encode, iterateLoop_records handler _ s 0 hsmall hrounds, count_encode hbatch,
    batch.count_eq, Nat.zero_add, if_neg (not_not.mpr rfl)]

/-- The inserter gives consecutive sequence numbers to the records. -/
theorem foldl_memTableInserter {M : Type*} (add : M → ℕ → ValueType → List UInt8 → List UInt8 → M) (mem : M)
    (q i : ℕ) (records : List Record) :
    (records.foldl (Record.handle (memTableInserter add)) ((q + i) % 2 ^ 64, mem)).2 =
      (records.zipIdx i).foldl
        (fun mem p ↦ add mem ((q + p.2) % 2 ^ 64) p.1.type p.1.key p.1.value) mem := by
  induction records generalizing mem i with
  | nil => rfl
  | cons record records ih =>
    have hnext : ((q + i) % 2 ^ 64 + 1) % 2 ^ 64 = (q + (i + 1)) % 2 ^ 64 := by omega
    rw [foldl_cons, zipIdx_cons, foldl_cons, ← ih, ← hnext]
    cases record <;> rfl

/-- The codec of write batches: the count is the number of records, `Append` never fails its assertion, `Iterate`
replays the records in order, and `InsertInto` numbers them from the sequence of the batch on. -/
theorem built_replays {rep : List UInt8} {batch : GroupCommit.WriteBatch Record} (h : Built rep batch)
    (hcount : batch.records.length < 2 ^ 31) (hsmall : ∀ record ∈ batch.records, record.Small) :
    count rep = batch.records.length ∧
    (∀ dst dstBatch, Built dst dstBatch → (append dst rep).isSome = true) ∧
    (∀ (σ : Type) (handler : Handler σ) (s : σ),
      iterate handler rep s = some (batch.records.foldl (Record.handle handler) s, .ok)) ∧
    (∀ (M : Type) (add : M → ℕ → ValueType → List UInt8 → List UInt8 → M) (mem : M) (q : ℕ), q < 2 ^ 64 →
      insertInto add (setSequence rep q) mem = some (batch.records.zipIdx.foldl
          (fun mem p ↦ add mem ((q + p.2) % 2 ^ 64) p.1.type p.1.key p.1.value) mem, .ok)) := by
  obtain rfl := h.encodes
  refine ⟨?_, fun dst dstBatch hdst ↦ ?_, fun σ handler s ↦ iterate_encode handler hcount hsmall s, ?_⟩
  · rw [count_encode (by rwa [batch.count_eq]), batch.count_eq]
  · rw [hdst.encodes, append_encode]
    rfl
  · intro M add mem q hq
    have hsequence : sequence (encode (batch.setSequence q)) = q := sequence_encode hq
    have hiterate : iterate (memTableInserter add) (encode (batch.setSequence q)) (q, mem) = _ :=
      iterate_encode (memTableInserter add) hcount hsmall (q, mem)
    have hfold := foldl_memTableInserter add mem q 0 batch.records
    rw [Nat.add_zero, Nat.mod_eq_of_lt hq] at hfold
    rw [setSequence_encode, insertInto, hsequence, hiterate, ← hfold]
    rfl

/-- A put, to which a batch with a deletion and an empty value is appended. -/
theorem built_replays_appended :
    ∃ rep, append (put clear [107] [1, 2]) (put (delete clear [107]) [] []) = some rep ∧ count rep = 3 := by
  obtain ⟨rep, hrep⟩ : ∃ rep, append (put clear [107] [1, 2]) (put (delete clear [107]) [] []) = some rep :=
    ⟨_, rfl⟩
  have hbuilt := Built.append (.put .clear [107] [1, 2]) (.put (.delete .clear [107]) [] []) hrep
  exact ⟨rep, hrep, (built_replays hbuilt (by decide) (by decide)).1⟩

end LevelDB.Db.WriteBatch
