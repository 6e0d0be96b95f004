import LevelDB.Util.Coding

/-!
# Building blocks

`BlockBuilder` of `table/block_builder.cpp`.  Keys are byte strings, ordered by a rank.  An entry shares with
the one before it the common prefix of their keys, except at restart points: every `interval` entries the
whole key is written.  `Built` says what a builder holds after a list of entries.
-/

namespace LevelDB.Table.BlockBuilder

open Util.Coding List

/-- A key and its value. -/
abbrev Entry := List UInt8 × List UInt8

structure Builder where
  buffer : List UInt8 := []
  restarts : List ℕ := [0]
  counter : ℕ := 0
  finished : Bool := false
  lastKey : List UInt8 := []
  deriving DecidableEq

/-- The loop that counts the bytes shared with the last key. -/
def sharedPrefix : List UInt8 → List UInt8 → ℕ
  | a :: last, b :: key => if a = b then sharedPrefix last key + 1 else 0
  | _, _ => 0

section Operations

variable {τ : Type*} [LinearOrder τ] (rank : List UInt8 → τ) (interval : ℕ)

/-- The constructor, with its assertion on `block_restart_interval`. -/
def new : Option Builder := if 1 ≤ interval then some {} else none

/-- `Add`; `none` is a failed assertion. -/
def Builder.add (b : Builder) (e : Entry) : Option Builder :=
  if b.finished = false ∧ b.counter ≤ interval ∧ (b.buffer = [] ∨ rank b.lastKey < rank e.1) then
    let shared := if b.counter < interval then sharedPrefix b.lastKey e.1 else 0
    let restarts := if b.counter < interval then b.restarts else b.restarts ++ [b.buffer.length % 2 ^ 32]
    let counter := if b.counter < interval then b.counter else 0
    let buffer := putVarint32 b.buffer (shared % 2 ^ 32)
    let buffer := putVarint32 buffer ((e.1.length - shared) % 2 ^ 32)
    let buffer := putVarint32 buffer (e.2.length % 2 ^ 32)
    let buffer := buffer ++ e.1.drop shared ++ e.2
    let lastKey := b.lastKey.take shared ++ e.1.drop shared
    if lastKey = e.1 then
      some { b with buffer := buffer, restarts := restarts, counter := counter + 1, lastKey := lastKey }
    else none
  else none

def Builder.currentSizeEstimate (b : Builder) : ℕ := b.buffer.length + b.restarts.length * 4 + 4

/-- `Finish`: the contents of the block are in the buffer. -/
def Builder.finish (b : Builder) : Builder :=
  { b with
    buffer := b.restarts.foldl (fun buffer restart ↦ buffer ++ encodeFixed32 restart) b.buffer ++
      encodeFixed32 (b.restarts.length % 2 ^ 32)
    finished := true }

def build (entries : List Entry) : Option (List UInt8) := do
  let b ← new interval
  let b ← entries.foldlM (Builder.add rank interval) b
  return b.finish.buffer

end Operations

def entryBytes (shared : ℕ) (e : Entry) : List UInt8 :=
  encodeVarint32 shared ++ (encodeVarint32 (e.1.length - shared) ++ (encodeVarint32 e.2.length ++
    (e.1.drop shared ++ e.2)))

def sharedAt (interval i : ℕ) (last key : List UInt8) : ℕ := if i % interval = 0 then 0 else sharedPrefix last key

/-- The entries one by one, from the one with index `i` on. -/
def pieces (interval : ℕ) : ℕ → List UInt8 → List Entry → List (List UInt8)
  | _, _, [] => []
  | i, last, e :: rest => entryBytes (sharedAt interval i last e.1) e :: pieces interval (i + 1) e.1 rest

def lastKeyOf (last : List UInt8) (entries : List Entry) : List UInt8 := (entries.getLast?.map Prod.fst).getD last

def entriesBytes (interval : ℕ) (entries : List Entry) : List UInt8 := (pieces interval 0 [] entries).flatten

def offset (interval : ℕ) (entries : List Entry) (i : ℕ) : ℕ :=
  ((pieces interval 0 [] entries).take i).flatten.length

def numRestarts (interval : ℕ) (entries : List Entry) : ℕ := (entries.length - 1) / interval + 1

/-- The restart points: the offsets of every entry with an index divisible by the interval. -/
def restartPoints (interval : ℕ) (entries : List Entry) : List ℕ :=
  (List.range (numRestarts interval entries)).map fun j ↦ offset interval entries (j * interval)

def blockBytes (interval : ℕ) (entries : List Entry) : List UInt8 :=
  entriesBytes interval entries ++
    ((restartPoints interval entries).flatMap encodeFixed32 ++ encodeFixed32 (numRestarts interval entries))

section SharedPrefix

theorem sharedPrefix_le (last key : List UInt8) : sharedPrefix last key ≤ last.length ∧
    sharedPrefix last key ≤ key.length := by
  fun_induction sharedPrefix last key with
  | case1 a last key ih => exact ⟨Nat.succ_le_succ ih.1, Nat.succ_le_succ ih.2⟩
  | case2 => simp
  | case3 => simp

theorem take_sharedPrefix (last key : List UInt8) :
    last.take (sharedPrefix last key) = key.take (sharedPrefix last key) := by
  fun_induction sharedPrefix last key with
  | case1 a last key ih => rw [take_succ_cons, take_succ_cons, ih]
  | case2 => simp
  | case3 => simp

variable {interval i : ℕ} {last key : List UInt8}

theorem sharedAt_le : sharedAt interval i last key ≤ last.length ∧ sharedAt interval i last key ≤ key.length := by
  unfold sharedAt
  split
  · exact ⟨Nat.zero_le _, Nat.zero_le _⟩
  · exact sharedPrefix_le last key

theorem take_sharedAt : last.take (sharedAt interval i last key) = key.take (sharedAt interval i last key) := by
  unfold sharedAt
  split
  · rfl
  · exact take_sharedPrefix last key

end SharedPrefix

section Pieces

variable {interval i : ℕ} {last : List UInt8} {entries : List Entry} {e : Entry}

theorem length_pieces (i : ℕ) (last : List UInt8) (entries : List Entry) :
    (pieces interval i last entries).length = entries.length := by
  induction entries generalizing i last with
  | nil => rfl
  | cons e rest ih => rw [pieces, length_cons, length_cons, ih]

theorem lastKeyOf_cons (last : List UInt8) (e : Entry) (entries : List Entry) :
    lastKeyOf last (e :: entries) = lastKeyOf e.1 entries := by
  unfold lastKeyOf
  cases entries using List.reverseRecOn with
  | nil => rfl
  | append_singleton entries e' => rw [← cons_append, getLast?_concat, getLast?_concat]; rfl

@[simp]
theorem lastKeyOf_concat (last : List UInt8) (entries : List Entry) (e : Entry) :
    lastKeyOf last (entries ++ [e]) = e.1 := by
  rw [lastKeyOf, getLast?_concat]
  rfl

theorem pieces_concat (i : ℕ) (last : List UInt8) (entries : List Entry) (e : Entry) :
    pieces interval i last (entries ++ [e]) = pieces interval i last entries ++
      [entryBytes (sharedAt interval (i + entries.length) (lastKeyOf last entries) e.1) e] := by
  induction entries generalizing i last with
  | nil => rfl
  | cons e' rest ih =>
    rw [cons_append, pieces, pieces, ih, lastKeyOf_cons, length_cons, cons_append,
      Nat.add_right_comm, ← Nat.add_assoc]

theorem entriesBytes_concat (entries : List Entry) (e : Entry) :
    entriesBytes interval (entries ++ [e]) = entriesBytes interval entries ++
      entryBytes (sharedAt interval entries.length (lastKeyOf [] entries) e.1) e := by
  rw [entriesBytes, pieces_concat, flatten_append, Nat.zero_add, entriesBytes]
  simp

theorem offset_length (entries : List Entry) :
    offset interval entries entries.length = (entriesBytes interval entries).length := by
  rw [offset, entriesBytes, ← length_pieces 0 [] entries, take_length]

theorem offset_concat {j : ℕ} (h : j ≤ entries.length) :
    offset interval (entries ++ [e]) j = offset interval entries j := by
  have hlength := @length_pieces interval 0 [] entries
  rw [offset, offset, pieces_concat, take_append_of_le_length (by omega)]

theorem three_le_entryBytes (shared : ℕ) (e : Entry) : 3 ≤ (entryBytes shared e).length := by
  have h1 := length_pos_iff.mpr (encodeVarint32_ne_nil shared)
  have h2 := length_pos_iff.mpr (encodeVarint32_ne_nil (e.1.length - shared))
  have h3 := length_pos_iff.mpr (encodeVarint32_ne_nil e.2.length)
  simp only [entryBytes, length_append]
  omega

theorem length_le_entriesBytes (entries : List Entry) :
    3 * entries.length ≤ (entriesBytes interval entries).length := by
  induction entries using List.reverseRecOn with
  | nil => exact Nat.zero_le _
  | append_singleton entries e ih =>
    have hthree := three_le_entryBytes (sharedAt interval entries.length (lastKeyOf [] entries) e.1) e
    rw [entriesBytes_concat, length_append, length_append, length_singleton]
    omega

/-- A key is no longer than the bytes up to its end. -/
theorem length_lastKeyOf_le (entries : List Entry) :
    (lastKeyOf [] entries).length ≤ (entriesBytes interval entries).length := by
  induction entries using List.reverseRecOn with
  | nil => exact Nat.zero_le _
  | append_singleton entries e ih =>
    have hshared := @sharedAt_le interval entries.length (lastKeyOf [] entries) e.1
    rw [lastKeyOf_concat, entriesBytes_concat, length_append]
    simp only [entryBytes, length_append, length_drop]
    omega

end Pieces

section Built

variable {τ : Type*} [LinearOrder τ] {rank : List UInt8 → τ} {interval : ℕ} {entries : List Entry} {e : Entry}

structure Built (interval : ℕ) (entries : List Entry) (b : Builder) : Prop where
  buffer : b.buffer = entriesBytes interval entries
  restarts : b.restarts = restartPoints interval entries
  counter : b.counter = if entries = [] then 0 else (entries.length - 1) % interval + 1
  finished : b.finished = false
  lastKey : b.lastKey = lastKeyOf [] entries

theorem built_new : Built interval [] {} := by
  refine ⟨rfl, ?_, rfl, rfl, rfl⟩
  simp [restartPoints, numRestarts, offset, pieces]

/-- The counter reaches the interval where the next index is divisible by it; otherwise it is the rest of
the next index. -/
theorem Built.counter_cases (hinterval : 1 ≤ interval) {b : Builder} (h : Built interval entries b) :
    (b.counter < interval ∧ b.counter = entries.length % interval ∧
        (entries = [] ∨ entries.length % interval ≠ 0)) ∨
      (b.counter = interval ∧ entries ≠ [] ∧ entries.length % interval = 0) := by
  rw [h.counter]
  by_cases hnil : entries = []
  · subst hnil
    exact .inl ⟨by simp; omega, by simp, .inl rfl⟩
  · have hpos : 0 < entries.length := length_pos_iff.mpr hnil
    have hmod := Nat.mod_lt (entries.length - 1) hinterval
    have hnext : entries.length % interval = ((entries.length - 1) % interval + 1) % interval := by
      rw [Nat.mod_add_mod, Nat.sub_add_cancel hpos]
    rw [if_neg hnil]
    rcases Nat.lt_or_eq_of_le (Nat.succ_le_of_lt hmod) with hlt | heq
    · rw [Nat.mod_eq_of_lt hlt] at hnext
      exact .inl ⟨hlt, hnext.symm, .inr (by omega)⟩
    · have heq : (entries.length - 1) % interval + 1 = interval := heq
      refine .inr ⟨heq, hnil, ?_⟩
      rw [hnext, heq, Nat.mod_self]

/-- The entry after these is not a restart point. -/
theorem restartPoints_concat_of_lt (hinterval : 1 ≤ interval)
    (h : entries = [] ∨ entries.length % interval ≠ 0) :
    restartPoints interval (entries ++ [e]) = restartPoints interval entries := by
  have hnum : numRestarts interval (entries ++ [e]) = numRestarts interval entries := by
    unfold numRestarts
    rw [length_append, length_singleton, Nat.add_sub_cancel]
    rcases h with rfl | hne
    · rfl
    · have hpos : 0 < entries.length := by
        by_contra hzero
        simp [Nat.le_zero.mp (Nat.not_lt.mp hzero)] at hne
      have hdiv := @Nat.succ_div (entries.length - 1) interval
      rw [Nat.sub_add_cancel hpos, if_neg fun hdvd ↦ hne (Nat.mod_eq_zero_of_dvd hdvd)] at hdiv
      rw [hdiv, Nat.add_zero]
  unfold restartPoints
  rw [hnum]
  apply map_congr_left
  intro j hj
  apply offset_concat
  have hle : j ≤ (entries.length - 1) / interval := Nat.le_of_lt_succ (mem_range.mp hj)
  have hmul := (Nat.le_div_iff_mul_le hinterval).mp hle
  omega

theorem restartPoints_concat_of_dvd (hnil : entries ≠ []) (h : entries.length % interval = 0) :
    restartPoints interval (entries ++ [e]) =
      restartPoints interval entries ++ [(entriesBytes interval entries).length] := by
  have hpos : 0 < entries.length := length_pos_iff.mpr hnil
  have hdiv := @Nat.succ_div (entries.length - 1) interval
  rw [Nat.sub_add_cancel hpos, if_pos (Nat.dvd_of_mod_eq_zero h)] at hdiv
  have hnum : numRestarts interval (entries ++ [e]) = numRestarts interval entries + 1 := by
    rw [numRestarts, numRestarts, length_append, length_singleton, Nat.add_sub_cancel, hdiv]
  have hlast : numRestarts interval entries * interval = entries.length := by
    rw [numRestarts, ← hdiv, Nat.div_mul_cancel (Nat.dvd_of_mod_eq_zero h)]
  unfold restartPoints
  rw [hnum, range_succ, map_append, map_singleton, hlast, offset_concat le_rfl, offset_length]
  congr 1
  apply map_congr_left
  intro j hj
  apply offset_concat
  calc j * interval
      ≤ numRestarts interval entries * interval := Nat.mul_le_mul_right _ (mem_range.mp hj).le
    _ = entries.length := hlast

/-- The bytes that `Add` writes when the sizes fit 32 bits. -/
theorem put_entry {shared : ℕ} {buffer : List UInt8} (hshared : shared ≤ buffer.length)
    (hsize : (buffer ++ entryBytes shared e).length < 2 ^ 32) :
    putVarint32 (putVarint32 (putVarint32 buffer (shared % 2 ^ 32)) ((e.1.length - shared) % 2 ^ 32))
        (e.2.length % 2 ^ 32) ++ e.1.drop shared ++ e.2 = buffer ++ entryBytes shared e := by
  simp only [entryBytes, length_append, length_drop] at hsize
  rw [Nat.mod_eq_of_lt (by omega), Nat.mod_eq_of_lt (by omega), Nat.mod_eq_of_lt (by omega)]
  simp only [putVarint32, entryBytes, append_assoc]

/-- `Add` of a larger key, while the sizes fit 32 bits. -/
theorem Built.add (hinterval : 1 ≤ interval) {b : Builder} (h : Built interval entries b)
    (hsorted : (entries ++ [e]).Pairwise fun a b ↦ rank a.1 < rank b.1)
    (hsize : (entriesBytes interval (entries ++ [e])).length < 2 ^ 32) :
    ∃ b', b.add rank interval e = some b' ∧ Built interval (entries ++ [e]) b' := by
  have hcases := h.counter_cases hinterval
  have hguard : b.finished = false ∧ b.counter ≤ interval ∧
      (b.buffer = [] ∨ rank b.lastKey < rank e.1) := by
    refine ⟨h.finished, by omega, ?_⟩
    cases entries using List.reverseRecOn with
    | nil => exact .inl h.buffer
    | append_singleton rest e' =>
      right
      rw [h.lastKey, lastKeyOf_concat]
      exact (pairwise_append.mp hsorted).2.2 e' (by simp) e (by simp)
  have hbytes := @entriesBytes_concat interval entries e
  obtain ⟨hshared_last, hshared_key⟩ := @sharedAt_le interval entries.length (lastKeyOf [] entries) e.1
  have htake := @take_sharedAt interval entries.length (lastKeyOf [] entries) e.1
  have hlast := @length_lastKeyOf_le interval entries
  have hshared : (if b.counter < interval then sharedPrefix b.lastKey e.1 else 0) =
      sharedAt interval entries.length (lastKeyOf [] entries) e.1 := by
    rw [sharedAt, h.lastKey]
    rcases hcases with ⟨hlt, -, rfl | hmod⟩ | ⟨heq, -, hmod⟩
    · rw [if_pos hlt, length_nil, Nat.zero_mod, if_pos rfl]
      rfl
    · rw [if_pos hlt, if_neg hmod]
    · rw [if_neg heq.not_lt, if_pos hmod]
  have hrestarts : (if b.counter < interval then b.restarts
      else b.restarts ++ [b.buffer.length % 2 ^ 32]) = restartPoints interval (entries ++ [e]) := by
    rcases hcases with ⟨hlt, -, hrest⟩ | ⟨heq, hnil, hmod⟩
    · rw [if_pos hlt, h.restarts, restartPoints_concat_of_lt hinterval hrest]
    · rw [hbytes, length_append] at hsize
      rw [if_neg heq.not_lt, h.restarts, h.buffer, Nat.mod_eq_of_lt (by omega),
        restartPoints_concat_of_dvd hnil hmod]
  have hcounter : (if b.counter < interval then b.counter else 0) = entries.length % interval := by
    rcases hcases with ⟨hlt, hcounter, -⟩ | ⟨heq, -, hmod⟩
    · rw [if_pos hlt, hcounter]
    · rw [if_neg heq.not_lt, hmod]
  have hkey : b.lastKey.take (sharedAt interval entries.length (lastKeyOf [] entries) e.1) ++
      e.1.drop (sharedAt interval entries.length (lastKeyOf [] entries) e.1) = e.1 := by
    rw [h.lastKey, htake, take_append_drop]
  refine ⟨⟨entriesBytes interval (entries ++ [e]), restartPoints interval (entries ++ [e]),
    entries.length % interval + 1, b.finished, e.1⟩, ?_, rfl, rfl, ?_, h.finished, ?_⟩
  · rw [hbytes] at hsize
    rw [Builder.add, if_pos hguard]
    simp only [hshared, hrestarts, hcounter, hkey, if_true]
    rw [h.buffer, put_entry (hshared_last.trans hlast) hsize, hbytes]
  · simp
  · rw [lastKeyOf_concat]

/-- The contents of the block of a sorted list are its bytes, when they fit 32 bits. -/
theorem build_eq (hinterval : 1 ≤ interval) (hsorted : entries.Pairwise fun a b ↦ rank a.1 < rank b.1)
    (hsize : (entriesBytes interval entries).length < 2 ^ 32) :
    build rank interval entries = some (blockBytes interval entries) := by
  have hlt : numRestarts interval entries < 2 ^ 32 := by
    have hdiv := Nat.div_le_self (entries.length - 1) interval
    have hlength := @length_le_entriesBytes interval entries
    unfold numRestarts
    omega
  have hbuilt : ∃ b, entries.foldlM (Builder.add rank interval) {} = some b ∧ Built interval entries b := by
    clear hlt
    induction entries using List.reverseRecOn with
    | nil => exact ⟨{}, rfl, built_new⟩
    | append_singleton entries e ih =>
      have hle := hsize
      rw [entriesBytes_concat, length_append] at hle
      obtain ⟨b, hfold, hb⟩ := ih (pairwise_append.mp hsorted).1 (by omega)
      obtain ⟨b', hadd, hb'⟩ := hb.add hinterval hsorted hsize
      refine ⟨b', ?_, hb'⟩
      rw [foldlM_append, hfold]
      simp [hadd]
  obtain ⟨b, hfold, hb⟩ := hbuilt
  have hfinish : ∀ (l : List ℕ) (buffer : List UInt8),
      l.foldl (fun buffer restart ↦ buffer ++ encodeFixed32 restart) buffer =
        buffer ++ l.flatMap encodeFixed32 := by
    intro l
    induction l with
    | nil => simp
    | cons restart l ih => simp [ih]
  have hnum : (restartPoints interval entries).length = numRestarts interval entries := by
    rw [restartPoints, length_map, length_range]
  simp only [build, new, hinterval, if_true, Option.bind_eq_bind, Option.bind_some, hfold, Builder.finish,
    hfinish, hb.buffer, hb.restarts, hnum, Nat.mod_eq_of_lt hlt]
  simp [blockBytes]

end Built

end LevelDB.Table.BlockBuilder
