import LevelDB.Table.Block
import LevelDB.Table.BlockBuilder

/-!
# Block iterators as cursors

`Layout` says where the entries of a list are in the bytes of a block and which of them are restart points; a
built block has one.  With it `ParseNextKey` goes from entry to entry, so that the iterator moves as a cursor
over the list.
-/

namespace LevelDB.Table.BlockCursor

open Library Util.Coding Block BlockBuilder List

/-- The three varints at the start of an entry, and the bytes after them. -/
def readLengths (input : List UInt8) : Option (ℕ × ℕ × ℕ × List UInt8) := do
  let (shared, input) ← getVarint32 input
  let (nonShared, input) ← getVarint32 input
  let (valueLength, input) ← getVarint32 input
  return (shared, nonShared, valueLength, input)

theorem decodeEntry_eq {input : List UInt8} (h : 3 ≤ input.length) :
    decodeEntry input = (readLengths input).filter fun h ↦
      !decide (h.2.2.2.length % 2 ^ 32 < (h.2.1 + h.2.2.1) % 2 ^ 32) := by
  match input, h with
  | b₀ :: b₁ :: b₂ :: rest, _ =>
    have hone : ∀ (b : UInt8) (rest : List UInt8), b.toNat < 128 →
        getVarint32 (b :: rest) = some (b.toNat, rest) := by
      intro b rest hb
      rw [getVarint32, if_pos ((and_128_eq_zero_iff b).mpr hb)]
    rw [decodeEntry]
    split
    · rename_i hfast
      have h₀₁ : b₀.toNat ||| b₁.toNat ≤ b₀.toNat ||| b₁.toNat ||| b₂.toNat := Nat.left_le_or
      have h₂ : b₂.toNat ≤ b₀.toNat ||| b₁.toNat ||| b₂.toNat := Nat.right_le_or
      have h₀ : b₀.toNat ≤ b₀.toNat ||| b₁.toNat := Nat.left_le_or
      have h₁ : b₁.toNat ≤ b₀.toNat ||| b₁.toNat := Nat.right_le_or
      simp [readLengths, hone b₀ _ (by omega), hone b₁ _ (by omega), hone b₂ _ (by omega)]
    · rfl

theorem decodeEntry_entryBytes {shared : ℕ} {e : Entry} {rest : List UInt8} (hshared : shared ≤ e.1.length)
    (hkey : e.1.length < 2 ^ 32) (hsize : (e.1.drop shared ++ (e.2 ++ rest)).length < 2 ^ 32) :
    decodeEntry (entryBytes shared e ++ rest) =
      some (shared, e.1.length - shared, e.2.length, e.1.drop shared ++ (e.2 ++ rest)) := by
  have hthree := three_le_entryBytes shared e
  have hbytes : entryBytes shared e ++ rest =
      encodeVarint32 shared ++ (encodeVarint32 (e.1.length - shared) ++ (encodeVarint32 e.2.length ++
        (e.1.drop shared ++ (e.2 ++ rest)))) := by
    simp [entryBytes]
  have hlength : (e.1.drop shared ++ (e.2 ++ rest)).length =
      e.1.length - shared + (e.2.length + rest.length) := by simp
  rw [decodeEntry_eq (by rw [length_append]; omega), readLengths, hbytes,
    getVarint32_encodeVarint32 (by omega)]
  simp only [Option.bind_eq_bind, Option.bind_some]
  rw [getVarint32_encodeVarint32 (by omega)]
  simp only [Option.bind_some]
  rw [getVarint32_encodeVarint32 (by omega)]
  simp only [Option.bind_some, Option.pure_def]
  apply Option.filter_some_pos
  dsimp only
  rw [hlength, Nat.mod_eq_of_lt (by omega), Nat.mod_eq_of_lt (by omega)]
  simp only [Bool.not_eq_true', decide_eq_false_iff_not, Nat.not_lt]
  omega

def prevKey (entries : List Entry) (i : ℕ) : List UInt8 := lastKeyOf [] (entries.take i)

structure Stored (it : Iter) (e : Entry) (start stop : ℕ) (shared : ℕ) : Prop where
  shared_le : shared ≤ e.1.length
  decode : ∃ p, decodeEntry (it.bytesFrom start) =
      some (shared, e.1.length - shared, e.2.length, it.bytesFrom p) ∧
    p + (e.1.length - shared) + e.2.length = stop ∧
    (it.data.drop p).take (e.1.length - shared) = e.1.drop shared ∧
    (it.data.drop (p + (e.1.length - shared))).take e.2.length = e.2

structure Layout (it : Iter) (entries : List Entry) (offset restartEntry : ℕ → ℕ) : Prop where
  numRestarts_pos : 0 < it.numRestarts
  restarts_lt : it.restarts < 2 ^ 32
  restarts_le : it.restarts ≤ it.data.length
  numRestarts_le : it.numRestarts ≤ it.data.length
  offset_length : offset entries.length = it.restarts
  offset_lt : ∀ i < entries.length, offset i < offset (i + 1)
  stored : ∀ i (hi : i < entries.length), ∃ shared,
    Stored it entries[i] (offset i) (offset (i + 1)) shared ∧
      shared ≤ (prevKey entries i).length ∧ (prevKey entries i).take shared = entries[i].1.take shared ∧
      ∀ j < it.numRestarts, restartEntry j = i → shared = 0
  restart : ∀ j < it.numRestarts, decodeFixed32 it.data (it.restarts + j * 4) = offset (restartEntry j)
  restartEntry_zero : restartEntry 0 = 0
  restartEntry_lt : ∀ j, j + 1 < it.numRestarts → restartEntry j < restartEntry (j + 1)
  restartEntry_le : ∀ j < it.numRestarts, restartEntry j ≤ entries.length - 1

section Layout

variable {it : Iter} {entries : List Entry} {offset restartEntry : ℕ → ℕ} {s : State} {i j : ℕ}

def Fits (it : Iter) (entries : List Entry) (restartEntry : ℕ → ℕ) (i : ℕ) (key : List UInt8) : Prop :=
  key = prevKey entries i ∨ ∃ j < it.numRestarts, restartEntry j = i

structure At (it : Iter) (entries : List Entry) (offset : ℕ → ℕ) (s : State) (i : ℕ) : Prop where
  lt : i < entries.length
  current : s.current = offset i
  key : s.key = entries[i].1
  value : ∃ v, s.value = some v ∧ v.1 + v.2 = offset (i + 1) ∧ (it.data.drop v.1).take v.2 = entries[i].2

section

variable (h : Layout it entries offset restartEntry)

include h

theorem Layout.offset_mono {i j : ℕ} (hij : i ≤ j) (hj : j ≤ entries.length) : offset i ≤ offset j := by
  induction hij with
  | refl => exact le_rfl
  | step _ ih => exact (ih (by omega)).trans (h.offset_lt _ (by omega)).le

theorem Layout.offset_strictMono {i j : ℕ} (hij : i < j) (hj : j ≤ entries.length) : offset i < offset j :=
  (h.offset_lt i (by omega)).trans_le (h.offset_mono hij hj)

theorem Layout.offset_lt_iff {i j : ℕ} (hi : i ≤ entries.length) (hj : j ≤ entries.length) :
    offset i < offset j ↔ i < j := by
  refine ⟨fun hlt ↦ ?_, fun hij ↦ h.offset_strictMono hij hj⟩
  by_contra hle
  exact absurd (h.offset_mono (Nat.not_lt.mp hle) hi) (Nat.not_le.mpr hlt)

theorem Layout.offset_le (hi : i ≤ entries.length) :
    offset i ≤ it.restarts := h.offset_length ▸ h.offset_mono hi le_rfl

theorem Layout.length_le : entries.length ≤ it.restarts := by
  have hle : ∀ i ≤ entries.length, i ≤ offset i := by
    intro i hi
    induction i with
    | zero => exact Nat.zero_le _
    | succ i ih => exact (Nat.succ_le_succ (ih (by omega))).trans (h.offset_lt i (by omega))
  exact h.offset_length ▸ hle entries.length le_rfl

end

theorem prevKey_succ (hi : i < entries.length) : prevKey entries (i + 1) = entries[i].1 := by
  rw [prevKey, take_succ_eq_append_getElem hi, lastKeyOf_concat]

section

variable (h : Layout it entries offset restartEntry)
include h

theorem At.get_eq (hat : At it entries offset s i) : it.get s = entries[i]? := by
  obtain ⟨v, hvalue, -, hbytes⟩ := hat.value
  have hlt := h.offset_strictMono hat.lt le_rfl
  rw [h.offset_length] at hlt
  rw [Iter.get, Iter.valid, hat.current, decide_eq_true hlt, if_pos rfl, hvalue, Option.map_some, hat.key,
    hbytes, getElem?_eq_getElem hat.lt]

theorem At.nextEntryOffset (hat : At it entries offset s i) :
    Iter.nextEntryOffset s = some (offset (i + 1)) := by
  obtain ⟨v, hvalue, hend, -⟩ := hat.value
  have hle : offset (i + 1) ≤ it.restarts := h.offset_le hat.lt
  have hlt := h.restarts_lt
  rw [Iter.nextEntryOffset, hvalue, Option.map_some, hend, Nat.mod_eq_of_lt (by omega)]

omit h in
theorem At.fits (hat : At it entries offset s i) : Fits it entries restartEntry (i + 1) s.key := by
  left
  rw [prevKey_succ hat.lt, hat.key]

theorem parseNextKey_entry (hi : i < entries.length) (hnext : Iter.nextEntryOffset s = some (offset i))
    (hfits : Fits it entries restartEntry i s.key) :
    ∃ s', it.parseNextKey s = some (true, s') ∧ At it entries offset s' i ∧ s'.status = s.status ∧
      s'.restartIndex = it.advanceRestart (offset i) it.numRestarts s.restartIndex := by
  obtain ⟨shared, ⟨hshared, p, hdecode, hstop, hkey, hvalue⟩, hprev, htake, hrestart⟩ := h.stored i hi
  have hlt : ¬it.restarts ≤ offset i := by
    have := h.offset_strictMono hi le_rfl
    rw [h.offset_length] at this
    omega
  have hfit : shared ≤ s.key.length ∧ s.key.take shared = entries[i].1.take shared := by
    rcases hfits with heq | ⟨j, hj, heq⟩
    · rw [heq]
      exact ⟨hprev, htake⟩
    · simp [hrestart j hj heq]
  have hle : offset (i + 1) ≤ it.restarts := h.offset_le hi
  have hp : it.restarts - (it.bytesFrom p).length = p := by
    have hrestarts := h.restarts_le
    simp only [Iter.bytesFrom, length_drop, length_take]
    omega
  have hread : p + (entries[i].1.length - shared) ≤ it.data.length := by
    have hrestarts := h.restarts_le
    omega
  refine ⟨⟨offset i, it.advanceRestart (offset i) it.numRestarts s.restartIndex, entries[i].1,
    some (p + (entries[i].1.length - shared), entries[i].2.length), s.status⟩, ?_, ?_, rfl, rfl⟩
  · simp only [Iter.parseNextKey, hnext, Option.bind_eq_bind, Option.bind_some, if_neg hlt, hdecode,
      if_neg (Nat.not_lt.mpr hfit.1), hp, if_pos hread, hfit.2, hkey, take_append_drop]
    rfl
  · exact ⟨hi, rfl, rfl, _, rfl, hstop, hvalue⟩

theorem parseNextKey_end (hnext : Iter.nextEntryOffset s = some (offset entries.length)) :
    it.parseNextKey s = some (false, { s with current := it.restarts, restartIndex := it.numRestarts }) := by
  simp only [Iter.parseNextKey, hnext, h.offset_length, Option.bind_eq_bind, Option.bind_some, le_refl, if_true]
  rfl

structure Bracket (it : Iter) (restartEntry : ℕ → ℕ) (index i : ℕ) : Prop where
  lt : index < it.numRestarts
  le : restartEntry index ≤ i
  le_next : index + 1 < it.numRestarts → i ≤ restartEntry (index + 1)

theorem Layout.restartEntry_le_length (hj : j < it.numRestarts) : restartEntry j ≤ entries.length :=
  (h.restartEntry_le j hj).trans (Nat.sub_le _ _)

theorem advanceRestart_bracket {rounds index i : ℕ} (hi : i ≤ entries.length)
    (hindex : index < it.numRestarts) (hle : restartEntry index ≤ i)
    (hrounds : it.numRestarts ≤ index + rounds) :
    Bracket it restartEntry (it.advanceRestart (offset i) rounds index) i := by
  induction rounds generalizing index with
  | zero => omega
  | succ rounds ih =>
    rw [Iter.advanceRestart]
    by_cases hnext : index + 1 < it.numRestarts
    · simp only [h.restart (index + 1) hnext, h.offset_lt_iff (h.restartEntry_le_length hnext) hi]
      by_cases hlt : restartEntry (index + 1) < i
      · rw [if_pos ⟨hnext, hlt⟩]
        exact ih hnext hlt.le (by omega)
      · rw [if_neg fun hand ↦ hlt hand.2]
        exact ⟨hindex, hle, fun _ ↦ Nat.not_lt.mp hlt⟩
    · rw [if_neg fun hand ↦ hnext hand.1]
      exact ⟨hindex, hle, fun hlt ↦ absurd hlt hnext⟩

omit h in
theorem advanceRestart_end {current rounds : ℕ} :
    it.advanceRestart current rounds it.numRestarts = it.numRestarts := by
  cases rounds with
  | zero => rfl
  | succ rounds =>
    rw [Iter.advanceRestart, if_neg]
    omega

theorem getRestartPoint_eq (hj : j < it.numRestarts) :
    it.getRestartPoint j = some (offset (restartEntry j)) := by
  rw [Iter.getRestartPoint, if_pos hj, h.restart j hj]

theorem seekToRestartPoint_eq (hj : j < it.numRestarts) (s : State) : it.seekToRestartPoint j s =
      some { s with key := [], restartIndex := j, value := some (offset (restartEntry j), 0) } := by
  rw [Iter.seekToRestartPoint, getRestartPoint_eq h hj]
  rfl

theorem nextEntryOffset_restart (hj : j < it.numRestarts) (s : State) : Iter.nextEntryOffset
      { s with key := [], restartIndex := j, value := some (offset (restartEntry j), 0) } =
        some (offset (restartEntry j)) := by
  have hle := h.offset_le (h.restartEntry_le_length hj)
  have hlt := h.restarts_lt
  rw [Iter.nextEntryOffset, Option.map_some, Nat.add_zero, Nat.mod_eq_of_lt (by omega)]

structure Placed (it : Iter) (entries : List Entry) (offset restartEntry : ℕ → ℕ) (s : State) (i : ℕ) : Prop where
  at_entry : At it entries offset s i
  bracket : Bracket it restartEntry s.restartIndex i
  status : s.status = .ok

structure Out (it : Iter) (entries : List Entry) (offset : ℕ → ℕ) (s : State) (j : ℕ) : Prop where
  le : j ≤ entries.length
  current : s.current = it.restarts
  restartIndex : s.restartIndex = it.numRestarts
  next : Iter.nextEntryOffset s = some (offset j)
  key : s.key = prevKey entries j
  status : s.status = .ok

/-- Parsing on from an entry up to the one before the limit. -/
theorem parseWhile_placed {i m rounds : ℕ} (him : i < m) (hm : m ≤ entries.length)
    (hnext : Iter.nextEntryOffset s = some (offset i)) (hfits : Fits it entries restartEntry i s.key)
    (hstatus : s.status = .ok) (hindex : s.restartIndex < it.numRestarts)
    (hle : restartEntry s.restartIndex ≤ i) (hrounds : m ≤ i + rounds) :
    ∃ s', it.parseWhile (offset m) rounds s = some s' ∧
      Placed it entries offset restartEntry s' (m - 1) := by
  induction rounds generalizing s i with
  | zero => omega
  | succ rounds ih =>
    obtain ⟨s', hparse, hat, hstatus', hrestart⟩ := parseNextKey_entry h (him.trans_le hm) hnext hfits
    have hbracket : Bracket it restartEntry s'.restartIndex i := by
      rw [hrestart]
      exact advanceRestart_bracket h (by omega) hindex hle (by omega)
    have hnext' := hat.nextEntryOffset h
    simp only [Iter.parseWhile, hparse, hnext', Option.bind_eq_bind, Option.bind_some, if_true]
    by_cases hlast : i + 1 = m
    · subst hlast
      rw [if_neg (lt_irrefl _)]
      exact ⟨s', rfl, hat, hbracket, hstatus'.trans hstatus⟩
    · rw [if_pos (h.offset_strictMono (by omega) hm)]
      exact ih (by omega) hnext' hat.fits (hstatus'.trans hstatus) hbracket.lt
        (hbracket.le.trans (Nat.le_succ i)) (by omega)

end

section

variable (h : Layout it entries offset restartEntry)

include h

theorem seekToFirst_spec (hstatus : s.status = .ok) :
    ∃ s', it.seekToFirst s = some s' ∧ (entries = [] ∧ Out it entries offset s' 0 ∨
      entries ≠ [] ∧ Placed it entries offset restartEntry s' 0) := by
  have hpos := h.numRestarts_pos
  have hnext := nextEntryOffset_restart h hpos s
  have hzero := h.restartEntry_zero
  simp only [Iter.seekToFirst, seekToRestartPoint_eq h hpos, Option.bind_eq_bind, Option.bind_some]
  rw [hzero] at hnext ⊢
  by_cases hnil : entries = []
  · subst hnil
    rw [parseNextKey_end h hnext]
    exact ⟨_, rfl, .inl ⟨rfl, le_rfl, rfl, rfl, hnext, rfl, hstatus⟩⟩
  · obtain ⟨s', hparse, hat, hstatus', hrestart⟩ := parseNextKey_entry h (length_pos_iff.mpr hnil) hnext
      (.inr ⟨0, hpos, hzero⟩)
    rw [hparse]
    refine ⟨s', rfl, .inr ⟨hnil, hat, ?_, hstatus'.trans hstatus⟩⟩
    rw [hrestart]
    exact advanceRestart_bracket h (Nat.zero_le _) hpos hzero.le (by simp)

theorem seekToLast_spec (hstatus : s.status = .ok) :
    ∃ s', it.seekToLast s = some s' ∧ (entries = [] ∧ Out it entries offset s' 0 ∨
      entries ≠ [] ∧ Placed it entries offset restartEntry s' (entries.length - 1)) := by
  have hpos := h.numRestarts_pos
  have hlast : it.numRestarts - 1 < it.numRestarts := by omega
  have hnext := nextEntryOffset_restart h hlast s
  have hle := h.restartEntry_le _ hlast
  simp only [Iter.seekToLast, seekToRestartPoint_eq h hlast, Option.bind_eq_bind, Option.bind_some]
  by_cases hnil : entries = []
  · subst hnil
    have hzero : restartEntry (it.numRestarts - 1) = 0 := Nat.le_zero.mp hle
    rw [hzero] at hnext ⊢
    rw [Iter.rounds, Iter.parseWhile, parseNextKey_end h hnext]
    exact ⟨_, rfl, .inl ⟨rfl, le_rfl, rfl, rfl, hnext, rfl, hstatus⟩⟩
  · have hlength := length_pos_iff.mpr hnil
    have hrounds : entries.length ≤ restartEntry (it.numRestarts - 1) + it.rounds := by
      have h₁ := h.length_le
      have h₂ := h.restarts_le
      unfold Iter.rounds
      omega
    obtain ⟨s', hparse, hplaced⟩ := parseWhile_placed h (by omega) le_rfl hnext (.inr ⟨_, hlast, rfl⟩) hstatus
      hlast le_rfl hrounds
    rw [h.offset_length] at hparse
    exact ⟨s', hparse, .inr ⟨hnil, hplaced⟩⟩

theorem At.valid (hat : At it entries offset s i) : it.valid s = true := by
  have hlt := h.offset_strictMono hat.lt le_rfl
  rw [Iter.valid, hat.current, ← h.offset_length]
  exact decide_eq_true hlt

theorem next_spec (hat : At it entries offset s i) (hstatus : s.status = .ok) : ∃ s', it.next s = some s' ∧
      (i + 1 < entries.length ∧ At it entries offset s' (i + 1) ∧ s'.status = .ok ∧
          s'.restartIndex = it.advanceRestart (offset (i + 1)) it.numRestarts s.restartIndex ∨
        i + 1 = entries.length ∧ Out it entries offset s' entries.length) := by
  have hnext := hat.nextEntryOffset h
  rw [Iter.next, if_pos (hat.valid h)]
  rcases Nat.lt_or_eq_of_le (Nat.succ_le_of_lt hat.lt) with hlt | hend
  · obtain ⟨s', hparse, hat', hstatus', hrestart⟩ := parseNextKey_entry h hlt hnext hat.fits
    rw [hparse]
    exact ⟨s', rfl, .inl ⟨hlt, hat', hstatus'.trans hstatus, hrestart⟩⟩
  · have hend : i + 1 = entries.length := hend
    rw [hend] at hnext
    rw [parseNextKey_end h hnext]
    refine ⟨_, rfl, .inr ⟨hend, le_rfl, rfl, rfl, hnext, ?_, hstatus⟩⟩
    rw [← hend, prevKey_succ hat.lt]
    exact hat.key

theorem Placed.next (hplaced : Placed it entries offset restartEntry s i) : ∃ s', it.next s = some s' ∧
      (i + 1 < entries.length ∧ Placed it entries offset restartEntry s' (i + 1) ∨
        i + 1 = entries.length ∧ Out it entries offset s' entries.length) := by
  obtain ⟨s', hnext, ⟨hlt, hat, hstatus, hrestart⟩ | hout⟩ := next_spec h hplaced.at_entry hplaced.status
  · refine ⟨s', hnext, .inl ⟨hlt, hat, ?_, hstatus⟩⟩
    rw [hrestart]
    exact advanceRestart_bracket h hlt.le hplaced.bracket.lt (hplaced.bracket.le.trans (Nat.le_succ i))
      (Nat.le_add_left _ _)
  · exact ⟨s', hnext, .inr hout⟩

theorem prevRestart_spec {i index : ℕ} (hi : i ≤ entries.length) (hindex : index < it.numRestarts) :
    i = 0 ∧ it.prevRestart (offset i) index = some none ∨
      ∃ j < it.numRestarts, restartEntry j < i ∧ it.prevRestart (offset i) index = some (some j) := by
  have hstep : ∀ {j}, j < it.numRestarts → (offset (restartEntry j) < offset i ↔ restartEntry j < i) := fun hj ↦
    h.offset_lt_iff (h.restartEntry_le_length hj) hi
  induction index with
  | zero =>
    rw [Iter.prevRestart, getRestartPoint_eq h hindex]
    by_cases hzero : i = 0
    · left
      simp [hzero, h.restartEntry_zero]
    · right
      refine ⟨0, hindex, by rw [h.restartEntry_zero]; omega, ?_⟩
      have hlt : offset (restartEntry 0) < offset i := (hstep hindex).mpr (by rw [h.restartEntry_zero]; omega)
      simp [hlt]
  | succ index ih =>
    rw [Iter.prevRestart, getRestartPoint_eq h hindex]
    by_cases hlt : restartEntry (index + 1) < i
    · right
      refine ⟨index + 1, hindex, hlt, ?_⟩
      simp [(hstep hindex).mpr hlt]
    · simp only [Option.bind_eq_bind, Option.bind_some, if_neg fun hoffset ↦ hlt ((hstep hindex).mp hoffset)]
      exact ih (by omega)

theorem prev_spec (hat : At it entries offset s i) (hindex : s.restartIndex < it.numRestarts)
    (hstatus : s.status = .ok) : ∃ s', it.prev s = some s' ∧
      (i = 0 ∧ Out it entries offset s' 1 ∨ 0 < i ∧ Placed it entries offset restartEntry s' (i - 1)) := by
  have hi := hat.lt
  simp only [Iter.prev, if_pos (hat.valid h), hat.current]
  rcases prevRestart_spec h hi.le hindex with ⟨hzero, hloop⟩ | ⟨j, hj, hlt, hloop⟩
  · subst hzero
    rw [hloop]
    have hnext := hat.nextEntryOffset h
    refine ⟨_, rfl, .inl ⟨rfl, hi, rfl, rfl, hnext, ?_, hstatus⟩⟩
    rw [prevKey_succ hi]
    exact hat.key
  · rw [hloop]
    have hrounds : i ≤ restartEntry j + it.rounds := by
      have h₁ := h.length_le
      have h₂ := h.restarts_le
      unfold Iter.rounds
      omega
    obtain ⟨s', hparse, hplaced'⟩ := parseWhile_placed h hlt hi.le (nextEntryOffset_restart h hj s)
      (.inr ⟨j, hj, rfl⟩) hstatus hj le_rfl hrounds
    simp only [Option.bind_eq_bind, Option.bind_some, seekToRestartPoint_eq h hj]
    exact ⟨s', hparse, .inr ⟨by omega, hplaced'⟩⟩

end

def Follows (it : Iter) (entries : List Entry) (offset restartEntry : ℕ → ℕ) (s : Option State) :
    Option ℕ → Prop
  | none => ∃ st, s = some st ∧ st.current = it.restarts ∧ st.status = .ok
  | some i => ∃ st, s = some st ∧ Placed it entries offset restartEntry st i

theorem Follows.get_eq (h : Layout it entries offset restartEntry) {τ : Type*} [LinearOrder τ]
    (rank : List UInt8 → τ) {s : Option State} {position : Option ℕ}
    (hfollows : Follows it entries offset restartEntry s position) :
    (it.iterator rank).get s = position.bind fun i ↦ entries[i]? := by
  cases position with
  | none =>
    obtain ⟨st, rfl, hcurrent, -⟩ := hfollows
    simp [Iter.iterator, Iter.get, Iter.valid, hcurrent]
  | some i =>
    obtain ⟨st, rfl, hplaced⟩ := hfollows
    exact hplaced.at_entry.get_eq h

theorem Follows.status {s : Option State} {position : Option ℕ}
    (hfollows : Follows it entries offset restartEntry s position) : ∃ st, s = some st ∧ st.status = .ok := by
  cases position with
  | none =>
    obtain ⟨st, hs, -, hstatus⟩ := hfollows
    exact ⟨st, hs, hstatus⟩
  | some i =>
    obtain ⟨st, hs, hplaced⟩ := hfollows
    exact ⟨st, hs, hplaced.status⟩

theorem Out.follows (hout : Out it entries offset s j) :
    Follows it entries offset restartEntry (some s) none := ⟨s, rfl, hout.current, hout.status⟩

theorem Placed.follows (hplaced : Placed it entries offset restartEntry s i) :
    Follows it entries offset restartEntry (some s) (some i) := ⟨s, rfl, hplaced⟩

def cursor {τ : Type*} [LinearOrder τ] (rank : List UInt8 → τ) (entries : List Entry) :
    Iterator (Option ℕ) Entry (List UInt8) :=
  (Iterator.ofList (fun e ↦ rank e.1) entries).comap rank

/-- Each call but `Seek` moves the iterator as the cursor over the entries. -/
theorem Follows.apply (h : Layout it entries offset restartEntry) {τ : Type*} [LinearOrder τ]
    {rank : List UInt8 → τ} {s : Option State} {position : Option ℕ}
    (hfollows : Follows it entries offset restartEntry s position) {call : Iterator.Call (List UInt8)}
    (hmove : ∀ t, call ≠ .seek t) (hpermits : (it.iterator rank).permits s call = true) :
    Follows it entries offset restartEntry ((it.iterator rank).apply s call)
      ((cursor rank entries).apply position call) := by
  -- `Next` and `Prev` are called at an entry
  have hplace : ((it.iterator rank).get s).isSome = true → ∃ i, position = some i := by
    intro hsome
    rw [hfollows.get_eq h rank] at hsome
    cases position with
    | none => cases hsome
    | some i => exact ⟨i, rfl⟩
  cases call with
  | seekToFirst =>
    obtain ⟨st, rfl, hstatus⟩ := hfollows.status
    obtain ⟨s', hseek, hcases⟩ := seekToFirst_spec h hstatus
    have hiter : (it.iterator rank).apply (some st) .seekToFirst = some s' := hseek
    rw [hiter]
    rcases hcases with ⟨hnil, hout⟩ | ⟨hnil, hplaced⟩
    · have hcursor : (cursor rank entries).apply position .seekToFirst = none := if_pos hnil
      rw [hcursor]
      exact hout.follows
    · have hcursor : (cursor rank entries).apply position .seekToFirst = some 0 := if_neg hnil
      rw [hcursor]
      exact hplaced.follows
  | seekToLast =>
    obtain ⟨st, rfl, hstatus⟩ := hfollows.status
    obtain ⟨s', hseek, hcases⟩ := seekToLast_spec h hstatus
    have hiter : (it.iterator rank).apply (some st) .seekToLast = some s' := hseek
    rw [hiter]
    rcases hcases with ⟨hnil, hout⟩ | ⟨hnil, hplaced⟩
    · have hcursor : (cursor rank entries).apply position .seekToLast = none := if_pos hnil
      rw [hcursor]
      exact hout.follows
    · have hcursor : (cursor rank entries).apply position .seekToLast = some (entries.length - 1) :=
        if_neg hnil
      rw [hcursor]
      exact hplaced.follows
  | seek t => exact absurd rfl (hmove t)
  | next =>
    obtain ⟨i, rfl⟩ := hplace hpermits
    obtain ⟨st, rfl, hplaced⟩ := hfollows
    obtain ⟨s', hnext, hcases⟩ := hplaced.next h
    have hiter : (it.iterator rank).apply (some st) .next = some s' := hnext
    rw [hiter]
    rcases hcases with ⟨hlt, hplaced'⟩ | ⟨hend, hout⟩
    · have hcursor : (cursor rank entries).apply (some i) .next = some (i + 1) := if_pos hlt
      rw [hcursor]
      exact hplaced'.follows
    · have hcursor : (cursor rank entries).apply (some i) .next = none := if_neg hend.not_lt
      rw [hcursor]
      exact hout.follows
  | prev =>
    obtain ⟨i, rfl⟩ := hplace hpermits
    obtain ⟨st, rfl, hplaced⟩ := hfollows
    obtain ⟨s', hprev, hcases⟩ := prev_spec h hplaced.at_entry hplaced.bracket.lt hplaced.status
    have hiter : (it.iterator rank).apply (some st) .prev = some s' := hprev
    rw [hiter]
    rcases hcases with ⟨hzero, hout⟩ | ⟨hpos, hplaced'⟩
    · have hcursor : (cursor rank entries).apply (some i) .prev = none := if_pos hzero
      rw [hcursor]
      exact hout.follows
    · have hcursor : (cursor rank entries).apply (some i) .prev = some (i - 1) := if_neg hpos.ne'
      rw [hcursor]
      exact hplaced'.follows

theorem follows_new (h : Layout it entries offset restartEntry) :
    Follows it entries offset restartEntry it.new none := by
  rw [Iter.new, if_pos h.numRestarts_pos]
  exact ⟨_, rfl, rfl, rfl⟩

end Layout

section Built

variable {interval : ℕ} {entries : List Entry}

/-- The iterator over a built block that is made with the true offset and number of restarts. -/
def builtIter (interval : ℕ) (entries : List Entry) : Iter :=
  ⟨blockBytes interval entries, (entriesBytes interval entries).length, numRestarts interval entries⟩

theorem getElem?_pieces {k i : ℕ} {last : List UInt8} (hi : i < entries.length) :
    (pieces interval k last entries)[i]? =
      some (entryBytes (sharedAt interval (k + i) (lastKeyOf last (entries.take i)) entries[i].1) entries[i]) := by
  induction entries generalizing k i last with
  | nil => cases hi
  | cons e rest ih =>
    cases i with
    | zero => rfl
    | succ i =>
      rw [pieces, getElem?_cons_succ, ih (Nat.lt_of_succ_lt_succ hi), take_succ_cons, lastKeyOf_cons,
        Nat.add_assoc, Nat.add_comm 1 i]
      rfl

theorem pieces_take (k i : ℕ) (last : List UInt8) :
    pieces interval k last (entries.take i) = (pieces interval k last entries).take i := by
  induction entries generalizing k i last with
  | nil => simp [pieces]
  | cons e rest ih =>
    cases i with
    | zero => rfl
    | succ i => rw [take_succ_cons, pieces, pieces, take_succ_cons, ih]

theorem offset_eq (i : ℕ) : offset interval entries i = (entriesBytes interval (entries.take i)).length := by
  rw [offset, entriesBytes, pieces_take]

theorem offset_le_length (i : ℕ) : offset interval entries i ≤ (entriesBytes interval entries).length := by
  have hsplit := congrArg List.length
    (congrArg List.flatten (take_append_drop i (pieces interval 0 [] entries)))
  rw [flatten_append, length_append] at hsplit
  rw [offset, entriesBytes]
  omega

/-- A key is no longer than the bytes of all entries. -/
theorem length_key_le (hi : i < entries.length) :
    entries[i].1.length ≤ (entriesBytes interval entries).length := by
  calc entries[i].1.length
      = (prevKey entries (i + 1)).length := by rw [prevKey_succ hi]
    _ ≤ (entriesBytes interval (entries.take (i + 1))).length := length_lastKeyOf_le _
    _ = offset interval entries (i + 1) := (offset_eq (i + 1)).symm
    _ ≤ (entriesBytes interval entries).length := offset_le_length (i + 1)

theorem entriesBytes_split (hi : i < entries.length) : ∃ before after, entriesBytes interval entries =
      before ++ (entryBytes (sharedAt interval i (prevKey entries i) entries[i].1) entries[i] ++ after) ∧
    before.length = offset interval entries i ∧
    before.length + (entryBytes (sharedAt interval i (prevKey entries i) entries[i].1) entries[i]).length =
      offset interval entries (i + 1) := by
  have hpiece := @getElem?_pieces interval entries 0 i [] hi
  rw [Nat.zero_add] at hpiece
  obtain ⟨hlt, hget⟩ := List.getElem?_eq_some_iff.mp hpiece
  have htake := take_succ_eq_append_getElem hlt
  rw [hget] at htake
  refine ⟨((pieces interval 0 [] entries).take i).flatten, ((pieces interval 0 [] entries).drop (i + 1)).flatten,
    ?_, rfl, ?_⟩
  · rw [entriesBytes, ← append_assoc, ← flatten_concat, prevKey, ← htake, ← flatten_append,
      take_append_drop]
  · rw [← length_append, ← flatten_concat, prevKey, ← htake]
    rfl

theorem stored_of_split {it : Iter} {e : Entry} {shared : ℕ} {before after rest : List UInt8}
    (hdata : it.data = before ++ (entryBytes shared e ++ after) ++ rest)
    (hrestarts : it.restarts = (before ++ (entryBytes shared e ++ after)).length) (hlt : it.restarts < 2 ^ 32)
    (hshared : shared ≤ e.1.length) (hkey : e.1.length < 2 ^ 32) :
    Stored it e before.length (before.length + (entryBytes shared e).length) shared := by
  have hbytes : it.data.take it.restarts = before ++ (entryBytes shared e ++ after) := by
    rw [hdata, hrestarts, take_left]
  -- the bytes up to the end of the three lengths
  obtain ⟨header, hheader⟩ : ∃ header, entryBytes shared e = header ++ (e.1.drop shared ++ e.2) := by
    refine ⟨encodeVarint32 shared ++ (encodeVarint32 (e.1.length - shared) ++ encodeVarint32 e.2.length), ?_⟩
    simp only [entryBytes, append_assoc]
  have hentry : before ++ (entryBytes shared e ++ after) =
      (before ++ header) ++ (e.1.drop shared ++ (e.2 ++ after)) := by
    rw [hheader]
    simp only [append_assoc]
  refine ⟨hshared, (before ++ header).length, ?_, ?_, ?_, ?_⟩
  · have hfrom : it.bytesFrom before.length = entryBytes shared e ++ after := by
      rw [Iter.bytesFrom, hbytes, drop_left]
    have hrest : it.bytesFrom (before ++ header).length = e.1.drop shared ++ (e.2 ++ after) := by
      rw [Iter.bytesFrom, hbytes, hentry, drop_left]
    rw [hfrom, hrest]
    apply decodeEntry_entryBytes hshared hkey
    rw [hrestarts, hentry, length_append] at hlt
    omega
  · rw [hheader]
    simp only [length_append, length_drop]
    omega
  · rw [hdata, hentry, append_assoc, drop_left, append_assoc]
    exact take_left' (length_drop)
  · have hlength : (before ++ header).length + (e.1.length - shared) =
        (before ++ header ++ e.1.drop shared).length := by
      rw [@length_append _ (before ++ header), length_drop]
    have hvalue : it.data = (before ++ header ++ e.1.drop shared) ++ (e.2 ++ (after ++ rest)) := by
      rw [hdata, hentry]
      simp only [append_assoc]
    rw [hlength, hvalue, drop_left, take_left]

theorem length_restartPoints (interval : ℕ) (entries : List Entry) :
    (restartPoints interval entries).length = numRestarts interval entries := by
  rw [restartPoints, length_map, length_range]

theorem offset_lt_succ (hi : i < entries.length) :
    offset interval entries i < offset interval entries (i + 1) := by
  obtain ⟨before, after, -, hbefore, hafter⟩ := @entriesBytes_split interval entries i hi
  have hthree := three_le_entryBytes (sharedAt interval i (prevKey entries i) entries[i].1) entries[i]
  omega

theorem mul_interval_le (hinterval : 1 ≤ interval) (hj : j < numRestarts interval entries) :
    j * interval ≤ entries.length - 1 := (Nat.le_div_iff_mul_le hinterval).mp (Nat.le_of_lt_succ hj)

theorem layout_builtIter (hinterval : 1 ≤ interval) (hsize : (entriesBytes interval entries).length < 2 ^ 32) :
    Layout (builtIter interval entries) entries (offset interval entries) (· * interval) where
  numRestarts_pos := Nat.succ_pos _
  restarts_lt := hsize
  restarts_le := by
    change (entriesBytes interval entries).length ≤ (blockBytes interval entries).length
    rw [blockBytes, length_append]
    omega
  numRestarts_le := by
    have hnum : numRestarts interval entries ≤ entries.length - 1 + 1 := Nat.succ_le_succ (Nat.div_le_self _ _)
    have hlength := @length_le_entriesBytes interval entries
    change numRestarts interval entries ≤ (blockBytes interval entries).length
    rw [blockBytes, length_append, length_append, encodeFixed32, length_encodeFixed]
    omega
  offset_length := offset_length entries
  offset_lt i hi := offset_lt_succ hi
  stored i hi := by
    obtain ⟨before, after, hbytes, hbefore, hafter⟩ := @entriesBytes_split interval entries i hi
    refine ⟨sharedAt interval i (prevKey entries i) entries[i].1, ?_, sharedAt_le.1, take_sharedAt, ?_⟩
    · have hdata : (builtIter interval entries).data = entriesBytes interval entries ++
          ((restartPoints interval entries).flatMap encodeFixed32 ++
            encodeFixed32 (numRestarts interval entries)) := rfl
      have hrestarts : (builtIter interval entries).restarts = (entriesBytes interval entries).length := rfl
      rw [hbytes] at hdata hrestarts
      rw [← hbefore, ← hafter]
      exact stored_of_split hdata hrestarts hsize sharedAt_le.2 ((length_key_le hi).trans_lt hsize)
    · rintro j - rfl
      rw [sharedAt, Nat.mul_mod_left, if_pos rfl]
  restart j hj := by
    have hj' : j < (restartPoints interval entries).length := length_restartPoints interval entries ▸ hj
    have hget : (restartPoints interval entries)[j] = offset interval entries (j * interval) := by
      simp [restartPoints]
    have hle := @offset_le_length interval entries (j * interval)
    rw [← hget]
    exact decodeFixed32_flatMap hj' (by omega)
  restartEntry_zero := Nat.zero_mul _
  restartEntry_lt j _ := Nat.mul_lt_mul_of_pos_right (Nat.lt_succ_self j) hinterval
  restartEntry_le j hj := mul_interval_le hinterval hj

variable {τ : Type*} [LinearOrder τ] {rank : List UInt8 → τ}

/-- The iterator over a built block is a cursor over its entries as long as `Seek` is not called. -/
theorem block_iter_is_cursor (hinterval : 1 ≤ interval)
    (hsorted : entries.Pairwise fun a b ↦ rank a.1 < rank b.1)
    (hsize : (entriesBytes interval entries).length < 2 ^ 32) {calls : List (Iterator.Call (List UInt8))}
    (hmoves : ∀ t, .seek t ∉ calls)
    (hcalls : ((builtIter interval entries).iterator rank).allows (builtIter interval entries).new calls = true) :
    build rank interval entries = some (builtIter interval entries).data ∧
      ∃ s, ((builtIter interval entries).iterator rank).run (builtIter interval entries).new calls = some s ∧
        s.status = .ok ∧
        (builtIter interval entries).get s = (cursor rank entries).get ((cursor rank entries).run none calls) := by
  have hlayout := layout_builtIter hinterval hsize
  have hrun := Iterator.run_related (J := cursor rank entries) (P := fun call ↦ ∀ t, call ≠ .seek t)
    (R := Follows (builtIter interval entries) entries (offset interval entries) (· * interval))
    (fun hfollows hmove hpermits ↦ Follows.apply hlayout hfollows hmove hpermits) (follows_new hlayout)
    (fun call hcall t heq ↦ hmoves t (heq ▸ hcall)) hcalls
  obtain ⟨s, hs, hstatus⟩ := hrun.status
  refine ⟨build_eq hinterval hsorted hsize, s, hs, hstatus, ?_⟩
  have hget := hrun.get_eq hlayout rank
  rw [hs] at hget
  exact hget

def threeEntries : List Entry := [([1], [7]), ([1, 2], []), ([3, 4, 5], [8, 9])]

/-- From the last entry, a restart point, back to the first one and on. -/
theorem block_iter_is_cursor_over_threeEntries :
    ∃ s, ((builtIter 2 threeEntries).iterator List.length).run (builtIter 2 threeEntries).new
        [.seekToLast, .prev, .prev, .next] = some s ∧
      s.status = .ok ∧ (builtIter 2 threeEntries).get s = some ([1, 2], []) :=
  (@block_iter_is_cursor 2 threeEntries ℕ _ List.length (by decide) (by decide) (by decide)
    [.seekToLast, .prev, .prev, .next] (by simp) (by decide +kernel)).2

end Built

end LevelDB.Table.BlockCursor
