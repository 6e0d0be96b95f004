import LevelDB.Library.Iterators
import LevelDB.Util.Coding

/-!
# Blocks

`Block` and `Block::Iter` of `table/block.cpp`.  An operation of the iterator is `none` where an assertion
fails, where the offset of the next entry is taken from a slice that does not point into the block, where
a key is read from beyond the contents, or where a loop has used up its rounds.  Restart points beyond the
contents are decoded from the bytes that are left.
-/

namespace LevelDB.Table.Block

open Library Util.Coding

inductive Status
  | ok
  | corruption (message : String)
  | invalidArgument (message : String)
  | ioError
  deriving DecidableEq, Repr

/-- `DecodeEntry` on the bytes from `p` to `limit`: the three lengths and the bytes from the new `p` on. -/
def decodeEntry (input : List UInt8) : Option (ℕ × ℕ × ℕ × List UInt8) :=
  match input with
  | b₀ :: b₁ :: b₂ :: rest =>
    let header :=
      if (b₀.toNat ||| b₁.toNat ||| b₂.toNat) < 128 then
        -- fast path: all three values are encoded in one byte each
        some (b₀.toNat, b₁.toNat, b₂.toNat, rest)
      else do
        let (shared, input) ← getVarint32 input
        let (nonShared, input) ← getVarint32 input
        let (valueLength, input) ← getVarint32 input
        return (shared, nonShared, valueLength, input)
    header.filter fun h ↦ !decide (h.2.2.2.length % 2 ^ 32 < (h.2.1 + h.2.2.1) % 2 ^ 32)
  | _ => none

/-- The members of `Block::Iter` that do not change. -/
structure Iter where
  data : List UInt8
  restarts : ℕ
  numRestarts : ℕ

/-- The members of `Block::Iter` that change.  `value` is an offset in the data and a size, or the empty
slice that points elsewhere. -/
structure State where
  current : ℕ
  restartIndex : ℕ
  key : List UInt8
  value : Option (ℕ × ℕ)
  status : Status
  deriving DecidableEq

namespace Iter

/-- The state after the construction; `none` is the failed assertion on the number of restarts. -/
def new (it : Iter) : Option State :=
  if 0 < it.numRestarts then some ⟨it.restarts, it.numRestarts, [], none, .ok⟩ else none

def valid (it : Iter) (s : State) : Bool := decide (s.current < it.restarts)

/-- `key` and `value` of a valid iterator. -/
def get (it : Iter) (s : State) : Option (List UInt8 × List UInt8) :=
  if it.valid s then s.value.map fun v ↦ (s.key, (it.data.drop v.1).take v.2) else none

def bytesFrom (it : Iter) (p : ℕ) : List UInt8 := (it.data.take it.restarts).drop p

def nextEntryOffset (s : State) : Option ℕ := s.value.map fun v ↦ (v.1 + v.2) % 2 ^ 32

def getRestartPoint (it : Iter) (index : ℕ) : Option ℕ :=
  if index < it.numRestarts then some (decodeFixed32 it.data (it.restarts + index * 4)) else none

def seekToRestartPoint (it : Iter) (index : ℕ) (s : State) : Option State := do
  let offset ← it.getRestartPoint index
  return { s with key := [], restartIndex := index, value := some (offset, 0) }

def corruptionError (it : Iter) : State :=
  ⟨it.restarts, it.numRestarts, [], none, .corruption "bad entry in block"⟩

/-- The loop of `ParseNextKey` that moves `restart_index_` on. -/
def advanceRestart (it : Iter) (current : ℕ) : ℕ → ℕ → ℕ
  | 0, index => index
  | rounds + 1, index =>
    if index + 1 < it.numRestarts ∧ decodeFixed32 it.data (it.restarts + (index + 1) * 4) < current then
      advanceRestart it current rounds (index + 1)
    else index

def parseNextKey (it : Iter) (s : State) : Option (Bool × State) := do
  let current ← nextEntryOffset s
  if it.restarts ≤ current then
    return (false, { s with current := it.restarts, restartIndex := it.numRestarts })
  else
    match decodeEntry (it.bytesFrom current) with
    | none => return (false, it.corruptionError)
    | some (shared, nonShared, valueLength, rest) =>
      if s.key.length < shared then return (false, it.corruptionError)
      else
        let p := it.restarts - rest.length
        if p + nonShared ≤ it.data.length then
          return (true, { s with
            current := current
            key := s.key.take shared ++ (it.data.drop p).take nonShared
            value := some (p + nonShared, valueLength)
            restartIndex := it.advanceRestart current it.numRestarts s.restartIndex })
        else none

/-- `do {} while (ParseNextKey() && NextEntryOffset() < limit)` -/
def parseWhile (it : Iter) (limit : ℕ) : ℕ → State → Option State
  | 0, _ => none
  | rounds + 1, s => do
    let (parsed, s) ← it.parseNextKey s
    if parsed then
      if (← nextEntryOffset s) < limit then it.parseWhile limit rounds s else return s
    else return s

/-- Enough rounds for every loop over the entries. -/
def rounds (it : Iter) : ℕ := it.data.length + 1

def seekToFirst (it : Iter) (s : State) : Option State := do
  let s ← it.seekToRestartPoint 0 s
  let (_, s) ← it.parseNextKey s
  return s

def seekToLast (it : Iter) (s : State) : Option State := do
  let s ← it.seekToRestartPoint (it.numRestarts - 1) s
  it.parseWhile it.restarts it.rounds s

/-- `Next`, with its assertion. -/
def next (it : Iter) (s : State) : Option State :=
  if it.valid s then (it.parseNextKey s).map Prod.snd else none

def prevRestart (it : Iter) (original : ℕ) : ℕ → Option (Option ℕ)
  | 0 => do
    let offset ← it.getRestartPoint 0
    return if offset < original then some 0 else none
  | index + 1 => do
    let offset ← it.getRestartPoint (index + 1)
    if offset < original then return some (index + 1) else it.prevRestart original index

/-- `Prev`, with its assertion. -/
def prev (it : Iter) (s : State) : Option State :=
  if it.valid s then do
    match ← it.prevRestart s.current s.restartIndex with
    | none => return { s with current := it.restarts, restartIndex := it.numRestarts }
    | some index =>
      let original := s.current
      let s ← it.seekToRestartPoint index s
      it.parseWhile original it.rounds s
  else none

section Seek

variable {τ : Type*} [LinearOrder τ] (rank : List UInt8 → τ)

/-- The binary search of `Seek`: the restart point at `left`, or `none` inside when an entry is bad. -/
def searchRestart (it : Iter) (target : List UInt8) : ℕ → ℕ → ℕ → Option (Option ℕ)
  | 0, _, _ => none
  | rounds + 1, left, right =>
    if left < right then do
      let mid := (left + right + 1) / 2
      let regionOffset ← it.getRestartPoint mid
      match decodeEntry (it.bytesFrom regionOffset) with
      | none => return none
      | some (shared, nonShared, _, rest) =>
        if shared ≠ 0 then return none
        else
          let p := it.restarts - rest.length
          if p + nonShared ≤ it.data.length then
            if rank ((it.data.drop p).take nonShared) < rank target then
              it.searchRestart target rounds mid right
            else it.searchRestart target rounds left (mid - 1)
          else none
    else return some left

/-- The linear search of `Seek`. -/
def scan (it : Iter) (target : List UInt8) : ℕ → State → Option State
  | 0, _ => none
  | rounds + 1, s => do
    let (parsed, s) ← it.parseNextKey s
    if parsed then
      if rank target ≤ rank s.key then return s else it.scan target rounds s
    else return s

/-- `Seek`.  The search over the restart points is made, but the linear search starts after the entry that
was parsed last. -/
def seek (it : Iter) (target : List UInt8) (s : State) : Option State := do
  match ← it.searchRestart rank target it.rounds 0 (it.numRestarts - 1) with
  | none => return it.corruptionError
  | some _ => it.scan rank target it.rounds s

/-- The iterator, from a state or from none. -/
def iterator (it : Iter) : Iterator (Option State) (List UInt8 × List UInt8) (List UInt8) where
  get s := s.bind it.get
  seekToFirst s := s.bind it.seekToFirst
  seekToLast s := s.bind it.seekToLast
  seek target s := s.bind (it.seek rank target)
  next s := s.bind it.next
  prev s := s.bind it.prev

end Seek

end Iter

/-- The members of `Block`.  `size` is 0 as an error marker. -/
structure Contents where
  data : List UInt8
  size : ℕ
  restartOffset : ℕ

/-- `NumRestarts`, with its assertion. -/
def numRestarts (data : List UInt8) (size : ℕ) : Option ℕ :=
  if 8 ≤ size then some (decodeFixed32 data (size - 4)) else none

def new (data : List UInt8) : Option Contents :=
  if data.length < 4 then some ⟨data, 0, 0⟩
  else do
    let n ← numRestarts data data.length
    -- `size_ - (1 + NumRestarts() * sizeof(uint32_t))`, as `size_t` and then as `uint32_t`
    let restartOffset := (data.length + 2 ^ 64 - (1 + n * 4)) % 2 ^ 64 % 2 ^ 32
    return ⟨data, if data.length - 4 < restartOffset then 0 else data.length, restartOffset⟩

/-- What `NewIterator` returns: an iterator without entries that has a status, or a new `Iter`. -/
def Contents.newIterator (block : Contents) : Option (Status ⊕ Iter) :=
  if block.size < 8 then some (.inl (.corruption "bad block contents"))
  else do
    let n ← numRestarts block.data block.size
    return if n = 0 then .inl .ok else .inr ⟨block.data, block.restartOffset, n⟩

/-! ### What `NewIterator` returns -/

variable {data : List UInt8}

def countWord (data : List UInt8) : ℕ := decodeFixed32 data (data.length - 4)

/-- What `NewIterator` returns for a new block: the bytes of the restart array are counted modulo `2 ^ 32`. -/
theorem newIterator_eq (hlength : 8 ≤ data.length) (hsize : data.length < 2 ^ 32) :
    (new data).bind Contents.newIterator = some (
      if 4 * (countWord data % 2 ^ 30) = 0 ∨ data.length ≤ 4 * (countWord data % 2 ^ 30) then
        .inl (.corruption "bad block contents")
      else .inr ⟨data, data.length - 1 - 4 * (countWord data % 2 ^ 30), countWord data⟩) := by
  have hcount : countWord data < 2 ^ 32 := decodeFixed32_lt _ _
  have hnumRestarts : numRestarts data data.length = some (countWord data) := if_pos hlength
  rw [new, if_neg (by omega), hnumRestarts]
  simp only [Option.bind_eq_bind, Option.bind_some]
  by_cases hbad : 4 * (countWord data % 2 ^ 30) = 0 ∨ data.length ≤ 4 * (countWord data % 2 ^ 30)
  · have hoffset : data.length - 4 <
        (data.length + 2 ^ 64 - (1 + countWord data * 4)) % 2 ^ 64 % 2 ^ 32 := by omega
    rw [if_pos hoffset, if_pos hbad]
    rfl
  · have hoffset : (data.length + 2 ^ 64 - (1 + countWord data * 4)) % 2 ^ 64 % 2 ^ 32 =
        data.length - 1 - 4 * (countWord data % 2 ^ 30) := by omega
    have hpos : countWord data ≠ 0 := by
      intro hzero
      rw [hzero] at hbad
      exact hbad (.inl rfl)
    rw [hoffset, if_neg (by omega), if_neg hbad]
    simp only [Option.bind_some, pure, Contents.newIterator, hnumRestarts, Option.bind_eq_bind]
    rw [if_neg (by omega), if_neg hpos]

theorem newIterator_of_lt_four (h : data.length < 4) :
    (new data).bind Contents.newIterator = some (.inl (.corruption "bad block contents")) := by
  rw [new, if_pos h]
  rfl

/-- The assertion of `NumRestarts` fails in the constructor. -/
theorem newIterator_of_lt_eight (hfour : 4 ≤ data.length) (height : data.length < 8) :
    (new data).bind Contents.newIterator = none := by
  have hnumRestarts : numRestarts data data.length = none := if_neg (not_le.mpr height)
  rw [new, if_neg (not_lt.mpr hfour), hnumRestarts]
  rfl

theorem newIterator_eq_inr {it : Iter} (hsize : data.length < 2 ^ 32)
    (h : (new data).bind Contents.newIterator = some (.inr it)) :
    0 < 4 * (countWord data % 2 ^ 30) ∧ 4 * (countWord data % 2 ^ 30) < data.length ∧
      it = ⟨data, data.length - 1 - 4 * (countWord data % 2 ^ 30), countWord data⟩ := by
  by_cases hfour : data.length < 4
  · rw [newIterator_of_lt_four hfour] at h
    cases h
  by_cases height : data.length < 8
  · rw [newIterator_of_lt_eight (not_lt.mp hfour) height] at h
    cases h
  rw [newIterator_eq (not_lt.mp height) hsize] at h
  split at h
  · cases h
  · rename_i hbad
    cases h
    exact ⟨by omega, by omega, rfl⟩

end LevelDB.Table.Block
