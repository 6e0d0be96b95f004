import LevelDB.Table.BlockCursor

/-!
# Reading a built block back

The constructor of `Block` takes the restart array to begin three bytes after its true start.  The first
restart point is then read from the last byte of the first one, which is 0, and three bytes of the word
after it: it is 256 times an unrelated number.  `Encodes` says what it takes for the bytes from there on to
give the entries of the block all the same.
-/

namespace LevelDB.Table.BlockRoundTrip

open Util.Coding Block BlockBuilder BlockCursor List

/-- The entries from the current one on, with `Next` until the iterator is invalid, and the status then.
It is `none` where a value reaches beyond the contents. -/
def collect (it : Iter) : ℕ → State → Option (List Entry × Status)
  | 0, _ => none
  | rounds + 1, s =>
    if it.valid s then do
      let v ← s.value
      if v.1 + v.2 ≤ it.data.length then
        let s' ← it.next s
        let (rest, status) ← collect it rounds s'
        return ((s.key, (it.data.drop v.1).take v.2) :: rest, status)
      else none
    else return ([], s.status)

/-- The entries that a new iterator over a block with these contents goes through from `SeekToFirst` on. -/
def readBlock (contents : List UInt8) (rounds : ℕ) : Option (List Entry × Status) := do
  let block ← Block.new contents
  match ← block.newIterator with
  | .inl status => return ([], status)
  | .inr it =>
    let s ← it.new
    let s ← it.seekToFirst s
    collect it rounds s

/-- The bytes give these entries after a key. -/
inductive Encodes : List UInt8 → List UInt8 → List Entry → Prop
  | nil {last : List UInt8} : Encodes last [] []
  | cons {last bytes rest : List UInt8} {shared nonShared valueLength : ℕ} {entries : List Entry}
      (hdecode : decodeEntry bytes = some (shared, nonShared, valueLength, rest))
      (hshared : shared ≤ last.length) (hlength : nonShared + valueLength ≤ rest.length)
      (hrest : Encodes (last.take shared ++ rest.take nonShared) (rest.drop (nonShared + valueLength)) entries) :
      Encodes last bytes
        ((last.take shared ++ rest.take nonShared, (rest.drop nonShared).take valueLength) :: entries)

theorem encodes_nil_iff {last bytes : List UInt8} : Encodes last bytes [] ↔ bytes = [] := by
  constructor
  · intro h
    cases h
    rfl
  · rintro rfl
    exact .nil

theorem Encodes.cons_inv {last bytes : List UInt8} {e : Entry} {entries : List Entry}
    (h : Encodes last bytes (e :: entries)) :
    ∃ shared nonShared valueLength rest, decodeEntry bytes = some (shared, nonShared, valueLength, rest) ∧
      shared ≤ last.length ∧ nonShared + valueLength ≤ rest.length ∧
      e = (last.take shared ++ rest.take nonShared, (rest.drop nonShared).take valueLength) ∧
      Encodes (last.take shared ++ rest.take nonShared) (rest.drop (nonShared + valueLength)) entries := by
  cases h with
  | cons hdecode hshared hlength hrest => exact ⟨_, _, _, _, hdecode, hshared, hlength, rfl, hrest⟩

/-- Lengths are read from no fewer bytes than they are written in. -/
theorem readLengths_spec {input rest : List UInt8} {shared nonShared valueLength : ℕ}
    (h : readLengths input = some (shared, nonShared, valueLength, rest)) :
    ∃ used, input = used ++ rest ∧ 3 ≤ used.length ∧
      (encodeVarint32 shared).length + (encodeVarint32 nonShared).length + (encodeVarint32 valueLength).length ≤
        used.length := by
  obtain ⟨⟨v₁, input₁⟩, h₁, h⟩ := Option.bind_eq_some_iff.mp h
  obtain ⟨⟨v₂, input₂⟩, h₂, h⟩ := Option.bind_eq_some_iff.mp h
  obtain ⟨⟨v₃, input₃⟩, h₃, h⟩ := Option.bind_eq_some_iff.mp h
  cases h
  have hlt₁ := length_of_getVarint32 h₁
  have hlt₂ := length_of_getVarint32 h₂
  have hlt₃ := length_of_getVarint32 h₃
  obtain ⟨used₁, rfl, hle₁⟩ := getVarint32_spec h₁
  obtain ⟨used₂, rfl, hle₂⟩ := getVarint32_spec h₂
  obtain ⟨used₃, rfl, hle₃⟩ := getVarint32_spec h₃
  simp only [length_append] at hlt₁ hlt₂ hlt₃
  refine ⟨used₁ ++ (used₂ ++ used₃), by simp only [append_assoc], ?_, ?_⟩
  · simp only [length_append]
    omega
  · simp only [length_append]
    omega

/-- `DecodeEntry` reads the lengths and checks, modulo `2 ^ 32`, that the bytes of the entry are there. -/
theorem decodeEntry_eq_some_iff {input : List UInt8} {e : ℕ × ℕ × ℕ × List UInt8} :
    decodeEntry input = some e ↔
      readLengths input = some e ∧ (e.2.1 + e.2.2.1) % 2 ^ 32 ≤ e.2.2.2.length % 2 ^ 32 := by
  by_cases hthree : 3 ≤ input.length
  · rw [decodeEntry_eq hthree, Option.filter_eq_some_iff]
    simp only [Bool.not_eq_true', decide_eq_false_iff_not, not_lt]
  · constructor
    · intro h
      unfold decodeEntry at h
      split at h
      · simp only [length_cons] at hthree
        omega
      · cases h
    · rintro ⟨h, -⟩
      obtain ⟨used, rfl, hused, -⟩ := readLengths_spec h
      rw [length_append] at hthree
      omega

theorem decodeEntry_spec {input rest : List UInt8} {shared nonShared valueLength : ℕ}
    (h : decodeEntry input = some (shared, nonShared, valueLength, rest)) :
    ∃ used, input = used ++ rest ∧
      (encodeVarint32 shared).length + (encodeVarint32 nonShared).length + (encodeVarint32 valueLength).length ≤
        used.length ∧
      (nonShared + valueLength) % 2 ^ 32 ≤ rest.length % 2 ^ 32 := by
  obtain ⟨hread, hcheck⟩ := decodeEntry_eq_some_iff.mp h
  obtain ⟨used, hused, -, hle⟩ := readLengths_spec hread
  exact ⟨used, hused, hle, hcheck⟩

/-- Sharing more never makes an entry longer. -/
theorem length_entryBytes_anti {e : Entry} {shared shared' : ℕ} (hle : shared ≤ shared')
    (hkey : shared' ≤ e.1.length) : (entryBytes shared' e).length ≤ (entryBytes shared e).length := by
  induction shared', hle using Nat.le_induction with
  | base => exact le_rfl
  | succ m hle ih =>
    refine le_trans ?_ (ih (by omega))
    have hshared := length_encodeVarint32_succ_le m
    have hrest := length_encodeVarint32_succ_le (e.1.length - (m + 1))
    have hsub : e.1.length - (m + 1) + 1 = e.1.length - m := by omega
    rw [hsub] at hrest
    simp only [entryBytes, length_append, length_drop]
    omega

theorem le_sharedPrefix {last key : List UInt8} {shared : ℕ} (hlast : shared ≤ last.length)
    (htake : last.take shared = key.take shared) : shared ≤ sharedPrefix last key := by
  induction shared generalizing last key with
  | zero => exact Nat.zero_le _
  | succ shared ih =>
    cases last with
    | nil => cases hlast
    | cons a last =>
      cases key with
      | nil => cases htake
      | cons b key =>
        rw [take_succ_cons, take_succ_cons, List.cons.injEq] at htake
        rw [sharedPrefix, if_pos htake.1]
        exact Nat.succ_le_succ (ih (Nat.le_of_succ_le_succ hlast) htake.2)

/-- When nothing but the first entry is a restart point, no bytes give the entries that are fewer than those
of the builder. -/
theorem Encodes.length_le {interval i : ℕ} {last bytes : List UInt8} {entries : List Entry}
    (h : Encodes last bytes entries) (hfirst : 0 < i ∨ last = []) (hinterval : i + entries.length ≤ interval) :
    (pieces interval i last entries).flatten.length ≤ bytes.length := by
  induction h generalizing i with
  | nil => exact le_rfl
  | @cons last bytes rest shared nonShared valueLength entries hdecode hshared hlength hrest ih =>
    obtain ⟨used, rfl, hused, -⟩ := decodeEntry_spec hdecode
    rw [length_cons] at hinterval
    have hrest := ih (i := i + 1) (.inl (Nat.succ_pos i)) (by omega)
    have hkey : (last.take shared ++ rest.take nonShared).length = shared + nonShared := by
      rw [length_append, length_take, length_take]
      omega
    -- the builder shares the whole common prefix
    have hat : sharedAt interval i last (last.take shared ++ rest.take nonShared) =
        sharedPrefix last (last.take shared ++ rest.take nonShared) := by
      rw [sharedAt]
      split
      · rename_i hmod
        rw [Nat.mod_eq_of_lt (by omega)] at hmod
        rw [hfirst.resolve_left (by omega)]
        rfl
      · rfl
    have hle : shared ≤ sharedPrefix last (last.take shared ++ rest.take nonShared) := by
      apply le_sharedPrefix hshared
      rw [take_left' (by rw [length_take]; omega)]
    have hanti := length_entryBytes_anti
      (e := (last.take shared ++ rest.take nonShared, (rest.drop nonShared).take valueLength)) hle
      (sharedPrefix_le _ _).2
    have hentry : (entryBytes shared
        (last.take shared ++ rest.take nonShared, (rest.drop nonShared).take valueLength)).length ≤
          used.length + (nonShared + valueLength) := by
      simp only [entryBytes, length_append, length_drop, length_take] at hkey ⊢
      rw [hkey, Nat.add_sub_cancel_left, Nat.min_eq_left (by omega)]
      omega
    rw [pieces, hat, flatten_cons, length_append, length_append]
    rw [length_drop] at hrest
    dsimp only
    omega

section Collect

variable {it : Iter}

theorem bytesFrom_take {p n : ℕ} (h : n ≤ (it.bytesFrom p).length) :
    (it.data.drop p).take n = (it.bytesFrom p).take n := by
  rw [Iter.bytesFrom, drop_take, take_take, Nat.min_eq_left]
  rw [Iter.bytesFrom, length_drop, length_take] at h
  omega

theorem bytesFrom_add (p n : ℕ) : it.bytesFrom (p + n) = (it.bytesFrom p).drop n := by
  rw [Iter.bytesFrom, Iter.bytesFrom, drop_drop]

theorem length_bytesFrom (hrestarts : it.restarts ≤ it.data.length) (p : ℕ) :
    (it.bytesFrom p).length = it.restarts - p := by
  rw [Iter.bytesFrom, length_drop, length_take, Nat.min_eq_left hrestarts]

theorem eq_bytesFrom_of_append (hrestarts : it.restarts ≤ it.data.length) {p : ℕ} {used rest : List UInt8}
    (hp : p < it.restarts) (h : it.bytesFrom p = used ++ rest) :
    rest = it.bytesFrom (it.restarts - rest.length) := by
  have hlength := length_bytesFrom hrestarts p
  rw [h, length_append] at hlength
  have hoffset : it.restarts - rest.length = p + used.length := by omega
  rw [hoffset, bytesFrom_add, h, drop_left]

theorem parseNextKey_cases (it : Iter) {s : State} {p : ℕ} (hnext : Iter.nextEntryOffset s = some p) :
    (it.restarts ≤ p ∧ ∃ s', it.parseNextKey s = some (false, s') ∧ it.valid s' = false ∧ s'.status = s.status) ∨
    ((∀ shared nonShared valueLength rest, decodeEntry (it.bytesFrom p) =
        some (shared, nonShared, valueLength, rest) → s.key.length < shared) ∧
      p < it.restarts ∧ it.parseNextKey s = some (false, it.corruptionError)) ∨
    ∃ shared nonShared valueLength rest, p < it.restarts ∧
      decodeEntry (it.bytesFrom p) = some (shared, nonShared, valueLength, rest) ∧ shared ≤ s.key.length ∧
      ((it.data.length < it.restarts - rest.length + nonShared ∧ it.parseNextKey s = none) ∨
        ∃ s', it.parseNextKey s = some (true, s') ∧ s'.current = p ∧
          s'.key = s.key.take shared ++ (it.data.drop (it.restarts - rest.length)).take nonShared ∧
          s'.value = some (it.restarts - rest.length + nonShared, valueLength) ∧ s'.status = s.status) := by
  simp only [Iter.parseNextKey, hnext, Option.bind_eq_bind, Option.bind_some]
  by_cases hend : it.restarts ≤ p
  · left
    rw [if_pos hend]
    exact ⟨hend, _, rfl, by simp [Iter.valid], rfl⟩
  · right
    rw [if_neg hend]
    cases hdecode : decodeEntry (it.bytesFrom p) with
    | none =>
      left
      refine ⟨?_, Nat.not_le.mp hend, rfl⟩
      intro _ _ _ _ heq
      cases heq
    | some header =>
      obtain ⟨shared, nonShared, valueLength, rest⟩ := header
      dsimp only
      by_cases hshared : s.key.length < shared
      · left
        rw [if_pos hshared]
        refine ⟨?_, Nat.not_le.mp hend, rfl⟩
        intro _ _ _ _ heq
        cases heq
        exact hshared
      · right
        rw [if_neg hshared]
        refine ⟨shared, nonShared, valueLength, rest, Nat.not_le.mp hend, rfl, Nat.not_lt.mp hshared, ?_⟩
        by_cases hread : it.restarts - rest.length + nonShared ≤ it.data.length
        · right
          rw [if_pos hread]
          exact ⟨_, rfl, rfl, rfl, rfl, rfl⟩
        · left
          rw [if_neg hread]
          exact ⟨Nat.not_le.mp hread, rfl⟩

theorem collect_invalid {s : State} (h : it.valid s = false) (rounds : ℕ) :
    collect it (rounds + 1) s = some ([], s.status) := by
  simp [collect, h]

theorem collect_valid {s : State} {v : ℕ × ℕ} {rounds : ℕ} {l : List Entry} {status : Status}
    (h : it.valid s = true) (hv : s.value = some v) :
    collect it (rounds + 1) s = some (l, status) ↔ v.1 + v.2 ≤ it.data.length ∧
      ∃ rest, l = (s.key, (it.data.drop v.1).take v.2) :: rest ∧
        ((it.parseNextKey s).bind fun r ↦ collect it rounds r.2) = some (rest, status) := by
  simp only [collect, h, if_true, hv, Option.bind_eq_bind, Option.bind_some, Iter.next, Option.bind_map]
  by_cases hle : v.1 + v.2 ≤ it.data.length
  · rw [if_pos hle]
    constructor
    · intro hcollect
      obtain ⟨r, hr, hcollect⟩ := Option.bind_eq_some_iff.mp hcollect
      obtain ⟨⟨rest, _⟩, hrest, hcollect⟩ := Option.bind_eq_some_iff.mp hcollect
      cases hcollect
      exact ⟨hle, rest, rfl, by rw [hr]; exact hrest⟩
    · rintro ⟨-, rest, rfl, hcollect⟩
      obtain ⟨r, hr, hcollect⟩ := Option.bind_eq_some_iff.mp hcollect
      rw [hr]
      simp [hcollect]
  · rw [if_neg hle]
    constructor
    · intro hcollect
      cases hcollect
    · rintro ⟨hle', -⟩
      exact absurd hle' hle

theorem eq_nil_of_collect_invalid {s : State} (h : it.valid s = false) {rounds : ℕ} {l : List Entry}
    {status : Status} (hcollect : collect it rounds s = some (l, status)) : l = [] ∧ status = s.status := by
  cases rounds with
  | zero => cases hcollect
  | succ rounds =>
    rw [collect_invalid h] at hcollect
    cases hcollect
    exact ⟨rfl, rfl⟩

theorem encodes_cons_iff (hrestarts : it.restarts ≤ it.data.length) (hlt : it.data.length < 2 ^ 32)
    {last rest : List UInt8} {p shared nonShared valueLength : ℕ} {e : Entry} {entries : List Entry}
    (hp : p < it.restarts) (hdecode : decodeEntry (it.bytesFrom p) = some (shared, nonShared, valueLength, rest))
    (hshared : shared ≤ last.length) :
    Encodes last (it.bytesFrom p) (e :: entries) ↔
      it.restarts - rest.length + nonShared + valueLength ≤ it.data.length ∧
        e = (last.take shared ++ (it.data.drop (it.restarts - rest.length)).take nonShared,
          (it.data.drop (it.restarts - rest.length + nonShared)).take valueLength) ∧
        Encodes (last.take shared ++ (it.data.drop (it.restarts - rest.length)).take nonShared)
          (it.bytesFrom (it.restarts - rest.length + nonShared + valueLength)) entries := by
  obtain ⟨used, hused, -, hcheck⟩ := decodeEntry_spec hdecode
  have hrest := eq_bytesFrom_of_append hrestarts hp hused
  have hle : rest.length ≤ it.restarts := by
    have hlength := length_bytesFrom hrestarts p
    rw [hused, length_append] at hlength
    omega
  have hdrop : it.bytesFrom (it.restarts - rest.length + nonShared + valueLength) =
      rest.drop (nonShared + valueLength) := by
    rw [Nat.add_assoc, bytesFrom_add, ← hrest]
  -- the same bytes, once with the limit and once without it
  have hbytes : nonShared + valueLength ≤ rest.length →
      (it.data.drop (it.restarts - rest.length)).take nonShared = rest.take nonShared ∧
      (it.data.drop (it.restarts - rest.length + nonShared)).take valueLength =
        (rest.drop nonShared).take valueLength := by
    intro hlength
    constructor
    · rw [bytesFrom_take (by rw [← hrest]; omega), ← hrest]
    · rw [bytesFrom_take (by rw [bytesFrom_add, ← hrest, length_drop]; omega), bytesFrom_add, ← hrest]
  constructor
  · intro h
    obtain ⟨_, _, _, _, hdecode', -, hlength, rfl, hencodes⟩ := h.cons_inv
    cases hdecode.symm.trans hdecode'
    rw [(hbytes hlength).1, (hbytes hlength).2, hdrop]
    exact ⟨by omega, rfl, hencodes⟩
  · rintro ⟨hread, rfl, hencodes⟩
    have hlength : nonShared + valueLength ≤ rest.length := by
      rwa [Nat.mod_eq_of_lt (by omega), Nat.mod_eq_of_lt (by omega)] at hcheck
    rw [(hbytes hlength).1, hdrop] at hencodes
    rw [(hbytes hlength).1, (hbytes hlength).2]
    exact .cons hdecode hshared hlength hencodes

theorem collect_iff (hrestarts : it.restarts ≤ it.data.length) (hlt : it.data.length < 2 ^ 32)
    {entries : List Entry} {s : State} {p : ℕ} (hnext : Iter.nextEntryOffset s = some p)
    (hstatus : s.status = .ok) :
    (∃ rounds, ((it.parseNextKey s).bind fun r ↦ collect it rounds r.2) = some (entries, .ok)) ↔
      Encodes s.key (it.bytesFrom p) entries := by
  have hempty : ∀ p, it.bytesFrom p = [] ↔ it.restarts ≤ p := by
    intro p
    rw [← length_eq_zero_iff, length_bytesFrom hrestarts]
    omega
  induction entries generalizing s p with
  | nil =>
    rw [encodes_nil_iff, hempty]
    rcases parseNextKey_cases it hnext with ⟨hend, s', hparse, hvalid, hok⟩ | ⟨-, hp, hparse⟩ |
      ⟨_, _, _, _, hp, -, -, ⟨-, hparse⟩ | ⟨s', hparse, hcurrent, -, hvalue, -⟩⟩
    · refine iff_of_true ⟨1, ?_⟩ hend
      rw [hparse, Option.bind_some, collect_invalid hvalid, hok, hstatus]
    · refine iff_of_false ?_ hp.not_ge
      rintro ⟨rounds, hcollect⟩
      rw [hparse] at hcollect
      cases (eq_nil_of_collect_invalid (by simp [Iter.valid, Iter.corruptionError]) hcollect).2
    · refine iff_of_false ?_ hp.not_ge
      rintro ⟨rounds, hcollect⟩
      rw [hparse] at hcollect
      cases hcollect
    · refine iff_of_false ?_ hp.not_ge
      rintro ⟨rounds, hcollect⟩
      rw [hparse] at hcollect
      have hvalid : it.valid s' = true := by simp [Iter.valid, hcurrent, hp]
      cases rounds with
      | zero => cases hcollect
      | succ rounds =>
        obtain ⟨-, rest, hcons, -⟩ := (collect_valid hvalid hvalue).mp hcollect
        cases hcons
  | cons e entries ih =>
    rcases parseNextKey_cases it hnext with ⟨hend, s', hparse, hvalid, hok⟩ | ⟨hbad, hp, hparse⟩ |
      ⟨shared, nonShared, valueLength, rest, hp, hdecode, hshared, ⟨hread, hparse⟩ |
        ⟨s', hparse, hcurrent, hkey, hvalue, hok⟩⟩
    · refine iff_of_false ?_ ?_
      · rintro ⟨rounds, hcollect⟩
        rw [hparse] at hcollect
        cases (eq_nil_of_collect_invalid hvalid hcollect).1
      · rw [(hempty p).mpr hend]
        intro h
        obtain ⟨_, _, _, _, hdecode, -⟩ := h.cons_inv
        cases hdecode
    · refine iff_of_false ?_ ?_
      · rintro ⟨rounds, hcollect⟩
        rw [hparse] at hcollect
        cases (eq_nil_of_collect_invalid (by simp [Iter.valid, Iter.corruptionError]) hcollect).1
      · intro h
        obtain ⟨_, _, _, _, hdecode, hshared, -⟩ := h.cons_inv
        exact absurd (hbad _ _ _ _ hdecode) (Nat.not_lt.mpr hshared)
    · rw [encodes_cons_iff hrestarts hlt hp hdecode hshared, hparse]
      refine iff_of_false ?_ ?_
      · rintro ⟨rounds, hcollect⟩
        cases hcollect
      · rintro ⟨hread', -⟩
        omega
    · rw [encodes_cons_iff hrestarts hlt hp hdecode hshared, ← hkey, hparse]
      have hvalid : it.valid s' = true := by simp [Iter.valid, hcurrent, hp]
      constructor
      · rintro ⟨rounds, hcollect⟩
        cases rounds with
        | zero => cases hcollect
        | succ rounds =>
          obtain ⟨hread, _, hcons, hcollect⟩ := (collect_valid hvalid hvalue).mp hcollect
          cases hcons
          have hnext' : Iter.nextEntryOffset s' =
              some (it.restarts - rest.length + nonShared + valueLength) := by
            rw [Iter.nextEntryOffset, hvalue, Option.map_some, Nat.mod_eq_of_lt (by omega)]
          refine ⟨hread, rfl, ?_⟩
          exact (ih hnext' (hok.trans hstatus)).mp ⟨rounds, hcollect⟩
      · rintro ⟨hread, rfl, hencodes⟩
        have hnext' : Iter.nextEntryOffset s' =
            some (it.restarts - rest.length + nonShared + valueLength) := by
          rw [Iter.nextEntryOffset, hvalue, Option.map_some, Nat.mod_eq_of_lt (by omega)]
        obtain ⟨rounds, hcollect⟩ := (ih hnext' (hok.trans hstatus)).mpr hencodes
        exact ⟨rounds + 1, (collect_valid hvalid hvalue).mpr ⟨hread, entries, rfl, hcollect⟩⟩

end Collect

section Built

variable {interval : ℕ} {entries : List Entry}

/-- The word after the first restart point: the second one, or the number of restarts. -/
def secondWord (interval : ℕ) (entries : List Entry) : ℕ :=
  if interval < entries.length then offset interval entries interval else 1

/-- The iterator that a block over the built bytes has. -/
def readIter (interval : ℕ) (entries : List Entry) : Iter :=
  ⟨blockBytes interval entries, (entriesBytes interval entries).length + 3, numRestarts interval entries⟩

theorem length_blockBytes : (blockBytes interval entries).length =
    (entriesBytes interval entries).length + 4 * numRestarts interval entries + 4 := by
  have hflat : ∀ l : List ℕ, (l.flatMap encodeFixed32).length = 4 * l.length := by
    intro l
    induction l with
    | nil => rfl
    | cons a l ih =>
      rw [flatMap_cons, length_append, ih, encodeFixed32, length_encodeFixed, length_cons]
      omega
  rw [blockBytes, length_append, length_append, hflat, length_restartPoints, encodeFixed32,
    length_encodeFixed, Nat.add_assoc]

theorem countWord_blockBytes (hsize : (blockBytes interval entries).length < 2 ^ 32) :
    countWord (blockBytes interval entries) = numRestarts interval entries := by
  have hlength := @length_blockBytes interval entries
  have hbytes : blockBytes interval entries =
      (entriesBytes interval entries ++ (restartPoints interval entries).flatMap encodeFixed32) ++
        (encodeFixed32 (numRestarts interval entries) ++ []) := by
    rw [blockBytes, append_nil, append_assoc]
  have hoffset : (blockBytes interval entries).length - 4 =
      (entriesBytes interval entries ++ (restartPoints interval entries).flatMap encodeFixed32).length := by
    rw [hbytes, length_append, append_nil, encodeFixed32, length_encodeFixed, Nat.add_sub_cancel]
  rw [countWord, hoffset, hbytes]
  exact decodeFixed32_append (by omega)

/-- The restart offset is three too large. -/
theorem newIterator_built (hsize : (blockBytes interval entries).length < 2 ^ 32) :
    ((Block.new (blockBytes interval entries)).bind Contents.newIterator) =
      some (.inr (readIter interval entries)) := by
  have hlength := @length_blockBytes interval entries
  have hpos : 1 ≤ numRestarts interval entries := Nat.succ_pos _
  have hoffset : (blockBytes interval entries).length - 1 - 4 * numRestarts interval entries =
      (entriesBytes interval entries).length + 3 := by omega
  rw [newIterator_eq (by omega) hsize, countWord_blockBytes hsize, Nat.mod_eq_of_lt (by omega), hoffset,
    if_neg (by omega)]
  rfl

theorem blockBytes_eq (hinterval : 1 ≤ interval) : ∃ rest, blockBytes interval entries =
    entriesBytes interval entries ++
      (encodeFixed32 0 ++ (encodeFixed32 (secondWord interval entries) ++ rest)) := by
  have hzero : offset interval entries 0 = 0 := rfl
  by_cases hlt : interval < entries.length
  · obtain ⟨n, hn⟩ : ∃ n, numRestarts interval entries = n + 2 := by
      have hdiv : 1 ≤ (entries.length - 1) / interval := (Nat.one_le_div_iff hinterval).mpr (by omega)
      exact ⟨(entries.length - 1) / interval - 1, by unfold BlockBuilder.numRestarts; omega⟩
    refine ⟨((List.range n).map fun j ↦ offset interval entries ((j + 2) * interval)).flatMap encodeFixed32 ++
      encodeFixed32 (numRestarts interval entries), ?_⟩
    have hpoints : restartPoints interval entries = 0 :: offset interval entries interval ::
        (List.range n).map fun j ↦ offset interval entries ((j + 2) * interval) := by
      rw [restartPoints, hn, range_succ_eq_map, range_succ_eq_map]
      simp [hzero, Function.comp_def]
    rw [blockBytes, hpoints, secondWord, if_pos hlt, flatMap_cons, flatMap_cons]
    simp only [append_assoc]
  · have hone : numRestarts interval entries = 1 := by
      rw [BlockBuilder.numRestarts, Nat.div_eq_of_lt (by omega)]
    refine ⟨[], ?_⟩
    rw [blockBytes, restartPoints, hone, secondWord, if_neg hlt, append_nil]
    simp [hzero]

theorem getRestartPoint_readIter (hinterval : 1 ≤ interval) :
    (readIter interval entries).getRestartPoint 0 = some (256 * (secondWord interval entries % 2 ^ 24)) := by
  obtain ⟨rest, hbytes⟩ := @blockBytes_eq interval entries hinterval
  have hthree : decodeFixed (encodeFixed 3 (secondWord interval entries)) =
      secondWord interval entries % 2 ^ 24 := by
    simp only [encodeFixed, decodeFixed, UInt8.toNat_ofNat']
    omega
  have hword : ∀ w, (encodeFixed32 w ++ rest).take 3 = encodeFixed 3 w := fun w ↦ rfl
  have hpos : 0 < (readIter interval entries).numRestarts := Nat.succ_pos _
  rw [Iter.getRestartPoint, if_pos hpos, Option.some_inj, ← hthree, ← hword]
  change decodeFixed32 (blockBytes interval entries) ((entriesBytes interval entries).length + 3 + 0 * 4) = _
  rw [decodeFixed32, hbytes, Nat.zero_mul, Nat.add_zero, drop_length_add_append]
  exact Nat.zero_add _

theorem bytesFrom_readIter (hinterval : 1 ≤ interval) (p : ℕ) :
    (readIter interval entries).bytesFrom p = (entriesBytes interval entries ++ [0, 0, 0]).drop p := by
  obtain ⟨rest, hbytes⟩ := @blockBytes_eq interval entries hinterval
  change ((blockBytes interval entries).take ((entriesBytes interval entries).length + 3)).drop p = _
  rw [hbytes, take_length_add_append]
  rfl

theorem readBlock_iff (hinterval : 1 ≤ interval) (hsize : (blockBytes interval entries).length < 2 ^ 32) :
    (∃ rounds, readBlock (blockBytes interval entries) rounds = some (entries, .ok)) ↔
      Encodes [] ((entriesBytes interval entries ++ [0, 0, 0]).drop (256 * (secondWord interval entries % 2 ^ 24)))
        entries := by
  have hlength := @length_blockBytes interval entries
  have hrestarts : (readIter interval entries).restarts ≤ (readIter interval entries).data.length := by
    have hpos : 1 ≤ numRestarts interval entries := Nat.succ_pos _
    change (entriesBytes interval entries).length + 3 ≤ (blockBytes interval entries).length
    omega
  have hlt : 256 * (secondWord interval entries % 2 ^ 24) < 2 ^ 32 := by omega
  -- the state that `SeekToRestartPoint` leaves
  let s : State := ⟨(readIter interval entries).restarts, 0, [],
    some (256 * (secondWord interval entries % 2 ^ 24), 0), .ok⟩
  have hread : ∀ rounds, readBlock (blockBytes interval entries) rounds =
      ((readIter interval entries).parseNextKey s).bind fun r ↦
        collect (readIter interval entries) rounds r.2 := by
    intro rounds
    obtain ⟨block, hblock, hiter⟩ := Option.bind_eq_some_iff.mp (newIterator_built hsize)
    have hnew : (readIter interval entries).new = some ⟨(readIter interval entries).restarts,
        (readIter interval entries).numRestarts, [], none, .ok⟩ := if_pos (Nat.succ_pos _)
    simp only [readBlock, hblock, hiter, hnew, Option.bind_eq_bind, Option.bind_some, Iter.seekToFirst,
      Iter.seekToRestartPoint, getRestartPoint_readIter hinterval, Option.pure_def, Option.bind_assoc]
    rfl
  have hnext : Iter.nextEntryOffset s = some (256 * (secondWord interval entries % 2 ^ 24)) := by
    rw [Iter.nextEntryOffset, Option.map_some, Nat.add_zero, Nat.mod_eq_of_lt hlt]
  simp only [hread]
  rw [collect_iff hrestarts hsize hnext rfl, bytesFrom_readIter hinterval]

/-- With one restart point only an empty block is read back: there are too few bytes from offset 256 on. -/
theorem encodes_iff_of_le (hle : entries.length ≤ interval) :
    Encodes [] ((entriesBytes interval entries ++ [0, 0, 0]).drop 256) entries ↔ entries = [] := by
  constructor
  · intro h
    have hsize : (entriesBytes interval entries).length ≤
        ((entriesBytes interval entries ++ [0, 0, 0]).drop 256).length := h.length_le (.inr rfl) (by omega)
    by_contra hnil
    have hlength := @length_le_entriesBytes interval entries
    have hpos := length_pos_iff.mpr hnil
    rw [length_drop, length_append] at hsize
    simp only [length_cons, length_nil] at hsize
    omega
  · rintro rfl
    exact .nil

variable {τ : Type*} [LinearOrder τ] {rank : List UInt8 → τ}

/-- A built block is read back exactly when it has no entries, or it has a second restart point and the
bytes from 256 times its offset on happen to give all entries, up to three bytes into the restart array. -/
theorem block_round_trip_iff (hinterval : 1 ≤ interval)
    (hsorted : entries.Pairwise fun a b ↦ rank a.1 < rank b.1)
    (hsize : (blockBytes interval entries).length < 2 ^ 32) :
    (∃ contents, build rank interval entries = some contents ∧
        ∃ rounds, readBlock contents rounds = some (entries, .ok)) ↔
      entries = [] ∨ interval < entries.length ∧
        Encodes [] ((entriesBytes interval entries ++ [0, 0, 0]).drop
          (256 * (offset interval entries interval % 2 ^ 24))) entries := by
  have hlength := @length_blockBytes interval entries
  have hbuild : build rank interval entries = some (blockBytes interval entries) :=
    build_eq hinterval hsorted (by omega)
  have hread := readBlock_iff hinterval hsize
  rw [hbuild]
  simp only [Option.some_inj, exists_eq_left']
  rw [hread, secondWord]
  by_cases hlt : interval < entries.length
  · have hnil : entries ≠ [] := length_pos_iff.mp (by omega)
    simp [hlt, hnil]
  · have hone : 256 * (1 % 2 ^ 24) = 256 := rfl
    rw [if_neg hlt, hone, encodes_iff_of_le (Nat.not_lt.mp hlt)]
    simp [hlt]

theorem block_round_trip_iff_of_three : (∃ contents, build List.length 16 [] = some contents ∧
      ∃ rounds, readBlock contents rounds = some ([], .ok)) ∧
    ¬∃ contents, build List.length 2 threeEntries = some contents ∧
      ∃ rounds, readBlock contents rounds = some (threeEntries, .ok) := by
  refine ⟨(@block_round_trip_iff 16 [] ℕ _ List.length (by decide) (by decide) (by decide)).mpr
    (.inl rfl), ?_⟩
  rw [@block_round_trip_iff 2 threeEntries ℕ _ List.length (by decide) (by decide) (by decide)]
  -- The second restart offset is 9, and 256 * 9 lies behind the block.
  have hbehind : (entriesBytes 2 threeEntries ++ [0, 0, 0]).drop
      (256 * (offset 2 threeEntries 2 % 2 ^ 24)) = [] := by
    decide
  rw [hbehind]
  rintro (hnil | ⟨-, hencodes⟩)
  · cases hnil
  · have hlength := @Encodes.length_le 3 0 _ _ _ hencodes (.inr rfl) le_rfl
    revert hlength
    decide

/-- Three entries are read back as none. -/
theorem block_round_trip_loses_threeEntries :
    ∃ contents, build List.length 2 threeEntries = some contents ∧ readBlock contents 1 = some ([], .ok) :=
  ⟨blockBytes 2 threeEntries, by decide +kernel⟩

end Built

end LevelDB.Table.BlockRoundTrip
