import LevelDB.Table.BlockRoundTrip

/-!
# Blocks with arbitrary contents

What `Block` and `Block::Iter` check of bytes that may be corrupt.  `DecodeEntry` compares the sum of two
lengths with the bytes that are left, but as a `uint32_t`: where the sum wraps around, the entry reaches
beyond the entry area (`entries_in_bounds_iff`).  The constructor of `Block` takes the offset of the restart
array modulo `2 ^ 32`, which hides a count of more than `2 ^ 30`, and reads the count of contents that its
own assertion takes to be too short (`restart_array_checked_iff`).
-/

namespace LevelDB.Table.BlockBounds

open Util.Coding Block BlockCursor BlockRoundTrip

section Restarts

variable {data : List UInt8}

/-- Constructing a block with these contents and calling `NewIterator` violates no assertion, and the restart
array of an iterator lies within the contents. -/
def RestartsChecked (data : List UInt8) : Prop :=
  ∃ result, (Block.new data).bind Contents.newIterator = some result ∧
    ∀ it, result = .inr it → it.new.isSome ∧ it.data = data ∧
      it.restarts + 4 * it.numRestarts ≤ data.length ∧
      ∀ index < it.numRestarts, it.restarts + index * 4 + 4 ≤ data.length

/-- The restart array is checked unless the contents have 4 to 7 bytes, or count more than `2 ^ 30` restart
points whose bytes fit into the contents modulo `2 ^ 32`. -/
theorem restart_array_checked_iff (hsize : data.length < 2 ^ 32) :
    RestartsChecked data ↔ (data.length < 4 ∨ 8 ≤ data.length) ∧
      (8 ≤ data.length → countWord data < 2 ^ 30 ∨ countWord data % 2 ^ 30 = 0 ∨
        data.length ≤ 4 * (countWord data % 2 ^ 30)) := by
  constructor
  · rintro ⟨result, hresult, hchecked⟩
    constructor
    · by_contra hlength
      rw [newIterator_of_lt_eight (by omega) (by omega)] at hresult
      cases hresult
    · intro hlength
      by_contra hbad
      rw [newIterator_eq hlength hsize, if_neg (by omega), Option.some.injEq] at hresult
      obtain ⟨-, -, hle, -⟩ := hchecked _ hresult.symm
      dsimp only at hle
      omega
  · rintro ⟨hlength, hcount⟩
    rcases hlength with hlength | hlength
    · refine ⟨_, newIterator_of_lt_four hlength, ?_⟩
      intro it hit
      cases hit
    · refine ⟨_, newIterator_eq hlength hsize, ?_⟩
      intro it hit
      rw [← Option.some.injEq, ← newIterator_eq hlength hsize] at hit
      obtain ⟨hpos, hlt, rfl⟩ := newIterator_eq_inr hsize hit
      have hfits : countWord data < 2 ^ 30 := by
        have := hcount hlength
        omega
      rw [Nat.mod_eq_of_lt hfits] at *
      refine ⟨?_, rfl, by dsimp only; omega, fun index hindex ↦ by dsimp only at hindex ⊢; omega⟩
      rw [Iter.new, if_pos (by dsimp only; omega)]
      rfl

end Restarts

theorem restart_array_checked_of_one_restart : RestartsChecked [0, 0, 0, 0, 0, 1, 0, 0, 0] :=
  (restart_array_checked_iff (by decide)).mpr (by decide)

/-- Eight bytes that count `2 ^ 30 + 1` restart points. -/
def manyRestarts : List UInt8 := [0, 0, 0, 0, 1, 0, 0, 0x40]

/-- Contents of four bytes, and an iterator whose third restart point is outside of the contents. -/
theorem restart_array_not_checked : Block.new [0, 0, 0, 0] = none ∧ ¬RestartsChecked [0, 0, 0, 0] ∧
      (∃ it, (Block.new manyRestarts).bind Contents.newIterator = some (.inr it) ∧
        2 < it.numRestarts ∧ manyRestarts.length < it.restarts + 2 * 4) ∧ ¬RestartsChecked manyRestarts := by
  refine ⟨rfl, ?_, ⟨_, rfl, by decide, by decide⟩, ?_⟩
  · rintro ⟨result, hresult, -⟩
    cases hresult
  · rintro ⟨result, hresult, hchecked⟩
    cases hresult
    obtain ⟨-, -, hle, -⟩ := hchecked _ rfl
    exact absurd hle (by decide)

section Entries

variable {it : Iter} {input : List UInt8} {p : ℕ} {e : ℕ × ℕ × ℕ × List UInt8}

/-- The sum of the lengths of key and value does not wrap around, or wraps around to more than the bytes that
are left. -/
def SumFits (e : ℕ × ℕ × ℕ × List UInt8) : Prop :=
  e.2.1 + e.2.2.1 < 2 ^ 32 ∨ e.2.2.2.length < (e.2.1 + e.2.2.1) % 2 ^ 32

instance (e : ℕ × ℕ × ℕ × List UInt8) : Decidable (SumFits e) := inferInstanceAs (Decidable (_ ∨ _))

/-- Lengths that fit are refused or leave room for key and value, and others do neither. -/
theorem sumFits_iff (hsize : input.length < 2 ^ 32) (hread : readLengths input = some e) :
    SumFits e ↔ (decodeEntry input = some e → e.2.1 + e.2.2.1 ≤ e.2.2.2.length) := by
  obtain ⟨shared, nonShared, valueLength, rest⟩ := e
  obtain ⟨used, rfl, -, -⟩ := readLengths_spec hread
  rw [List.length_append] at hsize
  rw [decodeEntry_eq_some_iff, SumFits]
  dsimp only
  rw [Nat.mod_eq_of_lt (by omega : rest.length < 2 ^ 32)]
  constructor
  · rintro (hlt | hlt) ⟨-, hle⟩
    · rwa [Nat.mod_eq_of_lt hlt] at hle
    · omega
  · intro h
    by_contra hnot
    rw [not_or, not_lt, not_lt] at hnot
    have := h ⟨hread, hnot.2⟩
    omega

theorem decodeEntry_bounds_iff (hsize : input.length < 2 ^ 32) :
    (∀ e, decodeEntry input = some e → e.2.2.2 <:+ input ∧ e.2.1 + e.2.2.1 ≤ e.2.2.2.length) ↔
      ∀ e ∈ readLengths input, SumFits e := by
  constructor
  · intro h e hread
    exact (sumFits_iff hsize hread).mpr fun hdecode ↦ (h e hdecode).2
  · intro h e hdecode
    have hread := (decodeEntry_eq_some_iff.mp hdecode).1
    obtain ⟨used, hused, -, -⟩ := readLengths_spec hread
    exact ⟨⟨used, hused.symm⟩, (sumFits_iff hsize hread).mp (h e hread) hdecode⟩

/-- The ranges of the contents, by offset and size, from which `ParseNextKey` takes the end of a key and the
value. -/
def parseTakes (it : Iter) (s : State) : List (ℕ × ℕ) :=
  match Iter.nextEntryOffset s with
  | none => []
  | some current =>
    if it.restarts ≤ current then []
    else
      match decodeEntry (it.bytesFrom current) with
      | none => []
      | some (shared, nonShared, valueLength, rest) =>
        if s.key.length < shared then []
        else
          let p := it.restarts - rest.length
          [(p, nonShared), (p + nonShared, valueLength)]

section Seek

variable {τ : Type*} [LinearOrder τ] (rank : List UInt8 → τ)

/-- The ranges of the keys that the binary search of `Seek` compares with the target. -/
def searchTakes (it : Iter) (target : List UInt8) : ℕ → ℕ → ℕ → List (ℕ × ℕ)
  | 0, _, _ => []
  | rounds + 1, left, right =>
    if left < right then
      let mid := (left + right + 1) / 2
      match it.getRestartPoint mid with
      | none => []
      | some regionOffset =>
        match decodeEntry (it.bytesFrom regionOffset) with
        | none => []
        | some (shared, nonShared, _, rest) =>
          if shared ≠ 0 then []
          else
            let p := it.restarts - rest.length
            (p, nonShared) :: if p + nonShared ≤ it.data.length then
                if rank ((it.data.drop p).take nonShared) < rank target then
                  searchTakes it target rounds mid right
                else searchTakes it target rounds left (mid - 1)
              else []
    else []

/-- The ranges that the linear search of `Seek` takes. -/
def scanTakes (it : Iter) (target : List UInt8) : ℕ → State → List (ℕ × ℕ)
  | 0, _ => []
  | rounds + 1, s =>
    parseTakes it s ++ match it.parseNextKey s with
      | some (true, s) => if rank target ≤ rank s.key then [] else scanTakes it target rounds s
      | _ => []

def seekTakes (it : Iter) (target : List UInt8) (s : State) : List (ℕ × ℕ) :=
  searchTakes rank it target it.rounds 0 (it.numRestarts - 1) ++
    match it.searchRestart rank target it.rounds 0 (it.numRestarts - 1) with
    | some (some _) => scanTakes rank it target it.rounds s
    | _ => []

end Seek

def InArea (it : Iter) (takes : List (ℕ × ℕ)) : Prop := ∀ r ∈ takes, r.1 + r.2 ≤ it.restarts

@[simp]
theorem inArea_nil : InArea it [] := List.forall_mem_nil _

theorem inArea_cons {r : ℕ × ℕ} {takes : List (ℕ × ℕ)} :
    InArea it (r :: takes) ↔ r.1 + r.2 ≤ it.restarts ∧ InArea it takes := List.forall_mem_cons

theorem inArea_append {takes takes' : List (ℕ × ℕ)} :
    InArea it (takes ++ takes') ↔ InArea it takes ∧ InArea it takes' := List.forall_mem_append

theorem parseNextKey_eq_takes {s s' : State} (h : it.parseNextKey s = some (true, s')) :
    ∃ shared key value, parseTakes it s = [key, value] ∧
      s'.key = s.key.take shared ++ (it.data.drop key.1).take key.2 ∧ s'.value = some value := by
  obtain ⟨current, hcurrent, h⟩ := Option.bind_eq_some_iff.mp h
  rw [parseTakes, hcurrent]
  dsimp only at h ⊢
  split at h
  · cases h
  · rename_i hlt
    rw [if_neg hlt]
    rcases hdecode : decodeEntry (it.bytesFrom current) with _ | ⟨shared, nonShared, valueLength, rest⟩
    · simp [hdecode] at h
    · simp only [hdecode] at h ⊢
      split at h
      · cases h
      · rename_i hshared
        rw [if_neg hshared]
        split at h
        · cases h
          exact ⟨shared, _, _, rfl, rfl, rfl⟩
        · cases h

def SumsFit (it : Iter) : Prop := ∀ p < it.restarts, ∀ e ∈ readLengths (it.bytesFrom p), SumFits e

instance (it : Iter) : Decidable (SumsFit it) :=
  inferInstanceAs (Decidable (∀ p < it.restarts, ∀ e ∈ readLengths (it.bytesFrom p), SumFits e))

section Area

variable (hrestarts : it.restarts ≤ it.data.length) (hsize : it.data.length < 2 ^ 32)
include hrestarts hsize

theorem inArea_iff_sumFits (hdecode : decodeEntry (it.bytesFrom p) = some e) :
    InArea it [(it.restarts - e.2.2.2.length, e.2.1), (it.restarts - e.2.2.2.length + e.2.1, e.2.2.1)] ↔
      SumFits e := by
  obtain ⟨shared, nonShared, valueLength, rest⟩ := e
  have hlength := length_bytesFrom hrestarts p
  have hread := (decodeEntry_eq_some_iff.mp hdecode).1
  rw [sumFits_iff (by omega) hread]
  obtain ⟨used, hused, -, -⟩ := readLengths_spec hread
  rw [hused, List.length_append] at hlength
  simp only [inArea_cons, inArea_nil, and_true, hdecode, forall_const]
  omega

theorem parseTakes_inArea_iff (s : State) :
    InArea it (parseTakes it s) ↔ ∀ p ∈ Iter.nextEntryOffset s, p < it.restarts →
      ∀ e ∈ readLengths (it.bytesFrom p), e.1 ≤ s.key.length → SumFits e := by
  unfold parseTakes
  cases hnext : Iter.nextEntryOffset s with
  | none => simp
  | some p =>
    by_cases hp : it.restarts ≤ p
    · simp only [if_pos hp, inArea_nil, Option.mem_def, Option.some.injEq, true_iff]
      intro p' heq hlt
      omega
    · have hlength := length_bytesFrom hrestarts p
      simp only [if_neg hp, Option.mem_def, Option.some.injEq, forall_eq', not_le.mp hp, forall_const]
      cases hdecode : decodeEntry (it.bytesFrom p) with
      | none =>
        -- lengths that are refused fit
        refine iff_of_true inArea_nil fun e hread _ ↦ (sumFits_iff (by omega) hread).mpr fun h ↦ ?_
        rw [hdecode] at h
        cases h
      | some e =>
        rw [(decodeEntry_eq_some_iff.mp hdecode).1]
        simp only [Option.some.injEq, forall_eq']
        by_cases hshared : s.key.length < e.1
        · simp [if_pos hshared, not_le.mpr hshared]
        · simp only [if_neg hshared, not_lt.mp hshared, forall_const]
          exact inArea_iff_sumFits hrestarts hsize hdecode

theorem SumsFit.parseTakes (h : SumsFit it) (s : State) : InArea it (parseTakes it s) :=
  (parseTakes_inArea_iff hrestarts hsize s).mpr fun p _ hp e hread _ ↦ h p hp e hread

theorem SumsFit.searchTakes (h : SumsFit it) {τ : Type*} [LinearOrder τ] (rank : List UInt8 → τ)
    (target : List UInt8) (rounds left right : ℕ) :
    InArea it (searchTakes rank it target rounds left right) := by
  induction rounds generalizing left right with
  | zero => exact inArea_nil
  | succ rounds ih =>
    unfold BlockBounds.searchTakes
    dsimp only
    split
    · split
      · exact inArea_nil
      · rename_i regionOffset hpoint
        split
        · exact inArea_nil
        · rename_i shared nonShared valueLength rest hdecode
          split
          · exact inArea_nil
          · have hread := (decodeEntry_eq_some_iff.mp hdecode).1
            obtain ⟨used, hused, hthree, -⟩ := readLengths_spec hread
            have hlength := length_bytesFrom hrestarts regionOffset
            rw [hused, List.length_append] at hlength
            have harea := (inArea_iff_sumFits hrestarts hsize hdecode).mpr
              (h regionOffset (by omega) _ hread)
            refine inArea_cons.mpr ⟨(inArea_cons.mp harea).1, ?_⟩
            split
            · split
              · exact ih _ _
              · exact ih _ _
            · exact inArea_nil
    · exact inArea_nil

theorem SumsFit.scanTakes (h : SumsFit it) {τ : Type*} [LinearOrder τ] (rank : List UInt8 → τ)
    (target : List UInt8) (rounds : ℕ) (s : State) : InArea it (scanTakes rank it target rounds s) := by
  induction rounds generalizing s with
  | zero => exact inArea_nil
  | succ rounds ih =>
    unfold BlockBounds.scanTakes
    refine inArea_append.mpr ⟨h.parseTakes hrestarts hsize s, ?_⟩
    split
    · split
      · exact inArea_nil
      · exact ih _
    · exact inArea_nil

theorem SumsFit.seekTakes (h : SumsFit it) {τ : Type*} [LinearOrder τ] (rank : List UInt8 → τ)
    (target : List UInt8) (s : State) : InArea it (seekTakes rank it target s) := by
  refine inArea_append.mpr ⟨h.searchTakes hrestarts hsize rank target _ _ _, ?_⟩
  split
  · exact h.scanTakes hrestarts hsize rank target _ s
  · exact inArea_nil

/-- A state before the offset, with a key that is long enough, parses the entry there. -/
theorem sumsFit_of_parseTakes (h : ∀ s, InArea it (parseTakes it s)) : SumsFit it := by
  intro p hp e hread
  let s : State := ⟨it.restarts, it.numRestarts, List.replicate e.1 0, some (p, 0), .ok⟩
  have hnext : Iter.nextEntryOffset s = some p := congrArg some (Nat.mod_eq_of_lt (by omega))
  exact (parseTakes_inArea_iff hrestarts hsize s).mp (h s) p hnext hp e hread (by simp [s])

end Area

end Entries

/-- `DecodeEntry` stays in its input exactly when the lengths there do not wrap around to a sum that fits.
`ParseNextKey` takes key and value from the entry area exactly when so do the lengths of its entry, and every
call of `ParseNextKey` and `Seek` exactly when so do the lengths at every offset of the entry area. -/
theorem entries_in_bounds_iff {τ : Type*} [LinearOrder τ] (rank : List UInt8 → τ) :
    (∀ input : List UInt8, input.length < 2 ^ 32 → ((∀ shared nonShared valueLength rest,
        decodeEntry input = some (shared, nonShared, valueLength, rest) →
          rest <:+ input ∧ nonShared + valueLength ≤ rest.length) ↔
        ∀ e ∈ readLengths input, SumFits e)) ∧
    ∀ (data : List UInt8) (it : Iter), data.length < 2 ^ 32 →
      (Block.new data).bind Contents.newIterator = some (.inr it) →
        (∀ s s', it.parseNextKey s = some (true, s') → ∃ shared key value, parseTakes it s = [key, value] ∧
            s'.key = s.key.take shared ++ (it.data.drop key.1).take key.2 ∧ s'.value = some value) ∧
        (∀ s, InArea it (parseTakes it s) ↔ ∀ p ∈ Iter.nextEntryOffset s, p < it.restarts →
          ∀ e ∈ readLengths (it.bytesFrom p), e.1 ≤ s.key.length → SumFits e) ∧
        (((∀ s, InArea it (parseTakes it s)) ∧ ∀ target s, InArea it (seekTakes rank it target s)) ↔
          ∀ p < it.restarts, ∀ e ∈ readLengths (it.bytesFrom p), SumFits e) := by
  constructor
  · intro input hsize
    rw [← decodeEntry_bounds_iff hsize]
    exact ⟨fun h e ↦ h e.1 e.2.1 e.2.2.1 e.2.2.2, fun h _ _ _ _ ↦ h _⟩
  · intro data it hsize hit
    obtain ⟨-, -, rfl⟩ := newIterator_eq_inr hsize hit
    have hrestarts : data.length - 1 - 4 * (countWord data % 2 ^ 30) ≤ data.length := by omega
    refine ⟨fun _ _ ↦ parseNextKey_eq_takes, parseTakes_inArea_iff hrestarts hsize, ?_⟩
    constructor
    · intro h
      exact sumsFit_of_parseTakes hrestarts hsize h.1
    · intro h
      exact ⟨SumsFit.parseTakes hrestarts hsize h, SumsFit.seekTakes hrestarts hsize h rank⟩

/-- One entry with a key and a value of one byte, and two restart points. -/
def oneEntry : List UInt8 := [0, 1, 1, 97, 98, 0, 0, 0, 0, 0, 2, 0, 0, 0]

theorem entries_in_bounds_of_oneEntry :
    ∃ it, (Block.new oneEntry).bind Contents.newIterator = some (.inr it) ∧
      (∀ s, InArea it (parseTakes it s)) ∧ ∀ target s, InArea it (seekTakes List.length it target s) :=
  ⟨_, rfl, ((entries_in_bounds_iff List.length).2 oneEntry _ (by decide) rfl).2.2.mpr
    (by decide : SumsFit _)⟩

/-- An entry with `2 ^ 32 - 1` bytes of the key and one byte of the value, and two restart points. -/
def wrappedEntry : List UInt8 := [0, 0xff, 0xff, 0xff, 0xff, 0x0f, 1, 0, 0, 0, 0, 0, 2, 0, 0, 0]

/-- `DecodeEntry` succeeds where no byte is left, and `SeekToFirst` reads beyond the contents. -/
theorem entry_out_of_bounds : decodeEntry (wrappedEntry.take 7) = some (0, 2 ^ 32 - 1, 1, []) ∧
      ¬2 ^ 32 - 1 + 1 ≤ ([] : List UInt8).length ∧
      ∃ it, (Block.new wrappedEntry).bind Contents.newIterator = some (.inr it) ∧
        it.bytesFrom 0 = wrappedEntry.take 7 ∧ it.new.bind it.seekToFirst = none ∧
        (it.new.bind (it.seekToRestartPoint 0)).map (parseTakes it) =
          some [(it.restarts, 2 ^ 32 - 1), (it.restarts + (2 ^ 32 - 1), 1)] :=
  ⟨by decide +kernel, by decide, _, rfl, rfl, by decide +kernel, by decide +kernel⟩

end LevelDB.Table.BlockBounds
