import LevelDB.Table.BlockCursor

/-!
# Seek in blocks

`Block::Iter::Seek` looks for a restart point, but does not go there: its linear search resumes after the
entry that was parsed last.  `Resumes` says which entry that is, in every state that a sequence of calls
can leave.
-/

namespace LevelDB.Table.BlockSeek

open Library Util.Coding Block BlockBuilder BlockCursor List

section Layout

variable {it : Iter} {entries : List Entry} {offset restartEntry : ℕ → ℕ}

/-- The next entry to be parsed is the one with index `j`; some entry was parsed before it, if there are
entries at all.  The restart index is in order, or it is the one of an invalid iterator. -/
structure Resumes (it : Iter) (entries : List Entry) (offset restartEntry : ℕ → ℕ) (s : State) (j : ℕ) : Prop where
  le : j ≤ entries.length
  pos : 0 < j ∨ entries = []
  next : Iter.nextEntryOffset s = some (offset j)
  key : s.key = prevKey entries j
  index : s.restartIndex = it.numRestarts ∨
    s.restartIndex < it.numRestarts ∧ restartEntry s.restartIndex ≤ j
  status : s.status = .ok

/-- The states that calls can leave. -/
inductive Reached (it : Iter) (entries : List Entry) (offset restartEntry : ℕ → ℕ) : State → Prop
  | fresh : Reached it entries offset restartEntry ⟨it.restarts, it.numRestarts, [], none, .ok⟩
  | entry {s : State} {i : ℕ} (hat : At it entries offset s i)
      (hresumes : Resumes it entries offset restartEntry s (i + 1)) : Reached it entries offset restartEntry s
  | out {s : State} {j : ℕ} (hout : s.current = it.restarts)
      (hresumes : Resumes it entries offset restartEntry s j) : Reached it entries offset restartEntry s

theorem Reached.of_placed (h : Layout it entries offset restartEntry) {s : State} {i : ℕ}
    (hplaced : Placed it entries offset restartEntry s i) : Reached it entries offset restartEntry s := by
  have hat := hplaced.at_entry
  refine .entry hat ⟨hat.lt, .inl (Nat.succ_pos i), hat.nextEntryOffset h, ?_, .inr ?_, hplaced.status⟩
  · rw [prevKey_succ hat.lt, hat.key]
  · exact ⟨hplaced.bracket.lt, hplaced.bracket.le.trans (Nat.le_succ i)⟩

theorem Reached.of_out {s : State} {j : ℕ} (hout : Out it entries offset s j) (hj : 0 < j ∨ entries = []) :
    Reached it entries offset restartEntry s :=
  .out hout.current ⟨hout.le, hj, hout.next, hout.key, .inl hout.restartIndex, hout.status⟩

theorem Reached.status {s : State} (hreached : Reached it entries offset restartEntry s) : s.status = .ok := by
  cases hreached with
  | fresh => rfl
  | entry _ hresumes => exact hresumes.status
  | out _ hresumes => exact hresumes.status

theorem Resumes.parseNextKey (h : Layout it entries offset restartEntry) {s : State} {j : ℕ}
    (hresumes : Resumes it entries offset restartEntry s j) :
    (j = entries.length ∧ ∃ s', it.parseNextKey s = some (false, s') ∧ s'.current = it.restarts ∧
        Resumes it entries offset restartEntry s' j) ∨
      ∃ s', it.parseNextKey s = some (true, s') ∧ At it entries offset s' j ∧
        Resumes it entries offset restartEntry s' (j + 1) := by
  rcases Nat.lt_or_eq_of_le hresumes.le with hlt | rfl
  · right
    obtain ⟨s', hparse, hat, hstatus, hrestart⟩ := parseNextKey_entry h hlt hresumes.next (.inl hresumes.key)
    refine ⟨s', hparse, hat, hlt, .inl (Nat.succ_pos j), hat.nextEntryOffset h, ?_, ?_,
      hstatus.trans hresumes.status⟩
    · rw [prevKey_succ hlt, hat.key]
    · rw [hrestart]
      rcases hresumes.index with hend | ⟨hindex, hle⟩
      · rw [hend]
        exact .inl advanceRestart_end
      · have hbracket := advanceRestart_bracket h hlt.le hindex hle (Nat.le_add_left _ _)
        exact .inr ⟨hbracket.lt, hbracket.le.trans (Nat.le_succ j)⟩
  · left
    refine ⟨rfl, _, parseNextKey_end h hresumes.next, rfl, ?_⟩
    exact ⟨le_rfl, hresumes.pos, hresumes.next, hresumes.key, .inl rfl, hresumes.status⟩

section Rank

variable {τ : Type*} [LinearOrder τ] {rank : List UInt8 → τ} {t : List UInt8}

section

variable (h : Layout it entries offset restartEntry)
include h

theorem searchRestart_spec {rounds left right : ℕ} (hle : left ≤ right) (hright : right < it.numRestarts)
    (hrounds : right < left + rounds) :
    ∃ index, it.searchRestart rank t rounds left right = some (some index) := by
  induction rounds generalizing left right with
  | zero => omega
  | succ rounds ih =>
    rw [Iter.searchRestart]
    by_cases hlt : left < right
    · obtain ⟨mid, hmid⟩ : ∃ mid, (left + right + 1) / 2 = mid + 1 := ⟨(left + right + 1) / 2 - 1, by omega⟩
      have hindex : mid + 1 < it.numRestarts := by omega
      have hentry : restartEntry (mid + 1) < entries.length := by
        have h₁ := h.restartEntry_lt mid hindex
        have h₂ := h.restartEntry_le (mid + 1) hindex
        omega
      obtain ⟨shared, ⟨-, p, hdecode, hstop, -, -⟩, -, -, hzero⟩ := h.stored _ hentry
      have hshared : shared = 0 := hzero _ hindex rfl
      have hread : it.restarts - (it.bytesFrom p).length + (entries[restartEntry (mid + 1)].1.length - shared) ≤
          it.data.length := by
        have hstop_le := h.offset_le (i := restartEntry (mid + 1) + 1) hentry
        have hrestarts := h.restarts_le
        simp only [Iter.bytesFrom, length_drop, length_take]
        omega
      simp only [if_pos hlt, hmid, getRestartPoint_eq h hindex, Option.bind_eq_bind, Option.bind_some, hdecode,
        if_neg (not_not.mpr hshared), if_pos hread]
      split
      · exact ih (by omega) hright (by omega)
      · exact ih (by omega) (by omega) (by omega)
    · rw [if_neg hlt]
      exact ⟨left, rfl⟩

/-- The linear search finds the first entry from `j` on that is not before the target. -/
theorem scan_spec {rounds j : ℕ} {s : State} (hresumes : Resumes it entries offset restartEntry s j)
    (hrounds : entries.length < j + rounds) :
    ∃ s', it.scan rank t rounds s = some s' ∧ Reached it entries offset restartEntry s' ∧
      it.get s' = (entries.drop j).find? fun e ↦ rank t ≤ rank e.1 := by
  induction rounds generalizing s j with
  | zero => exact absurd hresumes.le (by omega)
  | succ rounds ih =>
    rcases hresumes.parseNextKey h with ⟨hend, s', hparse, hcurrent, hresumes'⟩ | ⟨s', hparse, hat, hresumes'⟩
    · refine ⟨s', ?_, .out hcurrent hresumes', ?_⟩
      · simp [Iter.scan, hparse]
      · rw [hend, drop_length]
        simp [Iter.get, Iter.valid, hcurrent]
    · simp only [Iter.scan, hparse, Option.bind_eq_bind, Option.bind_some, if_true, hat.key]
      rw [drop_eq_getElem_cons hat.lt, find?_cons]
      have hlt := hat.lt
      by_cases hle : rank t ≤ rank entries[j].1
      · refine ⟨s', if_pos hle, .entry hat hresumes', ?_⟩
        rw [hat.get_eq h, getElem?_eq_getElem hat.lt, decide_eq_true hle]
      · rw [if_neg hle, decide_eq_false hle]
        exact ih hresumes' (by omega)

variable (rank t) in
/-- `Seek` goes on with its linear search, wherever the restart point is. -/
theorem seek_eq_scan (s : State) : it.seek rank t s = it.scan rank t it.rounds s := by
  have hpos := h.numRestarts_pos
  have hnum := h.numRestarts_le
  have hrounds : it.numRestarts - 1 < 0 + it.rounds := by
    unfold Iter.rounds
    omega
  have hsearch : ∃ index, it.searchRestart rank t it.rounds 0 (it.numRestarts - 1) = some (some index) :=
    searchRestart_spec h (Nat.zero_le _) (Nat.sub_one_lt_of_lt hpos) hrounds
  obtain ⟨index, hindex⟩ := hsearch
  simp only [Iter.seek, hindex, Option.bind_eq_bind, Option.bind_some]

variable (rank t) in
/-- `Seek` looks only at the entries from where it resumes. -/
theorem Resumes.seek {s : State} {j : ℕ} (hresumes : Resumes it entries offset restartEntry s j) :
    ∃ s', it.seek rank t s = some s' ∧ Reached it entries offset restartEntry s' ∧
      it.get s' = (entries.drop j).find? fun e ↦ rank t ≤ rank e.1 := by
  have hlength := h.length_le
  have hrestarts := h.restarts_le
  have hrounds : entries.length < j + it.rounds := by
    unfold Iter.rounds
    omega
  rw [seek_eq_scan rank t h]
  exact scan_spec h hresumes hrounds

/-- Before anything has been parsed there is no place to resume. -/
theorem seek_fresh : it.seek rank t ⟨it.restarts, it.numRestarts, [], none, .ok⟩ = none := by
  rw [seek_eq_scan rank t h]
  rfl

end

theorem not_valid_of_current {s : State} (hcurrent : s.current = it.restarts) : it.valid s = false := by
  simp [Iter.valid, hcurrent]

section

variable (h : Layout it entries offset restartEntry)
include h

theorem prev_eq_none {s : State} (hindex : s.restartIndex = it.numRestarts) : it.prev s = none := by
  have hpos := h.numRestarts_pos
  have hpoint : it.getRestartPoint it.numRestarts = none := if_neg (lt_irrefl _)
  obtain ⟨n, hn⟩ : ∃ n, it.numRestarts = n + 1 := ⟨it.numRestarts - 1, by omega⟩
  rw [hn] at hpoint
  rw [Iter.prev, hindex, hn, Iter.prevRestart, hpoint]
  split
  · rfl
  · rfl

theorem Reached.next {s s' : State} (hreached : Reached it entries offset restartEntry s)
    (hnext : it.next s = some s') : Reached it entries offset restartEntry s' := by
  rw [Iter.next] at hnext
  cases hreached with
  | fresh => simp [Iter.valid] at hnext
  | entry hat hresumes =>
    rw [if_pos (hat.valid h)] at hnext
    rcases hresumes.parseNextKey h with ⟨-, s'', hparse, hcurrent, hresumes'⟩ | ⟨s'', hparse, hat', hresumes'⟩
    · rw [hparse] at hnext
      cases hnext
      exact .out hcurrent hresumes'
    · rw [hparse] at hnext
      cases hnext
      exact .entry hat' hresumes'
  | out hcurrent _ => simp [not_valid_of_current hcurrent] at hnext

theorem Reached.prev {s s' : State} (hreached : Reached it entries offset restartEntry s)
    (hprev : it.prev s = some s') : Reached it entries offset restartEntry s' := by
  cases hreached with
  | fresh => simp [prev_eq_none h] at hprev
  | entry hat hresumes =>
    rcases hresumes.index with hend | ⟨hindex, -⟩
    · simp [prev_eq_none h hend] at hprev
    · obtain ⟨s'', heq, ⟨-, hout⟩ | ⟨-, hplaced⟩⟩ := prev_spec h hat hindex hresumes.status
      · cases heq.symm.trans hprev
        exact .of_out hout (.inl Nat.one_pos)
      · cases heq.symm.trans hprev
        exact .of_placed h hplaced
  | out hcurrent _ => simp [Iter.prev, not_valid_of_current hcurrent] at hprev

/-- Every call leaves a reached state, unless it fails. -/
theorem Reached.apply {s s' : State} (hreached : Reached it entries offset restartEntry s)
    {call : Iterator.Call (List UInt8)} (happly : (it.iterator rank).apply (some s) call = some s') :
    Reached it entries offset restartEntry s' := by
  cases call with
  | seekToFirst =>
    obtain ⟨s'', hseek, ⟨hnil, hout⟩ | ⟨-, hplaced⟩⟩ := seekToFirst_spec h hreached.status
    · cases hseek.symm.trans happly
      exact .of_out hout (.inr hnil)
    · cases hseek.symm.trans happly
      exact .of_placed h hplaced
  | seekToLast =>
    obtain ⟨s'', hseek, ⟨hnil, hout⟩ | ⟨-, hplaced⟩⟩ := seekToLast_spec h hreached.status
    · cases hseek.symm.trans happly
      exact .of_out hout (.inr hnil)
    · cases hseek.symm.trans happly
      exact .of_placed h hplaced
  | seek t =>
    have happly : it.seek rank t s = some s' := happly
    cases hreached with
    | fresh => simp [seek_fresh h] at happly
    | entry _ hresumes =>
      obtain ⟨s'', hseek, hreached', -⟩ := hresumes.seek rank t h
      cases hseek.symm.trans happly
      exact hreached'
    | out _ hresumes =>
      obtain ⟨s'', hseek, hreached', -⟩ := hresumes.seek rank t h
      cases hseek.symm.trans happly
      exact hreached'
  | next => exact hreached.next h happly
  | prev => exact hreached.prev h happly

end

/-- A failed call is not recovered from. -/
theorem apply_none (call : Iterator.Call (List UInt8)) : (it.iterator rank).apply none call = none := by
  cases call <;> rfl

/-- Every sequence of calls leaves a reached state, unless one of them fails. -/
theorem Reached.run (h : Layout it entries offset restartEntry) {s s' : State}
    (hreached : Reached it entries offset restartEntry s) {calls : List (Iterator.Call (List UInt8))}
    (hrun : (it.iterator rank).run (some s) calls = some s') : Reached it entries offset restartEntry s' := by
  induction calls generalizing s with
  | nil =>
    cases hrun
    exact hreached
  | cons call calls ih =>
    cases hstep : (it.iterator rank).apply (some s) call with
    | none =>
      have hnone : (it.iterator rank).run none calls = none := foldl_fixed' apply_none calls
      rw [Iterator.run, foldl_cons, hstep] at hrun
      cases hnone.symm.trans hrun
    | some s₁ =>
      rw [Iterator.run, foldl_cons, hstep] at hrun
      exact ih (hreached.apply h hstep) hrun

/-- The entries from where `Seek` resumes are enough exactly when the key before that place is smaller than
the target. -/
theorem Resumes.find?_drop_iff {s : State} {j : ℕ} (hresumes : Resumes it entries offset restartEntry s j)
    (hsorted : entries.Pairwise fun a b ↦ rank a.1 < rank b.1) :
    (entries.drop j).find? (fun e ↦ rank t ≤ rank e.1) = entries.find? (fun e ↦ rank t ≤ rank e.1) ↔
      entries = [] ∨ rank s.key < rank t := by
  rcases hresumes.pos with hpos | hnil
  · obtain ⟨i, rfl⟩ : ∃ i, j = i + 1 := ⟨j - 1, by omega⟩
    have hi : i < entries.length := hresumes.le
    have hnil : entries ≠ [] := length_pos_iff.mp (by omega)
    have hkey : s.key = entries[i].1 := hresumes.key.trans (prevKey_succ hi)
    have htake := take_succ_eq_append_getElem hi
    have hsplit := take_append_drop (i + 1) entries
    have hpairs := hsorted
    rw [← hsplit] at hpairs
    obtain ⟨hbefore, -, hacross⟩ := pairwise_append.mp hpairs
    have hfind : entries.find? (fun e ↦ rank t ≤ rank e.1) =
        ((entries.take (i + 1)).find? fun e ↦ rank t ≤ rank e.1).or
          ((entries.drop (i + 1)).find? fun e ↦ rank t ≤ rank e.1) := by
      rw [← find?_append, hsplit]
    rw [or_iff_right hnil, hkey, hfind]
    constructor
    · intro heq
      by_contra hle
      have hlast : entries[i] ∈ entries.take (i + 1) := htake ▸ mem_append_right _ (mem_singleton_self _)
      obtain ⟨e, he⟩ : ∃ e, (entries.take (i + 1)).find? (fun e ↦ rank t ≤ rank e.1) = some e := by
        apply Option.isSome_iff_exists.mp
        rw [find?_isSome]
        exact ⟨entries[i], hlast, decide_eq_true (not_lt.mp hle)⟩
      rw [he, Option.some_or] at heq
      exact lt_irrefl _ (hacross e (mem_of_find?_eq_some he) e (mem_of_find?_eq_some heq))
    · intro hlt
      have hnone : (entries.take (i + 1)).find? (fun e ↦ rank t ≤ rank e.1) = none := by
        rw [find?_eq_none]
        intro e he
        rw [htake] at he hbefore
        have hle : rank e.1 ≤ rank entries[i].1 := by
          rcases mem_append.mp he with hmem | hmem
          · exact ((pairwise_append.mp hbefore).2.2 e hmem _ (mem_singleton_self _)).le
          · rw [mem_singleton.mp hmem]
        simp only [decide_eq_true_eq, not_le]
        exact hle.trans_lt hlt
      rw [hnone, Option.none_or]
  · simp [hnil]

theorem Reached.seek_iff (h : Layout it entries offset restartEntry) {s : State}
    (hreached : Reached it entries offset restartEntry s)
    (hsorted : entries.Pairwise fun a b ↦ rank a.1 < rank b.1) :
    (∃ s', it.seek rank t s = some s' ∧ s'.status = .ok ∧
        it.get s' = entries.find? fun e ↦ rank t ≤ rank e.1) ↔
      s.value.isSome ∧ (entries = [] ∨ rank s.key < rank t) := by
  cases hreached with
  | fresh => simp [seek_fresh h]
  | entry _ hresumes | out _ hresumes =>
    have hvalue : s.value.isSome = true := by
      have hnext := hresumes.next
      rw [Iter.nextEntryOffset] at hnext
      rw [← Option.isSome_map, hnext]
      rfl
    obtain ⟨s', hseek, hreached, hget⟩ := hresumes.seek rank t h
    rw [← hresumes.find?_drop_iff hsorted, ← hget, hseek]
    constructor
    · rintro ⟨_, ⟨rfl⟩, -, hfound⟩
      exact ⟨hvalue, hfound⟩
    · rintro ⟨-, hfound⟩
      exact ⟨s', rfl, hreached.status, hfound⟩

theorem reached_new (h : Layout it entries offset restartEntry) {s : State} (hs : it.new = some s) :
    Reached it entries offset restartEntry s := by
  rw [Iter.new, if_pos h.numRestarts_pos] at hs
  cases hs
  exact .fresh

end Rank

end Layout

section Built

variable {τ : Type*} [LinearOrder τ] {rank : List UInt8 → τ} {interval : ℕ} {entries : List Entry}

/-- In a built block, after any calls, `Seek` finds the first entry that is not before its target exactly
when an entry has been parsed before and the one parsed last is before the target, or there are no entries. -/
theorem block_iter_seek_iff (hinterval : 1 ≤ interval)
    (hsorted : entries.Pairwise fun a b ↦ rank a.1 < rank b.1)
    (hsize : (entriesBytes interval entries).length < 2 ^ 32) {calls : List (Iterator.Call (List UInt8))}
    {s : State}
    (hrun : ((builtIter interval entries).iterator rank).run (builtIter interval entries).new calls = some s)
    (t : List UInt8) :
    build rank interval entries = some (builtIter interval entries).data ∧
      ((∃ s', (builtIter interval entries).seek rank t s = some s' ∧ s'.status = .ok ∧
          (builtIter interval entries).get s' = entries.find? fun e ↦ rank t ≤ rank e.1) ↔
        s.value.isSome ∧ (entries = [] ∨ rank s.key < rank t)) := by
  have hlayout := layout_builtIter hinterval hsize
  obtain ⟨s₀, hs₀⟩ : ∃ s₀, (builtIter interval entries).new = some s₀ := ⟨_, if_pos hlayout.numRestarts_pos⟩
  rw [hs₀] at hrun
  have hreached := (reached_new hlayout hs₀).run hlayout hrun
  exact ⟨build_eq hinterval hsorted hsize, hreached.seek_iff hlayout hsorted⟩

/-- `Seek` on from the first of three entries. -/
theorem block_iter_seek_iff_of_threeEntries :
    ∃ s, ((builtIter 2 threeEntries).iterator List.length).run (builtIter 2 threeEntries).new [.seekToFirst] =
        some s ∧
      ∃ s', (builtIter 2 threeEntries).seek List.length [0, 0, 0] s = some s' ∧ s'.status = .ok ∧
        (builtIter 2 threeEntries).get s' = some ([3, 4, 5], [8, 9]) :=
  ⟨⟨0, 0, [1], some (4, 1), .ok⟩, by decide +kernel,
    (@block_iter_seek_iff ℕ _ List.length 2 threeEntries (by decide) (by decide) (by decide) [.seekToFirst] _
      (by decide +kernel) [0, 0, 0]).2.mpr (by decide)⟩

/-- After `SeekToLast`, `Seek` of the first key leaves the iterator invalid. -/
theorem block_iter_seek_misses :
    ∃ s s', ((builtIter 2 threeEntries).iterator List.length).run (builtIter 2 threeEntries).new [.seekToLast] =
        some s ∧
      (builtIter 2 threeEntries).seek List.length [1] s = some s' ∧ (builtIter 2 threeEntries).get s' = none ∧
      threeEntries.find? (fun e ↦ List.length [1] ≤ e.1.length) = some ([1], [7]) :=
  ⟨⟨9, 1, [3, 4, 5], some (15, 2), .ok⟩, ⟨17, 2, [3, 4, 5], some (15, 2), .ok⟩, by decide +kernel⟩

end Built

end LevelDB.Table.BlockSeek
