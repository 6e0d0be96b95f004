import Mathlib.Data.Set.Basic
import Mathlib.Order.Basic

/-!
# Newest versions in a set of stamped elements

Elements carry a key and a stamp.  A read of a key at a bound sees the element of that key with the
largest stamp at or below the bound.  The file says how such a read behaves on a union of sets of
which the first holds the newer elements, so that a search that goes through layers from new to old
and stops at the first hit reads the union of the layers.
-/

namespace LevelDB.Library.Newest

variable {E K W : Type*} (key : E → K) (stamp : E → ℕ)

structure IsNewest (S : Set E) (k : K) (bound : ℕ) (e : E) : Prop where
  mem : e ∈ S
  key_eq : key e = k
  le_bound : stamp e ≤ bound
  newest : ∀ e' ∈ S, key e' = k → stamp e' ≤ bound → stamp e' ≤ stamp e

/-- `S` has no element of key `k` at or below `bound`. -/
def NoVersion (S : Set E) (k : K) (bound : ℕ) : Prop := ∀ e ∈ S, key e = k → bound < stamp e

def Finds (S : Set E) (k : K) (bound : ℕ) : Option E → Prop
  | some e => IsNewest key stamp S k bound e
  | none => NoVersion key stamp S k bound

/-- Reading through `value`, where both a missing element and an element without a value read as
`none`. -/
def Reads (value : E → Option W) (S : Set E) (k : K) (bound : ℕ) (result : Option W) : Prop :=
  ∃ found, Finds key stamp S k bound found ∧ found.bind value = result

/-- Every element of `A` is newer than every element of `B` with the same key `k`. -/
def NewerAt (k : K) (A B : Set E) : Prop := ∀ a ∈ A, ∀ b ∈ B, key a = k → key b = k → stamp b < stamp a

/-- Every element of `A` is newer than every element of `B` with the same key. -/
def Newer (A B : Set E) : Prop := ∀ a ∈ A, ∀ b ∈ B, key a = key b → stamp b < stamp a

variable {key stamp}

theorem Newer.at {A B : Set E} (h : Newer key stamp A B) (k : K) : NewerAt key stamp k A B := by
  intro a ha b hb hak hbk
  exact h a ha b hb (hak.trans hbk.symm)

/-- A search of the newer set decides the read; the older set is asked only when it finds
nothing. -/
theorem Finds.or {A B : Set E} {k : K} {bound : ℕ} {r r' : Option E}
    (hA : Finds key stamp A k bound r) (hB : Finds key stamp B k bound r')
    (hnewer : NewerAt key stamp k A B) : Finds key stamp (A ∪ B) k bound (r.or r') := by
  cases r with
  | some a =>
    refine ⟨.inl hA.mem, hA.key_eq, hA.le_bound, ?_⟩
    rintro e (he | he) hek hes
    · exact hA.newest e he hek hes
    · exact (hnewer a hA.mem e he hA.key_eq hek).le
  | none =>
    cases r' with
    | some b =>
      refine ⟨.inr hB.mem, hB.key_eq, hB.le_bound, ?_⟩
      rintro e (he | he) hek hes
      · exact absurd hes (Nat.not_le.mpr (hA e he hek))
      · exact hB.newest e he hek hes
    | none =>
      rintro e (he | he) hek
      · exact hA e he hek
      · exact hB e he hek

/-- Searching layers from new to old and stopping at the first hit searches their union. -/
theorem finds_layers {ι : Type*} {layers : List ι} {A : ι → Set E} {result : ι → Option E} {k : K}
    {bound : ℕ} (hsearch : ∀ i ∈ layers, Finds key stamp (A i) k bound (result i))
    (hordered : layers.Pairwise fun i j ↦ Newer key stamp (A i) (A j)) :
    Finds key stamp {e | ∃ i ∈ layers, e ∈ A i} k bound (layers.findSome? result) := by
  induction layers with
  | nil =>
    rintro e ⟨i, hi, -⟩
    cases hi
  | cons i layers ih =>
    rw [List.pairwise_cons] at hordered
    have hrest := ih (fun j hj ↦ hsearch j (List.mem_cons_of_mem i hj)) hordered.2
    have hnewer : NewerAt key stamp k (A i) {e | ∃ j ∈ layers, e ∈ A j} := by
      rintro a ha b ⟨j, hj, hb⟩ hak hbk
      exact hordered.1 j hj a ha b hb (hak.trans hbk.symm)
    have hor := (hsearch i List.mem_cons_self).or hrest hnewer
    have hset : {e | ∃ j ∈ i :: layers, e ∈ A j} = A i ∪ {e | ∃ j ∈ layers, e ∈ A j} := by
      ext e
      simp
    rw [hset, List.findSome?_cons]
    cases hi : result i <;> simpa [hi] using hor

/-- A search has a result: the stamps at or below the bound have a largest one. -/
theorem exists_finds (key : E → K) (stamp : E → ℕ) (S : Set E) (k : K) (bound : ℕ) :
    ∃ r, Finds key stamp S k bound r := by
  induction bound with
  | zero =>
    by_cases h : ∃ e ∈ S, key e = k ∧ stamp e = 0
    · obtain ⟨e, he, hek, hes⟩ := h
      exact ⟨some e, he, hek, hes.le, fun e' _ _ hes' ↦ hes'.trans (Nat.zero_le _)⟩
    · refine ⟨none, fun e he hek ↦ Nat.pos_of_ne_zero fun hes ↦ h ⟨e, he, hek, hes⟩⟩
  | succ bound ih =>
    by_cases h : ∃ e ∈ S, key e = k ∧ stamp e = bound + 1
    · obtain ⟨e, he, hek, hes⟩ := h
      exact ⟨some e, he, hek, hes.le, fun e' _ _ hes' ↦ hes'.trans hes.ge⟩
    · obtain ⟨r, hr⟩ := ih
      have hlt : ∀ e ∈ S, key e = k → stamp e ≤ bound + 1 → stamp e ≤ bound := by
        intro e he hek hes
        exact Nat.le_of_lt_succ (lt_of_le_of_ne hes fun heq ↦ h ⟨e, he, hek, heq⟩)
      cases r with
      | some e =>
        refine ⟨some e, hr.mem, hr.key_eq, hr.le_bound.trans (Nat.le_succ _), fun e' he' hek hes ↦ ?_⟩
        exact hr.newest e' he' hek (hlt e' he' hek hes)
      | none =>
        refine ⟨none, fun e he hek ↦ ?_⟩
        by_contra hle
        have hes := hlt e he hek (Nat.not_lt.mp hle)
        exact absurd (hr e he hek) (Nat.not_lt.mpr hes)

/-- When no two elements of a key share a stamp, a search has one result. -/
theorem Finds.unique {S : Set E} {k : K} {bound : ℕ} {r r' : Option E}
    (hinj : ∀ e ∈ S, ∀ e' ∈ S, key e = key e' → stamp e = stamp e' → e = e')
    (h : Finds key stamp S k bound r) (h' : Finds key stamp S k bound r') : r = r' := by
  cases r with
  | none =>
    cases r' with
    | none => rfl
    | some e => exact absurd h'.le_bound (Nat.not_le.mpr (h e h'.mem h'.key_eq))
  | some e =>
    cases r' with
    | none => exact absurd h.le_bound (Nat.not_le.mpr (h' e h.mem h.key_eq))
    | some e' =>
      have hle := h'.newest e h.mem h.key_eq h.le_bound
      have hge := h.newest e' h'.mem h'.key_eq h'.le_bound
      rw [hinj e h.mem e' h'.mem (h.key_eq.trans h'.key_eq.symm) (le_antisymm hle hge)]

theorem Reads.unique {value : E → Option W} {S : Set E} {k : K} {bound : ℕ} {x x' : Option W}
    (hinj : ∀ e ∈ S, ∀ e' ∈ S, key e = key e' → stamp e = stamp e' → e = e')
    (h : Reads key stamp value S k bound x) (h' : Reads key stamp value S k bound x') : x = x' := by
  obtain ⟨r, hr, rfl⟩ := h
  obtain ⟨r', hr', rfl⟩ := h'
  rw [hr.unique hinj hr']

theorem Finds.congr {S T : Set E} {k : K} {bound : ℕ} {r : Option E}
    (hST : ∀ e, key e = k → stamp e ≤ bound → (e ∈ S ↔ e ∈ T)) (h : Finds key stamp S k bound r) :
    Finds key stamp T k bound r := by
  cases r with
  | some e =>
    refine ⟨(hST e h.key_eq h.le_bound).mp h.mem, h.key_eq, h.le_bound, fun e' he' hek hes ↦ ?_⟩
    exact h.newest e' ((hST e' hek hes).mpr he') hek hes
  | none =>
    intro e he hek
    by_contra hle
    have hes := Nat.not_lt.mp hle
    exact hle (h e ((hST e hek hes).mpr he) hek)

theorem reads_congr {value : E → Option W} {S T : Set E} {k : K} {bound : ℕ} {x : Option W}
    (hST : ∀ e, key e = k → stamp e ≤ bound → (e ∈ S ↔ e ∈ T)) :
    Reads key stamp value S k bound x ↔ Reads key stamp value T k bound x := by
  constructor
  · rintro ⟨r, hr, hx⟩
    exact ⟨r, hr.congr hST, hx⟩
  · rintro ⟨r, hr, hx⟩
    exact ⟨r, hr.congr fun e hek hes ↦ (hST e hek hes).symm, hx⟩

/-- The read of a union, when the first set is newer: it is the read of the first set if that
finds anything, and else the read of the second. -/
theorem reads_union_iff {value : E → Option W} {A B : Set E} {k : K} {bound : ℕ} {x : Option W}
    (hnewer : NewerAt key stamp k A B) :
    Reads key stamp value (A ∪ B) k bound x ↔ (∃ e, IsNewest key stamp A k bound e ∧ value e = x) ∨
        (NoVersion key stamp A k bound ∧ Reads key stamp value B k bound x) := by
  constructor
  · rintro ⟨r, hr, rfl⟩
    obtain ⟨found, hfound⟩ := exists_finds key stamp A k bound
    cases found with
    | some a =>
      left
      cases r with
      | none =>
        exact absurd hfound.le_bound (Nat.not_le.mpr (hr a (.inl hfound.mem) hfound.key_eq))
      | some e =>
        have hle := hr.newest a (.inl hfound.mem) hfound.key_eq hfound.le_bound
        rcases hr.mem with he | he
        · refine ⟨e, ⟨he, hr.key_eq, hr.le_bound, fun e' he' hek hes ↦ ?_⟩, rfl⟩
          exact hr.newest e' (.inl he') hek hes
        · exact absurd hle
            (Nat.not_le.mpr (hnewer a hfound.mem e he hfound.key_eq hr.key_eq))
    | none =>
      refine .inr ⟨hfound, r, ?_, rfl⟩
      apply hr.congr
      intro e hek hes
      refine ⟨fun he ↦ he.resolve_left fun heA ↦ ?_, .inr⟩
      exact absurd hes (Nat.not_le.mpr (hfound e heA hek))
  · rintro (⟨e, he, rfl⟩ | ⟨hnone, r, hr, rfl⟩)
    · refine ⟨some e, ⟨.inl he.mem, he.key_eq, he.le_bound, ?_⟩, rfl⟩
      rintro e' (he' | he') hek hes
      · exact he.newest e' he' hek hes
      · exact (hnewer e he.mem e' he' he.key_eq hek).le
    · exact ⟨r, by simpa using Finds.or (r := none) hnone hr hnewer, rfl⟩

theorem reads_union_congr {value : E → Option W} {A B B' : Set E} {k : K} {bound : ℕ}
    (hnewer : NewerAt key stamp k A B) (hnewer' : NewerAt key stamp k A B')
    (hBB' : ∀ x, Reads key stamp value B k bound x ↔ Reads key stamp value B' k bound x) (x : Option W) :
    Reads key stamp value (A ∪ B) k bound x ↔ Reads key stamp value (A ∪ B') k bound x := by
  rw [reads_union_iff hnewer, reads_union_iff hnewer', hBB' x]

end LevelDB.Library.Newest
