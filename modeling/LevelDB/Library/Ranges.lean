import Mathlib.Order.Basic
import Mathlib.Order.Lattice
import Mathlib.Data.Set.Basic

/-!
# Families of closed ranges

Members of a family occupy a closed range `[lo f, hi f]` of a linear order.  A family is linked when
no range fits into a hole of it: a range that avoids every member has all of them on one side.  The
file shows how linked families grow, by members that meet the hull of what is already there.
-/

namespace LevelDB.Library.Ranges

variable {F K : Type*} [LinearOrder K] (lo hi : F → K)

/-- The range of `f` and `[a, c]` have no point in common, with `f` on the left or on the right. -/
def Avoids (a c : K) (f : F) : Prop := hi f < a ∨ c < lo f

/-- A range that avoids every member has all members on one side. -/
def Linked (S : Set F) : Prop :=
  ∀ a c, a ≤ c → (∀ f ∈ S, Avoids lo hi a c f) → (∀ f ∈ S, hi f < a) ∨ (∀ f ∈ S, c < lo f)

structure IsHull (S : Set F) (b e : K) : Prop where
  le_lo : ∀ f ∈ S, b ≤ lo f
  hi_le : ∀ f ∈ S, hi f ≤ e
  lo_mem : ∃ f ∈ S, lo f = b
  hi_mem : ∃ f ∈ S, hi f = e

variable {lo hi}

theorem linked_singleton (f : F) : Linked lo hi {f} := by
  intro a c _ havoid
  rcases havoid f rfl with h | h
  · left
    rintro g rfl
    exact h
  · right
    rintro g rfl
    exact h

/-- All members of a linked family lie on the side of a range on which its hull lies. -/
theorem Linked.hull_side {S : Set F} {b e : K} (hlinked : Linked lo hi S) (hhull : IsHull lo hi S b e)
    {a c : K} (hac : a ≤ c) (havoid : ∀ f ∈ S, Avoids lo hi a c f) : e < a ∨ c < b := by
  rcases hlinked a c hac havoid with hleft | hright
  · obtain ⟨f, hf, rfl⟩ := hhull.hi_mem
    exact .inl (hleft f hf)
  · obtain ⟨f, hf, rfl⟩ := hhull.lo_mem
    exact .inr (hright f hf)

/-- Members that meet the hull of a linked family can be added to it. -/
theorem Linked.union {S T : Set F} {b e : K} (hlinked : Linked lo hi S) (hhull : IsHull lo hi S b e)
    (hmeets : ∀ g ∈ T, lo g ≤ e ∧ b ≤ hi g) : Linked lo hi (S ∪ T) := by
  intro a c hac havoid
  rcases hlinked.hull_side hhull hac fun f hf ↦ havoid f (.inl hf) with hside | hside
  · left
    rintro f (hf | hf)
    · exact (hhull.hi_le f hf).trans_lt hside
    · refine (havoid f (.inr hf)).resolve_right fun hright ↦ ?_
      exact absurd ((hmeets f hf).1.trans_lt (hside.trans_le hac)) hright.asymm
  · right
    rintro f (hf | hf)
    · exact hside.trans_le (hhull.le_lo f hf)
    · refine (havoid f (.inr hf)).resolve_left fun hleft ↦ ?_
      exact absurd (hac.trans_lt (hside.trans_le (hmeets f hf).2)) hleft.asymm

end LevelDB.Library.Ranges
