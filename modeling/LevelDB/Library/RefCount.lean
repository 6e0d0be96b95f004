import Mathlib.Data.List.Count
import Mathlib.Data.List.Nodup
import Mathlib.Data.List.Perm.Basic

/-!
# Reference counts

Objects on a list, each with a count of the handles held on it.  An object leaves the list when its
count drops to 0.  `Tracks objects handles` says that the counts are right for the handles that are
held, so that every held object is still on the list; `ref`, `unref` and a new object keep it.
-/

namespace LevelDB.Library.RefCount

open List

variable {α : Type*}

/-- A pointer to an object, with the value that it shows. -/
structure Handle (α : Type*) where
  id : ℕ
  value : α

/-- An object on the list. -/
structure Counted (α : Type*) extends Handle α where
  refs : ℕ

def ref (id : ℕ) (objects : List (Counted α)) : List (Counted α) :=
  objects.map fun o ↦ if o.id = id then { o with refs := o.refs + 1 } else o

def unref (id : ℕ) (objects : List (Counted α)) : List (Counted α) :=
  (objects.map fun o ↦ if o.id = id then { o with refs := o.refs - 1 } else o).filter fun o ↦ o.refs ≠ 0

structure Tracks (objects : List (Counted α)) (handles : List (Handle α)) : Prop where
  nodup : (objects.map fun o ↦ o.id).Nodup
  count : ∀ o ∈ objects, o.refs = handles.countP fun h ↦ h.id = o.id
  pos : ∀ o ∈ objects, 0 < o.refs
  held : ∀ h ∈ handles, ∃ o ∈ objects, o.toHandle = h

theorem mem_ref {id : ℕ} {objects : List (Counted α)} {o : Counted α} (ho : o ∈ ref id objects) :
    ∃ p ∈ objects, p.toHandle = o.toHandle ∧ o.refs = if p.id = id then p.refs + 1 else p.refs := by
  obtain ⟨p, hp, rfl⟩ := mem_map.mp ho
  refine ⟨p, hp, ?_⟩
  split <;> simp

theorem mem_unref {id : ℕ} {objects : List (Counted α)} {o : Counted α} (ho : o ∈ unref id objects) :
    ∃ p ∈ objects, p.toHandle = o.toHandle ∧ 0 < o.refs ∧
      o.refs = if p.id = id then p.refs - 1 else p.refs := by
  obtain ⟨hmem, hpos⟩ := mem_filter.mp ho
  obtain ⟨p, hp, rfl⟩ := mem_map.mp hmem
  refine ⟨p, hp, ?_, Nat.pos_of_ne_zero (of_decide_eq_true hpos), ?_⟩ <;> split <;> rfl

theorem map_id_ref (id : ℕ) (objects : List (Counted α)) :
    (ref id objects).map (fun o ↦ o.id) = objects.map fun o ↦ o.id := by
  unfold ref
  rw [map_map]
  apply map_congr_left
  intro o _
  simp only [Function.comp_apply]
  split <;> rfl

theorem map_id_unref_sublist (id : ℕ) (objects : List (Counted α)) :
    ((unref id objects).map fun o ↦ o.id).Sublist (objects.map fun o ↦ o.id) := by
  have hmap : (objects.map fun o ↦ if o.id = id then { o with refs := o.refs - 1 } else o).map
      (fun o ↦ o.id) = objects.map fun o ↦ o.id := by
    rw [map_map]
    apply map_congr_left
    intro o _
    simp only [Function.comp_apply]
    split <;> rfl
  rw [← hmap]
  exact filter_sublist.map _

theorem exists_of_mem_ref {id : ℕ} {objects : List (Counted α)} :
    ∀ o ∈ ref id objects, ∃ p ∈ objects, p.toHandle = o.toHandle := by
  intro o ho
  obtain ⟨p, hp, heq, -⟩ := mem_ref ho
  exact ⟨p, hp, heq⟩

theorem exists_of_mem_unref {id : ℕ} {objects : List (Counted α)} :
    ∀ o ∈ unref id objects, ∃ p ∈ objects, p.toHandle = o.toHandle := by
  intro o ho
  obtain ⟨p, hp, heq, -⟩ := mem_unref ho
  exact ⟨p, hp, heq⟩

/-- Letting go of an object touches no other one. -/
theorem unref_split {objects : List (Counted α)} (hnodup : (objects.map fun o ↦ o.id).Nodup)
    (hpos : ∀ o ∈ objects, 0 < o.refs) {o : Counted α} (ho : o ∈ objects) :
    ∃ before after, objects = before ++ o :: after ∧ unref o.id objects =
      before ++ ((if o.refs = 1 then [] else [{ o with refs := o.refs - 1 }]) ++ after) := by
  obtain ⟨before, after, rfl⟩ := append_of_mem ho
  refine ⟨before, after, rfl, ?_⟩
  have hother : ∀ part : List (Counted α), (∀ p ∈ part, p.id ≠ o.id ∧ 0 < p.refs) →
      unref o.id part = part := by
    intro part hpart
    unfold unref
    rw [map_congr_left fun p hp ↦ if_neg (hpart p hp).1, map_id'']
    · exact filter_eq_self.mpr fun p hp ↦ decide_eq_true (Nat.pos_iff_ne_zero.mp (hpart p hp).2)
    · exact fun _ ↦ rfl
  have hself : unref o.id [o] = if o.refs = 1 then [] else [{ o with refs := o.refs - 1 }] := by
    have := hpos o ho
    unfold unref
    by_cases hone : o.refs = 1
    · simp [hone]
    · have hne : o.refs - 1 ≠ 0 := by omega
      simp [hone, hne]
  have happend : ∀ a b : List (Counted α), unref o.id (a ++ b) = unref o.id a ++ unref o.id b := by
    intro a b
    unfold unref
    rw [map_append, filter_append]
  rw [map_append, map_cons] at hnodup
  have hne := nodup_middle.mp hnodup
  rw [nodup_cons, mem_append, not_or] at hne
  obtain ⟨⟨hbefore, hafter⟩, -⟩ := hne
  rw [happend, ← singleton_append, happend, hself, hother before, hother after]
  · intro p hp
    exact ⟨fun heq ↦ hafter (heq ▸ mem_map_of_mem hp), hpos p (by simp [hp])⟩
  · intro p hp
    exact ⟨fun heq ↦ hbefore (heq ▸ mem_map_of_mem hp), hpos p (by simp [hp])⟩

namespace Tracks

variable {objects : List (Counted α)} {handles handles' : List (Handle α)}

theorem perm (h : Tracks objects handles) (hperm : handles.Perm handles') : Tracks objects handles' where
  nodup := h.nodup
  count o ho := (h.count o ho).trans (hperm.countP_eq _)
  pos := h.pos
  held handle hmem := h.held handle (hperm.mem_iff.mpr hmem)

theorem ref (h : Tracks objects handles) {handle : Handle α} (hmem : handle ∈ handles) :
    Tracks (RefCount.ref handle.id objects) (handle :: handles) := by
  refine ⟨?_, ?_, ?_, ?_⟩
  · rw [map_id_ref]
    exact h.nodup
  · intro o ho
    obtain ⟨p, hp, hhandle, hrefs⟩ := mem_ref ho
    have hid : p.id = o.id := congrArg Handle.id hhandle
    rw [hrefs, h.count p hp, countP_cons, hid]
    by_cases heq : o.id = handle.id
    · simp [heq]
    · have hne : ¬handle.id = o.id := fun h ↦ heq h.symm
      simp [heq, hne]
  · intro o ho
    obtain ⟨p, hp, -, hrefs⟩ := mem_ref ho
    have hpos := h.pos p hp
    split at hrefs <;> omega
  · intro k hk
    obtain ⟨o, ho, heq⟩ := h.held k (by
      rcases mem_cons.mp hk with rfl | hk
      · exact hmem
      · exact hk)
    refine ⟨_, mem_map_of_mem ho, ?_⟩
    split <;> exact heq

/-- Letting a handle go. -/
theorem unref {handle : Handle α} (h : Tracks objects (handle :: handles)) :
    Tracks (RefCount.unref handle.id objects) handles := by
  refine ⟨h.nodup.sublist (map_id_unref_sublist _ _), ?_, ?_, ?_⟩
  · intro o ho
    obtain ⟨p, hp, hhandle, -, hrefs⟩ := mem_unref ho
    have hid : p.id = o.id := congrArg Handle.id hhandle
    have hcount := h.count p hp
    rw [countP_cons, hid] at hcount
    rw [hrefs, hid]
    by_cases heq : o.id = handle.id
    · simp_all
    · have hne : ¬handle.id = o.id := fun h ↦ heq h.symm
      simp_all
  · intro o ho
    obtain ⟨-, -, -, hpos, -⟩ := mem_unref ho
    exact hpos
  · intro k hk
    obtain ⟨o, ho, rfl⟩ := h.held k (mem_cons_of_mem handle hk)
    -- another handle is held on the object, so its count does not drop to 0
    have hcount := h.count o ho
    have hone : 0 < handles.countP fun h ↦ h.id = o.id := countP_pos_iff.mpr ⟨o.toHandle, hk, by simp⟩
    rw [countP_cons] at hcount
    refine ⟨_, mem_filter.mpr ⟨mem_map_of_mem ho, ?_⟩, ?_⟩
    · split
      · rename_i heq
        simp only [heq, decide_true, if_true] at hcount
        simp only [ne_eq, decide_not, Bool.not_eq_true', decide_eq_false_iff_not]
        rw [heq] at hone
        omega
      · simp only [ne_eq, decide_not, Bool.not_eq_true', decide_eq_false_iff_not]
        have hpos := h.pos o ho
        omega
    · split <;> rfl

theorem append (h : Tracks objects handles) (handle : Handle α) (hfresh : ∀ o ∈ objects, o.id ≠ handle.id) :
    Tracks (objects ++ [{ handle with refs := 1 }]) (handle :: handles) := by
  have hnone : ∀ k ∈ handles, k.id ≠ handle.id := by
    intro k hk
    obtain ⟨o, ho, rfl⟩ := h.held k hk
    exact hfresh o ho
  refine ⟨?_, ?_, ?_, ?_⟩
  · rw [map_append, nodup_append]
    refine ⟨h.nodup, nodup_singleton _, ?_⟩
    intro a ha b hb
    obtain ⟨o, ho, rfl⟩ := mem_map.mp ha
    rw [mem_singleton.mp hb]
    exact hfresh o ho
  · intro o ho
    rcases mem_append.mp ho with ho | ho
    · rw [h.count o ho, countP_cons]
      simp [(hfresh o ho).symm]
    · rw [mem_singleton.mp ho, countP_cons]
      have hzero : handles.countP (fun k ↦ decide (k.id = handle.id)) = 0 := by
        rw [countP_eq_zero]
        intro k hk
        simpa using hnone k hk
      simp [hzero]
  · intro o ho
    rcases mem_append.mp ho with ho | ho
    · exact h.pos o ho
    · rw [mem_singleton.mp ho]
      exact Nat.one_pos
  · intro k hk
    rcases mem_cons.mp hk with rfl | hk
    · exact ⟨_, mem_append_right _ (mem_singleton_self _), rfl⟩
    · obtain ⟨o, ho, heq⟩ := h.held k hk
      exact ⟨o, mem_append_left _ ho, heq⟩

/-- A single handle leaves no other object on the list. -/
theorem eq_singleton {handle : Handle α} (h : Tracks objects [handle]) :
    objects = [{ handle with refs := 1 }] := by
  have hself : ∀ o ∈ objects, o.id = handle.id := by
    intro o ho
    have hcount := h.count o ho
    have hpos := h.pos o ho
    by_contra hne
    have hne' : ¬handle.id = o.id := fun heq ↦ hne heq.symm
    simp only [countP_cons, countP_nil, hne', decide_false, Bool.false_eq_true, if_false] at hcount
    omega
  obtain ⟨o, ho, hhandle⟩ := h.held handle (mem_singleton_self handle)
  have hone : o.refs = 1 := by
    rw [h.count o ho, hself o ho]
    simp
  cases objects with
  | nil => cases ho
  | cons p rest =>
    have hnodup := h.nodup
    rw [map_cons, nodup_cons] at hnodup
    have hrest : rest = [] := by
      rw [eq_nil_iff_forall_not_mem]
      intro q hq
      apply hnodup.1
      rw [hself p mem_cons_self, ← hself q (mem_cons_of_mem p hq)]
      exact mem_map_of_mem hq
    subst hrest
    rw [mem_singleton] at ho
    subst ho
    rw [← hhandle, ← hone]

end Tracks

end LevelDB.Library.RefCount
