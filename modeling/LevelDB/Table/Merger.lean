import LevelDB.Library.Iterators
import LevelDB.Library.SortedLists
import Mathlib.Data.List.FinRange
import Mathlib.Logic.Function.Basic

/-!
# Merging iterators

`MergingIterator` of `table/merger.cpp` over any child iterators.  Over children that are cursors of
sorted lists without a common key it is a cursor of the merged list.
-/

namespace LevelDB.Table.Merger

open Library List Function Iterator

inductive Direction where
  | kForward
  | kReverse
  deriving DecidableEq, Repr

variable {α τ : Type*} [LinearOrder τ] {n : ℕ}

/-- The children, `current_` as an index of a child, and `direction_`. -/
structure State (children : Fin n → AnyIterator α τ) where
  child : ∀ i, (children i).State
  current : Option (Fin n)
  direction : Direction

section Operations

variable (key : α → τ) (children : Fin n → AnyIterator α τ)

def shows (child : ∀ i, (children i).State) (i : Fin n) : Option α := (children i).ops.get (child i)

/-- One round of the loop of `FindSmallest` and `FindLargest`. -/
def better (before : τ → τ → Prop) [DecidableRel before] (shown : Fin n → Option α)
    (best : Option (Fin n)) (i : Fin n) : Option (Fin n) :=
  match shown i with
  | none => best
  | some a =>
    match best.bind shown with
    | none => some i
    | some b => if before (key a) (key b) then some i else best

/-- The loop of `FindSmallest` and `FindLargest`: the first valid child that no later one comes
before. -/
def pick (before : τ → τ → Prop) [DecidableRel before] (shown : Fin n → Option α) (order : List (Fin n)) :
    Option (Fin n) :=
  order.foldl (better key before shown) none

def findSmallest (child : ∀ i, (children i).State) : Option (Fin n) :=
  pick key (· < ·) (shows children child) (List.finRange n)

def findLargest (child : ∀ i, (children i).State) : Option (Fin n) :=
  pick key (· > ·) (shows children child) (List.finRange n).reverse

def get (m : State children) : Option α := m.current.bind (shows children m.child)

def forward (child : ∀ i, (children i).State) : State children :=
  ⟨child, findSmallest key children child, .kForward⟩

def backward (child : ∀ i, (children i).State) : State children :=
  ⟨child, findLargest key children child, .kReverse⟩

/-- Position a child after a key. -/
def seekAfter (it : AnyIterator α τ) (t : τ) (state : it.State) : it.State :=
  let state := it.ops.seek t state
  if (it.ops.get state).any fun a ↦ t = key a then it.ops.next state else state

/-- Position a child before a key. -/
def seekBefore (it : AnyIterator α τ) (t : τ) (state : it.State) : it.State :=
  let state := it.ops.seek t state
  -- at the first entry at or after the key; step back one, or go to the last entry
  if (it.ops.get state).isSome then it.ops.prev state else it.ops.seekToLast state

def next (m : State children) : State children :=
  match m.current with
  | none => m
  | some c =>
    match shows children m.child c with
    | none => m
    | some x =>
      let child := if m.direction = .kForward then m.child else fun i ↦
        if i = c then m.child i else seekAfter key (children i) (key x) (m.child i)
      forward key children (update child c ((children c).ops.next (child c)))

def prev (m : State children) : State children :=
  match m.current with
  | none => m
  | some c =>
    match shows children m.child c with
    | none => m
    | some x =>
      let child := if m.direction = .kReverse then m.child else fun i ↦
        if i = c then m.child i else seekBefore (children i) (key x) (m.child i)
      backward key children (update child c ((children c).ops.prev (child c)))

def iterator : Iterator (State children) α τ where
  get := get children
  seekToFirst m := forward key children fun i ↦ (children i).ops.seekToFirst (m.child i)
  seekToLast m := backward key children fun i ↦ (children i).ops.seekToLast (m.child i)
  seek t m := forward key children fun i ↦ (children i).ops.seek t (m.child i)
  next := next key children
  prev := prev key children

def new : AnyIterator α τ where
  State := State children
  ops := iterator key children
  start := ⟨fun i ↦ (children i).start, none, .kForward⟩

def newMergingIterator (list : List (AnyIterator α τ)) : AnyIterator α τ :=
  match list with
  | [] => AnyIterator.empty
  | [it] => it
  | list => new key list.get

end Operations

/-- A valid child that no other valid one comes before, or none when none is valid. -/
def IsBest (key : α → τ) (before : τ → τ → Prop) (shown : Fin n → Option α) (order : List (Fin n)) :
    Option (Fin n) → Prop
  | none => ∀ i ∈ order, shown i = none
  | some c => ∃ x, shown c = some x ∧ ∀ i ∈ order, ∀ y, shown i = some y → ¬before (key y) (key x)

section Choice

variable {key : α → τ} {before : τ → τ → Prop} [DecidableRel before] {shown : Fin n → Option α}

omit [LinearOrder τ] in
theorem IsBest.better (htrans : ∀ a b c, before a b → before b c → before a c) (hirrefl : ∀ a, ¬before a a)
    {order : List (Fin n)} {best : Option (Fin n)} (h : IsBest key before shown order best) (i : Fin n) :
    IsBest key before shown (order ++ [i]) (better key before shown best i) := by
  unfold Merger.better
  cases hi : shown i with
  | none =>
    cases best with
    | none =>
      intro j hj
      rcases mem_append.mp hj with hj | hj
      · exact h j hj
      · rwa [mem_singleton.mp hj]
    | some c =>
      obtain ⟨x, hx, hbest⟩ := h
      refine ⟨x, hx, fun j hj y hy ↦ ?_⟩
      rcases mem_append.mp hj with hj | hj
      · exact hbest j hj y hy
      · rw [mem_singleton.mp hj, hi] at hy
        cases hy
  | some a =>
    cases best with
    | none =>
      refine ⟨a, hi, fun j hj y hy ↦ ?_⟩
      rcases mem_append.mp hj with hj | hj
      · rw [h j hj] at hy
        cases hy
      · rw [mem_singleton.mp hj, hi] at hy
        cases hy
        exact hirrefl _
    | some c =>
      obtain ⟨x, hx, hbest⟩ := h
      simp only [Option.bind_some, hx]
      split
      · rename_i hlt
        refine ⟨a, hi, fun j hj y hy ↦ ?_⟩
        rcases mem_append.mp hj with hj | hj
        · exact fun hya ↦ hbest j hj y hy (htrans _ _ _ hya hlt)
        · rw [mem_singleton.mp hj, hi] at hy
          cases hy
          exact hirrefl _
      · rename_i hlt
        refine ⟨x, hx, fun j hj y hy ↦ ?_⟩
        rcases mem_append.mp hj with hj | hj
        · exact hbest j hj y hy
        · rw [mem_singleton.mp hj, hi] at hy
          cases hy
          exact hlt

omit [LinearOrder τ] in
theorem isBest_pick (htrans : ∀ a b c, before a b → before b c → before a c) (hirrefl : ∀ a, ¬before a a)
    (order : List (Fin n)) : IsBest key before shown order (pick key before shown order) := by
  induction order using List.reverseRecOn with
  | nil => exact fun i hi ↦ by cases hi
  | append_singleton order i ih =>
    rw [pick, foldl_append]
    exact ih.better htrans hirrefl i

end Choice

/-- Sorted lists without a common key, and the sorted list of all their elements. -/
structure Merges (key : α → τ) (lists : Fin n → List α) (merged : List α) : Prop where
  sorted : ∀ i, (lists i).Pairwise fun a b ↦ key a < key b
  merged_sorted : merged.Pairwise fun a b ↦ key a < key b
  mem_iff : ∀ x, x ∈ merged ↔ ∃ i, x ∈ lists i
  key_ne : ∀ i j, i ≠ j → ∀ x ∈ lists i, ∀ y ∈ lists j, key x ≠ key y

section Merged

variable {key : α → τ} {children : Fin n → AnyIterator α τ} {lists : Fin n → List α} {merged : List α}
  {R : ∀ i, (children i).State → Option ℕ → Prop}

/-- The merging iterator shows the element, and the other children are at the next or at the last
element on the other side of it. -/
inductive Agrees (key : α → τ) (lists : Fin n → List α)
    (R : ∀ i, (children i).State → Option ℕ → Prop) (m : State children) : Option α → Prop
  | invalid : m.current = none → (∀ i, ∃ shown, Shows key (lists i) (R i) (m.child i) shown) →
      Agrees key lists R m none
  | forward {c x} : m.current = some c → m.direction = .kForward →
      Shows key (lists c) (R c) (m.child c) (some x) →
      (∀ i, i ≠ c → Shows key (lists i) (R i) (m.child i)
        ((lists i).find? fun y ↦ key x < key y)) → Agrees key lists R m (some x)
  | reverse {c x} : m.current = some c → m.direction = .kReverse →
      Shows key (lists c) (R c) (m.child c) (some x) →
      (∀ i, i ≠ c → Shows key (lists i) (R i) (m.child i)
        ((lists i).filter fun y ↦ key y < key x).getLast?) → Agrees key lists R m (some x)

theorem Agrees.shows {m : State children} {shown : Option α} (h : Agrees key lists R m shown) (i : Fin n) :
    ∃ shown, Shows key (lists i) (R i) (m.child i) shown := by
  cases h with
  | invalid _ hshows => exact hshows i
  | @forward c x _ _ hc hothers =>
    by_cases hi : i = c
    · subst hi
      exact ⟨_, hc⟩
    · exact ⟨_, hothers i hi⟩
  | @reverse c x _ _ hc hothers =>
    by_cases hi : i = c
    · subst hi
      exact ⟨_, hc⟩
    · exact ⟨_, hothers i hi⟩

theorem Agrees.get_eq (hsim : ∀ i, Simulates (children i).ops (ofList key (lists i)) (R i))
    {m : State children} {shown : Option α} (h : Agrees key lists R m shown) : get children m = shown := by
  unfold get
  cases h with
  | invalid hcurrent _ => rw [hcurrent]; rfl
  | forward hcurrent _ hc _ => rw [hcurrent]; exact hc.get_eq (hsim _)
  | reverse hcurrent _ hc _ => rw [hcurrent]; exact hc.get_eq (hsim _)

section

variable (hmerges : Merges key lists merged) (hsim : ∀ i, Simulates (children i).ops (ofList key (lists i)) (R i))
include hmerges hsim

/-- When all children are at their first element past some point, the smallest of these is the first
element of the merged list past it. -/
theorem forward_agrees {q : α → Bool} (hq : ∀ x y, key x ≤ key y → q x = true → q y = true)
    {child : ∀ i, (children i).State} (h : ∀ i, Shows key (lists i) (R i) (child i) ((lists i).find? q)) :
    Agrees key lists R (forward key children child) (merged.find? q) := by
  have hshows : ∀ i, shows children child i = (lists i).find? q := fun i ↦ (h i).get_eq (hsim i)
  have hbest : IsBest key (· < ·) (shows children child) (List.finRange n)
      (findSmallest key children child) := by
    apply isBest_pick
    · exact fun _ _ _ hab hbc ↦ hab.trans hbc
    · exact lt_irrefl
  cases hcurrent : findSmallest key children child with
  | none =>
    rw [hcurrent] at hbest
    have hnone : merged.find? q = none := by
      rw [find?_eq_none]
      intro x hx
      obtain ⟨i, hxi⟩ := (hmerges.mem_iff x).mp hx
      have hi := hbest i (mem_finRange i)
      rw [hshows, find?_eq_none] at hi
      exact hi x hxi
    rw [hnone]
    exact Agrees.invalid hcurrent fun i ↦ ⟨_, h i⟩
  | some c =>
    rw [hcurrent] at hbest
    obtain ⟨x, hx, hleast⟩ := hbest
    rw [hshows] at hx
    obtain ⟨hxc, hqx, -⟩ := (find?_eq_some_iff_least (hmerges.sorted c)).mp hx
    -- every element past the point is at or after the least one shown
    have hall : ∀ i, ∀ y ∈ lists i, q y = true → key x ≤ key y := by
      intro i y hy hqy
      obtain ⟨z, hz⟩ := Option.isSome_iff_exists.mp (find?_isSome.mpr ⟨y, hy, hqy⟩)
      obtain ⟨-, -, hzleast⟩ := (find?_eq_some_iff_least (hmerges.sorted i)).mp hz
      have hxz := hleast i (mem_finRange i) z ((hshows i).trans hz)
      exact (not_lt.mp hxz).trans (hzleast y hy hqy)
    have hmerged : merged.find? q = some x := by
      refine (find?_eq_some_iff_least hmerges.merged_sorted).mpr ⟨?_, hqx, fun y hy hqy ↦ ?_⟩
      · exact (hmerges.mem_iff x).mpr ⟨c, hxc⟩
      · obtain ⟨i, hyi⟩ := (hmerges.mem_iff y).mp hy
        exact hall i y hyi hqy
    rw [hmerged]
    refine Agrees.forward hcurrent rfl (hx ▸ h c) fun i hi ↦ ?_
    have hsame : (lists i).find? q = (lists i).find? fun y ↦ key x < key y := by
      apply find?_congr
      intro y hy
      rw [Bool.eq_iff_iff, decide_eq_true_eq]
      constructor
      · intro hqy
        exact lt_of_le_of_ne (hall i y hy hqy) (hmerges.key_ne c i (Ne.symm hi) x hxc y hy)
      · intro hlt
        exact hq x y hlt.le hqx
    exact hsame ▸ h i

/-- The same for the last elements before some point. -/
theorem backward_agrees {q : α → Bool} (hq : ∀ x y, key x ≤ key y → q y = true → q x = true)
    {child : ∀ i, (children i).State}
    (h : ∀ i, Shows key (lists i) (R i) (child i) ((lists i).filter q).getLast?) :
    Agrees key lists R (backward key children child) (merged.filter q).getLast? := by
  have hshows : ∀ i, shows children child i = ((lists i).filter q).getLast? := fun i ↦
    (h i).get_eq (hsim i)
  have hbest : IsBest key (· > ·) (shows children child) (List.finRange n).reverse
      (findLargest key children child) := by
    apply isBest_pick
    · exact fun _ _ _ hab hbc ↦ hbc.trans hab
    · exact lt_irrefl
  have hmem : ∀ i, i ∈ (List.finRange n).reverse := fun i ↦ mem_reverse.mpr (mem_finRange i)
  cases hcurrent : findLargest key children child with
  | none =>
    rw [hcurrent] at hbest
    have hnone : merged.filter q = [] := by
      rw [filter_eq_nil_iff]
      intro x hx
      obtain ⟨i, hxi⟩ := (hmerges.mem_iff x).mp hx
      have hi := hbest i (hmem i)
      rw [hshows, getLast?_eq_none_iff, filter_eq_nil_iff] at hi
      exact hi x hxi
    rw [hnone]
    exact Agrees.invalid hcurrent fun i ↦ ⟨_, h i⟩
  | some c =>
    rw [hcurrent] at hbest
    obtain ⟨x, hx, hgreatest⟩ := hbest
    rw [hshows] at hx
    obtain ⟨hxc, hqx, -⟩ := (getLast?_filter_eq_some_iff_greatest (hmerges.sorted c)).mp hx
    have hall : ∀ i, ∀ y ∈ lists i, q y = true → key y ≤ key x := by
      intro i y hy hqy
      have hne : (lists i).filter q ≠ [] := ne_nil_of_mem (mem_filter.mpr ⟨hy, hqy⟩)
      have hz := getLast?_eq_some_getLast hne
      obtain ⟨-, -, hzgreatest⟩ := (getLast?_filter_eq_some_iff_greatest (hmerges.sorted i)).mp hz
      have hzx := hgreatest i (hmem i) _ ((hshows i).trans hz)
      exact (hzgreatest y hy hqy).trans (not_lt.mp hzx)
    have hmerged : (merged.filter q).getLast? = some x := by
      refine (getLast?_filter_eq_some_iff_greatest hmerges.merged_sorted).mpr ⟨?_, hqx, fun y hy hqy ↦ ?_⟩
      · exact (hmerges.mem_iff x).mpr ⟨c, hxc⟩
      · obtain ⟨i, hyi⟩ := (hmerges.mem_iff y).mp hy
        exact hall i y hyi hqy
    rw [hmerged]
    refine Agrees.reverse hcurrent rfl (hx ▸ h c) fun i hi ↦ ?_
    have hsame : (lists i).filter q = (lists i).filter fun y ↦ key y < key x := by
      apply filter_congr
      intro y hy
      rw [Bool.eq_iff_iff, decide_eq_true_eq]
      constructor
      · intro hqy
        exact lt_of_le_of_ne (hall i y hy hqy) (hmerges.key_ne i c hi y hy x hxc)
      · intro hlt
        exact hq y x hlt.le hqx
    exact hsame ▸ h i

omit hmerges hsim in
theorem seekAfter_shows {it : AnyIterator α τ} {l : List α} {R : it.State → Option ℕ → Prop}
    (hsim : Simulates it.ops (ofList key l) R) {state : it.State} {shown : Option α}
    (h : Shows key l R state shown) {t : τ} (hne : ∀ y ∈ l, t ≠ key y) :
    Shows key l R (seekAfter key it t state) (l.find? fun y ↦ t < key y) := by
  have hseek := h.seek hsim t
  have hsame : (l.find? fun y ↦ t ≤ key y) = l.find? fun y ↦ t < key y := by
    apply find?_congr
    intro y hy
    rw [decide_eq_decide]
    exact ⟨fun hle ↦ lt_of_le_of_ne hle (hne y hy), le_of_lt⟩
  have hnot : ¬((it.ops.get (it.ops.seek t state)).any fun a ↦ t = key a) = true := by
    rw [hseek.get_eq hsim, Option.any_eq_true]
    rintro ⟨y, hy, heq⟩
    exact hne y (mem_of_find?_eq_some hy) (of_decide_eq_true heq)
  rw [seekAfter, if_neg hnot, ← hsame]
  exact hseek

omit hmerges hsim in
theorem seekBefore_shows {it : AnyIterator α τ} {l : List α} {R : it.State → Option ℕ → Prop}
    (hsim : Simulates it.ops (ofList key l) R) (hsorted : l.Pairwise fun a b ↦ key a < key b)
    {state : it.State} {shown : Option α} (h : Shows key l R state shown) (t : τ) :
    Shows key l R (seekBefore it t state) (l.filter fun y ↦ key y < t).getLast? := by
  have hseek := h.seek hsim t
  have hget := hseek.get_eq hsim
  rw [seekBefore]
  cases hfind : l.find? fun y ↦ decide (t ≤ key y) with
  | none =>
    rw [hfind] at hget hseek
    rw [if_neg (by simp [hget])]
    have hall : l.filter (fun y ↦ key y < t) = l := by
      rw [filter_eq_self]
      intro y hy
      simpa using find?_eq_none.mp hfind y hy
    rw [hall]
    exact hseek.seekToLast hsim
  | some z =>
    rw [hfind] at hget hseek
    rw [if_pos (by simp [hget])]
    obtain ⟨-, hz, hleast⟩ := (find?_eq_some_iff_least hsorted).mp hfind
    have hsame : (l.filter fun y ↦ key y < key z) = l.filter fun y ↦ key y < t := by
      apply filter_congr
      intro y hy
      rw [decide_eq_decide]
      constructor
      · intro hlt
        by_contra hle
        exact absurd (hleast y hy (decide_eq_true (not_lt.mp hle))) (not_le.mpr hlt)
      · exact fun hlt ↦ hlt.trans_le (of_decide_eq_true hz)
    rw [← hsame]
    exact hseek.prev hsim hsorted

theorem next_agrees {m : State children} {x : α} (h : Agrees key lists R m (some x)) :
    Agrees key lists R (next key children m) (merged.find? fun y ↦ key x < key y) := by
  -- the children other than the current one are after its key, in either direction
  have hchild : ∃ c child, next key children m =
        forward key children (update child c ((children c).ops.next (child c))) ∧
      Shows key (lists c) (R c) (child c) (some x) ∧
      ∀ i, i ≠ c → Shows key (lists i) (R i) (child i)
        ((lists i).find? fun y ↦ key x < key y) := by
    unfold next
    cases h with
    | @forward c x hcurrent hdirection hc hothers =>
      refine ⟨c, m.child, ?_, hc, hothers⟩
      simp only [hcurrent, shows, hc.get_eq (hsim c), hdirection, if_true]
    | @reverse c x hcurrent hdirection hc hothers =>
      refine ⟨c, fun i ↦ if i = c then m.child i else seekAfter key (children i) (key x) (m.child i),
        ?_, ?_, fun i hi ↦ ?_⟩
      · simp [hcurrent, shows, hc.get_eq (hsim c), hdirection]
      · simpa using hc
      · simp only [if_neg hi]
        exact seekAfter_shows (hsim i) (hothers i hi)
          fun y hy ↦ hmerges.key_ne c i (Ne.symm hi) x hc.mem y hy
  obtain ⟨c, child, heq, hc, hothers⟩ := hchild
  rw [heq]
  apply forward_agrees hmerges hsim
  · intro y z hle hy
    exact decide_eq_true ((of_decide_eq_true hy).trans_le hle)
  · intro i
    by_cases hi : i = c
    · subst hi
      rw [update_self]
      exact hc.next (hsim i) (hmerges.sorted i)
    · rw [update_of_ne hi]
      exact hothers i hi

theorem prev_agrees {m : State children} {x : α} (h : Agrees key lists R m (some x)) :
    Agrees key lists R (prev key children m) (merged.filter fun y ↦ key y < key x).getLast? := by
  have hchild : ∃ c child, prev key children m =
        backward key children (update child c ((children c).ops.prev (child c))) ∧
      Shows key (lists c) (R c) (child c) (some x) ∧
      ∀ i, i ≠ c → Shows key (lists i) (R i) (child i)
        ((lists i).filter fun y ↦ key y < key x).getLast? := by
    unfold prev
    cases h with
    | @forward c x hcurrent hdirection hc hothers =>
      refine ⟨c, fun i ↦ if i = c then m.child i else seekBefore (children i) (key x) (m.child i),
        ?_, ?_, fun i hi ↦ ?_⟩
      · simp [hcurrent, shows, hc.get_eq (hsim c), hdirection]
      · simpa using hc
      · simp only [if_neg hi]
        exact seekBefore_shows (hsim i) (hmerges.sorted i) (hothers i hi) (key x)
    | @reverse c x hcurrent hdirection hc hothers =>
      refine ⟨c, m.child, ?_, hc, hothers⟩
      simp only [hcurrent, shows, hc.get_eq (hsim c), hdirection, if_true]
  obtain ⟨c, child, heq, hc, hothers⟩ := hchild
  rw [heq]
  apply backward_agrees hmerges hsim
  · intro y z hle hz
    exact decide_eq_true (hle.trans_lt (of_decide_eq_true hz))
  · intro i
    by_cases hi : i = c
    · subst hi
      rw [update_self]
      exact hc.prev (hsim i) (hmerges.sorted i)
    · rw [update_of_ne hi]
      exact hothers i hi

theorem simulates :
    Simulates (iterator key children) (ofList key merged)
      fun m position ↦ Agrees key lists R m ((ofList key merged).get position) where
  get h := h.get_eq hsim
  seekToFirst {m position} h := by
    have hfirst : ∀ l : List α, l.head? = l.find? fun _ ↦ true := fun l ↦ by cases l <;> rfl
    rw [get_seekToFirst, hfirst]
    refine forward_agrees hmerges hsim (fun _ _ _ _ ↦ rfl) fun i ↦ ?_
    obtain ⟨shown, hi⟩ := h.shows i
    rw [← hfirst]
    exact hi.seekToFirst (hsim i)
  seekToLast {m position} h := by
    have hlast : ∀ l : List α, l.getLast? = (l.filter fun _ ↦ true).getLast? := fun l ↦ by simp
    rw [get_seekToLast, hlast]
    refine backward_agrees hmerges hsim (fun _ _ _ _ ↦ rfl) fun i ↦ ?_
    obtain ⟨shown, hi⟩ := h.shows i
    rw [← hlast]
    exact hi.seekToLast (hsim i)
  seek {m position} t h := by
    rw [get_seek]
    refine forward_agrees hmerges hsim ?_ fun i ↦ ?_
    · intro x y hle hx
      exact decide_eq_true ((of_decide_eq_true hx).trans hle)
    · obtain ⟨shown, hi⟩ := h.shows i
      exact hi.seek (hsim i) t
  next {m position} h hvalid := by
    obtain ⟨x, hx⟩ := Option.isSome_iff_exists.mp hvalid
    obtain ⟨i, rfl, hi⟩ := Option.bind_eq_some_iff.mp hx
    rw [hx] at h
    rw [get_next hmerges.merged_sorted hi]
    exact next_agrees hmerges hsim h
  prev {m position} h hvalid := by
    obtain ⟨x, hx⟩ := Option.isSome_iff_exists.mp hvalid
    obtain ⟨i, rfl, hi⟩ := Option.bind_eq_some_iff.mp hx
    rw [hx] at h
    rw [get_prev hmerges.merged_sorted hi]
    exact prev_agrees hmerges hsim h

end

end Merged

theorem faithful_new {key : α → τ} {children : Fin n → AnyIterator α τ} {lists : Fin n → List α}
    {merged : List α} (hmerges : Merges key lists merged)
    (hfaithful : ∀ i, (children i).Faithful key (lists i)) : (new key children).Faithful key merged := by
  choose R hsim hstart using hfaithful
  exact ⟨_, simulates hmerges hsim, Agrees.invalid rfl fun i ↦ ⟨none, none, hstart i, rfl⟩⟩

/-- The iterator that `NewMergingIterator` makes of faithful iterators over sorted lists without a common
key is faithful to the merged list. -/
theorem faithful_newMergingIterator {key : α → τ} {list : List (AnyIterator α τ)} {lists : List (List α)}
    {merged : List α} (hfaithful : List.Forall₂ (AnyIterator.Faithful key) list lists)
    (hsorted : ∀ l ∈ lists, l.Pairwise fun a b ↦ key a < key b)
    (hne : lists.Pairwise fun l l' ↦ ∀ x ∈ l, ∀ y ∈ l', key x ≠ key y)
    (hmerged : merged.Pairwise fun a b ↦ key a < key b) (hmem : ∀ x, x ∈ merged ↔ ∃ l ∈ lists, x ∈ l) :
    (newMergingIterator key list).Faithful key merged := by
  match list, lists, hfaithful with
  | [], [], _ =>
    obtain rfl : merged = [] := eq_nil_iff_forall_not_mem.mpr fun x hx ↦ by simpa using (hmem x).mp hx
    exact AnyIterator.faithful_empty key
  | [it], [l], .cons hit .nil =>
    obtain rfl : merged = l :=
      SortedLists.eq_of_pairwise_of_mem_iff hmerged (hsorted l mem_cons_self) (by simpa using hmem)
    exact hit
  | it :: it' :: rest, lists, hfaithful =>
    have hlength := hfaithful.length_eq
    have hget := (forall₂_iff_get.mp hfaithful).2
    have hmerges : Merges key
        (fun i : Fin (it :: it' :: rest).length ↦ lists.get (i.cast hlength)) merged := by
      refine ⟨fun i ↦ hsorted _ (get_mem _ _), hmerged, fun x ↦ ?_, fun i j hij x hx y hy ↦ ?_⟩
      · rw [hmem, exists_mem_iff_get]
        exact ⟨fun ⟨i, hi⟩ ↦ ⟨i.cast hlength.symm, hi⟩, fun ⟨i, hi⟩ ↦ ⟨i.cast hlength, hi⟩⟩
      · rcases lt_or_gt_of_ne hij with hlt | hlt
        · exact pairwise_iff_get.mp hne (i.cast hlength) (j.cast hlength) hlt x hx y hy
        · exact (pairwise_iff_get.mp hne (j.cast hlength) (i.cast hlength) hlt y hy x hx).symm
    exact faithful_new hmerges fun i ↦ hget i.1 i.2 (hlength ▸ i.2)

def sortedMerge (key : α → τ) (lists : List (List α)) : List α :=
  lists.flatten.insertionSort fun a b ↦ key a ≤ key b

theorem mem_sortedMerge {key : α → τ} {lists : List (List α)} {x : α} :
    x ∈ sortedMerge key lists ↔ ∃ l ∈ lists, x ∈ l := by
  rw [sortedMerge, mem_insertionSort, mem_flatten]

theorem sortedMerge_sorted {key : α → τ} {lists : List (List α)}
    (hsorted : ∀ l ∈ lists, l.Pairwise fun a b ↦ key a < key b)
    (hne : lists.Pairwise fun l l' ↦ ∀ x ∈ l, ∀ y ∈ l', key x ≠ key y) :
    (sortedMerge key lists).Pairwise fun a b ↦ key a < key b := by
  have hdistinct : lists.flatten.Pairwise fun a b ↦ key a ≠ key b :=
    pairwise_flatten.mpr ⟨fun l hl ↦ (hsorted l hl).imp ne_of_lt, hne⟩
  have hdistinct : (sortedMerge key lists).Pairwise fun a b ↦ key a ≠ key b :=
    ((perm_insertionSort _ _).pairwise_iff fun h ↦ h.symm).mpr hdistinct
  have : Std.Total fun a b : α ↦ key a ≤ key b := ⟨fun a b ↦ le_total (key a) (key b)⟩
  have : IsTrans α fun a b ↦ key a ≤ key b := ⟨fun _ _ _ ↦ le_trans⟩
  have hle : (sortedMerge key lists).Pairwise fun a b ↦ key a ≤ key b := pairwise_insertionSort _ _
  exact (hle.and hdistinct).imp fun h ↦ lt_of_le_of_ne h.1 h.2

/-- A merging iterator over two or more faithful children, whose lists are sorted and have no key in
common, shows after every sequence of calls what the cursor over the sorted merge shows. -/
theorem merging_iterator_is_cursor {key : α → τ} {list : List (AnyIterator α τ)} {lists : List (List α)}
    (hn : 2 ≤ list.length) (hfaithful : List.Forall₂ (AnyIterator.Faithful key) list lists)
    (hsorted : ∀ l ∈ lists, l.Pairwise fun a b ↦ key a < key b)
    (hne : lists.Pairwise fun l l' ↦ ∀ x ∈ l, ∀ y ∈ l', key x ≠ key y) (calls : List (Call τ))
    (hcalls : (new key list.get).ops.allows (new key list.get).start calls = true) :
    newMergingIterator key list = new key list.get ∧
      (new key list.get).ops.get ((new key list.get).ops.run (new key list.get).start calls) =
        (ofList key (sortedMerge key lists)).get
          ((ofList key (sortedMerge key lists)).run none calls) := by
  have hnew : newMergingIterator key list = new key list.get := by
    match list, hn with
    | _ :: _ :: _, _ => rfl
  have hmerged := faithful_newMergingIterator hfaithful hsorted hne (sortedMerge_sorted hsorted hne)
    fun x ↦ mem_sortedMerge
  rw [hnew] at hmerged
  exact ⟨hnew, hmerged.get_run hcalls⟩

/-- Two children, with a change of direction at each end of the second one's list. -/
theorem merging_iterator_is_cursor_around_a_child :
    (new id [AnyIterator.ofList id [1, 4], AnyIterator.ofList id [2, 3]].get).ops.get
        ((new id [AnyIterator.ofList id [1, 4], AnyIterator.ofList id [2, 3]].get).ops.run
          (new id [AnyIterator.ofList id [1, 4], AnyIterator.ofList id [2, 3]].get).start
          [.seek 4, .prev, .prev, .prev, .next]) = some 2 := by
  have hrun := (merging_iterator_is_cursor (by decide)
    (.cons (AnyIterator.faithful_ofList id [1, 4]) (.cons (AnyIterator.faithful_ofList id [2, 3]) .nil))
    (by decide) (by decide) [.seek 4, .prev, .prev, .prev, .next] (by decide)).2
  exact hrun.trans (by decide)

end LevelDB.Table.Merger
