import Mathlib.Data.List.Sort
import Mathlib.Data.List.TakeWhile
import Mathlib.Tactic

/-!
# Sorted lists

Binary search for the partition point of a monotone test, and the merge of a sorted list into
another one.
-/

namespace LevelDB.Library.SortedLists

open List

/-- Halve `[left, right)` until it is empty; `below` is true on an initial segment. -/
def partitionPoint (below : ℕ → Bool) : ℕ → ℕ → ℕ → ℕ
  | 0, _, right => right
  | fuel + 1, left, right =>
    if left < right then
      let mid := (left + right) / 2
      if below mid then partitionPoint below fuel (mid + 1) right
      else partitionPoint below fuel left mid
    else right

/-- With enough fuel the search ends at the length of the initial segment. -/
theorem partitionPoint_eq {below : ℕ → Bool} {n fuel left right : ℕ} (hleft : left ≤ n)
    (hright : n ≤ right) (hbelow : ∀ i, i < right → (below i = true ↔ i < n))
    (hfuel : right - left ≤ fuel) : partitionPoint below fuel left right = n := by
  induction fuel generalizing left right with
  | zero =>
    simp only [partitionPoint]
    omega
  | succ fuel ih =>
    simp only [partitionPoint]
    split
    · rename_i hlt
      have hmid : (left + right) / 2 < right := by omega
      cases hb : below ((left + right) / 2) with
      | true =>
        have hn := (hbelow _ hmid).mp hb
        exact ih (by omega) hright hbelow (by omega)
      | false =>
        have hn : n ≤ (left + right) / 2 := by
          by_contra hlt'
          simp [(hbelow _ hmid).mpr (by omega)] at hb
        exact ih hleft hn (fun i hi ↦ hbelow i (by omega)) (by omega)
    · omega

variable {α : Type*}

/-- On a list along which the test turns from true to false at most once, the test holds exactly
on the initial segment that `takeWhile` collects. -/
theorem getElem_test_iff {p : α → Bool} {l : List α} (hmono : l.Pairwise fun x y ↦ p y = true → p x = true)
    {i : ℕ} (hi : i < l.length) : p l[i] = true ↔ i < (l.takeWhile p).length := by
  induction l generalizing i with
  | nil => simp at hi
  | cons x rest ih =>
    rw [pairwise_cons] at hmono
    cases hx : p x with
    | true =>
      rw [takeWhile_cons_of_pos hx]
      cases i with
      | zero => simp [hx]
      | succ i => simpa using ih hmono.2 (by simpa using hi)
    | false =>
      rw [takeWhile_cons_of_neg (by simp [hx])]
      cases i with
      | zero => simp [hx]
      | succ i =>
        have hi' : i < rest.length := by simpa using hi
        have hrest : p rest[i] ≠ true := by
          intro hp
          have := hmono.1 _ (getElem_mem hi') hp
          simp [hx] at this
        simpa using hrest

/-- The element at which `takeWhile` stops is the first one that fails the test. -/
theorem getElem?_length_takeWhile (p : α → Bool) (l : List α) :
    l[(l.takeWhile p).length]? = l.find? fun x ↦ !p x := by
  induction l with
  | nil => rfl
  | cons x rest ih =>
    cases hx : p x with
    | true => simpa [takeWhile_cons, hx] using ih
    | false => simp [hx]

theorem findIdx?_not_eq (p : α → Bool) (l : List α) : (l.findIdx? fun x ↦ !p x) =
      if (l.takeWhile p).length < l.length then some (l.takeWhile p).length else none := by
  induction l with
  | nil => rfl
  | cons x rest ih =>
    cases hx : p x with
    | true =>
      simp only [findIdx?_cons, hx, takeWhile_cons_of_pos, ih, length_cons,
        Nat.add_lt_add_iff_right, Bool.not_true, Bool.false_eq_true, if_false]
      split <;> rfl
    | false => simp [findIdx?_cons, hx]

/-- A list along which the test turns from true to false at most once is cut in two by it. -/
theorem filter_append_filter_not {p : α → Bool} {l : List α}
    (hmono : l.Pairwise fun x y ↦ p y = true → p x = true) : l.filter p ++ l.filter (fun x ↦ !p x) = l := by
  induction l with
  | nil => rfl
  | cons x rest ih =>
    obtain ⟨hx, hrest⟩ := pairwise_cons.mp hmono
    cases hp : p x with
    | true => simp only [filter_cons, hp, if_true, cons_append, ih hrest, Bool.not_true,
        Bool.false_eq_true, if_false]
    | false =>
      have hnone : ∀ y ∈ rest, p y = false := by
        intro y hy
        rw [← Bool.not_eq_true]
        intro hy'
        rw [hx y hy hy'] at hp
        contradiction
      have hfilter : rest.filter p = [] := by
        rw [filter_eq_nil_iff]
        exact fun y hy ↦ by simp [hnone y hy]
      have hall : rest.filter (fun y ↦ !p y) = rest := by
        rw [filter_eq_self]
        exact fun y hy ↦ by simp [hnone y hy]
      simp [hp, hfilter, hall]

/-- `x` is the last element that meets such a test, or the given one if there is none, and `after` begins
with the first that fails it. -/
theorem getLastD_filter_of_split {p : α → Bool} {l : List α}
    (hmono : l.Pairwise fun x y ↦ p y = true → p x = true) {first x : α} {before after : List α}
    (hsplit : first :: l = before ++ x :: after) (hx : before ≠ [] → p x = true)
    (hafter : ∀ y ∈ after.head?, p y = false) :
    (l.filter p).getLastD first = x ∧ l.find? (fun y ↦ !p y) = after.head? := by
  have hfails : ∀ {rest : List α}, rest.Pairwise (fun x y ↦ p y = true → p x = true) →
      (∀ y ∈ rest.head?, p y = false) → rest.filter p = [] ∧ rest.find? (fun y ↦ !p y) = rest.head? := by
    intro rest hrest hhead
    cases rest with
    | nil => exact ⟨rfl, rfl⟩
    | cons y rest =>
      have hy : p y = false := hhead y rfl
      refine ⟨?_, by simp [hy]⟩
      rw [filter_eq_nil_iff]
      intro z hz hpz
      rcases mem_cons.mp hz with rfl | hz
      · rw [hpz] at hy
        contradiction
      · rw [(pairwise_cons.mp hrest).1 z hz hpz] at hy
        contradiction
  cases before with
  | nil =>
    obtain ⟨rfl, rfl⟩ := List.cons.inj hsplit
    obtain ⟨hfilter, hfind⟩ := hfails hmono hafter
    rw [hfilter, hfind]
    exact ⟨rfl, rfl⟩
  | cons b before =>
    obtain ⟨rfl, rfl⟩ := List.cons.inj hsplit
    obtain ⟨-, hrest, hcross⟩ := pairwise_append.mp hmono
    have hpx := hx (cons_ne_nil _ _)
    obtain ⟨hfilter, hfind⟩ := hfails (pairwise_cons.mp hrest).2 hafter
    constructor
    · simp [filter_append, hpx, hfilter]
    · have hbefore : ∀ y ∈ before, p y = true := fun y hy ↦ hcross y hy x mem_cons_self hpx
      have hnone : before.find? (fun y ↦ !p y) = none := by
        rw [find?_eq_none]
        exact fun y hy ↦ by simp [hbefore y hy]
      simp [find?_append, hnone, hpx, hfind]

theorem findSome?_flatMap {β γ : Type*} (l : List α) (f : α → List β) (p : β → Option γ) :
    (l.flatMap f).findSome? p = l.findSome? fun a ↦ (f a).findSome? p := by
  induction l with
  | nil => rfl
  | cons a rest ih =>
    rw [flatMap_cons, findSome?_append, findSome?_cons, ih]
    cases (f a).findSome? p <;> rfl

/-- A test that implies another one and fails on a member that meets the other counts less. -/
theorem countP_lt_countP {p q : α → Bool} {l : List α} (himp : ∀ x ∈ l, p x = true → q x = true)
    {a : α} (ha : a ∈ l) (hp : p a = false) (hq : q a = true) : l.countP p < l.countP q := by
  induction l with
  | nil => cases ha
  | cons x rest ih =>
    have hrest : rest.countP p ≤ rest.countP q := countP_mono_left fun y hy ↦ himp y (mem_cons_of_mem x hy)
    rcases mem_cons.mp ha with rfl | ha'
    · rw [countP_cons_of_neg (by simp [hp]), countP_cons_of_pos hq]
      omega
    · have hlt := ih (fun y hy ↦ himp y (mem_cons_of_mem x hy)) ha'
      cases hx : p x with
      | true =>
        rw [countP_cons_of_pos hx, countP_cons_of_pos (himp x mem_cons_self hx)]
        omega
      | false =>
        rw [countP_cons_of_neg (by simp [hx]), countP_cons]
        omega

section ByKey

variable {κ : Type*} [LinearOrder κ] (key : α → κ)

/-- Insertion into an ordered set: an element whose key is already there is not inserted. -/
def insertByKey (x : α) : List α → List α
  | [] => [x]
  | y :: rest =>
    if key x < key y then x :: y :: rest
    else if key y < key x then y :: insertByKey x rest
    else y :: rest

/-- Merge `added` into `base`: before each added element come the elements of `base` up to its
upper bound. -/
def mergeByKey : List α → List α → List α
  | base, [] => base
  | base, a :: added =>
    (base.takeWhile fun b ↦ !decide (key a < key b)) ++
      a :: mergeByKey (base.dropWhile fun b ↦ !decide (key a < key b)) added

variable {key}

theorem mem_of_mem_insertByKey {x y : α} {l : List α} (h : y ∈ insertByKey key x l) : y = x ∨ y ∈ l := by
  induction l with
  | nil => simpa [insertByKey] using h
  | cons z rest ih =>
    simp only [insertByKey] at h
    split_ifs at h with h₁ h₂
    · simpa using h
    · rcases mem_cons.mp h with rfl | h
      · exact .inr mem_cons_self
      · exact (ih h).imp_right (mem_cons_of_mem z)
    · exact .inr h

theorem mem_insertByKey_of_mem {x y : α} {l : List α} (h : y ∈ l) : y ∈ insertByKey key x l := by
  induction l with
  | nil => cases h
  | cons z rest ih =>
    simp only [insertByKey]
    split_ifs with h₁ h₂
    · exact mem_cons_of_mem x h
    · rcases mem_cons.mp h with rfl | h
      · exact mem_cons_self
      · exact mem_cons_of_mem z (ih h)
    · exact h

theorem mem_insertByKey_self {x : α} {l : List α} (hfresh : ∀ y ∈ l, key y ≠ key x) :
    x ∈ insertByKey key x l := by
  induction l with
  | nil => simp [insertByKey]
  | cons z rest ih =>
    simp only [insertByKey]
    split_ifs with h₁ h₂
    · exact mem_cons_self
    · exact mem_cons_of_mem z (ih fun y hy ↦ hfresh y (mem_cons_of_mem z hy))
    · exact absurd (le_antisymm (not_lt.mp h₁) (not_lt.mp h₂)) (hfresh z mem_cons_self)

theorem pairwise_insertByKey {x : α} {l : List α} (h : l.Pairwise fun y z ↦ key y < key z) :
    (insertByKey key x l).Pairwise fun y z ↦ key y < key z := by
  induction l with
  | nil => simp [insertByKey]
  | cons z rest ih =>
    rw [pairwise_cons] at h
    simp only [insertByKey]
    split_ifs with h₁ h₂
    · refine pairwise_cons.mpr ⟨?_, pairwise_cons.mpr h⟩
      intro y hy
      rcases mem_cons.mp hy with rfl | hy
      · exact h₁
      · exact h₁.trans (h.1 y hy)
    · refine pairwise_cons.mpr ⟨?_, ih h.2⟩
      intro y hy
      rcases mem_of_mem_insertByKey hy with rfl | hy
      · exact h₂
      · exact h.1 y hy
    · exact pairwise_cons.mpr h

theorem mem_mergeByKey {base added : List α} {x : α} :
    x ∈ mergeByKey key base added ↔ x ∈ base ∨ x ∈ added := by
  induction added generalizing base with
  | nil => simp [mergeByKey]
  | cons a added ih =>
    simp only [mergeByKey, mem_append, mem_cons, ih]
    have hsplit : x ∈ base ↔ x ∈ (base.takeWhile fun b ↦ !decide (key a < key b)) ∨
        x ∈ base.dropWhile fun b ↦ !decide (key a < key b) := by
      rw [← mem_append, takeWhile_append_dropWhile]
    rw [hsplit]
    tauto

/-- Merging two ordered sets without a common key gives an ordered set. -/
theorem pairwise_mergeByKey {base added : List α} (hbase : base.Pairwise fun y z ↦ key y < key z)
    (hadded : added.Pairwise fun y z ↦ key y < key z) (hdisjoint : ∀ b ∈ base, ∀ a ∈ added, key a ≠ key b) :
    (mergeByKey key base added).Pairwise fun y z ↦ key y < key z := by
  induction added generalizing base with
  | nil => simpa [mergeByKey] using hbase
  | cons a added ih =>
    rw [pairwise_cons] at hadded
    have happend := hbase
    rw [← takeWhile_append_dropWhile (p := fun b ↦ !decide (key a < key b)) (l := base),
      pairwise_append] at happend
    obtain ⟨htake, hdrop, hcross⟩ := happend
    have hbefore : ∀ b ∈ base.takeWhile fun b ↦ !decide (key a < key b), key b < key a := by
      intro b hb
      have hle := mem_takeWhile_imp hb
      simp only [Bool.not_eq_eq_eq_not, Bool.not_true, decide_eq_false_iff_not, not_lt] at hle
      exact lt_of_le_of_ne hle fun heq ↦
        hdisjoint b ((takeWhile_sublist _).subset hb) a mem_cons_self heq.symm
    have hafter : ∀ b ∈ base.dropWhile fun b ↦ !decide (key a < key b), key a < key b := by
      intro b hb
      cases hd : base.dropWhile fun b ↦ !decide (key a < key b) with
      | nil => simp [hd] at hb
      | cons c rest =>
        have hc : key a < key c := by
          have := head_dropWhile_not (fun b ↦ !decide (key a < key b)) (l := base) (by simp [hd])
          simpa [hd] using this
        rw [hd] at hb hdrop
        rcases mem_cons.mp hb with rfl | hb
        · exact hc
        · exact hc.trans ((pairwise_cons.mp hdrop).1 b hb)
    have hrest := ih hdrop hadded.2 fun b hb c hc ↦
      hdisjoint b ((dropWhile_sublist _).subset hb) c (mem_cons_of_mem a hc)
    simp only [mergeByKey]
    rw [pairwise_append]
    refine ⟨htake, pairwise_cons.mpr ⟨?_, hrest⟩, ?_⟩
    · intro y hy
      rcases mem_mergeByKey.mp hy with hy | hy
      · exact hafter y hy
      · exact hadded.1 y hy
    · intro y hy z hz
      rcases mem_cons.mp hz with rfl | hz
      · exact hbefore y hy
      · rcases mem_mergeByKey.mp hz with hz | hz
        · exact hcross y hy z hz
        · exact (hbefore y hy).trans (hadded.1 z hz)

/-- An ordered set is determined by its members. -/
theorem eq_of_pairwise_of_mem_iff {l l' : List α} (h : l.Pairwise fun y z ↦ key y < key z)
    (h' : l'.Pairwise fun y z ↦ key y < key z) (hmem : ∀ x, x ∈ l ↔ x ∈ l') : l = l' := by
  have hnodup : ∀ {l : List α}, (l.Pairwise fun y z ↦ key y < key z) → l.Nodup := fun h ↦
    h.imp fun hlt heq ↦ absurd (heq ▸ hlt) (lt_irrefl _)
  have hperm : l.Perm l' := (perm_ext_iff_of_nodup (hnodup h) (hnodup h')).mpr hmem
  exact hperm.eq_of_pairwise (fun a b _ _ hab hba ↦ absurd hab hba.asymm) h h'

end ByKey

end LevelDB.Library.SortedLists
