import LevelDB.Db.SkipList

/-!
# Skip lists between two stores

The invariant of `db/skiplist.h`, what its searches find in a list that has it, and that every single
store of `Insert` keeps it.
-/

namespace LevelDB.Db.SkipList

open LevelDB.Library List

open LevelDB.Library.SortedLists

section Links

variable {K : Type*}

/-- The key of a node, with `head_` before all others. -/
def rank (s : SkipList K) (x : ℕ) : WithBot K := s.key x

/-- The nodes that are linked behind `x` at a level. -/
def Path (s : SkipList K) (level : ℕ) : ℕ → List ℕ → Prop
  | x, [] => s.next x level = some none
  | x, y :: ys => s.next x level = some (some y) ∧ Path s level y ys

theorem Path.next_eq {s : SkipList K} {level x : ℕ} {ys : List ℕ} (h : Path s level x ys) :
    s.next x level = some ys.head? := by
  cases ys with
  | nil => exact h
  | cons y ys => exact h.1

/-- Every node on a path is followed by the nodes after it. -/
theorem Path.next_of_split {s : SkipList K} {level x y : ℕ} {xs before after : List ℕ}
    (h : Path s level x xs) (hsplit : x :: xs = before ++ y :: after) : s.next y level = some after.head? := by
  induction before generalizing x xs with
  | nil =>
    obtain ⟨rfl, rfl⟩ := List.cons.inj hsplit
    exact h.next_eq
  | cons b before ih =>
    obtain ⟨rfl, hxs⟩ := List.cons.inj hsplit
    cases xs with
    | nil => exact absurd hxs.symm (by simp)
    | cons z zs => exact ih h.2 hxs

/-- The last of the first nodes of a path is followed by the rest of it. -/
theorem Path.next_getLastD {s : SkipList K} {level x : ℕ} {before after : List ℕ}
    (h : Path s level x (before ++ after)) : s.next (before.getLastD x) level = some after.head? := by
  induction before generalizing x with
  | nil => exact h.next_eq
  | cons b before ih =>
    rw [getLastD_cons]
    exact ih h.2

theorem Path.congr {s s' : SkipList K} {level x : ℕ} {ys : List ℕ} (h : Path s level x ys)
    (hnext : ∀ y ∈ x :: ys, s'.next y level = s.next y level) : Path s' level x ys := by
  induction ys generalizing x with
  | nil => exact (hnext x mem_cons_self).trans h
  | cons y ys ih =>
    refine ⟨(hnext x mem_cons_self).trans h.1, ih h.2 fun z hz ↦ hnext z (mem_cons_of_mem x hz)⟩

/-- A node that is linked behind the last one of `before`, and that is itself linked to what followed. -/
theorem Path.insert {s s' : SkipList K} {level x n : ℕ} {before after : List ℕ}
    (h : Path s level x (before ++ after)) (hnodup : (x :: (before ++ after)).Nodup)
    (hfresh : n ∉ x :: (before ++ after))
    (hprev : s'.next (before.getLastD x) level = some (some n)) (hnew : s'.next n level = some after.head?)
    (hframe : ∀ y, y ≠ before.getLastD x → y ≠ n → s'.next y level = s.next y level) :
    Path s' level x (before ++ n :: after) := by
  induction before generalizing x with
  | nil =>
    refine ⟨hprev, ?_⟩
    have hafter : ∀ y ∈ after, s'.next y level = s.next y level := by
      intro y hy
      refine hframe y ?_ ?_
      · rintro rfl
        exact (nodup_cons.mp hnodup).1 hy
      · rintro rfl
        exact hfresh (mem_cons_of_mem x hy)
    cases after with
    | nil => exact hnew
    | cons y after => exact ⟨hnew, Path.congr h.2 hafter⟩
  | cons b before ih =>
    rw [getLastD_cons] at hprev hframe
    have hlast : before.getLastD b ∈ b :: (before ++ after) := by
      cases before with
      | nil => exact mem_cons_self
      | cons c before =>
        rw [getLastD_cons]
        exact mem_cons_of_mem b (mem_append_left _ (getLastD_mem_cons ..))
    have hx : x ≠ before.getLastD b := by
      rintro rfl
      exact (nodup_cons.mp hnodup).1 hlast
    have hxn : x ≠ n := by
      rintro rfl
      exact hfresh mem_cons_self
    refine ⟨(hframe x hx hxn).trans h.1, ih h.2 (nodup_cons.mp hnodup).2 ?_ hprev hframe⟩
    exact fun hn ↦ hfresh (mem_cons_of_mem x hn)

end Links

variable {K : Type*} [LinearOrder K]

structure Linked (s : SkipList K) (levels : ℕ → List ℕ) : Prop where
  path : ∀ level < kMaxHeight, Path s level head (levels level)
  sorted : ∀ level, (head :: levels level).Pairwise fun x y ↦ s.rank x < s.rank y
  sublist : ∀ level, (levels (level + 1)).Sublist (levels level)
  empty : ∀ level, s.maxHeight ≤ level → levels level = []
  head_key : s.key head = none
  maxHeight_pos : 0 < s.maxHeight
  maxHeight_le : s.maxHeight ≤ kMaxHeight

namespace Linked

variable {s : SkipList K} {levels : ℕ → List ℕ}

section

variable (h : Linked s levels)

include h

theorem sublist_of_le {low high : ℕ} (hle : low ≤ high) : (levels high).Sublist (levels low) := by
  induction high, hle using Nat.le_induction with
  | base => exact .refl _
  | succ high _ ih => exact (h.sublist high).trans ih

theorem exists_key {level x : ℕ} (hx : x ∈ levels level) : ∃ k, s.key x = some k := by
  have hlt : s.rank head < s.rank x := (pairwise_cons.mp (h.sorted level)).1 x hx
  exact Option.ne_none_iff_exists'.mp (ne_bot_of_gt hlt)

theorem nodup (level : ℕ) : (head :: levels level).Nodup :=
  (h.sorted level).imp fun hlt heq ↦ absurd (heq ▸ hlt) (lt_irrefl _)

theorem key_lt (level : ℕ) :
    (levels level).Pairwise fun x y ↦ ∀ j k, s.key x = some j → s.key y = some k → j < k := by
  refine (pairwise_cons.mp (h.sorted level)).2.imp fun hlt j k hj hk ↦ ?_
  rw [rank, rank, hj, hk] at hlt
  exact WithBot.coe_lt_coe.mp hlt

/-- The nodes of a level that a search goes past. -/
def passed (s : SkipList K) (advance : K → Bool) (x : ℕ) : Bool := (s.key x).any advance

/-- A search goes past an initial part of a level. -/
theorem passed_mono {advance : K → Bool} (hadvance : ∀ j k, j < k → advance k = true → advance j = true)
    (level : ℕ) :
    (levels level).Pairwise fun x y ↦ passed s advance y = true → passed s advance x = true := by
  refine List.Pairwise.imp_of_mem ?_ (h.key_lt level)
  intro x y hx hy hlt
  obtain ⟨j, hj⟩ := h.exists_key hx
  obtain ⟨k, hk⟩ := h.exists_key hy
  rw [passed, passed, hj, hk, Option.any_some, Option.any_some]
  exact hadvance j k (hlt j k hj hk)

def lastPassed (s : SkipList K) (levels : ℕ → List ℕ) (advance : K → Bool) (level : ℕ) : ℕ :=
  ((levels level).filter (passed s advance)).getLastD head

/-- A search ends at the place of level 0 where the keys stop to be passed. -/
theorem search_eq {advance : K → Bool} (hadvance : ∀ j k, j < k → advance k = true → advance j = true)
    {check : ℕ → Bool} (hcheck : ∀ x, x = head ∨ passed s advance x = true → check x = true)
    {fuel x level : ℕ} (prev : List ℕ) (hx : x = head ∨ x ∈ levels level ∧ passed s advance x = true)
    (hlevel : level < kMaxHeight) (hfuel : (levels 0).countP (fun y ↦ s.rank x < s.rank y) + level < fuel) :
    s.search advance check fuel x level prev =
      some ⟨lastPassed s levels advance 0, (levels 0).find? fun y ↦ !passed s advance y,
        (List.range (level + 1)).map (lastPassed s levels advance) ++ prev⟩ := by
  induction fuel generalizing x level prev with
  | zero => omega
  | succ fuel ih =>
    obtain ⟨before, after, hsplit, hbefore⟩ : ∃ before after, head :: levels level = before ++ x :: after ∧
        (before ≠ [] → passed s advance x = true) := by
      rcases hx with rfl | ⟨hmem, hpassed⟩
      · exact ⟨[], levels level, rfl, fun hne ↦ absurd rfl hne⟩
      · obtain ⟨before, after, hsplit⟩ := append_of_mem hmem
        exact ⟨head :: before, after, congrArg (head :: ·) hsplit, fun _ ↦ hpassed⟩
    have hnext := (h.path level hlevel).next_of_split hsplit
    have hok : check x = true := hcheck x (hx.imp_right And.right)
    -- Down to the next level, or the end of the search, when the next node is not passed.
    have hstop (hafter : ∀ y ∈ after.head?, passed s advance y = false)
        (hadvances : s.advances advance after.head? = some none) :
        s.search advance check (fuel + 1) x level prev =
          some ⟨lastPassed s levels advance 0, (levels 0).find? fun y ↦ !passed s advance y,
            (List.range (level + 1)).map (lastPassed s levels advance) ++ prev⟩ := by
      obtain ⟨hlast, hfind⟩ := getLastD_filter_of_split (h.passed_mono hadvance level) hsplit hbefore hafter
      rw [search, if_pos hok, hnext]
      simp only [hadvances]
      cases level with
      | zero =>
        rw [if_pos rfl, ← hfind, ← hlast]
        rfl
      | succ level =>
        have hx' : x = head ∨ x ∈ levels level ∧ passed s advance x = true :=
          hx.imp_right fun hx ↦ ⟨(h.sublist level).subset hx.1, hx.2⟩
        rw [if_neg (Nat.succ_ne_zero level), Nat.add_sub_cancel, ih (x :: prev) hx' (by omega) (by omega),
          range_succ (n := level + 1), map_append, append_assoc]
        have hlast' : lastPassed s levels advance (level + 1) = x := hlast
        rw [map_singleton, hlast', singleton_append]
    cases after with
    | nil => exact hstop (by simp) rfl
    | cons y after =>
      have hy : y ∈ levels level := by
        cases before with
        | nil =>
          rw [(List.cons.inj hsplit).2]
          exact mem_cons_self
        | cons b before =>
          rw [(List.cons.inj hsplit).2]
          exact mem_append_right _ (mem_cons_of_mem x mem_cons_self)
      obtain ⟨k, hk⟩ := h.exists_key hy
      cases hadv : advance k with
      | false =>
        refine hstop ?_ ?_
        · rintro z ⟨⟩
          rw [passed, hk, Option.any_some, hadv]
        · simp only [head?_cons, advances, hk, Option.map_some, hadv, Bool.false_eq_true, if_false]
      | true =>
        have hrank : s.rank x < s.rank y := by
          have hpairwise := h.sorted level
          rw [hsplit, pairwise_append] at hpairwise
          exact (pairwise_cons.mp hpairwise.2.1).1 y mem_cons_self
        have hcount : (levels 0).countP (fun z ↦ s.rank y < s.rank z) <
            (levels 0).countP (fun z ↦ s.rank x < s.rank z) := by
          refine countP_lt_countP (fun z _ hz ↦ ?_) ((h.sublist_of_le (Nat.zero_le level)).subset hy) ?_ ?_
          · exact decide_eq_true (hrank.trans (of_decide_eq_true hz))
          · exact decide_eq_false (lt_irrefl _)
          · exact decide_eq_true hrank
        rw [search, if_pos hok, hnext]
        simp only [head?_cons, advances, hk, Option.map_some, hadv, if_true]
        refine ih prev (.inr ⟨hy, ?_⟩) hlevel (by omega)
        rw [passed, hk, Option.any_some, hadv]

theorem length_le : (levels 0).length ≤ s.nodes.length := by
  have hsub : levels 0 ⊆ List.range s.nodes.length := by
    intro x hx
    obtain ⟨k, hk⟩ := h.exists_key hx
    rw [mem_range]
    by_contra hlt
    rw [key, getElem?_eq_none (not_lt.mp hlt)] at hk
    contradiction
  have hnodup := (nodup_cons.mp (h.nodup 0)).2
  simpa using (subperm_of_subset hnodup hsub).length_le

theorem search_rounds {advance : K → Bool} (hadvance : ∀ j k, j < k → advance k = true → advance j = true)
    {check : ℕ → Bool} (hcheck : ∀ x, x = head ∨ passed s advance x = true → check x = true) :
    s.search advance check s.rounds head (s.maxHeight - 1) [] =
      some ⟨lastPassed s levels advance 0, (levels 0).find? fun y ↦ !passed s advance y,
        (List.range s.maxHeight).map (lastPassed s levels advance)⟩ := by
  have hpos := h.maxHeight_pos
  have hle := h.maxHeight_le
  have hcount := (countP_le_length (p := fun y ↦ decide (s.rank head < s.rank y))).trans h.length_le
  rw [h.search_eq hadvance hcheck [] (.inl rfl) (by omega) (by rw [rounds]; omega), append_nil,
    Nat.sub_add_cancel hpos]

omit h in
theorem lt_of_lt_of_decide {key j k : K} (hlt : j < k) (hk : decide (k < key) = true) :
    decide (j < key) = true :=
  decide_eq_true (hlt.trans (of_decide_eq_true hk))

theorem findGreaterOrEqual_eq (key : K) :
    s.findGreaterOrEqual key = some ((levels 0).find? fun x ↦ !s.below key x,
      (List.range s.maxHeight).map (lastPassed s levels fun k ↦ k < key)) := by
  rw [findGreaterOrEqual, h.search_rounds (fun _ _ ↦ lt_of_lt_of_decide) fun _ _ ↦ rfl]
  rfl

theorem findLessThan_eq (key : K) :
    s.findLessThan key = some (((levels 0).filter (s.below key)).getLastD head) := by
  rw [findLessThan, h.search_rounds (fun _ _ ↦ lt_of_lt_of_decide)]
  · rfl
  · rintro x (rfl | hx)
    · rfl
    · exact Bool.or_eq_true_iff.mpr (.inr hx)

theorem findLast_eq : s.findLast = some ((levels 0).getLastD head) := by
  have hall : (levels 0).filter (passed s fun _ ↦ true) = levels 0 := by
    rw [filter_eq_self]
    intro x hx
    obtain ⟨k, hk⟩ := h.exists_key hx
    rw [passed, hk]
    rfl
  rw [findLast, h.search_rounds (fun _ _ _ _ ↦ rfl) fun _ _ ↦ rfl, lastPassed, hall]
  rfl

theorem contains_eq (key : K) : s.contains key = some (decide (∃ x ∈ levels 0, s.key x = some key)) := by
  rw [contains, h.findGreaterOrEqual_eq key]
  cases hfind : (levels 0).find? fun x ↦ !s.below key x with
  | none =>
    have hnone : ¬ ∃ x ∈ levels 0, s.key x = some key := by
      rintro ⟨x, hx, hkey⟩
      have := find?_eq_none.mp hfind x hx
      simp [below, hkey] at this
    simp only [hnone, decide_false]
  | some x =>
    have hx := mem_of_find?_eq_some hfind
    obtain ⟨k, hk⟩ := h.exists_key hx
    simp only [hk, Option.map_some, Option.some.injEq]
    rw [Bool.eq_iff_iff, beq_iff_eq, decide_eq_true_iff]
    constructor
    · rintro rfl
      exact ⟨x, hx, hk⟩
    · rintro ⟨y, hy, hkey⟩
      -- Nodes before the one found are below the key, nodes after it have a larger key than it has.
      obtain ⟨hnot, before, after, hsplit, hbefore⟩ := find?_eq_some_iff_append.mp hfind
      have hge : key ≤ k := by simpa [below, hk] using hnot
      rw [hsplit] at hy
      rcases mem_append.mp hy with hy | hy
      · simpa [below, hkey] using hbefore y hy
      · rcases mem_cons.mp hy with rfl | hy
        · exact Option.some.inj (hk.symm.trans hkey)
        · have hpairwise := h.key_lt 0
          rw [hsplit, pairwise_append] at hpairwise
          have hlt := (pairwise_cons.mp hpairwise.2.1).1 y hy k key hk hkey
          exact absurd hge (not_le.mpr hlt)

end

end Linked

/-- What a store to one link changes. -/
structure Stored (s s' : SkipList K) (x level : ℕ) (y : Pointer) : Prop where
  next : ∀ z l, s'.next z l = if z = x ∧ l = level then some y else s.next z l
  key : ∀ z, s'.key z = s.key z
  height : ∀ z, s'.height z = s.height z
  maxHeight : s'.maxHeight = s.maxHeight

section Stores

variable {K : Type*} {s : SkipList K}

theorem lt_height_of_next {x level : ℕ} {y : Pointer} (h : s.next x level = some y) : level < s.height x := by
  obtain ⟨node, hnode, hlink⟩ := Option.bind_eq_some_iff.mp h
  rw [height, hnode, Option.map_some, Option.getD_some]
  by_contra hle
  rw [getElem?_eq_none (not_lt.mp hle)] at hlink
  contradiction

theorem setNext_spec {x level : ℕ} (y : Pointer) (hlevel : level < s.height x) :
    ∃ s', s.setNext x level y = some s' ∧ Stored s s' x level y := by
  refine ⟨_, if_pos hlevel, ?_, ?_, ?_, rfl⟩
  · intro z l
    simp only [next, getElem?_modify]
    by_cases hz : x = z
    · subst hz
      cases hnode : s.nodes[x]? with
      | none => simp [height, hnode] at hlevel
      | some node =>
        simp only [height, hnode, Option.map_some, Option.getD_some] at hlevel
        by_cases hl : l = level
        · subst hl
          simp [hlevel]
        · simp [hl, getElem?_set_ne (Ne.symm hl)]
    · have hz' : z ≠ x := Ne.symm hz
      simp [hz, hz']
  · intro z
    simp only [SkipList.key, getElem?_modify]
    split <;> cases s.nodes[z]? <;> rfl
  · intro z
    simp only [SkipList.height, getElem?_modify]
    split <;> cases s.nodes[z]? <;> simp

theorem newNode_spec (s : SkipList K) (k : K) (h : ℕ) :
    (∀ x l, x ≠ s.nodes.length → (s.newNode k h).next x l = s.next x l) ∧
      (∀ x, x ≠ s.nodes.length → (s.newNode k h).key x = s.key x) ∧
      (s.newNode k h).key s.nodes.length = some k ∧ (s.newNode k h).height s.nodes.length = h := by
  have hold {x : ℕ} (hx : x ≠ s.nodes.length) :
      (s.nodes ++ [⟨some k, List.replicate h none⟩])[x]? = s.nodes[x]? := by
    rcases lt_or_gt_of_ne hx with hlt | hgt
    · exact getElem?_append_left hlt
    · rw [getElem?_eq_none (by simp; omega), getElem?_eq_none hgt.le]
  refine ⟨fun x l hx ↦ ?_, fun x hx ↦ ?_, ?_, ?_⟩
  · simp only [next, newNode, hold hx]
  · simp only [key, newNode, hold hx]
  · simp [key, newNode]
  · simp [height, newNode]

end Stores

structure Located (s : SkipList K) (levels : ℕ → List ℕ) (i : Insertion K) (linked : ℕ) : Prop where
  linked_lt : linked < i.height
  height_le : i.height ≤ kMaxHeight
  fresh : ∀ level, linked ≤ level → ∀ x ∈ levels level, s.key x ≠ some i.key
  prev : ∀ level, linked ≤ level → level < i.height →
    i.prev[level]? = some (((levels level).filter (s.below i.key)).getLastD head)
  member : ∀ level < linked, i.node ∈ levels level

structure Allocated (s : SkipList K) (i : Insertion K) : Prop where
  height_le : i.height ≤ s.maxHeight
  key : s.key i.node = some i.key
  height : s.height i.node = i.height

/-- A call of `Insert` under way, by what it does next. -/
inductive InsertOk (s : SkipList K) (levels : ℕ → List ℕ) (i : Insertion K) : Prop
  | setMaxHeight (hstage : i.stage = .setMaxHeight) (hlocated : Located s levels i 0)
      (hmax : s.maxHeight ≤ i.height) (hnode : i.node = s.nodes.length)
  | newNode (hstage : i.stage = .newNode) (hlocated : Located s levels i 0)
      (hmax : i.height ≤ s.maxHeight) (hnode : i.node = s.nodes.length)
  | copyLink (level : ℕ) (hstage : i.stage = .copyLink level) (hlocated : Located s levels i level)
      (hallocated : Allocated s i)
  | setLink (level : ℕ) (hstage : i.stage = .setLink level) (hlocated : Located s levels i level)
      (hallocated : Allocated s i)
      (hcopied : s.next i.node level = some ((levels level).find? fun x ↦ !s.below i.key x))

theorem filter_below_congr {s s' : SkipList K} {key : K} {l : List ℕ} (hkey : ∀ x ∈ l, s'.key x = s.key x) :
    l.filter (s'.below key) = l.filter (s.below key) := by
  apply filter_congr
  intro x hx
  rw [below, below, hkey x hx]

theorem Located.congr {s s' : SkipList K} {levels : ℕ → List ℕ} {i : Insertion K} {linked : ℕ}
    (h : Located s levels i linked) (hkey : ∀ level, ∀ x ∈ levels level, s'.key x = s.key x) :
    Located s' levels i linked :=
  { h with
    fresh := fun level hlevel x hx ↦ by
      rw [hkey level x hx]
      exact h.fresh level hlevel x hx
    prev := fun level hlevel hlt ↦ by
      rw [filter_below_congr (hkey level)]
      exact h.prev level hlevel hlt }

/-- The state between two stores. -/
structure StateOk (state : State K) (levels : ℕ → List ℕ) : Prop where
  list : Linked state.list levels
  insert : ∀ i, state.inserting = some i → InsertOk state.list levels i
  present : ∀ k ∈ state.inserted, ∃ x ∈ levels 0, state.list.key x = some k
  known : ∀ x ∈ levels 0, ∀ k, state.list.key x = some k →
    k ∈ state.inserted ∨ ∃ i, state.inserting = some i ∧ k = i.key

/-- A change that touches no node of the lists. -/
theorem Linked.frame {s s' : SkipList K} {levels : ℕ → List ℕ} (h : Linked s levels)
    (hkey : ∀ level, ∀ x ∈ head :: levels level, s'.key x = s.key x)
    (hnext : ∀ level, ∀ x ∈ head :: levels level, s'.next x level = s.next x level)
    (hle : s.maxHeight ≤ s'.maxHeight) (hmax : s'.maxHeight ≤ kMaxHeight) : Linked s' levels where
  path level hlevel := (h.path level hlevel).congr (hnext level)
  sorted level := by
    refine List.Pairwise.imp_of_mem (fun hx hy hlt ↦ ?_) (h.sorted level)
    rwa [rank, rank, hkey level _ hx, hkey level _ hy]
  sublist := h.sublist
  empty level hlevel := h.empty level (hle.trans hlevel)
  head_key := (hkey 0 head mem_cons_self).trans h.head_key
  maxHeight_pos := lt_of_lt_of_le h.maxHeight_pos hle
  maxHeight_le := hmax

/-- The nodes of a level with the new one between those below its key and the others. -/
def withNode (s : SkipList K) (levels : ℕ → List ℕ) (key : K) (n level : ℕ) : ℕ → List ℕ :=
  Function.update levels level
    ((levels level).filter (s.below key) ++ n :: (levels level).filter fun x ↦ !s.below key x)

section Insert

variable {s s' : SkipList K} {levels : ℕ → List ℕ} {key : K} {n level : ℕ}

theorem withNode_self : withNode s levels key n level level =
    (levels level).filter (s.below key) ++ n :: (levels level).filter fun x ↦ !s.below key x :=
  Function.update_self ..

theorem withNode_of_ne {l : ℕ} (hl : l ≠ level) : withNode s levels key n level l = levels l :=
  Function.update_of_ne hl ..

section

variable (h : Linked s levels)
include h

theorem Linked.split (key : K) (level : ℕ) :
    (levels level).filter (s.below key) ++ (levels level).filter (fun x ↦ !s.below key x) = levels level :=
  filter_append_filter_not (h.passed_mono (fun _ _ ↦ Linked.lt_of_lt_of_decide) level)

theorem Linked.mem_withNode {x l : ℕ} :
    x ∈ withNode s levels key n level l ↔ x ∈ levels l ∨ l = level ∧ x = n := by
  by_cases hl : l = level
  · subst hl
    have hmem : x ∈ levels l ↔ x ∈ (levels l).filter (s.below key) ∨
        x ∈ (levels l).filter fun x ↦ !s.below key x := by
      conv_lhs => rw [← h.split key l, mem_append]
    rw [withNode_self, mem_append, mem_cons, hmem]
    tauto
  · rw [withNode_of_ne hl]
    simp only [hl, false_and, or_false]

omit h in
theorem rank_lt_of_below {x : ℕ} (h : s.below key x = true) : s.rank x < (key : WithBot K) := by
  rw [below, Option.any_eq_true] at h
  obtain ⟨k, hk, hlt⟩ := h
  rw [rank, hk]
  exact WithBot.coe_lt_coe.mpr (of_decide_eq_true hlt)

theorem Linked.lt_rank_of_not_below {x : ℕ} (hx : x ∈ levels level) (hne : s.key x ≠ some key)
    (hbelow : s.below key x = false) : (key : WithBot K) < s.rank x := by
  obtain ⟨k, hk⟩ := h.exists_key hx
  rw [below, hk, Option.any_some, decide_eq_false_iff_not, not_lt] at hbelow
  rw [rank, hk]
  refine WithBot.coe_lt_coe.mpr (lt_of_le_of_ne hbelow ?_)
  rintro rfl
  exact hne hk

theorem Linked.sorted_withNode (hkey : s.key n = some key) (hfresh : ∀ x ∈ levels level, s.key x ≠ some key) :
    (head :: ((levels level).filter (s.below key) ++
      n :: (levels level).filter fun x ↦ !s.below key x)).Pairwise fun x y ↦ s.rank x < s.rank y := by
  have hn : s.rank n = (key : WithBot K) := hkey
  have hsorted := h.sorted level
  rw [← h.split key level, ← cons_append, pairwise_append] at hsorted
  obtain ⟨hbefore, hafter, hcross⟩ := hsorted
  rw [← cons_append, pairwise_append]
  refine ⟨hbefore, pairwise_cons.mpr ⟨fun y hy ↦ ?_, hafter⟩, fun x hx y hy ↦ ?_⟩
  · obtain ⟨hy, hnot⟩ := mem_filter.mp hy
    rw [hn]
    exact h.lt_rank_of_not_below hy (hfresh y hy) (by simpa using hnot)
  · rcases mem_cons.mp hy with rfl | hy
    · rw [hn]
      rcases mem_cons.mp hx with rfl | hx
      · rw [rank, h.head_key]
        exact WithBot.bot_lt_coe key
      · exact rank_lt_of_below (mem_filter.mp hx).2
    · exact hcross x hx y hy

theorem Linked.sublist_withNode (hkey : s.key n = some key)
    (hfresh : ∀ x ∈ levels (level + 1), s.key x ≠ some key) (hmem : n ∈ levels level) :
    ((levels (level + 1)).filter (s.below key) ++
      n :: (levels (level + 1)).filter fun x ↦ !s.below key x).Sublist (levels level) := by
  have hnot : s.below key n = false := by
    rw [below, hkey, Option.any_some]
    exact decide_eq_false (lt_irrefl key)
  -- Among the nodes of the level below that are not below the key, the new node is the first.
  obtain ⟨after, hafter⟩ : ∃ after, (levels level).filter (fun x ↦ !s.below key x) = n :: after := by
    have hn : n ∈ (levels level).filter fun x ↦ !s.below key x := mem_filter.mpr ⟨hmem, by rw [hnot]; rfl⟩
    obtain ⟨before, after, hsplit⟩ := append_of_mem hn
    cases before with
    | nil => exact ⟨after, hsplit⟩
    | cons x before =>
      have hx : x ∈ (levels level).filter fun x ↦ !s.below key x := by
        rw [hsplit]
        exact mem_cons_self
      obtain ⟨hx, hnotx⟩ := mem_filter.mp hx
      obtain ⟨k, hk⟩ := h.exists_key hx
      have hsorted := List.Pairwise.filter (fun x ↦ !s.below key x) (h.key_lt level)
      rw [hsplit, cons_append, pairwise_cons] at hsorted
      have hlt := hsorted.1 n (mem_append_right _ mem_cons_self) k key hk hkey
      simp [below, hk, hlt] at hnotx
  have hrest : ((levels (level + 1)).filter fun x ↦ !s.below key x).Sublist after := by
    have hsub := (h.sublist level).filter fun x ↦ !s.below key x
    rw [hafter, sublist_cons_iff] at hsub
    rcases hsub with hsub | ⟨rest, hrest, -⟩
    · exact hsub
    · have hn : n ∈ (levels (level + 1)).filter fun x ↦ !s.below key x := by
        rw [hrest]
        exact mem_cons_self
      exact absurd hkey (hfresh n (mem_filter.mp hn).1)
  rw [← h.split key level, hafter]
  exact ((h.sublist level).filter _).append (hrest.cons_cons n)

theorem Linked.insert (hlevel : level < s.maxHeight) (hkey : s.key n = some key)
    (hfresh : ∀ x ∈ levels level, s.key x ≠ some key) (hmember : ∀ l < level, n ∈ levels l)
    (hcopied : s.next n level = some ((levels level).find? fun x ↦ !s.below key x))
    (hstored : Stored s s' (((levels level).filter (s.below key)).getLastD head) level (some n)) :
    Linked s' (withNode s levels key n level) := by
  have hn : n ∉ head :: levels level := by
    intro hn
    rcases mem_cons.mp hn with rfl | hn
    · rw [h.head_key] at hkey
      contradiction
    · exact hfresh n hn hkey
  have hprev : ((levels level).filter (s.below key)).getLastD head ∈ head :: levels level := by
    have hmem := getLastD_mem_cons (l := (levels level).filter (s.below key)) (a := head)
    exact cons_subset_cons head filter_sublist.subset hmem
  have hrank (x : ℕ) : s'.rank x = s.rank x := hstored.key x
  have hother {l : ℕ} (hl : l ≠ level) (x : ℕ) : s'.next x l = s.next x l := by
    rw [hstored.next, if_neg fun hx ↦ hl hx.2]
  refine ⟨fun l hl ↦ ?_, fun l ↦ ?_, fun l ↦ ?_, fun l hl ↦ ?_, ?_, ?_, ?_⟩
  · by_cases heq : l = level
    · subst heq
      have hpath := h.path l hl
      have hnodup := h.nodup l
      rw [← h.split key l] at hpath hnodup hn
      rw [withNode_self]
      refine hpath.insert hnodup hn ?_ ?_ ?_
      · rw [hstored.next, if_pos ⟨rfl, rfl⟩]
      · rw [hstored.next, if_neg, hcopied, head?_filter]
        rintro ⟨rfl, -⟩
        rw [h.split key l] at hn
        exact hn hprev
      · intro y hy _
        rw [hstored.next, if_neg fun hx ↦ hy hx.1]
    · rw [withNode_of_ne heq]
      exact (h.path l hl).congr fun x _ ↦ hother heq x
  · by_cases heq : l = level
    · subst heq
      rw [withNode_self]
      simpa only [hrank] using h.sorted_withNode hkey hfresh
    · rw [withNode_of_ne heq]
      simpa only [hrank] using h.sorted l
  · by_cases heq : l + 1 = level
    · subst heq
      rw [withNode_self, withNode_of_ne (Nat.ne_of_lt (Nat.lt_succ_self l))]
      exact h.sublist_withNode hkey hfresh (hmember l (Nat.lt_succ_self l))
    · rw [withNode_of_ne heq]
      by_cases heq' : l = level
      · subst heq'
        rw [withNode_self]
        refine (h.sublist l).trans ?_
        conv_lhs => rw [← h.split key l]
        exact .append_left (sublist_cons_self n _) _
      · rw [withNode_of_ne heq']
        exact h.sublist l
  · rw [hstored.maxHeight] at hl
    rw [withNode_of_ne (by omega)]
    exact h.empty l hl
  · rw [hstored.key, h.head_key]
  · rw [hstored.maxHeight]
    exact h.maxHeight_pos
  · rw [hstored.maxHeight]
    exact h.maxHeight_le

end

end Insert

section Steps

variable {state state' : State K} {levels : ℕ → List ℕ}

theorem stateOk_init : StateOk (⟨empty, none, []⟩ : State K) fun _ ↦ [] where
  list :=
    { path := fun level hlevel ↦ by
        simp only [Path, next, empty, head, getElem?_cons_zero, Option.bind_some]
        rw [getElem?_replicate, if_pos hlevel]
        rfl
      sorted := fun _ ↦ pairwise_singleton _ _
      sublist := fun _ ↦ .refl _
      empty := fun _ _ ↦ rfl
      head_key := rfl
      maxHeight_pos := Nat.one_pos
      maxHeight_le := (by decide : 1 ≤ kMaxHeight) }
  insert _ h := by contradiction
  present _ h := by contradiction
  known _ h := by contradiction

section

variable (h : StateOk state levels)
include h

/-- `Insert` searches a list that does not have the key. -/
theorem StateOk.beginInsert_spec (hidle : state.inserting = none) {key : K} (hkey : key ∉ state.inserted)
    {height : ℕ} (hpos : 0 < height) (hle : height ≤ kMaxHeight) :
    ∃ i, state.list.beginInsert key height = some i ∧ i.key = key ∧ InsertOk state.list levels i := by
  have hfresh (level : ℕ) : ∀ x ∈ levels level, state.list.key x ≠ some key := by
    intro x hx hk
    rcases h.known x ((h.list.sublist_of_le (Nat.zero_le level)).subset hx) key hk with hk | ⟨i, hi, -⟩
    · exact hkey hk
    · rw [hidle] at hi
      contradiction
  have hassert : ¬ (((levels 0).find? fun x ↦ !state.list.below key x).bind state.list.key = some key) := by
    intro heq
    obtain ⟨x, hx, hk⟩ := Option.bind_eq_some_iff.mp heq
    exact hfresh 0 x (mem_of_find?_eq_some hx) hk
  rw [beginInsert, h.list.findGreaterOrEqual_eq key]
  refine ⟨_, if_neg hassert, rfl, ?_⟩
  have hlocated (stage : Stage) : Located state.list levels
      { key := key, height := height
        prev := (List.range state.list.maxHeight).map (Linked.lastPassed state.list levels fun k ↦ k < key) ++
          List.replicate (height - state.list.maxHeight) head
        node := state.list.nodes.length, stage := stage } 0 := by
    refine ⟨hpos, hle, fun level _ ↦ hfresh level, fun level _ hlevel ↦ ?_, ?_⟩
    · by_cases hold : level < state.list.maxHeight
      · rw [getElem?_append_left (by simpa using hold), getElem?_map, getElem?_range hold]
        rfl
      · -- The list does not have this level yet.
        rw [getElem?_append_right (by simpa using hold), getElem?_replicate,
          h.list.empty level (not_lt.mp hold), if_pos]
        · rfl
        · simp only [length_map, length_range] at *
          omega
    · exact fun level hlevel ↦ absurd hlevel (Nat.not_lt_zero level)
  by_cases hraise : state.list.maxHeight < height
  · exact .setMaxHeight (if_pos hraise) (hlocated _) hraise.le rfl
  · exact .newNode (if_neg hraise) (hlocated _) (not_lt.mp hraise) rfl

theorem StateOk.begin (hidle : state.inserting = none) {i : Insertion K}
    (hok : InsertOk state.list levels i) : StateOk { state with inserting := some i } levels where
  list := h.list
  insert := by
    rintro j ⟨⟩
    exact hok
  present := h.present
  known x hx k hk := by
    left
    rcases h.known x hx k hk with hk | ⟨j, hj, -⟩
    · exact hk
    · rw [hidle] at hj
      contradiction

theorem StateOk.known_key {i : Insertion K} (hi : state.inserting = some i) {x : ℕ} (hx : x ∈ levels 0)
    {k : K} (hk : state.list.key x = some k) : k ∈ state.inserted ∨ k = i.key := by
  refine (h.known x hx k hk).imp_right ?_
  rintro ⟨j, hj, rfl⟩
  rw [Option.some.inj (hi.symm.trans hj)]

/-- A step of `Insert` that changes no list. -/
theorem StateOk.update {i j : Insertion K} (hi : state.inserting = some i) (hj : j.key = i.key)
    {list : SkipList K} (hlinked : Linked list levels) (hinsert : InsertOk list levels j)
    (hkey : ∀ x ∈ levels 0, list.key x = state.list.key x) :
    StateOk { state with list := list, inserting := some j } levels where
  list := hlinked
  insert := by
    rintro i' ⟨⟩
    exact hinsert
  present k hk := by
    obtain ⟨x, hx, hkx⟩ := h.present k hk
    exact ⟨x, hx, (hkey x hx).trans hkx⟩
  known x hx k hk := by
    have hk' := h.known_key hi hx ((hkey x hx).symm.trans hk)
    exact hk'.imp_right fun heq ↦ ⟨j, rfl, heq.trans hj.symm⟩

end

theorem Linked.ne_length {s : SkipList K} (h : Linked s levels) {level x : ℕ} (hx : x ∈ head :: levels level) :
    x ≠ s.nodes.length := by
  rintro rfl
  have hnone : s.nodes[s.nodes.length]? = none := getElem?_eq_none le_rfl
  rcases mem_cons.mp hx with heq | hx
  · have hnext := (h.path 0 (by decide)).next_eq
    rw [← heq, next, hnone] at hnext
    contradiction
  · obtain ⟨k, hk⟩ := h.exists_key hx
    rw [key, hnone] at hk
    contradiction

/-- The new node is not in a list before it is linked there. -/
theorem Located.not_mem {s : SkipList K} {i : Insertion K} {linked level : ℕ} (h : Located s levels i linked)
    (hlinked : Linked s levels) (hkey : s.key i.node = some i.key) (hlevel : linked ≤ level) :
    i.node ∉ head :: levels level := by
  intro hmem
  rcases mem_cons.mp hmem with heq | hmem
  · rw [heq, hlinked.head_key] at hkey
    contradiction
  · exact h.fresh level hlevel i.node hmem hkey

/-- The node after the place of the new one. -/
theorem Located.next_prev {s : SkipList K} {i : Insertion K} {level : ℕ} (h : Located s levels i level)
    (hlinked : Linked s levels) :
    s.next (((levels level).filter (s.below i.key)).getLastD head) level =
      some ((levels level).find? fun x ↦ !s.below i.key x) := by
  have hpath := hlinked.path level (h.linked_lt.trans_le h.height_le)
  rw [← hlinked.split i.key level] at hpath
  rw [hpath.next_getLastD, head?_filter]

theorem Stored.below_eq {s s' : SkipList K} {x level : ℕ} {y : Pointer} (h : Stored s s' x level y) (k : K) :
    s'.below k = s.below k := by
  funext z
  rw [below, below, h.key]

omit [LinearOrder K] in
theorem Allocated.of_stored {s s' : SkipList K} {i : Insertion K} {stage : Stage} {x level : ℕ} {y : Pointer}
    (h : Allocated s i) (hstored : Stored s s' x level y) : Allocated s' { i with stage := stage } where
  height_le := hstored.maxHeight.symm ▸ h.height_le
  key := (hstored.key _).trans h.key
  height := (hstored.height _).trans h.height

theorem Located.succ {s s' : SkipList K} {i : Insertion K} {stage : Stage} {level x : ℕ} {y : Pointer}
    (h : Located s levels i level) (hlinked : Linked s levels) (hstored : Stored s s' x level y)
    (hmore : level + 1 < i.height) :
    Located s' (withNode s levels i.key i.node level) { i with stage := stage } (level + 1) where
  linked_lt := hmore
  height_le := h.height_le
  fresh l hl z hz := by
    rw [withNode_of_ne (by omega)] at hz
    rw [hstored.key]
    exact h.fresh l (by omega) z hz
  prev l hl hlt := by
    rw [withNode_of_ne (by omega), hstored.below_eq]
    exact h.prev l (by omega) hlt
  member l hl := by
    rw [hlinked.mem_withNode]
    by_cases heq : l = level
    · exact .inr ⟨heq, rfl⟩
    · exact .inl (h.member l (by omega))

theorem StateOk.store_spec (h : StateOk state levels) {i : Insertion K} (hi : state.inserting = some i) :
    ∃ state' levels', store state i = some state' ∧ StateOk state' levels' := by
  cases h.insert i hi with
  | setMaxHeight hstage hlocated hmax hnode =>
    rw [store, hstage]
    refine ⟨_, levels, rfl, h.update hi ?_ ?_ ?_ fun _ _ ↦ rfl⟩
    · rfl
    · exact h.list.frame (fun _ _ _ ↦ rfl) (fun _ _ _ ↦ rfl) hmax hlocated.height_le
    · exact .newNode rfl { hlocated with } le_rfl hnode
  | newNode hstage hlocated hmax hnode =>
    obtain ⟨hnext, hkey, hnewKey, hnewHeight⟩ := newNode_spec state.list i.key i.height
    have hkey' (level : ℕ) : ∀ x ∈ head :: levels level,
        (state.list.newNode i.key i.height).key x = state.list.key x :=
      fun x hx ↦ hkey x (h.list.ne_length hx)
    rw [store, hstage]
    refine ⟨_, levels, rfl, h.update hi ?_ ?_ ?_ fun x hx ↦ hkey' 0 x (mem_cons_of_mem _ hx)⟩
    · rfl
    · exact h.list.frame hkey' (fun level x hx ↦ hnext x level (h.list.ne_length hx)) le_rfl
        h.list.maxHeight_le
    · have hlocated' := hlocated.congr fun level x hx ↦ hkey' level x (mem_cons_of_mem _ hx)
      refine .copyLink 0 rfl { hlocated' with } ⟨hmax, ?_, ?_⟩
      · rwa [hnode]
      · rwa [hnode]
  | copyLink level hstage hlocated hallocated =>
    have hprev := hlocated.prev level le_rfl hlocated.linked_lt
    have hnext := hlocated.next_prev h.list
    obtain ⟨list, hset, hstored⟩ := @setNext_spec K state.list i.node level
      ((levels level).find? fun x ↦ !state.list.below i.key x)
      (hallocated.height.symm ▸ hlocated.linked_lt)
    have hnotMem := hlocated.not_mem h.list hallocated.key le_rfl
    rw [store, hstage]
    simp only [hprev, Option.bind_some, hnext, hset, Option.map_some]
    refine ⟨_, levels, rfl, h.update hi ?_ ?_ ?_ fun x _ ↦ hstored.key x⟩
    · rfl
    · refine h.list.frame (fun _ x _ ↦ hstored.key x) (fun l x hx ↦ ?_) hstored.maxHeight.ge
        (hstored.maxHeight.trans_le h.list.maxHeight_le)
      rw [hstored.next, if_neg]
      rintro ⟨rfl, rfl⟩
      exact hnotMem hx
    · have hlocated' := hlocated.congr fun _ x _ ↦ hstored.key x
      refine .setLink level rfl { hlocated' with } (hallocated.of_stored hstored) ?_
      rw [hstored.next, if_pos ⟨rfl, rfl⟩, hstored.below_eq]
  | setLink level hstage hlocated hallocated hcopied =>
    have hprev := hlocated.prev level le_rfl hlocated.linked_lt
    have hnext := hlocated.next_prev h.list
    obtain ⟨list, hset, hstored⟩ := setNext_spec (some i.node) (lt_height_of_next hnext)
    have hlinked := h.list.insert (hlocated.linked_lt.trans_le hallocated.height_le) hallocated.key
      (hlocated.fresh level le_rfl) hlocated.member hcopied hstored
    rw [store, hstage]
    simp only [hprev, hset, Option.map_some]
    have hmem {x l : ℕ} : x ∈ withNode state.list levels i.key i.node level l ↔
        x ∈ levels l ∨ l = level ∧ x = i.node := h.list.mem_withNode
    have hnode : i.node ∈ withNode state.list levels i.key i.node level 0 := by
      rw [hmem]
      by_cases hzero : 0 = level
      · exact .inr ⟨hzero, rfl⟩
      · exact .inl (hlocated.member 0 (by omega))
    have hpresent (k : K) (hk : k ∈ state.inserted) :
        ∃ x ∈ withNode state.list levels i.key i.node level 0, list.key x = some k := by
      obtain ⟨x, hx, hkx⟩ := h.present k hk
      exact ⟨x, hmem.mpr (.inl hx), (hstored.key x).trans hkx⟩
    have hknown {x : ℕ} (hx : x ∈ withNode state.list levels i.key i.node level 0) {k : K}
        (hk : list.key x = some k) : k ∈ state.inserted ∨ k = i.key := by
      rw [hstored.key] at hk
      rcases hmem.mp hx with hx | ⟨-, rfl⟩
      · exact h.known_key hi hx hk
      · exact .inr (Option.some.inj (hk.symm.trans hallocated.key))
    refine ⟨_, withNode state.list levels i.key i.node level, rfl, ?_⟩
    by_cases hmore : level + 1 < i.height
    · rw [if_pos hmore]
      refine ⟨hlinked, ?_, hpresent, fun x hx k hk ↦ (hknown hx hk).imp_right fun heq ↦ ⟨_, rfl, heq⟩⟩
      rintro j ⟨⟩
      exact .copyLink (level + 1) rfl (hlocated.succ h.list hstored hmore) (hallocated.of_stored hstored)
    · rw [if_neg hmore]
      refine ⟨hlinked, by rintro j ⟨⟩, fun k hk ↦ ?_, fun x hx k hk ↦ .inl ?_⟩
      · rcases mem_append.mp hk with hk | hk
        · exact hpresent k hk
        · rw [mem_singleton.mp hk]
          exact ⟨i.node, hnode, (hstored.key _).trans hallocated.key⟩
      · rcases hknown hx hk with hk | rfl
        · exact mem_append_left _ hk
        · exact mem_append_right _ (mem_singleton_self _)

theorem exists_stateOk (hreach : (machine K).ReachableWhen Distinct state) : ∃ levels, StateOk state levels := by
  refine hreach.invariant (P := fun state ↦ ∃ levels, StateOk state levels) ?_ ?_
  · rintro _ rfl
    exact ⟨_, stateOk_init⟩
  · rintro state action state' ⟨levels, h⟩ hdistinct hstep
    cases action with
    | insert key height =>
      obtain ⟨⟨hidle, hpos, hle⟩, hbegin⟩ := Outcome.guarded_eq_next.mp hstep
      obtain ⟨i, hi, hkey, hok⟩ := h.beginInsert_spec hidle hdistinct hpos hle
      rw [hi, Option.map_some, Outcome.ofOption_eq_next, Option.some.injEq] at hbegin
      subst hbegin
      exact ⟨levels, h.begin hidle hok⟩
    | store =>
      cases hi : state.inserting with
      | none =>
        simp only [machine, hi] at hstep
        contradiction
      | some i =>
        obtain ⟨state'', levels', hstore, hok⟩ := h.store_spec hi
        simp only [machine, hi, hstore, Outcome.ofOption_eq_next, Option.some.injEq] at hstep
        rw [← hstep]
        exact ⟨levels', hok⟩

end Steps

/-- **The list between any two stores.**  `Insert` is called with keys that are pairwise different, and one store
after the other is made.  At every moment each level is a sorted list of nodes and a sublist of the level
below it, every key whose `Insert` has returned is at level 0, and the searches end with the first node at or
after a key, the last node before it, the last node, and whether the key is there, among the nodes at level 0.
No step fails an assertion or follows a link that is not there. -/
theorem searches_between_stores {state : State K} (hreach : (machine K).ReachableWhen Distinct state) :
    (∃ levels : ℕ → List ℕ, (∀ level < kMaxHeight, Path state.list level head (levels level)) ∧
      (∀ level, (head :: levels level).Pairwise fun x y ↦ state.list.rank x < state.list.rank y) ∧
      (∀ level, (levels (level + 1)).Sublist (levels level)) ∧
      (∀ key ∈ state.inserted, ∃ x ∈ levels 0, state.list.key x = some key) ∧
      state.list.findLast = some ((levels 0).getLastD head) ∧
      ∀ key, (state.list.findGreaterOrEqual key).map Prod.fst =
          some ((levels 0).find? fun x ↦ !state.list.below key x) ∧
        state.list.findLessThan key = some (((levels 0).filter (state.list.below key)).getLastD head) ∧
        state.list.contains key = some (decide (∃ x ∈ levels 0, state.list.key x = some key))) ∧
    ∀ action, Distinct state action → (machine K).step state action ≠ .abort := by
  obtain ⟨levels, h⟩ := exists_stateOk hreach
  refine ⟨⟨levels, h.list.path, h.list.sorted, h.list.sublist, h.present, h.list.findLast_eq,
    fun key ↦ ⟨?_, ?_, ?_⟩⟩,
    ?_⟩
  · rw [h.list.findGreaterOrEqual_eq key]
    rfl
  · exact h.list.findLessThan_eq key
  · exact h.list.contains_eq key
  · intro action hdistinct habort
    cases action with
    | insert key height =>
      obtain ⟨⟨hidle, hpos, hle⟩, hbegin⟩ := Outcome.guarded_eq_abort.mp habort
      obtain ⟨i, hi, -⟩ := h.beginInsert_spec hidle hdistinct hpos hle
      rw [hi, Option.map_some, Outcome.ofOption_eq_abort] at hbegin
      contradiction
    | store =>
      cases hi : state.inserting with
      | none =>
        simp only [machine, hi] at habort
        contradiction
      | some i =>
        obtain ⟨state'', levels', hstore, -⟩ := h.store_spec hi
        simp only [machine, hi, hstore, Outcome.ofOption_eq_abort] at habort
        contradiction

instance (state : State K) : DecidablePred (Distinct state)
  | .insert key _ => inferInstanceAs (Decidable (key ∉ state.inserted))
  | .store => inferInstanceAs (Decidable True)

/-- A key is in the list and a second one, of a larger height, is linked at the lower of its two levels. -/
theorem searches_between_stores_of_two :
    ∃ state : State ℕ, (machine ℕ).ReachableWhen Distinct state ∧ state.inserted = [5] ∧
      (state.inserting.map Insertion.stage = some (.copyLink 1)) ∧
      ∃ levels : ℕ → List ℕ, (∀ level < kMaxHeight, Path state.list level head (levels level)) ∧
        state.list.findLast = some ((levels 0).getLastD head) := by
  obtain ⟨state, hrun, hinserted, hstage⟩ := Machine.Run.of_exec (machine ℕ)
    (fun state action ↦ decide (Distinct state action)) ⟨empty, none, []⟩ rfl
    [.insert 5 1, .store, .store, .store, .insert 3 2, .store, .store, .store, .store]
    (fun state ↦ state.inserted = [5] ∧ state.inserting.map Insertion.stage = some (.copyLink 1))
    (by decide +kernel)
  have hreach : (machine ℕ).ReachableWhen Distinct state :=
    ⟨_, hrun.mono fun _ _ hok ↦ of_decide_eq_true hok⟩
  obtain ⟨⟨levels, hpath, -, -, -, hlast, -⟩, -⟩ := searches_between_stores hreach
  exact ⟨state, hreach, hinserted, hstage, levels, hpath, hlast⟩

section WholeCalls

variable {state state' : State K} {levels : ℕ → List ℕ} {i : Insertion K}

/-- How many stores a call has left. -/
def Insertion.remaining (i : Insertion K) : ℕ :=
  match i.stage with
  | .setMaxHeight => 2 * i.height + 2
  | .newNode => 2 * i.height + 1
  | .copyLink level => 2 * (i.height - level)
  | .setLink level => 2 * (i.height - level) - 1

/-- The key of the node that a call has yet to allocate. -/
def Insertion.pending (i : Insertion K) : List (Option K) :=
  match i.stage with
  | .setMaxHeight | .newNode => [some i.key]
  | .copyLink _ | .setLink _ => []

/-- The keys of the nodes when the call under way is at its end. -/
def keysAfter (state : State K) : List (Option K) :=
  state.list.keys ++ (state.inserting.map Insertion.pending).getD []

omit [LinearOrder K] in
theorem keys_setNext {s s' : SkipList K} {x level : ℕ} {y : Pointer} (h : s.setNext x level y = some s') :
    s'.keys = s.keys := by
  obtain ⟨-, ⟨⟩⟩ := Option.ite_none_right_eq_some.mp h
  apply ext_getElem?
  intro z
  simp only [keys, getElem?_map, getElem?_modify]
  cases s.nodes[z]? with
  | none => rfl
  | some node => by_cases hz : x = z <;> simp [hz]

omit [LinearOrder K] in
theorem key_eq_keys (s : SkipList K) (x : ℕ) : s.key x = (s.keys[x]?).join := by
  rw [key, keys, getElem?_map]
  cases s.nodes[x]? <;> rfl

theorem remaining_pos (h : InsertOk state.list levels i) : 0 < i.remaining := by
  cases h with
  | setMaxHeight hstage => simp only [Insertion.remaining, hstage]; omega
  | newNode hstage => simp only [Insertion.remaining, hstage]; omega
  | copyLink level hstage hlocated =>
    have hlt := hlocated.linked_lt
    simp only [Insertion.remaining, hstage]
    omega
  | setLink level hstage hlocated =>
    have hlt := hlocated.linked_lt
    simp only [Insertion.remaining, hstage]
    omega

/-- A store either ends the call or leaves one store less. -/
theorem store_remaining (hi : state.inserting = some i) (hok : InsertOk state.list levels i)
    (h : store state i = some state') :
    keysAfter state' = keysAfter state ∧
      (state'.inserting = none ∧ state'.inserted = state.inserted ++ [i.key] ∨
        ∃ j, state'.inserting = some j ∧ j.key = i.key ∧ state'.inserted = state.inserted ∧
          j.remaining < i.remaining) := by
  have hafter : keysAfter state = state.list.keys ++ i.pending := by rw [keysAfter, hi]; rfl
  rw [hafter]
  cases hok with
  | setMaxHeight hstage =>
    simp only [store, hstage, Option.some.injEq] at h
    subst h
    refine ⟨?_, .inr ⟨_, rfl, rfl, rfl, ?_⟩⟩
    · simp only [keysAfter, Insertion.pending, hstage]
      rfl
    · simp only [Insertion.remaining, hstage]
      omega
  | newNode hstage =>
    simp only [store, hstage, Option.some.injEq] at h
    subst h
    refine ⟨?_, .inr ⟨_, rfl, rfl, rfl, ?_⟩⟩
    · simp only [keysAfter, Insertion.pending, hstage, keys, newNode, map_append]
      exact append_nil _
    · simp only [Insertion.remaining, hstage]
      omega
  | copyLink level hstage hlocated =>
    have hlt := hlocated.linked_lt
    simp only [store, hstage] at h
    split at h
    · cases h
    · obtain ⟨list, hlist, rfl⟩ := Option.map_eq_some_iff.mp h
      refine ⟨?_, .inr ⟨_, rfl, rfl, rfl, ?_⟩⟩
      · simp only [keysAfter, Insertion.pending, hstage, keys_setNext hlist]
        rfl
      · simp only [Insertion.remaining, hstage]
        omega
  | setLink level hstage hlocated =>
    have hlt := hlocated.linked_lt
    simp only [store, hstage] at h
    split at h
    · cases h
    · obtain ⟨list, hlist, rfl⟩ := Option.map_eq_some_iff.mp h
      by_cases hmore : level + 1 < i.height
      · rw [if_pos hmore]
        refine ⟨?_, .inr ⟨_, rfl, rfl, rfl, ?_⟩⟩
        · simp only [keysAfter, Insertion.pending, hstage, keys_setNext hlist]
          rfl
        · simp only [Insertion.remaining, hstage]
          omega
      · rw [if_neg hmore]
        refine ⟨?_, .inl ⟨rfl, rfl⟩⟩
        simp only [keysAfter, Insertion.pending, hstage, keys_setNext hlist]
        rfl

/-- A call that begins has its node yet to allocate. -/
theorem beginInsert_pending {s : SkipList K} {key : K} {height : ℕ} (h : s.beginInsert key height = some i) :
    i.pending = [some key] ∧ i.remaining ≤ 2 * height + 2 := by
  unfold beginInsert at h
  split at h
  · cases h
  · obtain ⟨-, ⟨⟩⟩ := Option.ite_none_left_eq_some.mp h
    by_cases hraise : s.maxHeight < height <;> simp [Insertion.pending, Insertion.remaining, hraise]

/-- The stores that are left bring the call to its end. -/
theorem StateOk.runStores_spec (h : StateOk state levels) (hi : state.inserting = some i) {fuel : ℕ}
    (hfuel : i.remaining ≤ fuel) :
    ∃ state' levels', runStores fuel state = some state' ∧ StateOk state' levels' ∧ state'.inserting = none ∧
      state'.inserted = state.inserted ++ [i.key] ∧ state'.list.keys = keysAfter state := by
  induction fuel generalizing state levels i with
  | zero => exact absurd hfuel (Nat.not_le.mpr (remaining_pos (h.insert i hi)))
  | succ fuel ih =>
    obtain ⟨state₁, levels₁, hstore, h₁⟩ := h.store_spec hi
    obtain ⟨hkeys, hend | ⟨j, hj, hkey, hinserted, hless⟩⟩ := store_remaining hi (h.insert i hi) hstore
    · refine ⟨state₁, levels₁, ?_, h₁, hend.1, hend.2, ?_⟩
      · simp only [runStores, hi, hstore, Option.bind_some]
        cases fuel with
        | zero => exact if_pos hend.1
        | succ fuel => simp only [runStores, hend.1]
      · rw [← hkeys, keysAfter, hend.1]
        exact (append_nil _).symm
    · obtain ⟨state', levels', hrun, h', hidle, hins, hlist⟩ := ih h₁ hj (by omega)
      refine ⟨state', levels', ?_, h', hidle, ?_, hlist.trans hkeys⟩
      · simp only [runStores, hi, hstore, Option.bind_some, hrun]
      · rw [hins, hinserted, hkey]

/-- `Insert` of a key that is not in the list. -/
theorem StateOk.insert_spec (h : StateOk state levels) (hidle : state.inserting = none) {key : K}
    (hkey : key ∉ state.inserted) {height : ℕ} (hpos : 0 < height) (hle : height ≤ kMaxHeight) :
    ∃ state' levels', SkipList.insert state key height = some state' ∧ StateOk state' levels' ∧
      state'.inserting = none ∧
      state'.inserted = state.inserted ++ [key] ∧ state'.list.keys = state.list.keys ++ [some key] := by
  obtain ⟨i, hbegin, hikey, hok⟩ := h.beginInsert_spec hidle hkey hpos hle
  have hbegun := h.begin hidle hok
  obtain ⟨hpending, hremaining⟩ := beginInsert_pending hbegin
  obtain ⟨state', levels', hrun, h', hidle', hinserted, hkeys⟩ := hbegun.runStores_spec rfl hremaining
  refine ⟨state', levels', ?_, h', hidle', ?_, ?_⟩
  · rw [SkipList.insert, hbegin, Option.bind_some, hrun]
  · rw [hinserted, hikey]
  · rw [hkeys, keysAfter, Option.map_some, Option.getD_some, hpending]

end WholeCalls

end LevelDB.Db.SkipList
