import LevelDB.Db.SkipListInvariant
import LevelDB.Library.Iterators

/-!
# The iterator of a skip list

`SkipList::Iterator`.  Its state is `node_`, or `none` after a failed assertion or a link that was never
stored to.
-/

namespace LevelDB.Db.SkipList

open LevelDB.Library List Iterator

variable {K : Type*} [LinearOrder K] {s : SkipList K} {levels : ℕ → List ℕ}

def orNull (x : ℕ) : Pointer := if x = head then none else some x

def iterator (s : SkipList K) : Iterator (Option Pointer) ℕ K where
  get := Option.join
  seekToFirst _ := s.next head 0
  seekToLast _ := s.findLast.map orNull
  seek target _ := (s.findGreaterOrEqual target).map Prod.fst
  next node := node.join.bind fun x ↦ s.next x 0
  prev node := node.join.bind fun x ↦ (s.key x).bind fun key ↦ (s.findLessThan key).map orNull

def cursor (s : SkipList K) (nodes : List ℕ) : Iterator (Option ℕ) ℕ K :=
  (ofList s.rank nodes).comap fun key ↦ (key : WithBot K)

theorem orNull_getLastD {nodes : List ℕ} (h : head ∉ nodes) : orNull (nodes.getLastD head) = nodes.getLast? := by
  rw [getLastD_eq_getLast?]
  cases hlast : nodes.getLast? with
  | none => rfl
  | some x => exact if_neg fun (hx : x = head) ↦ h (hx ▸ mem_of_getLast? hlast)

theorem Linked.below_eq (h : Linked s levels) {x : ℕ} (hx : x ∈ levels 0) (key : K) :
    s.below key x = decide (s.rank x < (key : WithBot K)) := by
  obtain ⟨k, hk⟩ := h.exists_key hx
  rw [below, rank, hk]
  exact decide_eq_decide.mpr WithBot.coe_lt_coe.symm

theorem Linked.simulates_iterator (h : Linked s levels) :
    Simulates s.iterator (s.cursor (levels 0)) fun node position ↦
      node = some ((s.cursor (levels 0)).get position) := by
  have hhead : head ∉ levels 0 := (nodup_cons.mp (h.nodup 0)).1
  have hpath := h.path 0 (by decide)
  have hsorted := (pairwise_cons.mp (h.sorted 0)).2
  let J := ofList s.rank (levels 0)
  refine ⟨?_, ?_, ?_, ?_, ?_, ?_⟩
  · rintro _ _ rfl
    rfl
  · rintro _ position -
    change s.next head 0 = some (J.get (J.seekToFirst position))
    rw [hpath.next_eq, get_seekToFirst]
  · rintro _ position -
    change s.findLast.map orNull = some (J.get (J.seekToLast position))
    rw [h.findLast_eq, Option.map_some, orNull_getLastD hhead, get_seekToLast]
  · rintro _ position target -
    change (s.findGreaterOrEqual target).map Prod.fst = some (J.get (J.seek target position))
    rw [h.findGreaterOrEqual_eq, Option.map_some, get_seek]
    refine congrArg some (find?_congr fun x hx ↦ ?_)
    rw [h.below_eq hx, ← decide_not, decide_eq_decide, not_lt]
  · rintro _ position rfl hvalid
    obtain ⟨x, hx⟩ := Option.isSome_iff_exists.mp hvalid
    obtain ⟨i, rfl, hi⟩ := Option.bind_eq_some_iff.mp hx
    obtain ⟨before, after, hsplit, rfl, -⟩ := exists_split hsorted hi
    have hlist : head :: levels 0 = (head :: before) ++ x :: after := congrArg _ hsplit
    rw [hx]
    change s.next x 0 = some (J.get (J.next (some before.length)))
    rw [hpath.next_of_split hlist, get_next_ofList, hsplit, getElem?_append_right (by omega),
      Nat.add_sub_cancel_left, getElem?_cons_succ, head?_eq_getElem?]
  · rintro _ position rfl hvalid
    obtain ⟨x, hx⟩ := Option.isSome_iff_exists.mp hvalid
    obtain ⟨i, rfl, hi⟩ := Option.bind_eq_some_iff.mp hx
    obtain ⟨key, hkey⟩ := h.exists_key (mem_of_getElem? hi)
    have hbelow : (levels 0).filter (s.below key) = (levels 0).filter fun y ↦ s.rank y < s.rank x := by
      refine filter_congr fun y hy ↦ ?_
      rw [h.below_eq hy, rank, rank, hkey]
      rfl
    have hnull := orNull_getLastD fun hmem ↦ hhead (mem_of_mem_filter (p := s.below key) hmem)
    rw [hx]
    change ((s.key x).bind fun key ↦ (s.findLessThan key).map orNull) = some (J.get (J.prev (some i)))
    rw [hkey, Option.bind_some, h.findLessThan_eq, Option.map_some, hnull, hbelow, get_prev hsorted hi]

/-- **A skip list's iterator is a cursor between any two stores.**  `Insert` is called with keys that are pairwise
different.  At every moment the iterator stands, after any calls that its assertions allow, where a cursor over the
nodes in the order of their keys would, with every key whose `Insert` has returned and, besides these, at most
the key that is being inserted; no call fails. -/
theorem iterators_between_stores {state : State K} (hreach : (machine K).ReachableWhen Distinct state) :
    ∃ nodes : List ℕ, (nodes.Pairwise fun x y ↦ state.list.rank x < state.list.rank y) ∧
      (∀ key ∈ state.inserted, ∃ x ∈ nodes, state.list.key x = some key) ∧
      (∀ x ∈ nodes, ∃ key, state.list.key x = some key ∧
        (key ∈ state.inserted ∨ ∃ i, state.inserting = some i ∧ key = i.key)) ∧
      ∀ calls, state.list.iterator.allows (some none) calls = true →
        state.list.iterator.run (some none) calls =
          some ((state.list.cursor nodes).get ((state.list.cursor nodes).run none calls)) := by
  obtain ⟨levels, h⟩ := exists_stateOk hreach
  refine ⟨levels 0, (pairwise_cons.mp (h.list.sorted 0)).2, h.present, fun x hx ↦ ?_, fun calls hcalls ↦ ?_⟩
  · obtain ⟨key, hkey⟩ := h.list.exists_key hx
    exact ⟨key, hkey, h.known x hx key hkey⟩
  · exact h.list.simulates_iterator.run (b := none) rfl hcalls

/-- Two keys are in the list, and the iterator goes back from the larger one. -/
theorem iterators_between_stores_of_two : ∃ state : State ℕ, state.inserted = [5, 3] ∧
      state.list.iterator.allows (some none) [.seek 4, .prev] = true ∧
      ∃ nodes : List ℕ, state.list.iterator.run (some none) [.seek 4, .prev] =
        some ((state.list.cursor nodes).get ((state.list.cursor nodes).run none [.seek 4, .prev])) := by
  obtain ⟨state, hrun, hinserted, hallows⟩ := Machine.Run.of_exec (machine ℕ)
    (fun state action ↦ decide (Distinct state action)) ⟨empty, none, []⟩ rfl
    [.insert 5 1, .store, .store, .store, .insert 3 1, .store, .store, .store]
    (fun state ↦ state.inserted = [5, 3] ∧ state.list.iterator.allows (some none) [.seek 4, .prev] = true)
    (by decide +kernel)
  obtain ⟨nodes, -, -, -, hcalls⟩ :=
    iterators_between_stores ⟨_, hrun.mono fun _ _ hok ↦ of_decide_eq_true hok⟩
  exact ⟨state, hinserted, hallows, nodes, hcalls _ hallows⟩

end LevelDB.Db.SkipList
