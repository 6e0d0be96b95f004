import Mathlib.Data.List.Perm.Basic
import Mathlib.Data.List.GetD
import Mathlib.Tactic

/-!
# The hash table of the cache

`HandleTable` of `util/cache.cpp`: buckets of handles that are chained through `next_hash`.  A chain is
the list of its handles.  As long as equal keys have equal hashes, the table holds at most one handle of
a key, in whatever buckets a resize has put them.
-/

namespace LevelDB.Util.Cache

open List

/-- `list_` and `elems_`; `length_` is the length of the list. -/
structure HandleTable (E : Type*) where
  list : List (List E)
  elems : ℕ

variable {E K : Type*}

def slot (length hash : ℕ) : ℕ := hash &&& (length - 1)

/-- `*ptr = e` in `Insert`, where `FindPointer` has stopped at the first handle with `found`, or at the
end of the chain. -/
def replaceAt (found : E → Bool) (e : E) : List E → List E
  | [] => [e]
  | x :: rest => if found x then e :: rest else x :: replaceAt found e rest

def newLength (elems doublings : ℕ) : ℕ :=
  if 4 * 2 ^ doublings < elems then newLength elems (doublings + 1) else 4 * 2 ^ doublings
termination_by elems - 4 * 2 ^ doublings
decreasing_by
  rw [pow_succ]
  have := Nat.one_le_two_pow (n := doublings)
  omega

namespace HandleTable

variable [DecidableEq K] (key : E → K) (hash : E → ℕ)

/-- Where `FindPointer` stops. -/
def isEntry (k : K) (h : ℕ) (e : E) : Bool := decide (hash e = h ∧ k = key e)

def chain (t : HandleTable E) (h : ℕ) : List E := t.list.getD (slot t.list.length h) []

def lookup (t : HandleTable E) (k : K) (h : ℕ) : Option E := (t.chain h).find? (isEntry key hash k h)

def rehash (newList : List (List E)) (e : E) : List (List E) :=
  newList.modify (slot newList.length (hash e)) fun c ↦ e :: c

/-- `Resize`; `none` is a failed assertion.  The length is a `uint32_t` that doubles to 0 where more than
`2 ^ 31` handles are counted, and the loop does not end. -/
def resize (t : HandleTable E) : Option (HandleTable E) :=
  if t.elems ≤ 2 ^ 31 then
    let newList := t.list.flatten.foldl (rehash hash) (List.replicate (newLength t.elems 0) [])
    if t.elems = t.list.flatten.length then some { t with list := newList } else none
  else none

def new : HandleTable E := ⟨List.replicate (newLength 0 0) [], 0⟩

def insert (t : HandleTable E) (e : E) : Option (HandleTable E × Option E) :=
  let found := isEntry key hash (key e) (hash e)
  let list := t.list.modify (slot t.list.length (hash e)) (replaceAt found e)
  match t.lookup key hash (key e) (hash e) with
  | some old => some (⟨list, t.elems⟩, some old)
  | none =>
    let t : HandleTable E := ⟨list, t.elems + 1⟩
    if t.list.length < t.elems then (t.resize hash).map fun t ↦ (t, none) else some (t, none)

def remove (t : HandleTable E) (k : K) (h : ℕ) : HandleTable E × Option E :=
  let found := isEntry key hash k h
  match t.lookup key hash k h with
  | some e => (⟨t.list.modify (slot t.list.length h) (List.eraseP found), t.elems - 1⟩, some e)
  | none => (t, none)

end HandleTable

theorem slot_lt {length : ℕ} (hpos : 0 < length) (h : ℕ) : slot length h < length :=
  (Nat.and_le_right).trans_lt (Nat.sub_lt hpos Nat.one_pos)

section Chain

variable [DecidableEq K] {key : E → K} {found : E → Bool} {k : K} {c : List E}

theorem filter_key_ne (h : ∀ e ∈ c, key e ≠ k) : (c.filter fun e ↦ key e ≠ k) = c :=
  filter_eq_self.mpr fun e he ↦ decide_eq_true (h e he)

section

variable (hkeys : c.Pairwise fun a b ↦ key a ≠ key b)
include hkeys

omit [DecidableEq K] in
theorem eq_of_key_eq {a b : E} (ha : a ∈ c) (hb : b ∈ c) (hkey : key a = key b) : a = b := by
  have hsymm : Std.Symm fun a b : E ↦ key a ≠ key b := ⟨fun _ _ ↦ Ne.symm⟩
  by_contra hne
  exact hkeys.forall ha hb hne hkey

theorem eraseP_eq_filter (hfound : ∀ e ∈ c, found e = true ↔ key e = k) :
    c.eraseP found = c.filter fun e ↦ key e ≠ k := by
  induction c with
  | nil => rfl
  | cons x rest ih =>
    obtain ⟨hx, hrest⟩ := pairwise_cons.mp hkeys
    have hfx := hfound x mem_cons_self
    by_cases heq : key x = k
    · rw [eraseP_cons_of_pos (hfx.mpr heq), filter_cons_of_neg (by simpa using heq),
        filter_key_ne fun e he hk ↦ hx e he (heq.trans hk.symm)]
    · rw [eraseP_cons_of_neg fun h ↦ heq (hfx.mp h), filter_cons_of_pos (by simpa using heq),
        ih hrest fun e he ↦ hfound e (mem_cons_of_mem x he)]

theorem replaceAt_perm (hfound : ∀ e ∈ c, found e = true ↔ key e = k) (e : E) :
    (replaceAt found e c).Perm (e :: c.filter fun e ↦ key e ≠ k) := by
  induction c with
  | nil => exact .refl _
  | cons x rest ih =>
    obtain ⟨hx, hrest⟩ := pairwise_cons.mp hkeys
    have hfx := hfound x mem_cons_self
    by_cases heq : key x = k
    · rw [replaceAt, if_pos (hfx.mpr heq), filter_cons_of_neg (by simpa using heq),
        filter_key_ne fun e he hk ↦ hx e he (heq.trans hk.symm)]
    · rw [replaceAt, if_neg fun h ↦ heq (hfx.mp h), filter_cons_of_pos (by simpa using heq)]
      exact ((ih hrest fun e he ↦ hfound e (mem_cons_of_mem x he)).cons x).trans (.swap e x _)

end

end Chain

theorem eq_or_mem_of_mem_replaceAt {found : E → Bool} {e x : E} {c : List E}
    (hx : x ∈ replaceAt found e c) : x = e ∨ x ∈ c := by
  induction c with
  | nil => exact .inl (mem_singleton.mp hx)
  | cons y rest ih =>
    rw [replaceAt] at hx
    split at hx
    · exact (mem_cons.mp hx).imp_right (mem_cons_of_mem y)
    · rcases mem_cons.mp hx with rfl | hx
      · exact .inr mem_cons_self
      · exact (ih hx).imp_right (mem_cons_of_mem y)

theorem flatten_modify {list : List (List E)} {i : ℕ} (hi : i < list.length) (f : List E → List E) :
    (list.modify i f).flatten =
      (list.take i).flatten ++ (f (list.getD i []) ++ (list.drop (i + 1)).flatten) := by
  rw [modify_eq_take_cons_drop hi, flatten_append, flatten_cons, getD_eq_getElem _ _ hi]

theorem flatten_eq_split {list : List (List E)} {i : ℕ} (hi : i < list.length) :
    list.flatten = (list.take i).flatten ++ (list.getD i [] ++ (list.drop (i + 1)).flatten) := by
  have h := flatten_modify hi id
  rwa [modify_id] at h

def InSlots (hash : E → ℕ) (list : List (List E)) : Prop :=
  ∀ i, ∀ e ∈ list.getD i [], slot list.length (hash e) = i

theorem InSlots.modify {hash : E → ℕ} {list : List (List E)} (h : InSlots hash list) {n : ℕ}
    {f : List E → List E}
    (hf : ∀ c, (∀ e ∈ c, slot list.length (hash e) = n) → ∀ e ∈ f c, slot list.length (hash e) = n) :
    InSlots hash (list.modify n f) := by
  intro i e he
  rw [length_modify]
  by_cases hi : i < list.length
  · rw [getD_eq_getElem _ _ (by simpa using hi), getElem_modify] at he
    have hold : ∀ e ∈ list[i], slot list.length (hash e) = i := by
      intro e he
      exact h i e (by rwa [getD_eq_getElem _ _ hi])
    split at he
    · rename_i heq
      subst heq
      exact hf _ hold e he
    · exact hold e he
  · rw [getD_eq_default _ _ (by simpa using hi)] at he
    cases he

theorem length_foldl_rehash (hash : E → ℕ) (handles : List E) (list : List (List E)) :
    (handles.foldl (HandleTable.rehash hash) list).length = list.length := by
  induction handles generalizing list with
  | nil => rfl
  | cons e rest ih => rw [foldl_cons, ih, HandleTable.rehash, length_modify]

/-- The loops of `Resize` move every handle to the bucket of its hash. -/
theorem foldl_rehash (hash : E → ℕ) (handles : List E) {list : List (List E)} (hpos : 0 < list.length)
    (h : InSlots hash list) :
    InSlots hash (handles.foldl (HandleTable.rehash hash) list) ∧
      (handles.foldl (HandleTable.rehash hash) list).flatten.Perm (handles ++ list.flatten) := by
  induction handles generalizing list with
  | nil => exact ⟨h, .refl _⟩
  | cons e rest ih =>
    have hslot := slot_lt hpos (hash e)
    have hnext : InSlots hash (HandleTable.rehash hash list e) := by
      apply h.modify
      intro c hc x hx
      rcases mem_cons.mp hx with rfl | hx
      · rfl
      · exact hc x hx
    obtain ⟨hslots, hperm⟩ := ih (by rwa [HandleTable.rehash, length_modify]) hnext
    refine ⟨hslots, hperm.trans ?_⟩
    unfold HandleTable.rehash
    rw [flatten_modify hslot, flatten_eq_split hslot]
    refine (List.Perm.append_left rest ?_).trans perm_middle
    exact perm_middle

structure Placed (key : E → K) (hash : E → ℕ) (hashKey : K → ℕ) (t : HandleTable E) : Prop where
  pos : 0 < t.list.length
  slots : InSlots hash t.list
  count : t.elems = t.list.flatten.length
  keys : t.list.flatten.Pairwise fun a b ↦ key a ≠ key b
  hashed : ∀ e ∈ t.list.flatten, hash e = hashKey (key e)

theorem newLength_pos (elems doublings : ℕ) : 0 < newLength elems doublings := by
  fun_induction newLength with
  | case1 doublings _ ih => exact ih
  | case2 doublings _ => positivity

section Table

variable {key : E → K} {hash : E → ℕ} {hashKey : K → ℕ} {t : HandleTable E}

theorem inSlots_replicate (hash : E → ℕ) (n : ℕ) : InSlots hash (List.replicate n ([] : List E)) := by
  intro i e he
  rcases Nat.lt_or_ge i n with hi | hi
  · rw [getD_eq_getElem _ _ (by simpa using hi), getElem_replicate] at he
    cases he
  · rw [getD_eq_default _ _ (by simpa using hi)] at he
    cases he

theorem placed_new : Placed key hash hashKey (HandleTable.new : HandleTable E) := by
  have hnil : (HandleTable.new : HandleTable E).list.flatten = [] := by simp [HandleTable.new]
  refine ⟨?_, inSlots_replicate hash _, ?_, ?_, ?_⟩
  · rw [HandleTable.new, length_replicate]
    exact newLength_pos 0 0
  · rw [hnil]
    rfl
  · rw [hnil]
    exact .nil
  · rw [hnil]
    simp

/-- A resize keeps the handles. -/
theorem Placed.resize (h : Placed key hash hashKey t) (helems : t.elems ≤ 2 ^ 31) :
    ∃ t', t.resize hash = some t' ∧ Placed key hash hashKey t' ∧ t'.list.flatten.Perm t.list.flatten := by
  have hpos : 0 < (List.replicate (newLength t.elems 0) ([] : List E)).length := by
    rw [length_replicate]
    exact newLength_pos _ _
  obtain ⟨hslots, hperm⟩ := foldl_rehash hash t.list.flatten hpos (inSlots_replicate hash _)
  rw [flatten_replicate_nil, append_nil] at hperm
  unfold HandleTable.resize
  rw [if_pos helems]
  refine ⟨_, if_pos h.count, ⟨?_, hslots, ?_, ?_, ?_⟩, hperm⟩
  · rw [length_foldl_rehash]
    exact hpos
  · exact h.count.trans hperm.length_eq.symm
  · exact hperm.symm.pairwise h.keys fun hne ↦ hne.symm
  · exact fun e he ↦ h.hashed e (hperm.mem_iff.mp he)

/-- Handles of a key are only in its chain. -/
theorem Placed.key_ne (h : Placed key hash hashKey t) (k : K) :
    ∀ e ∈ (t.list.take (slot t.list.length (hashKey k))).flatten ++
      (t.list.drop (slot t.list.length (hashKey k) + 1)).flatten, key e ≠ k := by
  intro e he hkey
  have hslot := slot_lt h.pos (hashKey k)
  have hmem : e ∈ t.list.flatten := by
    rw [flatten_eq_split hslot]
    rcases mem_append.mp he with he | he
    · exact mem_append_left _ he
    · exact mem_append_right _ (mem_append_right _ he)
  have hhash : slot t.list.length (hash e) = slot t.list.length (hashKey k) := by
    rw [h.hashed e hmem, hkey]
  rcases mem_append.mp he with he | he
  · obtain ⟨c, hc, hec⟩ := mem_flatten.mp he
    obtain ⟨i, hi, rfl⟩ := getElem_of_mem hc
    rw [length_take] at hi
    rw [getElem_take, ← getD_eq_getElem _ [] (by omega)] at hec
    have := h.slots i e hec
    omega
  · obtain ⟨c, hc, hec⟩ := mem_flatten.mp he
    obtain ⟨i, hi, rfl⟩ := getElem_of_mem hc
    rw [length_drop] at hi
    rw [getElem_drop, ← getD_eq_getElem _ [] (by omega)] at hec
    have := h.slots _ e hec
    omega

theorem Placed.chain_keys (h : Placed key hash hashKey t) (k : K) :
    (t.chain (hashKey k)).Pairwise fun a b ↦ key a ≠ key b := by
  have hkeys := h.keys
  rw [flatten_eq_split (slot_lt h.pos (hashKey k))] at hkeys
  exact (pairwise_append.mp (pairwise_append.mp hkeys).2.1).1

variable [DecidableEq K]

theorem Placed.isEntry_iff (h : Placed key hash hashKey t) (k : K) :
    ∀ e ∈ t.chain (hashKey k), HandleTable.isEntry key hash k (hashKey k) e = true ↔ key e = k := by
  intro e he
  have hmem : e ∈ t.list.flatten := by
    rw [flatten_eq_split (slot_lt h.pos (hashKey k))]
    exact mem_append_right _ (mem_append_left _ he)
  unfold HandleTable.isEntry
  rw [decide_eq_true_eq, h.hashed e hmem]
  constructor
  · exact fun heq ↦ heq.2.symm
  · rintro rfl
    exact ⟨rfl, rfl⟩

theorem Placed.lookup_eq_some (h : Placed key hash hashKey t) {k : K} {e : E} :
    t.lookup key hash k (hashKey k) = some e ↔ e ∈ t.list.flatten ∧ key e = k := by
  have hslot := slot_lt h.pos (hashKey k)
  constructor
  · intro hfind
    have hmem := mem_of_find?_eq_some hfind
    refine ⟨?_, (h.isEntry_iff k e hmem).mp (find?_some hfind)⟩
    rw [flatten_eq_split hslot]
    exact mem_append_right _ (mem_append_left _ hmem)
  · rintro ⟨hmem, hkey⟩
    have hchain : e ∈ t.chain (hashKey k) := by
      rw [flatten_eq_split hslot, mem_append, mem_append] at hmem
      rcases hmem with hmem | hmem | hmem
      · exact absurd hkey (h.key_ne k e (mem_append_left _ hmem))
      · exact hmem
      · exact absurd hkey (h.key_ne k e (mem_append_right _ hmem))
    cases hfind : t.lookup key hash k (hashKey k) with
    | none => exact absurd ((h.isEntry_iff k e hchain).mpr hkey) (find?_eq_none.mp hfind e hchain)
    | some x =>
      have hx := mem_of_find?_eq_some hfind
      have hxkey := (h.isEntry_iff k x hx).mp (find?_some hfind)
      rw [eq_of_key_eq (h.chain_keys k) hx hchain (hxkey.trans hkey.symm)]

def others (key : E → K) (k : K) (handles : List E) : List E := handles.filter fun e ↦ key e ≠ k

section

variable (h : Placed key hash hashKey t)

include h

theorem Placed.others_eq (k : K) :
    others key k t.list.flatten = (t.list.take (slot t.list.length (hashKey k))).flatten ++
      (others key k (t.chain (hashKey k)) ++
        (t.list.drop (slot t.list.length (hashKey k) + 1)).flatten) := by
  have hslot := slot_lt h.pos (hashKey k)
  have hne := h.key_ne k
  conv_lhs => rw [flatten_eq_split hslot]
  unfold others
  rw [filter_append, filter_append, filter_key_ne fun e he ↦ hne e (mem_append_left _ he),
    filter_key_ne fun e he ↦ hne e (mem_append_right _ he)]
  rfl

theorem Placed.others_of_lookup_none {k : K} (hlookup : t.lookup key hash k (hashKey k) = none) :
    others key k t.list.flatten = t.list.flatten := by
  refine filter_key_ne fun e he hkey ↦ ?_
  have hsome := h.lookup_eq_some.mpr ⟨he, hkey⟩
  rw [hlookup] at hsome
  cases hsome

theorem Placed.length_others {k : K} {e : E} (hlookup : t.lookup key hash k (hashKey k) = some e) :
    (others key k t.list.flatten).length + 1 = t.list.flatten.length := by
  have hmem := mem_of_find?_eq_some hlookup
  have herase := length_eraseP_of_mem hmem (find?_some hlookup)
  rw [eraseP_eq_filter (h.chain_keys k) (h.isEntry_iff k)] at herase
  have hpos := length_pos_of_mem hmem
  rw [h.others_eq k, flatten_eq_split (slot_lt h.pos (hashKey k))]
  change _ = ((_ : List E) ++ (t.chain (hashKey k) ++ _)).length
  simp only [length_append, others]
  omega

theorem Placed.remove (k : K) :
    ∃ t', t.remove key hash k (hashKey k) = (t', t.lookup key hash k (hashKey k)) ∧
      Placed key hash hashKey t' ∧ t'.list.flatten = others key k t.list.flatten := by
  have hslot := slot_lt h.pos (hashKey k)
  unfold HandleTable.remove
  dsimp only
  cases hlookup : t.lookup key hash k (hashKey k) with
  | none => exact ⟨t, rfl, h, (h.others_of_lookup_none hlookup).symm⟩
  | some e =>
    have hflat : (t.list.modify (slot t.list.length (hashKey k))
        (List.eraseP (HandleTable.isEntry key hash k (hashKey k)))).flatten =
          others key k t.list.flatten := by
      rw [flatten_modify hslot, h.others_eq k]
      congr 2
      exact eraseP_eq_filter (h.chain_keys k) (h.isEntry_iff k)
    refine ⟨_, rfl, ⟨?_, ?_, ?_, ?_, ?_⟩, hflat⟩
    · rw [length_modify]
      exact h.pos
    · apply h.slots.modify
      exact fun c hc e he ↦ hc e (mem_of_mem_eraseP he)
    · rw [hflat, h.count, ← h.length_others hlookup, Nat.add_sub_cancel]
    · rw [hflat]
      exact h.keys.filter _
    · rw [hflat]
      exact fun e he ↦ h.hashed e (mem_of_mem_filter he)

/-- The chain of a new handle before a resize. -/
theorem Placed.replaceAt {e : E} (hhash : hash e = hashKey (key e)) {elems : ℕ}
    (helems : elems = (others key (key e) t.list.flatten).length + 1) :
    Placed key hash hashKey ⟨t.list.modify (slot t.list.length (hash e))
        (replaceAt (HandleTable.isEntry key hash (key e) (hash e)) e), elems⟩ ∧
      (t.list.modify (slot t.list.length (hash e))
        (replaceAt (HandleTable.isEntry key hash (key e) (hash e)) e)).flatten.Perm
          (e :: others key (key e) t.list.flatten) := by
  rw [hhash]
  have hslot := slot_lt h.pos (hashKey (key e))
  have hperm : (t.list.modify (slot t.list.length (hashKey (key e)))
      (Cache.replaceAt (HandleTable.isEntry key hash (key e) (hashKey (key e))) e)).flatten.Perm
        (e :: others key (key e) t.list.flatten) := by
    rw [flatten_modify hslot, h.others_eq (key e)]
    have hchain := replaceAt_perm (h.chain_keys (key e)) (h.isEntry_iff (key e)) e
    exact (List.Perm.append_left _ (hchain.append_right _)).trans perm_middle
  refine ⟨⟨?_, ?_, ?_, ?_, ?_⟩, hperm⟩
  · rw [length_modify]
    exact h.pos
  · apply h.slots.modify
    intro c hc x hx
    rcases eq_or_mem_of_mem_replaceAt hx with rfl | hx
    · rw [hhash]
    · exact hc x hx
  · rw [hperm.length_eq, helems, length_cons]
  · refine hperm.symm.pairwise ?_ fun hne ↦ hne.symm
    refine pairwise_cons.mpr ⟨?_, h.keys.filter _⟩
    intro x hx heq
    exact of_decide_eq_true (mem_filter.mp hx).2 heq.symm
  · intro x hx
    rcases mem_cons.mp (hperm.mem_iff.mp hx) with rfl | hx
    · exact hhash
    · exact h.hashed x (mem_of_mem_filter hx)

theorem Placed.insert {e : E} (hhash : hash e = hashKey (key e))
    (hroom : t.lookup key hash (key e) (hashKey (key e)) = none → t.elems < 2 ^ 31) :
    ∃ t', t.insert key hash e = some (t', t.lookup key hash (key e) (hashKey (key e))) ∧
      Placed key hash hashKey t' ∧ t'.list.flatten.Perm (e :: others key (key e) t.list.flatten) := by
  unfold HandleTable.insert
  dsimp only
  rw [hhash]
  cases hlookup : t.lookup key hash (key e) (hashKey (key e)) with
  | some old =>
    have hplaced := h.replaceAt hhash (h.count.trans (h.length_others hlookup).symm)
    rw [hhash] at hplaced
    exact ⟨_, rfl, hplaced⟩
  | none =>
    have hcount : t.elems + 1 = (others key (key e) t.list.flatten).length + 1 := by
      rw [h.others_of_lookup_none hlookup, h.count]
    obtain ⟨hplaced, hperm⟩ := h.replaceAt hhash hcount
    rw [hhash] at hplaced hperm
    dsimp only
    split
    · obtain ⟨t', hresize, hplaced', hperm'⟩ := hplaced.resize (hroom hlookup)
      rw [hresize]
      exact ⟨t', rfl, hplaced', hperm'.trans hperm⟩
    · exact ⟨_, rfl, hplaced, hperm⟩

end

end Table

end LevelDB.Util.Cache
