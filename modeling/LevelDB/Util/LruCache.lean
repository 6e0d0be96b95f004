import LevelDB.Library.Machine
import LevelDB.Library.RefCount
import LevelDB.Util.HandleTable

/-!
# The LRU cache

`LRUCache` of `util/cache.cpp`, one shard of the cache.  Every call holds the mutex, so that a call is one
step.  An allocated handle is an object with a reference count; a pointer to it shows the members that
never change.  The history of insertions, erasures, evictions and calls of the deleter is recorded next to
the members.

`usage_` is a `size_t` and `refs` a `uint32_t`.  They count what they are meant to count as long as they do
not wrap around (`LRUCache.Bounded`).
-/

namespace LevelDB.Util.Cache

open Library RefCount List

variable {K V : Type*}

/-- The members of `LRUHandle` that `Insert` sets for good. -/
structure LRUHandle (K V : Type*) where
  key : K
  hash : ℕ
  value : V
  charge : UInt64

abbrev Pointer (K V : Type*) := Handle (LRUHandle K V)

def Pointer.key (e : Pointer K V) : K := e.value.key

def Pointer.hash (e : Pointer K V) : ℕ := e.value.hash

structure LRUCache (K V : Type*) where
  capacity : UInt64
  usage : UInt64 := 0
  /-- The list behind `lru_`; `lru_.next` is the oldest entry and comes first. -/
  lru : List (Pointer K V) := []
  table : HandleTable (Pointer K V) := HandleTable.new
  /-- The allocated handles. -/
  heap : List (Counted (LRUHandle K V)) := []
  /-- The handles that clients hold, one for each return of `Insert` or `Lookup`. -/
  handles : List (Pointer K V) := []
  /-- All entries in the order of their insertion. -/
  inserted : List (Pointer K V) := []
  /-- The entries whose deleter has run. -/
  deleted : List (Pointer K V) := []
  erased : List (Pointer K V) := []
  evicted : List (Pointer K V) := []

namespace LRUCache

variable (c : LRUCache K V)

def incrementRefs (id : ℕ) (heap : List (Counted (LRUHandle K V))) : List (Counted (LRUHandle K V)) :=
  heap.map fun o ↦ if o.id = id then { o with refs := (o.refs + 1) % 2 ^ 32 } else o

/-- `e->refs--`, with `free` of an entry without references. -/
def decrementRefs (id : ℕ) (heap : List (Counted (LRUHandle K V))) : List (Counted (LRUHandle K V)) :=
  (heap.map fun o ↦ if o.id = id then { o with refs := o.refs - 1 } else o).filter
    fun o ↦ ¬(o.id = id ∧ o.refs = 0)

/-- `none` is a failed assertion or the use of a handle that has been freed. -/
def unref (e : Pointer K V) : Option (LRUCache K V) :=
  match c.heap.find? fun o ↦ o.id = e.id with
  | none => none
  | some o =>
    if o.refs = 0 then none
    else some { c with
      heap := decrementRefs e.id c.heap
      usage := if o.refs - 1 = 0 then c.usage - e.value.charge else c.usage
      deleted := if o.refs - 1 = 0 then c.deleted ++ [e] else c.deleted }

/-- `none` when the entry is not in the list. -/
def lruRemove (e : Pointer K V) : Option (LRUCache K V) :=
  if c.lru.any fun x ↦ decide (x.id = e.id) then
    some { c with lru := c.lru.eraseP fun x ↦ decide (x.id = e.id) }
  else none

def lruAppend (e : Pointer K V) : LRUCache K V := { c with lru := c.lru ++ [e] }

def release (e : Pointer K V) : Option (LRUCache K V) :=
  { c with handles := c.handles.eraseP fun x ↦ decide (x.id = e.id) }.unref e

variable [DecidableEq K]

def lookup (key : K) (hash : ℕ) : Option (LRUCache K V × Option (Pointer K V)) :=
  match c.table.lookup Pointer.key Pointer.hash key hash with
  | none => some (c, none)
  | some e =>
    ({ c with heap := incrementRefs e.id c.heap, handles := e :: c.handles }.lruRemove e).map
      fun (c : LRUCache K V) ↦ (c.lruAppend e, some e)

def evict : List (Pointer K V) → LRUCache K V → Option (LRUCache K V)
  | [], c => some c
  | old :: rest, c =>
    if c.capacity < c.usage then
      ({ c with
        lru := rest
        table := (c.table.remove Pointer.key Pointer.hash old.key old.hash).1
        evicted := c.evicted ++ [old] }.unref old).bind (evict rest)
    else some c

def insert (key : K) (hash : ℕ) (value : V) (charge : UInt64) : Option (LRUCache K V) :=
  let e : Pointer K V := ⟨c.inserted.length, ⟨key, hash, value, charge⟩⟩
  let c := { c with
    heap := c.heap ++ [(⟨e, 2⟩ : Counted (LRUHandle K V))]
    handles := e :: c.handles
    inserted := c.inserted ++ [e]
    usage := c.usage + charge }.lruAppend e
  match c.table.insert Pointer.key Pointer.hash e with
  | none => none
  | some (table, none) => evict c.lru { c with table := table }
  | some (table, some old) =>
    ({ c with table := table }.lruRemove old).bind fun c ↦ (c.unref old).bind fun c ↦ evict c.lru c

def erase (key : K) (hash : ℕ) : Option (LRUCache K V) :=
  match c.table.remove Pointer.key Pointer.hash key hash with
  | (_, none) => some c
  | (table, some e) =>
    ({ c with table := table, erased := c.erased ++ [e] }.lruRemove e).bind fun c ↦ c.unref e

end LRUCache

inductive Call (K V : Type*)
  | insert (key : K) (value : V) (charge : UInt64)
  | lookup (key : K)
  | erase (key : K)
  | release (id : ℕ)

section Machine

variable [DecidableEq K]

def totalCharge (heap : List (Counted (LRUHandle K V))) : ℕ := (heap.map fun o ↦ o.value.charge.toNat).sum

/-- The calls of the clients, with hashes from `hashKey`.  They release only handles that they hold. -/
def LRUCache.step (hashKey : K → ℕ) (c : LRUCache K V) : Call K V → Outcome (LRUCache K V)
  | .insert key value charge => .ofOption (c.insert key (hashKey key) value charge)
  | .lookup key => .ofOption ((c.lookup key (hashKey key)).map Prod.fst)
  | .erase key => .ofOption (c.erase key (hashKey key))
  | .release id =>
    match c.handles.find? fun e ↦ e.id = id with
    | none => .blocked
    | some e => .ofOption (c.release e)

def lruCache (hashKey : K → ℕ) : Machine (LRUCache K V) (Call K V) where
  init c := ∃ capacity, c = { capacity }
  step := LRUCache.step hashKey

/-- The new entry leaves a sum of charges that fits into `usage_` and a table that `Resize` can make room
for, or the client's new handle fits into `refs` next to the others and the table's reference. -/
def LRUCache.Bounded (hashKey : K → ℕ) (c : LRUCache K V) : Call K V → Prop
  | .insert key _ charge =>
    totalCharge c.heap + charge.toNat < 2 ^ 64 ∧
      (c.table.lookup Pointer.key Pointer.hash key (hashKey key) = none → c.table.elems < 2 ^ 31)
  | .lookup key =>
    ∀ e ∈ c.table.lookup Pointer.key Pointer.hash key (hashKey key),
      (c.handles.countP fun x ↦ decide (x.id = e.id)) + 2 < 2 ^ 32
  | .erase _ => True
  | .release _ => True

instance (hashKey : K → ℕ) (c : LRUCache K V) : DecidablePred (c.Bounded hashKey)
  | .insert _ _ _ => inferInstanceAs (Decidable (_ ∧ (_ → _)))
  | .lookup key => inferInstanceAs
      (Decidable (∀ e ∈ c.table.lookup Pointer.key Pointer.hash key (hashKey key), _ < _))
  | .erase _ => inferInstanceAs (Decidable True)
  | .release _ => inferInstanceAs (Decidable True)

def lastInsert (inserted : List (Pointer K V)) (key : K) : Option (Pointer K V) :=
  inserted.reverse.find? fun e ↦ decide (e.key = key)

end Machine

/-- Each of `owners` is one reference; what is not allocated any more has been deleted, once. -/
structure Owned (owners : List (Pointer K V)) (c : LRUCache K V) : Prop where
  tracks : Tracks c.heap owners
  usage : c.usage.toNat = totalCharge c.heap
  inserted : (c.heap.map Counted.toHandle ++ c.deleted).Perm c.inserted
  ids : c.inserted.map Handle.id = List.range c.inserted.length

theorem Owned.perm {owners owners' : List (Pointer K V)} {c : LRUCache K V} (h : Owned owners c)
    (hperm : owners.Perm owners') : Owned owners' c :=
  { h with tracks := h.tracks.perm hperm }

theorem totalCharge_append (a b : List (Counted (LRUHandle K V))) :
    totalCharge (a ++ b) = totalCharge a + totalCharge b := by
  unfold totalCharge
  rw [map_append, sum_append]

/-- A count that does not wrap around. -/
theorem incrementRefs_eq {id : ℕ} {heap : List (Counted (LRUHandle K V))}
    (h : ∀ o ∈ heap, o.id = id → o.refs + 1 < 2 ^ 32) : LRUCache.incrementRefs id heap = ref id heap := by
  apply map_congr_left
  intro o ho
  split
  · rename_i hid
    rw [Nat.mod_eq_of_lt (h o ho hid)]
  · rfl

/-- Only the entry itself can be left without references. -/
theorem decrementRefs_eq {id : ℕ} {heap : List (Counted (LRUHandle K V))} (hpos : ∀ o ∈ heap, 0 < o.refs) :
    LRUCache.decrementRefs id heap = RefCount.unref id heap := by
  apply filter_congr
  intro o ho
  obtain ⟨p, hp, rfl⟩ := mem_map.mp ho
  have := hpos p hp
  split
  · rename_i hid
    simp [hid]
  · rename_i hid
    simp [hid, this.ne']

theorem Owned.unref {owners : List (Pointer K V)} {c : LRUCache K V} {e : Pointer K V}
    (h : Owned (e :: owners) c) :
    ∃ heap usage deleted, c.unref e = some { c with heap := heap, usage := usage, deleted := deleted } ∧
      Owned owners { c with heap := heap, usage := usage, deleted := deleted } := by
  obtain ⟨o, ho, rfl⟩ := h.tracks.held e mem_cons_self
  have hpos := h.tracks.pos o ho
  have hfind : c.heap.find? (fun x ↦ decide (x.id = o.id)) = some o := by
    cases hfind : c.heap.find? fun x ↦ decide (x.id = o.id) with
    | none => exact absurd (decide_eq_true rfl) (find?_eq_none.mp hfind o ho)
    | some x =>
      have hid : x.id = o.id := by simpa using find?_some hfind
      rw [inj_on_of_nodup_map h.tracks.nodup (mem_of_find?_eq_some hfind) ho hid]
  obtain ⟨before, after, hheap, hunref⟩ := unref_split h.tracks.nodup h.tracks.pos ho
  unfold LRUCache.unref
  rw [hfind]
  dsimp only
  rw [if_neg hpos.ne', decrementRefs_eq h.tracks.pos]
  have hone : o.refs - 1 = 0 ↔ o.refs = 1 := by omega
  refine ⟨_, _, _, rfl, h.tracks.unref, ?_, ?_, h.ids⟩
  · change (if o.refs - 1 = 0 then c.usage - o.value.charge else c.usage).toNat =
      totalCharge (RefCount.unref o.id c.heap)
    have husage := h.usage
    rw [hheap, totalCharge_append, ← singleton_append, totalCharge_append] at husage
    rw [hunref, totalCharge_append, totalCharge_append]
    simp only [hone]
    split
    · simp only [totalCharge, map_singleton, map_nil, sum_singleton, sum_nil] at husage ⊢
      rw [UInt64.toNat_sub_of_le _ _ (UInt64.le_iff_toNat_le.mpr (by omega))]
      omega
    · exact husage
  · change ((RefCount.unref o.id c.heap).map Counted.toHandle ++
      if o.refs - 1 = 0 then c.deleted ++ [o.toHandle] else c.deleted).Perm c.inserted
    refine .trans ?_ h.inserted
    rw [hunref, hheap]
    simp only [hone]
    split
    · simp only [map_append, map_cons, nil_append, append_assoc]
      refine .append_left _ ?_
      rw [← append_assoc]
      exact (perm_append_singleton _ _).trans (.refl _)
    · simp

/-- Entries with the same address are the same. -/
theorem Owned.eq_of_id {owners : List (Pointer K V)} {c : LRUCache K V} (h : Owned owners c)
    {a b : Pointer K V} (ha : a ∈ owners) (hb : b ∈ owners) (hid : a.id = b.id) : a = b := by
  obtain ⟨o, ho, rfl⟩ := h.tracks.held a ha
  obtain ⟨p, hp, rfl⟩ := h.tracks.held b hb
  rw [inj_on_of_nodup_map h.tracks.nodup ho hp hid]

/-- A new handle with its two references. -/
theorem Owned.allocate {owners : List (Pointer K V)} {c : LRUCache K V} (h : Owned owners c)
    (entry : LRUHandle K V) {c' : LRUCache K V}
    (hheap : c'.heap = c.heap ++ [{ toHandle := ⟨c.inserted.length, entry⟩, refs := 2 }])
    (hinserted : c'.inserted = c.inserted ++ [⟨c.inserted.length, entry⟩])
    (husage : c'.usage = c.usage + entry.charge) (hfits : totalCharge c.heap + entry.charge.toNat < 2 ^ 64)
    (hdeleted : c'.deleted = c.deleted) :
    Owned (⟨c.inserted.length, entry⟩ :: ⟨c.inserted.length, entry⟩ :: owners) c' := by
  have hlt : ∀ x ∈ c.inserted, x.id < c.inserted.length := by
    intro x hx
    have hmem := mem_map_of_mem (f := Handle.id) hx
    rw [h.ids] at hmem
    exact mem_range.mp hmem
  have hfresh : ∀ o ∈ c.heap, o.id ≠ c.inserted.length := by
    intro o ho
    refine (hlt o.toHandle (h.inserted.mem_iff.mp ?_)).ne
    exact mem_append_left _ (mem_map_of_mem ho)
  have hfirst := h.tracks.append ⟨c.inserted.length, entry⟩ hfresh
  have hsecond := hfirst.ref mem_cons_self
  have href : ref c.inserted.length (c.heap ++ [{ toHandle := ⟨c.inserted.length, entry⟩, refs := 1 }]) =
      c.heap ++ [{ toHandle := ⟨c.inserted.length, entry⟩, refs := 2 }] := by
    unfold ref
    rw [map_append, map_congr_left fun o ho ↦ if_neg (hfresh o ho), map_id'' fun _ ↦ rfl]
    simp
  refine ⟨?_, ?_, ?_, ?_⟩
  · rw [hheap, ← href]
    exact hsecond
  · rw [husage, UInt64.toNat_add, h.usage, Nat.mod_eq_of_lt hfits, hheap, totalCharge_append]
    simp [totalCharge]
  · rw [hheap, hdeleted, hinserted, map_append, append_assoc]
    refine ((List.Perm.append_left _ perm_append_comm).trans ?_)
    rw [← append_assoc]
    exact h.inserted.append_right _
  · rw [hinserted, map_append, h.ids, length_append, length_singleton, range_succ]
    rfl

section Invariant

variable [DecidableEq K] {hashKey : K → ℕ} {c c' : LRUCache K V} {e : Pointer K V}

def LRUCache.Gone (c : LRUCache K V) (e : Pointer K V) : Prop := e ∈ c.erased ∨ e ∈ c.evicted

/-- The list and the table hold the same entries: the last insertions of their keys that are neither
erased nor evicted. -/
structure Listed (hashKey : K → ℕ) (c : LRUCache K V) : Prop where
  placed : Placed Pointer.key Pointer.hash hashKey c.table
  perm : c.lru.Perm c.table.list.flatten
  mem_iff : ∀ e, e ∈ c.lru ↔ lastInsert c.inserted e.key = some e ∧ ¬c.Gone e
  gone : ∀ e, c.Gone e → e ∈ c.inserted

theorem others_perm {entries : List (Pointer K V)} (hkeys : entries.Pairwise fun a b ↦ a.key ≠ b.key)
    (he : e ∈ entries) : entries.Perm (e :: others Pointer.key e.key entries) := by
  have hfound : ∀ x ∈ entries, decide (x.key = e.key) = true ↔ x.key = e.key := by simp
  obtain ⟨x, before, after, -, hx, hsplit, herase⟩ :=
    exists_of_eraseP (p := fun x : Pointer K V ↦ decide (x.key = e.key)) he (by simp)
  have hxe : x = e := eq_of_key_eq hkeys (by rw [hsplit]; simp) he (of_decide_eq_true hx)
  rw [eraseP_eq_filter hkeys hfound] at herase
  change entries.Perm (e :: entries.filter fun x ↦ x.key ≠ e.key)
  rw [herase, hsplit, hxe]
  exact perm_middle

theorem Listed.keys (h : Listed hashKey c) : c.lru.Pairwise fun a b ↦ a.key ≠ b.key :=
  h.perm.symm.pairwise h.placed.keys fun hne ↦ hne.symm

theorem Listed.lookup_eq_some (h : Listed hashKey c) {k : K} :
    c.table.lookup Pointer.key Pointer.hash k (hashKey k) = some e ↔ e ∈ c.lru ∧ e.key = k := by
  rw [h.placed.lookup_eq_some, h.perm.mem_iff]

theorem mem_others {k : K} {entries : List (Pointer K V)} :
    e ∈ others Pointer.key k entries ↔ e ∈ entries ∧ e.key ≠ k := by
  unfold others
  rw [mem_filter, decide_eq_true_eq]

theorem Owned.eraseP_eq {owners entries : List (Pointer K V)} (h : Owned owners c)
    (hsub : entries ⊆ owners) (hkeys : entries.Pairwise fun a b ↦ a.key ≠ b.key) (he : e ∈ entries) :
    (entries.eraseP fun x ↦ decide (x.id = e.id)) = others Pointer.key e.key entries := by
  apply eraseP_eq_filter hkeys
  intro x hx
  rw [decide_eq_true_eq]
  constructor
  · intro hid
    rw [h.eq_of_id (hsub hx) (hsub he) hid]
  · intro hkey
    rw [eq_of_key_eq hkeys hx he hkey]

theorem lruRemove_eq {owners : List (Pointer K V)} (h : Owned owners c) (hsub : c.lru ⊆ owners)
    (hkeys : c.lru.Pairwise fun a b ↦ a.key ≠ b.key) (he : e ∈ c.lru) :
    c.lruRemove e = some { c with lru := others Pointer.key e.key c.lru } := by
  unfold LRUCache.lruRemove
  rw [if_pos (any_eq_true.mpr ⟨e, he, decide_eq_true rfl⟩), h.eraseP_eq hsub hkeys he]

theorem Listed.remove (h : Listed hashKey c) (he : e ∈ c.lru)
    (hlru : c'.lru = others Pointer.key e.key c.lru)
    (htable : c'.table = (c.table.remove Pointer.key Pointer.hash e.key (hashKey e.key)).1)
    (hinserted : c'.inserted = c.inserted) (hgone : ∀ x, c'.Gone x ↔ c.Gone x ∨ x = e) :
    Listed hashKey c' := by
  obtain ⟨t, hremove, hplaced, hflat⟩ := h.placed.remove e.key
  rw [hremove] at htable
  refine ⟨htable ▸ hplaced, ?_, ?_, ?_⟩
  · rw [hlru, htable, hflat]
    exact h.perm.filter _
  · intro x
    rw [hlru, mem_others, h.mem_iff, hinserted, hgone, not_or, and_assoc]
    refine and_congr_right fun hlast ↦ and_congr_right fun hnot ↦ ?_
    have hx : x ∈ c.lru := (h.mem_iff x).mpr ⟨hlast, hnot⟩
    constructor
    · exact fun hkey heq ↦ hkey (heq ▸ rfl)
    · exact fun hne hkey ↦ hne (eq_of_key_eq h.keys hx he hkey)
  · intro x hx
    rw [hinserted]
    rcases (hgone x).mp hx with hx | rfl
    · exact h.gone x hx
    · have hlast := ((h.mem_iff x).mp he).1
      exact mem_reverse.mp (mem_of_find?_eq_some hlast)

theorem lastInsert_append (inserted : List (Pointer K V)) (e : Pointer K V) (k : K) :
    lastInsert (inserted ++ [e]) k = if e.key = k then some e else lastInsert inserted k := by
  unfold lastInsert
  rw [reverse_append, reverse_singleton, singleton_append, find?_cons]
  by_cases hkey : e.key = k <;> simp [hkey]

/-- A new entry takes the place of the one with its key. -/
theorem Listed.insert (h : Listed hashKey c) (hhash : e.hash = hashKey e.key) (hnew : e ∉ c.inserted)
    {table : HandleTable (Pointer K V)} {old : Option (Pointer K V)}
    (hroom : c.table.lookup Pointer.key Pointer.hash e.key (hashKey e.key) = none → c.table.elems < 2 ^ 31)
    (hinsert : c.table.insert Pointer.key Pointer.hash e = some (table, old)) (htable : c'.table = table)
    (hlru : c'.lru = others Pointer.key e.key c.lru ++ [e]) (hinserted : c'.inserted = c.inserted ++ [e])
    (hgone : ∀ x, c'.Gone x ↔ c.Gone x) : Listed hashKey c' := by
  obtain ⟨t, heq, hplaced, hperm⟩ := h.placed.insert hhash hroom
  rw [hinsert, Option.some.injEq, Prod.mk.injEq] at heq
  rw [heq.1] at htable
  refine ⟨htable ▸ hplaced, ?_, ?_, ?_⟩
  · rw [hlru, htable]
    refine (perm_append_singleton _ _).trans (.trans ?_ hperm.symm)
    exact (h.perm.filter _).cons e
  · intro x
    rw [hlru, mem_append, mem_others, mem_singleton, hinserted, lastInsert_append, hgone]
    split
    · rename_i hkey
      rw [Option.some.injEq]
      constructor
      · rintro (⟨-, hne⟩ | rfl)
        · exact absurd hkey.symm hne
        · exact ⟨rfl, fun hx ↦ hnew (h.gone x hx)⟩
      · rintro ⟨rfl, -⟩
        exact .inr rfl
    · rename_i hkey
      rw [← h.mem_iff]
      constructor
      · rintro (⟨hx, -⟩ | rfl)
        · exact hx
        · exact absurd rfl hkey
      · exact fun hx ↦ .inl ⟨hx, fun heq ↦ hkey heq.symm⟩
  · intro x hx
    rw [hinserted]
    exact mem_append_left _ (h.gone x ((hgone x).mp hx))

structure CacheOk (hashKey : K → ℕ) (c : LRUCache K V) : Prop where
  owned : Owned (c.handles ++ c.lru) c
  listed : Listed hashKey c

/-- An allocated handle has one reference more than clients hold if it is in the table. -/
theorem CacheOk.refs_eq (h : CacheOk hashKey c) {o : Counted (LRUHandle K V)} (ho : o ∈ c.heap) :
    (o.toHandle ∈ c.table.list.flatten → o.refs = (c.handles.countP fun e ↦ decide (e.id = o.id)) + 1) ∧
      (o.toHandle ∉ c.table.list.flatten → o.refs = c.handles.countP fun e ↦ decide (e.id = o.id)) := by
  have hcount := h.owned.tracks.count o ho
  rw [countP_append] at hcount
  have heq : ∀ e ∈ c.lru, e.id = o.id → e = o.toHandle := by
    intro e he hid
    obtain ⟨p, hp, rfl⟩ := h.owned.tracks.held e (mem_append_right _ he)
    rw [inj_on_of_nodup_map h.owned.tracks.nodup hp ho hid]
  have hzero : ∀ entries : List (Pointer K V), (∀ e ∈ entries, e ∈ c.lru ∧ e ≠ o.toHandle) →
      (entries.countP fun e ↦ decide (e.id = o.id)) = 0 := by
    intro entries hentries
    rw [countP_eq_zero]
    intro e he hid
    exact (hentries e he).2 (heq e (hentries e he).1 (of_decide_eq_true hid))
  constructor
  · intro hmem
    have hlru := h.listed.perm.mem_iff.mpr hmem
    have hothers := hzero (others Pointer.key (Pointer.key o.toHandle) c.lru) fun e he ↦
      ⟨(mem_others.mp he).1, fun heq ↦ (mem_others.mp he).2 (heq ▸ rfl)⟩
    rw [(others_perm h.listed.keys hlru).countP_eq, countP_cons, hothers] at hcount
    simpa using hcount
  · intro hmem
    rw [hzero c.lru] at hcount
    · exact hcount
    · exact fun e he ↦ ⟨he, fun heq ↦ hmem (h.listed.perm.mem_iff.mp (heq ▸ he))⟩

theorem CacheOk.evict {entries : List (Pointer K V)} (h : CacheOk hashKey c) (hentries : c.lru = entries) :
    ∃ c', LRUCache.evict entries c = some c' ∧ CacheOk hashKey c' ∧
      (c'.usage ≤ c'.capacity ∨ c'.lru = []) := by
  induction entries generalizing c with
  | nil => exact ⟨c, rfl, h, .inr hentries⟩
  | cons old rest ih =>
    rw [LRUCache.evict]
    split
    · have hold : old ∈ c.lru := hentries ▸ mem_cons_self
      have hkeys := hentries ▸ h.listed.keys
      have hrest : rest = others Pointer.key old.key c.lru := by
        rw [hentries]
        unfold others
        rw [filter_cons_of_neg (by simp)]
        exact (filter_key_ne fun x hx ↦ ((pairwise_cons.mp hkeys).1 x hx).symm).symm
      have hhash : old.hash = hashKey old.key := h.listed.placed.hashed old (h.listed.perm.mem_iff.mp hold)
      have hlisted : Listed hashKey { c with
          lru := rest
          table := (c.table.remove Pointer.key Pointer.hash old.key old.hash).1
          evicted := c.evicted ++ [old] } := by
        refine h.listed.remove hold hrest (by rw [hhash]) rfl ?_
        intro x
        simp only [LRUCache.Gone, mem_append, mem_singleton, or_assoc]
      have howned : Owned (old :: (c.handles ++ rest)) { c with
          lru := rest
          table := (c.table.remove Pointer.key Pointer.hash old.key old.hash).1
          evicted := c.evicted ++ [old] } := by
        have hperm := h.owned.perm (hentries ▸ perm_middle)
        exact { hperm with }
      obtain ⟨heap, usage, deleted, hunref, hafter⟩ := howned.unref
      rw [hunref, Option.bind_some]
      exact ih ⟨hafter, { hlisted with }⟩ rfl
    · rename_i hle
      exact ⟨c, rfl, h, .inl (UInt64.not_lt.mp hle)⟩

theorem CacheOk.insert (h : CacheOk hashKey c) {key : K} {value : V} {charge : UInt64}
    (hbounded : c.Bounded hashKey (.insert key value charge)) :
    ∃ c', c.insert key (hashKey key) value charge = some c' ∧ CacheOk hashKey c' ∧
      (c'.usage ≤ c'.capacity ∨ c'.lru = []) := by
  set e : Pointer K V := ⟨c.inserted.length, ⟨key, hashKey key, value, charge⟩⟩ with he
  set c₁ := { c with
    heap := c.heap ++ [(⟨e, 2⟩ : Counted (LRUHandle K V))]
    handles := e :: c.handles
    inserted := c.inserted ++ [e]
    usage := c.usage + charge }.lruAppend e with hc₁
  have hnew : e ∉ c.inserted := by
    intro hmem
    have hid := mem_map_of_mem (f := Handle.id) hmem
    rw [h.owned.ids, mem_range] at hid
    exact hid.false
  have howned : Owned ((e :: c.handles) ++ (c.lru ++ [e])) c₁ := by
    have hallocated : Owned (e :: e :: (c.handles ++ c.lru)) c₁ :=
      h.owned.allocate ⟨key, hashKey key, value, charge⟩ rfl rfl rfl hbounded.1 rfl
    apply hallocated.perm
    rw [cons_append, ← append_assoc]
    exact (perm_append_singleton e _).symm.cons e
  obtain ⟨table, hinsert, -, -⟩ := h.listed.placed.insert (e := e) rfl hbounded.2
  have hlisted : ∀ c₂ : LRUCache K V, c₂.table = table → c₂.lru = others Pointer.key key c.lru ++ [e] →
      c₂.inserted = c.inserted ++ [e] → c₂.erased = c.erased → c₂.evicted = c.evicted →
      Listed hashKey c₂ := by
    intro c₂ htable hlru hinserted herased hevicted
    refine h.listed.insert rfl hnew hbounded.2 hinsert htable hlru hinserted ?_
    intro x
    rw [LRUCache.Gone, herased, hevicted]
    rfl
  unfold LRUCache.insert
  dsimp only
  rw [← he, ← hc₁, show c₁.table = c.table from rfl, hinsert]
  cases hlookup : c.table.lookup Pointer.key Pointer.hash (Pointer.key e) (hashKey (Pointer.key e)) with
  | none =>
    have hsame : others Pointer.key key c.lru = c.lru := by
      refine filter_key_ne fun x hx hkey ↦ ?_
      have hsome := h.listed.lookup_eq_some.mpr ⟨hx, hkey⟩
      rw [show key = Pointer.key e from rfl, hlookup] at hsome
      cases hsome
    refine CacheOk.evict ⟨{ howned with }, hlisted _ rfl ?_ rfl rfl rfl⟩ rfl
    rw [hsame]
    rfl
  | some old =>
    obtain ⟨hold, hkey⟩ := h.listed.lookup_eq_some.mp hlookup
    have herase : ((c.lru ++ [e]).eraseP fun x ↦ decide (x.id = old.id)) =
        others Pointer.key key c.lru ++ [e] := by
      rw [eraseP_append_left (p := fun x : Pointer K V ↦ decide (x.id = old.id)) (a := old) (by simp)
        _ hold, h.owned.eraseP_eq (subset_append_right _ _) h.listed.keys hold, hkey]
      rfl
    have hremove : ({ c₁ with table := table } : LRUCache K V).lruRemove old =
        some { c₁ with table := table, lru := others Pointer.key key c.lru ++ [e] } := by
      unfold LRUCache.lruRemove
      have hany : ((c.lru ++ [e]).any fun x ↦ decide (x.id = old.id)) = true :=
        any_eq_true.mpr ⟨old, mem_append_left _ hold, decide_eq_true rfl⟩
      change (if ((c.lru ++ [e]).any fun x ↦ decide (x.id = old.id)) = true then
        some { c₁ with table := table, lru := (c.lru ++ [e]).eraseP fun x ↦ decide (x.id = old.id) }
        else none) = _
      rw [if_pos hany, herase]
    have hperm : ((e :: c.handles) ++ (c.lru ++ [e])).Perm
        (old :: ((e :: c.handles) ++ (others Pointer.key key c.lru ++ [e]))) := by
      have hlru := others_perm h.listed.keys hold
      rw [hkey] at hlru
      exact (List.Perm.append_left _ (hlru.append_right [e])).trans perm_middle
    have hafter : Owned (old :: ((e :: c.handles) ++ (others Pointer.key key c.lru ++ [e])))
        { c₁ with table := table, lru := others Pointer.key key c.lru ++ [e] } :=
      { howned.perm hperm with }
    obtain ⟨heap, usage, deleted, hunref, hend⟩ := hafter.unref
    dsimp only
    rw [hremove, Option.bind_some, hunref, Option.bind_some]
    exact CacheOk.evict ⟨hend, hlisted _ rfl rfl rfl rfl rfl⟩ rfl

theorem CacheOk.lookup (h : CacheOk hashKey c) {key : K} (hbounded : c.Bounded hashKey (.lookup key)) :
    ∃ c', c.lookup key (hashKey key) =
        some (c', c.table.lookup Pointer.key Pointer.hash key (hashKey key)) ∧ CacheOk hashKey c' := by
  unfold LRUCache.lookup
  cases hlookup : c.table.lookup Pointer.key Pointer.hash key (hashKey key) with
  | none => exact ⟨c, rfl, h⟩
  | some e =>
    obtain ⟨he, hkey⟩ := h.listed.lookup_eq_some.mp hlookup
    have hcount : ∀ o ∈ c.heap, o.id = e.id → o.refs + 1 < 2 ^ 32 := by
      intro o ho hid
      have hlt := hbounded e hlookup
      obtain ⟨o', ho', rfl⟩ := h.owned.tracks.held e (mem_append_right _ he)
      rw [inj_on_of_nodup_map h.owned.tracks.nodup ho ho' hid,
        (h.refs_eq ho').1 (h.listed.perm.mem_iff.mp he)]
      exact hlt
    dsimp only
    rw [incrementRefs_eq hcount]
    have howned : Owned (e :: (c.handles ++ c.lru))
        { c with heap := ref e.id c.heap, handles := e :: c.handles } := by
      have hmem : e ∈ c.handles ++ c.lru := mem_append_right _ he
      have hmap : (ref e.id c.heap).map Counted.toHandle = c.heap.map Counted.toHandle := by
        unfold ref
        rw [map_map]
        apply map_congr_left
        intro o _
        rw [Function.comp_apply]
        split <;> rfl
      refine ⟨h.owned.tracks.ref hmem, ?_, ?_, h.owned.ids⟩
      · have hcharge : ∀ heap : List (Counted (LRUHandle K V)),
            totalCharge heap = ((heap.map Counted.toHandle).map fun p ↦ p.value.charge.toNat).sum := by
          intro heap
          rw [totalCharge, map_map]
          rfl
        change c.usage.toNat = totalCharge (ref e.id c.heap)
        rw [hcharge, hmap, ← hcharge]
        exact h.owned.usage
      · change ((ref e.id c.heap).map Counted.toHandle ++ c.deleted).Perm c.inserted
        rw [hmap]
        exact h.owned.inserted
    have hremove := lruRemove_eq (c := { c with heap := ref e.id c.heap, handles := e :: c.handles })
      howned (fun x hx ↦ mem_cons_of_mem e (mem_append_right _ hx)) h.listed.keys he
    have hlru : (others Pointer.key e.key c.lru ++ [e]).Perm c.lru :=
      (perm_append_singleton _ _).trans (others_perm h.listed.keys he).symm
    rw [hremove, Option.map_some]
    refine ⟨_, rfl, ?_, ?_⟩
    · have hperm := howned.perm ((List.Perm.append_left c.handles hlru.symm).cons e)
      exact { hperm with }
    · exact { h.listed with
        perm := hlru.trans h.listed.perm
        mem_iff := fun x ↦ (hlru.mem_iff).trans (h.listed.mem_iff x) }

theorem CacheOk.erase (h : CacheOk hashKey c) (key : K) :
    ∃ c', c.erase key (hashKey key) = some c' ∧ CacheOk hashKey c' := by
  obtain ⟨table, htable, -, -⟩ := h.listed.placed.remove key
  unfold LRUCache.erase
  rw [htable]
  cases hlookup : c.table.lookup Pointer.key Pointer.hash key (hashKey key) with
  | none => exact ⟨c, rfl, h⟩
  | some e =>
    obtain ⟨he, hkey⟩ := h.listed.lookup_eq_some.mp hlookup
    have howned : Owned (c.handles ++ c.lru) { c with table := table, erased := c.erased ++ [e] } :=
      { h.owned with }
    have hremove := lruRemove_eq howned (subset_append_right _ _) h.listed.keys he
    have hlisted : Listed hashKey { c with
        table := table, erased := c.erased ++ [e], lru := others Pointer.key e.key c.lru } := by
      refine h.listed.remove he rfl (by rw [hkey, htable]) rfl ?_
      intro x
      simp only [LRUCache.Gone, mem_append, mem_singleton]
      tauto
    have hperm := (List.Perm.append_left c.handles (others_perm h.listed.keys he)).trans perm_middle
    have hafter : Owned (e :: (c.handles ++ others Pointer.key e.key c.lru)) { c with
        table := table, erased := c.erased ++ [e], lru := others Pointer.key e.key c.lru } :=
      { howned.perm hperm with }
    obtain ⟨heap, usage, deleted, hunref, hend⟩ := hafter.unref
    dsimp only
    rw [hremove, Option.bind_some, hunref]
    exact ⟨_, rfl, hend, { hlisted with }⟩

theorem CacheOk.release (h : CacheOk hashKey c) (he : e ∈ c.handles) :
    ∃ c', c.release e = some c' ∧ CacheOk hashKey c' := by
  obtain ⟨x, before, after, -, hx, hsplit, herase⟩ :=
    exists_of_eraseP (p := fun x : Pointer K V ↦ decide (x.id = e.id)) he (by simp)
  have hxe : x = e := by
    apply h.owned.eq_of_id _ (mem_append_left _ he) (of_decide_eq_true hx)
    rw [hsplit]
    simp
  have hperm : (c.handles ++ c.lru).Perm (e :: ((before ++ after) ++ c.lru)) := by
    rw [hsplit, hxe, append_assoc, append_assoc]
    exact perm_middle
  have howned : Owned (e :: ((before ++ after) ++ c.lru)) { c with handles := before ++ after } :=
    { h.owned.perm hperm with }
  obtain ⟨heap, usage, deleted, hunref, hend⟩ := howned.unref
  unfold LRUCache.release
  rw [herase, hunref]
  exact ⟨_, rfl, hend, { h.listed with }⟩

theorem CacheOk.step (h : CacheOk hashKey c) {call : Call K V} (hbounded : c.Bounded hashKey call) :
    c.step hashKey call ≠ .abort ∧ ∀ c', c.step hashKey call = .next c' → CacheOk hashKey c' := by
  have hkeeps : ∀ result : Option (LRUCache K V), (∃ c', result = some c' ∧ CacheOk hashKey c') →
      Outcome.ofOption result ≠ .abort ∧ ∀ c', Outcome.ofOption result = .next c' → CacheOk hashKey c' := by
    rintro _ ⟨c', rfl, hc'⟩
    refine ⟨by simp [Outcome.ofOption], ?_⟩
    rintro _ ⟨⟩
    exact hc'
  cases call with
  | insert key value charge =>
    obtain ⟨c', hinsert, hok, -⟩ := h.insert hbounded
    exact hkeeps _ ⟨c', hinsert, hok⟩
  | lookup key =>
    obtain ⟨c', hlookup, hok⟩ := h.lookup hbounded
    exact hkeeps _ ⟨c', by rw [hlookup]; rfl, hok⟩
  | erase key => exact hkeeps _ (h.erase key)
  | release id =>
    unfold LRUCache.step
    dsimp only
    split
    · simp
    · rename_i e hfind
      exact hkeeps _ (h.release (mem_of_find?_eq_some hfind))

theorem cacheOk_of_reachable (hreach : (lruCache hashKey).ReachableWhen (LRUCache.Bounded hashKey) c) :
    CacheOk hashKey c := by
  apply hreach.invariant
  · rintro _ ⟨capacity, rfl⟩
    refine ⟨⟨⟨nodup_nil, by simp, by simp, by simp⟩, rfl, .refl _, rfl⟩, placed_new, ?_, ?_, ?_⟩
    · simp [HandleTable.new]
    · simp [lastInsert]
    · rintro e (he | he) <;> cases he
  · intro c call c' hc hbounded hstep
    exact (hc.step hbounded).2 c' hstep

/-- What holds of the cache between two calls, as long as the counts do not wrap around.  The list and the
table hold the same entries, one of a key at most.  A handle has one reference for each time a client holds
it and one if it is in the table, and `usage_` adds up the charges of all handles.  An entry is allocated or
its deleter has run once; it has not run while a client holds the entry.  A lookup finds the last insertion
of its key, unless that was erased or evicted.  `Insert` leaves a usage within the capacity or an empty
list. -/
theorem cache_counts_references (hashKey : K → ℕ)
    (hreach : (lruCache hashKey).ReachableWhen (LRUCache.Bounded hashKey) c) :
    (c.lru.Perm c.table.list.flatten ∧ c.table.list.flatten.Pairwise fun a b ↦ a.key ≠ b.key) ∧
    (∀ o ∈ c.heap, 0 < o.refs ∧
      (o.toHandle ∈ c.table.list.flatten → o.refs = (c.handles.countP fun e ↦ decide (e.id = o.id)) + 1) ∧
      (o.toHandle ∉ c.table.list.flatten → o.refs = c.handles.countP fun e ↦ decide (e.id = o.id))) ∧
    c.usage.toNat = (c.heap.map fun o ↦ o.value.charge.toNat).sum ∧
    ((c.heap.map Counted.toHandle ++ c.deleted).Perm c.inserted ∧
      (c.inserted.map Handle.id).Nodup ∧ ∀ e ∈ c.handles, e ∉ c.deleted) ∧
    (∀ key, c.Bounded hashKey (.lookup key) → ∃ c', c.lookup key (hashKey key) = some (c',
      c.table.lookup Pointer.key Pointer.hash key (hashKey key))) ∧
    (∀ key e, c.table.lookup Pointer.key Pointer.hash key (hashKey key) = some e ↔
      lastInsert c.inserted key = some e ∧ e ∉ c.erased ∧ e ∉ c.evicted) ∧
    (∀ key value charge c', c.Bounded hashKey (.insert key value charge) →
      c.step hashKey (.insert key value charge) = .next c' → c'.usage ≤ c'.capacity ∨ c'.lru = []) ∧
    ∀ call, c.Bounded hashKey call → c.step hashKey call ≠ .abort := by
  have h := cacheOk_of_reachable hreach
  have hids : (c.inserted.map Handle.id).Nodup := by
    rw [h.owned.ids]
    exact nodup_range
  have hdisjoint : ∀ e ∈ c.handles, e ∉ c.deleted := by
    intro e he hdeleted
    obtain ⟨o, ho, rfl⟩ := h.owned.tracks.held e (mem_append_left _ he)
    have hnodup := h.owned.inserted.nodup_iff.mpr (List.Nodup.of_map _ hids)
    exact disjoint_of_nodup_append hnodup (mem_map_of_mem ho) hdeleted
  refine ⟨⟨h.listed.perm, h.listed.placed.keys⟩, fun o ho ↦ ⟨h.owned.tracks.pos o ho, h.refs_eq ho⟩,
    h.owned.usage, ⟨h.owned.inserted, hids, hdisjoint⟩, ?_, ?_, ?_, fun call hbounded ↦ (h.step hbounded).1⟩
  · intro key hbounded
    obtain ⟨c', hlookup, -⟩ := h.lookup hbounded
    exact ⟨c', hlookup⟩
  · intro key e
    rw [h.listed.lookup_eq_some, h.listed.mem_iff, LRUCache.Gone, not_or]
    constructor
    · rintro ⟨⟨hlast, hgone⟩, rfl⟩
      exact ⟨hlast, hgone⟩
    · rintro ⟨hlast, hgone⟩
      have hkey : e.key = key := by simpa using find?_some hlast
      rw [hkey]
      exact ⟨⟨hlast, hgone⟩, rfl⟩
  · intro key value charge c' hbounded hstep
    obtain ⟨c'', hinsert, -, hfull⟩ := h.insert hbounded
    rw [LRUCache.step, hinsert] at hstep
    cases hstep
    exact hfull

/-- Five entries resize the table; the third is replaced, with two evictions, while a client holds it. -/
def fiveEntries : List (Call ℕ ℕ) :=
  [.insert 1 10 1, .release 0, .insert 2 20 1, .release 1, .insert 3 30 1, .release 2, .insert 4 40 1,
    .release 3, .insert 5 50 1, .release 4, .lookup 3, .insert 3 31 2, .release 2, .erase 4]

theorem cache_counts_references_of_five :
    ∃ c : LRUCache ℕ ℕ, (lruCache id).ReachableWhen (LRUCache.Bounded id) c ∧ c.table.list.length = 8 ∧
      c.deleted.map Handle.id = [0, 1, 2, 3] ∧ c.lru.map Handle.id = [4, 5] ∧
      c.usage.toNat = (c.heap.map fun o ↦ o.value.charge.toNat).sum := by
  obtain ⟨c, hrun, hend⟩ := Machine.Run.of_exec (lruCache (K := ℕ) (V := ℕ) id)
    (fun c call ↦ decide (c.Bounded id call)) { capacity := 5 } ⟨5, rfl⟩ fiveEntries
    (fun c ↦ c.table.list.length = 8 ∧ c.deleted.map Handle.id = [0, 1, 2, 3] ∧
      c.lru.map Handle.id = [4, 5])
    (by decide +kernel)
  have hreach : (lruCache id).ReachableWhen (LRUCache.Bounded id) c :=
    ⟨_, hrun.mono fun _ _ ↦ of_decide_eq_true⟩
  obtain ⟨-, -, husage, -⟩ := cache_counts_references id hreach
  exact ⟨c, hreach, hend.1, hend.2.1, hend.2.2, husage⟩

/-- Two entries with a charge of `2 ^ 63`, both held by a client, leave a `usage_` of 0: nothing is evicted
from a cache with a capacity of `2 ^ 63`. -/
theorem usage_wraps_around :
    ∃ c : LRUCache ℕ ℕ, (lruCache id).Reachable c ∧ c.capacity.toNat = 2 ^ 63 ∧ c.usage.toNat = 0 ∧
      (c.heap.map fun o ↦ o.value.charge.toNat).sum = 2 ^ 64 ∧
      (c.heap.map fun o ↦ o.refs) = [2, 2] ∧ c.evicted.map Handle.id = [] := by
  obtain ⟨c, hrun, hend⟩ := Machine.Run.of_exec (lruCache (K := ℕ) (V := ℕ) id) (fun _ _ ↦ true)
    { capacity := 2 ^ 63 } ⟨2 ^ 63, rfl⟩ [.insert 1 10 (2 ^ 63), .insert 2 20 (2 ^ 63)]
    (fun c ↦ c.capacity.toNat = 2 ^ 63 ∧ c.usage.toNat = 0 ∧
      (c.heap.map fun o ↦ o.value.charge.toNat).sum = 2 ^ 64 ∧
      (c.heap.map fun o ↦ o.refs) = [2, 2] ∧ c.evicted.map Handle.id = [])
    (by decide +kernel)
  exact ⟨c, ⟨_, hrun.mono fun _ _ _ ↦ trivial⟩, hend⟩

end Invariant

end LevelDB.Util.Cache
