import LevelDB.Db.EncodedKeys
import LevelDB.Db.SkipListInvariant
import LevelDB.Library.Iterators

/-!
# Memtables

`db/memtable.cpp`.  An entry is one run of bytes in the arena: the internal key and the value, each after its
length.  The skip list orders the entries by what `KeyComparator` reads from these bytes, and the entry of a
node is the one that was allocated just before it.  A memtable is a map with versions: a lookup finds the newest
entry of a user key at or below a sequence number.
-/

namespace LevelDB.Db

open Util Util.Coding Format EncodedKeys Library SkipList List

/-- The entries in the order of their allocation, and the skip list over them. -/
structure MemTable (τ : Type*) where
  arena : List (List UInt8)
  table : SkipList.State (InternalKey τ)

namespace MemTable

/-- What `Get` returns: `true` with a value, `true` with `NotFound`, or `false`. -/
inductive GetResult where
  | found (value : List UInt8)
  | notFound
  | absent
  deriving DecidableEq, Repr

variable {τ : Type*} [LinearOrder τ] (user : Comparator τ)

def empty : MemTable τ := ⟨[], ⟨SkipList.empty, none, []⟩⟩

/-- What `KeyComparator` compares: the internal key at the start of an entry. -/
def keyRank (entry : List UInt8) : Option (InternalKey τ) :=
  (getLengthPrefixedSlice entry).map fun (key, _) ↦ internalRank user key

/-- The entry that a node of the skip list points to; `head_` has none. -/
def entryAt (m : MemTable τ) : ℕ → Option (List UInt8)
  | 0 => none
  | x + 1 => m.arena[x]?

/-- The bytes that `Add` writes, one part after the other. -/
def encodeEntry (seq : ℕ) (type : ValueType) (key value : List UInt8) : List UInt8 :=
  let buf := encodeVarint32 ((key.length + 8) % 2 ^ 32)
  let buf := buf ++ key
  let buf := buf ++ encodeFixed 8 (packSequenceAndType seq type)
  let buf := buf ++ encodeVarint32 (value.length % 2 ^ 32)
  buf ++ value

/-- `Add`, when `RandomHeight` gives `height`; `none` is a failed assertion. -/
def add (m : MemTable τ) (seq : ℕ) (type : ValueType) (key value : List UInt8) (height : ℕ) :
    Option (MemTable τ) :=
  let internalKeySize := key.length + 8
  let encodedLen := varintLength internalKeySize + internalKeySize + varintLength value.length + value.length
  let buf := encodeEntry seq type key value
  if buf.length = encodedLen then
    (keyRank user buf).bind fun rank ↦ (SkipList.insert m.table rank height).map fun table ↦
      ⟨m.arena ++ [buf], table⟩
  else none

def memtableKey (userKey : List UInt8) (s : ℕ) : List UInt8 :=
  encodeVarint32 ((userKey.length + 8) % 2 ^ 32) ++ encodedLookupKey userKey s

def readEntry (userKey entry : List UInt8) : Option GetResult :=
  (getVarint32 entry).bind fun (keyLength, keyPtr) ↦
    if user.rank (keyPtr.take (keyLength - 8)) = user.rank userKey then
      let tag := decodeFixed ((keyPtr.drop (keyLength - 8)).take 8)
      if tag % 256 = ValueType.kTypeValue.code then
        (getLengthPrefixedSlice (keyPtr.drop keyLength)).map fun (v, _) ↦ .found v
      else if tag % 256 = ValueType.kTypeDeletion.code then some .notFound
      else some .absent
    else some .absent

def get (m : MemTable τ) (userKey : List UInt8) (s : ℕ) : Option GetResult :=
  (keyRank user (memtableKey userKey s)).bind fun target ↦
    (m.table.list.findGreaterOrEqual target).bind fun (node, _) ↦
      match node with
      | none => some .absent
      | some x => (entryAt m x).bind (readEntry user userKey)

/-- `MemTableIterator::key` and `value` at an entry. -/
def keyValue (entry : List UInt8) : Option (List UInt8 × List UInt8) :=
  (getLengthPrefixedSlice entry).bind fun (key, rest) ↦
    (getLengthPrefixedSlice rest).map fun (value, _) ↦ (key, value)

/-- What an iterator shows from a node on, up to where it is not valid any more. -/
def iterateFrom (m : MemTable τ) : ℕ → Pointer → Option (List (List UInt8 × List UInt8))
  | 0, _ => none
  | _ + 1, none => some []
  | fuel + 1, some x =>
    ((entryAt m x).bind keyValue).bind fun kv ↦
      (m.table.list.next x 0).bind fun next ↦ (iterateFrom m fuel next).map fun rest ↦ kv :: rest

/-- `SeekToFirst` and then `Next` until the iterator is not valid. -/
def iterate (m : MemTable τ) : Option (List (List UInt8 × List UInt8)) :=
  (m.table.list.next head 0).bind (iterateFrom m (m.table.list.nodes.length + 1))

/-- A call of `Add`, with the height that `RandomHeight` gives in it. -/
structure Call where
  seq : ℕ
  type : ValueType
  key : List UInt8
  value : List UInt8
  height : ℕ
  deriving DecidableEq, Repr

def addAll : MemTable τ → List Call → Option (MemTable τ)
  | m, [] => some m
  | m, c :: calls => (add user m c.seq c.type c.key c.value c.height).bind fun m ↦ addAll m calls

namespace Call

/-- Sizes, sequence numbers and heights as `Add` is called with. -/
structure Ok (c : Call) : Prop where
  seq_le : c.seq ≤ kMaxSequenceNumber
  key_lt : c.key.length < 2 ^ 32 - 8
  value_lt : c.value.length < 2 ^ 32 - 8
  height_pos : 0 < c.height
  height_le : c.height ≤ kMaxHeight

def entry (c : Call) : List UInt8 := encodeEntry c.seq c.type c.key c.value

def internalKey (c : Call) : List UInt8 := appendInternalKey [] ⟨c.key, c.seq, c.type⟩

/-- Where the comparator puts the entry. -/
def rank (c : Call) : InternalKey τ := .mk' (user.rank c.key) c.seq c.type

/-- What a lookup that finds this entry returns. -/
def result (c : Call) : GetResult :=
  match c.type with
  | .kTypeValue => .found c.value
  | .kTypeDeletion => .notFound

variable {user} {c : Call}

theorem length_internalKey (c : Call) : c.internalKey.length = c.key.length + 8 := by
  rw [internalKey, appendInternalKey, length_append, length_encodeFixed, nil_append]

theorem entry_eq (c : Call) :
    c.entry = putLengthPrefixedSlice [] c.internalKey ++ putLengthPrefixedSlice [] c.value := by
  rw [putLengthPrefixedSlice, length_internalKey]
  simp only [entry, encodeEntry, putLengthPrefixedSlice, putVarint32, internalKey, appendInternalKey,
    nil_append, append_assoc]

section

variable (h : c.Ok)
include h

theorem Ok.internalKey_lt : c.internalKey.length < 2 ^ 32 := by
  have hkey := h.key_lt
  rw [length_internalKey]
  omega

theorem Ok.getLengthPrefixedSlice_entry :
    getLengthPrefixedSlice c.entry = some (c.internalKey, putLengthPrefixedSlice [] c.value) := by
  rw [entry_eq, getLengthPrefixedSlice_put h.internalKey_lt]

theorem Ok.getLengthPrefixedSlice_value :
    getLengthPrefixedSlice (putLengthPrefixedSlice [] c.value) = some (c.value, []) := by
  have hput := getLengthPrefixedSlice_put (h.value_lt.trans (by norm_num)) []
  rwa [append_nil] at hput

theorem Ok.tag_lt : packSequenceAndType c.seq c.type < 2 ^ 64 := packSequenceAndType_lt h.seq_le _

theorem Ok.internalRank_internalKey : internalRank user c.internalKey = c.rank user := by
  rw [internalRank, internalKey, appendInternalKey, nil_append, extractUserKey_append,
    extractTag_append h.tag_lt]
  rfl

theorem Ok.keyRank_entry : keyRank user c.entry = some (c.rank user) := by
  rw [keyRank, h.getLengthPrefixedSlice_entry, Option.map_some, ← h.internalRank_internalKey]

theorem Ok.keyValue_entry : keyValue c.entry = some (c.internalKey, c.value) := by
  rw [keyValue, h.getLengthPrefixedSlice_entry, Option.bind_some]
  dsimp only
  rw [h.getLengthPrefixedSlice_value, Option.map_some]

/-- The assertion of `Add`. -/
theorem Ok.length_entry : c.entry.length =
      varintLength (c.key.length + 8) + (c.key.length + 8) + varintLength c.value.length + c.value.length := by
  have hkey := h.key_lt
  have hvalue := h.value_lt
  have hkeySize : c.key.length + 8 < 2 ^ 32 := by omega
  have hvalueSize : c.value.length < 2 ^ 32 := by omega
  simp only [entry, encodeEntry, length_append, length_encodeFixed, Nat.mod_eq_of_lt hkeySize,
    Nat.mod_eq_of_lt hvalueSize, length_encodeVarint32 hkeySize, length_encodeVarint32 hvalueSize]
  omega

/-- What `Get` makes of an entry. -/
theorem Ok.readEntry_entry (userKey : List UInt8) : readEntry user userKey c.entry =
      some (if user.rank c.key = user.rank userKey then c.result else .absent) := by
  have hvarint : getVarint32 c.entry =
      some (c.key.length + 8, c.key ++ (encodeFixed 8 (packSequenceAndType c.seq c.type) ++
        putLengthPrefixedSlice [] c.value)) := by
    have hkey := h.internalKey_lt
    have hentry : c.entry = encodeVarint32 c.internalKey.length ++
        (c.key ++ (encodeFixed 8 (packSequenceAndType c.seq c.type) ++ putLengthPrefixedSlice [] c.value)) := by
      rw [entry_eq, putLengthPrefixedSlice, putVarint32, Nat.mod_eq_of_lt hkey]
      simp only [internalKey, appendInternalKey, nil_append, append_assoc]
    rw [hentry, getVarint32_encodeVarint32 hkey, length_internalKey]
  have hdrop : (c.key ++ (encodeFixed 8 (packSequenceAndType c.seq c.type) ++
      putLengthPrefixedSlice [] c.value)).drop (c.key.length + 8) = putLengthPrefixedSlice [] c.value := by
    rw [← append_assoc]
    exact drop_left' (by rw [length_append, length_encodeFixed])
  have hcode := packSequenceAndType_mod c.seq c.type
  rw [readEntry, hvarint, Option.bind_some]
  simp only [Nat.add_sub_cancel, take_left, drop_left, hdrop,
    take_left' (length_encodeFixed 8 _), decodeFixed_encodeFixed (show _ < 256 ^ 8 from h.tag_lt), hcode,
    h.getLengthPrefixedSlice_value, Option.map_some, result]
  by_cases huser : user.rank c.key = user.rank userKey
  · rw [if_pos huser, if_pos huser]
    cases c.type <;> rfl
  · rw [if_neg huser, if_neg huser]

end

end Call

theorem keyRank_memtableKey {userKey : List UInt8} (hkey : userKey.length < 2 ^ 32 - 8) {s : ℕ}
    (hs : s ≤ kMaxSequenceNumber) :
    keyRank user (memtableKey userKey s) = some (lookupKey (user.rank userKey) s) := by
  have hmemkey : memtableKey userKey s = putLengthPrefixedSlice [] (encodedLookupKey userKey s) ++ [] := by
    rw [memtableKey, putLengthPrefixedSlice, putVarint32, nil_append, append_nil, encodedLookupKey,
      length_append, length_encodeFixed]
  have hlength : (encodedLookupKey userKey s).length < 2 ^ 32 := by
    rw [encodedLookupKey, length_append, length_encodeFixed]
    omega
  rw [keyRank, hmemkey, getLengthPrefixedSlice_put hlength, Option.map_some]
  dsimp only
  rw [internalRank, encodedLookupKey, extractUserKey_append, extractTag_append (packSequenceAndType_lt hs _)]
  rfl

variable {user}

structure Holds (user : Comparator τ) (m : MemTable τ) (calls : List Call) (levels : ℕ → List ℕ) : Prop where
  ok : StateOk m.table levels
  idle : m.table.inserting = none
  inserted : m.table.inserted = calls.map (Call.rank user)
  keys : m.table.list.keys = none :: calls.map fun c ↦ some (c.rank user)
  arena : m.arena = calls.map Call.entry

theorem holds_empty : Holds user empty [] fun _ ↦ [] := ⟨stateOk_init, rfl, rfl, rfl, rfl⟩

variable {m : MemTable τ} {calls : List Call} {levels : ℕ → List ℕ}

theorem Call.seq_of_rank_eq {c c' : Call} (h : c.rank user = c'.rank user) : c.seq = c'.seq := by
  have htag : packSequenceAndType c.seq c.type = packSequenceAndType c'.seq c'.type :=
    congrArg InternalKey.tag h
  rw [← packSequenceAndType_div c.seq c.type, htag, packSequenceAndType_div]

section

variable (h : Holds user m calls levels)
include h

theorem Holds.add_spec {c : Call} (hc : c.Ok) (hseq : c.seq ∉ calls.map Call.seq) :
    ∃ m' levels', add user m c.seq c.type c.key c.value c.height = some m' ∧
      Holds user m' (calls ++ [c]) levels' := by
  have hfresh : c.rank user ∉ m.table.inserted := by
    rw [h.inserted]
    intro hmem
    obtain ⟨c', hc', heq⟩ := mem_map.mp hmem
    exact hseq (mem_map.mpr ⟨c', hc', Call.seq_of_rank_eq heq⟩)
  obtain ⟨table, levels', hinsert, hok, hidle, hinserted, hkeys⟩ :=
    h.ok.insert_spec h.idle hfresh hc.height_pos hc.height_le
  refine ⟨⟨m.arena ++ [c.entry], table⟩, levels', ?_, hok, hidle, ?_, ?_, ?_⟩
  · have hlength : (encodeEntry c.seq c.type c.key c.value).length = _ := hc.length_entry
    have hrank : keyRank user (encodeEntry c.seq c.type c.key c.value) = _ := hc.keyRank_entry
    simp only [add, if_pos hlength, hrank, Option.bind_some, hinsert, Option.map_some]
    rfl
  · rw [hinserted, h.inserted, map_append]
    rfl
  · rw [hkeys, h.keys, map_append]
    rfl
  · rw [h.arena, map_append]
    rfl

/-- No call fails an assertion. -/
theorem Holds.addAll_spec {more : List Call} (hok : ∀ c ∈ more, c.Ok)
    (hseq : ((calls ++ more).map Call.seq).Nodup) :
    ∃ m' levels', addAll user m more = some m' ∧ Holds user m' (calls ++ more) levels' := by
  induction more generalizing m calls levels with
  | nil => exact ⟨m, levels, rfl, by rwa [append_nil]⟩
  | cons c more ih =>
    obtain ⟨hc, hmore⟩ := forall_mem_cons.mp hok
    have hfresh : c.seq ∉ calls.map Call.seq := by
      rw [map_append, map_cons] at hseq
      intro hmem
      exact (disjoint_of_nodup_append hseq) hmem mem_cons_self
    obtain ⟨m₁, levels₁, hadd, h₁⟩ := h.add_spec hc hfresh
    rw [append_cons] at hseq ⊢
    obtain ⟨m', levels', hrun, h'⟩ := ih h₁ hmore hseq
    exact ⟨m', levels', by rw [addAll, hadd, Option.bind_some, hrun], h'⟩

theorem Holds.exists_call {x : ℕ} (hx : x ∈ levels 0) :
    ∃ c ∈ calls, m.table.list.key x = some (c.rank user) ∧ entryAt m x = some c.entry := by
  obtain ⟨k, hk⟩ := h.ok.list.exists_key hx
  have hkeys := hk
  rw [key_eq_keys, h.keys] at hkeys
  cases x with
  | zero => cases hkeys
  | succ y =>
    rw [getElem?_cons_succ, getElem?_map] at hkeys
    cases hc : calls[y]? with
    | none =>
      rw [hc] at hkeys
      cases hkeys
    | some c =>
      rw [hc] at hkeys
      refine ⟨c, mem_of_getElem? hc, hk.trans hkeys.symm, ?_⟩
      rw [entryAt, h.arena, getElem?_map, hc, Option.map_some]

theorem Holds.exists_node {c : Call} (hc : c ∈ calls) :
    ∃ x ∈ levels 0, m.table.list.key x = some (c.rank user) := by
  apply h.ok.present
  rw [h.inserted]
  exact mem_map_of_mem hc

end

/-- The versions of a user key that are not before the lookup key are those with a sequence up to `s`. -/
theorem Call.lookupKey_le_iff {c : Call} {userKey : List UInt8} (huser : user.rank c.key = user.rank userKey)
    (s : ℕ) : lookupKey (user.rank userKey) s ≤ c.rank user ↔ c.seq ≤ s := by
  have hcode := c.type.code_le_one
  simp only [lookupKey, Call.rank, InternalKey.mk', InternalKey.le_iff, huser, lt_self_iff_false, false_or,
    true_and, packSequenceAndType, kValueTypeForSeek, ValueType.code_kTypeValue]
  omega

/-- The seek of `Get` and what is read there. -/
theorem Holds.get_spec (h : Holds user m calls levels) (hcalls : ∀ c ∈ calls, c.Ok) {userKey : List UInt8}
    (hkey : userKey.length < 2 ^ 32 - 8) {s : ℕ} (hs : s ≤ kMaxSequenceNumber) :
    ∃ found : Option Call,
      Newest.Finds (fun c : Call ↦ user.rank c.key) Call.seq {c | c ∈ calls} (user.rank userKey) s found ∧
      get user m userKey s = some (found.elim .absent Call.result) := by
  set target := lookupKey (user.rank userKey) s with htarget
  have hget : get user m userKey s = ((levels 0).find? fun x ↦ !m.table.list.below target x).elim
      (some .absent) fun x ↦ (entryAt m x).bind (readEntry user userKey) := by
    rw [get, keyRank_memtableKey user hkey hs, Option.bind_some, h.ok.list.findGreaterOrEqual_eq target,
      Option.bind_some]
    cases (levels 0).find? fun x ↦ !m.table.list.below target x <;> rfl
  have hbelow {x : ℕ} {c : Call} (hx : m.table.list.key x = some (c.rank user)) :
      (!m.table.list.below target x) = true ↔ target ≤ c.rank user := by
    rw [SkipList.below, hx, Option.any_some, Bool.not_eq_true', decide_eq_false_iff_not, not_lt]
  rw [hget]
  cases hfind : (levels 0).find? fun x ↦ !m.table.list.below target x with
  | none =>
    refine ⟨none, fun c hc huser ↦ ?_, rfl⟩
    obtain ⟨x, hx, hxkey⟩ := h.exists_node hc
    by_contra hle
    have hnot := find?_eq_none.mp hfind x hx
    exact hnot ((hbelow hxkey).mpr ((Call.lookupKey_le_iff huser s).mpr (not_lt.mp hle)))
  | some x =>
    have hsorted := (pairwise_cons.mp (h.ok.list.sorted 0)).2
    obtain ⟨hx, hge, hleast⟩ := (Iterator.find?_eq_some_iff_least hsorted).mp hfind
    obtain ⟨c, hc, hxkey, hentry⟩ := h.exists_call hx
    have hle : target ≤ c.rank user := (hbelow hxkey).mp hge
    -- no version that is visible comes before the node found
    have hfirst : ∀ c' ∈ calls, user.rank c'.key = user.rank userKey → c'.seq ≤ s →
        c.rank user ≤ c'.rank user := by
      intro c' hc' huser hseq
      obtain ⟨y, hy, hykey⟩ := h.exists_node hc'
      have hrank := hleast y hy ((hbelow hykey).mpr ((Call.lookupKey_le_iff huser s).mpr hseq))
      rw [SkipList.rank, SkipList.rank, hxkey, hykey] at hrank
      exact WithBot.coe_le_coe.mp hrank
    simp only [Option.elim_some, hentry, Option.bind_some, (hcalls c hc).readEntry_entry]
    by_cases huser : user.rank c.key = user.rank userKey
    · refine ⟨some c, ⟨hc, huser, (Call.lookupKey_le_iff huser s).mp hle, fun c' hc' huser' hseq ↦ ?_⟩, ?_⟩
      · have htag := hfirst c' hc' huser' hseq
        rw [← huser'] at huser
        simp only [Call.rank, InternalKey.mk', InternalKey.le_iff, huser, lt_self_iff_false, false_or, true_and]
          at htag
        rw [← packSequenceAndType_div c'.seq c'.type, ← packSequenceAndType_div c.seq c.type]
        exact Nat.div_le_div_right htag
      · rw [if_pos huser]
        rfl
    · refine ⟨none, fun c' hc' huser' ↦ ?_, by rw [if_neg huser]; rfl⟩
      by_contra hseq
      have huserLe : user.rank c.key ≤ user.rank c'.key :=
        InternalKey.userKey_le_of_le (hfirst c' hc' huser' (not_lt.mp hseq))
      have htargetLe : user.rank userKey ≤ user.rank c.key := InternalKey.userKey_le_of_le hle
      exact huser (le_antisymm (huserLe.trans huser'.le) htargetLe)

theorem Holds.iterateFrom_path (h : Holds user m calls levels) (hcalls : ∀ c ∈ calls, c.Ok) {x fuel : ℕ}
    {nodes : List ℕ} (hpath : Path m.table.list 0 x nodes) (hsub : nodes ⊆ levels 0)
    (hfuel : nodes.length < fuel) :
    ∃ shown : List Call, iterateFrom m fuel nodes.head? = some (shown.map fun c ↦ (c.internalKey, c.value)) ∧
      nodes.map m.table.list.key = shown.map (fun c ↦ some (c.rank user)) ∧ shown ⊆ calls := by
  induction nodes generalizing x fuel with
  | nil =>
    obtain ⟨fuel, rfl⟩ := Nat.exists_eq_succ_of_ne_zero (Nat.ne_of_gt hfuel)
    exact ⟨[], rfl, rfl, nil_subset _⟩
  | cons y nodes ih =>
    obtain ⟨fuel, rfl⟩ := Nat.exists_eq_succ_of_ne_zero (Nat.ne_of_gt (Nat.zero_lt_of_lt hfuel))
    obtain ⟨hy, hrest⟩ := cons_subset.mp hsub
    obtain ⟨c, hc, hkey, hentry⟩ := h.exists_call hy
    obtain ⟨shown, hshown, hkeys, hmem⟩ := ih hpath.2 hrest (Nat.lt_of_succ_lt_succ hfuel)
    refine ⟨c :: shown, ?_, ?_, cons_subset.mpr ⟨hc, hmem⟩⟩
    · rw [head?_cons, iterateFrom, hentry, Option.bind_some, (hcalls c hc).keyValue_entry, Option.bind_some,
        hpath.2.next_eq, Option.bind_some, hshown]
      rfl
    · rw [map_cons, map_cons, hkey, hkeys]

theorem Holds.iterate_spec (h : Holds user m calls levels) (hcalls : ∀ c ∈ calls, c.Ok)
    (hseq : (calls.map Call.seq).Nodup) :
    ∃ shown : List Call, iterate m = some (shown.map fun c ↦ (c.internalKey, c.value)) ∧ shown.Perm calls ∧
      shown.Pairwise fun c c' ↦ c.rank user < c'.rank user := by
  have hpath := h.ok.list.path 0 (by decide)
  obtain ⟨shown, hshown, hkeys, hsub⟩ := h.iterateFrom_path hcalls hpath (List.Subset.refl _)
    (Nat.lt_succ_of_le h.ok.list.length_le)
  have hsorted : shown.Pairwise fun c c' ↦ c.rank user < c'.rank user := by
    have hranks : (levels 0).map m.table.list.rank = shown.map fun c ↦ (c.rank user : WithBot (InternalKey τ)) :=
      hkeys
    have hpairwise := pairwise_map.mpr (pairwise_cons.mp (h.ok.list.sorted 0)).2
    rw [hranks, pairwise_map] at hpairwise
    exact hpairwise.imp WithBot.coe_lt_coe.mp
  refine ⟨shown, ?_, ?_, hsorted⟩
  · rw [iterate, hpath.next_eq, Option.bind_some, hshown]
  · have hnodup : shown.Nodup := hsorted.imp fun hlt heq ↦ absurd (heq ▸ hlt) (lt_irrefl _)
    refine (perm_ext_iff_of_nodup hnodup hseq.of_map).mpr fun c ↦ ⟨fun hc ↦ hsub hc, fun hc ↦ ?_⟩
    obtain ⟨x, hx, hkey⟩ := h.exists_node hc
    have hmem : some (c.rank user) ∈ shown.map fun c ↦ some (c.rank user) := by
      rw [← hkeys, ← hkey]
      exact mem_map_of_mem hx
    obtain ⟨c', hc', heq⟩ := mem_map.mp hmem
    have hcc' := inj_on_of_nodup_map hseq (hsub hc') hc (Call.seq_of_rank_eq (Option.some.inj heq))
    rwa [← hcc']

/-- A memtable is a map with versions: calls of `Add` with different sequence numbers fail no assertion, a
lookup finds the newest entry of the user key at or below its sequence number, and an iterator shows every
internal key with its value once, in order. -/
theorem versions_of_adds (user : Comparator τ) {calls : List Call} (hcalls : ∀ c ∈ calls, c.Ok)
    (hseq : (calls.map Call.seq).Nodup) :
    ∃ m, addAll user empty calls = some m ∧
      (∀ userKey s, userKey.length < 2 ^ 32 - 8 → s ≤ kMaxSequenceNumber → ∃ found : Option Call,
          Newest.Finds (fun c : Call ↦ user.rank c.key) Call.seq {c | c ∈ calls} (user.rank userKey) s found ∧
          get user m userKey s = some (found.elim .absent Call.result)) ∧
      ∃ shown, iterate m = some shown ∧ shown.Perm (calls.map fun c ↦ (c.internalKey, c.value)) ∧
        shown.Pairwise fun p q ↦ compareEncoded user p.1 q.1 = .lt := by
  obtain ⟨m, levels, hm, h⟩ := (@holds_empty τ _ user).addAll_spec hcalls hseq
  rw [nil_append] at h
  refine ⟨m, hm, fun userKey s hkey hs ↦ h.get_spec hcalls hkey hs, ?_⟩
  obtain ⟨shown, hshown, hperm, hsorted⟩ := h.iterate_spec hcalls hseq
  refine ⟨_, hshown, hperm.map _, ?_⟩
  rw [pairwise_map]
  refine hsorted.imp_of_mem fun {c c'} hc hc' hlt ↦ ?_
  rw [compareEncoded_eq_lt, (hcalls c (hperm.subset hc)).internalRank_internalKey,
    (hcalls c' (hperm.subset hc')).internalRank_internalKey]
  exact hlt

/-- A key that is written, deleted and written again, with another key between. -/
def fourCalls : List Call :=
  [⟨3, .kTypeDeletion, [107], [], 2⟩, ⟨1, .kTypeValue, [107], [1], 1⟩, ⟨7, .kTypeValue, [107], [2], 3⟩,
    ⟨5, .kTypeValue, [106], [3], 1⟩]

theorem versions_of_four_adds : ∃ m, addAll bytewise empty fourCalls = some m ∧
      ∃ found : Option Call, Newest.Finds (fun c : Call ↦ bytewise.rank c.key) Call.seq {c | c ∈ fourCalls}
        (bytewise.rank [107]) 4 found ∧ get bytewise m [107] 4 = some (found.elim .absent Call.result) := by
  have hcalls : ∀ c ∈ fourCalls, c.Ok := by
    intro c hc
    simp only [fourCalls, mem_cons, not_mem_nil, or_false] at hc
    rcases hc with rfl | rfl | rfl | rfl <;> constructor <;> decide
  obtain ⟨m, hm, hget, -⟩ := versions_of_adds bytewise hcalls (by decide)
  exact ⟨m, hm, hget [107] 4 (by decide) (by decide)⟩

end MemTable

end LevelDB.Db
