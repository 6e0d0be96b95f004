import LevelDB.Db.EncodedKeys
import LevelDB.Table.BlockCursor
import LevelDB.Table.TableIndex

/-!
# Lookups in a table

`Table::InternalGet` of `table/table.cpp`.  It looks in the one block that the index points to.  An index key
that is not the last key of its block is before every version of the user keys of the next block, so that the
newest visible version of a user key is in that block or not in the table.
-/

namespace LevelDB.Table.TableGet

open Library Util Util.Coding Db.Format Db.EncodedKeys Block Format FilterBlock BlockCursor List

abbrev Entry := BlockBuilder.Entry

/-- An iterator over entries that are sought by their keys, with its status. -/
structure EntryIterator where
  iter : AnyIterator Entry (List UInt8)
  status : iter.State → Status

/-- The members of `Table::Rep` that `InternalGet` uses; `BlockReader` is a parameter. -/
structure Rep where
  indexBlock : EntryIterator
  filter : Option FilterBlockReader
  filterPolicy : FilterPolicy
  blockReader : List UInt8 → EntryIterator

def Rep.excludes (table : Rep) (handleValue k : List UInt8) : Bool :=
  match table.filter, BlockHandle.decodeFrom handleValue with
  | some filter, .ok (handle, _) => !filter.keyMayMatch table.filterPolicy handle.offset k
  | _, _ => false

/-- The status that is returned, and what is passed to the saver. -/
def Rep.internalGet (table : Rep) (k : List UInt8) : Status × Option Entry :=
  let iiter := table.indexBlock.iter.ops.seek k table.indexBlock.iter.start
  match table.indexBlock.iter.ops.get iiter with
  | none => (table.indexBlock.status iiter, none)
  | some (_, handleValue) =>
    if table.excludes handleValue k then (table.indexBlock.status iiter, none)
    else
      let block := table.blockReader handleValue
      let blockIter := block.iter.ops.seek k block.iter.start
      let s := block.status blockIter
      (if s = .ok then table.indexBlock.status iiter else s, block.iter.ops.get blockIter)

section Layout

variable {τ : Type*} [LinearOrder τ]

def EntryIterator.Faithful (rank : List UInt8 → τ) (it : EntryIterator) (entries : List Entry) : Prop :=
  ∃ R, Iterator.Simulates it.iter.ops (cursor rank entries) R ∧ R it.iter.start none

structure IndexedBlock where
  index : Entry
  entries : List Entry

/-- The user key of an entry, up to what the comparator does not tell apart. -/
def userRank (user : Comparator τ) (e : Entry) : τ := user.rank (extractUserKey e.1)

def sequence (e : Entry) : ℕ := extractTag e.1 / 256

def contents (blocks : List IndexedBlock) : List Entry := blocks.flatMap IndexedBlock.entries

/-- The blocks of a table: sorted internal entries, and index keys that separate the blocks and are the last keys
or have been shortened. -/
structure WellFormed (user : Comparator τ) (blocks : List IndexedBlock) : Prop where
  nonempty : ∀ b ∈ blocks, b.entries ≠ []
  internal : ∀ e ∈ contents blocks, (parseEncodedKey e.1).isSome
  sorted : (contents blocks).Pairwise fun e e' ↦ internalRank user e.1 < internalRank user e'.1
  last_le : ∀ b ∈ blocks, ∀ last ∈ b.entries.getLast?, internalRank user last.1 ≤ internalRank user b.index.1
  separator : blocks.IsChain fun b next ↦ ∀ last ∈ b.entries.getLast?, ∀ first ∈ next.entries.head?,
    internalRank user b.index.1 < internalRank user first.1 ∧
      (b.index.1 = last.1 ∨ findShortestSeparator user last.1 first.1 = some b.index.1)
  successor : ∀ b ∈ blocks.getLast?, ∀ last ∈ b.entries.getLast?,
    b.index.1 = last.1 ∨ findShortSuccessor user last.1 = some b.index.1

/-- A filter does not exclude a user key of the block. -/
def FilterMatches (user : Comparator τ) (blocks : List IndexedBlock) (table : Rep) : Prop :=
  ∀ b ∈ blocks, ∀ e ∈ b.entries, ∀ key, user.rank (extractUserKey key) = userRank user e →
    table.excludes b.index.2 key = false

structure Serves (user : Comparator τ) (table : Rep) (blocks : List IndexedBlock) : Prop where
  index : table.indexBlock.Faithful (internalRank user) (blocks.map IndexedBlock.index)
  block : ∀ b ∈ blocks, (table.blockReader b.index.2).Faithful (internalRank user) b.entries

variable {user : Comparator τ} {blocks : List IndexedBlock} {table : Rep}

theorem EntryIterator.Faithful.get_seek {rank : List UInt8 → τ} {it : EntryIterator} {entries : List Entry}
    (h : it.Faithful rank entries) (k : List UInt8) :
    it.iter.ops.get (it.iter.ops.seek k it.iter.start) = entries.find? fun e ↦ rank k ≤ rank e.1 := by
  obtain ⟨R, hsim, hstart⟩ := h
  rw [hsim.get (hsim.seek k hstart)]
  exact Iterator.get_seek (rank k) none

section Sorted

variable {entries : List Entry} {e : Entry}
  (hsorted : entries.Pairwise fun e e' ↦ internalRank user e.1 < internalRank user e'.1)

include hsorted

theorem le_getLast {last : Entry} (hlast : entries.getLast? = some last) (he : e ∈ entries) :
    internalRank user e.1 ≤ internalRank user last.1 := by
  obtain ⟨init, rfl⟩ := getLast?_eq_some_iff.mp hlast
  rcases mem_append.mp he with he | he
  · exact ((pairwise_append.mp hsorted).2.2 e he last mem_cons_self).le
  · rw [mem_singleton.mp he]

theorem head_le {first : Entry} (hfirst : entries.head? = some first) (he : e ∈ entries) :
    internalRank user first.1 ≤ internalRank user e.1 := by
  obtain ⟨rest, rfl⟩ := head?_eq_some_iff.mp hfirst
  rcases mem_cons.mp he with rfl | he
  · exact le_rfl
  · exact ((pairwise_cons.mp hsorted).1 e he).le

end Sorted

theorem mem_contents {e : Entry} : e ∈ contents blocks ↔ ∃ b ∈ blocks, e ∈ b.entries := mem_flatMap

theorem WellFormed.exists_getLast (h : WellFormed user blocks) {b : IndexedBlock} (hb : b ∈ blocks) :
    ∃ last, b.entries.getLast? = some last :=
  ⟨_, getLast?_eq_some_getLast (h.nonempty b hb)⟩

theorem WellFormed.le_index (h : WellFormed user blocks) {b : IndexedBlock} (hb : b ∈ blocks) {e : Entry}
    (he : e ∈ b.entries) : internalRank user e.1 ≤ internalRank user b.index.1 := by
  obtain ⟨last, hlast⟩ := h.exists_getLast hb
  have hsorted := (pairwise_flatMap.mp h.sorted).1 b hb
  exact (le_getLast hsorted hlast he).trans (h.last_le b hb last hlast)

/-- If the index key of a block is past its last key, then it is before the user keys of all later blocks. -/
theorem WellFormed.index_lt_later {before after : List IndexedBlock} {b : IndexedBlock}
    (h : WellFormed user (before ++ b :: after)) {last e : Entry} (hlast : b.entries.getLast? = some last)
    (hpast : internalRank user last.1 < internalRank user b.index.1) (he : e ∈ contents after) :
    user.rank (extractUserKey b.index.1) < userRank user e := by
  cases after with
  | nil => cases he
  | cons next rest =>
    have hnext : next ∈ before ++ b :: next :: rest := by simp
    obtain ⟨first, hfirst⟩ : ∃ first, next.entries.head? = some first :=
      ⟨_, head?_eq_some_head (h.nonempty next hnext)⟩
    have hchain : (b :: next :: rest).IsChain _ := (isChain_append.mp h.separator).2.1
    obtain ⟨-, hindex⟩ := (isChain_cons_cons.mp hchain).1 last hlast first hfirst
    have hshort : findShortestSeparator user last.1 first.1 = some b.index.1 :=
      hindex.resolve_left fun heq ↦ absurd (heq ▸ hpast) (lt_irrefl _)
    have hfirstUser : user.rank (extractUserKey b.index.1) < user.rank (extractUserKey first.1) :=
      (findShortestSeparator_spec hshort).resolve_left fun heq ↦ absurd (heq ▸ hpast) (lt_irrefl _)
    -- the first key of the next block is the least key of all later blocks
    have hhead : (contents (next :: rest)).head? = some first := by
      rw [contents, flatMap_cons, head?_append, hfirst, Option.some_or]
    have hsorted : (contents (next :: rest)).Pairwise fun e e' ↦
        internalRank user e.1 < internalRank user e'.1 := by
      refine h.sorted.sublist ?_
      rw [contents, contents, flatMap_append, flatMap_cons (x := b)]
      exact (sublist_append_right _ _).trans (sublist_append_right _ _)
    exact hfirstUser.trans_le (InternalKey.userKey_le_of_le (head_le hsorted hhead he))

section

variable {before after : List IndexedBlock} {b : IndexedBlock} {k : List UInt8} {e : Entry}
  (h : WellFormed user (before ++ b :: after))
  (hbefore : ∀ p ∈ before, internalRank user p.index.1 < internalRank user k)
  (hb : internalRank user k ≤ internalRank user b.index.1) (he : e ∈ contents (before ++ b :: after))
  (huser : userRank user e = user.rank (extractUserKey k)) (hke : internalRank user k ≤ internalRank user e.1)
include h hbefore hb he huser hke

/-- The block that the index points to for a key has a key in between it and any later version of its
user key. -/
theorem WellFormed.exists_in_block :
    ∃ x ∈ b.entries, internalRank user k ≤ internalRank user x.1 ∧
      internalRank user x.1 ≤ internalRank user e.1 := by
  have hbmem : b ∈ before ++ b :: after := by simp
  obtain ⟨last, hlast⟩ := h.exists_getLast hbmem
  obtain ⟨c, hc, hec⟩ := mem_contents.mp he
  rcases mem_append.mp hc with hc' | hc'
  · exact absurd hke (not_le.mpr ((h.le_index hc hec).trans_lt (hbefore c hc')))
  rcases mem_cons.mp hc' with rfl | hafter
  · exact ⟨e, hec, hke, le_rfl⟩
  have heafter : e ∈ contents after := mem_contents.mpr ⟨c, hafter, hec⟩
  rcases le_or_gt (internalRank user k) (internalRank user last.1) with hklast | hlastk
  · -- the last key of the block is between two versions of the user key
    have hlastmem := mem_of_getLast? hlast
    have hsplit := h.sorted
    rw [contents, flatMap_append, flatMap_cons] at hsplit
    have hright := (pairwise_append.mp (pairwise_append.mp hsplit).2.1).2.2
    exact ⟨last, hlastmem, hklast, (hright last hlastmem e heafter).le⟩
  · have hlater := h.index_lt_later hlast (hlastk.trans_le hb) heafter
    have hindex : user.rank (extractUserKey k) ≤ user.rank (extractUserKey b.index.1) :=
      InternalKey.userKey_le_of_le hb
    exact absurd (huser ▸ hlater) (not_lt.mpr hindex)

theorem WellFormed.find?_eq_newest :
    ∃ y, (b.entries.find? fun e ↦ internalRank user k ≤ internalRank user e.1) = some y ∧
      userRank user y = user.rank (extractUserKey k) ∧
      ∀ e ∈ contents (before ++ b :: after), userRank user e = user.rank (extractUserKey k) →
        internalRank user k ≤ internalRank user e.1 → internalRank user y.1 ≤ internalRank user e.1 := by
  have hsorted := (pairwise_flatMap.mp h.sorted).1 b (by simp)
  obtain ⟨x, hx, hkx, -⟩ := h.exists_in_block hbefore hb he huser hke
  have hisSome : (b.entries.find? fun e ↦ decide (internalRank user k ≤ internalRank user e.1)).isSome :=
    find?_isSome.mpr ⟨x, hx, decide_eq_true hkx⟩
  obtain ⟨y, hy⟩ := Option.isSome_iff_exists.mp hisSome
  obtain ⟨-, hky, hleast⟩ := (Iterator.find?_eq_some_iff_least hsorted).mp hy
  have hyle : ∀ e ∈ contents (before ++ b :: after), userRank user e = user.rank (extractUserKey k) →
      internalRank user k ≤ internalRank user e.1 → internalRank user y.1 ≤ internalRank user e.1 := by
    intro e he huser hke
    obtain ⟨x, hx, hkx, hxe⟩ := h.exists_in_block hbefore hb he huser hke
    exact (hleast x hx (decide_eq_true hkx)).trans hxe
  refine ⟨y, hy, le_antisymm ?_ (InternalKey.userKey_le_of_le (of_decide_eq_true hky)), hyle⟩
  exact (InternalKey.userKey_le_of_le (hyle e he huser hke)).trans huser.le

end

theorem Serves.internalGet_cases (h : Serves user table blocks) (k : List UInt8) :
    ((table.internalGet k).2 = none ∧ ∀ b ∈ blocks, internalRank user b.index.1 < internalRank user k) ∨
      ∃ before b after, blocks = before ++ b :: after ∧
        (∀ p ∈ before, internalRank user p.index.1 < internalRank user k) ∧
        internalRank user k ≤ internalRank user b.index.1 ∧
        (table.internalGet k).2 = if table.excludes b.index.2 k then none
          else b.entries.find? fun e ↦ internalRank user k ≤ internalRank user e.1 := by
  have hindex := h.index.get_seek k
  rw [find?_map] at hindex
  cases hfind : blocks.find? ((fun e : Entry ↦ decide (internalRank user k ≤ internalRank user e.1)) ∘
      IndexedBlock.index) with
  | none =>
    left
    rw [hfind, Option.map_none] at hindex
    refine ⟨by simp only [Rep.internalGet, hindex], fun b hb ↦ ?_⟩
    simpa using find?_eq_none.mp hfind b hb
  | some b =>
    right
    rw [hfind, Option.map_some] at hindex
    obtain ⟨hb, before, after, rfl, hbefore⟩ := find?_eq_some_iff_append.mp hfind
    have hblock := (h.block b (by simp)).get_seek k
    refine ⟨before, b, after, rfl, fun p hp ↦ by simpa using hbefore p hp, by simpa using hb, ?_⟩
    simp only [Rep.internalGet, hindex]
    split
    · rfl
    · exact hblock

theorem internalRank_encodedLookupKey {s : ℕ} (hs : s ≤ kMaxSequenceNumber) (u : List UInt8) :
    internalRank user (encodedLookupKey u s) = ⟨user.rank u, snapshotTag s⟩ := by
  rw [internalRank, encodedLookupKey, extractUserKey_append,
    extractTag_append (packSequenceAndType_lt hs kValueTypeForSeek)]
  rfl

theorem encodedLookupKey_le_iff {s : ℕ} (hs : s ≤ kMaxSequenceNumber) {u : List UInt8} {e : Entry}
    (hparse : (parseEncodedKey e.1).isSome) (huser : userRank user e = user.rank u) :
    internalRank user (encodedLookupKey u s) ≤ internalRank user e.1 ↔ sequence e ≤ s := by
  obtain ⟨parsed, hparsed⟩ := Option.isSome_iff_exists.mp hparse
  rw [parseEncodedKey] at hparsed
  split at hparsed
  · cases hparsed
  · have htag := congrArg InternalKey.tag (parseInternalKey_eq_some.mp hparsed)
    have hcode := parsed.type.code_le_one
    simp only [InternalKey.mk', packSequenceAndType] at htag
    have hrank : (internalRank user e.1).userKey = user.rank u := huser
    simp only [internalRank_encodedLookupKey hs, InternalKey.le_iff, hrank, lt_self_iff_false, false_or, true_and,
      snapshotTag, packSequenceAndType, kValueTypeForSeek, ValueType.code_kTypeValue, sequence]
    change extractTag e.1 ≤ _ ↔ _
    omega

/-- The saver gets the newest visible version of the user key if the table has one, and otherwise nothing or an
entry of another user key. -/
theorem internal_get_finds_newest (hwf : WellFormed user blocks) (hserves : Serves user table blocks)
    (hfilter : FilterMatches user blocks table) {s : ℕ} (hs : s ≤ kMaxSequenceNumber) (u : List UInt8) :
    ((∃ e ∈ contents blocks, userRank user e = user.rank u ∧ sequence e ≤ s) →
      ∃ e, (table.internalGet (encodedLookupKey u s)).2 = some e ∧
        Newest.IsNewest (userRank user) sequence {e | e ∈ contents blocks} (user.rank u) s e) ∧
    ((∀ e ∈ contents blocks, userRank user e = user.rank u → s < sequence e) →
      ∀ e, (table.internalGet (encodedLookupKey u s)).2 = some e → userRank user e ≠ user.rank u) := by
  have hvisible : ∀ {e}, e ∈ contents blocks → userRank user e = user.rank u →
      (internalRank user (encodedLookupKey u s) ≤ internalRank user e.1 ↔ sequence e ≤ s) :=
    fun he huser ↦ encodedLookupKey_le_iff hs (hwf.internal _ he) huser
  have hu : user.rank (extractUserKey (encodedLookupKey u s)) = user.rank u := by
    rw [encodedLookupKey, extractUserKey_append]
  rcases hserves.internalGet_cases (encodedLookupKey u s) with
    ⟨hnone, hbefore⟩ | ⟨before, b, after, rfl, hbefore, hb, hget⟩
  · -- the lookup key is past all index keys
    refine ⟨?_, fun _ e he ↦ by rw [hnone] at he; cases he⟩
    rintro ⟨e, he, huser, hseq⟩
    obtain ⟨c, hc, hec⟩ := mem_contents.mp he
    have hlt := (hwf.le_index hc hec).trans_lt (hbefore c hc)
    exact absurd ((hvisible he huser).mpr hseq) (not_le.mpr hlt)
  have hbmem : b ∈ before ++ b :: after := by simp
  have hcontents : ∀ {x}, x ∈ b.entries → x ∈ contents (before ++ b :: after) :=
    fun hx ↦ mem_contents.mpr ⟨b, hbmem, hx⟩
  constructor
  · rintro ⟨e, he, huser, hseq⟩
    have hke := (hvisible he huser).mpr hseq
    obtain ⟨y, hy, hyuser, hyle⟩ := hwf.find?_eq_newest hbefore hb he (huser.trans hu.symm) hke
    have hymem := mem_of_find?_eq_some hy
    have hky : internalRank user (encodedLookupKey u s) ≤ internalRank user y.1 := by
      simpa using find?_some hy
    -- the block has a version of the user key, so that the filter does not exclude it
    rw [hfilter b hbmem y hymem _ hyuser.symm, if_neg Bool.false_ne_true] at hget
    rw [hu] at hyuser hyle
    refine ⟨y, hget.trans hy, hcontents hymem, hyuser, (hvisible (hcontents hymem) hyuser).mp hky, ?_⟩
    intro e' he' huser' hseq'
    have htag : extractTag e'.1 ≤ extractTag y.1 := by
      rcases hyle e' he' huser' ((hvisible he' huser').mpr hseq') with hlt | ⟨-, htag⟩
      · exact absurd hlt (not_lt.mpr (huser'.trans hyuser.symm).le)
      · exact htag
    exact Nat.div_le_div_right htag
  · intro hnone e hpassed huser
    rw [hget] at hpassed
    split at hpassed
    · cases hpassed
    · have hemem := hcontents (mem_of_find?_eq_some hpassed)
      have hke : internalRank user (encodedLookupKey u s) ≤ internalRank user e.1 := by
        simpa using find?_some hpassed
      exact absurd ((hvisible hemem huser).mp hke) (not_le.mpr (hnone e hemem huser))

end Layout

section Memory

variable {τ : Type*} [LinearOrder τ]

/-- The cursor over entries, as an iterator that never fails. -/
def memoryIterator (rank : List UInt8 → τ) (entries : List Entry) : EntryIterator :=
  ⟨⟨Option ℕ, cursor rank entries, none⟩, fun _ ↦ .ok⟩

theorem faithful_memoryIterator (rank : List UInt8 → τ) (entries : List Entry) :
    (memoryIterator rank entries).Faithful rank entries :=
  ⟨Eq, .refl (cursor rank entries), rfl⟩

/-- A table without filter whose blocks are found by their handles. -/
def memoryTable (user : Comparator τ) (blocks : List IndexedBlock) : Rep where
  indexBlock := memoryIterator (internalRank user) (blocks.map IndexedBlock.index)
  filter := none
  filterPolicy := ⟨fun _ ↦ [], fun _ _ ↦ true⟩
  blockReader value := memoryIterator (internalRank user)
    (((blocks.find? fun b ↦ b.index.2 = value).map IndexedBlock.entries).getD [])

/-- Two versions of one user key in two blocks. -/
def straddling : List IndexedBlock :=
  [⟨(encodedLookupKey [1] 2, [0]), [(encodedLookupKey [1] 2, [7])]⟩,
    ⟨(encodedLookupKey [1] 1, [1]), [(encodedLookupKey [1] 1, [8])]⟩]

/-- The older version is found in the second block. -/
theorem internal_get_finds_newest_in_straddling :
    ∃ e, ((memoryTable TableIndex.lengthComparator straddling).internalGet (encodedLookupKey [1] 1)).2 = some e ∧
      Newest.IsNewest (userRank TableIndex.lengthComparator) sequence {e | e ∈ contents straddling} 1 1 e := by
  have hwf : WellFormed TableIndex.lengthComparator straddling := {
    nonempty := by simp [straddling]
    internal := by decide +kernel
    sorted := by decide +kernel
    last_le := by simp [straddling]
    separator := by
      refine isChain_pair.mpr ?_
      rintro last ⟨⟩ first ⟨⟩
      decide +kernel
    successor := by simp [straddling] }
  have hserves : Serves TableIndex.lengthComparator
      (memoryTable TableIndex.lengthComparator straddling) straddling := {
    index := faithful_memoryIterator _ _
    block := by
      intro b hb
      simp only [straddling, mem_cons, not_mem_nil, or_false] at hb
      rcases hb with rfl | rfl
      · exact faithful_memoryIterator _ _
      · exact faithful_memoryIterator _ _ }
  refine (internal_get_finds_newest hwf hserves (fun _ _ _ _ _ _ ↦ rfl) (by decide) [1]).1 ?_
  exact ⟨(encodedLookupKey [1] 1, [8]), by decide +kernel⟩

end Memory

end LevelDB.Table.TableGet
