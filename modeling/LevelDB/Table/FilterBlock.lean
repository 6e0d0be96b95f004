import LevelDB.Library.Slices
import LevelDB.Util.Coding
import Mathlib.Data.List.GetD

/-!
# Filter blocks

`FilterBlockBuilder` and `FilterBlockReader` of `table/filter_block.cpp`.  The builder makes one filter
for every 2 KB of file offset, of the keys of the data blocks that start there; the reader finds the
filter of a data block by its offset.  A block that was built never excludes a key that was added.
-/

namespace LevelDB.Table.FilterBlock

open Library Slices Util.Coding List

abbrev Key := List UInt8

/-- `FilterPolicy`: `CreateFilter` returns what it appends to `*dst`. -/
structure FilterPolicy where
  createFilter : List Key → List UInt8
  keyMayMatch : Key → List UInt8 → Bool

/-- A filter matches every key that it was created from. -/
def FilterPolicy.NoFalseNegatives (policy : FilterPolicy) : Prop :=
  ∀ keys, ∀ key ∈ keys, policy.keyMayMatch key (policy.createFilter keys) = true

def kFilterBaseLg : ℕ := 11

def kFilterBase : ℕ := 2 ^ kFilterBaseLg

structure FilterBlockBuilder where
  /-- Flattened key contents -/
  keys : List UInt8 := []
  /-- Starting index in `keys` of each key -/
  start : List ℕ := []
  /-- Filter data computed so far -/
  result : List UInt8 := []
  filterOffsets : List ℕ := []

namespace FilterBlockBuilder

variable (policy : FilterPolicy)

def addKey (b : FilterBlockBuilder) (key : Key) : FilterBlockBuilder :=
  { b with start := b.start ++ [b.keys.length], keys := b.keys ++ key }

/-- `filter_offsets_` holds 32-bit numbers. -/
def generateFilter (b : FilterBlockBuilder) : FilterBlockBuilder :=
  if b.start = [] then { b with filterOffsets := b.filterOffsets ++ [b.result.length % 2 ^ 32] }
  else
    let start := b.start ++ [b.keys.length]
    let tmpKeys := (List.range b.start.length).map fun i ↦
      slice b.keys (start.getD i 0) (start.getD (i + 1) 0)
    { keys := []
      start := []
      result := b.result ++ policy.createFilter tmpKeys
      filterOffsets := b.filterOffsets ++ [b.result.length % 2 ^ 32] }

theorem length_generateFilter (b : FilterBlockBuilder) :
    (b.generateFilter policy).filterOffsets.length = b.filterOffsets.length + 1 := by
  unfold generateFilter
  split <;> simp

def generateUpTo (filterIndex : ℕ) (b : FilterBlockBuilder) : FilterBlockBuilder :=
  if b.filterOffsets.length < filterIndex then generateUpTo filterIndex (b.generateFilter policy) else b
termination_by filterIndex - b.filterOffsets.length
decreasing_by
  rw [length_generateFilter]
  omega

/-- `none` is a failed assertion. -/
def startBlock (b : FilterBlockBuilder) (blockOffset : ℕ) : Option FilterBlockBuilder :=
  let filterIndex := blockOffset / kFilterBase
  if b.filterOffsets.length ≤ filterIndex then some (b.generateUpTo policy filterIndex) else none

def generateLast (b : FilterBlockBuilder) : FilterBlockBuilder :=
  if b.start = [] then b else b.generateFilter policy

def finish (b : FilterBlockBuilder) : List UInt8 :=
  let b := b.generateLast policy
  b.result ++ ((b.filterOffsets.map encodeFixed32).flatten ++
    (encodeFixed32 (b.result.length % 2 ^ 32) ++ [UInt8.ofNat kFilterBaseLg]))

/-- The calls for one data block: `StartBlock` with its offset, and `AddKey` for each of its keys. -/
def addBlock (b : FilterBlockBuilder) (block : ℕ × List Key) : Option FilterBlockBuilder :=
  (b.startBlock policy block.1).map fun b ↦ block.2.foldl addKey b

def build (blocks : List (ℕ × List Key)) : Option FilterBlockBuilder := blocks.foldlM (addBlock policy) {}

end FilterBlockBuilder

structure FilterBlockReader where
  data : List UInt8 := []
  /-- `offset_ - data_` -/
  offset : ℕ := 0
  num : ℕ := 0
  baseLg : ℕ := 0

namespace FilterBlockReader

/-- The constructor. -/
def ofContents (contents : List UInt8) : FilterBlockReader :=
  let n := contents.length
  if n < 5 then {}
  else
    let baseLg := (contents.getD (n - 1) 0).toNat
    let lastWord := decodeFixed32 contents (n - 5)
    if n - 5 < lastWord then { baseLg }
    else { data := contents, offset := lastWord, num := (n - 5 - lastWord) / 4, baseLg }

def keyMayMatch (policy : FilterPolicy) (r : FilterBlockReader) (blockOffset : ℕ) (key : Key) : Bool :=
  let index := blockOffset / 2 ^ r.baseLg
  if index < r.num then
    let start := decodeFixed32 r.data (r.offset + index * 4)
    let limit := decodeFixed32 r.data (r.offset + index * 4 + 4)
    if start ≤ limit ∧ limit ≤ r.offset then policy.keyMayMatch key (slice r.data start limit)
    -- empty filters do not match any keys
    else if start = limit then false
    else true
  else true

end FilterBlockReader

section Builder

variable (policy : FilterPolicy)

def filterOf (keys : List Key) : List UInt8 := if keys = [] then [] else policy.createFilter keys

structure Holds (groups : List (List Key)) (pending : List Key) (b : FilterBlockBuilder) : Prop where
  keys : b.keys = pending.flatten
  start : b.start = (List.range pending.length).map (position pending)
  result : b.result = (groups.map (filterOf policy)).flatten
  offsets : b.filterOffsets =
    (List.range groups.length).map fun i ↦ position (groups.map (filterOf policy)) i % 2 ^ 32

variable {policy} {groups : List (List Key)} {pending : List Key} {b : FilterBlockBuilder}

section

variable (h : Holds policy groups pending b)
include h

theorem Holds.length_offsets : b.filterOffsets.length = groups.length := by
  rw [h.offsets, length_map, length_range]

theorem Holds.start_eq_nil : b.start = [] ↔ pending = [] := by
  rw [h.start, map_eq_nil_iff, range_eq_nil, length_eq_zero_iff]

theorem Holds.addKey (key : Key) : Holds policy groups (pending ++ [key]) (b.addKey key) := by
  refine ⟨?_, ?_, h.result, h.offsets⟩
  · change b.keys ++ key = _
    rw [h.keys, flatten_append, flatten_singleton]
  · change b.start ++ [b.keys.length] = _
    rw [h.start, h.keys, length_append, length_singleton, range_succ, map_append,
      map_singleton, position_append le_rfl, position_length]
    congr 1
    apply map_congr_left
    intro i hi
    rw [position_append (mem_range.mp hi).le]

omit h in
theorem Holds.addKeys (keys : List Key) (h : Holds policy groups pending b) :
    Holds policy groups (pending ++ keys) (keys.foldl FilterBlockBuilder.addKey b) := by
  induction keys generalizing pending b with
  | nil => simpa using h
  | cons key rest ih => simpa using ih (h.addKey key)

theorem Holds.tmpKeys :
    (List.range b.start.length).map (fun i ↦ slice b.keys ((b.start ++ [b.keys.length]).getD i 0)
      ((b.start ++ [b.keys.length]).getD (i + 1) 0)) = pending := by
  have hstart : b.start ++ [b.keys.length] = (List.range (pending.length + 1)).map (position pending) := by
    rw [h.start, h.keys, range_succ, map_append, map_singleton, position_length]
  have hget : ∀ i ≤ pending.length, (b.start ++ [b.keys.length]).getD i 0 = position pending i := by
    intro i hi
    rw [hstart, getD_eq_getElem _ _ (by simpa using Nat.lt_succ_of_le hi), getElem_map, getElem_range]
  have hlength : b.start.length = pending.length := by
    rw [h.start, length_map, length_range]
  rw [hlength]
  apply ext_getElem
  · simp
  · intro i hi hi'
    rw [getElem_map, getElem_range, hget i hi'.le, hget (i + 1) hi', h.keys, ← append_nil pending.flatten]
    exact slice_flatten hi' []

theorem Holds.generateFilter : Holds policy (groups ++ [pending]) [] (b.generateFilter policy) := by
  have hfilters : (groups ++ [pending]).map (filterOf policy) =
      groups.map (filterOf policy) ++ [filterOf policy pending] := by
    rw [map_append, map_singleton]
  have hoffsets : b.filterOffsets ++ [b.result.length % 2 ^ 32] =
      (List.range (groups ++ [pending]).length).map fun i ↦
        position ((groups ++ [pending]).map (filterOf policy)) i % 2 ^ 32 := by
    have hlast : position (groups.map (filterOf policy)) groups.length =
        (groups.map (filterOf policy)).flatten.length := by
      simpa using position_length (groups.map (filterOf policy))
    rw [hfilters, h.offsets, h.result, length_append, length_singleton, range_succ,
      map_append, map_singleton, position_append (by simp), hlast]
    congr 1
    apply map_congr_left
    intro i hi
    rw [position_append (by simpa using (mem_range.mp hi).le)]
  unfold FilterBlockBuilder.generateFilter
  split
  · rename_i hnil
    have hpending := h.start_eq_nil.mp hnil
    refine ⟨?_, ?_, ?_, hoffsets⟩
    · rw [h.keys, hpending]
    · rw [hnil]
      rfl
    · change b.result = _
      rw [h.result, hfilters, flatten_append, filterOf, if_pos hpending]
      simp
  · rename_i hne
    have hpending : pending ≠ [] := fun hnil ↦ hne (h.start_eq_nil.mpr hnil)
    refine ⟨rfl, rfl, ?_, hoffsets⟩
    change b.result ++ policy.createFilter _ = _
    rw [h.tmpKeys, h.result, hfilters, flatten_append, flatten_singleton, filterOf, if_neg hpending]

/-- The loop makes a filter of the pending keys, and then empty ones. -/
theorem Holds.generateUpTo {filterIndex : ℕ} (hle : groups.length ≤ filterIndex) :
    ∃ groups' pending', Holds policy groups' pending' (b.generateUpTo policy filterIndex) ∧
      groups'.length = filterIndex ∧ groups ++ [pending] <+: groups' ++ [pending'] := by
  induction hn : filterIndex - groups.length generalizing groups pending b with
  | zero =>
    refine ⟨groups, pending, ?_, by omega, prefix_rfl⟩
    rw [FilterBlockBuilder.generateUpTo, if_neg (by rw [h.length_offsets]; omega)]
    exact h
  | succ n ih =>
    have hnext := h.generateFilter
    obtain ⟨groups', pending', hholds, hlength, hprefix⟩ := ih hnext (by simp; omega) (by simp; omega)
    refine ⟨groups', pending', ?_, hlength, ?_⟩
    · rw [FilterBlockBuilder.generateUpTo, if_pos (by rw [h.length_offsets]; omega)]
      exact hholds
    · exact (prefix_append _ _).trans hprefix

structure Grouped (done : List (ℕ × List Key)) (groups : List (List Key)) (pending : List Key) : Prop where
  mem : ∀ block ∈ done, ∀ key ∈ block.2,
    ∃ keys, (groups ++ [pending])[block.1 / kFilterBase]? = some keys ∧ key ∈ keys
  /-- `StartBlock` of a later block finds no more filters than its offset asks for. -/
  length_le : ∀ offset, (∀ block ∈ done, block.1 ≤ offset) → groups.length ≤ offset / kFilterBase

theorem addBlock_grouped {done : List (ℕ × List Key)} (hgrouped : Grouped done groups pending)
    {block : ℕ × List Key} (hle : ∀ p ∈ done, p.1 ≤ block.1) :
    ∃ b' groups' pending', b.addBlock policy block = some b' ∧ Holds policy groups' pending' b' ∧
      Grouped (done ++ [block]) groups' pending' := by
  have hlength := hgrouped.length_le block.1 hle
  obtain ⟨groups', pending', hholds, hindex, hprefix⟩ := h.generateUpTo hlength
  refine ⟨_, groups', pending' ++ block.2, ?_, hholds.addKeys block.2, ?_, ?_⟩
  · unfold FilterBlockBuilder.addBlock FilterBlockBuilder.startBlock
    simp only [if_pos (h.length_offsets ▸ hlength), Option.map_some]
  · intro p hp key hkey
    rcases mem_append.mp hp with hp | hp
    · obtain ⟨keys, hget, hmem⟩ := hgrouped.mem p hp key hkey
      obtain ⟨hlt, -⟩ := List.getElem?_eq_some_iff.mp hget
      have hlater : (groups' ++ [pending'])[p.1 / kFilterBase]? = some keys := by
        obtain ⟨more, hmore⟩ := hprefix
        rw [← hmore, getElem?_append_left hlt, hget]
      rcases Nat.lt_or_ge (p.1 / kFilterBase) groups'.length with hlt | hge
      · refine ⟨keys, ?_, hmem⟩
        rw [getElem?_append_left hlt] at hlater ⊢
        exact hlater
      · obtain ⟨hlt, -⟩ := List.getElem?_eq_some_iff.mp hlater
        have heq : p.1 / kFilterBase = groups'.length := by
          simp only [length_append, length_singleton] at hlt
          omega
        rw [heq, getElem?_concat_length, Option.some.injEq] at hlater
        refine ⟨pending' ++ block.2, ?_, mem_append_left _ (hlater ▸ hmem)⟩
        rw [heq, getElem?_concat_length]
    · rw [mem_singleton.mp hp] at hkey ⊢
      refine ⟨pending' ++ block.2, ?_, mem_append_right _ hkey⟩
      rw [← hindex, getElem?_concat_length]
  · intro offset hoffset
    rw [hindex]
    exact Nat.div_le_div_right (hoffset block (by simp))

omit h in
/-- The calls run into no assertion, and the builder then holds every key in its group. -/
theorem build_grouped (policy : FilterPolicy) {blocks : List (ℕ × List Key)}
    (hsorted : blocks.Pairwise fun a b ↦ a.1 ≤ b.1) :
    ∃ b groups pending, FilterBlockBuilder.build policy blocks = some b ∧ Holds policy groups pending b ∧
      Grouped blocks groups pending := by
  induction blocks using List.reverseRecOn with
  | nil => exact ⟨{}, [], [], rfl, ⟨rfl, rfl, rfl, rfl⟩, by simp, by simp⟩
  | append_singleton blocks block ih =>
    obtain ⟨hbefore, -, hle⟩ := pairwise_append.mp hsorted
    obtain ⟨b, groups, pending, hbuild, hholds, hgrouped⟩ := ih hbefore
    obtain ⟨b', groups', pending', hadd, hholds', hgrouped'⟩ :=
      addBlock_grouped hholds hgrouped fun p hp ↦ hle p hp block (by simp)
    refine ⟨b', groups', pending', ?_, hholds', hgrouped'⟩
    unfold FilterBlockBuilder.build at hbuild ⊢
    rw [foldlM_append, hbuild]
    simpa using hadd

theorem Holds.generateLast :
    ∃ final, Holds policy final [] (b.generateLast policy) ∧
      ∀ (i : ℕ) (keys : List Key), ∀ key ∈ keys, (groups ++ [pending])[i]? = some keys →
        final[i]? = some keys := by
  unfold FilterBlockBuilder.generateLast
  split
  · rename_i hnil
    have hpending := h.start_eq_nil.mp hnil
    subst hpending
    refine ⟨groups, h, ?_⟩
    intro i keys key hmem hget
    rcases Nat.lt_or_ge i groups.length with hlt | hge
    · rwa [getElem?_append_left hlt] at hget
    · -- the pending group is empty
      rw [getElem?_append_right hge] at hget
      have hkeys := mem_of_getElem? hget
      rw [mem_singleton.mp hkeys] at hmem
      cases hmem
  · exact ⟨groups ++ [pending], h.generateFilter, fun _ _ _ _ hget ↦ hget⟩

end

/-- The filters, the words that say where each of them starts and where the last one ends, and the
encoding parameter. -/
def blockContents (filters : List (List UInt8)) : List UInt8 :=
  filters.flatten ++ ((((List.range (filters.length + 1)).map (position filters)).map encodeFixed32).flatten ++
    [UInt8.ofNat kFilterBaseLg])

theorem Holds.finish_eq (h : Holds policy groups [] (b.generateLast policy))
    (hsize : (b.generateLast policy).result.length < 2 ^ 32) :
    b.finish policy = blockContents (groups.map (filterOf policy)) := by
  set filters := groups.map (filterOf policy) with hfilters
  have hlength : groups.length = filters.length := by rw [hfilters, length_map]
  have hoffsets : (b.generateLast policy).filterOffsets =
      (List.range filters.length).map (position filters) := by
    rw [h.offsets, hlength]
    apply map_congr_left
    intro i _
    apply Nat.mod_eq_of_lt
    exact (position_le_length _ i).trans_lt (h.result ▸ hsize)
  unfold FilterBlockBuilder.finish blockContents
  dsimp only
  rw [Nat.mod_eq_of_lt hsize, hoffsets, h.result, range_succ, map_append, map_append,
    flatten_append, map_singleton, map_singleton, flatten_singleton, position_length,
    append_assoc]

section Contents

variable {filters : List (List UInt8)}

theorem decodeFixed32_blockContents (hsize : filters.flatten.length < 2 ^ 32) {i : ℕ}
    (hi : i ≤ filters.length) :
    decodeFixed32 (blockContents filters) (filters.flatten.length + i * 4) = position filters i := by
  have hlt : i < ((List.range (filters.length + 1)).map (position filters)).length := by
    simpa using Nat.lt_succ_of_le hi
  have hword : ((List.range (filters.length + 1)).map (position filters))[i] = position filters i := by
    rw [getElem_map, getElem_range]
  have hbound := (position_le_length filters i).trans_lt hsize
  unfold blockContents
  rw [← flatMap_def, decodeFixed32_flatMap hlt (hword ▸ hbound), hword]

theorem length_blockContents : (blockContents filters).length =
    filters.flatten.length + filters.length * 4 + 5 := by
  have hwidth : ∀ part ∈ ((List.range (filters.length + 1)).map (position filters)).map encodeFixed32,
      part.length = 4 := by
    intro part hpart
    obtain ⟨word, -, rfl⟩ := mem_map.mp hpart
    exact length_encodeFixed 4 word
  have hwords := position_of_width hwidth le_rfl
  rw [position_length, length_map, length_map, length_range] at hwords
  unfold blockContents
  rw [length_append, length_append, hwords, length_singleton]
  omega

theorem ofContents_blockContents (hsize : filters.flatten.length < 2 ^ 32) :
    FilterBlockReader.ofContents (blockContents filters) =
      ⟨blockContents filters, filters.flatten.length, filters.length, kFilterBaseLg⟩ := by
  have hlength : (blockContents filters).length = filters.flatten.length + filters.length * 4 + 5 :=
    length_blockContents
  have hbase : ((blockContents filters).getD ((blockContents filters).length - 1) 0).toNat =
      kFilterBaseLg := by
    unfold blockContents
    rw [← append_assoc, length_append, length_singleton, Nat.add_sub_cancel,
      getD_append_right _ _ _ _ le_rfl, Nat.sub_self]
    rfl
  have hlast : decodeFixed32 (blockContents filters) ((blockContents filters).length - 5) =
      filters.flatten.length := by
    rw [hlength, Nat.add_sub_cancel, decodeFixed32_blockContents hsize le_rfl, position_length]
  unfold FilterBlockReader.ofContents
  dsimp only
  rw [hbase, hlast, hlength, if_neg (by omega), if_neg (by omega)]
  congr 1
  omega

theorem keyMayMatch_blockContents (hsize : filters.flatten.length < 2 ^ 32) {blockOffset : ℕ}
    (hindex : blockOffset / kFilterBase < filters.length) (key : Key) :
    (FilterBlockReader.ofContents (blockContents filters)).keyMayMatch policy blockOffset key =
      policy.keyMayMatch key filters[blockOffset / kFilterBase] := by
  have hstart := decodeFixed32_blockContents hsize hindex.le
  have hlimit := decodeFixed32_blockContents hsize hindex
  rw [Nat.succ_mul, ← Nat.add_assoc] at hlimit
  have hle : position filters (blockOffset / kFilterBase) ≤
      position filters (blockOffset / kFilterBase + 1) := by
    rw [position_succ hindex]
    exact Nat.le_add_right _ _
  rw [ofContents_blockContents hsize]
  unfold FilterBlockReader.keyMayMatch
  dsimp only
  rw [show 2 ^ kFilterBaseLg = kFilterBase from rfl, if_pos hindex, hstart, hlimit,
    if_pos ⟨hle, position_le_length _ _⟩, blockContents, slice_flatten hindex]

end Contents

/-- A finished block never excludes a key of the data block that it is asked about. -/
theorem keyMayMatch_of_build {policy : FilterPolicy} (hpolicy : policy.NoFalseNegatives)
    {blocks : List (ℕ × List Key)} (hsorted : blocks.Pairwise fun a b ↦ a.1 ≤ b.1) :
    ∃ b, FilterBlockBuilder.build policy blocks = some b ∧
      ((b.generateLast policy).result.length < 2 ^ 32 → ∀ block ∈ blocks, ∀ key ∈ block.2,
        (FilterBlockReader.ofContents (b.finish policy)).keyMayMatch policy block.1 key = true) := by
  obtain ⟨b, groups, pending, hbuild, hholds, hgrouped⟩ := build_grouped policy hsorted
  refine ⟨b, hbuild, fun hsize block hblock key hkey ↦ ?_⟩
  obtain ⟨final, hfinal, hfinds⟩ := hholds.generateLast
  obtain ⟨keys, hget, hmem⟩ := hgrouped.mem block hblock key hkey
  obtain ⟨hindex, hgroup⟩ := List.getElem?_eq_some_iff.mp (hfinds _ keys key hmem hget)
  rw [hfinal.finish_eq hsize, keyMayMatch_blockContents (hfinal.result ▸ hsize) (by simpa using hindex),
    getElem_map, hgroup, filterOf, if_neg (ne_nil_of_mem hmem)]
  exact hpolicy keys key hmem

end Builder

end LevelDB.Table.FilterBlock
