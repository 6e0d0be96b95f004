import LevelDB.Db.EngineLookups
import LevelDB.Table.Merger
import LevelDB.Table.TwoLevelIterator

/-!
# The internal iterator of the database

`LevelFileNumIterator`, `NewConcatenatingIterator` and `AddIterators` of `db/version_set.cpp` and
`NewInternalIterator` of `db/db_impl.cpp`.  The iterators of memtables and of table files are taken to be
cursors over their entries.  On layered entries the internal iterator is then a cursor over all entries of
the database in internal-key order.
-/

namespace LevelDB.Db.Engine

open Format TableFiles CompactionPick Lookup Library Table List

variable {K V : Type*} [LinearOrder K]

def indexEntry (f : FileMetaData K) : InternalKey K × (ℕ × ℕ) := (f.largest, f.number, f.fileSize)

/-- The operations of `LevelFileNumIterator`.  The state is `index_`, which is not valid from the number of
files on. -/
def levelFileNumOps (files : List (FileMetaData K)) :
    Iterator ℕ (InternalKey K × (ℕ × ℕ)) (InternalKey K) where
  get index := files[index]?.map indexEntry
  seekToFirst _ := 0
  seekToLast _ := if files.isEmpty then 0 else files.length - 1
  seek target _ := findFile files target
  next index := index + 1
  prev index := if index = 0 then files.length else index - 1

def levelFileNumIterator (files : List (FileMetaData K)) :
    AnyIterator (InternalKey K × (ℕ × ℕ)) (InternalKey K) :=
  ⟨ℕ, levelFileNumOps files, files.length⟩

def indexPosition (files : List (FileMetaData K)) (index : ℕ) : Option ℕ :=
  if index < files.length then some index else none

theorem simulates_levelFileNumOps {files : List (FileMetaData K)} (hsorted : SortedLevel files) :
    Iterator.Simulates (levelFileNumOps files) (Iterator.ofList Prod.fst (files.map indexEntry))
      fun index position ↦ position = indexPosition files index where
  get {index position} h := by
    subst h
    unfold indexPosition
    split
    · simp [levelFileNumOps]
    · simp [levelFileNumOps, getElem?_eq_none (Nat.not_lt.mp ‹_›)]
  seekToFirst _ := by
    cases files <;> rfl
  seekToLast _ := by
    cases files with
    | nil => rfl
    | cons f rest => simp [Iterator.ofList, levelFileNumOps, indexPosition]
  seek {index position} target _ := by
    have hnot : (fun f : FileMetaData K ↦ decide (target ≤ f.largest)) =
        fun f ↦ !decide (f.largest < target) := by
      funext f
      simp [← not_lt]
    change (files.map indexEntry).findIdx? _ = indexPosition files (findFile files target)
    rw [findIdx?_map, findFile_eq hsorted, indexPosition, ← SortedLists.findIdx?_not_eq, ← hnot]
    rfl
  next {index position} h hvalid := by
    subst h
    unfold indexPosition at hvalid ⊢
    split at hvalid
    · rw [if_pos ‹_›]
      simp [Iterator.ofList, levelFileNumOps]
    · cases hvalid
  prev {index position} h hvalid := by
    subst h
    unfold indexPosition at hvalid ⊢
    split at hvalid
    · rw [if_pos ‹_›]
      cases index with
      | zero => simp [levelFileNumOps]
      | succ index =>
        have hlt : index < files.length := by omega
        simp [levelFileNumOps, hlt]
    · cases hvalid

theorem faithful_levelFileNumIterator {files : List (FileMetaData K)} (hsorted : SortedLevel files) :
    (levelFileNumIterator files).Faithful Prod.fst (files.map indexEntry) :=
  ⟨_, simulates_levelFileNumOps hsorted, by simp [levelFileNumIterator, indexPosition]⟩

/-- `NewConcatenatingIterator`.  `GetFileIterator` opens the table with the number in the handle. -/
def newConcatenatingIterator (tables : ℕ → List (Entry K V)) (files : List (FileMetaData K)) :
    AnyIterator (Entry K V) (InternalKey K) :=
  TwoLevelIterator.new (levelFileNumIterator files)
    (fun handle ↦ AnyIterator.ofList Entry.key (tables handle.1)) (files.length + 1)

theorem faithful_newConcatenatingIterator {tables : ℕ → List (Entry K V)} {files : List (FileMetaData K)}
    (hsorted : SortedLevel files) (hwithin : ∀ f ∈ files, TableWithin f (tables f.number)) :
    (newConcatenatingIterator tables files).Faithful Entry.key (levelEntries tables files) := by
  have hentries : TwoLevelIterator.Indexed Entry.key (files.map indexEntry)
      fun handle : ℕ × ℕ ↦ tables handle.1 := by
    refine ⟨?_, ?_, pairwise_map.mpr ?_⟩
    · intro p hp
      obtain ⟨f, hf, rfl⟩ := mem_map.mp hp
      exact (hwithin f hf).sorted
    · intro p hp x hx
      obtain ⟨f, hf, rfl⟩ := mem_map.mp hp
      exact (hwithin f hf).le_largest x hx
    · exact hsorted.ordered.imp_of_mem fun _ hg hlt x hx ↦ hlt.trans_le ((hwithin _ hg).smallest_le x hx)
  have hcontents : levelEntries tables files =
      TwoLevelIterator.contents (files.map indexEntry) fun handle : ℕ × ℕ ↦ tables handle.1 := by
    rw [TwoLevelIterator.contents, flatMap_map]
    rfl
  rw [hcontents]
  exact TwoLevelIterator.faithful_new (faithful_levelFileNumIterator hsorted)
    (fun _ _ ↦ AnyIterator.faithful_ofList _ _) hentries (by simp)

def nonemptyLevels (v : Version K) : List ℕ :=
  (List.range' 1 (kNumLevels - 1)).filter fun level ↦ !(v.files level).isEmpty

/-- `Version::AddIterators`: one iterator for each level-0 file, since these may overlap, and one for each
other level with files. -/
def addIterators (v : Version K) (tables : ℕ → List (Entry K V)) :
    List (AnyIterator (Entry K V) (InternalKey K)) :=
  ((v.files 0).map fun f ↦ AnyIterator.ofList Entry.key (tables f.number)) ++
    (nonemptyLevels v).map fun level ↦ newConcatenatingIterator tables (v.files level)

def State.newInternalIterator (state : State K V) : AnyIterator (Entry K V) (InternalKey K) :=
  Merger.newMergingIterator Entry.key
    (AnyIterator.ofList Entry.key state.mem ::
      (state.imm.toList.map (AnyIterator.ofList Entry.key) ++ addIterators state.current state.tables))

def State.layers (state : State K V) : List (List (Entry K V)) :=
  state.mem :: (state.imm.toList ++ (((state.current.files 0).map fun f ↦ state.tables f.number) ++
    (nonemptyLevels state.current).map fun level ↦ levelEntries state.tables (state.current.files level)))

def State.mergedEntries (state : State K V) : List (Entry K V) :=
  state.layers.flatten.insertionSort fun a b ↦ a.key ≤ b.key

omit [LinearOrder K] in
theorem mem_nonemptyLevels {v : Version K} {level : ℕ} :
    level ∈ nonemptyLevels v ↔ (level ≠ 0 ∧ level < kNumLevels) ∧ v.files level ≠ [] := by
  rw [nonemptyLevels, mem_filter, mem_range'_1]
  simp [kNumLevels]
  omega

omit [LinearOrder K] in
theorem mem_storedEntries_iff {v : Version K} {tables : ℕ → List (Entry K V)} {e : Entry K V} :
    e ∈ storedEntries v tables ↔ (∃ f ∈ v.files 0, e ∈ tables f.number) ∨
      ∃ level ∈ nonemptyLevels v, e ∈ levelEntries tables (v.files level) := by
  constructor
  · rintro ⟨level, hlevel, he⟩
    by_cases hzero : level = 0
    · subst hzero
      exact .inl (mem_levelEntries.mp he)
    · refine .inr ⟨level, mem_nonemptyLevels.mpr ⟨⟨hzero, mem_range.mp hlevel⟩, ?_⟩, he⟩
      intro hnil
      simp [hnil, levelEntries] at he
  · rintro (⟨f, hf, he⟩ | ⟨level, hlevel, he⟩)
    · exact ⟨0, mem_range.mpr (by decide), mem_levelEntries.mpr ⟨f, hf, he⟩⟩
    · exact ⟨level, mem_range.mpr (mem_nonemptyLevels.mp hlevel).1.2, he⟩

omit [LinearOrder K] in
theorem State.mem_layers {state : State K V} {e : Entry K V} :
    (∃ l ∈ state.layers, e ∈ l) ↔ e ∈ state.allEntries := by
  have himm : (∃ l ∈ state.imm.toList, e ∈ l) ↔ e ∈ state.immEntries := by
    rw [State.immEntries]
    cases state.imm <;> simp
  have hstored := @mem_storedEntries_iff _ _ state.current state.tables e
  simp only [State.layers, State.allEntries, mem_cons, mem_append, mem_map, or_and_right,
    exists_or, exists_eq_left, himm, Set.mem_union, Set.mem_ofPred_eq, hstored]
  simp only [exists_exists_and_eq_and]

theorem ReadLayers.layers_sorted {state : State K V} (h : ReadLayers state) :
    ∀ l ∈ state.layers, SortedEntries l := by
  intro l hl
  simp only [State.layers, mem_cons, mem_append, mem_map] at hl
  rcases hl with rfl | himm | ⟨f, hf, rfl⟩ | ⟨level, hlevel, rfl⟩
  · exact h.mem_sorted
  · have hsorted := h.imm_sorted
    rw [Option.mem_toList] at himm
    rwa [State.immEntries, himm] at hsorted
  · exact (h.within 0 f hf).sorted
  · exact levelEntries_sorted (h.sorted level (mem_nonemptyLevels.mp hlevel).1.1) (h.within level)

omit [LinearOrder K] in
theorem key_ne_of_newer {A B : Set (Entry K V)} (h : Newest.Newer Entry.userKey Entry.tag A B) :
    ∀ x ∈ A, ∀ y ∈ B, x.key ≠ y.key := by
  intro x hx y hy heq
  have hlt := h x hx y hy (congrArg InternalKey.userKey heq)
  rw [Entry.tag, Entry.tag, heq] at hlt
  exact lt_irrefl _ hlt

/-- The tables of level 0 and the other levels have no key in common. -/
theorem ReadLayers.stored_key_ne {state : State K V} (h : ReadLayers state) :
    (((state.current.files 0).map fun f ↦ state.tables f.number) ++
      (nonemptyLevels state.current).map fun level ↦
        levelEntries state.tables (state.current.files level)).Pairwise
      fun l l' ↦ ∀ x ∈ l, ∀ y ∈ l', x.key ≠ y.key := by
  refine pairwise_append.mpr ⟨pairwise_map.mpr ?_, pairwise_map.mpr ?_, ?_⟩
  · apply h.number_ne.imp_of_mem
    intro f g hf hg hne x hx y hy
    rcases lt_or_gt_of_ne hne with hlt | hlt
    · exact (key_ne_of_newer (h.layered.zero g hg f hf hlt) y hy x hx).symm
    · exact key_ne_of_newer (h.layered.zero f hf g hg hlt) x hx y hy
  · have hincreasing : (nonemptyLevels state.current).Pairwise (· < ·) :=
      List.Pairwise.filter _ (pairwise_lt_range' 1)
    refine hincreasing.imp fun {i j} hij x hx y hy ↦ ?_
    obtain ⟨f, hf, hxf⟩ := mem_levelEntries.mp hx
    obtain ⟨g, hg, hyg⟩ := mem_levelEntries.mp hy
    exact key_ne_of_newer (h.layered.levels i j hij f hf g hg) x hxf y hyg
  · intro l hl l' hl' x hx y hy
    obtain ⟨f, hf, rfl⟩ := mem_map.mp hl
    obtain ⟨level, hlevel, rfl⟩ := mem_map.mp hl'
    obtain ⟨g, hg, hyg⟩ := mem_levelEntries.mp hy
    have hpos := Nat.pos_of_ne_zero (mem_nonemptyLevels.mp hlevel).1.1
    exact key_ne_of_newer (h.layered.levels 0 level hpos f hf g hg) x hx y hyg

theorem ReadLayers.layers_key_ne {state : State K V} (h : ReadLayers state) :
    state.layers.Pairwise fun l l' ↦ ∀ x ∈ l, ∀ y ∈ l', x.key ≠ y.key := by
  have hstored : ∀ l ∈ ((state.current.files 0).map fun f ↦ state.tables f.number) ++
      (nonemptyLevels state.current).map fun level ↦
        levelEntries state.tables (state.current.files level),
      ∀ y ∈ l, y ∈ storedEntries state.current state.tables := by
    intro l hl y hy
    rw [mem_storedEntries_iff]
    simp only [mem_append, mem_map] at hl
    rcases hl with ⟨f, hf, rfl⟩ | ⟨level, hlevel, rfl⟩
    · exact .inl ⟨f, hf, hy⟩
    · exact .inr ⟨level, hlevel, hy⟩
  have himm : ∀ l ∈ state.imm.toList, ∀ y ∈ l, y ∈ state.immEntries := by
    intro l hl y hy
    rw [Option.mem_toList] at hl
    rwa [State.immEntries, hl]
  refine pairwise_cons.mpr ⟨fun l hl x hx y hy ↦ ?_,
    pairwise_append.mpr ⟨?_, h.stored_key_ne, fun l hl l' hl' x hx y hy ↦ ?_⟩⟩
  · refine key_ne_of_newer h.mem_newer x hx y ?_
    rcases mem_append.mp hl with hl | hl
    · exact .inl (himm l hl y hy)
    · exact .inr (hstored l hl y hy)
  · cases state.imm with
    | none => exact .nil
    | some imm => exact pairwise_singleton _ _
  · exact key_ne_of_newer h.imm_newer x (himm l hl x hx) y (hstored l' hl' y hy)

/-- Sorting runs without a common key gives a strictly sorted list. -/
theorem ReadLayers.mergedEntries_sorted {state : State K V} (h : ReadLayers state) :
    SortedEntries state.mergedEntries := by
  have hkeys : state.layers.flatten.Pairwise fun x y ↦ x.key ≠ y.key := by
    rw [pairwise_flatten]
    exact ⟨fun l hl ↦ (h.layers_sorted l hl).imp fun hlt ↦ hlt.ne, h.layers_key_ne⟩
  have hle : state.mergedEntries.Pairwise fun x y ↦ x.key ≤ y.key := pairwise_insertionSort _ _
  have hne : state.mergedEntries.Pairwise fun x y ↦ x.key ≠ y.key :=
    (perm_insertionSort _ _).symm.pairwise hkeys fun hne ↦ hne.symm
  exact (hle.and hne).imp fun h ↦ lt_of_le_of_ne h.1 h.2

theorem State.mem_mergedEntries {state : State K V} {e : Entry K V} :
    e ∈ state.mergedEntries ↔ e ∈ state.allEntries := by
  rw [← State.mem_layers, State.mergedEntries, mem_insertionSort, mem_flatten]

theorem ReadLayers.faithful_newInternalIterator {state : State K V} (h : ReadLayers state) :
    state.newInternalIterator.Faithful Entry.key state.mergedEntries := by
  have hchildren : List.Forall₂ (AnyIterator.Faithful Entry.key)
      (AnyIterator.ofList Entry.key state.mem :: (state.imm.toList.map (AnyIterator.ofList Entry.key) ++
        addIterators state.current state.tables)) state.layers := by
    refine .cons (AnyIterator.faithful_ofList _ _) (rel_append ?_ (rel_append ?_ ?_))
    · rw [forall₂_map_left_iff, forall₂_same]
      exact fun l _ ↦ AnyIterator.faithful_ofList _ l
    · rw [forall₂_map_left_iff, forall₂_map_right_iff, forall₂_same]
      exact fun f _ ↦ AnyIterator.faithful_ofList _ _
    · rw [forall₂_map_left_iff, forall₂_map_right_iff, forall₂_same]
      intro level hlevel
      exact faithful_newConcatenatingIterator (h.sorted level (mem_nonemptyLevels.mp hlevel).1.1)
        (h.within level)
  refine Merger.faithful_newMergingIterator hchildren h.layers_sorted h.layers_key_ne
    h.mergedEntries_sorted fun e ↦ ?_
  rw [State.mem_mergedEntries, State.mem_layers]

end LevelDB.Db.Engine
