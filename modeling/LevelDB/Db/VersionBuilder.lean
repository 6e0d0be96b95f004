import LevelDB.Db.TableFiles
import Mathlib.Data.Prod.Lex
import Mathlib.Data.Rat.Defs
import Mathlib.Data.List.Chain

/-!
# Version edits and the version builder

`VersionEdit` of `db/version_edit.h` and `VersionSet::Builder` of `db/version_set.cpp`.  The builder
collects, for each level, a set of deleted file numbers and an ordered set of added files, and
`SaveTo` merges the added files into the files of the base version.  `MaybeAddFile` asserts that the
files of a level above 0 do not overlap; a failed assertion, like the overlap check of a debug build,
is the result `none`.
-/

namespace LevelDB.Db.VersionBuilder

open Format TableFiles Library SortedLists List

variable {K : Type*}

/-- `has_x_` and `x_` together are an optional field. -/
structure VersionEdit (K : Type*) where
  comparator : Option String := none
  logNumber : Option ℕ := none
  prevLogNumber : Option ℕ := none
  nextFileNumber : Option ℕ := none
  lastSequence : Option ℕ := none
  compactPointers : List (ℕ × InternalKey K) := []
  deletedFiles : List (ℕ × ℕ) := []
  newFiles : List (ℕ × FileMetaData K) := []
  deriving DecidableEq

namespace VersionEdit

def addFile (edit : VersionEdit K) (level : ℕ) (f : FileMetaData K) : VersionEdit K :=
  { edit with newFiles := edit.newFiles ++ [(level, f)] }

/-- The edit of a compaction of `level`: the new `compact_pointer_`, `AddInputDeletions`, and the
outputs.  `deleted_files_` is a set, so the order of its pairs is never read. -/
def ofCompaction (level : ℕ) (pointer : InternalKey K) (inputs0 inputs1 outputs : List (FileMetaData K)) :
    VersionEdit K where
  compactPointers := [(level, pointer)]
  deletedFiles := inputs0.map (fun f ↦ (level, f.number)) ++ inputs1.map fun f ↦ (level + 1, f.number)
  newFiles := outputs.map fun f ↦ (level + 1, f)

def deletedAt (edit : VersionEdit K) (level : ℕ) : List ℕ :=
  (edit.deletedFiles.filter fun p ↦ p.1 = level).map Prod.snd

def newAt (edit : VersionEdit K) (level : ℕ) : List (FileMetaData K) :=
  (edit.newFiles.filter fun p ↦ p.1 = level).map Prod.snd

@[simp]
theorem mem_deletedAt {edit : VersionEdit K} {level number : ℕ} :
    number ∈ edit.deletedAt level ↔ (level, number) ∈ edit.deletedFiles := by
  simp [deletedAt]

@[simp]
theorem mem_newAt {edit : VersionEdit K} {level : ℕ} {f : FileMetaData K} :
    f ∈ edit.newAt level ↔ (level, f) ∈ edit.newFiles := by
  simp [newAt]

theorem nodup_newAt {edit : VersionEdit K} (h : (edit.newFiles.map fun p ↦ p.2.number).Nodup) (level : ℕ) :
    ((edit.newAt level).map FileMetaData.number).Nodup := by
  unfold newAt
  rw [map_map]
  exact h.sublist (filter_sublist.map _)

end VersionEdit

structure LevelState (K : Type*) where
  deletedFiles : List ℕ
  addedFiles : List (FileMetaData K)

namespace LevelState

def empty : LevelState K := ⟨[], []⟩

def deleteFile (state : LevelState K) (number : ℕ) : LevelState K :=
  { state with deletedFiles := number :: state.deletedFiles }

end LevelState

/-- `BySmallestKey`: order by smallest key and break ties by file number. -/
def bySmallestKey (f : FileMetaData K) : InternalKey K ×ₗ ℕ := toLex (f.smallest, f.number)

theorem deleteFiles_deletedFiles (numbers : List ℕ) (state : LevelState K) (number : ℕ) :
    number ∈ (numbers.foldl LevelState.deleteFile state).deletedFiles ↔
      number ∈ numbers ∨ number ∈ state.deletedFiles := by
  induction numbers generalizing state with
  | nil => simp
  | cons n rest ih =>
    rw [foldl_cons, ih]
    simp only [LevelState.deleteFile, mem_cons]
    tauto

theorem deleteFiles_addedFiles (numbers : List ℕ) (state : LevelState K) :
    (numbers.foldl LevelState.deleteFile state).addedFiles = state.addedFiles := by
  induction numbers generalizing state with
  | nil => rfl
  | cons n rest ih => rw [foldl_cons, ih]; rfl

theorem bySmallestKey_ne {f g : FileMetaData K} (h : f.number ≠ g.number) :
    bySmallestKey f ≠ bySmallestKey g := by
  intro heq
  exact h (congrArg (fun key ↦ (ofLex key).2) heq)

variable [LinearOrder K]
  {base : ℕ → List (FileMetaData K)} {edit : VersionEdit K} {level : ℕ}
  {f : FileMetaData K} {state : LevelState K}

def LevelState.addFile (state : LevelState K) (f : FileMetaData K) : LevelState K where
  deletedFiles := state.deletedFiles.filter fun number ↦ number ≠ f.number
  addedFiles := insertByKey bySmallestKey f state.addedFiles

abbrev Builder (K : Type*) := ℕ → LevelState K

def Builder.empty : Builder K := fun _ ↦ LevelState.empty

variable {builder : Builder K}

/-- `Builder::Apply`: the deletions of the edit and then its additions.  Both act on the level they
name. -/
def Builder.apply (builder : Builder K) (edit : VersionEdit K) : Builder K := fun level ↦
  (edit.newAt level).foldl LevelState.addFile
    ((edit.deletedAt level).foldl LevelState.deleteFile (builder level))

/-- `MaybeAddFile`; `none` is a failed assertion. -/
def maybeAddFile (level : ℕ) (deleted : List ℕ) (files : List (FileMetaData K))
    (f : FileMetaData K) : Option (List (FileMetaData K)) :=
  if f.number ∈ deleted then some files
  else
    match files.getLast? with
    | some last => if 0 < level ∧ ¬last.largest < f.smallest then none else some (files ++ [f])
    | none => some (files ++ [f])

def saveLevel (level : ℕ) (deleted : List ℕ) :
    List (FileMetaData K) → List (FileMetaData K) → List (FileMetaData K) → Option (List (FileMetaData K))
  | files, base, [] => base.foldlM (maybeAddFile level deleted) files
  | files, base, a :: added => do
    let files ← (base.takeWhile fun b ↦ !decide (bySmallestKey a < bySmallestKey b)).foldlM
      (maybeAddFile level deleted) files
    let files ← maybeAddFile level deleted files a
    saveLevel level deleted files
      (base.dropWhile fun b ↦ !decide (bySmallestKey a < bySmallestKey b)) added

/-- "Make sure there is no overlap in levels > 0." -/
def noOverlap : List (FileMetaData K) → Bool
  | f :: g :: rest => decide (f.largest < g.smallest) && noOverlap (g :: rest)
  | _ => true

def saveLevelTo (builder : Builder K) (base : ℕ → List (FileMetaData K)) (level : ℕ) :
    Option (List (FileMetaData K)) := do
  let files ← saveLevel level (builder level).deletedFiles [] (base level) (builder level).addedFiles
  if 0 < level ∧ ¬noOverlap files then none else some files

/-- `SaveTo`: the files of the new version, or `none` when an assertion fails at some level. -/
def Builder.saveTo (builder : Builder K) (base : ℕ → List (FileMetaData K)) :
    Option (ℕ → List (FileMetaData K)) :=
  if (List.range kNumLevels).all fun level ↦ (saveLevelTo builder base level).isSome then
    some fun level ↦ if level < kNumLevels then (saveLevelTo builder base level).getD [] else []
  else none

/-- The files of a level that a builder leaves: base and added files in order, less the deleted
ones. -/
def keptFiles (state : LevelState K) (base : List (FileMetaData K)) : List (FileMetaData K) :=
  (mergeByKey bySmallestKey base state.addedFiles).filter fun f ↦ f.number ∉ state.deletedFiles

/-- No two neighbours overlap. -/
def Separated (files : List (FileMetaData K)) : Prop := files.IsChain fun f g ↦ f.largest < g.smallest

theorem noOverlap_eq_true {files : List (FileMetaData K)} : noOverlap files = true ↔ Separated files := by
  unfold Separated
  induction files with
  | nil => simp [noOverlap]
  | cons f rest ih =>
    cases rest with
    | nil => simp [noOverlap]
    | cons g rest => simp [noOverlap, ih]

theorem saveLevel_eq (level : ℕ) (deleted : List ℕ) (files base added : List (FileMetaData K)) :
    saveLevel level deleted files base added =
      (mergeByKey bySmallestKey base added).foldlM (maybeAddFile level deleted) files := by
  induction added generalizing files base with
  | nil => rfl
  | cons a added ih =>
    simp only [saveLevel, mergeByKey, foldlM_append, foldlM_cons, ih]

/-- The assertion aside, `MaybeAddFile` appends the files that are not deleted. -/
theorem eq_of_foldlM_maybeAddFile {deleted : List ℕ} {files more result : List (FileMetaData K)}
    (h : more.foldlM (maybeAddFile level deleted) files = some result) :
    result = files ++ more.filter fun f ↦ f.number ∉ deleted := by
  induction more generalizing files with
  | nil => simpa using h.symm
  | cons f more ih =>
    rw [foldlM_cons] at h
    obtain ⟨files', hadd, hrest⟩ := Option.bind_eq_some_iff.mp h
    rw [ih hrest]
    unfold maybeAddFile at hadd
    split at hadd
    · rename_i hdel
      cases hadd
      rw [filter_cons_of_neg (by simpa using hdel)]
    · rename_i hdel
      have happend : files' = files ++ [f] := by
        split at hadd
        · split at hadd
          · cases hadd
          · exact (Option.some.inj hadd).symm
        · exact (Option.some.inj hadd).symm
      rw [filter_cons_of_pos (by simpa using hdel), happend]
      simp

/-- When no two neighbours overlap, no assertion fails. -/
theorem foldlM_maybeAddFile {deleted : List ℕ} {files more : List (FileMetaData K)}
    (h : 0 < level → Separated (files ++ more.filter fun f ↦ f.number ∉ deleted)) :
    more.foldlM (maybeAddFile level deleted) files =
      some (files ++ more.filter fun f ↦ f.number ∉ deleted) := by
  induction more generalizing files with
  | nil => simp
  | cons f more ih =>
    rw [foldlM_cons]
    by_cases hdel : f.number ∈ deleted
    · have hskip : maybeAddFile level deleted files f = some files := by simp [maybeAddFile, hdel]
      rw [filter_cons_of_neg (by simpa using hdel)] at h ⊢
      rw [hskip]
      exact ih h
    · rw [filter_cons_of_pos (by simpa using hdel)] at h ⊢
      have hadd : maybeAddFile level deleted files f = some (files ++ [f]) := by
        unfold maybeAddFile
        rw [if_neg hdel]
        split
        · rename_i last hlast
          have hlt : 0 < level → last.largest < f.smallest := by
            intro hlevel
            have hchain := h hlevel
            unfold Separated at hchain
            rw [isChain_append] at hchain
            exact hchain.2.2 last (by simp [hlast]) f (by simp)
          rw [if_neg]
          rintro ⟨hlevel, hnot⟩
          exact hnot (hlt hlevel)
        · rfl
      have happend : files ++ f :: (more.filter fun f ↦ f.number ∉ deleted) =
          files ++ [f] ++ more.filter fun f ↦ f.number ∉ deleted := by simp
      rw [hadd, happend]
      rw [happend] at h
      exact ih h

theorem saveLevelTo_eq_some {files : List (FileMetaData K)}
    (h : saveLevelTo builder base level = some files) : files = keptFiles (builder level) (base level) := by
  unfold saveLevelTo at h
  obtain ⟨files', hsave, hcheck⟩ := Option.bind_eq_some_iff.mp h
  rw [saveLevel_eq] at hsave
  have := eq_of_foldlM_maybeAddFile hsave
  split at hcheck
  · cases hcheck
  · cases hcheck
    simpa [keptFiles] using this

theorem saveLevelTo_of_separated (h : 0 < level → Separated (keptFiles (builder level) (base level))) :
    saveLevelTo builder base level = some (keptFiles (builder level) (base level)) := by
  unfold saveLevelTo
  rw [saveLevel_eq, foldlM_maybeAddFile (by simpa [keptFiles] using h)]
  simp only [nil_append, Option.bind_eq_bind, Option.bind_some]
  rw [if_neg]
  · rfl
  · rintro ⟨hlevel, hnot⟩
    exact hnot (noOverlap_eq_true.mpr (h hlevel))

def savedFiles (builder : Builder K) (base : ℕ → List (FileMetaData K)) (level : ℕ) :
    List (FileMetaData K) :=
  if level < kNumLevels then keptFiles (builder level) (base level) else []

theorem eq_savedFiles_of_saveTo {base files : ℕ → List (FileMetaData K)}
    (h : builder.saveTo base = some files) : files = savedFiles builder base := by
  unfold Builder.saveTo at h
  split at h
  · rename_i hall
    cases h
    funext level
    unfold savedFiles
    split
    · rename_i hlevel
      rw [all_eq_true] at hall
      obtain ⟨files, hfiles⟩ := Option.isSome_iff_exists.mp (hall level (mem_range.mpr hlevel))
      rw [hfiles, Option.getD_some, saveLevelTo_eq_some hfiles]
    · rfl
  · cases h

/-- The overlap check of `SaveTo` has passed on every level above 0. -/
theorem separated_of_saveTo {base files : ℕ → List (FileMetaData K)} (h : builder.saveTo base = some files)
    (hpos : 0 < level) : Separated (files level) := by
  rw [eq_savedFiles_of_saveTo h]
  unfold savedFiles
  split
  · rename_i hlevel
    unfold Builder.saveTo at h
    split at h
    · rename_i hall
      have hsome := all_eq_true.mp hall level (mem_range.mpr hlevel)
      obtain ⟨saved, hsaved⟩ := Option.isSome_iff_exists.mp hsome
      rw [← saveLevelTo_eq_some hsaved]
      unfold saveLevelTo at hsaved
      obtain ⟨saved', -, hcheck⟩ := Option.bind_eq_some_iff.mp hsaved
      split at hcheck
      · cases hcheck
      · rename_i hoverlap
        cases hcheck
        simpa [hpos, noOverlap_eq_true] using hoverlap
    · cases h
  · exact isChain_nil

/-- `SaveTo` runs into no assertion when the levels above 0 come out without overlap. -/
theorem saveTo_of_separated
    (h : ∀ level, 0 < level → level < kNumLevels → Separated (keptFiles (builder level) (base level))) :
    builder.saveTo base = some (savedFiles builder base) := by
  have hsome : ∀ level, level < kNumLevels →
      saveLevelTo builder base level = some (keptFiles (builder level) (base level)) :=
    fun level hlevel ↦ saveLevelTo_of_separated fun hpos ↦ h level hpos hlevel
  have hall : ((List.range kNumLevels).all fun level ↦
      (saveLevelTo builder base level).isSome) = true := by
    rw [all_eq_true]
    intro level hlevel
    rw [hsome level (mem_range.mp hlevel)]
    rfl
  unfold Builder.saveTo
  rw [if_pos hall]
  congr 1
  funext level
  unfold savedFiles
  split
  · rename_i hlevel
    rw [hsome level hlevel]
    rfl
  · rfl

def Ordered (files : List (FileMetaData K)) : Prop :=
  files.Pairwise fun f g ↦ bySmallestKey f < bySmallestKey g

theorem Ordered.smallest_le {files : List (FileMetaData K)} (h : Ordered files) :
    files.Pairwise fun f g ↦ f.smallest ≤ g.smallest := by
  apply h.imp
  intro f g hlt
  rcases Prod.Lex.toLex_lt_toLex.mp hlt with hlt | ⟨heq, _⟩
  · exact hlt.le
  · exact heq.le

theorem Ordered.eq_of_mem_iff {files files' : List (FileMetaData K)} (h : Ordered files)
    (h' : Ordered files') (hmem : ∀ f, f ∈ files ↔ f ∈ files') : files = files' :=
  eq_of_pairwise_of_mem_iff h h' hmem

theorem addFiles_deletedFiles (news : List (FileMetaData K)) (state : LevelState K) (number : ℕ) :
    number ∈ (news.foldl LevelState.addFile state).deletedFiles ↔
      number ∈ state.deletedFiles ∧ number ∉ news.map FileMetaData.number := by
  induction news generalizing state with
  | nil => simp
  | cons f rest ih =>
    rw [foldl_cons, ih]
    simp only [LevelState.addFile, mem_filter, decide_eq_true_eq, map_cons, mem_cons]
    tauto

theorem addFiles_ordered {news : List (FileMetaData K)} (h : Ordered state.addedFiles) :
    Ordered (news.foldl LevelState.addFile state).addedFiles := by
  induction news generalizing state with
  | nil => exact h
  | cons f rest ih =>
    rw [foldl_cons]
    exact ih (pairwise_insertByKey h)

theorem addFiles_addedFiles {news : List (FileMetaData K)} (hnodup : (news.map FileMetaData.number).Nodup)
    (hfresh : ∀ f ∈ news, ∀ g ∈ state.addedFiles, g.number ≠ f.number) (f : FileMetaData K) :
    f ∈ (news.foldl LevelState.addFile state).addedFiles ↔ f ∈ news ∨ f ∈ state.addedFiles := by
  induction news generalizing state with
  | nil => simp
  | cons g rest ih =>
    rw [map_cons, nodup_cons] at hnodup
    have hmem : ∀ x, x ∈ (state.addFile g).addedFiles ↔ x = g ∨ x ∈ state.addedFiles := by
      intro x
      refine ⟨mem_of_mem_insertByKey, ?_⟩
      rintro (rfl | hx)
      · exact mem_insertByKey_self fun y hy ↦ bySmallestKey_ne (hfresh x mem_cons_self y hy)
      · exact mem_insertByKey_of_mem hx
    rw [foldl_cons, ih hnodup.2]
    · rw [hmem, mem_cons]
      tauto
    · intro x hx y hy
      rcases (hmem y).mp hy with rfl | hy
      · rintro heq
        exact hnodup.1 (heq ▸ mem_map_of_mem hx)
      · exact hfresh x (mem_cons_of_mem g hx) y hy

theorem apply_deletedFiles (builder : Builder K) (edit : VersionEdit K) (level number : ℕ) :
    number ∈ (builder.apply edit level).deletedFiles ↔
      (number ∈ edit.deletedAt level ∨ number ∈ (builder level).deletedFiles) ∧
        number ∉ (edit.newAt level).map FileMetaData.number := by
  rw [Builder.apply, addFiles_deletedFiles, deleteFiles_deletedFiles]

theorem apply_addedFiles (hnodup : ((edit.newAt level).map FileMetaData.number).Nodup)
    (hfresh : ∀ f ∈ edit.newAt level, ∀ g ∈ (builder level).addedFiles, g.number ≠ f.number)
    (f : FileMetaData K) :
    f ∈ (builder.apply edit level).addedFiles ↔ f ∈ edit.newAt level ∨ f ∈ (builder level).addedFiles := by
  rw [Builder.apply, addFiles_addedFiles hnodup, deleteFiles_addedFiles]
  rwa [deleteFiles_addedFiles]

theorem mem_addedFiles_of_apply (h : f ∈ (builder.apply edit level).addedFiles) :
    f ∈ edit.newAt level ∨ f ∈ (builder level).addedFiles := by
  have hfold : ∀ (news : List (FileMetaData K)) (state : LevelState K),
      f ∈ (news.foldl LevelState.addFile state).addedFiles → f ∈ news ∨ f ∈ state.addedFiles := by
    intro news
    induction news with
    | nil => exact fun state hf ↦ .inr hf
    | cons g rest ih =>
      intro state hf
      rcases ih _ hf with hf | hf
      · exact .inl (mem_cons_of_mem g hf)
      · rcases mem_of_mem_insertByKey hf with rfl | hf
        · exact .inl mem_cons_self
        · exact .inr hf
  have hmem := hfold _ _ h
  rwa [deleteFiles_addedFiles] at hmem

theorem apply_ordered (edit : VersionEdit K) (h : Ordered (builder level).addedFiles) :
    Ordered (builder.apply edit level).addedFiles := by
  apply addFiles_ordered
  rwa [deleteFiles_addedFiles]

theorem keptFiles_ordered {base : List (FileMetaData K)} (hbase : Ordered base)
    (hadded : Ordered state.addedFiles)
    (hdisjoint : ∀ f ∈ base, ∀ g ∈ state.addedFiles, g.number ≠ f.number) :
    Ordered (keptFiles state base) := by
  apply List.Pairwise.sublist filter_sublist
  exact pairwise_mergeByKey hbase hadded fun f hf g hg ↦ bySmallestKey_ne (hdisjoint f hf g hg)

theorem mem_keptFiles {base : List (FileMetaData K)} : f ∈ keptFiles state base ↔
      (f ∈ base ∨ f ∈ state.addedFiles) ∧ f.number ∉ state.deletedFiles := by
  simp [keptFiles, mem_mergeByKey]

/-- One more edit on a builder whose base is empty.  Its new numbers have not been added before. -/
theorem mem_keptFiles_apply (hnodup : ((edit.newAt level).map FileMetaData.number).Nodup)
    (hfresh : ∀ f ∈ edit.newAt level, ∀ g ∈ (builder level).addedFiles, g.number ≠ f.number) :
    f ∈ keptFiles (builder.apply edit level) [] ↔
      (f ∈ keptFiles (builder level) [] ∧ f.number ∉ edit.deletedAt level) ∨ f ∈ edit.newAt level := by
  rw [mem_keptFiles, mem_keptFiles, apply_addedFiles hnodup hfresh, apply_deletedFiles]
  simp only [not_mem_nil, false_or]
  constructor
  · rintro ⟨hf | hf, hdel⟩
    · exact .inr hf
    · have hnew : f.number ∉ (edit.newAt level).map FileMetaData.number := by
        rw [mem_map]
        rintro ⟨g, hg, heq⟩
        exact hfresh g hg f hf heq.symm
      exact .inl ⟨⟨hf, fun hmem ↦ hdel ⟨.inr hmem, hnew⟩⟩, fun hmem ↦ hdel ⟨.inl hmem, hnew⟩⟩
  · rintro (⟨⟨hf, hkept⟩, hdel⟩ | hf)
    · exact ⟨.inr hf, fun h ↦ h.1.elim hdel hkept⟩
    · exact ⟨.inl hf, fun h ↦ h.2 (mem_map_of_mem hf)⟩

def editedFiles (base : ℕ → List (FileMetaData K)) (edit : VersionEdit K) (level : ℕ) :
    List (FileMetaData K) :=
  savedFiles (Builder.empty.apply edit) base level

structure FreshAt (base : ℕ → List (FileMetaData K)) (edit : VersionEdit K) (level : ℕ) : Prop where
  nodup : ((edit.newAt level).map FileMetaData.number).Nodup
  fresh : ∀ f ∈ edit.newAt level, ∀ g ∈ base level, g.number ≠ f.number

theorem mem_editedFiles (hlevel : level < kNumLevels) (hfresh : FreshAt base edit level) :
    f ∈ editedFiles base edit level ↔
      (f ∈ base level ∧ f.number ∉ edit.deletedAt level) ∨ f ∈ edit.newAt level := by
  unfold editedFiles savedFiles
  rw [if_pos hlevel, mem_keptFiles, apply_deletedFiles,
    apply_addedFiles hfresh.nodup (by simp [Builder.empty, LevelState.empty])]
  simp only [Builder.empty, LevelState.empty, not_mem_nil, or_false]
  constructor
  · rintro ⟨hf | hf, hdel⟩
    · refine .inl ⟨hf, fun hmem ↦ hdel ⟨hmem, ?_⟩⟩
      rw [mem_map]
      rintro ⟨g, hg, heq⟩
      exact hfresh.fresh g hg f hf heq.symm
    · exact .inr hf
  · rintro (⟨hf, hdel⟩ | hf)
    · exact ⟨.inl hf, fun h ↦ hdel h.1⟩
    · exact ⟨.inr hf, fun h ↦ h.2 (mem_map_of_mem hf)⟩

/-- Without a condition on the numbers, every file comes from the base or from the edit. -/
theorem mem_of_mem_editedFiles (h : f ∈ editedFiles base edit level) :
    f ∈ base level ∨ f ∈ edit.newAt level := by
  unfold editedFiles savedFiles at h
  split at h
  · rcases (mem_keptFiles.mp h).1 with hf | hf
    · exact .inl hf
    · rcases mem_addedFiles_of_apply hf with hf | hf
      · exact .inr hf
      · cases hf
  · cases h

theorem editedFiles_ordered (hfresh : FreshAt base edit level) (hbase : Ordered (base level)) :
    Ordered (editedFiles base edit level) := by
  unfold editedFiles savedFiles
  split
  · apply keptFiles_ordered hbase
    · exact apply_ordered edit .nil
    · intro f hf g hg
      rw [apply_addedFiles hfresh.nodup (by simp [Builder.empty, LevelState.empty])] at hg
      simp only [Builder.empty, LevelState.empty, not_mem_nil, or_false] at hg
      exact (hfresh.fresh g hg f hf).symm
  · exact .nil

end LevelDB.Db.VersionBuilder
