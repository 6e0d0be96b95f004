import LevelDB.Db.Lookup

/-!
# The files of a version and the tables behind them

Every file of a version has a table on disk, found by its number.  The file states what holds of the
two together, whatever steps the database takes, and what an edit must respect for it to hold of the
next version: the numbers of added files are new and added files lie apart from what stays at their
level.  Under these conditions `Builder::SaveTo` runs into no assertion.
-/

namespace LevelDB.Db.FileStore

open Format TableFiles VersionBuilder CompactionPick Lookup Library

variable {K V : Type*}

/-- Two runs of entries without a common internal key. -/
def NoCommonKey (a b : List (Entry K V)) : Prop := ∀ x ∈ a, ∀ y ∈ b, x.key ≠ y.key

theorem NoCommonKey.symm {a b : List (Entry K V)} (h : NoCommonKey a b) : NoCommonKey b a :=
  fun x hx y hy ↦ (h y hy x hx).symm

variable [LinearOrder K]

/-- Two files that do not overlap in internal-key order. -/
def Apart (f g : FileMetaData K) : Prop := f.largest < g.smallest ∨ g.largest < f.smallest

theorem Apart.symm {f g : FileMetaData K} (h : Apart f g) : Apart g f := Or.symm h

structure WellStored (files : ℕ → List (FileMetaData K)) (tables : ℕ → List (Entry K V))
    (nextFileNumber : ℕ) : Prop where
  last : ∀ level, kNumLevels ≤ level → files level = []
  ordered : ∀ level, Ordered (files level)
  sorted : ∀ level, level ≠ 0 → SortedLevel (files level)
  table : ∀ level, ∀ f ∈ files level, TableOf f (tables f.number)
  number_lt : ∀ level, ∀ f ∈ files level, f.number < nextFileNumber
  number_inj : ∀ i, ∀ f ∈ files i, ∀ j, ∀ g ∈ files j, f.number = g.number → i = j ∧ f = g
  keys : ∀ i, ∀ f ∈ files i, ∀ j, ∀ g ∈ files j, f.number ≠ g.number →
    NoCommonKey (tables f.number) (tables g.number)

theorem wellStored_empty (tables : ℕ → List (Entry K V)) (nextFileNumber : ℕ) :
    WellStored (fun _ ↦ []) tables nextFileNumber where
  last _ _ := rfl
  ordered _ := .nil
  sorted _ _ := ⟨.nil, by simp⟩
  table := by simp
  number_lt := by simp
  number_inj := by simp
  keys := by simp

theorem Ordered.ne {files : List (FileMetaData K)} (h : Ordered files) : files.Pairwise fun f g ↦ f ≠ g :=
  h.imp fun hlt heq ↦ (heq ▸ hlt).false

theorem sortedLevel_of_apart {files : List (FileMetaData K)} (hordered : Ordered files)
    (hvalid : ∀ f ∈ files, f.smallest ≤ f.largest)
    (hapart : ∀ f ∈ files, ∀ g ∈ files, f ≠ g → Apart f g) : SortedLevel files := by
  refine ⟨?_, hvalid⟩
  have hboth := (hordered.smallest_le.and (Ordered.ne hordered))
  apply hboth.imp_of_mem
  rintro f g hf hg ⟨hle, hne⟩
  refine (hapart f hf g hg hne).resolve_right fun hlt ↦ ?_
  exact absurd ((hvalid g hg).trans_lt hlt) (not_lt.mpr hle)

namespace WellStored

variable {files : ℕ → List (FileMetaData K)} {tables : ℕ → List (Entry K V)} {nextFileNumber : ℕ}

section

variable (h : WellStored files tables nextFileNumber)
include h

theorem number_ne (level : ℕ) : (files level).Pairwise fun f g ↦ f.number ≠ g.number := by
  apply (Ordered.ne (h.ordered level)).imp_of_mem
  intro f g hf hg hne heq
  exact hne (h.number_inj level f hf level g hg heq).2

theorem update (entries : List (Entry K V)) :
    WellStored files (Function.update tables nextFileNumber entries) (nextFileNumber + 1) := by
  have htables : ∀ level, ∀ f ∈ files level,
      Function.update tables nextFileNumber entries f.number = tables f.number :=
    fun level f hf ↦ Function.update_of_ne (h.number_lt level f hf).ne _ _
  refine ⟨h.last, h.ordered, h.sorted, ?_, ?_, h.number_inj, ?_⟩
  · intro level f hf
    rw [htables level f hf]
    exact h.table level f hf
  · exact fun level f hf ↦ (h.number_lt level f hf).trans (Nat.lt_succ_self _)
  · intro i f hf j g hg hne
    rw [htables i f hf, htables j g hg]
    exact h.keys i f hf j g hg hne

theorem mono {next : ℕ} (hle : nextFileNumber ≤ next) : WellStored files tables next :=
  { h with number_lt := fun level f hf ↦ (h.number_lt level f hf).trans_le hle }

end

end WellStored

def Stays (files : ℕ → List (FileMetaData K)) (edit : VersionEdit K) (level : ℕ)
    (f : FileMetaData K) : Prop :=
  f ∈ files level ∧ f.number ∉ edit.deletedAt level

structure Applicable (files : ℕ → List (FileMetaData K)) (tables : ℕ → List (Entry K V))
    (nextFileNumber : ℕ) (edit : VersionEdit K) : Prop where
  level_lt : ∀ level, ∀ f ∈ edit.newAt level, level < kNumLevels
  number_inj : ∀ i, ∀ f ∈ edit.newAt i, ∀ j, ∀ g ∈ edit.newAt j, f.number = g.number → i = j ∧ f = g
  nodup : ∀ level, ((edit.newAt level).map FileMetaData.number).Nodup
  number_lt : ∀ level, ∀ f ∈ edit.newAt level, f.number < nextFileNumber
  fresh : ∀ level, ∀ f ∈ edit.newAt level, ∀ j, ∀ g ∈ files j, g.number ≠ f.number
  table : ∀ level, ∀ f ∈ edit.newAt level, TableOf f (tables f.number)
  keys_new : ∀ i, ∀ f ∈ edit.newAt i, ∀ j, ∀ g ∈ edit.newAt j, f.number ≠ g.number →
    NoCommonKey (tables f.number) (tables g.number)
  keys_old : ∀ i, ∀ f ∈ edit.newAt i, ∀ j g, Stays files edit j g →
    NoCommonKey (tables f.number) (tables g.number)
  apart_new : ∀ level, level ≠ 0 → ∀ f ∈ edit.newAt level, ∀ g ∈ edit.newAt level, f ≠ g → Apart f g
  apart_old : ∀ level, level ≠ 0 → ∀ f ∈ edit.newAt level, ∀ g, Stays files edit level g → Apart f g

section Edit

variable {files : ℕ → List (FileMetaData K)} {tables : ℕ → List (Entry K V)} {nextFileNumber : ℕ}
  {edit : VersionEdit K}

theorem Applicable.freshAt (ha : Applicable files tables nextFileNumber edit) (level : ℕ) :
    FreshAt files edit level :=
  ⟨ha.nodup level, fun f hf g hg ↦ ha.fresh level f hf level g hg⟩

theorem editedFiles_last {level : ℕ} (hlevel : kNumLevels ≤ level) : editedFiles files edit level = [] := by
  unfold editedFiles savedFiles
  exact if_neg (Nat.not_lt.mpr hlevel)

theorem Applicable.mem_editedFiles (ha : Applicable files tables nextFileNumber edit)
    (hlast : ∀ level, kNumLevels ≤ level → files level = []) (level : ℕ) (f : FileMetaData K) :
    f ∈ editedFiles files edit level ↔ Stays files edit level f ∨ f ∈ edit.newAt level := by
  by_cases hlevel : level < kNumLevels
  · exact VersionBuilder.mem_editedFiles hlevel (ha.freshAt level)
  · rw [editedFiles_last (Nat.not_lt.mp hlevel)]
    simp only [List.not_mem_nil, Stays, hlast level (Nat.not_lt.mp hlevel), false_and, false_or, false_iff]
    exact fun hf ↦ hlevel (ha.level_lt level f hf)

theorem WellStored.applied (h : WellStored files tables nextFileNumber)
    (ha : Applicable files tables nextFileNumber edit) :
    WellStored (editedFiles files edit) tables nextFileNumber := by
  have hmem := ha.mem_editedFiles h.last
  have hordered : ∀ level, Ordered (editedFiles files edit level) :=
    fun level ↦ editedFiles_ordered (ha.freshAt level) (h.ordered level)
  have htable : ∀ level, ∀ f ∈ editedFiles files edit level, TableOf f (tables f.number) := by
    intro level f hf
    rcases (hmem level f).mp hf with hf | hf
    · exact h.table level f hf.1
    · exact ha.table level f hf
  refine ⟨fun level ↦ editedFiles_last, hordered, ?_, htable, ?_, ?_, ?_⟩
  · intro level hlevel
    apply sortedLevel_of_apart (hordered level) fun f hf ↦ (htable level f hf).valid
    intro f hf g hg hne
    rcases (hmem level f).mp hf with hf | hf <;> rcases (hmem level g).mp hg with hg | hg
    · exact ((h.sorted level hlevel).eq_or_lt hf.1 hg.1).resolve_left hne
    · exact (ha.apart_old level hlevel g hg f hf).symm
    · exact ha.apart_old level hlevel f hf g hg
    · exact ha.apart_new level hlevel f hf g hg hne
  · intro level f hf
    rcases (hmem level f).mp hf with hf | hf
    · exact h.number_lt level f hf.1
    · exact ha.number_lt level f hf
  · intro i f hf j g hg heq
    rcases (hmem i f).mp hf with hf | hf <;> rcases (hmem j g).mp hg with hg | hg
    · exact h.number_inj i f hf.1 j g hg.1 heq
    · exact absurd heq (ha.fresh j g hg i f hf.1)
    · exact absurd heq.symm (ha.fresh i f hf j g hg.1)
    · exact ha.number_inj i f hf j g hg heq
  · intro i f hf j g hg hne
    rcases (hmem i f).mp hf with hf | hf <;> rcases (hmem j g).mp hg with hg | hg
    · exact h.keys i f hf.1 j g hg.1 hne
    · exact (ha.keys_old j g hg i f hf).symm
    · exact ha.keys_old i f hf j g hg
    · exact ha.keys_new i f hf j g hg hne

/-- `SaveTo` runs into no assertion when the files come out well stored. -/
theorem saveTo_eq_editedFiles (h : WellStored (editedFiles files edit) tables nextFileNumber) :
    (Builder.empty.apply edit).saveTo files = some (editedFiles files edit) := by
  apply saveTo_of_separated
  intro level hpos hlevel
  have hsorted := h.sorted level (Nat.pos_iff_ne_zero.mp hpos)
  have heq : editedFiles files edit level = keptFiles (Builder.empty.apply edit level) (files level) := by
    unfold editedFiles savedFiles
    exact if_pos hlevel
  rw [heq] at hsorted
  exact hsorted.ordered.isChain

end Edit

end LevelDB.Db.FileStore
