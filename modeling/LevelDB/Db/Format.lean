import LevelDB.Library.Newest
import Mathlib.Order.Compare
import Mathlib.Data.Nat.Basic
import Mathlib.Tactic

/-!
# Internal keys

The data model of `db/dbformat.h` and `db/dbformat.cpp`.  An internal key is a user key followed by
a 64-bit tag that packs a sequence number and a value type.  The user comparator is the linear order
of the user-key type.  `InternalKeyComparator` orders by increasing user key and then by decreasing
tag; it is shown to be the comparison of the `LinearOrder` instance used in the rest of the model.
-/

namespace LevelDB.Db.Format

def kNumLevels : ℕ := 7

/-- Level-0 compaction is started when we hit this many files. -/
def kL0CompactionTrigger : ℕ := 4

/-- Soft limit on the number of level-0 files.  Writes are slowed down at this point. -/
def kL0SlowdownWritesTrigger : ℕ := 8

/-- Maximum number of level-0 files.  Writes stop at this point. -/
def kL0StopWritesTrigger : ℕ := 12

/-- Maximum level to which a new compacted memtable is pushed if it does not create overlap. -/
def kMaxMemCompactLevel : ℕ := 2

/-- Eight bits are left empty at the bottom so that type and sequence pack into 64 bits. -/
def kMaxSequenceNumber : ℕ := 2 ^ 56 - 1

inductive ValueType where
  | kTypeDeletion
  | kTypeValue
  deriving DecidableEq, Repr

/-- The enum values embedded in the on-disk data structures. -/
def ValueType.code : ValueType → ℕ
  | .kTypeDeletion => 0
  | .kTypeValue => 1

@[simp]
theorem ValueType.code_kTypeDeletion : ValueType.kTypeDeletion.code = 0 := rfl

@[simp]
theorem ValueType.code_kTypeValue : ValueType.kTypeValue.code = 1 := rfl

/-- The highest-numbered type, since the low byte of the tag is sorted in decreasing order. -/
def kValueTypeForSeek : ValueType := .kTypeValue

theorem ValueType.code_le_one (type : ValueType) : type.code ≤ 1 := by
  cases type <;> simp [code]

def packSequenceAndType (seq : ℕ) (t : ValueType) : ℕ := seq * 256 + t.code

theorem packSequenceAndType_div (seq : ℕ) (t : ValueType) : packSequenceAndType seq t / 256 = seq := by
  have := t.code_le_one
  unfold packSequenceAndType
  omega

theorem packSequenceAndType_mod (seq : ℕ) (t : ValueType) : packSequenceAndType seq t % 256 = t.code := by
  have := t.code_le_one
  unfold packSequenceAndType
  omega

@[ext]
structure InternalKey (K : Type*) where
  userKey : K
  tag : ℕ
  deriving DecidableEq, Repr

structure ParsedInternalKey (K : Type*) where
  userKey : K
  sequence : ℕ
  type : ValueType
  deriving DecidableEq, Repr

variable {K : Type*}

def InternalKey.mk' (userKey : K) (seq : ℕ) (t : ValueType) : InternalKey K :=
  ⟨userKey, packSequenceAndType seq t⟩

/-- The parse fails exactly when the low byte of the tag is above `kTypeValue`. -/
def parseInternalKey (key : InternalKey K) : Option (ParsedInternalKey K) :=
  if key.tag % 256 = 0 then some ⟨key.userKey, key.tag / 256, .kTypeDeletion⟩
  else if key.tag % 256 = 1 then some ⟨key.userKey, key.tag / 256, .kTypeValue⟩
  else none

theorem parseInternalKey_eq_some {key : InternalKey K} {parsed : ParsedInternalKey K} :
    parseInternalKey key = some parsed ↔
      key = InternalKey.mk' parsed.userKey parsed.sequence parsed.type := by
  obtain ⟨userKey, tag⟩ := key
  obtain ⟨userKey', sequence, type⟩ := parsed
  unfold parseInternalKey InternalKey.mk'
  simp only [InternalKey.mk.injEq]
  constructor
  · intro h
    unfold packSequenceAndType
    split at h
    · simp only [Option.some.injEq, ParsedInternalKey.mk.injEq] at h
      obtain ⟨rfl, rfl, rfl⟩ := h
      exact ⟨rfl, by rw [ValueType.code_kTypeDeletion]; omega⟩
    · split at h
      · simp only [Option.some.injEq, ParsedInternalKey.mk.injEq] at h
        obtain ⟨rfl, rfl, rfl⟩ := h
        exact ⟨rfl, by rw [ValueType.code_kTypeValue]; omega⟩
      · cases h
  · rintro ⟨rfl, rfl⟩
    rw [packSequenceAndType_mod, packSequenceAndType_div]
    cases type <;> rfl

@[simp]
theorem parseInternalKey_mk' (userKey : K) (seq : ℕ) (t : ValueType) :
    parseInternalKey (InternalKey.mk' userKey seq t) = some ⟨userKey, seq, t⟩ :=
  parseInternalKey_eq_some.mpr rfl

section Order

variable [LinearOrder K]

instance : LE (InternalKey K) := ⟨fun a b ↦ a.userKey < b.userKey ∨ a.userKey = b.userKey ∧ b.tag ≤ a.tag⟩

instance : LT (InternalKey K) := ⟨fun a b ↦ a.userKey < b.userKey ∨ a.userKey = b.userKey ∧ b.tag < a.tag⟩

theorem InternalKey.le_iff {a b : InternalKey K} :
    a ≤ b ↔ a.userKey < b.userKey ∨ a.userKey = b.userKey ∧ b.tag ≤ a.tag := Iff.rfl

theorem InternalKey.lt_iff {a b : InternalKey K} :
    a < b ↔ a.userKey < b.userKey ∨ a.userKey = b.userKey ∧ b.tag < a.tag := Iff.rfl

instance : DecidableLE (InternalKey K) := fun a b ↦
  inferInstanceAs (Decidable (a.userKey < b.userKey ∨ a.userKey = b.userKey ∧ b.tag ≤ a.tag))

instance : DecidableLT (InternalKey K) := fun a b ↦
  inferInstanceAs (Decidable (a.userKey < b.userKey ∨ a.userKey = b.userKey ∧ b.tag < a.tag))

instance : LinearOrder (InternalKey K) where
  le_refl a := .inr ⟨rfl, le_rfl⟩
  le_trans a b c hab hbc := by
    rcases hab with hab | ⟨hab, htab⟩ <;> rcases hbc with hbc | ⟨hbc, htbc⟩
    · exact .inl (hab.trans hbc)
    · exact .inl (hbc ▸ hab)
    · exact .inl (hab ▸ hbc)
    · exact .inr ⟨hab.trans hbc, htbc.trans htab⟩
  le_antisymm a b hab hba := by
    rcases hab with hab | ⟨hab, htab⟩ <;> rcases hba with hba | ⟨hba, htba⟩
    · exact absurd hab hba.asymm
    · exact absurd hba hab.ne'
    · exact absurd hab hba.ne'
    · exact InternalKey.ext hab (le_antisymm htba htab)
  le_total a b := by
    rcases lt_trichotomy a.userKey b.userKey with h | h | h
    · exact .inl (.inl h)
    · rcases le_total b.tag a.tag with ht | ht
      · exact .inl (.inr ⟨h, ht⟩)
      · exact .inr (.inr ⟨h.symm, ht⟩)
    · exact .inr (.inl h)
  lt_iff_le_not_ge a b := by
    simp only [InternalKey.le_iff, InternalKey.lt_iff]
    constructor
    · rintro (h | ⟨h, ht⟩)
      · exact ⟨.inl h, fun h' ↦ h'.elim h.asymm fun h' ↦ h.ne' h'.1⟩
      · exact ⟨.inr ⟨h, ht.le⟩, fun h' ↦ h'.elim (fun h' ↦ h'.ne' h) fun h' ↦ by omega⟩
    · rintro ⟨h | ⟨h, ht⟩, hnot⟩
      · exact .inl h
      · refine .inr ⟨h, lt_of_not_ge fun hle ↦ hnot (.inr ⟨h.symm, hle⟩)⟩
  toDecidableLE := inferInstance
  toDecidableLT := inferInstance

/-- `InternalKeyComparator::Compare`, as the source computes it. -/
def internalKeyCompare (a b : InternalKey K) : Ordering :=
  match cmp a.userKey b.userKey with
  | .eq => if a.tag > b.tag then .lt else if a.tag < b.tag then .gt else .eq
  | r => r

/-- The order of the model is the comparator of the source. -/
theorem internalKeyCompare_eq_cmp (a b : InternalKey K) : internalKeyCompare a b = cmp a b := by
  symm
  unfold internalKeyCompare
  rcases lt_trichotomy a.userKey b.userKey with h | h | h
  · rw [h.cmp_eq_lt, cmp_eq_lt_iff]
    exact .inl h
  · rw [cmp_eq_eq_iff _ _ |>.mpr h]
    rcases lt_trichotomy b.tag a.tag with hgt | heq | hlt
    · exact ((cmp_eq_lt_iff a b).mpr (.inr ⟨h, hgt⟩)).trans (if_pos hgt).symm
    · have hcmp : cmp a b = .eq := (cmp_eq_eq_iff a b).mpr (InternalKey.ext h heq.symm)
      exact hcmp.trans ((if_neg heq.not_lt).trans (if_neg heq.not_gt)).symm
    · have hcmp : cmp a b = .gt := (cmp_eq_gt_iff a b).mpr (.inr ⟨h.symm, hlt⟩)
      exact hcmp.trans ((if_neg hlt.asymm).trans (if_pos hlt)).symm
  · rw [h.cmp_eq_gt, cmp_eq_gt_iff]
    exact .inl h

theorem InternalKey.userKey_le_of_le {a b : InternalKey K} (h : a ≤ b) : a.userKey ≤ b.userKey :=
  h.elim le_of_lt fun h ↦ h.1.le

theorem InternalKey.userKey_le_of_lt {a b : InternalKey K} (h : a < b) : a.userKey ≤ b.userKey :=
  InternalKey.userKey_le_of_le h.le

theorem InternalKey.lt_of_userKey_lt {a b : InternalKey K} (h : a.userKey < b.userKey) : a < b := .inl h

theorem InternalKey.tag_lt_of_lt {a b : InternalKey K} (h : a < b) (huser : a.userKey = b.userKey) :
    b.tag < a.tag := by
  rcases h with h | h
  · exact absurd huser h.ne
  · exact h.2

end Order

/-- An entry of a memtable or a table file. -/
@[ext]
structure Entry (K V : Type*) where
  key : InternalKey K
  value : V
  deriving DecidableEq, Repr

namespace Entry

variable {V : Type*}

def userKey (e : Entry K V) : K := e.key.userKey

def tag (e : Entry K V) : ℕ := e.key.tag

def sequence (e : Entry K V) : ℕ := e.key.tag / 256

def type (e : Entry K V) : Option ValueType := (parseInternalKey e.key).map ParsedInternalKey.type

/-- The value of a `kTypeValue` entry; a deletion has none. -/
def resolve (e : Entry K V) : Option V :=
  match e.type with
  | some .kTypeValue => some e.value
  | _ => none

theorem parseInternalKey_key (e : Entry K V) :
    parseInternalKey e.key = e.type.map fun type ↦ ⟨e.userKey, e.sequence, type⟩ := by
  cases hparse : parseInternalKey e.key with
  | none => simp [type, hparse]
  | some parsed =>
    have hkey := parseInternalKey_eq_some.mp hparse
    rw [type, hparse]
    simp only [Option.map_some, userKey, sequence, hkey, InternalKey.mk', packSequenceAndType_div]

theorem tag_eq {e : Entry K V} {t : ValueType} (h : e.type = some t) :
    e.tag = packSequenceAndType e.sequence t := by
  have hparse := parseInternalKey_key e
  rw [h, Option.map_some, parseInternalKey_eq_some] at hparse
  exact congrArg InternalKey.tag hparse

theorem sequence_le_of_tag_le {e x : Entry K V} (h : x.tag ≤ e.tag) : x.sequence ≤ e.sequence :=
  Nat.div_le_div_right h

theorem key_le_iff [LinearOrder K] {e x : Entry K V} (h : e.userKey = x.userKey) :
    e.key ≤ x.key ↔ x.tag ≤ e.tag := by
  have hne : ¬e.key.userKey < x.key.userKey := fun hlt ↦ hlt.ne h
  simp only [InternalKey.le_iff, hne, false_or, Entry.tag]
  exact and_iff_right h

end Entry

def lookupKey (userKey : K) (s : ℕ) : InternalKey K := InternalKey.mk' userKey s kValueTypeForSeek

/-- Strictly sorted by internal key, as tables, memtables and merged inputs are. -/
def SortedEntries {V : Type*} [LinearOrder K] (entries : List (Entry K V)) : Prop :=
  entries.Pairwise fun a b ↦ a.key < b.key

theorem SortedEntries.eq_of_key {V : Type*} [LinearOrder K] {entries : List (Entry K V)}
    (h : SortedEntries entries) {a b : Entry K V} (ha : a ∈ entries) (hb : b ∈ entries)
    (hkey : a.key = b.key) : a = b := by
  by_contra hne
  have hkeys : entries.Pairwise fun a b ↦ a.key ≠ b.key := h.imp fun hlt ↦ hlt.ne
  have hsymm : Std.Symm fun a b : Entry K V ↦ a.key ≠ b.key := ⟨fun _ _ ↦ Ne.symm⟩
  exact hkeys.forall ha hb hne hkey

def snapshotTag (s : ℕ) : ℕ := packSequenceAndType s kValueTypeForSeek

variable {V : Type*}

theorem Entry.tag_le_snapshotTag {e : Entry K V} (h : e.type.isSome) (s : ℕ) :
    e.tag ≤ snapshotTag s ↔ e.sequence ≤ s := by
  obtain ⟨t, ht⟩ := Option.isSome_iff_exists.mp h
  have := t.code_le_one
  rw [Entry.tag_eq ht]
  simp only [snapshotTag, packSequenceAndType, kValueTypeForSeek, ValueType.code_kTypeValue]
  omega

def parsed (entries : Set (Entry K V)) : Set (Entry K V) := {e ∈ entries | e.type.isSome}

/-- The newest entry of `userKey` with a sequence up to `s` has this value, or there is none or it is
a deletion. -/
def Resolves (entries : Set (Entry K V)) (userKey : K) (s : ℕ) (result : Option V) : Prop :=
  Library.Newest.Reads Entry.userKey Entry.tag Entry.resolve (parsed entries) userKey (snapshotTag s)
    result

end LevelDB.Db.Format
