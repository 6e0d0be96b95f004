import LevelDB.Db.Format
import LevelDB.Util.Coding
import LevelDB.Util.Comparator

/-!
# Encoded internal keys

Internal keys as the byte strings that tables hold: a user key and eight bytes of tag.
`InternalKeyComparator` of `db/dbformat.cpp` is made from a comparator of user keys.
-/

namespace LevelDB.Db.EncodedKeys

open Util Util.Coding Db.Format List

def extractUserKey (internalKey : List UInt8) : List UInt8 := internalKey.take (internalKey.length - 8)

/-- `DecodeFixed64` of the last eight bytes. -/
def extractTag (internalKey : List UInt8) : ℕ := decodeFixed (internalKey.drop (internalKey.length - 8))

def appendInternalKey (result : List UInt8) (key : ParsedInternalKey (List UInt8)) : List UInt8 :=
  result ++ key.userKey ++ encodeFixed 8 (packSequenceAndType key.sequence key.type)

def parseEncodedKey (internalKey : List UInt8) : Option (ParsedInternalKey (List UInt8)) :=
  if internalKey.length < 8 then none
  else parseInternalKey ⟨extractUserKey internalKey, extractTag internalKey⟩

/-- `LookupKey::internal_key`. -/
def encodedLookupKey (userKey : List UInt8) (s : ℕ) : List UInt8 :=
  userKey ++ encodeFixed 8 (packSequenceAndType s kValueTypeForSeek)

theorem extractUserKey_append (userKey : List UInt8) (tag : ℕ) :
    extractUserKey (userKey ++ encodeFixed 8 tag) = userKey := by
  apply take_left'
  rw [length_append, length_encodeFixed, Nat.add_sub_cancel]

theorem extractTag_append {userKey : List UInt8} {tag : ℕ} (h : tag < 2 ^ 64) :
    extractTag (userKey ++ encodeFixed 8 tag) = tag := by
  have hdrop : (userKey ++ encodeFixed 8 tag).drop ((userKey ++ encodeFixed 8 tag).length - 8) =
      encodeFixed 8 tag := by
    apply drop_left'
    rw [length_append, length_encodeFixed, Nat.add_sub_cancel]
  rw [extractTag, hdrop]
  exact decodeFixed_encodeFixed h

theorem packSequenceAndType_lt {seq : ℕ} (h : seq ≤ kMaxSequenceNumber) (t : ValueType) :
    packSequenceAndType seq t < 2 ^ 64 := by
  have hcode := t.code_le_one
  unfold packSequenceAndType
  unfold kMaxSequenceNumber at h
  omega

theorem parseEncodedKey_appendInternalKey {key : ParsedInternalKey (List UInt8)}
    (h : key.sequence ≤ kMaxSequenceNumber) : parseEncodedKey (appendInternalKey [] key) = some key := by
  have hlength : ¬(appendInternalKey [] key).length < 8 := by
    rw [appendInternalKey, length_append, length_encodeFixed]
    omega
  rw [parseEncodedKey, if_neg hlength, appendInternalKey, nil_append, extractUserKey_append,
    extractTag_append (packSequenceAndType_lt h key.type)]
  exact parseInternalKey_mk' key.userKey key.sequence key.type

section Comparator

variable {τ : Type*} [LinearOrder τ] (user : Comparator τ)

/-- What `InternalKeyComparator::Compare` compares. -/
def internalRank (internalKey : List UInt8) : InternalKey τ :=
  ⟨user.rank (extractUserKey internalKey), extractTag internalKey⟩

/-- `InternalKeyComparator::Compare`. -/
def compareEncoded (a b : List UInt8) : Ordering :=
  internalKeyCompare (internalRank user a) (internalRank user b)

def tackOnEarliest (userKey : List UInt8) : List UInt8 :=
  userKey ++ encodeFixed 8 (packSequenceAndType kMaxSequenceNumber kValueTypeForSeek)

/-- `InternalKeyComparator::FindShortestSeparator`; `none` is a failed assertion. -/
def findShortestSeparator (start limit : List UInt8) : Option (List UInt8) :=
  let userStart := extractUserKey start
  let userLimit := extractUserKey limit
  let tmp := user.findShortestSeparator userStart userLimit
  if tmp.length < userStart.length ∧ user.rank userStart < user.rank tmp then
    -- the user key has become shorter physically, but larger logically
    let tmp := tackOnEarliest tmp
    if internalRank user start < internalRank user tmp ∧ internalRank user tmp < internalRank user limit then
      some tmp
    else none
  else some start

/-- `InternalKeyComparator::FindShortSuccessor`. -/
def findShortSuccessor (key : List UInt8) : Option (List UInt8) :=
  let userKey := extractUserKey key
  let tmp := user.findShortSuccessor userKey
  if tmp.length < userKey.length ∧ user.rank userKey < user.rank tmp then
    let tmp := tackOnEarliest tmp
    if internalRank user key < internalRank user tmp then some tmp else none
  else some key

variable {user}

/-- Between two versions of one user key nothing is shortened; a shortened separator is before the user key of
the limit. -/
theorem findShortestSeparator_spec {start limit sep : List UInt8}
    (h : findShortestSeparator user start limit = some sep) :
    sep = start ∨ user.rank (extractUserKey sep) < user.rank (extractUserKey limit) := by
  simp only [findShortestSeparator] at h
  split at h
  · rename_i hshorter
    split at h
    · rename_i hbetween
      cases h
      right
      have hlimit := InternalKey.userKey_le_of_lt hbetween.2
      simp only [internalRank, tackOnEarliest, extractUserKey_append] at hlimit ⊢
      exact (user.separator_mem (hshorter.2.trans_le hlimit)).2
    · cases h
  · cases h
    exact .inl rfl

theorem compareEncoded_eq_lt {a b : List UInt8} :
    compareEncoded user a b = .lt ↔ internalRank user a < internalRank user b := by
  rw [compareEncoded, internalKeyCompare_eq_cmp, cmp_eq_lt_iff]

theorem compareEncoded_ne_gt {a b : List UInt8} :
    compareEncoded user a b ≠ .gt ↔ internalRank user a ≤ internalRank user b := by
  rw [compareEncoded, internalKeyCompare_eq_cmp, ne_eq, cmp_eq_gt_iff, not_lt]

/-- What is left of a key: the key itself, or a shorter key that parses. -/
def Shortened (key shortened : List UInt8) : Prop :=
  shortened = key ∨ shortened.length < key.length ∧ (parseEncodedKey shortened).isSome = true

theorem Shortened.wellFormed {key shortened : List UInt8} (h : Shortened key shortened) (hkey : 8 ≤ key.length) :
    8 ≤ shortened.length ∧ shortened.length ≤ key.length ∧
      ((parseEncodedKey key).isSome = true → (parseEncodedKey shortened).isSome = true) := by
  rcases h with rfl | ⟨hlength, hparse⟩
  · exact ⟨hkey, le_rfl, id⟩
  · refine ⟨not_lt.mp fun hshort ↦ ?_, hlength.le, fun _ ↦ hparse⟩
    rw [parseEncodedKey, if_pos hshort] at hparse
    exact absurd hparse (by decide)

theorem shortened_tackOnEarliest {key userKey : List UInt8} (hkey : 8 ≤ key.length)
    (h : userKey.length < (extractUserKey key).length) : Shortened key (tackOnEarliest userKey) := by
  have hparse : parseEncodedKey (appendInternalKey [] ⟨userKey, kMaxSequenceNumber, kValueTypeForSeek⟩) = some _ :=
    parseEncodedKey_appendInternalKey le_rfl
  refine .inr ⟨?_, Option.isSome_of_mem hparse⟩
  rw [extractUserKey, length_take] at h
  rw [tackOnEarliest, length_append, length_encodeFixed]
  omega

theorem internalRank_tackOnEarliest_lt {key userKey : List UInt8}
    (h : user.rank userKey < user.rank (extractUserKey key)) :
    internalRank user (tackOnEarliest userKey) < internalRank user key := by
  left
  simpa only [internalRank, tackOnEarliest, extractUserKey_append] using h

theorem internalRank_lt_tackOnEarliest {key userKey : List UInt8}
    (h : user.rank (extractUserKey key) < user.rank userKey) :
    internalRank user key < internalRank user (tackOnEarliest userKey) := by
  left
  simpa only [internalRank, tackOnEarliest, extractUserKey_append] using h

/-- The separator is in `[start,limit)`, for a user comparator that does not shorten between equal keys (which
its contract leaves open). -/
theorem findShortestSeparator_between {start limit : List UInt8} (hstart : 8 ≤ start.length)
    (hequal : user.rank (extractUserKey start) = user.rank (extractUserKey limit) →
      user.findShortestSeparator (extractUserKey start) (extractUserKey limit) = extractUserKey start)
    (hlt : internalRank user start < internalRank user limit) :
    ∃ sep, findShortestSeparator user start limit = some sep ∧ internalRank user start ≤ internalRank user sep ∧
      internalRank user sep < internalRank user limit ∧ Shortened start sep := by
  unfold findShortestSeparator
  set tmp := user.findShortestSeparator (extractUserKey start) (extractUserKey limit)
  by_cases hshorter : tmp.length < (extractUserKey start).length ∧
      user.rank (extractUserKey start) < user.rank tmp
  · have huser : user.rank (extractUserKey start) < user.rank (extractUserKey limit) := by
      refine (InternalKey.userKey_le_of_lt hlt).lt_of_ne fun heq ↦ ?_
      exact hshorter.1.ne (congrArg List.length (hequal heq))
    have habove := internalRank_lt_tackOnEarliest hshorter.2
    have hbelow := internalRank_tackOnEarliest_lt (user.separator_mem huser).2
    refine ⟨tackOnEarliest tmp, ?_, habove.le, hbelow, shortened_tackOnEarliest hstart hshorter.1⟩
    exact (if_pos hshorter).trans (if_pos ⟨habove, hbelow⟩)
  · exact ⟨start, if_neg hshorter, le_rfl, hlt, .inl rfl⟩

theorem findShortSuccessor_ge {key : List UInt8} (hkey : 8 ≤ key.length) :
    ∃ succ, findShortSuccessor user key = some succ ∧ internalRank user key ≤ internalRank user succ ∧
      Shortened key succ := by
  unfold findShortSuccessor
  set tmp := user.findShortSuccessor (extractUserKey key)
  by_cases hshorter : tmp.length < (extractUserKey key).length ∧ user.rank (extractUserKey key) < user.rank tmp
  · have habove := internalRank_lt_tackOnEarliest hshorter.2
    refine ⟨tackOnEarliest tmp, ?_, habove.le, shortened_tackOnEarliest hkey hshorter.1⟩
    exact (if_pos hshorter).trans (if_pos habove)
  · exact ⟨key, if_neg hshorter, le_rfl, .inl rfl⟩

end Comparator

/-- Separators and successors of the bytewise comparator and of the internal keys over it. -/
theorem separators_and_successors : (∀ start limit, Bytewise.compare start limit = .lt →
      ∃ r, Bytewise.findShortestSeparator start limit = some r ∧ Bytewise.compare start r ≠ .gt ∧
        Bytewise.compare r limit = .lt) ∧
    (∀ key, Bytewise.compare key (Bytewise.findShortSuccessor key) ≠ .gt) ∧
    (∀ start limit, 8 ≤ start.length → 8 ≤ limit.length → compareEncoded bytewise start limit = .lt →
      ∃ r, findShortestSeparator bytewise start limit = some r ∧ compareEncoded bytewise start r ≠ .gt ∧
        compareEncoded bytewise r limit = .lt ∧ 8 ≤ r.length ∧ r.length ≤ start.length ∧
        ((parseEncodedKey start).isSome = true → (parseEncodedKey r).isSome = true)) ∧
    (∀ key, 8 ≤ key.length →
      ∃ r, findShortSuccessor bytewise key = some r ∧ compareEncoded bytewise key r ≠ .gt ∧ 8 ≤ r.length ∧
        r.length ≤ key.length ∧ ((parseEncodedKey key).isSome = true → (parseEncodedKey r).isSome = true)) := by
  refine ⟨fun start limit hlt ↦ ?_, fun key ↦ ?_, fun start limit hstart _ hlt ↦ ?_, fun key hkey ↦ ?_⟩
  · rcases Bytewise.findShortestSeparator_cases start limit with h | ⟨sep, h, habove, hbelow, -⟩
    · exact ⟨start, h, Bytewise.compare_ne_gt.mpr le_rfl, hlt⟩
    · exact ⟨sep, h, Bytewise.compare_ne_gt.mpr habove.le, Bytewise.compare_eq_lt.mpr hbelow⟩
  · exact Bytewise.compare_ne_gt.mpr (Bytewise.rank_le_findShortSuccessor key)
  · obtain ⟨sep, hsep, habove, hbelow, hshort⟩ := findShortestSeparator_between hstart
      (fun heq ↦ bytewise_separator_le heq.ge) (compareEncoded_eq_lt.mp hlt)
    exact ⟨sep, hsep, compareEncoded_ne_gt.mpr habove, compareEncoded_eq_lt.mpr hbelow, hshort.wellFormed hstart⟩
  · obtain ⟨succ, hsucc, habove, hshort⟩ := @findShortSuccessor_ge _ _ bytewise key hkey
    exact ⟨succ, hsucc, compareEncoded_ne_gt.mpr habove, hshort.wellFormed hkey⟩

/-- A separator between two internal keys: `"abc"` at 5 and `"ax"` at 3 are separated by `"ac"` at the largest
sequence number. -/
theorem separator_between_abc_ax :
    ∃ r, findShortestSeparator bytewise (encodedLookupKey [97, 98, 99] 5) (encodedLookupKey [97, 120] 3) = some r ∧
      compareEncoded bytewise r (encodedLookupKey [97, 120] 3) = .lt := by
  obtain ⟨r, hr, -, hlt, -⟩ := separators_and_successors.2.2.1 (encodedLookupKey [97, 98, 99] 5)
    (encodedLookupKey [97, 120] 3) (by decide) (by decide) (by decide)
  exact ⟨r, hr, hlt⟩

end LevelDB.Db.EncodedKeys
