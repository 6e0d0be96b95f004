import LevelDB.Db.CompactionPick
import Mathlib.Data.List.Sort

/-!
# Point lookups

`MemTable::Get` of `db/memtable.cpp`, `SaveValue`, `Version::Get` and `Version::UpdateStats` of
`db/version_set.cpp`.  A table or a memtable is a list of entries sorted by internal key, and a
seek in it finds the first entry at or after a key.  The result of the file is that a search of
sorted runs of entries finds the newest entry of a user key up to a sequence number.
-/

namespace LevelDB.Db.Lookup

open Format TableFiles CompactionPick Library List

variable {K V : Type*}

inductive GetStatus (V : Type*) where
  | ok (value : V)
  | notFound
  | corruption
  deriving DecidableEq, Repr

inductive SaverState (V : Type*) where
  | kNotFound
  | kFound (value : V)
  | kDeleted
  | kCorrupt

def GetStatus.ofResolved : Option V → GetStatus V
  | some value => .ok value
  | none => .notFound

def levelEntries (tables : ℕ → List (Entry K V)) (files : List (FileMetaData K)) :
    List (Entry K V) :=
  files.flatMap fun f ↦ tables f.number

theorem mem_levelEntries {tables : ℕ → List (Entry K V)} {files : List (FileMetaData K)}
    {e : Entry K V} : e ∈ levelEntries tables files ↔ ∃ f ∈ files, e ∈ tables f.number :=
  mem_flatMap

variable [LinearOrder K]
  {v : Version K} {tables tables' : ℕ → List (Entry K V)} {entries : List (Entry K V)} {f : FileMetaData K}
  {lkey : InternalKey K}

def seek (entries : List (Entry K V)) (key : InternalKey K) : Option (Entry K V) :=
  entries.find? fun e ↦ decide (key ≤ e.key)

/-- `MemTable::Get`; `none` is the return value `false`. -/
def memTableGet (entries : List (Entry K V)) (lkey : InternalKey K) : Option (GetStatus V) :=
  match seek entries lkey with
  | none => none
  | some e =>
    if e.userKey = lkey.userKey then
      if e.tag % 256 = ValueType.kTypeValue.code then some (.ok e.value)
      else if e.tag % 256 = ValueType.kTypeDeletion.code then some .notFound
      else none
    else none

def saveValue (userKey : K) (e : Entry K V) : SaverState V :=
  match parseInternalKey e.key with
  | none => .kCorrupt
  | some parsed =>
    if parsed.userKey = userKey then
      match parsed.type with
      | .kTypeValue => .kFound e.value
      | .kTypeDeletion => .kDeleted
    else .kNotFound

/-- `TableCache::Get` with `SaveValue` as its callback. -/
def tableGet (entries : List (Entry K V)) (lkey : InternalKey K) : SaverState V :=
  match seek entries lkey with
  | none => .kNotFound
  | some e => saveValue lkey.userKey e

def filesToSearch (v : Version K) (level : ℕ) (lkey : InternalKey K) :
    List (FileMetaData K) :=
  if level = 0 then
    ((v.files 0).filter fun f ↦ decide (f.lo ≤ lkey.userKey ∧ lkey.userKey ≤ f.hi)).insertionSort
      fun f g ↦ g.number ≤ f.number
  else
    match (v.files level)[findFile (v.files level) lkey]? with
    | none => []
    | some f => if lkey.userKey < f.lo then [] else [f]

def searchOrder (v : Version K) (lkey : InternalKey K) : List (FileMetaData K × ℕ) :=
  (List.range kNumLevels).flatMap fun level ↦ (filesToSearch v level lkey).map fun f ↦ (f, level)

def searchFiles (tables : ℕ → List (Entry K V)) (lkey : InternalKey K)
    (lastFileRead seekFile : Option (FileMetaData K × ℕ)) :
    List (FileMetaData K × ℕ) → GetStatus V × Option (FileMetaData K × ℕ)
  | [] => (.notFound, seekFile)
  | f :: rest =>
    -- charge the first of at least two files that are read
    let seekFile := if seekFile.isNone then lastFileRead else seekFile
    match tableGet (tables f.1.number) lkey with
    | .kNotFound => searchFiles tables lkey (some f) seekFile rest
    | .kFound value => (.ok value, seekFile)
    | .kDeleted => (.notFound, seekFile)
    | .kCorrupt => (.corruption, seekFile)

/-- `Version::Get`: its status and the file it charges a seek to. -/
def versionGet (v : Version K) (tables : ℕ → List (Entry K V)) (lkey : InternalKey K) :
    GetStatus V × Option (FileMetaData K × ℕ) :=
  searchFiles tables lkey none none (searchOrder v lkey)

/-- The search goes on after this outcome only. -/
def SaverState.ends : SaverState V → Bool
  | .kNotFound => false
  | _ => true

/-- The file that a lookup charges with a seek.  The read of a file that `ends` the search finds the
key, deleted or corrupted or not, or fails with an error status. -/
def chargedFile (ends : FileMetaData K → Bool) (lastFileRead seekFile : Option (FileMetaData K × ℕ)) :
    List (FileMetaData K × ℕ) → Option (FileMetaData K × ℕ)
  | [] => seekFile
  | f :: rest =>
    let seekFile := if seekFile.isNone then lastFileRead else seekFile
    if ends f.1 then seekFile else chargedFile ends (some f) seekFile rest

/-- `Version::UpdateStats`, with `allowed_seeks` kept by file number. -/
def updateStats (v : Version K) (allowedSeeks : ℕ → ℤ)
    (seekFile : Option (FileMetaData K × ℕ)) : Version K × (ℕ → ℤ) :=
  match seekFile with
  | none => (v, allowedSeeks)
  | some (f, level) =>
    let allowedSeeks := Function.update allowedSeeks f.number (allowedSeeks f.number - 1)
    if allowedSeeks f.number ≤ 0 ∧ v.fileToCompact.isNone then
      ({ v with fileToCompact := some (f, level) }, allowedSeeks)
    else (v, allowedSeeks)

def found (entries : List (Entry K V)) (lkey : InternalKey K) : Option (Entry K V) :=
  (seek entries lkey).bind fun e ↦ if e.userKey = lkey.userKey then some e else none

theorem finds_found (hentries : SortedEntries entries) (userKey : K) (s : ℕ) :
    Newest.Finds Entry.userKey Entry.tag {e | e ∈ entries} userKey (snapshotTag s)
      (found entries (lookupKey userKey s)) := by
  have hle : ∀ e : Entry K V, lookupKey userKey s ≤ e.key ↔
      userKey < e.userKey ∨ userKey = e.userKey ∧ e.tag ≤ snapshotTag s := fun _ ↦ Iff.rfl
  unfold found
  cases hseek : seek entries (lookupKey userKey s) with
  | none =>
    intro e he huser
    have hnot : ¬lookupKey userKey s ≤ e.key := by
      simpa using find?_eq_none.mp hseek e he
    by_contra htag
    exact hnot ((hle e).mpr (.inr ⟨huser.symm, Nat.not_lt.mp htag⟩))
  | some e =>
    obtain ⟨hge, before, after, rfl, hbefore⟩ := find?_eq_some_iff_append.mp hseek
    rw [decide_eq_true_eq] at hge
    obtain ⟨-, hafter, -⟩ := pairwise_append.mp hentries
    -- entries before the seek result are out of the bound, entries after it are older
    have hvisible : ∀ x ∈ before ++ e :: after, lookupKey userKey s ≤ x.key → e.key ≤ x.key := by
      intro x hx hxge
      rcases mem_append.mp hx with hx | hx
      · have := hbefore x hx
        simp only [Bool.not_eq_true', decide_eq_false_iff_not] at this
        exact absurd hxge this
      · rcases mem_cons.mp hx with rfl | hx
        · exact le_rfl
        · exact ((pairwise_cons.mp hafter).1 x hx).le
    change Newest.Finds _ _ _ _ _ (if e.userKey = userKey then some e else none)
    split
    · rename_i huser
      have htag : e.tag ≤ snapshotTag s := by
        rcases (hle e).mp hge with hlt | ⟨-, htag⟩
        · exact absurd huser hlt.ne'
        · exact htag
      refine ⟨by simp, huser, htag, fun x hx hxuser hxtag ↦ ?_⟩
      have hex := hvisible x hx ((hle x).mpr (.inr ⟨hxuser.symm, hxtag⟩))
      exact (Entry.key_le_iff (huser.trans hxuser.symm)).mp hex
    · rename_i huser
      intro x hx hxuser
      by_contra htag
      have hex := hvisible x hx ((hle x).mpr (.inr ⟨hxuser.symm, Nat.not_lt.mp htag⟩))
      have hlt : userKey < e.userKey := ((hle e).mp hge).resolve_right fun h ↦ huser h.1.symm
      exact absurd (InternalKey.userKey_le_of_le hex) (not_le.mpr (hxuser.trans_lt hlt))

def AllParse (entries : List (Entry K V)) : Prop := ∀ e ∈ entries, e.type.isSome

theorem found_mem {e : Entry K V} (h : found entries lkey = some e) :
    e ∈ entries ∧ e.userKey = lkey.userKey := by
  obtain ⟨x, hseek, hx⟩ := Option.bind_eq_some_iff.mp h
  split at hx
  · cases hx
    exact ⟨mem_of_find?_eq_some hseek, ‹_›⟩
  · cases hx

/-- `MemTable::Get` answers with what the seek found. -/
theorem memTableGet_eq (hparse : AllParse entries) (lkey : InternalKey K) : memTableGet entries lkey =
      (found entries lkey).map fun e ↦ GetStatus.ofResolved e.resolve := by
  unfold memTableGet found
  cases hseek : seek entries lkey with
  | none => rfl
  | some e =>
    obtain ⟨t, ht⟩ := Option.isSome_iff_exists.mp (hparse e (mem_of_find?_eq_some hseek))
    simp only [Option.bind_some]
    split
    · rw [Entry.tag_eq ht, packSequenceAndType_mod]
      cases t <;> simp [Entry.resolve, ht, GetStatus.ofResolved]
    · rfl

/-- `MemTable::Get` looks only at the entries up to its sequence number. -/
theorem memTableGet_congr {a b : List (Entry K V)} (ha : SortedEntries a) (hb : SortedEntries b)
    (haparse : AllParse a) (hbparse : AllParse b) {s : ℕ} (hsame : ∀ e, e.sequence ≤ s → (e ∈ a ↔ e ∈ b))
    (userKey : K) : memTableGet a (lookupKey userKey s) = memTableGet b (lookupKey userKey s) := by
  have hfinds : Newest.Finds Entry.userKey Entry.tag {e | e ∈ b} userKey (snapshotTag s)
      (found a (lookupKey userKey s)) := by
    apply (finds_found ha userKey s).congr
    intro e _ htag
    constructor
    · intro he
      exact (hsame e ((Entry.tag_le_snapshotTag (haparse e he) s).mp htag)).mp he
    · intro he
      exact (hsame e ((Entry.tag_le_snapshotTag (hbparse e he) s).mp htag)).mpr he
  have hfound : found a (lookupKey userKey s) = found b (lookupKey userKey s) := by
    refine hfinds.unique ?_ (finds_found hb userKey s)
    intro x hx y hy huser htag
    exact hb.eq_of_key hx hy (InternalKey.ext huser htag)
  rw [memTableGet_eq haparse, memTableGet_eq hbparse, hfound]

theorem tableGet_eq (hparse : AllParse entries) (lkey : InternalKey K) : tableGet entries lkey =
      match found entries lkey with
      | none => .kNotFound
      | some e => saveValue lkey.userKey e := by
  unfold tableGet found
  cases hseek : seek entries lkey with
  | none => rfl
  | some e =>
    obtain ⟨t, ht⟩ := Option.isSome_iff_exists.mp (hparse e (mem_of_find?_eq_some hseek))
    by_cases huser : e.userKey = lkey.userKey
    · simp [huser]
    · simp [huser, saveValue, Entry.parseInternalKey_key, ht]

theorem searchFiles_fst {order : List (FileMetaData K × ℕ)}
    (hparse : ∀ f ∈ order, AllParse (tables f.1.number))
    (lastFileRead seekFile : Option (FileMetaData K × ℕ)) :
    (searchFiles tables lkey lastFileRead seekFile order).1 = GetStatus.ofResolved
        ((order.findSome? fun f ↦ found (tables f.1.number) lkey).bind Entry.resolve) := by
  induction order generalizing lastFileRead seekFile with
  | nil => rfl
  | cons f rest ih =>
    have hf := hparse f mem_cons_self
    simp only [searchFiles, tableGet_eq hf, findSome?_cons]
    cases hfound : found (tables f.1.number) lkey with
    | none => exact ih (fun g hg ↦ hparse g (mem_cons_of_mem f hg)) _ _
    | some e =>
      obtain ⟨hmem, huser⟩ := found_mem hfound
      obtain ⟨t, ht⟩ := Option.isSome_iff_exists.mp (hf e hmem)
      cases t <;>
        simp [saveValue, Entry.parseInternalKey_key, ht, huser, Entry.resolve, GetStatus.ofResolved]

omit [LinearOrder K] in
theorem chargedFile_spec {ends : FileMetaData K → Bool} {P : FileMetaData K × ℕ → Prop}
    {order : List (FileMetaData K × ℕ)} (hlast : ∀ f rest, f :: rest <:+ order → rest ≠ [] → P f)
    {lastFileRead seekFile : Option (FileMetaData K × ℕ)}
    (hread : ∀ f, lastFileRead = some f → order ≠ [] → P f) (hseek : ∀ f, seekFile = some f → P f)
    {f : FileMetaData K × ℕ} (h : chargedFile ends lastFileRead seekFile order = some f) : P f := by
  induction order generalizing lastFileRead seekFile with
  | nil => exact hseek f h
  | cons g rest ih =>
    have hseek' : ∀ f, (if seekFile.isNone then lastFileRead else seekFile) = some f → P f := by
      intro f hf
      split at hf
      · exact hread f hf (cons_ne_nil g rest)
      · exact hseek f hf
    simp only [chargedFile] at h
    split at h
    · exact hseek' f h
    · refine ih (fun f rest' hsuf ↦ hlast f rest' (hsuf.trans (suffix_cons g rest))) ?_ hseek' h
      intro f hf hne
      cases hf
      exact hlast g rest (suffix_refl _) hne

theorem searchFiles_snd {lastFileRead seekFile : Option (FileMetaData K × ℕ)}
    {order : List (FileMetaData K × ℕ)} : (searchFiles tables lkey lastFileRead seekFile order).2 =
      chargedFile (fun f ↦ (tableGet (tables f.number) lkey).ends) lastFileRead seekFile order := by
  induction order generalizing lastFileRead seekFile with
  | nil => rfl
  | cons f rest ih =>
    simp only [searchFiles, chargedFile]
    split
    · rename_i hread
      simpa only [hread, SaverState.ends, Bool.false_eq_true, if_false] using ih
    · rename_i value hread
      simp only [hread, SaverState.ends, if_true]
    · rename_i hread
      simp only [hread, SaverState.ends, if_true]
    · rename_i hread
      simp only [hread, SaverState.ends, if_true]

/-- The metadata describes the table: its bounds are the keys of its first and last entry. -/
structure TableOf (f : FileMetaData K) (entries : List (Entry K V)) : Prop where
  sorted : SortedEntries entries
  smallest_le : ∀ e ∈ entries, f.smallest ≤ e.key
  le_largest : ∀ e ∈ entries, e.key ≤ f.largest
  smallest_mem : ∃ e ∈ entries, e.key = f.smallest
  largest_mem : ∃ e ∈ entries, e.key = f.largest

theorem TableOf.valid (h : TableOf f entries) : f.smallest ≤ f.largest := by
  obtain ⟨e, he, heq⟩ := h.smallest_mem
  exact heq ▸ h.le_largest e he

structure TableWithin (f : FileMetaData K) (entries : List (Entry K V)) : Prop where
  sorted : SortedEntries entries
  smallest_le : ∀ e ∈ entries, f.smallest ≤ e.key
  le_largest : ∀ e ∈ entries, e.key ≤ f.largest

theorem TableOf.within (h : TableOf f entries) : TableWithin f entries :=
  ⟨h.sorted, h.smallest_le, h.le_largest⟩

theorem TableWithin.lo_le (h : TableWithin f entries) {e : Entry K V} (he : e ∈ entries) :
    f.lo ≤ e.userKey :=
  InternalKey.userKey_le_of_le (h.smallest_le e he)

theorem TableWithin.le_hi (h : TableWithin f entries) {e : Entry K V} (he : e ∈ entries) :
    e.userKey ≤ f.hi :=
  InternalKey.userKey_le_of_le (h.le_largest e he)

theorem TableOf.lo_le (h : TableOf f entries) {e : Entry K V} (he : e ∈ entries) : f.lo ≤ e.userKey :=
  h.within.lo_le he

theorem TableOf.le_hi (h : TableOf f entries) {e : Entry K V} (he : e ∈ entries) : e.userKey ≤ f.hi :=
  h.within.le_hi he

theorem levelEntries_sorted {files : List (FileMetaData K)} (hsorted : SortedLevel files)
    (htables : ∀ f ∈ files, TableWithin f (tables f.number)) : SortedEntries (levelEntries tables files) := by
  refine pairwise_flatMap.mpr ⟨fun f hf ↦ (htables f hf).sorted, ?_⟩
  apply hsorted.ordered.imp_of_mem
  intro f g hf hg hlt x hx y hy
  exact ((htables f hf).le_largest x hx).trans_lt (hlt.trans_le ((htables g hg).smallest_le y hy))

theorem seek_levelEntries {files : List (FileMetaData K)}
    (htables : ∀ f ∈ files, TableWithin f (tables f.number))
    (hlargest : ∀ f ∈ files, ∃ e ∈ tables f.number, e.key = f.largest) (key : InternalKey K) :
    seek (levelEntries tables files) key =
      (files.find? fun f ↦ decide (key ≤ f.largest)).bind fun f ↦ seek (tables f.number) key := by
  induction files with
  | nil => rfl
  | cons f rest ih =>
    have hf := htables f mem_cons_self
    have hrest := ih (fun g hg ↦ htables g (mem_cons_of_mem f hg))
      fun g hg ↦ hlargest g (mem_cons_of_mem f hg)
    have happend : seek (levelEntries tables (f :: rest)) key =
        (seek (tables f.number) key).or (seek (levelEntries tables rest) key) := by
      simp only [seek, levelEntries, flatMap_cons, find?_append]
    rw [happend, hrest]
    by_cases hkey : key ≤ f.largest
    · rw [find?_cons_of_pos (by simpa using hkey)]
      obtain ⟨e, he, heq⟩ := hlargest f mem_cons_self
      have hsome : (seek (tables f.number) key).isSome := by
        rw [seek, find?_isSome]
        exact ⟨e, he, decide_eq_true (heq ▸ hkey)⟩
      obtain ⟨x, hx⟩ := Option.isSome_iff_exists.mp hsome
      simp [hx]
    · rw [find?_cons_of_neg (by simpa using hkey)]
      have hnone : seek (tables f.number) key = none := by
        rw [seek, find?_eq_none]
        intro e he hle
        exact hkey ((of_decide_eq_true hle).trans (hf.le_largest e he))
      rw [hnone, Option.none_or]

theorem findSome?_filesToSearch {level : ℕ} (hlevel : level ≠ 0) (hsorted : SortedLevel (v.files level))
    (htables : ∀ f ∈ v.files level, TableWithin f (tables f.number))
    (hlargest : ∀ f ∈ v.files level, ∃ e ∈ tables f.number, e.key = f.largest) (lkey : InternalKey K) :
    ((filesToSearch v level lkey).findSome? fun f ↦ found (tables f.number) lkey) =
      found (levelEntries tables (v.files level)) lkey := by
  unfold filesToSearch
  rw [if_neg hlevel, getElem?_findFile hsorted]
  have hseek := seek_levelEntries htables hlargest lkey
  cases hfind : (v.files level).find? fun f ↦ decide (lkey ≤ f.largest) with
  | none =>
    rw [hfind] at hseek
    simp [found, hseek]
  | some f =>
    rw [hfind, Option.bind_some] at hseek
    have hf := htables f (mem_of_find?_eq_some hfind)
    dsimp only
    split
    · rename_i hlt
      -- all of the file is past any data for the user key
      have hnone : found (levelEntries tables (v.files level)) lkey = none := by
        cases hfound : found (levelEntries tables (v.files level)) lkey with
        | none => rfl
        | some e =>
          obtain ⟨x, hx, heq⟩ := Option.bind_eq_some_iff.mp hfound
          have hmem : x ∈ tables f.number := mem_of_find?_eq_some (hseek ▸ hx)
          split at heq
          · rename_i huser
            exact absurd (hf.lo_le hmem) (not_le.mpr (huser.trans_lt hlt))
          · cases heq
      rw [hnone]
      rfl
    · simp [found, hseek]

/-- The files of a version with their tables, ordered so that a search may stop at the first hit: at
level 0 by file number, and then level by level. -/
structure Layered (v : Version K) (tables : ℕ → List (Entry K V)) : Prop where
  zero : ∀ f ∈ v.files 0, ∀ g ∈ v.files 0, g.number < f.number →
    Newest.Newer Entry.userKey Entry.tag {e | e ∈ tables f.number} {e | e ∈ tables g.number}
  levels : ∀ i j, i < j → ∀ f ∈ v.files i, ∀ g ∈ v.files j,
    Newest.Newer Entry.userKey Entry.tag {e | e ∈ tables f.number} {e | e ∈ tables g.number}

omit [LinearOrder K] in
theorem Layered.congr (h : Layered v tables)
    (hsame : ∀ level, ∀ f ∈ v.files level, tables' f.number = tables f.number) : Layered v tables' := by
  constructor
  · intro f hf g hg
    rw [hsame 0 f hf, hsame 0 g hg]
    exact h.zero f hf g hg
  · intro i j hij f hf g hg
    rw [hsame i f hf, hsame j g hg]
    exact h.levels i j hij f hf g hg

theorem finds_filesToSearch_zero (htables : ∀ f ∈ v.files 0, TableWithin f (tables f.number))
    (hnumber : (v.files 0).Pairwise fun f g ↦ f.number ≠ g.number)
    (hlayered : Layered v tables) (userKey : K) (s : ℕ) :
    Newest.Finds Entry.userKey Entry.tag {e | e ∈ levelEntries tables (v.files 0)} userKey
      (snapshotTag s) ((filesToSearch v 0 (lookupKey userKey s)).findSome? fun f ↦
        found (tables f.number) (lookupKey userKey s)) := by
  set order := filesToSearch v 0 (lookupKey userKey s) with horder
  have hmem : ∀ f, f ∈ order ↔ f ∈ v.files 0 ∧ f.lo ≤ userKey ∧ userKey ≤ f.hi := by
    intro f
    rw [horder, filesToSearch, if_pos rfl, mem_insertionSort, mem_filter, decide_eq_true_eq]
    rfl
  have hdesc : order.Pairwise fun f g ↦ g.number < f.number := by
    have hle : order.Pairwise fun f g ↦ g.number ≤ f.number := by
      rw [horder, filesToSearch, if_pos rfl]
      exact pairwise_insertionSort _ _
    have hne : order.Pairwise fun f g ↦ f.number ≠ g.number := by
      rw [horder, filesToSearch, if_pos rfl]
      exact (perm_insertionSort _ _).symm.pairwise (hnumber.sublist filter_sublist) fun h ↦ h.symm
    exact (hle.and hne).imp fun h ↦ lt_of_le_of_ne h.1 h.2.symm
  have hlayers := Newest.finds_layers (A := fun f ↦ {e | e ∈ tables f.number})
    (fun f hf ↦ finds_found (htables f ((hmem f).mp hf).1).sorted userKey s)
    (hdesc.imp_of_mem fun hf hg hlt ↦
      hlayered.zero _ ((hmem _).mp hf).1 _ ((hmem _).mp hg).1 hlt)
  -- the files that are not searched have no entry of the user key
  apply hlayers.congr
  intro e huser _
  simp only [Set.mem_ofPred_eq, mem_levelEntries]
  constructor
  · rintro ⟨f, hf, he⟩
    exact ⟨f, ((hmem f).mp hf).1, he⟩
  · rintro ⟨f, hf, he⟩
    have ht := htables f hf
    exact ⟨f, (hmem f).mpr ⟨hf, huser ▸ ht.lo_le he, huser ▸ ht.le_hi he⟩, he⟩

def storedEntries (v : Version K) (tables : ℕ → List (Entry K V)) : Set (Entry K V) :=
  {e | ∃ level ∈ List.range kNumLevels, e ∈ levelEntries tables (v.files level)}

omit [LinearOrder K] in
theorem storedEntries_congr (hsame : ∀ level, ∀ f ∈ v.files level, tables' f.number = tables f.number) :
    storedEntries v tables' = storedEntries v tables := by
  ext e
  have hlevel : ∀ level, e ∈ levelEntries tables' (v.files level) ↔
      e ∈ levelEntries tables (v.files level) := by
    intro level
    rw [mem_levelEntries, mem_levelEntries]
    constructor
    · rintro ⟨f, hf, he⟩
      exact ⟨f, hf, hsame level f hf ▸ he⟩
    · rintro ⟨f, hf, he⟩
      exact ⟨f, hf, (hsame level f hf).symm ▸ he⟩
  simp only [storedEntries, Set.mem_ofPred_eq, hlevel]

/-- `Version::Get` finds the newest entry in the files of the version. -/
theorem finds_searchOrder (hsorted : ∀ level, level ≠ 0 → SortedLevel (v.files level))
    (htables : ∀ level, ∀ f ∈ v.files level, TableWithin f (tables f.number))
    (hlargest : ∀ level, level ≠ 0 → ∀ f ∈ v.files level, ∃ e ∈ tables f.number, e.key = f.largest)
    (hnumber : (v.files 0).Pairwise fun f g ↦ f.number ≠ g.number)
    (hlayered : Layered v tables) (userKey : K) (s : ℕ) :
    Newest.Finds Entry.userKey Entry.tag (storedEntries v tables) userKey (snapshotTag s)
      ((searchOrder v (lookupKey userKey s)).findSome? fun f ↦
        found (tables f.1.number) (lookupKey userKey s)) := by
  have horder : ((searchOrder v (lookupKey userKey s)).findSome? fun f ↦
        found (tables f.1.number) (lookupKey userKey s)) =
      (List.range kNumLevels).findSome? fun level ↦
        (filesToSearch v level (lookupKey userKey s)).findSome? fun f ↦
          found (tables f.number) (lookupKey userKey s) := by
    unfold searchOrder
    rw [SortedLists.findSome?_flatMap]
    simp only [findSome?_map]
    rfl
  rw [horder]
  apply Newest.finds_layers (A := fun level ↦ {e | e ∈ levelEntries tables (v.files level)})
  · intro level _
    by_cases hlevel : level = 0
    · subst hlevel
      exact finds_filesToSearch_zero (htables 0) hnumber hlayered userKey s
    · rw [findSome?_filesToSearch hlevel (hsorted level hlevel) (htables level) (hlargest level hlevel)]
      exact finds_found (levelEntries_sorted (hsorted level hlevel) (htables level)) userKey s
  · apply pairwise_lt_range.imp
    intro i j hij a ha b hb hab
    obtain ⟨f, hf, ha⟩ := mem_levelEntries.mp ha
    obtain ⟨g, hg, hb⟩ := mem_levelEntries.mp hb
    exact hlayered.levels i j hij f hf g hg a ha b hb hab

theorem mem_filesToSearch {level : ℕ} (hf : f ∈ filesToSearch v level lkey) : f ∈ v.files level := by
  unfold filesToSearch at hf
  split at hf
  · subst level
    rw [mem_insertionSort, mem_filter] at hf
    exact hf.1
  · split at hf
    · cases hf
    · rename_i g hg
      split at hf
      · cases hf
      · rw [mem_singleton.mp hf]
        exact mem_of_getElem? hg

theorem mem_searchOrder {p : FileMetaData K × ℕ} (hp : p ∈ searchOrder v lkey) :
    p.1 ∈ v.files p.2 ∧ p.2 < kNumLevels := by
  obtain ⟨level, hlevel, hp⟩ := mem_flatMap.mp hp
  obtain ⟨g, hg, rfl⟩ := mem_map.mp hp
  exact ⟨mem_filesToSearch hg, mem_range.mp hlevel⟩

theorem searchFiles_congr {order : List (FileMetaData K × ℕ)}
    (hsame : ∀ f ∈ order, tables' f.1.number = tables f.1.number)
    (lastFileRead seekFile : Option (FileMetaData K × ℕ)) :
    searchFiles tables' lkey lastFileRead seekFile order =
      searchFiles tables lkey lastFileRead seekFile order := by
  induction order generalizing lastFileRead seekFile with
  | nil => rfl
  | cons f rest ih =>
    have hrest := ih fun g hg ↦ hsame g (mem_cons_of_mem f hg)
    simp only [searchFiles, hsame f mem_cons_self, hrest]

/-- `Version::Get` reads only the files of its version. -/
theorem versionGet_congr (hsame : ∀ level, ∀ f ∈ v.files level, tables' f.number = tables f.number)
    (lkey : InternalKey K) : versionGet v tables' lkey = versionGet v tables lkey := by
  apply searchFiles_congr
  intro p hp
  exact hsame p.2 p.1 (mem_searchOrder hp).1

/-- A file that a lookup charges with a seek is a file of the version that is not at the last level:
another file was read after it. -/
theorem chargedFile_searchOrder {ends : FileMetaData K → Bool} {level : ℕ}
    (h : chargedFile ends none none (searchOrder v lkey) = some (f, level)) :
    f ∈ v.files level ∧ level + 1 < kNumLevels := by
  -- only level 0 has several files to search
  have hlevels : (searchOrder v lkey).Pairwise fun p q ↦ p.2 < q.2 ∨ p.2 = 0 := by
    refine pairwise_flatMap.mpr ⟨fun level _ ↦ ?_, pairwise_lt_range.imp ?_⟩
    · by_cases hlevel : level = 0
      · exact pairwise_of_forall_mem_list fun p hp q _ ↦ .inr (by
          obtain ⟨g, -, rfl⟩ := mem_map.mp hp
          exact hlevel)
      · unfold filesToSearch
        rw [if_neg hlevel]
        split
        · exact .nil
        · split
          · exact .nil
          · exact pairwise_singleton _ _
    · intro i j hij p hp q hq
      obtain ⟨g, -, rfl⟩ := mem_map.mp hp
      obtain ⟨g', -, rfl⟩ := mem_map.mp hq
      exact .inl hij
  refine chargedFile_spec (P := fun p ↦ p.1 ∈ v.files p.2 ∧ p.2 + 1 < kNumLevels) ?_ ?_ ?_ h
  · intro p rest hsuffix hne
    obtain ⟨q, hq⟩ := exists_mem_of_ne_nil rest hne
    have hp := mem_searchOrder (hsuffix.subset mem_cons_self)
    have hqlt := (mem_searchOrder (hsuffix.subset (mem_cons_of_mem p hq))).2
    have hpq := (pairwise_cons.mp (hlevels.sublist hsuffix.sublist)).1 q hq
    refine ⟨hp.1, ?_⟩
    unfold kNumLevels at hqlt ⊢
    omega
  · intro p hp
    cases hp
  · intro p hp
    cases hp

theorem versionGet_seekFile {level : ℕ} (h : (versionGet v tables lkey).2 = some (f, level)) :
    f ∈ v.files level ∧ level + 1 < kNumLevels := by
  rw [versionGet, searchFiles_snd] at h
  exact chargedFile_searchOrder h

end LevelDB.Db.Lookup
