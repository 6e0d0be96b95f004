import LevelDB.Db.Engine

/-!
# Lookups in layered entries

The entries of the database lie in layers: the memtable, the immutable memtable, the files of level 0 and
the levels below.  When of one user key the entries of each layer are newer than those of the later ones,
`DBImpl::Get`, which stops at the first layer with an entry, reads all of them.
-/

namespace LevelDB.Db.Engine

open Format TableFiles CompactionPick Lookup Library

variable {K V : Type*}

theorem parsed_eq {entries : Set (Entry K V)} (h : ∀ e ∈ entries, e.type.isSome) :
    parsed entries = entries :=
  Set.sep_eq_self_iff_mem_true.mpr h

variable [LinearOrder K]

def State.immEntries (state : State K V) : List (Entry K V) := state.imm.getD []

/-- The entries in the memtables and in the files of the current version. -/
def State.allEntries (state : State K V) : Set (Entry K V) :=
  {e | e ∈ state.mem} ∪ ({e | e ∈ state.immEntries} ∪ storedEntries state.current state.tables)

/-- The memtables and the tables are sorted, the levels above 0 are sorted and disjoint, each table lies
within the bounds of its file, and for each user key newer entries lie in front of older ones. -/
structure ReadLayers (state : State K V) : Prop where
  parses : ∀ e ∈ state.allEntries, e.type.isSome
  mem_sorted : SortedEntries state.mem
  imm_sorted : SortedEntries state.immEntries
  sorted : ∀ level, level ≠ 0 → SortedLevel (state.current.files level)
  within : ∀ level, ∀ f ∈ state.current.files level, TableWithin f (state.tables f.number)
  number_ne : (state.current.files 0).Pairwise fun f g ↦ f.number ≠ g.number
  mem_newer : Newest.Newer Entry.userKey Entry.tag {e | e ∈ state.mem}
    ({e | e ∈ state.immEntries} ∪ storedEntries state.current state.tables)
  imm_newer : Newest.Newer Entry.userKey Entry.tag {e | e ∈ state.immEntries}
    (storedEntries state.current state.tables)
  layered : Layered state.current state.tables

/-- The largest key of a file above level 0 is the key of one of its entries. -/
def LargestAttained (state : State K V) : Prop :=
  ∀ level, level ≠ 0 → ∀ f ∈ state.current.files level, ∃ e ∈ state.tables f.number, e.key = f.largest

/-- On layered entries `DBImpl::Get` reads all entries of the database. -/
theorem ReadLayers.resolves_get {state : State K V} (h : ReadLayers state)
    (hlargest : LargestAttained state) (userKey : K) (s : ℕ) :
    ∃ result, state.get userKey s = GetStatus.ofResolved result ∧
      Resolves state.allEntries userKey s result := by
  set lkey := lookupKey userKey s with hlkey
  have hall := (finds_found h.mem_sorted userKey s).or ((finds_found h.imm_sorted userKey s).or
    (finds_searchOrder h.sorted h.within hlargest h.number_ne h.layered userKey s)
    (h.imm_newer.at userKey)) (h.mem_newer.at userKey)
  refine ⟨((found state.mem lkey).or ((found state.immEntries lkey).or
    ((searchOrder state.current lkey).findSome? fun f ↦ found (state.tables f.1.number) lkey))).bind
      Entry.resolve, ?_, _, ?_, rfl⟩
  · have hparse : ∀ f ∈ searchOrder state.current lkey, AllParse (state.tables f.1.number) := by
      intro f hf e he
      obtain ⟨hmem, hlevel⟩ := mem_searchOrder hf
      exact h.parses e (.inr (.inr ⟨f.2, List.mem_range.mpr hlevel, mem_levelEntries.mpr ⟨f.1, hmem, he⟩⟩))
    have himmGet : (state.imm.bind fun imm ↦ memTableGet imm lkey) =
        (found state.immEntries lkey).map fun e ↦ GetStatus.ofResolved e.resolve := by
      have himmParse : AllParse state.immEntries := fun e he ↦ h.parses e (.inr (.inl he))
      rw [State.immEntries] at himmParse ⊢
      cases himm : state.imm with
      | none => rfl
      | some imm =>
        rw [himm] at himmParse
        exact memTableGet_eq himmParse _
    unfold State.get
    dsimp only
    rw [← hlkey, memTableGet_eq fun e he ↦ h.parses e (.inl he), himmGet, versionGet,
      searchFiles_fst hparse]
    cases found state.mem lkey with
    | some e => rfl
    | none => cases found state.immEntries lkey <;> rfl
  · rw [parsed_eq h.parses]
    exact hall

end LevelDB.Db.Engine
