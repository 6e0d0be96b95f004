import LevelDB.Db.DbIterCursor
import LevelDB.Db.InternalIterator

/-!
# Lookups and forward scans agree

A forward scan positions a `DBIter` over the internal iterator at the first key, or at the first key at or
after a target, and calls `Next` until it is not valid.  On layered entries a lookup and a scan compute the
same map.  The files above level 0 must end with an entry: `FindFile` names one file of a level by its
largest key, and a lookup does not go on to the next file when that one has no entry at the lookup key.
-/

namespace LevelDB.Db.Engine

open Format TableFiles CompactionPick Lookup DbIter Library List

variable {K V : Type*} [LinearOrder K]

/-- `Next` until the iterator is not valid, with the pairs seen. -/
def scanLoop {σ : Type*} (I : Iterator σ (Entry K V) (InternalKey K)) (s bound : ℕ) :
    ℕ → DBIter σ K V → Option (List (K × V))
  | 0, _ => none
  | fuel + 1, it =>
    match current I it with
    | none => some []
    | some p => (call I s bound it .next).bind fun it ↦ (scanLoop I s bound fuel it).map (p :: ·)

/-- A forward scan, from the first key or from a target.  `bound` bounds the rounds of every loop. -/
def scan (internal : AnyIterator (Entry K V) (InternalKey K)) (s bound : ℕ) (target : Option K) :
    Option (List (K × V)) :=
  (call internal.ops s bound (new internal.start)
    (match target with
    | none => .seekToFirst
    | some t => .seek t)).bind fun it ↦ scanLoop internal.ops s bound bound it

section Related

variable {σ ρ : Type*} {I : Iterator σ (Entry K V) (InternalKey K)}
  {J : Iterator ρ (Entry K V) (InternalKey K)} {R : σ → ρ → Prop}

theorem scanLoop_eq (hsim : Iterator.Simulates I J R) {s bound fuel : ℕ} {it : DBIter σ K V}
    {jt : DBIter ρ K V} (h : Related R it jt) :
    scanLoop I s bound fuel it = scanLoop J s bound fuel jt := by
  induction fuel generalizing it jt with
  | zero => rfl
  | succ fuel ih =>
    rw [scanLoop, scanLoop, h.current_eq hsim]
    cases current J jt with
    | none => rfl
    | some p =>
      have hcall : Option.Rel (Related R) (call I s bound it .next) (call J s bound jt .next) :=
        call_rel hsim h .next
      dsimp only
      generalize call I s bound it .next = a at hcall ⊢
      generalize call J s bound jt .next = b at hcall ⊢
      cases hcall with
      | none => rfl
      | some hrel => rw [Option.bind_some, Option.bind_some, ih hrel]

theorem scan_eq {internal : AnyIterator (Entry K V) (InternalKey K)} {entries : List (Entry K V)}
    (hfaithful : internal.Faithful Entry.key entries) (s bound : ℕ) (target : Option K) :
    scan internal s bound target = scan (AnyIterator.ofList Entry.key entries) s bound target := by
  obtain ⟨R, hsim, hstart⟩ := hfaithful
  unfold scan
  generalize (match target with
    | none => Call.seekToFirst
    | some t => Call.seek t) = c
  have hcall : Option.Rel (Related R) (call internal.ops s bound (new internal.start) c)
      (call (Iterator.ofList Entry.key entries) s bound (new none) c) :=
    call_rel hsim ⟨hstart, rfl, rfl, rfl, rfl⟩ c
  change _ = (call (Iterator.ofList Entry.key entries) s bound (new none) c).bind fun it ↦
    scanLoop (Iterator.ofList Entry.key entries) s bound bound it
  generalize call internal.ops s bound (new internal.start) c = a at hcall ⊢
  generalize call (Iterator.ofList Entry.key entries) s bound (new none) c = b at hcall ⊢
  cases hcall with
  | none => rfl
  | some hrel => exact scanLoop_eq hsim hrel

end Related

section List

variable {entries : List (Entry K V)} {s : ℕ}

theorem scanLoop_list (hsorted : SortedEntries entries) (hparse : AllParse entries)
    {before rest : List (Entry K V)} (hsplit : shownEntries entries s = before ++ rest)
    {it : DBIter (Option ℕ) K V} (h : Agrees entries s it rest.head?) {fuel : ℕ}
    (hfuel : rest.length < fuel) :
    scanLoop (Iterator.ofList Entry.key entries) s (entries.length + 1) fuel it = some (rest.map pair) := by
  induction rest generalizing before it fuel with
  | nil =>
    obtain ⟨fuel, rfl⟩ := Nat.exists_eq_succ_of_ne_zero (Nat.ne_zero_of_lt hfuel)
    rw [scanLoop, h.current_eq]
    rfl
  | cons e rest ih =>
    obtain ⟨fuel, rfl⟩ := Nat.exists_eq_succ_of_ne_zero (Nat.ne_zero_of_lt hfuel)
    obtain ⟨it', hcall⟩ := next_returns h
    have hshown := shownEntries_sorted (s := s) hsorted
    rw [hsplit, pairwise_append, pairwise_cons] at hshown
    obtain ⟨-, ⟨hafter, -⟩, hbefore⟩ := hshown
    have hnext : ((shownEntries entries s).find? fun x ↦ e.userKey < x.userKey) = rest.head? := by
      have hnone : before.find? (fun x ↦ e.userKey < x.userKey) = none := by
        rw [find?_eq_none]
        intro x hx
        simpa using (hbefore x hx e mem_cons_self).le
      rw [hsplit, find?_append, hnone, Option.none_or, find?_cons_of_neg (by simp)]
      cases rest with
      | nil => rfl
      | cons x _ =>
        rw [find?_cons_of_pos (by simpa using hafter x mem_cons_self)]
        rfl
    have hagrees := next_agrees hsorted hparse h hcall
    rw [hnext] at hagrees
    have hsplit' : shownEntries entries s = (before ++ [e]) ++ rest := by simp [hsplit]
    rw [scanLoop, h.current_eq, head?_cons, Option.map_some]
    dsimp only
    rw [hcall, Option.bind_some, ih hsplit' hagrees (Nat.lt_of_succ_lt_succ hfuel)]
    rfl

theorem scan_list (hsorted : SortedEntries entries) (hparse : AllParse entries) (target : Option K) :
    scan (AnyIterator.ofList Entry.key entries) s (entries.length + 1) target =
      some ((userView entries s).filter fun p ↦ target.all fun t ↦ t ≤ p.1) := by
  have hlength : (shownEntries entries s).length < entries.length + 1 :=
    Nat.lt_succ_of_le (length_filter_le _ _)
  cases target with
  | none =>
    obtain ⟨it, hcall⟩ := @seekToFirst_returns _ _ _ entries s (new none)
    have hagrees := seekToFirst_agrees hsorted hparse hcall
    have hscan := scanLoop_list hsorted hparse (nil_append _).symm hagrees hlength
    have hall : (userView entries s).filter (fun p ↦ (none : Option K).all fun t ↦ t ≤ p.1) =
        userView entries s := filter_eq_self.mpr fun _ _ ↦ rfl
    rw [hall]
    exact (congrArg (Option.bind · _) hcall).trans hscan
  | some t =>
    obtain ⟨it, hcall⟩ := seek_returns (s := s) hsorted (new none) t
    have hagrees := seek_agrees hsorted hparse hcall
    rw [← head?_filter] at hagrees
    have hmono : (shownEntries entries s).Pairwise fun x y ↦
        (!decide (t ≤ y.userKey)) = true → (!decide (t ≤ x.userKey)) = true := by
      refine (shownEntries_sorted hsorted).imp fun {x y} hlt hy ↦ ?_
      simp only [Bool.not_eq_true', decide_eq_false_iff_not, not_le] at hy ⊢
      exact hlt.trans hy
    have hsplit := (SortedLists.filter_append_filter_not hmono).symm
    simp only [Bool.not_not] at hsplit
    have hscan := scanLoop_list hsorted hparse hsplit hagrees ((length_filter_le _ _).trans_lt hlength)
    have hview : ((userView entries s).filter fun p ↦ (some t).all fun t ↦ t ≤ p.1) =
        ((shownEntries entries s).filter fun x ↦ t ≤ x.userKey).map pair := by
      rw [userView, filter_map]
      rfl
    rw [hview]
    exact (congrArg (Option.bind · _) hcall).trans hscan

end List

/-- On layered entries a user key has one newest entry up to a sequence number. -/
theorem ReadLayers.resolves_unique {state : State K V} (h : ReadLayers state) {k : K} {s : ℕ}
    {x y : Option V} (hx : Resolves state.allEntries k s x) (hy : Resolves state.allEntries k s y) :
    x = y := by
  refine Newest.Reads.unique ?_ hx hy
  rintro a ⟨ha, -⟩ b ⟨hb, -⟩ huser htag
  exact h.mergedEntries_sorted.eq_of_key (State.mem_mergedEntries.mpr ha)
    (State.mem_mergedEntries.mpr hb) (InternalKey.ext huser htag)

/-- A forward scan of layered entries ends.  It sees the newest entries up to the sequence number that are
values, in the order of their keys, from the target on. -/
theorem ReadLayers.scan_returns {state : State K V} (h : ReadLayers state) (s : ℕ) (target : Option K) :
    ∃ bound pairs, scan state.newInternalIterator s bound target = some pairs ∧
      pairs.Pairwise (fun p p' ↦ p.1 < p'.1) ∧
      ∀ k v, (k, v) ∈ pairs ↔ (∀ t, target = some t → t ≤ k) ∧ Resolves state.allEntries k s (some v) := by
  have hsorted := h.mergedEntries_sorted
  have hentries : {e | e ∈ state.mergedEntries} = state.allEntries :=
    Set.ext fun e ↦ State.mem_mergedEntries
  have hparse : AllParse state.mergedEntries := fun e he ↦ h.parses e (State.mem_mergedEntries.mp he)
  refine ⟨state.mergedEntries.length + 1, _, (scan_eq h.faithful_newInternalIterator s _ target).trans
    (scan_list hsorted hparse target), (userView_sorted hsorted).filter _, fun k v ↦ ?_⟩
  rw [mem_filter, mem_userView hparse, hentries, and_comm]
  cases target <;> simp

/-- On layered entries whose files above level 0 end with an entry, a lookup and a forward scan read the
same map from user keys to values: that of the newest entries up to the sequence number.  The scan sees its
keys in order, once each, from the target on. -/
theorem get_and_scan_agree {state : State K V} (h : ReadLayers state)
    (hlargest : LargestAttained state) (s : ℕ) :
    ∃ view : K → Option V, (∀ k, Resolves state.allEntries k s (view k)) ∧
      (∀ k, state.get k s = GetStatus.ofResolved (view k)) ∧
      ∀ target : Option K, ∃ bound pairs, scan state.newInternalIterator s bound target = some pairs ∧
        pairs.Pairwise (fun p p' ↦ p.1 < p'.1) ∧
        ∀ k v, (k, v) ∈ pairs ↔ (∀ t, target = some t → t ≤ k) ∧ view k = some v := by
  choose view hget hresolves using fun k ↦ h.resolves_get hlargest k s
  have hview : ∀ k v, Resolves state.allEntries k s (some v) ↔ view k = some v := by
    intro k v
    constructor
    · intro hreads
      exact h.resolves_unique (hresolves k) hreads
    · intro hv
      exact hv ▸ hresolves k
  refine ⟨view, hresolves, hget, fun target ↦ ?_⟩
  obtain ⟨bound, pairs, hscan, hpairs, hmem⟩ := h.scan_returns s target
  refine ⟨bound, pairs, hscan, hpairs, fun k v ↦ ?_⟩
  rw [hmem, hview]

def State.ofLevelOne (mem : List (Entry ℕ ℕ)) (files : List (FileMetaData ℕ))
    (tables : ℕ → List (Entry ℕ ℕ)) : State ℕ ℕ where
  mem := mem
  imm := none
  current := { files := fun level ↦ if level = 1 then files else [] }
  tables := tables
  allowedSeeks _ := 100
  compactPointer _ := none
  nextFileNumber := 10
  lastSequence := 9
  snapshots := []
  running := none

/-- What the layers of such a database need. -/
theorem readLayers_ofLevelOne {mem : List (Entry ℕ ℕ)} {files : List (FileMetaData ℕ)}
    {tables : ℕ → List (Entry ℕ ℕ)}
    (hparse : ∀ e ∈ mem ++ levelEntries tables files, e.type.isSome) (hmem : SortedEntries mem)
    (hsorted : SortedLevel files) (hwithin : ∀ f ∈ files, TableWithin f (tables f.number))
    (hnewer : ∀ a ∈ mem, ∀ b ∈ levelEntries tables files, a.userKey = b.userKey → b.tag < a.tag) :
    ReadLayers (State.ofLevelOne mem files tables) := by
  have hfiles : ∀ level, ∀ f ∈ (State.ofLevelOne mem files tables).current.files level,
      level = 1 ∧ f ∈ files := by
    intro level f hf
    change f ∈ if level = 1 then files else [] at hf
    split at hf
    · exact ⟨‹_›, hf⟩
    · cases hf
  have hstored : ∀ e ∈ storedEntries (State.ofLevelOne mem files tables).current tables,
      e ∈ levelEntries tables files := by
    rintro e ⟨level, -, he⟩
    obtain ⟨f, hf, hef⟩ := mem_levelEntries.mp he
    exact mem_levelEntries.mpr ⟨f, (hfiles level f hf).2, hef⟩
  refine ⟨?_, hmem, .nil, ?_, ?_, .nil, ?_, ?_, ⟨?_, ?_⟩⟩
  · rintro e (he | he | he)
    · exact hparse e (mem_append_left _ he)
    · cases he
    · exact hparse e (mem_append_right _ (hstored e he))
  · intro level _
    change SortedLevel (if level = 1 then files else [])
    split
    · exact hsorted
    · exact ⟨.nil, by simp⟩
  · exact fun level f hf ↦ hwithin f (hfiles level f hf).2
  · rintro a ha b (hb | hb) huser
    · cases hb
    · exact hnewer a ha b (hstored b hb) huser
  · intro a ha
    cases ha
  · exact fun f hf ↦ absurd (hfiles 0 f hf).1 (by decide)
  · intro i j hij f hf g hg
    have hi := (hfiles i f hf).1
    have hj := (hfiles j g hg).1
    omega

/-- A newer value in the memtable, a deletion and a value in a file. -/
def exactFile : State ℕ ℕ :=
  State.ofLevelOne [⟨.mk' 1 5 .kTypeValue, 50⟩]
    [⟨7, 100, .mk' 1 2 .kTypeValue, .mk' 3 1 .kTypeValue⟩] fun number ↦
      if number = 7 then [⟨.mk' 1 2 .kTypeValue, 10⟩, ⟨.mk' 2 3 .kTypeDeletion, 0⟩,
        ⟨.mk' 3 1 .kTypeValue, 30⟩] else []

theorem get_and_scan_agree_of_file :
    ReadLayers exactFile ∧ LargestAttained exactFile ∧ exactFile.get 1 9 = .ok 50 ∧
      ∃ view : ℕ → Option ℕ, (∀ k, exactFile.get k 9 = GetStatus.ofResolved (view k)) ∧
        ∃ bound pairs, scan exactFile.newInternalIterator 9 bound (some 2) = some pairs ∧
          ∀ k v, (k, v) ∈ pairs ↔ 2 ≤ k ∧ view k = some v := by
  have hlayers : ReadLayers exactFile := by
    refine readLayers_ofLevelOne (by decide) (by unfold SortedEntries; decide)
      ⟨by decide, by decide⟩ ?_ (by decide)
    intro f hf
    obtain rfl := mem_singleton.mp hf
    exact ⟨by unfold SortedEntries; decide, by decide, by decide⟩
  have hlargest : LargestAttained exactFile := by
    intro level _ f hf
    change f ∈ if level = 1 then _ else [] at hf
    split at hf
    · obtain rfl := mem_singleton.mp hf
      exact ⟨⟨.mk' 3 1 .kTypeValue, 30⟩, by decide, rfl⟩
    · cases hf
  obtain ⟨view, -, hget, hscan⟩ := get_and_scan_agree hlayers hlargest 9
  obtain ⟨bound, pairs, hpairs, -, hmem⟩ := hscan (some 2)
  refine ⟨hlayers, hlargest, by decide, view, hget, bound, pairs, hpairs, fun k v ↦ ?_⟩
  rw [hmem]
  simp

/-- Two files of a level, the first of which ends before its largest key. -/
def looseFile : State ℕ ℕ :=
  State.ofLevelOne []
    [⟨7, 100, .mk' 1 9 .kTypeValue, .mk' 2 5 .kTypeValue⟩,
      ⟨8, 100, .mk' 2 3 .kTypeValue, .mk' 2 3 .kTypeValue⟩] fun number ↦
      if number = 7 then [⟨.mk' 1 9 .kTypeValue, 10⟩]
      else if number = 8 then [⟨.mk' 2 3 .kTypeValue, 20⟩] else []

/-- The first file hides the second one from lookups of the user key at which it should end. -/
theorem get_misses_scanned_entry : ReadLayers looseFile ∧ looseFile.get 2 9 = .notFound ∧
      scan looseFile.newInternalIterator 9 9 none = some [(1, 10), (2, 20)] := by
  refine ⟨?_, by decide, by decide⟩
  refine readLayers_ofLevelOne (by decide) .nil ⟨by decide, by decide⟩ ?_ (by decide)
  intro f hf
  simp only [mem_cons, not_mem_nil, or_false] at hf
  rcases hf with rfl | rfl
  · exact ⟨by unfold SortedEntries; decide, by decide, by decide⟩
  · exact ⟨by unfold SortedEntries; decide, by decide, by decide⟩

end LevelDB.Db.Engine
