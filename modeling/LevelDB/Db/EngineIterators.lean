import LevelDB.Db.EngineReads
import LevelDB.Db.Scan

/-!
# Iterators of a running database

The iterators that the database makes of its memtables and files in every state that a run leads to: those of
its users, and the input iterator of a compaction.  A user's iterator is followed through calls between which
nothing is written to the memtable.
-/

namespace LevelDB.Db.Engine

open Format TableFiles CompactionPick Lookup DropRules FileStore DbIter Library Table List

variable {K V : Type*} [LinearOrder K]

inductive Iterated (internal : AnyIterator (Entry K V) (InternalKey K)) (s : ℕ) :
    List (Call K) → DBIter internal.State K V → Prop
  | new : Iterated internal s [] (new internal.start)
  | call {calls : List (Call K)} {it it' : DBIter internal.State K V} {c : Call K} {fuel : ℕ} :
      Iterated internal s calls it → it.allows c = true →
      call internal.ops s fuel it c = some it' → Iterated internal s (calls ++ [c]) it'

section Faithful

variable {internal : AnyIterator (Entry K V) (InternalKey K)} {entries : List (Entry K V)} {s : ℕ}
  {R : internal.State → Option ℕ → Prop} {calls : List (Call K)} {it : DBIter internal.State K V}
  {jt : DBIter (Option ℕ) K V} {c : Call K}

omit [LinearOrder K] in
theorem allows_of_related (hrel : Related R it jt) (h : it.allows c = true) : jt.allows c = true := by
  cases c <;> simp_all [DBIter.allows, hrel.valid]

/-- The same calls over the list under the internal iterator lead to a related state. -/
theorem Iterated.related (hsim : Iterator.Simulates internal.ops (Iterator.ofList Entry.key entries) R)
    (hstart : R internal.start none) (h : Iterated internal s calls it) :
    ∃ jt, Related R it jt ∧ DbIter.Run (Iterator.ofList Entry.key entries) s calls jt := by
  induction h with
  | new => exact ⟨DbIter.new none, ⟨hstart, rfl, rfl, rfl, rfl⟩, .new none⟩
  | @call calls it it' c fuel _ hallows hcall ih =>
    obtain ⟨jt, hrel, hrun⟩ := ih
    have hcalls : Option.Rel (Related R) (some it')
        (DbIter.call (Iterator.ofList Entry.key entries) s fuel jt c) := hcall ▸ call_rel hsim hrel c
    generalize hjt' : DbIter.call (Iterator.ofList Entry.key entries) s fuel jt c = result at hcalls
    cases hcalls with
    | some hrel' => exact ⟨_, hrel', .call hrun (allows_of_related hrel hallows) hjt'⟩

theorem returns_of_related (hsim : Iterator.Simulates internal.ops (Iterator.ofList Entry.key entries) R)
    (hrel : Related R it jt) (h : Returns (Iterator.ofList Entry.key entries) s jt c) :
    Returns internal.ops s it c := by
  obtain ⟨fuel, jt', hcall⟩ := h
  have hcalls : Option.Rel (Related R) (call internal.ops s fuel it c) (some jt') :=
    hcall ▸ call_rel hsim hrel c
  generalize hit' : call internal.ops s fuel it c = result at hcalls
  cases hcalls with
  | some => exact ⟨fuel, _, hit'⟩

/-- No scan gets stuck when every entry is within the sequence number. -/
theorem callClear_of_visible (h : c = .seekToLast ∨ c = .prev → ∀ e ∈ entries, e.sequence ≤ s) :
    CallClear entries s jt c := by
  have hclear (hall : ∀ e ∈ entries, e.sequence ≤ s) (n : ℕ) : ScanClear entries s n :=
    ⟨0, Nat.zero_le n, fun _ e _ _ he ↦ hall e (mem_of_getElem? he), .inl rfl⟩
  cases c with
  | seekToLast => exact hclear (h (.inl rfl)) _
  | prev => exact fun _ _ ↦ hclear (h (.inr rfl)) _
  | _ => trivial

end Faithful

variable [Inhabited V]

/-- **Iterators read the history.**  In every run whose compactions start safely, an iterator at the latest
sequence number or at a snapshot is a cursor over the user keys that have a value in the history up to that
number, in their order: any sequence of calls leads to where it leads the cursor.  Calls that move forward
return, and at the latest sequence number all calls do. -/
theorem iterators_read_history (scoring : Scoring K) (actions : List (Action K V)) (state : State K V)
    (hrun : (engine scoring).Run SafeStep actions state) (s : ℕ)
    (hs : s = state.lastSequence ∨ s ∈ state.snapshots) :
    ∃ view : List (K × V), view.Pairwise (fun p q ↦ p.1 < q.1) ∧
      (∀ k v, (k, v) ∈ view ↔ (historyOf actions).get k s = .ok v) ∧
      ∀ calls it, Iterated state.newInternalIterator s calls it → current state.newInternalIterator.ops it =
            (Iterator.ofList Prod.fst view).get (cursorAfter view calls) ∧
          ∀ c, it.allows c = true → (c = .seekToLast ∨ c = .prev → s = state.lastSequence) →
            Returns state.newInternalIterator.ops s it c := by
  have h := readsHistory_of_run hrun
  have hlayers := h.sound.readLayers h.layered
  have hsorted := hlayers.mergedEntries_sorted
  have hparse : AllParse state.mergedEntries := fun e he ↦ hlayers.parses e (State.mem_mergedEntries.mp he)
  have hentries : {e | e ∈ state.mergedEntries} = state.allEntries := Set.ext fun e ↦ State.mem_mergedEntries
  refine ⟨userView state.mergedEntries s, userView_sorted hsorted, fun k v ↦ ?_, fun calls it hit ↦ ?_⟩
  · obtain ⟨value, hget, hvalue⟩ := History.resolves_get (fun e he ↦ (h.written e he).1) h.increasing k s
    rw [mem_userView hparse, hentries, h.reads s (hs.symm.imp_right fun h ↦ h.ge), hget]
    constructor
    · intro hv
      rw [resolves_unique h.increasing hvalue hv]
      rfl
    · intro hv
      cases value with
      | none => cases hv
      | some value =>
        obtain rfl := GetStatus.ok.inj hv
        exact hvalue
  · obtain ⟨R, hsim, hstart⟩ := hlayers.faithful_newInternalIterator
    obtain ⟨jt, hrel, hjt⟩ := hit.related hsim hstart
    obtain ⟨shown, hagrees, hcursor⟩ := hjt.agrees hsorted hparse
    refine ⟨?_, fun c hallows hc ↦ returns_of_related hsim hrel ?_⟩
    · rw [hrel.current_eq hsim, hagrees.current_eq, hcursor]
    · refine (call_returns_iff hsorted hparse hagrees (allows_of_related hrel hallows)).mpr
        (callClear_of_visible fun hback e he ↦ ?_)
      rw [hc hback]
      exact (h.sound.allEntries_written e (State.mem_mergedEntries.mp he)).2

/-- Two versions of the keys 1 and 5 in three tables of two levels, a memtable, and a snapshot between the
versions. -/
theorem iterators_read_history_after_compaction :
    ∃ (actions : List (Action ℕ ℕ)) (state : State ℕ ℕ) (view old : List (ℕ × ℕ)),
      (engine (exactScoring ℕ)).Run SafeStep actions state ∧
      (state.current.files 0).length = 1 ∧ (state.current.files 3).length = 2 ∧
      ((1, 11) ∈ view ∧ (3, 30) ∈ view ∧ ∀ v, (5, v) ∉ view) ∧ ((1, 10) ∈ old ∧ (5, 50) ∈ old) ∧
      (∀ calls it, Iterated state.newInternalIterator 5 calls it →
        current state.newInternalIterator.ops it =
          (Iterator.ofList Prod.fst view).get (cursorAfter view calls)) ∧
      ∀ calls it, Iterated state.newInternalIterator 2 calls it → current state.newInternalIterator.ops it =
          (Iterator.ofList Prod.fst old).get (cursorAfter old calls) := by
  obtain ⟨state, hrun, hlast, hsnapshots, hone, htwo⟩ := Machine.Run.of_exec (engine (exactScoring ℕ))
    takesWholeLevels (State.empty (exactScoring ℕ) 2) ⟨2, rfl⟩
    [.write [.put 1 10, .put 5 50], .getSnapshot, .switchMemTable, .compactMemTable 200000000,
      .beginCompaction, .write [.put 1 11, .delete 5], .switchMemTable, .finishOutput 1 100000000,
      .compactMemTable 100, .finishOutput 1 100000000, .installCompaction, .write [.put 3 30]]
    (fun state ↦ state.lastSequence = 5 ∧ state.snapshots = [2] ∧
      (state.current.files 0).length = 1 ∧ (state.current.files 3).length = 2) (by decide +kernel)
  have hsafe := hrun.mono fun _ _ ↦ SafeStep.of_takesWholeLevels
  obtain ⟨view, -, hview, hcalls⟩ := iterators_read_history _ _ state hsafe 5 (.inl hlast.symm)
  obtain ⟨old, -, hold, hcallsOld⟩ := iterators_read_history _ _ state hsafe 2 (.inr (by simp [hsnapshots]))
  refine ⟨_, state, view, old, hsafe, hone, htwo, ⟨?_, ?_, ?_⟩, ⟨?_, ?_⟩, ?_, ?_⟩
  · exact (hview 1 11).mpr (by decide)
  · exact (hview 3 30).mpr (by decide)
  · intro v hv
    cases (hview 5 v).mp hv
  · exact (hold 1 10).mpr (by decide)
  · exact (hold 5 50).mpr (by decide)
  · exact fun calls it hit ↦ (hcalls calls it hit).1
  · exact fun calls it hit ↦ (hcallsOld calls it hit).1

def inputIterators (tables : ℕ → List (Entry K V)) (level : ℕ) (files : List (FileMetaData K)) :
    List (AnyIterator (Entry K V) (InternalKey K)) :=
  if files.isEmpty then []
  else if level = 0 then files.map fun f ↦ AnyIterator.ofList Entry.key (tables f.number)
  else [newConcatenatingIterator tables files]

def makeInputIterator (tables : ℕ → List (Entry K V)) (c : Compaction K) :
    AnyIterator (Entry K V) (InternalKey K) :=
  Merger.newMergingIterator Entry.key
    (inputIterators tables c.level c.inputs0 ++ inputIterators tables (c.level + 1) c.inputs1)

omit [Inhabited V] in
theorem inputIterators_spec {files : ℕ → List (FileMetaData K)} {tables : ℕ → List (Entry K V)}
    {nextFileNumber level : ℕ} (h : WellStored files tables nextFileNumber) {inputs : List (FileMetaData K)}
    (hinputs : inputs.Sublist (files level)) :
    ∃ runs, List.Forall₂ (AnyIterator.Faithful Entry.key) (inputIterators tables level inputs) runs ∧
      (∀ run ∈ runs, SortedEntries run) ∧ runs.flatten = levelEntries tables inputs := by
  have hwithin : ∀ f ∈ inputs, TableWithin f (tables f.number) :=
    fun f hf ↦ (h.table level f (hinputs.subset hf)).within
  unfold inputIterators
  split_ifs with hempty hzero
  · rw [isEmpty_iff.mp hempty]
    exact ⟨[], .nil, by simp, rfl⟩
  · refine ⟨inputs.map fun f ↦ tables f.number, ?_, ?_, flatMap_def.symm⟩
    · rw [forall₂_map_left_iff, forall₂_map_right_iff, forall₂_same]
      exact fun f _ ↦ AnyIterator.faithful_ofList _ _
    · simpa using fun f hf ↦ (hwithin f hf).sorted
  · have hsorted : SortedLevel inputs :=
      ⟨(h.sorted level hzero).ordered.sublist hinputs,
        fun f hf ↦ (h.sorted level hzero).valid f (hinputs.subset hf)⟩
    exact ⟨[levelEntries tables inputs], .cons (faithful_newConcatenatingIterator hsorted hwithin) .nil,
      by simpa using levelEntries_sorted hsorted hwithin, append_nil _⟩

/-- **A compaction reads its inputs.**  In every reachable state the input iterator of the compaction that
`PickCompaction` chooses is a cursor over all entries of the input files, each once and in internal-key
order. -/
theorem compactions_read_inputs (scoring : Scoring K) (state : State K V)
    (hreach : (engine scoring).Reachable state) (c : Compaction K)
    (hpick : state.current.pickCompaction state.compactPointer = some c) :
    (makeInputIterator state.tables c).Faithful Entry.key (mergedInputs state.tables c) ∧
      SortedEntries (mergedInputs state.tables c) ∧
      ∀ e, e ∈ mergedInputs state.tables c ↔ ∃ f ∈ c.inputs0 ++ c.inputs1, e ∈ state.tables f.number := by
  have h := sound_of_reachable hreach
  obtain ⟨range, hpicked⟩ := Version.pickCompaction_spec h.pickable hpick
  have hmerged := mergedInputs_sorted h.stored hpicked.inputs0.sublist (Picked.inputs1_sublist hpicked)
  obtain ⟨runs0, hfaithful0, hsorted0, hflatten0⟩ := inputIterators_spec h.stored hpicked.inputs0.sublist
  obtain ⟨runs1, hfaithful1, hsorted1, hflatten1⟩ :=
    inputIterators_spec h.stored (Picked.inputs1_sublist hpicked)
  have hflatten : (runs0 ++ runs1).flatten = levelEntries state.tables (c.inputs0 ++ c.inputs1) := by
    rw [flatten_append, hflatten0, hflatten1]
    exact flatMap_append.symm
  have hkeys : (levelEntries state.tables (c.inputs0 ++ c.inputs1)).Pairwise fun a b ↦ a.key ≠ b.key :=
    (perm_insertionSort _ _).pairwise (hmerged.imp fun hlt ↦ hlt.ne) fun hne ↦ hne.symm
  rw [← hflatten, pairwise_flatten] at hkeys
  refine ⟨?_, hmerged, fun e ↦ by rw [mem_mergedInputs, mem_levelEntries]⟩
  refine Merger.faithful_newMergingIterator (rel_append hfaithful0 hfaithful1)
    (forall_mem_append.mpr ⟨hsorted0, hsorted1⟩) hkeys.2 hmerged fun e ↦ ?_
  rw [mem_mergedInputs, ← hflatten, mem_flatten]

/-- Four tables of level 0 and one of level 1, which all hold the key 3. -/
theorem compactions_read_inputs_of_five : ∃ (state : State ℕ ℕ) (c : Compaction ℕ),
      state.current.pickCompaction state.compactPointer = some c ∧
      c.inputs0.length = 4 ∧ c.inputs1.length = 1 ∧
      (mergedInputs state.tables c).map Entry.sequence = [6, 5, 4, 3, 2] ∧
      (makeInputIterator state.tables c).Faithful Entry.key (mergedInputs state.tables c) := by
  obtain ⟨state, hrun, hsome⟩ := Machine.Run.of_exec (engine (exactScoring ℕ)) (fun _ _ ↦ true)
    (State.empty (exactScoring ℕ) 2) ⟨2, rfl⟩
    ([1, 2, 3, 4, 5, 6].flatMap fun v ↦ [.write [.put 3 v], .switchMemTable, .compactMemTable 100])
    (fun state ↦ ∃ c, c ∈ state.current.pickCompaction state.compactPointer ∧
      c.inputs0.length = 4 ∧ c.inputs1.length = 1 ∧
      (mergedInputs state.tables c).map Entry.sequence = [6, 5, 4, 3, 2]) (by decide +kernel)
  obtain ⟨c, hpick, hzero, hone, hmerged⟩ := hsome
  have hreach := Machine.ReachableWhen.reachable ⟨_, hrun⟩
  exact ⟨state, c, hpick, hzero, hone, hmerged, (compactions_read_inputs _ state hreach c hpick).1⟩

end LevelDB.Db.Engine
