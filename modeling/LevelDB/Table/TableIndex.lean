import LevelDB.Table.TableBuilder

/-!
# The index of a table

What a table builder does over a whole run.  It gathers the entries of the first data block, and writes it.
If another entry is added then, the builder is stuck: its next operation fails an assertion.  Once a file
operation has failed, no more assertion is reached.
-/

namespace LevelDB.Table.TableIndex

open Util Util.Coding Db.Log Block BlockBuilder FilterBlock Format TableBuilder List

section Holding

variable {τ : Type*} [LinearOrder τ] {rank : List UInt8 → τ} {interval : ℕ} {entries : List Entry} {e : Entry}

/-- What `Add` needs of a block builder with these entries, whatever their sizes are. -/
structure Holding (interval : ℕ) (entries : List Entry) (b : Builder) : Prop where
  counter_le : b.counter ≤ interval
  finished : b.finished = false
  lastKey : b.lastKey = lastKeyOf [] entries
  buffer_eq_nil : b.buffer = [] ↔ entries = []

theorem holding_empty : Holding interval [] {} := ⟨Nat.zero_le _, rfl, rfl, by simp⟩

theorem Holding.add (hinterval : 1 ≤ interval) {b : Builder} (h : Holding interval entries b)
    (hsorted : (entries ++ [e]).Pairwise fun a b ↦ rank a.1 < rank b.1) :
    ∃ b', b.add rank interval e = some b' ∧ Holding interval (entries ++ [e]) b' := by
  have horder : b.buffer = [] ∨ rank b.lastKey < rank e.1 := by
    cases entries using List.reverseRecOn with
    | nil => exact .inl (h.buffer_eq_nil.mpr rfl)
    | append_singleton rest e' =>
      right
      rw [h.lastKey, lastKeyOf_concat]
      exact (pairwise_append.mp hsorted).2.2 e' (by simp) e (by simp)
  have hkey : ∀ shared, shared = (if b.counter < interval then sharedPrefix b.lastKey e.1 else 0) →
      b.lastKey.take shared ++ e.1.drop shared = e.1 := by
    rintro shared rfl
    split
    · rw [take_sharedPrefix, take_append_drop]
    · rfl
  rw [Builder.add, if_pos ⟨h.finished, h.counter_le, horder⟩]
  simp only [hkey _ rfl, if_true]
  refine ⟨_, rfl, ?_, h.finished, ?_, ?_⟩
  · dsimp only
    split <;> omega
  · rw [lastKeyOf_concat]
  · simp [putVarint32, encodeVarint32_ne_nil]

/-- A sorted list goes into a block. -/
theorem exists_holding (hinterval : 1 ≤ interval) (hsorted : entries.Pairwise fun a b ↦ rank a.1 < rank b.1) :
    ∃ b, entries.foldlM (Builder.add rank interval) {} = some b ∧ Holding interval entries b := by
  induction entries using List.reverseRecOn with
  | nil => exact ⟨{}, rfl, holding_empty⟩
  | append_singleton entries e ih =>
    obtain ⟨b, hfold, hb⟩ := ih (pairwise_append.mp hsorted).1
    obtain ⟨b', hadd, hb'⟩ := hb.add hinterval hsorted
    refine ⟨b', ?_, hb'⟩
    rw [foldlM_append, hfold]
    simp [hadd]

theorem build_eq_some (hinterval : 1 ≤ interval) {b : Builder}
    (h : entries.foldlM (Builder.add rank interval) {} = some b) :
    build rank interval entries = some b.finish.buffer := by
  simp [build, BlockBuilder.new, hinterval, h]

end Holding

section Writing

variable (crc : BlockChecksum) (faults : ℕ → Bool) {τ : Type*} [LinearOrder τ] (options : Options τ)

theorem append_cases (r : Rep) (data : List UInt8) :
    (r.append faults data = { r with operations := r.operations + 1, status := .ioError }) ∨
      r.append faults data = { r with operations := r.operations + 1, file := r.file ++ data, status := .ok } ∧
        r.file.length + data.length < 2 ^ 64 - 1 := by
  unfold Rep.append
  split
  · exact .inl rfl
  · rename_i h
    exact .inr ⟨rfl, by omega⟩

/-- A raw block is written, or an operation fails; the members that are not about the file stay. -/
theorem writeRawBlock_cases (r : Rep) (contents : List UInt8) (type : CompressionType) :
    ∃ file operations offset status, r.writeRawBlock crc faults contents type =
        ({ r with file := file, operations := operations, offset := offset, status := status },
          ⟨r.offset, contents.length⟩) ∧
      (status = .ioError ∨ status = .ok ∧ file = r.file ++ (contents ++ blockTrailer crc type contents) ∧
        offset = r.offset + (contents.length + kBlockTrailerSize) ∧ file.length < 2 ^ 64 - 1) := by
  unfold Rep.writeRawBlock
  rcases append_cases faults r contents with hfirst | ⟨hfirst, -⟩
  · refine ⟨r.file, r.operations + 1, r.offset, .ioError, ?_, .inl rfl⟩
    rw [hfirst]
    rfl
  · rcases append_cases faults (r.append faults contents) (blockTrailer crc type contents) with
      hsecond | ⟨hsecond, hlength⟩
    · refine ⟨r.file ++ contents, r.operations + 2, r.offset, .ioError, ?_, .inl rfl⟩
      simp only [hsecond]
      rw [hfirst]
      rfl
    · refine ⟨r.file ++ (contents ++ blockTrailer crc type contents), r.operations + 2,
        r.offset + (contents.length + kBlockTrailerSize), .ok, ?_, .inr ⟨rfl, rfl, rfl, ?_⟩⟩
      · simp only [hsecond]
        rw [hfirst]
        simp
      · rw [hfirst] at hlength
        simp only [length_append] at hlength ⊢
        omega

theorem writeBlock_eq {r : Rep} (hstatus : r.status = .ok) (block : Builder) :
    r.writeBlock crc faults options block =
      some (r.writeRawBlock crc faults block.finish.buffer .kNoCompression) := by
  unfold Rep.writeBlock
  rw [if_pos hstatus]
  cases options.compression with
  | kNoCompression => rfl
  | kSnappyCompression => rfl

theorem startFilterBlock_spec {r : Rep} {P : Rep → Prop}
    (hfilter : ∀ filterBlock ∈ r.filterBlock, filterBlock.filterOffsets = [])
    (hP : ∀ filterBlock, P { r with filterBlock := filterBlock }) :
    ∃ r', r.startFilterBlock options = some r' ∧ P r' := by
  unfold Rep.startFilterBlock
  split
  · rename_i policy filterBlock _ hblock
    have hle : filterBlock.filterOffsets.length ≤ r.offset / kFilterBase := by
      rw [hfilter filterBlock hblock]
      exact Nat.zero_le _
    simp only [FilterBlockBuilder.startBlock, if_pos hle]
    exact ⟨_, rfl, hP _⟩
  · exact ⟨r, rfl, hP r.filterBlock⟩

end Writing

section Phases

variable (crc : BlockChecksum) {faults : ℕ → Bool} {τ : Type*} [LinearOrder τ] (options : Options τ)

/-- No data block has been written. -/
structure Gathering (current : List Entry) (r : Rep) : Prop where
  status : r.status = .ok
  closed : r.closed = false
  pending : r.pendingIndexEntry = false
  dataBlock : current.foldlM (Builder.add options.comparator.rank options.blockRestartInterval) {} =
    some r.dataBlock
  file : r.file = []
  offset : r.offset = 0
  indexBlock : r.indexBlock = {}
  lastKey : r.lastKey = lastKeyOf [] current
  numEntries : r.numEntries = current.length
  filter : ∀ filterBlock ∈ r.filterBlock, filterBlock.filterOffsets = []

structure Written (block : List Entry) (r : Rep) : Prop where
  status : r.status = .ok
  closed : r.closed = false
  pending : r.pendingIndexEntry = true
  dataBlock : r.dataBlock.buffer = []
  indexBlock : r.indexBlock = {}
  lastKey : r.lastKey = lastKeyOf [] block
  contents : ∃ contents, build options.comparator.rank options.blockRestartInterval block = some contents ∧
    r.pendingHandle = ⟨0, contents.length⟩ ∧ r.file = contents ++ blockTrailer crc .kNoCompression contents ∧
    r.offset = r.file.length ∧ r.file.length < 2 ^ 64 - 1

/-- The index entry is pending although the data block has entries. -/
structure Stuck (r : Rep) : Prop where
  status : r.status = .ok
  closed : r.closed = false
  pending : r.pendingIndexEntry = true
  dataBlock : r.dataBlock.buffer ≠ []

/-- A file operation has failed. -/
structure Failed (r : Rep) : Prop where
  status : r.status ≠ .ok
  closed : r.closed = false

variable {crc options} {current : List Entry} {r : Rep} {e : Entry}

theorem Failed.flush_eq (h : Failed r) : r.flush crc faults options = some r := by
  simp [Rep.flush, h.closed, h.status]

theorem Failed.add_eq (h : Failed r) : r.add crc faults options e = some r := by
  simp [Rep.add, h.closed, h.status]

theorem Written.flush_eq (h : Written crc options current r) : r.flush crc faults options = some r := by
  simp [Rep.flush, h.closed, h.status, h.dataBlock]

theorem Stuck.flush_eq (h : Stuck r) : r.flush crc faults options = none := by
  simp [Rep.flush, h.closed, h.status, h.dataBlock, h.pending]

theorem Stuck.add_eq (h : Stuck r) : r.add crc faults options e = none := by
  simp [Rep.add, Rep.addIndexEntry, h.closed, h.status, h.dataBlock, h.pending]

theorem Gathering.flush_nil (h : Gathering options [] r) : r.flush crc faults options = some r := by
  have hblock : r.dataBlock = {} := (Option.some.inj h.dataBlock).symm
  simp [Rep.flush, h.closed, h.status, hblock]

section

variable (hinterval : 1 ≤ options.blockRestartInterval)
include hinterval

theorem Gathering.holding (h : Gathering options current r)
    (hsorted : current.Pairwise fun a b ↦ options.comparator.rank a.1 < options.comparator.rank b.1) :
    Holding options.blockRestartInterval current r.dataBlock := by
  obtain ⟨b, hfold, hb⟩ := exists_holding hinterval hsorted
  cases hfold.symm.trans h.dataBlock
  exact hb

/-- The first data block is written, or a file operation fails. -/
theorem Gathering.flush (h : Gathering options current r)
    (hsorted : current.Pairwise fun a b ↦ options.comparator.rank a.1 < options.comparator.rank b.1)
    (hnil : current ≠ []) :
    ∃ r', r.flush crc faults options = some r' ∧ (Failed r' ∨ Written crc options current r') := by
  have hbuffer : r.dataBlock.buffer ≠ [] := fun hempty ↦
    hnil ((h.holding hinterval hsorted).buffer_eq_nil.mp hempty)
  have hbuild := build_eq_some hinterval h.dataBlock
  obtain ⟨file, operations, offset, status, hwrite, hcases⟩ :=
    writeRawBlock_cases crc faults r r.dataBlock.finish.buffer .kNoCompression
  simp only [Rep.flush, h.closed, Bool.false_eq_true, if_false, if_neg (not_not.mpr h.status), if_neg hbuffer,
    h.pending, writeBlock_eq crc faults options h.status, hwrite, Option.bind_eq_bind, Option.bind_some]
  rcases hcases with rfl | ⟨rfl, hfile, hoffset, hlength⟩
  · simp only [reduceCtorEq, if_false]
    refine startFilterBlock_spec options ?_ ?_
    · exact h.filter
    · exact fun _ ↦ .inl ⟨by simp, rfl⟩
  · simp only [if_true, Rep.flushFile]
    refine startFilterBlock_spec options ?_ ?_
    · exact h.filter
    · intro filterBlock
      by_cases hfault : faults operations = true
      · exact .inl ⟨by simp [hfault], rfl⟩
      · refine .inr ⟨by simp [hfault], rfl, rfl, rfl, h.indexBlock, h.lastKey, _, hbuild, ?_, ?_, ?_, hlength⟩
        · rw [h.offset]
        · rw [hfile, h.file, nil_append]
        · rw [hoffset, hfile, h.offset, h.file, nil_append, length_append, length_blockTrailer,
            Nat.zero_add]

/-- An entry goes into the first data block. -/
theorem Gathering.add (h : Gathering options current r)
    (hsorted : (current ++ [e]).Pairwise fun a b ↦ options.comparator.rank a.1 < options.comparator.rank b.1) :
    ∃ r', r.add crc faults options e = some r' ∧
      (Failed r' ∨ full options (current ++ [e]) = true ∧ Written crc options (current ++ [e]) r' ∨
        full options (current ++ [e]) = false ∧ Gathering options (current ++ [e]) r') := by
  have horder : ¬(0 < r.numEntries ∧ ¬options.comparator.rank r.lastKey < options.comparator.rank e.1) := by
    rintro ⟨hpos, hge⟩
    rw [h.numEntries] at hpos
    rw [h.lastKey] at hge
    cases current using List.reverseRecOn with
    | nil => cases hpos
    | append_singleton rest e' =>
      rw [lastKeyOf_concat] at hge
      exact hge ((pairwise_append.mp hsorted).2.2 e' (by simp) e (by simp))
  have hindex : r.addIndexEntry options e.1 = some r := by simp [Rep.addIndexEntry, h.pending]
  have hholding := h.holding hinterval (pairwise_append.mp hsorted).1
  obtain ⟨b, hadd, -⟩ := hholding.add hinterval hsorted
  have hfold : (current ++ [e]).foldlM (Builder.add options.comparator.rank options.blockRestartInterval) {} =
      some b := by
    rw [foldlM_append, h.dataBlock]
    simp [hadd]
  -- the state before the size is looked at
  have hnext : Gathering options (current ++ [e]) { r.noteKey e.1 with dataBlock := b } := by
    refine ⟨h.status, h.closed, h.pending, hfold, h.file, h.offset, h.indexBlock, ?_, ?_, ?_⟩
    · exact (lastKeyOf_concat [] current e).symm
    · change r.numEntries + 1 = (current ++ [e]).length
      rw [length_append, h.numEntries, length_singleton]
    · intro filterBlock hfilter
      obtain ⟨old, hold, rfl⟩ := Option.map_eq_some_iff.mp hfilter
      exact h.filter old hold
  have hstep : r.add crc faults options e = if options.blockSize ≤ b.currentSizeEstimate then
      Rep.flush crc faults options { r.noteKey e.1 with dataBlock := b }
      else some { r.noteKey e.1 with dataBlock := b } := by
    rw [Rep.add, if_neg (Bool.not_eq_true _ ▸ h.closed), if_neg (not_not.mpr h.status), if_neg horder, hindex]
    have hadd' : (r.noteKey e.1).dataBlock.add options.comparator.rank options.blockRestartInterval e = some b :=
      hadd
    simp only [Option.bind_eq_bind, Option.bind_some, hadd']
    rfl
  rw [hstep, full, hfold]
  by_cases hfull : options.blockSize ≤ b.currentSizeEstimate
  · rw [if_pos hfull]
    have hwrite : ∃ r', Rep.flush crc faults options { r.noteKey e.1 with dataBlock := b } = some r' ∧
        (Failed r' ∨ Written crc options (current ++ [e]) r') := hnext.flush hinterval hsorted (by simp)
    obtain ⟨r', hflush, hfailed | hwritten⟩ := hwrite
    · exact ⟨r', hflush, .inl hfailed⟩
    · exact ⟨r', hflush, .inr (.inl ⟨decide_eq_true hfull, hwritten⟩)⟩
  · rw [if_neg hfull]
    exact ⟨_, rfl, .inr (.inr ⟨decide_eq_false hfull, hnext⟩)⟩

end

/-- The block builder is not empty after an entry. -/
theorem buffer_ne_nil_of_add {rank : List UInt8 → τ} {interval : ℕ} {b b' : Builder}
    (h : b.add rank interval e = some b') : b'.buffer ≠ [] := by
  simp only [Builder.add, Option.ite_none_right_eq_some, Option.some.injEq] at h
  obtain ⟨-, -, rfl⟩ := h
  simp [putVarint32, encodeVarint32_ne_nil]

theorem addIndexEntry_frame {key : List UInt8} {r' : Rep} (h : r.addIndexEntry options key = some r') :
    r'.status = r.status ∧ r'.closed = r.closed ∧ r'.pendingIndexEntry = r.pendingIndexEntry := by
  unfold Rep.addIndexEntry at h
  split at h
  · split at h
    · obtain ⟨_, -, h⟩ := Option.bind_eq_some_iff.mp h
      obtain ⟨_, -, h⟩ := Option.bind_eq_some_iff.mp h
      cases h
      exact ⟨rfl, rfl, rfl⟩
    · cases h
  · cases h
    exact ⟨rfl, rfl, rfl⟩

/-- With a pending index entry, an added entry leaves the builder stuck if it does not fail. -/
theorem add_pending (hstatus : r.status = .ok) (hclosed : r.closed = false)
    (hpending : r.pendingIndexEntry = true) :
    r.add crc faults options e = none ∨ ∃ r', r.add crc faults options e = some r' ∧ Stuck r' := by
  rw [Rep.add, hclosed, if_neg (by simp), if_neg (not_not.mpr hstatus)]
  split
  · exact .inl rfl
  · cases hindex : r.addIndexEntry options e.1 with
    | none => exact .inl rfl
    | some r₁ =>
      obtain ⟨hstatus₁, hclosed₁, hpending₁⟩ := addIndexEntry_frame hindex
      simp only [Option.bind_eq_bind, Option.bind_some]
      cases hadd : r₁.dataBlock.add options.comparator.rank options.blockRestartInterval e with
      | none =>
        have hadd' : (r₁.noteKey e.1).dataBlock.add options.comparator.rank
            options.blockRestartInterval e = none :=
          hadd
        simp [hadd']
      | some b =>
        have hadd' : (r₁.noteKey e.1).dataBlock.add options.comparator.rank options.blockRestartInterval e =
            some b := hadd
        have hstuck : Stuck { r₁.noteKey e.1 with dataBlock := b } :=
          ⟨hstatus₁.trans hstatus, hclosed₁.trans hclosed, hpending₁.trans hpending, buffer_ne_nil_of_add hadd⟩
        simp only [hadd', Option.bind_some]
        split
        · exact .inl hstuck.flush_eq
        · exact .inr ⟨_, rfl, hstuck⟩

end Phases

section Runs

variable (crc : BlockChecksum) {faults : ℕ → Bool} {τ : Type*} [LinearOrder τ] (options : Options τ)

/-- The data blocks of the calls so far, if no more entries come. -/
def blocksOf (p : List (List Entry) × List Entry) : List (List Entry) := if p.2 = [] then p.1 else p.1 ++ [p.2]

/-- A block is complete, and there are entries after it. -/
def Several (p : List (List Entry) × List Entry) : Prop := p.1 ≠ [] ∧ (p.2 ≠ [] ∨ 2 ≤ p.1.length)

/-- The builder after some calls, or the failed assertion. -/
inductive Tracks : List (List Entry) × List Entry → Option Rep → Prop
  | failed {p : List (List Entry) × List Entry} {r : Rep} (h : Failed r) : Tracks p (some r)
  | gathering {current : List Entry} {r : Rep} (h : Gathering options current r) : Tracks ([], current) (some r)
  | written {block : List Entry} {r : Rep} (h : Written crc options block r) : Tracks ([block], []) (some r)
  | stuck {p : List (List Entry) × List Entry} {r : Rep} (hseveral : Several p) (h : Stuck r) : Tracks p (some r)
  | aborted {p : List (List Entry) × List Entry} (hseveral : Several p) : Tracks p none

variable {crc options} {p : List (List Entry) × List Entry} {op : Op} {result : Option Rep}

theorem Several.two_le (h : Several p) : 2 ≤ (blocksOf p).length := by
  have hpos := length_pos_iff.mpr h.1
  unfold blocksOf
  split
  · exact h.2.resolve_left (not_not.mpr ‹_›)
  · rw [length_append, length_singleton]
    omega

theorem several_add {blocks : List (List Entry)} {current : List Entry} (hblocks : blocks ≠ []) (e : Entry) :
    Several (place options (blocks, current) (.add e)) := by
  have hpos := length_pos_iff.mpr hblocks
  rw [place]
  split
  · exact ⟨by simp, .inr (by simp; omega)⟩
  · exact ⟨hblocks, .inl (by simp)⟩

theorem Several.place (h : Several p) : Several (place options p op) := by
  obtain ⟨blocks, current⟩ := p
  cases op with
  | add e => exact several_add h.1 e
  | flush =>
    rw [TableBuilder.place]
    split
    · exact ⟨h.1, .inr (h.2.resolve_left (not_not.mpr ‹_›))⟩
    · have hpos : 0 < blocks.length := length_pos_iff.mpr h.1
      exact ⟨by simp, .inr (by simp; omega)⟩

variable (options) in
/-- The entries so far, in order. -/
theorem entries_place : (place options p op).1.flatten ++ (place options p op).2 =
    p.1.flatten ++ p.2 ++ entriesOf [op] := by
  obtain ⟨blocks, current⟩ := p
  cases op with
  | add e =>
    rw [place]
    split <;> simp [entriesOf]
  | flush =>
    rw [place]
    split
    · simp [entriesOf, ‹current = []›]
    · simp [entriesOf]

theorem entriesOf_cons (op : Op) (ops : List Op) : entriesOf (op :: ops) = entriesOf [op] ++ entriesOf ops := by
  rw [entriesOf, entriesOf, entriesOf, ← filterMap_append, singleton_append]

variable (options) in
theorem entries_foldl (ops : List Op) : (ops.foldl (place options) p).1.flatten ++
    (ops.foldl (place options) p).2 = p.1.flatten ++ p.2 ++ entriesOf ops := by
  induction ops generalizing p with
  | nil => simp [entriesOf]
  | cons op ops ih =>
    rw [foldl_cons, ih, entries_place, entriesOf_cons op ops, ← append_assoc]

section

variable (hinterval : 1 ≤ options.blockRestartInterval)
include hinterval

theorem Tracks.step (h : Tracks crc options p result)
    (hsorted : (p.1.flatten ++ p.2 ++ entriesOf [op]).Pairwise fun a b ↦
      options.comparator.rank a.1 < options.comparator.rank b.1) :
    Tracks crc options (place options p op) (result.bind fun r ↦ r.step crc faults options op) := by
  cases h with
  | failed h =>
    cases op with
    | add e =>
      rw [Option.bind_some, Rep.step, h.add_eq]
      exact .failed h
    | flush =>
      rw [Option.bind_some, Rep.step, h.flush_eq]
      exact .failed h
  | @gathering current r h =>
    cases op with
    | add e =>
      have hadd : ∃ r', r.add crc faults options e = some r' ∧ (Failed r' ∨
          full options (current ++ [e]) = true ∧ Written crc options (current ++ [e]) r' ∨
            full options (current ++ [e]) = false ∧ Gathering options (current ++ [e]) r') :=
        h.add hinterval hsorted
      obtain ⟨r', hadd, hfailed | ⟨hfull, hwritten⟩ | ⟨hfull, hgathering⟩⟩ := hadd
      · rw [Option.bind_some, Rep.step, hadd]
        exact .failed hfailed
      · rw [Option.bind_some, Rep.step, hadd, place, hfull]
        exact .written hwritten
      · rw [Option.bind_some, Rep.step, hadd, place, hfull]
        exact .gathering hgathering
    | flush =>
      rw [Option.bind_some, Rep.step, place]
      by_cases hnil : current = []
      · subst hnil
        rw [h.flush_nil]
        exact .gathering h
      · have hcurrent : current.Pairwise fun a b ↦
            options.comparator.rank a.1 < options.comparator.rank b.1 := by simpa [entriesOf] using hsorted
        have hflush : ∃ r', r.flush crc faults options = some r' ∧
            (Failed r' ∨ Written crc options current r') := h.flush hinterval hcurrent hnil
        obtain ⟨r', hflush, hfailed | hwritten⟩ := hflush
        · rw [hflush]
          exact .failed hfailed
        · rw [hflush, if_neg hnil]
          exact .written hwritten
  | @written block r h =>
    cases op with
    | add e =>
      have hseveral : Several (place options ([block], []) (.add e)) := several_add (cons_ne_nil block []) e
      have hadd : r.add crc faults options e = none ∨ ∃ r', r.add crc faults options e = some r' ∧ Stuck r' :=
        add_pending h.status h.closed h.pending
      rw [Option.bind_some, Rep.step]
      rcases hadd with hnone | ⟨r', hsome, hstuck⟩
      · rw [hnone]
        exact .aborted hseveral
      · rw [hsome]
        exact .stuck hseveral hstuck
    | flush =>
      rw [Option.bind_some, Rep.step, h.flush_eq]
      exact .written h
  | stuck hseveral h =>
    cases op with
    | add e =>
      rw [Option.bind_some, Rep.step, h.add_eq]
      exact .aborted hseveral.place
    | flush =>
      rw [Option.bind_some, Rep.step, h.flush_eq]
      exact .aborted hseveral.place
  | aborted hseveral => exact .aborted hseveral.place

theorem Tracks.run {ops : List Op} (h : Tracks crc options p result)
    (hsorted : (p.1.flatten ++ p.2 ++ entriesOf ops).Pairwise fun a b ↦
      options.comparator.rank a.1 < options.comparator.rank b.1) :
    Tracks crc options (ops.foldl (place options) p)
      (result.bind fun r ↦ ops.foldlM (Rep.step crc faults options) r) := by
  induction ops generalizing p result with
  | nil => simpa using h
  | cons op ops ih =>
    rw [entriesOf_cons, ← append_assoc] at hsorted
    have hstep : Tracks crc options (place options p op) (result.bind fun r ↦ r.step crc faults options op) :=
      h.step hinterval (pairwise_append.mp hsorted).1
    rw [← entries_place options] at hsorted
    have hrun := ih hstep hsorted
    rw [Option.bind_assoc] at hrun
    exact hrun

theorem tracks_new : Tracks crc options ([], []) (Rep.new options) := by
  have hnew : BlockBuilder.new options.blockRestartInterval = some {} := if_pos hinterval
  have hstart : ∀ policy, FilterBlockBuilder.startBlock policy {} 0 = some {} := by
    intro policy
    rw [FilterBlockBuilder.startBlock, Nat.zero_div, FilterBlockBuilder.generateUpTo]
    rfl
  simp only [Rep.new, hnew, Option.bind_eq_bind, Option.bind_some, Rep.startFilterBlock]
  cases hpolicy : options.filterPolicy with
  | none => exact .gathering ⟨rfl, rfl, rfl, rfl, rfl, rfl, rfl, rfl, rfl, by simp⟩
  | some policy =>
    simp only [Option.map_some, hstart, Option.bind_some]
    exact .gathering ⟨rfl, rfl, rfl, rfl, rfl, rfl, rfl, rfl, rfl, by simp⟩

end

end Runs

section Closing

variable (crc : BlockChecksum) (faults : ℕ → Bool) {τ : Type*} [LinearOrder τ] (options : Options τ)

/-- All data blocks have been written, and nothing has failed. -/
structure Closing (blocks : List (List Entry)) (r : Rep) : Prop where
  status : r.status = .ok
  offset : r.offset = r.file.length
  length_lt : r.file.length < 2 ^ 64 - 1
  indexBlock : r.indexBlock = {}
  pending : blocks = [] ∧ r.pendingIndexEntry = false ∨
    ∃ block contents rest, blocks = [block] ∧ r.pendingIndexEntry = true ∧ r.lastKey = lastKeyOf [] block ∧
      build options.comparator.rank options.blockRestartInterval block = some contents ∧
      r.pendingHandle = ⟨0, contents.length⟩ ∧ r.file = contents ++ rest

def Usable (handle : BlockHandle) : Prop := handle.offset < 2 ^ 64 - 1 ∧ handle.size < 2 ^ 64 - 1

def HasIndex (blocks : List (List Entry)) (file : List UInt8) (handle : BlockHandle) : Prop :=
  ∃ index, build options.comparator.rank 1 index = some (contentsAt file handle) ∧
    Indexes options blocks file index

variable {options} {blocks : List (List Entry)} {r : Rep}

theorem Closing.writeRawBlock (h : Closing options blocks r) (contents : List UInt8) :
    ∃ r', r.writeRawBlock crc faults contents .kNoCompression = (r', ⟨r.offset, contents.length⟩) ∧
      r'.filterBlock = r.filterBlock ∧
      (r'.status ≠ .ok ∨ Closing options blocks r' ∧ Usable ⟨r.offset, contents.length⟩ ∧
        r'.file = r.file ++ (contents ++ blockTrailer crc .kNoCompression contents)) := by
  obtain ⟨file, operations, offset, status, hwrite, hcases⟩ :=
    writeRawBlock_cases crc faults r contents .kNoCompression
  refine ⟨_, hwrite, rfl, ?_⟩
  rcases hcases with rfl | ⟨rfl, hfile, hoffset, hlength⟩
  · exact .inl (by simp)
  · have htotal := congrArg List.length hfile
    rw [length_append, length_append, length_blockTrailer] at htotal
    refine .inr ⟨⟨rfl, ?_, hlength, h.indexBlock, ?_⟩, ⟨?_, ?_⟩, hfile⟩
    · change offset = file.length
      rw [hoffset, h.offset, htotal]
    · rcases h.pending with ⟨hnil, hpending⟩ |
        ⟨block, data, rest, hblocks, hpending, hlast, hbuild, hhandle, hdata⟩
      · exact .inl ⟨hnil, hpending⟩
      · refine .inr ⟨block, data, rest ++ (contents ++ blockTrailer crc .kNoCompression contents), hblocks,
          hpending, hlast, hbuild, hhandle, ?_⟩
        change file = _
        rw [hfile, hdata, append_assoc]
    · change r.offset < _
      rw [h.offset]
      exact h.length_lt
    · change contents.length < _
      omega

theorem Closing.writeFilterBlock (h : Closing options blocks r) :
    ∃ r' handle, r.writeFilterBlock crc faults options = (r', handle) ∧ r'.filterBlock = r.filterBlock ∧
      (r'.status ≠ .ok ∨ Closing options blocks r' ∧
        (options.filterPolicy.isSome → r.filterBlock.isSome → Usable handle)) := by
  unfold Rep.writeFilterBlock
  split
  · rw [if_pos h.status]
    obtain ⟨r', hwrite, hfilter, hcases⟩ := h.writeRawBlock crc faults _
    refine ⟨r', _, hwrite, hfilter, hcases.imp_right fun hok ↦ ⟨hok.1, fun _ _ ↦ hok.2.1⟩⟩
  · rename_i hnone
    refine ⟨r, {}, rfl, rfl, .inr ⟨h, ?_⟩⟩
    intro hpolicy hfilter
    obtain ⟨⟨name, policy⟩, hpolicy⟩ := Option.isSome_iff_exists.mp hpolicy
    obtain ⟨filterBlock, hfilter⟩ := Option.isSome_iff_exists.mp hfilter
    exact absurd hfilter (hnone name policy filterBlock hpolicy)

theorem add_singleton (rank : List UInt8 → τ) {interval : ℕ} (hinterval : 1 ≤ interval) (e : Entry) :
    ∃ b, Builder.add rank interval {} e = some b ∧ build rank interval [e] = some b.finish.buffer := by
  have hadd : ∃ b, Builder.add rank interval {} e = some b ∧ Holding interval ([] ++ [e]) b :=
    holding_empty.add hinterval (pairwise_singleton _ e)
  obtain ⟨b, hadd, -⟩ := hadd
  have hfold : [e].foldlM (Builder.add rank interval) {} = some b := by simp [hadd]
  exact ⟨b, hadd, build_eq_some hinterval hfold⟩

theorem Usable.exists_encodeTo {handle : BlockHandle} (h : Usable handle) :
    ∃ encoding, handle.encodeTo = some encoding ∧ BlockHandle.decodeFrom encoding = .ok (handle, []) := by
  obtain ⟨encoding, hencode, hdecode⟩ := BlockHandle.decodeHandle_encodeTo h.1 h.2
  exact ⟨encoding, hencode, append_nil encoding ▸ hdecode []⟩

theorem Closing.writeMetaindexBlock (hinterval : 1 ≤ options.blockRestartInterval) (h : Closing options blocks r)
    {filterHandle : BlockHandle}
    (hfilter : options.filterPolicy.isSome → r.filterBlock.isSome → Usable filterHandle) :
    ∃ r' handle, r.writeMetaindexBlock crc faults options filterHandle = some (r', handle) ∧
      (r'.status ≠ .ok ∨ Closing options blocks r' ∧ Usable handle) := by
  have hnew : BlockBuilder.new options.blockRestartInterval = some {} := if_pos hinterval
  have hwrite : ∀ block, ∃ r' handle, r.writeBlock crc faults options block = some (r', handle) ∧
      (r'.status ≠ .ok ∨ Closing options blocks r' ∧ Usable handle) := by
    intro block
    obtain ⟨r', hwrite, -, hcases⟩ := h.writeRawBlock crc faults block.finish.buffer
    rw [writeBlock_eq crc faults options h.status, hwrite]
    exact ⟨r', _, rfl, hcases.imp_right fun hok ↦ ⟨hok.1, hok.2.1⟩⟩
  rw [Rep.writeMetaindexBlock, if_pos h.status, hnew]
  simp only [Option.bind_eq_bind, Option.bind_some]
  split
  · rename_i name policy filterBlock hpolicy hblock
    obtain ⟨encoding, hencode, -⟩ := (hfilter (by rw [hpolicy]; rfl) (by rw [hblock]; rfl)).exists_encodeTo
    obtain ⟨b, hadd, -⟩ := add_singleton options.comparator.rank hinterval
      ("filter.".toUTF8.toList ++ name, encoding)
    simp only [hencode, hadd, Option.bind_some]
    exact hwrite b
  · exact hwrite {}

theorem rank_le_lastKeyOf {rank : List UInt8 → τ} {block : List Entry}
    (hsorted : block.Pairwise fun a b ↦ rank a.1 < rank b.1) {e : Entry} (he : e ∈ block) :
    rank e.1 ≤ rank (lastKeyOf [] block) := by
  cases block using List.reverseRecOn with
  | nil => cases he
  | append_singleton rest last =>
    rw [lastKeyOf_concat]
    rcases mem_append.mp he with hmem | hmem
    · exact ((pairwise_append.mp hsorted).2.2 e hmem last (mem_singleton_self last)).le
    · rw [mem_singleton.mp hmem]

theorem indexes_singleton {block : List Entry} {contents encoding : List UInt8} (rest : List UInt8)
    (hsorted : block.Pairwise fun a b ↦ options.comparator.rank a.1 < options.comparator.rank b.1)
    (hbuild : build options.comparator.rank options.blockRestartInterval block = some contents)
    (hdecode : BlockHandle.decodeFrom encoding = .ok (⟨0, contents.length⟩, [])) :
    Indexes options [block] (contents ++ rest)
      [(options.comparator.findShortSuccessor (lastKeyOf [] block), encoding)] where
  length_eq := rfl
  handle i hi hi' := by
    obtain rfl : i = 0 := Nat.lt_one_iff.mp hi
    refine ⟨⟨0, contents.length⟩, hdecode, ?_⟩
    have hcontents := contentsAt_append [] contents rest
    rw [nil_append] at hcontents
    exact hbuild.trans (congrArg some hcontents.symm)
  last_le i hi hi' e he := by
    obtain rfl : i = 0 := Nat.lt_one_iff.mp hi
    exact (rank_le_lastKeyOf hsorted he).trans (options.comparator.le_successor _)
  lt_first i hi := absurd hi (by simp)

variable (options) in
theorem writeBlock_spec (hstatus : r.status = .ok) (hoffset : r.offset = r.file.length)
    (hlt : r.file.length < 2 ^ 64 - 1) (block : Builder) :
    ∃ r' handle, r.writeBlock crc faults options block = some (r', handle) ∧
      (r'.status ≠ .ok ∨ r'.status = .ok ∧ Usable handle ∧ (∃ rest, r'.file = r.file ++ rest) ∧
        ∀ more, contentsAt (r'.file ++ more) handle = block.finish.buffer) := by
  obtain ⟨file, operations, offset, status, hwrite, hcases⟩ :=
    writeRawBlock_cases crc faults r block.finish.buffer .kNoCompression
  rw [writeBlock_eq crc faults options hstatus, hwrite]
  refine ⟨_, _, rfl, ?_⟩
  rcases hcases with rfl | ⟨rfl, hfile, -, hlength⟩
  · exact .inl (by simp)
  · have htotal := congrArg List.length hfile
    rw [length_append, length_append] at htotal
    refine .inr ⟨rfl, ⟨?_, ?_⟩, ⟨_, hfile⟩, ?_⟩
    · rw [hoffset]
      exact hlt
    · dsimp only
      omega
    · intro more
      dsimp only
      rw [hfile, hoffset, append_assoc, append_assoc]
      exact contentsAt_append _ _ _

theorem Closing.writeIndexBlock (h : Closing options blocks r)
    (hsorted : ∀ block ∈ blocks, block.Pairwise fun a b ↦
      options.comparator.rank a.1 < options.comparator.rank b.1) :
    ∃ r' handle, r.writeIndexBlock crc faults options = some (r', handle) ∧
      (r'.status ≠ .ok ∨ r'.status = .ok ∧ Usable handle ∧
        ∀ more, HasIndex options blocks (r'.file ++ more) handle) := by
  rw [Rep.writeIndexBlock, if_pos h.status]
  rcases h.pending with ⟨rfl, hpending⟩ | ⟨block, contents, rest, rfl, hpending, hlast, hbuild, hhandle, hfile⟩
  · obtain ⟨r', handle, hwrite, hcases⟩ := writeBlock_spec crc faults options h.status h.offset h.length_lt
      r.indexBlock
    simp only [hpending, Bool.false_eq_true, if_false, Option.bind_eq_bind, Option.bind_some, hwrite]
    refine ⟨_, handle, rfl, hcases.imp_right ?_⟩
    rintro ⟨hstatus, husable, -, hcontents⟩
    refine ⟨hstatus, husable, fun more ↦ ⟨[], ?_, ⟨rfl, ?_, ?_, ?_⟩⟩⟩
    · rw [hcontents more, h.indexBlock]
      rfl
    · exact fun i hi ↦ absurd hi (Nat.not_lt_zero i)
    · exact fun i hi ↦ absurd hi (Nat.not_lt_zero i)
    · exact fun i hi ↦ absurd hi (Nat.not_lt_zero (i + 1))
  · have husable : Usable r.pendingHandle := by
      have hle := congrArg List.length hfile
      have hlt := h.length_lt
      rw [length_append] at hle
      rw [hhandle]
      exact ⟨by norm_num, by dsimp only; omega⟩
    obtain ⟨encoding, hencode, hdecode⟩ := husable.exists_encodeTo
    obtain ⟨b, hadd, hindex⟩ := add_singleton options.comparator.rank le_rfl
      (options.comparator.findShortSuccessor (lastKeyOf [] block), encoding)
    obtain ⟨r', handle, hwrite, hcases⟩ := writeBlock_spec crc faults options (r := { r with
      lastKey := options.comparator.findShortSuccessor r.lastKey, indexBlock := b,
      pendingIndexEntry := false }) h.status h.offset h.length_lt b
    rw [← hlast] at hadd
    simp only [hpending, if_true, hencode, h.indexBlock, hadd, Option.bind_eq_bind, Option.bind_some, hwrite]
    refine ⟨_, handle, rfl, hcases.imp_right ?_⟩
    rintro ⟨hstatus, husable', ⟨more', hmore⟩, hcontents⟩
    refine ⟨hstatus, husable', fun more ↦ ⟨_, hindex.trans (congrArg some (hcontents more).symm), ?_⟩⟩
    rw [hhandle] at hdecode
    have hindexes := indexes_singleton (rest ++ (more' ++ more)) (hsorted block (mem_singleton_self block))
      hbuild hdecode
    dsimp only
    rw [hmore, hfile]
    simp only [append_assoc] at hindexes ⊢
    exact hindexes

theorem writeFooter_spec (footer : Footer) (hmetaindex : Usable footer.metaindexHandle)
    (hindex : Usable footer.indexHandle) :
    ∃ r', r.writeFooter faults footer = some r' ∧ (r'.status ≠ .ok ∨ ∃ more, r'.file = r.file ++ more) := by
  obtain ⟨metaindex, hmetaindex, -⟩ := hmetaindex.exists_encodeTo
  obtain ⟨index, hindex, -⟩ := hindex.exists_encodeTo
  obtain ⟨encoding, hencode⟩ := Footer.exists_encodeTo hmetaindex hindex
  rw [Rep.writeFooter]
  split
  · rcases append_cases faults r encoding with happend | ⟨happend, -⟩
    · simp only [hencode, Option.bind_eq_bind, Option.bind_some, happend, reduceCtorEq, if_false]
      exact ⟨_, rfl, .inl (by simp)⟩
    · simp only [hencode, Option.bind_eq_bind, Option.bind_some, happend, if_true]
      exact ⟨_, rfl, .inr ⟨encoding, rfl⟩⟩
  · exact ⟨r, rfl, .inl ‹_›⟩

section AfterFailure

variable (hstatus : r.status ≠ .ok)
include hstatus

theorem writeMetaindexBlock_of_failed (filterHandle : BlockHandle) :
    r.writeMetaindexBlock crc faults options filterHandle = some (r, {}) := if_neg hstatus

theorem writeIndexBlock_of_failed : r.writeIndexBlock crc faults options = some (r, {}) := if_neg hstatus

theorem writeFooter_of_failed (footer : Footer) : r.writeFooter faults footer = some r := if_neg hstatus

theorem writeFilterBlock_of_failed : r.writeFilterBlock crc faults options = (r, {}) := by
  unfold Rep.writeFilterBlock
  split
  · exact if_neg hstatus
  · rfl

end AfterFailure

theorem writeTail_of_failed (hstatus : r.status ≠ .ok) :
    r.writeTail crc faults options = some (r, ⟨{}, {}⟩) := by
  rw [Rep.writeTail, writeFilterBlock_of_failed crc faults hstatus]
  simp [writeMetaindexBlock_of_failed crc faults hstatus, writeIndexBlock_of_failed crc faults hstatus,
    writeFooter_of_failed faults hstatus]

/-- The rest of the table is written, with an index of the data blocks, or a file operation fails. -/
theorem Closing.writeTail (hinterval : 1 ≤ options.blockRestartInterval) (h : Closing options blocks r)
    (hsorted : ∀ block ∈ blocks, block.Pairwise fun a b ↦
      options.comparator.rank a.1 < options.comparator.rank b.1) :
    ∃ r' footer, r.writeTail crc faults options = some (r', footer) ∧
      (r'.status ≠ .ok ∨ HasIndex options blocks r'.file footer.indexHandle) := by
  obtain ⟨r₁, filterHandle, hfilter, hblock, hcases⟩ := h.writeFilterBlock crc faults
  rw [Rep.writeTail, hfilter]
  rcases hcases with hfailed | ⟨h₁, hhandle⟩
  · refine ⟨r₁, ⟨{}, {}⟩, ?_, .inl hfailed⟩
    simp [writeMetaindexBlock_of_failed crc faults hfailed, writeIndexBlock_of_failed crc faults hfailed,
      writeFooter_of_failed faults hfailed]
  · rw [← hblock] at hhandle
    obtain ⟨r₂, metaindexHandle, hmetaindex, hcases⟩ := h₁.writeMetaindexBlock crc faults hinterval hhandle
    simp only [hmetaindex, Option.bind_eq_bind, Option.bind_some]
    rcases hcases with hfailed | ⟨h₂, hmetaindexHandle⟩
    · refine ⟨r₂, ⟨metaindexHandle, {}⟩, ?_, .inl hfailed⟩
      simp [writeIndexBlock_of_failed crc faults hfailed, writeFooter_of_failed faults hfailed]
    · obtain ⟨r₃, indexHandle, hindex, hcases⟩ := h₂.writeIndexBlock crc faults hsorted
      simp only [hindex, Option.bind_some]
      rcases hcases with hfailed | ⟨hstatus, hindexHandle, hhas⟩
      · refine ⟨r₃, ⟨metaindexHandle, indexHandle⟩, ?_, .inl hfailed⟩
        simp [writeFooter_of_failed faults hfailed]
      · obtain ⟨r₄, hfooter, hcases⟩ := writeFooter_spec faults (r := r₃) ⟨metaindexHandle, indexHandle⟩
          hmetaindexHandle hindexHandle
        simp only [hfooter, Option.bind_some]
        refine ⟨r₄, ⟨metaindexHandle, indexHandle⟩, rfl, hcases.imp_right ?_⟩
        rintro ⟨more, hmore⟩
        rw [hmore]
        exact hhas more

theorem Written.closing {block : List Entry} (h : Written crc options block r) :
    Closing options [block] { r with closed := true } := by
  obtain ⟨contents, hbuild, hhandle, hfile, hoffset, hlength⟩ := h.contents
  exact ⟨h.status, hoffset, hlength, h.indexBlock,
    .inr ⟨block, contents, _, rfl, h.pending, h.lastKey, hbuild, hhandle, hfile⟩⟩

theorem Gathering.closing (h : Gathering options [] r) : Closing options [] { r with closed := true } := by
  refine ⟨h.status, ?_, ?_, h.indexBlock, .inl ⟨rfl, h.pending⟩⟩
  · change r.offset = r.file.length
    rw [h.offset, h.file]
    rfl
  · change r.file.length < 2 ^ 64 - 1
    rw [h.file]
    norm_num

/-- What `Finish` does after the last data block. -/
theorem finish_of_flush {r r' : Rep} (hflush : r.flush crc faults options = some r')
    (hclosed : r'.closed = false) :
    r.finish crc faults options = Rep.writeTail crc faults options { r' with closed := true } := by
  simp only [Rep.finish, hflush, Option.bind_eq_bind, Option.bind_some, hclosed, Bool.false_eq_true, if_false]

theorem Written.finish (hinterval : 1 ≤ options.blockRestartInterval) {block : List Entry} {r r' : Rep}
    (hflush : r.flush crc faults options = some r') (h : Written crc options block r')
    (hsorted : block.Pairwise fun a b ↦ options.comparator.rank a.1 < options.comparator.rank b.1) :
    ∃ r'' footer, r.finish crc faults options = some (r'', footer) ∧
      (r''.status ≠ .ok ∨ HasIndex options [block] r''.file footer.indexHandle) := by
  rw [finish_of_flush crc faults hflush h.closed]
  apply h.closing.writeTail crc faults hinterval
  intro b hb
  rwa [mem_singleton.mp hb]

theorem Failed.finish {r r' : Rep} (hflush : r.flush crc faults options = some r') (h : Failed r') :
    ∃ r'' footer, r.finish crc faults options = some (r'', footer) ∧ r''.status ≠ .ok := by
  rw [finish_of_flush crc faults hflush h.closed]
  exact ⟨_, _, writeTail_of_failed crc faults h.status, h.status⟩

/-- `Finish` fails an assertion only if there are several data blocks; the index is that of the data
blocks if no file operation has failed. -/
theorem Tracks.finish (hinterval : 1 ≤ options.blockRestartInterval) {p : List (List Entry) × List Entry}
    {result : Option Rep} (h : Tracks crc options p result)
    (hsorted : (p.1.flatten ++ p.2).Pairwise fun a b ↦
      options.comparator.rank a.1 < options.comparator.rank b.1) :
    2 ≤ (blocksOf p).length ∧ (result.bind fun r ↦ r.finish crc faults options) = none ∨
      ∃ r footer, (result.bind fun r ↦ r.finish crc faults options) = some (r, footer) ∧
        (r.status ≠ .ok ∨ (blocksOf p).length ≤ 1 ∧ HasIndex options (blocksOf p) r.file footer.indexHandle) := by
  cases h with
  | @failed _ r h =>
    right
    have hflush : r.flush crc faults options = some r := h.flush_eq
    obtain ⟨r', footer, hfinish, hstatus⟩ := h.finish crc faults hflush
    exact ⟨r', footer, hfinish, .inl hstatus⟩
  | @gathering current r h =>
    right
    by_cases hnil : current = []
    · subst hnil
      obtain ⟨r', footer, htail, hcases⟩ := h.closing.writeTail crc faults hinterval (by simp)
      refine ⟨r', footer, ?_, hcases.imp_right fun hindex ↦ ⟨Nat.zero_le _, hindex⟩⟩
      rw [Option.bind_some, finish_of_flush crc faults h.flush_nil h.closed, htail]
    · have hcurrent : current.Pairwise fun a b ↦
          options.comparator.rank a.1 < options.comparator.rank b.1 := by simpa using hsorted
      have hflush : ∃ r', r.flush crc faults options = some r' ∧
          (Failed r' ∨ Written crc options current r') := h.flush hinterval hcurrent hnil
      obtain ⟨r', hflush, hfailed | hwritten⟩ := hflush
      · obtain ⟨r'', footer, hfinish, hstatus⟩ := hfailed.finish crc faults hflush
        exact ⟨r'', footer, hfinish, .inl hstatus⟩
      · obtain ⟨r'', footer, hfinish, hcases⟩ := hwritten.finish crc faults hinterval hflush hcurrent
        refine ⟨r'', footer, hfinish, hcases.imp_right fun hindex ↦ ?_⟩
        rw [blocksOf, if_neg hnil]
        exact ⟨le_rfl, hindex⟩
  | @written block r h =>
    right
    have hblock : block.Pairwise fun a b ↦
        options.comparator.rank a.1 < options.comparator.rank b.1 := by simpa using hsorted
    obtain ⟨r', footer, hfinish, hcases⟩ := h.finish crc faults hinterval h.flush_eq hblock
    exact ⟨r', footer, hfinish, hcases.imp_right fun hindex ↦ ⟨le_rfl, hindex⟩⟩
  | stuck hseveral h =>
    left
    refine ⟨hseveral.two_le, ?_⟩
    rw [Option.bind_some, Rep.finish, h.flush_eq]
    rfl
  | aborted hseveral => exact .inl ⟨hseveral.two_le, rfl⟩

end Closing

section Tables

variable {crc : BlockChecksum} {faults : ℕ → Bool} {τ : Type*} [LinearOrder τ] {options : Options τ}

/-- Without failures of the file, a table builder gets through its calls and `Finish` and leaves an index of
its data blocks exactly when the entries are in at most one data block. -/
theorem table_builder_indexes_iff {ops : List Op}
    (hsorted : (entriesOf ops).Pairwise fun a b ↦ options.comparator.rank a.1 < options.comparator.rank b.1)
    (hfile : ∀ r footer, buildTable crc faults options ops = some (r, footer) → r.status = .ok) :
    (∃ r footer, buildTable crc faults options ops = some (r, footer) ∧
        ∃ index, build options.comparator.rank 1 index = some (contentsAt r.file footer.indexHandle) ∧
          Indexes options (dataBlocks options ops) r.file index) ↔
      1 ≤ options.blockRestartInterval ∧ (dataBlocks options ops).length ≤ 1 := by
  by_cases hinterval : 1 ≤ options.blockRestartInterval
  · have hbuild : buildTable crc faults options ops =
        ((Rep.new options).bind fun r ↦ ops.foldlM (Rep.step crc faults options) r).bind
          fun r ↦ r.finish crc faults options := by
      rw [Option.bind_assoc]
      rfl
    have hblocks : dataBlocks options ops = blocksOf (ops.foldl (place options) ([], [])) := rfl
    have hentries : (ops.foldl (place options) ([], [])).1.flatten ++ (ops.foldl (place options) ([], [])).2 =
        entriesOf ops := entries_foldl options ops
    have htracks : Tracks crc options (ops.foldl (place options) ([], []))
        ((Rep.new options).bind fun r ↦ ops.foldlM (Rep.step crc faults options) r) :=
      (tracks_new hinterval).run hinterval (by simpa using hsorted)
    rw [← hentries] at hsorted
    have hfinish := htracks.finish crc faults hinterval hsorted
    rw [← hbuild, ← hblocks] at hfinish
    rcases hfinish with ⟨htwo, hnone⟩ | ⟨r, footer, hsome, hcases⟩
    · refine iff_of_false ?_ fun hone ↦ absurd hone.2 (by omega)
      rintro ⟨r, footer, hsome, -⟩
      cases hnone.symm.trans hsome
    · obtain ⟨hone, hindex⟩ := hcases.resolve_left (not_not.mpr (hfile r footer hsome))
      exact iff_of_true ⟨r, footer, hsome, hindex⟩ ⟨hinterval, hone⟩
  · refine iff_of_false ?_ fun hone ↦ hinterval hone.1
    rintro ⟨r, footer, hsome, -⟩
    have hnew : BlockBuilder.new options.blockRestartInterval = none := if_neg hinterval
    simp [buildTable, Rep.new, hnew] at hsome

end Tables

/-- A comparator that orders keys by their length and shortens none. -/
def lengthComparator : Comparator ℕ where
  rank := List.length
  findShortestSeparator start _ := start
  findShortSuccessor key := key
  separator_mem h := ⟨le_rfl, h⟩
  le_successor _ := le_rfl

def plainOptions (blockSize : ℕ) : Options ℕ := ⟨lengthComparator, blockSize, 16, .kSnappyCompression, none⟩

def zeroChecksum : BlockChecksum := fun _ _ ↦ 0

/-- One entry in one data block. -/
theorem table_builder_indexes_iff_of_one_block :
    ∃ r footer, buildTable zeroChecksum (fun _ ↦ false) (plainOptions 4096) [.add ([1], []), .flush, .flush] =
        some (r, footer) ∧
      ∃ index, build List.length 1 index = some (contentsAt r.file footer.indexHandle) ∧
        Indexes (plainOptions 4096) [[([1], [])]] r.file index := by
  have hstatus : (buildTable zeroChecksum (fun _ ↦ false) (plainOptions 4096) [.add ([1], []), .flush, .flush]).map
      (fun result ↦ result.1.status) = some .ok := by decide +kernel
  refine (table_builder_indexes_iff (by decide) ?_).mpr (by decide +kernel)
  intro r footer hsome
  rw [hsome] at hstatus
  exact Option.some.inj hstatus

/-- The second of two entries that fill a block each fails the assertion in `Flush`. -/
theorem table_builder_fails_on_second_block :
    dataBlocks (plainOptions 1) [.add ([1], []), .add ([1, 2], [])] = [[([1], [])], [([1, 2], [])]] ∧
      buildTable zeroChecksum (fun _ ↦ false) (plainOptions 1) [.add ([1], []), .add ([1, 2], [])] = none := by
  constructor
  · decide +kernel
  · have hnone : (buildTable zeroChecksum (fun _ ↦ false) (plainOptions 1)
        [.add ([1], []), .add ([1, 2], [])]).isNone = true := by decide +kernel
    exact Option.isNone_iff_eq_none.mp hnone

end LevelDB.Table.TableIndex
