import LevelDB.Db.LogAhead

/-!
# A log writer whose appends fail

`AddRecord` appends a trailer, a header and a payload, and each of these calls may fail and leave the file as
it is.  The status of the trailer is ignored, and `block_offset_` is advanced as if nothing had failed.  As
long as nothing is written any more after the first failure, the records whose `AddRecord` returned OK are
read back (`acknowledged_records_are_read`); a record that is written after a failure may be lost
(`acknowledged_record_is_lost`).
-/

namespace LevelDB.Db.Log

open List

variable (crc : Checksum) (succeeds : ℕ → Bool)

def PhysicalRecord.header (p : PhysicalRecord) : Bytes := (p.bytes crc).take kHeaderSize

theorem PhysicalRecord.header_append_payload (p : PhysicalRecord) : p.header crc ++ p.payload = p.bytes crc := by
  have hpayload : (p.bytes crc).drop kHeaderSize = p.payload := rfl
  rw [header, ← hpayload, take_append_drop]

/-- A writer, with the number of calls of `Append` that it has made.  Whether a call succeeds is given by its
number. -/
structure FailingWriter extends Writer where
  appends : ℕ := 0
  deriving DecidableEq, Repr

namespace FailingWriter

def append (w : FailingWriter) (data : Bytes) : FailingWriter × Bool :=
  ({ dest := if succeeds w.appends then w.dest ++ data else w.dest
     blockOffset := w.blockOffset
     appends := w.appends + 1 }, succeeds w.appends)

/-- The start of the loop of `AddRecord`.  The status of the trailer is not looked at. -/
def switchBlock (w : FailingWriter) : Option FailingWriter :=
  if w.blockOffset ≤ kBlockSize then
    let leftover := kBlockSize - w.blockOffset
    if leftover < kHeaderSize then
      let w₁ := if 0 < leftover then (w.append succeeds (List.replicate leftover 0)).1 else w
      some { w₁ with blockOffset := 0 }
    else some w
  else none

/-- `EmitPhysicalRecord`: the header, then the payload if the header was written; `Flush` succeeds. -/
def emitPhysicalRecord (w : FailingWriter) (p : PhysicalRecord) : Option (FailingWriter × Bool) :=
  if p.payload.length ≤ 0xffff ∧ w.blockOffset + kHeaderSize + p.payload.length ≤ kBlockSize then
    let header := w.append succeeds (p.header crc)
    let result := if header.2 then header.1.append succeeds p.payload else header
    -- block_offset_ moves on whatever was written
    some ({ result.1 with blockOffset := w.blockOffset + kHeaderSize + p.payload.length }, result.2)
  else none

theorem blockOffset_of_switchBlock {w w₁ : FailingWriter} (h : w.switchBlock succeeds = some w₁) :
    w₁.blockOffset + kHeaderSize ≤ kBlockSize ∧ (w₁.blockOffset = 0 ∨ w₁ = w) := by
  rw [switchBlock] at h
  split at h
  · dsimp only at h
    split at h
    · obtain rfl := Option.some.inj h
      exact ⟨show 0 + kHeaderSize ≤ kBlockSize by decide, .inl rfl⟩
    · obtain rfl := Option.some.inj h
      exact ⟨by omega, .inr rfl⟩
  · cases h

theorem blockOffset_of_emitPhysicalRecord {w w₁ : FailingWriter} {p : PhysicalRecord} {ok : Bool}
    (h : w.emitPhysicalRecord crc succeeds p = some (w₁, ok)) :
    w₁.blockOffset = w.blockOffset + kHeaderSize + p.payload.length := by
  rw [emitPhysicalRecord] at h
  split at h
  · obtain ⟨rfl, -⟩ := Prod.mk.inj (Option.some.inj h)
    rfl
  · cases h

set_option linter.unusedVariables false in
/-- The loop of `AddRecord`, with the status that it returns. -/
def addFragments (w : FailingWriter) (begins : Bool) (left : Bytes) : Option (FailingWriter × Bool) :=
  match hswitch : w.switchBlock succeeds with
  | none => none
  | some w₁ =>
    let p := w₁.nextFragment begins left
    match hemit : w₁.emitPhysicalRecord crc succeeds p with
    | none => none
    | some (w₂, ok) =>
      if ok ∧ 0 < left.length - p.payload.length then
        addFragments w₂ false (left.drop p.payload.length)
      else some (w₂, ok)
termination_by left.length * (kBlockSize + 1) + (kBlockSize - w.blockOffset)
decreasing_by
  rename_i hmore
  have hlength : p.payload.length = _ := Writer.length_payload_nextFragment w₁.toWriter begins left
  have hoffset := blockOffset_of_emitPhysicalRecord crc succeeds hemit
  obtain ⟨hroom, hswitched⟩ := blockOffset_of_switchBlock succeeds hswitch
  replace hmore := hmore.2
  change 0 < left.length - p.payload.length at hmore
  change (left.drop p.payload.length).length * _ + _ < _
  clear_value p
  rw [length_drop]
  rcases hswitched with hzero | rfl
  all_goals
    simp only [kBlockSize, kHeaderSize] at *
    omega

def addRecord (w : FailingWriter) (record : Bytes) : Option (FailingWriter × Bool) :=
  w.addFragments crc succeeds true record

/-- The records added one after the other, also after a failure, with the status of each. -/
def addRecords (w : FailingWriter) : List Bytes → Option (FailingWriter × List Bool)
  | [] => some (w, [])
  | record :: rest =>
    match w.addRecord crc succeeds record with
    | none => none
    | some (w₁, ok) => (addRecords w₁ rest).map fun result ↦ (result.1, ok :: result.2)

theorem addFragments_eq {w w₁ w₂ : FailingWriter} {begins ok : Bool} {left : Bytes}
    (hswitch : w.switchBlock succeeds = some w₁)
    (hemit : w₁.emitPhysicalRecord crc succeeds (w₁.nextFragment begins left) = some (w₂, ok)) :
    w.addFragments crc succeeds begins left =
      if ok ∧ 0 < left.length - (w₁.nextFragment begins left).payload.length then
        w₂.addFragments crc succeeds false (left.drop (w₁.nextFragment begins left).payload.length)
      else some (w₂, ok) := by
  rw [addFragments]
  split
  · rename_i heq
    cases hswitch.symm.trans heq
  · rename_i w' heq
    obtain rfl : w₁ = w' := Option.some.inj (hswitch.symm.trans heq)
    dsimp only
    split
    · rename_i heq
      cases hemit.symm.trans heq
    · rename_i w'' ok' heq
      obtain ⟨rfl, rfl⟩ := Prod.mk.inj (Option.some.inj (hemit.symm.trans heq))
      rfl

variable {crc succeeds} {w : FailingWriter}

def Dead (succeeds : ℕ → Bool) (w : FailingWriter) : Prop := ∀ i, w.appends ≤ i → succeeds i = false

section

variable (h : w.Dead succeeds)
include h

theorem Dead.append_eq (data : Bytes) :
    w.append succeeds data = ({ w with appends := w.appends + 1 }, false) := by
  rw [append, h _ le_rfl]
  rfl

theorem Dead.congr {w₁ : FailingWriter} (happends : w.appends ≤ w₁.appends) :
    w₁.Dead succeeds := fun i hi ↦ h i (happends.trans hi)

theorem Dead.switchBlock_spec (hoffset : w.blockOffset ≤ kBlockSize) :
    ∃ w₁, w.switchBlock succeeds = some w₁ ∧ w₁.Dead succeeds ∧ w₁.dest = w.dest := by
  rw [switchBlock, if_pos hoffset]
  dsimp only
  split
  · refine ⟨_, rfl, ?_⟩
    split
    · rw [h.append_eq]
      exact ⟨h.congr (Nat.le_succ _), rfl⟩
    · exact ⟨h, rfl⟩
  · exact ⟨w, rfl, h, rfl⟩

omit h in
theorem assertions_of_room {begins : Bool} {left : Bytes} (hroom : w.blockOffset + kHeaderSize ≤ kBlockSize) :
    (w.nextFragment begins left).payload.length ≤ 0xffff ∧
      w.blockOffset + kHeaderSize + (w.nextFragment begins left).payload.length ≤ kBlockSize := by
  rw [Writer.length_payload_nextFragment]
  simp only [kBlockSize, kHeaderSize] at *
  omega

theorem Dead.emitPhysicalRecord_eq {p : PhysicalRecord}
    (hassert : p.payload.length ≤ 0xffff ∧ w.blockOffset + kHeaderSize + p.payload.length ≤ kBlockSize) :
    w.emitPhysicalRecord crc succeeds p = some
      ({ w with
        blockOffset := w.blockOffset + kHeaderSize + p.payload.length
        appends := w.appends + 1 }, false) := by
  rw [emitPhysicalRecord, if_pos hassert, h.append_eq]
  rfl

/-- A call of `AddRecord` after a failure fails and leaves the file as it is. -/
theorem Dead.addFragments_spec (hoffset : w.blockOffset ≤ kBlockSize) (begins : Bool) (left : Bytes) :
    ∃ w₁, w.addFragments crc succeeds begins left = some (w₁, false) ∧ w₁.Dead succeeds ∧
      w₁.blockOffset ≤ kBlockSize ∧ w₁.dest = w.dest := by
  obtain ⟨w₁, hswitch, hdead, hdest⟩ := h.switchBlock_spec hoffset
  have hassert := @assertions_of_room w₁ begins left (blockOffset_of_switchBlock succeeds hswitch).1
  have hadd := addFragments_eq crc succeeds hswitch (hdead.emitPhysicalRecord_eq hassert)
  rw [if_neg (by simp)] at hadd
  exact ⟨_, hadd, hdead.congr (Nat.le_succ _), hassert.2, hdest⟩

theorem Dead.addRecords_spec (hoffset : w.blockOffset ≤ kBlockSize) (records : List Bytes) :
    ∃ w₁, w.addRecords crc succeeds records = some (w₁, records.map fun _ ↦ false) ∧ w₁.dest = w.dest := by
  induction records generalizing w with
  | nil => exact ⟨w, rfl, rfl⟩
  | cons record records ih =>
    obtain ⟨w₁, hadd, hdead, hoffset₁, hdest⟩ := @Dead.addFragments_spec crc succeeds w h hoffset true record
    obtain ⟨w₂, hrest, hdest₂⟩ := ih hdead hoffset₁
    refine ⟨w₂, ?_, hdest₂.trans hdest⟩
    rw [addRecords, addRecord, hadd]
    dsimp only
    rw [hrest]
    rfl

end

def Holds (crc : Checksum) (file : Bytes) (ps : List PhysicalRecord) : Prop :=
  ∃ last closed data tail, Blocks crc last 0 closed data ∧ file = data ++ tail ∧ closed.flatten ++ last = ps

def acknowledged (records : List Bytes) (statuses : List Bool) : List Bytes :=
  ((records.zip statuses).filter Prod.snd).map Prod.fst

theorem acknowledged_false (records : List Bytes) : acknowledged records (records.map fun _ ↦ false) = [] := by
  induction records with
  | nil => rfl
  | cons record records ih => exact ih

section Stops

variable (hstops : ∀ i j, i ≤ j → succeeds i = false → succeeds j = false)

include hstops

theorem append_cases (w : FailingWriter) (data : Bytes) : w.append succeeds data =
        (({ w with dest := w.dest ++ data, appends := w.appends + 1 }, true) : FailingWriter × Bool) ∨
      (w.append succeeds data).2 = false ∧ (w.append succeeds data).1.Dead succeeds ∧
        (w.append succeeds data).1.dest = w.dest := by
  unfold append
  cases hok : succeeds w.appends with
  | true => exact .inl rfl
  | false => exact .inr ⟨rfl, fun i hi ↦ hstops _ i ((Nat.le_succ _).trans hi) hok, rfl⟩

/-- The block is switched as by a writer without failures, or nothing is written any more. -/
theorem switchBlock_cases (hoffset : w.blockOffset ≤ kBlockSize) :
    ∃ w₁, w.switchBlock succeeds = some w₁ ∧ (w.toWriter.switchBlock = some w₁.toWriter ∨
      w₁.Dead succeeds ∧ w₁.dest = w.dest) := by
  rw [switchBlock, if_pos hoffset, Writer.switchBlock, if_pos hoffset]
  dsimp only
  split
  · refine ⟨_, rfl, ?_⟩
    split
    · rcases append_cases hstops w (List.replicate (kBlockSize - w.blockOffset) 0) with happend | ⟨-, hdead, hdest⟩
      · rw [happend]
        exact .inl rfl
      · exact .inr ⟨hdead.congr le_rfl, hdest⟩
    · rename_i hzero
      rw [Nat.eq_zero_of_not_pos hzero, replicate_zero, append_nil]
      exact .inl rfl
  · exact ⟨w, rfl, .inl rfl⟩

theorem emitPhysicalRecord_cases {p : PhysicalRecord} (hassert : p.payload.length ≤ 0xffff ∧
    w.blockOffset + kHeaderSize + p.payload.length ≤ kBlockSize) :
    ∃ w₁ ok, w.emitPhysicalRecord crc succeeds p = some (w₁, ok) ∧
      (ok = true ∧ w.toWriter.emitPhysicalRecord crc p = some w₁.toWriter ∨
        ok = false ∧ w₁.Dead succeeds ∧ ∃ tail, w₁.dest = w.dest ++ tail) := by
  rw [emitPhysicalRecord, if_pos hassert, Writer.emitPhysicalRecord, if_pos hassert]
  refine ⟨_, _, rfl, ?_⟩
  rcases append_cases hstops w (p.header crc) with hheader | ⟨hok, hdead, hdest⟩
  · rw [hheader, if_pos rfl]
    rcases append_cases hstops { w with dest := w.dest ++ p.header crc, appends := w.appends + 1 } p.payload with
      hpayload | ⟨hok, hdead, hdest⟩
    · rw [hpayload, ← p.header_append_payload crc, ← append_assoc]
      exact .inl ⟨rfl, rfl⟩
    · exact .inr ⟨hok, hdead.congr le_rfl, _, hdest⟩
  · rw [if_neg (by rw [hok]; exact Bool.false_ne_true)]
    exact .inr ⟨hok, hdead.congr le_rfl, [], hdest.trans (append_nil _).symm⟩

/-- One round of the loop emits a physical record, or it fails. -/
theorem round_cases {w₁ w₂ : FailingWriter} {begins ok : Bool} {left : Bytes}
    {closed : List (List PhysicalRecord)} {last : List PhysicalRecord} (h : w.Lays crc closed last)
    (hswitch : w.switchBlock succeeds = some w₁)
    (hemit : w₁.emitPhysicalRecord crc succeeds (w₁.nextFragment begins left) = some (w₂, ok)) :
    (ok = true ∧ ∃ closed₁ last₁, w₂.Lays crc closed₁ (last₁ ++ [w₁.nextFragment begins left]) ∧
        closed₁.flatten ++ last₁ = closed.flatten ++ last) ∨
      ok = false ∧ w₂.Dead succeeds ∧ w₂.blockOffset ≤ kBlockSize ∧
        Holds crc w₂.dest (closed.flatten ++ last) := by
  have hassert := @assertions_of_room w₁ begins left (blockOffset_of_switchBlock succeeds hswitch).1
  have hoffset : w₂.blockOffset ≤ kBlockSize :=
    (blockOffset_of_emitPhysicalRecord crc succeeds hemit).trans_le hassert.2
  obtain ⟨w₁', hswitch', hcases⟩ := @switchBlock_cases succeeds w hstops (h.blockOffset.trans_le h.blocks.total_le)
  obtain rfl : w₁ = w₁' := Option.some.inj (hswitch.symm.trans hswitch')
  rcases hcases with hwriter | ⟨hdead, hdest⟩
  · obtain ⟨w₁', w₂', closed₁, last₁, hround, hemitted, hlays₁, hlays₂, hflatten⟩ := h.round begins left
    obtain rfl := Option.some.inj (hwriter.symm.trans hround)
    obtain ⟨w₂'', ok', hemit', hcases⟩ := @emitPhysicalRecord_cases crc succeeds w₁ hstops _ hassert
    obtain ⟨rfl, rfl⟩ := Prod.mk.inj (Option.some.inj (hemit.symm.trans hemit'))
    rcases hcases with ⟨hok, hsame⟩ | ⟨hok, hdead, tail, hdest⟩
    · obtain rfl := Option.some.inj (hsame.symm.trans hemitted)
      exact .inl ⟨hok, closed₁, last₁, hlays₂, hflatten⟩
    · exact .inr ⟨hok, hdead, hoffset, last₁, closed₁, _, tail, hlays₁.blocks, hdest, hflatten⟩
  · rw [hdead.emitPhysicalRecord_eq hassert] at hemit
    obtain ⟨rfl, rfl⟩ := Prod.mk.inj (Option.some.inj hemit)
    exact .inr ⟨rfl, hdead.congr (Nat.le_succ _), hoffset, last, closed, _, [], h.blocks,
      hdest.trans (append_nil _).symm, rfl⟩

/-- One call of `AddRecord`: it adds the physical records of the record, or fails, with some of its physical
records in the file. -/
theorem addFragments_cases {closed : List (List PhysicalRecord)} {last : List PhysicalRecord}
    (h : w.Lays crc closed last) (begins : Bool) (left : Bytes) :
    ∃ w₁ ok ps, w.addFragments crc succeeds begins left = some (w₁, ok) ∧
      (ok = true ∧ (∃ closed₁ last₁, w₁.Lays crc closed₁ last₁ ∧
          closed₁.flatten ++ last₁ = closed.flatten ++ last ++ ps) ∧
          (if begins then Fragments left ps else Continues left ps) ∨
        ok = false ∧ w₁.Dead succeeds ∧ w₁.blockOffset ≤ kBlockSize ∧
          Holds crc w₁.dest (closed.flatten ++ last ++ ps)) := by
  fun_induction addFragments crc succeeds w begins left generalizing closed last with
  | case1 w begins left hswitch =>
    obtain ⟨w₁, hsome, -⟩ := @switchBlock_cases succeeds w hstops (h.blockOffset.trans_le h.blocks.total_le)
    cases hswitch.symm.trans hsome
  | case2 w begins left w₁ hswitch p =>
    rename_i hemit
    obtain ⟨w₂, ok, hsome, -⟩ := @emitPhysicalRecord_cases crc succeeds w₁ hstops p
      (assertions_of_room (blockOffset_of_switchBlock succeeds hswitch).1)
    cases hemit.symm.trans hsome
  | case3 w begins left w₁ hswitch p w₂ ok hemit hmore =>
    rename_i ih
    rcases round_cases hstops h hswitch hemit with ⟨-, closed₁, last₁, hlays, hflatten⟩ | ⟨hok, -⟩
    · obtain ⟨w₃, ok₃, ps, hadd, hcases⟩ := ih hlays
      have hps : closed₁.flatten ++ (last₁ ++ [p]) ++ ps = closed.flatten ++ last ++ (p :: ps) := by
        rw [← hflatten]
        simp only [append_assoc, singleton_append]
      rw [hps] at hcases
      refine ⟨w₃, ok₃, p :: ps, hadd, hcases.imp_left fun ⟨hok, hlays₃, hcontinues⟩ ↦ ⟨hok, hlays₃, ?_⟩⟩
      exact Writer.fragments_cons (Writer.payload_nextFragment begins left)
        (Writer.type_nextFragment begins left) hmore.2 hcontinues
    · rw [hok] at hmore
      cases hmore.1
  | case4 w begins left w₁ hswitch p w₂ ok hemit =>
    rename_i hdone
    rcases round_cases hstops h hswitch hemit with
      ⟨hok, closed₁, last₁, hlays, hflatten⟩ | ⟨hok, hdead, hoffset, hholds⟩
    · refine ⟨w₂, ok, [p], rfl, .inl ⟨hok, ⟨closed₁, last₁ ++ [p], hlays, ?_⟩, ?_⟩⟩
      · rw [← hflatten, append_assoc]
      · exact Writer.fragments_singleton (Writer.payload_nextFragment begins left)
          (Writer.type_nextFragment begins left) fun hmore ↦ hdone ⟨hok, hmore⟩
    · exact ⟨w₂, ok, [], rfl, .inr ⟨hok, hdead, hoffset, by rwa [append_nil]⟩⟩

theorem addRecords_spec {closed : List (List PhysicalRecord)} {last : List PhysicalRecord}
    (h : w.Lays crc closed last) (records : List Bytes) :
    ∃ w₁ statuses placed rest, w.addRecords crc succeeds records = some (w₁, statuses) ∧
      statuses.length = records.length ∧ List.Forall₂ Fragments (acknowledged records statuses) placed ∧
      Holds crc w₁.dest (closed.flatten ++ last ++ (placed.flatten ++ rest)) := by
  induction records generalizing w closed last with
  | nil =>
    refine ⟨w, [], [], [], rfl, rfl, .nil, last, closed, w.dest, [], h.blocks, (append_nil _).symm, ?_⟩
    rw [flatten_nil, append_nil, append_nil]
  | cons record records ih =>
    obtain ⟨w₁, ok, ps, hadd, hcases⟩ := addFragments_cases hstops h true record
    rcases hcases with ⟨rfl, ⟨closed₁, last₁, hlays, hflatten⟩, hfragments⟩ | ⟨rfl, hdead, hoffset, hholds⟩
    · obtain ⟨w₂, statuses, placed, rest, hrest, hlength, hall, hholds⟩ := ih hlays
      refine ⟨w₂, true :: statuses, ps :: placed, rest, ?_, congrArg Nat.succ hlength, .cons hfragments hall, ?_⟩
      · rw [addRecords, addRecord, hadd]
        dsimp only
        rw [hrest]
        rfl
      · rwa [hflatten, append_assoc _ ps, ← append_assoc ps, ← flatten_cons] at hholds
    · obtain ⟨w₂, hrest, hdest⟩ := @Dead.addRecords_spec crc succeeds w₁ hdead hoffset records
      refine ⟨w₂, false :: records.map fun _ ↦ false, [], ps, ?_, congrArg Nat.succ (length_map _), ?_, ?_⟩
      · rw [addRecords, addRecord, hadd]
        dsimp only
        rw [hrest]
        rfl
      · rw [show acknowledged (record :: records) (false :: records.map fun _ ↦ false) = [] from
          acknowledged_false (record :: records)]
        exact .nil
      · rwa [hdest, flatten_nil, nil_append]

end Stops

end FailingWriter

/-- The records whose `AddRecord` returned OK are read back first and in order, if no append succeeds after
one that has failed. -/
theorem acknowledged_records_are_read (crc : Crc32c) (records : List Bytes) (succeeds : ℕ → Bool)
    (hstops : ∀ i j, i ≤ j → succeeds i = false → succeeds j = false) :
    ∃ w statuses, FailingWriter.addRecords crc succeeds {} records = some (w, statuses) ∧
      statuses.length = records.length ∧
      ∀ (checksum : Bool) (lastRecordOffset endOfBufferOffset : UInt64),
        FailingWriter.acknowledged records statuses <+:
          ((Reader.new w.dest checksum 0 lastRecordOffset endOfBufferOffset).readAll crc).1 := by
  have hempty : ({} : FailingWriter).Lays crc [] [] := Writer.lays_empty
  obtain ⟨w, statuses, placed, rest, hadd, hlength, hfragments, last, closed, data, tail, hblocks, hdest,
    hflatten⟩ := FailingWriter.addRecords_spec hstops hempty records
  refine ⟨w, statuses, hadd, hlength, fun checksum lastRecordOffset endOfBufferOffset ↦ ?_⟩
  have hlog : ∀ x ∈ (FailingWriter.acknowledged records statuses).zip placed, Fragments x.1 x.2 := fun x hx ↦
    (forall₂_iff_zip.mp hfragments).2 hx
  have hps : closed.flatten ++ last =
      (((FailingWriter.acknowledged records statuses).zip placed).map Prod.snd).flatten ++ rest := by
    rw [map_snd_zip (List.Forall₂.length_eq hfragments).ge, hflatten]
    rfl
  obtain ⟨outs, r₁, front, hgives, -, -, -, houts⟩ := hblocks.gives_new (fun p _ ↦ crc.agrees p) hlog hps tail
    checksum lastRecordOffset endOfBufferOffset
  rw [hdest, hgives.readAll_eq, houts, map_fst_zip (List.Forall₂.length_eq hfragments).le]
  exact prefix_append _ _

/-- The first of two records is read back when the appends of the second one fail. -/
theorem acknowledged_first_record_is_read :
    ∃ w statuses, FailingWriter.addRecords byteSum (fun i ↦ i < 2) {} [[1], [2]] = some (w, statuses) ∧
      statuses.length = 2 ∧ ∀ (checksum : Bool) (lastRecordOffset endOfBufferOffset : UInt64),
        FailingWriter.acknowledged [[1], [2]] statuses <+:
          ((Reader.new w.dest checksum 0 lastRecordOffset endOfBufferOffset).readAll byteSum).1 :=
  acknowledged_records_are_read byteSum [[1], [2]] (fun i ↦ i < 2) fun i j hij hi ↦ by
    simp only [decide_eq_false_iff_not] at *
    omega

/-- The header of the first record is written and its payload is not; the second record, whose `AddRecord`
returns OK, is then taken for the payload of the first one and dropped. -/
theorem acknowledged_record_is_lost :
    (FailingWriter.addRecords byteSum (fun i ↦ i ≠ 1) {} [[1], [2]]).map (fun result ↦
      (FailingWriter.acknowledged [[1], [2]] result.2,
        ((Reader.new result.1.dest true 0 0 0).readAll byteSum).1)) =
        some ([[2]], []) := by
  decide +kernel

end LevelDB.Db.Log
