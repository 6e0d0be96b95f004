import LevelDB.Db.Log

/-!
# What a log reader makes of its file

A reader that starts at offset 0 sees its file as a sequence of events, one for each physical record or
damaged rest of a block, that depends on the blocks alone (`Reader.events`).  The records it returns are
those that the switch of `ReadRecord` assembles from that sequence (`readAll_eq_assemble`).

`assemble_of_damaged` then says what is assembled when some of the physical records of a log are lost: if
the first one lost after a readable one always shows as a bad record or as the end of the file, then the
records returned are those of which every physical record was readable.
-/

namespace LevelDB.Db.Log

open List

/-- What one call of `ReadPhysicalRecord` gives, and what it reports. -/
structure Event where
  type : ℕ
  fragment : Bytes
  reports : List Report
  deriving DecidableEq, Repr

/-- The event of a block whose rest is thrown away. -/
def Event.bad (reports : List Report) : Event := ⟨kBadRecord, [], reports⟩

def Event.eof (reports : List Report) : Event := ⟨kEof, [], reports⟩

def PhysicalRecord.event (p : PhysicalRecord) : Event := ⟨p.type.code, p.payload, []⟩

variable {log : List (Bytes × List PhysicalRecord)} {ps : List PhysicalRecord}

section Events

variable (crc : Checksum) (filled : ℕ)

open Reader

def parse (buffer : Bytes) : Event × Bytes :=
  let length := headerLength buffer
  if buffer.length < kHeaderSize + length then (.bad [(buffer.length, "bad record length")], [])
  else if headerType buffer = RecordType.kZeroType.code ∧ length = 0 then (.bad [], [])
  else if actualCrc crc filled buffer ≠ expectedCrc buffer then
    (.bad [(buffer.length, "checksum mismatch")], [])
  else
    (⟨headerType buffer, (buffer.drop kHeaderSize).take length, []⟩, buffer.drop (kHeaderSize + length))

theorem length_parse_lt {buffer : Bytes} (h : kHeaderSize ≤ buffer.length) :
    (parse crc filled buffer).2.length < buffer.length := by
  have hpos : 0 < buffer.length := lt_of_lt_of_le (by decide) h
  simp only [parse]
  split_ifs
  · exact hpos
  · exact hpos
  · exact hpos
  · rw [length_drop]
    simp only [kHeaderSize] at *
    omega

/-- The events of a block, and what is left of it that is too short for a header. -/
def scan (buffer : Bytes) : List Event × Bytes :=
  if buffer.length < kHeaderSize then ([], buffer)
  else
    let rest := scan (parse crc filled buffer).2
    ((parse crc filled buffer).1 :: rest.1, rest.2)
termination_by buffer.length
decreasing_by exact length_parse_lt crc filled (not_lt.mp ‹_›)

theorem scan_of_lt {buffer : Bytes} (h : buffer.length < kHeaderSize) : scan crc filled buffer = ([], buffer) := by
  rw [scan, if_pos h]

theorem scan_of_le {buffer : Bytes} (h : kHeaderSize ≤ buffer.length) : scan crc filled buffer =
      ((parse crc filled buffer).1 :: (scan crc filled (parse crc filled buffer).2).1,
        (scan crc filled (parse crc filled buffer).2).2) := by
  rw [scan, if_neg (not_lt.mpr h)]

def endEvent (rest : Bytes) : Event :=
  .eof (if rest.length = 0 then [] else [(rest.length, "truncated record at end of file")])

def fileEvents (file : Bytes) : List Event :=
  if file.length < kBlockSize then (scan crc file.length file).1 ++ [endEvent (scan crc file.length file).2]
  else (scan crc kBlockSize (file.take kBlockSize)).1 ++ fileEvents (file.drop kBlockSize)
termination_by file.length
decreasing_by
  rw [length_drop]
  simp only [kBlockSize] at *
  omega

namespace Reader

/-- What the reader has still to find, in its buffer and in its file. -/
def events (r : Reader) : List Event :=
  (scan crc r.filled r.buffer).1 ++
    if r.eof then [endEvent (scan crc r.filled r.buffer).2] else fileEvents crc r.file

/-- A reader that checks checksums and starts at the beginning of its file. -/
structure FromStart (r : Reader) : Prop where
  checksum : r.checksum = true
  initialOffset : r.initialOffset = 0

variable {crc}

theorem FromStart.dropped_reportDrop {r : Reader} (h : r.FromStart) (report : Report) :
    r.reportDrop report = { r with dropped := r.dropped ++ [report] } := by
  rw [reportDrop, if_pos]
  rw [h.initialOffset]
  exact UInt64.zero_le

theorem FromStart.dropped_reportDrops {r : Reader} (h : r.FromStart) (reports : List Report) :
    r.reportDrops reports = { r with dropped := r.dropped ++ reports } := by
  induction reports generalizing r with
  | nil => simp only [reportDrops, foldl_nil, append_nil]
  | cons report reports ih =>
    have hnext := ih (r := r.reportDrop report) (by
      rw [h.dropped_reportDrop]
      exact ⟨h.checksum, h.initialOffset⟩)
    rw [reportDrops, foldl_cons]
    refine hnext.trans ?_
    rw [h.dropped_reportDrop]
    simp only [append_assoc, singleton_append]

theorem FromStart.parseHeader_eq {r : Reader} (h : r.FromStart) : r.parseHeader crc = ({ r with
          buffer := (parse crc r.filled r.buffer).2
          dropped := r.dropped ++ (parse crc r.filled r.buffer).1.reports },
        (parse crc r.filled r.buffer).1.type, (parse crc r.filled r.buffer).1.fragment) := by
  have hcleared : FromStart { r with buffer := [] } := ⟨h.checksum, h.initialOffset⟩
  have hpos (x : UInt64) : ¬ x < r.initialOffset := by
    rw [h.initialOffset]
    exact UInt64.not_lt_zero
  simp only [parseHeader, parse, hcleared.dropped_reportDrop]
  simp only [h.checksum, true_and, hpos, if_false]
  split_ifs <;> simp only [Event.bad, append_nil]

theorem FromStart.readPhysicalRecord_spec {r : Reader} (h : r.FromStart) :
    ∃ e : Event, (r.readPhysicalRecord crc).2 = (e.type, e.fragment) ∧
      (r.readPhysicalRecord crc).1.FromStart ∧
      (r.readPhysicalRecord crc).1.dropped = r.dropped ++ e.reports ∧
      (r.events crc = e :: (r.readPhysicalRecord crc).1.events crc ∨
        r.events crc = [e] ∧ e.type = kEof) := by
  induction r using readPhysicalRecord.induct with
  | case1 r hshort heof ih =>
    have hevents : r.events crc = r.refill.events crc := by
      simp only [events, refill, heof, scan_of_lt crc r.filled hshort, nil_append, decide_eq_true_eq,
        length_take, Bool.false_eq_true, if_false]
      rw [fileEvents]
      by_cases hlast : r.file.length < kBlockSize
      · rw [if_pos hlast, min_eq_right hlast.le, if_pos hlast, take_of_length_le hlast.le]
      · rw [if_neg hlast, min_eq_left (not_lt.mp hlast), if_neg (lt_irrefl _)]
    rw [readPhysicalRecord, if_pos hshort, if_pos heof, hevents]
    exact ih ⟨h.checksum, h.initialOffset⟩
  | case2 r hshort heof hempty =>
    rw [readPhysicalRecord, if_pos hshort, if_neg heof, if_pos hempty]
    rw [Bool.not_eq_false] at heof
    refine ⟨endEvent r.buffer, rfl, h, ?_, .inr ⟨?_, rfl⟩⟩
    · rw [endEvent, if_pos hempty]
      exact (append_nil _).symm
    · rw [events, scan_of_lt crc r.filled hshort, if_pos heof]
      rfl
  | case3 r hshort heof hempty =>
    rw [readPhysicalRecord, if_pos hshort, if_neg heof, if_neg hempty]
    rw [Bool.not_eq_false] at heof
    have hcleared : FromStart { r with buffer := [] } := ⟨h.checksum, h.initialOffset⟩
    rw [hcleared.dropped_reportDrop]
    refine ⟨endEvent r.buffer, rfl, ⟨h.checksum, h.initialOffset⟩, ?_, .inr ⟨?_, rfl⟩⟩
    · rw [endEvent, if_neg hempty]
      rfl
    · rw [events, scan_of_lt crc r.filled hshort, if_pos heof]
      rfl
  | case4 r hlong =>
    rw [readPhysicalRecord, if_neg hlong, h.parseHeader_eq]
    refine ⟨(parse crc r.filled r.buffer).1, rfl, ⟨h.checksum, h.initialOffset⟩, rfl, .inl ?_⟩
    rw [events, scan_of_le crc r.filled (not_lt.mp hlong)]
    rfl

end Reader

end Events

/-- The records that `ReadRecord` returns for a sequence of events, call after call, and what it and
`ReadPhysicalRecord` report. -/
def assemble : Bool → Bytes → List Event → List Bytes × List Report
  | _, _, [] => ([], [])
  | inFragmentedRecord, scratch, e :: rest =>
    let reports := e.reports ++ (Reader.dispatch inFragmentedRecord scratch e.type e.fragment).2
    match (Reader.dispatch inFragmentedRecord scratch e.type e.fragment).1 with
    | .returned record => (record :: (assemble false [] rest).1, reports ++ (assemble false [] rest).2)
    | .endOfFile => ([], reports)
    | .again inFragmentedRecord scratch =>
      ((assemble inFragmentedRecord scratch rest).1, reports ++ (assemble inFragmentedRecord scratch rest).2)

namespace Reader

variable {crc : Checksum}

theorem FromStart.afterPhysicalRecord_spec {r : Reader} (h : r.FromStart) (inFragmentedRecord : Bool)
    (scratch : Bytes) :
    let r₁ := r.afterPhysicalRecord crc inFragmentedRecord scratch
    ∃ e : Event, (r.readPhysicalRecord crc).2 = (e.type, e.fragment) ∧ r₁.FromStart ∧ r₁.dropped =
        r.dropped ++ (e.reports ++ (dispatch inFragmentedRecord scratch e.type e.fragment).2) ∧
      (r.events crc = e :: r₁.events crc ∨ r.events crc = [e] ∧ e.type = kEof) := by
  obtain ⟨e, hread, hstart, hdropped, hevents⟩ := @FromStart.readPhysicalRecord_spec crc r h
  refine ⟨e, hread, ?_⟩
  rw [afterPhysicalRecord, hstart.dropped_reportDrops, hread]
  refine ⟨⟨hstart.checksum, hstart.initialOffset⟩, ?_, hevents⟩
  rw [hdropped, append_assoc]

theorem FromStart.readFragments_spec {r : Reader} (h : r.FromStart) (inFragmentedRecord : Bool)
    (scratch : Bytes) (prospective : UInt64) :
    let result := r.readFragments crc inFragmentedRecord scratch prospective
    result.1.FromStart ∧ ∃ reports, result.1.dropped = r.dropped ++ reports ∧
      assemble inFragmentedRecord scratch (r.events crc) = match result.2 with
        | none => ([], reports)
        | some record => (record :: (assemble false [] (result.1.events crc)).1,
            reports ++ (assemble false [] (result.1.events crc)).2) := by
  fun_induction readFragments crc r inFragmentedRecord scratch prospective with
  | case1 r f s p read r₁ q record hverdict =>
    obtain ⟨e, hread, hstart, hdropped, hevents⟩ := @FromStart.afterPhysicalRecord_spec crc r h f s
    simp only [read, hread] at hverdict
    refine ⟨⟨hstart.checksum, hstart.initialOffset⟩, _, hdropped, ?_⟩
    rcases hevents with hevents | ⟨-, heof⟩
    · rw [hevents, assemble, hverdict]
      rfl
    · rw [heof, dispatch_kEof] at hverdict
      contradiction
  | case2 r f s p read r₁ hverdict =>
    obtain ⟨e, hread, hstart, hdropped, hevents⟩ := @FromStart.afterPhysicalRecord_spec crc r h f s
    simp only [read, hread] at hverdict
    refine ⟨hstart, _, hdropped, ?_⟩
    rcases hevents with hevents | ⟨hevents, -⟩
    all_goals rw [hevents, assemble, hverdict]
  | case3 r f s p read r₁ q f' s' hverdict ih =>
    obtain ⟨e, hread, hstart, hdropped, hevents⟩ := @FromStart.afterPhysicalRecord_spec crc r h f s
    simp only [read, hread] at hverdict
    obtain ⟨hstart', reports, hdropped', hassemble⟩ := ih hstart
    refine ⟨hstart', e.reports ++ (dispatch f s e.type e.fragment).2 ++ reports, ?_, ?_⟩
    · rw [hdropped', hdropped, append_assoc]
    · rcases hevents with hevents | ⟨-, heof⟩
      · rw [hevents, assemble, hverdict]
        simp only
        rw [hassemble]
        cases (readFragments crc r₁ f' s' q).2 with
        | none => rfl
        | some record => simp only [append_assoc]
      · rw [heof, dispatch_kEof] at hverdict
        contradiction

theorem FromStart.readAll_eq_assemble {r : Reader} (h : r.FromStart) :
    (r.readAll crc).1 = (assemble false [] (r.events crc)).1 ∧
      (r.readAll crc).2.dropped = r.dropped ++ (assemble false [] (r.events crc)).2 := by
  have hskip (r : Reader) (h : r.FromStart) : r.readRecord crc = r.readFragments crc false [] 0 := by
    rw [readRecord, h.initialOffset, if_neg UInt64.not_lt_zero]
  fun_induction readAll crc r with
  | case1 r hread =>
    rw [hskip r h] at hread ⊢
    obtain ⟨-, reports, hdropped, hassemble⟩ := @FromStart.readFragments_spec crc r h false [] 0
    rw [hassemble, hread]
    exact ⟨rfl, hdropped⟩
  | case2 r record hread rest ih =>
    rw [hskip r h] at hread
    obtain ⟨hstart, reports, hdropped, hassemble⟩ := @FromStart.readFragments_spec crc r h false [] 0
    rw [← hskip r h] at hstart hdropped hassemble hread
    obtain ⟨hrecords, hreports⟩ := ih hstart
    rw [hassemble, hread]
    refine ⟨congrArg (record :: ·) hrecords, hreports.trans ?_⟩
    rw [hdropped, append_assoc]

theorem FromStart.readRecord {r : Reader} (h : r.FromStart) : (r.readRecord crc).1.FromStart := by
  rw [Reader.readRecord, h.initialOffset, if_neg UInt64.not_lt_zero]
  exact (h.readFragments_spec false [] 0).1

/-- What was reported once stays reported. -/
theorem FromStart.dropped_eq_nil {r : Reader} (h : r.FromStart) (hdropped : (r.readAll crc).2.dropped = []) :
    r.dropped = [] := by
  rw [h.readAll_eq_assemble.2] at hdropped
  exact (append_eq_nil_iff.mp hdropped).1

theorem fromStart_new (file : Bytes) (lastRecordOffset endOfBufferOffset : UInt64) :
    (Reader.new file true 0 lastRecordOffset endOfBufferOffset).FromStart := ⟨rfl, rfl⟩

theorem events_new (file : Bytes) (lastRecordOffset endOfBufferOffset : UInt64) :
    (Reader.new file true 0 lastRecordOffset endOfBufferOffset).events crc = fileEvents crc file := by
  have hempty : scan crc 0 [] = ([], []) := scan_of_lt crc 0 (by decide)
  simp only [events, Reader.new, hempty, nil_append, Bool.false_eq_true, if_false]

end Reader

inductive Continues : Bytes → List PhysicalRecord → Prop
  | last {p : PhysicalRecord} (htype : p.type = .kLastType) : Continues p.payload [p]
  | middle {p : PhysicalRecord} {rest : Bytes} {ps : List PhysicalRecord} (htype : p.type = .kMiddleType)
      (hrest : Continues rest ps) : Continues (p.payload ++ rest) (p :: ps)

inductive Fragments : Bytes → List PhysicalRecord → Prop
  | full {p : PhysicalRecord} (htype : p.type = .kFullType) : Fragments p.payload [p]
  | first {p : PhysicalRecord} {rest : Bytes} {ps : List PhysicalRecord} (htype : p.type = .kFirstType)
      (hrest : Continues rest ps) : Fragments (p.payload ++ rest) (p :: ps)

def PhysicalRecord.Orphan (p : PhysicalRecord) : Prop := p.type = .kMiddleType ∨ p.type = .kLastType

theorem Continues.orphan {rest : Bytes} (h : Continues rest ps) : ∀ p ∈ ps, p.Orphan := by
  induction h with
  | last htype => simpa [PhysicalRecord.Orphan] using .inr htype
  | middle htype _ ih => exact forall_mem_cons.mpr ⟨.inl htype, ih⟩

section Switch

variable {p : PhysicalRecord} {es : List Event} {scratch : Bytes}

theorem assemble_full (htype : p.type = .kFullType) : assemble false scratch (p.event :: es) =
      (p.payload :: (assemble false [] es).1, (assemble false [] es).2) := by
  simp only [assemble, PhysicalRecord.event, htype]
  rfl

theorem assemble_first (htype : p.type = .kFirstType) :
    assemble false scratch (p.event :: es) = assemble true p.payload es := by
  simp only [assemble, PhysicalRecord.event, htype]
  rfl

theorem assemble_middle (htype : p.type = .kMiddleType) :
    assemble true scratch (p.event :: es) = assemble true (scratch ++ p.payload) es := by
  simp only [assemble, PhysicalRecord.event, htype]
  rfl

theorem assemble_last (htype : p.type = .kLastType) : assemble true scratch (p.event :: es) =
      ((scratch ++ p.payload) :: (assemble false [] es).1, (assemble false [] es).2) := by
  simp only [assemble, PhysicalRecord.event, htype]
  rfl

theorem assemble_orphan (h : p.Orphan) :
    (assemble false scratch (p.event :: es)).1 = (assemble false scratch es).1 := by
  rcases h with htype | htype
  all_goals
    simp only [assemble, PhysicalRecord.event, htype]
    rfl

end Switch

section Damage

variable (kept : PhysicalRecord → Bool)

/-- The events of a log of which only the physical records in `kept` are readable.  A lost one that
follows a readable one shows as a bad record, or as the end of the file when nothing after it is
readable; the flag says that the previous one was lost. -/
inductive Damaged : Bool → List PhysicalRecord → List Event → Prop
  | eof {lost : Bool} {ps : List PhysicalRecord} {reports : List Report}
      (hlost : ∀ p ∈ ps, kept p = false) : Damaged lost ps [.eof reports]
  | keep {lost : Bool} {p : PhysicalRecord} {ps : List PhysicalRecord} {es : List Event}
      (hkept : kept p = true) (hrest : Damaged false ps es) : Damaged lost (p :: ps) (p.event :: es)
  | bad {lost : Bool} {p : PhysicalRecord} {ps : List PhysicalRecord} {es : List Event}
      {reports : List Report} (hlost : kept p = false) (hrest : Damaged true ps es) :
      Damaged lost (p :: ps) (.bad reports :: es)
  | skip {p : PhysicalRecord} {ps : List PhysicalRecord} {es : List Event}
      (hlost : kept p = false) (hrest : Damaged true ps es) : Damaged true (p :: ps) es

def survivors (log : List (Bytes × List PhysicalRecord)) : List Bytes :=
  (log.filter fun r ↦ r.2.all kept).map Prod.fst

variable {kept}

theorem survivors_cons_of_all {record : Bytes} (h : ∀ p ∈ ps, kept p = true) :
    survivors kept ((record, ps) :: log) = record :: survivors kept log := by
  rw [survivors, filter_cons_of_pos]
  · rfl
  · exact all_eq_true.mpr h

theorem survivors_cons_of_kept {record : Bytes} {p : PhysicalRecord} (h : kept p = true) :
    survivors kept ((record, p :: ps) :: log) = survivors kept ((record, ps) :: log) := by
  simp only [survivors, filter_cons, all_cons, h, Bool.true_and]
  split <;> rfl

theorem survivors_cons_of_lost {record : Bytes} {p : PhysicalRecord} (hp : p ∈ ps) (h : kept p = false) :
    survivors kept ((record, ps) :: log) = survivors kept log := by
  rw [survivors, filter_cons_of_neg]
  · rfl
  · intro hall
    rw [all_eq_true.mp hall p hp] at h
    contradiction

theorem Fragments.ne_nil {record : Bytes} (h : Fragments record ps) : ps ≠ [] := by
  cases h <;> exact cons_ne_nil _ _

theorem Continues.ne_nil {rest : Bytes} (h : Continues rest ps) : ps ≠ [] := by
  cases h <;> exact cons_ne_nil _ _

theorem survivors_eq_nil (hlog : ∀ r ∈ log, Fragments r.1 r.2)
    (h : ∀ p ∈ (log.map Prod.snd).flatten, kept p = false) : survivors kept log = [] := by
  rw [survivors, map_eq_nil_iff, filter_eq_nil_iff]
  intro r hr hall
  obtain ⟨p, hp⟩ := exists_mem_of_ne_nil r.2 (hlog r hr).ne_nil
  have hlost := h p (mem_flatten.mpr ⟨r.2, mem_map_of_mem hr, hp⟩)
  rw [all_eq_true.mp hall p hp] at hlost
  contradiction

theorem Continues.exists_cons {rest : Bytes} (h : Continues rest ps) :
    ∃ p qs, ps = p :: qs ∧ ∀ q ∈ qs, q.Orphan := by
  obtain ⟨p, qs, rfl⟩ := exists_cons_of_ne_nil h.ne_nil
  exact ⟨p, qs, rfl, fun q hq ↦ h.orphan q (mem_cons_of_mem p hq)⟩

theorem Fragments.exists_cons {record : Bytes} (h : Fragments record ps) :
    ∃ p qs, ps = p :: qs ∧ ∀ q ∈ qs, q.Orphan := by
  cases h with
  | @full p htype => exact ⟨p, [], rfl, by simp⟩
  | @first p rest qs htype hrest => exact ⟨p, qs, rfl, hrest.orphan⟩

theorem exists_log_of_lost {p : PhysicalRecord} {ps orphans : List PhysicalRecord} (hlost : kept p = false)
    (hps : p :: ps = orphans ++ (log.map Prod.snd).flatten) (horphans : ∀ q ∈ orphans, q.Orphan)
    (hlog : ∀ r ∈ log, Fragments r.1 r.2) :
    ∃ orphans' log', ps = orphans' ++ (log'.map Prod.snd).flatten ∧ (∀ q ∈ orphans', q.Orphan) ∧
      (∀ r ∈ log', Fragments r.1 r.2) ∧ survivors kept log' = survivors kept log := by
  cases orphans with
  | cons o orphans =>
    obtain ⟨rfl, rfl⟩ := List.cons.inj hps
    exact ⟨orphans, log, rfl, fun q hq ↦ horphans q (mem_cons_of_mem p hq), hlog, rfl⟩
  | nil =>
    cases log with
    | nil => cases hps
    | cons r log =>
      obtain ⟨hr, hlog⟩ := forall_mem_cons.mp hlog
      obtain ⟨q, qs, hfragments, hqs⟩ := hr.exists_cons
      rw [nil_append, map_cons, flatten_cons, hfragments] at hps
      obtain ⟨rfl, rfl⟩ := List.cons.inj hps
      refine ⟨qs, log, rfl, hqs, hlog, (survivors_cons_of_lost ?_ hlost).symm⟩
      rw [hfragments]
      exact mem_cons_self

/-- The assembly outside and inside of a record, by induction on the damage: outside, a continuation is
passed over and a first or full fragment starts a record; inside, only the next fragment of the same
record can follow a kept one. -/
theorem Damaged.assemble_eq {lost : Bool} {es : List Event} (h : Damaged kept lost ps es)
    (hlog : ∀ r ∈ log, Fragments r.1 r.2) :
    (∀ scratch orphans, ps = orphans ++ (log.map Prod.snd).flatten → (∀ p ∈ orphans, p.Orphan) →
      (assemble false scratch es).1 = survivors kept log) ∧
    (∀ scratch rest fragments, lost = false → ps = fragments ++ (log.map Prod.snd).flatten →
      Continues rest fragments →
      (assemble true scratch es).1 = survivors kept ((scratch ++ rest, fragments) :: log)) := by
  induction h generalizing log with
  | eof hlost =>
    constructor
    · rintro scratch orphans rfl -
      rw [survivors_eq_nil hlog fun p hp ↦ hlost p (mem_append_right _ hp)]
      rfl
    · rintro scratch rest fragments - rfl hrest
      have hnil := survivors_eq_nil hlog fun p hp ↦ hlost p (mem_append_right _ hp)
      obtain ⟨p, hp⟩ := exists_mem_of_ne_nil fragments hrest.ne_nil
      rw [survivors_cons_of_lost hp (hlost p (mem_append_left _ hp)), hnil]
      rfl
  | @keep lost p ps es hkept hrest ih =>
    constructor
    · intro scratch orphans hps horphans
      cases orphans with
      | cons o orphans =>
        obtain ⟨rfl, rfl⟩ := List.cons.inj hps
        rw [assemble_orphan (horphans p mem_cons_self)]
        exact (ih hlog).1 scratch orphans rfl fun q hq ↦ horphans q (mem_cons_of_mem p hq)
      | nil =>
        cases log with
        | nil => cases hps
        | cons r log =>
          obtain ⟨hr, hlog'⟩ := forall_mem_cons.mp hlog
          obtain ⟨record, fragments⟩ := r
          cases hr with
          | full htype =>
            obtain ⟨rfl, rfl⟩ := List.cons.inj hps
            rw [assemble_full htype, survivors_cons_of_all (by simpa using hkept)]
            exact congrArg (p.payload :: ·) ((ih hlog').1 [] [] rfl (by simp))
          | @first q rest qs htype hcontinues =>
            obtain ⟨rfl, rfl⟩ := List.cons.inj hps
            rw [assemble_first htype, survivors_cons_of_kept hkept]
            exact (ih hlog').2 p.payload rest qs rfl rfl hcontinues
    · intro scratch rest fragments _ hps hcontinues
      cases hcontinues with
      | last htype =>
        obtain ⟨rfl, rfl⟩ := List.cons.inj hps
        rw [assemble_last htype, survivors_cons_of_all (by simpa using hkept)]
        exact congrArg ((scratch ++ p.payload) :: ·) ((ih hlog).1 [] [] rfl (by simp))
      | @middle q rest qs htype hcontinues =>
        obtain ⟨rfl, rfl⟩ := List.cons.inj hps
        rw [assemble_middle htype, survivors_cons_of_kept hkept, ← append_assoc]
        exact (ih hlog).2 (scratch ++ p.payload) rest qs rfl rfl hcontinues
  | @bad lost p ps es reports hlost hrest ih =>
    constructor
    · intro scratch orphans hps horphans
      obtain ⟨orphans', log', hps', horphans', hlog', hsurvivors⟩ :=
        exists_log_of_lost hlost hps horphans hlog
      exact ((ih hlog').1 scratch orphans' hps' horphans').trans hsurvivors
    · intro scratch rest fragments _ hps hcontinues
      obtain ⟨q, qs, rfl, horphans⟩ := hcontinues.exists_cons
      obtain ⟨rfl, rfl⟩ := List.cons.inj hps
      rw [survivors_cons_of_lost mem_cons_self hlost]
      exact (ih hlog).1 [] qs rfl horphans
  | @skip p ps es hlost hrest ih =>
    refine ⟨?_, fun _ _ _ hfalse ↦ by contradiction⟩
    intro scratch orphans hps horphans
    obtain ⟨orphans', log', hps', horphans', hlog', hsurvivors⟩ :=
      exists_log_of_lost hlost hps horphans hlog
    exact ((ih hlog').1 scratch orphans' hps' horphans').trans hsurvivors

/-- **No splice and no loss beyond the damage.** -/
theorem Damaged.assemble_eq_survivors {es : List Event}
    (h : Damaged kept false (log.map Prod.snd).flatten es) (hlog : ∀ r ∈ log, Fragments r.1 r.2) :
    (assemble false [] es).1 = survivors kept log :=
  (h.assemble_eq hlog).1 [] [] rfl (by simp)

/-- The fragments of a record that is being read are taken without a report. -/
theorem Continues.reports_assemble {rest : Bytes} (h : Continues rest ps) (scratch : Bytes)
    (es : List Event) :
    (assemble true scratch (ps.map PhysicalRecord.event ++ es)).2 = (assemble false [] es).2 := by
  induction h generalizing scratch with
  | last htype => rw [map_cons, map_nil, singleton_append, assemble_last htype]
  | middle htype _ ih =>
    rw [map_cons, cons_append, assemble_middle htype]
    exact ih _

theorem Fragments.reports_assemble {record : Bytes} (h : Fragments record ps) (es : List Event) :
    (assemble false [] (ps.map PhysicalRecord.event ++ es)).2 = (assemble false [] es).2 := by
  cases h with
  | full htype => rw [map_cons, map_nil, singleton_append, assemble_full htype]
  | first htype hrest =>
    rw [map_cons, cons_append, assemble_first htype]
    exact hrest.reports_assemble _ es

/-- An undamaged log is read without a report. -/
theorem reports_assemble_intact (hlog : ∀ r ∈ log, Fragments r.1 r.2) :
    (assemble false [] ((log.map Prod.snd).flatten.map PhysicalRecord.event ++ [.eof []])).2 = [] := by
  induction log with
  | nil => rfl
  | cons r log ih =>
    obtain ⟨hr, hlog⟩ := forall_mem_cons.mp hlog
    rw [map_cons, flatten_cons, map_append, append_assoc, hr.reports_assemble]
    exact ih hlog

end Damage

end LevelDB.Db.Log
