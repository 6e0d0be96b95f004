import LevelDB.Db.LogAhead

/-!
# Reading a log from an offset

`Reader` is told to start at an initial offset and says where the record that it returned last starts.  If
`last_record_offset_` happens to be below the initial offset, `SkipToInitialBlock` goes to the block of the
initial offset, or to the next one if only a trailer is left; else the reader begins with the file and counts
offsets from what `end_of_buffer_offset_` happens to be (`entry`).  It gives the records all of whose physical
records it takes to start at the initial offset or after it, and takes a record to start where the physical
record before it ends (`Reader.Enters.readOffsets_eq`).  `reads_from_initial_offset_iff` says when these are the
records that start at the initial offset or after it, with their offsets; two things stand in the way of this:
the members that the constructor leaves uninitialised, and trailers (`offsets_go_wrong`).
-/

namespace LevelDB.Db.Log

open List

variable {crc : Crc32c} {r r₁ : Reader} {all last ps qs : List PhysicalRecord} {data record : Bytes}
  {base front start : ℕ} {shift : UInt64} {closed : List (List PhysicalRecord)}
  {log : List (Bytes × List PhysicalRecord)}

namespace Reader

set_option linter.unusedVariables false in
/-- The records that `ReadRecord` gives until it returns false, each with `LastRecordOffset` after it. -/
def readOffsets (crc : Crc32c) (r : Reader) : List (Bytes × UInt64) :=
  match hread : (r.readRecord crc).2 with
  | none => []
  | some record => (record, (r.readRecord crc).1.lastRecordOffset) :: readOffsets crc (r.readRecord crc).1
termination_by r.remaining
decreasing_by exact remaining_readRecord_lt crc r hread

theorem readOffsets_of_some {record : Bytes} (hread : r.readRecord crc = (r₁, some record)) :
    r.readOffsets crc = (record, r₁.lastRecordOffset) :: r₁.readOffsets crc := by
  rw [readOffsets]
  split <;> rename_i heq <;> rw [hread] at heq <;> cases heq
  rw [hread]

theorem readOffsets_of_none (hread : r.readRecord crc = (r₁, none)) : r.readOffsets crc = [] := by
  rw [readOffsets]
  split
  · rfl
  · rename_i heq
    rw [hread] at heq
    cases heq

/-- Physical records before the initial offset and fragments without a start are passed over. -/
theorem Ahead.readFragments_skips (h : r.Ahead crc last [] shift front (qs ++ ps))
    (hskipped : ∀ q ∈ qs, shift + UInt64.ofNat q.offset < r.initialOffset ∨ q.Orphan) (scratch : Bytes)
    (prospective : UInt64) :
    ∃ r₁ : Reader, r.readFragments crc false scratch prospective =
        r₁.readFragments crc false scratch prospective ∧
      r₁.Ahead crc last [] shift (limitAfter front qs) ps ∧ r₁.initialOffset = r.initialOffset := by
  induction qs generalizing r front with
  | nil => exact ⟨r, rfl, h, rfl⟩
  | cons q qs ih =>
    obtain ⟨r₁, hread, hahead, hkeeps, -⟩ := h.readPhysicalRecord_cons
    have hnext : ∃ dropped, r.readFragments crc false scratch prospective =
        Reader.readFragments crc { r₁ with dropped } false scratch prospective := by
      by_cases hbefore : shift + UInt64.ofNat q.offset < r.initialOffset
      · rw [seen, if_pos hbefore] at hread
        exact ⟨r₁.dropped, readFragments_eq hread⟩
      · rw [seen, if_neg hbefore] at hread
        rcases (hskipped q mem_cons_self).resolve_left hbefore with htype | htype
        all_goals
          rw [htype] at hread
          obtain ⟨dropped, hdropped⟩ := reportDrops_eq r₁ (dispatch false scratch q.type.code q.payload).2
          refine ⟨dropped, ?_⟩
          rw [readFragments_eq hread, ← hdropped, htype]
          rfl
    obtain ⟨dropped, hnext⟩ := hnext
    have hkept : ∀ p ∈ qs, shift + UInt64.ofNat p.offset < r₁.initialOffset ∨ p.Orphan := by
      rw [hkeeps.1]
      exact fun p hp ↦ hskipped p (mem_cons_of_mem q hp)
    have hahead' : Reader.Ahead crc last [] shift { r₁ with dropped } q.limit (qs ++ ps) :=
      hahead.congr rfl rfl rfl rfl rfl
    obtain ⟨r₂, hmore, hahead₂, hinitial⟩ := ih hahead' hkept
    rw [← limitAfter_cons front] at hahead₂
    exact ⟨r₂, hnext.trans hmore, hahead₂, hinitial.trans hkeeps.1⟩

/-- A record of which a later physical record is before the initial offset, as offsets wrap around, is given
up. -/
theorem Ahead.readFragments_gives_up {rest : Bytes} (hcontinues : Continues rest qs)
    (h : r.Ahead crc last [] shift front (qs ++ ps))
    (hhidden : ∃ q ∈ qs, shift + UInt64.ofNat q.offset < r.initialOffset) (scratch : Bytes)
    (prospective : UInt64) :
    ∃ r₁ : Reader, r.readFragments crc true scratch prospective = r₁.readFragments crc false [] prospective ∧
      r₁.Ahead crc last [] shift (limitAfter front qs) ps ∧ r₁.initialOffset = r.initialOffset := by
  induction hcontinues generalizing r scratch front with
  | @last p htype =>
    obtain ⟨q, hq, hbefore⟩ := hhidden
    obtain rfl := mem_singleton.mp hq
    obtain ⟨r₁, hread, hahead, hkeeps, -⟩ := h.readPhysicalRecord_cons
    rw [seen, if_pos hbefore] at hread
    obtain ⟨dropped, hdropped⟩ := reportDrops_eq r₁ (dispatch true scratch kBadRecord []).2
    refine ⟨{ r₁ with dropped }, ?_, hahead.congr rfl rfl rfl rfl rfl, hkeeps.1⟩
    rw [readFragments_eq hread, ← hdropped]
    rfl
  | @middle p rest qs htype hrest ih =>
    obtain ⟨r₁, hread, hahead, hkeeps, -⟩ := h.readPhysicalRecord_cons
    by_cases hbefore : shift + UInt64.ofNat p.offset < r.initialOffset
    · rw [seen, if_pos hbefore] at hread
      obtain ⟨dropped, hdropped⟩ := reportDrops_eq r₁ (dispatch true scratch kBadRecord []).2
      have hahead' : Reader.Ahead crc last [] shift { r₁ with dropped } p.limit (qs ++ ps) :=
        hahead.congr rfl rfl rfl rfl rfl
      obtain ⟨r₂, hmore, hahead₂, hinitial⟩ :=
        hahead'.readFragments_skips (fun q hq ↦ .inr (hrest.orphan q hq)) [] prospective
      rw [← limitAfter_cons front] at hahead₂
      refine ⟨r₂, ?_, hahead₂, hinitial.trans hkeeps.1⟩
      rw [readFragments_eq hread, ← hmore, ← hdropped]
      rfl
    · rw [seen, if_neg hbefore, htype] at hread
      have hlater := ((exists_mem_cons_iff _ p qs).mp hhidden).resolve_left hbefore
      rw [← hkeeps.1] at hlater
      obtain ⟨r₂, hmore, hahead₂, hinitial⟩ := ih hahead hlater (scratch ++ p.payload)
      rw [← limitAfter_cons front] at hahead₂
      refine ⟨r₂, ?_, hahead₂, hinitial.trans hkeeps.1⟩
      rw [readFragments_eq hread]
      exact hmore

theorem Ahead.readFragments_passes (hfragments : Fragments record qs)
    (h : r.Ahead crc last [] shift front (qs ++ ps))
    (hhidden : ∃ q ∈ qs, shift + UInt64.ofNat q.offset < r.initialOffset) (scratch : Bytes)
    (prospective : UInt64) :
    ∃ (r₁ : Reader) (scratch₁ : Bytes) (prospective₁ : UInt64),
      r.readFragments crc false scratch prospective = r₁.readFragments crc false scratch₁ prospective₁ ∧
      r₁.Ahead crc last [] shift (limitAfter front qs) ps ∧ r₁.initialOffset = r.initialOffset := by
  cases hfragments with
  | @full p htype =>
    obtain ⟨q, hq, hbefore⟩ := hhidden
    obtain ⟨r₁, hread, hahead, hinitial⟩ := h.readFragments_skips
      (fun p hp ↦ .inl (by rwa [mem_singleton.mp hp, ← mem_singleton.mp hq])) scratch prospective
    exact ⟨r₁, _, _, hread, hahead, hinitial⟩
  | @first p rest qs htype hrest =>
    by_cases hbefore : shift + UInt64.ofNat p.offset < r.initialOffset
    · obtain ⟨r₁, hread, hahead, hinitial⟩ := h.readFragments_skips (forall_mem_cons.mpr
        ⟨.inl hbefore, fun q hq ↦ .inr (hrest.orphan q hq)⟩) scratch prospective
      exact ⟨r₁, _, _, hread, hahead, hinitial⟩
    · obtain ⟨r₁, hread, hahead, hkeeps, -⟩ := h.readPhysicalRecord_cons
      rw [seen, if_neg hbefore, htype] at hread
      have hlater := ((exists_mem_cons_iff _ p qs).mp hhidden).resolve_left hbefore
      rw [← hkeeps.1] at hlater
      obtain ⟨r₂, hmore, hahead₂, hinitial⟩ := hahead.readFragments_gives_up hrest hlater p.payload r.position
      rw [← limitAfter_cons front] at hahead₂
      refine ⟨r₂, [], r.position, ?_, hahead₂, hinitial.trans hkeeps.1⟩
      rw [readFragments_eq hread]
      exact hmore

end Reader

def startOf (ps : List PhysicalRecord) : ℕ := (ps.head?.map PhysicalRecord.offset).getD 0

def endBefore (all : List PhysicalRecord) (offset : ℕ) : ℕ :=
  Reader.limitAfter 0 (all.filter fun p ↦ p.offset < offset)

/-- Where a new reader begins, and what it takes the offset of the start of the file to be. -/
def entry (initialOffset lastRecordOffset endOfBufferOffset : UInt64) : ℕ × UInt64 :=
  if lastRecordOffset < initialOffset then ((Reader.blockStartLocation initialOffset).toNat, 0)
  else (0, endOfBufferOffset)

def Visible (initialOffset shift : UInt64) (ps : List PhysicalRecord) : Prop :=
  ∀ q ∈ ps, initialOffset ≤ shift + UInt64.ofNat q.offset

instance (initialOffset shift : UInt64) (ps : List PhysicalRecord) : Decidable (Visible initialOffset shift ps) :=
  inferInstanceAs (Decidable (∀ q ∈ ps, _))

theorem not_visible_iff {initialOffset : UInt64} :
    ¬ Visible initialOffset shift ps ↔ ∃ q ∈ ps, shift + UInt64.ofNat q.offset < initialOffset := by
  simp only [Visible, not_forall, UInt64.not_le, exists_prop]

def given (all : List PhysicalRecord) (base : ℕ) (initialOffset shift : UInt64)
    (log : List (Bytes × List PhysicalRecord)) : List (Bytes × UInt64) :=
  (log.filter fun x ↦ Visible initialOffset shift x.2).map fun x ↦
    (x.1, shift + UInt64.ofNat (max base (endBefore all (startOf x.2))))

theorem Fragments.startOf_mem (h : Fragments record ps) : ∃ p ∈ ps, p.offset = startOf ps := by
  obtain ⟨p, qs, rfl, -⟩ := h.exists_cons
  exact ⟨p, mem_cons_self, rfl⟩

section Sorted

variable {pre post : List PhysicalRecord}

theorem endBefore_eq (hsorted : (pre ++ post).Pairwise fun p q ↦ p.limit ≤ q.offset) {p : PhysicalRecord}
    (hp : post.head? = some p) : endBefore (pre ++ post) p.offset = Reader.limitAfter 0 pre := by
  obtain ⟨qs, rfl⟩ : ∃ qs, post = p :: qs := by
    cases post with
    | nil => cases hp
    | cons q qs => exact ⟨qs, congrArg (· :: qs) (Option.some.inj hp)⟩
  obtain ⟨-, hpost, hcross⟩ := pairwise_append.mp hsorted
  have hlt (q : PhysicalRecord) (hq : q ∈ pre) : q.offset < p.offset :=
    (Nat.lt_add_of_pos_right q.size_pos).trans_le (hcross q hq p mem_cons_self)
  have hge (q : PhysicalRecord) (hq : q ∈ p :: qs) : ¬ q.offset < p.offset := by
    rcases mem_cons.mp hq with rfl | hq
    · exact lt_irrefl _
    · exact not_lt.mpr ((Nat.le_add_right _ _).trans ((pairwise_cons.mp hpost).1 q hq))
  rw [endBefore, filter_append, filter_eq_self.mpr (by simpa using hlt),
    filter_eq_nil_iff.mpr (by simpa using hge), append_nil]

theorem limitAfter_le {limit : ℕ} (hfront : front ≤ limit) (h : ∀ p ∈ ps, p.limit ≤ limit) :
    Reader.limitAfter front ps ≤ limit := by
  rw [Reader.limitAfter]
  cases hlast : ps.getLast? with
  | none => exact hfront
  | some p => exact h p (mem_of_getLast? hlast)

theorem limitAfter_max (h : ∀ q ∈ ps, base ≤ q.offset) :
    Reader.limitAfter (max base front) ps = max base (Reader.limitAfter front ps) := by
  rw [Reader.limitAfter, Reader.limitAfter]
  cases hlast : ps.getLast? with
  | none => rfl
  | some p =>
    have hle := h p (mem_of_getLast? hlast)
    exact (max_eq_right (hle.trans (Nat.le_add_right _ _))).symm

end Sorted

theorem Reader.readRecord_of_lt (h : r.lastRecordOffset < r.initialOffset) :
    r.readRecord crc = r.skipToInitialBlock.readFragments crc false [] 0 := by
  rw [readRecord, if_pos h]

/-- The records ahead are given up to the end of the log.  Only the first call may have skipped, as long
as the offsets are at or after the initial one. -/
theorem Reader.Ahead.readOffsets_eq {pre : List PhysicalRecord} {scratch : Bytes} {prospective : UInt64}
    (h : r₁.Ahead crc last [] shift front (log.map Prod.snd).flatten) (hlast : total last ≤ kBlockSize)
    (hread : r.readRecord crc = r₁.readFragments crc false scratch prospective)
    (hlog : ∀ x ∈ log, Fragments x.1 x.2) (hall : all = pre ++ (log.map Prod.snd).flatten)
    (hsorted : all.Pairwise fun p q ↦ p.limit ≤ q.offset) (hfront : front = max base (limitAfter 0 pre))
    (hbase : ∀ q ∈ (log.map Prod.snd).flatten, base ≤ q.offset)
    (hle : (∀ out ∈ given all base r₁.initialOffset shift log, r₁.initialOffset ≤ out.2) ∨
      ∀ out ∈ r.readOffsets crc, r₁.initialOffset ≤ out.2) :
    r.readOffsets crc = given all base r₁.initialOffset shift log := by
  induction log generalizing r r₁ front pre scratch prospective with
  | nil =>
    obtain ⟨r₂, hnone, -⟩ := (@Ahead.barren crc shift r₁ front last 0 h hlast (.inl rfl)).readFragments_eq_none
      scratch prospective
    exact readOffsets_of_none (hread.trans hnone)
  | cons x log ih =>
    obtain ⟨hx, hlog⟩ := forall_mem_cons.mp hlog
    rw [map_cons, flatten_cons] at h hall hbase
    obtain ⟨hbasex, hbase⟩ := forall_mem_append.mp hbase
    have hall' : all = pre ++ x.2 ++ (log.map Prod.snd).flatten := hall.trans (append_assoc _ _ _).symm
    have hnext : limitAfter front x.2 = max base (limitAfter 0 (pre ++ x.2)) := by
      rw [limitAfter_append, ← limitAfter_max hbasex, hfront]
    by_cases hvisible : Visible r₁.initialOffset shift x.2
    · obtain ⟨r₂, hreturned, hahead, hkeeps, hoffset⟩ :=
        h.readFragments_returned hx hvisible scratch prospective
      have hstart : max base (endBefore all (startOf x.2)) = front := by
        obtain ⟨p, qs, hps, -⟩ := hx.exists_cons
        rw [hall, hps, hfront]
        exact congrArg (max base) (endBefore_eq (hps ▸ hall ▸ hsorted) rfl)
      have hgiven : given all base r₁.initialOffset shift (x :: log) =
          (x.1, r₂.lastRecordOffset) :: given all base r₂.initialOffset shift log := by
        rw [given, filter_cons_of_pos (by simpa using hvisible), map_cons, hstart, hoffset, hkeeps.1]
        rfl
      have hoffsets := readOffsets_of_some (hread.trans hreturned)
      rw [hgiven, hoffsets] at hle
      have hgo : r₂.initialOffset ≤ r₂.lastRecordOffset := by
        rw [hkeeps.1]
        exact hle.elim (fun hle ↦ hle _ mem_cons_self) (fun hle ↦ hle _ mem_cons_self)
      rw [hgiven, hoffsets, ih hahead (readRecord_of_le hgo) hlog hall' hnext hbase]
      rw [hkeeps.1]
      exact hle.imp (fun hle out hout ↦ hle out (mem_cons_of_mem _ (hkeeps.1 ▸ hout)))
        fun hle out hout ↦ hle out (mem_cons_of_mem _ hout)
    · obtain ⟨r₂, scratch₂, prospective₂, hpassed, hahead, hinitial⟩ :=
        h.readFragments_passes hx (not_visible_iff.mp hvisible) scratch prospective
      have hgiven : given all base r₁.initialOffset shift (x :: log) =
          given all base r₂.initialOffset shift log := by
        rw [given, filter_cons_of_neg (by simpa using hvisible), hinitial]
        rfl
      rw [hgiven] at hle ⊢
      exact ih hahead (hread.trans hpassed) hlog hall' hnext hbase (hinitial ▸ hle)

/-- The block that a reader enters leaves out no room for a header at the initial offset or after it.  Close
to the largest offset the next block has number 0. -/
structure Entered (initialOffset blockStart : UInt64) : Prop where
  dvd : kBlockSize ∣ blockStart.toNat
  lt : blockStart.toNat < initialOffset.toNat + 6

theorem entered_blockStartLocation (initialOffset : UInt64) :
    Entered initialOffset (Reader.blockStartLocation initialOffset) := by
  have hlt := initialOffset.toNat_lt
  have hmod : (initialOffset % UInt64.ofNat kBlockSize).toNat = initialOffset.toNat % kBlockSize :=
    UInt64.toNat_mod _ _
  have hle : initialOffset % UInt64.ofNat kBlockSize ≤ initialOffset := by
    rw [UInt64.le_iff_toNat_le, hmod]
    exact Nat.mod_le _ _
  have hstart := UInt64.toNat_sub_of_le _ _ hle
  have hroom : (UInt64.ofNat kBlockSize - 6).toNat = kBlockSize - 6 := rfl
  have hsize : (UInt64.ofNat kBlockSize).toNat = kBlockSize := rfl
  constructor
  · simp only [Reader.blockStartLocation]
    split
    · rw [UInt64.toNat_add, hstart, hmod, hsize]
      simp only [kBlockSize]
      omega
    · rw [hstart, hmod]
      exact Nat.dvd_sub_mod _
  · simp only [Reader.blockStartLocation]
    split <;> rename_i h <;> rw [UInt64.lt_iff_toNat_lt, hmod, hroom] at h
    · rw [UInt64.toNat_add, hstart, hmod, hsize]
      simp only [kBlockSize] at *
      omega
    · rw [hstart, hmod]
      omega

/-- The file from a later block on, and what is left behind. -/
theorem Blocks.drop (h : Blocks crc last start closed data) {k : ℕ} (hk : k ≤ closed.length) :
    Blocks crc last (start + k * kBlockSize) (closed.drop k) (data.drop (k * kBlockSize)) ∧
      ∀ q ∈ (closed.take k).flatten, q.limit ≤ start + k * kBlockSize := by
  induction h generalizing k with
  | last hlaid hfit =>
    obtain rfl : k = 0 := Nat.le_zero.mp hk
    rw [Nat.zero_mul]
    exact ⟨.last hlaid hfit, by simp⟩
  | @cons start ps closed data hlaid hfit hfull hrest ih =>
    cases k with
    | zero =>
      rw [Nat.zero_mul]
      exact ⟨.cons hlaid hfit hfull hrest, by simp⟩
    | succ k =>
      obtain ⟨hblocks, hbehind⟩ := ih (Nat.le_of_succ_le_succ hk)
      have hlength := length_block crc hfit
      have hstart : start + (k + 1) * kBlockSize = start + kBlockSize + k * kBlockSize := by
        rw [Nat.add_mul]
        omega
      rw [hstart, drop_succ_cons, take_succ_cons, flatten_cons]
      constructor
      · rw [Nat.succ_mul, Nat.add_comm (k * kBlockSize) kBlockSize, ← drop_drop, drop_left' hlength]
        exact hblocks
      · refine forall_mem_append.mpr ⟨fun q hq ↦ ?_, hbehind⟩
        exact ((hlaid.bounds q hq).2.trans (Nat.add_le_add_left hfit _)).trans (Nat.le_add_right _ _)

theorem Blocks.pairwise (h : Blocks crc last start closed data) :
    (closed.flatten ++ last).Pairwise fun p q ↦ p.limit ≤ q.offset := by
  induction h with
  | last hlaid hfit => exact hlaid.pairwise
  | cons hlaid hfit hfull hrest ih =>
    rw [flatten_cons, append_assoc]
    refine pairwise_append.mpr ⟨hlaid.pairwise, ih, fun p hp q hq ↦ ?_⟩
    exact ((hlaid.bounds p hp).2.trans (Nat.add_le_add_left hfit _)).trans (hrest.start_le q hq)

structure Reader.Enters (crc : Crc32c) (all last : List PhysicalRecord) (entry : ℕ × UInt64) (r : Reader)
    (before after : List PhysicalRecord) : Prop where
  ahead : r.Ahead crc last [] entry.2 entry.1 after
  total_le : total last ≤ kBlockSize
  all_eq : all = before ++ after
  limit_le : ∀ q ∈ before, q.limit ≤ entry.1
  le_offset : ∀ q ∈ after, entry.1 ≤ q.offset
  hidden : ∀ q ∈ before,
    q.offset < r.initialOffset.toNat ∧ entry.2 + UInt64.ofNat q.offset < r.initialOffset

theorem Blocks.enters_of_skip (h : Blocks crc last 0 closed data) {blockStart : UInt64}
    (hentered : Entered r.initialOffset blockStart) (hfile : r.file = data.drop blockStart.toNat)
    (hbuffer : r.buffer = []) (heof : r.eof = false) (hoffset : r.endOfBufferOffset = blockStart) :
    ∃ last' before after, r.Enters crc (closed.flatten ++ last) last' (blockStart.toNat, 0) before after := by
  obtain ⟨k, hk⟩ := hentered.dvd
  rw [Nat.mul_comm] at hk
  have hbuffered : r.Buffered crc 0 blockStart.toNat [] (List.replicate 0 0) := by
    refine ⟨trivial, Nat.zero_le _, by simp, by simp, hbuffer, ?_⟩
    rw [hoffset, UInt64.zero_add]
    exact UInt64.ofNat_toNat.symm
  have hhidden {q : PhysicalRecord} (hlimit : q.limit ≤ blockStart.toNat) :
      q.offset < r.initialOffset.toNat ∧ 0 + UInt64.ofNat q.offset < r.initialOffset := by
    have hlt := hentered.lt
    have hsmall := blockStart.toNat_lt
    rw [PhysicalRecord.limit, PhysicalRecord.size] at hlimit
    simp only [kHeaderSize] at hlimit
    have hq : q.offset < 2 ^ 64 := by omega
    rw [UInt64.zero_add, UInt64.lt_iff_toNat_lt, UInt64.toNat_ofNat_of_lt' hq]
    omega
  by_cases hclosed : k ≤ closed.length
  · obtain ⟨hblocks, hlimit⟩ := h.drop hclosed
    rw [Nat.zero_add, ← hk] at hblocks hlimit
    have hall : closed.flatten ++ last = (closed.take k).flatten ++ ((closed.drop k).flatten ++ last) := by
      rw [← append_assoc, ← flatten_append, take_append_drop]
    refine ⟨last, _, _, ?_, h.total_le, hall, hlimit, hblocks.start_le, fun q hq ↦ hhidden (hlimit q hq)⟩
    exact .block hbuffered (by decide) rfl hentered.dvd heof hblocks (hfile.trans (append_nil _).symm)
      fun q _ ↦ crc.agrees q
  · have hend : data.length ≤ blockStart.toNat := by
      have hlength := h.length_eq
      have htotal := h.total_le
      have hmul : (closed.length + 1) * kBlockSize ≤ k * kBlockSize :=
        Nat.mul_le_mul_right _ (not_le.mp hclosed)
      rw [Nat.add_mul] at hmul
      omega
    have hlimit : ∀ q ∈ closed.flatten ++ last, q.limit ≤ blockStart.toNat := fun q hq ↦
      (@Blocks.stands crc last 0 closed data h [] rfl q hq).limit_le.trans hend
    have hnone : Blocks crc [] blockStart.toNat [] (bytesOf crc []) := .last trivial (Nat.zero_le _)
    refine ⟨[], closed.flatten ++ last, [], ?_, Nat.zero_le _, (append_nil _).symm, hlimit, by simp,
      fun q hq ↦ hhidden (hlimit q hq)⟩
    exact .block hbuffered (by decide) rfl hentered.dvd heof hnone (hfile.trans (drop_eq_nil_of_le hend))
      (by simp)

theorem Blocks.exists_enter (h : Blocks crc last 0 closed data) (checksum : Bool)
    (initialOffset lastRecordOffset endOfBufferOffset : UInt64) :
    ∃ (r₀ : Reader) (last' before after : List PhysicalRecord), r₀.initialOffset = initialOffset ∧
      r₀.Enters crc (closed.flatten ++ last) last' (entry initialOffset lastRecordOffset endOfBufferOffset)
        before after ∧
      (Reader.new data checksum initialOffset lastRecordOffset endOfBufferOffset).readRecord crc =
        r₀.readFragments crc false [] 0 := by
  rw [entry]
  split
  · rename_i hlt
    obtain ⟨last', before, after, henters⟩ := @Blocks.enters_of_skip crc
      { file := data.drop (Reader.blockStartLocation initialOffset).toNat, checksum, initialOffset,
        lastRecordOffset, endOfBufferOffset := Reader.blockStartLocation initialOffset } last data closed h _
      (entered_blockStartLocation initialOffset) rfl rfl rfl rfl
    refine ⟨_, last', before, after, rfl, henters, ?_⟩
    rw [Reader.readRecord_of_lt hlt]
    rfl
  · rename_i hle
    have hahead := h.ahead_new (fun p _ ↦ crc.agrees p) [] checksum initialOffset
      lastRecordOffset endOfBufferOffset
    rw [append_nil] at hahead
    exact ⟨_, last, [], _, rfl, ⟨hahead, h.total_le, rfl, by simp, fun q _ ↦ Nat.zero_le _, by simp⟩,
      Reader.readRecord_of_le (UInt64.not_lt.mp hle)⟩

theorem exists_log_after (hlog : ∀ x ∈ log, Fragments x.1 x.2) {before after : List PhysicalRecord}
    (hsplit : (log.map Prod.snd).flatten = before ++ after) :
    ∃ passed rest orphans, log = passed ++ rest ∧ after = orphans ++ (rest.map Prod.snd).flatten ∧
      (∀ q ∈ orphans, q.Orphan) ∧ ∀ x ∈ passed, ∃ p ∈ before, p ∈ x.2 ∧ p.offset = startOf x.2 := by
  induction log generalizing before after with
  | nil =>
    obtain ⟨rfl, rfl⟩ := append_eq_nil_iff.mp hsplit.symm
    exact ⟨[], [], [], rfl, rfl, by simp, by simp⟩
  | cons x log ih =>
    obtain ⟨hx, hlog⟩ := forall_mem_cons.mp hlog
    obtain ⟨p, qs, hps, hqs⟩ := hx.exists_cons
    cases before with
    | nil => exact ⟨[], x :: log, [], rfl, hsplit.symm, by simp, by simp⟩
    | cons b before =>
      rw [map_cons, flatten_cons] at hsplit
      have hb : b = p := by
        rw [hps] at hsplit
        exact (List.cons.inj hsplit).1.symm
      have hstart : ∃ q ∈ b :: before, q ∈ x.2 ∧ q.offset = startOf x.2 := by
        refine ⟨p, hb ▸ mem_cons_self, hps ▸ mem_cons_self, ?_⟩
        rw [hps]
        rfl
      rcases append_eq_append_iff.mp hsplit with ⟨front, hfront, hrest⟩ | ⟨orphans, hx2, rfl⟩
      · obtain ⟨passed, rest, orphans, rfl, rfl, horphans, hpassed⟩ := ih hlog hrest
        refine ⟨x :: passed, rest, orphans, rfl, rfl, horphans, forall_mem_cons.mpr ⟨hstart, ?_⟩⟩
        intro y hy
        obtain ⟨q, hq, hmem⟩ := hpassed y hy
        exact ⟨q, hfront ▸ mem_append_right _ hq, hmem⟩
      · refine ⟨[x], log, orphans, rfl, rfl, fun q hq ↦ hqs q ?_, by simpa using hstart⟩
        rw [hps, cons_append] at hx2
        rw [(List.cons.inj hx2).2]
        exact mem_append_right _ hq

theorem Reader.Enters.readOffsets_eq {before after : List PhysicalRecord} {entry : ℕ × UInt64} {r₀ : Reader}
    (h : r₀.Enters crc all last entry before after)
    (hread : r.readRecord crc = r₀.readFragments crc false [] 0) (hlog : ∀ x ∈ log, Fragments x.1 x.2)
    (hall : all = (log.map Prod.snd).flatten) (hsorted : all.Pairwise fun p q ↦ p.limit ≤ q.offset) :
    ∃ passed rest, log = passed ++ rest ∧ (∀ q ∈ (rest.map Prod.snd).flatten, entry.1 ≤ q.offset) ∧
      (∀ x ∈ passed, startOf x.2 < r₀.initialOffset.toNat ∧ ¬ Visible r₀.initialOffset entry.2 x.2) ∧
      ((∀ out ∈ given all entry.1 r₀.initialOffset entry.2 rest, r₀.initialOffset ≤ out.2) ∨
          (∀ out ∈ r.readOffsets crc, r₀.initialOffset ≤ out.2) →
        r.readOffsets crc = given all entry.1 r₀.initialOffset entry.2 rest) := by
  obtain ⟨passed, rest, orphans, rfl, rfl, horphans, hpassed⟩ :=
    exists_log_after hlog (hall.symm.trans h.all_eq)
  obtain ⟨horphansBase, hrestBase⟩ := forall_mem_append.mp h.le_offset
  obtain ⟨r₁, hskipped, hahead, hinitial⟩ :=
    h.ahead.readFragments_skips (fun q hq ↦ .inr (horphans q hq)) [] 0
  refine ⟨passed, rest, rfl, hrestBase, fun x hx ↦ ?_, fun hle ↦ ?_⟩
  · obtain ⟨p, hp, hmem, hstart⟩ := hpassed x hx
    exact ⟨hstart ▸ (h.hidden p hp).1, not_visible_iff.mpr ⟨p, hmem, (h.hidden p hp).2⟩⟩
  · have hfront : limitAfter entry.1 orphans = max entry.1 (limitAfter 0 (before ++ orphans)) := by
      rw [limitAfter_append, ← limitAfter_max horphansBase,
        max_eq_left (limitAfter_le (Nat.zero_le _) h.limit_le)]
    rw [← hinitial] at hle ⊢
    refine hahead.readOffsets_eq h.total_le (hread.trans hskipped)
      (fun x hx ↦ hlog x (mem_append_right _ hx)) ?_ hsorted hfront hrestBase hle
    rw [h.all_eq, append_assoc]

section Right

variable {initialOffset : UInt64} {found : Bytes × List PhysicalRecord → ℕ}

theorem toNat_add_ofNat (shift : UInt64) (n : ℕ) :
    (shift + UInt64.ofNat n).toNat = (shift.toNat + n) % 2 ^ 64 := by
  rw [UInt64.toNat_add, UInt64.toNat_ofNat', Nat.add_mod_mod]

/-- No offset wraps around. -/
theorem visible_of_lt (hshift : shift.toNat < 2 ^ 63) (hinitial : initialOffset.toNat ≤ startOf ps)
    (hoffset : ∀ q ∈ ps, startOf ps ≤ q.offset ∧ q.offset < 2 ^ 63) : Visible initialOffset shift ps := by
  intro q hq
  obtain ⟨hle, hlt⟩ := hoffset q hq
  rw [UInt64.le_iff_toNat_le, toNat_add_ofNat]
  omega

/-- If offsets are counted from far behind, records that start before the first right one are given last. -/
theorem filter_eq_nil_of_wrap (hshift : 2 ^ 63 ≤ shift.toNat)
    (hsorted : log.Pairwise fun x y ↦ startOf x.2 < startOf y.2)
    (hfound : ∀ x ∈ log, found x ≤ startOf x.2) (hlt : ∀ x ∈ log, startOf x.2 < 2 ^ 63)
    (h : List.Forall₂ (fun x y ↦ (shift + UInt64.ofNat (found y)).toNat = startOf x.2)
      (log.filter fun x ↦ initialOffset.toNat ≤ startOf x.2)
      (log.filter fun x ↦ Visible initialOffset shift x.2)) :
    (log.filter fun x ↦ initialOffset.toNat ≤ startOf x.2) = [] := by
  have hlength := h.length_eq
  cases hright : log.filter fun x ↦ initialOffset.toNat ≤ startOf x.2 with
  | nil => rfl
  | cons e es =>
    cases hvisible : log.filter fun x ↦ Visible initialOffset shift x.2 with
    | nil =>
      rw [hright, hvisible] at hlength
      cases hlength
    | cons v vs =>
      exfalso
      rw [hright, hvisible] at h
      have hhead := (forall₂_cons.mp h).1
      have he : e ∈ log.filter fun x ↦ initialOffset.toNat ≤ startOf x.2 := hright ▸ mem_cons_self
      have hv : v ∈ log.filter fun x ↦ Visible initialOffset shift x.2 := hvisible ▸ mem_cons_self
      rw [mem_filter, decide_eq_true_iff] at he
      -- the first record that is given starts behind the first one that should be
      have hbehind : startOf e.2 < startOf v.2 := by
        have hv' := hfound v (mem_filter.mp hv).1
        have he' := hlt e he.1
        have hsmall := shift.toNat_lt
        rw [toNat_add_ofNat] at hhead
        omega
      have hlater : ∀ x ∈ log, Visible initialOffset shift x.2 → startOf e.2 < startOf x.2 := by
        intro x hx hxv
        have hmem : x ∈ v :: vs := hvisible ▸ mem_filter.mpr ⟨hx, decide_eq_true hxv⟩
        rcases mem_cons.mp hmem with rfl | hmem
        · exact hbehind
        · have hpairwise := hsorted.sublist (filter_sublist (p := fun x ↦ Visible initialOffset shift x.2))
          rw [hvisible] at hpairwise
          exact hbehind.trans ((pairwise_cons.mp hpairwise).1 x hmem)
      have hsub : (log.filter fun x ↦ Visible initialOffset shift x.2) =
          es.filter fun x ↦ Visible initialOffset shift x.2 := by
        have hboth : (log.filter fun x ↦ Visible initialOffset shift x.2) =
            (e :: es).filter fun x ↦ Visible initialOffset shift x.2 := by
          rw [← hright, filter_filter]
          refine filter_congr fun x hx ↦ ?_
          by_cases hxv : Visible initialOffset shift x.2
          · simp [hxv, he.2.trans (hlater x hx hxv).le]
          · simp [hxv]
        rw [hboth, filter_cons_of_neg]
        simpa using fun hev ↦ lt_irrefl _ (hlater e he.1 hev)
      have hle := length_filter_le (fun x ↦ decide (Visible initialOffset shift x.2)) es
      rw [hright, hsub] at hlength
      simp only [length_cons] at hlength
      omega

/-- The right records are given with the right offsets exactly if each one that starts at the initial
offset or after it is found at its offset and each other one is not given. -/
theorem forall₂_filter_iff (hsorted : log.Pairwise fun x y ↦ startOf x.2 < startOf y.2)
    (hne : ∀ x ∈ log, ∃ q ∈ x.2, q.offset = startOf x.2)
    (hoffset : ∀ x ∈ log, ∀ q ∈ x.2, startOf x.2 ≤ q.offset ∧ q.offset < 2 ^ 63)
    (hfound : ∀ x ∈ log, found x ≤ startOf x.2) :
    List.Forall₂ (fun x out ↦ out.1 = x.1 ∧ out.2.toNat = startOf x.2)
        (log.filter fun x ↦ initialOffset.toNat ≤ startOf x.2)
        ((log.filter fun x ↦ Visible initialOffset shift x.2).map fun x ↦
          (x.1, shift + UInt64.ofNat (found x))) ↔
      ∀ x ∈ log, if initialOffset.toNat ≤ startOf x.2 then shift.toNat + found x = startOf x.2
        else ¬ Visible initialOffset shift x.2 := by
  have hlt : ∀ x ∈ log, startOf x.2 < 2 ^ 63 := by
    intro x hx
    obtain ⟨q, hq, hstart⟩ := hne x hx
    exact hstart ▸ (hoffset x hx q hq).2
  have hcounted (x) (hx : x ∈ log) :
      (shift + UInt64.ofNat (found x)).toNat = startOf x.2 ↔ shift.toNat + found x = startOf x.2 := by
    have hfoundx := hfound x hx
    have hltx := hlt x hx
    have hsmall := shift.toNat_lt
    rw [toNat_add_ofNat]
    omega
  rw [forall₂_map_right_iff]
  constructor
  · intro h x hx
    by_cases hshift : shift.toNat < 2 ^ 63
    · -- all that should be given are given, and so nothing else is
      have hboth : (log.filter fun x ↦ initialOffset.toNat ≤ startOf x.2) =
          (log.filter fun x ↦ Visible initialOffset shift x.2).filter fun x ↦
            initialOffset.toNat ≤ startOf x.2 := by
        rw [filter_filter]
        refine filter_congr fun y hy ↦ ?_
        by_cases hright : initialOffset.toNat ≤ startOf y.2
        · simp [hright, visible_of_lt hshift hright (hoffset y hy)]
        · simp [hright]
      have hlength := h.length_eq
      rw [hboth, length_filter_eq_length_iff] at hlength
      split
      · rename_i hright
        rw [hboth, filter_eq_self.mpr hlength, forall₂_same] at h
        have hmem : x ∈ log.filter fun x ↦ Visible initialOffset shift x.2 :=
          mem_filter.mpr ⟨hx, decide_eq_true (visible_of_lt hshift hright (hoffset x hx))⟩
        exact (hcounted x hx).mp (h x hmem).2
      · rename_i hright
        intro hvisible
        exact hright (by simpa using hlength x (mem_filter.mpr ⟨hx, decide_eq_true hvisible⟩))
    · have hnil := filter_eq_nil_of_wrap (not_lt.mp hshift) hsorted hfound hlt (h.imp fun _ _ h ↦ h.2)
      have hlength := h.length_eq
      rw [hnil, length_nil, eq_comm, length_eq_zero_iff, filter_eq_nil_iff] at hlength
      rw [filter_eq_nil_iff] at hnil
      rw [if_neg (by simpa using hnil x hx)]
      simpa using hlength x hx
  · intro h
    have hsame : (log.filter fun x ↦ Visible initialOffset shift x.2) =
        log.filter fun x ↦ initialOffset.toNat ≤ startOf x.2 := by
      refine filter_congr fun x hx ↦ decide_eq_decide.mpr ?_
      have hx' := h x hx
      split at hx' <;> rename_i hright
      · have hltx := hlt x hx
        have hshift : shift.toNat < 2 ^ 63 := by omega
        exact iff_of_true (visible_of_lt hshift hright (hoffset x hx)) hright
      · exact iff_of_false hx' hright
    rw [hsame, forall₂_same]
    intro x hx
    obtain ⟨hx, hright⟩ := mem_filter.mp hx
    have hx' := h x hx
    rw [if_pos (of_decide_eq_true hright)] at hx'
    exact ⟨rfl, (hcounted x hx).mpr hx'⟩

theorem le_of_forall₂ {outs : List (Bytes × UInt64)} (hright : ∀ x ∈ log, initialOffset.toNat ≤ startOf x.2)
    (h : List.Forall₂ (fun x out ↦ out.1 = x.1 ∧ out.2.toNat = startOf x.2) log outs) :
    ∀ out ∈ outs, initialOffset ≤ out.2 := by
  induction h with
  | nil => simp
  | cons hx _ ih =>
    obtain ⟨hrightx, hright⟩ := forall_mem_cons.mp hright
    exact forall_mem_cons.mpr ⟨UInt64.le_iff_toNat_le.mpr (hx.2 ▸ hrightx), ih hright⟩

end Right

section Layout

variable (hlog : ∀ x ∈ log, Fragments x.1 x.2) (hsorted : all.Pairwise fun p q ↦ p.limit ≤ q.offset)

include hsorted

theorem limit_le_of_offset_lt {p q : PhysicalRecord} (hp : p ∈ all) (hq : q ∈ all) (hlt : p.offset < q.offset) :
    p.limit ≤ q.offset := by
  obtain ⟨pre, post, rfl⟩ := append_of_mem hq
  obtain ⟨-, hpost, hcross⟩ := pairwise_append.mp hsorted
  rcases mem_append.mp hp with hp | hp
  · exact hcross p hp q mem_cons_self
  · rcases mem_cons.mp hp with rfl | hp
    · exact absurd hlt (lt_irrefl _)
    · have hle := (pairwise_cons.mp hpost).1 p hp
      have hpos := q.size_pos
      rw [PhysicalRecord.limit] at hle
      omega

theorem endBefore_le {q : PhysicalRecord} (hq : q ∈ all) : endBefore all q.offset ≤ q.offset := by
  refine limitAfter_le (Nat.zero_le _) fun p hp ↦ ?_
  obtain ⟨hp, hlt⟩ := mem_filter.mp hp
  exact limit_le_of_offset_lt hsorted hp hq (of_decide_eq_true hlt)

include hlog

theorem pairwise_startOf (hsub : (log.map Prod.snd).flatten.Sublist all) :
    log.Pairwise fun x y ↦ startOf x.2 < startOf y.2 := by
  have hcross := (pairwise_flatten.mp (hsorted.sublist hsub)).2
  rw [pairwise_map] at hcross
  refine hcross.imp_of_mem fun {x y} hx hy hxy ↦ ?_
  obtain ⟨p, hp, hstartx⟩ := (hlog x hx).startOf_mem
  obtain ⟨q, hq, hstarty⟩ := (hlog y hy).startOf_mem
  rw [← hstartx, ← hstarty]
  exact (Nat.lt_add_of_pos_right p.size_pos).trans_le (hxy p hp q hq)

theorem startOf_le (hsub : (log.map Prod.snd).flatten.Sublist all) {x : Bytes × List PhysicalRecord} (hx : x ∈ log)
    {q : PhysicalRecord} (hq : q ∈ x.2) : startOf x.2 ≤ q.offset := by
  have hpairwise := (pairwise_flatten.mp (hsorted.sublist hsub)).1 x.2 (mem_map_of_mem hx)
  obtain ⟨p, qs, hps, -⟩ := (hlog x hx).exists_cons
  rw [hps] at hpairwise hq ⊢
  rcases mem_cons.mp hq with rfl | hq
  · exact le_rfl
  · exact (Nat.le_add_right _ _).trans ((pairwise_cons.mp hpairwise).1 q hq)

end Layout

/-- A reader of a log gives the records that start at its initial offset or after it, each with the offset at
which it starts, exactly if, counted from where the reader begins, each of them starts where the physical
record before it ends, and each other record has a physical record before the initial offset. -/
theorem reads_from_initial_offset_iff (crc : Crc32c) (records : List Bytes) (checksum : Bool)
    (initialOffset lastRecordOffset endOfBufferOffset : UInt64) :
    ∃ w placed, Writer.addRecords crc {} records = some (w, placed) ∧ List.Forall₂ Fragments records placed ∧
      (w.dest.length < 2 ^ 63 → let entered := entry initialOffset lastRecordOffset endOfBufferOffset
        (List.Forall₂ (fun logged out ↦ out.1 = logged.1 ∧ out.2.toNat = startOf logged.2)
          ((records.zip placed).filter fun logged ↦ initialOffset.toNat ≤ startOf logged.2)
          ((Reader.new w.dest checksum initialOffset lastRecordOffset endOfBufferOffset).readOffsets crc) ↔
        ∀ logged ∈ records.zip placed, if initialOffset.toNat ≤ startOf logged.2 then
            entered.2.toNat + max entered.1 (endBefore placed.flatten (startOf logged.2)) = startOf logged.2
          else ∃ q ∈ logged.2, entered.2 + UInt64.ofNat q.offset < initialOffset)) := by
  obtain ⟨w, placed, closed, last, hadd, h⟩ := exists_written crc records
  refine ⟨w, placed, hadd, h.fragments, fun hlength ↦ ?_⟩
  obtain ⟨r₀, last', before, after, rfl, henters, hread⟩ :=
    h.blocks.exists_enter checksum initialOffset lastRecordOffset endOfBufferOffset
  have hlimit : ∀ q ∈ placed.flatten, q.limit < 2 ^ 63 := fun q hq ↦ (h.stands hq).limit_le.trans_lt hlength
  have hsorted := h.blocks.pairwise
  rw [h.flatten] at henters hsorted
  obtain ⟨passed, rest, hsplit, hbase, hpassed, hgiven⟩ :=
    henters.readOffsets_eq hread h.fragments_zip h.map_snd_zip.symm hsorted
  generalize entry r₀.initialOffset lastRecordOffset endOfBufferOffset = entered at *
  have hall := h.map_snd_zip
  have hlog := h.fragments_zip
  dsimp only
  rw [hsplit] at hall hlog ⊢
  replace hlog (x) (hx : x ∈ rest) := hlog x (mem_append_right _ hx)
  have hsub : (rest.map Prod.snd).flatten.Sublist placed.flatten := by
    rw [← hall, map_append, flatten_append]
    exact sublist_append_right _ _
  have hmem {x : Bytes × List PhysicalRecord} (hx : x ∈ rest) {q : PhysicalRecord} (hq : q ∈ x.2) :
      q ∈ (rest.map Prod.snd).flatten := mem_flatten.mpr ⟨x.2, mem_map_of_mem hx, hq⟩
  have hnone : (passed.filter fun x ↦ r₀.initialOffset.toNat ≤ startOf x.2) = [] :=
    filter_eq_nil_iff.mpr fun x hx ↦ by simpa using (hpassed x hx).1
  -- the records that are passed start before the initial offset and are not given
  rw [filter_append, hnone, nil_append, forall_mem_append]
  simp only [← not_visible_iff]
  rw [and_iff_right fun x hx ↦ by rw [if_neg (not_le.mpr (hpassed x hx).1)]; exact (hpassed x hx).2,
    ← forall₂_filter_iff (pairwise_startOf hlog hsorted hsub) (fun x hx ↦ (hlog x hx).startOf_mem)
      (fun x hx q hq ↦ ⟨startOf_le hlog hsorted hsub hx hq, ?_⟩) fun x hx ↦ ?_]
  · constructor
    · intro hright
      rwa [hgiven (.inr (le_of_forall₂ (fun x hx ↦ by simpa using (mem_filter.mp hx).2) hright))] at hright
    · intro hright
      rwa [hgiven (.inl (le_of_forall₂ (fun x hx ↦ by simpa using (mem_filter.mp hx).2) hright))]
  · have hq' := hlimit q (hsub.subset (hmem hx hq))
    rw [PhysicalRecord.limit] at hq'
    omega
  · obtain ⟨q, hq, hstart⟩ := (hlog x hx).startOf_mem
    rw [← hstart]
    exact max_le (hbase q (hmem hx hq)) (endBefore_le hsorted (hsub.subset (hmem hx hq)))

/-- The second of two records is read from its own offset. -/
theorem reads_from_second_record :
    ∃ w placed, Writer.addRecords byteSum {} [[1], [2]] = some (w, placed) ∧ w.dest.length < 2 ^ 63 ∧
      (List.Forall₂ (fun logged out ↦ out.1 = logged.1 ∧ out.2.toNat = startOf logged.2)
        (([[1], [2]].zip placed).filter fun logged ↦ (8 : UInt64).toNat ≤ startOf logged.2)
        ((Reader.new w.dest true 8 0 100).readOffsets byteSum)) := by
  obtain ⟨w, placed, hadd, -, hread⟩ := reads_from_initial_offset_iff byteSum [[1], [2]] true 8 0 100
  have hwritten : Writer.addRecords byteSum {} [[1], [2]] =
      some (⟨[216, 234, 134, 162, 1, 0, 1, 1, 216, 234, 136, 162, 1, 0, 1, 2], 16⟩,
        [[⟨0, .kFullType, [1]⟩], [⟨8, .kFullType, [2]⟩]]) := by
    decide +kernel
  obtain ⟨rfl, rfl⟩ := Prod.mk.inj (Option.some.inj (hadd.symm.trans hwritten))
  exact ⟨_, _, hwritten, by decide, (hread (by decide)).mpr (by decide +kernel)⟩

section Trailers

variable {first second : Bytes}

theorem Writer.addRecord_of_fits {w w₁ : Writer} {record : Bytes} (hswitch : w.switchBlock = some w₁)
    (hfits : w₁.blockOffset + kHeaderSize + record.length ≤ kBlockSize) :
    w.addRecord crc record =
      some (⟨w₁.dest ++ PhysicalRecord.bytes crc ⟨w₁.dest.length, .kFullType, record⟩,
        w₁.blockOffset + kHeaderSize + record.length⟩, [⟨w₁.dest.length, .kFullType, record⟩]) := by
  have hfragment : w₁.nextFragment true record = ⟨w₁.dest.length, .kFullType, record⟩ := by
    have hlength : (if record.length < kBlockSize - w₁.blockOffset - kHeaderSize then record.length
        else kBlockSize - w₁.blockOffset - kHeaderSize) = record.length := by
      split <;> omega
    simp only [Writer.nextFragment, hlength, beq_self_eq_true, take_length]
    rfl
  have hemit : w₁.emitPhysicalRecord crc (w₁.nextFragment true record) =
      some ⟨w₁.dest ++ PhysicalRecord.bytes crc ⟨w₁.dest.length, .kFullType, record⟩,
        w₁.blockOffset + kHeaderSize + record.length⟩ := by
    rw [hfragment, Writer.emitPhysicalRecord, if_pos]
    simp only [kBlockSize] at *
    omega
  rw [Writer.addRecord, Writer.addFragments]
  split
  · rename_i heq
    cases hswitch.symm.trans heq
  · rename_i w' heq
    obtain rfl : w₁ = w' := Option.some.inj (hswitch.symm.trans heq)
    dsimp only
    split
    · rename_i heq
      cases hemit.symm.trans heq
    · rename_i w₂ heq
      obtain rfl := Option.some.inj (hemit.symm.trans heq)
      simp only [hfragment, Nat.sub_self, lt_irrefl, if_false]

theorem Writer.addRecords_cons {w w₁ : Writer} {record : Bytes} {ps : List PhysicalRecord} {records : List Bytes}
    (h : w.addRecord crc record = some (w₁, ps)) :
    w.addRecords crc (record :: records) = (w₁.addRecords crc records).map fun r ↦ (r.1, ps :: r.2) := by
  rw [Writer.addRecords, h]

/-- A record whose block has no room for a header after it, and a record in the next block. -/
theorem addRecords_trailer (hfirst : kHeaderSize + first.length ≤ kBlockSize)
    (htrailer : kBlockSize < kHeaderSize + first.length + kHeaderSize)
    (hsecond : kHeaderSize + second.length ≤ kBlockSize) :
    Writer.addRecords crc {} [first, second] = some (⟨PhysicalRecord.bytes crc ⟨0, .kFullType, first⟩ ++
          List.replicate (kBlockSize - (kHeaderSize + first.length)) 0 ++
          PhysicalRecord.bytes crc ⟨kBlockSize, .kFullType, second⟩, kHeaderSize + second.length⟩,
        [[⟨0, .kFullType, first⟩], [⟨kBlockSize, .kFullType, second⟩]]) := by
  have hlength : (PhysicalRecord.bytes crc ⟨0, .kFullType, first⟩ ++
      List.replicate (kBlockSize - (kHeaderSize + first.length)) 0).length = kBlockSize := by
    rw [length_append, PhysicalRecord.length_bytes, length_replicate]
    exact Nat.add_sub_cancel' hfirst
  have hswitch₁ : Writer.switchBlock {} = some {} := rfl
  have hswitch₂ : Writer.switchBlock ⟨PhysicalRecord.bytes crc ⟨0, .kFullType, first⟩,
      kHeaderSize + first.length⟩ = some ⟨PhysicalRecord.bytes crc ⟨0, .kFullType, first⟩ ++
      List.replicate (kBlockSize - (kHeaderSize + first.length)) 0, 0⟩ := by
    rw [Writer.switchBlock, if_pos hfirst,
      if_pos (show kBlockSize - (kHeaderSize + first.length) < kHeaderSize by omega)]
  have hadd₁ := @Writer.addRecord_of_fits crc {} {} first hswitch₁ (by simpa using hfirst)
  have hadd₂ := @Writer.addRecord_of_fits crc _ _ second hswitch₂ (by simpa using hsecond)
  simp only [nil_append, length_nil, Nat.zero_add] at hadd₁
  simp only [hlength, Nat.zero_add] at hadd₂
  rw [Writer.addRecords_cons hadd₁, Writer.addRecords_cons hadd₂]
  rfl

/-- What a reader without an initial offset gives. -/
theorem Written.readOffsets_eq {records : List Bytes} {w : Writer} {placed : List (List PhysicalRecord)}
    (h : Written crc records w placed closed last) (checksum : Bool)
    (lastRecordOffset endOfBufferOffset : UInt64) :
    (Reader.new w.dest checksum 0 lastRecordOffset endOfBufferOffset).readOffsets crc =
      given placed.flatten 0 0 endOfBufferOffset (records.zip placed) := by
  obtain ⟨r₀, last', before, after, hinitial, henters, hread⟩ :=
    h.blocks.exists_enter checksum 0 lastRecordOffset endOfBufferOffset
  have hsorted := h.blocks.pairwise
  rw [h.flatten] at henters hsorted
  obtain ⟨passed, rest, hsplit, -, hpassed, hgiven⟩ :=
    henters.readOffsets_eq hread h.fragments_zip h.map_snd_zip.symm hsorted
  rw [hinitial] at hpassed hgiven
  have hnil : passed = [] := eq_nil_iff_forall_not_mem.mpr fun x hx ↦ Nat.not_lt_zero _ (hpassed x hx).1
  rw [hgiven (.inl fun _ _ ↦ UInt64.zero_le), hsplit, hnil, entry, if_neg UInt64.not_lt_zero]
  rfl

/-- With other values in the memory of the reader, a record is returned that starts before the initial offset,
and with zeros there, a record after a trailer is said to start with the trailer. -/
theorem offsets_go_wrong : ((Writer.addRecords byteSum {} [[1], [2]]).map fun written ↦
      (written.2.map startOf, (Reader.new written.1.dest true 8 8 100).readOffsets byteSum)) =
        some ([0, 8], [([1], 100), ([2], 108)]) ∧
    ((Writer.addRecords byteSum {} [List.replicate 32758 0, [2]]).map fun written ↦
      (written.2.map startOf, (Reader.new written.1.dest true 0 0 0).readOffsets byteSum)) =
        some ([0, 32768], [(List.replicate 32758 0, 0), ([2], 32765)]) := by
  refine ⟨by decide +kernel, ?_⟩
  have hlength : (List.replicate 32758 (0 : UInt8)).length = 32758 := length_replicate
  generalize List.replicate 32758 (0 : UInt8) = first at hlength
  have hfirst : kHeaderSize + first.length = 32765 := by rw [hlength]; rfl
  obtain ⟨w, placed, closed, last, hadd, hwritten⟩ := exists_written byteSum [first, [2]]
  have htrailer := @addRecords_trailer byteSum first [2] (by rw [hfirst]; decide)
    (by rw [hfirst]; decide) (by decide)
  rw [hadd, Option.map_some, hwritten.readOffsets_eq]
  obtain ⟨-, rfl⟩ := Prod.mk.inj (Option.some.inj (hadd.symm.trans htrailer))
  have hend : PhysicalRecord.limit ⟨0, .kFullType, first⟩ = 32765 := (Nat.zero_add _).trans hfirst
  simp [given, Visible, startOf, endBefore, Reader.limitAfter, hend, kBlockSize]

end Trailers

end LevelDB.Db.Log
