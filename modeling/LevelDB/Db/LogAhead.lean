import LevelDB.Db.LogRoundTrip

/-!
# What a log reader has ahead of it

A reader that stands at a physical record of a log sees this record next, then the ones after it, whatever
its checksum flag, its initial offset and the bytes after the log are (`Reader.Ahead.readPhysicalRecord_cons`).
A record is returned whose physical records start at the initial offset or after it
(`Reader.Ahead.readFragments_returned`).  Zeros after the log that fill its last block and any number of further
ones give nothing and are not reported (`Written.readAll_preallocated`).
-/

namespace LevelDB.Db.Log

open List

variable (crc : Checksum) {shift : UInt64} {r : Reader} {p : PhysicalRecord} {ps qs : List PhysicalRecord}
  {front : ℕ} {filler : Bytes}

theorem add_ofNat_sub_ofNat (shift : UInt64) (a b : ℕ) :
    shift + UInt64.ofNat (a + b) - UInt64.ofNat b = shift + UInt64.ofNat a := by
  rw [UInt64.ofNat_add, ← UInt64.add_assoc, UInt64.add_sub_cancel]

def Reader.seen (r : Reader) (shift : UInt64) (p : PhysicalRecord) : ℕ × Bytes :=
  if shift + UInt64.ofNat p.offset < r.initialOffset then (kBadRecord, []) else (p.type.code, p.payload)

/-- The buffer holds physical records from the offset `front` on, whose checksums are taken for right, and then
other bytes.  The reader counts offsets from `shift`. -/
structure Reader.Buffered (shift : UInt64) (r : Reader) (front : ℕ) (qs : List PhysicalRecord)
    (filler : Bytes) : Prop where
  laid : Laid front qs
  fits : total qs ≤ kBlockSize
  agrees : ∀ p ∈ qs, p.Agrees crc
  placed : ∀ p ∈ qs, p.Placed r.filled (front + (total qs + filler.length))
  buffer : r.buffer = bytesOf crc qs ++ filler
  offset : r.endOfBufferOffset = shift + UInt64.ofNat (front + (total qs + filler.length))

namespace Reader.Buffered

variable {crc}

theorem length_buffer (h : r.Buffered crc shift front qs filler) :
    r.buffer.length = total qs + filler.length := by
  rw [h.buffer, length_append, length_bytesOf]

theorem position_eq (h : r.Buffered crc shift front qs filler) : r.position = shift + UInt64.ofNat front := by
  rw [Reader.position, h.length_buffer, h.offset, add_ofNat_sub_ofNat]

theorem limit_tail (h : r.Buffered crc shift front (p :: qs) filler) :
    front + (total (p :: qs) + filler.length) = p.limit + (total qs + filler.length) := by
  rw [total_cons, ← h.laid.1, PhysicalRecord.limit]
  omega

theorem tail (h : r.Buffered crc shift front (p :: qs) filler) :
    Reader.Buffered crc shift { r with buffer := bytesOf crc qs ++ filler } p.limit qs filler where
  laid := h.laid.2.2
  fits := le_trans (Nat.le_add_left _ p.size) h.fits
  agrees := (forall_mem_cons.mp h.agrees).2
  placed q hq := h.limit_tail ▸ h.placed q (mem_cons_of_mem p hq)
  buffer := rfl
  offset := h.offset.trans (by rw [h.limit_tail])

theorem readPhysicalRecord_eq (h : r.Buffered crc shift front (p :: qs) filler) :
    r.readPhysicalRecord crc = ({ r with buffer := bytesOf crc qs ++ filler }, r.seen shift p) := by
  have hsize : total (p :: qs) = kHeaderSize + p.payload.length + total qs := rfl
  have hfits := h.fits
  have hpayload : p.payload.length ≤ 0xffff := by
    simp only [hsize, kHeaderSize, kBlockSize] at hfits
    omega
  have hbuffer : r.buffer = p.bytes crc ++ (bytesOf crc qs ++ filler) := h.buffer.trans (append_assoc _ _ _)
  have hlength := h.length_buffer
  have hplaced : p.Placed r.filled (p.offset + (p.bytes crc ++ (bytesOf crc qs ++ filler)).length) := by
    rw [← hbuffer, hlength, h.laid.1]
    exact h.placed p mem_cons_self
  have hnonzero : p.type.code ≠ RecordType.kZeroType.code := by
    have htype := h.laid.2.1
    revert htype
    cases p.type <;> decide
  have htake : (r.buffer.drop kHeaderSize).take p.payload.length = p.payload := by
    rw [hbuffer]
    exact take_left
  have hdrop : r.buffer.drop (kHeaderSize + p.payload.length) = bytesOf crc qs ++ filler := by
    rw [hbuffer]
    exact drop_left' (p.length_bytes crc)
  have hstart : Reader.position { r with buffer := bytesOf crc qs ++ filler } - UInt64.ofNat kHeaderSize -
      UInt64.ofNat p.payload.length = shift + UInt64.ofNat p.offset := by
    have hlimit : p.limit = p.offset + p.payload.length + kHeaderSize := by
      rw [PhysicalRecord.limit, PhysicalRecord.size]
      omega
    rw [h.tail.position_eq, hlimit, add_ofNat_sub_ofNat, add_ofNat_sub_ofNat]
  rw [Reader.readPhysicalRecord, if_neg (by omega)]
  simp only [Reader.parseHeader]
  rw [show Reader.headerLength r.buffer = p.payload.length by rw [hbuffer, headerLength_bytes crc hpayload],
    show Reader.headerType r.buffer = p.type.code by rw [hbuffer, headerType_bytes],
    show Reader.actualCrc crc r.filled r.buffer = Reader.expectedCrc r.buffer by
      rw [hbuffer, actualCrc_bytes crc hpayload hplaced, expectedCrc_bytes]
      exact h.agrees p mem_cons_self,
    if_neg (by omega), if_neg (fun hzero ↦ hnonzero hzero.1), if_neg (fun hcrc ↦ hcrc.2 rfl), hdrop, hstart,
    htake, Reader.seen]
  split <;> rfl

end Reader.Buffered

/-- The physical records that the reader has ahead of it, in a log with `last` in its last block and then the
bytes `tail`.  The reader stands at the offset `front`, maybe before a trailer. -/
inductive Reader.Ahead (last : List PhysicalRecord) (tail : Bytes) (shift : UInt64) :
    Reader → ℕ → List PhysicalRecord → Prop
  | block {r : Reader} {front start n : ℕ} {qs : List PhysicalRecord} {closed : List (List PhysicalRecord)}
      {data : Bytes} (hbuffer : r.Buffered crc shift front qs (List.replicate n 0)) (hn : n < kHeaderSize)
      (hstart : front + (total qs + n) = start) (hdvd : kBlockSize ∣ start) (heof : r.eof = false)
      (hblocks : Blocks crc last start closed data) (hfile : r.file = data ++ tail)
      (hagrees : ∀ q ∈ closed.flatten ++ last, q.Agrees crc) :
      Ahead last tail shift r front (qs ++ (closed.flatten ++ last))
  | last {r : Reader} {front : ℕ} {qs : List PhysicalRecord}
      (hbuffer : r.Buffered crc shift front qs (tail.take (kBlockSize - total last)))
      (hfile : r.file = tail.drop (kBlockSize - total last))
      (heof : r.eof = decide (total last + (tail.take (kBlockSize - total last)).length < kBlockSize)) :
      Ahead last tail shift r front qs

variable {crc} {last : List PhysicalRecord} {tail : Bytes} {start : ℕ} {closed : List (List PhysicalRecord)}
  {data : Bytes}

theorem Blocks.kHeaderSize_le_length (h : Blocks crc last start closed data)
    (hps : closed.flatten ++ last = p :: ps) : kHeaderSize ≤ data.length := by
  have hlength := h.length_eq
  cases closed with
  | nil =>
    rw [flatten_nil, nil_append] at hps
    rw [hlength, hps, total_cons, PhysicalRecord.size]
    omega
  | cons qs closed =>
    rw [length_cons] at hlength
    simp only [kHeaderSize, kBlockSize] at *
    omega

namespace Reader

theorem ahead_refill (hoffset : r.endOfBufferOffset = shift + UInt64.ofNat start)
    (hdvd : kBlockSize ∣ start) (hblocks : Blocks crc last start closed data) (hfile : r.file = data ++ tail)
    (hagrees : ∀ q ∈ closed.flatten ++ last, q.Agrees crc) :
    r.refill.Ahead crc last tail shift start (closed.flatten ++ last) := by
  have hrefill : r.refill.endOfBufferOffset = r.endOfBufferOffset + UInt64.ofNat (r.file.take kBlockSize).length :=
    rfl
  cases hblocks with
  | last hlaid hfit =>
    have hlength := length_bytesOf crc last
    have htake : r.file.take kBlockSize = bytesOf crc last ++ tail.take (kBlockSize - total last) := by
      rw [hfile, take_append, hlength, take_of_length_le (hlength.trans_le hfit)]
    have hdrop : r.file.drop kBlockSize = tail.drop (kBlockSize - total last) := by
      rw [hfile, drop_append, hlength, drop_of_length_le (hlength.trans_le hfit), nil_append]
    have hread : (r.file.take kBlockSize).length =
        total last + (tail.take (kBlockSize - total last)).length := by
      rw [htake, length_append, hlength]
    rw [flatten_nil, nil_append] at hagrees ⊢
    refine .last ⟨hlaid, hfit, hagrees, fun p hp ↦ ?_, htake, ?_⟩ hdrop ?_
    · rw [← hread]
      exact hlaid.placed hdvd hfit hp _
    · rw [hrefill, hread, hoffset, UInt64.ofNat_add start, UInt64.add_assoc]
    · rw [← hread]
      rfl
  | @cons _ ps closed data hlaid hfit hfull hrest =>
    have hlength := length_block crc hfit
    rw [append_assoc] at hfile
    have htake : r.file.take kBlockSize = bytesOf crc ps ++ List.replicate (kBlockSize - total ps) 0 := by
      rw [hfile, take_left' hlength]
    have hread : (r.file.take kBlockSize).length = kBlockSize := htake ▸ hlength
    rw [flatten_cons, append_assoc] at hagrees ⊢
    refine @Ahead.block _ _ _ _ _ start (start + kBlockSize) _ _ _ data
      ⟨hlaid, hfit, fun p hp ↦ hagrees p (mem_append_left _ hp), fun p hp ↦ ?_, htake, ?_⟩
      (by omega) (by omega) (Nat.dvd_add hdvd (dvd_refl _)) ?_ hrest ?_
      fun q hq ↦ hagrees q (mem_append_right _ hq)
    · rw [length_replicate, Nat.add_sub_cancel' hfit, ← hread]
      exact hlaid.placed hdvd hfit hp _
    · rw [hrefill, hread, hoffset, length_replicate, Nat.add_sub_cancel' hfit, UInt64.ofNat_add start,
        UInt64.add_assoc]
    · change decide ((r.file.take kBlockSize).length < kBlockSize) = false
      rw [hread]
      rfl
    · change r.file.drop kBlockSize = _
      rw [hfile, drop_left' hlength]

structure Keeps (r r₁ : Reader) : Prop where
  initialOffset : r₁.initialOffset = r.initialOffset
  dropped : r₁.dropped = r.dropped

theorem Ahead.readPhysicalRecord_buffered (h : r.Ahead crc last tail shift front (p :: ps))
    (hlong : kHeaderSize ≤ r.buffer.length) :
    ∃ r₁, r.readPhysicalRecord crc = (r₁, r.seen shift p) ∧ r₁.Ahead crc last tail shift p.limit ps ∧
      Keeps r r₁ ∧ r.position = shift + UInt64.ofNat front := by
  generalize hlist : p :: ps = list at h
  cases h with
  | @block start n qs closed data hbuffer hn hstart hdvd heof hblocks hfile hagrees =>
    cases qs with
    | nil =>
      rw [hbuffer.length_buffer, total_nil, length_replicate] at hlong
      omega
    | cons q qs =>
      obtain ⟨rfl, rfl⟩ := List.cons.inj hlist
      have hlimit := hbuffer.limit_tail
      rw [length_replicate] at hlimit
      exact ⟨_, hbuffer.readPhysicalRecord_eq,
        .block hbuffer.tail hn (hlimit.symm.trans hstart) hdvd heof hblocks hfile hagrees, ⟨rfl, rfl⟩,
        hbuffer.position_eq⟩
  | last hbuffer hfile heof =>
    subst hlist
    exact ⟨_, hbuffer.readPhysicalRecord_eq, .last hbuffer.tail hfile heof, ⟨rfl, rfl⟩, hbuffer.position_eq⟩

theorem Ahead.readPhysicalRecord_cons (h : r.Ahead crc last tail shift front (p :: ps)) :
    ∃ r₁, r.readPhysicalRecord crc = (r₁, r.seen shift p) ∧ r₁.Ahead crc last tail shift p.limit ps ∧
      Keeps r r₁ ∧ r.position = shift + UInt64.ofNat front := by
  by_cases hlong : kHeaderSize ≤ r.buffer.length
  · exact h.readPhysicalRecord_buffered hlong
  · generalize hlist : p :: ps = list at h
    cases h with
    | @block start n qs closed data hbuffer hn hstart hdvd heof hblocks hfile hagrees =>
      cases qs with
      | nil =>
        have hrefill : r.refill.Ahead crc last tail shift start (p :: ps) := by
          rw [hlist]
          refine ahead_refill ?_ hdvd hblocks hfile hagrees
          rw [hbuffer.offset, length_replicate, hstart]
        have hrefilled : kHeaderSize ≤ r.refill.buffer.length := by
          have hdata := hblocks.kHeaderSize_le_length hlist.symm
          change kHeaderSize ≤ (r.file.take kBlockSize).length
          rw [length_take, hfile, length_append]
          exact le_min (by decide) (hdata.trans (Nat.le_add_right _ _))
        obtain ⟨r₁, hread, hahead, hkeeps, -⟩ := hrefill.readPhysicalRecord_buffered hrefilled
        refine ⟨r₁, ?_, hahead, ⟨hkeeps.1, hkeeps.2⟩, hbuffer.position_eq⟩
        rw [readPhysicalRecord, if_pos (not_le.mp hlong), if_pos heof, hread]
        rfl
      | cons q qs =>
        exfalso
        apply hlong
        rw [hbuffer.length_buffer, total_cons, PhysicalRecord.size]
        omega
    | last hbuffer hfile heof =>
      exfalso
      apply hlong
      rw [hbuffer.length_buffer, ← hlist, total_cons, PhysicalRecord.size]
      omega

section Records

variable {r₁ : Reader} {inFragmentedRecord : Bool} {scratch record fragment : Bytes} {prospective : UInt64}
  {type : ℕ} {reports : List Report}

theorem readFragments_eq (hread : r.readPhysicalRecord crc = (r₁, type, fragment)) :
    r.readFragments crc inFragmentedRecord scratch prospective =
      let switched := dispatch inFragmentedRecord scratch type fragment
      let r₂ := r₁.reportDrops switched.2
      match switched.1 with
      | .returned record =>
        ({ r₂ with lastRecordOffset := r.prospectiveRecordOffset type prospective }, some record)
      | .endOfFile => (r₂, none)
      | .again inFragmentedRecord scratch =>
        r₂.readFragments crc inFragmentedRecord scratch (r.prospectiveRecordOffset type prospective) := by
  rw [readFragments]
  split <;> rename_i hverdict <;> rw [hread] at hverdict <;> simp only [afterPhysicalRecord, hread, hverdict]

theorem Buffered.congr (h : r.Buffered crc shift front qs filler) (hbuffer : r₁.buffer = r.buffer)
    (hfilled : r₁.filled = r.filled) (hoffset : r₁.endOfBufferOffset = r.endOfBufferOffset) :
    r₁.Buffered crc shift front qs filler :=
  ⟨h.laid, h.fits, h.agrees, hfilled ▸ h.placed, hbuffer.trans h.buffer, hoffset.trans h.offset⟩

/-- What is ahead does not depend on what the reader has returned or reported. -/
theorem Ahead.congr (h : r.Ahead crc last tail shift front ps) (hfile : r₁.file = r.file)
    (hbuffer : r₁.buffer = r.buffer) (hfilled : r₁.filled = r.filled) (heof : r₁.eof = r.eof)
    (hoffset : r₁.endOfBufferOffset = r.endOfBufferOffset) : r₁.Ahead crc last tail shift front ps := by
  cases h with
  | block hbuf hn hstart hdvd hopen hblocks hrest hagrees =>
    exact .block (hbuf.congr hbuffer hfilled hoffset) hn hstart hdvd (heof.trans hopen) hblocks
      (hfile.trans hrest) hagrees
  | last hbuf hrest hclosed =>
    exact .last (hbuf.congr hbuffer hfilled hoffset) (hfile.trans hrest) (heof.trans hclosed)

theorem reportDrops_eq (r : Reader) (reports : List Report) :
    ∃ dropped, r.reportDrops reports = { r with dropped } := by
  induction reports generalizing r with
  | nil => exact ⟨r.dropped, rfl⟩
  | cons report reports ih =>
    obtain ⟨dropped, hrest⟩ := ih (r.reportDrop report)
    refine ⟨dropped, hrest.trans ?_⟩
    unfold reportDrop
    split <;> rfl

theorem seen_of_le (h : r.initialOffset ≤ shift + UInt64.ofNat p.offset) :
    r.seen shift p = (p.type.code, p.payload) := if_neg (UInt64.not_lt.mpr h)

def limitAfter (front : ℕ) (ps : List PhysicalRecord) : ℕ := (ps.getLast?.map PhysicalRecord.limit).getD front

theorem limitAfter_cons (front : ℕ) (p : PhysicalRecord) (ps : List PhysicalRecord) :
    limitAfter front (p :: ps) = limitAfter p.limit ps := by
  cases ps with
  | nil => rfl
  | cons q ps => rw [limitAfter, limitAfter, getLast?_cons_cons, getLast?_cons, Option.map_some]; rfl

theorem limitAfter_append (front : ℕ) (ps qs : List PhysicalRecord) :
    limitAfter front (ps ++ qs) = limitAfter (limitAfter front ps) qs := by
  induction ps generalizing front with
  | nil => rfl
  | cons p ps ih => rw [cons_append, limitAfter_cons, limitAfter_cons, ih]

theorem Ahead.readFragments_continues {rest : Bytes} (hcontinues : Continues rest qs)
    (h : r.Ahead crc last tail shift front (qs ++ ps))
    (hkept : ∀ q ∈ qs, r.initialOffset ≤ shift + UInt64.ofNat q.offset) (scratch : Bytes)
    (prospective : UInt64) :
    ∃ r₁, r.readFragments crc true scratch prospective = (r₁, some (scratch ++ rest)) ∧
      r₁.Ahead crc last tail shift (limitAfter front qs) ps ∧ Keeps r r₁ ∧
      r₁.lastRecordOffset = prospective := by
  induction hcontinues generalizing r scratch front with
  | @last p htype =>
    obtain ⟨r₁, hread, hahead, hkeeps, -⟩ := h.readPhysicalRecord_cons
    rw [seen_of_le (hkept p mem_cons_self), htype] at hread
    exact ⟨_, readFragments_eq hread, hahead.congr rfl rfl rfl rfl rfl, ⟨hkeeps.1, hkeeps.2⟩, rfl⟩
  | @middle p rest qs htype hrest ih =>
    obtain ⟨r₁, hread, hahead, hkeeps, -⟩ := h.readPhysicalRecord_cons
    rw [seen_of_le (hkept p mem_cons_self), htype] at hread
    obtain ⟨r₂, hmore, hahead₂, hkeeps₂, hoffset⟩ := ih hahead
      (fun q hq ↦ by rw [hkeeps.1]; exact hkept q (mem_cons_of_mem p hq)) (scratch ++ p.payload)
    rw [← limitAfter_cons front] at hahead₂
    refine ⟨r₂, ?_, hahead₂, ⟨hkeeps₂.1.trans hkeeps.1, hkeeps₂.2.trans hkeeps.2⟩, hoffset⟩
    rw [readFragments_eq hread, ← append_assoc]
    exact hmore

/-- A record is returned whose physical records all start at the initial offset or after it.  It is taken to
start where the reader stood. -/
theorem Ahead.readFragments_returned (hfragments : Fragments record qs)
    (h : r.Ahead crc last tail shift front (qs ++ ps))
    (hkept : ∀ q ∈ qs, r.initialOffset ≤ shift + UInt64.ofNat q.offset) (scratch : Bytes)
    (prospective : UInt64) :
    ∃ r₁, r.readFragments crc false scratch prospective = (r₁, some record) ∧
      r₁.Ahead crc last tail shift (limitAfter front qs) ps ∧ Keeps r r₁ ∧
      r₁.lastRecordOffset = shift + UInt64.ofNat front := by
  cases hfragments with
  | @full p htype =>
    obtain ⟨r₁, hread, hahead, hkeeps, hposition⟩ := h.readPhysicalRecord_cons
    rw [seen_of_le (hkept p mem_cons_self), htype] at hread
    exact ⟨_, readFragments_eq hread, hahead.congr rfl rfl rfl rfl rfl, ⟨hkeeps.1, hkeeps.2⟩, hposition⟩
  | @first p rest qs htype hrest =>
    obtain ⟨r₁, hread, hahead, hkeeps, hposition⟩ := h.readPhysicalRecord_cons
    rw [seen_of_le (hkept p mem_cons_self), htype] at hread
    obtain ⟨r₂, hmore, hahead₂, hkeeps₂, hoffset⟩ := hahead.readFragments_continues hrest
      (fun q hq ↦ by rw [hkeeps.1]; exact hkept q (mem_cons_of_mem p hq)) p.payload r.position
    rw [← limitAfter_cons front] at hahead₂
    refine ⟨r₂, ?_, hahead₂, ⟨hkeeps₂.1.trans hkeeps.1, hkeeps₂.2.trans hkeeps.2⟩, hoffset.trans hposition⟩
    rw [readFragments_eq hread]
    exact hmore

end Records

/-- Only zeros are left, in whole blocks. -/
structure Barren (r : Reader) : Prop where
  buffer : ∃ n, r.buffer = List.replicate n 0
  file : ∃ n, r.file = List.replicate n 0
  dvd : r.eof = false → kBlockSize ∣ r.file.length
  eof : r.eof = true → r.buffer = []

/-- A header of zeros is passed over with the rest of its block, without a report. -/
theorem parseHeader_zeros {n : ℕ} (hbuffer : r.buffer = List.replicate n 0) (hn : kHeaderSize ≤ n) :
    r.parseHeader crc = ({ r with buffer := [] }, kBadRecord, []) := by
  have hzero : ∀ i, r.buffer.getD i 0 = 0 := by
    intro i
    rw [hbuffer, getD_eq_getElem?_getD, getElem?_replicate]
    split <;> rfl
  have hlength : headerLength r.buffer = 0 := by
    rw [headerLength, hzero, hzero]
    rfl
  have htype : headerType r.buffer = 0 := by
    rw [headerType, hzero]
    rfl
  simp only [parseHeader, hlength, htype]
  rw [if_neg (by rw [hbuffer, length_replicate]; omega), if_pos ⟨rfl, trivial⟩]

theorem Barren.refill (h : r.Barren) (heof : r.eof = false) : r.refill.Barren := by
  obtain ⟨n, hfile⟩ := h.file
  have hdvd := h.dvd heof
  rw [hfile, length_replicate] at hdvd
  have htake : r.refill.buffer = List.replicate (min kBlockSize n) 0 := by
    change r.file.take kBlockSize = _
    rw [hfile, take_replicate]
  have hdrop : r.refill.file = List.replicate (n - kBlockSize) 0 := by
    change r.file.drop kBlockSize = _
    rw [hfile, drop_replicate]
  refine ⟨⟨_, htake⟩, ⟨_, hdrop⟩, fun _ ↦ ?_, fun hend ↦ ?_⟩
  · rw [hdrop, length_replicate]
    exact Nat.dvd_sub hdvd (dvd_refl _)
  · have hshort : r.refill.buffer.length < kBlockSize := of_decide_eq_true hend
    obtain ⟨k, rfl⟩ := hdvd
    rw [htake, length_replicate] at hshort
    have hk : k = 0 := by
      simp only [kBlockSize] at hshort
      omega
    rw [htake, hk]
    rfl

/-- Nothing is read or reported any more. -/
theorem Barren.readPhysicalRecord_spec (h : r.Barren) :
    ∃ r₁ type, r.readPhysicalRecord crc = (r₁, type, []) ∧ r₁.dropped = r.dropped ∧
      (type = kEof ∨ type = kBadRecord ∧ r₁.Barren) := by
  induction r using readPhysicalRecord.induct with
  | case1 r hshort heof ih =>
    obtain ⟨r₁, type, hread, hdropped, hcases⟩ := ih (h.refill heof)
    rw [readPhysicalRecord, if_pos hshort, if_pos heof]
    exact ⟨r₁, type, hread, hdropped, hcases⟩
  | case2 r hshort heof hempty =>
    rw [readPhysicalRecord, if_pos hshort, if_neg heof, if_pos hempty]
    exact ⟨r, kEof, rfl, rfl, .inl rfl⟩
  | case3 r hshort heof hempty =>
    rw [h.eof (Bool.not_eq_false _ ▸ heof)] at hempty
    exact absurd rfl hempty
  | case4 r hlong =>
    obtain ⟨n, hbuffer⟩ := h.buffer
    rw [readPhysicalRecord, if_neg hlong, parseHeader_zeros hbuffer (by simpa [hbuffer] using hlong)]
    exact ⟨_, kBadRecord, rfl, rfl, .inr ⟨rfl, ⟨0, rfl⟩, h.file, h.dvd, fun _ ↦ rfl⟩⟩

theorem Barren.readFragments_eq_none (h : r.Barren) (scratch : Bytes) (prospective : UInt64) :
    ∃ r₁, r.readFragments crc false scratch prospective = (r₁, none) ∧ r₁.dropped = r.dropped := by
  induction hm : r.remaining using Nat.strong_induction_on generalizing r with
  | _ m ih =>
    obtain ⟨r₁, type, hread, hdropped, rfl | ⟨rfl, hbarren⟩⟩ := @Barren.readPhysicalRecord_spec crc r h
    · exact ⟨r₁, readFragments_eq hread, hdropped⟩
    · have hlt : r₁.remaining < m := by
        have hless := remaining_readPhysicalRecord_lt crc r (by rw [hread]; exact (by decide : kBadRecord ≠ kEof))
        rwa [hread, hm] at hless
      obtain ⟨r₂, hmore, hdropped₂⟩ := ih _ hlt hbarren rfl
      exact ⟨r₂, (readFragments_eq hread).trans hmore, hdropped₂.trans hdropped⟩

/-- The log is read: what is left of it are zeros. -/
theorem Ahead.barren {n : ℕ} (h : r.Ahead crc last (List.replicate n 0) shift front [])
    (hlast : total last ≤ kBlockSize) (hn : n = 0 ∨ kBlockSize ∣ total last + n) : r.Barren := by
  generalize hlist : ([] : List PhysicalRecord) = list at h
  cases h with
  | @block start k qs closed data hbuffer hk hstart hdvd heof hblocks hfile hagrees =>
    obtain ⟨rfl, hnil⟩ := append_eq_nil_iff.mp hlist.symm
    have hdata : data = [] := by
      cases hblocks with
      | last => rw [(append_eq_nil_iff.mp hnil).2, bytesOf, flatMap_nil]
      | cons hlaid hfit hfull hrest =>
        rw [flatten_cons, append_assoc] at hnil
        rw [(append_eq_nil_iff.mp hnil).1] at hfull
        exact absurd hfull (by decide)
    rw [hdata, nil_append] at hfile
    rw [(append_eq_nil_iff.mp hnil).2, total_nil, Nat.zero_add] at hn
    refine ⟨⟨k, hbuffer.buffer⟩, ⟨n, hfile⟩, fun _ ↦ ?_, fun hend ↦ ?_⟩
    · rw [hfile, length_replicate]
      exact hn.elim (fun hzero ↦ hzero ▸ dvd_zero _) id
    · rw [heof] at hend
      cases hend
  | last hbuffer hfile heof =>
    subst hlist
    have hbuf := hbuffer.buffer
    rw [bytesOf, flatMap_nil, nil_append, take_replicate] at hbuf
    rw [drop_replicate] at hfile
    rw [length_take, length_replicate] at heof
    refine ⟨⟨_, hbuf⟩, ⟨_, hfile⟩, fun hopen ↦ ?_, fun hend ↦ ?_⟩
    · rw [heof, decide_eq_false_iff_not] at hopen
      rw [hfile, length_replicate]
      rcases hn with rfl | hdvd
      · rw [Nat.zero_sub]
        exact dvd_zero _
      · rw [show n - (kBlockSize - total last) = total last + n - kBlockSize by omega]
        exact Nat.dvd_sub hdvd (dvd_refl _)
    · rw [heof, decide_eq_true_iff] at hend
      have hzero : n = 0 := by
        rcases hn with hzero | ⟨k, hk⟩
        · exact hzero
        · have hlt : k = 0 := by
            simp only [kBlockSize] at *
            omega
          rw [hlt] at hk
          omega
      rw [hbuf, hzero, Nat.min_zero]
      rfl

/-- The records that successive calls of `ReadRecord` give, each with `LastRecordOffset` after it. -/
inductive Gives (crc : Checksum) : Reader → List (Bytes × UInt64) → Reader → Prop
  | nil (r : Reader) : Gives crc r [] r
  | cons {r r₁ r₂ : Reader} {record : Bytes} {outs : List (Bytes × UInt64)}
      (hread : r.readRecord crc = (r₁, some record)) (hrest : Gives crc r₁ outs r₂) :
      Gives crc r ((record, r₁.lastRecordOffset) :: outs) r₂

section Runs

variable {r₁ : Reader} {log : List (Bytes × List PhysicalRecord)} {outs : List (Bytes × UInt64)}

theorem readAll_of_some {record : Bytes} (hread : r.readRecord crc = (r₁, some record)) :
    r.readAll crc = (record :: (r₁.readAll crc).1, (r₁.readAll crc).2) := by
  rw [readAll]
  split <;> rename_i heq <;> rw [hread] at heq <;> cases heq
  rw [hread]

theorem readAll_of_none (hread : r.readRecord crc = (r₁, none)) : r.readAll crc = ([], r₁) := by
  rw [readAll]
  split <;> rename_i heq <;> rw [hread] at heq <;> cases heq
  rw [hread]

theorem Gives.readAll_eq (h : Gives crc r outs r₁) :
    r.readAll crc = (outs.map Prod.fst ++ (r₁.readAll crc).1, (r₁.readAll crc).2) := by
  induction h with
  | nil r => rfl
  | cons hread hrest ih =>
    rw [readAll_of_some hread, ih]
    rfl

/-- A reader that need not skip reads on. -/
theorem readRecord_of_le (h : r.initialOffset ≤ r.lastRecordOffset) :
    r.readRecord crc = r.readFragments crc false [] 0 := by
  rw [readRecord, if_neg (UInt64.not_lt.mpr h)]

/-- The records ahead are given in order to a reader that starts at offset 0. -/
theorem Ahead.gives (h : r.Ahead crc last tail shift front ((log.map Prod.snd).flatten ++ ps))
    (hlog : ∀ x ∈ log, Fragments x.1 x.2) (hinitial : r.initialOffset = 0) :
    ∃ outs r₁ front₁, Gives crc r outs r₁ ∧ r₁.Ahead crc last tail shift front₁ ps ∧ Keeps r r₁ ∧
      outs.map Prod.fst = log.map Prod.fst := by
  induction log generalizing r front with
  | nil => exact ⟨[], r, front, .nil r, h, ⟨rfl, rfl⟩, rfl⟩
  | cons x log ih =>
    rw [map_cons, flatten_cons, append_assoc] at h
    obtain ⟨hx, hlog⟩ := forall_mem_cons.mp hlog
    obtain ⟨r₁, hread, hahead, hkeeps, -⟩ :=
      h.readFragments_returned hx (fun q _ ↦ hinitial ▸ UInt64.zero_le) [] 0
    obtain ⟨outs, r₂, front₂, hgives, hahead₂, hkeeps₂, houts⟩ := ih hahead hlog (hkeeps.1.trans hinitial)
    rw [← readRecord_of_le (hinitial ▸ UInt64.zero_le)] at hread
    refine ⟨_, r₂, front₂, .cons hread hgives, hahead₂,
      ⟨hkeeps₂.1.trans hkeeps.1, hkeeps₂.2.trans hkeeps.2⟩, ?_⟩
    rw [map_cons, houts]
    rfl

end Runs

end Reader

/-- A new reader has the whole log ahead of it.  What it counts offsets from is what its memory held. -/
theorem Blocks.ahead_new (h : Blocks crc last 0 closed data)
    (hagrees : ∀ p ∈ closed.flatten ++ last, p.Agrees crc) (tail : Bytes) (checksum : Bool)
    (initialOffset lastRecordOffset endOfBufferOffset : UInt64) :
    (Reader.new (data ++ tail) checksum initialOffset lastRecordOffset endOfBufferOffset).Ahead crc
      last tail endOfBufferOffset 0 (closed.flatten ++ last) :=
  @Reader.Ahead.block crc last tail endOfBufferOffset _ 0 0 0 [] closed data
    ⟨trivial, Nat.zero_le _, by simp, by simp, rfl, (UInt64.add_zero _).symm⟩ (by decide) rfl (dvd_zero _) rfl h
    rfl hagrees

theorem Blocks.gives_new (h : Blocks crc last 0 closed data)
    (hagrees : ∀ p ∈ closed.flatten ++ last, p.Agrees crc) {log : List (Bytes × List PhysicalRecord)}
    (hlog : ∀ x ∈ log, Fragments x.1 x.2) (hps : closed.flatten ++ last = (log.map Prod.snd).flatten ++ ps)
    (tail : Bytes) (checksum : Bool) (lastRecordOffset endOfBufferOffset : UInt64) :
    ∃ outs r₁ front, Reader.Gives crc (.new (data ++ tail) checksum 0 lastRecordOffset endOfBufferOffset) outs r₁ ∧
      r₁.Ahead crc last tail endOfBufferOffset front ps ∧ r₁.initialOffset = 0 ∧ r₁.dropped = [] ∧
      outs.map Prod.fst = log.map Prod.fst := by
  have hahead := h.ahead_new hagrees tail checksum 0 lastRecordOffset endOfBufferOffset
  rw [hps] at hahead
  obtain ⟨outs, r₁, front, hgives, hahead₁, hkeeps, houts⟩ := hahead.gives hlog rfl
  exact ⟨outs, r₁, front, hgives, hahead₁, hkeeps.1, hkeeps.2, houts⟩

/-- A log that is followed by zeros up to the end of a block, as a preallocated file is, gives its records
without a report. -/
theorem Written.readAll_preallocated {records : List Bytes} {w : Writer} {placed : List (List PhysicalRecord)}
    (h : Written crc records w placed closed last) (hagrees : ∀ p ∈ placed.flatten, p.Agrees crc) {n : ℕ}
    (hn : kBlockSize ∣ w.dest.length + n) (checksum : Bool) (lastRecordOffset endOfBufferOffset : UInt64) :
    ∃ r, (Reader.new (w.dest ++ List.replicate n 0) checksum 0 lastRecordOffset
      endOfBufferOffset).readAll crc = (records, r) ∧ r.dropped = [] := by
  have hps : closed.flatten ++ last = ((records.zip placed).map Prod.snd).flatten ++ [] := by
    rw [h.map_snd_zip, h.flatten, append_nil]
  obtain ⟨outs, r₁, front, hgives, hahead, hinitial, hdropped, houts⟩ := h.blocks.gives_new (by rwa [h.flatten])
    h.fragments_zip hps (List.replicate n 0) checksum lastRecordOffset endOfBufferOffset
  have hdvd : kBlockSize ∣ total last + n := by
    rw [h.blocks.length_eq, Nat.add_assoc] at hn
    exact (Nat.dvd_add_right (Nat.dvd_mul_left _ _)).mp hn
  obtain ⟨r₂, hnone, hdropped₂⟩ :=
    @Reader.Barren.readFragments_eq_none crc r₁ (hahead.barren h.blocks.total_le (.inr hdvd)) [] 0
  rw [← Reader.readRecord_of_le (hinitial ▸ UInt64.zero_le)] at hnone
  refine ⟨r₂, ?_, hdropped₂.trans hdropped⟩
  rw [hgives.readAll_eq, Reader.readAll_of_none hnone, houts, append_nil,
    map_fst_zip (List.Forall₂.length_eq h.fragments).le]

end LevelDB.Db.Log
