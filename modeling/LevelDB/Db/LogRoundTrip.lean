import LevelDB.Db.LogLayout
import Mathlib.Data.List.GetD

/-!
# Reading a log back

What `log::Reader` returns for a file that a `log::Writer` wrote and that was then cut short or damaged.
In either case a physical record that does not stand where it was written is found out by the length or
the checksum in its header, or the file ends there; so the events of the file are those of a log of which
some physical records are lost (`damaged_fileEvents`), and the records returned are those of which none is.
-/

namespace LevelDB.Db.Log

open LevelDB.Library.Slices List

variable (crc : Checksum) (filled : ℕ)

/-! ## Blocks that are damaged -/

/-- The reader takes what stands at the start of the buffer for a physical record. -/
structure Passes (buffer : Bytes) : Prop where
  fits : kHeaderSize + Reader.headerLength buffer ≤ buffer.length
  nonzero : ¬ (Reader.headerType buffer = RecordType.kZeroType.code ∧ Reader.headerLength buffer = 0)
  checksum : Reader.actualCrc crc filled buffer = Reader.expectedCrc buffer

variable {crc filled} {p : PhysicalRecord} {ps : List PhysicalRecord} {n : ℕ}

theorem parse_of_not_passes {buffer : Bytes} (h : ¬ Passes crc filled buffer) :
    ∃ reports, parse crc filled buffer = (.bad reports, []) := by
  simp only [parse]
  split_ifs with hlength hzero hcrc
  · exact ⟨_, rfl⟩
  · exact ⟨_, rfl⟩
  · exact ⟨_, rfl⟩
  · exact absurd ⟨not_lt.mp hlength, hzero, not_not.mp hcrc⟩ h

def Stands (crc : Checksum) (data : Bytes) (p : PhysicalRecord) : Prop := slice data p.offset p.limit = p.bytes crc

instance (data : Bytes) (p : PhysicalRecord) : Decidable (Stands crc data p) := inferInstanceAs (Decidable (_ = _))

/-- It stands there, and its checksum is taken for right. -/
structure Intact (crc : Checksum) (data : Bytes) (p : PhysicalRecord) : Prop where
  stands : Stands crc data p
  agrees : p.Agrees crc

instance (data : Bytes) (p : PhysicalRecord) : Decidable (Intact crc data p) :=
  decidable_of_iff (Stands crc data p ∧ p.Agrees crc) ⟨fun h ↦ ⟨h.1, h.2⟩, fun h ↦ ⟨h.stands, h.agrees⟩⟩

theorem Stands.limit_le {data : Bytes} (h : Stands crc data p) : p.limit ≤ data.length := by
  have hlength := congrArg List.length h
  have hpos := p.size_pos
  rw [length_slice, PhysicalRecord.length_bytes, PhysicalRecord.limit] at hlength
  rw [PhysicalRecord.limit]
  omega

theorem Stands.slice_eq {data : Bytes} (h : Stands crc data p) {limit : ℕ} (hlimit : p.limit ≤ limit) :
    slice data p.offset limit = p.bytes crc ++ slice data p.limit limit := by
  rw [← slice_append_slice data (Nat.le_add_right p.offset p.size) hlimit]
  exact congrArg (· ++ _) h

theorem Damaged.afterLost {kept : PhysicalRecord → Bool} {lost : Bool} {es : List Event}
    (h : Damaged kept false ps es) : Damaged kept lost ps es := by
  cases h with
  | eof hlost => exact .eof hlost
  | keep hkept hrest => exact .keep hkept hrest
  | bad hlost hrest => exact .bad hlost hrest

theorem Damaged.skips {kept : PhysicalRecord → Bool} {ps more : List PhysicalRecord} {es : List Event}
    (hps : ∀ p ∈ ps, kept p = false) (h : Damaged kept true more es) : Damaged kept true (ps ++ more) es := by
  induction ps with
  | nil => exact h
  | cons p ps ih =>
    obtain ⟨hp, hps⟩ := forall_mem_cons.mp hps
    exact .skip hp (ih hps)

def ReadableIn (crc : Checksum) (data : Bytes) (kept : PhysicalRecord → Bool) (ps : List PhysicalRecord) : Prop :=
  ∀ before p after, ps = before ++ p :: after → (kept p = true ↔ ∀ q ∈ before ++ [p], Intact crc data q)

section Block

variable {data : Bytes} {kept : PhysicalRecord → Bool} {p : PhysicalRecord} {ps : List PhysicalRecord}

section

variable (h : ReadableIn crc data kept (p :: ps))
include h

theorem ReadableIn.head : kept p = true ↔ Intact crc data p := by
  simpa using h [] p ps rfl

theorem ReadableIn.tail (hp : Intact crc data p) : ReadableIn crc data kept ps := by
  rintro before q after rfl
  have hq := h (p :: before) q after rfl
  rw [cons_append, forall_mem_cons] at hq
  simpa only [hp, true_and] using hq

theorem ReadableIn.lost (hp : ¬ Intact crc data p) : ∀ q ∈ p :: ps, kept q = false := by
  intro q hq
  rw [← Bool.not_eq_true]
  intro hkept
  rcases mem_cons.mp hq with rfl | hq
  · exact hp (h.head.mp hkept)
  · obtain ⟨before, after, rfl⟩ := append_of_mem hq
    exact hp ((h (p :: before) q after rfl).mp hkept p mem_cons_self)

end

/-- The events of a damaged block up to the first lost physical record, and then a bad record or the end
of the file. -/
theorem damaged_block {start limit : ℕ} {more : List PhysicalRecord} {es : List Event} {lost : Bool}
    (hlaid : Laid start ps) (hfit : start + total ps ≤ limit) (hblock : total ps ≤ kBlockSize)
    (hreadable : ReadableIn crc data kept ps)
    (hplaced : ∀ p ∈ ps, p.limit ≤ data.length → p.Placed filled (min data.length limit))
    (hpasses : ∀ p ∈ ps, kHeaderSize ≤ (slice data p.offset limit).length → ¬ Intact crc data p →
      ¬ Passes crc filled (slice data p.offset limit))
    (hrest : (slice data (start + total ps) limit).length < kHeaderSize)
    (hmore : Damaged kept false more es)
    (hshort : data.length < limit → (∀ q ∈ more, kept q = false) ∧ ∃ reports, es = [.eof reports]) :
    Damaged kept lost (ps ++ more) ((scan crc filled (slice data start limit)).1 ++ es) := by
  induction ps generalizing start lost with
  | nil =>
    rw [total_nil, Nat.add_zero] at hrest
    rw [scan_of_lt crc filled hrest]
    exact hmore.afterLost
  | cons p ps ih =>
    obtain ⟨rfl, htype, hlaid⟩ := hlaid
    obtain ⟨hp, hps⟩ := forall_mem_cons.mp hpasses
    obtain ⟨hplace, hplaces⟩ := forall_mem_cons.mp hplaced
    rw [total_cons] at hfit hblock hrest
    have hlimit : p.limit ≤ limit := by
      rw [PhysicalRecord.limit]
      omega
    have hheader : kHeaderSize ≤ p.size := Nat.le_add_right _ _
    by_cases hintact : Intact crc data p
    · -- The header and the payload are as written, so the scan goes on behind them.
      have hpayload : p.payload.length ≤ 0xffff := by
        simp only [PhysicalRecord.size, kBlockSize, kHeaderSize] at hblock
        omega
      have hend : p.offset + (slice data p.offset limit).length = min data.length limit := by
        have hle := hintact.stands.limit_le
        rw [PhysicalRecord.limit] at hle hlimit
        rw [length_slice]
        omega
      have hparse := @parse_bytes crc p filled (slice data p.limit limit) htype hpayload
      rw [← hintact.stands.slice_eq hlimit, if_pos hintact.agrees, hend] at hparse
      replace hparse := hparse (hplace hintact.stands.limit_le)
      have hlong : kHeaderSize ≤ (slice data p.offset limit).length := by
        rw [hintact.stands.slice_eq hlimit, length_append, PhysicalRecord.length_bytes]
        omega
      rw [scan_of_le crc filled hlong, hparse]
      refine .keep (hreadable.head.mpr hintact) (ih hlaid ?_ ?_ (hreadable.tail hintact) hplaces hps ?_)
      · rw [PhysicalRecord.limit]
        omega
      · omega
      · rwa [PhysicalRecord.limit, Nat.add_assoc]
    · have hlost := hreadable.lost hintact
      by_cases hlong : kHeaderSize ≤ (slice data p.offset limit).length
      · obtain ⟨reports, hparse⟩ := parse_of_not_passes (hp hlong hintact)
        rw [scan_of_le crc filled hlong, hparse,
          scan_of_lt crc filled (by decide : ([] : Bytes).length < kHeaderSize)]
        obtain ⟨hlost, hlosts⟩ := forall_mem_cons.mp hlost
        exact .bad hlost (hmore.afterLost.skips hlosts)
      · have hend : data.length < limit := by
          rw [length_slice] at hlong
          rw [PhysicalRecord.limit] at hlimit
          omega
        obtain ⟨hmorelost, reports, rfl⟩ := hshort hend
        rw [scan_of_lt crc filled (not_le.mp hlong)]
        exact .eof (forall_mem_append.mpr ⟨hlost, hmorelost⟩)

end Block

/-! ## Files that are damaged -/

theorem Laid.bounds {start : ℕ} (h : Laid start ps) :
    ∀ p ∈ ps, start ≤ p.offset ∧ p.limit ≤ start + total ps := by
  induction ps generalizing start with
  | nil => simp
  | cons p ps ih =>
    obtain ⟨rfl, -, hlaid⟩ := h
    rw [total_cons]
    refine forall_mem_cons.mpr ⟨⟨le_rfl, ?_⟩, fun q hq ↦ ?_⟩
    · rw [PhysicalRecord.limit]
      omega
    · have hq := ih hlaid q hq
      rw [PhysicalRecord.limit] at hq
      omega

theorem Laid.pairwise {start : ℕ} (h : Laid start ps) : ps.Pairwise fun p q ↦ p.limit ≤ q.offset := by
  induction ps generalizing start with
  | nil => exact .nil
  | cons p ps ih => exact .cons (fun q hq ↦ (h.2.2.bounds q hq).1) (ih h.2.2)

theorem Laid.limit_le_of_offset_le {start : ℕ} (h : Laid start ps) {p q : PhysicalRecord} (hp : p ∈ ps)
    (hq : q ∈ ps) (hle : q.offset ≤ p.offset) : q.limit ≤ p.limit := by
  induction ps generalizing start with
  | nil => contradiction
  | cons r ps ih =>
    obtain ⟨-, -, hlaid⟩ := h
    rcases mem_cons.mp hp with rfl | hp' <;> rcases mem_cons.mp hq with rfl | hq'
    · exact le_rfl
    · have hlt := (hlaid.bounds q hq').1
      have hpos := p.size_pos
      rw [PhysicalRecord.limit] at hlt
      omega
    · exact (hlaid.bounds p hp').1.trans (Nat.le_add_right _ _)
    · exact ih hlaid hp' hq'

def blockEnd (offset : ℕ) : ℕ := (offset / kBlockSize + 1) * kBlockSize

def block (data : Bytes) (i : ℕ) : Bytes := slice data (i * kBlockSize) ((i + 1) * kBlockSize)

/-- The reader takes what stands at an offset of the file for a physical record, once it has come there. -/
abbrev PassesAt (crc : Checksum) (data : Bytes) (offset : ℕ) : Prop :=
  Passes crc (block data (offset / kBlockSize)).length (slice data offset (blockEnd offset))

theorem div_eq_of_block {start offset : ℕ} (hstart : kBlockSize ∣ start) (hle : start ≤ offset)
    (hlt : offset < start + kBlockSize) : offset / kBlockSize = start / kBlockSize := by
  obtain ⟨k, rfl⟩ := hstart
  rw [Nat.mul_div_cancel_left k (by decide)]
  simp only [kBlockSize] at *
  omega

section File

variable {data : Bytes} {kept : PhysicalRecord → Bool} {last : List PhysicalRecord} {start : ℕ}
  {closed : List (List PhysicalRecord)} {written : Bytes}

section

variable (hstart : kBlockSize ∣ start)
include hstart

section

variable (h : Laid start ps) (hfit : total ps ≤ kBlockSize)
include h hfit

theorem Laid.div_eq (hp : p ∈ ps) : p.offset / kBlockSize = start / kBlockSize := by
  have hbounds := h.bounds p hp
  have hpos := p.size_pos
  rw [PhysicalRecord.limit] at hbounds
  exact div_eq_of_block hstart hbounds.1 (by omega)

theorem blockEnd_eq (hp : p ∈ ps) : blockEnd p.offset = start + kBlockSize := by
  rw [blockEnd, h.div_eq hstart hfit hp, Nat.add_mul, Nat.div_mul_cancel hstart, Nat.one_mul]

theorem block_eq (hp : p ∈ ps) :
    block data (p.offset / kBlockSize) = slice data start (start + kBlockSize) := by
  have hend := blockEnd_eq hstart h hfit hp
  rw [blockEnd] at hend
  rw [block, hend, h.div_eq hstart hfit hp, Nat.div_mul_cancel hstart]

theorem Laid.placed (hp : p ∈ ps) (filled : ℕ) : p.Placed filled (start + filled) := by
  have hmod := Nat.div_add_mod p.offset kBlockSize
  rw [h.div_eq hstart hfit hp, Nat.mul_div_cancel' hstart] at hmod
  rw [PhysicalRecord.Placed]
  omega

theorem Laid.placed_slice (hp : p ∈ ps) (hlimit : p.limit ≤ data.length) :
    p.Placed (slice data start (start + kBlockSize)).length (min data.length (start + kBlockSize)) := by
  have hbounds := (h.bounds p hp).1
  have hpos := p.size_pos
  have hend : min data.length (start + kBlockSize) = start + (slice data start (start + kBlockSize)).length := by
    rw [PhysicalRecord.limit] at hlimit
    rw [length_slice]
    omega
  rw [hend]
  exact h.placed hstart hfit hp _

end

end

theorem Blocks.start_le (h : Blocks crc last start closed written) :
    ∀ p ∈ closed.flatten ++ last, start ≤ p.offset := by
  induction h with
  | last hlaid => exact fun p hp ↦ (hlaid.bounds p hp).1
  | cons hlaid hfit hfull hrest ih =>
    intro p hp
    rw [flatten_cons, append_assoc] at hp
    rcases mem_append.mp hp with hp | hp
    · exact (hlaid.bounds p hp).1
    · exact (Nat.le_add_right _ _).trans (ih p hp)

theorem ReadableIn.kept_eq_false (h : ReadableIn crc data kept ps) (hp : p ∈ ps)
    (hlost : ¬ Intact crc data p) : kept p = false := by
  obtain ⟨before, after, rfl⟩ := append_of_mem hp
  rw [← Bool.not_eq_true, h before p after rfl]
  exact fun hall ↦ hlost (hall p (mem_append_right _ mem_cons_self))

theorem fileEvents_eq_scan (file : Bytes) : fileEvents crc file = let read := file.take kBlockSize
      (scan crc read.length read).1 ++
        if file.length < kBlockSize then [endEvent (scan crc read.length read).2]
        else fileEvents crc (file.drop kBlockSize) := by
  dsimp only
  rw [fileEvents]
  by_cases hshort : file.length < kBlockSize
  · rw [if_pos hshort, if_pos hshort, take_of_length_le hshort.le]
  · rw [if_neg hshort, if_neg hshort, length_take, min_eq_left (not_lt.mp hshort)]

theorem fileEvents_drop (data : Bytes) (start : ℕ) : fileEvents crc (data.drop start) =
      let read := slice data start (start + kBlockSize)
      (scan crc read.length read).1 ++
        if data.length < start + kBlockSize then [endEvent (scan crc read.length read).2]
        else fileEvents crc (data.drop (start + kBlockSize)) := by
  have hpos : 0 < kBlockSize := by decide
  have hlength : data.length - start < kBlockSize ↔ data.length < start + kBlockSize := by omega
  rw [fileEvents_eq_scan, slice, Nat.add_sub_cancel_left, length_drop, drop_drop]
  simp only [hlength]

/-- The events of a file that was written as `written`, when no physical record that was changed since
passes for one. -/
theorem damaged_fileEvents (h : Blocks crc last start closed written) (hstart : kBlockSize ∣ start)
    (hlength : data.length ≤ start + written.length)
    (hreadable : ∀ ps ∈ closed ++ [last], ReadableIn crc data kept ps)
    (hpasses : ∀ p ∈ closed.flatten ++ last, kHeaderSize ≤ (slice data p.offset (blockEnd p.offset)).length →
      ¬ Intact crc data p → ¬ PassesAt crc data p.offset) :
    Damaged kept false (closed.flatten ++ last) (fileEvents crc (data.drop start)) := by
  induction h with
  | @last start hlaid hfit =>
    rw [length_bytesOf] at hlength
    rw [flatten_nil, nil_append, ← append_nil last, fileEvents_drop]
    refine damaged_block hlaid (by omega) hfit (hreadable last (by simp))
      (fun p hp ↦ hlaid.placed_slice hstart hfit hp) (fun p hp ↦ ?_) ?_ ?_ ?_
    · have hp' := hpasses p (by simpa using hp)
      rwa [PassesAt, block_eq hstart hlaid hfit hp, blockEnd_eq hstart hlaid hfit hp] at hp'
    · rw [length_slice]
      simp only [kHeaderSize]
      omega
    · split
      · exact .eof (by simp)
      · rw [drop_of_length_le (by omega), fileEvents, if_pos (by decide),
          scan_of_lt crc _ (by decide : ([] : Bytes).length < kHeaderSize)]
        exact .eof (by simp)
    · intro hshort
      rw [if_pos hshort]
      exact ⟨by simp, _, rfl⟩
  | @cons start ps closed written hlaid hfit hfull hrest ih =>
    have hwritten : data.length ≤ start + kBlockSize + written.length := by
      rw [length_append, length_append, length_bytesOf, length_replicate] at hlength
      omega
    have hrestReadable : ∀ qs ∈ closed ++ [last], ReadableIn crc data kept qs :=
      fun qs hqs ↦ hreadable qs (mem_cons_of_mem ps hqs)
    rw [flatten_cons, append_assoc] at hpasses ⊢
    have hrestLost (hshort : data.length < start + kBlockSize) :
        ∀ q ∈ closed.flatten ++ last, kept q = false := by
      intro q hq
      have hmem : ∃ qs ∈ closed ++ [last], q ∈ qs := by
        rw [← mem_flatten, flatten_append, flatten_singleton]
        exact hq
      obtain ⟨qs, hqs, hq'⟩ := hmem
      refine (hrestReadable qs hqs).kept_eq_false hq' fun hintact ↦ ?_
      have hle := hintact.stands.limit_le
      have hge := hrest.start_le q hq
      rw [PhysicalRecord.limit] at hle
      omega
    rw [fileEvents_drop]
    refine damaged_block hlaid (by omega) hfit (hreadable ps mem_cons_self)
      (fun p hp ↦ hlaid.placed_slice hstart hfit hp) (fun p hp ↦ ?_) ?_ ?_ ?_
    · have hp' := hpasses p (mem_append_left _ hp)
      rwa [PassesAt, block_eq hstart hlaid hfit hp, blockEnd_eq hstart hlaid hfit hp] at hp'
    · rw [length_slice]
      omega
    · split
      · exact .eof (hrestLost ‹_›)
      · exact ih (Nat.dvd_add hstart (dvd_refl _)) hwritten hrestReadable
          fun p hp ↦ hpasses p (mem_append_right _ hp)
    · intro hshort
      rw [if_pos hshort]
      exact ⟨hrestLost hshort, _, rfl⟩

end File

/-! ## Physical records that can be read -/

def readable (crc : Checksum) (data : Bytes) (written : List PhysicalRecord) (p : PhysicalRecord) : Bool :=
  decide (∀ q ∈ written, q.offset / kBlockSize = p.offset / kBlockSize → q.offset ≤ p.offset →
    Intact crc data q)

section Readable

variable {data : Bytes} {last : List PhysicalRecord} {start : ℕ} {closed : List (List PhysicalRecord)}
  {written : Bytes}

section

variable (h : Blocks crc last start closed written)
include h

theorem Blocks.exists_laid (hstart : kBlockSize ∣ start) :
    ∀ ps ∈ closed ++ [last], ∃ s, kBlockSize ∣ s ∧ Laid s ps ∧ total ps ≤ kBlockSize := by
  induction h with
  | @last start hlaid hfit =>
    intro ps hps
    obtain rfl := mem_singleton.mp hps
    exact ⟨start, hstart, hlaid, hfit⟩
  | @cons start ps closed written hlaid hfit hfull hrest ih =>
    exact forall_mem_cons.mpr ⟨⟨start, hstart, hlaid, hfit⟩, ih (Nat.dvd_add hstart (dvd_refl _))⟩

theorem Blocks.mem_of_div_eq (hstart : kBlockSize ∣ start) (hps : ps ∈ closed ++ [last])
    {p q : PhysicalRecord} (hp : p ∈ ps) (hq : q ∈ closed.flatten ++ last)
    (hdiv : q.offset / kBlockSize = p.offset / kBlockSize) : q ∈ ps := by
  induction h with
  | last hlaid hfit =>
    obtain rfl := mem_singleton.mp hps
    simpa using hq
  | @cons start rs closed written hlaid hfit hfull hrest ih =>
    have hnext : kBlockSize ∣ start + kBlockSize := Nat.dvd_add hstart (dvd_refl _)
    have hlater {r : PhysicalRecord} (hr : r ∈ closed.flatten ++ last) :
        start / kBlockSize < r.offset / kBlockSize := by
      have hle := Nat.div_le_div_right (c := kBlockSize) (hrest.start_le r hr)
      rw [Nat.add_div_right _ (by decide)] at hle
      exact hle
    rw [flatten_cons, append_assoc] at hq
    rcases mem_cons.mp hps with rfl | hps'
    · rw [hlaid.div_eq hstart hfit hp] at hdiv
      rcases mem_append.mp hq with hq | hq
      · exact hq
      · exact absurd hdiv (hlater hq).ne'
    · have hp' : p ∈ closed.flatten ++ last := by
        have hmem : p ∈ (closed ++ [last]).flatten := mem_flatten.mpr ⟨ps, hps', hp⟩
        rwa [flatten_append, flatten_singleton] at hmem
      rcases mem_append.mp hq with hq | hq
      · rw [hlaid.div_eq hstart hfit hq] at hdiv
        exact absurd hdiv (hlater hp').ne
      · exact ih hnext hps' hq

theorem Blocks.readableIn (hstart : kBlockSize ∣ start) :
    ∀ ps ∈ closed ++ [last], ReadableIn crc data (readable crc data (closed.flatten ++ last)) ps := by
  rintro ps hps before p after rfl
  obtain ⟨s, hs, hlaid, hfit⟩ := h.exists_laid hstart _ hps
  have hp : p ∈ before ++ p :: after := mem_append_right _ mem_cons_self
  have hpairwise := pairwise_append.mp hlaid.pairwise
  rw [readable, decide_eq_true_iff]
  constructor
  · intro hall q hq
    have hq' : q ∈ before ++ p :: after := by
      rcases mem_append.mp hq with hq | hq
      · exact mem_append_left _ hq
      · rwa [mem_singleton.mp hq]
    refine hall q ?_ ?_ ?_
    · have hmem : q ∈ (closed ++ [last]).flatten := mem_flatten.mpr ⟨_, hps, hq'⟩
      rwa [flatten_append, flatten_singleton] at hmem
    · rw [hlaid.div_eq hs hfit hq', hlaid.div_eq hs hfit hp]
    · rcases mem_append.mp hq with hq | hq
      · exact (Nat.le_add_right _ _).trans (hpairwise.2.2 q hq p mem_cons_self)
      · rw [mem_singleton.mp hq]
  · intro hall q hq hdiv hle
    have hq' := h.mem_of_div_eq hstart hps hp hq hdiv
    refine hall q ?_
    rcases mem_append.mp hq' with hq' | hq'
    · exact mem_append_left _ hq'
    · rcases mem_cons.mp hq' with rfl | hq'
      · exact mem_append_right _ mem_cons_self
      · -- A physical record further on in the block starts behind this one.
        have hlt := (pairwise_cons.mp hpairwise.2.1).1 q hq'
        have hpos := p.size_pos
        rw [PhysicalRecord.limit] at hlt
        omega

end

theorem Laid.stands (h : Laid start ps) {front : Bytes} (hfront : front.length = start) (rest : Bytes) :
    ∀ p ∈ ps, Stands crc (front ++ (bytesOf crc ps ++ rest)) p := by
  induction ps generalizing start front with
  | nil => simp
  | cons p ps ih =>
    obtain ⟨rfl, -, hlaid⟩ := h
    have hbytes : bytesOf crc (p :: ps) = p.bytes crc ++ bytesOf crc ps := rfl
    rw [hbytes]
    refine forall_mem_cons.mpr ⟨?_, fun q hq ↦ ?_⟩
    · rw [Stands, slice, ← hfront, drop_left, PhysicalRecord.limit, hfront, Nat.add_sub_cancel_left,
        append_assoc, take_left' (p.length_bytes crc)]
    · have hfront' : (front ++ p.bytes crc).length = p.limit := by
        rw [length_append, hfront, PhysicalRecord.length_bytes, PhysicalRecord.limit]
      have hq' := ih hlaid hfront' q hq
      rwa [append_assoc, ← append_assoc (p.bytes crc)] at hq'

/-- The writer's file holds every physical record where it was written. -/
theorem Blocks.stands (h : Blocks crc last start closed written) {front : Bytes} (hfront : front.length = start) :
    ∀ p ∈ closed.flatten ++ last, Stands crc (front ++ written) p := by
  induction h generalizing front with
  | last hlaid hfit =>
    intro p hp
    rw [← append_nil (bytesOf crc last)]
    exact hlaid.stands hfront [] p hp
  | @cons start ps closed written hlaid hfit hfull hrest ih =>
    intro p hp
    rw [flatten_cons, append_assoc] at hp
    rw [append_assoc]
    rcases mem_append.mp hp with hp | hp
    · exact hlaid.stands hfront _ p hp
    · have hfront' : (front ++ (bytesOf crc ps ++ List.replicate (kBlockSize - total ps) 0)).length =
          start + kBlockSize := by
        rw [length_append, length_block crc hfit, hfront]
      have hp' := ih hfront' p hp
      rwa [append_assoc, append_assoc] at hp'

theorem Laid.limit_add (h : Laid start (p :: ps)) (rest : Bytes) :
    start + (bytesOf crc (p :: ps) ++ rest).length = p.limit + (bytesOf crc ps ++ rest).length := by
  rw [length_append, length_append, length_bytesOf, length_bytesOf, total_cons, ← h.1, PhysicalRecord.limit]
  omega

/-- The scan goes on after a physical record whose checksum is taken for right, and gives up the block at one
whose checksum is not. -/
theorem scan_bytesOf_cons (h : Laid start (p :: ps)) (hfit : total (p :: ps) ≤ kBlockSize) {rest : Bytes}
    (hplaced : p.Placed filled (start + (bytesOf crc (p :: ps) ++ rest).length)) :
    scan crc filled (bytesOf crc (p :: ps) ++ rest) = if p.Agrees crc then
        (p.event :: (scan crc filled (bytesOf crc ps ++ rest)).1, (scan crc filled (bytesOf crc ps ++ rest)).2)
      else ([.bad [((bytesOf crc (p :: ps) ++ rest).length, "checksum mismatch")]], []) := by
  have hpayload : p.payload.length ≤ 0xffff := by
    simp only [total_cons, PhysicalRecord.size, kBlockSize, kHeaderSize] at hfit
    omega
  have hbytes : bytesOf crc (p :: ps) ++ rest = p.bytes crc ++ (bytesOf crc ps ++ rest) :=
    append_assoc _ _ _
  have hlong : kHeaderSize ≤ (p.bytes crc ++ (bytesOf crc ps ++ rest)).length := by
    rw [length_append, PhysicalRecord.length_bytes, PhysicalRecord.size, Nat.add_assoc]
    exact Nat.le_add_right _ _
  rw [← h.1, hbytes] at hplaced
  rw [hbytes, scan_of_le crc filled hlong, parse_bytes crc h.2.1 hpayload hplaced]
  split
  · rfl
  · rw [scan_of_lt crc filled (by decide : ([] : Bytes).length < kHeaderSize)]

theorem scan_bytesOf (h : Laid start ps) (hfit : total ps ≤ kBlockSize) {rest : Bytes}
    (hagrees : ∀ p ∈ ps, p.Agrees crc)
    (hplaced : ∀ p ∈ ps, p.Placed filled (start + (bytesOf crc ps ++ rest).length)) :
    scan crc filled (bytesOf crc ps ++ rest) =
      (ps.map PhysicalRecord.event ++ (scan crc filled rest).1, (scan crc filled rest).2) := by
  induction ps generalizing start with
  | nil => rfl
  | cons p ps ih =>
    obtain ⟨hagreesp, hagrees⟩ := forall_mem_cons.mp hagrees
    obtain ⟨hplacedp, hplaced⟩ := forall_mem_cons.mp hplaced
    rw [scan_bytesOf_cons h hfit hplacedp, if_pos hagreesp]
    rw [h.limit_add] at hplaced
    rw [total_cons] at hfit
    rw [ih h.2.2 (by omega) hagrees hplaced]
    rfl

theorem Blocks.fileEvents_append (h : Blocks crc last start closed written) (hstart : kBlockSize ∣ start)
    (hagrees : ∀ p ∈ closed.flatten, p.Agrees crc) (tail : Bytes) :
    fileEvents crc (written ++ tail) =
      closed.flatten.map PhysicalRecord.event ++ fileEvents crc (bytesOf crc last ++ tail) := by
  induction h with
  | last hlaid hfit => rfl
  | @cons start ps closed written hlaid hfit hfull hrest ih =>
    have hlength := length_block crc hfit
    have htrailer : (List.replicate (kBlockSize - total ps) (0 : UInt8)).length < kHeaderSize := by
      rw [length_replicate]
      omega
    rw [flatten_cons, forall_mem_append] at hagrees
    have hplaced (p : PhysicalRecord) (hp : p ∈ ps) :=
      hlaid.placed hstart hfit hp (bytesOf crc ps ++ List.replicate (kBlockSize - total ps) 0).length
    have hlong : ¬ (bytesOf crc ps ++ List.replicate (kBlockSize - total ps) 0 ++ (written ++ tail)).length <
        kBlockSize := by
      rw [length_append, hlength]
      omega
    rw [append_assoc, fileEvents_eq_scan]
    dsimp only
    rw [if_neg hlong, take_left' hlength, drop_left' hlength, scan_bytesOf hlaid hfit hagrees.1 hplaced,
      scan_of_lt crc _ htrailer, ih (Nat.dvd_add hstart (dvd_refl _)) hagrees.2, append_nil,
      flatten_cons, map_append, append_assoc]

theorem Blocks.fileEvents_eq (h : Blocks crc last start closed written) (hstart : kBlockSize ∣ start)
    (hagrees : ∀ p ∈ closed.flatten ++ last, p.Agrees crc) :
    fileEvents crc written = (closed.flatten ++ last).map PhysicalRecord.event ++ [.eof []] := by
  have hempty (filled : ℕ) : scan crc filled [] = ([], []) := scan_of_lt crc filled (by decide)
  have hend : fileEvents crc [] = [.eof []] := by
    rw [fileEvents, if_pos (by decide), hempty]
    rfl
  rw [forall_mem_append] at hagrees
  obtain ⟨s, hs, hlaid, hfit⟩ := h.exists_laid hstart last (by simp)
  have hevents := h.fileEvents_append hstart hagrees.1 []
  have hscan := @scan_bytesOf crc (bytesOf crc last).length last s hlaid hfit [] hagrees.2 fun p hp ↦ by
    rw [append_nil]
    exact hlaid.placed hs hfit hp _
  have hfull : (bytesOf crc last).length ≤ kBlockSize := by rwa [length_bytesOf]
  rw [append_nil, hempty, append_nil] at hscan
  rw [append_nil, append_nil, fileEvents_eq_scan (bytesOf crc last),
    take_of_length_le hfull, drop_of_length_le hfull, hend] at hevents
  simp only [hscan] at hevents
  rw [hevents, map_append, append_assoc]
  congr 2
  split <;> rfl

end Readable

/-! ## Logs -/

structure Written (crc : Checksum) (records : List Bytes) (w : Writer) (placed : List (List PhysicalRecord))
    (closed : List (List PhysicalRecord)) (last : List PhysicalRecord) : Prop where
  blocks : Blocks crc last 0 closed w.dest
  flatten : closed.flatten ++ last = placed.flatten
  fragments : List.Forall₂ Fragments records placed

theorem exists_written (crc : Checksum) (records : List Bytes) :
    ∃ w placed closed last, Writer.addRecords crc {} records = some (w, placed) ∧
      Written crc records w placed closed last := by
  obtain ⟨w, closed, last, placed, hadd, hlays, hflatten, hfragments⟩ :=
    (@Writer.lays_empty crc).addRecords_spec records
  exact ⟨w, placed, closed, last, hadd, hlays.blocks, hflatten, hfragments⟩

section Logs

variable {records : List Bytes} {w : Writer} {placed closed : List (List PhysicalRecord)}
  {last : List PhysicalRecord} {data : Bytes}

section

variable (h : Written crc records w placed closed last)
include h

theorem Written.map_snd_zip : ((records.zip placed).map Prod.snd).flatten = placed.flatten := by
  rw [List.map_snd_zip (List.Forall₂.length_eq h.fragments).ge]

theorem Written.fragments_zip : ∀ r ∈ records.zip placed, Fragments r.1 r.2 := by
  rintro ⟨record, ps⟩ hr
  exact (forall₂_iff_zip.mp h.fragments).2 hr

/-- The records read from a file that may have lost bytes at its end or changed in others. -/
theorem Written.readAll_eq (hlength : data.length ≤ w.dest.length)
    (hpasses : ∀ p ∈ placed.flatten, kHeaderSize ≤ (slice data p.offset (blockEnd p.offset)).length →
      ¬ Intact crc data p → ¬ PassesAt crc data p.offset) (lastRecordOffset endOfBufferOffset : UInt64) :
    ((Reader.new data true 0 lastRecordOffset endOfBufferOffset).readAll crc).1 =
      survivors (readable crc data placed.flatten) (records.zip placed) := by
  have hdamaged := damaged_fileEvents h.blocks (dvd_zero _) (hlength.trans_eq (Nat.zero_add _).symm)
    (h.blocks.readableIn (dvd_zero _)) (by rwa [h.flatten])
  rw [h.flatten, drop_zero] at hdamaged
  rw [(Reader.fromStart_new data _ _).readAll_eq_assemble.1, Reader.events_new]
  refine Damaged.assemble_eq_survivors ?_ h.fragments_zip
  rwa [h.map_snd_zip]

/-- The records read from a file as it was written, without a report. -/
theorem Written.dropped_readAll (hagrees : ∀ p ∈ placed.flatten, p.Agrees crc)
    (lastRecordOffset endOfBufferOffset : UInt64) :
    ((Reader.new w.dest true 0 lastRecordOffset endOfBufferOffset).readAll crc).2.dropped = [] := by
  rw [(Reader.fromStart_new w.dest _ _).readAll_eq_assemble.2, Reader.events_new,
    h.blocks.fileEvents_eq (dvd_zero _) (by rwa [h.flatten]), h.flatten, ← h.map_snd_zip,
    reports_assemble_intact h.fragments_zip]
  rfl

variable (hp : p ∈ placed.flatten)
include hp

theorem Written.stands : Stands crc w.dest p := by
  rw [← h.flatten] at hp
  exact @Blocks.stands crc last 0 closed w.dest h.blocks [] rfl p hp

theorem Written.intact_iff :
    Intact crc w.dest p ↔ p.Agrees crc := ⟨Intact.agrees, fun ha ↦ ⟨h.stands hp, ha⟩⟩

theorem Written.mem_block :
    ∃ ps s, p ∈ ps ∧ ps ∈ closed ++ [last] ∧ kBlockSize ∣ s ∧ Laid s ps ∧ total ps ≤ kBlockSize := by
  rw [← h.flatten] at hp
  have hmem : p ∈ (closed ++ [last]).flatten := by
    rwa [flatten_append, flatten_singleton]
  obtain ⟨ps, hps, hp⟩ := mem_flatten.mp hmem
  obtain ⟨s, hs, hlaid, hfit⟩ := h.blocks.exists_laid (dvd_zero _) ps hps
  exact ⟨ps, s, hp, hps, hs, hlaid, hfit⟩

theorem Written.length_payload_le : p.payload.length ≤ 0xffff := by
  obtain ⟨ps, s, hp, -, -, hlaid, hfit⟩ := h.mem_block hp
  have := hlaid.bounds p hp
  simp only [PhysicalRecord.limit, PhysicalRecord.size, kBlockSize, kHeaderSize] at *
  omega

theorem Written.limit_le_blockEnd : p.limit ≤ blockEnd p.offset := by
  obtain ⟨ps, s, hp, hps, hs, hlaid, hfit⟩ := h.mem_block hp
  rw [blockEnd_eq hs hlaid hfit hp]
  have := (hlaid.bounds p hp).2
  omega

end

/-! ### Files that are cut short -/

theorem intact_take_iff (h : Intact crc data p) : Intact crc (data.take n) p ↔ p.limit ≤ n := by
  constructor
  · intro hintact
    have := hintact.stands.limit_le
    rw [length_take] at this
    omega
  · intro hle
    refine ⟨?_, h.agrees⟩
    rw [Stands, slice_take, h.stands, take_of_length_le]
    rw [PhysicalRecord.length_bytes]
    rw [PhysicalRecord.limit] at hle
    omega

theorem headerLength_take {buffer : Bytes} (h : kHeaderSize ≤ n) :
    Reader.headerLength (buffer.take n) = Reader.headerLength buffer := by
  rw [kHeaderSize] at h
  simp only [Reader.headerLength, getD_eq_getElem?_getD]
  rw [getElem?_take_of_lt (by omega), getElem?_take_of_lt (by omega)]

section

variable (h : Written crc records w placed closed last)
include h

/-- The length in a header tells that the payload is not all there. -/
theorem Written.not_passes_take (hp : p ∈ placed.flatten)
    (hlong : kHeaderSize ≤ (slice (w.dest.take n) p.offset (blockEnd p.offset)).length)
    (hagrees : p.Agrees crc) (hlost : ¬ Intact crc (w.dest.take n) p) :
    ¬ PassesAt crc (w.dest.take n) p.offset := by
  intro hpasses
  have hlimit := h.limit_le_blockEnd hp
  have hfits := hpasses.fits
  have hintact := (h.intact_iff hp).mpr hagrees
  rw [intact_take_iff hintact, not_le, PhysicalRecord.limit, PhysicalRecord.size] at hlost
  rw [slice_take, length_take] at hlong
  rw [slice_take, headerLength_take (by omega), hintact.stands.slice_eq hlimit,
    headerLength_bytes crc (h.length_payload_le hp),
    length_take] at hfits
  simp only [kHeaderSize] at *
  omega

theorem Written.readable_take (hagrees : ∀ p ∈ placed.flatten, p.Agrees crc) (hp : p ∈ placed.flatten) :
    readable crc (w.dest.take n) placed.flatten p = decide (p.limit ≤ n) := by
  rw [readable, decide_eq_decide]
  constructor
  · intro hall
    exact (intact_take_iff ((h.intact_iff hp).mpr (hagrees p hp))).mp (hall p hp rfl le_rfl)
  · intro hle q hq hdiv hoffset
    rw [intact_take_iff ((h.intact_iff hq).mpr (hagrees q hq))]
    obtain ⟨ps, s, hp', hps, hs, hlaid, hfit⟩ := h.mem_block hp
    have hq' := h.blocks.mem_of_div_eq (dvd_zero _) hps hp' (by rwa [h.flatten]) hdiv
    exact (hlaid.limit_le_of_offset_le hp' hq' hoffset).trans hle

theorem Written.readAll_take (hagrees : ∀ p ∈ placed.flatten, p.Agrees crc)
    {lastRecordOffset endOfBufferOffset : UInt64} :
    ((Reader.new (w.dest.take n) true 0 lastRecordOffset endOfBufferOffset).readAll crc).1 =
      ((records.zip placed).filter fun r ↦ r.2.all fun p ↦ p.limit ≤ n).map Prod.fst := by
  rw [h.readAll_eq (length_take_le' n w.dest) fun p hp hlong ↦ h.not_passes_take hp hlong (hagrees p hp)]
  refine congrArg (List.map Prod.fst) (filter_congr fun r hr ↦ ?_)
  rw [Bool.eq_iff_iff, all_eq_true, all_eq_true]
  refine forall₂_congr fun p hp ↦ ?_
  have hp' : p ∈ placed.flatten := mem_flatten.mpr ⟨r.2, (of_mem_zip hr).2, hp⟩
  rw [h.readable_take hagrees hp']

end

/-- **What is read from a log that is cut short.**  Adding records does not fail, and a reader over the first
`n` bytes of the file returns the records all of whose bytes are among them, in order, until it comes to
the end of the file.  It reports nothing when nothing is cut off. -/
theorem truncated_log_reads_complete_records (crc : Crc32c) (records : List Bytes) :
    ∃ w placed, Writer.addRecords crc {} records = some (w, placed) ∧ List.Forall₂ Fragments records placed ∧
      ∀ (n : ℕ) (lastRecordOffset endOfBufferOffset : UInt64),
        let read := (Reader.new (w.dest.take n) true 0 lastRecordOffset endOfBufferOffset).readAll crc
        read.1 = ((records.zip placed).filter fun r ↦ r.2.all fun p ↦ p.limit ≤ n).map Prod.fst ∧
          (n = w.dest.length → read.2.dropped = []) := by
  obtain ⟨w, placed, closed, last, hadd, hwritten⟩ := exists_written crc records
  have hagrees (p : PhysicalRecord) (_ : p ∈ placed.flatten) : p.Agrees crc := crc.agrees p
  refine ⟨w, placed, hadd, hwritten.fragments, fun n lastRecordOffset endOfBufferOffset ↦
    ⟨hwritten.readAll_take hagrees, ?_⟩⟩
  rintro rfl
  rw [take_length]
  exact hwritten.dropped_readAll hagrees _ _

/-! ### Files that are damaged -/

/-- No byte of the physical record lies in a block in which the two files differ. -/
def Untouched (data written : Bytes) (p : PhysicalRecord) : Prop :=
  ∀ i, p.offset ≤ i → i < p.limit → block data (i / kBlockSize) = block written (i / kBlockSize)

def physicalBytes (buffer : Bytes) : Bytes := buffer.take (kHeaderSize + Reader.headerLength buffer)

theorem slice_block (data : Bytes) {start limit : ℕ} (hlimit : limit ≤ blockEnd start) :
    slice data start limit =
      slice (block data (start / kBlockSize)) (start % kBlockSize) (start % kBlockSize + (limit - start)) := by
  have hstart : start = start / kBlockSize * kBlockSize + start % kBlockSize := by
    rw [Nat.mul_comm, Nat.div_add_mod]
  rw [blockEnd] at hlimit
  rw [block, slice, slice, slice, drop_take, drop_drop, ← hstart, take_take]
  congr 1
  rw [Nat.add_mul] at *
  omega

section

variable (h : Written crc records w placed closed last)
include h

theorem Written.readable_of_untouched (hagrees : ∀ p ∈ placed.flatten, p.Agrees crc)
    (huntouched : Untouched data w.dest p) : readable crc data placed.flatten p = true := by
  rw [readable, decide_eq_true_iff]
  intro q hq hdiv _
  have hblock := huntouched p.offset le_rfl (Nat.lt_add_of_pos_right p.size_pos)
  have hlimit := h.limit_le_blockEnd hq
  have hbytes := h.stands hq
  refine ⟨?_, hagrees q hq⟩
  rw [Stands, slice_block _ hlimit, hdiv] at hbytes ⊢
  rw [hblock, hbytes]

theorem Written.placed_of_stands (hp : p ∈ placed.flatten) (hstands : Stands crc data p) :
    p.Placed (block data (p.offset / kBlockSize)).length
      (p.offset + (slice data p.offset (blockEnd p.offset)).length) := by
  obtain ⟨ps, s, hp, -, hs, hlaid, hfit⟩ := h.mem_block hp
  have hbounds := (hlaid.bounds p hp).2
  have hlimit := hstands.limit_le
  have hend : p.offset + (slice data p.offset (s + kBlockSize)).length = min data.length (s + kBlockSize) := by
    rw [PhysicalRecord.limit] at hbounds hlimit
    rw [length_slice]
    omega
  rw [block_eq hs hlaid hfit hp, blockEnd_eq hs hlaid hfit hp, hend]
  exact hlaid.placed_slice hs hfit hp hlimit

theorem Written.intact_of_passes (hp : p ∈ placed.flatten) (hpasses : PassesAt crc data p.offset)
    (hbytes : physicalBytes (slice data p.offset (blockEnd p.offset)) = p.bytes crc) :
    Intact crc data p := by
  have hlimit := h.limit_le_blockEnd hp
  have hsize : kHeaderSize + Reader.headerLength (slice data p.offset (blockEnd p.offset)) = p.size := by
    rw [← p.length_bytes crc, ← hbytes, physicalBytes, length_take, Nat.min_eq_left hpasses.fits]
  rw [physicalBytes, hsize, take_slice data hlimit] at hbytes
  have hplaced := h.placed_of_stands hp hbytes
  have hchecksum := hpasses.checksum
  rw [Stands.slice_eq hbytes hlimit] at hplaced hchecksum
  rw [actualCrc_bytes crc (h.length_payload_le hp) hplaced, expectedCrc_bytes] at hchecksum
  exact ⟨hbytes, hchecksum⟩

end

theorem survivors_zip (kept : PhysicalRecord → Bool) (records : List Bytes) (placed : List (List PhysicalRecord)) :
    survivors kept (records.zip placed) =
      ((records.zip (placed.map fun ps ↦ ps.all kept)).filter Prod.snd).map Prod.fst := by
  rw [survivors, zip_map_right, filter_map, map_map]
  rfl

/-- A checksum that adds the bytes up. -/
def byteSum : Crc32c where
  value := List.foldl (fun sum b ↦ sum + b.toUInt32) 0
  extend := List.foldl fun sum b ↦ sum + b.toUInt32
  extend_value _ _ := foldl_append.symm

end Logs

end LevelDB.Db.Log
