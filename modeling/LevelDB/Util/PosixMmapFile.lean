import LevelDB.Library.Machine
import Mathlib.Tactic

/-!
# Files written through a moving window

`PosixMmapFile` of `util/env_posix.cpp`.  `Append` copies into a mapped region at the end of the file; a full
region is unmapped and the next one is mapped behind it, and `Close` cuts off what is left of the last one.
The bytes of the file are those of its regions (`MAP_SHARED`), and `ftruncate` extends it with zeros.

`Sync` flushes the regions that were unmapped with `fdatasync` and the current one with `msync`.  What such a call
has covered is kept in a ghost field.
-/

namespace LevelDB.Util.PosixMmapFile

open Library List

inductive Status
  | ok
  | ioError
  deriving DecidableEq, Repr

/-- The mapped region.  `limit_`, `dst_` and `last_sync_` are offsets from `base_`. -/
structure Region where
  limit : ℕ
  dst : ℕ
  lastSync : ℕ
  deriving DecidableEq, Repr

structure File where
  /-- The bytes of the file. -/
  contents : List UInt8
  pageSize : ℕ
  /-- How much extra memory to map at a time. -/
  mapSize : ℕ
  /-- `none` is a null `base_`. -/
  region : Option Region
  /-- Offset of `base_` in the file. -/
  fileOffset : ℕ
  /-- Have we done an `munmap` of unsynced data? -/
  pendingSync : Bool
  /-- Ghost: the ranges of bytes written by then that an `fdatasync` or `msync` which succeeded has covered. -/
  synced : List (ℕ × ℕ)
  deriving DecidableEq, Repr

namespace File

/-- The next system call, where `results` says which of the calls to come succeed; all calls after them do. -/
def sysCall (results : List Bool) : Bool × List Bool := (results.headD true, results.tail)

/-- `Roundup`: `x` rounded up to a multiple of `y`. -/
def roundup (x y : ℕ) : ℕ := (x + y - 1) / y * y

def new (pageSize : ℕ) : File where
  contents := []
  pageSize := pageSize
  mapSize := roundup 65536 pageSize
  region := none
  fileOffset := 0
  pendingSync := false
  synced := []

/-- `TruncateToPageBoundary`; `none` is a failed assertion. -/
def truncateToPageBoundary (f : File) (s : ℕ) : Option ℕ :=
  let s := s - (s &&& (f.pageSize - 1))
  if s % f.pageSize = 0 then some s else none

def resize (contents : List UInt8) (length : ℕ) : List UInt8 :=
  contents.take length ++ List.replicate (length - contents.length) 0

def unmapCurrentRegion (f : File) (results : List Bool) : Bool × File × List Bool :=
  match f.region with
  | none => (true, f, results)
  | some r =>
    -- defer syncing this data until next `Sync` call, if any
    let f := if r.lastSync < r.limit then { f with pendingSync := true } else f
    let (result, results) := sysCall results
    let f := { f with fileOffset := f.fileOffset + r.limit, region := none }
    let f := if f.mapSize < 2 ^ 20 then { f with mapSize := f.mapSize * 2 } else f
    (result, f, results)

/-- `MapNewRegion`; `none` is a failed assertion. -/
def mapNewRegion (f : File) (results : List Bool) : Option (Bool × File × List Bool) :=
  match f.region with
  | some _ => none
  | none =>
    let (truncated, results) := sysCall results
    if truncated then
      let f := { f with contents := resize f.contents (f.fileOffset + f.mapSize) }
      let (mapped, results) := sysCall results
      if mapped then some (true, { f with region := some ⟨f.mapSize, 0, 0⟩ }, results)
      else some (false, f, results)
    else some (false, f, results)

def avail (f : File) : ℕ := f.region.elim 0 fun r ↦ r.limit - r.dst

def memcpy (f : File) (src : List UInt8) : File :=
  match f.region with
  | none => f
  | some r =>
    let at_ := f.fileOffset + r.dst
    { f with
      contents := f.contents.take at_ ++ src ++ f.contents.drop (at_ + src.length)
      region := some { r with dst := r.dst + src.length } }

/-- The loop of `Append` over what is left of the data.  After a new region was mapped, this round still goes on
with an `avail` of 0.  `none` is a failed assertion, or that the rounds are used up. -/
def appendLoop : ℕ → File → List Bool → List UInt8 → Option (File × Status)
  | 0, _, _, _ => none
  | rounds + 1, f, results, src =>
    if src = [] then some (f, .ok)
    else if f.region.all fun r ↦ r.dst ≤ r.limit then
      let avail := f.avail
      let remapped :=
        if avail = 0 then
          let (unmapped, f, results) := f.unmapCurrentRegion results
          if unmapped then f.mapNewRegion results else some (false, f, results)
        else some (true, f, results)
      match remapped with
      | none => none
      | some (false, f, _) => some (f, .ioError)
      | some (true, f, results) =>
        let n := if src.length ≤ avail then src.length else avail
        appendLoop rounds (f.memcpy (src.take n)) results (src.drop n)
    else none

/-- `Append`.  No two rounds in a row copy nothing, so that these rounds are enough. -/
def append (f : File) (results : List Bool) (data : List UInt8) : Option (File × Status) :=
  appendLoop (2 * data.length + 1) f results data

def close (f : File) (results : List Bool) : File × Status :=
  let unused := f.avail
  let (unmapped, f, results) := f.unmapCurrentRegion results
  let (s, f, results) : Status × File × List Bool :=
    if unmapped then
      if 0 < unused then
        -- trim the extra space at the end of the file
        let (truncated, results) := sysCall results
        if truncated then (.ok, { f with contents := resize f.contents (f.fileOffset - unused) }, results)
        else (.ioError, f, results)
      else (.ok, f, results)
    else (.ioError, f, results)
  let (closed, _) := sysCall results
  (f, if closed then s else .ioError)

def syncUnmapped (f : File) (results : List Bool) : Status × File × List Bool :=
  if f.pendingSync then
    let f := { f with pendingSync := false }
    let (done, results) := sysCall results
    if done then (.ok, { f with synced := (0, f.fileOffset) :: f.synced }, results) else (.ioError, f, results)
  else (.ok, f, results)

/-- The `msync` of `Sync`, of the pages that contain the first and the last byte to be synced. -/
def syncMapped (f : File) (s : Status) (results : List Bool) : Option (File × Status) :=
  match f.region with
  | none => some (f, s)
  | some r =>
    if r.lastSync < r.dst then
      (f.truncateToPageBoundary r.lastSync).bind fun p1 ↦
        (f.truncateToPageBoundary (r.dst - 1)).bind fun p2 ↦
          let f := { f with region := some { r with lastSync := r.dst } }
          let (done, _) := sysCall results
          let first := f.fileOffset + p1
          if done then
            let last := min (first + (p2 - p1 + f.pageSize)) (f.fileOffset + r.dst)
            some ({ f with synced := (first, last) :: f.synced }, s)
          else some (f, .ioError)
    else some (f, s)

def sync (f : File) (results : List Bool) : Option (File × Status) :=
  let (s, f, results) := f.syncUnmapped results
  f.syncMapped s results

/-- The file behind the data that was appended, with all calls but those of `Sync` successful. -/
structure Tracks (f : File) (data : List UInt8) : Prop where
  page : ∃ k, f.pageSize = 2 ^ k
  mapSize_pos : 0 < f.mapSize
  written : f.contents.take data.length = data
  unmapped : f.region = none → data.length = f.fileOffset ∧ f.contents.length = f.fileOffset
  mapped : ∀ r, f.region = some r → r.lastSync ≤ r.dst ∧ r.dst ≤ r.limit ∧ data.length = f.fileOffset + r.dst ∧
    f.contents.length = f.fileOffset + r.limit

/-- What `Sync` relies on: everything before the region was covered unless `pending_sync_` is set, and the region
up to `last_sync_`. -/
structure Synced (f : File) : Prop where
  unmapped : f.pendingSync = false → ∀ i < f.fileOffset, ∃ range ∈ f.synced, range.1 ≤ i ∧ i < range.2
  mapped : ∀ r, f.region = some r → ∀ i, f.fileOffset ≤ i → i < f.fileOffset + r.lastSync →
    ∃ range ∈ f.synced, range.1 ≤ i ∧ i < range.2

/-- The byte was covered, after it was written, by a call that succeeded. -/
def Covers (f : File) (i : ℕ) : Prop := ∃ range ∈ f.synced, range.1 ≤ i ∧ i < range.2

theorem roundup_pos {y : ℕ} (hy : 0 < y) : 0 < roundup 65536 y := by
  have hdiv : 0 < (65536 + y - 1) / y := Nat.div_pos (by omega) hy
  exact Nat.mul_pos hdiv hy

theorem tracks_new (k : ℕ) : Tracks (new (2 ^ k)) [] where
  page := ⟨k, rfl⟩
  mapSize_pos := roundup_pos (by positivity)
  written := rfl
  unmapped _ := ⟨rfl, rfl⟩
  mapped _ h := by cases h

theorem synced_new (pageSize : ℕ) : Synced (new pageSize) where
  unmapped _ i hi := absurd hi (Nat.not_lt_zero i)
  mapped _ h := by cases h

/-- The file without its region. -/
def withoutRegion (f : File) : File :=
  match f.region with
  | none => f
  | some r =>
    { f with
      fileOffset := f.fileOffset + r.limit
      region := none
      pendingSync := f.pendingSync || decide (r.lastSync < r.limit)
      mapSize := if f.mapSize < 2 ^ 20 then f.mapSize * 2 else f.mapSize }

def withRegion (f : File) : File :=
  { f with contents := resize f.contents (f.fileOffset + f.mapSize), region := some ⟨f.mapSize, 0, 0⟩ }

variable {f : File} {data : List UInt8}

theorem unmapCurrentRegion_eq (f : File) : f.unmapCurrentRegion [] = (true, f.withoutRegion, []) := by
  unfold unmapCurrentRegion withoutRegion
  cases hregion : f.region with
  | none => rfl
  | some r =>
    by_cases hsync : r.lastSync < r.limit
    · simp only [hsync, sysCall, if_true, decide_true, Bool.or_true, headD_nil, tail_nil]
      split <;> rfl
    · simp only [hsync, sysCall, if_false, decide_false, Bool.or_false, headD_nil, tail_nil]
      split <;> rfl

theorem mapNewRegion_eq (h : f.region = none) : f.mapNewRegion [] = some (true, f.withRegion, []) := by
  rw [mapNewRegion, h]
  rfl

theorem region_withoutRegion (f : File) : f.withoutRegion.region = none := by
  unfold withoutRegion
  split
  · assumption
  · rfl

theorem Tracks.withoutRegion (h : Tracks f data) (hfull : f.avail = 0) : Tracks f.withoutRegion data := by
  unfold File.withoutRegion
  cases hregion : f.region with
  | none => exact h
  | some r =>
    obtain ⟨-, hdst, hdata, hlength⟩ := h.mapped r hregion
    rw [avail, hregion] at hfull
    have hlimit : r.dst = r.limit := le_antisymm hdst (Nat.sub_eq_zero_iff_le.mp hfull)
    have hpos := h.mapSize_pos
    refine ⟨h.page, ?_, h.written, fun _ ↦ ⟨by rw [hdata, hlimit], hlength⟩, fun _ h ↦ by cases h⟩
    dsimp only
    split <;> omega

theorem Tracks.withRegion (h : Tracks f data) (hregion : f.region = none) : Tracks f.withRegion data := by
  obtain ⟨hdata, hlength⟩ := h.unmapped hregion
  have hresize : f.withRegion.contents = f.contents ++ List.replicate f.mapSize 0 := by
    change resize f.contents (f.fileOffset + f.mapSize) = _
    rw [resize, ← hlength, take_of_length_le (Nat.le_add_right _ _), Nat.add_sub_cancel_left]
  refine ⟨h.page, h.mapSize_pos, ?_, fun h ↦ (by cases h), ?_⟩
  · rw [hresize, take_append_of_le_length (by omega), h.written]
  · rintro r ⟨⟩
    refine ⟨le_rfl, Nat.zero_le _, hdata, ?_⟩
    rw [hresize, length_append, length_replicate, hlength]
    rfl

theorem Tracks.memcpy (h : Tracks f data) {src : List UInt8} (hsrc : src.length ≤ f.avail) (hpos : 0 < f.avail) :
    Tracks (f.memcpy src) (data ++ src) := by
  cases hregion : f.region with
  | none =>
    rw [avail, hregion] at hpos
    exact absurd hpos (lt_irrefl 0)
  | some r =>
    obtain ⟨hsync, hdst, hdata, hlength⟩ := h.mapped r hregion
    rw [avail, hregion, Option.elim_some] at hsrc
    have htake : f.contents.take (f.fileOffset + r.dst) = data := by rw [← hdata, h.written]
    rw [File.memcpy, hregion]
    refine ⟨h.page, h.mapSize_pos, ?_, fun h ↦ (by cases h), ?_⟩
    · dsimp only
      rw [htake]
      exact take_left
    · rintro _ ⟨⟩
      refine ⟨by dsimp only; omega, by dsimp only; omega, ?_, ?_⟩
      · rw [length_append, hdata, Nat.add_assoc]
      · dsimp only
        rw [htake, length_append, length_append, length_drop, hlength, hdata]
        omega

theorem Synced.withoutRegion (h : Synced f) : Synced f.withoutRegion := by
  unfold File.withoutRegion
  cases hregion : f.region with
  | none => exact h
  | some r =>
    refine ⟨fun hpending i hi ↦ ?_, fun _ h ↦ by cases h⟩
    obtain ⟨hpending, hsynced⟩ := Bool.or_eq_false_iff.mp hpending
    rw [decide_eq_false_iff_not] at hsynced
    dsimp only at hi
    by_cases hlt : i < f.fileOffset
    · exact h.unmapped hpending i hlt
    · exact h.mapped r hregion i (by omega) (by omega)

theorem Synced.withRegion (h : Synced f) : Synced f.withRegion where
  unmapped := h.unmapped
  mapped := by
    rintro r ⟨⟩ i hle hlt
    exact absurd hle (Nat.not_le.mpr hlt)

theorem Synced.memcpy (h : Synced f) (src : List UInt8) : Synced (f.memcpy src) := by
  unfold File.memcpy
  cases hregion : f.region with
  | none => exact h
  | some r =>
    refine ⟨h.unmapped, ?_⟩
    rintro _ ⟨⟩
    exact h.mapped r hregion

theorem Tracks.dst_le (h : Tracks f data) : (f.region.all fun r ↦ r.dst ≤ r.limit) = true := by
  cases hregion : f.region with
  | none => rfl
  | some r =>
    rw [Option.all_some]
    exact decide_eq_true (h.mapped r hregion).2.1

theorem memcpy_nil (f : File) : f.memcpy [] = f := by
  obtain ⟨contents, pageSize, mapSize, region, fileOffset, pendingSync, synced⟩ := f
  cases region with
  | none => rfl
  | some r => simp [memcpy]

/-- A round with no room left maps the next region and copies nothing. -/
theorem Tracks.appendLoop_remap (h : Tracks f data) (hfull : f.avail = 0) {src : List UInt8} (hsrc : src ≠ [])
    (rounds : ℕ) :
    appendLoop (rounds + 1) f [] src = appendLoop rounds f.withoutRegion.withRegion [] src := by
  have hmap := mapNewRegion_eq f.region_withoutRegion
  have hn : (if src.length ≤ 0 then src.length else 0) = 0 := by
    split <;> omega
  rw [appendLoop, if_neg hsrc, if_pos h.dst_le]
  simp only [hfull, if_true, unmapCurrentRegion_eq, hmap, hn, take_zero, drop_zero, memcpy_nil]

/-- A round with room left copies. -/
theorem Tracks.appendLoop_copy (h : Tracks f data) (hroom : 0 < f.avail) {src : List UInt8} (hsrc : src ≠ [])
    (rounds : ℕ) :
    appendLoop (rounds + 1) f [] src =
      appendLoop rounds (f.memcpy (src.take f.avail)) [] (src.drop f.avail) := by
  rw [appendLoop, if_neg hsrc, if_pos h.dst_le]
  simp only [hroom.ne', if_false]
  by_cases hle : src.length ≤ f.avail
  · rw [if_pos hle, take_length, drop_length, take_of_length_le hle, drop_of_length_le hle]
  · rw [if_neg hle]

theorem Tracks.appendLoop_spec (h : Tracks f data) (rounds : ℕ) (src : List UInt8)
    (hrounds : 2 * src.length + 1 ≤ rounds) :
    ∃ f', appendLoop rounds f [] src = some (f', .ok) ∧ Tracks f' (data ++ src) ∧ (Synced f → Synced f') := by
  induction hlength : src.length using Nat.strong_induction_on generalizing f data rounds src with
  | _ left ih =>
    obtain ⟨rounds, rfl⟩ := Nat.exists_eq_add_of_le' (Nat.one_le_of_lt hrounds)
    by_cases hsrc : src = []
    · subst hsrc
      exact ⟨f, by rw [appendLoop, if_pos rfl], by rwa [append_nil], id⟩
    have hpos : 0 < src.length := length_pos_iff.mpr hsrc
    -- a round that copies, followed by the rest
    have hcopy : ∀ {g : File} (rounds : ℕ), Tracks g data → 0 < g.avail → 2 * src.length ≤ rounds + 1 →
        ∃ f', appendLoop (rounds + 1) g [] src = some (f', .ok) ∧ Tracks f' (data ++ src) ∧
          (Synced g → Synced f') := by
      intro g rounds hg hroom hmore
      have htake : (src.take g.avail).length ≤ g.avail := length_take_le _ _
      have hdrop : (src.drop g.avail).length < left := by rw [length_drop]; omega
      obtain ⟨f', hrun, htracks, hsynced⟩ := ih _ hdrop (hg.memcpy htake hroom) rounds (src.drop g.avail)
        (by omega) rfl
      rw [append_assoc, take_append_drop] at htracks
      exact ⟨f', by rw [hg.appendLoop_copy hroom hsrc, hrun], htracks, fun h ↦ hsynced (h.memcpy _)⟩
    rcases Nat.eq_zero_or_pos f.avail with hfull | hroom
    · have hnext := (h.withoutRegion hfull).withRegion f.region_withoutRegion
      have hroom : 0 < f.withoutRegion.withRegion.avail := hnext.mapSize_pos
      obtain ⟨rounds, rfl⟩ : ∃ more, rounds = more + 1 := ⟨rounds - 1, by omega⟩
      obtain ⟨f', hrun, htracks, hsynced⟩ := hcopy rounds hnext hroom (by omega)
      refine ⟨f', by rw [h.appendLoop_remap hfull hsrc, hrun], htracks, fun h ↦ hsynced h.withoutRegion.withRegion⟩
    · exact hcopy rounds h hroom (by omega)

theorem Tracks.append_spec (h : Tracks f data) (src : List UInt8) :
    ∃ f', f.append [] src = some (f', .ok) ∧ Tracks f' (data ++ src) ∧ (Synced f → Synced f') :=
  h.appendLoop_spec _ src le_rfl

theorem truncateToPageBoundary_eq {k : ℕ} (hpage : f.pageSize = 2 ^ k) (s : ℕ) :
    f.truncateToPageBoundary s = some (s - s % f.pageSize) := by
  have hmod : (s - s % f.pageSize) % f.pageSize = 0 := by
    rw [Nat.sub_mod_eq_zero_of_mod_eq (Nat.mod_mod _ _).symm]
  rw [truncateToPageBoundary, hpage, Nat.and_two_pow_sub_one_eq_mod, ← hpage]
  exact if_pos hmod

theorem syncUnmapped_spec (h : Tracks f data) (results : List Bool) :
    Tracks (f.syncUnmapped results).2.1 data ∧ ((f.syncUnmapped results).1 = .ok → Synced f →
        Synced (f.syncUnmapped results).2.1 ∧ (f.syncUnmapped results).2.1.pendingSync = false) := by
  unfold syncUnmapped
  cases hpending : f.pendingSync with
  | false => exact ⟨h, fun _ hsynced ↦ ⟨hsynced, hpending⟩⟩
  | true =>
    have htracks : ∀ synced, Tracks { f with pendingSync := false, synced := synced } data :=
      fun _ ↦ ⟨h.page, h.mapSize_pos, h.written, h.unmapped, h.mapped⟩
    simp only [if_true]
    cases (sysCall results).1 with
    | false => exact ⟨htracks _, fun hok ↦ by cases hok⟩
    | true =>
      refine ⟨htracks _, fun _ hsynced ↦ ⟨⟨fun _ i hi ↦ ?_, fun r hr i hle hlt ↦ ?_⟩, rfl⟩⟩
      · exact ⟨(0, f.fileOffset), mem_cons_self, Nat.zero_le i, hi⟩
      · obtain ⟨range, hrange, hi⟩ := hsynced.mapped r hr i hle hlt
        exact ⟨range, mem_cons_of_mem _ hrange, hi⟩

theorem Synced.covers (h : Synced f) (hpending : f.pendingSync = false) {r : Region} (hregion : f.region = some r)
    {i : ℕ} (hi : i < f.fileOffset + r.lastSync) : f.Covers i := by
  by_cases hlt : i < f.fileOffset
  · exact h.unmapped hpending i hlt
  · exact h.mapped r hregion i (not_lt.mp hlt) hi

/-- What the `msync` does to the file: if it succeeds, the region is covered up to `dst_`. -/
theorem Tracks.syncMapped_spec (h : Tracks f data) (s : Status) (results : List Bool) :
    ∃ f' s', f.syncMapped s results = some (f', s') ∧ Tracks f' data ∧
      (s' = .ok → s = .ok ∧ (Synced f → f.pendingSync = false → Synced f' ∧ ∀ i < data.length, f'.Covers i)) := by
  obtain ⟨k, hpage⟩ := h.page
  unfold syncMapped
  cases hregion : f.region with
  | none =>
    refine ⟨f, s, rfl, h, fun hok ↦ ⟨hok, fun hsynced hpending ↦ ⟨hsynced, fun i hi ↦ ?_⟩⟩⟩
    rw [(h.unmapped hregion).1] at hi
    exact hsynced.unmapped hpending i hi
  | some r =>
    obtain ⟨hsync, hdst, hdata, hlength⟩ := h.mapped r hregion
    by_cases hnew : r.lastSync < r.dst
    · have htracks : ∀ synced,
          Tracks { f with region := some { r with lastSync := r.dst }, synced := synced } data := by
        refine fun _ ↦ ⟨h.page, h.mapSize_pos, h.written, fun h ↦ (by cases h), ?_⟩
        rintro _ ⟨⟩
        exact ⟨le_rfl, hdst, hdata, hlength⟩
      simp only [if_pos hnew, truncateToPageBoundary_eq hpage, Option.bind_some]
      cases (sysCall results).1 with
      | false => exact ⟨_, _, rfl, htracks _, fun hok ↦ by cases hok⟩
      | true =>
        refine ⟨_, _, rfl, htracks _, fun hok ↦ ⟨hok, fun hsynced hpending ↦ ?_⟩⟩
        -- the pages from that of the first byte to that of the last one
        have hpos : 0 < f.pageSize := by rw [hpage]; positivity
        have hlast := Nat.mod_lt (r.dst - 1) hpos
        have hfirst := Nat.mod_le r.lastSync f.pageSize
        have hle := Nat.mod_le (r.dst - 1) f.pageSize
        have hcovers : ∀ i < data.length, File.Covers
            { f with
              region := some { r with lastSync := r.dst }
              synced := (f.fileOffset + (r.lastSync - r.lastSync % f.pageSize),
                min (f.fileOffset + (r.lastSync - r.lastSync % f.pageSize) +
                  (r.dst - 1 - (r.dst - 1) % f.pageSize - (r.lastSync - r.lastSync % f.pageSize) + f.pageSize))
                  (f.fileOffset + r.dst)) :: f.synced } i := by
          intro i hi
          by_cases hi' : f.fileOffset + r.lastSync ≤ i
          · exact ⟨_, mem_cons_self, by dsimp only; omega, by dsimp only; omega⟩
          · obtain ⟨range, hrange, hmem⟩ := hsynced.covers hpending hregion (not_le.mp hi')
            exact ⟨range, mem_cons_of_mem _ hrange, hmem⟩
        refine ⟨⟨fun _ i hi ↦ hcovers i (by dsimp only at hi; omega), ?_⟩, hcovers⟩
        rintro _ ⟨⟩ i - hlt
        exact hcovers i (by dsimp only at hlt; omega)
    · refine ⟨f, s, by simp only [if_neg hnew], h, fun hok ↦
        ⟨hok, fun hsynced hpending ↦ ⟨hsynced, fun i hi ↦ ?_⟩⟩⟩
      exact hsynced.covers hpending hregion (by omega)

theorem Tracks.close_spec (h : Tracks f data) : (f.close []).1.contents = data ∧ (f.close []).2 = .ok := by
  unfold close
  rw [unmapCurrentRegion_eq]
  have hwithout : f.withoutRegion.contents = f.contents := by
    unfold File.withoutRegion
    split <;> rfl
  by_cases hunused : 0 < f.avail
  · simp only [if_true, hunused, sysCall, headD_nil, tail_nil, hwithout, and_true]
    cases hregion : f.region with
    | none =>
      rw [avail, hregion] at hunused
      exact absurd hunused (lt_irrefl 0)
    | some r =>
      obtain ⟨-, hdst, hdata, hlength⟩ := h.mapped r hregion
      have hoffset : f.withoutRegion.fileOffset - f.avail = data.length := by
        simp only [File.withoutRegion, avail, hregion, Option.elim_some, hdata]
        omega
      have hzero : data.length - f.contents.length = 0 := by omega
      rw [hoffset, resize, h.written, hzero, replicate_zero, append_nil]
  · simp only [if_true, hunused, if_false, sysCall, headD_nil, hwithout, and_true]
    have hdone : f.contents.length = data.length := by
      cases hregion : f.region with
      | none => rw [(h.unmapped hregion).1, (h.unmapped hregion).2]
      | some r =>
        obtain ⟨-, hdst, hdata, hlength⟩ := h.mapped r hregion
        rw [avail, hregion, Option.elim_some] at hunused
        omega
    rw [← h.written, take_of_length_le hdone.le]

theorem Tracks.sync_spec (h : Tracks f data) (results : List Bool) :
    ∃ f' s, f.sync results = some (f', s) ∧ Tracks f' data ∧
      (s = .ok → Synced f → Synced f' ∧ ∀ i < data.length, f'.Covers i) := by
  obtain ⟨htracks, hunmapped⟩ := syncUnmapped_spec h results
  obtain ⟨f', s, hsync, htracks', hmapped⟩ :=
    htracks.syncMapped_spec (f.syncUnmapped results).1 (f.syncUnmapped results).2.2
  refine ⟨f', s, hsync, htracks', fun hok hsynced ↦ ?_⟩
  obtain ⟨hfirst, hcovers⟩ := hmapped hok
  obtain ⟨hsynced', hpending⟩ := hunmapped hfirst hsynced
  exact hcovers hsynced' hpending

theorem syncUnmapped_nil (f : File) : (f.syncUnmapped []).1 = .ok ∧ (f.syncUnmapped []).2.2 = [] := by
  unfold syncUnmapped
  split <;> exact ⟨rfl, rfl⟩

theorem syncMapped_nil {f' : File} {s s' : Status} (h : f.syncMapped s [] = some (f', s')) : s' = s := by
  unfold syncMapped at h
  split at h
  · cases h
    rfl
  · split at h
    · obtain ⟨p1, -, h⟩ := Option.bind_eq_some_iff.mp h
      obtain ⟨p2, -, h⟩ := Option.bind_eq_some_iff.mp h
      cases h
      rfl
    · cases h
      rfl

/-- Without failures `Sync` returns OK. -/
theorem Tracks.sync_ok (h : Tracks f data) : ∃ f', f.sync [] = some (f', .ok) ∧ Tracks f' data := by
  obtain ⟨f', s, hsync, htracks, -⟩ := h.sync_spec []
  obtain ⟨hunmapped, hresults⟩ := f.syncUnmapped_nil
  have hs : s = .ok := by
    rw [sync] at hsync
    dsimp only at hsync
    rw [hunmapped, hresults] at hsync
    exact syncMapped_nil hsync
  exact ⟨f', hs ▸ hsync, htracks⟩

end File

inductive Op
  | append (data : List UInt8)
  | sync
  deriving DecidableEq, Repr

/-- The bytes that a call appends. -/
def Op.data : Op → List UInt8
  | append data => data
  | sync => []

/-- Calls in which all system calls succeed; `none` if one of them does not return OK. -/
def perform (f : File) : Op → Option File
  | .append data => (f.append [] data).bind fun (f, s) ↦ if s = .ok then some f else none
  | .sync => (f.sync []).bind fun (f, s) ↦ if s = .ok then some f else none

theorem perform_spec {f : File} {data : List UInt8} (h : f.Tracks data) (op : Op) :
    ∃ f', perform f op = some f' ∧ f'.Tracks (data ++ op.data) := by
  cases op with
  | append src =>
    obtain ⟨f', hrun, htracks, -⟩ := h.append_spec src
    exact ⟨f', by rw [perform, hrun]; rfl, htracks⟩
  | sync =>
    obtain ⟨f', hrun, htracks⟩ := h.sync_ok
    exact ⟨f', by rw [perform, hrun]; rfl, by rwa [Op.data, append_nil]⟩

theorem foldlM_perform_spec {f : File} {data : List UInt8} (h : f.Tracks data) (ops : List Op) :
    ∃ f', ops.foldlM perform f = some f' ∧ f'.Tracks (data ++ ops.flatMap Op.data) := by
  induction ops generalizing f data with
  | nil => exact ⟨f, rfl, by rwa [flatMap_nil, append_nil]⟩
  | cons op ops ih =>
    obtain ⟨f₁, hop, h₁⟩ := perform_spec h op
    obtain ⟨f', hrun, h'⟩ := ih h₁
    refine ⟨f', ?_, by rwa [flatMap_cons, ← append_assoc]⟩
    rw [foldlM_cons, hop]
    exact hrun

/-- Calls of `Append` and `Sync` whose system calls all succeed return OK, and after `Close` the file has exactly
the bytes that were appended. -/
theorem contents_after_close (k : ℕ) (ops : List Op) :
    ∃ f, ops.foldlM perform (File.new (2 ^ k)) = some f ∧ (f.close []).2 = .ok ∧
      (f.close []).1.contents = ops.flatMap Op.data := by
  obtain ⟨f, hrun, htracks⟩ := foldlM_perform_spec (File.tracks_new k) ops
  obtain ⟨hcontents, hok⟩ := htracks.close_spec
  exact ⟨f, hrun, hok, by rwa [nil_append] at hcontents⟩

/-- A file, the bytes appended to it, whether an `fdatasync` or `msync` has failed (then its `Sync` has returned
an error), and what the last call returned if it was `Sync`. -/
structure State where
  file : File
  data : List UInt8
  failed : Bool
  returned : Option Status
  deriving DecidableEq

inductive Action
  | append (data : List UInt8)
  /-- `results` says which of the calls of `fdatasync` and `msync` succeed. -/
  | sync (results : List Bool)
  deriving DecidableEq

def machine : Machine State Action where
  init state := ∃ k, state = ⟨File.new (2 ^ k), [], false, none⟩
  step state
    | .append data => .ofOption <| (state.file.append [] data).map fun (file, _) ↦
        { state with file := file, data := state.data ++ data, returned := none }
    | .sync results => .ofOption <| (state.file.sync results).map fun (file, s) ↦
        { state with file := file, failed := state.failed || decide (s ≠ .ok), returned := some s }

/-- No `fdatasync` or `msync` has failed before the step. -/
def NoFailure (state : State) (_ : Action) : Prop := state.failed = false

/-- What every step keeps: the file has the data, and while nothing has failed, what `Sync` relies on is true. -/
structure Ok (state : State) : Prop where
  tracks : state.file.Tracks state.data
  synced : state.failed = false → state.file.Synced
  covers : state.returned = some .ok → ∀ i < state.data.length, state.file.Covers i

theorem ok_of_reachable {state : State} (hreach : machine.ReachableWhen NoFailure state) : Ok state := by
  refine hreach.invariant ?_ ?_
  · rintro _ ⟨k, rfl⟩
    exact ⟨File.tracks_new k, fun _ ↦ File.synced_new _, fun h ↦ by cases h⟩
  · rintro state action state' h hfailed hstep
    cases action with
    | append src =>
      obtain ⟨file, hrun, htracks, hsynced⟩ := h.tracks.append_spec src
      rw [machine, Outcome.ofOption_eq_next, hrun] at hstep
      cases hstep
      exact ⟨htracks, fun hnot ↦ hsynced (h.synced hnot), fun h ↦ by cases h⟩
    | sync results =>
      obtain ⟨file, s, hrun, htracks, hsynced⟩ := h.tracks.sync_spec results
      rw [machine, Outcome.ofOption_eq_next, hrun] at hstep
      cases hstep
      have hok : (state.failed || decide (s ≠ .ok)) = false → s = .ok := by
        intro hnot
        simpa using (Bool.or_eq_false_iff.mp hnot).2
      exact ⟨htracks, fun hnot ↦ (hsynced (hok hnot) (h.synced hfailed)).1,
        fun hreturned ↦ (hsynced (Option.some.inj hreturned) (h.synced hfailed)).2⟩

/-- While no `fdatasync` or `msync` has failed, a `Sync` that returns OK leaves every byte appended so far covered
by a call that succeeded after the byte was written; and no call fails an assertion. -/
theorem sync_covers_everything {state : State} (hreach : machine.ReachableWhen NoFailure state) :
    (state.returned = some .ok → ∀ i < state.data.length, state.file.Covers i) ∧
      ∀ action, machine.step state action ≠ .abort := by
  have h := ok_of_reachable hreach
  refine ⟨h.covers, fun action habort ↦ ?_⟩
  cases action with
  | append src =>
    obtain ⟨file, hrun, -⟩ := h.tracks.append_spec src
    rw [machine, Outcome.ofOption_eq_abort, hrun] at habort
    cases habort
  | sync results =>
    obtain ⟨file, s, hrun, -⟩ := h.tracks.sync_spec results
    rw [machine, Outcome.ofOption_eq_abort, hrun] at habort
    cases habort

/-- Two calls of `Sync` after calls of `Append`. -/
theorem sync_covers_two_appends :
    ∃ state, machine.ReachableWhen NoFailure state ∧ state.data = [1, 2] ∧ state.returned = some .ok ∧
      ∀ i < 2, state.file.Covers i := by
  obtain ⟨state, hrun, hdata, hreturned⟩ := Machine.Run.of_exec machine (fun state _ ↦ !state.failed)
    ⟨File.new (2 ^ 12), [], false, none⟩ ⟨12, rfl⟩ [.append [1], .sync [], .append [2], .sync []]
    (fun state ↦ state.data = [1, 2] ∧ state.returned = some .ok) (by decide +kernel)
  have hreach : machine.ReachableWhen NoFailure state :=
    ⟨_, hrun.mono fun _ _ hnot ↦ by simpa [NoFailure] using hnot⟩
  have hcovers := (sync_covers_everything hreach).1 hreturned
  rw [hdata] at hcovers
  exact ⟨state, hreach, hdata, hreturned, hcovers⟩

/-- `msync` fails, and the next `Sync` returns OK although no call has covered the byte. -/
theorem sync_ok_after_failed_msync :
    ∃ state, machine.Reachable state ∧ state.data = [1] ∧ state.returned = some .ok ∧ ¬state.file.Covers 0 := by
  obtain ⟨state, hrun, hdata, hreturned, hsynced⟩ := Machine.Run.of_exec machine (fun _ _ ↦ true)
    ⟨File.new (2 ^ 12), [], false, none⟩ ⟨12, rfl⟩ [.append [1], .sync [false], .sync []]
    (fun state ↦ state.data = [1] ∧ state.returned = some .ok ∧ state.file.synced = []) (by decide +kernel)
  refine ⟨state, ⟨_, hrun.mono fun _ _ _ ↦ trivial⟩, hdata, hreturned, ?_⟩
  rintro ⟨range, hrange, -⟩
  rw [hsynced] at hrange
  cases hrange

end LevelDB.Util.PosixMmapFile
