import LevelDB.Db.EncodedKeys
import LevelDB.Db.LogChecksum
import LevelDB.Db.Manifest
import LevelDB.Db.VersionEditCoding

/-!
# The descriptor log as a file

The bytes of a MANIFEST: `LogAndApply` adds the encoding of each edit as a record of a log, and `Recover`
reads the records back with their checksums and decodes them.  What it reads are the edits themselves, so that
it rebuilds the version set (`recover_rebuilds_current_iff`), exactly when the checksums of `util/crc32c.cpp`
are the same on both sides.
-/

namespace LevelDB.Db.DescriptorFile

open Format TableFiles VersionBuilder Manifest Log EncodedKeys Util.Coding Library List
open VersionEditCoding (KeyRep FileRep)

variable {K : Type*}

structure KeyCoding (K : Type*) where
  toBytes : K → Bytes
  ofBytes : Bytes → K
  ofBytes_toBytes : ∀ key, ofBytes (toBytes key) = key

def nameBytes (name : String) : Bytes := name.toList.map fun c ↦ UInt8.ofNat c.toNat

def ofNameBytes (bytes : Bytes) : String := String.ofList (bytes.map fun b ↦ Char.ofNat b.toNat)

theorem ofNameBytes_nameBytes {name : String} (h : ∀ c ∈ name.toList, c.toNat < 256) :
    ofNameBytes (nameBytes name) = name := by
  have hchar : ∀ c ∈ name.toList, Char.ofNat (UInt8.ofNat c.toNat).toNat = c := by
    intro c hc
    rw [UInt8.toNat_ofNat_of_lt' (h c hc), Char.ofNat_toNat]
  rw [ofNameBytes, nameBytes, map_map]
  exact (congrArg String.ofList ((map_congr_left hchar).trans (map_id' _))).trans String.ofList_toList

variable (coding : KeyCoding K)

def keyRep (key : InternalKey K) : KeyRep := ⟨coding.toBytes key.userKey ++ encodeFixed 8 key.tag⟩

def ofKeyRep (key : KeyRep) : InternalKey K := ⟨coding.ofBytes (extractUserKey key.rep), extractTag key.rep⟩

theorem ofKeyRep_keyRep {key : InternalKey K} (h : key.tag < 2 ^ 64) :
    ofKeyRep coding (keyRep coding key) = key := by
  rw [ofKeyRep, keyRep, extractUserKey_append, extractTag_append h, coding.ofBytes_toBytes]

def fileRep (f : FileMetaData K) : FileRep :=
  ⟨f.number, f.fileSize, keyRep coding f.smallest, keyRep coding f.largest⟩

def ofFileRep (f : FileRep) : FileMetaData K :=
  ⟨f.number, f.fileSize, ofKeyRep coding f.smallest, ofKeyRep coding f.largest⟩

def editRep (edit : VersionEdit K) : VersionEditCoding.VersionEdit where
  comparator := edit.comparator.map nameBytes
  logNumber := edit.logNumber
  prevLogNumber := edit.prevLogNumber
  nextFileNumber := edit.nextFileNumber
  lastSequence := edit.lastSequence
  compactPointers := edit.compactPointers.map fun p ↦ (p.1, keyRep coding p.2)
  deletedFiles := (edit.deletedFiles.map toLex).toFinset
  newFiles := edit.newFiles.map fun p ↦ (p.1, fileRep coding p.2)

/-- The elements of a `std::set` in their order. -/
def elements {α : Type*} [LinearOrder α] (s : Finset α) : List α := s.sort

def ofEditRep (edit : VersionEditCoding.VersionEdit) : VersionEdit K where
  comparator := edit.comparator.map ofNameBytes
  logNumber := edit.logNumber
  prevLogNumber := edit.prevLogNumber
  nextFileNumber := edit.nextFileNumber
  lastSequence := edit.lastSequence
  compactPointers := edit.compactPointers.map fun p ↦ (p.1, ofKeyRep coding p.2)
  deletedFiles := (elements edit.deletedFiles).map ofLex
  newFiles := edit.newFiles.map fun p ↦ (p.1, ofFileRep coding p.2)

/-- The values of the edit fit into its encoding, and its deleted files are listed in the order of the
`std::set`. -/
@[mk_iff]
structure Encodable (edit : VersionEdit K) : Prop where
  rep : (editRep coding edit).Encodable
  name : ∀ name ∈ edit.comparator, ∀ c ∈ name.toList, c.toNat < 256
  pointers : ∀ p ∈ edit.compactPointers, p.2.tag < 2 ^ 64
  deleted : (edit.deletedFiles.map toLex).Pairwise (· < ·)
  files : ∀ p ∈ edit.newFiles, p.2.smallest.tag < 2 ^ 64 ∧ p.2.largest.tag < 2 ^ 64

instance (edit : VersionEdit K) : Decidable (Encodable coding edit) :=
  have (name : String) : Decidable (∀ c ∈ name.toList, c.toNat < 256) := decidableBAll _ _
  decidable_of_iff' _ (encodable_iff coding edit)

variable {coding}

theorem ofEditRep_editRep {edit : VersionEdit K} (h : Encodable coding edit) :
    ofEditRep coding (editRep coding edit) = edit := by
  have hcomparator : (edit.comparator.map nameBytes).map ofNameBytes = edit.comparator := by
    cases hname : edit.comparator with
    | none => rfl
    | some name => exact congrArg some (ofNameBytes_nameBytes (h.name name hname))
  have hpointers : ((edit.compactPointers.map fun p ↦ (p.1, keyRep coding p.2)).map
      fun p ↦ (p.1, ofKeyRep coding p.2)) = edit.compactPointers := by
    rw [map_map]
    refine (map_congr_left fun p hp ↦ ?_).trans (map_id' _)
    exact Prod.ext rfl (ofKeyRep_keyRep coding (h.pointers p hp))
  have hdeleted : (elements (edit.deletedFiles.map toLex).toFinset).map ofLex = edit.deletedFiles := by
    rw [elements, toFinset_sort _ (h.deleted.imp ne_of_lt) |>.mpr (h.deleted.imp le_of_lt), map_map]
    exact map_id' _
  have hfiles : ((edit.newFiles.map fun p ↦ (p.1, fileRep coding p.2)).map
      fun p ↦ (p.1, ofFileRep coding p.2)) = edit.newFiles := by
    rw [map_map]
    refine (map_congr_left fun p hp ↦ ?_).trans (map_id' _)
    have hsmallest := ofKeyRep_keyRep coding (h.files p hp).1
    have hlargest := ofKeyRep_keyRep coding (h.files p hp).2
    simp only [Function.comp_apply, fileRep, ofFileRep, hsmallest, hlargest]
  simp only [ofEditRep, editRep, hcomparator, hpointers, hdeleted, hfiles]

variable (coding)

/-- The record that `EncodeTo` makes of an edit.  It does not fail: keys have a tag at least. -/
def record (edit : VersionEdit K) : Bytes := ((editRep coding edit).encodeTo []).getD []

variable {coding}

theorem decodeFrom_record {edit : VersionEdit K} (h : Encodable coding edit) :
    VersionEditCoding.VersionEdit.decodeFrom {} (record coding edit) = some (editRep coding edit, .ok) := by
  rw [record, VersionEditCoding.VersionEdit.encodeTo_eq h.rep, Option.getD_some, nil_append]
  exact h.rep.decodeFrom_bytes

section Recover

variable [LinearOrder K] (crc : Checksum) (coding : KeyCoding K) (comparator : String)

/-- The body of the loop of `Recover`.  `DecodeFrom` returns on every record. -/
def readBytes (replay : Replay K) (bytes : Bytes) : Except RecoverError (Replay K) :=
  match VersionEditCoding.VersionEdit.decodeFrom {} bytes with
  | some (edit, .ok) => replay.read comparator (ofEditRep coding edit)
  | some (_, .corruption message detail) => .error (.corruption (message ++ ": " ++ detail))
  | none => .error .aborted

/-- `LogReporter::Corruption`, which keeps the first error. -/
def report (s : Except RecoverError (Replay K)) : List Report → Except RecoverError (Replay K)
  | [] => s
  | first :: _ => s.bind fun _ ↦ .error (.corruption first.2)

set_option linter.unusedVariables false in
def recoverRecords (r : Reader) (s : Except RecoverError (Replay K)) : Except RecoverError (Replay K) :=
  match report s (r.readRecord crc).1.dropped, hread : (r.readRecord crc).2 with
  | s, none => s
  | .error e, some _ => .error e
  | .ok replay, some bytes => recoverRecords (r.readRecord crc).1 (readBytes coding comparator replay bytes)
termination_by r.remaining
decreasing_by exact Reader.remaining_readRecord_lt crc r hread

/-- `Recover` in a new version set, from the MANIFEST that `CURRENT` names.  The reader does not initialise two
of its members. -/
def recoverFile (file : Bytes) (lastRecordOffset endOfBufferOffset : UInt64) :
    Except RecoverError (VersionSet K) := do
  let replay ← recoverRecords crc coding comparator
    (Reader.new file true 0 lastRecordOffset endOfBufferOffset) (.ok {})
  replay.finish

variable {crc coding comparator}

omit [LinearOrder K] in
theorem bind_eq_ok_iff {α β : Type*} {s : Except RecoverError α} {f : α → Except RecoverError β} {b : β} :
    s.bind f = .ok b ↔ ∃ a, s = .ok a ∧ f a = .ok b := by
  cases s <;> simp [Except.bind]

omit [LinearOrder K] in
theorem report_eq_ok_iff {s : Except RecoverError (Replay K)} {reports : List Report} {replay : Replay K} :
    report s reports = .ok replay ↔ reports = [] ∧ s = .ok replay := by
  cases reports with
  | nil => simp [report]
  | cons first rest => cases s <;> simp [report, Except.bind]

theorem recoverRecords_eq_ok_iff {r : Reader} (hr : r.FromStart) {s : Except RecoverError (Replay K)}
    {replay : Replay K} :
    recoverRecords crc coding comparator r s = .ok replay ↔ (r.readAll crc).2.dropped = [] ∧
      (s.bind fun start ↦ (r.readAll crc).1.foldlM (readBytes coding comparator) start) = .ok replay := by
  fun_induction Reader.readAll crc r generalizing s with
  | case1 r hnone =>
    rw [recoverRecords, hnone]
    dsimp only
    rw [report_eq_ok_iff]
    cases s <;> rfl
  | case2 r bytes hsome rest =>
    rename_i ih
    rw [recoverRecords, hsome]
    cases hreport : report s (r.readRecord crc).1.dropped with
    | error e =>
      dsimp only
      refine iff_of_false (by simp) ?_
      rintro ⟨hdropped, hfold⟩
      rw [hr.readRecord.dropped_eq_nil hdropped, report] at hreport
      rw [hreport] at hfold
      cases hfold
    | ok start =>
      obtain ⟨-, rfl⟩ := report_eq_ok_iff.mp hreport
      exact ih hr.readRecord

theorem foldlM_readBytes {manifest : List (VersionEdit K)} (h : ∀ edit ∈ manifest, Encodable coding edit)
    (replay : Replay K) :
    (manifest.map (record coding)).foldlM (readBytes coding comparator) replay =
      manifest.foldlM (Replay.read comparator) replay := by
  induction manifest generalizing replay with
  | nil => rfl
  | cons edit manifest ih =>
    obtain ⟨hedit, h⟩ := forall_mem_cons.mp h
    have hread : readBytes coding comparator replay (record coding edit) = replay.read comparator edit := by
      rw [readBytes, decodeFrom_record hedit]
      dsimp only
      rw [ofEditRep_editRep hedit]
    rw [map_cons, foldlM_cons, foldlM_cons, hread]
    exact congrArg _ (funext (ih h))

/-- `Recover` succeeds on the file exactly when it succeeds on the edits and the reader reports nothing. -/
theorem recoverFile_eq_ok_iff {manifest : List (VersionEdit K)} (h : ∀ edit ∈ manifest, Encodable coding edit)
    {file : Bytes} {x y : UInt64}
    (hread : ((Reader.new file true 0 x y).readAll crc).1 = manifest.map (record coding))
    {vs : VersionSet K} :
    recoverFile crc coding comparator file x y = .ok vs ↔
      ((Reader.new file true 0 x y).readAll crc).2.dropped = [] ∧ recover comparator manifest = .ok vs := by
  change Except.bind _ _ = _ ↔ _ ∧ Except.bind _ _ = _
  rw [bind_eq_ok_iff, bind_eq_ok_iff]
  simp only [recoverRecords_eq_ok_iff (Reader.fromStart_new _ _ _), hread, Except.bind, foldlM_readBytes h]
  constructor
  · rintro ⟨replay, ⟨hdropped, hfold⟩, hfinish⟩
    exact ⟨hdropped, replay, hfold, hfinish⟩
  · rintro ⟨hdropped, replay, hfold, hfinish⟩
    exact ⟨replay, ⟨hdropped, hfold⟩, hfinish⟩

end Recover

/-- **Recover rebuilds the version set** from the bytes of a MANIFEST exactly if the checksums of all physical
records are those that the reader computes.  After any sequence of installed edits the version in memory is the
one that the edits describe one after the other, and so are the log numbers; `Recover` gets the same files, log
numbers and sequence number, and a next file number above all files. -/
theorem recover_rebuilds_current_iff [LinearOrder K] (addresses : Addresses) (coding : KeyCoding K)
    (comparator : String) (start : VersionSet K) (hstart : Listed start) (actions : List (LogAction K))
    (state : LogState K)
    (hrun : (descriptorLog comparator start).Run (InstallsFresh comparator) actions state)
    (hopen : state.vs.descriptorLog = true) (hencodable : ∀ edit ∈ state.manifest, Encodable coding edit) :
    ((∀ level < kNumLevels, state.vs.current level = (applied start actions).files level) ∧
      state.vs.logNumber = (applied start actions).logNumber ∧
      state.vs.prevLogNumber = (applied start actions).prevLogNumber) ∧
    ∃ w placed, Writer.addRecords addresses.checksum {} (state.manifest.map (record coding)) = some (w, placed) ∧
      List.Forall₂ Fragments (state.manifest.map (record coding)) placed ∧
      ((∀ lastRecordOffset endOfBufferOffset : UInt64,
        ∃ vs, recoverFile addresses.checksum coding comparator w.dest lastRecordOffset endOfBufferOffset = .ok vs ∧
          vs.current = state.vs.current ∧ vs.logNumber = state.vs.logNumber ∧
          vs.prevLogNumber = state.vs.prevLogNumber ∧
          vs.lastSequence = (applied start actions).savedSequence ∧
          ∀ level, ∀ f ∈ vs.current level, f.number < vs.nextFileNumber) ↔
        ∀ p ∈ placed.flatten, p.Agrees addresses.checksum) := by
  obtain ⟨hinvariant, hfollows⟩ := logInvariant_of_run hstart hrun
  refine ⟨⟨hfollows.files, hfollows.logNumber, hfollows.prevLogNumber⟩, ?_⟩
  obtain ⟨w, placed, closed, last, hadd, hwritten⟩ :=
    exists_written addresses.checksum (state.manifest.map (record coding))
  refine ⟨w, placed, hadd, hwritten.fragments, fun hrecover ↦ ?_, fun hagrees x y ↦ ?_⟩
  · obtain ⟨vs, hvs, -⟩ := hrecover 0 0
    obtain ⟨replay, hloop, -⟩ := bind_eq_ok_iff.mp hvs
    have hdropped := ((recoverRecords_eq_ok_iff (Reader.fromStart_new w.dest 0 0)).mp hloop).1
    rw [← append_nil w.dest] at hdropped
    exact hwritten.agrees_of_dropped hdropped
  · obtain ⟨vs, last, hvs, hlast, hcurrent, hlog, hprev, hsequence, hlt⟩ := (hinvariant.logged hopen).recover_eq
    have hok := (recoverFile_eq_ok_iff hencodable (hwritten.records_readAll hagrees x y)).mpr
      ⟨hwritten.dropped_readAll hagrees x y, hvs⟩
    refine ⟨vs, hok, hcurrent, hlog, hprev, ?_, hlt⟩
    exact Option.some.inj (hsequence.symm.trans (hfollows.saved last hlast))

def byteKeys : KeyCoding (Fin 256) where
  toBytes key := [UInt8.ofNat key.val]
  ofBytes bytes := Fin.ofNat 256 (bytes.headD 0).toNat
  ofBytes_toBytes key := by simp

/-- A file that is added, moved to the next level under its number and replaced there. -/
def movedFile : List (LogAction (Fin 256)) :=
  [.newFileNumber, .setLastSequence 7, .logAndApply { newFiles := [(0, ⟨2, 100, ⟨5, 7⟩, ⟨6, 8⟩⟩)] },
    .logAndApply { deletedFiles := [(0, 2)], newFiles := [(1, ⟨2, 100, ⟨5, 7⟩, ⟨6, 8⟩⟩)] },
    .newFileNumber, .setLastSequence 9,
    .logAndApply { deletedFiles := [(1, 2)], newFiles := [(1, ⟨3, 90, ⟨5, 7⟩, ⟨6, 8⟩⟩)] }]

/-- Payloads that lie at their writing as they will lie in the reader's buffer, up to a multiple of 4. -/
def matchingBuffers : Addresses := ⟨0, id, 1⟩

theorem recover_rebuilds_moved_file : ∃ state : LogState (Fin 256), state.manifest.length = 4 ∧
      (state.vs.current 1).map FileMetaData.number = [3] ∧
      ∃ w placed, Writer.addRecords matchingBuffers.checksum {} (state.manifest.map (record byteKeys)) =
          some (w, placed) ∧
        ∃ vs, recoverFile matchingBuffers.checksum byteKeys "leveldb.BytewiseComparator" w.dest 0 0 = .ok vs ∧
          vs.current = state.vs.current ∧ vs.lastSequence = 9 := by
  obtain ⟨state, hrun, hopen, hlength, hfiles, hencodable, hagrees⟩ := Machine.Run.of_exec
    (descriptorLog "leveldb.BytewiseComparator" ({} : VersionSet (Fin 256)))
    (installsFresh "leveldb.BytewiseComparator") ⟨{}, []⟩ ⟨rfl, rfl⟩ movedFile
    (fun state ↦ state.vs.descriptorLog = true ∧ state.manifest.length = 4 ∧
      (state.vs.current 1).map FileMetaData.number = [3] ∧ (∀ edit ∈ state.manifest, Encodable byteKeys edit) ∧
      (Writer.addRecords matchingBuffers.checksum {} (state.manifest.map (record byteKeys))).all
        (fun written ↦ ∀ p ∈ written.2.flatten, p.Agrees matchingBuffers.checksum) = true)
    (by decide +kernel)
  obtain ⟨-, w, placed, hadd, -, hrecover⟩ := recover_rebuilds_current_iff matchingBuffers byteKeys
    "leveldb.BytewiseComparator" {} ⟨by simp [Ordered], by simp, by simp, by simp⟩ movedFile state
    (hrun.mono fun _ _ ↦ InstallsFresh.of_test) hopen hencodable
  rw [hadd, Option.all_some, decide_eq_true_iff] at hagrees
  obtain ⟨vs, hvs, hcurrent, -, -, hsequence, -⟩ := hrecover.mpr hagrees 0 0
  exact ⟨state, hlength, hfiles, w, placed, hadd, vs, hvs, hcurrent, hsequence⟩

/-- The MANIFEST of a first `LogAndApply`: its snapshot of an empty version is taken for corrupt. -/
theorem first_manifest_is_corrupt : ∃ state : LogState (Fin 256),
      (descriptorLog "leveldb.BytewiseComparator" {}).Run (InstallsFresh "leveldb.BytewiseComparator")
        [.logAndApply {}] state ∧ state.manifest.length = 2 ∧
      ∃ w placed, Writer.addRecords alignedBuffers.checksum {} (state.manifest.map (record byteKeys)) =
          some (w, placed) ∧
        recoverFile alignedBuffers.checksum byteKeys "leveldb.BytewiseComparator" w.dest 0 0 =
          .error (.corruption "checksum mismatch") := by
  obtain ⟨state, hrun, hlength, hcorrupt⟩ := Machine.Run.of_exec
    (descriptorLog "leveldb.BytewiseComparator" ({} : VersionSet (Fin 256)))
    (installsFresh "leveldb.BytewiseComparator") ⟨{}, []⟩ ⟨rfl, rfl⟩ [.logAndApply {}]
    (fun state ↦ state.manifest.length = 2 ∧
      (Writer.addRecords alignedBuffers.checksum {} (state.manifest.map (record byteKeys))).any (fun written ↦
        match recoverFile alignedBuffers.checksum byteKeys "leveldb.BytewiseComparator" written.1.dest 0 0 with
        | .error e => e = .corruption "checksum mismatch"
        | .ok _ => false) = true)
    (by decide +kernel)
  refine ⟨state, hrun.mono fun _ _ ↦ InstallsFresh.of_test, hlength, ?_⟩
  obtain ⟨⟨w, placed⟩, hadd, herror⟩ := (Option.any_eq_true _ _).mp hcorrupt
  refine ⟨w, placed, hadd, ?_⟩
  split at herror
  · rename_i e hrecover
    rw [hrecover, of_decide_eq_true herror]
  · cases herror

end LevelDB.Db.DescriptorFile
