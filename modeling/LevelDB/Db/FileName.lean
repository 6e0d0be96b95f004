import LevelDB.Util.Logging

/-!
# File names

The names of `db/filename.cpp` as bytes.  `ParseFileName` accepts exactly the names of `Accepted`, and what it
yields for the last component of a generated name is the number and the type the name was made for
(`NameOf.accepted`).
-/

namespace LevelDB.Db.FileName

open LevelDB.Util.Logging List

inductive FileType where
  | kLogFile
  | kDBLockFile
  | kTableFile
  | kDescriptorFile
  | kCurrentFile
  | kTempFile
  /-- Either the current one, or an old one. -/
  | kInfoLogFile
  deriving DecidableEq, Repr

def makeFileName (name : List UInt8) (number : ℕ) (suffix : List UInt8) : List UInt8 :=
  name ++ (ascii "/" ++ zeroPadded 6 number ++ ascii "." ++ suffix)

/-! Each of the numbered names asserts `number > 0`; `none` is a failed assertion. -/

def logFileName (name : List UInt8) (number : ℕ) : Option (List UInt8) :=
  if 0 < number then some (makeFileName name number (ascii "log")) else none

def tableFileName (name : List UInt8) (number : ℕ) : Option (List UInt8) :=
  if 0 < number then some (makeFileName name number (ascii "sst")) else none

def descriptorFileName (dbname : List UInt8) (number : ℕ) : Option (List UInt8) :=
  if 0 < number then some (dbname ++ (ascii "/MANIFEST-" ++ zeroPadded 6 number)) else none

def currentFileName (dbname : List UInt8) : List UInt8 := dbname ++ ascii "/CURRENT"

def lockFileName (dbname : List UInt8) : List UInt8 := dbname ++ ascii "/LOCK"

def tempFileName (dbname : List UInt8) (number : ℕ) : Option (List UInt8) :=
  if 0 < number then some (makeFileName dbname number (ascii "dbtmp")) else none

def infoLogFileName (dbname : List UInt8) : List UInt8 := dbname ++ ascii "/LOG"

def oldInfoLogFileName (dbname : List UInt8) : List UInt8 := dbname ++ ascii "/LOG.old"

/-- `ParseFileName`: the number and the type, or `none` where the source returns `false`. -/
def parseFileName (fname : List UInt8) : Option (ℕ × FileType) :=
  if fname = ascii "CURRENT" then some (0, .kCurrentFile)
  else if fname = ascii "LOCK" then some (0, .kDBLockFile)
  else if fname = ascii "LOG" ∨ fname = ascii "LOG.old" then some (0, .kInfoLogFile)
  else if ascii "MANIFEST-" <+: fname then
    match consumeDecimalNumber (fname.drop (ascii "MANIFEST-").length) with
    | none => none
    | some (num, rest) => if rest = [] then some (num, .kDescriptorFile) else none
  else
    match consumeDecimalNumber fname with
    | none => none
    | some (num, suffix) =>
      if suffix = ascii ".log" then some (num, .kLogFile)
      else if suffix = ascii ".sst" then some (num, .kTableFile)
      else if suffix = ascii ".dbtmp" then some (num, .kTempFile)
      else none

/-- The names of a database directory, with their numbers and types. -/
inductive Accepted : List UInt8 → ℕ → FileType → Prop where
  | current : Accepted (ascii "CURRENT") 0 .kCurrentFile
  | lock : Accepted (ascii "LOCK") 0 .kDBLockFile
  | infoLog : Accepted (ascii "LOG") 0 .kInfoLogFile
  | oldInfoLog : Accepted (ascii "LOG.old") 0 .kInfoLogFile
  | descriptor {digits : List UInt8} {number : ℕ} (h : Decimal digits number) :
      Accepted (ascii "MANIFEST-" ++ digits) number .kDescriptorFile
  | log {digits : List UInt8} {number : ℕ} (h : Decimal digits number) :
      Accepted (digits ++ ascii ".log") number .kLogFile
  | table {digits : List UInt8} {number : ℕ} (h : Decimal digits number) :
      Accepted (digits ++ ascii ".sst") number .kTableFile
  | temp {digits : List UInt8} {number : ℕ} (h : Decimal digits number) :
      Accepted (digits ++ ascii ".dbtmp") number .kTempFile

/-- The names the generators give within a database directory. -/
inductive NameOf (dbname : List UInt8) : ℕ → FileType → List UInt8 → Prop where
  | current : NameOf dbname 0 .kCurrentFile (currentFileName dbname)
  | lock : NameOf dbname 0 .kDBLockFile (lockFileName dbname)
  | infoLog : NameOf dbname 0 .kInfoLogFile (infoLogFileName dbname)
  | oldInfoLog : NameOf dbname 0 .kInfoLogFile (oldInfoLogFileName dbname)
  | descriptor {number : ℕ} {name : List UInt8} (hlt : number < 2 ^ 64)
      (h : descriptorFileName dbname number = some name) : NameOf dbname number .kDescriptorFile name
  | log {number : ℕ} {name : List UInt8} (hlt : number < 2 ^ 64) (h : logFileName dbname number = some name) :
      NameOf dbname number .kLogFile name
  | table {number : ℕ} {name : List UInt8} (hlt : number < 2 ^ 64)
      (h : tableFileName dbname number = some name) : NameOf dbname number .kTableFile name
  | temp {number : ℕ} {name : List UInt8} (hlt : number < 2 ^ 64)
      (h : tempFileName dbname number = some name) : NameOf dbname number .kTempFile name

def lastComponent (path : List UInt8) : List UInt8 := (path.reverse.takeWhile (· ≠ 47)).reverse

/-- A name that starts with a digit is not one of the names without a number, nor a descriptor's. -/
theorem starts_with_digit {digits : List UInt8} {number : ℕ} (h : Decimal digits number) (rest : List UInt8) :
    ∃ c tail, digits ++ rest = c :: tail ∧ c ≠ 67 ∧ c ≠ 76 ∧ c ≠ 77 := by
  obtain ⟨c, tail, rfl⟩ := exists_cons_of_ne_nil h.ne_nil
  have hdigit := of_decide_eq_true (h.digit c mem_cons_self)
  refine ⟨c, tail ++ rest, rfl, ?_, ?_, ?_⟩ <;>
  · rintro rfl
    exact absurd hdigit (by decide)

theorem parseFileName_digits {digits rest : List UInt8} {number : ℕ} (h : Decimal digits number)
    (hrest : NoDigit rest) :
    parseFileName (digits ++ rest) = if rest = ascii ".log" then some (number, .kLogFile)
      else if rest = ascii ".sst" then some (number, .kTableFile)
      else if rest = ascii ".dbtmp" then some (number, .kTempFile)
      else none := by
  have hconsume := consumeDecimalNumber_eq_some.mpr ⟨digits, rfl, h, hrest⟩
  obtain ⟨c, tail, heq, hC, hL, hM⟩ := starts_with_digit h rest
  rw [heq] at hconsume ⊢
  have hcurrent : c :: tail ≠ ascii "CURRENT" := fun hname ↦ hC (List.cons.inj hname).1
  have hlock : c :: tail ≠ ascii "LOCK" := fun hname ↦ hL (List.cons.inj hname).1
  have hlog : ¬(c :: tail = ascii "LOG" ∨ c :: tail = ascii "LOG.old") := by
    rintro (hname | hname) <;> exact hL (List.cons.inj hname).1
  have hmanifest : ¬ascii "MANIFEST-" <+: c :: tail := by
    rintro ⟨t, ht⟩
    exact hM (List.cons.inj ht).1.symm
  rw [parseFileName, if_neg hcurrent, if_neg hlock, if_neg hlog, if_neg hmanifest, hconsume]

theorem parseFileName_manifest {digits : List UInt8} {number : ℕ} (h : Decimal digits number) :
    parseFileName (ascii "MANIFEST-" ++ digits) = some (number, .kDescriptorFile) := by
  have hconsume := consumeDecimalNumber_eq_some.mpr
    ⟨digits, (append_nil _).symm, h, fun c hc ↦ (Option.not_mem_none c hc).elim⟩
  have hcurrent : ascii "MANIFEST-" ++ digits ≠ ascii "CURRENT" :=
    fun hname ↦ absurd (List.cons.inj hname).1 (by decide)
  have hlock : ascii "MANIFEST-" ++ digits ≠ ascii "LOCK" :=
    fun hname ↦ absurd (List.cons.inj hname).1 (by decide)
  have hlog : ¬(ascii "MANIFEST-" ++ digits = ascii "LOG" ∨ ascii "MANIFEST-" ++ digits = ascii "LOG.old") := by
    rintro (hname | hname) <;> exact absurd (List.cons.inj hname).1 (by decide)
  rw [parseFileName, if_neg hcurrent, if_neg hlock, if_neg hlog, if_pos (prefix_append _ _),
    drop_left, hconsume]
  rfl

theorem Accepted.parse {fname : List UInt8} {number : ℕ} {type : FileType} (h : Accepted fname number type) :
    parseFileName fname = some (number, type) := by
  have hdot : ∀ suffix : List UInt8, NoDigit (46 :: suffix) := by
    rintro suffix c ⟨⟩
    rfl
  cases h with
  | current => rfl
  | lock => rfl
  | infoLog => rfl
  | oldInfoLog => rfl
  | descriptor h => exact parseFileName_manifest h
  | log h => exact parseFileName_digits h (hdot _)
  | table h => exact parseFileName_digits h (hdot _)
  | temp h => exact parseFileName_digits h (hdot _)

theorem accepted_of_parse {fname : List UInt8} {number : ℕ} {type : FileType}
    (h : parseFileName fname = some (number, type)) : Accepted fname number type := by
  unfold parseFileName at h
  by_cases hcurrent : fname = ascii "CURRENT"
  · rw [if_pos hcurrent] at h
    cases h
    exact hcurrent ▸ .current
  rw [if_neg hcurrent] at h
  by_cases hlock : fname = ascii "LOCK"
  · rw [if_pos hlock] at h
    cases h
    exact hlock ▸ .lock
  rw [if_neg hlock] at h
  by_cases hlog : fname = ascii "LOG" ∨ fname = ascii "LOG.old"
  · rw [if_pos hlog] at h
    cases h
    rcases hlog with rfl | rfl
    · exact .infoLog
    · exact .oldInfoLog
  rw [if_neg hlog] at h
  by_cases hmanifest : ascii "MANIFEST-" <+: fname
  · rw [if_pos hmanifest] at h
    obtain ⟨tail, rfl⟩ := hmanifest
    rw [drop_left] at h
    split at h
    · cases h
    · rename_i num rest hconsume
      obtain ⟨digits, rfl, hdecimal, -⟩ := consumeDecimalNumber_eq_some.mp hconsume
      split at h
      · rename_i hrest
        cases h
        rw [hrest, append_nil]
        exact .descriptor hdecimal
      · cases h
  · rw [if_neg hmanifest] at h
    split at h
    · cases h
    · rename_i num rest hconsume
      obtain ⟨digits, rfl, hdecimal, -⟩ := consumeDecimalNumber_eq_some.mp hconsume
      split at h
      · rename_i hrest
        cases h
        exact hrest ▸ .log hdecimal
      split at h
      · rename_i hrest
        cases h
        exact hrest ▸ .table hdecimal
      split at h
      · rename_i hrest
        cases h
        exact hrest ▸ .temp hdecimal
      · cases h

theorem lastComponent_append (dbname : List UInt8) {name : List UInt8} (hname : (47 : UInt8) ∉ name) :
    lastComponent (dbname ++ 47 :: name) = name := by
  have hall : ∀ c ∈ name.reverse, decide (c ≠ 47) = true := by
    intro c hc
    rw [decide_eq_true_iff]
    rintro rfl
    exact hname (mem_reverse.mp hc)
  rw [lastComponent, reverse_append, reverse_cons, append_assoc,
    takeWhile_append_of_pos hall, singleton_append, takeWhile_cons_of_neg (by decide),
    append_nil, reverse_reverse]

theorem slash_not_mem_zeroPadded {number : ℕ} (h : number < 2 ^ 64) : (47 : UInt8) ∉ zeroPadded 6 number :=
  fun hmem ↦ absurd ((decimal_zeroPadded 6 h).digit 47 hmem) (by decide)

theorem lastComponent_makeFileName {number : ℕ} (h : number < 2 ^ 64) {suffix : List UInt8}
    (hsuffix : (47 : UInt8) ∉ suffix) (dbname : List UInt8) :
    lastComponent (makeFileName dbname number suffix) = zeroPadded 6 number ++ (46 :: suffix) := by
  have hnot : (47 : UInt8) ∉ zeroPadded 6 number ++ (46 :: suffix) := by
    rw [mem_append, mem_cons]
    rintro (hmem | hmem | hmem)
    · exact slash_not_mem_zeroPadded h hmem
    · exact absurd hmem (by decide)
    · exact hsuffix hmem
  rw [makeFileName, ← lastComponent_append dbname hnot, append_assoc, append_assoc]
  rfl

theorem NameOf.accepted {dbname name : List UInt8} {number : ℕ} {type : FileType}
    (h : NameOf dbname number type name) : Accepted (lastComponent name) number type := by
  cases h with
  | current => exact (lastComponent_append dbname (show 47 ∉ ascii "CURRENT" by decide)).symm ▸ .current
  | lock => exact (lastComponent_append dbname (show 47 ∉ ascii "LOCK" by decide)).symm ▸ .lock
  | infoLog => exact (lastComponent_append dbname (show 47 ∉ ascii "LOG" by decide)).symm ▸ .infoLog
  | oldInfoLog => exact (lastComponent_append dbname (show 47 ∉ ascii "LOG.old" by decide)).symm ▸ .oldInfoLog
  | descriptor hlt h =>
    obtain ⟨-, ⟨⟩⟩ := Option.ite_none_right_eq_some.mp h
    have hnot : (47 : UInt8) ∉ ascii "MANIFEST-" ++ zeroPadded 6 number := by
      rw [mem_append]
      rintro (hmem | hmem)
      · exact absurd hmem (by decide)
      · exact slash_not_mem_zeroPadded hlt hmem
    exact (lastComponent_append dbname hnot).symm ▸ .descriptor (decimal_zeroPadded 6 hlt)
  | log hlt h =>
    obtain ⟨-, ⟨⟩⟩ := Option.ite_none_right_eq_some.mp h
    exact (lastComponent_makeFileName hlt (show 47 ∉ ascii "log" by decide) dbname).symm ▸
      .log (decimal_zeroPadded 6 hlt)
  | table hlt h =>
    obtain ⟨-, ⟨⟩⟩ := Option.ite_none_right_eq_some.mp h
    exact (lastComponent_makeFileName hlt (show 47 ∉ ascii "sst" by decide) dbname).symm ▸
      .table (decimal_zeroPadded 6 hlt)
  | temp hlt h =>
    obtain ⟨-, ⟨⟩⟩ := Option.ite_none_right_eq_some.mp h
    exact (lastComponent_makeFileName hlt (show 47 ∉ ascii "dbtmp" by decide) dbname).symm ▸
      .temp (decimal_zeroPadded 6 hlt)

/-- The parser accepts exactly the names of a database directory and inverts every generated name, so that names
of different numbers or types differ. -/
theorem parseFileName_exact :
    (∀ fname number type, parseFileName fname = some (number, type) ↔ Accepted fname number type) ∧
    (∀ dbname number, 0 < number → number < 2 ^ 64 → (∃ name, logFileName dbname number = some name ∧
        parseFileName (lastComponent name) = some (number, .kLogFile)) ∧
      (∃ name, tableFileName dbname number = some name ∧
        parseFileName (lastComponent name) = some (number, .kTableFile)) ∧
      (∃ name, descriptorFileName dbname number = some name ∧
        parseFileName (lastComponent name) = some (number, .kDescriptorFile)) ∧
      (∃ name, tempFileName dbname number = some name ∧
        parseFileName (lastComponent name) = some (number, .kTempFile))) ∧
    (∀ dbname number₁ type₁ number₂ type₂ name,
      NameOf dbname number₁ type₁ name → NameOf dbname number₂ type₂ name →
        number₁ = number₂ ∧ type₁ = type₂) := by
  refine ⟨fun fname number type ↦ ⟨accepted_of_parse, Accepted.parse⟩, ?_, ?_⟩
  · intro dbname number hpos hlt
    have hlog : logFileName dbname number = _ := if_pos hpos
    have htable : tableFileName dbname number = _ := if_pos hpos
    have hdescriptor : descriptorFileName dbname number = _ := if_pos hpos
    have htemp : tempFileName dbname number = _ := if_pos hpos
    exact ⟨⟨_, hlog, (NameOf.log hlt hlog).accepted.parse⟩, ⟨_, htable, (NameOf.table hlt htable).accepted.parse⟩,
      ⟨_, hdescriptor, (NameOf.descriptor hlt hdescriptor).accepted.parse⟩,
      ⟨_, htemp, (NameOf.temp hlt htemp).accepted.parse⟩⟩
  · intro dbname number₁ type₁ number₂ type₂ name h₁ h₂
    have heq := h₁.accepted.parse.symm.trans h₂.accepted.parse
    exact Prod.mk.inj (Option.some.inj heq)

theorem parseFileName_log_seven : ∃ name, logFileName (ascii "/db") 7 = some name ∧
      parseFileName (lastComponent name) = some (7, .kLogFile) :=
  (parseFileName_exact.2.1 (ascii "/db") 7 (by decide) (by decide)).1

end LevelDB.Db.FileName
