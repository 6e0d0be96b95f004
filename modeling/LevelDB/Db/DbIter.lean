import LevelDB.Db.Format
import LevelDB.Library.Iterators

/-!
# The user-level iterator

`DBIter` of `db/db_iter.cpp`.  It combines the internal entries of a user key into at most one pair of a
user key and a value, as of a sequence number.  It is written over any internal iterator.  Its loops have
a fuel argument, and a call that the source does not return from has no result for any fuel.
-/

namespace LevelDB.Db.DbIter

open Format Library

/-- Which direction is the iterator currently moving?  When it moves forward, the internal iterator is
at the entry that yields `key()` and `value()`; when it moves backwards, the internal iterator is just
before all entries whose user key is `key()`. -/
inductive Direction where
  | kForward
  | kReverse
  deriving DecidableEq, Repr

variable {σ K V : Type*}

/-- The members that change.  `saved` is `saved_key_` with `saved_value_` while they are the current key
and value of a reverse scan; what the source keeps in them in between is an argument of the loops. -/
structure DBIter (σ K V : Type*) where
  iter : σ
  direction : Direction
  valid : Bool
  saved : Option (K × V)
  status : Option String
  deriving DecidableEq, Repr

/-- The message of `Status::Corruption` in `ParseKey`. -/
def corruptedKey : String := "corrupted internal key in DBIter"

def new (iter : σ) : DBIter σ K V := ⟨iter, .kForward, false, none, none⟩

inductive Call (K : Type*) where
  | seekToFirst
  | seekToLast
  | seek (target : K)
  | next
  | prev
  deriving DecidableEq, Repr

/-- `Next` and `Prev` assert `valid_`. -/
def DBIter.allows (it : DBIter σ K V) : Call K → Bool
  | .next => it.valid
  | .prev => it.valid
  | _ => true

variable [LinearOrder K] (I : Iterator σ (Entry K V) (InternalKey K)) (sequence : ℕ)

/-- `key()` and `value()` while the iterator is valid. -/
def current (it : DBIter σ K V) : Option (K × V) :=
  if it.valid then
    match it.direction with
    | .kForward => (I.get it.iter).map fun e ↦ (e.userKey, e.value)
    | .kReverse => it.saved
  else none

/-- The loop of `FindNextUserEntry`; `skip` is the key to skip while `skipping`. -/
def findNextUserEntry : ℕ → Option K → DBIter σ K V → Option (DBIter σ K V)
  | 0, _, _ => none
  | fuel + 1, skip, it =>
    match I.get it.iter with
    | none => some { it with valid := false, saved := none }
    | some e =>
      match parseInternalKey e.key with
      | none =>
        findNextUserEntry fuel skip { it with iter := I.next it.iter, status := some corruptedKey }
      | some ikey =>
        if ikey.sequence ≤ sequence then
          match ikey.type with
          | .kTypeDeletion =>
            -- skip all upcoming entries for this key since they are hidden by this deletion
            findNextUserEntry fuel (some ikey.userKey) { it with iter := I.next it.iter }
          | .kTypeValue =>
            if skip.any fun key ↦ ikey.userKey ≤ key then
              findNextUserEntry fuel skip { it with iter := I.next it.iter }
            else some { it with valid := true, saved := none }
        else findNextUserEntry fuel skip { it with iter := I.next it.iter }

def savedOf (type : ValueType) (e : Entry K V) : Option (K × V) :=
  match type with
  | .kTypeDeletion => none
  | .kTypeValue => some (e.userKey, e.value)

/-- The loop of `FindPrevUserEntry`; `saved` is empty while `value_type` is `kTypeDeletion`. -/
def findPrevLoop : ℕ → Option (K × V) → DBIter σ K V → Option (DBIter σ K V)
  | 0, _, _ => none
  | fuel + 1, saved, it =>
    match I.get it.iter with
    | none => some { it with saved := saved }
    | some e =>
      match parseInternalKey e.key with
      -- `iter_->Prev()` stands inside the test of the source, so the internal iterator stays here
      | none => findPrevLoop fuel saved { it with status := some corruptedKey }
      | some ikey =>
        if ikey.sequence ≤ sequence then
          if saved.any fun pair ↦ ikey.userKey < pair.1 then some { it with saved := saved }
          else
            findPrevLoop fuel (savedOf ikey.type e) { it with iter := I.prev it.iter }
        else findPrevLoop fuel saved it

def findPrevUserEntry (fuel : ℕ) (it : DBIter σ K V) : Option (DBIter σ K V) :=
  (findPrevLoop I sequence fuel none it).map fun it ↦
    match it.saved with
    | none => { it with valid := false, direction := .kForward }
    | some _ => { it with valid := true }

/-- The loop of `Prev` that leaves the entries of `key`. -/
def leaveKey (key : K) : ℕ → σ → Option σ
  | 0, _ => none
  | fuel + 1, iter =>
    match I.get (I.prev iter) with
    | none => some (I.prev iter)
    | some e => if e.userKey < key then some (I.prev iter) else leaveKey key fuel (I.prev iter)

/-- The body of `Next` from where the internal iterator is at an entry of the current key. -/
def skipCurrent (fuel : ℕ) (it : DBIter σ K V) : Option (DBIter σ K V) :=
  (I.get it.iter).bind fun e ↦ findNextUserEntry I sequence fuel (some e.userKey) it

def next (fuel : ℕ) (it : DBIter σ K V) : Option (DBIter σ K V) :=
  match it.direction with
  | .kForward => skipCurrent I sequence fuel it
  | .kReverse =>
    -- advance into the range of entries for the current key
    let iter := if (I.get it.iter).isNone then I.seekToFirst it.iter else I.next it.iter
    if (I.get iter).isNone then
      some { it with iter := iter, direction := .kForward, valid := false, saved := none }
    else skipCurrent I sequence fuel { it with iter := iter, direction := .kForward }

def prev (fuel : ℕ) (it : DBIter σ K V) : Option (DBIter σ K V) :=
  match it.direction with
  | .kReverse => findPrevUserEntry I sequence fuel it
  | .kForward =>
    (I.get it.iter).bind fun e ↦ (leaveKey I e.userKey fuel it.iter).bind fun iter ↦
      if (I.get iter).isNone then some { it with iter := iter, valid := false, saved := none }
      else findPrevUserEntry I sequence fuel { it with iter := iter, direction := .kReverse }

/-- The common end of `Seek` and `SeekToFirst`. -/
def forwardFrom (fuel : ℕ) (iter : σ) (it : DBIter σ K V) : Option (DBIter σ K V) :=
  if (I.get iter).isNone then
    some { it with iter := iter, direction := .kForward, valid := false, saved := none }
  else findNextUserEntry I sequence fuel none { it with iter := iter, direction := .kForward }

def seek (fuel : ℕ) (target : K) (it : DBIter σ K V) : Option (DBIter σ K V) :=
  forwardFrom I sequence fuel (I.seek (lookupKey target sequence) it.iter) it

def seekToFirst (fuel : ℕ) (it : DBIter σ K V) : Option (DBIter σ K V) :=
  forwardFrom I sequence fuel (I.seekToFirst it.iter) it

def seekToLast (fuel : ℕ) (it : DBIter σ K V) : Option (DBIter σ K V) :=
  findPrevUserEntry I sequence fuel
    { it with iter := I.seekToLast it.iter, direction := .kReverse }

def call (fuel : ℕ) (it : DBIter σ K V) : Call K → Option (DBIter σ K V)
  | .seekToFirst => seekToFirst I sequence fuel it
  | .seekToLast => seekToLast I sequence fuel it
  | .seek target => seek I sequence fuel target it
  | .next => next I sequence fuel it
  | .prev => prev I sequence fuel it

/-- A sequence of calls on a new iterator that all return, and the state after it. -/
inductive Run : List (Call K) → DBIter σ K V → Prop
  | new (iter : σ) : Run [] (new iter)
  | call {calls : List (Call K)} {it it' : DBIter σ K V} {c : Call K} {fuel : ℕ} :
      Run calls it → it.allows c = true → call I sequence fuel it c = some it' → Run (calls ++ [c]) it'

def Returns (it : DBIter σ K V) (c : Call K) : Prop := ∃ fuel it', call I sequence fuel it c = some it'

section Simulation

variable {ρ : Type*} {I} {J : Iterator ρ (Entry K V) (InternalKey K)} {R : σ → ρ → Prop} {sequence}

/-- The same but for related internal iterators. -/
structure Related (R : σ → ρ → Prop) (it : DBIter σ K V) (jt : DBIter ρ K V) : Prop where
  iter : R it.iter jt.iter
  direction : it.direction = jt.direction
  valid : it.valid = jt.valid
  saved : it.saved = jt.saved
  status : it.status = jt.status

variable (hsim : Iterator.Simulates I J R) {it : DBIter σ K V} {jt : DBIter ρ K V}

include hsim

omit [LinearOrder K] in
theorem Related.current_eq (h : Related R it jt) : current I it = current J jt := by
  rw [current, current, h.valid, h.direction, h.saved, hsim.get h.iter]

theorem findNextUserEntry_rel {fuel : ℕ} {skip : Option K} (h : Related R it jt) :
    Option.Rel (Related R) (findNextUserEntry I sequence fuel skip it)
      (findNextUserEntry J sequence fuel skip jt) := by
  induction fuel generalizing skip it jt with
  | zero => exact .none
  | succ fuel ih =>
    rw [findNextUserEntry, findNextUserEntry, hsim.get h.iter]
    cases hget : J.get jt.iter with
    | none => exact .some { h with valid := rfl, saved := rfl }
    | some e =>
      have hnext := hsim.next h.iter (by rw [hget]; rfl)
      dsimp only
      split
      · exact ih { h with iter := hnext, status := rfl }
      · split
        · split
          · exact ih { h with iter := hnext }
          · split
            · exact ih { h with iter := hnext }
            · exact .some { h with valid := rfl, saved := rfl }
        · exact ih { h with iter := hnext }

theorem findPrevLoop_rel {fuel : ℕ} {saved : Option (K × V)} (h : Related R it jt) :
    Option.Rel (Related R) (findPrevLoop I sequence fuel saved it)
      (findPrevLoop J sequence fuel saved jt) := by
  induction fuel generalizing saved it jt with
  | zero => exact .none
  | succ fuel ih =>
    rw [findPrevLoop, findPrevLoop, hsim.get h.iter]
    cases hget : J.get jt.iter with
    | none => exact .some { h with saved := rfl }
    | some e =>
      have hprev := hsim.prev h.iter (by rw [hget]; rfl)
      dsimp only
      split
      · exact ih { h with status := rfl }
      · split
        · split
          · exact .some { h with saved := rfl }
          · exact ih { h with iter := hprev }
        · exact ih h

theorem findPrevUserEntry_rel {fuel : ℕ} (h : Related R it jt) :
    Option.Rel (Related R) (findPrevUserEntry I sequence fuel it)
      (findPrevUserEntry J sequence fuel jt) := by
  have hloop : Option.Rel (Related R) (findPrevLoop I sequence fuel none it)
      (findPrevLoop J sequence fuel none jt) := findPrevLoop_rel hsim h
  unfold findPrevUserEntry
  generalize findPrevLoop I sequence fuel none it = a at hloop ⊢
  generalize findPrevLoop J sequence fuel none jt = b at hloop ⊢
  cases hloop with
  | none => exact .none
  | @some it jt hloop =>
    refine .some ?_
    dsimp only
    rw [hloop.saved]
    split
    · exact { hloop with direction := rfl, valid := rfl, saved := rfl }
    · exact { hloop with valid := rfl, saved := rfl }

theorem leaveKey_rel {key : K} {fuel : ℕ} {a : σ} {b : ρ} (h : R a b) (hvalid : (J.get b).isSome) :
    Option.Rel R (leaveKey I key fuel a) (leaveKey J key fuel b) := by
  induction fuel generalizing a b with
  | zero => exact .none
  | succ fuel ih =>
    have hprev := hsim.prev h hvalid
    rw [leaveKey, leaveKey, hsim.get hprev]
    cases hget : J.get (J.prev b) with
    | none => exact .some hprev
    | some e =>
      dsimp only
      split
      · exact .some hprev
      · exact ih hprev (by rw [hget]; rfl)

theorem skipCurrent_rel {fuel : ℕ} (h : Related R it jt) :
    Option.Rel (Related R) (skipCurrent I sequence fuel it) (skipCurrent J sequence fuel jt) := by
  rw [skipCurrent, skipCurrent, hsim.get h.iter]
  cases J.get jt.iter with
  | none => exact .none
  | some e => exact findNextUserEntry_rel hsim h

theorem forwardFrom_rel {fuel : ℕ} {a : σ} {b : ρ} (hab : R a b) (h : Related R it jt) :
    Option.Rel (Related R) (forwardFrom I sequence fuel a it) (forwardFrom J sequence fuel b jt) := by
  rw [forwardFrom, forwardFrom, hsim.get hab]
  split
  · exact .some { h with iter := hab, direction := rfl, valid := rfl, saved := rfl }
  · exact findNextUserEntry_rel hsim { h with iter := hab, direction := rfl }

theorem next_rel {fuel : ℕ} (h : Related R it jt) :
    Option.Rel (Related R) (next I sequence fuel it) (next J sequence fuel jt) := by
  rw [next, next, h.direction]
  cases jt.direction with
  | kForward => exact skipCurrent_rel hsim h
  | kReverse =>
    have hiter : R (if (I.get it.iter).isNone then I.seekToFirst it.iter else I.next it.iter)
        (if (J.get jt.iter).isNone then J.seekToFirst jt.iter else J.next jt.iter) := by
      rw [hsim.get h.iter]
      split
      · exact hsim.seekToFirst h.iter
      · rename_i hsome
        rw [Option.isNone_iff_eq_none, ← ne_eq, Option.ne_none_iff_isSome] at hsome
        exact hsim.next h.iter hsome
    dsimp only
    generalize (if (I.get it.iter).isNone then I.seekToFirst it.iter else I.next it.iter) = a at hiter ⊢
    generalize (if (J.get jt.iter).isNone then J.seekToFirst jt.iter else J.next jt.iter) = b at hiter ⊢
    rw [hsim.get hiter]
    split
    · exact .some { h with iter := hiter, direction := rfl, valid := rfl, saved := rfl }
    · exact skipCurrent_rel hsim { h with iter := hiter, direction := rfl }

theorem prev_rel {fuel : ℕ} (h : Related R it jt) :
    Option.Rel (Related R) (prev I sequence fuel it) (prev J sequence fuel jt) := by
  rw [prev, prev, h.direction]
  cases jt.direction with
  | kReverse => exact findPrevUserEntry_rel hsim h
  | kForward =>
    rw [hsim.get h.iter]
    cases hget : J.get jt.iter with
    | none => exact .none
    | some e =>
      have hleave : Option.Rel R (leaveKey I e.userKey fuel it.iter) (leaveKey J e.userKey fuel jt.iter) :=
        leaveKey_rel hsim h.iter (by rw [hget]; rfl)
      simp only [Option.bind_some]
      generalize leaveKey I e.userKey fuel it.iter = a at hleave ⊢
      generalize leaveKey J e.userKey fuel jt.iter = b at hleave ⊢
      cases hleave with
      | none => exact .none
      | some hiter =>
        simp only [Option.bind_some, hsim.get hiter]
        split
        · exact .some { h with iter := hiter, direction := rfl, valid := rfl, saved := rfl }
        · exact findPrevUserEntry_rel hsim { h with iter := hiter, direction := rfl }

/-- A call does the same over related internal iterators. -/
theorem call_rel {fuel : ℕ} (h : Related R it jt) (c : Call K) :
    Option.Rel (Related R) (call I sequence fuel it c) (call J sequence fuel jt c) := by
  cases c with
  | seekToFirst => exact forwardFrom_rel hsim (hsim.seekToFirst h.iter) h
  | seekToLast =>
    exact findPrevUserEntry_rel hsim { h with iter := hsim.seekToLast h.iter, direction := rfl }
  | seek target => exact forwardFrom_rel hsim (hsim.seek _ h.iter) h
  | next => exact next_rel hsim h
  | prev => exact prev_rel hsim h

end Simulation

end LevelDB.Db.DbIter
