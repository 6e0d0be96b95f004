import LevelDB.Db.EngineReads

/-!
# Replayed writes

What the database is for, without sequence numbers: a map from user keys to values, changed by one record
after another.  The newest write to a user key up to a sequence number is what the map holds after the
records up to that number.
-/

namespace LevelDB.Db.Engine

open Format Lookup Library List Function

variable {K V : Type*} [LinearOrder K]

def WriteOp.apply (contents : K → Option V) : WriteOp K V → K → Option V
  | .put key value => update contents key (some value)
  | .delete key => update contents key none

def replay (contents : K → Option V) (ops : List (WriteOp K V)) : K → Option V :=
  ops.foldl WriteOp.apply contents

theorem replay_append (contents : K → Option V) (ops ops' : List (WriteOp K V)) :
    replay contents (ops ++ ops') = replay (replay contents ops) ops' :=
  foldl_append

def valueAt (writes : List (Entry K V)) (s : ℕ) (userKey : K) : Option V :=
  (writes.reverse.find? fun e ↦ decide (e.userKey = userKey ∧ e.sequence ≤ s)).bind Entry.resolve

omit [LinearOrder K] in
theorem GetStatus.ofResolved_injective : Injective (GetStatus.ofResolved (V := V)) := by
  intro x y h
  cases x <;> cases y <;> simp_all [GetStatus.ofResolved]

/-- On writes with increasing sequence numbers this is the only result of a read. -/
theorem resolves_iff_valueAt {writes : List (Entry K V)} (hparse : ∀ e ∈ writes, e.type.isSome)
    (hincreasing : writes.Pairwise fun a b ↦ a.sequence < b.sequence) {userKey : K} {s : ℕ}
    {result : Option V} :
    Resolves {e | e ∈ writes} userKey s result ↔ result = valueAt writes s userKey := by
  obtain ⟨value, hget, hvalue⟩ := @History.resolves_get _ _ _ ⟨0, writes⟩ hparse hincreasing userKey s
  have heq : valueAt writes s userKey = value := GetStatus.ofResolved_injective hget
  rw [heq]
  constructor
  · intro hresult
    exact resolves_unique hincreasing hresult hvalue
  · rintro rfl
    exact hvalue

section Batches

variable [Inhabited V]

theorem WriteOp.apply_eq (contents : K → Option V) (op : WriteOp K V) (sequence : ℕ) (userKey : K) :
    op.apply contents userKey =
      if (op.entry sequence).userKey = userKey then (op.entry sequence).resolve else contents userKey := by
  cases op with
  | put key value =>
    have hresolve : (WriteOp.entry (.put key value) sequence).resolve = some value := by
      simp [WriteOp.entry, Entry.resolve, Entry.type]
    rw [hresolve, WriteOp.apply, update_apply]
    simp only [eq_comm]
    rfl
  | delete key =>
    have hresolve : (WriteOp.entry (.delete key : WriteOp K V) sequence).resolve = none := by
      simp [WriteOp.entry, Entry.resolve, Entry.type]
    rw [hresolve, WriteOp.apply, update_apply]
    simp only [eq_comm]
    rfl

/-- A later write within the sequence number changes the contents as its record does. -/
theorem valueAt_append_entry (writes : List (Entry K V)) (op : WriteOp K V) {sequence s : ℕ}
    (hle : sequence ≤ s) : valueAt (writes ++ [op.entry sequence]) s = op.apply (valueAt writes s) := by
  funext userKey
  have hsequence : (op.entry sequence).sequence ≤ s := (op.entry_sequence sequence).trans_le hle
  rw [op.apply_eq _ sequence, valueAt, reverse_append, reverse_singleton, singleton_append, find?_cons]
  by_cases huser : (op.entry sequence).userKey = userKey
  · simp [huser, hsequence]
  · simp [huser, valueAt]

/-- A batch within the sequence number changes the contents as its records do. -/
theorem valueAt_append_batch (writes : List (Entry K V)) {ops : List (WriteOp K V)} {sequence s : ℕ}
    (hle : sequence + ops.length ≤ s + 1) :
    valueAt (writes ++ batchEntries sequence ops) s = replay (valueAt writes s) ops := by
  induction ops generalizing writes sequence with
  | nil => rw [batchEntries, append_nil]; rfl
  | cons op rest ih =>
    rw [length_cons] at hle
    have hlast : sequence + 1 + rest.length ≤ s + 1 := by omega
    have hrest := ih (writes ++ [op.entry sequence]) hlast
    rw [valueAt_append_entry writes op (by omega), append_assoc] at hrest
    exact hrest

omit [Inhabited V] in
/-- Writes beyond the sequence number are not seen. -/
theorem valueAt_append_of_lt (writes : List (Entry K V)) {later : List (Entry K V)} {s : ℕ}
    (hlater : ∀ e ∈ later, s < e.sequence) : valueAt (writes ++ later) s = valueAt writes s := by
  funext userKey
  have hnone : later.reverse.find? (fun e ↦ decide (e.userKey = userKey ∧ e.sequence ≤ s)) = none := by
    rw [find?_eq_none]
    intro e he hmatch
    have hlt := hlater e (mem_reverse.mp he)
    have hle := (of_decide_eq_true hmatch).2
    omega
  rw [valueAt, reverse_append, find?_append, hnone, Option.none_or]
  rfl

end Batches

end LevelDB.Db.Engine
