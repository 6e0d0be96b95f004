import Mathlib.Data.List.Basic
import Mathlib.Data.Option.Basic
import Mathlib.Tactic

/-!
# Iterators and list cursors

An iterator is given by its operations on a state.  The reference is the cursor over a list, which is at
an index of the list or not valid; on a list that is strictly sorted by a key, where it goes is also given
by keys.  An iterator is faithful when it simulates such a cursor.
-/

namespace LevelDB.Library

open List

/-- The operations of an iterator over elements `α` with a seek by targets `τ`.  It is valid when `get`
has an element, and `next` and `prev` are only meant for a valid one. -/
structure Iterator (σ α τ : Type*) where
  get : σ → Option α
  seekToFirst : σ → σ
  seekToLast : σ → σ
  seek : τ → σ → σ
  next : σ → σ
  prev : σ → σ

namespace Iterator

variable {σ ρ α τ : Type*}

/-- Related states show the same element, and the operations keep them related. -/
structure Simulates (I : Iterator σ α τ) (J : Iterator ρ α τ) (R : σ → ρ → Prop) : Prop where
  get : ∀ {a b}, R a b → I.get a = J.get b
  seekToFirst : ∀ {a b}, R a b → R (I.seekToFirst a) (J.seekToFirst b)
  seekToLast : ∀ {a b}, R a b → R (I.seekToLast a) (J.seekToLast b)
  seek : ∀ {a b} (t : τ), R a b → R (I.seek t a) (J.seek t b)
  next : ∀ {a b}, R a b → (J.get b).isSome → R (I.next a) (J.next b)
  prev : ∀ {a b}, R a b → (J.get b).isSome → R (I.prev a) (J.prev b)

theorem Simulates.refl (I : Iterator σ α τ) : Simulates I I Eq where
  get h := congrArg I.get h
  seekToFirst h := congrArg I.seekToFirst h
  seekToLast h := congrArg I.seekToLast h
  seek t h := congrArg (I.seek t) h
  next h _ := congrArg I.next h
  prev h _ := congrArg I.prev h

inductive Call (τ : Type*) where
  | seekToFirst
  | seekToLast
  | seek (t : τ)
  | next
  | prev
  deriving DecidableEq, Repr

def apply (I : Iterator σ α τ) (state : σ) : Call τ → σ
  | .seekToFirst => I.seekToFirst state
  | .seekToLast => I.seekToLast state
  | .seek t => I.seek t state
  | .next => I.next state
  | .prev => I.prev state

def permits (I : Iterator σ α τ) (state : σ) : Call τ → Bool
  | .next | .prev => (I.get state).isSome
  | _ => true

def run (I : Iterator σ α τ) : σ → List (Call τ) → σ := List.foldl I.apply

/-- Each call of the sequence may be made where the earlier ones lead. -/
def allows (I : Iterator σ α τ) : σ → List (Call τ) → Bool
  | _, [] => true
  | state, call :: calls => I.permits state call && I.allows (I.apply state call) calls

theorem Simulates.apply {I : Iterator σ α τ} {J : Iterator ρ α τ} {R : σ → ρ → Prop}
    (h : Simulates I J R) {a : σ} {b : ρ} (hR : R a b) {call : Call τ} (hcall : I.permits a call = true) :
    R (I.apply a call) (J.apply b call) := by
  cases call with
  | seekToFirst => exact h.seekToFirst hR
  | seekToLast => exact h.seekToLast hR
  | seek t => exact h.seek t hR
  | next => exact h.next hR (h.get hR ▸ hcall)
  | prev => exact h.prev hR (h.get hR ▸ hcall)

/-- A relation that some kinds of calls keep is kept by every sequence of such calls. -/
theorem run_related {I : Iterator σ α τ} {J : Iterator ρ α τ} {R : σ → ρ → Prop} {P : Call τ → Prop}
    (happly : ∀ {a b call}, R a b → P call → I.permits a call = true → R (I.apply a call) (J.apply b call))
    {a : σ} {b : ρ} (hR : R a b) {calls : List (Call τ)} (hP : ∀ call ∈ calls, P call)
    (hcalls : I.allows a calls = true) : R (I.run a calls) (J.run b calls) := by
  induction calls generalizing a b with
  | nil => exact hR
  | cons call calls ih =>
    obtain ⟨hcall, hcalls⟩ := Bool.and_eq_true_iff.mp hcalls
    have hnext := happly hR (hP call mem_cons_self) hcall
    exact ih hnext (fun c hc ↦ hP c (mem_cons_of_mem call hc)) hcalls

theorem Simulates.run {I : Iterator σ α τ} {J : Iterator ρ α τ} {R : σ → ρ → Prop}
    (h : Simulates I J R) {a : σ} {b : ρ} (hR : R a b) {calls : List (Call τ)}
    (hcalls : I.allows a calls = true) : R (I.run a calls) (J.run b calls) :=
  run_related (I := I) (J := J) (R := R) (P := fun _ ↦ True) (fun hab _ hcall ↦ h.apply hab hcall) hR
    (fun _ _ ↦ trivial) hcalls

/-- The same iterator, with targets that stand for others. -/
def comap {υ : Type*} (I : Iterator σ α τ) (f : υ → τ) : Iterator σ α υ where
  get := I.get
  seekToFirst := I.seekToFirst
  seekToLast := I.seekToLast
  seek t := I.seek (f t)
  next := I.next
  prev := I.prev

variable [LinearOrder τ]

def ofList (key : α → τ) (l : List α) : Iterator (Option ℕ) α τ where
  get position := position.bind fun i ↦ l[i]?
  seekToFirst _ := if l = [] then none else some 0
  seekToLast _ := if l = [] then none else some (l.length - 1)
  seek t _ := l.findIdx? fun a ↦ t ≤ key a
  next position := position.bind fun i ↦ if i + 1 < l.length then some (i + 1) else none
  prev position := position.bind fun i ↦ if i = 0 then none else some (i - 1)

section OfList

variable {key : α → τ} {l : List α} {i : ℕ}

@[simp]
theorem get_ofList_none : (ofList key l).get none = none := rfl

@[simp]
theorem get_ofList_some : (ofList key l).get (some i) = l[i]? := rfl

theorem get_seekToFirst (position : Option ℕ) :
    (ofList key l).get ((ofList key l).seekToFirst position) = l.head? := by
  cases l <;> rfl

theorem get_seekToLast (position : Option ℕ) :
    (ofList key l).get ((ofList key l).seekToLast position) = l.getLast? := by
  change (if l = [] then none else some (l.length - 1)).bind _ = _
  split
  · subst ‹l = []›
    rfl
  · exact getLast?_eq_getElem?.symm

theorem get_seek (t : τ) (position : Option ℕ) :
    (ofList key l).get ((ofList key l).seek t position) = l.find? fun a ↦ t ≤ key a := by
  rw [find?_eq_bind_findIdx?_getElem?]
  rfl

theorem next_ofList (hi : i + 1 < l.length) : (ofList key l).next (some i) = some (i + 1) := if_pos hi

theorem get_next_ofList (i : ℕ) : (ofList key l).get ((ofList key l).next (some i)) = l[i + 1]? := by
  by_cases hi : i + 1 < l.length
  · rw [next_ofList hi, get_ofList_some]
  · rw [getElem?_eq_none (Nat.not_lt.mp hi)]
    simp [ofList, hi]

@[simp]
theorem prev_ofList_succ : (ofList key l).prev (some (i + 1)) = some i := rfl

@[simp]
theorem prev_ofList_zero : (ofList key l).prev (some 0) = none := rfl

variable {a : α}

section

variable (h : l.Pairwise fun a b ↦ key a < key b)
include h

/-- What a search from the front finds is the least element that it looks for. -/
theorem find?_eq_some_iff_least {q : α → Bool} :
    l.find? q = some a ↔ a ∈ l ∧ q a = true ∧ ∀ b ∈ l, q b = true → key a ≤ key b := by
  induction l with
  | nil => simp
  | cons x rest ih =>
    obtain ⟨hx, hrest⟩ := pairwise_cons.mp h
    cases hqx : q x with
    | true =>
      rw [find?_cons_of_pos hqx]
      constructor
      · rintro ⟨⟩
        refine ⟨mem_cons_self, hqx, fun b hb _ ↦ ?_⟩
        rcases mem_cons.mp hb with rfl | hb
        · exact le_rfl
        · exact (hx b hb).le
      · rintro ⟨ha, -, hleast⟩
        rcases mem_cons.mp ha with rfl | ha
        · rfl
        · exact absurd (hleast x mem_cons_self hqx) (not_le.mpr (hx a ha))
    | false =>
      rw [find?_cons_of_neg (by simp [hqx]), ih hrest]
      have hne : ∀ {b}, q b = true → b ≠ x := by
        rintro b hb rfl
        simp [hqx] at hb
      constructor
      · rintro ⟨ha, hqa, hleast⟩
        refine ⟨mem_cons_of_mem x ha, hqa, fun b hb hqb ↦ ?_⟩
        exact hleast b ((mem_cons.mp hb).resolve_left (hne hqb)) hqb
      · rintro ⟨ha, hqa, hleast⟩
        exact ⟨(mem_cons.mp ha).resolve_left (hne hqa), hqa, fun b hb ↦ hleast b (mem_cons_of_mem x hb)⟩

theorem getLast?_filter_eq_some_iff_greatest {q : α → Bool} :
    (l.filter q).getLast? = some a ↔ a ∈ l ∧ q a = true ∧ ∀ b ∈ l, q b = true → key b ≤ key a := by
  rw [← head?_reverse, ← filter_reverse, head?_filter]
  have hreverse : l.reverse.Pairwise fun a b ↦ OrderDual.toDual (key a) < OrderDual.toDual (key b) :=
    pairwise_reverse.mpr h
  rw [find?_eq_some_iff_least hreverse]
  simp only [mem_reverse, OrderDual.toDual_le_toDual]

/-- A sorted list around one of its elements. -/
theorem exists_split (ha : l[i]? = some a) : ∃ before after, l = before ++ a :: after ∧ before.length = i ∧
      (∀ b ∈ before, key b < key a) ∧ ∀ b ∈ after, key a < key b := by
  obtain ⟨hi, hget⟩ := List.getElem?_eq_some_iff.mp ha
  have hsplit : l = l.take i ++ a :: l.drop (i + 1) := by
    rw [← hget, ← drop_eq_getElem_cons hi, take_append_drop]
  have hsorted := h
  rw [hsplit, pairwise_append, pairwise_cons] at hsorted
  obtain ⟨-, ⟨hafter, -⟩, hbefore⟩ := hsorted
  refine ⟨l.take i, l.drop (i + 1), hsplit, by rw [length_take]; omega, ?_, hafter⟩
  exact fun b hb ↦ hbefore b hb a mem_cons_self

theorem get_next (ha : l[i]? = some a) :
    (ofList key l).get ((ofList key l).next (some i)) = l.find? fun b ↦ key a < key b := by
  rw [get_next_ofList]
  obtain ⟨before, after, rfl, rfl, hbefore, hafter⟩ := exists_split h ha
  have hskip : before.find? (fun b ↦ key a < key b) = none := by
    rw [find?_eq_none]
    intro b hb
    simpa using (hbefore b hb).le
  rw [find?_append, hskip, Option.none_or, find?_cons_of_neg (by simp),
    getElem?_append_right (by omega), Nat.add_sub_cancel_left, getElem?_cons_succ]
  cases after with
  | nil => rfl
  | cons b rest =>
    rw [find?_cons_of_pos (by simpa using hafter b mem_cons_self)]
    rfl

theorem get_prev (ha : l[i]? = some a) : (ofList key l).get ((ofList key l).prev (some i)) =
      (l.filter fun b ↦ key b < key a).getLast? := by
  obtain ⟨before, after, rfl, rfl, hbefore, hafter⟩ := exists_split h ha
  have hfilter : ((before ++ a :: after).filter fun b ↦ key b < key a) = before := by
    rw [filter_append, filter_eq_self.mpr (by simpa using hbefore), filter_eq_nil_iff.mpr, append_nil]
    intro b hb
    rcases mem_cons.mp hb with rfl | hb
    · simp
    · simpa using (hafter b hb).le
  rw [hfilter]
  cases before using List.reverseRecOn with
  | nil => rfl
  | append_singleton before b =>
    rw [length_append, length_singleton, prev_ofList_succ, get_ofList_some]
    simp

end

end OfList

section Shows

variable {key : α → τ} {l : List α} {I : Iterator σ α τ} {R : σ → Option ℕ → Prop} {state : σ} {a : α}

def Shows (key : α → τ) (l : List α) (R : σ → Option ℕ → Prop) (state : σ) (shown : Option α) : Prop :=
  ∃ position, R state position ∧ (ofList key l).get position = shown

theorem Shows.get_eq (hsim : Simulates I (ofList key l) R) {shown : Option α}
    (h : Shows key l R state shown) : I.get state = shown := by
  obtain ⟨position, hR, hget⟩ := h
  exact (hsim.get hR).trans hget

theorem Shows.mem (h : Shows key l R state (some a)) : a ∈ l := by
  obtain ⟨position, -, hget⟩ := h
  obtain ⟨i, -, hi⟩ := Option.bind_eq_some_iff.mp hget
  exact mem_of_getElem? hi

section

variable (hsim : Simulates I (ofList key l) R)
include hsim

theorem Shows.seekToFirst {shown : Option α} (h : Shows key l R state shown) :
    Shows key l R (I.seekToFirst state) l.head? := by
  obtain ⟨position, hR, -⟩ := h
  exact ⟨_, hsim.seekToFirst hR, get_seekToFirst position⟩

theorem Shows.seekToLast {shown : Option α} (h : Shows key l R state shown) :
    Shows key l R (I.seekToLast state) l.getLast? := by
  obtain ⟨position, hR, -⟩ := h
  exact ⟨_, hsim.seekToLast hR, get_seekToLast position⟩

theorem Shows.seek {shown : Option α} (h : Shows key l R state shown) (t : τ) :
    Shows key l R (I.seek t state) (l.find? fun b ↦ t ≤ key b) := by
  obtain ⟨position, hR, -⟩ := h
  exact ⟨_, hsim.seek t hR, get_seek t position⟩

theorem Shows.next (hsorted : l.Pairwise fun a b ↦ key a < key b) (h : Shows key l R state (some a)) :
    Shows key l R (I.next state) (l.find? fun b ↦ key a < key b) := by
  obtain ⟨position, hR, hget⟩ := h
  obtain ⟨i, rfl, hi⟩ := Option.bind_eq_some_iff.mp hget
  exact ⟨_, hsim.next hR (by rw [hget]; rfl), get_next hsorted hi⟩

theorem Shows.prev (hsorted : l.Pairwise fun a b ↦ key a < key b) (h : Shows key l R state (some a)) :
    Shows key l R (I.prev state) (l.filter fun b ↦ key b < key a).getLast? := by
  obtain ⟨position, hR, hget⟩ := h
  obtain ⟨i, rfl, hi⟩ := Option.bind_eq_some_iff.mp hget
  exact ⟨_, hsim.prev hR (by rw [hget]; rfl), get_prev hsorted hi⟩

end

end Shows

end Iterator

/-- An iterator object: its operations and its state when it is made. -/
structure AnyIterator (α τ : Type*) where
  State : Type
  ops : Iterator State α τ
  start : State

namespace AnyIterator

variable {α τ : Type*} [LinearOrder τ]

/-- The iterator without elements. -/
def empty : AnyIterator α τ where
  State := Unit
  ops := ⟨fun _ ↦ none, id, id, fun _ ↦ id, id, id⟩
  start := ()

def ofList (key : α → τ) (l : List α) : AnyIterator α τ where
  State := Option ℕ
  ops := Iterator.ofList key l
  start := none

/-- The object behaves as the cursor over the list, and is not valid at first. -/
def Faithful (key : α → τ) (it : AnyIterator α τ) (l : List α) : Prop :=
  ∃ R : it.State → Option ℕ → Prop, Iterator.Simulates it.ops (Iterator.ofList key l) R ∧ R it.start none

theorem Faithful.get_run {key : α → τ} {it : AnyIterator α τ} {l : List α} (h : it.Faithful key l)
    {calls : List (Iterator.Call τ)} (hcalls : it.ops.allows it.start calls = true) :
    it.ops.get (it.ops.run it.start calls) =
      (Iterator.ofList key l).get ((Iterator.ofList key l).run none calls) := by
  obtain ⟨R, hsim, hstart⟩ := h
  exact hsim.get (hsim.run hstart hcalls)

theorem faithful_empty (key : α → τ) : (empty : AnyIterator α τ).Faithful key [] := by
  refine ⟨fun _ position ↦ position = none, ⟨?_, ?_, ?_, ?_, ?_, ?_⟩, rfl⟩
  · rintro _ _ rfl
    rfl
  · intros
    rfl
  · intros
    rfl
  · intros
    rfl
  · rintro _ _ rfl _
    rfl
  · rintro _ _ rfl _
    rfl

theorem faithful_ofList (key : α → τ) (l : List α) : (ofList key l).Faithful key l :=
  ⟨Eq, .refl (Iterator.ofList key l), rfl⟩

end AnyIterator

end LevelDB.Library
