import LevelDB.Library.Iterators

/-!
# Two-level iterators

`TwoLevelIterator` of `table/two_level_iterator.cpp`: an index iterator whose values are handles, and a
function that opens the block of a handle.  The loops that skip empty blocks take a bound on their rounds,
and a state remembers whether all its calls have returned.  Over a faithful index and faithful blocks in
order it is a cursor over the concatenated blocks.
-/

namespace LevelDB.Table.TwoLevelIterator

open Library List Iterator

variable {α τ : Type*} {H : Type} [LinearOrder τ]

/-- `index_iter_`, and `data_iter_` with the handle it was opened for. -/
structure State (index : AnyIterator (τ × H) τ) (block : H → AnyIterator α τ) where
  index : index.State
  data : Option (Σ handle : H, (block handle).State)
  /-- No loop has used up its rounds. -/
  returned : Bool

section Operations

variable (index : AnyIterator (τ × H) τ) (block : H → AnyIterator α τ) (rounds : ℕ)

def get (state : State index block) : Option α := state.data.bind fun data ↦ (block data.1).ops.get data.2

/-- An operation on `data_iter_`, unless it is `NULL`. -/
def onData (f : ∀ handle, (block handle).State → (block handle).State) (state : State index block) :
    State index block :=
  { state with data := state.data.map fun data ↦ ⟨data.1, f data.1 data.2⟩ }

variable [DecidableEq H]

def initDataBlock (state : State index block) : State index block :=
  match index.ops.get state.index with
  | none => { state with data := none }
  | some (_, handle) =>
    -- a data iterator that is already made for this handle stays as it is
    if state.data.any fun data ↦ data.1 = handle then state
    else { state with data := some ⟨handle, (block handle).start⟩ }

def skipForward : ℕ → State index block → State index block
  | 0, state => { state with returned := false }
  | rounds + 1, state =>
    if (get index block state).isSome then state
    else if (index.ops.get state.index).isNone then { state with data := none }
    else skipForward rounds (onData index block (fun handle ↦ (block handle).ops.seekToFirst)
      (initDataBlock index block { state with index := index.ops.next state.index }))

def skipBackward : ℕ → State index block → State index block
  | 0, state => { state with returned := false }
  | rounds + 1, state =>
    if (get index block state).isSome then state
    else if (index.ops.get state.index).isNone then { state with data := none }
    else skipBackward rounds (onData index block (fun handle ↦ (block handle).ops.seekToLast)
      (initDataBlock index block { state with index := index.ops.prev state.index }))

def seek (t : τ) (state : State index block) : State index block :=
  skipForward index block rounds (onData index block (fun handle ↦ (block handle).ops.seek t)
    (initDataBlock index block { state with index := index.ops.seek t state.index }))

def seekToFirst (state : State index block) : State index block :=
  skipForward index block rounds (onData index block (fun handle ↦ (block handle).ops.seekToFirst)
    (initDataBlock index block { state with index := index.ops.seekToFirst state.index }))

def seekToLast (state : State index block) : State index block :=
  skipBackward index block rounds (onData index block (fun handle ↦ (block handle).ops.seekToLast)
    (initDataBlock index block { state with index := index.ops.seekToLast state.index }))

def next (state : State index block) : State index block :=
  skipForward index block rounds (onData index block (fun handle ↦ (block handle).ops.next) state)

def prev (state : State index block) : State index block :=
  skipBackward index block rounds (onData index block (fun handle ↦ (block handle).ops.prev) state)

def iterator : Iterator (State index block) α τ where
  get := get index block
  seekToFirst := seekToFirst index block rounds
  seekToLast := seekToLast index block rounds
  seek := seek index block rounds
  next := next index block rounds
  prev := prev index block rounds

def new : AnyIterator α τ where
  State := State index block
  ops := iterator index block rounds
  start := ⟨index.start, none, true⟩

end Operations

/-- The blocks of an index: each is sorted, ends at or before its separator, and the later blocks are
after the separator. -/
structure Indexed (key : α → τ) (entries : List (τ × H)) (blocks : H → List α) : Prop where
  block_sorted : ∀ p ∈ entries, (blocks p.2).Pairwise fun a b ↦ key a < key b
  le_separator : ∀ p ∈ entries, ∀ x ∈ blocks p.2, key x ≤ p.1
  separator_lt : entries.Pairwise fun p p' ↦ ∀ x ∈ blocks p'.2, p.1 < key x

def contents (entries : List (τ × H)) (blocks : H → List α) : List α := entries.flatMap fun p ↦ blocks p.2

section Contents

variable {key : α → τ} {entries before after : List (τ × H)} {blocks : H → List α} {sep : τ} {handle : H}

theorem Indexed.contents_sorted (h : Indexed key entries blocks) :
    (contents entries blocks).Pairwise fun a b ↦ key a < key b := by
  refine pairwise_flatMap.mpr ⟨h.block_sorted, ?_⟩
  apply h.separator_lt.imp_of_mem
  intro p p' hp hp' hlt x hx y hy
  exact (h.le_separator p hp x hx).trans_lt (hlt y hy)

omit [LinearOrder τ] in
theorem contents_split (before after : List (τ × H)) : contents (before ++ (sep, handle) :: after) blocks =
      contents before blocks ++ (blocks handle ++ contents after blocks) := by
  simp [contents]

theorem Indexed.before_lt (h : Indexed key (before ++ (sep, handle) :: after) blocks) {x : α}
    (hx : x ∈ contents before blocks) {y : α} (hy : y ∈ blocks handle) : key x < key y := by
  obtain ⟨p, hp, hxp⟩ := mem_flatMap.mp hx
  have hle := h.le_separator p (mem_append_left _ hp) x hxp
  have hlt := (pairwise_append.mp h.separator_lt).2.2 p hp _ mem_cons_self
  exact hle.trans_lt (hlt y hy)

theorem Indexed.lt_after (h : Indexed key (before ++ (sep, handle) :: after) blocks) {y : α}
    (hy : y ∈ contents after blocks) : sep < key y := by
  obtain ⟨p, hp, hyp⟩ := mem_flatMap.mp hy
  have hcons := pairwise_cons.mp (pairwise_append.mp h.separator_lt).2.1
  exact hcons.1 p hp y hyp

end Contents

section Simulation

variable {key : α → τ} {index : AnyIterator (τ × H) τ} {block : H → AnyIterator α τ}
  {entries : List (τ × H)} {blocks : H → List α} {rounds : ℕ}
  {S : index.State → Option ℕ → Prop} {R : ∀ handle, (block handle).State → Option ℕ → Prop}

structure Ok (key : α → τ) (blocks : H → List α)
    (S : index.State → Option ℕ → Prop) (R : ∀ handle, (block handle).State → Option ℕ → Prop)
    (state : State index block) : Prop where
  index : ∃ position, S state.index position
  data : ∀ handle data, state.data = some ⟨handle, data⟩ →
    ∃ shown, Shows key (blocks handle) (R handle) data shown
  returned : state.returned = true

structure AtBlock (key : α → τ) (blocks : H → List α)
    (S : index.State → Option ℕ → Prop) (R : ∀ handle, (block handle).State → Option ℕ → Prop)
    (state : State index block) (i : ℕ) (handle : H) (shown : Option α) : Prop where
  index : S state.index (some i)
  data : ∃ data, state.data = some ⟨handle, data⟩ ∧ Shows key (blocks handle) (R handle) data shown
  returned : state.returned = true

inductive Agrees (key : α → τ) (entries : List (τ × H)) (blocks : H → List α)
    (S : index.State → Option ℕ → Prop) (R : ∀ handle, (block handle).State → Option ℕ → Prop)
    (state : State index block) : Option α → Prop
  | invalid : Ok key blocks S R state → state.data = none →
      Agrees key entries blocks S R state none
  | valid {before after sep handle x} : entries = before ++ (sep, handle) :: after →
      AtBlock key blocks S R state before.length handle (some x) →
      Agrees key entries blocks S R state (some x)

variable {state : State index block} {i : ℕ} {handle : H} {shown : Option α}

theorem AtBlock.ok (h : AtBlock key blocks S R state i handle shown) : Ok key blocks S R state := by
  obtain ⟨data, hdata, hshows⟩ := h.data
  refine ⟨⟨_, h.index⟩, fun handle' data' heq ↦ ?_, h.returned⟩
  rw [hdata] at heq
  cases heq
  exact ⟨_, hshows⟩

theorem Agrees.ok (h : Agrees key entries blocks S R state shown) : Ok key blocks S R state := by
  cases h with
  | invalid hok _ => exact hok
  | valid _ hat => exact hat.ok

section

variable (hsim : ∀ handle, Simulates (block handle).ops (ofList key (blocks handle)) (R handle))
include hsim

theorem AtBlock.get_eq (h : AtBlock key blocks S R state i handle shown) :
    get index block state = shown := by
  obtain ⟨data, hdata, hshows⟩ := h.data
  rw [get, hdata, Option.bind_some]
  exact hshows.get_eq (hsim handle)

theorem Agrees.get_eq (h : Agrees key entries blocks S R state shown) : get index block state = shown := by
  cases h with
  | invalid _ hdata => rw [get, hdata]; rfl
  | valid _ hat => exact hat.get_eq hsim

end

theorem Ok.withIndex (h : Ok key blocks S R state) {indexState : index.State} {position : Option ℕ}
    (hindex : S indexState position) : Ok key blocks S R { state with index := indexState } :=
  ⟨⟨position, hindex⟩, h.data, h.returned⟩

section Index

variable (hindex : Simulates index.ops (ofList Prod.fst entries) S)
  {before after : List (τ × H)} {p : τ × H} {indexState : index.State}

include hindex

section

variable (hsplit : entries = before ++ p :: after) (h : S indexState (some before.length))
include hsplit h

/-- What the index shows at an entry. -/
theorem index_get : index.ops.get indexState = some p := by
  rw [hindex.get h, hsplit]
  simp

theorem index_next :
    S (index.ops.next indexState) (if after = [] then none else some (before ++ [p]).length) := by
  have hnext := hindex.next h (by rw [← hindex.get h, index_get hindex hsplit h]; rfl)
  have hposition : (ofList Prod.fst entries).next (some before.length) =
      if after = [] then none else some (before ++ [p]).length := by
    cases after with
    | nil => simp [ofList, hsplit]
    | cons _ _ => simp [ofList, hsplit]
  rwa [hposition] at hnext

/-- The index one entry back. -/
theorem index_prev :
    S (index.ops.prev indexState) (if before = [] then none else some before.dropLast.length) := by
  have hprev := hindex.prev h (by rw [← hindex.get h, index_get hindex hsplit h]; rfl)
  have hposition : (ofList Prod.fst entries).prev (some before.length) =
      if before = [] then none else some before.dropLast.length := by
    simp [ofList]
  rwa [hposition] at hprev

end

end Index

variable [DecidableEq H]

theorem atBlock_open (hindex : Simulates index.ops (ofList Prod.fst entries) S)
    (hstart : ∀ p ∈ entries, R p.2 (block p.2).start none)
    {f : ∀ handle, (block handle).State → (block handle).State} (wanted : List α → Option α)
    (hf : ∀ handle data shown, Shows key (blocks handle) (R handle) data shown →
      Shows key (blocks handle) (R handle) (f handle data) (wanted (blocks handle)))
    (hok : Ok key blocks S R state) {before after : List (τ × H)} {p : τ × H}
    (hsplit : entries = before ++ p :: after) (hat : S state.index (some before.length)) :
    AtBlock key blocks S R (onData index block f (initDataBlock index block state)) before.length p.2
      (wanted (blocks p.2)) := by
  unfold initDataBlock
  rw [index_get hindex hsplit hat]
  dsimp only
  split
  · rename_i hsame
    obtain ⟨⟨handle', data⟩, hdata, heq⟩ := (Option.any_eq_true _ _).mp hsame
    obtain rfl : handle' = p.2 := of_decide_eq_true heq
    obtain ⟨shown, hshows⟩ := hok.data _ data hdata
    refine ⟨hat, ⟨f _ data, ?_, hf _ data shown hshows⟩, hok.returned⟩
    rw [onData, hdata]
    rfl
  · have hmem : p ∈ entries := hsplit ▸ mem_append_right _ mem_cons_self
    exact ⟨hat, ⟨f p.2 (block p.2).start, rfl, hf p.2 _ none ⟨none, hstart p hmem, rfl⟩⟩, hok.returned⟩

/-- Without a block at the index there is no data iterator. -/
theorem ok_open_none (hindex : Simulates index.ops (ofList Prod.fst entries) S)
    {f : ∀ handle, (block handle).State → (block handle).State} (hok : Ok key blocks S R state)
    (hat : S state.index none) :
    Ok key blocks S R (onData index block f (initDataBlock index block state)) ∧
      (onData index block f (initDataBlock index block state)).data = none ∧
      index.ops.get (onData index block f (initDataBlock index block state)).index = none := by
  have hget : index.ops.get state.index = none := hindex.get hat
  unfold initDataBlock
  rw [hget]
  refine ⟨⟨hok.index, fun handle data hdata ↦ (by cases hdata), hok.returned⟩, rfl, hget⟩

/-- Skipping ends at once when there is no block. -/
theorem skipForward_none (hok : Ok key blocks S R state) (hdata : state.data = none)
    (hat : index.ops.get state.index = none) (hrounds : 0 < rounds) :
    Agrees key entries blocks S R (skipForward index block rounds state) none := by
  obtain ⟨rounds, rfl⟩ := Nat.exists_eq_succ_of_ne_zero hrounds.ne'
  have hget : get index block state = none := by rw [get, hdata]; rfl
  rw [skipForward, if_neg (by simp [hget]), if_pos (by simp [hat])]
  exact Agrees.invalid ⟨hok.index, fun _ _ h ↦ (by cases h), hok.returned⟩ rfl

theorem skipBackward_none (hok : Ok key blocks S R state) (hdata : state.data = none)
    (hat : index.ops.get state.index = none) (hrounds : 0 < rounds) :
    Agrees key entries blocks S R (skipBackward index block rounds state) none := by
  obtain ⟨rounds, rfl⟩ := Nat.exists_eq_succ_of_ne_zero hrounds.ne'
  have hget : get index block state = none := by rw [get, hdata]; rfl
  rw [skipBackward, if_neg (by simp [hget]), if_pos (by simp [hat])]
  exact Agrees.invalid ⟨hok.index, fun _ _ h ↦ (by cases h), hok.returned⟩ rfl

section Skip

variable (hindex : Simulates index.ops (ofList Prod.fst entries) S)
  (hsim : ∀ handle, Simulates (block handle).ops (ofList key (blocks handle)) (R handle))
  {before after : List (τ × H)} {p : τ × H}

include hsim

/-- Skipping stays at a block with an element. -/
theorem skipForward_here {x : α} (hsplit : entries = before ++ p :: after)
    (hat : AtBlock key blocks S R state before.length p.2 (some x)) (hrounds : 0 < rounds) :
    Agrees key entries blocks S R (skipForward index block rounds state) (some x) := by
  obtain ⟨rounds, rfl⟩ := Nat.exists_eq_succ_of_ne_zero hrounds.ne'
  rw [skipForward, if_pos (by simp [hat.get_eq hsim])]
  exact Agrees.valid hsplit hat

theorem skipBackward_here {x : α} (hsplit : entries = before ++ p :: after)
    (hat : AtBlock key blocks S R state before.length p.2 (some x)) (hrounds : 0 < rounds) :
    Agrees key entries blocks S R (skipBackward index block rounds state) (some x) := by
  obtain ⟨rounds, rfl⟩ := Nat.exists_eq_succ_of_ne_zero hrounds.ne'
  rw [skipBackward, if_pos (by simp [hat.get_eq hsim])]
  exact Agrees.valid hsplit hat

include hindex

/-- Skipping opens the next block when this one has no element left. -/
theorem skipForward_next (hsplit : entries = before ++ p :: after)
    (hat : AtBlock key blocks S R state before.length p.2 none) :
    skipForward index block (rounds + 1) state = skipForward index block rounds
      (onData index block (fun handle ↦ (block handle).ops.seekToFirst)
        (initDataBlock index block { state with index := index.ops.next state.index })) := by
  rw [skipForward, if_neg (by simp [hat.get_eq hsim]), if_neg (by simp [index_get hindex hsplit hat.index])]

theorem skipBackward_prev (hsplit : entries = before ++ p :: after)
    (hat : AtBlock key blocks S R state before.length p.2 none) :
    skipBackward index block (rounds + 1) state = skipBackward index block rounds
      (onData index block (fun handle ↦ (block handle).ops.seekToLast)
        (initDataBlock index block { state with index := index.ops.prev state.index })) := by
  rw [skipBackward, if_neg (by simp [hat.get_eq hsim]),
    if_neg (by simp [index_get hindex hsplit hat.index])]

variable (hstart : ∀ p ∈ entries, R p.2 (block p.2).start none)
include hstart

/-- From a block whose data iterator is at its first element wanted, skipping forward goes to the first
one of all, when everything in the later blocks is wanted. -/
theorem skipForward_agrees {q : α → Bool} (hsplit : entries = before ++ p :: after)
    (hq : ∀ y ∈ contents after blocks, q y = true)
    (hat : AtBlock key blocks S R state before.length p.2 ((blocks p.2).find? q))
    (hrounds : after.length + 1 < rounds) :
    Agrees key entries blocks S R (skipForward index block rounds state)
      ((blocks p.2 ++ contents after blocks).find? q) := by
  induction after generalizing state p before rounds with
  | nil =>
    rw [contents, flatMap_nil, append_nil]
    cases hfind : (blocks p.2).find? q with
    | some x =>
      rw [hfind] at hat
      exact skipForward_here hsim hsplit hat (by omega)
    | none =>
      rw [hfind] at hat
      obtain ⟨rounds, rfl⟩ : ∃ k, rounds = k + 2 := ⟨rounds - 2, by simp at hrounds; omega⟩
      have hnext := index_next hindex hsplit hat.index
      obtain ⟨hok, hdata, hnone⟩ := ok_open_none hindex (hat.ok.withIndex hnext) hnext
      rw [skipForward_next hindex hsim hsplit hat]
      exact skipForward_none hok hdata hnone (Nat.succ_pos _)
  | cons p' rest ih =>
    rw [find?_append]
    cases hfind : (blocks p.2).find? q with
    | some x =>
      rw [hfind] at hat
      exact skipForward_here hsim hsplit hat (by omega)
    | none =>
      rw [hfind] at hat
      obtain ⟨rounds, rfl⟩ : ∃ k, rounds = k + 1 := ⟨rounds - 1, by omega⟩
      have hsplit' : entries = (before ++ [p]) ++ p' :: rest := by simp [hsplit]
      have hnext := index_next hindex hsplit hat.index
      rw [if_neg (cons_ne_nil _ _)] at hnext
      have hopen := atBlock_open hindex hstart List.head?
        (fun handle _ _ h ↦ h.seekToFirst (hsim handle)) (hat.ok.withIndex hnext) hsplit' hnext
      have hhead : (blocks p'.2).head? = (blocks p'.2).find? q := by
        have hall : ∀ y ∈ blocks p'.2, q y = true := fun y hy ↦
          hq y (mem_flatMap.mpr ⟨p', mem_cons_self, hy⟩)
        cases hblock : blocks p'.2 with
        | nil => rfl
        | cons y _ => rw [find?_cons_of_pos (hall y (hblock ▸ mem_cons_self))]; rfl
      rw [skipForward_next hindex hsim hsplit hat, Option.none_or]
      refine ih hsplit' (fun y hy ↦ ?_) (hhead ▸ hopen) (by simpa using hrounds)
      obtain ⟨p'', hp'', hy⟩ := mem_flatMap.mp hy
      exact hq y (mem_flatMap.mpr ⟨p'', mem_cons_of_mem p' hp'', hy⟩)

/-- The same backwards, when everything in the earlier blocks is wanted. -/
theorem skipBackward_agrees {q : α → Bool} (hsplit : entries = before ++ p :: after)
    (hq : ∀ y ∈ contents before blocks, q y = true)
    (hat : AtBlock key blocks S R state before.length p.2 ((blocks p.2).filter q).getLast?)
    (hrounds : before.length + 1 < rounds) :
    Agrees key entries blocks S R (skipBackward index block rounds state)
      ((contents before blocks ++ blocks p.2).filter q).getLast? := by
  induction before using List.reverseRecOn generalizing state p after rounds with
  | nil =>
    rw [contents, flatMap_nil, nil_append]
    cases hlast : ((blocks p.2).filter q).getLast? with
    | some x =>
      rw [hlast] at hat
      exact skipBackward_here hsim hsplit hat (by omega)
    | none =>
      rw [hlast] at hat
      obtain ⟨rounds, rfl⟩ : ∃ k, rounds = k + 2 := ⟨rounds - 2, by simp at hrounds; omega⟩
      have hprev := index_prev hindex hsplit hat.index
      obtain ⟨hok, hdata, hnone⟩ := ok_open_none hindex (hat.ok.withIndex hprev) hprev
      rw [skipBackward_prev hindex hsim hsplit hat]
      exact skipBackward_none hok hdata hnone (Nat.succ_pos _)
  | append_singleton rest p' ih =>
    rw [filter_append, getLast?_append]
    cases hlast : ((blocks p.2).filter q).getLast? with
    | some x =>
      rw [hlast] at hat
      exact skipBackward_here hsim hsplit hat (by omega)
    | none =>
      rw [hlast] at hat
      obtain ⟨rounds, rfl⟩ : ∃ k, rounds = k + 1 := ⟨rounds - 1, by omega⟩
      have hsplit' : entries = rest ++ p' :: (p :: after) := by simp [hsplit]
      have hprev := index_prev hindex hsplit hat.index
      rw [if_neg (by simp), dropLast_concat] at hprev
      have hopen := atBlock_open hindex hstart List.getLast?
        (fun handle _ _ h ↦ h.seekToLast (hsim handle)) (hat.ok.withIndex hprev) hsplit' hprev
      have hall : (blocks p'.2).filter q = blocks p'.2 := by
        rw [filter_eq_self]
        exact fun y hy ↦ hq y (mem_flatMap.mpr ⟨p', by simp, hy⟩)
      have hcontents : contents (rest ++ [p']) blocks = contents rest blocks ++ blocks p'.2 := by
        simp [contents]
      rw [skipBackward_prev hindex hsim hsplit hat, Option.none_or, hcontents]
      refine ih hsplit' (fun y hy ↦ ?_) (hall.symm ▸ hopen) (by simpa using hrounds)
      obtain ⟨p'', hp'', hy⟩ := mem_flatMap.mp hy
      exact hq y (mem_flatMap.mpr ⟨p'', by simp [hp''], hy⟩)

end Skip

section Calls

variable (hindex : Simulates index.ops (ofList Prod.fst entries) S)
  (hsim : ∀ handle, Simulates (block handle).ops (ofList key (blocks handle)) (R handle))
  (hstart : ∀ p ∈ entries, R p.2 (block p.2).start none)
  (hrounds : entries.length < rounds)

include hindex hsim hstart hrounds

theorem seekToFirst_agrees (hok : Ok key blocks S R state) :
    Agrees key entries blocks S R (seekToFirst index block rounds state)
      (contents entries blocks).head? := by
  have hfirst : ∀ l : List α, l.head? = l.find? fun _ ↦ true := fun l ↦ by cases l <;> rfl
  obtain ⟨position, hposition⟩ := hok.index
  have hseek := hindex.seekToFirst hposition
  cases entries with
  | nil =>
    obtain ⟨hok, hdata, hnone⟩ := ok_open_none hindex (hok.withIndex hseek) hseek
    exact skipForward_none hok hdata hnone (by omega)
  | cons p rest =>
    have hsplit : p :: rest = [] ++ p :: rest := rfl
    have hopen := atBlock_open hindex hstart List.head?
      (fun handle _ _ h ↦ h.seekToFirst (hsim handle)) (hok.withIndex hseek) hsplit hseek
    rw [hfirst] at hopen ⊢
    exact skipForward_agrees hindex hsim hstart hsplit (fun _ _ ↦ rfl) hopen (by simpa using hrounds)

theorem seekToLast_agrees (hok : Ok key blocks S R state) :
    Agrees key entries blocks S R (seekToLast index block rounds state)
      (contents entries blocks).getLast? := by
  have hlast : ∀ l : List α, l.getLast? = (l.filter fun _ ↦ true).getLast? := fun l ↦ by simp
  obtain ⟨position, hposition⟩ := hok.index
  have hseek := hindex.seekToLast hposition
  cases entries using List.reverseRecOn with
  | nil =>
    obtain ⟨hok, hdata, hnone⟩ := ok_open_none hindex (hok.withIndex hseek) hseek
    exact skipBackward_none hok hdata hnone (by omega)
  | append_singleton rest p =>
    have hsplit : rest ++ [p] = rest ++ p :: [] := rfl
    have hlength : (ofList Prod.fst (rest ++ [p])).seekToLast position = some rest.length := by
      simp [ofList]
    rw [hlength] at hseek
    have hopen := atBlock_open hindex hstart List.getLast?
      (fun handle _ _ h ↦ h.seekToLast (hsim handle)) (hok.withIndex hseek) hsplit hseek
    have hcontents : contents (rest ++ [p]) blocks = contents rest blocks ++ blocks p.2 := by
      simp [contents]
    rw [hlast] at hopen
    rw [hlast, hcontents]
    exact skipBackward_agrees hindex hsim hstart hsplit (fun _ _ ↦ rfl) hopen (by simpa using hrounds)

variable (hentries : Indexed key entries blocks)
include hentries

theorem seek_agrees (hok : Ok key blocks S R state) (t : τ) :
    Agrees key entries blocks S R (seek index block rounds t state)
      ((contents entries blocks).find? fun x ↦ t ≤ key x) := by
  obtain ⟨position, hposition⟩ := hok.index
  have hseek := hindex.seek t hposition
  have hbelow : ∀ p ∈ entries, p.1 < t → ∀ x ∈ blocks p.2, ¬t ≤ key x := fun p hp hlt x hx ↦
    not_le.mpr ((hentries.le_separator p hp x hx).trans_lt hlt)
  cases hfind : entries.findIdx? fun p ↦ decide (t ≤ p.1) with
  | none =>
    have hnowhere : (ofList Prod.fst entries).seek t position = none := hfind
    rw [hnowhere] at hseek
    obtain ⟨hok, hdata, hnone⟩ := ok_open_none hindex (hok.withIndex hseek) hseek
    have hall : ((contents entries blocks).find? fun x ↦ t ≤ key x) = none := by
      rw [find?_eq_none]
      intro x hx
      obtain ⟨p, hp, hxp⟩ := mem_flatMap.mp hx
      have hlt : p.1 < t := by simpa using findIdx?_eq_none_iff.mp hfind p hp
      simpa using hbelow p hp hlt x hxp
    rw [hall]
    exact skipForward_none hok hdata hnone (by omega)
  | some i =>
    have hthere : (ofList Prod.fst entries).seek t position = some i := hfind
    rw [hthere] at hseek
    obtain ⟨hi, hle, hbefore⟩ := findIdx?_eq_some_iff_getElem.mp hfind
    have hsplit : entries = entries.take i ++ entries[i] :: entries.drop (i + 1) := by
      rw [← drop_eq_getElem_cons hi, take_append_drop]
    have hlength : (entries.take i).length = i := length_take_of_le hi.le
    rw [← hlength] at hseek
    have hopen := atBlock_open hindex hstart (fun l ↦ l.find? fun x ↦ t ≤ key x)
      (fun handle _ _ h ↦ h.seek (hsim handle) t) (hok.withIndex hseek) hsplit hseek
    have hskip : (contents (entries.take i) blocks).find? (fun x ↦ t ≤ key x) = none := by
      rw [find?_eq_none]
      intro x hx
      obtain ⟨p, hp, hxp⟩ := mem_flatMap.mp hx
      obtain ⟨j, hj, rfl⟩ := mem_take_iff_getElem.mp hp
      have hlt : entries[j].1 < t := by simpa using hbefore j (by omega)
      simpa using hbelow _ (getElem_mem _) hlt x hxp
    have hcontents : ((contents entries blocks).find? fun x ↦ t ≤ key x) =
        (blocks entries[i].2 ++ contents (entries.drop (i + 1)) blocks).find? fun x ↦ t ≤ key x := by
      conv_lhs => rw [hsplit]
      rw [contents_split, find?_append, hskip, Option.none_or]
    rw [hcontents]
    refine skipForward_agrees hindex hsim hstart hsplit (fun y hy ↦ ?_) hopen ?_
    · have hle : t ≤ entries[i].1 := of_decide_eq_true hle
      rw [hsplit] at hentries
      exact decide_eq_true (hle.trans (hentries.lt_after hy).le)
    · rw [length_drop]
      omega

theorem next_agrees {x : α} (h : Agrees key entries blocks S R state (some x)) :
    Agrees key entries blocks S R (next index block rounds state)
      ((contents entries blocks).find? fun y ↦ key x < key y) := by
  cases h with
  | @valid before after sep handle _ hsplit hat =>
    obtain ⟨data, hdata, hshows⟩ := hat.data
    have hmem : (sep, handle) ∈ entries := hsplit ▸ mem_append_right _ mem_cons_self
    have hsorted := hentries.block_sorted _ hmem
    have hnext : AtBlock key blocks S R
        (onData index block (fun handle ↦ (block handle).ops.next) state) before.length handle
        ((blocks handle).find? fun y ↦ key x < key y) :=
      ⟨hat.index, ⟨_, by rw [onData, hdata]; rfl, hshows.next (hsim handle) hsorted⟩, hat.returned⟩
    have hskip : (contents before blocks).find? (fun y ↦ key x < key y) = none := by
      rw [find?_eq_none]
      intro y hy
      simpa using (Indexed.before_lt (hsplit ▸ hentries) hy hshows.mem).le
    have hcontents : ((contents entries blocks).find? fun y ↦ key x < key y) =
        (blocks handle ++ contents after blocks).find? fun y ↦ key x < key y := by
      rw [hsplit, contents_split, find?_append, hskip, Option.none_or]
    rw [hcontents]
    refine skipForward_agrees hindex hsim hstart hsplit (fun y hy ↦ ?_) hnext ?_
    · have hle := hentries.le_separator _ hmem x hshows.mem
      exact decide_eq_true (hle.trans_lt (Indexed.lt_after (hsplit ▸ hentries) hy))
    · rw [hsplit] at hrounds
      simp at hrounds
      omega

theorem prev_agrees {x : α} (h : Agrees key entries blocks S R state (some x)) :
    Agrees key entries blocks S R (prev index block rounds state)
      ((contents entries blocks).filter fun y ↦ key y < key x).getLast? := by
  cases h with
  | @valid before after sep handle _ hsplit hat =>
    obtain ⟨data, hdata, hshows⟩ := hat.data
    have hmem : (sep, handle) ∈ entries := hsplit ▸ mem_append_right _ mem_cons_self
    have hsorted := hentries.block_sorted _ hmem
    have hprev : AtBlock key blocks S R
        (onData index block (fun handle ↦ (block handle).ops.prev) state) before.length handle
        ((blocks handle).filter fun y ↦ key y < key x).getLast? :=
      ⟨hat.index, ⟨_, by rw [onData, hdata]; rfl, hshows.prev (hsim handle) hsorted⟩, hat.returned⟩
    have hskip : (contents after blocks).filter (fun y ↦ key y < key x) = [] := by
      rw [filter_eq_nil_iff]
      intro y hy
      have hle := hentries.le_separator _ hmem x hshows.mem
      simpa using (hle.trans_lt (Indexed.lt_after (hsplit ▸ hentries) hy)).le
    have hcontents : ((contents entries blocks).filter fun y ↦ key y < key x) =
        (contents before blocks ++ blocks handle).filter fun y ↦ key y < key x := by
      rw [hsplit, contents_split, ← append_assoc, filter_append, hskip, append_nil]
    rw [hcontents]
    refine skipBackward_agrees hindex hsim hstart hsplit (fun y hy ↦ ?_) hprev ?_
    · exact decide_eq_true (Indexed.before_lt (hsplit ▸ hentries) hy hshows.mem)
    · rw [hsplit] at hrounds
      simp at hrounds
      omega

theorem simulates : Simulates (iterator index block rounds) (ofList key (contents entries blocks))
      fun state position ↦
        Agrees key entries blocks S R state ((ofList key (contents entries blocks)).get position)
    where
  get h := h.get_eq hsim
  seekToFirst h := by
    rw [get_seekToFirst]
    exact seekToFirst_agrees hindex hsim hstart hrounds h.ok
  seekToLast h := by
    rw [get_seekToLast]
    exact seekToLast_agrees hindex hsim hstart hrounds h.ok
  seek t h := by
    rw [get_seek]
    exact seek_agrees hindex hsim hstart hrounds hentries h.ok t
  next {state position} h hvalid := by
    obtain ⟨x, hx⟩ := Option.isSome_iff_exists.mp hvalid
    obtain ⟨i, rfl, hi⟩ := Option.bind_eq_some_iff.mp hx
    rw [hx] at h
    rw [get_next hentries.contents_sorted hi]
    exact next_agrees hindex hsim hstart hrounds hentries h
  prev {state position} h hvalid := by
    obtain ⟨x, hx⟩ := Option.isSome_iff_exists.mp hvalid
    obtain ⟨i, rfl, hi⟩ := Option.bind_eq_some_iff.mp hx
    rw [hx] at h
    rw [get_prev hentries.contents_sorted hi]
    exact prev_agrees hindex hsim hstart hrounds hentries h

end Calls

end Simulation

section Faithful

variable [DecidableEq H] {key : α → τ} {index : AnyIterator (τ × H) τ} {block : H → AnyIterator α τ}
  {entries : List (τ × H)} {blocks : H → List α} {rounds : ℕ}

/-- Over a faithful index whose blocks are faithful, there is a simulation that starts at the new
iterator. -/
theorem exists_simulates (hindex : index.Faithful Prod.fst entries)
    (hblock : ∀ p ∈ entries, (block p.2).Faithful key (blocks p.2))
    (hentries : Indexed key entries blocks) (hrounds : entries.length < rounds) :
    ∃ S R, Simulates (iterator index block rounds) (ofList key (contents entries blocks))
        (fun state position ↦ Agrees key entries blocks S R state
          ((ofList key (contents entries blocks)).get position)) ∧
      Agrees key entries blocks S R (⟨index.start, none, true⟩ : State index block) none := by
  obtain ⟨S, hindex, hS⟩ := hindex
  choose R hR using hblock
  -- only blocks of the index are ever opened
  have hsim : ∀ handle, Simulates (block handle).ops (ofList key (blocks handle))
      fun data position ↦ ∃ p, ∃ hp : p ∈ entries, ∃ hhandle : p.2 = handle,
        R p hp (hhandle ▸ data) position := by
    intro handle
    refine ⟨?_, ?_, ?_, ?_, ?_, ?_⟩
    · rintro data position ⟨p, hp, rfl, hdata⟩
      exact (hR p hp).1.get hdata
    · rintro data position ⟨p, hp, rfl, hdata⟩
      exact ⟨p, hp, rfl, (hR p hp).1.seekToFirst hdata⟩
    · rintro data position ⟨p, hp, rfl, hdata⟩
      exact ⟨p, hp, rfl, (hR p hp).1.seekToLast hdata⟩
    · rintro data position t ⟨p, hp, rfl, hdata⟩
      exact ⟨p, hp, rfl, (hR p hp).1.seek t hdata⟩
    · rintro data position ⟨p, hp, rfl, hdata⟩ hvalid
      exact ⟨p, hp, rfl, (hR p hp).1.next hdata hvalid⟩
    · rintro data position ⟨p, hp, rfl, hdata⟩ hvalid
      exact ⟨p, hp, rfl, (hR p hp).1.prev hdata hvalid⟩
  have hstart : ∀ p ∈ entries, ∃ p', ∃ hp' : p' ∈ entries, ∃ hhandle : p'.2 = p.2,
      R p' hp' (hhandle ▸ (block p.2).start) none := fun p hp ↦ ⟨p, hp, rfl, (hR p hp).2⟩
  refine ⟨S, _, simulates hindex hsim hstart hrounds hentries, ?_⟩
  exact Agrees.invalid ⟨⟨none, hS⟩, fun _ _ h ↦ (by cases h), rfl⟩ rfl

theorem faithful_new (hindex : index.Faithful Prod.fst entries)
    (hblock : ∀ p ∈ entries, (block p.2).Faithful key (blocks p.2))
    (hentries : Indexed key entries blocks) (hrounds : entries.length < rounds) :
    (new index block rounds).Faithful key (contents entries blocks) := by
  obtain ⟨S, R, hsim, hstart⟩ := exists_simulates hindex hblock hentries hrounds
  exact ⟨_, hsim, hstart⟩

omit [DecidableEq H] in
/-- Separators in order with every block after the separator before it. -/
theorem indexed_of_isChain (hsorted : entries.Pairwise fun p p' ↦ p.1 ≤ p'.1)
    (hblocks : ∀ p ∈ entries, (blocks p.2).Pairwise fun a b ↦ key a < key b)
    (hle : ∀ p ∈ entries, ∀ x ∈ blocks p.2, key x ≤ p.1)
    (hlt : entries.IsChain fun p p' ↦ ∀ x ∈ blocks p'.2, p.1 < key x) : Indexed key entries blocks := by
  refine ⟨hblocks, hle, ?_⟩
  induction entries with
  | nil => exact .nil
  | cons p rest ih =>
    obtain ⟨hp, hrest⟩ := pairwise_cons.mp hsorted
    have hpairs := ih hrest (fun p' hp' ↦ hblocks p' (mem_cons_of_mem p hp'))
      (fun p' hp' ↦ hle p' (mem_cons_of_mem p hp')) hlt.tail
    refine pairwise_cons.mpr ⟨fun p' hp' x hx ↦ ?_, hpairs⟩
    -- the next block is after the separator, and the later ones are after the next separator
    cases rest with
    | nil => cases hp'
    | cons next rest =>
      rcases mem_cons.mp hp' with rfl | hp'
      · exact (isChain_cons_cons.mp hlt).1 x hx
      · exact (hp next mem_cons_self).trans_lt ((pairwise_cons.mp hpairs).1 p' hp' x hx)

/-- A two-level iterator over a faithful index with separators in order, whose blocks are faithful, sorted
and lie between the separators around them: every call returns, and after every sequence of calls it
shows what the cursor over the concatenated blocks shows. -/
theorem two_level_iterator_is_cursor (hindex : index.Faithful Prod.fst entries)
    (hblock : ∀ p ∈ entries, (block p.2).Faithful key (blocks p.2))
    (hsorted : entries.Pairwise fun p p' ↦ p.1 ≤ p'.1)
    (hblocks : ∀ p ∈ entries, (blocks p.2).Pairwise fun a b ↦ key a < key b)
    (hle : ∀ p ∈ entries, ∀ x ∈ blocks p.2, key x ≤ p.1)
    (hlt : entries.IsChain fun p p' ↦ ∀ x ∈ blocks p'.2, p.1 < key x)
    (hrounds : entries.length < rounds) (calls : List (Call τ))
    (hcalls : (iterator index block rounds).allows ⟨index.start, none, true⟩ calls = true) :
    ((iterator index block rounds).run ⟨index.start, none, true⟩ calls).returned = true ∧
      (iterator index block rounds).get
          ((iterator index block rounds).run ⟨index.start, none, true⟩ calls) =
        (ofList key (contents entries blocks)).get
          ((ofList key (contents entries blocks)).run none calls) := by
  have hentries := indexed_of_isChain hsorted hblocks hle hlt
  obtain ⟨S, R, hsim, hstart⟩ := exists_simulates hindex hblock hentries hrounds
  have hrun := hsim.run (b := none) hstart hcalls
  exact ⟨hrun.ok.returned, hsim.get hrun⟩

end Faithful

/-- Three blocks, the middle one empty: forward over the empty block and back again. -/
theorem two_level_iterator_is_cursor_over_empty_block :
    (iterator (AnyIterator.ofList Prod.fst [(2, [1, 2]), (5, []), (9, [7])])
      (AnyIterator.ofList id) 4).get
        ((iterator (AnyIterator.ofList Prod.fst [(2, [1, 2]), (5, []), (9, [7])])
          (AnyIterator.ofList id) 4).run ⟨none, none, true⟩ [.seek 2, .next, .prev]) = some 2 := by
  have hblock : ∀ p ∈ [(2, [1, 2]), (5, []), (9, [7])],
      (AnyIterator.ofList id p.2).Faithful id (id p.2) := fun p _ ↦ AnyIterator.faithful_ofList id p.2
  have hrun := (two_level_iterator_is_cursor (AnyIterator.faithful_ofList Prod.fst _) hblock (by decide)
    (by decide) (by decide) (by simp) (by decide : 3 < 4) [.seek 2, .next, .prev] (by decide)).2
  exact hrun.trans (by decide)

end LevelDB.Table.TwoLevelIterator
