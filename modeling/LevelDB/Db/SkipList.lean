import LevelDB.Library.Machine
import LevelDB.Library.SortedLists
import Mathlib.Order.WithBot

/-!
# Skip lists

`db/skiplist.h`.  The arena is a list of nodes and a pointer is an index into it; the first node is
`head_`.  A link that was never stored to is uninitialised, and to follow it is an error here, as it is
to go outside of a node's `next_` array.

`Insert` runs while readers search the list without a lock, so it is taken apart into its single stores.
Between any two of them the list has one sorted list of nodes for each level, each a sublist of the one
below it (`Linked`), and the searches give what they should with respect to the nodes at level 0
(`searches_between_stores`).
-/

namespace LevelDB.Db

open LevelDB.Library

/-- A pointer to a node; `none` is `NULL`. -/
abbrev Pointer : Type := Option ℕ

/-- A node; `next_` has one link for each level of the node, `none` until it is stored to. -/
structure SkipNode (K : Type*) where
  key : Option K
  next : List (Option Pointer)
  deriving DecidableEq, Repr

structure SkipList (K : Type*) where
  nodes : List (SkipNode K)
  maxHeight : ℕ
  deriving DecidableEq, Repr

namespace SkipList

variable {K : Type*} [LinearOrder K]

def kMaxHeight : ℕ := 12

/-- `head_`, whose key is never looked at. -/
def head : ℕ := 0

def empty : SkipList K where
  nodes := [⟨none, List.replicate kMaxHeight (some none)⟩]
  maxHeight := 1

def key (s : SkipList K) (x : ℕ) : Option K := s.nodes[x]?.bind SkipNode.key

def keys (s : SkipList K) : List (Option K) := s.nodes.map SkipNode.key

def height (s : SkipList K) (x : ℕ) : ℕ := (s.nodes[x]?.map fun node ↦ node.next.length).getD 0

def next (s : SkipList K) (x level : ℕ) : Option Pointer :=
  s.nodes[x]?.bind fun node ↦ node.next[level]?.join

def setNext (s : SkipList K) (x level : ℕ) (y : Pointer) : Option (SkipList K) :=
  if level < s.height x then
    some { s with nodes := s.nodes.modify x fun node ↦ { node with next := node.next.set level (some y) } }
  else none

def newNode (s : SkipList K) (key : K) (height : ℕ) : SkipList K :=
  { s with nodes := s.nodes ++ [⟨some key, List.replicate height none⟩] }

/-- The node that a search goes on to, if the key of `next` lets it: the comparison of the loops. -/
def advances (s : SkipList K) (advance : K → Bool) : Pointer → Option Pointer
  | none => some none
  | some y => (s.key y).map fun k ↦ if advance k then some y else none

/-- Where a search ends: the last node it came to, the node after it, and the last node of each level. -/
structure Found where
  node : ℕ
  next : Pointer
  prev : List ℕ
  deriving DecidableEq, Repr

/-- The loop of the searches: along a level while `advance` holds of the key of the next node, and then
down to the next level.  `check` is what the loop asserts of the node it is at. -/
def search (s : SkipList K) (advance : K → Bool) (check : ℕ → Bool) : ℕ → ℕ → ℕ → List ℕ → Option Found
  | 0, _, _, _ => none
  | fuel + 1, x, level, prev =>
    if check x then
      match s.next x level with
      | none => none
      | some next =>
        match s.advances advance next with
        | none => none
        | some (some y) => search s advance check fuel y level prev
        | some none =>
          if level = 0 then some ⟨x, next, x :: prev⟩
          else search s advance check fuel x (level - 1) (x :: prev)
    else none

/-- As many rounds as a search can need. -/
def rounds (s : SkipList K) : ℕ := s.nodes.length + s.maxHeight

def below (s : SkipList K) (key : K) (x : ℕ) : Bool := (s.key x).any (· < key)

/-- The node found, and `prev`. -/
def findGreaterOrEqual (s : SkipList K) (key : K) : Option (Pointer × List ℕ) :=
  (s.search (fun k ↦ k < key) (fun _ ↦ true) s.rounds head (s.maxHeight - 1) []).map
    fun found ↦ (found.next, found.prev)

def findLessThan (s : SkipList K) (key : K) : Option ℕ :=
  (s.search (fun k ↦ k < key) (fun x ↦ x == head || s.below key x) s.rounds head
    (s.maxHeight - 1) []).map Found.node

def findLast (s : SkipList K) : Option ℕ :=
  (s.search (fun _ ↦ true) (fun _ ↦ true) s.rounds head (s.maxHeight - 1) []).map Found.node

def contains (s : SkipList K) (key : K) : Option Bool :=
  match s.findGreaterOrEqual key with
  | none => none
  | some (none, _) => some false
  | some (some x, _) => (s.key x).map fun k ↦ k == key

/-- The next thing that a call of `Insert` does. -/
inductive Stage where
  | setMaxHeight
  | newNode
  | copyLink (level : ℕ)
  | setLink (level : ℕ)
  deriving DecidableEq, Repr

structure Insertion (K : Type*) where
  key : K
  height : ℕ
  prev : List ℕ
  node : ℕ
  stage : Stage
  deriving DecidableEq, Repr

/-- The list, the call of `Insert` under way, and the keys of the calls that have returned. -/
structure State (K : Type*) where
  list : SkipList K
  inserting : Option (Insertion K)
  inserted : List K
  deriving DecidableEq, Repr

inductive Action (K : Type*) where
  /-- `Insert` is called and `RandomHeight` gives `height`. -/
  | insert (key : K) (height : ℕ)
  /-- The call of `Insert` under way makes its next store. -/
  | store
  deriving DecidableEq, Repr

/-- `Insert` up to its first store: `prev` is `head_` for the levels that the list does not have yet. -/
def beginInsert (s : SkipList K) (key : K) (height : ℕ) : Option (Insertion K) :=
  match s.findGreaterOrEqual key with
  | none => none
  | some (x, prev) =>
    if x.bind s.key = some key then none
    else some
      { key := key
        height := height
        prev := prev ++ List.replicate (height - s.maxHeight) head
        node := s.nodes.length
        stage := if s.maxHeight < height then .setMaxHeight else .newNode }

def store (state : State K) (i : Insertion K) : Option (State K) :=
  match i.stage with
  | .setMaxHeight =>
    some { state with
      list := { state.list with maxHeight := i.height }
      inserting := some { i with stage := .newNode } }
  | .newNode =>
    some { state with
      list := state.list.newNode i.key i.height
      inserting := some { i with stage := .copyLink 0 } }
  | .copyLink level =>
    match (i.prev[level]?).bind fun x ↦ state.list.next x level with
    | none => none
    | some y =>
      (state.list.setNext i.node level y).map fun list ↦
        { state with list := list, inserting := some { i with stage := .setLink level } }
  | .setLink level =>
    match i.prev[level]? with
    | none => none
    | some x =>
      (state.list.setNext x level (some i.node)).map fun list ↦
        if level + 1 < i.height then
          { state with list := list, inserting := some { i with stage := .copyLink (level + 1) } }
        else { list := list, inserting := none, inserted := state.inserted ++ [i.key] }

def runStores : ℕ → State K → Option (State K)
  | 0, state => if state.inserting = none then some state else none
  | fuel + 1, state =>
    match state.inserting with
    | none => some state
    | some i => (store state i).bind (runStores fuel)

/-- `Insert` as a whole, when `RandomHeight` gives `height`: the height, the node, and two stores for each of its
levels. -/
def insert (state : State K) (key : K) (height : ℕ) : Option (State K) :=
  (state.list.beginInsert key height).bind fun i ↦
    runStores (2 * height + 2) { state with inserting := some i }

def machine (K : Type*) [LinearOrder K] : Machine (State K) (Action K) where
  init state := state = ⟨empty, none, []⟩
  step state
    | .insert key height =>
      .guarded (state.inserting = none ∧ 0 < height ∧ height ≤ kMaxHeight) <|
        .ofOption <| (state.list.beginInsert key height).map fun i ↦
          { state with inserting := some i }
    | .store =>
      match state.inserting with
      | none => .blocked
      | some i => .ofOption (store state i)

/-- `Insert` is called with keys that are not in the list. -/
def Distinct (state : State K) : Action K → Prop
  | .insert key _ => key ∉ state.inserted
  | .store => True

end SkipList

end LevelDB.Db
