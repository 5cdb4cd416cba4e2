import Mathlib.Algebra.BigOperators.Group.Finset.Basic
import Mathlib.Data.Fintype.Basic
import Cdrc.Lib.Runs
import Cdrc.Lib.Objects

/-! # `atomic_linked_list`: Harris's list over `marked_arc_ptr`

Any number of threads call `find`, `insert` and `remove`. A step is one operation on a
`next` or on `head`, the allocation of a node, or the return. The keys of nodes never
change, so reading one is part of the step before.

A `next` is a pointer with a mark, and a set mark says that the node it is in has been
removed. Nodes live at addresses, of which there are finitely many. A node whose strong count
is zero and which no snapshot protects may be reclaimed at any time, and its address be given
to the next `make_shared`. Where the source calls `search`, `insert` or `remove` once more,
the snapshots of the outer call are dropped here at once, not at its end, so that more can be
reclaimed than in the source. -/
namespace Cdrc.LinkedList
open Cdrc.Lib.Runs Cdrc.Lib.Objects

/-- `std::numeric_limits<int>::max()` -/
def maxKey : Int := 2 ^ 31 - 1

/-- `std::numeric_limits<int>::lowest()` -/
def lowestKey : Int := -2 ^ 31

inductive Op
  | find (key : Int)
  | insert (key : Int)
  | remove (key : Int)
  deriving DecidableEq, Repr

structure Node (α : Type) where
  key : Int
  next : Option α
  mark : Bool
  deriving DecidableEq, Repr

/-- What a `search` is for. -/
inductive Goal
  | find
  | insert
  | remove
  /-- the `search` at the end of a `remove` that has marked its node -/
  | removed
  deriving DecidableEq, Repr

/-- A `search` between two of its steps. -/
inductive Search (α : Type)
  /-- before `head.get_snapshot()` -/
  | head
  /-- before the first `right->next.get_snapshot()` -/
  | first (right : α)
  /-- before the one at the end of the loop -/
  | next (left leftNxt : Option α) (right : α)
  /-- before `left->next.compare_and_swap(left_nxt, right)` -/
  | unlink (left : Option α) (leftNxt right : α)
  /-- before `right->next.get_mark()` -/
  | check (left : Option α) (right : α)
  deriving DecidableEq, Repr

/-- A call between two of its steps. -/
inductive Pc (α : Type)
  | idle
  | search (goal : Goal) (key : Int) (st : Search α)
  /-- `insert`, before `make_shared(key, right)` -/
  | insertNew (key : Int) (left : Option α) (right : α)
  /-- before `left->next.compare_and_swap(right, new_node)` -/
  | insertCas (key : Int) (left : Option α) (right newNode : α)
  /-- `remove`, before `right->next.get_snapshot()` -/
  | removeNext (key : Int) (left : Option α) (right : α)
  /-- before `right->next.compare_and_set_mark(next, 1)` -/
  | removeMark (key : Int) (left : Option α) (right : α) (next : Option α)
  /-- it succeeded, before `left->next.compare_and_swap(right, next)` -/
  | removeUnlink (key : Int) (left : Option α) (right : α) (next : Option α)
  /-- before the return -/
  | ret (r : Bool)
  deriving DecidableEq, Repr

structure State (α : Type) (n : Nat) where
  head : α
  tail : α
  node : α → Option (Node α)
  pc : Fin n → Pc α
  calls : Calls (Fin n) Op Bool

section Model
variable {α : Type} {n : Nat}

def Search.snapshots : Search α → List α
  | .head => []
  | .first right => [right]
  | .next left leftNxt right => left.toList ++ leftNxt.toList ++ [right]
  | .unlink left leftNxt right => left.toList ++ [leftNxt, right]
  | .check left right => left.toList ++ [right]

/-- The nodes that the call has snapshots of. -/
def Pc.snapshots : Pc α → List α
  | .search _ _ st => st.snapshots
  | .insertNew _ left right => left.toList ++ [right]
  | .insertCas _ left right _ => left.toList ++ [right]
  | .removeNext _ left right => left.toList ++ [right]
  | .removeMark _ left right next => left.toList ++ [right] ++ next.toList
  | .removeUnlink _ left right next => left.toList ++ [right] ++ next.toList
  | _ => []

/-- The `rc_ptr` that the call owns. -/
def Pc.newNode : Pc α → Option α
  | .insertCas _ _ _ newNode => some newNode
  | _ => none

def State.setPc (s : State α n) (t : Fin n) (pc : Pc α) : State α n :=
  { s with pc := Function.update s.pc t pc }

def State.respond (s : State α n) (t : Fin n) (r : Bool) : State α n :=
  { s.setPc t .idle with calls := s.calls.respond t r }

/-- The body of the loop in `search`, after `right->next` was read. A null `next` would be
followed. -/
def advance (left leftNxt : Option α) (right : α) (nd : Node α) : Option (Search α) :=
  nd.next.map fun rightNxt =>
    if nd.mark = false then .next (some right) none rightNxt
    else match leftNxt with
      | none => .next left (some right) rightNxt
      | some leftNxt => .next left (some leftNxt) rightNxt

/-- `search` returns, to what called it. -/
def found (goal : Goal) (key : Int) (left : Option α) (right : α) (nd : Node α) : Pc α :=
  match goal with
  | .find => .ret (nd.key = key)
  | .insert => if nd.key = key then .ret false else .insertNew key left right
  | .remove => if nd.key ≠ key then .ret false else .removeNext key left right
  | .removed => .ret true

variable [DecidableEq α]

/-- The list after its constructor, with its sentinel nodes at `a` and `b`. -/
def State.initial (a b : α) : State α n where
  head := a
  tail := b
  node := Function.update (Function.update (fun _ => none) b (some ⟨maxKey, none, false⟩)) a
    (some ⟨lowestKey, some b, false⟩)
  pc _ := .idle
  calls := .empty

def State.setNode (s : State α n) (a : α) (nd : Option (Node α)) : State α n :=
  { s with node := Function.update s.node a nd }

/-- The next step of a `search` by thread `t`. -/
def searchStep (s : State α n) (t : Fin n) (goal : Goal) (key : Int) :
    Search α → Option (State α n)
  | .head => some (s.setPc t (.search goal key (.first s.head)))
  | .first right =>
    (s.node right).bind fun nd =>
      (advance none none right nd).map fun st => s.setPc t (.search goal key st)
  | .next left leftNxt right =>
    (s.node right).bind fun nd =>
      if nd.mark = true ∨ nd.key < key then
        (advance left leftNxt right nd).map fun st => s.setPc t (.search goal key st)
      else match leftNxt with
        | none => some (s.setPc t (.search goal key (.check left right)))
        | some leftNxt => some (s.setPc t (.search goal key (.unlink left leftNxt right)))
  | .unlink left leftNxt right =>
    left.bind fun l =>
      (s.node l).map fun nd =>
        if nd.next = some leftNxt ∧ nd.mark = false then
          (s.setNode l (some { nd with next := some right })).setPc t
            (.search goal key (.check left right))
        else s.setPc t (.search goal key .head)
  | .check left right =>
    (s.node right).map fun nd =>
      if nd.mark = false then s.setPc t (found goal key left right nd)
      else s.setPc t (.search goal key .head)

/-- The next step of thread `t`; `a` is the address `make_shared` gets. -/
def step (s : State α n) (t : Fin n) (a : α) : Option (State α n) :=
  match s.pc t with
  | .idle => none
  | .search goal key st => searchStep s t goal key st
  | .insertNew key left right =>
    match s.node a with
    | none =>
      some ((s.setNode a (some ⟨key, some right, false⟩)).setPc t (.insertCas key left right a))
    | some _ => none
  | .insertCas key left right newNode =>
    left.bind fun l =>
      (s.node l).map fun nd =>
        if nd.next = some right ∧ nd.mark = false then
          (s.setNode l (some { nd with next := some newNode })).setPc t (.ret true)
        else s.setPc t (.search .insert key .head)
  | .removeNext key left right =>
    (s.node right).map fun nd =>
      if nd.mark = false then s.setPc t (.removeMark key left right nd.next)
      else s.setPc t (.search .remove key .head)
  | .removeMark key left right next =>
    (s.node right).map fun nd =>
      if nd.next = next ∧ nd.mark = false then
        (s.setNode right (some { nd with mark := true })).setPc t
          (.removeUnlink key left right next)
      else s.setPc t (.search .remove key .head)
  | .removeUnlink key left right next =>
    left.bind fun l =>
      (s.node l).map fun nd =>
        if nd.next = some right ∧ nd.mark = false then
          (s.setNode l (some { nd with next := next })).setPc t (.ret true)
        else s.setPc t (.search .removed key .head)
  | .ret r => some (s.respond t r)

def start : Op → Pc α
  | .find key => .search .find key .head
  | .insert key => .search .insert key .head
  | .remove key => .search .remove key .head

def Op.key : Op → Int
  | .find key => key
  | .insert key => key
  | .remove key => key

inductive Label (α : Type) (n : Nat)
  | call (t : Fin n) (o : Op)
  | step (t : Fin n) (a : α)
  /-- the node at `a` is destroyed, and the `rc_ptr` in it with it -/
  | reclaim (a : α)
  deriving DecidableEq, Repr

variable [Fintype α]

/-- The strong count of the node at `a`. -/
def State.strong (s : State α n) (a : α) : Nat :=
  (if s.head = a then 1 else 0) + (if s.tail = a then 1 else 0) +
    (∑ b, if (s.node b).bind Node.next = some a then 1 else 0) +
    ∑ t, if (s.pc t).newNode = some a then 1 else 0

/-- Calls are made on `int`s smaller than the key of the tail sentinel. -/
def next (s : State α n) : Label α n → Option (State α n)
  | .call t o =>
    match s.pc t with
    | .idle =>
      if lowestKey ≤ o.key ∧ o.key < maxKey then
        some { s.setPc t (start o) with calls := s.calls.invoke t o }
      else none
    | _ => none
  | .step t a => step s t a
  | .reclaim a =>
    if s.strong a = 0 ∧ ∀ t, a ∉ (s.pc t).snapshots then some (s.setNode a none) else none

end Model

def machine (α : Type) [DecidableEq α] [Fintype α] (n : Nat) :
    Machine (State α n) (Label α n) where
  init s := ∃ a b, a ≠ b ∧ s = .initial a b
  next := next

/-- The sequential set. -/
def set : Seq (Finset Int) Op Bool where
  init := ∅
  apply
    | S, .find key => (S, key ∈ S)
    | S, .insert key => (insert key S, key ∉ S)
    | S, .remove key => (S.erase key, key ∈ S)

end Cdrc.LinkedList
