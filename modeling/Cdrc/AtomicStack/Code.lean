import Mathlib.Algebra.BigOperators.Group.Finset.Basic
import Mathlib.Data.Fintype.Basic
import Cdrc.Lib.Runs
import Cdrc.Lib.Objects

/-! # `atomic_stack`: Treiber's stack over `atomic_rc_ptr`

Any number of threads call `push_front`, `pop_front` and `front`. A step is one `load`,
`get_snapshot` or `compare_and_swap` on `head`, one access to a node, or the return. A
`compare_exchange_weak` that fails is a failed `compare_and_swap` and then a reload of its
own.

Nodes live at addresses, of which there are finitely many. The strong count of an address
is the number of `rc_ptr`s and locations that refer to it. A node whose count is zero and
which no snapshot protects may be reclaimed at any time, and its address be given to the
next `make_rc`. -/
namespace Cdrc.AtomicStack
open Cdrc.Lib.Runs Cdrc.Lib.Objects

inductive Op (β : Type)
  | pushFront (t : β)
  | popFront
  | front
  deriving DecidableEq, Repr

inductive Ret (β : Type)
  | pushed
  | value (t : Option β)
  deriving DecidableEq, Repr

structure Node (α β : Type) where
  t : β
  next : Option α
  deriving DecidableEq, Repr

/-- A call between two of its steps. -/
inductive Pc (α β : Type)
  | idle
  /-- `push_front`, before `head.load()` -/
  | pushLoad (t : β)
  /-- before `make_rc<Node>`, with the `rc_ptr` that was loaded -/
  | pushNew (t : β) (next : Option α)
  /-- before `compare_and_swap(new_node->next, new_node)` -/
  | pushCas (newNode : α)
  /-- it failed, before `new_node->next = load()` -/
  | pushReload (newNode : α)
  /-- it succeeded, before the return -/
  | pushed (newNode : α)
  /-- `pop_front`, before `head.get_snapshot()` -/
  | popSnapshot
  /-- before `ss->next` is read -/
  | popNext (ss : α)
  /-- before `compare_and_swap(ss, ss->next)` -/
  | popCas (ss : α) (next : Option α)
  /-- it failed, before `ss = get_snapshot()` -/
  | popReload (ss : α)
  /-- `front`, before `head.get_snapshot()` -/
  | frontSnapshot
  /-- `pop_front` after its `compare_and_swap`, or `front`, before `ss->t` is read -/
  | value (ss : α)
  /-- before the return -/
  | ret (r : Option β)
  deriving DecidableEq, Repr

structure State (α β : Type) (n : Nat) where
  head : Option α
  node : α → Option (Node α β)
  pc : Fin n → Pc α β
  calls : Calls (Fin n) (Op β) (Ret β)

def State.initial {α β : Type} {n : Nat} : State α β n where
  head := none
  node _ := none
  pc _ := .idle
  calls := .empty

section Model
variable {α β : Type} [DecidableEq α] {n : Nat}

/-- The call owns an `rc_ptr` to `a`. -/
def Pc.holds (a : α) : Pc α β → Bool
  | .pushNew _ next => next = some a
  | .pushCas newNode => newNode = a
  | .pushReload newNode => newNode = a
  | .pushed newNode => newNode = a
  | _ => false

/-- The call has a snapshot of `a`. -/
def Pc.protects (a : α) : Pc α β → Bool
  | .popNext ss => ss = a
  | .popCas ss _ => ss = a
  | .popReload ss => ss = a
  | .value ss => ss = a
  | _ => false

/-- The strong count of the object at `a`. -/
def State.strong [Fintype α] (s : State α β n) (a : α) : Nat :=
  (if s.head = some a then 1 else 0) +
    (∑ b, if (s.node b).bind Node.next = some a then 1 else 0) +
    ∑ t, if (s.pc t).holds a then 1 else 0

def State.setPc (s : State α β n) (t : Fin n) (pc : Pc α β) : State α β n :=
  { s with pc := Function.update s.pc t pc }

def State.setNode (s : State α β n) (a : α) (nd : Option (Node α β)) : State α β n :=
  { s with node := Function.update s.node a nd }

def State.respond (s : State α β n) (t : Fin n) (r : Ret β) : State α β n :=
  { s.setPc t .idle with calls := s.calls.respond t r }

/-- `snapshot_ptr` that `get_snapshot` returned, as `pop_front` goes on with it. -/
def popFrom : Option α → Pc α β
  | some ss => .popNext ss
  | none => .ret none

/-- The next step of thread `t`; `a` is the address `make_rc` gets. -/
def step (s : State α β n) (t : Fin n) (a : α) : Option (State α β n) :=
  match s.pc t with
  | .idle => none
  | .pushLoad v => some (s.setPc t (.pushNew v s.head))
  | .pushNew v next =>
    match s.node a with
    | none => some ((s.setNode a (some ⟨v, next⟩)).setPc t (.pushCas a))
    | some _ => none
  | .pushCas newNode =>
    (s.node newNode).map fun nd =>
      if s.head = nd.next then { s with head := some newNode }.setPc t (.pushed newNode)
      else s.setPc t (.pushReload newNode)
  | .pushReload newNode =>
    (s.node newNode).map fun nd =>
      (s.setNode newNode (some { nd with next := s.head })).setPc t (.pushCas newNode)
  | .pushed _ => some (s.respond t .pushed)
  | .popSnapshot => some (s.setPc t (popFrom s.head))
  | .popNext ss => (s.node ss).map fun nd => s.setPc t (.popCas ss nd.next)
  | .popCas ss next =>
    if s.head = some ss then some ({ s with head := next }.setPc t (.value ss))
    else some (s.setPc t (.popReload ss))
  | .popReload _ => some (s.setPc t (popFrom s.head))
  | .frontSnapshot =>
    match s.head with
    | some ss => some (s.setPc t (.value ss))
    | none => some (s.setPc t (.ret none))
  | .value ss => (s.node ss).map fun nd => s.setPc t (.ret (some nd.t))
  | .ret r => some (s.respond t (.value r))

def start : Op β → Pc α β
  | .pushFront t => .pushLoad t
  | .popFront => .popSnapshot
  | .front => .frontSnapshot

inductive Label (α β : Type) (n : Nat)
  | call (t : Fin n) (o : Op β)
  | step (t : Fin n) (a : α)
  /-- the node at `a` is destroyed, and the `rc_ptr` in it with it -/
  | reclaim (a : α)
  deriving DecidableEq, Repr

variable [Fintype α]

def next (s : State α β n) : Label α β n → Option (State α β n)
  | .call t o =>
    match s.pc t with
    | .idle => some { s.setPc t (start o) with calls := s.calls.invoke t o }
    | _ => none
  | .step t a => step s t a
  | .reclaim a =>
    if s.strong a = 0 ∧ ∀ t, (s.pc t).protects a = false then some (s.setNode a none) else none

end Model

def machine (α β : Type) [DecidableEq α] [Fintype α] (n : Nat) :
    Machine (State α β n) (Label α β n) where
  init s := s = .initial
  next := next

/-- The sequential stack. -/
def stack (β : Type) : Seq (List β) (Op β) (Ret β) where
  init := []
  apply
    | l, .pushFront t => (t :: l, .pushed)
    | l, .popFront => (l.tail, .value l.head?)
    | l, .front => (l, .value l.head?)

end Cdrc.AtomicStack
