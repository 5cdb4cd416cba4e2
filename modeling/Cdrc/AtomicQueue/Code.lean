import Mathlib.Algebra.BigOperators.Group.Finset.Basic
import Mathlib.Data.Fintype.Basic
import Cdrc.Lib.Runs
import Cdrc.Lib.Objects

/-! # `weak_ptr_queue::atomic_queue`: the DoubleLink queue

Any number of threads call `enqueue` and `dequeue`. A step is one operation on `head`,
`tail`, a `next` or a `prev`, one other access to a node, or the return.

Nodes live at addresses, of which there are finitely many. `next` is an `atomic_rc_ptr` and
counts in the strong count of the node it refers to, `prev` is an `atomic_weak_ptr` and
counts in the weak count. A node to which no `rc_ptr` refers and of which there is no `snapshot_ptr`
may expire at any time, when the last of its deferred decrements is ejected: its use count is zero
from then on. A `weak_snapshot_ptr` does not keep it from that, only from being disposed of, which
is when the pointers in it are dropped. Its address is given to the next `make_shared` once its weak
count is zero too, which is when the memory of a counted object is freed. -/
namespace Cdrc.AtomicQueue
open Cdrc.Lib.Runs Cdrc.Lib.Objects

inductive Op (β : Type)
  | enqueue (t : β)
  | dequeue
  deriving DecidableEq, Repr

inductive Ret (β : Type)
  | enqueued
  | value (t : Option β)
  deriving DecidableEq, Repr

structure Node (α β : Type) where
  t : β
  next : Option α
  prev : Option α
  deriving DecidableEq, Repr

/-- A call between two of its steps. -/
inductive Pc (α β : Type)
  | idle
  /-- `enqueue`, before `make_shared` -/
  | enqNew (t : β)
  /-- before `tail.get_snapshot()` -/
  | enqTail (newNode : α)
  /-- before `new_node->prev.store(ltail)` -/
  | enqPrev (newNode ltail : α)
  /-- before `ltail->prev.get_snapshot()` -/
  | enqLprev (newNode ltail : α)
  /-- before `lprev->next == nullptr` -/
  | enqCheck (newNode ltail lprev : α)
  /-- before `lprev->next.store(ltail)` -/
  | enqHelp (newNode ltail lprev : α)
  /-- before `tail.compare_and_swap(ltail, new_node)` -/
  | enqCas (newNode ltail : α) (lprev : Option α)
  /-- it succeeded, before `ltail->next.store(new_node)` -/
  | enqStore (newNode ltail : α) (lprev : Option α)
  /-- before the return -/
  | enqueued
  /-- `dequeue`, before `head.get_snapshot()` -/
  | deqHead
  /-- before `lhead->next.get_snapshot()` -/
  | deqNext (lhead : α)
  /-- before `head.compare_and_swap(lhead, lnext)` -/
  | deqCas (lhead lnext : α)
  /-- it succeeded, before `lnext->t` is read -/
  | deqValue (lhead lnext : α)
  /-- before the return -/
  | ret (r : Option β)
  deriving DecidableEq, Repr

/-- `head` and `tail` are never null: the constructor stores the sentinel node in both. -/
structure State (α β : Type) (n : Nat) where
  head : α
  tail : α
  node : α → Option (Node α β)
  /-- the use count of what is at the address is zero -/
  expired : α → Bool
  pc : Fin n → Pc α β
  calls : Calls (Fin n) (Op β) (Ret β)

/-- The `rc_ptr` that the call owns. -/
def Pc.newNode {α β : Type} : Pc α β → Option α
  | .enqTail newNode => some newNode
  | .enqPrev newNode _ => some newNode
  | .enqLprev newNode _ => some newNode
  | .enqCheck newNode _ _ => some newNode
  | .enqHelp newNode _ _ => some newNode
  | .enqCas newNode _ _ => some newNode
  | .enqStore newNode _ _ => some newNode
  | _ => none

/-- The nodes that the call has a `snapshot_ptr` of. -/
def Pc.strongSnapshots {α β : Type} : Pc α β → List α
  | .enqPrev _ ltail => [ltail]
  | .enqLprev _ ltail => [ltail]
  | .enqCheck _ ltail _ => [ltail]
  | .enqHelp _ ltail _ => [ltail]
  | .enqCas _ ltail _ => [ltail]
  | .enqStore _ ltail _ => [ltail]
  | .deqNext lhead => [lhead]
  | .deqCas lhead lnext => [lhead, lnext]
  | .deqValue lhead lnext => [lhead, lnext]
  | _ => []

/-- And those of which it has a `weak_snapshot_ptr`, too: `lprev`. -/
def Pc.snapshots {α β : Type} : Pc α β → List α
  | .enqPrev _ ltail => [ltail]
  | .enqLprev _ ltail => [ltail]
  | .enqCheck _ ltail lprev => [ltail, lprev]
  | .enqHelp _ ltail lprev => [ltail, lprev]
  | .enqCas _ ltail lprev => ltail :: lprev.toList
  | .enqStore _ ltail lprev => ltail :: lprev.toList
  | .deqNext lhead => [lhead]
  | .deqCas lhead lnext => [lhead, lnext]
  | .deqValue lhead lnext => [lhead, lnext]
  | _ => []

section Model
variable {α β : Type} [DecidableEq α] {n : Nat}

/-- The queue after its constructor, with the sentinel node at `a`. -/
def State.initial [Inhabited β] (a : α) : State α β n where
  head := a
  tail := a
  node := Function.update (fun _ => none) a (some ⟨default, none, none⟩)
  expired := Function.update (fun _ => true) a false
  pc _ := .idle
  calls := .empty

def State.setPc (s : State α β n) (t : Fin n) (pc : Pc α β) : State α β n :=
  { s with pc := Function.update s.pc t pc }

def State.setNode (s : State α β n) (a : α) (nd : Option (Node α β)) : State α β n :=
  { s with node := Function.update s.node a nd }

def State.setExpired (s : State α β n) (a : α) (b : Bool) : State α β n :=
  { s with expired := Function.update s.expired a b }

def State.respond (s : State α β n) (t : Fin n) (r : Ret β) : State α β n :=
  { s.setPc t .idle with calls := s.calls.respond t r }

variable [Fintype α]

/-- The `rc_ptr`s and `atomic_rc_ptr`s that refer to the node at `a`. -/
def State.strong (s : State α β n) (a : α) : Nat :=
  (if s.head = a then 1 else 0) + (if s.tail = a then 1 else 0) +
    (∑ b, if (s.node b).bind Node.next = some a then 1 else 0) +
    ∑ t, if (s.pc t).newNode = some a then 1 else 0

/-- The weak count of the node at `a`, once it has been disposed of. -/
def State.weak (s : State α β n) (a : α) : Nat :=
  ∑ b, if (s.node b).bind Node.prev = some a then 1 else 0

/-- The next step of thread `t`; `a` is the address `make_shared` gets. -/
def step (s : State α β n) (t : Fin n) (a : α) : Option (State α β n) :=
  match s.pc t with
  | .idle => none
  | .enqNew v =>
    if s.node a = none ∧ s.weak a = 0 then
      some (((s.setNode a (some ⟨v, none, none⟩)).setExpired a false).setPc t (.enqTail a))
    else none
  | .enqTail newNode => some (s.setPc t (.enqPrev newNode s.tail))
  | .enqPrev newNode ltail =>
    (s.node newNode).map fun nd =>
      (s.setNode newNode (some { nd with prev := some ltail })).setPc t (.enqLprev newNode ltail)
  | .enqLprev newNode ltail =>
    (s.node ltail).map fun nd =>
      match nd.prev.filter fun lprev => !s.expired lprev with
      | some lprev => s.setPc t (.enqCheck newNode ltail lprev)
      | none => s.setPc t (.enqCas newNode ltail none)
  | .enqCheck newNode ltail lprev =>
    (s.node lprev).map fun nd =>
      if nd.next = none then s.setPc t (.enqHelp newNode ltail lprev)
      else s.setPc t (.enqCas newNode ltail (some lprev))
  | .enqHelp newNode ltail lprev =>
    (s.node lprev).map fun nd =>
      (s.setNode lprev (some { nd with next := some ltail })).setPc t
        (.enqCas newNode ltail (some lprev))
  | .enqCas newNode ltail lprev =>
    if s.tail = ltail then
      some ({ s with tail := newNode }.setPc t (.enqStore newNode ltail lprev))
    else some (s.setPc t (.enqTail newNode))
  | .enqStore newNode ltail _ =>
    (s.node ltail).map fun nd =>
      (s.setNode ltail (some { nd with next := some newNode })).setPc t .enqueued
  | .enqueued => some (s.respond t .enqueued)
  | .deqHead => some (s.setPc t (.deqNext s.head))
  | .deqNext lhead =>
    (s.node lhead).map fun nd =>
      match nd.next with
      | some lnext => s.setPc t (.deqCas lhead lnext)
      | none => s.setPc t (.ret none)
  | .deqCas lhead lnext =>
    if s.head = lhead then some ({ s with head := lnext }.setPc t (.deqValue lhead lnext))
    else some (s.setPc t .deqHead)
  | .deqValue _ lnext => (s.node lnext).map fun nd => s.setPc t (.ret (some nd.t))
  | .ret r => some (s.respond t (.value r))

def start : Op β → Pc α β
  | .enqueue t => .enqNew t
  | .dequeue => .deqHead

inductive Label (α β : Type) (n : Nat)
  | call (t : Fin n) (o : Op β)
  | step (t : Fin n) (a : α)
  /-- the use count of the node at `a` becomes zero -/
  | expire (a : α)
  /-- `dispose`: the pointers in the node at `a` are dropped -/
  | dispose (a : α)
  deriving DecidableEq, Repr

def next (s : State α β n) : Label α β n → Option (State α β n)
  | .call t o =>
    match s.pc t with
    | .idle => some { s.setPc t (start o) with calls := s.calls.invoke t o }
    | _ => none
  | .step t a => step s t a
  | .expire a =>
    if s.strong a = 0 ∧ ∀ t, a ∉ (s.pc t).strongSnapshots then some (s.setExpired a true) else none
  | .dispose a =>
    if s.expired a = true ∧ ∀ t, a ∉ (s.pc t).snapshots then some (s.setNode a none) else none

end Model

def machine (α β : Type) [DecidableEq α] [Fintype α] [Inhabited β] (n : Nat) :
    Machine (State α β n) (Label α β n) where
  init s := ∃ a, s = .initial a
  next := next

/-- The sequential queue. -/
def queue (β : Type) : Seq (List β) (Op β) (Ret β) where
  init := []
  apply
    | l, .enqueue t => (l ++ [t], .enqueued)
    | l, .dequeue => (l.tail, .value l.head?)

end Cdrc.AtomicQueue
