import Mathlib.Algebra.BigOperators.Group.Finset.Basic
import Mathlib.Data.Fintype.Basic
import Mathlib.Logic.Function.Basic
import Cdrc.Lib.Runs
import Cdrc.CountedObject.LifeCycle

/-! # Draining the pending actions of a heap

When no thread is active any more, what is left to do is `eject` on every pending entry
and on those that an `eject` adds: the destructor of each backend does so, in an order of
its own. An `eject` can bring a strong count to zero; then the object is disposed of at
once if it has no weak references, else by a pending `dispose`. Disposing of an object
runs the destructors of the smart pointers in it, and those of `rc_ptr` and `weak_ptr`
decrement at once, inside the destructor that called them. The counts are numbers, which stand for
sticky counters that never hold more than their `max_value`.

The calls that are in progress or to be made are a stack, innermost first. Which pending
entry is ejected next is up to the label. -/
namespace Cdrc.Drain
open Cdrc.Lib.Runs Cdrc.CountedObject

/-- A smart pointer inside an object, not null. -/
inductive Field (α : Type)
  | rcPtr (p : α)
  | weakPtr (p : α)
  | atomicRcPtr (p : α)
  | atomicWeakPtr (p : α)
  deriving DecidableEq, Repr

abbrev Entry (α : Type) := α × RetireType

/-- A call of the memory manager, to be made when those before it have returned. -/
inductive Call (α : Type)
  | decrementRefCnt (p : α)
  /-- also the last line of `dispose(ptr)`, after the destructor: the two are the same -/
  | decrementWeakCnt (p : α)
  | dispose (p : α)
  | destroy (p : α)
  | retire (e : Entry α)
  deriving DecidableEq, Repr

structure State (α : Type) where
  strong : α → Nat
  weak : α → Nat
  /-- the objects whose destructor was run, in the order in which it was -/
  disposed : List α
  /-- the objects passed to `delete_object` -/
  deleted : List α
  stack : List (Call α)
  pending : List (Entry α)

/-- The destructors of the smart pointers: the atomic ones defer their decrement. -/
def Field.destructor {α : Type} : Field α → Call α
  | .rcPtr p => .decrementRefCnt p
  | .weakPtr p => .decrementWeakCnt p
  | .atomicRcPtr p => .retire (p, .decrementStrongCount)
  | .atomicWeakPtr p => .retire (p, .decrementWeakCount)

/-- `eject(ptr, type)`. -/
def eject {α : Type} : Entry α → Call α
  | (p, .decrementStrongCount) => .decrementRefCnt p
  | (p, .decrementWeakCount) => .decrementWeakCnt p
  | (p, .dispose) => .dispose p

inductive Label
  /-- the `k`-th pending entry is ejected -/
  | eject (k : Nat)
  /-- the innermost call is made -/
  | run
  deriving DecidableEq, Repr

section Code
variable {α : Type} (fields : α → List (Field α))

def State.destroy (s : State α) (p : α) : State α := { s with deleted := s.deleted ++ [p] }

/-- `ptr->dispose()`: what the destructors of the fields will do comes first. -/
def State.dispose (s : State α) (p : α) (rest : List (Call α)) : State α :=
  { s with
    disposed := s.disposed ++ [p]
    stack := (fields p).map Field.destructor ++ rest }

/-- Nothing is left to do. -/
def State.Drained (s : State α) : Prop := s.stack = [] ∧ s.pending = []

variable [DecidableEq α]

def makeCall (s : State α) (rest : List (Call α)) : Call α → State α
  | .decrementRefCnt p =>
    let s' := { s with strong := Function.update s.strong p (s.strong p - 1), stack := rest }
    if s.strong p = 1 then
      -- release_refs: the immediate route, or a deferred dispose
      if s.weak p = 1 then s'.dispose fields p (.destroy p :: rest)
      else { s' with pending := s.pending ++ [(p, .dispose)] }
    else s'
  | .decrementWeakCnt p =>
    let s' := { s with weak := Function.update s.weak p (s.weak p - 1), stack := rest }
    if s.weak p = 1 then s'.destroy p else s'
  | .dispose p => s.dispose fields p (.decrementWeakCnt p :: rest)
  | .destroy p => { s with stack := rest }.destroy p
  | .retire e => { s with stack := rest, pending := s.pending ++ [e] }

def next (s : State α) : Label → Option (State α)
  | .eject k =>
    match s.stack, s.pending[k]? with
    | [], some e => some { s with stack := [eject e], pending := s.pending.eraseIdx k }
    | _, _ => none
  | .run =>
    match s.stack with
    | [] => none
    | c :: rest => some (makeCall fields s rest c)

def strongFields (o p : α) : Nat :=
  (fields o).countP fun f => f = .rcPtr p ∨ f = .atomicRcPtr p

def weakFields (o p : α) : Nat :=
  (fields o).countP fun f => f = .weakPtr p ∨ f = .atomicWeakPtr p

variable [Fintype α]

/-- The counts of a heap in which nothing has been drained yet agree with the pointers
that refer to the objects: `strongRoots` and `weakRoots` from outside, the fields of the
objects not disposed of, and the pending entries. The strong references of an object hold
one weak reference together, until it is disposed of; its disposal is pending when the
last strong reference is gone. -/
structure CountsAgree (strongRoots weakRoots : α → Nat) (s : State α) : Prop where
  stack : s.stack = []
  deleted : s.deleted = []
  disposed : s.disposed.Nodup
  strong : ∀ p, s.strong p = strongRoots p + ∑ o with o ∉ s.disposed, strongFields fields o p +
    s.pending.count (p, .decrementStrongCount)
  weak : ∀ p, s.weak p = weakRoots p + ∑ o with o ∉ s.disposed, weakFields fields o p +
    s.pending.count (p, .decrementWeakCount) + if p ∈ s.disposed then 0 else 1
  dispose : ∀ p, s.pending.count (p, .dispose) = if s.strong p = 0 ∧ p ∉ s.disposed then 1 else 0
  expired : ∀ p ∈ s.disposed, s.strong p = 0
  allocated : ∀ p, 0 < s.weak p

/-- Any heap over the objects of `α`. -/
def machine (strongRoots weakRoots : α → Nat) : Machine (State α) Label where
  init := CountsAgree fields strongRoots weakRoots
  next := next fields

end Code

end Cdrc.Drain
