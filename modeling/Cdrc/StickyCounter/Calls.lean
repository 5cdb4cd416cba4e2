import Cdrc.Lib.Runs
import Cdrc.Lib.History
import Cdrc.StickyCounter.Word

/-! # Concurrent calls on one sticky counter

Any number of threads call `increment`, `decrement` and `load` on one counter; a
step performs one atomic access of one call. A `decrement(arg)` is issued by an owner
of `arg` units: the pool `owned` holds the units of the construction and of every
`increment` that returned `true`. `added` is everything ever added to the word, by
the constructor and by every `fetch_add`, also the failed ones; a step that would take
it past `max_value()` is not part of a run.

`Counter` is the sequential counter the calls are compared with, and
`Counter.Exact` the order of calls it accepts. -/
namespace Cdrc.StickyCounter
open Cdrc.Lib.Runs Cdrc.Lib.History

inductive Op (m : Nat) where
  | increment (arg : Word m)
  | decrement (arg : Word m)
  | load
  deriving DecidableEq, Repr

abbrev Hist (m : Nat) := List (Event (Op m) (Ret m))

/-- A call in flight. -/
structure Call (m : Nat) where
  id : Nat
  op : Op m
  pc : Pc m
  deriving DecidableEq, Repr

structure State (m : Nat) where
  x : Word m
  calls : List (Call m)
  owned : Nat
  added : Nat
  hist : Hist m
  nextId : Nat
  deriving DecidableEq

inductive Label (m : Nat) where
  /-- a thread calls the counter -/
  | call (o : Op m)
  /-- the `k`-th call in flight performs its next access -/
  | access (k : Nat)
  /-- the `k`-th call in flight returns -/
  | ret (k : Nat)
  deriving DecidableEq, Repr

def start {m : Nat} : Op m → Pc m
  | .increment arg => .increment arg
  | .decrement arg => .decrement arg
  | .load => .load

/-- What an access adds to the word. -/
def adds {m : Nat} : Pc m → Nat
  | .increment arg => arg.toNat
  | _ => 0

def State.invoke {m : Nat} (s : State m) (o : Op m) (owned : Nat) : State m :=
  { s with
    calls := s.calls ++ [⟨s.nextId, o, start o⟩]
    owned := owned
    hist := s.hist ++ [.inv s.nextId o]
    nextId := s.nextId + 1 }

/-- The `k`-th call, `c`, performs its next access. -/
def State.accessed {m : Nat} (s : State m) (k : Nat) (c : Call m) : State m :=
  { s with
    x := (access s.x c.pc).1
    calls := s.calls.set k { c with pc := (access s.x c.pc).2 }
    added := s.added + adds c.pc }

/-- The units a response hands to the caller. -/
def granted {m : Nat} : Op m → Ret m → Nat
  | .increment arg, .bool true => arg.toNat
  | _, _ => 0

def next {m : Nat} (s : State m) : Label m → Option (State m)
  | .call (.decrement arg) =>
    if arg.toNat ≤ s.owned then some (s.invoke (.decrement arg) (s.owned - arg.toNat)) else none
  | .call o => some (s.invoke o s.owned)
  | .access k =>
    match s.calls[k]? with
    | none | some ⟨_, _, .done _⟩ => none
    | some c => if s.added + adds c.pc ≤ maxValue m then some (s.accessed k c) else none
  | .ret k =>
    match s.calls[k]? with
    | some ⟨i, o, .done r⟩ =>
      some { s with
        calls := s.calls.eraseIdx k
        owned := s.owned + granted o r
        hist := s.hist ++ [.res i r] }
    | _ => none

/-- The counter constructed with `desired`, and its concurrent callers. -/
def machine {m : Nat} (desired : Word m) : Machine (State m) (Label m) where
  init s := desired.toNat ≤ maxValue m ∧
    s = ⟨construct desired, [], desired.toNat, desired.toNat, [], 0⟩
  next := next

/-! ## The sequential counter -/

namespace Counter

/-- What a call does to the count. -/
def after {m : Nat} (c : Nat) : Op m → Nat
  | .increment arg => if c = 0 then 0 else c + arg.toNat
  | .decrement arg => c - arg.toNat
  | .load => c

/-- What a call returns. -/
def result {m : Nat} (c : Nat) : Op m → Ret m
  | .increment _ => .bool (c ≠ 0)
  | .decrement arg => .bool (c - arg.toNat = 0)
  | .load => .val (BitVec.ofNat _ c)

def count {m : Nat} : Nat → List (Entry (Op m) (Ret m)) → Nat
  | c, [] => c
  | c, e :: L => count (after c e.op) L

/-- Every call returns what the sequential counter returns. -/
def Exact {m : Nat} : Nat → List (Entry (Op m) (Ret m)) → Prop
  | _, [] => True
  | c, e :: L => e.ret = result c e.op ∧ Exact (after c e.op) L

end Counter

/-! ## One unit at a time

`counted_object` only ever adds or releases one unit; where a development takes a
counter as atomic, these two functions are the counter. -/

namespace Atomic

/-- `increment(1)`. -/
def increment (c : Nat) : Nat × Bool := if c = 0 then (0, false) else (c + 1, true)

/-- `decrement(1)`. -/
def decrement (c : Nat) : Nat × Bool := (c - 1, c - 1 = 0)

end Atomic

end Cdrc.StickyCounter
