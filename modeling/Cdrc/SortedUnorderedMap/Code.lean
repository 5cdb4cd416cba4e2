import Mathlib.Algebra.BigOperators.Group.Finset.Basic
import Mathlib.Data.Fintype.Basic
import Mathlib.Order.Defs.LinearOrder
import Cdrc.Lib.Runs
import Cdrc.Lib.Objects

/-! # `SortedUnorderedMapRCSS`: a hash map of sorted lists over `marked_arc_ptr`

Any number of threads call `get`, `insert` and `remove`. A step is one operation on a bucket or on the
`next` of a node, the allocation of a node, or the return. Keys and values of nodes never change, so reading
them is part of the step before.

A set mark in a `next` says that the node it is in has been removed. Only `remove` sets one, so the
pointer in a bucket has none. Nodes live at addresses, of which there are finitely many. A node whose strong
count is zero and which no snapshot protects may be reclaimed at any time, and its address be given to the
next `mkNode`. Where `findNode` starts again, the snapshots it had are dropped here at once and not when they
are overwritten, so that more can be reclaimed than in the source. -/
namespace Cdrc.SortedUnorderedMap
open Cdrc.Lib.Runs Cdrc.Lib.Objects

inductive Op (K V : Type)
  | get (key : K)
  | insert (key : K) (val : V)
  | remove (key : K)
  deriving DecidableEq, Repr

inductive Ret (V : Type)
  | value (res : Option V)
  | inserted (res : Bool)
  deriving DecidableEq, Repr

/-- What a `marked_arc_ptr` holds. -/
structure Link (α : Type) where
  ptr : Option α
  mark : Bool
  deriving DecidableEq, Repr

structure Node (α K V : Type) where
  key : K
  val : V
  next : Link α
  deriving DecidableEq, Repr

/-- A `marked_arc_ptr` of the map: a bucket, or the `next` of the node at `a`. -/
inductive Loc (m : Nat) (α : Type)
  | bucket (i : Fin m)
  | next (a : α)
  deriving DecidableEq, Repr

/-- What a `findNode` is for. -/
inductive Goal (α V : Type)
  | get
  | insert (tmpNode : α)
  | remove
  /-- the `findNode` at the end of a `remove` that has marked its node -/
  | removed (res : V)
  deriving DecidableEq, Repr

/-- A `findNode` between two of its steps. -/
inductive Find (α : Type)
  /-- before `bucket[idx].ui.get_snapshot()` -/
  | start
  /-- before `cur->next.get_snapshot()` -/
  | next (prev : Option α) (cur : α)
  /-- before `cur->next.contains(nxt)` -/
  | again (prev : Option α) (cur : α) (nxt : Option α) (cmark : Bool)
  /-- before `addr->contains(cur)` -/
  | validate (prev : Option α) (cur : α) (nxt : Option α) (cmark : Bool)
  /-- before `addr->compare_and_swap(cur, nxt)` -/
  | unlink (prev : Option α) (cur : α) (nxt : Option α)
  deriving DecidableEq, Repr

/-- A call between two of its steps. -/
inductive Pc (α K V : Type)
  | idle
  /-- `insert`, before `mkNode(key, val, tid)` -/
  | insertNew (key : K) (val : V)
  | find (goal : Goal α V) (key : K) (st : Find α)
  /-- `insert`, before `tmpNode->next.store_non_racy(cur)` -/
  | insertStore (key : K) (tmpNode : α) (prev cur : Option α)
  /-- before `addr->compare_and_swap(cur, std::move(tmpNode))` -/
  | insertCas (key : K) (tmpNode : α) (prev cur : Option α)
  /-- `remove`, before `cur->next.compare_and_set_mark(nxt, 1)` -/
  | removeMark (key : K) (prev : Option α) (cur : α) (nxt : Option α) (res : V)
  /-- it succeeded, before `addr->compare_and_swap(cur, nxt)` -/
  | removeUnlink (key : K) (prev : Option α) (cur : α) (nxt : Option α) (res : V)
  /-- before the return -/
  | ret (r : Ret V)
  deriving DecidableEq, Repr

structure State (α K V : Type) (m n : Nat) where
  bucket : Fin m → Option α
  node : α → Option (Node α K V)
  pc : Fin n → Pc α K V
  calls : Calls (Fin n) (Op K V) (Ret V)

def State.initial {α K V : Type} {m n : Nat} : State α K V m n where
  bucket _ := none
  node _ := none
  pc _ := .idle
  calls := .empty

section Model
variable {α K V : Type} {m n : Nat}

def Find.snapshots : Find α → List α
  | .start => []
  | .next prev cur => prev.toList ++ [cur]
  | .again prev cur nxt _ => prev.toList ++ [cur] ++ nxt.toList
  | .validate prev cur nxt _ => prev.toList ++ [cur] ++ nxt.toList
  | .unlink prev cur nxt => prev.toList ++ [cur] ++ nxt.toList

/-- The nodes that the call has snapshots of. -/
def Pc.snapshots : Pc α K V → List α
  | .find _ _ st => st.snapshots
  | .insertStore _ _ prev cur => prev.toList ++ cur.toList
  | .insertCas _ _ prev cur => prev.toList ++ cur.toList
  | .removeMark _ prev cur nxt _ => prev.toList ++ [cur] ++ nxt.toList
  | .removeUnlink _ prev cur nxt _ => prev.toList ++ [cur] ++ nxt.toList
  | _ => []

/-- The `rc_ptr` that the call owns. -/
def Pc.tmpNode : Pc α K V → Option α
  | .find (.insert tmpNode) _ _ => some tmpNode
  | .insertStore _ tmpNode _ _ => some tmpNode
  | .insertCas _ tmpNode _ _ => some tmpNode
  | _ => none

def State.setPc (s : State α K V m n) (t : Fin n) (pc : Pc α K V) : State α K V m n :=
  { s with pc := Function.update s.pc t pc }

def State.respond (s : State α K V m n) (t : Fin n) (r : Ret V) : State α K V m n :=
  { s.setPc t .idle with calls := s.calls.respond t r }

/-- `findNode` returns true, to what called it. -/
def found (goal : Goal α V) (key : K) (prev : Option α) (cur : α) (nxt : Option α) (val : V) : Pc α K V :=
  match goal with
  | .get => .ret (.value (some val))
  | .insert _ => .ret (.inserted false)
  | .remove => .removeMark key prev cur nxt val
  | .removed res => .ret (.value (some res))

/-- `findNode` returns false. -/
def notFound (goal : Goal α V) (key : K) (prev cur : Option α) : Pc α K V :=
  match goal with
  | .get => .ret (.value none)
  | .insert tmpNode => .insertStore key tmpNode prev cur
  | .remove => .ret (.value none)
  | .removed res => .ret (.value (some res))

/-- The beginning of the inner loop: `if(!cur) return false`. -/
def loop (goal : Goal α V) (key : K) (prev : Option α) : Option α → Pc α K V
  | none => notFound goal key prev none
  | some cur => .find goal key (.next prev cur)

def start : Op K V → Pc α K V
  | .get key => .find .get key .start
  | .insert key val => .insertNew key val
  | .remove key => .find .remove key .start

/-- What the location holds, if it is there. -/
def State.read (s : State α K V m n) : Loc m α → Option (Link α)
  | .bucket i => some ⟨s.bucket i, false⟩
  | .next a => (s.node a).map Node.next

variable [DecidableEq α]

def State.setNode (s : State α K V m n) (a : α) (nd : Option (Node α K V)) : State α K V m n :=
  { s with node := Function.update s.node a nd }

def State.write (s : State α K V m n) (p : Loc m α) (lk : Link α) : State α K V m n :=
  { s with
    bucket := match p with
      | .bucket i => Function.update s.bucket i lk.ptr
      | .next _ => s.bucket
    node := match p with
      | .bucket _ => s.node
      | .next a => Function.update s.node a ((s.node a).map fun nd => { nd with next := lk }) }

/-- `compare_and_swap` of pointers without marks at `p`, with what follows on success and on failure. -/
def State.cas (s : State α K V m n) (t : Fin n) (p : Loc m α) (expected desired : Option α)
    (succ fail : Pc α K V) : Option (State α K V m n) :=
  (s.read p).map fun lk =>
    if lk = ⟨expected, false⟩ then (s.write p ⟨desired, false⟩).setPc t succ else s.setPc t fail

variable [LinearOrder K] (idx : K → Fin m)

/-- `addr = (prev ? &(prev->next) : &bucket[idx].ui)` -/
def addr (prev : Option α) (key : K) : Loc m α :=
  match prev with
  | some a => .next a
  | none => .bucket (idx key)

/-- The next step of a `findNode` by thread `t`. -/
def findStep (s : State α K V m n) (t : Fin n) (goal : Goal α V) (key : K) :
    Find α → Option (State α K V m n)
  | .start => some (s.setPc t (loop goal key none (s.bucket (idx key))))
  | .next prev cur =>
    (s.node cur).map fun nd => s.setPc t (.find goal key (.again prev cur nd.next.ptr nd.next.mark))
  | .again prev cur nxt cmark =>
    (s.node cur).map fun nd =>
      if nd.next = ⟨nxt, cmark⟩ then s.setPc t (.find goal key (.validate prev cur nxt cmark))
      else s.setPc t (.find goal key .start)
  | .validate prev cur nxt cmark =>
    (s.read (addr idx prev key)).bind fun lk =>
      (s.node cur).map fun nd =>
        if lk ≠ ⟨some cur, false⟩ then s.setPc t (.find goal key .start)
        else if cmark = true then s.setPc t (.find goal key (.unlink prev cur nxt))
        else if nd.key < key then s.setPc t (loop goal key (some cur) nxt)
        else if nd.key = key then s.setPc t (found goal key prev cur nxt nd.val)
        else s.setPc t (notFound goal key prev (some cur))
  | .unlink prev cur nxt =>
    s.cas t (addr idx prev key) (some cur) nxt (loop goal key prev nxt) (.find goal key .start)

/-- The next step of thread `t`; `a` is the address `mkNode` gets. -/
def step (s : State α K V m n) (t : Fin n) (a : α) : Option (State α K V m n) :=
  match s.pc t with
  | .idle => none
  | .insertNew key val =>
    match s.node a with
    | none => some ((s.setNode a (some ⟨key, val, ⟨none, false⟩⟩)).setPc t (.find (.insert a) key .start))
    | some _ => none
  | .find goal key st => findStep idx s t goal key st
  | .insertStore key tmpNode prev cur =>
    (s.node tmpNode).map fun _ =>
      (s.write (.next tmpNode) ⟨cur, false⟩).setPc t (.insertCas key tmpNode prev cur)
  | .insertCas key tmpNode prev cur =>
    s.cas t (addr idx prev key) cur (some tmpNode) (.ret (.inserted true)) (.find (.insert tmpNode) key .start)
  | .removeMark key prev cur nxt res =>
    (s.node cur).map fun nd =>
      if nd.next = ⟨nxt, false⟩ then
        (s.write (.next cur) ⟨nxt, true⟩).setPc t (.removeUnlink key prev cur nxt res)
      else s.setPc t (.find .remove key .start)
  | .removeUnlink key prev cur nxt res =>
    s.cas t (addr idx prev key) (some cur) nxt (.ret (.value (some res))) (.find (.removed res) key .start)
  | .ret r => some (s.respond t r)

inductive Label (α K V : Type) (n : Nat)
  | call (t : Fin n) (o : Op K V)
  | step (t : Fin n) (a : α)
  /-- the node at `a` is destroyed, and the `rc_ptr` in it with it -/
  | reclaim (a : α)
  deriving DecidableEq, Repr

variable [Fintype α]

/-- The strong count of the node at `a`. -/
def State.strong (s : State α K V m n) (a : α) : Nat :=
  (∑ i, if s.bucket i = some a then 1 else 0) +
    (∑ b, if (s.read (.next b)).bind Link.ptr = some a then 1 else 0) +
    ∑ t, if (s.pc t).tmpNode = some a then 1 else 0

def next (s : State α K V m n) : Label α K V n → Option (State α K V m n)
  | .call t o =>
    match s.pc t with
    | .idle => some { s.setPc t (start o) with calls := s.calls.invoke t o }
    | _ => none
  | .step t a => step idx s t a
  | .reclaim a =>
    if s.strong a = 0 ∧ ∀ t, a ∉ (s.pc t).snapshots then some (s.setNode a none) else none

end Model

section Machine
variable {K : Type} [LinearOrder K] {m : Nat} [NeZero m]

/-- `hash_fn(key)%idxSize` -/
def idxOf (hashFn : K → Nat) (m : Nat) [NeZero m] (key : K) : Fin m := Fin.ofNat m (hashFn key)

/-- The map with `m` buckets, used by `n` threads. -/
def machine (α V : Type) [DecidableEq α] [Fintype α] (hashFn : K → Nat) (m n : Nat) [NeZero m] :
    Machine (State α K V m n) (Label α K V n) where
  init s := s = .initial
  next := next (idxOf hashFn m)

/-- The sequential map. -/
def map (K V : Type) [DecidableEq K] : Seq (K → Option V) (Op K V) (Ret V) where
  init _ := none
  apply
    | f, .get key => (f, .value (f key))
    | f, .insert key val =>
      match f key with
      | none => (Function.update f key (some val), .inserted true)
      | some _ => (f, .inserted false)
    | f, .remove key => (Function.update f key none, .value (f key))

end Machine

end Cdrc.SortedUnorderedMap
