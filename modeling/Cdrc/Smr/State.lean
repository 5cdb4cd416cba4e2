import Cdrc.Lib.Threads
import Cdrc.StickyCounter.Calls
import Cdrc.CountedObject.LifeCycle

/-! # Reference counting over a memory manager: the state

Any number of threads share `atomic_rc_ptr`s, `atomic_weak_ptr`s and the objects they
lead to, with one of the three memory managers `acquire_retire` (hazard pointers),
`acquire_retire_ebr` and `acquire_retire_ibr`. An object is known by its address; an
address can be used again after `delete`. The mark of a pointer is not part of the
state: where marked pointers are compared, pointers to one object can be different. The
strong count is the word of a sticky counter, with its flags. A weak count is a number: it stands
for a counter that never holds more than its `max_value`.

A pointer that owns a unit of a counter is a `Token`: the object, what releasing the
unit does, and a number that tells two units apart. A token stands in a cell (an
`rc_ptr`, a shared location, or the two pointers an operation has in its hands) or in a
deferred list, and `home` says where. The weak unit that an object's strong units hold
together is the token `implicit o`.

What the code does not have is marked as bookkeeping below: it records which pointers a
thread has validated and not given up (`guards`), which increment it still owes (`debt`),
which objects it is disposing of (`owned`), and for the epoch backends which units a
thread's critical section is meant to keep (`prot`). No step reads it, except to rule
out what the documentation asks callers not to do. -/
namespace Cdrc.Smr
open Cdrc.StickyCounter Cdrc.CountedObject

inductive Backend
  /-- `acquire_retire` -/
  | hp
  /-- `acquire_retire_ebr` -/
  | ebr
  /-- `acquire_retire_ibr` -/
  | ibr
  deriving DecidableEq, Repr

structure Config where
  backend : Backend
  snapshotSlots : Nat
  ejectDelay : Nat
  epochFrequency : Nat
  /-- a counter call is one step; else every access of a call is -/
  atomicCounters : Bool
  /-- `exchange` and `swap` may be called -/
  exchanges : Bool
  deriving DecidableEq, Repr

abbrev Obj := Nat

/-- Which of the two counters of an object. -/
inductive Kind
  | strong
  | weak
  deriving DecidableEq, Repr

/-- What releasing a unit of the counter is as a deferred action. -/
def Kind.type : Kind → RetireType
  | .strong => .decrementStrongCount
  | .weak => .decrementWeakCount

/-- One unit. -/
structure Token where
  obj : Obj
  type : RetireType
  id : Nat
  deriving DecidableEq, Repr

/-- The weak unit of the strong units of `o`. -/
def implicit (o : Obj) : Token := ⟨o, .dispose, 0⟩

/-- Where a pointer that owns a unit can be. -/
inductive Place (n : Nat)
  /-- an `rc_ptr`, a `weak_ptr`, or a snapshot without a slot -/
  | var (κ : Kind) (i : Nat)
  /-- an `atomic_rc_ptr` or an `atomic_weak_ptr` -/
  | loc (κ : Kind) (i : Nat)
  /-- the pointer an operation of `t` has taken out of a location -/
  | hand (t : Fin n)
  /-- the pointer an operation of `t` is about to put into a location -/
  | desired (t : Fin n)
  deriving DecidableEq, Repr

inductive Home (n : Nat)
  | cell (p : Place n)
  /-- in the deferred list of `t` or in its pass -/
  | list (t : Fin n)
  /-- `implicit o` while `o` has strong units -/
  | alive
  /-- `implicit o` while `t` disposes of `o` -/
  | owned (t : Fin n)
  deriving DecidableEq, Repr

/-- A `counted_object`; with `acquire_retire_ibr` a `stamped_counted_object`. -/
structure Object where
  ref : Word 30
  weak : Nat
  birthTS : Nat
  /-- `~T` has not started -/
  alive : Bool
  deriving DecidableEq, Repr

/-- A validated pointer: an acquired pointer or a snapshot. -/
structure Guard where
  obj : Obj
  kind : Kind
  birthTS : Nat
  /-- `get_use_count` was seen positive under it -/
  confirmed : Bool
  deriving DecidableEq, Repr

/-- A unit of `obj` is in a location and its increment is still to come. -/
structure Debt where
  obj : Obj
  kind : Kind
  /-- the guard the thread holds -/
  guard : Nat
  deriving DecidableEq, Repr

/-- How far a thread is with disposing of an object. -/
inductive Stage
  /-- the last strong unit was subtracted, before the zero flag is set -/
  | parked
  /-- `ref_cnt.decrement` returned true -/
  | zero
  /-- `weak_cnt` was read as 1 -/
  | immediate
  /-- `dispose` was ejected -/
  | disposing
  /-- the last weak unit was released -/
  | last
  deriving DecidableEq, Repr

/-- An element of `deferred_destructs`: the time stamps are those of `RetiredObj`. -/
structure Entry where
  token : Token
  birthTS : Nat
  retireTS : Nat
  deriving DecidableEq, Repr

/-- The local variables of a pass over the deferred list. -/
structure Pass (n : Nat) where
  /-- the entries `remove_if` has not looked at -/
  todo : List Entry
  kept : List Entry
  /-- the slots the scan has not read -/
  toScan : List (Fin n × Nat)
  /-- what the scan has read: which slot announced which object -/
  saw : Finset ((Fin n × Nat) × Obj)
  /-- `announced` of `acquire_retire`; 0 is no entry -/
  announced : Obj → RetireType → Nat
  /-- `min_epoch` of `acquire_retire_ebr`; `none` is `no_epoch` -/
  minEpoch : Option Nat
  /-- `announced` of `acquire_retire_ibr`, with the thread each interval is of -/
  intervals : List (Fin n × Nat × Nat)
  /-- the start epoch that was read and whose end epoch was not -/
  start : Option (Fin n × Nat)

structure State (n : Nat) where
  mem : Obj → Option Object
  cell : Place n → Option Token
  /-- locations that were destroyed -/
  dead : Kind → Nat → Bool
  epoch : Nat
  /-- `announcement` is slot 0, `snapshot_announcements[i]` slot `i + 1` -/
  slots : Fin n → Nat → Option Obj
  /-- `none` is `no_epoch`; `critical_section` is set and cleared with it -/
  localEpoch : Fin n → Option Nat
  /-- the `epoch_guard`s of a thread, innermost first, with `engaged` -/
  engaged : Fin n → List Bool
  /-- `endTS_ann` -/
  endTS : Fin n → Nat
  deferred : Fin n → List Entry
  inProgress : Fin n → Bool
  /-- `amortized_work`, `eject_work`; these and `epoch_work` are `unsigned int`s -/
  work : Fin n → Nat
  epochWork : Fin n → Nat
  pass : Fin n → Option (Pass n)
  /-- memory that is not an object was accessed, or a pointer owns no unit -/
  fault : Bool
  -- bookkeeping
  home : Token → Option (Home n)
  /-- the unit has been in a location -/
  shared : Token → Bool
  nextId : Nat
  guards : Fin n → Nat → Option Guard
  debt : Fin n → Option Debt
  owned : Fin n → Obj → Option Stage
  /-- the variable an operation of `t` reads more than once -/
  reading : Fin n → Option (Kind × Nat)
  /-- the location an operation of `t` works on -/
  busy : Fin n → Option (Kind × Nat)
  /-- the units that were in a location while `t`'s section covered their object -/
  prot : Fin n → Token → Bool
  /-- the objects that `t`'s section covers (`acquire_retire_ibr`) -/
  cov : Fin n → Obj → Bool
  /-- the epoch `t` read last -/
  readTS : Fin n → Nat
  /-- `t`'s last protected load was made in an epoch past its `endTS` -/
  late : Fin n → Bool

def State.initial (n : Nat) : State n where
  mem _ := none
  cell _ := none
  dead _ _ := false
  epoch := 0
  slots _ _ := none
  localEpoch _ := none
  engaged _ := []
  endTS _ := 0
  deferred _ := []
  inProgress _ := false
  work _ := 0
  epochWork _ := 0
  pass _ := none
  fault := false
  home _ := none
  shared _ := false
  nextId := 0
  guards _ _ := none
  debt _ := none
  owned _ _ := none
  reading _ := none
  busy _ := none
  prot _ _ := false
  cov _ _ := false
  readTS _ := 0
  late _ := false

/-! ## Tokens -/

section Tokens
variable {n : Nat}

/-- Change the value of `f` at `t` and `i`. -/
def update₂ {α β γ : Type} [DecidableEq α] [DecidableEq β] (f : α → β → γ) (a : α) (b : β)
    (c : γ) : α → β → γ :=
  Function.update f a (Function.update (f a) b c)

/-- The unit in cell `p` goes to cell `q`. -/
def State.move (s : State n) (p q : Place n) : State n :=
  match s.cell p with
  | none => s
  | some k =>
    { s with
      cell := Function.update (Function.update s.cell p none) q (some k)
      home := Function.update s.home k (some (.cell q)) }

/-- A new unit of `o` in cell `q`. -/
def State.mint (s : State n) (q : Place n) (o : Obj) (κ : Kind) : State n :=
  { s with
    cell := Function.update s.cell q (some ⟨o, κ.type, s.nextId⟩)
    home := Function.update s.home ⟨o, κ.type, s.nextId⟩ (some (.cell q))
    nextId := s.nextId + 1 }

def inLoc : Option (Home n) → Bool
  | some (.cell (.loc _ _)) => true
  | _ => false

/-- Whether the critical section of `u` keeps the units of `o` that are in a location. -/
def State.covers (cfg : Config) (s : State n) (u : Fin n) (o : Obj) : Bool :=
  match cfg.backend with
  | .hp => false
  | .ebr => (s.localEpoch u).isSome
  | .ibr => s.cov u o

/-- The unit `k` has just been put into a location. -/
def State.enter (cfg : Config) (s : State n) (k : Token) : State n :=
  { s with
    shared := Function.update s.shared k true
    prot := fun u k' => s.prot u k' || (k' == k && s.covers cfg u k.obj) }

/-- From now on the section of `t` covers `o`. -/
def State.cover (s : State n) (t : Fin n) (o : Obj) : State n :=
  { s with
    cov := update₂ s.cov t o true
    prot := Function.update s.prot t fun k => s.prot t k || (k.obj == o && inLoc (s.home k)) }

end Tokens

/-! ## Counters -/

section Counters

/-- The result of a call that has returned. -/
def result : Pc 30 → Bool
  | .done (.bool b) => b
  | _ => false

/-- `ref_cnt.increment(1)`, a single access. -/
def Object.addRef (cfg : Config) (ob : Object) : Object × Bool :=
  if cfg.atomicCounters then
    let c := Atomic.increment ob.ref.toNat
    ({ ob with ref := BitVec.ofNat _ c.1 }, c.2)
  else
    let a := access ob.ref (.increment 1)
    ({ ob with ref := a.1 }, result a.2)

/-- The `fetch_sub` of `ref_cnt.decrement(1)`, or the whole call; whether the call has
not returned false yet. -/
def Object.releaseRef (cfg : Config) (ob : Object) : Object × Bool :=
  if cfg.atomicCounters then
    let c := Atomic.decrement ob.ref.toNat
    ({ ob with ref := BitVec.ofNat _ c.1 }, c.2)
  else
    let a := access ob.ref (.decrement 1)
    ({ ob with ref := a.1 }, a.2 == .decrementCas 1)

def Object.add (cfg : Config) (ob : Object) : Kind → Object × Bool
  | .strong => ob.addRef cfg
  | .weak => ({ ob with weak := (Atomic.increment ob.weak).1 }, (Atomic.increment ob.weak).2)

def Object.release (cfg : Config) (ob : Object) : Kind → Object × Bool
  | .strong => ob.releaseRef cfg
  | .weak => ({ ob with weak := (Atomic.decrement ob.weak).1 }, (Atomic.decrement ob.weak).2)

/-- The counter has room for one more unit, which is the caller's concern. -/
def Object.hasRoom (ob : Object) : Kind → Bool
  | .strong => ob.ref.toNat % (maxValue 30 + 1) < maxValue 30
  | .weak => true

end Counters

end Cdrc.Smr
