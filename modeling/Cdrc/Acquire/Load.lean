import Mathlib.Logic.Function.Basic
import Cdrc.Lib.Runs
import Cdrc.CountedObject.LifeCycle

/-! # `load` of one thread under the four backends

One thread, inside its backend's guard, uses `rc_ptr`s, `weak_ptr`s, `atomic_rc_ptr`s and
`atomic_weak_ptr`s with marked pointers. `load` of the atomic ones is `acquire` and an
increment, and `acquire` is written in four ways: announce and validate (`acquire_retire`),
a plain load (`acquire_retire_ebr`, `acquire_retire_hyaline`), and `protect_snapshot` in
`acquire_retire_ibr`, which takes a pointer whose use count is zero for a null one.

The smart pointers are cells in one list, those inside objects among them: a destructor
drops its cells one after the other. A deferred entry may be ejected whenever the thread is
between two operations; the backends do so at different times. Three of them eject an entry as
the type it was retired with, `acquire_retire_hyaline` as the type that its batch was begun with.
An object is at an address while its weak count is positive. The counts are numbers, which stand
for sticky counters that never hold more than their `max_value`. -/
namespace Cdrc.Acquire
open Cdrc.Lib.Runs Cdrc.CountedObject

inductive Backend
  | hp
  | ebr
  | ibr
  | hyaline
  deriving DecidableEq, Repr

inductive Kind
  | strong
  | weak
  deriving DecidableEq, Repr

def Kind.type : Kind → RetireType
  | .strong => .decrementStrongCount
  | .weak => .decrementWeakCount

/-- `marked_ptr`. -/
structure MarkedPtr (α : Type) where
  obj : Option α
  mark : Fin 4
  deriving DecidableEq, Repr

def MarkedPtr.null {α : Type} : MarkedPtr α := ⟨none, 0⟩

/-- An `rc_ptr`, `weak_ptr`, `atomic_rc_ptr` or `atomic_weak_ptr`. -/
structure Cell (α : Type) where
  atomic : Bool
  kind : Kind
  ptr : MarkedPtr α
  deriving DecidableEq, Repr

/-- A deferred entry. -/
structure Deferred (α : Type) where
  obj : α
  type : RetireType
  /-- the type that it will be ejected as -/
  applied : RetireType
  deriving DecidableEq, Repr

structure State (α : Type) where
  strong : α → Nat
  weak : α → Nat
  cells : List (Cell α)
  pending : List (Deferred α)
  /-- the type whose function the REFS node of the local batch keeps, if there is a batch
  (`acquire_retire_hyaline`) -/
  batch : Option RetireType
  epoch : Nat
  /-- `endTS_ann` of the thread's slot (`acquire_retire_ibr`) -/
  endTS : Nat
  /-- `announcement` of the thread's slot (`acquire_retire`) -/
  announcement : Option α

def State.initial {α : Type} : State α := ⟨fun _ => 0, fun _ => 0, [], [], none, 0, 0, none⟩

section Code
variable {α : Type} [DecidableEq α]

/-! ## `acquire` -/

/-- `acquire` of `acquire_retire`, on a location that holds `ptr`. -/
def acquireHp (ptr : MarkedPtr α) : Nat → State α → Option (State α × MarkedPtr α)
  | 0, _ => none
  | fuel + 1, s =>
    let result := ptr
    let s' := { s with announcement := result.obj }
    if ptr ≠ result then acquireHp ptr fuel s' else some (s', result)

/-- `protect_snapshot` of `acquire_retire_ibr`, with `p_epoch` read. -/
def protectSnapshotIbr (ptr : MarkedPtr α) : Nat → Nat → State α → Option (State α × MarkedPtr α)
  | 0, _, _ => none
  | fuel + 1, pEpoch, s =>
    let curTS := s.epoch
    if pEpoch = curTS then
      match ptr.obj with
      | some p => if s.strong p = 0 then some (s, .null) else some (s, ptr)
      | none => some (s, ptr)
    else protectSnapshotIbr ptr fuel curTS { s with endTS := curTS }

def acquire (B : Backend) (fuel : Nat) (s : State α) (ptr : MarkedPtr α) :
    Option (State α × MarkedPtr α) :=
  match B with
  | .hp => acquireHp ptr fuel s
  | .ebr => some (s, ptr)
  | .ibr => protectSnapshotIbr ptr fuel s.endTS s
  | .hyaline => some (s, ptr)

/-! ## The counters -/

def State.count (s : State α) : Kind → α → Nat
  | .strong => s.strong
  | .weak => s.weak

/-- `increment_ref_cnt`, `increment_weak_cnt`: whether the count was not zero. -/
def State.increment (s : State α) (κ : Kind) (p : α) : State α × Bool :=
  if 0 < s.count κ p then
    match κ with
    | .strong => ({ s with strong := Function.update s.strong p (s.strong p + 1) }, true)
    | .weak => ({ s with weak := Function.update s.weak p (s.weak p + 1) }, true)
  else (s, false)

/-- What an entry is ejected as. In a Hyaline batch the REFS node decides. -/
def State.applied (B : Backend) (s : State α) (type : RetireType) : RetireType :=
  match B with
  | .hyaline => s.batch.getD type
  | _ => type

def State.retire (B : Backend) (s : State α) (p : α) (type : RetireType) : State α :=
  let applied := s.applied B type
  { s with
    pending := s.pending ++ [⟨p, type, applied⟩]
    batch := if B = .hyaline then some applied else s.batch }

/-- `decrement_weak_cnt`. At zero the object is deleted. -/
def State.decrementWeakCnt (s : State α) (p : α) : State α :=
  { s with weak := Function.update s.weak p (s.weak p - 1) }

/-- `decrement_ref_cnt`. Without weak references the object is deleted at once. -/
def State.decrementRefCnt (B : Backend) (s : State α) (p : α) : State α :=
  let s' := { s with strong := Function.update s.strong p (s.strong p - 1) }
  if s.strong p = 1 then
    if s.weak p = 1 then { s' with weak := Function.update s.weak p 0 }
    else s'.retire B p .dispose
  else s'

def State.decrement (B : Backend) (s : State α) : Kind → α → State α
  | .strong => s.decrementRefCnt B
  | .weak => s.decrementWeakCnt

/-- `eject`. -/
def State.eject (B : Backend) (s : State α) (p : α) : RetireType → State α
  | .decrementStrongCount => s.decrementRefCnt B p
  | .decrementWeakCount => s.decrementWeakCnt p
  | .dispose => s.decrementWeakCnt p

/-! ## The operations -/

/-- `delayed_decrement_ref_cnt`, `delayed_decrement_weak_cnt` of what a location held. -/
def State.retireOld (B : Backend) (s : State α) (κ : Kind) (old : MarkedPtr α) : State α :=
  match old.obj with
  | some p => s.retire B p κ.type
  | none => s

/-- `rc_ptr(ptr, AddRef::yes)`, `weak_ptr(ptr, AddRef::yes)`. Only the latter looks at
the result of the increment. -/
def State.addRef (s : State α) (κ : Kind) (ptr : MarkedPtr α) : State α × MarkedPtr α :=
  match ptr.obj with
  | some p =>
    match κ, s.increment κ p with
    | .strong, (s', _) => (s', ptr)
    | .weak, (s', true) => (s', ptr)
    | .weak, (s', false) => (s', .null)
  | none => (s, ptr)

def State.push (s : State α) (c : Cell α) : State α := { s with cells := s.cells ++ [c] }

def State.setCell (s : State α) (i : Nat) (c : Cell α) : State α :=
  { s with cells := s.cells.set i c }

def State.eraseCell (s : State α) (i : Nat) : State α := { s with cells := s.cells.eraseIdx i }

/-- `atomic_rc_ptr::load`, `atomic_weak_ptr::load`: the new `rc_ptr` or `weak_ptr`. -/
def load (B : Backend) (fuel : Nat) (s : State α) (κ : Kind) (ptr : MarkedPtr α) :
    Option (State α × MarkedPtr α) :=
  (acquire B fuel s ptr).map fun (s, acquired) => s.addRef κ acquired

/-- The pointer is null or some other pointer keeps its object. -/
def State.kept (s : State α) (κ : Kind) (ptr : MarkedPtr α) : Bool :=
  match ptr.obj with
  | some p => 0 < s.count κ p
  | none => true

inductive Label (α : Type)
  | makeShared (p : α)
  /-- a new location, null -/
  | newAtomic (κ : Kind)
  /-- a new `rc_ptr` or `weak_ptr` made from a pointer at hand: a copy, a conversion,
  `lock`, a snapshot without a slot; or a null one -/
  | addRef (κ : Kind) (ptr : MarkedPtr α)
  /-- `~rc_ptr`, `~weak_ptr`, `clear`; `~atomic_rc_ptr`, `~atomic_weak_ptr` -/
  | destroy (i : Nat)
  | setMark (i : Nat) (mark : Fin 4)
  | load (i : Nat)
  /-- `store` of the pointer in cell `j`, which is moved -/
  | store (i j : Nat)
  /-- `store` of a copy: of a snapshot, or null -/
  | storeCopy (i : Nat) (ptr : MarkedPtr α)
  /-- `compare_and_swap` with a copy -/
  | compareAndSwap (i : Nat) (expected desired : MarkedPtr α)
  /-- `exchange`, `swap`, and a `compare_and_swap` that moves: cells `i` and `j` swap -/
  | exchange (i j : Nat)
  /-- the `k`-th deferred entry is ejected -/
  | eject (k : Nat)
  /-- the local batch is handed to the tracker -/
  | handOver
  | advanceEpoch
  /-- the guard is left and entered again, or `reserve` announces the epoch -/
  | announce
  deriving DecidableEq, Repr

def next (B : Backend) (s : State α) : Label α → Option (State α)
  | .makeShared p =>
    if s.weak p = 0 then
      some ({ s with
        strong := Function.update s.strong p 1
        weak := Function.update s.weak p 1 }.push ⟨false, .strong, ⟨some p, 0⟩⟩)
    else none
  | .newAtomic κ => some (s.push ⟨true, κ, .null⟩)
  | .addRef κ ptr =>
    if s.kept κ ptr then
      let (s', ptr') := s.addRef κ ptr
      some (s'.push ⟨false, κ, ptr'⟩)
    else none
  | .destroy i =>
    s.cells[i]?.map fun c =>
      let s' := s.eraseCell i
      match c.ptr.obj with
      | some p => if c.atomic then s'.retire B p c.kind.type else s'.decrement B c.kind p
      | none => s'
  | .setMark i mark =>
    s.cells[i]?.map fun c => s.setCell i { c with ptr := { c.ptr with mark := mark } }
  | .load i => do
    let c ← s.cells[i]?
    if c.atomic then
      let (s', ptr) ← load B 2 s c.kind c.ptr
      some (s'.push ⟨false, c.kind, ptr⟩)
    else none
  | .store i j => do
    let c ← s.cells[i]?
    let d ← s.cells[j]?
    if c.atomic ∧ ¬ d.atomic ∧ c.kind = d.kind then
      -- `release` leaves null behind
      some (((s.setCell j { d with ptr := .null }).setCell i { c with ptr := d.ptr }).retireOld
        B c.kind c.ptr)
    else none
  | .storeCopy i ptr => do
    let c ← s.cells[i]?
    if c.atomic ∧ s.kept c.kind ptr then
      let (s', ptr') := s.addRef c.kind ptr
      some ((s'.setCell i { c with ptr := ptr' }).retireOld B c.kind c.ptr)
    else none
  | .compareAndSwap i expected desired => do
    let c ← s.cells[i]?
    if c.atomic ∧ s.kept c.kind desired then
      if c.ptr = expected then
        let (s', ptr') := s.addRef c.kind desired
        some ((s'.setCell i { c with ptr := ptr' }).retireOld B c.kind c.ptr)
      else some s
    else none
  | .exchange i j => do
    let c ← s.cells[i]?
    let d ← s.cells[j]?
    if i ≠ j ∧ c.kind = d.kind then
      some ((s.setCell i { c with ptr := d.ptr }).setCell j { d with ptr := c.ptr })
    else none
  | .eject k =>
    s.pending[k]?.map fun d =>
      { s with pending := s.pending.eraseIdx k }.eject B d.obj d.applied
  | .handOver => some { s with batch := none }
  | .advanceEpoch => some { s with epoch := s.epoch + 1 }
  | .announce => some { s with endTS := s.epoch }

def machine (B : Backend) (α : Type) [DecidableEq α] : Machine (State α) (Label α) where
  init s := s = .initial
  next := next B

end Code

end Cdrc.Acquire
