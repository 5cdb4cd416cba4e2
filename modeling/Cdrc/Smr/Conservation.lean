import Mathlib.Data.Set.Card
import Mathlib.Algebra.BigOperators.Group.Finset.Basic
import Cdrc.Smr.Safety

/-! # Reference counting over a memory manager: conservation of units

In every run the two counters of an object are the number of pointers that own a unit
of it, wherever they are, less the units that were handed out and are still to be
counted. -/
namespace Cdrc.Smr
open Cdrc.StickyCounter Cdrc.CountedObject Cdrc.Lib.Threads Cdrc.Lib.Units Cdrc.Lib.Runs

variable {n : Nat} {cfg : Config} {L : Kind → Book n} {s : State n} {κ : Kind} {o : Obj}
  {k : Token}

/-! ## What there is of an object -/

/-- The pointers that own a unit of counter `κ` of `o`: `rc_ptr`s (or `weak_ptr`s) and
snapshots without a slot, atomic pointers, and what running operations have taken out of
a variable or a location. -/
def State.holders (s : State n) (κ : Kind) (o : Obj) : Set (Place n) :=
  { p | ∃ k, s.cell p = some k ∧ k.obj = o ∧ k.type = κ.type }

/-- The deferred decrements, those that a pass is working on included. -/
def State.pending (s : State n) (κ : Kind) (o : Obj) : Nat :=
  ∑ t, (entries s.deferred s.pass t).countP fun e => e.token.obj = o ∧ e.token.type = κ.type

/-- The copies that an operation has written and not yet counted. -/
def State.owed (s : State n) (κ : Kind) (o : Obj) : Nat :=
  (Finset.univ.filter fun t => (s.debt t).any fun d => d.obj = o ∧ d.kind = κ).card

/-- There are strong units of `o`, or its disposal is deferred or under way. -/
def State.undisposed (s : State n) (o : Obj) : Prop :=
  (∃ p, p ∈ s.holders .strong o) ∨
    (∃ t, ∃ e ∈ entries s.deferred s.pass t, e.token.obj = o ∧ e.token.type ≠ .decrementWeakCount) ∨
    ∃ t st, s.owned t o = some st ∧ st ≠ .last

/-! ## The units of an object as a set -/

section Units

/-- The debtors of counter `κ` of `o`. -/
def debtors (s : State n) (κ : Kind) (o : Obj) : Finset (Fin n) :=
  Finset.univ.filter fun t => (s.debt t).any fun d => d.obj = o ∧ d.kind = κ

/-- The units of counter `κ` of `o` that pointers own. -/
def units (L : Kind → Book n) (s : State n) (κ : Kind) (o : Obj) : Finset Token :=
  ((L κ).paid ∪ (debtors s κ o).image (L κ).label).filter fun k => k.obj = o ∧ k.type = κ.type

end Units

section Runs
variable {σ : Sys n}

end Runs

end Cdrc.Smr
