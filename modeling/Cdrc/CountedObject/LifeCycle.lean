import Mathlib.Algebra.Order.BigOperators.Group.List
import Cdrc.Lib.Runs
import Cdrc.StickyCounter.Calls

/-! # Life cycle of a counted object

One `counted_object` shared by any number of `rc_ptr`s and `weak_ptr`s, with both
counters taken as atomic. A handle's copy, drop or `lock` starts with one atomic
access to a counter; what the access obliges its caller to do afterwards (test
`weak_cnt`, run `~T`, retire a dispose, delete) is an operation in flight, and the
operations in flight advance in any order. Nothing ties an operation to a thread:
whatever a thread does from inside `~T`, its own drops included, is one of the
interleavings.

The object is disposed of on one of two routes, immediately (`weak_cnt` read as 1)
or by a retired dispose that later gives back the weak unit held by the strong
units together. The invariant counts where that obligation is. -/
namespace Cdrc.CountedObject

/-- What a memory manager can be asked to do later. -/
inductive RetireType
  | decrementStrongCount
  | decrementWeakCount
  | dispose
  deriving DecidableEq, Repr

namespace LifeCycle
open Cdrc.Lib.Runs Cdrc.StickyCounter

/-- Which branch of `release_refs` disposes of the object. -/
inductive Route
  | destroy
  | delay
  deriving DecidableEq, Repr

/-- An operation in flight. -/
inductive Pc
  /-- `release_refs`: `ref_cnt.decrement` returned true, before `weak_cnt.load` -/
  | loadWeak
  /-- `decrement_ref_cnt`: got `EjectAction::delay`, before `retire(ptr, dispose)` -/
  | retire
  /-- before `get()->~T()` -/
  | dispose (r : Route)
  /-- inside `~T` -/
  | dtor (r : Route)
  /-- `memory_manager_base::dispose`: `~T` is done, before `release_weak_refs(1)` -/
  | releaseWeak
  /-- before `delete_object(ptr)` -/
  | destroy (r : Route)
  deriving DecidableEq, Repr

inductive Event
  /-- `ref_cnt` was decremented to zero -/
  | zeroed
  /-- `weak_ptr::lock` did its increment and returns a non-null pointer iff `b` -/
  | lock (b : Bool)
  | dtorBegin
  | dtorEnd
  /-- a dispose gave back the weak unit of the strong units -/
  | released
  | deleted (r : Route)
  deriving DecidableEq, Repr

structure State where
  refCnt : Nat
  weakCnt : Nat
  /-- `rc_ptr`s that refer to the object -/
  rcs : Nat
  /-- `weak_ptr`s that refer to the object -/
  weaks : Nat
  /-- `dispose` actions retired and not yet ejected -/
  retired : Nat
  running : List Pc
  log : List Event
  deriving DecidableEq, Repr

/-- `create_object` and the `rc_ptr` that `make_shared` returns. -/
def State.created : State := ⟨1, 1, 1, 0, 0, [], []⟩

inductive Label
  | copyRc
  | dropRc
  /-- `weak_ptr(const rc_ptr&)` -/
  | weakOfRc
  | copyWeak
  | dropWeak
  | lock
  /-- the memory manager ejects a retired dispose -/
  | eject
  /-- the `k`-th operation in flight takes its next step -/
  | run (k : Nat)
  deriving DecidableEq, Repr

/-- `increment_ref_cnt` for a copy, which does not test the result. -/
def State.addRef (s : State) : State :=
  { s with refCnt := (Atomic.increment s.refCnt).1, rcs := s.rcs + 1 }

/-- `decrement_ref_cnt` up to its `ref_cnt.decrement`. -/
def State.releaseRef (s : State) : State :=
  let d := Atomic.decrement s.refCnt
  { s with
    refCnt := d.1
    rcs := s.rcs - 1
    running := if d.2 then s.running ++ [.loadWeak] else s.running
    log := if d.2 then s.log ++ [.zeroed] else s.log }

def State.addWeak (s : State) : State :=
  { s with weakCnt := (Atomic.increment s.weakCnt).1, weaks := s.weaks + 1 }

/-- `decrement_weak_cnt`. -/
def State.releaseWeakRef (s : State) : State :=
  let d := Atomic.decrement s.weakCnt
  { s with
    weakCnt := d.1
    weaks := s.weaks - 1
    running := if d.2 then s.running ++ [.destroy .delay] else s.running }

/-- `weak_ptr::lock`. -/
def State.lock (s : State) : State :=
  let d := Atomic.increment s.refCnt
  { s with
    refCnt := d.1
    rcs := if d.2 then s.rcs + 1 else s.rcs
    log := s.log ++ [.lock d.2] }

/-- The next step of the `k`-th operation, which stands at the given point. -/
def State.run (s : State) (k : Nat) : Pc → State
  | .loadWeak =>
    { s with running := s.running.set k (if s.weakCnt = 1 then .dispose .destroy else .retire) }
  | .retire => { s with running := s.running.eraseIdx k, retired := s.retired + 1 }
  | .dispose r => { s with running := s.running.set k (.dtor r), log := s.log ++ [.dtorBegin] }
  | .dtor r =>
    { s with
      running := s.running.set k (match r with | .destroy => .destroy .destroy | .delay => .releaseWeak)
      log := s.log ++ [.dtorEnd] }
  | .releaseWeak =>
    let d := Atomic.decrement s.weakCnt
    { s with
      weakCnt := d.1
      running := if d.2 then s.running.set k (.destroy .delay) else s.running.eraseIdx k
      log := s.log ++ [.released] }
  | .destroy r => { s with running := s.running.eraseIdx k, log := s.log ++ [.deleted r] }

def next (s : State) : Label → Option State
  | .copyRc => if 0 < s.rcs then some s.addRef else none
  | .dropRc => if 0 < s.rcs then some s.releaseRef else none
  | .weakOfRc => if 0 < s.rcs then some s.addWeak else none
  | .copyWeak => if 0 < s.weaks then some s.addWeak else none
  | .dropWeak => if 0 < s.weaks then some s.releaseWeakRef else none
  | .lock => if 0 < s.weaks then some s.lock else none
  | .eject =>
    if 0 < s.retired then
      some { s with retired := s.retired - 1, running := s.running ++ [.dispose .delay] }
    else none
  | .run k => s.running[k]?.map (s.run k)

def machine : Machine State Label where
  init s := s = .created
  next := next

/-! ## Where the object's disposal is

`flight f` counts the operations in flight by `f`. Until the object is disposed of,
exactly one thing carries that duty: a non-zero strong count, an operation in
flight or a retired dispose. -/

def State.flight (s : State) (f : Pc → Nat) : Nat := (s.running.map f).sum

/-- The operation carries the object's disposal. -/
def owes : Pc → Nat
  | .destroy .delay => 0
  | _ => 1

/-- The operation disposes of the object on the immediate route. -/
def immediate : Pc → Nat
  | .dispose .destroy | .dtor .destroy | .destroy .destroy => 1
  | _ => 0

def inDtor : Pc → Nat
  | .dtor _ => 1
  | _ => 0

/-- `~T` is done and the operation still has to act on it. -/
def afterDtor : Pc → Nat
  | .releaseWeak | .destroy .destroy => 1
  | _ => 0

/-- The operation deletes the object because it released the last weak unit. -/
def releasedLast : Pc → Nat
  | .destroy .delay => 1
  | _ => 0

/-- What must have happened before an event. -/
def Allowed (l : List Event) : Event → Prop
  | .dtorBegin => .zeroed ∈ l
  | .deleted _ => .dtorEnd ∈ l
  | .lock b => b = true ↔ .zeroed ∉ l
  | _ => True

structure Inv (s : State) : Prop where
  ref : s.refCnt = s.rcs
  zero : s.log.count .zeroed = 1 - s.refCnt
  weak : s.weakCnt + s.log.count .released = s.weaks + 1
  duty : min 1 s.refCnt + s.flight owes + s.retired + s.log.count .released +
    s.log.count (.deleted .destroy) = 1
  last : s.flight releasedLast + s.log.count (.deleted .delay) = 1 - s.weakCnt
  alone : s.flight immediate + s.log.count (.deleted .destroy) = 0 ∨
    s.weaks = 0 ∧ s.weakCnt = 1 ∧ s.refCnt = 0
  begun : s.log.count .dtorBegin = s.flight inDtor + s.log.count .dtorEnd
  ended : s.log.count .dtorEnd = s.flight afterDtor + s.log.count .released +
    s.log.count (.deleted .destroy)
  order : ∀ p e q, s.log = p ++ e :: q → Allowed p e

theorem inv_created : Inv .created := by
  refine ⟨rfl, rfl, rfl, rfl, rfl, Or.inl rfl, rfl, rfl, ?_⟩
  intro p e q h
  simp [State.created] at h

/-! ## Each step keeps the invariant -/

section Steps
variable {s : State} {k : Nat} {p : Pc}

theorem flight_snoc (f : Pc → Nat) (l : List Pc) (p : Pc) :
    ((l ++ [p]).map f).sum = (l.map f).sum + f p := by
  simp

/-- The operation at `k` moves from `p` to `p'`. -/
theorem flight_set (hk : s.running[k]? = some p) (p' : Pc) (f : Pc → Nat) :
    ((s.running.set k p').map f).sum + f p = (s.running.map f).sum + f p' :=
  sum_map_set f s.running k p' p hk

theorem flight_erase (hk : s.running[k]? = some p) (f : Pc → Nat) :
    ((s.running.eraseIdx k).map f).sum + f p = (s.running.map f).sum :=
  sum_map_eraseIdx f s.running k p hk

theorem immediate_le_owes (l : List Pc) : (l.map immediate).sum ≤ (l.map owes).sum := by
  refine List.sum_le_sum fun p _ => ?_
  rcases p with _ | _ | ⟨⟨⟩⟩ | ⟨⟨⟩⟩ | _ | ⟨⟨⟩⟩ <;> simp [immediate, owes]

theorem count_snoc (l : List Event) (e x : Event) :
    (l ++ [e]).count x = l.count x + if e = x then 1 else 0 := by
  rw [List.count_append, List.count_singleton]
  simp

theorem Inv.zeroed_mem (i : Inv s) : .zeroed ∈ s.log ↔ s.refCnt = 0 := by
  rw [← List.count_pos_iff, i.zero]
  omega

theorem Inv.addRef (i : Inv s) (h : 0 < s.rcs) : Inv s.addRef := by
  have hr := i.ref
  obtain ⟨ref, zero, weak, duty, last, alone, begun, ended, order⟩ := i
  have hinc : (Atomic.increment s.refCnt).1 = s.refCnt + 1 := by
    simp only [Atomic.increment]
    rw [if_neg (by omega)]
  refine ⟨?_, ?_, weak, ?_, last, ?_, begun, ended, order⟩ <;>
    simp only [State.addRef, hinc, State.flight] at *
  · omega
  · omega
  · omega
  · exact Or.inl (by omega)

theorem Inv.releaseRef (i : Inv s) (h : 0 < s.rcs) : Inv s.releaseRef := by
  obtain ⟨ref, zero, weak, duty, last, alone, begun, ended, order⟩ := i
  by_cases h1 : s.refCnt - 1 = 0
  · have hd : Atomic.decrement s.refCnt = (0, true) := by simp [Atomic.decrement, h1]
    simp only [State.flight] at duty last alone begun ended
    refine ⟨?_, ?_, ?_, ?_, ?_, ?_, ?_, ?_, ?_⟩ <;>
      simp only [State.releaseRef, hd, State.flight, flight_snoc, if_true, count_snoc, reduceCtorEq,
        if_false, owes, releasedLast, immediate, inDtor, afterDtor]
    · omega
    · omega
    · exact weak
    · omega
    · exact last
    · exact Or.inl (by omega)
    · exact begun
    · exact ended
    · exact forall_before_snoc order trivial
  · have hd : Atomic.decrement s.refCnt = (s.refCnt - 1, false) := by simp [Atomic.decrement, h1]
    simp only [State.flight] at duty last alone begun ended
    refine ⟨?_, ?_, ?_, ?_, ?_, ?_, ?_, ?_, ?_⟩ <;>
      simp only [State.releaseRef, hd, State.flight, if_false, Bool.false_eq_true]
    · omega
    · omega
    · exact weak
    · omega
    · exact last
    · exact Or.inl (by omega)
    · exact begun
    · exact ended
    · exact order

/-- A handle keeps the weak count from being stuck and the immediate route from
being taken. -/
theorem Inv.addWeak (i : Inv s) (h : 0 < s.rcs ∨ 0 < s.weaks) : Inv s.addWeak := by
  obtain ⟨ref, zero, weak, duty, last, alone, begun, ended, order⟩ := i
  have hinc : (Atomic.increment s.weakCnt).1 = s.weakCnt + 1 := by
    simp only [Atomic.increment]
    rw [if_neg (by omega)]
  refine ⟨ref, zero, ?_, duty, ?_, ?_, begun, ended, order⟩ <;>
    simp only [State.addWeak, hinc, State.flight] at *
  · omega
  · omega
  · exact Or.inl (by omega)

theorem Inv.releaseWeakRef (i : Inv s) (h : 0 < s.weaks) : Inv s.releaseWeakRef := by
  obtain ⟨ref, zero, weak, duty, last, alone, begun, ended, order⟩ := i
  simp only [State.flight] at duty last alone begun ended
  by_cases h1 : s.weakCnt - 1 = 0
  · have hd : Atomic.decrement s.weakCnt = (0, true) := by simp [Atomic.decrement, h1]
    refine ⟨ref, zero, ?_, ?_, ?_, ?_, ?_, ?_, order⟩ <;>
      simp only [State.releaseWeakRef, hd, State.flight, flight_snoc, if_true, owes, releasedLast,
        immediate, inDtor, afterDtor]
    · omega
    · exact duty
    · omega
    · exact Or.inl (by omega)
    · exact begun
    · exact ended
  · have hd : Atomic.decrement s.weakCnt = (s.weakCnt - 1, false) := by
      simp [Atomic.decrement, h1]
    refine ⟨ref, zero, ?_, ?_, ?_, ?_, ?_, ?_, order⟩ <;>
      simp only [State.releaseWeakRef, hd, State.flight, if_false, Bool.false_eq_true]
    · omega
    · exact duty
    · omega
    · exact Or.inl (by omega)
    · exact begun
    · exact ended

theorem Inv.lock (i : Inv s) (h : 0 < s.weaks) : Inv s.lock := by
  have hz := i.zeroed_mem
  obtain ⟨ref, zero, weak, duty, last, alone, begun, ended, order⟩ := i
  simp only [State.flight] at duty last alone begun ended
  by_cases h0 : s.refCnt = 0
  · have hd : Atomic.increment s.refCnt = (0, false) := by simp [Atomic.increment, h0]
    refine ⟨?_, ?_, ?_, ?_, ?_, ?_, ?_, ?_, ?_⟩ <;>
      simp only [State.lock, hd, State.flight, count_snoc, reduceCtorEq, Bool.false_eq_true, if_false]
    · omega
    · omega
    · exact weak
    · omega
    · exact last
    · exact Or.inl (by omega)
    · exact begun
    · exact ended
    · refine forall_before_snoc order ?_
      simp [Allowed, hz, h0]
  · have hd : Atomic.increment s.refCnt = (s.refCnt + 1, true) := by simp [Atomic.increment, h0]
    refine ⟨?_, ?_, ?_, ?_, ?_, ?_, ?_, ?_, ?_⟩ <;>
      simp only [State.lock, hd, State.flight, count_snoc, reduceCtorEq, if_true, if_false]
    · omega
    · omega
    · exact weak
    · omega
    · exact last
    · exact Or.inl (by omega)
    · exact begun
    · exact ended
    · refine forall_before_snoc order ?_
      simp [Allowed, hz, h0]

theorem Inv.eject (i : Inv s) (h : 0 < s.retired) :
    Inv { s with retired := s.retired - 1, running := s.running ++ [.dispose .delay] } := by
  obtain ⟨ref, zero, weak, duty, last, alone, begun, ended, order⟩ := i
  simp only [State.flight] at duty last alone begun ended
  refine ⟨ref, zero, weak, ?_, ?_, ?_, ?_, ?_, order⟩ <;>
    simp only [State.flight, flight_snoc, owes, releasedLast, immediate, inDtor, afterDtor]
  · omega
  · exact last
  · exact alone
  · exact begun
  · exact ended

theorem Inv.loadWeak (i : Inv s) (hk : s.running[k]? = some .loadWeak) :
    Inv (s.run k .loadWeak) := by
  obtain ⟨ref, zero, weak, duty, last, alone, begun, ended, order⟩ := i
  simp only [State.flight] at duty last alone begun ended
  -- this operation carries the disposal, so the strong count is zero
  have hone := le_sum_map_of_getElem? owes hk
  simp only [owes] at hone
  by_cases hw : s.weakCnt = 1
  · have hset := flight_set hk (.dispose .destroy)
    refine ⟨ref, zero, weak, ?_, ?_, ?_, ?_, ?_, order⟩ <;>
      simp only [State.run, hw, if_true, State.flight]
    · have := hset owes; simp only [owes] at this; omega
    · have := hset releasedLast; simp only [releasedLast] at this; omega
    · exact Or.inr ⟨by omega, trivial, by omega⟩
    · have := hset inDtor; simp only [inDtor] at this; omega
    · have := hset afterDtor; simp only [afterDtor] at this; omega
  · have hset := flight_set hk .retire
    refine ⟨ref, zero, weak, ?_, ?_, ?_, ?_, ?_, order⟩ <;>
      simp only [State.run, hw, if_false, State.flight]
    · have := hset owes; simp only [owes] at this; omega
    · have := hset releasedLast; simp only [releasedLast] at this; omega
    · have := hset immediate; simp only [immediate] at this; omega
    · have := hset inDtor; simp only [inDtor] at this; omega
    · have := hset afterDtor; simp only [afterDtor] at this; omega

theorem Inv.retire (i : Inv s) (hk : s.running[k]? = some .retire) : Inv (s.run k .retire) := by
  obtain ⟨ref, zero, weak, duty, last, alone, begun, ended, order⟩ := i
  have herase := flight_erase hk
  simp only [State.flight] at duty last alone begun ended
  refine ⟨ref, zero, weak, ?_, ?_, ?_, ?_, ?_, order⟩ <;> simp only [State.run, State.flight]
  · have := herase owes; simp only [owes] at this; omega
  · have := herase releasedLast; simp only [releasedLast] at this; omega
  · have := herase immediate; simp only [immediate] at this; omega
  · have := herase inDtor; simp only [inDtor] at this; omega
  · have := herase afterDtor; simp only [afterDtor] at this; omega

theorem Inv.dispose {r : Route} (i : Inv s) (hk : s.running[k]? = some (.dispose r)) :
    Inv (s.run k (.dispose r)) := by
  have hz := i.zeroed_mem
  obtain ⟨ref, zero, weak, duty, last, alone, begun, ended, order⟩ := i
  have hone := le_sum_map_of_getElem? owes hk
  have hset := flight_set hk (.dtor r)
  simp only [State.flight] at duty last alone begun ended
  simp only [owes] at hone
  refine ⟨ref, ?_, ?_, ?_, ?_, ?_, ?_, ?_, ?_⟩ <;>
    simp only [State.run, State.flight, count_snoc, reduceCtorEq, if_true, if_false]
  · exact zero
  · exact weak
  · have := hset owes; simp only [owes] at this; omega
  · have := hset releasedLast; simp only [releasedLast] at this; omega
  · have := hset immediate; cases r <;> simp only [immediate] at this <;> omega
  · have := hset inDtor; simp only [inDtor] at this; omega
  · have := hset afterDtor; simp only [afterDtor] at this; omega
  · exact forall_before_snoc order (hz.mpr (by omega))

theorem Inv.dtor {r : Route} (i : Inv s) (hk : s.running[k]? = some (.dtor r)) :
    Inv (s.run k (.dtor r)) := by
  obtain ⟨ref, zero, weak, duty, last, alone, begun, ended, order⟩ := i
  have hset := flight_set hk (match r with | .destroy => .destroy .destroy | .delay => .releaseWeak)
  simp only [State.flight] at duty last alone begun ended
  refine ⟨ref, ?_, ?_, ?_, ?_, ?_, ?_, ?_, ?_⟩ <;>
    simp only [State.run, State.flight, count_snoc, reduceCtorEq, if_true, if_false]
  · exact zero
  · exact weak
  · have := hset owes; cases r <;> simp only [owes] at this ⊢ <;> omega
  · have := hset releasedLast; cases r <;> simp only [releasedLast] at this ⊢ <;> omega
  · have := hset immediate; cases r <;> simp only [immediate] at this ⊢ <;> omega
  · have := hset inDtor; cases r <;> simp only [inDtor] at this ⊢ <;> omega
  · have := hset afterDtor; cases r <;> simp only [afterDtor] at this ⊢ <;> omega
  · exact forall_before_snoc order trivial

theorem Inv.releaseWeak (i : Inv s) (hk : s.running[k]? = some .releaseWeak) :
    Inv (s.run k .releaseWeak) := by
  obtain ⟨ref, zero, weak, duty, last, alone, begun, ended, order⟩ := i
  simp only [State.flight] at duty last alone begun ended
  have hone := le_sum_map_of_getElem? owes hk
  simp only [owes] at hone
  -- no other operation carries the disposal, so none is on the immediate route
  have halone : (s.running.map immediate).sum + s.log.count (.deleted .destroy) = 0 := by
    have h1 := flight_erase hk immediate
    have h2 := flight_erase hk owes
    have h3 := immediate_le_owes (s.running.eraseIdx k)
    simp only [immediate, owes] at h1 h2
    omega
  by_cases h1 : s.weakCnt - 1 = 0
  · have hd : Atomic.decrement s.weakCnt = (0, true) := by simp [Atomic.decrement, h1]
    have hset := flight_set hk (.destroy .delay)
    refine ⟨ref, ?_, ?_, ?_, ?_, ?_, ?_, ?_, ?_⟩ <;>
      simp only [State.run, hd, State.flight, count_snoc, reduceCtorEq, if_true, if_false]
    · exact zero
    · omega
    · have := hset owes; simp only [owes] at this; omega
    · have := hset releasedLast; simp only [releasedLast] at this; omega
    · have := hset immediate; simp only [immediate] at this; omega
    · have := hset inDtor; simp only [inDtor] at this; omega
    · have := hset afterDtor; simp only [afterDtor] at this; omega
    · exact forall_before_snoc order trivial
  · have hd : Atomic.decrement s.weakCnt = (s.weakCnt - 1, false) := by
      simp [Atomic.decrement, h1]
    have herase := flight_erase hk
    refine ⟨ref, ?_, ?_, ?_, ?_, ?_, ?_, ?_, ?_⟩ <;>
      simp only [State.run, hd, State.flight, count_snoc, reduceCtorEq, if_true, if_false,
        Bool.false_eq_true]
    · exact zero
    · omega
    · have := herase owes; simp only [owes] at this; omega
    · have := herase releasedLast; simp only [releasedLast] at this; omega
    · have := herase immediate; simp only [immediate] at this; omega
    · have := herase inDtor; simp only [inDtor] at this; omega
    · have := herase afterDtor; simp only [afterDtor] at this; omega
    · exact forall_before_snoc order trivial

theorem Inv.destroy {r : Route} (i : Inv s) (hk : s.running[k]? = some (.destroy r)) :
    Inv (s.run k (.destroy r)) := by
  obtain ⟨ref, zero, weak, duty, last, alone, begun, ended, order⟩ := i
  have herase := flight_erase hk
  simp only [State.flight] at duty last alone begun ended
  have hend : .dtorEnd ∈ s.log := by
    rw [← List.count_pos_iff]
    cases r with
    | destroy =>
      have := le_sum_map_of_getElem? afterDtor hk
      simp only [afterDtor] at this
      omega
    | delay =>
      have := le_sum_map_of_getElem? releasedLast hk
      simp only [releasedLast] at this
      omega
  refine ⟨ref, ?_, ?_, ?_, ?_, ?_, ?_, ?_, ?_⟩ <;>
    simp only [State.run, State.flight, count_snoc, reduceCtorEq, if_false, Event.deleted.injEq]
  · exact zero
  · exact weak
  · have := herase owes
    cases r <;> simp only [owes, reduceCtorEq, if_true, if_false] at this ⊢ <;> omega
  · have := herase releasedLast
    cases r <;> simp only [releasedLast, reduceCtorEq, if_true, if_false] at this ⊢ <;> omega
  · have := herase immediate
    cases r <;> simp only [immediate, reduceCtorEq, if_true, if_false] at this ⊢ <;> omega
  · have := herase inDtor
    cases r <;> simp only [inDtor] at this ⊢ <;> omega
  · have := herase afterDtor
    cases r <;> simp only [afterDtor, reduceCtorEq, if_true, if_false] at this ⊢ <;> omega
  · exact forall_before_snoc order hend

theorem inv_next {s' : State} {a : Label} (i : Inv s) (h : next s a = some s') : Inv s' := by
  cases a with
  | copyRc =>
    obtain ⟨hg, hs⟩ := Option.ite_none_right_eq_some.mp h
    cases hs
    exact i.addRef hg
  | dropRc =>
    obtain ⟨hg, hs⟩ := Option.ite_none_right_eq_some.mp h
    cases hs
    exact i.releaseRef hg
  | weakOfRc =>
    obtain ⟨hg, hs⟩ := Option.ite_none_right_eq_some.mp h
    cases hs
    exact i.addWeak (Or.inl hg)
  | copyWeak =>
    obtain ⟨hg, hs⟩ := Option.ite_none_right_eq_some.mp h
    cases hs
    exact i.addWeak (Or.inr hg)
  | dropWeak =>
    obtain ⟨hg, hs⟩ := Option.ite_none_right_eq_some.mp h
    cases hs
    exact i.releaseWeakRef hg
  | lock =>
    obtain ⟨hg, hs⟩ := Option.ite_none_right_eq_some.mp h
    cases hs
    exact i.lock hg
  | eject =>
    obtain ⟨hg, hs⟩ := Option.ite_none_right_eq_some.mp h
    cases hs
    exact i.eject hg
  | run k =>
    obtain ⟨p, hk, rfl⟩ := Option.map_eq_some_iff.mp h
    cases p with
    | loadWeak => exact i.loadWeak hk
    | retire => exact i.retire hk
    | dispose r => exact i.dispose hk
    | dtor r => exact i.dtor hk
    | releaseWeak => exact i.releaseWeak hk
    | destroy r => exact i.destroy hk

end Steps

theorem inv_of_reach {s : State} (h : machine.Reach s) : Inv s :=
  Machine.Reach.invariant (M := machine) (fun _ h0 => h0 ▸ inv_created)
    (fun _ _ _ i hn => inv_next i hn) h

/-! ## The life cycle -/

/-- How often `delete_object` has been called. -/
def State.deletions (s : State) : Nat :=
  s.log.count (.deleted .destroy) + s.log.count (.deleted .delay)

section Consequences
variable {s : State}

theorem inDtor_add_afterDtor_le (l : List Pc) :
    (l.map inDtor).sum + (l.map afterDtor).sum ≤ (l.map owes).sum := by
  rw [← List.sum_map_add]
  refine List.sum_le_sum fun p _ => ?_
  rcases p with _ | _ | ⟨⟨⟩⟩ | ⟨⟨⟩⟩ | _ | ⟨⟨⟩⟩ <;> simp [inDtor, afterDtor, owes]

theorem Inv.dtorBegin_le (i : Inv s) : s.log.count .dtorBegin ≤ 1 := by
  have hle := inDtor_add_afterDtor_le s.running
  obtain ⟨_, _, _, duty, _, _, begun, ended, _⟩ := i
  simp only [State.flight] at duty begun ended
  omega

theorem Inv.deletions_le (i : Inv s) : s.deletions ≤ 1 := by
  obtain ⟨_, _, weak, duty, last, _, _, _, _⟩ := i
  unfold State.deletions
  omega

theorem Inv.weaks_of_deleted (i : Inv s) {r : Route} (h : .deleted r ∈ s.log) :
    s.weaks = 0 ∧ s.rcs = 0 := by
  obtain ⟨ref, _, weak, duty, last, _, _, _, _⟩ := i
  rw [← List.count_pos_iff] at h
  cases r <;> omega

theorem Inv.quiescent (i : Inv s) (hrcs : s.rcs = 0) (hweaks : s.weaks = 0)
    (hretired : s.retired = 0) (hrun : s.running = []) :
    s.log.count .dtorBegin = 1 ∧ s.log.count .dtorEnd = 1 ∧ s.deletions = 1 := by
  obtain ⟨ref, _, weak, duty, last, _, begun, ended, _⟩ := i
  simp only [State.flight, hrun, List.map_nil, List.sum_nil] at duty last begun ended
  unfold State.deletions
  omega

end Consequences

/-- **An object's life cycle.** In every state of every interleaving: `~T` was
entered at most once, and after the strong count reached zero; the object was deleted
at most once, after `~T` had returned and with no handle left; `lock` returned a
non-null pointer iff the count had not reached zero at its increment; and once no
handle, no retired dispose and no operation in flight remains, the object was
disposed of and deleted exactly once. -/
theorem life_cycle {s : State} (h : machine.Reach s) :
    (.zeroed ∈ s.log ↔ s.refCnt = 0) ∧
    s.log.count .dtorBegin ≤ 1 ∧
    (∀ p q, s.log = p ++ .dtorBegin :: q → .zeroed ∈ p) ∧
    s.deletions ≤ 1 ∧
    (∀ p r q, s.log = p ++ .deleted r :: q → .dtorEnd ∈ p) ∧
    (∀ r, .deleted r ∈ s.log → s.weaks = 0 ∧ s.rcs = 0) ∧
    (∀ p b q, s.log = p ++ .lock b :: q → (b = true ↔ .zeroed ∉ p)) ∧
    (s.rcs = 0 → s.weaks = 0 → s.retired = 0 → s.running = [] →
      s.log.count .dtorBegin = 1 ∧ s.log.count .dtorEnd = 1 ∧ s.deletions = 1) := by
  have i := inv_of_reach h
  refine ⟨i.zeroed_mem, i.dtorBegin_le, ?_, i.deletions_le, ?_, ?_, ?_, i.quiescent⟩
  · intro p q hp
    exact i.order p _ q hp
  · intro p r q hp
    exact i.order p _ q hp
  · intro r hr
    exact i.weaks_of_deleted hr
  · intro p b q hp
    exact i.order p _ q hp

/-- A weak handle outlives the strong one: the dispose is retired, a `lock` fails,
and the last weak drop deletes. -/
def delayedRoute : List Label :=
  [.weakOfRc, .lock, .dropRc, .dropRc, .run 0, .run 0, .lock, .eject, .run 0, .run 0, .run 0,
    .dropWeak, .run 0]

theorem life_cycle_delayedRoute : ∃ s, machine.exec delayedRoute .created = some s ∧
    s.log = [.lock true, .zeroed, .lock false, .dtorBegin, .dtorEnd, .released, .deleted .delay] ∧
    s.deletions ≤ 1 ∧ s.log.count .dtorBegin = 1 := by
  have he : machine.exec delayedRoute .created = some ⟨0, 0, 0, 0, 0, [],
    [.lock true, .zeroed, .lock false, .dtorBegin, .dtorEnd, .released, .deleted .delay]⟩ := by rfl
  have h := life_cycle ((Machine.Reach.init (M := machine) rfl).exec he)
  exact ⟨_, he, rfl, h.2.2.2.1, (h.2.2.2.2.2.2.2 rfl rfl rfl rfl).1⟩

end LifeCycle

end Cdrc.CountedObject
