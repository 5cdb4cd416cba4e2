import Cdrc.AtomicWeakPtr.GetSnapshot
import Cdrc.Acquire.Load

/-! # `compare_exchange_weak` in a loop

A `compare_exchange_weak` that fails reloads `expected`, from `load` for a `weak_ptr` and
from `get_snapshot` for a `weak_snapshot_ptr`, and the caller tries again. The reload looks
at the use count of the object, the exchange compares pointers. A location whose object has
expired still holds the pointer, so where the reload takes an expired object for null the
next exchange fails as well, and so do all after it.

One thread, and a location that nothing else stores to. `load` is that of `Acquire`,
`get_snapshot` that of `GetSnapshot`, run from its first access to its last. The marked pointer
policies are left out: pointers carry no marks here, and a null pointer with a mark, which is not
`nullptr` and has no object, behaves differently. -/
namespace Cdrc.AtomicWeakPtr.CompareExchange
open Cdrc.CountedObject

/-- The same backend in the model of `load`. -/
def acquireBackend : Backend → Acquire.Backend
  | .hp => .hp
  | .ebr => .ebr
  | .ibr => .ibr
  | .hyaline => .hyaline

/-- A `weak_snapshot_ptr`; `slot` is the hazard pointers' slot. -/
structure WeakSnapshot (α : Type) where
  ptr : Option α
  slot : Option Nat
  deriving DecidableEq, Repr

/-- The two overloads of `compare_exchange_weak`. -/
inductive Expected (α : Type)
  | weakPtr (ptr : Option α)
  | weakSnapshotPtr (snapshot : WeakSnapshot α)
  deriving DecidableEq, Repr

structure Memory (α : Type) where
  /-- `atomic_ptr` -/
  loc : Option α
  /-- the counts, and what the thread has announced and retired -/
  heap : Acquire.State α
  snapshotAnnouncements : List (Option α)

section Code
variable {α : Type} [DecidableEq α]

def Expected.getCounted : Expected α → Option α
  | .weakPtr ptr => ptr
  | .weakSnapshotPtr snapshot => snapshot.ptr

/-- `is_protected` of the `acquired_pointer`s; `basic_acquired_pointer` always is. -/
def WeakSnapshot.isProtected (B : Backend) (x : WeakSnapshot α) : Bool :=
  match B with
  | .hp => x.slot.isSome && x.ptr.isSome
  | _ => true

def Memory.getFreeSlot (m : Memory α) : Option Nat := m.snapshotAnnouncements.findIdx? Option.isNone

/-- The accesses of a call of `get_snapshot`, one after the other. -/
def finish (B : Backend) (slot : Bool) (loc : Option α) (epoch : Nat) :
    Nat → (α → Nat) → Reader α → Option ((α → Nat) × Reader α)
  | 0, _, _ => none
  | fuel + 1, useCount, r =>
    match r.pc with
    | .done _ => some (useCount, r)
    | _ =>
      (access B slot (⟨loc, useCount, epoch, fun _ => r⟩ : State α 0) r).bind fun (useCount, r) =>
        finish B slot loc epoch fuel useCount r

def getSnapshot (B : Backend) (fuel : Nat) (m : Memory α) : Option (Memory α × WeakSnapshot α) :=
  match finish B m.getFreeSlot.isSome m.loc m.heap.epoch fuel m.heap.strong ⟨.start, m.heap.endTS, []⟩ with
  | some (useCount, ⟨.done result, endTS, _⟩) =>
    let m := { m with heap := { m.heap with strong := useCount, endTS := endTS } }
    match B, result, m.getFreeSlot with
    | .hp, some p, some i =>
      some ({ m with snapshotAnnouncements := m.snapshotAnnouncements.set i (some p) }, ⟨some p, some i⟩)
    | _, result, _ => some (m, ⟨result, none⟩)
  | _ => none

def load (B : Backend) (fuel : Nat) (m : Memory α) : Option (Memory α × Option α) :=
  (Acquire.load (acquireBackend B) fuel m.heap .weak ⟨m.loc, 0⟩).map fun (heap, ptr) =>
    ({ m with heap := heap }, ptr.obj)

/-- The assignment to `expected` lets go of what it held. -/
def Memory.drop (B : Backend) (m : Memory α) : Expected α → Memory α
  | .weakPtr (some p) => { m with heap := m.heap.decrementWeakCnt p }
  | .weakPtr none => m
  | .weakSnapshotPtr ⟨ptr, slot⟩ =>
    let m := match ptr with
      | some p =>
        if WeakSnapshot.isProtected B ⟨ptr, slot⟩ then m
        else { m with heap := m.heap.decrementRefCnt (acquireBackend B) p }
      | none => m
    match slot with
    | some i => { m with snapshotAnnouncements := m.snapshotAnnouncements.set i none }
    | none => m

/-- `reserve(desired)`, which the copying `compare_and_swap` of a `weak_ptr` always makes. -/
def Memory.reserve (B : Backend) (m : Memory α) (desired : Option α) : Memory α :=
  match B with
  | .hp => { m with heap := { m.heap with announcement := desired } }
  | .ibr => { m with heap := { m.heap with endTS := m.heap.epoch } }
  | _ => m

/-- The destructor of the reservation. -/
def Memory.clearProtection (B : Backend) (m : Memory α) (desired : Option α) : Memory α :=
  match B, desired with
  | .hp, some _ => { m with heap := { m.heap with announcement := none } }
  | _, _ => m

def compareAndSwap (B : Backend) (m : Memory α) (expected desired : Option α) : Memory α × Bool :=
  let m := m.reserve B desired
  if m.loc = expected then
    let heap := match expected with
      | some e => m.heap.retire (acquireBackend B) e .decrementWeakCount
      | none => m.heap
    let heap := match desired with
      | some d => (heap.increment .weak d).1
      | none => heap
    (Memory.clearProtection B ⟨desired, heap, m.snapshotAnnouncements⟩ desired, true)
  else (m.clearProtection B desired, false)

def compareExchangeWeak (B : Backend) (fuel : Nat) (m : Memory α) (expected : Expected α)
    (desired : Option α) : Option (Memory α × Expected α × Bool) :=
  match compareAndSwap B m expected.getCounted desired with
  | (m, true) => some (m, expected, true)
  | (m, false) =>
    match expected with
    | .weakPtr _ => (load B fuel m).map fun (m, ptr) => (m.drop B expected, .weakPtr ptr, false)
    | .weakSnapshotPtr _ =>
      (getSnapshot B fuel m).map fun (m, snapshot) => (m.drop B expected, .weakSnapshotPtr snapshot, false)

/-- The object of the pointer is alive, or the pointer is null. -/
def Memory.Unexpired (m : Memory α) : Prop := ∀ p ∈ m.loc, 0 < m.heap.strong p

/-- The location has its weak reference. -/
def Memory.Held (m : Memory α) : Prop := ∀ p ∈ m.loc, 0 < m.heap.weak p

/-- The call returns, and if it fails, the next call with the `expected` it left returns and
succeeds, whatever else of the memory has changed in between. -/
def Progress (B : Backend) (m : Memory α) (expected : Expected α) (desired : Option α) : Prop :=
  ∃ fuel₀, ∀ fuel ≥ fuel₀, ∃ m₁ expected₁ success,
    compareExchangeWeak B fuel m expected desired = some (m₁, expected₁, success) ∧
    (success = false → ∀ m₂ : Memory α, m₂.loc = m₁.loc → ∃ m₃ expected₃,
      compareExchangeWeak B fuel m₂ expected₁ desired = some (m₃, expected₃, true))

end Code

/-! ## The exchange -/

section Exchange
variable {α : Type} [DecidableEq α] {m : Memory α} {expected : Expected α}

/-- The pointer in the location if its object is alive, null otherwise. -/
def Memory.view (m : Memory α) : Option α := m.loc.filter fun p => 0 < m.heap.strong p

omit [DecidableEq α] in
theorem view_eq_loc_iff : m.view = m.loc ↔ m.Unexpired := by
  rw [Memory.view, Memory.Unexpired]
  cases m.loc with
  | none => simp
  | some p => simp [Option.filter_eq_some_iff]

omit [DecidableEq α] in
theorem reserve_loc (B : Backend) (m : Memory α) (desired : Option α) : (m.reserve B desired).loc = m.loc := by
  cases B <;> rfl

/-- The reservation touches neither the location nor the counts. -/
theorem compareAndSwap_fails (B : Backend) (desired : Option α) (h : m.loc ≠ expected.getCounted) :
    ∃ m', compareAndSwap B m expected.getCounted desired = (m', false) ∧ m'.loc = m.loc ∧
      m'.heap.strong = m.heap.strong ∧ m'.heap.weak = m.heap.weak := by
  refine ⟨(m.reserve B desired).clearProtection B desired, ?_, ?_⟩
  · simp only [compareAndSwap, reserve_loc, if_neg h]
  · cases B <;> cases desired <;> exact ⟨rfl, rfl, rfl⟩

theorem compareExchangeWeak_succeeds (B : Backend) (desired : Option α) (fuel : Nat)
    (h : m.loc = expected.getCounted) :
    ∃ m', compareExchangeWeak B fuel m expected desired = some (m', expected, true) := by
  refine ⟨(compareAndSwap B m expected.getCounted desired).1, ?_⟩
  simp only [compareExchangeWeak, compareAndSwap, reserve_loc, if_pos h]

theorem drop_loc (B : Backend) (m : Memory α) (expected : Expected α) : (m.drop B expected).loc = m.loc := by
  cases expected with
  | weakPtr ptr => cases ptr <;> rfl
  | weakSnapshotPtr snapshot =>
    obtain ⟨ptr, slot⟩ := snapshot
    simp only [Memory.drop]
    cases slot <;> cases ptr <;> simp only <;> split <;> rfl

end Exchange

/-! ## The reload -/

section Reload
variable {α : Type} [DecidableEq α] {B : Backend} {m : Memory α}

/-- With `k` more accesses the call is done, with this result. -/
def Gives (B : Backend) (slot : Bool) (loc : Option α) (epoch k : Nat) (useCount : α → Nat) (r : Reader α)
    (result : Option α) : Prop :=
  ∀ fuel, k < fuel → ∃ useCount' r', finish B slot loc epoch fuel useCount r = some (useCount', r') ∧
    r'.pc = .done result

section Accesses
variable {slot : Bool} {loc result : Option α} {epoch k : Nat} {useCount useCount' : α → Nat} {r r' : Reader α}
  {p : α}

theorem Gives.done (h : r.pc = .done result) : Gives B slot loc epoch 0 useCount r result := by
  intro fuel hf
  obtain ⟨fuel, rfl⟩ := Nat.exists_eq_add_of_lt hf
  exact ⟨useCount, r, by simp [finish, h], h⟩

theorem Gives.step (h : Gives B slot loc epoch k useCount' r' result)
    (ha : access B slot (⟨loc, useCount, epoch, fun _ => r⟩ : State α 0) r = some (useCount', r')) :
    Gives B slot loc epoch (k + 1) useCount r result := by
  intro fuel hf
  cases fuel with
  | zero => cases hf
  | succ fuel =>
    obtain ⟨u, r'', hfin, hpc⟩ := h fuel (by omega)
    refine ⟨u, r'', ?_, hpc⟩
    simp only [finish]
    split
    · rename_i hr
      simp [access, hr] at ha
    · rw [ha]
      exact hfin

theorem Gives.mono {k' : Nat} (h : Gives B slot loc epoch k useCount r result) (hk : k ≤ k') :
    Gives B slot loc epoch k' useCount r result :=
  fun fuel hf => h fuel (by omega)

/-- `protect_snapshot` has returned the pointer of the location. -/
theorem gives_useCount (hr : r.pc = .useCount p) (hl : loc = some p) :
    Gives B slot loc epoch 2 useCount r (if 0 < useCount p then some p else none) := by
  by_cases hp : 0 < useCount p
  · rw [if_pos hp]
    have hd : Gives B slot loc epoch 0 useCount { r with pc := .done (some p) } (some p) := .done rfl
    exact (hd.step (by simp [access, hr, hp])).mono (by omega)
  · rw [if_neg hp]
    have hd : Gives B slot loc epoch 0 useCount { r with pc := .done none } none := .done rfl
    have hreload : Gives B slot loc epoch 1 useCount { r with pc := .reload p } none :=
      hd.step (by simp [access, hl])
    exact hreload.step (by simp [access, hr, hp])

theorem gives_expiryCheck (hr : r.pc = .expiryCheck p) (hl : loc = some p) :
    Gives B slot loc epoch 3 useCount r (if 0 < useCount p then some p else none) := by
  by_cases hp : useCount p = 0
  · rw [if_neg (by omega)]
    have hd : Gives B slot loc epoch 0 useCount { r with pc := .done none } none := .done rfl
    exact (hd.step (by simp [access, hr, hp])).mono (by omega)
  · have hu : Gives B slot loc epoch 2 useCount { r with pc := .useCount p }
        (if 0 < useCount p then some p else none) := gives_useCount rfl hl
    exact hu.step (by simp [access, hr, hp])

omit [DecidableEq α] in
theorem filter_some (useCount : α → Nat) (p : α) :
    (some p).filter (fun p => 0 < useCount p) = if 0 < useCount p then some p else none := by
  simp [Option.filter]

/-- Intervals, with the epoch announced. -/
theorem gives_ibrLoad (hr : r.pc = .ibrLoad epoch) :
    Gives B slot loc epoch 5 useCount r (loc.filter fun p => 0 < useCount p) := by
  cases hl : loc with
  | none =>
    have hd : Gives B slot none epoch 0 useCount { r with pc := .done none } none := .done rfl
    have he : Gives B slot none epoch 1 useCount { r with pc := .ibrEpoch epoch none } none :=
      hd.step (by simp [access])
    exact (he.step (by simp [access, hr])).mono (by omega)
  | some p =>
    have hx : Gives B slot (some p) epoch 3 useCount { r with pc := .expiryCheck p }
        (if 0 < useCount p then some p else none) := gives_expiryCheck rfl rfl
    have he : Gives B slot (some p) epoch 4 useCount { r with pc := .ibrEpoch epoch (some p) }
        (if 0 < useCount p then some p else none) := hx.step (by simp [access])
    rw [filter_some]
    exact he.step (by simp [access, hr])

/-- Epochs and Hyaline. -/
theorem gives_load (hr : r.pc = .load) :
    Gives B slot loc epoch 4 useCount r (loc.filter fun p => 0 < useCount p) := by
  cases hl : loc with
  | none =>
    have hd : Gives B slot none epoch 0 useCount { r with pc := .done none } none := .done rfl
    exact (hd.step (by simp [access, hr])).mono (by omega)
  | some p =>
    have hx : Gives B slot (some p) epoch 3 useCount { r with pc := .expiryCheck p }
        (if 0 < useCount p then some p else none) := gives_expiryCheck rfl rfl
    rw [filter_some]
    exact hx.step (by simp [access, hr])

/-- Hazard pointers with a slot. -/
theorem gives_hpLoad_slot (hr : r.pc = .hpLoad true) :
    Gives B slot loc epoch 5 useCount r (loc.filter fun p => 0 < useCount p) := by
  cases hl : loc with
  | none =>
    have hd : Gives B slot none epoch 0 useCount { r with pc := .done none } none := .done rfl
    exact (hd.step (by simp [access, hr])).mono (by omega)
  | some p =>
    have hu : Gives B slot (some p) epoch 2 useCount { r with pc := .useCount p }
        (if 0 < useCount p then some p else none) := gives_useCount rfl rfl
    have hv : Gives B slot (some p) epoch 3 useCount { r with pc := .hpValidate true (some p) }
        (if 0 < useCount p then some p else none) := hu.step (by simp [access, protectedPc])
    have ha : Gives B slot (some p) epoch 4 useCount { r with pc := .hpAnnounce true (some p) }
        (if 0 < useCount p then some p else none) := hv.step (by simp [access])
    rw [filter_some]
    exact ha.step (by simp [access, hr])

/-- Hazard pointers without one: the count is incremented if it is not zero. -/
theorem gives_hpLoad (hr : r.pc = .hpLoad false) :
    Gives B slot loc epoch 6 useCount r (loc.filter fun p => 0 < useCount p) := by
  cases hl : loc with
  | none =>
    have hd : Gives B slot none epoch 0 useCount { r with pc := .done none } none := .done rfl
    have hv : Gives B slot none epoch 1 useCount { r with pc := .hpValidate false none } none :=
      hd.step (by simp [access])
    have ha : Gives B slot none epoch 2 useCount { r with pc := .hpAnnounce false none } none :=
      hv.step (by simp [access])
    exact (ha.step (by simp [access, hr])).mono (by omega)
  | some p =>
    have hi : Gives B slot (some p) epoch 3 useCount { r with pc := .hpIncrement p }
        (if 0 < useCount p then some p else none) := by
      by_cases hp : 0 < useCount p
      · rw [if_pos hp]
        have hu : Gives B slot (some p) epoch 2 (Function.update useCount p (useCount p + 1))
            { r with pc := .useCount p } (some p) := by
          have hu : Gives B slot (some p) epoch 2 (Function.update useCount p (useCount p + 1))
              { r with pc := .useCount p }
              (if 0 < Function.update useCount p (useCount p + 1) p then some p else none) :=
            gives_useCount rfl rfl
          rwa [if_pos (by simp)] at hu
        exact hu.step (by simp [access, hp])
      · rw [if_neg hp]
        have hd : Gives B slot (some p) epoch 0 useCount { r with pc := .done none } none := .done rfl
        have hc : Gives B slot (some p) epoch 1 useCount { r with pc := .hpRecheck p } none :=
          hd.step (by simp [access])
        exact (hc.step (by simp [access, hp])).mono (by omega)
    have hv : Gives B slot (some p) epoch 4 useCount { r with pc := .hpValidate false (some p) }
        (if 0 < useCount p then some p else none) := hi.step (by simp [access])
    have ha : Gives B slot (some p) epoch 5 useCount { r with pc := .hpAnnounce false (some p) }
        (if 0 < useCount p then some p else none) := hv.step (by simp [access])
    rw [filter_some]
    exact ha.step (by simp [access, hr])

/-- A call of `get_snapshot` by itself comes to its end. -/
theorem gives_start (B : Backend) (slot : Bool) (loc : Option α) (epoch : Nat) (useCount : α → Nat)
    (hr : r.pc = .start) :
    Gives B slot loc epoch 10 useCount r (loc.filter fun p => 0 < useCount p) := by
  cases B with
  | hp =>
    cases slot with
    | true =>
      have h : Gives .hp true loc epoch 5 useCount { r with pc := .hpLoad true }
          (loc.filter fun p => 0 < useCount p) := gives_hpLoad_slot rfl
      exact (h.step (by simp [access, hr, protectSnapshot])).mono (by omega)
    | false =>
      have h : Gives .hp false loc epoch 6 useCount { r with pc := .hpLoad false }
          (loc.filter fun p => 0 < useCount p) := gives_hpLoad rfl
      exact (h.step (by simp [access, hr, protectSnapshot])).mono (by omega)
  | ebr =>
    have h : Gives .ebr slot loc epoch 4 useCount { r with pc := .load }
        (loc.filter fun p => 0 < useCount p) := gives_load rfl
    exact (h.step (by simp [access, hr, protectSnapshot])).mono (by omega)
  | hyaline =>
    have h : Gives .hyaline slot loc epoch 4 useCount { r with pc := .load }
        (loc.filter fun p => 0 < useCount p) := gives_load rfl
    exact (h.step (by simp [access, hr, protectSnapshot])).mono (by omega)
  | ibr =>
    have hslot : Gives .ibr slot loc epoch 9 useCount { r with pc := .ibrSlot }
        (loc.filter fun p => 0 < useCount p) := by
      by_cases he : r.endTS = epoch
      · have h : Gives .ibr slot loc epoch 5 useCount { r with pc := .ibrLoad epoch }
            (loc.filter fun p => 0 < useCount p) := gives_ibrLoad rfl
        exact (h.step (by simp [access, he])).mono (by omega)
      · -- an old announcement costs one more turn of the loop
        have h : Gives .ibr slot loc epoch 5 useCount { r with pc := .ibrLoad epoch, endTS := epoch }
            (loc.filter fun p => 0 < useCount p) := gives_ibrLoad rfl
        have hx : Gives .ibr slot loc epoch 6 useCount { r with pc := .ibrExchange epoch }
            (loc.filter fun p => 0 < useCount p) := h.step (by simp [access])
        have hc : Gives .ibr slot loc epoch 7 useCount { r with pc := .ibrEpoch r.endTS loc }
            (loc.filter fun p => 0 < useCount p) := hx.step (by simp [access, he])
        have hl : Gives .ibr slot loc epoch 8 useCount { r with pc := .ibrLoad r.endTS }
            (loc.filter fun p => 0 < useCount p) := hc.step (by simp [access])
        exact hl.step (by simp [access])
    exact hslot.step (by simp [access, hr, protectSnapshot])

end Accesses

theorem getSnapshot_eq (B : Backend) (m : Memory α) {fuel : Nat} (hf : 10 < fuel) :
    ∃ m' x, getSnapshot B fuel m = some (m', x) ∧ m'.loc = m.loc ∧ x.ptr = m.view := by
  obtain ⟨useCount, ⟨pc, endTS, seen⟩, hfin, hpc⟩ := gives_start (r := ⟨.start, m.heap.endTS, []⟩) B
    m.getFreeSlot.isSome m.loc m.heap.epoch m.heap.strong rfl fuel hf
  obtain rfl : pc = .done (m.loc.filter fun p => 0 < m.heap.strong p) := hpc
  simp only [getSnapshot, hfin]
  split
  · rename_i p i hres hslot
    exact ⟨_, _, rfl, rfl, hres.symm⟩
  · exact ⟨_, _, rfl, rfl, rfl⟩

theorem addRef_weak {s : Acquire.State α} {ptr : Acquire.MarkedPtr α} (h : ∀ p ∈ ptr.obj, 0 < s.weak p) :
    ∃ s', s.addRef .weak ptr = (s', ptr) := by
  cases hp : ptr.obj with
  | none => exact ⟨s, by simp [Acquire.State.addRef, hp]⟩
  | some p =>
    have hw : 0 < s.count .weak p := h p hp
    exact ⟨_, by simp [Acquire.State.addRef, hp, Acquire.State.increment, hw]; rfl⟩

omit [DecidableEq α] in
theorem protectSnapshotIbr_announced {s : Acquire.State α} {loc : Option α} {pEpoch fuel : Nat}
    (h : pEpoch = s.epoch) : Acquire.protectSnapshotIbr ⟨loc, 0⟩ (fuel + 1) pEpoch s =
      some (s, ⟨loc.filter fun p => 0 < s.strong p, 0⟩) := by
  rw [Acquire.protectSnapshotIbr, if_pos h]
  cases loc with
  | none => rfl
  | some p =>
    rw [filter_some]
    by_cases hp : s.strong p = 0
    · simp [hp, Acquire.MarkedPtr.null]
    · simp [hp, Nat.pos_of_ne_zero hp]

/-- What `acquire` gives: only intervals look at the use count. -/
theorem acquire_eq (B : Backend) (m : Memory α) {fuel : Nat} (hf : 10 < fuel) :
    ∃ heap, Acquire.acquire (acquireBackend B) fuel m.heap ⟨m.loc, 0⟩ =
      some (heap, ⟨if B = .ibr then m.view else m.loc, 0⟩) ∧ heap.weak = m.heap.weak := by
  obtain ⟨fuel, rfl⟩ := Nat.exists_eq_add_of_le' (show 2 ≤ fuel by omega)
  cases B with
  | hp =>
    exact ⟨{ m.heap with announcement := m.loc },
      by simp [Acquire.acquire, acquireBackend, Acquire.acquireHp], rfl⟩
  | ebr => exact ⟨_, by simp [Acquire.acquire, acquireBackend], rfl⟩
  | hyaline => exact ⟨_, by simp [Acquire.acquire, acquireBackend], rfl⟩
  | ibr =>
    by_cases he : m.heap.endTS = m.heap.epoch
    · refine ⟨m.heap, ?_, rfl⟩
      simp only [Acquire.acquire, acquireBackend, protectSnapshotIbr_announced he, if_true]
      rfl
    · refine ⟨{ m.heap with endTS := m.heap.epoch }, ?_, rfl⟩
      simp only [Acquire.acquire, acquireBackend]
      rw [Acquire.protectSnapshotIbr, if_neg he, if_pos trivial]
      exact protectSnapshotIbr_announced rfl

/-- What `load` gives. -/
theorem load_eq (B : Backend) (hm : m.Held) {fuel : Nat} (hf : 10 < fuel) :
    ∃ m', load B fuel m = some (m', if B = .ibr then m.view else m.loc) ∧ m'.loc = m.loc := by
  obtain ⟨heap, hacq, hw⟩ := acquire_eq B m hf
  have hheld : ∀ p ∈ (if B = .ibr then m.view else m.loc), 0 < heap.weak p := by
    intro p hp
    rw [hw]
    refine hm p ?_
    split at hp
    · exact (Option.mem_filter_iff.mp hp).1
    · exact hp
  obtain ⟨heap', hadd⟩ := addRef_weak (s := heap) (show ∀ p ∈ Acquire.MarkedPtr.obj
    ⟨if B = .ibr then m.view else m.loc, 0⟩, 0 < heap.weak p from hheld)
  refine ⟨{ m with heap := heap' }, ?_, rfl⟩
  simp only [load, Acquire.load, hacq, Option.map_some, hadd]

end Reload

/-! ## The loop -/

section Loop
variable {α : Type} [DecidableEq α] {B : Backend} {m : Memory α} {expected : Expected α} {desired : Option α}

/-- What `expected` is after a call that fails. -/
def reloaded (B : Backend) (m : Memory α) : Expected α → Option α
  | .weakPtr _ => if B = .ibr then m.view else m.loc
  | .weakSnapshotPtr _ => m.view

theorem compareExchangeWeak_fails (B : Backend) (desired : Option α) (hm : m.Held)
    (h : m.loc ≠ expected.getCounted) {fuel : Nat} (hf : 10 < fuel) : ∃ m' expected',
      compareExchangeWeak B fuel m expected desired = some (m', expected', false) ∧
      m'.loc = m.loc ∧ expected'.getCounted = reloaded B m expected := by
  obtain ⟨m₁, hcas, hloc, hstrong, hweak⟩ := compareAndSwap_fails B desired h
  have hview : m₁.view = m.view := by rw [Memory.view, Memory.view, hloc, hstrong]
  cases expected with
  | weakPtr ptr =>
    have hm₁ : m₁.Held := by
      rw [Memory.Held, hloc, hweak]
      exact hm
    obtain ⟨m₂, hload, hloc₂⟩ := load_eq B hm₁ hf
    refine ⟨m₂.drop B (.weakPtr ptr), .weakPtr (if B = .ibr then m₁.view else m₁.loc), ?_, ?_, ?_⟩
    · simp only [compareExchangeWeak, hcas, hload, Option.map_some]
    · rw [drop_loc, hloc₂, hloc]
    · rw [Expected.getCounted, reloaded, hview, hloc]
  | weakSnapshotPtr snapshot =>
    obtain ⟨m₂, x, hget, hloc₂, hx⟩ := getSnapshot_eq B m₁ hf
    refine ⟨m₂.drop B (.weakSnapshotPtr snapshot), .weakSnapshotPtr x, ?_, ?_, ?_⟩
    · simp only [compareExchangeWeak, hcas, hget, Option.map_some]
    · rw [drop_loc, hloc₂, hloc]
    · rw [Expected.getCounted, reloaded, hx, hview]

/-- The overload for `weak_ptr`. -/
def Expected.isWeakPtr : Expected α → Bool
  | .weakPtr _ => true
  | .weakSnapshotPtr _ => false

omit [DecidableEq α] in
theorem reloaded_eq_loc_iff :
    reloaded B m expected = m.loc ↔ m.Unexpired ∨ (B ≠ .ibr ∧ expected.isWeakPtr = true) := by
  cases expected with
  | weakPtr ptr =>
    rw [reloaded]
    split
    · rename_i hB
      simp [view_eq_loc_iff, hB]
    · rename_i hB
      simp [hB, Expected.isWeakPtr]
  | weakSnapshotPtr snapshot =>
    rw [reloaded]
    simp [view_eq_loc_iff, Expected.isWeakPtr]

theorem progress_of_reloaded (hm : m.Held) (h : m.loc ≠ expected.getCounted) :
    Progress B m expected desired ↔ reloaded B m expected = m.loc := by
  constructor
  · rintro ⟨fuel₀, hprog⟩
    obtain ⟨m₁, e₁, success, hcall, hnext⟩ := hprog (max fuel₀ 11) (le_max_left _ _)
    obtain ⟨m', e', hcall', hloc, he⟩ := compareExchangeWeak_fails B desired hm h
      (lt_of_lt_of_le (by omega) (le_max_right fuel₀ 11))
    rw [hcall] at hcall'
    cases hcall'
    by_contra hne
    -- the same memory, and the second call finds the same pointer
    obtain ⟨m₃, e₃, hcall₃⟩ := hnext rfl m₁ rfl
    have hne₁ : m₁.loc ≠ e₁.getCounted := by
      rw [hloc, he]
      exact Ne.symm hne
    obtain ⟨m₂, hcas, -⟩ := compareAndSwap_fails B desired hne₁
    simp only [compareExchangeWeak, hcas] at hcall₃
    cases e₁ with
    | weakPtr ptr =>
      obtain ⟨x, -, hx⟩ := Option.map_eq_some_iff.mp hcall₃
      cases hx
    | weakSnapshotPtr snapshot =>
      obtain ⟨x, -, hx⟩ := Option.map_eq_some_iff.mp hcall₃
      cases hx
  · intro hr
    refine ⟨11, fun fuel hf => ?_⟩
    obtain ⟨m₁, e₁, hcall, hloc, he⟩ := compareExchangeWeak_fails B desired hm h
      (Nat.lt_of_succ_le hf)
    refine ⟨m₁, e₁, false, hcall, fun _ m₂ hloc₂ => ?_⟩
    obtain ⟨m₃, hcall₃⟩ := compareExchangeWeak_succeeds B desired fuel
      (show m₂.loc = e₁.getCounted by rw [hloc₂, hloc, he, hr])
    exact ⟨m₃, e₁, hcall₃⟩

/-- A failed `compare_exchange_weak` is followed by a successful one exactly when the first
does not fail, the object in the location is not expired, or the reload is the `load` of a
backend other than intervals. -/
theorem compareExchangeWeak_progress_iff (B : Backend) (expected : Expected α) (desired : Option α)
    (hm : m.Held) : Progress B m expected desired ↔
      m.loc = expected.getCounted ∨ m.Unexpired ∨ (B ≠ .ibr ∧ expected.isWeakPtr = true) := by
  by_cases h : m.loc = expected.getCounted
  · refine iff_of_true ?_ (.inl h)
    refine ⟨0, fun fuel _ => ?_⟩
    obtain ⟨m', hcall⟩ := compareExchangeWeak_succeeds B desired fuel h
    exact ⟨m', expected, true, hcall, fun hs => by cases hs⟩
  · rw [progress_of_reloaded hm h, reloaded_eq_loc_iff]
    exact ⟨.inr, fun hor => hor.resolve_left h⟩

end Loop

/-- The location has the only reference to object 1, which has no strong ones. -/
def expiredObject : Memory Nat :=
  ⟨some 1, ⟨fun _ => 0, fun p => if p = 1 then 1 else 0, [], [], none, 0, 0, none⟩, List.replicate 7 none⟩

theorem compareExchangeWeak_progress_expired :
    expiredObject.Held ∧ ¬ expiredObject.Unexpired ∧ Progress .hp expiredObject (.weakPtr none) none := by
  have hm : expiredObject.Held := by
    intro p hp
    cases hp
    decide
  have he : ¬ expiredObject.Unexpired := fun h => absurd (h 1 rfl) (by decide)
  exact ⟨hm, he, (compareExchangeWeak_progress_iff .hp (.weakPtr none) none hm).mpr
    (.inr (.inr ⟨by decide, rfl⟩))⟩

/-- The loop over a `weak_snapshot_ptr` does not end: both calls read null. -/
theorem compareExchangeWeak_stuck :
    ¬ ∀ (B : Backend) (m : Memory Nat) (expected : Expected Nat) (desired : Option Nat), m.Held →
      Progress B m expected desired := by
  intro hall
  have hm : expiredObject.Held := by
    intro p hp
    cases hp
    decide
  obtain ⟨fuel₀, hprog⟩ := hall .hp expiredObject (.weakSnapshotPtr ⟨none, none⟩) none hm
  have hne : expiredObject.loc ≠ (Expected.weakSnapshotPtr (α := Nat) ⟨none, none⟩).getCounted := by decide
  have hview : expiredObject.view = none := by decide
  have hprog' := (progress_of_reloaded hm hne).mp ⟨fuel₀, hprog⟩
  rw [reloaded, hview] at hprog'
  cases hprog'

end Cdrc.AtomicWeakPtr.CompareExchange
