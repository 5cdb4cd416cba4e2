import Mathlib.Logic.Equiv.Basic
import Cdrc.Lib.Runs
import Cdrc.MarkedPtr.Atomic

/-! # Who owns the snapshot slots of a thread

With hazard pointers a `snapshot_ptr` holds a value and, unless it took a reference count
instead, the snapshot slot of its thread that announces the object. A slot is free when it
is null, and nothing else records who uses it.

The model is one thread with any number of `snapshot_ptr`s. Other threads may change the
location that a `get_snapshot` reads, and the counts, at any time. Where `clear` decrements a
count, the destructor of an object may run and use `snapshot_ptr`s of its own, so that
calls nest there. -/
namespace Cdrc.SnapshotPtr
open Cdrc.Lib.Runs Cdrc.MarkedPtr
open Cdrc.StickyCounter (Word)

/-- What follows a `clear` in the operation that called it. -/
inductive After
  | done
  /-- `~snapshot_ptr` -/
  | destroy
  /-- `operator=`, which goes on with `swap(other)` -/
  | swap (other : Nat)
  deriving DecidableEq, Repr

/-- A call the thread is in. -/
inductive Frame
  /-- `protect_snapshot` with a slot, for the new snapshot `x`, before it loads `p` -/
  | load (x : Nat) (slot : Slot)
  /-- before it loads `p` again -/
  | validate (x : Nat) (slot : Slot) (result : MarkedPtr)
  /-- `protect_snapshot` without a slot: `acquire`, before it loads `p` -/
  | acquire (x : Nat)
  /-- before it loads `p` again -/
  | acquired (x : Nat) (result : MarkedPtr)
  /-- before `increment_ref_cnt` -/
  | count (x : Nat) (a : AcquiredPtr)
  /-- before `p->load() == a.get()` -/
  | compare (x : Nat) (a : AcquiredPtr)
  /-- `snapshot_ptr::clear` of `x`, in `decrement_ref_cnt` -/
  | clear (x : Nat) (after : After)
  deriving DecidableEq, Repr

structure State where
  /-- the location read, the announcements of the thread and the counts -/
  shared : MarkedPtr.State
  /-- the `acquired_ptr` of each live `snapshot_ptr` -/
  snapshot : Nat → Option AcquiredPtr
  stack : List Frame

/-- A thread with `snapshot_slots` slots and no snapshot. -/
def State.initial (snapshotSlots : Nat) (loc : MarkedPtr) (refCnt : Addr → Word 30) : State :=
  ⟨⟨loc, 0, List.replicate snapshotSlots 0, refCnt⟩, fun _ => none, []⟩

def null : AcquiredPtr := ⟨0, none⟩

def isProtected (a : AcquiredPtr) : Bool := a.slot.isSome && getPtr a.value != 0

def State.set (s : State) (x : Nat) (a : Option AcquiredPtr) : State :=
  { s with snapshot := Function.update s.snapshot x a }

/-- The call at the top of the stack returns the new snapshot `x`. -/
def State.give (s : State) (x : Nat) (a : AcquiredPtr) : State :=
  { s.set x (some a) with stack := s.stack.tail }

def State.goto (s : State) (f : Frame) : State := { s with stack := f :: s.stack.tail }

/-- `swap`. -/
def State.swap (s : State) (x y : Nat) : State :=
  match s.snapshot x, s.snapshot y with
  | some a, some b => (s.set x (some b)).set y (some a)
  | _, _ => s

/-- `acquired_ptr.clear()`, then the rest of the operation. -/
def State.finishClear (s : State) (x : Nat) (a : AcquiredPtr) : After → State
  | .done => { s with shared := clearProtection s.shared a }.set x (some null)
  | .destroy => { s with shared := clearProtection s.shared a }.set x none
  | .swap y => ({ s with shared := clearProtection s.shared a }.set x (some null)).swap x y

/-- `snapshot_ptr::clear`. -/
def State.clear (s : State) (x : Nat) (after : After) : Option State :=
  (s.snapshot x).map fun a =>
    if !isProtected a && getPtr a.value != 0 then { s with stack := .clear x after :: s.stack }
    else s.finishClear x a after

/-- The next step of a call. -/
def State.run (s : State) : List Frame → Option State
  | [] => none
  | .load x slot :: _ =>
    let result := s.shared.loc
    if getPtr result = 0 then
      some ({ s with shared := s.shared.store 0 slot }.give x ⟨result, none⟩)
    else some ({ s with shared := s.shared.store (getPtr result) slot }.goto (.validate x slot result))
  | .validate x slot result :: _ =>
    if s.shared.loc ≠ result then some (s.goto (.load x slot))
    else some (s.give x ⟨result, some slot⟩)
  | .acquire x :: _ =>
    let result := s.shared.loc
    some ({ s with shared := s.shared.store (getPtr result) .announcement }.goto (.acquired x result))
  | .acquired x result :: _ =>
    if s.shared.loc ≠ result then some (s.goto (.acquire x))
    else some (s.goto (.count x ⟨result, some .announcement⟩))
  | .count x a :: _ =>
    if getPtr a.value ≠ 0 then
      let (shared, ok) := incrementRefCnt s.shared (getPtr a.value)
      if ok then some ({ s with shared := clearProtection shared a }.give x ⟨a.value, none⟩)
      else some ({ s with shared := shared }.goto (.compare x a))
    else some ({ s with shared := clearProtection s.shared a }.give x null)
  | .compare x a :: _ =>
    if s.shared.loc = a.value then some ({ s with shared := clearProtection s.shared a }.give x null)
    else some ({ s with shared := clearProtection s.shared a }.goto (.acquire x))
  | .clear x after :: fs =>
    (s.snapshot x).map fun a => { s with stack := fs }.finishClear x a after

inductive Label
  /-- `snapshot_ptr()` -/
  | construct (x : Nat)
  | getSnapshot (x : Nat)
  | moveConstruct (x other : Nat)
  | moveAssign (x other : Nat)
  | swap (x other : Nat)
  | setMark (x : Nat) (mark : BitVec 64)
  | clear (x : Nat)
  | destroy (x : Nat)
  /-- the thread goes on with its innermost call -/
  | run
  /-- the location and the counts change -/
  | interfere (loc : MarkedPtr) (refCnt : Addr → Word 30)

/-- The thread is in user code, or in a destructor that `decrement_ref_cnt` runs. -/
def mayCall : List Frame → Bool
  | [] => true
  | .clear _ _ :: _ => true
  | _ => false

/-- The call uses the `snapshot_ptr`, which is then not destroyed before its end. -/
def Frame.uses (x : Nat) : Frame → Bool
  | .clear y (.swap z) => x = y || x = z
  | .clear y _ => x = y
  | _ => false

def next (s : State) : Label → Option State
  | .construct x =>
    if mayCall s.stack ∧ s.snapshot x = none then some (s.set x (some null)) else none
  | .getSnapshot x =>
    if mayCall s.stack ∧ s.snapshot x = none then
      match getFreeSlot s.shared with
      | none => some { s with stack := .acquire x :: s.stack }
      | some slot => some { s with stack := .load x slot :: s.stack }
    else none
  | .moveConstruct x y =>
    if mayCall s.stack ∧ s.snapshot x = none then
      (s.snapshot y).map fun a => (s.set x (some a)).set y (some null)
    else none
  | .moveAssign x y =>
    if mayCall s.stack ∧ s.snapshot y ≠ none then s.clear x (.swap y) else none
  | .swap x y =>
    if mayCall s.stack ∧ s.snapshot x ≠ none ∧ s.snapshot y ≠ none then some (s.swap x y) else none
  | .setMark x mark =>
    if mayCall s.stack ∧ mark < 4 then
      (s.snapshot x).map fun a => s.set x (some { a with value := setMark a.value mark })
    else none
  | .clear x => if mayCall s.stack then s.clear x .done else none
  | .destroy x =>
    if mayCall s.stack ∧ ∀ f ∈ s.stack, f.uses x = false then s.clear x .destroy else none
  | .run => s.run s.stack
  | .interfere loc refCnt => some { s with shared := { s.shared with loc := loc, refCnt := refCnt } }

def machine (snapshotSlots : Nat) : Machine State Label where
  init s := ∃ loc refCnt, s = .initial snapshotSlots loc refCnt
  next := next

/-- The live `snapshot_ptr` at `x` has slot `i`. -/
def State.Owns (s : State) (x i : Nat) : Prop :=
  ∃ a, s.snapshot x = some a ∧ a.slot = some (.snapshot i)

/-- A slot is not null exactly when it has one owner, which is not null, and holds the
owner's pointer without its mark. -/
def State.SlotsOwned (s : State) : Prop :=
  ∀ i p, s.shared.snapshotAnnouncements[i]? = some p →
    (p ≠ 0 ↔ ∃ x a, s.snapshot x = some a ∧ a.slot = some (.snapshot i) ∧
      (∀ y, s.Owns y i → y = x) ∧ getPtr a.value ≠ 0 ∧ p = getPtr a.value)

/-! ## The invariant -/

/-- The slot that a `protect_snapshot` uses. -/
def pending : List Frame → Option Slot
  | .load _ slot :: _ => some slot
  | .validate _ slot _ :: _ => some slot
  | _ => none

/-- The frame is a `clear`, in which the thread may make calls. -/
def Frame.isClear : Frame → Bool
  | .clear _ _ => true
  | _ => false

/-- What the call at the top of the stack knows. -/
def TopInv (s : State) : Frame → Prop
  | .load x slot => s.snapshot x = none ∧
      ∃ i, slot = .snapshot i ∧ i < s.shared.snapshotAnnouncements.length
  | .validate x slot result => s.snapshot x = none ∧
      ∃ i, slot = .snapshot i ∧ getPtr result ≠ 0 ∧
        s.shared.snapshotAnnouncements[i]? = some (getPtr result)
  | .acquire x => s.snapshot x = none
  | .acquired x _ => s.snapshot x = none
  | .count x a => s.snapshot x = none ∧ a.slot = some .announcement
  | .compare x a => s.snapshot x = none ∧ a.slot = some .announcement
  | .clear _ _ => True

/-- The slot that the snapshot at `x` has, with its pointer. -/
def State.held (s : State) (x : Nat) : Option (Slot × Addr) :=
  (s.snapshot x).bind fun a => a.slot.map fun slot => (slot, getPtr a.value)

structure Inv (k : Nat) (s : State) : Prop where
  length : s.shared.snapshotAnnouncements.length = k
  holds : ∀ x slot p, s.held x = some (slot, p) → pending s.stack ≠ some slot ∧
    ∃ i, slot = .snapshot i ∧ p ≠ 0 ∧ s.shared.snapshotAnnouncements[i]? = some p
  unshared : ∀ x y slot p q, s.held x = some (slot, p) → s.held y = some (slot, q) → x = y
  taken : ∀ i p, s.shared.snapshotAnnouncements[i]? = some p → p ≠ 0 →
    pending s.stack = some (.snapshot i) ∨ ∃ x q, s.held x = some (.snapshot i, q)
  below : ∀ f ∈ s.stack.tail, f.isClear = true
  top : ∀ f ∈ s.stack.head?, TopInv s f

section Steps
variable {k : Nat} {s s' : State} {x y : Nat} {a : AcquiredPtr}

theorem Inv.initial {loc : MarkedPtr} {refCnt : Addr → Word 30} : Inv k (.initial k loc refCnt) where
  length := by simp [State.initial]
  holds := by
    intro x slot p hx
    cases hx
  unshared := by
    intro x y slot p q hx
    cases hx
  taken := by
    intro i p hp hne
    exact absurd (List.mem_replicate.mp (List.mem_of_getElem? hp)).2 hne
  below := by simp [State.initial]
  top := by simp [State.initial]

theorem pending_of_mayCall {fs : List Frame} (h : mayCall fs = true) : pending fs = none := by
  cases fs with
  | nil => rfl
  | cons f fs => cases f <;> simp_all [mayCall, pending]

theorem pending_ne {fs : List Frame} {slot : Slot} (h : pending fs = none) :
    pending fs ≠ some slot := by
  rw [h]
  exact (Option.some_ne_none slot).symm

theorem clear_of_mayCall (h : Inv k s) (hm : mayCall s.stack = true) :
    ∀ f ∈ s.stack, f.isClear = true := by
  intro f hf
  cases hs : s.stack with
  | nil =>
    rw [hs] at hf
    cases hf
  | cons g fs =>
    have hbelow := h.below
    rw [hs] at hf hm hbelow
    rcases List.mem_cons.mp hf with rfl | hf
    · cases f <;> simp_all [mayCall, Frame.isClear]
    · exact hbelow f hf

/-- The announcements do not change, the snapshots at most their names, and no call uses
a slot before or after. -/
theorem Inv.rename (h : Inv k s) (e : Equiv.Perm Nat)
    (hann : s'.shared.snapshotAnnouncements = s.shared.snapshotAnnouncements)
    (hheld : ∀ x, s'.held x = s.held (e x)) (hpend : pending s.stack = none)
    (hpend' : pending s'.stack = none) (hbelow : ∀ f ∈ s'.stack.tail, f.isClear = true)
    (htop : ∀ f ∈ s'.stack.head?, TopInv s' f) : Inv k s' where
  length := hann ▸ h.length
  holds := by
    intro x slot p hx
    rw [hheld] at hx
    obtain ⟨_, hi⟩ := h.holds _ slot p hx
    rw [hpend', hann]
    exact ⟨by simp, hi⟩
  unshared := by
    intro x y slot p q hx hy
    rw [hheld] at hx hy
    exact e.injective (h.unshared _ _ slot p q hx hy)
  taken := by
    intro i p hp hne
    rw [hann] at hp
    rcases h.taken i p hp hne with ht | ⟨x, q, hx⟩
    · rw [hpend] at ht
      cases ht
    · exact Or.inr ⟨e.symm x, q, by rw [hheld, e.apply_symm_apply]; exact hx⟩
  below := hbelow
  top := htop

theorem held_set_self (b : Option AcquiredPtr) :
    (s.set x b).held x = b.bind fun a => a.slot.map fun slot => (slot, getPtr a.value) := by
  simp [State.held, State.set]

theorem held_set_of_ne (b : Option AcquiredPtr) (h : y ≠ x) : (s.set x b).held y = s.held y := by
  simp [State.held, State.set, Function.update_of_ne h]

theorem held_of (hx : s.snapshot x = some a) :
    s.held x = a.slot.map fun slot => (slot, getPtr a.value) := by
  simp [State.held, hx]

/-- Where the thread may make calls, all its calls are in a `clear`. -/
theorem top_of_clear {fs : List Frame} (s : State) (h : ∀ f ∈ fs, f.isClear = true) :
    pending fs = none ∧ (∀ f ∈ fs.tail, f.isClear = true) ∧ ∀ f ∈ fs.head?, TopInv s f := by
  refine ⟨?_, fun f hf => h f (List.mem_of_mem_tail hf), fun f hf => ?_⟩
  · cases fs with
    | nil => rfl
    | cons f fs =>
      have hf := h f List.mem_cons_self
      cases f <;> simp_all [Frame.isClear, pending]
  · have hclear := h f (List.mem_of_mem_head? hf)
    cases f <;> simp_all [Frame.isClear, TopInv]

/-- Operations in user code that change no announcement. -/
theorem Inv.user (h : Inv k s) (hclear : ∀ f ∈ s.stack, f.isClear = true) (e : Equiv.Perm Nat)
    (hann : s'.shared.snapshotAnnouncements = s.shared.snapshotAnnouncements)
    (hheld : ∀ x, s'.held x = s.held (e x)) (hclear' : ∀ f ∈ s'.stack, f.isClear = true) : Inv k s' := by
  obtain ⟨hpend, _, _⟩ := top_of_clear s hclear
  obtain ⟨hpend', hbelow, htop⟩ := top_of_clear s' hclear'
  exact h.rename e hann hheld hpend hpend' hbelow htop

theorem Inv.swap (h : Inv k s) (hclear : ∀ f ∈ s.stack, f.isClear = true) (x y : Nat) :
    Inv k (s.swap x y) := by
  unfold State.swap
  split
  · next a b ha hb =>
    refine h.user hclear (Equiv.swap x y) rfl (fun z => ?_) hclear
    by_cases hzy : z = y
    · subst hzy
      rw [held_set_self, Equiv.swap_apply_right, held_of ha]
      rfl
    · rw [held_set_of_ne _ hzy]
      by_cases hzx : z = x
      · subst hzx
        rw [held_set_self, Equiv.swap_apply_left, held_of hb]
        rfl
      · rw [held_set_of_ne _ hzx, Equiv.swap_apply_of_ne_of_ne hzx hzy]
  · exact h

/-- `acquired_ptr.clear()`: the slot is freed together with its owner. -/
theorem Inv.released (h : Inv k s) (hclear : ∀ f ∈ s.stack, f.isClear = true)
    (hx : s.snapshot x = some a) {b : Option AcquiredPtr} (hb : b = some null ∨ b = none) :
    Inv k ({ s with shared := clearProtection s.shared a }.set x b) := by
  have hnone : ({ s with shared := clearProtection s.shared a }.set x b).held x = none := by
    rw [held_set_self]
    rcases hb with rfl | rfl <;> rfl
  have hother : ∀ z, z ≠ x →
      ({ s with shared := clearProtection s.shared a }.set x b).held z = s.held z :=
    fun z hz => held_set_of_ne b hz
  cases hslot : a.slot with
  | none =>
    have hxn : s.held x = none := by rw [held_of hx, hslot]; rfl
    refine h.user hclear (Equiv.refl Nat) ?_ (fun z => ?_) hclear
    · simp [clearProtection, hslot, State.set]
    · by_cases hz : z = x
      · rw [hz, hnone]
        exact hxn.symm
      · exact hother z hz
  | some slot =>
    have hxs : s.held x = some (slot, getPtr a.value) := by rw [held_of hx, hslot]; rfl
    obtain ⟨_, i, rfl, hne, hi⟩ := h.holds x slot _ hxs
    have hann : ({ s with shared := clearProtection s.shared a }.set x b).shared.snapshotAnnouncements =
        s.shared.snapshotAnnouncements.set i 0 := by
      change (clearProtection s.shared a).snapshotAnnouncements = _
      rw [clearProtection, hslot]
      exact congrArg _ (if_pos hne)
    obtain ⟨hpend, hbelow, htop⟩ :=
      top_of_clear ({ s with shared := clearProtection s.shared a }.set x b) hclear
    refine ⟨?_, fun z slot p hz => ?_, fun z w slot p q hz hw => ?_, fun j p hp hpne => ?_, hbelow, htop⟩
    · rw [hann, List.length_set]
      exact h.length
    · have hzx : z ≠ x := by
        rintro rfl
        rw [hnone] at hz
        cases hz
      rw [hother z hzx] at hz
      obtain ⟨_, j, rfl, hpne, hj⟩ := h.holds z slot p hz
      have hji : j ≠ i := fun hji => hzx (h.unshared z x _ p _ hz (hji ▸ hxs))
      refine ⟨?_, j, rfl, hpne, ?_⟩
      · exact pending_ne hpend
      · rw [hann, List.getElem?_set_ne hji.symm]
        exact hj
    · have hzx : z ≠ x := by
        rintro rfl
        rw [hnone] at hz
        cases hz
      have hwx : w ≠ x := by
        rintro rfl
        rw [hnone] at hw
        cases hw
      rw [hother z hzx] at hz
      rw [hother w hwx] at hw
      exact h.unshared z w slot p q hz hw
    · rw [hann] at hp
      by_cases hij : i = j
      · subst hij
        rw [List.getElem?_set_self (List.getElem?_eq_some_iff.mp hi).1] at hp
        exact absurd (Option.some.inj hp).symm hpne
      · rw [List.getElem?_set_ne hij] at hp
        rcases h.taken j p hp hpne with ht | ⟨z, q, hz⟩
        · rw [hpend] at ht
          cases ht
        · have hzx : z ≠ x := by
            rintro rfl
            rw [hxs] at hz
            cases hz
            exact hij rfl
          exact Or.inr ⟨z, q, (hother z hzx).trans hz⟩

theorem Inv.finishClear (h : Inv k s) (hclear : ∀ f ∈ s.stack, f.isClear = true)
    (hx : s.snapshot x = some a) (after : After) : Inv k (s.finishClear x a after) := by
  cases after with
  | done => exact h.released hclear hx (Or.inl rfl)
  | destroy => exact h.released hclear hx (Or.inr rfl)
  | swap y => exact (h.released hclear hx (Or.inl rfl)).swap hclear x y

theorem Inv.clear (h : Inv k s) (hm : mayCall s.stack = true) {after : After}
    (hc : s.clear x after = some s') : Inv k s' := by
  have hclear := clear_of_mayCall h hm
  obtain ⟨a, hx, rfl⟩ := Option.map_eq_some_iff.mp hc
  split
  · refine h.user hclear (Equiv.refl Nat) rfl (fun _ => rfl) (fun f hf => ?_)
    rcases List.mem_cons.mp hf with rfl | hf
    · rfl
    · exact hclear f hf
  · exact h.finishClear hclear hx after

/-- No snapshot changes; the call at the top keeps its slot, or leaves it null. -/
theorem Inv.keep (h : Inv k s) (hheld : ∀ z, s'.held z = s.held z)
    (hlen : s'.shared.snapshotAnnouncements.length = s.shared.snapshotAnnouncements.length)
    (hann : ∀ i, pending s.stack ≠ some (.snapshot i) →
      s'.shared.snapshotAnnouncements[i]? = s.shared.snapshotAnnouncements[i]?)
    (hpend : pending s'.stack = pending s.stack ∨ pending s'.stack = none ∧
      ∀ i p, pending s.stack = some (.snapshot i) →
        s'.shared.snapshotAnnouncements[i]? = some p → p = 0)
    (hbelow : ∀ f ∈ s'.stack.tail, f.isClear = true) (htop : ∀ f ∈ s'.stack.head?, TopInv s' f) :
    Inv k s' where
  length := hlen.trans h.length
  holds := by
    intro z slot p hz
    rw [hheld] at hz
    obtain ⟨hne, i, rfl, hp, hi⟩ := h.holds z slot p hz
    refine ⟨?_, i, rfl, hp, (hann i hne).trans hi⟩
    rcases hpend with hpend | ⟨hpend, _⟩
    · exact hpend ▸ hne
    · exact pending_ne hpend
  unshared := by
    intro z w slot p q hz hw
    rw [hheld] at hz hw
    exact h.unshared z w slot p q hz hw
  taken := by
    intro i p hp hne
    by_cases hi : pending s.stack = some (.snapshot i)
    · rcases hpend with hpend | ⟨_, hnull⟩
      · exact Or.inl (hpend.trans hi)
      · exact absurd (hnull i p hi hp) hne
    · rw [hann i hi] at hp
      obtain ⟨z, q, hz⟩ := (h.taken i p hp hne).resolve_left hi
      exact Or.inr ⟨z, q, (hheld z).trans hz⟩
  below := hbelow
  top := htop

/-- `protect_snapshot` returns a snapshot without a slot; its own slot is null again. -/
theorem Inv.giveNull (h : Inv k s) {shared : MarkedPtr.State} (hx : s.snapshot x = none)
    (ha : a.slot = none)
    (hlen : shared.snapshotAnnouncements.length = s.shared.snapshotAnnouncements.length)
    (hann : ∀ i, pending s.stack ≠ some (.snapshot i) →
      shared.snapshotAnnouncements[i]? = s.shared.snapshotAnnouncements[i]?)
    (hnull : ∀ i p, pending s.stack = some (.snapshot i) →
      shared.snapshotAnnouncements[i]? = some p → p = 0) :
    Inv k ({ s with shared := shared }.give x a) := by
  obtain ⟨hpend, hbelow, htop⟩ := top_of_clear ({ s with shared := shared }.give x a) h.below
  refine h.keep (fun z => ?_) hlen hann (Or.inr ⟨hpend, hnull⟩) hbelow htop
  by_cases hz : z = x
  · subst hz
    simp [State.give, State.set, State.held, hx, ha]
  · exact held_set_of_ne (some a) hz

/-- It returns one with the slot that it has announced in. -/
theorem Inv.giveSlot (h : Inv k s) {i : Nat} (hx : s.snapshot x = none)
    (ha : a.slot = some (.snapshot i))
    (hpend : pending s.stack = some (.snapshot i)) (hne : getPtr a.value ≠ 0)
    (hi : s.shared.snapshotAnnouncements[i]? = some (getPtr a.value)) : Inv k (s.give x a) := by
  obtain ⟨hpend', hbelow, htop⟩ := top_of_clear (s.give x a) h.below
  have hself : (s.give x a).held x = some (.snapshot i, getPtr a.value) := by
    simp [State.give, State.set, State.held, ha]
  have hother : ∀ z, z ≠ x → (s.give x a).held z = s.held z := fun z hz => held_set_of_ne (some a) hz
  -- the slot was in use by the call, so no other snapshot has it
  have hfree : ∀ z slot p, z ≠ x → (s.give x a).held z = some (slot, p) → slot ≠ .snapshot i := by
    intro z slot p hz hheld hslot
    rw [hother z hz] at hheld
    exact (h.holds z slot p hheld).1 (hslot ▸ hpend)
  refine ⟨h.length, fun z slot p hz => ?_, fun z w slot p q hz hw => ?_, fun j p hp hpne => ?_, hbelow, htop⟩
  · refine ⟨pending_ne hpend', ?_⟩
    by_cases hzx : z = x
    · subst hzx
      rw [hself] at hz
      cases hz
      exact ⟨i, rfl, hne, hi⟩
    · rw [hother z hzx] at hz
      exact (h.holds z slot p hz).2
  · by_cases hzx : z = x
    · by_cases hwx : w = x
      · rw [hzx, hwx]
      · subst hzx
        rw [hself] at hz
        cases hz
        exact absurd rfl (hfree w _ q hwx hw)
    · by_cases hwx : w = x
      · subst hwx
        rw [hself] at hw
        cases hw
        exact absurd rfl (hfree z _ p hzx hz)
      · rw [hother z hzx] at hz
        rw [hother w hwx] at hw
        exact h.unshared z w slot p q hz hw
  · by_cases hji : j = i
    · subst hji
      exact Or.inr ⟨x, _, hself⟩
    · rcases h.taken j p hp hpne with ht | ⟨z, q, hz⟩
      · rw [hpend] at ht
        cases ht
        exact absurd rfl hji
      · have hzx : z ≠ x := by
          rintro rfl
          simp [State.held, hx] at hz
        exact Or.inr ⟨z, q, (hother z hzx).trans hz⟩

/-- `get_free_slot` finds a null slot, which has no owner. -/
theorem Inv.getSnapshot (h : Inv k s) (hm : mayCall s.stack = true) (hx : s.snapshot x = none)
    {slot : Slot} (hfree : getFreeSlot s.shared = some slot) :
    Inv k { s with stack := .load x slot :: s.stack } := by
  obtain ⟨i, hfind, rfl⟩ := Option.map_eq_some_iff.mp hfree
  obtain ⟨hi, hzero, _⟩ := List.findIdx?_eq_some_iff_getElem.mp hfind
  have hi0 : s.shared.snapshotAnnouncements[i]? = some 0 := by
    rw [List.getElem?_eq_getElem hi]
    exact congrArg some (beq_iff_eq.mp hzero)
  refine ⟨h.length, fun z slot p hz => ?_, h.unshared, fun j p hp hne => ?_, clear_of_mayCall h hm, ?_⟩
  · obtain ⟨_, j, rfl, hne, hj⟩ := h.holds z slot p hz
    refine ⟨?_, j, rfl, hne, hj⟩
    intro hpend
    cases hpend
    rw [hi0] at hj
    exact hne (Option.some.inj hj).symm
  · refine Or.inr ((h.taken j p hp hne).resolve_left ?_)
    exact pending_ne (pending_of_mayCall hm)
  · intro f hf
    cases hf
    exact ⟨hx, i, rfl, hi⟩

theorem announcements_incrementRefCnt (shared : MarkedPtr.State) (p : Addr) :
    (incrementRefCnt shared p).1.snapshotAnnouncements = shared.snapshotAnnouncements := by
  unfold incrementRefCnt
  split <;> rfl

theorem announcements_clearProtection {shared : MarkedPtr.State} (ha : a.slot = some .announcement) :
    (clearProtection shared a).snapshotAnnouncements = shared.snapshotAnnouncements := by
  rw [clearProtection, ha]
  simp only
  split <;> rfl

/-- A step of `protect_snapshot` without a slot. -/
theorem Inv.counting (h : Inv k s) {shared : MarkedPtr.State} {f : Frame}
    (hpend : pending s.stack = none) (hpend' : pending (f :: s.stack.tail) = none)
    (hann : shared.snapshotAnnouncements = s.shared.snapshotAnnouncements)
    (htop : TopInv { s with shared := shared } f) : Inv k ({ s with shared := shared }.goto f) := by
  refine h.rename (Equiv.refl Nat) hann (fun _ => rfl) hpend hpend' h.below (fun g hg => ?_)
  cases hg
  cases f <;> exact htop

/-- It returns a snapshot with a count, or null. -/
theorem Inv.giveCounted (h : Inv k s) {shared : MarkedPtr.State} (hpend : pending s.stack = none)
    (hx : s.snapshot x = none) (ha : a.slot = none)
    (hann : shared.snapshotAnnouncements = s.shared.snapshotAnnouncements) :
    Inv k ({ s with shared := shared }.give x a) := by
  refine h.giveNull hx ha (congrArg _ hann) (fun i _ => congrArg (·[i]?) hann) (fun i p hp => ?_)
  rw [hpend] at hp
  cases hp

theorem Inv.load (h : Inv k s) {slot : Slot} {fs : List Frame} (hs : s.stack = .load x slot :: fs)
    (hr : s.run (.load x slot :: fs) = some s') : Inv k s' := by
  have htop := h.top (.load x slot) (by rw [hs]; rfl)
  have hpend : pending s.stack = some slot := by rw [hs]; rfl
  obtain ⟨hx, i, rfl, hi⟩ := htop
  have hann : ∀ (p : Addr) j, pending s.stack ≠ some (.snapshot j) →
      (s.shared.snapshotAnnouncements.set i p)[j]? = s.shared.snapshotAnnouncements[j]? := by
    intro p j hj
    have hij : i ≠ j := by
      rintro rfl
      exact hj hpend
    exact List.getElem?_set_ne hij
  simp only [State.run] at hr
  split at hr
  · next hnull =>
    cases hr
    refine h.giveNull hx rfl List.length_set (hann 0) (fun j p hj hp => ?_)
    rw [hpend] at hj
    cases hj
    exact (Option.some.inj ((List.getElem?_set_self hi).symm.trans hp)).symm
  · next hne =>
    cases hr
    refine h.keep (fun _ => rfl) List.length_set (hann _) (Or.inl hpend.symm) h.below (fun f hf => ?_)
    cases hf
    exact ⟨hx, i, rfl, hne, List.getElem?_set_self hi⟩

theorem Inv.validate (h : Inv k s) {slot : Slot} {result : MarkedPtr} {fs : List Frame}
    (hs : s.stack = .validate x slot result :: fs)
    (hr : s.run (.validate x slot result :: fs) = some s') : Inv k s' := by
  have htop := h.top (.validate x slot result) (by rw [hs]; rfl)
  have hpend : pending s.stack = some slot := by rw [hs]; rfl
  obtain ⟨hx, i, rfl, hne, hi⟩ := htop
  simp only [State.run] at hr
  split at hr
  · cases hr
    refine h.keep (fun _ => rfl) rfl (fun _ _ => rfl) (Or.inl hpend.symm) h.below (fun f hf => ?_)
    cases hf
    exact ⟨hx, i, rfl, (List.getElem?_eq_some_iff.mp hi).1⟩
  · cases hr
    exact h.giveSlot hx rfl hpend hne hi

theorem Inv.count (h : Inv k s) {fs : List Frame} (hs : s.stack = .count x a :: fs)
    (hr : s.run (.count x a :: fs) = some s') : Inv k s' := by
  obtain ⟨hx, ha⟩ := h.top (.count x a) (by rw [hs]; rfl)
  have hpend : pending s.stack = none := by rw [hs]; rfl
  have hinc := announcements_incrementRefCnt s.shared (getPtr a.value)
  simp only [State.run] at hr
  split at hr
  · split at hr
    · cases hr
      exact h.giveCounted hpend hx rfl ((announcements_clearProtection ha).trans hinc)
    · cases hr
      exact h.counting hpend rfl hinc ⟨hx, ha⟩
  · cases hr
    exact h.giveCounted hpend hx rfl (announcements_clearProtection ha)

theorem Inv.compare (h : Inv k s) {fs : List Frame} (hs : s.stack = .compare x a :: fs)
    (hr : s.run (.compare x a :: fs) = some s') : Inv k s' := by
  obtain ⟨hx, ha⟩ := h.top (.compare x a) (by rw [hs]; rfl)
  have hpend : pending s.stack = none := by rw [hs]; rfl
  simp only [State.run] at hr
  split at hr
  · cases hr
    exact h.giveCounted hpend hx rfl (announcements_clearProtection ha)
  · cases hr
    exact h.counting hpend rfl (announcements_clearProtection ha) hx

theorem Inv.run (h : Inv k s) (hr : s.run s.stack = some s') : Inv k s' := by
  cases hs : s.stack with
  | nil =>
    rw [hs] at hr
    cases hr
  | cons f fs =>
    rw [hs] at hr
    have htop := h.top f (by rw [hs]; rfl)
    cases f with
    | load x slot => exact h.load hs hr
    | validate x slot result => exact h.validate hs hr
    | acquire x =>
      cases hr
      exact h.counting (by rw [hs]; rfl) rfl rfl htop
    | acquired x result =>
      have hpend : pending s.stack = none := by rw [hs]; rfl
      simp only [State.run] at hr
      split at hr
      · cases hr
        exact h.counting hpend rfl rfl htop
      · cases hr
        exact h.counting hpend rfl rfl ⟨htop, rfl⟩
    | count x a => exact h.count hs hr
    | compare x a => exact h.compare hs hr
    | clear x after =>
      -- the destructors that `decrement_ref_cnt` ran have returned
      obtain ⟨a, hx, rfl⟩ := Option.map_eq_some_iff.mp hr
      have hclear : ∀ f ∈ s.stack, f.isClear = true := clear_of_mayCall h (by rw [hs]; rfl)
      have htail : ∀ f ∈ fs, f.isClear = true := fun f hf => hclear f (hs ▸ List.mem_cons_of_mem _ hf)
      have hpop : Inv k { s with stack := fs } := h.user hclear (Equiv.refl Nat) rfl (fun _ => rfl) htail
      exact hpop.finishClear htail hx after

theorem getPtr_setMark {p : MarkedPtr} {mark : BitVec 64} (h : mark < 4) :
    getPtr (setMark p mark) = getPtr p :=
  congrArg Prod.fst (Atomic.unpack_setMark h)

theorem Inv.next (h : Inv k s) {l : Label} (hn : next s l = some s') : Inv k s' := by
  cases l with
  | construct x =>
    obtain ⟨⟨hm, hx⟩, hn⟩ := Option.ite_none_right_eq_some.mp hn
    cases hn
    have hclear := clear_of_mayCall h hm
    refine h.user hclear (Equiv.refl Nat) rfl (fun z => ?_) hclear
    by_cases hz : z = x
    · subst hz
      rw [held_set_self]
      simp [State.held, hx, null]
    · exact held_set_of_ne _ hz
  | getSnapshot x =>
    obtain ⟨⟨hm, hx⟩, hn⟩ := Option.ite_none_right_eq_some.mp hn
    split at hn
    · cases hn
      refine h.rename (Equiv.refl Nat) rfl (fun _ => rfl) (pending_of_mayCall hm) rfl (clear_of_mayCall h hm)
        (fun f hf => ?_)
      cases hf
      exact hx
    · next slot hfree =>
      cases hn
      exact h.getSnapshot hm hx hfree
  | moveConstruct x y =>
    obtain ⟨⟨hm, hx⟩, hn⟩ := Option.ite_none_right_eq_some.mp hn
    obtain ⟨a, hy, rfl⟩ := Option.map_eq_some_iff.mp hn
    have hclear := clear_of_mayCall h hm
    refine h.user hclear (Equiv.swap x y) rfl (fun z => ?_) hclear
    by_cases hzy : z = y
    · subst hzy
      rw [held_set_self, Equiv.swap_apply_right]
      simp [State.held, hx, null]
    · rw [held_set_of_ne _ hzy]
      by_cases hzx : z = x
      · subst hzx
        rw [held_set_self, Equiv.swap_apply_left, held_of hy]
        rfl
      · rw [held_set_of_ne _ hzx, Equiv.swap_apply_of_ne_of_ne hzx hzy]
  | moveAssign x y =>
    obtain ⟨⟨hm, _⟩, hn⟩ := Option.ite_none_right_eq_some.mp hn
    exact h.clear hm hn
  | swap x y =>
    obtain ⟨⟨hm, _⟩, hn⟩ := Option.ite_none_right_eq_some.mp hn
    cases hn
    exact h.swap (clear_of_mayCall h hm) x y
  | setMark x mark =>
    obtain ⟨⟨hm, hmark⟩, hn⟩ := Option.ite_none_right_eq_some.mp hn
    obtain ⟨a, hx, rfl⟩ := Option.map_eq_some_iff.mp hn
    have hclear := clear_of_mayCall h hm
    refine h.user hclear (Equiv.refl Nat) rfl (fun z => ?_) hclear
    by_cases hz : z = x
    · subst hz
      rw [held_set_self, Equiv.refl_apply, held_of hx]
      simp [getPtr_setMark hmark]
    · exact held_set_of_ne _ hz
  | clear x =>
    obtain ⟨hm, hn⟩ := Option.ite_none_right_eq_some.mp hn
    exact h.clear hm hn
  | destroy x =>
    obtain ⟨⟨hm, _⟩, hn⟩ := Option.ite_none_right_eq_some.mp hn
    exact h.clear hm hn
  | run => exact h.run hn
  | interfere loc refCnt =>
    cases hn
    refine h.keep (fun _ => rfl) rfl (fun _ _ => rfl) (Or.inl rfl) h.below (fun f hf => ?_)
    have htop := h.top f hf
    cases f <;> exact htop

theorem reach_inv (hr : (machine k).Reach s) : Inv k s := by
  refine hr.invariant (fun s hi => ?_) (fun s l s' h hn => h.next hn)
  obtain ⟨loc, refCnt, rfl⟩ := hi
  exact Inv.initial

theorem owns_iff {i : Nat} : s.Owns x i ↔ ∃ p, s.held x = some (.snapshot i, p) := by
  constructor
  · rintro ⟨a, hx, ha⟩
    exact ⟨getPtr a.value, by rw [held_of hx, ha]; rfl⟩
  · rintro ⟨p, hp⟩
    obtain ⟨a, hx, ha⟩ := Option.bind_eq_some_iff.mp hp
    obtain ⟨slot, hslot, hpair⟩ := Option.map_eq_some_iff.mp ha
    cases hpair
    exact ⟨a, hx, hslot⟩

theorem Inv.owner_unique (h : Inv k s) {i : Nat} (hx : s.Owns x i) (hy : s.Owns y i) : x = y := by
  obtain ⟨p, hp⟩ := owns_iff.mp hx
  obtain ⟨q, hq⟩ := owns_iff.mp hy
  exact h.unshared x y _ p q hp hq

theorem Inv.slotsOwned (h : Inv k s) (hm : mayCall s.stack = true) : s.SlotsOwned := by
  intro i p hp
  constructor
  · intro hne
    rcases h.taken i p hp hne with ht | ⟨x, q, hx⟩
    · rw [pending_of_mayCall hm] at ht
      cases ht
    · obtain ⟨a, ha, hslot⟩ := owns_iff.mpr ⟨q, hx⟩
      have heq : q = getPtr a.value := by
        rw [held_of ha, hslot] at hx
        cases hx
        rfl
      obtain ⟨_, j, hj, hq, hpj⟩ := h.holds x _ q hx
      cases hj
      rw [hp] at hpj
      cases hpj
      exact ⟨x, a, ha, hslot, fun y hy => h.owner_unique hy ⟨a, ha, hslot⟩, heq ▸ hq, heq⟩
  · rintro ⟨x, a, _, _, _, hne, rfl⟩
    exact hne

end Steps

/-- Outside `protect_snapshot` a snapshot slot is not null exactly when one live snapshot
owns it, with its pointer in it; no two own the same slot, and when none is live all
`snapshot_slots` slots are free. -/
theorem snapshot_slots_owned {k : Nat} {s : State} (hr : (machine k).Reach s) :
    s.shared.snapshotAnnouncements.length = k ∧ (mayCall s.stack = true → s.SlotsOwned) ∧
    (∀ x y i, s.Owns x i → s.Owns y i → x = y) ∧
    (mayCall s.stack = true → (∀ x, s.snapshot x = none) →
      s.shared.snapshotAnnouncements = List.replicate k 0) := by
  have h := reach_inv hr
  refine ⟨h.length, h.slotsOwned, fun x y i => h.owner_unique, fun hm hnone => ?_⟩
  refine List.eq_replicate_iff.mpr ⟨h.length, fun p hp => ?_⟩
  obtain ⟨i, hi⟩ := List.mem_iff_getElem?.mp hp
  by_contra hne
  obtain ⟨x, a, hx, _⟩ := (h.slotsOwned hm i p hi).mp hne
  rw [hnone x] at hx
  cases hx

/-- One slot. The first snapshot takes it, the second takes a count; the first is marked and
assigned to the second, whose count is given back, and is then assigned to itself, which
frees the slot. -/
def moveAndClear : List Label :=
  [.getSnapshot 0, .run, .run, .getSnapshot 1, .run, .run, .run, .setMark 0 3, .moveAssign 1 0, .run]

theorem snapshot_slots_owned_moved :
    ∃ s, (machine 1).exec moveAndClear (.initial 1 0x40 fun _ => 1) = some s ∧
      s.shared.snapshotAnnouncements = [0x40] ∧ s.snapshot 0 = some null ∧
      s.snapshot 1 = some ⟨0x43, some (.snapshot 0)⟩ ∧ s.SlotsOwned ∧
      ∃ s', (machine 1).exec [.moveAssign 1 1, .destroy 0, .destroy 1] s = some s' ∧
        s'.shared.snapshotAnnouncements = [0] ∧ s'.SlotsOwned := by
  have hex : ((machine 1).exec moveAndClear (.initial 1 0x40 fun _ => 1)).map
      (fun s => (s.shared.snapshotAnnouncements, s.snapshot 0, s.snapshot 1, mayCall s.stack)) =
      some ([0x40], some null, some ⟨0x43, some (.snapshot 0)⟩, true) := by
    decide +kernel
  have hex' : (((machine 1).exec moveAndClear (.initial 1 0x40 fun _ => 1)).bind
      ((machine 1).exec [.moveAssign 1 1, .destroy 0, .destroy 1])).map
      (fun s' => (s'.shared.snapshotAnnouncements, mayCall s'.stack)) = some ([0], true) := by
    decide +kernel
  obtain ⟨s, hs, hst⟩ := Option.map_eq_some_iff.mp hex
  obtain ⟨s', hs', hst'⟩ := Option.map_eq_some_iff.mp hex'
  rw [hs, Option.bind_some] at hs'
  simp only [Prod.mk.injEq] at hst hst'
  obtain ⟨hann, h0, h1, hcall⟩ := hst
  have hinit : (machine 1).Reach (.initial 1 0x40 fun _ => 1) := .init ⟨_, _, rfl⟩
  have hr := hinit.exec hs
  refine ⟨s, hs, hann, h0, h1, (snapshot_slots_owned hr).2.1 hcall, s', hs', hst'.1, ?_⟩
  exact (snapshot_slots_owned (hr.exec hs')).2.1 hst'.2

end Cdrc.SnapshotPtr
