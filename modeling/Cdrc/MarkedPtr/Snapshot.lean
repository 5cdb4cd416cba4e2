import Cdrc.StickyCounter.Word

/-! # `get_snapshot` of a marked pointer with hazard pointers

`marked_ptr` keeps two mark bits at the bottom of the pointer word. The hazard-pointer
backend takes a snapshot in one of two ways: it announces the pointer in a free snapshot
slot, or, when the thread holds as many snapshots as it has slots, it increments the
reference count instead. A comparison of a `marked_ptr` with `nullptr` looks at the
pointer only, so a null with a mark takes the null branch of both.

The calling thread runs alone here: the location does not change under it. The loops of
the source take `fuel`; each ends in its first round, which the lemmas below show. -/
namespace Cdrc.MarkedPtr
open Cdrc.StickyCounter (Word zeroFlag access)

/-- `marked_ptr<T>`, the `uintptr_t` it stores. -/
abbrev MarkedPtr := BitVec 64

/-- `counted_ptr_t`, a plain address. -/
abbrev Addr := BitVec 64

/-- `ONE_BIT | TWO_BIT`. -/
def markBits : BitVec 64 := 1 ||| 1 <<< 1

def getPtr (p : MarkedPtr) : Addr := p &&& ~~~markBits

def getMark (p : MarkedPtr) : BitVec 64 := p &&& markBits

def clearMark (p : MarkedPtr) : MarkedPtr := p &&& ~~~markBits

def setMark (p : MarkedPtr) (mark : BitVec 64) : MarkedPtr := clearMark p ||| mark

/-- An element of a thread's `LocalSlot`. -/
inductive Slot
  | announcement
  | snapshot (i : Nat)
  deriving DecidableEq, Repr

/-- `acquired_pointer<U>`; no slot is the null slot pointer. -/
structure AcquiredPtr where
  value : MarkedPtr
  slot : Option Slot
  deriving DecidableEq, Repr

/-- What the calling thread reads and writes: the location, its own `LocalSlot` and
the strong counts of the objects. -/
structure State where
  loc : MarkedPtr
  announcement : Addr
  snapshotAnnouncements : List Addr
  refCnt : Addr → Word 30

/-- `slot->store(p)`. -/
def State.store (s : State) (p : Addr) : Slot → State
  | .announcement => { s with announcement := p }
  | .snapshot i => { s with snapshotAnnouncements := s.snapshotAnnouncements.set i p }

def clearProtection (s : State) (a : AcquiredPtr) : State :=
  match a.slot with
  | some slot => if getPtr a.value ≠ 0 then s.store 0 slot else s
  | none => s

/-- `acquire`: announce what the location holds until it still holds it. -/
def acquire : Nat → State → Option (State × AcquiredPtr)
  | 0, _ => none
  | fuel + 1, s =>
    let result := s.loc
    let s' := s.store (getPtr result) .announcement
    if s'.loc ≠ result then acquire fuel s' else some (s', ⟨result, some .announcement⟩)

/-- `add_refs(1)` of the object at `p`. -/
def incrementRefCnt (s : State) (p : Addr) : State × Bool :=
  match access (s.refCnt p) (.increment 1) with
  | (x, .done (.bool b)) => ({ s with refCnt := Function.update s.refCnt p x }, b)
  | (x, _) => ({ s with refCnt := Function.update s.refCnt p x }, false)

/-- `get_free_slot`: the first snapshot slot that announces nothing. -/
def getFreeSlot (s : State) : Option Slot :=
  (s.snapshotAnnouncements.findIdx? (· == 0)).map .snapshot

/-- `protect_snapshot` without a slot. The acquired pointer `a` goes out of scope at the
end of every round. -/
def protectCounted : Nat → State → Option (State × AcquiredPtr)
  | 0, _ => none
  | fuel + 1, s => do
    let (s, a) ← acquire (fuel + 1) s
    if getPtr a.value ≠ 0 then
      let (s, ok) := incrementRefCnt s (getPtr a.value)
      if ok then return (clearProtection s a, ⟨a.value, none⟩)
      else if s.loc = a.value then return (clearProtection s a, ⟨0, none⟩)
      else protectCounted fuel (clearProtection s a)
    else return (clearProtection s a, ⟨0, none⟩)

/-- `protect_snapshot` with a slot. -/
def protectAnnounced (slot : Slot) : Nat → State → Option (State × AcquiredPtr)
  | 0, _ => none
  | fuel + 1, s =>
    let result := s.loc
    if getPtr result = 0 then some (s.store 0 slot, ⟨result, none⟩)
    else
      let s' := s.store (getPtr result) slot
      if s'.loc ≠ result then protectAnnounced slot fuel s'
      else some (s', ⟨result, some slot⟩)

def protectSnapshot (fuel : Nat) (s : State) : Option (State × AcquiredPtr) :=
  match getFreeSlot s with
  | none => protectCounted fuel s
  | some slot => protectAnnounced slot fuel s

/-- `atomic_rc_ptr::get_snapshot`; the `snapshot_ptr` holds the acquired pointer. -/
def getSnapshot (fuel : Nat) (s : State) : Option (State × AcquiredPtr) :=
  protectSnapshot fuel s

/-- The stored pointer is null, or the object it points to has a strong reference: its
count is not zero and has no zero flag. -/
def State.LiveOrNull (s : State) : Prop :=
  getPtr s.loc = 0 ∨ (s.refCnt (getPtr s.loc) ≠ 0 ∧ s.refCnt (getPtr s.loc) &&& zeroFlag 30 = 0)

/-- The snapshot refers to the object stored in `s`, with the mark stored there. -/
def AgreesWith (s : State) (a : AcquiredPtr) : Prop :=
  getPtr a.value = getPtr s.loc ∧ getMark a.value = getMark s.loc

/-- A null with a mark is stored and the thread has used all its slots. -/
def MarkedNullWithoutSlot (s : State) : Prop :=
  getPtr s.loc = 0 ∧ getMark s.loc ≠ 0 ∧ getFreeSlot s = none

/-! ## The word -/

theorem getPtr_or_getMark (p : MarkedPtr) : getPtr p ||| getMark p = p := by
  ext i hi
  simp only [getPtr, getMark, BitVec.getElem_or, BitVec.getElem_and, BitVec.getElem_not]
  cases p[i] <;> cases markBits[i] <;> rfl

/-- Pointer and mark together are the word. -/
theorem agreesWith_iff {s : State} {a : AcquiredPtr} : AgreesWith s a ↔ a.value = s.loc := by
  constructor
  · intro h
    rw [← getPtr_or_getMark a.value, ← getPtr_or_getMark s.loc, h.1, h.2]
  · intro h
    exact ⟨congrArg getPtr h, congrArg getMark h⟩

/-! ## Each loop ends in its first round -/

section Loops
variable {s : State} (fuel : Nat)

@[simp] theorem store_loc (p : Addr) (slot : Slot) : (s.store p slot).loc = s.loc := by
  cases slot <;> rfl

@[simp] theorem store_refCnt (p : Addr) (slot : Slot) : (s.store p slot).refCnt = s.refCnt := by
  cases slot <;> rfl

theorem acquire_eq : acquire (fuel + 1) s =
    some (s.store (getPtr s.loc) .announcement, ⟨s.loc, some .announcement⟩) := by
  simp [acquire]

theorem incrementRefCnt_live {p : Addr} (h : s.refCnt p &&& zeroFlag 30 = 0) :
    incrementRefCnt s p =
      ({ s with refCnt := Function.update s.refCnt p (s.refCnt p + 1) }, true) := by
  simp [incrementRefCnt, access, h]

theorem protectAnnounced_eq (slot : Slot) : protectAnnounced slot (fuel + 1) s =
    if getPtr s.loc = 0 then some (s.store 0 slot, ⟨s.loc, none⟩)
    else some (s.store (getPtr s.loc) slot, ⟨s.loc, some slot⟩) := by
  simp [protectAnnounced]

theorem protectCounted_null (h : getPtr s.loc = 0) : protectCounted (fuel + 1) s =
    some (s.store 0 .announcement, ⟨0, none⟩) := by
  simp [protectCounted, acquire_eq, clearProtection, h]

/-- The count of a live object takes the increment, so the second look at the location
is never made. -/
theorem protectCounted_live (h0 : getPtr s.loc ≠ 0)
    (hl : s.refCnt (getPtr s.loc) &&& zeroFlag 30 = 0) :
    ∃ s', protectCounted (fuel + 1) s = some (s', ⟨s.loc, none⟩) := by
  have hi := incrementRefCnt_live (s := s.store (getPtr s.loc) .announcement)
    (p := getPtr s.loc) (by simpa using hl)
  have hne : ¬ getPtr s.loc = 0#64 := h0
  simp [protectCounted, acquire_eq, hne, hi]

end Loops

/-- What a snapshot taken without interference holds: the stored word, except that
without a slot a null loses its mark. -/
theorem getSnapshot_value {s : State} (fuel : Nat) (h : s.LiveOrNull) :
    ∃ s' a, getSnapshot (fuel + 1) s = some (s', a) ∧
      a.value = if getPtr s.loc = 0 ∧ getFreeSlot s = none then 0 else s.loc := by
  unfold getSnapshot protectSnapshot
  cases hslot : getFreeSlot s with
  | some slot =>
    simp only [reduceCtorEq, and_false, if_false]
    rw [protectAnnounced_eq fuel]
    split
    · exact ⟨_, _, rfl, rfl⟩
    · exact ⟨_, _, rfl, rfl⟩
  | none =>
    simp only [and_true]
    by_cases h0 : getPtr s.loc = 0
    · rw [if_pos h0]
      exact ⟨_, _, protectCounted_null fuel h0, rfl⟩
    · rw [if_neg h0]
      have hl := (h.resolve_left h0).2
      obtain ⟨s', hs⟩ := protectCounted_live fuel h0 hl
      exact ⟨s', _, hs, rfl⟩

/-- `get_snapshot` returns the stored object with its mark, on the slot path and on the
slot-exhausted path, exactly when the stored value is not a null with a mark met without
a free slot. -/
theorem getSnapshot_agrees_iff (s : State) (fuel : Nat) (h : s.LiveOrNull) :
    ∃ s' a, getSnapshot (fuel + 1) s = some (s', a) ∧
      (AgreesWith s a ↔ ¬ MarkedNullWithoutSlot s) := by
  obtain ⟨s', a, hs, ha⟩ := getSnapshot_value fuel h
  refine ⟨s', a, hs, ?_⟩
  rw [agreesWith_iff, ha]
  unfold MarkedNullWithoutSlot
  by_cases hc : getPtr s.loc = 0 ∧ getFreeSlot s = none
  · rw [if_pos hc]
    have hm : s.loc = getMark s.loc := by
      have := getPtr_or_getMark s.loc
      rw [hc.1] at this
      exact this.symm.trans BitVec.zero_or
    constructor
    · rintro h0 ⟨_, hne, _⟩
      exact hne (hm ▸ h0.symm)
    · intro hn
      by_contra h0
      exact hn ⟨hc.1, fun hz => h0 (by rw [hm, hz]), hc.2⟩
  · rw [if_neg hc]
    simp only [true_iff]
    exact fun hn => hc ⟨hn.1, hn.2.2⟩

/-- A thread that holds `n` snapshots of the object at `0x80`, each in a slot. Every
object has one strong reference. -/
def holding (n : Nat) (loc : MarkedPtr) : State where
  loc := loc
  announcement := 0
  snapshotAnnouncements := List.replicate n 0x80 ++ List.replicate (7 - n) 0
  refCnt _ := 1

/-- The object at `0x40`, stored with mark `1` and met with all seven slots in use, is
returned with its mark. -/
theorem getSnapshot_agrees_marked_object :
    ∃ s' a, getSnapshot 1 (holding 7 (setMark 0x40 1)) = some (s', a) ∧
      AgreesWith (holding 7 (setMark 0x40 1)) a := by
  obtain ⟨s', a, hs, ha⟩ := getSnapshot_agrees_iff (holding 7 (setMark 0x40 1)) 0
    (Or.inr ⟨by decide, by decide⟩)
  refine ⟨s', a, hs, ha.mpr ?_⟩
  intro hn
  exact absurd hn.1 (by decide)

/-- A null with mark `1` and all seven slots in use: the mark is lost. -/
theorem getSnapshot_loses_mark_of_null : ¬ ∀ (s : State) (fuel : Nat), s.LiveOrNull →
    ∃ s' a, getSnapshot (fuel + 1) s = some (s', a) ∧ AgreesWith s a := by
  intro hall
  obtain ⟨s', a, hs, ha⟩ := hall (holding 7 (setMark 0 1)) 0 (Or.inl (by decide))
  have hslot : getFreeSlot (holding 7 (setMark 0 1)) = none := by decide
  have he : getSnapshot 1 (holding 7 (setMark 0 1)) =
      some ((holding 7 (setMark 0 1)).store 0 .announcement, ⟨0, none⟩) := by
    unfold getSnapshot protectSnapshot
    rw [hslot]
    exact protectCounted_null 0 (by decide)
  rw [he] at hs
  simp only [Option.some.injEq, Prod.mk.injEq] at hs
  rw [← hs.2] at ha
  exact absurd ha.2 (by decide)

end Cdrc.MarkedPtr
