import Mathlib.Data.List.Basic
import Cdrc.Lib.Runs
import Cdrc.Lib.Objects
import Cdrc.MarkedPtr.Snapshot

/-! # Marks of a `marked_arc_ptr`, set and swapped at the same time

The mark of a `marked_arc_ptr` is in the low bits of the word that `store` and
`compare_and_swap` replace. `set_mark` and `set_mark_bit` load the word and exchange it for
one with the new mark until nothing has changed it in between; `compare_and_set_mark` is one
exchange. The object of a word is its address without the mark: that is what is counted,
announced and retired.

Any number of threads, one location. A step is one access to the location, or one call of
the memory manager. -/
namespace Cdrc.MarkedPtr.Atomic
open Cdrc.Lib.Runs Cdrc.Lib.Objects Cdrc.Lib.History

/-- `set_mark_bit` of a `marked_ptr`. -/
def setMarkBit (p : MarkedPtr) (bit : Nat) : MarkedPtr := p ||| 1 <<< (bit - 1)

/-- How `compare_and_swap` takes `desired`. -/
inductive Transfer
  | copy (isProtected : Bool)
  | move
  deriving DecidableEq, Repr

/-- What `store` is given. -/
inductive Source
  | rcPtr
  | snapshotPtr (isProtected : Bool)
  deriving DecidableEq, Repr

inductive Op
  | setMark (mark : BitVec 64)
  | setMarkBit (bit : Nat)
  | compareAndSetMark (expected : MarkedPtr) (desiredMark : BitVec 64)
  | compareAndSwap (expected desired : MarkedPtr) (transfer : Transfer)
  | store (desired : MarkedPtr) (source : Source)
  deriving DecidableEq, Repr

inductive Ret
  | unit
  | bool (b : Bool)
  deriving DecidableEq, Repr

/-- The operations that `arc_ptr_policy` adds. -/
def Op.isMark : Op → Bool
  | .setMark _ => true
  | .setMarkBit _ => true
  | .compareAndSetMark _ _ => true
  | _ => false

/-- What the operations assert of their arguments. -/
def Op.Valid : Op → Prop
  | .setMark mark => mark < 4
  | .setMarkBit bit => bit = 1 ∨ bit = 2
  | .compareAndSetMark _ desiredMark => desiredMark < 4
  | _ => True

instance (o : Op) : Decidable o.Valid :=
  match o with
  | .setMark mark => inferInstanceAs (Decidable (mark < 4))
  | .setMarkBit bit => inferInstanceAs (Decidable (bit = 1 ∨ bit = 2))
  | .compareAndSetMark _ desiredMark => inferInstanceAs (Decidable (desiredMark < 4))
  | .compareAndSwap _ _ _ => inferInstanceAs (Decidable True)
  | .store _ _ => inferInstanceAs (Decidable True)

/-- What the two loops compute from `cur_ptr`. -/
inductive Update
  | mark (m : BitVec 64)
  | bit (b : Nat)
  deriving DecidableEq, Repr

def Update.newPtr : Update → MarkedPtr → MarkedPtr
  | .mark m, curPtr => setMark curPtr m
  | .bit b, curPtr => setMarkBit curPtr b

def Update.op : Update → Op
  | .mark m => .setMark m
  | .bit b => .setMarkBit b

/-- A call between two of its steps. -/
inductive Pc
  | idle
  /-- `set_mark`, `set_mark_bit`, before `atomic_ptr.load()` -/
  | load (u : Update)
  /-- before `compare_exchange_weak(cur_ptr, new_ptr)` -/
  | exchangeMark (u : Update) (curPtr : MarkedPtr)
  /-- `compare_and_set_mark`, before `compare_exchange_strong` -/
  | setMarkIf (expected : MarkedPtr) (desiredMark : BitVec 64)
  /-- copying `compare_and_swap`, before the reservation -/
  | reserve (expected desired : MarkedPtr) (isProtected : Bool)
  /-- `compare_and_swap_impl`, before `compare_exchange_strong` -/
  | cas (expected desired : MarkedPtr) (transfer : Transfer)
  /-- it succeeded, before `delayed_decrement_ref_cnt(expected_ptr)` -/
  | swapped (expected desired : MarkedPtr) (transfer : Transfer)
  /-- before `increment_ref_cnt(desired_ptr)` -/
  | increment (desired : MarkedPtr) (isProtected : Bool)
  /-- `store` of an unprotected snapshot, before `increment_ref_cnt(new_ptr)` -/
  | storeIncrement (desired : MarkedPtr)
  /-- before `exchange(new_ptr)` -/
  | exchange (desired : MarkedPtr) (source : Source)
  /-- after the exchange for a protected snapshot -/
  | exchanged (desired old : MarkedPtr)
  /-- before `delayed_decrement_ref_cnt(old_ptr)` -/
  | release (old : MarkedPtr)
  /-- before the return, with the reservation if there is one -/
  | ret (r : Ret) (reservation : Option MarkedPtr)
  deriving DecidableEq, Repr

structure State (n : Nat) where
  /-- `atomic_ptr` -/
  word : MarkedPtr
  strong : Addr → Nat
  /-- what the manager has been given to decrement later -/
  retired : List Addr
  announcement : Fin n → Addr
  pc : Fin n → Pc
  calls : Calls (Fin n) Op Ret

def State.initial (n : Nat) : State n := ⟨0, fun _ => 0, [], fun _ => 0, fun _ => .idle, .empty⟩

section Model
variable {n : Nat}

def State.setPc (s : State n) (t : Fin n) (pc : Pc) : State n :=
  { s with pc := Function.update s.pc t pc }

/-- `if (p != nullptr) mm.increment_ref_cnt(p)`. -/
def State.incrementRefCnt (s : State n) (p : MarkedPtr) : State n :=
  if getPtr p ≠ 0 then
    { s with strong := Function.update s.strong (getPtr p) (s.strong (getPtr p) + 1) }
  else s

/-- `if (p != nullptr) mm.delayed_decrement_ref_cnt(p)`. -/
def State.delayedDecrementRefCnt (s : State n) (p : MarkedPtr) : State n :=
  if getPtr p ≠ 0 then { s with retired := s.retired ++ [getPtr p] } else s

def State.announce (s : State n) (t : Fin n) (p : Addr) : State n :=
  { s with announcement := Function.update s.announcement t p }

/-- The destructor of the reservation. -/
def State.clearProtection (s : State n) (t : Fin n) : Option MarkedPtr → State n
  | some p => if getPtr p ≠ 0 then s.announce t 0 else s
  | none => s

def reservationOf (desired : MarkedPtr) : Transfer → Option MarkedPtr
  | .copy false => some desired
  | _ => none

/-- The next step of thread `t`. A `compare_exchange_weak` may also fail spuriously. -/
def step (s : State n) (t : Fin n) (spurious : Bool) : Option (State n) :=
  match s.pc t with
  | .idle => none
  | .load u => some (s.setPc t (.exchangeMark u s.word))
  | .exchangeMark u curPtr =>
    if s.word = curPtr ∧ spurious = false then
      some ({ s with word := u.newPtr curPtr }.setPc t (.ret .unit none))
    else some (s.setPc t (.exchangeMark u s.word))
  | .setMarkIf expected desiredMark =>
    if s.word = expected then
      some ({ s with word := setMark expected desiredMark }.setPc t (.ret (.bool true) none))
    else some (s.setPc t (.ret (.bool false) none))
  | .reserve expected desired isProtected =>
    let s := if isProtected then s else s.announce t (getPtr desired)
    some (s.setPc t (.cas expected desired (.copy isProtected)))
  | .cas expected desired transfer =>
    if s.word = expected then
      some ({ s with word := desired }.setPc t (.swapped expected desired transfer))
    else some (s.setPc t (.ret (.bool false) (reservationOf desired transfer)))
  | .swapped expected desired transfer =>
    let s := s.delayedDecrementRefCnt expected
    match transfer with
    | .copy isProtected => some (s.setPc t (.increment desired isProtected))
    | .move => some (s.setPc t (.ret (.bool true) none))
  | .increment desired isProtected =>
    some ((s.incrementRefCnt desired).setPc t
      (.ret (.bool true) (reservationOf desired (.copy isProtected))))
  | .storeIncrement desired =>
    some ((s.incrementRefCnt desired).setPc t (.exchange desired (.snapshotPtr false)))
  | .exchange desired source =>
    let old := s.word
    let s := { s with word := desired }
    match source with
    | .snapshotPtr true => some (s.setPc t (.exchanged desired old))
    | _ => some (s.setPc t (.release old))
  | .exchanged desired old =>
    if old ≠ desired then some ((s.incrementRefCnt desired).setPc t (.release old))
    else some (s.setPc t (.ret .unit none))
  | .release old => some ((s.delayedDecrementRefCnt old).setPc t (.ret .unit none))
  | .ret r reservation =>
    let s := s.clearProtection t reservation
    some { s.setPc t .idle with calls := s.calls.respond t r }

def start : Op → Pc
  | .setMark mark => .load (.mark mark)
  | .setMarkBit bit => .load (.bit bit)
  | .compareAndSetMark expected desiredMark => .setMarkIf expected desiredMark
  | .compareAndSwap expected desired (.copy isProtected) => .reserve expected desired isProtected
  | .compareAndSwap expected desired .move => .cas expected desired .move
  | .store desired (.snapshotPtr false) => .storeIncrement desired
  | .store desired source => .exchange desired source

inductive Label (n : Nat)
  | call (t : Fin n) (o : Op)
  | step (t : Fin n) (spurious : Bool)
  deriving DecidableEq, Repr

def next (s : State n) : Label n → Option (State n)
  | .call t o =>
    match s.pc t with
    | .idle =>
      if o.Valid then some { s.setPc t (start o) with calls := s.calls.invoke t o } else none
    | _ => none
  | .step t spurious => step s t spurious

end Model

def machine (n : Nat) : Machine (State n) (Label n) where
  init s := s = .initial n
  next := next

/-- The location as a pair of an object and a mark, with every operation in one step. -/
def markedPair : Seq (Addr × BitVec 64) Op Ret where
  init := (0, 0)
  apply
    | (obj, _), .setMark mark => ((obj, mark), .unit)
    | (obj, mark), .setMarkBit bit => ((obj, mark ||| 1 <<< (bit - 1)), .unit)
    | (obj, mark), .compareAndSetMark expected desiredMark =>
      if (obj, mark) = (getPtr expected, getMark expected) then ((obj, desiredMark), .bool true)
      else ((obj, mark), .bool false)
    | (obj, mark), .compareAndSwap expected desired _ =>
      if (obj, mark) = (getPtr expected, getMark expected) then
        ((getPtr desired, getMark desired), .bool true)
      else ((obj, mark), .bool false)
    | _, .store desired _ => ((getPtr desired, getMark desired), .unit)

/-! ## Packing -/

/-- The object and the mark of a word. -/
def unpack (p : MarkedPtr) : Addr × BitVec 64 := (getPtr p, getMark p)

theorem unpack_inj {p q : MarkedPtr} : unpack p = unpack q ↔ p = q := by
  constructor
  · intro h
    simp only [unpack, Prod.mk.injEq] at h
    rw [← getPtr_or_getMark p, ← getPtr_or_getMark q, h.1, h.2]
  · rintro rfl
    rfl

/-- A mark is in the mark bits. -/
theorem and_markBits {mark : BitVec 64} (h : mark < 4) :
    mark &&& markBits = mark ∧ mark &&& ~~~markBits = 0 := by
  have hcases : mark = 0 ∨ mark = 1 ∨ mark = 2 ∨ mark = 3 := by bv_omega
  rcases hcases with rfl | rfl | rfl | rfl <;> decide

theorem unpack_or {p : MarkedPtr} {mark : BitVec 64} (h : mark < 4) :
    unpack (p ||| mark) = (getPtr p, getMark p ||| mark) := by
  obtain ⟨h1, h2⟩ := and_markBits h
  simp only [unpack, getPtr, getMark, BitVec.and_or_distrib_right, h1, h2]
  simp

theorem unpack_clearMark (p : MarkedPtr) : unpack (clearMark p) = (getPtr p, 0) := by
  simp only [unpack, clearMark, getPtr, getMark, BitVec.and_assoc, BitVec.and_self, Prod.mk.injEq, true_and]
  have : ~~~markBits &&& markBits = 0 := by decide
  rw [this]
  simp

theorem unpack_setMark {p : MarkedPtr} {mark : BitVec 64} (h : mark < 4) :
    unpack (setMark p mark) = (getPtr p, mark) := by
  have hc := unpack_clearMark p
  simp only [unpack, Prod.mk.injEq] at hc
  rw [setMark, unpack_or h, hc.1, hc.2]
  simp

theorem unpack_setMarkBit {p : MarkedPtr} {bit : Nat} (h : bit = 1 ∨ bit = 2) :
    unpack (setMarkBit p bit) = (getPtr p, getMark p ||| 1 <<< (bit - 1)) := by
  have hlt : (1 <<< (bit - 1) : BitVec 64) < 4 := by
    rcases h with rfl | rfl <;> decide
  exact unpack_or hlt

theorem getMark_getPtr (p : MarkedPtr) : getMark (getPtr p) = 0 := by
  have h := unpack_clearMark p
  simp only [unpack, Prod.mk.injEq] at h
  exact h.2

/-! ## The invariant -/

section Invariant
variable {n : Nat} {s s' : State n} {t : Fin n} {L : List (Entry Op Ret)}

/-- The response that the call has once it has taken effect. -/
def Pc.ret? : Pc → Option Ret
  | .swapped _ _ _ => some (.bool true)
  | .increment _ _ => some (.bool true)
  | .exchanged _ _ => some .unit
  | .release _ => some .unit
  | .ret r _ => some r
  | _ => none

/-- The call of `o` can be here. -/
def Performs (o : Op) : Pc → Prop
  | .idle => False
  | .load u => o = u.op
  | .exchangeMark u _ => o = u.op
  | .setMarkIf expected desiredMark => o = .compareAndSetMark expected desiredMark
  | .reserve expected desired isProtected => o = .compareAndSwap expected desired (.copy isProtected)
  | .cas expected desired transfer => o = .compareAndSwap expected desired transfer
  | .storeIncrement desired => o = .store desired (.snapshotPtr false)
  | .exchange desired source => o = .store desired source
  | .ret _ reservation => o.isMark = true → reservation = none
  | _ => o.isMark = false

/-- Where thread `t` is, and in which call. -/
def ThreadInv (s : State n) (t : Fin n) : Prop :=
  match s.calls.call t with
  | some (_, o) => o.Valid ∧ Performs o (s.pc t)
  | none => s.pc t = .idle

structure Inv (s : State n) (L : List (Entry Op Ret)) : Prop where
  tracks : Tracks s.calls L fun t => (s.pc t).ret?
  legal : markedPair.Legal L
  contents : markedPair.after markedPair.init L = unpack s.word
  threads : ∀ t, ThreadInv s t
  retired : ∀ p ∈ s.retired, getMark p = 0
  announced : ∀ t, getMark (s.announcement t) = 0

theorem ThreadInv.running (h : ThreadInv s t) (hpc : s.pc t ≠ .idle) :
    ∃ i o, s.calls.call t = some (i, o) ∧ o.Valid ∧ Performs o (s.pc t) := by
  rw [ThreadInv] at h
  split at h
  · rename_i i o hc
    exact ⟨i, o, hc, h⟩
  · exact absurd h hpc

theorem threadInv_of_running {i : Nat} {o : Op} (hc : s.calls.call t = some (i, o)) (hv : o.Valid)
    (hp : Performs o (s.pc t)) : ThreadInv s t := by
  rw [ThreadInv, hc]
  exact ⟨hv, hp⟩

theorem threads_setPc {pc : Pc} (h : ∀ u, ThreadInv s u) {i : Nat} {o : Op}
    (hc : s.calls.call t = some (i, o)) (hv : o.Valid) (hp : Performs o pc) (u : Fin n) :
    ThreadInv (s.setPc t pc) u := by
  by_cases hu : u = t
  · subst hu
    refine threadInv_of_running hc hv ?_
    simp only [State.setPc, Function.update_self]
    exact hp
  · have hpc : (s.setPc t pc).pc u = s.pc u := Function.update_of_ne hu _ _
    have := h u
    rw [ThreadInv] at this ⊢
    rw [hpc]
    exact this

/-- The location, the calls and what is counted stay; the manager's lists may grow by
addresses without marks. -/
structure Quiet (s s' : State n) : Prop where
  word : s'.word = s.word
  pc : s'.pc = s.pc
  calls : s'.calls = s.calls
  retired : ∀ p ∈ s'.retired, p ∈ s.retired ∨ getMark p = 0
  announced : ∀ t, s'.announcement t = s.announcement t ∨ getMark (s'.announcement t) = 0

theorem Quiet.refl (s : State n) : Quiet s s := ⟨rfl, rfl, rfl, fun _ => .inl, fun _ => .inl rfl⟩

theorem quiet_incrementRefCnt (s : State n) (p : MarkedPtr) : Quiet s (s.incrementRefCnt p) := by
  rw [State.incrementRefCnt]
  split
  · exact ⟨rfl, rfl, rfl, fun _ => .inl, fun _ => .inl rfl⟩
  · exact .refl s

theorem quiet_delayedDecrementRefCnt (s : State n) (p : MarkedPtr) :
    Quiet s (s.delayedDecrementRefCnt p) := by
  rw [State.delayedDecrementRefCnt]
  split
  · refine ⟨rfl, rfl, rfl, fun q hq => ?_, fun _ => .inl rfl⟩
    rcases List.mem_append.mp hq with hq | hq
    · exact .inl hq
    · rw [List.mem_singleton.mp hq]
      exact .inr (getMark_getPtr p)
  · exact .refl s

theorem quiet_announce (s : State n) (t : Fin n) {p : Addr} (hp : getMark p = 0) :
    Quiet s (s.announce t p) := by
  refine ⟨rfl, rfl, rfl, fun _ => .inl, fun u => ?_⟩
  by_cases hu : u = t
  · subst hu
    right
    simp only [State.announce, Function.update_self]
    exact hp
  · left
    exact Function.update_of_ne hu _ _

theorem quiet_clearProtection (s : State n) (t : Fin n) (r : Option MarkedPtr) :
    Quiet s (s.clearProtection t r) := by
  cases r with
  | none => exact .refl s
  | some p =>
    rw [State.clearProtection]
    split
    · exact quiet_announce s t (by decide)
    · exact .refl s

theorem Inv.quiet (h : Inv s L) (hq : Quiet s s') : Inv s' L where
  tracks := by
    rw [hq.calls, hq.pc]
    exact h.tracks
  legal := h.legal
  contents := by
    rw [hq.word]
    exact h.contents
  threads t := by
    have := h.threads t
    rw [ThreadInv] at this ⊢
    rw [hq.calls, hq.pc]
    exact this
  retired p hp := (hq.retired p hp).elim (h.retired p) id
  announced t := (hq.announced t).elim (fun he => he ▸ h.announced t) id

/-- The call goes on, and takes no effect or has taken it before. -/
theorem Inv.setPc (h : Inv s L) {pc : Pc} {i : Nat} {o : Op} (hc : s.calls.call t = some (i, o))
    (hv : o.Valid) (hp : Performs o pc) (hr : pc.ret? = (s.pc t).ret?) : Inv (s.setPc t pc) L where
  tracks := by
    refine h.tracks.congr fun u j o' hu => ?_
    by_cases hut : u = t
    · subst hut
      simp only [State.setPc, Function.update_self]
      exact hr
    · simp only [State.setPc, Function.update_of_ne hut]
  legal := h.legal
  contents := h.contents
  threads := threads_setPc h.threads hc hv hp
  retired := h.retired
  announced := h.announced

/-- The call takes effect, as the pair does. -/
theorem Inv.commit (h : Inv s L) {pc : Pc} {i : Nat} {o : Op} {r : Ret} {p : MarkedPtr}
    (hc : s.calls.call t = some (i, o)) (hv : o.Valid) (hp : Performs o pc) (hn : (s.pc t).ret? = none)
    (hr : pc.ret? = some r) (ha : markedPair.apply (unpack s.word) o = (unpack p, r)) :
    Inv ({ s with word := p }.setPc t pc) (L ++ [⟨i, o, r⟩]) where
  tracks := by
    refine (h.tracks.commit r hc hn).congr fun u j o' hu => ?_
    by_cases hut : u = t
    · subst hut
      simp only [State.setPc, Function.update_self]
      exact hr
    · simp only [State.setPc, Function.update_of_ne hut]
  legal := by
    refine Seq.exact_append.mpr ⟨h.legal, ?_, trivial⟩
    rw [h.contents, ha]
  contents := by
    rw [Seq.after_append, h.contents, Seq.after, ha]
    rfl
  threads := by
    refine threads_setPc (fun u => ?_) hc hv hp
    exact h.threads u
  retired := h.retired
  announced := h.announced

/-! ## Each step -/

theorem apply_update (p : MarkedPtr) {u : Update} (hv : u.op.Valid) :
    markedPair.apply (unpack p) u.op = (unpack (u.newPtr p), .unit) := by
  cases u with
  | mark m => rw [Update.newPtr, unpack_setMark hv]; rfl
  | bit b => rw [Update.newPtr, unpack_setMarkBit hv]; rfl

theorem apply_compareAndSetMark (p expected : MarkedPtr) {desiredMark : BitVec 64} (hv : desiredMark < 4) :
    markedPair.apply (unpack p) (.compareAndSetMark expected desiredMark) =
      if p = expected then (unpack (setMark expected desiredMark), .bool true)
      else (unpack p, .bool false) := by
  simp only [markedPair, unpack]
  by_cases he : p = expected
  · subst he
    rw [if_pos rfl, if_pos rfl]
    have hs := unpack_setMark (p := p) hv
    simp only [unpack] at hs
    rw [hs]
  · rw [if_neg he, if_neg]
    exact fun hu => he (unpack_inj.mp hu)

theorem apply_compareAndSwap (p expected desired : MarkedPtr) (transfer : Transfer) :
    markedPair.apply (unpack p) (.compareAndSwap expected desired transfer) =
      if p = expected then (unpack desired, .bool true) else (unpack p, .bool false) := by
  simp only [markedPair, unpack]
  by_cases he : p = expected
  · subst he
    rw [if_pos rfl, if_pos rfl]
  · rw [if_neg he, if_neg]
    exact fun hu => he (unpack_inj.mp hu)

theorem Inv.load (h : Inv s L) {u : Update} (hpc : s.pc t = .load u) (p : MarkedPtr) :
    Inv (s.setPc t (.exchangeMark u p)) L := by
  obtain ⟨i, o, hc, hv, hp⟩ := (h.threads t).running (by rw [hpc]; exact Pc.noConfusion)
  rw [hpc] at hp
  exact h.setPc hc hv hp (by rw [hpc]; rfl)

theorem Inv.exchangeMark (h : Inv s L) {u : Update} {curPtr : MarkedPtr} {spurious : Bool}
    (hpc : s.pc t = .exchangeMark u curPtr) (hs : step s t spurious = some s') : ∃ L, Inv s' L := by
  obtain ⟨i, o, hc, hv, hp⟩ := (h.threads t).running (by rw [hpc]; exact Pc.noConfusion)
  rw [hpc] at hp
  obtain rfl : o = u.op := hp
  simp only [step, hpc] at hs
  split at hs
  · rename_i hw
    cases hs
    obtain rfl := hw.1
    exact ⟨_, h.commit hc hv (fun _ => rfl) (by rw [hpc]; rfl) rfl (apply_update s.word hv)⟩
  · cases hs
    exact ⟨L, h.setPc hc hv rfl (by rw [hpc]; rfl)⟩

theorem Inv.setMarkIf (h : Inv s L) {expected : MarkedPtr} {desiredMark : BitVec 64} {spurious : Bool}
    (hpc : s.pc t = .setMarkIf expected desiredMark) (hs : step s t spurious = some s') :
    ∃ L, Inv s' L := by
  obtain ⟨i, o, hc, hv, hp⟩ := (h.threads t).running (by rw [hpc]; exact Pc.noConfusion)
  rw [hpc] at hp
  obtain rfl : o = .compareAndSetMark expected desiredMark := hp
  have ha := apply_compareAndSetMark s.word expected hv
  simp only [step, hpc] at hs
  split at hs
  · rename_i hw
    cases hs
    rw [if_pos hw] at ha
    exact ⟨_, h.commit hc hv (fun _ => rfl) (by rw [hpc]; rfl) rfl ha⟩
  · rename_i hw
    cases hs
    rw [if_neg hw] at ha
    exact ⟨_, h.commit hc hv (fun _ => rfl) (by rw [hpc]; rfl) rfl ha⟩

theorem Inv.cas (h : Inv s L) {expected desired : MarkedPtr} {transfer : Transfer} {spurious : Bool}
    (hpc : s.pc t = .cas expected desired transfer) (hs : step s t spurious = some s') :
    ∃ L, Inv s' L := by
  obtain ⟨i, o, hc, hv, hp⟩ := (h.threads t).running (by rw [hpc]; exact Pc.noConfusion)
  rw [hpc] at hp
  obtain rfl : o = .compareAndSwap expected desired transfer := hp
  have ha := apply_compareAndSwap s.word expected desired transfer
  simp only [step, hpc] at hs
  split at hs
  · rename_i hw
    cases hs
    rw [if_pos hw] at ha
    exact ⟨_, h.commit hc hv rfl (by rw [hpc]; rfl) rfl ha⟩
  · rename_i hw
    cases hs
    rw [if_neg hw] at ha
    exact ⟨_, h.commit hc hv (by intro hm; cases hm) (by rw [hpc]; rfl) rfl ha⟩

theorem Inv.exchange (h : Inv s L) {desired : MarkedPtr} {source : Source} {spurious : Bool}
    (hpc : s.pc t = .exchange desired source) (hs : step s t spurious = some s') : ∃ L, Inv s' L := by
  obtain ⟨i, o, hc, hv, hp⟩ := (h.threads t).running (by rw [hpc]; exact Pc.noConfusion)
  rw [hpc] at hp
  obtain rfl : o = .store desired source := hp
  have hn : (s.pc t).ret? = none := by rw [hpc]; rfl
  simp only [step, hpc] at hs
  split at hs
  · cases hs
    exact ⟨_, h.commit hc hv rfl hn rfl rfl⟩
  · cases hs
    exact ⟨_, h.commit hc hv rfl hn rfl rfl⟩

/-- The call has taken effect, or has yet to. It calls the memory manager and goes on. -/
theorem Inv.manage (h : Inv s L) {s₁ : State n} {pc pc' : Pc} (hpc : s.pc t = pc) (hidle : pc ≠ .idle)
    (hq : Quiet s s₁) (hp : ∀ o, Performs o pc → Performs o pc') (hr : pc'.ret? = pc.ret?) :
    Inv (s₁.setPc t pc') L := by
  obtain ⟨i, o, hc, hv, ho⟩ := (h.threads t).running (by rw [hpc]; exact hidle)
  rw [hpc] at ho
  refine (h.quiet hq).setPc (by rw [hq.calls]; exact hc) hv (hp o ho) ?_
  rw [hq.pc, hpc]
  exact hr

theorem Inv.respond (h : Inv s L) {r : Ret} {reservation : Option MarkedPtr}
    (hpc : s.pc t = .ret r reservation) :
    Inv { s.setPc t .idle with calls := s.calls.respond t r } L := by
  obtain ⟨i, o, hc, hv, ho⟩ := (h.threads t).running (by rw [hpc]; exact Pc.noConfusion)
  have hcall : (s.calls.respond t r).call = Function.update s.calls.call t none := by
    simp only [Calls.respond, hc]
  refine ⟨?_, h.legal, h.contents, fun u => ?_, h.retired, h.announced⟩
  · refine (h.tracks.respond hc (by rw [hpc]; rfl)).congr fun u j o' hu => ?_
    have hut : u ≠ t := by
      rintro rfl
      rw [hcall, Function.update_self] at hu
      cases hu
    simp only [State.setPc, Function.update_of_ne hut]
  · by_cases hut : u = t
    · subst hut
      simp only [ThreadInv, hcall, Function.update_self, State.setPc]
    · have := h.threads u
      simp only [ThreadInv, hcall, Function.update_of_ne hut, State.setPc] at this ⊢
      exact this

theorem performs_start {o : Op} : Performs o (start o) := by
  cases o with
  | compareAndSwap expected desired transfer => cases transfer <;> rfl
  | store desired source =>
    cases source with
    | rcPtr => rfl
    | snapshotPtr isProtected => cases isProtected <;> rfl
  | _ => rfl

theorem start_ret? (o : Op) : (start o).ret? = none := by
  cases o with
  | compareAndSwap expected desired transfer => cases transfer <;> rfl
  | store desired source =>
    cases source with
    | rcPtr => rfl
    | snapshotPtr isProtected => cases isProtected <;> rfl
  | _ => rfl

theorem Inv.call (h : Inv s L) {o : Op} (hv : o.Valid) :
    Inv { s.setPc t (start o) with calls := s.calls.invoke t o } L := by
  refine ⟨?_, h.legal, h.contents, fun u => ?_, h.retired, h.announced⟩
  · refine (h.tracks.invoke t o).congr fun u j o' hu => ?_
    by_cases hut : u = t
    · subst hut
      simp only [State.setPc, Function.update_self, start_ret?]
    · simp only [State.setPc, Function.update_of_ne hut]
  · by_cases hut : u = t
    · subst hut
      simp only [ThreadInv, Calls.invoke, Function.update_self, State.setPc]
      exact ⟨hv, performs_start⟩
    · have := h.threads u
      simp only [ThreadInv, Calls.invoke, Function.update_of_ne hut, State.setPc] at this ⊢
      exact this

theorem Inv.step (h : Inv s L) {spurious : Bool} (hs : step s t spurious = some s') : ∃ L, Inv s' L := by
  cases hpc : s.pc t with
  | idle =>
    simp only [Atomic.step, hpc] at hs
    cases hs
  | load u =>
    simp only [Atomic.step, hpc] at hs
    cases hs
    exact ⟨L, h.load hpc s.word⟩
  | exchangeMark u curPtr => exact h.exchangeMark hpc hs
  | setMarkIf expected desiredMark => exact h.setMarkIf hpc hs
  | reserve expected desired isProtected =>
    simp only [Atomic.step, hpc] at hs
    cases hs
    refine ⟨L, h.manage hpc Pc.noConfusion ?_ (fun _ ho => ho) rfl⟩
    cases isProtected with
    | true => exact .refl s
    | false => exact quiet_announce s t (getMark_getPtr desired)
  | cas expected desired transfer => exact h.cas hpc hs
  | swapped expected desired transfer =>
    simp only [Atomic.step, hpc] at hs
    have hq := quiet_delayedDecrementRefCnt s expected
    cases transfer with
    | copy isProtected =>
      cases hs
      exact ⟨L, h.manage hpc Pc.noConfusion hq (fun _ ho => ho) rfl⟩
    | move =>
      cases hs
      exact ⟨L, h.manage hpc Pc.noConfusion hq (fun _ _ _ => rfl) rfl⟩
  | increment desired isProtected =>
    simp only [Atomic.step, hpc] at hs
    cases hs
    refine ⟨L, h.manage hpc Pc.noConfusion (quiet_incrementRefCnt s desired) (fun o ho hm => ?_) rfl⟩
    rw [show o.isMark = false from ho] at hm
    cases hm
  | storeIncrement desired =>
    simp only [Atomic.step, hpc] at hs
    cases hs
    exact ⟨L, h.manage hpc Pc.noConfusion (quiet_incrementRefCnt s desired) (fun _ ho => ho) rfl⟩
  | exchange desired source => exact h.exchange hpc hs
  | exchanged desired old =>
    simp only [Atomic.step, hpc] at hs
    split at hs
    · cases hs
      exact ⟨L, h.manage hpc Pc.noConfusion (quiet_incrementRefCnt s desired) (fun _ ho => ho) rfl⟩
    · cases hs
      exact ⟨L, h.manage hpc Pc.noConfusion (.refl s) (fun _ _ _ => rfl) rfl⟩
  | release old =>
    simp only [Atomic.step, hpc] at hs
    cases hs
    exact ⟨L, h.manage hpc Pc.noConfusion (quiet_delayedDecrementRefCnt s old) (fun _ _ _ => rfl) rfl⟩
  | ret r reservation =>
    simp only [Atomic.step, hpc] at hs
    cases hs
    have hq := quiet_clearProtection s t reservation
    exact ⟨L, (h.quiet hq).respond (by rw [hq.pc]; exact hpc)⟩

theorem Inv.next (h : Inv s L) {a : Label n} (hn : next s a = some s') : ∃ L, Inv s' L := by
  cases a with
  | call t o =>
    simp only [Atomic.next] at hn
    split at hn
    · split at hn
      · rename_i hv
        cases hn
        exact ⟨L, h.call hv⟩
      · cases hn
    · cases hn
  | step t spurious => exact h.step hn

theorem Inv.initial : Inv (State.initial n) [] where
  tracks := Tracks.empty
  legal := trivial
  contents := by
    show ((0, 0) : Addr × BitVec 64) = unpack 0
    decide
  threads t := rfl
  retired p hp := by cases hp
  announced t := by simp only [State.initial]; decide

theorem reach_inv (hr : (machine n).Reach s) : ∃ L, Inv s L := by
  refine hr.invariant (I := fun s => ∃ L, Inv s L) ?_ ?_
  · rintro s rfl
    exact ⟨[], Inv.initial⟩
  · intro s a s' hi hn
    obtain ⟨L, h⟩ := hi
    exact h.next hn

/-- No step of a mark operation touches the counts or what the manager has been given, and
the location keeps its object. -/
theorem Inv.mark_frame (h : Inv s L) {i : Nat} {o : Op} (hc : s.calls.call t = some (i, o))
    (hm : o.isMark = true) {spurious : Bool} (hs : Atomic.step s t spurious = some s') :
    s'.strong = s.strong ∧ s'.retired = s.retired ∧ s'.announcement = s.announcement ∧
      getPtr s'.word = getPtr s.word := by
  have ht := h.threads t
  rw [ThreadInv, hc] at ht
  obtain ⟨hv, hp⟩ := ht
  cases hpc : s.pc t with
  | load u =>
    simp only [Atomic.step, hpc] at hs
    cases hs
    exact ⟨rfl, rfl, rfl, rfl⟩
  | exchangeMark u curPtr =>
    rw [hpc] at hp
    obtain rfl : o = u.op := hp
    simp only [Atomic.step, hpc] at hs
    split at hs
    · rename_i hw
      cases hs
      refine ⟨rfl, rfl, rfl, ?_⟩
      obtain rfl := hw.1
      have ha := apply_update s.word hv
      cases u <;> exact (congrArg (fun x => x.1.1) ha).symm
    · cases hs
      exact ⟨rfl, rfl, rfl, rfl⟩
  | setMarkIf expected desiredMark =>
    rw [hpc] at hp
    obtain rfl : o = .compareAndSetMark expected desiredMark := hp
    simp only [Atomic.step, hpc] at hs
    split at hs
    · rename_i hw
      cases hs
      refine ⟨rfl, rfl, rfl, ?_⟩
      have hu := unpack_setMark (p := expected) hv
      rw [hw]
      exact congrArg Prod.fst hu
    · cases hs
      exact ⟨rfl, rfl, rfl, rfl⟩
  | ret r reservation =>
    rw [hpc] at hp
    obtain rfl : reservation = none := hp hm
    simp only [Atomic.step, hpc] at hs
    cases hs
    exact ⟨rfl, rfl, rfl, rfl⟩
  | idle =>
    rw [hpc] at hp
    exact hp.elim
  | reserve expected desired isProtected =>
    rw [hpc] at hp
    rw [show o = _ from hp] at hm
    cases hm
  | cas expected desired transfer =>
    rw [hpc] at hp
    rw [show o = _ from hp] at hm
    cases hm
  | storeIncrement desired =>
    rw [hpc] at hp
    rw [show o = _ from hp] at hm
    cases hm
  | exchange desired source =>
    rw [hpc] at hp
    rw [show o = _ from hp] at hm
    cases hm
  | swapped expected desired transfer =>
    rw [hpc] at hp
    rw [show o.isMark = false from hp] at hm
    cases hm
  | increment desired isProtected =>
    rw [hpc] at hp
    rw [show o.isMark = false from hp] at hm
    cases hm
  | exchanged desired old =>
    rw [hpc] at hp
    rw [show o.isMark = false from hp] at hm
    cases hm
  | release old =>
    rw [hpc] at hp
    rw [show o.isMark = false from hp] at hm
    cases hm

/-- In every state of every run the history is that of a pair of an object and a mark, which
the word of the location holds. What is announced and retired are addresses without marks,
and no step of a mark operation changes a count, an announcement, the retired list, or the
object of the location. -/
theorem marks_linearizable (hr : (machine n).Reach s) :
    (∃ L, Linearization s.calls.hist L ∧ markedPair.Legal L ∧
      markedPair.after markedPair.init L = (getPtr s.word, getMark s.word)) ∧
    (∀ p ∈ s.retired, getMark p = 0) ∧ (∀ t, getMark (s.announcement t) = 0) ∧
    ∀ t i o spurious s', s.calls.call t = some (i, o) → o.isMark = true → step s t spurious = some s' →
      s'.strong = s.strong ∧ s'.retired = s.retired ∧ s'.announcement = s.announcement ∧
        getPtr s'.word = getPtr s.word := by
  obtain ⟨L, h⟩ := reach_inv hr
  exact ⟨⟨L, h.tracks.lin, h.legal, h.contents⟩, h.retired, h.announced,
    fun t i o spurious s' hc hm hs => h.mark_frame hc hm hs⟩

end Invariant

/-- `set_mark(1)` has loaded the word when a `store` replaces it; its exchange fails and is
made again for the new word. -/
def markDuringStore : List (Label 2) :=
  [.call 0 (.store 0x40 .rcPtr), .step 0 false, .step 0 false, .step 0 false, .call 1 (.setMark 1),
    .step 1 false, .call 0 (.store 0x80 .rcPtr), .step 0 false, .step 1 false, .step 1 false,
    .step 1 false, .step 0 false]

theorem marks_linearizable_store :
    ∃ s, (machine 2).exec markDuringStore (.initial 2) = some s ∧ s.word = 0x81 ∧ s.retired = [0x40] ∧
      (∃ L, Linearization s.calls.hist L ∧ markedPair.Legal L ∧
        markedPair.after markedPair.init L = (getPtr s.word, getMark s.word)) := by
  have hex : ((machine 2).exec markDuringStore (.initial 2)).map (fun s => (s.word, s.retired)) =
      some (0x81, [0x40]) := by
    decide +kernel
  obtain ⟨s, hs, hst⟩ := Option.map_eq_some_iff.mp hex
  simp only [Prod.mk.injEq] at hst
  have h0 : (machine 2).Reach (.initial 2) := .init rfl
  exact ⟨s, hs, hst.1, hst.2, (marks_linearizable (h0.exec hs)).1⟩

end Cdrc.MarkedPtr.Atomic
