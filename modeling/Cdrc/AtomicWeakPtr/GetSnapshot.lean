import Cdrc.Lib.Runs
import Mathlib.Logic.Function.Basic

/-! # `atomic_weak_ptr::get_snapshot`, one access at a time

One location, any number of threads that call `get_snapshot` on it, and the steps of all
other operations: `store` and `compare_and_swap` on the location, strong references
copied and dropped, addresses reused, the epoch advanced. What the location offers to
`get_snapshot` at an instant is `State.view`: the pointer it holds if that object still
has a strong reference, null otherwise. A call keeps the views of its lifetime in `seen`.
`get_snapshot` is linearizable when it returns one of them.

The counters are read and incremented atomically. Reclamation is represented by what the
backends guarantee: an address is reused only when its use count is zero, the location
does not hold it and no call protects it. Hyaline guarantees this only while every batch holds
entries of one type and no guard is constructed inside the traverse of `end_critical_section`.
The others may drop references more freely than the code lets them (even the one a call has just
taken), which only adds runs. -/
namespace Cdrc.AtomicWeakPtr
open Cdrc.Lib.Runs

inductive Backend
  | hp
  | ebr
  | ibr
  | hyaline
  deriving DecidableEq, Repr

/-- A call of `get_snapshot` between two of its accesses. -/
inductive Pc (α : Type)
  | idle
  /-- before `mm.protect_snapshot(&atomic_ptr)` -/
  | start
  /-- hazard pointers: before the load, with a free snapshot slot or without one -/
  | hpLoad (slot : Bool)
  /-- before the store of `result` to the slot, or to the announcement in `acquire` -/
  | hpAnnounce (slot : Bool) (result : Option α)
  /-- before the second load -/
  | hpValidate (slot : Bool) (result : Option α)
  /-- without a slot, before `increment_ref_cnt(a.get())` -/
  | hpIncrement (p : α)
  /-- the increment failed, before `p->load() == a.get()` -/
  | hpRecheck (p : α)
  /-- epochs and Hyaline: before the load -/
  | load
  /-- intervals: before `endTS_ann.load()` -/
  | ibrSlot
  /-- before the load, `pEpoch` announced -/
  | ibrLoad (pEpoch : Nat)
  /-- before `get_current_epoch()` -/
  | ibrEpoch (pEpoch : Nat) (result : Option α)
  /-- before `endTS_ann.exchange(curTS)` -/
  | ibrExchange (curTS : Nat)
  /-- `protect_snapshot` of all but hazard pointers, before `get_use_count() == 0` -/
  | expiryCheck (p : α)
  /-- `protect_snapshot` has returned `p`, before `get_use_count() > 0` -/
  | useCount (p : α)
  /-- the use count was zero, before `atomic_ptr.load() == ptr` -/
  | reload (p : α)
  | done (result : Option α)
  deriving DecidableEq, Repr

/-- A thread: its call, the `endTS_ann` of its slot, and what the location offered
since the call began. -/
structure Reader (α : Type) where
  pc : Pc α
  endTS : Nat
  seen : List (Option α)

def Reader.inCall {α : Type} (r : Reader α) : Bool :=
  match r.pc with
  | .idle => false
  | .done _ => false
  | _ => true

structure State (α : Type) (n : Nat) where
  loc : Option α
  useCount : α → Nat
  epoch : Nat
  readers : Fin n → Reader α

section Model
variable {α : Type} [DecidableEq α] {n : Nat}

/-- What the location offers: a pointer to an object with a strong reference, or null. -/
def State.view (s : State α n) : Option α := s.loc.filter fun p => 0 < s.useCount p

/-- The backend keeps `p` from being reused until the call lets go of it. A hazard
pointer protects from its validation on. With intervals a load protects if the epoch it
was made in is the announced one, which is so while that epoch lasts. -/
def Reader.protects (r : Reader α) (epoch : Nat) (p : α) : Bool :=
  match r.pc with
  | .hpIncrement q => q = p
  | .hpRecheck q => q = p
  | .ibrEpoch pEpoch result => result = some p ∧ pEpoch = epoch
  | .expiryCheck q => q = p
  | .useCount q => q = p
  | .reload q => q = p
  | _ => false

/-- The result of `protect_snapshot`, met by the test `ptr && ..` of `get_snapshot`. -/
def protectedPc : Option α → Pc α
  | some p => .useCount p
  | none => .done none

/-- Where `protect_snapshot` begins. `slot` is what `get_free_slot` finds. -/
def protectSnapshot (B : Backend) (slot : Bool) : Pc α :=
  match B with
  | .hp => .hpLoad slot
  | .ebr => .load
  | .hyaline => .load
  | .ibr => .ibrSlot

/-- The next access of a call. Of the shared state only `use_count` can change, by the
increment of the hazard pointers' path without a slot. -/
def access (B : Backend) (slot : Bool) (s : State α n) (r : Reader α) :
    Option ((α → Nat) × Reader α) :=
  match r.pc with
  | .idle => none
  | .done _ => none
  | .start => some (s.useCount, { r with pc := protectSnapshot B slot })
  | .hpLoad true =>
    match s.loc with
    | none => some (s.useCount, { r with pc := .done none })
    | some p => some (s.useCount, { r with pc := .hpAnnounce true (some p) })
  | .hpLoad false => some (s.useCount, { r with pc := .hpAnnounce false s.loc })
  | .hpAnnounce sl result => some (s.useCount, { r with pc := .hpValidate sl result })
  | .hpValidate sl result =>
    if s.loc = result then
      match sl, result with
      | true, result => some (s.useCount, { r with pc := protectedPc result })
      | false, some p => some (s.useCount, { r with pc := .hpIncrement p })
      | false, none => some (s.useCount, { r with pc := .done none })
    else some (s.useCount, { r with pc := .hpLoad sl })
  | .hpIncrement p =>
    if 0 < s.useCount p then
      some (Function.update s.useCount p (s.useCount p + 1), { r with pc := .useCount p })
    else some (s.useCount, { r with pc := .hpRecheck p })
  | .hpRecheck p =>
    if s.loc = some p then some (s.useCount, { r with pc := .done none })
    else some (s.useCount, { r with pc := .hpLoad false })
  | .load =>
    match s.loc with
    | none => some (s.useCount, { r with pc := .done none })
    | some p => some (s.useCount, { r with pc := .expiryCheck p })
  | .ibrSlot => some (s.useCount, { r with pc := .ibrLoad r.endTS })
  | .ibrLoad pEpoch => some (s.useCount, { r with pc := .ibrEpoch pEpoch s.loc })
  | .ibrEpoch pEpoch result =>
    if pEpoch = s.epoch then
      match result with
      | none => some (s.useCount, { r with pc := .done none })
      | some p => some (s.useCount, { r with pc := .expiryCheck p })
    else some (s.useCount, { r with pc := .ibrExchange s.epoch })
  | .ibrExchange curTS => some (s.useCount, { r with pc := .ibrLoad curTS, endTS := curTS })
  | .expiryCheck p =>
    if s.useCount p = 0 then some (s.useCount, { r with pc := .done none })
    else some (s.useCount, { r with pc := .useCount p })
  | .useCount p =>
    if 0 < s.useCount p then some (s.useCount, { r with pc := .done (some p) })
    else some (s.useCount, { r with pc := .reload p })
  | .reload p =>
    if s.loc = some p then some (s.useCount, { r with pc := .done none })
    else some (s.useCount, { r with pc := .start })

inductive Label (α : Type) (n : Nat)
  | store (desired : Option α)
  | compareAndSwap (expected desired : Option α)
  | copyStrong (p : α)
  | dropStrong (p : α)
  | reuse (p : α)
  | advanceEpoch
  /-- thread `i`, between two calls, announces the epoch: `begin_op`, `reserve` -/
  | announce (i : Fin n)
  /-- thread `i` calls `get_snapshot` -/
  | call (i : Fin n)
  /-- thread `i` makes its next access -/
  | step (i : Fin n) (slot : Bool)
  deriving DecidableEq, Repr

def State.setReader (s : State α n) (i : Fin n) (r : Reader α) : State α n :=
  { s with readers := Function.update s.readers i r }

/-- Every running call notes what the location offers. -/
def observe (s : State α n) : State α n :=
  { s with readers := fun i =>
      let r := s.readers i
      if r.inCall then { r with seen := s.view :: r.seen } else r }

/-- The memory at `p` may be given to a new object. -/
def Reusable (s : State α n) (p : α) : Prop :=
  s.useCount p = 0 ∧ s.loc ≠ some p ∧ ∀ i, (s.readers i).protects s.epoch p = false

instance (s : State α n) (p : α) : Decidable (Reusable s p) :=
  inferInstanceAs (Decidable (_ ∧ _))

/-- A step, before the running calls look at the location. -/
def effect (B : Backend) (s : State α n) : Label α n → Option (State α n)
  | .store desired => some { s with loc := desired }
  | .compareAndSwap expected desired =>
    some { s with loc := if s.loc = expected then desired else s.loc }
  | .copyStrong p =>
    if 0 < s.useCount p then
      some { s with useCount := Function.update s.useCount p (s.useCount p + 1) }
    else none
  | .dropStrong p =>
    if 0 < s.useCount p then
      some { s with useCount := Function.update s.useCount p (s.useCount p - 1) }
    else none
  | .reuse p =>
    if Reusable s p then some { s with useCount := Function.update s.useCount p 1 } else none
  | .advanceEpoch => some { s with epoch := s.epoch + 1 }
  | .announce i =>
    let r := s.readers i
    if r.inCall then none else some (s.setReader i { r with endTS := s.epoch })
  | .call i =>
    let r := s.readers i
    if r.inCall then none else some (s.setReader i { r with pc := .start, seen := [] })
  | .step i slot =>
    (access B slot s (s.readers i)).map fun (useCount, r) =>
      { s with useCount := useCount }.setReader i r

def next (B : Backend) (s : State α n) (a : Label α n) : Option (State α n) :=
  (effect B s a).map observe

/-- Any contents of the location, any counts; no call has begun, and no slot announces
an epoch that has not come. -/
def Initial (s : State α n) : Prop :=
  ∀ i, (s.readers i).pc = .idle ∧ (s.readers i).endTS ≤ s.epoch

def machine (B : Backend) (α : Type) [DecidableEq α] (n : Nat) :
    Machine (State α n) (Label α n) where
  init := Initial
  next := next B

/-- Where `protect_snapshot` of a backend other than hazard pointers finds the use count
of the pointer it loaded to be zero, the location still holds that pointer. -/
def ExpiredInPlace (s : State α n) : Label α n → Prop
  | .step i _ =>
    match (s.readers i).pc with
    | .expiryCheck p => s.useCount p = 0 → s.loc = some p
    | _ => True
  | _ => True

instance (s : State α n) (a : Label α n) : Decidable (ExpiredInPlace s a) := by
  unfold ExpiredInPlace
  split
  · split <;> infer_instance
  · infer_instance

/-! ## The invariant -/

/-- What holds of a thread between two steps. An object found live through a protected
pointer was live when the location held it; one found expired stays expired. -/
def PcInv (useCount : α → Nat) (epoch : Nat) (r : Reader α) : Prop :=
  match r.pc with
  | .hpIncrement p => 0 < useCount p → some p ∈ r.seen
  | .hpRecheck p => useCount p = 0
  | .ibrLoad pEpoch => pEpoch ≤ epoch
  | .ibrEpoch pEpoch none => pEpoch ≤ epoch ∧ none ∈ r.seen
  | .ibrEpoch pEpoch (some p) => pEpoch ≤ epoch ∧
      (pEpoch = epoch → 0 < useCount p → some p ∈ r.seen)
  | .ibrExchange curTS => curTS ≤ epoch
  | .expiryCheck p => 0 < useCount p → some p ∈ r.seen
  | .useCount p => 0 < useCount p → some p ∈ r.seen
  | .reload p => useCount p = 0
  | .done result => result ∈ r.seen
  | _ => True

structure ReaderInv (s : State α n) (r : Reader α) : Prop where
  slot : r.endTS ≤ s.epoch
  current : r.inCall = true → s.view ∈ r.seen
  pc : PcInv s.useCount s.epoch r

/-- A thread keeps its part when its call only sees more, and no object it protects is
replaced by a live one. -/
theorem PcInv.mono {useCount useCount' : α → Nat} {epoch epoch' : Nat} {r r' : Reader α}
    (h : PcInv useCount epoch r) (hpc : r'.pc = r.pc) (hseen : r.seen ⊆ r'.seen)
    (he : epoch ≤ epoch')
    (hc : ∀ p, r.protects epoch' p = true → 0 < useCount' p → 0 < useCount p) :
    PcInv useCount' epoch' r' := by
  unfold PcInv at h ⊢
  unfold Reader.protects at hc
  rw [hpc]
  have hz : ∀ p, (0 < useCount' p → 0 < useCount p) → useCount p = 0 → useCount' p = 0 := by
    intro p hp h0
    omega
  split <;> rename_i hr <;> simp only [hr] at h hc ⊢
  · exact fun hp => hseen (h (hc _ (by simp) hp))
  · exact hz _ (hc _ (by simp)) h
  · exact h.trans he
  · exact ⟨h.1.trans he, hseen h.2⟩
  · rename_i pEpoch p
    refine ⟨h.1.trans he, fun heq hp => hseen (h.2 ?_ (hc p (by simp [heq]) hp))⟩
    exact le_antisymm h.1 (heq ▸ he)
  · exact h.trans he
  · exact fun hp => hseen (h (hc _ (by simp) hp))
  · exact fun hp => hseen (h (hc _ (by simp) hp))
  · exact hz _ (hc _ (by simp)) h
  · exact hseen h

/-! ## The views -/

section Views
variable {s : State α n} {p : α}

omit [DecidableEq α] in
theorem view_of_null (h : s.loc = none) : s.view = none := by
  simp [State.view, h]

omit [DecidableEq α] in
theorem view_of_live (h : s.loc = some p) (hp : 0 < s.useCount p) : s.view = some p := by
  simp [State.view, h, hp]

omit [DecidableEq α] in
theorem view_of_expired (h : s.loc = some p) (hp : s.useCount p = 0) : s.view = none := by
  simp [State.view, h, hp]

end Views

/-! ## One access of a call -/

omit [DecidableEq α] in
/-- The location holds `p`: if its object is live, the call has seen it so. -/
theorem ReaderInv.seen_live {s : State α n} {r : Reader α} {p : α} (h : ReaderInv s r)
    (hin : r.inCall = true) (hl : s.loc = some p) : 0 < s.useCount p → some p ∈ r.seen := by
  intro hp
  rw [← view_of_live hl hp]
  exact h.current hin

omit [DecidableEq α] in
theorem ReaderInv.seen_null {s : State α n} {r : Reader α} (h : ReaderInv s r)
    (hin : r.inCall = true) (hl : s.loc = none) : none ∈ r.seen := by
  rw [← view_of_null hl]
  exact h.current hin

omit [DecidableEq α] in
theorem ReaderInv.seen_expired {s : State α n} {r : Reader α} {p : α} (h : ReaderInv s r)
    (hin : r.inCall = true) (hl : s.loc = some p) (hp : s.useCount p = 0) :
    none ∈ r.seen := by
  rw [← view_of_expired hl hp]
  exact h.current hin

/-- An access increments no count that is zero. -/
theorem access_count {B : Backend} {slot : Bool} {s : State α n} {r r' : Reader α}
    {useCount : α → Nat} (ha : access B slot s r = some (useCount, r')) {p : α}
    (hp : 0 < useCount p) : 0 < s.useCount p := by
  unfold access at ha
  repeat' split at ha
  all_goals simp only [Option.some.injEq, Prod.mk.injEq, reduceCtorEq] at ha
  all_goals obtain ⟨rfl, _⟩ := ha
  all_goals try exact hp
  -- the increment of a count found positive
  rename_i q _ hq _
  by_cases hpq : p = q
  · exact hpq ▸ hq
  · simpa [Function.update_of_ne hpq] using hp

/-- What a call's own access keeps. -/
theorem ReaderInv.access {B : Backend} {slot : Bool} {s : State α n} {r r' : Reader α}
    {useCount : α → Nat} (h : ReaderInv s r) (ha : access B slot s r = some (useCount, r'))
    (hok : ∀ p, r.pc = .expiryCheck p → s.useCount p = 0 → s.loc = some p) :
    r'.endTS ≤ s.epoch ∧ PcInv useCount s.epoch r' := by
  obtain ⟨pc, endTS, seen⟩ := r
  have hslot : endTS ≤ s.epoch := h.slot
  have hpc := h.pc
  cases pc with
  | idle => cases ha
  | done v => cases ha
  | start =>
    cases ha
    refine ⟨hslot, ?_⟩
    cases B <;> trivial
  | hpLoad sl =>
    cases sl with
    | true =>
      simp only [AtomicWeakPtr.access] at ha
      split at ha
      · rename_i hl
        cases ha
        exact ⟨hslot, h.seen_null rfl hl⟩
      · cases ha
        exact ⟨hslot, trivial⟩
    | false =>
      cases ha
      exact ⟨hslot, trivial⟩
  | hpAnnounce sl result =>
    cases ha
    exact ⟨hslot, trivial⟩
  | hpValidate sl result =>
    simp only [AtomicWeakPtr.access] at ha
    split at ha
    · rename_i hl
      cases result with
      | none =>
        have hn := h.seen_null rfl hl
        cases sl <;> cases ha <;> exact ⟨hslot, hn⟩
      | some p =>
        -- the location holds the announced pointer: from here on it is protected
        have hv := h.seen_live rfl hl
        cases sl <;> cases ha <;> exact ⟨hslot, hv⟩
    · cases ha
      exact ⟨hslot, trivial⟩
  | hpIncrement p =>
    simp only [AtomicWeakPtr.access] at ha
    split at ha
    · rename_i hp
      cases ha
      exact ⟨hslot, fun _ => hpc hp⟩
    · rename_i hp
      cases ha
      exact ⟨hslot, by simpa [PcInv] using hp⟩
  | hpRecheck p =>
    simp only [AtomicWeakPtr.access] at ha
    split at ha
    · rename_i hl
      cases ha
      exact ⟨hslot, h.seen_expired rfl hl hpc⟩
    · cases ha
      exact ⟨hslot, trivial⟩
  | load =>
    simp only [AtomicWeakPtr.access] at ha
    split at ha
    · rename_i hl
      cases ha
      exact ⟨hslot, h.seen_null rfl hl⟩
    · rename_i p hl
      cases ha
      exact ⟨hslot, h.seen_live rfl hl⟩
  | ibrSlot =>
    cases ha
    exact ⟨hslot, hslot⟩
  | ibrLoad pEpoch =>
    cases ha
    refine ⟨hslot, ?_⟩
    cases hl : s.loc with
    | none => exact ⟨hpc, h.seen_null rfl hl⟩
    | some p => exact ⟨hpc, fun _ => h.seen_live rfl hl⟩
  | ibrEpoch pEpoch result =>
    simp only [AtomicWeakPtr.access] at ha
    split at ha
    · rename_i he
      cases result with
      | none =>
        cases ha
        exact ⟨hslot, hpc.2⟩
      | some p =>
        cases ha
        exact ⟨hslot, hpc.2 he⟩
    · cases ha
      exact ⟨hslot, le_refl s.epoch⟩
  | ibrExchange curTS =>
    cases ha
    exact ⟨hpc, hpc⟩
  | expiryCheck p =>
    simp only [AtomicWeakPtr.access] at ha
    split at ha
    · rename_i hp
      cases ha
      exact ⟨hslot, h.seen_expired rfl (hok p rfl hp) hp⟩
    · cases ha
      exact ⟨hslot, hpc⟩
  | useCount p =>
    simp only [AtomicWeakPtr.access] at ha
    split at ha
    · rename_i hp
      cases ha
      exact ⟨hslot, hpc hp⟩
    · rename_i hp
      cases ha
      exact ⟨hslot, by simpa [PcInv] using hp⟩
  | reload p =>
    simp only [AtomicWeakPtr.access] at ha
    split at ha
    · rename_i hl
      cases ha
      exact ⟨hslot, h.seen_expired rfl hl hpc⟩
    · cases ha
      exact ⟨hslot, trivial⟩

/-! ## A step -/

/-- A count that a step makes positive was so before, or the address is reused and no
call protects it. The epoch never goes back. -/
theorem effect_shared {B : Backend} {s s' : State α n} {a : Label α n}
    (h : effect B s a = some s') :
    s.epoch ≤ s'.epoch ∧ ∀ (i : Fin n) (p : α), (s.readers i).protects s'.epoch p = true →
      0 < s'.useCount p → 0 < s.useCount p := by
  cases a with
  | store desired => cases h; exact ⟨le_refl _, fun _ _ _ hp => hp⟩
  | compareAndSwap expected desired => cases h; exact ⟨le_refl _, fun _ _ _ hp => hp⟩
  | copyStrong q =>
    simp only [effect] at h
    split at h
    · rename_i hq
      cases h
      refine ⟨le_refl _, fun _ p _ hp => ?_⟩
      by_cases hpq : p = q
      · exact hpq ▸ hq
      · simpa [Function.update_of_ne hpq] using hp
    · cases h
  | dropStrong q =>
    simp only [effect] at h
    split at h
    · rename_i hq
      cases h
      refine ⟨le_refl _, fun _ p _ hp => ?_⟩
      by_cases hpq : p = q
      · exact hpq ▸ hq
      · simpa [Function.update_of_ne hpq] using hp
    · cases h
  | reuse q =>
    simp only [effect] at h
    split at h
    · rename_i hq
      cases h
      refine ⟨le_refl _, fun i p hprot hp => ?_⟩
      by_cases hpq : p = q
      · have := hq.2.2 i
        rw [← hpq, hprot] at this
        cases this
      · simpa [Function.update_of_ne hpq] using hp
    · cases h
  | advanceEpoch => cases h; exact ⟨Nat.le_succ _, fun _ _ _ hp => hp⟩
  | announce i =>
    simp only [effect] at h
    split at h
    · cases h
    · cases h; exact ⟨le_refl _, fun _ _ _ hp => hp⟩
  | call i =>
    simp only [effect] at h
    split at h
    · cases h
    · cases h; exact ⟨le_refl _, fun _ _ _ hp => hp⟩
  | step i slot =>
    obtain ⟨⟨useCount, r⟩, ha, rfl⟩ := Option.map_eq_some_iff.mp h
    exact ⟨le_refl _, fun _ _ _ hp => access_count ha hp⟩

/-- What a step does to a thread: it leaves it alone, or announces the epoch for it, or
starts its call, or makes its next access. -/
theorem effect_readers {B : Backend} {s s' : State α n} {a : Label α n}
    (h : effect B s a = some s') (i : Fin n) :
    s'.readers i = s.readers i ∨
    ((s.readers i).inCall = false ∧ s'.epoch = s.epoch ∧
      s'.readers i = { s.readers i with endTS := s.epoch }) ∨
    ((s'.readers i).pc = .start ∧ (s'.readers i).endTS = (s.readers i).endTS) ∨
    ∃ slot, a = .step i slot ∧ s'.epoch = s.epoch ∧
      access B slot s (s.readers i) = some (s'.useCount, s'.readers i) := by
  cases a with
  | store desired => cases h; exact Or.inl rfl
  | compareAndSwap expected desired => cases h; exact Or.inl rfl
  | copyStrong q =>
    simp only [effect] at h
    split at h
    · cases h; exact Or.inl rfl
    · cases h
  | dropStrong q =>
    simp only [effect] at h
    split at h
    · cases h; exact Or.inl rfl
    · cases h
  | reuse q =>
    simp only [effect] at h
    split at h
    · cases h; exact Or.inl rfl
    · cases h
  | advanceEpoch => cases h; exact Or.inl rfl
  | announce j =>
    simp only [effect] at h
    split at h
    · cases h
    · rename_i hin
      cases h
      by_cases hij : i = j
      · subst hij
        exact Or.inr (Or.inl ⟨by simpa using hin, rfl, by simp [State.setReader]⟩)
      · exact Or.inl (by simp [State.setReader, Function.update_of_ne hij])
  | call j =>
    simp only [effect] at h
    split at h
    · cases h
    · cases h
      by_cases hij : i = j
      · subst hij
        exact Or.inr (Or.inr (Or.inl (by simp [State.setReader])))
      · exact Or.inl (by simp [State.setReader, Function.update_of_ne hij])
  | step j slot =>
    obtain ⟨⟨useCount, r⟩, ha, rfl⟩ := Option.map_eq_some_iff.mp h
    by_cases hij : i = j
    · subst hij
      exact Or.inr (Or.inr (Or.inr ⟨slot, rfl, rfl, by simpa [State.setReader] using ha⟩))
    · exact Or.inl (by simp [State.setReader, Function.update_of_ne hij])

/-- The part of the invariant that does not need the calls to look first. -/
theorem effect_inv {B : Backend} {s s' : State α n} {a : Label α n}
    (hI : ∀ i, ReaderInv s (s.readers i)) (hok : ExpiredInPlace s a)
    (h : effect B s a = some s') (i : Fin n) :
    (s'.readers i).endTS ≤ s'.epoch ∧ PcInv s'.useCount s'.epoch (s'.readers i) := by
  obtain ⟨he, hc⟩ := effect_shared h
  have hi := hI i
  rcases effect_readers h i with hr | ⟨hin, hep, hr⟩ | ⟨hpc, hts⟩ | ⟨slot, rfl, hep, ha⟩
  · rw [hr]
    exact ⟨hi.slot.trans he, hi.pc.mono rfl (List.Subset.refl _) he (hc i)⟩
  · rw [hr]
    exact ⟨he, hi.pc.mono rfl (List.Subset.refl _) he (hc i)⟩
  · refine ⟨hts ▸ hi.slot.trans he, ?_⟩
    unfold PcInv
    rw [hpc]
    trivial
  · rw [hep]
    refine hi.access ha fun p hp h0 => ?_
    simp only [ExpiredInPlace, hp] at hok
    exact hok h0

theorem observe_inv {s : State α n} (i : Fin n)
    (h : (s.readers i).endTS ≤ s.epoch ∧ PcInv s.useCount s.epoch (s.readers i)) :
    ReaderInv (observe s) ((observe s).readers i) := by
  have hview : (observe s).view = s.view := rfl
  cases hin : (s.readers i).inCall with
  | false =>
    have hr : (observe s).readers i = s.readers i := by simp [observe, hin]
    rw [hr]
    refine ⟨h.1, fun hc => ?_, h.2⟩
    rw [hin] at hc
    cases hc
  | true =>
    have hr : (observe s).readers i =
        { s.readers i with seen := s.view :: (s.readers i).seen } := by
      simp [observe, hin]
    rw [hr]
    refine ⟨h.1, fun _ => List.mem_cons_self, ?_⟩
    exact h.2.mono rfl (List.subset_cons_self _ _) (le_refl _) fun _ _ hp => hp

omit [DecidableEq α] in
theorem ReaderInv.seen_result {s : State α n} {r : Reader α} {result : Option α}
    (h : ReaderInv s r) (hd : r.pc = .done result) : result ∈ r.seen := by
  have := h.pc
  unfold PcInv at this
  rwa [hd] at this

theorem reach_inv (B : Backend) {s : State α n}
    (h : ((machine B α n).restrict ExpiredInPlace).Reach s) (i : Fin n) :
    ReaderInv s (s.readers i) := by
  refine Machine.Reach.invariant (I := fun s => ∀ i, ReaderInv s (s.readers i)) ?_ ?_ h i
  · intro s h0 i
    refine ⟨(h0 i).2, fun hin => ?_, ?_⟩
    · simp [Reader.inCall, (h0 i).1] at hin
    · unfold PcInv
      rw [(h0 i).1]
      trivial
  · intro s a s' hI hn i
    obtain ⟨hok, hn⟩ := Machine.restrict_next.mp hn
    obtain ⟨t, ht, rfl⟩ := Option.map_eq_some_iff.mp hn
    exact observe_inv i (effect_inv hI hok ht i)

/-- In every run whose expiry checks meet the condition, every call that has returned
returned what the location offered at some instant of the call. -/
theorem getSnapshot_linearizable (B : Backend) {s : State α n}
    (h : ((machine B α n).restrict ExpiredInPlace).Reach s) (i : Fin n) (result : Option α)
    (hd : (s.readers i).pc = .done result) : result ∈ (s.readers i).seen :=
  (reach_inv B h i).seen_result hd

/-! ## Hazard pointers need no condition -/

/-- The points a call passes with hazard pointers. -/
def Pc.ofHp : Pc α → Bool
  | .load => false
  | .ibrSlot => false
  | .ibrLoad _ => false
  | .ibrEpoch _ _ => false
  | .ibrExchange _ => false
  | .expiryCheck _ => false
  | _ => true

theorem access_ofHp {slot : Bool} {s : State α n} {r r' : Reader α} {useCount : α → Nat}
    (ha : access .hp slot s r = some (useCount, r')) (h : r.pc.ofHp = true) :
    r'.pc.ofHp = true := by
  obtain ⟨pc, endTS, seen⟩ := r
  have hp : ∀ v : Option α, (protectedPc v).ofHp = true := by
    intro v
    cases v <;> rfl
  cases pc with
  | hpLoad sl =>
    cases sl with
    | true =>
      simp only [access] at ha
      split at ha <;> cases ha <;> rfl
    | false => cases ha; rfl
  | _ =>
    simp only [Pc.ofHp, Bool.false_eq_true] at h
    all_goals simp only [access, reduceCtorEq] at ha
    all_goals repeat' split at ha
    all_goals simp only [Option.some.injEq, Prod.mk.injEq] at ha
    all_goals obtain ⟨_, rfl⟩ := ha
    all_goals first | rfl | exact hp _

/-- With hazard pointers every run meets the condition. -/
theorem reach_hp {s : State α n} (h : (machine .hp α n).Reach s) :
    ((machine .hp α n).restrict ExpiredInPlace).Reach s ∧ ∀ i, (s.readers i).pc.ofHp = true := by
  induction h with
  | init h0 =>
    refine ⟨.init h0, fun i => ?_⟩
    rw [(h0 i).1]
    rfl
  | @step s s' a hr hn ih =>
    obtain ⟨ihr, ihp⟩ := ih
    have hok : ExpiredInPlace s a := by
      unfold ExpiredInPlace
      split
      · rename_i i slot
        split
        · rename_i p hpc
          have := ihp i
          rw [hpc] at this
          cases this
        · trivial
      · trivial
    refine ⟨ihr.step a (Machine.restrict_next.mpr ⟨hok, hn⟩), fun i => ?_⟩
    obtain ⟨t, ht, rfl⟩ := Option.map_eq_some_iff.mp hn
    have hobs : ((observe t).readers i).pc = (t.readers i).pc := by
      simp only [observe]
      split <;> rfl
    rw [hobs]
    rcases effect_readers ht i with hr | ⟨_, _, hr⟩ | ⟨hpc, _⟩ | ⟨slot, _, _, ha⟩
    · rw [hr]; exact ihp i
    · rw [hr]; exact ihp i
    · rw [hpc]; rfl
    · exact access_ofHp ha (ihp i)

theorem getSnapshot_linearizable_hp {s : State α n} (h : (machine .hp α n).Reach s) (i : Fin n)
    (result : Option α) (hd : (s.readers i).pc = .done result) :
    result ∈ (s.readers i).seen := by
  have hI := reach_inv .hp (reach_hp h).1 i
  exact hI.seen_result hd

end Model

/-! ## Two runs -/

/-- One thread; the location holds a weak reference to object `0`, and both objects have
one strong reference. -/
def oneReader : State Nat 1 where
  loc := some 0
  useCount _ := 1
  epoch := 0
  readers _ := ⟨.idle, 0, []⟩

/-- A call that finds object `0` live, with epochs. -/
def liveRun : List (Label Nat 1) :=
  [.call 0, .step 0 true, .step 0 true, .step 0 true, .step 0 true]

theorem getSnapshot_linearizable_live :
    ∃ s, ((machine .ebr Nat 1).restrict ExpiredInPlace).Reach s ∧
      (s.readers 0).pc = .done (some 0) ∧ some 0 ∈ (s.readers 0).seen := by
  have he : ∃ s, ((machine .ebr Nat 1).restrict ExpiredInPlace).exec liveRun oneReader = some s ∧
      (s.readers 0).pc = .done (some 0) := ⟨_, rfl, rfl⟩
  obtain ⟨s, he, hd⟩ := he
  have hr := (Machine.Reach.init fun i => ⟨rfl, le_refl _⟩).exec he
  exact ⟨s, hr, hd, getSnapshot_linearizable .ebr hr 0 _ hd⟩

/-- The call loads object `0`; then object `1` is stored in the location and the last
strong reference to object `0` dropped; then the call finds the use count zero. -/
def replacedRun : List (Label Nat 1) :=
  [.call 0, .step 0 true, .step 0 true, .store (some 1), .dropStrong 0, .step 0 true]

/-- Null is returned though the location held a live object all the time. -/
theorem getSnapshot_not_linearizable : ¬ ∀ (B : Backend) (s : State Nat 1),
    (machine B Nat 1).Reach s → ∀ (i : Fin 1) (result : Option Nat),
      (s.readers i).pc = .done result → result ∈ (s.readers i).seen := by
  intro hall
  have he : ∃ s, (machine .ebr Nat 1).exec replacedRun oneReader = some s ∧
      (s.readers 0).pc = .done none ∧ none ∉ (s.readers 0).seen := ⟨_, rfl, rfl, by decide⟩
  obtain ⟨s, he, hd, hn⟩ := he
  have hr := (Machine.Reach.init fun i => ⟨rfl, le_refl _⟩).exec he
  exact hn (hall .ebr s hr 0 none hd)

end Cdrc.AtomicWeakPtr
