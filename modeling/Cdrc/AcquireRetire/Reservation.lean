import Cdrc.AcquireRetire.Retire

/-! # The reservation of a copying `compare_and_swap`

A thread of `acquire_retire` has one announcement slot besides its snapshot slots. `acquire`
and `reserve` store to it, and the `acquired_pointer` that they return clears it when it is
destroyed. A copying `compare_and_swap` reserves `desired`, and between its successful
exchange and the increment it retires `expected`, which can begin a pass whose ejects run
destructors. Whatever these call on the same thread shares the slot.

The model is one thread: the deferred list and the passes are those of `Retire`, and the
operations on atomic pointers stand beside the calls of the manager, each with the number of
calls below it. -/
namespace Cdrc.AcquireRetire.Reservation
open Cdrc.Lib.Runs Cdrc.CountedObject

variable {α : Type}

/-- Which of the two calls an `acquire` is made in. -/
inductive Caller
  | load
  /-- `protect_snapshot` without a free snapshot slot -/
  | protectSnapshot
  deriving DecidableEq, Repr

/-- The two classes with a copying `compare_and_swap`. -/
inductive Target
  | atomicRcPtr
  | atomicWeakPtr
  deriving DecidableEq, Repr

/-- What `compare_and_swap_impl` retires `expected` for. -/
def Target.retireType : Target → RetireType
  | .atomicRcPtr => .decrementStrongCount
  | .atomicWeakPtr => .decrementWeakCount

/-- An operation of the thread and where it is; pointers are `none` when null. -/
inductive Op (α : Type)
  /-- `acquire`, before the loop's load -/
  | acquire (caller : Caller)
  /-- `result` has been stored to the slot -/
  | announced (caller : Caller) (result : Option α)
  /-- the `acquired_pointer` exists -/
  | acquired (caller : Caller) (value : Option α)
  /-- `protect_snapshot` with a snapshot slot, before the loop's load -/
  | protect (i : Nat)
  | protecting (i : Nat) (result : α)
  /-- copying `compare_and_swap`, before the exchange -/
  | cas (target : Target) (expected desired : Option α) (reserved : Bool)
  /-- the exchange has succeeded, `desired` is not yet incremented -/
  | swapped (desired : Option α) (reserved : Bool)
  /-- only the destructor of `reservation` is left -/
  | returning (desired : Option α) (reserved : Bool)
  deriving DecidableEq, Repr

structure State (α : Type) where
  /-- `announcement_slots[id].announcement` -/
  announcement : Option α
  snapshotAnnouncements : List (Option α)
  manager : Retire.State α
  /-- innermost first, each with the number of the manager's calls below it -/
  ops : List (Op α × Nat)

def State.initial (snapshotSlots : Nat) : State α :=
  ⟨none, List.replicate snapshotSlots none, .initial, []⟩

inductive Label (α : Type)
  /-- `retire` by a `store`, a moving `compare_and_swap` or a destructor -/
  | retire (obj : α) (type : RetireType)
  /-- the innermost call of the manager goes on; `others` is what other threads announce -/
  | run (others : List α)
  /-- `load()` -/
  | load
  /-- `protect_snapshot` -/
  | getSnapshot
  /-- the pointer that the loop of `acquire` or `protect_snapshot` loads -/
  | announce (result : Option α)
  /-- whether the second load of the loop gives the same pointer -/
  | recheck (same : Bool)
  /-- the `acquired_pointer` is destroyed; `again` when the loop around it goes on -/
  | release (again : Bool)
  /-- a snapshot pointer in slot `i` is destroyed -/
  | clearSnapshot (i : Nat)
  | compareAndSwap (target : Target) (expected desired : Option α) (isProtected : Bool)
  | exchange (success : Bool)
  | increment
  /-- the destructor of `reservation` -/
  | finish
  deriving DecidableEq, Repr

/-- The innermost call of the thread is the operation on top. -/
def State.inOp (s : State α) : Option (Op α × List (Op α × Nat)) :=
  match s.ops with
  | (f, depth) :: ops => if depth = s.manager.stack.length then some (f, ops) else none
  | [] => none

/-- User code or a destructor runs. -/
def State.mayCall (s : State α) : Bool := s.inOp.isNone && Retire.mayCall s.manager.stack

def State.begin (s : State α) (f : Op α) : State α :=
  { s with ops := (f, s.manager.stack.length) :: s.ops }

def State.goOn (s : State α) (f : Op α) (ops : List (Op α × Nat)) : State α :=
  { s with ops := (f, s.manager.stack.length) :: ops }

def State.getFreeSlot (s : State α) : Option Nat := s.snapshotAnnouncements.findIdx? Option.isNone

/-- `~acquired_pointer` of one whose slot is the announcement slot, or of an empty one. -/
def State.clearProtection (s : State α) (value : Option α) (slot : Bool) : State α :=
  if value.isSome && slot then { s with announcement := none } else s

/-- What the thread's own slots hold when it scans. -/
def State.scan (s : State α) (others : List α) : Retire.Scan α :=
  .slots (s.announcement.toList ++ s.snapshotAnnouncements.filterMap id ++ others)

def next [DecidableEq α] (cfg : Retire.Config) (s : State α) : Label α → Option (State α)
  | .retire obj type =>
    if s.mayCall then some { s with manager := s.manager.retire obj type 0 0 } else none
  | .run others =>
    if s.inOp.isNone then
      (Retire.run cfg s.manager (s.scan others) s.manager.stack).map fun m => { s with manager := m }
    else none
  | .load => if s.mayCall then some (s.begin (.acquire .load)) else none
  | .getSnapshot =>
    if s.mayCall then
      match s.getFreeSlot with
      | some i => some (s.begin (.protect i))
      | none => some (s.begin (.acquire .protectSnapshot))
    else none
  | .announce result =>
    match s.inOp with
    | some (.acquire caller, ops) =>
      some (State.goOn { s with announcement := result } (.announced caller result) ops)
    | some (.protect i, ops) =>
      let s := { s with snapshotAnnouncements := s.snapshotAnnouncements.set i result }
      match result with
      | none => some { s with ops := ops }
      | some p => some (s.goOn (.protecting i p) ops)
    | _ => none
  | .recheck same =>
    match s.inOp with
    | some (.announced caller result, ops) =>
      some (s.goOn (if same then .acquired caller result else .acquire caller) ops)
    | some (.protecting i _, ops) =>
      some (if same then { s with ops := ops } else s.goOn (.protect i) ops)
    | _ => none
  | .release again =>
    match s.inOp with
    | some (.acquired caller value, ops) =>
      let s := s.clearProtection value true
      if again then
        if caller = .protectSnapshot ∧ value.isSome then some (s.goOn (.acquire caller) ops) else none
      else some { s with ops := ops }
    | _ => none
  | .clearSnapshot i =>
    if s.mayCall then
      some { s with snapshotAnnouncements := s.snapshotAnnouncements.set i none }
    else none
  | .compareAndSwap target expected desired isProtected =>
    if s.mayCall then
      let s := if isProtected then s else { s with announcement := desired }
      some (s.begin (.cas target expected desired (!isProtected)))
    else none
  | .exchange success =>
    match s.inOp with
    | some (.cas target expected desired reserved, ops) =>
      if success then
        let s := s.goOn (.swapped desired reserved) ops
        match expected with
        | none => some s
        | some p => some { s with manager := s.manager.retire p target.retireType 0 0 }
      else some (s.goOn (.returning desired reserved) ops)
    | _ => none
  | .increment =>
    match s.inOp with
    | some (.swapped desired reserved, ops) => some (s.goOn (.returning desired reserved) ops)
    | _ => none
  | .finish =>
    match s.inOp with
    | some (.returning desired reserved, ops) =>
      some { s.clearProtection desired reserved with ops := ops }
    | _ => none

def machine (α : Type) [DecidableEq α] (cfg : Retire.Config) (snapshotSlots : Nat) :
    Machine (State α) (Label α) where
  init s := s = .initial snapshotSlots
  next := next cfg

/-- The operation has swapped in the non-null `desired` that it reserved, and not yet
incremented it. -/
def Op.exposes : Op α → Bool
  | .swapped (some _) true => true
  | _ => false

/-- The announcement slot holds `desired` from the exchange to the increment. -/
def Held (s : State α) : Prop :=
  ∀ d, ∀ f ∈ s.ops, f.1 = .swapped (some d) true → s.announcement = some d

/-- The call makes use of the announcement slot. -/
def usesSlot (s : State α) : Label α → Bool
  | .load => true
  | .getSnapshot => s.getFreeSlot.isNone
  | .compareAndSwap _ _ _ isProtected => !isProtected
  | _ => false

/-- No call that uses the announcement slot is made while the increment of a `desired` that
has been reserved and swapped in is outstanding. -/
def SlotFree (s : State α) (a : Label α) : Prop :=
  usesSlot s a = true → ∀ f ∈ s.ops, f.1.exposes = false

instance (s : State α) (a : Label α) : Decidable (SlotFree s a) :=
  inferInstanceAs (Decidable (_ → _))

/-! ## The invariant -/

/-- The operation will store to the announcement slot again. -/
def Op.owns : Op α → Bool
  | .acquire _ => true
  | .announced _ _ => true
  | .acquired _ _ => true
  | .cas _ _ (some _) reserved => reserved
  | .swapped (some _) reserved => reserved
  | .returning (some _) reserved => reserved
  | _ => false

/-- What the operation has reserved, up to the increment. -/
def Op.reservation : Op α → Option α
  | .cas _ _ desired true => desired
  | .swapped desired true => desired
  | _ => none

structure Inv (s : State α) : Prop where
  /-- one owner of the slot at a time -/
  owner : s.ops.Pairwise fun f g => ¬ (f.1.owns = true ∧ g.1.owns = true)
  nested : s.ops.Pairwise fun f g => g.2 < f.2
  /-- only a `compare_and_swap` in its retire has other calls inside -/
  outer : ∀ f ∈ s.ops, f.2 = s.manager.stack.length ∨
    f.2 < s.manager.stack.length ∧ ∃ desired reserved, f.1 = .swapped desired reserved
  reserved : ∀ f ∈ s.ops, ∀ d ∈ f.1.reservation, s.announcement = some d

section Steps
variable {s s' : State α} {f f' : Op α} {ops : List (Op α × Nat)}

theorem inOp_eq_some (h : s.inOp = some (f, ops)) : s.ops = (f, s.manager.stack.length) :: ops := by
  simp only [State.inOp] at h
  split at h
  · rename_i g depth rest hs
    split at h
    · rename_i hd
      cases h
      rw [hs, hd]
    · cases h
  · cases h

theorem owns_of_reservation {d : α} (h : d ∈ f.reservation) : f.owns = true := by
  cases f with
  | cas target expected desired reserved =>
    cases reserved with
    | true => cases h; rfl
    | false => cases h
  | swapped desired reserved =>
    cases reserved with
    | true => cases h; rfl
    | false => cases h
  | _ => cases h

theorem Inv.held (h : Inv s) : Held s := by
  intro d f hf he
  refine h.reserved f hf d ?_
  rw [he]
  rfl

/-- Outside of the operations every one of them is in its retire. -/
theorem Inv.suspended (h : Inv s) (hs : s.inOp = none) :
    ∀ f ∈ s.ops, f.2 < s.manager.stack.length ∧ ∃ desired reserved, f.1 = .swapped desired reserved := by
  intro f hf
  refine (h.outer f hf).resolve_left fun hd => ?_
  cases hops : s.ops with
  | nil =>
    rw [hops] at hf
    cases hf
  | cons g ops =>
    have hg : g.2 ≠ s.manager.stack.length := by
      intro hg
      simp [State.inOp, hops, hg] at hs
    have hn := h.nested
    rw [hops] at hf hn
    rcases List.mem_cons.mp hf with rfl | hf
    · exact hg hd
    · have hlt := (List.pairwise_cons.mp hn).1 f hf
      have := h.outer g (by rw [hops]; exact List.mem_cons_self)
      omega

/-- The innermost operation is left, and has stored to the slot only if it owns it. -/
theorem Inv.pop (h : Inv s) (hs : s.inOp = some (f, ops)) (p : Option α)
    (hp : p = s.announcement ∨ f.owns = true) : Inv { s with announcement := p, ops := ops } := by
  have hops := inOp_eq_some hs
  have howner := h.owner
  have hnested := h.nested
  rw [hops, List.pairwise_cons] at howner hnested
  have hmem : ∀ g ∈ ops, g ∈ s.ops := fun g hg => by rw [hops]; exact List.mem_cons_of_mem _ hg
  refine ⟨howner.2, hnested.2, fun g hg => h.outer g (hmem g hg), fun g hg d hd => ?_⟩
  rcases hp with rfl | hf
  · exact h.reserved g (hmem g hg) d hd
  · exact (howner.1 g hg ⟨hf, owns_of_reservation hd⟩).elim

/-- An operation that stands on its own level, above suspended ones. -/
theorem Inv.push (h : Inv s) (hs : ∀ g ∈ s.ops, g.2 < s.manager.stack.length) (f : Op α)
    (hown : f.owns = true → ∀ g ∈ s.ops, g.1.owns = false)
    (hres : ∀ d ∈ f.reservation, s.announcement = some d) : Inv (s.begin f) where
  owner := by
    refine List.pairwise_cons.mpr ⟨fun g hg => ?_, h.owner⟩
    rintro ⟨hf, hgo⟩
    rw [hown hf g hg] at hgo
    cases hgo
  nested := List.pairwise_cons.mpr ⟨fun g hg => hs g hg, h.nested⟩
  outer := by
    intro g hg
    rcases List.mem_cons.mp hg with rfl | hg
    · exact .inl rfl
    · exact h.outer g hg
  reserved := by
    intro g hg d hd
    rcases List.mem_cons.mp hg with rfl | hg
    · exact hres d hd
    · exact h.reserved g hg d hd

/-- The innermost operation goes on. -/
theorem Inv.goOn (h : Inv s) (hs : s.inOp = some (f, ops)) (f' : Op α) (p : Option α)
    (hp : p = s.announcement ∨ f.owns = true) (hown : f'.owns = true → f.owns = true)
    (hres : ∀ d ∈ f'.reservation, p = some d) :
    Inv (State.goOn { s with announcement := p } f' ops) := by
  have hops := inOp_eq_some hs
  have howner := h.owner
  have hnested := h.nested
  rw [hops, List.pairwise_cons] at howner hnested
  refine (h.pop hs p hp).push (fun g hg => hnested.1 g hg) f' (fun hf g hg => ?_) hres
  have := howner.1 g hg
  simp only [hown hf, true_and, Bool.not_eq_true] at this
  exact this

/-- The manager's calls come and go above the suspended operations. -/
theorem Inv.manage (h : Inv s) (m : Retire.State α)
    (hm : ∀ g ∈ s.ops, g.2 ≤ m.stack.length ∧ ∃ desired reserved, g.1 = .swapped desired reserved) :
    Inv { s with manager := m } := by
  refine ⟨h.owner, h.nested, fun g hg => ?_, h.reserved⟩
  obtain ⟨hle, hsw⟩ := hm g hg
  rcases Nat.eq_or_lt_of_le hle with heq | hlt
  · exact .inl heq
  · exact .inr ⟨hlt, hsw⟩

theorem Inv.snapshots (h : Inv s) (l : List (Option α)) : Inv { s with snapshotAnnouncements := l } :=
  ⟨h.owner, h.nested, h.outer, h.reserved⟩

theorem inOp_of_mayCall (h : s.mayCall = true) : s.inOp = none := by
  simp only [State.mayCall, Bool.and_eq_true, Option.isNone_iff_eq_none] at h
  exact h.1

/-- What a call of user code needs for its operation to begin. -/
theorem Inv.call (h : Inv s) (hc : s.mayCall = true) (f : Op α)
    (hfree : f.owns = true → ∀ g ∈ s.ops, g.1.exposes = false)
    (hres : ∀ d ∈ f.reservation, s.announcement = some d) : Inv (s.begin f) := by
  have hsusp := h.suspended (inOp_of_mayCall hc)
  refine h.push (fun g hg => (hsusp g hg).1) f (fun hf g hg => ?_) hres
  obtain ⟨desired, reserved, hg'⟩ := (hsusp g hg).2
  have := hfree hf g hg
  rw [hg'] at this ⊢
  cases desired <;> cases reserved <;> first | rfl | cases this

theorem run_length [DecidableEq α] {cfg : Retire.Config} {m m' : Retire.State α}
    {scan : Retire.Scan α} (h : Retire.run cfg m scan m.stack = some m') :
    m.stack.length ≤ m'.stack.length + 1 := by
  unfold Retire.run at h
  split at h
  · cases h
  · rename_i fs hs
    split at h
    · split at h <;> (cases h; simp [hs])
    · cases h
      simp [hs]
  · rename_i hs
    cases h
    simp [hs]
  · rename_i hs
    split at h <;> (cases h; simp [hs])
  · rename_i hs
    cases h
    simp [hs]

theorem clearProtection_eq (s : State α) (value : Option α) (slot : Bool) :
    s.clearProtection value slot =
      { s with announcement := if value.isSome && slot then none else s.announcement } := by
  rw [State.clearProtection]
  split <;> rfl

theorem Inv.announce (h : Inv s) (result : Option α) [DecidableEq α] {cfg : Retire.Config}
    (hn : next cfg s (.announce result) = some s') : Inv s' := by
  simp only [next] at hn
  split at hn
  · rename_i caller ops hs
    cases hn
    exact h.goOn hs (.announced caller result) result (.inr rfl) (fun _ => rfl) (by intro d hd; cases hd)
  · rename_i i ops hs
    have hsnap := h.snapshots (s.snapshotAnnouncements.set i result)
    split at hn
    · cases hn
      exact hsnap.pop hs s.announcement (.inl rfl)
    · rename_i p
      cases hn
      exact hsnap.goOn hs (.protecting i p) s.announcement (.inl rfl) (by intro hf; cases hf)
        (by intro d hd; cases hd)
  · cases hn

theorem Inv.recheck (h : Inv s) (same : Bool) [DecidableEq α] {cfg : Retire.Config}
    (hn : next cfg s (.recheck same) = some s') : Inv s' := by
  simp only [next] at hn
  split at hn
  · rename_i caller result ops hs
    cases hn
    refine h.goOn hs _ s.announcement (.inl rfl) (fun _ => rfl) ?_
    cases same <;> (intro d hd; cases hd)
  · rename_i i result ops hs
    cases hn
    cases same with
    | true => exact h.pop hs s.announcement (.inl rfl)
    | false =>
      exact h.goOn hs (.protect i) s.announcement (.inl rfl) (by intro hf; cases hf)
        (by intro d hd; cases hd)
  · cases hn

theorem Inv.release (h : Inv s) (again : Bool) [DecidableEq α] {cfg : Retire.Config}
    (hn : next cfg s (.release again) = some s') : Inv s' := by
  simp only [next] at hn
  split at hn
  · rename_i caller value ops hs
    rw [clearProtection_eq] at hn
    split at hn
    · split at hn
      · cases hn
        exact h.goOn hs (.acquire caller) _ (.inr rfl) (fun _ => rfl) (by intro d hd; cases hd)
      · cases hn
    · cases hn
      exact h.pop hs _ (.inr rfl)
  · cases hn

theorem Inv.compareAndSwap (h : Inv s) {target : Target} {expected desired : Option α}
    {isProtected : Bool} (hok : SlotFree s (.compareAndSwap target expected desired isProtected))
    [DecidableEq α] {cfg : Retire.Config}
    (hn : next cfg s (.compareAndSwap target expected desired isProtected) = some s') : Inv s' := by
  simp only [next] at hn
  split at hn
  · rename_i hc
    cases hn
    cases isProtected with
    | true =>
      refine h.call hc _ (fun hf => ?_) (by intro d hd; cases hd)
      cases desired <;> cases hf
    | false =>
      have hsusp := h.suspended (inOp_of_mayCall hc)
      -- nothing suspended has a reservation of its own in the slot
      have hinv : Inv { s with announcement := desired } := by
        refine ⟨h.owner, h.nested, h.outer, fun g hg d hd => ?_⟩
        obtain ⟨desired', reserved, hg'⟩ := (hsusp g hg).2
        have hexp := hok rfl g hg
        rw [hg'] at hd hexp
        cases reserved with
        | true =>
          obtain rfl : desired' = some d := hd
          cases hexp
        | false => cases hd
      refine hinv.call hc _ (fun _ => hok rfl) (fun d hd => ?_)
      exact hd
  · cases hn

theorem Inv.exchange (h : Inv s) (success : Bool) [DecidableEq α] {cfg : Retire.Config}
    (hn : next cfg s (.exchange success) = some s') : Inv s' := by
  simp only [next] at hn
  split at hn
  · rename_i target expected desired reserved ops hs
    have hops := inOp_eq_some hs
    split at hn
    · have hgo : Inv (s.goOn (.swapped desired reserved) ops) := by
        refine h.goOn hs _ s.announcement (.inl rfl) (fun hf => ?_) (fun d hd => ?_)
        · cases desired with
          | none => cases hf
          | some d => exact hf
        · refine h.reserved (.cas target expected desired reserved, s.manager.stack.length) (by rw [hops]; simp) d ?_
          cases reserved with
          | true => exact hd
          | false => cases hd
      split at hn
      · cases hn
        exact hgo
      · cases hn
        refine hgo.manage _ fun g hg => ?_
        rcases List.mem_cons.mp hg with rfl | hg
        · exact ⟨by simp [State.goOn, Retire.State.retire], desired, reserved, rfl⟩
        · have hnested := h.nested
          rw [hops, List.pairwise_cons] at hnested
          have hlt := hnested.1 g hg
          have hout := (h.outer g (by rw [hops]; exact List.mem_cons_of_mem _ hg)).resolve_left
            (by simp only at hlt; omega)
          exact ⟨by simp only [State.goOn, Retire.State.retire, List.length_cons]; omega, hout.2⟩
    · cases hn
      refine h.goOn hs _ s.announcement (.inl rfl) (fun hf => ?_) (by intro d hd; cases hd)
      cases desired with
      | none => cases hf
      | some d => exact hf
  · cases hn

theorem Inv.next [DecidableEq α] {cfg : Retire.Config} (h : Inv s) {a : Label α} (hok : SlotFree s a)
    (hn : next cfg s a = some s') : Inv s' := by
  cases a with
  | retire obj type =>
    simp only [Reservation.next] at hn
    split at hn
    · rename_i hc
      cases hn
      refine h.manage _ fun g hg => ?_
      have hsusp := h.suspended (inOp_of_mayCall hc) g hg
      exact ⟨by simp only [Retire.State.retire, List.length_cons]; omega, hsusp.2⟩
    · cases hn
  | run others =>
    simp only [Reservation.next] at hn
    split at hn
    · rename_i hc
      obtain ⟨m, hm, rfl⟩ := Option.map_eq_some_iff.mp hn
      have hlen := run_length hm
      refine h.manage _ fun g hg => ?_
      have hsusp := h.suspended (Option.isNone_iff_eq_none.mp hc) g hg
      exact ⟨by omega, hsusp.2⟩
    · cases hn
  | load =>
    simp only [Reservation.next] at hn
    split at hn
    · rename_i hc
      cases hn
      exact h.call hc _ (fun _ => hok rfl) (by intro d hd; cases hd)
    · cases hn
  | getSnapshot =>
    simp only [Reservation.next] at hn
    split at hn
    · rename_i hc
      split at hn
      · cases hn
        exact h.call hc _ (by intro hf; cases hf) (by intro d hd; cases hd)
      · rename_i hfree
        cases hn
        exact h.call hc _ (fun _ => hok (by simp [usesSlot, hfree])) (by intro d hd; cases hd)
    · cases hn
  | announce result => exact h.announce result hn
  | recheck same => exact h.recheck same hn
  | release again => exact h.release again hn
  | clearSnapshot i =>
    simp only [Reservation.next] at hn
    split at hn
    · cases hn
      exact h.snapshots _
    · cases hn
  | compareAndSwap target expected desired isProtected => exact h.compareAndSwap hok hn
  | exchange success => exact h.exchange success hn
  | increment =>
    simp only [Reservation.next] at hn
    split at hn
    · rename_i desired reserved ops hs
      cases hn
      refine h.goOn hs _ s.announcement (.inl rfl) (fun hf => ?_) (by intro d hd; cases hd)
      cases desired with
      | none => cases hf
      | some d => exact hf
    · cases hn
  | finish =>
    simp only [Reservation.next] at hn
    split at hn
    · rename_i desired reserved ops hs
      cases hn
      rw [clearProtection_eq]
      refine h.pop hs _ ?_
      cases desired with
      | none => exact .inl rfl
      | some d =>
        cases reserved with
        | true => exact .inr rfl
        | false => exact .inl rfl
    · cases hn

theorem reach_inv [DecidableEq α] {cfg : Retire.Config} {snapshotSlots : Nat}
    (h : ((machine α cfg snapshotSlots).restrict SlotFree).Reach s) : Inv s := by
  refine h.invariant (I := Inv) ?_ ?_
  · rintro s rfl
    exact ⟨.nil, .nil, (by intro f hf; cases hf), (by intro f hf; cases hf)⟩
  · intro s a s' hi hn
    obtain ⟨hok, hn⟩ := Machine.restrict_next.mp hn
    exact hi.next hok hn

/-! ## Every other call loses the reservation -/

@[simp] theorem inOp_begin (s : State α) (f : Op α) : (s.begin f).inOp = some (f, s.ops) := by
  simp [State.inOp, State.begin]

@[simp] theorem inOp_goOn (s : State α) (f : Op α) (ops : List (Op α × Nat)) :
    (s.goOn f ops).inOp = some (f, ops) := by
  simp [State.inOp, State.goOn]

theorem not_held {d : α} {g : Op α × Nat} (hg : g ∈ s.ops) (he : g.1 = .swapped (some d) true)
    (ha : s.announcement ≠ some d) : ¬ Held s :=
  fun h => ha (h d g hg he)

theorem exposes_eq {f : Op α} (h : f.exposes = true) : ∃ d, f = .swapped (some d) true := by
  cases f with
  | swapped desired reserved =>
    cases desired <;> cases reserved <;> first | exact ⟨_, rfl⟩ | cases h
  | _ => cases h

/-- The `acquire` inside can find its pointer null. -/
theorem acquire_loses [DecidableEq α] {cfg : Retire.Config} {snapshotSlots : Nat} (caller : Caller)
    {d : α} {g : Op α × Nat} (hg : g ∈ s.ops) (he : g.1 = .swapped (some d) true) :
    ∃ as t, (machine α cfg snapshotSlots).exec as (s.begin (.acquire caller)) = some t ∧ ¬ Held t := by
  refine ⟨[.announce none], _, by simp [Machine.exec, machine, next]; rfl, ?_⟩
  exact not_held (List.mem_cons_of_mem _ hg) he (by simp [State.goOn])

/-- The `reserve` inside stores another pointer, or its reservation clears the slot. -/
theorem reserve_loses [DecidableEq α] {cfg : Retire.Config} {snapshotSlots : Nat} (target : Target)
    (expected desired : Option α) {d : α} {g : Op α × Nat} (hg : g ∈ s.ops)
    (he : g.1 = .swapped (some d) true) :
    ∃ as t, (machine α cfg snapshotSlots).exec as (State.begin { s with announcement := desired }
      (.cas target expected desired true)) = some t ∧ ¬ Held t := by
  by_cases hd : desired = some d
  · subst hd
    refine ⟨[.exchange false, .finish], _, by simp [Machine.exec, machine, next]; rfl, ?_⟩
    refine not_held (by simpa using hg) he ?_
    simp [clearProtection_eq]
  · exact ⟨[], _, rfl, not_held (List.mem_cons_of_mem _ hg) he hd⟩

theorem unheld_of_not_slotFree [DecidableEq α] {cfg : Retire.Config} {snapshotSlots : Nat} {a : Label α}
    (hn : next cfg s a = some s') (hok : ¬ SlotFree s a) :
    ∃ as t, (machine α cfg snapshotSlots).exec as s' = some t ∧ ¬ Held t := by
  simp only [SlotFree, Classical.not_imp, not_forall, Bool.not_eq_false] at hok
  obtain ⟨huse, g, hg, hexp⟩ := hok
  obtain ⟨d, he⟩ := exposes_eq hexp
  cases a with
  | load =>
    simp only [next] at hn
    split at hn
    · cases hn
      exact acquire_loses .load hg he
    · cases hn
  | getSnapshot =>
    simp only [usesSlot, Option.isNone_iff_eq_none] at huse
    simp only [next, huse] at hn
    split at hn
    · cases hn
      exact acquire_loses .protectSnapshot hg he
    · cases hn
  | compareAndSwap target expected desired isProtected =>
    cases isProtected with
    | true => cases huse
    | false =>
      simp only [next] at hn
      split at hn
      · cases hn
        exact reserve_loses target expected desired hg he
      · cases hn
  | _ => cases huse

/-- As long as nothing that runs between the exchange and the increment of a copying
`compare_and_swap` uses the announcement slot, the slot holds `desired` there. Any call that
does use it can lose the reservation. -/
theorem reservation_held [DecidableEq α] {cfg : Retire.Config} {snapshotSlots : Nat}
    (h : ((machine α cfg snapshotSlots).restrict SlotFree).Reach s) :
    Held s ∧ ∀ a s', next cfg s a = some s' → ¬ SlotFree s a →
      ∃ as t, (machine α cfg snapshotSlots).exec as s' = some t ∧ ¬ Held t :=
  ⟨(reach_inv h).held, fun _ _ hn hok => unheld_of_not_slotFree hn hok⟩

end Steps

/-- One retire short of a pass. -/
def warmUp : List (Label Nat) :=
  (List.range 29).flatMap fun i => [.retire i .decrementStrongCount, .run []]

/-- A copying `compare_and_swap` whose retire begins a pass, up to the destructor that the
first eject runs. -/
def casInPass : List (Label Nat) :=
  warmUp ++ [.compareAndSwap .atomicRcPtr (some 100) (some 200) false, .exchange true, .run [], .run []]

/-- The destructor takes a snapshot and clears an `atomic_rc_ptr`. -/
def snapshotInDestructor : List (Label Nat) :=
  casInPass ++ [.getSnapshot, .announce (some 300), .recheck true, .retire 300 .decrementStrongCount, .run []]

theorem reservation_held_snapshot :
    ∃ s, ((machine Nat ⟨1, 1⟩ 7).restrict SlotFree).exec snapshotInDestructor (.initial 7) = some s ∧
      s.ops = [(.swapped (some 200) true, 0)] ∧ s.snapshotAnnouncements.head? = some (some 300) ∧
      Held s := by
  have hex : (((machine Nat ⟨1, 1⟩ 7).restrict SlotFree).exec snapshotInDestructor
      (.initial 7)).map (fun s => (s.ops, s.snapshotAnnouncements.head?)) =
      some ([(.swapped (some 200) true, 0)], some (some 300)) := by
    decide +kernel
  obtain ⟨s, hs, hst⟩ := Option.map_eq_some_iff.mp hex
  simp only [Prod.mk.injEq] at hst
  have h0 : ((machine Nat ⟨1, 1⟩ 7).restrict SlotFree).Reach (.initial 7) := .init rfl
  exact ⟨s, hs, hst.1, hst.2, (reservation_held (h0.exec hs)).1⟩

/-- The destructor calls `load`. -/
def loadInDestructor : List (Label Nat) := casInPass ++ [.load, .announce (some 300)]

theorem reservation_lost : ¬ ∀ s, (machine Nat ⟨1, 1⟩ 7).Reach s → Held s := by
  intro hall
  have hex : ((machine Nat ⟨1, 1⟩ 7).exec loadInDestructor (.initial 7)).map
      (fun s => (s.ops.map Prod.fst, s.announcement)) =
      some ([.announced .load (some 300), .swapped (some 200) true], some 300) := by
    decide +kernel
  obtain ⟨s, hs, hst⟩ := Option.map_eq_some_iff.mp hex
  simp only [Prod.mk.injEq] at hst
  have h0 : (machine Nat ⟨1, 1⟩ 7).Reach (.initial 7) := .init rfl
  have hm : (.swapped (some 200) true : Op Nat) ∈ s.ops.map Prod.fst := by
    rw [hst.1]
    simp
  obtain ⟨g, hg, he⟩ := List.mem_map.mp hm
  exact not_held hg he (by rw [hst.2]; decide) (hall s (h0.exec hs))

end Cdrc.AcquireRetire.Reservation
