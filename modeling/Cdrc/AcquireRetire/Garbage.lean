import Mathlib.Algebra.BigOperators.Ring.Finset
import Mathlib.Algebra.Order.BigOperators.Group.Finset
import Cdrc.AcquireRetire.Pass

/-! # How long the list of a thread gets

`amortized_work` counts the entries retired since the last pass began, and a `retire`
that leaves the thread outside a pass leaves the count below the threshold. So the list
has what the last pass kept and fewer than the threshold of new entries.

The count is an `unsigned int`, the threshold a `size_t`. With a threshold from `2 ^ 32`
on the count wraps around below it, and there is never a pass. -/
namespace Cdrc.AcquireRetire.Retire
open Cdrc.Lib.Runs Cdrc.CountedObject

variable {α : Type} [DecidableEq α]

/-! ## What a pass can keep -/

/-- What is left of the budgets of the pointers in `D`. -/
def allowance (D : Finset α) (c : α → RetireType → Nat) : Nat :=
  ∑ p ∈ D, (c p .decrementStrongCount + c p .decrementWeakCount + c p .dispose)

theorem allowance_spend {D : Finset α} {c : α → RetireType → Nat} {x : Entry α} (hx : x.obj ∈ D)
    (hc : c x.obj x.type ≠ 0) : allowance D (spend c x) + 1 = allowance D c := by
  rw [allowance, allowance, ← Finset.add_sum_erase D _ hx, ← Finset.add_sum_erase D _ hx]
  have hrest : ∑ p ∈ D.erase x.obj, (spend c x p .decrementStrongCount +
      spend c x p .decrementWeakCount + spend c x p .dispose) = ∑ p ∈ D.erase x.obj,
      (c p .decrementStrongCount + c p .decrementWeakCount + c p .dispose) := by
    refine Finset.sum_congr rfl fun p hp => ?_
    simp [spend, Finset.ne_of_mem_erase hp]
  rw [hrest]
  obtain ⟨id, obj, type, birthTS, retireTS⟩ := x
  cases type <;> simp only [spend, true_and, reduceCtorEq, and_false, if_true, if_false] at hc ⊢ <;>
    omega

theorem sieve_length_le {D : Finset α} {c : α → RetireType → Nat}
    (hD : ∀ p type, c p type ≠ 0 → p ∈ D) (L : List (Entry α)) :
    ((Announced.counts c).sieve L).2.length ≤ allowance D c := by
  induction L generalizing c with
  | nil => simp [Announced.sieve]
  | cons x L ih =>
    rw [sieve_counts_cons]
    split
    · exact ih hD
    · rename_i hc
      have hrest : ((Announced.counts (spend c x)).sieve L).2.length ≤ allowance D (spend c x) := by
        refine ih fun p type hp => hD p type fun h0 => hp ?_
        simp only [spend, h0]
        split <;> rfl
      have := allowance_spend (hD _ _ hc) hc
      rw [List.length_cons]
      omega

/-- Three types of actions, and at most one more than the announcements of each pointer. -/
theorem allowance_budget (l : List α) :
    allowance l.toFinset (fun p _ => budget l p) ≤ 6 * l.length := by
  have hle : ∀ p ∈ l.toFinset, budget l p + budget l p + budget l p ≤ 6 * l.count p := by
    intro p hp
    have hpos : 0 < l.count p := List.count_pos_iff.mpr (List.mem_toFinset.mp hp)
    rw [budget, if_neg (by omega)]
    omega
  calc allowance l.toFinset (fun p _ => budget l p)
      ≤ ∑ p ∈ l.toFinset, 6 * l.count p := Finset.sum_le_sum hle
    _ = 6 * l.length := by
      rw [← Finset.mul_sum]
      congr 1
      simp

theorem kept_length_le (l : List α) (L : List (Entry α)) :
    ((Scan.slots l).announced.sieve L).2.length ≤ 6 * l.length := by
  rw [announced_slots]
  refine (sieve_length_le (D := l.toFinset) (fun p _ hp => ?_) L).trans (allowance_budget l)
  rw [List.mem_toFinset, ← List.count_pos_iff]
  by_contra h0
  exact hp (by rw [budget, if_pos (by omega)])

/-! ## The machine with its counter -/

structure Params where
  numThreads : Nat
  snapshotSlots : Nat
  ejectDelay : Nat
  deriving DecidableEq, Repr

def Params.config (P : Params) : Config := ⟨P.numThreads, P.ejectDelay⟩

/-- The number of announcement slots that a scan reads. -/
def Params.slots (P : Params) : Nat := (P.snapshotSlots + 1) * P.numThreads

def Frame.start : Frame α → Option Nat
  | .pass _ _ _ start => some start
  | _ => none

/-- A scan finds at most one pointer in each slot, and inside one pass there are fewer
than `2 ^ 32` retires. -/
def Admissible (P : Params) (s : State α) : Label α → Prop
  | .retire _ _ _ _ =>
    ∀ f ∈ s.stack, ∀ start ∈ f.start, s.retired.length + 1 < start + uintRange
  | .run (.slots l) => l.length ≤ P.slots
  | .run _ => False

instance (P : Params) (s : State α) (a : Label α) : Decidable (Admissible P s a) :=
  match a with
  | .retire _ _ _ _ => inferInstanceAs (Decidable (∀ f ∈ s.stack, ∀ start ∈ f.start, _))
  | .run (.slots l) => inferInstanceAs (Decidable (l.length ≤ P.slots))
  | .run (.epochs _) => inferInstanceAs (Decidable False)
  | .run (.intervals _) => inferInstanceAs (Decidable False)

def garbageMachine (α : Type) [DecidableEq α] (P : Params) : Machine (State α) (Label α) :=
  (machine α P.config).restrict (Admissible P)

/-! ## The invariant -/

/-- Where the thread is, and how long its list is. -/
inductive Bounded (P : Params) (s : State α) : Prop
  | outside (stack : s.stack = []) (inProgress : s.inProgress = false)
      (work : s.work < P.config.threshold) (length : s.deferred.length ≤ 6 * P.slots + s.work)
  | testing (stack : s.stack = [.work]) (inProgress : s.inProgress = false)
      (length : s.deferred.length ≤ 6 * P.slots + s.work)
  | passing (s₀ : State α) (l : List α) (gs : List (Frame α)) (todo kept : List (Entry α))
      (a : Announced α) (E R : List (Entry α))
      (pass : PassInv s₀ (Scan.slots l).announced s₀.deferred [.work] s gs todo kept a E R) (slots : l.length ≤ P.slots)
      (work : s.work = R.length)

section Steps
variable {P : Params} {s s' : State α}

theorem run_work {cfg : Config} {scan : Scan α} (hp : s.inProgress = true)
    (hn : run cfg s scan s.stack = some s') : s'.work = s.work := by
  unfold run at hn
  split at hn
  · cases hn
  · rw [hp] at hn
    cases hn
    rfl
  · cases hn
    rfl
  · split at hn <;> (cases hn; rfl)
  · cases hn
    rfl

theorem Bounded.retire (h : Bounded P s) (ht : P.config.threshold < uintRange) {obj : α}
    {type : RetireType} {birthTS epoch : Nat} (hc : mayCall s.stack = true)
    (ha : Admissible P s (.retire obj type birthTS epoch)) :
    Bounded P (s.retire obj type birthTS epoch) := by
  cases h with
  | outside stack inProgress work length =>
    have hmod : (s.work + 1) % uintRange = s.work + 1 := Nat.mod_eq_of_lt (by omega)
    refine .testing (by simp [State.retire, stack]) inProgress ?_
    simp only [State.retire, List.length_append, List.length_singleton, hmod]
    omega
  | testing stack inProgress length =>
    rw [stack] at hc
    cases hc
  | passing s₀ l gs todo kept a E R pass slots work =>
    have hm : .pass todo kept a s₀.retired.length ∈ s.stack := by
      rw [pass.stack]
      simp
    have hlt : s.retired.length + 1 < s₀.retired.length + uintRange := ha _ hm _ rfl
    have hR : s.retired.length = s₀.retired.length + R.length := by
      rw [pass.retired, List.length_append]
    have hmod : (s.work + 1) % uintRange = R.length + 1 := by
      rw [work, Nat.mod_eq_of_lt (by omega)]
    exact .passing s₀ l _ todo kept a E _ (pass.retire obj type birthTS epoch) slots
      (hmod.trans (by simp))

theorem Bounded.run (h : Bounded P s) {scan : Scan α} (ha : Admissible P s (.run scan))
    (hn : run P.config s scan s.stack = some s') : Bounded P s' := by
  cases h with
  | outside stack inProgress work length =>
    rw [stack] at hn
    cases hn
  | testing stack inProgress length =>
    rw [stack] at hn
    simp only [Retire.run, inProgress, Bool.not_false, Bool.true_and, decide_eq_true_eq,
      List.length_eq_zero_iff] at hn
    split at hn
    · split at hn
      · rename_i hnil
        cases hn
        exact .outside rfl rfl (threshold_pos _) (by simp [hnil])
      · cases hn
        cases scan with
        | slots l =>
          exact .passing s l [] s.deferred [] _ [] [] (passInv_begun s (.slots l) []) ha rfl
        | epochs l => cases ha
        | intervals l => cases ha
    · rename_i hw
      cases hn
      exact .outside rfl rfl (Nat.lt_of_not_le hw) length
  | passing s₀ l gs todo kept a E R pass slots work =>
    rcases pass.run hn with ⟨gs', todo', kept', a', E', pass', _⟩ | ⟨rfl, rfl, rfl⟩
    · refine .passing s₀ l gs' todo' kept' a' E' R pass' slots ?_
      rw [run_work pass.inProgress hn, work]
    · -- what the pass kept goes behind what was retired meanwhile
      have hkept : kept = ((Scan.slots l).announced.sieve s₀.deferred).2 := by
        have := congrArg Prod.snd pass.sieved
        simpa [Announced.sieve] using this
      have hlen := kept_length_le l s₀.deferred
      refine .testing rfl rfl ?_
      simp only [List.length_append, pass.deferred, work]
      rw [← hkept] at hlen
      omega

theorem reach_bounded (ht : P.config.threshold < uintRange)
    (hr : (garbageMachine α P).Reach s) : Bounded P s := by
  refine hr.invariant (I := Bounded P) ?_ ?_
  · rintro s rfl
    exact .outside rfl rfl (threshold_pos _) (by simp [State.initial])
  · intro s a s' hi hn
    obtain ⟨ha, hn⟩ := Machine.restrict_next.mp hn
    cases a with
    | retire obj type birthTS epoch =>
      simp only [machine, Retire.next] at hn
      split at hn
      · rename_i hc
        cases hn
        exact hi.retire ht hc ha
      · cases hn
    | run scan => exact hi.run ha hn

/-- With a threshold the counter does not reach, the list grows with every `retire`. -/
theorem reach_unbounded [Inhabited α] (ht : uintRange ≤ P.config.threshold) (k : Nat) :
    ∃ s : State α, (garbageMachine α P).Reach s ∧ s.stack = [] ∧ s.inProgress = false ∧
      s.work < uintRange ∧ s.deferred.length = k := by
  have hpos : 0 < uintRange := by decide
  induction k with
  | zero => exact ⟨.initial, .init rfl, rfl, rfl, hpos, rfl⟩
  | succ k ih =>
    obtain ⟨s, hr, hs, hp, hw, hk⟩ := ih
    generalize hs₁ : s.retire default .decrementStrongCount 0 0 = s₁
    have hstack : s₁.stack = [.work] := by rw [← hs₁]; simp [State.retire, hs]
    have hprog : s₁.inProgress = false := by rw [← hs₁]; exact hp
    have hwork : s₁.work < uintRange := by rw [← hs₁]; exact Nat.mod_lt _ hpos
    have hlen : s₁.deferred.length = k + 1 := by rw [← hs₁]; simp [State.retire, hk]
    have h₁ : (garbageMachine α P).Reach s₁ := by
      refine hr.step (.retire default .decrementStrongCount 0 0) (Machine.restrict_next.mpr ⟨?_, ?_⟩)
      · intro f hf
        rw [hs] at hf
        cases hf
      · simp only [machine, Retire.next, hs, mayCall, if_true, hs₁]
    refine ⟨{ s₁ with stack := [] }, h₁.step (.run (.slots [])) (Machine.restrict_next.mpr
      ⟨Nat.zero_le _, ?_⟩), rfl, hprog, hwork, hlen⟩
    have hlow : ¬ P.config.threshold ≤ s₁.work := by omega
    simp only [machine, Retire.next, hstack, Retire.run, hlow, decide_false, Bool.and_false,
      Bool.false_eq_true, if_false]

/-- The list of a thread that is not in a `retire` is bounded in every run, exactly when
the threshold is in the range of the counter. -/
theorem garbage_bounded_iff [Inhabited α] (P : Params) :
    (∀ s, (garbageMachine α P).Reach s → s.stack = [] →
      s.deferred.length ≤ 6 * (P.snapshotSlots + 1) * P.numThreads +
        max 30 (P.ejectDelay * P.numThreads) - 1) ↔
      max 30 (P.ejectDelay * P.numThreads % 2 ^ 64) < 2 ^ 32 := by
  have hth : P.config.threshold = max 30 (P.ejectDelay * P.numThreads % 2 ^ 64) := rfl
  have hslots : 6 * P.slots = 6 * (P.snapshotSlots + 1) * P.numThreads := by
    rw [Params.slots, Nat.mul_assoc]
  constructor
  · intro hall
    by_contra hge
    have hge : uintRange ≤ P.config.threshold := by
      rw [hth]
      exact Nat.le_of_not_lt hge
    obtain ⟨s, hr, hs, _, _, hk⟩ := reach_unbounded (α := α) hge
      (6 * (P.snapshotSlots + 1) * P.numThreads + max 30 (P.ejectDelay * P.numThreads))
    have := hall s hr hs
    omega
  · intro hlt s hr hs
    have hb := reach_bounded (P := P) (by rw [hth]; exact hlt) hr
    cases hb with
    | outside stack inProgress work length =>
      have hmod := Nat.mod_le (P.ejectDelay * P.numThreads) (2 ^ 64)
      rw [hth] at work
      omega
    | testing stack _ _ =>
      rw [hs] at stack
      cases stack
    | passing s₀ l gs todo kept a E R pass _ _ =>
      have hlen := congrArg List.length (hs.symm.trans pass.stack)
      simp at hlen

/-- With `eject_delay = 2 ^ 32` and one thread, the list gets longer than that. -/
theorem garbage_unbounded : ¬ ∀ P : Params, ∀ s, (garbageMachine Nat P).Reach s → s.stack = [] →
    s.deferred.length ≤ 6 * (P.snapshotSlots + 1) * P.numThreads +
      max 30 (P.ejectDelay * P.numThreads) - 1 := by
  intro hall
  obtain ⟨s, hr, hs, _, _, hk⟩ := reach_unbounded (α := Nat) (P := ⟨1, 7, 2 ^ 32⟩) (by decide)
    (48 + 2 ^ 32)
  have := hall _ s hr hs
  simp only [hk] at this
  omega

end Steps

end Cdrc.AcquireRetire.Retire
