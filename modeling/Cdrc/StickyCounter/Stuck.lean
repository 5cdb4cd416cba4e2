import Cdrc.StickyCounter.Calls

/-! # How long a sticky counter stays stuck

A failed `increment` leaves its addition in the word, so failed increments carry. The word
starts at `zero_flag`, or at `zero_flag | zero_pending_flag` when a `load` saw the zero
first; after `2 ^ 31`, respectively `2 ^ 30`, failed increments it is 0, which is a counter
that is about to become zero: the next `increment` succeeds. A `load` that finds the word
at 0 sets the two flags again. `Within` counts what is left. -/
namespace Cdrc.StickyCounter

variable {m : Nat}

/-- A call without interference; none performs more than three accesses. -/
def complete (x : Word m) (c : Pc m) : Word m × Pc m :=
  let a := access x c
  let b := access a.1 a.2
  access b.1 b.2

/-- A call on a counter that has reached zero. -/
inductive Attempt
  | increment
  | load
  deriving DecidableEq, Repr

def Attempt.pc : Attempt → Pc m
  | .increment => .increment 1
  | .load => .load

/-- What the call returns if the counter is stuck at zero. -/
def Attempt.refused : Attempt → Ret m
  | .increment => .bool false
  | .load => .val 0

/-- Every call of the sequence finds the counter stuck at zero. -/
def Stuck : Word m → List Attempt → Prop
  | _, [] => True
  | x, a :: as => (complete x a.pc).2 = .done a.refused ∧ Stuck (complete x a.pc).1 as

/-- The word once the counter has reached zero. -/
def reachedZero (m : Nat) (pending : Bool) : Word m :=
  if pending then zeroFlag m ||| zeroPendingFlag m else zeroFlag m

/-- How many increments it then takes to wrap the word around. -/
def headroom (m : Nat) (pending : Bool) : Nat := if pending then 2 ^ m else 2 * 2 ^ m

/-- No increment is made when the headroom `r` is used up; a load renews it then. -/
def Within (m : Nat) : Nat → List Attempt → Prop
  | _, [] => True
  | 0, .increment :: _ => False
  | r + 1, .increment :: as => Within m r as
  | 0, .load :: as => Within m (2 ^ m) as
  | r + 1, .load :: as => Within m (r + 1) as

/-- `weak_ptr::lock()`; the `rc_ptr` it returns. -/
def lock (ptr : Option Nat) (x : Word m) : Word m × Option Nat :=
  match ptr with
  | none => (x, none)
  | some p =>
    let a := complete x (Attempt.pc .increment)
    (a.1, if a.2 = .done (.bool true) then some p else none)

/-- What `k` calls of `lock()` return, one after the other. -/
def locks (ptr : Option Nat) : Nat → Word m → List (Option Nat)
  | 0, _ => []
  | k + 1, x => (lock ptr x).2 :: locks ptr k (lock ptr x).1

/-! ## One call -/

section OneCall
variable {x : Word m} {r : Nat}

/-- `r` increments are left before the word is 0. -/
def Left (x : Word m) (r : Nat) : Prop := r ≤ 2 * 2 ^ m ∧ x.toNat = (4 * 2 ^ m - r) % (4 * 2 ^ m)

theorem Left.zero (h : Left x 0) : x.toNat = 0 := by
  rw [h.2]
  simp

theorem Left.succ (h : Left x (r + 1)) : x.toNat + (r + 1) = 4 * 2 ^ m ∧ 2 * 2 ^ m ≤ x.toNat := by
  have hp : 0 < 2 ^ m := Nat.two_pow_pos m
  obtain ⟨h1, h2⟩ := h
  rw [Nat.mod_eq_of_lt (by omega)] at h2
  omega

theorem left_reachedZero (pending : Bool) : Left (reachedZero m pending) (headroom m pending) := by
  have hp : 0 < 2 ^ m := Nat.two_pow_pos m
  cases pending with
  | false =>
    refine ⟨Nat.le_refl _, ?_⟩
    simp only [reachedZero, headroom, Bool.false_eq_true, if_false, toNat_zeroFlag]
    rw [Nat.mod_eq_of_lt (by omega)]
    omega
  | true =>
    refine ⟨by simp only [headroom, if_true]; omega, ?_⟩
    simp only [reachedZero, headroom, if_true, toNat_zeroFlag_or]
    rw [Nat.mod_eq_of_lt (by omega)]
    omega

theorem increment_zero (h : Left x 0) :
    (complete x (Attempt.pc .increment)).2 = .done (.bool true) := by
  have hx := h.zero
  have hp : 0 < 2 ^ m := Nat.two_pow_pos m
  simp only [complete, Attempt.pc]
  rw [access_increment_low (by omega)]
  rfl

theorem increment_succ (h : Left x (r + 1)) :
    (complete x (Attempt.pc .increment)).2 = .done (.bool false) ∧
      Left (complete x (Attempt.pc .increment)).1 r := by
  obtain ⟨h1, h2⟩ := h.succ
  have hr := h.1
  have hp : 0 < 2 ^ m := Nat.two_pow_pos m
  simp only [complete, Attempt.pc]
  rw [access_increment_high h2]
  refine ⟨rfl, by omega, ?_⟩
  -- the last failed increment wraps the word to 0
  have hone : (1 : Word m).toNat = 1 := by simp
  simp only [access, BitVec.toNat_add, hone, two_pow_succ_succ]
  congr 1
  omega

theorem load_zero (h : Left x 0) :
    (complete x (Attempt.pc .load)).2 = .done (.val 0) ∧
      Left (complete x (Attempt.pc .load)).1 (2 ^ m) := by
  have hx := h.zero
  have hp : 0 < 2 ^ m := Nat.two_pow_pos m
  simp only [complete, Attempt.pc]
  rw [access_load_zero hx]
  simp only [access, if_pos (eq_zero_iff_toNat.mpr hx)]
  exact ⟨trivial, left_reachedZero true⟩

theorem load_succ (h : Left x (r + 1)) :
    (complete x (Attempt.pc .load)).2 = .done (.val 0) ∧
      (complete x (Attempt.pc .load)).1 = x := by
  obtain ⟨h1, h2⟩ := h.succ
  have hp : 0 < 2 ^ m := Nat.two_pow_pos m
  have hflag : x &&& zeroFlag m ≠ 0 := fun hx => by rw [and_zeroFlag] at hx; omega
  simp only [complete, Attempt.pc]
  rw [access_load_pos (by omega)]
  simp only [access, loadResult, if_pos hflag]
  exact ⟨trivial, trivial⟩

end OneCall

/-! ## Sequences of calls -/

theorem stuck_iff_within {x : Word m} {r : Nat} (h : Left x r) (calls : List Attempt) :
    Stuck x calls ↔ Within m r calls := by
  induction calls generalizing x r with
  | nil => simp only [Stuck, Within]
  | cons a as ih =>
    cases a with
    | increment =>
      cases r with
      | zero =>
        simp only [Stuck, Within, iff_false, not_and]
        intro hc
        rw [increment_zero h] at hc
        cases hc
      | succ r =>
        obtain ⟨h1, h2⟩ := increment_succ h
        simp only [Stuck, Within, Attempt.refused, h1, true_and]
        exact ih h2
    | load =>
      cases r with
      | zero =>
        obtain ⟨h1, h2⟩ := load_zero h
        simp only [Stuck, Within, Attempt.refused, h1, true_and]
        exact ih h2
      | succ r =>
        obtain ⟨h1, h2⟩ := load_succ h
        simp only [Stuck, Within, Attempt.refused, h1, h2, true_and]
        exact ih h

theorem within_replicate (r k : Nat) :
    Within m r (List.replicate k .increment) ↔ k ≤ r := by
  induction k generalizing r with
  | zero => simp [Within]
  | succ k ih =>
    cases r with
    | zero => simp [List.replicate_succ, Within]
    | succ r => simp only [List.replicate_succ, Within, ih]; omega

theorem locks_null_iff {x : Word m} {r : Nat} (h : Left x r) (p k : Nat) :
    (∀ q ∈ locks (some p) k x, q = none) ↔ k ≤ r := by
  induction k generalizing x r with
  | zero => simp [locks]
  | succ k ih =>
    cases r with
    | zero =>
      have := increment_zero h
      simp [locks, lock, this]
    | succ r =>
      obtain ⟨h1, h2⟩ := increment_succ h
      have hl : (lock (some p) x) = ((complete x (Attempt.pc .increment)).1, none) := by
        simp [lock, h1]
      simp only [locks, hl, List.mem_cons, forall_eq_or_imp, true_and, ih h2]
      omega

/-- A `StickyCounter<uint32_t>` that has reached zero refuses every call exactly as long as
no increment is made when the headroom is used up; `weak_ptr::lock()` on an expired pointer
returns null exactly for the first `2 ^ 31` (`2 ^ 30`) calls. -/
theorem stuck_while_within (pending : Bool) :
    (∀ calls, Stuck (reachedZero 30 pending) calls ↔ Within 30 (headroom 30 pending) calls) ∧
      ∀ p k, (∀ q ∈ locks (some p) k (reachedZero 30 pending), q = none) ↔
        k ≤ headroom 30 pending :=
  ⟨fun calls => stuck_iff_within (left_reachedZero pending) calls,
    fun p k => locks_null_iff (left_reachedZero pending) p k⟩

/-- One increment too many succeeds. -/
theorem not_stuck_for_ever :
    ¬ Stuck (reachedZero 30 false) (List.replicate (headroom 30 false + 1) .increment) := by
  rw [stuck_iff_within (left_reachedZero false), within_replicate]
  omega

end Cdrc.StickyCounter
