import Mathlib.Algebra.BigOperators.Group.Finset.Basic
import Mathlib.Algebra.Group.Action.Defs
import Mathlib.Algebra.Order.BigOperators.Group.Finset
import Cdrc.Lib.Runs
import Cdrc.Lib.Objects

/-! # Lock-freedom, with a bound

Threads call an object. That no schedule keeps all of them busy for ever without a call that returns is
shown by a potential: every thread has some, at most `bound` of it, and every step pays one. A step
that makes the others start again pays for them too, out of what its own thread has put by. When a call
returns, its thread is given `bound` for the next one. So a run of many steps has many returns. -/
namespace Cdrc.Lib.Progress
open Cdrc.Lib.Runs Cdrc.Lib.History Cdrc.Lib.Objects

universe u v

/-! ## Calls that have returned -/

section Completed
variable {ι Op Ret : Type} [DecidableEq ι]

/-- The number of responses in a history. -/
def completed (hist : List (Event Op Ret)) : Nat :=
  hist.countP fun e =>
    match e with
    | .inv _ _ => false
    | .res _ _ => true

theorem completed_invoke (c : Calls ι Op Ret) (t : ι) (o : Op) :
    completed (c.invoke t o).hist = completed c.hist := by
  simp [completed, Calls.invoke, List.countP_append]

theorem completed_respond {c : Calls ι Op Ret} {t : ι} {i : Nat} {o : Op} (h : c.call t = some (i, o))
    (r : Ret) : completed (c.respond t r).hist = completed c.hist + 1 := by
  simp [completed, Calls.respond, h, List.countP_append]

end Completed

/-! ## Sums over threads in a step of one of them -/

section Sums
variable {ι : Type} [Fintype ι] [DecidableEq ι]

/-- Thread `t` has `a` less and `b` more, and the others at most `d` more. -/
theorem sum_add_le {f g : ι → Nat} (t : ι) {a b d : Nat} (ht : g t + a ≤ f t + b)
    (ho : ∀ u, u ≠ t → g u ≤ f u + d) : (∑ u, g u) + a ≤ (∑ u, f u) + b + d * Fintype.card ι := by
  have hg := Finset.add_sum_erase Finset.univ g (Finset.mem_univ t)
  have hf := Finset.add_sum_erase Finset.univ f (Finset.mem_univ t)
  have hle : (∑ u ∈ Finset.univ.erase t, g u) ≤ ∑ u ∈ Finset.univ.erase t, (f u + d) :=
    Finset.sum_le_sum fun u hu => ho u (Finset.ne_of_mem_erase hu)
  have hcard : (Finset.univ.erase t).card ≤ Fintype.card ι := Finset.card_le_univ _
  have hd := Nat.mul_le_mul_left d hcard
  rw [Finset.sum_add_distrib, Finset.sum_const, smul_eq_mul, Nat.mul_comm] at hle
  omega

/-- A step of `t` that leaves the others alone. -/
theorem sum_step {f g : ι → Nat} (t : ι) {a b : Nat} (ht : g t + a ≤ f t + b)
    (ho : ∀ u, u ≠ t → g u ≤ f u) : (∑ u, g u) + a ≤ (∑ u, f u) + b := by
  have h := sum_add_le (d := 0) t ht ho
  omega

end Sums

/-! ## Potentials -/

section Potential
variable {σ : Type u} {α : Type v} {ι : Type} [Fintype ι]

/-- A potential for the machine `M` with threads `ι`. A label costs `cost`, and `done` counts the calls
that have returned. -/
structure Potential (M : Machine σ α) (cost : α → Nat) (done : σ → Nat) (bound : Nat) (ι : Type)
    [Fintype ι] where
  inv : σ → Prop
  potential : σ → ι → Nat
  le_bound : ∀ s t, potential s t ≤ bound
  inv_next : ∀ s a s', inv s → M.next s a = some s' → inv s'
  pays : ∀ s a s', inv s → M.next s a = some s' →
    (∑ t, potential s' t) + (cost a + bound * done s) ≤ (∑ t, potential s t) + bound * done s'

variable {M : Machine σ α} {cost : α → Nat} {done : σ → Nat} {bound : Nat}

theorem Potential.exec (P : Potential M cost done bound ι) {as : List α} {s s' : σ} (h : P.inv s)
    (he : M.exec as s = some s') :
    (∑ t, P.potential s' t) + ((as.map cost).sum + bound * done s) ≤
      (∑ t, P.potential s t) + bound * done s' := by
  induction as generalizing s with
  | nil =>
    cases he
    simp
  | cons a as ih =>
    obtain ⟨s₁, hs₁, he⟩ := Option.bind_eq_some_iff.mp he
    have hstep := P.pays s a s₁ h hs₁
    have hrest := ih (P.inv_next s a s₁ h hs₁) he
    rw [List.map_cons, List.sum_cons]
    omega

/-- The steps of a run, by the calls that return in it. -/
theorem Potential.steps_le (P : Potential M cost done bound ι) {as : List α} {s s' : σ} (h : P.inv s)
    (he : M.exec as s = some s') :
    (as.map cost).sum ≤ bound * (Fintype.card ι + (done s' - done s)) := by
  have hexec := P.exec h he
  have hsum : (∑ t, P.potential s t) ≤ bound * Fintype.card ι := by
    refine (Finset.sum_le_sum fun t _ => P.le_bound s t).trans ?_
    rw [Finset.sum_const, smul_eq_mul, Nat.mul_comm, Finset.card_univ]
  rw [Nat.mul_add, Nat.mul_sub]
  omega

end Potential

end Cdrc.Lib.Progress
