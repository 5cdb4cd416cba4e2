import Cdrc.AtomicQueue.Linearizability
import Cdrc.Lib.Progress

/-! # `atomic_queue` is lock-free

An `enqueue` starts again only when `tail` was changed after its `get_snapshot`, a `dequeue` only when
`head` was. Each of the two is changed by a `compare_and_swap` that succeeds, once in a call; that
the call has to help another one first costs it two steps and nobody else any. -/
namespace Cdrc.AtomicQueue
open Cdrc.Lib.Runs Cdrc.Lib.Progress

variable {α β : Type} [DecidableEq α] {n : Nat}

/-- The calls take steps; that they are called, and that nodes expire, is not counted. -/
def Label.cost : Label α β n → Nat
  | .call _ _ => 0
  | .step _ _ => 1
  | .expire _ => 0
  | .dispose _ => 0

/-- The steps the call has to go if nobody interferes, and six for each thread before its
`compare_and_swap`. -/
def potentialOf (head tail : α) (n : Nat) : Pc α β → Nat
  | .idle => 6 * n + 13
  | .enqNew _ => 6 * n + 9
  | .enqTail _ => 6 * n + 8
  | .enqPrev _ ltail => if tail = ltail then 6 * n + 7 else 6 * n + 13
  | .enqLprev _ ltail => if tail = ltail then 6 * n + 6 else 6 * n + 12
  | .enqCheck _ ltail _ => if tail = ltail then 6 * n + 5 else 6 * n + 11
  | .enqHelp _ ltail _ => if tail = ltail then 6 * n + 4 else 6 * n + 10
  | .enqCas _ ltail _ => if tail = ltail then 6 * n + 3 else 6 * n + 9
  | .enqStore _ _ _ => 2
  | .enqueued => 1
  | .deqHead => 6 * n + 5
  | .deqNext lhead => if head = lhead then 6 * n + 4 else 6 * n + 7
  | .deqCas lhead _ => if head = lhead then 6 * n + 3 else 6 * n + 6
  | .deqValue _ _ => 2
  | .ret _ => 1

def potential (s : State α β n) (t : Fin n) : Nat := potentialOf s.head s.tail n (s.pc t)

section Steps
variable {s s' : State α β n} {t u : Fin n} {pc : Pc α β} {d d' : Nat}
  {L : List (Lib.History.Entry (Op β) (Ret β))} {l : List (α × β)} {last : α}

theorem potential_le (s : State α β n) (t : Fin n) : potential s t ≤ 6 * n + 13 := by
  unfold potential potentialOf
  split <;> (try split) <;> omega

theorem potential_eq (hpc : s.pc t = pc) : potential s t = potentialOf s.head s.tail n pc := by
  rw [potential, hpc]

/-- A change of `head` or of `tail` costs a call at most six steps. -/
theorem potential_interfere (hpc : s'.pc u = s.pc u) : potential s' u ≤ potential s u + 6 := by
  unfold potential
  rw [hpc]
  cases s.pc u <;> simp only [potentialOf] <;> (try split) <;> (try split) <;> omega

/-- A step of `t` that changes neither `head` nor `tail`. -/
theorem pays_step (hpc : s'.pc = Function.update s.pc t pc) (hh : s'.head = s.head) (ht : s'.tail = s.tail)
    (hp : potentialOf s.head s.tail n pc + (1 + d) ≤ potential s t + d') :
    (∑ u, potential s' u) + (1 + d) ≤ (∑ u, potential s u) + d' := by
  have hof : ∀ u, potential s' u = potentialOf s.head s.tail n (Function.update s.pc t pc u) := by
    intro u
    rw [potential, hpc, hh, ht]
  refine sum_step t ?_ fun u hu => ?_
  · rw [hof, Function.update_self]
    exact hp
  · rw [hof, Function.update_of_ne hu]
    exact Nat.le_refl _

theorem pays_goes (hpc : s'.pc = Function.update s.pc t pc) (hh : s'.head = s.head) (ht : s'.tail = s.tail)
    (hp : potentialOf s.head s.tail n pc + 1 ≤ potential s t) :
    (∑ u, potential s' u) + (1 + d) ≤ (∑ u, potential s u) + d :=
  pays_step hpc hh ht (by omega)

/-- A `compare_and_swap` of `t` that succeeds. -/
theorem pays_commit (hpc : s'.pc = Function.update s.pc t pc)
    (hp : potentialOf s'.head s'.tail n pc + (1 + 6 * n) ≤ potential s t) :
    (∑ u, potential s' u) + (1 + d) ≤ (∑ u, potential s u) + d := by
  have ht : potential s' t = potentialOf s'.head s'.tail n pc := by
    rw [potential, hpc, Function.update_self]
  have h := sum_add_le (b := 0) (d := 6) t (ht ▸ hp) fun u hu =>
    potential_interfere ((congrFun hpc u).trans (Function.update_of_ne hu _ _))
  rw [Fintype.card_fin] at h
  omega

/-- A call returns: the thread has what it needs for the next one. -/
theorem Inv.pays_respond (h : Inv s L l last) {r : Ret β} (hbusy : s.pc t ≠ .idle) (ht : 1 ≤ potential s t) :
    (∑ u, potential (s.respond t r) u) + (1 + (6 * n + 13) * completed s.calls.hist) ≤
      (∑ u, potential s u) + (6 * n + 13) * completed (s.respond t r).calls.hist := by
  obtain ⟨i, o, hc, _⟩ := (h.threads t).op hbusy
  have hdone : completed (s.respond t r).calls.hist = completed s.calls.hist + 1 := completed_respond hc r
  have hpc : (s.respond t r).pc = Function.update s.pc t .idle := rfl
  refine pays_step hpc rfl rfl ?_
  rw [hdone, Nat.mul_succ]
  change 6 * n + 13 + _ ≤ _
  omega

/-- Every step pays one. -/
theorem Inv.pays [Fintype α] (h : Inv s L l last) {a : α} (hs : AtomicQueue.step s t a = some s') :
    (∑ u, potential s' u) + (1 + (6 * n + 13) * completed s.calls.hist) ≤
      (∑ u, potential s u) + (6 * n + 13) * completed s'.calls.hist := by
  cases hpc : s.pc t with
  | idle =>
    simp only [AtomicQueue.step, hpc] at hs
    cases hs
  | enqNew v =>
    simp only [AtomicQueue.step, hpc] at hs
    obtain ⟨_, hs⟩ := Option.ite_none_right_eq_some.mp hs
    cases hs
    refine pays_goes rfl rfl rfl ?_
    rw [potential_eq hpc]
    simp only [potentialOf]
    omega
  | enqTail newNode =>
    simp only [AtomicQueue.step, hpc] at hs
    cases hs
    refine pays_goes rfl rfl rfl ?_
    rw [potential_eq hpc]
    simp only [potentialOf, if_pos]
    omega
  | enqPrev newNode ltail =>
    simp only [AtomicQueue.step, hpc] at hs
    obtain ⟨nd, _, rfl⟩ := Option.map_eq_some_iff.mp hs
    refine pays_goes rfl rfl rfl ?_
    rw [potential_eq hpc]
    simp only [potentialOf]
    split <;> omega
  | enqLprev newNode ltail =>
    simp only [AtomicQueue.step, hpc] at hs
    obtain ⟨nd, _, hs⟩ := Option.map_eq_some_iff.mp hs
    split at hs
    · subst hs
      refine pays_goes rfl rfl rfl ?_
      rw [potential_eq hpc]
      simp only [potentialOf]
      split <;> omega
    · subst hs
      refine pays_goes rfl rfl rfl ?_
      rw [potential_eq hpc]
      simp only [potentialOf]
      split <;> omega
  | enqCheck newNode ltail lprev =>
    simp only [AtomicQueue.step, hpc] at hs
    obtain ⟨nd, _, hs⟩ := Option.map_eq_some_iff.mp hs
    split at hs
    · subst hs
      refine pays_goes rfl rfl rfl ?_
      rw [potential_eq hpc]
      simp only [potentialOf]
      split <;> omega
    · subst hs
      refine pays_goes rfl rfl rfl ?_
      rw [potential_eq hpc]
      simp only [potentialOf]
      split <;> omega
  | enqHelp newNode ltail lprev =>
    simp only [AtomicQueue.step, hpc] at hs
    obtain ⟨nd, _, rfl⟩ := Option.map_eq_some_iff.mp hs
    refine pays_goes rfl rfl rfl ?_
    rw [potential_eq hpc]
    simp only [potentialOf]
    split <;> omega
  | enqCas newNode ltail lprev =>
    simp only [AtomicQueue.step, hpc] at hs
    split at hs
    · next ht =>
      cases hs
      refine pays_commit rfl ?_
      rw [potential_eq hpc]
      simp only [potentialOf, if_pos ht]
      omega
    · next ht =>
      cases hs
      refine pays_goes rfl rfl rfl ?_
      rw [potential_eq hpc]
      simp only [potentialOf, if_neg ht]
      omega
  | enqStore newNode ltail lprev =>
    simp only [AtomicQueue.step, hpc] at hs
    obtain ⟨nd, _, rfl⟩ := Option.map_eq_some_iff.mp hs
    refine pays_goes rfl rfl rfl ?_
    rw [potential_eq hpc]
    simp only [potentialOf]
    omega
  | enqueued =>
    simp only [AtomicQueue.step, hpc] at hs
    cases hs
    refine h.pays_respond (by rw [hpc]; simp) ?_
    rw [potential_eq hpc]
    exact Nat.le_refl 1
  | deqHead =>
    simp only [AtomicQueue.step, hpc] at hs
    cases hs
    refine pays_goes rfl rfl rfl ?_
    rw [potential_eq hpc]
    simp only [potentialOf, if_pos]
    omega
  | deqNext lhead =>
    simp only [AtomicQueue.step, hpc] at hs
    obtain ⟨nd, _, hs⟩ := Option.map_eq_some_iff.mp hs
    split at hs
    · subst hs
      refine pays_goes rfl rfl rfl ?_
      rw [potential_eq hpc]
      simp only [potentialOf]
      split <;> omega
    · subst hs
      refine pays_goes rfl rfl rfl ?_
      rw [potential_eq hpc]
      simp only [potentialOf]
      split <;> omega
  | deqCas lhead lnext =>
    simp only [AtomicQueue.step, hpc] at hs
    split at hs
    · next hh =>
      cases hs
      refine pays_commit rfl ?_
      rw [potential_eq hpc]
      simp only [potentialOf, if_pos hh]
      omega
    · next hh =>
      cases hs
      refine pays_goes rfl rfl rfl ?_
      rw [potential_eq hpc]
      simp only [potentialOf, if_neg hh]
      omega
  | deqValue lhead lnext =>
    simp only [AtomicQueue.step, hpc] at hs
    obtain ⟨nd, _, rfl⟩ := Option.map_eq_some_iff.mp hs
    refine pays_goes rfl rfl rfl ?_
    rw [potential_eq hpc]
    simp only [potentialOf]
    omega
  | ret r =>
    simp only [AtomicQueue.step, hpc] at hs
    cases hs
    refine h.pays_respond (by rw [hpc]; simp) ?_
    rw [potential_eq hpc]
    exact Nat.le_refl 1

end Steps

/-- The potential of the queue. -/
def queuePotential (α β : Type) [DecidableEq α] [Fintype α] [Inhabited β] (n : Nat) :
    Potential (machine α β n) Label.cost (fun s => completed s.calls.hist) (6 * n + 13) (Fin n) where
  inv s := ∃ L l last, Inv s L l last
  potential := potential
  le_bound := potential_le
  inv_next := by
    rintro s a s' ⟨L, l, last, h⟩ hs
    exact h.next hs
  pays := by
    rintro s a s' ⟨L, l, last, h⟩ hs
    cases a with
    | call t o =>
      simp only [machine, next] at hs
      split at hs
      · next hpc =>
        cases hs
        have hdone : completed (s.calls.invoke t o).hist = completed s.calls.hist := completed_invoke ..
        change _ ≤ _ + (6 * n + 13) * completed (s.calls.invoke t o).hist
        rw [hdone]
        refine Nat.add_le_add ?_ (by simp [Label.cost])
        refine Finset.sum_le_sum fun u _ => ?_
        by_cases hu : u = t
        · subst hu
          refine (potential_le _ u).trans ?_
          rw [potential_eq hpc]
          exact Nat.le_refl _
        · rw [potential, potential]
          change potentialOf s.head s.tail n (Function.update s.pc t (start o) u) ≤ _
          rw [Function.update_of_ne hu]
      · cases hs
    | step t a => exact h.pays hs
    | expire a =>
      obtain ⟨_, hs⟩ := Option.ite_none_right_eq_some.mp hs
      cases hs
      refine Nat.add_le_add ?_ (by simp [Label.cost, State.setExpired])
      exact Nat.le_refl _
    | dispose a =>
      obtain ⟨_, hs⟩ := Option.ite_none_right_eq_some.mp hs
      cases hs
      refine Nat.add_le_add ?_ (by simp [Label.cost, State.setNode])
      exact Nat.le_refl _

/-- **`atomic_queue` is lock-free.** A run of any number of threads that takes more than
`(6 n + 13) (n + k)` steps has completed more than `k` calls, however they are interleaved and
whatever expires in between; a thread that stops for ever inside a call holds up nobody. -/
theorem atomicQueue_lockFree [Fintype α] [Inhabited β] {s s' : State α β n} (hr : (machine α β n).Reach s)
    {ls : List (Label α β n)} (he : (machine α β n).exec ls s = some s') :
    (ls.map Label.cost).sum ≤ (6 * n + 13) * (n + (completed s'.calls.hist - completed s.calls.hist)) := by
  have h := (queuePotential α β n).steps_le (reach_inv hr) he
  rw [Fintype.card_fin] at h
  exact h

/-- Thread 0 stops before it has linked its node; thread 1 links it and returns. -/
def overtaken : List (Label (Fin 3) Nat 2) :=
  [.call 0 (.enqueue 7), .step 0 1, .step 0 0, .step 0 0, .step 0 0, .step 0 0,
    .call 1 (.enqueue 8), .step 1 2, .step 1 0, .step 1 0, .step 1 0, .step 1 0, .step 1 0,
    .step 1 0, .step 1 0, .step 1 0]

theorem atomicQueue_lockFree_overtaken :
    ∃ s, (machine (Fin 3) Nat 2).exec overtaken (.initial 0) = some s ∧ completed s.calls.hist = 1 ∧
      (overtaken.map Label.cost).sum = 14 ∧ 14 ≤ (6 * 2 + 13) * (2 + completed s.calls.hist) := by
  have hex : ((machine (Fin 3) Nat 2).exec overtaken (.initial 0)).map
      (fun s => completed s.calls.hist) = some 1 := by
    decide +kernel
  obtain ⟨s, hs, hc⟩ := Option.map_eq_some_iff.mp hex
  have h0 : (machine (Fin 3) Nat 2).Reach (.initial 0) := .init ⟨0, rfl⟩
  exact ⟨s, hs, hc, rfl, atomicQueue_lockFree h0 hs⟩

end Cdrc.AtomicQueue
