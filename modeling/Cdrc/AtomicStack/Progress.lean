import Cdrc.AtomicStack.Linearizability
import Cdrc.Lib.Progress

/-! # `atomic_stack` is lock-free

A call starts again only when `head` was changed after it had read it, and `head` is changed by a
`compare_and_swap` that succeeds, once in a call. A call that has yet to do so has put by three steps
for each thread, which is what the others lose by it. -/
namespace Cdrc.AtomicStack
open Cdrc.Lib.Runs Cdrc.Lib.Progress

variable {α β : Type} [DecidableEq α] {n : Nat}

/-- The calls take steps; that they are called, and that memory is reclaimed, is not counted. -/
def Label.cost : Label α β n → Nat
  | .call _ _ => 0
  | .step _ _ => 1
  | .reclaim _ => 0

/-- The steps the call has to go if nobody interferes, and what it has put by. -/
def potentialOf (head : Option α) (node : α → Option (Node α β)) (n : Nat) : Pc α β → Nat
  | .idle => 3 * n + 7
  | .pushLoad _ => 3 * n + 4
  | .pushNew _ next => if head = next then 3 * n + 3 else 3 * n + 5
  | .pushCas newNode => if head = (node newNode).bind Node.next then 3 * n + 2 else 3 * n + 4
  | .pushReload _ => 3 * n + 3
  | .pushed _ => 1
  | .popSnapshot => 3 * n + 5
  | .popNext ss => if head = some ss then 3 * n + 4 else 3 * n + 7
  | .popCas ss _ => if head = some ss then 3 * n + 3 else 3 * n + 6
  | .popReload _ => 3 * n + 5
  | .frontSnapshot => 3
  | .value _ => 2
  | .ret _ => 1

def potential (s : State α β n) (t : Fin n) : Nat := potentialOf s.head s.node n (s.pc t)

section Steps
variable {s s' : State α β n} {t u : Fin n} {L : List (Lib.History.Entry (Op β) (Ret β))} {l : List (α × β)}

theorem potential_le (s : State α β n) (t : Fin n) : potential s t ≤ 3 * n + 7 := by
  unfold potential potentialOf
  split <;> (try split) <;> omega

/-- A thread that does nothing, with `head` as it is and its own node untouched. -/
theorem potential_frame (hpc : s'.pc u = s.pc u) (hh : s'.head = s.head)
    (hn : ∀ a, (s.pc u).owns a = true → s'.node a = s.node a) : potential s' u = potential s u := by
  unfold potential
  rw [hpc, hh]
  cases hp : s.pc u with
  | pushCas a =>
    have := hn a (by simp [hp, Pc.owns])
    simp only [potentialOf, this]
  | _ => rfl

/-- A change of `head` costs it at most three steps. -/
theorem potential_interfere (hpc : s'.pc u = s.pc u) (hn : s'.node = s.node) :
    potential s' u ≤ potential s u + 3 := by
  unfold potential
  rw [hpc, hn]
  cases hp : s.pc u <;> simp only [potentialOf] <;> (try split) <;> (try split) <;> omega

/-- A step of `t` that does not change `head`. -/
theorem pays_step {d d' : Nat} (hpc : ∀ u, u ≠ t → s'.pc u = s.pc u) (hh : s'.head = s.head)
    (hn : ∀ u a, u ≠ t → (s.pc u).owns a = true → s'.node a = s.node a)
    (ht : potential s' t + (1 + d) ≤ potential s t + d') :
    (∑ u, potential s' u) + (1 + d) ≤ (∑ u, potential s u) + d' :=
  sum_step t ht fun u hu => Nat.le_of_eq (potential_frame (hpc u hu) hh fun a ha => hn u a hu ha)

/-- A `compare_and_swap` of `t` that succeeds. -/
theorem pays_commit {d : Nat} (hpc : ∀ u, u ≠ t → s'.pc u = s.pc u) (hn : s'.node = s.node)
    (ht : potential s' t + (1 + 3 * n) ≤ potential s t) :
    (∑ u, potential s' u) + (1 + d) ≤ (∑ u, potential s u) + d := by
  have h := sum_add_le (b := 0) (d := 3) t ht fun u hu => potential_interfere (hpc u hu) hn
  rw [Fintype.card_fin] at h
  omega

/-- A call goes on, in the same memory. -/
theorem pays_goes {d : Nat} {pc : Pc α β} (ht : potentialOf s.head s.node n pc + 1 ≤ potential s t) :
    (∑ u, potential (s.setPc t pc) u) + (1 + d) ≤ (∑ u, potential s u) + d := by
  refine pays_step (fun u hu => setPc_of_ne s pc hu) rfl (fun _ _ _ _ => rfl) ?_
  have hself : potential (s.setPc t pc) t = potentialOf s.head s.node n pc := by
    unfold potential
    rw [setPc_self]
    rfl
  omega

/-- Thread `t` writes the node at `a`, which no other call owns. -/
theorem pays_write {d : Nat} {a : α} {nd : Node α β} (hother : ∀ u, u ≠ t → (s.pc u).owns a = false)
    (ht : (if s.head = nd.next then 3 * n + 3 else 3 * n + 5) ≤ potential s t) :
    (∑ u, potential ((s.setNode a (some nd)).setPc t (.pushCas a)) u) + (1 + d) ≤
      (∑ u, potential s u) + d := by
  refine pays_step (fun u hu => setPc_of_ne _ _ hu) rfl (fun u b hu hb => Function.update_of_ne ?_ _ _) ?_
  · rintro rfl
    rw [hother u hu] at hb
    cases hb
  · have hself : potential ((s.setNode a (some nd)).setPc t (.pushCas a)) t =
        if s.head = nd.next then 3 * n + 2 else 3 * n + 4 := by
      unfold potential
      rw [setPc_self]
      simp [potentialOf, State.setPc, State.setNode]
    rw [hself]
    split at ht <;> split <;> omega

/-- A call returns: the thread has what it needs for the next one. -/
theorem Inv.pays_respond (h : Inv s L l) {r : Ret β} (hbusy : s.pc t ≠ .idle) (ht : 1 ≤ potential s t) :
    (∑ u, potential (s.respond t r) u) + (1 + (3 * n + 7) * completed s.calls.hist) ≤
      (∑ u, potential s u) + (3 * n + 7) * completed (s.respond t r).calls.hist := by
  obtain ⟨i, o, hc, _⟩ := (h.threads t).op hbusy
  have hdone : completed (s.respond t r).calls.hist = completed s.calls.hist + 1 := completed_respond hc r
  refine pays_step (fun u hu => setPc_of_ne _ _ hu) rfl (fun _ _ _ _ => rfl) ?_
  have hself := potential_le (s.respond t r) t
  rw [hdone, Nat.mul_succ]
  omega

theorem potential_eq {pc : Pc α β} (hpc : s.pc t = pc) : potential s t = potentialOf s.head s.node n pc := by
  rw [potential, hpc]

theorem potentialOf_popFrom : potentialOf s.head s.node n (popFrom s.head) + 1 ≤ 3 * n + 5 := by
  cases s.head with
  | none => simp [popFrom, potentialOf]
  | some ss => simp [popFrom, potentialOf]

/-- Every step pays one. -/
theorem Inv.pays (h : Inv s L l) {a : α} (hs : AtomicStack.step s t a = some s') :
    (∑ u, potential s' u) + (1 + (3 * n + 7) * completed s.calls.hist) ≤
      (∑ u, potential s u) + (3 * n + 7) * completed s'.calls.hist := by
  cases hpc : s.pc t with
  | idle =>
    simp only [AtomicStack.step, hpc] at hs
    cases hs
  | pushLoad v =>
    simp only [AtomicStack.step, hpc] at hs
    cases hs
    refine pays_goes ?_
    rw [potential_eq hpc]
    simp [potentialOf]
  | pushNew v nx =>
    simp only [AtomicStack.step, hpc] at hs
    split at hs
    · next ha =>
      cases hs
      refine pays_write (fun u _ => ?_) ?_
      · cases ho : (s.pc u).owns a with
        | false => rfl
        | true =>
          obtain ⟨nd, hnd⟩ := (h.threads u).allocated a (Or.inl (owns_holds ho))
          rw [ha] at hnd
          cases hnd
      · rw [potential_eq hpc]
        exact Nat.le_refl _
    · cases hs
  | pushCas b =>
    simp only [AtomicStack.step, hpc] at hs
    obtain ⟨nd, hnd, hs⟩ := Option.map_eq_some_iff.mp hs
    have hbind : (s.node b).bind Node.next = nd.next := by rw [hnd]; rfl
    split at hs
    · next hh =>
      subst hs
      refine pays_commit (fun u hu => setPc_of_ne _ _ hu) rfl ?_
      rw [potential_eq hpc, potential_eq (setPc_self _ t _)]
      simp only [potentialOf, hbind, if_pos hh]
      omega
    · next hh =>
      subst hs
      refine pays_goes ?_
      rw [potential_eq hpc]
      simp only [potentialOf, hbind, if_neg hh]
      omega
  | pushReload b =>
    simp only [AtomicStack.step, hpc] at hs
    obtain ⟨nd, hnd, rfl⟩ := Option.map_eq_some_iff.mp hs
    have hpriv : Private s t b := (h.threads t).owned b (by simp [hpc, Pc.owns])
    refine pays_write (fun u hu => ?_) ?_
    · cases ho : (s.pc u).owns b with
      | false => rfl
      | true =>
        have := owns_holds ho
        rw [(hpriv.others u hu).1] at this
        cases this
    · rw [potential_eq hpc]
      simp [potentialOf]
  | pushed b =>
    simp only [AtomicStack.step, hpc] at hs
    cases hs
    refine h.pays_respond (by rw [hpc]; simp) ?_
    rw [potential_eq hpc]
    exact Nat.le_refl 1
  | popSnapshot =>
    simp only [AtomicStack.step, hpc] at hs
    cases hs
    refine pays_goes ?_
    rw [potential_eq hpc]
    exact potentialOf_popFrom
  | popNext ss =>
    simp only [AtomicStack.step, hpc] at hs
    obtain ⟨nd, hnd, rfl⟩ := Option.map_eq_some_iff.mp hs
    refine pays_goes ?_
    rw [potential_eq hpc]
    simp only [potentialOf]
    split <;> omega
  | popCas ss nx =>
    simp only [AtomicStack.step, hpc] at hs
    split at hs
    · next hh =>
      cases hs
      refine pays_commit (fun u hu => setPc_of_ne _ _ hu) rfl ?_
      rw [potential_eq hpc, potential_eq (setPc_self _ t _)]
      simp only [potentialOf, if_pos hh]
      omega
    · next hh =>
      cases hs
      refine pays_goes ?_
      rw [potential_eq hpc]
      simp only [potentialOf, if_neg hh]
      omega
  | popReload ss =>
    simp only [AtomicStack.step, hpc] at hs
    cases hs
    refine pays_goes ?_
    rw [potential_eq hpc]
    exact potentialOf_popFrom
  | frontSnapshot =>
    simp only [AtomicStack.step, hpc] at hs
    split at hs <;> (cases hs; refine pays_goes ?_; rw [potential_eq hpc]; simp [potentialOf])
  | value ss =>
    simp only [AtomicStack.step, hpc] at hs
    obtain ⟨nd, hnd, rfl⟩ := Option.map_eq_some_iff.mp hs
    refine pays_goes ?_
    rw [potential_eq hpc]
    simp [potentialOf]
  | ret r =>
    simp only [AtomicStack.step, hpc] at hs
    cases hs
    refine h.pays_respond (by rw [hpc]; simp) ?_
    rw [potential_eq hpc]
    exact Nat.le_refl 1

end Steps

/-- The potential of the stack. -/
def stackPotential (α β : Type) [DecidableEq α] [Fintype α] (n : Nat) :
    Potential (machine α β n) Label.cost (fun s => completed s.calls.hist) (3 * n + 7) (Fin n) where
  inv s := ∃ L l, Inv s L l
  potential := potential
  le_bound := potential_le
  inv_next := by
    rintro s a s' ⟨L, l, h⟩ hs
    exact h.next hs
  pays := by
    rintro s a s' ⟨L, l, h⟩ hs
    cases a with
    | call t o =>
      simp only [machine, next] at hs
      split at hs
      · next hpc =>
        cases hs
        have hdone : completed (s.calls.invoke t o).hist = completed s.calls.hist := completed_invoke ..
        change _ ≤ _ + (3 * n + 7) * completed (s.calls.invoke t o).hist
        rw [hdone]
        refine Nat.add_le_add ?_ (by simp [Label.cost])
        refine Finset.sum_le_sum fun u _ => ?_
        by_cases hu : u = t
        · subst hu
          refine (potential_le _ u).trans ?_
          rw [potential_eq hpc]
          exact Nat.le_refl _
        · refine Nat.le_of_eq (potential_frame (setPc_of_ne _ _ hu) rfl fun _ _ => rfl)
      · cases hs
    | step t a => exact h.pays hs
    | reclaim a =>
      obtain ⟨⟨ha, _⟩, hs⟩ := Option.ite_none_right_eq_some.mp hs
      cases hs
      refine Nat.add_le_add ?_ (by simp [Label.cost, State.setNode])
      refine Finset.sum_le_sum fun u _ => Nat.le_of_eq (potential_frame rfl rfl fun b hb => ?_)
      refine Function.update_of_ne ?_ _ _
      rintro rfl
      have hh := owns_holds hb
      rw [(strong_eq_zero ha).2.2 u] at hh
      cases hh

/-- **`atomic_stack` is lock-free.** A run of any number of threads that takes more than
`(3 n + 7) (n + k)` steps has completed more than `k` calls, however the scheduler and the
reclamation interleave them. -/
theorem atomicStack_lockFree [Fintype α] {s s' : State α β n} (hr : (machine α β n).Reach s)
    {ls : List (Label α β n)} (he : (machine α β n).exec ls s = some s') :
    (ls.map Label.cost).sum ≤ (3 * n + 7) * (n + (completed s'.calls.hist - completed s.calls.hist)) := by
  have h := (stackPotential α β n).steps_le (reach_inv hr) he
  rw [Fintype.card_fin] at h
  exact h

/-- Thread 1 pushes between two reads of `head` by thread 0, which starts again. -/
def retried : List (Label (Fin 2) Nat 2) :=
  [.call 0 (.pushFront 5), .step 0 0, .step 0 0, .call 1 (.pushFront 6), .step 1 1, .step 1 1, .step 1 1,
    .step 1 1, .step 0 0, .step 0 0, .step 0 0, .step 0 0]

theorem atomicStack_lockFree_retried :
    ∃ s, (machine (Fin 2) Nat 2).exec retried .initial = some s ∧ completed s.calls.hist = 2 ∧
      (retried.map Label.cost).sum = 10 ∧ 10 ≤ (3 * 2 + 7) * (2 + completed s.calls.hist) := by
  have he : ∃ s, (machine (Fin 2) Nat 2).exec retried .initial = some s ∧ completed s.calls.hist = 2 :=
    ⟨_, rfl, rfl⟩
  obtain ⟨s, hs, hc⟩ := he
  have h := atomicStack_lockFree (.init rfl) hs
  exact ⟨s, hs, hc, rfl, h⟩

end Cdrc.AtomicStack
