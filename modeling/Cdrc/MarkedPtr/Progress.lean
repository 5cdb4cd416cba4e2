import Cdrc.MarkedPtr.Atomic
import Cdrc.Lib.Progress

/-! # The operations of a marked location are lock-free

Only `set_mark` and `set_mark_bit` have loops. Their `compare_exchange_weak` fails when the location
was changed since it was read, or spuriously; the first happens once for each change, and a
call changes the location once. -/
namespace Cdrc.MarkedPtr.Atomic
open Cdrc.Lib.Runs Cdrc.Lib.Progress

variable {n : Nat}

/-- The calls take steps; a `compare_exchange_weak` that fails spuriously is not counted. -/
def Label.cost : Label n → Nat
  | .call _ _ => 0
  | .step _ spurious => if spurious then 0 else 1

/-- The steps the call has to go if nobody interferes, and one for each thread before it changes the
location. -/
def potentialOf (word : MarkedPtr) (n : Nat) : Pc → Nat
  | .idle => n + 5
  | .load _ => n + 3
  | .exchangeMark _ curPtr => if word = curPtr then n + 2 else n + 3
  | .setMarkIf _ _ => n + 2
  | .reserve _ _ _ => n + 5
  | .cas _ _ _ => n + 4
  | .swapped _ _ _ => 3
  | .increment _ _ => 2
  | .storeIncrement _ => n + 5
  | .exchange _ _ => n + 4
  | .exchanged _ _ => 3
  | .release _ => 2
  | .ret _ _ => 1

def potential (s : State n) (t : Fin n) : Nat := potentialOf s.word n (s.pc t)

section Steps
variable {s s' : State n} {t u : Fin n} {pc : Pc} {d d' e : Nat} {L : List (Lib.History.Entry Op Ret)}

theorem potential_le (s : State n) (t : Fin n) : potential s t ≤ n + 5 := by
  unfold potential potentialOf
  split <;> (try split) <;> omega

theorem potential_eq (hpc : s.pc t = pc) : potential s t = potentialOf s.word n pc := by
  rw [potential, hpc]

/-- A change of the location costs a call at most one step. -/
theorem potential_interfere (hpc : s'.pc u = s.pc u) : potential s' u ≤ potential s u + 1 := by
  unfold potential
  rw [hpc]
  cases s.pc u <;> simp only [potentialOf] <;> (try split) <;> (try split) <;> omega

/-- A step of `t` that does not change the location. -/
theorem pays_step (hpc : s'.pc = Function.update s.pc t pc) (hw : s'.word = s.word)
    (hp : potentialOf s.word n pc + (e + d) ≤ potential s t + d') :
    (∑ u, potential s' u) + (e + d) ≤ (∑ u, potential s u) + d' := by
  have hof : ∀ u, potential s' u = potentialOf s.word n (Function.update s.pc t pc u) := by
    intro u
    rw [potential, hpc, hw]
  refine sum_step t ?_ fun u hu => ?_
  · rw [hof, Function.update_self]
    exact hp
  · rw [hof, Function.update_of_ne hu]
    exact Nat.le_refl _

theorem pays_goes (hpc : s'.pc = Function.update s.pc t pc) (hw : s'.word = s.word)
    (hp : potentialOf s.word n pc + e ≤ potential s t) :
    (∑ u, potential s' u) + (e + d) ≤ (∑ u, potential s u) + d :=
  pays_step hpc hw (by omega)

/-- A step of `t` that changes the location. -/
theorem pays_commit (hpc : s'.pc = Function.update s.pc t pc)
    (hp : potentialOf s'.word n pc + (e + n) ≤ potential s t) :
    (∑ u, potential s' u) + (e + d) ≤ (∑ u, potential s u) + d := by
  have ht : potential s' t = potentialOf s'.word n pc := by
    rw [potential, hpc, Function.update_self]
  have h := sum_add_le (b := 0) (d := 1) t (ht ▸ hp) fun u hu =>
    potential_interfere ((congrFun hpc u).trans (Function.update_of_ne hu _ _))
  rw [Fintype.card_fin] at h
  omega

/-- The memory manager is called, and the call goes on. -/
theorem pays_manage {s₁ : State n} (hq : Quiet s s₁) (hp : potentialOf s.word n pc + e ≤ potential s t) :
    (∑ u, potential (s₁.setPc t pc) u) + (e + (n + 5) * completed s.calls.hist) ≤
      (∑ u, potential s u) + (n + 5) * completed (s₁.setPc t pc).calls.hist := by
  have hcalls : (s₁.setPc t pc).calls = s.calls := hq.calls
  rw [hcalls]
  refine pays_goes ?_ hq.word hp
  rw [← hq.pc]
  rfl

/-- A call returns: the thread has what it needs for the next one. -/
theorem Inv.pays_respond (h : Inv s L) {r : Ret} {s₁ : State n} (hq : Quiet s s₁) (hbusy : s.pc t ≠ .idle)
    (ht : e ≤ potential s t) :
    (∑ u, potential { s₁.setPc t .idle with calls := s₁.calls.respond t r } u) +
        (e + (n + 5) * completed s.calls.hist) ≤
      (∑ u, potential s u) + (n + 5) * completed (s₁.calls.respond t r).hist := by
  obtain ⟨i, o, hc, _⟩ := (h.threads t).running hbusy
  have hdone : completed (s₁.calls.respond t r).hist = completed s.calls.hist + 1 := by
    rw [hq.calls]
    exact completed_respond hc r
  have hpc : (s₁.setPc t .idle).pc = Function.update s.pc t .idle := by
    rw [← hq.pc]
    rfl
  refine pays_step hpc hq.word ?_
  rw [hdone, Nat.mul_succ]
  change n + 5 + _ ≤ _
  omega

/-- Every step pays one, unless it is a `compare_exchange_weak` that fails spuriously. -/
theorem Inv.pays (h : Inv s L) {spurious : Bool} (hs : Atomic.step s t spurious = some s') :
    (∑ u, potential s' u) + ((if spurious then 0 else 1) + (n + 5) * completed s.calls.hist) ≤
      (∑ u, potential s u) + (n + 5) * completed s'.calls.hist := by
  have hle : (if spurious then 0 else 1 : Nat) ≤ 1 := by split <;> omega
  cases hpc : s.pc t with
  | idle =>
    simp only [Atomic.step, hpc] at hs
    cases hs
  | load u =>
    simp only [Atomic.step, hpc] at hs
    cases hs
    refine pays_goes rfl rfl ?_
    rw [potential_eq hpc]
    simp only [potentialOf, if_pos]
    omega
  | exchangeMark u curPtr =>
    simp only [Atomic.step, hpc] at hs
    split at hs
    · next hw =>
      cases hs
      refine pays_commit rfl ?_
      rw [potential_eq hpc]
      simp only [potentialOf, if_pos hw.1]
      omega
    · next hw =>
      cases hs
      refine pays_goes rfl rfl ?_
      rw [potential_eq hpc]
      simp only [potentialOf, if_pos]
      by_cases heq : s.word = curPtr
      · cases spurious with
        | false => exact absurd ⟨heq, rfl⟩ hw
        | true => simp [heq]
      · rw [if_neg heq]
        omega
  | setMarkIf expected desiredMark =>
    simp only [Atomic.step, hpc] at hs
    split at hs
    · cases hs
      refine pays_commit rfl ?_
      rw [potential_eq hpc]
      simp only [potentialOf]
      omega
    · cases hs
      refine pays_goes rfl rfl ?_
      rw [potential_eq hpc]
      simp only [potentialOf]
      omega
  | reserve expected desired isProtected =>
    simp only [Atomic.step, hpc] at hs
    cases hs
    have hq : Quiet s (if isProtected then s else s.announce t (getPtr desired)) := by
      split
      · exact Quiet.refl s
      · exact quiet_announce s t (getMark_getPtr desired)
    have hp : potentialOf s.word n (.cas expected desired (.copy isProtected)) +
        (if spurious then 0 else 1) ≤ potential s t := by
      rw [potential_eq hpc]
      simp only [potentialOf]
      omega
    exact pays_manage hq hp
  | cas expected desired transfer =>
    simp only [Atomic.step, hpc] at hs
    split at hs
    · cases hs
      refine pays_commit rfl ?_
      rw [potential_eq hpc]
      simp only [potentialOf]
      omega
    · cases hs
      refine pays_goes rfl rfl ?_
      rw [potential_eq hpc]
      simp only [potentialOf]
      omega
  | swapped expected desired transfer =>
    simp only [Atomic.step, hpc] at hs
    cases transfer with
    | copy isProtected =>
      cases hs
      refine pays_manage (quiet_delayedDecrementRefCnt s expected) ?_
      rw [potential_eq hpc]
      simp only [potentialOf]
      omega
    | move =>
      cases hs
      refine pays_manage (quiet_delayedDecrementRefCnt s expected) ?_
      rw [potential_eq hpc]
      simp only [potentialOf]
      omega
  | increment desired isProtected =>
    simp only [Atomic.step, hpc] at hs
    cases hs
    refine pays_manage (quiet_incrementRefCnt s desired) ?_
    rw [potential_eq hpc]
    simp only [potentialOf]
    omega
  | storeIncrement desired =>
    simp only [Atomic.step, hpc] at hs
    cases hs
    refine pays_manage (quiet_incrementRefCnt s desired) ?_
    rw [potential_eq hpc]
    simp only [potentialOf]
    omega
  | exchange desired source =>
    simp only [Atomic.step, hpc] at hs
    split at hs
    · cases hs
      refine pays_commit rfl ?_
      rw [potential_eq hpc]
      simp only [potentialOf]
      omega
    · cases hs
      refine pays_commit rfl ?_
      rw [potential_eq hpc]
      simp only [potentialOf]
      omega
  | exchanged desired old =>
    simp only [Atomic.step, hpc] at hs
    split at hs
    · cases hs
      refine pays_manage (quiet_incrementRefCnt s desired) ?_
      rw [potential_eq hpc]
      simp only [potentialOf]
      omega
    · cases hs
      refine pays_goes rfl rfl ?_
      rw [potential_eq hpc]
      simp only [potentialOf]
      omega
  | release old =>
    simp only [Atomic.step, hpc] at hs
    cases hs
    refine pays_manage (quiet_delayedDecrementRefCnt s old) ?_
    rw [potential_eq hpc]
    simp only [potentialOf]
    omega
  | ret r reservation =>
    simp only [Atomic.step, hpc] at hs
    cases hs
    refine h.pays_respond (quiet_clearProtection s t reservation) (by rw [hpc]; simp) ?_
    rw [potential_eq hpc]
    exact hle

end Steps

/-- The potential of a marked location. -/
def marksPotential (n : Nat) :
    Potential (machine n) Label.cost (fun s => completed s.calls.hist) (n + 5) (Fin n) where
  inv s := ∃ L, Inv s L
  potential := potential
  le_bound := potential_le
  inv_next := by
    rintro s a s' ⟨L, h⟩ hs
    exact h.next hs
  pays := by
    rintro s a s' ⟨L, h⟩ hs
    cases a with
    | call t o =>
      simp only [machine, next] at hs
      split at hs
      · next hpc =>
        obtain ⟨_, hs⟩ := Option.ite_none_right_eq_some.mp hs
        cases hs
        have hdone : completed (s.calls.invoke t o).hist = completed s.calls.hist := completed_invoke ..
        change _ ≤ _ + (n + 5) * completed (s.calls.invoke t o).hist
        rw [hdone]
        refine Nat.add_le_add ?_ (by simp [Label.cost])
        refine Finset.sum_le_sum fun u _ => ?_
        by_cases hu : u = t
        · subst hu
          refine (potential_le _ u).trans ?_
          rw [potential_eq hpc]
          exact Nat.le_refl _
        · rw [potential, potential]
          change potentialOf s.word n (Function.update s.pc t (start o) u) ≤ _
          rw [Function.update_of_ne hu]
      · cases hs
    | step t spurious => exact h.pays hs

/-- **The operations of a marked location are lock-free.** A run of any number of threads that takes
more than `(n + 5) (n + k)` steps, without those that fail spuriously, has completed more than
`k` calls. -/
theorem marks_lockFree {s s' : State n} (hr : (machine n).Reach s) {ls : List (Label n)}
    (he : (machine n).exec ls s = some s') :
    (ls.map Label.cost).sum ≤ (n + 5) * (n + (completed s'.calls.hist - completed s.calls.hist)) := by
  have h := (marksPotential n).steps_le (reach_inv hr) he
  rw [Fintype.card_fin] at h
  exact h

/-- Both threads set a mark, and thread 0 has to try three times. -/
def markTwice : List (Label 2) :=
  [.call 0 (.setMark 1), .step 0 false, .call 1 (.setMarkBit 2), .step 1 false, .step 1 false, .step 0 false,
    .step 0 true, .step 0 false, .step 0 false, .step 1 false]

theorem marks_lockFree_markTwice :
    ∃ s, (machine 2).exec markTwice (.initial 2) = some s ∧ completed s.calls.hist = 2 ∧
      (markTwice.map Label.cost).sum = 7 ∧ 7 ≤ (2 + 5) * (2 + completed s.calls.hist) := by
  have hex : ((machine 2).exec markTwice (.initial 2)).map (fun s => completed s.calls.hist) = some 2 := by
    decide +kernel
  obtain ⟨s, hs, hc⟩ := Option.map_eq_some_iff.mp hex
  exact ⟨s, hs, hc, rfl, marks_lockFree (.init rfl) hs⟩

end Cdrc.MarkedPtr.Atomic
