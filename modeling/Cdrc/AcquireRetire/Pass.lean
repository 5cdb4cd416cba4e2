import Mathlib.Data.List.Count
import Cdrc.AcquireRetire.Retire

/-! # One pass over the deferred entries

A pass scans what is announced, then goes through the list it has moved away with `remove_if`.
What an `eject` retires meanwhile goes to the emptied list. What `remove_if` does with the
list alone is `Announced.sieve`; a run of the machine from the beginning of a pass to its end does
the same, whatever the ejects do (`PassInv`, `pass_run`).

Under hazard pointers, `work_toward_deferred_decrements`, the budget of an announced pointer
starts at two and grows by one with each further announcement, separately for each type of
action; every entry that is kept uses up one. -/
namespace Cdrc.AcquireRetire.Retire
open Cdrc.Lib.Runs Cdrc.CountedObject

variable {α : Type} [DecidableEq α]

/-! ## `remove_if` on a list -/

/-- The entries that are ejected and those that are kept. -/
def Announced.sieve (a : Announced α) : List (Entry α) → List (Entry α) × List (Entry α)
  | [] => ([], [])
  | x :: L =>
    match a.ejects x with
    | (true, a) => (x :: (a.sieve L).1, (a.sieve L).2)
    | (false, a) => ((a.sieve L).1, x :: (a.sieve L).2)

theorem sieve_eject {a a' : Announced α} {x : Entry α} {L : List (Entry α)}
    (hx : a.ejects x = (true, a')) : a.sieve (x :: L) = (x :: (a'.sieve L).1, (a'.sieve L).2) := by
  rw [Announced.sieve, hx]

theorem sieve_keep {a a' : Announced α} {x : Entry α} {L : List (Entry α)}
    (hx : a.ejects x = (false, a')) : a.sieve (x :: L) = ((a'.sieve L).1, x :: (a'.sieve L).2) := by
  rw [Announced.sieve, hx]

section Pass
variable {cfg : Config} {s s' s₀ s₁ : State α} {fs gs : List (Frame α)} {L todo kept E R : List (Entry α)}
  {a₀ a : Announced α} {scan : Scan α}

/-- The pass that began when `start` entries had been retired is still on the stack. -/
def InPassOf (start : Nat) (fs : List (Frame α)) (s : State α) : Prop :=
  ∃ gs todo kept announced, s.stack = gs ++ .pass todo kept announced start :: fs

/-- The state of a pass over `L`, which found `a₀` announced. What is still to come is what `sieve`
does with the rest of the list and of the budgets. -/
structure PassInv (s₀ : State α) (a₀ : Announced α) (L : List (Entry α)) (fs : List (Frame α))
    (s : State α) (gs : List (Frame α)) (todo kept : List (Entry α))
    (a : Announced α) (E R : List (Entry α)) : Prop where
  stack : s.stack = gs ++ .pass todo kept a s₀.retired.length :: fs
  inner : ∀ f ∈ gs, f.isPass = false
  inProgress : s.inProgress = true
  ejected : s.ejected = s₀.ejected ++ E.map fun x => (x, s₀.retired.length)
  retired : s.retired = s₀.retired ++ R
  deferred : s.deferred = R
  sieved : (E ++ (a.sieve todo).1, kept ++ (a.sieve todo).2) = a₀.sieve L

/-- A pass begins. -/
def begun (s : State α) (scan : Scan α) (fs : List (Frame α)) : State α :=
  { s with
    work := 0
    inProgress := true
    deferred := []
    stack := .pass s.deferred [] scan.announced s.retired.length :: .work :: fs }

theorem passInv_begun (s : State α) (scan : Scan α) (fs : List (Frame α)) :
    PassInv s scan.announced s.deferred (.work :: fs) (begun s scan fs) [] s.deferred []
      scan.announced [] [] where
  stack := rfl
  inner := by simp
  inProgress := rfl
  ejected := by simp [begun]
  retired := by simp [begun]
  deferred := rfl
  sieved := by simp

/-- The innermost call of a pass goes on: the pass is nearer to its end, or ends. -/
theorem PassInv.run (h : PassInv s₀ a₀ L fs s gs todo kept a E R)
    (hn : run cfg s scan s.stack = some s') :
    (∃ gs' todo' kept' a' E', PassInv s₀ a₀ L fs s' gs' todo' kept' a' E' R ∧
      2 * todo'.length + gs'.length < 2 * todo.length + gs.length) ∨
      (gs = [] ∧ todo = [] ∧ s' = { s with
        deferred := s.deferred ++ kept, inProgress := false, stack := fs }) := by
  rw [h.stack] at hn
  cases gs with
  | cons f gs =>
    left
    have hinner : ∀ g ∈ gs, g.isPass = false := fun g hg => h.inner g (List.mem_cons_of_mem _ hg)
    refine ⟨gs, todo, kept, a, E, ?_, by simp⟩
    cases f with
    | work =>
      simp only [List.cons_append, Retire.run, h.inProgress, Bool.not_true, Bool.false_and,
        Bool.false_eq_true, if_false, Option.some.injEq] at hn
      subst hn
      exact ⟨rfl, hinner, rfl, h.ejected, h.retired, h.deferred, h.sieved⟩
    | pass _ _ _ _ => cases h.inner _ List.mem_cons_self
    | eject x =>
      simp only [List.cons_append, Retire.run, Option.some.injEq] at hn
      subst hn
      exact ⟨rfl, hinner, h.inProgress, h.ejected, h.retired, h.deferred, h.sieved⟩
  | nil =>
    cases todo with
    | nil =>
      simp only [List.nil_append, Retire.run, Option.some.injEq] at hn
      exact Or.inr ⟨rfl, rfl, hn.symm⟩
    | cons x todo =>
      left
      have hs := h.sieved
      rcases hx : a.ejects x with ⟨_ | _, a'⟩
      · simp only [List.nil_append, Retire.run, hx, Option.some.injEq] at hn
        subst hn
        rw [sieve_keep hx] at hs
        exact ⟨[], todo, kept ++ [x], a', E, ⟨rfl, by simp, h.inProgress, h.ejected,
          h.retired, h.deferred, by simpa using hs⟩, by simp⟩
      · simp only [List.nil_append, Retire.run, hx, Option.some.injEq] at hn
        subst hn
        rw [sieve_eject hx] at hs
        refine ⟨[.eject x], todo, kept, a', E ++ [x], ⟨rfl, by simp [Frame.isPass], h.inProgress,
          ?_, h.retired, h.deferred, ?_⟩, by simp only [List.length_cons, List.length_nil]; omega⟩
        · simp [h.ejected]
        · simpa using hs

/-- An `eject` retires once more. -/
theorem PassInv.retire (h : PassInv s₀ a₀ L fs s gs todo kept a E R) (obj : α)
    (type : RetireType) (birthTS epoch : Nat) :
    PassInv s₀ a₀ L fs (s.retire obj type birthTS epoch) (.work :: gs) todo kept a E
      (R ++ [⟨s.retired.length, obj, type, birthTS, epoch⟩]) where
  stack := by simp [State.retire, h.stack]
  inner := by
    intro f hf
    rcases List.mem_cons.mp hf with rfl | hf
    · rfl
    · exact h.inner f hf
  inProgress := h.inProgress
  ejected := h.ejected
  retired := by simp [State.retire, h.retired]
  deferred := by simp [State.retire, h.deferred]
  sieved := h.sieved

theorem PassInv.next (h : PassInv s₀ a₀ L fs s gs todo kept a E R) {l : Label α}
    (hn : next cfg s l = some s') :
    (∃ gs' todo' kept' a' E' R', PassInv s₀ a₀ L fs s' gs' todo' kept' a' E' R') ∨
      (gs = [] ∧ todo = [] ∧ s' = { s with
        deferred := s.deferred ++ kept, inProgress := false, stack := fs }) := by
  cases l with
  | retire obj type birthTS epoch =>
    simp only [Retire.next] at hn
    split at hn
    · cases hn
      exact Or.inl ⟨_, _, _, _, _, _, h.retire obj type birthTS epoch⟩
    · cases hn
  | run scan =>
    rcases h.run hn with ⟨gs', todo', kept', a', E', h', _⟩ | hend
    · exact Or.inl ⟨gs', todo', kept', a', E', R, h'⟩
    · exact Or.inr hend

/-- What is so as long as the pass is on the stack. -/
theorem PassInv.during (hr : (machine α cfg).During (InPassOf s₀.retired.length fs) s s₁)
    (h : ∃ gs todo kept a E R, PassInv s₀ a₀ L fs s gs todo kept a E R) :
    ∃ gs todo kept a E R, PassInv s₀ a₀ L fs s₁ gs todo kept a E R := by
  induction hr with
  | refl => exact h
  | step l _ hn hp ih =>
    obtain ⟨gs, todo, kept, a, E, R, hi⟩ := ih
    rcases hi.next hn with h' | ⟨_, _, rfl⟩
    · exact h'
    · -- a pass that has ended is not on the stack any more
      obtain ⟨gs', todo', kept', announced', hs⟩ := hp
      have hlen := congrArg List.length hs
      simp only [List.length_append, List.length_cons] at hlen
      omega

/-- The calls that a pass is in return one after the other, and the pass comes to its
end. -/
theorem PassInv.finishes (scan : Scan α) (h : PassInv s₀ a₀ L fs s gs todo kept a E R) :
    ∃ k s' kept' announced, (machine α cfg).exec (List.replicate k (.run scan)) s = some s' ∧
      s'.stack = .pass [] kept' announced s₀.retired.length :: fs := by
  -- an entry takes two steps at most: its eject begins and ends
  induction hm : 2 * todo.length + gs.length using Nat.strongRecOn generalizing s gs todo kept a E with
  | _ m ih =>
    have hrun : ∃ s', Retire.next cfg s (.run scan) = some s' := by
      simp only [Retire.next, h.stack]
      cases gs with
      | nil =>
        cases todo with
        | nil => exact ⟨_, rfl⟩
        | cons x todo =>
          simp only [List.nil_append, Retire.run]
          split <;> exact ⟨_, rfl⟩
      | cons f gs =>
        cases f with
        | work =>
          simp only [List.cons_append, Retire.run, h.inProgress]
          exact ⟨_, rfl⟩
        | pass _ _ _ _ => cases h.inner _ List.mem_cons_self
        | eject x => exact ⟨_, rfl⟩
    obtain ⟨s', hs'⟩ := hrun
    rcases h.run hs' with ⟨gs', todo', kept', a', E', h', hlt⟩ | ⟨rfl, rfl, _⟩
    · obtain ⟨k, s'', kept'', announced, he, hs''⟩ := ih _ (hm ▸ hlt) h' rfl
      refine ⟨k + 1, s'', kept'', announced, ?_, hs''⟩
      rw [List.replicate_succ, Machine.exec]
      exact Option.bind_eq_some_iff.mpr ⟨s', hs', he⟩
    · exact ⟨0, s, kept, a, rfl, h.stack⟩

/-- One pass over the list, from any state in which it begins, whatever is announced and whatever its
ejects retire: it does with the list what `sieve` does, and it comes to its end when the ejects
return. -/
theorem pass_run (hs : s.stack = .work :: fs) (hp : s.inProgress = false) (hw : cfg.threshold ≤ s.work)
    (hn : s.deferred ≠ []) (hb : next cfg s (.run scan) = some s₀) :
    (∀ s₁ s₂ kept announced scan',
      (machine α cfg).During (InPassOf s.retired.length (.work :: fs)) s₀ s₁ →
      s₁.stack = .pass [] kept announced s.retired.length :: .work :: fs →
      next cfg s₁ (.run scan') = some s₂ →
        kept = (scan.announced.sieve s.deferred).2 ∧
        s₂.ejected = s.ejected ++
          (scan.announced.sieve s.deferred).1.map (fun x => (x, s.retired.length)) ∧
        (∃ retired, s₂.retired = s.retired ++ retired ∧ s₂.deferred = retired ++ kept) ∧
        s₂.stack = .work :: fs ∧ s₂.inProgress = false) ∧
    ∀ s₁ scan', (machine α cfg).During (InPassOf s.retired.length (.work :: fs)) s₀ s₁ →
      ∃ k s₂ kept announced, (machine α cfg).exec (List.replicate k (.run scan')) s₁ = some s₂ ∧
        s₂.stack = .pass [] kept announced s.retired.length :: .work :: fs := by
  have hs₀ : s₀ = begun s scan fs := by
    simp only [Retire.next, hs, Retire.run, hp, Bool.not_false, Bool.true_and, hw, decide_true,
      if_true, List.length_eq_zero_iff, hn, if_false, Option.some.injEq] at hb
    exact hb.symm
  subst hs₀
  have hbegun : ∃ gs todo kept a E R, PassInv s scan.announced s.deferred (.work :: fs)
      (begun s scan fs) gs todo kept a E R := ⟨_, _, _, _, _, _, passInv_begun s scan fs⟩
  refine ⟨fun s₁ s₂ kept announced scan' hr hs₁ hn₁ => ?_, fun s₁ scan' hr => ?_⟩
  · obtain ⟨gs, todo, kept', a, E, R, h⟩ := PassInv.during hr hbegun
    have hshape : gs = [] ∧ todo = [] ∧ kept' = kept := by
      have heq := h.stack.symm.trans hs₁
      cases gs with
      | nil =>
        simp only [List.nil_append, List.cons.injEq, Frame.pass.injEq, and_true] at heq
        exact ⟨rfl, heq.1, heq.2.1⟩
      | cons f gs =>
        have hlen := congrArg List.length heq
        simp only [List.length_append, List.length_cons] at hlen
        omega
    obtain ⟨rfl, rfl, rfl⟩ := hshape
    have hend : s₂ = { s₁ with
        deferred := s₁.deferred ++ kept', inProgress := false, stack := .work :: fs } := by
      simp only [Retire.next, h.stack, List.nil_append, Retire.run, Option.some.injEq] at hn₁
      exact hn₁.symm
    have hsieve := h.sieved
    simp only [Announced.sieve, List.append_nil] at hsieve
    have hE : E = (scan.announced.sieve s.deferred).1 := congrArg Prod.fst hsieve
    rw [hend]
    refine ⟨congrArg Prod.snd hsieve, ?_, ⟨R, h.retired, ?_⟩, rfl, rfl⟩
    · rw [← hE]
      exact h.ejected
    · rw [← h.deferred]
  · obtain ⟨gs, todo, kept, a, E, R, h⟩ := PassInv.during hr hbegun
    exact h.finishes scan'

end Pass

/-! ## The budget -/

/-- How many entries for `p` are kept when it is announced as often as in `l`. -/
def budget (l : List α) (p : α) : Nat := if l.count p = 0 then 0 else l.count p + 1

theorem foldl_announce (l : List α) (c : α → RetireType → Nat) (p : α) (type : RetireType) :
    l.foldl announce c p type =
      if l.count p = 0 then c p type
      else if c p type = 0 then l.count p + 1 else c p type + l.count p := by
  induction l generalizing c with
  | nil => simp
  | cons a l ih =>
    rw [List.foldl_cons, ih, List.count_cons]
    by_cases ha : a = p
    · subst ha
      simp only [announce, if_true, beq_self_eq_true]
      split <;> split <;> simp_all <;> omega
    · have hpa : ¬ p = a := fun h => ha h.symm
      simp [announce, ha, hpa]

/-- What the map holds for a pointer when the scan is done. -/
theorem announced_slots (l : List α) :
    (Scan.slots l).announced = .counts fun p _ => budget l p := by
  simp only [Scan.announced]
  congr 1
  funext p type
  rw [foldl_announce]
  simp [budget]

/-- The budgets after an entry was kept. -/
def spend (c : α → RetireType → Nat) (x : Entry α) : α → RetireType → Nat :=
  fun p type => if p = x.obj ∧ type = x.type then c p type - 1 else c p type

theorem sieve_counts_cons (c : α → RetireType → Nat) (x : Entry α) (L : List (Entry α)) :
    (Announced.counts c).sieve (x :: L) =
      if c x.obj x.type = 0 then
        (x :: ((Announced.counts c).sieve L).1, ((Announced.counts c).sieve L).2)
      else (((Announced.counts (spend c x)).sieve L).1,
        x :: ((Announced.counts (spend c x)).sieve L).2) := by
  split
  · rename_i hx
    exact sieve_eject (if_pos hx)
  · rename_i hx
    exact sieve_keep (if_neg hx)

end Cdrc.AcquireRetire.Retire
