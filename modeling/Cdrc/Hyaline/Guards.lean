import Cdrc.Lib.Runs

/-! # Nested `hyaline_guard`s

One thread with its guards, and the calls inside which a destructor of a `T` can construct
guards of its own. Whether a new guard engages is decided by `critical_section[id]`, whether
batches of others reach the thread by `rsrv[id].list`. The two disagree while
`end_critical_section` traverses the list it has taken: the flag is still set and the list
already `invptr`. A guard constructed there does not engage and does not protect.

There is one manager here: `in_progress` is one flag, and a batch is handed over only when the
thread is in no `add_batch`. -/
namespace Cdrc.Hyaline.Guards
open Cdrc.Lib.Runs

/-- A guard that has been constructed and not destroyed, or a call the thread is in. -/
inductive Frame (ν : Type)
  | guard (engaged : Bool)
  /-- `end_critical_section`, in `traverse(next)` -/
  | traverse (next : List ν)
  /-- `free_batch` inside `add_batch` (`adding`) or `traverse`: destructors run -/
  | freeBatch (adding : Bool)
  deriving DecidableEq, Repr

structure State (ν : Type) where
  criticalSection : Bool
  /-- `rsrv[id].list`; `none` is `invptr` -/
  list : Option (List ν)
  inProgress : Bool
  /-- innermost first -/
  stack : List (Frame ν)
  deriving DecidableEq, Repr

def State.initial {ν : Type} : State ν := ⟨false, none, false, []⟩

inductive Label (ν : Type)
  /-- `hyaline_guard()` -/
  | construct
  /-- `~hyaline_guard()` of the innermost guard, up to `traverse` -/
  | destruct
  /-- `traverse` goes on; `last` is whether the node held the last reference to its batch -/
  | traverse (last : Bool)
  /-- `retire` hands a batch to `add_batch`; `x` is its node for this thread, `last` whether
  no thread took the batch -/
  | addBatch (x : ν) (last : Bool)
  /-- `free_batch` returns -/
  | freed
  /-- another thread pushes a node to the list -/
  | push (x : ν)
  deriving DecidableEq, Repr

section Code
variable {ν : Type}

/-- User code or a destructor runs, which can make calls. -/
def mayCall : List (Frame ν) → Bool
  | [] => true
  | .guard _ :: _ => true
  | .freeBatch _ :: _ => true
  | .traverse _ :: _ => false

/-- The guard of `begin_critical_section`'s result. -/
def construct (s : State ν) : State ν :=
  if s.criticalSection then { s with stack := .guard false :: s.stack }
  else { s with list := some [], criticalSection := true, stack := .guard true :: s.stack }

def next (s : State ν) : Label ν → Option (State ν)
  | .construct => if mayCall s.stack then some (construct s) else none
  | .destruct =>
    match s.stack with
    | .guard true :: fs => s.list.map fun p => { s with list := none, stack := .traverse p :: fs }
    | .guard false :: fs => some { s with stack := fs }
    | _ => none
  | .traverse last =>
    match s.stack with
    | .traverse (_ :: rest) :: fs =>
      if last then some { s with stack := .freeBatch false :: .traverse rest :: fs }
      else some { s with stack := .traverse rest :: fs }
    | .traverse [] :: fs => some { s with criticalSection := false, stack := fs }
    | _ => none
  | .addBatch x last =>
    if mayCall s.stack && !s.inProgress then
      let s := { s with list := s.list.map (x :: ·) }
      if last then some { s with inProgress := true, stack := .freeBatch true :: s.stack }
      else some s
    else none
  | .freed =>
    match s.stack with
    | .freeBatch adding :: fs =>
      some { s with inProgress := !adding && s.inProgress, stack := fs }
    | _ => none
  | .push x => s.list.map fun p => { s with list := some (x :: p) }

def machine (ν : Type) : Machine (State ν) (Label ν) where
  init s := s = .initial
  next := next

def Frame.isTraverse : Frame ν → Bool
  | .traverse _ => true
  | _ => false

def Frame.isGuard : Frame ν → Bool
  | .guard _ => true
  | _ => false

/-- Every guard that exists protects: other threads' batches are pushed to the list. -/
def Protected (s : State ν) : Prop := ∀ f ∈ s.stack, f.isGuard = true → s.list ≠ none

/-- No guard is constructed while the thread is in `end_critical_section`. -/
def OutsideTraverse (s : State ν) : Label ν → Prop
  | .construct => ∀ f ∈ s.stack, f.isTraverse = false
  | _ => True

instance (s : State ν) (a : Label ν) : Decidable (OutsideTraverse s a) :=
  match a with
  | .construct => inferInstanceAs (Decidable (∀ f ∈ s.stack, f.isTraverse = false))
  | .destruct | .traverse _ | .addBatch _ _ | .freed | .push _ => inferInstanceAs (Decidable True)

end Code

/-! ## The invariant -/

section Invariant
variable {ν : Type} {s s' : State ν} {fs : List (Frame ν)}

/-- The stack below a guard or a traversal: only the outermost guard is engaged, and a
traversal has no guard around it. -/
def Nested : List (Frame ν) → Prop
  | [] => True
  | .guard false :: fs => Nested fs ∧ .guard true ∈ fs
  | .guard true :: fs => Nested fs ∧ ∀ f ∈ fs, f.isGuard = false ∧ f.isTraverse = false
  | .traverse _ :: fs => Nested fs ∧ ∀ f ∈ fs, f.isGuard = false ∧ f.isTraverse = false
  | .freeBatch _ :: fs => Nested fs

theorem Nested.engaged (h : Nested fs) {f : Frame ν} (hf : f ∈ fs) (hg : f.isGuard = true) :
    .guard true ∈ fs := by
  induction fs with
  | nil => cases hf
  | cons g fs ih =>
    cases g with
    | guard engaged =>
      cases engaged with
      | true => exact List.mem_cons_self
      | false => exact List.mem_cons_of_mem _ h.2
    | traverse p =>
      rcases List.mem_cons.mp hf with rfl | hf
      · cases hg
      · exact List.mem_cons_of_mem _ (ih h.1 hf)
    | freeBatch adding =>
      rcases List.mem_cons.mp hf with rfl | hf
      · cases hg
      · exact List.mem_cons_of_mem _ (ih h hf)

/-- The guard that holds the critical section, or its end. -/
def Frame.holds : Frame ν → Bool
  | .guard engaged => engaged
  | .traverse _ => true
  | .freeBatch _ => false

structure Inv (s : State ν) : Prop where
  nested : Nested s.stack
  flag : s.criticalSection = s.stack.any Frame.holds
  engaged : .guard true ∈ s.stack → s.list ≠ none
  ended : ∀ f ∈ s.stack, f.isTraverse = true → s.list = none

theorem Inv.protected (h : Inv s) : Protected s :=
  fun _ hf hg => h.engaged (h.nested.engaged hf hg)

theorem any_holds_of_none (h : ∀ f ∈ fs, f.isGuard = false ∧ f.isTraverse = false) :
    fs.any Frame.holds = false := by
  rw [List.any_eq_false]
  intro f hf
  obtain ⟨h1, h2⟩ := h f hf
  cases f with
  | guard engaged => cases h1
  | traverse p => cases h2
  | freeBatch adding => simp [Frame.holds]

theorem Inv.construct (h : Inv s) (ht : ∀ f ∈ s.stack, f.isTraverse = false) :
    Inv (construct s) := by
  unfold Guards.construct
  split
  · rename_i hc
    -- the flag is set by an engaged guard
    have hmem : .guard true ∈ s.stack := by
      have hany := h.flag.symm.trans hc
      obtain ⟨f, hf, hh⟩ := List.any_eq_true.mp hany
      cases f with
      | guard engaged =>
        cases engaged with
        | true => exact hf
        | false => cases hh
      | traverse p => cases ht _ hf
      | freeBatch adding => cases hh
    refine ⟨⟨h.nested, hmem⟩, ?_, fun _ => h.engaged hmem, ?_⟩
    · simpa [Frame.holds] using h.flag
    · intro f hf
      rcases List.mem_cons.mp hf with rfl | hf
      · intro hx
        cases hx
      · exact h.ended f hf
  · rename_i hc
    have hnone : ∀ f ∈ s.stack, f.holds = false := by
      have hany : s.stack.any Frame.holds = false := by
        rw [← h.flag]
        simpa using hc
      simpa [List.any_eq_false] using hany
    have hguards : ∀ f ∈ s.stack, f.isGuard = false ∧ f.isTraverse = false := by
      intro f hf
      refine ⟨?_, ht f hf⟩
      by_contra hg
      have hg' : f.isGuard = true := by simpa using hg
      cases hnone _ (h.nested.engaged hf hg')
    refine ⟨⟨h.nested, hguards⟩, by simp [Frame.holds], by simp, ?_⟩
    intro f hf hx
    rcases List.mem_cons.mp hf with rfl | hf
    · cases hx
    · rw [ht f hf] at hx
      cases hx

/-- The innermost frame is left, one that is neither an engaged guard nor a traversal. -/
theorem Inv.pop (h : Inv s) {f : Frame ν} (hs : s.stack = f :: fs) (hf : f.holds = false)
    (inProgress : Bool) : Inv { s with inProgress := inProgress, stack := fs } := by
  have hn := h.nested
  rw [hs] at hn
  have hsub : ∀ g ∈ fs, g ∈ s.stack := fun g hg => hs ▸ List.mem_cons_of_mem _ hg
  refine ⟨?_, ?_, fun hm => h.engaged (hsub _ hm), fun g hg => h.ended g (hsub g hg)⟩
  · cases f with
    | guard engaged =>
      cases engaged with
      | true => cases hf
      | false => exact hn.1
    | traverse p => cases hf
    | freeBatch adding => exact hn
  · have hflag := h.flag
    rw [hs, List.any_cons, hf, Bool.false_or] at hflag
    exact hflag

/-- Destructors begin to run. -/
theorem Inv.freeBatch (h : Inv s) (adding inProgress : Bool) :
    Inv { s with inProgress := inProgress, stack := .freeBatch adding :: s.stack } := by
  refine ⟨h.nested, ?_, fun hm => h.engaged ?_, fun g hg ht => h.ended g ?_ ht⟩
  · simpa [Frame.holds] using h.flag
  · simpa using hm
  · rcases List.mem_cons.mp hg with rfl | hg
    · cases ht
    · exact hg

/-- A node is pushed to the list. -/
theorem Inv.push (h : Inv s) (x : ν) : Inv { s with list := s.list.map (x :: ·) } := by
  refine ⟨h.nested, h.flag, fun hm => ?_, fun f hf ht => ?_⟩
  · simpa using h.engaged hm
  · simp [h.ended f hf ht]

theorem Inv.next (h : Inv s) {a : Label ν} (hok : OutsideTraverse s a)
    (hn : next s a = some s') : Inv s' := by
  cases a with
  | construct =>
    simp only [Guards.next] at hn
    split at hn
    · cases hn
      exact h.construct hok
    · cases hn
  | destruct =>
    simp only [Guards.next] at hn
    split at hn
    · rename_i fs hs
      obtain ⟨p, hp, rfl⟩ := Option.map_eq_some_iff.mp hn
      have hnest := h.nested
      rw [hs] at hnest
      refine ⟨hnest, ?_, fun hm => ?_, fun _ _ _ => rfl⟩
      · have hflag := h.flag
        rw [hs] at hflag
        simpa [Frame.holds] using hflag
      · rcases List.mem_cons.mp hm with hm | hm
        · cases hm
        · cases (hnest.2 _ hm).1
    · rename_i fs hs
      cases hn
      exact h.pop hs rfl s.inProgress
    · cases hn
  | traverse last =>
    simp only [Guards.next] at hn
    split at hn
    · rename_i x rest fs hs
      have hrest : Inv { s with stack := .traverse rest :: fs } := by
        have hnest := h.nested
        rw [hs] at hnest
        refine ⟨hnest, ?_, fun hm => h.engaged ?_, fun g _ _ => h.ended _ (hs ▸ List.mem_cons_self) rfl⟩
        · have hflag := h.flag
          rw [hs] at hflag
          simpa [Frame.holds] using hflag
        · rw [hs]
          rcases List.mem_cons.mp hm with hm | hm
          · cases hm
          · exact List.mem_cons_of_mem _ hm
      split at hn
      · cases hn
        exact hrest.freeBatch false s.inProgress
      · cases hn
        exact hrest
    · rename_i fs hs
      cases hn
      have hnest := h.nested
      rw [hs] at hnest
      refine ⟨hnest.1, (any_holds_of_none hnest.2).symm, fun hm => ?_, fun g hg ht => ?_⟩
      · cases (hnest.2 _ hm).1
      · rw [(hnest.2 g hg).2] at ht
        cases ht
    · cases hn
  | addBatch x last =>
    simp only [Guards.next] at hn
    split at hn
    · split at hn
      · cases hn
        exact (h.push x).freeBatch true true
      · cases hn
        exact h.push x
    · cases hn
  | freed =>
    simp only [Guards.next] at hn
    split at hn
    · rename_i adding fs hs
      cases hn
      exact h.pop hs rfl _
    · cases hn
  | push x =>
    obtain ⟨p, hp, rfl⟩ := Option.map_eq_some_iff.mp hn
    have hpush := h.push x
    rw [hp] at hpush
    exact hpush

theorem reach_inv (h : ((machine ν).restrict OutsideTraverse).Reach s) : Inv s := by
  refine h.invariant (I := Inv) ?_ ?_
  · rintro s rfl
    exact ⟨trivial, rfl, by simp [State.initial], by simp [State.initial]⟩
  · intro s a s' hi hn
    obtain ⟨hok, hn⟩ := Machine.restrict_next.mp hn
    exact hi.next hok hn

/-- As long as no guard is constructed while `end_critical_section` traverses its list,
every guard protects; the first guard that is does not. -/
theorem guards_protect (h : ((machine ν).restrict OutsideTraverse).Reach s) :
    Protected s ∧ ∀ a s', next s a = some s' → (Protected s' ↔ OutsideTraverse s a) := by
  have hi := reach_inv h
  refine ⟨hi.protected, fun a s' hn => ⟨fun hp => ?_, fun hok => (hi.next hok hn).protected⟩⟩
  cases a with
  | construct =>
    simp only [Guards.next] at hn
    split at hn
    · cases hn
      intro f hf
      by_contra ht
      have ht' : f.isTraverse = true := by simpa using ht
      have hflag : s.criticalSection = true := by
        rw [hi.flag, List.any_eq_true]
        refine ⟨f, hf, ?_⟩
        cases f <;> first | rfl | cases ht'
      rw [construct, if_pos hflag] at hp
      exact hp _ List.mem_cons_self rfl (hi.ended f hf ht')
    · cases hn
  | _ => trivial

end Invariant

/-- A guard inside another, then a batch freed by `retire` whose destructor has one too. -/
def nestedRun : List (Label Nat) :=
  [.construct, .construct, .destruct, .push 1, .addBatch 2 true, .construct]

theorem guards_protect_nested :
    ∃ s, ((machine Nat).restrict OutsideTraverse).exec nestedRun .initial = some s ∧
      s.stack = [.guard false, .freeBatch true, .guard true] ∧ Protected s := by
  have hex : (((machine Nat).restrict OutsideTraverse).exec nestedRun .initial).map State.stack =
      some [.guard false, .freeBatch true, .guard true] := by
    decide +kernel
  obtain ⟨s, hs, hst⟩ := Option.map_eq_some_iff.mp hex
  have h0 : ((machine Nat).restrict OutsideTraverse).Reach .initial := .init rfl
  exact ⟨s, hs, hst, (guards_protect (h0.exec hs)).1⟩

/-- The guard is destroyed, and the traversal holds the last reference to a batch. A
destructor of an object in it constructs a guard. -/
def guardInTraverse : List (Label Nat) := [.construct, .push 1, .destruct, .traverse true, .construct]

theorem guard_unprotected : ¬ ∀ s, (machine Nat).Reach s → Protected s := by
  intro hall
  have hex : ((machine Nat).exec guardInTraverse .initial).map (fun s => (s.stack, s.list)) =
      some ([.guard false, .freeBatch false, .traverse []], none) := by
    decide +kernel
  obtain ⟨s, hs, hst⟩ := Option.map_eq_some_iff.mp hex
  simp only [Prod.mk.injEq] at hst
  have h0 : (machine Nat).Reach .initial := .init rfl
  exact hall s (h0.exec hs) (.guard false) (by rw [hst.1]; simp) rfl hst.2

end Cdrc.Hyaline.Guards
