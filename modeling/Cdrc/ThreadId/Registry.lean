import Mathlib.Data.Finset.Card
import Mathlib.Data.Fintype.Basic
import Cdrc.Lib.Runs

/-! # The registry of thread ids

Every per-thread array of the library is indexed by `threadID.getTID()`. A `ThreadID` is constructed
when its thread first uses it and destroyed when the thread ends; the constructor looks for a free
entry of `in_use` once, from the first to the last, and calls `std::exit(1)` when it has found none.
Threads come and go: a thread that has ended may be followed by another one.

A thread that goes on to the next entry leaves a thread behind, the one that holds the entry it has
found in use. So the threads that have come as far as entry `i`, or hold an entry from there on, are at
least `i` fewer than all threads (`Inv.behind`), and the search cannot miss a free entry for good. -/
namespace Cdrc.ThreadId
open Cdrc.Lib.Runs

inductive Phase
  | absent
  /-- the constructor, before it reads `in_use[i]` -/
  | load (i : Nat)
  /-- before `in_use[i].compare_exchange_strong(expected, true)` -/
  | cas (i : Nat)
  | live (tid : Nat)
  deriving DecidableEq, Repr

structure State (n : Nat) where
  inUse : Nat → Bool
  phase : Fin n → Phase
  /-- `std::exit(1)` was called -/
  exited : Bool

def State.initial {n : Nat} : State n := ⟨fun _ => false, fun _ => .absent, false⟩

section Model
variable {n : Nat}

def State.setPhase (s : State n) (t : Fin n) (p : Phase) : State n :=
  { s with phase := Function.update s.phase t p }

def State.setInUse (s : State n) (i : Nat) (b : Bool) : State n :=
  { s with inUse := Function.update s.inUse i b }

/-- The next access of the constructor of thread `t`. -/
def State.construct (s : State n) (numThreads : Nat) (t : Fin n) : Phase → Option (State n)
  | .load i =>
    if i < numThreads then
      if s.inUse i = false then some (s.setPhase t (.cas i)) else some (s.setPhase t (.load (i + 1)))
    else some { s with exited := true }
  | .cas i =>
    if s.inUse i = false then some ((s.setInUse i true).setPhase t (.live i))
    else some (s.setPhase t (.load (i + 1)))
  | _ => none

inductive Label (n : Nat)
  /-- the constructor begins -/
  | begin (t : Fin n)
  | step (t : Fin n)
  /-- the destructor -/
  | destroy (t : Fin n)
  deriving DecidableEq, Repr

def next (numThreads : Nat) (s : State n) : Label n → Option (State n)
  | .begin t => if s.exited = false ∧ s.phase t = .absent then some (s.setPhase t (.load 0)) else none
  | .step t => if s.exited = false then s.construct numThreads t (s.phase t) else none
  | .destroy t =>
    match s.exited, s.phase t with
    | false, .live i => some ((s.setInUse i false).setPhase t .absent)
    | _, _ => none

def machine (numThreads n : Nat) : Machine (State n) (Label n) where
  init s := s = .initial
  next := next numThreads

/-- The threads that there are, in the constructor or after it. -/
def State.existing (s : State n) : Finset (Fin n) := Finset.univ.filter fun t => s.phase t ≠ .absent

/-! ## The invariant -/

/-- The thread has come as far as entry `i`, or holds an entry from there on. -/
def Phase.reached (i : Nat) : Phase → Bool
  | .absent => false
  | .load j => i ≤ j
  | .cas j => i ≤ j
  | .live j => i ≤ j

def State.reached (s : State n) (i : Nat) : Finset (Fin n) := Finset.univ.filter fun t => (s.phase t).reached i

/-- With at most `P` threads at a time. -/
structure Inv (numThreads P : Nat) (s : State n) : Prop where
  held : ∀ i, s.inUse i = true ↔ ∃ t, s.phase t = .live i
  unique : ∀ t u i, s.phase t = .live i → s.phase u = .live i → t = u
  lt : ∀ t i, s.phase t = .live i ∨ s.phase t = .cas i → i < numThreads
  behind : ∀ i, (s.reached i).Nonempty → (s.reached i).card + i ≤ P
  exited : s.exited = true → numThreads < P

variable {numThreads P : Nat} {s s' : State n} {t u : Fin n} {i : Nat} {p : Phase}

theorem State.mem_reached : t ∈ s.reached i ↔ (s.phase t).reached i = true := by
  rw [State.reached, Finset.mem_filter]
  exact and_iff_right (Finset.mem_univ t)

theorem State.reached_zero : s.reached 0 = s.existing := by
  ext t
  rw [State.mem_reached, State.existing, Finset.mem_filter]
  cases s.phase t <;> simp [Phase.reached]

theorem State.setPhase_self : (s.setPhase t p).phase t = p := Function.update_self _ _ _

theorem State.setPhase_ne (hu : u ≠ t) : (s.setPhase t p).phase u = s.phase u :=
  Function.update_of_ne hu _ _

theorem Phase.reached_mono {j : Nat} (hij : i ≤ j) (h : p.reached j = true) : p.reached i = true := by
  cases p with
  | absent => exact h
  | load k => exact decide_eq_true (Nat.le_trans hij (of_decide_eq_true h))
  | cas k => exact decide_eq_true (Nat.le_trans hij (of_decide_eq_true h))
  | live k => exact decide_eq_true (Nat.le_trans hij (of_decide_eq_true h))

/-- A thread that has come as far as entry `i` is one of at least `i + 1`. -/
theorem Inv.lt_of_reached (h : Inv numThreads P s) (ht : (s.phase t).reached i = true) : i < P := by
  have hne : (s.reached i).Nonempty := ⟨t, State.mem_reached.mpr ht⟩
  have hb := h.behind i hne
  have hpos := Finset.card_pos.mpr hne
  omega

/-- A step that takes `t` as far as entry `i` only if it was there. -/
theorem Inv.behind_of_le (h : Inv numThreads P s) (hp : p.reached i = true → (s.phase t).reached i = true)
    (hne : ((s.setPhase t p).reached i).Nonempty) : ((s.setPhase t p).reached i).card + i ≤ P := by
  have hsub : (s.setPhase t p).reached i ⊆ s.reached i := by
    intro u hu
    rw [State.mem_reached] at hu ⊢
    by_cases hut : u = t
    · rw [hut, State.setPhase_self] at hu
      rw [hut]
      exact hp hu
    · rwa [State.setPhase_ne hut] at hu
  have hc := Finset.card_le_card hsub
  have hb := h.behind i (hne.mono hsub)
  omega

/-- The thread goes on to the next entry: it leaves behind the thread that holds this one. -/
theorem Inv.behind_of_inUse (h : Inv numThreads P s) (ht : s.phase t = .load i ∨ s.phase t = .cas i)
    (hi : s.inUse i = true) {j : Nat} (hne : ((s.setPhase t (.load (i + 1))).reached j).Nonempty) :
    ((s.setPhase t (.load (i + 1))).reached j).card + j ≤ P := by
  have hreached : ∀ k, (s.phase t).reached k = decide (k ≤ i) := by
    intro k
    rcases ht with ht | ht <;> (rw [ht]; rfl)
  by_cases hj : j = i + 1
  · subst hj
    obtain ⟨u, hu⟩ := (h.held i).mp hi
    have hut : u ≠ t := by
      rintro rfl
      rcases ht with ht | ht <;> (rw [ht] at hu; cases hu)
    have hsub : (s.setPhase t (.load (i + 1))).reached (i + 1) ⊆ (s.reached i).erase u := by
      intro v hv
      rw [State.mem_reached] at hv
      rw [Finset.mem_erase, State.mem_reached]
      by_cases hvt : v = t
      · subst hvt
        exact ⟨Ne.symm hut, by rw [hreached]; exact decide_eq_true (Nat.le_refl i)⟩
      · rw [State.setPhase_ne hvt] at hv
        refine ⟨?_, Phase.reached_mono (Nat.le_succ i) hv⟩
        rintro rfl
        rw [hu] at hv
        exact Nat.not_succ_le_self i (of_decide_eq_true hv)
    have hmem : u ∈ s.reached i := by
      rw [State.mem_reached, hu]
      exact decide_eq_true (Nat.le_refl i)
    have hc := Finset.card_le_card hsub
    rw [Finset.card_erase_of_mem hmem] at hc
    have hb := h.behind i ⟨u, hmem⟩
    have hpos := Finset.card_pos.mpr ⟨u, hmem⟩
    omega
  · refine h.behind_of_le (fun hp => ?_) hne
    have hp := of_decide_eq_true hp
    rw [hreached]
    exact decide_eq_true (by omega)

/-- The constructor goes on, without an entry. -/
theorem Inv.goes (h : Inv numThreads P s) (hnot : ∀ i, s.phase t ≠ .live i) (hnew : ∀ i, p ≠ .live i)
    (hlt : ∀ i, p = .cas i → i < numThreads)
    (hb : ∀ i, ((s.setPhase t p).reached i).Nonempty → ((s.setPhase t p).reached i).card + i ≤ P) :
    Inv numThreads P (s.setPhase t p) := by
  have hlive : ∀ u i, (s.setPhase t p).phase u = .live i ↔ s.phase u = .live i := by
    intro u i
    by_cases hut : u = t
    · rw [hut, State.setPhase_self]
      exact iff_of_false (hnew i) (hnot i)
    · rw [State.setPhase_ne hut]
  refine ⟨fun i => ?_, fun u v i hu hv => ?_, fun u i hu => ?_, hb, h.exited⟩
  · exact (h.held i).trans (exists_congr fun u => (hlive u i).symm)
  · exact h.unique u v i ((hlive u i).mp hu) ((hlive v i).mp hv)
  · rcases hu with hu | hu
    · exact h.lt u i (Or.inl ((hlive u i).mp hu))
    · by_cases hut : u = t
      · rw [hut, State.setPhase_self] at hu
        exact hlt i hu
      · rw [State.setPhase_ne hut] at hu
        exact h.lt u i (Or.inr hu)

theorem Inv.acquire (h : Inv numThreads P s) (ht : s.phase t = .cas i) (hi : s.inUse i = false) :
    Inv numThreads P ((s.setInUse i true).setPhase t (.live i)) := by
  have hfree : ∀ u, s.phase u ≠ .live i := by
    intro u hu
    rw [(h.held i).mpr ⟨u, hu⟩] at hi
    cases hi
  have hlive : ∀ u j, ((s.setInUse i true).setPhase t (.live i)).phase u = .live j →
      u = t ∧ j = i ∨ u ≠ t ∧ s.phase u = .live j := by
    intro u j hu
    by_cases hut : u = t
    · rw [hut, State.setPhase_self] at hu
      cases hu
      exact Or.inl ⟨hut, rfl⟩
    · rw [State.setPhase_ne hut] at hu
      exact Or.inr ⟨hut, hu⟩
  refine ⟨fun j => ?_, fun u v j hu hv => ?_, fun u j hu => ?_, fun j hne => ?_, h.exited⟩
  · change Function.update s.inUse i true j = true ↔ _
    by_cases hj : j = i
    · subst hj
      rw [Function.update_self]
      exact iff_of_true rfl ⟨t, State.setPhase_self⟩
    · rw [Function.update_of_ne hj, h.held]
      constructor
      · rintro ⟨u, hu⟩
        refine ⟨u, ?_⟩
        rw [State.setPhase_ne]
        · exact hu
        · rintro rfl
          rw [ht] at hu
          cases hu
      · rintro ⟨u, hu⟩
        rcases hlive u j hu with ⟨_, rfl⟩ | ⟨_, hu⟩
        · exact absurd rfl hj
        · exact ⟨u, hu⟩
  · rcases hlive u j hu with ⟨rfl, rfl⟩ | ⟨_, hu⟩
    · rcases hlive v j hv with ⟨rfl, _⟩ | ⟨_, hv⟩
      · rfl
      · exact absurd hv (hfree v)
    · rcases hlive v j hv with ⟨_, hj⟩ | ⟨_, hv⟩
      · rw [hj] at hu
        exact absurd hu (hfree u)
      · exact h.unique u v j hu hv
  · by_cases hut : u = t
    · rw [hut, State.setPhase_self] at hu
      rcases hu with hu | hu
      · cases hu
        exact h.lt t i (Or.inr ht)
      · cases hu
    · rw [State.setPhase_ne hut] at hu
      exact h.lt u j hu
  · refine h.behind_of_le (p := .live i) (t := t) (fun hp => ?_) hne
    rw [ht]
    exact hp

theorem Inv.destroy (h : Inv numThreads P s) (ht : s.phase t = .live i) :
    Inv numThreads P ((s.setInUse i false).setPhase t .absent) := by
  have hlive : ∀ u j, ((s.setInUse i false).setPhase t .absent).phase u = .live j →
      u ≠ t ∧ s.phase u = .live j := by
    intro u j hu
    by_cases hut : u = t
    · rw [hut, State.setPhase_self] at hu
      cases hu
    · rw [State.setPhase_ne hut] at hu
      exact ⟨hut, hu⟩
  refine ⟨fun j => ?_, fun u v j hu hv => h.unique u v j (hlive u j hu).2 (hlive v j hv).2,
    fun u j hu => ?_, fun j hne => ?_, h.exited⟩
  · change Function.update s.inUse i false j = true ↔ _
    by_cases hj : j = i
    · subst hj
      rw [Function.update_self]
      refine iff_of_false (by simp) ?_
      rintro ⟨u, hu⟩
      obtain ⟨hut, hu⟩ := hlive u j hu
      exact hut (h.unique u t j hu ht)
    · rw [Function.update_of_ne hj, h.held]
      constructor
      · rintro ⟨u, hu⟩
        refine ⟨u, ?_⟩
        rw [State.setPhase_ne]
        · exact hu
        · rintro rfl
          rw [ht] at hu
          cases hu
          exact hj rfl
      · rintro ⟨u, hu⟩
        exact ⟨u, (hlive u j hu).2⟩
  · by_cases hut : u = t
    · rw [hut, State.setPhase_self] at hu
      rcases hu with hu | hu <;> cases hu
    · rw [State.setPhase_ne hut] at hu
      exact h.lt u j hu
  · refine h.behind_of_le (p := .absent) (t := t) (fun hp => ?_) hne
    cases hp

/-- One step, after which there are at most `P` threads. -/
theorem Inv.next (h : Inv numThreads P s) {l : Label n} (hl : next numThreads s l = some s')
    (hP : s'.existing.card ≤ P) : Inv numThreads P s' := by
  cases l with
  | begin t =>
    obtain ⟨⟨_, ht⟩, hl⟩ := Option.ite_none_right_eq_some.mp hl
    cases hl
    refine h.goes (by rw [ht]; simp) (by simp) (by simp) fun i hne => ?_
    cases i with
    | zero =>
      rw [State.reached_zero]
      exact hP
    | succ i =>
      refine h.behind_of_le (fun hp => ?_) hne
      have hp : i + 1 ≤ 0 := of_decide_eq_true hp
      omega
  | step t =>
    obtain ⟨_, hl⟩ := Option.ite_none_right_eq_some.mp hl
    cases hp : s.phase t with
    | absent =>
      rw [hp] at hl
      cases hl
    | live i =>
      rw [hp] at hl
      cases hl
    | load i =>
      rw [hp] at hl
      simp only [State.construct] at hl
      split at hl
      · next hi =>
        split at hl
        · cases hl
          refine h.goes (by rw [hp]; simp) (by simp) (fun j hj => ?_) fun j hne => ?_
          · cases hj
            exact hi
          · refine h.behind_of_le (fun hr => ?_) hne
            rw [hp]
            exact hr
        · next hu =>
          cases hl
          exact h.goes (by rw [hp]; simp) (by simp) (by simp)
            fun j hne => h.behind_of_inUse (Or.inl hp) (by simpa using hu) hne
      · next hi =>
        cases hl
        refine ⟨h.held, h.unique, h.lt, h.behind, fun _ => ?_⟩
        have hlt := h.lt_of_reached (t := t) (i := i) (by rw [hp]; exact decide_eq_true (Nat.le_refl i))
        omega
    | cas i =>
      rw [hp] at hl
      simp only [State.construct] at hl
      split at hl
      · next hi =>
        cases hl
        exact h.acquire hp hi
      · next hu =>
        cases hl
        exact h.goes (by rw [hp]; simp) (by simp) (by simp)
          fun j hne => h.behind_of_inUse (Or.inr hp) (by simpa using hu) hne
  | destroy t =>
    simp only [ThreadId.next] at hl
    split at hl
    · next i hx ht =>
      cases hl
      exact h.destroy ht
    · cases hl

theorem Inv.initial : Inv numThreads P (.initial : State n) where
  held := by intro i; simp [State.initial]
  unique := by intro t u i ht; cases ht
  lt := by intro t i h; rcases h with h | h <;> cases h
  behind := by
    rintro i ⟨t, ht⟩
    rw [State.mem_reached] at ht
    cases ht
  exited := by intro h; cases h

end Model

/-- **Thread ids.** In every run with at most `P` threads at a time: no two threads have the same id,
every id is an entry of `in_use` and smaller than `P`, and an entry is in use exactly when a thread
has it. With `P` no more than `num_threads()` no constructor calls `std::exit`. -/
theorem thread_ids {numThreads n P : Nat} {s : State n}
    (h : (machine numThreads n).During (fun s => s.existing.card ≤ P) .initial s) :
    (∀ t u i, s.phase t = .live i → s.phase u = .live i → t = u) ∧
      (∀ t i, s.phase t = .live i → i < numThreads ∧ i < P) ∧
      (∀ i, s.inUse i = true ↔ ∃ t, s.phase t = .live i) ∧
      (P ≤ numThreads → s.exited = false) := by
  have hi : Inv numThreads P s := h.keeps (fun s₁ l s₂ hi hl hP => hi.next hl hP) Inv.initial
  refine ⟨hi.unique, fun t i ht => ⟨hi.lt t i (Or.inl ht), ?_⟩, hi.held, fun hP => ?_⟩
  · refine hi.lt_of_reached (t := t) ?_
    rw [ht]
    exact decide_eq_true (Nat.le_refl i)
  · cases he : s.exited with
    | false => rfl
    | true =>
      have hlt := hi.exited he
      omega

/-- Two entries, and three threads, of which there are never more than two. Thread 1 has found the
entry of thread 0 in use when thread 0 ends; it takes the second one, and thread 2 the first. -/
def comeAndGo : List (Label 3) :=
  [.begin 0, .step 0, .step 0, .begin 1, .step 1, .destroy 0, .step 1, .step 1, .begin 2, .step 2, .step 2]

theorem thread_ids_comeAndGo :
    ∃ s, (machine 2 3).execIn (fun s => s.existing.card ≤ 2) comeAndGo .initial = some s ∧
      s.phase 1 = .live 1 ∧ s.phase 2 = .live 0 ∧ s.exited = false := by
  have he : ∃ s, (machine 2 3).execIn (fun s => s.existing.card ≤ 2) comeAndGo .initial = some s ∧
      s.phase 1 = .live 1 ∧ s.phase 2 = .live 0 := ⟨_, rfl, rfl, rfl⟩
  obtain ⟨s, hs, h1, h2⟩ := he
  exact ⟨s, hs, h1, h2, (thread_ids (Machine.During.refl.exec hs)).2.2.2 (Nat.le_refl 2)⟩

end Cdrc.ThreadId
