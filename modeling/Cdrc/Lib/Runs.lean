import Mathlib.Algebra.BigOperators.Group.List.Basic
import Mathlib.Algebra.GroupWithZero.Nat
import Mathlib.Algebra.Order.Group.Nat
import Mathlib.Data.List.Nodup

/-! # Runs of labelled machines

A machine is a partial transition function: in a state, a label (which thread
acts, and what it chooses) determines at most one next state. Everything an
interleaving may decide is in the labels, so a property of every schedule is a
property of every list of labels, and one schedule can be evaluated.

`Machine.Reach` is what some run visits, `Machine.Reach.invariant` the rule every
safety proof below uses, and `Machine.restrict` the runs whose steps all meet a
condition on the state before the step. -/
namespace Cdrc.Lib.Runs

universe u v

-- schedules name their threads, and their nodes, by literals of `Fin 1` to `Fin 4`
instance neZero_one : NeZero 1 := ⟨Nat.one_ne_zero⟩

instance neZero_two : NeZero 2 := ⟨Nat.succ_ne_zero 1⟩

instance neZero_three : NeZero 3 := ⟨Nat.succ_ne_zero 2⟩

instance neZero_four : NeZero 4 := ⟨Nat.succ_ne_zero 3⟩

/-- A machine with states `σ` and labels `α`. A label that is not enabled in a
state has no next state. -/
structure Machine (σ : Type u) (α : Type v) where
  init : σ → Prop
  next : σ → α → Option σ

namespace Machine
variable {σ : Type u} {α : Type v} {M : Machine σ α}

/-- The states of the runs of `M`. -/
inductive Reach (M : Machine σ α) : σ → Prop
  | init {s : σ} : M.init s → Reach M s
  | step {s s' : σ} (a : α) : Reach M s → M.next s a = some s' → Reach M s'

/-- What holds initially and is kept by every step holds in every state of
every run. -/
theorem Reach.invariant {I : σ → Prop} (h0 : ∀ s, M.init s → I s)
    (hs : ∀ s a s', I s → M.next s a = some s' → I s') {s : σ} (h : M.Reach s) : I s := by
  induction h with
  | init h => exact h0 _ h
  | step a _ h ih => exact hs _ a _ ih h

/-- One schedule, evaluated. -/
def exec (M : Machine σ α) : List α → σ → Option σ
  | [], s => some s
  | a :: as, s => (M.next s a).bind (M.exec as)

theorem Reach.exec {s s' : σ} (h : M.Reach s) :
    ∀ {as : List α}, M.exec as s = some s' → M.Reach s' := by
  intro as
  induction as generalizing s with
  | nil => intro he; cases he; exact h
  | cons a as ih =>
    intro he
    obtain ⟨t, ht, he⟩ := Option.bind_eq_some_iff.mp he
    exact ih (h.step a ht) he

theorem exec_append {as bs : List α} {s s₁ s' : σ} (h : M.exec as s = some s₁)
    (h' : M.exec bs s₁ = some s') : M.exec (as ++ bs) s = some s' := by
  induction as generalizing s with
  | nil =>
    cases h
    exact h'
  | cons a as ih =>
    obtain ⟨t, ht, h⟩ := Option.bind_eq_some_iff.mp h
    exact Option.bind_eq_some_iff.mpr ⟨t, ht, ih h⟩

/-- The machine whose steps must meet `ok` in the state they start from. -/
def restrict (M : Machine σ α) (ok : σ → α → Prop) [∀ s a, Decidable (ok s a)] :
    Machine σ α where
  init := M.init
  next s a := if ok s a then M.next s a else none

theorem restrict_next {ok : σ → α → Prop} [∀ s a, Decidable (ok s a)] {s s' : σ} {a : α} :
    (M.restrict ok).next s a = some s' ↔ ok s a ∧ M.next s a = some s' := by
  simp only [restrict]
  split
  · rename_i h; simp [h]
  · rename_i h; simp [h]

/-- The machine with a record of its run beside it. No step depends on the record. -/
def recorded {γ : Type v} (M : Machine σ α) (start : γ) (log : σ → α → γ → γ) : Machine (σ × γ) α where
  init s := M.init s.1 ∧ s.2 = start
  next s a := (M.next s.1 a).map fun s' => (s', log s.1 a s.2)

/-- `s'` is reached from `s` through states that meet `P`. -/
inductive During (M : Machine σ α) (P : σ → Prop) (s : σ) : σ → Prop
  | refl : During M P s s
  | step {s' s'' : σ} (a : α) : During M P s s' → M.next s' a = some s'' → P s'' →
      During M P s s''

/-- A step before the others. -/
theorem During.head {P : σ → Prop} {s s₁ s' : σ} {a : α} (h : M.During P s₁ s')
    (hn : M.next s a = some s₁) (hp : P s₁) : M.During P s s' := by
  induction h with
  | refl => exact .step a .refl hn hp
  | step b _ hb hpb ih => exact .step b ih hb hpb

theorem During.reach {P : σ → Prop} {s s' : σ} (h : M.During P s s') (hr : M.Reach s) :
    M.Reach s' := by
  induction h with
  | refl => exact hr
  | step a _ hn _ ih => exact ih.step a hn

/-- `t` is a next state of `s`. -/
def Steps (M : Machine σ α) (t s : σ) : Prop := ∃ a, M.next s a = some t

/-- `t` is a next state of `s` and meets `P`. -/
def StepsIn (M : Machine σ α) (P : σ → Prop) (t s : σ) : Prop := M.Steps t s ∧ P t

/-- What every step keeps and a measure that every step lowers: every run from such a state
comes to its end. -/
theorem acc_of_lex {R : σ → σ → Prop} {I : σ → Prop} {μ : σ → Nat × Nat}
    (hs : ∀ s t, I s → R t s → I t ∧ Prod.Lex (· < ·) (· < ·) (μ t) (μ s)) {s : σ}
    (h : I s) : Acc R s := by
  have hwf : WellFounded (Prod.Lex (· < ·) (· < ·) : Nat × Nat → Nat × Nat → Prop) :=
    WellFounded.prod_lex Nat.lt_wfRel.wf Nat.lt_wfRel.wf
  induction hm : μ s using hwf.induction generalizing s with
  | _ m ih =>
    subst hm
    refine .intro s fun t ht => ?_
    obtain ⟨hi, hlt⟩ := hs s t h ht
    exact ih (μ t) hlt hi rfl

/-- One schedule through states that meet `P`, evaluated. -/
def execIn (M : Machine σ α) (P : σ → Prop) [DecidablePred P] : List α → σ → Option σ
  | [], s => some s
  | a :: as, s => (M.next s a).bind fun s' => if P s' then M.execIn P as s' else none

theorem During.exec {P : σ → Prop} [DecidablePred P] {s s' s'' : σ} (h : M.During P s s') :
    ∀ {as : List α}, M.execIn P as s' = some s'' → M.During P s s'' := by
  intro as
  induction as generalizing s' with
  | nil => intro he; cases he; exact h
  | cons a as ih =>
    intro he
    obtain ⟨t, ht, he⟩ := Option.bind_eq_some_iff.mp he
    split at he
    · rename_i hp
      exact ih (h.step a ht hp) he
    · cases he

/-- What every step within `P` keeps. -/
theorem During.keeps {P I : σ → Prop} {s s' : σ} (h : M.During P s s')
    (hs : ∀ s₁ a s₂, I s₁ → M.next s₁ a = some s₂ → P s₂ → I s₂) (h0 : I s) : I s' := by
  induction h with
  | refl => exact h0
  | step a _ hn hp ih => exact hs _ a _ ih hn hp

end Machine

/-! ## Sums over a list in which one element changes

The machines below keep their operations in flight in a list; a step rewrites,
appends or removes one element. -/

section Sums
variable {α : Type}

theorem sum_map_set (f : α → Nat) : ∀ (l : List α) (k : Nat) (a b : α), l[k]? = some b →
    ((l.set k a).map f).sum + f b = (l.map f).sum + f a
  | [], _, _, _, h => by simp at h
  | x :: l, 0, a, b, h => by
    simp only [List.getElem?_cons_zero, Option.some.injEq] at h
    subst h
    simp only [List.set_cons_zero, List.map_cons, List.sum_cons]
    omega
  | x :: l, k + 1, a, b, h => by
    simp only [List.getElem?_cons_succ] at h
    have := sum_map_set f l k a b h
    simp only [List.set_cons_succ, List.map_cons, List.sum_cons]
    omega

theorem sum_map_eraseIdx (f : α → Nat) : ∀ (l : List α) (k : Nat) (b : α), l[k]? = some b →
    ((l.eraseIdx k).map f).sum + f b = (l.map f).sum
  | [], _, _, h => by simp at h
  | x :: l, 0, b, h => by
    simp only [List.getElem?_cons_zero, Option.some.injEq] at h
    subst h
    simp only [List.eraseIdx_cons_zero, List.map_cons, List.sum_cons]
    omega
  | x :: l, k + 1, b, h => by
    simp only [List.getElem?_cons_succ] at h
    have := sum_map_eraseIdx f l k b h
    simp only [List.eraseIdx_cons_succ, List.map_cons, List.sum_cons]
    omega

theorem le_sum_map_of_getElem? (f : α → Nat) {l : List α} {k : Nat} {b : α}
    (h : l[k]? = some b) : f b ≤ (l.map f).sum := by
  have := sum_map_eraseIdx f l k b h
  omega

end Sums

/-! ## A list of keyed elements in which one element changes -/

section Keyed
variable {α ι : Type} {f : α → ι} {l : List α} {k : Nat} {b c d : α}

theorem mem_set_of_nodup (hn : (l.map f).Nodup) (hk : l[k]? = some c) (hd : d ∈ l.set k b) :
    (d ∈ l ∧ f d ≠ f c) ∨ d = b := by
  obtain ⟨j, hj⟩ := List.mem_iff_getElem?.mp hd
  rw [List.getElem?_set] at hj
  split at hj
  · split at hj
    · exact Or.inr (by simpa using hj.symm)
    · simp at hj
  · rename_i hne
    refine Or.inl ⟨List.mem_of_getElem? hj, ?_⟩
    intro he
    obtain ⟨hlk, hck⟩ := List.getElem?_eq_some_iff.mp hk
    obtain ⟨hlj, hdj⟩ := List.getElem?_eq_some_iff.mp hj
    refine hne ((@List.Nodup.getElem_inj_iff _ _ hn k (by simpa) j (by simpa)).mp ?_)
    simp only [List.getElem_map]
    rw [hck, hdj, he]

theorem mem_set_self (hk : l[k]? = some c) : b ∈ l.set k b :=
  List.mem_set (List.getElem?_eq_some_iff.mp hk).1 _

theorem mem_set_of_key_ne (hk : l[k]? = some c) (hd : d ∈ l) (hne : f d ≠ f c) :
    d ∈ l.set k b := by
  obtain ⟨j, hj⟩ := List.mem_iff_getElem?.mp hd
  refine List.mem_iff_getElem?.mpr ⟨j, ?_⟩
  rw [List.getElem?_set, if_neg ?_]
  · exact hj
  · rintro rfl
    rw [hk] at hj
    cases hj
    exact hne rfl

theorem map_key_set (hk : l[k]? = some c) (hkey : f b = f c) :
    (l.set k b).map f = l.map f := by
  rw [List.map_set]
  obtain ⟨hlt, hck⟩ := List.getElem?_eq_some_iff.mp hk
  refine List.ext_getElem? fun j => ?_
  rw [List.getElem?_set]
  split
  · rename_i hkj
    subst hkj
    simp [hlt, hck, hkey]
  · rfl

theorem mem_eraseIdx_of_key_ne (hk : l[k]? = some c) (hd : d ∈ l) (hne : f d ≠ f c) :
    d ∈ l.eraseIdx k := by
  obtain ⟨j, hj⟩ := List.mem_iff_getElem?.mp hd
  refine List.mem_eraseIdx_iff_getElem?.mpr ⟨j, ?_, hj⟩
  rintro rfl
  rw [hk] at hj
  cases hj
  exact hne rfl

theorem key_ne_of_mem_eraseIdx (hn : (l.map f).Nodup) (hk : l[k]? = some c)
    (hd : d ∈ l.eraseIdx k) : f d ≠ f c := by
  obtain ⟨j, hjk, hj⟩ := List.mem_eraseIdx_iff_getElem?.mp hd
  intro he
  obtain ⟨hlk, hck⟩ := List.getElem?_eq_some_iff.mp hk
  obtain ⟨hlj, hdj⟩ := List.getElem?_eq_some_iff.mp hj
  refine hjk ((@List.Nodup.getElem_inj_iff _ _ hn j (by simpa) k (by simpa)).mp ?_)
  simp only [List.getElem_map]
  rw [hck, hdj, he]

end Keyed

/-! ## A log that grows at its end -/

section Log
variable {α : Type}

/-- What holds of every event and the events before it still does when an event
that meets it is appended. -/
theorem forall_before_snoc {P : List α → α → Prop} {l : List α} {a : α}
    (h : ∀ p e q, l = p ++ e :: q → P p e) (ha : P l a) :
    ∀ p e q, l ++ [a] = p ++ e :: q → P p e := by
  intro p e q he
  rcases List.eq_nil_or_concat q with rfl | ⟨q, b, rfl⟩
  · obtain ⟨hl, ha'⟩ := List.append_inj' he rfl
    cases ha'
    exact hl ▸ ha
  · rw [List.concat_eq_append, ← List.cons_append, ← List.append_assoc] at he
    obtain ⟨hl, _⟩ := List.append_inj' he rfl
    exact h p e q hl

end Log

end Cdrc.Lib.Runs
