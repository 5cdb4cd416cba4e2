import Mathlib.Algebra.Order.Group.Multiset
import Mathlib.Logic.Relation

/-! # Bags of commuting tasks

A configuration is a state and a bag of tasks to do. Any task of the bag may be done
next; it changes the state and puts new tasks into the bag. When any two tasks commute,
the order in which the bag is emptied does not matter: all runs that empty it end in the
same state (`Tasks.final_unique`). -/
namespace Cdrc.Lib
open Relation

universe u v

/-- What each task does to the state, and the tasks it creates. -/
structure Tasks (σ : Type u) (τ : Type v) where
  act : τ → σ → σ
  spawn : τ → σ → Multiset τ

namespace Tasks
variable {σ : Type u} {τ : Type v} (T : Tasks σ τ)

/-- One task of the bag is done. -/
def Step (c c' : σ × Multiset τ) : Prop :=
  ∃ t b, c.2 = t ::ₘ b ∧ c' = (T.act t c.1, T.spawn t c.1 + b)

/-- Doing `t` and `u` in either order gives the same state and the same new tasks. -/
structure Commutes (t u : τ) (s : σ) : Prop where
  act : T.act u (T.act t s) = T.act t (T.act u s)
  spawn : T.spawn t s + T.spawn u (T.act t s) = T.spawn u s + T.spawn t (T.act u s)

variable {T}

theorem Step.run (t : τ) (s : σ) (b : Multiset τ) :
    T.Step (s, t ::ₘ b) (T.act t s, T.spawn t s + b) :=
  ⟨t, b, rfl, rfl⟩

/-- Two different tasks of one bag, done in either order. -/
theorem Step.diamond (h : ∀ t u s, T.Commutes t u s) {c c₁ c₂ : σ × Multiset τ}
    (h₁ : T.Step c c₁) (h₂ : T.Step c c₂) : ∃ d, ReflGen T.Step c₁ d ∧ ReflTransGen T.Step c₂ d := by
  obtain ⟨s, b₀⟩ := c
  obtain ⟨t, b, hb, rfl⟩ := h₁
  obtain ⟨u, b', hb', rfl⟩ := h₂
  rw [hb] at hb'
  rcases Multiset.cons_eq_cons.mp hb' with ⟨rfl, rfl⟩ | ⟨_, b'', rfl, rfl⟩
  · exact ⟨_, ReflGen.refl, ReflTransGen.refl⟩
  · have hc := h t u s
    have h₁ : T.Step (T.act t s, T.spawn t s + u ::ₘ b'')
        (T.act u (T.act t s), T.spawn t s + T.spawn u (T.act t s) + b'') := by
      have := Step.run (T := T) u (T.act t s) (T.spawn t s + b'')
      rwa [← Multiset.add_cons, add_left_comm, ← add_assoc] at this
    have h₂ : T.Step (T.act u s, T.spawn u s + t ::ₘ b'')
        (T.act u (T.act t s), T.spawn t s + T.spawn u (T.act t s) + b'') := by
      have := Step.run (T := T) t (T.act u s) (T.spawn u s + b'')
      rw [← Multiset.add_cons, add_left_comm, ← add_assoc] at this
      rwa [hc.act, hc.spawn]
    exact ⟨_, ReflGen.single h₁, ReflTransGen.single h₂⟩

theorem not_step_empty {s : σ} {c : σ × Multiset τ} : ¬ T.Step (s, 0) c := by
  rintro ⟨t, b, hb, _⟩
  exact Multiset.cons_ne_zero hb.symm

/-- All runs that empty the bag end in the same state. -/
theorem final_unique (h : ∀ t u s, T.Commutes t u s) {c : σ × Multiset τ} {s₁ s₂ : σ}
    (h₁ : ReflTransGen T.Step c (s₁, 0)) (h₂ : ReflTransGen T.Step c (s₂, 0)) : s₁ = s₂ := by
  obtain ⟨d, hd₁, hd₂⟩ := church_rosser (fun _ _ _ => Step.diamond h) h₁ h₂
  have e₁ : d = (s₁, 0) := by
    rcases hd₁.cases_head with he | ⟨_, hs, _⟩
    · exact he.symm
    · exact absurd hs not_step_empty
  have e₂ : d = (s₂, 0) := by
    rcases hd₂.cases_head with he | ⟨_, hs, _⟩
    · exact he.symm
    · exact absurd hs not_step_empty
  exact (Prod.mk.inj (e₁.symm.trans e₂)).1

/-- What every task keeps, in every configuration of a run. -/
theorem keeps {I : σ × Multiset τ → Prop} (hs : ∀ c c', I c → T.Step c c' → I c')
    {c c' : σ × Multiset τ} (h : ReflTransGen T.Step c c') (h0 : I c) : I c' := by
  induction h with
  | refl => exact h0
  | tail _ hstep ih => exact hs _ _ ih hstep

end Tasks

end Cdrc.Lib
