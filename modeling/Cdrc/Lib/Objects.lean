import Mathlib.Logic.Function.Basic
import Cdrc.Lib.History

/-! # Concurrent objects and their sequential specification

Threads call an object; a thread is in one call at a time. `Calls` keeps what a client
sees of that, the history, and the call of each thread. An order of calls is kept beside
it in proofs: `Tracks` says that the order linearizes the history and which of the running
calls are already in it, with which response.

A call is put into the order when it takes effect. Mostly that is at the end
(`Tracks.commit`). A call that changes nothing may also be put where it would have had
its response in the past, as long as that is within its own time (`Tracks.insert`):
`Saw` remembers that the object was in such a state since the call began. -/
namespace Cdrc.Lib.Objects
open Cdrc.Lib.History

/-- A sequential object. -/
structure Seq (σ Op Ret : Type) where
  init : σ
  apply : σ → Op → σ × Ret

namespace Seq
variable {σ Op Ret : Type} (S : Seq σ Op Ret)

/-- The state after a list of calls. -/
def after : σ → List (Entry Op Ret) → σ
  | s, [] => s
  | s, e :: L => after (S.apply s e.op).1 L

/-- Every call returns what the sequential object returns. -/
def Exact : σ → List (Entry Op Ret) → Prop
  | _, [] => True
  | s, e :: L => e.ret = (S.apply s e.op).2 ∧ Exact (S.apply s e.op).1 L

/-- An order of calls that the object accepts. -/
def Legal (L : List (Entry Op Ret)) : Prop := S.Exact S.init L

variable {S}

theorem after_append (s : σ) (A B : List (Entry Op Ret)) :
    S.after s (A ++ B) = S.after (S.after s A) B := by
  induction A generalizing s with
  | nil => rfl
  | cons e A ih => exact ih _

theorem exact_append {s : σ} {A B : List (Entry Op Ret)} :
    S.Exact s (A ++ B) ↔ S.Exact s A ∧ S.Exact (S.after s A) B := by
  induction A generalizing s with
  | nil => exact ⟨fun h => ⟨trivial, h⟩, fun h => h.2⟩
  | cons e A ih =>
    simp only [List.cons_append, Exact, after, ih]
    exact ⟨fun h => ⟨⟨h.1, h.2.1⟩, h.2.2⟩, fun h => ⟨h.1.1, h.1.2, h.2⟩⟩

/-- A call that changes nothing may be put in anywhere its response is right. -/
theorem insert {s : σ} {A B : List (Entry Op Ret)} {e : Entry Op Ret} (h : S.Exact s (A ++ B))
    (he : S.apply (S.after s A) e.op = (S.after s A, e.ret)) :
    S.Exact s (A ++ e :: B) ∧ S.after s (A ++ e :: B) = S.after s (A ++ B) := by
  rw [exact_append] at h
  refine ⟨exact_append.mpr ⟨h.1, by rw [he], by rw [he]; exact h.2⟩, ?_⟩
  rw [after_append, after_append, after, he]

end Seq

structure Calls (ι Op Ret : Type) where
  hist : List (Event Op Ret)
  nextId : Nat
  /-- the number of the call a thread is in, and what it called -/
  call : ι → Option (Nat × Op)

namespace Calls
variable {ι Op Ret : Type} [DecidableEq ι]

def empty : Calls ι Op Ret := ⟨[], 0, fun _ => none⟩

def invoke (c : Calls ι Op Ret) (t : ι) (o : Op) : Calls ι Op Ret where
  hist := c.hist ++ [.inv c.nextId o]
  nextId := c.nextId + 1
  call := Function.update c.call t (some (c.nextId, o))

/-- Thread `t` returns from its call with `r`. -/
def respond (c : Calls ι Op Ret) (t : ι) (r : Ret) : Calls ι Op Ret :=
  match c.call t with
  | some (i, _) =>
    { c with
      hist := c.hist ++ [.res i r]
      call := Function.update c.call t none }
  | none => c

end Calls

section Tracks
variable {ι Op Ret : Type}

/-- The order `L` linearizes the history; `ret t` is the response that the running call of
`t` has in it, if it is in it. -/
structure Tracks (c : Calls ι Op Ret) (L : List (Entry Op Ret)) (ret : ι → Option Ret) :
    Prop where
  lin : Linearization c.hist L
  invoked : ∀ t i o, c.call t = some (i, o) → Event.inv i o ∈ c.hist
  running : ∀ t i o, c.call t = some (i, o) → ∀ r, Event.res i r ∉ c.hist
  inj : ∀ t u i o o', c.call t = some (i, o) → c.call u = some (i, o') → t = u
  pending : ∀ t i o, c.call t = some (i, o) → ret t = none → ∀ e ∈ L, e.id ≠ i
  placed : ∀ t i o r, c.call t = some (i, o) → ret t = some r → ⟨i, o, r⟩ ∈ L
  fresh : ∀ i o, Event.inv i o ∈ c.hist → i < c.nextId
  answered : ∀ i r, Event.res i r ∈ c.hist → i < c.nextId

variable {c : Calls ι Op Ret} {L : List (Entry Op Ret)} {ret : ι → Option Ret}

theorem Tracks.empty : Tracks (⟨[], 0, fun _ => none⟩ : Calls ι Op Ret) [] ret where
  lin := Linearization.nil
  invoked := by simp
  running := by simp
  inj := by simp
  pending := by simp
  placed := by simp
  fresh := by simp
  answered := by simp

theorem Tracks.id_lt (h : Tracks c L ret) {e : Entry Op Ret} (he : e ∈ L) : e.id < c.nextId :=
  h.fresh e.id e.op (h.lin.invoked e he)

/-- Only the responses recorded for running calls matter. -/
theorem Tracks.congr (h : Tracks c L ret) {ret' : ι → Option Ret}
    (hr : ∀ t i o, c.call t = some (i, o) → ret' t = ret t) : Tracks c L ret' :=
  { h with
    pending := fun t i o hc hn => h.pending t i o hc (hr t i o hc ▸ hn)
    placed := fun t i o r hc hn => h.placed t i o r hc (hr t i o hc ▸ hn) }

variable [DecidableEq ι]

theorem Tracks.invoke (h : Tracks c L ret) (t : ι) (o : Op) :
    Tracks (c.invoke t o) L (Function.update ret t none) := by
  have hne : ∀ e ∈ L, e.id ≠ c.nextId := fun e he => Nat.ne_of_lt (h.id_lt he)
  have hother : ∀ u i o', (c.invoke t o).call u = some (i, o') →
      (u = t ∧ i = c.nextId ∧ o' = o) ∨ (u ≠ t ∧ c.call u = some (i, o')) := by
    intro u i o' hu
    by_cases hut : u = t
    · subst hut
      simp only [Calls.invoke, Function.update_self, Option.some.injEq, Prod.mk.injEq] at hu
      exact Or.inl ⟨rfl, hu.1.symm, hu.2.symm⟩
    · simp only [Calls.invoke, Function.update_of_ne hut] at hu
      exact Or.inr ⟨hut, hu⟩
  refine ⟨h.lin.invoke hne, ?_, ?_, ?_, ?_, ?_, ?_, ?_⟩
  · intro u i o' hu
    rcases hother u i o' hu with ⟨_, rfl, rfl⟩ | ⟨_, hu⟩
    · simp [Calls.invoke]
    · exact List.mem_append_left _ (h.invoked u i o' hu)
  · intro u i o' hu r hr
    simp only [Calls.invoke, List.mem_append, List.mem_singleton, reduceCtorEq, or_false] at hr
    rcases hother u i o' hu with ⟨_, rfl, rfl⟩ | ⟨_, hu⟩
    · exact absurd (h.answered _ r hr) (Nat.lt_irrefl _)
    · exact h.running u i o' hu r hr
  · intro u v i o₁ o₂ hu hv
    rcases hother u i o₁ hu with ⟨rfl, rfl, _⟩ | ⟨_, hu⟩
    · rcases hother v _ o₂ hv with ⟨rfl, _⟩ | ⟨_, hv⟩
      · rfl
      · exact absurd (h.fresh _ _ (h.invoked v _ o₂ hv)) (Nat.lt_irrefl _)
    · rcases hother v i o₂ hv with ⟨_, rfl, _⟩ | ⟨_, hv⟩
      · exact absurd (h.fresh _ _ (h.invoked u _ o₁ hu)) (Nat.lt_irrefl _)
      · exact h.inj u v i o₁ o₂ hu hv
  · intro u i o' hu hn
    rcases hother u i o' hu with ⟨_, rfl, _⟩ | ⟨hut, hu⟩
    · exact hne
    · rw [Function.update_of_ne hut] at hn
      exact h.pending u i o' hu hn
  · intro u i o' r hu hn
    rcases hother u i o' hu with ⟨rfl, _, _⟩ | ⟨hut, hu⟩
    · simp at hn
    · rw [Function.update_of_ne hut] at hn
      exact h.placed u i o' r hu hn
  · intro i o' hi
    simp only [Calls.invoke, List.mem_append, List.mem_singleton, Event.inv.injEq] at hi ⊢
    rcases hi with hi | ⟨rfl, _⟩
    · exact Nat.lt_succ_of_lt (h.fresh i o' hi)
    · exact Nat.lt_succ_self _
  · intro i r hi
    simp only [Calls.invoke, List.mem_append, List.mem_singleton, reduceCtorEq, or_false] at hi ⊢
    exact Nat.lt_succ_of_lt (h.answered i r hi)

/-- A running call is put into the order, before calls that had not responded when it
was invoked. -/
theorem Tracks.insert {A B : List (Entry Op Ret)} (h : Tracks c (A ++ B) ret) {t : ι} {i : Nat}
    {o : Op} (r : Ret) (ht : c.call t = some (i, o)) (hr : ret t = none)
    (hB : ∀ b ∈ B, ¬ Precedes c.hist b.id i) :
    Tracks c (A ++ ⟨i, o, r⟩ :: B) (Function.update ret t (some r)) := by
  have hmem : ∀ e, e ∈ A ++ ⟨i, o, r⟩ :: B ↔ e ∈ A ++ B ∨ e = ⟨i, o, r⟩ := by
    intro e
    simp only [List.mem_append, List.mem_cons]
    exact ⟨fun h => h.elim (fun h => .inl (.inl h)) fun h => h.elim .inr fun h => .inl (.inr h),
      fun h => h.elim (fun h => h.elim .inl fun h => .inr (.inr h)) fun h => .inr (.inl h)⟩
  refine ⟨h.lin.insert (h.invoked t i o ht) (h.running t i o ht) (h.pending t i o ht hr) hB,
    h.invoked, h.running, h.inj, ?_, ?_, h.fresh, h.answered⟩
  · intro u j o' hu hn e he
    have hut : u ≠ t := by
      rintro rfl
      simp at hn
    rw [Function.update_of_ne hut] at hn
    rcases (hmem e).mp he with he | rfl
    · exact h.pending u j o' hu hn e he
    · rintro rfl
      exact hut (h.inj u t _ o' o hu ht)
  · intro u j o' r' hu hn
    by_cases hut : u = t
    · subst hut
      rw [ht] at hu
      cases hu
      rw [Function.update_self] at hn
      cases hn
      exact (hmem _).mpr (.inr rfl)
    · rw [Function.update_of_ne hut] at hn
      exact (hmem _).mpr (.inl (h.placed u j o' r' hu hn))

/-- A running call takes effect now. -/
theorem Tracks.commit (h : Tracks c L ret) {t : ι} {i : Nat} {o : Op} (r : Ret)
    (ht : c.call t = some (i, o)) (hr : ret t = none) :
    Tracks c (L ++ [⟨i, o, r⟩]) (Function.update ret t (some r)) := by
  have h' : Tracks c (L ++ []) ret := by rwa [List.append_nil]
  exact h'.insert r ht hr (by simp)

theorem Tracks.respond (h : Tracks c L ret) {t : ι} {i : Nat} {o : Op} {r : Ret}
    (ht : c.call t = some (i, o)) (hr : ret t = some r) :
    Tracks (c.respond t r) L ret := by
  have hc : c.respond t r = ⟨c.hist ++ [.res i r], c.nextId, Function.update c.call t none⟩ := by
    simp only [Calls.respond, ht]
  have hother : ∀ u j o', (c.respond t r).call u = some (j, o') →
      u ≠ t ∧ c.call u = some (j, o') := by
    intro u j o' hu
    rw [hc] at hu
    by_cases hut : u = t
    · subst hut
      simp at hu
    · exact ⟨hut, by simpa [Function.update_of_ne hut] using hu⟩
  have he := h.placed t i o r ht hr
  have hlin := h.lin.respond he
  refine ⟨by rw [hc]; exact hlin, ?_, ?_, ?_, ?_, ?_, ?_, ?_⟩
  · intro u j o' hu
    rw [hc]
    exact List.mem_append_left _ (h.invoked u j o' (hother u j o' hu).2)
  · intro u j o' hu r' hr'
    obtain ⟨hut, hu⟩ := hother u j o' hu
    rw [hc] at hr'
    rcases List.mem_append.mp hr' with hr' | hr'
    · exact h.running u j o' hu r' hr'
    · simp only [List.mem_singleton, Event.res.injEq] at hr'
      obtain ⟨rfl, _⟩ := hr'
      exact hut (h.inj u t _ o' o hu ht)
  · intro u v j o₁ o₂ hu hv
    exact h.inj u v j o₁ o₂ (hother u j o₁ hu).2 (hother v j o₂ hv).2
  · intro u j o' hu hn
    exact h.pending u j o' (hother u j o' hu).2 hn
  · intro u j o' r' hu hn
    exact h.placed u j o' r' (hother u j o' hu).2 hn
  · intro j o' hj
    rw [hc] at hj ⊢
    simp only [List.mem_append, List.mem_singleton, reduceCtorEq, or_false] at hj
    exact h.fresh j o' hj
  · intro j r' hj
    rw [hc] at hj ⊢
    rcases List.mem_append.mp hj with hj | hj
    · exact h.answered j r' hj
    · simp only [List.mem_singleton, Event.res.injEq] at hj
      obtain ⟨rfl, _⟩ := hj
      exact h.fresh _ o (h.invoked t _ o ht)

end Tracks

/-! ## States a call has seen -/

section Saw
variable {σ Op Ret : Type} {S : Seq σ Op Ret} {L : List (Entry Op Ret)} {P : σ → Prop}

/-- The object was in a state with `P` at some point of the order at which call `i` can
still be put. -/
def Saw (S : Seq σ Op Ret) (hist : List (Event Op Ret)) (L : List (Entry Op Ret)) (i : Nat)
    (P : σ → Prop) : Prop :=
  ∃ A B, L = A ++ B ∧ P (S.after S.init A) ∧ ∀ b ∈ B, ¬ Precedes hist b.id i

theorem Saw.now {hist : List (Event Op Ret)} {i : Nat} (h : P (S.after S.init L)) :
    Saw S hist L i P :=
  ⟨L, [], by simp, h, by simp⟩

theorem Saw.mono {hist : List (Event Op Ret)} {i : Nat} {Q : σ → Prop} (h : Saw S hist L i P)
    (hPQ : ∀ s, P s → Q s) : Saw S hist L i Q := by
  obtain ⟨A, B, hL, hp, hb⟩ := h
  exact ⟨A, B, hL, hPQ _ hp, hb⟩

/-- Another call takes effect now. -/
theorem Saw.commit {hist : List (Event Op Ret)} {i : Nat} {e : Entry Op Ret}
    (h : Saw S hist L i P) (he : ∀ r, Event.res e.id r ∉ hist) : Saw S hist (L ++ [e]) i P := by
  obtain ⟨A, B, rfl, hp, hb⟩ := h
  refine ⟨A, B ++ [e], by simp, hp, ?_⟩
  intro b hm
  rcases List.mem_append.mp hm with hm | hm
  · exact hb b hm
  · rw [List.mem_singleton.mp hm]
    exact not_precedes_of_running he

/-- Another call that changes nothing is put somewhere before the end. -/
theorem Saw.insert {hist : List (Event Op Ret)} {i : Nat} {A B : List (Entry Op Ret)}
    {e : Entry Op Ret} (h : Saw S hist (A ++ B) i P) (he : ∀ r, Event.res e.id r ∉ hist)
    (hro : S.apply (S.after S.init A) e.op = (S.after S.init A, e.ret)) :
    Saw S hist (A ++ e :: B) i P := by
  obtain ⟨A', B', hL, hp, hb⟩ := h
  rcases List.append_eq_append_iff.mp hL with ⟨C, rfl, rfl⟩ | ⟨C, rfl, rfl⟩
  · refine ⟨A ++ e :: C, B', by simp, ?_, hb⟩
    have hs : S.after S.init (A ++ e :: C) = S.after S.init (A ++ C) := by
      rw [Seq.after_append, Seq.after_append, Seq.after, hro]
    rwa [hs]
  · refine ⟨A', C ++ e :: B, by simp, hp, ?_⟩
    intro b hm
    simp only [List.mem_append, List.mem_cons] at hm
    rcases hm with hm | rfl | hm
    · exact hb b (List.mem_append_left _ hm)
    · exact not_precedes_of_running he
    · exact hb b (List.mem_append_right _ hm)

theorem Saw.invoke {hist : List (Event Op Ret)} {i j : Nat} {o : Op} (h : Saw S hist L i P)
    (hij : i ≠ j) : Saw S (hist ++ [.inv j o]) L i P := by
  obtain ⟨A, B, hL, hp, hb⟩ := h
  refine ⟨A, B, hL, hp, fun b hm => ?_⟩
  rw [precedes_invoke hij]
  exact hb b hm

theorem Saw.respond {hist : List (Event Op Ret)} {i j : Nat} {r : Ret} (h : Saw S hist L i P) :
    Saw S (hist ++ [.res j r]) L i P := by
  obtain ⟨A, B, hL, hp, hb⟩ := h
  refine ⟨A, B, hL, hp, fun b hm => ?_⟩
  rw [precedes_respond]
  exact hb b hm

end Saw

end Cdrc.Lib.Objects
