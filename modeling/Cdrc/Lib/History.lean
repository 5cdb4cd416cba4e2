import Mathlib.Data.List.Basic
import Mathlib.Data.List.Pairwise
import Mathlib.Data.List.Perm.Basic

/-! # Histories and their linearizations

A history is the list of invocations and responses of calls, in the order in which
they happen. A linearization orders the calls: every call that has responded, with
its response, and any of those still running, with a response of our choice. It
respects real time: no call comes before one that had responded before it was
invoked. What the order has to obey besides is the object's own specification,
the predicate `legal`.

The lemmas say how a linearization follows a growing history: an invocation and a
response leave it as it is, a running call may be appended (`Linearization.commit`),
and a call that has not responded may be moved to any later place or given another
response (`Linearization.postpone`, `Linearization.revise`). -/
namespace Cdrc.Lib.History

variable {Op Ret : Type}

/-- A call's invocation or response. Calls are numbered. -/
inductive Event (Op Ret : Type) where
  | inv (i : Nat) (o : Op)
  | res (i : Nat) (r : Ret)
  deriving DecidableEq, Repr

/-- A call with its response, as a linearization orders it. -/
structure Entry (Op Ret : Type) where
  id : Nat
  op : Op
  ret : Ret
  deriving DecidableEq, Repr

/-- Call `a` had responded when call `b` was invoked. -/
def Precedes (h : List (Event Op Ret)) (a b : Nat) : Prop :=
  ∃ r o, [Event.res a r, Event.inv b o].Sublist h

structure Linearization (h : List (Event Op Ret)) (L : List (Entry Op Ret)) : Prop where
  nodup : (L.map Entry.id).Nodup
  invoked : ∀ e ∈ L, Event.inv e.id e.op ∈ h
  complete : ∀ i r, Event.res i r ∈ h → ∃ e ∈ L, e.id = i ∧ e.ret = r
  realTime : L.Pairwise fun a b => ¬ Precedes h b.id a.id

/-- The history is equivalent to a sequential one that `legal` accepts. -/
def Linearizable (legal : List (Entry Op Ret) → Prop) (h : List (Event Op Ret)) : Prop :=
  ∃ L, Linearization h L ∧ legal L

/-! ## Precedence in a growing history -/

/-- A call that has not responded precedes none. -/
theorem not_precedes_of_running {h : List (Event Op Ret)} {a b : Nat}
    (ha : ∀ r, Event.res a r ∉ h) : ¬ Precedes h a b := by
  rintro ⟨r, o, hs⟩
  exact ha r (hs.subset (by simp))

theorem pair_sublist_snoc {α : Type} {x y z : α} {h : List α}
    (hs : [x, y].Sublist (h ++ [z])) : [x, y].Sublist h ∨ (x ∈ h ∧ y = z) := by
  rw [List.sublist_append_iff] at hs
  obtain ⟨l₁, l₂, he, h₁, h₂⟩ := hs
  rcases l₁ with _ | ⟨p, _ | ⟨q, l₁⟩⟩
  · have := h₂.length_le
    simp only [List.nil_append] at he
    rw [← he] at this
    simp at this
  · simp only [List.cons_append, List.nil_append, List.cons.injEq] at he
    obtain ⟨rfl, rfl⟩ := he
    exact Or.inr ⟨h₁.subset (by simp), by simpa using h₂.subset (List.mem_singleton_self y)⟩
  · simp only [List.cons_append, List.cons.injEq] at he
    obtain ⟨rfl, rfl, he⟩ := he
    obtain ⟨rfl, rfl⟩ := List.append_eq_nil_iff.mp he.symm
    exact Or.inl h₁

theorem precedes_respond {h : List (Event Op Ret)} {a b i : Nat} {r : Ret} :
    Precedes (h ++ [Event.res i r]) a b ↔ Precedes h a b := by
  constructor
  · rintro ⟨r', o, hs⟩
    rcases pair_sublist_snoc hs with hs | ⟨_, hs⟩
    · exact ⟨r', o, hs⟩
    · cases hs
  · rintro ⟨r', o, hs⟩
    exact ⟨r', o, hs.trans (List.sublist_append_left _ _)⟩

theorem precedes_invoke {h : List (Event Op Ret)} {a b i : Nat} {o : Op} (hb : b ≠ i) :
    Precedes (h ++ [Event.inv i o]) a b ↔ Precedes h a b := by
  constructor
  · rintro ⟨r', o', hs⟩
    rcases pair_sublist_snoc hs with hs | ⟨_, hs⟩
    · exact ⟨r', o', hs⟩
    · cases hs; exact absurd rfl hb
  · rintro ⟨r', o', hs⟩
    exact ⟨r', o', hs.trans (List.sublist_append_left _ _)⟩

/-! ## Linearizations that follow the history -/

namespace Linearization
variable {h : List (Event Op Ret)} {L : List (Entry Op Ret)}

theorem nil : Linearization ([] : List (Event Op Ret)) [] :=
  ⟨by simp, by simp, by simp, List.Pairwise.nil⟩

theorem invoke (l : Linearization h L) {i : Nat} {o : Op} (hi : ∀ e ∈ L, e.id ≠ i) :
    Linearization (h ++ [Event.inv i o]) L where
  nodup := l.nodup
  invoked e he := List.mem_append_left _ (l.invoked e he)
  complete j r hr := by
    rcases List.mem_append.mp hr with hr | hr
    · exact l.complete j r hr
    · simp at hr
  realTime := l.realTime.imp_of_mem fun ha _ hp => by
    rwa [precedes_invoke (hi _ ha)]

theorem respond (l : Linearization h L) {e : Entry Op Ret} (he : e ∈ L) :
    Linearization (h ++ [Event.res e.id e.ret]) L where
  nodup := l.nodup
  invoked e he := List.mem_append_left _ (l.invoked e he)
  complete j r hr := by
    rcases List.mem_append.mp hr with hr | hr
    · exact l.complete j r hr
    · simp only [List.mem_singleton, Event.res.injEq] at hr
      exact ⟨e, he, hr.1.symm, hr.2.symm⟩
  realTime := l.realTime.imp fun hp => by rwa [precedes_respond]

/-- No later call of the order had responded before an earlier one was invoked. -/
theorem not_precedes {A B : List (Entry Op Ret)} {e : Entry Op Ret}
    (l : Linearization h (A ++ e :: B)) : ∀ f ∈ B, ¬ Precedes h f.id e.id := by
  have hp := l.realTime
  simp only [List.pairwise_append, List.pairwise_cons] at hp
  exact hp.2.1.1

/-- A running call takes effect now. -/
theorem commit (l : Linearization h L) {e : Entry Op Ret} (hinv : Event.inv e.id e.op ∈ h)
    (hrun : ∀ r, Event.res e.id r ∉ h) (hnew : ∀ f ∈ L, f.id ≠ e.id) :
    Linearization h (L ++ [e]) where
  nodup := by
    rw [List.map_append, List.nodup_append]
    refine ⟨l.nodup, by simp, ?_⟩
    rintro _ hx _ hy
    obtain ⟨f, hf, rfl⟩ := List.mem_map.mp hx
    simp only [List.map_cons, List.map_nil, List.mem_singleton] at hy
    rw [hy]
    exact hnew f hf
  invoked f hf := by
    rcases List.mem_append.mp hf with hf | hf
    · exact l.invoked f hf
    · simp only [List.mem_singleton] at hf; exact hf ▸ hinv
  complete j r hr := by
    obtain ⟨f, hf, hj⟩ := l.complete j r hr
    exact ⟨f, List.mem_append_left _ hf, hj⟩
  realTime := by
    refine List.pairwise_append.mpr ⟨l.realTime, List.pairwise_singleton _ _, ?_⟩
    intro a _ b hb
    simp only [List.mem_singleton] at hb
    exact hb ▸ not_precedes_of_running hrun

/-- A running call is put where no call after it had responded when it was invoked. -/
theorem insert {A B : List (Entry Op Ret)} {e : Entry Op Ret} (l : Linearization h (A ++ B))
    (hinv : Event.inv e.id e.op ∈ h) (hrun : ∀ r, Event.res e.id r ∉ h)
    (hnew : ∀ f ∈ A ++ B, f.id ≠ e.id) (hB : ∀ f ∈ B, ¬ Precedes h f.id e.id) :
    Linearization h (A ++ e :: B) where
  nodup := by
    have hn := (l.commit hinv hrun hnew).nodup
    refine (List.Perm.nodup_iff ?_).mp hn
    refine List.Perm.map _ ?_
    rw [List.append_assoc]
    exact List.Perm.append_left _ (List.perm_append_singleton e B)
  invoked f hf := by
    simp only [List.mem_append, List.mem_cons] at hf
    rcases hf with hf | rfl | hf
    · exact l.invoked f (List.mem_append_left _ hf)
    · exact hinv
    · exact l.invoked f (List.mem_append_right _ hf)
  complete j r hr := by
    obtain ⟨f, hf, hj⟩ := l.complete j r hr
    simp only [List.mem_append, List.mem_cons] at hf ⊢
    exact ⟨f, hf.elim Or.inl fun hf => Or.inr (Or.inr hf), hj⟩
  realTime := by
    have hp := l.realTime
    simp only [List.pairwise_append, List.pairwise_cons, List.mem_cons] at hp ⊢
    obtain ⟨hA, hBB, hAB⟩ := hp
    refine ⟨hA, ⟨hB, hBB⟩, ?_⟩
    rintro a ha b (rfl | hb)
    · exact not_precedes_of_running hrun
    · exact hAB a ha b hb

/-- A running call takes effect later than it was recorded to, with another response. -/
theorem postpone {A B C : List (Entry Op Ret)} {x y : Entry Op Ret}
    (l : Linearization h (A ++ x :: (B ++ C))) (hid : y.id = x.id) (hop : y.op = x.op)
    (hrun : ∀ r, Event.res x.id r ∉ h) : Linearization h (A ++ (B ++ y :: C)) where
  nodup := by
    have hn := l.nodup
    simp only [List.map_append, List.map_cons] at hn ⊢
    rw [hid]
    refine (List.Perm.nodup_iff ?_).mp hn
    exact List.Perm.append_left _ List.perm_middle.symm
  invoked f hf := by
    have hin := l.invoked
    simp only [List.mem_append, List.mem_cons] at hf hin
    rcases hf with hf | hf | rfl | hf
    · exact hin f (Or.inl hf)
    · exact hin f (Or.inr (Or.inr (Or.inl hf)))
    · rw [hid, hop]; exact hin x (Or.inr (Or.inl rfl))
    · exact hin f (Or.inr (Or.inr (Or.inr hf)))
  complete j r hr := by
    obtain ⟨f, hf, hj, hr'⟩ := l.complete j r hr
    simp only [List.mem_append, List.mem_cons] at hf ⊢
    rcases hf with hf | rfl | hf | hf
    · exact ⟨f, Or.inl hf, hj, hr'⟩
    · exact absurd hr (hj ▸ hrun r)
    · exact ⟨f, Or.inr (Or.inl hf), hj, hr'⟩
    · exact ⟨f, Or.inr (Or.inr (Or.inr hf)), hj, hr'⟩
  realTime := by
    have hp := l.realTime
    simp only [List.pairwise_append, List.pairwise_cons, List.mem_append, List.mem_cons] at hp ⊢
    obtain ⟨hA, ⟨hx, hB, hC, hBC⟩, hAx⟩ := hp
    refine ⟨hA, ⟨hB, ⟨?_, hC⟩, ?_⟩, ?_⟩
    · intro b hb; rw [hid]; exact hx b (Or.inr hb)
    · rintro a ha b (rfl | hb)
      · rw [hid]; exact not_precedes_of_running hrun
      · exact hBC a ha b hb
    · rintro a ha b (hb | rfl | hb)
      · exact hAx a ha b (Or.inr (Or.inl hb))
      · rw [hid]; exact hAx a ha x (Or.inl rfl)
      · exact hAx a ha b (Or.inr (Or.inr hb))

/-- A running call is given another response. -/
theorem revise {A C : List (Entry Op Ret)} {x y : Entry Op Ret}
    (l : Linearization h (A ++ x :: C)) (hid : y.id = x.id) (hop : y.op = x.op)
    (hrun : ∀ r, Event.res x.id r ∉ h) : Linearization h (A ++ y :: C) := by
  simpa using postpone (B := []) (by simpa using l) hid hop hrun

end Linearization

end Cdrc.Lib.History
