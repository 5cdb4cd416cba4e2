import Mathlib.Logic.Function.Basic
import Cdrc.Lib.Runs

/-! # Threads that run code, and a logic for them

A thread's code is a tree: it returns, performs one atomic action of the shared
state and continues with the action's result, or calls a procedure. Loops and
mutual recursion are calls, so a procedure's body may call any procedure.

`System.machine` interleaves the actions of any number of threads. The logic is the
one of an invariant and thread-local assertions: `Logic.inv` holds between any two
actions, `Logic.loc t s` is the part of the state only thread `t` writes, and
`Logic.wp` says of a piece of `t`'s code what of that part must hold for every action
in it to keep the invariant. A call is met through the procedure's specification,
never through its body, so `wp` is defined by recursion on the code although the
procedures are recursive. `Logic.sound` turns it into a property of every run. -/
namespace Cdrc.Lib.Threads
open Cdrc.Lib.Runs

/-- Code with actions `A β` and procedures `P β` that return a `β`. -/
inductive Prog (A P : Type → Type) (α : Type) : Type 1
  | ret (a : α)
  | act {β : Type} (x : A β) (k : β → Prog A P α)
  | call {β : Type} (p : P β) (k : β → Prog A P α)

section Code
variable {A P : Type → Type} {α β : Type}

namespace Prog

def bind : Prog A P α → (α → Prog A P β) → Prog A P β
  | ret a, f => f a
  | act x k, f => act x fun r => (k r).bind f
  | call p k, f => call p fun v => (k v).bind f

instance : Monad (Prog A P) where
  pure := ret
  bind := bind

/-- One action. -/
def perform (x : A β) : Prog A P β := act x ret

/-- One call. -/
def invoke (p : P β) : Prog A P β := call p ret

end Prog
end Code

/-- Threads `T` over a state `σ`. An action may depend on a choice `C` that nothing in
the state decides, and on a state in which it is not enabled the thread waits. `op` is
the code of the operations `O` a thread can start, and `can` when it may. -/
structure System (T σ C : Type) (A P : Type → Type) (O : Type) where
  init : σ → Prop
  exec : {β : Type} → T → C → A β → σ → Option (β × σ)
  body : {β : Type} → P β → Prog A P β
  op : O → Prog A P Unit
  can : T → O → σ → Bool

namespace System
variable {T σ C : Type} {A P : Type → Type} {O : Type}

/-- The shared state and what each thread still has to run. -/
structure State (T σ : Type) (A P : Type → Type) where
  mem : σ
  code : T → Option (Prog A P Unit)

inductive Label (T C O : Type)
  /-- the idle thread `t` starts an operation -/
  | start (t : T) (o : O)
  /-- thread `t` takes the next step of its code -/
  | step (t : T) (c : C)

variable (S : System T σ C A P O) [DecidableEq T]

def next (s : State T σ A P) : Label T C O → Option (State T σ A P)
  | .start t o =>
    match s.code t with
    | none =>
      if S.can t o s.mem then some { s with code := Function.update s.code t (some (S.op o)) }
      else none
    | some _ => none
  | .step t c =>
    match s.code t with
    | none => none
    | some (.ret _) => some { s with code := Function.update s.code t none }
    | some (.act x k) =>
      (S.exec t c x s.mem).map fun r => ⟨r.2, Function.update s.code t (some (k r.1))⟩
    | some (.call p k) =>
      some { s with code := Function.update s.code t (some ((S.body p).bind k)) }

def machine : Machine (State T σ A P) (Label T C O) where
  init s := S.init s.mem ∧ ∀ t, s.code t = none
  next := S.next

/-- The runs in which every action meets `allow`. -/
def Meets (allow : {β : Type} → T → A β → σ → Prop) (s : State T σ A P) : Label T C O → Prop
  | .start _ _ => True
  | .step t _ =>
    match s.code t with
    | some (.act x _) => allow t x s.mem
    | _ => True

instance {allow : {β : Type} → T → A β → σ → Prop}
    [∀ β t (x : A β) s, Decidable (allow t x s)]
    (s : State T σ A P) : (a : Label T C O) → Decidable (Meets allow s a)
  | .start _ _ => .isTrue trivial
  | .step t _ =>
    match hc : s.code t with
    | some (.act x _) => decidable_of_iff (allow t x s.mem) (by simp only [Meets, hc])
    | none => .isTrue (by simp only [Meets, hc])
    | some (.ret _) => .isTrue (by simp only [Meets, hc])
    | some (.call _ _) => .isTrue (by simp only [Meets, hc])

end System

/-- An invariant of a system, what of the state belongs to a thread, which actions the
runs under consideration take, and a specification for every procedure. -/
structure Logic (T σ Λ : Type) (A P : Type → Type) where
  inv : σ → Prop
  loc : T → σ → Λ
  allow : {β : Type} → T → A β → σ → Prop
  idle : Λ → Prop
  pre : {β : Type} → P β → Λ → Prop
  post : {β : Type} → P β → Λ → β → Λ → Prop

namespace Logic
variable {T σ C Λ O : Type} {A P : Type → Type} {α β : Type}
variable (S : System T σ C A P O) (G : Logic T σ Λ A P)

/-- Code that keeps the invariant when thread `t` runs it from the local state `l`, and
ends with `Q`. -/
def wp (t : T) : Prog A P α → (α → Λ → Prop) → Λ → Prop
  | .ret a, Q, l => Q a l
  | .act x k, Q, l => ∀ s c r s', G.inv s → G.loc t s = l → G.allow t x s →
      S.exec t c x s = some (r, s') → G.inv s' ∧ wp t (k r) Q (G.loc t s')
  | .call p k, Q, l => G.pre p l ∧ ∀ v l', G.post p l v l' → wp t (k v) Q l'

variable {S G} {t : T} {l : Λ}

theorem wp_bind {c : Prog A P α} {f : α → Prog A P β} {Q : β → Λ → Prop} :
    wp S G t (c >>= f) Q l ↔ wp S G t c (fun a l => wp S G t (f a) Q l) l := by
  change wp S G t (c.bind f) Q l ↔ _
  induction c generalizing l with
  | ret a => rfl
  | act x k ih => simp only [Prog.bind, wp, ih]
  | call p k ih => simp only [Prog.bind, wp, ih]

theorem wp_mono {c : Prog A P α} {Q Q' : α → Λ → Prop} (h : ∀ a l, Q a l → Q' a l)
    (hc : wp S G t c Q l) : wp S G t c Q' l := by
  induction c generalizing l with
  | ret a => exact h a l hc
  | act x k ih =>
    intro s c r s' hi hl ha he
    exact ⟨(hc s c r s' hi hl ha he).1, ih r (hc s c r s' hi hl ha he).2⟩
  | call p k ih => exact ⟨hc.1, fun v l' hp => ih v (hc.2 v l' hp)⟩

theorem wp_invoke {p : P β} {Q : β → Λ → Prop} :
    wp S G t (Prog.invoke p) Q l ↔ G.pre p l ∧ ∀ v l', G.post p l v l' → Q v l' := Iff.rfl

/-- What must be shown of a system for its invariant to hold in every run. -/
structure Sound (S : System T σ C A P O) (G : Logic T σ Λ A P) : Prop where
  init : ∀ s, S.init s → G.inv s ∧ ∀ t, G.idle (G.loc t s)
  /-- an action leaves the other threads' parts alone -/
  frame : ∀ {β : Type} t u c (x : A β) s r s', S.exec t c x s = some (r, s') → u ≠ t → G.loc u s' = G.loc u s
  op : ∀ t o s, G.inv s → S.can t o s = true → G.idle (G.loc t s) →
    wp S G t (S.op o) (fun _ l => G.idle l) (G.loc t s)
  body : ∀ {β : Type} t (p : P β) l, G.pre p l → wp S G t (S.body p) (G.post p l) l

/-- The code a thread is left with keeps the invariant. -/
def Ready (S : System T σ C A P O) (G : Logic T σ Λ A P) (t : T) (s : σ) :
    Option (Prog A P Unit) → Prop
  | none => G.idle (G.loc t s)
  | some c => wp S G t c (fun _ l => G.idle l) (G.loc t s)

variable [DecidableEq T]

theorem Ready.update {s s' : σ} {code : T → Option (Prog A P Unit)} {c}
    (h : ∀ u, Ready S G u s (code u)) (hl : ∀ u, u ≠ t → G.loc u s' = G.loc u s)
    (ht : Ready S G t s' c) (u : T) : Ready S G u s' (Function.update code t c u) := by
  by_cases hu : u = t
  · subst hu
    simpa using ht
  · have hr := h u
    rw [Function.update_of_ne hu]
    cases hc : code u with
    | none => rw [hc] at hr; simpa only [Ready, hl u hu] using hr
    | some c' => rw [hc] at hr; simpa only [Ready, hl u hu] using hr

theorem Sound.step (h : Sound S G) {s s' : System.State T σ A P} {a : System.Label T C O}
    (hs : G.inv s.mem ∧ ∀ t, Ready S G t s.mem (s.code t)) (ha : System.Meets G.allow s a)
    (hn : S.next s a = some s') :
    G.inv s'.mem ∧ ∀ t, Ready S G t s'.mem (s'.code t) := by
  obtain ⟨hi, hr⟩ := hs
  cases a with
  | start t o =>
    simp only [System.next] at hn
    split at hn
    · rename_i hc
      split at hn
      · rename_i hcan
        cases hn
        have ht := hr t
        rw [hc] at ht
        exact ⟨hi, Ready.update hr (fun _ _ => rfl) (h.op t o s.mem hi hcan ht)⟩
      · cases hn
    · cases hn
  | step t c =>
    have ht := hr t
    simp only [System.next] at hn
    split at hn
    · cases hn
    · rename_i hc
      cases hn
      rw [hc] at ht
      exact ⟨hi, Ready.update hr (fun _ _ => rfl) ht⟩
    · rename_i x k hc
      obtain ⟨⟨r, m⟩, he, hm⟩ := Option.map_eq_some_iff.mp hn
      cases hm
      rw [hc] at ht
      simp only [System.Meets, hc] at ha
      obtain ⟨hi', hw⟩ := ht s.mem c r m hi rfl ha he
      exact ⟨hi', Ready.update hr (fun u hu => h.frame t u c x s.mem r m he hu) hw⟩
    · rename_i p k hc
      cases hn
      rw [hc] at ht
      refine ⟨hi, Ready.update hr (fun _ _ => rfl) ?_⟩
      exact wp_bind.mpr (wp_mono (fun v l' hp => ht.2 v l' hp) (h.body t p _ ht.1))

theorem Sound.start (h : Sound S G) {s : System.State T σ A P} (hs : S.machine.init s) :
    G.inv s.mem ∧ ∀ t, Ready S G t s.mem (s.code t) := by
  obtain ⟨hs, hc⟩ := hs
  obtain ⟨hi, hl⟩ := h.init s.mem hs
  refine ⟨hi, fun t => ?_⟩
  rw [hc t]
  exact hl t

/-- The invariant holds in every state of every run whose actions are allowed. -/
theorem Sound.reach (h : Sound S G) [∀ β t (x : A β) s, Decidable (G.allow t x s)]
    {s : System.State T σ A P}
    (hr : (S.machine.restrict (System.Meets G.allow)).Reach s) :
    G.inv s.mem ∧ ∀ t, Ready S G t s.mem (s.code t) := by
  refine hr.invariant (I := fun s => G.inv s.mem ∧ ∀ t, Ready S G t s.mem (s.code t))
    (fun _ => h.start) ?_
  intro s a s' hs hn
  obtain ⟨ha, hn⟩ := Machine.restrict_next.mp hn
  exact h.step hs ha hn

/-- The same of every run, when the invariant allows every action. -/
theorem Sound.reach_all (h : Sound S G) (hall : ∀ {β : Type} t (x : A β) s, G.inv s → G.allow t x s)
    {s : System.State T σ A P} (hr : S.machine.Reach s) :
    G.inv s.mem ∧ ∀ t, Ready S G t s.mem (s.code t) := by
  refine hr.invariant (I := fun s => G.inv s.mem ∧ ∀ t, Ready S G t s.mem (s.code t))
    (fun _ => h.start) ?_
  intro s a s' hs hn
  refine h.step hs ?_ hn
  cases a with
  | start t o => trivial
  | step t c =>
    simp only [System.Meets]
    split
    · exact hall _ _ _ hs.1
    · trivial

end Logic

/-- What a step of the machine does to the shared state. -/
theorem System.next_mem {T σ C O : Type} {A P : Type → Type} {S : System T σ C A P O}
    [DecidableEq T] {s s' : System.State T σ A P} {a : System.Label T C O}
    (hn : S.next s a = some s') :
    s'.mem = s.mem ∨ ∃ (β : Type) (t : T) (c : C) (x : A β) (r : β),
      S.exec t c x s.mem = some (r, s'.mem) := by
  cases a with
  | start t o =>
    simp only [System.next] at hn
    split at hn
    · split at hn
      · cases hn
        exact Or.inl rfl
      · cases hn
    · cases hn
  | step t c =>
    simp only [System.next] at hn
    split at hn
    · cases hn
    · cases hn
      exact Or.inl rfl
    · rename_i x k _
      obtain ⟨⟨r, m⟩, he, hm⟩ := Option.map_eq_some_iff.mp hn
      cases hm
      exact Or.inr ⟨_, t, c, x, r, he⟩
    · cases hn
      exact Or.inl rfl

end Cdrc.Lib.Threads
