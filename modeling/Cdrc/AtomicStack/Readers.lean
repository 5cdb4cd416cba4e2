import Cdrc.AtomicStack.Linearizability

/-! # `find` and `size` of `atomic_stack`

They take one snapshot of `head` and walk along the `rc_ptr`s in the nodes from there, while others push
and pop. The snapshot keeps its own node only; the others are kept by the `rc_ptr` in the
node before. Nobody writes to a node that has been published, so the walk sees the stack as it was at
the snapshot, also when all of its nodes have been popped since.

The threads that push and pop are those of `AtomicStack.machine`; beside them any number of readers. -/
namespace Cdrc.AtomicStack.Readers
open Cdrc.Lib.Runs Cdrc.Lib.Objects Cdrc.Lib.History

inductive Query (β : Type)
  | find (t : β)
  | size
  deriving DecidableEq, Repr

inductive Answer
  | found (b : Bool)
  | size (n : Nat)
  deriving DecidableEq, Repr

/-- A reader between two of its steps. -/
inductive Walk (α β : Type)
  | idle
  /-- before `head.get_snapshot()` -/
  | snapshot (q : Query β)
  /-- with the snapshot `ss`, before `node` is looked at; `size` has counted `result` nodes -/
  | walk (q : Query β) (ss node : Option α) (result : Nat)
  /-- before the return, with the snapshot -/
  | ret (q : Query β) (ss : Option α) (a : Answer)
  deriving DecidableEq, Repr

structure State (α β : Type) (n m : Nat) where
  stack : AtomicStack.State α β n
  walk : Fin m → Walk α β
  /-- the history at the call of a reader; no step reads it -/
  called : Fin m → List (Event (Op β) (Ret β))
  /-- the stack at the snapshot of a reader; no step reads it -/
  seen : Fin m → AtomicStack.State α β n

def State.initial {α β : Type} {n m : Nat} : State α β n m where
  stack := .initial
  walk _ := .idle
  called _ := []
  seen _ := .initial

section Model
variable {α β : Type} [DecidableEq α] [DecidableEq β] {n m : Nat}

/-- The reader has a snapshot of `a`. -/
def Walk.protects (a : α) : Walk α β → Bool
  | .walk _ ss _ _ => ss = some a
  | .ret _ ss _ => ss = some a
  | _ => false

def State.setWalk (s : State α β n m) (r : Fin m) (w : Walk α β) : State α β n m :=
  { s with walk := Function.update s.walk r w }

/-- `node == nullptr` -/
def Query.atEnd (result : Nat) : Query β → Answer
  | .find _ => .found false
  | .size => .size result

/-- `node` is at `nd`. -/
def Query.at (ss : Option α) (nd : Node α β) (result : Nat) : Query β → Walk α β
  | .find t => if nd.t = t then .ret (.find t) ss (.found true) else .walk (.find t) ss nd.next result
  | .size => .walk .size ss nd.next (result + 1)

/-- The next step of reader `r`. -/
def State.step (s : State α β n m) (r : Fin m) : Option (State α β n m) :=
  match s.walk r with
  | .idle => none
  | .snapshot q =>
    some { s.setWalk r (.walk q s.stack.head s.stack.head 0) with
      seen := Function.update s.seen r s.stack }
  | .walk q ss none result => some (s.setWalk r (.ret q ss (q.atEnd result)))
  | .walk q ss (some a) result => (s.stack.node a).map fun nd => s.setWalk r (q.at ss nd result)
  | .ret _ _ _ => some (s.setWalk r .idle)

inductive Label (α β : Type) (n m : Nat)
  | stack (l : AtomicStack.Label α β n)
  | query (r : Fin m) (q : Query β)
  | step (r : Fin m)
  deriving DecidableEq, Repr

/-- A node is not reclaimed while a reader has a snapshot of it. -/
def State.kept (s : State α β n m) : AtomicStack.Label α β n → Bool
  | .reclaim a => decide (∃ r, (s.walk r).protects a = true)
  | _ => false

variable [Fintype α]

def next (s : State α β n m) : Label α β n m → Option (State α β n m)
  | .stack l =>
    if s.kept l then none else (AtomicStack.next s.stack l).map fun stack => { s with stack := stack }
  | .query r q =>
    match s.walk r with
    | .idle =>
      some { s.setWalk r (.snapshot q) with called := Function.update s.called r s.stack.calls.hist }
    | _ => none
  | .step r => s.step r

end Model

def machine (α β : Type) [DecidableEq α] [DecidableEq β] [Fintype α] (n m : Nat) :
    Machine (State α β n m) (Label α β n m) where
  init s := s = .initial
  next := next

/-- What `find` and `size` are to answer for a stack of these values. -/
def answer {β : Type} [DecidableEq β] (l : List β) : Query β → Answer
  | .find t => .found (decide (t ∈ l))
  | .size => .size l.length

/-! ## What a step of the others does to the nodes -/

section Others
variable {α β : Type} [DecidableEq α] {n : Nat} {s s' : AtomicStack.State α β n} {t : Fin n}

theorem owns_update {pc : Fin n → Pc α β} {pc' : Pc α β} {P : α → Prop}
    (h : ∀ a, pc'.owns a = true → (pc t).owns a = true ∨ P a) (u : Fin n) (a : α)
    (hu : (Function.update pc t pc' u).owns a = true) : (pc u).owns a = true ∨ P a := by
  by_cases hut : u = t
  · rw [hut, Function.update_self] at hu
    rw [hut]
    exact h a hu
  · rw [Function.update_of_ne hut] at hu
    exact Or.inl hu

omit [DecidableEq α] in
theorem respond_hist (c : Calls (Fin n) (Op β) (Ret β)) (t : Fin n) (r : Ret β) :
    c.hist <+: (c.respond t r).hist := by
  unfold Calls.respond
  split
  · exact List.prefix_append _ _
  · exact List.prefix_rfl

theorem popFrom_owns (h : Option α) (a : α) : (popFrom h : Pc α β).owns a = false := by
  cases h <;> rfl

variable [Fintype α]

/-- It changes at most one node, which is free, not yet published or referred to by nobody. -/
structure Effect (s : AtomicStack.State α β n) (e : AtomicStack.Label α β n)
    (s' : AtomicStack.State α β n) : Prop where
  node : s'.node = s.node ∨ ∃ a x, s'.node = Function.update s.node a x ∧
    (s.node a = none ∨ (∃ t, (s.pc t).owns a = true) ∨ e = .reclaim a ∧ s.strong a = 0)
  owns : ∀ t a, (s'.pc t).owns a = true → (s.pc t).owns a = true ∨ s.node a = none
  hist : s.calls.hist <+: s'.calls.hist

/-- A step of `t` that writes no node. -/
theorem Effect.quiet {pc : Pc α β} {e : AtomicStack.Label α β n} (hn : s'.node = s.node)
    (hpc : s'.pc = Function.update s.pc t pc)
    (ho : ∀ a, pc.owns a = true → (s.pc t).owns a = true) (hh : s.calls.hist <+: s'.calls.hist) :
    Effect s e s' where
  node := Or.inl hn
  owns := by
    rw [hpc]
    exact owns_update fun a ha => Or.inl (ho a ha)
  hist := hh

theorem step_effect {a : α} (hs : AtomicStack.step s t a = some s') : Effect s (.step t a) s' := by
  unfold AtomicStack.step at hs
  split at hs
  case h_1 => cases hs
  case h_2 v hpc =>
    cases hs
    exact .quiet rfl rfl (by simp [Pc.owns]) List.prefix_rfl
  case h_3 v nx hpc =>
    split at hs
    · rename_i ha
      cases hs
      refine ⟨Or.inr ⟨a, _, rfl, Or.inl ha⟩, owns_update fun b hb => Or.inr ?_, List.prefix_rfl⟩
      simp only [Pc.owns, decide_eq_true_eq] at hb
      rw [← hb]
      exact ha
    · cases hs
  case h_4 newNode hpc =>
    obtain ⟨nd, hnd, rfl⟩ := Option.map_eq_some_iff.mp hs
    split
    · exact .quiet rfl rfl (by simp [Pc.owns]) List.prefix_rfl
    · exact .quiet rfl rfl (by rw [hpc]; exact fun _ ha => ha) List.prefix_rfl
  case h_5 newNode hpc =>
    obtain ⟨nd, hnd, rfl⟩ := Option.map_eq_some_iff.mp hs
    refine ⟨Or.inr ⟨newNode, _, rfl, Or.inr (Or.inl ⟨t, ?_⟩)⟩, owns_update fun b hb => Or.inl ?_,
      List.prefix_rfl⟩
    · rw [hpc]
      exact decide_eq_true rfl
    · change (s.pc t).owns b = true
      rw [hpc]
      exact hb
  case h_6 newNode hpc =>
    cases hs
    exact .quiet rfl rfl (by simp [Pc.owns]) (respond_hist _ _ _)
  case h_7 hpc =>
    cases hs
    exact .quiet rfl rfl (by simp [popFrom_owns]) List.prefix_rfl
  case h_8 ss hpc =>
    obtain ⟨nd, hnd, rfl⟩ := Option.map_eq_some_iff.mp hs
    exact .quiet rfl rfl (by simp [Pc.owns]) List.prefix_rfl
  case h_9 ss nx hpc =>
    split at hs
    · cases hs
      exact .quiet rfl rfl (by simp [Pc.owns]) List.prefix_rfl
    · cases hs
      exact .quiet rfl rfl (by simp [Pc.owns]) List.prefix_rfl
  case h_10 ss hpc =>
    cases hs
    exact .quiet rfl rfl (by simp [popFrom_owns]) List.prefix_rfl
  case h_11 hpc =>
    split at hs
    · cases hs
      exact .quiet rfl rfl (by simp [Pc.owns]) List.prefix_rfl
    · cases hs
      exact .quiet rfl rfl (by simp [Pc.owns]) List.prefix_rfl
  case h_12 ss hpc =>
    obtain ⟨nd, hnd, rfl⟩ := Option.map_eq_some_iff.mp hs
    exact .quiet rfl rfl (by simp [Pc.owns]) List.prefix_rfl
  case h_13 r hpc =>
    cases hs
    exact .quiet rfl rfl (by simp [Pc.owns]) (respond_hist _ _ _)

theorem next_effect {e : AtomicStack.Label α β n} (hs : AtomicStack.next s e = some s') :
    Effect s e s' := by
  cases e with
  | call t o =>
    simp only [AtomicStack.next] at hs
    split at hs
    · cases hs
      refine .quiet rfl rfl ?_ (List.prefix_append _ _)
      cases o <;> simp [start, Pc.owns]
    · cases hs
  | step t a => exact step_effect hs
  | reclaim a =>
    simp only [AtomicStack.next] at hs
    split at hs
    · rename_i hg
      cases hs
      exact ⟨Or.inr ⟨a, none, rfl, Or.inr (Or.inr ⟨rfl, hg.1⟩)⟩, fun _ _ ho => Or.inl ho, List.prefix_rfl⟩
    · cases hs

end Others

/-! ## The invariant -/

section Invariant
variable {α β : Type} [DecidableEq α] [DecidableEq β] {n m : Nat}

/-- What a reader that has gone past the values `l₁` knows of them. -/
def Query.Past (l₁ : List β) (result : Nat) : Query β → Prop
  | .find t => t ∉ l₁
  | .size => result = l₁.length

/-- The values of the stack at a snapshot: the nodes that can be reached from it are still what they
were, and nobody still makes the first of them. -/
structure Snapshot (stack seen : AtomicStack.State α β n) (called : List (Event (Op β) (Ret β)))
    (ss : Option α) (l : List (α × β)) : Prop where
  inv : ∃ L, AtomicStack.Inv seen L l
  chain : Chain stack.node ss l
  published : ∀ a, ss = some a → ∀ t, (stack.pc t).owns a = false
  since : called <+: seen.calls.hist
  hist : seen.calls.hist <+: stack.calls.hist

/-- A reader at `node`, with `l₁` behind it and `l₂` before it. -/
structure Walks (nodes : α → Option (Node α β)) (q : Query β) (node : Option α) (result : Nat)
    (l₁ l₂ : List (α × β)) : Prop where
  rest : Chain nodes node l₂
  past : q.Past (l₁.map Prod.snd) result

def WalkInv (stack seen : AtomicStack.State α β n) (called : List (Event (Op β) (Ret β))) :
    Walk α β → Prop
  | .idle => True
  | .snapshot _ => called <+: stack.calls.hist
  | .walk q ss node result =>
    ∃ l₁ l₂, Snapshot stack seen called ss (l₁ ++ l₂) ∧ Walks stack.node q node result l₁ l₂
  | .ret q ss a => ∃ l, Snapshot stack seen called ss l ∧ a = answer (l.map Prod.snd) q

structure Inv (s : State α β n m) : Prop where
  stack : ∃ L l, AtomicStack.Inv s.stack L l
  walks : ∀ r, WalkInv s.stack (s.seen r) (s.called r) (s.walk r)

variable {stack stack' seen : AtomicStack.State α β n} {called : List (Event (Op β) (Ret β))}
  {ss : Option α} {l : List (α × β)} {L : List (Entry (Op β) (Ret β))} {l' : List (α × β)}

omit [DecidableEq α] [DecidableEq β] in
theorem chain_allocated {node : α → Option (Node α β)} {h : Option α} {l : List (α × β)}
    (hc : Chain node h l) {b : α} {v : β} (hb : (b, v) ∈ l) : ∃ nd, node b = some nd := by
  induction l generalizing h with
  | nil => cases hb
  | cons x l ih =>
    obtain ⟨c, w⟩ := x
    obtain ⟨_, nx, hnode, hl⟩ := hc
    rcases List.mem_cons.mp hb with hb | hb
    · cases hb
      exact ⟨_, hnode⟩
    · exact ih hl hb

omit [DecidableEq α] [DecidableEq β] in
theorem chain_head {node : α → Option (Node α β)} {h : Option α} {l : List (α × β)}
    (hc : Chain node h l) {a : α} (ha : h = some a) : ∃ nd, node a = some nd := by
  cases l with
  | nil => cases ha.symm.trans hc
  | cons x l =>
    obtain ⟨hh, nx, hx, _⟩ := hc
    cases ha.symm.trans hh
    exact ⟨_, hx⟩

section Steps
variable [Fintype α]

omit [DecidableEq β] in
/-- The nodes that can be reached from a snapshot stay as they are. -/
theorem Snapshot.stays (h : Snapshot stack seen called ss l) (hi : AtomicStack.Inv stack L l')
    {e : AtomicStack.Label α β n} (he : Effect stack e stack')
    (hk : ∀ a, e = .reclaim a → ss ≠ some a) {b : α} {v : β} (hb : (b, v) ∈ l) :
    stack'.node b = stack.node b := by
  rcases he.node with hn | ⟨a, x, hn, ha⟩
  · rw [hn]
  · rw [hn]
    refine Function.update_of_ne ?_ _ _
    rintro rfl
    rcases ha with hfree | ⟨t, ht⟩ | ⟨rfl, hz⟩
    · obtain ⟨nd, hnd⟩ := chain_allocated h.chain hb
      rw [hfree] at hnd
      cases hnd
    · rcases h.chain.referred hb with hr | ⟨c, nd, hc, hr⟩
      · rw [h.published b hr t] at ht
        cases ht
      · exact ((hi.threads t).owned b ht).next c nd hc hr
    · obtain ⟨_, hnexts, _⟩ := strong_eq_zero hz
      rcases h.chain.referred hb with hr | ⟨c, nd, hc, hr⟩
      · exact hk b rfl hr
      · exact hnexts c nd hc hr

omit [DecidableEq β] in
theorem Snapshot.others (h : Snapshot stack seen called ss l) (hi : AtomicStack.Inv stack L l')
    {e : AtomicStack.Label α β n} (he : Effect stack e stack')
    (hk : ∀ a, e = .reclaim a → ss ≠ some a) : Snapshot stack' seen called ss l where
  inv := h.inv
  chain := h.chain.frame fun _ _ hb => h.stays hi he hk hb
  published := by
    intro a ha t
    obtain ⟨nd, hnd⟩ := chain_head h.chain ha
    rw [← Bool.not_eq_true]
    intro ho
    rcases he.owns t a ho with ho | hn
    · rw [h.published a ha t] at ho
      cases ho
    · rw [hn] at hnd
      cases hnd
  since := h.since
  hist := h.hist.trans he.hist

/-- A step of the others keeps what a reader knows. -/
theorem WalkInv.others {w : Walk α β} (h : WalkInv stack seen called w) (hi : AtomicStack.Inv stack L l')
    {e : AtomicStack.Label α β n} (he : Effect stack e stack')
    (hk : ∀ a, e = .reclaim a → w.protects a = false) : WalkInv stack' seen called w := by
  cases w with
  | idle => trivial
  | snapshot q => exact List.IsPrefix.trans h he.hist
  | walk q ss node result =>
    obtain ⟨l₁, l₂, hss, hw⟩ := h
    have hkept : ∀ a, e = .reclaim a → ss ≠ some a := by
      intro a ha
      simpa [Walk.protects] using hk a ha
    refine ⟨l₁, l₂, hss.others hi he hkept, hw.rest.frame fun b v hb => ?_, hw.past⟩
    exact hss.stays hi he hkept (List.mem_append_right _ hb)
  | ret q ss a =>
    obtain ⟨l, hss, ha⟩ := h
    refine ⟨l, hss.others hi he fun a ha => ?_, ha⟩
    simpa [Walk.protects] using hk a ha

end Steps

/-! ## The steps of a reader -/

omit [DecidableEq β] in
/-- The snapshot is taken. -/
theorem snapshot_now (hi : AtomicStack.Inv stack L l) (hc : called <+: stack.calls.hist) :
    Snapshot stack stack called stack.head l where
  inv := ⟨L, hi⟩
  chain := hi.chain
  published := by
    intro a ha t
    rw [← Bool.not_eq_true]
    intro ho
    exact ((hi.threads t).owned a ho).head ha
  since := hc
  hist := List.prefix_rfl

/-- A reader looks at a node. -/
theorem WalkInv.at {q : Query β} {a : α} {nd : Node α β} {result : Nat}
    (h : WalkInv stack seen called (.walk q ss (some a) result)) (hnd : stack.node a = some nd) :
    WalkInv stack seen called (q.at ss nd result) := by
  obtain ⟨l₁, l₂, hss, hw⟩ := h
  cases l₂ with
  | nil => cases hw.rest
  | cons x l₂ =>
    obtain ⟨b, v⟩ := x
    obtain ⟨hb, nx, hx, hrest⟩ := hw.rest
    cases hb
    rw [hnd] at hx
    cases hx
    have hsplit : l₁ ++ (a, v) :: l₂ = (l₁ ++ [(a, v)]) ++ l₂ := by simp
    have hpast := hw.past
    cases q with
    | find t =>
      simp only [Query.at]
      split
      · rename_i hvt
        refine ⟨_, hss, ?_⟩
        simp [answer, ← hvt]
      · rename_i hvt
        refine ⟨l₁ ++ [(a, v)], l₂, hsplit ▸ hss, hrest, ?_⟩
        simp only [Query.Past, List.map_append, List.map_cons, List.map_nil, List.mem_append,
          List.mem_singleton, not_or] at hpast ⊢
        exact ⟨hpast, Ne.symm hvt⟩
    | size =>
      refine ⟨l₁ ++ [(a, v)], l₂, hsplit ▸ hss, hrest, ?_⟩
      simp only [Query.Past, List.map_append, List.length_append, List.length_map, List.map_cons,
        List.map_nil, List.length_singleton] at hpast ⊢
      rw [hpast]

/-- A reader is at the end. -/
theorem WalkInv.atEnd {q : Query β} {result : Nat}
    (h : WalkInv stack seen called (.walk q ss none result)) :
    WalkInv stack seen called (.ret q ss (q.atEnd result)) := by
  obtain ⟨l₁, l₂, hss, hw⟩ := h
  cases l₂ with
  | nil =>
    rw [List.append_nil] at hss
    refine ⟨l₁, hss, ?_⟩
    have hpast := hw.past
    cases q with
    | find t =>
      have ht : t ∉ l₁.map Prod.snd := hpast
      simp only [Query.atEnd, answer, decide_eq_false ht]
    | size =>
      have hr : result = (l₁.map Prod.snd).length := hpast
      simp only [Query.atEnd, answer, hr]
  | cons x l₂ =>
    obtain ⟨hb, _⟩ := hw.rest
    cases hb

variable {s s' : State α β n m} {r : Fin m}

theorem walks_update {w : Walk α β} (h : Inv s) (hw : WalkInv s.stack (s.seen r) (s.called r) w) (v : Fin m) :
    WalkInv s.stack (s.seen v) (s.called v) ((s.setWalk r w).walk v) := by
  by_cases hv : v = r
  · rw [hv]
    simpa [State.setWalk] using hw
  · simpa [State.setWalk, Function.update_of_ne hv] using h.walks v

theorem Inv.step (h : Inv s) (hs : s.step r = some s') : Inv s' := by
  obtain ⟨L, l, hi⟩ := h.stack
  have hr := h.walks r
  unfold State.step at hs
  split at hs
  case h_1 => cases hs
  case h_2 q hw =>
    cases hs
    rw [hw] at hr
    refine ⟨⟨L, l, hi⟩, fun v => ?_⟩
    by_cases hv : v = r
    · rw [hv]
      simp only [State.setWalk, Function.update_self]
      exact ⟨[], l, snapshot_now hi hr, hi.chain, by cases q <;> simp [Query.Past]⟩
    · simpa [State.setWalk, Function.update_of_ne hv] using h.walks v
  case h_3 q ss result hw =>
    cases hs
    rw [hw] at hr
    exact ⟨⟨L, l, hi⟩, walks_update h hr.atEnd⟩
  case h_4 q ss a result hw =>
    obtain ⟨nd, hnd, rfl⟩ := Option.map_eq_some_iff.mp hs
    rw [hw] at hr
    exact ⟨⟨L, l, hi⟩, walks_update h (hr.at hnd)⟩
  case h_5 q ss a hw =>
    cases hs
    exact ⟨⟨L, l, hi⟩, walks_update h trivial⟩

variable [Fintype α]

theorem Inv.next (h : Inv s) {e : Label α β n m} (hs : Readers.next s e = some s') : Inv s' := by
  cases e with
  | stack e =>
    simp only [Readers.next] at hs
    split at hs
    · cases hs
    · rename_i hk
      obtain ⟨stack, hn, rfl⟩ := Option.map_eq_some_iff.mp hs
      obtain ⟨L, l, hi⟩ := h.stack
      refine ⟨hi.next hn, fun r => (h.walks r).others hi (next_effect hn) ?_⟩
      rintro a rfl
      simp only [State.kept, decide_eq_true_eq, not_exists, Bool.not_eq_true] at hk
      exact hk r
  | query r q =>
    simp only [Readers.next] at hs
    split at hs
    · cases hs
      refine ⟨h.stack, fun v => ?_⟩
      by_cases hv : v = r
      · rw [hv]
        simp only [State.setWalk, Function.update_self]
        exact List.prefix_rfl
      · simpa [State.setWalk, Function.update_of_ne hv] using h.walks v
    · cases hs
  | step r => exact h.step hs

theorem reach_inv (hr : (machine α β n m).Reach s) : Inv s := by
  refine Machine.Reach.invariant (I := Inv) ?_ ?_ hr
  · rintro _ rfl
    exact ⟨⟨[], [], AtomicStack.Inv.initial⟩, fun _ => trivial⟩
  · intro s e s' h hn
    exact h.next hn

end Invariant

end Cdrc.AtomicStack.Readers
