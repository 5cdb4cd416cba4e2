import Mathlib.Data.List.FinRange
import Mathlib.Data.List.Perm.Basic
import Cdrc.AcquireRetire.Retire
import Cdrc.Drain.Confluence

/-! # The loops that drain

The destructors of the four backends, and the loops of `retire`, take entries out of the
lists of the threads and eject them. Whatever an eject retires goes to the list of the
draining thread. A list can get longer that way, but what is left to do with the heap does
not: `State.toDo` bounds it, and the steps of a loop between two ejects are bounded by the
loop itself.

`heap.pending` is the list of the draining thread here; the other lists, and what a loop has
taken out of them, stand beside it. -/
namespace Cdrc.Drain.Loops
open Cdrc.Lib.Runs Cdrc.CountedObject

/-- What the loops share. -/
structure Base (α : Type) (n : Nat) where
  heap : State α
  /-- the lists of the other threads -/
  others : Fin n → List (Entry α)
  /-- what the loop has taken out of the lists and not reached yet -/
  todo : List (Entry α)
  /-- what a pass keeps, or a batch that the slots of other threads hold -/
  kept : List (Entry α)
  ejected : List (Entry α)
  /-- everything that was ever in a list -/
  retired : List (Entry α)

section Code
variable {α : Type} [DecidableEq α] {n : Nat} (fields : α → List (Field α)) (id : Fin n)

/-- The lists of all threads. -/
def Base.lists (b : Base α n) (i : Fin n) : List (Entry α) := if i = id then b.heap.pending else b.others i

def Base.allLists (b : Base α n) : List (Entry α) := (List.finRange n).flatMap (b.lists id)

/-- Everything that is pending. -/
def Base.pending (b : Base α n) : List (Entry α) :=
  b.todo ++ b.kept ++ (List.finRange n).flatMap b.others ++ b.heap.pending

/-- The heap with everything that is pending, wherever it stands. -/
def Base.total (b : Base α n) : State α := { b.heap with pending := b.pending }

/-- The innermost call of the memory manager is made; what it retires is noted. -/
def Base.call (b : Base α n) (rest : List (Call α)) (c : Call α) : Base α n :=
  let heap := makeCall fields b.heap rest c
  { b with
    heap := heap
    retired := b.retired ++ heap.pending.drop b.heap.pending.length }

/-- The first entry taken out is ejected, as `type`. -/
def Base.eject (b : Base α n) (e : Entry α) (type : RetireType) (todo : List (Entry α)) : Base α n :=
  { b with
    heap := { b.heap with stack := [Drain.eject (e.1, type)] }
    todo := todo
    ejected := b.ejected ++ [e] }

/-! ## The destructors of `acquire_retire`, `acquire_retire_ebr` and `acquire_retire_ibr` -/

/-- The contents of all lists are moved to `destructs`. -/
def Base.collect (b : Base α n) : Base α n :=
  { b with
    heap := { b.heap with pending := [] }
    others := fun _ => []
    todo := b.allLists id }

def destructorNext (b : Base α n) (_ : Unit) : Option (Base α n) :=
  match b.heap.stack, b.todo with
  | c :: rest, _ => some (b.call fields rest c)
  | [], e :: todo => some (b.eject e e.2 todo)
  | [], [] => if ∃ i, b.lists id i ≠ [] then some (b.collect id) else none

/-! ## The destructor of `acquire_retire_hyaline` -/

structure Hyaline (α : Type) (n : Nat) where
  base : Base α n
  /-- of the `for` loop -/
  i : Nat
  /-- what `batch_copy.refs->decrement` is -/
  type : RetireType

/-- The batch of thread `i`, newest first; its first entry is the last, the `refs` node. -/
def Base.takeBatch (b : Base α n) (i : Fin n) : Base α n :=
  { b with
    heap := { b.heap with pending := if i = id then [] else b.heap.pending }
    others := Function.update b.others i []
    todo := (b.lists id i).reverse }

def hyalineNext (s : Hyaline α n) (_ : Unit) : Option (Hyaline α n) :=
  match s.base.heap.stack, s.base.todo with
  | c :: rest, _ => some { s with base := s.base.call fields rest c }
  | [], e :: todo => some { s with base := s.base.eject e s.type todo }
  | [], [] =>
    if h : s.i < n then
      match s.base.lists id ⟨s.i, h⟩ with
      | [] => some { s with i := s.i + 1 }
      | e :: _ => some { s with base := s.base.takeBatch id ⟨s.i, h⟩, type := e.2 }
    else if s.base.lists id id ≠ [] then some { s with i := 0 } else none

/-! ## The loop of a top-level `retire` -/

inductive Control
  | test
  | pass
  | done
  deriving DecidableEq, Repr

structure Pass (α : Type) (n : Nat) where
  base : Base α n
  control : Control
  work : Nat

/-- `work_toward_deferred_decrements`, `work_toward_ejects`; the label tells whether the next
entry is found to be protected. -/
def passNext (cfg : AcquireRetire.Retire.Config) (s : Pass α n) (announced : Bool) : Option (Pass α n) :=
  match s.control with
  | .done => none
  | .test =>
    if cfg.threshold ≤ s.work then
      if s.base.heap.pending = [] then some { s with work := 0, control := .done }
      else some { s with
        base := { s.base with todo := s.base.heap.pending, heap := { s.base.heap with pending := [] } }
        work := 0
        control := .pass }
    else some { s with control := .done }
  | .pass =>
    match s.base.heap.stack, s.base.todo with
    | c :: rest, _ =>
      let base := s.base.call fields rest c
      some { s with
        base := base
        work := (s.work + (base.heap.pending.length - s.base.heap.pending.length)) %
          AcquireRetire.Retire.uintRange }
    | [], e :: todo =>
      if announced then some { s with base := { s.base with todo := todo, kept := s.base.kept ++ [e] } }
      else some { s with base := s.base.eject e e.2 todo }
    | [], [] =>
      some { s with
        base := { s.base with
          kept := []
          heap := { s.base.heap with pending := s.base.heap.pending ++ s.base.kept } }
        control := .test }

structure Batch (α : Type) (n : Nat) where
  base : Base α n
  control : Control
  type : RetireType

/-- `retire` of `acquire_retire_hyaline`, with `batch.counter` the length of the batch; the
label tells whether some thread took the batch in `add_batch`. -/
def batchNext (limit : Nat) (s : Batch α n) (taken : Bool) : Option (Batch α n) :=
  match s.control with
  | .done => none
  | .test =>
    match s.base.heap.pending with
    | [] => some { s with control := .done }
    | e :: batch =>
      if limit < (e :: batch).length then
        let base := { s.base with heap := { s.base.heap with pending := [] } }
        if taken then some { s with base := { base with kept := base.kept ++ e :: batch } }
        else some ⟨{ base with todo := (e :: batch).reverse }, .pass, e.2⟩
      else some { s with control := .done }
  | .pass =>
    match s.base.heap.stack, s.base.todo with
    | c :: rest, _ => some { s with base := s.base.call fields rest c }
    | [], e :: todo => some { s with base := s.base.eject e s.type todo }
    | [], [] => some { s with control := .test }

end Code

/-! ## What the loops share -/

section Shared
variable {α : Type} [DecidableEq α] [Fintype α] {n : Nat} {fields : α → List (Field α)}
  {strongRoots weakRoots : α → Nat} {id : Fin n} {b b' : Base α n}

variable (fields) in
omit [Fintype α] in
/-- A call does not look at the list that it appends to. -/
theorem makeCall_append (s : State α) (A : List (Entry α)) (rest : List (Call α)) (c : Call α) :
    makeCall fields { s with pending := A ++ s.pending } rest c =
      { makeCall fields s rest c with pending := A ++ (makeCall fields s rest c).pending } := by
  cases c with
  | decrementRefCnt p =>
    simp only [makeCall]
    split
    · split
      · rfl
      · simp [List.append_assoc]
    · rfl
  | decrementWeakCnt p =>
    simp only [makeCall]
    split <;> rfl
  | dispose p => rfl
  | destroy p => rfl
  | retire e => simp [makeCall, List.append_assoc]

variable (fields) in
omit [Fintype α] in
theorem makeCall_pending (s : State α) (rest : List (Call α)) (c : Call α) :
    ∃ new, (makeCall fields s rest c).pending = s.pending ++ new := by
  cases c with
  | decrementRefCnt p =>
    simp only [makeCall]
    split
    · split
      · exact ⟨[], by simp [State.dispose]⟩
      · exact ⟨_, rfl⟩
    · exact ⟨[], by simp⟩
  | decrementWeakCnt p =>
    simp only [makeCall]
    split <;> exact ⟨[], by simp [State.destroy]⟩
  | dispose p => exact ⟨[], by simp [makeCall, State.dispose]⟩
  | destroy p => exact ⟨[], by simp [makeCall, State.destroy]⟩
  | retire e => exact ⟨[e], rfl⟩

/-- The counts agree with everything that is pending, and what was retired has been ejected
or is pending. -/
structure Sound (fields : α → List (Field α)) (strongRoots weakRoots : α → Nat) (id : Fin n) (b : Base α n) :
    Prop where
  inv : Inv fields strongRoots weakRoots b.total
  own : b.others id = []
  conserved : b.retired.Perm (b.ejected ++ b.pending)

omit [Fintype α] in
theorem call_total (b : Base α n) (rest : List (Call α)) (c : Call α) :
    (b.call fields rest c).total = makeCall fields b.total rest c := by
  have h := makeCall_append fields b.heap
    (b.todo ++ b.kept ++ (List.finRange n).flatMap b.others) rest c
  rw [Base.total, Base.total, Base.pending]
  exact h.symm

theorem Sound.call (h : Sound fields strongRoots weakRoots id b) {c : Call α} {rest : List (Call α)}
    (hs : b.heap.stack = c :: rest) : Sound fields strongRoots weakRoots id (b.call fields rest c) ∧
      (b.call fields rest c).total.toDo fields < b.total.toDo fields := by
  have hnext : Drain.next fields b.total .run = some (b.call fields rest c).total := by
    rw [call_total]
    simp only [Drain.next, Base.total, hs]
  refine ⟨⟨(h.inv.next hnext).2, h.own, ?_⟩, h.inv.toDo_lt hnext⟩
  obtain ⟨new, hnew⟩ := makeCall_pending fields b.heap rest c
  have hret : (b.call fields rest c).retired = b.retired ++ new := by
    simp [Base.call, hnew]
  have hpend : (b.call fields rest c).pending = b.pending ++ new := by
    simp [Base.call, Base.pending, hnew, List.append_assoc]
  rw [hret, hpend, ← List.append_assoc]
  exact h.conserved.append_right new

theorem Sound.eject (h : Sound fields strongRoots weakRoots id b) {e : Entry α} {todo : List (Entry α)}
    (hs : b.heap.stack = []) (ht : b.todo = e :: todo) :
    Sound fields strongRoots weakRoots id (b.eject e e.2 todo) ∧
      (b.eject e e.2 todo).total.toDo fields < b.total.toDo fields := by
  have hpend : b.pending = e :: (b.eject e e.2 todo).pending := by
    simp [Base.pending, Base.eject, ht]
  have hnext : Drain.next fields b.total (.eject 0) = some (b.eject e e.2 todo).total := by
    simp only [Drain.next, Base.total, hs, hpend, List.getElem?_cons_zero, List.eraseIdx_cons_zero]
    rfl
  refine ⟨⟨(h.inv.next hnext).2, h.own, ?_⟩, h.inv.toDo_lt hnext⟩
  have hc := h.conserved
  rw [hpend] at hc
  simpa [Base.eject, List.append_assoc] using hc

/-- The loop moves entries from one place to another. -/
theorem Sound.move (h : Sound fields strongRoots weakRoots id b) (b' : Base α n) {l : List (Entry α)}
    (hheap : b'.heap = { b.heap with pending := l }) (hown : b'.others id = [])
    (hejected : b'.ejected = b.ejected) (hretired : b'.retired = b.retired)
    (hpend : b'.pending.Perm b.pending) : Sound fields strongRoots weakRoots id b' ∧
      b'.total.toDo fields = b.total.toDo fields := by
  have hbag : b'.total.bag = b.total.bag := by
    simp only [State.bag, Base.total, hheap, Multiset.coe_eq_coe.mpr hpend]
  have hh : b'.total.heap = b.total.heap := by
    simp only [State.heap, Base.total, hheap]
    rfl
  refine ⟨⟨⟨?_, ?_⟩, hown, ?_⟩, ?_⟩
  · rw [hbag, hh]
    exact h.inv.agrees
  · have := h.inv.destroy
    simpa [Base.total, hheap] using this
  · rw [hejected, hretired]
    exact h.conserved.trans (hpend.symm.append_left _)
  · have hsum := (hpend.map entryWeight).sum_eq
    simp only [State.toDo, Base.total, hheap] at hsum ⊢
    omega

/-- What is left when nothing is pending: an object to which nothing refers is deleted. -/
theorem Sound.deleted (h : Sound fields strongRoots weakRoots id b) (hs : b.heap.stack = [])
    (hp : b.pending = []) : ∀ p, strongRoots p = 0 → weakRoots p = 0 →
      (∀ o, o ∉ b.heap.disposed → strongFields fields o p = 0 ∧ weakFields fields o p = 0) →
      p ∈ b.heap.deleted := by
  intro p hsr hwr hf
  have hbag : b.total.bag = 0 := by simp [State.bag, Base.total, hs, hp]
  have hnone : ∀ f : α → Nat, (∀ o, o ∉ b.heap.disposed → f o = 0) →
      undisposed f (b.heap.disposed : Multiset α) = 0 := by
    intro f hf
    refine Finset.sum_eq_zero fun o _ => ?_
    split
    · rfl
    · rename_i ho
      exact hf o (by simpa using ho)
  have hstrong : b.heap.strong p = 0 := by
    have := h.inv.agrees.strong p
    rw [hbag, hsr] at this
    simp only [State.heap, Base.total, hnone _ fun o ho => (hf o ho).1] at this
    simpa using this
  have hdisposed : p ∈ b.heap.disposed := by
    by_contra hnot
    have := h.inv.agrees.dispose p
    rw [hbag] at this
    simp [State.heap, Base.total, hstrong, hnot] at this
  have hweak := h.inv.agrees.weak p
  rw [hbag, hwr] at hweak
  have hheld : heldByStrong b.total.heap.disposed p = 0 := by
    simp [heldByStrong, State.heap, Base.total, hdisposed]
  have hfields : undisposed (weakFields fields · p) b.total.heap.disposed = 0 :=
    hnone _ fun o ho => (hf o ho).2
  rw [hfields, hheld] at hweak
  have hdel := (h.inv.agrees.deleted p).mpr (by simpa using hweak)
  simpa [State.heap, Base.total] using hdel

/-- All lists are empty, every entry has been ejected once, and every object to which
nothing refers any more is deleted. -/
structure Finished (fields : α → List (Field α)) (strongRoots weakRoots : α → Nat) (id : Fin n)
    (b : Base α n) : Prop where
  stack : b.heap.stack = []
  lists : ∀ i, b.lists id i = []
  ejected : b.retired.Perm b.ejected
  deleted : ∀ p, strongRoots p = 0 → weakRoots p = 0 →
    (∀ o, o ∉ b.heap.disposed → strongFields fields o p = 0 ∧ weakFields fields o p = 0) →
    p ∈ b.heap.deleted

theorem Sound.finished (h : Sound fields strongRoots weakRoots id b) (hs : b.heap.stack = [])
    (ht : b.todo = []) (hk : b.kept = []) (hl : ∀ i, b.lists id i = []) :
    Finished fields strongRoots weakRoots id b := by
  have hown : b.heap.pending = [] := by
    have := hl id
    simpa [Base.lists] using this
  have hothers : (List.finRange n).flatMap b.others = [] := by
    refine List.flatMap_eq_nil_iff.mpr fun i _ => ?_
    by_cases hi : i = id
    · rw [hi]
      exact h.own
    · have := hl i
      simpa [Base.lists, hi] using this
  have hp : b.pending = [] := by simp [Base.pending, ht, hk, hown, hothers]
  refine ⟨hs, hl, ?_, h.deleted hs hp⟩
  have := h.conserved
  rwa [hp, List.append_nil] at this

end Shared

/-! ## The destructor -/

section Destructor
variable {α : Type} [DecidableEq α] [Fintype α] {n : Nat} {fields : α → List (Field α)}
  {strongRoots weakRoots : α → Nat} {id : Fin n} {b b' : Base α n}

omit [DecidableEq α] [Fintype α] in
/-- One list of all is apart from the others. -/
theorem flatMap_perm (others : Fin n → List (Entry α)) (hown : others id = []) (own : List (Entry α))
    {f : Fin n → List (Entry α)} (hid : f id = own) (hf : ∀ i, i ≠ id → f i = others i) :
    ((List.finRange n).flatMap f).Perm ((List.finRange n).flatMap others ++ own) := by
  obtain ⟨l₁, l₂, hl⟩ := List.append_of_mem (List.mem_finRange id)
  have hnodup := List.nodup_finRange n
  rw [hl] at hnodup
  have hnot : ∀ i ∈ l₁ ++ l₂, i ≠ id := by
    intro i hi he
    subst he
    exact (List.nodup_cons.mp (List.nodup_middle.mp hnodup)).1 hi
  have hcongr : ∀ l : List (Fin n), (∀ i ∈ l, i ≠ id) → l.flatMap f = l.flatMap others := fun l hl' =>
    List.flatMap_congr fun i hi => hf i (hl' i hi)
  rw [hl]
  simp only [List.flatMap_append, List.flatMap_cons, hid, hown, List.nil_append]
  rw [hcongr l₁ fun i hi => hnot i (List.mem_append_left _ hi),
    hcongr l₂ fun i hi => hnot i (List.mem_append_right _ hi), List.append_assoc]
  have hcomm : (own ++ l₂.flatMap others).Perm (l₂.flatMap others ++ own) := List.perm_append_comm
  exact hcomm.append_left _

theorem Sound.collect (h : Sound fields strongRoots weakRoots id b) (ht : b.todo = []) :
    Sound fields strongRoots weakRoots id (b.collect id) ∧
      (b.collect id).total.toDo fields = b.total.toDo fields := by
  have hempty : (List.finRange n).flatMap (fun _ => ([] : List (Entry α))) = [] :=
    List.flatMap_eq_nil_iff.mpr fun _ _ => rfl
  refine h.move (b.collect id) rfl rfl rfl rfl ?_
  have hperm := flatMap_perm b.others h.own b.heap.pending (f := b.lists id) (by simp [Base.lists])
    fun i hi => by simp [Base.lists, hi]
  simp only [Base.pending, Base.collect, Base.allLists, ht, hempty, List.nil_append, List.append_nil]
  exact List.perm_append_comm.trans ((hperm.append_left b.kept).trans (by rw [List.append_assoc]))

def destructor (fields : α → List (Field α)) (id : Fin n) : Machine (Base α n) Unit where
  init _ := True
  next := destructorNext fields id

/-- Between two ejects the loop can only collect, once. -/
def destructorMeasure (fields : α → List (Field α)) (b : Base α n) : Nat × Nat :=
  (b.total.toDo fields, if b.todo = [] then 1 else 0)

theorem destructor_step (h : Sound fields strongRoots weakRoots id b) (hk : b.kept = []) {a : Unit}
    (hn : destructorNext fields id b a = some b') :
    (Sound fields strongRoots weakRoots id b' ∧ b'.kept = []) ∧
      Prod.Lex (· < ·) (· < ·) (destructorMeasure fields b') (destructorMeasure fields b) := by
  unfold destructorNext at hn
  split at hn
  · rename_i c rest hs
    cases hn
    obtain ⟨hsound, hlt⟩ := h.call hs
    exact ⟨⟨hsound, hk⟩, .left _ _ hlt⟩
  · rename_i e todo hs ht
    cases hn
    obtain ⟨hsound, hlt⟩ := h.eject hs ht
    exact ⟨⟨hsound, hk⟩, .left _ _ hlt⟩
  · rename_i hs ht
    split at hn
    · rename_i hex
      cases hn
      obtain ⟨hsound, heq⟩ := h.collect ht
      refine ⟨⟨hsound, hk⟩, ?_⟩
      have hne : (b.collect id).todo ≠ [] := by
        obtain ⟨i, hi⟩ := hex
        intro h0
        exact hi (List.flatMap_eq_nil_iff.mp h0 i (List.mem_finRange i))
      rw [destructorMeasure, destructorMeasure, heq, if_neg hne, if_pos ht]
      exact .right _ Nat.zero_lt_one
    · cases hn

theorem destructor_finished (h : Sound fields strongRoots weakRoots id b) (hk : b.kept = [])
    (hn : destructorNext fields id b () = none) : Finished fields strongRoots weakRoots id b := by
  unfold destructorNext at hn
  split at hn
  · cases hn
  · cases hn
  · rename_i hs ht
    split at hn
    · cases hn
    · rename_i hex
      refine h.finished hs ht hk fun i => ?_
      by_contra hi
      exact hex ⟨i, hi⟩

end Destructor

/-! ## The destructor of Hyaline -/

section Hyaline
variable {α : Type} [DecidableEq α] [Fintype α] {n : Nat} {fields : α → List (Field α)}
  {strongRoots weakRoots : α → Nat} {id : Fin n} {b : Base α n} {s s' : Hyaline α n}

/-- Only strong decrements have been retired, those that the drain itself has retired included. -/
def OnlyStrong (b : Base α n) : Prop := ∀ e ∈ b.retired, e.2 = .decrementStrongCount

instance (b : Base α n) : Decidable (OnlyStrong b) := inferInstanceAs (Decidable (∀ e ∈ b.retired, _))

def hyaline (fields : α → List (Field α)) (id : Fin n) : Machine (Hyaline α n) Unit where
  init _ := True
  next := hyalineNext fields id

theorem Sound.pending_mem (h : Sound fields strongRoots weakRoots id b) {e : Entry α} (he : e ∈ b.pending) :
    e ∈ b.retired :=
  h.conserved.mem_iff.mpr (List.mem_append_right _ he)

omit [DecidableEq α] [Fintype α] in
theorem update_own {others : Fin n → List (Entry α)} (h : others id = []) :
    Function.update others id [] = others := by
  rw [← h]
  exact Function.update_eq_self id others

theorem Sound.takeBatch (h : Sound fields strongRoots weakRoots id b) (ht : b.todo = []) (i : Fin n) :
    Sound fields strongRoots weakRoots id (b.takeBatch id i) ∧
      (b.takeBatch id i).total.toDo fields = b.total.toDo fields := by
  refine h.move (b.takeBatch id i) rfl ?_ rfl rfl ?_
  · by_cases hi : id = i
    · rw [hi]
      simp [Base.takeBatch]
    · simp only [Base.takeBatch, Function.update_of_ne hi]
      exact h.own
  · by_cases hi : i = id
    · subst hi
      simp only [Base.pending, Base.takeBatch, Base.lists, if_true, ht, update_own h.own, List.append_nil,
        List.nil_append, List.append_assoc]
      refine ((List.reverse_perm _).append_right _).trans ?_
      rw [← List.append_assoc b.kept]
      exact List.perm_append_comm
    · have hperm : ((List.finRange n).flatMap b.others).Perm
          ((List.finRange n).flatMap (Function.update b.others i []) ++ b.others i) :=
        flatMap_perm _ (Function.update_self i [] b.others) _ rfl
          fun j hj => (Function.update_of_ne hj _ _).symm
      simp only [Base.pending, Base.takeBatch, Base.lists, if_neg hi, ht, List.nil_append]
      refine List.Perm.append_right _ ?_
      have hrest := (hperm.trans List.perm_append_comm).append_left b.kept
      refine List.Perm.trans ?_ hrest.symm
      rw [List.append_assoc]
      refine ((List.reverse_perm _).append_right _).trans ?_
      rw [← List.append_assoc, ← List.append_assoc]
      exact List.perm_append_comm.append_right _

structure HyalineInv (fields : α → List (Field α)) (strongRoots weakRoots : α → Nat) (id : Fin n)
    (s : Hyaline α n) : Prop where
  sound : Sound fields strongRoots weakRoots id s.base
  kept : s.base.kept = []
  strong : OnlyStrong s.base
  type : s.base.todo ≠ [] → s.type = .decrementStrongCount
  /-- the `for` loop leaves the other lists empty behind it -/
  behind : ∀ j : Fin n, j.val < s.i → j ≠ id → s.base.others j = []

/-- How far it is to the next batch, or to the end. -/
def Hyaline.distance (id : Fin n) (s : Hyaline α n) : Nat :=
  if s.base.todo ≠ [] then 0
  else if s.base.heap.pending = [] then n - s.i + 1
  else if s.i ≤ id.val then id.val - s.i + 1
  else n - s.i + id.val + 3

def hyalineMeasure (fields : α → List (Field α)) (id : Fin n) (s : Hyaline α n) : Nat × Nat :=
  (s.base.total.toDo fields, s.distance id)

theorem HyalineInv.step (h : HyalineInv fields strongRoots weakRoots id s) {a : Unit}
    (hn : hyalineNext fields id s a = some s') (hstrong : OnlyStrong s'.base) :
    HyalineInv fields strongRoots weakRoots id s' ∧
      Prod.Lex (· < ·) (· < ·) (hyalineMeasure fields id s') (hyalineMeasure fields id s) := by
  unfold hyalineNext at hn
  split at hn
  · rename_i c rest hs
    cases hn
    obtain ⟨hsound, hlt⟩ := h.sound.call hs
    exact ⟨⟨hsound, h.kept, hstrong, h.type, h.behind⟩, .left _ _ hlt⟩
  · rename_i e todo hs ht
    cases hn
    have htype : s.type = e.2 := by
      have hm : e ∈ s.base.pending := by simp [Base.pending, ht]
      rw [h.type (by rw [ht]; simp), h.strong e (h.sound.pending_mem hm)]
    rw [htype]
    obtain ⟨hsound, hlt⟩ := h.sound.eject hs ht
    exact ⟨⟨hsound, h.kept, hstrong, fun _ => htype.symm.trans (h.type (by rw [ht]; simp)), h.behind⟩,
      .left _ _ hlt⟩
  · rename_i hs ht
    split at hn
    · rename_i hi
      split at hn
      · rename_i hempty
        cases hn
        refine ⟨⟨h.sound, h.kept, h.strong, h.type, fun j hj hne => ?_⟩, ?_⟩
        · rcases Nat.lt_succ_iff_lt_or_eq.mp hj with hj | hj
          · exact h.behind j hj hne
          · have hji : j = ⟨s.i, hi⟩ := Fin.ext hj
            rw [← hji, Base.lists, if_neg hne] at hempty
            exact hempty
        · refine .right _ ?_
          have hid : s.base.heap.pending ≠ [] → s.i ≠ id.val := by
            intro hne he
            have hii : (⟨s.i, hi⟩ : Fin n) = id := Fin.ext he
            rw [hii, Base.lists, if_pos rfl] at hempty
            exact hne hempty
          have := id.isLt
          simp only [Hyaline.distance, ht, ne_eq, not_true_eq_false, if_false]
          split
          · omega
          · rename_i hne
            have := hid hne
            split <;> split <;> omega
      · rename_i e l hlist
        cases hn
        obtain ⟨hsound, heq⟩ := h.sound.takeBatch ht ⟨s.i, hi⟩
        have htodo : (s.base.takeBatch id ⟨s.i, hi⟩).todo ≠ [] := by
          simp [Base.takeBatch, hlist]
        refine ⟨⟨hsound, h.kept, hstrong, fun _ => ?_, fun j hj hne => ?_⟩, ?_⟩
        · refine h.strong e (h.sound.pending_mem ?_)
          have hm : e ∈ s.base.lists id ⟨s.i, hi⟩ := by rw [hlist]; exact List.mem_cons_self
          rw [Base.lists] at hm
          split at hm
          · exact List.mem_append_right _ hm
          · refine List.mem_append_left _ (List.mem_append_right _ ?_)
            exact List.mem_flatMap.mpr ⟨_, List.mem_finRange _, hm⟩
        · simp only [Base.takeBatch]
          by_cases hji : j = ⟨s.i, hi⟩
          · rw [hji, Function.update_self]
          · rw [Function.update_of_ne hji]
            exact h.behind j hj hne
        · simp only [hyalineMeasure, heq]
          refine .right _ ?_
          rw [Hyaline.distance, if_pos htodo, Hyaline.distance, if_neg (by simp [ht])]
          split
          · omega
          · split <;> omega
    · rename_i hi
      split at hn
      · rename_i hown
        cases hn
        refine ⟨⟨h.sound, h.kept, h.strong, h.type, fun j hj => absurd hj (Nat.not_lt_zero _)⟩, ?_⟩
        refine .right _ ?_
        have hne : s.base.heap.pending ≠ [] := by simpa [Base.lists] using hown
        have := id.isLt
        simp only [Hyaline.distance, ht, ne_eq, not_true_eq_false, if_false, if_neg hne]
        split <;> split <;> omega
      · cases hn

theorem HyalineInv.finished (h : HyalineInv fields strongRoots weakRoots id s)
    (hn : hyalineNext fields id s () = none) : Finished fields strongRoots weakRoots id s.base := by
  unfold hyalineNext at hn
  split at hn
  · cases hn
  · cases hn
  · rename_i hs ht
    split at hn
    · split at hn <;> cases hn
    · rename_i hi
      split at hn
      · cases hn
      · rename_i hown
        refine h.sound.finished hs ht h.kept fun j => ?_
        by_cases hj : j = id
        · rw [hj]
          simpa using hown
        · rw [Base.lists, if_neg hj]
          exact h.behind j (by omega) hj

end Hyaline

/-! ## The loop of `retire` -/

section Retire
variable {α : Type} [DecidableEq α] [Fintype α] {n : Nat} {fields : α → List (Field α)}
  {strongRoots weakRoots : α → Nat} {id : Fin n} {cfg : AcquireRetire.Retire.Config}

def pass (fields : α → List (Field α)) (cfg : AcquireRetire.Retire.Config) : Machine (Pass α n) Bool where
  init _ := True
  next := passNext fields cfg

/-- Between two passes nothing is taken out. -/
structure PassInv (fields : α → List (Field α)) (strongRoots weakRoots : α → Nat) (id : Fin n)
    (s : Pass α n) : Prop where
  sound : Sound fields strongRoots weakRoots id s.base
  between : s.control ≠ .pass → s.base.todo = [] ∧ s.base.kept = []

/-- The entries of the thread, wherever they stand. -/
def Pass.size (s : Pass α n) : Nat :=
  s.base.todo.length + s.base.kept.length + s.base.heap.pending.length

/-- The steps up to the next pass; another pass begins if enough has been retired. -/
def Pass.untilTest (cfg : AcquireRetire.Retire.Config) (s : Pass α n) : Nat :=
  if cfg.threshold ≤ s.work then s.size + 3 else 1

def Pass.distance (cfg : AcquireRetire.Retire.Config) (s : Pass α n) : Nat :=
  match s.control with
  | .done => 0
  | .test => s.untilTest cfg
  | .pass => s.base.todo.length + 1 + s.untilTest cfg

def passMeasure (fields : α → List (Field α)) (cfg : AcquireRetire.Retire.Config) (s : Pass α n) : Nat × Nat :=
  (s.base.total.toDo fields, s.distance cfg)

theorem PassInv.step {s s' : Pass α n} (h : PassInv fields strongRoots weakRoots id s) {a : Bool}
    (hn : passNext fields cfg s a = some s') : PassInv fields strongRoots weakRoots id s' ∧
      Prod.Lex (· < ·) (· < ·) (passMeasure fields cfg s') (passMeasure fields cfg s) := by
  have hpos := AcquireRetire.Retire.threshold_pos cfg
  unfold passNext at hn
  split at hn
  · cases hn
  · rename_i hc
    obtain ⟨ht, hk⟩ := h.between (by rw [hc]; exact Control.noConfusion)
    split at hn
    · rename_i hw
      split at hn
      · cases hn
        refine ⟨⟨h.sound, fun _ => ⟨ht, hk⟩⟩, .right _ ?_⟩
        simp only [Pass.distance, hc, Pass.untilTest, if_pos hw]
        omega
      · cases hn
        obtain ⟨hsound, heq⟩ := h.sound.move ({ s.base with
            todo := s.base.heap.pending, heap := { s.base.heap with pending := [] } } : Base α n) rfl h.sound.own rfl rfl
          (by
            simp only [Base.pending, ht, hk, List.append_nil, List.nil_append]
            exact List.perm_append_comm)
        refine ⟨⟨hsound, fun hne => absurd rfl hne⟩, ?_⟩
        rw [passMeasure, passMeasure, heq]
        refine .right _ ?_
        have hlt : ¬ cfg.threshold ≤ 0 := by omega
        simp only [Pass.distance, hc, Pass.untilTest, if_pos hw, Pass.size, if_neg hlt]
        omega
    · cases hn
      rename_i hw
      refine ⟨⟨h.sound, fun _ => ⟨ht, hk⟩⟩, .right _ ?_⟩
      simp only [Pass.distance, hc, Pass.untilTest, if_neg hw]
      omega
  · rename_i hc
    split at hn
    · rename_i c rest hs
      cases hn
      obtain ⟨hsound, hlt⟩ := h.sound.call hs
      exact ⟨⟨hsound, fun hne => absurd hc hne⟩, .left _ _ hlt⟩
    · rename_i e todo hs ht
      split at hn
      · cases hn
        obtain ⟨hsound, heq⟩ := h.sound.move ({ s.base with
            todo := todo, kept := s.base.kept ++ [e] } : Base α n) rfl h.sound.own rfl rfl
          (by
            simp only [Base.pending, ht, List.append_assoc, List.cons_append, List.nil_append]
            rw [← List.append_assoc]
            exact List.perm_middle.trans (by rw [List.append_assoc]))
        refine ⟨⟨hsound, fun hne => absurd hc hne⟩, ?_⟩
        rw [passMeasure, passMeasure, heq]
        refine .right _ ?_
        simp only [Pass.distance, hc, Pass.untilTest, Pass.size, ht, List.length_append, List.length_cons,
          List.length_nil]
        split <;> omega
      · cases hn
        obtain ⟨hsound, hlt⟩ := h.sound.eject hs ht
        exact ⟨⟨hsound, fun hne => absurd hc hne⟩, .left _ _ hlt⟩
    · rename_i hs ht
      cases hn
      obtain ⟨hsound, heq⟩ := h.sound.move ({ s.base with
          kept := [], heap := { s.base.heap with pending := s.base.heap.pending ++ s.base.kept } } : Base α n)
        rfl h.sound.own rfl rfl
        (by
          simp only [Base.pending, ht, List.append_nil, List.nil_append]
          rw [← List.append_assoc]
          exact List.perm_append_comm.trans (by rw [List.append_assoc]))
      refine ⟨⟨hsound, fun _ => ⟨ht, rfl⟩⟩, ?_⟩
      rw [passMeasure, passMeasure, heq]
      refine .right _ ?_
      simp only [Pass.distance, hc, Pass.untilTest, Pass.size, ht, List.length_append, List.length_nil]
      split <;> omega

omit [Fintype α] in
theorem pass_ends {s : Pass α n} (hn : ∀ a, passNext fields cfg s a = none) : s.control = .done := by
  have h := hn false
  unfold passNext at h
  split at h
  · rename_i hc
    exact hc
  · split at h
    · split at h <;> cases h
    · cases h
  · split at h
    · cases h
    · cases h
    · cases h

/-! ## The loop of Hyaline's `retire` -/

def batch (fields : α → List (Field α)) (limit : Nat) : Machine (Batch α n) Bool where
  init _ := True
  next := batchNext fields limit

structure BatchInv (fields : α → List (Field α)) (strongRoots weakRoots : α → Nat) (id : Fin n)
    (s : Batch α n) : Prop where
  sound : Sound fields strongRoots weakRoots id s.base
  between : s.control ≠ .pass → s.base.todo = []
  strong : OnlyStrong s.base
  type : s.base.todo ≠ [] → s.type = .decrementStrongCount

def Batch.distance (s : Batch α n) : Nat :=
  match s.control with
  | .done => 0
  | .test => 2 * s.base.heap.pending.length + 4
  | .pass => 2 * s.base.heap.pending.length + 5

def batchMeasure (fields : α → List (Field α)) (s : Batch α n) : Nat × Nat :=
  (s.base.total.toDo fields, s.distance)

theorem BatchInv.step {limit : Nat} {s s' : Batch α n} (h : BatchInv fields strongRoots weakRoots id s) {a : Bool}
    (hn : batchNext fields limit s a = some s') (hstrong : OnlyStrong s'.base) :
    BatchInv fields strongRoots weakRoots id s' ∧
      Prod.Lex (· < ·) (· < ·) (batchMeasure fields s') (batchMeasure fields s) := by
  unfold batchNext at hn
  split at hn
  · cases hn
  · rename_i hc
    have ht := h.between (by rw [hc]; exact Control.noConfusion)
    split at hn
    · cases hn
      refine ⟨⟨h.sound, fun _ => ht, h.strong, h.type⟩, .right _ ?_⟩
      simp only [Batch.distance, hc]
      omega
    · rename_i e l hown
      split at hn
      · split at hn
        · cases hn
          obtain ⟨hsound, heq⟩ := h.sound.move ({ s.base with
              heap := { s.base.heap with pending := [] }, kept := s.base.kept ++ e :: l } : Base α n)
            rfl h.sound.own rfl rfl
            (by
              simp only [Base.pending, ht, hown, List.append_nil, List.nil_append, List.append_assoc]
              exact List.perm_append_comm.append_left _)
          refine ⟨⟨hsound, fun _ => ht, hstrong, h.type⟩, ?_⟩
          simp only [batchMeasure, heq]
          refine .right _ ?_
          simp only [Batch.distance, hc, hown, List.length_nil, List.length_cons]
          omega
        · cases hn
          obtain ⟨hsound, heq⟩ := h.sound.move ({ s.base with
              heap := { s.base.heap with pending := [] }, todo := (e :: l).reverse } : Base α n)
            rfl h.sound.own rfl rfl
            (by
              simp only [Base.pending, ht, hown, List.append_nil, List.nil_append]
              rw [List.append_assoc (e :: l).reverse]
              exact List.perm_append_comm.trans ((List.reverse_perm _).append_left _))
          refine ⟨⟨hsound, fun hne => absurd rfl hne, hstrong, fun _ => ?_⟩, ?_⟩
          · refine h.strong e (h.sound.pending_mem (List.mem_append_right _ ?_))
            rw [hown]
            exact List.mem_cons_self
          · simp only [batchMeasure, heq]
            refine .right _ ?_
            simp only [Batch.distance, hc, hown, List.length_nil, List.length_cons]
            omega
      · cases hn
        refine ⟨⟨h.sound, fun _ => ht, h.strong, h.type⟩, .right _ ?_⟩
        simp only [Batch.distance, hc]
        omega
  · rename_i hc
    split at hn
    · rename_i c rest hs
      cases hn
      obtain ⟨hsound, hlt⟩ := h.sound.call hs
      exact ⟨⟨hsound, fun hne => absurd hc hne, hstrong, h.type⟩, .left _ _ hlt⟩
    · rename_i e todo hs ht
      cases hn
      have htype : s.type = e.2 := by
        have hm : e ∈ s.base.pending := by simp [Base.pending, ht]
        rw [h.type (by rw [ht]; simp), h.strong e (h.sound.pending_mem hm)]
      rw [htype]
      obtain ⟨hsound, hlt⟩ := h.sound.eject hs ht
      exact ⟨⟨hsound, fun hne => absurd hc hne, hstrong,
        fun _ => htype.symm.trans (h.type (by rw [ht]; simp))⟩, .left _ _ hlt⟩
    · rename_i hs ht
      cases hn
      refine ⟨⟨h.sound, fun _ => ht, h.strong, h.type⟩, .right _ ?_⟩
      simp only [Batch.distance, hc]
      omega

omit [Fintype α] in
theorem batch_ends {limit : Nat} {s : Batch α n} (hn : ∀ a, batchNext fields limit s a = none) :
    s.control = .done := by
  have h := hn false
  unfold batchNext at h
  split at h
  · rename_i hc
    exact hc
  · split at h
    · cases h
    · split at h <;> cases h
  · split at h
    · cases h
    · cases h
    · cases h

end Retire

/-! ## All loops -/

section Termination
variable {α : Type} [DecidableEq α] [Fintype α] {n : Nat} {fields : α → List (Field α)}
  {strongRoots weakRoots : α → Nat} {id : Fin n} {b : Base α n}

/-- Any heap and any contents of the lists, as long as the counts agree; no loop has begun. -/
structure Start (fields : α → List (Field α)) (strongRoots weakRoots : α → Nat) (id : Fin n) (b : Base α n) :
    Prop where
  counts : CountsAgree fields strongRoots weakRoots b.total
  own : b.others id = []
  todo : b.todo = []
  kept : b.kept = []
  ejected : b.ejected = []
  retired : b.retired = b.pending

theorem Start.sound (h : Start fields strongRoots weakRoots id b) :
    Sound fields strongRoots weakRoots id b := by
  refine ⟨h.counts.inv, h.own, ?_⟩
  rw [h.ejected, h.retired]
  exact .refl _

/-- A run from a state with the invariant of a loop stays within it. -/
theorem exec_keeps {σ β : Type} {M : Machine σ β} {I : σ → Prop}
    (hs : ∀ s a t, I s → M.next s a = some t → I t) {as : List β} {s t : σ} (h : I s)
    (he : M.exec as s = some t) : I t := by
  induction as generalizing s with
  | nil =>
    cases he
    exact h
  | cons a as ih =>
    obtain ⟨u, hu, he⟩ := Option.bind_eq_some_iff.mp he
    exact ih (hs s a u h hu) he

theorem Start.destructor (h : Start fields strongRoots weakRoots id b) :
    Acc (Loops.destructor fields id).Steps b ∧
      ∀ as b', (Loops.destructor fields id).exec as b = some b' →
        destructorNext fields id b' () = none → Finished fields strongRoots weakRoots id b' := by
  have hstep : ∀ (s : Base α n) (a : Unit) (t : Base α n),
      Sound fields strongRoots weakRoots id s ∧ s.kept = [] → (Loops.destructor fields id).next s a = some t →
      (Sound fields strongRoots weakRoots id t ∧ t.kept = []) ∧
        Prod.Lex (· < ·) (· < ·) (destructorMeasure fields t) (destructorMeasure fields s) :=
    fun s a t hi hn => destructor_step (a := a) hi.1 hi.2 hn
  have hacc : Acc (Loops.destructor fields id).Steps b := by
    refine Machine.acc_of_lex (I := fun s => Sound fields strongRoots weakRoots id s ∧ s.kept = [])
      (μ := destructorMeasure fields) (fun s t hi ht => ?_) ⟨h.sound, h.kept⟩
    obtain ⟨a, ha⟩ := ht
    exact hstep s a t hi ha
  refine ⟨hacc, fun as b' he hn => ?_⟩
  obtain ⟨hsound, hkept⟩ := exec_keeps (fun s a t hi hn => (hstep s a t hi hn).1) ⟨h.sound, h.kept⟩ he
  exact destructor_finished hsound hkept hn

theorem Start.hyaline (h : Start fields strongRoots weakRoots id b) (hb : OnlyStrong b) (type : RetireType) :
    Acc ((Loops.hyaline fields id).StepsIn fun s => OnlyStrong s.base) ⟨b, 0, type⟩ ∧
      ∀ s, (Loops.hyaline fields id).During (fun s => OnlyStrong s.base) ⟨b, 0, type⟩ s →
        hyalineNext fields id s () = none → Finished fields strongRoots weakRoots id s.base := by
  have h0 : HyalineInv fields strongRoots weakRoots id ⟨b, 0, type⟩ :=
    ⟨h.sound, h.kept, hb, fun hne => absurd h.todo hne, fun j hj => absurd hj (Nat.not_lt_zero _)⟩
  constructor
  · refine Machine.acc_of_lex (μ := hyalineMeasure fields id) (fun s t hi ht => ?_) h0
    obtain ⟨⟨a, ha⟩, hstrong⟩ := ht
    exact hi.step (a := a) ha hstrong
  · intro s hr hn
    have hi : HyalineInv fields strongRoots weakRoots id s :=
      hr.keeps (fun s a t hi ha hstrong => (hi.step (a := a) ha hstrong).1) h0
    exact hi.finished hn

theorem Start.pass (h : Start fields strongRoots weakRoots id b) (cfg : AcquireRetire.Retire.Config) (work : Nat) :
    Acc (Loops.pass fields cfg).Steps ⟨b, .test, work⟩ := by
  have h0 : PassInv fields strongRoots weakRoots id ⟨b, .test, work⟩ := ⟨h.sound, fun _ => ⟨h.todo, h.kept⟩⟩
  refine Machine.acc_of_lex (μ := passMeasure fields cfg) (fun s t hi ht => ?_) h0
  obtain ⟨a, ha⟩ := ht
  exact hi.step ha

theorem Start.batch (h : Start fields strongRoots weakRoots id b) (hb : OnlyStrong b) (limit : Nat)
    (type : RetireType) :
    Acc ((Loops.batch fields limit).StepsIn fun s => OnlyStrong s.base) ⟨b, .test, type⟩ := by
  have h0 : BatchInv fields strongRoots weakRoots id ⟨b, .test, type⟩ :=
    ⟨h.sound, fun _ => h.todo, hb, fun hne => absurd h.todo hne⟩
  refine Machine.acc_of_lex (μ := batchMeasure fields) (fun s t hi ht => ?_) h0
  obtain ⟨⟨a, ha⟩, hstrong⟩ := ht
  exact hi.step ha hstrong

/-- The destructors and the loops of a top-level `retire` come to their end in every run
(`Acc`: no run goes on for ever). For Hyaline these are the runs in all of whose states only strong
decrements have been retired, before the drain and by its ejects. A destructor that has come to its
end has left all lists empty, has ejected every entry once and has deleted every object to which
nothing refers any more. The loop of `retire` stops only where it is done. -/
theorem drain_loops_terminate (h : Start fields strongRoots weakRoots id b) :
    (Acc (destructor fields id).Steps b ∧
      ∀ as b', (destructor fields id).exec as b = some b' → destructorNext fields id b' () = none →
        Finished fields strongRoots weakRoots id b') ∧
    (∀ type, OnlyStrong b → Acc ((hyaline fields id).StepsIn fun s => OnlyStrong s.base) ⟨b, 0, type⟩ ∧
      ∀ s, (hyaline fields id).During (fun s => OnlyStrong s.base) ⟨b, 0, type⟩ s →
        hyalineNext fields id s () = none → Finished fields strongRoots weakRoots id s.base) ∧
    (∀ (cfg : AcquireRetire.Retire.Config) (work : Nat), Acc (pass fields cfg).Steps ⟨b, .test, work⟩ ∧
      ∀ s : Pass α n, (∀ a, passNext fields cfg s a = none) → s.control = .done) ∧
    (∀ (limit : Nat) (type : RetireType), OnlyStrong b →
      Acc ((batch fields limit).StepsIn fun s => OnlyStrong s.base) ⟨b, .test, type⟩ ∧
      ∀ s : Batch α n, (∀ a, batchNext fields limit s a = none) → s.control = .done) :=
  ⟨h.destructor, fun type hb => h.hyaline hb type, fun cfg work => ⟨h.pass cfg work, fun _ hn => pass_ends hn⟩,
    fun limit type hb => ⟨h.batch hb limit type, fun _ hn => batch_ends hn⟩⟩

end Termination

/-- The only reference to object `0` of `chain` is in the list of thread 1, and thread 0
drains. -/
def chainBase : Base (Fin 2) 2 where
  heap := { chain with pending := [] }
  others i := if i = 1 then [(0, .decrementStrongCount)] else []
  todo := []
  kept := []
  ejected := []
  retired := [(0, .decrementStrongCount)]

/-- Object `0` holds object `1` in an `atomic_rc_ptr`, so that its destructor retires once more. -/
def linkFields : Fin 2 → List (Field (Fin 2))
  | 0 => [.atomicRcPtr 1]
  | 1 => []

def linkBase : Base (Fin 2) 2 := { chainBase with
  heap := { chainBase.heap with weak := fun _ => 1 } }

/-- The destructor of the hazard pointers on the one heap, that of Hyaline on the other. -/
theorem drain_loops_terminate_chain :
    (∃ b, (destructor chainFields 0).exec (List.replicate 10 ()) chainBase = some b ∧
      b.ejected = [(0, .decrementStrongCount), (1, .dispose)] ∧
      Finished chainFields (fun _ => 0) (fun _ => 0) 0 b) ∧
    ∃ s, (hyaline linkFields 0).execIn (fun s => OnlyStrong s.base) (List.replicate 14 ())
        ⟨linkBase, 0, .dispose⟩ = some s ∧
      s.base.ejected = [(0, .decrementStrongCount), (1, .decrementStrongCount)] ∧
      Finished linkFields (fun _ => 0) (fun _ => 0) 0 s.base := by
  have hchain : Start chainFields (fun _ => 0) (fun _ => 0) 0 chainBase :=
    ⟨⟨rfl, rfl, by decide, by decide, by decide, by decide, by decide, by decide⟩, rfl, rfl, rfl, rfl, by decide⟩
  have hlink : Start linkFields (fun _ => 0) (fun _ => 0) 0 linkBase :=
    ⟨⟨rfl, rfl, by decide, by decide, by decide, by decide, by decide, by decide⟩, rfl, rfl, rfl, rfl, by decide⟩
  constructor
  · have hex : ((destructor chainFields 0).exec (List.replicate 10 ()) chainBase).map
        (fun b => (b.ejected, destructorNext chainFields 0 b () |>.isNone)) =
        some ([(0, .decrementStrongCount), (1, .dispose)], true) := by
      decide +kernel
    obtain ⟨b, hb, hst⟩ := Option.map_eq_some_iff.mp hex
    simp only [Prod.mk.injEq, Option.isNone_iff_eq_none] at hst
    exact ⟨b, hb, hst.1, (drain_loops_terminate hchain).1.2 _ b hb hst.2⟩
  · have hex : ((hyaline linkFields 0).execIn (fun s => OnlyStrong s.base) (List.replicate 14 ())
        ⟨linkBase, 0, .dispose⟩).map
        (fun s => (s.base.ejected, hyalineNext linkFields 0 s () |>.isNone)) =
        some ([(0, .decrementStrongCount), (1, .decrementStrongCount)], true) := by
      decide +kernel
    obtain ⟨s, hs, hst⟩ := Option.map_eq_some_iff.mp hex
    simp only [Prod.mk.injEq, Option.isNone_iff_eq_none] at hst
    have hr := Machine.During.exec .refl hs
    exact ⟨s, hs, hst.1, ((drain_loops_terminate hlink).2.1 .dispose (by decide)).2 s hr hst.2⟩

end Cdrc.Drain.Loops
