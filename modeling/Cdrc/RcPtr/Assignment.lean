import Cdrc.Acquire.Load
import Cdrc.Drain.Confluence

/-! # Assignment and swap of `rc_ptr` and `weak_ptr`

A smart pointer variable is outside the objects or a field of one. Assigning to it reads the
source, increments or empties it, and decrements what the target held; the decrement can
dispose of an object, whose fields let go of theirs, and so on. The source and the target
may be one variable, or be in objects that this takes away.

The counts, the calls of the memory manager and the pending entries are those of `Drain`; an
assignment that increments finds the sticky counter below its `max_value`.
The counts are right when they are the number of the variables and pending entries that
hold a reference; a call that is still to be made holds the reference it will give back. -/
namespace Cdrc.RcPtr.Assignment
open Cdrc.Lib.Runs Cdrc.CountedObject Cdrc.Drain
open Cdrc.Acquire (Kind)

/-- A smart pointer variable. -/
structure Slot (α : Type) where
  atomic : Bool
  kind : Kind
  ptr : Option α
  deriving DecidableEq, Repr

/-- Where a variable is. -/
inductive Place (α : Type)
  | root (i : Nat)
  | field (o : α) (i : Nat)
  deriving DecidableEq, Repr

/-- The variables outside the objects, and those in each object. -/
structure Vars (α : Type) where
  roots : List (Slot α)
  fields : α → List (Slot α)

/-- The field as its object's destructor sees it; a null pointer's does nothing. -/
def Slot.field {α : Type} (x : Slot α) : Option (Drain.Field α) :=
  x.ptr.map fun p =>
    match x.atomic, x.kind with
    | false, .strong => .rcPtr p
    | false, .weak => .weakPtr p
    | true, .strong => .atomicRcPtr p
    | true, .weak => .atomicWeakPtr p

section Code
variable {α : Type} [DecidableEq α]

def Vars.get (v : Vars α) : Place α → Option (Slot α)
  | .root i => v.roots[i]?
  | .field o i => (v.fields o)[i]?

def Vars.set (v : Vars α) (x : Place α) (a : Slot α) : Vars α :=
  match x with
  | .root i => { v with roots := v.roots.set i a }
  | .field o i => { v with fields := Function.update v.fields o ((v.fields o).set i a) }

def Vars.fieldsOf (v : Vars α) (o : α) : List (Drain.Field α) := (v.fields o).filterMap Slot.field

/-- `if (p) increment_ref_cnt(p)`, `if (p) increment_weak_cnt(p)`. -/
def increment (s : State α) (κ : Kind) : Option α → State α
  | none => s
  | some p =>
    match κ with
    | .strong => { s with strong := Function.update s.strong p (s.strong p + 1) }
    | .weak => { s with weak := Function.update s.weak p (s.weak p + 1) }

def decrementCall (κ : Kind) (p : α) : Call α :=
  match κ with
  | .strong => .decrementRefCnt p
  | .weak => .decrementWeakCnt p

/-- `if (p) decrement_ref_cnt(p)`, `if (p) decrement_weak_cnt(p)`: the call is to be made. -/
def decrement (s : State α) (κ : Kind) : Option α → State α
  | none => s
  | some p => { s with stack := decrementCall κ p :: s.stack }

inductive Op
  | copy
  | move
  | swap
  deriving DecidableEq, Repr

/-- `x = y`, where `x` is `a` and `y` is `b`. -/
def copyAssign (v : Vars α) (s : State α) (x : Place α) (a b : Slot α) : Vars α × State α :=
  let tmp := a.ptr
  let v := v.set x { a with ptr := b.ptr }
  (v, decrement (increment s a.kind b.ptr) a.kind tmp)

/-- `x = std::move(y)`. -/
def moveAssign (v : Vars α) (s : State α) (x y : Place α) (a b : Slot α) : Vars α × State α :=
  let tmp := a.ptr
  -- other.release()
  let p := b.ptr
  let v := v.set y { b with ptr := none }
  let v := v.set x { a with ptr := p }
  (v, decrement s a.kind tmp)

/-- `x.swap(y)`. -/
def swap (v : Vars α) (s : State α) (x y : Place α) (a b : Slot α) : Vars α × State α :=
  let tmp := a.ptr
  let v := v.set x { a with ptr := b.ptr }
  let v := v.set y { b with ptr := tmp }
  (v, s)

def run (op : Op) (v : Vars α) (s : State α) (x y : Place α) (a b : Slot α) : Vars α × State α :=
  match op with
  | .copy => copyAssign v s x a b
  | .move => moveAssign v s x y a b
  | .swap => swap v s x y a b

/-- What the memory manager asserts where it decrements. -/
def Asserts (s : State α) : Prop :=
  match s.stack with
  | .decrementRefCnt p :: _ => 0 < s.strong p
  | .decrementWeakCnt p :: _ => p ∉ s.deleted ∧ 0 < s.weak p
  | _ => True

/-- A reference of kind `κ` to `p`. -/
def Slot.refers (κ : Kind) (p : α) (x : Slot α) : Nat := if x.kind = κ ∧ x.ptr = some p then 1 else 0

def Vars.rootRefs (v : Vars α) (κ : Kind) (p : α) : Nat := (v.roots.map (Slot.refers κ p)).sum

variable [Fintype α]

/-- The calls of the memory manager, one after the other. -/
def calls (v : Vars α) : Machine (State α) Label :=
  (machine v.fieldsOf (v.rootRefs .strong) (v.rootRefs .weak)).restrict fun _ a => a = .run

/-- The counts are those of the references that there are, and no call is to be made. -/
def Balanced (v : Vars α) (s : State α) : Prop :=
  Inv v.fieldsOf (v.rootRefs .strong) (v.rootRefs .weak) s ∧ s.stack = []

/-- The variable exists: the object that it is in has not been disposed of. -/
def Present (s : State α) : Place α → Prop
  | .root _ => True
  | .field o _ => o ∉ s.disposed

/-- Every call returns, the asserts hold, the counts are right afterwards, and no variable
refers to an object that has been taken away: an `rc_ptr` to one that has been disposed of,
or a `weak_ptr` to one that has been deleted. -/
def Respects (r : Vars α × State α) : Prop :=
  Asserts r.2 ∧ ∃ s', (calls r.1).During Asserts r.2 s' ∧ Balanced r.1 s' ∧
    ∀ x a p, r.1.get x = some a → Present s' x → a.ptr = some p →
      (a.kind = .strong → p ∉ s'.disposed) ∧ p ∉ s'.deleted

end Code

/-! ## Counting references -/

section Units
variable {α : Type} [DecidableEq α] [Fintype α] {v : Vars α} {s : State α}

/-- What the variables that exist add up to. -/
def units (f : Slot α → Nat) (v : Vars α) (d : Multiset α) : Nat :=
  (v.roots.map f).sum + undisposed (fun o => ((v.fields o).map f).sum) d

omit [Fintype α] in
theorem count_refers (κ : Kind) (p : α) (l : List (Slot α)) :
    ((l.filterMap Slot.field).map Drain.Field.entry).count (p, κ.type) = (l.map (Slot.refers κ p)).sum := by
  induction l with
  | nil => rfl
  | cons x l ih =>
    obtain ⟨atomic, kind, ptr⟩ := x
    cases ptr with
    | none =>
      rw [List.filterMap_cons_none rfl, ih]
      simp [Slot.refers]
    | some q =>
      have hf : ∃ f : Drain.Field α, Slot.field ⟨atomic, kind, some q⟩ = some f ∧ f.entry = (q, kind.type) := by
        cases atomic <;> cases kind <;> exact ⟨_, rfl, rfl⟩
      obtain ⟨f, hf, he⟩ := hf
      rw [List.filterMap_cons_some hf, List.map_cons, List.count_cons, ih, he, List.map_cons, List.sum_cons]
      by_cases hq : q = p
      · subst hq
        cases κ <;> cases kind <;> simp [Slot.refers, Kind.type] <;> omega
      · simp [Slot.refers, hq]

omit [Fintype α] in
theorem strongFields_eq (v : Vars α) (o p : α) :
    strongFields v.fieldsOf o p = ((v.fields o).map (Slot.refers .strong p)).sum := by
  rw [← count_entries_strong, count_coe]
  exact count_refers .strong p (v.fields o)

omit [Fintype α] in
theorem weakFields_eq (v : Vars α) (o p : α) :
    weakFields v.fieldsOf o p = ((v.fields o).map (Slot.refers .weak p)).sum := by
  rw [← count_entries_weak, count_coe]
  exact count_refers .weak p (v.fields o)

theorem units_set {f : Slot α → Nat} {x : Place α} {a : Slot α} (b : Slot α) (hx : v.get x = some a)
    (he : Present s x) : units f (v.set x b) s.disposed + f a = units f v s.disposed + f b := by
  cases x with
  | root i =>
    have := sum_map_set f v.roots i b a hx
    simp only [units, Vars.set]
    omega
  | field o i =>
    have hset := sum_map_set f (v.fields o) i b a hx
    have ho : o ∉ (s.disposed : Multiset α) := fun hm => he (by simpa using hm)
    have hsum : ∀ w : Vars α, undisposed (fun o => ((w.fields o).map f).sum) s.disposed =
        ((w.fields o).map f).sum +
          ∑ o' ∈ Finset.univ.erase o, if o' ∈ (s.disposed : Multiset α) then 0 else ((w.fields o').map f).sum := by
      intro w
      rw [undisposed, ← Finset.add_sum_erase _ _ (Finset.mem_univ o), if_neg ho]
    have hrest : ∑ o' ∈ Finset.univ.erase o, (if o' ∈ (s.disposed : Multiset α) then 0 else
        (((v.set (.field o i) b).fields o').map f).sum) =
        ∑ o' ∈ Finset.univ.erase o, if o' ∈ (s.disposed : Multiset α) then 0 else ((v.fields o').map f).sum := by
      refine Finset.sum_congr rfl fun o' ho' => ?_
      simp only [Vars.set, Function.update_of_ne (Finset.ne_of_mem_erase ho')]
    have hself : (v.set (.field o i) b).fields o = (v.fields o).set i b := by
      simp only [Vars.set, Function.update_self]
    have hroots : (v.set (.field o i) b).roots = v.roots := rfl
    rw [units, units, hsum, hsum, hrest, hself, hroots]
    omega

theorem le_units {f : Slot α → Nat} {x : Place α} {a : Slot α} (hf : f { a with ptr := none } = 0)
    (hx : v.get x = some a) (he : Present s x) : f a ≤ units f v s.disposed := by
  have := units_set (f := f) { a with ptr := none } hx he
  omega

omit [Fintype α] in
theorem refers_none (κ : Kind) (p : α) (x : Slot α) : Slot.refers κ p { x with ptr := none } = 0 := by
  simp [Slot.refers]

/-- The counts, as numbers of references. -/
theorem strong_eq (h : Inv v.fieldsOf (v.rootRefs .strong) (v.rootRefs .weak) s) (p : α) :
    s.strong p = units (Slot.refers .strong p) v s.disposed + s.bag.count (p, .decrementStrongCount) := by
  have := h.agrees.strong p
  simp only [strongFields_eq] at this
  exact this

theorem weak_eq (h : Inv v.fieldsOf (v.rootRefs .strong) (v.rootRefs .weak) s) (p : α) :
    s.heap.weak p = units (Slot.refers .weak p) v s.disposed + s.bag.count (p, .decrementWeakCount) +
      heldByStrong s.disposed p := by
  have := h.agrees.weak p
  simp only [weakFields_eq] at this
  exact this

/-- An object that a variable refers to has not been taken away. -/
theorem referred (h : Inv v.fieldsOf (v.rootRefs .strong) (v.rootRefs .weak) s) {x : Place α} {a : Slot α}
    {p : α} (hx : v.get x = some a) (he : Present s x) (hp : a.ptr = some p) :
    (a.kind = .strong → 0 < s.strong p ∧ p ∉ s.disposed) ∧ p ∉ s.deleted ∧ 0 < s.weak p := by
  have hle := fun κ => le_units (f := Slot.refers κ p) (refers_none κ p a) hx he
  have hstrong : a.kind = .strong → 0 < s.strong p ∧ p ∉ s.disposed := by
    intro hk
    have hpos : 0 < s.strong p := by
      have := hle .strong
      rw [strong_eq h p]
      simp only [Slot.refers, hk, hp, and_self, if_true] at this
      omega
    refine ⟨hpos, fun hd => ?_⟩
    have : s.strong p = 0 := h.agrees.expired p (by simpa [State.heap] using hd)
    omega
  have hweak : 0 < s.heap.weak p := by
    rw [weak_eq h p]
    cases hk : a.kind with
    | strong =>
      have hd := (hstrong hk).2
      simp only [heldByStrong, Multiset.mem_coe, hd, if_false]
      omega
    | weak =>
      have := hle .weak
      simp only [Slot.refers, hk, hp, and_self, if_true] at this
      omega
  have hdel : p ∉ s.deleted := by
    intro hm
    simp [State.heap, hm] at hweak
  refine ⟨hstrong, hdel, ?_⟩
  simpa [State.heap, hdel] using hweak

end Units

/-! ## The calls come to their end -/

section Run
variable {α : Type} [DecidableEq α] [Fintype α] {v : Vars α} {s : State α}

theorem asserts_of_inv (h : Inv v.fieldsOf (v.rootRefs .strong) (v.rootRefs .weak) s) : Asserts s := by
  rw [Asserts]
  split
  · rename_i p rest hs
    have hb := h.agrees
    rw [bag_cons hs] at hb
    exact hb.strong_pos
  · rename_i p rest hs
    have hb := h.agrees
    rw [bag_cons hs] at hb
    have hpos : 0 < s.heap.weak p := hb.weak_pos
    have hdel : p ∉ s.deleted := by
      intro hm
      simp [State.heap, hm] at hpos
    exact ⟨hdel, by simpa [State.heap, hdel] using hpos⟩
  · trivial

theorem finishes (v : Vars α) (n : Nat) {s : State α} (hn : s.toDo v.fieldsOf ≤ n)
    (h : Inv v.fieldsOf (v.rootRefs .strong) (v.rootRefs .weak) s) :
    ∃ s', (calls v).During Asserts s s' ∧ Balanced v s' := by
  induction n generalizing s with
  | zero =>
    cases hs : s.stack with
    | nil => exact ⟨s, .refl, h, hs⟩
    | cons c rest =>
      have hnext : next v.fieldsOf s .run = some (makeCall v.fieldsOf s rest c) := by simp only [next, hs]
      have hlt := h.toDo_lt hnext
      omega
  | succ n ih =>
    cases hs : s.stack with
    | nil => exact ⟨s, .refl, h, hs⟩
    | cons c rest =>
      have hnext : next v.fieldsOf s .run = some (makeCall v.fieldsOf s rest c) := by simp only [next, hs]
      have hlt := h.toDo_lt hnext
      have hinv := (h.next hnext).2
      obtain ⟨s', hd, hb⟩ := ih (by omega) hinv
      refine ⟨s', hd.head (a := .run) ?_ (asserts_of_inv hinv), hb⟩
      exact Machine.restrict_next.mpr ⟨rfl, hnext⟩

theorem respects_of_inv (h : Inv v.fieldsOf (v.rootRefs .strong) (v.rootRefs .weak) s) :
    Respects (v, s) := by
  obtain ⟨s', hd, hb⟩ := finishes v (s.toDo v.fieldsOf) (Nat.le_refl _) h
  refine ⟨asserts_of_inv h, s', hd, hb, fun x a p hx he hp => ?_⟩
  have hr := referred hb.1 hx he hp
  exact ⟨fun hk => (hr.1 hk).2, hr.2.1⟩

end Run

/-! ## Each operation -/

section Variables
variable {α : Type} [DecidableEq α] {v : Vars α} {x y : Place α} {a b : Slot α}

theorem get_set_of_ne (hxy : x ≠ y) (v : Vars α) (b : Slot α) : (v.set y b).get x = v.get x := by
  cases y with
  | root j =>
    cases x with
    | root i =>
      have hij : j ≠ i := fun h => hxy (by rw [h])
      simp [Vars.get, Vars.set, List.getElem?_set_ne hij]
    | field o i => rfl
  | field o' j =>
    cases x with
    | root i => rfl
    | field o i =>
      by_cases ho : o = o'
      · subst ho
        have hij : j ≠ i := fun h => hxy (by rw [h])
        simp [Vars.get, Vars.set, List.getElem?_set_ne hij]
      · simp [Vars.get, Vars.set, Function.update_of_ne ho]

theorem set_set_self (hx : v.get x = some a) (b : Slot α) : (v.set x b).set x a = v := by
  cases x with
  | root i =>
    obtain ⟨hi, rfl⟩ := List.getElem?_eq_some_iff.mp hx
    simp [Vars.set]
  | field o i =>
    obtain ⟨hi, rfl⟩ := List.getElem?_eq_some_iff.mp hx
    simp [Vars.set]

end Variables

section Operations
variable {α : Type} [DecidableEq α] [Fintype α] {v : Vars α} {s : State α} {x y : Place α} {a b : Slot α}

def count (s : State α) : Kind → α → Nat
  | .strong => s.strong
  | .weak => s.weak

omit [Fintype α] in
theorem count_increment (s : State α) (κ : Kind) (a : Slot α) (p : α) :
    count (increment s a.kind a.ptr) κ p = count s κ p + Slot.refers κ p a := by
  obtain ⟨atomic, kind, ptr⟩ := a
  cases ptr with
  | none => simp [increment, Slot.refers]
  | some q =>
    by_cases hq : p = q
    · subst hq
      cases kind <;> cases κ <;> simp [increment, count, Slot.refers]
    · have hq' : q ≠ p := Ne.symm hq
      cases kind <;> cases κ <;> simp [increment, count, Slot.refers, Function.update_of_ne hq, hq']

omit [Fintype α] in
theorem count_decrement {s : State α} (hs : s.stack = []) (κ : Kind) (a : Slot α) (p : α) :
    ((decrement s a.kind a.ptr).stack.map Call.entry).count (p, κ.type) = Slot.refers κ p a := by
  obtain ⟨atomic, kind, ptr⟩ := a
  cases ptr with
  | none => simp [decrement, hs, Slot.refers]
  | some q =>
    by_cases hq : q = p
    · subst hq
      cases kind <;> cases κ <;> simp [decrement, hs, Slot.refers, decrementCall, Call.entry, Kind.type]
    · cases kind <;> cases κ <;> simp [decrement, hs, Slot.refers, decrementCall, Call.entry, Kind.type, hq]

omit [Fintype α] in
theorem count_bag (s : State α) (e : Entry α) :
    s.bag.count e = s.pending.count e + (s.stack.map Call.entry).count e := by
  rw [State.bag, Multiset.count_add, count_coe, count_coe]

/-- The variables and the counts change by the same references, up to those that calls will
give back. -/
theorem Balanced.change (h : Balanced v s) {v' : Vars α} {s' : State α} (hdisposed : s'.disposed = s.disposed)
    (hdeleted : s'.deleted = s.deleted) (hpending : s'.pending = s.pending)
    (hstack : ∀ c ∈ s'.stack, ∃ κ p, c = decrementCall κ p)
    (hcount : ∀ κ p, count s' κ p + units (Slot.refers κ p) v s.disposed =
      count s κ p + units (Slot.refers κ p) v' s.disposed + (s'.stack.map Call.entry).count (p, κ.type))
    (hmono : ∀ κ p, count s κ p ≤ count s' κ p) (hstrong : ∀ p, s.strong p = 0 → s'.strong p = 0)
    (hweak : ∀ p ∈ s.deleted, s'.weak p = s.weak p) :
    Inv v'.fieldsOf (v'.rootRefs .strong) (v'.rootRefs .weak) s' := by
  have hbag : ∀ e, s.bag.count e = s.pending.count e := by
    intro e
    rw [count_bag, h.2]
    simp
  have hdispose : ∀ p, (s'.stack.map Call.entry).count (p, .dispose) = 0 := by
    intro p
    refine List.count_eq_zero.mpr fun hm => ?_
    obtain ⟨c, hc, he⟩ := List.mem_map.mp hm
    obtain ⟨κ, q, rfl⟩ := hstack c hc
    cases κ <;> cases he
  have hheap : ∀ p, p ∉ s.deleted → s'.heap.weak p = s'.weak p ∧ s.heap.weak p = s.weak p := by
    intro p hp
    simp [State.heap, hdeleted, hp]
  have hgone : ∀ p ∈ s.deleted, s'.heap.weak p = 0 ∧ s.heap.weak p = 0 := by
    intro p hp
    simp [State.heap, hdeleted, hp]
  have hzero : ∀ p, s'.strong p = 0 ↔ s.strong p = 0 := by
    intro p
    refine ⟨fun h0 => ?_, hstrong p⟩
    have := hmono .strong p
    simp only [count, h0] at this
    omega
  refine ⟨⟨fun p => ?_, fun p => ?_, fun p => ?_, fun p hp => ?_, fun p => ?_, ?_, ?_⟩, fun p hp => ?_⟩
  · have hs := strong_eq h.1 p
    have hc := hcount .strong p
    rw [hbag] at hs
    simp only [count, Kind.type] at hc
    simp only [strongFields_eq, count_bag, State.heap, hdisposed, hpending]
    show s'.strong p = units (Slot.refers .strong p) v' s.disposed + _
    omega
  · have hs := weak_eq h.1 p
    have hc := hcount .weak p
    rw [hbag] at hs
    simp only [count, Kind.type] at hc
    simp only [weakFields_eq, count_bag, hpending]
    have hd : s'.heap.disposed = (s.disposed : Multiset α) := by simp [State.heap, hdisposed]
    rw [hd]
    show s'.heap.weak p = units (Slot.refers .weak p) v' s.disposed + _ + _
    by_cases hp : p ∈ s.deleted
    · rw [(hgone p hp).1]
      rw [(hgone p hp).2] at hs
      have := hweak p hp
      omega
    · rw [(hheap p hp).1]
      rw [(hheap p hp).2] at hs
      omega
  · have hs := h.1.agrees.dispose p
    rw [hbag] at hs
    rw [count_bag, hdispose, hpending]
    simp only [State.heap, hdisposed, hzero p] at hs ⊢
    exact hs
  · have hp' : p ∈ s.heap.disposed := by simpa [State.heap, hdisposed] using hp
    exact (hzero p).mpr (h.1.agrees.expired p hp')
  · have hs := h.1.agrees.deleted p
    have hd : s'.heap.deleted = s.heap.deleted := by simp [State.heap, hdeleted]
    rw [hd, hs]
    by_cases hp : p ∈ s.deleted
    · rw [(hgone p hp).1, (hgone p hp).2]
    · have hmem : p ∉ s.heap.deleted := by simpa [State.heap] using hp
      have hpos : s.heap.weak p ≠ 0 := fun h0 => hmem (hs.mpr h0)
      have := hmono .weak p
      rw [(hheap p hp).1, (hheap p hp).2] at *
      simp only [count] at this
      omega
  · have := h.1.agrees.disposedOnce
    simpa [State.heap, hdisposed] using this
  · have := h.1.agrees.deletedOnce
    simpa [State.heap, hdeleted] using this
  · obtain ⟨κ, q, hc⟩ := hstack _ hp
    cases κ <;> cases hc

section Fields
omit [Fintype α]

theorem increment_eq (s : State α) (κ : Kind) (p : Option α) : (increment s κ p).disposed = s.disposed ∧
    (increment s κ p).deleted = s.deleted ∧ (increment s κ p).pending = s.pending ∧
      (increment s κ p).stack = s.stack := by
  cases p with
  | none => exact ⟨rfl, rfl, rfl, rfl⟩
  | some p => cases κ <;> exact ⟨rfl, rfl, rfl, rfl⟩

omit [DecidableEq α] in
theorem decrement_eq (s : State α) (κ : Kind) (p : Option α) : (decrement s κ p).disposed = s.disposed ∧
    (decrement s κ p).deleted = s.deleted ∧ (decrement s κ p).pending = s.pending ∧
      ∀ κ', count (decrement s κ p) κ' = count s κ' := by
  cases p with
  | none => exact ⟨rfl, rfl, rfl, fun _ => rfl⟩
  | some p => exact ⟨rfl, rfl, rfl, fun κ' => by cases κ' <;> rfl⟩

omit [DecidableEq α] in
theorem mem_decrement {s : State α} (hs : s.stack = []) {κ : Kind} {p : Option α} {c : Call α}
    (hc : c ∈ (decrement s κ p).stack) : ∃ κ p, c = decrementCall κ p := by
  cases p with
  | none =>
    rw [decrement, hs] at hc
    cases hc
  | some p =>
    simp only [decrement, hs, List.mem_singleton] at hc
    exact ⟨κ, p, hc⟩

theorem refers_eq {κ : Kind} {p : α} (hk : a.kind = b.kind) :
    Slot.refers κ p { a with ptr := b.ptr } = Slot.refers κ p b := by
  simp [Slot.refers, hk]

end Fields

theorem copyAssign_inv (h : Balanced v s) (hx : v.get x = some a) (hy : v.get y = some b)
    (ex : Present s x) (ey : Present s y) (hk : a.kind = b.kind) {v' : Vars α} {s' : State α}
    (hrun : copyAssign v s x a b = (v', s')) :
    Inv v'.fieldsOf (v'.rootRefs .strong) (v'.rootRefs .weak) s' := by
  cases hrun
  obtain ⟨hid, hil, hip, his⟩ := increment_eq s a.kind b.ptr
  obtain ⟨hdd, hdl, hdp, hdc⟩ := decrement_eq (increment s a.kind b.ptr) a.kind a.ptr
  have hstack : (increment s a.kind b.ptr).stack = [] := his.trans h.2
  have hinc : ∀ κ p, count (increment s a.kind b.ptr) κ p = count s κ p + Slot.refers κ p b := by
    intro κ p
    rw [hk]
    exact count_increment s κ b p
  refine h.change (hdd.trans hid) (hdl.trans hil) (hdp.trans hip) (fun c hc => mem_decrement hstack hc)
    (fun κ p => ?_) (fun κ p => ?_) (fun p h0 => ?_) (fun p hp => ?_)
  · have hset := units_set (f := Slot.refers κ p) { a with ptr := b.ptr } hx ex
    rw [refers_eq hk] at hset
    rw [hdc, hinc, count_decrement hstack]
    omega
  · rw [hdc, hinc]
    omega
  · have := hinc .strong p
    show count (decrement (increment s a.kind b.ptr) a.kind a.ptr) .strong p = 0
    rw [hdc, this]
    have hz : Slot.refers .strong p b = 0 := by
      refine if_neg fun hb => ?_
      have := ((referred h.1 hy ey hb.2).1 hb.1).1
      omega
    simp only [count, h0, hz]
  · have := hinc .weak p
    show count (decrement (increment s a.kind b.ptr) a.kind a.ptr) .weak p = count s .weak p
    rw [hdc, this]
    have hz : Slot.refers .weak p b = 0 := by
      refine if_neg fun hb => ?_
      exact (referred h.1 hy ey hb.2).2.1 hp
    omega

/-- No count changes at once, so the variables may only lose what a call will give back. -/
theorem Balanced.give (h : Balanced v s) {v' : Vars α} (c : Slot α)
    (hunits : ∀ κ p, units (Slot.refers κ p) v' s.disposed + Slot.refers κ p c =
      units (Slot.refers κ p) v s.disposed) :
    Inv v'.fieldsOf (v'.rootRefs .strong) (v'.rootRefs .weak) (decrement s c.kind c.ptr) := by
  obtain ⟨hdd, hdl, hdp, hdc⟩ := decrement_eq s c.kind c.ptr
  refine h.change hdd hdl hdp (fun c hc => mem_decrement h.2 hc) (fun κ p => ?_) (fun κ p => ?_)
    (fun p h0 => ?_) (fun p hp => ?_)
  · rw [hdc, count_decrement h.2]
    have := hunits κ p
    omega
  · rw [hdc]
  · exact (congrFun (hdc .strong) p).trans h0
  · exact congrFun (hdc .weak) p

theorem moveAssign_inv (h : Balanced v s) (hx : v.get x = some a) (hy : v.get y = some b)
    (ex : Present s x) (ey : Present s y) (hk : a.kind = b.kind) (hxy : x ≠ y) {v' : Vars α} {s' : State α}
    (hrun : moveAssign v s x y a b = (v', s')) :
    Inv v'.fieldsOf (v'.rootRefs .strong) (v'.rootRefs .weak) s' := by
  cases hrun
  refine h.give a fun κ p => ?_
  have hemptied := units_set (f := Slot.refers κ p) { b with ptr := none } hy ey
  have hx' : (v.set y { b with ptr := none }).get x = some a := by rw [get_set_of_ne hxy, hx]
  have hset := units_set (f := Slot.refers κ p) { a with ptr := b.ptr } hx' ex
  rw [refers_none] at hemptied
  rw [refers_eq hk] at hset
  omega

theorem swap_inv (h : Balanced v s) (hx : v.get x = some a) (hy : v.get y = some b)
    (ex : Present s x) (ey : Present s y) (hk : a.kind = b.kind) {v' : Vars α} {s' : State α}
    (hrun : swap v s x y a b = (v', s')) :
    Inv v'.fieldsOf (v'.rootRefs .strong) (v'.rootRefs .weak) s' := by
  cases hrun
  by_cases hxy : x = y
  · subst hxy
    rw [hx] at hy
    cases hy
    have hset : (v.set x a).set x a = v := set_set_self hx a
    show Inv (Vars.fieldsOf ((v.set x a).set x a)) _ _ s
    rw [hset]
    exact h.1
  · have hunits : ∀ κ p, units (Slot.refers κ p) ((v.set x { a with ptr := b.ptr }).set y
        { b with ptr := a.ptr }) s.disposed + Slot.refers κ p ⟨false, .strong, none⟩ =
        units (Slot.refers κ p) v s.disposed := by
      intro κ p
      have hset := units_set (f := Slot.refers κ p) { a with ptr := b.ptr } hx ex
      have hy' : (v.set x { a with ptr := b.ptr }).get y = some b := by
        rw [get_set_of_ne (Ne.symm hxy), hy]
      have hset' := units_set (f := Slot.refers κ p) { b with ptr := a.ptr } hy' ey
      rw [refers_eq hk] at hset
      rw [refers_eq hk.symm] at hset'
      have hnone : Slot.refers κ p (⟨false, .strong, none⟩ : Slot α) = 0 := refers_none κ p ⟨false, .strong, none⟩
      omega
    exact h.give ⟨false, .strong, none⟩ hunits

/-! ## A variable moved to itself -/

/-- One reference to `p` more than its strong count. Along the calls that follow, objects are
disposed of when their strong count gets to zero, which is once. -/
structure Short (v : Vars α) (p : α) (s : State α) : Prop where
  strong : s.strong p + 1 =
    units (Slot.refers .strong p) v s.disposed + s.bag.count (p, .decrementStrongCount)
  expired : ∀ q ∈ s.disposed, s.strong q = 0
  stack : ∀ q, .dispose q ∉ s.stack

theorem Short.decrementRefCnt {p q : α} {rest : List (Call α)} (h : Short v p s)
    (hs : s.stack = .decrementRefCnt q :: rest) (hq : 0 < s.strong q) :
    Short v p (makeCall v.fieldsOf s rest (.decrementRefCnt q)) := by
  have hnot : q ∉ s.disposed := fun hd => by
    have := h.expired q hd
    omega
  have hrest : ∀ r, .dispose r ∉ rest := fun r hm => h.stack r (by rw [hs]; exact List.mem_cons_of_mem _ hm)
  have hexp : ∀ r ∈ s.disposed, Function.update s.strong q (s.strong q - 1) r = 0 := by
    intro r hr
    have hrq : r ≠ q := fun he => hnot (he ▸ hr)
    rw [Function.update_of_ne hrq]
    exact h.expired r hr
  have hstrong : Function.update s.strong q (s.strong q - 1) p + 1 =
      units (Slot.refers .strong p) v s.disposed +
        (State.bag { s with stack := rest }).count (p, .decrementStrongCount) := by
    have hcount := h.strong
    rw [bag_cons hs] at hcount
    by_cases hpq : p = q
    · subst hpq
      rw [Call.entry, Multiset.count_cons_self] at hcount
      rw [Function.update_self]
      omega
    · rw [Call.entry, Multiset.count_cons_of_ne (by simp [hpq])] at hcount
      rw [Function.update_of_ne hpq]
      exact hcount
  simp only [makeCall]
  split
  · rename_i h1
    split
    · -- the fields of `q` go from its variables to the calls
      refine ⟨?_, fun r hr => ?_, fun r hm => ?_⟩
      · have hd : ((s.disposed ++ [q] : List α) : Multiset α) = q ::ₘ (s.disposed : Multiset α) := by
          rw [Multiset.cons_coe, Multiset.coe_eq_coe]
          exact List.perm_append_singleton q s.disposed
        have hcons := undisposed_cons (fun o => ((v.fields o).map (Slot.refers .strong p)).sum)
          (d := (s.disposed : Multiset α)) (p := q) (by simpa using hnot)
        have hone : Multiset.count (p, RetireType.decrementStrongCount)
            ({(q, .decrementWeakCount)} : Multiset (Entry α)) = 0 := by simp
        have hbag : State.bag { s with stack := rest } =
            State.bag { s with strong := Function.update s.strong q (s.strong q - 1), stack := rest } := rfl
        rw [bag_dispose rfl]
        simp only [State.dispose, adds, Multiset.count_add, count_entries_strong, strongFields_eq v q p]
        rw [units, hd, hone, ← hbag]
        rw [units, hcons] at hstrong
        omega
      · rcases List.mem_append.mp hr with hr | hr
        · exact hexp r hr
        · rw [List.mem_singleton.mp hr]
          simp [State.dispose, h1]
      · rcases List.mem_append.mp hm with hm | hm
        · obtain ⟨f, -, hf⟩ := List.mem_map.mp hm
          cases f <;> cases hf
        · rcases List.mem_cons.mp hm with hm | hm
          · cases hm
          · exact hrest r hm
    · refine ⟨?_, hexp, hrest⟩
      rw [count_bag] at hstrong ⊢
      simp only [List.count_append]
      have hnone : [(q, RetireType.dispose)].count (p, .decrementStrongCount) = 0 := by simp
      rw [hnone]
      exact hstrong
  · exact ⟨hstrong, hexp, hrest⟩

theorem Short.next {p : α} {s' : State α} (h : Short v p s) (ha : Asserts s)
    (hn : Drain.next v.fieldsOf s .run = some s') : Short v p s' := by
  cases hs : s.stack with
  | nil =>
    simp only [Drain.next, hs] at hn
    cases hn
  | cons c rest =>
    simp only [Drain.next, hs] at hn
    cases hn
    have hrest : ∀ r, .dispose r ∉ rest :=
      fun r hm => h.stack r (by rw [hs]; exact List.mem_cons_of_mem _ hm)
    have hstrong := h.strong
    rw [bag_cons hs] at hstrong
    cases c with
    | decrementRefCnt q =>
      rw [Asserts, hs] at ha
      exact h.decrementRefCnt hs ha
    | decrementWeakCnt q =>
      rw [Call.entry, Multiset.count_cons_of_ne (by simp)] at hstrong
      simp only [makeCall]
      split
      · exact ⟨hstrong, h.expired, hrest⟩
      · exact ⟨hstrong, h.expired, hrest⟩
    | dispose q => exact absurd (by rw [hs]; exact List.mem_cons_self) (h.stack q)
    | destroy q =>
      rw [Call.entry, Multiset.count_cons_of_ne (by simp)] at hstrong
      exact ⟨hstrong, h.expired, hrest⟩
    | retire e =>
      refine ⟨?_, h.expired, hrest⟩
      rw [← bag_cons hs] at hstrong
      rw [count_bag, hs] at hstrong
      rw [count_bag]
      simp only [makeCall, List.count_append, List.map_cons, Call.entry] at hstrong ⊢
      rw [List.count_cons] at hstrong
      rw [List.count_singleton]
      omega

/-- A run of the calls keeps what each call keeps when its assert holds. -/
theorem During.asserted {I : State α → Prop} {s s' : State α} (hd : (calls v).During Asserts s s')
    (hs : ∀ s₁ s₂, I s₁ → Asserts s₁ → next v.fieldsOf s₁ .run = some s₂ → I s₂) (h0 : I s)
    (ha : Asserts s) :
    I s' := by
  refine (hd.keeps (I := fun s => I s ∧ Asserts s) ?_ ⟨h0, ha⟩).1
  intro s₁ b s₂ hi hn hp
  obtain ⟨rfl, hn⟩ := Machine.restrict_next.mp hn
  exact ⟨hs s₁ s₂ hi.1 hi.2 hn, hp⟩

theorem not_respects_strong {p : α} (h : Balanced v s) :
    ¬ Respects (v, { s with stack := [.decrementRefCnt p] }) := by
  rintro ⟨ha, s', hd, hb, -⟩
  replace hb : Balanced v s' := hb
  have hshort : Short v p { s with stack := [.decrementRefCnt p] } := by
    refine ⟨?_, fun q hq => h.1.agrees.expired q (by simpa [State.heap] using hq), by simp⟩
    have := strong_eq h.1 p
    rw [count_bag, h.2] at this
    rw [count_bag]
    simp only [List.map_nil, List.count_nil] at this
    simp only [List.map_cons, List.map_nil, Call.entry, List.count_cons_self, List.count_nil]
    omega
  have hend := During.asserted hd (fun s₁ s₂ hi ha hn => hi.next ha hn) hshort ha
  have := strong_eq hb.1 p
  have := hend.strong
  omega

/-- The decrement of a weak count runs nothing else. -/
theorem not_respects_weak {p : α} (h : Balanced v s) :
    ¬ Respects (v, { s with stack := [.decrementWeakCnt p] }) := by
  rintro ⟨ha, s', hd, hb, -⟩
  replace hb : Balanced v s' := hb
  have hpos : p ∉ s.deleted ∧ 0 < s.weak p := ha
  have hend := During.asserted (I := fun s' => s' = { s with stack := [.decrementWeakCnt p] } ∨
    (s'.stack = [] ∧ s'.weak p + 1 = s.weak p ∧ s'.disposed = s.disposed ∧ s'.pending = s.pending)) hd
    (fun s₁ s₂ hi _ hn => ?_) (.inl rfl) ha
  · rcases hend with rfl | ⟨hst, hw, hdis, hpend⟩
    · cases hb.2
    · have h1 := weak_eq h.1 p
      have h2 := weak_eq hb.1 p
      have hle : s'.heap.weak p ≤ s'.weak p := by
        simp only [State.heap]
        split <;> omega
      have heq : s.heap.weak p = s.weak p := by simp [State.heap, hpos.1]
      rw [count_bag, h.2] at h1
      rw [count_bag, hst, hdis, hpend] at h2
      omega
  · rcases hi with rfl | ⟨hst, -⟩
    · simp only [next, Option.some.injEq] at hn
      subst hn
      right
      simp only [makeCall]
      split <;> simp [State.destroy] <;> omega
    · simp only [next, hst] at hn
      cases hn

omit [Fintype α] in
theorem moveAssign_self (hx : v.get x = some a) {p : α} (hp : a.ptr = some p) :
    moveAssign v s x x a a = (v, { s with stack := decrementCall a.kind p :: s.stack }) := by
  have hset : (v.set x { a with ptr := none }).set x a = v := set_set_self hx _
  simp only [moveAssign, decrement, hp]
  rw [← hp]
  exact Prod.ext hset rfl

/-- Copy assignment, move assignment and swap leave every count equal to the number of its
references and take away no object that a variable still refers to, unless a variable that
is not null is moved to itself. -/
theorem assignment_respects_iff (op : Op) (h : Balanced v s) (hx : v.get x = some a) (hy : v.get y = some b)
    (ex : Present s x) (ey : Present s y) (hk : a.kind = b.kind) :
    Respects (run op v s x y a b) ↔ ¬ (op = .move ∧ x = y ∧ a.ptr ≠ none) := by
  cases op with
  | copy =>
    refine iff_of_true ?_ (by rintro ⟨hop, -⟩; cases hop)
    exact respects_of_inv (copyAssign_inv h hx hy ex ey hk rfl)
  | swap =>
    refine iff_of_true ?_ (by rintro ⟨hop, -⟩; cases hop)
    exact respects_of_inv (swap_inv h hx hy ex ey hk rfl)
  | move =>
    by_cases hxy : x = y
    · subst hxy
      rw [hx] at hy
      cases hy
      cases hp : a.ptr with
      | none =>
        refine iff_of_true ?_ (by simp)
        have hself : moveAssign v s x x a a = (v, s) := by
          simp only [moveAssign, hp, decrement]
          rw [← hp]
          exact Prod.ext (set_set_self hx _) rfl
        rw [run, hself]
        exact respects_of_inv h.1
      | some p =>
        refine iff_of_false ?_ (by simp)
        rw [run, moveAssign_self hx hp, h.2]
        cases a.kind with
        | strong => exact not_respects_strong h
        | weak => exact not_respects_weak h
    · refine iff_of_true ?_ (fun hm => hxy hm.2.1)
      exact respects_of_inv (moveAssign_inv h hx hy ex ey hk hxy rfl)

end Operations

/-- A list of two nodes: variable `0` holds node `0`, whose field holds node `1`. -/
def twoNodes : Vars (Fin 2) where
  roots := [⟨false, .strong, some 0⟩]
  fields o := if o = 0 then [⟨false, .strong, some 1⟩] else []

def twoNodesHeap : State (Fin 2) := ⟨fun _ => 1, fun _ => 1, [], [], [], []⟩

theorem twoNodes_balanced : Balanced twoNodes twoNodesHeap := by
  have hagree : CountsAgree twoNodes.fieldsOf (twoNodes.rootRefs .strong) (twoNodes.rootRefs .weak)
      twoNodesHeap :=
    ⟨rfl, rfl, by decide, by decide, by decide, by decide, by decide, by decide⟩
  exact ⟨hagree.inv, rfl⟩

/-- `x = std::move(x->next)`: the source is in the object that the target lets go of. -/
theorem assignment_respects_next :
    twoNodes.get (.root 0) = some ⟨false, .strong, some 0⟩ ∧
      Respects (run .move twoNodes twoNodesHeap (.root 0) (.field 0 0) ⟨false, .strong, some 0⟩
        ⟨false, .strong, some 1⟩) :=
  ⟨rfl, (assignment_respects_iff (x := .root 0) (y := .field 0 0) .move twoNodes_balanced rfl rfl trivial
    (by simp [Present, twoNodesHeap]) rfl).mpr (by rintro ⟨-, hxy, -⟩; cases hxy)⟩

/-- `x = std::move(x)`. -/
theorem assignment_drops_own :
    ¬ ∀ (op : Op) (x y : Place (Fin 2)) (a b : Slot (Fin 2)), twoNodes.get x = some a →
      twoNodes.get y = some b → Present twoNodesHeap x → Present twoNodesHeap y → a.kind = b.kind →
      Respects (run op twoNodes twoNodesHeap x y a b) := by
  intro hall
  have hr := hall .move (.root 0) (.root 0) ⟨false, .strong, some 0⟩ ⟨false, .strong, some 0⟩ rfl rfl
    trivial trivial rfl
  rw [run, moveAssign_self rfl rfl] at hr
  exact not_respects_strong twoNodes_balanced hr

end Cdrc.RcPtr.Assignment
