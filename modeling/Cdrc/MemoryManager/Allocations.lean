import Mathlib.Data.List.Basic
import Mathlib.Data.Fintype.Card
import Mathlib.Data.BitVec
import Cdrc.Lib.Runs

/-! # `currently_allocated`

Every thread counts in its own `num_allocated[t]`: up in `create_object`, before the object
is allocated, and down in `delete_object`, after it is freed, on whichever thread that
happens. A counter alone can be negative. `currently_allocated` reads the counters one after
the other and adds them up in a `size_t`.

An object whose deletion is in the sum and whose creation is not makes the sum too small,
and below zero the `size_t` is close to `2 ^ 64`. The model keeps the objects in the order in
which they were counted, and for each of them what the call has seen of it. -/
namespace Cdrc.MemoryManager.Allocations
open Cdrc.Lib.Runs

/-- Where an object is, from the increment of its creator's counter on. -/
inductive Phase (n : Nat)
  | constructing
  | live (addr : BitVec 64)
  /-- freed by a thread that has not yet decremented its counter -/
  | freed (t : Fin n)
  | deleted (t : Fin n)
  deriving DecidableEq, Repr

structure Obj (n : Nat) where
  creator : Fin n
  phase : Phase n
  /-- the call has read the creator's counter since the increment -/
  createSeen : Bool
  /-- the call has read the deleter's counter since the decrement -/
  deleteSeen : Bool
  deriving DecidableEq, Repr

structure State (n : Nat) where
  numAllocated : Fin n → Int
  objs : List (Obj n)
  /-- the threads of the `create_object` calls that have not incremented yet -/
  entered : List (Fin n)
  /-- how many `create_object` calls have begun -/
  begun : Nat
  /-- the call of `currently_allocated`: which counter is next, and `total` -/
  sample : Option (Nat × BitVec 64)

def State.initial (n : Nat) : State n := ⟨fun _ => 0, [], [], 0, none⟩

inductive Label (n : Nat)
  | createObject (t : Fin n)
  | incrementAllocations (t : Fin n)
  /-- `new` returns -/
  | allocate (i : Nat) (addr : BitVec 64)
  /-- `delete p` -/
  | deleteObject (t : Fin n) (i : Nat)
  | decrementAllocations (i : Nat)
  | currentlyAllocated
  /-- the loop of `currently_allocated` reads the next counter -/
  | read
  | ret
  deriving DecidableEq, Repr

variable {n : Nat}

def Obj.address (o : Obj n) : Option (BitVec 64) :=
  match o.phase with
  | .live addr => some addr
  | _ => none

def Obj.deleter (o : Obj n) : Option (Fin n) :=
  match o.phase with
  | .deleted t => some t
  | _ => none

/-- The counter of `t` is read. -/
def Obj.see (t : Fin n) (o : Obj n) : Obj n :=
  { o with
    createSeen := o.createSeen || o.creator = t
    deleteSeen := o.deleteSeen || o.deleter = some t }

def next (s : State n) : Label n → Option (State n)
  | .createObject t => some { s with entered := t :: s.entered, begun := s.begun + 1 }
  | .incrementAllocations t =>
    if t ∈ s.entered then
      some { s with
        entered := s.entered.erase t
        numAllocated := Function.update s.numAllocated t (s.numAllocated t + 1)
        objs := s.objs ++ [⟨t, .constructing, false, false⟩] }
    else none
  | .allocate i addr =>
    match s.objs[i]? with
    | some ⟨t, .constructing, c, d⟩ =>
      if addr ≠ 0 ∧ addr ∉ s.objs.filterMap Obj.address then
        some { s with objs := s.objs.set i ⟨t, .live addr, c, d⟩ }
      else none
    | _ => none
  | .deleteObject t' i =>
    match s.objs[i]? with
    | some ⟨t, .live _, c, d⟩ => some { s with objs := s.objs.set i ⟨t, .freed t', c, d⟩ }
    | _ => none
  | .decrementAllocations i =>
    match s.objs[i]? with
    | some ⟨t, .freed t', c, d⟩ => some { s with
        numAllocated := Function.update s.numAllocated t' (s.numAllocated t' - 1)
        objs := s.objs.set i ⟨t, .deleted t', c, d⟩ }
    | _ => none
  | .currentlyAllocated =>
    if s.sample = none then
      some { s with
        sample := some (0, 0)
        objs := s.objs.map fun o => { o with createSeen := false, deleteSeen := false } }
    else none
  | .read =>
    match s.sample with
    | some (k, total) =>
      if h : k < n then
        some { s with
          sample := some (k + 1, total + BitVec.ofInt 64 (s.numAllocated ⟨k, h⟩))
          objs := s.objs.map (Obj.see ⟨k, h⟩) }
      else none
    | none => none
  | .ret =>
    match s.sample with
    | some (k, _) => if k = n then some { s with sample := none } else none
    | none => none

def machine (n : Nat) : Machine (State n) (Label n) where
  init s := s = .initial n
  next := next

/-- The call is about to return `total`. -/
def State.Returns (s : State n) (total : BitVec 64) : Prop := s.sample = some (n, total)

/-- How many objects the call counts: it has seen their creation and not their deletion. -/
def State.counted (s : State n) : Nat := s.objs.countP fun o => o.createSeen && !o.deleteSeen

/-- How many objects the call has only seen the deletion of. -/
def State.phantoms (s : State n) : Nat := s.objs.countP fun o => o.deleteSeen && !o.createSeen

/-- No `create_object` and no `delete_object` is under way. -/
def State.Quiet (s : State n) : Prop :=
  s.entered = [] ∧ ∀ o ∈ s.objs, o.address.isSome = true ∨ o.deleter.isSome = true

def State.numLive (s : State n) : Nat := s.objs.countP fun o => o.address.isSome

/-- A whole call of `currently_allocated` that nothing overlaps. -/
def undisturbed (n : Nat) : List (Label n) := .currentlyAllocated :: List.replicate n .read

/-- The step is no decrement by a thread whose counter is yet to be read, for an object that
was created by a thread after its counter was read. -/
def notMissed (s : State n) : Label n → Bool
  | .decrementAllocations i =>
    match s.objs[i]?, s.sample with
    | some ⟨t, .freed t', false, _⟩, some (k, _) => decide (k ≤ t'.val → k ≤ t.val)
    | _, _ => true
  | _ => true

/-! ## Counting -/

section Counting
variable {β : Type} {l : List β} {p q : β → Bool}

theorem countP_or_of_disjoint (h : ∀ o ∈ l, q o = true → p o = false) :
    l.countP (fun o => p o || q o) = l.countP p + l.countP q := by
  induction l with
  | nil => rfl
  | cons o l ih =>
    have hl := ih fun o ho => h o (List.mem_cons_of_mem _ ho)
    have ho := h o List.mem_cons_self
    simp only [List.countP_cons, hl]
    cases hq : q o with
    | true =>
      rw [ho hq]
      simp only [Bool.or_true, Bool.false_eq_true, if_true, if_false]
      omega
    | false =>
      simp only [Bool.or_false, Bool.false_eq_true, if_false]
      omega

theorem countP_sub_countP (l : List β) (p q : β → Bool) :
    (l.countP p : Int) - l.countP q =
      l.countP (fun o => p o && !q o) - l.countP (fun o => q o && !p o) := by
  induction l with
  | nil => rfl
  | cons o l ih =>
    simp only [List.countP_cons, Nat.cast_add]
    cases p o <;> cases q o <;> simp <;> omega

theorem countP_add_countP_le (l : List β) (p q : β → Bool) :
    l.countP (fun o => p o && !q o) + l.countP (fun o => q o && !p o) ≤ l.length := by
  induction l with
  | nil => exact Nat.le_refl 0
  | cons o l ih =>
    simp only [List.countP_cons, List.length_cons]
    cases p o <;> cases q o <;> simp <;> omega

end Counting

/-- The `size_t` of a sum is at most `b` exactly when the sum is not negative, or `b` is in
the order of `2 ^ 64` itself. -/
theorem toNat_ofInt_le_iff {a p b : Nat} (h : a + p ≤ b) :
    (BitVec.ofInt 64 ((a : Int) - p)).toNat ≤ b ↔ p ≤ a ∨ 2 ^ 64 + a ≤ b + p := by
  rw [BitVec.toNat_ofInt]
  omega

/-! ## The invariant -/

structure Inv (s : State n) : Prop where
  counters : ∀ t, s.numAllocated t =
    (s.objs.countP fun o => o.creator = t : Int) - s.objs.countP fun o => o.deleter = some t
  total : ∀ k total, s.sample = some (k, total) →
    total = BitVec.ofInt 64 ((s.objs.countP Obj.createSeen : Int) - s.objs.countP Obj.deleteSeen)
  createSeen : ∀ k total, s.sample = some (k, total) →
    ∀ o ∈ s.objs, o.createSeen = true → o.creator.val < k
  deleteSeen : ∀ k total, s.sample = some (k, total) →
    ∀ o ∈ s.objs, o.deleteSeen = true → ∃ t, o.deleter = some t ∧ t.val < k
  begun : s.objs.length + s.entered.length = s.begun
  nodup : (s.objs.filterMap Obj.address).Nodup
  nonnull : 0 ∉ s.objs.filterMap Obj.address

section Steps
variable {s s' : State n}

theorem split_of_getElem? {β : Type} {l : List β} {i : Nat} {a : β} (h : l[i]? = some a) (b : β) :
    ∃ l₁ l₂, l = l₁ ++ a :: l₂ ∧ l.set i b = l₁ ++ b :: l₂ := by
  obtain ⟨hi, rfl⟩ := List.getElem?_eq_some_iff.mp h
  have hset : ∃ l₁ l₂, l = l₁ ++ l[i] :: l₂ ∧ l₁.length = i ∧ l.set i b = l₁ ++ b :: l₂ :=
    List.exists_of_set hi
  obtain ⟨l₁, l₂, hl, -, hset⟩ := hset
  exact ⟨l₁, l₂, hl, hset⟩

/-- One object changes its phase, to one in which it has no address and is not deleted, or
to one where it gets an address that no other has. -/
theorem Inv.setPhase (h : Inv s) {i : Nat} {t : Fin n} {phase phase' : Phase n} {c d : Bool}
    (hi : s.objs[i]? = some ⟨t, phase, c, d⟩) (hd : (Obj.mk t phase c d).deleter = none)
    (hd' : (Obj.mk t phase' c d).deleter = none)
    (ha : ∀ addr ∈ (Obj.mk t phase' c d).address, addr ≠ 0 ∧ addr ∉ s.objs.filterMap Obj.address) :
    Inv { s with objs := s.objs.set i ⟨t, phase', c, d⟩ } := by
  obtain ⟨l₁, l₂, hl, hset⟩ := split_of_getElem? hi (⟨t, phase', c, d⟩ : Obj n)
  have hmem : (⟨t, phase, c, d⟩ : Obj n) ∈ s.objs := by rw [hl]; simp
  have hsub : ∀ o ∈ s.objs.set i ⟨t, phase', c, d⟩, o ∈ s.objs ∨ o = ⟨t, phase', c, d⟩ :=
    fun o ho => List.mem_or_eq_of_mem_set ho
  refine ⟨fun t' => ?_, fun k total hs => ?_, fun k total hs o ho hc => ?_, fun k total hs o ho hc => ?_,
    ?_, ?_, ?_⟩
  · rw [h.counters t', hset, hl]
    simp only [List.countP_append, List.countP_cons, hd, hd']
  · rw [h.total k total hs, hset, hl]
    simp only [List.countP_append, List.countP_cons]
  · rcases hsub o ho with ho | rfl
    · exact h.createSeen k total hs o ho hc
    · exact h.createSeen k total hs ⟨t, phase, c, d⟩ hmem hc
  · rcases hsub o ho with ho | rfl
    · exact h.deleteSeen k total hs o ho hc
    · obtain ⟨t', ht', -⟩ := h.deleteSeen k total hs _ hmem hc
      rw [hd] at ht'
      cases ht'
  · simpa using h.begun
  · have hn := h.nodup
    rw [hl] at hn ha
    show (List.filterMap Obj.address (s.objs.set i ⟨t, phase', c, d⟩)).Nodup
    rw [hset]
    simp only [List.filterMap_append, List.filterMap_cons] at hn ha ⊢
    cases hp : (Obj.mk t phase' c d).address with
    | none =>
      cases hq : (Obj.mk t phase c d).address with
      | none => simpa [hq] using hn
      | some a =>
        simp only [hq] at hn
        exact hn.sublist (List.Sublist.append_left (List.sublist_cons_self _ _) _)
    | some addr =>
      have hnew := (ha addr hp).2
      cases hq : (Obj.mk t phase c d).address with
      | none =>
        simp only [hq] at hn hnew
        exact List.nodup_middle.mpr (List.nodup_cons.mpr ⟨hnew, hn⟩)
      | some a =>
        simp only [hq] at hn hnew
        have hn' := hn.sublist (List.Sublist.append_left (List.sublist_cons_self _ _) _)
        refine List.nodup_middle.mpr (List.nodup_cons.mpr ⟨fun hm => hnew ?_, hn'⟩)
        rcases List.mem_append.mp hm with hm | hm
        · exact List.mem_append_left _ hm
        · exact List.mem_append_right _ (List.mem_cons_of_mem _ hm)
  · intro h0
    obtain ⟨o, ho, hao⟩ := List.mem_filterMap.mp h0
    rcases hsub o ho with ho | rfl
    · exact h.nonnull (List.mem_filterMap.mpr ⟨o, ho, hao⟩)
    · exact (ha 0 hao).1 rfl

theorem Inv.incrementAllocations (h : Inv s) {t : Fin n} (ht : t ∈ s.entered) :
    Inv { s with
      entered := s.entered.erase t
      numAllocated := Function.update s.numAllocated t (s.numAllocated t + 1)
      objs := s.objs ++ [⟨t, .constructing, false, false⟩] } := by
  refine ⟨fun t' => ?_, fun k total hs => ?_, fun k total hs o ho hc => ?_, fun k total hs o ho hc => ?_,
    ?_, ?_, ?_⟩
  · by_cases htt : t' = t
    · subst htt
      simp [h.counters t', Obj.deleter]
      omega
    · simp [Function.update_of_ne htt, h.counters t', Obj.deleter, Ne.symm htt]
  · simpa using h.total k total hs
  · rcases List.mem_append.mp ho with ho | ho
    · exact h.createSeen k total hs o ho hc
    · rw [List.mem_singleton.mp ho] at hc
      cases hc
  · rcases List.mem_append.mp ho with ho | ho
    · exact h.deleteSeen k total hs o ho hc
    · rw [List.mem_singleton.mp ho] at hc
      cases hc
  · have hpos : 0 < s.entered.length := List.length_pos_of_mem ht
    simp only [List.length_append, List.length_singleton, List.length_erase_of_mem ht]
    have := h.begun
    omega
  · rw [List.filterMap_append, List.filterMap_cons_none rfl, List.filterMap_nil, List.append_nil]
    exact h.nodup
  · rw [List.filterMap_append, List.filterMap_cons_none rfl, List.filterMap_nil, List.append_nil]
    exact h.nonnull

theorem Inv.decrementAllocations (h : Inv s) {i : Nat} {t t' : Fin n} {c d : Bool}
    (hi : s.objs[i]? = some ⟨t, .freed t', c, d⟩) :
    Inv { s with
      numAllocated := Function.update s.numAllocated t' (s.numAllocated t' - 1)
      objs := s.objs.set i ⟨t, .deleted t', c, d⟩ } := by
  obtain ⟨l₁, l₂, hl, hset⟩ := split_of_getElem? hi (⟨t, .deleted t', c, d⟩ : Obj n)
  have hmem : (⟨t, .freed t', c, d⟩ : Obj n) ∈ s.objs := by rw [hl]; simp
  have hsub : ∀ o ∈ s.objs.set i ⟨t, .deleted t', c, d⟩, o ∈ s.objs ∨ o = ⟨t, .deleted t', c, d⟩ :=
    fun o ho => List.mem_or_eq_of_mem_set ho
  have haddr : (s.objs.set i ⟨t, .deleted t', c, d⟩).filterMap Obj.address =
      s.objs.filterMap Obj.address := by
    rw [hset, hl]
    rw [List.filterMap_append, List.filterMap_append, List.filterMap_cons_none rfl,
      List.filterMap_cons_none rfl]
  refine ⟨fun u => ?_, fun k total hs => ?_, fun k total hs o ho hc => ?_, fun k total hs o ho hc => ?_,
    ?_, ?_, ?_⟩
  · have hu := h.counters u
    rw [hl] at hu
    simp only [List.countP_append, List.countP_cons, Obj.deleter, reduceCtorEq, decide_false,
      Bool.false_eq_true, if_false] at hu
    simp only [hset, List.countP_append, List.countP_cons, Obj.deleter, Option.some.injEq]
    by_cases hut : u = t'
    · subst hut
      rw [Function.update_self, hu]
      simp only [decide_true, if_true]
      omega
    · rw [Function.update_of_ne hut, hu]
      simp only [Ne.symm hut, decide_false, Bool.false_eq_true, if_false]
  · rw [h.total k total hs]
    simp only [hset]
    rw [hl]
    simp only [List.countP_append, List.countP_cons]
  · rcases hsub o ho with ho | rfl
    · exact h.createSeen k total hs o ho hc
    · exact h.createSeen k total hs ⟨t, .freed t', c, d⟩ hmem hc
  · rcases hsub o ho with ho | rfl
    · exact h.deleteSeen k total hs o ho hc
    · obtain ⟨_, ht', -⟩ := h.deleteSeen k total hs ⟨t, .freed t', c, d⟩ hmem hc
      cases ht'
  · simpa using h.begun
  · simp only [haddr]
    exact h.nodup
  · simp only [haddr]
    exact h.nonnull

theorem filterMap_address_map {f : Obj n → Obj n} (hf : ∀ o, (f o).phase = o.phase) (l : List (Obj n)) :
    (l.map f).filterMap Obj.address = l.filterMap Obj.address := by
  rw [List.filterMap_map]
  refine congrArg (List.filterMap · l) (funext fun o => ?_)
  simp only [Function.comp, Obj.address, hf]

theorem deleter_eq {o o' : Obj n} (h : o.phase = o'.phase) : o.deleter = o'.deleter := by
  simp only [Obj.deleter, h]

/-- The ghost marks change, and nothing else of the objects. -/
theorem Inv.mark (h : Inv s) (f : Obj n → Obj n) (hp : ∀ o, (f o).phase = o.phase)
    (hc : ∀ o, (f o).creator = o.creator) (sample : Option (Nat × BitVec 64))
    (htotal : ∀ k total, sample = some (k, total) → total = BitVec.ofInt 64
      ((s.objs.countP fun o => (f o).createSeen : Int) - s.objs.countP fun o => (f o).deleteSeen))
    (hcreate : ∀ k total, sample = some (k, total) → ∀ o ∈ s.objs, (f o).createSeen = true → o.creator.val < k)
    (hdelete : ∀ k total, sample = some (k, total) → ∀ o ∈ s.objs, (f o).deleteSeen = true →
      ∃ t, o.deleter = some t ∧ t.val < k) :
    Inv { s with sample := sample, objs := s.objs.map f } := by
  refine ⟨fun t => ?_, fun k total hs => ?_, fun k total hs o' ho' hm => ?_, fun k total hs o' ho' hm => ?_,
    ?_, ?_, ?_⟩
  · rw [h.counters t]
    simp only [List.countP_map, Function.comp_def, hc, deleter_eq (hp _)]
  · rw [htotal k total hs]
    simp only [List.countP_map, Function.comp_def]
  · obtain ⟨o, ho, rfl⟩ := List.mem_map.mp ho'
    rw [hc]
    exact hcreate k total hs o ho hm
  · obtain ⟨o, ho, rfl⟩ := List.mem_map.mp ho'
    rw [deleter_eq (hp o)]
    exact hdelete k total hs o ho hm
  · simpa using h.begun
  · simp only [filterMap_address_map hp]
    exact h.nodup
  · simp only [filterMap_address_map hp]
    exact h.nonnull

theorem Inv.currentlyAllocated (h : Inv s) :
    Inv { s with
      sample := some (0, 0)
      objs := s.objs.map fun o => { o with createSeen := false, deleteSeen := false } } := by
  refine h.mark (fun o => { o with createSeen := false, deleteSeen := false }) (fun _ => rfl)
    (fun _ => rfl) _ ?_ ?_ ?_
  · rintro k total ⟨⟩
    simp
  · rintro k total ⟨⟩ o - hm
    cases hm
  · rintro k total ⟨⟩ o - hm
    cases hm

/-- A read adds what the counter has, and none of it has been seen before. -/
theorem Inv.read (h : Inv s) {k : Nat} {total : BitVec 64} (hs : s.sample = some (k, total)) (hk : k < n) :
    Inv { s with
      sample := some (k + 1, total + BitVec.ofInt 64 (s.numAllocated ⟨k, hk⟩))
      objs := s.objs.map (Obj.see ⟨k, hk⟩) } := by
  refine h.mark (Obj.see ⟨k, hk⟩) (fun _ => rfl) (fun _ => rfl) _ ?_ ?_ ?_
  · rintro k' total' ⟨⟩
    have hcreate : s.objs.countP (fun o => (o.see ⟨k, hk⟩).createSeen) =
        s.objs.countP Obj.createSeen + s.objs.countP fun o => o.creator = (⟨k, hk⟩ : Fin n) := by
      refine countP_or_of_disjoint fun o ho hq => ?_
      by_contra hp
      have hlt := h.createSeen k total hs o ho (by simpa using hp)
      rw [of_decide_eq_true hq] at hlt
      exact Nat.lt_irrefl k hlt
    have hdelete : s.objs.countP (fun o => (o.see ⟨k, hk⟩).deleteSeen) =
        s.objs.countP Obj.deleteSeen + s.objs.countP fun o => o.deleter = some (⟨k, hk⟩ : Fin n) := by
      refine countP_or_of_disjoint fun o ho hq => ?_
      by_contra hp
      obtain ⟨t, ht, hlt⟩ := h.deleteSeen k total hs o ho (by simpa using hp)
      rw [of_decide_eq_true hq] at ht
      cases ht
      exact Nat.lt_irrefl k hlt
    rw [h.total k total hs, h.counters, hcreate, hdelete, ← BitVec.ofInt_add]
    congr 1
    push_cast
    omega
  · rintro k' total' ⟨⟩ o ho hm
    simp only [Obj.see, Bool.or_eq_true, decide_eq_true_eq] at hm
    rcases hm with hm | hm
    · exact Nat.lt_succ_of_lt (h.createSeen k total hs o ho hm)
    · rw [hm]
      exact Nat.lt_succ_self k
  · rintro k' total' ⟨⟩ o ho hm
    simp only [Obj.see, Bool.or_eq_true, decide_eq_true_eq] at hm
    rcases hm with hm | hm
    · obtain ⟨t, ht, hlt⟩ := h.deleteSeen k total hs o ho hm
      exact ⟨t, ht, Nat.lt_succ_of_lt hlt⟩
    · exact ⟨⟨k, hk⟩, hm, Nat.lt_succ_self k⟩

theorem Inv.next (h : Inv s) {a : Label n} (hn : next s a = some s') : Inv s' := by
  cases a with
  | createObject t =>
    cases hn
    refine ⟨h.counters, h.total, h.createSeen, h.deleteSeen, ?_, h.nodup, h.nonnull⟩
    have := h.begun
    simp only [List.length_cons]
    omega
  | incrementAllocations t =>
    simp only [Allocations.next] at hn
    split at hn
    · rename_i ht
      cases hn
      exact h.incrementAllocations ht
    · cases hn
  | allocate i addr =>
    simp only [Allocations.next] at hn
    split at hn
    · rename_i t c d hi
      split at hn
      · rename_i ha
        cases hn
        refine h.setPhase hi rfl rfl fun a hm => ?_
        cases hm
        exact ha
      · cases hn
    · cases hn
  | deleteObject t' i =>
    simp only [Allocations.next] at hn
    split at hn
    · rename_i t addr c d hi
      cases hn
      refine h.setPhase hi rfl rfl fun a hm => ?_
      cases hm
    · cases hn
  | decrementAllocations i =>
    simp only [Allocations.next] at hn
    split at hn
    · rename_i t t' c d hi
      cases hn
      exact h.decrementAllocations hi
    · cases hn
  | currentlyAllocated =>
    simp only [Allocations.next] at hn
    split at hn
    · cases hn
      exact h.currentlyAllocated
    · cases hn
  | read =>
    simp only [Allocations.next] at hn
    split at hn
    · rename_i k total hs
      split at hn
      · rename_i hk
        cases hn
        exact h.read hs hk
      · cases hn
    · cases hn
  | ret =>
    simp only [Allocations.next] at hn
    split at hn
    · split at hn
      · cases hn
        exact ⟨h.counters, (by intro k total hs; cases hs), (by intro k total hs; cases hs),
          (by intro k total hs; cases hs), h.begun, h.nodup, h.nonnull⟩
      · cases hn
    · cases hn

theorem reach_inv (h : (machine n).Reach s) : Inv s := by
  refine h.invariant (I := Inv) ?_ ?_
  · rintro s rfl
    exact ⟨fun t => rfl, (by intro k total hs; cases hs), (by intro k total hs; cases hs),
      (by intro k total hs; cases hs), rfl, List.nodup_nil, List.not_mem_nil⟩
  · intro s a s' hi hn
    exact hi.next hn

/-- The sum is at most the number of `create_object` calls exactly when the call counts at least
as many objects as it has only seen the deletion of, up to the wrap of the sum. -/
theorem Inv.toNat_le_iff (h : Inv s) {total : BitVec 64} (hr : s.Returns total) :
    total.toNat ≤ s.begun ↔
      s.phantoms ≤ s.counted ∨ 2 ^ 64 + s.counted ≤ s.begun + s.phantoms := by
  rw [h.total n total hr, countP_sub_countP]
  refine toNat_ofInt_le_iff ?_
  have hle := countP_add_countP_le s.objs Obj.createSeen Obj.deleteSeen
  have := h.begun
  omega

/-! ## A call that nothing overlaps -/

/-- The call has read the first `k` counters since anything changed. -/
def Seen (k : Nat) (o : Obj n) : Prop :=
  (o.createSeen = true ↔ o.creator.val < k) ∧
    (o.deleteSeen = true ↔ ∃ t, o.deleter = some t ∧ t.val < k)

theorem Seen.see {k : Nat} {o : Obj n} (h : Seen k o) (hk : k < n) : Seen (k + 1) (o.see ⟨k, hk⟩) := by
  constructor
  · simp only [Obj.see, Bool.or_eq_true, decide_eq_true_eq, h.1, Fin.ext_iff]
    omega
  · simp only [Obj.see, Bool.or_eq_true, decide_eq_true_eq, h.2]
    constructor
    · rintro (⟨t, ht, hlt⟩ | ht)
      · exact ⟨t, ht, by omega⟩
      · exact ⟨_, ht, by simp⟩
    · rintro ⟨t, ht, hlt⟩
      rcases Nat.lt_succ_iff_lt_or_eq.mp hlt with hlt | heq
      · exact .inl ⟨t, ht, hlt⟩
      · obtain rfl : t = ⟨k, hk⟩ := Fin.ext heq
        exact .inr ht

/-- Reading the other counters, one after the other. -/
theorem Inv.exec_read (h : Inv s) {k m : Nat} {total : BitVec 64} (hs : s.sample = some (k, total))
    (hkm : k + m = n) (hseen : ∀ o ∈ s.objs, Seen k o) :
    ∃ s' total', (machine n).exec (List.replicate m .read) s = some s' ∧ s'.Returns total' ∧
      Inv s' ∧ (∀ o ∈ s'.objs, Seen n o) ∧ s'.objs.map Obj.phase = s.objs.map Obj.phase := by
  induction m generalizing s k total with
  | zero =>
    obtain rfl : k = n := hkm
    exact ⟨s, total, rfl, hs, h, hseen, rfl⟩
  | succ m ih =>
    have hk : k < n := by omega
    have hseen' : ∀ o ∈ s.objs.map (Obj.see ⟨k, hk⟩), Seen (k + 1) o := by
      intro o' ho'
      obtain ⟨o, ho, rfl⟩ := List.mem_map.mp ho'
      exact (hseen o ho).see hk
    obtain ⟨s', total', hex, hr, hi, hs', hph⟩ := ih (h.read hs hk) rfl (by omega) hseen'
    refine ⟨s', total', ?_, hr, hi, hs', ?_⟩
    · rw [List.replicate_succ, Machine.exec]
      simp only [machine, Allocations.next, hs, dif_pos hk, Option.bind_some]
      exact hex
    · rw [hph, List.map_map]
      rfl

/-- The addresses of live objects are different and not null, so a `size_t` can count them. -/
theorem Inv.numLive_lt (h : Inv s) : s.numLive < 2 ^ 64 := by
  have hlen : s.numLive = (s.objs.filterMap Obj.address).length := by
    rw [List.length_filterMap_eq_countP]
    rfl
  have hnodup : ((s.objs.filterMap Obj.address).map BitVec.toFin).Nodup :=
    h.nodup.map fun _ _ => BitVec.eq_of_toFin_eq
  have hzero : (0 : Fin (2 ^ 64)) ∉ ((s.objs.filterMap Obj.address).map BitVec.toFin).toFinset := by
    rw [List.mem_toFinset, List.mem_map]
    rintro ⟨addr, hm, h0⟩
    obtain rfl : addr = 0 := BitVec.eq_of_toFin_eq h0
    exact h.nonnull hm
  have hcard := Finset.card_lt_univ_of_notMem hzero
  rw [List.toFinset_card_of_nodup hnodup, List.length_map, Fintype.card_fin] at hcard
  rw [hlen]
  exact hcard

theorem address_eq {o o' : Obj n} (h : o.phase = o'.phase) : o.address = o'.address := by
  simp only [Obj.address, h]

theorem numLive_congr (h : s'.objs.map Obj.phase = s.objs.map Obj.phase) : s'.numLive = s.numLive := by
  have hmap : ∀ l : List (Obj n), l.countP (fun o => o.address.isSome) =
      (l.map Obj.phase).countP fun p => match p with | .live _ => true | _ => false := by
    intro l
    rw [List.countP_map]
    refine List.countP_congr fun o _ => ?_
    obtain ⟨t, phase, c, d⟩ := o
    cases phase <;> simp [Obj.address]
  rw [State.numLive, State.numLive, hmap, hmap, h]

theorem State.Quiet.congr (h : s.Quiet) (hph : s'.objs.map Obj.phase = s.objs.map Obj.phase) :
    ∀ o ∈ s'.objs, o.address.isSome = true ∨ o.deleter.isSome = true := by
  intro o ho
  have hm : o.phase ∈ s'.objs.map Obj.phase := List.mem_map_of_mem ho
  rw [hph] at hm
  obtain ⟨o', ho', he⟩ := List.mem_map.mp hm
  rw [← address_eq he, ← deleter_eq he]
  exact h.2 o' ho'

/-- When every object is live or deleted and all counters are read, the sum is the number of
the live ones. -/
theorem countP_seen {l : List (Obj n)} (hseen : ∀ o ∈ l, Seen n o)
    (hq : ∀ o ∈ l, o.address.isSome = true ∨ o.deleter.isSome = true) :
    l.countP Obj.createSeen = l.countP Obj.deleteSeen + l.countP fun o => o.address.isSome := by
  have hcreate : l.countP Obj.createSeen = l.length :=
    List.countP_eq_length.mpr fun o ho => (hseen o ho).1.mpr o.creator.isLt
  have hdelete : l.countP Obj.deleteSeen = l.countP fun o => decide ¬ (o.address.isSome = true) := by
    refine List.countP_congr fun o ho => ?_
    rw [(hseen o ho).2, decide_eq_true_eq]
    obtain ⟨t, phase, c, d⟩ := o
    have hqo := hq _ ho
    cases phase <;> simp_all [Obj.address, Obj.deleter]
  rw [hcreate, hdelete, List.length_eq_countP_add_countP fun o : Obj n => o.address.isSome]
  omega

theorem Inv.undisturbed (h : Inv s) (hq : s.Quiet) (hs : s.sample = none) :
    ∃ s' total, (machine n).exec (undisturbed n) s = some s' ∧ s'.Returns total ∧
      total.toNat = s.numLive := by
  obtain ⟨s', total, hex, hr, hi, hseen, hph⟩ := h.currentlyAllocated.exec_read (k := 0) (m := n) rfl
    (by omega) fun o' ho' => by
      obtain ⟨o, -, rfl⟩ := List.mem_map.mp ho'
      exact ⟨by simp, by simp⟩
  have hph' : s'.objs.map Obj.phase = s.objs.map Obj.phase := by
    rw [hph, List.map_map]
    rfl
  refine ⟨s', total, ?_, hr, ?_⟩
  · rw [Allocations.undisturbed, Machine.exec]
    simp only [machine, Allocations.next, hs, if_true, Option.bind_some]
    exact hex
  · have hsum := countP_seen hseen (hq.congr hph')
    have hlive : s'.numLive = s'.objs.countP fun o => o.address.isSome := rfl
    have hint : (s'.objs.countP Obj.createSeen : Int) - s'.objs.countP Obj.deleteSeen = s'.numLive := by
      omega
    rw [hi.total n total hr, hint, BitVec.ofInt_natCast, BitVec.toNat_ofNat,
      Nat.mod_eq_of_lt hi.numLive_lt, numLive_congr hph']

/-! ## Runs in which no creation is missed -/

/-- Where a deletion is seen, or will be, the creation is seen, or will be. -/
def Accounted (s : State n) : Prop :=
  ∀ k total, s.sample = some (k, total) → ∀ o ∈ s.objs, ∀ t, o.deleter = some t →
    o.deleteSeen = true ∨ k ≤ t.val → o.creator.val < k → o.createSeen = true

theorem Accounted.setPhase (h : Accounted s) {i : Nat} {o' : Obj n} (hd : o'.deleter = none) :
    Accounted { s with objs := s.objs.set i o' } := by
  intro k total hs o ho t ht
  rcases List.mem_or_eq_of_mem_set ho with ho | rfl
  · exact h k total hs o ho t ht
  · rw [hd] at ht
    cases ht

theorem Accounted.incrementAllocations (h : Accounted s) {t : Fin n} :
    Accounted { s with objs := s.objs ++ [⟨t, .constructing, false, false⟩] } := by
  intro k total hs o ho t' ht
  rcases List.mem_append.mp ho with ho | ho
  · exact h k total hs o ho t' ht
  · rw [List.mem_singleton.mp ho] at ht
    cases ht

theorem Accounted.decrementAllocations (h : Accounted s) (hi : Inv s) {i : Nat} {t t' : Fin n} {c d : Bool}
    (ho : s.objs[i]? = some ⟨t, .freed t', c, d⟩) (hok : notMissed s (.decrementAllocations i) = true) :
    Accounted { s with objs := s.objs.set i ⟨t, .deleted t', c, d⟩ } := by
  intro k total hs o ho' u hu hsee hlt
  rcases List.mem_or_eq_of_mem_set ho' with hm | rfl
  · exact h k total hs o hm u hu hsee hlt
  · cases hu
    simp only at hlt hs ⊢
    by_contra hc
    obtain rfl : c = false := by simpa using hc
    rw [notMissed, ho, hs] at hok
    simp only [decide_eq_true_eq] at hok
    rcases hsee with hsee | hle
    · obtain ⟨_, hdel, -⟩ := hi.deleteSeen k total hs _ (List.mem_of_getElem? ho) hsee
      cases hdel
    · have := hok hle
      omega

theorem Accounted.read (h : Accounted s) {k : Nat} {total total' : BitVec 64}
    (hs : s.sample = some (k, total)) (hk : k < n) :
    Accounted { s with sample := some (k + 1, total'), objs := s.objs.map (Obj.see ⟨k, hk⟩) } := by
  intro k' total'' hs' o' ho' t ht hsee hlt
  cases hs'
  obtain ⟨o, ho, rfl⟩ := List.mem_map.mp ho'
  have ht' : o.deleter = some t := ht
  simp only [Obj.see, Bool.or_eq_true, decide_eq_true_eq] at hsee hlt ⊢
  by_cases hck : o.creator = ⟨k, hk⟩
  · exact .inr hck
  · have hne : o.creator.val ≠ k := fun he => hck (Fin.ext he)
    refine .inl (h k total hs o ho t ht' ?_ (by omega))
    rcases hsee with (hsee | hsee) | hsee
    · exact .inl hsee
    · rw [ht'] at hsee
      cases hsee
      exact .inr (Nat.le_refl k)
    · exact .inr (by omega)

theorem Accounted.next (h : Accounted s) (hi : Inv s) {a : Label n} (hok : notMissed s a = true)
    (hn : next s a = some s') : Accounted s' := by
  cases a with
  | createObject t =>
    cases hn
    exact h
  | incrementAllocations t =>
    simp only [Allocations.next] at hn
    split at hn
    · cases hn
      exact h.incrementAllocations
    · cases hn
  | allocate i addr =>
    simp only [Allocations.next] at hn
    split at hn
    · split at hn
      · cases hn
        exact h.setPhase rfl
      · cases hn
    · cases hn
  | deleteObject t i =>
    simp only [Allocations.next] at hn
    split at hn
    · cases hn
      exact h.setPhase rfl
    · cases hn
  | decrementAllocations i =>
    simp only [Allocations.next] at hn
    split at hn
    · rename_i ho
      cases hn
      exact h.decrementAllocations hi ho hok
    · cases hn
  | currentlyAllocated =>
    simp only [Allocations.next] at hn
    split at hn
    · cases hn
      intro k total hs o ho t ht hsee hlt
      cases hs
      exact absurd hlt (Nat.not_lt_zero _)
    · cases hn
  | read =>
    simp only [Allocations.next] at hn
    split at hn
    · rename_i k total hs
      split at hn
      · cases hn
        exact h.read hs _
      · cases hn
    · cases hn
  | ret =>
    simp only [Allocations.next] at hn
    split at hn
    · split at hn
      · cases hn
        intro k total hs
        cases hs
      · cases hn
    · cases hn

theorem reach_accounted (h : ((machine n).restrict fun s a => notMissed s a = true).Reach s) :
    Inv s ∧ Accounted s := by
  refine h.invariant (I := fun s => Inv s ∧ Accounted s) ?_ ?_
  · rintro s rfl
    exact ⟨reach_inv (.init rfl), by intro k total hs; cases hs⟩
  · intro s a s' hi hn
    obtain ⟨hok, hn⟩ := Machine.restrict_next.mp hn
    exact ⟨hi.1.next hn, hi.2.next hi.1 hok hn⟩

theorem Accounted.phantoms_eq (h : Accounted s) (hi : Inv s) {total : BitVec 64} (hr : s.Returns total) :
    s.phantoms = 0 := by
  refine List.countP_eq_zero.mpr fun o ho => ?_
  simp only [Bool.and_eq_true, Bool.not_eq_true', not_and, Bool.not_eq_false]
  intro hd
  obtain ⟨t, ht, -⟩ := hi.deleteSeen n total hr o ho hd
  exact h n total hr o ho t ht (.inl hd) o.creator.isLt

/-- The call returns at most the number of `create_object` calls exactly when it does not
see more deletions of objects whose creation it missed than it counts objects (or the calls
are in the order of `2 ^ 64`). So it does in every run in which no thread that is yet to be
read deletes an object that was created, after its counter was read, by another. With
nothing under way it returns the number of live objects. -/
theorem currentlyAllocated_spec (h : (machine n).Reach s) :
    (∀ total, s.Returns total → (total.toNat ≤ s.begun ↔
      s.phantoms ≤ s.counted ∨ 2 ^ 64 + s.counted ≤ s.begun + s.phantoms)) ∧
    (((machine n).restrict fun s a => notMissed s a = true).Reach s →
      ∀ total, s.Returns total → total.toNat ≤ s.begun) ∧
    (s.Quiet → s.sample = none → ∃ s' total, (machine n).exec (undisturbed n) s = some s' ∧
      s'.Returns total ∧ total.toNat = s.numLive) := by
  have hi := reach_inv h
  refine ⟨fun total hr => hi.toNat_le_iff hr, fun hres total hr => ?_, fun hq hs => hi.undisturbed hq hs⟩
  have hacc := (reach_accounted hres).2
  refine (hi.toNat_le_iff hr).mpr (.inl ?_)
  rw [hacc.phantoms_eq hi hr]
  exact Nat.zero_le _

end Steps

/-- Thread 1 frees an object of thread 0's, so its counter is negative, while the counter of
thread 0 has been read with one of two objects. -/
def deletedElsewhere : List (Label 2) :=
  [.createObject 0, .incrementAllocations 0, .allocate 0 16, .currentlyAllocated, .read,
    .createObject 0, .incrementAllocations 0, .allocate 1 32, .deleteObject 1 0,
    .decrementAllocations 0, .read]

theorem currentlyAllocated_spec_deletedElsewhere :
    ∃ s, (machine 2).exec deletedElsewhere (.initial 2) = some s ∧ s.Returns 0 ∧ s.begun = 2 ∧
      (0 : BitVec 64).toNat ≤ s.begun := by
  have hex : ((machine 2).exec deletedElsewhere (.initial 2)).map
      (fun s => (s.sample, s.begun, s.phantoms, s.counted)) = some (some (2, 0), 2, 0, 0) := by
    decide +kernel
  obtain ⟨s, hs, hst⟩ := Option.map_eq_some_iff.mp hex
  simp only [Prod.mk.injEq] at hst
  obtain ⟨hsample, hbegun, hphantoms, -⟩ := hst
  have h0 : (machine 2).Reach (.initial 2) := .init rfl
  refine ⟨s, hs, hsample, hbegun, ?_⟩
  refine ((currentlyAllocated_spec (h0.exec hs)).1 0 hsample).mpr (.inl ?_)
  rw [hphantoms]
  exact Nat.zero_le _

/-- The counter of thread 0 is read; it creates an object, which thread 1 deletes before its
counter is read. -/
def createdAfterRead : List (Label 2) :=
  [.currentlyAllocated, .read, .createObject 0, .incrementAllocations 0, .allocate 0 16,
    .deleteObject 1 0, .decrementAllocations 0, .read]

theorem currentlyAllocated_overshoots :
    ¬ ∀ s, (machine 2).Reach s → ∀ total, s.Returns total → total.toNat ≤ s.begun := by
  intro hall
  have hex : ((machine 2).exec createdAfterRead (.initial 2)).map (fun s => (s.sample, s.begun)) =
      some (some (2, BitVec.allOnes 64), 1) := by
    decide +kernel
  obtain ⟨s, hs, hst⟩ := Option.map_eq_some_iff.mp hex
  simp only [Prod.mk.injEq] at hst
  have h0 : (machine 2).Reach (.initial 2) := .init rfl
  have hle := hall s (h0.exec hs) _ hst.1
  rw [hst.2, BitVec.toNat_allOnes] at hle
  omega

end Cdrc.MemoryManager.Allocations
