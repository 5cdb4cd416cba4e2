import Mathlib.Algebra.Order.BigOperators.Group.Finset
import Cdrc.Lib.Tasks
import Cdrc.Drain.Eject

/-! # Draining is confluent

The abstract drain has no calls and no order: a bag of entries, any of which may be
applied next. Here every two entries commute, those of one object included, so all drains
end alike. The drain of the code is one of them. A destructor of a field is an entry that
happens to be applied at once, and the immediate route of `release_refs` is the entry
`dispose` followed by the release of the weak reference that the strong ones held: the
object is deleted with that reference still counted, which is why a deleted object's weak
count is read as zero. -/
namespace Cdrc.Drain
open Cdrc.Lib Cdrc.Lib.Runs Cdrc.CountedObject Relation

/-- What a drain leaves behind. -/
@[ext] structure Heap (α : Type) where
  strong : α → Nat
  weak : α → Nat
  disposed : Multiset α
  deleted : Multiset α

/-- The entry that a field's destructor applies or defers. -/
def Field.entry {α : Type} : Field α → Entry α
  | .rcPtr p => (p, .decrementStrongCount)
  | .weakPtr p => (p, .decrementWeakCount)
  | .atomicRcPtr p => (p, .decrementStrongCount)
  | .atomicWeakPtr p => (p, .decrementWeakCount)

def Call.entry {α : Type} : Call α → Entry α
  | .decrementRefCnt p => (p, .decrementStrongCount)
  | .decrementWeakCnt p => (p, .decrementWeakCount)
  | .dispose p => (p, .dispose)
  | .destroy p => (p, .decrementWeakCount)
  | .retire e => e

variable {α : Type} [DecidableEq α] (fields : α → List (Field α))

def apply : Entry α → Heap α → Heap α
  | (p, .decrementStrongCount), h =>
    { h with strong := Function.update h.strong p (h.strong p - 1) }
  | (p, .decrementWeakCount), h =>
    { h with
      weak := Function.update h.weak p (h.weak p - 1)
      deleted := if h.weak p = 1 then p ::ₘ h.deleted else h.deleted }
  | (p, .dispose), h => { h with disposed := p ::ₘ h.disposed }

def adds : Entry α → Heap α → Multiset (Entry α)
  | (p, .decrementStrongCount), h => if h.strong p = 1 then {(p, .dispose)} else 0
  | (_, .decrementWeakCount), _ => 0
  | (p, .dispose), _ =>
    ((fields p).map Field.entry : Multiset (Entry α)) + {(p, .decrementWeakCount)}

def entries : Tasks (Heap α) (Entry α) where
  act := apply
  spawn := adds fields

/-! ## Any two entries commute -/

theorem apply_comm (e f : Entry α) (h : Heap α) : apply f (apply e h) = apply e (apply f h) := by
  obtain ⟨p, a⟩ := e
  obtain ⟨q, b⟩ := f
  by_cases hpq : p = q
  · subst hpq
    cases a <;> cases b <;> rfl
  · have hqp : q ≠ p := Ne.symm hpq
    -- only two entries of one type touch the same part of the heap
    cases a with
    | decrementStrongCount =>
      cases b with
      | decrementStrongCount =>
        simp only [apply, Function.update_of_ne hpq, Function.update_of_ne hqp]
        rw [Function.update_comm hqp]
      | decrementWeakCount => rfl
      | dispose => rfl
    | decrementWeakCount =>
      cases b with
      | decrementStrongCount => rfl
      | decrementWeakCount =>
        have hp : (apply (q, .decrementWeakCount) h).weak p = h.weak p :=
          Function.update_of_ne hpq _ _
        have hq : (apply (p, .decrementWeakCount) h).weak q = h.weak q :=
          Function.update_of_ne hqp _ _
        refine Heap.ext rfl ?_ rfl ?_
        · change Function.update _ q _ = Function.update _ p _
          rw [hp, hq]
          exact (Function.update_comm hqp _ _ _).symm
        · change (if _ then _ else _) = (if _ then _ else _)
          rw [hp, hq]
          simp only [apply]
          split <;> split <;> simp [Multiset.cons_swap]
      | dispose => rfl
    | dispose =>
      cases b with
      | decrementStrongCount => rfl
      | decrementWeakCount => rfl
      | dispose =>
        simp only [apply]
        rw [Multiset.cons_swap]

theorem adds_comm (e f : Entry α) (h : Heap α) :
    adds fields e h + adds fields f (apply e h) = adds fields f h + adds fields e (apply f h) := by
  obtain ⟨p, a⟩ := e
  obtain ⟨q, b⟩ := f
  by_cases hpq : p = q
  · subst hpq
    cases a <;> cases b <;> first | rfl | exact add_comm _ _
  · cases a with
    | decrementStrongCount =>
      cases b with
      | decrementStrongCount =>
        have hp : (apply (q, .decrementStrongCount) h).strong p = h.strong p :=
          Function.update_of_ne hpq _ _
        have hq : (apply (p, .decrementStrongCount) h).strong q = h.strong q :=
          Function.update_of_ne (Ne.symm hpq) _ _
        simp only [adds, hp, hq]
        exact add_comm _ _
      | decrementWeakCount => exact add_comm _ _
      | dispose => exact add_comm _ _
    | decrementWeakCount => cases b <;> exact add_comm _ _
    | dispose => cases b <;> exact add_comm _ _

theorem entries_commute (e f : Entry α) (h : Heap α) : (entries fields).Commutes e f h :=
  ⟨apply_comm e f h, adds_comm fields e f h⟩

/-! ## The counts along the abstract drain -/

section Counts

theorem count_entries_strong (o p : α) :
    ((fields o).map Field.entry : Multiset (Entry α)).count (p, .decrementStrongCount) =
      strongFields fields o p := by
  unfold strongFields
  induction fields o with
  | nil => rfl
  | cons f l ih =>
    rw [List.map_cons, ← Multiset.cons_coe, Multiset.count_cons, ih, List.countP_cons]
    cases f <;> simp [Field.entry, eq_comm]

theorem count_entries_weak (o p : α) :
    ((fields o).map Field.entry : Multiset (Entry α)).count (p, .decrementWeakCount) =
      weakFields fields o p := by
  unfold weakFields
  induction fields o with
  | nil => rfl
  | cons f l ih =>
    rw [List.map_cons, ← Multiset.cons_coe, Multiset.count_cons, ih, List.countP_cons]
    cases f <;> simp [Field.entry, eq_comm]

theorem count_entries_dispose (o p : α) :
    ((fields o).map Field.entry : Multiset (Entry α)).count (p, .dispose) = 0 := by
  rw [Multiset.count_eq_zero]
  intro hm
  simp only [Multiset.mem_coe, List.mem_map] at hm
  obtain ⟨f, _, hf⟩ := hm
  cases f <;> cases hf

end Counts

variable [Fintype α] {strongRoots weakRoots : α → Nat}

/-- A sum over the objects not disposed of. -/
def undisposed (f : α → Nat) (d : Multiset α) : Nat := ∑ o, if o ∈ d then 0 else f o

/-- The weak reference that the strong ones hold together. -/
def heldByStrong (d : Multiset α) (p : α) : Nat := if p ∈ d then 0 else 1

/-- `CountsAgree`, for the abstract drain. -/
structure Agrees (strongRoots weakRoots : α → Nat) (h : Heap α) (b : Multiset (Entry α)) :
    Prop where
  strong : ∀ p, h.strong p = strongRoots p + undisposed (strongFields fields · p) h.disposed +
    b.count (p, .decrementStrongCount)
  weak : ∀ p, h.weak p = weakRoots p + undisposed (weakFields fields · p) h.disposed +
    b.count (p, .decrementWeakCount) + heldByStrong h.disposed p
  dispose : ∀ p, b.count (p, .dispose) = if h.strong p = 0 ∧ p ∉ h.disposed then 1 else 0
  expired : ∀ p ∈ h.disposed, h.strong p = 0
  deleted : ∀ p, p ∈ h.deleted ↔ h.weak p = 0
  disposedOnce : h.disposed.Nodup
  deletedOnce : h.deleted.Nodup

/-- What an object counts for until it is disposed of. -/
theorem undisposed_cons (f : α → Nat) {d : Multiset α} {p : α} (hp : p ∉ d) :
    undisposed f d = f p + undisposed f (p ::ₘ d) := by
  unfold undisposed
  rw [← Finset.add_sum_erase _ _ (Finset.mem_univ p), if_neg hp,
    ← Finset.add_sum_erase Finset.univ (fun o => if o ∈ p ::ₘ d then 0 else f o)
      (Finset.mem_univ p), if_pos (Multiset.mem_cons_self p d), Nat.zero_add]
  congr 1
  refine Finset.sum_congr rfl fun o ho => ?_
  have hne : o ≠ p := Finset.ne_of_mem_erase ho
  simp [hne]

variable {fields}

theorem Agrees.strong_pos {h : Heap α} {p : α} {b : Multiset (Entry α)}
    (ha : Agrees fields strongRoots weakRoots h ((p, .decrementStrongCount) ::ₘ b)) :
    0 < h.strong p := by
  have := ha.strong p
  simp only [Multiset.count_cons_self] at this
  omega

theorem Agrees.weak_pos {h : Heap α} {p : α} {b : Multiset (Entry α)}
    (ha : Agrees fields strongRoots weakRoots h ((p, .decrementWeakCount) ::ₘ b)) :
    0 < h.weak p := by
  have := ha.weak p
  simp only [Multiset.count_cons_self] at this
  omega

theorem Agrees.not_disposed {h : Heap α} {p : α} {b : Multiset (Entry α)}
    (ha : Agrees fields strongRoots weakRoots h ((p, .dispose) ::ₘ b)) :
    h.strong p = 0 ∧ p ∉ h.disposed ∧ b.count (p, .dispose) = 0 := by
  have hd := ha.dispose p
  simp only [Multiset.count_cons_self] at hd
  split at hd
  · rename_i hc
    exact ⟨hc.1, hc.2, by omega⟩
  · omega

theorem Agrees.applyStrong {h : Heap α} {p : α} {b : Multiset (Entry α)}
    (ha : Agrees fields strongRoots weakRoots h ((p, .decrementStrongCount) ::ₘ b)) :
    Agrees fields strongRoots weakRoots (apply (p, .decrementStrongCount) h)
      (adds fields (p, .decrementStrongCount) h + b) := by
  have hpos := ha.strong_pos
  have hnd : p ∉ h.disposed := fun hd => by
    have := ha.expired p hd
    omega
  have hcount : ∀ e : Entry α, e.2 ≠ .dispose →
      (adds fields (p, .decrementStrongCount) h + b).count e = b.count e := by
    intro e he
    simp only [adds, Multiset.count_add]
    split
    · rw [Multiset.count_singleton, if_neg (fun heq => he (by rw [heq]))]
      exact Nat.zero_add _
    · simp
  refine ⟨fun q => ?_, fun q => ?_, fun q => ?_, fun q hq => ?_, ha.deleted, ha.disposedOnce,
    ha.deletedOnce⟩
  · have hs := ha.strong q
    rw [hcount _ (by simp)]
    by_cases hq : q = p
    · subst hq
      simp only [apply, Function.update_self, Multiset.count_cons_self] at hs ⊢
      omega
    · simp only [apply, Function.update_of_ne hq]
      rwa [Multiset.count_cons_of_ne (by simpa using hq)] at hs
  · have hw := ha.weak q
    rw [hcount _ (by simp)]
    rwa [Multiset.count_cons_of_ne (by simp)] at hw
  · have hd := ha.dispose q
    rw [Multiset.count_cons_of_ne (by simp)] at hd
    by_cases hq : q = p
    · subst hq
      simp only [adds, apply, Function.update_self, Multiset.count_add, hd]
      by_cases h1 : h.strong q = 1
      · simp [h1, hnd]
      · have h0 : h.strong q ≠ 0 := by omega
        have h2 : ¬ h.strong q - 1 = 0 := by omega
        simp [h1, h0, h2]
    · have : (adds fields (p, .decrementStrongCount) h).count (q, .dispose) = 0 := by
        simp only [adds]
        split <;> simp [hq]
      rw [Multiset.count_add, this, Nat.zero_add, hd]
      simp only [apply, Function.update_of_ne hq]
  · have hqp : q ≠ p := fun heq => hnd (heq ▸ hq)
    simp only [apply, Function.update_of_ne hqp]
    exact ha.expired q hq

theorem Agrees.applyWeak {h : Heap α} {p : α} {b : Multiset (Entry α)}
    (ha : Agrees fields strongRoots weakRoots h ((p, .decrementWeakCount) ::ₘ b)) :
    Agrees fields strongRoots weakRoots (apply (p, .decrementWeakCount) h) b := by
  have hpos := ha.weak_pos
  have hnd : p ∉ h.deleted := fun hd => by
    have := (ha.deleted p).mp hd
    omega
  refine ⟨fun q => ?_, fun q => ?_, fun q => ?_, ha.expired, fun q => ?_, ha.disposedOnce, ?_⟩
  · have hs := ha.strong q
    rwa [Multiset.count_cons_of_ne (by simp)] at hs
  · have hw := ha.weak q
    by_cases hq : q = p
    · subst hq
      simp only [apply, Function.update_self, Multiset.count_cons_self] at hw ⊢
      omega
    · simp only [apply, Function.update_of_ne hq]
      rwa [Multiset.count_cons_of_ne (by simpa using hq)] at hw
  · have hd := ha.dispose q
    rwa [Multiset.count_cons_of_ne (by simp)] at hd
  · have hd := ha.deleted q
    by_cases hq : q = p
    · subst hq
      simp only [apply, Function.update_self]
      by_cases h1 : h.weak q = 1
      · simp [h1]
      · rw [if_neg h1]
        simp only [hnd, false_iff]
        omega
    · simp only [apply, Function.update_of_ne hq]
      split
      · simp [hq, hd]
      · exact hd
  · simp only [apply]
    split
    · exact Multiset.nodup_cons.mpr ⟨hnd, ha.deletedOnce⟩
    · exact ha.deletedOnce

theorem Agrees.applyDispose {h : Heap α} {p : α} {b : Multiset (Entry α)}
    (ha : Agrees fields strongRoots weakRoots h ((p, .dispose) ::ₘ b)) :
    Agrees fields strongRoots weakRoots (apply (p, .dispose) h)
      (adds fields (p, .dispose) h + b) := by
  obtain ⟨h0, hnd, hb⟩ := ha.not_disposed
  have hdisp : (apply (p, .dispose) h).disposed = p ::ₘ h.disposed := rfl
  refine ⟨fun q => ?_, fun q => ?_, fun q => ?_, fun q hq => ?_, ha.deleted, ?_, ha.deletedOnce⟩
  · have hs := ha.strong q
    rw [Multiset.count_cons_of_ne (by simp), undisposed_cons _ hnd] at hs
    simp only [adds, Multiset.count_add, count_entries_strong]
    rw [Multiset.count_singleton, if_neg (by simp), hdisp]
    change h.strong q = _
    omega
  · have hw := ha.weak q
    rw [Multiset.count_cons_of_ne (by simp), undisposed_cons _ hnd] at hw
    simp only [adds, Multiset.count_add, count_entries_weak]
    rw [hdisp]
    change h.weak q = _
    by_cases hq : q = p
    · subst hq
      have h1 : heldByStrong h.disposed q = 1 := if_neg hnd
      have h2 : heldByStrong (q ::ₘ h.disposed) q = 0 := if_pos (Multiset.mem_cons_self _ _)
      rw [Multiset.count_singleton_self]
      omega
    · have h1 : heldByStrong (p ::ₘ h.disposed) q = heldByStrong h.disposed q := by
        simp [heldByStrong, hq]
      rw [Multiset.count_singleton, if_neg (by simpa using hq)]
      omega
  · have hd := ha.dispose q
    simp only [adds, Multiset.count_add, count_entries_dispose]
    rw [Multiset.count_singleton, if_neg (by simp)]
    by_cases hq : q = p
    · subst hq
      simp [apply, hb]
    · rw [Multiset.count_cons_of_ne (by simpa using hq)] at hd
      simp [apply, hq, hd]
  · rcases Multiset.mem_cons.mp hq with rfl | hq
    · exact h0
    · exact ha.expired q hq
  · exact Multiset.nodup_cons.mpr ⟨hnd, ha.disposedOnce⟩

/-- One entry applied, whichever it is. -/
theorem Agrees.step {c c' : Heap α × Multiset (Entry α)}
    (ha : Agrees fields strongRoots weakRoots c.1 c.2) (hs : (entries fields).Step c c') :
    Agrees fields strongRoots weakRoots c'.1 c'.2 := by
  obtain ⟨h, b₀⟩ := c
  obtain ⟨⟨p, type⟩, b, rfl, rfl⟩ := hs
  cases type with
  | decrementStrongCount => exact ha.applyStrong
  | decrementWeakCount =>
    have := ha.applyWeak
    simpa [entries, adds] using this
  | dispose => exact ha.applyDispose

/-! ## The drain of the code is one of the abstract drains -/

section Simulation
omit [Fintype α]

/-- What an abstract drain sees of a state. A deleted object has no weak count. -/
def State.heap (s : State α) : Heap α where
  strong := s.strong
  weak p := if p ∈ s.deleted then 0 else s.weak p
  disposed := s.disposed
  deleted := s.deleted

/-- The entries still to be applied: the pending ones, and those of the calls. -/
def State.bag (s : State α) : Multiset (Entry α) :=
  s.pending + (s.stack.map Call.entry : List (Entry α))

def State.abs (s : State α) : Heap α × Multiset (Entry α) := (s.heap, s.bag)

omit [DecidableEq α] in
theorem bag_cons {s : State α} {c : Call α} {rest : List (Call α)} (hs : s.stack = c :: rest) :
    s.bag = c.entry ::ₘ State.bag { s with stack := rest } := by
  simp only [State.bag, hs, List.map_cons, ← Multiset.cons_coe, Multiset.add_cons]

omit [DecidableEq α] in
theorem entry_destructor (f : Field α) : f.destructor.entry = f.entry := by
  cases f <;> rfl

omit [DecidableEq α] in
theorem entry_eject (e : Entry α) : (eject e).entry = e := by
  obtain ⟨p, type⟩ := e
  cases type <;> rfl

/-- Disposing of an object leaves the entries of its fields, and the one for the weak
reference its strong references held. -/
theorem bag_dispose {s : State α} {p : α} {c : Call α} {rest : List (Call α)}
    (hc : c.entry = (p, .decrementWeakCount)) :
    (s.dispose fields p (c :: rest)).bag =
      adds fields (p, .dispose) s.heap + State.bag { s with stack := rest } := by
  have hf : (fields p).map (Call.entry ∘ Field.destructor) = (fields p).map Field.entry :=
    List.map_congr_left fun f _ => entry_destructor f
  simp only [State.bag, State.dispose, adds, List.map_append, List.map_map, List.map_cons, hc, hf,
    ← Multiset.coe_add, ← Multiset.cons_coe, ← Multiset.singleton_add]
  ac_rfl

theorem heap_dispose (s : State α) (p : α) (rest : List (Call α)) :
    (s.dispose fields p rest).heap = apply (p, .dispose) s.heap := by
  refine Heap.ext rfl rfl ?_ rfl
  change ((s.disposed ++ [p] : List α) : Multiset α) = p ::ₘ (s.disposed : Multiset α)
  rw [Multiset.cons_coe, Multiset.coe_eq_coe]
  exact List.perm_append_singleton p s.disposed

/-- One entry applied by the code. -/
theorem heap_destroy {s : State α} {p : α} (hp : p ∉ s.deleted) (hw : s.weak p = 1) :
    (s.destroy p).heap = apply (p, .decrementWeakCount) s.heap := by
  have h1 : s.heap.weak p = 1 := by simp [State.heap, hp, hw]
  refine Heap.ext rfl ?_ rfl ?_
  · funext q
    by_cases hq : q = p
    · subst hq
      simp [State.heap, State.destroy, apply, hp, hw]
    · simp [State.heap, State.destroy, apply, hq]
  · simp only [apply, if_pos h1]
    change ((s.deleted ++ [p] : List α) : Multiset α) = p ::ₘ (s.deleted : Multiset α)
    rw [Multiset.cons_coe, Multiset.coe_eq_coe]
    exact List.perm_append_singleton p s.deleted

variable (fields) in
theorem heap_decrementWeakCnt {s : State α} {p : α} (rest : List (Call α)) (hp : p ∉ s.deleted) :
    (makeCall fields s rest (.decrementWeakCnt p)).heap = apply (p, .decrementWeakCount) s.heap := by
  have hw : s.heap.weak p = s.weak p := by simp [State.heap, hp]
  simp only [makeCall]
  split
  · rename_i h1
    refine Heap.ext rfl ?_ rfl ?_
    · funext q
      by_cases hq : q = p
      · subst hq
        simp [State.heap, State.destroy, apply, hp, h1]
      · simp [State.heap, State.destroy, apply, hq]
    · simp only [apply, hw, if_pos h1]
      change ((s.deleted ++ [p] : List α) : Multiset α) = p ::ₘ (s.deleted : Multiset α)
      rw [Multiset.cons_coe, Multiset.coe_eq_coe]
      exact List.perm_append_singleton p s.deleted
  · rename_i h1
    refine Heap.ext rfl ?_ rfl ?_
    · funext q
      by_cases hq : q = p
      · subst hq
        simp [State.heap, apply, hp]
      · simp [State.heap, apply, Function.update_of_ne hq]
    · simp only [apply, hw, if_neg h1]
      rfl

end Simulation

/-- The counts agree, and an object on the immediate route has no weak reference but the
one its strong references held. -/
structure Inv (fields : α → List (Field α)) (strongRoots weakRoots : α → Nat) (s : State α) :
    Prop where
  agrees : Agrees fields strongRoots weakRoots s.heap s.bag
  destroy : ∀ p, .destroy p ∈ s.stack → s.weak p = 1

section Steps
variable {s : State α} {rest : List (Call α)} {p : α}

theorem Inv.not_deleted (h : Inv fields strongRoots weakRoots s)
    (hm : (p, .decrementWeakCount) ∈ s.bag) : p ∉ s.deleted := by
  obtain ⟨b, hb⟩ := Multiset.exists_cons_of_mem hm
  have hp := Agrees.weak_pos (hb ▸ h.agrees)
  intro hd
  simp [State.heap, hd] at hp

/-- No other decrement of the weak count is outstanding on the immediate route. -/
theorem Inv.destroy_alone (h : Inv fields strongRoots weakRoots s)
    (hs : s.stack = .decrementWeakCnt p :: rest) : .destroy p ∉ rest := by
  intro hm
  have hw := h.destroy p (hs ▸ List.mem_cons_of_mem _ hm)
  have hbag := bag_cons hs
  have hmem : (p, .decrementWeakCount) ∈ State.bag { s with stack := rest } := by
    refine Multiset.mem_add.mpr (Or.inr ?_)
    exact Multiset.mem_coe.mpr (List.mem_map.mpr ⟨_, hm, rfl⟩)
  obtain ⟨b, hb⟩ := Multiset.exists_cons_of_mem hmem
  have hc := h.agrees.weak p
  rw [hbag, hb] at hc
  simp only [Call.entry, Multiset.count_cons_self] at hc
  have hle : s.heap.weak p ≤ s.weak p := by
    simp only [State.heap]
    split <;> omega
  omega

variable (fields) in
omit [Fintype α] in
/-- The entry of the innermost call is one that may be applied next. -/
theorem step_call {c : Call α} (hs : s.stack = c :: rest) : (entries fields).Step s.abs
    (apply c.entry s.heap, adds fields c.entry s.heap + State.bag { s with stack := rest }) :=
  ⟨c.entry, _, bag_cons hs, rfl⟩

theorem Inv.decrementRefCnt (h : Inv fields strongRoots weakRoots s)
    (hs : s.stack = .decrementRefCnt p :: rest) :
    ReflTransGen (entries fields).Step s.abs (makeCall fields s rest (.decrementRefCnt p)).abs ∧
      ∀ q, .destroy q ∈ (makeCall fields s rest (.decrementRefCnt p)).stack →
        (makeCall fields s rest (.decrementRefCnt p)).weak q = 1 := by
  have hstep : (entries fields).Step s.abs _ := step_call fields hs
  have hrest : ∀ q, .destroy q ∈ rest → s.weak q = 1 := fun q hq =>
    h.destroy q (hs ▸ List.mem_cons_of_mem _ hq)
  simp only [Call.entry] at hstep
  simp only [makeCall]
  split
  · rename_i h1
    have hadds : adds fields (p, .decrementStrongCount) s.heap = {(p, .dispose)} := if_pos h1
    rw [hadds] at hstep
    split
    · -- the immediate route: the object is disposed of within the same call
      rename_i hw
      refine ⟨(ReflTransGen.single hstep).tail
        ⟨(p, .dispose), _, Multiset.singleton_add _ _, ?_⟩, ?_⟩
      · exact Prod.ext (heap_dispose _ p _) (bag_dispose rfl)
      · intro q hq
        simp only [State.dispose, List.mem_append, List.mem_map, List.mem_cons] at hq
        rcases hq with ⟨f, _, hf⟩ | hq | hq
        · cases f <;> cases hf
        · cases hq
          exact hw
        · exact hrest q hq
    · refine ⟨ReflTransGen.single ?_, hrest⟩
      have hbag : ∀ s' : State α, State.bag { s' with pending := s'.pending ++ [(p, .dispose)] } =
          {(p, .dispose)} + s'.bag := by
        intro s'
        simp only [State.bag, ← Multiset.coe_add, Multiset.coe_singleton]
        ac_rfl
      have := hbag { s with strong := Function.update s.strong p (s.strong p - 1), stack := rest }
      simp only [State.abs]
      rw [this]
      exact hstep
  · rename_i h1
    have hadds : adds fields (p, .decrementStrongCount) s.heap = 0 := if_neg h1
    rw [hadds, zero_add] at hstep
    exact ⟨ReflTransGen.single hstep, hrest⟩

theorem Inv.decrementWeakCnt (h : Inv fields strongRoots weakRoots s)
    (hs : s.stack = .decrementWeakCnt p :: rest) :
    ReflTransGen (entries fields).Step s.abs (makeCall fields s rest (.decrementWeakCnt p)).abs ∧
      ∀ q, .destroy q ∈ (makeCall fields s rest (.decrementWeakCnt p)).stack →
        (makeCall fields s rest (.decrementWeakCnt p)).weak q = 1 := by
  have hmem : (p, .decrementWeakCount) ∈ s.bag := by
    rw [bag_cons hs]
    exact Multiset.mem_cons_self _ _
  have hstep : (entries fields).Step s.abs _ := step_call fields hs
  simp only [Call.entry, adds, zero_add] at hstep
  rw [← heap_decrementWeakCnt fields rest (h.not_deleted hmem)] at hstep
  have hbag : (makeCall fields s rest (.decrementWeakCnt p)).bag =
      State.bag { s with stack := rest } := by
    simp only [makeCall]
    split <;> rfl
  have hstack : (makeCall fields s rest (.decrementWeakCnt p)).stack = rest := by
    simp only [makeCall]
    split <;> rfl
  have hweak : (makeCall fields s rest (.decrementWeakCnt p)).weak =
      Function.update s.weak p (s.weak p - 1) := by
    simp only [makeCall]
    split <;> rfl
  rw [← hbag] at hstep
  refine ⟨ReflTransGen.single hstep, fun q hq => ?_⟩
  rw [hstack] at hq
  have hqp : q ≠ p := fun heq => h.destroy_alone hs (heq ▸ hq)
  rw [hweak, Function.update_of_ne hqp]
  exact h.destroy q (hs ▸ List.mem_cons_of_mem _ hq)

/-- A call of the code applies its entry, and on the immediate route the next one too. -/
theorem Inv.makeCall (h : Inv fields strongRoots weakRoots s) {c : Call α}
    (hs : s.stack = c :: rest) :
    ReflTransGen (entries fields).Step s.abs (makeCall fields s rest c).abs ∧
      ∀ q, .destroy q ∈ (makeCall fields s rest c).stack →
        (makeCall fields s rest c).weak q = 1 := by
  have hrest : ∀ q, .destroy q ∈ rest → s.weak q = 1 := fun q hq =>
    h.destroy q (hs ▸ List.mem_cons_of_mem _ hq)
  have hstep : (entries fields).Step s.abs _ := step_call fields hs
  cases c with
  | decrementRefCnt p => exact h.decrementRefCnt hs
  | decrementWeakCnt p => exact h.decrementWeakCnt hs
  | dispose p =>
    refine ⟨ReflTransGen.single ?_, fun q hq => ?_⟩
    · simp only [Drain.makeCall, State.abs]
      rw [heap_dispose, bag_dispose rfl]
      exact hstep
    · simp only [Drain.makeCall, State.dispose, List.mem_append, List.mem_map, List.mem_cons,
        reduceCtorEq, false_or] at hq
      rcases hq with ⟨f, _, hf⟩ | hq
      · cases f <;> cases hf
      · exact hrest q hq
  | destroy p =>
    have hmem : (p, .decrementWeakCount) ∈ s.bag := by
      rw [bag_cons hs]
      exact Multiset.mem_cons_self _ _
    have hw := h.destroy p (hs ▸ List.mem_cons_self)
    simp only [Call.entry, adds, zero_add] at hstep
    have hh := heap_destroy (s := { s with stack := rest }) (h.not_deleted hmem) hw
    refine ⟨ReflTransGen.single ?_, hrest⟩
    simp only [Drain.makeCall, State.abs]
    rw [hh]
    exact hstep
  | retire e =>
    refine ⟨?_, hrest⟩
    have hbag : (Drain.makeCall fields s rest (.retire e)).bag = s.bag := by
      rw [bag_cons hs]
      simp only [Drain.makeCall, State.bag, Call.entry, ← Multiset.coe_add, Multiset.coe_singleton,
        ← Multiset.singleton_add]
      ac_rfl
    simp only [State.abs]
    rw [hbag]
    exact ReflTransGen.refl

omit [Fintype α] [DecidableEq α] in
theorem bag_eject {k : Nat} {e : Entry α} (hs : s.stack = []) (hk : s.pending[k]? = some e) :
    State.bag { s with stack := [eject e], pending := s.pending.eraseIdx k } = s.bag := by
  obtain ⟨hlt, he⟩ := List.getElem?_eq_some_iff.mp hk
  have hp : s.pending.Perm (e :: s.pending.eraseIdx k) := by
    rw [← he]
    exact (List.getElem_cons_eraseIdx_perm hlt).symm
  simp only [State.bag, hs, List.map_cons, List.map_nil, entry_eject, Multiset.coe_nil, add_zero]
  rw [Multiset.coe_eq_coe.mpr hp, Multiset.coe_singleton, ← Multiset.cons_coe,
    ← Multiset.singleton_add, add_comm]

/-- Every step of the code is made of abstract ones. -/
theorem Inv.next (h : Inv fields strongRoots weakRoots s) {a : Label} {s' : State α}
    (hn : next fields s a = some s') :
    ReflTransGen (entries fields).Step s.abs s'.abs ∧ Inv fields strongRoots weakRoots s' := by
  have hkey : ReflTransGen (entries fields).Step s.abs s'.abs ∧
      ∀ q, .destroy q ∈ s'.stack → s'.weak q = 1 := by
    cases a with
    | eject k =>
      simp only [Drain.next] at hn
      split at hn
      · rename_i e hstack hk
        cases hn
        refine ⟨?_, fun q hq => ?_⟩
        · simp only [State.abs]
          rw [bag_eject hstack hk]
          exact ReflTransGen.refl
        · obtain ⟨p, type⟩ := e
          cases type <;> simp [eject] at hq
      · cases hn
    | run =>
      simp only [Drain.next] at hn
      split at hn
      · cases hn
      · rename_i c rest hs
        cases hn
        exact h.makeCall hs
  refine ⟨hkey.1, ?_, hkey.2⟩
  exact Tasks.keeps (I := fun c => Agrees fields strongRoots weakRoots c.1 c.2)
    (fun _ _ hi hs => hi.step hs) hkey.1 h.agrees

end Steps

/-! ## Every drain comes to an end -/

section Termination
omit [DecidableEq α] [Fintype α]

/-- The calls and ejects an entry still costs, its own disposal apart. -/
def entryWeight (e : Entry α) : Nat :=
  match e.2 with
  | .decrementStrongCount => 4
  | .decrementWeakCount => 2
  | .dispose => 2

def Call.weight : Call α → Nat
  | .decrementRefCnt _ => 3
  | .decrementWeakCnt _ => 1
  | .dispose _ => 1
  | .destroy _ => 1
  | .retire e => entryWeight e + 1

/-- What disposing of an object will cost. -/
def disposalWeight (fields : α → List (Field α)) (o : α) : Nat :=
  ((fields o).map fun f => f.destructor.weight).sum + 1

end Termination

/-- A bound on the steps a drain can still make. -/
def State.toDo (fields : α → List (Field α)) (s : State α) : Nat :=
  (s.stack.map Call.weight).sum + (s.pending.map entryWeight).sum +
    undisposed (disposalWeight fields) s.disposed

theorem toDo_dispose {s : State α} {p : α} (hp : p ∉ s.disposed) {c : Call α}
    {rest : List (Call α)} (hc : c.weight = 1) :
    (s.dispose fields p (c :: rest)).toDo fields = State.toDo fields { s with stack := rest } := by
  have hd : ((s.disposed ++ [p] : List α) : Multiset α) = p ::ₘ (s.disposed : Multiset α) := by
    rw [Multiset.cons_coe, Multiset.coe_eq_coe]
    exact List.perm_append_singleton p s.disposed
  have hu := undisposed_cons (disposalWeight fields) (d := (s.disposed : Multiset α)) (p := p)
    (by simpa using hp)
  have hf : (Call.weight ∘ Field.destructor : Field α → Nat) = fun f => f.destructor.weight := rfl
  simp only [State.toDo, State.dispose, hd, hu, List.map_append, List.map_map, List.sum_append,
    List.map_cons, List.sum_cons, hc, hf, disposalWeight]
  omega

theorem Inv.toDo_lt {s s' : State α} (h : Inv fields strongRoots weakRoots s) {a : Label}
    (hn : Drain.next fields s a = some s') : s'.toDo fields < s.toDo fields := by
  cases a with
  | eject k =>
    simp only [Drain.next] at hn
    split at hn
    · rename_i e hstack hk
      cases hn
      have hsum := sum_map_eraseIdx entryWeight s.pending k e hk
      have he : (eject e).weight < entryWeight e := by
        obtain ⟨p, type⟩ := e
        cases type <;> simp [eject, Call.weight, entryWeight]
      simp only [State.toDo, hstack, List.map_cons, List.map_nil, List.sum_cons, List.sum_nil]
      omega
    · cases hn
  | run =>
    simp only [Drain.next] at hn
    split at hn
    · cases hn
    · rename_i c rest hs
      cases hn
      have hrest : s.toDo fields = c.weight + State.toDo fields { s with stack := rest } := by
        simp only [State.toDo, hs, List.map_cons, List.sum_cons]
        omega
      have hbag := bag_cons hs ▸ h.agrees
      cases c with
      | decrementRefCnt p =>
        have hnd : p ∉ s.disposed := by
          intro hd
          have h0 := h.agrees.expired p (by simpa [State.heap] using hd)
          have hp := Agrees.strong_pos hbag
          omega
        simp only [Drain.makeCall]
        split
        · split
          · rw [hrest]
            refine lt_of_eq_of_lt (toDo_dispose hnd rfl) ?_
            simp only [Call.weight, State.toDo]
            omega
          · rw [hrest]
            simp only [State.toDo, List.map_append, List.sum_append, List.map_cons, List.map_nil,
              List.sum_cons, List.sum_nil, Call.weight, entryWeight]
            omega
        · rw [hrest]
          simp only [State.toDo, Call.weight]
          omega
      | decrementWeakCnt p =>
        rw [hrest]
        simp only [Drain.makeCall]
        split <;> simp only [State.toDo, State.destroy, Call.weight] <;> omega
      | dispose p =>
        have hnd : p ∉ s.disposed := by
          have := (Agrees.not_disposed hbag).2.1
          simpa [State.heap] using this
        rw [hrest]
        refine lt_of_eq_of_lt (toDo_dispose hnd rfl) ?_
        simp only [Call.weight]
        omega
      | destroy p =>
        rw [hrest]
        simp only [Drain.makeCall, State.toDo, State.destroy, Call.weight]
        omega
      | retire e =>
        rw [hrest]
        simp only [Drain.makeCall, State.toDo, List.map_append, List.sum_append, List.map_cons,
          List.map_nil, List.sum_cons, List.sum_nil, Call.weight]
        omega

/-! ## The drains of a heap -/

omit [Fintype α] in
theorem count_coe (l : List (Entry α)) (e : Entry α) : (l : Multiset (Entry α)).count e = l.count e := by
  induction l with
  | nil => rfl
  | cons f l ih =>
    rw [← Multiset.cons_coe, Multiset.count_cons, ih, List.count_cons]
    by_cases hef : e = f
    · simp [hef]
    · have hfe : f ≠ e := Ne.symm hef
      simp [hef, hfe]

theorem undisposed_coe (f : α → Nat) (l : List α) :
    undisposed f (l : Multiset α) = ∑ o with o ∉ l, f o := by
  rw [Finset.sum_filter]
  refine Finset.sum_congr rfl fun o _ => ?_
  by_cases ho : o ∈ l <;> simp [ho]

theorem CountsAgree.inv {s : State α} (h : CountsAgree fields strongRoots weakRoots s) :
    Inv fields strongRoots weakRoots s := by
  have hbag : s.bag = (s.pending : Multiset (Entry α)) := by
    simp [State.bag, h.stack]
  have hweak : s.heap.weak = s.weak := by
    funext p
    simp [State.heap, h.deleted]
  refine ⟨⟨fun p => ?_, fun p => ?_, fun p => ?_, fun p hp => ?_, fun p => ?_, ?_, ?_⟩, fun p hp => ?_⟩
  · rw [hbag, count_coe]
    simp only [State.heap]
    rw [undisposed_coe]
    exact h.strong p
  · rw [hbag, count_coe, hweak]
    simp only [State.heap]
    rw [undisposed_coe, heldByStrong]
    simpa using h.weak p
  · rw [hbag, count_coe]
    simpa [State.heap] using h.dispose p
  · exact h.expired p (by simpa [State.heap] using hp)
  · have := h.allocated p
    rw [hweak]
    simp only [State.heap, h.deleted, Multiset.coe_nil, Multiset.notMem_zero, false_iff]
    omega
  · simpa [State.heap] using h.disposed
  · simp [State.heap, h.deleted]
  · simp [h.stack] at hp

/-- A run keeps the invariant, is made of abstract steps and has a bounded length. -/
theorem Inv.exec {run : List Label} {s s' : State α} (h : Inv fields strongRoots weakRoots s)
    (he : (machine fields strongRoots weakRoots).exec run s = some s') :
    ReflTransGen (entries fields).Step s.abs s'.abs ∧ Inv fields strongRoots weakRoots s' ∧
      run.length + s'.toDo fields ≤ s.toDo fields := by
  induction run generalizing s with
  | nil =>
    cases he
    exact ⟨ReflTransGen.refl, h, by simp⟩
  | cons a run ih =>
    obtain ⟨t, ht, he⟩ := Option.bind_eq_some_iff.mp he
    obtain ⟨hst, hit⟩ := h.next ht
    obtain ⟨hts, his, hlen⟩ := ih hit he
    have hlt := h.toDo_lt ht
    refine ⟨hst.trans hts, his, ?_⟩
    simp only [List.length_cons]
    omega

omit [Fintype α] in
/-- A state in which something is left to do has a next step. -/
theorem drained_or_next (s : State α) : s.Drained ∨ ∃ a s', next fields s a = some s' := by
  cases hs : s.stack with
  | cons c rest => exact Or.inr ⟨.run, _, by simp only [next, hs]; rfl⟩
  | nil =>
    cases hp : s.pending with
    | nil => exact Or.inl ⟨hs, hp⟩
    | cons e l => exact Or.inr ⟨.eject 0, _, by simp only [next, hs, hp, List.getElem?_cons_zero]; rfl⟩

/-- Whatever the order of the ejects: a drain ends after a bounded number of steps and not
before nothing is left to do, disposes of each object and deletes each object at most
once, and leaves behind what every other drain leaves behind. -/
theorem drain_confluent (fields : α → List (Field α)) (strongRoots weakRoots : α → Nat)
    {s : State α} (h : CountsAgree fields strongRoots weakRoots s) :
    (∀ run s', (machine fields strongRoots weakRoots).exec run s = some s' →
      run.length ≤ s.toDo fields ∧ (s'.Drained ∨ ∃ a s'', next fields s' a = some s'') ∧
        s'.disposed.Nodup ∧ s'.deleted.Nodup) ∧
    ∀ run₁ run₂ s₁ s₂, (machine fields strongRoots weakRoots).exec run₁ s = some s₁ →
      (machine fields strongRoots weakRoots).exec run₂ s = some s₂ → s₁.Drained → s₂.Drained →
      (∀ p, p ∈ s₁.disposed ↔ p ∈ s₂.disposed) ∧ (∀ p, p ∈ s₁.deleted ↔ p ∈ s₂.deleted) ∧
        ∀ p, p ∉ s₁.deleted → s₁.strong p = s₂.strong p ∧ s₁.weak p = s₂.weak p := by
  refine ⟨fun run s' he => ?_, fun run₁ run₂ s₁ s₂ he₁ he₂ hd₁ hd₂ => ?_⟩
  · obtain ⟨_, hi, hlen⟩ := h.inv.exec he
    refine ⟨by omega, drained_or_next s', ?_, ?_⟩
    · simpa [State.heap] using hi.agrees.disposedOnce
    · simpa [State.heap] using hi.agrees.deletedOnce
  · have hbag : ∀ s' : State α, s'.Drained → s'.abs = (s'.heap, 0) := by
      intro s' hd
      simp [State.abs, State.bag, hd.1, hd.2]
    have hr₁ := (h.inv.exec he₁).1
    have hr₂ := (h.inv.exec he₂).1
    rw [hbag s₁ hd₁] at hr₁
    rw [hbag s₂ hd₂] at hr₂
    have heq := Tasks.final_unique (entries_commute fields) hr₁ hr₂
    have hdisposed : ∀ p, p ∈ s₁.disposed ↔ p ∈ s₂.disposed := fun p => by
      have := congrArg (p ∈ ·.disposed) heq
      simpa [State.heap] using this
    have hdeleted : ∀ p, p ∈ s₁.deleted ↔ p ∈ s₂.deleted := fun p => by
      have := congrArg (p ∈ ·.deleted) heq
      simpa [State.heap] using this
    refine ⟨hdisposed, hdeleted, fun p hp => ?_⟩
    have hs := congrFun (congrArg Heap.strong heq) p
    have hw := congrFun (congrArg Heap.weak heq) p
    have hp₂ : p ∉ s₂.deleted := fun hm => hp ((hdeleted p).mpr hm)
    simp only [State.heap, if_neg hp, if_neg hp₂] at hs hw
    exact ⟨hs, hw⟩

/-- Object `0` holds a strong and a weak pointer to object `1`. -/
def chainFields : Fin 2 → List (Field (Fin 2))
  | 0 => [.rcPtr 1, .weakPtr 1]
  | 1 => []

/-- The only reference to object `0` is about to be dropped. -/
def chain : State (Fin 2) where
  strong _ := 1
  weak p := if p = 0 then 1 else 2
  disposed := []
  deleted := []
  stack := []
  pending := [(0, .decrementStrongCount)]

/-- Object `0` goes the immediate route, object `1` the delayed one. -/
theorem drain_confluent_chain : ∃ s, (machine chainFields (fun _ => 0) (fun _ => 0)).exec
      (.eject 0 :: List.replicate 4 .run ++ .eject 0 :: List.replicate 2 .run) chain = some s ∧
    s.Drained ∧ s.deleted = [0, 1] ∧ s.deleted.Nodup := by
  have h : CountsAgree chainFields (fun _ => 0) (fun _ => 0) chain :=
    ⟨rfl, rfl, by decide, by decide, by decide, by decide, by decide, by decide⟩
  have he : ∃ s, (machine chainFields (fun _ => 0) (fun _ => 0)).exec
      (.eject 0 :: List.replicate 4 .run ++ .eject 0 :: List.replicate 2 .run) chain = some s ∧
      s.Drained ∧ s.deleted = [0, 1] := ⟨_, rfl, ⟨rfl, rfl⟩, rfl⟩
  obtain ⟨s, he, hd, hdel⟩ := he
  exact ⟨s, he, hd, hdel, ((drain_confluent _ _ _ h).1 _ s he).2.2.2⟩

end Cdrc.Drain
