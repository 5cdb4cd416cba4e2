import Mathlib.Data.Int.ConditionallyCompleteOrder
import Mathlib.Order.ConditionallyCompleteLattice.Basic
import Cdrc.Lib.Paths
import Cdrc.LinkedList.Code

/-! # The invariant of `atomic_linked_list`

The keys grow along every `next`, also in nodes that have been removed, and the nodes from
`head` lead to `tail`. Every node that is not marked and that somebody can reach is on that
path (`ListInv.live`), so the set is the keys of the nodes on the path without a mark.

A `search` goes through nodes that may have left the path. What it knows at the end was
true at some moment since the call began (`Saw`): a node without a mark was on the path when
its `next` was read, and no key was between the two. -/
namespace Cdrc.LinkedList
open Cdrc.Lib.Objects Cdrc.Lib.History Cdrc.Lib.Paths

variable {α : Type} {n : Nat}

def nextOf (node : α → Option (Node α)) (x : α) : Option α := (node x).bind Node.next

def Marked (node : α → Option (Node α)) (x : α) : Prop := ∃ nd, node x = some nd ∧ nd.mark = true

/-- The nodes from `x` to `y` are marked, `y` itself perhaps not. -/
def Trail (node : α → Option (Node α)) : α → α → Prop :=
  Relation.ReflTransGen fun u v => nextOf node u = some v ∧ Marked node u

/-- A shared location or a snapshot refers to `a`. -/
def Seen (s : State α n) (a : α) : Prop :=
  a = s.head ∨ (∃ b, nextOf s.node b = some a) ∨ ∃ t, a ∈ (s.pc t).snapshots

/-- The node of the call has not been published. -/
structure Private (s : State α n) (t : Fin n) (a : α) : Prop where
  hidden : ¬ Seen s a
  others : ∀ u, u ≠ t → (s.pc u).newNode ≠ some a

/-- The key of a node on the path that is not marked. -/
def Present (s : State α n) (l : List α) (key : Int) : Prop :=
  ∃ x nd, x ∈ l ∧ x ≠ s.tail ∧ s.node x = some nd ∧ nd.mark = false ∧ nd.key = key

/-- No key between `a` and `b`. -/
def Gap (a b : Int) (S : Finset Int) : Prop := ∀ key, a < key → key < b → key ∉ S

def Goal.op (key : Int) : Goal → Op
  | .find => .find key
  | .insert => .insert key
  | .remove => .remove key
  | .removed => .remove key

/-- The operation that a call at this point performs. -/
def Performs (pc : Pc α) (o : Op) : Prop :=
  match pc with
  | .idle => False
  | .search goal key _ => o = goal.op key
  | .insertNew key _ _ => o = .insert key
  | .insertCas key _ _ _ => o = .insert key
  | .removeNext key _ _ => o = .remove key
  | .removeMark key _ _ _ => o = .remove key
  | .removeUnlink key _ _ _ => o = .remove key
  | .ret _ => True

/-- The response of a call that has taken effect. -/
def retOf : Pc α → Option Bool
  | .search .removed _ _ => some true
  | .removeUnlink _ _ _ _ => some true
  | .ret r => some r
  | _ => none

def InRange (key : Int) : Prop := lowestKey ≤ key ∧ key < maxKey

variable [DecidableEq α]

/-- The key of a node, where the head sentinel comes before every `int`. -/
def rank (head : α) (node : α → Option (Node α)) (a : α) : Int :=
  if a = head then lowestKey - 1 else ((node a).map Node.key).getD 0

section Knows
variable (s : State α n) (L : List (Entry Op Bool)) (i : Nat) (key : Int)

/-- The key comes after `left` and not after `right`, and there was a moment since the call
began at which no key was between them. -/
structure Between (left : Option α) (right : α) : Prop where
  left_lt : ∃ l, left = some l ∧ rank s.head s.node l < key
  le_right : key ≤ rank s.head s.node right
  gap : ∀ l, left = some l →
    Saw set s.calls.hist L i (Gap (rank s.head s.node l) (rank s.head s.node right))

/-- What a `search` knows of its snapshots. -/
def SearchKnows : Search α → Prop
  | .head => True
  | .first right => right = s.head
  | .next left leftNxt right => right ≠ s.head ∧ ∃ l, left = some l ∧ rank s.head s.node l < key ∧
      match leftNxt with
      | none => Saw set s.calls.hist L i (Gap (rank s.head s.node l) (rank s.head s.node right))
      | some leftNxt => Trail s.node leftNxt right
  | .unlink left leftNxt right => (∃ l, left = some l ∧ rank s.head s.node l < key) ∧
      key ≤ rank s.head s.node right ∧ Trail s.node leftNxt right
  | .check left right => Between s L i key left right

/-- What a call knows of its snapshots. -/
def Knows : Pc α → Prop
  | .search _ key st => InRange key ∧ SearchKnows s L i key st
  | .insertNew key left right => InRange key ∧
      (∃ l, left = some l ∧ rank s.head s.node l < key) ∧ key < rank s.head s.node right
  | .insertCas key left right newNode => InRange key ∧
      (∃ l, left = some l ∧ rank s.head s.node l < key) ∧ key < rank s.head s.node right ∧
      s.node newNode = some ⟨key, some right, false⟩
  | .removeNext key left right => InRange key ∧
      (∃ l, left = some l ∧ rank s.head s.node l < key) ∧ rank s.head s.node right = key
  | .removeMark key left right next => InRange key ∧
      (∃ l, left = some l ∧ rank s.head s.node l < key) ∧ rank s.head s.node right = key ∧
      ∃ y, next = some y
  | .removeUnlink key left right next => InRange key ∧
      (∃ l, left = some l ∧ rank s.head s.node l < key) ∧
      ∃ y, next = some y ∧ nextOf s.node right = some y ∧ Marked s.node right
  | _ => True

end Knows

/-- The nodes and the path. -/
structure ListInv (s : State α n) (l : List α) : Prop where
  path : Path (nextOf s.node) s.head l s.tail
  ascending : Ascending (nextOf s.node) (rank s.head s.node)
  closed : ∀ x y, nextOf s.node x = some y → ∃ nd, s.node y = some nd
  goes_on : ∀ x nd, s.node x = some nd → x ≠ s.tail → ∃ y, nd.next = some y
  head : ∃ nd, s.node s.head = some nd ∧ nd.mark = false
  tail : s.node s.tail = some ⟨maxKey, none, false⟩
  sentinels : s.head ≠ s.tail
  keys : ∀ x nd, s.node x = some nd → lowestKey ≤ nd.key
  live : ∀ x nd, s.node x = some nd → nd.mark = false → Seen s x → x = s.head ∨ x ∈ l

structure ThreadInv (s : State α n) (L : List (Entry Op Bool)) (t : Fin n) : Prop where
  op : s.pc t ≠ .idle → ∃ i o, s.calls.call t = some (i, o) ∧ Performs (s.pc t) o ∧
    Knows s L i (s.pc t)
  owned : ∀ a, (s.pc t).newNode = some a → Private s t a
  allocated : ∀ a, (s.pc t).newNode = some a ∨ a ∈ (s.pc t).snapshots → ∃ nd, s.node a = some nd

structure Inv (s : State α n) (L : List (Entry Op Bool)) (l : List α) : Prop where
  tracks : Tracks s.calls L fun t => retOf (s.pc t)
  legal : set.Legal L
  contents : ∀ key, key ∈ set.after ∅ L ↔ Present s l key
  list : ListInv s l
  threads : ∀ t, ThreadInv s L t

/-! ## Frames -/

section Frames
variable {s s' : State α n} {t u : Fin n} {L L' : List (Entry Op Bool)} {i : Nat}
  {node node' : α → Option (Node α)} {head x y : α}

/-- The node at `x` is still there, with its key, and untouched if it was marked. -/
def Stays (node node' : α → Option (Node α)) (x : α) : Prop :=
  ∀ nd, node x = some nd → ∃ nd', node' x = some nd' ∧ nd'.key = nd.key ∧ (nd.mark = true → nd' = nd)

omit [DecidableEq α] in
theorem Stays.of_eq (h : node' x = node x) : Stays node node' x :=
  fun nd hnd => ⟨nd, h ▸ hnd, rfl, fun _ => rfl⟩

theorem Stays.rank (h : Stays node node' x) (hx : ∃ nd, node x = some nd) :
    rank head node' x = rank head node x := by
  obtain ⟨nd, hnd⟩ := hx
  obtain ⟨nd', hnd', hkey, _⟩ := h nd hnd
  simp only [LinkedList.rank, hnd, hnd', Option.map_some, hkey]

omit [DecidableEq α] in
theorem Stays.marked (h : Stays node node' x) (hx : Marked node x) : node' x = node x := by
  obtain ⟨nd, hnd, hm⟩ := hx
  obtain ⟨nd', hnd', _, heq⟩ := h nd hnd
  rw [hnd, hnd', heq hm]

theorem rank_of_ne {nd : Node α} (hx : x ≠ head) (hnd : node x = some nd) :
    rank head node x = nd.key := by
  simp [rank, hx, hnd]

omit [DecidableEq α] in
theorem Trail.frame (h : Trail node x y) (hx : Stays node node' x)
    (hn : ∀ u v, nextOf node u = some v → Stays node node' v) : Trail node' x y := by
  induction h using Relation.ReflTransGen.head_induction_on with
  | refl => exact Relation.ReflTransGen.refl
  | @head u v huv _ ih =>
    have heq := hx.marked huv.2
    refine Relation.ReflTransGen.head ⟨?_, ?_⟩ (ih (hn u v huv.1))
    · rw [nextOf, heq]
      exact huv.1
    · rw [Marked, heq]
      exact huv.2

/-- What a step leaves alone for a thread that does not take it. -/
structure Frame (s s' : State α n) (u : Fin n) : Prop where
  pc : s'.pc u = s.pc u
  call : s'.calls.call u = s.calls.call u
  head : s'.head = s.head
  stays : ∀ x, x ∈ (s.pc u).snapshots ∨ (∃ b, nextOf s.node b = some x) → Stays s.node s'.node x
  own : ∀ a, (s.pc u).newNode = some a → s'.node a = s.node a

/-- The order still has what a call has seen. -/
def KeepsSaw (s s' : State α n) (L L' : List (Entry Op Bool)) (i : Nat) : Prop :=
  ∀ P, Saw set s.calls.hist L i P → Saw set s'.calls.hist L' i P

omit [DecidableEq α] in
theorem KeepsSaw.refl : KeepsSaw s s L L i := fun _ h => h

theorem Frame.rank (f : Frame s s' u) (h : ThreadInv s L u) (hx : x ∈ (s.pc u).snapshots) :
    rank s'.head s'.node x = rank s.head s.node x := by
  rw [f.head]
  exact (f.stays x (Or.inl hx)).rank (h.allocated x (Or.inr hx))

omit [DecidableEq α] in
theorem Frame.trail (f : Frame s s' u) (hx : x ∈ (s.pc u).snapshots) (ht : Trail s.node x y) :
    Trail s'.node x y :=
  ht.frame (f.stays x (Or.inl hx)) fun b v hb => f.stays v (Or.inr ⟨b, hb⟩)

theorem Frame.left (f : Frame s s' u) (h : ThreadInv s L u) {left : Option α} {key : Int}
    (hs : ∀ l, left = some l → l ∈ (s.pc u).snapshots)
    (hl : ∃ l, left = some l ∧ LinkedList.rank s.head s.node l < key) :
    ∃ l, left = some l ∧ LinkedList.rank s'.head s'.node l < key := by
  obtain ⟨l, hl, hlt⟩ := hl
  exact ⟨l, hl, by rwa [f.rank h (hs l hl)]⟩

theorem Frame.searchKnows (f : Frame s s' u) (h : ThreadInv s L u) (hsaw : KeepsSaw s s' L L' i)
    {key : Int} {st : Search α} (hst : ∀ a, a ∈ st.snapshots → a ∈ (s.pc u).snapshots)
    (hk : SearchKnows s L i key st) : SearchKnows s' L' i key st := by
  cases st with
  | head => trivial
  | first right =>
    rw [SearchKnows, f.head]
    exact hk
  | next left leftNxt right =>
    obtain ⟨hne, l, rfl, hlt, hm⟩ := hk
    have hl : l ∈ (s.pc u).snapshots := hst l (by simp [Search.snapshots])
    have hr : right ∈ (s.pc u).snapshots := hst right (by simp [Search.snapshots])
    refine ⟨by rwa [f.head], l, rfl, by rwa [f.rank h hl], ?_⟩
    cases leftNxt with
    | none =>
      rw [f.rank h hl, f.rank h hr]
      exact hsaw _ hm
    | some leftNxt => exact f.trail (hst leftNxt (by simp [Search.snapshots])) hm
  | unlink left leftNxt right =>
    obtain ⟨hl, hle, ht⟩ := hk
    refine ⟨f.left h (fun l hl => hst l (by simp [Search.snapshots, hl])) hl, ?_,
      f.trail (hst leftNxt (by simp [Search.snapshots])) ht⟩
    rwa [f.rank h (hst right (by simp [Search.snapshots]))]
  | check left right =>
    have hl : ∀ l, left = some l → l ∈ (s.pc u).snapshots :=
      fun l hl => hst l (by simp [Search.snapshots, hl])
    have hr : right ∈ (s.pc u).snapshots := hst right (by simp [Search.snapshots])
    refine ⟨f.left h hl hk.left_lt, ?_, fun l he => ?_⟩
    · rw [f.rank h hr]
      exact hk.le_right
    · rw [f.rank h hr, f.rank h (hl l he)]
      exact hsaw _ (hk.gap l he)

theorem Frame.knows (f : Frame s s' u) (h : ThreadInv s L u) (hsaw : KeepsSaw s s' L L' i)
    (hk : Knows s L i (s.pc u)) : Knows s' L' i (s.pc u) := by
  have hrank : ∀ x, x ∈ (s.pc u).snapshots →
      LinkedList.rank s'.head s'.node x = LinkedList.rank s.head s.node x := fun x hx => f.rank h hx
  have hleft : ∀ left key, (∀ l, left = some l → l ∈ (s.pc u).snapshots) →
      (∃ l, left = some l ∧ LinkedList.rank s.head s.node l < key) →
      ∃ l, left = some l ∧ LinkedList.rank s'.head s'.node l < key :=
    fun left key hs hl => f.left h hs hl
  have hown := f.own
  have hstays := f.stays
  cases hpc : s.pc u with
  | search goal key st =>
    rw [hpc] at hk
    exact ⟨hk.1, f.searchKnows h hsaw (fun a ha => by rw [hpc]; exact ha) hk.2⟩
  | insertNew key left right =>
    rw [hpc] at hk hrank hleft
    refine ⟨hk.1, hleft left key (fun l hl => by simp [Pc.snapshots, hl]) hk.2.1, ?_⟩
    rw [hrank right (by simp [Pc.snapshots])]
    exact hk.2.2
  | insertCas key left right newNode =>
    rw [hpc] at hk hrank hleft hown
    refine ⟨hk.1, hleft left key (fun l hl => by simp [Pc.snapshots, hl]) hk.2.1, ?_, ?_⟩
    · rw [hrank right (by simp [Pc.snapshots])]
      exact hk.2.2.1
    · rw [hown newNode rfl]
      exact hk.2.2.2
  | removeNext key left right =>
    rw [hpc] at hk hrank hleft
    refine ⟨hk.1, hleft left key (fun l hl => by simp [Pc.snapshots, hl]) hk.2.1, ?_⟩
    rw [hrank right (by simp [Pc.snapshots])]
    exact hk.2.2
  | removeMark key left right next =>
    rw [hpc] at hk hrank hleft
    refine ⟨hk.1, hleft left key (fun l hl => by simp [Pc.snapshots, hl]) hk.2.1, ?_, hk.2.2.2⟩
    rw [hrank right (by simp [Pc.snapshots])]
    exact hk.2.2.1
  | removeUnlink key left right next =>
    rw [hpc] at hk hleft hstays
    obtain ⟨hrange, hl, y, hnext, hy, hm⟩ := hk
    have heq := (hstays right (Or.inl (by simp [Pc.snapshots]))).marked hm
    refine ⟨hrange, hleft left key (fun l hl => by simp [Pc.snapshots, hl]) hl, y, hnext, ?_, ?_⟩
    · rw [nextOf, heq]
      exact hy
    · rw [Marked, heq]
      exact hm
  | idle => trivial
  | ret r => trivial

theorem ThreadInv.frame (h : ThreadInv s L u) (f : Frame s s' u)
    (hsaw : ∀ i o, s.calls.call u = some (i, o) → KeepsSaw s s' L L' i)
    (hp : ∀ a, (s.pc u).newNode = some a → Private s u a → Private s' u a) :
    ThreadInv s' L' u where
  op := by
    rw [f.pc, f.call]
    intro hi
    obtain ⟨i, o, hc, ho, hk⟩ := h.op hi
    exact ⟨i, o, hc, ho, f.knows h (hsaw i o hc) hk⟩
  owned := by
    rw [f.pc]
    exact fun a ha => hp a ha (h.owned a ha)
  allocated := by
    rw [f.pc]
    intro a ha
    obtain ⟨nd, hnd⟩ := h.allocated a ha
    rcases ha with ha | ha
    · exact ⟨nd, by rw [f.own a ha, hnd]⟩
    · obtain ⟨nd', hnd', _⟩ := f.stays a (Or.inl ha) nd hnd
      exact ⟨nd', hnd'⟩

/-- A step of thread `t`: the others keep their part when it leaves alone what they use
and shows no private node of theirs. -/
theorem threads_step (h : ∀ v, ThreadInv s L v) (hf : ∀ v, v ≠ t → Frame s s' v)
    (hsaw : ∀ v i o, v ≠ t → s.calls.call v = some (i, o) → KeepsSaw s s' L L' i)
    (hsafe : ∀ v a, v ≠ t → (s.pc v).newNode = some a → Private s v a →
      ¬ Seen s' a ∧ (s'.pc t).newNode ≠ some a)
    (ht : ThreadInv s' L' t) (v : Fin n) : ThreadInv s' L' v := by
  by_cases hv : v = t
  · rw [hv]
    exact ht
  · refine (h v).frame (hf v hv) (fun i o hc => hsaw v i o hv hc) fun a ho hp => ?_
    obtain ⟨hhid, hnew⟩ := hsafe v a hv ho hp
    refine ⟨hhid, fun w hw => ?_⟩
    by_cases hwt : w = t
    · rw [hwt]
      exact hnew
    · rw [(hf w hwt).pc]
      exact hp.others w hw

omit [DecidableEq α] in
@[simp] theorem setPc_self (s : State α n) (t : Fin n) (pc : Pc α) :
    (s.setPc t pc).pc t = pc := by
  simp [State.setPc]

omit [DecidableEq α] in
theorem setPc_of_ne (s : State α n) (pc : Pc α) (h : u ≠ t) :
    (s.setPc t pc).pc u = s.pc u := by
  simp [State.setPc, Function.update_of_ne h]

omit [DecidableEq α] in
variable (s) in
theorem retOf_setPc (pc : Pc α) :
    (fun v => retOf ((s.setPc t pc).pc v)) =
      Function.update (fun v => retOf (s.pc v)) t (retOf pc) := by
  funext v
  by_cases hv : v = t
  · rw [hv, Function.update_self, setPc_self]
  · rw [Function.update_of_ne hv, setPc_of_ne s pc hv]

end Frames

end Cdrc.LinkedList
