import Cdrc.LinkedList.Steps

/-! # `atomic_linked_list` used by one thread

The calls run one after the other, each to its end, with any `int` as a key. Every node
lives at an address of its own: a node that was removed stays in memory, where nothing
leads to it any more.

Between two calls no node of the list is marked. With that, the list is the set of the
keys between its sentinels as long as no key is that of the tail sentinel. A call with
that key takes the sentinel for a node of the set: `find` returns true, `insert` false, and
`remove` unlinks it, after which a `search` runs into the null `next`. -/
namespace Cdrc.LinkedList
open Cdrc.Lib.Paths Cdrc.Lib.Objects

/-- The steps of a call, to its return; `a` is the address `make_shared` gets. -/
def finish (a : Nat) : Nat → State Nat 1 → Option (State Nat 1 × Bool)
  | 0, _ => none
  | fuel + 1, s =>
    match s.pc 0 with
    | .ret r => some (s.setPc 0 .idle, r)
    | _ => (step s 0 a).bind (finish a fuel)

/-- The calls one after the other, with the responses. -/
def runCalls (fuel : Nat) : Nat → State Nat 1 → List Op → Option (State Nat 1 × List Bool)
  | _, s, [] => some (s, [])
  | a, s, o :: ops =>
    (finish a fuel (s.setPc 0 (start o))).bind fun (t, r) =>
      (runCalls fuel (a + 1) t ops).map fun (u, rs) => (u, r :: rs)

/-- The responses of the sequential set. -/
def responses (S : Finset Int) : List Op → List Bool
  | [] => []
  | o :: ops => (set.apply S o).2 :: responses (set.apply S o).1 ops

/-- The sentinels are what they were, and the tail is reached from the head. -/
structure SentinelsLinked (s : State Nat 1) : Prop where
  head : ∃ next, s.node s.head = some ⟨lowestKey, next, false⟩
  tail : s.node s.tail = some ⟨maxKey, none, false⟩
  path : ∃ l, Path (nextOf s.node) s.head l s.tail

/-- Every call returns, with the response of the set, and leaves the sentinels linked. A call
that follows a null pointer does not return. -/
def BehavesAsSet (ops : List Op) : Prop :=
  ∀ pre, pre <+: ops → ∃ fuel s,
    runCalls fuel 2 (.initial 0 1) pre = some (s, responses ∅ pre) ∧ SentinelsLinked s

/-! ## Calls that return -/

section Returns
variable {a fuel : Nat} {s s' t : State Nat 1} {r : Bool} {pc : Pc Nat}

def Returns (a : Nat) (s t : State Nat 1) (r : Bool) : Prop := ∃ fuel, finish a fuel s = some (t, r)

theorem finish_add (h : finish a fuel s = some (t, r)) (extra : Nat) :
    finish a (fuel + extra) s = some (t, r) := by
  induction fuel generalizing s with
  | zero => cases h
  | succ fuel ih =>
    rw [Nat.succ_add]
    unfold finish at h ⊢
    split at h
    · exact h
    · obtain ⟨u, hu, hf⟩ := Option.bind_eq_some_iff.mp h
      rw [hu]
      exact ih hf

theorem Returns.unique {t' : State Nat 1} {r' : Bool} (h : Returns a s t r)
    (h' : finish a fuel s = some (t', r')) : t' = t ∧ r' = r := by
  obtain ⟨f, hf⟩ := h
  have h1 := finish_add hf fuel
  have h2 := finish_add h' f
  rw [Nat.add_comm, h1] at h2
  cases h2
  exact ⟨rfl, rfl⟩

theorem Returns.ret : Returns a (s.setPc 0 (.ret r)) (s.setPc 0 .idle) r :=
  ⟨1, by simp [finish, State.setPc]⟩

theorem Returns.step (hs : step s 0 a = some s') (h : Returns a s' t r)
    (hpc : ∀ b, s.pc 0 ≠ .ret b) : Returns a s t r := by
  obtain ⟨fuel, hf⟩ := h
  refine ⟨fuel + 1, ?_⟩
  unfold finish
  split
  · next b hb => exact absurd hb (hpc b)
  · rw [hs]
    exact hf

end Returns

/-! ## The list between two calls -/

/-- The nodes, of which those at addresses from `a` on are not allocated, and the list. -/
structure Shape (s : State Nat 1) (a : Nat) (l : List Nat) : Prop where
  path : Path (nextOf s.node) s.head l s.tail
  ascending : Ascending (nextOf s.node) (rank s.head s.node)
  closed : ∀ x y, nextOf s.node x = some y → ∃ nd, s.node y = some nd
  head : ∃ nd, s.node s.head = some nd ∧ nd.key = lowestKey
  tail : s.node s.tail = some ⟨maxKey, none, false⟩
  sentinels : s.head ≠ s.tail
  fresh : ∀ b, a ≤ b → s.node b = none

/-- No node is marked, and their keys are the set. -/
structure Holds (s : State Nat 1) (a : Nat) (S : Finset Int) (l : List Nat) : Prop
    extends Shape s a l where
  unmarked : ∀ x, x = s.head ∨ x ∈ l → ∃ nd, s.node x = some nd ∧ nd.mark = false
  contents : ∀ key, key ∈ S ↔ ∃ x ∈ l, x ≠ s.tail ∧ rank s.head s.node x = key

section Shape
variable {s : State Nat 1} {a x y z : Nat} {l A B : List Nat} {nx ny : Node Nat} {S : Finset Int}

theorem Shape.setPc (h : Shape s a l) (pc : Pc Nat) : Shape (s.setPc 0 pc) a l :=
  ⟨h.path, h.ascending, h.closed, h.head, h.tail, h.sentinels, h.fresh⟩

theorem Holds.setPc (h : Holds s a S l) (pc : Pc Nat) : Holds (s.setPc 0 pc) a S l :=
  ⟨h.toShape.setPc pc, h.unmarked, h.contents⟩

theorem Shape.mono (h : Shape s a l) {b : Nat} (hb : a ≤ b) : Shape s b l :=
  { h with fresh := fun c hc => h.fresh c (hb.trans hc) }

theorem Holds.linked (h : Holds s a S l) : SentinelsLinked s := by
  obtain ⟨nd, hnd, hkey⟩ := h.head
  obtain ⟨nd', hnd', hm⟩ := h.unmarked s.head (Or.inl rfl)
  obtain rfl : nd = nd' := Option.some.inj (hnd.symm.trans hnd')
  obtain ⟨key, next, mark⟩ := nd
  cases hkey
  cases hm
  exact ⟨⟨next, hnd⟩, h.tail, l, h.path⟩

theorem Shape.rank_tail (h : Shape s a l) : rank s.head s.node s.tail = maxKey :=
  rank_of_ne h.sentinels.symm h.tail

theorem Shape.end (h : Shape s a l) : nextOf s.node s.tail = none := by
  simp [nextOf, h.tail]

theorem Shape.ne_head (h : Shape s a l) (hx : x ∈ l) : x ≠ s.head :=
  h.path.ne_first h.ascending hx

/-- The list is cut between `x` and its successor. -/
theorem Shape.cut (h : Shape s a l) (hx : x = s.head ∨ x ∈ l) (hy : nextOf s.node x = some y) :
    ∃ A B, l = A ++ y :: B ∧ Path (nextOf s.node) s.head A x ∧
      Path (nextOf s.node) y B s.tail :=
  h.path.cut h.end hx hy

theorem Shape.rank_le (h : Shape s a l) (hx : x ∈ l) : rank s.head s.node x ≤ maxKey := by
  rw [← h.rank_tail]
  exact h.path.rank_le h.ascending (Or.inr hx)

end Shape

/-! ## A search -/

/-- The two nodes a `search` for `key` ends at. -/
structure Spot (s : State Nat 1) (l : List Nat) (key : Int) (x y : Nat) (nx ny : Node Nat) :
    Prop where
  left : s.node x = some nx ∧ nx.next = some y ∧ nx.mark = false
  right : s.node y = some ny ∧ ny.mark = false
  on : x = s.head ∨ x ∈ l
  mem : y ∈ l
  left_lt : rank s.head s.node x < key
  le_right : key ≤ rank s.head s.node y

section Search
variable {s : State Nat 1} {a x y : Nat} {l B : List Nat} {nx ny : Node Nat} {S : Finset Int}
  {key : Int} {goal : Goal}

/-- The loop of `search`, at an unmarked `left` and its successor. The induction is on the
nodes that follow. -/
theorem Holds.search_loop (h : Holds s a S l) (goal : Goal) (hkey : key ≤ maxKey) (hx : x = s.head ∨ x ∈ l)
    (hy : nextOf s.node x = some y) (hlt : rank s.head s.node x < key)
    (hB : Path (nextOf s.node) y B s.tail) :
    ∃ left right nl nr, Spot s l key left right nl nr ∧ ∀ t r,
      Returns a (s.setPc 0 (.search goal key (.check (some left) right))) t r →
        Returns a (s.setPc 0 (.search goal key (.next (some x) none y))) t r := by
  induction B generalizing x y with
  | nil =>
    obtain ⟨nx, hnx, hxm⟩ := h.unmarked x hx
    obtain rfl : y = s.tail := hB
    obtain ⟨A, B, hl, _, _⟩ := h.cut hx hy
    have hmem : s.tail ∈ l := by simp [hl]
    refine ⟨x, s.tail, nx, _, ⟨⟨hnx, ?_, hxm⟩, ⟨h.tail, rfl⟩, hx, hmem, hlt, ?_⟩, fun t r hr => ?_⟩
    · simpa [nextOf, hnx] using hy
    · rwa [h.rank_tail]
    · have hnot : ¬ maxKey < key := not_lt.mpr hkey
      refine Returns.step ?_ hr (by simp)
      simp [step, searchStep, State.setPc, h.tail, hnot]
  | cons z B ih =>
    obtain ⟨nx, hnx, hxm⟩ := h.unmarked x hx
    obtain ⟨A, C, hl, _, _⟩ := h.cut hx hy
    have hmem : y ∈ l := by simp [hl]
    obtain ⟨ny, hny, hym⟩ := h.unmarked y (Or.inr hmem)
    have hrank := rank_of_ne (h.ne_head hmem) hny
    have hz : ny.next = some z := by simpa [nextOf, hny] using hB.1
    by_cases hgo : ny.key < key
    · obtain ⟨left, right, nl, nr, hspot, hret⟩ :=
        ih (Or.inr hmem) hB.1 (by rwa [hrank]) hB.2
      refine ⟨left, right, nl, nr, hspot, fun t r hr => ?_⟩
      refine Returns.step ?_ (hret t r hr) (by simp)
      simp [step, searchStep, State.setPc, hny, hgo, advance, hz, hym]
    · refine ⟨x, y, nx, ny, ⟨⟨hnx, ?_, hxm⟩, ⟨hny, hym⟩, hx, hmem, hlt, ?_⟩, fun t r hr => ?_⟩
      · simpa [nextOf, hnx] using hy
      · rw [hrank]
        exact not_lt.mp hgo
      · refine Returns.step ?_ hr (by simp)
        simp [step, searchStep, State.setPc, hny, hgo, hym]

/-- A `search` returns two neighbours with the key in between, from which its caller goes on. -/
theorem Holds.search (h : Holds s a S l) (hlow : lowestKey ≤ key) (hkey : key ≤ maxKey)
    (goal : Goal) :
    ∃ left right nl nr, Spot s l key left right nl nr ∧ ∀ t r,
      Returns a (s.setPc 0 (found goal key (some left) right nr)) t r →
        Returns a (s.setPc 0 (.search goal key .head)) t r := by
  obtain ⟨nh, hnh, hhm⟩ := h.unmarked s.head (Or.inl rfl)
  obtain ⟨y, B, hl⟩ : ∃ y B, l = y :: B := by
    cases hl : l with
    | nil =>
      have hp := h.path
      rw [hl] at hp
      exact absurd hp h.sentinels
    | cons y B => exact ⟨y, B, rfl⟩
  have hp := h.path
  rw [hl] at hp
  have hnext : nh.next = some y := by simpa [nextOf, hnh] using hp.1
  have hlt : rank s.head s.node s.head < key := by
    simp only [rank, if_true]
    omega
  obtain ⟨left, right, nl, nr, hspot, hret⟩ :=
    h.search_loop goal hkey (Or.inl rfl) hp.1 hlt hp.2
  refine ⟨left, right, nl, nr, hspot, fun t r hr => ?_⟩
  have hfirst : Returns a (s.setPc 0 (.search goal key (.first s.head))) t r := by
    refine Returns.step ?_ (hret t r (Returns.step ?_ hr (by simp))) (by simp)
    · simp [step, searchStep, State.setPc, hnh, advance, hnext, hhm]
    · simp [step, searchStep, State.setPc, hspot.right.1, hspot.right.2]
  refine Returns.step ?_ hfirst (by simp)
  simp [step, searchStep, State.setPc]

theorem Spot.right_key (h : Holds s a S l) (hs : Spot s l key x y nx ny) :
    rank s.head s.node y = ny.key :=
  rank_of_ne (h.ne_head hs.mem) hs.right.1

/-- The key is in the set if and only if the right node has it. -/
theorem Spot.mem_iff (h : Holds s a S l) (hs : Spot s l key x y nx ny) (hkey : key < maxKey) :
    key ∈ S ↔ ny.key = key := by
  have hrank := hs.right_key h
  have hle := hs.le_right
  rw [h.contents]
  constructor
  · intro hex
    obtain ⟨z, hz, _, hzk⟩ := hex
    have hgap := h.path.gap h.ascending h.end hs.on (nextOf_of hs.left.1 hs.left.2.1) (Or.inr hz)
    have hlt := hs.left_lt
    omega
  · intro he
    refine ⟨y, hs.mem, fun ht => ?_, hrank.trans he⟩
    subst ht
    rw [h.rank_tail] at hrank
    omega

end Search

/-! ## Changes of the list -/

section Changes
variable {s : State Nat 1} {a x y z : Nat} {l A B : List Nat} {nx ny : Node Nat} {S : Finset Int}
  {key : Int}

theorem Shape.lt_fresh (h : Shape s a l) (hx : s.node x = some nx) : x ≠ a := by
  intro hxa
  rw [hxa, h.fresh a le_rfl] at hx
  cases hx

/-- `make_shared` of a node that comes before `y`. -/
theorem Shape.make_shared (h : Shape s a l) (hy : s.node y = some ny)
    (hlt : key < rank s.head s.node y) :
    Shape (s.setNode a (some ⟨key, some y, false⟩)) (a + 1) l := by
  have hnone := h.fresh a le_rfl
  have hold : ∀ z w, nextOf s.node z = some w → z ≠ a := by
    intro z w hz
    obtain ⟨nd, hnd, _⟩ := nextOf_some hz
    exact h.lt_fresh hnd
  have hne : ∀ z nd, s.node z = some nd → (s.setNode a (some ⟨key, some y, false⟩)).node z = some nd := by
    intro z nd hz
    simp only [State.setNode, Function.update_of_ne (h.lt_fresh hz)]
    exact hz
  obtain ⟨nh, hnh, hhk⟩ := h.head
  refine ⟨?_, ?_, fun u v => ?_, ⟨nh, hne _ _ hnh, hhk⟩, hne _ _ h.tail, h.sentinels, ?_⟩
  · exact h.path.mono fun u v _ huv => (nextOf_setNode_of_ne (hold u v huv)).trans huv
  · exact ascending_allocate h.ascending h.closed hnone (h.lt_fresh hnh).symm hy hlt
  · refine closed_setNode h.closed fun v hv => ?_
    obtain rfl : y = v := Option.some.inj hv
    exact ⟨ny, hy⟩
  · intro b hb
    have hba : b ≠ a := by omega
    simp only [State.setNode, Function.update_of_ne hba]
    exact h.fresh b (by omega)

/-- The `next` of a node is written, or its mark. -/
theorem Shape.write (h : Shape s a l) (ny : Node Nat) (hx : s.node x = some nx)
    (hkey : ny.key = nx.key)
    (htail : x ≠ s.tail)
    (hnext : ∀ v, ny.next = some v →
      rank s.head s.node x < rank s.head s.node v ∧ ∃ nv, s.node v = some nv)
    {l' : List Nat} (hpath : Path (nextOf (s.setNode x (some ny)).node) s.head l' s.tail) :
    Shape (s.setNode x (some ny)) a l' := by
  have hstays : ∀ z nd, s.node z = some nd →
      ∃ nd', (s.setNode x (some ny)).node z = some nd' ∧ nd'.key = nd.key := by
    intro z nd hz
    by_cases hzx : z = x
    · subst hzx
      obtain rfl : nx = nd := Option.some.inj (hx.symm.trans hz)
      exact ⟨ny, by simp [State.setNode], hkey⟩
    · exact ⟨nd, by simpa [State.setNode, Function.update_of_ne hzx] using hz, rfl⟩
  obtain ⟨nh, hnh, hhk⟩ := h.head
  obtain ⟨nh', hnh', hkey'⟩ := hstays _ _ hnh
  refine ⟨hpath, ?_, fun u v => ?_, ⟨nh', hnh', hkey'.trans hhk⟩, ?_, h.sentinels, ?_⟩
  · exact ascending_setNode h.ascending ny hx hkey fun v hv => (hnext v hv).1
  · exact closed_setNode h.closed fun v hv => (hnext v hv).2
  · simpa [State.setNode, Function.update_of_ne htail.symm] using h.tail
  · intro b hb
    have hbx : b ≠ x := by
      intro he
      rw [he] at hb
      rw [h.fresh x hb] at hx
      cases hx
    simpa [State.setNode, Function.update_of_ne hbx] using h.fresh b hb

theorem Shape.mark (h : Shape s a l) (hy : s.node y = some ny) (htail : y ≠ s.tail) :
    Shape (s.setNode y (some { ny with mark := true })) a l := by
  refine h.write { ny with mark := true } hy rfl htail (fun v hv => ?_) (h.path.mono fun u v _ huv => ?_)
  · exact ⟨h.ascending y v (nextOf_of hy hv), h.closed y v (nextOf_of hy hv)⟩
  · by_cases hu : u = y
    · subst hu
      rw [nextOf_setNode_self]
      simpa [nextOf, hy] using huv
    · rw [nextOf_setNode_of_ne hu]
      exact huv

/-- The `next` of `x` is set to `z`, from which the tail is reached. -/
theorem Shape.link (h : Shape s a l) (hx : s.node x = some nx) (hz : s.node z = some ny)
    (hA : Path (nextOf s.node) s.head A x) (hB : Path (nextOf s.node) z B s.tail)
    (hlt : rank s.head s.node x < rank s.head s.node z) :
    Shape (s.setNode x (some { nx with next := some z })) a (A ++ z :: B) := by
  have htail : x ≠ s.tail := by
    intro he
    subst he
    exact absurd (hlt.trans_le (hB.rank_le h.ascending (Or.inl rfl))) (lt_irrefl _)
  refine h.write { nx with next := some z } hx rfl htail (fun v hv => ?_) ?_
  · obtain rfl : z = v := Option.some.inj hv
    exact ⟨hlt, ny, hz⟩
  · exact hA.relink hB h.ascending hlt (fun v hv => nextOf_setNode_of_ne hv) (nextOf_setNode_self _)

end Changes

/-! ## The calls -/

section Calls
variable {s : State Nat 1} {a x y z : Nat} {l A B : List Nat} {nx ny : Node Nat} {S : Finset Int}
  {key : Int}

theorem Holds.mono (h : Holds s a S l) : Holds s (a + 1) S l :=
  ⟨h.toShape.mono (Nat.le_succ a), h.unmarked, h.contents⟩

/-- An `insert` between the two nodes of its `search`. -/
theorem Holds.insert_new (h : Holds s a S l) (hs : Spot s l key x y nx ny) (hne : ny.key ≠ key) :
    ∃ l', Holds ((s.setNode a (some ⟨key, some y, false⟩)).setNode x
      (some { nx with next := some a })) (a + 1) (insert key S) l' := by
  obtain ⟨A, B, rfl, hA, hB⟩ := h.cut hs.on (nextOf_of hs.left.1 hs.left.2.1)
  have hxa := h.lt_fresh hs.left.1
  have hother : ∀ z ∈ A ++ y :: B, z ≠ a := by
    intro z hz
    obtain ⟨nd, hnd, _⟩ := h.unmarked z (Or.inr hz)
    exact h.lt_fresh hnd
  have hhead : a ≠ s.head := by
    obtain ⟨nd, hnd, _⟩ := h.head
    exact (h.lt_fresh hnd).symm
  have htail : a ≠ s.tail := (h.lt_fresh h.tail).symm
  have hkey : key < rank s.head s.node y := by
    have hrank := hs.right_key h
    have hle := hs.le_right
    omega
  have hkeep : ∀ u v, nextOf s.node u = some v →
      nextOf (s.setNode a (some ⟨key, some y, false⟩)).node u = some v := by
    intro u v huv
    obtain ⟨nd, hnd, _⟩ := nextOf_some huv
    rw [nextOf_setNode_of_ne (h.lt_fresh hnd), huv]
  have hx₁ : (s.setNode a (some ⟨key, some y, false⟩)).node x = some nx := by
    simpa [State.setNode, Function.update_of_ne hxa] using hs.left.1
  have ha₁ : (s.setNode a (some ⟨key, some y, false⟩)).node a = some ⟨key, some y, false⟩ := by
    simp [State.setNode]
  have hrank : ∀ z, rank s.head ((s.setNode a (some ⟨key, some y, false⟩)).setNode x
      (some { nx with next := some a })).node z = if z = a then key else rank s.head s.node z := by
    intro z
    refine (rank_setNode { nx with next := some a } hx₁ rfl z).trans ?_
    by_cases hz : z = a
    · simp [hz, rank, hhead, State.setNode]
    · simp [hz, rank, State.setNode]
  refine ⟨A ++ a :: y :: B, ?_, ?_, ?_⟩
  · refine (h.toShape.make_shared hs.right.1 hkey).link hx₁ ha₁ (hA.mono fun u v _ => hkeep u v)
      ⟨nextOf_setNode_self _, hB.mono fun u v _ => hkeep u v⟩ ?_
    have hlt := hs.left_lt
    simpa [rank, State.setNode, hhead, Function.update_of_ne hxa] using hlt
  · intro z hz
    by_cases hzx : z = x
    · exact ⟨{ nx with next := some a }, by simp [hzx, State.setNode], hs.left.2.2⟩
    by_cases hza : z = a
    · exact ⟨⟨key, some y, false⟩, by simp [hza, State.setNode, Function.update_of_ne hxa.symm], rfl⟩
    have hz' : z = s.head ∨ z ∈ A ++ y :: B := by simpa [hza, State.setNode] using hz
    obtain ⟨nd, hnd, hm⟩ := h.unmarked z hz'
    exact ⟨nd, by simpa [State.setNode, hzx, hza] using hnd, hm⟩
  · intro k
    rw [Finset.mem_insert, h.contents]
    constructor
    · intro hk
      rcases hk with rfl | ⟨z, hz, hzt, hzk⟩
      · exact ⟨a, by simp, htail, (hrank a).trans (if_pos rfl)⟩
      · refine ⟨z, ?_, hzt, ?_⟩
        · simp only [List.mem_append, List.mem_cons] at hz ⊢
          tauto
        · rw [← hzk]
          exact (hrank z).trans (if_neg (hother z hz))
    · intro hex
      obtain ⟨z, hz, hzt, hzk⟩ := hex
      have hzk : (if z = a then key else rank s.head s.node z) = k := (hrank z).symm.trans hzk
      by_cases hza : z = a
      · rw [if_pos hza] at hzk
        exact Or.inl hzk.symm
      · rw [if_neg hza] at hzk
        exact Or.inr ⟨z, by simpa [hza] using hz, hzt, hzk⟩

/-- A `remove` of the right node of its `search`. -/
theorem Holds.remove_found (h : Holds s a S l) (hs : Spot s l key x y nx ny) (hkey : key < maxKey)
    (he : ny.key = key) :
    ∃ z, ny.next = some z ∧ ∃ l', Holds ((s.setNode y (some { ny with mark := true })).setNode x
      (some { nx with next := some z })) (a + 1) (S.erase key) l' := by
  have hranky := hs.right_key h
  have hlt := hs.left_lt
  have hxy : x ≠ y := by
    intro hxy
    subst hxy
    omega
  have htail : y ≠ s.tail := by
    intro ht
    subst ht
    rw [h.rank_tail] at hranky
    omega
  obtain ⟨A, B, rfl, hA, hB⟩ := h.cut hs.on (nextOf_of hs.left.1 hs.left.2.1)
  cases B with
  | nil => exact absurd hB htail
  | cons z B =>
  have hz : ny.next = some z := by simpa [nextOf, hs.right.1] using hB.1
  have hxz : rank s.head s.node x < rank s.head s.node z := by
    have hasc := h.ascending y z hB.1
    omega
  have hx₁ : (s.setNode y (some { ny with mark := true })).node x = some nx := by
    simpa [State.setNode, Function.update_of_ne hxy] using hs.left.1
  have hrank₁ := rank_setNode { ny with mark := true } hs.right.1 rfl
  have hrank : ∀ w, rank s.head ((s.setNode y (some { ny with mark := true })).setNode x
      (some { nx with next := some z })).node w = rank s.head s.node w := by
    intro w
    exact (rank_setNode { nx with next := some z } hx₁ rfl w).trans (hrank₁ w)
  have hshape := h.toShape.mark hs.right.1 htail
  have hkeep : ∀ u v, nextOf s.node u = some v →
      nextOf (s.setNode y (some { ny with mark := true })).node u = some v := by
    intro u v huv
    by_cases hu : u = y
    · rw [hu, nextOf_setNode_self]
      rw [hu] at huv
      simpa [nextOf, hs.right.1] using huv
    · rw [nextOf_setNode_of_ne hu, huv]
  -- the keys before `y` are smaller and those after it are larger
  have hnot : ∀ w ∈ A ++ z :: B, rank s.head s.node w ≠ key := by
    intro w hw
    rcases List.mem_append.mp hw with hw | hw
    · have hle := hA.rank_le h.ascending (Or.inr hw)
      omega
    · have hgt := hB.rank_lt h.ascending hw
      omega
  refine ⟨z, hz, A ++ z :: B, ?_, ?_, ?_⟩
  · obtain ⟨nz, hnz⟩ := hshape.closed y z (hkeep y z hB.1)
    refine (hshape.mono (Nat.le_succ a)).link hx₁ hnz (hA.mono fun u v _ => hkeep u v) (hB.2.mono fun u v _ => hkeep u v) ?_
    exact (hrank₁ x).trans_lt (hxz.trans_eq (hrank₁ z).symm)
  · intro w hw
    have hwy : w ≠ y := by
      intro hwy
      subst hwy
      rcases hw with hw | hw
      · exact h.ne_head hs.mem hw
      · exact hnot w hw (hranky.trans he)
    by_cases hwx : w = x
    · exact ⟨{ nx with next := some z }, by simp [hwx, State.setNode], hs.left.2.2⟩
    have hw' : w = s.head ∨ w ∈ A ++ y :: z :: B := by
      rcases hw with hw | hw
      · exact Or.inl hw
      · simp only [List.mem_append, List.mem_cons] at hw ⊢
        tauto
    obtain ⟨nd, hnd, hm⟩ := h.unmarked w hw'
    exact ⟨nd, by simpa [State.setNode, hwx, hwy] using hnd, hm⟩
  · intro k
    rw [Finset.mem_erase, h.contents]
    constructor
    · intro hex
      obtain ⟨hk, w, hw, hwt, hwk⟩ := hex
      have hwy : w ≠ y := by
        intro hwy
        subst hwy
        omega
      exact ⟨w, by simpa [hwy] using hw, hwt, (hrank w).trans hwk⟩
    · intro hex
      obtain ⟨w, hw, hwt, hwk⟩ := hex
      have hwk : rank s.head s.node w = k := (hrank w).symm.trans hwk
      refine ⟨fun hk => hnot w hw (hwk.trans hk), w, ?_, hwt, hwk⟩
      simp only [List.mem_append, List.mem_cons] at hw ⊢
      tauto

/-- `insert`, after its `search` found no node with the key. -/
theorem Spot.insert_returns (h : Holds s a S l) (hs : Spot s l key x y nx ny) :
    Returns a (s.setPc 0 (.insertNew key (some x) y))
      (((s.setNode a (some ⟨key, some y, false⟩)).setNode x
        (some { nx with next := some a })).setPc 0 .idle) true := by
  have hxa := h.lt_fresh hs.left.1
  have hcas : Returns a ((s.setNode a (some ⟨key, some y, false⟩)).setPc 0
      (.insertCas key (some x) y a)) (((s.setNode a (some ⟨key, some y, false⟩)).setNode x
        (some { nx with next := some a })).setPc 0 .idle) true := by
    refine Returns.step ?_ Returns.ret (by simp)
    simp [step, State.setPc, State.setNode, Function.update_of_ne hxa, hs.left.1, hs.left.2.1,
      hs.left.2.2]
  refine Returns.step ?_ hcas (by simp)
  simp [step, State.setPc, State.setNode, h.fresh a le_rfl]

/-- `remove`, after its `search` found the node with the key. -/
theorem Spot.remove_returns (hs : Spot s l key x y nx ny) (hxy : x ≠ y) :
    Returns a (s.setPc 0 (.removeNext key (some x) y))
      (((s.setNode y (some { ny with mark := true })).setNode x
        (some { nx with next := ny.next })).setPc 0 .idle) true := by
  have hunlink : Returns a ((s.setNode y (some { ny with mark := true })).setPc 0
      (.removeUnlink key (some x) y ny.next)) (((s.setNode y (some { ny with mark := true })).setNode x
        (some { nx with next := ny.next })).setPc 0 .idle) true := by
    refine Returns.step ?_ Returns.ret (by simp)
    simp [step, State.setPc, State.setNode, Function.update_of_ne hxy, hs.left.1, hs.left.2.1,
      hs.left.2.2]
  have hmark : step (s.setPc 0 (.removeMark key (some x) y ny.next)) 0 a =
      some ((s.setNode y (some { ny with mark := true })).setPc 0
        (.removeUnlink key (some x) y ny.next)) := by
    simp [step, State.setPc, State.setNode, hs.right.1, hs.right.2]
  refine Returns.step ?_ (Returns.step hmark hunlink (by simp)) (by simp)
  simp [step, State.setPc, hs.right.1, hs.right.2]

theorem Spot.ne (hs : Spot s l key x y nx ny) : x ≠ y := by
  intro hxy
  have hlt := hs.left_lt.trans_le hs.le_right
  rw [hxy] at hlt
  exact lt_irrefl _ hlt

/-- A call on a key smaller than that of the tail sentinel. -/
theorem Holds.call (h : Holds s a S l) {o : Op} (hlow : lowestKey ≤ o.key) (hkey : o.key < maxKey) :
    ∃ t l', Returns a (s.setPc 0 (start o)) t (set.apply S o).2 ∧
      Holds t (a + 1) (set.apply S o).1 l' := by
  cases o with
  | find key =>
    simp only [Op.key] at hlow hkey
    obtain ⟨x, y, nx, ny, hs, hret⟩ := h.search hlow hkey.le .find
    refine ⟨s.setPc 0 .idle, l, hret _ _ ?_, h.mono.setPc _⟩
    have hres : (set.apply S (.find key)).2 = decide (ny.key = key) :=
      decide_eq_decide.mpr (hs.mem_iff h hkey)
    rw [hres]
    exact Returns.ret
  | insert key =>
    simp only [Op.key] at hlow hkey
    obtain ⟨x, y, nx, ny, hs, hret⟩ := h.search hlow hkey.le .insert
    have hmem := hs.mem_iff h hkey
    by_cases he : ny.key = key
    · have hres : set.apply S (.insert key) = (S, false) := by
        simp [set, hmem.mpr he]
      rw [hres]
      refine ⟨s.setPc 0 .idle, l, hret _ _ ?_, h.mono.setPc _⟩
      rw [found, if_pos he]
      exact Returns.ret
    · have hres : set.apply S (.insert key) = (insert key S, true) := by
        simp [set, hmem, he]
      rw [hres]
      obtain ⟨l', hl'⟩ := h.insert_new hs he
      refine ⟨_, l', hret _ _ ?_, hl'.setPc .idle⟩
      rw [found, if_neg he]
      exact hs.insert_returns h
  | remove key =>
    simp only [Op.key] at hlow hkey
    obtain ⟨x, y, nx, ny, hs, hret⟩ := h.search hlow hkey.le .remove
    have hmem := hs.mem_iff h hkey
    by_cases he : ny.key = key
    · have hres : set.apply S (.remove key) = (S.erase key, true) := by
        simp [set, hmem, he]
      rw [hres]
      obtain ⟨z, hz, l', hl'⟩ := h.remove_found hs hkey he
      refine ⟨_, l', hret _ _ ?_, hl'.setPc .idle⟩
      rw [found, if_neg (not_not.mpr he), ← hz]
      exact hs.remove_returns hs.ne
    · have hres : set.apply S (.remove key) = (S, false) := by
        have hnot : key ∉ S := fun hk => he (hmem.mp hk)
        simp [set, hnot]
      rw [hres]
      refine ⟨s.setPc 0 .idle, l, hret _ _ ?_, h.mono.setPc _⟩
      rw [found, if_pos he]
      exact Returns.ret

theorem Holds.maxKey_not_mem (h : Holds s a S l) : maxKey ∉ S := by
  intro hmem
  obtain ⟨x, hx, hxt, hxk⟩ := (h.contents maxKey).mp hmem
  obtain ⟨A, B, _, _, hB⟩ := h.path.split (Or.inr hx)
  rcases hB.last_mem with he | hm
  · exact hxt he.symm
  · have hlt := hB.rank_lt h.ascending hm
    rw [hxk, h.rank_tail] at hlt
    exact lt_irrefl _ hlt

/-- A call on the key of the tail sentinel returns the wrong response. -/
theorem Holds.call_maxKey (h : Holds s a S l) {o : Op} (hkey : o.key = maxKey) :
    ∃ t, Returns a (s.setPc 0 (start o)) t (!(set.apply S o).2) := by
  have hlow : lowestKey ≤ maxKey := by decide
  have hnot := h.maxKey_not_mem
  have hfound : ∀ x y nx ny, Spot s l maxKey x y nx ny → ny.key = maxKey := by
    intro x y nx ny hs
    have hle := h.rank_le hs.mem
    have hge := hs.le_right
    rw [hs.right_key h] at hle hge
    omega
  cases o with
  | find key =>
    obtain rfl : key = maxKey := hkey
    obtain ⟨x, y, nx, ny, hs, hret⟩ := h.search hlow le_rfl .find
    refine ⟨s.setPc 0 .idle, hret _ _ ?_⟩
    simp only [found, hfound x y nx ny hs, set, hnot, decide_true, decide_false, Bool.not_false]
    exact Returns.ret
  | insert key =>
    obtain rfl : key = maxKey := hkey
    obtain ⟨x, y, nx, ny, hs, hret⟩ := h.search hlow le_rfl .insert
    refine ⟨s.setPc 0 .idle, hret _ _ ?_⟩
    simp only [found, hfound x y nx ny hs, set, hnot, if_true, not_false_eq_true, decide_true,
      Bool.not_true]
    exact Returns.ret
  | remove key =>
    obtain rfl : key = maxKey := hkey
    obtain ⟨x, y, nx, ny, hs, hret⟩ := h.search hlow le_rfl .remove
    simp only [found, hfound x y nx ny hs, ne_eq, not_true_eq_false, if_false] at hret
    simp only [set, hnot, decide_false, Bool.not_false]
    exact ⟨_, hret _ _ (hs.remove_returns hs.ne)⟩

end Calls

/-! ## Sequences of calls -/

section Runs
variable {s t : State Nat 1} {a fuel : Nat} {l : List Nat} {S : Finset Int} {ops : List Op}

theorem nextOf_initial {x y : Nat} (h : nextOf (State.initial 0 1 : State Nat 1).node x = some y) :
    x = 0 ∧ y = 1 := by
  by_cases h0 : x = 0
  · subst h0
    exact ⟨rfl, by simpa [nextOf, State.initial, eq_comm] using h⟩
  · by_cases h1 : x = 1
    · simp [nextOf, State.initial, h1] at h
    · simp [nextOf, State.initial, h0, h1] at h

theorem Holds.initial : Holds (.initial 0 1) 2 ∅ [1] where
  path := ⟨by simp [nextOf, State.initial], rfl⟩
  ascending := by
    intro x y hxy
    obtain ⟨rfl, rfl⟩ := nextOf_initial hxy
    decide
  closed := by
    intro x y hxy
    obtain ⟨rfl, rfl⟩ := nextOf_initial hxy
    exact ⟨⟨maxKey, none, false⟩, by simp [State.initial]⟩
  head := ⟨⟨lowestKey, some 1, false⟩, by simp [State.initial], rfl⟩
  tail := by simp [State.initial]
  sentinels := by simp [State.initial]
  fresh := by
    intro b hb
    have h0 : b ≠ 0 := by omega
    have h1 : b ≠ 1 := by omega
    simp [State.initial, h0, h1]
  unmarked := by
    intro x hx
    have hx : x = 0 ∨ x = 1 := by simpa [State.initial] using hx
    rcases hx with rfl | rfl
    · exact ⟨⟨lowestKey, some 1, false⟩, by simp [State.initial], rfl⟩
    · exact ⟨⟨maxKey, none, false⟩, by simp [State.initial], rfl⟩
  contents := by simp [State.initial]

theorem runCalls_add {rs : List Bool} (h : runCalls fuel a s ops = some (t, rs)) (extra : Nat) :
    runCalls (fuel + extra) a s ops = some (t, rs) := by
  induction ops generalizing s a rs with
  | nil => exact h
  | cons o ops ih =>
    obtain ⟨⟨u, r⟩, hu, h⟩ := Option.bind_eq_some_iff.mp h
    obtain ⟨⟨v, rs'⟩, hv, h⟩ := Option.map_eq_some_iff.mp h
    cases h
    simp only [runCalls, finish_add hu, Option.bind_some, ih hv, Option.map_some]

theorem Holds.run (h : Holds s a S l) (hops : ∀ o ∈ ops, lowestKey ≤ o.key ∧ o.key < maxKey) :
    ∃ fuel t, runCalls fuel a s ops = some (t, responses S ops) ∧ SentinelsLinked t := by
  induction ops generalizing s a S l with
  | nil => exact ⟨0, s, rfl, h.linked⟩
  | cons o ops ih =>
    obtain ⟨ho, hops⟩ := List.forall_mem_cons.mp hops
    obtain ⟨u, l', ⟨f, hf⟩, hu⟩ := h.call ho.1 ho.2
    obtain ⟨g, t, hg, ht⟩ := ih hu hops
    refine ⟨f + g, t, ?_, ht⟩
    have hg' := runCalls_add hg f
    rw [Nat.add_comm] at hg'
    simp only [runCalls, finish_add hf, Option.bind_some, hg', Option.map_some, responses]

/-- The first call on the key of the tail sentinel already goes wrong. -/
theorem Holds.run_wrong (h : Holds s a S l)
    (hops : ∀ o ∈ ops, lowestKey ≤ o.key ∧ o.key ≤ maxKey) (hmax : ∃ o ∈ ops, o.key = maxKey) :
    runCalls fuel a s ops ≠ some (t, responses S ops) := by
  induction ops generalizing s a S l with
  | nil =>
    obtain ⟨o, ho, _⟩ := hmax
    cases ho
  | cons o ops ih =>
    intro hrun
    obtain ⟨⟨u, r⟩, hu, hrun⟩ := Option.bind_eq_some_iff.mp hrun
    obtain ⟨⟨v, rs⟩, hv, hrs⟩ := Option.map_eq_some_iff.mp hrun
    simp only [responses, Prod.mk.injEq, List.cons.injEq] at hrs
    obtain ⟨rfl, rfl, rfl⟩ := hrs
    obtain ⟨ho, hops⟩ := List.forall_mem_cons.mp hops
    by_cases hk : o.key = maxKey
    · obtain ⟨u', hu'⟩ := h.call_maxKey hk
      have hr := (hu'.unique hu).2
      simp at hr
    · obtain ⟨u', l', hu', hh⟩ := h.call ho.1 (lt_of_le_of_ne ho.2 hk)
      obtain rfl : u = u' := (hu'.unique hu).1
      refine ih hh hops ?_ hv
      obtain ⟨o', ho', hk'⟩ := hmax
      rcases List.mem_cons.mp ho' with rfl | hmem
      · exact absurd hk' hk
      · exact ⟨o', hmem, hk'⟩

/-- Calls on any `int`s behave as those of a set if and only if none is on `INT_MAX`. -/
theorem sequential_set_iff (ops : List Op)
    (hops : ∀ o ∈ ops, lowestKey ≤ o.key ∧ o.key ≤ maxKey) :
    BehavesAsSet ops ↔ ∀ o ∈ ops, o.key ≠ maxKey := by
  constructor
  · intro h o ho hk
    obtain ⟨fuel, t, hrun, _⟩ := h ops List.prefix_rfl
    exact Holds.initial.run_wrong hops ⟨o, ho, hk⟩ hrun
  · intro h pre hpre
    refine Holds.initial.run fun o ho => ?_
    have hmem := hpre.subset ho
    exact ⟨(hops o hmem).1, lt_of_le_of_ne (hops o hmem).2 (h o hmem)⟩

theorem sequential_set_iff_simple :
    BehavesAsSet [.find 2, .insert 2, .insert lowestKey, .find 2, .remove 2, .find 2] := by
  refine (sequential_set_iff _ ?_).mpr ?_
  · decide
  · decide

/-- `find(INT_MAX)` on an empty list returns true. -/
theorem find_maxKey_empty : ¬ BehavesAsSet [.find maxKey] := by
  intro h
  obtain ⟨fuel, t, hrun, _⟩ := h _ List.prefix_rfl
  exact Holds.initial.run_wrong (by decide) ⟨.find maxKey, by decide, rfl⟩ hrun

example : (runCalls 20 2 (.initial 0 1) [.find maxKey, .insert maxKey, .remove maxKey]).map Prod.snd =
    some [true, false, true] := by decide

-- after the tail sentinel was removed, a `search` follows the null `next` of the head
example : ((runCalls 20 2 (.initial 0 1) [.remove maxKey, .find 0]).map Prod.snd).isNone = true := by
  decide

end Runs

end Cdrc.LinkedList
