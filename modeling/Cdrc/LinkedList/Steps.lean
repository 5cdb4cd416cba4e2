import Mathlib.Algebra.Order.BigOperators.Group.Finset
import Cdrc.LinkedList.Invariant

/-! # The steps of `atomic_linked_list`

Each kind of step keeps the invariant. An `insert` that succeeds takes effect at its
`compare_and_swap`, a `remove` that succeeds where it sets the mark. A call that changes
nothing takes effect in the past: where the node it found had no mark, or where no key was
between the two nodes it found (`Inv.answers`). -/
namespace Cdrc.LinkedList
open Cdrc.Lib.Objects Cdrc.Lib.History Cdrc.Lib.Paths

variable {α : Type} [DecidableEq α] {n : Nat}

/-! ## The calls of the sequential set -/

section Set
variable {S : Finset Int} {key : Int}

theorem set_find_present (h : key ∈ S) : set.apply S (.find key) = (S, true) := by
  simp [set, h]

theorem set_find_absent (h : key ∉ S) : set.apply S (.find key) = (S, false) := by
  simp [set, h]

theorem set_insert_absent (h : key ∉ S) : set.apply S (.insert key) = (insert key S, true) := by
  simp [set, h]

theorem set_insert_present (h : key ∈ S) : set.apply S (.insert key) = (S, false) := by
  simp [set, h]

theorem set_remove_present (h : key ∈ S) : set.apply S (.remove key) = (S.erase key, true) := by
  simp [set, h]

theorem set_remove_absent (h : key ∉ S) : set.apply S (.remove key) = (S, false) := by
  simp [set, h]

end Set

/-! ## What the path says about the set -/

section Path
variable {s : State α n} {L : List (Entry Op Bool)} {l : List α} {x y : α} {nd : Node α}

theorem ListInv.rank_ge (h : ListInv s l) (hx : s.node x = some nd) :
    lowestKey - 1 ≤ rank s.head s.node x := by
  by_cases hh : x = s.head
  · simp [rank, hh]
  · rw [rank_of_ne hh hx]
    have := h.keys x nd hx
    omega

omit [DecidableEq α] in
theorem nextOf_some {node : α → Option (Node α)} (h : nextOf node x = some y) :
    ∃ nd, node x = some nd ∧ nd.next = some y :=
  Option.bind_eq_some_iff.mp h

omit [DecidableEq α] in
theorem nextOf_of {node : α → Option (Node α)} (hx : node x = some nd) (hy : nd.next = some y) :
    nextOf node x = some y := by
  simp [nextOf, hx, hy]

theorem ListInv.next_ne_head (h : ListInv s l) (hy : nextOf s.node x = some y) : y ≠ s.head := by
  rintro rfl
  obtain ⟨nd, hnd, _⟩ := nextOf_some hy
  have h1 := h.ascending x s.head hy
  have h2 := h.rank_ge hnd
  simp only [rank, if_true] at h1
  simp only [rank] at h2
  omega

theorem ListInv.end (h : ListInv s l) : nextOf s.node s.tail = none := by
  simp [nextOf, h.tail]

theorem ListInv.ne_head (h : ListInv s l) (hx : x ∈ l) : x ≠ s.head :=
  h.path.ne_first h.ascending hx

theorem ListInv.rank_tail (h : ListInv s l) : rank s.head s.node s.tail = maxKey :=
  rank_of_ne h.sentinels.symm h.tail

/-- Two nodes of the path with the same key are the same. -/
theorem ListInv.eq_of_key (h : ListInv s l) (hx : x ∈ l) (hy : y ∈ l)
    (hr : rank s.head s.node x = rank s.head s.node y) : x = y := by
  obtain ⟨A, B, rfl, hA, hB⟩ := h.path.split (Or.inr hx)
  rcases List.mem_append.mp hy with hyA | hyB
  · rcases hA.split (Or.inr hyA) with ⟨_, C, _, _, hC⟩
    rcases hC.last_mem with he | hm
    · exact he
    · exact absurd hr.symm (ne_of_lt (hC.rank_lt h.ascending hm))
  · exact absurd hr (ne_of_lt (hB.rank_lt h.ascending hyB))

/-- The node is on the path, so its successor is next in the set. -/
theorem ListInv.gap (h : ListInv s l) {S : Finset Int} (hc : ∀ key, key ∈ S ↔ Present s l key)
    (hx : x = s.head ∨ x ∈ l) (hy : nextOf s.node x = some y) :
    Gap (rank s.head s.node x) (rank s.head s.node y) S := by
  intro key hlt hgt hmem
  obtain ⟨z, ndz, hz, _, hndz, _, rfl⟩ := (hc key).mp hmem
  have hrank := rank_of_ne (h.ne_head hz) hndz
  rcases h.path.gap h.ascending h.end hx hy (Or.inr hz) with hle | hle
  · omega
  · omega

/-- The node has no mark and can be reached, so it is on the path. -/
theorem Inv.gap (h : Inv s L l) (hnd : s.node x = some nd) (hm : nd.mark = false)
    (hseen : Seen s x) (hy : nextOf s.node x = some y) :
    Gap (rank s.head s.node x) (rank s.head s.node y) (set.after set.init L) :=
  h.list.gap h.contents (h.list.live x nd hnd hm hseen) hy

/-- The node has no mark and can be reached, so its key is in the set. -/
theorem Inv.mem (h : Inv s L l) (hnd : s.node x = some nd) (hm : nd.mark = false)
    (hseen : Seen s x) {key : Int} (hr : InRange key) (hkey : rank s.head s.node x = key) :
    x ∈ l ∧ x ≠ s.tail ∧ nd.key = key ∧ key ∈ set.after set.init L := by
  have hne : x ≠ s.head := by
    rintro rfl
    simp only [rank, if_true] at hkey
    have := hr.1
    omega
  have htail : x ≠ s.tail := by
    rintro rfl
    rw [h.list.rank_tail] at hkey
    have := hr.2
    omega
  have hl : x ∈ l := (h.list.live x nd hnd hm hseen).resolve_left hne
  have hk : nd.key = key := by rw [← hkey, rank_of_ne hne hnd]
  exact ⟨hl, htail, hk, (h.contents key).mpr ⟨x, nd, hl, htail, hnd, hm, hk⟩⟩

end Path

/-! ## Steps that change no node -/

section Goes
variable {s : State α n} {t : Fin n} {L L' : List (Entry Op Bool)} {l : List α} {pc : Pc α}

omit [DecidableEq α] in
theorem seen_setPc (hp : ∀ a ∈ pc.snapshots, Seen s a) {a : α} (h : Seen (s.setPc t pc) a) :
    Seen s a := by
  rcases h with h | h | ⟨u, hu⟩
  · exact Or.inl h
  · exact Or.inr (Or.inl h)
  · by_cases hut : u = t
    · rw [hut, setPc_self] at hu
      exact hp a hu
    · rw [setPc_of_ne s pc hut] at hu
      exact Or.inr (Or.inr ⟨u, hu⟩)

theorem ListInv.setPc (h : ListInv s l) (hp : ∀ a ∈ pc.snapshots, Seen s a) :
    ListInv (s.setPc t pc) l :=
  { path := h.path, ascending := h.ascending, closed := h.closed, goes_on := h.goes_on,
    head := h.head, tail := h.tail, sentinels := h.sentinels, keys := h.keys,
    live := fun x nd hx hm hs => h.live x nd hx hm (seen_setPc hp hs) }

/-- What a call knows does not depend on where the threads are. -/
theorem knows_setPc {i : Nat} {pc' : Pc α} (h : Knows s L i pc) :
    Knows (s.setPc t pc') L i pc := by
  cases pc with
  | search goal key st =>
    cases st with
    | check left right => exact ⟨h.1, h.2.left_lt, h.2.le_right, h.2.gap⟩
    | _ => exact h
  | _ => exact h

/-- What a thread may do on its own: it goes on with nodes that a shared location or a
snapshot refers to. -/
structure Goes (s : State α n) (L L' : List (Entry Op Bool)) (t : Fin n) (pc : Pc α) : Prop where
  busy : s.pc t ≠ .idle
  newNode : pc.newNode = none
  snapshots : ∀ a ∈ pc.snapshots, (∃ nd, s.node a = some nd) ∧ Seen s a
  knows : ∀ i o, s.calls.call t = some (i, o) → Performs (s.pc t) o → Knows s L i (s.pc t) →
    Performs pc o ∧ Knows s L' i pc

theorem Inv.goes_threads (h : Inv s L l) (g : Goes s L L' t pc)
    (hsaw : ∀ v i o, v ≠ t → s.calls.call v = some (i, o) → KeepsSaw s s L L' i) (v : Fin n) :
    ThreadInv (s.setPc t pc) L' v := by
  have hsaw' : ∀ v i o, v ≠ t → s.calls.call v = some (i, o) →
      KeepsSaw s (s.setPc t pc) L L' i := hsaw
  refine threads_step (t := t) h.threads (fun v hv => ?_) hsaw' (fun v a _ _ hp => ⟨fun hs => ?_, ?_⟩)
    ⟨fun _ => ?_, ?_, ?_⟩ v
  · exact ⟨setPc_of_ne s pc hv, rfl, rfl, fun _ _ => .of_eq rfl, fun _ _ => rfl⟩
  · exact hp.hidden (seen_setPc (fun b hb => (g.snapshots b hb).2) hs)
  · rw [setPc_self, g.newNode]
    simp
  · rw [setPc_self]
    obtain ⟨i, o, hc, ho, hk⟩ := (h.threads t).op g.busy
    obtain ⟨ho', hk'⟩ := g.knows i o hc ho hk
    exact ⟨i, o, hc, ho', knows_setPc hk'⟩
  · rw [setPc_self, g.newNode]
    intro a ha
    cases ha
  · rw [setPc_self, g.newNode]
    intro a ha
    rcases ha with ha | ha
    · cases ha
    · exact (g.snapshots a ha).1

/-- A step that changes nothing but the point the call has reached. -/
theorem Inv.goes (h : Inv s L l) (g : Goes s L L t pc) (hret : retOf pc = retOf (s.pc t)) :
    Inv (s.setPc t pc) L l where
  tracks := by
    rw [retOf_setPc s pc]
    refine h.tracks.congr fun u _ _ _ => ?_
    by_cases hu : u = t
    · rw [hu, Function.update_self]
      exact hret
    · rw [Function.update_of_ne hu]
  legal := h.legal
  contents := h.contents
  list := h.list.setPc fun a ha => (g.snapshots a ha).2
  threads := h.goes_threads g fun _ _ _ _ _ => KeepsSaw.refl

/-- A call that changes nothing is put where it would have had its response. -/
theorem Inv.answers (h : Inv s L l) {i : Nat} {o : Op} {r : Bool} (hret : retOf (s.pc t) = none)
    (hbusy : s.pc t ≠ .idle) (hc : s.calls.call t = some (i, o))
    (hsaw : Saw set s.calls.hist L i fun S => set.apply S o = (S, r)) :
    ∃ L', Inv (s.setPc t (.ret r)) L' l := by
  obtain ⟨A, B, rfl, hp, hb⟩ := hsaw
  have hrun := h.tracks.running t i o hc
  obtain ⟨hlegal, hafter⟩ := Seq.insert (e := ⟨i, o, r⟩) h.legal hp
  have g : Goes s (A ++ B) (A ++ ⟨i, o, r⟩ :: B) t (.ret r) :=
    ⟨hbusy, rfl, by simp [Pc.snapshots], fun _ _ _ _ _ => ⟨trivial, trivial⟩⟩
  refine ⟨_, ?_, hlegal, fun key => ?_, h.list.setPc (by simp [Pc.snapshots]),
    h.goes_threads g fun _ _ _ _ _ P hP => hP.insert hrun hp⟩
  · rw [retOf_setPc s]
    exact h.tracks.insert r hc hret hb
  · have heq : set.after ∅ (A ++ ⟨i, o, r⟩ :: B) = set.after ∅ (A ++ B) := hafter
    rw [heq]
    exact h.contents key

end Goes

/-! ## The loop of `search` -/

section Search
variable {s : State α n} {t : Fin n} {L : List (Entry Op Bool)} {l : List α} {goal : Goal}
  {key : Int} {x y : α} {nd : Node α}

theorem Inv.held (h : Inv s L l) {a : α} (ha : a ∈ (s.pc t).snapshots) :
    (∃ nd, s.node a = some nd) ∧ Seen s a :=
  ⟨(h.threads t).allocated a (Or.inr ha), Or.inr (Or.inr ⟨t, ha⟩)⟩

theorem Inv.read (h : Inv s L l) (hy : nextOf s.node x = some y) :
    (∃ nd, s.node y = some nd) ∧ Seen s y :=
  ⟨h.list.closed x y hy, Or.inr (Or.inl ⟨x, hy⟩)⟩

/-- The call of `t`, and what it knows. -/
theorem Inv.running (h : Inv s L l) {pc : Pc α} (hpc : s.pc t = pc) (hbusy : pc ≠ .idle) :
    ∃ i o, s.calls.call t = some (i, o) ∧ Performs pc o ∧ Knows s L i pc := by
  rw [← hpc] at hbusy ⊢
  exact (h.threads t).op hbusy

/-- `search` goes on to `st`. -/
theorem Inv.goes_search (h : Inv s L l) {st st' : Search α} (hpc : s.pc t = .search goal key st)
    (hsnap : ∀ a ∈ st'.snapshots, (∃ nd, s.node a = some nd) ∧ Seen s a)
    (hk : ∀ i, SearchKnows s L i key st → SearchKnows s L i key st') :
    Inv (s.setPc t (.search goal key st')) L l := by
  refine h.goes ⟨by rw [hpc]; simp, rfl, hsnap, fun i o _ ho hkn => ?_⟩ ?_
  · rw [hpc] at ho hkn
    exact ⟨ho, hkn.1, hk i hkn.2⟩
  · rw [hpc]
    cases goal <;> rfl

/-- The loop goes on from `right`. -/
theorem Inv.advance (h : Inv s L l) {left leftNxt : Option α} {right : α}
    (hpc : s.pc t = .search goal key (.next left leftNxt right)) (hnd : s.node right = some nd)
    (hgo : nd.mark = true ∨ nd.key < key) :
    ∃ st, advance left leftNxt right nd = some st ∧
      Inv (s.setPc t (.search goal key st)) L l := by
  obtain ⟨i, o, hc, ho, hrange, hne, x, rfl, hlt, hm⟩ := h.running hpc (by simp)
  have htail : right ≠ s.tail := by
    intro he
    rw [he, h.list.tail] at hnd
    cases hnd
    have := hrange.2
    rcases hgo with hgo | hgo
    · cases hgo
    · simp only at hgo
      omega
  obtain ⟨y, hy⟩ := h.list.goes_on right nd hnd htail
  have hnext : nextOf s.node right = some y := by simp [nextOf, hnd, hy]
  have hright : (∃ nd, s.node right = some nd) ∧ Seen s right :=
    h.held (t := t) (by simp [hpc, Pc.snapshots, Search.snapshots])
  have hleft : (∃ nd, s.node x = some nd) ∧ Seen s x :=
    h.held (t := t) (by simp [hpc, Pc.snapshots, Search.snapshots])
  have hyread := h.read hnext
  have hyhead := h.list.next_ne_head hnext
  by_cases hmark : nd.mark = false
  · refine ⟨.next (some right) none y, by simp [LinkedList.advance, hy, hmark],
      h.goes_search hpc ?_ fun j _ => ⟨hyhead, right, rfl, ?_, Saw.now ?_⟩⟩
    · simp only [Search.snapshots, Option.toList_some, Option.toList_none, List.append_nil,
        List.cons_append, List.nil_append, List.forall_mem_cons]
      exact ⟨hright, hyread, by simp⟩
    · rw [rank_of_ne hne hnd]
      simpa [hmark] using hgo
    · exact h.gap hnd hmark hright.2 hnext
  · have hmarked : Marked s.node right := ⟨nd, hnd, by simpa using hmark⟩
    cases leftNxt with
    | none =>
      refine ⟨.next (some x) (some right) y, by simp [LinkedList.advance, hy, hmark],
        h.goes_search hpc ?_ fun j _ => ⟨hyhead, x, rfl, hlt, ?_⟩⟩
      · simp only [Search.snapshots, Option.toList_some, List.cons_append, List.nil_append,
          List.forall_mem_cons]
        exact ⟨hleft, hright, hyread, by simp⟩
      · exact Relation.ReflTransGen.single ⟨hnext, hmarked⟩
    | some w =>
      have hw : (∃ nd, s.node w = some nd) ∧ Seen s w :=
        h.held (t := t) (by simp [hpc, Pc.snapshots, Search.snapshots])
      refine ⟨.next (some x) (some w) y, by simp [LinkedList.advance, hy, hmark],
        h.goes_search hpc ?_ fun j _ => ⟨hyhead, x, rfl, hlt, ?_⟩⟩
      · simp only [Search.snapshots, Option.toList_some, List.cons_append, List.nil_append,
          List.forall_mem_cons]
        exact ⟨hleft, hw, hyread, by simp⟩
      · exact Relation.ReflTransGen.tail hm ⟨hnext, hmarked⟩

end Search

/-! ## Steps that write a node -/

section Writes
variable {s : State α n} {t : Fin n} {L L' : List (Entry Op Bool)} {l l' : List α} {x w : α}
  {nd nd' : Node α} {pc : Pc α}

theorem nextOf_setNode_self (nd : Node α) : nextOf (s.setNode x (some nd)).node x = nd.next := by
  simp [nextOf, State.setNode]

theorem nextOf_setNode_of_ne {nd : Option (Node α)} (h : w ≠ x) :
    nextOf (s.setNode x nd).node w = nextOf s.node w := by
  simp [nextOf, State.setNode, Function.update_of_ne h]

/-- Keys do not change, so neither do ranks. -/
theorem rank_setNode (nd' : Node α) (hx : s.node x = some nd) (hk : nd'.key = nd.key) (w : α) :
    rank s.head (s.setNode x (some nd')).node w = rank s.head s.node w := by
  by_cases hw : w = x
  · subst hw
    simp [rank, State.setNode, hx, hk]
  · simp [rank, State.setNode, Function.update_of_ne hw]

theorem stays_setNode (nd' : Node α) (hx : s.node x = some nd) (hm : nd.mark = false)
    (hk : nd'.key = nd.key) (w : α) : Stays s.node (s.setNode x (some nd')).node w := by
  by_cases hw : w = x
  · subst hw
    intro nd₀ hnd₀
    obtain rfl : nd = nd₀ := Option.some.inj (hx.symm.trans hnd₀)
    refine ⟨nd', by simp [State.setNode], hk, fun hmark => ?_⟩
    rw [hm] at hmark
    cases hmark
  · exact .of_eq (Function.update_of_ne hw ..)

/-- A node after the write is the written one or an old one. -/
theorem setNode_cases {ndw : Node α} (hw : (s.setNode x (some nd')).node w = some ndw) :
    (w = x ∧ ndw = nd') ∨ (w ≠ x ∧ s.node w = some ndw) := by
  by_cases he : w = x
  · subst he
    exact Or.inl ⟨rfl, by simpa [State.setNode, eq_comm] using hw⟩
  · exact Or.inr ⟨he, by simpa [State.setNode, Function.update_of_ne he] using hw⟩

theorem nextOf_setNode_cases {nd' : Node α} {u v : α}
    (h : nextOf (s.setNode x (some nd')).node u = some v) :
    (u = x ∧ nd'.next = some v) ∨ (u ≠ x ∧ nextOf s.node u = some v) := by
  by_cases hu : u = x
  · subst hu
    rw [nextOf_setNode_self] at h
    exact Or.inl ⟨rfl, h⟩
  · rw [nextOf_setNode_of_ne hu] at h
    exact Or.inr ⟨hu, h⟩

/-- A node that keeps its key and has a larger successor. -/
theorem ascending_setNode (ha : Ascending (nextOf s.node) (rank s.head s.node)) (nd' : Node α)
    (hx : s.node x = some nd) (hk : nd'.key = nd.key)
    (hnext : ∀ v, nd'.next = some v → rank s.head s.node x < rank s.head s.node v) :
    Ascending (nextOf (s.setNode x (some nd')).node) (rank s.head (s.setNode x (some nd')).node) := by
  have hrank := rank_setNode nd' hx hk
  intro u v huv
  refine (hrank u).trans_lt (lt_of_lt_of_eq ?_ (hrank v).symm)
  rcases nextOf_setNode_cases huv with ⟨rfl, h⟩ | ⟨_, h⟩
  · exact hnext v h
  · exact ha u v h

/-- A node that is written or allocated, with an allocated successor. -/
theorem closed_setNode (hc : ∀ u v, nextOf s.node u = some v → ∃ nv, s.node v = some nv) {nd' : Node α}
    (hnext : ∀ v, nd'.next = some v → ∃ nv, s.node v = some nv) {u v : α}
    (huv : nextOf (s.setNode x (some nd')).node u = some v) :
    ∃ nv, (s.setNode x (some nd')).node v = some nv := by
  by_cases hvx : v = x
  · exact ⟨nd', by simp [State.setNode, hvx]⟩
  · have hv : ∃ nv, s.node v = some nv := by
      rcases nextOf_setNode_cases huv with ⟨_, h⟩ | ⟨_, h⟩
      · exact hnext v h
      · exact hc u v h
    obtain ⟨nv, hnv⟩ := hv
    exact ⟨nv, (Function.update_of_ne hvx _ _).trans hnv⟩

/-- The written node has its key, a larger successor, and a path through it. -/
theorem ListInv.write (h : ListInv s l) (nd' : Node α) (hx : s.node x = some nd)
    (hk : nd'.key = nd.key) (htail : x ≠ s.tail) {z : α}
    (hz : nd'.next = some z) (hzn : ∃ ndz, s.node z = some ndz)
    (hlt : rank s.head s.node x < rank s.head s.node z) (hhead : x = s.head → nd'.mark = false)
    (hpath : Path (nextOf (s.setNode x (some nd')).node) s.head l' s.tail)
    (hlive : ∀ w ndw, (s.setNode x (some nd')).node w = some ndw → ndw.mark = false →
      Seen ((s.setNode x (some nd')).setPc t pc) w → w = s.head ∨ w ∈ l') :
    ListInv ((s.setNode x (some nd')).setPc t pc) l' := by
  have hnext : ∀ v, nd'.next = some v → z = v := fun v hv => Option.some.inj (hz.symm.trans hv)
  have hascending := ascending_setNode h.ascending nd' hx hk fun v hv => hnext v hv ▸ hlt
  have hclosed : ∀ u v, nextOf (s.setNode x (some nd')).node u = some v →
      ∃ nv, (s.setNode x (some nd')).node v = some nv :=
    fun u v => closed_setNode h.closed fun v hv => hnext v hv ▸ hzn
  refine ⟨hpath, hascending, hclosed, fun w ndw hw hne => ?_, ?_, ?_, h.sentinels, fun w ndw hw => ?_, hlive⟩
  · rcases setNode_cases hw with ⟨rfl, rfl⟩ | ⟨_, hw⟩
    · exact ⟨z, hz⟩
    · exact h.goes_on w ndw hw hne
  · obtain ⟨ndh, hndh, hmh⟩ := h.head
    by_cases he : s.head = x
    · refine ⟨nd', ?_, hhead he.symm⟩
      simp [State.setPc, State.setNode, he]
    · refine ⟨ndh, ?_, hmh⟩
      simpa [State.setPc, State.setNode, Function.update_of_ne he] using hndh
  · simpa [State.setPc, State.setNode, Function.update_of_ne htail.symm] using h.tail
  · rcases setNode_cases hw with ⟨rfl, rfl⟩ | ⟨_, hw⟩
    · rw [hk]
      exact h.keys w nd hx
    · exact h.keys w ndw hw

/-- What is referred to after the write was before, the new node apart. -/
theorem seen_write (hvis : ∀ z, nd'.next = some z → Seen s z ∨ (s.pc t).newNode = some z)
    (hsnap : ∀ a ∈ pc.snapshots, a ∈ (s.pc t).snapshots)
    (hw : Seen ((s.setNode x (some nd')).setPc t pc) w) :
    Seen s w ∨ (nd'.next = some w ∧ (s.pc t).newNode = some w) := by
  rcases hw with hw | ⟨b, hb⟩ | ⟨u, hu⟩
  · exact Or.inl (Or.inl hw)
  · by_cases hbx : b = x
    · subst hbx
      have hb' : nd'.next = some w := (nextOf_setNode_self nd').symm.trans hb
      rcases hvis w hb' with hs | hn
      · exact Or.inl hs
      · exact Or.inr ⟨hb', hn⟩
    · exact Or.inl (Or.inr (Or.inl ⟨b, (nextOf_setNode_of_ne hbx).symm.trans hb⟩))
  · by_cases hut : u = t
    · rw [hut, setPc_self] at hu
      exact Or.inl (Or.inr (Or.inr ⟨t, hsnap w hu⟩))
    · rw [setPc_of_ne _ pc hut] at hu
      exact Or.inl (Or.inr (Or.inr ⟨u, hu⟩))

/-- The threads after thread `t` wrote a node that it has a snapshot of. -/
theorem Inv.write_threads (h : Inv s L l) (nd' : Node α) (hx : s.node x = some nd)
    (hm : nd.mark = false) (hk : nd'.key = nd.key) (hseen : Seen s x)
    (hvis : ∀ z, nd'.next = some z → Seen s z ∨ (s.pc t).newNode = some z)
    (hnew : pc.newNode = none) (hsnap : ∀ a ∈ pc.snapshots, a ∈ (s.pc t).snapshots)
    (hsaw : ∀ v i o, v ≠ t → s.calls.call v = some (i, o) → KeepsSaw s s L L' i)
    (hop : pc ≠ .idle → ∃ i o, s.calls.call t = some (i, o) ∧ Performs pc o ∧
      Knows ((s.setNode x (some nd')).setPc t pc) L' i pc) (v : Fin n) :
    ThreadInv ((s.setNode x (some nd')).setPc t pc) L' v := by
  have hstays := stays_setNode nd' hx hm hk
  have hsaw' : ∀ v i o, v ≠ t → s.calls.call v = some (i, o) →
      KeepsSaw s ((s.setNode x (some nd')).setPc t pc) L L' i := hsaw
  refine threads_step (t := t) h.threads (fun v hv => ?_) hsaw' (fun v a hv ho hp => ⟨fun hs => ?_, ?_⟩)
    ⟨?_, ?_, ?_⟩ v
  · refine ⟨setPc_of_ne _ pc hv, rfl, rfl, fun w _ => hstays w, fun a ha => ?_⟩
    have hax : a ≠ x := by
      intro he
      rw [he] at ha
      exact ((h.threads v).owned x ha).hidden hseen
    exact Function.update_of_ne hax ..
  · rcases seen_write hvis hsnap hs with hs | ⟨_, hn⟩
    · exact hp.hidden hs
    · exact hp.others t (Ne.symm hv) hn
  · rw [setPc_self, hnew]
    simp
  · rw [setPc_self]
    exact hop
  · rw [setPc_self, hnew]
    intro a ha
    cases ha
  · rw [setPc_self, hnew]
    intro a ha
    rcases ha with ha | ha
    · cases ha
    · obtain ⟨nda, hnda⟩ := (h.threads t).allocated a (Or.inr (hsnap a ha))
      obtain ⟨nda', hnda', _⟩ := hstays a nda hnda
      exact ⟨nda', hnda'⟩

theorem Trail.rank_le (h : ListInv s l) {y z : α} (ht : Trail s.node y z) :
    rank s.head s.node y ≤ rank s.head s.node z := by
  induction ht with
  | refl => exact le_refl _
  | tail _ hstep ih => exact ih.trans (h.ascending _ _ hstep.1).le

omit [DecidableEq α] in
theorem Trail.referred {y z : α} (hx : nextOf s.node x = some y) (ht : Trail s.node y z) :
    ∃ b, nextOf s.node b = some z := by
  cases ht with
  | refl => exact ⟨x, hx⟩
  | tail _ hstep => exact ⟨_, hstep.1⟩

/-- The path is cut at a node and its successor. -/
theorem ListInv.cut (h : ListInv s l) {y : α} (hx : x = s.head ∨ x ∈ l)
    (hy : nextOf s.node x = some y) :
    ∃ A B, l = A ++ y :: B ∧ Path (nextOf s.node) s.head A x ∧
      Path (nextOf s.node) y B s.tail :=
  h.path.cut h.end hx hy

omit [DecidableEq α] in
theorem retOf_setPc_same (hret : retOf pc = retOf (s.pc t)) (s' : State α n)
    (hs' : s'.pc = s.pc) : (fun v => retOf ((s'.setPc t pc).pc v)) = fun v => retOf (s.pc v) := by
  rw [retOf_setPc, hs']
  funext v
  by_cases hv : v = t
  · rw [hv, Function.update_self, hret]
  · rw [Function.update_of_ne hv]

theorem present_setNode (nd' : Node α) (hx : s.node x = some nd) (hk : nd'.key = nd.key)
    (hmark : nd'.mark = nd.mark) {key : Int} :
    Present ((s.setNode x (some nd')).setPc t pc) l key ↔ Present s l key := by
  constructor
  · intro hex
    obtain ⟨w, ndw, hw, hwt, hnw, hmw, hkw⟩ := hex
    rcases setNode_cases hnw with ⟨rfl, rfl⟩ | ⟨_, hnw⟩
    · exact ⟨w, nd, hw, hwt, hx, hmark ▸ hmw, hk ▸ hkw⟩
    · exact ⟨w, ndw, hw, hwt, hnw, hmw, hkw⟩
  · intro hex
    obtain ⟨w, ndw, hw, hwt, hnw, hmw, hkw⟩ := hex
    by_cases he : w = x
    · subst he
      obtain rfl : nd = ndw := Option.some.inj (hx.symm.trans hnw)
      refine ⟨w, nd', hw, hwt, ?_, hmark.trans hmw, hk.trans hkw⟩
      simp [State.setPc, State.setNode]
    · refine ⟨w, ndw, hw, hwt, ?_, hmw, hkw⟩
      simpa [State.setPc, State.setNode, Function.update_of_ne he] using hnw

/-- Marked nodes are unlinked: a node without a mark gets a later successor, with marked
nodes only in between. The set does not change. -/
theorem Inv.relink (h : Inv s L l) {y z : α} (hx : s.node x = some nd) (hm : nd.mark = false)
    (hseen : Seen s x) (hy : nd.next = some y) (htrail : Trail s.node y z)
    (hnew : pc.newNode = none) (hsnap : ∀ a ∈ pc.snapshots, a ∈ (s.pc t).snapshots)
    (hret : retOf pc = retOf (s.pc t))
    (hop : Gap (rank s.head s.node x) (rank s.head s.node z) (set.after set.init L) →
      pc ≠ .idle → ∃ i o, s.calls.call t = some (i, o) ∧ Performs pc o ∧
        Knows ((s.setNode x (some { nd with next := some z })).setPc t pc) L i pc) :
    ∃ l', Inv ((s.setNode x (some { nd with next := some z })).setPc t pc) L l' := by
  have hxy := nextOf_of hx hy
  have hon := h.list.live x nd hx hm hseen
  obtain ⟨A, B, rfl, hA, hB⟩ := h.list.cut hon hxy
  obtain ⟨M, B, rfl, hM, hB, hbetween⟩ := hB.follow h.list.end htrail
  have hlt : rank s.head s.node x < rank s.head s.node z :=
    (h.list.ascending x y hxy).trans_le (Trail.rank_le h.list htrail)
  obtain ⟨b, hb⟩ := Trail.referred hxy htrail
  have hzseen : Seen s z := Or.inr (Or.inl ⟨b, hb⟩)
  have hxtail : x ≠ s.tail := by
    intro he
    rw [he, h.list.end] at hxy
    cases hxy
  have hvis : ∀ w, ({ nd with next := some z } : Node α).next = some w →
      Seen s w ∨ (s.pc t).newNode = some w := by
    intro w hw
    obtain rfl : z = w := Option.some.inj hw
    exact Or.inl hzseen
  -- a node without a mark is not between `x` and `z`
  have hkeep : ∀ w ndw, s.node w = some ndw → ndw.mark = false → w ∈ A ++ y :: (M ++ B) →
      w ∈ A ++ z :: B := by
    intro w ndw hw hmw hmem
    have hmem : w ∈ A ∨ (w = y ∨ w ∈ M) ∨ w ∈ B := by simpa [or_assoc] using hmem
    rcases hmem with hmem | hmem | hmem
    · exact List.mem_append_left _ hmem
    · rcases hbetween w hmem with rfl | ⟨nd₀, hnd₀, hm₀⟩
      · simp
      · obtain rfl : nd₀ = ndw := Option.some.inj (hnd₀.symm.trans hw)
        rw [hmw] at hm₀
        cases hm₀
    · simp [hmem]
  have hback : ∀ w, w ∈ A ++ z :: B → w ∈ A ++ y :: (M ++ B) := by
    intro w hw
    have hw : w ∈ A ∨ w = z ∨ w ∈ B := by simpa using hw
    rcases hw with hw | rfl | hw
    · simp [hw]
    · rcases hM.last_mem with rfl | hz
      · simp
      · simp [hz]
    · simp [hw]
  have hlist : ListInv ((s.setNode x (some { nd with next := some z })).setPc t pc) (A ++ z :: B) := by
    refine h.list.write { nd with next := some z } hx rfl hxtail rfl (h.list.closed b z hb) hlt
      (fun _ => hm) (hA.relink hB h.list.ascending hlt (fun v hv => nextOf_setNode_of_ne hv)
        (nextOf_setNode_self _)) fun w ndw hw hmw hs => ?_
    have hold : ∃ nd₀, s.node w = some nd₀ ∧ nd₀.mark = false := by
      rcases setNode_cases hw with ⟨rfl, _⟩ | ⟨_, hw⟩
      · exact ⟨nd, hx, hm⟩
      · exact ⟨ndw, hw, hmw⟩
    obtain ⟨nd₀, hnd₀, hm₀⟩ := hold
    have hsw : Seen s w := by
      rcases seen_write hvis hsnap hs with hs | ⟨hz, _⟩
      · exact hs
      · obtain rfl : z = w := Option.some.inj hz
        exact hzseen
    rcases h.list.live w nd₀ hnd₀ hm₀ hsw with hw | hw
    · exact Or.inl hw
    · exact Or.inr (hkeep w nd₀ hnd₀ hm₀ hw)
  have hcontents : ∀ key, key ∈ set.after ∅ L ↔
      Present ((s.setNode x (some { nd with next := some z })).setPc t pc) (A ++ z :: B) key := by
    intro key
    rw [h.contents, present_setNode { nd with next := some z } hx rfl rfl]
    constructor
    · intro hex
      obtain ⟨w, ndw, hw, hwt, hnw, hmw, hkw⟩ := hex
      exact ⟨w, ndw, hkeep w ndw hnw hmw hw, hwt, hnw, hmw, hkw⟩
    · intro hex
      obtain ⟨w, ndw, hw, hwt, hnw, hmw, hkw⟩ := hex
      exact ⟨w, ndw, hback w hw, hwt, hnw, hmw, hkw⟩
  have hgap : Gap (rank s.head s.node x) (rank s.head s.node z) (set.after set.init L) := by
    have hx' : x = s.head ∨ x ∈ A ++ z :: B := hon.imp_right (hkeep x nd hx hm)
    have hg := hlist.gap hcontents hx' (nextOf_setNode_self _)
    have hrank := rank_setNode { nd with next := some z } hx rfl
    rw [← hrank x, ← hrank z]
    exact hg
  refine ⟨A ++ z :: B, ?_, h.legal, hcontents, hlist,
    h.write_threads _ hx hm rfl hseen hvis hnew hsnap (fun _ _ _ _ _ => KeepsSaw.refl) (hop hgap)⟩
  rw [retOf_setPc_same hret (s.setNode x (some { nd with next := some z })) rfl]
  exact h.tracks

/-- The order in which the running call of `t` has taken effect, last. -/
theorem Inv.order_commit (h : Inv s L l) {i : Nat} {o : Op} {r : Bool} {S : Finset Int}
    (happ : set.apply (set.after set.init L) o = (S, r)) :
    set.Legal (L ++ [⟨i, o, r⟩]) ∧ set.after ∅ (L ++ [⟨i, o, r⟩]) = S := by
  refine ⟨Seq.exact_append.mpr ⟨h.legal, ?_, trivial⟩, ?_⟩
  · rw [happ]
  · rw [Seq.after_append]
    change (set.apply (set.after set.init L) o).1 = S
    rw [happ]

/-- The `compare_and_swap` of an `insert` succeeds: the new node is on the path. -/
theorem Inv.insertCas (h : Inv s L l) {key : Int} {right newNode : α}
    (hpc : s.pc t = .insertCas key (some x) right newNode) (hx : s.node x = some nd)
    (hnext : nd.next = some right) (hm : nd.mark = false) :
    ∃ L' l', Inv ((s.setNode x (some { nd with next := some newNode })).setPc t (.ret true)) L' l' := by
  obtain ⟨i, o, hc, ho, hrange, ⟨x', hx', hlt⟩, hgt, hnew⟩ := h.running hpc (by simp)
  obtain rfl : x = x' := Option.some.inj hx'
  obtain rfl : o = .insert key := ho
  have hpriv : Private s t newNode := (h.threads t).owned newNode (by rw [hpc]; rfl)
  have hseen : Seen s x := (h.held (t := t) (by simp [hpc, Pc.snapshots])).2
  have hon := h.list.live x nd hx hm hseen
  have hxr := nextOf_of hx hnext
  have hnr : nextOf s.node newNode = some right := nextOf_of hnew rfl
  have hne_head : newNode ≠ s.head := fun he => hpriv.hidden (Or.inl he)
  have hne_tail : newNode ≠ s.tail := by
    intro he
    rw [he, h.list.end] at hnr
    cases hnr
  have hxtail : x ≠ s.tail := by
    intro he
    rw [he, h.list.end] at hxr
    cases hxr
  have hrank : rank s.head s.node newNode = key := rank_of_ne hne_head hnew
  have habsent : key ∉ set.after set.init L := h.gap hx hm hseen hxr key hlt hgt
  obtain ⟨hlegal, hafter⟩ := h.order_commit (i := i) (set_insert_absent habsent)
  obtain ⟨A, B, rfl, hA, hB⟩ := h.list.cut hon hxr
  have hvis : ∀ w, ({ nd with next := some newNode } : Node α).next = some w →
      Seen s w ∨ (s.pc t).newNode = some w := by
    intro w hw
    obtain rfl : newNode = w := Option.some.inj hw
    exact Or.inr (by rw [hpc]; rfl)
  have hsnap : ∀ a ∈ (Pc.ret true : Pc α).snapshots, a ∈ (s.pc t).snapshots := by
    intro a ha
    cases ha
  have hlist : ListInv ((s.setNode x (some { nd with next := some newNode })).setPc t (.ret true))
      (A ++ newNode :: right :: B) := by
    refine h.list.write { nd with next := some newNode } hx rfl hxtail rfl ⟨_, hnew⟩
      (by rwa [hrank]) (fun _ => hm)
      (hA.relink (B := right :: B) ⟨hnr, hB⟩ h.list.ascending (by rwa [hrank])
        (fun v hv => nextOf_setNode_of_ne hv) (nextOf_setNode_self _)) fun w ndw hw hmw hs => ?_
    have hmem : w ∈ A ++ right :: B → w ∈ A ++ newNode :: right :: B := by
      simp only [List.mem_append, List.mem_cons]
      tauto
    rcases setNode_cases hw with ⟨rfl, _⟩ | ⟨_, hw⟩
    · exact hon.imp_right hmem
    · rcases seen_write hvis hsnap hs with hs | ⟨hz, _⟩
      · exact (h.list.live w ndw hw hmw hs).imp_right hmem
      · obtain rfl : newNode = w := Option.some.inj hz
        exact Or.inr (by simp)
  refine ⟨L ++ [⟨i, .insert key, true⟩], A ++ newNode :: right :: B, ?_, hlegal, fun k => ?_, hlist,
    h.write_threads _ hx hm rfl hseen hvis rfl hsnap (fun v j o' hv hj P hP => ?_)
      fun _ => ⟨i, _, hc, trivial, trivial⟩⟩
  · rw [retOf_setPc]
    exact h.tracks.commit true hc (by rw [hpc]; rfl)
  · rw [hafter, Finset.mem_insert, present_setNode { nd with next := some newNode } hx rfl rfl]
    rw [show set.after set.init L = set.after ∅ L from rfl, h.contents]
    constructor
    · intro hk
      rcases hk with rfl | ⟨w, ndw, hw, hrest⟩
      · exact ⟨newNode, _, by simp, hne_tail, hnew, rfl, rfl⟩
      · refine ⟨w, ndw, ?_, hrest⟩
        simp only [List.mem_append, List.mem_cons] at hw ⊢
        tauto
    · intro hex
      obtain ⟨w, ndw, hw, hwt, hnw, hmw, hkw⟩ := hex
      by_cases he : w = newNode
      · subst he
        rw [hnew] at hnw
        cases hnw
        exact Or.inl hkw.symm
      · exact Or.inr ⟨w, ndw, by simpa [he] using hw, hwt, hnw, hmw, hkw⟩
  · exact hP.commit (h.tracks.running t i _ hc)

/-- A `remove` sets the mark: the key leaves the set. -/
theorem Inv.removeMark (h : Inv s L l) {key : Int} {left next : Option α} {right : α}
    (hpc : s.pc t = .removeMark key left right next) (hx : s.node right = some nd)
    (hnext : nd.next = next) (hm : nd.mark = false) :
    ∃ L', Inv ((s.setNode right (some { nd with mark := true })).setPc t
      (.removeUnlink key left right next)) L' l := by
  obtain ⟨i, o, hc, ho, hrange, hleft, hkey, y, rfl⟩ := h.running hpc (by simp)
  obtain rfl : o = .remove key := ho
  have hseen : Seen s right := (h.held (t := t) (by simp [hpc, Pc.snapshots])).2
  obtain ⟨hmem, htail, hndkey, hpresent⟩ := h.mem hx hm hseen hrange hkey
  have hry := nextOf_of hx hnext
  obtain ⟨hlegal, hafter⟩ := h.order_commit (i := i) (set_remove_present hpresent)
  have hvis : ∀ w, ({ nd with mark := true } : Node α).next = some w →
      Seen s w ∨ (s.pc t).newNode = some w := by
    intro w hw
    exact Or.inl (Or.inr (Or.inl ⟨right, nextOf_of hx hw⟩))
  have hsnap : ∀ a ∈ (Pc.removeUnlink key left right (some y) : Pc α).snapshots,
      a ∈ (s.pc t).snapshots := by
    intro a ha
    rw [hpc]
    exact ha
  have hrank := rank_setNode { nd with mark := true } hx rfl
  have hlist : ListInv ((s.setNode right (some { nd with mark := true })).setPc t
      (.removeUnlink key left right (some y))) l := by
    refine h.list.write { nd with mark := true } hx rfl htail hnext (h.list.closed right y hry)
      (h.list.ascending right y hry) (fun he => absurd he (h.list.ne_head hmem))
      (h.list.path.mono fun u v _ huv => ?_) fun w ndw hw hmw hs => ?_
    · by_cases hu : u = right
      · subst hu
        rw [nextOf_setNode_self, hnext, ← hry, huv]
      · rw [nextOf_setNode_of_ne hu, huv]
    · rcases setNode_cases hw with ⟨_, rfl⟩ | ⟨_, hw⟩
      · cases hmw
      · rcases seen_write hvis hsnap hs with hs | ⟨hz, _⟩
        · exact h.list.live w ndw hw hmw hs
        · exact h.list.live w ndw hw hmw (Or.inr (Or.inl ⟨right, nextOf_of hx hz⟩))
  refine ⟨L ++ [⟨i, .remove key, true⟩], ?_, hlegal, fun k => ?_, hlist,
    h.write_threads _ hx hm rfl hseen hvis rfl hsnap (fun v j o' hv hj P hP => ?_)
      fun _ => ⟨i, _, hc, rfl, hrange, ?_, y, rfl, ?_, ?_⟩⟩
  · rw [retOf_setPc]
    exact h.tracks.commit true hc (by rw [hpc]; rfl)
  · rw [hafter, Finset.mem_erase]
    rw [show set.after set.init L = set.after ∅ L from rfl, h.contents]
    constructor
    · intro hex
      obtain ⟨hne, w, ndw, hw, hwt, hnw, hmw, hkw⟩ := hex
      have hwr : w ≠ right := by
        intro he
        rw [he, hx] at hnw
        cases hnw
        exact hne (hkw.symm.trans hndkey)
      refine ⟨w, ndw, hw, hwt, ?_, hmw, hkw⟩
      simpa [State.setPc, State.setNode, Function.update_of_ne hwr] using hnw
    · intro hex
      obtain ⟨w, ndw, hw, hwt, hnw, hmw, hkw⟩ := hex
      rcases setNode_cases hnw with ⟨_, rfl⟩ | ⟨hwr, hnw⟩
      · cases hmw
      · refine ⟨fun hk => hwr ?_, w, ndw, hw, hwt, hnw, hmw, hkw⟩
        refine h.list.eq_of_key hw hmem ?_
        rw [rank_of_ne (h.list.ne_head hw) hnw, hkw, hk, hkey]
  · exact hP.commit (h.tracks.running t i _ hc)
  · obtain ⟨x, hx', hlt⟩ := hleft
    exact ⟨x, hx', (hrank x).trans_lt hlt⟩
  · exact (nextOf_setNode_self _).trans hnext
  · exact ⟨{ nd with mark := true }, by simp [State.setPc, State.setNode], rfl⟩

end Writes

/-! ## Nodes that come and go -/

section Nodes
variable {s : State α n} {t : Fin n} {L : List (Entry Op Bool)} {l : List α} {a : α}

/-- What is referred to is allocated. -/
theorem Inv.seen_allocated (h : Inv s L l) (ha : Seen s a) : ∃ nd, s.node a = some nd := by
  rcases ha with rfl | ⟨b, hb⟩ | ⟨u, hu⟩
  · obtain ⟨nd, hnd, _⟩ := h.list.head
    exact ⟨nd, hnd⟩
  · exact h.list.closed b a hb
  · exact (h.threads u).allocated a (Or.inr hu)

omit [DecidableEq α] in
theorem ne_of_free (ha : s.node a = none) {b : α} {nd : Node α} (hb : s.node b = some nd) :
    b ≠ a := by
  intro he
  rw [he, ha] at hb
  cases hb

theorem rank_setNode_of_ne {nd : Option (Node α)} {b : α} (hb : b ≠ a) :
    rank s.head (s.setNode a nd).node b = rank s.head s.node b := by
  simp [rank, State.setNode, Function.update_of_ne hb]

/-- A node at a free address, with a larger successor. -/
theorem ascending_allocate (hasc : Ascending (nextOf s.node) (rank s.head s.node))
    (hc : ∀ u v, nextOf s.node u = some v → ∃ nv, s.node v = some nv) (ha : s.node a = none)
    (hhead : a ≠ s.head) {key : Int} {right : α} {ndr : Node α} (hr : s.node right = some ndr)
    (hlt : key < rank s.head s.node right) :
    Ascending (nextOf (s.setNode a (some ⟨key, some right, false⟩)).node)
      (rank s.head (s.setNode a (some ⟨key, some right, false⟩)).node) := by
  have hrank_a : rank s.head (s.setNode a (some ⟨key, some right, false⟩)).node a = key := by
    simp [rank, State.setNode, hhead]
  intro u v huv
  rcases nextOf_setNode_cases huv with ⟨rfl, h⟩ | ⟨hu, h⟩
  · obtain rfl : right = v := Option.some.inj h
    exact hrank_a.trans_lt (hlt.trans_eq (rank_setNode_of_ne (ne_of_free ha hr)).symm)
  · obtain ⟨nd, hnd⟩ := hc u v h
    exact (rank_setNode_of_ne hu).trans_lt
      ((hasc u v h).trans_eq (rank_setNode_of_ne (ne_of_free ha hnd)).symm)

/-- A node at a free address that nothing refers to does not touch the path. -/
theorem ListInv.allocate (h : ListInv s l) {key : Int} {right : α} {ndr : Node α}
    (ha : s.node a = none) (hkey : lowestKey ≤ key) (hr : s.node right = some ndr)
    (hlt : key < rank s.head s.node right) {pc : Pc α}
    (hseen : ∀ b, Seen ((s.setNode a (some ⟨key, some right, false⟩)).setPc t pc) b → Seen s b)
    (hnot : ¬ Seen s a) :
    ListInv ((s.setNode a (some ⟨key, some right, false⟩)).setPc t pc) l := by
  have hkept : ∀ b nd, s.node b = some nd →
      (s.setNode a (some ⟨key, some right, false⟩)).node b = some nd := by
    intro b nd hb
    simpa [State.setNode, Function.update_of_ne (ne_of_free ha hb)] using hb
  obtain ⟨ndh, hndh, hmh⟩ := h.head
  have hascending := ascending_allocate h.ascending h.closed ha (ne_of_free ha hndh).symm hr hlt
  have hclosed : ∀ u v, nextOf (s.setNode a (some ⟨key, some right, false⟩)).node u = some v →
      ∃ nv, (s.setNode a (some ⟨key, some right, false⟩)).node v = some nv := by
    intro u v
    refine closed_setNode h.closed fun v hv => ?_
    obtain rfl : right = v := Option.some.inj hv
    exact ⟨ndr, hr⟩
  refine ⟨?_, hascending, hclosed, fun b nd hb hne => ?_, ⟨ndh, hkept _ _ hndh, hmh⟩,
    hkept _ _ h.tail, h.sentinels, fun b nd hb => ?_,
    fun b nd hb hm hs => ?_⟩
  · refine h.path.mono fun u v _ huv => ?_
    obtain ⟨nd, hnd, _⟩ := nextOf_some huv
    exact (nextOf_setNode_of_ne (ne_of_free ha hnd)).trans huv
  · rcases setNode_cases hb with ⟨_, rfl⟩ | ⟨_, hb⟩
    · exact ⟨right, rfl⟩
    · exact h.goes_on b nd hb hne
  · rcases setNode_cases hb with ⟨_, rfl⟩ | ⟨_, hb⟩
    · exact hkey
    · exact h.keys b nd hb
  · rcases setNode_cases hb with ⟨rfl, _⟩ | ⟨_, hb⟩
    · exact absurd (hseen b hs) hnot
    · exact h.live b nd hb hm (hseen b hs)

/-- `make_shared` of an `insert`: the address was free, so nobody refers to it. -/
theorem Inv.allocate (h : Inv s L l) {key : Int} {left : Option α} {right : α}
    (hpc : s.pc t = .insertNew key left right) (ha : s.node a = none) :
    Inv ((s.setNode a (some ⟨key, some right, false⟩)).setPc t (.insertCas key left right a)) L l := by
  obtain ⟨i, o, hc, ho, hrange, ⟨x, rfl, hlt⟩, hgt⟩ := h.running hpc (by simp)
  have hnot : ¬ Seen s a := by
    intro hs
    obtain ⟨nd, hnd⟩ := h.seen_allocated hs
    exact ne_of_free ha hnd rfl
  have hsnap : ∀ b ∈ (Pc.insertCas key (some x) right a).snapshots,
      (∃ nd, s.node b = some nd) ∧ Seen s b := by
    intro b hb
    refine h.held (t := t) ?_
    rw [hpc]
    exact hb
  obtain ⟨⟨ndx, hndx⟩, _⟩ := hsnap x (by simp [Pc.snapshots])
  obtain ⟨⟨ndr, hndr⟩, hrseen⟩ := hsnap right (by simp [Pc.snapshots])
  -- the new node refers to `right` only, which was referred to
  have hseen : ∀ b, Seen ((s.setNode a (some ⟨key, some right, false⟩)).setPc t
      (.insertCas key (some x) right a)) b → Seen s b := by
    intro b hb
    rcases hb with hb | ⟨c, hc⟩ | ⟨u, hu⟩
    · exact Or.inl hb
    · by_cases hca : c = a
      · subst hca
        obtain rfl : right = b := Option.some.inj ((nextOf_setNode_self _).symm.trans hc)
        exact hrseen
      · exact Or.inr (Or.inl ⟨c, (nextOf_setNode_of_ne hca).symm.trans hc⟩)
    · by_cases hut : u = t
      · rw [hut, setPc_self] at hu
        exact (hsnap b hu).2
      · rw [setPc_of_ne _ _ hut] at hu
        exact Or.inr (Or.inr ⟨u, hu⟩)
  have hret : retOf (Pc.insertCas key (some x) right a) = retOf (s.pc t) := by rw [hpc]; rfl
  have hpath : ∀ w ∈ l, w ≠ a := by
    intro w hw he
    obtain ⟨b, hb⟩ := h.list.path.pred hw
    exact hnot (he ▸ Or.inr (Or.inl ⟨b, hb⟩))
  refine ⟨?_, h.legal, fun k => ?_, h.list.allocate ha hrange.1 hndr hgt hseen hnot,
    threads_step (t := t) h.threads (fun v hv => ?_) (fun _ _ _ _ _ P hP => hP)
      (fun v b hv ho hp => ⟨fun hs => hp.hidden (hseen b hs), ?_⟩) ⟨fun _ => ?_, ?_, ?_⟩⟩
  · rw [retOf_setPc_same hret (s.setNode a (some ⟨key, some right, false⟩)) rfl]
    exact h.tracks
  · rw [h.contents]
    constructor
    · intro hex
      obtain ⟨w, ndw, hw, hwt, hnw, hrest⟩ := hex
      refine ⟨w, ndw, hw, hwt, ?_, hrest⟩
      simpa [State.setPc, State.setNode, Function.update_of_ne (hpath w hw)] using hnw
    · intro hex
      obtain ⟨w, ndw, hw, hwt, hnw, hrest⟩ := hex
      rcases setNode_cases hnw with ⟨he, _⟩ | ⟨_, hnw⟩
      · exact absurd he (hpath w hw)
      · exact ⟨w, ndw, hw, hwt, hnw, hrest⟩
  · refine ⟨setPc_of_ne _ _ hv, rfl, rfl, fun w _ nd hnd => ?_, fun b hb => ?_⟩
    · refine ⟨nd, ?_, rfl, fun _ => rfl⟩
      simpa [State.setPc, State.setNode, Function.update_of_ne (ne_of_free ha hnd)] using hnd
    · obtain ⟨nd, hnd⟩ := (h.threads v).allocated b (Or.inl hb)
      exact Function.update_of_ne (ne_of_free ha hnd) ..
  · rw [setPc_self]
    intro he
    obtain ⟨nd, hnd⟩ := (h.threads v).allocated b (Or.inl ho)
    exact ne_of_free ha hnd (Option.some.inj he).symm
  · rw [setPc_self]
    refine ⟨i, o, hc, ho, hrange, ⟨x, rfl, ?_⟩, ?_, ?_⟩
    · exact (rank_setNode_of_ne (ne_of_free ha hndx)).trans_lt hlt
    · exact hgt.trans_eq (rank_setNode_of_ne (ne_of_free ha hndr)).symm
    · simp [State.setPc, State.setNode]
  · rw [setPc_self]
    intro b hb
    obtain rfl : a = b := Option.some.inj hb
    refine ⟨fun hs => hnot (hseen a hs), fun u hu hn => ?_⟩
    rw [setPc_of_ne _ _ hu] at hn
    obtain ⟨nd, hnd⟩ := (h.threads u).allocated a (Or.inl hn)
    exact ne_of_free ha hnd rfl
  · rw [setPc_self]
    intro b hb
    rcases hb with hb | hb
    · obtain rfl : a = b := Option.some.inj hb
      exact ⟨_, Function.update_self ..⟩
    · obtain ⟨⟨nd, hnd⟩, _⟩ := hsnap b hb
      exact ⟨nd, (Function.update_of_ne (ne_of_free ha hnd) ..).trans hnd⟩

theorem ListInv.setCalls (h : ListInv s l) (c : Calls (Fin n) Op Bool) :
    ListInv { s with calls := c } l :=
  ⟨h.path, h.ascending, h.closed, h.goes_on, h.head, h.tail, h.sentinels, h.keys, h.live⟩

omit [DecidableEq α] in
theorem start_snapshots (o : Op) : (start o : Pc α).snapshots = [] := by
  cases o <;> rfl

omit [DecidableEq α] in
theorem start_newNode (o : Op) : (start o : Pc α).newNode = none := by
  cases o <;> rfl

/-- A call begins. -/
theorem Inv.call (h : Inv s L l) (o : Op) (ho : InRange o.key) :
    Inv { s.setPc t (start o) with calls := s.calls.invoke t o } L l := by
  have hseen : ∀ b, Seen { s.setPc t (start o) with calls := s.calls.invoke t o } b → Seen s b := by
    intro b hb
    have hb : Seen (s.setPc t (start o)) b := hb
    exact seen_setPc (by simp [start_snapshots]) hb
  refine ⟨?_, h.legal, h.contents, (h.list.setPc (by simp [start_snapshots])).setCalls _,
    threads_step (t := t) h.threads (fun v hv => ?_) (fun v i o' hv hc P hP => ?_)
      (fun v b hv _ hp => ⟨fun hs => hp.hidden (hseen b hs), ?_⟩) ⟨fun _ => ?_, ?_, ?_⟩⟩
  · change Tracks _ L fun v => retOf ((s.setPc t (start o)).pc v)
    have hret : retOf (start o : Pc α) = none := by cases o <;> rfl
    rw [retOf_setPc, hret]
    exact h.tracks.invoke t o
  · exact ⟨setPc_of_ne s _ hv, Function.update_of_ne hv .., rfl, fun _ _ => .of_eq rfl, fun _ _ => rfl⟩
  · have hlt := h.tracks.fresh i o' (h.tracks.invoked v i o' hc)
    exact hP.invoke hlt.ne
  · change ((s.setPc t (start o)).pc t).newNode ≠ _
    rw [setPc_self, start_newNode]
    simp
  · refine ⟨s.calls.nextId, o, Function.update_self .., ?_⟩
    change Performs ((s.setPc t (start o)).pc t) o ∧ Knows _ _ _ ((s.setPc t (start o)).pc t)
    rw [setPc_self]
    cases o <;> exact ⟨rfl, ho, trivial⟩
  · change ∀ a, ((s.setPc t (start o)).pc t).newNode = some a → _
    rw [setPc_self, start_newNode]
    intro a ha
    cases ha
  · change ∀ a, ((s.setPc t (start o)).pc t).newNode = some a ∨
      a ∈ ((s.setPc t (start o)).pc t).snapshots → _
    rw [setPc_self, start_newNode, start_snapshots]
    intro a ha
    simp at ha

/-- A call that has taken effect returns. -/
theorem Inv.respond (h : Inv s L l) {r : Bool} (hpc : s.pc t = .ret r) : Inv (s.respond t r) L l := by
  obtain ⟨i, o, hc, _⟩ := h.running hpc (by simp)
  have hcalls : s.calls.respond t r =
      ⟨s.calls.hist ++ [.res i r], s.calls.nextId, Function.update s.calls.call t none⟩ := by
    simp only [Calls.respond, hc]
  have hpct : (s.respond t r).pc t = .idle := setPc_self s t _
  have hseen : ∀ b, Seen (s.respond t r) b → Seen s b := by
    intro b hb
    have hb : Seen (s.setPc t .idle) b := hb
    exact seen_setPc (by simp [Pc.snapshots]) hb
  refine ⟨?_, h.legal, h.contents, (h.list.setPc (by simp [Pc.snapshots])).setCalls _,
    threads_step (t := t) h.threads (fun v hv => ?_) (fun v j o' hv hj P hP => ?_)
      (fun v b hv _ hp => ⟨fun hs => hp.hidden (hseen b hs), ?_⟩) ⟨fun hi => absurd hpct hi, ?_, ?_⟩⟩
  · refine (h.tracks.respond hc (by rw [hpc]; rfl)).congr fun u j o' hu => ?_
    have hut : u ≠ t := by
      intro he
      rw [hcalls, he] at hu
      simp at hu
    change retOf ((s.setPc t .idle).pc u) = _
    rw [setPc_of_ne s _ hut]
  · refine ⟨setPc_of_ne s _ hv, ?_, rfl, fun _ _ => .of_eq rfl, fun _ _ => rfl⟩
    change (s.calls.respond t r).call v = _
    rw [hcalls]
    exact Function.update_of_ne hv ..
  · change Saw set (s.calls.respond t r).hist L j P
    rw [hcalls]
    exact hP.respond
  · rw [hpct]
    simp [Pc.newNode]
  · rw [hpct]
    intro a ha
    cases ha
  · rw [hpct]
    intro a ha
    simp [Pc.newNode, Pc.snapshots] at ha

theorem strong_eq_zero [Fintype α] (h : s.strong a = 0) :
    s.head ≠ a ∧ s.tail ≠ a ∧ (∀ b, nextOf s.node b ≠ some a) ∧
      ∀ t, (s.pc t).newNode ≠ some a := by
  simp only [State.strong, Nat.add_eq_zero_iff, Finset.sum_eq_zero_iff, Finset.mem_univ,
    true_implies, ite_eq_right_iff, Nat.one_ne_zero, imp_false] at h
  obtain ⟨⟨⟨hh, ht⟩, hnx⟩, hpc⟩ := h
  exact ⟨hh, ht, hnx, hpc⟩

/-- A node that nobody refers to is destroyed. -/
theorem Inv.reclaim [Fintype α] (h : Inv s L l) (ha : s.strong a = 0)
    (hsnap : ∀ t, a ∉ (s.pc t).snapshots) : Inv (s.setNode a none) L l := by
  obtain ⟨hhead, htail, hnexts, hnews⟩ := strong_eq_zero ha
  have hnode : ∀ b, b ≠ a → (s.setNode a none).node b = s.node b :=
    fun b hb => Function.update_of_ne hb ..
  have hold : ∀ b nd, (s.setNode a none).node b = some nd → b ≠ a ∧ s.node b = some nd := by
    intro b nd hb
    by_cases he : b = a
    · subst he
      simp [State.setNode] at hb
    · exact ⟨he, (hnode b he).symm.trans hb⟩
  have hnext : ∀ u v, nextOf (s.setNode a none).node u = some v →
      u ≠ a ∧ v ≠ a ∧ nextOf s.node u = some v := by
    intro u v huv
    obtain ⟨nd, hnd, hv⟩ := nextOf_some huv
    obtain ⟨hu, hnd⟩ := hold u nd hnd
    have huv' := nextOf_of hnd hv
    refine ⟨hu, fun he => hnexts u ?_, huv'⟩
    rw [huv', he]
  have hpath : ∀ w ∈ l, w ≠ a := by
    intro w hw he
    obtain ⟨b, hb⟩ := h.list.path.pred hw
    exact hnexts b (he ▸ hb)
  have hseen : ∀ b, Seen (s.setNode a none) b → Seen s b := by
    intro b hb
    rcases hb with hb | ⟨c, hc⟩ | hb
    · exact Or.inl hb
    · exact Or.inr (Or.inl ⟨c, (hnext c b hc).2.2⟩)
    · exact Or.inr (Or.inr hb)
  obtain ⟨ndh, hndh, hmh⟩ := h.list.head
  refine ⟨h.tracks, h.legal, fun k => ?_, ⟨?_, ?_, ?_, ?_, ⟨ndh, ?_, hmh⟩, ?_, h.list.sentinels, ?_, ?_⟩,
    fun v => ?_⟩
  · rw [h.contents]
    constructor
    · intro hex
      obtain ⟨w, ndw, hw, hwt, hnw, hrest⟩ := hex
      exact ⟨w, ndw, hw, hwt, (hnode w (hpath w hw)).trans hnw, hrest⟩
    · intro hex
      obtain ⟨w, ndw, hw, hwt, hnw, hrest⟩ := hex
      exact ⟨w, ndw, hw, hwt, (hold w ndw hnw).2, hrest⟩
  · refine h.list.path.mono fun u v hu huv => (nextOf_setNode_of_ne ?_).trans huv
    rcases hu with rfl | hu
    · exact hhead
    · exact hpath u hu
  · intro u v huv
    obtain ⟨hu, hv, huv⟩ := hnext u v huv
    exact (rank_setNode_of_ne hu).trans_lt
      ((h.list.ascending u v huv).trans_eq (rank_setNode_of_ne hv).symm)
  · intro u v huv
    obtain ⟨_, hv, huv⟩ := hnext u v huv
    obtain ⟨nd, hnd⟩ := h.list.closed u v huv
    exact ⟨nd, (hnode v hv).trans hnd⟩
  · intro b nd hb hne
    exact h.list.goes_on b nd (hold b nd hb).2 hne
  · exact (hnode _ hhead).trans hndh
  · exact (hnode _ htail).trans h.list.tail
  · intro b nd hb
    exact h.list.keys b nd (hold b nd hb).2
  · intro b nd hb hm hs
    exact h.list.live b nd (hold b nd hb).2 hm (hseen b hs)
  · refine (h.threads v).frame ⟨rfl, rfl, rfl, fun w hw => .of_eq (hnode w ?_), fun b hb =>
      hnode b ?_⟩ (fun _ _ _ P hP => hP) fun b hb hp => ⟨fun hs => hp.hidden (hseen b hs), hp.others⟩
    · intro he
      subst he
      rcases hw with hw | ⟨b, hb⟩
      · exact hsnap v hw
      · exact hnexts b hb
    · intro he
      subst he
      exact hnews v hb

end Nodes

end Cdrc.LinkedList
