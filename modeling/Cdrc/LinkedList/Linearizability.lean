import Cdrc.LinkedList.Steps

/-! # `atomic_linked_list` is a linearizable set

In every state of every run the nodes from `head` lead to `tail`, the keys of those without a
mark grow after the head sentinel, and the history is that of a sequential set. A thread in a
call can always take its next step, as no pointer it follows is null or dangling, and a
node that has been marked is not written again. -/
namespace Cdrc.LinkedList
open Cdrc.Lib.Runs Cdrc.Lib.Objects Cdrc.Lib.History Cdrc.Lib.Paths

variable {α : Type} [DecidableEq α] {n : Nat}

/-! ## The steps of a call -/

section Steps
variable {s : State α n} {t : Fin n} {L : List (Entry Op Bool)} {l : List α} {goal : Goal}
  {key : Int} {left : Option α} {right : α} {nd : Node α}

/-- Between the nodes of a `search` there was a moment without the key. -/
theorem Between.absent {i : Nat} (hb : Between s L i key left right)
    (hlt : key < rank s.head s.node right) :
    Saw set s.calls.hist L i fun S => key ∉ S := by
  obtain ⟨x, hx, hxk⟩ := hb.left_lt
  exact (hb.gap x hx).mono fun S hS => hS key hxk hlt

/-- `search` has found a node without a mark, and its caller goes on. -/
theorem Inv.found (h : Inv s L l) (hpc : s.pc t = .search goal key (.check left right))
    (hnd : s.node right = some nd) (hm : nd.mark = false) :
    ∃ L', Inv (s.setPc t (found goal key left right nd)) L' l := by
  obtain ⟨i, o, hc, ho, hrange, hb⟩ := h.running hpc (by simp)
  have hbusy : s.pc t ≠ .idle := by rw [hpc]; simp
  have hheld : ∀ a ∈ (s.pc t).snapshots, (∃ nd, s.node a = some nd) ∧ Seen s a := fun a => h.held
  have hseen : Seen s right := (hheld right (by simp [hpc, Pc.snapshots, Search.snapshots])).2
  have hne : right ≠ s.head := by
    intro he
    have hle := hb.le_right
    simp only [rank, he, if_true] at hle
    have := hrange.1
    omega
  have hrank : rank s.head s.node right = nd.key := rank_of_ne hne hnd
  have hle := hb.le_right
  rw [hrank] at hle
  cases goal with
  | find =>
    obtain rfl : o = .find key := ho
    by_cases hk : nd.key = key
    · have hmem := (h.mem hnd hm hseen hrange (hrank.trans hk)).2.2.2
      rw [LinkedList.found, decide_eq_true hk]
      exact h.answers (by rw [hpc]; rfl) hbusy hc (Saw.now (set_find_present hmem))
    · rw [LinkedList.found, decide_eq_false hk]
      refine h.answers (by rw [hpc]; rfl) hbusy hc ?_
      exact (hb.absent (by omega)).mono fun S hS => set_find_absent hS
  | insert =>
    obtain rfl : o = .insert key := ho
    by_cases hk : nd.key = key
    · have hmem := (h.mem hnd hm hseen hrange (hrank.trans hk)).2.2.2
      rw [LinkedList.found, if_pos hk]
      exact h.answers (by rw [hpc]; rfl) hbusy hc (Saw.now (set_insert_present hmem))
    · rw [LinkedList.found, if_neg hk]
      refine ⟨L, h.goes ⟨hbusy, rfl, ?_, fun j o' _ ho' hk' => ?_⟩ (by rw [hpc]; rfl)⟩
      · rw [hpc] at hheld
        exact hheld
      · rw [hpc] at ho' hk'
        exact ⟨ho', hrange, hb.left_lt, by omega⟩
  | remove =>
    obtain rfl : o = .remove key := ho
    by_cases hk : nd.key = key
    · rw [LinkedList.found, if_neg (not_not.mpr hk)]
      refine ⟨L, h.goes ⟨hbusy, rfl, ?_, fun j o' _ ho' hk' => ?_⟩ (by rw [hpc]; rfl)⟩
      · rw [hpc] at hheld
        exact hheld
      · rw [hpc] at ho' hk'
        exact ⟨ho', hrange, hb.left_lt, hrank.trans hk⟩
    · rw [LinkedList.found, if_pos hk]
      refine h.answers (by rw [hpc]; rfl) hbusy hc ?_
      exact (hb.absent (by omega)).mono fun S hS => set_remove_absent hS
  | removed =>
    refine ⟨L, h.goes ⟨hbusy, rfl, by simp [LinkedList.found, Pc.snapshots], fun j o' _ _ _ => ?_⟩
      (by rw [hpc]; rfl)⟩
    exact ⟨trivial, trivial⟩

/-- `search` has a next step, and keeps the invariant with it. -/
theorem Inv.searchStep (h : Inv s L l) {st : Search α} (hpc : s.pc t = .search goal key st) :
    ∃ s', searchStep s t goal key st = some s' ∧ ∃ L' l', Inv s' L' l' := by
  obtain ⟨i, o, hc, ho, hrange, hk⟩ := h.running hpc (by simp)
  have hheld : ∀ a ∈ st.snapshots, (∃ nd, s.node a = some nd) ∧ Seen s a := by
    intro a ha
    refine h.held (t := t) ?_
    rw [hpc]
    exact ha
  have hrestart : Inv (s.setPc t (.search goal key .head)) L l :=
    h.goes_search hpc (by simp [Search.snapshots]) fun _ _ => trivial
  cases st with
  | head =>
    obtain ⟨nd, hnd, _⟩ := h.list.head
    refine ⟨_, rfl, L, l, h.goes_search hpc ?_ fun _ _ => rfl⟩
    simp only [Search.snapshots, List.forall_mem_cons]
    exact ⟨⟨⟨nd, hnd⟩, Or.inl rfl⟩, by simp⟩
  | first right =>
    obtain rfl : right = s.head := hk
    obtain ⟨nd, hnd, hm⟩ := h.list.head
    obtain ⟨y, hy⟩ := h.list.goes_on s.head nd hnd h.list.sentinels
    have hnext := nextOf_of hnd hy
    have hst : LinkedList.advance none none s.head nd = some (.next (some s.head) none y) := by
      simp [LinkedList.advance, hy, hm]
    refine ⟨s.setPc t (.search goal key (.next (some s.head) none y)), ?_, L, l,
      h.goes_search hpc ?_ fun j _ => ⟨h.list.next_ne_head hnext, s.head, rfl, ?_, Saw.now ?_⟩⟩
    · simp [LinkedList.searchStep, hnd, hst]
    · simp only [Search.snapshots, Option.toList_some, Option.toList_none, List.append_nil,
        List.cons_append, List.nil_append, List.forall_mem_cons]
      exact ⟨⟨⟨nd, hnd⟩, Or.inl rfl⟩, h.read hnext, by simp⟩
    · have := hrange.1
      simp only [rank, if_true]
      omega
    · exact h.gap hnd hm (Or.inl rfl) hnext
  | next left leftNxt right =>
    obtain ⟨⟨nd, hnd⟩, hseen⟩ := hheld right (by simp [Search.snapshots])
    by_cases hgo : nd.mark = true ∨ nd.key < key
    · obtain ⟨st, hst, hinv⟩ := h.advance hpc hnd hgo
      exact ⟨_, by simp [LinkedList.searchStep, hnd, hgo, hst], L, l, hinv⟩
    · obtain ⟨hne, x, rfl, hlt, hm⟩ := hk
      have hle : key ≤ rank s.head s.node right := by
        rw [rank_of_ne hne hnd]
        exact not_lt.mp fun hlt => hgo (Or.inr hlt)
      cases leftNxt with
      | none =>
        refine ⟨s.setPc t (.search goal key (.check (some x) right)), ?_, L, l,
          h.goes_search hpc ?_ fun j hj => ⟨⟨x, rfl, hlt⟩, hle, fun x' hx' => ?_⟩⟩
        · simp [LinkedList.searchStep, hnd, hgo]
        · intro a ha
          exact hheld a (by simpa [Search.snapshots] using ha)
        · obtain rfl : x = x' := Option.some.inj hx'
          obtain ⟨_, x'', hx'', _, hj⟩ := hj
          obtain rfl : x = x'' := Option.some.inj hx''
          exact hj
      | some w =>
        refine ⟨s.setPc t (.search goal key (.unlink (some x) w right)), ?_, L, l,
          h.goes_search hpc ?_ fun j _ => ⟨⟨x, rfl, hlt⟩, hle, hm⟩⟩
        · simp [LinkedList.searchStep, hnd, hgo]
        · intro a ha
          exact hheld a (by simpa [Search.snapshots] using ha)
  | unlink left leftNxt right =>
    obtain ⟨⟨x, rfl, hlt⟩, hle, htrail⟩ := hk
    obtain ⟨⟨nd, hnd⟩, hseen⟩ := hheld x (by simp [Search.snapshots])
    by_cases hcas : nd.next = some leftNxt ∧ nd.mark = false
    · have hstep : LinkedList.searchStep s t goal key (.unlink (some x) leftNxt right) =
          some ((s.setNode x (some { nd with next := some right })).setPc t
            (.search goal key (.check (some x) right))) := by
        simp only [LinkedList.searchStep, Option.bind_some, hnd, Option.map_some, if_pos hcas]
      refine ⟨_, hstep, L, ?_⟩
      have hrank := rank_setNode { nd with next := some right } hnd rfl
      refine h.relink hnd hcas.2 hseen hcas.1 htrail rfl ?_ ?_ fun hgap _ => ⟨i, o, hc, ho, hrange,
        ⟨x, rfl, ?_⟩, ?_, fun x' hx' => ?_⟩
      · intro a ha
        rw [hpc]
        have ha : a = x ∨ a = right := by simpa [Pc.snapshots, Search.snapshots] using ha
        rcases ha with rfl | rfl <;> simp [Pc.snapshots, Search.snapshots]
      · rw [hpc]
        cases goal <;> rfl
      · exact (hrank x).trans_lt hlt
      · exact hle.trans_eq (hrank right).symm
      · obtain rfl : x = x' := Option.some.inj hx'
        refine Saw.now ?_
        change Gap (rank s.head (s.setNode x _).node x) (rank s.head (s.setNode x _).node right) _
        rw [hrank x, hrank right]
        exact hgap
    · exact ⟨_, by simp [LinkedList.searchStep, hnd, hcas], L, l, hrestart⟩
  | check left right =>
    obtain ⟨⟨nd, hnd⟩, _⟩ := hheld right (by simp [Search.snapshots])
    by_cases hm : nd.mark = false
    · obtain ⟨L', hinv⟩ := h.found hpc hnd hm
      exact ⟨_, by simp [LinkedList.searchStep, hnd, hm], L', l, hinv⟩
    · exact ⟨_, by simp [LinkedList.searchStep, hnd, hm], L, l, hrestart⟩

/-- A call starts its `search` again. -/
theorem Inv.restart (h : Inv s L l) {goal : Goal} {key : Int} (hbusy : s.pc t ≠ .idle)
    (hret : retOf (.search goal key .head : Pc α) = retOf (s.pc t))
    (hk : ∀ i o, Performs (s.pc t) o → Knows s L i (s.pc t) → o = goal.op key ∧ InRange key) :
    Inv (s.setPc t (.search goal key .head)) L l := by
  refine h.goes ⟨hbusy, rfl, by simp [Pc.snapshots, Search.snapshots], fun i o _ ho hkn => ?_⟩ hret
  obtain ⟨ho', hrange⟩ := hk i o ho hkn
  exact ⟨ho', hrange, trivial⟩

/-- A thread in a call has a next step, given a free address where it needs one, and keeps
the invariant with it. -/
theorem Inv.step (h : Inv s L l) (hbusy : s.pc t ≠ .idle) {a : α}
    (ha : ∀ key left right, s.pc t = .insertNew key left right → s.node a = none) :
    ∃ s', step s t a = some s' ∧ ∃ L' l', Inv s' L' l' := by
  have hheld : ∀ a ∈ (s.pc t).snapshots, (∃ nd, s.node a = some nd) ∧ Seen s a := fun a => h.held
  obtain ⟨i, o, hc, ho, hk⟩ := (h.threads t).op hbusy
  cases hpc : s.pc t with
  | idle => exact absurd hpc hbusy
  | search goal key st =>
    obtain ⟨s', hs', hinv⟩ := h.searchStep hpc
    exact ⟨s', by simp only [LinkedList.step, hpc, hs'], hinv⟩
  | insertNew key left right =>
    have hfree := ha key left right hpc
    exact ⟨_, by simp only [LinkedList.step, hpc, hfree], L, l, h.allocate hpc hfree⟩
  | insertCas key left right newNode =>
    rw [hpc] at hheld hk
    obtain ⟨hrange, ⟨x, rfl, hlt⟩, _⟩ := hk
    obtain ⟨⟨nd, hnd⟩, _⟩ := hheld x (by simp [Pc.snapshots])
    by_cases hcas : nd.next = some right ∧ nd.mark = false
    · refine ⟨_, ?_, h.insertCas hpc hnd hcas.1 hcas.2⟩
      simp only [LinkedList.step, hpc, Option.bind_some, hnd, Option.map_some, if_pos hcas]
    · refine ⟨s.setPc t (.search .insert key .head), ?_, L, l, h.restart hbusy (by rw [hpc]; rfl) ?_⟩
      · simp only [LinkedList.step, hpc, Option.bind_some, hnd, Option.map_some, if_neg hcas]
      · rw [hpc]
        exact fun _ _ ho _ => ⟨ho, hrange⟩
  | removeNext key left right =>
    rw [hpc] at hheld hk
    obtain ⟨hrange, hleft, hkey⟩ := hk
    obtain ⟨⟨nd, hnd⟩, hseen⟩ := hheld right (by simp [Pc.snapshots])
    by_cases hm : nd.mark = false
    · obtain ⟨_, htail, _⟩ := h.mem hnd hm hseen hrange hkey
      obtain ⟨y, hy⟩ := h.list.goes_on right nd hnd htail
      refine ⟨s.setPc t (.removeMark key left right (some y)), ?_, L, l,
        h.goes ⟨hbusy, rfl, fun b hb => ?_, fun j o' _ ho' _ => ?_⟩ (by rw [hpc]; rfl)⟩
      · simp only [LinkedList.step, hpc, hnd, Option.map_some, if_pos hm, hy]
      · have hb : b ∈ left.toList ++ [right] ∨ b = y := by simpa [Pc.snapshots, or_assoc] using hb
        rcases hb with hb | rfl
        · exact hheld b hb
        · exact h.read (nextOf_of hnd hy)
      · rw [hpc] at ho'
        exact ⟨ho', hrange, hleft, hkey, y, rfl⟩
    · refine ⟨s.setPc t (.search .remove key .head), ?_, L, l, h.restart hbusy (by rw [hpc]; rfl) ?_⟩
      · simp only [LinkedList.step, hpc, hnd, Option.map_some, if_neg hm]
      · rw [hpc]
        exact fun _ _ ho _ => ⟨ho, hrange⟩
  | removeMark key left right next =>
    rw [hpc] at hheld hk
    obtain ⟨⟨nd, hnd⟩, _⟩ := hheld right (by simp [Pc.snapshots])
    by_cases hcas : nd.next = next ∧ nd.mark = false
    · obtain ⟨L', hinv⟩ := h.removeMark hpc hnd hcas.1 hcas.2
      refine ⟨_, ?_, L', l, hinv⟩
      simp only [LinkedList.step, hpc, hnd, Option.map_some, if_pos hcas]
    · refine ⟨s.setPc t (.search .remove key .head), ?_, L, l, h.restart hbusy (by rw [hpc]; rfl) ?_⟩
      · simp only [LinkedList.step, hpc, hnd, Option.map_some, if_neg hcas]
      · rw [hpc]
        exact fun _ _ ho _ => ⟨ho, hk.1⟩
  | removeUnlink key left right next =>
    rw [hpc] at hheld hk
    obtain ⟨hrange, ⟨x, rfl, hlt⟩, y, rfl, hy, hmarked⟩ := hk
    obtain ⟨⟨nd, hnd⟩, hseen⟩ := hheld x (by simp [Pc.snapshots])
    by_cases hcas : nd.next = some right ∧ nd.mark = false
    · refine ⟨(s.setNode x (some { nd with next := some y })).setPc t (.ret true), ?_, L,
        h.relink hnd hcas.2 hseen hcas.1 (Relation.ReflTransGen.single ⟨hy, hmarked⟩) rfl
          (by simp [Pc.snapshots]) (by rw [hpc]; rfl) fun _ _ => ⟨i, o, hc, trivial, trivial⟩⟩
      simp only [LinkedList.step, hpc, Option.bind_some, hnd, Option.map_some, if_pos hcas]
    · refine ⟨s.setPc t (.search .removed key .head), ?_, L, l, h.restart hbusy (by rw [hpc]; rfl) ?_⟩
      · simp only [LinkedList.step, hpc, Option.bind_some, hnd, Option.map_some, if_neg hcas]
      · rw [hpc]
        exact fun _ _ ho _ => ⟨ho, hrange⟩
  | ret r => exact ⟨s.respond t r, by simp only [LinkedList.step, hpc], L, l, h.respond hpc⟩

end Steps

/-! ## Runs -/

section Runs
variable [Fintype α] {s s' : State α n}

omit [Fintype α] in
theorem initial_cases {a b x : α} {nd : Node α} (h : (State.initial a b : State α n).node x = some nd) :
    (x = a ∧ nd = ⟨lowestKey, some b, false⟩) ∨ (x ≠ a ∧ x = b ∧ nd = ⟨maxKey, none, false⟩) := by
  by_cases ha : x = a
  · subst ha
    exact Or.inl ⟨rfl, by simpa [State.initial, eq_comm] using h⟩
  · by_cases hb : x = b
    · subst hb
      exact Or.inr ⟨ha, rfl, by simpa [State.initial, ha, eq_comm] using h⟩
    · simp [State.initial, ha, hb] at h

omit [Fintype α] in
theorem ListInv.initial {a b : α} (hab : a ≠ b) : ListInv (State.initial a b : State α n) [b] := by
  have ha : (State.initial a b : State α n).node a = some ⟨lowestKey, some b, false⟩ := by
    simp [State.initial]
  have hb : (State.initial a b : State α n).node b = some ⟨maxKey, none, false⟩ := by
    simp [State.initial, Ne.symm hab]
  have hnext : ∀ x y, nextOf (State.initial a b : State α n).node x = some y → x = a ∧ y = b := by
    intro x y hxy
    obtain ⟨nd, hnd, hy⟩ := nextOf_some hxy
    rcases initial_cases hnd with ⟨hx, rfl⟩ | ⟨_, _, rfl⟩
    · exact ⟨hx, (Option.some.inj hy).symm⟩
    · cases hy
  refine ⟨⟨nextOf_of ha rfl, rfl⟩, fun x y hxy => ?_, fun x y hxy => ?_, fun x nd hx hne => ?_,
    ⟨_, ha, rfl⟩, hb, hab, fun x nd hx => ?_, fun x nd hx _ _ => ?_⟩
  · obtain ⟨rfl, rfl⟩ := hnext x y hxy
    have hlt : lowestKey - 1 < maxKey := by decide
    have hrank : rank x (State.initial x y : State α n).node y = maxKey :=
      rank_of_ne (Ne.symm hab) hb
    change rank x (State.initial x y : State α n).node x < rank x _ y
    rw [hrank]
    simpa [rank] using hlt
  · obtain ⟨rfl, rfl⟩ := hnext x y hxy
    exact ⟨_, hb⟩
  · rcases initial_cases hx with ⟨_, rfl⟩ | ⟨_, rfl, _⟩
    · exact ⟨b, rfl⟩
    · exact absurd rfl hne
  · rcases initial_cases hx with ⟨_, rfl⟩ | ⟨_, _, rfl⟩
    · exact le_refl _
    · exact (by decide : lowestKey ≤ maxKey)
  · rcases initial_cases hx with ⟨rfl, _⟩ | ⟨_, rfl, _⟩
    · exact Or.inl rfl
    · exact Or.inr (by simp)

omit [Fintype α] in
theorem Inv.initial {a b : α} (hab : a ≠ b) : Inv (State.initial a b : State α n) [] [b] where
  tracks := Tracks.empty
  legal := trivial
  contents := by
    intro key
    constructor
    · intro hk
      simp [Seq.after] at hk
    · intro hex
      obtain ⟨x, nd, hx, hne, _⟩ := hex
      exact absurd (List.mem_singleton.mp hx) hne
  list := ListInv.initial hab
  threads _ := ⟨fun hi => absurd rfl hi, by simp [State.initial, Pc.newNode],
    by simp [State.initial, Pc.newNode, Pc.snapshots]⟩

theorem Inv.next {L : List (Entry Op Bool)} {l : List α} (h : Inv s L l) {c : Label α n}
    (hs : next s c = some s') : ∃ L' l', Inv s' L' l' := by
  cases c with
  | call t o =>
    simp only [LinkedList.next] at hs
    split at hs
    · split at hs
      · next hrange =>
        cases hs
        exact ⟨L, l, h.call o hrange⟩
      · cases hs
    · cases hs
  | step t a =>
    have hbusy : s.pc t ≠ .idle := by
      intro hi
      simp only [LinkedList.next, LinkedList.step, hi] at hs
      cases hs
    obtain ⟨s₁, hs₁, hinv⟩ := h.step hbusy (a := a) fun key left right hpc => by
      cases hn : s.node a with
      | none => rfl
      | some nd =>
        simp only [LinkedList.next, LinkedList.step, hpc, hn] at hs
        cases hs
    obtain rfl : s₁ = s' := Option.some.inj (hs₁.symm.trans hs)
    exact hinv
  | reclaim a =>
    simp only [LinkedList.next] at hs
    split at hs
    · next hfree =>
      cases hs
      exact ⟨L, l, h.reclaim hfree.1 hfree.2⟩
    · cases hs

theorem reach_inv (hr : (machine α n).Reach s) : ∃ L l, Inv s L l := by
  refine hr.invariant (I := fun s => ∃ L l, Inv s L l) (fun s hs => ?_) fun s c s' h hs => ?_
  · obtain ⟨a, b, hab, rfl⟩ := hs
    exact ⟨[], [b], Inv.initial hab⟩
  · obtain ⟨L, l, h⟩ := h
    exact h.next hs

/-! ## What happens to one node -/

omit [Fintype α] [DecidableEq α] in
theorem Stays.trans {node node' node'' : α → Option (Node α)} {x : α} (h : Stays node node' x)
    (h' : Stays node' node'' x) : Stays node node'' x := by
  intro nd hnd
  obtain ⟨nd₁, hnd₁, hkey₁, heq₁⟩ := h nd hnd
  obtain ⟨nd₂, hnd₂, hkey₂, heq₂⟩ := h' nd₁ hnd₁
  refine ⟨nd₂, hnd₂, hkey₂.trans hkey₁, fun hm => ?_⟩
  obtain rfl := heq₁ hm
  exact heq₂ hm

omit [Fintype α] in
theorem searchStep_stays {t : Fin n} {goal : Goal} {key : Int} {st : Search α}
    (hs : searchStep s t goal key st = some s') (x : α) : s'.head = s.head ∧ Stays s.node s'.node x := by
  cases st with
  | head =>
    cases hs
    exact ⟨rfl, .of_eq rfl⟩
  | first right =>
    obtain ⟨nd, _, hs⟩ := Option.bind_eq_some_iff.mp hs
    obtain ⟨st, _, rfl⟩ := Option.map_eq_some_iff.mp hs
    exact ⟨rfl, .of_eq rfl⟩
  | next left leftNxt right =>
    obtain ⟨nd, _, hs⟩ := Option.bind_eq_some_iff.mp hs
    split at hs
    · obtain ⟨st, _, rfl⟩ := Option.map_eq_some_iff.mp hs
      exact ⟨rfl, .of_eq rfl⟩
    · split at hs <;> (cases hs; exact ⟨rfl, .of_eq rfl⟩)
  | unlink left leftNxt right =>
    obtain ⟨l, _, hs⟩ := Option.bind_eq_some_iff.mp hs
    obtain ⟨nd, hnd, rfl⟩ := Option.map_eq_some_iff.mp hs
    split
    · next hcas => exact ⟨rfl, stays_setNode { nd with next := some right } hnd hcas.2 rfl x⟩
    · exact ⟨rfl, .of_eq rfl⟩
  | check left right =>
    obtain ⟨nd, _, rfl⟩ := Option.map_eq_some_iff.mp hs
    split <;> exact ⟨rfl, .of_eq rfl⟩

omit [Fintype α] in
/-- The writes are to nodes without a mark, or to a free address. -/
theorem step_stays {t : Fin n} {a : α} (hs : step s t a = some s') (x : α) :
    s'.head = s.head ∧ Stays s.node s'.node x := by
  unfold step at hs
  split at hs
  · cases hs
  · exact searchStep_stays hs x
  · split at hs
    · next hfree =>
      cases hs
      refine ⟨rfl, fun nd hnd => ⟨nd, ?_, rfl, fun _ => rfl⟩⟩
      exact (Function.update_of_ne (ne_of_free hfree hnd) ..).trans hnd
    · cases hs
  · next key left right newNode _ =>
    obtain ⟨l, _, hs⟩ := Option.bind_eq_some_iff.mp hs
    obtain ⟨nd, hnd, rfl⟩ := Option.map_eq_some_iff.mp hs
    split
    · next hcas => exact ⟨rfl, stays_setNode { nd with next := some newNode } hnd hcas.2 rfl x⟩
    · exact ⟨rfl, .of_eq rfl⟩
  · obtain ⟨nd, hnd, rfl⟩ := Option.map_eq_some_iff.mp hs
    split <;> exact ⟨rfl, .of_eq rfl⟩
  · obtain ⟨nd, hnd, rfl⟩ := Option.map_eq_some_iff.mp hs
    split
    · next hcas => exact ⟨rfl, stays_setNode { nd with mark := true } hnd hcas.2 rfl x⟩
    · exact ⟨rfl, .of_eq rfl⟩
  · next key left right next _ =>
    obtain ⟨l, _, hs⟩ := Option.bind_eq_some_iff.mp hs
    obtain ⟨nd, hnd, rfl⟩ := Option.map_eq_some_iff.mp hs
    split
    · next hcas => exact ⟨rfl, stays_setNode { nd with next := next } hnd hcas.2 rfl x⟩
    · exact ⟨rfl, .of_eq rfl⟩
  · cases hs
    exact ⟨rfl, .of_eq rfl⟩

theorem next_stays {c : Label α n} (hs : next s c = some s') {x : α} (hc : c ≠ .reclaim x) :
    s'.head = s.head ∧ Stays s.node s'.node x := by
  cases c with
  | call t o =>
    simp only [next] at hs
    split at hs
    · split at hs
      · cases hs
        exact ⟨rfl, .of_eq rfl⟩
      · cases hs
    · cases hs
  | step t a => exact step_stays hs x
  | reclaim a =>
    simp only [next] at hs
    split at hs
    · cases hs
      refine ⟨rfl, .of_eq (Function.update_of_ne ?_ ..)⟩
      intro he
      exact hc (by rw [he])
    · cases hs

/-- As long as it is not destroyed, a node keeps its key, and its `next` once it is marked. -/
theorem exec_stays {run : List (Label α n)} (hs : (machine α n).exec run s = some s') {x : α}
    (hx : Label.reclaim x ∉ run) : Stays s.node s'.node x := by
  induction run generalizing s with
  | nil =>
    cases hs
    exact .of_eq rfl
  | cons c run ih =>
    obtain ⟨s₁, hs₁, hs⟩ := Option.bind_eq_some_iff.mp hs
    obtain ⟨hc, hrun⟩ : Label.reclaim x ≠ c ∧ Label.reclaim x ∉ run := by simpa using hx
    exact (next_stays hs₁ (Ne.symm hc)).2.trans (ih hs hrun)

/-- The head sentinel is not destroyed, so its key stays. -/
theorem reach_head (hr : (machine α n).Reach s) :
    ∃ nd, s.node s.head = some nd ∧ nd.key = lowestKey := by
  induction hr with
  | init h =>
    obtain ⟨a, b, _, rfl⟩ := h
    exact ⟨⟨lowestKey, some b, false⟩, by simp [State.initial], rfl⟩
  | @step s s' c _ hs ih =>
    obtain ⟨nd, hnd, hkey⟩ := ih
    have hc : c ≠ .reclaim s.head := by
      intro he
      subst he
      simp only [machine, next] at hs
      split at hs
      · next hfree => exact (strong_eq_zero hfree.1).1 rfl
      · cases hs
    obtain ⟨hhead, hstays⟩ := next_stays hs hc
    obtain ⟨nd', hnd', hkey', _⟩ := hstays nd hnd
    rw [hhead]
    exact ⟨nd', hnd', hkey'.trans hkey⟩

end Runs

/-! ## The result -/

/-- The number of calls of `o` that succeeded. -/
def succeeded (o : Op) (L : List (Entry Op Bool)) : Nat := L.countP fun e => e.op = o ∧ e.ret = true

theorem succeeded_cons (o : Op) (e : Entry Op Bool) (L : List (Entry Op Bool)) :
    succeeded o (e :: L) = succeeded o L + if e.op = o ∧ e.ret = true then 1 else 0 := by
  simp [succeeded, List.countP_cons]

/-- One call: the key is there afterwards if it was before or is inserted, and not removed. -/
theorem set_counts_step (S : Finset Int) (o : Op) (key : Int) :
    (if key ∈ S then 1 else 0) + (if o = .insert key ∧ (set.apply S o).2 = true then 1 else 0) =
      (if o = .remove key ∧ (set.apply S o).2 = true then 1 else 0) +
        if key ∈ (set.apply S o).1 then 1 else 0 := by
  cases o with
  | find k => simp [set]
  | insert k =>
    by_cases hk : k = key
    · by_cases hmem : key ∈ S <;> simp [set, hk, hmem]
    · simp [set, hk, Ne.symm hk]
  | remove k =>
    by_cases hk : k = key
    · by_cases hmem : key ∈ S <;> simp [set, hk, hmem]
    · simp [set, hk, Ne.symm hk]

/-- Each `insert` of a key that succeeds is undone by one successful `remove`, or the key is
still there. -/
theorem set_counts {S : Finset Int} {L : List (Entry Op Bool)} (h : set.Exact S L) (key : Int) :
    (if key ∈ S then 1 else 0) + succeeded (.insert key) L =
      succeeded (.remove key) L + if key ∈ set.after S L then 1 else 0 := by
  induction L generalizing S with
  | nil => exact Nat.add_comm _ 0
  | cons e L ih =>
    obtain ⟨hr, hL⟩ := h
    have hrest := ih hL
    have hstep := set_counts_step S e.op key
    rw [succeeded_cons, succeeded_cons, Seq.after, hr]
    omega

/-- The keys of the nodes without a mark. -/
def unmarkedKeys (node : α → Option (Node α)) (l : List α) : List Int :=
  l.filterMap fun x => (node x).bind fun nd => if nd.mark = false then some nd.key else none

omit [DecidableEq α] in
theorem mem_unmarkedKeys {node : α → Option (Node α)} {l : List α} {key : Int} :
    key ∈ unmarkedKeys node l ↔ ∃ x nd, x ∈ l ∧ node x = some nd ∧ nd.mark = false ∧ nd.key = key := by
  rw [unmarkedKeys, List.mem_filterMap]
  constructor
  · intro hex
    obtain ⟨x, hx, hk⟩ := hex
    obtain ⟨nd, hnd, hk⟩ := Option.bind_eq_some_iff.mp hk
    split at hk
    · next hm => exact ⟨x, nd, hx, hnd, hm, Option.some.inj hk⟩
    · cases hk
  · intro hex
    obtain ⟨x, nd, hx, hnd, hm, hk⟩ := hex
    exact ⟨x, hx, by simp [hnd, hm, hk]⟩

theorem ListInv.keys_ascending {s : State α n} {l : List α} (h : ListInv s l) :
    (unmarkedKeys s.node l).Pairwise (· < ·) := by
  rw [unmarkedKeys, List.pairwise_filterMap]
  refine (h.path.ascending h.ascending).imp_of_mem fun {x y} hx hy hlt k hk k' hk' => ?_
  obtain ⟨nd, hnd, hk⟩ := Option.bind_eq_some_iff.mp hk
  obtain ⟨nd', hnd', hk'⟩ := Option.bind_eq_some_iff.mp hk'
  rw [rank_of_ne (h.ne_head hx) hnd, rank_of_ne (h.ne_head hy) hnd'] at hlt
  split at hk
  · split at hk'
    · cases hk
      cases hk'
      exact hlt
    · cases hk'
  · cases hk

/-- The tail sentinel comes last, and the keys before it are the set. -/
theorem Inv.keys_eq {s : State α n} {L : List (Entry Op Bool)} {l : List α} (h : Inv s L l) :
    ∃ keys, unmarkedKeys s.node l = keys ++ [maxKey] ∧ ∀ key, key ∈ set.after ∅ L ↔ key ∈ keys := by
  obtain ⟨A, rfl⟩ := h.list.path.eq_snoc h.list.sentinels h.list.end
  have hasc := List.pairwise_append.mp (h.list.path.ascending h.list.ascending)
  refine ⟨unmarkedKeys s.node A, ?_, fun key => ?_⟩
  · simp [unmarkedKeys, List.filterMap_append, h.list.tail]
  · rw [h.contents, mem_unmarkedKeys]
    constructor
    · intro hex
      obtain ⟨x, nd, hx, hne, hrest⟩ := hex
      exact ⟨x, nd, by simpa [hne] using hx, hrest⟩
    · intro hex
      obtain ⟨x, nd, hx, hrest⟩ := hex
      refine ⟨x, nd, List.mem_append_left _ hx, fun he => ?_, hrest⟩
      exact absurd (hasc.2.2 x hx s.tail (by simp)) (by rw [he]; exact lt_irrefl _)

/-- In every state of every run: the nodes from `head` lead to `tail`, and the keys of those
without a mark grow after the head sentinel, from its own key on; the history is that of a
sequential set with these keys, in which each successful `insert` is undone by at most one
successful `remove`; a node that is marked is not written again, in any run from there, before
it is destroyed; and a thread in a call is not stuck. -/
theorem linkedList_linearizable [Fintype α] {s : State α n} (hr : (machine α n).Reach s) :
    (∃ L l keys, Linearization s.calls.hist L ∧ set.Legal L ∧
      (∀ key, succeeded (.insert key) L =
        succeeded (.remove key) L + if key ∈ set.after ∅ L then 1 else 0) ∧
      Path (nextOf s.node) s.head l s.tail ∧
      (∃ next, s.node s.head = some ⟨lowestKey, next, false⟩) ∧
      s.node s.tail = some ⟨maxKey, none, false⟩ ∧
      unmarkedKeys s.node l = keys ++ [maxKey] ∧ (keys ++ [maxKey]).Pairwise (· < ·) ∧
      (∀ key ∈ keys, lowestKey ≤ key) ∧ ∀ key, key ∈ set.after ∅ L ↔ key ∈ keys) ∧
    (∀ run s' x nd, (machine α n).exec run s = some s' → s.node x = some nd → nd.mark = true →
      .reclaim x ∉ run → s'.node x = some nd) ∧
    ∀ t a, s.pc t ≠ .idle → s.node a = none → ∃ s', next s (.step t a) = some s' := by
  obtain ⟨L, l, h⟩ := reach_inv hr
  obtain ⟨keys, hkeys, hmem⟩ := h.keys_eq
  refine ⟨⟨L, l, keys, h.tracks.lin, h.legal, fun key => ?_, h.list.path, ?_, h.list.tail, hkeys,
    ?_, fun key hk => ?_, hmem⟩, fun run s' x nd hrun hnd hm hx => ?_, fun t a hbusy ha => ?_⟩
  · have hcount := set_counts h.legal key
    have h0 : key ∉ set.init := Finset.notMem_empty key
    rw [if_neg h0, Nat.zero_add] at hcount
    exact hcount
  · obtain ⟨nd, hnd, hkey⟩ := reach_head hr
    obtain ⟨nd', hnd', hm⟩ := h.list.head
    obtain rfl : nd = nd' := Option.some.inj (hnd.symm.trans hnd')
    obtain ⟨key, next, mark⟩ := nd
    cases hkey
    cases hm
    exact ⟨next, hnd⟩
  · rw [← hkeys]
    exact h.list.keys_ascending
  · have hk' : key ∈ unmarkedKeys s.node l := by
      rw [hkeys]
      exact List.mem_append_left _ hk
    obtain ⟨x, nd, _, hnd, _, rfl⟩ := mem_unmarkedKeys.mp hk'
    exact h.list.keys x nd hnd
  · obtain ⟨nd', hnd', _, heq⟩ := exec_stays hrun hx nd hnd
    rw [hnd', heq hm]
  · obtain ⟨s', hs', _⟩ := h.step hbusy (a := a) fun _ _ _ _ => ha
    exact ⟨s', hs'⟩

/-- One thread has inserted 5 and set the mark of its node again, but not unlinked it. Another
unlinks the node in its `search` and inserts 7. -/
def unlinks : List (Label (Fin 4) 2) :=
  [.call 0 (.insert 5)] ++ List.replicate 7 (.step 0 2) ++
  [.call 0 (.remove 5)] ++ List.replicate 6 (.step 0 2) ++
  [.call 1 (.insert 7)] ++ List.replicate 8 (.step 1 3)

theorem linkedList_linearizable_unlinks :
    ∃ s, (machine (Fin 4) 2).exec unlinks (.initial 0 1) = some s ∧
      s.pc 0 = .removeUnlink 5 (some 0) 2 (some 1) ∧ s.pc 1 = .ret true ∧
      (∃ L l keys, Linearization s.calls.hist L ∧ set.Legal L ∧
        (∀ key, succeeded (.insert key) L =
          succeeded (.remove key) L + if key ∈ set.after ∅ L then 1 else 0) ∧
        Path (nextOf s.node) s.head l s.tail ∧
        (∃ next, s.node s.head = some ⟨lowestKey, next, false⟩) ∧
        s.node s.tail = some ⟨maxKey, none, false⟩ ∧
        unmarkedKeys s.node l = keys ++ [maxKey] ∧ (keys ++ [maxKey]).Pairwise (· < ·) ∧
        (∀ key ∈ keys, lowestKey ≤ key) ∧ ∀ key, key ∈ set.after ∅ L ↔ key ∈ keys) ∧
      ∀ run s', (machine (Fin 4) 2).exec run s = some s' → .reclaim 2 ∉ run →
        s'.node 2 = some ⟨5, some 1, true⟩ := by
  have hex : ((machine (Fin 4) 2).exec unlinks (.initial 0 1)).map
      (fun s => (s.pc 0, s.pc 1, s.node 2)) =
      some (.removeUnlink 5 (some 0) 2 (some 1), .ret true, some ⟨5, some 1, true⟩) := by
    decide +kernel
  obtain ⟨s, hs, hp⟩ := Option.map_eq_some_iff.mp hex
  simp only [Prod.mk.injEq] at hp
  obtain ⟨hpc0, hpc1, hnode⟩ := hp
  have hinit : (machine (Fin 4) 2).init (.initial 0 1) := ⟨0, 1, by decide, rfl⟩
  have hr : (machine (Fin 4) 2).Reach s := (Machine.Reach.init hinit).exec hs
  obtain ⟨hset, hfrozen, _⟩ := linkedList_linearizable hr
  exact ⟨s, hs, hpc0, hpc1, hset, fun run s' hrun hx => hfrozen run s' 2 _ hrun hnode rfl hx⟩

/-- After `insert(INT_MIN)` the head sentinel and the node after it have the same key. -/
theorem lowestKey_twice : ¬ ∀ s, (machine (Fin 3) 1).Reach s →
    ∀ l, Path (nextOf s.node) s.head l s.tail →
      (unmarkedKeys s.node (s.head :: l)).Pairwise (· < ·) := by
  intro h
  have hex : ((machine (Fin 3) 1).exec ([.call 0 (.insert lowestKey)] ++ List.replicate 6 (.step 0 2))
      (.initial 0 1)).map (fun s => (s.head, s.tail, [s.node 0, s.node 1, s.node 2])) =
      some (0, 1, [some ⟨lowestKey, some 2, false⟩, some ⟨maxKey, none, false⟩,
        some ⟨lowestKey, some 1, false⟩]) := by
    decide +kernel
  obtain ⟨s, hs, hp⟩ := Option.map_eq_some_iff.mp hex
  simp only [Prod.mk.injEq, List.cons.injEq, and_true] at hp
  obtain ⟨hhead, htail, h0, h1, h2⟩ := hp
  have hinit : (machine (Fin 3) 1).init (.initial 0 1) := ⟨0, 1, by decide, rfl⟩
  have hr : (machine (Fin 3) 1).Reach s := (Machine.Reach.init hinit).exec hs
  have hpath : Path (nextOf s.node) s.head [2, 1] s.tail := by
    rw [hhead, htail]
    exact ⟨nextOf_of h0 rfl, nextOf_of h2 rfl, rfl⟩
  have hpair := h s hr [2, 1] hpath
  simp [hhead, unmarkedKeys, h0, h1, h2] at hpair

end Cdrc.LinkedList
