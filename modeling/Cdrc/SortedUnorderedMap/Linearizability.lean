import Cdrc.SortedUnorderedMap.Steps

/-! # `SortedUnorderedMapRCSS` is a linearizable map

For every hash function and every number of buckets, in every state of every run the history is that of a
sequential map, whose entries are those of the nodes without a mark. A thread in a call can always take its
next step, as no pointer that it follows is null or dangling. -/
namespace Cdrc.SortedUnorderedMap
open Cdrc.Lib.Runs Cdrc.Lib.Objects Cdrc.Lib.History Cdrc.Lib.Paths

variable {α K V : Type} [LinearOrder K] {m n : Nat} {idx : K → Fin m}

/-! ## `findNode` returns -/

section Returns
variable {s : State α K V m n} {t : Fin n} {L : List (Entry (Op K V) (Ret V))} {l : Fin m → List (Loc m α)}
  {goal : Goal α V} {key : K} {st : Find α} {prev : Option α}

/-- The node at `a` is there, and somebody refers to it. -/
def Held (s : State α K V m n) (a : α) : Prop := (∃ nd, s.node a = some nd) ∧ Seen s a

omit [LinearOrder K] in
theorem held_toList {x : Option α} (h : ∀ a, x = some a → Held s a) : ∀ a ∈ x.toList, Held s a := by
  intro a ha
  exact h a (by simpa using ha)

/-- The search after `remove` has taken effect ends the call. -/
theorem Inv.removed (h : Inv idx s L l) {res : V} (hpc : s.pc t = .find (.removed res) key st) :
    Inv idx (s.setPc t (.ret (.value (some res)))) L l := by
  have hbusy : s.pc t ≠ .idle := by
    rw [hpc]
    simp
  refine h.goes ⟨hbusy, by simp [Pc.tmpNode], by simp [Pc.snapshots], fun _ _ _ _ => trivial⟩ ?_
  rw [hpc]
  rfl

/-- It returns false: there was a moment without the key. -/
theorem Inv.notFound (h : Inv idx s L l) (hpc : s.pc t = .find goal key st) {cur : Option α}
    (hb : Before idx s.node key prev) (ha : After idx s.node key cur)
    (hprev : ∀ a, prev = some a → Held s a) (hcur : ∀ a, cur = some a → Held s a)
    (hsaw : ∀ i o, s.calls.call t = some (i, o) → Saw (map K V) s.calls.hist L i fun f => f key = none) :
    ∃ L', Inv idx (s.setPc t (notFound goal key prev cur)) L' l := by
  obtain ⟨i, o, hc, hgoal, _⟩ := h.running hpc (by simp)
  have hbusy : s.pc t ≠ .idle := by
    rw [hpc]
    simp
  cases goal with
  | get =>
    obtain rfl : o = .get key := hgoal
    exact h.answers (by rw [hpc]; rfl) hbusy hc ((hsaw i _ hc).mono fun f hf => map_get hf)
  | insert tmpNode =>
    refine ⟨L, h.goes ⟨hbusy, ?_, ?_, fun j o' _ hk => ?_⟩ (by rw [hpc]; rfl)⟩
    · rw [hpc]
      exact fun a ha => ha
    · intro a hmem
      rcases List.mem_append.mp hmem with hmem | hmem
      · exact held_toList hprev a hmem
      · exact held_toList hcur a hmem
    · rw [hpc] at hk
      exact ⟨hk.1, hb, ha⟩
  | remove =>
    obtain rfl : o = .remove key := hgoal
    exact h.answers (by rw [hpc]; rfl) hbusy hc ((hsaw i _ hc).mono fun f hf => map_remove_absent hf)
  | removed res => exact ⟨L, h.removed hpc⟩

/-- It returns true: there was a moment with the key, and the node has it. -/
theorem Inv.found (h : Inv idx s L l) (hpc : s.pc t = .find goal key st) {cur : α} {nxt : Option α}
    {nd : Node α K V} (hb : Before idx s.node key prev) (hnd : s.node cur = some nd) (hkey : nd.key = key)
    (hprev : ∀ a, prev = some a → Held s a) (hcur : Held s cur) (hnxt : ∀ a, nxt = some a → Held s a)
    (hsaw : ∀ i o, s.calls.call t = some (i, o) →
      Saw (map K V) s.calls.hist L i fun f => f key = some nd.val) :
    ∃ L', Inv idx (s.setPc t (found goal key prev cur nxt nd.val)) L' l := by
  obtain ⟨i, o, hc, hgoal, _⟩ := h.running hpc (by simp)
  have hbusy : s.pc t ≠ .idle := by
    rw [hpc]
    simp
  cases goal with
  | get =>
    obtain rfl : o = .get key := hgoal
    exact h.answers (by rw [hpc]; rfl) hbusy hc ((hsaw i _ hc).mono fun f hf => map_get hf)
  | insert tmpNode =>
    obtain ⟨val, _, ho, _⟩ := hgoal
    obtain rfl := ho
    exact h.answers (by rw [hpc]; rfl) hbusy hc ((hsaw i _ hc).mono fun f hf => map_insert_present hf)
  | remove =>
    refine ⟨L, h.goes ⟨hbusy, by simp [SortedUnorderedMap.found, Pc.tmpNode], ?_, fun j o' _ hk => ?_⟩
      (by rw [hpc]; rfl)⟩
    · intro a hmem
      simp only [SortedUnorderedMap.found, Pc.snapshots, List.mem_append, List.mem_singleton] at hmem
      rcases hmem with (hmem | hmem) | hmem
      · exact held_toList hprev a hmem
      · rw [hmem]
        exact hcur
      · exact held_toList hnxt a hmem
    · rw [hpc] at hk
      exact ⟨hk.1, hb, nd, hnd, hkey, rfl⟩
  | removed res => exact ⟨L, h.removed hpc⟩

/-- `findNode` goes on to `st'`. -/
theorem Inv.goes_find (h : Inv idx s L l) (hpc : s.pc t = .find goal key st) {st' : Find α}
    (hsnap : ∀ a ∈ st'.snapshots, Held s a)
    (hk : ∀ i o, s.calls.call t = some (i, o) → FindKnows idx s.node s.calls.hist L i key st →
      FindKnows idx s.node s.calls.hist L i key st') :
    Inv idx (s.setPc t (.find goal key st')) L l := by
  have hbusy : s.pc t ≠ .idle := by
    rw [hpc]
    simp
  refine h.goes ⟨hbusy, ?_, hsnap, fun i o hc hkn => ?_⟩ ?_
  · rw [hpc]
    cases goal <;> exact fun a ha => ha
  · rw [hpc] at hkn
    exact ⟨hkn.1, hk i o hc hkn.2⟩
  · rw [hpc]
    cases goal <;> rfl

/-- The inner loop begins at `cur`. -/
theorem Inv.loop (h : Inv idx s L l) (hpc : s.pc t = .find goal key st) {cur : Option α}
    (hb : Before idx s.node key prev) (hprev : ∀ a, prev = some a → Held s a)
    (hcur : ∀ a, cur = some a → Held s a)
    (hsaw : cur = none → ∀ i o, s.calls.call t = some (i, o) →
      Saw (map K V) s.calls.hist L i fun f => f key = none) :
    ∃ L', Inv idx (s.setPc t (loop goal key prev cur)) L' l := by
  cases cur with
  | none =>
    refine h.notFound hpc hb (fun a ha => ?_) hprev (fun a ha => ?_) (hsaw rfl)
    all_goals cases ha
  | some c =>
    refine ⟨L, h.goes_find hpc (fun a ha => ?_) fun _ _ _ _ => hb⟩
    rcases List.mem_append.mp ha with ha | ha
    · exact held_toList hprev a ha
    · rw [List.mem_singleton.mp ha]
      exact hcur c rfl

end Returns

/-! ## The steps of a call -/

section Steps
variable [DecidableEq α] {s : State α K V m n} {t : Fin n} {L : List (Entry (Op K V) (Ret V))}
  {l : Fin m → List (Loc m α)} {goal : Goal α V} {key : K}

omit [DecidableEq α] in
/-- A location that a call may use is there. -/
theorem Before.readable {prev : Option α} (hb : Before idx s.node key prev) :
    ∃ lk, s.read (addr idx prev key) = some lk := by
  cases prev with
  | none => exact ⟨_, rfl⟩
  | some a =>
    obtain ⟨nd, hnd, _⟩ := hb a rfl
    exact ⟨_, read_next hnd⟩

omit [DecidableEq α] in
/-- `addr->contains(cur)`: the location is in its list, and so are the gap behind it and the bucket of
`cur`. -/
theorem Inv.validated (h : Inv idx s L l) {prev : Option α} {cur : α} {nd : Node α K V}
    (hb : Before idx s.node key prev) (hprev : ∀ a, prev = some a → Held s a)
    (hr : s.read (addr idx prev key) = some ⟨some cur, false⟩) (hnd : s.node cur = some nd) :
    idx nd.key = idx key ∧ (key < nd.key → (map K V).after (map K V).init L key = none) := by
  have hp := h.addr_mem hb (fun a ha => (hprev a ha).2) hr
  have hnext : nextOf s (addr idx prev key) = some (.next cur) := nextOf_of hr
  have hhome := h.lists.homes _ _ hnext
  rw [home_next hnd, h.lists.home_mem hp] at hhome
  refine ⟨Option.some.inj hhome, fun hlt => h.absent hp rfl hb.rank_lt fun b ndb hpb hndb => ?_⟩
  rw [hnext] at hpb
  cases hpb
  rwa [← Option.some.inj (hnd.symm.trans hndb)]

/-- `findNode` has taken a marked node out of its list. -/
theorem Inv.unlinked (h : Inv idx s L l) {prev nxt : Option α} {cur : α}
    (hpc : s.pc t = .find goal key (.unlink prev cur nxt))
    (hr : s.read (addr idx prev key) = some ⟨some cur, false⟩) (hb : Before idx s.node key prev)
    (hf : Frozen s.node cur nxt) :
    ∃ L' l', Inv idx ((s.write (addr idx prev key) ⟨nxt, false⟩).setPc t
      (SortedUnorderedMap.loop goal key prev nxt)) L' l' := by
  have hprev : ∀ a, prev = some a → Seen s a := by
    intro a ha
    refine (h.held (t := t) ?_).2
    rw [hpc, ha]
    simp [Pc.snapshots, Find.snapshots]
  obtain ⟨A, B, hl, hpAB, hinv⟩ := h.relink (h.addr_mem hb hprev hr) hr hf
  have hnext : nextOf (s.write (addr idx prev key) ⟨nxt, false⟩) (addr idx prev key) = nxt.map .next :=
    nextOf_write_self hr fun _ _ => rfl
  have hheld : ∀ a ∈ (Find.unlink prev cur nxt).snapshots,
      Held (s.write (addr idx prev key) ⟨nxt, false⟩) a := by
    intro a ha
    refine hinv.held (t := t) ?_
    change a ∈ (s.pc t).snapshots
    rw [hpc]
    exact ha
  have hb' : Before idx (s.write (addr idx prev key) ⟨nxt, false⟩).node key prev :=
    hb.frame fun a _ => write_stays _ hr a
  have habs : nxt = none → (map K V).after (map K V).init L key = none := by
    intro hnull
    refine hinv.absent (p := addr idx prev key) (i := idx key) ?_ rfl hb'.rank_lt fun b ndb hpb _ => ?_
    · rw [Function.update_self]
      exact hpAB
    · rw [hnext, hnull] at hpb
      cases hpb
  obtain ⟨L', hinv'⟩ := hinv.loop hpc hb' (fun a ha => hheld a (by simp [Find.snapshots, ha]))
    (fun a ha => hheld a (by simp [Find.snapshots, ha])) fun hnull _ _ _ => Saw.now (habs hnull)
  exact ⟨L', _, hinv'⟩

/-- `findNode` has a next step, and keeps the invariant with it. -/
theorem Inv.findStep (h : Inv idx s L l) {st : Find α} (hpc : s.pc t = .find goal key st) :
    ∃ s', findStep idx s t goal key st = some s' ∧ ∃ L' l', Inv idx s' L' l' := by
  obtain ⟨i, o, hc, hgoal, hk⟩ := h.running hpc (by simp)
  have hheld : ∀ a ∈ st.snapshots, Held s a := by
    intro a ha
    refine h.held (t := t) ?_
    rw [hpc]
    exact ha
  have hrestart : Inv idx (s.setPc t (.find goal key .start)) L l :=
    h.goes_find hpc (by simp [Find.snapshots]) fun _ _ _ _ => trivial
  cases st with
  | start =>
    have hr : s.read (.bucket (idx key)) = some ⟨s.bucket (idx key), false⟩ := rfl
    have hb : Before idx s.node key none := by
      intro a ha
      cases ha
    have habs : s.bucket (idx key) = none → (map K V).after (map K V).init L key = none := by
      intro hnull
      refine h.absent (p := .bucket (idx key)) (Or.inl rfl) rfl (WithBot.bot_lt_coe key) fun b ndb hpb _ => ?_
      rw [nextOf_of hr, hnull] at hpb
      cases hpb
    obtain ⟨L', hinv⟩ := h.loop hpc hb (fun a ha => by cases ha) (fun a ha => h.read hr ha)
      fun hnull _ _ _ => Saw.now (habs hnull)
    exact ⟨_, rfl, L', l, hinv⟩
  | next prev cur =>
    obtain ⟨⟨nd, hnd⟩, _⟩ := hheld cur (by simp [Find.snapshots])
    refine ⟨s.setPc t (.find goal key (.again prev cur nd.next.ptr nd.next.mark)), ?_, L, l,
      h.goes_find hpc (fun a ha => ?_) fun _ _ _ hkn => hkn⟩
    · simp only [SortedUnorderedMap.findStep, hnd, Option.map_some]
    · rcases List.mem_append.mp ha with ha | ha
      · exact hheld a ha
      · exact h.read (read_next hnd) (by simpa using ha)
  | again prev cur nxt cmark =>
    obtain ⟨⟨nd, hnd⟩, hseen⟩ := hheld cur (by simp [Find.snapshots])
    by_cases hsame : nd.next = ⟨nxt, cmark⟩
    · refine ⟨s.setPc t (.find goal key (.validate prev cur nxt cmark)), ?_, L, l,
        h.goes_find hpc hheld fun _ _ _ hkn => ?_⟩
      · simp only [SortedUnorderedMap.findStep, hnd, Option.map_some, if_pos hsame]
      · cases cmark with
        | true => exact ⟨hkn, nd, hnd, hsame⟩
        | false =>
          -- the node has no mark now, so it is in its list
          have hm : nd.next.mark = false := by rw [hsame]
          have hmem := h.lists.live cur nd hnd hm hseen
          refine ⟨hkn, nd, hnd, Saw.now ⟨h.present hnd hm hseen, fun hnull k hidx hlt => ?_⟩⟩
          refine h.absent (Or.inr hmem) hidx ?_ fun b ndb hpb _ => ?_
          · rw [rank_next hnd]
            exact WithBot.coe_lt_coe.mpr hlt
          · rw [nextOf_of (read_next hnd), hsame, hnull] at hpb
            cases hpb
    · refine ⟨_, ?_, L, l, hrestart⟩
      simp only [SortedUnorderedMap.findStep, hnd, Option.map_some, if_neg hsame]
  | validate prev cur nxt cmark =>
    have hb : Before idx s.node key prev := by
      cases cmark <;> exact hk.1
    have hprev : ∀ a, prev = some a → Held s a := by
      intro a ha
      exact hheld a (by simp [Find.snapshots, ha])
    have hcur : Held s cur := hheld cur (by simp [Find.snapshots])
    have hnxt : ∀ a, nxt = some a → Held s a := by
      intro a ha
      exact hheld a (by simp [Find.snapshots, ha])
    obtain ⟨lk, hr⟩ := hb.readable
    obtain ⟨nd, hnd⟩ := hcur.1
    have hstep : SortedUnorderedMap.findStep idx s t goal key (.validate prev cur nxt cmark) =
        some (if lk ≠ ⟨some cur, false⟩ then s.setPc t (.find goal key .start)
          else if cmark = true then s.setPc t (.find goal key (.unlink prev cur nxt))
          else if nd.key < key then s.setPc t (SortedUnorderedMap.loop goal key (some cur) nxt)
          else if nd.key = key then s.setPc t (SortedUnorderedMap.found goal key prev cur nxt nd.val)
          else s.setPc t (SortedUnorderedMap.notFound goal key prev (some cur))) := by
      simp only [SortedUnorderedMap.findStep, hr, Option.bind_some, hnd, Option.map_some]
    rw [hstep]
    refine ⟨_, rfl, ?_⟩
    by_cases hcon : lk = ⟨some cur, false⟩
    · rw [if_neg (not_not.mpr hcon)]
      rw [hcon] at hr
      obtain ⟨hidx, habs⟩ := h.validated hb hprev hr hnd
      cases cmark with
      | true =>
        rw [if_pos rfl]
        exact ⟨L, l, h.goes_find hpc hheld fun _ _ _ hkn => hkn⟩
      | false =>
        rw [if_neg (by simp)]
        -- what the node said when its `next` was read
        have hsaw : ∀ i o, s.calls.call t = some (i, o) →
            Saw (map K V) s.calls.hist L i (Shows idx nd.key nd.val nxt) := by
          intro i o hc'
          obtain ⟨_, o', hc'', _, hkn⟩ := h.running hpc (by simp)
          rw [hc'] at hc''
          cases hc''
          obtain ⟨_, nd', hnd', hshows⟩ := hkn
          rwa [Option.some.inj (hnd.symm.trans hnd')]
        by_cases hlt : nd.key < key
        · rw [if_pos hlt]
          have hb' : Before idx s.node key (some cur) := by
            intro a ha
            cases ha
            exact ⟨nd, hnd, hlt, hidx⟩
          obtain ⟨L', hinv⟩ := h.loop hpc hb' (fun a ha => by cases ha; exact hcur) hnxt fun hnull i o hc' =>
            (hsaw i o hc').mono fun f hf => hf.2 hnull key hidx.symm hlt
          exact ⟨L', l, hinv⟩
        · rw [if_neg hlt]
          by_cases hkey : nd.key = key
          · rw [if_pos hkey]
            obtain ⟨L', hinv⟩ := h.found hpc hb hnd hkey hprev hcur hnxt fun i o hc' =>
              (hsaw i o hc').mono fun f hf => by rw [← hkey]; exact hf.1
            exact ⟨L', l, hinv⟩
          · rw [if_neg hkey]
            have hgt : key < nd.key := lt_of_le_of_ne (not_lt.mp hlt) (Ne.symm hkey)
            have ha : After idx s.node key (some cur) := by
              intro a hca
              cases hca
              exact ⟨nd, hnd, hgt, hidx⟩
            obtain ⟨L', hinv⟩ := h.notFound hpc hb ha hprev (fun a hca => by cases hca; exact hcur)
              fun _ _ _ => Saw.now (habs hgt)
            exact ⟨L', l, hinv⟩
    · rw [if_pos hcon]
      exact ⟨L, l, hrestart⟩
  | unlink prev cur nxt =>
    obtain ⟨hb, hf⟩ := hk
    obtain ⟨lk, hr⟩ := hb.readable
    by_cases hcas : lk = ⟨some cur, false⟩
    · refine ⟨(s.write (addr idx prev key) ⟨nxt, false⟩).setPc t (SortedUnorderedMap.loop goal key prev nxt), ?_, ?_⟩
      · simp only [SortedUnorderedMap.findStep, State.cas, hr, Option.map_some, if_pos hcas]
      · rw [hcas] at hr
        exact h.unlinked hpc hr hb hf
    · refine ⟨_, ?_, L, l, hrestart⟩
      simp only [SortedUnorderedMap.findStep, State.cas, hr, Option.map_some, if_neg hcas]

omit [DecidableEq α] in
/-- A call starts its `findNode` again. -/
theorem Inv.restart (h : Inv idx s L l) (hbusy : s.pc t ≠ .idle)
    (hret : retOf (.find goal key .start : Pc α K V) = retOf (s.pc t))
    (htmp : ∀ a, (.find goal key .start : Pc α K V).tmpNode = some a → (s.pc t).tmpNode = some a)
    (hk : ∀ i o, Knows idx s.node s.calls.hist L i o (s.pc t) → GoalKnows s.node o key goal) :
    Inv idx (s.setPc t (.find goal key .start)) L l :=
  h.goes ⟨hbusy, htmp, by simp [Pc.snapshots, Find.snapshots], fun i o _ hkn => ⟨hk i o hkn, trivial⟩⟩ hret

/-- A thread in a call has a next step, given a free address where it needs one, and keeps the invariant
with it. -/
theorem Inv.step (h : Inv idx s L l) (hbusy : s.pc t ≠ .idle) {a : α}
    (ha : ∀ key val, s.pc t = .insertNew key val → s.node a = none) :
    ∃ s', step idx s t a = some s' ∧ ∃ L' l', Inv idx s' L' l' := by
  have hheld : ∀ a ∈ (s.pc t).snapshots, Held s a := fun a => h.held
  obtain ⟨i, o, hc, hk⟩ := (h.threads t).op hbusy
  cases hpc : s.pc t with
  | idle => exact absurd hpc hbusy
  | insertNew key val =>
    have hfree := ha key val hpc
    exact ⟨_, by simp only [SortedUnorderedMap.step, hpc, hfree], L, l, h.allocate hpc hfree⟩
  | find goal key st =>
    obtain ⟨s', hs', hinv⟩ := h.findStep hpc
    exact ⟨s', by simp only [SortedUnorderedMap.step, hpc, hs'], hinv⟩
  | insertStore key tmpNode prev cur =>
    rw [hpc] at hk
    obtain ⟨⟨val, lk, _, htmp, _⟩, _⟩ := hk
    refine ⟨_, ?_, L, l, h.insertStore hpc⟩
    simp only [SortedUnorderedMap.step, hpc, htmp, Option.map_some]
  | insertCas key tmpNode prev cur =>
    rw [hpc] at hk
    obtain ⟨⟨val, ho, htmp⟩, hb, _⟩ := hk
    obtain ⟨lk, hr⟩ := hb.readable
    by_cases hcas : lk = ⟨cur, false⟩
    · refine ⟨(s.write (addr idx prev key) ⟨some tmpNode, false⟩).setPc t (.ret (.inserted true)), ?_, ?_⟩
      · simp only [SortedUnorderedMap.step, hpc, State.cas, hr, Option.map_some, if_pos hcas]
      · rw [hcas] at hr
        obtain ⟨L', l', hinv, _⟩ := h.insertCas hpc hr
        exact ⟨L', l', hinv⟩
    · refine ⟨s.setPc t (.find (.insert tmpNode) key .start), ?_, L, l, h.restart hbusy ?_ ?_ ?_⟩
      · simp only [SortedUnorderedMap.step, hpc, State.cas, hr, Option.map_some, if_neg hcas]
      · rw [hpc]
        rfl
      · rw [hpc]
        exact fun a ha => ha
      · rw [hpc]
        intro j o' hkn
        obtain ⟨⟨val', ho', htmp'⟩, _⟩ := hkn
        exact ⟨val', _, ho', htmp', rfl⟩
  | removeMark key prev cur nxt res =>
    rw [hpc] at hheld
    obtain ⟨⟨nd, hnd⟩, _⟩ := hheld cur (by simp [Pc.snapshots])
    by_cases hcas : nd.next = ⟨nxt, false⟩
    · obtain ⟨L', hinv⟩ := h.removeMark hpc hnd hcas
      refine ⟨_, ?_, L', l, hinv⟩
      simp only [SortedUnorderedMap.step, hpc, hnd, Option.map_some, if_pos hcas]
    · refine ⟨s.setPc t (.find .remove key .start), ?_, L, l, h.restart hbusy ?_ ?_ ?_⟩
      · simp only [SortedUnorderedMap.step, hpc, hnd, Option.map_some, if_neg hcas]
      · rw [hpc]
        rfl
      · intro b hb
        cases hb
      · rw [hpc]
        exact fun _ _ hkn => hkn.1
  | removeUnlink key prev cur nxt res =>
    rw [hpc] at hk hheld
    obtain ⟨hb, hf, _⟩ := hk
    obtain ⟨lk, hr⟩ := hb.readable
    by_cases hcas : lk = ⟨some cur, false⟩
    · refine ⟨(s.write (addr idx prev key) ⟨nxt, false⟩).setPc t (.ret (.value (some res))), ?_, ?_⟩
      · simp only [SortedUnorderedMap.step, hpc, State.cas, hr, Option.map_some, if_pos hcas]
      · rw [hcas] at hr
        have hprev : ∀ a, prev = some a → Seen s a := by
          intro a ha
          exact (hheld a (by simp [Pc.snapshots, ha])).2
        obtain ⟨A, B, _, _, hinv⟩ := h.relink (h.addr_mem hb hprev hr) hr hf
        refine ⟨L, _, hinv.goes ⟨hbusy, by simp [Pc.tmpNode], by simp [Pc.snapshots],
          fun _ _ _ _ => trivial⟩ ?_⟩
        change _ = retOf (s.pc t)
        rw [hpc]
        rfl
    · refine ⟨s.setPc t (.find (.removed res) key .start), ?_, L, l, h.restart hbusy ?_ ?_ ?_⟩
      · simp only [SortedUnorderedMap.step, hpc, State.cas, hr, Option.map_some, if_neg hcas]
      · rw [hpc]
        rfl
      · intro b hb
        cases hb
      · exact fun _ _ _ => trivial
  | ret r => exact ⟨s.respond t r, by simp only [SortedUnorderedMap.step, hpc], L, l, h.respond hpc⟩

end Steps

/-! ## Runs -/

section Runs
variable [DecidableEq α] [Fintype α] {s s' : State α K V m n}

omit [DecidableEq α] [Fintype α] [LinearOrder K] in
theorem nextOf_initial (p : Loc m α) : nextOf (State.initial : State α K V m n) p = none := by
  cases p <;> rfl

omit [DecidableEq α] [Fintype α] in
theorem Inv.initial : Inv idx (State.initial : State α K V m n) [] fun _ => [] where
  tracks := Tracks.empty
  legal := trivial
  contents := by
    intro key val
    constructor
    · intro he
      cases he
    · intro hex
      obtain ⟨a, nd, ha, _⟩ := hex
      cases ha
  lists := by
    refine ⟨fun i => nextOf_initial _, fun p q hpq => ?_, fun p a hpa => ?_, fun p q hpq => ?_,
      fun a nd ha => ?_⟩
    · rw [nextOf_initial] at hpq
      cases hpq
    · rw [nextOf_initial] at hpa
      cases hpa
    · rw [nextOf_initial] at hpq
      cases hpq
    · cases ha
  threads _ := ⟨fun hi => absurd rfl hi, by simp [State.initial, Pc.tmpNode],
    by simp [State.initial, Pc.tmpNode, Pc.snapshots]⟩

theorem Inv.next {L : List (Entry (Op K V) (Ret V))} {l : Fin m → List (Loc m α)} (h : Inv idx s L l)
    {c : Label α K V n} (hs : SortedUnorderedMap.next idx s c = some s') : ∃ L' l', Inv idx s' L' l' := by
  cases c with
  | call t o =>
    simp only [SortedUnorderedMap.next] at hs
    split at hs
    · cases hs
      exact ⟨L, l, h.call o⟩
    · cases hs
  | step t a =>
    have hbusy : s.pc t ≠ .idle := by
      intro hi
      simp only [SortedUnorderedMap.next, SortedUnorderedMap.step, hi] at hs
      cases hs
    have hfree : ∀ key val, s.pc t = .insertNew key val → s.node a = none := by
      intro key val hpc
      cases hn : s.node a with
      | none => rfl
      | some nd =>
        simp only [SortedUnorderedMap.next, SortedUnorderedMap.step, hpc, hn] at hs
        cases hs
    obtain ⟨s₁, hs₁, hinv⟩ := h.step hbusy hfree
    obtain rfl : s₁ = s' := Option.some.inj (hs₁.symm.trans hs)
    exact hinv
  | reclaim a =>
    simp only [SortedUnorderedMap.next] at hs
    split at hs
    · next hfree =>
      cases hs
      exact ⟨L, l, h.reclaim hfree.1 hfree.2⟩
    · cases hs

variable [NeZero m] {hashFn : K → Nat}

theorem reach_inv (hr : (machine α V hashFn m n).Reach s) : ∃ L l, Inv (idxOf hashFn m) s L l := by
  refine hr.invariant (I := fun s => ∃ L l, Inv (idxOf hashFn m) s L l) (fun s hs => ?_) fun s c s' h hs => ?_
  · cases hs
    exact ⟨[], fun _ => [], Inv.initial⟩
  · obtain ⟨L, l, h⟩ := h
    exact h.next hs

/-- In every state of every run: from each bucket the nodes form a list with growing keys, all of which hash
to the bucket; the history is that of a sequential map with the keys and values of the nodes in these lists
that have no mark; and a thread in a call is not stuck. -/
theorem sortedUnorderedMap_linearizable (hr : (machine α V hashFn m n).Reach s) :
    (∃ (L : List (Entry (Op K V) (Ret V))) (l : Fin m → List (Loc m α)),
      Linearization s.calls.hist L ∧ (map K V).Legal L ∧
      (∀ i, Ends (nextOf s) (.bucket i) (l i) ∧ (l i).Pairwise (fun p q => rank s.node p < rank s.node q) ∧
        ∀ p ∈ l i, ∃ a nd, p = .next a ∧ s.node a = some nd ∧ idxOf hashFn m nd.key = i) ∧
      ∀ key val, (map K V).after (map K V).init L key = some val ↔
        ∃ a nd, .next a ∈ l (idxOf hashFn m key) ∧ s.node a = some nd ∧ nd.next.mark = false ∧
          nd.key = key ∧ nd.val = val) ∧
    ∀ t a, s.pc t ≠ .idle → s.node a = none → ∃ s', next (idxOf hashFn m) s (.step t a) = some s' := by
  obtain ⟨L, l, h⟩ := reach_inv hr
  refine ⟨⟨L, l, h.tracks.lin, h.legal, fun i => ⟨h.lists.ends i, (h.lists.ends i).ascending h.lists.ascending,
    fun p hp => h.lists.mem_node hp⟩, h.contents⟩, fun t a hbusy ha => ?_⟩
  obtain ⟨s', hs', _⟩ := h.step hbusy fun _ _ _ => ha
  exact ⟨s', hs'⟩

end Runs

/-- One thread has inserted 1 and set the mark of its node again, but not unlinked it. Another, whose key is in
the same bucket, unlinks the node in its `findNode` and inserts 3. -/
def unlinked : List (Label (Fin 2) Nat Nat 2) :=
  [.call 0 (.insert 1 10)] ++ List.replicate 5 (.step 0 0) ++
  [.call 0 (.remove 1)] ++ List.replicate 5 (.step 0 0) ++
  [.call 1 (.insert 3 30)] ++ List.replicate 8 (.step 1 1)

theorem sortedUnorderedMap_linearizable_unlinked :
    ∃ s : State (Fin 2) Nat Nat 2 2,
      (machine (Fin 2) Nat id 2 2).exec unlinked .initial = some s ∧
      s.pc 0 = .removeUnlink 1 none 0 none 10 ∧ s.pc 1 = .ret (.inserted true) ∧ s.bucket 1 = some 1 ∧
      (∃ (L : List (Entry (Op Nat Nat) (Ret Nat))) (l : Fin 2 → List (Loc 2 (Fin 2))),
        Linearization s.calls.hist L ∧ (map Nat Nat).Legal L ∧
        ∀ key val, (map Nat Nat).after (map Nat Nat).init L key = some val ↔
          ∃ a nd, .next a ∈ l (idxOf id 2 key) ∧ s.node a = some nd ∧ nd.next.mark = false ∧
            nd.key = key ∧ nd.val = val) := by
  have hex : ((machine (Fin 2) Nat id 2 2).exec unlinked .initial).map
      (fun s => (s.pc 0, s.pc 1, s.bucket 1)) =
      some (.removeUnlink 1 none 0 none 10, .ret (.inserted true), some 1) := by
    decide +kernel
  obtain ⟨s, hs, hp⟩ := Option.map_eq_some_iff.mp hex
  simp only [Prod.mk.injEq] at hp
  obtain ⟨hpc0, hpc1, hbucket⟩ := hp
  have hr : (machine (Fin 2) Nat id 2 2).Reach s := (Machine.Reach.init rfl).exec hs
  obtain ⟨⟨L, l, hlin, hlegal, _, hcontents⟩, _⟩ := sortedUnorderedMap_linearizable hr
  exact ⟨s, hs, hpc0, hpc1, hbucket, L, l, hlin, hlegal, hcontents⟩

end Cdrc.SortedUnorderedMap
