import Cdrc.AtomicQueue.Steps

/-! # `weak_ptr_queue::atomic_queue` is a linearizable queue

A `dequeue` takes effect at its successful `compare_and_swap`, or where it read a null
`next`: `head` has not moved past a node with a null `next`, so the queue is empty then. -/
namespace Cdrc.AtomicQueue
open Cdrc.Lib.Runs Cdrc.Lib.Objects Cdrc.Lib.History

variable {α β : Type} {n : Nat}

/-! ## Every run -/

section Runs
variable {s s' : State α β n} {t : Fin n} {L : List (Entry (Op β) (Ret β))}
  {l : List (α × β)} {last : α}

/-- The node of a snapshot has been published, unless the call itself is still making it. -/
theorem Inv.published (h : Inv s L l last) {x : α} (hx : x ∈ (s.pc t).snapshots)
    (hne : (s.pc t).unpublished ≠ some x) (u : Fin n) : (s.pc u).unpublished ≠ some x := by
  intro hu
  by_cases hut : t = u
  · exact hne (hut ▸ hu)
  · exact (((h.threads u).owned x hu).others t hut).2 hx

/-- A step of a call that does not take effect with it. -/
theorem Inv.walks (h : Inv s L l last) {pc pc' : Pc α β} (hpc : s.pc t = pc) (hbusy : pc ≠ .idle)
    (hop : ∀ o, Performs s.node pc o → Performs s.node pc' o)
    (hnew : ∀ a, pc'.newNode = some a → pc.newNode = some a)
    (hunp : pc'.unpublished = pc.unpublished)
    (hsnap : ∀ a ∈ pc'.snapshots, a ∈ pc.snapshots ∨ (Visible s a ∧ ∃ nd, s.node a = some nd))
    (hstrong : ∀ a ∈ pc'.strongSnapshots, a ∈ pc.strongSnapshots ∨ Shared s a)
    (hknows : Knows s.node s.expired s.head pc')
    (hstored : ∀ newNode ltail lprev, pc = .enqStore newNode ltail lprev →
      ∃ nd, s.node ltail = some nd ∧ nd.next ≠ none)
    (hret : retOf s.node pc' = retOf s.node pc) : Inv (s.setPc t pc') L l last := by
  subst hpc
  refine h.goes ⟨hop, hbusy, hnew, hunp, fun a ha => ?_, fun a ha => ?_, hknows, hstored⟩ hret
  · rcases hsnap a ha with ha | ⟨hv, hnd⟩
    · exact ⟨(h.threads t).allocated a (Or.inr ha), Or.inl ha⟩
    · exact ⟨hnd, Or.inr hv⟩
  · rcases hstrong a ha with ha | hs
    · exact (h.threads t).held a (Or.inr ha)
    · exact h.shared a hs

/-- `ltail->prev.get_snapshot()` -/
theorem Inv.getPrev (h : Inv s L l last) {newNode ltail : α} {nd : Node α β}
    (hpc : s.pc t = .enqLprev newNode ltail) (hnd : s.node ltail = some nd) :
    (∀ lprev, nd.prev.filter (fun lprev => !s.expired lprev) = some lprev →
      Inv (s.setPc t (.enqCheck newNode ltail lprev)) L l last) ∧
    (nd.prev.filter (fun lprev => !s.expired lprev) = none →
      Inv (s.setPc t (.enqCas newNode ltail none)) L l last) := by
  have hk := (h.threads t).knows
  rw [hpc] at hk
  constructor
  · intro lprev hl
    obtain ⟨hprev, halive⟩ := Option.filter_eq_some_iff.mp hl
    obtain ⟨ndp, hndp⟩ := h.present lprev (by simpa using halive)
    refine h.walks hpc (by simp) (fun _ ho => ho) (fun _ ha => ha) rfl ?_ (fun _ ha => Or.inl ha)
      ⟨hk, nd, hnd, hprev⟩ (by simp) rfl
    intro a ha
    simp only [Pc.snapshots, List.mem_cons, List.not_mem_nil, or_false] at ha ⊢
    rcases ha with ha | ha
    · exact Or.inl ha
    · exact Or.inr ⟨Or.inr (Or.inr ⟨ltail, nd, hnd, Or.inr (ha ▸ hprev)⟩), ndp, ha ▸ hndp⟩
  · intro hl
    refine h.walks hpc (by simp) (fun _ ho => ho) (fun _ ha => ha) rfl
      (fun a ha => Or.inl (by simpa [Pc.snapshots] using ha)) (fun _ ha => Or.inl ha) ⟨hk, ?_⟩
      (by simp) rfl
    -- the node before has expired
    intro nd' p ndp hnd' hp he _
    rw [hnd] at hnd'
    cases hnd'
    have hdead := Option.filter_eq_none_iff.mp hl p hp
    rw [he] at hdead
    exact absurd rfl hdead

variable [DecidableEq α]

/-- `lprev->next.store(ltail)` -/
theorem Inv.help (h : Inv s L l last) {newNode ltail lprev : α} {nd : Node α β}
    (hpc : s.pc t = .enqHelp newNode ltail lprev) (hnd : s.node lprev = some nd) :
    ∃ L' l' last', Inv ((s.setNode lprev (some { nd with next := some ltail })).setPc t
      (.enqCas newNode ltail (some lprev))) L' l' last' := by
  have hk := (h.threads t).knows
  rw [hpc] at hk
  have hpriv : Private s t newNode := (h.threads t).owned newNode (by rw [hpc]; rfl)
  obtain ⟨⟨nd', hnd', hp'⟩, hlprev⟩ := hk
  have hne : ltail ≠ newNode := by
    rintro rfl
    exact hpriv.hidden (Or.inr (Or.inr ⟨_, nd', hnd', Or.inr hp'⟩))
  obtain ⟨L', l', last', h'⟩ := h.store hnd hlprev
    (h.published (t := t) (by simp [hpc, Pc.snapshots]) (by simp [hpc, Pc.unpublished, Ne.symm hne]))
  have hk' := (h'.threads t).knows
  have hpc' : (s.setNode lprev (some { nd with next := some ltail })).pc t =
      .enqHelp newNode ltail lprev := hpc
  rw [hpc'] at hk'
  obtain ⟨hprev', ndt, hndt, hpt⟩ := hk'
  refine ⟨L', l', last', h'.walks hpc' (by simp) (fun _ ho => ho) (fun _ ha => ha) rfl ?_
    (fun _ ha => Or.inl ha) ⟨hprev', ?_⟩ (by simp) rfl⟩
  · intro a ha
    exact Or.inl (by simpa [Pc.snapshots] using ha)
  · intro ndt' p ndp hndt' hp _ hndp
    rw [hndt] at hndt'
    cases hndt'
    rw [hpt] at hp
    cases hp
    have hself : (s.setNode lprev (some { nd with next := some ltail })).node lprev =
        some { nd with next := some ltail } := Function.update_self ..
    rw [hself] at hndp
    cases hndp
    simp

/-- `ltail->next.store(new_node)` -/
theorem Inv.storeNext (h : Inv s L l last) {newNode ltail : α} {lprev : Option α} {nd : Node α β}
    (hpc : s.pc t = .enqStore newNode ltail lprev) (hnd : s.node ltail = some nd) :
    ∃ L' l' last', Inv ((s.setNode ltail (some { nd with next := some newNode })).setPc t
      .enqueued) L' l' last' := by
  have hk := (h.threads t).knows
  rw [hpc] at hk
  have hmine : (s.pc t).newNode = some newNode := by rw [hpc]; rfl
  have hpub : ∀ u, (s.pc u).unpublished ≠ some newNode := by
    intro u hu
    have hut := h.makers u t newNode (Pc.newNode_of_unpublished hu) hmine
    rw [hut, hpc] at hu
    cases hu
  obtain ⟨L', l', last', h'⟩ := h.store hnd hk hpub
  have hpc' : (s.setNode ltail (some { nd with next := some newNode })).pc t =
      .enqStore newNode ltail lprev := hpc
  have hself : (s.setNode ltail (some { nd with next := some newNode })).node ltail =
      some { nd with next := some newNode } := Function.update_self ..
  refine ⟨L', l', last', h'.walks hpc' (by simp) ?_ (by simp [Pc.newNode]) rfl
    (by simp [Pc.snapshots]) (by simp [Pc.strongSnapshots]) trivial ?_ (by simp [retOf, hself])⟩
  · intro o hex
    obtain ⟨nd', _, ho⟩ := hex
    exact ⟨nd'.t, ho⟩
  · intro newNode' ltail' lprev' he
    cases he
    exact ⟨_, hself, by simp⟩

theorem Inv.initial [Inhabited β] (a : α) : Inv (State.initial a : State α β n) [] [] a := by
  have hself : (State.initial a : State α β n).node a = some ⟨default, none, none⟩ := by
    simp [State.initial]
  have hother : ∀ b, b ≠ a → (State.initial a : State α β n).node b = none := by
    intro b hb
    simp [State.initial, Function.update_of_ne hb]
  have hnode : ∀ b nd, (State.initial a : State α β n).node b = some nd →
      nd.next = none ∧ nd.prev = none := by
    intro b nd hb
    by_cases hba : b = a
    · rw [hba, hself] at hb
      cases hb
      exact ⟨rfl, rfl⟩
    · rw [hother b hba] at hb
      cases hb
  have hlive : ∀ b, (State.initial a : State α β n).expired b = false ↔ b = a := by
    intro b
    by_cases hb : b = a <;> simp [State.initial, hb]
  refine ⟨Tracks.empty, trivial, rfl, ⟨rfl, _, hself, rfl⟩, Or.inl rfl, ?_, ?_, ?_, ?_,
    fun t => ⟨fun hi => absurd rfl hi, ?_, ?_, ?_, trivial⟩⟩
  · intro c hc
    rcases hc with hc | hc | ⟨b, nd, hb, hc⟩
    · exact (hlive c).mpr hc.symm
    · exact (hlive c).mpr hc.symm
    · rw [(hnode b nd hb).1] at hc
      cases hc
  · intro c he
    rw [(hlive c).mp he]
    exact ⟨_, hself⟩
  · intro x p hex
    obtain ⟨nd, hnd, hp⟩ := hex
    rw [(hnode x nd hnd).2] at hp
    cases hp
  · intro t u b hb
    cases hb
  · intro b hb
    cases hb
  · simp [State.initial, Pc.newNode, Pc.snapshots]
  · simp [State.initial, Pc.newNode, Pc.strongSnapshots]

variable [Fintype α]

theorem Inv.step (h : Inv s L l last) {a : α} (hs : step s t a = some s') :
    ∃ L' l' last', Inv s' L' l' last' := by
  have hk := (h.threads t).knows
  unfold AtomicQueue.step at hs
  split at hs
  case h_1 => cases hs
  case h_2 v hpc =>
    split at hs
    · rename_i hg
      cases hs
      exact ⟨L, l, last, h.allocate hpc hg.1 (weak_eq_zero hg.2)⟩
    · cases hs
  case h_3 newNode hpc =>
    cases hs
    have hpriv : Private s t newNode := (h.threads t).owned newNode (by rw [hpc]; rfl)
    obtain ⟨nd, hnd, _⟩ := h.tail_allocated
    refine ⟨L, l, last, h.walks hpc (by simp) (fun _ ho => ho) (fun _ ha => ha) rfl ?_ ?_
      (fun he => hpriv.hidden (Or.inr (Or.inl he))) (by simp) rfl⟩
    · intro b hb
      obtain rfl : b = s.tail := by simpa [Pc.snapshots] using hb
      exact Or.inr ⟨Or.inr (Or.inl rfl), nd, hnd⟩
    · intro b hb
      exact Or.inr (Or.inr (Or.inl (List.mem_singleton.mp hb).symm))
  case h_4 newNode ltail hpc =>
    obtain ⟨nd, hnd, rfl⟩ := Option.map_eq_some_iff.mp hs
    exact ⟨L, l, last, h.storePrev hpc hnd⟩
  case h_5 newNode ltail hpc =>
    obtain ⟨nd, hnd, rfl⟩ := Option.map_eq_some_iff.mp hs
    obtain ⟨hsome, hnone⟩ := h.getPrev hpc hnd
    split
    · rename_i lprev hl
      exact ⟨L, l, last, hsome lprev hl⟩
    · rename_i hl
      exact ⟨L, l, last, hnone hl⟩
  case h_6 newNode ltail lprev hpc =>
    obtain ⟨nd, hnd, rfl⟩ := Option.map_eq_some_iff.mp hs
    rw [hpc] at hk
    by_cases hn : nd.next = none
    · rw [if_pos hn]
      exact ⟨L, l, last, h.walks hpc (by simp) (fun _ ho => ho) (fun _ ha => ha) rfl
        (fun _ ha => Or.inl ha) (fun _ ha => Or.inl ha) hk (by simp) rfl⟩
    · rw [if_neg hn]
      refine ⟨L, l, last, h.walks hpc (by simp) (fun _ ho => ho) (fun _ ha => ha) rfl
        (fun b hb => Or.inl (by simpa [Pc.snapshots] using hb)) (fun _ ha => Or.inl ha) ⟨hk.1, ?_⟩
        (by simp) rfl⟩
      obtain ⟨_, ndt, hndt, hpt⟩ := hk
      intro ndt' p ndp hndt' hp _ hndp
      rw [hndt] at hndt'
      cases hndt'
      rw [hpt] at hp
      cases hp
      rw [hnd] at hndp
      cases hndp
      exact hn
  case h_7 newNode ltail lprev hpc =>
    obtain ⟨nd, hnd, rfl⟩ := Option.map_eq_some_iff.mp hs
    exact h.help hpc hnd
  case h_8 newNode ltail lprev hpc =>
    split at hs
    · rename_i htail
      cases hs
      exact ⟨L, l, last, h.publish hpc htail⟩
    · cases hs
      exact ⟨L, l, last, h.walks hpc (by simp) (fun _ ho => ho) (fun _ ha => ha) rfl
        (by simp [Pc.snapshots]) (by simp [Pc.strongSnapshots]) trivial (by simp) rfl⟩
  case h_9 newNode ltail lprev hpc =>
    obtain ⟨nd, hnd, rfl⟩ := Option.map_eq_some_iff.mp hs
    exact h.storeNext hpc hnd
  case h_10 hpc =>
    cases hs
    exact ⟨L, l, last, h.respond (by rw [hpc]; rfl) (by rw [hpc]; rfl)⟩
  case h_11 hpc =>
    cases hs
    obtain ⟨nd, hnd⟩ := h.chain.head
    refine ⟨L, l, last, h.walks hpc (by simp) (fun _ ho => ho) (by simp [Pc.newNode]) rfl ?_ ?_
      (fun _ _ _ => rfl) (by simp) rfl⟩
    · intro b hb
      obtain rfl : b = s.head := by simpa [Pc.snapshots] using hb
      exact Or.inr ⟨Or.inl rfl, nd, hnd⟩
    · intro b hb
      exact Or.inr (Or.inl (List.mem_singleton.mp hb).symm)
  case h_12 lhead hpc =>
    obtain ⟨nd, hnd, rfl⟩ := Option.map_eq_some_iff.mp hs
    split
    · rename_i lnext hnx
      refine ⟨L, l, last, h.walks hpc (by simp) (fun _ ho => ho) (by simp [Pc.newNode]) rfl ?_ ?_
        ⟨nd, hnd, hnx⟩ (by simp) rfl⟩
      · intro b hb
        simp only [Pc.snapshots, List.mem_cons, List.not_mem_nil, or_false] at hb ⊢
        rcases hb with hb | rfl
        · exact Or.inl hb
        · exact Or.inr ⟨Or.inr (Or.inr ⟨lhead, nd, hnd, Or.inl hnx⟩), h.closed hnd hnx⟩
      · intro b hb
        simp only [Pc.strongSnapshots, List.mem_cons, List.not_mem_nil, or_false] at hb ⊢
        refine hb.imp_right ?_
        rintro rfl
        exact Or.inr (Or.inr ⟨lhead, nd, hnd, hnx⟩)
    · rename_i hnx
      obtain ⟨L', h'⟩ := h.empty hpc hnd hnx
      exact ⟨L', l, last, h'⟩
  case h_13 lhead lnext hpc =>
    split at hs
    · rename_i hhead
      cases hs
      obtain ⟨L', l', h'⟩ := h.leave hpc hhead
      exact ⟨L', l', last, h'⟩
    · cases hs
      exact ⟨L, l, last, h.walks hpc (by simp) (fun _ ho => ho) (by simp [Pc.newNode]) rfl
        (by simp [Pc.snapshots]) (by simp [Pc.strongSnapshots]) trivial (by simp) rfl⟩
  case h_14 lhead lnext hpc =>
    obtain ⟨nd, hnd, rfl⟩ := Option.map_eq_some_iff.mp hs
    exact ⟨L, l, last, h.walks hpc (by simp) (fun _ ho => ho) (by simp [Pc.newNode]) rfl
      (by simp [Pc.snapshots]) (by simp [Pc.strongSnapshots]) trivial (by simp)
      (by simp [retOf, hnd])⟩
  case h_15 r hpc =>
    cases hs
    exact ⟨L, l, last, h.respond (by rw [hpc]; rfl) (by rw [hpc]; rfl)⟩

theorem Inv.next (h : Inv s L l last) {e : Label α β n} (hs : AtomicQueue.next s e = some s') :
    ∃ L' l' last', Inv s' L' l' last' := by
  cases e with
  | call t o =>
    simp only [AtomicQueue.next] at hs
    split at hs
    · rename_i hpc
      cases hs
      exact ⟨L, l, last, h.call hpc o⟩
    · cases hs
  | step t a => exact h.step hs
  | expire a =>
    obtain ⟨⟨ha, hsnap⟩, hs⟩ := Option.ite_none_right_eq_some.mp hs
    cases hs
    exact ⟨L, l, last, h.expire ha hsnap⟩
  | dispose a =>
    obtain ⟨⟨ha, hsnap⟩, hs⟩ := Option.ite_none_right_eq_some.mp hs
    cases hs
    exact ⟨L, l, last, h.dispose ha hsnap⟩

theorem reach_inv [Inhabited β] (hr : (machine α β n).Reach s) : ∃ L l last, Inv s L l last := by
  refine Machine.Reach.invariant (I := fun s => ∃ L l last, Inv s L l last) ?_ ?_ hr
  · intro _ hex
    obtain ⟨a, rfl⟩ := hex
    exact ⟨[], [], a, Inv.initial a⟩
  · intro s e s' hi hn
    obtain ⟨L, l, last, h⟩ := hi
    exact h.next hn

/-- In every state of every run the history is that of a sequential queue, whose contents
are the nodes after `head`. The values enqueued, in that order, are those dequeued, in that
order, and those still there. No call refers to a node that has been disposed of. -/
theorem atomicQueue_linearizable [Inhabited β] (hr : (machine α β n).Reach s) :
    (∃ L l last, Linearization s.calls.hist L ∧ (queue β).Legal L ∧ Chain s.node s.head l last ∧
      (queue β).after [] L = l.map Prod.snd ∧ enqueued L = dequeued L ++ l.map Prod.snd) ∧
    ∀ t a, (s.pc t).newNode = some a ∨ a ∈ (s.pc t).snapshots → ∃ nd, s.node a = some nd := by
  obtain ⟨L, l, last, h⟩ := reach_inv hr
  have hfifo := queue_fifo h.legal
  rw [h.contents] at hfifo
  exact ⟨⟨L, l, last, h.tracks.lin, h.legal, h.chain, h.contents, hfifo⟩,
    fun t a ha => (h.threads t).allocated a ha⟩

end Runs

/-- Thread 0 stops between its two writes. Thread 1 makes the link for it and returns,
thread 2 dequeues the value, and only then thread 0 stores to the node that has been
dequeued, which expires afterwards and is disposed of. -/
def stalled : List (Label (Fin 3) Nat 3) :=
  [.call 0 (.enqueue 7), .step 0 1, .step 0 0, .step 0 0, .step 0 0, .step 0 0,
    .call 1 (.enqueue 8), .step 1 2, .step 1 0, .step 1 0, .step 1 0, .step 1 0, .step 1 0,
    .step 1 0, .step 1 0, .step 1 0,
    .call 2 .dequeue, .step 2 0, .step 2 0, .step 2 0, .step 2 0, .step 2 0,
    .step 0 0, .step 0 0, .expire 0, .dispose 0]

theorem atomicQueue_linearizable_stalled :
    ∃ s, (machine (Fin 3) Nat 3).exec stalled (.initial 0) = some s ∧ s.head = 1 ∧
      s.node 0 = none ∧
      s.calls.hist = [.inv 0 (.enqueue 7), .inv 1 (.enqueue 8), .res 1 .enqueued, .inv 2 .dequeue,
        .res 2 (.value (some 7)), .res 0 .enqueued] ∧
      (∃ L l last, Linearization s.calls.hist L ∧ (queue Nat).Legal L ∧
        Chain s.node s.head l last ∧ (queue Nat).after [] L = l.map Prod.snd ∧
        enqueued L = dequeued L ++ l.map Prod.snd) := by
  have hex : ((machine (Fin 3) Nat 3).exec stalled (.initial 0)).map
      (fun s => (s.head, s.node 0, s.calls.hist)) =
      some (1, none, [.inv 0 (.enqueue 7), .inv 1 (.enqueue 8), .res 1 .enqueued, .inv 2 .dequeue,
        .res 2 (.value (some 7)), .res 0 .enqueued]) := by
    decide +kernel
  obtain ⟨s, hs, hp⟩ := Option.map_eq_some_iff.mp hex
  simp only [Prod.mk.injEq] at hp
  obtain ⟨hhead, hnode, hhist⟩ := hp
  have h0 : (machine (Fin 3) Nat 3).Reach (.initial 0) := .init ⟨0, rfl⟩
  have hr := h0.exec hs
  exact ⟨s, hs, hhead, hnode, hhist, (atomicQueue_linearizable hr).1⟩

end Cdrc.AtomicQueue
