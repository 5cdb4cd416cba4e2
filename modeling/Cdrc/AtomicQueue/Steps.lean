import Mathlib.Algebra.Order.BigOperators.Group.Finset
import Cdrc.AtomicQueue.Invariant

/-! # The steps of `weak_ptr_queue::atomic_queue`

Each kind of step keeps the invariant. An `enqueue` takes effect when its node is linked,
by its own store or by that of a helper. The store that comes second writes the same
pointer again, as the node before is not reused while one of the two has a snapshot of it
(`Inv.links`). -/
namespace Cdrc.AtomicQueue
open Cdrc.Lib.Objects Cdrc.Lib.History

variable {α β : Type} {n : Nat}

/-! ## The link -/

section Link
variable [DecidableEq α] {s : State α β n} {t : Fin n} {L : List (Entry (Op β) (Ret β))}
  {l : List (α × β)} {last : α}

/-- The state in which the node in `tail` is linked after `last`. -/
def linkState (s : State α β n) (last : α) (nd : Node α β) : State α β n :=
  s.setNode last (some { nd with next := some s.tail })

theorem linkState_last (s : State α β n) (last : α) (nd : Node α β) :
    (linkState s last nd).node last = some { nd with next := some s.tail } :=
  Function.update_self ..

theorem linkState_of_ne (s : State α β n) (nd : Node α β) {a : α} (ha : a ≠ last) :
    (linkState s last nd).node a = s.node a :=
  Function.update_of_ne ha ..

/-- Nothing but the `next` of `last` changes. -/
theorem linkState_cases {nd ndb : Node α β} {b : α}
    (hnd : s.node last = some nd) (hb : (linkState s last nd).node b = some ndb) :
    ∃ ndb', s.node b = some ndb' ∧ ndb.t = ndb'.t ∧ ndb.prev = ndb'.prev ∧
      ((b = last ∧ ndb.next = some s.tail) ∨ (b ≠ last ∧ ndb.next = ndb'.next)) := by
  by_cases hbl : b = last
  · subst hbl
    rw [linkState_last] at hb
    cases hb
    exact ⟨nd, hnd, rfl, rfl, Or.inl ⟨rfl, rfl⟩⟩
  · rw [linkState_of_ne s nd hbl] at hb
    exact ⟨ndb, hb, rfl, rfl, Or.inr ⟨hbl, rfl⟩⟩

theorem linkState_stays {nd : Node α β} (hnd : s.node last = some nd) (hnone : nd.next = none)
    (a : α) : Stays s.node (linkState s last nd).node a := by
  by_cases ha : a = last
  · subst ha
    intro nd' hnd'
    rw [hnd] at hnd'
    cases hnd'
    refine ⟨_, linkState_last s a nd, rfl, rfl, fun c hc => ?_⟩
    rw [hnone] at hc
    cases hc
  · exact .of_eq (linkState_of_ne s nd ha)

/-- The only call that takes effect with the link is the one whose node is in `tail`. -/
theorem Inv.link_ret (h : Inv s L l last) {nd : Node α β} (hnd : s.node last = some nd)
    (hnone : nd.next = none) {u : Fin n} {lprev : Option α}
    (hu : s.pc u = .enqStore s.tail last lprev) :
    (fun v => retOf (linkState s last nd).node ((linkState s last nd).pc v)) =
      Function.update (fun v => retOf s.node (s.pc v)) u (some .enqueued) := by
  funext v
  change retOf (linkState s last nd).node (s.pc v) = _
  by_cases hv : v = u
  · rw [hv, Function.update_self, hu, retOf, linkState_last]
    rfl
  · rw [Function.update_of_ne hv]
    cases hpc : s.pc v with
    | enqStore newNode ltail lp =>
      have hlt : ltail ≠ last := by
        rintro rfl
        have hk := (h.threads v).knows
        rw [hpc] at hk
        have hmine : (s.pc v).newNode = some newNode := by rw [hpc]; rfl
        have hpub : ∀ w, (s.pc w).unpublished ≠ some newNode := by
          intro w hw
          have hwv := h.makers w v newNode (Pc.newNode_of_unpublished hw) hmine
          rw [hwv, hpc] at hw
          cases hw
        rcases h.links newNode ltail hk ⟨nd, hnd⟩ hpub with ⟨nd', hnd', hnx⟩ | ⟨_, hx, _⟩
        · rw [hnd] at hnd'
          cases hnd'
          rw [hnone] at hnx
          cases hnx
        · exact hv (h.makers v u newNode hmine (by rw [hu, hx]; rfl))
      rw [retOf, retOf, linkState_of_ne s nd hlt]
    | deqValue lhead lnext =>
      rw [retOf, retOf]
      by_cases hl : lnext = last
      · rw [hl, linkState_last, hnd]
        rfl
      · rw [linkState_of_ne s nd hl]
    | _ => rfl

theorem Inv.link_threads (h : Inv s L l last) {nd : Node α β} (hnd : s.node last = some nd)
    (hnone : nd.next = none) (hvis : Visible s last) (v : Fin n) :
    ThreadInv (linkState s last nd) v := by
  refine (h.threads v).frame ⟨rfl, rfl, fun a _ => linkState_stays hnd hnone a, fun _ _ he => he, ?_,
    fun _ _ _ _ hh => hh⟩ fun a _ hp => ⟨?_, hp.others, ?_⟩
  · intro a p ndp' _ _ he hp
    obtain ⟨ndp, hndp, _, _, hnx⟩ := linkState_cases hnd hp
    refine ⟨he, ndp, hndp, fun hne => ?_⟩
    rcases hnx with ⟨_, hnx⟩ | ⟨_, hnx⟩
    · rw [hnx]
      simp
    · rwa [hnx]
  · intro hh
    rcases hh with hh | hh | ⟨b, ndb, hb, hx⟩
    · exact hp.hidden (Or.inl hh)
    · exact hp.hidden (Or.inr (Or.inl hh))
    · obtain ⟨ndb', hb', _, hprev, hnx⟩ := linkState_cases hnd hb
      rcases hx with hx | hx
      · rcases hnx with ⟨_, hnx⟩ | ⟨_, hnx⟩
        · rw [hnx] at hx
          exact hp.hidden (Or.inr (Or.inl (Option.some.inj hx)))
        · exact hp.hidden (Or.inr (Or.inr ⟨b, ndb', hb', Or.inl (hnx ▸ hx)⟩))
      · exact hp.hidden (Or.inr (Or.inr ⟨b, ndb', hb', Or.inr (hprev ▸ hx)⟩))
  · intro nda hnda
    have hal : a ≠ last := by
      rintro rfl
      exact hp.hidden hvis
    rw [linkState_of_ne s nd hal] at hnda
    exact hp.unlinked nda hnda

/-- The node in `tail` is linked, and the call that made it takes effect. -/
theorem Inv.link (h : Inv s L l last) {nd : Node α β} (hnd : s.node last = some nd)
    (hne : last ≠ s.tail) : ∃ L' l', Inv (linkState s last nd) L' l' s.tail := by
  obtain ⟨nd', hnd', hnone⟩ := h.chain.ends
  rw [hnd] at hnd'
  cases hnd'
  rcases h.tail with htail | ⟨⟨u, lprev, hu⟩, ndx, hndx, hnonex⟩
  · exact absurd htail.symm hne
  obtain ⟨i, o, hc, ho⟩ := (h.threads u).op (by rw [hu]; simp)
  have hk := (h.threads u).knows
  rw [hu] at ho hk
  obtain ⟨ndx', hndx', rfl⟩ := ho
  rw [hndx] at hndx'
  cases hndx'
  obtain ⟨ndp, hndp, hprev⟩ := hk
  obtain ⟨hlegal, hafter⟩ := h.order_commit (i := i) (o := .enqueue ndx.t) rfl
  have hback : ∀ x p, PrevIs (linkState s last nd).node x p → PrevIs s.node x p := by
    intro x p hex
    obtain ⟨ndb, hb, hp⟩ := hex
    obtain ⟨ndb', hb', _, hpr, _⟩ := linkState_cases hnd hb
    exact ⟨ndb', hb', hpr ▸ hp⟩
  refine ⟨_, l ++ [(s.tail, ndx.t)], ?_, hlegal, by rw [hafter]; simp, ?_, Or.inl rfl, ?_, ?_, ?_,
    h.makers, h.link_threads hnd hnone (Or.inr (Or.inr ⟨_, ndp, hndp, Or.inr hprev⟩))⟩
  · rw [h.link_ret hnd hnone hu]
    exact h.tracks.commit .enqueued hc (by simp [hu, retOf, hnd, hnone])
  · exact h.chain.snoc (Ne.symm hne) (fun a ha => linkState_of_ne s nd ha)
      ⟨nd, _, hnd, linkState_last s last nd, rfl, rfl⟩ ⟨ndx, hndx, rfl, hnonex⟩
  · intro c hcx
    rcases hcx with hcx | hcx | ⟨b, ndb, hb, hcx⟩
    · exact h.shared c (Or.inl hcx)
    · exact h.shared c (Or.inr (Or.inl hcx))
    · obtain ⟨ndb', hb', _, _, hnx⟩ := linkState_cases hnd hb
      rcases hnx with ⟨_, hnx⟩ | ⟨_, hnx⟩
      · rw [hnx] at hcx
        exact h.shared c (Or.inr (Or.inl (Option.some.inj hcx)))
      · exact h.shared c (Or.inr (Or.inr ⟨b, ndb', hb', hnx ▸ hcx⟩))
  · intro c he
    obtain ⟨ndc, hndc⟩ := h.present c he
    obtain ⟨ndc', hndc', _⟩ := linkState_stays hnd hnone c ndc hndc
    exact ⟨ndc', hndc'⟩
  · rintro x p hx ⟨ndb, hb⟩ hpub
    obtain ⟨ndb', hb', _⟩ := linkState_cases hnd hb
    rcases h.links x p (hback x p hx) ⟨ndb', hb'⟩ hpub with ⟨nd₂, hnd₂, hnx⟩ | ⟨rfl, rfl, _⟩
    · obtain ⟨nd₃, hnd₃, _, _, hkeep⟩ := linkState_stays hnd hnone p nd₂ hnd₂
      exact Or.inl ⟨nd₃, hnd₃, hkeep x hnx⟩
    · exact Or.inl ⟨_, linkState_last s p nd, rfl⟩

/-- The store of a `next`, by the `enqueue` itself or by a helper: the first makes the link,
the second writes the same pointer again. -/
theorem Inv.store (h : Inv s L l last) {p x : α} {nd : Node α β} (hp : s.node p = some nd)
    (hx : PrevIs s.node x p) (hpub : ∀ t, (s.pc t).unpublished ≠ some x) :
    ∃ L' l' last', Inv (s.setNode p (some { nd with next := some x })) L' l' last' := by
  rcases h.links x p hx ⟨nd, hp⟩ hpub with ⟨nd', hnd', hnx⟩ | ⟨rfl, rfl, hne⟩
  · rw [hp] at hnd'
    cases hnd'
    have hsame : s.setNode p (some { nd with next := some x }) = s := by
      rw [← hnx, State.setNode, ← hp, Function.update_eq_self]
    rw [hsame]
    exact ⟨L, l, last, h⟩
  · obtain ⟨L', l', h'⟩ := h.link hp hne
    exact ⟨L', l', s.tail, h'⟩

end Link

/-! ## The two `compare_and_swap`s -/

section Swaps
variable {s : State α β n} {t : Fin n} {L : List (Entry (Op β) (Ret β))} {l : List (α × β)}
  {last : α}

/-- A call that has made the link before `tail`, or seen it made, finds `tail` last. -/
theorem Inv.tail_of_helped (h : Inv s L l last) (hh : Helped s.node s.expired s.tail) :
    s.tail = last := by
  rcases h.tail with htail | ⟨⟨u, lprev, hu⟩, _⟩
  · exact htail
  · have hk := (h.threads u).knows
    rw [hu] at hk
    obtain ⟨nd, hnd, hp⟩ := hk
    obtain ⟨ndl, hndl, hnone⟩ := h.chain.ends
    have he := (h.threads u).held last (Or.inr (by rw [hu]; simp [Pc.strongSnapshots]))
    exact absurd hnone (hh nd last ndl hnd hp he hndl)

/-- The `compare_and_swap` on `tail` succeeds: the node is published, not yet linked. -/
theorem Inv.publish (h : Inv s L l last) {newNode ltail : α} {lprev : Option α}
    (hpc : s.pc t = .enqCas newNode ltail lprev) (htail : s.tail = ltail) :
    Inv ({ s with tail := newNode }.setPc t (.enqStore newNode ltail lprev)) L l last := by
  have hk := (h.threads t).knows
  rw [hpc] at hk
  obtain ⟨hprev, hhelped⟩ := hk
  have hlast : s.tail = last := h.tail_of_helped (htail ▸ hhelped)
  obtain rfl : ltail = last := htail.symm.trans hlast
  obtain ⟨ndl, hndl, hnonel⟩ := h.chain.ends
  have hpriv : Private s t newNode := (h.threads t).owned newNode (by rw [hpc]; rfl)
  have hmine : (s.pc t).newNode = some newNode := by rw [hpc]; rfl
  have hne : ltail ≠ newNode := fun he => hpriv.hidden (Or.inr (Or.inl (hlast.trans he)))
  obtain ⟨nd, hnd, hndp⟩ := hprev
  have hpcs : ∀ w, w ≠ t →
      ({ s with tail := newNode }.setPc t (.enqStore newNode ltail lprev)).pc w = s.pc w :=
    fun w hw => setPc_of_ne _ _ hw
  have hnew : ∀ w, (({ s with tail := newNode }.setPc t
      (.enqStore newNode ltail lprev)).pc w).newNode = (s.pc w).newNode := by
    intro w
    by_cases hw : w = t
    · rw [hw, setPc_self, hmine]
      rfl
    · rw [hpcs w hw]
  refine ⟨?_, h.legal, h.contents, h.chain, Or.inr ⟨⟨t, lprev, setPc_self _ t _⟩, nd, hnd,
    hpriv.unlinked nd hnd⟩, ?_, h.present, ?_, ?_, ?_⟩
  · rw [retOf_setPc]
    refine h.tracks.congr fun u _ _ _ => ?_
    by_cases hu : u = t
    · rw [hu, Function.update_self, hpc]
      simp [retOf, hndl, hnonel]
    · rw [Function.update_of_ne hu]
  · intro c hc
    rcases hc with hc | hc | hc
    · exact h.shared c (Or.inl hc)
    · exact (h.threads t).held c (Or.inl (hmine.trans (congrArg some hc)))
    · exact h.shared c (Or.inr (Or.inr hc))
  · intro x p hx hp hpub
    by_cases hxn : x = newNode
    · subst hxn
      obtain ⟨nd', hnd', hp'⟩ := hx
      have heq : nd' = nd := Option.some.inj (hnd'.symm.trans hnd)
      rw [heq, hndp] at hp'
      cases hp'
      exact Or.inr ⟨rfl, rfl, hne⟩
    · have hpub' : ∀ u, (s.pc u).unpublished ≠ some x := by
        intro u hu
        by_cases hut : u = t
        · rw [hut, hpc] at hu
          exact hxn (Option.some.inj hu).symm
        · have := hpub u
          rw [hpcs u hut] at this
          exact this hu
      rcases h.links x p hx hp hpub' with hf | ⟨rfl, rfl, hne'⟩
      · exact Or.inl hf
      · exact absurd hlast.symm hne'
  · intro u v a hu hv
    rw [hnew] at hu hv
    exact h.makers u v a hu hv
  · refine threads_step (t := t) h.threads (fun v hv => ?_) (fun v a hv ho hp => ?_)
      ⟨?_, ?_, ?_, ?_, ?_⟩
    · exact .same (hpcs v hv) rfl rfl rfl fun _ _ _ _ hh => hh
    · rw [setPc_self]
      obtain ⟨h1, h2⟩ := hp.others t (Ne.symm hv)
      rw [hpc] at h1 h2
      refine ⟨?_, h1, h2, rfl⟩
      intro hh
      rcases hh with hh | hh | hh
      · exact hp.hidden (Or.inl hh)
      · exact h1 (congrArg some hh)
      · exact hp.hidden (Or.inr (Or.inr hh))
    · intro _
      rw [setPc_self]
      obtain ⟨i, o, hc, ho⟩ := (h.threads t).op (by rw [hpc]; simp)
      rw [hpc] at ho
      exact ⟨i, o, hc, ho⟩
    · rw [setPc_self]
      intro a ha
      cases ha
    · rw [setPc_self]
      have hal := (h.threads t).allocated
      rw [hpc] at hal
      exact hal
    · rw [setPc_self]
      have hheld := (h.threads t).held
      rw [hpc] at hheld
      exact hheld
    · rw [setPc_self]
      exact ⟨nd, hnd, hndp⟩

/-- The `compare_and_swap` on `head` succeeds: the first value leaves. -/
theorem Inv.leave (h : Inv s L l last) {lhead lnext : α} (hpc : s.pc t = .deqCas lhead lnext)
    (hhead : s.head = lhead) :
    ∃ L' l', Inv ({ s with head := lnext }.setPc t (.deqValue lhead lnext)) L' l' last := by
  have hk := (h.threads t).knows
  rw [hpc] at hk
  obtain ⟨nd, hnd, hnx⟩ := hk
  have hchain := h.chain
  cases l with
  | nil =>
    obtain ⟨_, nd', hnd', hnone⟩ := hchain
    rw [hhead, hnd] at hnd'
    cases hnd'
    rw [hnone] at hnx
    cases hnx
  | cons x l =>
    obtain ⟨a, v⟩ := x
    obtain ⟨⟨nd', hnd', hnx'⟩, ⟨nda, hnda, hv⟩, hchain⟩ := hchain
    rw [hhead, hnd] at hnd'
    cases hnd'
    rw [hnx] at hnx'
    cases hnx'
    obtain ⟨i, o, hc, ho⟩ := (h.threads t).op (by rw [hpc]; simp)
    rw [hpc] at ho
    obtain rfl : o = .dequeue := ho
    obtain ⟨hlegal, hafter⟩ := h.order_commit (i := i) (o := .dequeue) rfl
    have hpcs : ∀ w, w ≠ t →
        ({ s with head := lnext }.setPc t (.deqValue lhead lnext)).pc w = s.pc w :=
      fun w hw => setPc_of_ne _ _ hw
    have hsame : ∀ w, (({ s with head := lnext }.setPc t (.deqValue lhead lnext)).pc w).newNode =
          (s.pc w).newNode ∧
        (({ s with head := lnext }.setPc t (.deqValue lhead lnext)).pc w).unpublished =
          (s.pc w).unpublished := by
      intro w
      by_cases hw : w = t
      · rw [hw, setPc_self, hpc]
        exact ⟨rfl, rfl⟩
      · rw [hpcs w hw]
        exact ⟨rfl, rfl⟩
    refine ⟨_, l, ?_, hlegal, hafter, hchain, ?_, ?_, h.present, ?_, ?_, ?_⟩
    · rw [retOf_setPc]
      have hret : retOf s.node (.deqValue lhead lnext) = some (.value (some v)) := by
        simp [retOf, hnda, hv]
      change Tracks s.calls _ (Function.update _ t (retOf s.node (.deqValue lhead lnext)))
      rw [hret]
      exact h.tracks.commit _ hc (by rw [hpc]; rfl)
    · rcases h.tail with htail | ⟨⟨u, lprev, hu⟩, hnone⟩
      · exact Or.inl htail
      · refine Or.inr ⟨⟨u, lprev, ?_⟩, hnone⟩
        have hut : u ≠ t := by
          rintro rfl
          rw [hpc] at hu
          cases hu
        rw [hpcs u hut]
        exact hu
    · intro c hc
      rcases hc with hc | hc | hc
      · exact h.shared c (Or.inr (Or.inr ⟨lhead, nd, hnd, hnx.trans (congrArg some hc)⟩))
      · exact h.shared c (Or.inr (Or.inl hc))
      · exact h.shared c (Or.inr (Or.inr hc))
    · exact fun x p hx hp hpub => h.links x p hx hp fun u => (hsame u).2 ▸ hpub u
    · intro u v a hu hv
      rw [(hsame _).1] at hu hv
      exact h.makers u v a hu hv
    · refine threads_step (t := t) h.threads (fun v hv => ?_) (fun v a hv ho hp => ?_)
        ⟨?_, ?_, ?_, ?_, ?_⟩
      · refine .same (hpcs v hv) rfl rfl rfl fun a nda hnda hnone hh => ?_
        rw [hhead] at hh
        rw [← hh, hnd] at hnda
        cases hnda
        rw [hnone] at hnx
        cases hnx
      · rw [setPc_self]
        obtain ⟨_, h2⟩ := hp.others t (Ne.symm hv)
        rw [hpc] at h2
        refine ⟨?_, by simp [Pc.newNode], h2, rfl⟩
        intro hh
        rcases hh with hh | hh | hh
        · exact hp.hidden (Or.inr (Or.inr ⟨lhead, nd, hnd, Or.inl (hnx.trans (congrArg some hh))⟩))
        · exact hp.hidden (Or.inr (Or.inl hh))
        · exact hp.hidden (Or.inr (Or.inr hh))
      · intro _
        rw [setPc_self]
        exact ⟨i, .dequeue, hc, rfl⟩
      · rw [setPc_self]
        intro a ha
        cases ha
      · rw [setPc_self]
        have hal := (h.threads t).allocated
        rw [hpc] at hal
        exact hal
      · rw [setPc_self]
        have hheld := (h.threads t).held
        rw [hpc] at hheld
        exact hheld
      · rw [setPc_self]
        trivial

end Swaps

/-! ## Writes to a node that is not published -/

section Writes
variable [DecidableEq α] {s : State α β n} {t : Fin n} {L : List (Entry (Op β) (Ret β))}
  {l : List (α × β)} {last : α}

/-- A node that nothing refers to may be written by the thread that makes it. -/
structure Writes (s : State α β n) (t : Fin n) (pc : Pc α β) (a : α) (nd : Node α β) : Prop where
  busy : s.pc t ≠ .idle
  op : ∀ o, Performs s.node (s.pc t) o → o = .enqueue nd.t
  performs : ∀ node : α → Option (Node α β), node a = some nd → Performs node pc (.enqueue nd.t)
  before : ∀ node, retOf node (s.pc t) = none
  after : ∀ node, retOf node pc = none
  hidden : ¬ Visible s a
  others : ∀ u, u ≠ t → (s.pc u).newNode ≠ some a ∧ a ∉ (s.pc u).snapshots
  unlinked : nd.next = none
  prev : ∀ q, nd.prev = some q → q ≠ a ∧ q ∈ (s.pc t).snapshots
  made : (s.pc t).newNode = none ∨ (s.pc t).newNode = some a
  newNode : pc.newNode = some a
  unpublished : pc.unpublished = some a
  snapshots : ∀ b ∈ pc.snapshots, b ∈ (s.pc t).snapshots
  strong : ∀ b ∈ pc.strongSnapshots, b ∈ (s.pc t).strongSnapshots
  knows : Knows (Function.update s.node a (some nd)) (Function.update s.expired a false) s.head pc

/-- The state after the write. The thread holds on to the node. -/
def writeState (s : State α β n) (t : Fin n) (pc : Pc α β) (a : α) (nd : Node α β) :
    State α β n :=
  ((s.setNode a (some nd)).setExpired a false).setPc t pc

theorem writeState_self (s : State α β n) (t : Fin n) (pc : Pc α β) (a : α) (nd : Node α β) :
    (writeState s t pc a nd).node a = some nd :=
  Function.update_self ..

theorem writeState_unexpired (s : State α β n) (t : Fin n) (pc : Pc α β) (nd : Node α β) {a b : α}
    (hb : s.expired b = false) : (writeState s t pc a nd).expired b = false := by
  by_cases hba : b = a
  · rw [hba]
    exact Function.update_self ..
  · exact (Function.update_of_ne hba ..).trans hb

theorem writeState_of_ne (s : State α β n) (t : Fin n) (pc : Pc α β) (nd : Node α β) {a b : α}
    (hb : b ≠ a) : (writeState s t pc a nd).node b = s.node b :=
  Function.update_of_ne hb ..

/-- What refers to a node after the write referred to it before, or is the pointer in the
new node. -/
theorem Writes.visible {pc : Pc α β} {a b : α} {nd : Node α β} (w : Writes s t pc a nd)
    (h : Visible (writeState s t pc a nd) b) : Visible s b ∨ nd.prev = some b := by
  rcases h with hh | hh | ⟨c, ndc, hc, hx⟩
  · exact Or.inl (Or.inl hh)
  · exact Or.inl (Or.inr (Or.inl hh))
  · by_cases hca : c = a
    · subst hca
      rw [writeState_self] at hc
      cases hc
      rcases hx with hx | hx
      · rw [w.unlinked] at hx
        cases hx
      · exact Or.inr hx
    · rw [writeState_of_ne s t pc nd hca] at hc
      exact Or.inl (Or.inr (Or.inr ⟨c, ndc, hc, hx⟩))

theorem Writes.threads {pc : Pc α β} {a : α} {nd : Node α β} (w : Writes s t pc a nd)
    (h : ∀ v, ThreadInv s v) (v : Fin n) : ThreadInv (writeState s t pc a nd) v := by
  have hnode : ∀ b, b ≠ a → (writeState s t pc a nd).node b = s.node b :=
    fun b hb => writeState_of_ne s t pc nd hb
  have hpct : (writeState s t pc a nd).pc t = pc := setPc_self _ t pc
  have hpcs : ∀ u, u ≠ t → (writeState s t pc a nd).pc u = s.pc u := fun u hu => setPc_of_ne _ pc hu
  refine threads_step (t := t) h (fun v hv => ⟨hpcs v hv, rfl, fun b hb => ?_,
    fun b _ => writeState_unexpired s t pc nd, ?_, fun _ _ _ _ hh => hh⟩)
    (fun v b hv ho hp => ?_) ⟨?_, ?_, ?_, ?_, ?_⟩ v
  · refine .of_eq (hnode b ?_)
    rintro rfl
    obtain ⟨h1, h2⟩ := w.others v hv
    exact hb.elim h1 h2
  · rintro b p ndp' _ ⟨ndb, hndb, hbp⟩ he hp
    have hpa : p ≠ a := by
      rintro rfl
      exact w.hidden (Or.inr (Or.inr ⟨b, ndb, hndb, Or.inr hbp⟩))
    rw [hnode p hpa] at hp
    exact ⟨(Function.update_of_ne hpa ..).symm.trans he, ndp', hp, fun hn => hn⟩
  · obtain ⟨_, h2⟩ := hp.others t (Ne.symm hv)
    have hba : b ≠ a := by
      rintro rfl
      exact (w.others v hv).1 (Pc.newNode_of_unpublished ho)
    rw [hpct]
    refine ⟨fun hvis => ?_, ?_, fun hs => h2 (w.snapshots b hs), hnode b hba⟩
    · rcases w.visible hvis with hvis | hq
      · exact hp.hidden hvis
      · exact h2 (w.prev b hq).2
    · rw [w.newNode]
      exact fun he => hba (Option.some.inj he).symm
  · intro _
    rw [hpct]
    obtain ⟨i, o, hc, ho⟩ := (h t).op w.busy
    obtain rfl := w.op o ho
    exact ⟨i, _, hc, w.performs _ (writeState_self s t pc a nd)⟩
  · rw [hpct, w.unpublished]
    intro b hb
    cases hb
    refine ⟨fun hvis => ?_, fun u hu => ?_, fun nd' hnd' => ?_⟩
    · rcases w.visible hvis with hvis | hq
      · exact w.hidden hvis
      · exact (w.prev a hq).1 rfl
    · rw [hpcs u hu]
      exact w.others u hu
    · rw [writeState_self] at hnd'
      cases hnd'
      exact w.unlinked
  · rw [hpct, w.newNode]
    intro b hb
    by_cases hba : b = a
    · exact ⟨nd, hba ▸ writeState_self s t pc a nd⟩
    · rw [hnode b hba]
      rcases hb with hb | hb
      · exact absurd (Option.some.inj hb).symm hba
      · exact (h t).allocated b (Or.inr (w.snapshots b hb))
  · rw [hpct, w.newNode]
    intro b hb
    rcases hb with hb | hb
    · rw [← Option.some.inj hb]
      exact Function.update_self ..
    · exact writeState_unexpired s t pc nd ((h t).held b (Or.inr (w.strong b hb)))
  · rw [hpct]
    exact w.knows

theorem Inv.write (h : Inv s L l last) {pc : Pc α β} {a : α} {nd : Node α β}
    (w : Writes s t pc a nd) : Inv (writeState s t pc a nd) L l last := by
  have hnode : ∀ b, b ≠ a → (writeState s t pc a nd).node b = s.node b :=
    fun b hb => writeState_of_ne s t pc nd hb
  have hpct : (writeState s t pc a nd).pc t = pc := setPc_self _ t pc
  have hpcs : ∀ u, u ≠ t → (writeState s t pc a nd).pc u = s.pc u := fun u hu => setPc_of_ne _ pc hu
  have hvis : ∀ b, Visible s b → b ≠ a := by
    rintro b hb rfl
    exact w.hidden hb
  refine ⟨?_, h.legal, h.contents, ?_, ?_, ?_, ?_, ?_, ?_, w.threads h.threads⟩
  · refine h.tracks.congr fun u _ _ _ => ?_
    by_cases hu : u = t
    · rw [hu, hpct, w.after, w.before]
    · rw [hpcs u hu]
      have hstays : ∀ b, b ∈ (s.pc u).snapshots → (writeState s t pc a nd).node b = s.node b := by
        intro b hb
        refine hnode b ?_
        rintro rfl
        exact (w.others u hu).2 hb
      cases hpc : s.pc u with
      | enqStore newNode ltail lprev =>
        rw [retOf, retOf, hstays ltail (by simp [hpc, Pc.snapshots])]
      | deqValue lhead lnext =>
        rw [retOf, retOf, hstays lnext (by simp [hpc, Pc.snapshots])]
      | _ => rfl
  · refine h.chain.frame fun b hb => hnode b (hvis b ?_)
    rcases hb with rfl | ⟨c, ndc, hc, hx⟩
    · exact Or.inl rfl
    · exact Or.inr (Or.inr ⟨c, ndc, hc, Or.inl hx⟩)
  · rcases h.tail with htail | ⟨⟨u, lprev, hu⟩, hnone⟩
    · exact Or.inl htail
    · have htl : (writeState s t pc a nd).node s.tail = s.node s.tail :=
        hnode _ (hvis _ (Or.inr (Or.inl rfl)))
      refine Or.inr ⟨⟨u, lprev, ?_⟩, htl ▸ hnone⟩
      have hut : u ≠ t := by
        rintro rfl
        have hmade := w.made
        rw [hu] at hmade
        rcases hmade with hm | hm
        · cases hm
        · exact hvis s.tail (Or.inr (Or.inl rfl)) (Option.some.inj hm)
      rw [hpcs u hut]
      exact hu
  · intro c hc
    rcases hc with hc | hc | ⟨b, ndb, hb, hc⟩
    · exact writeState_unexpired s t pc nd (h.shared c (Or.inl hc))
    · exact writeState_unexpired s t pc nd (h.shared c (Or.inr (Or.inl hc)))
    · by_cases hba : b = a
      · rw [hba, writeState_self] at hb
        cases hb
        rw [w.unlinked] at hc
        cases hc
      · rw [hnode b hba] at hb
        exact writeState_unexpired s t pc nd (h.shared c (Or.inr (Or.inr ⟨b, ndb, hb, hc⟩)))
  · intro c he
    by_cases hca : c = a
    · exact ⟨nd, hca ▸ writeState_self s t pc a nd⟩
    · rw [hnode c hca]
      exact h.present c ((Function.update_of_ne hca ..).symm.trans he)
  · rintro x p ⟨ndx, hndx, hxp⟩ hp hpub
    have hxa : x ≠ a := by
      rintro rfl
      have := hpub t
      rw [hpct] at this
      exact this w.unpublished
    rw [hnode x hxa] at hndx
    have hpa := hvis p (Or.inr (Or.inr ⟨x, ndx, hndx, Or.inr hxp⟩))
    rw [hnode p hpa] at hp
    have hpub' : ∀ u, (s.pc u).unpublished ≠ some x := by
      intro u hu
      by_cases hut : u = t
      · have hm := Pc.newNode_of_unpublished hu
        rw [hut] at hm
        rcases w.made with hn | hn
        · rw [hm] at hn
          cases hn
        · rw [hm] at hn
          exact hxa (Option.some.inj hn)
      · have := hpub u
        rw [hpcs u hut] at this
        exact this hu
    rcases h.links x p ⟨ndx, hndx, hxp⟩ hp hpub' with ⟨nd', hnd', hnx⟩ | hf
    · exact Or.inl ⟨nd', by rw [hnode p hpa]; exact hnd', hnx⟩
    · exact Or.inr hf
  · have hmine : ∀ u, u ≠ t → ((writeState s t pc a nd).pc u).newNode ≠ some a := by
      intro u hu
      rw [hpcs u hu]
      exact (w.others u hu).1
    intro u v b hu hv
    by_cases hut : u = t
    · by_cases hvt : v = t
      · exact hut.trans hvt.symm
      · rw [hut, hpct, w.newNode] at hu
        exact absurd (hu ▸ hv) (hmine v hvt)
    · by_cases hvt : v = t
      · rw [hvt, hpct, w.newNode] at hv
        exact absurd (hv ▸ hu) (hmine u hut)
      · rw [hpcs u hut] at hu
        rw [hpcs v hvt] at hv
        exact h.makers u v b hu hv

omit [DecidableEq α] in
/-- A shared location refers only to nodes that are there or, a `prev`, to one that has
expired. -/
theorem Inv.visible_free (h : Inv s L l last) {a : α} (ha : s.node a = none)
    (hw : ∀ b nd, s.node b = some nd → nd.prev ≠ some a) : ¬ Visible s a := by
  intro hb
  rcases hb with rfl | rfl | ⟨b, nd, hb, hx | hx⟩
  · obtain ⟨nd, hnd⟩ := h.chain.head
    rw [ha] at hnd
    cases hnd
  · obtain ⟨nd, hnd, _⟩ := h.tail_allocated
    rw [ha] at hnd
    cases hnd
  · obtain ⟨nd', hnd'⟩ := h.closed hb hx
    rw [ha] at hnd'
    cases hnd'
  · exact hw b nd hb hx

/-- `make_shared`: the address is free, so nothing refers to it. -/
theorem Inv.allocate (h : Inv s L l last) {v : β} {a : α} (hpc : s.pc t = .enqNew v)
    (ha : s.node a = none) (hw : ∀ b nd, s.node b = some nd → nd.prev ≠ some a) :
    Inv (((s.setNode a (some ⟨v, none, none⟩)).setExpired a false).setPc t (.enqTail a)) L l last := by
  refine h.write ⟨by rw [hpc]; simp, ?_, fun node hn => ⟨_, hn, rfl⟩, by rw [hpc]; exact fun _ => rfl,
    fun _ => rfl, h.visible_free ha hw, fun u _ => ?_, rfl, by simp, by rw [hpc]; exact Or.inl rfl,
    rfl, rfl, by simp [Pc.snapshots], by simp [Pc.strongSnapshots], trivial⟩
  · rw [hpc]
    exact fun o ho => ho
  · have hno : ¬ ((s.pc u).newNode = some a ∨ a ∈ (s.pc u).snapshots) := by
      intro hu
      obtain ⟨nd, hnd⟩ := (h.threads u).allocated a hu
      rw [ha] at hnd
      cases hnd
    exact ⟨fun h1 => hno (Or.inl h1), fun h2 => hno (Or.inr h2)⟩

/-- `new_node->prev.store(ltail)` -/
theorem Inv.storePrev (h : Inv s L l last) {newNode ltail : α} {nd : Node α β}
    (hpc : s.pc t = .enqPrev newNode ltail) (hnd : s.node newNode = some nd) :
    Inv ((s.setNode newNode (some { nd with prev := some ltail })).setPc t
      (.enqLprev newNode ltail)) L l last := by
  have hp : Private s t newNode := (h.threads t).owned newNode (by rw [hpc]; rfl)
  have hk := (h.threads t).knows
  rw [hpc] at hk
  have he : s.expired newNode = false := (h.threads t).held newNode (Or.inl (by rw [hpc]; rfl))
  have hsame : (s.setNode newNode (some { nd with prev := some ltail })).setPc t
      (.enqLprev newNode ltail) =
        writeState s t (.enqLprev newNode ltail) newNode { nd with prev := some ltail } := by
    simp only [writeState, State.setNode, State.setExpired, State.setPc, ← he, Function.update_eq_self]
  rw [hsame]
  refine h.write ⟨by rw [hpc]; simp, ?_, fun node hn => ⟨_, hn, rfl⟩, by rw [hpc]; exact fun _ => rfl,
    fun _ => rfl, hp.hidden, hp.others, hp.unlinked nd hnd, ?_, by rw [hpc]; exact Or.inr rfl,
    rfl, rfl, ?_, ?_, _, Function.update_self .., rfl⟩
  · rw [hpc]
    intro o hex
    obtain ⟨nd', hnd', ho⟩ := hex
    rw [hnd] at hnd'
    cases hnd'
    exact ho
  · intro q hq
    cases hq
    rw [hpc]
    exact ⟨hk, by simp [Pc.snapshots]⟩
  · rw [hpc]
    exact fun b hb => hb
  · rw [hpc]
    exact fun b hb => hb

end Writes

/-! ## Calls, returns and expiry -/

section Ends
variable {s s' : State α β n} {t : Fin n} {L : List (Entry (Op β) (Ret β))} {l : List (α × β)}
  {last : α}

/-- A call begins. -/
theorem Inv.call (h : Inv s L l last) (hpc : s.pc t = .idle) (o : Op β) :
    Inv { s.setPc t (start o) with calls := s.calls.invoke t o } L l last := by
  have hpcs : ∀ w, w ≠ t → (s.setPc t (start o)).pc w = s.pc w := fun w hw => setPc_of_ne _ _ hw
  have hpct : (s.setPc t (start o)).pc t = start o := setPc_self s t _
  have hstart : (start o : Pc α β).newNode = none ∧ (start o : Pc α β).unpublished = none ∧
      (start o : Pc α β).snapshots = [] ∧ (start o : Pc α β).strongSnapshots = [] := by
    cases o <;> exact ⟨rfl, rfl, rfl, rfl⟩
  have hsame : ∀ w, ((s.setPc t (start o)).pc w).newNode = (s.pc w).newNode ∧
      ((s.setPc t (start o)).pc w).unpublished = (s.pc w).unpublished := by
    intro w
    by_cases hw : w = t
    · rw [hw, hpct, hpc, hstart.1, hstart.2.1]
      exact ⟨rfl, rfl⟩
    · rw [hpcs w hw]
      exact ⟨rfl, rfl⟩
  refine ⟨?_, h.legal, h.contents, h.chain, ?_, h.shared, h.present, ?_, ?_, ?_⟩
  · have hret : retOf s.node (start o) = none := by cases o <;> rfl
    have hinv := h.tracks.invoke t o
    rw [← hret, ← retOf_setPc] at hinv
    exact hinv
  · rcases h.tail with htail | ⟨⟨u, lprev, hu⟩, hnone⟩
    · exact Or.inl htail
    · have hut : u ≠ t := by
        rintro rfl
        rw [hpc] at hu
        cases hu
      exact Or.inr ⟨⟨u, lprev, (hpcs u hut).trans hu⟩, hnone⟩
  · exact fun x p hx hp hpub => h.links x p hx hp fun u => (hsame u).2 ▸ hpub u
  · exact fun u v a hu hv => h.makers u v a ((hsame u).1 ▸ hu) ((hsame v).1 ▸ hv)
  · have hnew : ((s.setPc t (start o)).pc t).newNode = none := by rw [hpct, hstart.1]
    have hsnap : ((s.setPc t (start o)).pc t).snapshots = [] := by rw [hpct, hstart.2.2.1]
    have hstrong : ((s.setPc t (start o)).pc t).strongSnapshots = [] := by rw [hpct, hstart.2.2.2]
    have hop : Performs s.node ((s.setPc t (start o)).pc t) o := by
      rw [hpct]
      cases o <;> rfl
    have hknows : Knows s.node s.expired s.head ((s.setPc t (start o)).pc t) := by
      rw [hpct]
      cases o <;> trivial
    refine threads_step (t := t) h.threads (fun v hv => ?_) (fun v a _ _ hp => ⟨hp.hidden, ?_, ?_, rfl⟩)
      ⟨fun _ => ⟨s.calls.nextId, o, Function.update_self .., hop⟩, fun a ha => ?_, fun a ha => ?_,
        fun a ha => ?_, hknows⟩
    · exact .same (hpcs v hv) (Function.update_of_ne hv ..) rfl rfl fun _ _ _ _ hh => hh
    · intro ha
      cases hnew.symm.trans ha
    · intro ha
      cases (hsnap ▸ ha : a ∈ [])
    · cases hnew.symm.trans (Pc.newNode_of_unpublished ha)
    · rcases ha with ha | ha
      · cases hnew.symm.trans ha
      · cases (hsnap ▸ ha : a ∈ [])
    · rcases ha with ha | ha
      · cases hnew.symm.trans ha
      · cases (hstrong ▸ ha : a ∈ [])

/-- A call that has taken effect returns. -/
theorem Inv.respond (h : Inv s L l last) {r : Ret β} (hret : retOf s.node (s.pc t) = some r)
    (hfree : (s.pc t).newNode = none) : Inv (s.respond t r) L l last := by
  have hbusy : s.pc t ≠ .idle := by
    intro hi
    rw [hi] at hret
    cases hret
  obtain ⟨i, o, hc, _⟩ := (h.threads t).op hbusy
  have hcalls : s.calls.respond t r =
      ⟨s.calls.hist ++ [.res i r], s.calls.nextId, Function.update s.calls.call t none⟩ := by
    simp only [Calls.respond, hc]
  have hpcs : ∀ w, w ≠ t → (s.respond t r).pc w = s.pc w := fun w hw => setPc_of_ne s _ hw
  have hpct : (s.respond t r).pc t = .idle := setPc_self s t _
  have hunp : (s.pc t).unpublished = none := by
    cases hu : (s.pc t).unpublished with
    | none => rfl
    | some a =>
      rw [Pc.newNode_of_unpublished hu] at hfree
      cases hfree
  have hsame : ∀ w, ((s.respond t r).pc w).newNode = (s.pc w).newNode ∧
      ((s.respond t r).pc w).unpublished = (s.pc w).unpublished := by
    intro w
    by_cases hw : w = t
    · rw [hw, hpct, hfree, hunp]
      exact ⟨rfl, rfl⟩
    · rw [hpcs w hw]
      exact ⟨rfl, rfl⟩
  refine ⟨?_, h.legal, h.contents, h.chain, ?_, h.shared, h.present, ?_, ?_, ?_⟩
  · refine (h.tracks.respond hc hret).congr fun u j o' hu => ?_
    have hut : u ≠ t := by
      rintro rfl
      rw [hcalls] at hu
      simp at hu
    rw [hpcs u hut]
    rfl
  · rcases h.tail with htail | ⟨⟨u, lprev, hu⟩, hnone⟩
    · exact Or.inl htail
    · have hut : u ≠ t := by
        rintro rfl
        rw [hu] at hfree
        cases hfree
      exact Or.inr ⟨⟨u, lprev, (hpcs u hut).trans hu⟩, hnone⟩
  · exact fun x p hx hp hpub => h.links x p hx hp fun u => (hsame u).2 ▸ hpub u
  · exact fun u v a hu hv => h.makers u v a ((hsame u).1 ▸ hu) ((hsame v).1 ▸ hv)
  · refine threads_step (t := t) h.threads (fun v hv => ?_) (fun v a _ _ hp => ?_)
      ⟨?_, ?_, ?_, ?_, ?_⟩
    · refine .same (hpcs v hv) ?_ rfl rfl fun _ _ _ _ hh => hh
      change (s.calls.respond t r).call v = _
      rw [hcalls]
      exact Function.update_of_ne hv ..
    · rw [hpct]
      exact ⟨hp.hidden, by simp [Pc.newNode], by simp [Pc.snapshots], rfl⟩
    · rw [hpct]
      exact fun hi => absurd rfl hi
    · rw [hpct]
      intro a ha
      cases ha
    · rw [hpct]
      intro a ha
      simp [Pc.newNode, Pc.snapshots] at ha
    · rw [hpct]
      intro a ha
      simp [Pc.newNode, Pc.strongSnapshots] at ha
    · rw [hpct]
      trivial

variable [DecidableEq α]

/-- A node with strong count zero is referred to by `prev`s only. -/
theorem strong_eq_zero [Fintype α] {a : α} (h : s.strong a = 0) :
    s.head ≠ a ∧ s.tail ≠ a ∧ (∀ b nd, s.node b = some nd → nd.next ≠ some a) ∧
      ∀ t, (s.pc t).newNode ≠ some a := by
  simp only [State.strong, Nat.add_eq_zero_iff, Finset.sum_eq_zero_iff, Finset.mem_univ,
    true_implies, ite_eq_right_iff, Nat.one_ne_zero, imp_false] at h
  obtain ⟨⟨⟨hh, ht⟩, hnx⟩, hpc⟩ := h
  refine ⟨hh, ht, fun b nd hb hc => hnx b ?_, hpc⟩
  rw [hb]
  exact hc

theorem weak_eq_zero [Fintype α] {a : α} (h : s.weak a = 0) :
    ∀ b nd, s.node b = some nd → nd.prev ≠ some a := by
  simp only [State.weak, Finset.sum_eq_zero_iff, Finset.mem_univ, true_implies,
    ite_eq_right_iff, Nat.one_ne_zero, imp_false] at h
  intro b nd hb hc
  refine h b ?_
  rw [hb]
  exact hc

/-- A node to which only `prev`s refer, and of which there is no `snapshot_ptr`, expires. -/
theorem Inv.expire [Fintype α] (h : Inv s L l last) {a : α} (ha : s.strong a = 0)
    (hsnap : ∀ t, a ∉ (s.pc t).strongSnapshots) : Inv (s.setExpired a true) L l last := by
  obtain ⟨hhead, htail, hnexts, hnew⟩ := strong_eq_zero ha
  have hback : ∀ b, (s.setExpired a true).expired b = false → s.expired b = false := by
    intro b hb
    by_cases hba : b = a
    · have htrue : (s.setExpired a true).expired a = true := Function.update_self ..
      rw [hba, htrue] at hb
      cases hb
    · exact (Function.update_of_ne hba ..).symm.trans hb
  have hkeep : ∀ b, b ≠ a → s.expired b = false → (s.setExpired a true).expired b = false :=
    fun b hba hb => (Function.update_of_ne hba ..).trans hb
  refine ⟨h.tracks, h.legal, h.contents, h.chain, h.tail, fun c hc => hkeep c ?_ (h.shared c hc),
    fun c he => h.present c (hback c he), h.links, h.makers, fun w => ?_⟩
  · rintro rfl
    rcases hc with hc | hc | ⟨b, nd, hb, hc⟩
    · exact hhead hc
    · exact htail hc
    · exact hnexts b nd hb hc
  · refine (h.threads w).frame ⟨rfl, rfl, fun _ _ => .of_eq rfl, fun b hb => hkeep b ?_,
      fun _ p nd _ _ he hp => ⟨hback p he, nd, hp, fun hn => hn⟩, fun _ _ _ _ hh => hh⟩
      fun _ _ hp => ⟨hp.hidden, hp.others, hp.unlinked⟩
    rintro rfl
    exact hb.elim (hnew w) (hsnap w)

/-- A node that has expired, and of which there is no snapshot, is disposed of. -/
theorem Inv.dispose (h : Inv s L l last) {a : α} (ha : s.expired a = true)
    (hsnap : ∀ t, a ∉ (s.pc t).snapshots) : Inv (s.setNode a none) L l last := by
  have hne : ∀ b, s.expired b = false → b ≠ a := by
    rintro b hb rfl
    rw [ha] at hb
    cases hb
  have hnode : ∀ b, b ≠ a → (s.setNode a none).node b = s.node b :=
    fun b hb => Function.update_of_ne hb _ _
  have hsome : ∀ b nd, (s.setNode a none).node b = some nd → b ≠ a ∧ s.node b = some nd := by
    intro b nd hb
    by_cases hba : b = a
    · have hnone : (s.setNode a none).node a = none := Function.update_self ..
      rw [hba, hnone] at hb
      cases hb
    · exact ⟨hba, hnode b hba ▸ hb⟩
  have hused : ∀ w b, (s.pc w).newNode = some b ∨ b ∈ (s.pc w).snapshots → b ≠ a := by
    intro w b hb
    rcases hb with hb | hb
    · exact hne b ((h.threads w).held b (Or.inl hb))
    · rintro rfl
      exact hsnap w hb
  have hchain : ∀ b, InChain s.node s.head b → b ≠ a := by
    intro b hb
    rcases hb with rfl | ⟨c, nd, hc, hx⟩
    · exact hne _ (h.shared _ (Or.inl rfl))
    · exact hne b (h.shared b (Or.inr (Or.inr ⟨c, nd, hc, hx⟩)))
  refine ⟨?_, h.legal, h.contents, h.chain.frame fun b hb => hnode b (hchain b hb), ?_, ?_, ?_, ?_,
    h.makers, fun w => ?_⟩
  · refine h.tracks.congr fun u _ _ _ => ?_
    change retOf (s.setNode a none).node (s.pc u) = _
    cases hpc : s.pc u with
    | enqStore newNode ltail lprev =>
      rw [retOf, retOf, hnode ltail (hused u ltail (by simp [hpc, Pc.snapshots]))]
    | deqValue lhead lnext =>
      rw [retOf, retOf, hnode lnext (hused u lnext (by simp [hpc, Pc.snapshots]))]
    | _ => rfl
  · rcases h.tail with ht | ⟨hu, hnone⟩
    · exact Or.inl ht
    · have htail := hne s.tail (h.shared s.tail (Or.inr (Or.inl rfl)))
      exact Or.inr ⟨hu, (hnode s.tail htail).symm ▸ hnone⟩
  · intro c hc
    rcases hc with hc | hc | ⟨b, nd, hb, hc⟩
    · exact h.shared c (Or.inl hc)
    · exact h.shared c (Or.inr (Or.inl hc))
    · exact h.shared c (Or.inr (Or.inr ⟨b, nd, (hsome b nd hb).2, hc⟩))
  · intro c he
    rw [hnode c (hne c he)]
    exact h.present c he
  · rintro x p ⟨ndx, hndx, hxp⟩ ⟨ndp, hndp⟩ hpub
    obtain ⟨_, hndx⟩ := hsome x ndx hndx
    obtain ⟨hpa, hndp⟩ := hsome p ndp hndp
    rcases h.links x p ⟨ndx, hndx, hxp⟩ ⟨ndp, hndp⟩ hpub with ⟨nd, hnd, hnx⟩ | hf
    · exact Or.inl ⟨nd, by rw [hnode p hpa]; exact hnd, hnx⟩
    · exact Or.inr hf
  · refine (h.threads w).frame ⟨rfl, rfl, fun b hb => .of_eq (hnode b (hused w b hb)),
      fun _ _ he => he, ?_, fun _ _ _ _ hh => hh⟩ fun b _ hp => ⟨?_, hp.others, ?_⟩
    · intro b p nd _ _ he hp
      exact ⟨he, nd, (hsome p nd hp).2, fun hn => hn⟩
    · intro hh
      rcases hh with hh | hh | ⟨c, nd, hc, hx⟩
      · exact hp.hidden (Or.inl hh)
      · exact hp.hidden (Or.inr (Or.inl hh))
      · exact hp.hidden (Or.inr (Or.inr ⟨c, nd, (hsome c nd hc).2, hx⟩))
    · exact fun nd hnd => hp.unlinked nd (hsome b nd hnd).2

end Ends

end Cdrc.AtomicQueue
