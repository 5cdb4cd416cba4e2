import Cdrc.AtomicQueue.Code

/-! # The invariant of `weak_ptr_queue::atomic_queue`

The nodes from `head` along `next` are a sentinel and the queue (`Chain`). At most one node
is in `tail` and not yet linked (`Pending`): an `enqueue` changes `tail` only after it has
linked the node it found there, or has found that link made, or has found that the node
before has expired, which it does only after `head` went over the link. The node before is not
expired as long as the call that is to make the link has a snapshot of it. -/
namespace Cdrc.AtomicQueue
open Cdrc.Lib.Objects Cdrc.Lib.History

variable {α β : Type} {n : Nat}

/-! ## The sequential queue -/

/-- The values enqueued by the calls of an order. -/
def enqueued (L : List (Entry (Op β) (Ret β))) : List β :=
  L.filterMap fun e =>
    match e.op with
    | .enqueue t => some t
    | .dequeue => none

/-- The values dequeued by the calls of an order. -/
def dequeued (L : List (Entry (Op β) (Ret β))) : List β :=
  L.filterMap fun e =>
    match e.op, e.ret with
    | .dequeue, .value t => t
    | _, _ => none

theorem queue_fifo_from {vs : List β} {L : List (Entry (Op β) (Ret β))}
    (h : (queue β).Exact vs L) : vs ++ enqueued L = dequeued L ++ (queue β).after vs L := by
  induction L generalizing vs with
  | nil => simp [enqueued, dequeued, Seq.after]
  | cons e L ih =>
    obtain ⟨i, o, r⟩ := e
    obtain ⟨hr, hL⟩ := h
    have hrest := ih hL
    cases o with
    | enqueue t =>
      simpa [enqueued, dequeued, Seq.after, queue] using hrest
    | dequeue =>
      cases vs with
      | nil =>
        obtain rfl : r = .value none := hr
        simpa [enqueued, dequeued, Seq.after, queue] using hrest
      | cons x vs =>
        obtain rfl : r = .value (some x) := hr
        simpa [enqueued, dequeued, Seq.after, queue] using hrest

/-- Every value leaves at most once, in the order in which they came. -/
theorem queue_fifo {L : List (Entry (Op β) (Ret β))} (h : (queue β).Legal L) :
    enqueued L = dequeued L ++ (queue β).after [] L :=
  queue_fifo_from h

/-! ## The chain from `head` -/

/-- The nodes after `h`, with their values, up to `last`, whose `next` is null. -/
def Chain (node : α → Option (Node α β)) : α → List (α × β) → α → Prop
  | h, [], last => h = last ∧ ∃ nd, node h = some nd ∧ nd.next = none
  | h, (a, v) :: l, last => (∃ nd, node h = some nd ∧ nd.next = some a) ∧
      (∃ nd, node a = some nd ∧ nd.t = v) ∧ Chain node a l last

section Chain
variable {node node' : α → Option (Node α β)} {h last : α} {l : List (α × β)}

theorem Chain.ends (hc : Chain node h l last) : ∃ nd, node last = some nd ∧ nd.next = none := by
  induction l generalizing h with
  | nil =>
    obtain ⟨rfl, hnd⟩ := hc
    exact hnd
  | cons x l ih => exact ih hc.2.2

theorem Chain.head (hc : Chain node h l last) : ∃ nd, node h = some nd := by
  cases l with
  | nil =>
    obtain ⟨_, nd, hnd, _⟩ := hc
    exact ⟨nd, hnd⟩
  | cons x l =>
    obtain ⟨⟨nd, hnd, _⟩, _⟩ := hc
    exact ⟨nd, hnd⟩

/-- The nodes of the chain: the first, and those that a node of it refers to. -/
def InChain (node : α → Option (Node α β)) (h a : α) : Prop :=
  a = h ∨ ∃ b nd, node b = some nd ∧ nd.next = some a

/-- A chain depends on no node that nothing refers to. -/
theorem Chain.frame (hc : Chain node h l last) (hn : ∀ a, InChain node h a → node' a = node a) :
    Chain node' h l last := by
  induction l generalizing h with
  | nil =>
    obtain ⟨rfl, hnd⟩ := hc
    exact ⟨rfl, by rwa [hn h (Or.inl rfl)]⟩
  | cons x l ih =>
    obtain ⟨a, v⟩ := x
    obtain ⟨⟨nd, hnd, hnx⟩, hv, hl⟩ := hc
    have ha : InChain node h a := Or.inr ⟨h, nd, hnd, hnx⟩
    refine ⟨⟨nd, by rw [hn h (Or.inl rfl), hnd], hnx⟩, by rwa [hn a ha], ih hl fun b hb => hn b ?_⟩
    rcases hb with rfl | hb
    · exact ha
    · exact Or.inr hb

/-- The node that is linked after the last. -/
theorem Chain.snoc (hc : Chain node h l last) {x : α} {v : β} (hx : x ≠ last)
    (hn : ∀ a, a ≠ last → node' a = node a)
    (hlast : ∃ nd nd', node last = some nd ∧ node' last = some nd' ∧ nd'.t = nd.t ∧
      nd'.next = some x)
    (hnx : ∃ nd, node x = some nd ∧ nd.t = v ∧ nd.next = none) :
    Chain node' h (l ++ [(x, v)]) x := by
  obtain ⟨nd, nd', hnd, hnd', ht, hnext⟩ := hlast
  induction l generalizing h with
  | nil =>
    obtain ⟨rfl, _⟩ := hc
    obtain ⟨ndx, hndx, hv, hnone⟩ := hnx
    have hx' := hn x hx
    exact ⟨⟨nd', hnd', hnext⟩, ⟨ndx, hx' ▸ hndx, hv⟩, rfl, ndx, hx' ▸ hndx, hnone⟩
  | cons y l ih =>
    obtain ⟨a, w⟩ := y
    obtain ⟨⟨ndh, hndh, hnxh⟩, ⟨nda, hnda, hw⟩, hl⟩ := hc
    have hh : h ≠ last := by
      rintro rfl
      obtain ⟨nd₂, hnd₂, hnone⟩ := hl.ends
      rw [hndh] at hnd₂
      cases hnd₂
      rw [hnone] at hnxh
      cases hnxh
    refine ⟨⟨ndh, by rw [hn h hh, hndh], hnxh⟩, ?_, ih hl⟩
    by_cases ha : a = last
    · subst ha
      rw [hnd] at hnda
      cases hnda
      exact ⟨nd', hnd', ht.trans hw⟩
    · exact ⟨nda, by rw [hn a ha, hnda], hw⟩

end Chain

/-! ## The invariant -/

/-- The node that the call has made and not yet published. -/
def Pc.unpublished : Pc α β → Option α
  | .enqTail newNode => some newNode
  | .enqPrev newNode _ => some newNode
  | .enqLprev newNode _ => some newNode
  | .enqCheck newNode _ _ => some newNode
  | .enqHelp newNode _ _ => some newNode
  | .enqCas newNode _ _ => some newNode
  | _ => none

/-- An `atomic_rc_ptr` refers to `a`. -/
def Shared (s : State α β n) (a : α) : Prop :=
  s.head = a ∨ s.tail = a ∨ ∃ b nd, s.node b = some nd ∧ nd.next = some a

/-- A shared location refers to `a`. -/
def Visible (s : State α β n) (a : α) : Prop :=
  s.head = a ∨ s.tail = a ∨ ∃ b nd, s.node b = some nd ∧ (nd.next = some a ∨ nd.prev = some a)

/-- Nobody but thread `t` can reach the node at `a`. -/
structure Private (s : State α β n) (t : Fin n) (a : α) : Prop where
  hidden : ¬ Visible s a
  others : ∀ u, u ≠ t → (s.pc u).newNode ≠ some a ∧ a ∉ (s.pc u).snapshots
  unlinked : ∀ nd, s.node a = some nd → nd.next = none

/-- The operation that a call at this point performs. -/
def Performs (node : α → Option (Node α β)) (pc : Pc α β) (o : Op β) : Prop :=
  match pc with
  | .idle => False
  | .enqNew v => o = .enqueue v
  | .enqTail newNode => ∃ nd, node newNode = some nd ∧ o = .enqueue nd.t
  | .enqPrev newNode _ => ∃ nd, node newNode = some nd ∧ o = .enqueue nd.t
  | .enqLprev newNode _ => ∃ nd, node newNode = some nd ∧ o = .enqueue nd.t
  | .enqCheck newNode _ _ => ∃ nd, node newNode = some nd ∧ o = .enqueue nd.t
  | .enqHelp newNode _ _ => ∃ nd, node newNode = some nd ∧ o = .enqueue nd.t
  | .enqCas newNode _ _ => ∃ nd, node newNode = some nd ∧ o = .enqueue nd.t
  | .enqStore newNode _ _ => ∃ nd, node newNode = some nd ∧ o = .enqueue nd.t
  | .enqueued => ∃ v, o = .enqueue v
  | _ => o = .dequeue

/-- The response of a call that has taken effect. -/
def retOf (node : α → Option (Node α β)) (pc : Pc α β) : Option (Ret β) :=
  match pc with
  | .enqStore _ ltail _ => ((node ltail).bind Node.next).map fun _ => .enqueued
  | .enqueued => some .enqueued
  | .deqValue _ lnext => (node lnext).map fun nd => .value (some nd.t)
  | .ret r => some (.value r)
  | _ => none

def PrevIs (node : α → Option (Node α β)) (a p : α) : Prop :=
  ∃ nd, node a = some nd ∧ nd.prev = some p

/-- The node before `a` is linked, or has expired. -/
def Helped (node : α → Option (Node α β)) (expired : α → Bool) (a : α) : Prop :=
  ∀ nd p ndp, node a = some nd → nd.prev = some p → expired p = false → node p = some ndp →
    ndp.next ≠ none

/-- What a call knows of its snapshots. -/
def Knows (node : α → Option (Node α β)) (expired : α → Bool) (head : α) (pc : Pc α β) : Prop :=
  match pc with
  | .enqPrev newNode ltail => ltail ≠ newNode
  | .enqLprev newNode ltail => PrevIs node newNode ltail
  | .enqCheck newNode ltail lprev => PrevIs node newNode ltail ∧ PrevIs node ltail lprev
  | .enqHelp newNode ltail lprev => PrevIs node newNode ltail ∧ PrevIs node ltail lprev
  | .enqCas newNode ltail _ => PrevIs node newNode ltail ∧ Helped node expired ltail
  | .enqStore newNode ltail _ => PrevIs node newNode ltail
  | .deqNext lhead => ∀ nd, node lhead = some nd → nd.next = none → head = lhead
  | .deqCas lhead lnext => ∃ nd, node lhead = some nd ∧ nd.next = some lnext
  | _ => True

structure ThreadInv (s : State α β n) (t : Fin n) : Prop where
  op : s.pc t ≠ .idle → ∃ i o, s.calls.call t = some (i, o) ∧ Performs s.node (s.pc t) o
  owned : ∀ a, (s.pc t).unpublished = some a → Private s t a
  allocated : ∀ a, (s.pc t).newNode = some a ∨ a ∈ (s.pc t).snapshots → ∃ nd, s.node a = some nd
  held : ∀ a, (s.pc t).newNode = some a ∨ a ∈ (s.pc t).strongSnapshots → s.expired a = false
  knows : Knows s.node s.expired s.head (s.pc t)

/-- `tail` has a node that is not linked, and its `enqueue` is about to link it. -/
def Pending (s : State α β n) (last : α) : Prop :=
  (∃ t lprev, s.pc t = .enqStore s.tail last lprev) ∧ ∃ nd, s.node s.tail = some nd ∧ nd.next = none

/-- The node `x` comes right after `p`, and is linked or is the one that is not yet. -/
def Follows (s : State α β n) (last p x : α) : Prop :=
  (∃ nd, s.node p = some nd ∧ nd.next = some x) ∨ (p = last ∧ x = s.tail ∧ p ≠ x)

structure Inv (s : State α β n) (L : List (Entry (Op β) (Ret β))) (l : List (α × β)) (last : α) :
    Prop where
  tracks : Tracks s.calls L fun t => retOf s.node (s.pc t)
  legal : (queue β).Legal L
  contents : (queue β).after [] L = l.map Prod.snd
  chain : Chain s.node s.head l last
  tail : s.tail = last ∨ Pending s last
  shared : ∀ a, Shared s a → s.expired a = false
  present : ∀ a, s.expired a = false → ∃ nd, s.node a = some nd
  links : ∀ x p, PrevIs s.node x p → (∃ nd, s.node p = some nd) →
    (∀ t, (s.pc t).unpublished ≠ some x) → Follows s last p x
  makers : ∀ t u a, (s.pc t).newNode = some a → (s.pc u).newNode = some a → t = u
  threads : ∀ t, ThreadInv s t

section Frames
variable {s s' : State α β n} {t u : Fin n} {node node' : α → Option (Node α β)}

/-- The node at `a` is still there. Its `next` may have been linked. -/
def Stays (node node' : α → Option (Node α β)) (a : α) : Prop :=
  ∀ nd, node a = some nd → ∃ nd', node' a = some nd' ∧ nd'.t = nd.t ∧ nd'.prev = nd.prev ∧
    ∀ c, nd.next = some c → nd'.next = some c

theorem Stays.of_eq {a : α} (h : node' a = node a) : Stays node node' a :=
  fun nd hnd => ⟨nd, h ▸ hnd, rfl, rfl, fun _ hc => hc⟩

theorem Stays.prevIs {a p : α} (h : Stays node node' a) (hp : PrevIs node a p) :
    PrevIs node' a p := by
  obtain ⟨nd, hnd, hp⟩ := hp
  obtain ⟨nd', hnd', _, hprev, _⟩ := h nd hnd
  exact ⟨nd', hnd', hprev.trans hp⟩

theorem performs_frame {pc : Pc α β} {o : Op β}
    (hn : ∀ a, pc.newNode = some a → Stays node node' a) (h : Performs node pc o) :
    Performs node' pc o := by
  have key : ∀ a, pc.newNode = some a → (∃ nd, node a = some nd ∧ o = .enqueue nd.t) →
      ∃ nd, node' a = some nd ∧ o = .enqueue nd.t := by
    intro a ha hex
    obtain ⟨nd, hnd, ho⟩ := hex
    obtain ⟨nd', hnd', ht, _⟩ := hn a ha nd hnd
    exact ⟨nd', hnd', ho.trans (by rw [ht])⟩
  cases pc with
  | enqTail newNode => exact key newNode rfl h
  | enqPrev newNode _ => exact key newNode rfl h
  | enqLprev newNode _ => exact key newNode rfl h
  | enqCheck newNode _ _ => exact key newNode rfl h
  | enqHelp newNode _ _ => exact key newNode rfl h
  | enqCas newNode _ _ => exact key newNode rfl h
  | enqStore newNode _ _ => exact key newNode rfl h
  | _ => exact h

/-- What a step leaves alone for a thread that does not take it. -/
structure Frame (s s' : State α β n) (u : Fin n) : Prop where
  pc : s'.pc u = s.pc u
  call : s'.calls.call u = s.calls.call u
  stays : ∀ a, (s.pc u).newNode = some a ∨ a ∈ (s.pc u).snapshots → Stays s.node s'.node a
  held : ∀ a, (s.pc u).newNode = some a ∨ a ∈ (s.pc u).strongSnapshots → s.expired a = false →
    s'.expired a = false
  before : ∀ a p nd', a ∈ (s.pc u).snapshots → PrevIs s.node a p → s'.expired p = false →
    s'.node p = some nd' →
    s.expired p = false ∧ ∃ nd, s.node p = some nd ∧ (nd.next ≠ none → nd'.next ≠ none)
  head : ∀ a nd, s.node a = some nd → nd.next = none → s.head = a → s'.head = a

/-- Only `head` and `tail` change, and where other threads are. -/
theorem Frame.same (hpc : s'.pc u = s.pc u) (hcall : s'.calls.call u = s.calls.call u)
    (hnode : s'.node = s.node) (hexp : s'.expired = s.expired)
    (hhead : ∀ a nd, s.node a = some nd → nd.next = none → s.head = a → s'.head = a) :
    Frame s s' u := by
  refine ⟨hpc, hcall, fun a _ => .of_eq (by rw [hnode]), fun a _ he => ?_, fun a p nd _ _ he hnd => ?_,
    hhead⟩
  · rw [hexp]
    exact he
  · rw [hexp] at he
    rw [hnode] at hnd
    exact ⟨he, nd, hnd, id⟩

theorem Frame.helped (f : Frame s s' u) {a : α} (ha : a ∈ (s.pc u).snapshots)
    (halloc : ∃ nd, s.node a = some nd) (h : Helped s.node s.expired a) :
    Helped s'.node s'.expired a := by
  intro nd' p ndp' hnd' hp he hndp'
  obtain ⟨nd, hnd⟩ := halloc
  obtain ⟨nd₂, hnd₂, _, hprev, _⟩ := f.stays a (Or.inr ha) nd hnd
  rw [hnd'] at hnd₂
  cases hnd₂
  rw [hprev] at hp
  obtain ⟨he, ndp, hndp, hkeep⟩ := f.before a p ndp' ha ⟨nd, hnd, hp⟩ he hndp'
  exact hkeep (h nd p ndp hnd hp he hndp)

theorem Frame.knows (f : Frame s s' u) (h : ThreadInv s u) :
    Knows s'.node s'.expired s'.head (s.pc u) := by
  have hk := h.knows
  have hst := f.stays
  have hal := h.allocated
  have hhelp : ∀ a, a ∈ (s.pc u).snapshots → Helped s.node s.expired a →
      Helped s'.node s'.expired a :=
    fun a ha hh => f.helped ha (hal a (Or.inr ha)) hh
  cases hpc : s.pc u with
  | enqLprev newNode ltail =>
    rw [hpc] at hk hst
    exact (hst newNode (Or.inl rfl)).prevIs hk
  | enqCheck newNode ltail lprev =>
    rw [hpc] at hk hst
    exact ⟨(hst newNode (Or.inl rfl)).prevIs hk.1, (hst ltail (Or.inr (by simp [Pc.snapshots]))).prevIs hk.2⟩
  | enqHelp newNode ltail lprev =>
    rw [hpc] at hk hst
    exact ⟨(hst newNode (Or.inl rfl)).prevIs hk.1, (hst ltail (Or.inr (by simp [Pc.snapshots]))).prevIs hk.2⟩
  | enqCas newNode ltail lprev =>
    rw [hpc] at hk hst hhelp
    exact ⟨(hst newNode (Or.inl rfl)).prevIs hk.1, hhelp ltail (by simp [Pc.snapshots]) hk.2⟩
  | enqStore newNode ltail lprev =>
    rw [hpc] at hk hst
    exact (hst newNode (Or.inl rfl)).prevIs hk
  | deqNext lhead =>
    rw [hpc] at hk hst hal
    intro nd' hnd' hnone
    have hm : lhead ∈ (Pc.deqNext lhead : Pc α β).snapshots := by simp [Pc.snapshots]
    obtain ⟨nd, hnd⟩ := hal lhead (Or.inr hm)
    obtain ⟨nd₂, hnd₂, _, _, hnx⟩ := hst lhead (Or.inr hm) nd hnd
    rw [hnd'] at hnd₂
    cases hnd₂
    have hnone' : nd.next = none := by
      cases hc : nd.next with
      | none => rfl
      | some c =>
        rw [hnx c hc] at hnone
        cases hnone
    exact f.head lhead nd hnd hnone' (hk nd hnd hnone')
  | deqCas lhead lnext =>
    rw [hpc] at hk hst
    obtain ⟨nd, hnd, hnx⟩ := hk
    obtain ⟨nd', hnd', _, _, hkeep⟩ := hst lhead (Or.inr (by simp [Pc.snapshots])) nd hnd
    exact ⟨nd', hnd', hkeep lnext hnx⟩
  | enqPrev newNode ltail =>
    rw [hpc] at hk
    exact hk
  | _ => trivial

theorem ThreadInv.frame (h : ThreadInv s u) (f : Frame s s' u)
    (hp : ∀ a, (s.pc u).unpublished = some a → Private s u a → Private s' u a) :
    ThreadInv s' u where
  op := by
    rw [f.pc, f.call]
    intro hi
    obtain ⟨i, o, hc, ho⟩ := h.op hi
    exact ⟨i, o, hc, performs_frame (fun a ha => f.stays a (Or.inl ha)) ho⟩
  owned := by
    rw [f.pc]
    exact fun a ha => hp a ha (h.owned a ha)
  allocated := by
    rw [f.pc]
    intro a ha
    obtain ⟨nd, hnd⟩ := h.allocated a ha
    obtain ⟨nd', hnd', _⟩ := f.stays a ha nd hnd
    exact ⟨nd', hnd'⟩
  held := by
    rw [f.pc]
    exact fun a ha => f.held a ha (h.held a ha)
  knows := by
    rw [f.pc]
    exact f.knows h

/-- A step of thread `t`: the others keep their part when it leaves alone what they use
and shows no private node of theirs. -/
theorem threads_step (h : ∀ v, ThreadInv s v) (hf : ∀ v, v ≠ t → Frame s s' v)
    (hsafe : ∀ v a, v ≠ t → (s.pc v).unpublished = some a → Private s v a → ¬ Visible s' a ∧
      (s'.pc t).newNode ≠ some a ∧ a ∉ (s'.pc t).snapshots ∧ s'.node a = s.node a)
    (ht : ThreadInv s' t) (v : Fin n) : ThreadInv s' v := by
  by_cases hv : v = t
  · rw [hv]
    exact ht
  · refine (h v).frame (hf v hv) fun a ho hp => ?_
    obtain ⟨hh, hnew, hsnap, hnode⟩ := hsafe v a hv ho hp
    refine ⟨hh, fun w hw => ?_, by rw [hnode]; exact hp.unlinked⟩
    by_cases hwt : w = t
    · rw [hwt]
      exact ⟨hnew, hsnap⟩
    · rw [(hf w hwt).pc]
      exact hp.others w hw

@[simp] theorem setPc_self (s : State α β n) (t : Fin n) (pc : Pc α β) :
    (s.setPc t pc).pc t = pc := by
  simp [State.setPc]

theorem setPc_of_ne (s : State α β n) (pc : Pc α β) (h : u ≠ t) :
    (s.setPc t pc).pc u = s.pc u := by
  simp [State.setPc, Function.update_of_ne h]

theorem Pc.newNode_of_unpublished {pc : Pc α β} {a : α} (h : pc.unpublished = some a) :
    pc.newNode = some a := by
  cases pc <;> first | exact h | cases h

end Frames

/-! ## Steps that change no location -/

section Steps
variable {s s' : State α β n} {t : Fin n} {L : List (Entry (Op β) (Ret β))} {l : List (α × β)}
  {last : α}

/-- What an `atomic_rc_ptr` in a node refers to is there. -/
theorem Inv.closed (h : Inv s L l last) {b c : α} {nd : Node α β} (hb : s.node b = some nd)
    (hc : nd.next = some c) : ∃ nd', s.node c = some nd' :=
  h.present c (h.shared c (Or.inr (Or.inr ⟨b, nd, hb, hc⟩)))

theorem Inv.tail_allocated (h : Inv s L l last) : ∃ nd, s.node s.tail = some nd ∧ nd.next = none := by
  rcases h.tail with htail | hp
  · rw [htail]
    exact h.chain.ends
  · exact hp.2

/-- What a thread may do on its own: it goes on with the same operation and the same node,
and its new snapshots are of nodes that a shared location refers to. -/
structure Goes (s : State α β n) (t : Fin n) (pc : Pc α β) : Prop where
  op : ∀ o, Performs s.node (s.pc t) o → Performs s.node pc o
  busy : s.pc t ≠ .idle
  newNode : ∀ a, pc.newNode = some a → (s.pc t).newNode = some a
  unpublished : pc.unpublished = (s.pc t).unpublished
  snapshots : ∀ a ∈ pc.snapshots, (∃ nd, s.node a = some nd) ∧
    (a ∈ (s.pc t).snapshots ∨ Visible s a)
  strong : ∀ a ∈ pc.strongSnapshots, s.expired a = false
  knows : Knows s.node s.expired s.head pc
  stored : ∀ newNode ltail lprev, s.pc t = .enqStore newNode ltail lprev →
    ∃ nd, s.node ltail = some nd ∧ nd.next ≠ none

theorem Inv.goes_threads (h : Inv s L l last) {pc : Pc α β} (g : Goes s t pc) (v : Fin n) :
    ThreadInv (s.setPc t pc) v := by
  refine threads_step (t := t) h.threads (fun v hv => ?_) (fun v a hv _ hp => ?_)
    ⟨?_, ?_, ?_, ?_, ?_⟩ v
  · exact .same (setPc_of_ne s pc hv) rfl rfl rfl fun _ _ _ _ hh => hh
  · rw [setPc_self]
    obtain ⟨h1, h2⟩ := hp.others t (Ne.symm hv)
    refine ⟨hp.hidden, fun hn => h1 (g.newNode a hn), fun hs => ?_, rfl⟩
    rcases (g.snapshots a hs).2 with hs | hs
    · exact h2 hs
    · exact hp.hidden hs
  · intro _
    rw [setPc_self]
    obtain ⟨i, o, hc, ho⟩ := (h.threads t).op g.busy
    exact ⟨i, o, hc, g.op o ho⟩
  · rw [setPc_self]
    intro a ha
    have hp := (h.threads t).owned a (g.unpublished ▸ ha)
    exact ⟨hp.hidden, fun w hw => by rw [setPc_of_ne s pc hw]; exact hp.others w hw, hp.unlinked⟩
  · rw [setPc_self]
    intro a ha
    rcases ha with ha | ha
    · exact (h.threads t).allocated a (Or.inl (g.newNode a ha))
    · exact (g.snapshots a ha).1
  · rw [setPc_self]
    intro a ha
    rcases ha with ha | ha
    · exact (h.threads t).held a (Or.inl (g.newNode a ha))
    · exact g.strong a ha
  · rw [setPc_self]
    exact g.knows

/-- The links and makers do not depend on where a thread is. -/
theorem Inv.goes_shared (h : Inv s L l last) {pc : Pc α β} (g : Goes s t pc) :
    (s.tail = last ∨ Pending (s.setPc t pc) last) ∧
    (∀ x p, PrevIs s.node x p → (∃ nd, s.node p = some nd) →
      (∀ u, ((s.setPc t pc).pc u).unpublished ≠ some x) → Follows (s.setPc t pc) last p x) ∧
    ∀ u v a, ((s.setPc t pc).pc u).newNode = some a → ((s.setPc t pc).pc v).newNode = some a →
      u = v := by
  have hnew : ∀ u a, ((s.setPc t pc).pc u).newNode = some a → (s.pc u).newNode = some a := by
    intro u a ha
    by_cases hu : u = t
    · subst hu
      rw [setPc_self] at ha
      exact g.newNode a ha
    · rwa [setPc_of_ne s pc hu] at ha
  have hunp : ∀ u, ((s.setPc t pc).pc u).unpublished = (s.pc u).unpublished := by
    intro u
    by_cases hu : u = t
    · subst hu
      rw [setPc_self, g.unpublished]
    · rw [setPc_of_ne s pc hu]
  refine ⟨?_, fun x p hx hp hu => ?_, fun u v a hu hv => h.makers u v a (hnew u a hu) (hnew v a hv)⟩
  · rcases h.tail with htail | ⟨⟨u, lprev, hpc⟩, hnone⟩
    · exact Or.inl htail
    · refine Or.inr ⟨⟨u, lprev, ?_⟩, hnone⟩
      -- the call that is about to link the last node cannot leave before it has done so
      have hut : u ≠ t := by
        rintro rfl
        obtain ⟨nd, hnd, hne⟩ := g.stored _ _ _ hpc
        obtain ⟨nd', hnd', hnx⟩ := h.chain.ends
        rw [hnd] at hnd'
        cases hnd'
        exact hne hnx
      rw [setPc_of_ne s pc hut]
      exact hpc
  · exact h.links x p hx hp fun u => hunp u ▸ hu u

variable (s) in
theorem retOf_setPc (pc : Pc α β) :
    (fun v => retOf (s.setPc t pc).node ((s.setPc t pc).pc v)) =
      Function.update (fun v => retOf s.node (s.pc v)) t (retOf s.node pc) := by
  funext v
  by_cases hv : v = t
  · rw [hv, Function.update_self, setPc_self]
    rfl
  · rw [Function.update_of_ne hv, setPc_of_ne s pc hv]
    rfl

/-- A step that changes nothing but the point the call has reached. -/
theorem Inv.goes (h : Inv s L l last) {pc : Pc α β} (g : Goes s t pc)
    (hret : retOf s.node pc = retOf s.node (s.pc t)) : Inv (s.setPc t pc) L l last := by
  obtain ⟨htail, hlinks, hmakers⟩ := h.goes_shared g
  refine ⟨?_, h.legal, h.contents, h.chain, htail, h.shared, h.present, hlinks,
    hmakers, h.goes_threads g⟩
  rw [retOf_setPc s pc]
  refine h.tracks.congr fun u _ _ _ => ?_
  by_cases hu : u = t
  · rw [hu, Function.update_self]
    exact hret
  · rw [Function.update_of_ne hu]

/-- The order in which a running call has taken effect, last. -/
theorem Inv.order_commit (h : Inv s L l last) {i : Nat} {o : Op β} {r : Ret β} {vs : List β}
    (happ : (queue β).apply (l.map Prod.snd) o = (vs, r)) :
    (queue β).Legal (L ++ [⟨i, o, r⟩]) ∧ (queue β).after [] (L ++ [⟨i, o, r⟩]) = vs := by
  have hc : (queue β).after (queue β).init L = l.map Prod.snd := h.contents
  refine ⟨Seq.exact_append.mpr ⟨h.legal, ?_, trivial⟩, ?_⟩
  · rw [hc, happ]
  · rw [Seq.after_append, h.contents]
    change ((queue β).apply (l.map Prod.snd) o).1 = _
    rw [happ]

/-- `dequeue` finds a null `next`: it takes effect on the empty queue. -/
theorem Inv.empty (h : Inv s L l last) {lhead : α} {nd : Node α β} (hpc : s.pc t = .deqNext lhead)
    (hnd : s.node lhead = some nd) (hnone : nd.next = none) :
    ∃ L', Inv (s.setPc t (.ret none)) L' l last := by
  have hk := (h.threads t).knows
  rw [hpc] at hk
  have hhead : s.head = lhead := hk nd hnd hnone
  have hl : l = [] := by
    have hc := h.chain
    cases l with
    | nil => rfl
    | cons x l =>
      obtain ⟨⟨nd', hnd', hnx⟩, _⟩ := hc
      rw [hhead, hnd] at hnd'
      cases hnd'
      rw [hnone] at hnx
      cases hnx
  subst hl
  obtain ⟨i, o, hc, ho⟩ := (h.threads t).op (by rw [hpc]; simp)
  rw [hpc] at ho
  obtain rfl : o = .dequeue := ho
  obtain ⟨hlegal, hafter⟩ := h.order_commit (i := i) (o := .dequeue) rfl
  have g : Goes s t (.ret none) :=
    ⟨fun o ho => by rw [hpc] at ho; exact ho, by rw [hpc]; simp, by simp [Pc.newNode],
      by rw [hpc]; rfl, by simp [Pc.snapshots], by simp [Pc.strongSnapshots], trivial, by simp [hpc]⟩
  obtain ⟨htail, hlinks, hmakers⟩ := h.goes_shared g
  refine ⟨_, ?_, hlegal, hafter, h.chain, htail, h.shared, h.present, hlinks,
    hmakers, h.goes_threads g⟩
  rw [retOf_setPc s]
  exact h.tracks.commit (.value none) hc (by rw [hpc]; rfl)

end Steps

end Cdrc.AtomicQueue
