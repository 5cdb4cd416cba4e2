import Mathlib.Algebra.Order.BigOperators.Group.Finset
import Cdrc.AtomicStack.Code

/-! # `atomic_stack` is a linearizable stack

The nodes from `head` along `next` are the stack (`Chain`). A push takes effect at its
successful `compare_and_swap`, a pop at its successful `compare_and_swap` or at the
`get_snapshot` that found the stack empty, `front` at its `get_snapshot`.

The `compare_and_swap` of a pop compares addresses only. It is right because the node of
the snapshot is not reclaimed while the snapshot is there, so its address is not reused,
and because the `next` of a node is written by the thread that made it only, before
anybody else can see the node (`Private`). -/
namespace Cdrc.AtomicStack
open Cdrc.Lib.Runs Cdrc.Lib.Objects Cdrc.Lib.History

variable {α β : Type} {n : Nat}

/-! ## The sequential stack -/

/-- The values pushed by the calls of an order. -/
def pushed (L : List (Entry (Op β) (Ret β))) : List β :=
  L.filterMap fun e =>
    match e.op with
    | .pushFront t => some t
    | _ => none

/-- The values popped by the calls of an order. -/
def popped (L : List (Entry (Op β) (Ret β))) : List β :=
  L.filterMap fun e =>
    match e.op, e.ret with
    | .popFront, .value t => t
    | _, _ => none

theorem stack_perm_from {vs : List β} {L : List (Entry (Op β) (Ret β))}
    (h : (stack β).Exact vs L) : (vs ++ pushed L).Perm (popped L ++ (stack β).after vs L) := by
  induction L generalizing vs with
  | nil => simp [pushed, popped, Seq.after]
  | cons e L ih =>
    obtain ⟨i, o, r⟩ := e
    obtain ⟨hr, hL⟩ := h
    have hrest := ih hL
    cases o with
    | pushFront t =>
      have hmove : (vs ++ t :: pushed L).Perm (t :: vs ++ pushed L) := List.perm_middle
      exact hmove.trans hrest
    | popFront =>
      cases vs with
      | nil =>
        obtain rfl : r = .value none := hr
        exact hrest
      | cons x vs =>
        obtain rfl : r = .value (some x) := hr
        exact hrest.cons x
    | front =>
      have hskip : popped (⟨i, .front, r⟩ :: L) = popped L := by cases r <;> rfl
      rw [hskip]
      exact hrest

/-- Every value that was pushed is popped once or still there. -/
theorem stack_perm {L : List (Entry (Op β) (Ret β))} (h : (stack β).Legal L) :
    (pushed L).Perm (popped L ++ (stack β).after [] L) :=
  stack_perm_from h

/-! ## The chain from `head` -/

/-- The nodes from `h` on, with their values. -/
def Chain (node : α → Option (Node α β)) : Option α → List (α × β) → Prop
  | h, [] => h = none
  | h, (a, v) :: l => h = some a ∧ ∃ next, node a = some ⟨v, next⟩ ∧ Chain node next l

/-- A chain does not depend on the nodes outside it. -/
theorem Chain.frame {node node' : α → Option (Node α β)} {h : Option α} {l : List (α × β)}
    (hc : Chain node h l) (hn : ∀ a v, (a, v) ∈ l → node' a = node a) : Chain node' h l := by
  induction l generalizing h with
  | nil => exact hc
  | cons x l ih =>
    obtain ⟨a, v⟩ := x
    obtain ⟨hh, next, ha, hl⟩ := hc
    refine ⟨hh, next, ?_, ih hl fun b w hb => hn b w (List.mem_cons_of_mem _ hb)⟩
    rw [hn a v List.mem_cons_self, ha]

/-- A node of the chain is referred to by `head` or by another node. -/
theorem Chain.referred {node : α → Option (Node α β)} {h : Option α} {l : List (α × β)}
    (hc : Chain node h l) {a : α} {v : β} (ha : (a, v) ∈ l) :
    h = some a ∨ ∃ b nd, node b = some nd ∧ nd.next = some a := by
  induction l generalizing h with
  | nil => cases ha
  | cons x l ih =>
    obtain ⟨b, w⟩ := x
    obtain ⟨hh, next, hb, hl⟩ := hc
    rcases List.mem_cons.mp ha with ha | ha
    · cases ha
      exact Or.inl hh
    · rcases ih hl ha with hnext | hr
      · exact Or.inr ⟨b, _, hb, hnext⟩
      · exact Or.inr hr

/-! ## The invariant -/

/-- The call has allocated `a` and not yet published it. -/
def Pc.owns [DecidableEq α] (a : α) : Pc α β → Bool
  | .pushCas newNode => newNode = a
  | .pushReload newNode => newNode = a
  | _ => false

variable [DecidableEq α]

/-- Nobody but thread `t` can reach the node at `a`. -/
structure Private (s : State α β n) (t : Fin n) (a : α) : Prop where
  head : s.head ≠ some a
  next : ∀ b nd, s.node b = some nd → nd.next ≠ some a
  others : ∀ u, u ≠ t → (s.pc u).holds a = false ∧ (s.pc u).protects a = false

/-- The operation that a call at this point performs. -/
def Performs (node : α → Option (Node α β)) (pc : Pc α β) (o : Op β) : Prop :=
  match pc with
  | .idle => False
  | .pushLoad v => o = .pushFront v
  | .pushNew v _ => o = .pushFront v
  | .pushCas a => ∃ nd, node a = some nd ∧ o = .pushFront nd.t
  | .pushReload a => ∃ nd, node a = some nd ∧ o = .pushFront nd.t
  | .pushed _ => ∃ v, o = .pushFront v
  | .popSnapshot => o = .popFront
  | .popNext _ => o = .popFront
  | .popCas _ _ => o = .popFront
  | .popReload _ => o = .popFront
  | .frontSnapshot => o = .front
  | .value _ => o = .popFront ∨ o = .front
  | .ret _ => o = .popFront ∨ o = .front

/-- The response of a call that has taken effect. -/
def retOf (node : α → Option (Node α β)) (pc : Pc α β) : Option (Ret β) :=
  match pc with
  | .pushed _ => some .pushed
  | .value ss => (node ss).map fun nd => .value (some nd.t)
  | .ret r => some (.value r)
  | _ => none

structure ThreadInv (s : State α β n) (t : Fin n) : Prop where
  op : s.pc t ≠ .idle → ∃ i o, s.calls.call t = some (i, o) ∧ Performs s.node (s.pc t) o
  owned : ∀ a, (s.pc t).owns a = true → Private s t a
  allocated : ∀ a, (s.pc t).holds a = true ∨ (s.pc t).protects a = true →
    ∃ nd, s.node a = some nd
  next : ∀ a nx, s.pc t = .popCas a nx → ∃ v, s.node a = some ⟨v, nx⟩

structure Inv (s : State α β n) (L : List (Entry (Op β) (Ret β))) (l : List (α × β)) : Prop where
  tracks : Tracks s.calls L fun t => retOf s.node (s.pc t)
  legal : (stack β).Legal L
  contents : (stack β).after [] L = l.map Prod.snd
  chain : Chain s.node s.head l
  /-- an `rc_ptr` in a node keeps the node it refers to -/
  closed : ∀ b nd c, s.node b = some nd → nd.next = some c → ∃ nd', s.node c = some nd'
  threads : ∀ t, ThreadInv s t

section Frames
variable {s s' : State α β n} {t u : Fin n}

/-- A call does not depend on the nodes it does not use. -/
theorem retOf_frame {node node' : α → Option (Node α β)} {pc : Pc α β}
    (hn : ∀ a, pc.protects a = true → node' a = node a) : retOf node' pc = retOf node pc := by
  cases pc with
  | value ss =>
    have := hn ss (by simp [Pc.protects])
    simp only [retOf, this]
  | _ => rfl

theorem owns_holds {pc : Pc α β} {a : α} (h : pc.owns a = true) : pc.holds a = true := by
  cases pc <;> simp_all [Pc.owns, Pc.holds]

theorem performs_frame {node node' : α → Option (Node α β)} {pc : Pc α β} {o : Op β}
    (hn : ∀ a, pc.holds a = true → node' a = node a) (h : Performs node pc o) :
    Performs node' pc o := by
  cases pc with
  | pushCas a =>
    have := hn a (by simp [Pc.holds])
    simpa only [Performs, this] using h
  | pushReload a =>
    have := hn a (by simp [Pc.holds])
    simpa only [Performs, this] using h
  | _ => exact h

theorem ThreadInv.frame (h : ThreadInv s u) (hpc : s'.pc u = s.pc u)
    (hcall : s'.calls.call u = s.calls.call u)
    (hn : ∀ a, (s.pc u).holds a = true ∨ (s.pc u).protects a = true → s'.node a = s.node a)
    (hp : ∀ a, (s.pc u).owns a = true → Private s u a → Private s' u a) : ThreadInv s' u where
  op := by
    rw [hpc, hcall]
    intro hi
    obtain ⟨i, o, hc, ho⟩ := h.op hi
    exact ⟨i, o, hc, performs_frame (fun a ha => hn a (Or.inl ha)) ho⟩
  owned := by
    rw [hpc]
    intro a ha
    exact hp a ha (h.owned a ha)
  allocated := by
    rw [hpc]
    intro a ha
    rw [hn a ha]
    exact h.allocated a ha
  next := by
    rw [hpc]
    intro a nx ha
    rw [hn a (Or.inr (by simp [ha, Pc.protects]))]
    exact h.next a nx ha

/-- A step of thread `t`: the others keep their part when it leaves the nodes they use
alone and shows no private node of theirs. -/
theorem threads_step (h : ∀ v, ThreadInv s v) (hpc : ∀ v, v ≠ t → s'.pc v = s.pc v)
    (hcall : ∀ v, v ≠ t → s'.calls.call v = s.calls.call v)
    (hn : ∀ v a, v ≠ t → (s.pc v).holds a = true ∨ (s.pc v).protects a = true →
      s'.node a = s.node a)
    (hsafe : ∀ v a, v ≠ t → (s.pc v).owns a = true → Private s v a → s'.head ≠ some a ∧
      (∀ b nd, s'.node b = some nd → nd.next ≠ some a) ∧
      (s'.pc t).holds a = false ∧ (s'.pc t).protects a = false)
    (ht : ThreadInv s' t) (v : Fin n) : ThreadInv s' v := by
  by_cases hv : v = t
  · rw [hv]
    exact ht
  · refine (h v).frame (hpc v hv) (hcall v hv) (fun a ha => hn v a hv ha) fun a ho hp => ?_
    obtain ⟨hh, hnx, hm⟩ := hsafe v a hv ho hp
    refine ⟨hh, hnx, fun w hw => ?_⟩
    by_cases hwt : w = t
    · rw [hwt]
      exact hm
    · rw [hpc w hwt]
      exact hp.others w hw

omit [DecidableEq α] in
@[simp] theorem setPc_self (s : State α β n) (t : Fin n) (pc : Pc α β) :
    (s.setPc t pc).pc t = pc := by
  simp [State.setPc]

omit [DecidableEq α] in
theorem setPc_of_ne (s : State α β n) (pc : Pc α β) (h : u ≠ t) :
    (s.setPc t pc).pc u = s.pc u := by
  simp [State.setPc, Function.update_of_ne h]

variable (s s') in
/-- The responses recorded after a step of thread `t` that leaves alone the nodes of the
others' snapshots. -/
theorem retOf_step {pc : Pc α β} (hpc : ∀ v, v ≠ t → s'.pc v = s.pc v) (ht : s'.pc t = pc)
    (hn : ∀ v a, v ≠ t → (s.pc v).protects a = true → s'.node a = s.node a) :
    (fun v => retOf s'.node (s'.pc v)) =
      Function.update (fun v => retOf s.node (s.pc v)) t (retOf s'.node pc) := by
  funext v
  by_cases hv : v = t
  · rw [hv, Function.update_self, ht]
  · rw [Function.update_of_ne hv, hpc v hv]
    exact retOf_frame fun a ha => hn v a hv ha

end Frames

section Steps
variable {s s' : State α β n} {t : Fin n} {L : List (Entry (Op β) (Ret β))} {l : List (α × β)}

theorem Inv.head_allocated (h : Inv s L l) {a : α} (ha : s.head = some a) :
    ∃ nd, s.node a = some nd := by
  have hc := h.chain
  cases l with
  | nil =>
    rw [ha] at hc
    cases hc
  | cons x l =>
    obtain ⟨hh, next, hx, _⟩ := hc
    rw [ha] at hh
    cases hh
    exact ⟨_, hx⟩

/-- What a thread may do on its own: it goes on with the same operation, uses nodes it
already used or the one that `head` refers to, and owns no more than before. -/
structure Goes (s : State α β n) (t : Fin n) (pc : Pc α β) : Prop where
  op : ∀ o, Performs s.node (s.pc t) o → Performs s.node pc o
  busy : s.pc t ≠ .idle
  owns : ∀ a, pc.owns a = true → (s.pc t).owns a = true
  uses : ∀ a, pc.holds a = true ∨ pc.protects a = true →
    (s.pc t).holds a = true ∨ (s.pc t).protects a = true ∨ s.head = some a
  next : ∀ a nx, pc = .popCas a nx → ∃ v, s.node a = some ⟨v, nx⟩

theorem Inv.goes_threads (h : Inv s L l) {pc : Pc α β} (g : Goes s t pc) (v : Fin n) :
    ThreadInv (s.setPc t pc) v := by
  refine threads_step (t := t) h.threads (fun v hv => setPc_of_ne s pc hv) (fun _ _ => rfl)
    (fun _ _ _ _ => rfl) (fun v a hv _ hp => ?_) ⟨?_, ?_, ?_, ?_⟩ v
  · refine ⟨hp.head, hp.next, ?_⟩
    rw [setPc_self]
    have hno : ¬ (pc.holds a = true ∨ pc.protects a = true) := by
      intro hu
      obtain ⟨h1, h2⟩ := hp.others t (Ne.symm hv)
      rcases g.uses a hu with hu | hu | hu
      · rw [h1] at hu; cases hu
      · rw [h2] at hu; cases hu
      · exact hp.head hu
    exact ⟨by simpa using fun h => hno (Or.inl h), by simpa using fun h => hno (Or.inr h)⟩
  · intro _
    rw [setPc_self]
    obtain ⟨i, o, hc, ho⟩ := (h.threads t).op g.busy
    exact ⟨i, o, hc, g.op o ho⟩
  · rw [setPc_self]
    intro a ha
    have hp := (h.threads t).owned a (g.owns a ha)
    exact ⟨hp.head, hp.next, fun w hw => by rw [setPc_of_ne s pc hw]; exact hp.others w hw⟩
  · rw [setPc_self]
    intro a ha
    rcases g.uses a ha with hu | hu | hu
    · exact (h.threads t).allocated a (Or.inl hu)
    · exact (h.threads t).allocated a (Or.inr hu)
    · exact h.head_allocated hu
  · rw [setPc_self]
    exact g.next

/-- A step that changes nothing but the point the call has reached. -/
theorem Inv.goes (h : Inv s L l) {pc : Pc α β} (g : Goes s t pc)
    (hret : retOf s.node pc = retOf s.node (s.pc t)) : Inv (s.setPc t pc) L l where
  tracks := by
    have heq := retOf_step s (s.setPc t pc) (fun v hv => setPc_of_ne s pc hv)
      (setPc_self s t pc) fun _ _ _ _ => rfl
    rw [heq]
    refine h.tracks.congr fun u _ _ _ => ?_
    by_cases hu : u = t
    · rw [hu, Function.update_self]
      exact hret
    · rw [Function.update_of_ne hu]
  legal := h.legal
  contents := h.contents
  chain := h.chain
  closed := h.closed
  threads := h.goes_threads g

/-- The order in which the running call of `t` has taken effect, last. -/
theorem Inv.order_commit (h : Inv s L l) {i : Nat} {o : Op β} {r : Ret β} {vs : List β}
    (happ : (stack β).apply (l.map Prod.snd) o = (vs, r)) :
    (stack β).Legal (L ++ [⟨i, o, r⟩]) ∧ (stack β).after [] (L ++ [⟨i, o, r⟩]) = vs := by
  have hc : (stack β).after (stack β).init L = l.map Prod.snd := h.contents
  refine ⟨Seq.exact_append.mpr ⟨h.legal, ?_, trivial⟩, ?_⟩
  · rw [hc, happ]
  · rw [Seq.after_append, h.contents]
    change ((stack β).apply (l.map Prod.snd) o).1 = _
    rw [happ]

/-- The call takes effect without changing `head` or a node. -/
theorem Inv.observes (h : Inv s L l) {pc : Pc α β} (g : Goes s t pc) {r : Ret β} {o : Op β}
    (hret : retOf s.node pc = some r) (hnone : retOf s.node (s.pc t) = none)
    (hop : ∀ o', Performs s.node (s.pc t) o' → o' = o)
    (happ : (stack β).apply (l.map Prod.snd) o = (l.map Prod.snd, r)) :
    ∃ L', Inv (s.setPc t pc) L' l := by
  obtain ⟨i, o', hc, ho⟩ := (h.threads t).op g.busy
  obtain rfl := hop o' ho
  obtain ⟨hlegal, hafter⟩ := h.order_commit (i := i) happ
  have heq := retOf_step s (s.setPc t pc) (fun v hv => setPc_of_ne s pc hv)
    (setPc_self s t pc) fun _ _ _ _ => rfl
  refine ⟨_, ?_, hlegal, hafter, h.chain, h.closed, h.goes_threads g⟩
  rw [heq]
  change Tracks s.calls _ (Function.update _ t (retOf s.node pc))
  rw [hret]
  exact h.tracks.commit r hc hnone

/-- Thread `t` writes a node that nobody else can reach, and is about to publish it. -/
theorem Inv.write (h : Inv s L l) {a : α} {nd : Node α β} (hbusy : s.pc t ≠ .idle)
    (hret : retOf s.node (s.pc t) = none)
    (hop : ∀ o, Performs s.node (s.pc t) o → o = .pushFront nd.t)
    (hhead : s.head ≠ some a) (hnexts : ∀ b nd', s.node b = some nd' → nd'.next ≠ some a)
    (hunused : ∀ w, w ≠ t → (s.pc w).holds a = false ∧ (s.pc w).protects a = false)
    (hself : nd.next ≠ some a) (halloc : ∀ c, nd.next = some c → ∃ nd', s.node c = some nd')
    (hhidden : ∀ w b, w ≠ t → Private s w b → nd.next ≠ some b) :
    Inv ((s.setNode a (some nd)).setPc t (.pushCas a)) L l := by
  generalize hs : (s.setNode a (some nd)).setPc t (.pushCas a) = s'
  have hnode : ∀ b, b ≠ a → s'.node b = s.node b := fun b hb => by
    rw [← hs]
    exact Function.update_of_ne hb _ _
  have hnodea : s'.node a = some nd := by
    rw [← hs]
    exact Function.update_self ..
  have hpcs : ∀ w, w ≠ t → s'.pc w = s.pc w := fun w hw => by
    rw [← hs]
    exact setPc_of_ne _ _ hw
  have hpct : s'.pc t = .pushCas a := by rw [← hs]; exact setPc_self _ t _
  have hh : s'.head = s.head := by rw [← hs]; rfl
  have hcalls : s'.calls = s.calls := by rw [← hs]; rfl
  have hused : ∀ w b, w ≠ t → (s.pc w).holds b = true ∨ (s.pc w).protects b = true → b ≠ a := by
    rintro w b hw hb rfl
    obtain ⟨h1, h2⟩ := hunused w hw
    rw [h1, h2] at hb
    simp at hb
  have hnext : ∀ c, nd.next ≠ some c → (∀ b nd', s.node b = some nd' → nd'.next ≠ some c) →
      ∀ b nd', s'.node b = some nd' → nd'.next ≠ some c := by
    intro c hc hold b nd' hb
    by_cases hba : b = a
    · rw [hba, hnodea] at hb
      cases hb
      exact hc
    · rw [hnode b hba] at hb
      exact hold b nd' hb
  refine ⟨?_, h.legal, h.contents, ?_, ?_, ?_⟩
  · rw [retOf_step s s' hpcs hpct fun w b hw hb => hnode b (hused w b hw (Or.inr hb)), hcalls]
    refine h.tracks.congr fun u _ _ _ => ?_
    by_cases hu : u = t
    · rw [hu, Function.update_self, hret]
      rfl
    · rw [Function.update_of_ne hu]
  · rw [hh]
    refine h.chain.frame fun b w hb => hnode b ?_
    rintro rfl
    rcases h.chain.referred hb with hr | ⟨c, nd', hc, hr⟩
    · exact hhead hr
    · exact hnexts c nd' hc hr
  · intro b nd' c hb hc
    by_cases hca : c = a
    · exact ⟨nd, by rw [hca, hnodea]⟩
    · rw [hnode c hca]
      by_cases hba : b = a
      · rw [hba, hnodea] at hb
        cases hb
        exact halloc c hc
      · rw [hnode b hba] at hb
        exact h.closed b nd' c hb hc
  · refine threads_step h.threads hpcs (fun _ _ => by rw [hcalls])
      (fun w b hw hb => hnode b (hused w b hw hb))
      (fun w b hw hown hp => ⟨hh ▸ hp.head, hnext b (hhidden w b hw hp) hp.next, ?_⟩) ⟨?_, ?_, ?_, ?_⟩
    · rw [hpct]
      have hba := hused w b hw (Or.inl (owns_holds hown))
      exact ⟨by simp [Pc.holds, Ne.symm hba], rfl⟩
    · intro _
      rw [hpct, hcalls]
      obtain ⟨i, o, hc, ho⟩ := (h.threads t).op hbusy
      exact ⟨i, o, hc, nd, hnodea, hop o ho⟩
    · rw [hpct]
      intro b hb
      have hba : a = b := by simpa [Pc.owns] using hb
      rw [← hba]
      refine ⟨hh ▸ hhead, hnext a hself hnexts, fun w hw => ?_⟩
      rw [hpcs w hw]
      exact hunused w hw
    · rw [hpct]
      intro b hb
      have hba : a = b := by simpa [Pc.holds, Pc.protects] using hb
      exact ⟨nd, by rw [← hba, hnodea]⟩
    · rw [hpct]
      intro b nx' hb
      cases hb

/-- `make_rc`: the address was free, so nobody uses it. -/
theorem Inv.allocate (h : Inv s L l) {v : β} {nx : Option α} {a : α} (hpc : s.pc t = .pushNew v nx)
    (ha : s.node a = none) :
    Inv ((s.setNode a (some ⟨v, nx⟩)).setPc t (.pushCas a)) L l := by
  have hne : ∀ b nd, s.node b = some nd → b ≠ a := by
    rintro b nd hb rfl
    rw [ha] at hb
    cases hb
  have hused : ∀ w b, (s.pc w).holds b = true ∨ (s.pc w).protects b = true → b ≠ a := by
    intro w b hb
    obtain ⟨nd, hnd⟩ := (h.threads w).allocated b hb
    exact hne b nd hnd
  have hnx : ∀ c, nx = some c → (s.pc t).holds c = true := by
    intro c hc
    simp [hpc, Pc.holds, hc]
  refine h.write (by rw [hpc]; simp) (by rw [hpc]; rfl) (fun o ho => by rw [hpc] at ho; exact ho)
    (fun hh => ?_) (fun b nd hb hc => ?_) (fun w _ => ?_) (fun hc => ?_) (fun c hc => ?_)
    fun w b hw hp hb => ?_
  · obtain ⟨nd, hnd⟩ := h.head_allocated hh
    exact hne a nd hnd rfl
  · obtain ⟨nd', hnd'⟩ := h.closed b nd a hb hc
    exact hne a nd' hnd' rfl
  · have h1 : ¬ (s.pc w).holds a = true := fun hh => hused w a (Or.inl hh) rfl
    have h2 : ¬ (s.pc w).protects a = true := fun hh => hused w a (Or.inr hh) rfl
    exact ⟨by simpa using h1, by simpa using h2⟩
  · exact hused t a (Or.inl (hnx a hc)) rfl
  · exact (h.threads t).allocated c (Or.inl (hnx c hc))
  · have := (hp.others t (Ne.symm hw)).1
    rw [hnx b hb] at this
    cases this

/-- `new_node->next = load()`: the node is still private. -/
theorem Inv.reload (h : Inv s L l) {a : α} {nd : Node α β} (hpc : s.pc t = .pushReload a)
    (ha : s.node a = some nd) :
    Inv ((s.setNode a (some { nd with next := s.head })).setPc t (.pushCas a)) L l := by
  have hp : Private s t a := (h.threads t).owned a (by simp [hpc, Pc.owns])
  refine h.write (by rw [hpc]; simp) (by rw [hpc]; rfl) (fun o ho => ?_) hp.head hp.next hp.others
    hp.head (fun c hc => h.head_allocated hc) fun w b _ hb => hb.head
  rw [hpc] at ho
  obtain ⟨nd', hnd', ho⟩ := ho
  rw [ha] at hnd'
  cases hnd'
  exact ho

/-- The `compare_and_swap` of a push succeeds: the node is on top. -/
theorem Inv.push (h : Inv s L l) {a : α} {nd : Node α β} (hpc : s.pc t = .pushCas a)
    (ha : s.node a = some nd) (hhead : s.head = nd.next) :
    ∃ L' l', Inv ({ s with head := some a }.setPc t (.pushed a)) L' l' := by
  have hpriv : Private s t a := (h.threads t).owned a (by simp [hpc, Pc.owns])
  have hpcs : ∀ w, w ≠ t → ({ s with head := some a }.setPc t (.pushed a)).pc w = s.pc w :=
    fun w hw => setPc_of_ne _ _ hw
  have hholds : (s.pc t).holds a = true := by simp [hpc, Pc.holds]
  obtain ⟨i, o, hc, ho⟩ := (h.threads t).op (by rw [hpc]; simp)
  rw [hpc] at ho
  obtain ⟨nd', hnd', rfl⟩ := ho
  rw [ha] at hnd'
  cases hnd'
  obtain ⟨hlegal, hafter⟩ := h.order_commit (i := i) (o := .pushFront nd.t) rfl
  refine ⟨_, (a, nd.t) :: l, ?_, hlegal, hafter, ?_, h.closed, ?_⟩
  · rw [retOf_step s _ hpcs (setPc_self _ t _) fun _ _ _ _ => rfl]
    exact h.tracks.commit .pushed hc (by rw [hpc]; rfl)
  · exact ⟨rfl, nd.next, ha, hhead ▸ h.chain⟩
  · refine threads_step h.threads hpcs (fun _ _ => rfl) (fun _ _ _ _ => rfl)
      (fun w b hw _ hp => ⟨fun hb => ?_, hp.next, ?_⟩) ⟨?_, ?_, ?_, ?_⟩
    · cases hb
      rw [(hp.others t (Ne.symm hw)).1] at hholds
      cases hholds
    · rw [setPc_self]
      have := hp.others t (Ne.symm hw)
      rw [hpc] at this
      exact this
    · intro _
      rw [setPc_self]
      exact ⟨i, _, hc, nd.t, rfl⟩
    · rw [setPc_self]
      intro b hb
      cases hb
    · rw [setPc_self]
      intro b hb
      have hba : a = b := by simpa [Pc.holds, Pc.protects] using hb
      exact ⟨nd, hba ▸ ha⟩
    · rw [setPc_self]
      intro b nx' hb
      cases hb

/-- The `compare_and_swap` of a pop succeeds: the node of the snapshot is the top one, and
its `next` is still what was read. -/
theorem Inv.pop (h : Inv s L l) {ss : α} {nx : Option α} (hpc : s.pc t = .popCas ss nx)
    (hhead : s.head = some ss) :
    ∃ L' l', Inv ({ s with head := nx }.setPc t (.value ss)) L' l' := by
  obtain ⟨v, hss⟩ := (h.threads t).next ss nx hpc
  have hpcs : ∀ w, w ≠ t → ({ s with head := nx }.setPc t (.value ss)).pc w = s.pc w :=
    fun w hw => setPc_of_ne _ _ hw
  obtain ⟨i, o, hc, ho⟩ := (h.threads t).op (by rw [hpc]; simp)
  rw [hpc] at ho
  obtain rfl : o = .popFront := ho
  have hchain := h.chain
  cases l with
  | nil =>
    rw [hhead] at hchain
    cases hchain
  | cons x l =>
    obtain ⟨b, w⟩ := x
    obtain ⟨hb, next, hnode, hchain⟩ := hchain
    rw [hhead] at hb
    cases hb
    rw [hss] at hnode
    cases hnode
    obtain ⟨hlegal, hafter⟩ := h.order_commit (i := i) (o := .popFront) rfl
    refine ⟨_, l, ?_, hlegal, hafter, hchain, h.closed, ?_⟩
    · rw [retOf_step s _ hpcs (setPc_self _ t _) fun _ _ _ _ => rfl]
      have hret : retOf s.node (.value ss) = some (.value (some v)) := by simp [retOf, hss]
      change Tracks s.calls _ (Function.update _ t (retOf s.node (.value ss)))
      rw [hret]
      exact h.tracks.commit _ hc (by rw [hpc]; rfl)
    · refine threads_step h.threads hpcs (fun _ _ => rfl) (fun _ _ _ _ => rfl)
        (fun w b hw _ hp => ⟨hp.next ss _ hss, hp.next, ?_⟩) ⟨?_, ?_, ?_, ?_⟩
      · rw [setPc_self]
        have := hp.others t (Ne.symm hw)
        rw [hpc] at this
        exact this
      · intro _
        rw [setPc_self]
        exact ⟨i, _, hc, Or.inl rfl⟩
      · rw [setPc_self]
        intro b hb
        cases hb
      · rw [setPc_self]
        intro b hb
        have hba : ss = b := by simpa [Pc.holds, Pc.protects] using hb
        exact ⟨_, hba ▸ hss⟩
      · rw [setPc_self]
        intro b nx' hb
        cases hb

/-- A call begins. -/
theorem Inv.call (h : Inv s L l) (hpc : s.pc t = .idle) (o : Op β) :
    Inv { s.setPc t (start o) with calls := s.calls.invoke t o } L l := by
  have hpcs : ∀ w, w ≠ t → (s.setPc t (start o)).pc w = s.pc w := fun w hw => setPc_of_ne _ _ hw
  have huses : ∀ a, (start o : Pc α β).holds a = false ∧ (start o : Pc α β).protects a = false := by
    intro a
    cases o <;> exact ⟨rfl, rfl⟩
  refine ⟨?_, h.legal, h.contents, h.chain, h.closed, ?_⟩
  · have hret : retOf s.node (start o) = none := by cases o <;> rfl
    have heq := retOf_step s (s.setPc t (start o)) hpcs (setPc_self s t _) fun _ _ _ _ => rfl
    change Tracks _ L fun v => retOf (s.setPc t (start o)).node ((s.setPc t (start o)).pc v)
    rw [heq]
    change Tracks _ L (Function.update _ t (retOf s.node (start o)))
    rw [hret]
    exact h.tracks.invoke t o
  · refine threads_step h.threads hpcs
      (fun w hw => Function.update_of_ne hw _ _) (fun _ _ _ _ => rfl)
      (fun w b _ _ hp => ⟨hp.head, hp.next, ?_⟩) ⟨?_, ?_, ?_, ?_⟩
    · change ((s.setPc t (start o)).pc t).holds b = false ∧ _
      rw [setPc_self]
      exact huses b
    · intro _
      refine ⟨s.calls.nextId, o, Function.update_self .., ?_⟩
      change Performs s.node ((s.setPc t (start o)).pc t) o
      rw [setPc_self]
      cases o <;> rfl
    · change ∀ a, ((s.setPc t (start o)).pc t).owns a = true → _
      rw [setPc_self]
      intro b hb
      have hh := owns_holds hb
      rw [(huses b).1] at hh
      cases hh
    · change ∀ a, ((s.setPc t (start o)).pc t).holds a = true ∨ _ → _
      rw [setPc_self]
      intro b hb
      rw [(huses b).1, (huses b).2] at hb
      simp at hb
    · change ∀ a nx, (s.setPc t (start o)).pc t = .popCas a nx → _
      rw [setPc_self]
      intro b nx hb
      cases o <;> cases hb

/-- A call that has taken effect returns. -/
theorem Inv.respond (h : Inv s L l) {r : Ret β} (hret : retOf s.node (s.pc t) = some r) :
    Inv (s.respond t r) L l := by
  have hbusy : s.pc t ≠ .idle := by
    intro hi
    rw [hi] at hret
    cases hret
  obtain ⟨i, o, hc, _⟩ := (h.threads t).op hbusy
  have hcalls : s.calls.respond t r =
      ⟨s.calls.hist ++ [.res i r], s.calls.nextId, Function.update s.calls.call t none⟩ := by
    simp only [Calls.respond, hc]
  have hpcs : ∀ w, w ≠ t → (s.respond t r).pc w = s.pc w := fun w hw => setPc_of_ne s _ hw
  have hpct : (s.respond t r).pc t = .idle := setPc_self s t _
  refine ⟨?_, h.legal, h.contents, h.chain, h.closed, ?_⟩
  · refine (h.tracks.respond hc hret).congr fun u j o' hu => ?_
    have hut : u ≠ t := by
      rintro rfl
      rw [hcalls] at hu
      simp at hu
    rw [hpcs u hut]
    rfl
  · refine threads_step h.threads hpcs (fun w hw => ?_) (fun _ _ _ _ => rfl)
      (fun w b _ _ hp => ⟨hp.head, hp.next, ?_⟩) ⟨?_, ?_, ?_, ?_⟩
    · change (s.calls.respond t r).call w = _
      rw [hcalls]
      exact Function.update_of_ne hw _ _
    · rw [hpct]
      exact ⟨rfl, rfl⟩
    · rw [hpct]
      exact fun hi => absurd rfl hi
    · rw [hpct]
      intro b hb
      cases hb
    · rw [hpct]
      intro b hb
      simp [Pc.holds, Pc.protects] at hb
    · rw [hpct]
      intro b nx hb
      cases hb

/-- An object with strong count zero is referred to by no location and no `rc_ptr`. -/
theorem strong_eq_zero [Fintype α] {a : α} (h : s.strong a = 0) :
    s.head ≠ some a ∧ (∀ b nd, s.node b = some nd → nd.next ≠ some a) ∧
      ∀ t, (s.pc t).holds a = false := by
  simp only [State.strong, Nat.add_eq_zero_iff, Finset.sum_eq_zero_iff, Finset.mem_univ,
    true_implies, ite_eq_right_iff, Nat.one_ne_zero, imp_false] at h
  obtain ⟨⟨hh, hnx⟩, hpc⟩ := h
  refine ⟨hh, fun b nd hb hc => hnx b ?_, fun t => by simpa using hpc t⟩
  rw [hb]
  exact hc

/-- A node that nobody refers to is destroyed. -/
theorem Inv.reclaim [Fintype α] (h : Inv s L l) {a : α} (ha : s.strong a = 0)
    (hsnap : ∀ t, (s.pc t).protects a = false) : Inv (s.setNode a none) L l := by
  obtain ⟨hhead, hnexts, hholds⟩ := strong_eq_zero ha
  have hnode : ∀ b, b ≠ a → (s.setNode a none).node b = s.node b :=
    fun b hb => Function.update_of_ne hb _ _
  have hsome : ∀ b nd, (s.setNode a none).node b = some nd → s.node b = some nd := by
    intro b nd hb
    by_cases hba : b = a
    · have hnone : (s.setNode a none).node a = none := Function.update_self ..
      rw [hba, hnone] at hb
      cases hb
    · rwa [hnode b hba] at hb
  have hused : ∀ w b, (s.pc w).holds b = true ∨ (s.pc w).protects b = true → b ≠ a := by
    rintro w b hb rfl
    rw [hholds w, hsnap w] at hb
    simp at hb
  refine ⟨?_, h.legal, h.contents, ?_, ?_, fun w => ?_⟩
  · refine h.tracks.congr fun u _ _ _ => ?_
    exact retOf_frame fun b hb => hnode b (hused u b (Or.inr hb))
  · refine h.chain.frame fun b w hb => hnode b ?_
    rintro rfl
    rcases h.chain.referred hb with hr | ⟨c, nd, hc, hr⟩
    · exact hhead hr
    · exact hnexts c nd hc hr
  · intro b nd c hb hc
    have hca : c ≠ a := by
      rintro rfl
      exact hnexts b nd (hsome b nd hb) hc
    rw [hnode c hca]
    exact h.closed b nd c (hsome b nd hb) hc
  · refine (h.threads w).frame rfl rfl (fun b hb => hnode b (hused w b hb)) fun b _ hp => ?_
    exact ⟨hp.head, fun c nd hc => hp.next c nd (hsome c nd hc), hp.others⟩

/-- `pop_front` goes on with the snapshot it got, or takes effect on the empty stack. -/
theorem Inv.popFrom (h : Inv s L l) (hop : ∀ o, Performs s.node (s.pc t) o ↔ o = .popFront)
    (hret : retOf s.node (s.pc t) = none) :
    ∃ L', Inv (s.setPc t (popFrom s.head)) L' l := by
  have hbusy : s.pc t ≠ .idle := by
    intro hi
    rw [hi] at hop
    exact (hop .popFront).mpr rfl
  cases hh : s.head with
  | some ss =>
    refine ⟨L, h.goes ⟨fun o ho => (hop o).mp ho, hbusy, ?_, ?_, ?_⟩ (by rw [hret]; rfl)⟩
    · intro a ha
      cases ha
    · intro a ha
      have hba : ss = a := by simpa [AtomicStack.popFrom, Pc.holds, Pc.protects] using ha
      exact Or.inr (Or.inr (hba ▸ hh))
    · intro a nx ha
      cases ha
  | none =>
    have hl : l = [] := by
      have hc := h.chain
      cases l with
      | nil => rfl
      | cons x l =>
        rw [hh] at hc
        cases hc.1
    subst hl
    refine h.observes ⟨fun o ho => Or.inl ((hop o).mp ho), hbusy, ?_, ?_, ?_⟩ rfl hret
      (fun o ho => (hop o).mp ho) rfl
    · intro a ha
      cases ha
    · intro a ha
      simp [AtomicStack.popFrom, Pc.holds, Pc.protects] at ha
    · intro a nx ha
      cases ha

/-- `get_snapshot` in `front`: the call takes effect. -/
theorem Inv.front (h : Inv s L l) (hpc : s.pc t = .frontSnapshot) :
    (∀ ss, s.head = some ss → ∃ L', Inv (s.setPc t (.value ss)) L' l) ∧
      (s.head = none → ∃ L', Inv (s.setPc t (.ret none)) L' l) := by
  have hop : ∀ o, Performs s.node (s.pc t) o → o = .front := fun o ho => by
    rw [hpc] at ho
    exact ho
  have hret : retOf s.node (s.pc t) = none := by rw [hpc]; rfl
  have hbusy : s.pc t ≠ .idle := by rw [hpc]; simp
  have hc := h.chain
  constructor
  · intro ss hh
    cases l with
    | nil =>
      rw [hh] at hc
      cases hc
    | cons x l =>
      obtain ⟨b, v⟩ := x
      obtain ⟨hb, next, hnode, _⟩ := hc
      rw [hh] at hb
      cases hb
      refine h.observes (r := .value (some v))
        ⟨fun o ho => Or.inr (hop o ho), hbusy, ?_, ?_, ?_⟩ (by simp [retOf, hnode]) hret hop rfl
      · intro a ha
        cases ha
      · intro a ha
        have hba : ss = a := by simpa [Pc.holds, Pc.protects] using ha
        exact Or.inr (Or.inr (hba ▸ hh))
      · intro a nx ha
        cases ha
  · intro hh
    cases l with
    | cons x l =>
      rw [hh] at hc
      cases hc.1
    | nil =>
      refine h.observes ⟨fun o ho => Or.inr (hop o ho), hbusy, ?_, ?_, ?_⟩ rfl hret hop rfl
      · intro a ha
        cases ha
      · intro a ha
        simp [Pc.holds, Pc.protects] at ha
      · intro a nx ha
        cases ha

/-- A step of a call that does not take effect with it. -/
theorem Inv.walks (h : Inv s L l) {pc pc' : Pc α β} (hpc : s.pc t = pc) (hbusy : pc ≠ .idle)
    (hop : ∀ o, Performs s.node pc o → Performs s.node pc' o)
    (howns : ∀ a, pc'.owns a = true → pc.owns a = true)
    (huses : ∀ a, pc'.holds a = true ∨ pc'.protects a = true →
      pc.holds a = true ∨ pc.protects a = true ∨ s.head = some a)
    (hnext : ∀ a nx, pc' = .popCas a nx → ∃ v, s.node a = some ⟨v, nx⟩)
    (hret : retOf s.node pc' = retOf s.node pc) : Inv (s.setPc t pc') L l := by
  subst hpc
  exact h.goes ⟨hop, hbusy, howns, huses, hnext⟩ hret

theorem Inv.step (h : Inv s L l) {a : α} (hs : step s t a = some s') :
    ∃ L' l', Inv s' L' l' := by
  unfold AtomicStack.step at hs
  split at hs
  case h_1 => cases hs
  case h_2 v hpc =>
    cases hs
    exact ⟨L, l, h.walks hpc (by simp) (fun _ ho => ho) (by simp [Pc.owns])
      (by simp [Pc.holds, Pc.protects]) (by simp) rfl⟩
  case h_3 v nx hpc =>
    split at hs
    · rename_i ha
      cases hs
      exact ⟨L, l, h.allocate hpc ha⟩
    · cases hs
  case h_4 newNode hpc =>
    obtain ⟨nd, hnd, rfl⟩ := Option.map_eq_some_iff.mp hs
    by_cases hh : s.head = nd.next
    · rw [if_pos hh]
      exact h.push hpc hnd hh
    · rw [if_neg hh]
      exact ⟨L, l, h.walks hpc (by simp) (fun _ ho => ho) (fun _ ho => ho)
        (by simp [Pc.holds, Pc.protects]) (by simp) rfl⟩
  case h_5 newNode hpc =>
    obtain ⟨nd, hnd, rfl⟩ := Option.map_eq_some_iff.mp hs
    exact ⟨L, l, h.reload hpc hnd⟩
  case h_6 newNode hpc =>
    cases hs
    exact ⟨L, l, h.respond (by rw [hpc]; rfl)⟩
  case h_7 hpc =>
    cases hs
    obtain ⟨L', h'⟩ := h.popFrom (t := t) (by rw [hpc]; exact fun _ => Iff.rfl) (by rw [hpc]; rfl)
    exact ⟨L', l, h'⟩
  case h_8 ss hpc =>
    obtain ⟨nd, hnd, rfl⟩ := Option.map_eq_some_iff.mp hs
    refine ⟨L, l, h.walks hpc (by simp) (fun _ ho => ho) (by simp [Pc.owns])
      (by simp [Pc.holds, Pc.protects]) ?_ rfl⟩
    intro b nx hb
    cases hb
    exact ⟨nd.t, hnd⟩
  case h_9 ss nx hpc =>
    split at hs
    · rename_i hh
      cases hs
      exact h.pop hpc hh
    · cases hs
      exact ⟨L, l, h.walks hpc (by simp) (fun _ ho => ho) (by simp [Pc.owns])
        (by simp [Pc.holds, Pc.protects]) (by simp) rfl⟩
  case h_10 ss hpc =>
    cases hs
    obtain ⟨L', h'⟩ := h.popFrom (t := t) (by rw [hpc]; exact fun _ => Iff.rfl) (by rw [hpc]; rfl)
    exact ⟨L', l, h'⟩
  case h_11 hpc =>
    obtain ⟨hsome, hnone⟩ := h.front hpc
    split at hs
    · rename_i ss hh
      cases hs
      obtain ⟨L', h'⟩ := hsome ss hh
      exact ⟨L', l, h'⟩
    · rename_i hh
      cases hs
      obtain ⟨L', h'⟩ := hnone hh
      exact ⟨L', l, h'⟩
  case h_12 ss hpc =>
    obtain ⟨nd, hnd, rfl⟩ := Option.map_eq_some_iff.mp hs
    exact ⟨L, l, h.walks hpc (by simp) (fun _ ho => ho) (by simp [Pc.owns])
      (by simp [Pc.holds, Pc.protects]) (by simp) (by simp [retOf, hnd])⟩
  case h_13 r hpc =>
    cases hs
    exact ⟨L, l, h.respond (by rw [hpc]; rfl)⟩

theorem Inv.next [Fintype α] (h : Inv s L l) {e : Label α β n} (hs : AtomicStack.next s e = some s') :
    ∃ L' l', Inv s' L' l' := by
  cases e with
  | call t o =>
    simp only [AtomicStack.next] at hs
    split at hs
    · rename_i hpc
      cases hs
      exact ⟨L, l, h.call hpc o⟩
    · cases hs
  | step t a => exact h.step hs
  | reclaim a =>
    simp only [AtomicStack.next] at hs
    split at hs
    · rename_i hg
      cases hs
      exact ⟨L, l, h.reclaim hg.1 hg.2⟩
    · cases hs

theorem Inv.initial : Inv (State.initial : State α β n) [] [] where
  tracks := Tracks.empty
  legal := trivial
  contents := rfl
  chain := rfl
  closed := by
    intro b nd c hb
    cases hb
  threads _ := ⟨fun hi => absurd rfl hi, by simp [State.initial, Pc.owns],
    by simp [State.initial, Pc.holds, Pc.protects], by simp [State.initial]⟩

end Steps

/-! ## Every run -/

section Runs
variable [Fintype α] {s : State α β n}

theorem reach_inv (hr : (machine α β n).Reach s) : ∃ L l, Inv s L l := by
  refine Machine.Reach.invariant (I := fun s => ∃ L l, Inv s L l) ?_ ?_ hr
  · rintro _ rfl
    exact ⟨[], [], Inv.initial⟩
  · intro s a s' hi hn
    obtain ⟨L, l, h⟩ := hi
    exact h.next hn

/-- In every state of every run the history is that of a sequential stack, whose contents
are the nodes from `head`. Every value pushed has been popped once or is still there. The
node that a pop is about to take off has the `next` that the pop will install, and no call
refers to a node that has been destroyed. -/
theorem atomicStack_linearizable (hr : (machine α β n).Reach s) :
    (∃ L l, Linearization s.calls.hist L ∧ (stack β).Legal L ∧ Chain s.node s.head l ∧
      (stack β).after [] L = l.map Prod.snd ∧ (pushed L).Perm (popped L ++ l.map Prod.snd)) ∧
    (∀ t ss next, s.pc t = .popCas ss next → ∃ v, s.node ss = some ⟨v, next⟩) ∧
    ∀ t a, (s.pc t).holds a = true ∨ (s.pc t).protects a = true → ∃ nd, s.node a = some nd := by
  obtain ⟨L, l, h⟩ := reach_inv hr
  have hperm := stack_perm h.legal
  rw [h.contents] at hperm
  exact ⟨⟨L, l, h.tracks.lin, h.legal, h.chain, h.contents, hperm⟩,
    fun t ss next hpc => (h.threads t).next ss next hpc, fun t a ha => (h.threads t).allocated a ha⟩

end Runs

/-- One thread pushes and stops before its return. Another takes the node off while a
third, with a snapshot of it, waits before its own `compare_and_swap`. -/
def overlap : List (Label (Fin 2) Nat 3) :=
  [.call 0 (.pushFront 7), .step 0 0, .step 0 0, .step 0 0, .call 1 .popFront, .call 2 .popFront,
    .step 2 0, .step 2 0, .step 1 0, .step 1 0, .step 1 0, .step 1 0, .step 1 0, .step 0 0]

theorem atomicStack_linearizable_overlap :
    ∃ s, (machine (Fin 2) Nat 3).exec overlap .initial = some s ∧ s.head = none ∧
      s.pc 2 = .popCas 0 none ∧
      s.calls.hist = [.inv 0 (.pushFront 7), .inv 1 .popFront, .inv 2 .popFront,
        .res 1 (.value (some 7)), .res 0 .pushed] ∧
      (∃ L l, Linearization s.calls.hist L ∧ (stack Nat).Legal L ∧ Chain s.node s.head l ∧
        (stack Nat).after [] L = l.map Prod.snd ∧
        (pushed L).Perm (popped L ++ l.map Prod.snd)) ∧
      ∃ v, s.node 0 = some ⟨v, none⟩ := by
  have hex : ((machine (Fin 2) Nat 3).exec overlap .initial).map
      (fun s => (s.head, s.pc 2, s.calls.hist)) =
      some (none, .popCas 0 none, [.inv 0 (.pushFront 7), .inv 1 .popFront, .inv 2 .popFront,
        .res 1 (.value (some 7)), .res 0 .pushed]) := by
    decide +kernel
  obtain ⟨s, hs, hp⟩ := Option.map_eq_some_iff.mp hex
  simp only [Prod.mk.injEq] at hp
  obtain ⟨hhead, hpc, hhist⟩ := hp
  obtain ⟨hlin, hnext, _⟩ := atomicStack_linearizable ((Machine.Reach.init rfl).exec hs)
  exact ⟨s, hs, hhead, hpc, hhist, hlin, hnext 2 0 none hpc⟩

end Cdrc.AtomicStack
