import Cdrc.Hyaline.Tracker

/-! # The Hyaline tracker frees every batch once, and late enough

The counter of a batch is `2 ^ 62` minus the insertions made so far while its
`add_batch` runs, plus one for every thread that holds one of its nodes and has not
released it: an inserter adds a holder and, in `cnt`, takes the same amount back.
When the bias is removed at the end of `add_batch` the counter is exactly the number
of holders, so whoever brings it to zero is the last and the only one.

`BatchInv` says this for each batch, together with where its nodes are in memory;
`SectionInv` ties a thread's list, or what is left of it in `traverse`, to the nodes
the thread holds; `FrameInv` says what a call in progress knows. A frame is identified
by its thread and depth, which makes the frame that adds or frees a batch unique. -/
namespace Cdrc.Hyaline.Tracker
open Cdrc.Lib.Runs

/-! ## The invariant -/

/-- The value of `refc`. -/
def Batch.refc (B : Batch) : Int :=
  B.waiting.card + if B.added then 0 else refcProtect - B.received.card

/-- The link of the `k`-th node. -/
def Batch.linkAt (B : Batch) (k : Nat) : Link :=
  if k < B.slots.length then .bnext (B.ptr (k + 1)) else .refc B.refc

def Batch.blinkAt (B : Batch) (k : Nat) : Ptr :=
  if k < B.slots.length then .node B.refs else B.ptr 0

structure BatchInv (n : Nat) (s : State) (b : Nat) : Prop where
  nodup : (s.batch b).nodes.Nodup
  enough : n ≤ (s.batch b).slots.length
  layout : ∀ k a, (s.batch b).deleted ≤ k → (s.batch b).nodes[k]? = some a →
    ∃ nx, s.mem a = some ⟨b, (s.batch b).linkAt k, nx, (s.batch b).blinkAt k⟩
  pos_le : (s.batch b).pos ≤ n
  complete : (s.batch b).added = true → (s.batch b).pos = n
  received_lt : ∀ r ∈ (s.batch b).received, r.1 < (s.batch b).pos
  received_card : (s.batch b).received.card ≤ (s.batch b).pos
  waiting : ∀ t ∈ (s.batch b).waiting, (t, s.begun t) ∈ (s.batch b).received ∧
    ∃ a ∈ s.chain t, (s.batch b).slots[t]? = some a
  frees : (s.batch b).frees = if (s.batch b).added = true ∧ (s.batch b).waiting = ∅ then 1 else 0
  kept : (s.batch b).frees = 0 → (s.batch b).deleted = 0
  present_le : ∀ r ∈ (s.batch b).present, r.1 < n ∧ r.2 ≤ s.begun r.1
  present : ∀ r ∈ (s.batch b).present, s.InSection r →
    (s.batch b).pos ≤ r.1 ∨ r.1 ∈ (s.batch b).waiting

/-- The nodes from `p` along `next` are those of `l`. -/
def Linked (mem : Nat → Option Node) : Ptr → List Nat → Prop
  | p, [] => p = .null
  | p, a :: l => p = .node a ∧ ∃ nd, mem a = some nd ∧ Linked mem nd.next l

/-- Thread `t` holds the node `a` of batch `b`. -/
def State.Holds (s : State) (t b a : Nat) : Prop :=
  b < s.created ∧ t ∈ (s.batch b).waiting ∧ (s.batch b).slots[t]? = some a

def SectionInv (s : State) (t : Nat) : Section → Prop
  | .outside => s.rsrv t = .inv ∧ s.chain t = [] ∧ s.begun t = s.ended t
  | .inside => s.rsrv t ≠ .inv ∧ Linked s.mem (s.rsrv t) (s.chain t) ∧ s.begun t = s.ended t + 1
  | .traverse p => s.rsrv t = .inv ∧ Linked s.mem p (s.chain t) ∧ s.begun t = s.ended t + 1
  | .readBlink curr p => s.rsrv t = .inv ∧ s.begun t = s.ended t + 1 ∧
    ∃ a l, curr = .node a ∧ s.chain t = a :: l ∧ Linked s.mem p l
  | .release refs p => s.rsrv t = .inv ∧ s.begun t = s.ended t + 1 ∧
    ∃ b a l, refs = .node (s.batch b).refs ∧ s.chain t = a :: l ∧ Linked s.mem p l ∧ s.Holds t b a

/-- The frame at `x` is in the `add_batch` of `b`, with `pos` iterations done. -/
structure Adding (s : State) (x : Nat × Nat) (b pos : Nat) (cnt : Int) : Prop where
  lt : b < s.created
  adder : (s.batch b).adder = x
  added : (s.batch b).added = false
  pos_eq : (s.batch b).pos = pos
  cnt_eq : cnt = -refcProtect + (s.batch b).received.card

/-- The frame at `x` is in the `free_batch` of `b`. -/
structure Freeing (s : State) (x : Nat × Nat) (b : Nat) : Prop where
  lt : b < s.created
  freer : (s.batch b).freer = x
  freed : (s.batch b).frees = 1
  left : (s.batch b).deleted ≤ (s.batch b).slots.length

def FrameInv (n : Nat) (s : State) (x : Nat × Nat) : Frame → Prop
  | .guard => True
  | .addBatch b curr cnt i => Adding s x b i cnt ∧ curr = (s.batch b).ptr i
  | .setNext b curr cnt i prev =>
    Adding s x b i cnt ∧ curr = (s.batch b).ptr i ∧ i < n ∧ prev ≠ .inv
  | .push b curr cnt i prev =>
    Adding s x b i cnt ∧ curr = (s.batch b).ptr i ∧ i < n ∧ prev ≠ .inv ∧
      ∃ a nd, curr = .node a ∧ s.mem a = some nd ∧ nd.batch = b ∧ nd.next = prev
  | .advance b curr cnt i => Adding s x b (i + 1) cnt ∧ curr = (s.batch b).ptr i ∧ i < n
  | .freeStart b refs => Freeing s x b ∧ (s.batch b).deleted = 0 ∧ refs = .node (s.batch b).refs
  | .freeNode b p => Freeing s x b ∧ p = (s.batch b).ptr (s.batch b).deleted
  | .callback b node p => Freeing s x b ∧ node = (s.batch b).ptr (s.batch b).deleted ∧
    p = (s.batch b).ptr ((s.batch b).deleted + 1)

def StackInv (n : Nat) (s : State) (t : Nat) : List Frame → Prop
  | [] => True
  | f :: fs => FrameInv n s (t, fs.length) f ∧ StackInv n s t fs

structure Inv (n : Nat) (s : State) : Prop where
  fault : s.fault = false
  batches : ∀ b < s.created, BatchInv n s b
  nodup : ∀ t, (s.chain t).Nodup
  holds : ∀ t, ∀ a ∈ s.chain t, ∃ b, s.Holds t b a
  sections : ∀ t, SectionInv s t (s.sec t)
  frames : ∀ t, StackInv n s t (s.stack t)

theorem inv_initial (n : Nat) : Inv n .initial where
  fault := rfl
  batches := by intro b hb; cases hb
  nodup := by intro t; exact List.nodup_nil
  holds := by intro t a ha; cases ha
  sections := by intro t; exact ⟨rfl, rfl, rfl⟩
  frames := by intro t; trivial

/-! ## Nodes in memory -/

section Memory
variable {n : Nat} {s s' : State} {b c k j a t : Nat}

theorem Batch.ptr_of_getElem? {B : Batch} (h : B.nodes[k]? = some a) : B.ptr k = .node a := by
  simp [Batch.ptr, h]

theorem Batch.nodes_slot {B : Batch} (h : B.slots[k]? = some a) : B.nodes[k]? = some a := by
  unfold Batch.nodes
  rw [List.getElem?_append_left (List.getElem?_eq_some_iff.mp h).1]
  exact h

theorem Batch.nodes_refs (B : Batch) : B.nodes[B.slots.length]? = some B.refs := by
  simp [Batch.nodes]

theorem Batch.exists_slot {B : Batch} (h : k < B.slots.length) : ∃ a, B.slots[k]? = some a :=
  ⟨_, List.getElem?_eq_getElem h⟩

/-- Two nodes in memory at one address are one node. -/
theorem BatchInv.unique (hb : BatchInv n s b) (hc : BatchInv n s c)
    (hbk : (s.batch b).deleted ≤ k) (hcj : (s.batch c).deleted ≤ j)
    (hk : (s.batch b).nodes[k]? = some a) (hj : (s.batch c).nodes[j]? = some a) : b = c ∧ k = j := by
  obtain ⟨_, h1⟩ := hb.layout k a hbk hk
  obtain ⟨_, h2⟩ := hc.layout j a hcj hj
  have hbc : b = c := by
    rw [h1] at h2
    injection h2 with h2
    exact congrArg Node.batch h2
  subst hbc
  refine ⟨rfl, ?_⟩
  obtain ⟨hlk, hek⟩ := List.getElem?_eq_some_iff.mp hk
  obtain ⟨hlj, hej⟩ := List.getElem?_eq_some_iff.mp hj
  exact (hb.nodup.getElem_inj_iff).mp (hek.trans hej.symm)

theorem BatchInv.get (hb : BatchInv n s b) (hk : (s.batch b).deleted ≤ k)
    (ha : (s.batch b).nodes[k]? = some a) :
    ∃ nx, s.get (.node a) = some (a, ⟨b, (s.batch b).linkAt k, nx, (s.batch b).blinkAt k⟩) := by
  obtain ⟨nx, h⟩ := hb.layout k a hk ha
  exact ⟨nx, by simp [State.get, h]⟩

theorem BatchInv.live (hb : BatchInv n s b) (hf : (s.batch b).frees = 0)
    (ha : (s.batch b).nodes[k]? = some a) :
    ∃ nx, s.live (.node a) = some (a, ⟨b, (s.batch b).linkAt k, nx, (s.batch b).blinkAt k⟩) ∧
      s.mem a = some ⟨b, (s.batch b).linkAt k, nx, (s.batch b).blinkAt k⟩ := by
  obtain ⟨nx, h⟩ := hb.layout k a (by rw [hb.kept hf]; exact Nat.zero_le k) ha
  exact ⟨nx, by simp [State.live, State.get, h, hf], h⟩

theorem BatchInv.frees_eq_zero (hb : BatchInv n s b)
    (h : (s.batch b).added = false ∨ t ∈ (s.batch b).waiting) : (s.batch b).frees = 0 := by
  rw [hb.frees, if_neg]
  rintro ⟨h1, h2⟩
  rcases h with h | h
  · rw [h] at h1; cases h1
  · rw [h2] at h; cases h

theorem Linked.of_mem {mem mem' : Nat → Option Node} {p : Ptr} {l : List Nat} (h : Linked mem p l)
    (hm : ∀ a ∈ l, ∀ nd, mem a = some nd → ∃ nd', mem' a = some nd' ∧ nd'.next = nd.next) :
    Linked mem' p l := by
  induction l generalizing p with
  | nil => exact h
  | cons a l ih =>
    obtain ⟨hp, nd, hnd, hl⟩ := h
    obtain ⟨nd', hnd', hnext⟩ := hm a List.mem_cons_self nd hnd
    refine ⟨hp, nd', hnd', ?_⟩
    rw [hnext]
    exact ih hl fun c hc => hm c (List.mem_cons_of_mem _ hc)

end Memory

/-! ## What a step leaves alone -/

/-- The frame at `x` is at work on the batch. -/
def Batch.Busy (B : Batch) (x : Nat × Nat) : Prop :=
  B.adder = x ∧ B.added = false ∨ B.freer = x ∧ B.frees = 1

/-- A step of the frame at `x` leaves what the other frames know as it is. -/
structure Keeps (s s' : State) (x : Nat × Nat) : Prop where
  created : s.created ≤ s'.created
  batch : ∀ b < s.created, ∀ y ≠ x, (s.batch b).Busy y →
    ∃ w, s'.batch b = { s.batch b with waiting := w }
  next : ∀ a nd, s.mem a = some nd → nd.batch < s.created → (s.batch nd.batch).adder ≠ x →
    (s.batch nd.batch).added = false →
    ∃ nd', s'.mem a = some nd' ∧ nd'.batch = nd.batch ∧ nd'.next = nd.next

section Keep
variable {n : Nat} {s s' : State} {x y : Nat × Nat} {b t : Nat}

theorem Adding.keep {pos : Nat} {cnt : Int} (h : Adding s y b pos cnt) (k : Keeps s s' x)
    (hy : y ≠ x) : Adding s' y b pos cnt ∧ ∀ i, (s'.batch b).ptr i = (s.batch b).ptr i := by
  obtain ⟨w, hw⟩ := k.batch b h.lt y hy (Or.inl ⟨h.adder, h.added⟩)
  refine ⟨⟨Nat.lt_of_lt_of_le h.lt k.created, ?_, ?_, ?_, ?_⟩, ?_⟩
  · rw [hw]; exact h.adder
  · rw [hw]; exact h.added
  · rw [hw]; exact h.pos_eq
  · rw [hw]; exact h.cnt_eq
  · intro i; rw [hw]; rfl

theorem Freeing.keep (h : Freeing s y b) (k : Keeps s s' x) (hy : y ≠ x) : Freeing s' y b ∧
    (s'.batch b).deleted = (s.batch b).deleted ∧ (s'.batch b).refs = (s.batch b).refs ∧
    ∀ i, (s'.batch b).ptr i = (s.batch b).ptr i := by
  obtain ⟨w, hw⟩ := k.batch b h.lt y hy (Or.inr ⟨h.freer, h.freed⟩)
  refine ⟨⟨Nat.lt_of_lt_of_le h.lt k.created, ?_, ?_, ?_⟩, ?_, ?_, ?_⟩
  · rw [hw]; exact h.freer
  · rw [hw]; exact h.freed
  · rw [hw]; exact h.left
  · rw [hw]
  · rw [hw]
  · intro i; rw [hw]; rfl

theorem FrameInv.keep {f : Frame} (h : FrameInv n s y f) (k : Keeps s s' x) (hy : y ≠ x) :
    FrameInv n s' y f := by
  cases f with
  | guard => trivial
  | addBatch b curr cnt i =>
    obtain ⟨ha, hc⟩ := h
    obtain ⟨ha', hptr⟩ := ha.keep k hy
    exact ⟨ha', by rw [hptr]; exact hc⟩
  | setNext b curr cnt i prev =>
    obtain ⟨ha, hc, hrest⟩ := h
    obtain ⟨ha', hptr⟩ := ha.keep k hy
    exact ⟨ha', by rw [hptr]; exact hc, hrest⟩
  | push b curr cnt i prev =>
    obtain ⟨ha, hc, hi, hp, a, nd, hca, hm, hb, hnext⟩ := h
    obtain ⟨ha', hptr⟩ := ha.keep k hy
    subst hb
    obtain ⟨nd', hm', hb', hnext'⟩ := k.next a nd hm ha.lt (by rw [ha.adder]; exact hy) ha.added
    exact ⟨ha', by rw [hptr]; exact hc, hi, hp, a, nd', hca, hm', hb', hnext'.trans hnext⟩
  | advance b curr cnt i =>
    obtain ⟨ha, hc, hi⟩ := h
    obtain ⟨ha', hptr⟩ := ha.keep k hy
    exact ⟨ha', by rw [hptr]; exact hc, hi⟩
  | freeStart b refs =>
    obtain ⟨hf, hd, hr⟩ := h
    obtain ⟨hf', hd', hr', hptr⟩ := hf.keep k hy
    exact ⟨hf', hd'.trans hd, by rw [hr']; exact hr⟩
  | freeNode b p =>
    obtain ⟨hf, hp⟩ := h
    obtain ⟨hf', hd', hr', hptr⟩ := hf.keep k hy
    exact ⟨hf', by rw [hd', hptr]; exact hp⟩
  | callback b node p =>
    obtain ⟨hf, hnode, hp⟩ := h
    obtain ⟨hf', hd', hr', hptr⟩ := hf.keep k hy
    exact ⟨hf', by rw [hd', hptr]; exact hnode, by rw [hd', hptr]; exact hp⟩

theorem StackInv.keep {fs : List Frame} (h : StackInv n s t fs) (k : Keeps s s' x)
    (hx : ∀ d < fs.length, (t, d) ≠ x) : StackInv n s' t fs := by
  induction fs with
  | nil => trivial
  | cons f fs ih =>
    refine ⟨h.1.keep k (hx _ (by simp)), ih h.2 ?_⟩
    intro d hd
    exact hx d (by simp; omega)

/-- The thread `t` replaces the frame on top of `fs` by `gs`. -/
theorem Inv.frames_of (i : Inv n s) {fs gs : List Frame} {f : Frame} (k : Keeps s s' (t, fs.length))
    (hfs : s.stack t = f :: fs) (hstack : s'.stack = Function.update s.stack t gs)
    (hgs : StackInv n s' t fs → StackInv n s' t gs) : ∀ u, StackInv n s' u (s'.stack u) := by
  intro u
  rw [hstack]
  by_cases hu : u = t
  · subst hu
    rw [Function.update_self]
    have h := i.frames u
    rw [hfs] at h
    refine hgs (h.2.keep k ?_)
    intro d hd he
    cases he
    exact absurd hd (Nat.lt_irrefl _)
  · rw [Function.update_of_ne hu]
    refine (i.frames u).keep k ?_
    intro d _ he
    cases he
    exact hu rfl

/-- A batch the step does not write to. -/
theorem BatchInv.keep (h : BatchInv n s b) (hB : s'.batch b = s.batch b)
    (hmem : ∀ j a, (s.batch b).deleted ≤ j → (s.batch b).nodes[j]? = some a →
      ∀ nd, s.mem a = some nd → ∃ nx, s'.mem a = some { nd with next := nx })
    (hbegun : ∀ t ∈ (s.batch b).waiting, s'.begun t = s.begun t)
    (hchain : ∀ t ∈ (s.batch b).waiting, ∀ a ∈ s.chain t, (s.batch b).slots[t]? = some a →
      a ∈ s'.chain t)
    (hle : ∀ t, s.begun t ≤ s'.begun t)
    (hin : ∀ r ∈ (s.batch b).present, s'.InSection r → s.InSection r) : BatchInv n s' b where
  nodup := by rw [hB]; exact h.nodup
  enough := by rw [hB]; exact h.enough
  layout := by
    rw [hB]
    intro j a hj ha
    obtain ⟨nx, hm⟩ := h.layout j a hj ha
    exact hmem j a hj ha _ hm
  pos_le := by rw [hB]; exact h.pos_le
  complete := by rw [hB]; exact h.complete
  received_lt := by rw [hB]; exact h.received_lt
  received_card := by rw [hB]; exact h.received_card
  waiting := by
    rw [hB]
    intro t ht
    obtain ⟨hr, a, ha, hs⟩ := h.waiting t ht
    exact ⟨by rw [hbegun t ht]; exact hr, a, hchain t ht a ha hs, hs⟩
  frees := by rw [hB]; exact h.frees
  kept := by rw [hB]; exact h.kept
  present_le := by
    rw [hB]
    intro r hr
    exact ⟨(h.present_le r hr).1, Nat.le_trans (h.present_le r hr).2 (hle _)⟩
  present := by
    rw [hB]
    intro r hr hs
    exact h.present r hr (hin r hr hs)

/-- A thread that neither acts nor receives a node. -/
theorem SectionInv.keep {c : Section} (h : SectionInv s t c) (hr : s'.rsrv t = s.rsrv t)
    (hchain : s'.chain t = s.chain t) (hbegun : s'.begun t = s.begun t)
    (hended : s'.ended t = s.ended t)
    (hmem : ∀ a ∈ s.chain t, ∀ nd, s.mem a = some nd → ∃ nd', s'.mem a = some nd' ∧ nd'.next = nd.next)
    (hholds : ∀ b a, a ∈ s.chain t → s.Holds t b a → s'.Holds t b a ∧ (s'.batch b).refs = (s.batch b).refs) :
    SectionInv s' t c := by
  cases c with
  | outside =>
    obtain ⟨h1, h2, h3⟩ := h
    exact ⟨by rw [hr]; exact h1, by rw [hchain]; exact h2, by rw [hbegun, hended]; exact h3⟩
  | inside =>
    obtain ⟨h1, h2, h3⟩ := h
    refine ⟨by rw [hr]; exact h1, ?_, by rw [hbegun, hended]; exact h3⟩
    rw [hr, hchain]
    exact h2.of_mem hmem
  | traverse p =>
    obtain ⟨h1, h2, h3⟩ := h
    refine ⟨by rw [hr]; exact h1, ?_, by rw [hbegun, hended]; exact h3⟩
    rw [hchain]
    exact h2.of_mem hmem
  | readBlink curr p =>
    obtain ⟨h1, h2, a, l, hc, hl, hp⟩ := h
    refine ⟨by rw [hr]; exact h1, by rw [hbegun, hended]; exact h2, a, l, hc, by rw [hchain]; exact hl, ?_⟩
    refine hp.of_mem fun c hc => hmem c ?_
    rw [hl]
    exact List.mem_cons_of_mem _ hc
  | release refs p =>
    obtain ⟨h1, h2, b, a, l, hrefs, hl, hp, hh⟩ := h
    obtain ⟨hh', hrefs'⟩ := hholds b a (by rw [hl]; exact List.mem_cons_self) hh
    refine ⟨by rw [hr]; exact h1, by rw [hbegun, hended]; exact h2, b, a, l, ?_, by rw [hchain]; exact hl,
      ?_, hh'⟩
    · rw [hrefs']; exact hrefs
    · refine hp.of_mem fun c hc => hmem c ?_
      rw [hl]
      exact List.mem_cons_of_mem _ hc

end Keep

/-! ## Steps of a call that write no shared memory -/

section Calls
variable {n : Nat} {s : State} {t b k a : Nat} {fs gs : List Frame} {f : Frame}

theorem Keeps.setStack (x : Nat × Nat) : Keeps s (s.setStack t gs) x where
  created := Nat.le_refl _
  batch := fun b _ _ _ _ => ⟨(s.batch b).waiting, rfl⟩
  next := fun _ nd hm _ _ _ => ⟨nd, hm, rfl, rfl⟩

theorem Inv.setStack (i : Inv n s) (hfs : s.stack t = f :: fs)
    (hgs : StackInv n (s.setStack t gs) t fs → StackInv n (s.setStack t gs) t gs) :
    Inv n (s.setStack t gs) where
  fault := i.fault
  batches := by
    intro b hb
    refine (i.batches b hb).keep rfl (fun _ _ _ _ nd h => ⟨nd.next, h⟩) (fun _ _ => rfl)
      (fun _ _ _ h _ => h) (fun _ => Nat.le_refl _) (fun _ _ h => h)
  nodup := i.nodup
  holds := i.holds
  sections := fun u => (i.sections u).keep rfl rfl rfl rfl (fun _ _ nd h => ⟨nd, h, rfl⟩)
    (fun _ _ _ h => ⟨h, rfl⟩)
  frames := i.frames_of (Keeps.setStack _) hfs rfl hgs

theorem Inv.top (i : Inv n s) (hfs : s.stack t = f :: fs) :
    FrameInv n s (t, fs.length) f := by
  have h := i.frames t
  rw [hfs] at h
  exact h.1

/-- `add_batch` finds the list of thread `j` in a section. -/
theorem Inv.loaded {curr : Ptr} {cnt : Int} {j : Nat} (i : Inv n s)
    (hfs : s.stack t = .addBatch b curr cnt j :: fs) (hj : j < n) (hr : s.rsrv j ≠ .inv) :
    Inv n (s.setStack t (.setNext b curr cnt j (s.rsrv j) :: fs)) := by
  obtain ⟨ha, hc⟩ := i.top hfs
  refine i.setStack hfs fun h => ⟨⟨⟨ha.lt, ha.adder, ha.added, ha.pos_eq, ha.cnt_eq⟩, hc, hj, hr⟩, h⟩

theorem Inv.retry {curr : Ptr} {cnt : Int} {j : Nat} {prev : Ptr} (i : Inv n s)
    (hfs : s.stack t = .push b curr cnt j prev :: fs) :
    Inv n (s.setStack t (.addBatch b curr cnt j :: fs)) := by
  obtain ⟨ha, hc, -⟩ := i.top hfs
  exact i.setStack hfs fun h => ⟨⟨⟨ha.lt, ha.adder, ha.added, ha.pos_eq, ha.cnt_eq⟩, hc⟩, h⟩

/-- The node that `add_batch` is at is a SLOT node of its batch. -/
theorem Inv.slot_live {pos j : Nat} {cnt : Int} {x : Nat × Nat} (i : Inv n s)
    (ha : Adding s x b pos cnt) (hj : j < n) : ∃ a nx, (s.batch b).slots[j]? = some a ∧
      (s.batch b).ptr j = .node a ∧
      s.live (.node a) = some (a, ⟨b, .bnext ((s.batch b).ptr (j + 1)), nx, .node (s.batch b).refs⟩) ∧
      s.mem a = some ⟨b, .bnext ((s.batch b).ptr (j + 1)), nx, .node (s.batch b).refs⟩ := by
  have hb := i.batches b ha.lt
  have hlt : j < (s.batch b).slots.length := Nat.lt_of_lt_of_le hj hb.enough
  obtain ⟨a, hs⟩ := Batch.exists_slot hlt
  have hnode := Batch.nodes_slot hs
  obtain ⟨nx, hlive, hmem⟩ := hb.live (hb.frees_eq_zero (t := 0) (Or.inl ha.added)) hnode
  simp only [Batch.linkAt, Batch.blinkAt, if_pos hlt] at hlive hmem
  exact ⟨a, nx, hs, Batch.ptr_of_getElem? hnode, hlive, hmem⟩

theorem Inv.advanced {curr : Ptr} {cnt : Int} {j : Nat} (i : Inv n s)
    (hfs : s.stack t = .advance b curr cnt j :: fs) :
    ∃ r nd p, s.live curr = some (r, nd) ∧ nd.link = .bnext p ∧
      Inv n (s.setStack t (.addBatch b p cnt (j + 1) :: fs)) := by
  obtain ⟨ha, hc, hj⟩ := i.top hfs
  obtain ⟨a, nx, -, hptr, hlive, -⟩ := i.slot_live ha hj
  rw [← hptr, ← hc] at hlive
  refine ⟨a, _, _, hlive, rfl, ?_⟩
  exact i.setStack hfs fun h => ⟨⟨⟨ha.lt, ha.adder, ha.added, ha.pos_eq, ha.cnt_eq⟩, rfl⟩, h⟩

theorem Inv.freeStarted {refs : Ptr} (i : Inv n s) (hfs : s.stack t = .freeStart b refs :: fs) :
    ∃ r nd, s.get refs = some (r, nd) ∧ Inv n (s.setStack t (.freeNode b nd.blink :: fs)) := by
  obtain ⟨hf, hd, hr⟩ := i.top hfs
  have hb := i.batches b hf.lt
  obtain ⟨nx, hget⟩ := hb.get (k := (s.batch b).slots.length) hf.left (s.batch b).nodes_refs
  rw [← hr] at hget
  refine ⟨_, _, hget, ?_⟩
  refine i.setStack hfs fun h => ⟨⟨⟨hf.lt, hf.freer, hf.freed, hf.left⟩, ?_⟩, h⟩
  show (s.batch b).blinkAt _ = (s.batch b).ptr (s.batch b).deleted
  rw [hd]
  simp [Batch.blinkAt]

/-- In a batch being freed the counter is zero, which `bnext` reads as the end. -/
theorem BatchInv.refc_of_freed (hb : BatchInv n s b) (hf : (s.batch b).frees = 1) :
    (s.batch b).refc = 0 := by
  have h := hb.frees
  rw [hf] at h
  split at h
  · rename_i hc
    simp [Batch.refc, hc.1, hc.2]
  · cases h

theorem Inv.freedNode {p : Ptr} (i : Inv n s) (hfs : s.stack t = .freeNode b p :: fs) :
    ∃ q, ((s.get p).bind fun x => x.2.link.asBnext) = some q ∧
      Inv n (s.setStack t (.callback b p q :: fs)) := by
  obtain ⟨hf, hp⟩ := i.top hfs
  have hb := i.batches b hf.lt
  have hlt : (s.batch b).deleted < (s.batch b).nodes.length := by
    have := hf.left
    simp only [Batch.nodes, List.length_append, List.length_singleton]
    omega
  have ha := List.getElem?_eq_getElem hlt
  obtain ⟨nx, hget⟩ := hb.get (Nat.le_refl _) ha
  rw [← Batch.ptr_of_getElem? ha, ← hp] at hget
  refine ⟨(s.batch b).ptr ((s.batch b).deleted + 1), ?_, ?_⟩
  · rw [hget]
    simp only [Option.bind_some, Batch.linkAt]
    split
    · rfl
    · rename_i hge
      have heq : (s.batch b).deleted = (s.batch b).slots.length := by have := hf.left; omega
      simp only [Link.asBnext, hb.refc_of_freed hf.freed, if_true]
      simp [Batch.ptr, Batch.nodes, heq]
  · exact i.setStack hfs fun h => ⟨⟨⟨hf.lt, hf.freer, hf.freed, hf.left⟩, hp, rfl⟩, h⟩

end Calls

/-! ## Sections and `traverse` -/

section Sections
variable {n : Nat} {s : State} {t b a : Nat} {fs : List Frame}

/-- A node that a thread holds, in memory. -/
theorem Inv.held (i : Inv n s) (h : s.Holds t b a) : ∃ nx,
    s.live (.node a) = some (a, ⟨b, .bnext ((s.batch b).ptr (t + 1)), nx, .node (s.batch b).refs⟩) ∧
    s.mem a = some ⟨b, .bnext ((s.batch b).ptr (t + 1)), nx, .node (s.batch b).refs⟩ := by
  obtain ⟨hlt, hw, hs⟩ := h
  have hb := i.batches b hlt
  obtain ⟨nx, hlive, hmem⟩ := hb.live (hb.frees_eq_zero (Or.inr hw)) (Batch.nodes_slot hs)
  have hk : t < (s.batch b).slots.length := (List.getElem?_eq_some_iff.mp hs).1
  simp only [Batch.linkAt, Batch.blinkAt, if_pos hk] at hlive hmem
  exact ⟨nx, hlive, hmem⟩

/-- A node is held for one batch. -/
theorem Inv.holds_unique {u c : Nat} (i : Inv n s) (h : s.Holds t b a) (h' : s.Holds u c a) :
    b = c ∧ t = u := by
  have hb := i.batches b h.1
  have hc := i.batches c h'.1
  refine hb.unique hc ?_ ?_ (Batch.nodes_slot h.2.2) (Batch.nodes_slot h'.2.2)
  · rw [hb.kept (hb.frees_eq_zero (Or.inr h.2.1))]; exact Nat.zero_le _
  · rw [hc.kept (hc.frees_eq_zero (Or.inr h'.2.1))]; exact Nat.zero_le _

theorem Inv.begin (i : Inv n s) (t : Nat) : Inv n (s.begin t) := by
  unfold State.begin
  split
  case isFalse => exact i
  rename_i hout
  have hsec := i.sections t
  rw [hout] at hsec
  obtain ⟨hr, hchain, hbe⟩ := hsec
  have hne : ∀ b < s.created, ∀ u ∈ (s.batch b).waiting, u ≠ t := by
    intro b hb u hu he
    obtain ⟨-, a, ha, -⟩ := (i.batches b hb).waiting u hu
    rw [he, hchain] at ha
    cases ha
  have hk : Keeps s { (s.setSec t .inside).setStack t (.guard :: s.stack t) with
      rsrv := Function.update s.rsrv t .null
      begun := Function.update s.begun t (s.begun t + 1) } (t, (s.stack t).length) :=
    ⟨Nat.le_refl _, fun b _ _ _ _ => ⟨(s.batch b).waiting, rfl⟩, fun _ nd hm _ _ _ => ⟨nd, hm, rfl, rfl⟩⟩
  refine ⟨i.fault, ?_, i.nodup, i.holds, ?_, ?_⟩
  · intro b hb
    refine (i.batches b hb).keep rfl (fun _ _ _ _ nd h => ⟨nd.next, h⟩) ?_ (fun _ _ _ h _ => h) ?_ ?_
    · intro u hu
      exact Function.update_of_ne (hne b hb u hu) _ _
    · intro u
      by_cases hu : u = t
      · subst hu
        simp only [Function.update_self]
        omega
      · simp only [Function.update_of_ne hu]
        exact Nat.le_refl _
    · -- the section that begins is newer than every section recorded
      intro r hr' hin
      obtain ⟨h1, h2⟩ := hin
      by_cases hu : r.1 = t
      · have hle := ((i.batches b hb).present_le r hr').2
        simp only [hu, Function.update_self] at h2
        rw [hu] at hle
        omega
      · simp only [Function.update_of_ne hu] at h1 h2
        exact ⟨h1, h2⟩
  · intro u
    by_cases hu : u = t
    · subst hu
      simp only [State.setSec, State.setStack, Function.update_self]
      refine ⟨?_, ?_, ?_⟩
      · simp
      · simp only [Function.update_self, hchain]
        rfl
      · simp only [Function.update_self]
        omega
    · simp only [State.setSec, State.setStack, Function.update_of_ne hu]
      exact (i.sections u).keep (Function.update_of_ne hu _ _) rfl (Function.update_of_ne hu _ _) rfl
        (fun _ _ nd h => ⟨nd, h, rfl⟩) (fun _ _ _ h => ⟨h, rfl⟩)
  · intro u
    by_cases hu : u = t
    · subst hu
      simp only [State.setSec, State.setStack, Function.update_self]
      refine ⟨trivial, (i.frames u).keep hk ?_⟩
      intro d hd he
      cases he
      exact absurd hd (Nat.lt_irrefl _)
    · simp only [State.setSec, State.setStack, Function.update_of_ne hu]
      refine (i.frames u).keep hk ?_
      intro d _ he
      cases he
      exact hu rfl

/-- A step of thread `t` that only changes its section's state. -/
theorem Inv.setSec {c : Section} (i : Inv n s)
    (h : SectionInv (s.setSec t c) t c) : Inv n (s.setSec t c) where
  fault := i.fault
  batches := by
    intro b hb
    refine (i.batches b hb).keep rfl (fun _ _ _ _ nd h => ⟨nd.next, h⟩) (fun _ _ => rfl)
      (fun _ _ _ h _ => h) (fun _ => Nat.le_refl _) (fun _ _ h => h)
  nodup := i.nodup
  holds := i.holds
  sections := by
    intro u
    by_cases hu : u = t
    · subst hu
      simp only [State.setSec, Function.update_self]
      exact h
    · simp only [State.setSec, Function.update_of_ne hu]
      exact (i.sections u).keep rfl rfl rfl rfl (fun _ _ nd h => ⟨nd, h, rfl⟩)
        (fun _ _ _ h => ⟨h, rfl⟩)
  frames := by
    intro u
    refine (i.frames u).keep (x := (t, (s.stack u).length)) ?_ ?_
    · exact ⟨Nat.le_refl _, fun b _ _ _ _ => ⟨(s.batch b).waiting, rfl⟩,
        fun _ nd hm _ _ _ => ⟨nd, hm, rfl, rfl⟩⟩
    · intro d hd he
      cases he
      exact absurd hd (Nat.lt_irrefl _)

theorem Inv.end_ (i : Inv n s) (hin : s.sec t = .inside) : Inv n (s.end_ t) := by
  have hsec := i.sections t
  rw [hin] at hsec
  obtain ⟨hr, hl, hbe⟩ := hsec
  have hk : ∀ x, Keeps s (s.end_ t) x := fun x =>
    ⟨Nat.le_refl _, fun b _ _ _ _ => ⟨(s.batch b).waiting, rfl⟩, fun _ nd hm _ _ _ => ⟨nd, hm, rfl, rfl⟩⟩
  refine ⟨i.fault, ?_, i.nodup, i.holds, ?_, ?_⟩
  · intro b hb
    refine (i.batches b hb).keep rfl (fun _ _ _ _ nd h => ⟨nd.next, h⟩) (fun _ _ => rfl)
      (fun _ _ _ h _ => h) (fun _ => Nat.le_refl _) ?_
    intro r _ h
    obtain ⟨h1, h2⟩ := h
    by_cases hu : r.1 = t
    · simp only [State.end_, hu, Function.update_self] at h1
      exact absurd rfl h1
    · simp only [State.end_, Function.update_of_ne hu] at h1
      exact ⟨h1, h2⟩
  · intro u
    by_cases hu : u = t
    · subst hu
      simp only [State.end_, State.setSec, Function.update_self]
      exact ⟨Function.update_self _ _ _, hl, hbe⟩
    · simp only [State.end_, State.setSec, Function.update_of_ne hu]
      exact (i.sections u).keep (Function.update_of_ne hu _ _) rfl rfl rfl
        (fun _ _ nd h => ⟨nd, h, rfl⟩) (fun _ _ _ h => ⟨h, rfl⟩)
  · intro u
    refine (i.frames u).keep (hk (t, (s.stack u).length)) ?_
    intro d hd he
    cases he
    exact absurd hd (Nat.lt_irrefl _)

theorem Inv.traversed (i : Inv n s) (hfs : s.stack t = .guard :: fs) (hs : s.sec t = .traverse .null) :
    Inv n { (s.setSec t .outside).setStack t fs with
      ended := Function.update s.ended t (s.ended t + 1) } := by
  have hsec := i.sections t
  rw [hs] at hsec
  obtain ⟨hr, hl, hbe⟩ := hsec
  have hchain : s.chain t = [] := by
    cases hc : s.chain t with
    | nil => rfl
    | cons a l =>
      rw [hc] at hl
      exact absurd hl.1 (by simp)
  refine ⟨i.fault, ?_, i.nodup, i.holds, ?_, ?_⟩
  · intro b hb
    exact (i.batches b hb).keep rfl (fun _ _ _ _ nd h => ⟨nd.next, h⟩) (fun _ _ => rfl)
      (fun _ _ _ h _ => h) (fun _ => Nat.le_refl _) (fun _ _ h => h)
  · intro u
    by_cases hu : u = t
    · subst hu
      simp only [State.setSec, State.setStack, Function.update_self]
      refine ⟨hr, hchain, ?_⟩
      simp only [Function.update_self]
      exact hbe
    · simp only [State.setSec, State.setStack, Function.update_of_ne hu]
      exact (i.sections u).keep rfl rfl rfl (Function.update_of_ne hu _ _)
        (fun _ _ nd h => ⟨nd, h, rfl⟩) (fun _ _ _ h => ⟨h, rfl⟩)
  · refine i.frames_of ⟨Nat.le_refl _, fun b _ _ _ _ => ⟨(s.batch b).waiting, rfl⟩,
      fun _ nd hm _ _ _ => ⟨nd, hm, rfl, rfl⟩⟩ hfs rfl id

theorem Inv.readNext {curr : Ptr} (i : Inv n s) (hs : s.sec t = .traverse curr) (hc : curr ≠ .null) :
    ∃ r nd, s.live curr = some (r, nd) ∧ Inv n (s.setSec t (.readBlink curr nd.next)) := by
  have hsec := i.sections t
  rw [hs] at hsec
  obtain ⟨hr, hl, hbe⟩ := hsec
  cases hch : s.chain t with
  | nil => rw [hch] at hl; exact absurd hl hc
  | cons a l =>
    rw [hch] at hl
    obtain ⟨rfl, nd, hm, hl⟩ := hl
    obtain ⟨b, hh⟩ := i.holds t a (by rw [hch]; exact List.mem_cons_self)
    obtain ⟨nx, hlive, hm'⟩ := i.held hh
    rw [hm] at hm'
    cases hm'
    exact ⟨_, _, hlive, i.setSec ⟨hr, hbe, a, l, rfl, hch, hl⟩⟩

theorem Inv.readBlink {curr p : Ptr} (i : Inv n s) (hs : s.sec t = .readBlink curr p) :
    ∃ r nd, s.live curr = some (r, nd) ∧ Inv n (s.setSec t (.release nd.blink p)) := by
  have hsec := i.sections t
  rw [hs] at hsec
  obtain ⟨hr, hbe, a, l, rfl, hch, hl⟩ := hsec
  obtain ⟨b, hh⟩ := i.holds t a (by rw [hch]; exact List.mem_cons_self)
  obtain ⟨nx, hlive, hm⟩ := i.held hh
  exact ⟨_, _, hlive, i.setSec ⟨hr, hbe, b, a, l, rfl, hch, hl, hh⟩⟩

end Sections

/-! ## Steps that write a batch -/

section Writes
variable {n : Nat} {s : State} {t b k a : Nat} {fs : List Frame}

/-- A node of one batch is no node of another. -/
theorem Inv.node_ne {c j a' : Nat} (i : Inv n s) (hb : b < s.created) (hc : c < s.created) (hne : c ≠ b)
    (hk : (s.batch b).deleted ≤ k) (ha : (s.batch b).nodes[k]? = some a)
    (hj : (s.batch c).deleted ≤ j) (ha' : (s.batch c).nodes[j]? = some a') : a' ≠ a := by
  rintro rfl
  exact hne ((i.batches c hc).unique (i.batches b hb) hj hk ha' ha).1

/-- A node that a thread holds is the thread's own SLOT node of a batch it waits for. -/
theorem Inv.chain_ne {u a' : Nat} (i : Inv n s) (hb : b < s.created) (hk : (s.batch b).deleted ≤ k)
    (ha : (s.batch b).nodes[k]? = some a) (hu : k = u → u ∉ (s.batch b).waiting)
    (ha' : a' ∈ s.chain u) : a' ≠ a := by
  rintro rfl
  obtain ⟨c, hc, hw, hs⟩ := i.holds u a' ha'
  have hbc := i.batches c hc
  have hdel : (s.batch c).deleted ≤ u := by
    rw [hbc.kept (hbc.frees_eq_zero (Or.inr hw))]
    exact Nat.zero_le _
  obtain ⟨rfl, rfl⟩ := hbc.unique (i.batches b hb) hdel hk (Batch.nodes_slot hs) ha
  exact hu rfl hw

/-- One unit of a batch's counter, released: the counter reaches zero exactly when the
batch has been added and this thread is the last to hold one of its nodes. -/
theorem BatchInv.refc_eq_one (hn : n ≤ 2 ^ 31) (hb : BatchInv n s b) (hw : t ∈ (s.batch b).waiting) :
    (s.batch b).refc = 1 ↔ (s.batch b).added = true ∧ (s.batch b).waiting.erase t = ∅ := by
  have hcard := Finset.card_erase_of_mem hw
  have hpos : 0 < (s.batch b).waiting.card := Finset.card_pos.mpr ⟨t, hw⟩
  have hrec := hb.received_card
  have hle := hb.pos_le
  rw [← Finset.card_eq_zero, hcard]
  unfold Batch.refc
  cases hadd : (s.batch b).added
  · simp only [Bool.false_eq_true, if_false, false_and, iff_false, refcProtect]
    omega
  · simp only [if_true, true_and]
    omega

/-- `refs->refc.fetch_add(-1)` in `traverse`. -/
theorem Inv.release (hn : n ≤ 2 ^ 31) (i : Inv n s) {c : Section} {nx : Ptr} {l : List Nat}
    {g : Nat → List Frame} {x : Nat × Nat} {F : Nat}
    (hr : s.rsrv t = .inv) (hbe : s.begun t = s.ended t + 1)
    (hh : s.Holds t b a) (hch : s.chain t = a :: l)
    (hmem : s.mem (s.batch b).refs = some ⟨b, .refc (s.batch b).refc, nx, (s.batch b).ptr 0⟩)
    (hF : F = if (s.batch b).refc = 1 then 1 else 0)
    (hsec : ∃ p, c = .traverse p ∧ Linked s.mem p l)
    (hstk : ∀ s' : State, s'.created = s.created →
      (∀ d ≠ b, s'.batch d = s.batch d) →
      s'.batch b = { s.batch b with waiting := (s.batch b).waiting.erase t, frees := F, freer := x } →
      (∀ a nd, s.mem a = some nd → ∃ nd', s'.mem a = some nd' ∧ nd'.batch = nd.batch ∧ nd'.next = nd.next) →
      s'.stack = g → ∀ u, StackInv n s' u (s'.stack u)) :
    Inv n { s with
      sec := Function.update s.sec t c
      mem := Function.update s.mem (s.batch b).refs
        (some ⟨b, .refc ((s.batch b).refc - 1), nx, (s.batch b).ptr 0⟩)
      batch := Function.update s.batch b
        { s.batch b with waiting := (s.batch b).waiting.erase t, frees := F, freer := x }
      chain := Function.update s.chain t (s.chain t).tail
      stack := g } := by
  have hb := i.batches b hh.1
  have hf0 : (s.batch b).frees = 0 := hb.frees_eq_zero (Or.inr hh.2.1)
  have hd0 := hb.kept hf0
  have hrefs := (s.batch b).nodes_refs
  have htl : t < (s.batch b).slots.length := (List.getElem?_eq_some_iff.mp hh.2.2).1
  have hnext : ∀ a' nd, s.mem a' = some nd → ∃ nd', Function.update s.mem (s.batch b).refs
      (some ⟨b, .refc ((s.batch b).refc - 1), nx, (s.batch b).ptr 0⟩) a' = some nd' ∧
        nd'.batch = nd.batch ∧ nd'.next = nd.next := by
    intro a' nd hnd
    by_cases he : a' = (s.batch b).refs
    · subst he
      rw [hmem] at hnd
      cases hnd
      exact ⟨_, Function.update_self _ _ _, rfl, rfl⟩
    · exact ⟨nd, by rw [Function.update_of_ne he]; exact hnd, rfl, rfl⟩
  refine ⟨i.fault, ?_, ?_, ?_, ?_, ?_⟩
  · intro d hd
    by_cases hdb : d = b
    · subst hdb
      have hrefc : ({ s.batch d with
          waiting := (s.batch d).waiting.erase t, frees := F, freer := x } : Batch).refc =
          (s.batch d).refc - 1 := by
        have hpos : 0 < (s.batch d).waiting.card := Finset.card_pos.mpr ⟨t, hh.2.1⟩
        simp only [Batch.refc, Finset.card_erase_of_mem hh.2.1]
        omega
      refine ⟨?_, ?_, ?_, ?_, ?_, ?_, ?_, ?_, ?_, ?_, ?_, ?_⟩ <;> simp only [Function.update_self]
      · exact hb.nodup
      · exact hb.enough
      · intro j a' hj ha'
        have ha' : (s.batch d).nodes[j]? = some a' := ha'
        obtain ⟨nx', hm⟩ := hb.layout j a' hj ha'
        by_cases hjr : j < (s.batch d).slots.length
        · have hne : a' ≠ (s.batch d).refs := by
            rintro rfl
            have := (hb.unique hb hj (by omega) ha' hrefs).2
            omega
          refine ⟨nx', ?_⟩
          rw [Function.update_of_ne hne, hm]
          simp only [Batch.linkAt, Batch.blinkAt, if_pos hjr]
          rfl
        · have hjl : j < (s.batch d).nodes.length := (List.getElem?_eq_some_iff.mp ha').1
          have hje : j = (s.batch d).slots.length := by
            simp only [Batch.nodes, List.length_append, List.length_singleton] at hjl
            omega
          subst hje
          rw [hrefs] at ha'
          cases ha'
          refine ⟨nx, ?_⟩
          rw [Function.update_self]
          simp only [Batch.linkAt, Batch.blinkAt, Nat.lt_irrefl, if_false, hrefc]
          rfl
      · exact hb.pos_le
      · exact hb.complete
      · exact hb.received_lt
      · exact hb.received_card
      · intro u hu
        obtain ⟨hut, hu⟩ := Finset.mem_erase.mp hu
        obtain ⟨h1, a', h2, h3⟩ := hb.waiting u hu
        refine ⟨h1, a', ?_, h3⟩
        rw [Function.update_of_ne hut]
        exact h2
      · simp only [hF, hb.refc_eq_one hn hh.2.1]
      · intro _
        exact hd0
      · exact hb.present_le
      · intro r hr' hin
        have hin : s.InSection r := hin
        refine (hb.present r hr' hin).imp_right fun hw => Finset.mem_erase.mpr ⟨?_, hw⟩
        intro he
        exact hin.1 (he ▸ hr)
    · have hdI := i.batches d hd
      refine hdI.keep (Function.update_of_ne hdb _ _) ?_ (fun _ _ => rfl) ?_ (fun _ => Nat.le_refl _)
        (fun _ _ h => h)
      · intro j a' hj ha' nd hnd
        have hne := i.node_ne hh.1 hd hdb (by omega) hrefs hj ha'
        exact ⟨nd.next, by simp only [Function.update_of_ne hne]; exact hnd⟩
      · intro u hu a' ha' hs'
        by_cases hut : u = t
        · subst hut
          simp only [Function.update_self, hch, List.tail_cons]
          rw [hch] at ha'
          rcases List.mem_cons.mp ha' with rfl | ha'
          · exact absurd (i.holds_unique ⟨hd, hu, hs'⟩ hh).1 hdb
          · exact ha'
        · simp only [Function.update_of_ne hut]
          exact ha'
  · intro u
    by_cases hut : u = t
    · subst hut
      simp only [Function.update_self]
      exact (i.nodup u).tail
    · simp only [Function.update_of_ne hut]
      exact i.nodup u
  · intro u a' ha'
    by_cases hut : u = t
    · subst hut
      simp only [Function.update_self, hch, List.tail_cons] at ha'
      obtain ⟨d, hd, hw, hs'⟩ := i.holds u a' (by rw [hch]; exact List.mem_cons_of_mem _ ha')
      have hdb : d ≠ b := by
        rintro rfl
        rw [hh.2.2] at hs'
        cases hs'
        have := i.nodup u
        rw [hch] at this
        exact (List.nodup_cons.mp this).1 ha'
      exact ⟨d, hd, by simp only [Function.update_of_ne hdb]; exact hw,
        by simp only [Function.update_of_ne hdb]; exact hs'⟩
    · simp only [Function.update_of_ne hut] at ha'
      obtain ⟨d, hd, hw, hs'⟩ := i.holds u a' ha'
      by_cases hdb : d = b
      · subst hdb
        exact ⟨d, hd, by simp only [Function.update_self]; exact Finset.mem_erase.mpr ⟨hut, hw⟩,
          by simp only [Function.update_self]; exact hs'⟩
      · exact ⟨d, hd, by simp only [Function.update_of_ne hdb]; exact hw,
          by simp only [Function.update_of_ne hdb]; exact hs'⟩
  · intro u
    by_cases hut : u = t
    · subst hut
      obtain ⟨p, rfl, hl⟩ := hsec
      simp only [Function.update_self]
      refine ⟨hr, ?_, hbe⟩
      simp only [Function.update_self, hch, List.tail_cons]
      exact hl.of_mem fun a' _ nd hnd => by
        obtain ⟨nd', h1, _, h2⟩ := hnext a' nd hnd
        exact ⟨nd', h1, h2⟩
    · simp only [Function.update_of_ne hut]
      refine (i.sections u).keep rfl (Function.update_of_ne hut _ _) rfl rfl ?_ ?_
      · intro a' _ nd hnd
        obtain ⟨nd', h1, _, h2⟩ := hnext a' nd hnd
        exact ⟨nd', h1, h2⟩
      · intro d a' _ hd
        by_cases hdb : d = b
        · subst hdb
          refine ⟨⟨hd.1, ?_, ?_⟩, ?_⟩ <;> simp only [Function.update_self]
          · exact Finset.mem_erase.mpr ⟨hut, hd.2.1⟩
          · exact hd.2.2
        · refine ⟨⟨hd.1, ?_, ?_⟩, ?_⟩ <;> simp only [Function.update_of_ne hdb]
          · exact hd.2.1
          · exact hd.2.2
  · exact hstk _ rfl (fun d hd => Function.update_of_ne hd _ _) (Function.update_self _ _ _) hnext rfl

/-- The step of `traverse` that releases a node, with the `free_batch` it may call. -/
theorem Inv.released (hn : n ≤ 2 ^ 31) (i : Inv n s) {refs p : Ptr} {s' : State}
    (hfs : s.stack t = .guard :: fs) (hs : s.sec t = .release refs p)
    (h : s.traverse t fs (.release refs p) = some s') : Inv n s' := by
  have hsec := i.sections t
  rw [hs] at hsec
  obtain ⟨hr, hbe, b, a, l, rfl, hch, hl, hh⟩ := hsec
  have hb := i.batches b hh.1
  have hf0 : (s.batch b).frees = 0 := hb.frees_eq_zero (Or.inr hh.2.1)
  obtain ⟨nx, hlive, hmem⟩ := hb.live hf0 (s.batch b).nodes_refs
  simp only [Batch.linkAt, Batch.blinkAt, Nat.lt_irrefl, if_false] at hlive hmem
  simp only [State.traverse, hlive] at h
  by_cases hv : (s.batch b).refc = 1
  · rw [if_pos hv] at h
    cases h
    have hi := i.release hn (x := (t, fs.length + 1)) (F := 1)
      (g := Function.update s.stack t (.freeStart b (.node (s.batch b).refs) :: .guard :: fs))
      hr hbe hh hch hmem (if_pos hv).symm ⟨p, rfl, hl⟩ ?_
    · simpa [State.callFree, State.setBatch, State.setStack, State.setSec, State.setMem, hf0] using hi
    · intro s' hc hne hB hm hstk u
      have hadd := ((hb.refc_eq_one hn hh.2.1).mp hv).1
      have hk : Keeps s s' (t, fs.length + 1) := by
        refine ⟨by rw [hc], ?_, fun a' nd hnd _ _ _ => hm a' nd hnd⟩
        intro d _ y hy hbusy
        by_cases hdb : d = b
        · subst hdb
          rcases hbusy with ⟨_, h2⟩ | ⟨_, h2⟩
          · rw [hadd] at h2; cases h2
          · rw [hf0] at h2; cases h2
        · exact ⟨(s.batch d).waiting, hne d hdb⟩
      rw [hstk]
      by_cases hut : u = t
      · subst hut
        rw [Function.update_self]
        have hold := i.frames u
        rw [hfs] at hold
        refine ⟨⟨⟨by rw [hc]; exact hh.1, by rw [hB]; rfl, by rw [hB], ?_⟩, ?_, by rw [hB]⟩, trivial,
          hold.2.keep hk ?_⟩
        · rw [hB]
          show (s.batch b).deleted ≤ _
          rw [hb.kept hf0]
          exact Nat.zero_le _
        · rw [hB]
          exact hb.kept hf0
        · intro d hd he
          cases he
          omega
      · rw [Function.update_of_ne hut]
        refine (i.frames u).keep hk ?_
        intro d _ he
        cases he
        exact hut rfl
  · rw [if_neg hv] at h
    cases h
    have hi := i.release hn (x := (s.batch b).freer) (F := 0) (g := s.stack)
      hr hbe hh hch hmem (if_neg hv).symm ⟨p, rfl, hl⟩ ?_
    · simpa [State.setBatch, State.setStack, State.setSec, State.setMem, ← hf0] using hi
    · intro s' hc hne hB hm hstk u
      rw [hstk]
      refine (i.frames u).keep (x := (u, (s.stack u).length)) ?_ ?_
      · refine ⟨by rw [hc], ?_, fun a' nd hnd _ _ _ => hm a' nd hnd⟩
        intro d _ y _ _
        by_cases hdb : d = b
        · subst hdb
          exact ⟨(s.batch d).waiting.erase t, by rw [hB, ← hf0]⟩
        · exact ⟨(s.batch d).waiting, hne d hdb⟩
      · intro d hd he
        cases he
        exact absurd hd (Nat.lt_irrefl _)

/-- `add_batch` skips a thread that is in no section. -/
theorem Inv.skipped {curr : Ptr} {cnt : Int} {j : Nat} (i : Inv n s)
    (hfs : s.stack t = .addBatch b curr cnt j :: fs) (hj : j < n) (hr : s.rsrv j = .inv) :
    Inv n ((s.setBatch b { s.batch b with pos := j + 1 }).setStack t (.advance b curr cnt j :: fs)) := by
  obtain ⟨ha, hc⟩ := i.top hfs
  have hb := i.batches b ha.lt
  have hpos := ha.pos_eq
  refine ⟨i.fault, ?_, i.nodup, ?_, ?_, ?_⟩
  · intro d hd
    by_cases hdb : d = b
    · subst hdb
      refine ⟨?_, ?_, ?_, ?_, ?_, ?_, ?_, ?_, ?_, ?_, ?_, ?_⟩ <;>
        simp only [State.setStack, State.setBatch, Function.update_self]
      · exact hb.nodup
      · exact hb.enough
      · exact hb.layout
      · exact hj
      · rw [ha.added]; intro h; cases h
      · intro r hr'
        have := hb.received_lt r hr'
        omega
      · have := hb.received_card
        omega
      · exact hb.waiting
      · exact hb.frees
      · exact hb.kept
      · exact hb.present_le
      · intro r hr' hin
        have hin : s.InSection r := hin
        rcases hb.present r hr' hin with h | h
        · left
          have hne : r.1 ≠ j := fun he => hin.1 (he ▸ hr)
          omega
        · exact Or.inr h
    · exact (i.batches d hd).keep (Function.update_of_ne hdb _ _) (fun _ _ _ _ nd h => ⟨nd.next, h⟩)
        (fun _ _ => rfl) (fun _ _ _ h _ => h) (fun _ => Nat.le_refl _) (fun _ _ h => h)
  · intro u a' ha'
    obtain ⟨d, hd⟩ := i.holds u a' ha'
    refine ⟨d, ?_⟩
    by_cases hdb : d = b
    · subst hdb
      exact ⟨hd.1, by simpa [State.setStack, State.setBatch] using hd.2⟩
    · exact ⟨hd.1, by simpa [State.setStack, State.setBatch, Function.update_of_ne hdb] using hd.2⟩
  · intro u
    refine (i.sections u).keep rfl rfl rfl rfl (fun _ _ nd h => ⟨nd, h, rfl⟩) ?_
    intro d a' _ hd
    by_cases hdb : d = b
    · subst hdb
      exact ⟨⟨hd.1, by simpa [State.setStack, State.setBatch] using hd.2⟩,
        by simp [State.setStack, State.setBatch]⟩
    · exact ⟨⟨hd.1, by simpa [State.setStack, State.setBatch, Function.update_of_ne hdb] using hd.2⟩,
        by simp [State.setStack, State.setBatch, Function.update_of_ne hdb]⟩
  · refine i.frames_of ⟨Nat.le_refl _, ?_, fun _ nd hm _ _ _ => ⟨nd, hm, rfl, rfl⟩⟩ hfs rfl ?_
    · intro d _ y hy hbusy
      by_cases hdb : d = b
      · subst hdb
        rcases hbusy with ⟨h1, _⟩ | ⟨_, h2⟩
        · exact absurd (h1.symm.trans ha.adder) hy
        · rw [hb.frees_eq_zero (t := 0) (Or.inl ha.added)] at h2; cases h2
      · exact ⟨(s.batch d).waiting, Function.update_of_ne hdb _ _⟩
    · intro h
      refine ⟨⟨⟨ha.lt, ?_, ?_, ?_, ?_⟩, ?_, hj⟩, h⟩ <;>
        simp only [State.setStack, State.setBatch, Function.update_self]
      · exact ha.adder
      · exact ha.added
      · exact ha.cnt_eq
      · exact hc

/-- The node `add_batch` is at is in no list yet. -/
theorem Adding.not_waiting {cnt : Int} {x : Nat × Nat} {j : Nat} (i : Inv n s) (ha : Adding s x b j cnt) :
    j ∉ (s.batch b).waiting := by
  intro hw
  have hb := i.batches b ha.lt
  have := hb.received_lt _ (hb.waiting j hw).1
  rw [ha.pos_eq] at this
  exact Nat.lt_irrefl _ this

/-- `curr->next = prev`. -/
theorem Inv.nextSet {curr prev : Ptr} {cnt : Int} {j : Nat} (i : Inv n s)
    (hfs : s.stack t = .setNext b curr cnt j prev :: fs) : ∃ a nd, s.live curr = some (a, nd) ∧
    Inv n ((s.setMem a (some { nd with next := prev })).setStack t (.push b curr cnt j prev :: fs)) := by
  obtain ⟨ha, hc, hj, hp⟩ := i.top hfs
  obtain ⟨a, nx, hslot, hptr, hlive, hmem⟩ := i.slot_live ha hj
  have hb := i.batches b ha.lt
  have hd0 := hb.kept (hb.frees_eq_zero (t := 0) (Or.inl ha.added))
  have hnode := Batch.nodes_slot hslot
  have hcurr : curr = .node a := hc.trans hptr
  have hch : ∀ u a', a' ∈ s.chain u → a' ≠ a := fun u a' ha' =>
    i.chain_ne ha.lt (by omega) hnode (fun he => he ▸ ha.not_waiting i) ha'
  refine ⟨a, _, hcurr ▸ hlive, i.fault, ?_, i.nodup, i.holds, ?_, ?_⟩
  · intro d hd
    refine (i.batches d hd).keep rfl ?_ (fun _ _ => rfl) (fun _ _ _ h _ => h) (fun _ => Nat.le_refl _)
      (fun _ _ h => h)
    intro k' a' _ _ nd hnd
    by_cases he : a' = a
    · subst he
      rw [hmem] at hnd
      cases hnd
      exact ⟨prev, by simp [State.setStack, State.setMem]⟩
    · exact ⟨nd.next, by simp [State.setStack, State.setMem, Function.update_of_ne he, hnd]⟩
  · intro u
    refine (i.sections u).keep rfl rfl rfl rfl ?_ (fun _ _ _ h => ⟨h, rfl⟩)
    intro a' ha' nd hnd
    exact ⟨nd, by simp [State.setStack, State.setMem, Function.update_of_ne (hch u a' ha'), hnd], rfl⟩
  · refine i.frames_of ⟨Nat.le_refl _, fun d _ _ _ _ => ⟨(s.batch d).waiting, rfl⟩, ?_⟩ hfs rfl ?_
    · intro a' nd hnd _ hne _
      have he : a' ≠ a := by
        rintro rfl
        rw [hmem] at hnd
        cases hnd
        exact hne ha.adder
      exact ⟨nd, by simp [State.setStack, State.setMem, Function.update_of_ne he, hnd], rfl, rfl⟩
    · intro h
      exact ⟨⟨⟨ha.lt, ha.adder, ha.added, ha.pos_eq, ha.cnt_eq⟩, hc, hj, hp, a,
        ⟨b, .bnext ((s.batch b).ptr (j + 1)), prev, .node (s.batch b).refs⟩, hcurr,
        Function.update_self _ _ _, rfl, rfl⟩, h⟩

/-- The insertion into the list of thread `j`. -/
theorem Inv.pushed {curr prev : Ptr} {cnt : Int} {j : Nat} (i : Inv n s)
    (hfs : s.stack t = .push b curr cnt j prev :: fs) (hcas : s.rsrv j = prev) :
    ∃ a nd, s.live curr = some (a, nd) ∧
    Inv n { (s.setBatch b { s.batch b with
        pos := j + 1
        received := insert (j, s.begun j) (s.batch b).received
        waiting := insert j (s.batch b).waiting }).setStack t (.advance b curr (cnt + 1) j :: fs) with
      rsrv := Function.update s.rsrv j curr
      chain := Function.update s.chain j (a :: s.chain j) } := by
  obtain ⟨ha, hc, hj, hp, a', nd, hca, hm, -, hnext⟩ := i.top hfs
  obtain ⟨a, nx, hslot, hptr, hlive, hmem⟩ := i.slot_live ha hj
  have hcurr : curr = .node a := hc.trans hptr
  obtain rfl : a = a' := by
    rw [hcurr] at hca
    exact Ptr.node.inj hca
  have hb := i.batches b ha.lt
  have hf0 := hb.frees_eq_zero (t := 0) (Or.inl ha.added)
  have hd0 := hb.kept hf0
  have hpos := ha.pos_eq
  have hnw := ha.not_waiting i
  have hch : a ∉ s.chain j := fun h =>
    i.chain_ne ha.lt (by omega) (Batch.nodes_slot hslot) (fun _ => hnw) h rfl
  have hnr : (j, s.begun j) ∉ (s.batch b).received := fun h => by
    have := hb.received_lt _ h
    simp only at this
    omega
  -- the list is not `invptr`, so its thread is in a section and has not begun to traverse
  have hin : s.sec j = .inside := by
    have hsec := i.sections j
    rw [← hcas] at hp
    cases hs : s.sec j <;> rw [hs] at hsec
    all_goals exact absurd hsec.1 hp
  have hholds : ∀ u d a', s.Holds u d a' → State.Holds { (s.setBatch b { s.batch b with
        pos := j + 1
        received := insert (j, s.begun j) (s.batch b).received
        waiting := insert j (s.batch b).waiting }).setStack t (.advance b curr (cnt + 1) j :: fs) with
      rsrv := Function.update s.rsrv j curr
      chain := Function.update s.chain j (a :: s.chain j) } u d a' := by
    intro u d a' hd
    by_cases hdb : d = b
    · subst hdb
      refine ⟨hd.1, ?_, ?_⟩ <;> simp only [State.setStack, State.setBatch, Function.update_self]
      · exact Finset.mem_insert_of_mem hd.2.1
      · exact hd.2.2
    · refine ⟨hd.1, ?_, ?_⟩ <;> simp only [State.setStack, State.setBatch, Function.update_of_ne hdb]
      · exact hd.2.1
      · exact hd.2.2
  have hInsec : ∀ r : Nat × Nat, Function.update s.rsrv j curr r.1 ≠ .inv → s.rsrv r.1 ≠ .inv := by
    intro r hr
    by_cases hu : r.1 = j
    · rw [hu, hcas]; exact hp
    · rwa [Function.update_of_ne hu] at hr
  refine ⟨a, _, hcurr ▸ hlive, i.fault, ?_, ?_, ?_, ?_, ?_⟩
  · intro d hd
    by_cases hdb : d = b
    · subst hdb
      have hrefc : ({ s.batch d with
          pos := j + 1
          received := insert (j, s.begun j) (s.batch d).received
          waiting := insert j (s.batch d).waiting } : Batch).refc = (s.batch d).refc := by
        simp only [Batch.refc, ha.added, Finset.card_insert_of_notMem hnw,
          Finset.card_insert_of_notMem hnr]
        simp
        omega
      refine ⟨?_, ?_, ?_, ?_, ?_, ?_, ?_, ?_, ?_, ?_, ?_, ?_⟩ <;>
        simp only [State.setStack, State.setBatch, Function.update_self]
      · exact hb.nodup
      · exact hb.enough
      · intro k' a' hk' ha'
        obtain ⟨nx', hm'⟩ := hb.layout k' a' hk' ha'
        refine ⟨nx', hm'.trans ?_⟩
        unfold Batch.linkAt
        rw [hrefc]
        rfl
      · exact hj
      · rw [ha.added]; intro h; cases h
      · intro r hr
        rcases Finset.mem_insert.mp hr with rfl | hr
        · exact Nat.lt_succ_self j
        · have := hb.received_lt r hr
          omega
      · rw [Finset.card_insert_of_notMem hnr]
        have := hb.received_card
        omega
      · intro u hu
        rcases Finset.mem_insert.mp hu with rfl | hw
        · exact ⟨Finset.mem_insert_self _ _, a, by simp, hslot⟩
        · obtain ⟨h1, a', h2, h3⟩ := hb.waiting u hw
          have hne : u ≠ j := fun he => hnw (he ▸ hw)
          refine ⟨Finset.mem_insert_of_mem h1, a', ?_, h3⟩
          rw [Function.update_of_ne hne]
          exact h2
      · rw [hf0, if_neg]
        rintro ⟨h1, _⟩
        rw [ha.added] at h1; cases h1
      · exact hb.kept
      · exact hb.present_le
      · intro r hr hin'
        rcases hb.present r hr ⟨hInsec r hin'.1, hin'.2⟩ with h | h
        · by_cases hrj : r.1 = j
          · exact Or.inr (hrj ▸ Finset.mem_insert_self _ _)
          · left; omega
        · exact Or.inr (Finset.mem_insert_of_mem h)
    · refine (i.batches d hd).keep (Function.update_of_ne hdb _ _) (fun _ _ _ _ nd h => ⟨nd.next, h⟩)
        (fun _ _ => rfl) ?_ (fun _ => Nat.le_refl _) ?_
      · intro u _ a' ha' _
        by_cases hu : u = j
        · subst hu
          simp only [Function.update_self]
          exact List.mem_cons_of_mem _ ha'
        · simp only [Function.update_of_ne hu]
          exact ha'
      · intro r _ h
        exact ⟨hInsec r h.1, h.2⟩
  · intro u
    by_cases hu : u = j
    · subst hu
      simp only [Function.update_self]
      exact List.nodup_cons.mpr ⟨hch, i.nodup u⟩
    · simp only [Function.update_of_ne hu]
      exact i.nodup u
  · intro u a' ha'
    by_cases hu : u = j
    · subst hu
      simp only [Function.update_self] at ha'
      rcases List.mem_cons.mp ha' with rfl | ha'
      · refine ⟨b, ha.lt, ?_, ?_⟩ <;> simp only [State.setStack, State.setBatch, Function.update_self]
        · exact Finset.mem_insert_self _ _
        · exact hslot
      · obtain ⟨d, hd⟩ := i.holds u a' ha'
        exact ⟨d, hholds u d a' hd⟩
    · simp only [Function.update_of_ne hu] at ha'
      obtain ⟨d, hd⟩ := i.holds u a' ha'
      exact ⟨d, hholds u d a' hd⟩
  · intro u
    by_cases hu : u = j
    · subst hu
      have hsec := i.sections u
      rw [hin] at hsec
      obtain ⟨h1, h2, h3⟩ := hsec
      simp only [State.setStack, State.setBatch, hin]
      refine ⟨?_, ?_, h3⟩
      · simp only [Function.update_self, hcurr]
        simp
      · simp only [Function.update_self]
        refine ⟨hcurr, nd, hm, ?_⟩
        rw [hnext, ← hcas]
        exact h2
    · refine (i.sections u).keep (Function.update_of_ne hu _ _) (Function.update_of_ne hu _ _) rfl rfl
        (fun _ _ nd h => ⟨nd, h, rfl⟩) ?_
      intro d a' _ hd
      refine ⟨hholds u d a' hd, ?_⟩
      by_cases hdb : d = b
      · subst hdb; simp [State.setStack, State.setBatch]
      · simp [State.setStack, State.setBatch, Function.update_of_ne hdb]
  · refine i.frames_of ⟨Nat.le_refl _, ?_, fun _ nd hm _ _ _ => ⟨nd, hm, rfl, rfl⟩⟩ hfs rfl ?_
    · intro d _ y hy hbusy
      by_cases hdb : d = b
      · subst hdb
        rcases hbusy with ⟨h1, _⟩ | ⟨_, h2⟩
        · exact absurd (h1.symm.trans ha.adder) hy
        · rw [hf0] at h2; cases h2
      · exact ⟨(s.batch d).waiting, Function.update_of_ne hdb _ _⟩
    · intro h
      refine ⟨⟨⟨ha.lt, ?_, ?_, ?_, ?_⟩, ?_, hj⟩, h⟩ <;>
        simp only [State.setStack, State.setBatch, Function.update_self]
      · exact ha.adder
      · exact ha.added
      · rw [Finset.card_insert_of_notMem hnr, ha.cnt_eq]
        push_cast
        omega
      · exact hc

/-- `batch.refs->refc.fetch_add(cnt)`: the bias is taken back. -/
theorem Inv.complete {cnt : Int} {nx : Ptr} {x y : Nat × Nat} {F : Nat} {g : Nat → List Frame}
    (i : Inv n s) (ha : Adding s y b n cnt)
    (hmem : s.mem (s.batch b).refs = some ⟨b, .refc (s.batch b).refc, nx, (s.batch b).ptr 0⟩)
    (hF : F = if (s.batch b).waiting = ∅ then 1 else 0)
    (hstk : ∀ s' : State, s'.created = s.created → (∀ d ≠ b, s'.batch d = s.batch d) →
      s'.batch b = { s.batch b with added := true, frees := F, freer := x } →
      (∀ a nd, s.mem a = some nd → ∃ nd', s'.mem a = some nd' ∧ nd'.batch = nd.batch ∧ nd'.next = nd.next) →
      s'.stack = g → ∀ u, StackInv n s' u (s'.stack u)) :
    Inv n { s with
      mem := Function.update s.mem (s.batch b).refs
        (some ⟨b, .refc ((s.batch b).refc + cnt), nx, (s.batch b).ptr 0⟩)
      batch := Function.update s.batch b { s.batch b with added := true, frees := F, freer := x }
      stack := g } := by
  have hb := i.batches b ha.lt
  have hd0 := hb.kept (hb.frees_eq_zero (t := 0) (Or.inl ha.added))
  have hrefs := (s.batch b).nodes_refs
  have hrefc : ({ s.batch b with added := true, frees := F, freer := x } : Batch).refc =
      (s.batch b).refc + cnt := by
    rw [ha.cnt_eq]
    simp only [Batch.refc, ha.added, if_true, Bool.false_eq_true, if_false]
    omega
  have hnext : ∀ a' nd, s.mem a' = some nd → ∃ nd', Function.update s.mem (s.batch b).refs
      (some ⟨b, .refc ((s.batch b).refc + cnt), nx, (s.batch b).ptr 0⟩) a' = some nd' ∧
        nd'.batch = nd.batch ∧ nd'.next = nd.next := by
    intro a' nd hnd
    by_cases he : a' = (s.batch b).refs
    · subst he
      rw [hmem] at hnd
      cases hnd
      exact ⟨_, Function.update_self _ _ _, rfl, rfl⟩
    · exact ⟨nd, by rw [Function.update_of_ne he]; exact hnd, rfl, rfl⟩
  refine ⟨i.fault, ?_, i.nodup, ?_, ?_, ?_⟩
  · intro d hd
    by_cases hdb : d = b
    · subst hdb
      refine ⟨?_, ?_, ?_, ?_, ?_, ?_, ?_, ?_, ?_, ?_, ?_, ?_⟩ <;> simp only [Function.update_self]
      · exact hb.nodup
      · exact hb.enough
      · intro j a' hj ha'
        have ha' : (s.batch d).nodes[j]? = some a' := ha'
        obtain ⟨nx', hm⟩ := hb.layout j a' hj ha'
        by_cases hjr : j < (s.batch d).slots.length
        · have hne : a' ≠ (s.batch d).refs := by
            rintro rfl
            have := (hb.unique hb hj (by omega) ha' hrefs).2
            omega
          refine ⟨nx', ?_⟩
          rw [Function.update_of_ne hne, hm]
          simp only [Batch.linkAt, Batch.blinkAt, if_pos hjr]
          rfl
        · have hjl : j < (s.batch d).nodes.length := (List.getElem?_eq_some_iff.mp ha').1
          have hje : j = (s.batch d).slots.length := by
            simp only [Batch.nodes, List.length_append, List.length_singleton] at hjl
            omega
          subst hje
          rw [hrefs] at ha'
          cases ha'
          refine ⟨nx, ?_⟩
          rw [Function.update_self]
          simp only [Batch.linkAt, Batch.blinkAt, Nat.lt_irrefl, if_false, hrefc]
          rfl
      · exact hb.pos_le
      · intro _; exact ha.pos_eq
      · exact hb.received_lt
      · exact hb.received_card
      · exact hb.waiting
      · simp only [hF, true_and]
      · intro _; exact hd0
      · exact hb.present_le
      · exact hb.present
    · refine (i.batches d hd).keep (Function.update_of_ne hdb _ _) ?_ (fun _ _ => rfl)
        (fun _ _ _ h _ => h) (fun _ => Nat.le_refl _) (fun _ _ h => h)
      intro j a' hj ha' nd hnd
      have hne := i.node_ne ha.lt hd hdb (by omega) hrefs hj ha'
      exact ⟨nd.next, by simp only [Function.update_of_ne hne]; exact hnd⟩
  · intro u a' ha'
    obtain ⟨d, hd⟩ := i.holds u a' ha'
    refine ⟨d, hd.1, ?_⟩
    by_cases hdb : d = b
    · subst hdb
      simp only [Function.update_self]
      exact hd.2
    · simp only [Function.update_of_ne hdb]
      exact hd.2
  · intro u
    refine (i.sections u).keep rfl rfl rfl rfl ?_ ?_
    · intro a' _ nd hnd
      obtain ⟨nd', h1, _, h2⟩ := hnext a' nd hnd
      exact ⟨nd', h1, h2⟩
    · intro d a' _ hd
      by_cases hdb : d = b
      · subst hdb
        refine ⟨⟨hd.1, ?_⟩, ?_⟩ <;> simp only [Function.update_self]
        exact hd.2
      · refine ⟨⟨hd.1, ?_⟩, ?_⟩ <;> simp only [Function.update_of_ne hdb]
        exact hd.2
  · exact hstk _ rfl (fun d hd => Function.update_of_ne hd _ _) (Function.update_self _ _ _) hnext rfl

/-- The last step of `add_batch`, with the `free_batch` it may call. -/
theorem Inv.completed {curr : Ptr} {cnt : Int} {j : Nat} {s' : State} (i : Inv n s)
    (hfs : s.stack t = .addBatch b curr cnt j :: fs) (hj : ¬ j < n)
    (h : s.addStep n t fs (.addBatch b curr cnt j) = some s') : Inv n s' := by
  obtain ⟨ha, hc⟩ := i.top hfs
  have hb := i.batches b ha.lt
  obtain rfl : j = n := by
    have h1 := ha.pos_eq
    have h2 := hb.pos_le
    omega
  have hf0 := hb.frees_eq_zero (t := 0) (Or.inl ha.added)
  obtain ⟨nx, hlive, hmem⟩ := hb.live hf0 (s.batch b).nodes_refs
  simp only [Batch.linkAt, Batch.blinkAt, Nat.lt_irrefl, if_false] at hlive hmem
  simp only [State.addStep, hj, if_false, hlive] at h
  have hzero : (s.batch b).refc = -cnt ↔ (s.batch b).waiting = ∅ := by
    rw [ha.cnt_eq, ← Finset.card_eq_zero]
    simp only [Batch.refc, ha.added, Bool.false_eq_true, if_false]
    omega
  have hkeep : ∀ {s' : State}, s'.created = s.created →
      (∀ d ≠ b, s'.batch d = s.batch d) →
      (∀ a nd, s.mem a = some nd → ∃ nd', s'.mem a = some nd' ∧ nd'.batch = nd.batch ∧ nd'.next = nd.next) →
      Keeps s s' (t, fs.length) := by
    intro s' hc hne hm
    refine ⟨by rw [hc], ?_, fun a' nd hnd _ _ _ => hm a' nd hnd⟩
    intro d _ y hy hbusy
    by_cases hdb : d = b
    · subst hdb
      rcases hbusy with ⟨h1, _⟩ | ⟨_, h2⟩
      · exact absurd (h1.symm.trans ha.adder) hy
      · rw [hf0] at h2; cases h2
    · exact ⟨(s.batch d).waiting, hne d hdb⟩
  by_cases hv : (s.batch b).refc = -cnt
  · rw [if_pos hv] at h
    cases h
    have hi := i.complete (x := (t, fs.length)) (F := 1)
      (g := Function.update s.stack t (.freeStart b (.node (s.batch b).refs) :: fs)) ha hmem
      (if_pos (hzero.mp hv)).symm ?_
    · simpa [State.callFree, State.setBatch, State.setStack, State.setMem, hf0] using hi
    · intro s' hc' hne hB hm hstk
      refine i.frames_of (hkeep hc' hne hm) hfs hstk ?_
      intro h
      refine ⟨⟨⟨by rw [hc']; exact ha.lt, by rw [hB], by rw [hB], ?_⟩, ?_, by rw [hB]⟩, h⟩
      · rw [hB]
        show (s.batch b).deleted ≤ _
        rw [hb.kept hf0]
        exact Nat.zero_le _
      · rw [hB]
        exact hb.kept hf0
  · rw [if_neg hv] at h
    cases h
    have hi := i.complete (x := (s.batch b).freer) (F := 0)
      (g := Function.update s.stack t fs) ha hmem
      (if_neg fun h => hv (hzero.mpr h)).symm ?_
    · simpa [State.setBatch, State.setStack, State.setMem, ← hf0] using hi
    · intro s' hc' hne hB hm hstk
      exact i.frames_of (hkeep hc' hne hm) hfs hstk id

/-- `delete node`. -/
theorem Inv.nodeDeleted {node p : Ptr} (i : Inv n s) (hfs : s.stack t = .callback b node p :: fs) :
    ∃ a nd, s.get node = some (a, nd) ∧
    Inv n (((s.setMem a none).setBatch b { s.batch b with deleted := (s.batch b).deleted + 1 }).setStack t
      (if p = .null then fs else .freeNode b p :: fs)) := by
  obtain ⟨hf, hnode, hp⟩ := i.top hfs
  have hb := i.batches b hf.lt
  have hlt : (s.batch b).deleted < (s.batch b).nodes.length := by
    have := hf.left
    simp only [Batch.nodes, List.length_append, List.length_singleton]
    omega
  have ha := List.getElem?_eq_getElem hlt
  obtain ⟨nx, hget⟩ := hb.get (Nat.le_refl _) ha
  rw [← Batch.ptr_of_getElem? ha, ← hnode] at hget
  generalize hadef : (s.batch b).nodes[(s.batch b).deleted] = a at ha hget
  have hempty : (s.batch b).added = true ∧ (s.batch b).waiting = ∅ := by
    have h := hb.frees
    rw [hf.freed] at h
    split at h
    · rename_i hc; exact hc
    · cases h
  have hch : ∀ u a', a' ∈ s.chain u → a' ≠ a := fun u a' ha' =>
    i.chain_ne hf.lt (Nat.le_refl _) ha (fun _ => by rw [hempty.2]; exact Finset.notMem_empty _) ha'
  refine ⟨a, _, hget, i.fault, ?_, i.nodup, ?_, ?_, ?_⟩
  · intro d hd
    by_cases hdb : d = b
    · subst hdb
      refine ⟨?_, ?_, ?_, ?_, ?_, ?_, ?_, ?_, ?_, ?_, ?_, ?_⟩ <;>
        simp only [State.setStack, State.setBatch, State.setMem, Function.update_self]
      · exact hb.nodup
      · exact hb.enough
      · intro j a' hj ha'
        have hj : (s.batch d).deleted + 1 ≤ j := hj
        obtain ⟨nx', hm⟩ := hb.layout j a' (by omega) ha'
        have hne : a' ≠ a := by
          rintro rfl
          have := (hb.unique hb (by omega) (Nat.le_refl _) ha' ha).2
          omega
        refine ⟨nx', ?_⟩
        rw [Function.update_of_ne hne, hm]
        rfl
      · exact hb.pos_le
      · exact hb.complete
      · exact hb.received_lt
      · exact hb.received_card
      · exact hb.waiting
      · exact hb.frees
      · intro h; rw [hf.freed] at h; cases h
      · exact hb.present_le
      · exact hb.present
    · refine (i.batches d hd).keep (Function.update_of_ne hdb _ _) ?_ (fun _ _ => rfl)
        (fun _ _ _ h _ => h) (fun _ => Nat.le_refl _) (fun _ _ h => h)
      intro j a' hj ha' nd hnd
      have hne := i.node_ne hf.lt hd hdb (Nat.le_refl _) ha hj ha'
      exact ⟨nd.next, by simp [State.setStack, State.setBatch, State.setMem, Function.update_of_ne hne, hnd]⟩
  · intro u a' ha'
    obtain ⟨d, hd⟩ := i.holds u a' ha'
    refine ⟨d, hd.1, ?_⟩
    by_cases hdb : d = b
    · subst hdb
      simpa [State.setStack, State.setBatch, State.setMem] using hd.2
    · simpa [State.setStack, State.setBatch, State.setMem, Function.update_of_ne hdb] using hd.2
  · intro u
    refine (i.sections u).keep rfl rfl rfl rfl ?_ ?_
    · intro a' ha' nd hnd
      exact ⟨nd, by simp [State.setStack, State.setBatch, State.setMem,
        Function.update_of_ne (hch u a' ha'), hnd], rfl⟩
    · intro d a' _ hd
      by_cases hdb : d = b
      · subst hdb
        exact ⟨⟨hd.1, by simpa [State.setStack, State.setBatch, State.setMem] using hd.2⟩,
          by simp [State.setStack, State.setBatch]⟩
      · exact ⟨⟨hd.1, by simpa [State.setStack, State.setBatch, State.setMem,
          Function.update_of_ne hdb] using hd.2⟩, by simp [State.setStack, State.setBatch, State.setMem,
          Function.update_of_ne hdb]⟩
  · refine i.frames_of ⟨Nat.le_refl _, ?_, ?_⟩ hfs rfl ?_
    · intro d _ y hy hbusy
      by_cases hdb : d = b
      · subst hdb
        rcases hbusy with ⟨_, h2⟩ | ⟨h1, _⟩
        · rw [hempty.1] at h2; cases h2
        · exact absurd (h1.symm.trans hf.freer) hy
      · exact ⟨(s.batch d).waiting, Function.update_of_ne hdb _ _⟩
    · intro a' nd hnd _ _ hadd
      have hne : a' ≠ a := by
        rintro rfl
        obtain ⟨nx', hm⟩ := hb.layout _ _ (Nat.le_refl _) ha
        rw [hnd] at hm
        cases hm
        rw [hempty.1] at hadd
        cases hadd
      exact ⟨nd, by simp [State.setStack, State.setBatch, State.setMem, Function.update_of_ne hne, hnd],
        rfl, rfl⟩
    · intro h
      by_cases hpn : p = .null
      · rw [if_pos hpn] at h ⊢
        exact h
      · rw [if_neg hpn] at h ⊢
        have hle : (s.batch b).deleted + 1 ≤ (s.batch b).slots.length := by
          by_contra hc
          have : (s.batch b).deleted = (s.batch b).slots.length := by have := hf.left; omega
          rw [this] at hp
          exact hpn (by rw [hp]; simp [Batch.ptr, Batch.nodes])
        refine ⟨⟨⟨hf.lt, ?_, ?_, ?_⟩, ?_⟩, h⟩ <;>
          simp only [State.setStack, State.setBatch, Function.update_self]
        · exact hf.freer
        · exact hf.freed
        · exact hle
        · exact hp

theorem Batch.alloc_node {B : Batch} {mem : Nat → Option Node} (hn : B.nodes.Nodup)
    (h : B.nodes[k]? = some a) : B.alloc b mem a =
      some (if k < B.slots.length then ⟨b, .bnext (B.ptr (k + 1)), .null, .node B.refs⟩
        else ⟨b, .refc refcProtect, .null, B.ptr 0⟩) := by
  obtain ⟨hk, ha⟩ := List.getElem?_eq_some_iff.mp h
  have hidx : B.nodes.idxOf a = k := by
    rw [← ha]
    exact hn.idxOf_getElem k hk
  simp only [Batch.alloc, if_pos (List.mem_of_getElem? h), hidx]

theorem Batch.alloc_other {B : Batch} {mem : Nat → Option Node} (h : a ∉ B.nodes) :
    B.alloc b mem a = mem a := by
  simp only [Batch.alloc, if_neg h]

theorem State.mem_openSections {r : Nat × Nat} :
    r ∈ s.openSections n ↔ r.1 < n ∧ s.rsrv r.1 ≠ .inv ∧ r.2 = s.begun r.1 := by
  simp only [State.openSections, Finset.mem_image, Finset.mem_filter, Finset.mem_range]
  constructor
  · rintro ⟨t, ⟨h1, h2⟩, rfl⟩
    exact ⟨h1, h2, rfl⟩
  · rintro ⟨h1, h2, h3⟩
    exact ⟨r.1, ⟨h1, h2⟩, by rw [← h3]⟩

theorem Inv.entered {slots : List Nat} {refs : Nat} (i : Inv n s) (hf : s.Fresh n slots refs) :
    Inv n (s.enterAdd n t slots refs) := by
  obtain ⟨hlen, hnd, hfree⟩ := hf
  generalize hB : (⟨slots, refs, (t, (s.stack t).length), 0, false, s.openSections n, ∅, ∅, 0, (0, 0), 0⟩ :
    Batch) = B
  have hnodes : B.nodes = slots ++ [refs] := by rw [← hB]; rfl
  have hs' : s.enterAdd n t slots refs = { s with
      batch := Function.update s.batch s.created B
      stack := Function.update s.stack t (.addBatch s.created (B.ptr 0) (-refcProtect) 0 :: s.stack t)
      mem := B.alloc s.created s.mem
      created := s.created + 1 } := by
    rw [← hB]
    rfl
  rw [hs']
  -- what was in memory is still there
  have hkeep : ∀ a' nd, s.mem a' = some nd → B.alloc s.created s.mem a' = some nd := by
    intro a' nd hm
    rw [Batch.alloc_other, hm]
    intro hmem
    rw [hnodes] at hmem
    have := hfree a' hmem
    rw [hm] at this
    cases this
  have hold : ∀ d < s.created, Function.update s.batch s.created B d = s.batch d := fun d hd =>
    Function.update_of_ne (Nat.ne_of_lt hd) _ _
  have hholds : ∀ u d a', s.Holds u d a' → State.Holds { s with
      batch := Function.update s.batch s.created B
      stack := Function.update s.stack t (.addBatch s.created (B.ptr 0) (-refcProtect) 0 :: s.stack t)
      mem := B.alloc s.created s.mem
      created := s.created + 1 } u d a' := by
    intro u d a' hd
    refine ⟨Nat.lt_succ_of_lt hd.1, ?_⟩
    simp only [hold d hd.1]
    exact hd.2
  have hk : Keeps s { s with
      batch := Function.update s.batch s.created B
      stack := Function.update s.stack t (.addBatch s.created (B.ptr 0) (-refcProtect) 0 :: s.stack t)
      mem := B.alloc s.created s.mem
      created := s.created + 1 } (t, (s.stack t).length) :=
    ⟨Nat.le_succ _, fun d hd _ _ _ => ⟨(s.batch d).waiting, hold d hd⟩,
      fun a' nd hm _ _ _ => ⟨nd, hkeep a' nd hm, rfl, rfl⟩⟩
  refine ⟨i.fault, ?_, i.nodup, ?_, ?_, ?_⟩
  · intro d hd
    by_cases hdb : d = s.created
    · subst hdb
      have hrefc : B.refc = refcProtect := by rw [← hB]; simp [Batch.refc]
      refine ⟨?_, ?_, ?_, ?_, ?_, ?_, ?_, ?_, ?_, ?_, ?_, ?_⟩ <;> simp only [Function.update_self]
      · rw [hnodes]; exact hnd
      · rw [← hB]; exact hlen
      · intro k' a' _ ha'
        refine ⟨.null, ?_⟩
        rw [Batch.alloc_node (by rw [hnodes]; exact hnd) ha']
        simp only [Batch.linkAt, Batch.blinkAt, hrefc]
        split <;> rfl
      · rw [← hB]; exact Nat.zero_le _
      · rw [← hB]; intro h; cases h
      · rw [← hB]; intro r hr; cases hr
      · rw [← hB]; exact Nat.le_refl _
      · rw [← hB]; intro u hu; cases hu
      · rw [← hB]; simp
      · rw [← hB]; intro _; rfl
      · rw [← hB]
        intro r hr
        obtain ⟨h1, _, h3⟩ := State.mem_openSections.mp hr
        exact ⟨h1, Nat.le_of_eq h3⟩
      · rw [← hB]
        intro r _ _
        exact Or.inl (Nat.zero_le _)
    · have hd' : d < s.created := by
        have hd : d < s.created + 1 := hd
        omega
      exact (i.batches d hd').keep (hold d hd') (fun _ _ _ _ nd h => ⟨nd.next, hkeep _ nd h⟩)
        (fun _ _ => rfl) (fun _ _ _ h _ => h) (fun _ => Nat.le_refl _) (fun _ _ h => h)
  · intro u a' ha'
    obtain ⟨d, hd⟩ := i.holds u a' ha'
    exact ⟨d, hholds u d a' hd⟩
  · intro u
    refine (i.sections u).keep rfl rfl rfl rfl (fun a' _ nd h => ⟨nd, hkeep a' nd h, rfl⟩) ?_
    intro d a' _ hd
    exact ⟨hholds u d a' hd, by simp only [hold d hd.1]⟩
  · intro u
    by_cases hu : u = t
    · subst hu
      simp only [Function.update_self]
      refine ⟨⟨⟨Nat.lt_succ_self _, ?_, ?_, ?_, ?_⟩, ?_⟩, (i.frames u).keep hk ?_⟩
      · simp only [Function.update_self]; rw [← hB]
      · simp only [Function.update_self]; rw [← hB]
      · simp only [Function.update_self]; rw [← hB]
      · simp only [Function.update_self]; rw [← hB]; simp
      · simp only [Function.update_self]
      · intro d hd he
        cases he
        exact absurd hd (Nat.lt_irrefl _)
    · simp only [Function.update_of_ne hu]
      refine (i.frames u).keep hk ?_
      intro d _ he
      cases he
      exact hu rfl

end Writes

/-! ## Runs -/

section Runs
variable {n : Nat} {s s' : State} {t : Nat}

theorem inv_traverse (hn : n ≤ 2 ^ 31) (i : Inv n s) {fs : List Frame} (hfs : s.stack t = .guard :: fs)
    (h : s.traverse t fs (s.sec t) = some s') : Inv n s' := by
  cases hs : s.sec t with
  | outside => rw [hs] at h; cases h
  | inside => rw [hs] at h; cases h
  | traverse p =>
    rw [hs] at h
    by_cases hp : p = .null
    · subst hp
      cases h
      exact i.traversed hfs hs
    · obtain ⟨r, nd, hlive, hi⟩ := i.readNext hs hp
      have h' : s.traverse t fs (.traverse p) = some (s.setSec t (.readBlink p nd.next)) := by
        cases p <;> simp_all [State.traverse]
      rw [h'] at h
      cases h
      exact hi
  | readBlink curr p =>
    rw [hs] at h
    obtain ⟨r, nd, hlive, hi⟩ := i.readBlink hs
    simp only [State.traverse, hlive] at h
    cases h
    exact hi
  | release refs p =>
    rw [hs] at h
    exact i.released hn hfs hs h

theorem inv_run (hn : n ≤ 2 ^ 31) (i : Inv n s) {l : List Frame} (hl : s.stack t = l)
    (h : s.run n t l = some s') : Inv n s' := by
  cases l with
  | nil => cases h
  | cons f fs =>
    cases f with
    | guard => exact inv_traverse hn i hl h
    | addBatch b curr cnt j =>
      simp only [State.run, State.freeStep, Option.or_none] at h
      by_cases hj : j < n
      · simp only [State.addStep, if_pos hj] at h
        split at h
        · rename_i hr
          cases h
          exact i.skipped hl hj hr
        · rename_i hr
          cases h
          exact i.loaded hl hj hr
      · exact i.completed hl hj h
    | setNext b curr cnt j prev =>
      obtain ⟨a, nd, hlive, hi⟩ := i.nextSet hl
      simp only [State.run, State.addStep, hlive] at h
      cases h
      exact hi
    | push b curr cnt j prev =>
      simp only [State.run, State.freeStep, Option.or_none] at h
      by_cases hcas : s.rsrv j = prev
      · obtain ⟨a, nd, hlive, hi⟩ := i.pushed hl hcas
        simp only [State.addStep, if_pos hcas, hlive] at h
        cases h
        exact hi
      · simp only [State.addStep, if_neg hcas] at h
        cases h
        exact i.retry hl
    | advance b curr cnt j =>
      obtain ⟨r, ⟨c, link, nx, bl⟩, p, hlive, hlink, hi⟩ := i.advanced hl
      cases (show link = .bnext p from hlink)
      simp only [State.run, State.addStep, hlive] at h
      cases h
      exact hi
    | freeStart b refs =>
      obtain ⟨r, nd, hget, hi⟩ := i.freeStarted hl
      simp only [State.run, State.addStep, State.freeStep, hget, Option.none_or] at h
      cases h
      exact hi
    | freeNode b p =>
      obtain ⟨q, hq, hi⟩ := i.freedNode hl
      simp only [State.run, State.addStep, State.freeStep, hq, Option.none_or] at h
      cases h
      exact hi
    | callback b node p =>
      obtain ⟨a, nd, hget, hi⟩ := i.nodeDeleted hl
      simp only [State.run, State.addStep, State.freeStep, hget, Option.none_or] at h
      cases h
      exact hi

theorem inv_next {cfg : Config} (i : Inv cfg.numThreads s) {a : Label} (h : next cfg s a = some s') :
    Inv cfg.numThreads s' := by
  cases a with
  | begin t =>
    obtain ⟨-, hs⟩ := Option.ite_none_right_eq_some.mp h
    cases hs
    exact i.begin t
  | end_ t =>
    obtain ⟨hg, hs⟩ := Option.ite_none_right_eq_some.mp h
    cases hs
    exact i.end_ hg.2
  | addBatch t slots refs =>
    obtain ⟨hg, hs⟩ := Option.ite_none_right_eq_some.mp h
    cases hs
    exact i.entered hg.2.2
  | run t => exact inv_run cfg.tids_fit i rfl h

end Runs

theorem inv_of_reach {cfg : Config} {s : State} (h : (machine cfg).Reach s) : Inv cfg.numThreads s :=
  Machine.Reach.invariant (M := machine cfg) (fun _ h0 => h0 ▸ inv_initial _)
    (fun _ _ _ i hn => inv_next i hn) h

/-- **The tracker protocol.** In every state of every interleaving: no node was read or
pushed after its batch was freed; `free_batch` was called at most once for a batch; it
was called once for every batch whose `add_batch` has removed the bias and all of whose
receiving sections have ended with their traverse finished; and a batch that it was
called for has no section left open that was open when its `add_batch` began. -/
theorem tracker_protocol (cfg : Config) {s : State} (h : (machine cfg).Reach s) :
    s.fault = false ∧ ∀ b < s.created,
      (s.batch b).frees ≤ 1 ∧
      ((s.batch b).added = true → (∀ r ∈ (s.batch b).received, s.Finished r) → (s.batch b).frees = 1) ∧
      (0 < (s.batch b).frees → ∀ r ∈ (s.batch b).present, ¬ s.InSection r) := by
  have i := inv_of_reach h
  refine ⟨i.fault, fun b hb => ?_⟩
  have hbi := i.batches b hb
  refine ⟨?_, ?_, ?_⟩
  · rw [hbi.frees]
    split
    · exact Nat.le_refl _
    · exact Nat.zero_le _
  · intro hadd hfin
    rw [hbi.frees, if_pos]
    refine ⟨hadd, Finset.eq_empty_of_forall_notMem fun t ht => ?_⟩
    -- a thread that still holds a node is in the section that received it
    obtain ⟨hrec, a, ha, -⟩ := hbi.waiting t ht
    have hle : s.begun t ≤ s.ended t := hfin _ hrec
    have hsec := i.sections t
    cases hs : s.sec t <;> rw [hs] at hsec
    case outside => rw [hsec.2.1] at ha; cases ha
    case inside => have := hsec.2.2; omega
    case traverse => have := hsec.2.2; omega
    case readBlink => have := hsec.2.1; omega
    case release => have := hsec.2.1; omega
  · intro hpos r hr hin
    have hf := hbi.frees
    split at hf
    · rename_i hc
      rcases hbi.present r hr hin with h1 | h1
      · have := (hbi.present_le r hr).1
        rw [hbi.complete hc.1] at h1
        omega
      · rw [hc.2] at h1; cases h1
    · omega

/-- Thread 1 is in a section while thread 0 adds a batch of nodes 10, 11 and 12; its
traverse releases the batch's last unit and frees it. -/
def oneReader : List Label :=
  [.begin 1, .addBatch 0 [10, 11] 12] ++ List.replicate 7 (.run 0) ++ [.end_ 1] ++
    List.replicate 11 (.run 1)

theorem tracker_protocol_oneReader : ∃ s, (machine ⟨2, by decide⟩).exec oneReader .initial = some s ∧
    (s.batch 0).received = {(1, 1)} ∧ (s.batch 0).present = {(1, 1)} ∧ s.mem 12 = none ∧
    s.fault = false ∧ (s.batch 0).frees = 1 := by
  have he : ∃ s, (machine ⟨2, by decide⟩).exec oneReader .initial = some s ∧ s.created = 1 ∧
      (s.batch 0).received = {(1, 1)} ∧ (s.batch 0).present = {(1, 1)} ∧ s.mem 12 = none ∧
      (s.batch 0).added = true ∧ s.ended 1 = 1 := by
    refine ⟨_, rfl, rfl, ?_, ?_, rfl, rfl, rfl⟩ <;> decide
  obtain ⟨s, hs, hc, hr, hp, hm, hadd, hend⟩ := he
  have h := tracker_protocol ⟨2, by decide⟩
    ((Machine.Reach.init (M := machine ⟨2, by decide⟩) rfl).exec hs)
  refine ⟨s, hs, hr, hp, hm, h.1, (h.2 0 (by omega)).2.1 hadd ?_⟩
  intro r hr'
  rw [hr, Finset.mem_singleton] at hr'
  subst hr'
  exact Nat.le_of_eq hend.symm

end Cdrc.Hyaline.Tracker
