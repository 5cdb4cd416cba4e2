import Mathlib.Data.List.Basic
import Cdrc.Hyaline.TrackerSafety

/-! # The batches that `acquire_retire_hyaline::retire` builds

`retire` allocates a node for the pointer and puts it at the front of `local_batch[id]`. The
first node of a batch is its REFS node; the nodes after it are SLOT nodes, which are
linked by `bnext` down to the REFS node and keep it in `blink`. In a REFS node the word of `bnext`
is `refc`. A batch with more than `batch_size*num_threads` nodes is handed to the tracker,
whose `add_batch` goes along the `bnext`s with one node for each thread.

All threads, every manager of the program, and the tracker of `Hyaline.Tracker`. There is one manager
for each type `T`, with batches and flags of its own, and one tracker for all of them. A callback of
`free_batch` may retire with any manager. The memory is in two parts: the nodes of the
local batches, which only their own thread has pointers to, and the nodes handed to the
tracker. If the tracker accesses a node of the first part, that is a `fault`, like an access to a
node that is not allocated.

The product `batch_size*num_threads` is a `size_t`. -/
namespace Cdrc.Hyaline.Batches
open Cdrc.Lib.Runs
open Cdrc.Hyaline.Tracker (Ptr Link Node refcProtect)

/-- `utils::num_threads()` and the template parameter of every manager. -/
structure Config extends Tracker.Config where
  batchSize : Nat → Nat
  batchSize_pos : ∀ m, 1 ≤ batchSize m
  batchSize_lt : ∀ m, batchSize m < 2 ^ 64

/-- `batch_size*num_threads`. -/
def Config.threshold (cfg : Config) (m : Nat) : Nat := cfg.batchSize m * cfg.numThreads % 2 ^ 64

/-- `hyaline_tracker::Batch`. -/
structure Batch where
  first : Ptr
  refs : Ptr
  counter : Nat
  deriving DecidableEq, Repr

/-- A call of `retire` that has put its node into the batch. -/
structure Retire where
  manager : Nat
  /-- the tracker's calls that the thread was in when it called `retire` -/
  depth : Nat
  /-- it is in `add_batch`, otherwise before the test of its loop -/
  adding : Bool
  deriving DecidableEq, Repr

/-- Batches and flags are by manager and thread. -/
structure State where
  tracker : Tracker.State
  /-- the nodes of the local batches -/
  heap : Nat → Option Node
  localBatch : Nat × Nat → Batch
  inProgress : Nat × Nat → Bool
  retires : Nat → List Retire
  /-- whose batch the node last allocated at an address was for -/
  owner : Nat → Nat × Nat
  /-- the nodes of a local batch, the newest first -/
  nodes : Nat × Nat → List Nat
  /-- nodes created by all calls of `retire` -/
  created : Nat
  /-- the number, in the order of creation, of the node last allocated at an address -/
  number : Nat → Nat
  /-- the nodes of a batch handed to the tracker, by their numbers -/
  members : Nat → List Nat
  /-- the nodes of a batch that `free_batch` has passed to `decrement` and deleted -/
  visited : Nat → List Nat
  /-- the `free_batch` of a batch has come to its end -/
  returned : Nat → Bool

def State.initial : State where
  tracker := .initial
  heap _ := none
  localBatch _ := ⟨.null, .null, 0⟩
  inProgress _ := false
  retires _ := []
  owner _ := (0, 0)
  nodes _ := []
  created := 0
  number _ := 0
  members _ := []
  visited _ := []
  returned _ := false

/-- The innermost call of the thread, if that is a `retire` outside of `add_batch`, and the
calls of `retire` around it. -/
def State.retiring (s : State) (t : Nat) : Option (Retire × List Retire) :=
  match s.retires t with
  | r :: rs => if r.depth = (s.tracker.stack t).length then some (r, rs) else none
  | [] => none

/-- `retire` of a pointer that is not null, up to its loop; `new Node` gives the address `a`. -/
def State.retire (s : State) (m t a : Nat) : State :=
  let batch := s.localBatch (m, t)
  let node : Node :=
    if batch.first = .null then ⟨0, .refc refcProtect, .null, .null⟩
    else ⟨0, .bnext batch.first, .null, batch.refs⟩
  let refs := if batch.first = .null then .node a else batch.refs
  { s with
    heap := Function.update s.heap a (some node)
    localBatch := Function.update s.localBatch (m, t) ⟨.node a, refs, batch.counter + 1⟩
    retires := Function.update s.retires t (⟨m, (s.tracker.stack t).length, false⟩ :: s.retires t)
    owner := Function.update s.owner a (m, t)
    nodes := Function.update s.nodes (m, t) (a :: s.nodes (m, t))
    created := s.created + 1
    number := Function.update s.number a s.created }

/-- A node of the batch that `add_batch` is given: its address is known to the tracker from
now on, and `batch.refs->blink = batch.first`. -/
def State.handed (s : State) (k : Nat × Nat) (a : Nat) : Option Node :=
  if s.owner a = k then
    (s.heap a).map fun nd =>
      { nd with
        batch := s.tracker.created
        blink := if .node a = (s.localBatch k).refs then (s.localBatch k).first else nd.blink }
  else none

/-- `batch_copy = batch`, `batch.first = nullptr`, `batch.counter = 0`, `in_progress[id] = true`, and
`add_batch(batch_copy)` is entered, up to its loop. -/
def State.handOver (s : State) (n : Nat) (r : Retire) (t refs : Nat) (rs : List Retire) : State :=
  let k := (r.manager, t)
  let batch := s.localBatch k
  let tr := s.tracker
  let B : Tracker.Batch := ⟨(s.nodes k).dropLast, refs, (t, (tr.stack t).length), 0, false,
    tr.openSections n, ∅, ∅, 0, (0, 0), 0⟩
  { s with
    tracker := { (tr.setBatch tr.created B).setStack t
        (.addBatch tr.created batch.first (-refcProtect) 0 :: tr.stack t) with
      mem := fun a => (s.handed k a).or (tr.mem a)
      created := tr.created + 1 }
    heap := fun a => if s.owner a = k then none else s.heap a
    localBatch := Function.update s.localBatch k ⟨.null, batch.refs, 0⟩
    inProgress := Function.update s.inProgress k true
    retires := Function.update s.retires t ({ r with adding := true } :: rs)
    nodes := Function.update s.nodes k []
    members := Function.update s.members tr.created ((s.nodes k).map s.number) }

/-- The loop of `retire`. -/
def State.loop (s : State) (cfg : Config) (r : Retire) (t : Nat) (rs : List Retire) : Option State :=
  let k := (r.manager, t)
  if r.adding then
    some { s with
      inProgress := Function.update s.inProgress k false
      retires := Function.update s.retires t ({ r with adding := false } :: rs) }
  else if s.inProgress k = false ∧ cfg.threshold r.manager < (s.localBatch k).counter then
    match (s.localBatch k).refs with
    | .node refs => some (s.handOver cfg.numThreads r t refs rs)
    | _ => some { s with tracker := s.tracker.crash }
  else some { s with retires := Function.update s.retires t rs }

/-- The history of `free_batch`, before the tracker's next step. -/
def State.record (s : State) (t : Nat) : State :=
  match s.tracker.stack t with
  | .callback b (.node a) n :: _ =>
    { s with
      visited := Function.update s.visited b (s.visited b ++ [s.number a])
      returned := if n = .null then Function.update s.returned b true else s.returned }
  | _ => s

inductive Label
  /-- `begin_critical_section` -/
  | begin (t : Nat)
  /-- `end_critical_section` -/
  | end_ (t : Nat)
  /-- `retire` with manager `m`; `new Node` gives the address `a` -/
  | retire (m t : Nat) (p : Option Nat) (a : Nat)
  /-- the thread goes on with its innermost call -/
  | run (t : Nat)
  deriving DecidableEq, Repr

def State.setTracker (s : State) (tr : Tracker.State) : State := { s with tracker := tr }

def next (cfg : Config) (s : State) : Label → Option State
  | .begin t =>
    if s.retiring t = none then (Tracker.next cfg.toConfig s.tracker (.begin t)).map s.setTracker else none
  | .end_ t =>
    if s.retiring t = none then (Tracker.next cfg.toConfig s.tracker (.end_ t)).map s.setTracker else none
  | .retire m t p a =>
    if t < cfg.numThreads ∧ s.tracker.mayCall t = true ∧ s.retiring t = none then
      match p with
      | none => some s
      | some _ => if s.heap a = none ∧ s.tracker.mem a = none then some (s.retire m t a) else none
    else none
  | .run t =>
    match s.retiring t with
    | some (r, rs) => s.loop cfg r t rs
    | none => (Tracker.next cfg.toConfig s.tracker (.run t)).map (s.record t).setTracker

def machine (cfg : Config) : Machine State Label where
  init s := s = .initial
  next := next cfg

/-! ## What is claimed of the batches -/

/-- From `p` along `bnext` through the SLOT nodes `slots`, all with `refs` in `blink`, to the REFS
node `refs`. -/
def Chain (mem : Nat → Option Node) (refs : Nat) : Ptr → List Nat → Prop
  | p, [] => p = .node refs ∧ ∃ nd v, mem refs = some nd ∧ nd.link = .refc v
  | p, a :: slots => p = .node a ∧
      ∃ nd q, mem a = some nd ∧ nd.link = .bnext q ∧ nd.blink = .node refs ∧ Chain mem refs q slots

/-- The batch is empty, or a chain of `counter` nodes from `first` to `refs`. -/
def Batch.Built (batch : Batch) (mem : Nat → Option Node) : Prop :=
  batch.first = .null ∧ batch.counter = 0 ∨
    ∃ slots refs, batch.refs = .node refs ∧ batch.counter = slots.length + 1 ∧
      (slots ++ [refs]).Nodup ∧ Chain mem refs batch.first slots

/-- The node that the loop of `add_batch` is about to write, insert or read `bnext` of. -/
def curr : Tracker.Frame → Option Ptr
  | .setNext _ curr _ _ _ => some curr
  | .push _ curr _ _ _ => some curr
  | .advance _ curr _ _ => some curr
  | _ => none

/-- A place in which a node can be. -/
inductive Place
  | localBatch (k : Nat × Nat)
  | handed (b : Nat)

/-- The `i`-th node created belongs to the batch. -/
def State.Belongs (s : State) (i : Nat) : Place → Prop
  | .localBatch k => i ∈ (s.nodes k).map s.number
  | .handed b => b < s.tracker.created ∧ i ∈ s.members b

structure State.WellFormed (cfg : Config) (s : State) : Prop where
  fault : s.tracker.fault = false
  localBatches : ∀ k, (s.localBatch k).Built s.heap
  enough : ∀ b < s.tracker.created, cfg.numThreads ≤ (s.tracker.batch b).slots.length
  chains : ∀ b < s.tracker.created, (s.tracker.batch b).frees = 0 →
    Chain s.tracker.mem (s.tracker.batch b).refs ((s.tracker.batch b).ptr 0) (s.tracker.batch b).slots
  links : ∀ t, ∀ f ∈ s.tracker.stack t, ∀ p, curr f = some p →
    ∃ a nd q, p = .node a ∧ s.tracker.mem a = some nd ∧ nd.link = .bnext q
  starts : ∀ t b p, .freeStart b p ∈ s.tracker.stack t → s.visited b = [] ∧
    ∃ r nd, p = .node r ∧ s.tracker.mem r = some nd ∧ nd.link = .refc 0
  visits : ∀ b < s.tracker.created, (s.members b).Nodup ∧ s.visited b <+: s.members b ∧
    (s.returned b = true → s.visited b = s.members b)
  /-- a `free_batch` whose callbacks make no calls, run to its end -/
  completes : ∀ t b p fs, s.tracker.stack t = .freeStart b p :: fs → s.retiring t = none →
    ∃ s', (machine cfg).exec (List.replicate (2 * (s.members b).length + 1) (.run t)) s = some s' ∧
      s'.tracker.stack t = fs ∧ s'.members b = s.members b ∧ s'.visited b = s.members b
  belongs : ∀ i < s.created, ∃! c, s.Belongs i c

/-! ## What the tracker leaves alone -/

/-- A step of the tracker in which no batch is added and no node deleted. -/
structure Kept (tr tr' : Tracker.State) : Prop where
  created : tr'.created = tr.created
  mem : ∀ a, tr.mem a = none → tr'.mem a = none
  slots : ∀ b, (tr'.batch b).slots = (tr.batch b).slots
  refs : ∀ b, (tr'.batch b).refs = (tr.batch b).refs
  deleted : ∀ b, (tr'.batch b).deleted = (tr.batch b).deleted

section Tracker
variable {tr tr₁ tr' : Tracker.State} {n t b : Nat} {fs : List Tracker.Frame}

theorem Kept.refl (tr : Tracker.State) : Kept tr tr :=
  ⟨rfl, fun _ h => h, fun _ => rfl, fun _ => rfl, fun _ => rfl⟩

theorem Kept.setStack (h : Kept tr tr₁) : Kept tr (tr₁.setStack t fs) :=
  ⟨h.created, h.mem, h.slots, h.refs, h.deleted⟩

theorem Kept.setSec (h : Kept tr tr₁) {c : Tracker.Section} : Kept tr (tr₁.setSec t c) :=
  ⟨h.created, h.mem, h.slots, h.refs, h.deleted⟩

theorem Kept.crash (h : Kept tr tr₁) : Kept tr tr₁.crash :=
  ⟨h.created, h.mem, h.slots, h.refs, h.deleted⟩

theorem Kept.setMem (h : Kept tr tr₁) {a : Nat} {nd nd' : Node} (ha : tr.mem a = some nd) :
    Kept tr (tr₁.setMem a (some nd')) := by
  refine ⟨h.created, fun c hc => ?_, h.slots, h.refs, h.deleted⟩
  have hne : c ≠ a := by
    rintro rfl
    rw [ha] at hc
    cases hc
  exact (Function.update_of_ne hne _ _).trans (h.mem c hc)

theorem Kept.setBatch (h : Kept tr tr₁) {B : Tracker.Batch} (hs : B.slots = (tr₁.batch b).slots)
    (hr : B.refs = (tr₁.batch b).refs) (hd : B.deleted = (tr₁.batch b).deleted) :
    Kept tr (tr₁.setBatch b B) := by
  have hB : ∀ c, (tr₁.setBatch b B).batch c = B ∧ c = b ∨ (tr₁.setBatch b B).batch c = tr₁.batch c := by
    intro c
    by_cases hc : c = b
    · subst hc
      exact Or.inl ⟨Function.update_self _ _ _, rfl⟩
    · exact Or.inr (Function.update_of_ne hc _ _)
  refine ⟨h.created, h.mem, fun c => ?_, fun c => ?_, fun c => ?_⟩
  · rcases hB c with ⟨hc, rfl⟩ | hc
    · rw [hc, hs, h.slots]
    · rw [hc, h.slots]
  · rcases hB c with ⟨hc, rfl⟩ | hc
    · rw [hc, hr, h.refs]
    · rw [hc, h.refs]
  · rcases hB c with ⟨hc, rfl⟩ | hc
    · rw [hc, hd, h.deleted]
    · rw [hc, h.deleted]

theorem Kept.callFree (h : Kept tr tr₁) {refs : Ptr} : Kept tr (tr₁.callFree t b refs fs) := by
  apply Kept.setStack
  exact h.setBatch rfl rfl rfl

theorem mem_of_live {p : Ptr} {a : Nat} {nd : Node} (h : tr.live p = some (a, nd)) :
    tr.mem a = some nd := by
  obtain ⟨hget, _⟩ := Option.filter_eq_some_iff.mp h
  cases p with
  | inv => cases hget
  | null => cases hget
  | node c =>
    obtain ⟨nd', hm, he⟩ := Option.map_eq_some_iff.mp hget
    cases he
    exact hm

theorem kept_begin : Kept tr (tr.begin t) := by
  unfold Tracker.State.begin
  split
  · exact ⟨rfl, fun _ h => h, fun _ => rfl, fun _ => rfl, fun _ => rfl⟩
  · exact Kept.refl tr

theorem kept_end : Kept tr (tr.end_ t) := ⟨rfl, fun _ h => h, fun _ => rfl, fun _ => rfl, fun _ => rfl⟩

theorem kept_traverse {c : Tracker.Section} (h : tr.traverse t fs c = some tr') : Kept tr tr' := by
  unfold Tracker.State.traverse at h
  split at h
  · cases h
  · cases h
  · cases h
    exact ⟨rfl, fun _ h => h, fun _ => rfl, fun _ => rfl, fun _ => rfl⟩
  · split at h
    · cases h
      exact (Kept.refl tr).crash
    · cases h
      exact (Kept.refl tr).setSec
  · split at h
    · cases h
      exact (Kept.refl tr).crash
    · cases h
      exact (Kept.refl tr).setSec
  · split at h
    · next refs nx live r b v nx' bl hlive =>
      have hk : Kept tr (((tr.setSec t (.traverse nx)).setMem r
          (some ⟨b, .refc (v - 1), nx', bl⟩)).setBatch b { tr.batch b with waiting := (tr.batch b).waiting.erase t }) :=
        ((Kept.refl tr).setSec.setMem (mem_of_live hlive)).setBatch rfl rfl rfl
      split at h
      · cases h
        apply Kept.callFree
        exact ⟨hk.created, hk.mem, hk.slots, hk.refs, hk.deleted⟩
      · cases h
        exact ⟨hk.created, hk.mem, hk.slots, hk.refs, hk.deleted⟩
    · cases h
      exact (Kept.refl tr).crash

theorem kept_addStep {f : Tracker.Frame} (h : tr.addStep n t fs f = some tr') : Kept tr tr' := by
  unfold Tracker.State.addStep at h
  split at h
  · split at h
    · split at h
      · cases h
        apply Kept.setStack
        exact (Kept.refl tr).setBatch rfl rfl rfl
      · cases h
        exact (Kept.refl tr).setStack
    · split at h
      · next r b' v nx bl hlive =>
        split at h
        · cases h
          apply Kept.callFree
          exact ((Kept.refl tr).setMem (mem_of_live hlive)).setBatch rfl rfl rfl
        · cases h
          apply Kept.setStack
          exact ((Kept.refl tr).setMem (mem_of_live hlive)).setBatch rfl rfl rfl
      · cases h
        exact (Kept.refl tr).crash
  · split at h
    · next a nd hlive =>
      cases h
      exact ((Kept.refl tr).setMem (mem_of_live hlive)).setStack
    · cases h
      exact (Kept.refl tr).crash
  · split at h
    · split at h
      · next b curr cnt i prev _ _ a nd hlive =>
        cases h
        have hk : Kept tr (tr.setBatch b { tr.batch b with
            pos := i + 1
            received := insert (i, tr.begun i) (tr.batch b).received
            waiting := insert i (tr.batch b).waiting }) :=
          (Kept.refl tr).setBatch rfl rfl rfl
        exact ⟨hk.created, hk.mem, hk.slots, hk.refs, hk.deleted⟩
      · cases h
        exact (Kept.refl tr).crash
    · cases h
      exact (Kept.refl tr).setStack
  · split at h
    · cases h
      exact (Kept.refl tr).setStack
    · cases h
      exact (Kept.refl tr).crash
  · cases h

/-- Only a callback's end deletes a node. -/
theorem kept_run (h : tr.run n t (tr.stack t) = some tr') :
    Kept tr tr' ∨ ∃ b p q fs, tr.stack t = .callback b p q :: fs := by
  cases hs : tr.stack t with
  | nil =>
    rw [hs] at h
    cases h
  | cons f fs =>
    rw [hs] at h
    cases f with
    | guard => exact Or.inl (kept_traverse h)
    | addBatch b curr cnt i =>
      simp only [Tracker.State.run, Tracker.State.freeStep, Option.or_none] at h
      exact Or.inl (kept_addStep h)
    | setNext b curr cnt i prev =>
      simp only [Tracker.State.run, Tracker.State.freeStep, Option.or_none] at h
      exact Or.inl (kept_addStep h)
    | push b curr cnt i prev =>
      simp only [Tracker.State.run, Tracker.State.freeStep, Option.or_none] at h
      exact Or.inl (kept_addStep h)
    | advance b curr cnt i =>
      simp only [Tracker.State.run, Tracker.State.freeStep, Option.or_none] at h
      exact Or.inl (kept_addStep h)
    | freeStart b refs =>
      simp only [Tracker.State.run, Tracker.State.addStep, Tracker.State.freeStep, Option.none_or] at h
      left
      split at h
      · cases h
        exact (Kept.refl tr).setStack
      · cases h
        exact (Kept.refl tr).crash
    | freeNode b p =>
      simp only [Tracker.State.run, Tracker.State.addStep, Tracker.State.freeStep, Option.none_or] at h
      left
      split at h
      · cases h
        exact (Kept.refl tr).setStack
      · cases h
        exact (Kept.refl tr).crash
    | callback b p q => exact Or.inr ⟨b, p, q, fs, rfl⟩

/-- The end of a callback: the next node of the batch is deleted. -/
theorem run_callback {p q : Ptr} (h : Tracker.Inv n tr) (hs : tr.stack t = .callback b p q :: fs) :
    ∃ a, p = .node a ∧ (tr.batch b).nodes[(tr.batch b).deleted]? = some a ∧
      tr.run n t (tr.stack t) = some (((tr.setMem a none).setBatch b
        { tr.batch b with deleted := (tr.batch b).deleted + 1 }).setStack t
          (if q = .null then fs else .freeNode b q :: fs)) := by
  obtain ⟨hf, hp, _⟩ := h.top hs
  have hlt : (tr.batch b).deleted < (tr.batch b).nodes.length := by
    rw [Tracker.Batch.nodes, List.length_append]
    exact Nat.lt_succ_of_le hf.left
  have ha := List.getElem?_eq_getElem hlt
  obtain ⟨nx, hget⟩ := (h.batches b hf.lt).get (Nat.le_refl _) ha
  rw [Tracker.Batch.ptr_of_getElem? ha] at hp
  refine ⟨_, hp, ha, ?_⟩
  rw [hs]
  simp only [Tracker.State.run, Tracker.State.addStep, Tracker.State.freeStep, hp, hget, Option.none_or]

theorem ptr_eq_null_iff {B : Tracker.Batch} {j : Nat} : B.ptr j = .null ↔ B.nodes.length ≤ j := by
  rw [← List.getElem?_eq_none_iff]
  unfold Tracker.Batch.ptr
  split <;> simp_all

end Tracker

/-! ## The invariant -/

/-- A local batch as `retire` has built it. -/
def Laid (heap : Nat → Option Node) (refs : Nat) : Ptr → List Nat → Prop
  | p, [] => p = .node refs ∧ heap refs = some ⟨0, .refc refcProtect, .null, .null⟩
  | p, a :: slots => p = .node a ∧
      ∃ q, heap a = some ⟨0, .bnext q, .null, .node refs⟩ ∧ Laid heap refs q slots

section Layout
variable {heap heap' : Nat → Option Node} {refs a : Nat} {p : Ptr} {slots : List Nat}

theorem Laid.congr (h : Laid heap refs p slots) (heq : ∀ a ∈ slots ++ [refs], heap' a = heap a) :
    Laid heap' refs p slots := by
  induction slots generalizing p with
  | nil => exact ⟨h.1, (heq refs (by simp)).trans h.2⟩
  | cons c slots ih =>
    obtain ⟨hp, q, hc, hl⟩ := h
    exact ⟨hp, q, (heq c (by simp)).trans hc, ih hl fun a ha => heq a (List.mem_cons_of_mem _ ha)⟩

theorem Laid.update {x : Option Node} (h : Laid heap refs p slots) (ha : a ∉ slots ++ [refs]) :
    Laid (Function.update heap a x) refs p slots := by
  refine h.congr fun c hc => Function.update_of_ne ?_ _ _
  rintro rfl
  exact ha hc

theorem Laid.first_ne_null (h : Laid heap refs p slots) : p ≠ .null := by
  cases slots with
  | nil =>
    rw [h.1]
    intro hp
    cases hp
  | cons c slots =>
    rw [h.1]
    intro hp
    cases hp

theorem Laid.first_eq (h : Laid heap refs p slots) : some p = (slots ++ [refs])[0]?.map .node := by
  cases slots with
  | nil => exact congrArg some h.1
  | cons c slots => exact congrArg some h.1

/-- The `j`-th node of the batch. -/
theorem Laid.node (h : Laid heap refs p slots) {j : Nat} (ha : (slots ++ [refs])[j]? = some a) :
    j < slots.length ∧ (∃ q, some q = (slots ++ [refs])[j + 1]?.map .node ∧
        heap a = some ⟨0, .bnext q, .null, .node refs⟩) ∨
      j = slots.length ∧ a = refs ∧ heap a = some ⟨0, .refc refcProtect, .null, .null⟩ := by
  induction slots generalizing p j with
  | nil =>
    cases j with
    | zero =>
      cases ha
      exact Or.inr ⟨rfl, rfl, h.2⟩
    | succ j => cases ha
  | cons c slots ih =>
    obtain ⟨_, q, hc, hl⟩ := h
    cases j with
    | zero =>
      cases ha
      exact Or.inl ⟨Nat.zero_lt_succ _, q, hl.first_eq, hc⟩
    | succ j =>
      rcases ih hl (j := j) ha with ⟨hj, q, hq, hheap⟩ | ⟨hj, har, hheap⟩
      · exact Or.inl ⟨Nat.succ_lt_succ hj, q, hq, hheap⟩
      · exact Or.inr ⟨congrArg Nat.succ hj, har, hheap⟩

theorem Laid.chain (h : Laid heap refs p slots) : Chain heap refs p slots := by
  induction slots generalizing p with
  | nil => exact ⟨h.1, _, _, h.2, rfl⟩
  | cons c slots ih =>
    obtain ⟨hp, q, hc, hl⟩ := h
    exact ⟨hp, _, q, hc, rfl, rfl, ih hl⟩

end Layout

/-- The batch is empty, or made of the nodes recorded for it. -/
def State.LocalInv (s : State) (k : Nat × Nat) : Prop :=
  (s.localBatch k).first = .null ∧ (s.localBatch k).counter = 0 ∧ s.nodes k = [] ∨
    ∃ slots refs, s.nodes k = slots ++ [refs] ∧ (s.localBatch k).refs = .node refs ∧
      (s.localBatch k).counter = slots.length + 1 ∧ Laid s.heap refs (s.localBatch k).first slots

/-- What is recorded of a batch of the tracker. -/
structure State.History (s : State) (b : Nat) : Prop where
  size : (s.members b).length = (s.tracker.batch b).nodes.length
  named : ∀ j a, (s.tracker.batch b).deleted ≤ j → (s.tracker.batch b).nodes[j]? = some a →
    (s.members b)[j]? = some (s.number a)
  visited : s.visited b = (s.members b).take (s.tracker.batch b).deleted
  returned : s.returned b = true → (s.tracker.batch b).deleted = (s.tracker.batch b).nodes.length

/-- Every node created is in one batch, once. -/
structure State.Books (s : State) : Prop where
  nodup_nodes : ∀ k, ((s.nodes k).map s.number).Nodup
  nodup_members : ∀ b < s.tracker.created, (s.members b).Nodup
  lt : ∀ i c, s.Belongs i c → i < s.created
  placed : ∀ i < s.created, ∃ c, s.Belongs i c
  unique : ∀ i c c', s.Belongs i c → s.Belongs i c' → c = c'

structure Inv (n : Nat) (s : State) : Prop where
  tracker : Tracker.Inv n s.tracker
  locals : ∀ k, s.LocalInv k
  apart : ∀ a, s.heap a ≠ none → s.tracker.mem a = none
  owned : ∀ k a, a ∈ s.nodes k ↔ s.heap a ≠ none ∧ s.owner a = k
  history : ∀ b < s.tracker.created, s.History b
  unused : ∀ b, s.tracker.created ≤ b → s.visited b = [] ∧ s.returned b = false
  books : s.Books

theorem Books.initial : State.initial.Books where
  nodup_nodes := by intro k; exact List.nodup_nil
  nodup_members := by intro b hb; cases hb
  lt := by
    intro i c hc
    cases c with
    | localBatch k => cases hc
    | handed b => cases hc.1
  placed := by intro i hi; cases hi
  unique := by
    intro i c c' hc
    cases c with
    | localBatch k => cases hc
    | handed b => cases hc.1

theorem Inv.initial (n : Nat) : Inv n .initial where
  tracker := Tracker.inv_initial n
  locals := by intro k; exact Or.inl ⟨rfl, rfl, rfl⟩
  apart := by intro a h; exact absurd rfl h
  owned := by intro k a; simp [State.initial]
  history := by intro b hb; cases hb
  unused := by intro b _; exact ⟨rfl, rfl⟩
  books := Books.initial

section Steps
variable {cfg : Config} {n : Nat} {s s' : State} {tr' : Tracker.State} {m t a b : Nat}
  {fs : List Tracker.Frame}

/-- A batch that a step neither adds, frees further nor renames. -/
theorem State.History.keep (h : s.History b)
    (hnodes : (s'.tracker.batch b).nodes = (s.tracker.batch b).nodes)
    (hdel : (s'.tracker.batch b).deleted = (s.tracker.batch b).deleted) (hmem : s'.members b = s.members b)
    (hnum : ∀ j a, (s.tracker.batch b).deleted ≤ j → (s.tracker.batch b).nodes[j]? = some a →
      s'.number a = s.number a)
    (hvis : s'.visited b = s.visited b) (hret : s'.returned b = s.returned b) : s'.History b where
  size := by
    rw [hmem, hnodes]
    exact h.size
  named := by
    intro j a hj ha
    rw [hdel] at hj
    rw [hnodes] at ha
    rw [hmem, hnum j a hj ha]
    exact h.named j a hj ha
  visited := by
    rw [hvis, hmem, hdel]
    exact h.visited
  returned := by
    rw [hret, hdel, hnodes]
    exact h.returned

/-- A step that moves no node. -/
theorem State.Books.keep (h : s.Books) (hnodes : s'.nodes = s.nodes) (hnum : s'.number = s.number)
    (hmem : s'.members = s.members) (hcreated : s'.created = s.created)
    (htr : s'.tracker.created = s.tracker.created) : s'.Books := by
  have hbelongs : ∀ {i c}, s'.Belongs i c ↔ s.Belongs i c := by
    intro i c
    cases c with
    | localBatch k =>
      unfold State.Belongs
      rw [hnodes, hnum]
    | handed b =>
      unfold State.Belongs
      rw [hmem, htr]
  refine ⟨?_, ?_, ?_, ?_, ?_⟩
  · rw [hnodes, hnum]
    exact h.nodup_nodes
  · rw [hmem, htr]
    exact h.nodup_members
  · rw [hcreated]
    exact fun i c hc => h.lt i c (hbelongs.mp hc)
  · rw [hcreated]
    intro i hi
    obtain ⟨c, hc⟩ := h.placed i hi
    exact ⟨c, hbelongs.mpr hc⟩
  · exact fun i c c' hc hc' => h.unique i c c' (hbelongs.mp hc) (hbelongs.mp hc')

theorem Inv.tracked (h : Inv n s) (hi : Tracker.Inv n tr') (hk : Kept s.tracker tr') :
    Inv n (s.setTracker tr') where
  tracker := hi
  locals := h.locals
  apart := fun a ha => hk.mem a (h.apart a ha)
  owned := h.owned
  history := by
    intro b hb
    have hnodes : (tr'.batch b).nodes = (s.tracker.batch b).nodes := by
      rw [Tracker.Batch.nodes, Tracker.Batch.nodes, hk.slots, hk.refs]
    exact (h.history b (hk.created ▸ hb)).keep hnodes (hk.deleted b) rfl (fun _ _ _ _ => rfl) rfl rfl
  unused := fun b hb => h.unused b (hk.created ▸ hb)
  books := h.books.keep rfl rfl rfl rfl hk.created

/-- The end of a callback is recorded. -/
theorem Inv.deleted (h : Inv n s) {p q : Ptr} (hs : s.tracker.stack t = .callback b p q :: fs)
    (hi : Tracker.Inv n tr') (hr : s.tracker.run n t (s.tracker.stack t) = some tr') :
    Inv n ((s.record t).setTracker tr') := by
  obtain ⟨hf, _, hq⟩ := h.tracker.top hs
  obtain ⟨a, rfl, ha, hrun⟩ := run_callback h.tracker hs
  rw [hr] at hrun
  cases hrun
  have hlt := (List.getElem?_eq_some_iff.mp ha).1
  have hb := h.history b hf.lt
  simp only [State.record, hs]
  refine ⟨hi, h.locals, fun c hc => ?_, h.owned, fun c hc => ?_, fun c hc => ?_,
    h.books.keep rfl rfl rfl rfl rfl⟩
  · by_cases hca : c = a
    · subst hca
      exact Function.update_self _ _ _
    · exact (Function.update_of_ne hca _ _).trans (h.apart c hc)
  · by_cases hcb : c = b
    · subst hcb
      refine ⟨?_, ?_, ?_, ?_⟩ <;>
        simp only [State.setTracker, Tracker.State.setStack, Tracker.State.setBatch, Function.update_self]
      · exact hb.size
      · exact fun j x hj hx => hb.named j x (Nat.le_of_succ_le hj) hx
      · rw [hb.visited, List.take_add_one, hb.named _ a (Nat.le_refl _) ha]
        rfl
      · intro hret
        split at hret
        · next hnull =>
          rw [hnull] at hq
          exact Nat.le_antisymm hlt (ptr_eq_null_iff.mp hq.symm)
        · exact absurd (hb.returned hret) (Nat.ne_of_lt hlt)
    · have hB : Function.update s.tracker.batch b
          { s.tracker.batch b with deleted := (s.tracker.batch b).deleted + 1 } c = s.tracker.batch c :=
        Function.update_of_ne hcb _ _
      refine (h.history c hc).keep (congrArg Tracker.Batch.nodes hB) (congrArg Tracker.Batch.deleted hB) rfl
        (fun _ _ _ _ => rfl) (Function.update_of_ne hcb _ _) ?_
      simp only [State.setTracker]
      split
      · exact Function.update_of_ne hcb _ _
      · rfl
  · have hcb : c ≠ b := Nat.ne_of_gt (Nat.lt_of_lt_of_le hf.lt hc)
    obtain ⟨hv, hret⟩ := h.unused c hc
    refine ⟨(Function.update_of_ne hcb _ _).trans hv, ?_⟩
    simp only [State.setTracker]
    split
    · exact (Function.update_of_ne hcb _ _).trans hret
    · exact hret

/-! ### `retire` -/

theorem Inv.notMem_nodes (h : Inv n s) (ha : s.heap a = none) (k : Nat × Nat) : a ∉ s.nodes k := by
  intro hm
  exact ((h.owned k a).mp hm).1 ha

theorem map_number_update {l : List Nat} (ha : a ∉ l) (f : Nat → Nat) (i : Nat) :
    l.map (Function.update f a i) = l.map f := by
  refine List.map_congr_left fun c hc => Function.update_of_ne ?_ _ _
  rintro rfl
  exact ha hc

theorem Inv.localInv_retire (h : Inv n s) (ha : s.heap a = none) (k : Nat × Nat) :
    (s.retire m t a).LocalInv k := by
  have hnot := h.notMem_nodes ha k
  by_cases hk : k = (m, t)
  · subst hk
    refine Or.inr ?_
    simp only [State.retire, Function.update_self]
    rcases h.locals (m, t) with ⟨hfirst, hcount, hnodes⟩ | ⟨slots, refs, hnodes, hrefs, hcount, hlaid⟩
    · rw [hnodes, hcount, if_pos hfirst, if_pos hfirst]
      exact ⟨[], a, rfl, rfl, rfl, rfl, Function.update_self _ _ _⟩
    · have hne := hlaid.first_ne_null
      rw [hnodes] at hnot
      rw [hnodes, hcount, if_neg hne, if_neg hne]
      refine ⟨a :: slots, refs, rfl, hrefs, rfl, rfl, _, ?_, hlaid.update hnot⟩
      rw [Function.update_self, hrefs]
  · unfold State.LocalInv
    simp only [State.retire, Function.update_of_ne hk]
    rcases h.locals k with hempty | ⟨slots, refs, hnodes, hrefs, hcount, hlaid⟩
    · exact Or.inl hempty
    · rw [hnodes] at hnot
      exact Or.inr ⟨slots, refs, hnodes, hrefs, hcount, hlaid.update hnot⟩

theorem Inv.belongs_retire (h : Inv n s) (ha : s.heap a = none) {i : Nat} {c : Place} :
    (s.retire m t a).Belongs i c ↔ i = s.created ∧ c = .localBatch (m, t) ∨ s.Belongs i c := by
  cases c with
  | handed b => simp [State.Belongs, State.retire]
  | localBatch k =>
    have hnot := h.notMem_nodes ha k
    by_cases hk : k = (m, t)
    · subst hk
      simp only [State.Belongs, State.retire, Function.update_self, List.map_cons, map_number_update hnot,
        List.mem_cons, and_true]
    · simp only [State.Belongs, State.retire, Function.update_of_ne hk, map_number_update hnot,
        Place.localBatch.injEq, hk, and_false, false_or]

theorem Inv.books_retire (h : Inv n s) (ha : s.heap a = none) : (s.retire m t a).Books where
  nodup_nodes := by
    intro k
    have hnot := h.notMem_nodes ha k
    by_cases hk : k = (m, t)
    · subst hk
      simp only [State.retire, Function.update_self, List.map_cons, map_number_update hnot]
      refine List.nodup_cons.mpr ⟨fun hm => ?_, h.books.nodup_nodes _⟩
      exact Nat.lt_irrefl _ (h.books.lt _ (.localBatch (m, t)) hm)
    · simp only [State.retire, Function.update_of_ne hk, map_number_update hnot]
      exact h.books.nodup_nodes k
  nodup_members := h.books.nodup_members
  lt := by
    intro i c hc
    rcases (h.belongs_retire ha).mp hc with ⟨rfl, _⟩ | hc
    · exact Nat.lt_succ_self _
    · exact Nat.lt_succ_of_lt (h.books.lt i c hc)
  placed := by
    intro i hi
    rcases Nat.lt_succ_iff_lt_or_eq.mp hi with hi | rfl
    · obtain ⟨c, hc⟩ := h.books.placed i hi
      exact ⟨c, (h.belongs_retire ha).mpr (Or.inr hc)⟩
    · exact ⟨_, (h.belongs_retire ha).mpr (Or.inl ⟨rfl, rfl⟩)⟩
  unique := by
    intro i c c' hc hc'
    rcases (h.belongs_retire ha).mp hc with ⟨hi, rfl⟩ | hc <;>
      rcases (h.belongs_retire ha).mp hc' with ⟨hi', rfl⟩ | hc'
    · rfl
    · exact absurd (h.books.lt i c' hc') (hi ▸ Nat.lt_irrefl _)
    · exact absurd (h.books.lt i c hc) (hi' ▸ Nat.lt_irrefl _)
    · exact h.books.unique i c c' hc hc'

theorem Inv.retire (h : Inv n s) (ha : s.heap a = none) (hmem : s.tracker.mem a = none) :
    Inv n (s.retire m t a) where
  tracker := h.tracker
  locals := h.localInv_retire ha
  apart := by
    intro c hc
    by_cases hca : c = a
    · subst hca
      exact hmem
    · simp only [State.retire, Function.update_of_ne hca] at hc
      exact h.apart c hc
  owned := by
    intro k c
    have hnot := h.notMem_nodes ha k
    by_cases hca : c = a
    · subst hca
      by_cases hk : k = (m, t)
      · subst hk
        simp [State.retire]
      · simp [State.retire, Function.update_of_ne hk, hnot, Ne.symm hk]
    · simp only [State.retire, Function.update_of_ne hca]
      by_cases hk : k = (m, t)
      · subst hk
        rw [Function.update_self, List.mem_cons, h.owned, or_iff_right hca]
      · rw [Function.update_of_ne hk, h.owned]
  history := by
    intro b hb
    refine (h.history b hb).keep rfl rfl rfl (fun j c hj hc => ?_) rfl rfl
    -- a node that is not deleted is allocated, so that its address is not given out
    have hne : c ≠ a := by
      rintro rfl
      obtain ⟨nx, hlay⟩ := (h.tracker.batches b hb).layout j c hj hc
      rw [hmem] at hlay
      cases hlay
    exact Function.update_of_ne hne _ _
  unused := h.unused
  books := h.books_retire ha

/-! ### A batch is handed over -/

theorem ptr_eq {B : Tracker.Batch} {j : Nat} {p : Ptr} (h : some p = B.nodes[j]?.map .node) :
    B.ptr j = p := by
  obtain ⟨a, ha, rfl⟩ := Option.map_eq_some_iff.mp h.symm
  exact Tracker.Batch.ptr_of_getElem? ha

/-- The nodes handed over are those of a batch that the tracker takes. -/
theorem Inv.handed_eq (h : Inv n s) {k : Nat × Nat} {B : Tracker.Batch}
    (hnodes : s.nodes k = B.nodes) (hrefs : (s.localBatch k).refs = .node B.refs)
    (hlaid : Laid s.heap B.refs (s.localBatch k).first B.slots) :
    (fun a => (s.handed k a).or (s.tracker.mem a)) = B.alloc s.tracker.created s.tracker.mem := by
  have hnd : B.nodes.Nodup := hnodes ▸ (h.books.nodup_nodes k).of_map
  funext a
  by_cases ha : a ∈ B.nodes
  · obtain ⟨_, howner⟩ := (h.owned k a).mp (hnodes ▸ ha)
    obtain ⟨j, hj⟩ := List.mem_iff_getElem?.mp ha
    rw [Tracker.Batch.alloc_node hnd hj, State.handed, if_pos howner, hrefs]
    rcases hlaid.node hj with ⟨hlt, q, hq, hheap⟩ | ⟨heq, rfl, hheap⟩
    · have hne : a ≠ B.refs := by
        rintro rfl
        have hj' := B.nodes_refs
        have hij := (List.getElem?_inj (List.getElem?_eq_some_iff.mp hj).1 hnd).mp (hj.trans hj'.symm)
        exact absurd hij (Nat.ne_of_lt hlt)
      simp only [hheap, Option.map_some, Option.some_or, Ptr.node.injEq, if_neg hne, if_pos hlt]
      rw [ptr_eq hq]
    · simp only [hheap, Option.map_some, Option.some_or, if_true, heq, Nat.lt_irrefl, if_false]
      rw [ptr_eq hlaid.first_eq]
  · rw [Tracker.Batch.alloc_other ha, State.handed]
    split
    · next howner =>
      have hnone : s.heap a = none := by
        by_contra hne
        exact ha (hnodes ▸ (h.owned k a).mpr ⟨hne, howner⟩)
      rw [hnone]
      rfl
    · rfl

theorem Inv.handOver_tracker (h : Inv n s) {r : Retire} {slots : List Nat} {refs : Nat}
    {rs : List Retire}
    (hnodes : s.nodes (r.manager, t) = slots ++ [refs])
    (hrefs : (s.localBatch (r.manager, t)).refs = .node refs)
    (hlaid : Laid s.heap refs (s.localBatch (r.manager, t)).first slots) :
    (s.handOver n r t refs rs).tracker = s.tracker.enterAdd n t slots refs := by
  generalize hB : (⟨slots, refs, (t, (s.tracker.stack t).length), 0, false, s.tracker.openSections n,
    ∅, ∅, 0, (0, 0), 0⟩ : Tracker.Batch) = B
  have hslots : B.slots = slots := by rw [← hB]
  have hBrefs : B.refs = refs := by rw [← hB]
  have hBnodes : B.nodes = slots ++ [refs] := by rw [Tracker.Batch.nodes, hslots, hBrefs]
  have hmem := h.handed_eq (B := B) (hnodes.trans hBnodes.symm) (hBrefs.symm ▸ hrefs)
    (by rw [hslots, hBrefs]; exact hlaid)
  have hptr : B.ptr 0 = (s.localBatch (r.manager, t)).first := ptr_eq (hBnodes ▸ hlaid.first_eq)
  simp only [State.handOver, Tracker.State.enterAdd, hnodes, List.dropLast_concat, hB, hmem, hptr]

theorem belongs_handOver {r : Retire} {refs : Nat} {rs : List Retire} {i : Nat} {c : Place} :
    (s.handOver n r t refs rs).Belongs i c ↔
      c = .handed s.tracker.created ∧ s.Belongs i (.localBatch (r.manager, t)) ∨
        c ≠ .localBatch (r.manager, t) ∧ s.Belongs i c := by
  cases c with
  | localBatch k =>
    by_cases hk : k = (r.manager, t)
    · subst hk
      simp [State.Belongs, State.handOver]
    · simp [State.Belongs, State.handOver, hk]
  | handed b =>
    by_cases hb : b = s.tracker.created
    · subst hb
      simp [State.Belongs, State.handOver]
    · have hlt : b < s.tracker.created + 1 ↔ b < s.tracker.created := by omega
      simp [State.Belongs, State.handOver, hb, hlt]

theorem Inv.books_handOver (h : Inv n s) {r : Retire} {refs : Nat} {rs : List Retire} :
    (s.handOver n r t refs rs).Books where
  nodup_nodes := by
    intro k
    by_cases hk : k = (r.manager, t)
    · subst hk
      simp only [State.handOver, Function.update_self]
      exact List.nodup_nil
    · simp only [State.handOver, Function.update_of_ne hk]
      exact h.books.nodup_nodes k
  nodup_members := by
    intro b hb
    simp only [State.handOver]
    rcases Nat.lt_succ_iff_lt_or_eq.mp hb with hb | rfl
    · rw [Function.update_of_ne (Nat.ne_of_lt hb)]
      exact h.books.nodup_members b hb
    · rw [Function.update_self]
      exact h.books.nodup_nodes _
  lt := by
    intro i c hc
    rcases belongs_handOver.mp hc with ⟨_, hc⟩ | ⟨_, hc⟩
    · exact h.books.lt i _ hc
    · exact h.books.lt i c hc
  placed := by
    intro i hi
    obtain ⟨c, hc⟩ := h.books.placed i hi
    by_cases hk : c = .localBatch (r.manager, t)
    · exact ⟨_, belongs_handOver.mpr (Or.inl ⟨rfl, hk ▸ hc⟩)⟩
    · exact ⟨c, belongs_handOver.mpr (Or.inr ⟨hk, hc⟩)⟩
  unique := by
    intro i c c' hc hc'
    rcases belongs_handOver.mp hc with ⟨hb, hk⟩ | ⟨hne, hk⟩ <;>
      rcases belongs_handOver.mp hc' with ⟨hb', hk'⟩ | ⟨hne', hk'⟩
    · rw [hb, hb']
    · exact absurd (h.books.unique i _ _ hk' hk) hne'
    · exact absurd (h.books.unique i _ _ hk hk') hne
    · exact h.books.unique i c c' hk hk'

/-- The batch handed over has visited nothing yet. -/
theorem Inv.history_handOver (h : Inv n s) {r : Retire} {slots : List Nat} {refs : Nat}
    {rs : List Retire}
    (hnodes : s.nodes (r.manager, t) = slots ++ [refs]) :
    (s.handOver n r t refs rs).History s.tracker.created := by
  obtain ⟨hvis, hret⟩ := h.unused _ (Nat.le_refl s.tracker.created)
  have hnew : ((s.handOver n r t refs rs).tracker.batch s.tracker.created).nodes =
      s.nodes (r.manager, t) := by
    simp only [State.handOver, Tracker.State.setStack, Tracker.State.setBatch, Function.update_self,
      Tracker.Batch.nodes, hnodes, List.dropLast_concat]
  have hdel : ((s.handOver n r t refs rs).tracker.batch s.tracker.created).deleted = 0 := by
    simp only [State.handOver, Tracker.State.setStack, Tracker.State.setBatch, Function.update_self]
  have hmem : (s.handOver n r t refs rs).members s.tracker.created =
      (s.nodes (r.manager, t)).map s.number := Function.update_self _ _ _
  refine ⟨?_, fun j a _ ha => ?_, ?_, fun hr => ?_⟩
  · rw [hnew, hmem, List.length_map]
  · rw [hnew] at ha
    rw [hmem, List.getElem?_map, ha]
    rfl
  · rw [hdel, List.take_zero]
    exact hvis
  · exact absurd (hret.symm.trans hr) Bool.false_ne_true

theorem Inv.localInv_handOver (h : Inv n s) {r : Retire} {refs : Nat} {rs : List Retire}
    (k : Nat × Nat) :
    (s.handOver n r t refs rs).LocalInv k := by
  by_cases hk : k = (r.manager, t)
  · subst hk
    refine Or.inl ⟨?_, ?_, ?_⟩ <;> simp only [State.handOver, Function.update_self]
  · unfold State.LocalInv
    simp only [State.handOver, Function.update_of_ne hk]
    rcases h.locals k with hempty | ⟨slots, refs, hnodes, hrefs, hcount, hlaid⟩
    · exact Or.inl hempty
    · refine Or.inr ⟨slots, refs, hnodes, hrefs, hcount, hlaid.congr fun a ha => ?_⟩
      have howner := ((h.owned k a).mp (hnodes ▸ ha)).2
      exact if_neg (howner ▸ hk)

theorem Inv.handOver (h : Inv n s) {r : Retire} {slots : List Nat} {refs : Nat} {rs : List Retire}
    (hnodes : s.nodes (r.manager, t) = slots ++ [refs])
    (hrefs : (s.localBatch (r.manager, t)).refs = .node refs)
    (hlaid : Laid s.heap refs (s.localBatch (r.manager, t)).first slots) (hn : n ≤ slots.length) :
    Inv n (s.handOver n r t refs rs) where
  tracker := by
    rw [h.handOver_tracker hnodes hrefs hlaid]
    refine h.tracker.entered ⟨hn, hnodes ▸ (h.books.nodup_nodes _).of_map, fun a ha => ?_⟩
    rw [h.apart a ((h.owned _ a).mp (hnodes ▸ ha)).1]
    rfl
  locals := h.localInv_handOver
  apart := by
    intro a ha
    simp only [State.handOver, State.handed] at ha ⊢
    split at ha
    · exact absurd rfl ha
    · next hne =>
      rw [if_neg hne, Option.none_or]
      exact h.apart a ha
  owned := by
    intro k a
    simp only [State.handOver]
    by_cases hk : k = (r.manager, t)
    · subst hk
      simp only [Function.update_self, List.not_mem_nil, false_iff]
      rintro ⟨hheap, howner⟩
      exact hheap (if_pos howner)
    · rw [Function.update_of_ne hk, h.owned]
      refine and_congr_left fun howner => ?_
      rw [if_neg (howner ▸ hk)]
  history := by
    intro b hb
    rcases Nat.lt_succ_iff_lt_or_eq.mp hb with hb | rfl
    · have hne := Nat.ne_of_lt hb
      have hB : (s.handOver n r t refs rs).tracker.batch b = s.tracker.batch b :=
        Function.update_of_ne hne _ _
      exact (h.history b hb).keep (by rw [hB]) (by rw [hB]) (Function.update_of_ne hne _ _)
        (fun _ _ _ _ => rfl) rfl rfl
    · exact h.history_handOver hnodes
  unused := fun b hb => h.unused b (Nat.le_of_succ_le hb)
  books := h.books_handOver

/-! ### Runs -/

theorem Inv.setFlags (h : Inv n s) (f : Nat × Nat → Bool) (g : Nat → List Retire) :
    Inv n { s with inProgress := f, retires := g } :=
  ⟨h.tracker, h.locals, h.apart, h.owned,
    fun b hb => (h.history b hb).keep rfl rfl rfl (fun _ _ _ _ => rfl) rfl rfl, h.unused, h.books.keep rfl rfl rfl rfl rfl⟩

/-- A batch that is handed over, and its nodes. -/
theorem Inv.full (h : Inv n s) {k : Nat × Nat} (hc : 0 < (s.localBatch k).counter) :
    ∃ slots refs, s.nodes k = slots ++ [refs] ∧ (s.localBatch k).refs = .node refs ∧
      (s.localBatch k).counter = slots.length + 1 ∧ Laid s.heap refs (s.localBatch k).first slots := by
  refine (h.locals k).resolve_left ?_
  rintro ⟨_, hzero, _⟩
  rw [hzero] at hc
  cases hc

theorem Inv.loop (h : Inv cfg.numThreads s) {r : Retire} {rs : List Retire}
    (hn : cfg.numThreads ≤ cfg.threshold r.manager) (hl : s.loop cfg r t rs = some s') :
    Inv cfg.numThreads s' := by
  simp only [State.loop] at hl
  split at hl
  · cases hl
    exact h.setFlags _ _
  · split at hl
    · next hc =>
      obtain ⟨slots, refs, hnodes, hrefs, hcount, hlaid⟩ := h.full (Nat.zero_lt_of_lt hc.2)
      rw [hrefs] at hl
      cases hl
      have hlt := hc.2
      rw [hcount] at hlt
      exact h.handOver hnodes hrefs hlaid (Nat.le_trans hn (Nat.le_of_lt_succ hlt))
    · cases hl
      exact h.setFlags _ _

theorem record_of_not_callback (hs : ∀ b p q fs, s.tracker.stack t ≠ .callback b p q :: fs) :
    s.record t = s := by
  unfold State.record
  split
  · next b a q fs hst => exact absurd hst (hs b _ q fs)
  · rfl

theorem Inv.run (h : Inv cfg.numThreads s)
    (hr : Tracker.next cfg.toConfig s.tracker (.run t) = some tr') :
    Inv cfg.numThreads ((s.record t).setTracker tr') := by
  have hi := Tracker.inv_next h.tracker hr
  by_cases hs : ∃ b p q fs, s.tracker.stack t = .callback b p q :: fs
  · obtain ⟨b, p, q, fs, hs⟩ := hs
    exact h.deleted hs hi hr
  · rw [record_of_not_callback (fun b p q fs he => hs ⟨b, p, q, fs, he⟩)]
    exact h.tracked hi ((kept_run hr).resolve_right hs)

theorem Inv.next (hn : ∀ m, cfg.numThreads ≤ cfg.threshold m) (h : Inv cfg.numThreads s) {l : Label}
    (hl : next cfg s l = some s') : Inv cfg.numThreads s' := by
  cases l with
  | begin t =>
    obtain ⟨_, hl⟩ := Option.ite_none_right_eq_some.mp hl
    obtain ⟨tr', htr, rfl⟩ := Option.map_eq_some_iff.mp hl
    have hi := Tracker.inv_next h.tracker htr
    obtain ⟨_, htr⟩ := Option.ite_none_right_eq_some.mp htr
    cases htr
    exact h.tracked hi kept_begin
  | end_ t =>
    obtain ⟨_, hl⟩ := Option.ite_none_right_eq_some.mp hl
    obtain ⟨tr', htr, rfl⟩ := Option.map_eq_some_iff.mp hl
    have hi := Tracker.inv_next h.tracker htr
    obtain ⟨_, htr⟩ := Option.ite_none_right_eq_some.mp htr
    cases htr
    exact h.tracked hi kept_end
  | retire m t p a =>
    obtain ⟨_, hl⟩ := Option.ite_none_right_eq_some.mp hl
    cases p with
    | none =>
      cases hl
      exact h
    | some p =>
      obtain ⟨⟨hheap, hmem⟩, hl⟩ := Option.ite_none_right_eq_some.mp hl
      cases hl
      exact h.retire hheap hmem
  | run t =>
    simp only [Batches.next] at hl
    split at hl
    · next r rs _ => exact h.loop (hn r.manager) hl
    · obtain ⟨tr', htr, rfl⟩ := Option.map_eq_some_iff.mp hl
      exact h.run htr

theorem reach_inv (hn : ∀ m, cfg.numThreads ≤ cfg.threshold m) (hr : (machine cfg).Reach s) :
    Inv cfg.numThreads s := by
  refine hr.invariant (fun s hs => ?_) (fun s l s' h hl => h.next hn hl)
  cases hs
  exact Inv.initial cfg.numThreads

/-! ### A `free_batch` that is not interrupted -/

theorem record_members : (s.record t).members = s.members := by
  unfold State.record
  split <;> rfl

theorem record_retires : (s.record t).retires = s.retires := by
  unfold State.record
  split <;> rfl

theorem retiring_congr (hr : s'.retires t = s.retires t)
    (hl : (s'.tracker.stack t).length = (s.tracker.stack t).length) : s'.retiring t = s.retiring t := by
  unfold State.retiring
  rw [hr, hl]

/-- A step of the tracker by a thread that is not in a `retire`. -/
theorem Inv.step (h : Inv cfg.numThreads s) (hret : s.retiring t = none)
    (hr : Tracker.next cfg.toConfig s.tracker (.run t) = some tr') :
    ∃ s', (machine cfg).next s (.run t) = some s' ∧ Inv cfg.numThreads s' ∧ s'.tracker = tr' ∧
      s'.members = s.members ∧
      ((tr'.stack t).length = (s.tracker.stack t).length → s'.retiring t = none) := by
  refine ⟨(s.record t).setTracker tr', ?_, h.run hr, rfl, record_members, fun hl => ?_⟩
  · change Batches.next cfg s (.run t) = _
    simp only [Batches.next, hret, hr, Option.map_some]
  · rw [← hret]
    exact retiring_congr (congrFun record_retires t) hl

theorem run_freeStart {p : Ptr} (h : Tracker.Inv n s.tracker)
    (hs : s.tracker.stack t = .freeStart b p :: fs) :
    ∃ q, s.tracker.run n t (s.tracker.stack t) = some (s.tracker.setStack t (.freeNode b q :: fs)) := by
  obtain ⟨r, nd, hget, _⟩ := h.freeStarted hs
  refine ⟨nd.blink, ?_⟩
  rw [hs]
  simp only [Tracker.State.run, Tracker.State.addStep, Tracker.State.freeStep, hget, Option.none_or]

theorem run_freeNode {p : Ptr} (h : Tracker.Inv n s.tracker)
    (hs : s.tracker.stack t = .freeNode b p :: fs) :
    ∃ q, s.tracker.run n t (s.tracker.stack t) = some (s.tracker.setStack t (.callback b p q :: fs)) := by
  obtain ⟨q, hq, _⟩ := h.freedNode hs
  refine ⟨q, ?_⟩
  rw [hs]
  simp only [Tracker.State.run, Tracker.State.addStep, Tracker.State.freeStep, hq, Option.none_or]

theorem Inv.visited_all (h : Inv n s) (hb : b < s.tracker.created)
    (hd : (s.tracker.batch b).deleted = (s.tracker.batch b).nodes.length) : s.visited b = s.members b := by
  rw [(h.history b hb).visited, hd, ← (h.history b hb).size, List.take_length]

/-- One round of the loop of `free_batch`. -/
theorem Inv.freeOne (h : Inv cfg.numThreads s) {p : Ptr}
    (hs : s.tracker.stack t = .freeNode b p :: fs)
    (hret : s.retiring t = none) :
    ∃ q s', (machine cfg).exec [.run t, .run t] s = some s' ∧ Inv cfg.numThreads s' ∧
      s'.members = s.members ∧ b < s'.tracker.created ∧ (s'.tracker.batch b).nodes = (s.tracker.batch b).nodes ∧
      (s'.tracker.batch b).deleted = (s.tracker.batch b).deleted + 1 ∧
      s'.tracker.stack t = (if q = .null then fs else .freeNode b q :: fs) ∧
      (q = .null ↔ (s.tracker.batch b).deleted + 1 = (s.tracker.batch b).nodes.length) ∧
      (q ≠ .null → s'.retiring t = none) := by
  obtain ⟨q, hrun⟩ := run_freeNode h.tracker hs
  obtain ⟨s₁, hs₁, h₁, htr₁, hmem₁, hret₁⟩ := h.step hret hrun
  have hstack₁ : s₁.tracker.stack t = .callback b p q :: fs := by
    rw [htr₁]
    exact Function.update_self _ _ _
  have hbatch₁ : s₁.tracker.batch = s.tracker.batch := by rw [htr₁]; rfl
  obtain ⟨hf, _, hq⟩ := h₁.tracker.top hstack₁
  obtain ⟨a, _, ha, hrun₁⟩ := run_callback h₁.tracker hstack₁
  have hret₁ : s₁.retiring t = none := hret₁ (by rw [← htr₁, hstack₁, hs]; rfl)
  obtain ⟨s₂, hs₂, h₂, htr₂, hmem₂, hret₂⟩ := h₁.step hret₁ hrun₁
  have hlt := (List.getElem?_eq_some_iff.mp ha).1
  have hstack₂ : s₂.tracker.stack t = if q = .null then fs else .freeNode b q :: fs := by
    rw [htr₂]
    exact Function.update_self _ _ _
  have hbatch₂ : s₂.tracker.batch b =
      { s.tracker.batch b with deleted := (s.tracker.batch b).deleted + 1 } := by
    rw [htr₂, ← hbatch₁]
    exact Function.update_self _ _ _
  rw [hbatch₁] at hq hlt
  refine ⟨q, s₂, ?_, h₂, hmem₂.trans hmem₁, ?_, by rw [hbatch₂]; rfl, by rw [hbatch₂], hstack₂, ?_,
    fun hne => ?_⟩
  · rw [Machine.exec, hs₁, Option.bind_some, Machine.exec, hs₂]
    rfl
  · rw [htr₂]
    exact hf.lt
  · rw [hq, ptr_eq_null_iff]
    exact ⟨fun hle => Nat.le_antisymm hlt hle, fun heq => Nat.le_of_eq heq.symm⟩
  · refine hret₂ ?_
    rw [← htr₂, hstack₂, if_neg hne, hstack₁]
    rfl

/-- The loop of `free_batch` with `d + 1` nodes left. -/
theorem Inv.freeNodes (d : Nat) : ∀ {s : State} {p : Ptr}, Inv cfg.numThreads s →
    s.tracker.stack t = .freeNode b p :: fs → s.retiring t = none →
    (s.tracker.batch b).deleted + (d + 1) = (s.tracker.batch b).nodes.length →
    ∃ s', (machine cfg).exec (List.replicate (2 * (d + 1)) (.run t)) s = some s' ∧
      s'.tracker.stack t = fs ∧ s'.members = s.members ∧ s'.visited b = s.members b := by
  induction d with
  | zero =>
    intro s p h hs hret hd
    obtain ⟨q, s', hex, h', hmem, hb, hnodes, hdel, hstack, hq, _⟩ := h.freeOne hs hret
    rw [if_pos (hq.mpr hd)] at hstack
    refine ⟨s', hex, hstack, hmem, ?_⟩
    rw [h'.visited_all hb (by rw [hdel, hnodes, hd]), hmem]
  | succ d ih =>
    intro s p h hs hret hd
    obtain ⟨q, s₁, hex, h₁, hmem₁, hb, hnodes, hdel, hstack, hq, hret₁⟩ := h.freeOne hs hret
    have hne : q ≠ .null := fun he => by
      have := hq.mp he
      omega
    rw [if_neg hne] at hstack
    obtain ⟨s', hex', hstack', hmem', hvis⟩ := ih h₁ hstack (hret₁ hne) (by rw [hdel, hnodes]; omega)
    refine ⟨s', ?_, hstack', hmem'.trans hmem₁, hmem₁ ▸ hvis⟩
    rw [show 2 * (d + 1 + 1) = 2 + 2 * (d + 1) by omega, List.replicate_add]
    exact Machine.exec_append hex hex'

theorem Inv.completes (h : Inv cfg.numThreads s) {p : Ptr}
    (hs : s.tracker.stack t = .freeStart b p :: fs)
    (hret : s.retiring t = none) :
    ∃ s', (machine cfg).exec (List.replicate (2 * (s.members b).length + 1) (.run t)) s = some s' ∧
      s'.tracker.stack t = fs ∧ s'.members b = s.members b ∧ s'.visited b = s.members b := by
  obtain ⟨hf, hdel, _⟩ := h.tracker.top hs
  obtain ⟨q, hrun⟩ := run_freeStart h.tracker hs
  obtain ⟨s₁, hs₁, h₁, htr₁, hmem₁, hret₁⟩ := h.step hret hrun
  have hstack₁ : s₁.tracker.stack t = .freeNode b q :: fs := by
    rw [htr₁]
    exact Function.update_self _ _ _
  have hbatch₁ : s₁.tracker.batch = s.tracker.batch := by rw [htr₁]; rfl
  have hlen : (s.members b).length = (s.tracker.batch b).slots.length + 1 := by
    rw [(h.history b hf.lt).size, Tracker.Batch.nodes, List.length_append]
    rfl
  have hret₁ : s₁.retiring t = none := hret₁ (by rw [← htr₁, hstack₁, hs]; rfl)
  obtain ⟨s', hex, hstack, hmem, hvis⟩ := h₁.freeNodes (s.tracker.batch b).slots.length hstack₁ hret₁
    (by rw [hbatch₁, hdel, ← (h.history b hf.lt).size, hlen, Nat.zero_add])
  refine ⟨s', ?_, hstack, by rw [hmem, hmem₁], hmem₁ ▸ hvis⟩
  rw [hlen, List.replicate_succ, Machine.exec, hs₁, Option.bind_some]
  exact hex

/-! ### The batches are well formed -/

theorem Inv.built (h : Inv n s) (k : Nat × Nat) : (s.localBatch k).Built s.heap := by
  rcases h.locals k with ⟨hfirst, hcount, _⟩ | ⟨slots, refs, hnodes, hrefs, hcount, hlaid⟩
  · exact Or.inl ⟨hfirst, hcount⟩
  · exact Or.inr ⟨slots, refs, hrefs, hcount, hnodes ▸ (h.books.nodup_nodes k).of_map, hlaid.chain⟩

/-- The rest of a batch that is not freed, in memory. -/
theorem chain_of_layout {B : Tracker.Batch} {mem : Nat → Option Node}
    (h : ∀ j a, B.nodes[j]? = some a → ∃ nx, mem a = some ⟨b, B.linkAt j, nx, B.blinkAt j⟩)
    (slots : List Nat) :
    ∀ {l : List Nat}, B.slots = l ++ slots → Chain mem B.refs (B.ptr l.length) slots := by
  induction slots with
  | nil =>
    intro l hB
    have hlen : l.length = B.slots.length := by rw [hB, List.append_nil]
    have hrefs := B.nodes_refs
    obtain ⟨nx, hm⟩ := h _ _ hrefs
    rw [hlen]
    refine ⟨Tracker.Batch.ptr_of_getElem? hrefs, _, B.refc, hm, ?_⟩
    simp only [Tracker.Batch.linkAt, Nat.lt_irrefl, if_false]
  | cons a slots ih =>
    intro l hB
    have hlt : l.length < B.slots.length := by
      rw [hB, List.length_append, List.length_cons]
      omega
    have ha : B.nodes[l.length]? = some a := Tracker.Batch.nodes_slot (by rw [hB]; simp)
    obtain ⟨nx, hm⟩ := h _ _ ha
    refine ⟨Tracker.Batch.ptr_of_getElem? ha, _, B.ptr (l.length + 1), hm, ?_, ?_, ?_⟩
    · simp only [Tracker.Batch.linkAt, if_pos hlt]
    · simp only [Tracker.Batch.blinkAt, if_pos hlt]
    · have hrest := ih (l := l ++ [a]) (by rw [hB]; simp)
      rw [List.length_append] at hrest
      exact hrest

theorem frameInv_of_mem {tr : Tracker.State} {f : Tracker.Frame} (h : Tracker.StackInv n tr t fs)
    (hf : f ∈ fs) :
    ∃ x, Tracker.FrameInv n tr x f := by
  induction fs with
  | nil => cases hf
  | cons g fs ih =>
    rcases List.mem_cons.mp hf with rfl | hf
    · exact ⟨_, h.1⟩
    · exact ih h.2 hf

theorem Inv.links (h : Inv n s) {f : Tracker.Frame} (hf : f ∈ s.tracker.stack t) {p : Ptr}
    (hp : curr f = some p) :
    ∃ a nd q, p = .node a ∧ s.tracker.mem a = some nd ∧ nd.link = .bnext q := by
  obtain ⟨x, hfr⟩ := frameInv_of_mem (h.tracker.frames t) hf
  -- the node is one of the first `num_threads` of a batch that has that many SLOT nodes
  have hslot : ∃ b pos cnt j, Tracker.Adding s.tracker x b pos cnt ∧
      p = (s.tracker.batch b).ptr j ∧ j < n := by
    cases f with
    | setNext b c cnt i prev =>
      cases hp
      exact ⟨b, i, cnt, i, hfr.1, hfr.2.1, hfr.2.2.1⟩
    | push b c cnt i prev =>
      cases hp
      exact ⟨b, i, cnt, i, hfr.1, hfr.2.1, hfr.2.2.1⟩
    | advance b c cnt i =>
      cases hp
      exact ⟨b, i + 1, cnt, i, hfr.1, hfr.2.1, hfr.2.2⟩
    | guard => cases hp
    | addBatch b c cnt i => cases hp
    | freeStart b c => cases hp
    | freeNode b c => cases hp
    | callback b c q => cases hp
  obtain ⟨b, pos, cnt, j, hadd, hpj, hj⟩ := hslot
  obtain ⟨a, nx, _, hptr, _, hmem⟩ := h.tracker.slot_live hadd hj
  exact ⟨a, _, _, hpj.trans hptr, hmem, rfl⟩

theorem Inv.starts (h : Inv n s) {p : Ptr} (hf : .freeStart b p ∈ s.tracker.stack t) :
    s.visited b = [] ∧
    ∃ r nd, p = .node r ∧ s.tracker.mem r = some nd ∧ nd.link = .refc 0 := by
  obtain ⟨x, hfr, hdel, hp⟩ := frameInv_of_mem (h.tracker.frames t) hf
  have hb := h.tracker.batches b hfr.lt
  obtain ⟨nx, hm⟩ := hb.layout _ _ hfr.left (s.tracker.batch b).nodes_refs
  refine ⟨?_, _, _, hp, hm, ?_⟩
  · rw [(h.history b hfr.lt).visited, hdel, List.take_zero]
  · simp only [Tracker.Batch.linkAt, Nat.lt_irrefl, if_false, hb.refc_of_freed hfr.freed]

theorem Inv.wellFormed (h : Inv cfg.numThreads s) : s.WellFormed cfg where
  fault := h.tracker.fault
  localBatches := h.built
  enough := fun b hb => (h.tracker.batches b hb).enough
  chains := by
    intro b hb hf
    have hbi := h.tracker.batches b hb
    refine chain_of_layout (b := b) (fun j a ha => ?_) (s.tracker.batch b).slots (l := []) rfl
    exact hbi.layout j a (hbi.kept hf ▸ Nat.zero_le j) ha
  links := fun t f hf p hp => h.links hf hp
  starts := fun t b p hf => h.starts hf
  visits := by
    intro b hb
    have hb' := h.history b hb
    refine ⟨h.books.nodup_members b hb, ?_, fun hret => h.visited_all hb (hb'.returned hret)⟩
    rw [hb'.visited]
    exact List.take_prefix _ _
  completes := fun t b p fs hs hret => h.completes hs hret
  belongs := by
    intro i hi
    obtain ⟨c, hc⟩ := h.books.placed i hi
    exact ⟨c, hc, fun c' hc' => h.books.unique i c' c hc' hc⟩

/-! ### A batch that is too short -/

/-- Thread 0 has made `j` calls of `retire` and nothing else has happened. -/
structure Growing (cfg : Config) (m j : Nat) (s : State) : Prop where
  reach : (machine cfg).Reach s
  inv : Inv cfg.numThreads s
  tracker : s.tracker = .initial
  counter : (s.localBatch (m, 0)).counter = j
  inProgress : s.inProgress (m, 0) = false
  retires : s.retires 0 = []
  free : ∀ a, j ≤ a → s.heap a = none

theorem Growing.retire {j : Nat} (h : Growing cfg m j s) (hn : 0 < cfg.numThreads) :
    (machine cfg).next s (.retire m 0 (some 0) j) = some (s.retire m 0 j) ∧
      (machine cfg).next (s.retire m 0 j) (.run 0) = (s.retire m 0 j).loop cfg ⟨m, 0, false⟩ 0 [] := by
  have hret : s.retiring 0 = none := by simp only [State.retiring, h.retires]
  constructor
  · change Batches.next cfg s (.retire m 0 (some 0) j) = _
    have hmem : s.tracker.mem j = none := by rw [h.tracker]; rfl
    have hcall : s.tracker.mayCall 0 = true := by rw [h.tracker]; rfl
    simp only [Batches.next, hret, hmem, hcall, h.free j (Nat.le_refl j), hn, and_self, if_true]
  · have hret' : (s.retire m 0 j).retiring 0 = some (⟨m, 0, false⟩, []) := by
      simp [State.retiring, State.retire, h.retires, h.tracker, Tracker.State.initial]
    change Batches.next cfg _ (.run 0) = _
    simp only [Batches.next, hret']

theorem growing (hn : 0 < cfg.numThreads) (m j : Nat) (hj : j ≤ cfg.threshold m) :
    ∃ s, Growing cfg m j s := by
  induction j with
  | zero => exact ⟨.initial, .init rfl, Inv.initial _, rfl, rfl, rfl, rfl, fun _ _ => rfl⟩
  | succ j ih =>
    obtain ⟨s, h⟩ := ih (Nat.le_of_succ_le hj)
    obtain ⟨hretire, hrun⟩ := h.retire hn
    have hmem : s.tracker.mem j = none := by rw [h.tracker]; rfl
    have hcount : ((s.retire m 0 j).localBatch (m, 0)).counter = j + 1 := by
      simp only [State.retire, Function.update_self, h.counter]
    -- the batch is not full yet
    have hloop : (s.retire m 0 j).loop cfg ⟨m, 0, false⟩ 0 [] =
        some { s.retire m 0 j with retires := Function.update (s.retire m 0 j).retires 0 [] } := by
      simp only [State.loop, hcount, Nat.not_lt.mpr hj, and_false, if_false, Bool.false_eq_true]
    refine ⟨_, (h.reach.step _ hretire).step _ (hrun.trans hloop),
      (h.inv.retire (h.free j (Nat.le_refl j)) hmem).setFlags _ _, h.tracker, hcount, h.inProgress, ?_,
      fun a ha => ?_⟩
    · simp only [Function.update_self]
    · exact (Function.update_of_ne (Nat.ne_of_gt ha) _ _).trans (h.free a (Nat.le_of_succ_le ha))

/-- With a threshold below the number of threads a batch with too few SLOT nodes is handed over. -/
theorem not_enough (hm : cfg.threshold m < cfg.numThreads) :
    ∃ s, (machine cfg).Reach s ∧ 0 < s.tracker.created ∧
      (s.tracker.batch 0).slots.length = cfg.threshold m := by
  obtain ⟨s, h⟩ := growing (Nat.zero_lt_of_lt hm) m (cfg.threshold m) (Nat.le_refl _)
  obtain ⟨hretire, hrun⟩ := h.retire (Nat.zero_lt_of_lt hm)
  have hmem : s.tracker.mem (cfg.threshold m) = none := by rw [h.tracker]; rfl
  have hinv : Inv cfg.numThreads (s.retire m 0 (cfg.threshold m)) :=
    h.inv.retire (h.free _ (Nat.le_refl _)) hmem
  have hcount : ((s.retire m 0 (cfg.threshold m)).localBatch (m, 0)).counter = cfg.threshold m + 1 := by
    simp only [State.retire, Function.update_self, h.counter]
  obtain ⟨slots, refs, hnodes, hrefs, hcount', _⟩ := hinv.full (k := (m, 0)) (hcount ▸ Nat.succ_pos _)
  have hprog : (s.retire m 0 (cfg.threshold m)).inProgress (m, 0) = false := h.inProgress
  have hloop : (s.retire m 0 (cfg.threshold m)).loop cfg ⟨m, 0, false⟩ 0 [] =
      some ((s.retire m 0 (cfg.threshold m)).handOver cfg.numThreads ⟨m, 0, false⟩ 0 refs []) := by
    simp only [State.loop, hcount, hprog, Nat.lt_succ_self, and_self, if_true, Bool.false_eq_true,
      if_false, hrefs]
  have hinit : (s.retire m 0 (cfg.threshold m)).tracker.created = 0 := by
    change s.tracker.created = 0
    rw [h.tracker]
    rfl
  refine ⟨_, (h.reach.step _ hretire).step _ (hrun.trans hloop), ?_, ?_⟩
  · simp only [State.handOver, hinit]
    exact Nat.zero_lt_one
  · simp only [State.handOver, hinit, Tracker.State.setStack, Tracker.State.setBatch, Function.update_self,
      hnodes, List.dropLast_concat]
    omega

end Steps

/-- **The batches are well formed** in every state of every run exactly when no product
`batch_size*num_threads`, as a `size_t`, is less than the number of threads. -/
theorem batches_wellFormed_iff (cfg : Config) :
    (∀ s, (machine cfg).Reach s → s.WellFormed cfg) ↔
      ∀ m, cfg.numThreads ≤ cfg.batchSize m * cfg.numThreads % 2 ^ 64 := by
  constructor
  · intro h m
    by_contra hlt
    obtain ⟨s, hr, hc, hlen⟩ := not_enough (m := m) (Nat.lt_of_not_le hlt)
    have hle := (h s hr).enough 0 hc
    rw [hlen] at hle
    exact hlt hle
  · intro hn s hr
    exact (reach_inv hn hr).wellFormed

/-- Products that fit into a `size_t`, such as those of the default `batch_size`. -/
theorem batches_wellFormed_of_lt {cfg : Config} (h : ∀ m, cfg.batchSize m * cfg.numThreads < 2 ^ 64)
    {s : State}
    (hr : (machine cfg).Reach s) : s.WellFormed cfg := by
  refine (reach_inv (fun m => ?_) hr).wellFormed
  rw [Config.threshold, Nat.mod_eq_of_lt (h m)]
  exact Nat.le_mul_of_pos_left _ (cfg.batchSize_pos m)

-- one thread with `batch_size` 1: two nodes are handed over, and a callback for the first retires again
example : ((machine ⟨⟨1, by decide⟩, fun _ => 1, fun _ => by decide, fun _ => by decide⟩).exec
    ([.retire 0 0 (some 1) 10, .run 0, .retire 0 0 (some 2) 11] ++ List.replicate 6 (.run 0) ++
      [.retire 0 0 (some 3) 12] ++ List.replicate 5 (.run 0)) .initial).map
    (fun s => (s.members 0, s.visited 0, s.returned 0, (s.localBatch (0, 0)).counter)) =
    some ([1, 0], [1, 0], true, 1) := by
  decide +kernel

/-- Two threads and a `batch_size` with which the product is zero. -/
def wrapped : Config := ⟨⟨2, by decide⟩, fun _ => 2 ^ 63, fun _ => by decide, fun _ => by decide⟩

/-- The first node that is retired is handed over as a batch, and `add_batch` reads the `bnext` of
this REFS node. -/
theorem wrapped_reads_refc :
    ∃ s, (machine wrapped).exec [.retire 0 0 (some 0x40) 10, .run 0, .run 0, .run 0] .initial = some s ∧
      s.tracker.created = 1 ∧ (s.tracker.batch 0).slots = [] ∧ s.tracker.fault = true ∧
      ¬ s.WellFormed wrapped := by
  have hex : ((machine wrapped).exec [.retire 0 0 (some 0x40) 10, .run 0, .run 0, .run 0] .initial).map
      (fun s => (s.tracker.created, (s.tracker.batch 0).slots, s.tracker.fault)) = some (1, [], true) := by
    decide +kernel
  obtain ⟨s, hs, hst⟩ := Option.map_eq_some_iff.mp hex
  simp only [Prod.mk.injEq] at hst
  refine ⟨s, hs, hst.1, hst.2.1, hst.2.2, fun h => ?_⟩
  exact absurd (h.fault.symm.trans hst.2.2) Bool.false_ne_true

end Cdrc.Hyaline.Batches
