import Mathlib.Logic.Function.Basic
import Cdrc.Lib.Runs
import Cdrc.CountedObject.LifeCycle

/-! # Hyaline: what becomes of a retired pointer

`acquire_retire_hyaline::retire` puts a node for every retired pointer into the
thread's local batch, whatever the type of the retire; a full batch goes to the
tracker. Only the batch's first node, its REFS node, keeps a pointer to the function
that is to be applied, and `free_batch` and the destructor apply that function to
every node of the batch.

The model is the retire layer of all threads with its re-entrancy: an `eject` may
retire again, and may end a critical section. When the tracker frees a batch it was
given is left open, so that what is proved here holds for every order in which that
happens. A node carries the type its retire was called with; the code does not store
it. -/
namespace Cdrc.Hyaline.Retire
open Cdrc.Lib.Runs Cdrc.CountedObject

variable {α : Type}

structure Config where
  numThreads : Nat
  batchSize : Nat := 2
  deriving DecidableEq, Repr

structure Node (α : Type) where
  id : Nat
  obj : α
  /-- the type this pointer was retired with -/
  type : RetireType
  /-- set in a REFS node only: which of `strong_eject`, `weak_eject` and
  `dispose_eject` the batch applies, by the type that function passes to `eject` -/
  decrement : Option RetireType
  deriving DecidableEq, Repr

structure Batch (α : Type) where
  /-- the chain from `first` along `bnext`, down to the REFS node -/
  first : List (Node α)
  refs : Option (Node α)
  counter : Nat
  deriving DecidableEq, Repr

/-- What `memory_manager_base::eject` does with a pointer. -/
inductive Action (α : Type)
  | decrementRefCnt (p : α)
  | decrementWeakCnt (p : α)
  | dispose (p : α)
  deriving DecidableEq, Repr

/-- `memory_manager_base::eject`. -/
def eject (p : α) : RetireType → Action α
  | .decrementStrongCount => .decrementRefCnt p
  | .decrementWeakCount => .decrementWeakCnt p
  | .dispose => .dispose p

/-- A call a thread is in. -/
inductive Frame (α : Type)
  /-- `retire`, before it tests the condition of its loop -/
  | retire
  /-- `retire`, inside `add_batch(batch_copy)` -/
  | addBatch
  /-- `free_batch(refs)`, with the nodes it has not reached yet -/
  | freeBatch (nodes : List (Node α)) (refs : Node α)
  /-- inside an `eject` -/
  | eject (a : Action α)
  /-- the destructor, at `local_batch[i]` -/
  | drain (i : Nat)
  /-- the destructor, with the nodes of `batch_copy` it has not reached yet -/
  | drainBatch (i : Nat) (nodes : List (Node α)) (refs : Node α)
  /-- the destructor, after the call for `node` -/
  | drained (i : Nat) (node : Node α) (nodes : List (Node α)) (refs : Node α)
  deriving DecidableEq, Repr

structure State (α : Type) where
  localBatch : Nat → Batch α
  inProgress : Nat → Bool
  stack : Nat → List (Frame α)
  /-- batches given to the tracker and not yet freed -/
  handed : List (List (Node α) × Node α)
  created : Nat
  /-- the nodes processed, with what was done -/
  log : List (Node α × Action α)

def State.initial : State α := ⟨fun _ => ⟨[], none, 0⟩, fun _ => false, fun _ => [], [], 0, []⟩

inductive Label (α : Type)
  /-- thread `t` calls `retire(p, type)` -/
  | retire (t : Nat) (p : Option α) (type : RetireType)
  /-- thread `t` calls `free_batch` on the `b`-th batch of the tracker -/
  | free (t : Nat) (b : Nat)
  /-- thread `t` runs the destructor -/
  | destruct (t : Nat)
  /-- thread `t` goes on with its innermost call -/
  | run (t : Nat)
  deriving DecidableEq, Repr

/-- The node that `retire` allocates and the batch it leaves. -/
def Batch.push (b : Batch α) (id : Nat) (p : α) (type : RetireType) : Batch α :=
  if b.first.isEmpty then
    let node : Node α := ⟨id, p, type, some type⟩
    ⟨[node], some node, b.counter + 1⟩
  else ⟨⟨id, p, type, none⟩ :: b.first, b.refs, b.counter + 1⟩

def State.setStack (s : State α) (t : Nat) (fs : List (Frame α)) : State α :=
  { s with stack := Function.update s.stack t fs }

/-- `batch_copy = batch; batch.first = nullptr; batch.counter = 0`. -/
def State.takeBatch (s : State α) (t : Nat) : State α :=
  { s with localBatch := Function.update s.localBatch t ⟨[], (s.localBatch t).refs, 0⟩ }

def State.setInProgress (s : State α) (t : Nat) (b : Bool) : State α :=
  { s with inProgress := Function.update s.inProgress t b }

/-- `decrement(node->obj)`: the call is entered. -/
def State.call (s : State α) (t : Nat) (node : Node α) (type : RetireType) (fs : List (Frame α)) :
    State α :=
  { s.setStack t (.eject (eject node.obj type) :: fs) with
    log := s.log ++ [(node, eject node.obj type)] }

/-- The thread is in user code or in an `eject`, where it can make calls. -/
def mayCall : List (Frame α) → Bool
  | [] | .eject _ :: _ => true
  | _ => false

/-- `free_batch` is called from `add_batch`, or from a `traverse` in user code. -/
def mayFree : List (Frame α) → Bool
  | .addBatch :: _ => true
  | fs => mayCall fs

def State.retire (s : State α) (t : Nat) (p : α) (type : RetireType) : State α :=
  { s.setStack t (.retire :: s.stack t) with
    localBatch := Function.update s.localBatch t ((s.localBatch t).push s.created p type)
    created := s.created + 1 }

def run (cfg : Config) (s : State α) (t : Nat) : List (Frame α) → Option (State α)
  | [] => none
  | .retire :: fs =>
    let batch := s.localBatch t
    if !s.inProgress t && cfg.batchSize * cfg.numThreads < batch.counter then
      batch.refs.map fun refs =>
        { ((s.takeBatch t).setInProgress t true).setStack t (.addBatch :: .retire :: fs) with
          handed := s.handed ++ [(batch.first, refs)] }
    else some (s.setStack t fs)
  | .addBatch :: fs => some ((s.setInProgress t false).setStack t fs)
  | .freeBatch [] _ :: fs => some (s.setStack t fs)
  | .freeBatch (node :: nodes) refs :: fs =>
    refs.decrement.map fun type => s.call t node type (.freeBatch nodes refs :: fs)
  | .eject _ :: fs => some (s.setStack t fs)
  | .drain i :: fs =>
    if i < cfg.numThreads then
      if (s.localBatch i).first.isEmpty then some (s.setStack t (.drain (i + 1) :: fs))
      else (s.localBatch i).refs.map fun refs =>
        (s.takeBatch i).setStack t (.drainBatch i (s.localBatch i).first refs :: fs)
    else if (s.localBatch t).first.isEmpty then some (s.setStack t fs)
    else some (s.setStack t (.drain 0 :: fs))
  | .drainBatch i [] _ :: fs => some (s.setStack t (.drain i :: fs))
  | .drainBatch i (node :: nodes) refs :: fs =>
    refs.decrement.map fun type =>
      (s.setInProgress t true).call t node type (.drained i node nodes refs :: fs)
  | .drained i node nodes refs :: fs =>
    some ((s.setInProgress t false).setStack t
      ((if node.id = refs.id then .drain i else .drainBatch i nodes refs) :: fs))

def next (cfg : Config) (s : State α) : Label α → Option (State α)
  | .retire t p type =>
    if t < cfg.numThreads ∧ mayCall (s.stack t) then
      match p with
      | none => some s
      | some p => some (s.retire t p type)
    else none
  | .free t b =>
    if t < cfg.numThreads ∧ mayFree (s.stack t) then
      s.handed[b]?.map fun (nodes, refs) =>
        { s.setStack t (.freeBatch nodes refs :: s.stack t) with handed := s.handed.eraseIdx b }
    else none
  | .destruct t =>
    if t < cfg.numThreads ∧ s.stack t = [] then some (s.setStack t [.drain 0]) else none
  | .run t => run cfg s t (s.stack t)

def machine (α : Type) (cfg : Config) : Machine (State α) (Label α) where
  init s := s = .initial
  next := next cfg

/-- Every node processed so far was ejected with the type it was retired with. -/
def Faithful (s : State α) : Prop := ∀ e ∈ s.log, e.2 = eject e.1.obj e.1.type

/-! ## A batch of two types

With one thread a batch is handed over at its third node: a strong decrement first,
then two weak ones, which are ejected as strong. -/

def mixed : List (Label Nat) :=
  [.retire 0 (some 10) .decrementStrongCount, .run 0, .retire 0 (some 11) .decrementWeakCount, .run 0,
    .retire 0 (some 12) .decrementWeakCount, .run 0, .free 0 0, .run 0]

theorem processed_with_other_type : ∃ s, (machine Nat ⟨1, 2⟩).Reach s ∧ ¬ Faithful s := by
  have he : ∃ s, (machine Nat ⟨1, 2⟩).exec mixed .initial = some s ∧
      s.log = [(⟨2, 12, .decrementWeakCount, none⟩, .decrementRefCnt 12)] := ⟨_, rfl, rfl⟩
  obtain ⟨s, hs, hlog⟩ := he
  refine ⟨s, (Machine.Reach.init (M := machine Nat ⟨1, 2⟩) rfl).exec hs, ?_⟩
  intro hf
  have := hf _ (hlog ▸ List.mem_singleton_self _)
  cases this

/-! ## Batches of one type -/

/-- A retire into a batch that has been started passes the type the batch was started
with. -/
def ok (s : State α) : Label α → Prop
  | .retire t (some _) type =>
    (s.localBatch t).first.isEmpty = true ∨ (s.localBatch t).refs.map Node.type = some type
  | _ => True

instance (s : State α) : (a : Label α) → Decidable (ok s a)
  | .retire _ (some _) _ => inferInstanceAs (Decidable (_ ∨ _))
  | .retire _ none _ | .free _ _ | .destruct _ | .run _ => inferInstanceAs (Decidable True)

/-- The function of the batch's REFS node suits all of these nodes. -/
def Uniform (nodes : List (Node α)) (refs : Node α) : Prop :=
  refs.decrement = some refs.type ∧ ∀ n ∈ nodes, n.type = refs.type

def FrameInv : Frame α → Prop
  | .freeBatch nodes refs | .drainBatch _ nodes refs => Uniform nodes refs
  | .drained _ _ nodes refs => Uniform nodes refs
  | _ => True

structure Inv (s : State α) : Prop where
  batches : ∀ t refs, (s.localBatch t).refs = some refs → Uniform (s.localBatch t).first refs
  frames : ∀ t, ∀ f ∈ s.stack t, FrameInv f
  handed : ∀ b ∈ s.handed, Uniform b.1 b.2
  log : Faithful s

section Steps
variable {cfg : Config} {s s' : State α} {t : Nat}

theorem inv_initial : Inv (.initial : State α) where
  batches := by intro t refs h; cases h
  frames := by intro t f h; cases h
  handed := by intro b h; cases h
  log := by intro e h; cases h

theorem Uniform.nil {nodes : List (Node α)} {refs : Node α} (h : Uniform nodes refs) :
    Uniform [] refs :=
  ⟨h.1, fun _ hn => by cases hn⟩

theorem Uniform.tail {n : Node α} {nodes : List (Node α)} {refs : Node α}
    (h : Uniform (n :: nodes) refs) : Uniform nodes refs :=
  ⟨h.1, fun m hm => h.2 m (List.mem_cons_of_mem _ hm)⟩

theorem Inv.setStack (i : Inv s) {l : List (Frame α)} (hl : ∀ f ∈ l, FrameInv f) :
    Inv (s.setStack t l) where
  batches := i.batches
  frames := by
    intro u f hf
    by_cases hu : u = t
    · subst hu
      simp only [State.setStack, Function.update_self] at hf
      exact hl f hf
    · simp only [State.setStack, Function.update_of_ne hu] at hf
      exact i.frames u f hf
  handed := i.handed
  log := i.log

theorem Inv.setInProgress (i : Inv s) (b : Bool) : Inv (s.setInProgress t b) :=
  ⟨i.batches, i.frames, i.handed, i.log⟩

theorem Inv.takeBatch (i : Inv s) (u : Nat) : Inv (s.takeBatch u) where
  batches := by
    intro v refs hr
    by_cases hv : v = u
    · subst hv
      simp only [State.takeBatch, Function.update_self] at hr ⊢
      exact (i.batches v refs hr).nil
    · simp only [State.takeBatch, Function.update_of_ne hv] at hr ⊢
      exact i.batches v refs hr
  frames := i.frames
  handed := i.handed
  log := i.log

/-- A node is processed with the function of a uniform batch it belongs to. -/
theorem Inv.call (i : Inv s) {n : Node α} {nodes : List (Node α)} {refs : Node α} {type : RetireType}
    {fs : List (Frame α)} (hu : Uniform (n :: nodes) refs) (hd : refs.decrement = some type)
    (hfs : ∀ f ∈ fs, FrameInv f) : Inv (s.call t n type fs) := by
  have htype : type = n.type := by
    have h1 := hu.1
    rw [hd] at h1
    cases h1
    exact (hu.2 n List.mem_cons_self).symm
  have hstack : Inv (s.setStack t (.eject (eject n.obj type) :: fs)) := by
    refine i.setStack ?_
    intro f hf
    rcases List.mem_cons.mp hf with rfl | hf
    · trivial
    · exact hfs f hf
  refine ⟨hstack.batches, hstack.frames, hstack.handed, ?_⟩
  intro e he
  rcases List.mem_append.mp he with he | he
  · exact i.log e he
  · rw [List.mem_singleton.mp he, htype]

theorem push_uniform {b : Batch α} {id : Nat} {p : α} {type : RetireType}
    (h : ∀ refs, b.refs = some refs → Uniform b.first refs)
    (hok : b.first.isEmpty = true ∨ b.refs.map Node.type = some type) :
    ∀ refs, (b.push id p type).refs = some refs → Uniform (b.push id p type).first refs := by
  intro refs hr
  unfold Batch.push at hr ⊢
  split at hr
  · rename_i hemp
    rw [if_pos hemp]
    cases hr
    refine ⟨rfl, ?_⟩
    intro n hn
    rw [List.mem_singleton.mp hn]
  · rename_i hemp
    rw [if_neg hemp]
    have hr : b.refs = some refs := hr
    obtain ⟨hdec, hall⟩ := h refs hr
    refine ⟨hdec, ?_⟩
    intro n hn
    rcases List.mem_cons.mp hn with rfl | hn
    · rcases hok with hok | hok
      · exact absurd hok hemp
      · rw [hr] at hok
        exact (Option.some.inj hok).symm
    · exact hall n hn

theorem Inv.retire (i : Inv s) {p : α} {type : RetireType} (hok : ok s (.retire t (some p) type)) :
    Inv (s.retire t p type) where
  batches := by
    intro u refs hr
    by_cases hu : u = t
    · subst hu
      simp only [State.retire, Function.update_self] at hr ⊢
      exact push_uniform (i.batches u) hok refs hr
    · simp only [State.retire, Function.update_of_ne hu] at hr ⊢
      exact i.batches u refs hr
  frames := by
    refine (i.setStack (t := t) (l := .retire :: s.stack t) ?_).frames
    intro f hf
    rcases List.mem_cons.mp hf with rfl | hf
    · trivial
    · exact i.frames t f hf
  handed := i.handed
  log := i.log

theorem inv_run (i : Inv s) {fs : List (Frame α)} (hfs : ∀ f ∈ fs, FrameInv f)
    (h : run cfg s t fs = some s') : Inv s' := by
  cases fs with
  | nil => cases h
  | cons f fs =>
    have hf := hfs f List.mem_cons_self
    have hrest : ∀ g ∈ fs, FrameInv g := fun g hg => hfs g (List.mem_cons_of_mem _ hg)
    have hcons : ∀ {f : Frame α}, FrameInv f → ∀ g ∈ f :: fs, FrameInv g := by
      intro f hf g hg
      rcases List.mem_cons.mp hg with rfl | hg
      · exact hf
      · exact hrest g hg
    cases f with
    | retire =>
      simp only [run] at h
      split at h
      · obtain ⟨refs, hr, hs⟩ := Option.map_eq_some_iff.mp h
        subst hs
        have htaken := ((i.takeBatch t).setInProgress (t := t) true).setStack (t := t)
          (l := .addBatch :: .retire :: fs) (by
            intro g hg
            rcases List.mem_cons.mp hg with rfl | hg
            · trivial
            · exact hcons (f := .retire) trivial g hg)
        refine ⟨htaken.batches, htaken.frames, ?_, i.log⟩
        intro b hb
        rcases List.mem_append.mp hb with hb | hb
        · exact i.handed b hb
        · rw [List.mem_singleton.mp hb]
          exact i.batches t refs hr
      · cases h
        exact i.setStack hrest
    | addBatch =>
      cases h
      exact (i.setInProgress false).setStack hrest
    | freeBatch nodes refs =>
      cases nodes with
      | nil =>
        cases h
        exact i.setStack hrest
      | cons n nodes =>
        obtain ⟨type, hd, hs⟩ := Option.map_eq_some_iff.mp h
        subst hs
        exact i.call hf hd (hcons (Uniform.tail hf))
    | eject a =>
      cases h
      exact i.setStack hrest
    | drain k =>
      simp only [run] at h
      split at h
      · split at h
        · cases h
          exact i.setStack (hcons trivial)
        · obtain ⟨refs, hr, hs⟩ := Option.map_eq_some_iff.mp h
          subst hs
          exact (i.takeBatch k).setStack (hcons (i.batches k refs hr))
      · split at h
        · cases h
          exact i.setStack hrest
        · cases h
          exact i.setStack (hcons trivial)
    | drainBatch k nodes refs =>
      cases nodes with
      | nil =>
        cases h
        exact i.setStack (hcons trivial)
      | cons n nodes =>
        obtain ⟨type, hd, hs⟩ := Option.map_eq_some_iff.mp h
        subst hs
        exact (i.setInProgress true).call hf hd (hcons (Uniform.tail hf))
    | drained k n nodes refs =>
      cases h
      refine (i.setInProgress false).setStack (hcons ?_)
      split
      · trivial
      · exact hf

theorem inv_next (i : Inv s) {a : Label α} (hok : ok s a) (h : next cfg s a = some s') : Inv s' := by
  cases a with
  | retire t p type =>
    obtain ⟨-, hs⟩ := Option.ite_none_right_eq_some.mp h
    cases p with
    | none => cases hs; exact i
    | some p => cases hs; exact i.retire hok
  | free t b =>
    obtain ⟨-, hs⟩ := Option.ite_none_right_eq_some.mp h
    obtain ⟨⟨nodes, refs⟩, hb, hs⟩ := Option.map_eq_some_iff.mp hs
    subst hs
    have hu : Uniform nodes refs := i.handed _ (List.mem_of_getElem? hb)
    have hstack := i.setStack (t := t) (l := .freeBatch nodes refs :: s.stack t) (by
      intro f hf
      rcases List.mem_cons.mp hf with rfl | hf
      · exact hu
      · exact i.frames t f hf)
    exact ⟨hstack.batches, hstack.frames, fun c hc => i.handed c (List.mem_of_mem_eraseIdx hc), i.log⟩
  | destruct t =>
    obtain ⟨-, hs⟩ := Option.ite_none_right_eq_some.mp h
    cases hs
    refine i.setStack ?_
    intro f hf
    rw [List.mem_singleton.mp hf]
    trivial
  | run t => exact inv_run i (i.frames t) h

end Steps

/-- **Retired pointers keep their type in batches of one type.** In every run in which
each retire into a started batch passes the type that started it, every node is
ejected with the type of its own retire, by `free_batch` and by the destructor. -/
theorem faithful_of_ok (cfg : Config) {s : State α} (h : ((machine α cfg).restrict ok).Reach s) :
    Faithful s := by
  refine (Machine.Reach.invariant (I := Inv) (M := (machine α cfg).restrict ok) ?_ ?_ h).log
  · intro s hs
    exact hs ▸ inv_initial
  · intro s a s' i hn
    obtain ⟨hok, hn⟩ := Machine.restrict_next.mp hn
    exact inv_next i hok hn

/-- Three disposes fill a batch; the weak decrement that the first of them retires starts
the next batch, which is left to the destructor. -/
def oneType : List (Label Nat) :=
  [.retire 0 (some 10) .dispose, .run 0, .retire 0 (some 11) .dispose, .run 0,
    .retire 0 (some 12) .dispose, .run 0, .free 0 0, .run 0, .retire 0 (some 13) .decrementWeakCount,
    .run 0, .run 0, .run 0, .run 0, .run 0, .run 0, .run 0, .run 0, .run 0, .destruct 0, .run 0, .run 0]

theorem faithful_of_ok_oneType : ∃ s, ((machine Nat ⟨1, 2⟩).restrict ok).exec oneType .initial = some s ∧
    s.log.map Prod.snd = [.dispose 12, .dispose 11, .dispose 10, .decrementWeakCnt 13] ∧ Faithful s := by
  have he : ∃ s, ((machine Nat ⟨1, 2⟩).restrict ok).exec oneType .initial = some s ∧
      s.log.map Prod.snd = [.dispose 12, .dispose 11, .dispose 10, .decrementWeakCnt 13] :=
    ⟨_, rfl, rfl⟩
  obtain ⟨s, hs, hlog⟩ := he
  exact ⟨s, hs, hlog, faithful_of_ok _
    ((Machine.Reach.init (M := (machine Nat ⟨1, 2⟩).restrict ok) rfl).exec hs)⟩

end Cdrc.Hyaline.Retire
