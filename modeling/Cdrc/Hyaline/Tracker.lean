import Mathlib.Data.Finset.Card
import Mathlib.Data.Finset.Image
import Mathlib.Logic.Function.Basic
import Cdrc.Lib.Runs

/-! # The Hyaline tracker

`hyaline_tracker` with all its threads, one shared access at a time: the list heads
`rsrv[i].list`, the nodes of the batches in memory, and for every thread the calls it
is in. Node addresses are reused after `delete`, so a head can hold an address that an
inserter read in an earlier section of the same thread. A `free_batch` calls back into
user code for every node, which may add further batches and, outside of a section,
open and close sections of its own; calls therefore nest.

Some fields record the history of a batch and are read by no step: who received it,
which sections were open when its `add_batch` began, how often `free_batch` was called
for it. An access to a node that is not allocated, or a read or a push of a node whose
batch was already passed to `free_batch`, raises `fault`. -/
namespace Cdrc.Hyaline.Tracker
open Cdrc.Lib.Runs

/-- The number of threads; thread ids are `int`s. -/
structure Config where
  numThreads : Nat
  tids_fit : numThreads ≤ 2 ^ 31

/-- A `Node*`: `invptr`, `nullptr` or an address. -/
inductive Ptr
  | inv
  | null
  | node (a : Nat)
  deriving DecidableEq, Repr

/-- The union of `bnext` (SLOT nodes) and `refc` (REFS nodes). -/
inductive Link
  | bnext (p : Ptr)
  | refc (v : Int)
  deriving DecidableEq, Repr

structure Node where
  /-- the batch the node was allocated for -/
  batch : Nat
  link : Link
  next : Ptr
  blink : Ptr
  deriving DecidableEq, Repr

def refcProtect : Int := 2 ^ 62

/-- Where a thread is in its outermost critical section; `critical_section[id]` is false
exactly `outside`. -/
inductive Section
  | outside
  | inside
  /-- `traverse`, before it tests `next != nullptr` -/
  | traverse (next : Ptr)
  /-- `traverse`, `curr->next` read, before `curr->blink` -/
  | readBlink (curr : Ptr) (next : Ptr)
  /-- `traverse`, before `refs->refc.fetch_add(-1)` -/
  | release (refs : Ptr) (next : Ptr)
  deriving DecidableEq, Repr

/-- A call a thread is in. -/
inductive Frame
  /-- the guard's scope, then `end_critical_section` -/
  | guard
  /-- `add_batch`, at iteration `i`, before `rsrv[i].list.load()` or, after the loop, before
  `refc.fetch_add(cnt)` -/
  | addBatch (b : Nat) (curr : Ptr) (cnt : Int) (i : Nat)
  /-- before `curr->next = prev` -/
  | setNext (b : Nat) (curr : Ptr) (cnt : Int) (i : Nat) (prev : Ptr)
  /-- before `rsrv[i].list.compare_exchange_strong(prev, curr)` -/
  | push (b : Nat) (curr : Ptr) (cnt : Int) (i : Nat) (prev : Ptr)
  /-- before `curr = curr->bnext` -/
  | advance (b : Nat) (curr : Ptr) (cnt : Int) (i : Nat)
  /-- `free_batch`, before it reads `refs->blink` -/
  | freeStart (b : Nat) (refs : Ptr)
  /-- `free_batch`, before it reads `n->bnext` -/
  | freeNode (b : Nat) (n : Ptr)
  /-- `free_batch`, in `decrement(node->obj)`; then `delete node` -/
  | callback (b : Nat) (node : Ptr) (n : Ptr)
  deriving DecidableEq, Repr

/-- A batch and its history. -/
structure Batch where
  /-- the SLOT nodes from `first` along `bnext` -/
  slots : List Nat
  refs : Nat
  /-- the call of `add_batch`: thread and depth of the frame -/
  adder : Nat × Nat
  /-- iterations of `add_batch` completed -/
  pos : Nat
  /-- `add_batch` has executed its `refc.fetch_add(cnt)` -/
  added : Bool
  /-- sections, by thread and number, that were open when `add_batch` began -/
  present : Finset (Nat × Nat)
  /-- sections into whose list a node was inserted -/
  received : Finset (Nat × Nat)
  /-- threads that hold a node of the batch and have not decremented `refc` for it -/
  waiting : Finset Nat
  /-- calls of `free_batch` -/
  frees : Nat
  /-- the call of `free_batch`: thread and depth of the frame -/
  freer : Nat × Nat
  /-- nodes deleted -/
  deleted : Nat

structure State where
  rsrv : Nat → Ptr
  sec : Nat → Section
  mem : Nat → Option Node
  stack : Nat → List Frame
  /-- sections begun and sections completed, with their traverse, by each thread -/
  begun : Nat → Nat
  ended : Nat → Nat
  /-- the nodes a thread's section has received and not yet released, newest first -/
  chain : Nat → List Nat
  created : Nat
  batch : Nat → Batch
  fault : Bool

def Batch.unused : Batch := ⟨[], 0, (0, 0), 0, false, ∅, ∅, ∅, 0, (0, 0), 0⟩

def State.initial : State :=
  ⟨fun _ => .inv, fun _ => .outside, fun _ => none, fun _ => [], fun _ => 0, fun _ => 0, fun _ => [],
    0, fun _ => .unused, false⟩

/-- The nodes of a batch in the order of their `bnext`s. -/
def Batch.nodes (B : Batch) : List Nat := B.slots ++ [B.refs]

def Batch.ptr (B : Batch) (k : Nat) : Ptr :=
  match B.nodes[k]? with
  | some a => .node a
  | none => .null

/-- An allocated node. -/
def State.get (s : State) : Ptr → Option (Nat × Node)
  | .node a => (s.mem a).map fun nd => (a, nd)
  | _ => none

/-- An allocated node whose batch was not passed to `free_batch`. -/
def State.live (s : State) (p : Ptr) : Option (Nat × Node) :=
  (s.get p).filter fun x => (s.batch x.2.batch).frees = 0

def State.crash (s : State) : State := { s with fault := true }

def State.setStack (s : State) (t : Nat) (fs : List Frame) : State :=
  { s with stack := Function.update s.stack t fs }

def State.setSec (s : State) (t : Nat) (c : Section) : State :=
  { s with sec := Function.update s.sec t c }

def State.setMem (s : State) (a : Nat) (nd : Option Node) : State :=
  { s with mem := Function.update s.mem a nd }

def State.setBatch (s : State) (b : Nat) (B : Batch) : State :=
  { s with batch := Function.update s.batch b B }

/-- `free_batch(refs)` is called from a frame with `fs` below it. -/
def State.callFree (s : State) (t b : Nat) (refs : Ptr) (fs : List Frame) : State :=
  let B := s.batch b
  (s.setBatch b { B with frees := B.frees + 1, freer := (t, fs.length) }).setStack t
    (.freeStart b refs :: fs)

/-! ## Critical sections -/

/-- `begin_critical_section`; it does nothing inside a section. -/
def State.begin (s : State) (t : Nat) : State :=
  if s.sec t = .outside then
    { (s.setSec t .inside).setStack t (.guard :: s.stack t) with
      rsrv := Function.update s.rsrv t .null
      begun := Function.update s.begun t (s.begun t + 1) }
  else s

/-- `end_critical_section`, up to its exchange. -/
def State.end_ (s : State) (t : Nat) : State :=
  { s.setSec t (.traverse (s.rsrv t)) with rsrv := Function.update s.rsrv t .inv }

/-- The next step of `traverse`; `fs` are the frames below the guard's. -/
def State.traverse (s : State) (t : Nat) (fs : List Frame) : Section → Option State
  | .outside | .inside => none
  | .traverse .null =>
    some { (s.setSec t .outside).setStack t fs with
      ended := Function.update s.ended t (s.ended t + 1) }
  | .traverse curr =>
    match s.live curr with
    | none => some s.crash
    | some (_, nd) => some (s.setSec t (.readBlink curr nd.next))
  | .readBlink curr next =>
    match s.live curr with
    | none => some s.crash
    | some (_, nd) => some (s.setSec t (.release nd.blink next))
  | .release refs next =>
    match s.live refs with
    | some (r, ⟨b, .refc v, nx, bl⟩) =>
      let B := s.batch b
      let s1 := { ((s.setSec t (.traverse next)).setMem r (some ⟨b, .refc (v - 1), nx, bl⟩)).setBatch b
          { B with waiting := B.waiting.erase t } with
        chain := Function.update s.chain t (s.chain t).tail }
      if v = 1 then some (s1.callFree t b refs (.guard :: fs)) else some s1
    | _ => some s.crash

/-! ## Adding a batch -/

/-- The memory of a batch as `retire` built it, `refs->blink` set. -/
def Batch.alloc (B : Batch) (b : Nat) (mem : Nat → Option Node) (a : Nat) : Option Node :=
  if a ∈ B.nodes then
    let k := B.nodes.idxOf a
    some (if k < B.slots.length then ⟨b, .bnext (B.ptr (k + 1)), .null, .node B.refs⟩
      else ⟨b, .refc refcProtect, .null, B.ptr 0⟩)
  else mem a

/-- Sections that are open. -/
def State.openSections (s : State) (n : Nat) : Finset (Nat × Nat) :=
  ((Finset.range n).filter fun t => s.rsrv t ≠ .inv).image fun t => (t, s.begun t)

/-- `add_batch` is entered with a batch of the given nodes. -/
def State.enterAdd (s : State) (n t : Nat) (slots : List Nat) (refs : Nat) : State :=
  let B : Batch := ⟨slots, refs, (t, (s.stack t).length), 0, false, s.openSections n, ∅, ∅, 0, (0, 0), 0⟩
  { (s.setBatch s.created B).setStack t (.addBatch s.created (B.ptr 0) (-refcProtect) 0 :: s.stack t) with
    mem := B.alloc s.created s.mem
    created := s.created + 1 }

def State.addStep (s : State) (n t : Nat) (fs : List Frame) : Frame → Option State
  | .addBatch b curr cnt i =>
    if i < n then
      if s.rsrv i = .inv then
        some ((s.setBatch b { s.batch b with pos := i + 1 }).setStack t (.advance b curr cnt i :: fs))
      else some (s.setStack t (.setNext b curr cnt i (s.rsrv i) :: fs))
    else
      match s.live (.node (s.batch b).refs) with
      | some (r, ⟨b', .refc v, nx, bl⟩) =>
        let s1 := (s.setMem r (some ⟨b', .refc (v + cnt), nx, bl⟩)).setBatch b
          { s.batch b with added := true }
        if v = -cnt then some (s1.callFree t b (.node r) fs) else some (s1.setStack t fs)
      | _ => some s.crash
  | .setNext b curr cnt i prev =>
    match s.live curr with
    | some (a, nd) =>
      some ((s.setMem a (some { nd with next := prev })).setStack t (.push b curr cnt i prev :: fs))
    | none => some s.crash
  | .push b curr cnt i prev =>
    if s.rsrv i = prev then
      match s.live curr with
      | some (a, _) =>
        let B := s.batch b
        some { (s.setBatch b { B with
            pos := i + 1
            received := insert (i, s.begun i) B.received
            waiting := insert i B.waiting }).setStack t (.advance b curr (cnt + 1) i :: fs) with
          rsrv := Function.update s.rsrv i curr
          chain := Function.update s.chain i (a :: s.chain i) }
      | none => some s.crash
    else some (s.setStack t (.addBatch b curr cnt i :: fs))
  | .advance b curr cnt i =>
    match s.live curr with
    | some (_, ⟨_, .bnext p, _, _⟩) => some (s.setStack t (.addBatch b p cnt (i + 1) :: fs))
    | _ => some s.crash
  | _ => none

/-! ## Freeing a batch -/

/-- What a read of `n->bnext` gives: in a REFS node the bits of `refc`, which are
`nullptr` when it is 0 and no address otherwise. -/
def Link.asBnext : Link → Option Ptr
  | .bnext p => some p
  | .refc v => if v = 0 then some .null else none

def State.freeStep (s : State) (t : Nat) (fs : List Frame) : Frame → Option State
  | .freeStart b refs =>
    match s.get refs with
    | some (_, nd) => some (s.setStack t (.freeNode b nd.blink :: fs))
    | none => some s.crash
  | .freeNode b n =>
    match (s.get n).bind fun x => x.2.link.asBnext with
    | some p => some (s.setStack t (.callback b n p :: fs))
    | none => some s.crash
  | .callback b node n =>
    match s.get node with
    | some (a, _) =>
      let B := s.batch b
      some (((s.setMem a none).setBatch b { B with deleted := B.deleted + 1 }).setStack t
        (if n = .null then fs else .freeNode b n :: fs))
    | none => some s.crash
  | _ => none

/-! ## The machine -/

/-- The thread is in user code: outside, inside a guard, or in a callback. -/
def State.mayCall (s : State) (t : Nat) : Bool :=
  match s.stack t with
  | [] => true
  | .guard :: _ => s.sec t = .inside
  | .callback _ _ _ :: _ => true
  | _ => false

inductive Label
  | begin (t : Nat)
  | end_ (t : Nat)
  | addBatch (t : Nat) (slots : List Nat) (refs : Nat)
  | run (t : Nat)
  deriving DecidableEq, Repr

/-- The nodes of a batch about to be added: at least one SLOT node for every thread, all
of them distinct and newly allocated. -/
def State.Fresh (s : State) (n : Nat) (slots : List Nat) (refs : Nat) : Prop :=
  n ≤ slots.length ∧ (slots ++ [refs]).Nodup ∧ ∀ a ∈ slots ++ [refs], (s.mem a).isNone

instance (s : State) (n : Nat) (slots : List Nat) (refs : Nat) : Decidable (s.Fresh n slots refs) :=
  inferInstanceAs (Decidable (_ ∧ _ ∧ _))

def State.run (s : State) (n t : Nat) : List Frame → Option State
  | [] => none
  | .guard :: fs => s.traverse t fs (s.sec t)
  | f :: fs => (s.addStep n t fs f).or (s.freeStep t fs f)

def next (cfg : Config) (s : State) : Label → Option State
  | .begin t => if t < cfg.numThreads ∧ s.mayCall t then some (s.begin t) else none
  | .end_ t =>
    if (s.stack t).head? = some .guard ∧ s.sec t = .inside then some (s.end_ t) else none
  | .addBatch t slots refs =>
    if t < cfg.numThreads ∧ s.mayCall t ∧ s.Fresh cfg.numThreads slots refs then
      some (s.enterAdd cfg.numThreads t slots refs)
    else none
  | .run t => s.run cfg.numThreads t (s.stack t)

def machine (cfg : Config) : Machine State Label where
  init s := s = .initial
  next := next cfg

/-- The section is open: its thread has not yet exchanged its list for `invptr`. -/
def State.InSection (s : State) (r : Nat × Nat) : Prop := s.rsrv r.1 ≠ .inv ∧ s.begun r.1 = r.2

/-- The section has ended and its traverse is finished. -/
def State.Finished (s : State) (r : Nat × Nat) : Prop := r.2 ≤ s.ended r.1

end Cdrc.Hyaline.Tracker
