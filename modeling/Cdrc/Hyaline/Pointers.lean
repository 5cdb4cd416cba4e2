import Cdrc.Hyaline.Grace

/-! # `atomic_rc_ptr` over Hyaline

The strong pointers of the library with `acquire_retire_hyaline` below them, and all of its
threads: `load`, `get_snapshot`, `store` and `compare_and_swap` under a guard, `make_shared`, copies
and destructors of `rc_ptr`s, and the batches and the tracker of `Hyaline.Batches`. A step is one
access to an `atomic_rc_ptr` or to a count, a `retire`, or a step of the backend. With no weak
pointers the weak count of an object is 1, so that the object is disposed of and deleted as soon as
its strong count reaches zero; every entry that is retired is a strong decrement. Counters are taken
as atomic. `exchange` and `swap` are left out.

A unit of a strong count is in an `atomic_rc_ptr`, in an `rc_ptr`, in the hands of a thread that has
taken it out of a location and has yet to retire it, or in a retired node. `compare_and_swap` and
`store` of a snapshot put a unit into a location whose increment comes later, which the
thread owes until then. Units are numbered in the order in which they appear. A snapshot is the unit that
it was read from: this is never compared or followed, only its object is.

An `rc_ptr` that a `compare_and_swap` copies from is not written to before the call has
incremented. The destructors that the callback of a `free_batch` runs begin operations of their own:
inside the operation whose `retire` has called the tracker, and after an `end_critical_section` that
has called it. There a guard that they construct does not protect (`Hyaline.Guards`). What is proved
is about the runs in which they begin no operation that needs one (`InGuard`). -/
namespace Cdrc.Hyaline.Pointers
open Cdrc.Lib.Runs
open Cdrc.Hyaline.Batches (Config Grace)

/-- Where a unit is. -/
inductive Place
  | loc (x : Nat)
  | rc
  | hand (c : Nat × Nat)
  | node (i : Nat)
  | gone
  deriving DecidableEq, Repr

structure Share where
  obj : Nat
  place : Place
  /-- the operation that has yet to increment the count for it -/
  owed : Option (Nat × Nat)
  /-- the unit whose pointer was copied -/
  src : Nat
  deriving DecidableEq, Repr

/-- An operation between two of its steps. -/
inductive Op
  | idle
  /-- `load`, before `increment_ref_cnt` -/
  | load (u : Nat)
  /-- `protect_snapshot`, before `get_use_count` -/
  | protect (u : Nat)
  /-- before `increment_ref_cnt` for the unit `u`, then `delayed_decrement_ref_cnt` of `old` -/
  | pay (u : Nat) (old : Option Nat)
  /-- before `delayed_decrement_ref_cnt` of the unit `u`, then `increment_ref_cnt` for `new` -/
  | retire (u : Nat) (new : Option Nat)
  deriving DecidableEq, Repr

structure State where
  hy : Batches.State
  /-- the sections open when a node was retired -/
  opened : Nat → Finset (Nat × Nat)
  made : Nat
  share : Nat → Share
  loc : Nat → Option Nat
  /-- the unit of a retired node, and whether it was ejected -/
  entry : Nat → Nat
  ejected : Nat → Bool
  count : Nat → Nat
  alive : Nat → Bool
  /-- the count of an object was accessed that has been deleted -/
  fault : Bool
  /-- the operations of a thread, by their level: that at level `k + 1` was begun in a call that the one
  at level `k` has made -/
  op : Nat × Nat → Op
  /-- the level of the innermost operation -/
  level : Nat → Nat
  /-- the calls of the tracker that the thread was in when the operation began -/
  depth : Nat × Nat → Nat
  /-- the units that the snapshots of a thread were read from -/
  snaps : Nat → List Nat

def State.initial : State where
  hy := .initial
  opened _ := ∅
  made := 0
  share _ := ⟨0, .gone, none, 0⟩
  loc _ := none
  entry _ := 0
  ejected _ := false
  count _ := 0
  alive _ := false
  fault := false
  op _ := .idle
  level _ := 0
  depth _ := 0
  snaps _ := []

def State.setOp (s : State) (c : Nat × Nat) (o : Op) : State := { s with op := Function.update s.op c o }

/-- The innermost operation of the thread. -/
def State.call (s : State) (t : Nat) : Nat × Nat := (t, s.level t)

def State.setShare (s : State) (u : Nat) (h : Share) : State :=
  { s with share := Function.update s.share u h }

def State.move (s : State) (u : Nat) (p : Place) : State := s.setShare u { s.share u with place := p }

/-- `increment_ref_cnt` -/
def State.incr (s : State) (p : Nat) : State :=
  { s with
    count := Function.update s.count p (s.count p + 1)
    fault := s.fault || !s.alive p }

/-- `decrement_ref_cnt`; at zero `dispose` and `delete_object` -/
def State.decr (s : State) (p : Nat) : State :=
  { s with
    count := Function.update s.count p (s.count p - 1)
    alive := if s.count p = 1 then Function.update s.alive p false else s.alive
    fault := s.fault || !s.alive p }

/-- A new unit. -/
def State.push (s : State) (h : Share) : State :=
  { s.setShare s.made h with made := s.made + 1 }

/-- The thread is in user code. -/
def State.inUser (s : State) (t : Nat) : Prop :=
  s.hy.tracker.mayCall t = true ∧ s.hy.retiring t = none

/-- The thread is in no operation, or in a call that its innermost operation has made. -/
def State.mayAct (s : State) (t : Nat) : Prop :=
  s.op (s.call t) = .idle ∨ s.depth (s.call t) < (s.hy.tracker.stack t).length

/-- The thread may begin an operation that needs a guard: `critical_section[t]` is set. -/
def State.mayBegin (s : State) (cfg : Config) (t : Nat) : Prop :=
  t < cfg.numThreads ∧ s.hy.tracker.sec t ≠ .outside ∧ s.inUser t ∧ s.mayAct t

/-- The calls that the operation has made have returned. -/
def State.resumes (s : State) (t : Nat) : Prop :=
  (s.hy.tracker.stack t).length = s.depth (s.call t) ∧ s.inUser t

instance (s : State) (t : Nat) : Decidable (s.inUser t) := inferInstanceAs (Decidable (_ ∧ _))

instance (s : State) (t : Nat) : Decidable (s.mayAct t) := inferInstanceAs (Decidable (_ ∨ _))

instance (s : State) (cfg : Config) (t : Nat) : Decidable (s.mayBegin cfg t) :=
  inferInstanceAs (Decidable (_ ∧ _))

instance (s : State) (t : Nat) : Decidable (s.resumes t) := inferInstanceAs (Decidable (_ ∧ _))

/-- An operation is begun: inside the innermost one, if there is one. -/
def State.nest (s : State) (t : Nat) : State :=
  { s with
    level := Function.update s.level t (if s.op (s.call t) = .idle then s.level t else s.level t + 1) }

/-- Where the innermost operation is done, the thread goes on with the one around it. -/
def State.unnest (s : State) (t : Nat) : State :=
  { s with
    level := Function.update s.level t (if s.op (s.call t) = .idle then s.level t - 1 else s.level t) }

/-- The `rc_ptr` is not being copied into a location. -/
def State.unused (s : State) (v : Nat) : Prop :=
  v < s.made ∧ (s.share v).place = .rc ∧
    ∀ u < s.made, (s.share u).owed ≠ none → (s.share u).src ≠ v

instance (s : State) (v : Nat) : Decidable (s.unused v) := inferInstanceAs (Decidable (_ ∧ _ ∧ _))

def State.ptr (s : State) (u : Option Nat) : Option Nat := u.map fun u => (s.share u).obj

/-- The thread begins an operation with its next step after this one at `o`. -/
def State.enter (s : State) (t : Nat) (o : Op) : State :=
  { s.setOp (s.call t) o with
    depth := Function.update s.depth (s.call t) (s.hy.tracker.stack t).length }

/-- The atomic write of an operation takes the unit in location `x`, if there is one. The thread has it
in its hands, to retire it. -/
def State.takeOut (s : State) (t x : Nat) : State :=
  match s.loc x with
  | some u =>
    { s.move u (.hand (s.call t)) with loc := Function.update s.loc x none }.enter t (.retire u none)
  | none => s

/-- It puts the unit of an `rc_ptr` into the location, -/
def State.putIn (s : State) (x v : Nat) : State :=
  { s.move v (.loc x) with loc := Function.update s.loc x (some v) }

/-- or a copy of the pointer of the unit `v`, for which the thread owes the increment. -/
def State.owe (s : State) (t x v : Nat) (o : Op) : State :=
  { s.push ⟨(s.share v).obj, .loc x, some (s.call t), v⟩ with
    loc := Function.update s.loc x (some s.made) }.enter t o

/-- `store` of an `rc_ptr` or of `nullptr`, and `compare_and_swap` that moves, up to the atomic write -/
def State.putMoved (s : State) (t x : Nat) : Option Nat → State
  | some v => (s.takeOut t x).putIn x v
  | none => s.takeOut t x

/-- `compare_and_swap` that copies, up to the atomic write. It retires what was in the location, then
increments. -/
def State.putCopied (s : State) (t x : Nat) : Option Nat → State
  | some v => (s.takeOut t x).owe t x v (match s.loc x with
      | some u => .retire u (some s.made)
      | none => .pay s.made none)
  | none => s.takeOut t x

/-- `store` of a snapshot, up to the atomic write. It increments, then retires what was in the location;
where that is the same pointer, it does neither. -/
def State.putSnapshot (s : State) (t x v : Nat) : State :=
  if s.ptr (s.loc x) = some (s.share v).obj then s
  else (s.takeOut t x).owe t x v (.pay s.made (s.loc x))

/-- `load` and `get_snapshot`, up to the read of the location: `o` comes next. -/
def State.readLoc (s : State) (t x : Nat) (o : Nat → Op) : State :=
  match s.loc x with
  | some u => (s.nest t).enter t (o u)
  | none => s

inductive Label
  /-- the backend: a guard is constructed or destroyed, or the thread goes on with a call -/
  | begin (t : Nat)
  | end_ (t : Nat)
  | run (t : Nat)
  /-- `make_shared`; the object gets the address `p` -/
  | make (p : Nat)
  /-- the copy constructor of `rc_ptr`, from an `rc_ptr` or a snapshot -/
  | copy (v : Nat)
  | copySnapshot (t u : Nat)
  /-- the destructor of an `rc_ptr` -/
  | drop (v : Nat)
  | load (t x : Nat)
  | getSnapshot (t x : Nat)
  | clear (t u : Nat)
  | store (t x : Nat) (v : Option Nat)
  | storeSnapshot (t x v : Nat)
  | casMove (t x : Nat) (expected : Option Nat) (v : Option Nat)
  | casCopy (t x : Nat) (expected : Option Nat) (v : Option Nat)
  /-- the operation of the thread takes its next step; a `retire` allocates the node `a` -/
  | step (t a : Nat)
  /-- the destructor of an `atomic_rc_ptr` -/
  | destroyLoc (t x a : Nat)
  /-- the callback of a node, which decrements -/
  | eject (t : Nat)
  deriving DecidableEq, Repr

/-- The callback on top of the stack of `t`. -/
def State.callback (s : State) (t : Nat) : Option Nat :=
  match s.hy.tracker.stack t with
  | .callback _ (.node a) _ :: _ => some (s.hy.number a)
  | _ => none

/-- A step of the backend that is not a `retire`. -/
def State.backend (s : State) (cfg : Config) (l : Batches.Label) : Option State :=
  (Batches.next cfg s.hy l).map fun hy => { s with hy := hy }

/-- `retire` by thread `t` of the unit `u`, with manager 0. -/
def State.retire (s : State) (cfg : Config) (t a u : Nat) : Option State :=
  (Batches.next cfg s.hy (.retire 0 t (some (s.share u).obj) a)).map fun hy =>
    { s.move u (.node s.hy.created) with
      hy := hy
      opened := s.hy.log cfg.numThreads s.opened (.retire 0 t (some (s.share u).obj) a)
      entry := Function.update s.entry s.hy.created u
      ejected := Function.update s.ejected s.hy.created false }

/-- The next step of the operation of `t`. -/
def State.step (s : State) (cfg : Config) (t a : Nat) : Op → Option State
  | .idle => none
  | .load u =>
    let s := s.incr (s.share u).obj
    some ((s.push ⟨(s.share u).obj, .rc, none, 0⟩).setOp (s.call t) .idle)
  | .protect u =>
    let s := { s with fault := s.fault || !s.alive (s.share u).obj }
    if s.count (s.share u).obj = 0 then some (s.setOp (s.call t) .idle)
    else some { s.setOp (s.call t) .idle with snaps := Function.update s.snaps t (u :: s.snaps t) }
  | .pay u old =>
    let s := (s.incr (s.share u).obj).setShare u { s.share u with owed := none }
    some (s.setOp (s.call t) (match old with
      | some v => .retire v none
      | none => .idle))
  | .retire u new =>
    (s.retire cfg t a u).map (·.setOp (s.call t) (match new with
      | some v => .pay v none
      | none => .idle))

def next (cfg : Config) (s : State) : Label → Option State
  | .begin t => if s.mayAct t then s.backend cfg (.begin t) else none
  | .end_ t =>
    if s.level t = 0 ∧ s.op (s.call t) = .idle ∧ s.snaps t = [] then s.backend cfg (.end_ t) else none
  | .run t =>
    match s.callback t with
    | some i =>
      -- a callback returns when it has decremented and its destructors are done
      if s.hy.retiring t ≠ none ∨ s.ejected i = true ∧ s.mayAct t then s.backend cfg (.run t) else none
    | none => s.backend cfg (.run t)
  | .make p =>
    if s.alive p = false then
      some { s.push ⟨p, .rc, none, 0⟩ with
        count := Function.update s.count p 1
        alive := Function.update s.alive p true }
    else none
  | .copy v =>
    if v < s.made ∧ (s.share v).place = .rc then
      some ((s.incr (s.share v).obj).push ⟨(s.share v).obj, .rc, none, 0⟩)
    else none
  | .copySnapshot t u =>
    if u ∈ s.snaps t then some ((s.incr (s.share u).obj).push ⟨(s.share u).obj, .rc, none, 0⟩)
    else none
  | .drop v => if s.unused v then some ((s.move v .gone).decr (s.share v).obj) else none
  | .load t x => if s.mayBegin cfg t then some (s.readLoc t x .load) else none
  | .getSnapshot t x => if s.mayBegin cfg t then some (s.readLoc t x .protect) else none
  | .clear t u => some { s with snaps := Function.update s.snaps t ((s.snaps t).erase u) }
  | .store t x v =>
    if s.mayBegin cfg t ∧ ∀ w ∈ v, s.unused w then some (((s.nest t).putMoved t x v).unnest t) else none
  | .storeSnapshot t x v =>
    if s.mayBegin cfg t ∧ v ∈ s.snaps t then some (((s.nest t).putSnapshot t x v).unnest t) else none
  | .casMove t x expected v =>
    if s.mayBegin cfg t ∧ ∀ w ∈ v, s.unused w then
      if s.ptr (s.loc x) = expected then some (((s.nest t).putMoved t x v).unnest t) else some s
    else none
  | .casCopy t x expected v =>
    if s.mayBegin cfg t ∧ ∀ w ∈ v, w < s.made ∧ ((s.share w).place = .rc ∨ w ∈ s.snaps t) then
      if s.ptr (s.loc x) = expected then some (((s.nest t).putCopied t x v).unnest t) else some s
    else none
  | .step t a =>
    if s.resumes t then (s.step cfg t a (s.op (s.call t))).map fun s => s.unnest t else none
  | .destroyLoc t x a =>
    if s.inUser t then
      match s.loc x with
      | some u => ({ s with loc := Function.update s.loc x none } : State).retire cfg t a u
      | none => some s
    else none
  | .eject t =>
    match s.callback t with
    | some i =>
      if s.ejected i = false ∧ s.hy.retiring t = none then
        some { (s.move (s.entry i) .gone).decr (s.share (s.entry i)).obj with
          ejected := Function.update s.ejected i true }
      else none
    | none => none

def machine (cfg : Config) : Machine State Label where
  init s := s = .initial
  next := next cfg

/-- An operation that needs a guard is begun in the scope of one, not in the traverse of
`end_critical_section`. -/
def InGuard (s : State) : Label → Prop
  | .load t _ | .getSnapshot t _ | .store t _ _ | .storeSnapshot t _ _ | .casMove t _ _ _
  | .casCopy t _ _ _ => s.hy.tracker.sec t = .inside
  | .begin _ | .end_ _ | .run _ | .make _ | .copy _ | .copySnapshot _ _ | .drop _ | .clear _ _
  | .step _ _ | .destroyLoc _ _ _ | .eject _ => True

instance (s : State) (l : Label) : Decidable (InGuard s l) :=
  match l with
  | .load t _ | .getSnapshot t _ | .store t _ _ | .storeSnapshot t _ _ | .casMove t _ _ _
  | .casCopy t _ _ _ => inferInstanceAs (Decidable (s.hy.tracker.sec t = .inside))
  | .begin _ | .end_ _ | .run _ | .make _ | .copy _ | .copySnapshot _ _ | .drop _ | .clear _ _
  | .step _ _ | .destroyLoc _ _ _ | .eject _ => inferInstanceAs (Decidable True)

/-! ## The invariant -/

/-- A unit that was in a location since the section of `t` began: it is not ejected before the section
has ended. -/
def State.Guarded (s : State) (t u : Nat) : Prop :=
  (∃ x, (s.share u).place = .loc x) ∨ (∃ c, (s.share u).place = .hand c) ∨
    ∃ i, (s.share u).place = .node i ∧ (t, s.hy.tracker.begun t) ∈ s.opened i

/-- The unit that the operation has in its hands. -/
def Op.hand : Op → Option Nat
  | .pay _ old => old
  | .retire u _ => some u
  | _ => none

/-- The unit that the operation owes. -/
def Op.debt : Op → Option Nat
  | .pay u _ => some u
  | .retire _ new => new
  | _ => none

/-- The unit whose pointer the operation has read. -/
def Op.read : Op → Option Nat
  | .load u => some u
  | .protect u => some u
  | _ => none

/-- The unit is counted. -/
def Share.Paid (p : Nat) (h : Share) : Prop := h.place ≠ .gone ∧ h.owed = none ∧ h.obj = p

instance (p : Nat) (h : Share) : Decidable (h.Paid p) := inferInstanceAs (Decidable (_ ∧ _ ∧ _))

def State.paid (s : State) (p : Nat) : Finset Nat :=
  (Finset.range s.made).filter fun u => (s.share u).Paid p

structure Counted (s : State) : Prop where
  count : ∀ p, s.count p = (s.paid p).card
  alive : ∀ p, s.alive p = true ↔ 0 < s.count p

/-- What a thread that owes a unit knows of it, and of the unit that it has copied. -/
structure Owes (s : State) (t u : Nat) : Prop where
  guarded : s.Guarded t u
  src_lt : (s.share u).src < u
  src_obj : (s.share (s.share u).src).obj = (s.share u).obj
  src : (s.share (s.share u).src).place = .rc ∨ s.Guarded t (s.share u).src

/-- The thread is in an operation or has a snapshot. -/
def State.Busy (s : State) (t : Nat) : Prop := (∃ k, s.op (t, k) ≠ .idle) ∨ s.snaps t ≠ []

/-- The thread has a snapshot that was read from the unit, or an operation that has read it. -/
def State.Reads (s : State) (t u : Nat) : Prop := u ∈ s.snaps t ∨ ∃ k, (s.op (t, k)).read = some u

/-- Where the units are, and who relies on them. -/
structure Units (n : Nat) (s : State) : Prop where
  hy : Batches.Inv n s.hy
  grace : Grace n s.hy s.opened
  locs : ∀ x u, s.loc x = some u ↔ u < s.made ∧ (s.share u).place = .loc x
  hands : ∀ c u, (s.op c).hand = some u ↔ u < s.made ∧ (s.share u).place = .hand c
  debts : ∀ c u, (s.op c).debt = some u ↔ u < s.made ∧ (s.share u).owed = some c
  nodes : ∀ i < s.hy.created, s.ejected i = false →
    s.entry i < s.made ∧ (s.share (s.entry i)).place = .node i
  placed : ∀ u < s.made, ∀ i, (s.share u).place = .node i → i < s.hy.created
  owes : ∀ u < s.made, ∀ c, (s.share u).owed = some c → Owes s c.1 u
  reads : ∀ t u, s.Reads t u → u < s.made ∧ s.Guarded t u
  busy : ∀ t, s.Busy t → t < n ∧ s.hy.tracker.sec t = .inside
  above : ∀ t k, s.level t < k → s.op (t, k) = .idle

structure Inv (n : Nat) (s : State) : Prop extends Units n s where
  fault : s.fault = false
  counted : Counted s

section Facts
variable {n : Nat} {s s' : State} {t u v p : Nat}

theorem State.Guarded.not_rc (h : s.Guarded t u) : (s.share u).place ≠ .rc := by
  intro hp
  rcases h with ⟨x, h⟩ | ⟨v, h⟩ | ⟨i, h, _⟩ <;> (rw [hp] at h; cases h)

theorem State.Guarded.not_gone (h : s.Guarded t u) : (s.share u).place ≠ .gone := by
  intro hp
  rcases h with ⟨x, h⟩ | ⟨v, h⟩ | ⟨i, h, _⟩ <;> (rw [hp] at h; cases h)

theorem State.mem_paid : u ∈ s.paid p ↔ u < s.made ∧ (s.share u).Paid p := by
  rw [State.paid, Finset.mem_filter, Finset.mem_range]

theorem Counted.pos (h : Counted s) (hu : u ∈ s.paid p) : 0 < s.count p := by
  rw [h.count]
  exact Finset.card_pos.mpr ⟨u, hu⟩

theorem Units.rc_paid (h : Units n s) (hu : u < s.made) (hp : (s.share u).place = .rc) :
    u ∈ s.paid (s.share u).obj := by
  refine State.mem_paid.mpr ⟨hu, by simp [hp], ?_, rfl⟩
  cases ho : (s.share u).owed with
  | none => rfl
  | some c => exact absurd hp (h.owes u hu c ho).guarded.not_rc

/-- The object of a guarded unit is counted: the unit is, or its increment is owed, and then the unit
it was copied from is older. -/
theorem Inv.guarded_pos (h : Inv n s) :
    ∀ u < s.made, ∀ t, s.Guarded t u → 0 < s.count (s.share u).obj := by
  intro u
  induction u using Nat.strong_induction_on with
  | _ u ih =>
    intro hu t hg
    cases ho : (s.share u).owed with
    | none => exact h.counted.pos (State.mem_paid.mpr ⟨hu, hg.not_gone, ho, rfl⟩)
    | some d =>
      have how := h.owes u hu d ho
      have hlt := Nat.lt_trans how.src_lt hu
      rw [← how.src_obj]
      rcases how.src with hrc | hg'
      · exact h.counted.pos (h.rc_paid hlt hrc)
      · exact ih _ how.src_lt hlt d.1 hg'

/-- A thread in an operation, or with a snapshot, is in its section. -/
theorem Units.inSection (h : Units n s) (hb : s.Busy t) :
    s.hy.tracker.InSection (t, s.hy.tracker.begun t) := by
  have hs := h.hy.tracker.sections t
  rw [(h.busy t hb).2] at hs
  exact ⟨hs.1, rfl⟩

theorem Op.ne_idle_of_debt {o : Op} (h : o.debt = some u) : o ≠ .idle := by
  rintro rfl
  cases h

theorem Op.ne_idle_of_hand {o : Op} (h : o.hand = some u) : o ≠ .idle := by
  rintro rfl
  cases h

theorem Op.ne_idle_of_read {o : Op} (h : o.read = some u) : o ≠ .idle := by
  rintro rfl
  cases h

theorem State.busy_of_op {c : Nat × Nat} (h : s.op c ≠ .idle) : s.Busy c.1 := Or.inl ⟨c.2, h⟩

theorem State.reads_of_op {c : Nat × Nat} (h : (s.op c).read = some u) : s.Reads c.1 u :=
  Or.inr ⟨c.2, h⟩

theorem Units.busy_of_owed (h : Units n s) {c : Nat × Nat} (hu : u < s.made)
    (ho : (s.share u).owed = some c) : s.Busy c.1 :=
  State.busy_of_op (Op.ne_idle_of_debt ((h.debts c u).mpr ⟨hu, ho⟩))

theorem State.Reads.busy (h : s.Reads t u) : s.Busy t := by
  rcases h with h | ⟨k, h⟩
  · exact Or.inr (List.ne_nil_of_mem h)
  · exact Or.inl ⟨k, Op.ne_idle_of_read h⟩

theorem Inv.initial (n : Nat) : Inv n .initial where
  hy := Batches.Inv.initial n
  grace := Batches.Grace.initial n
  fault := rfl
  counted := ⟨fun _ => rfl, fun _ => by simp [State.initial]⟩
  locs := by intro x u; simp [State.initial]
  hands := by intro t u; simp [State.initial, Op.hand]
  debts := by intro t u; simp [State.initial, Op.debt]
  nodes := by intro i hi; cases hi
  placed := by intro u hu; cases hu
  owes := by intro u hu; cases hu
  reads := by intro t u h; simp [State.initial, State.Reads, Op.read] at h
  busy := by intro t h; simp [State.initial, State.Busy] at h
  above := fun _ _ _ => rfl

end Facts

/-! ## Counting -/

section Counting
variable {s s' : State} {u p : Nat}

theorem card_filter_add {S : Finset Nat} {P Q : Nat → Prop} [DecidablePred P] [DecidablePred Q]
    (hu : u ∈ S) (hP : ¬ P u) (hQ : Q u) (h : ∀ v ∈ S, v ≠ u → (P v ↔ Q v)) :
    (S.filter Q).card = (S.filter P).card + 1 := by
  have heq : S.filter Q = insert u (S.filter P) := by
    ext v
    rw [Finset.mem_insert, Finset.mem_filter, Finset.mem_filter]
    by_cases hv : v = u
    · subst hv
      simp [hu, hQ]
    · constructor
      · intro hm
        exact Or.inr ⟨hm.1, (h v hm.1 hv).mpr hm.2⟩
      · intro hm
        have hm := hm.resolve_left hv
        exact ⟨hm.1, (h v hm.1 hv).mp hm.2⟩
  rw [heq, Finset.card_insert_of_notMem]
  intro hm
  exact hP (Finset.mem_filter.mp hm).2

/-- The units are moved, and none of them is taken away. -/
theorem Counted.keep (h : Counted s) (hm : s'.made = s.made) (hc : s'.count = s.count)
    (ha : s'.alive = s.alive)
    (hp : ∀ u < s.made, ∀ p, (s'.share u).Paid p ↔ (s.share u).Paid p) : Counted s' where
  count := by
    intro p
    rw [hc, h.count, State.paid, State.paid, hm]
    congr 1
    exact (Finset.filter_congr fun u hu => hp u (Finset.mem_range.mp hu) p).symm
  alive := by
    rw [ha, hc]
    exact h.alive

/-- One more unit of `p` is counted, and the object is not deleted. -/
theorem Counted.add (h : Counted s) (hpos : 0 < s.count p)
    (hcard : ∀ q, (s'.paid q).card = (s.paid q).card + if q = p then 1 else 0)
    (hc : s'.count = Function.update s.count p (s.count p + 1)) (ha : s'.alive = s.alive) :
    Counted s' where
  count := by
    intro q
    rw [hcard, ← h.count, hc]
    by_cases hq : q = p
    · rw [hq, Function.update_self, if_pos rfl]
    · rw [Function.update_of_ne hq, if_neg hq, Nat.add_zero]
  alive := by
    intro q
    rw [ha, h.alive, hc]
    by_cases hq : q = p
    · rw [hq, Function.update_self]
      exact ⟨fun _ => Nat.succ_pos _, fun _ => hpos⟩
    · rw [Function.update_of_ne hq]

theorem card_paid_push (h : Share) (ho : h.place ≠ .gone) (q : Nat) :
    ((s.push h).paid q).card = (s.paid q).card + if h.owed = none ∧ q = h.obj then 1 else 0 := by
  have hold : ((Finset.range s.made).filter fun u => ((s.push h).share u).Paid q) = s.paid q := by
    refine Finset.filter_congr fun u hu => ?_
    have hne := Nat.ne_of_lt (Finset.mem_range.mp hu)
    simp only [State.push, State.setShare, Function.update_of_ne hne]
  have hnew : ((s.push h).share s.made) = h := Function.update_self _ _ _
  change ((Finset.range (s.made + 1)).filter fun u => ((s.push h).share u).Paid q).card = _
  rw [Finset.range_add_one, Finset.filter_insert, hold, hnew]
  by_cases hp : h.Paid q
  · rw [if_pos hp, if_pos ⟨hp.2.1, hp.2.2.symm⟩, Finset.card_insert_of_notMem]
    intro hm
    exact Nat.lt_irrefl _ (State.mem_paid.mp hm).1
  · rw [if_neg hp, if_neg fun hc => hp ⟨ho, hc.1, hc.2.symm⟩, Nat.add_zero]

/-- A unit is given up. -/
theorem Counted.gone (h : Counted s) (hu : u ∈ s.paid (s.share u).obj) :
    Counted ((s.move u .gone).decr (s.share u).obj) := by
  obtain ⟨hlt, hpaid⟩ := State.mem_paid.mp hu
  have hpos := h.pos hu
  have hcard : ∀ q, (s.paid q).card =
      (((s.move u .gone).decr (s.share u).obj).paid q).card + if q = (s.share u).obj then 1 else 0 := by
    intro q
    by_cases hq : q = (s.share u).obj
    · subst hq
      rw [if_pos rfl]
      refine card_filter_add (u := u) (Finset.mem_range.mpr hlt) ?_ hpaid fun v _ hv => ?_
      · simp [State.decr, State.move, State.setShare, Share.Paid]
      · simp only [State.decr, State.move, State.setShare, Function.update_of_ne hv]
    · rw [if_neg hq, Nat.add_zero]
      refine congrArg Finset.card (Finset.filter_congr fun v _ => ?_)
      by_cases hv : v = u
      · subst hv
        simp only [State.decr, State.move, State.setShare, Function.update_self, Share.Paid]
        constructor
        · exact fun hm => absurd hm.2.2.symm hq
        · exact fun hm => absurd rfl hm.1
      · simp only [State.decr, State.move, State.setShare, Function.update_of_ne hv]
  refine ⟨fun q => ?_, fun q => ?_⟩
  · have hc := h.count q
    have hq' := hcard q
    change Function.update s.count _ _ q = _
    by_cases hq : q = (s.share u).obj
    · subst hq
      rw [Function.update_self]
      rw [if_pos rfl] at hq'
      change s.count (s.share u).obj - 1 = _
      omega
    · rw [Function.update_of_ne hq]
      rw [if_neg hq] at hq'
      omega
  · change (if s.count (s.share u).obj = 1 then Function.update s.alive _ false else s.alive) q = true ↔
      0 < Function.update s.count _ _ q
    have ha := h.alive q
    by_cases hq : q = (s.share u).obj
    · subst hq
      rw [Function.update_self]
      change _ ↔ 0 < s.count (s.share u).obj - 1
      split
      · next h1 => simp [h1]
      · rw [ha]
        omega
    · rw [Function.update_of_ne hq]
      split
      · rw [Function.update_of_ne hq]
        exact ha
      · exact ha

end Counting

end Cdrc.Hyaline.Pointers
