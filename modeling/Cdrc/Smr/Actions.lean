import Mathlib.Data.Finset.Insert
import Mathlib.Data.List.FinRange
import Cdrc.Smr.State

/-! # Reference counting over a memory manager: the atomic actions

Each action is one access to memory that other threads can see, with the accesses to
the thread's own memory around it. An action that is not enabled waits: this is how the
runs leave out what callers must not do (change a pointer variable while another
operation reads it, destroy a location that is in use, exceed a counter's maximum).
Nothing else is ruled out; in particular an access to an object that was deleted is a
step, and it sets `fault`. -/
namespace Cdrc.Smr
open Cdrc.StickyCounter Cdrc.CountedObject Cdrc.Lib.Threads

/-- What nothing in the state decides. -/
inductive Choice
  | none
  /-- the address `new` returns -/
  | address (o : Obj)
  /-- the next field a destructor drops is this variable -/
  | dropVar (κ : Kind) (i : Nat)
  /-- the next field a destructor drops is this location -/
  | dropLoc (κ : Kind) (i : Nat)
  /-- a `compare_exchange_weak` fails spuriously, or the marks of two pointers differ -/
  | fail
  deriving DecidableEq, Repr

/-- The pointer an increment is made through. -/
inductive Via
  | guard (i : Nat)
  | var (κ : Kind) (i : Nat)
  deriving DecidableEq, Repr

/-- A pointer variable, or a pointer that the operation of the acting thread has. -/
inductive Spot
  | var (κ : Kind) (i : Nat)
  | hand
  | desired
  deriving DecidableEq, Repr

def Spot.place {n : Nat} (t : Fin n) : Spot → Place n
  | .var κ i => .var κ i
  | .hand => .hand t
  | .desired => .desired t

/-- The unit a decrement releases. -/
inductive From
  | var (κ : Kind) (i : Nat)
  /-- the entry a pass looks at -/
  | todo
  deriving DecidableEq, Repr

/-- The pointer that is put into a location. -/
inductive New
  | null
  | desired
  | var (κ : Kind) (i : Nat)
  /-- a validated pointer, whose unit is counted afterwards -/
  | guard (i : Nat)
  deriving DecidableEq, Repr

/-- A smart pointer that is a field of an object. -/
inductive Field
  | var (κ : Kind) (i : Nat)
  | loc (κ : Kind) (i : Nat)
  deriving DecidableEq, Repr

/-- What `remove_if`'s predicate says of the next entry. -/
inductive Verdict
  | finished
  | kept
  | eject (type : RetireType)
  deriving DecidableEq, Repr

/-- The actions, by what they return. -/
inductive Act (n : Nat) : Type → Type
  -- objects and their counters
  | create (i birth : Nat) : Act n Unit
  | increment (κ : Kind) (via : Via) (dst : Spot) (checked : Bool) : Act n Bool
  | payDebt : Act n Unit
  | release (κ : Kind) (src : From) : Act n (Option (Obj × Bool))
  | decrementCas (o : Obj) : Act n (Pc 30)
  | decrementExchange (o : Obj) : Act n Bool
  | loadWeak (o : Obj) : Act n Nat
  | startDispose : Act n Obj
  | runDestructor (o : Obj) : Act n Unit
  | nextField : Act n (Option Field)
  | destroyLoc (κ : Kind) (i : Nat) : Act n Bool
  | releaseImplicit (o : Obj) : Act n Bool
  | delete (o : Obj) : Act n Unit
  | loadRef (via : Via) : Act n (Option Nat)
  | loadRefCas (via : Via) : Act n Nat
  -- deferred lists
  | emplace : Act n Unit
  | emplaceDispose (o : Obj) : Act n Unit
  | addWork : Act n Unit
  | tryBegin : Act n Bool
  | scanSlot (u : Fin n) (i : Nat) : Act n Unit
  | scanEpoch (u : Fin n) : Act n Unit
  | scanStart (u : Fin n) : Act n (Option Nat)
  | scanEnd (u : Fin n) (e : Nat) : Act n Unit
  | judge : Act n Verdict
  | endPass : Act n Unit
  -- epochs
  | inSection : Act n Bool
  | readEpoch : Act n Nat
  | announceEpoch (e : Nat) : Act n Unit
  | endSection : Act n Unit
  | pushGuard (b : Bool) : Act n Unit
  | popGuard : Act n (Option Bool)
  | epochTick : Act n Bool
  | advanceEpoch : Act n Unit
  | readEnd : Act n Nat
  | writeEnd (e : Nat) : Act n Unit
  -- announcements and locations
  | loadSlot (i : Nat) : Act n (Option Obj)
  | storeSlot (i : Nat) (p : Option Obj) : Act n Unit
  | load (κ : Kind) (l : Nat) : Act n (Option Obj)
  | validate (κ : Kind) (l i : Nat) (p : Option Obj) : Act n Bool
  | unchanged (κ : Kind) (l : Nat) (p : Option Obj) : Act n Bool
  | setMark (κ : Kind) (l : Nat) : Act n Bool
  | loadProtected (κ : Kind) (l i : Nat) : Act n (Option Obj)
  | reserve (κ : Kind) (i : Nat) : Act n (Option Obj)
  | clearGuard (i : Nat) : Act n Unit
  | exchange (κ : Kind) (l : Nat) (new : New) : Act n Bool
  | cas (κ : Kind) (l : Nat) (expected : Option Obj) (new : New) : Act n (Bool × Option Obj)
  | use (κ : Kind) (l : Nat) : Act n Unit
  | unuse : Act n Unit
  | move (p q : Spot) : Act n Bool

section Effects
variable {n : Nat} (cfg : Config) (s : State n) (t : Fin n)

def State.setObj (o : Obj) (ob : Option Object) : State n :=
  { s with mem := Function.update s.mem o ob }

/-- The pointer in a cell. -/
def State.ptr (p : Place n) : Option Obj := (s.cell p).map (·.obj)

def State.birth (o : Obj) : Nat := ((s.mem o).map (·.birthTS)).getD 0

/-- No operation in flight reads the variable. -/
def State.unread (κ : Kind) (i : Nat) : Prop := ∀ u, s.reading u ≠ some (κ, i)

instance (κ : Kind) (i : Nat) : Decidable (s.unread κ i) :=
  inferInstanceAs (Decidable (∀ u, s.reading u ≠ some (κ, i)))

/-- No operation in flight works on the location. -/
def State.unused (κ : Kind) (l : Nat) : Prop := ∀ u, s.busy u ≠ some (κ, l)

instance (κ : Kind) (l : Nat) : Decidable (s.unused κ l) :=
  inferInstanceAs (Decidable (∀ u, s.busy u ≠ some (κ, l)))

/-! ## Counters -/

/-- `create_object` and `rc_ptr(ptr, AddRef::no)`. -/
def State.create (i birth : Nat) (o : Obj) : State n :=
  let s := (s.setObj o (some ⟨construct 1, 1, birth, true⟩)).mint (.var .strong i) o .strong
  { s with home := Function.update s.home (implicit o) (some .alive) }

/-- The object an increment is made on. -/
def State.via : Via → Option Obj
  | .guard i => (s.guards t i).map (·.obj)
  | .var κ i => s.ptr (.var κ i)

/-- `increment_ref_cnt`, `increment_weak_cnt`: the new unit goes to `dst`. A caller that
does not look at the result has a pointer without a unit when it is false. -/
def State.increment (κ : Kind) (via : Via) (dst : Spot) (checked : Bool) :
    Option (Bool × State n) :=
  match s.via t via with
  | none => some (false, s)
  | some o =>
    match s.mem o with
    | none => some (false, { s with fault := true })
    | some ob =>
      if s.cell (dst.place t) = none ∧ ob.hasRoom κ then
        if (ob.add cfg κ).2 then
          some (true, (s.setObj o (some (ob.add cfg κ).1)).mint (dst.place t) o κ)
        else if checked then some (false, s.setObj o (some (ob.add cfg κ).1))
        else some (false, { s with fault := true })
      else none

/-- The increment that was owed since the pointer was put into its location. -/
def State.payDebt : Option (Unit × State n) :=
  match s.debt t with
  | none => some ((), s)
  | some d =>
    match s.mem d.obj with
    | none => some ((), { s with fault := true })
    | some ob =>
      if ob.hasRoom d.kind then
        if (ob.add cfg d.kind).2 then
          some ((), { s.setObj d.obj (some (ob.add cfg d.kind).1) with
            debt := Function.update s.debt t none })
        else some ((), { s with fault := true })
      else none

/-- Take the unit to be released out of where it is. -/
def State.takeUnit : From → Option (Token × State n)
  | .var κ i =>
    match s.cell (.var κ i) with
    | none => none
    | some k =>
      some (k, { s with
        cell := Function.update s.cell (.var κ i) none
        home := Function.update s.home k none })
  | .todo =>
    match s.pass t with
    | some p =>
      match p.todo with
      | e :: rest =>
        some (e.token, { s with
          pass := Function.update s.pass t (some { p with todo := rest })
          home := Function.update s.home e.token none })
      | [] => none
    | none => none

/-- The thread that took a counter of `o` to zero goes on. -/
def State.zeroed (κ : Kind) (o : Obj) : State n :=
  match κ with
  | .strong =>
    { s with
      owned := update₂ s.owned t o (some (if cfg.atomicCounters then .zero else .parked))
      home := Function.update s.home (implicit o) (some (.owned t)) }
  | .weak => { s with owned := update₂ s.owned t o (some .last) }

/-- `release_refs(1)`, `release_weak_refs(1)` up to the first access that other threads
see. The variable must not be in use by another operation. -/
def State.release (κ : Kind) (src : From) : Option (Option (Obj × Bool) × State n) :=
  match src with
  | .var κ' i => if s.unread κ' i then go else none
  | .todo => go
where
  go :=
    match s.takeUnit t src with
    | none => some (none, s)
    | some (k, s') =>
      match s.mem k.obj with
      | none => some (none, { s with fault := true })
      | some ob =>
        let s' := s'.setObj k.obj (some (ob.release cfg κ).1)
        if (ob.release cfg κ).2 then some (some (k.obj, true), s'.zeroed cfg t κ k.obj)
        else some (some (k.obj, false), s')

/-- The compare-and-swap of `decrement`. -/
def State.decrementCas (o : Obj) : Option (Pc 30 × State n) :=
  match s.mem o with
  | none => some (.done (.bool false), { s with fault := true })
  | some ob =>
    let a := access ob.ref (.decrementCas 1)
    let s' := s.setObj o (some { ob with ref := a.1 })
    some (a.2, if result a.2 then { s' with owned := update₂ s.owned t o (some .zero) } else s')

/-- The exchange of `decrement`. -/
def State.decrementExchange (o : Obj) : Option (Bool × State n) :=
  match s.mem o with
  | none => some (false, { s with fault := true })
  | some ob =>
    let a := access ob.ref (.decrementExchange 1)
    let s' := s.setObj o (some { ob with ref := a.1 })
    some (result a.2, if result a.2 then { s' with owned := update₂ s.owned t o (some .zero) } else s')

/-- `weak_cnt.load()` in `release_refs`. -/
def State.loadWeak (o : Obj) : Option (Nat × State n) :=
  match s.mem o with
  | none => some (0, { s with fault := true })
  | some ob =>
    if ob.weak = 1 then some (1, { s with owned := update₂ s.owned t o (some .immediate) })
    else some (ob.weak, s)

/-- The entry the pass looks at is a `dispose`. -/
def State.startDispose : Option (Obj × State n) :=
  match s.pass t with
  | some p =>
    match p.todo with
    | e :: rest =>
      some (e.token.obj, { s with
        pass := Function.update s.pass t (some { p with todo := rest })
        home := Function.update s.home e.token (some (.owned t))
        owned := update₂ s.owned t e.token.obj (some .disposing) })
    | [] => none
  | none => none

/-- `counted_object::dispose`: `~T` starts. -/
def State.runDestructor (o : Obj) : Option (Unit × State n) :=
  match s.mem o with
  | none => some ((), { s with fault := true })
  | some ob => some ((), s.setObj o (some { ob with alive := false }))

/-- `~atomic_rc_ptr`, `~atomic_weak_ptr`: the load. -/
def State.destroyLoc (κ : Kind) (i : Nat) : Option (Bool × State n) :=
  if s.unused κ i then
    if s.dead κ i then some (false, s)
    else
      some ((s.cell (.loc κ i)).isSome,
        { s.move (.loc κ i) (.hand t) with dead := update₂ s.dead κ i true })
  else none

/-- `release_weak_refs(1)` in `memory_manager_base::dispose`. -/
def State.releaseImplicit (o : Obj) : Option (Bool × State n) :=
  match s.mem o with
  | none => some (false, { s with fault := true })
  | some ob =>
    let s' := s.setObj o (some (ob.release cfg .weak).1)
    some ((ob.release cfg .weak).2, { s' with
      home := Function.update s.home (implicit o) none
      owned := update₂ s.owned t o (if (ob.release cfg .weak).2 then some .last else none) })

/-- `delete_object`. -/
def State.delete (o : Obj) : Option (Unit × State n) :=
  match s.mem o with
  | none => some ((), { s with fault := true })
  | some _ =>
    some ((), { s.setObj o none with
      home := Function.update s.home (implicit o) none
      owned := update₂ s.owned t o none })

/-- `ref_cnt.load()`; `none` when a compare-and-swap is to follow. -/
def Object.loadRef (ob : Object) : Option Nat :=
  if cfg.atomicCounters then some ob.ref.toNat
  else
    match access ob.ref .load with
    | (_, .done (.val v)) => some v.toNat
    | _ => none

/-- The object of a guard was seen with strong units. -/
def State.confirm : Via → State n
  | .var _ _ => s
  | .guard i =>
    match s.guards t i with
    | none => s
    | some g =>
      { s with
        guards := update₂ s.guards t i (some { g with confirmed := true })
        prot := match cfg.backend with
          | .hp => s.prot
          | _ => update₂ s.prot t (implicit g.obj) true }

/-- `get_use_count()`. -/
def State.loadRef (via : Via) : Option (Option Nat × State n) :=
  match s.via t via with
  | none => some (some 0, s)
  | some o =>
    match s.mem o with
    | none => some (some 0, { s with fault := true })
    | some ob =>
      some (ob.loadRef cfg, if ob.loadRef cfg = some 0 then s else s.confirm cfg t via)

def State.loadRefCas (via : Via) : Option (Nat × State n) :=
  match s.via t via with
  | none => some (0, s)
  | some o =>
    match s.mem o with
    | none => some (0, { s with fault := true })
    | some ob =>
      let a := access ob.ref .loadCas
      some ((match a.2 with | .done (.val v) => v.toNat | _ => 0),
        s.setObj o (some { ob with ref := a.1 }))

/-! ## Deferred lists -/

/-- `retire` up to `emplace_back`, of the pointer in `t`'s hand. -/
def State.emplace : Option (Unit × State n) :=
  match s.cell (.hand t) with
  | none => some ((), s)
  | some k =>
    if cfg.backend = .ibr ∧ s.mem k.obj = none then some ((), { s with fault := true })
    else
      some ((), { s with
        cell := Function.update s.cell (.hand t) none
        home := Function.update s.home k (some (.list t))
        deferred := Function.update s.deferred t (s.deferred t ++ [⟨k, s.birth k.obj, s.epoch⟩]) })

/-- The same for `retire(ptr, RetireType::dispose)`. -/
def State.emplaceDispose (o : Obj) : Option (Unit × State n) :=
  if cfg.backend = .ibr ∧ s.mem o = none then some ((), { s with fault := true })
  else
    some ((), { s with
      home := Function.update s.home (implicit o) (some (.list t))
      owned := update₂ s.owned t o none
      deferred := Function.update s.deferred t
        (s.deferred t ++ [⟨implicit o, s.birth o, s.epoch⟩]) })

/-- The product is a `size_t`. -/
def Config.threshold (n : Nat) : Nat := max 30 (cfg.ejectDelay * n % 2 ^ 64)

/-- What a scan reads, in its order. -/
def Config.scanOrder (n : Nat) : List (Fin n × Nat) :=
  (List.finRange n).flatMap fun u =>
    match cfg.backend with
    | .hp => (List.range (cfg.snapshotSlots + 1)).map fun i => (u, i)
    | _ => [(u, 0)]

/-- The head of the `while` loop of `work_toward_deferred_decrements`. -/
def State.tryBegin : Option (Bool × State n) :=
  if s.inProgress t = false ∧ cfg.threshold n ≤ s.work t then
    let s := { s with work := Function.update s.work t 0 }
    if s.deferred t = [] then some (false, s)
    else
      some (true, { s with
        inProgress := Function.update s.inProgress t true
        pass := Function.update s.pass t
          (some ⟨s.deferred t, [], cfg.scanOrder n, ∅, fun _ _ => 0, none, [], none⟩)
        deferred := Function.update s.deferred t [] })
  else some (false, s)

/-- Change the pass of `t`. -/
def State.onPass (f : Pass n → Pass n) : State n :=
  { s with pass := Function.update s.pass t ((s.pass t).map f) }

/-- Count one more announcement of `o`; the first protects up to two actions. -/
def Pass.announce (p : Pass n) (u : Fin n) (i : Nat) (o : Obj) : Pass n :=
  { p with
    saw := insert ((u, i), o) p.saw
    announced := Function.update p.announced o fun ty =>
      if p.announced o ty = 0 then 2 else p.announced o ty + 1 }

/-- One iteration of `scan_slots`. -/
def Pass.scanSlot (p : Pass n) (u : Fin n) (i : Nat) (x : Option Obj) : Pass n :=
  let p := { p with toScan := p.toScan.erase (u, i) }
  match x with
  | none => p
  | some o => p.announce u i o

/-- The smaller of two epochs, `none` being `no_epoch`. -/
def minOf : Option Nat → Option Nat → Option Nat
  | none, b => b
  | a, none => a
  | some a, some b => some (min a b)

/-- One iteration of `get_min_announced_epoch`. -/
def Pass.scanEpoch (p : Pass n) (u : Fin n) (x : Option Nat) : Pass n :=
  { p with toScan := p.toScan.erase (u, 0), minEpoch := minOf p.minEpoch x }

/-- `scan_announced_epochs` reads a start epoch. -/
def Pass.scanStart (p : Pass n) (u : Fin n) : Option Nat → Pass n
  | none => { p with toScan := p.toScan.erase (u, 0) }
  | some e => { p with start := some (u, e) }

/-- The callback of `scan_announced_epochs` has read an end epoch. -/
def Pass.scanEnd (p : Pass n) (u : Fin n) (startTS endTS : Nat) : Pass n :=
  { p with
    toScan := p.toScan.erase (u, 0)
    start := none
    intervals := if startTS ≤ endTS then p.intervals ++ [(u, startTS, endTS)] else p.intervals }

/-- The predicate of `remove_if`: whether the entry is ejected. -/
def Pass.ejects (p : Pass n) (e : Entry) : Bool :=
  match cfg.backend with
  | .hp => p.announced e.token.obj e.token.type == 0
  | .ebr =>
    match p.minEpoch with
    | none => true
    | some m => e.retireTS < m
  | .ibr => p.intervals.all fun a => e.retireTS < a.2.1 || e.birthTS > a.2.2

/-- The predicate says that the entry stays. -/
def Pass.keep (p : Pass n) (e : Entry) (rest : List Entry) : Pass n :=
  { p with
    todo := rest
    kept := p.kept ++ [e]
    announced := match cfg.backend with
      | .hp => update₂ p.announced e.token.obj e.token.type
          (p.announced e.token.obj e.token.type - 1)
      | _ => p.announced }

def State.judge : Option (Verdict × State n) :=
  match s.pass t with
  | none => some (.finished, s)
  | some p =>
    match p.todo with
    | [] => some (.finished, s)
    | e :: rest =>
      if p.ejects cfg e then some (.eject e.token.type, s)
      else some (.kept, s.onPass t fun p => p.keep cfg e rest)

/-- The rest of the pass after `remove_if`. -/
def State.endPass : State n :=
  { s with
    deferred := Function.update s.deferred t
      (s.deferred t ++ ((s.pass t).map (·.kept)).getD [])
    pass := Function.update s.pass t none
    inProgress := Function.update s.inProgress t false }

/-! ## Epochs -/

/-- `local_epoch[id].exchange(current)`. -/
def State.announceEpoch (e : Nat) : State n :=
  { s with
    localEpoch := Function.update s.localEpoch t (some e)
    prot := match cfg.backend with
      | .ebr => Function.update s.prot t fun k => s.prot t k || inLoc (s.home k)
      | _ => s.prot }

/-- `end_critical_section`; the pointers validated in the section are not used again. -/
def State.endSection : State n :=
  { s with
    localEpoch := Function.update s.localEpoch t none
    guards := Function.update s.guards t fun _ => none
    prot := Function.update s.prot t fun _ => false
    cov := Function.update s.cov t fun _ => false }

/-- `work_toward_advancing_epoch` up to the test. -/
def State.epochTick : Bool × State n :=
  let work := (s.epochWork t + 1) % 2 ^ 32
  if cfg.epochFrequency * n % 2 ^ 64 ≤ work then
    (true, { s with epochWork := Function.update s.epochWork t 0 })
  else (false, { s with epochWork := Function.update s.epochWork t work })

/-! ## Announcements and locations -/

/-- A validated pointer to `o`. -/
def State.guardOn (o : Obj) (κ : Kind) : Guard := ⟨o, κ, s.birth o, false⟩

/-- The load that validates an announcement. -/
def State.validate (c : Choice) (κ : Kind) (l i : Nat) (p : Option Obj) : Bool × State n :=
  if s.ptr (.loc κ l) = p ∧ c ≠ .fail then
    (true, { s with guards := update₂ s.guards t i (p.map (s.guardOn · κ)) })
  else (false, s)

/-- The load of `acquire` and `protect_snapshot` in a critical section. For
`acquire_retire_ibr` the pointer is protected if the epoch is not past `endTS`. -/
def State.loadProtected (κ : Kind) (l i : Nat) : Option Obj × State n :=
  let x := s.ptr (.loc κ l)
  let s' := { s with guards := update₂ s.guards t i (x.map (s.guardOn · κ)) }
  match cfg.backend with
  | .ibr =>
    if s.epoch ≤ s.endTS t then
      match x with
      | none => (x, { s' with late := Function.update s.late t false })
      | some o => (x, { s'.cover t o with late := Function.update s.late t false })
    else
      (x, { s with
        guards := update₂ s.guards t i none
        late := Function.update s.late t true })
  | _ => (x, s')

/-- `reserve` of the pointer in a variable. -/
def State.reserve (κ : Kind) (i : Nat) : Option Obj × State n :=
  let x := s.ptr (.var κ i)
  (x, { s with
    slots := match cfg.backend with
      | .hp => update₂ s.slots t 0 x
      | _ => s.slots
    reading := Function.update s.reading t (some (κ, i))
    guards := update₂ s.guards t 0 (x.map (s.guardOn · κ)) })

/-- `clear_protection`. -/
def State.clearGuard (i : Nat) : State n :=
  { s with
    slots := match cfg.backend with
      | .hp => update₂ s.slots t i none
      | _ => s.slots
    reading := if i = 0 then Function.update s.reading t none else s.reading
    guards := update₂ s.guards t i none }

/-- Put the unit of cell `p` into a location. -/
def State.putIn (p : Place n) (κ : Kind) (l : Nat) : State n :=
  match s.cell p with
  | none => s
  | some k => (s.move p (.loc κ l)).enter cfg k

/-- Put a pointer to a guarded object into a location, with a unit that will be counted
later. -/
def State.publish (κ : Kind) (l i : Nat) : State n :=
  match s.guards t i with
  | none => s
  | some g =>
    let s' := (s.mint (.loc κ l) g.obj κ).enter cfg ⟨g.obj, κ.type, s.nextId⟩
    { (if cfg.backend = .ibr then s'.cover t g.obj else s') with
      debt := Function.update s.debt t (some ⟨g.obj, κ, i⟩) }

def State.install (κ : Kind) (l : Nat) : New → State n
  | .null => s
  | .desired => s.putIn cfg (.desired t) κ l
  | .var κ' i => s.putIn cfg (.var κ' i) κ l
  | .guard i => s.publish cfg t κ l i

/-- Swap the pointer of a location; the old one is left in `t`'s hand. -/
def State.replace (κ : Kind) (l : Nat) (new : New) : State n :=
  (s.move (.loc κ l) (.hand t)).install cfg t κ l new

/-- `atomic_ptr.exchange`. A validated pointer that replaces itself leaves the unit in
its place (`store(const snapshot_ptr&)` then does nothing more). Returns whether there
is an old pointer to release. -/
def State.exchange (c : Choice) (κ : Kind) (l : Nat) (new : New) : Option (Bool × State n) :=
  match new with
  | .guard i =>
    if s.ptr (.loc κ l) = (s.guards t i).map (·.obj) ∧ c ≠ .fail then some (false, s)
    else some ((s.cell (.loc κ l)).isSome, s.replace cfg t κ l new)
  | _ => some ((s.cell (.loc κ l)).isSome, s.replace cfg t κ l new)

/-- The variable a pointer is moved from is not in use by another operation. -/
def State.movable : New → Prop
  | .var κ i => s.unread κ i
  | _ => True

instance : (new : New) → Decidable (s.movable new)
  | .var κ i => inferInstanceAs (Decidable (s.unread κ i))
  | .null | .desired | .guard _ => .isTrue trivial

/-- `atomic_ptr.compare_exchange_strong` and `..._weak`. -/
def State.cas (c : Choice) (κ : Kind) (l : Nat) (expected : Option Obj) (new : New) :
    Option ((Bool × Option Obj) × State n) :=
  if s.movable new then
    if s.ptr (.loc κ l) = expected ∧ c ≠ .fail then
      some ((true, expected), s.replace cfg t κ l new)
    else some ((false, s.ptr (.loc κ l)), s)
  else none

/-- The variable a pointer is moved from is not in use by another operation. -/
def State.movableSpot : Spot → Prop
  | .var κ i => s.unread κ i
  | _ => True

instance : (p : Spot) → Decidable (s.movableSpot p)
  | .var κ i => inferInstanceAs (Decidable (s.unread κ i))
  | .hand | .desired => .isTrue trivial

/-- A pointer is moved; returns whether it was not null. -/
def State.moveSpot (p q : Spot) : Option (Bool × State n) :=
  if s.movableSpot p ∧ s.cell (q.place t) = none then
    some ((s.cell (p.place t)).isSome, s.move (p.place t) (q.place t))
  else none

end Effects

/-- One action of thread `t`. -/
def exec {n : Nat} (cfg : Config) {β : Type} (t : Fin n) (c : Choice) :
    Act n β → State n → Option (β × State n)
  | .create i birth, s =>
    match c with
    | .address o =>
      if s.mem o = none ∧ s.cell (.var .strong i) = none then some ((), s.create i birth o) else none
    | _ => none
  | .increment κ via dst checked, s => s.increment cfg t κ via dst checked
  | .payDebt, s => s.payDebt cfg t
  | .release κ src, s => s.release cfg t κ src
  | .decrementCas o, s => s.decrementCas t o
  | .decrementExchange o, s => s.decrementExchange t o
  | .loadWeak o, s => s.loadWeak t o
  | .startDispose, s => s.startDispose t
  | .runDestructor o, s => s.runDestructor o
  | .nextField, s =>
    match c with
    | .dropVar κ i => some (some (.var κ i), s)
    | .dropLoc κ i => some (some (.loc κ i), s)
    | _ => some (none, s)
  | .destroyLoc κ i, s => s.destroyLoc t κ i
  | .releaseImplicit o, s => s.releaseImplicit cfg t o
  | .delete o, s => s.delete t o
  | .loadRef via, s => s.loadRef cfg t via
  | .loadRefCas via, s => s.loadRefCas t via
  | .emplace, s => s.emplace cfg t
  | .emplaceDispose o, s => s.emplaceDispose cfg t o
  | .addWork, s => some ((), { s with work := Function.update s.work t ((s.work t + 1) % 2 ^ 32) })
  | .tryBegin, s => s.tryBegin cfg t
  | .scanSlot u i, s => some ((), s.onPass t fun p => p.scanSlot u i (s.slots u i))
  | .scanEpoch u, s => some ((), s.onPass t fun p => p.scanEpoch u (s.localEpoch u))
  | .scanStart u, s =>
    some (s.localEpoch u, s.onPass t fun p => p.scanStart u (s.localEpoch u))
  | .scanEnd u e, s => some ((), s.onPass t fun p => p.scanEnd u e (s.endTS u))
  | .judge, s => s.judge cfg t
  | .endPass, s => some ((), s.endPass t)
  | .inSection, s => some ((s.localEpoch t).isSome, s)
  | .readEpoch, s => some (s.epoch, { s with readTS := Function.update s.readTS t s.epoch })
  | .announceEpoch e, s => some ((), s.announceEpoch cfg t e)
  | .endSection, s => some ((), s.endSection t)
  | .pushGuard b, s =>
    some ((), { s with engaged := Function.update s.engaged t (b :: s.engaged t) })
  | .popGuard, s =>
    some ((s.engaged t).head?, { s with engaged := Function.update s.engaged t (s.engaged t).tail })
  | .epochTick, s => some (s.epochTick cfg t)
  | .advanceEpoch, s => some ((), { s with epoch := s.epoch + 1 })
  | .readEnd, s => some (s.endTS t, s)
  | .writeEnd e, s =>
    some ((), { s with
      endTS := Function.update s.endTS t e
      late := Function.update s.late t false })
  | .loadSlot i, s => some (s.slots t i, s)
  | .storeSlot i p, s =>
    some ((), { s with
      slots := update₂ s.slots t i p
      guards := update₂ s.guards t i none })
  | .load κ l, s => some (s.ptr (.loc κ l), s)
  | .validate κ l i p, s => some (s.validate t c κ l i p)
  | .unchanged κ l p, s => some (decide (s.ptr (.loc κ l) = p ∧ c ≠ .fail), s)
  | .setMark _ _, s => some (decide (c ≠ .fail), s)
  | .loadProtected κ l i, s => some (s.loadProtected cfg t κ l i)
  | .reserve κ i, s => some (s.reserve cfg t κ i)
  | .clearGuard i, s => some ((), s.clearGuard cfg t i)
  | .exchange κ l new, s => if s.movable new then s.exchange cfg t c κ l new else none
  | .cas κ l expected new, s => s.cas cfg t c κ l expected new
  | .use κ l, s =>
    if s.dead κ l then none else some ((), { s with busy := Function.update s.busy t (some (κ, l)) })
  | .unuse, s => some ((), { s with busy := Function.update s.busy t none })
  | .move p q, s => s.moveSpot t p q

end Cdrc.Smr
