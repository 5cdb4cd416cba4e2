import Cdrc.Smr.Actions

/-! # Reference counting over a memory manager: the code

The operations of `atomic_rc_ptr`, `atomic_weak_ptr`, `rc_ptr`, `weak_ptr` and the
snapshots, and what they call in the memory manager, as code over the actions. The
procedures are the functions of the source that loop or are reached recursively: a pass
ejects entries, an ejected decrement can dispose of an object, its destructor drops
pointers and retires the contents of its locations, and a retire can start a pass. -/
namespace Cdrc.Smr
open Cdrc.StickyCounter Cdrc.CountedObject Cdrc.Lib.Threads Prog

/-- Where a snapshot has its protection: a guard, or a strong unit of its own in a
variable. -/
inductive Handle
  | guard (i : Nat)
  | var (i : Nat)
  deriving DecidableEq, Repr

/-- The functions that loop or are reached recursively, by what they return. -/
inductive Proc : Type → Type
  | retire : Proc Unit
  | retireDispose (o : Obj) : Proc Unit
  /-- the loop of `work_toward_deferred_decrements`, `work_toward_ejects` -/
  | workLoop : Proc Unit
  /-- `remove_if` over what is left of the entries -/
  | removeIf : Proc Unit
  | eject (type : RetireType) : Proc Unit
  | decrementRefCnt (src : From) : Proc Unit
  | decrementWeakCnt (src : From) : Proc Unit
  | dispose (o : Obj) : Proc Unit
  /-- the rest of a destructor that only drops smart pointers -/
  | destructor : Proc Unit
  /-- the loop of `acquire_retire::acquire` -/
  | acquireLoop (κ : Kind) (l : Nat) : Proc (Option Obj)
  /-- the loop of `acquire_retire::protect_snapshot` with a slot -/
  | protectLoop (κ : Kind) (l i : Nat) : Proc (Option Obj)
  /-- its loop without one -/
  | protectNoSlot (κ : Kind) (l w : Nat) : Proc (Option Obj)
  /-- the loop of `acquire_retire_ibr::protect_snapshot` -/
  | protectEpoch (κ : Kind) (l i pEpoch : Nat) : Proc (Option Obj)
  /-- the loop of `atomic_weak_ptr::get_snapshot` -/
  | weakSnapshot (l i w : Nat) : Proc Unit
  /-- the loop of `atomic_rc_ptr::swap` -/
  | swapLoop (l : Nat) (expected : Option Obj) : Proc Unit
  /-- the loop of `arc_ptr_policy::set_mark` -/
  | setMark (κ : Kind) (l : Nat) : Proc Unit

abbrev Code (n : Nat) := Prog (Act n) Proc

section Code
variable {n : Nat} (cfg : Config)

/-! ## The memory manager -/

/-- One iteration of a scan. -/
def scanOne (u : Fin n) (i : Nat) : Code n Unit :=
  match cfg.backend with
  | .hp => perform (.scanSlot u i)
  | .ebr => perform (.scanEpoch u)
  | .ibr => do
    match ← perform (.scanStart u) with
    | none => pure ()
    | some e => perform (.scanEnd u e)

def scan : List (Fin n × Nat) → Code n Unit
  | [] => pure ()
  | (u, i) :: rest => do
    scanOne cfg u i
    scan rest

/-- `work_toward_deferred_decrements(1)`, `work_toward_ejects(1)`. -/
def workToward : Code n Unit := do
  perform .addWork
  invoke .workLoop

def workLoop : Code n Unit := do
  if ← perform .tryBegin then
    scan cfg (cfg.scanOrder n)
    invoke .removeIf
    perform .endPass
    invoke .workLoop

def removeIf : Code n Unit := do
  match ← perform .judge with
  | .finished => pure ()
  | .kept => invoke .removeIf
  | .eject ty => do
    invoke (.eject ty)
    invoke .removeIf

def eject : RetireType → Code n Unit
  | .decrementStrongCount => invoke (.decrementRefCnt .todo)
  | .decrementWeakCount => invoke (.decrementWeakCnt .todo)
  | .dispose => do
    let o ← perform .startDispose
    invoke (.dispose o)

/-- The rest of `ref_cnt.decrement(1)` after its `fetch_sub` returned 1. -/
def finishDecrement (o : Obj) : Code n Bool :=
  if cfg.atomicCounters then pure true
  else do
    match ← perform (.decrementCas o) with
    | .done (.bool b) => pure b
    | .decrementExchange _ => perform (.decrementExchange o)
    | _ => pure false

def decrementRefCnt (src : From) : Code n Unit := do
  match ← perform (.release .strong src) with
  | some (o, true) => do
    if ← finishDecrement cfg o then
      let w ← perform (.loadWeak o)
      if w = 1 then
        perform (.runDestructor o)
        invoke .destructor
        perform (.delete o)
      else invoke (.retireDispose o)
  | _ => pure ()

def decrementWeakCnt (src : From) : Code n Unit := do
  match ← perform (.release .weak src) with
  | some (o, true) => perform (.delete o)
  | _ => pure ()

def dispose (o : Obj) : Code n Unit := do
  perform (.runDestructor o)
  invoke .destructor
  if ← perform (.releaseImplicit o) then perform (.delete o)

def destructor : Code n Unit := do
  match ← perform .nextField with
  | none => pure ()
  | some (.var .strong i) => do
    invoke (.decrementRefCnt (.var .strong i))
    invoke .destructor
  | some (.var .weak i) => do
    invoke (.decrementWeakCnt (.var .weak i))
    invoke .destructor
  | some (.loc κ i) => do
    if ← perform (.destroyLoc κ i) then invoke .retire
    invoke .destructor

def acquireLoop (κ : Kind) (l : Nat) : Code n (Option Obj) := do
  let result ← perform (.load κ l)
  perform (.storeSlot 0 result)
  if ← perform (.validate κ l 0 result) then pure result
  else invoke (.acquireLoop κ l)

/-- `get_use_count()`. -/
def useCount (via : Via) : Code n Nat := do
  match ← perform (.loadRef via) with
  | some c => pure c
  | none => perform (.loadRefCas via)

/-- The end of the epoch backends' `protect_snapshot`. -/
def checkUseCount (i : Nat) : Option Obj → Code n (Option Obj)
  | none => pure none
  | some o => do
    if (← useCount (.guard i)) = 0 then
      perform (.clearGuard i)
      pure none
    else pure (some o)

def protectEpoch (κ : Kind) (l i pEpoch : Nat) : Code n (Option Obj) := do
  let result ← perform (.loadProtected κ l i)
  let curTS ← perform .readEpoch
  if pEpoch = curTS then checkUseCount i result
  else
    perform (.writeEnd curTS)
    invoke (.protectEpoch κ l i curTS)

/-- `acquire`; the guard is guard 0. -/
def acquire (κ : Kind) (l : Nat) : Code n (Option Obj) :=
  match cfg.backend with
  | .hp => invoke (.acquireLoop κ l)
  | .ebr => perform (.loadProtected κ l 0)
  | .ibr => do
    let pEpoch ← perform .readEnd
    invoke (.protectEpoch κ l 0 pEpoch)

/-- `get_free_slot`, from slot `i` on. -/
def getFreeSlot : List Nat → Code n (Option Nat)
  | [] => pure none
  | i :: rest => do
    match ← perform (.loadSlot (i + 1)) with
    | none => pure (some (i + 1))
    | some _ => getFreeSlot rest

def protectLoop (κ : Kind) (l i : Nat) : Code n (Option Obj) := do
  match ← perform (.load κ l) with
  | none => do
    perform (.storeSlot i none)
    pure none
  | some o => do
    perform (.storeSlot i (some o))
    if ← perform (.validate κ l i (some o)) then pure (some o)
    else invoke (.protectLoop κ l i)

def protectNoSlot (κ : Kind) (l w : Nat) : Code n (Option Obj) := do
  match ← invoke (.acquireLoop κ l) with
  | none => pure none
  | some o => do
    if ← perform (.increment .strong (.guard 0) (.var .strong w) true) then
      perform (.clearGuard 0)
      pure (some o)
    else if ← perform (.unchanged κ l (some o)) then
      perform (.clearGuard 0)
      pure none
    else
      perform (.clearGuard 0)
      invoke (.protectNoSlot κ l w)

/-- `protect_snapshot`. With `acquire_retire` the slot is the first free one, and a
snapshot without a slot keeps its unit in variable `w`; else the guard is guard `i`. -/
def protectSnapshot (κ : Kind) (l i w : Nat) : Code n (Option (Obj × Handle)) :=
  match cfg.backend with
  | .hp => do
    match ← getFreeSlot (List.range cfg.snapshotSlots) with
    | none => do
      let p ← invoke (.protectNoSlot κ l w)
      pure (p.map (·, .var w))
    | some i => do
      let p ← invoke (.protectLoop κ l i)
      pure (p.map (·, .guard i))
  | .ebr => do
    let p ← perform (.loadProtected κ l i)
    let p ← checkUseCount i p
    pure (p.map (·, .guard i))
  | .ibr => do
    let pEpoch ← perform .readEnd
    let p ← invoke (.protectEpoch κ l i pEpoch)
    pure (p.map (·, .guard i))

/-- `reserve` of a pointer variable. -/
def reserve (κ : Kind) (v : Nat) : Code n (Option Obj) := do
  let p ← perform (.reserve κ v)
  if cfg.backend = .ibr then
    let curTS ← perform .readEpoch
    let endTS ← perform .readEnd
    if endTS ≠ curTS then perform (.writeEnd curTS)
  pure p

/-! ## `atomic_weak_ptr::get_snapshot` -/

def Handle.via : Handle → Via
  | .guard i => .guard i
  | .var i => .var .strong i

/-- `~acquired_pointer`. -/
def Handle.clear : Handle → Code n Unit
  | .guard i => perform (.clearGuard i)
  | .var _ => pure ()

def weakSnapshot (l i w : Nat) : Code n Unit := do
  match ← protectSnapshot cfg .weak l i w with
  | none => pure ()
  | some (ptr, h) => do
    if (← useCount h.via) > 0 then pure ()
    else if ← perform (.unchanged .weak l (some ptr)) then h.clear
    else do
      h.clear
      invoke (.weakSnapshot l i w)

/-! ## `atomic_rc_ptr::swap` -/

def swapLoop (l : Nat) (expected : Option Obj) : Code n Unit := do
  let (done, current) ← perform (.cas .strong l expected .desired)
  if done then pure () else invoke (.swapLoop l current)

/-! ## Marks -/

/-- `arc_ptr_policy::set_mark`, `set_mark_bit`. -/
def setMark (κ : Kind) (l : Nat) : Code n Unit := do
  if ← perform (.setMark κ l) then pure () else invoke (.setMark κ l)

/-- The bodies of the procedures. -/
def body : {β : Type} → Proc β → Code n β
  | _, .retire => do
    perform .emplace
    workToward
  | _, .retireDispose o => do
    perform (.emplaceDispose o)
    workToward
  | _, .workLoop => workLoop cfg
  | _, .removeIf => removeIf
  | _, .eject ty => eject ty
  | _, .decrementRefCnt src => decrementRefCnt cfg src
  | _, .decrementWeakCnt src => decrementWeakCnt src
  | _, .dispose o => dispose o
  | _, .destructor => destructor
  | _, .acquireLoop κ l => acquireLoop κ l
  | _, .protectLoop κ l i => protectLoop κ l i
  | _, .protectNoSlot κ l w => protectNoSlot κ l w
  | _, .protectEpoch κ l i pEpoch => protectEpoch κ l i pEpoch
  | _, .weakSnapshot l i w => weakSnapshot cfg l i w
  | _, .swapLoop l expected => swapLoop l expected
  | _, .setMark κ l => setMark κ l

end Code

/-! ## The operations -/

inductive Op
  /-- `epoch_guard()` and `~epoch_guard()` -/
  | beginGuard
  | endGuard
  | makeRc (v : Nat)
  /-- `atomic_rc_ptr::load`, `atomic_weak_ptr::load`; the result goes to variable `w` -/
  | load (κ : Kind) (l w : Nat)
  /-- `atomic_rc_ptr::get_snapshot`; with an epoch backend the snapshot is guard `i` -/
  | getSnapshot (l i w : Nat)
  /-- `atomic_weak_ptr::get_snapshot` -/
  | getWeakSnapshot (l i w : Nat)
  | storeNull (κ : Kind) (l : Nat)
  /-- `store` of an `rc_ptr` or a `weak_ptr` -/
  | store (κ : Kind) (l v : Nat)
  /-- `atomic_rc_ptr::store(const snapshot_ptr&)` -/
  | storeSnapshot (l : Nat) (h : Handle)
  /-- `atomic_weak_ptr::store` of a snapshot -/
  | storeWeak (l : Nat) (via : Via)
  /-- `compare_and_swap` that copies `desired` -/
  | casCopy (κ : Kind) (l : Nat) (expected : Option Obj) (desired : Via)
  /-- `compare_and_swap` that moves the variable `v` -/
  | casMove (κ : Kind) (l : Nat) (expected : Option Obj) (v : Nat)
  /-- the constructors of `rc_ptr` and `weak_ptr` that add a unit -/
  | copy (κ : Kind) (via : Via) (w : Nat)
  /-- `weak_ptr::lock`, `weak_snapshot_ptr::lock` -/
  | lock (via : Via) (w : Nat)
  | moveVar (κ : Kind) (v w : Nat)
  /-- `clear` of an `rc_ptr`, of a `weak_ptr`, or of a snapshot with a unit of its own -/
  | drop (κ : Kind) (v : Nat)
  /-- `clear` of a snapshot under a guard -/
  | clearSnapshot (i : Nat)
  /-- `~atomic_rc_ptr`, `~atomic_weak_ptr` -/
  | destroyLoc (κ : Kind) (l : Nat)
  /-- `exchange`; the old pointer goes to variable `w` -/
  | exchange (κ : Kind) (l v w : Nat)
  | swap (l v : Nat)
  /-- `set_mark`, `set_mark_bit` of a location -/
  | setMark (κ : Kind) (l : Nat)
  deriving DecidableEq, Repr

section Ops
variable {n : Nat} (cfg : Config)

/-- `create_object`. -/
def createObject (v : Nat) : Code n Unit :=
  match cfg.backend with
  | .hp => perform (.create v 0)
  | .ebr => do
    if ← perform .epochTick then perform .advanceEpoch
    perform (.create v 0)
  | .ibr => do
    if ← perform .epochTick then perform .advanceEpoch
    let birth ← perform .readEpoch
    perform (.create v birth)

/-- `atomic_ptr.exchange` and `delayed_decrement` of the old pointer; the location is not
accessed after the exchange. -/
def exchangeAndRetire (κ : Kind) (l : Nat) (new : New) : Code n Unit := do
  perform (.use κ l)
  let old ← perform (.exchange κ l new)
  perform .unuse
  perform .payDebt
  if old then invoke .retire

/-- `compare_and_swap_impl`. -/
def compareAndSwapImpl (κ : Kind) (l : Nat) (expected : Option Obj) (new : New) :
    Code n Bool := do
  perform (.use κ l)
  let (ok, _) ← perform (.cas κ l expected new)
  perform .unuse
  if ok && expected.isSome then invoke .retire
  pure ok

def Op.code : Op → Code n Unit
  | .beginGuard => do
    if ← perform .inSection then perform (.pushGuard false)
    else
      let current ← perform .readEpoch
      perform (.announceEpoch current)
      perform (.pushGuard true)
  | .endGuard => do
    match ← perform .popGuard with
    | some true => perform .endSection
    | _ => pure ()
  | .makeRc v => createObject cfg v
  | .load κ l w => do
    perform (.use κ l)
    let p ← acquire cfg κ l
    perform .unuse
    if p.isSome then
      let _ ← perform (.increment κ (.guard 0) (.var κ w) (κ = .weak))
      perform (.clearGuard 0)
  | .getSnapshot l i w => do
    perform (.use .strong l)
    let _ ← protectSnapshot cfg .strong l i w
    perform .unuse
  | .getWeakSnapshot l i w => do
    perform (.use .weak l)
    invoke (.weakSnapshot l i w)
    perform .unuse
  | .storeNull κ l => exchangeAndRetire κ l .null
  | .store κ l v => do
    let _ ← perform (.move (.var κ v) .desired)
    exchangeAndRetire κ l .desired
  | .storeSnapshot l h =>
    match h with
    | .guard i => exchangeAndRetire .strong l (.guard i)
    | .var v => do
      let _ ← perform (.increment .strong (.var .strong v) .desired false)
      exchangeAndRetire .strong l .desired
  | .storeWeak l via => do
    let _ ← perform (.increment .weak via .desired false)
    exchangeAndRetire .weak l .desired
  | .casCopy κ l expected desired =>
    match desired with
    | .guard i => do
      if ← compareAndSwapImpl κ l expected (.guard i) then perform .payDebt
    | .var κ' v => do
      let _ ← reserve cfg κ' v
      if ← compareAndSwapImpl κ l expected (.guard 0) then perform .payDebt
      perform (.clearGuard 0)
  | .casMove κ l expected v => do
    let _ ← compareAndSwapImpl κ l expected (.var κ v)
  | .copy κ via w => do
    let _ ← perform (.increment κ via (.var κ w) false)
  | .lock via w => do
    let _ ← perform (.increment .strong via (.var .strong w) true)
  | .moveVar κ v w => do
    let _ ← perform (.move (.var κ v) (.var κ w))
  | .drop κ v =>
    match κ with
    | .strong => invoke (.decrementRefCnt (.var .strong v))
    | .weak => invoke (.decrementWeakCnt (.var .weak v))
  | .clearSnapshot i => perform (.clearGuard i)
  | .destroyLoc κ l => do
    if ← perform (.destroyLoc κ l) then invoke .retire
  | .exchange κ l v w => do
    let _ ← perform (.move (.var κ v) .desired)
    perform (.use κ l)
    let _ ← perform (.exchange κ l .desired)
    perform .unuse
    let _ ← perform (.move .hand (.var κ w))
  | .swap l v => do
    let _ ← perform (.move (.var .strong v) .desired)
    perform (.use .strong l)
    let current ← perform (.load .strong l)
    invoke (.swapLoop l current)
    perform .unuse
    let _ ← perform (.move .hand (.var .strong v))
  | .setMark κ l => do
    perform (.use κ l)
    invoke (.setMark κ l)
    perform .unuse

/-! ## What callers keep to -/

/-- Weak pointers are only used where the counters are taken as atomic; with an epoch
backend locations are only accessed in a critical section. -/
def ready (s : State n) (t : Fin n) (κ : Kind) : Bool :=
  (κ = .strong || cfg.atomicCounters) && (cfg.backend = .hp || (s.localEpoch t).isSome)

/-- A snapshot of an epoch backend gets a name that is not in use. -/
def fresh (s : State n) (t : Fin n) (i : Nat) : Bool :=
  cfg.backend = .hp || (0 < i && s.guards t i = none)

/-- Units of counter `κ` can be made through the pointer. -/
def supports (s : State n) (t : Fin n) (κ : Kind) : Via → Bool
  | .guard i =>
    match s.guards t i with
    | some g => 0 < i && (κ = .weak || g.kind = .strong)
    | none => false
  | .var κ' _ => κ = .weak || κ' = .strong

/-- The pointer exists. -/
def held (s : State n) (t : Fin n) : Via → Bool
  | .guard i => 0 < i && (s.guards t i).isSome
  | .var _ _ => true

def Op.can (t : Fin n) (o : Op) (s : State n) : Bool :=
  match o with
  | .beginGuard | .endGuard => cfg.backend ≠ .hp
  | .load κ _ _ | .storeNull κ _ | .store κ _ _ | .casMove κ _ _ _ => ready cfg s t κ
  | .getSnapshot _ i _ => ready cfg s t .strong && fresh cfg s t i
  | .getWeakSnapshot _ i _ => ready cfg s t .weak && fresh cfg s t i
  | .storeSnapshot _ h => ready cfg s t .strong && supports s t .strong h.via
  | .storeWeak _ via => ready cfg s t .weak && held s t via
  | .casCopy κ _ _ desired => ready cfg s t κ && supports s t κ desired
  | .copy κ via _ => (κ = .strong || cfg.atomicCounters) && supports s t κ via
  | .lock via _ => cfg.atomicCounters && held s t via
  | .clearSnapshot i => 0 < i
  | .exchange κ _ _ _ => cfg.exchanges && ready cfg s t κ
  | .swap _ _ => cfg.exchanges && ready cfg s t .strong
  | .makeRc _ | .moveVar .. | .drop .. | .destroyLoc .. | .setMark .. => true

/-- Any number of threads that use the library. -/
def system (n : Nat) : System (Fin n) (State n) Choice (Act n) Proc Op where
  init s := s = .initial n
  exec := exec cfg
  body := body cfg
  op := Op.code cfg
  can := Op.can cfg

end Ops

end Cdrc.Smr
