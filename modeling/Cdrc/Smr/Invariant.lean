import Cdrc.Lib.Units
import Cdrc.Smr.Code

/-! # Reference counting over a memory manager: the invariant

The counters count what the books say is paid (`Inv.books`, `Inv.counted`): one book for
each counter, with the guards that rest on its units and the increments that are owed.
So as long as a unit, a guard or a debt of an object is left, its counter is positive.

What remains is to say why the unit a guard rests on, and the unit a debt is for, are not
released. They are in a variable that the operation is reading, or they have been in a
location and are `Held`: with `acquire_retire` every pass that has read the slot of the
guard has seen the object announced there, with the epoch backends the unit is one that
the thread's critical section keeps (`prot`). The other parts say where tokens are, how
far each object is with being disposed of, and what the passes and epochs know. -/
namespace Cdrc.Smr
open Cdrc.StickyCounter Cdrc.CountedObject Cdrc.Lib.Threads Cdrc.Lib.Units

variable {n : Nat}

abbrev Book (n : Nat) := Ledger (Fin n × Nat) (Fin n) Token

/-- The units that a counter counts. -/
def ofKind : Kind → Token → Prop
  | .strong, k => k.type = .decrementStrongCount
  | .weak, k => k.type ≠ .decrementStrongCount

def Live (home : Token → Option (Home n)) (κ : Kind) (k : Token) : Prop :=
  home k ≠ none ∧ ofKind κ k

/-- The guards in a book: a validated pointer from an `atomic_rc_ptr` keeps both
counters, one from an `atomic_weak_ptr` the weak counter. -/
def guardOf (guards : Fin n → Nat → Option Guard) (κ : Kind) (g : Fin n × Nat) : Option Obj :=
  (guards g.1 g.2).bind fun g => if κ = .weak ∨ g.kind = .strong then some g.obj else none

def debtOf (debt : Fin n → Option Debt) (κ : Kind) (t : Fin n) : Option (Fin n × Nat) :=
  (debt t).bind fun d => if d.kind = κ then some (t, d.guard) else none

/-- The entries of a pass. -/
def Pass.entries (p : Pass n) : List Entry := p.todo ++ p.kept

/-- Everything `t` has deferred. -/
def entries (deferred : Fin n → List Entry) (pass : Fin n → Option (Pass n)) (t : Fin n) :
    List Entry :=
  deferred t ++ ((pass t).map Pass.entries).getD []

/-! ## Where tokens are -/

/-- The kinds of unit a cell can hold. -/
def Fits : Place n → Token → Prop
  | .var κ _, k | .loc κ _, k => k.type = κ.type
  | _, k => k.type ≠ .dispose

structure Places (cell : Place n → Option Token) (home : Token → Option (Home n)) : Prop where
  cell_iff : ∀ p k, cell p = some k ↔ home k = some (.cell p)
  fits : ∀ p k, cell p = some k → Fits p k

structure Lists (home : Token → Option (Home n)) (deferred : Fin n → List Entry)
    (pass : Fin n → Option (Pass n)) (inProgress : Fin n → Bool) : Prop where
  list_iff : ∀ t k, home k = some (.list t) ↔ ∃ e ∈ entries deferred pass t, e.token = k
  nodup : ∀ t, ((entries deferred pass t).map (·.token)).Nodup
  inProgress : ∀ t, inProgress t = (pass t).isSome

structure Fresh (home : Token → Option (Home n)) (nextId : Nat) : Prop where
  id_lt : ∀ k, home k ≠ none → k.type ≠ .dispose → k.id < nextId
  eq_implicit : ∀ k, home k ≠ none → k.type = .dispose → k = implicit k.obj

/-- Homes that a unit only gets to through a location. -/
def exposed : Option (Home n) → Bool
  | some (.cell (.loc _ _)) | some (.cell (.hand _)) | some (.list _) => true
  | _ => false

/-- A unit that has been in a location is only in a variable after an exchange. -/
structure Shared (cfg : Config) (home : Token → Option (Home n)) (shared : Token → Bool)
    (nextId : Nat) : Prop where
  id_lt : ∀ k, shared k = true → k.id < nextId
  of_exposed : ∀ k, k.type ≠ .dispose → exposed (home k) = true → shared k = true
  exchanged : ∀ κ i k, home k = some (.cell (.var κ i)) → shared k = true → cfg.exchanges = true

/-- The units that sections keep have been in a location. -/
def ProtShared (prot : Fin n → Token → Bool) (shared : Token → Bool) : Prop :=
  ∀ t k, prot t k = true → k.type ≠ .dispose → shared k = true

/-! ## Objects -/

structure Counted (cfg : Config) (L : Kind → Book n) (mem : Obj → Option Object)
    (home : Token → Option (Home n)) : Prop where
  present : ∀ k, home k ≠ none → mem k.obj ≠ none
  ref : ∀ o ob, mem o = some ob → 0 < (L .strong).count Token.obj o ∨ cfg.atomicCounters = true →
    ob.ref.toNat = (L .strong).count Token.obj o
  ref_le : ∀ o, (L .strong).count Token.obj o ≤ maxValue 30
  weak : ∀ o ob, mem o = some ob → ob.weak = (L .weak).count Token.obj o

/-- `~T` has not started. -/
def Stage.early : Stage → Bool
  | .parked | .zero => true
  | _ => false

structure Life (mem : Obj → Option Object) (home : Token → Option (Home n))
    (owned : Fin n → Obj → Option Stage) : Prop where
  alive_of_strong : ∀ k, home k ≠ none → k.type = .decrementStrongCount →
    home (implicit k.obj) = some .alive
  strong_of_alive : ∀ o, home (implicit o) = some .alive →
    ∃ k, home k ≠ none ∧ k.obj = o ∧ k.type = .decrementStrongCount
  /-- the homes that only the implicit unit can have -/
  only_implicit : ∀ k, home k = some .alive ∨ (∃ t, home k = some (.owned t)) → k.type = .dispose
  owned_iff : ∀ t o, home (implicit o) = some (.owned t) ↔
    ∃ st, owned t o = some st ∧ st ≠ .last
  present : ∀ t o st, owned t o = some st → mem o ≠ none
  parked : ∀ t o ob, owned t o = some .parked → mem o = some ob → ob.ref.toNat = 0
  immediate : ∀ t o k, owned t o = some .immediate → home k ≠ none → k.obj = o → k = implicit o
  last : ∀ t o k, owned t o = some .last → k.obj = o → home k = none
  last_unique : ∀ t u o, owned t o = some .last → owned u o = some .last → t = u
  alive : ∀ o ob, mem o = some ob → home (implicit o) ≠ none →
    (∀ t st, owned t o = some st → st.early) → ob.alive = true

/-! ## Guards and debts -/

/-- What keeps a unit that guard `i` of `t` rests on from being ejected. -/
def Held (cfg : Config) (pass : Fin n → Option (Pass n)) (prot : Fin n → Token → Bool)
    (t : Fin n) (i : Nat) (k : Token) : Prop :=
  match cfg.backend with
  | .hp => ∀ r p, pass r = some p → (∃ e ∈ p.entries, e.token = k) → (t, i) ∉ p.toScan →
      ((t, i), k.obj) ∈ p.saw
  | _ => prot t k = true

/-- The operation of `t` reads the variable the unit is in. -/
def Locked (home : Token → Option (Home n)) (reading : Fin n → Option (Kind × Nat)) (t : Fin n)
    (k : Token) : Prop :=
  ∃ κ i, home k = some (.cell (.var κ i)) ∧ reading t = some (κ, i)

structure Guards (cfg : Config) (L : Kind → Book n) (mem : Obj → Option Object)
    (home : Token → Option (Home n)) (shared : Token → Bool)
    (reading : Fin n → Option (Kind × Nat)) (pass : Fin n → Option (Pass n))
    (prot : Fin n → Token → Bool) (owned : Fin n → Obj → Option Stage)
    (guards : Fin n → Nat → Option Guard) : Prop where
  wit : ∀ t i g, guards t i = some g →
    (i = 0 ∧ Locked home reading t ((L g.kind).wit (t, i))) ∨
      (shared ((L g.kind).wit (t, i)) = true ∧ Held cfg pass prot t i ((L g.kind).wit (t, i)))
  wit_strong : ∀ t i g, guards t i = some g → g.kind = .strong →
    (L .weak).wit (t, i) = implicit g.obj
  wit_weak : ∀ t i g, guards t i = some g → g.kind = .weak →
    ((L .weak).wit (t, i)).type = .decrementWeakCount
  birth : ∀ t i g ob, guards t i = some g → mem g.obj = some ob → g.birthTS = ob.birthTS
  confirmed : ∀ t i g, guards t i = some g → g.confirmed = true →
    home (implicit g.obj) ≠ none ∧ Held cfg pass prot t i (implicit g.obj) ∧
      ∀ u st, owned u g.obj = some st → st.early

structure Debts (cfg : Config) (L : Kind → Book n) (shared : Token → Bool)
    (pass : Fin n → Option (Pass n)) (prot : Fin n → Token → Bool)
    (guards : Fin n → Nat → Option Guard) (debt : Fin n → Option Debt) : Prop where
  guard : ∀ t d, debt t = some d → ∃ g, guards t d.guard = some g ∧ g.obj = d.obj ∧
    (d.kind = .strong → g.kind = .strong)
  label : ∀ t d, debt t = some d → ((L d.kind).label t).type = d.kind.type ∧
    shared ((L d.kind).label t) = true ∧ Held cfg pass prot t d.guard ((L d.kind).label t)

/-- `acquire_retire`: a guard is announced in a slot that scans read. -/
def Announced (cfg : Config) (slots : Fin n → Nat → Option Obj)
    (guards : Fin n → Nat → Option Guard) : Prop :=
  cfg.backend = .hp → ∀ t i g, guards t i = some g →
    slots t i = some g.obj ∧ i ≤ cfg.snapshotSlots

/-! ## Passes -/

/-- How many entries a number of announcements protects. -/
def quota : Nat → Nat
  | 0 => 0
  | a + 1 => a + 2

/-- How often an object was seen announced. -/
def Pass.seen (p : Pass n) (o : Obj) : Nat := (p.saw.filter (·.2 = o)).card

/-- How many entries of a kind were kept. -/
def Pass.keptOf (p : Pass n) (o : Obj) (ty : RetireType) : Nat :=
  p.kept.countP fun e => e.token.obj = o ∧ e.token.type = ty

structure PassOk (p : Pass n) : Prop where
  scanned : ∀ x o, (x, o) ∈ p.saw → x ∉ p.toScan
  unkept : p.toScan ≠ [] → p.kept = []
  quota : ∀ o ty, p.announced o ty + p.keptOf o ty = quota (p.seen o)

/-! ## Epochs -/

structure Epochs (mem : Obj → Option Object) (epoch : Nat) (readTS : Fin n → Nat)
    (localEpoch : Fin n → Option Nat) (endTS : Fin n → Nat) (late : Fin n → Bool) : Prop where
  birth_le : ∀ o ob, mem o = some ob → ob.birthTS ≤ epoch
  readTS_le : ∀ t, readTS t ≤ epoch
  localEpoch_le : ∀ t a, localEpoch t = some a → a ≤ epoch
  endTS_le : ∀ t, endTS t ≤ epoch
  late_lt : ∀ t, late t = true → endTS t < epoch

/-- Whether the section of `t` keeps the units of `o` that are in a location. -/
def Covers (cfg : Config) (localEpoch : Fin n → Option Nat) (cov : Fin n → Obj → Bool)
    (t : Fin n) (o : Obj) : Prop :=
  match cfg.backend with
  | .hp => False
  | .ebr => localEpoch t ≠ none
  | .ibr => cov t o = true

/-- A pass knows that the section of `t` keeps the entry. -/
def Noted (cfg : Config) (localEpoch : Fin n → Option Nat) (p : Pass n) (t : Fin n) (e : Entry) :
    Prop :=
  match cfg.backend with
  | .hp => True
  | .ebr => ∃ m a, p.minEpoch = some m ∧ localEpoch t = some a ∧ m ≤ a
  | .ibr => ∃ a b, (t, a, b) ∈ p.intervals ∧ localEpoch t = some a ∧ e.birthTS ≤ b

structure Prots (cfg : Config) (mem : Obj → Option Object) (home : Token → Option (Home n))
    (prot : Fin n → Token → Bool) (cov : Fin n → Obj → Bool) (localEpoch : Fin n → Option Nat)
    (endTS : Fin n → Nat) (deferred : Fin n → List Entry) (pass : Fin n → Option (Pass n))
    (guards : Fin n → Nat → Option Guard) : Prop where
  live : ∀ t k, prot t k = true → home k ≠ none ∧ localEpoch t ≠ none ∧ cfg.backend ≠ .hp
  of_inLoc : ∀ t k, Covers cfg localEpoch cov t k.obj → inLoc (home k) = true → prot t k = true
  entry : ∀ t u e a, e ∈ entries deferred pass u → prot t e.token = true →
    localEpoch t = some a → a ≤ e.retireTS ∧ (cfg.backend = .ibr → e.birthTS ≤ endTS t)
  scanned : ∀ t u p e, pass u = some p → e ∈ p.entries → prot t e.token = true →
    (t, 0) ∉ p.toScan → Noted cfg localEpoch p t e
  start : ∀ t u p e a, pass u = some p → p.start = some (t, a) → e ∈ p.entries →
    prot t e.token = true → localEpoch t = some a
  /-- an object stays as long as a section covers it -/
  cov_prot : ∀ t o, cov t o = true → ∃ k, prot t k = true ∧ k.obj = o
  implicit_prot : ∀ t o, prot t (implicit o) = true →
    ∃ k, prot t k = true ∧ k.obj = o ∧ k.type ≠ .dispose
  prot_cov : cfg.backend = .ibr → ∀ t k, prot t k = true → cov t k.obj = true
  cov_end : ∀ t o a ob, cov t o = true → localEpoch t = some a → mem o = some ob →
    a ≤ endTS t ∧ ob.birthTS ≤ endTS t
  birth : cfg.backend = .ibr → ∀ u e ob, e ∈ entries deferred pass u →
    mem e.token.obj = some ob → e.birthTS = ob.birthTS
  guard_cov : cfg.backend = .ibr → ∀ t i g, guards t (i + 1) = some g → cov t g.obj = true

/-- No section keeps the implicit unit of an object whose disposal was ejected. -/
def Disposing (owned : Fin n → Obj → Option Stage) (prot : Fin n → Token → Bool) : Prop :=
  ∀ t o, owned t o = some .disposing → ∀ u, prot u (implicit o) = false

structure Inv (cfg : Config) (L : Kind → Book n) (s : State n) : Prop where
  fault : s.fault = false
  places : Places s.cell s.home
  lists : Lists s.home s.deferred s.pass s.inProgress
  fresh : Fresh s.home s.nextId
  books : ∀ κ, (L κ).Valid (Live s.home κ) Token.obj (guardOf s.guards κ) (debtOf s.debt κ)
  counted : Counted cfg L s.mem s.home
  life : Life s.mem s.home s.owned
  guards : Guards cfg L s.mem s.home s.shared s.reading s.pass s.prot s.owned s.guards
  debts : Debts cfg L s.shared s.pass s.prot s.guards s.debt
  announced : Announced cfg s.slots s.guards
  passes : cfg.backend = .hp → ∀ t p, s.pass t = some p → PassOk p
  epochs : Epochs s.mem s.epoch s.readTS s.localEpoch s.endTS s.late
  prots : Prots cfg s.mem s.home s.prot s.cov s.localEpoch s.endTS s.deferred s.pass s.guards
  shared : Shared cfg s.home s.shared s.nextId
  protShared : ProtShared s.prot s.shared
  disposing : Disposing s.owned s.prot

/-- The invariant, with some books. -/
def Good (cfg : Config) (s : State n) : Prop := ∃ L, Inv cfg L s

/-! ## A thread's part of the state -/

structure Local (n : Nat) where
  hand : Option Token
  desired : Option Token
  localEpoch : Option Nat
  endTS : Nat
  pass : Option (Pass n)
  guards : Nat → Option Guard
  debt : Option Debt
  owned : Obj → Option Stage
  reading : Option (Kind × Nat)
  slots : Nat → Option Obj
  readTS : Nat
  late : Bool
  cov : Obj → Bool

def State.loc (s : State n) (t : Fin n) : Local n where
  hand := s.cell (.hand t)
  desired := s.cell (.desired t)
  localEpoch := s.localEpoch t
  endTS := s.endTS t
  pass := s.pass t
  guards := s.guards t
  debt := s.debt t
  owned := s.owned t
  reading := s.reading t
  slots := s.slots t
  readTS := s.readTS t
  late := s.late t
  cov := s.cov t

end Cdrc.Smr
