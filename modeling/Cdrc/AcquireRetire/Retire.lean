import Mathlib.Data.List.Perm.Basic
import Mathlib.Data.List.Nodup
import Cdrc.Lib.Runs
import Cdrc.CountedObject.LifeCycle

/-! # Re-entrant `retire`

`acquire_retire`, `acquire_retire_ebr` and `acquire_retire_ibr` keep a list of deferred
actions for each thread. `retire` appends to it, and when enough have been retired makes
a pass: the list is moved away, `remove_if` ejects the entries that nothing announced
protects, and the rest is put back. An `eject` can run destructors that retire again, so
`retire` is called from inside the pass that another `retire` has begun.

The model is one thread and the calls it is in, innermost first. What a pass finds
announced is up to the other threads and comes with the step; what an `eject` retires,
and how often, depends on the objects and is left open, so that what is proved holds for
every object graph. -/
namespace Cdrc.AcquireRetire.Retire
open Cdrc.Lib.Runs Cdrc.CountedObject

variable {α : Type}

structure Config where
  numThreads : Nat
  ejectDelay : Nat
  deriving DecidableEq, Repr

/-- `std::max<size_t>(30, eject_delay * num_threads)`, where the product is a `size_t`. -/
def Config.threshold (cfg : Config) : Nat := max 30 (cfg.ejectDelay * cfg.numThreads % 2 ^ 64)

/-- The number of values of `amortized_work` and `eject_work`, which are `unsigned int`s. -/
def uintRange : Nat := 2 ^ 32

theorem threshold_pos (cfg : Config) : 0 < cfg.threshold := by
  rw [Config.threshold]
  omega

/-- An element of `deferred_destructs`; the hazard pointers' entries have no time stamps.
Entries are numbered in the order in which they were retired. -/
structure Entry (α : Type) where
  id : Nat
  obj : α
  type : RetireType
  birthTS : Nat
  retireTS : Nat
  deriving DecidableEq, Repr

/-- What a pass found announced, in the form its predicate looks it up. -/
inductive Announced (α : Type)
  /-- `acquire_retire`: how many entries are still kept; 0 is no entry in the map -/
  | counts (announced : α → RetireType → Nat)
  /-- `acquire_retire_ebr`: `min_epoch`; `none` is `no_epoch` -/
  | minEpoch (e : Option Nat)
  /-- `acquire_retire_ibr`: the announced intervals -/
  | intervals (l : List (Nat × Nat))

/-- What the slots hold when a pass scans them. -/
inductive Scan (α : Type)
  | slots (l : List α)
  | epochs (l : List Nat)
  | intervals (l : List (Nat × Nat))
  deriving DecidableEq, Repr

/-- `scan_slots` with its function: the first announcement protects two actions of each
type, every other one more. -/
def announce [DecidableEq α] (announced : α → RetireType → Nat) (reserved : α) : α → RetireType → Nat :=
  fun p type =>
    if p = reserved then
      if announced p type ≠ 0 then announced p type + 1 else 2
    else announced p type

def Scan.announced [DecidableEq α] : Scan α → Announced α
  | .slots l => .counts (l.foldl announce fun _ _ => 0)
  | .epochs l => .minEpoch l.min?
  | .intervals l => .intervals (l.filter fun (startTS, endTS) => startTS ≤ endTS)

/-- The predicate `f` of the pass: whether the entry is ejected, and the map after. -/
def Announced.ejects [DecidableEq α] (a : Announced α) (x : Entry α) : Bool × Announced α :=
  match a with
  | .counts announced =>
    if announced x.obj x.type = 0 then (true, a)
    else (false, .counts fun p type =>
      if p = x.obj ∧ type = x.type then announced p type - 1 else announced p type)
  | .minEpoch none => (true, a)
  | .minEpoch (some e) => (x.retireTS < e, a)
  | .intervals l =>
    (!l.any fun (startTS, endTS) => !(x.retireTS < startTS || endTS < x.birthTS), a)

/-- A call the thread is in. -/
inductive Frame (α : Type)
  /-- `work_toward_deferred_decrements`, `work_toward_ejects`, before the loop's test -/
  | work
  /-- `remove_if`: what it has not reached, what it has kept, and how many entries had been
  retired when the pass began -/
  | pass (todo kept : List (Entry α)) (announced : Announced α) (start : Nat)
  /-- inside `eject` -/
  | eject (x : Entry α)

structure State (α : Type) where
  deferred : List (Entry α)
  inProgress : Bool
  work : Nat
  stack : List (Frame α)
  /-- everything ever retired -/
  retired : List (Entry α)
  /-- everything ever ejected, with the start of the pass that did it -/
  ejected : List (Entry α × Nat)

def State.initial : State α := ⟨[], false, 0, [], [], []⟩

inductive Label (α : Type)
  /-- `retire(obj, type)`, from user code or from inside an `eject` -/
  | retire (obj : α) (type : RetireType) (birthTS epoch : Nat)
  /-- the innermost call goes on; `scan` is what a pass that begins finds announced -/
  | run (scan : Scan α)
  deriving DecidableEq, Repr

/-- The thread is in user code or in an `eject`, where it can make calls. -/
def mayCall : List (Frame α) → Bool
  | [] => true
  | .eject _ :: _ => true
  | _ => false

def State.retire (s : State α) (obj : α) (type : RetireType) (birthTS epoch : Nat) : State α :=
  let x : Entry α := ⟨s.retired.length, obj, type, birthTS, epoch⟩
  { s with
    deferred := s.deferred ++ [x]
    work := (s.work + 1) % uintRange
    stack := .work :: s.stack
    retired := s.retired ++ [x] }

def run [DecidableEq α] (cfg : Config) (s : State α) (scan : Scan α) :
    List (Frame α) → Option (State α)
  | [] => none
  | .work :: fs =>
    if !s.inProgress && cfg.threshold ≤ s.work then
      if s.deferred.length = 0 then some { s with work := 0, stack := fs }
      else some { s with
        work := 0
        inProgress := true
        deferred := []
        stack := .pass s.deferred [] scan.announced s.retired.length :: .work :: fs }
    else some { s with stack := fs }
  | .pass [] kept _ _ :: fs =>
    some { s with deferred := s.deferred ++ kept, inProgress := false, stack := fs }
  | .pass (x :: todo) kept announced start :: fs =>
    match announced.ejects x with
    | (true, announced) => some { s with
        stack := .eject x :: .pass todo kept announced start :: fs
        ejected := s.ejected ++ [(x, start)] }
    | (false, announced) => some { s with
        stack := .pass todo (kept ++ [x]) announced start :: fs }
  | .eject _ :: fs => some { s with stack := fs }

def next [DecidableEq α] (cfg : Config) (s : State α) : Label α → Option (State α)
  | .retire obj type birthTS epoch =>
    if mayCall s.stack then some (s.retire obj type birthTS epoch) else none
  | .run scan => run cfg s scan s.stack

def machine (α : Type) [DecidableEq α] (cfg : Config) : Machine (State α) (Label α) where
  init s := s = .initial
  next := next cfg

/-- The entries a pass has taken out of the list and neither ejected nor put back. -/
def Frame.pending : Frame α → List (Entry α)
  | .pass todo kept _ _ => todo ++ kept
  | _ => []

def Frame.isPass : Frame α → Bool
  | .pass _ _ _ _ => true
  | _ => false

/-- The thread is inside a pass. -/
def State.InPass (s : State α) : Prop := ∃ f ∈ s.stack, f.isPass = true

/-! ## The invariant -/

structure Inv (s : State α) : Prop where
  ids : s.retired.map Entry.id = List.range s.retired.length
  conserved : s.retired.Perm
    (s.ejected.map Prod.fst ++ (s.deferred ++ s.stack.flatMap Frame.pending))
  /-- a pass only looks at entries that were retired before it began -/
  before : ∀ todo kept announced start, .pass todo kept announced start ∈ s.stack →
    ∀ x ∈ todo, x.id < start
  ejected : ∀ x ∈ s.ejected, x.1.id < x.2
  /-- one pass at a time, and the flag tells -/
  progress : s.stack.countP Frame.isPass = if s.inProgress then 1 else 0

section Steps
variable {cfg : Config} {s s' : State α}

theorem inv_initial : Inv (.initial : State α) where
  ids := rfl
  conserved := List.Perm.nil
  before := by intro _ _ _ _ h; cases h
  ejected := by intro x h; cases h
  progress := rfl

theorem Inv.id_lt (h : Inv s) {x : Entry α} (hx : x ∈ s.retired) : x.id < s.retired.length := by
  have hm : x.id ∈ s.retired.map Entry.id := List.mem_map_of_mem hx
  rw [h.ids] at hm
  exact List.mem_range.mp hm

theorem Inv.nodup (h : Inv s) : s.retired.Nodup := by
  refine List.Nodup.of_map Entry.id ?_
  rw [h.ids]
  exact List.nodup_range

theorem Inv.retire (h : Inv s) (obj : α) (type : RetireType) (birthTS epoch : Nat) :
    Inv (s.retire obj type birthTS epoch) where
  ids := by simp [State.retire, h.ids, List.range_succ]
  conserved := by
    have hp := h.conserved.append_right [⟨s.retired.length, obj, type, birthTS, epoch⟩]
    refine hp.trans ?_
    simp only [State.retire, List.flatMap_cons, Frame.pending, List.nil_append, List.append_assoc]
    refine List.Perm.append_left _ (List.Perm.append_left _ ?_)
    exact List.perm_append_comm
  before := by
    intro todo kept announced start hf
    rcases List.mem_cons.mp hf with hf | hf
    · cases hf
    · exact h.before todo kept announced start hf
  ejected := h.ejected
  progress := (List.countP_cons_of_neg (by simp [Frame.isPass])).trans h.progress

/-- A pass begins: the list is moved away. -/
theorem Inv.beginPass (h : Inv s) {fs : List (Frame α)} (hs : s.stack = .work :: fs)
    (hp : s.inProgress = false) (announced : Announced α) :
    Inv { s with
      work := 0
      inProgress := true
      deferred := []
      stack := .pass s.deferred [] announced s.retired.length :: .work :: fs } where
  ids := h.ids
  conserved := by
    refine h.conserved.trans ?_
    simp only [hs, List.flatMap_cons, Frame.pending, List.nil_append, List.append_nil]
    exact List.Perm.refl _
  before := by
    intro todo kept ann start hf x hx
    rcases List.mem_cons.mp hf with hf | hf
    · cases hf
      refine h.id_lt (h.conserved.mem_iff.mpr ?_)
      exact List.mem_append_right _ (List.mem_append_left _ hx)
    · exact h.before todo kept ann start (hs ▸ hf) x hx
  ejected := h.ejected
  progress := by
    have hc := h.progress
    rw [hs, hp] at hc
    rw [List.countP_cons_of_pos rfl, hc]
    rfl

/-- The innermost call ends, one that has taken no entries. -/
theorem Inv.pop (h : Inv s) {f : Frame α} {fs : List (Frame α)} (hs : s.stack = f :: fs)
    (hf : f.isPass = false) (work : Nat) : Inv { s with work := work, stack := fs } where
  ids := h.ids
  conserved := by
    have hc := h.conserved
    have hp : f.pending = [] := by
      cases f with
      | pass _ _ _ _ => cases hf
      | _ => rfl
    simpa only [hs, List.flatMap_cons, hp, List.nil_append] using hc
  before := by
    intro todo kept ann start hm
    exact h.before todo kept ann start (hs ▸ List.mem_cons_of_mem _ hm)
  ejected := h.ejected
  progress := by
    have := h.progress
    simpa [hs, hf] using this

/-- A pass ends: what it kept goes behind what was retired meanwhile. -/
theorem Inv.endPass (h : Inv s) {kept : List (Entry α)} {announced : Announced α} {start : Nat}
    {fs : List (Frame α)} (hs : s.stack = .pass [] kept announced start :: fs) :
    Inv { s with deferred := s.deferred ++ kept, inProgress := false, stack := fs } where
  ids := h.ids
  conserved := by
    have hc := h.conserved
    simpa only [hs, List.flatMap_cons, Frame.pending, List.nil_append, List.append_assoc] using hc
  before := by
    intro todo kept ann start hm
    exact h.before todo kept ann start (hs ▸ List.mem_cons_of_mem _ hm)
  ejected := h.ejected
  progress := by
    have := h.progress
    rw [hs, List.countP_cons_of_pos rfl] at this
    split at this
    · simpa using this
    · cases this

theorem Inv.eject (h : Inv s) {x : Entry α} {todo kept : List (Entry α)}
    {announced announced' : Announced α} {start : Nat} {fs : List (Frame α)}
    (hs : s.stack = .pass (x :: todo) kept announced start :: fs) :
    Inv { s with
      stack := .eject x :: .pass todo kept announced' start :: fs
      ejected := s.ejected ++ [(x, start)] } where
  ids := h.ids
  conserved := by
    refine h.conserved.trans ?_
    simp only [hs, List.flatMap_cons, Frame.pending, List.nil_append, List.map_append,
      List.map_cons, List.map_nil, List.append_assoc, List.cons_append]
    exact List.Perm.append_left _ List.perm_middle
  before := by
    intro todo' kept' ann start' hm y hy
    simp only [List.mem_cons, reduceCtorEq, false_or] at hm
    rcases hm with hm | hm
    · cases hm
      exact h.before (x :: todo) kept announced start (hs ▸ List.mem_cons_self) y
        (List.mem_cons_of_mem _ hy)
    · exact h.before todo' kept' ann start' (hs ▸ List.mem_cons_of_mem _ hm) y hy
  ejected := by
    intro y hy
    rcases List.mem_append.mp hy with hy | hy
    · exact h.ejected y hy
    · rw [List.mem_singleton.mp hy]
      exact h.before (x :: todo) kept announced start (hs ▸ List.mem_cons_self) x
        List.mem_cons_self
  progress := by
    have hc := h.progress
    rw [hs, List.countP_cons_of_pos rfl] at hc
    rw [List.countP_cons_of_neg (by simp [Frame.isPass]), List.countP_cons_of_pos rfl]
    exact hc

theorem Inv.keep (h : Inv s) {x : Entry α} {todo kept : List (Entry α)}
    {announced announced' : Announced α} {start : Nat} {fs : List (Frame α)}
    (hs : s.stack = .pass (x :: todo) kept announced start :: fs) :
    Inv { s with stack := .pass todo (kept ++ [x]) announced' start :: fs } where
  ids := h.ids
  conserved := by
    refine h.conserved.trans (List.Perm.append_left _ (List.Perm.append_left _ ?_))
    simp only [hs, List.flatMap_cons, Frame.pending]
    refine List.Perm.append_right _ ?_
    rw [← List.append_assoc]
    exact (List.perm_append_singleton x (todo ++ kept)).symm
  before := by
    intro todo' kept' ann start' hm y hy
    rcases List.mem_cons.mp hm with hm | hm
    · cases hm
      exact h.before (x :: todo) kept announced start (hs ▸ List.mem_cons_self) y
        (List.mem_cons_of_mem _ hy)
    · exact h.before todo' kept' ann start' (hs ▸ List.mem_cons_of_mem _ hm) y hy
  ejected := h.ejected
  progress := by
    have hc := h.progress
    rw [hs, List.countP_cons_of_pos rfl] at hc
    rw [List.countP_cons_of_pos rfl]
    exact hc

variable [DecidableEq α]

theorem Inv.run (h : Inv s) {scan : Scan α} (hn : run cfg s scan s.stack = some s') : Inv s' := by
  unfold Retire.run at hn
  split at hn
  · cases hn
  · rename_i fs hs
    split at hn
    · rename_i hc
      simp only [Bool.and_eq_true, Bool.not_eq_true', decide_eq_true_eq] at hc
      split at hn
      · cases hn
        exact h.pop hs rfl 0
      · cases hn
        exact h.beginPass hs hc.1 _
    · cases hn
      exact h.pop hs rfl s.work
  · rename_i hs
    cases hn
    exact h.endPass hs
  · rename_i hs
    split at hn
    · cases hn
      exact h.eject hs
    · cases hn
      exact h.keep hs
  · rename_i hs
    cases hn
    exact h.pop hs rfl s.work

theorem reach_inv (h : (machine α cfg).Reach s) : Inv s := by
  refine h.invariant (I := Inv) ?_ ?_
  · rintro s rfl
    exact inv_initial
  · intro s a s' hi hn
    cases a with
    | retire obj type birthTS epoch =>
      simp only [machine, next] at hn
      split at hn
      · cases hn
        exact hi.retire obj type birthTS epoch
      · cases hn
    | run scan => exact hi.run hn

/-- The flag tells whether the thread is inside a pass. -/
theorem inPass_iff (h : (machine α cfg).Reach s) : s.InPass ↔ s.inProgress = true := by
  have hp := (reach_inv h).progress
  rw [State.InPass, ← List.countP_pos_iff, hp]
  cases s.inProgress <;> simp

/-- Nothing is lost or duplicated: outside a pass, what was retired is what was ejected
and what is in the list. Nothing is ejected twice, and what a pass ejects was retired
before it began. -/
theorem retire_conserves (cfg : Config) {s : State α} (h : (machine α cfg).Reach s) :
    (¬ s.InPass → s.retired.Perm (s.ejected.map Prod.fst ++ s.deferred)) ∧
      (s.ejected.map Prod.fst).Nodup ∧ ∀ x ∈ s.ejected, x.1.id < x.2 := by
  have hi := reach_inv h
  refine ⟨fun hp => ?_, ?_, hi.ejected⟩
  · have hnone : s.stack.flatMap Frame.pending = [] := by
      rw [List.flatMap_eq_nil_iff]
      intro f hf
      cases f with
      | pass todo kept announced start => exact absurd ⟨_, hf, rfl⟩ hp
      | work => rfl
      | eject x => rfl
    simpa only [hnone, List.append_nil] using hi.conserved
  · have hn := (hi.conserved.nodup_iff).mp hi.nodup
    exact (List.nodup_append.mp hn).1

end Steps

/-! ## A pass in which an eject retires again -/

/-- Thirty retires; the thirtieth begins a pass that finds object `0` announced once. The
eject of the second entry retires object `7`. -/
def nested : List (Label Nat) :=
  (List.range 30).flatMap (fun k => [.retire k .decrementStrongCount 0 0, .run (.slots [0])]) ++
    [.run (.slots []), .run (.slots []), .retire 7 .dispose 0 0, .run (.slots [])] ++
    List.replicate 59 (.run (.slots []))

theorem retire_conserves_nested : ∃ s, (machine Nat ⟨1, 2⟩).Reach s ∧ ¬ s.InPass ∧
    s.retired.length = 31 ∧ s.deferred.length = 2 ∧
    s.retired.Perm (s.ejected.map Prod.fst ++ s.deferred) := by
  have he : ((machine Nat ⟨1, 2⟩).exec nested .initial).map
      (fun s => (s.inProgress, s.retired.length, s.deferred.length)) = some (false, 31, 2) := by
    decide +kernel
  obtain ⟨s, hs, hv⟩ := Option.map_eq_some_iff.mp he
  simp only [Prod.mk.injEq] at hv
  obtain ⟨hp, hr, hd⟩ := hv
  have h := (Machine.Reach.init (M := machine Nat ⟨1, 2⟩) rfl).exec hs
  have hn : ¬ s.InPass := by rw [inPass_iff h, hp]; simp
  exact ⟨s, h, hn, hr, hd, (retire_conserves ⟨1, 2⟩ h).1 hn⟩

end Cdrc.AcquireRetire.Retire
