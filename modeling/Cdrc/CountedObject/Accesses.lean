import Cdrc.CountedObject.LifeCycle

/-! # A counted object, one atomic access at a time

The object of `LifeCycle` again, now with its two counters as words and every call on
a counter as the accesses it makes. Between two accesses of one `decrement` any other
operation may run, so a decrement that has reached zero can find the object revived,
disposed of and deleted by others before it makes its second access. `touched` records
that an access was made to `ref_cnt` or `weak_cnt` of an object already passed to
`delete_object`.

An operation starts with its first access: before it, it has done nothing another
thread could see. A handle must stay alive while `use_count` reads through it; the
other readers make a single access. -/
namespace Cdrc.CountedObject.Accesses
open Cdrc.Lib.Runs Cdrc.StickyCounter
open Cdrc.CountedObject.LifeCycle (Route)

/-- `utils::StickyCounter<uint32_t>`. -/
abbrev Cnt := Word 30

inductive Handle
  | rc
  | weak
  deriving DecidableEq, Repr

/-- An operation in flight, with the point reached inside the counter's call it makes. -/
inductive Pc
  /-- `release_refs`, in `ref_cnt.decrement(1)` -/
  | releaseRefs (c : StickyCounter.Pc 30)
  /-- `release_refs`, in `weak_cnt.load()` -/
  | loadWeak (c : StickyCounter.Pc 30)
  /-- before `retire(ptr, dispose)` -/
  | retire
  /-- before `~T` -/
  | dispose (r : Route)
  /-- `release_weak_refs(1)`, of a `weak_ptr` or of the strong units together -/
  | releaseWeak (c : StickyCounter.Pc 30)
  /-- before `delete_object(ptr)` -/
  | destroy (r : Route)
  /-- `use_count` or `expired` through a handle, in `ref_cnt.load()` -/
  | useCount (h : Handle) (c : StickyCounter.Pc 30)
  deriving DecidableEq, Repr

structure State where
  refCnt : Cnt
  weakCnt : Cnt
  rcs : Nat
  weaks : Nat
  retired : Nat
  running : List Pc
  deleted : Bool
  touched : Bool
  deriving DecidableEq, Repr

def State.created : State := ⟨construct 1, construct 1, 1, 0, 0, [], false, false⟩

inductive Label
  | copyRc
  | dropRc
  | weakOfRc
  | copyWeak
  | dropWeak
  | lock
  | useCount (h : Handle)
  | eject
  | run (k : Nat)
  deriving DecidableEq, Repr

/-- An access to a counter of the object is about to be made. -/
def State.touch (s : State) : State := { s with touched := s.touched || s.deleted }

def State.flight (s : State) (f : Pc → Nat) : Nat := (s.running.map f).sum

/-- `use_count` is reading through a handle of this kind. -/
def reads (h : Handle) : Pc → Nat
  | .useCount h' _ => if h' = h then 1 else 0
  | _ => 0

/-! What an operation does when a call on a counter has made an access: it stays inside
the call, or the call returned. -/

def inReleaseRefs : StickyCounter.Pc 30 → Option Pc
  | .done (.bool true) => some (.loadWeak .load)
  | .done _ => none
  | c => some (.releaseRefs c)

def inLoadWeak : StickyCounter.Pc 30 → Option Pc
  | .done r => some (if r = .val 1 then .dispose .destroy else .retire)
  | c => some (.loadWeak c)

def inReleaseWeak : StickyCounter.Pc 30 → Option Pc
  | .done (.bool true) => some (.destroy .delay)
  | .done _ => none
  | c => some (.releaseWeak c)

def inUseCount (h : Handle) : StickyCounter.Pc 30 → Option Pc
  | .done _ => none
  | c => some (.useCount h c)

/-- `release_refs` returns `EjectAction::destroy` to its caller; a dispose releases the
weak unit. -/
def afterDispose : Route → Pc
  | .destroy => .destroy .destroy
  | .delay => .releaseWeak (.decrement 1)

/-- An operation that starts and does not end with its first access is in flight. -/
def State.start (s : State) (p : Option Pc) : State := { s with running := s.running ++ p.toList }

/-- The `k`-th operation goes on at `p`, or ends. -/
def State.goto (s : State) (k : Nat) : Option Pc → State
  | some p => { s with running := s.running.set k p }
  | none => { s with running := s.running.eraseIdx k }

/-- An access to `ref_cnt` from inside one of its calls. -/
def State.accessRef (s : State) (c : StickyCounter.Pc 30) : State :=
  { s.touch with refCnt := (access s.refCnt c).1 }

def State.accessWeak (s : State) (c : StickyCounter.Pc 30) : State :=
  { s.touch with weakCnt := (access s.weakCnt c).1 }

def State.run (s : State) (k : Nat) : Pc → State
  | .releaseRefs c => (s.accessRef c).goto k (inReleaseRefs (access s.refCnt c).2)
  | .loadWeak c => (s.accessWeak c).goto k (inLoadWeak (access s.weakCnt c).2)
  | .retire => { s.goto k none with retired := s.retired + 1 }
  | .dispose r => s.goto k (some (afterDispose r))
  | .releaseWeak c => (s.accessWeak c).goto k (inReleaseWeak (access s.weakCnt c).2)
  | .destroy _ => { s.goto k none with deleted := true }
  | .useCount h c => (s.accessRef c).goto k (inUseCount h (access s.refCnt c).2)

/-- A handle that nothing reads through may be dropped. -/
def Droppable (s : State) : Handle → Prop
  | .rc => 0 < s.rcs ∧ (1 < s.rcs ∨ s.flight (reads .rc) = 0)
  | .weak => 0 < s.weaks ∧ (1 < s.weaks ∨ s.flight (reads .weak) = 0)

instance (s : State) : (h : Handle) → Decidable (Droppable s h)
  | .rc => inferInstanceAs (Decidable (_ ∧ _))
  | .weak => inferInstanceAs (Decidable (_ ∧ _))

def State.handles (s : State) : Handle → Nat
  | .rc => s.rcs
  | .weak => s.weaks

def next (s : State) : Label → Option State
  | .copyRc => if 0 < s.rcs then some { s.accessRef (.increment 1) with rcs := s.rcs + 1 } else none
  | .dropRc =>
    if Droppable s .rc then
      some { (s.accessRef (.decrement 1)).start (inReleaseRefs (access s.refCnt (.decrement 1)).2) with
        rcs := s.rcs - 1 }
    else none
  | .weakOfRc =>
    if 0 < s.rcs then some { s.accessWeak (.increment 1) with weaks := s.weaks + 1 } else none
  | .copyWeak =>
    if 0 < s.weaks then some { s.accessWeak (.increment 1) with weaks := s.weaks + 1 } else none
  | .dropWeak =>
    if Droppable s .weak then
      some { (s.accessWeak (.decrement 1)).start (inReleaseWeak (access s.weakCnt (.decrement 1)).2) with
        weaks := s.weaks - 1 }
    else none
  | .lock =>
    if 0 < s.weaks then
      some { s.accessRef (.increment 1) with
        rcs := if (access s.refCnt (.increment 1)).2 = .done (.bool true) then s.rcs + 1 else s.rcs }
    else none
  | .useCount h =>
    if 0 < s.handles h then
      some ((s.accessRef .load).start (inUseCount h (access s.refCnt .load).2))
    else none
  | .eject =>
    if 0 < s.retired then
      some { s.start (some (.dispose .delay)) with retired := s.retired - 1 }
    else none
  | .run k => s.running[k]?.map (s.run k)

def machine : Machine State Label where
  init s := s = .created
  next := next

/-! ## The window

A thread that drops the last `rc_ptr` is parked between its `fetch_sub` and its
compare-exchange; a `lock` brings the count back to one; the thread that locked drops
its `weak_ptr` and then the `rc_ptr`, takes the zeroing over, reads `weak_cnt` as one
and deletes the object. -/

def revived : List Label :=
  [.weakOfRc, .dropRc, .lock, .dropWeak, .dropRc, .run 1, .run 1, .run 1, .run 1, .run 0]

theorem touch_after_delete : ∃ s, machine.Reach s ∧ s.deleted = true ∧ s.touched = true := by
  have he : ∃ s, machine.exec revived .created = some s ∧ s.deleted = true ∧ s.touched = true := by
    decide
  obtain ⟨s, hs, hd⟩ := he
  exact ⟨s, (Machine.Reach.init (M := machine) rfl).exec hs, hd⟩

/-! ## Runs without a revival

`ok` excludes the `lock` of the window above, one made while `ref_cnt` is zero and
its zeroing not finished, and an increment with the counter's value at its maximum. -/

/-- The value bits leave room for one more unit. -/
def Room (x : Cnt) : Prop := x.toNat % 2 ^ 30 < maxValue 30

instance (x : Cnt) : Decidable (Room x) := inferInstanceAs (Decidable (_ < _))

def ok (s : State) : Label → Prop
  | .lock => s.refCnt ≠ 0 ∧ Room s.refCnt
  | .copyRc => Room s.refCnt
  | .weakOfRc | .copyWeak => Room s.weakCnt
  | _ => True

instance (s : State) : (a : Label) → Decidable (ok s a)
  | .lock => inferInstanceAs (Decidable (_ ∧ _))
  | .copyRc => inferInstanceAs (Decidable (Room _))
  | .weakOfRc | .copyWeak => inferInstanceAs (Decidable (Room _))
  | .dropRc | .dropWeak | .useCount _ | .eject | .run _ => inferInstanceAs (Decidable True)

/-- The operation carries the object's disposal, and with it the weak unit that the
strong units hold together. -/
def owes : Pc → Nat
  | .releaseRefs _ | .loadWeak _ | .retire | .dispose _ | .destroy .destroy => 1
  | .releaseWeak (.decrement _) => 1
  | _ => 0

/-- The operation took `ref_cnt` to zero. -/
def zeroing : Pc → Nat
  | .releaseRefs _ => 1
  | _ => 0

/-- The operation read `weak_cnt` as one. -/
def immediate : Pc → Nat
  | .dispose .destroy | .destroy .destroy => 1
  | _ => 0

/-- The operation took `weak_cnt` to zero. -/
def zeroingWeak : Pc → Nat
  | .releaseWeak (.decrement _) => 0
  | .releaseWeak _ => 1
  | _ => 0

def releasedLast : Pc → Nat
  | .destroy .delay => 1
  | _ => 0

/-- What carries the object's disposal: the strong units, an operation or a retired
dispose. -/
def State.duty (s : State) : Nat := min 1 s.rcs + s.flight owes + s.retired

/-- Where an operation can stand, given `ref_cnt`. -/
def At (x : Cnt) : Pc → Prop
  | .releaseRefs c => c = .decrementCas 1 ∨ c = .decrementExchange 1 ∧ 3 * 2 ^ 30 ≤ x.toNat
  | .loadWeak c => c = .load
  | .releaseWeak c => c = .decrement 1 ∨ c = .decrementCas 1
  | .useCount _ c => c = .loadCas
  | _ => True

/-- `ref_cnt` counts the `rc_ptr`s; once they are gone it is zero with its zeroing
under way, or it carries the zero flag. -/
structure Strong (s : State) : Prop where
  live : 0 < s.rcs → s.refCnt.toNat = s.rcs ∧ s.rcs < 2 ^ 30
  gone : s.rcs = 0 → s.refCnt.toNat = 0 ∧ s.flight zeroing = 1 ∨
    2 * 2 ^ 30 ≤ s.refCnt.toNat ∧ (s.flight zeroing = 0 ∨ 3 * 2 ^ 30 ≤ s.refCnt.toNat)

/-- `weak_cnt` counts the `weak_ptr`s and the unit of the strong ones; once they are
gone one operation finishes the zeroing and deletes. -/
def Weak (s : State) : Prop :=
  (0 < s.weakCnt.toNat ∧ s.weakCnt.toNat < 2 ^ 30 ∧ s.weakCnt.toNat = s.weaks + s.duty ∧
    s.flight zeroingWeak + s.flight releasedLast = 0) ∨
  (s.weaks + s.duty = 0 ∧ s.flight zeroingWeak + s.flight releasedLast = 1 ∧
    (s.flight zeroingWeak = 0 ∨ s.weakCnt.toNat = 0))

structure Alive (s : State) : Prop where
  duty : s.duty ≤ 1
  strong : Strong s
  weak : Weak s
  points : ∀ p ∈ s.running, At s.refCnt p
  alone : s.flight immediate = 0 ∨ s.weaks = 0
  readRc : s.flight (reads .rc) = 0
  readWeak : s.flight (reads .weak) = 0 ∨ 0 < s.weaks

/-- No handle is left and nothing is in flight. -/
def Dead (s : State) : Prop := s.rcs = 0 ∧ s.weaks = 0 ∧ s.retired = 0 ∧ s.running = []

def Inv (s : State) : Prop := s.touched = false ∧ (s.deleted = false ∧ Alive s ∨ Dead s)

/-! ### Counting the operations in flight -/

section Flight
variable {s : State} {k : Nat} {p : Pc}

theorem flight_start (o : Option Pc) (f : Pc → Nat) :
    (s.start o).flight f = s.flight f + (o.map f).getD 0 := by
  cases o <;> simp [State.start, State.flight]

theorem flight_goto (hk : s.running[k]? = some p) (o : Option Pc) (f : Pc → Nat) :
    (s.goto k o).flight f + f p = s.flight f + (o.map f).getD 0 := by
  cases o with
  | none => exact sum_map_eraseIdx f s.running k p hk
  | some q => exact sum_map_set f s.running k q p hk

theorem le_flight (hk : s.running[k]? = some p) (f : Pc → Nat) : f p ≤ s.flight f :=
  le_sum_map_of_getElem? f hk

theorem zeroing_add_immediate_le (s : State) :
    s.flight zeroing + s.flight immediate ≤ s.flight owes := by
  unfold State.flight
  rw [← List.sum_map_add]
  refine List.sum_le_sum fun p _ => ?_
  rcases p with c | c | _ | ⟨⟨⟩⟩ | c | ⟨⟨⟩⟩ | ⟨h, c⟩ <;> simp [zeroing, immediate, owes]

/-- Every operation in flight is counted once. -/
theorem length_running (s : State) : s.running.length =
    s.flight owes + s.flight zeroingWeak + s.flight releasedLast +
      s.flight (reads .rc) + s.flight (reads .weak) := by
  unfold State.flight
  have hone : ∀ p, owes p + zeroingWeak p + releasedLast p + reads .rc p + reads .weak p = 1 := by
    rintro (c | c | _ | ⟨⟨⟩⟩ | c | ⟨⟨⟩⟩ | ⟨⟨⟩, c⟩) <;>
      first
      | rfl
      | cases c <;> rfl
  simp only [← List.sum_map_add, hone]
  simp

theorem At.of_zeroing {x y : Cnt} (h : At x p) (hy : zeroing p = 0 ∨ 3 * 2 ^ 30 ≤ y.toNat) :
    At y p := by
  cases p with
  | releaseRefs c =>
    rcases h with h | ⟨h, _⟩
    · exact Or.inl h
    · rcases hy with hy | hy
      · simp [zeroing] at hy
      · exact Or.inr ⟨h, hy⟩
  | _ => exact h

/-- `ref_cnt` may change when no operation is zeroing it, or keeps its two flags. -/
theorem points_of {x y : Cnt} (h : ∀ p ∈ s.running, At x p)
    (hy : s.flight zeroing = 0 ∨ 3 * 2 ^ 30 ≤ y.toNat) : ∀ p ∈ s.running, At y p := by
  intro p hp
  refine (h p hp).of_zeroing (hy.imp_left fun h0 => ?_)
  obtain ⟨k, hk⟩ := List.mem_iff_getElem?.mp hp
  have := le_flight hk zeroing
  omega

theorem points_goto {x : Cnt} {o : Option Pc} (h : ∀ p ∈ s.running, At x p)
    (ho : ∀ q, o = some q → At x q) : ∀ p ∈ (s.goto k o).running, At x p := by
  intro p hp
  cases o with
  | none => exact h p (List.mem_of_mem_eraseIdx hp)
  | some q =>
    rcases List.mem_or_eq_of_mem_set hp with hp | rfl
    · exact h p hp
    · exact ho p rfl

theorem points_start {x : Cnt} {o : Option Pc} (h : ∀ p ∈ s.running, At x p)
    (ho : ∀ q, o = some q → At x q) : ∀ p ∈ (s.start o).running, At x p := by
  intro p hp
  rcases List.mem_append.mp hp with hp | hp
  · exact h p hp
  · exact ho p (Option.mem_toList.mp hp)

theorem touch_eq (hd : s.deleted = false) : s.touch = s := by
  obtain ⟨_, _, _, _, _, _, deleted, _⟩ := s
  cases (show deleted = false from hd)
  simp [State.touch]

theorem accessRef_eq (hd : s.deleted = false) (c : StickyCounter.Pc 30) :
    s.accessRef c = { s with refCnt := (access s.refCnt c).1 } := by
  simp [State.accessRef, touch_eq hd]

theorem accessWeak_eq (hd : s.deleted = false) (c : StickyCounter.Pc 30) :
    s.accessWeak c = { s with weakCnt := (access s.weakCnt c).1 } := by
  simp [State.accessWeak, touch_eq hd]

end Flight

/-! ### Each step keeps the object alive, or deletes it with nothing left -/

section Steps
variable {s : State} {k : Nat}

theorem Room.add_one {x : Cnt} (h : Room x) : (x + 1).toNat = x.toNat + 1 ∧
    (x.toNat < 2 ^ 30 → x.toNat + 1 < 2 ^ 30) := by
  have hx := x.toNat_lt
  unfold Room at h
  rw [maxValue_eq] at h
  exact ⟨toNat_add_one (by omega), by omega⟩

theorem Alive.copyRc (a : Alive s) (h : 0 < s.rcs) (hr : Room s.refCnt) :
    Alive { s with refCnt := (access s.refCnt (.increment 1)).1, rcs := s.rcs + 1 } := by
  obtain ⟨duty, strong, weak, points, alone, readRc, readWeak⟩ := a
  obtain ⟨hv, hlt⟩ := strong.live h
  obtain ⟨hadd, hroom⟩ := hr.add_one
  have hle := zeroing_add_immediate_le s
  have hduty : State.duty { s with
      refCnt := (access s.refCnt (.increment 1)).1, rcs := s.rcs + 1 } = s.duty := by
    show min 1 (s.rcs + 1) + s.flight owes + s.retired = min 1 s.rcs + s.flight owes + s.retired
    omega
  refine ⟨?_, ⟨?_, ?_⟩, ?_, ?_, alone, readRc, readWeak⟩
  · rw [hduty]; exact duty
  · intro _
    show (s.refCnt + 1).toNat = s.rcs + 1 ∧ s.rcs + 1 < 2 ^ 30
    omega
  · intro hz
    exact absurd hz (by simp)
  · unfold Weak
    rw [hduty]
    exact weak
  · refine points_of points (Or.inl ?_)
    show s.flight zeroing = 0
    unfold State.duty at duty
    omega

theorem Alive.dropRc (a : Alive s) (h : 0 < s.rcs) :
    Alive { ({ s with refCnt := (access s.refCnt (.decrement 1)).1 } : State).start
      (inReleaseRefs (access s.refCnt (.decrement 1)).2) with rcs := s.rcs - 1 } := by
  obtain ⟨duty, strong, weak, points, alone, readRc, readWeak⟩ := a
  obtain ⟨hv, hlt⟩ := strong.live h
  have hle := zeroing_add_immediate_le s
  have hsub := toNat_sub_one (x := s.refCnt) (by omega)
  have hz : s.flight zeroing = 0 := by unfold State.duty at duty; omega
  by_cases h1 : s.refCnt = 1
  · -- the last `rc_ptr`: the operation takes the disposal over
    have hacc : access s.refCnt (.decrement 1) = (s.refCnt - 1, .decrementCas 1) := by
      simp [access, h1]
    rw [eq_one_iff_toNat] at h1
    rw [hacc]
    simp only [inReleaseRefs]
    have hf : ∀ f, State.flight { ({ s with refCnt := s.refCnt - 1 } : State).start
        (some (.releaseRefs (.decrementCas 1))) with rcs := s.rcs - 1 } f =
          s.flight f + f (.releaseRefs (.decrementCas 1)) := flight_start _
    have hduty : State.duty { ({ s with refCnt := s.refCnt - 1 } : State).start
        (some (.releaseRefs (.decrementCas 1))) with rcs := s.rcs - 1 } = s.duty := by
      unfold State.duty
      rw [hf]
      simp only [State.start, owes]
      omega
    refine ⟨?_, ⟨?_, ?_⟩, ?_, ?_, ?_, ?_, ?_⟩
    · rw [hduty]; exact duty
    · intro hp
      have : 0 < s.rcs - 1 := hp
      omega
    · intro _
      rw [hf]
      refine Or.inl ⟨?_, ?_⟩
      · show (s.refCnt - 1).toNat = 0
        omega
      · simp only [zeroing]; omega
    · unfold Weak
      rw [hduty, hf, hf]
      exact weak
    · refine points_start (points_of points (Or.inl hz)) ?_
      intro q hq
      cases hq
      exact Or.inl rfl
    · rw [hf]; exact alone
    · rw [hf]; exact readRc
    · rw [hf]; exact readWeak
  · have hacc : access s.refCnt (.decrement 1) = (s.refCnt - 1, .done (.bool false)) := by
      simp only [access, if_neg h1]
    rw [eq_one_iff_toNat] at h1
    rw [hacc]
    have hduty : State.duty { s with refCnt := s.refCnt - 1, rcs := s.rcs - 1 } = s.duty := by
      show min 1 (s.rcs - 1) + s.flight owes + s.retired = min 1 s.rcs + s.flight owes + s.retired
      omega
    simp only [inReleaseRefs, State.start, Option.toList_none, List.append_nil]
    refine ⟨?_, ⟨?_, ?_⟩, ?_, ?_, alone, readRc, readWeak⟩
    · rw [hduty]; exact duty
    · intro _
      show (s.refCnt - 1).toNat = s.rcs - 1 ∧ s.rcs - 1 < 2 ^ 30
      omega
    · intro h0
      have : s.rcs - 1 = 0 := h0
      omega
    · unfold Weak
      rw [hduty]
      exact weak
    · exact points_of points (Or.inl hz)

theorem Alive.addWeak (a : Alive s) (h : 0 < s.rcs ∨ 0 < s.weaks) (hr : Room s.weakCnt) :
    Alive { s with weakCnt := (access s.weakCnt (.increment 1)).1, weaks := s.weaks + 1 } := by
  obtain ⟨duty, strong, weak, points, alone, readRc, readWeak⟩ := a
  obtain ⟨hadd, hroom⟩ := hr.add_one
  have hle := zeroing_add_immediate_le s
  refine ⟨duty, ⟨strong.live, strong.gone⟩, ?_, points, ?_, readRc, ?_⟩
  · rcases weak with ⟨hp, hlt, hw, hz⟩ | ⟨h0, _, _⟩
    · refine Or.inl ⟨?_, ?_, ?_, hz⟩
      · show 0 < (s.weakCnt + 1).toNat
        omega
      · show (s.weakCnt + 1).toNat < 2 ^ 30
        omega
      · show (s.weakCnt + 1).toNat = s.weaks + 1 + s.duty
        omega
    · unfold State.duty at h0
      omega
  · rcases alone with alone | alone
    · exact Or.inl alone
    · -- with a strong unit left no operation carries the disposal
      unfold State.duty at duty
      exact Or.inl (show s.flight immediate = 0 by omega)
  · exact Or.inr (Nat.succ_pos _)

theorem Alive.dropWeak (a : Alive s) (h : Droppable s .weak) :
    Alive { ({ s with weakCnt := (access s.weakCnt (.decrement 1)).1 } : State).start
      (inReleaseWeak (access s.weakCnt (.decrement 1)).2) with weaks := s.weaks - 1 } := by
  obtain ⟨duty, strong, weak, points, alone, readRc, readWeak⟩ := a
  obtain ⟨hpos, hpin⟩ := h
  obtain ⟨hp, hlt, hw, hz⟩ : 0 < s.weakCnt.toNat ∧ s.weakCnt.toNat < 2 ^ 30 ∧
      s.weakCnt.toNat = s.weaks + s.duty ∧ s.flight zeroingWeak + s.flight releasedLast = 0 := by
    rcases weak with weak | weak
    · exact weak
    · omega
  have hsub := toNat_sub_one hp
  by_cases h1 : s.weakCnt = 1
  · have hacc : access s.weakCnt (.decrement 1) = (s.weakCnt - 1, .decrementCas 1) := by
      simp [access, h1]
    rw [eq_one_iff_toNat] at h1
    rw [hacc]
    simp only [inReleaseWeak]
    have hf : ∀ f, State.flight { ({ s with weakCnt := s.weakCnt - 1 } : State).start
        (some (.releaseWeak (.decrementCas 1))) with weaks := s.weaks - 1 } f =
          s.flight f + f (.releaseWeak (.decrementCas 1)) := flight_start _
    have hduty : State.duty { ({ s with weakCnt := s.weakCnt - 1 } : State).start
        (some (.releaseWeak (.decrementCas 1))) with weaks := s.weaks - 1 } = s.duty := by
      unfold State.duty
      rw [hf]
      rfl
    refine ⟨?_, ⟨strong.live, ?_⟩, ?_, ?_, ?_, ?_, ?_⟩
    · rw [hduty]; exact duty
    · rw [hf]; exact strong.gone
    · unfold Weak
      rw [hduty, hf, hf]
      refine Or.inr ⟨?_, ?_, Or.inr ?_⟩
      · show s.weaks - 1 + s.duty = 0
        omega
      · simp only [zeroingWeak, releasedLast]; omega
      · show (s.weakCnt - 1).toNat = 0
        omega
    · refine points_start points ?_
      intro q hq
      cases hq
      exact Or.inr rfl
    · rw [hf]
      exact alone.imp_right fun h0 => show s.weaks - 1 = 0 by omega
    · rw [hf]; exact readRc
    · rw [hf]
      refine Or.inl ?_
      simp only [reads]
      omega
  · have hacc : access s.weakCnt (.decrement 1) = (s.weakCnt - 1, .done (.bool false)) := by
      simp only [access, if_neg h1]
    rw [eq_one_iff_toNat] at h1
    rw [hacc]
    simp only [inReleaseWeak, State.start, Option.toList_none, List.append_nil]
    refine ⟨duty, ⟨strong.live, strong.gone⟩, ?_, points, ?_, readRc, ?_⟩
    · refine Or.inl ⟨?_, ?_, ?_, hz⟩
      · show 0 < (s.weakCnt - 1).toNat
        omega
      · show (s.weakCnt - 1).toNat < 2 ^ 30
        omega
      · show (s.weakCnt - 1).toNat = s.weaks - 1 + s.duty
        omega
    · exact alone.imp_right fun h0 => show s.weaks - 1 = 0 by omega
    · rcases hpin with hpin | hpin
      · exact Or.inr (show 0 < s.weaks - 1 by omega)
      · exact Or.inl hpin

/-- A `lock` that does not meet the counter at zero takes a unit of a live object, or
fails on the zero flag. -/
theorem Alive.lock (a : Alive s) (h0 : s.refCnt ≠ 0) (hr : Room s.refCnt) :
    Alive { s with
      refCnt := (access s.refCnt (.increment 1)).1
      rcs := if (access s.refCnt (.increment 1)).2 = .done (.bool true) then s.rcs + 1 else s.rcs } := by
  by_cases h : 0 < s.rcs
  · have hlow := (a.strong.live h).2
    rw [← (a.strong.live h).1] at hlow
    rw [if_pos (by rw [access_increment_low (by omega)])]
    exact a.copyRc h hr
  · obtain ⟨hadd, -⟩ := hr.add_one
    have hgone := a.strong.gone (by omega)
    rw [ne_eq, eq_zero_iff_toNat] at h0
    rw [access_increment_high (by omega)]
    rw [if_neg (by simp)]
    obtain ⟨duty, strong, weak, points, alone, readRc, readWeak⟩ := a
    have hflag : s.flight zeroing = 0 ∨ 3 * 2 ^ 30 ≤ s.refCnt.toNat := by omega
    refine ⟨duty, ⟨?_, ?_⟩, weak, ?_, alone, readRc, readWeak⟩
    · intro hp
      exact absurd hp h
    · intro _
      refine Or.inr ⟨?_, ?_⟩
      · show 2 * 2 ^ 30 ≤ (s.refCnt + 1).toNat
        omega
      · exact hflag.imp_right fun hf => show 3 * 2 ^ 30 ≤ (s.refCnt + 1).toNat by omega
    · exact points_of points (hflag.imp_right fun hf => show 3 * 2 ^ 30 ≤ (s.refCnt + 1).toNat by omega)

/-- A load that reads zero goes on to its compare-exchange; only a `weak_ptr` can meet
that value. -/
theorem Alive.useCount {h : Handle} (a : Alive s) (hh : 0 < s.handles h) :
    Alive (({ s with refCnt := (access s.refCnt .load).1 } : State).start
      (inUseCount h (access s.refCnt .load).2)) := by
  by_cases h0 : s.refCnt.toNat = 0
  · have hrc : s.rcs = 0 := by
      by_contra hc
      have := (a.strong.live (by omega)).1
      omega
    have hw : h = .weak ∧ 0 < s.weaks := by
      cases h with
      | rc => exact absurd hh (by simp [State.handles, hrc])
      | weak => exact ⟨rfl, hh⟩
    obtain ⟨rfl, hw⟩ := hw
    rw [access_load_zero h0]
    simp only [inUseCount]
    obtain ⟨duty, strong, weak, points, alone, readRc, readWeak⟩ := a
    have hf : ∀ f, State.flight (s.start (some (.useCount .weak .loadCas))) f =
        s.flight f + f (.useCount .weak .loadCas) := flight_start _
    have hduty : State.duty (s.start (some (.useCount .weak .loadCas))) = s.duty := by
      unfold State.duty
      rw [hf]
      rfl
    refine ⟨?_, ⟨strong.live, ?_⟩, ?_, ?_, ?_, ?_, Or.inr hw⟩
    · rw [hduty]; exact duty
    · rw [hf]; exact strong.gone
    · unfold Weak
      rw [hduty, hf, hf]
      exact weak
    · refine points_start points ?_
      intro q hq
      cases hq
      rfl
    · rw [hf]; exact alone
    · rw [hf]; exact readRc
  · rw [access_load_pos (by omega)]
    simp only [inUseCount, State.start, Option.toList_none, List.append_nil]
    exact a

theorem Alive.eject (a : Alive s) (h : 0 < s.retired) :
    Alive { s.start (some (.dispose .delay)) with retired := s.retired - 1 } := by
  obtain ⟨duty, strong, weak, points, alone, readRc, readWeak⟩ := a
  have hf : ∀ f, State.flight { s.start (some (.dispose .delay)) with retired := s.retired - 1 } f =
      s.flight f + f (.dispose .delay) := flight_start _
  have hduty : State.duty { s.start (some (.dispose .delay)) with retired := s.retired - 1 } =
      s.duty := by
    unfold State.duty
    rw [hf]
    simp only [State.start, owes]
    omega
  refine ⟨?_, ⟨strong.live, ?_⟩, ?_, ?_, ?_, ?_, ?_⟩
  · rw [hduty]; exact duty
  · rw [hf]; exact strong.gone
  · unfold Weak
    rw [hduty, hf, hf]
    exact weak
  · refine points_start points ?_
    intro q hq
    cases hq
    trivial
  · rw [hf]; exact alone
  · rw [hf]; exact readRc
  · rw [hf]; exact readWeak

/-- An operation moves on without an effect on the counters. -/
theorem Alive.move {p q : Pc} (a : Alive s) (hk : s.running[k]? = some p) (hq : At s.refCnt q)
    (howes : owes q = owes p) (hzero : zeroing q = zeroing p)
    (hweak : zeroingWeak q = zeroingWeak p) (hlast : releasedLast q = releasedLast p)
    (hreads : ∀ h, reads h q = reads h p) (himm : immediate q = immediate p ∨ s.weaks = 0) :
    Alive (s.goto k (some q)) := by
  obtain ⟨duty, strong, weak, points, alone, readRc, readWeak⟩ := a
  have e : ∀ f : Pc → Nat, f q = f p → (s.goto k (some q)).flight f = s.flight f := by
    intro f hf
    have := flight_goto hk (some q) f
    simp only [Option.map_some, Option.getD_some] at this
    omega
  have hduty : (s.goto k (some q)).duty = s.duty := by
    unfold State.duty
    rw [e owes howes]
    rfl
  refine ⟨?_, ⟨strong.live, ?_⟩, ?_, ?_, ?_, ?_, ?_⟩
  · rw [hduty]; exact duty
  · rw [e zeroing hzero]; exact strong.gone
  · unfold Weak
    rw [hduty, e _ hweak, e _ hlast]
    exact weak
  · refine points_goto points ?_
    intro q' hq'
    cases hq'
    exact hq
  · rcases himm with himm | himm
    · rw [e immediate himm]; exact alone
    · exact Or.inr himm
  · rw [e _ (hreads .rc)]; exact readRc
  · rw [e _ (hreads .weak)]; exact readWeak

/-- The operation that took `ref_cnt` to zero puts the zero flag on it, whether or not a
load has put the pending flag there first. -/
theorem Alive.zeroed {c : StickyCounter.Pc 30} (a : Alive s)
    (hk : s.running[k]? = some (.releaseRefs c)) :
    Alive (({ s with refCnt := zeroFlag 30 } : State).goto k (some (.loadWeak .load))) := by
  obtain ⟨duty, strong, weak, points, alone, readRc, readWeak⟩ := a
  have e := flight_goto (s := { s with refCnt := zeroFlag 30 }) hk (some (.loadWeak .load))
  have hle := zeroing_add_immediate_le s
  have hone := le_flight hk zeroing
  have h1 := e owes
  have h2 := e zeroing
  simp only [owes, zeroing, Option.map_some, Option.getD_some] at h1 h2 hone
  have hs : s.flight zeroing ≤ 1 := by unfold State.duty at duty; omega
  have hrc : s.rcs = 0 := by unfold State.duty at duty; omega
  have hz : (({ s with refCnt := zeroFlag 30 } : State).goto k (some (.loadWeak .load))).flight
      zeroing = 0 := by
    change _ + 1 = s.flight zeroing + 0 at h2
    omega
  have hduty : State.duty (({ s with refCnt := zeroFlag 30 } : State).goto k (some (.loadWeak .load))) =
      s.duty := by
    show min 1 s.rcs + _ + s.retired = min 1 s.rcs + s.flight owes + s.retired
    change _ + 1 = s.flight owes + 1 at h1
    omega
  refine ⟨?_, ⟨?_, ?_⟩, ?_, ?_, ?_, ?_, ?_⟩
  · rw [hduty]; exact duty
  · intro hp
    exact absurd (show 0 < s.rcs from hp) (by omega)
  · intro _
    refine Or.inr ⟨?_, Or.inl hz⟩
    show 2 * 2 ^ 30 ≤ (zeroFlag 30).toNat
    rw [toNat_zeroFlag]
  · unfold Weak
    rw [hduty]
    have h3 := e zeroingWeak
    have h4 := e releasedLast
    simp only [zeroingWeak, releasedLast, Option.map_some, Option.getD_some, Nat.add_zero] at h3 h4
    rw [h3, h4]
    exact weak
  · refine points_of (x := s.refCnt) ?_ (Or.inl hz)
    refine points_goto points ?_
    intro q hq
    cases hq
    rfl
  · have h3 := e immediate
    simp only [immediate, Option.map_some, Option.getD_some, Nat.add_zero] at h3
    rw [h3]
    exact alone
  · have h3 := e (reads .rc)
    simp only [reads, Option.map_some, Option.getD_some, Nat.add_zero] at h3
    rw [h3]
    exact readRc
  · have h3 := e (reads .weak)
    simp only [reads, Option.map_some, Option.getD_some, Nat.add_zero] at h3
    rw [h3]
    exact readWeak

theorem Alive.releaseRefs {c : StickyCounter.Pc 30} (a : Alive s)
    (hk : s.running[k]? = some (.releaseRefs c)) :
    Alive (({ s with refCnt := (access s.refCnt c).1 } : State).goto k
      (inReleaseRefs (access s.refCnt c).2)) := by
  have hat : At s.refCnt (.releaseRefs c) := a.points _ (List.mem_of_getElem? hk)
  have hle := zeroing_add_immediate_le s
  have hone := le_flight hk zeroing
  simp only [zeroing] at hone
  have hrc : s.rcs = 0 := by have := a.duty; unfold State.duty at this; omega
  have hgone := a.strong.gone hrc
  rcases hat with rfl | ⟨rfl, hp⟩
  · by_cases h0 : s.refCnt.toNat = 0
    · rw [access_decrementCas_zero h0]
      exact a.zeroed hk
    · have hp : 3 * 2 ^ 30 ≤ s.refCnt.toNat := by omega
      rw [access_decrementCas_pending hp]
      exact a.move hk (Or.inr ⟨rfl, hp⟩) rfl rfl rfl rfl (fun _ => rfl) (Or.inl rfl)
  · rw [access_decrementExchange_pending hp]
    exact a.zeroed hk

theorem Alive.weak_pos (a : Alive s) (h : 0 < s.duty) : 0 < s.weakCnt.toNat ∧
    s.weakCnt.toNat < 2 ^ 30 ∧ s.weakCnt.toNat = s.weaks + 1 ∧
    s.flight zeroingWeak + s.flight releasedLast = 0 := by
  have hd := a.duty
  have hone : s.duty = 1 := by omega
  rcases a.weak with hw | hw
  · rw [hone] at hw; exact hw
  · omega

theorem Alive.loadWeak {c : StickyCounter.Pc 30} (a : Alive s)
    (hk : s.running[k]? = some (.loadWeak c)) :
    Alive (({ s with weakCnt := (access s.weakCnt c).1 } : State).goto k
      (inLoadWeak (access s.weakCnt c).2)) := by
  have hat : c = .load := a.points _ (List.mem_of_getElem? hk)
  subst hat
  have hone := le_flight hk owes
  simp only [owes] at hone
  obtain ⟨hp, hlt, hw, -⟩ := a.weak_pos (by unfold State.duty; omega)
  rw [access_load_pos hp, loadResult_low (by omega)]
  simp only [inLoadWeak]
  by_cases h1 : s.weakCnt = 1
  · rw [if_pos (by rw [h1])]
    rw [eq_one_iff_toNat] at h1
    exact a.move hk trivial rfl rfl rfl rfl (fun _ => rfl) (Or.inr (by omega))
  · rw [if_neg (by simpa using h1)]
    exact a.move hk trivial rfl rfl rfl rfl (fun _ => rfl) (Or.inl rfl)

theorem Alive.retire (a : Alive s) (hk : s.running[k]? = some .retire) :
    Alive { s.goto k none with retired := s.retired + 1 } := by
  obtain ⟨duty, strong, weak, points, alone, readRc, readWeak⟩ := a
  have e : ∀ f : Pc → Nat, State.flight { s.goto k none with retired := s.retired + 1 } f +
      f .retire = s.flight f := fun f => flight_goto hk none f
  have hduty : State.duty { s.goto k none with retired := s.retired + 1 } = s.duty := by
    have := e owes
    simp only [owes] at this
    unfold State.duty
    simp only [State.goto]
    simp only [State.goto] at this
    omega
  refine ⟨?_, ⟨strong.live, ?_⟩, ?_, ?_, ?_, ?_, ?_⟩
  · rw [hduty]; exact duty
  · rw [show State.flight _ zeroing = _ from e zeroing]; exact strong.gone
  · unfold Weak
    rw [hduty, show State.flight _ zeroingWeak = _ from e zeroingWeak,
      show State.flight _ releasedLast = _ from e releasedLast]
    exact weak
  · refine points_goto points ?_
    intro q hq
    cases hq
  · rw [show State.flight _ immediate = _ from e immediate]; exact alone
  · rw [show State.flight _ (reads .rc) = _ from e (reads .rc)]; exact readRc
  · rw [show State.flight _ (reads .weak) = _ from e (reads .weak)]; exact readWeak

theorem Alive.dispose {r : Route} (a : Alive s) (hk : s.running[k]? = some (.dispose r)) :
    Alive (s.goto k (some (afterDispose r))) := by
  cases r with
  | destroy => exact a.move hk trivial rfl rfl rfl rfl (fun _ => rfl) (Or.inl rfl)
  | delay => exact a.move hk (Or.inl rfl) rfl rfl rfl rfl (fun _ => rfl) (Or.inl rfl)

/-- The dispose gives back the weak unit of the strong units. -/
theorem Alive.releaseImplicit (a : Alive s) (hk : s.running[k]? = some (.releaseWeak (.decrement 1))) :
    Alive (({ s with weakCnt := (access s.weakCnt (.decrement 1)).1 } : State).goto k
      (inReleaseWeak (access s.weakCnt (.decrement 1)).2)) := by
  have hone := le_flight hk owes
  simp only [owes] at hone
  obtain ⟨hp, hlt, hw, hzw⟩ := a.weak_pos (by unfold State.duty; omega)
  obtain ⟨duty, strong, weak, points, alone, readRc, readWeak⟩ := a
  have hd : s.rcs = 0 ∧ s.retired = 0 ∧ s.flight owes = 1 := by unfold State.duty at duty; omega
  have hsub := toNat_sub_one hp
  by_cases h1 : s.weakCnt = 1
  · have hacc : access s.weakCnt (.decrement 1) = (s.weakCnt - 1, .decrementCas 1) := by
      simp [access, h1]
    rw [eq_one_iff_toNat] at h1
    rw [hacc]
    simp only [inReleaseWeak]
    have e := flight_goto (s := { s with weakCnt := s.weakCnt - 1 }) hk
      (some (.releaseWeak (.decrementCas 1)))
    have h0 : _ + 1 = s.flight owes + 0 := e owes
    have h2 : _ + 0 = s.flight zeroingWeak + 1 := e zeroingWeak
    have h3 : _ + 0 = s.flight releasedLast + 0 := e releasedLast
    have hduty : State.duty (({ s with weakCnt := s.weakCnt - 1 } : State).goto k
        (some (.releaseWeak (.decrementCas 1)))) = 0 := by
      show min 1 s.rcs + _ + s.retired = 0
      omega
    refine ⟨?_, ⟨strong.live, ?_⟩, ?_, ?_, ?_, ?_, ?_⟩
    · omega
    · rw [show State.flight _ zeroing = _ from e zeroing]; exact strong.gone
    · unfold Weak
      rw [hduty]
      refine Or.inr ⟨?_, ?_, Or.inr ?_⟩
      · show s.weaks + 0 = 0
        omega
      · omega
      · show (s.weakCnt - 1).toNat = 0
        omega
    · refine points_goto points ?_
      intro q hq
      cases hq
      exact Or.inr rfl
    · rw [show State.flight _ immediate = _ from e immediate]; exact alone
    · rw [show State.flight _ (reads .rc) = _ from e (reads .rc)]; exact readRc
    · rw [show State.flight _ (reads .weak) = _ from e (reads .weak)]; exact readWeak
  · have hacc : access s.weakCnt (.decrement 1) = (s.weakCnt - 1, .done (.bool false)) := by
      simp only [access, if_neg h1]
    rw [eq_one_iff_toNat] at h1
    rw [hacc]
    simp only [inReleaseWeak]
    have e := flight_goto (s := { s with weakCnt := s.weakCnt - 1 }) hk none
    have h0 : _ + 1 = s.flight owes := e owes
    have hduty : State.duty (({ s with weakCnt := s.weakCnt - 1 } : State).goto k none) = 0 := by
      show min 1 s.rcs + _ + s.retired = 0
      omega
    refine ⟨?_, ⟨strong.live, ?_⟩, ?_, ?_, ?_, ?_, ?_⟩
    · omega
    · rw [show State.flight _ zeroing = _ from e zeroing]; exact strong.gone
    · unfold Weak
      rw [hduty, show State.flight _ zeroingWeak = _ from e zeroingWeak,
        show State.flight _ releasedLast = _ from e releasedLast]
      refine Or.inl ⟨?_, ?_, ?_, hzw⟩
      · show 0 < (s.weakCnt - 1).toNat
        omega
      · show (s.weakCnt - 1).toNat < 2 ^ 30
        omega
      · show (s.weakCnt - 1).toNat = s.weaks + 0
        omega
    · refine points_goto points ?_
      intro q hq
      cases hq
    · rw [show State.flight _ immediate = _ from e immediate]; exact alone
    · rw [show State.flight _ (reads .rc) = _ from e (reads .rc)]; exact readRc
    · rw [show State.flight _ (reads .weak) = _ from e (reads .weak)]; exact readWeak

/-- The operation that took `weak_cnt` to zero meets nobody there. -/
theorem Alive.zeroedWeak (a : Alive s)
    (hk : s.running[k]? = some (.releaseWeak (.decrementCas 1))) :
    Alive (({ s with weakCnt := (access s.weakCnt (.decrementCas 1)).1 } : State).goto k
      (inReleaseWeak (access s.weakCnt (.decrementCas 1)).2)) := by
  have hone := le_flight hk zeroingWeak
  simp only [zeroingWeak] at hone
  obtain ⟨duty, strong, weak, points, alone, readRc, readWeak⟩ := a
  obtain ⟨h0, h1, hw⟩ : s.weaks + s.duty = 0 ∧ s.flight zeroingWeak + s.flight releasedLast = 1 ∧
      (s.flight zeroingWeak = 0 ∨ s.weakCnt.toNat = 0) := by
    rcases weak with weak | weak
    · omega
    · exact weak
  rw [access_decrementCas_zero (by omega)]
  simp only [inReleaseWeak]
  have e := flight_goto (s := { s with weakCnt := zeroFlag 30 }) hk (some (.destroy .delay))
  have h2 : _ + 1 = s.flight zeroingWeak + 0 := e zeroingWeak
  have h3 : _ + 0 = s.flight releasedLast + 1 := e releasedLast
  have hduty : State.duty (({ s with weakCnt := zeroFlag 30 } : State).goto k
      (some (.destroy .delay))) = s.duty := by
    unfold State.duty
    rw [show State.flight _ owes = _ from e owes]
    rfl
  refine ⟨?_, ⟨strong.live, ?_⟩, ?_, ?_, ?_, ?_, ?_⟩
  · omega
  · rw [show State.flight _ zeroing = _ from e zeroing]; exact strong.gone
  · unfold Weak
    rw [hduty]
    exact Or.inr ⟨h0, by omega, Or.inl (by omega)⟩
  · refine points_goto points ?_
    intro q hq
    cases hq
    trivial
  · rw [show State.flight _ immediate = _ from e immediate]; exact alone
  · rw [show State.flight _ (reads .rc) = _ from e (reads .rc)]; exact readRc
  · rw [show State.flight _ (reads .weak) = _ from e (reads .weak)]; exact readWeak

/-- The second access of a load: it installs both flags, or finds the counter moved. -/
theorem Alive.loadCas {h : Handle} (a : Alive s) (hk : s.running[k]? = some (.useCount h .loadCas)) :
    Alive (({ s with refCnt := (access s.refCnt .loadCas).1 } : State).goto k
      (inUseCount h (access s.refCnt .loadCas).2)) := by
  have hmove : ∀ x : Cnt, (x = s.refCnt ∨ s.refCnt.toNat = 0 ∧ x.toNat = 3 * 2 ^ 30) →
      Alive (({ s with refCnt := x } : State).goto k none) := by
    intro x hx
    obtain ⟨duty, strong, weak, points, alone, readRc, readWeak⟩ := a
    have e := flight_goto (s := { s with refCnt := x }) hk none
    have hz : State.flight (({ s with refCnt := x } : State).goto k none) zeroing =
        s.flight zeroing := e zeroing
    have hrc : State.flight (({ s with refCnt := x } : State).goto k none) (reads .rc) + _ =
        s.flight (reads .rc) := e (reads .rc)
    have hw : State.flight (({ s with refCnt := x } : State).goto k none) (reads .weak) + _ =
        s.flight (reads .weak) := e (reads .weak)
    have hduty : State.duty (({ s with refCnt := x } : State).goto k none) = s.duty := by
      unfold State.duty
      rw [show State.flight _ owes = _ from e owes]
      rfl
    refine ⟨?_, ⟨?_, ?_⟩, ?_, ?_, ?_, ?_, ?_⟩
    · rw [hduty]; exact duty
    · intro hp
      have hp : 0 < s.rcs := hp
      rcases hx with rfl | ⟨h0, _⟩
      · exact strong.live hp
      · have := (strong.live hp).1
        omega
    · intro hr
      rw [hz]
      have hgone := strong.gone hr
      show x.toNat = 0 ∧ _ ∨ 2 * 2 ^ 30 ≤ x.toNat ∧ (_ ∨ 3 * 2 ^ 30 ≤ x.toNat)
      rcases hx with rfl | ⟨h0, hx⟩
      · exact hgone
      · omega
    · unfold Weak
      rw [hduty, show State.flight _ zeroingWeak = _ from e zeroingWeak,
        show State.flight _ releasedLast = _ from e releasedLast]
      exact weak
    · have hpts : ∀ p ∈ s.running, At x p := by
        rcases hx with rfl | ⟨_, hx⟩
        · exact points
        · exact points_of points (Or.inr (by omega))
      refine points_goto hpts ?_
      intro q hq
      cases hq
    · rw [show State.flight _ immediate = _ from e immediate]; exact alone
    · omega
    · have hw' : 0 < s.weaks ∨ s.flight (reads .weak) = 0 := readWeak.symm
      rcases hw' with hw' | hw'
      · exact Or.inr hw'
      · exact Or.inl (by omega)
  by_cases h0 : s.refCnt = 0
  · have hacc : access s.refCnt .loadCas = (zeroFlag 30 ||| zeroPendingFlag 30, .done (.val 0)) := by
      simp only [access, if_pos h0]
    rw [hacc]
    exact hmove _ (Or.inr ⟨eq_zero_iff_toNat.mp h0, toNat_zeroFlag_or⟩)
  · have hacc : access s.refCnt .loadCas = (s.refCnt, .done (loadResult s.refCnt)) := by
      simp only [access, if_neg h0]
    rw [hacc]
    exact hmove _ (Or.inl rfl)

theorem Alive.destroy {r : Route} (a : Alive s) (hk : s.running[k]? = some (.destroy r)) :
    Dead { s.goto k none with deleted := true } := by
  obtain ⟨duty, strong, weak, points, alone, readRc, readWeak⟩ := a
  have hlen := length_running s
  have hle := zeroing_add_immediate_le s
  have hall : s.rcs = 0 ∧ s.weaks = 0 ∧ s.retired = 0 ∧ s.running.length = 1 := by
    unfold Weak at weak
    unfold State.duty at duty weak
    cases r with
    | destroy =>
      have h1 : 1 ≤ s.flight immediate := le_flight hk immediate
      omega
    | delay =>
      have h1 : 1 ≤ s.flight releasedLast := le_flight hk releasedLast
      omega
  obtain ⟨hr, hw, hret, hl⟩ := hall
  refine ⟨hr, hw, hret, ?_⟩
  have hk' : k < s.running.length := (List.getElem?_eq_some_iff.mp hk).1
  refine List.eq_nil_of_length_eq_zero ?_
  show (s.running.eraseIdx k).length = 0
  rw [List.length_eraseIdx_of_lt hk', hl]

theorem Dead.next_eq_none (d : Dead s) (a : Label) : next s a = none := by
  obtain ⟨hr, hw, hret, hrun⟩ := d
  cases a with
  | useCount h => cases h <;> simp [next, State.handles, hr, hw]
  | _ => simp [next, Droppable, hr, hw, hret, hrun]

end Steps

theorem inv_created : Inv .created := by
  refine ⟨rfl, Or.inl ⟨rfl, ?_⟩⟩
  refine ⟨by decide, ⟨fun _ => by decide, fun h => by cases h⟩, Or.inl (by decide), ?_, Or.inl rfl,
    rfl, Or.inl rfl⟩
  intro p hp
  cases hp

theorem inv_next {s s' : State} {a : Label} (i : Inv s) (hok : ok s a)
    (h : next s a = some s') : Inv s' := by
  obtain ⟨ht, ⟨hd, i⟩ | i⟩ := i
  case inr => rw [i.next_eq_none] at h; cases h
  cases a with
  | copyRc =>
    obtain ⟨hg, hs⟩ := Option.ite_none_right_eq_some.mp h
    cases hs
    rw [accessRef_eq hd]
    exact ⟨ht, Or.inl ⟨hd, i.copyRc hg hok⟩⟩
  | dropRc =>
    obtain ⟨hg, hs⟩ := Option.ite_none_right_eq_some.mp h
    cases hs
    rw [accessRef_eq hd]
    exact ⟨ht, Or.inl ⟨hd, i.dropRc hg.1⟩⟩
  | weakOfRc =>
    obtain ⟨hg, hs⟩ := Option.ite_none_right_eq_some.mp h
    cases hs
    rw [accessWeak_eq hd]
    exact ⟨ht, Or.inl ⟨hd, i.addWeak (Or.inl hg) hok⟩⟩
  | copyWeak =>
    obtain ⟨hg, hs⟩ := Option.ite_none_right_eq_some.mp h
    cases hs
    rw [accessWeak_eq hd]
    exact ⟨ht, Or.inl ⟨hd, i.addWeak (Or.inr hg) hok⟩⟩
  | dropWeak =>
    obtain ⟨hg, hs⟩ := Option.ite_none_right_eq_some.mp h
    cases hs
    rw [accessWeak_eq hd]
    exact ⟨ht, Or.inl ⟨hd, i.dropWeak hg⟩⟩
  | lock =>
    obtain ⟨hg, hs⟩ := Option.ite_none_right_eq_some.mp h
    cases hs
    rw [accessRef_eq hd]
    exact ⟨ht, Or.inl ⟨hd, i.lock hok.1 hok.2⟩⟩
  | useCount k =>
    obtain ⟨hg, hs⟩ := Option.ite_none_right_eq_some.mp h
    cases hs
    rw [accessRef_eq hd]
    exact ⟨ht, Or.inl ⟨hd, i.useCount hg⟩⟩
  | eject =>
    obtain ⟨hg, hs⟩ := Option.ite_none_right_eq_some.mp h
    cases hs
    exact ⟨ht, Or.inl ⟨hd, i.eject hg⟩⟩
  | run k =>
    obtain ⟨p, hk, hs⟩ := Option.map_eq_some_iff.mp h
    subst hs
    have hgoto : ∀ {t : State} {o : Option Pc}, t.touched = false → t.deleted = false →
        Alive (t.goto k o) → Inv (t.goto k o) := by
      intro t o ht hd i
      cases o <;> exact ⟨ht, Or.inl ⟨hd, i⟩⟩
    have hat := i.points p (List.mem_of_getElem? hk)
    cases p with
    | releaseRefs c =>
      simp only [State.run, accessRef_eq hd]
      exact hgoto ht hd (i.releaseRefs hk)
    | loadWeak c =>
      simp only [State.run, accessWeak_eq hd]
      exact hgoto ht hd (i.loadWeak hk)
    | retire => exact ⟨ht, Or.inl ⟨hd, i.retire hk⟩⟩
    | dispose r => exact hgoto ht hd (i.dispose hk)
    | releaseWeak c =>
      simp only [State.run, accessWeak_eq hd]
      rcases hat with rfl | rfl
      · exact hgoto ht hd (i.releaseImplicit hk)
      · exact hgoto ht hd (i.zeroedWeak hk)
    | destroy r => exact ⟨ht, Or.inr (i.destroy hk)⟩
    | useCount h c =>
      cases (show c = .loadCas from hat)
      simp only [State.run, accessRef_eq hd]
      exact hgoto ht hd (i.loadCas hk)

/-- **No access after deletion without a revival.** In every run in which no `lock`
increments `ref_cnt` while it is zero and not yet flagged, and no increment is made
with the counter's value at its maximum, no operation accesses a counter of the object
after `delete_object`. -/
theorem untouched_of_ok {s : State} (h : (machine.restrict ok).Reach s) : s.touched = false := by
  refine (Machine.Reach.invariant (I := Inv) (M := machine.restrict ok) ?_ ?_ h).1
  · intro s hs
    exact hs ▸ inv_created
  · intro s a s' i hn
    obtain ⟨hok, hn⟩ := Machine.restrict_next.mp hn
    exact inv_next i hok hn

/-- The same schedule with the `lock` after the zeroing: it fails, a `use_count` and the
dispose still run, and the last weak drop deletes. -/
def unrevived : List Label :=
  [.weakOfRc, .dropRc, .useCount .weak, .run 1, .run 0, .run 0, .lock, .run 0, .run 0, .eject, .run 0,
    .run 0, .dropWeak, .run 0, .run 0]

theorem untouched_of_ok_unrevived : ∃ s, (machine.restrict ok).exec unrevived .created = some s ∧
    s.deleted = true ∧ s.touched = false := by
  have he : ∃ s, (machine.restrict ok).exec unrevived .created = some s ∧ s.deleted = true := by
    decide
  obtain ⟨s, hs, hd⟩ := he
  exact ⟨s, hs, hd, untouched_of_ok ((Machine.Reach.init (M := machine.restrict ok) rfl).exec hs)⟩

end Cdrc.CountedObject.Accesses
