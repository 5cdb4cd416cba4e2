import Cdrc.Acquire.Load

/-! # When the four backends agree on `load`

The counts of an object are the references there are: those in cells, those of deferred
entries, and those that an operation has in its hands (`hand`). So an object in an
`atomic_rc_ptr` has a positive use count, and one in an `atomic_weak_ptr` is not deleted,
but it may have expired. -/
namespace Cdrc.Acquire
open Cdrc.Lib.Runs Cdrc.CountedObject

variable {α : Type} [DecidableEq α]

/-- With Hyaline, the step ejects no entry as another type than it was retired with. The entries
of which it would do so were put into a batch that had been begun with another type. -/
def Unmixed (B : Backend) (s : State α) : Label α → Prop
  | .eject k => B = .hyaline → ∀ d ∈ s.pending[k]?, d.applied = d.type
  | _ => True

instance (B : Backend) (s : State α) (l : Label α) : Decidable (Unmixed B s l) :=
  match l with
  | .eject k => inferInstanceAs (Decidable (B = .hyaline → ∀ d ∈ s.pending[k]?, d.applied = d.type))
  | .makeShared _ | .newAtomic _ | .addRef _ _ | .destroy _ | .setMark _ _ | .load _ | .store _ _
  | .storeCopy _ _ | .compareAndSwap _ _ _ | .exchange _ _ | .handOver | .advanceEpoch | .announce =>
    inferInstanceAs (Decidable True)

/-- What was passed to `retire`. -/
def retired (l : List (Deferred α)) : List (α × RetireType) := l.map fun d => (d.obj, d.type)

omit [DecidableEq α] in
@[simp] theorem retired_append (l : List (Deferred α)) (d : Deferred α) :
    retired (l ++ [d]) = retired l ++ [(d.obj, d.type)] := List.map_append

/-- How many references of the kind to `p` the cell owns. -/
def refers (κ : Kind) (p : α) (c : Cell α) : Nat :=
  if c.kind = κ ∧ c.ptr.obj = some p then 1 else 0

def State.references (s : State α) (hand : List (Kind × α)) (κ : Kind) (p : α) : Nat :=
  (s.cells.map (refers κ p)).sum + (retired s.pending).count (p, κ.type) + hand.count (κ, p)

/-- The weak reference that the strong ones hold together: until the object is disposed of. -/
def State.heldByStrong (s : State α) (p : α) : Nat :=
  if 0 < s.strong p then 1 else (retired s.pending).count (p, .dispose)

structure Inv (B : Backend) (hand : List (Kind × α)) (s : State α) : Prop where
  strong : ∀ p, s.strong p = s.references hand .strong p
  weak : ∀ p, s.weak p = s.references hand .weak p + s.heldByStrong p
  dispose : ∀ p, 0 < s.strong p → (retired s.pending).count (p, .dispose) = 0
  own : B ≠ .hyaline → ∀ d ∈ s.pending, d.applied = d.type

/-- The reference a pointer stands for. -/
def handOf (κ : Kind) (ptr : MarkedPtr α) : List (Kind × α) :=
  match ptr.obj with
  | some p => [(κ, p)]
  | none => []

theorem count_handOf (c : Cell α) (κ : Kind) (p : α) :
    (handOf c.kind c.ptr).count (κ, p) = refers κ p c := by
  unfold handOf refers
  cases h : c.ptr.obj with
  | none => simp
  | some q => simp [List.count_singleton, Prod.ext_iff]

section Moves
variable {B : Backend} {s : State α} {hand : List (Kind × α)} {κ : Kind} {p : α}

theorem inv_initial : Inv B [] (.initial : State α) := by
  refine ⟨fun p => rfl, fun p => ?_, fun p hp => rfl, fun _ d hd => absurd hd List.not_mem_nil⟩
  simp [State.initial, State.references, State.heldByStrong, retired]

/-- Only the cells change: what they gain, the hand loses. -/
theorem Inv.cells (h : Inv B hand s) {cells : List (Cell α)} {hand' : List (Kind × α)}
    (hc : ∀ κ p, (cells.map (refers κ p)).sum + hand'.count (κ, p) =
      (s.cells.map (refers κ p)).sum + hand.count (κ, p)) :
    Inv B hand' { s with cells := cells } := by
  have hr : ∀ κ p, State.references { s with cells := cells } hand' κ p =
      s.references hand κ p := by
    intro κ p
    have := hc κ p
    simp only [State.references]
    omega
  refine ⟨fun p => ?_, fun p => ?_, h.dispose, h.own⟩
  · rw [hr]; exact h.strong p
  · rw [hr]; exact h.weak p

theorem Inv.push (h : Inv B (handOf κ ptr ++ hand) s) (a : Bool) : Inv B hand (s.push ⟨a, κ, ptr⟩) := by
  refine h.cells fun κ' p => ?_
  rw [List.count_append, count_handOf ⟨a, κ, ptr⟩ κ' p]
  simp only [List.map_append, List.map_cons, List.map_nil, List.sum_append, List.sum_cons,
    List.sum_nil]
  omega

theorem Inv.eraseCell (h : Inv B hand s) {i : Nat} {c : Cell α} (hi : s.cells[i]? = some c) :
    Inv B (handOf c.kind c.ptr ++ hand) (s.eraseCell i) := by
  refine h.cells fun κ' p => ?_
  have := sum_map_eraseIdx (refers κ' p) s.cells i c hi
  rw [List.count_append, count_handOf c κ' p]
  omega

/-- What the cell held is in the hand now, what it is given was. -/
theorem Inv.setCell {i : Nat} {c : Cell α} (h : Inv B (handOf c.kind ptr ++ hand) s)
    (hi : s.cells[i]? = some c) :
    Inv B (handOf c.kind c.ptr ++ hand) (s.setCell i { c with ptr := ptr }) := by
  refine h.cells fun κ' p => ?_
  have hs := sum_map_set (refers κ' p) s.cells i { c with ptr := ptr } c hi
  have hold := count_handOf c κ' p
  have hnew := count_handOf { c with ptr := ptr } κ' p
  rw [List.count_append, List.count_append, hold, hnew]
  omega

/-! ## The counters -/

theorem Inv.increment (h : Inv B hand s) (hp : 0 < s.count κ p) :
    Inv B ((κ, p) :: hand) (s.increment κ p).1 := by
  unfold State.increment
  rw [if_pos hp]
  cases κ with
  | strong =>
    have hp : 0 < s.strong p := hp
    refine ⟨fun q => ?_, fun q => ?_, fun q hq => ?_, h.own⟩
    · have hs := h.strong q
      by_cases hq : q = p
      · subst hq
        simp only [State.references, List.count_cons_self, Function.update_self] at hs ⊢
        omega
      · simp only [Function.update_of_ne hq]
        simpa [State.references, List.count_cons, Ne.symm hq] using hs
    · have hw := h.weak q
      have hd : (State.heldByStrong { s with strong := Function.update s.strong p (s.strong p + 1) } q) =
          s.heldByStrong q := by
        by_cases hq : q = p
        · subst hq
          simp [State.heldByStrong, hp]
        · simp [State.heldByStrong, Function.update_of_ne hq]
      simp only
      rw [hd]
      simpa [State.references, List.count_cons] using hw
    · by_cases hqp : q = p
      · subst hqp
        exact h.dispose q hp
      · exact h.dispose q (by simpa [Function.update_of_ne hqp] using hq)
  | weak =>
    refine ⟨fun q => ?_, fun q => ?_, h.dispose, h.own⟩
    · simpa [State.references, List.count_cons] using h.strong q
    · have hw := h.weak q
      have hd : (State.heldByStrong { s with weak := Function.update s.weak p (s.weak p + 1) } q) =
          s.heldByStrong q := rfl
      rw [hd]
      by_cases hq : q = p
      · subst hq
        simp only [State.references, List.count_cons_self, Function.update_self] at hw ⊢
        omega
      · simp only [Function.update_of_ne hq]
        simpa [State.references, List.count_cons, Ne.symm hq] using hw

theorem Inv.decrementWeakCnt (h : Inv B ((.weak, p) :: hand) s) :
    Inv B hand (s.decrementWeakCnt p) := by
  refine ⟨fun q => ?_, fun q => ?_, h.dispose, h.own⟩
  · simpa [State.references, List.count_cons, State.decrementWeakCnt] using h.strong q
  · have hw := h.weak q
    have hd : (s.decrementWeakCnt p).heldByStrong q = s.heldByStrong q := rfl
    rw [hd]
    by_cases hq : q = p
    · subst hq
      simp only [State.references, List.count_cons_self, State.decrementWeakCnt,
        Function.update_self] at hw ⊢
      omega
    · simp only [State.decrementWeakCnt, Function.update_of_ne hq]
      simpa [State.references, List.count_cons, Ne.symm hq] using hw

/-- The backends but Hyaline note the type that is passed. -/
theorem Inv.own_append (h : Inv B hand s) (type : RetireType) (hB : B ≠ .hyaline) :
    ∀ d ∈ s.pending ++ [⟨p, type, s.applied B type⟩], d.applied = d.type := by
  intro d hd
  rcases List.mem_append.mp hd with hd | hd
  · exact h.own hB d hd
  · rw [List.mem_singleton.mp hd]
    cases B with
    | hyaline => exact absurd rfl hB
    | hp => rfl
    | ebr => rfl
    | ibr => rfl

theorem Inv.decrementRefCnt (h : Inv B ((.strong, p) :: hand) s) :
    Inv B hand (s.decrementRefCnt B p) := by
  have hsp := h.strong p
  simp only [State.references, List.count_cons_self] at hsp
  have hrefs : ∀ q, State.references s ((.strong, p) :: hand) .weak q =
      s.references hand .weak q := fun q => by
    simp [State.references]
  -- an object other than `p` keeps its part
  have hother : ∀ q, q ≠ p → s.strong q = s.references hand .strong q := fun q hq => by
    have := h.strong q
    simpa [State.references, List.count_cons, Ne.symm hq] using this
  unfold State.decrementRefCnt
  by_cases h1 : s.strong p = 1
  · have hdue := h.dispose p (by omega)
    have hwp := h.weak p
    rw [hrefs, State.heldByStrong, if_pos (by omega)] at hwp
    simp only [if_pos h1]
    split
    · -- the immediate route: no weak reference is left
      rename_i hw1
      refine ⟨fun q => ?_, fun q => ?_, fun q hq => ?_, h.own⟩
      · by_cases hq : q = p
        · subst hq
          simp only [State.references, Function.update_self]
          omega
        · simpa [State.references, Function.update_of_ne hq] using hother q hq
      · by_cases hq : q = p
        · subst hq
          simp only [State.references, State.heldByStrong, Function.update_self, h1] at hwp ⊢
          simp only [Nat.sub_self, Nat.lt_irrefl, if_false, hdue]
          omega
        · have hw := h.weak q
          rw [hrefs] at hw
          simpa [State.references, State.heldByStrong, Function.update_of_ne hq] using hw
      · by_cases hqp : q = p
        · subst hqp
          exact hdue
        · exact h.dispose q (by simpa [Function.update_of_ne hqp] using hq)
    · refine ⟨fun q => ?_, fun q => ?_, fun q hq => ?_, fun hB => h.own_append .dispose hB⟩
      · by_cases hq : q = p
        · subst hq
          simp only [State.retire, State.references, Function.update_self, retired_append,
            List.count_append, Kind.type]
          simp only [Kind.type] at hsp
          simp [h1] at hsp ⊢
          omega
        · have := hother q hq
          simpa [State.retire, State.references, Kind.type, Function.update_of_ne hq] using this
      · by_cases hq : q = p
        · subst hq
          simp only [State.retire, State.references, State.heldByStrong, Function.update_self, h1,
            retired_append, List.count_append, hdue, Kind.type] at hwp ⊢
          simp
          omega
        · have hw := h.weak q
          rw [hrefs] at hw
          simpa [State.retire, State.references, State.heldByStrong, Kind.type,
            Function.update_of_ne hq, List.count_append, List.count_singleton, Ne.symm hq] using hw
      · by_cases hqp : q = p
        · subst hqp
          simp [State.retire, h1] at hq
        · have hd := h.dispose q (by simpa [State.retire, Function.update_of_ne hqp] using hq)
          simpa [State.retire, List.count_append, List.count_singleton, Ne.symm hqp] using hd
  · have h2 : 0 < s.strong p - 1 := by omega
    simp only [if_neg h1]
    refine ⟨fun q => ?_, fun q => ?_, fun q hq => ?_, h.own⟩
    · by_cases hq : q = p
      · subst hq
        simp only [State.references, Function.update_self]
        omega
      · simpa [State.references, Function.update_of_ne hq] using hother q hq
    · have hw := h.weak q
      rw [hrefs] at hw
      by_cases hq : q = p
      · subst hq
        simp only [State.heldByStrong, Function.update_self, if_pos h2]
        rw [State.heldByStrong, if_pos (by omega)] at hw
        exact hw
      · simpa [State.references, State.heldByStrong, Function.update_of_ne hq] using hw
    · by_cases hqp : q = p
      · subst hqp
        exact h.dispose q (by omega)
      · exact h.dispose q (by simpa [Function.update_of_ne hqp] using hq)

theorem Inv.decrement (h : Inv B ((κ, p) :: hand) s) : Inv B hand (s.decrement B κ p) := by
  cases κ with
  | strong => exact h.decrementRefCnt
  | weak => exact h.decrementWeakCnt

/-- Only the deferred entries change: what they gain, the hand loses. -/
theorem Inv.pending (h : Inv B hand s) {pending : List (Deferred α)} {batch : Option RetireType}
    {hand' : List (Kind × α)} (ho : B ≠ .hyaline → ∀ d ∈ pending, d.applied = d.type)
    (hd : ∀ p, (retired pending).count (p, .dispose) = (retired s.pending).count (p, .dispose))
    (hc : ∀ κ p, (retired pending).count (p, κ.type) + hand'.count (κ, p) =
      (retired s.pending).count (p, κ.type) + hand.count (κ, p)) :
    Inv B hand' { s with pending := pending, batch := batch } := by
  have hr : ∀ κ p, State.references { s with pending := pending, batch := batch } hand' κ p =
      s.references hand κ p := by
    intro κ p
    have := hc κ p
    simp only [State.references]
    omega
  refine ⟨fun p => ?_, fun p => ?_, fun p hp => ?_, ho⟩
  · rw [hr]; exact h.strong p
  · have hheld : State.heldByStrong { s with pending := pending, batch := batch } p =
        s.heldByStrong p := by
      simp only [State.heldByStrong, hd]
    rw [hr, hheld]
    exact h.weak p
  · exact (hd p).trans (h.dispose p hp)

theorem Kind.type_ne_dispose (κ : Kind) : κ.type ≠ .dispose := by
  cases κ <;> simp [Kind.type]

theorem Kind.type_inj {κ κ' : Kind} : κ.type = κ'.type ↔ κ = κ' := by
  cases κ <;> cases κ' <;> simp [Kind.type]

theorem Inv.retire (h : Inv B ((κ, p) :: hand) s) : Inv B hand (s.retire B p κ.type) := by
  refine h.pending (fun hB => h.own_append κ.type hB) (fun q => ?_) fun κ' q => ?_
  · simp [List.count_append, κ.type_ne_dispose]
  · simp only [retired_append, List.count_append, List.count_cons, beq_iff_eq, Prod.mk.injEq,
      Kind.type_inj]
    by_cases hq : p = q <;> by_cases hκ : κ = κ' <;> simp [hq, hκ]
    omega

theorem Inv.retireOld (h : Inv B (handOf κ old ++ hand) s) : Inv B hand (s.retireOld B κ old) := by
  unfold State.retireOld
  unfold handOf at h
  split
  · rename_i p hp
    simp only [hp] at h
    exact h.retire
  · rename_i hp
    simp only [hp] at h
    exact h

/-- An entry is taken out of the deferred ones. -/
theorem count_eraseIdx_entry {l : List (Deferred α)} {k : Nat} {d : Deferred α}
    {f : α × RetireType} (hk : l[k]? = some d) :
    (retired (l.eraseIdx k)).count f + (if (d.obj, d.type) = f then 1 else 0) =
      (retired l).count f := by
  obtain ⟨hlt, he⟩ := List.getElem?_eq_some_iff.mp hk
  have hp : (d :: l.eraseIdx k).Perm l := by
    rw [← he]
    exact List.getElem_cons_eraseIdx_perm hlt
  have hp : ((d.obj, d.type) :: retired (l.eraseIdx k)).Perm (retired l) :=
    List.Perm.map (fun d : Deferred α => (d.obj, d.type)) hp
  rw [← hp.count_eq, List.count_cons]
  by_cases hef : (d.obj, d.type) = f <;> simp [hef]

/-- An entry is ejected as the type it was retired with. -/
theorem Inv.eject (h : Inv B hand s) {k : Nat} {type : RetireType}
    (hk : s.pending[k]? = some ⟨p, type, type⟩) :
    Inv B hand (State.eject B { s with pending := s.pending.eraseIdx k } p type) := by
  have hrest : B ≠ .hyaline → ∀ d ∈ s.pending.eraseIdx k, d.applied = d.type :=
    fun hB d hd => h.own hB d (List.mem_of_mem_eraseIdx hd)
  have htake : ∀ κ : Kind, type = κ.type →
      Inv B ((κ, p) :: hand) { s with pending := s.pending.eraseIdx k } := by
    intro κ ht
    subst ht
    refine h.pending hrest (fun q => ?_) fun κ' q => ?_
    · have := count_eraseIdx_entry (f := (q, .dispose)) hk
      simpa [κ.type_ne_dispose] using this
    · have := count_eraseIdx_entry (f := (q, κ'.type)) hk
      simp only [Prod.mk.injEq, Kind.type_inj] at this
      simp only [List.count_cons, beq_iff_eq, Prod.mk.injEq]
      by_cases hq : p = q <;> by_cases hκ : κ = κ' <;> simp [hq, hκ] at this ⊢ <;> omega
  cases type with
  | decrementStrongCount => exact (htake .strong rfl).decrementRefCnt
  | decrementWeakCount => exact (htake .weak rfl).decrementWeakCnt
  | dispose =>
    -- the strong references are gone; the weak reference they held goes with the entry
    have hcount : ∀ e, (retired (s.pending.eraseIdx k)).count e + (if (p, .dispose) = e then 1 else 0) =
        (retired s.pending).count e := fun e => count_eraseIdx_entry hk
    have hpos := hcount (p, .dispose)
    rw [if_pos rfl] at hpos
    have hexp : ¬ 0 < s.strong p := fun hs => by
      have := h.dispose p hs
      omega
    refine ⟨fun q => ?_, fun q => ?_, fun q hq => ?_, hrest⟩
    · have hs := h.strong q
      have := hcount (q, .decrementStrongCount)
      simp only [State.eject, State.decrementWeakCnt, State.references, Kind.type] at hs ⊢
      simp only [Prod.mk.injEq, reduceCtorEq, and_false, if_false] at this
      omega
    · have hw := h.weak q
      have h1 := hcount (q, .decrementWeakCount)
      have h2 := hcount (q, .dispose)
      simp only [Prod.mk.injEq, reduceCtorEq, and_false, if_false, and_true] at h1 h2
      have hheld : State.heldByStrong
          (State.eject B { s with pending := s.pending.eraseIdx k } p .dispose) q +
            (if p = q then 1 else 0) = s.heldByStrong q := by
        by_cases hs : 0 < s.strong q
        · have hqp : p ≠ q := fun he => hexp (he ▸ hs)
          rw [if_neg hqp]
          exact (if_pos hs).trans (if_pos hs).symm
        · have e1 : State.heldByStrong
              (State.eject B { s with pending := s.pending.eraseIdx k } p .dispose) q =
                (retired (s.pending.eraseIdx k)).count (q, .dispose) := if_neg hs
          have e2 : s.heldByStrong q = (retired s.pending).count (q, .dispose) := if_neg hs
          rw [e1, e2]
          exact h2
      simp only [State.references, Kind.type] at hw ⊢
      change Function.update s.weak p (s.weak p - 1) q = (s.cells.map (refers .weak q)).sum +
        (retired (s.pending.eraseIdx k)).count (q, .decrementWeakCount) + hand.count (.weak, q) + _
      by_cases hq : q = p
      · subst hq
        rw [Function.update_self]
        rw [if_pos rfl] at hheld
        omega
      · rw [Function.update_of_ne hq]
        rw [if_neg (Ne.symm hq)] at hheld
        omega
    · have := hcount (q, .dispose)
      have hd := h.dispose q hq
      simp only [State.eject, State.decrementWeakCnt]
      omega

/-! ## What the operations do -/

/-- A pointer in a cell keeps its object. -/
theorem Inv.kept_cell (h : Inv B hand s) {i : Nat} {c : Cell α} (hi : s.cells[i]? = some c) :
    s.kept c.kind c.ptr = true := by
  unfold State.kept
  split
  · rename_i p hp
    have hle := le_sum_map_of_getElem? (refers c.kind p) hi
    have h1 : refers c.kind p c = 1 := by simp [refers, hp]
    simp only [decide_eq_true_eq]
    cases hκ : c.kind with
    | strong =>
      have := h.strong p
      rw [hκ] at hle h1
      simp only [State.references] at this
      simp only [State.count]
      omega
    | weak =>
      have := h.weak p
      rw [hκ] at hle h1
      simp only [State.references] at this
      simp only [State.count]
      omega
  · rfl

theorem Inv.addRef (h : Inv B hand s) {ptr : MarkedPtr α} (hk : s.kept κ ptr = true) :
    Inv B (handOf κ ptr ++ hand) (s.addRef κ ptr).1 ∧ (s.addRef κ ptr).2 = ptr := by
  unfold State.kept at hk
  unfold State.addRef handOf
  cases hp : ptr.obj with
  | none => exact ⟨h, rfl⟩
  | some p =>
    simp only [hp, decide_eq_true_eq] at hk
    have hi := h.increment hk
    have ht : (s.increment κ p).2 = true := by
      simp only [State.increment, if_pos hk]
      cases κ <;> rfl
    cases κ with
    | strong => exact ⟨hi, rfl⟩
    | weak =>
      have hpair : s.increment .weak p = ((s.increment .weak p).1, true) := Prod.ext rfl ht
      simp only
      rw [hpair]
      exact ⟨hi, rfl⟩

theorem addRef_cells (s : State α) (κ : Kind) (ptr : MarkedPtr α) :
    (s.addRef κ ptr).1.cells = s.cells := by
  unfold State.addRef State.increment
  repeat' split
  all_goals simp_all
  all_goals grind

end Moves

/-- What `acquire` returns within two rounds: the pointer it was given, except that under
`acquire_retire_ibr` an expired one is taken for null. -/
theorem acquire_eq (B : Backend) (fuel : Nat) (s : State α) (ptr : MarkedPtr α) :
    ∃ endTS announcement, acquire B (fuel + 2) s ptr =
      some ({ s with endTS := endTS, announcement := announcement },
        if B = .ibr ∧ ptr.obj.any (fun p => s.strong p = 0) then .null else ptr) := by
  have hround : ∀ (fuel : Nat) (s : State α), protectSnapshotIbr ptr (fuel + 1) s.epoch s =
      some (s, if ptr.obj.any (fun p => s.strong p = 0) then .null else ptr) := by
    intro fuel s
    unfold protectSnapshotIbr
    rw [if_pos rfl]
    cases hp : ptr.obj with
    | none => simp
    | some p =>
      by_cases h0 : s.strong p = 0
      · simp [h0]
      · simp [h0]
  cases B with
  | hp => exact ⟨s.endTS, ptr.obj, by simp [acquire, acquireHp]⟩
  | ebr => exact ⟨s.endTS, s.announcement, by simp [acquire]⟩
  | hyaline => exact ⟨s.endTS, s.announcement, by simp [acquire]⟩
  | ibr =>
    by_cases he : s.endTS = s.epoch
    · refine ⟨s.endTS, s.announcement, ?_⟩
      have := hround (fuel + 1) s
      rw [← he] at this
      simpa [acquire] using this
    · refine ⟨s.epoch, s.announcement, ?_⟩
      have hstep : acquire .ibr (fuel + 2) s ptr =
          protectSnapshotIbr ptr (fuel + 1) s.epoch { s with endTS := s.epoch } := by
        simp only [acquire]
        rw [protectSnapshotIbr, if_neg he]
      rw [hstep]
      have := hround fuel { s with endTS := s.epoch }
      simpa using this

section Steps
variable {B : Backend} {s s' : State α}

theorem Inv.frame {hand : List (Kind × α)} (h : Inv B hand s) (endTS : Nat)
    (announcement : Option α) (epoch : Nat) :
    Inv B hand { s with endTS := endTS, announcement := announcement, epoch := epoch } :=
  ⟨h.strong, h.weak, h.dispose, h.own⟩

theorem Inv.makeShared (h : Inv B [] s) {p : α} (hp : s.weak p = 0) :
    Inv B [(.strong, p)] { s with
      strong := Function.update s.strong p 1
      weak := Function.update s.weak p 1 } := by
  have hw := h.weak p
  have hs := h.strong p
  have h0 : s.strong p = 0 := by
    by_contra hne
    have : s.heldByStrong p = 1 := if_pos (Nat.pos_of_ne_zero hne)
    omega
  have hdue : (retired s.pending).count (p, .dispose) = 0 := by
    have : s.heldByStrong p = (retired s.pending).count (p, .dispose) := if_neg (by omega)
    omega
  refine ⟨fun q => ?_, fun q => ?_, fun q hq => ?_, h.own⟩
  · by_cases hq : q = p
    · subst hq
      simp only [State.references, List.count_nil] at hs
      simp only [State.references, Function.update_self, List.count_singleton_self]
      omega
    · have := h.strong q
      simpa [State.references, Function.update_of_ne hq, List.count_singleton, Ne.symm hq] using this
  · by_cases hq : q = p
    · subst hq
      simp only [State.references, List.count_nil] at hw
      simp only [State.references, State.heldByStrong, Function.update_self]
      simp
      omega
    · have := h.weak q
      simpa [State.references, State.heldByStrong, Function.update_of_ne hq, List.count_singleton]
        using this
  · by_cases hqp : q = p
    · subst hqp
      exact hdue
    · exact h.dispose q (by simpa [Function.update_of_ne hqp] using hq)

/-- A copy of a kept pointer replaces what a location holds. -/
theorem Inv.storeCopy (h : Inv B [] s) {i : Nat} {c : Cell α} (hi : s.cells[i]? = some c)
    {ptr : MarkedPtr α} (hk : s.kept c.kind ptr = true) :
    Inv B [] ((((s.addRef c.kind ptr).1).setCell i { c with ptr := (s.addRef c.kind ptr).2 }).retireOld
      B c.kind c.ptr) := by
  obtain ⟨ha, he⟩ := h.addRef hk
  rw [he]
  refine Inv.retireOld (Inv.setCell ha ?_)
  rw [addRef_cells]
  exact hi

theorem Inv.load (h : Inv B [] s) {i : Nat} {c : Cell α} (hi : s.cells[i]? = some c)
    {ptr : MarkedPtr α} (hn : Acquire.load B 2 s c.kind c.ptr = some (s', ptr)) (a : Bool) :
    Inv B [] (s'.push ⟨a, c.kind, ptr⟩) := by
  obtain ⟨endTS, announcement, he⟩ := acquire_eq B 0 s c.ptr
  simp only [Acquire.load, he, Option.map_some, Option.some.injEq] at hn
  have hf := h.frame endTS announcement s.epoch
  have hk : State.kept { s with endTS := endTS, announcement := announcement } c.kind
      (if B = .ibr ∧ c.ptr.obj.any (fun p => s.strong p = 0) then .null else c.ptr) = true := by
    split
    · rfl
    · exact hf.kept_cell hi
  obtain ⟨ha, hptr⟩ := Inv.addRef hf hk
  rw [hn] at ha hptr
  simp only at hptr
  rw [← hptr] at ha
  exact ha.push a

theorem Inv.next (h : Inv B [] s) {l : Label α} (hu : Unmixed B s l) (hn : next B s l = some s') :
    Inv B [] s' := by
  cases l with
  | makeShared p =>
    simp only [Acquire.next] at hn
    split at hn
    · rename_i hp
      cases hn
      exact Inv.push (h.makeShared hp) false
    · cases hn
  | newAtomic κ =>
    cases hn
    have hnull : Inv B (handOf κ .null ++ []) s := h
    exact hnull.push true
  | addRef κ ptr =>
    simp only [Acquire.next] at hn
    split at hn
    · rename_i hk
      cases hn
      obtain ⟨ha, he⟩ := h.addRef hk
      rw [he]
      exact ha.push false
    · cases hn
  | destroy i =>
    obtain ⟨c, hc, rfl⟩ := Option.map_eq_some_iff.mp hn
    have he := h.eraseCell hc
    unfold handOf at he
    split
    · rename_i p hp
      simp only [hp] at he
      split
      · exact he.retire
      · exact he.decrement
    · rename_i hp
      simp only [hp] at he
      exact he
  | setMark i mark =>
    obtain ⟨c, hc, rfl⟩ := Option.map_eq_some_iff.mp hn
    refine h.cells fun κ p => ?_
    have := sum_map_set (refers κ p) s.cells i { c with ptr := { c.ptr with mark := mark } } c hc
    have hr : refers κ p { c with ptr := { c.ptr with mark := mark } } = refers κ p c := rfl
    omega
  | load i =>
    simp only [Acquire.next, Option.bind_eq_bind, Option.bind_eq_some_iff] at hn
    obtain ⟨c, hc, hn⟩ := hn
    split at hn
    · obtain ⟨⟨t, ptr⟩, hl, hn⟩ := Option.bind_eq_some_iff.mp hn
      cases hn
      exact h.load hc hl false
    · cases hn
  | store i j =>
    simp only [Acquire.next, Option.bind_eq_bind, Option.bind_eq_some_iff] at hn
    obtain ⟨c, hc, d, hd, hn⟩ := hn
    split at hn
    · rename_i hcond
      cases hn
      obtain ⟨hca, hda, hk⟩ := hcond
      have hij : j ≠ i := by
        rintro rfl
        rw [hc] at hd
        cases hd
        exact hda hca
      have hnull : Inv B (handOf d.kind .null ++ []) s := h
      have hmoved : Inv B (handOf c.kind d.ptr ++ []) (s.setCell j { d with ptr := .null }) := by
        rw [hk]
        exact hnull.setCell hd
      refine Inv.retireOld (Inv.setCell hmoved ?_)
      simp only [State.setCell, List.getElem?_set_ne hij, hc]
    · cases hn
  | storeCopy i ptr =>
    simp only [Acquire.next, Option.bind_eq_bind, Option.bind_eq_some_iff] at hn
    obtain ⟨c, hc, hn⟩ := hn
    split at hn
    · rename_i hcond
      cases hn
      exact h.storeCopy hc hcond.2
    · cases hn
  | compareAndSwap i expected desired =>
    simp only [Acquire.next, Option.bind_eq_bind, Option.bind_eq_some_iff] at hn
    obtain ⟨c, hc, hn⟩ := hn
    split at hn
    · rename_i hcond
      split at hn
      · cases hn
        exact h.storeCopy hc hcond.2
      · cases hn
        exact h
    · cases hn
  | exchange i j =>
    simp only [Acquire.next, Option.bind_eq_bind, Option.bind_eq_some_iff] at hn
    obtain ⟨c, hc, d, hd, hn⟩ := hn
    split at hn
    · rename_i hcond
      cases hn
      refine h.cells fun κ p => ?_
      have h1 := sum_map_set (refers κ p) s.cells i { c with ptr := d.ptr } c hc
      have h2 := sum_map_set (refers κ p) (s.cells.set i { c with ptr := d.ptr }) j
        { d with ptr := c.ptr } d (by rw [List.getElem?_set_ne hcond.1, hd])
      have hr1 : refers κ p { c with ptr := d.ptr } = refers κ p d := by
        simp [refers, hcond.2]
      have hr2 : refers κ p { d with ptr := c.ptr } = refers κ p c := by
        simp [refers, hcond.2]
      simp only [State.setCell]
      omega
    · cases hn
  | eject k =>
    obtain ⟨⟨p, type, applied⟩, hk, rfl⟩ := Option.map_eq_some_iff.mp hn
    -- the two types are one: under Hyaline by the condition, else they always are
    have htype : applied = type := by
      by_cases hB : B = .hyaline
      · exact hu hB _ hk
      · exact h.own hB _ (List.mem_of_getElem? hk)
    subst htype
    exact h.eject hk
  | handOver =>
    cases hn
    exact ⟨h.strong, h.weak, h.dispose, h.own⟩
  | advanceEpoch =>
    cases hn
    exact h.frame s.endTS s.announcement (s.epoch + 1)
  | announce =>
    cases hn
    exact h.frame s.epoch s.announcement s.epoch

theorem reach_inv (h : ((machine B α).restrict (Unmixed B)).Reach s) : Inv B [] s := by
  refine h.invariant (I := Inv B []) ?_ ?_
  · intro s hs
    cases hs
    exact inv_initial
  · intro s l s' hi hn
    obtain ⟨hu, hn⟩ := Machine.restrict_next.mp hn
    exact hi.next hu hn

end Steps

/-- The case in which `load` misses: `acquire_retire_ibr`, and a weak location whose object
has expired. -/
def Misses (B : Backend) (s : State α) (c : Cell α) : Prop :=
  B = .ibr ∧ c.kind = .weak ∧ ∃ p, c.ptr.obj = some p ∧ s.strong p = 0

/-- In every state that a thread reaches with some backend, `load` of a location with any
backend returns the object and the mark stored there, unless it is the one case above. With
Hyaline, as long as no entry of a mixed batch has been ejected. -/
theorem load_agrees_iff (B B' : Backend) {s : State α}
    (h : ((machine B α).restrict (Unmixed B)).Reach s) {i : Nat} {c : Cell α}
    (hi : s.cells[i]? = some c) (fuel : Nat) :
    ∃ s' ptr, load B' (fuel + 2) s c.kind c.ptr = some (s', ptr) ∧
      (ptr = c.ptr ↔ ¬ Misses B' s c) := by
  have hinv := reach_inv h
  obtain ⟨endTS, announcement, he⟩ := acquire_eq B' fuel s c.ptr
  have hf := hinv.frame endTS announcement s.epoch
  by_cases hm : B' = .ibr ∧ c.ptr.obj.any (fun p => s.strong p = 0) = true
  · -- the location is a weak one: an object in a strong one has strong references
    obtain ⟨hB, hany⟩ := hm
    obtain ⟨p, hp, h0⟩ : ∃ p, c.ptr.obj = some p ∧ s.strong p = 0 := by
      cases hobj : c.ptr.obj with
      | none => simp [hobj] at hany
      | some p => exact ⟨p, rfl, by simpa [hobj] using hany⟩
    have hweak : c.kind = .weak := by
      cases hκ : c.kind with
      | weak => rfl
      | strong =>
        have hk := hinv.kept_cell hi
        simp [State.kept, hp, hκ, State.count, h0] at hk
    refine ⟨_, .null, by simp only [load, he, if_pos (And.intro hB hany)]; rfl, ?_⟩
    constructor
    · intro hnull
      rw [← hnull] at hp
      cases hp
    · intro hn
      exact absurd ⟨hB, hweak, p, hp, h0⟩ hn
  · have hk := hf.kept_cell hi
    obtain ⟨_, hptr⟩ := hf.addRef hk
    have hload : load B' (fuel + 2) s c.kind c.ptr =
        some (State.addRef { s with endTS := endTS, announcement := announcement } c.kind c.ptr) := by
      simp only [load, he, if_neg hm, Option.map_some]
    refine ⟨_, c.ptr, hload.trans (congrArg some (Prod.ext rfl hptr)), ?_⟩
    simp only [true_iff]
    intro hex
    obtain ⟨hB, _, p, hp, h0⟩ := hex
    exact hm ⟨hB, by simp [hp, h0]⟩

/-- An object with one strong reference, stored with mark `1` in an `atomic_weak_ptr`. -/
def stored : List (Label Nat) :=
  [.makeShared 0, .newAtomic .weak, .addRef .weak ⟨some 0, 1⟩, .store 1 2]

/-- With `acquire_retire_ibr`, while the object lives. -/
theorem load_agrees_live : ∃ s s' ptr, ((machine .ibr Nat).restrict (Unmixed .ibr)).Reach s ∧
    s.cells[1]? = some ⟨true, .weak, ⟨some 0, 1⟩⟩ ∧
    load .ibr 2 s .weak ⟨some 0, 1⟩ = some (s', ptr) ∧ ptr = ⟨some 0, 1⟩ := by
  have he : ∃ s, ((machine .ibr Nat).restrict (Unmixed .ibr)).exec stored .initial = some s ∧
      s.cells[1]? = some ⟨true, .weak, ⟨some 0, 1⟩⟩ ∧ s.strong 0 = 1 := ⟨_, rfl, rfl, rfl⟩
  obtain ⟨s, he, hc, h1⟩ := he
  have hr := (Machine.Reach.init (M := (machine .ibr Nat).restrict (Unmixed .ibr)) rfl).exec he
  obtain ⟨s', ptr, hl, hptr⟩ := load_agrees_iff .ibr .ibr hr hc 0
  refine ⟨s, s', ptr, hr, hc, hl, hptr.mpr ?_⟩
  intro hex
  obtain ⟨_, _, p, hp, h0⟩ := hex
  cases hp
  rw [h1] at h0
  cases h0

/-- The only strong reference is dropped: with `acquire_retire_ibr` a `load` of the
location is null, with the other backends it is the expired object with its mark. -/
theorem load_misses_expired : ¬ ∀ (B : Backend) (s : State Nat), (machine B Nat).Reach s →
    ∀ (i : Nat) (c : Cell Nat), s.cells[i]? = some c → c.atomic = true →
      ∃ s' ptr, load B 2 s c.kind c.ptr = some (s', ptr) ∧ ptr = c.ptr := by
  intro hall
  have he : ∃ s, (machine .ibr Nat).exec (stored ++ [.destroy 0]) .initial = some s ∧
      s.cells[0]? = some ⟨true, .weak, ⟨some 0, 1⟩⟩ ∧
      (load .ibr 2 s .weak ⟨some 0, 1⟩).map Prod.snd = some .null := ⟨_, rfl, rfl, rfl⟩
  obtain ⟨s, he, hc, hl⟩ := he
  have hr := (Machine.Reach.init (M := machine .ibr Nat) rfl).exec he
  obtain ⟨s', ptr, hs, hptr⟩ := hall .ibr s hr 0 _ hc rfl
  rw [hs, hptr] at hl
  cases hl

end Cdrc.Acquire
