import Cdrc.Hyaline.Pointers

/-! # No deleted object is accessed

One lemma for each change of one unit: it moves to another place, it is put into a location before
it is counted, it is counted, it is retired, it is given up. A unit that a thread in its section has
seen in a location is guarded from then on: when it leaves the location it is retired, and the
section is among those that are open then. An operation that is begun inside another one, by a
destructor that its `retire` runs, has a unit of its own in its hands and owes another. -/
namespace Cdrc.Hyaline.Pointers
open Cdrc.Lib.Runs
open Cdrc.Hyaline.Batches (Config Grace)

/-! ## Steps of the backend -/

section Backend
variable {cfg : Config} {n : Nat} {s s' : State} {hy' : Batches.State} {tr tr' : Tracker.State}
  {t u v : Nat}

theorem State.Guarded.keep (h : s.Guarded t u) (hb : s'.hy.tracker.begun t = s.hy.tracker.begun t)
    (ho : ∀ i, (s.share u).place = .node i → s'.opened i = s.opened i)
    (hp : (s'.share u).place = (s.share u).place) : s'.Guarded t u := by
  rcases h with ⟨x, h⟩ | ⟨v, h⟩ | ⟨i, h, hm⟩
  · exact Or.inl ⟨x, hp.trans h⟩
  · exact Or.inr (Or.inl ⟨v, hp.trans h⟩)
  · refine Or.inr (Or.inr ⟨i, hp.trans h, ?_⟩)
    rw [ho i h, hb]
    exact hm

/-- A thread that is in its section stays in it. -/
def Stays (tr tr' : Tracker.State) (t : Nat) : Prop :=
  tr.sec t = .inside → tr'.sec t = .inside ∧ tr'.begun t = tr.begun t

theorem stays_of_eq (hs : tr'.sec = tr.sec) (hb : tr'.begun = tr.begun) (u : Nat) : Stays tr tr' u := by
  intro h
  rw [hs, hb]
  exact ⟨h, rfl⟩

theorem stays_setSec {c : Tracker.Section} (hne : tr.sec t ≠ .inside)
    (hs : tr'.sec = Function.update tr.sec t c) (hb : tr'.begun = tr.begun) (u : Nat) :
    Stays tr tr' u := by
  intro h
  have hu : u ≠ t := by
    rintro rfl
    exact hne h
  rw [hs, hb, Function.update_of_ne hu]
  exact ⟨h, rfl⟩

theorem stays_traverse {fs : List Tracker.Frame} (h : tr.traverse t fs (tr.sec t) = some tr') (u : Nat) :
    Stays tr tr' u := by
  have hne : tr.sec t ≠ .inside := by
    intro hs
    rw [hs] at h
    cases h
  unfold Tracker.State.traverse at h
  split at h
  · cases h
  · cases h
  · cases h
    exact stays_setSec hne (by rfl) (by rfl) u
  · split at h
    · cases h
      exact stays_of_eq rfl rfl u
    · cases h
      exact stays_setSec hne (by rfl) (by rfl) u
  · split at h
    · cases h
      exact stays_of_eq rfl rfl u
    · cases h
      exact stays_setSec hne (by rfl) (by rfl) u
  · split at h
    · split at h <;> (cases h; exact stays_setSec hne (by rfl) (by rfl) u)
    · cases h
      exact stays_of_eq rfl rfl u

theorem stays_run (h : tr.run n t (tr.stack t) = some tr') (u : Nat) : Stays tr tr' u := by
  cases hs : tr.stack t with
  | nil =>
    rw [hs] at h
    cases h
  | cons f fs =>
    rw [hs] at h
    cases f with
    | guard => exact stays_traverse h u
    | addBatch b curr cnt i =>
      simp only [Tracker.State.run, Tracker.State.addStep, Tracker.State.freeStep, Option.or_none] at h
      split at h
      · split at h <;> (cases h; exact stays_of_eq rfl rfl u)
      · split at h
        · split at h <;> (cases h; exact stays_of_eq rfl rfl u)
        · cases h
          exact stays_of_eq rfl rfl u
    | setNext b curr cnt i prev =>
      simp only [Tracker.State.run, Tracker.State.addStep, Tracker.State.freeStep, Option.or_none] at h
      split at h <;> (cases h; exact stays_of_eq rfl rfl u)
    | push b curr cnt i prev =>
      simp only [Tracker.State.run, Tracker.State.addStep, Tracker.State.freeStep, Option.or_none] at h
      split at h
      · split at h <;> (cases h; exact stays_of_eq rfl rfl u)
      · cases h
        exact stays_of_eq rfl rfl u
    | advance b curr cnt i =>
      simp only [Tracker.State.run, Tracker.State.addStep, Tracker.State.freeStep, Option.or_none] at h
      split at h <;> (cases h; exact stays_of_eq rfl rfl u)
    | freeStart b refs =>
      simp only [Tracker.State.run, Tracker.State.addStep, Tracker.State.freeStep, Option.none_or] at h
      split at h <;> (cases h; exact stays_of_eq rfl rfl u)
    | freeNode b p =>
      simp only [Tracker.State.run, Tracker.State.addStep, Tracker.State.freeStep, Option.none_or] at h
      split at h <;> (cases h; exact stays_of_eq rfl rfl u)
    | callback b p q =>
      simp only [Tracker.State.run, Tracker.State.addStep, Tracker.State.freeStep, Option.none_or] at h
      split at h <;> (cases h; exact stays_of_eq rfl rfl u)

theorem stays_backendRun {hy : Batches.State} (h : Batches.next cfg hy (.run t) = some hy') :
    hy'.created = hy.created ∧ ∀ u, Stays hy.tracker hy'.tracker u := by
  simp only [Batches.next] at h
  split at h
  · simp only [Batches.State.loop] at h
    split at h
    · cases h
      exact ⟨rfl, stays_of_eq rfl rfl⟩
    · split at h
      · split at h <;> (cases h; exact ⟨rfl, stays_of_eq rfl rfl⟩)
      · cases h
        exact ⟨rfl, stays_of_eq rfl rfl⟩
  · obtain ⟨tr', htr, rfl⟩ := Option.map_eq_some_iff.mp h
    exact ⟨Batches.record_created, stays_run htr⟩

/-- The backend takes a step, and the threads in operations stay in their sections. -/
theorem Units.backend (h : Units n s) (hi : Batches.Inv n hy') (hg : Grace n hy' s.opened)
    (hc : hy'.created = s.hy.created)
    (hs : ∀ t, s.Busy t → Stays s.hy.tracker hy'.tracker t) :
    Units n { s with hy := hy' } := by
  have hstay : ∀ t, s.Busy t → hy'.tracker.begun t = s.hy.tracker.begun t :=
    fun t ht => (hs t ht (h.busy t ht).2).2
  refine ⟨hi, hg, h.locs, h.hands, h.debts, ?_, ?_, fun u hu c ho => ?_, fun t u hr => ?_,
    fun t ht => ?_, h.above⟩
  · rw [hc]
    exact h.nodes
  · rw [hc]
    exact h.placed
  · have how := h.owes u hu c ho
    have hb := hstay c.1 (h.busy_of_owed hu ho)
    refine ⟨how.guarded.keep hb (fun _ _ => rfl) rfl, how.src_lt, how.src_obj, ?_⟩
    exact how.src.imp_right fun hg => hg.keep hb (fun _ _ => rfl) rfl
  · obtain ⟨hu, hg⟩ := h.reads t u hr
    exact ⟨hu, hg.keep (hstay t (State.Reads.busy hr)) (fun _ _ => rfl) rfl⟩
  · obtain ⟨hn, hin⟩ := h.busy t ht
    exact ⟨hn, (hs t ht hin).1⟩

theorem Inv.backend (h : Inv n s) (hu : Units n { s with hy := hy' }) : Inv n { s with hy := hy' } :=
  ⟨hu, h.fault, h.counted.count, h.counted.alive⟩

theorem Inv.run (hn : ∀ m, cfg.numThreads ≤ cfg.threshold m) (h : Inv cfg.numThreads s)
    (hr : s.backend cfg (.run t) = some s') : Inv cfg.numThreads s' := by
  obtain ⟨hy', hy, rfl⟩ := Option.map_eq_some_iff.mp hr
  obtain ⟨hc, hs⟩ := stays_backendRun hy
  exact h.backend (h.toUnits.backend (h.hy.next hn hy) (h.grace.next h.hy hy) hc fun t _ => hs t)

theorem Inv.begin (hn : ∀ m, cfg.numThreads ≤ cfg.threshold m) (h : Inv cfg.numThreads s)
    (hr : s.backend cfg (.begin t) = some s') : Inv cfg.numThreads s' := by
  obtain ⟨hy', hy, rfl⟩ := Option.map_eq_some_iff.mp hr
  have hi := h.hy.next hn hy
  have hg := h.grace.next h.hy hy
  obtain ⟨_, hl⟩ := Option.ite_none_right_eq_some.mp hy
  obtain ⟨tr', htr, rfl⟩ := Option.map_eq_some_iff.mp hl
  obtain ⟨_, htr⟩ := Option.ite_none_right_eq_some.mp htr
  cases htr
  refine h.backend (h.toUnits.backend hi hg rfl fun u _ hin => ?_)
  change (s.hy.tracker.begin t).sec u = .inside ∧ (s.hy.tracker.begin t).begun u = s.hy.tracker.begun u
  unfold Tracker.State.begin
  split
  · next hout =>
    have hu : u ≠ t := by
      rintro rfl
      rw [hin] at hout
      cases hout
    simp [Tracker.State.setStack, Tracker.State.setSec, Function.update_of_ne hu, hin]
  · exact ⟨hin, rfl⟩

theorem Inv.end_ (hn : ∀ m, cfg.numThreads ≤ cfg.threshold m) (h : Inv cfg.numThreads s)
    (hlevel : s.level t = 0) (hop : s.op (s.call t) = .idle) (hsn : s.snaps t = [])
    (hr : s.backend cfg (.end_ t) = some s') : Inv cfg.numThreads s' := by
  obtain ⟨hy', hy, rfl⟩ := Option.map_eq_some_iff.mp hr
  have hi := h.hy.next hn hy
  have hg := h.grace.next h.hy hy
  obtain ⟨_, hl⟩ := Option.ite_none_right_eq_some.mp hy
  obtain ⟨tr', htr, rfl⟩ := Option.map_eq_some_iff.mp hl
  obtain ⟨_, htr⟩ := Option.ite_none_right_eq_some.mp htr
  cases htr
  refine h.backend (h.toUnits.backend hi hg rfl fun u hb hin => ?_)
  have hu : u ≠ t := by
    intro he
    subst he
    rcases hb with ⟨k, hb⟩ | hb
    · rw [State.call, hlevel] at hop
      rcases Nat.eq_zero_or_pos k with hk | hk
      · exact hb (hk ▸ hop)
      · exact hb (h.above u k (by omega))
    · exact hb hsn
  change Function.update s.hy.tracker.sec t _ u = .inside ∧ _
  rw [Function.update_of_ne hu]
  exact ⟨hin, rfl⟩

end Backend

/-! ## Steps of the pointers -/

section Steps
variable {cfg : Config} {n : Nat} {s s' : State} {t u v x p : Nat} {c : Nat × Nat}

/-- The counts are another matter. -/
theorem Units.setCounts (h : Units n s) (c : Nat → Nat) (a : Nat → Bool) (f : Bool) :
    Units n { s with count := c, alive := a, fault := f } :=
  ⟨h.hy, h.grace, h.locs, h.hands, h.debts, h.nodes, h.placed, fun u hu c ho =>
    ⟨(h.owes u hu c ho).guarded, (h.owes u hu c ho).src_lt, (h.owes u hu c ho).src_obj,
      (h.owes u hu c ho).src⟩, h.reads, h.busy, h.above⟩

theorem Units.setDepth (h : Units n s) (d : Nat × Nat → Nat) : Units n { s with depth := d } :=
  ⟨h.hy, h.grace, h.locs, h.hands, h.debts, h.nodes, h.placed, fun u hu c ho =>
    ⟨(h.owes u hu c ho).guarded, (h.owes u hu c ho).src_lt, (h.owes u hu c ho).src_obj,
      (h.owes u hu c ho).src⟩, h.reads, h.busy, h.above⟩

/-- So is the level, as long as the operations above it are idle. -/
theorem Units.setLevel (h : Units n s) (l : Nat → Nat) (hl : ∀ t k, l t < k → s.op (t, k) = .idle) :
    Units n { s with level := l } :=
  ⟨h.hy, h.grace, h.locs, h.hands, h.debts, h.nodes, h.placed, fun u hu c ho =>
    ⟨(h.owes u hu c ho).guarded, (h.owes u hu c ho).src_lt, (h.owes u hu c ho).src_obj,
      (h.owes u hu c ho).src⟩, h.reads, h.busy, hl⟩

theorem Units.nest (h : Units n s) (t : Nat) : Units n (s.nest t) := by
  refine h.setLevel _ fun w k hk => h.above w k ?_
  by_cases hw : w = t
  · subst hw
    rw [Function.update_self] at hk
    split at hk <;> omega
  · rwa [Function.update_of_ne hw] at hk

/-- The operation that is begun next. -/
theorem Units.nest_idle (h : Units n s) (t : Nat) : (s.nest t).op ((s.nest t).call t) = .idle := by
  change s.op (t, Function.update s.level t _ t) = .idle
  rw [Function.update_self]
  split
  · next hop => exact hop
  · exact h.above t _ (Nat.lt_succ_self _)

theorem Units.unnest (h : Units n s) (t : Nat) : Units n (s.unnest t) := by
  refine h.setLevel _ fun w k hk => ?_
  by_cases hw : w = t
  · subst hw
    rw [Function.update_self] at hk
    split at hk
    · next hop =>
      rcases Nat.lt_or_ge (s.level w) k with hlt | hge
      · exact h.above w k hlt
      · obtain rfl : k = s.level w := by omega
        exact hop
    · exact h.above w k hk
  · rw [Function.update_of_ne hw] at hk
    exact h.above w k hk

/-- One operation changes: its thread is in its section if it goes on, and the others are if they
were. -/
theorem Units.busy_update (h : Units n s) {w : Nat} {o : Op} (hw : s'.Busy w)
    (hop : s'.op = Function.update s.op c o) (hs : s'.snaps = s.snaps)
    (hb : o ≠ .idle → c.1 < n ∧ s.hy.tracker.sec c.1 = .inside) :
    w < n ∧ s.hy.tracker.sec w = .inside := by
  rcases hw with ⟨k, hw⟩ | hw
  · rw [hop, Function.update_apply] at hw
    split at hw
    · next hc =>
      subst hc
      exact hb hw
    · exact h.busy w (Or.inl ⟨k, hw⟩)
  · rw [hs] at hw
    exact h.busy w (Or.inr hw)

/-- What is read then was read before, or by the operation. -/
theorem State.Reads.of_update {w : Nat} {o : Op} (h : s'.Reads w u)
    (hop : s'.op = Function.update s.op c o) (hs : s'.snaps = s.snaps) :
    w = c.1 ∧ o.read = some u ∨ s.Reads w u := by
  rcases h with h | ⟨k, h⟩
  · rw [hs] at h
    exact Or.inr (Or.inl h)
  · rw [hop, Function.update_apply] at h
    split at h
    · next hc => exact Or.inl ⟨congrArg Prod.fst hc, h⟩
    · exact Or.inr (Or.inr ⟨k, h⟩)

/-- The operation is not above the innermost one. -/
theorem Units.above_update (h : Units n s) (hc : c.2 ≤ s.level c.1) (o : Op) (w k : Nat)
    (hk : s.level w < k) : Function.update s.op c o (w, k) = .idle := by
  rw [Function.update_of_ne]
  · exact h.above w k hk
  · intro he
    subst he
    exact absurd hk (by simpa using hc)

/-- An operation goes on, with the same units in its hands and owed. -/
theorem Units.setOp (h : Units n s) {o : Op} (hc : c.2 ≤ s.level c.1) (hh : o.hand = (s.op c).hand)
    (hd : o.debt = (s.op c).debt) (hr : ∀ u, o.read = some u → u < s.made ∧ s.Guarded c.1 u)
    (hb : o ≠ .idle → c.1 < n ∧ s.hy.tracker.sec c.1 = .inside) : Units n (s.setOp c o) := by
  have hop : ∀ w, (s.setOp c o).op w = if w = c then o else s.op w := fun w => Function.update_apply _ _ _ _
  refine ⟨h.hy, h.grace, h.locs, fun w u => ?_, fun w u => ?_, h.nodes, h.placed,
    fun u hu w ho => ?_, fun w u hu => ?_, fun w hw => ?_, h.above_update hc o⟩
  · refine Iff.trans ?_ (h.hands w u)
    rw [hop]
    split
    · next hw => rw [hw, hh]
    · rfl
  · refine Iff.trans ?_ (h.debts w u)
    rw [hop]
    split
    · next hw => rw [hw, hd]
    · rfl
  · have how := h.owes u hu w ho
    exact ⟨how.guarded, how.src_lt, how.src_obj, how.src⟩
  · rcases hu.of_update (s := s) rfl rfl with ⟨hw, hread⟩ | hu
    · subst hw
      exact hr u hread
    · exact h.reads w u hu
  · exact h.busy_update hw rfl rfl hb

theorem State.push_share (h : Share) (hu : u < s.made) : (s.push h).share u = s.share u :=
  Function.update_of_ne (Nat.ne_of_lt hu) _ _

theorem State.push_new (h : Share) : (s.push h).share s.made = h := Function.update_self _ _ _

theorem State.Guarded.push (h : s.Guarded t u) (hu : u < s.made) (hs : Share) :
    (s.push hs).Guarded t u :=
  h.keep rfl (fun _ _ => rfl) (congrArg Share.place (State.push_share hs hu))

theorem Owes.push (h : Owes s t u) (hu : u < s.made) (hs : Share) : Owes (s.push hs) t u := by
  have hlt := Nat.lt_trans h.src_lt hu
  refine ⟨h.guarded.push hu hs, ?_, ?_, ?_⟩
  · rw [State.push_share hs hu]
    exact h.src_lt
  · rw [State.push_share hs hu, State.push_share hs hlt]
    exact h.src_obj
  · rw [State.push_share hs hu, State.push_share hs hlt]
    exact h.src.imp_right fun hg => hg.push hlt hs

/-- What is true of the unit `u`, with one more unit. -/
theorem push_cases {h : Share} {P : Nat → Share → Prop} :
    (u < (s.push h).made ∧ P u ((s.push h).share u)) ↔
      u < s.made ∧ P u (s.share u) ∨ u = s.made ∧ P u h := by
  constructor
  · intro hu
    rcases Nat.lt_succ_iff_lt_or_eq.mp (show u < s.made + 1 from hu.1) with hlt | rfl
    · rw [State.push_share h hlt] at hu
      exact Or.inl ⟨hlt, hu.2⟩
    · rw [State.push_new] at hu
      exact Or.inr ⟨rfl, hu.2⟩
  · intro hu
    rcases hu with ⟨hlt, hp⟩ | ⟨rfl, hp⟩
    · rw [State.push_share h hlt]
      exact ⟨Nat.lt_succ_of_lt hlt, hp⟩
    · rw [State.push_new]
      exact ⟨Nat.lt_succ_self _, hp⟩

/-- A new `rc_ptr`. -/
theorem Units.pushRc (h : Units n s) : Units n (s.push ⟨p, .rc, none, 0⟩) := by
  refine ⟨h.hy, h.grace, fun x u => ?_, fun t u => ?_, fun t u => ?_, fun i hi he => ?_,
    fun u hu i hp => ?_, fun u hu t ho => ?_, fun t u hr => ?_, h.busy, h.above⟩
  · refine (h.locs x u).trans ?_
    rw [push_cases (P := fun _ h => h.place = .loc x)]
    simp
  · refine (h.hands t u).trans ?_
    rw [push_cases (P := fun _ h => h.place = .hand t)]
    simp
  · refine (h.debts t u).trans ?_
    rw [push_cases (P := fun _ h => h.owed = some t)]
    simp
  · exact (push_cases (P := fun _ h => h.place = .node i)).mpr (Or.inl (h.nodes i hi he))
  · rcases (push_cases (P := fun _ h => h.place = .node i)).mp ⟨hu, hp⟩ with ⟨hu, hp⟩ | ⟨_, hp⟩
    · exact h.placed u hu i hp
    · cases hp
  · rcases (push_cases (P := fun _ h => h.owed = some t)).mp ⟨hu, ho⟩ with ⟨hu, ho⟩ | ⟨_, ho⟩
    · exact (h.owes u hu t ho).push hu _
    · cases ho
  · obtain ⟨hu, hg⟩ := h.reads t u hr
    exact ⟨Nat.lt_succ_of_lt hu, hg.push hu _⟩

/-- A unit more of an object that is counted. -/
theorem Inv.copy (h : Inv n s) (hpos : 0 < s.count p) :
    Inv n ((s.incr p).push ⟨p, .rc, none, 0⟩) := by
  refine ⟨(h.toUnits.setCounts _ _ _).pushRc, ?_, ?_⟩
  · change (s.fault || !s.alive p) = false
    rw [h.fault, (h.counted.alive p).mpr hpos]
    rfl
  · refine h.counted.add hpos (fun q => ?_) rfl rfl
    rw [card_paid_push _ (by simp)]
    simp only [true_and]
    rfl

theorem Inv.make (h : Inv n s) (hdead : s.alive p = false) :
    Inv n { s.push ⟨p, .rc, none, 0⟩ with
      count := Function.update s.count p 1
      alive := Function.update s.alive p true } := by
  have hzero : s.count p = 0 := by
    have ha := (h.counted.alive p).not.mp (by simp [hdead])
    omega
  refine ⟨(h.toUnits.pushRc (p := p)).setCounts _ _ s.fault, h.fault, fun q => ?_, fun q => ?_⟩
  · change Function.update s.count p 1 q = ((s.push ⟨p, .rc, none, 0⟩).paid q).card
    rw [card_paid_push _ (by simp), ← h.counted.count]
    by_cases hq : q = p
    · simp [hq, hzero]
    · simp [hq]
  · change Function.update s.alive p true q = true ↔ 0 < Function.update s.count p 1 q
    by_cases hq : q = p
    · simp [hq]
    · rw [Function.update_of_ne hq, Function.update_of_ne hq]
      exact h.counted.alive q

theorem State.setShare_self (h : Share) : (s.setShare u h).share u = h := Function.update_self _ _ _

theorem State.setShare_ne (h : Share) (hv : v ≠ u) : (s.setShare u h).share v = s.share v :=
  Function.update_of_ne hv _ _

/-- A unit is given up that nobody relies on. -/
theorem Units.gone (h : Units n s) {e : Nat → Bool}
    (hplace : (s.share u).place = .rc ∨ ∃ i, (s.share u).place = .node i)
    (hg : ∀ t, s.Busy t → ¬ s.Guarded t u)
    (hsrc : ∀ v < s.made, ∀ c, (s.share v).owed = some c → (s.share v).src ≠ u)
    (he : ∀ i, e i = false → s.ejected i = false ∧ (s.share u).place ≠ .node i) :
    Units n { s.move u .gone with ejected := e } := by
  have hguard : ∀ t v, s.Busy t → s.Guarded t v → (s.move u .gone).Guarded t v := by
    intro t v ht hv
    refine hv.keep rfl (fun _ _ => rfl) (congrArg Share.place (State.setShare_ne _ ?_))
    rintro rfl
    exact hg t ht hv
  have hplaces : ∀ v q, q ≠ .gone → (∀ i, q ≠ .node i) → q ≠ .rc →
      (((s.move u .gone).share v).place = q ↔ (s.share v).place = q) := by
    intro v q h1 h2 h3
    by_cases hv : v = u
    · subst hv
      rw [State.move, State.setShare_self]
      refine ⟨fun hp => absurd hp.symm h1, fun hp => ?_⟩
      rcases hplace with hr | ⟨i, hr⟩
      · exact absurd (hp.symm.trans hr) h3
      · exact absurd (hp.symm.trans hr) (h2 i)
    · rw [State.move, State.setShare_ne _ hv]
  have howed : ∀ v, ((s.move u .gone).share v).owed = (s.share v).owed := by
    intro v
    by_cases hv : v = u
    · subst hv
      rw [State.move, State.setShare_self]
    · rw [State.move, State.setShare_ne _ hv]
  refine ⟨h.hy, h.grace, fun x v => ?_, fun t v => ?_, fun t v => ?_, fun i hi hei => ?_,
    fun v hv i hp => ?_, fun v hv c ho => ?_, fun t v hr => ?_, h.busy, h.above⟩
  · exact (h.locs x v).trans (and_congr_right fun _ => (hplaces v _ (by simp) (by simp) (by simp)).symm)
  · exact (h.hands t v).trans (and_congr_right fun _ => (hplaces v _ (by simp) (by simp) (by simp)).symm)
  · exact (h.debts t v).trans (and_congr_right fun _ => (congrArg (· = some t) (howed v)).symm.to_iff)
  · obtain ⟨hej, hne⟩ := he i hei
    obtain ⟨hlt, hp⟩ := h.nodes i hi hej
    refine ⟨hlt, (congrArg Share.place (State.setShare_ne _ ?_)).trans hp⟩
    intro hen
    have hen : s.entry i = u := hen
    rw [hen] at hp
    exact hne hp
  · have hvu : v ≠ u := by
      rintro rfl
      have hp : ((s.move v .gone).share v).place = .node i := hp
      rw [State.move, State.setShare_self] at hp
      cases hp
    exact h.placed v hv i ((congrArg Share.place (State.setShare_ne _ hvu)).symm.trans hp)
  · have ho : (s.share v).owed = some c := (howed v).symm.trans ho
    have hbusy := h.busy_of_owed hv ho
    have how := h.owes v hv c ho
    have hvu : v ≠ u := by
      intro he
      subst he
      exact hg c.1 hbusy how.guarded
    have hsrc := hsrc v hv c ho
    have hshare : (s.move u .gone).share v = s.share v := State.setShare_ne _ hvu
    have hsshare : (s.move u .gone).share (s.share v).src = s.share (s.share v).src :=
      State.setShare_ne _ hsrc
    refine ⟨hguard c.1 v hbusy how.guarded, ?_, ?_, ?_⟩
    · exact (congrArg Share.src hshare).trans_lt how.src_lt
    · change ((s.move u .gone).share ((s.move u .gone).share v).src).obj = ((s.move u .gone).share v).obj
      rw [hshare, hsshare]
      exact how.src_obj
    · change ((s.move u .gone).share ((s.move u .gone).share v).src).place = .rc ∨
        (s.move u .gone).Guarded c.1 ((s.move u .gone).share v).src
      rw [hshare, hsshare]
      exact how.src.imp_right fun hg => hguard c.1 _ hbusy hg
  · obtain ⟨hv, hgv⟩ := h.reads t v hr
    exact ⟨hv, hguard t v (State.Reads.busy hr) hgv⟩

/-- The destructor of an `rc_ptr`. -/
theorem Inv.drop (h : Inv n s) (hv : s.unused v) : Inv n ((s.move v .gone).decr (s.share v).obj) := by
  obtain ⟨hlt, hrc, hsrc⟩ := hv
  have hpaid := h.rc_paid hlt hrc
  have hpos := h.counted.pos hpaid
  refine ⟨Units.setCounts (Units.gone (e := s.ejected) h.toUnits (Or.inl hrc) (fun t _ hg => hg.not_rc hrc)
    (fun u hu t ho => hsrc u hu (by rw [ho]; simp)) fun i hi => ⟨hi, by rw [hrc]; simp⟩) _ _ _, ?_,
    h.counted.gone hpaid⟩
  change (s.fault || !s.alive (s.share v).obj) = false
  rw [h.fault, (h.counted.alive _).mpr hpos]
  rfl

theorem State.callback_eq {i : Nat} (h : s.callback t = some i) :
    ∃ b a q fs, s.hy.tracker.stack t = .callback b (.node a) q :: fs ∧ s.hy.number a = i := by
  unfold State.callback at h
  split at h
  · next b a q fs hs => exact ⟨b, a, q, fs, hs, Option.some.inj h⟩
  · cases h

/-- A section that was open when a node was retired has ended when the node is in its callback. -/
theorem Units.not_guarded (h : Units n s) {i : Nat} (hc : s.callback t = some i)
    (hp : (s.share u).place = .node i) {w : Nat} (hw : s.Busy w) :
    ¬ s.Guarded w u := by
  obtain ⟨b, a, q, fs, hs, rfl⟩ := State.callback_eq hc
  obtain ⟨hb, hm, hf⟩ := h.hy.callback_member (hs ▸ List.mem_cons_self)
  intro hg
  rcases hg with ⟨x, hx⟩ | ⟨v, hv⟩ | ⟨j, hj, ho⟩
  · rw [hp] at hx
    cases hx
  · rw [hp] at hv
    cases hv
  · rw [hp] at hj
    cases hj
    have hkept := h.grace.kept h.hy hb hm ho (h.inSection hw)
    omega

/-- The callback of a node gives up its unit. -/
theorem Inv.eject (h : Inv n s) {i : Nat} (hc : s.callback t = some i) (he : s.ejected i = false) :
    Inv n { (s.move (s.entry i) .gone).decr (s.share (s.entry i)).obj with
      ejected := Function.update s.ejected i true } := by
  have hi : i < s.hy.created := by
    obtain ⟨b, a, q, fs, hs, rfl⟩ := State.callback_eq hc
    obtain ⟨hb, hm, _⟩ := h.hy.callback_member (hs ▸ List.mem_cons_self)
    exact h.hy.member_lt hb hm
  obtain ⟨hlt, hp⟩ := h.nodes i hi he
  have hng : ∀ w, s.Busy w → ¬ s.Guarded w (s.entry i) :=
    fun w hw => h.toUnits.not_guarded hc hp hw
  have hpaid : s.entry i ∈ s.paid (s.share (s.entry i)).obj := by
    refine State.mem_paid.mpr ⟨hlt, by simp [hp], ?_, rfl⟩
    cases ho : (s.share (s.entry i)).owed with
    | none => rfl
    | some c => exact absurd (h.owes _ hlt c ho).guarded (hng c.1 (h.busy_of_owed hlt ho))
  have hsrc : ∀ v < s.made, ∀ c, (s.share v).owed = some c → (s.share v).src ≠ s.entry i := by
    intro v hv c ho hsrc
    rcases (h.owes v hv c ho).src with hrc | hg
    · rw [hsrc, hp] at hrc
      cases hrc
    · rw [hsrc] at hg
      exact hng c.1 (h.busy_of_owed hv ho) hg
  have he' : ∀ j, Function.update s.ejected i true j = false →
      s.ejected j = false ∧ (s.share (s.entry i)).place ≠ .node j := by
    intro j hj
    have hne : j ≠ i := by
      rintro rfl
      rw [Function.update_self] at hj
      cases hj
    rw [Function.update_of_ne hne] at hj
    refine ⟨hj, ?_⟩
    rw [hp]
    intro hij
    cases hij
    exact hne rfl
  refine ⟨Units.setCounts (Units.gone h.toUnits (Or.inr ⟨i, hp⟩) hng hsrc he') _ _ _, ?_, ?_⟩
  · change (s.fault || !s.alive (s.share (s.entry i)).obj) = false
    rw [h.fault, (h.counted.alive _).mpr (h.counted.pos hpaid)]
    rfl
  · exact (h.counted.gone hpaid).keep rfl rfl rfl fun _ _ _ => Iff.rfl

/-- A unit goes to another place, where it is still guarded. -/
theorem Units.relocate (h : Units n s) {q : Place} (hmade : s'.made = s.made)
    (hshare : s'.share = (s.move u q).share) (hy : Batches.Inv n s'.hy)
    (hgrace : Grace n s'.hy s'.opened)
    (hguard : ∀ t, ∀ v < s.made, s.Busy t → s.Guarded t v → s'.Guarded t v)
    (hsrc : (s.share u).place = .rc → ∀ v < s.made, (s.share v).owed ≠ none → (s.share v).src ≠ u)
    (hlocs : ∀ x v, s'.loc x = some v ↔ v < s.made ∧ (s'.share v).place = .loc x)
    (hhands : ∀ c v, (s'.op c).hand = some v ↔ v < s.made ∧ (s'.share v).place = .hand c)
    (hnodes : ∀ i < s'.hy.created, s'.ejected i = false →
      s'.entry i < s.made ∧ (s'.share (s'.entry i)).place = .node i)
    (hplaced : ∀ v < s.made, ∀ i, (s'.share v).place = .node i → i < s'.hy.created)
    (hdebts : ∀ c, (s'.op c).debt = (s.op c).debt) (hreads : ∀ t v, s'.Reads t v → s.Reads t v)
    (hbusy : ∀ t, s'.Busy t → t < n ∧ s'.hy.tracker.sec t = .inside)
    (habove : ∀ t k, s'.level t < k → s'.op (t, k) = .idle) :
    Units n s' := by
  have hobj : ∀ v, (s'.share v).obj = (s.share v).obj := by
    intro v
    rw [hshare]
    by_cases hv : v = u
    · rw [hv, State.move, State.setShare_self]
    · rw [State.move, State.setShare_ne _ hv]
  have howed : ∀ v, (s'.share v).owed = (s.share v).owed ∧ (s'.share v).src = (s.share v).src := by
    intro v
    rw [hshare]
    by_cases hv : v = u
    · rw [hv, State.move, State.setShare_self]
      exact ⟨rfl, rfl⟩
    · rw [State.move, State.setShare_ne _ hv]
      exact ⟨rfl, rfl⟩
  refine ⟨hy, hgrace, ?_, ?_, fun t v => ?_, ?_, ?_, fun v hv c ho => ?_, fun t v hr => ?_, hbusy, habove⟩
  · rw [hmade]
    exact hlocs
  · rw [hmade]
    exact hhands
  · rw [hdebts, hmade, (howed v).1]
    exact h.debts t v
  · rw [hmade]
    exact hnodes
  · rw [hmade]
    exact hplaced
  · rw [hmade] at hv
    rw [(howed v).1] at ho
    have how := h.owes v hv c ho
    have hb := h.busy_of_owed hv ho
    refine ⟨hguard c.1 v hv hb how.guarded, ?_, ?_, ?_⟩
    · rw [(howed v).2]
      exact how.src_lt
    · rw [(howed v).2, hobj, hobj]
      exact how.src_obj
    · rw [(howed v).2]
      rcases how.src with hrc | hg
      · refine Or.inl ?_
        have hne : (s.share v).src ≠ u := by
          intro he
          refine hsrc ?_ v hv (by rw [ho]; simp) he
          rw [← he]
          exact hrc
        rw [hshare, State.move, State.setShare_ne _ hne]
        exact hrc
      · exact Or.inr (hguard c.1 _ (Nat.lt_trans how.src_lt hv) hb hg)
  · rw [hmade]
    obtain ⟨hv, hg⟩ := h.reads t v (hreads t v hr)
    exact ⟨hv, hguard t v hv (hreads t v hr).busy hg⟩

theorem State.move_self (q : Place) : ((s.move u q).share u).place = q := by
  rw [State.move, State.setShare_self]

theorem State.move_ne (q : Place) (hv : v ≠ u) : (s.move u q).share v = s.share v :=
  State.setShare_ne _ hv

/-- The unit that is moved, and the others. -/
theorem State.move_place {q r : Place} :
    ((s.move u q).share v).place = r ↔ v = u ∧ q = r ∨ v ≠ u ∧ (s.share v).place = r := by
  by_cases hv : v = u
  · subst hv
    rw [State.move_self]
    simp
  · rw [State.move_ne q hv]
    simp [hv]

theorem State.Guarded.move (h : s.Guarded t v) {q : Place}
    (hq : (∃ x, q = .loc x) ∨ ∃ w, q = .hand w) : (s.move u q).Guarded t v := by
  by_cases hv : v = u
  · subst hv
    rcases hq with ⟨x, rfl⟩ | ⟨w, rfl⟩
    · exact Or.inl ⟨x, State.move_self _⟩
    · exact Or.inr (Or.inl ⟨w, State.move_self _⟩)
  · exact h.keep rfl (fun _ _ => rfl) (congrArg Share.place (State.move_ne q hv))

/-- The thread takes a unit out of a location. -/
theorem Units.takeOut (h : Units n s) (ht : t < n) (hop : s.op (s.call t) = .idle)
    (hin : s.hy.tracker.sec t = .inside) (hx : s.loc x = some u) :
    Units n (({ s.move u (.hand (s.call t)) with loc := Function.update s.loc x none } : State).enter t
      (.retire u none)) := by
  obtain ⟨hu, hp⟩ := (h.locs x u).mp hx
  have hset : ∀ w, Function.update s.op (s.call t) (.retire u none) w =
      if w = s.call t then .retire u none else s.op w := fun w => Function.update_apply _ _ _ _
  refine h.relocate (u := u) (q := .hand (s.call t)) rfl rfl h.hy h.grace (fun w v _ _ hg => ?_) (fun hrc => ?_)
    (fun y v => ?_) (fun w v => ?_) (fun i hi he => ?_) (fun v hv i hi => ?_) (fun w => ?_)
    (fun w v hr => ?_) (fun w hw => ?_) (h.above_update (Nat.le_refl _) _)
  · exact hg.move (Or.inr ⟨_, rfl⟩)
  · rw [hp] at hrc
    cases hrc
  · change Function.update s.loc x none y = some v ↔
      v < s.made ∧ ((s.move u (.hand (s.call t))).share v).place = .loc y
    rw [State.move_place]
    by_cases hy : y = x
    · subst hy
      rw [Function.update_self]
      constructor
      · intro hv
        cases hv
      · intro hv
        rcases hv with ⟨hv, ⟨_, hq⟩ | ⟨hne, hq⟩⟩
        · cases hq
        · have hc := (h.locs y v).mpr ⟨hv, hq⟩
          rw [hx] at hc
          exact absurd (Option.some.inj hc).symm hne
    · rw [Function.update_of_ne hy, h.locs]
      refine and_congr_right fun _ => ?_
      constructor
      · intro hv
        refine Or.inr ⟨?_, hv⟩
        rintro rfl
        rw [hp] at hv
        cases hv
        exact hy rfl
      · intro hv
        rcases hv with ⟨_, hq⟩ | ⟨_, hq⟩
        · cases hq
        · exact hq
  · change (Function.update s.op (s.call t) _ w).hand = some v ↔
      v < s.made ∧ ((s.move u (.hand (s.call t))).share v).place = .hand w
    rw [State.move_place, hset]
    by_cases hw : w = s.call t
    · subst hw
      rw [if_pos rfl]
      constructor
      · intro hv
        cases hv
        exact ⟨hu, Or.inl ⟨rfl, rfl⟩⟩
      · intro hv
        rcases hv with ⟨hv, ⟨rfl, _⟩ | ⟨_, hq⟩⟩
        · rfl
        · have hc := (h.hands _ v).mpr ⟨hv, hq⟩
          rw [hop] at hc
          cases hc
    · rw [if_neg hw, h.hands]
      refine and_congr_right fun _ => ?_
      constructor
      · intro hv
        refine Or.inr ⟨?_, hv⟩
        rintro rfl
        rw [hp] at hv
        cases hv
      · intro hv
        rcases hv with ⟨_, hq⟩ | ⟨_, hq⟩
        · cases hq
          exact absurd rfl hw
        · exact hq
  · obtain ⟨hlt, hq⟩ := h.nodes i hi he
    refine ⟨hlt, State.move_place.mpr (Or.inr ⟨?_, hq⟩)⟩
    intro heq
    have heq : s.entry i = u := heq
    rw [heq, hp] at hq
    cases hq
  · rcases State.move_place.mp hi with ⟨_, hq⟩ | ⟨_, hq⟩
    · cases hq
    · exact h.placed v hv i hq
  · change (Function.update s.op (s.call t) _ w).debt = _
    rw [hset]
    split
    · next hw =>
      subst hw
      rw [hop]
      rfl
    · rfl
  · rcases hr.of_update (s := s) rfl rfl with ⟨_, hr⟩ | hr
    · cases hr
    · exact hr
  · exact h.busy_update (c := s.call t) hw rfl rfl fun _ => ⟨ht, hin⟩

/-- An `rc_ptr` is moved into a location that is empty. -/
theorem Units.putIn (h : Units n s) (hv : s.unused v) (hx : s.loc x = none) : Units n (s.putIn x v) := by
  obtain ⟨hlt, hrc, hsrc⟩ := hv
  have hne : ∀ {w : Nat} {q : Place}, q ≠ .rc → (s.share w).place = q → w ≠ v := by
    rintro w q hq hw rfl
    exact hq (hw.symm.trans hrc)
  have hother : ∀ (w : Nat) (q : Place), q ≠ .rc → q ≠ .loc x →
      (((s.move v (.loc x)).share w).place = q ↔ (s.share w).place = q) := by
    intro w q hq hqx
    rw [State.move_place]
    constructor
    · intro hw
      exact hw.elim (fun hw => absurd hw.2.symm hqx) fun hw => hw.2
    · intro hw
      exact Or.inr ⟨hne hq hw, hw⟩
  refine h.relocate (u := v) (q := .loc x) rfl rfl h.hy h.grace (fun w u _ _ hg => ?_)
    (fun _ u hu ho => hsrc u hu ho) (fun y u => ?_) (fun w u => ?_) (fun i hi he => ?_)
    (fun u hu i hi => ?_) (fun _ => rfl) (fun _ _ hr => hr) h.busy h.above
  · exact hg.move (Or.inl ⟨x, rfl⟩)
  · change Function.update s.loc x (some v) y = some u ↔
      u < s.made ∧ ((s.move v (.loc x)).share u).place = .loc y
    by_cases hy : y = x
    · subst hy
      rw [Function.update_self, State.move_place]
      constructor
      · intro hu
        cases hu
        exact ⟨hlt, Or.inl ⟨rfl, rfl⟩⟩
      · intro hu
        rcases hu with ⟨hu, ⟨rfl, _⟩ | ⟨_, hq⟩⟩
        · rfl
        · have hc := (h.locs y u).mpr ⟨hu, hq⟩
          rw [hx] at hc
          cases hc
    · rw [Function.update_of_ne hy, h.locs, hother u _ (by simp) (by simpa using hy)]
  · exact (h.hands w u).trans (and_congr_right fun _ => (hother u _ (by simp) (by simp)).symm)
  · obtain ⟨hlt, hq⟩ := h.nodes i hi he
    exact ⟨hlt, (hother _ _ (by simp) (by simp)).mpr hq⟩
  · exact h.placed u hu i ((hother u _ (by simp) (by simp)).mp hi)

/-- A copy of a pointer is put into a location that is empty. -/
theorem Units.owe (h : Units n s) {o : Op} (ht : t < n) (hin : s.hy.tracker.sec t = .inside)
    (hx : s.loc x = none) (hhand : o.hand = (s.op (s.call t)).hand)
    (hdebt : (s.op (s.call t)).debt = none)
    (hd : o.debt = some s.made) (hr : o.read = none) (hv : v < s.made)
    (hsrc : (s.share v).place = .rc ∨ s.Guarded t v) : Units n (s.owe t x v o) := by
  set h' : Share := ⟨(s.share v).obj, .loc x, some (s.call t), v⟩ with hh'
  have hset : ∀ w, (s.owe t x v o).op w = if w = s.call t then o else s.op w :=
    fun w => Function.update_apply _ _ _ _
  refine ⟨h.hy, h.grace, fun y u => ?_, fun w u => ?_, fun w u => ?_, fun i hi he => ?_,
    fun u hu i hp => ?_, fun u hu w ho => ?_, fun w u hw => ?_, fun w hw => ?_,
    h.above_update (Nat.le_refl _) o⟩
  · refine Iff.trans ?_ (push_cases (h := h') (P := fun _ h => h.place = .loc y)).symm
    change Function.update s.loc x (some s.made) y = some u ↔ _
    by_cases hy : y = x
    · subst hy
      rw [Function.update_self, ← h.locs, hx]
      simp [hh', eq_comm]
    · rw [Function.update_of_ne hy, h.locs]
      simp [hh', Ne.symm hy]
  · refine Iff.trans ?_ (push_cases (h := h') (P := fun _ h => h.place = .hand w)).symm
    rw [← h.hands, hset]
    split
    · next hw => simp [hh', hw, hhand]
    · simp [hh']
  · refine Iff.trans ?_ (push_cases (h := h') (P := fun _ h => h.owed = some w)).symm
    rw [← h.debts, hset]
    split
    · next hw => simp [hh', hw, hd, hdebt, eq_comm]
    · next hw => simp [hh', Ne.symm hw]
  · exact (push_cases (h := h') (P := fun _ h => h.place = .node i)).mpr (Or.inl (h.nodes i hi he))
  · have hcases := (push_cases (h := h') (P := fun _ h => h.place = .node i)).mp ⟨hu, hp⟩
    rcases hcases with ⟨hu, hp⟩ | ⟨_, hp⟩
    · exact h.placed u hu i hp
    · cases hp
  · have hcases := (push_cases (h := h') (P := fun _ h => h.owed = some w)).mp ⟨hu, ho⟩
    rcases hcases with ⟨hu, ho⟩ | ⟨rfl, hnew⟩
    · have how := (h.owes u hu w ho).push hu h'
      exact ⟨how.guarded, how.src_lt, how.src_obj, how.src⟩
    · cases hnew
      refine ⟨Or.inl ⟨x, congrArg Share.place (State.push_new _)⟩, ?_, ?_, ?_⟩
      · exact (congrArg Share.src (State.push_new _)).trans_lt hv
      · change ((s.push _).share ((s.push _).share s.made).src).obj = ((s.push _).share s.made).obj
        rw [State.push_new, State.push_share _ hv]
      · change ((s.push _).share ((s.push _).share s.made).src).place = .rc ∨
          (s.push _).Guarded t ((s.push _).share s.made).src
        rw [State.push_new, State.push_share _ hv]
        exact hsrc.imp_right fun hg => hg.push hv _
  · have hu : u < s.made ∧ s.Guarded w u := by
      rcases hw.of_update (s := s) rfl rfl with ⟨_, hw⟩ | hw
      · rw [hr] at hw
        cases hw
      · exact h.reads w u hw
    exact ⟨Nat.lt_succ_of_lt hu.1, hu.2.push hu.1 _⟩
  · exact h.busy_update (c := s.call t) hw rfl rfl fun _ => ⟨ht, hin⟩

/-- The thread has incremented the count for a unit. -/
theorem Units.pay (h : Units n s) {o : Op} (hc : c.2 ≤ s.level c.1) (hop : (s.op c).debt = some u)
    (hhand : o.hand = (s.op c).hand) (hd : o.debt = none) (hr : o.read = none) :
    Units n ((s.setShare u { s.share u with owed := none }).setOp c o) := by
  obtain ⟨hu, ho⟩ := (h.debts c u).mp hop
  set h' : Share := { s.share u with owed := none } with hh'
  have hset : ∀ w, ((s.setShare u h').setOp c o).op w = if w = c then o else s.op w :=
    fun w => Function.update_apply _ _ _ _
  have hsame : ∀ v, ((s.setShare u h').share v).place = (s.share v).place ∧
      ((s.setShare u h').share v).obj = (s.share v).obj ∧
      ((s.setShare u h').share v).src = (s.share v).src := by
    intro v
    by_cases hv : v = u
    · subst hv
      rw [State.setShare_self]
      exact ⟨rfl, rfl, rfl⟩
    · rw [State.setShare_ne _ hv]
      exact ⟨rfl, rfl, rfl⟩
  have hguard : ∀ w v, s.Guarded w v → ((s.setShare u h').setOp c o).Guarded w v :=
    fun w v hg => hg.keep rfl (fun _ _ => rfl) (hsame v).1
  have howed : ∀ v w, ((s.setShare u h').share v).owed = some w ↔
      v ≠ u ∧ (s.share v).owed = some w := by
    intro v w
    by_cases hv : v = u
    · subst hv
      rw [State.setShare_self]
      simp [hh']
    · rw [State.setShare_ne _ hv]
      simp [hv]
  refine ⟨h.hy, h.grace, fun x v => ?_, fun w v => ?_, fun w v => ?_, fun i hi he => ?_,
    fun v hv i hp => ?_, fun v hv w hw => ?_, fun w v hw => ?_, fun w hw => ?_,
    h.above_update hc o⟩
  · exact (h.locs x v).trans (by rw [← (hsame v).1]; rfl)
  · refine Iff.trans ?_ ((h.hands w v).trans (by rw [← (hsame v).1]; rfl))
    rw [hset]
    split
    · next hw => rw [hw, hhand]
    · rfl
  · refine Iff.trans ?_ (and_congr_right fun _ => (howed v w).symm)
    rw [hset]
    split
    · next hw =>
      subst hw
      rw [hd]
      constructor
      · intro hc
        cases hc
      · intro hc
        have hv := (h.debts w v).mpr ⟨hc.1, hc.2.2⟩
        rw [hop] at hv
        exact absurd (Option.some.inj hv).symm hc.2.1
    · next hw =>
      rw [h.debts]
      refine and_congr_right fun _ => ?_
      constructor
      · intro hv
        refine ⟨?_, hv⟩
        rintro rfl
        rw [ho] at hv
        exact hw (Option.some.inj hv).symm
      · exact fun hv => hv.2
  · exact (h.nodes i hi he).imp_right fun hp => (hsame _).1.trans hp
  · exact h.placed v hv i ((hsame v).1.symm.trans hp)
  · have how := h.owes v hv w ((howed v w).mp hw).2
    have hsrc : (((s.setShare u h').setOp c o).share v).src = (s.share v).src := (hsame v).2.2
    refine ⟨hguard w.1 v how.guarded, ?_, ?_, ?_⟩
    · rw [hsrc]
      exact how.src_lt
    · rw [hsrc]
      exact (hsame _).2.1.trans (how.src_obj.trans (hsame v).2.1.symm)
    · rw [hsrc]
      exact how.src.imp (fun hrc => (hsame _).1.trans hrc) fun hg => hguard w.1 _ hg
  · rcases hw.of_update (s := s) rfl rfl with ⟨_, hw⟩ | hw
    · rw [hr] at hw
      cases hw
    · obtain ⟨hv, hg⟩ := h.reads w v hw
      exact ⟨hv, hguard w v hg⟩
  · exact h.busy_update hw rfl rfl fun _ => h.busy c.1 (State.busy_of_op (Op.ne_idle_of_debt hop))

/-- A unit is retired. -/
theorem Units.retire (h : Units n s) {hy' : Batches.State} (loc' : Nat → Option Nat)
    (op' : Nat × Nat → Op)
    (hi : Batches.Inv n hy')
    (hg : Grace n hy' (Function.update s.opened s.hy.created (s.hy.tracker.openSections n)))
    (htr : hy'.tracker = s.hy.tracker) (hc : hy'.created = s.hy.created + 1)
    (hu : u < s.made)
    (hp : (∃ x, (s.share u).place = .loc x) ∨ ∃ w, (s.share u).place = .hand w)
    (hlocs : ∀ x v, loc' x = some v ↔ v ≠ u ∧ s.loc x = some v)
    (hhands : ∀ w v, (op' w).hand = some v ↔ v ≠ u ∧ (s.op w).hand = some v)
    (hdebts : ∀ w, (op' w).debt = (s.op w).debt)
    (hreads : ∀ w v, (op' w).read = some v → (s.op w).read = some v)
    (hbusy : ∀ w, op' w ≠ .idle → s.op w ≠ .idle) :
    Units n { s.move u (.node s.hy.created) with
      hy := hy'
      opened := Function.update s.opened s.hy.created (s.hy.tracker.openSections n)
      entry := Function.update s.entry s.hy.created u
      ejected := Function.update s.ejected s.hy.created false
      loc := loc'
      op := op' } := by
  have hpn : ∀ i, (s.share u).place ≠ .node i := by
    intro i hi
    rcases hp with ⟨x, hx⟩ | ⟨w, hx⟩ <;> (rw [hx] at hi; cases hi)
  have hother : ∀ (v : Nat) (q : Place), q ≠ .node s.hy.created →
      (((s.move u (.node s.hy.created)).share v).place = q ↔ v ≠ u ∧ (s.share v).place = q) := by
    intro v q hq
    rw [State.move_place]
    simp [hq.symm]
  refine h.relocate (u := u) (q := .node s.hy.created) rfl rfl hi hg (fun w v hv' hb hgv => ?_)
    (fun hrc => ?_)
    (fun x v => ?_) (fun w v => ?_) (fun i hi he => ?_) (fun v hv i hvi => ?_) hdebts
    (fun w v hr => hr.imp_right ?_) (fun w hw => ?_) fun w k hk => ?_
  · by_cases hv : v = u
    · subst hv
      refine Or.inr (Or.inr ⟨s.hy.created, State.move_self _, ?_⟩)
      change (w, hy'.tracker.begun w) ∈ Function.update s.opened s.hy.created _ s.hy.created
      rw [Function.update_self, htr]
      obtain ⟨hopen, hnum⟩ := h.inSection hb
      exact Tracker.State.mem_openSections.mpr ⟨(h.busy w hb).1, hopen, hnum.symm⟩
    · refine hgv.keep (congrFun (congrArg _ htr) w) (fun i hi => ?_)
        (congrArg Share.place (State.move_ne _ hv))
      refine Function.update_of_ne ?_ _ _
      rintro rfl
      exact Nat.lt_irrefl _ (h.placed v hv' _ hi)
  · rcases hp with ⟨x, hx⟩ | ⟨w, hx⟩ <;> (rw [hx] at hrc; cases hrc)
  · rw [hlocs]
    refine Iff.trans ?_ (and_congr_right fun _ => (hother v _ (by simp)).symm)
    rw [h.locs]
    exact and_left_comm
  · rw [hhands]
    refine Iff.trans ?_ (and_congr_right fun _ => (hother v _ (by simp)).symm)
    rw [h.hands]
    exact and_left_comm
  · change i < hy'.created at hi
    change Function.update s.entry s.hy.created u i < s.made ∧
      ((s.move u (.node s.hy.created)).share (Function.update s.entry s.hy.created u i)).place = .node i
    by_cases hne : i = s.hy.created
    · subst hne
      rw [Function.update_self]
      exact ⟨hu, State.move_self _⟩
    · have he : Function.update s.ejected s.hy.created false i = false := he
      rw [Function.update_of_ne hne] at he ⊢
      obtain ⟨hlt, hq⟩ := h.nodes i (by omega) he
      refine ⟨hlt, State.move_place.mpr (Or.inr ⟨?_, hq⟩)⟩
      intro heq
      rw [heq] at hq
      exact hpn i hq
  · change i < hy'.created
    rcases State.move_place.mp hvi with ⟨_, hq⟩ | ⟨_, hq⟩
    · cases hq
      omega
    · have := h.placed v hv i hq
      omega
  · intro hex
    obtain ⟨k, hk⟩ := hex
    exact ⟨k, hreads (w, k) v hk⟩
  · change w < n ∧ hy'.tracker.sec w = .inside
    rw [htr]
    refine h.busy w (hw.imp_left ?_)
    intro hex
    obtain ⟨k, hk⟩ := hex
    exact ⟨k, hbusy (w, k) hk⟩
  · by_contra hne
    exact hbusy (w, k) hne (h.above w k hk)

theorem Counted.moved (h : Counted s) {q : Place} (hu : (s.share u).place ≠ .gone) (hq : q ≠ .gone)
    (hmade : s'.made = s.made) (hshare : s'.share = (s.move u q).share) (hc : s'.count = s.count)
    (ha : s'.alive = s.alive) : Counted s' := by
  refine h.keep hmade hc ha fun v _ p => ?_
  rw [hshare]
  by_cases hv : v = u
  · subst hv
    simp only [Share.Paid, State.move, State.setShare_self, ne_eq, hq, hu, not_false_eq_true]
  · rw [State.move_ne q hv]

theorem takeOut_loc : (s.takeOut t x).loc x = none := by
  unfold State.takeOut
  split
  · exact Function.update_self _ _ _
  · next hx => exact hx

theorem takeOut_made : (s.takeOut t x).made = s.made := by
  unfold State.takeOut
  split <;> rfl

theorem takeOut_hy : (s.takeOut t x).hy = s.hy := by
  unfold State.takeOut
  split <;> rfl

theorem takeOut_call : (s.takeOut t x).call t = s.call t := by
  unfold State.takeOut
  split <;> rfl

theorem takeOut_op (h : s.op (s.call t) = .idle) :
    ((s.takeOut t x).op (s.call t)).hand = s.loc x ∧ ((s.takeOut t x).op (s.call t)).debt = none := by
  unfold State.takeOut
  split
  · next u hx =>
    change (Function.update s.op (s.call t) _ (s.call t)).hand = _ ∧
      (Function.update s.op (s.call t) _ (s.call t)).debt = _
    rw [Function.update_self, hx]
    exact ⟨rfl, rfl⟩
  · next hx =>
    rw [h, hx]
    exact ⟨rfl, rfl⟩

theorem takeOut_unused (h : Units n s) (hv : s.unused v) : (s.takeOut t x).unused v := by
  unfold State.takeOut
  split
  · next u hx =>
    obtain ⟨hlt, hrc, hsrc⟩ := hv
    have hp := ((h.locs x u).mp hx).2
    refine ⟨hlt, State.move_place.mpr (Or.inr ⟨?_, hrc⟩), fun w hw => ?_⟩
    · rintro rfl
      rw [hrc] at hp
      cases hp
    · change ((s.move u (.hand (s.call t))).share w).owed ≠ none →
        ((s.move u (.hand (s.call t))).share w).src ≠ v
      by_cases hwu : w = u
      · subst hwu
        rw [State.move, State.setShare_self]
        exact hsrc w hw
      · rw [State.move_ne _ hwu]
        exact hsrc w hw
  · exact hv

theorem takeOut_src (h : Units n s) {w : Nat} (hv : (s.share v).place = .rc ∨ s.Guarded w v) :
    ((s.takeOut t x).share v).place = .rc ∨ (s.takeOut t x).Guarded w v := by
  unfold State.takeOut
  split
  · next u hx =>
    have hp := ((h.locs x u).mp hx).2
    refine hv.imp (fun hrc => State.move_place.mpr (Or.inr ⟨?_, hrc⟩))
      fun hg => hg.move (Or.inr ⟨_, rfl⟩)
    rintro rfl
    rw [hrc] at hp
    cases hp
  · exact hv

theorem Inv.takeOut (h : Inv n s) (ht : t < n) (hop : s.op (s.call t) = .idle)
    (hin : s.hy.tracker.sec t = .inside) : Inv n (s.takeOut t x) := by
  unfold State.takeOut
  split
  · next u hx =>
    have hp := ((h.locs x u).mp hx).2
    exact ⟨h.toUnits.takeOut ht hop hin hx, h.fault,
      h.counted.moved (u := u) (q := .hand (s.call t)) (by simp [hp]) (by simp) rfl rfl rfl rfl⟩
  · exact h

theorem Inv.putIn (h : Inv n s) (hv : s.unused v) (hx : s.loc x = none) : Inv n (s.putIn x v) :=
  ⟨h.toUnits.putIn hv hx, h.fault,
    h.counted.moved (u := v) (q := .loc x) (by simp [hv.2.1]) (by simp) rfl rfl rfl rfl⟩

theorem Inv.owe (h : Inv n s) {o : Op} (ht : t < n) (hin : s.hy.tracker.sec t = .inside)
    (hx : s.loc x = none) (hhand : o.hand = (s.op (s.call t)).hand)
    (hdebt : (s.op (s.call t)).debt = none)
    (hd : o.debt = some s.made) (hr : o.read = none) (hv : v < s.made)
    (hsrc : (s.share v).place = .rc ∨ s.Guarded t v) : Inv n (s.owe t x v o) := by
  refine ⟨h.toUnits.owe ht hin hx hhand hdebt hd hr hv hsrc, h.fault, fun p => ?_, h.counted.alive⟩
  refine (h.counted.count p).trans ?_
  exact (card_paid_push ⟨(s.share v).obj, .loc x, some (s.call t), v⟩ (by simp) p).symm

theorem Inv.putMoved (h : Inv n s) (ht : t < n) (hop : s.op (s.call t) = .idle)
    (hin : s.hy.tracker.sec t = .inside) {v : Option Nat} (hv : ∀ w ∈ v, s.unused w) :
    Inv n (s.putMoved t x v) := by
  have hi := h.takeOut (x := x) ht hop hin
  cases v with
  | none => exact hi
  | some v => exact hi.putIn (takeOut_unused h.toUnits (hv v rfl)) takeOut_loc

/-- The operation that goes on has the unit that was in the location in its hands, and owes the new
one. -/
theorem Inv.putCopy (h : Inv n s) (ht : t < n) (hop : s.op (s.call t) = .idle)
    (hin : s.hy.tracker.sec t = .inside) {o : Op} (hhand : o.hand = s.loc x)
    (hd : o.debt = some s.made) (hr : o.read = none) (hv : v < s.made)
    (hsrc : (s.share v).place = .rc ∨ s.Guarded t v) : Inv n ((s.takeOut t x).owe t x v o) := by
  refine (h.takeOut ht hop hin).owe ht ?_ takeOut_loc ?_ ?_ ?_ hr ?_ (takeOut_src h.toUnits hsrc)
  · rw [takeOut_hy]
    exact hin
  · rw [takeOut_call, (takeOut_op hop).1]
    exact hhand
  · rw [takeOut_call]
    exact (takeOut_op hop).2
  · rw [takeOut_made]
    exact hd
  · rw [takeOut_made]
    exact hv

theorem Inv.putCopied (h : Inv n s) (ht : t < n) (hop : s.op (s.call t) = .idle)
    (hin : s.hy.tracker.sec t = .inside) {v : Option Nat}
    (hv : ∀ w ∈ v, w < s.made ∧ ((s.share w).place = .rc ∨ w ∈ s.snaps t)) :
    Inv n (s.putCopied t x v) := by
  cases v with
  | none => exact h.takeOut ht hop hin
  | some v =>
    obtain ⟨hlt, hsrc⟩ := hv v rfl
    have hsrc := hsrc.imp_right fun hm => (h.reads t v (Or.inl hm)).2
    cases hx : s.loc x with
    | none =>
      have he : s.putCopied t x (some v) = (s.takeOut t x).owe t x v (.pay s.made none) := by
        simp only [State.putCopied, hx]
      rw [he]
      exact h.putCopy ht hop hin hx.symm rfl rfl hlt hsrc
    | some u =>
      have he : s.putCopied t x (some v) = (s.takeOut t x).owe t x v (.retire u (some s.made)) := by
        simp only [State.putCopied, hx]
      rw [he]
      exact h.putCopy ht hop hin hx.symm rfl rfl hlt hsrc

theorem Inv.putSnapshot (h : Inv n s) (ht : t < n) (hop : s.op (s.call t) = .idle)
    (hin : s.hy.tracker.sec t = .inside) (hv : v ∈ s.snaps t) : Inv n (s.putSnapshot t x v) := by
  unfold State.putSnapshot
  split
  · exact h
  · obtain ⟨hlt, hg⟩ := h.reads t v (Or.inl hv)
    exact h.putCopy ht hop hin rfl rfl rfl hlt (Or.inr hg)

/-- An operation begins that has read a location. -/
theorem Inv.enter (h : Inv n s) (ht : t < n) (hop : s.op (s.call t) = .idle)
    (hin : s.hy.tracker.sec t = .inside) {o : Op} (hhand : o.hand = none) (hdebt : o.debt = none)
    (hr : o.read = some u) (hx : s.loc x = some u) : Inv n (s.enter t o) := by
  obtain ⟨hu, hp⟩ := (h.locs x u).mp hx
  refine ⟨(h.toUnits.setOp (Nat.le_refl _) ?_ ?_ (fun w hw => ?_) fun _ => ⟨ht, hin⟩).setDepth _, h.fault,
    h.counted.count, h.counted.alive⟩
  · rw [hop, hhand]
    rfl
  · rw [hop, hdebt]
    rfl
  · rw [hr] at hw
    cases hw
    exact ⟨hu, Or.inl ⟨x, hp⟩⟩

/-- The snapshots of a thread. -/
theorem Units.setSnaps (h : Units n s) {l : List Nat} (hl : ∀ u ∈ l, u < s.made ∧ s.Guarded t u)
    (hb : l ≠ [] → t < n ∧ s.hy.tracker.sec t = .inside) :
    Units n { s with snaps := Function.update s.snaps t l } := by
  refine ⟨h.hy, h.grace, h.locs, h.hands, h.debts, h.nodes, h.placed, fun u hu w ho => ?_,
    fun w u hr => ?_, fun w hw => ?_, h.above⟩
  · have how := h.owes u hu w ho
    exact ⟨how.guarded, how.src_lt, how.src_obj, how.src⟩
  · by_cases hwt : w = t
    · subst hwt
      rcases hr with hr | hr
      · have hr : u ∈ Function.update s.snaps w l w := hr
        rw [Function.update_self] at hr
        exact hl u hr
      · exact h.reads w u (Or.inr hr)
    · refine h.reads w u (hr.imp_left fun hr => ?_)
      have hr : u ∈ Function.update s.snaps t l w := hr
      rwa [Function.update_of_ne hwt] at hr
  · by_cases hwt : w = t
    · subst hwt
      rcases hw with hw | hw
      · exact h.busy w (Or.inl hw)
      · have hw : Function.update s.snaps w l w ≠ [] := hw
        rw [Function.update_self] at hw
        exact hb hw
    · refine h.busy w (hw.imp_right fun hw => ?_)
      have hw : Function.update s.snaps t l w ≠ [] := hw
      rwa [Function.update_of_ne hwt] at hw

theorem Inv.setIdle (h : Inv n s) (hhand : (s.op (s.call t)).hand = none)
    (hdebt : (s.op (s.call t)).debt = none) : Inv n (s.setOp (s.call t) .idle) := by
  refine ⟨h.toUnits.setOp (Nat.le_refl _) hhand.symm hdebt.symm (fun u hu => ?_)
    fun hc => absurd rfl hc, h.fault, h.counted.count, h.counted.alive⟩
  cases hu

/-- `get_use_count` of an object that is alive. -/
theorem Inv.setFault (h : Inv n s) (ha : s.alive p = true) :
    Inv n { s with fault := s.fault || !s.alive p } := by
  refine ⟨h.toUnits.setCounts _ _ _, ?_, h.counted.count, h.counted.alive⟩
  change (s.fault || !s.alive p) = false
  rw [h.fault, ha]
  rfl

theorem Inv.stepLoad (h : Inv n s) (hop : s.op (s.call t) = .load u) :
    Inv n (((s.incr (s.share u).obj).push ⟨(s.share u).obj, .rc, none, 0⟩).setOp (s.call t) .idle) := by
  obtain ⟨hu, hg⟩ := h.reads t u (State.reads_of_op (c := s.call t) (congrArg Op.read hop))
  refine (h.copy (h.guarded_pos u hu t hg)).setIdle (t := t) ?_ ?_
  · exact congrArg Op.hand hop
  · exact congrArg Op.debt hop

theorem Inv.stepProtect (h : Inv n s) (hop : s.op (s.call t) = .protect u) {a : Nat}
    (hs : s.step cfg t a (.protect u) = some s') : Inv n s' := by
  obtain ⟨hu, hg⟩ := h.reads t u (State.reads_of_op (c := s.call t) (congrArg Op.read hop))
  have ha := (h.counted.alive _).mpr (h.guarded_pos u hu t hg)
  have hi : Inv n ({ s with fault := s.fault || !s.alive (s.share u).obj }.setOp (s.call t) .idle) := by
    refine (h.setFault ha).setIdle (t := t) ?_ ?_
    · exact congrArg Op.hand hop
    · exact congrArg Op.debt hop
  simp only [State.step] at hs
  split at hs
  · cases hs
    exact hi
  · cases hs
    refine ⟨hi.toUnits.setSnaps (fun v hv => ?_) fun _ => h.busy t (State.busy_of_op (c := s.call t) ?_), hi.fault,
      hi.counted.count, hi.counted.alive⟩
    · rcases List.mem_cons.mp hv with rfl | hv
      · exact ⟨hu, hg⟩
      · exact h.reads t v (Or.inl hv)
    · rw [hop]
      simp

theorem Inv.stepPay (h : Inv n s) {o : Op} (hc : c.2 ≤ s.level c.1) (hop : (s.op c).debt = some u)
    (hhand : o.hand = (s.op c).hand) (hd : o.debt = none) (hr : o.read = none) :
    Inv n (((s.incr (s.share u).obj).setShare u { s.share u with owed := none }).setOp c o) := by
  obtain ⟨hu, ho⟩ := (h.debts c u).mp hop
  have hg := (h.owes u hu c ho).guarded
  have hpos := h.guarded_pos u hu c.1 hg
  refine ⟨(h.toUnits.pay hc hop hhand hd hr).setCounts _ _ _, ?_, ?_⟩
  · change (s.fault || !s.alive (s.share u).obj) = false
    rw [h.fault, (h.counted.alive _).mpr hpos]
    rfl
  · refine h.counted.add (p := (s.share u).obj) hpos (fun q => ?_) rfl rfl
    by_cases hq : q = (s.share u).obj
    · subst hq
      rw [if_pos rfl]
      refine card_filter_add (u := u) (Finset.mem_range.mpr hu) ?_ ?_ fun v _ hv => ?_
      · intro hp
        rw [hp.2.1] at ho
        cases ho
      · change ((s.setShare u _).share u).Paid _
        rw [State.setShare_self]
        exact ⟨hg.not_gone, rfl, rfl⟩
      · change _ ↔ ((s.setShare u _).share v).Paid _
        rw [State.setShare_ne _ hv]
    · rw [if_neg hq, Nat.add_zero]
      refine congrArg Finset.card (Finset.filter_congr fun v _ => ?_)
      change ((s.setShare u _).share v).Paid q ↔ _
      by_cases hv : v = u
      · subst hv
        rw [State.setShare_self]
        constructor
        · exact fun hp => absurd hp.2.2.symm hq
        · exact fun hp => absurd hp.2.2.symm hq
      · rw [State.setShare_ne _ hv]

/-- What `retire` makes of the backend. -/
theorem retire_backend (hn : ∀ m, cfg.numThreads ≤ cfg.threshold m) (h : Units cfg.numThreads s) {a : Nat}
    {hy' : Batches.State} (hl : Batches.next cfg s.hy (.retire 0 t (some p) a) = some hy') :
    Batches.Inv cfg.numThreads hy' ∧
      Grace cfg.numThreads hy'
        (Function.update s.opened s.hy.created (s.hy.tracker.openSections cfg.numThreads)) ∧
      hy'.tracker = s.hy.tracker ∧ hy'.created = s.hy.created + 1 := by
  refine ⟨h.hy.next hn hl, h.grace.next h.hy hl, ?_⟩
  obtain ⟨_, hl⟩ := Option.ite_none_right_eq_some.mp hl
  obtain ⟨_, hl⟩ := Option.ite_none_right_eq_some.mp hl
  cases hl
  exact ⟨rfl, rfl⟩

theorem Inv.stepRetire (hn : ∀ m, cfg.numThreads ≤ cfg.threshold m) (h : Inv cfg.numThreads s) {a : Nat}
    {o : Op} (hop : (s.op c).hand = some u) (hhand : o.hand = none) (hdebt : o.debt = (s.op c).debt)
    (hr : o.read = none) (hs : (s.retire cfg t a u).map (·.setOp c o) = some s') :
    Inv cfg.numThreads s' := by
  obtain ⟨s₁, hs₁, rfl⟩ := Option.map_eq_some_iff.mp hs
  obtain ⟨hy', hl, rfl⟩ := Option.map_eq_some_iff.mp hs₁
  obtain ⟨hi, hg, htr, hc⟩ := retire_backend hn h.toUnits hl
  obtain ⟨hu, hp⟩ := (h.hands c u).mp hop
  have hset : ∀ w, Function.update s.op c o w = if w = c then o else s.op w :=
    fun w => Function.update_apply _ _ _ _
  refine ⟨h.toUnits.retire s.loc (Function.update s.op c o) hi hg htr hc hu (Or.inr ⟨c, hp⟩)
    (fun x v => ?_) (fun w v => ?_) (fun w => ?_) (fun w v hw => ?_) fun w hw => ?_, h.fault,
    h.counted.moved (u := u) (q := .node s.hy.created) (by simp [hp]) (by simp) rfl rfl rfl rfl⟩
  · refine ⟨fun hv => ⟨?_, hv⟩, fun hv => hv.2⟩
    rintro rfl
    have hv := ((h.locs x v).mp hv).2
    rw [hp] at hv
    cases hv
  · rw [hset]
    split
    · next hw =>
      subst hw
      rw [hhand, hop]
      simp [eq_comm]
    · next hw =>
      refine ⟨fun hv => ⟨?_, hv⟩, fun hv => hv.2⟩
      rintro rfl
      have hv := ((h.hands w v).mp hv).2
      rw [hp] at hv
      cases hv
      exact hw rfl
  · rw [hset]
    split
    · next hw => rw [hw, hdebt]
    · rfl
  · rw [hset] at hw
    split at hw
    · rw [hr] at hw
      cases hw
    · exact hw
  · by_cases hwt : w = c
    · rw [hwt]
      exact Op.ne_idle_of_hand hop
    · rwa [Function.update_of_ne hwt] at hw

theorem Inv.step (hn : ∀ m, cfg.numThreads ≤ cfg.threshold m) (h : Inv cfg.numThreads s) {a : Nat}
    (hs : s.step cfg t a (s.op (s.call t)) = some s') : Inv cfg.numThreads s' := by
  cases hop : s.op (s.call t) with
  | idle =>
    rw [hop] at hs
    cases hs
  | load u =>
    rw [hop] at hs
    cases hs
    exact h.stepLoad hop
  | protect u =>
    rw [hop] at hs
    exact h.stepProtect hop hs
  | pay u old =>
    have hd : (s.op (s.call t)).debt = some u := by rw [hop]; rfl
    have hh : (s.op (s.call t)).hand = old := by rw [hop]; rfl
    rw [hop] at hs
    cases hs
    cases old with
    | none => exact h.stepPay (Nat.le_refl _) hd hh.symm rfl rfl
    | some v => exact h.stepPay (Nat.le_refl _) hd hh.symm rfl rfl
  | retire u new =>
    have hd : (s.op (s.call t)).debt = new := by rw [hop]; rfl
    have hh : (s.op (s.call t)).hand = some u := by rw [hop]; rfl
    rw [hop] at hs
    cases new with
    | none => exact h.stepRetire (o := .idle) hn hh rfl hd.symm rfl hs
    | some v => exact h.stepRetire (o := .pay v none) hn hh rfl hd.symm rfl hs

/-- The destructor of an `atomic_rc_ptr`. -/
theorem Inv.destroyLoc (hn : ∀ m, cfg.numThreads ≤ cfg.threshold m) (h : Inv cfg.numThreads s) {a : Nat}
    (hx : s.loc x = some u)
    (hs : ({ s with loc := Function.update s.loc x none } : State).retire cfg t a u = some s') :
    Inv cfg.numThreads s' := by
  obtain ⟨hy', hl, rfl⟩ := Option.map_eq_some_iff.mp hs
  obtain ⟨hi, hg, htr, hc⟩ := retire_backend hn h.toUnits hl
  obtain ⟨hu, hp⟩ := (h.locs x u).mp hx
  refine ⟨h.toUnits.retire (Function.update s.loc x none) s.op hi hg htr hc hu (Or.inl ⟨x, hp⟩)
    (fun y v => ?_) (fun w v => ?_) (fun _ => rfl) (fun _ _ hw => hw) fun _ hw => hw, h.fault,
    h.counted.moved (u := u) (q := .node s.hy.created) (by simp [hp]) (by simp) rfl rfl rfl rfl⟩
  · by_cases hy : y = x
    · subst hy
      rw [Function.update_self, hx]
      simp [eq_comm]
    · rw [Function.update_of_ne hy]
      refine ⟨fun hv => ⟨?_, hv⟩, fun hv => hv.2⟩
      rintro rfl
      have hv := ((h.locs y v).mp hv).2
      rw [hp] at hv
      cases hv
      exact hy rfl
  · refine ⟨fun hv => ⟨?_, hv⟩, fun hv => hv.2⟩
    rintro rfl
    have hv := ((h.hands w v).mp hv).2
    rw [hp] at hv
    cases hv

theorem Inv.nest (h : Inv n s) (t : Nat) : Inv n (s.nest t) :=
  ⟨h.toUnits.nest t, h.fault, h.counted.count, h.counted.alive⟩

theorem Inv.unnest (h : Inv n s) (t : Nat) : Inv n (s.unnest t) :=
  ⟨h.toUnits.unnest t, h.fault, h.counted.count, h.counted.alive⟩

theorem Inv.readLoc (h : Inv n s) (ht : t < n) (hin : s.hy.tracker.sec t = .inside) {o : Nat → Op}
    (hhand : ∀ u, (o u).hand = none) (hdebt : ∀ u, (o u).debt = none) (hr : ∀ u, (o u).read = some u) :
    Inv n (s.readLoc t x o) := by
  unfold State.readLoc
  split
  · next u hx =>
    exact (h.nest t).enter ht (h.toUnits.nest_idle t) hin (hhand u) (hdebt u) (hr u) hx
  · exact h

end Steps

/-! ## Every run -/

section Runs
variable {cfg : Config} {s s' : State}

theorem Inv.next (hn : ∀ m, cfg.numThreads ≤ cfg.threshold m) (h : Inv cfg.numThreads s) {l : Label}
    (hg : InGuard s l) (hl : next cfg s l = some s') : Inv cfg.numThreads s' := by
  cases l with
  | begin t => exact h.begin hn (Option.ite_none_right_eq_some.mp hl).2
  | end_ t =>
    obtain ⟨⟨hlevel, hop, hsn⟩, hl⟩ := Option.ite_none_right_eq_some.mp hl
    exact h.end_ hn hlevel hop hsn hl
  | run t =>
    simp only [Pointers.next] at hl
    split at hl
    · exact h.run hn (Option.ite_none_right_eq_some.mp hl).2
    · exact h.run hn hl
  | make p =>
    obtain ⟨hdead, hl⟩ := Option.ite_none_right_eq_some.mp hl
    cases hl
    exact h.make hdead
  | copy v =>
    obtain ⟨⟨hv, hrc⟩, hl⟩ := Option.ite_none_right_eq_some.mp hl
    cases hl
    exact h.copy (h.counted.pos (h.rc_paid hv hrc))
  | copySnapshot t u =>
    obtain ⟨hm, hl⟩ := Option.ite_none_right_eq_some.mp hl
    cases hl
    obtain ⟨hu, hg⟩ := h.reads t u (Or.inl hm)
    exact h.copy (h.guarded_pos u hu t hg)
  | drop v =>
    obtain ⟨hv, hl⟩ := Option.ite_none_right_eq_some.mp hl
    cases hl
    exact h.drop hv
  | load t x =>
    obtain ⟨⟨ht, _⟩, hl⟩ := Option.ite_none_right_eq_some.mp hl
    cases hl
    exact h.readLoc ht hg (fun _ => rfl) (fun _ => rfl) fun _ => rfl
  | getSnapshot t x =>
    obtain ⟨⟨ht, _⟩, hl⟩ := Option.ite_none_right_eq_some.mp hl
    cases hl
    exact h.readLoc ht hg (fun _ => rfl) (fun _ => rfl) fun _ => rfl
  | clear t u =>
    cases hl
    refine ⟨h.toUnits.setSnaps (fun v hv => h.reads t v (Or.inl (List.mem_of_mem_erase hv))) fun hne => ?_,
      h.fault, h.counted.count, h.counted.alive⟩
    refine h.busy t (Or.inr ?_)
    intro he
    rw [he] at hne
    exact hne rfl
  | store t x v =>
    obtain ⟨⟨⟨ht, _⟩, hv⟩, hl⟩ := Option.ite_none_right_eq_some.mp hl
    cases hl
    exact ((h.nest t).putMoved ht (h.toUnits.nest_idle t) hg hv).unnest t
  | storeSnapshot t x v =>
    obtain ⟨⟨⟨ht, _⟩, hv⟩, hl⟩ := Option.ite_none_right_eq_some.mp hl
    cases hl
    exact ((h.nest t).putSnapshot ht (h.toUnits.nest_idle t) hg hv).unnest t
  | casMove t x expected v =>
    obtain ⟨⟨⟨ht, _⟩, hv⟩, hl⟩ := Option.ite_none_right_eq_some.mp hl
    split at hl
    · cases hl
      exact ((h.nest t).putMoved ht (h.toUnits.nest_idle t) hg hv).unnest t
    · cases hl
      exact h
  | casCopy t x expected v =>
    obtain ⟨⟨⟨ht, _⟩, hv⟩, hl⟩ := Option.ite_none_right_eq_some.mp hl
    split at hl
    · cases hl
      exact ((h.nest t).putCopied ht (h.toUnits.nest_idle t) hg hv).unnest t
    · cases hl
      exact h
  | step t a =>
    obtain ⟨_, hl⟩ := Option.ite_none_right_eq_some.mp hl
    obtain ⟨s₁, hs₁, rfl⟩ := Option.map_eq_some_iff.mp hl
    exact (h.step hn hs₁).unnest t
  | destroyLoc t x a =>
    obtain ⟨_, hl⟩ := Option.ite_none_right_eq_some.mp hl
    split at hl
    · next u hx => exact h.destroyLoc hn hx hl
    · cases hl
      exact h
  | eject t =>
    simp only [Pointers.next] at hl
    split at hl
    · next i hc =>
      obtain ⟨⟨he, _⟩, hl⟩ := Option.ite_none_right_eq_some.mp hl
      cases hl
      exact h.eject hc he
    · cases hl

theorem reach_inv (hn : ∀ m, cfg.numThreads ≤ cfg.threshold m)
    (hr : ((machine cfg).restrict InGuard).Reach s) : Inv cfg.numThreads s := by
  refine hr.invariant (fun s hs => ?_) fun s l s' h hl => ?_
  · cases hs
    exact Inv.initial _
  · obtain ⟨hg, hl⟩ := Machine.restrict_next.mp hl
    exact h.next hn hg hl

end Runs

/-- What the library promises of strong pointers. -/
structure State.Safe (s : State) : Prop where
  /-- no count of a deleted object was accessed -/
  fault : s.fault = false
  /-- a count is the number of units that have been counted and not given up -/
  count : ∀ p, s.count p = (s.paid p).card
  /-- an object is deleted exactly when its count is zero -/
  alive : ∀ p, s.alive p = true ↔ 0 < s.count p
  /-- no location, no snapshot and no call that has read a location points to a deleted object -/
  loc : ∀ x u, s.loc x = some u → s.alive (s.share u).obj = true
  snap : ∀ t, ∀ u ∈ s.snaps t, s.alive (s.share u).obj = true
  read : ∀ c u, (s.op c).read = some u → s.alive (s.share u).obj = true
  /-- what `delayed_decrement_ref_cnt` asserts -/
  hand : ∀ c u, (s.op c).hand = some u → 1 ≤ s.count (s.share u).obj

/-- **Strong pointers over Hyaline are safe.** In every run of any number of threads whose operations that
need a guard are begun in the scope of one, with batches that are not smaller than the number of
threads. -/
theorem pointers_safe {cfg : Config} (hn : ∀ m, cfg.numThreads ≤ cfg.batchSize m * cfg.numThreads % 2 ^ 64)
    {s : State} (hr : ((machine cfg).restrict InGuard).Reach s) : s.Safe := by
  have h := reach_inv hn hr
  refine ⟨h.fault, h.counted.count, h.counted.alive, fun x u hx => ?_, fun t u hu => ?_, fun c u hu => ?_,
    fun c u hu => ?_⟩
  · obtain ⟨hu, hp⟩ := (h.locs x u).mp hx
    exact (h.counted.alive _).mpr (h.guarded_pos u hu 0 (Or.inl ⟨x, hp⟩))
  · obtain ⟨hu, hg⟩ := h.reads t u (Or.inl hu)
    exact (h.counted.alive _).mpr (h.guarded_pos u hu t hg)
  · obtain ⟨hu, hg⟩ := h.reads c.1 u (State.reads_of_op hu)
    exact (h.counted.alive _).mpr (h.guarded_pos u hu c.1 hg)
  · obtain ⟨hu, hp⟩ := (h.hands c u).mp hu
    exact h.guarded_pos u hu c.1 (Or.inr (Or.inl ⟨c, hp⟩))

/-- Thread 1 takes a snapshot of the object 7, then thread 0 stores `nullptr` and retires. -/
def snapshotKept : List Label :=
  [.make 7, .begin 0, .store 0 0 (some 0), .begin 1, .getSnapshot 1 0, .step 1 0, .store 0 0 none, .step 0 10]

theorem pointers_safe_snapshotKept :
    ∃ s, ((machine Batches.threeNodes).restrict InGuard).exec snapshotKept .initial = some s ∧
      s.loc 0 = none ∧ s.snaps 1 = [0] ∧ (s.share 0).obj = 7 ∧ s.alive 7 = true := by
  have he : ∃ s, ((machine Batches.threeNodes).restrict InGuard).exec snapshotKept .initial = some s ∧
      s.loc 0 = none ∧ s.snaps 1 = [0] ∧ (s.share 0).obj = 7 := ⟨_, rfl, rfl, rfl, rfl⟩
  obtain ⟨s, hs, hx, hsn, ho⟩ := he
  have hr := (Machine.Reach.init (M := (machine Batches.threeNodes).restrict InGuard) rfl).exec hs
  have hn : ∀ m, Batches.threeNodes.numThreads ≤
      Batches.threeNodes.batchSize m * Batches.threeNodes.numThreads % 2 ^ 64 :=
    fun _ => by simp only [Batches.threeNodes]; decide
  have ha := (pointers_safe hn hr).snap 1 0 (by rw [hsn]; exact List.mem_cons_self)
  rw [ho] at ha
  exact ⟨s, hs, hx, hsn, ho, ha⟩

end Cdrc.Hyaline.Pointers
