import Cdrc.Hyaline.Batches

/-! # The grace period of a retired pointer

`tracker_protocol` speaks of the sections that are open when `add_batch` begins. A pointer is
retired before that, maybe long before: its node waits in the local batch until there are enough
of them. A section that is open at the `retire` and has not ended since is also open when the batch
is handed over, so it is the call of `retire` from which on a reader is safe. -/
namespace Cdrc.Hyaline.Batches
open Cdrc.Lib.Runs
open Cdrc.Hyaline.Tracker (Ptr)

/-! ## Sections end once -/

/-- No step of the tracker from `tr` to `tr'` opens a section again that was begun before. -/
structure Later (tr tr' : Tracker.State) : Prop where
  begun : ∀ t, tr.begun t ≤ tr'.begun t
  section_ : ∀ r, r.2 ≤ tr.begun r.1 → tr'.InSection r → tr.InSection r
  present : ∀ b < tr.created, (tr'.batch b).present = (tr.batch b).present

section Tracker
variable {tr tr₁ tr' : Tracker.State} {n t b : Nat} {fs : List Tracker.Frame} {cfg : Tracker.Config}

theorem Later.of_eq (hr : tr'.rsrv = tr.rsrv) (hb : tr'.begun = tr.begun)
    (hp : ∀ b < tr.created, (tr'.batch b).present = (tr.batch b).present) : Later tr tr' where
  begun := fun t => by rw [hb]
  section_ := by
    intro r _ h
    rw [Tracker.State.InSection, hr, hb] at h
    exact h
  present := hp

theorem present_update (f : Nat → Tracker.Batch) {B : Tracker.Batch} (hB : B.present = (f b).present)
    (c : Nat) : (Function.update f b B c).present = (f c).present := by
  by_cases hc : c = b
  · rw [hc, Function.update_self, hB]
  · rw [Function.update_of_ne hc]

theorem later_begin : Later tr (tr.begin t) := by
  unfold Tracker.State.begin
  split
  · refine ⟨fun u => ?_, fun r hr hin => ?_, fun _ _ => rfl⟩
    · by_cases hu : u = t
      · subst hu
        simp
      · simp [Function.update_of_ne hu]
    · obtain ⟨hopen, hnum⟩ := hin
      by_cases hu : r.1 = t
      · simp only [hu, Function.update_self] at hnum
        rw [hu] at hr
        omega
      · simp only [Function.update_of_ne hu] at hopen hnum
        exact ⟨hopen, hnum⟩
  · exact Later.of_eq rfl rfl fun _ _ => rfl

theorem later_end : Later tr (tr.end_ t) := by
  refine ⟨fun _ => Nat.le_refl _, fun r _ hin => ?_, fun _ _ => rfl⟩
  obtain ⟨hopen, hnum⟩ := hin
  refine ⟨fun hinv => hopen ?_, hnum⟩
  by_cases hu : r.1 = t
  · simp [Tracker.State.end_, hu]
  · simpa [Tracker.State.end_, Tracker.State.setSec, Function.update_of_ne hu] using hinv

theorem later_traverse {c : Tracker.Section} (h : tr.traverse t fs c = some tr') : Later tr tr' := by
  unfold Tracker.State.traverse at h
  split at h
  · cases h
  · cases h
  · cases h
    exact Later.of_eq rfl rfl fun _ _ => rfl
  · split at h <;> (cases h; exact Later.of_eq rfl rfl fun _ _ => rfl)
  · split at h <;> (cases h; exact Later.of_eq rfl rfl fun _ _ => rfl)
  · split at h
    · next refs nx r b v nx' bl hlive =>
      split at h
      · cases h
        refine Later.of_eq rfl rfl fun c _ => ?_
        exact (present_update _ (by rfl) c).trans (present_update tr.batch (by rfl) c)
      · cases h
        exact Later.of_eq rfl rfl fun c _ => present_update tr.batch (by rfl) c
    · cases h
      exact Later.of_eq rfl rfl fun _ _ => rfl

/-- Only a list that is in a section receives a node. -/
theorem later_push {curr prev : Ptr} {cnt : Int} {i : Nat} (hprev : prev ≠ .inv)
    (h : tr.addStep n t fs (.push b curr cnt i prev) = some tr') : Later tr tr' := by
  simp only [Tracker.State.addStep] at h
  split at h
  · next heq =>
    split at h
    · cases h
      refine ⟨fun _ => Nat.le_refl _, fun r _ hin => ?_, fun c _ => present_update tr.batch (by rfl) c⟩
      refine ⟨fun hinv => ?_, hin.2⟩
      by_cases hi : r.1 = i
      · rw [hi, heq] at hinv
        exact hprev hinv
      · exact hin.1 ((Function.update_of_ne hi _ _).trans hinv)
    · cases h
      exact Later.of_eq rfl rfl fun _ _ => rfl
  · cases h
    exact Later.of_eq rfl rfl fun _ _ => rfl

theorem later_run (hi : Tracker.Inv n tr) (h : tr.run n t (tr.stack t) = some tr') : Later tr tr' := by
  cases hs : tr.stack t with
  | nil =>
    rw [hs] at h
    cases h
  | cons f fs =>
    rw [hs] at h
    cases f with
    | guard => exact later_traverse h
    | push b curr cnt i prev =>
      obtain ⟨_, _, _, hprev, _⟩ := hi.top hs
      simp only [Tracker.State.run, Tracker.State.freeStep, Option.or_none] at h
      exact later_push hprev h
    | addBatch b curr cnt i =>
      simp only [Tracker.State.run, Tracker.State.addStep, Tracker.State.freeStep, Option.or_none] at h
      split at h
      · split at h
        · cases h
          exact Later.of_eq rfl rfl fun c _ => present_update tr.batch (by rfl) c
        · cases h
          exact Later.of_eq rfl rfl fun _ _ => rfl
      · split at h
        · split at h
          · cases h
            refine Later.of_eq rfl rfl fun c _ => ?_
            exact (present_update _ (by rfl) c).trans (present_update tr.batch (by rfl) c)
          · cases h
            exact Later.of_eq rfl rfl fun c _ => present_update tr.batch (by rfl) c
        · cases h
          exact Later.of_eq rfl rfl fun _ _ => rfl
    | setNext b curr cnt i prev =>
      simp only [Tracker.State.run, Tracker.State.addStep, Tracker.State.freeStep, Option.or_none] at h
      split at h <;> (cases h; exact Later.of_eq rfl rfl fun _ _ => rfl)
    | advance b curr cnt i =>
      simp only [Tracker.State.run, Tracker.State.addStep, Tracker.State.freeStep, Option.or_none] at h
      split at h <;> (cases h; exact Later.of_eq rfl rfl fun _ _ => rfl)
    | freeStart b refs =>
      simp only [Tracker.State.run, Tracker.State.addStep, Tracker.State.freeStep, Option.none_or] at h
      split at h <;> (cases h; exact Later.of_eq rfl rfl fun _ _ => rfl)
    | freeNode b p =>
      simp only [Tracker.State.run, Tracker.State.addStep, Tracker.State.freeStep, Option.none_or] at h
      split at h <;> (cases h; exact Later.of_eq rfl rfl fun _ _ => rfl)
    | callback b p q =>
      simp only [Tracker.State.run, Tracker.State.addStep, Tracker.State.freeStep, Option.none_or] at h
      split at h
      · cases h
        exact Later.of_eq rfl rfl fun c _ => present_update tr.batch (by rfl) c
      · cases h
        exact Later.of_eq rfl rfl fun _ _ => rfl

end Tracker

/-! ## The sections open at a `retire` -/

/-- For every node, by its number, the sections that were open when it was retired. -/
def State.log (s : State) (n : Nat) (opened : Nat → Finset (Nat × Nat)) :
    Label → Nat → Finset (Nat × Nat)
  | .retire _ _ (some _) _ => Function.update opened s.created (s.tracker.openSections n)
  | _ => opened

/-- The machine of the batches, with that record. -/
def recorded (cfg : Config) : Machine (State × (Nat → Finset (Nat × Nat))) Label :=
  (machine cfg).recorded (fun _ => ∅) fun s l opened => s.log cfg.numThreads opened l

/-- A section that was open at a `retire` and still is was also open when the batch of the node was
handed over. -/
structure Grace (n : Nat) (s : State) (opened : Nat → Finset (Nat × Nat)) : Prop where
  begun : ∀ i < s.created, ∀ r ∈ opened i, r.1 < n ∧ r.2 ≤ s.tracker.begun r.1
  present : ∀ b < s.tracker.created, ∀ i ∈ s.members b, ∀ r ∈ opened i, s.tracker.InSection r →
    r ∈ (s.tracker.batch b).present

section Grace
variable {cfg : Config} {n : Nat} {s s' : State} {opened : Nat → Finset (Nat × Nat)} {t a b i : Nat}
  {r : Nat × Nat}

theorem Grace.initial (n : Nat) : Grace n .initial fun _ => ∅ where
  begun := by intro i hi; cases hi
  present := by intro b hb; cases hb

/-- The members of a batch were created. -/
theorem Inv.member_lt (h : Inv n s) (hb : b < s.tracker.created) (hi : i ∈ s.members b) :
    i < s.created :=
  h.books.lt i (.handed b) ⟨hb, hi⟩

/-- A step of the tracker. -/
theorem Grace.later (g : Grace n s opened) (h : Inv n s) {tr' : Tracker.State}
    (hl : Later s.tracker tr') (hc : tr'.created = s.tracker.created) (hs : s'.tracker = tr')
    (hcreated : s'.created = s.created) (hm : s'.members = s.members) : Grace n s' opened where
  begun := by
    intro i hi r hr
    rw [hcreated] at hi
    rw [hs]
    obtain ⟨h1, h2⟩ := g.begun i hi r hr
    exact ⟨h1, Nat.le_trans h2 (hl.begun _)⟩
  present := by
    intro b hb i hi r hr hin
    rw [hs, hc] at hb
    rw [hm] at hi
    rw [hs] at hin ⊢
    rw [hl.present b hb]
    exact g.present b hb i hi r hr (hl.section_ r (g.begun i (h.member_lt hb hi) r hr).2 hin)

theorem Grace.retire (g : Grace n s opened) (h : Inv n s) {m : Nat} :
    Grace n (s.retire m t a) (Function.update opened s.created (s.tracker.openSections n)) where
  begun := by
    intro i hi r hr
    change i < s.created + 1 at hi
    by_cases he : i = s.created
    · subst he
      rw [Function.update_self, Tracker.State.mem_openSections] at hr
      exact ⟨hr.1, Nat.le_of_eq hr.2.2⟩
    · rw [Function.update_of_ne he] at hr
      exact g.begun i (by omega) r hr
  present := by
    intro b hb i hi r hr hin
    have hlt : i < s.created := h.member_lt hb hi
    rw [Function.update_of_ne (Nat.ne_of_lt hlt)] at hr
    exact g.present b hb i hi r hr hin

theorem Grace.handOver (g : Grace n s opened) (h : Inv n s) {q : Retire} {refs : Nat}
    {rs : List Retire} : Grace n (s.handOver n q t refs rs) opened where
  begun := g.begun
  present := by
    intro b hb i hi r hr hin
    change b < s.tracker.created + 1 at hb
    have hin' : s.tracker.InSection r := hin
    by_cases he : b = s.tracker.created
    · subst he
      have hi' : i ∈ (s.nodes (q.manager, t)).map s.number := by
        simpa only [State.handOver, Function.update_self] using hi
      have hlt := h.books.lt i (.localBatch (q.manager, t)) hi'
      have hp : r ∈ s.tracker.openSections n :=
        Tracker.State.mem_openSections.mpr ⟨(g.begun i hlt r hr).1, hin'.1, hin'.2.symm⟩
      simpa only [State.handOver, Tracker.State.setStack, Tracker.State.setBatch,
        Function.update_self] using hp
    · have hb' : b < s.tracker.created := by omega
      have hi' : i ∈ s.members b := by
        simpa only [State.handOver, Function.update_of_ne he] using hi
      simpa only [State.handOver, Tracker.State.setStack, Tracker.State.setBatch,
        Function.update_of_ne he] using g.present b hb' i hi' r hr hin'

theorem record_created : (s.record t).created = s.created := by
  unfold State.record
  split <;> rfl

theorem Grace.next (g : Grace cfg.numThreads s opened) (h : Inv cfg.numThreads s) {l : Label}
    (hl : next cfg s l = some s') : Grace cfg.numThreads s' (s.log cfg.numThreads opened l) := by
  cases l with
  | begin t =>
    obtain ⟨_, hl⟩ := Option.ite_none_right_eq_some.mp hl
    obtain ⟨tr', htr, rfl⟩ := Option.map_eq_some_iff.mp hl
    obtain ⟨_, htr⟩ := Option.ite_none_right_eq_some.mp htr
    cases htr
    exact g.later h later_begin kept_begin.created rfl rfl rfl
  | end_ t =>
    obtain ⟨_, hl⟩ := Option.ite_none_right_eq_some.mp hl
    obtain ⟨tr', htr, rfl⟩ := Option.map_eq_some_iff.mp hl
    obtain ⟨_, htr⟩ := Option.ite_none_right_eq_some.mp htr
    cases htr
    exact g.later h later_end kept_end.created rfl rfl rfl
  | retire m t p a =>
    obtain ⟨_, hl⟩ := Option.ite_none_right_eq_some.mp hl
    cases p with
    | none =>
      cases hl
      exact g
    | some p =>
      obtain ⟨_, hl⟩ := Option.ite_none_right_eq_some.mp hl
      cases hl
      exact g.retire h
  | run t =>
    simp only [Batches.next] at hl
    split at hl
    · next q rs _ =>
      simp only [State.loop] at hl
      split at hl
      · cases hl
        exact ⟨g.begun, g.present⟩
      · split at hl
        · split at hl
          · cases hl
            exact g.handOver h
          · cases hl
            exact ⟨g.begun, g.present⟩
        · cases hl
          exact ⟨g.begun, g.present⟩
    · obtain ⟨tr', htr, rfl⟩ := Option.map_eq_some_iff.mp hl
      have hcreated : tr'.created = s.tracker.created := by
        rcases kept_run htr with hk | ⟨b, p, q, fs, hs⟩
        · exact hk.created
        · obtain ⟨a, _, _, hrun⟩ := run_callback h.tracker hs
          rw [show s.tracker.run cfg.numThreads t (s.tracker.stack t) = some tr' from htr] at hrun
          cases hrun
          rfl
      exact g.later h (later_run h.tracker htr) hcreated rfl record_created record_members

/-- Nothing of the batch has been passed to `decrement`. -/
theorem Grace.kept (g : Grace n s opened) (h : Inv n s) (hb : b < s.tracker.created)
    (hi : i ∈ s.members b) (hr : r ∈ opened i) (hin : s.tracker.InSection r) :
    (s.tracker.batch b).frees = 0 := by
  have hbi := h.tracker.batches b hb
  have hp := g.present b hb i hi r hr hin
  refine hbi.frees.trans (if_neg fun hc => ?_)
  rcases hbi.present r hp hin with h1 | h1
  · have hlt := (hbi.present_le r hp).1
    rw [hbi.complete hc.1] at h1
    omega
  · rw [hc.2] at h1
    cases h1

/-- The node in a callback is a member of its batch. -/
theorem Inv.callback_member (h : Inv n s) {q : Ptr}
    (hf : .callback b (.node a) q ∈ s.tracker.stack t) :
    b < s.tracker.created ∧ s.number a ∈ s.members b ∧ (s.tracker.batch b).frees = 1 := by
  obtain ⟨x, hfr, hp, _⟩ := frameInv_of_mem (h.tracker.frames t) hf
  have hlt : (s.tracker.batch b).deleted < (s.tracker.batch b).nodes.length := by
    rw [Tracker.Batch.nodes, List.length_append]
    exact Nat.lt_succ_of_le hfr.left
  have ha := List.getElem?_eq_getElem hlt
  rw [Tracker.Batch.ptr_of_getElem? ha] at hp
  cases hp
  exact ⟨hfr.lt, List.mem_of_getElem? ((h.history b hfr.lt).named _ _ (Nat.le_refl _) ha), hfr.freed⟩

theorem recorded_inv (hn : ∀ m, cfg.numThreads ≤ cfg.threshold m) {s : State × (Nat → Finset (Nat × Nat))}
    (hr : (recorded cfg).Reach s) : Inv cfg.numThreads s.1 ∧ Grace cfg.numThreads s.1 s.2 := by
  refine hr.invariant (I := fun s => Inv cfg.numThreads s.1 ∧ Grace cfg.numThreads s.1 s.2)
    (fun s hs => ?_) fun s l s' h hl => ?_
  · obtain ⟨hs, hg⟩ := hs
    obtain ⟨s, opened⟩ := s
    cases hs
    cases hg
    exact ⟨Inv.initial _, Grace.initial _⟩
  · obtain ⟨s₁, hs₁, rfl⟩ := Option.map_eq_some_iff.mp hl
    exact ⟨h.1.next hn hs₁, h.2.next h.1 hs₁⟩

end Grace

/-- **The grace period of a `retire`.** In every run: as long as a section that was open when a
pointer was retired has not ended, the pointer is not passed to `decrement`, neither by a
`free_batch` that has returned from it nor by one that is in it. -/
theorem retire_grace {cfg : Config} (hn : ∀ m, cfg.numThreads ≤ cfg.batchSize m * cfg.numThreads % 2 ^ 64)
    {s : State × (Nat → Finset (Nat × Nat))} (hr : (recorded cfg).Reach s) {i : Nat} {r : Nat × Nat}
    (hi : i < s.1.created) (ho : r ∈ s.2 i) (hin : s.1.tracker.InSection r) :
    (∀ b, i ∉ s.1.visited b) ∧
      ∀ t b a q, .callback b (.node a) q ∈ s.1.tracker.stack t → s.1.number a ≠ i := by
  obtain ⟨h, g⟩ := recorded_inv hn hr
  refine ⟨fun b hv => ?_, fun t b a q hf he => ?_⟩
  · by_cases hb : b < s.1.tracker.created
    · have hhist := h.history b hb
      rw [hhist.visited] at hv
      have hkept := g.kept h hb (List.mem_of_mem_take hv) ho hin
      rw [(h.tracker.batches b hb).kept hkept, List.take_zero] at hv
      cases hv
    · rw [(h.unused b (Nat.le_of_not_lt hb)).1] at hv
      cases hv
  · obtain ⟨hb, hm, hf⟩ := h.callback_member hf
    rw [he] at hm
    have hkept := g.kept h hb hm ho hin
    omega

theorem two_tids_fit : 2 ≤ 2 ^ 31 := by decide

/-- Two threads, and three nodes to a batch. -/
def threeNodes : Config := ⟨⟨2, two_tids_fit⟩, fun _ => 1, fun _ => by decide, fun _ => by decide⟩

/-- Thread 1 is in a section when thread 0 retires three pointers, the third of which fills a
batch. The batch is added and has a node in the list of thread 1. -/
def oneSection : List Label :=
  [.begin 1, .retire 0 0 (some 1) 10, .run 0, .retire 0 0 (some 2) 11, .run 0,
    .retire 0 0 (some 3) 12] ++ List.replicate 9 (.run 0)

theorem retire_grace_oneSection :
    ∃ s, (recorded threeNodes).exec oneSection (.initial, fun _ => ∅) = some s ∧
      (1, 1) ∈ s.2 0 ∧ s.1.tracker.InSection (1, 1) ∧ s.1.members 0 = [2, 1, 0] ∧
      s.1.tracker.stack 0 = [] ∧ 0 ∉ s.1.visited 0 := by
  have he : ∃ s, (recorded threeNodes).exec oneSection (.initial, fun _ => ∅) = some s ∧
      s.1.created = 3 ∧ (1, 1) ∈ s.2 0 ∧ s.1.tracker.InSection (1, 1) ∧ s.1.members 0 = [2, 1, 0] ∧
      s.1.tracker.stack 0 = [] := by
    refine ⟨_, rfl, rfl, ?_, ⟨?_, rfl⟩, rfl, rfl⟩
    · decide
    · decide
  obtain ⟨s, hs, hc, ho, hin, hm, hst⟩ := he
  have hinit : (recorded threeNodes).init (.initial, fun _ => ∅) := ⟨rfl, rfl⟩
  have hr := (Machine.Reach.init hinit).exec hs
  have hn : ∀ m, threeNodes.numThreads ≤ threeNodes.batchSize m * threeNodes.numThreads % 2 ^ 64 :=
    fun _ => by simp only [threeNodes]; decide
  exact ⟨s, hs, ho, hin, hm, hst, (retire_grace hn hr (by omega) ho hin).1 0⟩

end Cdrc.Hyaline.Batches
