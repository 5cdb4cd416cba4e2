import Cdrc.Smr.Specs

/-! # Reference counting over a memory manager: every operation keeps the invariant -/
namespace Cdrc.Smr
open Cdrc.StickyCounter Cdrc.CountedObject Cdrc.Lib.Threads Cdrc.Lib.Units Prog Logic

variable {n : Nat} {cfg : Config} {t : Fin n} {l l' : Local n} {κ : Kind} {i x w : Nat} {o : Obj}
  {s : State n}

/-! ## What callers keep to -/

theorem AtRest.canRead (h : AtRest (s.loc t)) (hr : ready cfg s t κ = true) :
    CanRead cfg (s.loc t) κ := by
  simp only [ready, Bool.and_eq_true, Bool.or_eq_true, decide_eq_true_eq] at hr
  refine ⟨h.debt, h.reading, hr.1, fun hb => ?_⟩
  have := hr.2.resolve_left hb
  exact Option.isSome_iff_ne_none.mp this

/-- A thread that has read is between two operations again. -/
theorem AtRest.hasRead (ok : Guard → Prop) (h : AtRest l) (hr : HasRead ok l l')
    (h0 : l'.guards 0 = none) (hok : ∀ g, ok g → g.kind = .strong ∨ g.confirmed = true) :
    AtRest l' := by
  obtain ⟨h1, h2, h3, h4, h5, h6, _⟩ := hr.others.fields
  refine ⟨h1.trans h.hand, h2.trans h.desired, h3.trans h.debt, h4.trans h.pass, h6.trans h.reading,
    h0, fun o => by rw [h5]; exact h.owned o, fun i g hg => ?_⟩
  rcases hr.guards i with h7 | h7
  · exact h.seen i g (h7 ▸ hg)
  · exact hok g (h7 g hg)

/-- The guard of a snapshot can be published. -/
theorem AtRest.canInstall (h : AtRest (s.loc t)) (hi : 0 < i)
    (hk : ∀ g, s.guards t i = some g → κ = .strong → g.kind = .strong)
    (hsec : cfg.backend ≠ .hp → s.localEpoch t ≠ none) :
    CanInstall cfg t (s.loc t) κ (.guard i) := by
  intro L s₁ hinv hl
  refine ⟨h.debt, fun g hg => ⟨hg, hk g hg, h.debt, hsec, fun hb => ?_⟩⟩
  -- the section has covered the object since the snapshot was taken
  rw [← hl] at hg ⊢
  obtain ⟨j, rfl⟩ : ∃ j, i = j + 1 := ⟨i - 1, by omega⟩
  have hcov := hinv.prots.guard_cov hb t j g hg
  obtain ⟨k, h1, h2, _⟩ := hinv.guard_token hg
  obtain ⟨ob, hm⟩ := Option.ne_none_iff_exists'.mp (h2 ▸ hinv.counted.present k h1)
  have hloc : (s₁.loc t).localEpoch = s.localEpoch t := congrArg Local.localEpoch hl
  refine ⟨?_, fun a ha => (hinv.prots.cov_end t g.obj a ob hcov ha hm).1⟩
  obtain ⟨a, ha⟩ := Option.ne_none_iff_exists'.mp (hsec (by rw [hb]; decide))
  rw [hinv.guards.birth t _ g ob hg hm]
  exact (hinv.prots.cov_end t g.obj a ob hcov (hloc.trans ha) hm).2

/-! ## Pieces of operations -/

/-- The part of a thread under a reservation of variable `i`. -/
def Local.reserved (l : Local n) (κ : Kind) (i : Nat) (y : Option Guard) (sl : Nat → Option Obj)
    (b : Bool) (e r : Nat) : Local n :=
  { l with
    slots := sl, reading := some (κ, i), guards := Function.update l.guards 0 y, late := b,
    endTS := e, readTS := r }

theorem wp_reserve {Q : Option Obj → Local n → Prop} (hd : l.debt = none) (h0 : l.guards 0 = none)
    (hQ : ∀ v y sl b e r, (∀ g, y = some g → g.kind = κ) →
      (cfg.backend = .ibr → (∀ g, y = some g → g.birthTS ≤ e) ∧
        ∀ a, l.localEpoch = some a → a ≤ e) → Q v (l.reserved κ i y sl b e r)) :
    Wp cfg t (reserve cfg κ i) Q l := by
  unfold reserve
  refine wp_bind.mpr (wp_action fun L s c r s' h hl _ he => ?_)
  simp only [exec, Option.some.injEq] at he
  subst hl
  obtain ⟨h1, y, sl, h2, h3⟩ := h.reserve (κ := κ) (i := i) hd h0
  rw [he] at h1 h2
  refine ⟨h1, ?_⟩
  change Wp cfg t _ _ (s'.loc t)
  rw [h2]
  by_cases hb : cfg.backend = .ibr
  · rw [if_pos hb]
    refine wp_bind.mpr (wp_readEpoch fun e hee _ hle hbirth => ?_)
    refine wp_bind.mpr (wp_readEnd ?_)
    have hby : ∀ g, y = some g → g.birthTS ≤ e := by
      rintro g rfl
      exact hbirth 0 g (by simp)
    split
    · refine wp_bind.mpr (wp_writeEnd hee rfl ?_)
      exact hQ r y sl false e e h3 fun _ => ⟨hby, hle⟩
    · rename_i hne
      have hend : s.endTS t = e := by simpa [State.loc] using hne
      exact hQ r y sl (s.late t) (s.endTS t) e h3 fun _ => ⟨hend ▸ hby, hend ▸ hle⟩
  · rw [if_neg hb]
    exact hQ r y sl (s.late t) (s.endTS t) (s.readTS t) h3 fun hc => absurd hc hb

theorem wp_move {p q : Spot} {Q : Bool → Local n → Prop} (hok : SpotsOk cfg l p q)
    (hQ : ∀ r y, (∀ κ i k, p = .var κ i → y = some k → k.type = κ.type) → Q r (l.moved y p q)) :
    Wp cfg t (perform (.move p q)) Q l := by
  refine wp_action fun L s c r s' h hl _ he => ?_
  subst hl
  obtain ⟨h1, y, h2, h3⟩ := h.moveSpot hok he
  rw [h2]
  exact ⟨h1, hQ r y h3⟩

theorem wp_increment_desired {via : Via} {checked : Bool} {Q : Bool → Local n → Prop}
    (hok : ViaOk l.guards κ via ∨ (checked = true ∧ cfg.atomicCounters = true))
    (hdes : l.desired = none)
    (hQ : ∀ r y, (∀ k, y = some k → k.type = κ.type) → Q r { l with desired := y }) :
    Wp cfg t (perform (.increment κ via .desired checked)) Q l := by
  refine wp_action fun L s c r s' h hl _ he => ?_
  subst hl
  obtain ⟨h1, h2 | ⟨_, k, h2, h3⟩⟩ := h.increment hok (Or.inl rfl) he
  · refine ⟨h1, ?_⟩
    have := hQ r none (by simp)
    rw [h2]
    rwa [← hdes] at this
  · rw [h3]
    refine ⟨h1, hQ r (some k) ?_⟩
    rintro _ ⟨⟩
    exact h2

theorem wp_create {birth : Nat} {Q : Unit → Local n → Prop} (hb : birth ≤ l.readTS) (hQ : Q () l) :
    Wp cfg t (perform (.create x birth)) Q l := by
  refine wp_action fun L s c r s' h hl _ he => ?_
  subst hl
  simp only [exec] at he
  split at he
  · split at he
    · rename_i hc
      cases he
      obtain ⟨h1, h2⟩ := h.create (t := t) hc.1 hc.2 (Nat.le_trans hb (h.epochs.readTS_le t))
      rw [h2]
      exact ⟨h1, hQ⟩
    · cases he
  · cases he

/-- `work_toward_advancing_epoch`. -/
theorem wp_epochTick {Q : Bool → Local n → Prop} (hQ : ∀ r, Q r l) :
    Wp cfg t (perform .epochTick) Q l := by
  refine wp_pass (fun L s c r s' h he => ?_) hQ
  simp only [exec, State.epochTick] at he
  split at he <;> cases he <;> exact ⟨⟨L, { h with }⟩, rfl⟩

theorem wp_advanceEpoch {Q : Unit → Local n → Prop} (hQ : Q () l) :
    Wp cfg t (perform .advanceEpoch) Q l :=
  wp_pass (fun L s c r s' h he => by cases he; exact ⟨⟨L, h.advanceEpoch⟩, rfl⟩) fun _ => hQ

theorem wp_createObject {Q : Unit → Local n → Prop} (hQ : ∀ r, Q () { l with readTS := r }) :
    Wp cfg t (createObject cfg x) Q l := by
  unfold createObject
  cases cfg.backend with
  | hp => exact wp_create (Nat.zero_le _) (hQ l.readTS)
  | ebr =>
    refine wp_bind.mpr (wp_epochTick fun b => ?_)
    cases b with
    | true => exact wp_bind.mpr (wp_advanceEpoch (wp_create (Nat.zero_le _) (hQ l.readTS)))
    | false => exact wp_create (Nat.zero_le _) (hQ l.readTS)
  | ibr =>
    have hrest : Wp cfg t (do
        let birth ← perform .readEpoch
        perform (.create x birth)) Q l :=
      wp_bind.mpr (wp_readEpoch fun e _ _ _ _ => wp_create (Nat.le_refl _) (hQ e))
    refine wp_bind.mpr (wp_epochTick fun b => ?_)
    cases b with
    | true => exact wp_bind.mpr (wp_advanceEpoch hrest)
    | false => exact hrest

/-! ## The operations -/

theorem AtRest.mono (h : AtRest l) (hs : SameElse l l') (hg : l'.guards = l.guards) : AtRest l' :=
  h.hasRead (fun _ => False) (.refl hs hg) (by rw [hg]; exact h.acquired) fun _ hc => hc.elim

theorem AtRest.install (cfg : Config) (κ : Kind) (new : New) (h : AtRest l) :
    AtRest ({ l.install cfg κ new with debt := none } : Local n) := by
  have hsame : ∀ {a : Local n}, a.hand = l.hand → a.desired = none → a.debt = none →
      a.pass = l.pass → a.reading = l.reading → a.guards = l.guards → a.owned = l.owned →
      AtRest a := by
    intro a h1 h2 h3 h4 h5 h6 h7
    exact ⟨h1.trans h.hand, h2, h3, h4.trans h.pass, h5.trans h.reading, by rw [h6, h.acquired],
      fun o => by rw [h7, h.owned], by rw [h6]; exact h.seen⟩
  cases new with
  | guard j =>
    simp only [Local.install]
    split
    · exact hsame rfl h.desired rfl rfl rfl rfl rfl
    · exact hsame rfl h.desired rfl rfl rfl rfl rfl
  | desired => exact hsame rfl rfl rfl rfl rfl rfl rfl
  | null => exact hsame rfl h.desired rfl rfl rfl rfl rfl
  | var κ' j => exact hsame rfl h.desired rfl rfl rfl rfl rfl

theorem AtRest.payless (h : AtRest l) : ({ l with debt := none } : Local n) = l := by
  rw [← h.debt]

/-- A store of a pointer that is in the thread's hands. -/
theorem wp_store_desired {y : Option Token} (h : AtRest l) (hy : ∀ k, y = some k → k.type = κ.type) :
    Wp cfg t (exchangeAndRetire κ x .desired) (fun _ l => AtRest l) { l with desired := y } := by
  refine wp_exchangeAndRetire h.hand h.debt (fun _ _ _ _ => hy) ?_ ?_
  · rintro ⟨i, hi⟩
    cases hi
  · exact (h.install cfg κ .desired :)

theorem wp_op_beginGuard (h : AtRest l) :
    Wp cfg t (Op.code cfg .beginGuard) (fun _ l => AtRest l) l := by
  have hpush : ∀ {b : Bool} {l₁ : Local n}, AtRest l₁ →
      Wp cfg t (perform (.pushGuard b)) (fun _ l => AtRest l) l₁ := fun h₁ =>
    wp_pass (fun L s c r s' h he => by cases he; exact ⟨⟨L, { h with }⟩, rfl⟩) fun _ => h₁
  refine wp_bind.mpr (wp_action fun L s c r s' hi hl _ he => ?_)
  cases he
  refine ⟨⟨L, hi⟩, ?_⟩
  change Wp cfg t _ _ (s.loc t)
  cases hs : s.localEpoch t with
  | some a =>
    rw [hl]
    exact hpush h
  | none =>
    have hsl : l.localEpoch = none := by rw [← hl]; exact hs
    rw [hl]
    refine wp_bind.mpr (wp_readEpoch fun e _ _ _ _ => ?_)
    refine wp_bind.mpr (wp_action fun L s₁ c r s₁' hi₁ hl₁ _ he => ?_)
    cases he
    have hl0 : s₁.localEpoch t = none := (congrArg Local.localEpoch hl₁).trans hsl
    have hre : e ≤ s₁.epoch := by
      have : s₁.readTS t = e := congrArg Local.readTS hl₁
      exact this ▸ hi₁.epochs.readTS_le t
    refine ⟨⟨L, hi₁.announceEpoch hl0 hre⟩, hpush ?_⟩
    have hloc : (s₁.announceEpoch cfg t e).loc t = { s₁.loc t with localEpoch := some e } := by
      simp [State.announceEpoch, State.loc]
    change AtRest ((s₁.announceEpoch cfg t e).loc t)
    rw [hloc, hl₁]
    exact ⟨h.hand, h.desired, h.debt, h.pass, h.reading, h.acquired, h.owned, h.seen⟩

theorem wp_op_endGuard (h : AtRest l) (hb : cfg.backend ≠ .hp) :
    Wp cfg t (Op.code cfg .endGuard) (fun _ l => AtRest l) l := by
  refine wp_bind.mpr (wp_pass ?_ fun r => ?_)
  · intro L s c r s' hi he
    cases he
    exact ⟨⟨L, { hi with }⟩, rfl⟩
  · match r with
    | some true =>
      refine wp_action fun L s c r s' hi hl _ he => ?_
      cases he
      subst hl
      refine ⟨⟨L, hi.endSection hb h.debt⟩, ?_⟩
      have hloc : (s.endSection t).loc t = { s.loc t with
          localEpoch := none, guards := fun _ => none, cov := fun _ => false } := by
        simp [State.endSection, State.loc]
      rw [hloc]
      exact ⟨h.hand, h.desired, h.debt, h.pass, h.reading, rfl, h.owned, by simp⟩
    | some false => exact h
    | none => exact h

theorem wp_op_load (h : AtRest l) (hr : CanRead cfg l κ) :
    Wp cfg t (Op.code cfg (.load κ x w)) (fun _ l => AtRest l) l := by
  refine wp_bind.mpr (wp_use (wp_bind.mpr (wp_mono ?_ (wp_acquire hr))))
  rintro v l₁ ⟨y, hy⟩
  have hdone : ∀ {l₂ : Local n}, SameElse l l₂ → l₂.guards = Function.update l₁.guards 0 none →
      AtRest l₂ := by
    intro l₂ h1 h2
    refine h.mono h1 ?_
    rw [h2, hy.guards, Function.update_idem, ← h.acquired, Function.update_eq_self]
  refine wp_bind.mpr (wp_unuse ?_)
  cases v with
  | none =>
    refine hdone hy.others ?_
    rw [hy.guards, Function.update_idem, Option.map_eq_none_iff.mp hy.obj]
  | some o =>
    have hvia : ViaOk l₁.guards κ (.guard 0) := by
      intro g hg
      rw [hy.guards, Function.update_self] at hg
      rw [hy.kind g hg]
      cases κ with
      | strong => exact Or.inr rfl
      | weak => exact Or.inl rfl
    refine wp_bind.mpr (wp_increment_var (Or.inl hvia) fun b => ?_)
    exact wp_clear hr hy.others fun l₂ h1 h2 => hdone h1 h2

theorem wp_op_getSnapshot (h : AtRest l) (hr : CanRead cfg l .strong)
    (hi : cfg.backend = .hp ∨ 0 < i) :
    Wp cfg t (Op.code cfg (.getSnapshot x i w)) (fun _ l => AtRest l) l := by
  refine wp_bind.mpr (wp_use (wp_bind.mpr (wp_mono ?_ (wp_protectSnapshot hr h.acquired hi))))
  intro p l₁ hp
  refine wp_unuse ?_
  match p, hp with
  | none, hp =>
    refine h.hasRead (fun _ => False) ⟨hp.1, fun j => (hp.2 j).imp_right ?_⟩ ?_ fun _ hc => hc.elim
    · intro hn g hg
      rw [hn] at hg
      cases hg
    · rcases hp.2 0 with hz | hz
      · rw [hz, h.acquired]
      · exact hz
  | some (o, .var v), ⟨h1, h2⟩ => exact h.mono h1 h2
  | some (o, .guard j), ⟨hj, y, hy⟩ =>
    refine h.hasRead (fun g => g.kind = .strong) ⟨hy.others, fun j' => ?_⟩ ?_ fun _ => Or.inl
    · rw [hy.guards, Function.update_apply]
      split
      · exact Or.inr hy.kind
      · exact Or.inl rfl
    · rw [hy.guards, Function.update_of_ne (Nat.ne_of_lt hj), h.acquired]

theorem wp_op_getWeakSnapshot (h : AtRest l) (hr : CanRead cfg l .weak)
    (hi : cfg.backend = .hp ∨ 0 < i) :
    Wp cfg t (Op.code cfg (.getWeakSnapshot x i w)) (fun _ l => AtRest l) l := by
  refine wp_bind.mpr (wp_use (wp_bind.mpr (wp_invoke.mpr ⟨⟨hr, h.acquired, hi⟩, ?_⟩)))
  rintro _ l₁ ⟨h1, h2⟩
  exact wp_unuse (h.hasRead _ h1 h2 fun _ => Or.inr)

/-- A copying `compare_and_swap` under guard `i`. -/
theorem wp_casCopy {expected : Option Obj} {Q : Unit → Local n → Prop} (hh : l.hand = none)
    (hok : CanInstall cfg t l κ (.guard i)) (h0 : Q () l)
    (h1 : Q () { l.install cfg κ (.guard i) with debt := none }) :
    Wp cfg t (do if ← compareAndSwapImpl κ x expected (.guard i) then perform .payDebt) Q l := by
  refine wp_bind.mpr (wp_compareAndSwapImpl hh hok ?_ ?_)
  · exact h0
  · exact wp_payDebt h1

theorem wp_op_casCopy_var {κ' : Kind} {expected : Option Obj} {v : Nat} (h : AtRest l)
    (hr : CanRead cfg l κ) (hk : κ = .strong → κ' = .strong) :
    Wp cfg t (Op.code cfg (.casCopy κ x expected (.var κ' v))) (fun _ l => AtRest l) l := by
  refine wp_bind.mpr (wp_reserve h.debt h.acquired fun p y sl b e r hy hcov => ?_)
  have hok : CanInstall cfg t (l.reserved κ' v y sl b e r) κ (.guard 0) := by
    intro _ _ _ _
    refine ⟨h.debt, fun g hg => ⟨hg, fun hκ => ?_, h.debt, hr.inSection, fun hb => ?_⟩⟩
    · rw [hy g (by simpa [Local.reserved] using hg), hk hκ]
    · exact ⟨(hcov hb).1 g (by simpa [Local.reserved] using hg), (hcov hb).2⟩
  have hback : Function.update (Function.update l.guards 0 y) 0 none = l.guards := by
    rw [Function.update_idem, ← h.acquired, Function.update_eq_self]
  -- after the reservation is given up
  have hclear : ∀ {l₁ : Local n}, l₁.debt = none → l₁.guards = Function.update l.guards 0 y →
      l₁.hand = none → l₁.desired = none → l₁.pass = none → l₁.owned = l.owned →
      Wp cfg t (perform (.clearGuard 0)) (fun _ l => AtRest l) l₁ := by
    intro l₁ h1 h2 h3 h4 h5 h6
    refine wp_clearGuard h1 fun sl' => ?_
    rw [h2, hback]
    exact ⟨h3, h4, h1, h5, rfl, h.acquired, fun o => by rw [h6]; exact h.owned o, h.seen⟩
  refine wp_bind.mpr (wp_compareAndSwapImpl h.hand hok ?_ ?_)
  · exact hclear h.debt rfl h.hand h.desired h.pass rfl
  · refine wp_bind.mpr (wp_payDebt ?_)
    simp only [Local.install]
    split
    · exact hclear rfl rfl h.hand h.desired h.pass rfl
    · exact hclear rfl rfl h.hand h.desired h.pass rfl

theorem wp_op_exchange {v : Nat} (h : AtRest l) (he : cfg.exchanges = true) :
    Wp cfg t (Op.code cfg (.exchange κ x v w)) (fun _ l => AtRest l) l := by
  refine wp_bind.mpr (wp_move trivial fun r y hy => wp_bind.mpr (wp_use ?_))
  refine wp_bind.mpr (wp_exchange h.hand (fun _ _ _ _ k hk => hy κ v k rfl hk) ?_ ?_)
  · rintro ⟨i, hi⟩
    cases hi
  · intro z hz
    refine wp_bind.mpr (wp_unuse (wp_bind.mpr (wp_move ⟨he, hz⟩ fun _ _ _ => ?_)))
    exact ⟨rfl, rfl, h.debt, h.pass, h.reading, h.acquired, h.owned, h.seen⟩

theorem wp_op_swap {v : Nat} (h : AtRest l) (he : cfg.exchanges = true) :
    Wp cfg t (Op.code cfg (.swap x v)) (fun _ l => AtRest l) l := by
  refine wp_bind.mpr (wp_move trivial fun r y hy => wp_bind.mpr (wp_use ?_))
  refine wp_bind.mpr (wp_load fun current => wp_bind.mpr (wp_invoke.mpr ⟨⟨h.hand, ?_⟩, ?_⟩))
  · exact fun k hk => hy .strong v k rfl hk
  · rintro _ _ ⟨z, rfl, hz⟩
    refine wp_bind.mpr (wp_unuse (wp_bind.mpr (wp_move ⟨he, hz⟩ fun _ _ _ => ?_)))
    exact ⟨rfl, rfl, h.debt, h.pass, h.reading, h.acquired, h.owned, h.seen⟩

theorem wp_op_destroyLoc (h : AtRest l) :
    Wp cfg t (Op.code cfg (.destroyLoc κ x)) (fun _ l => AtRest l) l := by
  refine wp_bind.mpr (wp_action fun L s c r s' hi hl _ he => ?_)
  subst hl
  obtain ⟨h1, y, h2, rfl⟩ := hi.destroyLoc h.hand he
  refine ⟨h1, ?_⟩
  change Wp cfg t _ _ (s'.loc t)
  rw [h2]
  have hrest : AtRest ({ s.loc t with hand := none } : Local n) :=
    ⟨rfl, h.desired, h.debt, h.pass, h.reading, h.acquired, h.owned, h.seen⟩
  cases y with
  | none => exact hrest
  | some k =>
    refine wp_invoke.mpr ⟨trivial, fun _ l₁ hl₁ => ?_⟩
    rw [show l₁ = _ from hl₁]
    exact hrest

/-- What `supports` says of a snapshot. -/
theorem supports_guard {s : State n} (hs : supports s t κ (.guard i) = true) :
    0 < i ∧ ∀ g, s.guards t i = some g → κ = .weak ∨ g.kind = .strong := by
  simp only [supports] at hs
  split at hs
  · rename_i g hg
    simp only [Bool.and_eq_true, decide_eq_true_eq, Bool.or_eq_true] at hs
    refine ⟨hs.1, fun g' hg' => ?_⟩
    rw [hg] at hg'
    cases hg'
    exact hs.2
  · cases hs

theorem supports_via {s : State n} {via : Via} (hs : supports s t κ via = true) :
    ViaOk (s.guards t) κ via := by
  cases via with
  | guard i => exact (supports_guard hs).2
  | var κ' i => simpa [supports, ViaOk] using hs

theorem strong_of_weak_or {k : Kind} (h : κ = .weak ∨ k = .strong) (hκ : κ = .strong) :
    k = .strong := by
  rcases h with h | h
  · rw [hκ] at h
    cases h
  · exact h

/-- Every operation keeps the invariant. -/
theorem wp_op {op : Op} (h : AtRest (s.loc t)) (hc : Op.can cfg t op s = true) :
    Wp cfg t (Op.code cfg op) (fun _ l => AtRest l) (s.loc t) := by
  have hsec : ∀ {κ}, ready cfg s t κ = true → cfg.backend ≠ .hp → s.localEpoch t ≠ none :=
    fun hr => (h.canRead hr).inSection
  have hkeep : AtRest ({ (s.loc t) with debt := none } : Local n) := by
    rw [h.payless]
    exact h
  cases op with
  | beginGuard => exact wp_op_beginGuard h
  | endGuard => exact wp_op_endGuard h (by simpa [Op.can] using hc)
  | makeRc v =>
    refine wp_createObject fun r => ?_
    exact ⟨h.hand, h.desired, h.debt, h.pass, h.reading, h.acquired, h.owned, h.seen⟩
  | load κ x w => exact wp_op_load h (h.canRead hc)
  | getSnapshot x i w =>
    simp only [Op.can, fresh, Bool.and_eq_true, Bool.or_eq_true, decide_eq_true_eq] at hc
    exact wp_op_getSnapshot h (h.canRead hc.1) (hc.2.imp_right And.left)
  | getWeakSnapshot x i w =>
    simp only [Op.can, fresh, Bool.and_eq_true, Bool.or_eq_true, decide_eq_true_eq] at hc
    exact wp_op_getWeakSnapshot h (h.canRead hc.1) (hc.2.imp_right And.left)
  | storeNull κ x =>
    refine wp_exchangeAndRetire h.hand h.debt (fun _ _ _ _ => trivial) ?_ hkeep
    rintro ⟨i, hi⟩
    cases hi
  | store κ x v =>
    refine wp_bind.mpr (wp_move trivial fun r y hy => ?_)
    exact wp_store_desired h fun k hk => hy κ v k rfl hk
  | storeSnapshot x hdl =>
    simp only [Op.can, Bool.and_eq_true] at hc
    cases hdl with
    | guard i =>
      obtain ⟨hi, hk⟩ := supports_guard hc.2
      refine wp_exchangeAndRetire h.hand h.debt
        (h.canInstall hi (fun g hg hκ => strong_of_weak_or (hk g hg) hκ) (hsec hc.1)) (fun _ => h)
        (h.install ..)
    | var v =>
      refine wp_bind.mpr (wp_increment_desired (Or.inl (supports_via hc.2)) h.desired fun r y hy => ?_)
      exact wp_store_desired h hy
  | storeWeak x via =>
    simp only [Op.can, Bool.and_eq_true] at hc
    have hvia : ViaOk (s.loc t).guards .weak via := by
      cases via with
      | guard i => exact fun g _ => Or.inl rfl
      | var κ' i => exact Or.inl rfl
    refine wp_bind.mpr (wp_increment_desired (Or.inl hvia) h.desired fun r y hy => ?_)
    exact wp_store_desired h hy
  | casCopy κ x expected desired =>
    simp only [Op.can, Bool.and_eq_true] at hc
    cases desired with
    | guard i =>
      obtain ⟨hi, hk⟩ := supports_guard hc.2
      exact wp_casCopy h.hand
        (h.canInstall hi (fun g hg hκ => strong_of_weak_or (hk g hg) hκ) (hsec hc.1)) h (h.install ..)
    | var κ' v =>
      refine wp_op_casCopy_var h (h.canRead hc.1) (strong_of_weak_or ?_)
      exact supports_via hc.2
  | casMove κ x expected v =>
    refine wp_bind.mpr (wp_compareAndSwapImpl h.hand (fun _ _ _ _ => rfl) ?_ ?_)
    · exact h
    · exact h
  | copy κ via w =>
    simp only [Op.can, Bool.and_eq_true] at hc
    exact wp_bind.mpr (wp_increment_var (Or.inl (supports_via hc.2)) fun _ => h)
  | lock via w =>
    simp only [Op.can, Bool.and_eq_true] at hc
    exact wp_bind.mpr (wp_increment_var (Or.inr ⟨rfl, hc.1⟩) fun _ => h)
  | moveVar κ v w => exact wp_bind.mpr (wp_move rfl fun _ _ _ => h)
  | drop κ v =>
    cases κ with
    | strong =>
      refine wp_invoke.mpr ⟨⟨h.hand, rfl⟩, fun _ l₁ hl₁ => ?_⟩
      rw [show l₁ = _ from hl₁]
      exact h
    | weak =>
      refine wp_invoke.mpr ⟨rfl, fun _ l₁ hl₁ => ?_⟩
      rw [show l₁ = _ from hl₁]
      exact h
  | clearSnapshot i =>
    refine wp_clearGuard h.debt fun sl => ?_
    refine ⟨h.hand, h.desired, h.debt, h.pass, ?_, ?_, h.owned, fun j g hg => ?_⟩
    · simp [h.reading]
    · simp only [Function.update_apply, h.acquired, ite_self]
    · simp only [Function.update_apply] at hg
      split at hg
      · cases hg
      · exact h.seen j g hg
  | destroyLoc κ x => exact wp_op_destroyLoc h
  | exchange κ x v w =>
    simp only [Op.can, Bool.and_eq_true] at hc
    exact wp_op_exchange h hc.1
  | swap x v =>
    simp only [Op.can, Bool.and_eq_true] at hc
    exact wp_op_swap h hc.1
  | setMark κ x =>
    refine wp_bind.mpr (wp_use (wp_bind.mpr (wp_invoke.mpr ⟨trivial, fun _ l₁ hl₁ => ?_⟩)))
    rw [show l₁ = _ from hl₁]
    exact wp_unuse h

/-! ## Every run -/

/-- The books before anything is created. -/
def emptyBook : Book n where
  paid := ∅
  wit _ := implicit 0
  label _ := implicit 0
  guardAge _ := 0
  debtAge _ := 0
  now := 0

theorem Good.initial (cfg : Config) (n : Nat) : Good cfg (State.initial n) := by
  refine ⟨fun _ => emptyBook, ?_⟩
  have hcount : ∀ o, (emptyBook : Book n).count Token.obj o = 0 := fun o => by
    simp [emptyBook, Ledger.count]
  exact
    { fault := rfl
      places := ⟨by simp [State.initial], by simp [State.initial]⟩
      lists := ⟨by simp [State.initial, entries], by simp [State.initial, entries],
        by simp [State.initial]⟩
      fresh := ⟨by simp [State.initial], by simp [State.initial]⟩
      books := fun κ => by
        constructor <;> simp [State.initial, emptyBook, Live, guardOf, debtOf]
      counted := ⟨by simp [State.initial], by simp [State.initial],
        fun o => by rw [hcount]; exact Nat.zero_le _, by simp [State.initial]⟩
      life := by constructor <;> simp [State.initial]
      guards := by constructor <;> simp [State.initial]
      debts := by constructor <;> simp [State.initial]
      announced := by simp [State.initial, Announced]
      passes := by simp [State.initial]
      epochs := by constructor <;> simp [State.initial]
      prots := by constructor <;> simp [State.initial, entries, inLoc]
      shared := by constructor <;> simp [State.initial, exposed]
      protShared := by simp [State.initial, ProtShared]
      disposing := by simp [State.initial, Disposing] }

theorem sound (cfg : Config) (n : Nat) : Sound (system cfg n) (logic cfg) where
  init := by
    rintro s rfl
    refine ⟨Good.initial cfg n, fun t => ?_⟩
    exact ⟨rfl, rfl, rfl, rfl, rfl, rfl, fun _ => rfl, fun _ _ hg => by cases hg⟩
  frame t u c x s r s' he hu := exec_frame hu he
  op t o s _ hc h := wp_op h hc
  body t p l hp := wp_body p hp

end Cdrc.Smr
