import Cdrc.Smr.Frames

/-! # Reference counting over a memory manager: specifications

The logic of `Cdrc.Lib.Threads` with the invariant `Good`: what each procedure needs of
the thread's part of the state and what it leaves, and a rule for each action. With
them every operation keeps the invariant (`sound`), whatever the other threads do. -/
namespace Cdrc.Smr
open Cdrc.StickyCounter Cdrc.CountedObject Cdrc.Lib.Threads Prog Logic

variable {n : Nat} {cfg : Config} {t : Fin n} {l l' : Local n} {κ : Kind} {i x : Nat} {o : Obj}

/-! ## The logic -/

/-- A unit that has been in a location is released from a variable only when nobody can
have validated a pointer to its object. -/
def allowed (cfg : Config) {β : Type} (_ : Fin n) : Act n β → State n → Prop
  | .release _ (.var κ i), s =>
    match s.cell (.var κ i) with
    | none => True
    | some k => s.shared k = true → Unprotected cfg s k.obj
  | _, _ => True

instance : ∀ (β : Type) (t : Fin n) (x : Act n β) (s : State n), Decidable (allowed cfg t x s) := by
  intro β t x s
  unfold allowed
  split
  · split
    · exact .isTrue trivial
    · infer_instance
  · exact .isTrue trivial

/-- A thread between two operations. -/
structure AtRest (l : Local n) : Prop where
  hand : l.hand = none
  desired : l.desired = none
  debt : l.debt = none
  pass : l.pass = none
  reading : l.reading = none
  acquired : l.guards 0 = none
  owned : ∀ o, l.owned o = none
  /-- a weak snapshot has been seen with strong units -/
  seen : ∀ i g, l.guards i = some g → g.kind = .strong ∨ g.confirmed = true

/-- The pass of the thread ejects its next entry. -/
def EjectsNext (cfg : Config) (l : Local n) (ty : RetireType) : Prop :=
  ∃ p e, l.pass = some p ∧ Ejecting cfg p e ∧ e.token.type = ty

def CanRelease (cfg : Config) (l : Local n) (κ : Kind) : From → Prop
  | .var κ' _ => κ' = κ
  | .todo => EjectsNext cfg l κ.type

/-- What a thread needs to read a location of kind `κ`. -/
structure CanRead (cfg : Config) (l : Local n) (κ : Kind) : Prop where
  debt : l.debt = none
  reading : l.reading = none
  counters : κ = .strong ∨ cfg.atomicCounters = true
  inSection : cfg.backend ≠ .hp → l.localEpoch ≠ none

/-- Only what reads change is different. -/
def SameElse (l l' : Local n) : Prop := ∃ sl c b e r, l' = { l with
  guards := l'.guards, slots := sl, cov := c, late := b, endTS := e, readTS := r }

/-- Guard `i` was set to `y`. -/
structure Acquired (κ : Kind) (l l' : Local n) (i : Nat) (v : Option Obj) (y : Option Guard) :
    Prop where
  guards : l'.guards = Function.update l.guards i y
  others : SameElse l l'
  obj : y.map (·.obj) = v
  kind : ∀ g, y = some g → g.kind = κ

/-- The thread has read; every guard it has got meets `ok`. -/
structure HasRead (ok : Guard → Prop) (l l' : Local n) : Prop where
  others : SameElse l l'
  guards : ∀ i, l'.guards i = l.guards i ∨ ∀ g, l'.guards i = some g → ok g

def pre (cfg : Config) : {β : Type} → Proc β → Local n → Prop
  | _, .retire, _ | _, .setMark _ _, _ => True
  | _, .retireDispose o, l => l.hand = none ∧ l.owned o = some .zero
  | _, .workLoop, l | _, .destructor, l => l.hand = none
  | _, .removeIf, l => l.hand = none ∧ ∃ p, l.pass = some p ∧ p.toScan = []
  | _, .eject ty, l => l.hand = none ∧ EjectsNext cfg l ty
  | _, .decrementRefCnt src, l => l.hand = none ∧ CanRelease cfg l .strong src
  | _, .decrementWeakCnt src, l => CanRelease cfg l .weak src
  | _, .dispose o, l => l.hand = none ∧ l.owned o = some .disposing
  | _, .acquireLoop κ _, l => CanRead cfg l κ ∧ cfg.backend = .hp
  | _, .protectLoop κ _ i, l => CanRead cfg l κ ∧ cfg.backend = .hp ∧ i ≤ cfg.snapshotSlots
  | _, .protectNoSlot κ _ _, l => CanRead cfg l κ ∧ cfg.backend = .hp ∧ l.guards 0 = none
  | _, .protectEpoch κ _ _ pEpoch, l =>
    CanRead cfg l κ ∧ cfg.backend = .ibr ∧ pEpoch = l.endTS
  | _, .weakSnapshot _ i _, l => CanRead cfg l .weak ∧ l.guards 0 = none ∧
    (cfg.backend = .hp ∨ 0 < i)
  | _, .swapLoop _ _, l => l.hand = none ∧ ∀ k, l.desired = some k → k.type = Kind.strong.type

def post : {β : Type} → Proc β → Local n → β → Local n → Prop
  | _, .retire, l, _, l' => l' = { l with hand := none }
  | _, .retireDispose o, l, _, l' | _, .dispose o, l, _, l' =>
    l' = { l with owned := Function.update l.owned o none }
  | _, .workLoop, l, _, l' | _, .destructor, l, _, l' | _, .setMark _ _, l, _, l' => l' = l
  | _, .removeIf, l, _, l' => ∃ p, l' = { l with pass := some p } ∧ p.todo = []
  | _, .eject _, l, _, l' => l' = l.take .todo
  | _, .decrementRefCnt src, l, _, l' | _, .decrementWeakCnt src, l, _, l' => l' = l.take src
  | _, .acquireLoop κ _, l, v, l' => ∃ y, Acquired κ l l' 0 v y
  | _, .protectLoop κ _ i, l, v, l' | _, .protectEpoch κ _ i _, l, v, l' => ∃ y, Acquired κ l l' i v y
  | _, .protectNoSlot _ _ _, l, _, l' => SameElse l l' ∧ l'.guards = l.guards
  | _, .weakSnapshot _ _ _, l, _, l' => HasRead (fun g => g.confirmed = true) l l' ∧ l'.guards 0 = none
  | _, .swapLoop _ _, l, _, l' => ∃ x, l' = { l with desired := none, hand := x } ∧
    ∀ k, x = some k → k.type = Kind.strong.type

def logic (cfg : Config) : Logic (Fin n) (State n) (Local n) (Act n) Proc where
  inv := Good cfg
  loc t s := s.loc t
  allow := allowed cfg
  idle := AtRest
  pre := pre cfg
  post := post

instance : ∀ (β : Type) (t : Fin n) (x : Act n β) (s : State n),
    Decidable ((logic cfg).allow t x s) :=
  inferInstanceAs (∀ (β : Type) (t : Fin n) (x : Act n β) (s : State n), Decidable (allowed cfg t x s))

/-- The code of `t` keeps the invariant from `l` on and ends with `Q`. -/
abbrev Wp {α : Type} (cfg : Config) (t : Fin n) (c : Code n α) (Q : α → Local n → Prop)
    (l : Local n) : Prop :=
  wp (system cfg n) (logic cfg) t c Q l

section Rules
variable {α β : Type} {Q : α → Local n → Prop}

theorem wp_action {a : Act n α} (h : ∀ L s c r s', Inv cfg L s → s.loc t = l → allowed cfg t a s →
    exec cfg t c a s = some (r, s') → Good cfg s' ∧ Q r (s'.loc t)) :
    Wp cfg t (perform a) Q l := by
  intro s c r s' hi hl ha he
  obtain ⟨L, hL⟩ := hi
  exact h L s c r s' hL hl ha he

/-- An action that changes nothing the thread's part or the invariant looks at. -/
theorem wp_pass {a : Act n α} (hs : ∀ L s c r s', Inv cfg L s → exec cfg t c a s = some (r, s') →
    Good cfg s' ∧ s'.loc t = s.loc t) (hQ : ∀ r, Q r l) : Wp cfg t (perform a) Q l := by
  refine wp_action fun L s c r s' h hl _ he => ?_
  obtain ⟨h1, h2⟩ := hs L s c r s' h he
  rw [h2, hl]
  exact ⟨h1, hQ r⟩

theorem wp_addWork {Q : Unit → Local n → Prop} (hQ : Q () l) :
    Wp cfg t (perform .addWork) Q l :=
  wp_pass (fun L s c r s' h he => by cases he; exact ⟨⟨L, { h with }⟩, rfl⟩) fun _ => hQ

theorem wp_use {Q : Unit → Local n → Prop} (hQ : Q () l) :
    Wp cfg t (perform (.use κ x)) Q l := by
  refine wp_pass (fun L s c r s' h he => ?_) fun _ => hQ
  simp only [exec] at he
  split at he
  · cases he
  · cases he
    exact ⟨⟨L, { h with }⟩, rfl⟩

theorem wp_unuse {Q : Unit → Local n → Prop} (hQ : Q () l) : Wp cfg t (perform .unuse) Q l :=
  wp_pass (fun L s c r s' h he => by cases he; exact ⟨⟨L, { h with }⟩, rfl⟩) fun _ => hQ

theorem wp_load {Q : Option Obj → Local n → Prop} (hQ : ∀ r, Q r l) :
    Wp cfg t (perform (.load κ x)) Q l :=
  wp_pass (fun L s c r s' h he => by cases he; exact ⟨⟨L, h⟩, rfl⟩) hQ

theorem wp_unchanged {p : Option Obj} {Q : Bool → Local n → Prop} (hQ : ∀ r, Q r l) :
    Wp cfg t (perform (.unchanged κ x p)) Q l :=
  wp_pass (fun L s c r s' h he => by cases he; exact ⟨⟨L, h⟩, rfl⟩) hQ

theorem wp_payDebt {Q : Unit → Local n → Prop} (hQ : Q () { l with debt := none }) :
    Wp cfg t (perform .payDebt) Q l := by
  refine wp_action fun L s c r s' h hl _ he => ?_
  obtain ⟨h1, h2⟩ := h.payDebt he
  rw [h2, hl]
  exact ⟨h1, hQ⟩

theorem wp_clearGuard {Q : Unit → Local n → Prop} (hd : l.debt = none)
    (hQ : ∀ sl, Q () { l with
      guards := Function.update l.guards i none
      slots := sl
      reading := if i = 0 then none else l.reading }) :
    Wp cfg t (perform (.clearGuard i)) Q l := by
  refine wp_action fun L s c r s' h hl _ he => ?_
  cases he
  subst hl
  refine ⟨⟨L, h.clearGuard hd⟩, ?_⟩
  have := hQ ((s.clearGuard cfg t i).slots t)
  rw [clearGuard_eq] at this ⊢
  by_cases hi : i = 0 <;> simpa [State.loc, update₂, hi] using this

theorem wp_emplace {Q : Unit → Local n → Prop} (hQ : Q () { l with hand := none }) :
    Wp cfg t (perform .emplace) Q l := by
  refine wp_action fun L s c r s' h hl _ he => ?_
  obtain ⟨h1, h2⟩ := h.emplace he
  rw [h2, hl]
  exact ⟨h1, hQ⟩

theorem wp_loadRef {via : Via} {Q : Option Nat → Local n → Prop}
    (hok : ViaOk l.guards .strong via ∨ cfg.atomicCounters = true) (hr : l.reading = none)
    (h0 : Q (some 0) l) (hpos : ∀ c, 0 < c → Q (some c) (l.confirm via)) :
    Wp cfg t (perform (.loadRef via)) Q l := by
  refine wp_action fun L s c r s' h hl _ he => ?_
  subst hl
  obtain ⟨h1, c, rfl, ⟨rfl, rfl⟩ | ⟨h2, h3⟩⟩ := h.loadRef hok hr he
  · exact ⟨h1, h0⟩
  · rw [h3]
    exact ⟨h1, hpos c h2⟩

theorem wp_readEpoch {Q : Nat → Local n → Prop}
    (hQ : ∀ e, l.endTS ≤ e → (l.late = true → l.endTS < e) →
      (∀ a, l.localEpoch = some a → a ≤ e) → (∀ i g, l.guards i = some g → g.birthTS ≤ e) →
      Q e { l with readTS := e }) :
    Wp cfg t (perform .readEpoch) Q l := by
  refine wp_action fun L s c r s' h hl _ he => ?_
  cases he
  subst hl
  refine ⟨⟨L, h.readEpoch⟩, ?_⟩
  have := hQ s.epoch (h.epochs.endTS_le t) (h.epochs.late_lt t) (h.epochs.localEpoch_le t) ?_
  · simpa [State.loc] using this
  · intro i g hg
    obtain ⟨k, h1, h2, _⟩ := h.guard_token hg
    obtain ⟨ob, hm⟩ := Option.ne_none_iff_exists'.mp (h2 ▸ h.counted.present k h1)
    rw [h.guards.birth t i g ob hg hm]
    exact h.epochs.birth_le g.obj ob hm

theorem wp_writeEnd {e : Nat} {Q : Unit → Local n → Prop} (hle : l.endTS ≤ e) (hr : e = l.readTS)
    (hQ : Q () { l with endTS := e, late := false }) : Wp cfg t (perform (.writeEnd e)) Q l := by
  refine wp_action fun L s c r s' h hl _ he => ?_
  cases he
  subst hl
  refine ⟨⟨L, h.writeEnd hle (hr ▸ h.epochs.readTS_le t)⟩, ?_⟩
  simpa [State.loc] using hQ

theorem wp_readEnd {Q : Nat → Local n → Prop} (hQ : Q l.endTS l) :
    Wp cfg t (perform .readEnd) Q l := by
  refine wp_action fun L s c r s' h hl _ he => ?_
  cases he
  subst hl
  exact ⟨⟨L, h⟩, hQ⟩

end Rules

/-! ## Counters and deferred lists -/

section Release

theorem wp_release {src : From} {Q : Option (Obj × Bool) → Local n → Prop}
    (hok : CanRelease cfg l κ src) (h0 : src ≠ .todo → Q none l)
    (h1 : ∀ o, Q (some (o, false)) (l.take src))
    (h2 : ∀ o, l.owned o = none → Q (some (o, true)) { l.take src with
      owned := Function.update l.owned o (some (zeroStage cfg κ)) }) :
    Wp cfg t (perform (.release κ src)) Q l := by
  refine wp_action fun L s c r s' h hl ha he => ?_
  subst hl
  have hsrc : SrcOk cfg s t κ src := by
    cases src with
    | var κ' j =>
      refine ⟨hok, fun k hk hs => ?_⟩
      simp only [allowed, hk] at ha
      exact ha hs
    | todo =>
      obtain ⟨p, e, hp, hj, hty⟩ := hok
      exact ⟨p, e, hp, hj, hty⟩
  obtain ⟨h3, ⟨rfl, hne, h4⟩ | ⟨o, rfl, h4⟩ | ⟨o, rfl, ho, h4⟩⟩ := h.release hsrc he
  · rw [h4]
    exact ⟨h3, h0 hne⟩
  · rw [h4]
    exact ⟨h3, h1 o⟩
  · rw [h4]
    exact ⟨h3, h2 o ho⟩

theorem wp_delete {Q : Unit → Local n → Prop}
    (ho : l.owned o = some .immediate ∨ l.owned o = some .last)
    (hQ : Q () { l with owned := Function.update l.owned o none }) :
    Wp cfg t (perform (.delete o)) Q l := by
  refine wp_action fun L s c r s' h hl _ he => ?_
  subst hl
  obtain ⟨h1, h2⟩ := h.delete ho he
  rw [h2]
  exact ⟨h1, hQ⟩

theorem wp_runDestructor {st : Stage} {Q : Unit → Local n → Prop} (ho : l.owned o = some st)
    (hst : st.early = false) (hQ : Q () l) : Wp cfg t (perform (.runDestructor o)) Q l := by
  refine wp_action fun L s c r s' h hl _ he => ?_
  subst hl
  obtain ⟨h1, h2⟩ := h.runDestructor ho hst he
  rw [h2]
  exact ⟨h1, hQ⟩

/-- `release_refs` after the strong count got to zero. -/
theorem wp_finishDecrement {Q : Bool → Local n → Prop} (ho : l.owned o = some (zeroStage cfg .strong))
    (hQ : Q true { l with owned := Function.update l.owned o (some .zero) }) :
    Wp cfg t (finishDecrement cfg o) Q l := by
  unfold finishDecrement
  by_cases ha : cfg.atomicCounters = true
  · rw [if_pos ha]
    have hz : l.owned o = some .zero := by rw [ho]; simp [zeroStage, ha]
    have : { l with owned := Function.update l.owned o (some .zero) } = l := by
      rw [← hz, Function.update_eq_self]
    rw [this] at hQ
    exact hQ
  · rw [if_neg ha]
    refine wp_bind.mpr (wp_action fun L s c r s' h hl _ he => ?_)
    subst hl
    have hp : s.owned t o = some .parked := by
      change s.owned t o = _ at ho
      rw [ho]
      simp [zeroStage, ha]
    obtain ⟨h1, rfl, h2⟩ := h.decrementCas (by simpa using ha) hp he
    rw [h2]
    exact ⟨h1, hQ⟩

theorem wp_decrementRefCnt {src : From} (hh : l.hand = none) (hok : CanRelease cfg l .strong src) :
    Wp cfg t (decrementRefCnt cfg src) (fun _ l' => l' = l.take src) l := by
  unfold decrementRefCnt
  have htake : (l.take src).owned = l.owned ∧ (l.take src).hand = l.hand := by
    cases src <;> exact ⟨rfl, rfl⟩
  refine wp_bind.mpr (wp_release hok ?_ ?_ ?_)
  · intro hne
    cases src with
    | var κ j => rfl
    | todo => exact absurd rfl hne
  · exact fun o => rfl
  intro o ho
  have hback : ∀ y, ({ l.take src with
      owned := Function.update (Function.update l.owned o y) o none } : Local n) = l.take src := by
    intro y
    rw [Function.update_idem, ← ho, Function.update_eq_self, ← htake.1]
  refine wp_bind.mpr (wp_finishDecrement (by simp) ?_)
  simp only [if_true, Function.update_idem]
  refine wp_bind.mpr (wp_action fun L s c r s' h hl _ he => ?_)
  have hz : s.owned t o = some .zero := by
    have := congrArg (fun a : Local n => a.owned o) hl
    simpa [State.loc] using this
  obtain ⟨h1, ⟨rfl, h2⟩ | ⟨hr, h2⟩⟩ := h.loadWeak hz he
  · refine ⟨h1, ?_⟩
    change Wp cfg t _ _ (s'.loc t)
    rw [h2, hl]
    simp only [if_true]
    have hown : s.owned t = Function.update l.owned o (some .zero) := congrArg Local.owned hl
    rw [hown, Function.update_idem]
    refine wp_bind.mpr (wp_runDestructor (Function.update_self ..) rfl ?_)
    refine wp_bind.mpr (wp_invoke.mpr ⟨htake.2.trans hh, ?_⟩)
    rintro _ _ rfl
    refine wp_delete (Or.inl (by simp)) ?_
    exact hback _
  · refine ⟨h1, ?_⟩
    change Wp cfg t _ _ (s'.loc t)
    rw [h2, hl, if_neg hr]
    refine wp_invoke.mpr ⟨⟨htake.2.trans hh, by simp⟩, ?_⟩
    intro _ l₁ hl₁
    rw [show l₁ = _ from hl₁]
    exact hback _

theorem wp_decrementWeakCnt {src : From} (hok : CanRelease cfg l .weak src) :
    Wp cfg t (decrementWeakCnt src) (fun _ l' => l' = l.take src) l := by
  unfold decrementWeakCnt
  have htake : (l.take src).owned = l.owned := by cases src <;> rfl
  refine wp_bind.mpr (wp_release hok ?_ (fun _ => rfl) ?_)
  · intro hne
    cases src with
    | var κ j => rfl
    | todo => exact absurd rfl hne
  intro o ho
  refine wp_delete (Or.inr (by simp [zeroStage])) ?_
  simp only [Function.update_idem]
  rw [← ho, Function.update_eq_self, ← htake]

theorem wp_dispose (hh : l.hand = none) (ho : l.owned o = some .disposing) :
    Wp cfg t (dispose o) (fun _ l' => l' = { l with owned := Function.update l.owned o none }) l := by
  unfold dispose
  refine wp_bind.mpr (wp_runDestructor ho rfl ?_)
  refine wp_bind.mpr (wp_invoke.mpr ⟨hh, ?_⟩)
  intro _ l₁ hl₁
  rw [show l₁ = l from hl₁]
  refine wp_bind.mpr (wp_action fun L s c r s' h hl _ he => ?_)
  subst hl
  obtain ⟨h1, h2⟩ := h.releaseImplicit ho he
  refine ⟨h1, ?_⟩
  change Wp cfg t _ _ (s'.loc t)
  rw [h2]
  cases r with
  | false => exact rfl
  | true =>
    refine wp_delete (Or.inr (by simp)) ?_
    simp only [Function.update_idem]
    rfl

theorem wp_eject {ty : RetireType} (hh : l.hand = none) (hj : EjectsNext cfg l ty) :
    Wp cfg t (eject ty) (fun _ l' => l' = l.take .todo) l := by
  cases ty with
  | decrementStrongCount => exact wp_invoke.mpr ⟨⟨hh, hj⟩, fun _ _ h => h⟩
  | decrementWeakCount => exact wp_invoke.mpr ⟨hj, fun _ _ h => h⟩
  | dispose =>
    refine wp_bind.mpr (wp_action fun L s c r s' h hl _ he => ?_)
    subst hl
    obtain ⟨p, e, hp, hj, hty⟩ := hj
    obtain ⟨h1, ho, h2⟩ := h.startDispose hp hj hty he
    refine ⟨h1, ?_⟩
    change Wp cfg t _ _ (s'.loc t)
    rw [h2]
    refine wp_invoke.mpr ⟨⟨hh, by simp⟩, ?_⟩
    intro _ l₁ hl₁
    rw [show l₁ = _ from hl₁]
    simp only [Function.update_idem]
    rw [← ho, Function.update_eq_self]
    rfl

theorem wp_destructor (hh : l.hand = none) :
    Wp cfg t destructor (fun _ l' => l' = l) l := by
  unfold destructor
  refine wp_bind.mpr (wp_pass ?_ ?_)
  · intro L s c r s' h he
    simp only [exec] at he
    split at he <;> cases he <;> exact ⟨⟨L, h⟩, rfl⟩
  intro f
  have hrest : ∀ {l₁ : Local n}, l₁ = l → Wp cfg t (invoke .destructor) (fun _ l' => l' = l) l₁ := by
    rintro _ rfl
    exact wp_invoke.mpr ⟨hh, fun _ _ h => h⟩
  cases f with
  | none => exact rfl
  | some field =>
    cases field with
    | var κ j =>
      cases κ with
      | strong => exact wp_bind.mpr (wp_invoke.mpr ⟨⟨hh, rfl⟩, fun _ l₁ h => hrest h⟩)
      | weak => exact wp_bind.mpr (wp_invoke.mpr ⟨rfl, fun _ l₁ h => hrest h⟩)
    | loc κ j =>
      refine wp_bind.mpr (wp_action fun L s c r s' h hl _ he => ?_)
      subst hl
      obtain ⟨h1, y, h2, rfl⟩ := h.destroyLoc hh he
      refine ⟨h1, ?_⟩
      change Wp cfg t _ _ (s'.loc t)
      rw [h2]
      cases y with
      | none =>
        refine hrest ?_
        exact congrArg (fun a => ({ s.loc t with hand := a } : Local n)) hh.symm
      | some k =>
        refine wp_bind.mpr (wp_invoke.mpr ⟨trivial, fun _ l₁ h => hrest ?_⟩)
        rw [show l₁ = _ from h]
        exact congrArg (fun a => ({ s.loc t with hand := a } : Local n)) hh.symm

end Release

section Passes

/-- A scan reads what it has to and keeps the pass. -/
theorem wp_scan {p : Pass n} {todo : List (Fin n × Nat)} (hs : Scanning p todo)
    (h0 : cfg.backend ≠ .hp → ∀ y ∈ todo, y.2 = 0) (hp : l.pass = some p) :
    Wp cfg t (scan cfg todo) (fun _ l' => ∃ p', l' = { l with pass := some p' } ∧ p'.toScan = []) l := by
  induction todo generalizing l p with
  | nil => exact ⟨p, by rw [← hp], hs.toScan⟩
  | cons y rest ih =>
    obtain ⟨u, j⟩ := y
    have hrest : ∀ {l₁ : Local n} {p' : Pass n}, l₁ = { l with pass := some p' } →
        Scanning p' rest → Wp cfg t (scan cfg rest)
          (fun _ l' => ∃ p', l' = { l with pass := some p' } ∧ p'.toScan = []) l₁ := by
      rintro _ p' rfl hs'
      refine wp_mono ?_ (ih (p := p') hs' (fun hb y hy => h0 hb y (List.mem_cons_of_mem _ hy)) rfl)
      exact fun _ _ h => h
    refine wp_bind.mpr ?_
    unfold scanOne
    cases hb : cfg.backend with
    | hp =>
      refine wp_action fun L s c r s' h hl _ he => ?_
      cases he
      subst hl
      obtain ⟨h1, p', h2, h3⟩ := h.scanSlot hb hp hs
      exact ⟨h1, hrest h2 h3⟩
    | ebr =>
      have hj : j = 0 := h0 (by rw [hb]; decide) (u, j) (List.mem_cons_self ..)
      subst hj
      refine wp_action fun L s c r s' h hl _ he => ?_
      cases he
      subst hl
      obtain ⟨h1, p', h2, h3⟩ := h.scanEpoch hb hp hs
      exact ⟨h1, hrest h2 h3⟩
    | ibr =>
      have hj : j = 0 := h0 (by rw [hb]; decide) (u, j) (List.mem_cons_self ..)
      subst hj
      refine wp_bind.mpr (wp_action fun L s c r s' h hl _ he => ?_)
      cases he
      subst hl
      obtain ⟨h1, p', h2, h3, h4⟩ := h.scanStart hb hp hs
      refine ⟨h1, ?_⟩
      change Wp cfg t _ _ ((s.onPass t fun p => p.scanStart u (s.localEpoch u)).loc t)
      cases he : s.localEpoch u with
      | none =>
        rw [he] at h2
        exact hrest h2 (h3 he)
      | some e =>
        rw [he] at h2
        rw [h2]
        refine wp_action fun L s₁ c r s' h hl _ he' => ?_
        cases he'
        have hp₁ : s₁.pass t = some p' := congrArg Local.pass hl
        obtain ⟨h5, p₂, h6, h7⟩ := h.scanEnd hb hp₁ (h4 e he)
        refine ⟨h5, hrest ?_ h7⟩
        refine h6.trans ?_
        rw [hl]

theorem wp_removeIf {p : Pass n} (hh : l.hand = none) (hp : l.pass = some p) (hs : p.toScan = []) :
    Wp cfg t removeIf (fun _ l' => ∃ p, l' = { l with pass := some p } ∧ p.todo = []) l := by
  have hrest : ∀ {l₁ : Local n} {p' : Pass n}, l₁ = { l with pass := some p' } → p'.toScan = [] →
      Wp cfg t (invoke .removeIf) (fun _ l' => ∃ p, l' = { l with pass := some p } ∧ p.todo = [])
        l₁ := by
    rintro _ p' rfl hs'
    exact wp_invoke.mpr ⟨⟨hh, p', rfl, hs'⟩, fun _ _ h => h⟩
  unfold removeIf
  refine wp_bind.mpr (wp_action fun L s c r s' h hl _ he => ?_)
  subst hl
  obtain ⟨h1, ⟨rfl, h2, h3⟩ | ⟨rfl, p', h2, h3⟩ | ⟨e, rfl, h2, h3⟩⟩ := h.judge hp hs he
  · refine ⟨h1, p, ?_, h2⟩
    rw [h3]
    exact congrArg (fun a => ({ s.loc t with pass := a } : Local n)) hp
  · exact ⟨h1, hrest h2 h3⟩
  · refine ⟨h1, ?_⟩
    change Wp cfg t _ _ (s'.loc t)
    rw [h3]
    refine wp_bind.mpr (wp_invoke.mpr ⟨⟨hh, p, e, hp, h2, rfl⟩, fun _ l₁ hl₁ => ?_⟩)
    rw [show l₁ = _ from hl₁]
    have htake : (s.loc t).take .todo = { s.loc t with
        pass := some { p with todo := p.todo.tail } } := by
      simp only [Local.take]
      rw [show (s.loc t).pass = some p from hp]
      rfl
    exact hrest htake hs

theorem wp_workLoop (hh : l.hand = none) : Wp cfg t (workLoop cfg) (fun _ l' => l' = l) l := by
  unfold workLoop
  refine wp_bind.mpr (wp_action fun L s c r s' h hl _ he => ?_)
  subst hl
  obtain ⟨h1, ⟨rfl, h2⟩ | ⟨rfl, hp, p, h2, h3⟩⟩ := h.tryBegin he
  · exact ⟨h1, h2⟩
  refine ⟨h1, ?_⟩
  change Wp cfg t _ _ (s'.loc t)
  rw [h2]
  simp only [if_true]
  refine wp_bind.mpr (wp_mono ?_ (wp_scan h3 (fun hb y hy => (mem_scanOrder.mp hy).2 hb) rfl))
  rintro _ _ ⟨p₁, rfl, hs₁⟩
  refine wp_bind.mpr (wp_invoke.mpr ⟨⟨hh, p₁, rfl, hs₁⟩, ?_⟩)
  rintro _ _ ⟨p₂, rfl, hs₂⟩
  refine wp_bind.mpr (wp_action fun L s₁ c r s₁' h hl _ he => ?_)
  cases he
  have hp₁ : s₁.pass t = some p₂ := congrArg Local.pass hl
  obtain ⟨h5, h6⟩ := h.endPass hp₁ hs₂
  refine ⟨h5, wp_invoke.mpr ⟨?_, ?_⟩⟩
  · change ((s₁.endPass t).loc t).hand = none
    rw [h6, hl]
    exact hh
  · intro _ l₁ hl₁
    rw [show l₁ = _ from hl₁]
    refine h6.trans ?_
    rw [hl]
    exact congrArg (fun a => ({ s.loc t with pass := a } : Local n)) hp.symm

theorem wp_retire : Wp cfg t (body cfg .retire) (fun _ l' => l' = { l with hand := none }) l := by
  refine wp_bind.mpr (wp_emplace (wp_bind.mpr (wp_addWork ?_)))
  exact wp_invoke.mpr ⟨rfl, fun _ _ h => h⟩

theorem wp_retireDispose (hh : l.hand = none) (ho : l.owned o = some .zero) :
    Wp cfg t (body cfg (.retireDispose o))
      (fun _ l' => l' = { l with owned := Function.update l.owned o none }) l := by
  refine wp_bind.mpr (wp_action fun L s c r s' h hl _ he => ?_)
  subst hl
  obtain ⟨h1, h2⟩ := h.emplaceDispose ho he
  refine ⟨h1, ?_⟩
  change Wp cfg t workToward _ (s'.loc t)
  rw [h2]
  exact wp_bind.mpr (wp_addWork (wp_invoke.mpr ⟨hh, fun _ _ h => h⟩))

end Passes

/-! ## Protected reads -/

section Reads
variable {y : Option Guard} {v : Option Obj} {ok : Guard → Prop} {l₁ : Local n}

theorem SameElse.refl (l : Local n) : SameElse l l := ⟨_, _, _, _, _, rfl⟩

theorem SameElse.trans (h : SameElse l l₁) (h' : SameElse l₁ l') : SameElse l l' := by
  obtain ⟨sl, c, b, e, r, h⟩ := h
  obtain ⟨sl', c', b', e', r', h'⟩ := h'
  refine ⟨sl', c', b', e', r', ?_⟩
  rw [h', h]

theorem CanRead.of_same (h : CanRead cfg l κ) (hs : SameElse l l₁) : CanRead cfg l₁ κ := by
  obtain ⟨sl, c, b, e, r, hs⟩ := hs
  rw [hs]
  exact ⟨h.debt, h.reading, h.counters, h.inSection⟩

theorem Acquired.after (h : Acquired κ l₁ l' i v y) (hs : SameElse l l₁) {z : Option Guard}
    (hg : l₁.guards = Function.update l.guards i z) : Acquired κ l l' i v y where
  guards := by rw [h.guards, hg, Function.update_idem]
  others := hs.trans h.others
  obj := h.obj
  kind := h.kind

theorem wp_storeSlot {p : Option Obj} {Q : Unit → Local n → Prop} (hd : l.debt = none)
    (hQ : Q () { l with
      slots := Function.update l.slots i p
      guards := Function.update l.guards i none }) :
    Wp cfg t (perform (.storeSlot i p)) Q l := by
  refine wp_action fun L s c r s' h hl _ he => ?_
  cases he
  subst hl
  refine ⟨⟨L, h.storeSlot hd⟩, ?_⟩
  simpa [State.loc, update₂] using hQ

theorem wp_validate {p : Option Obj} {Q : Bool → Local n → Prop} (hb : cfg.backend = .hp)
    (hd : l.debt = none) (hg : l.guards i = none) (hs : l.slots i = p) (hi : i ≤ cfg.snapshotSlots)
    (h0 : Q false l) (h1 : ∀ y : Option Guard, y.map (·.obj) = p → (∀ g, y = some g → g.kind = κ) →
      Q true { l with guards := Function.update l.guards i y }) :
    Wp cfg t (perform (.validate κ x i p)) Q l := by
  refine wp_action fun L s c r s' h hl _ he => ?_
  subst hl
  simp only [exec, Option.some.injEq] at he
  obtain ⟨h2, ⟨h3, h4⟩ | ⟨h3, y, h4, h5, h6⟩⟩ := h.validate (c := c) (κ := κ) (l := x) hb hd hg hs hi
  · rw [he] at h2 h3 h4
    subst h3
    rw [h4]
    exact ⟨h2, h0⟩
  · rw [he] at h2 h3 h4
    subst h3
    rw [h4]
    exact ⟨h2, h1 y h5 h6⟩

theorem wp_acquireLoop (hr : CanRead cfg l κ) (hb : cfg.backend = .hp) :
    Wp cfg t (acquireLoop κ x) (fun v l' => ∃ y, Acquired κ l l' 0 v y) l := by
  unfold acquireLoop
  refine wp_bind.mpr (wp_load fun p => wp_bind.mpr (wp_storeSlot hr.debt ?_))
  refine wp_bind.mpr (wp_validate hb hr.debt (by simp) (by simp) (Nat.zero_le _) ?_ ?_)
  · refine wp_invoke.mpr ⟨⟨hr.of_same ⟨_, _, _, _, _, rfl⟩, hb⟩, ?_⟩
    rintro v l₁ ⟨y, hy⟩
    exact ⟨y, hy.after ⟨_, _, _, _, _, rfl⟩ rfl⟩
  · intro y h1 h2
    exact ⟨y, by simp, ⟨_, _, _, _, _, rfl⟩, h1, h2⟩

theorem wp_protectLoop (hr : CanRead cfg l κ) (hb : cfg.backend = .hp)
    (hi : i ≤ cfg.snapshotSlots) :
    Wp cfg t (protectLoop κ x i) (fun v l' => ∃ y, Acquired κ l l' i v y) l := by
  unfold protectLoop
  refine wp_bind.mpr (wp_load fun p => ?_)
  cases p with
  | none =>
    refine wp_bind.mpr (wp_storeSlot hr.debt ?_)
    exact ⟨none, rfl, ⟨_, _, _, _, _, rfl⟩, rfl, by simp⟩
  | some o =>
    refine wp_bind.mpr (wp_storeSlot hr.debt ?_)
    refine wp_bind.mpr (wp_validate hb hr.debt (by simp) (by simp) hi ?_ ?_)
    · refine wp_invoke.mpr ⟨⟨hr.of_same ⟨_, _, _, _, _, rfl⟩, hb, hi⟩, ?_⟩
      rintro v l₁ ⟨y, hy⟩
      exact ⟨y, hy.after ⟨_, _, _, _, _, rfl⟩ rfl⟩
    · intro y h1 h2
      exact ⟨y, by simp, ⟨_, _, _, _, _, rfl⟩, h1, h2⟩

/-- An increment that goes to a variable. -/
theorem wp_increment_var {via : Via} {w : Nat} {checked : Bool} {Q : Bool → Local n → Prop}
    (hok : ViaOk l.guards κ via ∨ (checked = true ∧ cfg.atomicCounters = true))
    (hQ : ∀ r, Q r l) : Wp cfg t (perform (.increment κ via (.var κ w) checked)) Q l := by
  refine wp_action fun L s c r s' h hl _ he => ?_
  subst hl
  obtain ⟨h1, h2 | ⟨hc, _⟩⟩ := h.increment hok (Or.inr ⟨w, rfl⟩) he
  · rw [h2]
    exact ⟨h1, hQ r⟩
  · cases hc

theorem SameElse.fields (h : SameElse l l') : l'.hand = l.hand ∧ l'.desired = l.desired ∧
    l'.debt = l.debt ∧ l'.pass = l.pass ∧ l'.owned = l.owned ∧ l'.reading = l.reading ∧
    l'.localEpoch = l.localEpoch := by
  obtain ⟨sl, c, b, e, r, h⟩ := h
  rw [h]
  exact ⟨rfl, rfl, rfl, rfl, rfl, rfl, rfl⟩

/-- A guard that a read has set is cleared. -/
theorem wp_clear {Q : Unit → Local n → Prop} (hr : CanRead cfg l κ) (hs : SameElse l l₁)
    (hQ : ∀ l₂, SameElse l l₂ → l₂.guards = Function.update l₁.guards i none → Q () l₂) :
    Wp cfg t (perform (.clearGuard i)) Q l₁ := by
  have hr₁ := hr.of_same hs
  refine wp_clearGuard hr₁.debt fun sl => hQ _ (hs.trans ⟨sl, l₁.cov, l₁.late, l₁.endTS, l₁.readTS, ?_⟩) rfl
  rw [hr₁.reading]
  simp only [ite_self]

theorem wp_protectNoSlot {w : Nat} (hr : CanRead cfg l κ) (hb : cfg.backend = .hp)
    (h0 : l.guards 0 = none) :
    Wp cfg t (protectNoSlot κ x w) (fun _ l' => SameElse l l' ∧ l'.guards = l.guards) l := by
  have hback : ∀ {z}, Function.update (Function.update l.guards 0 z) 0 none = l.guards := by
    intro z
    rw [Function.update_idem, ← h0, Function.update_eq_self]
  unfold protectNoSlot
  refine wp_bind.mpr (wp_invoke.mpr ⟨⟨hr, hb⟩, ?_⟩)
  rintro v l₁ ⟨y, hy⟩
  cases v with
  | none =>
    have hn : y = none := Option.map_eq_none_iff.mp hy.obj
    refine ⟨hy.others, ?_⟩
    rw [hy.guards, hn, ← h0, Function.update_eq_self]
  | some o =>
    have hr₁ := hr.of_same hy.others
    have hvia : ViaOk l₁.guards .strong (.guard 0) ∨ (true = true ∧ cfg.atomicCounters = true) := by
      rcases hr.counters with hκ | ha
      · refine Or.inl fun g hg => Or.inr ?_
        rw [hy.guards, Function.update_self] at hg
        rw [hy.kind g hg, hκ]
      · exact Or.inr ⟨rfl, ha⟩
    refine wp_bind.mpr (wp_increment_var hvia fun b => ?_)
    cases b with
    | true =>
      refine wp_bind.mpr (wp_clear hr hy.others fun l₂ h1 h2 => ?_)
      exact ⟨h1, by rw [h2, hy.guards, hback]⟩
    | false =>
      refine wp_bind.mpr (wp_unchanged fun b => ?_)
      cases b with
      | true =>
        refine wp_bind.mpr (wp_clear hr hy.others fun l₂ h1 h2 => ?_)
        exact ⟨h1, by rw [h2, hy.guards, hback]⟩
      | false =>
        refine wp_bind.mpr (wp_clear hr hy.others fun l₂ h1 h2 => ?_)
        have hg : l₂.guards = l.guards := by rw [h2, hy.guards, hback]
        refine wp_invoke.mpr ⟨⟨hr.of_same h1, hb, by rw [hg]; exact h0⟩, ?_⟩
        rintro _ l₃ ⟨h3, h4⟩
        exact ⟨h1.trans h3, h4.trans hg⟩

theorem wp_useCount {via : Via} {Q : Nat → Local n → Prop}
    (hok : ViaOk l.guards .strong via ∨ cfg.atomicCounters = true) (hr : l.reading = none)
    (h0 : Q 0 l) (hpos : ∀ c, 0 < c → Q c (l.confirm via)) :
    Wp cfg t (useCount via) Q l := by
  unfold useCount
  exact wp_bind.mpr (wp_loadRef hok hr h0 hpos)

/-- The end of the epoch backends' `protect_snapshot`. -/
theorem wp_checkUseCount (hr : CanRead cfg l κ) (hy : Acquired κ l l₁ i v y) :
    Wp cfg t (checkUseCount i v) (fun v l' => ∃ y, Acquired κ l l' i v y) l₁ := by
  cases v with
  | none => exact ⟨y, hy⟩
  | some o =>
    unfold checkUseCount
    have hr₁ := hr.of_same hy.others
    obtain ⟨g, hg, rfl⟩ := Option.map_eq_some_iff.mp hy.obj
    subst hg
    have hgi : l₁.guards i = some g := by rw [hy.guards, Function.update_self]
    have hvia : ViaOk l₁.guards .strong (.guard i) ∨ cfg.atomicCounters = true := by
      refine hr.counters.imp_left fun hκ g' hg' => Or.inr ?_
      rw [hgi] at hg'
      cases hg'
      rw [hy.kind g rfl, hκ]
    refine wp_bind.mpr (wp_useCount hvia hr₁.reading ?_ fun c hc => ?_)
    · rw [if_pos rfl]
      refine wp_bind.mpr (wp_clear hr hy.others fun l₂ h1 h2 => ?_)
      refine ⟨none, ?_, h1, rfl, by simp⟩
      rw [h2, hy.guards, Function.update_idem]
    · rw [if_neg (Nat.ne_of_gt hc)]
      refine ⟨some { g with confirmed := true }, ?_, ?_, rfl, ?_⟩
      · simp only [Local.confirm, hgi, hy.guards, Option.map_some, Function.update_idem]
      · exact hy.others.trans ⟨_, _, _, _, _, rfl⟩
      · rintro _ ⟨⟩
        exact hy.kind g rfl

theorem wp_loadProtected {Q : Option Obj → Local n → Prop} (hr : CanRead cfg l κ)
    (hb : cfg.backend ≠ .hp)
    (hQ : ∀ v y c b, (∀ g, y = some g → g.kind = κ) →
      (b = false ∨ cfg.backend = .ebr → y.map (·.obj) = v) →
      Q v { l with guards := Function.update l.guards i y, cov := c, late := b }) :
    Wp cfg t (perform (.loadProtected κ x i)) Q l := by
  refine wp_action fun L s c r s' h hl _ he => ?_
  simp only [exec, Option.some.injEq] at he
  subst hl
  obtain ⟨h1, ⟨y, c', b, h2, h3, h4⟩⟩ := h.loadProtected (κ := κ) (l := x) (i := i) hb hr.debt
    (hr.inSection hb)
  rw [he] at h1 h2 h4
  rw [h2]
  exact ⟨h1, hQ r y c' b h3 h4⟩

theorem wp_protectEpoch {pEpoch : Nat} (hr : CanRead cfg l κ) (hb : cfg.backend = .ibr)
    (hp : pEpoch = l.endTS) :
    Wp cfg t (protectEpoch κ x i pEpoch) (fun v l' => ∃ y, Acquired κ l l' i v y) l := by
  unfold protectEpoch
  have hnb : cfg.backend ≠ .hp := by rw [hb]; decide
  refine wp_bind.mpr (wp_loadProtected hr hnb fun v y c b h1 h2 => ?_)
  refine wp_bind.mpr (wp_readEpoch fun e he hlate _ _ => ?_)
  by_cases hpe : pEpoch = e
  · rw [if_pos hpe]
    -- a load in an epoch past the end is repeated
    have hbf : b = false := by
      by_contra hc
      have := hlate (by simpa using hc)
      simp only at this
      omega
    exact wp_checkUseCount hr ⟨rfl, ⟨_, _, _, _, _, rfl⟩, h2 (Or.inl hbf), h1⟩
  · rw [if_neg hpe]
    refine wp_bind.mpr (wp_writeEnd he rfl ?_)
    refine wp_invoke.mpr ⟨⟨hr.of_same ⟨_, _, _, _, _, rfl⟩, hb, rfl⟩, ?_⟩
    rintro v l₁ ⟨y', hy⟩
    exact ⟨y', hy.after ⟨_, _, _, _, _, rfl⟩ rfl⟩

theorem wp_acquire (hr : CanRead cfg l κ) :
    Wp cfg t (acquire cfg κ x) (fun v l' => ∃ y, Acquired κ l l' 0 v y) l := by
  unfold acquire
  cases hb : cfg.backend with
  | hp => exact wp_invoke.mpr ⟨⟨hr, hb⟩, fun _ _ h => h⟩
  | ebr =>
    refine wp_loadProtected hr (by rw [hb]; decide) fun v y c b h1 h2 => ?_
    exact ⟨y, rfl, ⟨_, _, _, _, _, rfl⟩, h2 (Or.inr hb), h1⟩
  | ibr => exact wp_bind.mpr (wp_readEnd (wp_invoke.mpr ⟨⟨hr, hb, rfl⟩, fun _ _ h => h⟩))

theorem wp_getFreeSlot {is : List Nat} {Q : Option Nat → Local n → Prop} (hn : Q none l)
    (hs : ∀ i ∈ is, Q (some (i + 1)) l) : Wp cfg t (getFreeSlot is) Q l := by
  induction is with
  | nil => exact hn
  | cons i rest ih =>
    refine wp_bind.mpr (wp_pass ?_ fun r => ?_)
    · intro L s c r s' h he
      cases he
      exact ⟨⟨L, h⟩, rfl⟩
    · cases r with
      | none => exact hs i (List.mem_cons_self ..)
      | some _ => exact ih fun i hi => hs i (List.mem_cons_of_mem _ hi)

/-- What `protect_snapshot` leaves: a guard, or a unit in a variable and no new guard. -/
def Protected (κ : Kind) (l l' : Local n) : Option (Obj × Handle) → Prop
  | some (o, .guard i) => 0 < i ∧ ∃ y, Acquired κ l l' i (some o) y
  | some (_, .var _) => SameElse l l' ∧ l'.guards = l.guards
  | none => SameElse l l' ∧ ∀ j, l'.guards j = l.guards j ∨ l'.guards j = none

theorem Acquired.protected (h : Acquired κ l l' i v y) (hi : 0 < i) :
    Protected κ l l' (v.map (·, .guard i)) := by
  cases v with
  | none =>
    refine ⟨h.others, fun j => ?_⟩
    rw [h.guards, Function.update_apply]
    split
    · exact Or.inr (Option.map_eq_none_iff.mp h.obj)
    · exact Or.inl rfl
  | some o => exact ⟨hi, y, h⟩

theorem wp_protectSnapshot {w : Nat} (hr : CanRead cfg l κ) (h0 : l.guards 0 = none)
    (hi : cfg.backend = .hp ∨ 0 < i) :
    Wp cfg t (protectSnapshot cfg κ x i w) (fun p l' => Protected κ l l' p) l := by
  unfold protectSnapshot
  cases hb : cfg.backend with
  | hp =>
    refine wp_bind.mpr (wp_getFreeSlot ?_ fun j hj => ?_)
    · refine wp_bind.mpr (wp_invoke.mpr ⟨⟨hr, hb, h0⟩, ?_⟩)
      rintro v l₁ ⟨h1, h2⟩
      cases v with
      | none => exact ⟨h1, fun j => Or.inl (by rw [h2])⟩
      | some o => exact ⟨h1, h2⟩
    · have hle : j + 1 ≤ cfg.snapshotSlots := List.mem_range.mp hj
      refine wp_bind.mpr (wp_invoke.mpr ⟨⟨hr, hb, hle⟩, ?_⟩)
      rintro v l₁ ⟨y, hy⟩
      exact hy.protected (Nat.succ_pos j)
  | ebr =>
    have hi : 0 < i := hi.resolve_left (by rw [hb]; decide)
    refine wp_bind.mpr (wp_loadProtected hr (by rw [hb]; decide) fun v y c b h1 h2 => ?_)
    have hy : Acquired κ l { l with
        guards := Function.update l.guards i y, cov := c, late := b } i v y :=
      ⟨rfl, ⟨_, _, _, _, _, rfl⟩, h2 (Or.inr hb), h1⟩
    refine wp_bind.mpr (wp_mono ?_ (wp_checkUseCount hr hy))
    rintro v l₁ ⟨y', hy⟩
    exact hy.protected hi
  | ibr =>
    have hi : 0 < i := hi.resolve_left (by rw [hb]; decide)
    refine wp_bind.mpr (wp_readEnd (wp_bind.mpr (wp_invoke.mpr ⟨⟨hr, hb, rfl⟩, ?_⟩)))
    rintro v l₁ ⟨y, hy⟩
    exact hy.protected hi

theorem HasRead.refl (hs : SameElse l l') (hg : l'.guards = l.guards) : HasRead ok l l' :=
  ⟨hs, fun i => Or.inl (by rw [hg])⟩

theorem HasRead.trans (h : HasRead ok l l₁) (h' : HasRead ok l₁ l') : HasRead ok l l' := by
  refine ⟨h.others.trans h'.others, fun i => ?_⟩
  rcases h'.guards i with h1 | h1
  · rw [h1]
    exact h.guards i
  · exact Or.inr h1

theorem Acquired.hasRead (h : Acquired κ l l' i v y) (hs : SameElse l' l₁) {z : Option Guard}
    (hg : l₁.guards = Function.update l'.guards i z) (hok : ∀ g, z = some g → ok g) :
    HasRead ok l l₁ := by
  refine ⟨h.others.trans hs, fun j => ?_⟩
  rw [hg, h.guards, Function.update_idem, Function.update_apply]
  split
  · exact Or.inr hok
  · exact Or.inl rfl

theorem wp_weakSnapshot {w : Nat} (hr : CanRead cfg l .weak) (h0 : l.guards 0 = none)
    (hi : cfg.backend = .hp ∨ 0 < i) :
    Wp cfg t (weakSnapshot cfg x i w)
      (fun _ l' => HasRead (fun g => g.confirmed = true) l l' ∧ l'.guards 0 = none) l := by
  have hat : cfg.atomicCounters = true := hr.counters.resolve_left (by simp)
  have hagain : ∀ {l₁ : Local n}, HasRead (fun g => g.confirmed = true) l l₁ → l₁.guards 0 = none →
      Wp cfg t (invoke (.weakSnapshot x i w))
        (fun _ l' => HasRead (fun g => g.confirmed = true) l l' ∧ l'.guards 0 = none) l₁ := by
    intro l₁ h1 h2
    refine wp_invoke.mpr ⟨⟨hr.of_same h1.others, h2, hi⟩, ?_⟩
    rintro _ l₂ ⟨h3, h4⟩
    exact ⟨h1.trans h3, h4⟩
  unfold weakSnapshot
  refine wp_bind.mpr (wp_mono ?_ (wp_protectSnapshot hr h0 hi))
  intro p l₁ hp
  match p, hp with
  | none, hp =>
    refine ⟨⟨hp.1, fun j => (hp.2 j).imp_right fun hn g hg => ?_⟩, ?_⟩
    · rw [hn] at hg
      cases hg
    · rcases hp.2 0 with hz | hz
      · rw [hz, h0]
      · exact hz
  | some (o, .var v), ⟨h1, h2⟩ =>
    have hz : l₁.guards 0 = none := by rw [h2, h0]
    have hread : HasRead (fun g => g.confirmed = true) l l₁ := .refl h1 h2
    refine wp_bind.mpr (wp_useCount (Or.inr hat) (hr.of_same h1).reading ?_ fun c hc => ?_)
    · rw [if_neg (Nat.lt_irrefl 0)]
      refine wp_bind.mpr (wp_unchanged fun b => ?_)
      cases b with
      | true => exact ⟨hread, hz⟩
      | false => exact hagain hread hz
    · rw [if_pos hc]
      exact ⟨hread, hz⟩
  | some (o, .guard j), ⟨hj, y, hy⟩ =>
    have hr₁ := hr.of_same hy.others
    have hj0 : (0 : Nat) ≠ j := Nat.ne_of_lt hj
    have hz : l₁.guards 0 = none := by rw [hy.guards, Function.update_of_ne hj0, h0]
    have hclear : ∀ {l₂ : Local n}, SameElse l₁ l₂ → l₂.guards = Function.update l₁.guards j none →
        HasRead (fun g => g.confirmed = true) l l₂ ∧ l₂.guards 0 = none := by
      intro l₂ h1 h2
      refine ⟨hy.hasRead h1 h2 (by simp), ?_⟩
      rw [h2, Function.update_of_ne hj0, hz]
    refine wp_bind.mpr (wp_useCount (Or.inr hat) hr₁.reading ?_ fun c hc => ?_)
    · rw [if_neg (Nat.lt_irrefl 0)]
      refine wp_bind.mpr (wp_unchanged fun b => ?_)
      cases b with
      | true => exact wp_clear hr₁ (.refl l₁) fun l₂ h1 h2 => hclear h1 h2
      | false =>
        refine wp_bind.mpr (wp_clear hr₁ (.refl l₁) fun l₂ h1 h2 => ?_)
        exact hagain (hclear h1 h2).1 (hclear h1 h2).2
    · rw [if_pos hc]
      refine ⟨hy.hasRead (z := (l₁.guards j).map fun g => { g with confirmed := true })
        ⟨_, _, _, _, _, rfl⟩ rfl ?_, ?_⟩
      · intro g hg
        obtain ⟨g', _, rfl⟩ := Option.map_eq_some_iff.mp hg
        rfl
      · change Function.update l₁.guards j _ 0 = none
        rw [Function.update_of_ne hj0, hz]

end Reads

/-! ## Writes -/

section Writes

/-- The new pointer can be put into a location. -/
def CanInstall (cfg : Config) (t : Fin n) (l : Local n) (κ : Kind) (new : New) : Prop :=
  ∀ L s, Inv cfg L s → s.loc t = l → NewOk cfg l κ new

theorem wp_exchange {new : New} {Q : Bool → Local n → Prop} (hh : l.hand = none)
    (hok : CanInstall cfg t l κ new) (h0 : (∃ i, new = .guard i) → Q false l)
    (h1 : ∀ y : Option Token, (∀ k, y = some k → k.type = κ.type) →
      Q y.isSome { l.install cfg κ new with hand := y }) :
    Wp cfg t (perform (.exchange κ x new)) Q l := by
  refine wp_action fun L s c r s' h hl _ he => ?_
  have hnew := hok L s h hl
  subst hl
  simp only [exec] at he
  split at he
  · rename_i hm
    obtain ⟨h2, ⟨hg, rfl, h3⟩ | ⟨y, h3, rfl, h4⟩⟩ := h.exchange hh hnew hm he
    · rw [h3]
      exact ⟨h2, h0 hg⟩
    · rw [h3]
      exact ⟨h2, h1 y h4⟩
  · cases he

theorem install_hand (cfg : Config) (κ : Kind) (new : New) (hh : l.hand = none) : (l.install cfg κ new).hand = none := by
  cases new with
  | guard j =>
    simp only [Local.install]
    split <;> exact hh
  | _ => exact hh

theorem wp_exchangeAndRetire {new : New} {Q : Unit → Local n → Prop} (hh : l.hand = none)
    (hd : l.debt = none) (hok : CanInstall cfg t l κ new) (h0 : (∃ i, new = .guard i) → Q () l)
    (h1 : Q () { l.install cfg κ new with debt := none }) :
    Wp cfg t (exchangeAndRetire κ x new) Q l := by
  unfold exchangeAndRetire
  refine wp_bind.mpr (wp_use (wp_bind.mpr (wp_exchange hh hok ?_ ?_)))
  · intro hg
    refine wp_bind.mpr (wp_unuse (wp_bind.mpr (wp_payDebt ?_)))
    have : { l with debt := none } = l := by rw [← hd]
    rw [this]
    exact h0 hg
  · intro y _
    refine wp_bind.mpr (wp_unuse (wp_bind.mpr (wp_payDebt ?_)))
    have hback : ({ l.install cfg κ new with hand := none, debt := none } : Local n) =
        { l.install cfg κ new with debt := none } := by
      rw [← install_hand cfg κ new hh]
    cases y with
    | none =>
      refine (?_ : Q () _)
      rw [hback]
      exact h1
    | some k =>
      refine wp_invoke.mpr ⟨trivial, fun _ l₁ hl₁ => ?_⟩
      rw [show l₁ = _ from hl₁]
      refine (?_ : Q () _)
      rw [hback]
      exact h1

theorem wp_cas {new : New} {expected : Option Obj} {Q : Bool × Option Obj → Local n → Prop}
    (hh : l.hand = none) (hok : CanInstall cfg t l κ new) (h0 : ∀ p, Q (false, p) l)
    (h1 : ∀ p (y : Option Token), y.map (·.obj) = expected → (∀ k, y = some k → k.type = κ.type) →
      Q (true, p) { l.install cfg κ new with hand := y }) :
    Wp cfg t (perform (.cas κ x expected new)) Q l := by
  refine wp_action fun L s c r s' h hl _ he => ?_
  have hnew := hok L s h hl
  subst hl
  obtain ⟨b, p⟩ := r
  obtain ⟨h2, ⟨h3, h4⟩ | ⟨h3, y, h4, h5, h6⟩⟩ := h.cas hh hnew he
  · simp only at h3
    subst h3
    rw [h4]
    exact ⟨h2, h0 p⟩
  · simp only at h3
    subst h3
    rw [h4]
    exact ⟨h2, h1 p y h5 h6⟩

theorem wp_compareAndSwapImpl {new : New} {expected : Option Obj} {Q : Bool → Local n → Prop}
    (hh : l.hand = none) (hok : CanInstall cfg t l κ new) (h0 : Q false l)
    (h1 : Q true (l.install cfg κ new)) :
    Wp cfg t (compareAndSwapImpl κ x expected new) Q l := by
  have hback : ({ l.install cfg κ new with hand := none } : Local n) = l.install cfg κ new := by
    rw [← install_hand cfg κ new hh]
  unfold compareAndSwapImpl
  refine wp_bind.mpr (wp_use (wp_bind.mpr (wp_cas hh hok ?_ ?_)))
  · exact fun p => wp_bind.mpr (wp_unuse h0)
  · intro p y hy _
    refine wp_bind.mpr (wp_unuse ?_)
    cases y with
    | none =>
      cases hy
      refine (?_ : Q true _)
      rw [hback]
      exact h1
    | some k =>
      cases hy
      refine wp_bind.mpr (wp_invoke.mpr ⟨trivial, fun _ l₁ hl₁ => ?_⟩)
      rw [show l₁ = _ from hl₁]
      refine (?_ : Q true _)
      rw [hback]
      exact h1

theorem wp_swapLoop {expected : Option Obj} (hh : l.hand = none)
    (hd : ∀ k, l.desired = some k → k.type = Kind.strong.type) :
    Wp cfg t (swapLoop x expected) (fun _ l' => ∃ y, l' = { l with desired := none, hand := y } ∧
      ∀ k, y = some k → k.type = Kind.strong.type) l := by
  unfold swapLoop
  refine wp_bind.mpr (wp_cas hh (fun _ _ _ _ => hd) ?_ ?_)
  · exact fun p => wp_invoke.mpr ⟨⟨hh, hd⟩, fun _ _ h => h⟩
  · exact fun p y _ hy => ⟨y, rfl, hy⟩

theorem wp_setMark : Wp cfg t (setMark κ x) (fun _ l' => l' = l) l := by
  unfold setMark
  refine wp_bind.mpr (wp_pass ?_ fun b => ?_)
  · intro L s c r s' h he
    cases he
    exact ⟨⟨L, h⟩, rfl⟩
  · cases b with
    | true => exact rfl
    | false => exact wp_invoke.mpr ⟨trivial, fun _ _ h => h⟩

end Writes

/-- Every procedure meets its specification. -/
theorem wp_body {β : Type} (p : Proc β) (hp : pre cfg p l) : Wp cfg t (body cfg p) (post p l) l := by
  cases p with
  | retire => exact wp_retire
  | retireDispose o => exact wp_retireDispose hp.1 hp.2
  | workLoop => exact wp_workLoop hp
  | removeIf =>
    obtain ⟨hh, p, h1, h2⟩ := hp
    exact wp_removeIf hh h1 h2
  | eject ty => exact wp_eject hp.1 hp.2
  | decrementRefCnt src => exact wp_decrementRefCnt hp.1 hp.2
  | decrementWeakCnt src => exact wp_decrementWeakCnt hp
  | dispose o => exact wp_dispose hp.1 hp.2
  | destructor => exact wp_destructor hp
  | acquireLoop κ x => exact wp_acquireLoop hp.1 hp.2
  | protectLoop κ x i => exact wp_protectLoop hp.1 hp.2.1 hp.2.2
  | protectNoSlot κ x w => exact wp_protectNoSlot hp.1 hp.2.1 hp.2.2
  | protectEpoch κ x i pEpoch => exact wp_protectEpoch hp.1 hp.2.1 hp.2.2
  | weakSnapshot x i w => exact wp_weakSnapshot hp.1 hp.2.1 hp.2.2
  | swapLoop x expected => exact wp_swapLoop hp.1 hp.2
  | setMark κ x => exact wp_setMark

end Cdrc.Smr
