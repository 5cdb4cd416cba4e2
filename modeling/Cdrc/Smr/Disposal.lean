import Cdrc.Smr.Ejects

/-! # Reference counting over a memory manager: disposing of an object

The thread that took the strong counter to zero owns the object. It reads `weak_cnt`; if
that is 1 nothing else refers to the object and it is destroyed at once, else `dispose` is
retired, and a pass ejects it later. The last weak unit deletes the object. -/
namespace Cdrc.Smr
open Cdrc.StickyCounter Cdrc.CountedObject Cdrc.Lib.Threads Cdrc.Lib.Units

variable {n : Nat} {cfg : Config} {L : Kind → Book n} {s s' : State n}
  {mem : Obj → Option Object} {home : Token → Option (Home n)}
  {deferred : Fin n → List Entry} {pass : Fin n → Option (Pass n)} {inProgress : Fin n → Bool}
  {owned : Fin n → Obj → Option Stage} {prot : Fin n → Token → Bool}
  {cov : Fin n → Obj → Bool} {localEpoch : Fin n → Option Nat} {endTS : Fin n → Nat}
  {guards : Fin n → Nat → Option Guard}
  {k : Token} {x : Option (Home n)} {o : Obj} {ob ob' : Object} {t : Fin n} {y : Option Stage}

/-! ## Stages -/

theorem Life.implicit_of_owned (h : Life mem home owned) {st : Stage} (ho : owned t o = some st)
    (hl : st ≠ .last) : home (implicit o) = some (.owned t) :=
  (h.owned_iff t o).mpr ⟨st, ho, hl⟩

theorem Life.owned_unique (h : Life mem home owned) {st : Stage} (ho : owned t o = some st)
    (hl : st ≠ .last) (u : Fin n) (hu : u ≠ t) : owned u o = none := by
  have hi := h.implicit_of_owned ho hl
  cases hou : owned u o with
  | none => rfl
  | some st' =>
    by_cases hl' : st' = .last
    · have := h.last u o (implicit o) (hl' ▸ hou) rfl
      rw [hi] at this
      cases this
    · have := h.implicit_of_owned hou hl'
      rw [hi] at this
      cases this
      exact absurd rfl hu

theorem Life.not_alive (h : Life mem home owned) {st : Stage} (ho : owned t o = some st) :
    home (implicit o) ≠ some .alive := by
  intro ha
  rw [h.not_owned ha t] at ho
  cases ho

/-- No strong unit of an object that is not alive. -/
theorem Life.no_strong (h : Life mem home owned) (ha : home (implicit o) ≠ some .alive)
    (hk : home k ≠ none) (ho : k.obj = o) : k.type ≠ .decrementStrongCount := by
  intro hs
  exact ha (ho ▸ h.alive_of_strong k hk hs)

/-- The implicit unit of an object goes on, and `t` is at another stage. -/
theorem Life.stage (h : Life mem home owned) (hna : home (implicit o) ≠ some .alive)
    (hin : home (implicit o) ≠ none) (hx : x ≠ none) (hxa : x ≠ some .alive)
    (hxo : ∀ u, x = some (.owned u) ↔ u = t ∧ ∃ st, y = some st ∧ st ≠ .last)
    (hother : ∀ u, u ≠ t → owned u o = none) (hl : y ≠ some .last) (hp : y ≠ some .parked)
    (himm : y = some .immediate → ∀ k, home k ≠ none → k.obj = o → k = implicit o)
    (hm : mem o ≠ none)
    (halive : ∀ ob, mem o = some ob → (∀ st, y = some st → st.early = true) → ob.alive = true) :
    Life mem (Function.update home (implicit o) x) (update₂ owned t o y) := by
  have himp : ∀ o', o' ≠ o → Function.update home (implicit o) x (implicit o') =
      home (implicit o') := fun o' ho => Function.update_of_ne (fun he => ho (implicit_inj.mp he)) _ _
  have hne : ∀ k', Function.update home (implicit o) x k' ≠ none ↔ home k' ≠ none :=
    update_home_ne_none hin hx
  have hown : ∀ u o' st, update₂ owned t o y u o' = some st →
      (u = t ∧ o' = o ∧ y = some st) ∨ (o' ≠ o ∧ owned u o' = some st) := by
    intro u o' st h1
    rw [update₂_apply] at h1
    by_cases ho : o' = o
    · by_cases hu : u = t
      · rw [if_pos ⟨hu, ho⟩] at h1
        exact Or.inl ⟨hu, ho, h1⟩
      · rw [if_neg (fun hc => hu hc.1), ho, hother u hu] at h1
        cases h1
    · rw [if_neg (fun hc => ho hc.2)] at h1
      exact Or.inr ⟨ho, h1⟩
  constructor
  · intro k' h1 h2
    have h3 := h.alive_of_strong k' ((hne k').mp h1) h2
    have ho : k'.obj ≠ o := fun ho => hna (ho ▸ h3)
    rw [himp _ ho]
    exact h3
  · intro o' h1
    by_cases ho : o' = o
    · rw [ho, Function.update_self] at h1
      exact absurd h1 hxa
    · rw [himp _ ho] at h1
      obtain ⟨k', h2, h3, h4⟩ := h.strong_of_alive o' h1
      exact ⟨k', (hne k').mpr h2, h3, h4⟩
  · intro k' h1
    by_cases he : k' = implicit o
    · rw [he]; rfl
    · rw [Function.update_of_ne he] at h1
      exact h.only_implicit k' h1
  · intro u o'
    by_cases ho : o' = o
    · subst ho
      rw [Function.update_self, hxo u, update₂_apply]
      by_cases hu : u = t
      · simp [hu]
      · simp [hu, hother u hu]
    · rw [himp _ ho, h.owned_iff u o', update₂_apply]
      simp [ho]
  · intro u o' st h1
    rcases hown u o' st h1 with ⟨_, rfl, _⟩ | ⟨_, h2⟩
    · exact hm
    · exact h.present u o' st h2
  · intro u o' ob h1 h2
    rcases hown u o' _ h1 with ⟨_, _, h3⟩ | ⟨_, h3⟩
    · exact absurd h3 hp
    · exact h.parked u o' ob h3 h2
  · intro u o' k' h1 h2 h3
    rcases hown u o' _ h1 with ⟨_, rfl, h4⟩ | ⟨_, h4⟩
    · exact himm h4 k' ((hne k').mp h2) h3
    · exact h.immediate u o' k' h4 ((hne k').mp h2) h3
  · intro u o' k' h1 h2
    rcases hown u o' _ h1 with ⟨_, _, h4⟩ | ⟨_, h4⟩
    · exact absurd h4 hl
    · by_contra hc
      exact (hne k').mp hc (h.last u o' k' h4 h2)
  · intro u v o' h1 h2
    rcases hown u o' _ h1 with ⟨_, _, h4⟩ | ⟨ho, h4⟩
    · exact absurd h4 hl
    · rcases hown v o' _ h2 with ⟨_, hc, _⟩ | ⟨_, h5⟩
      · exact absurd hc ho
      · exact h.last_unique u v o' h4 h5
  · intro o' ob h1 h2 h3
    by_cases ho : o' = o
    · subst ho
      refine halive ob h1 fun st hy => h3 t st ?_
      rw [update₂_apply, if_pos ⟨rfl, rfl⟩, hy]
    · refine h.alive o' ob h1 (by rw [himp _ ho] at h2; exact h2) fun u st hu => h3 u st ?_
      rw [update₂_apply, if_neg (fun hc => ho hc.2)]
      exact hu

/-- The thread that owns an object is at another stage. -/
theorem Inv.stage (h : Inv cfg L s) {st st' : Stage} (ho : s.owned t o = some st)
    (hl : st ≠ .last) (hl' : st' ≠ .last) (hp' : st' ≠ .parked) (hd' : st' ≠ .disposing)
    (himm : st' = .immediate → ∀ k, s.home k ≠ none → k.obj = o → k = implicit o)
    (he : st.early = true) (he' : st'.early = true ∨ ∀ u i g, s.guards u i = some g → g.obj ≠ o) :
    Inv cfg L { s with owned := update₂ s.owned t o (some st') } := by
  have hi := h.life.implicit_of_owned ho hl
  have hin : s.home (implicit o) ≠ none := by rw [hi]; exact Option.some_ne_none _
  have hother := h.life.owned_unique ho hl
  have hlife := h.life.stage (t := t) (x := s.home (implicit o)) (y := some st')
    (h.life.not_alive ho) hin hin
    (h.life.not_alive ho)
    (by
      intro u
      rw [hi]
      constructor
      · rintro ⟨⟩; exact ⟨rfl, st', rfl, hl'⟩
      · rintro ⟨rfl, _⟩; rfl)
    hother (fun hc => hl' (Option.some.inj hc)) (fun hc => hp' (Option.some.inj hc))
    (fun hc => himm (Option.some.inj hc)) (h.life.present t o st ho)
    (by
      intro ob hm _
      refine h.life.alive o ob hm hin fun u st'' hu => ?_
      by_cases hut : u = t
      · rw [hut, ho] at hu
        cases hu
        exact he
      · rw [hother u hut] at hu
        cases hu)
  rw [Function.update_eq_self] at hlife
  exact { h with
    life := hlife
    guards := by
      refine h.guards.setOwned fun u i g hg hc v st'' hv => ?_
      simp only [update₂_apply] at hv
      split at hv
      · rename_i hvo
        cases hv
        rcases he' with he' | he'
        · exact he'
        · exact absurd hvo.2 (he' u i g hg)
      · exact (h.guards.confirmed u i g hg hc).2.2 v st'' hv
    disposing := h.disposing.stage fun hc => hd' (Option.some.inj hc) }

/-! ## The end of `decrement` -/

/-- The object changes in what nothing counts. -/
theorem Inv.setObj (h : Inv cfg L s) {b : Object} (hm : s.mem o = some ob)
    (hb : b.birthTS = ob.birthTS) (hw : b.weak = ob.weak)
    (hr : 0 < (L .strong).count Token.obj o ∨ cfg.atomicCounters = true → b.ref = ob.ref)
    (hlife : Life (Function.update s.mem o (some b)) s.home s.owned) :
    Inv cfg L (s.setObj o (some b)) := by
  have hst := Stamped.update hm hb
  exact { h with
    counted := by
      refine ⟨fun k hk => ?_, fun o' ob'' ho' hc => ?_, h.counted.ref_le, fun o' ob'' ho' => ?_⟩
      · exact fun hc => h.counted.present k hk ((hst k.obj).1.mp hc)
      · simp only [State.setObj, Function.update_apply] at ho'
        split at ho'
        · rename_i he
          subst he
          cases ho'
          rw [hr hc]
          exact h.counted.ref o' ob hm hc
        · exact h.counted.ref o' ob'' ho' hc
      · simp only [State.setObj, Function.update_apply] at ho'
        split at ho'
        · rename_i he
          subst he
          cases ho'
          rw [hw]
          exact h.counted.weak o' ob hm
        · exact h.counted.weak o' ob'' ho'
    life := hlife
    guards := h.guards.stamped hst
    epochs := h.epochs.stamped hst
    prots := h.prots.stamped hst }

theorem Inv.strong_count_zero (h : Inv cfg L s) (ha : s.home (implicit o) ≠ some .alive) :
    (L .strong).count Token.obj o = 0 := by
  by_contra hc
  obtain ⟨k, hk⟩ := Finset.card_pos.mp (Nat.pos_of_ne_zero hc)
  obtain ⟨hp, ho⟩ := Finset.mem_filter.mp hk
  obtain ⟨h1, h2⟩ := (h.books .strong).live_of_paid hp
  exact h.life.no_strong ha h1 ho h2

theorem Inv.decrementCas (h : Inv cfg L s) {r : Pc 30} (ha : cfg.atomicCounters = false)
    (ho : s.owned t o = some .parked) (he : s.decrementCas t o = some (r, s')) :
    Good cfg s' ∧ r = .done (.bool true) ∧
      s'.loc t = { s.loc t with owned := Function.update (s.owned t) o (some .zero) } := by
  obtain ⟨ob, hm⟩ := Option.ne_none_iff_exists'.mp (h.life.present t o _ ho)
  have hz := h.life.parked t o ob ho hm
  simp only [State.decrementCas, hm] at he
  rw [access_decrementCas_zero hz] at he
  simp only [result, if_true, Option.some.injEq, Prod.mk.injEq] at he
  obtain ⟨rfl, rfl⟩ := he
  have h1 : Inv cfg L { s with owned := update₂ s.owned t o (some .zero) } :=
    h.stage ho (by decide) (by decide) (by decide) (by decide)
    (by intro hc; cases hc) rfl (Or.inl rfl)
  have hcount := h.strong_count_zero (h.life.not_alive ho)
  refine ⟨⟨L, ?_⟩, rfl, by simp [State.loc, State.setObj, update₂]⟩
  refine h1.setObj (b := { ob with ref := zeroFlag 30 }) hm rfl rfl ?_ ?_
  · rintro (hc | hc)
    · omega
    · rw [ha] at hc; cases hc
  · refine h1.life.stamped hm rfl fun u hu => ?_
    by_cases hut : u = t
    · simp only [update₂_apply, hut, and_self, if_true] at hu
      cases hu
    · simp only [update₂_apply, hut, false_and, if_false] at hu
      rw [h.life.owned_unique ho (by decide) u hut] at hu
      cases hu

/-! ## The read of `weak_cnt` -/

theorem Inv.implicit_paid (h : Inv cfg L s) (hi : s.home (implicit o) ≠ none) :
    implicit o ∈ (L .weak).paid := by
  refine ((h.books .weak).mem_paid _).mpr ⟨⟨hi, fun hc => by cases hc⟩, fun u g hd he => ?_⟩
  obtain ⟨d, hd', hk, -⟩ := debtOf_eq_some hd
  have := (h.debts.label u d hd').1
  rw [hk, he] at this
  cases this

/-- A guard on an object without strong units keeps a weak unit of its own. -/
theorem Inv.paid_of_guard (h : Inv cfg L s) (ha : s.home (implicit o) ≠ some .alive)
    {g : Fin n × Nat} (hg : guardOf s.guards .weak g = some o) :
    ∃ k ∈ (L .weak).paid, k.obj = o ∧ k.type = .decrementWeakCount := by
  refine (h.books .weak).exists_paid_of (P := fun k => k.type = .decrementWeakCount) ?_ hg
  rintro ⟨u, i⟩ hg'
  obtain ⟨g', hg'', rfl, _⟩ := guardOf_eq_some hg'
  refine h.guards.wit_weak u i g' hg'' ?_
  cases hk : g'.kind with
  | weak => rfl
  | strong =>
    obtain ⟨k, h1, h2, h3⟩ := h.guard_token hg''
    rw [hk] at h3
    exact absurd h3 (h.life.no_strong ha h1 h2)

/-- When the weak counter is 1, only the implicit unit is left. -/
theorem Inv.alone (h : Inv cfg L s) (ha : s.home (implicit o) ≠ some .alive)
    (hi : s.home (implicit o) ≠ none) (hc : (L .weak).count Token.obj o = 1) :
    (∀ k, s.home k ≠ none → k.obj = o → k = implicit o) ∧
      ∀ u i g, s.guards u i = some g → g.obj ≠ o := by
  have hpaid := h.implicit_paid hi
  have hone : ∀ k ∈ (L .weak).paid, k.obj = o → k = implicit o := by
    intro k hk ho
    obtain ⟨z, hz⟩ := Finset.card_eq_one.mp hc
    have h1 : k ∈ ({z} : Finset Token) := hz ▸ Finset.mem_filter.mpr ⟨hk, ho⟩
    have h2 : implicit o ∈ ({z} : Finset Token) := hz ▸ Finset.mem_filter.mpr ⟨hpaid, rfl⟩
    rw [Finset.mem_singleton] at h1 h2
    rw [h1, h2]
  have hno : ∀ g, guardOf s.guards .weak g ≠ some o := by
    intro g hg
    obtain ⟨k, h1, h2, h3⟩ := h.paid_of_guard ha hg
    rw [hone k h1 h2] at h3
    cases h3
  constructor
  · intro k hk ho
    have hns := h.life.no_strong ha hk ho
    by_cases hp : k ∈ (L .weak).paid
    · exact hone k hp ho
    · obtain ⟨u, g, hd, he⟩ := (h.books .weak).exists_debt ⟨hk, hns⟩ hp
      have := ((h.books .weak).label_live u g hd).2
      rw [he, ho] at this
      exact absurd this (hno g)
  · intro u i g hg ho
    refine hno (u, i) ?_
    rw [guardOf_of hg (fun hc => by cases hc), ho]

theorem Inv.loadWeak (h : Inv cfg L s) {r : Nat} (ho : s.owned t o = some .zero)
    (he : s.loadWeak t o = some (r, s')) :
    Good cfg s' ∧ ((r = 1 ∧
      s'.loc t = { s.loc t with owned := Function.update (s.owned t) o (some .immediate) }) ∨
      (r ≠ 1 ∧ s'.loc t = s.loc t)) := by
  obtain ⟨ob, hm⟩ := Option.ne_none_iff_exists'.mp (h.life.present t o _ ho)
  simp only [State.loadWeak, hm] at he
  split at he
  · rename_i hw
    cases he
    have hi := h.life.implicit_of_owned ho (by decide)
    have hal := h.alone (h.life.not_alive ho) (by rw [hi]; exact Option.some_ne_none _)
      (by rw [← h.counted.weak o ob hm, hw])
    refine ⟨⟨L, ?_⟩, Or.inl ⟨rfl, by simp [State.loc, update₂]⟩⟩
    exact h.stage ho (by decide) (by decide) (by decide) (by decide) (fun _ => hal.1) rfl
      (Or.inr hal.2)
  · rename_i hw
    cases he
    exact ⟨⟨L, h⟩, Or.inr ⟨hw, rfl⟩⟩

/-! ## The destructor -/

/-- `~T` runs in the stages after `early`. -/
theorem Inv.runDestructor (h : Inv cfg L s) {r : Unit} {st : Stage} (ho : s.owned t o = some st)
    (hst : st.early = false) (he : s.runDestructor o = some (r, s')) :
    Good cfg s' ∧ s'.loc t = s.loc t := by
  obtain ⟨ob, hm⟩ := Option.ne_none_iff_exists'.mp (h.life.present t o _ ho)
  simp only [State.runDestructor, hm] at he
  cases he
  refine ⟨⟨L, h.setObj hm rfl rfl (fun _ => rfl) ?_⟩, rfl⟩
  refine { h.life with present := ?_, parked := ?_, alive := ?_ }
  · intro u o' st' hu
    by_cases ho' : o' = o
    · simp [ho']
    · rw [Function.update_of_ne ho']
      exact h.life.present u o' st' hu
  · intro u o' ob'' hu hob
    by_cases ho' : o' = o
    · subst ho'
      rw [Function.update_self] at hob
      cases hob
      exact h.life.parked u o' ob hu hm
    · rw [Function.update_of_ne ho'] at hob
      exact h.life.parked u o' ob'' hu hob
  · intro o' ob'' hob hin hearly
    by_cases ho' : o' = o
    · subst ho'
      rw [hearly t st ho] at hst
      cases hst
    · rw [Function.update_of_ne ho'] at hob
      exact h.life.alive o' ob'' hob hin hearly

/-- No unit of `o` is left but the implicit one, and nothing uses the object. -/
structure Abandoned (s : State n) (o : Obj) : Prop where
  only : ∀ k, s.home k ≠ none → k.obj = o → k = implicit o
  guards : ∀ u i g, s.guards u i = some g → g.obj ≠ o

theorem Inv.abandoned (h : Inv cfg L s) (ho : s.owned t o = some .immediate ∨ s.owned t o = some .last) :
    Abandoned s o := by
  have honly : ∀ k, s.home k ≠ none → k.obj = o → k = implicit o := by
    intro k hk hko
    rcases ho with ho | ho
    · exact h.life.immediate t o k ho hk hko
    · exact absurd (h.life.last t o k ho hko) hk
  refine ⟨honly, fun u i g hg hgo => ?_⟩
  obtain ⟨k, h1, h2, h3⟩ := h.guard_token hg
  have := honly k h1 (h2.trans hgo)
  rw [this] at h3
  exact g.kind.type_ne_dispose h3.symm

theorem Abandoned.unkept (ha : Abandoned s o) (h : Inv cfg L s) (hk : k.obj = o) (u : Fin n) :
    s.prot u k = false := by
  by_contra hc
  have hp : s.prot u k = true := by simpa using hc
  have hki := ha.only k (h.prots.live u k hp).1 hk
  rw [hki] at hp
  obtain ⟨k', h1, h2, h3⟩ := h.prots.implicit_prot u o hp
  have := ha.only k' (h.prots.live u k' h1).1 h2
  exact h3 (by rw [this]; rfl)

/-- The books when an object has no unit left. -/
theorem Abandoned.books (ha : Abandoned s o) (h : Inv cfg L s) :
    ∃ L' : Kind → Book n, (∀ κ, (L' κ).Valid (Live (Function.update s.home (implicit o) none) κ) Token.obj
        (guardOf s.guards κ) (debtOf s.debt κ)) ∧ (∀ κ g, (L' κ).wit g = (L κ).wit g) ∧
      (∀ κ d, (L' κ).label d = (L κ).label d) ∧
      ∀ κ o', o' ≠ o → (L' κ).count Token.obj o' = (L κ).count Token.obj o' := by
  by_cases hi : s.home (implicit o) = none
  · refine ⟨L, fun κ => ?_, fun _ _ => rfl, fun _ _ => rfl, fun _ _ _ => rfl⟩
    rw [← hi, Function.update_eq_self]
    exact h.books κ
  · have hidle : Idle L s (implicit o) := by
      refine h.idle_implicit ?_ fun u => ha.unkept h rfl u
      intro hal
      obtain ⟨k, h1, h2, h3⟩ := h.life.strong_of_alive o hal
      rw [ha.only k h1 h2] at h3
      cases h3
    have hκ : ofKind .weak (implicit o) := fun hc => by cases hc
    refine ⟨_, h.books_consume hidle hi hκ, update_wit rfl, update_label rfl, fun κ o' ho' => ?_⟩
    by_cases hκ' : κ = .weak
    · subst hκ'
      rw [Function.update_self]
      have := h.count_consume hidle hi hκ o'
      rw [if_neg (show ¬ (implicit o).obj = o' from Ne.symm ho')] at this
      exact this
    · rw [Function.update_of_ne hκ']

theorem Abandoned.unwitnessed (ha : Abandoned s o) (h : Inv cfg L s) (κ : Kind) :
    (L κ).Unwitnessed (guardOf s.guards κ) (implicit o) := by
  rintro ⟨u, i⟩ o' hg he
  have hl := ((h.books κ).wit_live (u, i) o' hg).2
  obtain ⟨g, hg', rfl, _⟩ := guardOf_eq_some hg
  rw [he] at hl
  exact ha.guards u i g hg' hl.symm

/-- `delete_object`. -/
theorem Inv.delete (h : Inv cfg L s) {r : Unit}
    (ho : s.owned t o = some .immediate ∨ s.owned t o = some .last)
    (he : s.delete t o = some (r, s')) :
    Good cfg s' ∧ s'.loc t = { s.loc t with owned := Function.update (s.owned t) o none } := by
  have hab := h.abandoned ho
  have hpres : s.mem o ≠ none := by rcases ho with ho | ho <;> exact h.life.present t o _ ho
  obtain ⟨ob, hm⟩ := Option.ne_none_iff_exists'.mp hpres
  simp only [State.delete, hm] at he
  cases he
  obtain ⟨L', hbooks, hwit, hlab, hcount⟩ := hab.books h
  -- what is left is of other objects
  have hne : ∀ k, Function.update s.home (implicit o) none k ≠ none →
      k.obj ≠ o ∧ s.home k ≠ none := by
    intro k hk
    by_cases hki : k = implicit o
    · rw [hki, Function.update_self] at hk
      exact absurd rfl hk
    · rw [Function.update_of_ne hki] at hk
      exact ⟨fun hc => hki (hab.only k hk hc), hk⟩
  have himp : ∀ o', o' ≠ o → Function.update s.home (implicit o) none (implicit o') =
      s.home (implicit o') := fun o' ho' =>
    Function.update_of_ne (fun hc => ho' (implicit_inj.mp hc)) _ _
  have hmem : ∀ o' ob', Function.update s.mem o none o' = some ob' →
      o' ≠ o ∧ s.mem o' = some ob' := by
    intro o' ob' hm'
    by_cases ho' : o' = o
    · rw [ho', Function.update_self] at hm'
      cases hm'
    · rw [Function.update_of_ne ho'] at hm'
      exact ⟨ho', hm'⟩
  have hown : ∀ u o' st, update₂ s.owned t o none u o' = some st →
      o' ≠ o ∧ s.owned u o' = some st := by
    intro u o' st hu
    rw [update₂_apply] at hu
    split at hu
    · cases hu
    · rename_i hc
      refine ⟨fun ho' => hc ⟨?_, ho'⟩, hu⟩
      subst ho'
      rcases ho with ho | ho
      · by_contra hut
        rw [h.life.owned_unique ho (by decide) u hut] at hu
        cases hu
      · by_cases hst : st = .last
        · subst hst
          exact h.life.last_unique u t o' hu ho
        · have := h.life.implicit_of_owned hu hst
          rw [h.life.last t o' (implicit o') ho rfl] at this
          cases this
  have hncell : ∀ q, s.home (implicit o) ≠ some (.cell q) := fun q hc =>
    h.places.type_ne_dispose ((h.places.cell_iff q _).mpr hc) rfl
  have hnlist : ∀ u, s.home (implicit o) ≠ some (.list u) := by
    intro u hc
    rcases ho with ho | ho
    · rw [h.life.implicit_of_owned ho (by decide)] at hc
      cases hc
    · rw [h.life.last t o (implicit o) ho rfl] at hc
      cases hc
  refine ⟨⟨L', ?_⟩, by simp [State.loc, State.setObj, update₂]⟩
  exact { h with
    places := h.places.elsewhere hncell (by intro q hc; cases hc)
    lists := h.lists.elsewhere hnlist (by intro u hc; cases hc)
    fresh := h.fresh.setImplicit
    books := hbooks
    counted := by
      refine ⟨fun k hk => ?_, fun o' ob' ho' hc => ?_, fun o' => ?_, fun o' ob' ho' => ?_⟩
      · obtain ⟨h1, h2⟩ := hne k hk
        change Function.update s.mem o none k.obj ≠ none
        rw [Function.update_of_ne h1]
        exact h.counted.present k h2
      · obtain ⟨h1, h2⟩ := hmem o' ob' ho'
        rw [hcount _ _ h1] at hc ⊢
        exact h.counted.ref o' ob' h2 hc
      · by_cases ho' : o' = o
        · have hz : (L' .strong).count Token.obj o' = 0 := by
            by_contra hc
            obtain ⟨k, hk⟩ := Finset.card_pos.mp (Nat.pos_of_ne_zero hc)
            obtain ⟨hp, hko⟩ := Finset.mem_filter.mp hk
            exact (hne k ((hbooks .strong).live_of_paid hp).1).1 (hko.trans ho')
          omega
        · rw [hcount _ _ ho']
          exact h.counted.ref_le o'
      · obtain ⟨h1, h2⟩ := hmem o' ob' ho'
        rw [hcount _ _ h1]
        exact h.counted.weak o' ob' h2
    life := by
      constructor
      · intro k hk hs
        obtain ⟨h1, h2⟩ := hne k hk
        exact (himp _ h1).trans (h.life.alive_of_strong k h2 hs)
      · intro o' ha
        have ho' : o' ≠ o := by
          rintro rfl
          have : Function.update s.home (implicit o') none (implicit o') = some .alive := ha
          rw [Function.update_self] at this
          cases this
        obtain ⟨k, h1, h2, h3⟩ := h.life.strong_of_alive o' ((himp o' ho').symm.trans ha)
        refine ⟨k, ?_, h2, h3⟩
        have hki : k ≠ implicit o := by rintro rfl; cases h3
        change Function.update s.home (implicit o) none k ≠ none
        rw [Function.update_of_ne hki]
        exact h1
      · intro k hk
        refine h.life.only_implicit k ?_
        by_cases hki : k = implicit o
        · subst hki
          rcases hk with hk | ⟨u, hk⟩ <;>
          · have : Function.update s.home (implicit o) none (implicit o) ≠ none := by
              intro hc
              have := hk.symm.trans hc
              cases this
            rw [Function.update_self] at this
            exact absurd rfl this
        · have := Function.update_of_ne hki (none : Option (Home n)) s.home
          rcases hk with hk | ⟨u, hk⟩
          · exact Or.inl (this.symm.trans hk)
          · exact Or.inr ⟨u, this.symm.trans hk⟩
      · intro u o'
        by_cases ho' : o' = o
        · subst ho'
          have h1 : Function.update s.home (implicit o') none (implicit o') = none := by simp
          refine iff_of_false (fun hc => ?_) ?_
          · have := h1.symm.trans hc
            cases this
          · rintro ⟨st, hu, _⟩
            exact (hown u o' st hu).1 rfl
        · have h1 : update₂ s.owned t o none u o' = s.owned u o' := by
            rw [update₂_apply, if_neg (fun hc => ho' hc.2)]
          have := h.life.owned_iff u o'
          rw [← himp o' ho', ← h1] at this
          exact this
      · intro u o' st hu
        obtain ⟨h1, h2⟩ := hown u o' st hu
        change Function.update s.mem o none o' ≠ none
        rw [Function.update_of_ne h1]
        exact h.life.present u o' st h2
      · intro u o' ob' hu hm'
        exact h.life.parked u o' ob' (hown u o' _ hu).2 (hmem o' ob' hm').2
      · intro u o' k hu hk hko
        exact h.life.immediate u o' k (hown u o' _ hu).2 (hne k hk).2 hko
      · intro u o' k hu hko
        by_contra hc
        exact (hne k hc).2 (h.life.last u o' k (hown u o' _ hu).2 hko)
      · intro u v o' hu hv
        exact h.life.last_unique u v o' (hown u o' _ hu).2 (hown v o' _ hv).2
      · intro o' ob' hm' hin hearly
        obtain ⟨h1, h2⟩ := hmem o' ob' hm'
        refine h.life.alive o' ob' h2 (fun hc => hin ((himp o' h1).trans hc)) fun u st hu => ?_
        refine hearly u st ?_
        change update₂ s.owned t o none u o' = some st
        rw [update₂_apply, if_neg (fun hc => h1 hc.2)]
        exact hu
    guards := by
      have hrem := (h.guards.remove (hab.unwitnessed h) fun u i g hg _ hc =>
        hab.guards u i g hg (implicit_inj.mp hc)).book hwit
      refine { hrem with birth := ?_, confirmed := ?_ }
      · intro u i g ob' hg hm'
        exact h.guards.birth u i g ob' hg (hmem _ ob' hm').2
      · intro u i g hg hc
        obtain ⟨h1, h2, h3⟩ := hrem.confirmed u i g hg hc
        exact ⟨h1, h2, fun v st hv => h3 v st (hown v _ st hv).2⟩
    debts := h.debts.book hlab
    epochs :=
      { h.epochs with birth_le := fun o' ob' hm' => h.epochs.birth_le o' ob' (hmem o' ob' hm').2 }
    prots :=
      { h.prots.remove (k := implicit o) (fun u => hab.unkept h rfl u) with
        cov_end := fun u o' a ob' hc hl hm' => h.prots.cov_end u o' a ob' hc hl (hmem o' ob' hm').2
        birth := fun hb u e ob' he' hm' => h.prots.birth hb u e ob' he' (hmem _ ob' hm').2 }
    shared := h.shared.relocate (fun _ hc => by cases hc) (by rintro κ i ⟨⟩)
    disposing := h.disposing.stage (by simp) }

/-! ## The delayed route -/

theorem Inv.ejecting_implicit (h : Inv cfg L s) {p : Pass n} {e : Entry} (hp : s.pass t = some p)
    (hj : Ejecting cfg p e) (hd : e.token.type = .dispose) : e.token = implicit e.token.obj :=
  h.fresh.eq_implicit e.token (by rw [h.home_ejecting hp hj]; exact Option.some_ne_none _) hd

/-- A disposal is not ejected while a guard that has seen the object alive is held. -/
theorem Inv.unconfirmed_ejecting (h : Inv cfg L s) {p : Pass n} {e : Entry}
    (hp : s.pass t = some p) (hj : Ejecting cfg p e) (hd : e.token.type = .dispose)
    {u : Fin n} {i : Nat} {g : Guard} (hg : s.guards u i = some g) (hc : g.confirmed = true) :
    g.obj ≠ e.token.obj := by
  intro ho
  have himp := h.ejecting_implicit hp hj hd
  obtain ⟨_, hheld, _⟩ := h.guards.confirmed u i g hg hc
  rw [ho, ← himp] at hheld
  by_cases hb : cfg.backend = .hp
  · simp only [Held, hb] at hheld
    have hsaw := hheld t p hp ⟨e, hj.mem, rfl⟩ (by rw [hj.scanned]; simp)
    have hkept := hj.keptOf_of_saw hb (h.passes hb t p hp) hsaw
    -- the pass would have kept the same unit before
    have hn := h.nodup_pass hp
    rw [← Pass.card_keptUnits hn] at hkept
    obtain ⟨k, hk⟩ := Finset.card_pos.mp (by omega :
      0 < (p.keptUnits e.token.obj e.token.type).card)
    obtain ⟨e', he', hek, hko, hkt⟩ := Pass.mem_keptUnits.mp hk
    have hlive : s.home k ≠ none := by
      rw [← hek, h.lists.home_eq (mem_entries_of_pass hp (List.mem_append.mpr (Or.inr he')))]
      exact Option.some_ne_none _
    have hki := h.fresh.eq_implicit k hlive (hkt.trans hd)
    rw [hko, ← himp] at hki
    exact hj.notMem_keptUnits hn _ _ (hki ▸ hk)
  · have := h.prot_ejecting hp hj u
    unfold Held at hheld
    split at hheld
    · exact hb ‹_›
    · rw [hheld] at this
      cases this

theorem Inv.startDispose (h : Inv cfg L s) {p : Pass n} {e : Entry} {r : Obj}
    (hp : s.pass t = some p) (hj : Ejecting cfg p e) (hd : e.token.type = .dispose)
    (he : s.startDispose t = some (r, s')) :
    Good cfg s' ∧ s.owned t r = none ∧ s'.loc t =
      { (s.loc t).take .todo with
        owned := Function.update (s.owned t) r (some .disposing) } := by
  have hmem := hj.todo
  obtain ⟨e₁, rest, ht⟩ : ∃ e₁ rest, p.todo = e₁ :: rest :=
    List.exists_cons_of_ne_nil (by intro hc; rw [hc] at hmem; cases hmem)
  rw [ht] at hmem
  cases hmem
  simp only [State.startDispose, hp, ht] at he
  cases he
  have himp := h.ejecting_implicit hp hj hd
  have hhome := h.home_ejecting hp hj
  generalize hob : e.token.obj = o at *
  have hin : s.home (implicit o) = some (.list t) := himp ▸ hhome
  have hnone : ∀ u, s.owned u o = none := by
    intro u
    cases hu : s.owned u o with
    | none => rfl
    | some st =>
      by_cases hl : st = .last
      · have := h.life.last u o (implicit o) (hl ▸ hu) rfl
        rw [hin] at this
        cases this
      · have := h.life.implicit_of_owned hu hl
        rw [hin] at this
        cases this
  have hx : some (Home.owned t) ≠ none := Option.some_ne_none _
  have hinn : s.home e.token ≠ none := by rw [hhome]; exact Option.some_ne_none _
  have hic : ∀ q, s.home e.token ≠ some (.cell q) := by rw [hhome]; intro q hc; cases hc
  have hpres : s.mem o ≠ none := hob ▸ h.counted.present e.token hinn
  have hlife := h.life.stage (t := t) (x := some (.owned t)) (y := some .disposing) (o := o)
    (by rw [hin]; simp) (by rw [hin]; simp) hx (by simp)
    (by
      intro u
      constructor
      · rintro ⟨⟩; exact ⟨rfl, _, rfl, by decide⟩
      · rintro ⟨rfl, _⟩; rfl)
    (fun u _ => hnone u) (by simp) (by simp) (by simp) hpres
    (fun ob _ hc => by have := hc .disposing rfl; cases this)
  rw [← himp] at hlife
  refine ⟨⟨L, ?_⟩, hnone t, by simp [State.loc, Local.take, hp, ht, update₂]⟩
  exact { h with
    places := h.places.elsewhere hic (by intro q hc; cases hc)
    lists := h.lists.pop hp ht (by intro u hc; cases hc)
    fresh := h.fresh.set hinn
    books := fun κ => (h.books κ).congr (live_relocate hinn hx κ)
    counted := h.counted.relocate hinn
    life := hlife
    guards := by
      have hg := (h.guards.shrinks (.pop hp ht)).setImplicit (o := o) (x := some (.owned t))
        (himp ▸ hic) hx
      rw [← himp] at hg
      refine hg.setOwned fun u i g hg hc v st hv => ?_
      simp only [update₂_apply] at hv
      split at hv
      · rename_i hvo
        exact absurd (hvo.2.trans hob.symm) (h.unconfirmed_ejecting hp hj hd hg hc)
      · exact (h.guards.confirmed u i g hg hc).2.2 v st hv
    debts := h.debts.shrinks (.pop hp ht)
    passes := fun hb => passes_pop (h.passes hb) hp
    prots := (h.prots.relocate hx rfl).shrinks (.pop hp ht) (entries_pop hp ht)
    shared := h.shared.relocate (fun hc => absurd hd hc) (by rintro κ i ⟨⟩)
    disposing := by
      intro u o' hu v
      simp only [update₂_apply] at hu
      split at hu
      · rename_i huo
        rw [huo.2, ← himp]
        exact h.prot_ejecting hp hj v
      · exact h.disposing u o' hu v }

/-- The implicit unit of an object ends before the last weak unit. -/
theorem Life.endImplicit (h : Life mem home owned) {st : Stage} (ho : owned t o = some st)
    (hl : st ≠ .last) :
    Life mem (Function.update home (implicit o) none) (update₂ owned t o none) := by
  have hna := h.not_alive ho
  have hother := h.owned_unique ho hl
  have himp : ∀ o', o' ≠ o → Function.update home (implicit o) none (implicit o') =
      home (implicit o') := fun o' ho' => Function.update_of_ne (fun he => ho' (implicit_inj.mp he)) _ _
  have hne : ∀ k', Function.update home (implicit o) none k' ≠ none → home k' ≠ none := by
    intro k' hk hc
    by_cases he : k' = implicit o
    · rw [he, Function.update_self] at hk
      exact hk rfl
    · rw [Function.update_of_ne he] at hk
      exact hk hc
  have hown : ∀ u o' st', update₂ owned t o none u o' = some st' → o' ≠ o ∧ owned u o' = some st' := by
    intro u o' st' hu
    rw [update₂_apply] at hu
    split at hu
    · cases hu
    · rename_i hc
      refine ⟨fun ho' => ?_, hu⟩
      subst ho'
      rw [hother u fun hut => hc ⟨hut, rfl⟩] at hu
      cases hu
  constructor
  · intro k' h1 h2
    have h3 := h.alive_of_strong k' (hne k' h1) h2
    rw [himp _ fun ho' => hna (ho' ▸ h3)]
    exact h3
  · intro o' h1
    by_cases ho' : o' = o
    · rw [ho', Function.update_self] at h1
      cases h1
    · rw [himp _ ho'] at h1
      obtain ⟨k', h2, h3, h4⟩ := h.strong_of_alive o' h1
      have hki : k' ≠ implicit o := by rintro rfl; cases h4
      exact ⟨k', by rw [Function.update_of_ne hki]; exact h2, h3, h4⟩
  · intro k' h1
    by_cases he : k' = implicit o
    · rw [he]; rfl
    · rw [Function.update_of_ne he] at h1
      exact h.only_implicit k' h1
  · intro u o'
    by_cases ho' : o' = o
    · subst ho'
      rw [Function.update_self]
      refine iff_of_false (by simp) ?_
      rintro ⟨st', hu, _⟩
      exact (hown u o' st' hu).1 rfl
    · rw [himp _ ho', h.owned_iff u o', update₂_apply]
      simp [ho']
  · exact fun u o' st' hu => h.present u o' st' (hown u o' st' hu).2
  · exact fun u o' ob hu => h.parked u o' ob (hown u o' _ hu).2
  · exact fun u o' k' hu hk => h.immediate u o' k' (hown u o' _ hu).2 (hne k' hk)
  · intro u o' k' hu hk
    by_contra hc
    exact hne k' hc (h.last u o' k' (hown u o' _ hu).2 hk)
  · exact fun u v o' hu hv => h.last_unique u v o' (hown u o' _ hu).2 (hown v o' _ hv).2
  · intro o' ob h1 h2 h3
    by_cases ho' : o' = o
    · subst ho'
      simp at h2
    · refine h.alive o' ob h1 (by rw [himp _ ho'] at h2; exact h2) fun u st' hu => h3 u st' ?_
      rw [update₂_apply, if_neg (fun hc => ho' hc.2)]
      exact hu

/-- `release_weak_refs(1)` in `dispose`. -/
theorem Inv.releaseImplicit (h : Inv cfg L s) {r : Bool} (ho : s.owned t o = some .disposing)
    (he : s.releaseImplicit cfg t o = some (r, s')) :
    Good cfg s' ∧ s'.loc t = { s.loc t with
      owned := Function.update (s.owned t) o (if r then some .last else none) } := by
  obtain ⟨ob, hm⟩ := Option.ne_none_iff_exists'.mp (h.life.present t o _ ho)
  simp only [State.releaseImplicit, hm] at he
  cases he
  have hi := h.life.implicit_of_owned ho (by decide)
  have hin : s.home (implicit o) ≠ none := by rw [hi]; exact Option.some_ne_none _
  have hidle : Idle L s (implicit o) := h.idle_implicit (h.life.not_alive ho) (h.disposing t o ho)
  have hκ : ofKind .weak (implicit o) := fun hc => by cases hc
  have hsame : ob.SameBut .weak (ob.release cfg .weak).1 := Object.release_sameBut
  have hz := (h.counted_consume hidle hin hκ hm).1
  have htk : Taken cfg s (implicit o) s.cell s.pass :=
    { places := h.places.elsewhere (by rw [hi]; intro q hc; cases hc) (by intro q hc; cases hc)
      lists := h.lists.elsewhere (by rw [hi]; intro q hc; cases hc) (by intro q hc; cases hc)
      shrinks := .refl
      entries := fun _ _ => id
      passes := h.passes }
  have hlife₀ : Life (Function.update s.mem o (some (ob.release cfg .weak).1)) s.home s.owned :=
    h.life.stamped hm hsame.alive fun u _ => hsame.other .strong (by decide)
  have hno : ∀ u i g, s.guards u i = some g → g.confirmed = true → g.obj ≠ o := by
    rintro u i g hg hc rfl
    have := (h.guards.confirmed u i g hg hc).2.2 t _ ho
    cases this
  have hfin : ∀ y : Option Stage, y ≠ some .disposing →
      Life (Function.update s.mem o (some (ob.release cfg .weak).1))
        (Function.update s.home (implicit o) none) (update₂ s.owned t o y) →
      Good cfg { s with
        mem := Function.update s.mem o (some (ob.release cfg .weak).1)
        home := Function.update s.home (implicit o) none
        owned := update₂ s.owned t o y } := by
    intro y hy hlife
    refine ⟨_, h.consumed hidle hin hκ hm htk hlife ?_ ?_⟩
    · intro u i g hg hc
      refine ⟨fun hcc => hno u i g hg hc (implicit_inj.mp hcc), fun v st hv => ?_⟩
      rw [update₂_apply, if_neg (fun hcc => hno u i g hg hc hcc.2)] at hv
      exact (h.guards.confirmed u i g hg hc).2.2 v st hv
    · intro u o' hu
      rw [update₂_apply] at hu
      split at hu
      · exact absurd hu hy
      · exact hu
  refine ⟨?_, by simp [State.loc, State.setObj, update₂]⟩
  by_cases hr : (ob.release cfg .weak).2 = true
  · simp only [hr, if_true]
    refine hfin (some .last) (by simp) (hlife₀.zeroWeak (k := implicit o) hin (by simp [implicit]) ?_ ?_ ?_)
    · intro k' hk' hko
      exact h.no_other_weak hidle hin hκ (hz.mp hr) hk' hko
        (Or.inl (h.life.no_strong (h.life.not_alive ho) hk' hko))
    · intro u st hu
      by_contra hut
      rw [show s.owned u (implicit o).obj = s.owned u o from rfl,
        h.life.owned_unique ho (by decide) u hut] at hu
      cases hu
    · exact fun hc => by cases hc
  · simp only [hr, Bool.false_eq_true, if_false]
    exact hfin none (by simp) (hlife₀.endImplicit ho (by decide))

end Cdrc.Smr
