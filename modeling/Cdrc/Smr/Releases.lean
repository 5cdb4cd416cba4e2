import Cdrc.Smr.Locations

/-! # Reference counting over a memory manager: units that are released

A unit can be released when no guard rests on it and no debt is for it (`Idle`). Its
counter then goes down by one, and if it was the last of its counter the thread that
released it owns the object. -/
namespace Cdrc.Smr
open Cdrc.StickyCounter Cdrc.CountedObject Cdrc.Lib.Threads Cdrc.Lib.Units

variable {n : Nat} {cfg : Config} {L : Kind → Book n} {s s' : State n}
  {mem : Obj → Option Object} {home : Token → Option (Home n)}
  {cell cell' : Place n → Option Token}
  {deferred deferred' : Fin n → List Entry} {pass pass' : Fin n → Option (Pass n)}
  {owned owned' : Fin n → Obj → Option Stage} {shared : Token → Bool}
  {reading : Fin n → Option (Kind × Nat)} {prot : Fin n → Token → Bool}
  {cov : Fin n → Obj → Bool} {localEpoch : Fin n → Option Nat} {endTS : Fin n → Nat}
  {guards : Fin n → Nat → Option Guard} {debt : Fin n → Option Debt}
  {k : Token} {x : Option (Home n)} {o : Obj} {ob ob' : Object} {κ : Kind} {t : Fin n}

/-! ## Passes that know the same -/

/-- The passes have scanned the same and have no new entries. -/
def Shrinks (pass pass' : Fin n → Option (Pass n)) : Prop :=
  ∀ r p', pass' r = some p' → ∃ p, pass r = some p ∧ (∀ e ∈ p'.entries, e ∈ p.entries) ∧
    p'.toScan = p.toScan ∧ p'.saw = p.saw ∧ p'.minEpoch = p.minEpoch ∧
    p'.intervals = p.intervals ∧ p'.start = p.start

theorem Shrinks.refl : Shrinks pass pass := fun _ p h =>
  ⟨p, h, fun _ => id, rfl, rfl, rfl, rfl, rfl⟩

theorem Held.shrinks {i : Nat} (h : Held cfg pass prot t i k) (hs : Shrinks pass pass') :
    Held cfg pass' prot t i k := by
  unfold Held at h ⊢
  cases hb : cfg.backend with
  | hp =>
    simp only [hb] at h
    rintro r p' hp' ⟨e, he, hk⟩ hn
    obtain ⟨p, h1, h2, h3, h4, _⟩ := hs r p' hp'
    rw [h4]
    exact h r p h1 ⟨e, h2 e he, hk⟩ (h3 ▸ hn)
  | ebr => simpa only [hb] using h
  | ibr => simpa only [hb] using h

theorem Guards.shrinks (h : Guards cfg L mem home shared reading pass prot owned guards)
    (hs : Shrinks pass pass') : Guards cfg L mem home shared reading pass' prot owned guards := by
  refine { h with wit := ?_, confirmed := ?_ }
  · intro t i g hg
    rcases h.wit t i g hg with h1 | ⟨h1, h2⟩
    · exact Or.inl h1
    · exact Or.inr ⟨h1, h2.shrinks hs⟩
  · intro t i g hg hc
    obtain ⟨h1, h2, h3⟩ := h.confirmed t i g hg hc
    exact ⟨h1, h2.shrinks hs, h3⟩

theorem Debts.shrinks (h : Debts cfg L shared pass prot guards debt) (hs : Shrinks pass pass') :
    Debts cfg L shared pass' prot guards debt := by
  refine ⟨h.guard, fun t d hd => ?_⟩
  obtain ⟨h1, h2, h3⟩ := h.label t d hd
  exact ⟨h1, h2, h3.shrinks hs⟩

theorem Prots.shrinks (h : Prots cfg mem home prot cov localEpoch endTS deferred pass guards)
    (hs : Shrinks pass pass')
    (hd : ∀ u, ∀ e ∈ entries deferred' pass' u, e ∈ entries deferred pass u) :
    Prots cfg mem home prot cov localEpoch endTS deferred' pass' guards := by
  refine { h with entry := ?_, scanned := ?_, start := ?_, birth := ?_ }
  · exact fun t u e a he => h.entry t u e a (hd u e he)
  · intro t u p' e hp' he hpr hn
    obtain ⟨p, h1, h2, h3, _, h5, h6, _⟩ := hs u p' hp'
    have := h.scanned t u p e h1 (h2 e he) hpr (h3 ▸ hn)
    simpa only [Noted, h5, h6] using this
  · intro t u p' e a hp' hst he hpr
    obtain ⟨p, h1, h2, _, _, _, _, h7⟩ := hs u p' hp'
    exact h.start t u p e a h1 (h7 ▸ hst) (h2 e he) hpr
  · exact fun hb u e ob he => h.birth hb u e ob (hd u e he)

/-! ## A unit without guards and debts -/

/-- No guard rests on the unit and no debt is for it. -/
structure Idle (L : Kind → Book n) (s : State n) (k : Token) : Prop where
  wit : ∀ κ, (L κ).Unwitnessed (guardOf s.guards κ) k
  label : ∀ κ d g, debtOf s.debt κ d = some g → (L κ).label d ≠ k
  prot : ∀ t, s.prot t k = false

theorem Guards.remove (h : Guards cfg L mem home shared reading pass prot owned guards)
    (hw : ∀ κ, (L κ).Unwitnessed (guardOf guards κ) k)
    (hc : ∀ t i g, guards t i = some g → g.confirmed = true → implicit g.obj ≠ k) :
    Guards cfg L mem (Function.update home k none) shared reading pass prot owned guards := by
  refine { h with wit := ?_, confirmed := ?_ }
  · intro t i g hg
    rcases h.wit t i g hg with ⟨h0, h1⟩ | h1
    · refine Or.inl ⟨h0, h1.relocate ?_⟩
      refine hw g.kind (t, i) g.obj ?_
      cases hk : g.kind <;> simp [guardOf, hg, hk]
    · exact Or.inr h1
  · intro t i g hg hcf
    obtain ⟨h1, h2⟩ := h.confirmed t i g hg hcf
    exact ⟨by rw [Function.update_of_ne (hc t i g hg hcf)]; exact h1, h2⟩

theorem Prots.remove (h : Prots cfg mem home prot cov localEpoch endTS deferred pass guards)
    (hk : ∀ t, prot t k = false) :
    Prots cfg mem (Function.update home k none) prot cov localEpoch endTS deferred pass guards := by
  refine { h with live := ?_, of_inLoc := ?_ }
  · intro t k' hp
    obtain ⟨h1, h2⟩ := h.live t k' hp
    have hne : k' ≠ k := by
      rintro rfl
      rw [hk t] at hp
      cases hp
    exact ⟨by rw [Function.update_of_ne hne]; exact h1, h2⟩
  · intro t k' hc hi
    have hne : k' ≠ k := by
      rintro rfl
      rw [Function.update_self] at hi
      cases hi
    rw [Function.update_of_ne hne] at hi
    exact h.of_inLoc t k' hc hi

theorem Idle.paid (h : Inv cfg L s) (hi : Idle L s k) (hk : s.home k ≠ none) (hκ : ofKind κ k) :
    k ∈ (L κ).paid := ((h.books κ).mem_paid k).mpr ⟨⟨hk, hκ⟩, hi.label κ⟩

theorem ofKind_unique {κ' : Kind} (h : ofKind κ k) (h' : ofKind κ' k) : κ' = κ := by
  cases κ <;> cases κ' <;> simp_all [ofKind]

/-- The books without the unit. -/
theorem Inv.books_consume (h : Inv cfg L s) (hi : Idle L s k) (hk : s.home k ≠ none)
    (hκ : ofKind κ k) :
    ∀ κ', (Function.update L κ ((L κ).consume k) κ').Valid
      (Live (Function.update s.home k none) κ') Token.obj (guardOf s.guards κ')
      (debtOf s.debt κ') := by
  intro κ'
  by_cases he : κ' = κ
  · subst he
    rw [Function.update_self]
    exact (h.books κ').consume (hi.paid h hk hκ) (hi.wit κ') live_remove
  · rw [Function.update_of_ne he]
    exact (h.books κ').congr (live_other fun hc => he (ofKind_unique hκ hc))

theorem Inv.count_consume (h : Inv cfg L s) (hi : Idle L s k) (hk : s.home k ≠ none)
    (hκ : ofKind κ k) (o' : Obj) :
    ((L κ).consume k).count Token.obj o' + (if k.obj = o' then 1 else 0) =
      (L κ).count Token.obj o' := Ledger.count_erase Token.obj (hi.paid h hk hκ) o'

/-! ## The last unit of a counter -/

theorem update₂_apply {α β γ : Type} [DecidableEq α] [DecidableEq β] (f : α → β → γ) (a a' : α)
    (b b' : β) (c : γ) : update₂ f a b c a' b' = if a' = a ∧ b' = b then c else f a' b' := by
  simp only [update₂, Function.update_apply]
  grind

theorem Disposing.stage {y : Option Stage} (h : Disposing owned prot) (hy : y ≠ some .disposing) :
    Disposing (update₂ owned t o y) prot := by
  refine h.setOwned fun u o' hu => ?_
  rw [update₂_apply] at hu
  split at hu
  · exact absurd hu hy
  · exact hu

theorem implicit_inj {o o' : Obj} : implicit o = implicit o' ↔ o = o' := by
  simp [implicit]

/-- While an object has strong units no thread disposes of it. -/
theorem Life.not_owned (h : Life mem home owned) (ha : home (implicit o) = some .alive)
    (u : Fin n) : owned u o = none := by
  cases hu : owned u o with
  | none => rfl
  | some st =>
    by_cases hl : st = .last
    · subst hl
      have := h.last u o (implicit o) hu rfl
      rw [ha] at this
      cases this
    · have := (h.owned_iff u o).mpr ⟨st, hu, hl⟩
      rw [ha] at this
      cases this

/-- The last strong unit ends, and `t` owns the object. -/
theorem Life.zeroStrong (h : Life mem home owned) (hk : home k ≠ none)
    (hs : k.type = .decrementStrongCount) (hm : mem k.obj ≠ none)
    (hno : ∀ k', home k' ≠ none → k'.obj = k.obj → k'.type = .decrementStrongCount → k' = k)
    {st : Stage} (hst : st.early = true)
    (hp : st = .parked → ∀ ob, mem k.obj = some ob → ob.ref.toNat = 0) :
    Life mem (Function.update (Function.update home k none) (implicit k.obj) (some (.owned t)))
      (update₂ owned t k.obj (some st)) := by
  have ha := h.alive_of_strong k hk hs
  have hnone := h.not_owned ha
  have hki : k ≠ implicit k.obj := by
    intro he
    rw [he] at hs
    cases hs
  have hst1 : st ≠ .last ∧ st ≠ .immediate := by
    constructor <;> (rintro rfl; cases hst)
  -- the homes of the other tokens, and of the other implicit units, are as before
  have hne : ∀ k', Function.update (Function.update home k none) (implicit k.obj)
      (some (.owned t)) k' ≠ none → k' ≠ k ∧ home k' ≠ none := by
    intro k' h1
    simp only [Function.update_apply] at h1
    grind
  have himp : ∀ o', o' ≠ k.obj → Function.update (Function.update home k none) (implicit k.obj)
      (some (.owned t)) (implicit o') = home (implicit o') := by
    intro o' ho
    have h1 : implicit o' ≠ implicit k.obj := fun he => ho (implicit_inj.mp he)
    have h2 : implicit o' ≠ k := implicit_ne (by rw [hs]; decide) o'
    rw [Function.update_of_ne h1, Function.update_of_ne h2]
  have hown : ∀ u o' st', update₂ owned t k.obj (some st) u o' = some st' →
      (u = t ∧ o' = k.obj ∧ st' = st) ∨ (o' ≠ k.obj ∧ owned u o' = some st') := by
    intro u o' st' h1
    rw [update₂_apply] at h1
    by_cases ho : o' = k.obj
    · subst ho
      rw [hnone u] at h1
      grind
    · grind
  constructor
  · intro k' h1 h2
    obtain ⟨h3, h4⟩ := hne k' h1
    have ho : k'.obj ≠ k.obj := fun ho => h3 (hno k' h4 ho h2)
    rw [himp _ ho]
    exact h.alive_of_strong k' h4 h2
  · intro o' h1
    by_cases ho : o' = k.obj
    · rw [ho, Function.update_self] at h1
      cases h1
    · rw [himp _ ho] at h1
      obtain ⟨k', h2, h3, h4⟩ := h.strong_of_alive o' h1
      have h5 : k' ≠ k := fun he => ho (h3 ▸ he ▸ rfl)
      have h6 : k' ≠ implicit k.obj := by rintro rfl; cases h4
      exact ⟨k', by rw [Function.update_of_ne h6, Function.update_of_ne h5]; exact h2, h3, h4⟩
  · intro k' h1
    by_cases he : k' = implicit k.obj
    · rw [he]; rfl
    · rw [Function.update_of_ne he] at h1
      have := h.only_implicit k'
      simp only [Function.update_apply] at h1
      grind
  · intro u o'
    by_cases ho : o' = k.obj
    · subst ho
      rw [Function.update_self, update₂_apply, hnone u]
      grind
    · rw [himp _ ho, h.owned_iff u o', update₂_apply]
      simp [ho]
  · intro u o' st' h1
    rcases hown u o' st' h1 with ⟨_, rfl, _⟩ | ⟨_, h2⟩
    · exact hm
    · exact h.present u o' st' h2
  · intro u o' ob h1 h2
    rcases hown u o' _ h1 with ⟨_, rfl, h3⟩ | ⟨_, h3⟩
    · exact hp h3.symm ob h2
    · exact h.parked u o' ob h3 h2
  · intro u o' k' h1 h2 h3
    rcases hown u o' _ h1 with ⟨_, _, h4⟩ | ⟨_, h4⟩
    · exact absurd h4.symm hst1.2
    · exact h.immediate u o' k' h4 (hne k' h2).2 h3
  · intro u o' k' h1 h2
    rcases hown u o' _ h1 with ⟨_, _, h4⟩ | ⟨ho, h4⟩
    · exact absurd h4.symm hst1.1
    · by_contra hc
      exact (hne k' hc).2 (h.last u o' k' h4 h2)
  · intro u v o' h1 h2
    rcases hown u o' _ h1 with ⟨_, _, h4⟩ | ⟨ho, h4⟩
    · exact absurd h4.symm hst1.1
    · rcases hown v o' _ h2 with ⟨_, rfl, _⟩ | ⟨_, h5⟩
      · exact absurd rfl ho
      · exact h.last_unique u v o' h4 h5
  · intro o' ob h1 h2 h3
    by_cases ho : o' = k.obj
    · subst ho
      refine h.alive k.obj ob h1 (by rw [ha]; exact Option.some_ne_none _) ?_
      intro u st' hu
      rw [hnone u] at hu
      cases hu
    · refine h.alive o' ob h1 (by rw [himp _ ho] at h2; exact h2) ?_
      intro u st' hu
      exact h3 u st' (by rw [update₂_apply]; simp [ho, hu])

/-- The last unit of any kind ends, and `t` deletes the object. -/
theorem Life.zeroWeak (h : Life mem home owned) (hk : home k ≠ none) (hm : mem k.obj ≠ none)
    (hno : ∀ k', home k' ≠ none → k'.obj = k.obj → k' = k)
    (ho : ∀ u st, owned u k.obj = some st → u = t) (hs : k.type ≠ .decrementStrongCount) :
    Life mem (Function.update home k none) (update₂ owned t k.obj (some .last)) := by
  have hne : ∀ k', Function.update home k none k' ≠ none → k'.obj ≠ k.obj ∧ home k' ≠ none := by
    intro k' h1
    by_cases he : k' = k
    · rw [he, Function.update_self] at h1
      exact absurd rfl h1
    · rw [Function.update_of_ne he] at h1
      exact ⟨fun hc => he (hno k' h1 hc), h1⟩
  have hnone : Function.update home k none (implicit k.obj) = none := by
    by_contra hc
    exact (hne _ hc).1 rfl
  have himp : ∀ o', o' ≠ k.obj → Function.update home k none (implicit o') = home (implicit o') := by
    intro o' ho'
    refine Function.update_of_ne ?_ _ _
    intro he
    exact ho' (by rw [← he]; rfl)
  have hlast : ∀ u, owned u k.obj ≠ some .last := fun u hu => hk (h.last u k.obj k hu rfl)
  have hown : ∀ u o' st', update₂ owned t k.obj (some .last) u o' = some st' →
      (u = t ∧ o' = k.obj ∧ st' = .last) ∨ (o' ≠ k.obj ∧ owned u o' = some st') := by
    intro u o' st' h1
    rw [update₂_apply] at h1
    by_cases he : o' = k.obj
    · subst he
      split at h1
      · rename_i hu
        cases h1
        exact Or.inl ⟨hu.1, rfl, rfl⟩
      · rename_i hu
        exact absurd ⟨ho u st' h1, rfl⟩ hu
    · rw [if_neg (fun hc => he hc.2)] at h1
      exact Or.inr ⟨he, h1⟩
  constructor
  · intro k' h1 h2
    obtain ⟨h3, h4⟩ := hne k' h1
    rw [himp _ h3]
    exact h.alive_of_strong k' h4 h2
  · intro o' h1
    by_cases he : o' = k.obj
    · rw [he, hnone] at h1
      cases h1
    · rw [himp _ he] at h1
      obtain ⟨k', h2, h3, h4⟩ := h.strong_of_alive o' h1
      have h5 : k' ≠ k := by rintro rfl; exact hs h4
      exact ⟨k', by rw [Function.update_of_ne h5]; exact h2, h3, h4⟩
  · intro k' h1
    refine h.only_implicit k' ?_
    by_cases he : k' = k
    · subst he
      simp at h1
    · rwa [Function.update_of_ne he] at h1
  · intro u o'
    by_cases he : o' = k.obj
    · subst he
      rw [hnone]
      constructor
      · intro hc; cases hc
      · rintro ⟨st, h1, h2⟩
        rcases hown u k.obj st h1 with ⟨_, _, h3⟩ | ⟨h3, _⟩
        · exact absurd h3 h2
        · exact absurd rfl h3
    · rw [himp _ he, h.owned_iff u o', update₂_apply]
      simp [he]
  · intro u o' st' h1
    rcases hown u o' st' h1 with ⟨_, rfl, _⟩ | ⟨_, h2⟩
    · exact hm
    · exact h.present u o' st' h2
  · intro u o' ob h1 h2
    rcases hown u o' _ h1 with ⟨_, _, h3⟩ | ⟨_, h3⟩
    · cases h3
    · exact h.parked u o' ob h3 h2
  · intro u o' k' h1 h2 h3
    rcases hown u o' _ h1 with ⟨_, _, h4⟩ | ⟨_, h4⟩
    · cases h4
    · exact h.immediate u o' k' h4 (hne k' h2).2 h3
  · intro u o' k' h1 h2
    rcases hown u o' _ h1 with ⟨_, rfl, _⟩ | ⟨_, h4⟩
    · by_contra hc
      exact (hne k' hc).1 h2
    · by_contra hc
      exact (hne k' hc).2 (h.last u o' k' h4 h2)
  · intro u v o' h1 h2
    rcases hown u o' _ h1 with ⟨hu, rfl, _⟩ | ⟨he, h4⟩
    · rcases hown v k.obj _ h2 with ⟨hv, _, _⟩ | ⟨he, _⟩
      · exact hu.trans hv.symm
      · exact absurd rfl he
    · rcases hown v o' _ h2 with ⟨_, rfl, _⟩ | ⟨_, h5⟩
      · exact absurd rfl he
      · exact h.last_unique u v o' h4 h5
  · intro o' ob h1 h2 h3
    by_cases he : o' = k.obj
    · subst he
      exact absurd hnone h2
    · refine h.alive o' ob h1 (by rw [himp _ he] at h2; exact h2) ?_
      intro u st' hu
      exact h3 u st' (by rw [update₂_apply]; simp [he, hu])

/-! ## One unit less -/

/-- Where the unit `k` was, the cells and lists are now without it. -/
structure Taken (cfg : Config) (s : State n) (k : Token) (cell' : Place n → Option Token)
    (pass' : Fin n → Option (Pass n)) : Prop where
  places : Places cell' (Function.update s.home k none)
  lists : Lists (Function.update s.home k none) s.deferred pass' s.inProgress
  shrinks : Shrinks s.pass pass'
  entries : ∀ u, ∀ e ∈ entries s.deferred pass' u, e ∈ entries s.deferred s.pass u
  passes : cfg.backend = .hp → ∀ t p, pass' t = some p → PassOk p

theorem Guards.setOwned (h : Guards cfg L mem home shared reading pass prot owned guards)
    (ho : ∀ t i g, guards t i = some g → g.confirmed = true →
      ∀ u st, owned' u g.obj = some st → st.early = true) :
    Guards cfg L mem home shared reading pass prot owned' guards :=
  { h with
    confirmed := fun t i g hg hc =>
      ⟨(h.confirmed t i g hg hc).1, (h.confirmed t i g hg hc).2.1, ho t i g hg hc⟩ }

/-- The implicit unit of an object goes on to a thread. -/
theorem Guards.setImplicit (h : Guards cfg L mem home shared reading pass prot owned guards)
    (hk : ∀ q, home (implicit o) ≠ some (.cell q)) (hx : x ≠ none) :
    Guards cfg L mem (Function.update home (implicit o) x) shared reading pass prot owned guards := by
  refine { h with wit := ?_, confirmed := ?_ }
  · intro t i g hg
    rcases h.wit t i g hg with ⟨h0, h1⟩ | h1
    · refine Or.inl ⟨h0, h1.relocate ?_⟩
      intro he
      obtain ⟨κ, j, h2, _⟩ := h1
      exact hk _ (he ▸ h2)
    · exact Or.inr h1
  · intro t i g hg hc
    obtain ⟨h1, h2⟩ := h.confirmed t i g hg hc
    refine ⟨?_, h2⟩
    simp only [Function.update_apply]
    split
    · exact hx
    · exact h1

/-- The counters after a unit was released. -/
theorem Inv.counted_consume (h : Inv cfg L s) (hi : Idle L s k) (hk : s.home k ≠ none)
    (hκ : ofKind κ k) (hm : s.mem k.obj = some ob) :
    ((ob.release cfg κ).2 = true ↔ ((L κ).consume k).count Token.obj k.obj = 0) ∧
      Counted cfg (Function.update L κ ((L κ).consume k))
        (Function.update s.mem k.obj (some (ob.release cfg κ).1)) (Function.update s.home k none) := by
  have hpos := h.count_pos hk hκ
  have hval := h.value hm hpos
  obtain ⟨h1, h2⟩ := Object.release_pos cfg hval hpos (h.le_max k.obj)
  have hc := h.count_consume hi hk hκ
  have hck := hc k.obj
  rw [if_pos rfl] at hck
  refine ⟨by rw [h1]; omega, ?_⟩
  refine (h.counted.set hm Object.release_sameBut ?_ ?_ ?_).locate (by simp)
  · intro o' hne
    have := hc o'
    rw [if_neg (Ne.symm hne)] at this
    exact this
  · intro _
    rw [h2]
    omega
  · intro hs
    have := h.le_max k.obj hs
    omega

/-- A unit was released, and the object is as `owned'` says. -/
theorem Inv.consumed (h : Inv cfg L s) (hi : Idle L s k) (hk : s.home k ≠ none)
    (hκ : ofKind κ k) (hm : s.mem k.obj = some ob) (ht : Taken cfg s k cell' pass')
    (hlife : Life (Function.update s.mem k.obj (some (ob.release cfg κ).1))
      (Function.update s.home k none) owned')
    (hcf : ∀ t i g, s.guards t i = some g → g.confirmed = true → implicit g.obj ≠ k ∧
      ∀ u st, owned' u g.obj = some st → st.early = true)
    (hdis : ∀ u o, owned' u o = some .disposing → s.owned u o = some .disposing) :
    Inv cfg (Function.update L κ ((L κ).consume k))
      { s with
        mem := Function.update s.mem k.obj (some (ob.release cfg κ).1)
        cell := cell'
        pass := pass'
        home := Function.update s.home k none
        owned := owned' } := by
  have hsame : ob.SameBut κ (ob.release cfg κ).1 := Object.release_sameBut
  have hst := Stamped.update hm hsame.birthTS
  exact { h with
    places := ht.places
    lists := ht.lists
    fresh := h.fresh.set hk
    books := h.books_consume hi hk hκ
    counted := (h.counted_consume hi hk hκ hm).2
    life := hlife
    guards := ((((h.guards.stamped hst).remove hi.wit fun t i g hg hc =>
      (hcf t i g hg hc).1).shrinks ht.shrinks).setOwned fun t i g hg hc =>
        (hcf t i g hg hc).2).book (update_wit rfl)
    debts := (h.debts.shrinks ht.shrinks).book (update_label rfl)
    passes := ht.passes
    epochs := h.epochs.stamped hst
    prots := ((h.prots.stamped hst).remove hi.prot).shrinks ht.shrinks ht.entries
    shared := h.shared.relocate (fun _ hc => by cases hc) (by rintro κ i ⟨⟩)
    disposing := h.disposing.setOwned hdis }

/-- A unit of a kind with a unit left. -/
theorem Inv.exists_other (h : Inv cfg L s) (hc : ((L κ).consume k).count Token.obj k.obj ≠ 0) :
    ∃ k', s.home k' ≠ none ∧ k' ≠ k ∧ k'.obj = k.obj ∧ ofKind κ k' := by
  obtain ⟨k', hk'⟩ := Finset.card_pos.mp (Nat.pos_of_ne_zero hc)
  obtain ⟨h1, h2⟩ := Finset.mem_filter.mp hk'
  obtain ⟨h3, h4⟩ := Finset.mem_erase.mp h1
  obtain ⟨h5, h6⟩ := (h.books κ).live_of_paid h4
  exact ⟨k', h5, h3, h2, h6⟩

/-- No unit of a kind is left. -/
theorem Inv.no_other (h : Inv cfg L s) (hi : Idle L s k) (hk : s.home k ≠ none)
    (hκ : ofKind κ k) (hc : ((L κ).consume k).count Token.obj k.obj = 0) {k' : Token}
    (hk' : s.home k' ≠ none) (ho : k'.obj = k.obj) (hκ' : ofKind κ k') : k' = k := by
  by_contra hne
  have hv := h.books_consume hi hk hκ κ
  rw [Function.update_self] at hv
  exact hv.not_live_of_count hc ho (live_remove k' |>.mpr ⟨⟨hk', hκ'⟩, hne⟩)

/-- No unit of any kind is left. -/
theorem Inv.no_other_weak (h : Inv cfg L s) (hi : Idle L s k) (hk : s.home k ≠ none)
    (hκ : ofKind .weak k) (hc : ((L .weak).consume k).count Token.obj k.obj = 0) {k' : Token}
    (hk' : s.home k' ≠ none) (ho : k'.obj = k.obj) (hs : k'.type ≠ .decrementStrongCount ∨
      k.type ≠ .dispose) : k' = k := by
  by_cases hs' : k'.type = .decrementStrongCount
  · have ha := h.life.alive_of_strong k' hk' hs'
    have hi' : implicit k'.obj = k := h.no_other hi hk hκ hc
      (by rw [ha]; exact Option.some_ne_none _) ho (fun hc => by cases hc)
    rcases hs with hs | hs
    · exact absurd hs' hs
    · exact absurd (by rw [← hi']; rfl) hs
  · exact h.no_other hi hk hκ hc hk' ho hs'

/-- The last strong unit was released. -/
theorem Inv.consumedLast (h : Inv cfg L s) (hi : Idle L s k) (hk : s.home k ≠ none)
    (hs : k.type = .decrementStrongCount) (hm : s.mem k.obj = some ob)
    (ht : Taken cfg s k cell' pass') (hz : (ob.release cfg .strong).2 = true) :
    Inv cfg (Function.update L .strong ((L .strong).consume k))
      (({ s with
        mem := Function.update s.mem k.obj (some (ob.release cfg .strong).1)
        cell := cell'
        pass := pass'
        home := Function.update s.home k none } : State n).zeroed cfg t .strong k.obj) := by
  have hsame : ob.SameBut .strong (ob.release cfg .strong).1 := Object.release_sameBut
  have hst := Stamped.update hm hsame.birthTS
  obtain ⟨hz', hcounted⟩ := h.counted_consume (κ := .strong) hi hk hs hm
  have hc := hz'.mp hz
  have ha := h.life.alive_of_strong k hk hs
  have hd : k.type ≠ .dispose := by rw [hs]; decide
  have hia : Function.update s.home k none (implicit k.obj) = some .alive := by
    rw [update_home_implicit hd, ha]
  have hx : some (Home.owned t) ≠ none := Option.some_ne_none _
  have hil : ∀ u, Function.update s.home k none (implicit k.obj) ≠ some (.list u) := by
    rw [hia]; intro u hc; cases hc
  have hic : ∀ q, Function.update s.home k none (implicit k.obj) ≠ some (.cell q) := by
    rw [hia]; intro u hc; cases hc
  have hin : Function.update s.home k none (implicit k.obj) ≠ none := by
    rw [hia]; exact Option.some_ne_none _
  have hearly : (if cfg.atomicCounters then Stage.zero else Stage.parked).early = true := by
    split <;> rfl
  have hcf : ∀ t' i g, s.guards t' i = some g → g.confirmed = true → ∀ u st,
      update₂ s.owned t k.obj (some (if cfg.atomicCounters then .zero else .parked)) u g.obj =
        some st → st.early = true := by
    intro t' i g hg hc u st hu
    rw [update₂_apply] at hu
    split at hu
    · cases hu; exact hearly
    · exact (h.guards.confirmed t' i g hg hc).2.2 u st hu
  simp only [State.zeroed]
  exact { h with
    places := ht.places.elsewhere hic (by intro q hc; cases hc)
    lists := ht.lists.elsewhere hil (by intro u hc; cases hc)
    fresh := (h.fresh.set hk).setImplicit
    books := fun κ => (h.books_consume (κ := .strong) hi hk hs κ).congr (live_relocate hin hx κ)
    counted := hcounted.relocate hin
    life := by
      refine (h.life.stamped hm hsame.alive ?_).zeroStrong hk hs (by simp) ?_ hearly ?_
      · intro u hu
        rw [h.life.not_owned ha u] at hu
        cases hu
      · exact fun k' h1 h2 h3 => h.no_other (κ := .strong) hi hk hs hc h1 h2 h3
      · intro hp ob' hob'
        rw [Function.update_self] at hob'
        cases hob'
        obtain ⟨h1, h2⟩ := Object.release_pos cfg (h.value hm (h.count_pos (κ := .strong) hk hs))
          (h.count_pos (κ := .strong) hk hs) (h.le_max k.obj)
        simp only [Object.value] at h2
        rw [h2, h1.mp hz]
    guards := (((((h.guards.stamped hst).remove hi.wit fun _ _ g _ _ =>
      implicit_ne hd g.obj).shrinks ht.shrinks).setImplicit hic hx).setOwned hcf).book
        (update_wit rfl)
    debts := (h.debts.shrinks ht.shrinks).book (update_label rfl)
    passes := ht.passes
    epochs := h.epochs.stamped hst
    prots := (((h.prots.stamped hst).remove hi.prot).relocate hx rfl).shrinks ht.shrinks ht.entries
    shared := (h.shared.relocate (fun _ hc => by cases hc) (by rintro κ i ⟨⟩)).relocate
      (fun _ hc => by cases hc) (by rintro κ i ⟨⟩)
    disposing := h.disposing.stage (by split <;> simp) }

/-- The stage at which releasing the last unit of a counter leaves its object. -/
def zeroStage (cfg : Config) : Kind → Stage
  | .strong => if cfg.atomicCounters then .zero else .parked
  | .weak => .last

/-- A unit was released. -/
theorem Inv.released (h : Inv cfg L s) (hi : Idle L s k) (hk : s.home k ≠ none)
    (hkt : k.type = κ.type) (hm : s.mem k.obj = some ob) (ht : Taken cfg s k cell' pass')
    {s₁ : State n} (hs₁ : s₁ = { s with
      mem := Function.update s.mem k.obj (some (ob.release cfg κ).1)
      cell := cell'
      pass := pass'
      home := Function.update s.home k none }) :
    ((ob.release cfg κ).2 = false → Good cfg s₁) ∧
      ((ob.release cfg κ).2 = true → Good cfg (s₁.zeroed cfg t κ k.obj) ∧
        s.owned t k.obj = none) := by
  subst hs₁
  have hκ := ofKind_of_type hkt
  have hd : k.type ≠ .dispose := by rw [hkt]; exact κ.type_ne_dispose
  have hsame : ob.SameBut κ (ob.release cfg κ).1 := Object.release_sameBut
  have hz := (h.counted_consume hi hk hκ hm).1
  constructor
  · intro hr
    have hc : ((L κ).consume k).count Token.obj k.obj ≠ 0 := fun hc => by
      rw [hz.mpr hc] at hr
      cases hr
    have hlife : Life (Function.update s.mem k.obj (some (ob.release cfg κ).1))
        (Function.update s.home k none) s.owned := by
      refine (h.life.stamped hm hsame.alive ?_).remove hd ?_
      · intro u hu
        have hne : Kind.strong ≠ κ := by
          rintro rfl
          rw [h.life.not_owned (h.life.alive_of_strong k hk hκ) u] at hu
          cases hu
        exact hsame.other .strong hne
      · intro hs
        have hκs : κ = .strong := ofKind_unique (k := k) (κ := .strong) hs hκ
        subst hκs
        exact h.exists_other hc
    exact ⟨_, h.consumed hi hk hκ hm ht hlife (fun u i g hg hcf =>
      ⟨implicit_ne hd g.obj, (h.guards.confirmed u i g hg hcf).2.2⟩) fun _ _ => id⟩
  · intro hr
    have hc := hz.mp hr
    cases κ with
    | strong =>
      exact ⟨⟨_, h.consumedLast hi hk hκ hm ht hr⟩,
        h.life.not_owned (h.life.alive_of_strong k hk hκ) t⟩
    | weak =>
      have hno : ∀ k', s.home k' ≠ none → k'.obj = k.obj → k' = k := fun k' h1 h2 =>
        h.no_other_weak hi hk hκ hc h1 h2 (Or.inr hd)
      have hown : ∀ u, s.owned u k.obj = none := by
        intro u
        cases hu : s.owned u k.obj with
        | none => rfl
        | some st =>
          by_cases hl : st = .last
          · exact absurd (h.life.last u k.obj k (hl ▸ hu) rfl) hk
          · have himp := (h.life.owned_iff u k.obj).mpr ⟨st, hu, hl⟩
            exact absurd (hno (implicit k.obj) (by rw [himp]; exact Option.some_ne_none _) rfl)
              (implicit_ne hd k.obj)
      have hlife : Life (Function.update s.mem k.obj (some (ob.release cfg .weak).1))
          (Function.update s.home k none) (update₂ s.owned t k.obj (some .last)) := by
        refine (h.life.stamped hm hsame.alive ?_).zeroWeak hk (by simp) hno ?_ hκ
        · intro u hu
          rw [hown u] at hu
          cases hu
        · intro u st hu
          rw [hown u] at hu
          cases hu
      refine ⟨⟨_, h.consumed hi hk hκ hm ht hlife ?_ ?_⟩, hown t⟩
      · intro u i g hg hcf
        refine ⟨implicit_ne hd g.obj, fun v st hv => ?_⟩
        rw [update₂_apply] at hv
        split at hv
        · rename_i hc'
          obtain ⟨h1, _⟩ := h.guards.confirmed u i g hg hcf
          exact absurd (hno (implicit g.obj) h1 hc'.2) (implicit_ne hd g.obj)
        · exact (h.guards.confirmed u i g hg hcf).2.2 v st hv
      · intro u o' hu
        rw [update₂_apply] at hu
        split at hu
        · cases hu
        · exact hu

end Cdrc.Smr
