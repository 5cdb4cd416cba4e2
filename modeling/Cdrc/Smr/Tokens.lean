import Cdrc.Smr.Invariant

/-! # Reference counting over a memory manager: tokens that change place

What moving a unit, adding one or ending one does to each part of the invariant. -/
namespace Cdrc.Smr
open Cdrc.StickyCounter Cdrc.CountedObject Cdrc.Lib.Threads Cdrc.Lib.Units

variable {n : Nat} {cfg : Config} {L : Kind → Book n} {mem : Obj → Option Object}
  {cell : Place n → Option Token} {home : Token → Option (Home n)}
  {deferred : Fin n → List Entry} {pass : Fin n → Option (Pass n)} {inProgress : Fin n → Bool}
  {owned : Fin n → Obj → Option Stage} {shared shared' : Token → Bool}
  {reading : Fin n → Option (Kind × Nat)} {prot prot' : Fin n → Token → Bool}
  {cov : Fin n → Obj → Bool} {localEpoch : Fin n → Option Nat} {endTS : Fin n → Nat}
  {guards : Fin n → Nat → Option Guard} {debt : Fin n → Option Debt}
  {k : Token} {x : Option (Home n)} {o : Obj} {p q : Place n} {t : Fin n}

theorem implicit_ne (hd : k.type ≠ .dispose) (o : Obj) : implicit o ≠ k := by
  rintro rfl
  exact hd rfl

theorem update_home_implicit (hd : k.type ≠ .dispose) (o : Obj) :
    Function.update home k x (implicit o) = home (implicit o) :=
  Function.update_of_ne (implicit_ne hd o) _ _

theorem update_home_ne_none (hk : home k ≠ none) (hx : x ≠ none) (k' : Token) :
    Function.update home k x k' ≠ none ↔ home k' ≠ none := by
  simp only [Function.update_apply]
  grind

theorem Kind.type_ne_dispose (κ : Kind) : κ.type ≠ .dispose := by
  cases κ <;> decide

theorem Fits.type_ne_dispose (h : Fits p k) : k.type ≠ .dispose := by
  cases p with
  | var κ i => simp only [Fits] at h; rw [h]; exact κ.type_ne_dispose
  | loc κ i => simp only [Fits] at h; rw [h]; exact κ.type_ne_dispose
  | hand t => exact h
  | desired t => exact h

/-! ## Cells -/

theorem Places.relocate (h : Places cell home) (hp : cell p = some k) (hq : cell q = none)
    (hf : Fits q k) :
    Places (Function.update (Function.update cell p none) q (some k))
      (Function.update home k (some (.cell q))) := by
  have hpq : p ≠ q := by
    rintro rfl
    rw [hp] at hq
    cases hq
  constructor
  · intro r x
    have h1 := h.cell_iff r x
    have h2 := h.cell_iff p k
    have h3 := h.cell_iff q x
    simp only [Function.update_apply]
    grind
  · intro r x
    have h1 := h.fits r x
    simp only [Function.update_apply]
    grind

theorem Places.add (h : Places cell home) (hk : home k = none) (hq : cell q = none)
    (hf : Fits q k) :
    Places (Function.update cell q (some k)) (Function.update home k (some (.cell q))) := by
  constructor
  · intro r x
    have h1 := h.cell_iff r x
    have h3 := h.cell_iff q x
    simp only [Function.update_apply]
    grind
  · intro r x
    have h1 := h.fits r x
    simp only [Function.update_apply]
    grind

theorem Places.remove (h : Places cell home) (hp : cell p = some k)
    (hx : ∀ q, x ≠ some (.cell q)) :
    Places (Function.update cell p none) (Function.update home k x) := by
  constructor
  · intro r k'
    have h1 := h.cell_iff r k'
    have h2 := h.cell_iff p k
    simp only [Function.update_apply]
    grind
  · intro r k'
    have h1 := h.fits r k'
    simp only [Function.update_apply]
    grind

theorem Places.elsewhere (h : Places cell home) (hk : ∀ q, home k ≠ some (.cell q))
    (hx : ∀ q, x ≠ some (.cell q)) : Places cell (Function.update home k x) := by
  refine ⟨fun r k' => ?_, h.fits⟩
  have h1 := h.cell_iff r k'
  simp only [Function.update_apply]
  grind

theorem Places.home_eq (h : Places cell home) (hp : cell p = some k) :
    home k = some (.cell p) := (h.cell_iff p k).mp hp

theorem Places.type_ne_dispose (h : Places cell home) (hp : cell p = some k) :
    k.type ≠ .dispose := (h.fits p k hp).type_ne_dispose

/-! ## Deferred lists -/

theorem Lists.elsewhere (h : Lists home deferred pass inProgress)
    (hk : ∀ t, home k ≠ some (.list t)) (hx : ∀ t, x ≠ some (.list t)) :
    Lists (Function.update home k x) deferred pass inProgress := by
  refine ⟨fun t k' => ?_, h.nodup, h.inProgress⟩
  have h1 := h.list_iff t k'
  simp only [Function.update_apply]
  grind

theorem Lists.home_eq (h : Lists home deferred pass inProgress) {e : Entry}
    (he : e ∈ entries deferred pass t) : home e.token = some (.list t) :=
  (h.list_iff t e.token).mpr ⟨e, he, rfl⟩

theorem Lists.not_mem (h : Lists home deferred pass inProgress)
    (hk : ∀ t, home k ≠ some (.list t)) (u : Fin n) (e : Entry)
    (he : e ∈ entries deferred pass u) : e.token ≠ k := by
  rintro rfl
  exact hk u (h.home_eq he)

theorem mem_entries_of_pass {p : Pass n} {e : Entry} (hp : pass t = some p)
    (he : e ∈ p.entries) : e ∈ entries deferred pass t := by
  simp only [entries, hp, Option.map_some, Option.getD_some, List.mem_append]
  exact Or.inr he

theorem Places.type_of_inLoc (h : Places cell home) (hi : inLoc (home k) = true) :
    k.type ≠ .dispose := by
  unfold inLoc at hi
  split at hi
  · rename_i κ l hk
    exact h.type_ne_dispose ((h.cell_iff _ k).mpr hk)
  · cases hi

theorem exposed_of_inLoc (hi : inLoc x = true) : exposed x = true := by
  unfold inLoc at hi
  split at hi
  · rfl
  · cases hi

/-! ## Names -/

theorem Fresh.set {m : Nat} (h : Fresh home m) (hk : home k ≠ none) :
    Fresh (Function.update home k x) m := by
  constructor
  · intro k' h1 h2
    by_cases he : k' = k
    · exact he ▸ h.id_lt k hk (he ▸ h2)
    · rw [Function.update_of_ne he] at h1
      exact h.id_lt k' h1 h2
  · intro k' h1 h2
    by_cases he : k' = k
    · exact he ▸ h.eq_implicit k hk (he ▸ h2)
    · rw [Function.update_of_ne he] at h1
      exact h.eq_implicit k' h1 h2

theorem Fresh.mint {m : Nat} (h : Fresh home m) {κ : Kind} :
    Fresh (Function.update home ⟨o, κ.type, m⟩ x) (m + 1) := by
  constructor
  · intro k' h1 h2
    by_cases he : k' = ⟨o, κ.type, m⟩
    · rw [he]
      exact Nat.lt_succ_self m
    · rw [Function.update_of_ne he] at h1
      exact Nat.lt_succ_of_lt (h.id_lt k' h1 h2)
  · intro k' h1 h2
    by_cases he : k' = ⟨o, κ.type, m⟩
    · rw [he] at h2
      exact absurd h2 κ.type_ne_dispose
    · rw [Function.update_of_ne he] at h1
      exact h.eq_implicit k' h1 h2

theorem Fresh.setImplicit {m : Nat} (h : Fresh home m) :
    Fresh (Function.update home (implicit o) x) m := by
  constructor
  · intro k' h1 h2
    have he : k' ≠ implicit o := fun he => h2 (he ▸ rfl)
    rw [Function.update_of_ne he] at h1
    exact h.id_lt k' h1 h2
  · intro k' h1 h2
    by_cases he : k' = implicit o
    · rw [he]; rfl
    · rw [Function.update_of_ne he] at h1
      exact h.eq_implicit k' h1 h2

theorem Fresh.new {m : Nat} (h : Fresh home m) (κ : Kind) : home ⟨o, κ.type, m⟩ = none := by
  by_contra hc
  exact Nat.lt_irrefl m (h.id_lt ⟨o, κ.type, m⟩ hc κ.type_ne_dispose)

/-! ## Units that have been in a location -/

theorem Shared.relocate {m : Nat} (h : Shared cfg home shared m)
    (hl : k.type ≠ .dispose → exposed x = true → shared k = true)
    (hv : ∀ κ i, x = some (.cell (.var κ i)) → shared k = true → cfg.exchanges = true) :
    Shared cfg (Function.update home k x) shared m := by
  refine ⟨h.id_lt, ?_, ?_⟩
  · intro k' hd hi
    simp only [Function.update_apply] at hi
    split at hi
    · rename_i he
      exact he ▸ hl (he ▸ hd) hi
    · exact h.of_exposed k' hd hi
  · intro κ i k' hk' hs
    simp only [Function.update_apply] at hk'
    split at hk'
    · rename_i he
      exact hv κ i hk' (he ▸ hs)
    · exact h.exchanged κ i k' hk' hs

theorem Shared.enter {m m' : Nat} (h : Shared cfg home shared m) {κ : Kind} {l : Nat}
    (hk : k.id < m') (hm : m ≤ m') :
    Shared cfg (Function.update home k (some (.cell (.loc κ l))))
      (Function.update shared k true) m' := by
  constructor
  · intro k' hs
    by_cases he : k' = k
    · exact he ▸ hk
    · rw [Function.update_of_ne he] at hs
      exact Nat.lt_of_lt_of_le (h.id_lt k' hs) hm
  · intro k' hd hi
    by_cases he : k' = k
    · rw [he]; simp
    · rw [Function.update_of_ne he] at hi ⊢
      exact h.of_exposed k' hd hi
  · intro κ i k' hk' hs
    by_cases he : k' = k
    · rw [he, Function.update_self] at hk'
      cases hk'
    · rw [Function.update_of_ne he] at hk' hs
      exact h.exchanged κ i k' hk' hs

theorem Shared.mint {m : Nat} (h : Shared cfg home shared m) {κ : Kind}
    (hl : exposed x = false) :
    Shared cfg (Function.update home ⟨o, κ.type, m⟩ x) shared (m + 1) :=
  { h.relocate (k := ⟨o, κ.type, m⟩) (fun _ hx => by rw [hl] at hx; cases hx)
      fun _ _ _ hs => absurd (h.id_lt _ hs) (Nat.lt_irrefl m) with
    id_lt := fun k hs => Nat.lt_succ_of_lt (h.id_lt k hs) }

theorem ProtShared.enter (h : ProtShared prot shared)
    (hp : ∀ t k', prot' t k' = true → prot t k' = true ∨ k' = k) :
    ProtShared prot' (Function.update shared k true) := by
  intro t k' hk hd
  by_cases he : k' = k
  · rw [he, Function.update_self]
  · rw [Function.update_of_ne he]
    exact h t k' ((hp t k' hk).resolve_right he) hd

/-! ## Books -/

theorem live_relocate (hk : home k ≠ none) (hx : x ≠ none) (κ : Kind) (k' : Token) :
    Live home κ k' ↔ Live (Function.update home k x) κ k' := by
  simp only [Live, update_home_ne_none hk hx]

theorem live_add (hx : x ≠ none) {κ : Kind} (hκ : ofKind κ k) (k' : Token) :
    Live (Function.update home k x) κ k' ↔ Live home κ k' ∨ k' = k := by
  simp only [Live, Function.update_apply]
  grind

theorem live_remove {κ : Kind} (k' : Token) :
    Live (Function.update home k none) κ k' ↔ Live home κ k' ∧ k' ≠ k := by
  simp only [Live, Function.update_apply]
  grind

theorem live_other {κ : Kind} (hκ : ¬ ofKind κ k) (k' : Token) :
    Live home κ k' ↔ Live (Function.update home k x) κ k' := by
  simp only [Live, Function.update_apply]
  grind

theorem ofKind_type (κ : Kind) (o : Obj) (m : Nat) : ofKind κ ⟨o, κ.type, m⟩ := by
  cases κ
  · rfl
  · intro h; cases h

/-! ## Objects -/

theorem Counted.locate (h : Counted cfg L mem home) (hk : mem k.obj ≠ none) :
    Counted cfg L mem (Function.update home k x) := by
  refine ⟨fun k' h1 => ?_, h.ref, h.ref_le, h.weak⟩
  by_cases he : k' = k
  · exact he ▸ hk
  · rw [Function.update_of_ne he] at h1
    exact h.present k' h1

theorem Counted.relocate (h : Counted cfg L mem home) (hk : home k ≠ none) :
    Counted cfg L mem (Function.update home k x) := h.locate (h.present k hk)

/-- A unit of a counter goes to another cell or list. -/
theorem Life.relocate (h : Life mem home owned) (hk : home k ≠ none) (hd : k.type ≠ .dispose)
    (hx : x ≠ none) (ha : x ≠ some .alive) (ho : ∀ t, x ≠ some (.owned t)) :
    Life mem (Function.update home k x) owned := by
  have hup : ∀ o, Function.update home k x (implicit o) = home (implicit o) :=
    update_home_implicit hd
  have hne : ∀ k', Function.update home k x k' ≠ none ↔ home k' ≠ none :=
    update_home_ne_none hk hx
  constructor
  · intro k' h1 h2
    rw [hup]
    exact h.alive_of_strong k' ((hne k').mp h1) h2
  · intro o h1
    rw [hup] at h1
    obtain ⟨k', h2, h3, h4⟩ := h.strong_of_alive o h1
    exact ⟨k', (hne k').mpr h2, h3, h4⟩
  · intro k'
    have := h.only_implicit k'
    simp only [Function.update_apply]
    grind
  · intro t o
    rw [hup]
    exact h.owned_iff t o
  · exact h.present
  · exact h.parked
  · intro t o k' h1 h2 h3
    exact h.immediate t o k' h1 ((hne k').mp h2) h3
  · intro t o k' h1 h2
    by_contra hc
    exact (hne k').mp hc (h.last t o k' h1 h2)
  · exact h.last_unique
  · intro o ob h1
    rw [hup]
    exact h.alive o ob h1

/-- A new unit of an object that has one. -/
theorem Life.add (h : Life mem home owned) (hk : home k = none) (hd : k.type ≠ .dispose)
    (hs : k.type = .decrementStrongCount → home (implicit k.obj) = some .alive)
    (ho : ∀ t st, owned t k.obj = some st → st ≠ .immediate ∧ st ≠ .last) :
    Life mem (Function.update home k (some (.cell q))) owned := by
  have hup : ∀ o, Function.update home k (some (.cell q)) (implicit o) = home (implicit o) :=
    update_home_implicit hd
  have hne : ∀ k', Function.update home k (some (.cell q)) k' ≠ none →
      home k' ≠ none ∨ k' = k := by
    intro k' h1
    by_cases he : k' = k
    · exact Or.inr he
    · rw [Function.update_of_ne he] at h1
      exact Or.inl h1
  refine { h with
    alive_of_strong := ?_, strong_of_alive := ?_, only_implicit := ?_, owned_iff := ?_,
    immediate := ?_, last := ?_, alive := ?_ }
  · intro k' h1 h2
    rw [hup]
    rcases hne k' h1 with h1 | rfl
    · exact h.alive_of_strong k' h1 h2
    · exact hs h2
  · intro o h1
    rw [hup] at h1
    obtain ⟨k', h2, h3, h4⟩ := h.strong_of_alive o h1
    refine ⟨k', ?_, h3, h4⟩
    have he : k' ≠ k := by
      rintro rfl
      exact h2 hk
    rw [Function.update_of_ne he]
    exact h2
  · intro k'
    have := h.only_implicit k'
    simp only [Function.update_apply]
    grind
  · intro t o
    rw [hup]
    exact h.owned_iff t o
  · intro t o k' h1 h2 h3
    rcases hne k' h2 with h2 | rfl
    · exact h.immediate t o k' h1 h2 h3
    · exact absurd rfl (ho t _ (h3 ▸ h1)).1
  · intro t o k' h1 h2
    have he : k' ≠ k := by
      rintro rfl
      exact (ho t _ (h2 ▸ h1)).2 rfl
    rw [Function.update_of_ne he]
    exact h.last t o k' h1 h2
  · intro o ob h1
    rw [hup]
    exact h.alive o ob h1

/-- A unit ends that is not the last strong one. -/
theorem Life.remove (h : Life mem home owned) (hd : k.type ≠ .dispose)
    (hs : k.type = .decrementStrongCount →
      ∃ k', home k' ≠ none ∧ k' ≠ k ∧ k'.obj = k.obj ∧ k'.type = .decrementStrongCount) :
    Life mem (Function.update home k none) owned := by
  have hup : ∀ o, Function.update home k none (implicit o) = home (implicit o) :=
    update_home_implicit hd
  have hne : ∀ k', Function.update home k none k' ≠ none → home k' ≠ none := by
    intro k' h1 h2
    by_cases he : k' = k
    · rw [he, Function.update_self] at h1
      exact h1 rfl
    · rw [Function.update_of_ne he] at h1
      exact h1 h2
  refine { h with
    alive_of_strong := ?_, strong_of_alive := ?_, only_implicit := ?_, owned_iff := ?_,
    immediate := ?_, last := ?_, alive := ?_ }
  · intro k' h1 h2
    rw [hup]
    exact h.alive_of_strong k' (hne k' h1) h2
  · intro o h1
    rw [hup] at h1
    obtain ⟨k', h2, h3, h4⟩ := h.strong_of_alive o h1
    by_cases he : k' = k
    · subst he
      obtain ⟨k₁, h5, h6, h7, h8⟩ := hs h4
      exact ⟨k₁, by rw [Function.update_of_ne h6]; exact h5, h7.trans h3, h8⟩
    · exact ⟨k', by rw [Function.update_of_ne he]; exact h2, h3, h4⟩
  · intro k'
    have := h.only_implicit k'
    simp only [Function.update_apply]
    grind
  · intro t o
    rw [hup]
    exact h.owned_iff t o
  · exact fun t o k' h1 h2 h3 => h.immediate t o k' h1 (hne k' h2) h3
  · intro t o k' h1 h2
    by_contra hc
    exact hne k' hc (h.last t o k' h1 h2)
  · intro o ob h1
    rw [hup]
    exact h.alive o ob h1

/-! ## Guards and debts -/

theorem Held.mono {i : Nat} (h : Held cfg pass prot t i k)
    (hp : ∀ t k, prot t k = true → prot' t k = true) : Held cfg pass prot' t i k := by
  unfold Held at h ⊢
  split
  · rename_i hb
    simpa only [hb] using h
  · rename_i hb
    split at h
    · exact absurd ‹_› hb
    · exact hp t k h

theorem Locked.relocate {k' : Token} (h : Locked home reading t k') (hne : k' ≠ k) :
    Locked (Function.update home k x) reading t k' := by
  obtain ⟨κ, i, h1, h2⟩ := h
  exact ⟨κ, i, by rw [Function.update_of_ne hne]; exact h1, h2⟩

/-- A unit that no operation reads is now elsewhere. -/
theorem Guards.relocate (h : Guards cfg L mem home shared reading pass prot owned guards)
    (hd : k.type ≠ .dispose) (hl : ∀ t, ¬ Locked home reading t k)
    (hs : ∀ k, shared k = true → shared' k = true)
    (hp : ∀ t k, prot t k = true → prot' t k = true) :
    Guards cfg L mem (Function.update home k x) shared' reading pass prot' owned guards := by
  constructor
  · intro t i g hg
    rcases h.wit t i g hg with ⟨h0, h1⟩ | ⟨h1, h2⟩
    · refine Or.inl ⟨h0, h1.relocate ?_⟩
      intro he
      exact hl t (he ▸ h1)
    · exact Or.inr ⟨hs _ h1, h2.mono hp⟩
  · exact h.wit_strong
  · exact h.wit_weak
  · exact h.birth
  · intro t i g hg hc
    obtain ⟨h1, h2, h3⟩ := h.confirmed t i g hg hc
    exact ⟨by rw [update_home_implicit hd]; exact h1, h2.mono hp, h3⟩

theorem Debts.mono (h : Debts cfg L shared pass prot guards debt)
    (hs : ∀ k, shared k = true → shared' k = true)
    (hp : ∀ t k, prot t k = true → prot' t k = true) :
    Debts cfg L shared' pass prot' guards debt := by
  refine ⟨h.guard, fun t d hd => ?_⟩
  obtain ⟨h1, h2, h3⟩ := h.label t d hd
  exact ⟨h1, hs _ h2, h3.mono hp⟩

theorem Disposing.mono (h : Disposing owned prot)
    (hp : ∀ t o, prot' t (implicit o) = true → prot t (implicit o) = true) :
    Disposing owned prot' := by
  intro t o ho u
  by_contra hc
  have := h t o ho u
  rw [hp u o (by simpa using hc)] at this
  cases this

theorem Disposing.setOwned {owned' : Fin n → Obj → Option Stage} (h : Disposing owned prot)
    (ho : ∀ t o, owned' t o = some .disposing → owned t o = some .disposing) :
    Disposing owned' prot := fun t o hd => h t o (ho t o hd)

/-! ## Sections -/

/-- A unit goes to where no section looks for it. -/
theorem Prots.relocate
    (h : Prots cfg mem home prot cov localEpoch endTS deferred pass guards)
    (hx : x ≠ none) (hl : inLoc x = false) :
    Prots cfg mem (Function.update home k x) prot cov localEpoch endTS deferred pass guards := by
  refine { h with live := ?_, of_inLoc := ?_ }
  · intro t k' hk
    obtain ⟨h1, h2⟩ := h.live t k' hk
    refine ⟨?_, h2⟩
    simp only [Function.update_apply]
    split
    · exact hx
    · exact h1
  · intro t k' hc hi
    simp only [Function.update_apply] at hi
    split at hi
    · rw [hl] at hi; cases hi
    · exact h.of_inLoc t k' hc hi

theorem Covers.section (h : Prots cfg mem home prot cov localEpoch endTS deferred pass guards)
    (hc : Covers cfg localEpoch cov t o) : localEpoch t ≠ none ∧ cfg.backend ≠ .hp := by
  unfold Covers at hc
  split at hc
  · exact hc.elim
  · rename_i hb
    exact ⟨hc, by rw [hb]; decide⟩
  · obtain ⟨k, hk, _⟩ := h.cov_prot t o hc
    exact (h.live t k hk).2

/-- A unit goes into a location: the sections that cover its object keep it. -/
theorem Prots.enter (h : Prots cfg mem home prot cov localEpoch endTS deferred pass guards)
    (hn : ∀ u e, e ∈ entries deferred pass u → e.token ≠ k) (hx : x ≠ none)
    (hd : k.type ≠ .dispose) (hp : ∀ t k', prot' t k' = true ↔
      prot t k' = true ∨ (k' = k ∧ Covers cfg localEpoch cov t k.obj)) :
    Prots cfg mem (Function.update home k x) prot' cov localEpoch endTS deferred pass guards := by
  have hold : ∀ {t u e}, e ∈ entries deferred pass u → prot' t e.token = true →
      prot t e.token = true := by
    intro t u e he hpr
    exact ((hp t _).mp hpr).resolve_right fun hc => hn u e he hc.1
  constructor
  · intro t k' hk
    rcases (hp t k').mp hk with hk | ⟨rfl, hc⟩
    · obtain ⟨h1, h2⟩ := h.live t k' hk
      refine ⟨?_, h2⟩
      simp only [Function.update_apply]
      split
      · exact hx
      · exact h1
    · exact ⟨by simpa using hx, Covers.section h hc⟩
  · intro t k' hc hi
    by_cases he : k' = k
    · exact (hp t k').mpr (Or.inr ⟨he, he ▸ hc⟩)
    · rw [Function.update_of_ne he] at hi
      exact (hp t k').mpr (Or.inl (h.of_inLoc t k' hc hi))
  · exact fun t u e a he hpr => h.entry t u e a he (hold he hpr)
  · exact fun t u p e hpa he hpr => h.scanned t u p e hpa he (hold (mem_entries_of_pass hpa he) hpr)
  · exact fun t u p e a hpa hst he hpr =>
      h.start t u p e a hpa hst he (hold (mem_entries_of_pass hpa he) hpr)
  · intro t o hc
    obtain ⟨k', h1, h2⟩ := h.cov_prot t o hc
    exact ⟨k', (hp t k').mpr (Or.inl h1), h2⟩
  · intro t o hk
    rcases (hp t _).mp hk with hk | ⟨hk, _⟩
    · obtain ⟨k', h1, h2⟩ := h.implicit_prot t o hk
      exact ⟨k', (hp t k').mpr (Or.inl h1), h2⟩
    · exact absurd hk (implicit_ne hd o)
  · intro hb t k' hk
    rcases (hp t k').mp hk with hk | ⟨rfl, hc⟩
    · exact h.prot_cov hb t k' hk
    · simpa only [Covers, hb] using hc
  · exact h.cov_end
  · exact h.birth
  · exact h.guard_cov

/-- The section of `t` covers an object that a location leads to. -/
theorem Prots.cover (h : Prots cfg mem home prot cov localEpoch endTS deferred pass guards)
    (hb : cfg.backend = .ibr) (hn : ∀ u e, e ∈ entries deferred pass u → inLoc (home e.token) = false)
    (himp : ∀ k, inLoc (home k) = true → k.type ≠ .dispose)
    {k₀ : Token} (hk₀ : k₀.obj = o) (hi₀ : inLoc (home k₀) = true) {a : Nat}
    (ha : localEpoch t = some a) (hle : a ≤ endTS t)
    (hob : ∀ ob, mem o = some ob → ob.birthTS ≤ endTS t)
    (hp : ∀ u k', prot' u k' = true ↔
      prot u k' = true ∨ (u = t ∧ k'.obj = o ∧ inLoc (home k') = true)) :
    Prots cfg mem home prot' (update₂ cov t o true) localEpoch endTS deferred pass guards := by
  have hcov : ∀ u o', update₂ cov t o true u o' = true ↔ cov u o' = true ∨ (u = t ∧ o' = o) := by
    intro u o'
    simp only [update₂, Function.update_apply]
    grind
  have hold : ∀ {v u e}, e ∈ entries deferred pass u → prot' v e.token = true →
      prot v e.token = true := by
    intro v u e he hpr
    refine ((hp v _).mp hpr).resolve_right fun hc => ?_
    rw [hn u e he] at hc
    exact absurd hc.2.2 (by decide)
  constructor
  · intro u k' hk
    rcases (hp u k').mp hk with hk | ⟨rfl, _, hi⟩
    · exact h.live u k' hk
    · refine ⟨?_, by rw [ha]; exact Option.some_ne_none a, by rw [hb]; decide⟩
      intro hc
      rw [hc] at hi
      cases hi
  · intro u k' hc hi
    rw [hp]
    simp only [Covers, hb, hcov] at hc
    rcases hc with hc | ⟨rfl, ho⟩
    · exact Or.inl (h.of_inLoc u k' (by simpa only [Covers, hb] using hc) hi)
    · exact Or.inr ⟨rfl, ho, hi⟩
  · exact fun v u e a he hpr => h.entry v u e a he (hold he hpr)
  · exact fun v u p e hpa he hpr => h.scanned v u p e hpa he (hold (mem_entries_of_pass hpa he) hpr)
  · exact fun v u p e a hpa hst he hpr =>
      h.start v u p e a hpa hst he (hold (mem_entries_of_pass hpa he) hpr)
  · intro u o' hc
    rcases (hcov u o').mp hc with hc | ⟨rfl, rfl⟩
    · obtain ⟨k', h1, h2⟩ := h.cov_prot u o' hc
      exact ⟨k', (hp u k').mpr (Or.inl h1), h2⟩
    · exact ⟨k₀, (hp u k₀).mpr (Or.inr ⟨rfl, hk₀, hi₀⟩), hk₀⟩
  · intro u o' hk
    rcases (hp u _).mp hk with hk | ⟨_, _, hi⟩
    · obtain ⟨k', h1, h2⟩ := h.implicit_prot u o' hk
      exact ⟨k', (hp u k').mpr (Or.inl h1), h2⟩
    · exact absurd rfl (himp (implicit o') hi)
  · intro _ u k' hk
    rw [hcov]
    rcases (hp u k').mp hk with hk | ⟨h1, h2, _⟩
    · exact Or.inl (h.prot_cov hb u k' hk)
    · exact Or.inr ⟨h1, h2⟩
  · intro u o' a' ob hc hl hm
    rcases (hcov u o').mp hc with hc | ⟨rfl, rfl⟩
    · exact h.cov_end u o' a' ob hc hl hm
    · rw [ha] at hl
      cases hl
      exact ⟨hle, hob ob hm⟩
  · exact h.birth
  · exact fun _ u i g hg => (hcov u g.obj).mpr (Or.inl (h.guard_cov hb u i g hg))

end Cdrc.Smr
