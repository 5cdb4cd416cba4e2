import Cdrc.Smr.Counters

/-! # Reference counting over a memory manager: new units

A unit is made through a pointer that keeps the object: a validated pointer, or a
variable. Its counter is then positive, so the increment succeeds. -/
namespace Cdrc.Smr
open Cdrc.StickyCounter Cdrc.CountedObject Cdrc.Lib.Threads Cdrc.Lib.Units

variable {n : Nat} {cfg : Config} {L : Kind → Book n} {s s' : State n} {k : Token} {o : Obj}
  {ob : Object} {κ : Kind} {t : Fin n} {q : Place n} {g : Guard} {i : Nat}

/-! ## What keeps an object -/

theorem ofKind_of_type (h : k.type = κ.type) : ofKind κ k := by
  cases κ <;> simp_all [ofKind, Kind.type]

theorem Inv.guard_token (h : Inv cfg L s) (hg : s.guards t i = some g) :
    ∃ k, s.home k ≠ none ∧ k.obj = g.obj ∧ k.type = g.kind.type := by
  have hgo : guardOf s.guards g.kind (t, i) = some g.obj := by
    cases hk : g.kind <;> simp [guardOf, hg, hk]
  obtain ⟨⟨h1, h2⟩, h3⟩ := (h.books g.kind).wit_live (t, i) g.obj hgo
  refine ⟨_, h1, h3, ?_⟩
  cases hk : g.kind with
  | strong => rw [hk] at h2; exact h2
  | weak => exact h.guards.wit_weak t i g hg hk

/-- The counter of a kind is positive while a unit of that kind is left. -/
theorem Inv.count_pos (h : Inv cfg L s) (hk : s.home k ≠ none) (hκ : ofKind κ k) :
    0 < (L κ).count Token.obj k.obj := (h.books κ).count_pos_of_live ⟨hk, hκ⟩

/-- The weak counter is positive while any unit is left. -/
theorem Inv.weak_pos (h : Inv cfg L s) (hk : s.home k ≠ none) :
    0 < (L .weak).count Token.obj k.obj := by
  by_cases hs : k.type = .decrementStrongCount
  · have hi : s.home (implicit k.obj) ≠ none := by
      rw [h.life.alive_of_strong k hk hs]
      exact Option.some_ne_none _
    exact h.count_pos (k := implicit k.obj) hi (fun hc => by cases hc)
  · exact h.count_pos hk hs

/-- An object with a unit of its own is not being deleted. -/
theorem Inv.not_deleting (h : Inv cfg L s) (hk : s.home k ≠ none) (hd : k.type ≠ .dispose)
    (t : Fin n) (st : Stage) (ho : s.owned t k.obj = some st) : st ≠ .immediate ∧ st ≠ .last := by
  constructor
  · rintro rfl
    exact implicit_ne hd k.obj (h.life.immediate t k.obj k ho hk rfl).symm
  · rintro rfl
    exact hk (h.life.last t k.obj k ho rfl)

/-- The pointer an increment is made through has the right kind. -/
def ViaOk (guards : Nat → Option Guard) (κ : Kind) : Via → Prop
  | .guard i => ∀ g, guards i = some g → κ = .weak ∨ g.kind = .strong
  | .var κ' _ => κ = .weak ∨ κ' = .strong

theorem Inv.via_token (h : Inv cfg L s) {via : Via} (hv : s.via t via = some o) :
    ∃ k, s.home k ≠ none ∧ k.obj = o ∧ k.type ≠ .dispose ∧
      (ViaOk (s.guards t) .strong via → k.type = .decrementStrongCount) := by
  cases via with
  | guard i =>
    obtain ⟨g, hg, rfl⟩ := Option.map_eq_some_iff.mp hv
    obtain ⟨k, h1, h2, h3⟩ := h.guard_token hg
    refine ⟨k, h1, h2, h3 ▸ g.kind.type_ne_dispose, fun hok => ?_⟩
    rcases hok g hg with hc | hc
    · cases hc
    · rw [h3, hc]; rfl
  | var κ i =>
    obtain ⟨k, hk, rfl⟩ := Option.map_eq_some_iff.mp hv
    have hf := h.places.fits _ _ hk
    refine ⟨k, ?_, rfl, h.places.type_ne_dispose hk, fun hok => ?_⟩
    · rw [h.places.home_eq hk]; exact Option.some_ne_none _
    · rcases hok with hc | hc
      · cases hc
      · rw [hf, hc]; rfl

/-! ## A unit that is counted at once -/

theorem Inv.value (h : Inv cfg L s) (hm : s.mem o = some ob)
    (hc : 0 < (L κ).count Token.obj o) : ob.value κ = (L κ).count Token.obj o := by
  cases κ with
  | strong => exact h.counted.ref o ob hm (Or.inl hc)
  | weak => exact h.counted.weak o ob hm

theorem Inv.le_max (h : Inv cfg L s) (o : Obj) (hκ : κ = .strong) :
    (L κ).count Token.obj o ≤ maxValue 30 := hκ ▸ h.counted.ref_le o

/-- The books after the unit `k` of `κ` was added to the units. -/
theorem Inv.books_mint (h : Inv cfg L s) {x : Option (Home n)} (hx : x ≠ none) :
    ∀ κ', (Function.update L κ ((L κ).mint ⟨o, κ.type, s.nextId⟩) κ').Valid
      (Live (Function.update s.home ⟨o, κ.type, s.nextId⟩ x) κ') Token.obj
      (guardOf s.guards κ') (debtOf s.debt κ') := by
  intro κ'
  by_cases he : κ' = κ
  · subst he
    rw [Function.update_self]
    exact (h.books κ').mint (fun hc => hc.1 (h.fresh.new κ'))
      (live_add hx (ofKind_type κ' o s.nextId))
  · rw [Function.update_of_ne he]
    have hno : ¬ ofKind κ' ⟨o, κ.type, s.nextId⟩ := by
      cases κ <;> cases κ' <;> simp_all [ofKind, Kind.type]
    exact (h.books κ').congr (live_other hno)

theorem count_mint (h : Inv cfg L s) (o' : Obj) :
    ((L κ).mint ⟨o, κ.type, s.nextId⟩).count Token.obj o' =
      (L κ).count Token.obj o' + if o = o' then 1 else 0 := by
  have hn : (⟨o, κ.type, s.nextId⟩ : Token) ∉ (L κ).paid := fun hc =>
    ((h.books κ).live_of_paid hc).1 (h.fresh.new κ)
  exact Ledger.count_insert Token.obj hn o'

/-- An increment made while the counter is positive, and the new unit in cell `q`. -/
theorem Inv.mint (h : Inv cfg L s) (hk : s.home k ≠ none) (hd : k.type ≠ .dispose)
    (hs : κ = .strong → k.type = .decrementStrongCount) (hm : s.mem k.obj = some ob)
    (hq : s.cell q = none) (hf : Fits q ⟨k.obj, κ.type, s.nextId⟩)
    (hl : exposed (some (.cell q)) = false) (hroom : ob.hasRoom κ = true) :
    (ob.add cfg κ).2 = true ∧
      Inv cfg (Function.update L κ ((L κ).mint ⟨k.obj, κ.type, s.nextId⟩))
        ((s.setObj k.obj (some (ob.add cfg κ).1)).mint q k.obj κ) := by
  have hpos : 0 < (L κ).count Token.obj k.obj := by
    cases κ with
    | strong => exact h.count_pos hk (hs rfl)
    | weak => exact h.weak_pos hk
  have hval := h.value hm hpos
  have hmax := Object.room hval (h.le_max k.obj) hroom
  obtain ⟨h1, h2⟩ := Object.add_pos cfg hval hpos hmax
  refine ⟨h1, ?_⟩
  have hsame : ob.SameBut κ (ob.add cfg κ).1 := Object.add_sameBut
  have hst := Stamped.update hm hsame.birthTS
  have hnew := h.fresh.new (o := k.obj) κ
  have hx : some (Home.cell q) ≠ none := Option.some_ne_none _
  have hcount : ∀ o', ((L κ).mint ⟨k.obj, κ.type, s.nextId⟩).count Token.obj o' =
      (L κ).count Token.obj o' + if k.obj = o' then 1 else 0 := count_mint h
  have hkd : ((⟨k.obj, κ.type, s.nextId⟩ : Token)).type ≠ .dispose := κ.type_ne_dispose
  have hnl : ∀ u, s.home ⟨k.obj, κ.type, s.nextId⟩ ≠ some (.list u) := by
    rw [hnew]; intro u hc; cases hc
  have hnv : ∀ u, ¬ Locked s.home s.reading u ⟨k.obj, κ.type, s.nextId⟩ := by
    rintro u ⟨κ', i, hc, _⟩
    rw [hnew] at hc
    cases hc
  have hil : inLoc (some (Home.cell q)) = false := by
    by_contra hc
    rw [exposed_of_inLoc (by simpa using hc)] at hl
    cases hl
  exact { h with
    places := h.places.add hnew hq hf
    lists := h.lists.elsewhere hnl (by intro t hc; cases hc)
    fresh := h.fresh.mint
    books := h.books_mint hx
    counted := by
      refine (h.counted.set hm hsame ?_ ?_ ?_).locate (by simp [State.setObj])
      · intro o' hne
        rw [hcount, if_neg (Ne.symm hne)]
        rfl
      · intro _
        rw [hcount, if_pos rfl]
        exact h2
      · intro hκ
        rw [hcount, if_pos rfl]
        exact hmax hκ
    life := by
      refine (h.life.stamped hm hsame.alive ?_).add hnew hkd ?_ ?_
      · intro u hu
        have hne : Kind.strong ≠ κ := by
          rintro rfl
          have halive := h.life.alive_of_strong k hk (hs rfl)
          rw [(h.life.owned_iff u k.obj).mpr ⟨_, hu, by decide⟩] at halive
          cases halive
        exact hsame.other .strong hne
      · intro hty
        refine h.life.alive_of_strong k hk ?_
        cases κ with
        | strong => exact hs rfl
        | weak => cases hty
      · exact fun u st hu => h.not_deleting hk hd u st hu
    guards := ((h.guards.stamped hst).relocate hkd hnv (fun _ => id) (fun _ _ => id)).book
      (update_wit rfl)
    debts := h.debts.book (update_label rfl)
    epochs := h.epochs.stamped hst
    prots := (h.prots.stamped hst).relocate hx hil
    shared := h.shared.mint hl }

/-- A counter call that changes nothing. -/
theorem setObj_self (hm : s.mem o = some ob) : s.setObj o (some ob) = s := by
  simp only [State.setObj]
  rw [← hm, Function.update_eq_self]

theorem Inv.increment (h : Inv cfg L s) {via : Via} {dst : Spot} {checked r : Bool}
    (hok : ViaOk (s.guards t) κ via ∨ (checked = true ∧ cfg.atomicCounters = true))
    (hdst : dst = .desired ∨ ∃ i, dst = .var κ i)
    (he : s.increment cfg t κ via dst checked = some (r, s')) :
    Good cfg s' ∧ (s'.loc t = s.loc t ∨
      (dst = .desired ∧ ∃ k, k.type = κ.type ∧ s'.loc t = { s.loc t with desired := some k })) := by
  unfold State.increment at he
  split at he
  · cases he
    exact ⟨⟨L, h⟩, Or.inl rfl⟩
  rename_i o hv
  obtain ⟨k, hk, rfl, hd, hks⟩ := h.via_token hv
  split at he
  · rename_i hm
    exact absurd hm (h.counted.present k hk)
  rename_i ob hm
  split at he
  swap
  · cases he
  rename_i hroom
  -- the counter is positive unless a weak pointer is locked after the last strong unit
  have hcase : (∃ k', s.home k' ≠ none ∧ k'.obj = k.obj ∧ k'.type ≠ .dispose ∧
      (κ = .strong → k'.type = .decrementStrongCount)) ∨
      (κ = .strong ∧ checked = true ∧ cfg.atomicCounters = true ∧ ob.ref.toNat = 0) := by
    cases κ with
    | weak => exact Or.inl ⟨k, hk, rfl, hd, fun hc => by cases hc⟩
    | strong =>
      rcases hok with hok | ⟨hch, ha⟩
      · exact Or.inl ⟨k, hk, rfl, hd, fun _ => hks hok⟩
      · have hval := h.counted.ref k.obj ob hm (Or.inr ha)
        by_cases hc : 0 < (L .strong).count Token.obj k.obj
        · obtain ⟨k', hk'⟩ := Finset.card_pos.mp hc
          obtain ⟨hp, ho⟩ := Finset.mem_filter.mp hk'
          obtain ⟨h1, h2⟩ := (h.books .strong).live_of_paid hp
          exact Or.inl ⟨k', h1, ho, by rw [show k'.type = _ from h2]; decide, fun _ => h2⟩
        · exact Or.inr ⟨rfl, hch, ha, by omega⟩
  rcases hcase with ⟨k', hk', ho', hd', hs'⟩ | ⟨rfl, rfl, ha, hz⟩
  · rw [← ho'] at hm he
    have hfit : Fits (dst.place t) ⟨k'.obj, κ.type, s.nextId⟩ ∧
        exposed (some (.cell (dst.place t))) = false := by
      rcases hdst with rfl | ⟨i, rfl⟩
      · exact ⟨κ.type_ne_dispose, rfl⟩
      · exact ⟨rfl, rfl⟩
    obtain ⟨h1, h2⟩ := h.mint hk' hd' hs' hm hroom.1 hfit.1 hfit.2 hroom.2
    rw [if_pos h1] at he
    cases he
    refine ⟨⟨_, h2⟩, ?_⟩
    rcases hdst with rfl | ⟨i, rfl⟩
    · refine Or.inr ⟨rfl, ⟨k'.obj, κ.type, s.nextId⟩, rfl, ?_⟩
      simp [State.loc, State.mint, State.setObj, Spot.place]
    · exact Or.inl (by simp [State.loc, State.mint, State.setObj, Spot.place])
  · rw [Object.add_zero ha hz] at he
    simp only [Bool.false_eq_true, if_false, if_true] at he
    rw [setObj_self hm] at he
    cases he
    exact ⟨⟨L, h⟩, Or.inl rfl⟩

/-! ## A unit that is counted later -/

theorem debtOf_none {debt : Fin n → Option Debt} (hd : debt t = none) (κ : Kind) :
    debtOf debt κ t = none := by
  simp [debtOf, hd]

theorem debtOf_update {debt : Fin n → Option Debt} (x : Option Debt) (κ : Kind) :
    debtOf (Function.update debt t x) κ = Function.update (debtOf debt κ) t
      (x.bind fun d => if d.kind = κ then some (t, d.guard) else none) := by
  funext u
  by_cases he : u = t
  · subst he
    simp [debtOf]
  · simp [debtOf, Function.update_of_ne he]

theorem debtOf_some {debt : Fin n → Option Debt} {d : Debt} (hd : debt t = some d) :
    debtOf debt d.kind t = some (t, d.guard) := by
  simp [debtOf, hd]

theorem debtOf_eq_some {debt : Fin n → Option Debt} {x : Fin n × Nat}
    (h : debtOf debt κ t = some x) : ∃ d, debt t = some d ∧ d.kind = κ ∧ x = (t, d.guard) := by
  obtain ⟨d, hd, he⟩ := Option.bind_eq_some_iff.mp h
  split at he
  · rename_i hk
    exact ⟨d, hd, hk, by simpa using he.symm⟩
  · cases he

theorem Inv.debt_obj (h : Inv cfg L s) {d : Debt} (hd : s.debt t = some d) :
    ((L d.kind).label t).obj = d.obj := by
  obtain ⟨g, hg, ho, _⟩ := h.debts.guard t d hd
  have h1 := ((h.books d.kind).label_live t (t, d.guard) (debtOf_some hd)).2
  obtain ⟨g', hg', he⟩ := Option.bind_eq_some_iff.mp h1
  rw [hg] at hg'
  cases hg'
  split at he
  · rw [← ho]
    simpa using he.symm
  · cases he

theorem Debts.paid {shared : Token → Bool} {pass : Fin n → Option (Pass n)}
    {prot : Fin n → Token → Bool} {guards : Fin n → Nat → Option Guard}
    {debt : Fin n → Option Debt} (h : Debts cfg L shared pass prot guards debt) (t : Fin n) :
    Debts cfg L shared pass prot guards (Function.update debt t none) := by
  have hold : ∀ {u d}, Function.update debt t none u = some d → debt u = some d := by
    intro u d hd
    by_cases hu : u = t
    · subst hu; simp at hd
    · rwa [Function.update_of_ne hu] at hd
  exact ⟨fun u d hd => h.guard u d (hold hd), fun u d hd => h.label u d (hold hd)⟩

/-- The increment that was owed. -/
theorem Inv.payDebt (h : Inv cfg L s) {r : Unit} (he : s.payDebt cfg t = some (r, s')) :
    Good cfg s' ∧ s'.loc t = { s.loc t with debt := none } := by
  unfold State.payDebt at he
  split at he
  · rename_i hd
    cases he
    exact ⟨⟨L, h⟩, by simp [State.loc, hd]⟩
  rename_i d hd
  obtain ⟨g, hg, ho, hgk⟩ := h.debts.guard t d hd
  obtain ⟨k, hk, hko, hkt⟩ := h.guard_token hg
  rw [← ho, ← hko] at he
  split at he
  · rename_i hm
    exact absurd hm (h.counted.present k hk)
  rename_i ob hm
  split at he
  swap
  · cases he
  rename_i hroom
  have hpos : 0 < (L d.kind).count Token.obj k.obj := by
    cases hdk : d.kind with
    | weak => exact h.weak_pos hk
    | strong => exact h.count_pos hk (ofKind_of_type (by rw [hkt, hgk hdk]))
  have hval := h.value hm hpos
  have hmax := Object.room hval (h.le_max k.obj) hroom
  obtain ⟨h1, h2⟩ := Object.add_pos cfg hval hpos hmax
  rw [if_pos h1] at he
  cases he
  have hdo := debtOf_some hd
  have hsame : ob.SameBut d.kind (ob.add cfg d.kind).1 := Object.add_sameBut
  have hst := Stamped.update hm hsame.birthTS
  have hlab : (L d.kind).label t ∉ (L d.kind).paid := fun hc =>
    (((h.books d.kind).mem_paid _).mp hc).2 t _ hdo rfl
  have hcount : ∀ o', ((L d.kind).pay t).count Token.obj o' =
      (L d.kind).count Token.obj o' + if k.obj = o' then 1 else 0 := by
    intro o'
    have := Ledger.count_insert Token.obj hlab o'
    rw [h.debt_obj hd, ← ho, ← hko] at this
    exact this
  refine ⟨⟨Function.update L d.kind ((L d.kind).pay t), ?_⟩, by simp [State.loc, State.setObj]⟩
  exact { h with
    books := by
      intro κ'
      by_cases hκ : κ' = d.kind
      · subst hκ
        simp only [Function.update_self, debtOf_update]
        exact (h.books d.kind).pay hdo
      · have hn : debtOf s.debt κ' t = none := by simp [debtOf, hd, Ne.symm hκ]
        simp only [Function.update_of_ne hκ, debtOf_update, Option.bind_none]
        rw [← hn, Function.update_eq_self]
        exact h.books κ'
    counted := by
      refine h.counted.set hm hsame ?_ ?_ ?_
      · intro o' hne
        rw [hcount, if_neg (Ne.symm hne)]
        rfl
      · intro _
        rw [hcount, if_pos rfl]
        exact h2
      · intro hκ
        rw [hcount, if_pos rfl]
        exact hmax hκ
    life := by
      refine h.life.stamped hm hsame.alive ?_
      intro u hu
      have hne : Kind.strong ≠ d.kind := by
        intro hc
        have halive := h.life.alive_of_strong k hk (by rw [hkt, hgk hc.symm]; rfl)
        rw [(h.life.owned_iff u k.obj).mpr ⟨_, hu, by decide⟩] at halive
        cases halive
      exact hsame.other .strong hne
    guards := (h.guards.stamped hst).book (update_wit rfl)
    debts := (h.debts.paid t).book (update_label rfl)
    epochs := h.epochs.stamped hst
    prots := h.prots.stamped hst }

/-- What a thread must know to hand out a unit of an object under guard `i`. -/
structure CanPublish (cfg : Config) (l : Local n) (κ : Kind) (i : Nat) (g : Guard) : Prop where
  guard : l.guards i = some g
  strong : κ = .strong → g.kind = .strong
  noDebt : l.debt = none
  inSection : cfg.backend ≠ .hp → l.localEpoch ≠ none
  covered : cfg.backend = .ibr → g.birthTS ≤ l.endTS ∧ ∀ a, l.localEpoch = some a → a ≤ l.endTS

theorem Held.fresh {pass : Fin n → Option (Pass n)} {deferred : Fin n → List Entry}
    {prot : Fin n → Token → Bool}
    (hn : ∀ u e, e ∈ entries deferred pass u → e.token ≠ k)
    (hp : cfg.backend ≠ .hp → prot t k = true) : Held cfg pass prot t i k := by
  unfold Held
  split
  · rintro r p hpa ⟨e, he, hk⟩
    exact absurd hk (hn r e (mem_entries_of_pass hpa he))
  · rename_i hb
    exact hp hb

theorem guardOf_of {guards : Fin n → Nat → Option Guard} (hg : guards t i = some g)
    (hs : κ = .strong → g.kind = .strong) : guardOf guards κ (t, i) = some g.obj := by
  simp only [guardOf, hg, Option.bind_some]
  rw [if_pos]
  cases κ with
  | weak => exact Or.inl rfl
  | strong => exact Or.inr (hs rfl)

/-- A unit that is not counted is in a location; `prot'` and `cov'` are what the sections
keep then. -/
theorem Inv.published (h : Inv cfg L s) {l : Nat} {prot' : Fin n → Token → Bool}
    {cov' : Fin n → Obj → Bool} (hc : CanPublish cfg (s.loc t) κ i g)
    (hq : s.cell (.loc κ l) = none) (hk : k = ⟨g.obj, κ.type, s.nextId⟩)
    (hprots : Prots cfg s.mem (Function.update s.home k (some (.cell (.loc κ l)))) prot' cov'
      s.localEpoch s.endTS s.deferred s.pass s.guards)
    (hmono : ∀ t k, s.prot t k = true → prot' t k = true)
    (hkeep : cfg.backend ≠ .hp → prot' t k = true)
    (hsh : ∀ u k', prot' u k' = true → s.prot u k' = true ∨ s.shared k' = true ∨ k' = k)
    (himp : ∀ u o, prot' u (implicit o) = true → s.prot u (implicit o) = true) :
    Inv cfg (Function.update L κ ((L κ).publish t k))
      { s with
        cell := Function.update s.cell (.loc κ l) (some k)
        home := Function.update s.home k (some (.cell (.loc κ l)))
        nextId := s.nextId + 1
        shared := Function.update s.shared k true
        prot := prot'
        cov := cov'
        debt := Function.update s.debt t (some ⟨g.obj, κ, i⟩) } := by
  have hg : s.guards t i = some g := hc.guard
  have hnd : s.debt t = none := hc.noDebt
  obtain ⟨k₁, hk₁, hko, hkt⟩ := h.guard_token hg
  have hmem : s.mem g.obj ≠ none := hko ▸ h.counted.present k₁ hk₁
  have hnew : s.home k = none := by rw [hk]; exact h.fresh.new κ
  have hko' : k.obj = g.obj := by rw [hk]
  have hkt' : k.type = κ.type := by rw [hk]
  have hx : some (Home.cell (Place.loc (n := n) κ l)) ≠ none := Option.some_ne_none _
  have hkd : k.type ≠ .dispose := by rw [hkt']; exact κ.type_ne_dispose
  have hnl : ∀ u, s.home k ≠ some (.list u) := by rw [hnew]; intro u hc; cases hc
  have hnv : ∀ u, ¬ Locked s.home s.reading u k := by
    rintro u ⟨κ', i, hc, _⟩
    rw [hnew] at hc
    cases hc
  have hs : ∀ k', s.shared k' = true → Function.update s.shared k true k' = true := by
    intro k' h1
    simp only [Function.update_apply]
    split
    · rfl
    · exact h1
  have hgo : guardOf s.guards κ (t, i) = some k.obj := hko' ▸ guardOf_of hg hc.strong
  have hheld : Held cfg s.pass prot' t i k := Held.fresh (h.lists.not_mem hnl) hkeep
  exact { h with
    places := h.places.add hnew hq hkt'
    lists := h.lists.elsewhere hnl (by intro t hc; cases hc)
    fresh := by rw [hk]; exact h.fresh.mint
    books := by
      intro κ'
      by_cases he : κ' = κ
      · subst he
        simp only [Function.update_self, debtOf_update, Option.bind_some, if_true]
        exact (h.books κ').publish (debtOf_none hnd κ') hgo (fun hc => hc.1 hnew)
          (live_add hx (ofKind_of_type hkt'))
      · have hno : ¬ ofKind κ' k := by
          cases κ <;> cases κ' <;> simp_all [ofKind, Kind.type]
        simp only [Function.update_of_ne he, debtOf_update, Option.bind_some, if_neg (Ne.symm he)]
        rw [← debtOf_none hnd κ', Function.update_eq_self]
        exact (h.books κ').congr (live_other hno)
    counted := (h.counted.locate (hko'.symm ▸ hmem)).book (update_count rfl)
    life := by
      refine h.life.add hnew hkd ?_ ?_
      · intro hty
        rw [hko', ← hko]
        refine h.life.alive_of_strong k₁ hk₁ ?_
        cases κ with
        | strong => rw [hkt, hc.strong rfl]; rfl
        | weak => rw [hkt'] at hty; cases hty
      · rw [hko', ← hko]
        exact fun u st hu => h.not_deleting hk₁ (hkt ▸ g.kind.type_ne_dispose) u st hu
    guards := (h.guards.relocate hkd hnv hs hmono).book (update_wit rfl)
    debts := by
      have hold := h.debts.mono hs hmono
      constructor
      · intro u d hd
        by_cases hu : u = t
        · subst hu
          simp only [Function.update_self, Option.some.injEq] at hd
          subst hd
          exact ⟨g, hg, rfl, hc.strong⟩
        · simp only [Function.update_of_ne hu] at hd
          exact hold.guard u d hd
      · intro u d hd
        by_cases hu : u = t
        · subst hu
          simp only [Function.update_self, Option.some.injEq] at hd
          subst hd
          simp only [Function.update_self, Ledger.publish]
          exact ⟨hkt', trivial, hheld⟩
        · simp only [Function.update_of_ne hu] at hd
          have hlab : (Function.update L κ ((L κ).publish t k) d.kind).label u =
              (L d.kind).label u := by
            by_cases he : d.kind = κ
            · rw [he, Function.update_self]
              simp only [Ledger.publish, Function.update_of_ne hu]
            · rw [Function.update_of_ne he]
          rw [hlab]
          exact hold.label u d hd
    prots := hprots
    shared := h.shared.enter (by rw [hk]; exact Nat.lt_succ_self _) (Nat.le_succ _)
    protShared := by
      intro u k' hp hd
      rcases hsh u k' hp with h1 | h1 | h1
      · exact hs k' (h.protShared u k' h1 hd)
      · exact hs k' h1
      · rw [h1]; simp
    disposing := h.disposing.mono himp }

/-- A thread's part after its section covers `o`. -/
def Local.cover (cfg : Config) (a : Local n) (o : Obj) : Local n :=
  { a with cov := if cfg.backend = .ibr then Function.update a.cov o true else a.cov }

/-- A pointer to a guarded object is put into a location. -/
theorem Inv.publish (h : Inv cfg L s) {l : Nat} (hc : CanPublish cfg (s.loc t) κ i g)
    (hq : s.cell (.loc κ l) = none) :
    Good cfg (s.publish cfg t κ l i) ∧
      (s.publish cfg t κ l i).loc t =
        { (s.loc t).cover cfg g.obj with debt := some ⟨g.obj, κ, i⟩ } := by
  have hg : s.guards t i = some g := hc.guard
  have hnew : s.home ⟨g.obj, κ.type, s.nextId⟩ = none := h.fresh.new κ
  have hnl : ∀ u, s.home ⟨g.obj, κ.type, s.nextId⟩ ≠ some (.list u) := by
    rw [hnew]; intro u hc; cases hc
  have hx : some (Home.cell (Place.loc (n := n) κ l)) ≠ none := Option.some_ne_none _
  have hnot := h.lists.not_mem hnl
  have hpr : ∀ u k', (s.prot u k' || (k' == ⟨g.obj, κ.type, s.nextId⟩ && s.covers cfg u g.obj)) =
      true ↔ s.prot u k' = true ∨
        (k' = ⟨g.obj, κ.type, s.nextId⟩ ∧ Covers cfg s.localEpoch s.cov u g.obj) := by
    intro u k'
    simp only [Bool.or_eq_true, Bool.and_eq_true, beq_iff_eq, covers_iff]
  have hprots := h.prots.enter hnot hx κ.type_ne_dispose hpr
  by_cases hb : cfg.backend = .ibr
  · obtain ⟨a, ha⟩ := Option.ne_none_iff_exists'.mp (hc.inSection (by rw [hb]; decide))
    obtain ⟨h1, h2⟩ := hc.covered hb
    -- the thread's own section covers the object from now on
    have hcover : Prots cfg s.mem
        (Function.update s.home ⟨g.obj, κ.type, s.nextId⟩ (some (.cell (.loc κ l))))
        (s.publish cfg t κ l i).prot (update₂ s.cov t g.obj true) s.localEpoch s.endTS s.deferred
        s.pass s.guards := by
      refine hprots.cover hb ?_ ?_ (show (⟨g.obj, κ.type, s.nextId⟩ : Token).obj = g.obj from rfl)
        (by simp [inLoc]) ha (h2 a ha) ?_ ?_
      · intro u e he
        rw [Function.update_of_ne (hnot u e he), h.lists.home_eq he]
        rfl
      · intro k' hi
        by_cases he : k' = ⟨g.obj, κ.type, s.nextId⟩
        · rw [he]; exact κ.type_ne_dispose
        · rw [Function.update_of_ne he] at hi
          exact h.places.type_of_inLoc hi
      · intro ob hm
        rw [← h.guards.birth t i g ob hg hm]
        exact h1
      · intro u k'
        simp only [State.publish, hg, hb, if_true, State.cover, State.enter, State.mint,
          Function.update_apply, State.covers]
        by_cases hu : u = t
        · subst hu; simp
        · simp [hu]
    have := h.published hc hq rfl hcover ?_ ?_ ?_ ?_
    · simp only [State.publish, hg, hb, if_true] at this ⊢
      exact ⟨⟨_, this⟩, by
        simp [State.loc, State.cover, State.enter, State.mint, Local.cover, hb, update₂]⟩
    · intro u k' hp
      simp only [State.publish, hg, hb, if_true, State.cover, State.enter, State.mint,
        Function.update_apply]
      split
      · rename_i hu; subst hu; simp [hp]
      · simp [hp]
    · intro _
      simp [State.publish, hg, hb, State.cover, State.enter, State.mint, inLoc]
    · intro u k' hp
      simp only [State.publish, hg, hb, if_true, State.cover, State.enter, State.mint,
        Function.update_apply] at hp
      by_cases he : k' = ⟨g.obj, κ.type, s.nextId⟩
      · exact Or.inr (Or.inr he)
      · have hsi : inLoc (s.home k') = true → s.shared k' = true := fun hi =>
          h.shared.of_exposed k' (h.places.type_of_inLoc hi) (exposed_of_inLoc hi)
        split at hp <;> simp_all
        tauto
    · intro u o hp
      have hne : implicit o ≠ ⟨g.obj, κ.type, s.nextId⟩ := implicit_ne κ.type_ne_dispose o
      have hil : inLoc (s.home (implicit o)) = false := by
        by_contra hc
        exact h.places.type_of_inLoc (by simpa using hc) rfl
      simp only [State.publish, hg, hb, if_true, State.cover, State.enter, State.mint,
        Function.update_apply] at hp
      split at hp <;> simp_all
  · have := h.published hc hq rfl hprots ?_ ?_ ?_ ?_
    · simp only [State.publish, hg, if_neg hb]
      exact ⟨⟨_, this⟩, by simp [State.loc, State.enter, State.mint, Local.cover, hb]⟩
    · intro u k' hp
      simp [hp]
    · intro hne
      refine (hpr t _).mpr (Or.inr ⟨rfl, ?_⟩)
      have := hc.inSection hne
      unfold Covers
      split
      · exact hne ‹_›
      · exact this
      · exact absurd ‹_› hb
    · intro u k' hp
      exact ((hpr u k').mp hp).imp_right fun hc => Or.inr hc.1
    · exact fun u o hp => ((hpr u _).mp hp).resolve_right fun hc =>
        implicit_ne κ.type_ne_dispose o hc.1

end Cdrc.Smr
