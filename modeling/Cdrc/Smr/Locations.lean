import Cdrc.Smr.Increments

/-! # Reference counting over a memory manager: locations

`exchange` and `compare_exchange` take the pointer out of a location and put another
one in. -/
namespace Cdrc.Smr
open Cdrc.StickyCounter Cdrc.CountedObject Cdrc.Lib.Threads Cdrc.Lib.Units

variable {n : Nat} {cfg : Config} {L : Kind → Book n} {s s' : State n} {κ : Kind} {l : Nat}
  {t : Fin n}

/-- What a thread must know to put `new` into a location. -/
def NewOk (cfg : Config) (a : Local n) (κ : Kind) : New → Prop
  | .null => True
  | .desired => ∀ k, a.desired = some k → k.type = κ.type
  | .var κ' _ => κ' = κ
  | .guard i => a.debt = none ∧ ∀ g, a.guards i = some g → CanPublish cfg a κ i g

/-- A thread's part after it has put `new` into a location. -/
def Local.install (cfg : Config) (a : Local n) (κ : Kind) : New → Local n
  | .null | .var _ _ => a
  | .desired => { a with desired := none }
  | .guard i =>
    match a.guards i with
    | none => a
    | some g => { a.cover cfg g.obj with debt := some ⟨g.obj, κ, i⟩ }

theorem Inv.take (h : Inv cfg L s) (hh : s.cell (.hand t) = none) :
    Inv cfg L (s.move (.loc κ l) (.hand t)) ∧
      (s.move (.loc κ l) (.hand t)).cell (.loc κ l) = none ∧
      (s.move (.loc κ l) (.hand t)).loc t = { s.loc t with hand := s.cell (.loc κ l) } ∧
      (∀ k, s.cell (.loc κ l) = some k → k.type = κ.type) := by
  cases hc : s.cell (.loc κ l) with
  | none =>
    simp only [State.move, hc]
    exact ⟨h, trivial, by simp [State.loc, hh], by simp⟩
  | some k =>
    have hf := h.places.fits _ _ hc
    have hs : s.shared k = true := h.shared.of_exposed k (h.places.type_ne_dispose hc)
      (by rw [h.places.home_eq hc]; rfl)
    refine ⟨h.move hc hh (h.places.type_ne_dispose hc) rfl (by rintro _ _ ⟨⟩) (fun _ _ => hs)
      (by rintro _ _ ⟨⟩), ?_, ?_, ?_⟩
    · simp [State.move, hc]
    · simp [State.move, hc, State.loc]
    · rintro _ ⟨⟩; exact hf

theorem Inv.install (h : Inv cfg L s) {new : New} (hok : NewOk cfg (s.loc t) κ new)
    (hm : s.movable new) (hq : s.cell (.loc κ l) = none) :
    Good cfg (s.install cfg t κ l new) ∧
      (s.install cfg t κ l new).loc t = (s.loc t).install cfg κ new := by
  cases new with
  | null => exact ⟨⟨L, h⟩, rfl⟩
  | desired =>
    cases hd : s.cell (.desired t) with
    | none =>
      simp only [State.install, State.putIn, hd]
      exact ⟨⟨L, h⟩, by simp [Local.install, State.loc, hd]⟩
    | some k =>
      refine ⟨⟨L, h.putIn hd hq (hok k hd) (by rintro _ _ ⟨⟩)⟩, ?_⟩
      simp [State.install, State.putIn, hd, State.move, State.enter, Local.install, State.loc]
  | var κ' i =>
    cases hd : s.cell (.var κ' i) with
    | none =>
      simp only [State.install, State.putIn, hd]
      exact ⟨⟨L, h⟩, rfl⟩
    | some k =>
      have hf : k.type = κ.type := by
        have := h.places.fits _ _ hd
        simp only [Fits] at this
        rw [this, show κ' = κ from hok]
      refine ⟨⟨L, h.putIn hd hq hf (by rintro _ _ ⟨⟩; exact hm)⟩, ?_⟩
      simp [State.install, State.putIn, hd, State.move, State.enter, Local.install, State.loc]
  | guard i =>
    cases hg : s.guards t i with
    | none =>
      simp only [State.install, State.publish, hg]
      exact ⟨⟨L, h⟩, by simp [Local.install, State.loc, hg]⟩
    | some g =>
      obtain ⟨h1, h2⟩ := h.publish (hok.2 g hg) hq
      refine ⟨h1, ?_⟩
      simp only [State.install, h2]
      simp [Local.install, State.loc, hg]

/-- The pointer of a location is swapped. -/
theorem Inv.replace (h : Inv cfg L s) {new : New} (hh : s.cell (.hand t) = none)
    (hok : NewOk cfg (s.loc t) κ new) (hm : s.movable new) :
    Good cfg (s.replace cfg t κ l new) ∧
      (s.replace cfg t κ l new).loc t =
        { (s.loc t).install cfg κ new with hand := s.cell (.loc κ l) } ∧
      (∀ k, s.cell (.loc κ l) = some k → k.type = κ.type) := by
  obtain ⟨h1, h2, h3, h4⟩ := h.take (κ := κ) (l := l) hh
  have hr : (s.move (.loc κ l) (.hand t)).reading = s.reading := by
    simp only [State.move]
    split <;> rfl
  have hok' : NewOk cfg ((s.move (.loc κ l) (.hand t)).loc t) κ new := by
    rw [h3]
    cases new with
    | null => trivial
    | desired => exact hok
    | var κ' i => exact hok
    | guard i => exact ⟨hok.1, fun g hg => { hok.2 g hg with }⟩
  have hm' : (s.move (.loc κ l) (.hand t)).movable new := by
    cases new with
    | var κ' i =>
      simp only [State.movable, State.unread, hr]
      exact hm
    | _ => trivial
  obtain ⟨h5, h6⟩ := h1.install hok' hm' h2
  refine ⟨h5, ?_, h4⟩
  rw [State.replace, h6, h3]
  cases new with
  | guard i =>
    simp only [Local.install]
    split <;> rfl
  | _ => rfl

theorem Inv.exchange (h : Inv cfg L s) {new : New} {c : Choice} {r : Bool}
    (hh : s.cell (.hand t) = none) (hok : NewOk cfg (s.loc t) κ new) (hm : s.movable new)
    (he : s.exchange cfg t c κ l new = some (r, s')) :
    Good cfg s' ∧ (((∃ i, new = .guard i) ∧ r = false ∧ s'.loc t = s.loc t) ∨
      ∃ x, s'.loc t = { (s.loc t).install cfg κ new with hand := x } ∧ r = x.isSome ∧
        ∀ k, x = some k → k.type = κ.type) := by
  obtain ⟨h1, h2, h3⟩ := h.replace (l := l) hh hok hm
  have hrep : r = (s.cell (.loc κ l)).isSome → s' = s.replace cfg t κ l new →
      Good cfg s' ∧ (((∃ i, new = .guard i) ∧ r = false ∧ s'.loc t = s.loc t) ∨
        ∃ x, s'.loc t = { (s.loc t).install cfg κ new with hand := x } ∧ r = x.isSome ∧
          ∀ k, x = some k → k.type = κ.type) := by
    intro hr hs
    rw [hr, hs]
    exact ⟨h1, Or.inr ⟨_, h2, rfl, h3⟩⟩
  unfold State.exchange at he
  split at he
  · split at he
    · cases he
      exact ⟨⟨L, h⟩, Or.inl ⟨⟨_, rfl⟩, rfl, rfl⟩⟩
    · cases he
      exact hrep rfl rfl
  · cases he
    exact hrep rfl rfl

theorem Inv.cas (h : Inv cfg L s) {new : New} {c : Choice} {expected : Option Obj}
    {r : Bool × Option Obj} (hh : s.cell (.hand t) = none) (hok : NewOk cfg (s.loc t) κ new)
    (he : s.cas cfg t c κ l expected new = some (r, s')) :
    Good cfg s' ∧ ((r.1 = false ∧ s'.loc t = s.loc t) ∨
      (r.1 = true ∧ ∃ x, s'.loc t = { (s.loc t).install cfg κ new with hand := x } ∧
        x.map (·.obj) = expected ∧ ∀ k, x = some k → k.type = κ.type)) := by
  unfold State.cas at he
  split at he
  swap
  · cases he
  rename_i hm
  split at he
  · rename_i hc
    cases he
    obtain ⟨h1, h2, h3⟩ := h.replace (l := l) hh hok hm
    exact ⟨h1, Or.inr ⟨rfl, _, h2, hc.1, h3⟩⟩
  · cases he
    exact ⟨⟨L, h⟩, Or.inl ⟨rfl, rfl⟩⟩

/-- A location is destroyed. -/
theorem Inv.destroyLoc (h : Inv cfg L s) {r : Bool} (hh : s.cell (.hand t) = none)
    (he : s.destroyLoc t κ l = some (r, s')) :
    Good cfg s' ∧ ∃ x, s'.loc t = { s.loc t with hand := x } ∧ r = x.isSome := by
  unfold State.destroyLoc at he
  split at he
  swap
  · cases he
  split at he
  · cases he
    refine ⟨⟨L, h⟩, none, ?_, rfl⟩
    simp [State.loc, hh]
  · cases he
    obtain ⟨h1, _, h3, _⟩ := h.take (κ := κ) (l := l) hh
    exact ⟨⟨L, { h1 with }⟩, _, h3, rfl⟩

/-- What a thread must know to move a pointer. -/
def SpotsOk (cfg : Config) (a : Local n) : Spot → Spot → Prop
  | .var _ _, .desired => True
  | .var κ _, .var κ' _ => κ = κ'
  | .hand, .var κ _ => cfg.exchanges = true ∧ ∀ k, a.hand = some k → k.type = κ.type
  | _, _ => False

/-- A thread's part after a pointer was moved. -/
def Local.moved (a : Local n) (x : Option Token) : Spot → Spot → Local n
  | .var _ _, .desired => { a with desired := x }
  | .hand, _ => { a with hand := none }
  | _, _ => a

theorem Inv.moveSpot (h : Inv cfg L s) {p q : Spot} {r : Bool} (hok : SpotsOk cfg (s.loc t) p q)
    (he : s.moveSpot t p q = some (r, s')) :
    Good cfg s' ∧ ∃ x, s'.loc t = (s.loc t).moved x p q ∧
      ∀ κ i k, p = .var κ i → x = some k → k.type = κ.type := by
  unfold State.moveSpot at he
  split at he
  swap
  · cases he
  rename_i hm
  cases he
  cases hc : s.cell (p.place t) with
  | none =>
    simp only [State.move, hc]
    refine ⟨⟨L, h⟩, none, ?_, by simp⟩
    cases p <;> cases q <;> simp_all [SpotsOk, Local.moved, State.loc, Spot.place]
  | some k =>
    have hf := h.places.fits _ _ hc
    refine ⟨⟨L, h.move hc hm.2 ?_ ?_ ?_ ?_ ?_⟩, some k, ?_, ?_⟩
    · cases p <;> cases q <;>
        simp_all only [SpotsOk, Spot.place, Fits, State.loc, Option.some.injEq]
      exact Kind.type_ne_dispose _
    · cases p <;> cases q <;> simp_all [SpotsOk, Spot.place, inLoc]
    · rintro κ i hp
      cases p with
      | var κ' i' => cases hp; exact hm.1
      | _ => cases hp
    · rintro u hq
      cases p <;> cases q <;> simp_all [SpotsOk, Spot.place]
    · rintro κ i hq hs
      cases p with
      | var κ' i' => exact h.shared.exchanged κ' i' k (h.places.home_eq hc) hs
      | hand =>
        cases q with
        | var _ _ => exact hok.1
        | _ => exact hok.elim
      | desired => cases q <;> exact hok.elim
    · cases p <;> cases q <;>
        simp_all [SpotsOk, Local.moved, State.loc, Spot.place, State.move]
    · rintro κ i k' rfl ⟨⟩
      exact hf

end Cdrc.Smr
