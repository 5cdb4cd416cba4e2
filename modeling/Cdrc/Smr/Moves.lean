import Cdrc.Smr.Tokens

/-! # Reference counting over a memory manager: pointers that are moved -/
namespace Cdrc.Smr
open Cdrc.StickyCounter Cdrc.CountedObject Cdrc.Lib.Threads Cdrc.Lib.Units

variable {n : Nat} {cfg : Config} {L : Kind → Book n} {s : State n} {k : Token} {p q : Place n}

theorem not_locked {reading : Fin n → Option (Kind × Nat)} (hk : s.home k = some (.cell p))
    (hr : ∀ κ i, p = .var κ i → ∀ t, reading t ≠ some (κ, i)) (t : Fin n) :
    ¬ Locked s.home reading t k := by
  rintro ⟨κ, i, h1, h2⟩
  rw [hk] at h1
  cases h1
  exact hr κ i rfl t h2

/-- A pointer goes to a cell that is not a location. -/
theorem Inv.move (h : Inv cfg L s) (hp : s.cell p = some k) (hq : s.cell q = none)
    (hf : Fits q k) (hl : inLoc (some (.cell q)) = false)
    (hr : ∀ κ i, p = .var κ i → s.unread κ i) (hh : ∀ u, q = .hand u → s.shared k = true)
    (hv : ∀ κ i, q = .var κ i → s.shared k = true → cfg.exchanges = true) :
    Inv cfg L (s.move p q) := by
  have hk := h.places.home_eq hp
  have hd := h.places.type_ne_dispose hp
  have hkn : s.home k ≠ none := by rw [hk]; exact Option.some_ne_none _
  have hx : some (Home.cell q) ≠ none := Option.some_ne_none _
  have hx' : k.type ≠ .dispose → exposed (some (Home.cell q)) = true → s.shared k = true := by
    intro _ he
    cases q with
    | hand u => exact hh u rfl
    | loc κ l => cases hl
    | var κ i => cases he
    | desired u => cases he
  simp only [State.move, hp]
  exact { h with
    places := h.places.relocate hp hq hf
    lists := h.lists.elsewhere (by rw [hk]; intro t hc; cases hc) (by intro t hc; cases hc)
    fresh := h.fresh.set hkn
    books := fun κ => (h.books κ).congr (live_relocate hkn hx κ)
    counted := h.counted.relocate hkn
    life := h.life.relocate hkn hd hx (by intro hc; cases hc) (by intro t hc; cases hc)
    guards := h.guards.relocate hd (not_locked hk hr) (fun _ => id) (fun _ _ => id)
    prots := h.prots.relocate hx hl
    shared := h.shared.relocate hx' (by rintro κ i ⟨⟩; exact hv κ i rfl) }

theorem covers_iff {u : Fin n} {o : Obj} :
    s.covers cfg u o = true ↔ Covers cfg s.localEpoch s.cov u o := by
  unfold State.covers Covers
  cases cfg.backend with
  | hp => simp
  | ebr => simp [Option.isSome_iff_ne_none]
  | ibr => rfl

/-- A pointer goes into a location. -/
theorem Inv.putIn (h : Inv cfg L s) {κ : Kind} {l : Nat} (hp : s.cell p = some k)
    (hq : s.cell (.loc κ l) = none) (hf : k.type = κ.type)
    (hr : ∀ κ i, p = .var κ i → s.unread κ i) : Inv cfg L (s.putIn cfg p κ l) := by
  have hk := h.places.home_eq hp
  have hd := h.places.type_ne_dispose hp
  have hkn : s.home k ≠ none := by rw [hk]; exact Option.some_ne_none _
  have hx : some (Home.cell (Place.loc (n := n) κ l)) ≠ none := Option.some_ne_none _
  have hnl : ∀ t, s.home k ≠ some (.list t) := by rw [hk]; intro t hc; cases hc
  have hs : ∀ k', s.shared k' = true → Function.update s.shared k true k' = true := by
    intro k' h1
    simp only [Function.update_apply]
    split
    · rfl
    · exact h1
  have hpr : ∀ u k', (s.prot u k' || (k' == k && s.covers cfg u k.obj)) = true ↔
      s.prot u k' = true ∨ (k' = k ∧ Covers cfg s.localEpoch s.cov u k.obj) := by
    intro u k'
    simp only [Bool.or_eq_true, Bool.and_eq_true, beq_iff_eq, covers_iff]
  have hpr' : ∀ u k', s.prot u k' = true →
      (s.prot u k' || (k' == k && s.covers cfg u k.obj)) = true := fun u k' h1 => by rw [h1]; rfl
  simp only [State.putIn, hp, State.move, State.enter]
  exact { h with
    places := h.places.relocate hp hq hf
    lists := h.lists.elsewhere hnl (by intro t hc; cases hc)
    fresh := h.fresh.set hkn
    books := fun κ => (h.books κ).congr (live_relocate hkn hx κ)
    counted := h.counted.relocate hkn
    life := h.life.relocate hkn hd hx (by intro hc; cases hc) (by intro t hc; cases hc)
    guards := h.guards.relocate hd (not_locked hk hr) hs hpr'
    debts := h.debts.mono hs hpr'
    prots := h.prots.enter (h.lists.not_mem hnl) hx hd hpr
    shared := h.shared.enter (h.fresh.id_lt k hkn hd) (Nat.le_refl _)
    protShared := h.protShared.enter fun u k' hk' => ((hpr u k').mp hk').imp_right (·.1)
    disposing := h.disposing.mono fun u o hk' =>
      ((hpr u _).mp hk').resolve_right fun hc => implicit_ne hd o hc.1 }

end Cdrc.Smr
