import Mathlib.Data.Finset.Card
import Mathlib.Logic.Function.Basic

/-! # Units that are counted late

A resource is kept by units. A counter should say how many units there are, but a unit
may be handed out before it is counted: its holder then has a debt, which it pays by
adding one to the counter. Meanwhile the resource is only kept by units that were
counted, so a debtor must hold a guard, and a guard is good because of some unit, its
witness, which may itself not be counted yet.

A `Ledger` says which unit each debt is for (its label, not necessarily the unit the
debtor handed out) and which unit each guard rests on. The units that are no label are
paid for; the counter is their number. Ages break the circle: a debt is younger than the
guard its debtor holds, and a guard younger than the debt of the unit it rests on. So
from any guard the chain of older debts and guards ends in a paid unit, and the counter
is positive (`Ledger.Valid.exists_paid`).

`G` are guards, `D` debtors, `K` units, `O` resources. -/
namespace Cdrc.Lib.Units

structure Ledger (G D K : Type) where
  paid : Finset K
  wit : G → K
  label : D → K
  guardAge : G → Nat
  debtAge : D → Nat
  now : Nat

namespace Ledger
variable {G D K O : Type}

/-- `live` are the units there are, `guard` the resource each guard in force protects,
and `debt` the guard each debtor holds. -/
structure Valid (L : Ledger G D K) (live : K → Prop) (obj : K → O) (guard : G → Option O)
    (debt : D → Option G) : Prop where
  mem_paid : ∀ k, k ∈ L.paid ↔ live k ∧ ∀ d g, debt d = some g → L.label d ≠ k
  wit_live : ∀ g o, guard g = some o → live (L.wit g) ∧ obj (L.wit g) = o
  label_live : ∀ d g, debt d = some g → live (L.label d) ∧ guard g = some (obj (L.label d))
  label_inj : ∀ d d' g g', debt d = some g → debt d' = some g' → L.label d = L.label d' → d = d'
  guard_older : ∀ d g, debt d = some g → L.guardAge g < L.debtAge d
  debt_older : ∀ g o d g', guard g = some o → debt d = some g' → L.label d = L.wit g →
    L.debtAge d < L.guardAge g
  guardAge_lt : ∀ g o, guard g = some o → L.guardAge g < L.now
  debtAge_lt : ∀ d g, debt d = some g → L.debtAge d < L.now

/-- The paid units of `o`. -/
def count [DecidableEq O] (L : Ledger G D K) (obj : K → O) (o : O) : Nat :=
  (L.paid.filter (obj · = o)).card

/-- No guard rests on `k`. -/
def Unwitnessed (L : Ledger G D K) (guard : G → Option O) (k : K) : Prop :=
  ∀ g o, guard g = some o → L.wit g ≠ k

section Valid
variable {L : Ledger G D K} {live live' : K → Prop} {obj : K → O} {guard : G → Option O}
  {debt : D → Option G} {d : D} {g : G} {o : O} {k x : K}

/-- A resource under a guard has a paid unit; if the guards of the resource rest on
units with `P` only, one with `P`. -/
theorem Valid.exists_paid_of (h : L.Valid live obj guard debt) {P : K → Prop}
    (hP : ∀ g, guard g = some o → P (L.wit g)) (hg : guard g = some o) :
    ∃ k ∈ L.paid, obj k = o ∧ P k := by
  -- the chain of witnesses and labels gets older, so induction is on the guard's age
  induction hn : L.guardAge g using Nat.strong_induction_on generalizing g with
  | _ n ih =>
    obtain ⟨hlive, hobj⟩ := h.wit_live g o hg
    by_cases hp : L.wit g ∈ L.paid
    · exact ⟨_, hp, hobj, hP g hg⟩
    · have hl : ∃ d g', debt d = some g' ∧ L.label d = L.wit g := by
        by_contra hc
        refine hp ((h.mem_paid _).mpr ⟨hlive, fun d g' hd he => hc ⟨d, g', hd, he⟩⟩)
      obtain ⟨d, g', hd, he⟩ := hl
      have hg' : guard g' = some o := by rw [(h.label_live d g' hd).2, he, hobj]
      have h1 := h.guard_older d g' hd
      have h2 := h.debt_older g o d g' hg hd he
      exact ih _ (by omega) hg' rfl

theorem Valid.exists_paid (h : L.Valid live obj guard debt) (hg : guard g = some o) :
    ∃ k ∈ L.paid, obj k = o := by
  obtain ⟨k, hk, ho, _⟩ := h.exists_paid_of (P := fun _ => True) (fun _ _ => trivial) hg
  exact ⟨k, hk, ho⟩

/-- A unit that is not paid has a debtor. -/
theorem Valid.exists_debt (h : L.Valid live obj guard debt) (hk : live k) (hp : k ∉ L.paid) :
    ∃ d g, debt d = some g ∧ L.label d = k := by
  by_contra hc
  exact hp ((h.mem_paid k).mpr ⟨hk, fun d g hd he => hc ⟨d, g, hd, he⟩⟩)

theorem Valid.exists_paid_of_live (h : L.Valid live obj guard debt) (hk : live k) :
    ∃ k' ∈ L.paid, obj k' = obj k := by
  by_cases hp : k ∈ L.paid
  · exact ⟨k, hp, rfl⟩
  · obtain ⟨d, g, hd, he⟩ := h.exists_debt hk hp
    have hg := (h.label_live d g hd).2
    rw [he] at hg
    exact h.exists_paid hg

theorem Valid.live_of_paid (h : L.Valid live obj guard debt) (hk : k ∈ L.paid) : live k :=
  ((h.mem_paid k).mp hk).1

section Count
variable [DecidableEq O]

theorem Valid.count_pos_of_live (h : L.Valid live obj guard debt) (hk : live k) :
    0 < L.count obj (obj k) := by
  obtain ⟨k', hk', ho⟩ := h.exists_paid_of_live hk
  exact Finset.card_pos.mpr ⟨k', Finset.mem_filter.mpr ⟨hk', ho⟩⟩

theorem Valid.not_live_of_count (h : L.Valid live obj guard debt) (hc : L.count obj o = 0)
    (hk : obj k = o) : ¬ live k := by
  intro hl
  have := h.count_pos_of_live hl
  rw [hk] at this
  omega

end Count

/-! ## What happens to units, guards and debts -/

theorem Valid.congr (h : L.Valid live obj guard debt) (hl : ∀ k, live k ↔ live' k) :
    L.Valid live' obj guard debt where
  mem_paid k := by rw [← hl k]; exact h.mem_paid k
  wit_live g o hg := ⟨(hl _).mp (h.wit_live g o hg).1, (h.wit_live g o hg).2⟩
  label_live d g hd := ⟨(hl _).mp (h.label_live d g hd).1, (h.label_live d g hd).2⟩
  label_inj := h.label_inj
  guard_older := h.guard_older
  debt_older := h.debt_older
  guardAge_lt := h.guardAge_lt
  debtAge_lt := h.debtAge_lt

/-- Guards that no debt needs end. -/
theorem Valid.dropGuards (h : L.Valid live obj guard debt) {guard' : G → Option O}
    (hsub : ∀ g o, guard' g = some o → guard g = some o)
    (hkeep : ∀ d g, debt d = some g → guard' g = guard g) :
    L.Valid live obj guard' debt where
  mem_paid := h.mem_paid
  wit_live g o hg := h.wit_live g o (hsub g o hg)
  label_live d g hd := ⟨(h.label_live d g hd).1, (hkeep d g hd).trans (h.label_live d g hd).2⟩
  label_inj := h.label_inj
  guard_older := h.guard_older
  debt_older g o d g' hg := h.debt_older g o d g' (hsub g o hg)
  guardAge_lt g o hg := h.guardAge_lt g o (hsub g o hg)
  debtAge_lt := h.debtAge_lt

def addGuard [DecidableEq G] (L : Ledger G D K) (g : G) (k : K) : Ledger G D K :=
  { L with
    wit := Function.update L.wit g k
    guardAge := Function.update L.guardAge g L.now
    now := L.now + 1 }

/-- A guard that no debt needs starts to rest on the unit `k`. -/
theorem Valid.addGuard [DecidableEq G] (h : L.Valid live obj guard debt) (hfree : ∀ d, debt d ≠ some g)
    (hk : live k) :
    (L.addGuard g k).Valid live obj (Function.update guard g (some (obj k))) debt := by
  have hne : ∀ d g', debt d = some g' → g' ≠ g := by
    rintro d g' hd rfl
    exact hfree d hd
  constructor
  · exact h.mem_paid
  · intro g' o hg
    by_cases he : g' = g
    · subst he
      simp only [Function.update_self, Option.some.injEq] at hg
      subst hg
      simpa [Ledger.addGuard] using hk
    · simp only [Function.update_of_ne he] at hg
      simpa [Ledger.addGuard, Function.update_of_ne he] using h.wit_live g' o hg
  · intro d g' hd
    rw [Function.update_of_ne (hne d g' hd)]
    exact h.label_live d g' hd
  · exact h.label_inj
  · intro d g' hd
    simpa [Ledger.addGuard, Function.update_of_ne (hne d g' hd)] using h.guard_older d g' hd
  · intro g' o d g'' hg hd hl
    by_cases he : g' = g
    · subst he
      simpa [Ledger.addGuard] using h.debtAge_lt d g'' hd
    · simp only [Function.update_of_ne he] at hg
      simp only [Ledger.addGuard, Function.update_of_ne he] at hl ⊢
      exact h.debt_older g' o d g'' hg hd hl
  · intro g' o hg
    by_cases he : g' = g
    · subst he
      simp [Ledger.addGuard]
    · simp only [Function.update_of_ne he] at hg
      have := h.guardAge_lt g' o hg
      simp only [Ledger.addGuard, Function.update_of_ne he]
      omega
  · intro d g' hd
    have := h.debtAge_lt d g' hd
    simp only [Ledger.addGuard]
    omega

def publish [DecidableEq D] (L : Ledger G D K) (d : D) (k : K) : Ledger G D K :=
  { L with
    label := Function.update L.label d k
    debtAge := Function.update L.debtAge d L.now
    now := L.now + 1 }

/-- Under the guard `g` the debtor `d` hands out the new unit `k`. -/
theorem Valid.publish [DecidableEq D] (h : L.Valid live obj guard debt) (hd : debt d = none)
    (hg : guard g = some (obj k)) (hk : ¬ live k) (hl : ∀ k', live' k' ↔ live k' ∨ k' = k) :
    (L.publish d k).Valid live' obj guard (Function.update debt d (some g)) := by
  have hlab : ∀ d' g', debt d' = some g' → d' ≠ d := by
    rintro d' g' hd' rfl
    rw [hd] at hd'
    cases hd'
  have hup : ∀ {d' g'}, Function.update debt d (some g) d' = some g' →
      (d' = d ∧ g' = g) ∨ (d' ≠ d ∧ debt d' = some g') := by
    intro d' g' hd'
    by_cases he : d' = d
    · subst he
      simp only [Function.update_self, Option.some.injEq] at hd'
      exact Or.inl ⟨rfl, hd'.symm⟩
    · rw [Function.update_of_ne he] at hd'
      exact Or.inr ⟨he, hd'⟩
  constructor
  · intro k'
    simp only [Ledger.publish, hl, h.mem_paid]
    constructor
    · rintro ⟨hlk, hn⟩
      refine ⟨Or.inl hlk, fun d' g' hd' => ?_⟩
      rcases hup hd' with ⟨rfl, rfl⟩ | ⟨hne, hd'⟩
      · rw [Function.update_self]
        rintro rfl
        exact hk hlk
      · rw [Function.update_of_ne hne]
        exact hn d' g' hd'
    · rintro ⟨hlk, hn⟩
      have hkk : k' ≠ k := by
        rintro rfl
        exact hn d g (by simp) (by simp)
      refine ⟨hlk.resolve_right hkk, fun d' g' hd' => ?_⟩
      have := hn d' g' (by rw [Function.update_of_ne (hlab d' g' hd')]; exact hd')
      rwa [Function.update_of_ne (hlab d' g' hd')] at this
  · intro g' o hg'
    exact ⟨(hl _).mpr (Or.inl (h.wit_live g' o hg').1), (h.wit_live g' o hg').2⟩
  · intro d' g' hd'
    rcases hup hd' with ⟨rfl, rfl⟩ | ⟨hne, hd'⟩
    · simp only [Ledger.publish, Function.update_self]
      exact ⟨(hl k).mpr (Or.inr rfl), hg⟩
    · simp only [Ledger.publish, Function.update_of_ne hne]
      exact ⟨(hl _).mpr (Or.inl (h.label_live d' g' hd').1), (h.label_live d' g' hd').2⟩
  · intro d₁ d₂ g₁ g₂ h₁ h₂ he
    rcases hup h₁ with ⟨e₁, -⟩ | ⟨e₁, h₁'⟩ <;> rcases hup h₂ with ⟨e₂, -⟩ | ⟨e₂, h₂'⟩
    · rw [e₁, e₂]
    · simp only [Ledger.publish, e₁, Function.update_self, Function.update_of_ne e₂] at he
      exact absurd (he ▸ (h.label_live d₂ g₂ h₂').1) hk
    · simp only [Ledger.publish, e₂, Function.update_self, Function.update_of_ne e₁] at he
      exact absurd (he ▸ (h.label_live d₁ g₁ h₁').1) hk
    · simp only [Ledger.publish, Function.update_of_ne e₁, Function.update_of_ne e₂] at he
      exact h.label_inj d₁ d₂ g₁ g₂ h₁' h₂' he
  · intro d' g' hd'
    rcases hup hd' with ⟨rfl, rfl⟩ | ⟨hne, hd'⟩
    · simpa [Ledger.publish] using h.guardAge_lt g' _ hg
    · simpa [Ledger.publish, Function.update_of_ne hne] using h.guard_older d' g' hd'
  · intro g' o d' g'' hg' hd' he
    rcases hup hd' with ⟨rfl, rfl⟩ | ⟨hne, hd'⟩
    · simp only [Ledger.publish, Function.update_self] at he
      exact absurd (he ▸ (h.wit_live g' o hg').1) hk
    · simp only [Ledger.publish, Function.update_of_ne hne] at he ⊢
      exact h.debt_older g' o d' g'' hg' hd' he
  · intro g' o hg'
    have := h.guardAge_lt g' o hg'
    simp only [Ledger.publish]
    omega
  · intro d' g' hd'
    rcases hup hd' with ⟨rfl, rfl⟩ | ⟨hne, hd'⟩
    · simp [Ledger.publish]
    · have := h.debtAge_lt d' g' hd'
      simp only [Ledger.publish, Function.update_of_ne hne]
      omega

def pay [DecidableEq K] (L : Ledger G D K) (d : D) : Ledger G D K :=
  { L with paid := insert (L.label d) L.paid }

/-- The debtor `d` counts its unit. -/
theorem Valid.pay [DecidableEq D] [DecidableEq K] (h : L.Valid live obj guard debt) (hd : debt d = some g) :
    (L.pay d).Valid live obj guard (Function.update debt d none) := by
  have hup : ∀ {d' g'}, Function.update debt d none d' = some g' → d' ≠ d ∧ debt d' = some g' := by
    intro d' g' hd'
    by_cases he : d' = d
    · subst he
      simp at hd'
    · rw [Function.update_of_ne he] at hd'
      exact ⟨he, hd'⟩
  constructor
  · intro k
    simp only [Ledger.pay, Finset.mem_insert, h.mem_paid]
    constructor
    · rintro (rfl | ⟨hl, hn⟩)
      · refine ⟨(h.label_live d g hd).1, fun d' g' hd' he => ?_⟩
        obtain ⟨hne, hd'⟩ := hup hd'
        exact hne (h.label_inj d' d g' g hd' hd he)
      · exact ⟨hl, fun d' g' hd' => hn d' g' (hup hd').2⟩
    · rintro ⟨hl, hn⟩
      by_cases he : k = L.label d
      · exact Or.inl he
      · refine Or.inr ⟨hl, fun d' g' hd' hk => ?_⟩
        by_cases hdd : d' = d
        · subst hdd
          exact he hk.symm
        · exact hn d' g' (by rw [Function.update_of_ne hdd]; exact hd') hk
  · exact h.wit_live
  · exact fun d' g' hd' => h.label_live d' g' (hup hd').2
  · exact fun d₁ d₂ g₁ g₂ h₁ h₂ => h.label_inj d₁ d₂ g₁ g₂ (hup h₁).2 (hup h₂).2
  · exact fun d' g' hd' => h.guard_older d' g' (hup hd').2
  · exact fun g' o d' g'' hg' hd' => h.debt_older g' o d' g'' hg' (hup hd').2
  · exact h.guardAge_lt
  · exact fun d' g' hd' => h.debtAge_lt d' g' (hup hd').2

def mint [DecidableEq K] (L : Ledger G D K) (k : K) : Ledger G D K := { L with paid := insert k L.paid }

/-- A new unit that is counted at once. -/
theorem Valid.mint [DecidableEq K] (h : L.Valid live obj guard debt) (hk : ¬ live k)
    (hl : ∀ k', live' k' ↔ live k' ∨ k' = k) : (L.mint k).Valid live' obj guard debt := by
  constructor
  · intro k'
    simp only [Ledger.mint, Finset.mem_insert, h.mem_paid, hl]
    constructor
    · rintro (rfl | ⟨hlk, hn⟩)
      · exact ⟨Or.inr rfl, fun d g hd he => hk (he ▸ (h.label_live d g hd).1)⟩
      · exact ⟨Or.inl hlk, hn⟩
    · rintro ⟨hlk | rfl, hn⟩
      · exact Or.inr ⟨hlk, hn⟩
      · exact Or.inl rfl
  · exact fun g o hg => ⟨(hl _).mpr (Or.inl (h.wit_live g o hg).1), (h.wit_live g o hg).2⟩
  · exact fun d g hd => ⟨(hl _).mpr (Or.inl (h.label_live d g hd).1), (h.label_live d g hd).2⟩
  · exact h.label_inj
  · exact h.guard_older
  · exact h.debt_older
  · exact h.guardAge_lt
  · exact h.debtAge_lt

def consume [DecidableEq K] (L : Ledger G D K) (k : K) : Ledger G D K := { L with paid := L.paid.erase k }

/-- A paid unit that no guard rests on ends. -/
theorem Valid.consume [DecidableEq K] (h : L.Valid live obj guard debt) (hk : k ∈ L.paid)
    (hw : L.Unwitnessed guard k) (hl : ∀ k', live' k' ↔ live k' ∧ k' ≠ k) :
    (L.consume k).Valid live' obj guard debt := by
  constructor
  · intro k'
    simp only [Ledger.consume, Finset.mem_erase, h.mem_paid, hl]
    tauto
  · exact fun g o hg => ⟨(hl _).mpr ⟨(h.wit_live g o hg).1, hw g o hg⟩, (h.wit_live g o hg).2⟩
  · exact fun d g hd => ⟨(hl _).mpr ⟨(h.label_live d g hd).1, ((h.mem_paid k).mp hk).2 d g hd⟩,
      (h.label_live d g hd).2⟩
  · exact h.label_inj
  · exact h.guard_older
  · exact h.debt_older
  · exact h.guardAge_lt
  · exact h.debtAge_lt

/-! ## The same units under other labels and witnesses -/

def rewit [DecidableEq K] (L : Ledger G D K) (x k : K) : Ledger G D K :=
  { L with wit := fun g => if L.wit g = x then k else L.wit g }

/-- The guards that rest on `x` can rest on any paid unit of the same resource. -/
theorem Valid.rewit [DecidableEq K] (h : L.Valid live obj guard debt) (hk : k ∈ L.paid) (ho : obj k = obj x) :
    (L.rewit x k).Valid live obj guard debt := by
  constructor
  · exact h.mem_paid
  · intro g o hg
    simp only [Ledger.rewit]
    split
    · rename_i he
      exact ⟨h.live_of_paid hk, by rw [ho, ← he]; exact (h.wit_live g o hg).2⟩
    · exact h.wit_live g o hg
  · exact h.label_live
  · exact h.label_inj
  · exact h.guard_older
  · intro g o d g' hg hd he
    simp only [Ledger.rewit] at he ⊢
    split at he
    · exact absurd he (((h.mem_paid k).mp hk).2 d g' hd)
    · exact h.debt_older g o d g' hg hd he
  · exact h.guardAge_lt
  · exact h.debtAge_lt

theorem rewit_unwitnessed [DecidableEq K] (hne : k ≠ x) : (L.rewit x k).Unwitnessed guard x := by
  intro g o _
  simp only [Ledger.rewit]
  split
  · exact hne
  · assumption

def relabel [DecidableEq D] [DecidableEq K] (L : Ledger G D K) (d : D) (k : K) : Ledger G D K :=
  { L with
    paid := insert (L.label d) (L.paid.erase k)
    label := Function.update L.label d k }

/-- A debt can be for any paid unit of the same resource that no guard rests on. -/
theorem Valid.relabel [DecidableEq D] [DecidableEq K] (h : L.Valid live obj guard debt) (hd : debt d = some g)
    (hk : k ∈ L.paid) (hw : L.Unwitnessed guard k) (ho : obj k = obj (L.label d)) :
    (L.relabel d k).Valid live obj guard debt := by
  have hkp := (h.mem_paid k).mp hk
  constructor
  · intro k'
    simp only [Ledger.relabel, Finset.mem_insert, Finset.mem_erase, h.mem_paid]
    constructor
    · rintro (rfl | ⟨hne, hl, hn⟩)
      · refine ⟨(h.label_live d g hd).1, fun d' g' hd' he => ?_⟩
        by_cases hdd : d' = d
        · subst hdd
          rw [Function.update_self] at he
          exact hkp.2 d' g' hd' he.symm
        · rw [Function.update_of_ne hdd] at he
          exact hdd (h.label_inj d' d g' g hd' hd he)
      · refine ⟨hl, fun d' g' hd' he => ?_⟩
        by_cases hdd : d' = d
        · subst hdd
          rw [Function.update_self] at he
          exact hne he.symm
        · rw [Function.update_of_ne hdd] at he
          exact hn d' g' hd' he
    · rintro ⟨hl, hn⟩
      by_cases he : k' = L.label d
      · exact Or.inl he
      · refine Or.inr ⟨?_, hl, fun d' g' hd' hk' => ?_⟩
        · rintro rfl
          exact hn d g hd (by simp)
        · have hdd : d' ≠ d := by
            rintro rfl
            exact he hk'.symm
          exact hn d' g' hd' (by rw [Function.update_of_ne hdd]; exact hk')
  · exact h.wit_live
  · intro d' g' hd'
    by_cases hdd : d' = d
    · subst hdd
      simp only [Ledger.relabel, Function.update_self]
      exact ⟨hkp.1, by rw [ho]; exact (h.label_live d' g' hd').2⟩
    · simp only [Ledger.relabel, Function.update_of_ne hdd]
      exact h.label_live d' g' hd'
  · intro d₁ d₂ g₁ g₂ h₁ h₂ he
    by_cases e₁ : d₁ = d <;> by_cases e₂ : d₂ = d
    · rw [e₁, e₂]
    · simp only [Ledger.relabel, e₁, Function.update_self, Function.update_of_ne e₂] at he
      exact absurd he.symm (hkp.2 d₂ g₂ h₂)
    · simp only [Ledger.relabel, e₂, Function.update_self, Function.update_of_ne e₁] at he
      exact absurd he (hkp.2 d₁ g₁ h₁)
    · simp only [Ledger.relabel, Function.update_of_ne e₁, Function.update_of_ne e₂] at he
      exact h.label_inj d₁ d₂ g₁ g₂ h₁ h₂ he
  · exact h.guard_older
  · intro g' o d' g'' hg hd' he
    by_cases hdd : d' = d
    · subst hdd
      simp only [Ledger.relabel, Function.update_self] at he
      exact absurd he.symm (hw g' o hg)
    · simp only [Ledger.relabel, Function.update_of_ne hdd] at he
      exact h.debt_older g' o d' g'' hg hd' he
  · exact h.guardAge_lt
  · exact h.debtAge_lt

/-! ## The counter -/

section Count
variable [DecidableEq O] [DecidableEq K]

theorem count_insert (obj : K → O) {p : Finset K} (hk : k ∉ p) (o : O) :
    ((insert k p).filter (obj · = o)).card =
      (p.filter (obj · = o)).card + if obj k = o then 1 else 0 := by
  rw [Finset.filter_insert]
  split
  · rw [Finset.card_insert_of_notMem (fun hm => hk (Finset.mem_filter.mp hm).1)]
  · simp

theorem count_erase (obj : K → O) {p : Finset K} (hk : k ∈ p) (o : O) :
    ((p.erase k).filter (obj · = o)).card + (if obj k = o then 1 else 0) =
      (p.filter (obj · = o)).card := by
  have := count_insert obj (Finset.notMem_erase k p) o
  rw [Finset.insert_erase hk] at this
  exact this.symm

/-- Changing the label of a debt does not change the counter. -/
theorem Valid.relabel_count [DecidableEq D] (h : L.Valid live obj guard debt) (hd : debt d = some g)
    (hk : k ∈ L.paid) (ho : obj k = obj (L.label d)) (o : O) :
    (L.relabel d k).count obj o = L.count obj o := by
  have hx : L.label d ∉ L.paid := fun hm => ((h.mem_paid _).mp hm).2 d g hd rfl
  have h1 := count_erase obj hk o
  have h2 := count_insert obj (p := L.paid.erase k)
    (fun hm => hx (Finset.mem_of_mem_erase hm)) o
  simp only [count, Ledger.relabel]
  rw [h2, ← ho, h1]

end Count

end Valid

end Ledger

end Cdrc.Lib.Units
