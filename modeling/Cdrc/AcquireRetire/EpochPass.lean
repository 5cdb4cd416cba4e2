import Cdrc.AcquireRetire.Pass

/-! # One pass of the epoch backends

`acquire_retire_ebr` takes the least announced epoch and ejects what was retired before it;
`acquire_retire_ibr` takes the announced intervals and ejects what was not alive in any of them. What is
protected does not change in the course of the pass, so it keeps exactly the entries that some
announcement protects, in their order, and what an `eject` retires meanwhile goes before them. -/
namespace Cdrc.AcquireRetire.Retire
open Cdrc.Lib.Runs Cdrc.CountedObject

variable {α : Type}

/-! ## What is protected -/

/-- A thread announces an epoch not later than the one in which the entry was retired; or an interval that
meets the one from the birth of the object to its being retired. -/
def Scan.protects : Scan α → Entry α → Bool
  | .slots _, _ => false
  | .epochs l, x => l.any fun e => e ≤ x.retireTS
  | .intervals l, x => l.any fun (startTS, endTS) =>
    startTS ≤ endTS && startTS ≤ x.retireTS && x.birthTS ≤ endTS

/-- The scan is one of `acquire_retire_ebr` or `acquire_retire_ibr`. -/
def Scan.ofEpochs : Scan α → Bool
  | .slots _ => false
  | _ => true

variable [DecidableEq α]

/-- The predicate of the pass ejects what is not protected, and stays as it is. -/
theorem ejects_eq {scan : Scan α} (he : scan.ofEpochs = true) (x : Entry α) :
    scan.announced.ejects x = (!scan.protects x, scan.announced) := by
  cases scan with
  | slots l => cases he
  | epochs l =>
    cases hmin : l.min? with
    | none =>
      obtain rfl : l = [] := List.min?_eq_none_iff.mp hmin
      rfl
    | some e =>
      obtain ⟨hmem, hle⟩ := List.min?_eq_some_iff.mp hmin
      have heject : decide (x.retireTS < e) = !(l.any fun e => e ≤ x.retireTS) := by
        rw [Bool.eq_iff_iff]
        simp only [decide_eq_true_eq, Bool.not_eq_true', List.any_eq_false, not_le]
        exact ⟨fun h b hb => lt_of_lt_of_le h (hle b hb), fun h => h e hmem⟩
      simp only [Scan.announced, hmin, Announced.ejects, Scan.protects, heject]
  | intervals l =>
    simp only [Scan.announced, Announced.ejects, Scan.protects, List.any_filter, Bool.not_or, ← decide_not,
      not_lt, Bool.and_assoc]

/-- So `remove_if` keeps the protected entries. -/
theorem sieve_ofEpochs {scan : Scan α} (he : scan.ofEpochs = true) (L : List (Entry α)) :
    scan.announced.sieve L = (L.filter fun x => !scan.protects x, L.filter scan.protects) := by
  induction L with
  | nil => rfl
  | cons x L ih =>
    have hx := ejects_eq he x
    cases hp : scan.protects x with
    | false =>
      rw [hp] at hx
      rw [sieve_eject hx, ih]
      simp [hp]
    | true =>
      rw [hp] at hx
      rw [sieve_keep hx, ih]
      simp [hp]

/-- One pass over the list, from any state in which it begins, whatever is announced and whatever its ejects
retire. The entries that an announcement protects are kept, in order and behind what was retired meanwhile; the
others are ejected, each once and in order. The pass comes to its end when the ejects return. -/
theorem epochPass_spec (cfg : Config) {s s₀ : State α} {fs : List (Frame α)} {scan : Scan α}
    (he : scan.ofEpochs = true) (hs : s.stack = .work :: fs) (hp : s.inProgress = false)
    (hw : cfg.threshold ≤ s.work) (hn : s.deferred ≠ []) (hb : next cfg s (.run scan) = some s₀) :
    (∀ s₁ s₂ kept announced scan',
      (machine α cfg).During (InPassOf s.retired.length (.work :: fs)) s₀ s₁ →
      s₁.stack = .pass [] kept announced s.retired.length :: .work :: fs →
      next cfg s₁ (.run scan') = some s₂ →
        s₂.ejected = s.ejected ++
          (s.deferred.filter fun x => !scan.protects x).map (fun x => (x, s.retired.length)) ∧
        (∃ retired, s₂.retired = s.retired ++ retired ∧
          s₂.deferred = retired ++ s.deferred.filter scan.protects) ∧
        s₂.stack = .work :: fs ∧ s₂.inProgress = false) ∧
    ∀ s₁ scan', (machine α cfg).During (InPassOf s.retired.length (.work :: fs)) s₀ s₁ →
      ∃ k s₂ kept announced, (machine α cfg).exec (List.replicate k (.run scan')) s₁ = some s₂ ∧
        s₂.stack = .pass [] kept announced s.retired.length :: .work :: fs := by
  obtain ⟨hspec, hends⟩ := pass_run hs hp hw hn hb
  refine ⟨fun s₁ s₂ kept announced scan' hr hs₁ hn₁ => ?_, hends⟩
  obtain ⟨hkept, hejected, hretired, hstack, hprogress⟩ := hspec s₁ s₂ kept announced scan' hr hs₁ hn₁
  rw [sieve_ofEpochs he] at hkept hejected
  rw [hkept] at hretired
  exact ⟨hejected, hretired, hstack, hprogress⟩

/-- Three entries when the pass begins, one thread in the interval from epoch 3 to epoch 5. The first was retired
before it and the last was born after it. -/
def threeIntervals : State Nat where
  deferred := [⟨0, 0, .decrementStrongCount, 0, 2⟩, ⟨1, 1, .dispose, 2, 4⟩,
    ⟨2, 2, .decrementStrongCount, 6, 7⟩]
  inProgress := false
  work := 30
  stack := [.work]
  retired := [⟨0, 0, .decrementStrongCount, 0, 2⟩, ⟨1, 1, .dispose, 2, 4⟩,
    ⟨2, 2, .decrementStrongCount, 6, 7⟩]
  ejected := []

theorem epochPass_spec_threeIntervals :
    threeIntervals.deferred.filter (Scan.intervals [(3, 5)]).protects = [⟨1, 1, .dispose, 2, 4⟩] ∧
      ∃ s₀, next ⟨1, 2⟩ threeIntervals (.run (.intervals [(3, 5)])) = some s₀ ∧
        ∃ k s₂ kept announced, (machine Nat ⟨1, 2⟩).exec (List.replicate k (.run (.slots []))) s₀ =
          some s₂ ∧ s₂.stack = [.pass [] kept announced 3, .work] :=
  ⟨by decide, _, rfl, (epochPass_spec ⟨1, 2⟩ (s := threeIntervals) (by rfl) rfl rfl
    (by decide) (by decide) rfl).2 _ (.slots []) .refl⟩

end Cdrc.AcquireRetire.Retire
