import Cdrc.Smr.Readers

/-! # Reference counting over a memory manager: what an action leaves alone

An action of `t` does not change the part of another thread. -/
namespace Cdrc.Smr
open Cdrc.StickyCounter Cdrc.CountedObject Cdrc.Lib.Threads

variable {n : Nat} {cfg : Config} {s s' : State n} {t u : Fin n} {κ : Kind} {l i : Nat}

/-- The places of thread `u`. -/
def Place.isOf (u : Fin n) : Place n → Prop
  | .hand v | .desired v => v = u
  | _ => False

theorem not_isOf_hand (hu : u ≠ t) : ¬ (Place.hand t).isOf u := fun h => hu h.symm

theorem not_isOf_desired (hu : u ≠ t) : ¬ (Place.desired t).isOf u := fun h => hu h.symm

theorem Spot.not_isOf (hu : u ≠ t) (p : Spot) : ¬ (p.place t).isOf u := by
  cases p with
  | var κ i => exact id
  | hand => exact not_isOf_hand hu
  | desired => exact not_isOf_desired hu

section Frames

theorem cell_frame {p : Place n} {k : Option Token} (hp : ¬ p.isOf u) :
    Function.update s.cell p k (.hand u) = s.cell (.hand u) ∧
      Function.update s.cell p k (.desired u) = s.cell (.desired u) := by
  constructor <;>
  · refine Function.update_of_ne ?_ _ _
    rintro rfl
    exact hp rfl

theorem move_frame {p q : Place n} (hp : ¬ p.isOf u) (hq : ¬ q.isOf u) :
    (s.move p q).loc u = s.loc u := by
  unfold State.move
  split
  · rfl
  · have h1 := cell_frame (s := s) (k := none) hp
    rename_i k _
    have h2 := cell_frame (s := { s with cell := Function.update s.cell p none }) (k := some k) hq
    simp only [State.loc]
    rw [h2.1, h2.2]
    simp only [h1.1, h1.2]

theorem mint_frame {q : Place n} {o : Obj} (hq : ¬ q.isOf u) : (s.mint q o κ).loc u = s.loc u := by
  simp only [State.mint, State.loc]
  rw [(cell_frame hq).1, (cell_frame hq).2]

theorem putIn_frame {p : Place n} (hp : ¬ p.isOf u) : (s.putIn cfg p κ l).loc u = s.loc u := by
  unfold State.putIn
  split
  · rfl
  · exact move_frame hp id

variable (hu : u ≠ t)
include hu

theorem increment_frame {via : Via} {dst : Spot} {checked r : Bool}
    (he : s.increment cfg t κ via dst checked = some (r, s')) : s'.loc u = s.loc u := by
  unfold State.increment at he
  split at he
  · cases he
    rfl
  · split at he
    · cases he
      rfl
    · split at he
      · split at he
        · cases he
          exact mint_frame (dst.not_isOf hu)
        · split at he <;> cases he <;> rfl
      · cases he

theorem payDebt_frame {r : Unit} (he : s.payDebt cfg t = some (r, s')) : s'.loc u = s.loc u := by
  unfold State.payDebt at he
  split at he
  · cases he
    rfl
  · split at he
    · cases he
      rfl
    · split at he
      · split at he
        · cases he
          simp [State.loc, State.setObj, hu]
        · cases he
          rfl
      · cases he

theorem takeUnit_frame {src : From} {k : Token} (he : s.takeUnit t src = some (k, s')) :
    s'.loc u = s.loc u := by
  cases src with
  | var κ' i =>
    simp only [State.takeUnit] at he
    split at he
    · cases he
    · cases he
      simp only [State.loc]
      rw [(cell_frame id).1, (cell_frame id).2]
  | todo =>
    simp only [State.takeUnit] at he
    split at he
    · split at he
      · cases he
        simp [State.loc, hu]
      · cases he
    · cases he

theorem zeroed_frame {o : Obj} : (s.zeroed cfg t κ o).loc u = s.loc u := by
  cases κ <;> simp [State.zeroed, State.loc, update₂, hu]

theorem release_frame {src : From} {r : Option (Obj × Bool)}
    (he : s.release cfg t κ src = some (r, s')) : s'.loc u = s.loc u := by
  have hgo : State.release.go cfg s t κ src = some (r, s') → s'.loc u = s.loc u := by
    intro he
    unfold State.release.go at he
    split at he
    · cases he
      rfl
    · rename_i k s₁ hk
      have h1 := takeUnit_frame hu hk
      split at he
      · cases he
        rfl
      · simp only at he
        split at he
        · cases he
          exact (zeroed_frame hu).trans h1
        · cases he
          exact h1
  cases src with
  | var κ' i =>
    simp only [State.release] at he
    split at he
    · exact hgo he
    · cases he
  | todo => exact hgo he

theorem confirm_frame {via : Via} : (s.confirm cfg t via).loc u = s.loc u := by
  cases via with
  | var κ i => rfl
  | guard i =>
    simp only [State.confirm]
    split
    · rfl
    · simp [State.loc, update₂, hu]

theorem publish_frame : (s.publish cfg t κ l i).loc u = s.loc u := by
  unfold State.publish
  split
  · rfl
  · rename_i g _
    have h1 := mint_frame (s := s) (κ := κ) (o := g.obj) (q := .loc κ l) (u := u) id
    by_cases hb : cfg.backend = .ibr
    · simp only [hb, if_true]
      refine Eq.trans ?_ h1
      simp [State.loc, State.cover, State.enter, State.mint, update₂, hu]
    · simp only [hb, if_false]
      refine Eq.trans ?_ h1
      simp [State.loc, State.enter, State.mint, hu]

theorem replace_frame {new : New} : (s.replace cfg t κ l new).loc u = s.loc u := by
  have h1 := move_frame (s := s) (p := .loc κ l) (q := .hand t) (u := u) id (not_isOf_hand hu)
  unfold State.replace
  cases new with
  | null => exact h1
  | desired => exact (putIn_frame (not_isOf_desired hu)).trans h1
  | var κ' j => exact (putIn_frame id).trans h1
  | guard j => exact (publish_frame hu).trans h1

theorem loadProtected_frame : (s.loadProtected cfg t κ l i).2.loc u = s.loc u := by
  unfold State.loadProtected
  simp only
  split
  · split
    · split <;> simp [State.loc, State.cover, update₂, hu]
    · simp [State.loc, update₂, hu]
  · simp [State.loc, update₂, hu]

theorem onPass_frame (f : Pass n → Pass n) : (s.onPass t f).loc u = s.loc u := by
  simp [State.onPass, State.loc, hu]

end Frames

/-- An action leaves the parts of the other threads alone. -/
theorem exec_frame {β : Type} {c : Choice} {x : Act n β} {r : β} (hu : u ≠ t)
    (he : exec cfg t c x s = some (r, s')) : s'.loc u = s.loc u := by
  cases x with
  | create i birth =>
    simp only [exec] at he
    split at he
    · rename_i o
      split at he
      · cases he
        exact mint_frame (s := s.setObj o (some ⟨construct 1, 1, birth, true⟩)) (κ := .strong)
          (o := o) (q := .var .strong i) (u := u) id
      · cases he
    · cases he
  | increment => exact increment_frame hu he
  | payDebt => exact payDebt_frame hu he
  | release => exact release_frame hu he
  | decrementCas o =>
    simp only [exec, State.decrementCas] at he
    split at he
    · cases he
      rfl
    · cases he
      split
      · simp [State.loc, State.setObj, update₂, hu]
      · rfl
  | decrementExchange o =>
    simp only [exec, State.decrementExchange] at he
    split at he
    · cases he
      rfl
    · cases he
      split
      · simp [State.loc, State.setObj, update₂, hu]
      · rfl
  | loadWeak o =>
    simp only [exec, State.loadWeak] at he
    split at he
    · cases he
      rfl
    · split at he
      · cases he
        simp [State.loc, update₂, hu]
      · cases he
        rfl
  | startDispose =>
    simp only [exec, State.startDispose] at he
    split at he
    · split at he
      · cases he
        simp [State.loc, update₂, hu]
      · cases he
    · cases he
  | runDestructor o =>
    simp only [exec, State.runDestructor] at he
    split at he <;> cases he <;> rfl
  | nextField =>
    simp only [exec] at he
    split at he <;> cases he <;> rfl
  | destroyLoc κ i =>
    simp only [exec, State.destroyLoc] at he
    split at he
    · split at he
      · cases he
        rfl
      · cases he
        exact move_frame (p := .loc κ i) (u := u) id (not_isOf_hand hu)
    · cases he
  | releaseImplicit o =>
    simp only [exec, State.releaseImplicit] at he
    split at he
    · cases he
      rfl
    · cases he
      simp [State.loc, State.setObj, update₂, hu]
  | delete o =>
    simp only [exec, State.delete] at he
    split at he
    · cases he
      rfl
    · cases he
      simp [State.loc, State.setObj, update₂, hu]
  | loadRef via =>
    simp only [exec, State.loadRef] at he
    split at he
    · cases he
      rfl
    · split at he
      · cases he
        rfl
      · cases he
        split
        · rfl
        · exact confirm_frame hu
  | loadRefCas via =>
    simp only [exec, State.loadRefCas] at he
    split at he
    · cases he
      rfl
    · split at he <;> cases he <;> rfl
  | emplace =>
    simp only [exec, State.emplace] at he
    split at he
    · cases he
      rfl
    · split at he
      · cases he
        rfl
      · cases he
        simp only [State.loc]
        rw [(cell_frame (not_isOf_hand hu)).1, (cell_frame (not_isOf_hand hu)).2]
  | emplaceDispose o =>
    simp only [exec, State.emplaceDispose] at he
    split at he
    · cases he
      rfl
    · cases he
      simp [State.loc, update₂, hu]
  | tryBegin =>
    simp only [exec, State.tryBegin] at he
    split at he
    · split at he
      · cases he
        rfl
      · cases he
        simp [State.loc, hu]
    · cases he
      rfl
  | scanSlot v i =>
    cases he
    exact onPass_frame hu _
  | scanEpoch v =>
    cases he
    exact onPass_frame hu _
  | scanStart v =>
    cases he
    exact onPass_frame hu _
  | scanEnd v e =>
    cases he
    exact onPass_frame hu _
  | judge =>
    simp only [exec, State.judge] at he
    split at he
    · cases he
      rfl
    · split at he
      · cases he
        rfl
      · split at he
        · cases he
          rfl
        · cases he
          exact onPass_frame hu _
  | endPass =>
    cases he
    simp [State.endPass, State.loc, hu]
  | readEpoch =>
    cases he
    simp [State.loc, hu]
  | announceEpoch e =>
    cases he
    simp [State.announceEpoch, State.loc, hu]
  | endSection =>
    cases he
    simp [State.endSection, State.loc, hu]
  | epochTick =>
    simp only [exec, State.epochTick] at he
    split at he <;> cases he <;> rfl
  | writeEnd e =>
    cases he
    simp [State.loc, hu]
  | storeSlot i p =>
    cases he
    simp [State.loc, update₂, hu]
  | validate κ l i p =>
    simp only [exec, State.validate] at he
    split at he
    · cases he
      simp [State.loc, update₂, hu]
    · cases he
      rfl
  | loadProtected κ l i =>
    simp only [exec, Option.some.injEq] at he
    rw [show s' = (s.loadProtected cfg t κ l i).2 from (congrArg Prod.snd he).symm]
    exact loadProtected_frame hu
  | reserve κ i =>
    simp only [exec, reserve_eq, Option.some.injEq, Prod.mk.injEq] at he
    rw [← he.2]
    by_cases hb : cfg.backend = .hp <;> simp [State.loc, update₂, hu, hb]
  | clearGuard i =>
    simp only [exec, clearGuard_eq, Option.some.injEq, Prod.mk.injEq] at he
    rw [← he.2]
    by_cases hb : cfg.backend = .hp <;> by_cases hi : i = 0 <;>
      simp [State.loc, update₂, hu, hb, hi]
  | exchange κ l new =>
    simp only [exec] at he
    split at he
    · unfold State.exchange at he
      split at he
      · split at he
        · cases he
          rfl
        · cases he
          exact replace_frame hu
      · cases he
        exact replace_frame hu
    · cases he
  | cas κ l expected new =>
    simp only [exec, State.cas] at he
    split at he
    · split at he
      · cases he
        exact replace_frame hu
      · cases he
        rfl
    · cases he
  | use κ l =>
    simp only [exec] at he
    split at he
    · cases he
    · cases he
      rfl
  | move p q =>
    simp only [exec, State.moveSpot] at he
    split at he
    · cases he
      exact move_frame (p.not_isOf hu) (q.not_isOf hu)
    · cases he
  | addWork | inSection | pushGuard b | popGuard | advanceEpoch | readEnd | loadSlot i | load κ l
  | unchanged κ l p | setMark κ l | unuse =>
    cases he
    rfl

end Cdrc.Smr
