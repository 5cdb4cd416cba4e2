import Cdrc.Smr.Moves

/-! # Reference counting over a memory manager: the counters -/
namespace Cdrc.Smr
open Cdrc.StickyCounter Cdrc.CountedObject Cdrc.Lib.Threads Cdrc.Lib.Units

variable {n : Nat} {cfg : Config} {L L' : Kind → Book n} {s : State n}
  {mem mem' : Obj → Option Object} {home : Token → Option (Home n)}
  {deferred : Fin n → List Entry} {pass : Fin n → Option (Pass n)}
  {owned : Fin n → Obj → Option Stage} {shared : Token → Bool}
  {reading : Fin n → Option (Kind × Nat)} {prot : Fin n → Token → Bool}
  {cov : Fin n → Obj → Bool} {epoch : Nat} {readTS : Fin n → Nat}
  {localEpoch : Fin n → Option Nat} {endTS : Fin n → Nat} {late : Fin n → Bool}
  {guards : Fin n → Nat → Option Guard} {debt : Fin n → Option Debt}
  {k : Token} {x : Option (Home n)} {o : Obj} {ob ob' : Object} {κ : Kind} {t : Fin n}

/-! ## One call -/

/-- A counter of `ob` by its value. -/
def Object.value (ob : Object) : Kind → Nat
  | .strong => ob.ref.toNat
  | .weak => ob.weak

/-- Only counter `κ` of the object is different. -/
structure Object.SameBut (κ : Kind) (ob ob' : Object) : Prop where
  birthTS : ob'.birthTS = ob.birthTS
  alive : ob'.alive = ob.alive
  other : ∀ κ', κ' ≠ κ → ob'.value κ' = ob.value κ'

theorem ofNat_toNat_of_le {c : Nat} (h : c ≤ maxValue 30) :
    (BitVec.ofNat (30 + 2) c).toNat = c := by
  have : maxValue 30 = 2 ^ 30 - 1 := maxValue_eq
  rw [BitVec.toNat_ofNat]
  apply Nat.mod_eq_of_lt
  omega

theorem Object.add_sameBut : ob.SameBut κ (ob.add cfg κ).1 := by
  cases κ with
  | strong =>
    simp only [Object.add, Object.addRef]
    split <;> exact ⟨rfl, rfl, fun κ' h => by cases κ' <;> first | exact absurd rfl h | rfl⟩
  | weak => exact ⟨rfl, rfl, fun κ' h => by cases κ' <;> first | exact absurd rfl h | rfl⟩

theorem Object.release_sameBut : ob.SameBut κ (ob.release cfg κ).1 := by
  cases κ with
  | strong =>
    simp only [Object.release, Object.releaseRef]
    split <;> exact ⟨rfl, rfl, fun κ' h => by cases κ' <;> first | exact absurd rfl h | rfl⟩
  | weak => exact ⟨rfl, rfl, fun κ' h => by cases κ' <;> first | exact absurd rfl h | rfl⟩

theorem Object.room {c : Nat} (hv : ob.value κ = c) (hle : κ = .strong → c ≤ maxValue 30)
    (hr : ob.hasRoom κ = true) : κ = .strong → c + 1 ≤ maxValue 30 := by
  rintro rfl
  have hle := hle rfl
  simp only [Object.value] at hv
  simp only [Object.hasRoom, decide_eq_true_eq, hv] at hr
  rw [Nat.mod_eq_of_lt (by omega)] at hr
  omega

/-- `increment` of a counter that is not zero. -/
theorem Object.add_pos (cfg : Config) {c : Nat} (hv : ob.value κ = c) (hc : 0 < c)
    (hm : κ = .strong → c + 1 ≤ maxValue 30) :
    (ob.add cfg κ).2 = true ∧ (ob.add cfg κ).1.value κ = c + 1 := by
  have hmax : maxValue 30 = 2 ^ 30 - 1 := maxValue_eq
  cases κ with
  | weak =>
    simp only [Object.value] at hv
    have h0 : c ≠ 0 := by omega
    simp [Object.add, Object.value, Atomic.increment, h0, hv]
  | strong =>
    have hm := hm rfl
    simp only [Object.value] at hv
    have h0 : c ≠ 0 := by omega
    simp only [Object.add, Object.addRef]
    split
    · simp only [Atomic.increment, hv, if_neg h0, Object.value]
      exact ⟨trivial, ofNat_toNat_of_le hm⟩
    · rw [access_increment_low (by omega)]
      exact ⟨rfl, by simp only [Object.value]; rw [toNat_add_one (by omega), hv]⟩

/-- `increment` of a counter that is zero, when it is taken as atomic. -/
theorem Object.add_zero (ha : cfg.atomicCounters = true) (hv : ob.ref.toNat = 0) :
    ob.add cfg .strong = (ob, false) := by
  have h0 : BitVec.ofNat (30 + 2) 0 = ob.ref := BitVec.eq_of_toNat_eq (by simp [hv])
  simp only [Object.add, Object.addRef, if_pos ha, Atomic.increment, hv, if_true]
  rw [h0]

/-- The decrement of a counter that is not zero, or its first access. -/
theorem Object.release_pos (cfg : Config) {c : Nat} (hv : ob.value κ = c) (hc : 0 < c)
    (hm : κ = .strong → c ≤ maxValue 30) :
    ((ob.release cfg κ).2 = true ↔ c = 1) ∧ (ob.release cfg κ).1.value κ = c - 1 := by
  have hmax : maxValue 30 = 2 ^ 30 - 1 := maxValue_eq
  cases κ with
  | weak =>
    simp only [Object.value] at hv
    simp only [Object.release, Object.value, Atomic.decrement, hv, decide_eq_true_eq]
    exact ⟨by omega, trivial⟩
  | strong =>
    have hm := hm rfl
    simp only [Object.value] at hv
    simp only [Object.release, Object.releaseRef]
    split
    · simp only [Atomic.decrement, Object.value, hv, decide_eq_true_eq]
      exact ⟨by omega, ofNat_toNat_of_le (by omega)⟩
    · simp only [access, Object.value]
      refine ⟨?_, by rw [toNat_sub_one (by omega), hv]⟩
      rw [← hv, ← eq_one_iff_toNat]
      split
      · rename_i h; simp [h]
      · rename_i h
        constructor
        · intro hc; simp at hc
        · intro hc; exact absurd hc h

/-! ## Objects that keep what others look at -/

/-- The same objects, with the same time stamps. -/
def Stamped (mem mem' : Obj → Option Object) : Prop :=
  ∀ o, (mem' o = none ↔ mem o = none) ∧
    ∀ ob', mem' o = some ob' → ∃ ob, mem o = some ob ∧ ob'.birthTS = ob.birthTS

theorem Stamped.update (hm : mem o = some ob) (hb : ob'.birthTS = ob.birthTS) :
    Stamped mem (Function.update mem o (some ob')) := by
  intro o'
  by_cases he : o' = o
  · subst he
    simp only [Function.update_self, Option.some.injEq]
    exact ⟨by simp [hm], by rintro _ rfl; exact ⟨ob, hm, hb⟩⟩
  · rw [Function.update_of_ne he]
    exact ⟨Iff.rfl, fun ob' h => ⟨ob', h, rfl⟩⟩

theorem Guards.stamped (h : Guards cfg L mem home shared reading pass prot owned guards)
    (hm : Stamped mem mem') :
    Guards cfg L mem' home shared reading pass prot owned guards :=
  { h with
    birth := by
      intro t i g ob' hg ho
      obtain ⟨ob, h1, h2⟩ := (hm g.obj).2 ob' ho
      rw [h2]
      exact h.birth t i g ob hg h1 }

theorem Epochs.stamped (h : Epochs mem epoch readTS localEpoch endTS late)
    (hm : Stamped mem mem') : Epochs mem' epoch readTS localEpoch endTS late :=
  { h with
    birth_le := by
      intro o ob' ho
      obtain ⟨ob, h1, h2⟩ := (hm o).2 ob' ho
      rw [h2]
      exact h.birth_le o ob h1 }

theorem Prots.stamped (h : Prots cfg mem home prot cov localEpoch endTS deferred pass guards)
    (hm : Stamped mem mem') :
    Prots cfg mem' home prot cov localEpoch endTS deferred pass guards :=
  { h with
    cov_end := by
      intro t o a ob' hc hl ho
      obtain ⟨ob, h1, h2⟩ := (hm o).2 ob' ho
      rw [h2]
      exact h.cov_end t o a ob hc hl h1
    birth := by
      intro hb u e ob' he ho
      obtain ⟨ob, h1, h2⟩ := (hm e.token.obj).2 ob' ho
      rw [h2]
      exact h.birth hb u e ob he h1 }

theorem Life.stamped (h : Life mem home owned) (hm : mem o = some ob) (ha : ob'.alive = ob.alive)
    (hp : ∀ t, owned t o = some .parked → ob'.ref.toNat = ob.ref.toNat) :
    Life (Function.update mem o (some ob')) home owned :=
  { h with
    present := by
      intro t o' st hs
      by_cases he : o' = o
      · simp [he]
      · rw [Function.update_of_ne he]
        exact h.present t o' st hs
    parked := by
      intro t o' ob'' hs ho
      by_cases he : o' = o
      · subst he
        simp only [Function.update_self, Option.some.injEq] at ho
        subst ho
        rw [hp t hs]
        exact h.parked t o' ob hs hm
      · rw [Function.update_of_ne he] at ho
        exact h.parked t o' ob'' hs ho
    alive := by
      intro o' ob'' ho
      by_cases he : o' = o
      · subst he
        simp only [Function.update_self, Option.some.injEq] at ho
        subst ho
        rw [ha]
        exact h.alive o' ob hm
      · rw [Function.update_of_ne he] at ho
        exact h.alive o' ob'' ho }

/-! ## Books with the same witnesses and labels -/

theorem Guards.book (h : Guards cfg L mem home shared reading pass prot owned guards)
    (hw : ∀ κ g, (L' κ).wit g = (L κ).wit g) :
    Guards cfg L' mem home shared reading pass prot owned guards := by
  refine { h with wit := ?_, wit_strong := ?_, wit_weak := ?_ }
  · intro t i g hg
    rw [hw]
    exact h.wit t i g hg
  · intro t i g hg hk
    rw [hw]
    exact h.wit_strong t i g hg hk
  · intro t i g hg hk
    rw [hw]
    exact h.wit_weak t i g hg hk

theorem Debts.book (h : Debts cfg L shared pass prot guards debt)
    (hl : ∀ κ d, (L' κ).label d = (L κ).label d) :
    Debts cfg L' shared pass prot guards debt := by
  refine ⟨h.guard, fun t d hd => ?_⟩
  rw [hl]
  exact h.label t d hd

theorem update_wit {B : Book n} (hw : B.wit = (L κ).wit) (κ' : Kind) (g : Fin n × Nat) :
    (Function.update L κ B κ').wit g = (L κ').wit g := by
  by_cases he : κ' = κ
  · subst he
    rw [Function.update_self, hw]
  · rw [Function.update_of_ne he]

theorem update_label {B : Book n} (hl : B.label = (L κ).label) (κ' : Kind) (d : Fin n) :
    (Function.update L κ B κ').label d = (L κ').label d := by
  by_cases he : κ' = κ
  · subst he
    rw [Function.update_self, hl]
  · rw [Function.update_of_ne he]

theorem Counted.book (h : Counted cfg L mem home)
    (hc : ∀ κ o, (L' κ).count Token.obj o = (L κ).count Token.obj o) :
    Counted cfg L' mem home := by
  refine ⟨h.present, fun o ob hm h1 => ?_, fun o => ?_, fun o ob hm => ?_⟩
  · rw [hc] at h1 ⊢
    exact h.ref o ob hm h1
  · rw [hc]
    exact h.ref_le o
  · rw [hc]
    exact h.weak o ob hm

theorem update_count {B : Book n} (hp : B.paid = (L κ).paid) (κ' : Kind) (o : Obj) :
    (Function.update L κ B κ').count Token.obj o = (L κ').count Token.obj o := by
  by_cases he : κ' = κ
  · subst he
    rw [Function.update_self]
    simp only [Ledger.count, hp]
  · rw [Function.update_of_ne he]

/-- The counters of `o` follow the book of `κ`. -/
theorem Counted.set (h : Counted cfg L mem home) (hm : mem o = some ob)
    (hs : ob.SameBut κ ob') {B : Book n}
    (hB : ∀ o', o' ≠ o → B.count Token.obj o' = (L κ).count Token.obj o')
    (hv : κ = .weak ∨ 0 < B.count Token.obj o ∨ cfg.atomicCounters = true →
      ob'.value κ = B.count Token.obj o)
    (hle : κ = .strong → B.count Token.obj o ≤ maxValue 30) :
    Counted cfg (Function.update L κ B) (Function.update mem o (some ob')) home := by
  have hother : ∀ κ' o', κ' ≠ κ →
      (Function.update L κ B κ').count Token.obj o' = (L κ').count Token.obj o' := by
    intro κ' o' hne
    rw [Function.update_of_ne hne]
  constructor
  · intro k' hk'
    by_cases he : k'.obj = o
    · simp [he]
    · rw [Function.update_of_ne he]
      exact h.present k' hk'
  · intro o' ob'' ho hc
    by_cases hκ : Kind.strong = κ
    · subst hκ
      rw [Function.update_self] at hc ⊢
      by_cases he : o' = o
      · subst he
        simp only [Function.update_self, Option.some.injEq] at ho
        subst ho
        exact hv (Or.inr hc)
      · rw [Function.update_of_ne he] at ho
        rw [hB o' he] at hc ⊢
        exact h.ref o' ob'' ho hc
    · rw [hother _ _ hκ] at hc ⊢
      by_cases he : o' = o
      · subst he
        simp only [Function.update_self, Option.some.injEq] at ho
        subst ho
        have := hs.other .strong hκ
        simp only [Object.value] at this
        rw [this]
        exact h.ref o' ob hm hc
      · rw [Function.update_of_ne he] at ho
        exact h.ref o' ob'' ho hc
  · intro o'
    by_cases hκ : Kind.strong = κ
    · subst hκ
      rw [Function.update_self]
      by_cases he : o' = o
      · exact he ▸ hle rfl
      · rw [hB o' he]
        exact h.ref_le o'
    · rw [hother _ _ hκ]
      exact h.ref_le o'
  · intro o' ob'' ho
    by_cases hκ : Kind.weak = κ
    · subst hκ
      rw [Function.update_self]
      by_cases he : o' = o
      · subst he
        simp only [Function.update_self, Option.some.injEq] at ho
        subst ho
        exact hv (Or.inl rfl)
      · rw [Function.update_of_ne he] at ho
        rw [hB o' he]
        exact h.weak o' ob'' ho
    · rw [hother _ _ hκ]
      by_cases he : o' = o
      · subst he
        simp only [Function.update_self, Option.some.injEq] at ho
        subst ho
        have := hs.other .weak hκ
        simp only [Object.value] at this
        rw [this]
        exact h.weak o' ob hm
      · rw [Function.update_of_ne he] at ho
        exact h.weak o' ob'' ho

end Cdrc.Smr
