import Cdrc.Smr.Passes

/-! # Reference counting over a memory manager: epochs and validated pointers -/
namespace Cdrc.Smr
open Cdrc.StickyCounter Cdrc.CountedObject Cdrc.Lib.Threads Cdrc.Lib.Units

variable {n : Nat} {cfg : Config} {L : Kind → Book n} {s s' : State n} {k : Token} {o : Obj}
  {κ : Kind} {t : Fin n} {i l : Nat} {g : Guard} {slots' : Fin n → Nat → Option Obj}
  {reading' : Fin n → Option (Kind × Nat)} {guards' : Fin n → Nat → Option Guard}

/-! ## Epochs -/

theorem Inv.readEpoch (h : Inv cfg L s) :
    Inv cfg L { s with readTS := Function.update s.readTS t s.epoch } := by
  refine { h with epochs := { h.epochs with readTS_le := fun u => ?_ } }
  simp only [Function.update_apply]
  split
  · exact Nat.le_refl _
  · exact h.epochs.readTS_le u

theorem Inv.advanceEpoch (h : Inv cfg L s) : Inv cfg L { s with epoch := s.epoch + 1 } :=
  { h with
    epochs :=
      { birth_le := fun o ob hm => Nat.le_succ_of_le (h.epochs.birth_le o ob hm)
        readTS_le := fun u => Nat.le_succ_of_le (h.epochs.readTS_le u)
        localEpoch_le := fun u a ha => Nat.le_succ_of_le (h.epochs.localEpoch_le u a ha)
        endTS_le := fun u => Nat.le_succ_of_le (h.epochs.endTS_le u)
        late_lt := fun u hu => Nat.lt_succ_of_lt (h.epochs.late_lt u hu) } }

theorem Inv.writeEnd (h : Inv cfg L s) {e : Nat} (hle : s.endTS t ≤ e) (hee : e ≤ s.epoch) :
    Inv cfg L { s with
      endTS := Function.update s.endTS t e
      late := Function.update s.late t false } := by
  have hmono : ∀ u, s.endTS u ≤ Function.update s.endTS t e u := by
    intro u
    simp only [Function.update_apply]
    split
    · rename_i hu; exact hu ▸ hle
    · exact Nat.le_refl _
  refine { h with epochs := ?_, prots := ?_ }
  · refine { h.epochs with endTS_le := fun u => ?_, late_lt := fun u hu => ?_ }
    · simp only [Function.update_apply]
      split
      · exact hee
      · exact h.epochs.endTS_le u
    · simp only [Function.update_apply] at hu ⊢
      split at hu
      · cases hu
      · rename_i hut
        rw [if_neg hut]
        exact h.epochs.late_lt u hu
  · refine { h.prots with entry := ?_, cov_end := ?_ }
    · intro u v e' a he hpr hl
      obtain ⟨h1, h2⟩ := h.prots.entry u v e' a he hpr hl
      exact ⟨h1, fun hb => Nat.le_trans (h2 hb) (hmono u)⟩
    · intro u o a ob hc hl hm
      obtain ⟨h1, h2⟩ := h.prots.cov_end u o a ob hc hl hm
      exact ⟨Nat.le_trans h1 (hmono u), Nat.le_trans h2 (hmono u)⟩

/-- Outside a section a thread keeps nothing. -/
theorem Inv.no_prot (h : Inv cfg L s) (hl : s.localEpoch t = none) (k : Token) :
    s.prot t k = false := by
  by_contra hc
  exact (h.prots.live t k (by simpa using hc)).2.1 hl

theorem Inv.no_cov (h : Inv cfg L s) (hl : s.localEpoch t = none) (o : Obj) :
    s.cov t o = false := by
  by_contra hc
  obtain ⟨k, hk, _⟩ := h.prots.cov_prot t o (by simpa using hc)
  rw [h.no_prot hl k] at hk
  cases hk

theorem announceEpoch_prot {e : Nat} : (s.announceEpoch cfg t e).prot =
    if cfg.backend = .ebr then Function.update s.prot t fun k => s.prot t k || inLoc (s.home k)
    else s.prot := by
  cases hb : cfg.backend <;> simp [State.announceEpoch, hb]

theorem announceEpoch_mono {u : Fin n} {e : Nat} (hk : s.prot u k = true) :
    (s.announceEpoch cfg t e).prot u k = true := by
  rw [announceEpoch_prot]
  split
  · simp only [Function.update_apply]
    split
    · rename_i hu
      simp only [← hu, hk, Bool.true_or]
    · exact hk
  · exact hk

theorem Inv.announceEpoch (h : Inv cfg L s) {e : Nat} (hl : s.localEpoch t = none)
    (hee : e ≤ s.epoch) : Inv cfg L (s.announceEpoch cfg t e) := by
  -- for `acquire_retire_ebr` the section keeps what is in a location now
  generalize hp' : (s.announceEpoch cfg t e).prot = prot'
  have hprot : ∀ u k', prot' u k' = true →
      s.prot u k' = true ∨ (u = t ∧ cfg.backend = .ebr ∧ inLoc (s.home k') = true) := by
    intro u k' hk
    rw [← hp', announceEpoch_prot] at hk
    split at hk
    · rename_i hbe
      simp only [Function.update_apply] at hk
      split at hk
      · rename_i hu
        rw [Bool.or_eq_true] at hk
        exact hk.imp (fun hk => hu ▸ hk) fun hk => ⟨hu, hbe, hk⟩
      · exact Or.inl hk
    · exact Or.inl hk
  have hmono : ∀ u k', s.prot u k' = true → prot' u k' = true := by
    intro u k' hk
    rw [← hp']
    exact announceEpoch_mono hk
  have hebr : cfg.backend = .ebr → ∀ k', inLoc (s.home k') = true → prot' t k' = true := by
    intro hbe k' hi
    rw [← hp']
    simp [State.announceEpoch, hbe, hi]
  have hold : ∀ {u v e'}, e' ∈ entries s.deferred s.pass v → prot' u e'.token = true →
      s.prot u e'.token = true ∧ u ≠ t := by
    intro u v e' he hpr
    have h1 : s.prot u e'.token = true := by
      refine (hprot u _ hpr).resolve_right fun hc => ?_
      have := hc.2.2
      rw [h.lists.home_eq he] at this
      cases this
    refine ⟨h1, ?_⟩
    rintro rfl
    rw [h.no_prot hl] at h1
    cases h1
  have himp : ∀ u o, prot' u (implicit o) = true → s.prot u (implicit o) = true := by
    intro u o hk
    refine (hprot u _ hk).resolve_right fun hc => ?_
    exact h.places.type_of_inLoc hc.2.2 rfl
  have hloc : ∀ u, u ≠ t → Function.update s.localEpoch t (some e) u = s.localEpoch u :=
    fun u hu => Function.update_of_ne hu _ _
  have hne : ∀ u, s.localEpoch u ≠ none → Function.update s.localEpoch t (some e) u ≠ none := by
    intro u hu
    by_cases hut : u = t
    · simp [hut]
    · rw [hloc u hut]
      exact hu
  have hprots : Prots cfg s.mem s.home prot' s.cov (Function.update s.localEpoch t (some e)) s.endTS
      s.deferred s.pass s.guards := by
    constructor
    · intro u k' hk
      rcases hprot u k' hk with hk | ⟨rfl, hbe, hi⟩
      · obtain ⟨h1, h2, h3⟩ := h.prots.live u k' hk
        exact ⟨h1, hne u h2, h3⟩
      · refine ⟨?_, by simp, by rw [hbe]; decide⟩
        intro hc
        rw [hc] at hi
        cases hi
    · intro u k' hc hi
      by_cases hut : u = t
      · subst hut
        unfold Covers at hc
        split at hc
        · exact hc.elim
        · exact hebr ‹_› k' hi
        · rw [h.no_cov hl] at hc
          cases hc
      · refine hmono u k' (h.prots.of_inLoc u k' ?_ hi)
        unfold Covers at hc ⊢
        split at hc
        · exact hc
        · rwa [hloc u hut] at hc
        · exact hc
    · intro u v e' a he hpr ha
      obtain ⟨h1, h2⟩ := hold he hpr
      rw [hloc u h2] at ha
      exact h.prots.entry u v e' a he h1 ha
    · intro u v p e' hp he hpr hns
      obtain ⟨h1, h2⟩ := hold (mem_entries_of_pass hp he) hpr
      have := h.prots.scanned u v p e' hp he h1 hns
      simpa only [Noted, hloc u h2] using this
    · intro u v p e' a hp hst he hpr
      obtain ⟨h1, h2⟩ := hold (mem_entries_of_pass hp he) hpr
      rw [hloc u h2]
      exact h.prots.start u v p e' a hp hst he h1
    · intro u o' hc
      obtain ⟨k', h1, h2⟩ := h.prots.cov_prot u o' hc
      exact ⟨k', hmono u k' h1, h2⟩
    · intro u o' hk
      obtain ⟨k', h1, h2⟩ := h.prots.implicit_prot u o' (himp u o' hk)
      exact ⟨k', hmono u k' h1, h2⟩
    · intro hbi u k' hk
      refine h.prots.prot_cov hbi u k' ((hprot u k' hk).resolve_right fun hc => ?_)
      rw [hbi] at hc
      exact absurd hc.2.1 (by decide)
    · intro u o' a ob hc ha hm
      have hut : u ≠ t := by
        rintro rfl
        rw [h.no_cov hl] at hc
        cases hc
      rw [hloc u hut] at ha
      exact h.prots.cov_end u o' a ob hc ha hm
    · exact h.prots.birth
    · exact h.prots.guard_cov
  have hfin : Inv cfg L { s with
      localEpoch := Function.update s.localEpoch t (some e), prot := prot' } :=
    { h with
      guards := by
        refine { h.guards with wit := ?_, confirmed := ?_ }
        · intro u i g hg
          rcases h.guards.wit u i g hg with h1 | ⟨h1, h2⟩
          · exact Or.inl h1
          · exact Or.inr ⟨h1, h2.mono hmono⟩
        · intro u i g hg hc
          obtain ⟨h1, h2, h3⟩ := h.guards.confirmed u i g hg hc
          exact ⟨h1, h2.mono hmono, h3⟩
      debts := h.debts.mono (fun _ => id) hmono
      epochs := by
        refine { h.epochs with localEpoch_le := fun u a ha => ?_ }
        simp only [Function.update_apply] at ha
        split at ha
        · cases ha
          exact hee
        · exact h.epochs.localEpoch_le u a ha
      prots := hprots
      protShared := by
        intro u k' hk hd
        rcases hprot u k' hk with hk | ⟨_, _, hi⟩
        · exact h.protShared u k' hk hd
        · exact h.shared.of_exposed k' hd (exposed_of_inLoc hi)
      disposing := h.disposing.mono himp }
  rw [← hp'] at hfin
  exact hfin

/-! ## Guards that end -/

theorem guardOf_sub {guards : Fin n → Nat → Option Guard}
    (hsub : ∀ u i g, guards' u i = some g → guards u i = some g) (x : Fin n × Nat) (o : Obj)
    (hg : guardOf guards' κ x = some o) : guardOf guards κ x = some o := by
  obtain ⟨g, hg', ho⟩ := Option.bind_eq_some_iff.mp hg
  exact Option.bind_eq_some_iff.mpr ⟨g, hsub _ _ g hg', ho⟩

/-- Some guards end that no debt needs. -/
theorem Inv.dropGuards (h : Inv cfg L s)
    (hsub : ∀ u i g, guards' u i = some g → s.guards u i = some g)
    (hdebt : ∀ u d, s.debt u = some d → guards' u d.guard = s.guards u d.guard)
    (hann : Announced cfg slots' guards')
    (hread : ∀ u g, guards' u 0 = some g → reading' u = s.reading u) :
    Inv cfg L { s with guards := guards', slots := slots', reading := reading' } := by
  exact { h with
    books := by
      intro κ
      refine (h.books κ).dropGuards (guardOf_sub hsub) fun u x hd => ?_
      obtain ⟨d, hd', _, rfl⟩ := debtOf_eq_some hd
      simp only [guardOf]
      rw [hdebt u d hd']
    guards := by
      refine ⟨fun u i g hg => ?_, fun u i g hg => h.guards.wit_strong u i g (hsub u i g hg),
        fun u i g hg => h.guards.wit_weak u i g (hsub u i g hg),
        fun u i g ob hg => h.guards.birth u i g ob (hsub u i g hg),
        fun u i g hg => h.guards.confirmed u i g (hsub u i g hg)⟩
      rcases h.guards.wit u i g (hsub u i g hg) with ⟨rfl, κ, j, h1, h2⟩ | h1
      · exact Or.inl ⟨rfl, κ, j, h1, (hread u g hg).trans h2⟩
      · exact Or.inr h1
    debts := by
      refine ⟨fun u d hd => ?_, h.debts.label⟩
      obtain ⟨g, h1, h2⟩ := h.debts.guard u d hd
      exact ⟨g, (hdebt u d hd).trans h1, h2⟩
    announced := hann
    prots := { h.prots with
      guard_cov := fun hb u i g hg => h.prots.guard_cov hb u i g (hsub u _ g hg) } }

theorem update₂_none_sub {guards : Fin n → Nat → Option Guard} {u : Fin n} {j : Nat}
    (hg : update₂ guards t i none u j = some g) : guards u j = some g ∧ ¬ (u = t ∧ j = i) := by
  rw [update₂_apply] at hg
  split at hg
  · cases hg
  · rename_i hc
    exact ⟨hg, hc⟩

/-- One guard of `t` ends. -/
theorem Inv.dropGuard (h : Inv cfg L s) (hd : s.debt t = none)
    (hslots : ∀ u j, ¬ (u = t ∧ j = i) → slots' u j = s.slots u j)
    (hread : ∀ u, ¬ (u = t ∧ 0 = i) → reading' u = s.reading u) :
    Inv cfg L { s with
      guards := update₂ s.guards t i none, slots := slots', reading := reading' } := by
  refine h.dropGuards (fun u j g hg => (update₂_none_sub hg).1) ?_ ?_ ?_
  · intro u d hdu
    rw [update₂_apply, if_neg]
    rintro ⟨rfl, _⟩
    rw [hd] at hdu
    cases hdu
  · intro hb u j g hg
    obtain ⟨h1, h2⟩ := update₂_none_sub hg
    obtain ⟨h3, h4⟩ := h.announced hb u j g h1
    exact ⟨(hslots u j h2).trans h3, h4⟩
  · exact fun u g hg => hread u (update₂_none_sub hg).2

theorem Inv.forgetGuard (h : Inv cfg L s) (hd : s.debt t = none) :
    Inv cfg L { s with guards := update₂ s.guards t i none } :=
  h.dropGuard hd (fun _ _ _ => rfl) fun _ _ => rfl

theorem Inv.storeSlot (h : Inv cfg L s) {x : Option Obj} (hd : s.debt t = none) :
    Inv cfg L { s with
      slots := update₂ s.slots t i x
      guards := update₂ s.guards t i none } := by
  refine h.dropGuard hd (fun u j hc => ?_) fun u _ => rfl
  rw [update₂_apply, if_neg hc]

theorem clearGuard_eq : s.clearGuard cfg t i =
    { s with
      slots := if cfg.backend = .hp then update₂ s.slots t i none else s.slots
      reading := if i = 0 then Function.update s.reading t none else s.reading
      guards := update₂ s.guards t i none } := by
  cases hb : cfg.backend <;> simp [State.clearGuard, hb]

theorem Inv.clearGuard (h : Inv cfg L s) (hd : s.debt t = none) :
    Inv cfg L (s.clearGuard cfg t i) := by
  rw [clearGuard_eq]
  refine h.dropGuard hd (fun u j hc => ?_) fun u hc => ?_
  · split
    · rw [update₂_apply, if_neg hc]
    · rfl
  · split
    · rename_i hi
      rw [Function.update_of_ne fun hu => hc ⟨hu, hi.symm⟩]
    · rfl

/-- `end_critical_section`. -/
theorem Inv.endSection (h : Inv cfg L s) (hb : cfg.backend ≠ .hp) (hd : s.debt t = none) :
    Inv cfg L (s.endSection t) := by
  have hsub : ∀ u j g, Function.update s.guards t (fun _ => none) u j = some g →
      s.guards u j = some g ∧ u ≠ t := by
    intro u j g hg
    simp only [Function.update_apply] at hg
    split at hg
    · cases hg
    · rename_i hu
      exact ⟨hg, hu⟩
  have h₁ : Inv cfg L { s with guards := Function.update s.guards t fun _ => none } := by
    refine h.dropGuards (fun u j g hg => (hsub u j g hg).1) ?_ (fun hc => absurd hc hb)
      fun _ _ _ => rfl
    intro u d hdu
    have hu : u ≠ t := by
      rintro rfl
      rw [hd] at hdu
      cases hdu
    rw [Function.update_of_ne hu]
  have hprot : ∀ {u k'}, Function.update s.prot t (fun _ => false) u k' = true →
      u ≠ t ∧ s.prot u k' = true := by
    intro u k' hk
    simp only [Function.update_apply] at hk
    split at hk
    · cases hk
    · rename_i hu
      exact ⟨hu, hk⟩
  have hcov : ∀ {u o'}, Function.update s.cov t (fun _ => false) u o' = true →
      u ≠ t ∧ s.cov u o' = true := by
    intro u k' hk
    simp only [Function.update_apply] at hk
    split at hk
    · cases hk
    · rename_i hu
      exact ⟨hu, hk⟩
  have hkeep : ∀ {u k'}, u ≠ t → s.prot u k' = true →
      Function.update s.prot t (fun _ => false) u k' = true := by
    intro u k' hu hk
    rw [Function.update_of_ne hu]
    exact hk
  have hloc : ∀ u, u ≠ t → Function.update s.localEpoch t none u = s.localEpoch u :=
    fun u hu => Function.update_of_ne hu _ _
  have hheld : ∀ {u i k'}, u ≠ t → Held cfg s.pass s.prot u i k' →
      Held cfg s.pass (Function.update s.prot t fun _ => false) u i k' := by
    intro u i k' hu hh
    unfold Held at hh ⊢
    split
    · exact absurd ‹_› hb
    · split at hh
      · exact absurd ‹_› hb
      · exact hkeep hu hh
  exact { h₁ with
    guards := by
      refine { h₁.guards with wit := ?_, confirmed := ?_ }
      · intro u i g hg
        rcases h₁.guards.wit u i g hg with h1 | ⟨h1, h2⟩
        · exact Or.inl h1
        · exact Or.inr ⟨h1, hheld (hsub u i g hg).2 h2⟩
      · intro u i g hg hc
        obtain ⟨h1, h2, h3⟩ := h₁.guards.confirmed u i g hg hc
        exact ⟨h1, hheld (hsub u i g hg).2 h2, h3⟩
    debts := by
      refine ⟨h₁.debts.guard, fun u d hdu => ?_⟩
      have hu : u ≠ t := by
        rintro rfl
        rw [show s.debt u = some d from hdu] at hd
        cases hd
      obtain ⟨h1, h2, h3⟩ := h₁.debts.label u d hdu
      exact ⟨h1, h2, hheld hu h3⟩
    epochs := by
      refine { h₁.epochs with localEpoch_le := fun u a ha => ?_ }
      simp only [State.endSection, Function.update_apply] at ha
      split at ha
      · cases ha
      · exact h.epochs.localEpoch_le u a ha
    prots := by
      constructor
      · intro u k' hk
        obtain ⟨hu, hk⟩ := hprot hk
        obtain ⟨h1, h2, h3⟩ := h.prots.live u k' hk
        exact ⟨h1, by change Function.update s.localEpoch t none u ≠ none; rw [hloc u hu]; exact h2, h3⟩
      · intro u k' hc hi
        have hu : u ≠ t := by
          rintro rfl
          unfold Covers at hc
          split at hc
          · exact hc
          · exact hc (by change Function.update s.localEpoch u none u = none; simp)
          · exact (hcov hc).1 rfl
        refine hkeep hu (h.prots.of_inLoc u k' ?_ hi)
        unfold Covers at hc ⊢
        split at hc
        · exact hc
        · exact fun hn => hc ((hloc u hu).trans hn)
        · exact (hcov hc).2
      · intro u v e a he hpr ha
        obtain ⟨hu, hpr⟩ := hprot hpr
        exact h.prots.entry u v e a he hpr ((hloc u hu).symm.trans ha)
      · intro u v p e hp he hpr hns
        obtain ⟨hu, hpr⟩ := hprot hpr
        have := h.prots.scanned u v p e hp he hpr hns
        simpa only [Noted, State.endSection, hloc u hu] using this
      · intro u v p e a hp hst he hpr
        obtain ⟨hu, hpr⟩ := hprot hpr
        exact (hloc u hu).trans (h.prots.start u v p e a hp hst he hpr)
      · intro u o' hc
        obtain ⟨hu, hc⟩ := hcov hc
        obtain ⟨k', h1, h2⟩ := h.prots.cov_prot u o' hc
        exact ⟨k', hkeep hu h1, h2⟩
      · intro u o' hk
        obtain ⟨hu, hk⟩ := hprot hk
        obtain ⟨k', h1, h2⟩ := h.prots.implicit_prot u o' hk
        exact ⟨k', hkeep hu h1, h2⟩
      · intro hbi u k' hk
        obtain ⟨hu, hk⟩ := hprot hk
        change Function.update s.cov t (fun _ => false) u k'.obj = true
        rw [Function.update_of_ne hu]
        exact h.prots.prot_cov hbi u k' hk
      · intro u o' a ob hc ha hm
        obtain ⟨hu, hc⟩ := hcov hc
        exact h.prots.cov_end u o' a ob hc ((hloc u hu).symm.trans ha) hm
      · exact h.prots.birth
      · intro hbi u i g hg
        obtain ⟨hg, hu⟩ := hsub u _ g hg
        change Function.update s.cov t (fun _ => false) u g.obj = true
        rw [Function.update_of_ne hu]
        exact h.prots.guard_cov hbi u i g hg
    protShared := fun u k' hk => h.protShared u k' (hprot hk).2
    disposing := h.disposing.mono fun u o' hk => (hprot hk).2 }

/-! ## New guards -/

theorem guardOf_add {guards : Fin n → Nat → Option Guard} (hn : guards t i = none) (κ' : Kind) :
    guardOf (update₂ guards t i (some g)) κ' = if κ' = .weak ∨ g.kind = .strong then
      Function.update (guardOf guards κ') (t, i) (some g.obj) else guardOf guards κ' := by
  funext ⟨u, j⟩
  by_cases he : u = t ∧ j = i
  · obtain ⟨rfl, rfl⟩ := he
    have h0 : guardOf guards κ' (u, j) = none := by simp [guardOf, hn]
    split
    · rename_i hk
      simp [guardOf, update₂_apply, hk]
    · rename_i hk
      rw [h0]
      simp [guardOf, update₂_apply, hk]
  · have hne : (u, j) ≠ (t, i) := fun hc => he ⟨(Prod.mk.inj hc).1, (Prod.mk.inj hc).2⟩
    have h1 : guardOf (update₂ guards t i (some g)) κ' (u, j) = guardOf guards κ' (u, j) := by
      simp [guardOf, update₂_apply, he]
    split
    · rw [Function.update_of_ne hne, h1]
    · exact h1

/-- The unit that a new guard on a unit of `κ` rests on in the book of `κ'`. -/
def restsOn (κ κ' : Kind) (k : Token) : Token := if κ' = κ then k else implicit k.obj

/-- The books with a new guard on the unit `k`. -/
def withGuard (L : Kind → Book n) (t : Fin n) (i : Nat) (κ : Kind) (k : Token) (κ' : Kind) :
    Book n :=
  if κ' = .weak ∨ κ = .strong then (L κ').addGuard (t, i) (restsOn κ κ' k) else L κ'

theorem withGuard_label (κ' : Kind) (d : Fin n) :
    (withGuard L t i κ k κ').label d = (L κ').label d := by
  unfold withGuard
  split <;> rfl

theorem withGuard_paid (κ' : Kind) : (withGuard L t i κ k κ').paid = (L κ').paid := by
  unfold withGuard
  split <;> rfl

theorem withGuard_wit_of_ne {u : Fin n} {j : Nat} (hne : ¬ (u = t ∧ j = i)) (κ' : Kind) :
    (withGuard L t i κ k κ').wit (u, j) = (L κ').wit (u, j) := by
  unfold withGuard
  split
  · simp only [Ledger.addGuard]
    rw [Function.update_of_ne]
    exact fun hc => hne ⟨(Prod.mk.inj hc).1, (Prod.mk.inj hc).2⟩
  · rfl

theorem withGuard_wit {κ' : Kind} (hκ : κ' = .weak ∨ κ = .strong) :
    (withGuard L t i κ k κ').wit (t, i) = restsOn κ κ' k := by
  simp [withGuard, hκ, Ledger.addGuard]

/-- A new guard rests on a unit that stays. -/
theorem Inv.addGuard (h : Inv cfg L s) (hd : s.debt t = none) (hn : s.guards t i = none)
    (hk : s.home k ≠ none) (hkt : k.type = κ.type)
    (hwit : (i = 0 ∧ Locked s.home reading' t k) ∨
      (s.shared k = true ∧ Held cfg s.pass s.prot t i k))
    (hann : cfg.backend = .hp → slots' t i = some k.obj ∧ i ≤ cfg.snapshotSlots)
    (hslots : ∀ u j, ¬ (u = t ∧ j = i) → slots' u j = s.slots u j)
    (hread : ∀ u g, s.guards u 0 = some g → reading' u = s.reading u)
    (hcov : cfg.backend = .ibr → i ≠ 0 → s.cov t k.obj = true) :
    Inv cfg (withGuard L t i κ k) { s with
      guards := update₂ s.guards t i (some (s.guardOn k.obj κ))
      slots := slots'
      reading := reading' } := by
  have hold : ∀ {u j g}, update₂ s.guards t i (some (s.guardOn k.obj κ)) u j = some g →
      (u = t ∧ j = i ∧ g = s.guardOn k.obj κ) ∨ (¬ (u = t ∧ j = i) ∧ s.guards u j = some g) := by
    intro u j g hg
    rw [update₂_apply] at hg
    split at hg
    · rename_i hc
      exact Or.inl ⟨hc.1, hc.2, (Option.some.inj hg).symm⟩
    · rename_i hc
      exact Or.inr ⟨hc, hg⟩
  have hlive : ∀ κ', κ' = .weak ∨ κ = .strong → Live s.home κ' (restsOn κ κ' k) := by
    intro κ' hκ
    unfold restsOn
    split
    · rename_i he
      exact ⟨hk, he ▸ ofKind_of_type hkt⟩
    · rename_i he
      have hs : κ = .strong ∧ κ' = .weak := by
        cases κ <;> cases κ' <;> simp_all
      obtain ⟨rfl, rfl⟩ := hs
      refine ⟨?_, fun hc => by cases hc⟩
      rw [h.life.alive_of_strong k hk hkt]
      exact Option.some_ne_none _
  have hobj : ∀ κ', (restsOn κ κ' k).obj = k.obj := by
    intro κ'
    unfold restsOn
    split <;> rfl
  exact { h with
    books := by
      intro κ'
      change (withGuard L t i κ k κ').Valid _ _
        (guardOf (update₂ s.guards t i (some (s.guardOn k.obj κ))) κ') _
      rw [guardOf_add hn]
      unfold withGuard
      by_cases hκ : κ' = .weak ∨ κ = .strong
      · rw [if_pos hκ, if_pos (show κ' = .weak ∨ (s.guardOn k.obj κ).kind = .strong from hκ)]
        have := (h.books κ').addGuard (g := (t, i)) (k := restsOn κ κ' k) ?_ (hlive κ' hκ)
        · rw [hobj κ'] at this
          exact this
        · intro d hdd
          obtain ⟨dd, hdd, _, he⟩ := debtOf_eq_some hdd
          have : d = t := (Prod.mk.inj he).1.symm
          rw [this, hd] at hdd
          cases hdd
      · rw [if_neg hκ, if_neg (show ¬ (κ' = .weak ∨ (s.guardOn k.obj κ).kind = .strong) from hκ)]
        exact h.books κ'
    counted := h.counted.book fun κ' o => by simp only [Ledger.count, withGuard_paid]
    guards := by
      refine ⟨fun u j g hg => ?_, fun u j g hg hgk => ?_, fun u j g hg hgk => ?_,
        fun u j g ob hg hm => ?_, fun u j g hg hc => ?_⟩
      · rcases hold hg with ⟨rfl, rfl, rfl⟩ | ⟨hne, hg⟩
        · simp only [State.guardOn]
          rw [withGuard_wit (by cases κ <;> simp), restsOn, if_pos rfl]
          exact hwit
        · rw [withGuard_wit_of_ne hne]
          rcases h.guards.wit u j g hg with ⟨rfl, κ', j', h1, h2⟩ | h1
          · exact Or.inl ⟨rfl, κ', j', h1, (hread u g hg).trans h2⟩
          · exact Or.inr h1
      · rcases hold hg with ⟨rfl, rfl, rfl⟩ | ⟨hne, hg⟩
        · have hκ : κ = .strong := hgk
          subst hκ
          rw [withGuard_wit (Or.inr rfl)]
          rfl
        · rw [withGuard_wit_of_ne hne]
          exact h.guards.wit_strong u j g hg hgk
      · rcases hold hg with ⟨rfl, rfl, rfl⟩ | ⟨hne, hg⟩
        · have hκ : κ = .weak := hgk
          subst hκ
          rw [withGuard_wit (Or.inl rfl)]
          exact hkt
        · rw [withGuard_wit_of_ne hne]
          exact h.guards.wit_weak u j g hg hgk
      · rcases hold hg with ⟨rfl, rfl, rfl⟩ | ⟨hne, hg⟩
        · simp only [State.guardOn, State.birth] at hm ⊢
          simp [show s.mem k.obj = some ob from hm]
        · exact h.guards.birth u j g ob hg hm
      · rcases hold hg with ⟨rfl, rfl, rfl⟩ | ⟨hne, hg⟩
        · cases hc
        · exact h.guards.confirmed u j g hg hc
    debts := by
      refine Debts.book ⟨fun u d hdu => ?_, h.debts.label⟩ withGuard_label
      obtain ⟨g, h1, h2⟩ := h.debts.guard u d hdu
      refine ⟨g, ?_, h2⟩
      have hu : ¬ (u = t ∧ d.guard = i) := by
        rintro ⟨rfl, _⟩
        rw [show s.debt u = some d from hdu] at hd
        cases hd
      change update₂ s.guards t i _ u d.guard = some g
      rw [update₂_apply, if_neg hu]
      exact h1
    announced := by
      intro hb u j g hg
      rcases hold hg with ⟨rfl, rfl, rfl⟩ | ⟨hne, hg⟩
      · exact hann hb
      · obtain ⟨h1, h2⟩ := h.announced hb u j g hg
        exact ⟨(hslots u j hne).trans h1, h2⟩
    prots := { h.prots with
      guard_cov := by
        intro hb u j g hg
        rcases hold hg with ⟨rfl, hj, rfl⟩ | ⟨_, hg⟩
        · exact hcov hb (by omega)
        · exact h.prots.guard_cov hb u j g hg } }

/-! ## Reading a location -/

/-- The pointer of a location, as a guard of `t`. -/
theorem Inv.guardLoc (h : Inv cfg L s) (hd : s.debt t = none) (hn : s.guards t i = none)
    (hheld : ∀ k, s.cell (.loc κ l) = some k → Held cfg s.pass s.prot t i k)
    (hann : cfg.backend = .hp → s.slots t i = s.ptr (.loc κ l) ∧ i ≤ cfg.snapshotSlots)
    (hcov : cfg.backend = .ibr → i ≠ 0 → ∀ o, s.ptr (.loc κ l) = some o → s.cov t o = true) :
    Good cfg { s with
      guards := update₂ s.guards t i ((s.ptr (.loc κ l)).map (s.guardOn · κ)) } := by
  cases hc : s.cell (.loc κ l) with
  | none =>
    have hp : s.ptr (.loc κ l) = none := by simp [State.ptr, hc]
    rw [hp]
    exact ⟨L, h.forgetGuard hd⟩
  | some k =>
    have hp : s.ptr (.loc κ l) = some k.obj := by simp [State.ptr, hc]
    have hk := h.places.home_eq hc
    have hsh : s.shared k = true := h.shared.of_exposed k (h.places.type_ne_dispose hc)
      (by rw [hk]; rfl)
    rw [hp] at hann hcov ⊢
    exact ⟨_, h.addGuard hd hn (by rw [hk]; exact Option.some_ne_none _) (h.places.fits _ _ hc)
      (Or.inr ⟨hsh, hheld k hc⟩) hann (fun _ _ _ => rfl) (fun _ _ _ => rfl)
      fun hb hi => hcov hb hi k.obj rfl⟩

theorem Inv.not_list (h : Inv cfg L s) {p : Place n} (hc : s.cell p = some k) (u : Fin n) (e : Entry)
    (he : e ∈ entries s.deferred s.pass u) : e.token ≠ k :=
  h.lists.not_mem (by rw [h.places.home_eq hc]; intro u hc; cases hc) u e he

/-- The load that validates an announcement. -/
theorem Inv.validate (h : Inv cfg L s) {c : Choice} {x : Option Obj} (hb : cfg.backend = .hp)
    (hd : s.debt t = none) (hn : s.guards t i = none) (hs : s.slots t i = x)
    (hi : i ≤ cfg.snapshotSlots) :
    Good cfg (s.validate t c κ l i x).2 ∧
      (((s.validate t c κ l i x).1 = false ∧ (s.validate t c κ l i x).2.loc t = s.loc t) ∨
        ((s.validate t c κ l i x).1 = true ∧ ∃ y, (s.validate t c κ l i x).2.loc t =
          { s.loc t with guards := Function.update (s.guards t) i y } ∧
          y.map (·.obj) = x ∧ ∀ g, y = some g → g.kind = κ)) := by
  unfold State.validate
  split
  · rename_i hx
    obtain ⟨rfl, _⟩ := hx
    refine ⟨h.guardLoc hd hn (fun k hc => ?_) (fun _ => ⟨hs, hi⟩)
      (fun hc => by rw [hb] at hc; cases hc),
      Or.inr ⟨rfl, (s.ptr (.loc κ l)).map (s.guardOn · κ), by simp [State.loc, update₂],
        ?_, ?_⟩⟩
    · exact Held.fresh (h.not_list hc) fun hc => absurd hb hc
    · cases s.ptr (.loc κ l) <;> rfl
    · intro g hg
      obtain ⟨o, _, rfl⟩ := Option.map_eq_some_iff.mp hg
      rfl
  · exact ⟨⟨L, h⟩, Or.inl ⟨rfl, rfl⟩⟩

/-- The section of `t` covers an object that a location leads to. -/
theorem Inv.cover (h : Inv cfg L s) (hb : cfg.backend = .ibr) (hc : s.cell (.loc κ l) = some k)
    (hl : s.localEpoch t ≠ none) (hee : s.epoch ≤ s.endTS t) : Inv cfg L (s.cover t k.obj) := by
  obtain ⟨a, ha⟩ := Option.ne_none_iff_exists'.mp hl
  have hil : ∀ k', inLoc (s.home k') = true → k'.type ≠ .dispose := fun k' hi =>
    h.places.type_of_inLoc hi
  have hpr : ∀ u k', (Function.update s.prot t fun k' => s.prot t k' ||
      (k'.obj == k.obj && inLoc (s.home k'))) u k' = true ↔
      s.prot u k' = true ∨ (u = t ∧ k'.obj = k.obj ∧ inLoc (s.home k') = true) := by
    intro u k'
    by_cases hu : u = t
    · subst hu
      simp
    · simp [hu]
  have hmono : ∀ u k', s.prot u k' = true → (Function.update s.prot t fun k' => s.prot t k' ||
      (k'.obj == k.obj && inLoc (s.home k'))) u k' = true := fun u k' hk => (hpr u k').mpr (Or.inl hk)
  have hprots := h.prots.cover hb (t := t) (o := k.obj) (by
      intro u e he
      rw [h.lists.home_eq he]
      rfl) hil rfl (by rw [h.places.home_eq hc]; rfl) ha
    (Nat.le_trans (h.epochs.localEpoch_le t a ha) hee)
    (fun ob hm => Nat.le_trans (h.epochs.birth_le _ ob hm) hee) hpr
  exact { h with
    guards := by
      refine { h.guards with wit := ?_, confirmed := ?_ }
      · intro u i g hg
        rcases h.guards.wit u i g hg with h1 | ⟨h1, h2⟩
        · exact Or.inl h1
        · exact Or.inr ⟨h1, h2.mono hmono⟩
      · intro u i g hg hc
        obtain ⟨h1, h2, h3⟩ := h.guards.confirmed u i g hg hc
        exact ⟨h1, h2.mono hmono, h3⟩
    debts := h.debts.mono (fun _ => id) hmono
    prots := hprots
    protShared := by
      intro u k' hk hd
      rcases (hpr u k').mp hk with hk | ⟨_, _, hi⟩
      · exact h.protShared u k' hk hd
      · exact h.shared.of_exposed k' hd (exposed_of_inLoc hi)
    disposing := h.disposing.mono fun u o' hk =>
      ((hpr u _).mp hk).resolve_right fun hc => hil _ hc.2.2 rfl }

theorem Inv.setLate (h : Inv cfg L s) {b : Bool} (hb : b = true → s.endTS t < s.epoch) :
    Inv cfg L { s with late := Function.update s.late t b } := by
  refine { h with epochs := { h.epochs with late_lt := fun u hu => ?_ } }
  simp only [Function.update_apply] at hu
  split at hu
  · rename_i hut
    rw [hut]
    exact hb hu
  · exact h.epochs.late_lt u hu

/-- What a protected load leaves in a thread's part. -/
theorem Inv.loadProtected_free (h : Inv cfg L s) (hb : cfg.backend ≠ .hp)
    (hd : s.debt t = none) (hn : s.guards t i = none) (hl : s.localEpoch t ≠ none) :
    Good cfg (s.loadProtected cfg t κ l i).2 ∧
      ∃ y c b, (s.loadProtected cfg t κ l i).2.loc t =
          { s.loc t with guards := Function.update (s.guards t) i y, cov := c, late := b } ∧
        (∀ g, y = some g → g.kind = κ) ∧
        (b = false ∨ cfg.backend = .ebr → y.map (·.obj) = (s.loadProtected cfg t κ l i).1) := by
  have hkind : ∀ g, (s.ptr (.loc κ l)).map (s.guardOn · κ) = some g → g.kind = κ := by
    intro g hg
    obtain ⟨o, _, rfl⟩ := Option.map_eq_some_iff.mp hg
    rfl
  have hobj : ((s.ptr (.loc κ l)).map (s.guardOn · κ)).map (·.obj) = s.ptr (.loc κ l) := by
    cases s.ptr (.loc κ l) <;> rfl
  cases hbe : cfg.backend with
  | hp => exact absurd hbe hb
  | ebr =>
    simp only [State.loadProtected, hbe]
    refine ⟨h.guardLoc hd hn (fun k hc => ?_) (fun hc => absurd hc hb)
      (fun hc => by rw [hbe] at hc; cases hc),
      ⟨_, s.cov t, s.late t, by simp [State.loc, update₂], hkind, fun _ => hobj⟩⟩
    simp only [Held, hbe]
    exact h.prots.of_inLoc t k (by simpa only [Covers, hbe] using hl)
      (by rw [h.places.home_eq hc]; rfl)
  | ibr =>
    simp only [State.loadProtected, hbe]
    split
    · rename_i hee
      have h₁ := h.setLate (t := t) (b := false) (by simp)
      cases hc : s.cell (.loc κ l) with
      | none =>
        have hp : s.ptr (.loc κ l) = none := by simp [State.ptr, hc]
        simp only [hp, Option.map_none]
        refine ⟨⟨L, h₁.forgetGuard hd⟩, ⟨none, s.cov t, false, by simp [State.loc, update₂], by simp, by simp⟩⟩
      | some k =>
        have hp : s.ptr (.loc κ l) = some k.obj := by simp [State.ptr, hc]
        have h₂ := h₁.cover hbe hc hl hee
        rw [hp] at hkind hobj
        simp only [hp]
        have hcov : update₂ s.cov t k.obj true t k.obj = true := by simp [update₂_apply]
        refine ⟨?_, ⟨(some k.obj).map (s.guardOn · κ), (update₂ s.cov t k.obj true) t, false,
          by simp [State.loc, State.cover, update₂], hkind, fun _ => hobj⟩⟩
        have := h₂.guardLoc (i := i) (κ := κ) (l := l) hd hn (fun k' hc' => ?_)
          (fun hc => absurd hc hb) (fun _ _ o' ho' => ?_)
        · have hp₂ : (({ s with late := Function.update s.late t false } : State n).cover t
              k.obj).ptr (.loc κ l) = some k.obj := hp
          rw [hp₂] at this
          exact this
        · simp only [Held, hbe]
          refine h₂.prots.of_inLoc t k' ?_ ?_
          · simp only [Covers, hbe]
            have hk' : k' = k := by
              rw [show s.cell (.loc κ l) = some k' from hc'] at hc
              exact Option.some.inj hc
            rw [hk']
            exact hcov
          · rw [h₂.places.home_eq hc']
            rfl
        · have : some k.obj = some o' := hp.symm.trans ho'
          cases this
          exact hcov
    · rename_i hee
      have h₁ := h.setLate (t := t) (b := true) (fun _ => by omega)
      exact ⟨⟨L, h₁.forgetGuard hd⟩, ⟨none, s.cov t, true, by simp [State.loc, update₂], by simp,
        by simp⟩⟩

/-- A guard that a thread has is given up by its next protected load. -/
theorem loadProtected_forget : ({ s with
    guards := update₂ s.guards t i none } : State n).loadProtected cfg t κ l i =
      s.loadProtected cfg t κ l i := by
  have hup : ∀ y, update₂ (update₂ s.guards t i none) t i y = update₂ s.guards t i y := by
    intro y
    simp [update₂]
  simp only [State.loadProtected, State.ptr, State.guardOn, State.birth, State.cover, hup]

theorem Inv.loadProtected (h : Inv cfg L s) (hb : cfg.backend ≠ .hp)
    (hd : s.debt t = none) (hl : s.localEpoch t ≠ none) :
    Good cfg (s.loadProtected cfg t κ l i).2 ∧
      ∃ y c b, (s.loadProtected cfg t κ l i).2.loc t =
          { s.loc t with guards := Function.update (s.guards t) i y, cov := c, late := b } ∧
        (∀ g, y = some g → g.kind = κ) ∧
        (b = false ∨ cfg.backend = .ebr → y.map (·.obj) = (s.loadProtected cfg t κ l i).1) := by
  have h1 := (h.forgetGuard (i := i) hd).loadProtected_free (κ := κ) (l := l) (i := i) hb hd
    (by simp [update₂_apply]) hl
  rw [loadProtected_forget] at h1
  obtain ⟨h2, ⟨y, c, b, h3, h4⟩⟩ := h1
  refine ⟨h2, ⟨y, c, b, h3.trans ?_, h4⟩⟩
  simp [State.loc, update₂]

theorem reserve_eq : s.reserve cfg t κ i = (s.ptr (.var κ i), { s with
    slots := if cfg.backend = .hp then update₂ s.slots t 0 (s.ptr (.var κ i)) else s.slots
    reading := Function.update s.reading t (some (κ, i))
    guards := update₂ s.guards t 0 ((s.ptr (.var κ i)).map (s.guardOn · κ)) }) := by
  unfold State.reserve
  cases cfg.backend <;> simp

/-- `reserve` of the pointer in a variable, which stays while the operation reads it. -/
theorem Inv.reserve (h : Inv cfg L s) (hd : s.debt t = none) (hn : s.guards t 0 = none) :
    Good cfg (s.reserve cfg t κ i).2 ∧ ∃ y z, (s.reserve cfg t κ i).2.loc t =
      { s.loc t with
        slots := z, reading := some (κ, i), guards := Function.update (s.guards t) 0 y } ∧
      ∀ g, y = some g → g.kind = κ := by
  have hread : ∀ u g, s.guards u 0 = some g → Function.update s.reading t (some (κ, i)) u =
      s.reading u := by
    intro u g hg
    refine Function.update_of_ne ?_ _ _
    rintro rfl
    rw [hn] at hg
    cases hg
  rw [reserve_eq]
  cases hc : s.cell (.var κ i) with
  | none =>
    have hp : s.ptr (.var κ i) = none := by simp [State.ptr, hc]
    simp only [hp, Option.map_none]
    refine ⟨⟨L, h.dropGuard hd (fun u j hne => ?_) fun u hne => ?_⟩, none,
      (if cfg.backend = .hp then update₂ s.slots t 0 none else s.slots) t,
      by simp [State.loc, update₂], by simp⟩
    · split
      · rw [update₂_apply, if_neg hne]
      · rfl
    · exact Function.update_of_ne (fun hu => hne ⟨hu, rfl⟩) _ _
  | some k =>
    have hp : s.ptr (.var κ i) = some k.obj := by simp [State.ptr, hc]
    have hk := h.places.home_eq hc
    simp only [hp, Option.map_some]
    refine ⟨⟨_, h.addGuard hd hn (by rw [hk]; exact Option.some_ne_none _) (h.places.fits _ _ hc)
      (Or.inl ⟨rfl, κ, i, hk, by simp⟩) ?_ ?_ hread (fun _ hc => absurd rfl hc)⟩,
      some (s.guardOn k.obj κ),
      (if cfg.backend = .hp then update₂ s.slots t 0 (some k.obj) else s.slots) t,
      by simp [State.loc, update₂], ?_⟩
    · intro hb
      simp [hb, update₂_apply]
    · intro u j hne
      split
      · rw [update₂_apply, if_neg hne]
      · rfl
    · rintro _ ⟨⟩
      rfl

/-! ## The read of `ref_cnt` -/

/-- A thread's part after a read of a positive strong count. -/
def Local.confirm (a : Local n) : Via → Local n
  | .var _ _ => a
  | .guard i =>
    { a with
      guards := Function.update a.guards i
        ((a.guards i).map fun g => { g with confirmed := true }) }

theorem guardOf_confirm (hg : s.guards t i = some g) (κ : Kind) :
    guardOf (update₂ s.guards t i (some { g with confirmed := true })) κ = guardOf s.guards κ := by
  funext x
  obtain ⟨u, j⟩ := x
  simp only [guardOf, update₂_apply]
  split
  · rename_i he
    rw [he.1, he.2, hg]
    rfl
  · rfl

/-- The object of a guard has strong units, so that its disposal is still to be retired. -/
theorem Inv.confirm (h : Inv cfg L s) (hg : s.guards t i = some g) (hr : s.reading t = none)
    (ha : s.home (implicit g.obj) = some .alive) :
    Inv cfg L { s with
      guards := update₂ s.guards t i (some { g with confirmed := true })
      prot := if cfg.backend = .hp then s.prot else update₂ s.prot t (implicit g.obj) true } := by
  have hwit : s.shared ((L g.kind).wit (t, i)) = true ∧
      Held cfg s.pass s.prot t i ((L g.kind).wit (t, i)) := by
    rcases h.guards.wit t i g hg with ⟨_, κ', j, _, hc⟩ | hw
    · rw [hr] at hc
      cases hc
    · exact hw
  have hobj : ((L g.kind).wit (t, i)).obj = g.obj :=
    ((h.books g.kind).wit_live (t, i) g.obj (guardOf_of hg id)).2
  have htype : ((L g.kind).wit (t, i)).type ≠ .dispose := by
    cases hk : g.kind with
    | strong =>
      have hlive := ((h.books .strong).wit_live (t, i) g.obj (guardOf_of hg fun _ => hk)).1.2
      intro hc
      rw [show ((L .strong).wit (t, i)).type = .decrementStrongCount from hlive] at hc
      cases hc
    | weak =>
      rw [h.guards.wit_weak t i g hg hk]
      decide
  have hprotWit : cfg.backend ≠ .hp → s.prot t ((L g.kind).wit (t, i)) = true := by
    intro hb
    have := hwit.2
    unfold Held at this
    split at this
    · exact absurd ‹_› hb
    · exact this
  have hpr : ∀ u k, (if cfg.backend = .hp then s.prot else update₂ s.prot t (implicit g.obj) true)
      u k = true ↔ s.prot u k = true ∨ (cfg.backend ≠ .hp ∧ u = t ∧ k = implicit g.obj) := by
    intro u k
    split
    · simp [*]
    · rw [update₂_apply]
      split <;> simp_all
  have hmono : ∀ u k, s.prot u k = true → (if cfg.backend = .hp then s.prot else
      update₂ s.prot t (implicit g.obj) true) u k = true := fun u k hk => (hpr u k).mpr (Or.inl hk)
  -- the implicit unit is in no list, so no pass and no entry is concerned
  have hnot : ∀ u e, e ∈ entries s.deferred s.pass u → e.token ≠ implicit g.obj :=
    h.lists.not_mem (by rw [ha]; intro u hc; cases hc)
  have hold : ∀ {u : Fin n} {j : Nat} {g' : Guard},
      update₂ s.guards t i (some { g with confirmed := true }) u j = some g' →
      (u = t ∧ j = i ∧ g' = { g with confirmed := true }) ∨ s.guards u j = some g' := by
    intro u j g' hg'
    rw [update₂_apply] at hg'
    split at hg'
    · rename_i he
      cases hg'
      exact Or.inl ⟨he.1, he.2, rfl⟩
    · exact Or.inr hg'
  have hearly : ∀ u st, s.owned u g.obj = some st → st.early := by
    intro u st hst
    by_cases hl : st = .last
    · subst hl
      rw [h.life.last u g.obj (implicit g.obj) hst rfl] at ha
      cases ha
    · rw [(h.life.owned_iff u g.obj).mpr ⟨st, hst, hl⟩] at ha
      cases ha
  have hguards := h.guards
  exact { h with
    books := fun κ' => by
      rw [guardOf_confirm hg]
      exact h.books κ'
    guards := by
      constructor
      · intro u j g' hg'
        rcases hold hg' with ⟨rfl, rfl, rfl⟩ | hg'
        · exact Or.inr ⟨hwit.1, hwit.2.mono hmono⟩
        · rcases hguards.wit u j g' hg' with h1 | ⟨h1, h2⟩
          · exact Or.inl h1
          · exact Or.inr ⟨h1, h2.mono hmono⟩
      · intro u j g' hg' hk
        rcases hold hg' with ⟨rfl, rfl, rfl⟩ | hg'
        · exact hguards.wit_strong u j g hg hk
        · exact hguards.wit_strong u j g' hg' hk
      · intro u j g' hg' hk
        rcases hold hg' with ⟨rfl, rfl, rfl⟩ | hg'
        · exact hguards.wit_weak u j g hg hk
        · exact hguards.wit_weak u j g' hg' hk
      · intro u j g' ob hg' hm
        rcases hold hg' with ⟨rfl, rfl, rfl⟩ | hg'
        · exact hguards.birth u j g ob hg hm
        · exact hguards.birth u j g' ob hg' hm
      · intro u j g' hg' hc
        rcases hold hg' with ⟨rfl, rfl, rfl⟩ | hg'
        · refine ⟨by rw [ha]; exact Option.some_ne_none _, ?_, hearly⟩
          exact Held.fresh hnot fun hb => (hpr u _).mpr (Or.inr ⟨hb, rfl, rfl⟩)
        · obtain ⟨h1, h2, h3⟩ := hguards.confirmed u j g' hg' hc
          exact ⟨h1, h2.mono hmono, h3⟩
    debts := by
      refine ⟨fun u d hd => ?_, (h.debts.mono (fun _ => id) hmono).label⟩
      obtain ⟨g', h1, h2, h3⟩ := h.debts.guard u d hd
      by_cases he : u = t ∧ d.guard = i
      · rw [he.1, he.2, hg] at h1
        cases h1
        exact ⟨{ g with confirmed := true }, by simp [update₂_apply, he], h2, h3⟩
      · exact ⟨g', by simp only [update₂_apply, if_neg he]; exact h1, h2, h3⟩
    announced := by
      intro hb u j g' hg'
      rcases hold hg' with ⟨rfl, rfl, rfl⟩ | hg'
      · exact h.announced hb u j g hg
      · exact h.announced hb u j g' hg'
    prots :=
      { live := by
          intro u k hk
          rcases (hpr u k).mp hk with hk | ⟨hb, rfl, rfl⟩
          · exact h.prots.live u k hk
          · obtain ⟨_, h2, _⟩ := h.prots.live u _ (hprotWit hb)
            exact ⟨by rw [ha]; exact Option.some_ne_none _, h2, hb⟩
        of_inLoc := fun u k hc hi => hmono u k (h.prots.of_inLoc u k hc hi)
        entry := by
          intro u v e a he hk hl
          refine h.prots.entry u v e a he (((hpr u _).mp hk).resolve_right ?_) hl
          exact fun hc => hnot v e he hc.2.2
        scanned := by
          intro u v p e hp he hk hs
          refine h.prots.scanned u v p e hp he (((hpr u _).mp hk).resolve_right ?_) hs
          exact fun hc => hnot v e (mem_entries_of_pass hp he) hc.2.2
        start := by
          intro u v p e a hp hs he hk
          refine h.prots.start u v p e a hp hs he (((hpr u _).mp hk).resolve_right ?_)
          exact fun hc => hnot v e (mem_entries_of_pass hp he) hc.2.2
        cov_prot := by
          intro u o hc
          obtain ⟨k, h1, h2⟩ := h.prots.cov_prot u o hc
          exact ⟨k, hmono u k h1, h2⟩
        implicit_prot := by
          intro u o hk
          rcases (hpr u _).mp hk with hk | ⟨hb, rfl, he⟩
          · obtain ⟨k, h1, h2, h3⟩ := h.prots.implicit_prot u o hk
            exact ⟨k, hmono u k h1, h2, h3⟩
          · have ho : o = g.obj := congrArg Token.obj he
            exact ⟨_, hmono u _ (hprotWit hb), hobj.trans ho.symm, htype⟩
        prot_cov := by
          intro hb u k hk
          rcases (hpr u k).mp hk with hk | ⟨hb', rfl, rfl⟩
          · exact h.prots.prot_cov hb u k hk
          · have := h.prots.prot_cov hb u _ (hprotWit hb')
            rw [hobj] at this
            exact this
        cov_end := h.prots.cov_end
        birth := h.prots.birth
        guard_cov := by
          intro hb u j g' hg'
          rcases hold hg' with ⟨rfl, hj, rfl⟩ | hg'
          · exact h.prots.guard_cov hb u j g (hj ▸ hg)
          · exact h.prots.guard_cov hb u j g' hg' }
    protShared := by
      intro u k hk hd
      rcases (hpr u k).mp hk with hk | ⟨_, _, rfl⟩
      · exact h.protShared u k hk hd
      · exact absurd rfl hd
    disposing := by
      intro u o ho v
      rw [Bool.eq_false_iff]
      intro hk
      rcases (hpr v _).mp hk with hk | ⟨_, _, he⟩
      · rw [h.disposing u o ho v] at hk
        cases hk
      · have he : o = g.obj := congrArg Token.obj he
        rw [he] at ho
        cases hearly u _ ho }

theorem confirm_eq (hg : s.guards t i = some g) : s.confirm cfg t (.guard i) = { s with
    guards := update₂ s.guards t i (some { g with confirmed := true })
    prot := if cfg.backend = .hp then s.prot else update₂ s.prot t (implicit g.obj) true } := by
  simp only [State.confirm, hg]
  cases cfg.backend <;> simp

/-- A read of `ref_cnt` through a pointer returns at once. -/
theorem Inv.loadRef (h : Inv cfg L s) {via : Via} {r : Option Nat} {s' : State n}
    (hok : ViaOk (s.guards t) .strong via ∨ cfg.atomicCounters = true) (hr : s.reading t = none)
    (he : s.loadRef cfg t via = some (r, s')) :
    Good cfg s' ∧ ∃ c, r = some c ∧
      ((c = 0 ∧ s' = s) ∨ (0 < c ∧ s'.loc t = (s.loc t).confirm via)) := by
  unfold State.loadRef at he
  split at he
  · cases he
    exact ⟨⟨L, h⟩, 0, rfl, Or.inl ⟨rfl, rfl⟩⟩
  rename_i o hv
  obtain ⟨k, hk, hko, hkd, hks⟩ := h.via_token hv
  obtain ⟨ob, hm⟩ := Option.ne_none_iff_exists'.mp (hko ▸ h.counted.present k hk)
  simp only [hm, Option.some.injEq, Prod.mk.injEq] at he
  obtain ⟨rfl, rfl⟩ := he
  have hpos : ViaOk (s.guards t) .strong via → 0 < (L .strong).count Token.obj o := by
    intro hv
    rw [← hko]
    exact h.count_pos hk (hks hv)
  have hval : ob.loadRef cfg = some ((L .strong).count Token.obj o) := by
    have href := h.counted.ref o ob hm (hok.imp_left hpos)
    by_cases ha : cfg.atomicCounters = true
    · rw [Object.loadRef, if_pos ha, href]
    · have hpos := hpos (hok.resolve_right ha)
      have hle := h.counted.ref_le o
      rw [maxValue_eq] at hle
      rw [Object.loadRef, if_neg ha, access_load_pos (by omega), loadResult_low (by omega)]
      exact congrArg some href
  rw [hval]
  by_cases hc : (L .strong).count Token.obj o = 0
  · rw [hc, if_pos rfl]
    exact ⟨⟨L, h⟩, 0, rfl, Or.inl ⟨rfl, rfl⟩⟩
  · rw [if_neg (fun he => hc (Option.some.inj he))]
    cases via with
    | var κ' j => exact ⟨⟨L, h⟩, _, rfl, Or.inr ⟨Nat.pos_of_ne_zero hc, rfl⟩⟩
    | guard j =>
      obtain ⟨g, hg, rfl⟩ := Option.map_eq_some_iff.mp hv
      have halive : s.home (implicit g.obj) = some .alive := by
        by_contra ha
        exact hc (h.strong_count_zero ha)
      have hconf := h.confirm hg hr halive
      refine ⟨⟨L, ?_⟩, _, rfl, Or.inr ⟨Nat.pos_of_ne_zero hc, ?_⟩⟩
      · rw [confirm_eq hg]
        exact hconf
      · rw [confirm_eq hg]
        simp [State.loc, Local.confirm, hg, update₂]

/-! ## New objects -/

/-- The homes of units after `o` was created with the strong unit `k` in a variable. -/
def created (home : Token → Option (Home n)) (k : Token) (i : Nat) (o : Obj) :
    Token → Option (Home n) :=
  Function.update (Function.update home k (some (.cell (.var .strong i)))) (implicit o) (some .alive)

section Created
variable {home : Token → Option (Home n)} {mem : Obj → Option Object}
  {owned : Fin n → Obj → Option Stage}

theorem created_cases (home : Token → Option (Home n)) (i : Nat) (o : Obj) (k' : Token) :
    (k' = implicit o ∧ created home k i o k' = some .alive) ∨
      (k' = k ∧ created home k i o k' = some (.cell (.var .strong i))) ∨
      (k' ≠ implicit o ∧ k' ≠ k ∧ created home k i o k' = home k') := by
  unfold created
  by_cases h1 : k' = implicit o
  · exact Or.inl ⟨h1, by rw [h1, Function.update_self]⟩
  · by_cases h2 : k' = k
    · refine Or.inr (Or.inl ⟨h2, ?_⟩)
      rw [Function.update_of_ne h1, h2, Function.update_self]
    · refine Or.inr (Or.inr ⟨h1, h2, ?_⟩)
      rw [Function.update_of_ne h1, Function.update_of_ne h2]

theorem created_ne_none {k' : Token} (h : created home k i o k' ≠ none) :
    k' = implicit o ∨ k' = k ∨ home k' ≠ none := by
  rcases created_cases home i o k' with ⟨h1, _⟩ | ⟨h1, _⟩ | ⟨_, _, h1⟩
  · exact Or.inl h1
  · exact Or.inr (Or.inl h1)
  · exact Or.inr (Or.inr (h1 ▸ h))

theorem created_of_ne_none (hn : ∀ k', k'.obj = o → home k' = none)
    (hko : k.obj = o) {k' : Token} (h : home k' ≠ none) : created home k i o k' = home k' := by
  rcases created_cases home i o k' with ⟨h1, _⟩ | ⟨h1, _⟩ | ⟨_, _, h1⟩
  · exact absurd (hn k' (h1 ▸ rfl)) h
  · exact absurd (hn k' (h1 ▸ hko)) h
  · exact h1

theorem Life.create (h : Life mem home owned) (hk : k.type = .decrementStrongCount)
    (hko : k.obj = o) (hn : ∀ k', k'.obj = o → home k' = none) (hm : mem o = none) {ob : Object}
    (ha : ob.alive = true) :
    Life (Function.update mem o (some ob)) (created home k i o) owned := by
  have hkd : k.type ≠ .dispose := by rw [hk]; decide
  have hcases := created_cases (k := k) home i o
  have hno : ∀ u st, owned u o ≠ some st := fun u st hu => h.present u o st hu hm
  have hne : ∀ {o'}, o' ≠ o → created home k i o (implicit o') = home (implicit o') := by
    intro o' he
    rcases hcases (implicit o') with ⟨h1, _⟩ | ⟨h1, _⟩ | ⟨_, _, h1⟩
    · exact absurd (congrArg Token.obj h1) he
    · exact absurd ((congrArg Token.obj h1).trans hko) he
    · exact h1
  have hself : created home k i o (implicit o) = some .alive := Function.update_self ..
  constructor
  · intro k' h1 h2
    by_cases he : k'.obj = o
    · rw [he, hself]
    · rw [hne he]
      rcases created_ne_none h1 with rfl | rfl | h1
      · exact absurd rfl he
      · exact absurd hko he
      · exact h.alive_of_strong k' h1 h2
  · intro o' h1
    by_cases he : o' = o
    · subst he
      refine ⟨k, ?_, hko, hk⟩
      rcases hcases k with ⟨_, h1⟩ | ⟨_, h1⟩ | ⟨_, hc, _⟩
      · rw [h1]; exact Option.some_ne_none _
      · rw [h1]; exact Option.some_ne_none _
      · exact absurd rfl hc
    · rw [hne he] at h1
      obtain ⟨k', h2, h3, h4⟩ := h.strong_of_alive o' h1
      exact ⟨k', by rw [created_of_ne_none hn hko h2]; exact h2, h3, h4⟩
  · intro k' h1
    rcases hcases k' with ⟨h2, _⟩ | ⟨_, h2⟩ | ⟨_, _, h2⟩
    · rw [h2]; rfl
    · rw [h2] at h1
      rcases h1 with hc | ⟨_, hc⟩ <;> cases hc
    · rw [h2] at h1
      exact h.only_implicit k' h1
  · intro u o'
    by_cases he : o' = o
    · subst he
      rw [hself]
      constructor
      · intro hc
        cases hc
      · rintro ⟨st, hu, _⟩
        exact absurd hu (hno u st)
    · rw [hne he]
      exact h.owned_iff u o'
  · intro u o' st hu
    have he : o' ≠ o := fun he => hno u st (he ▸ hu)
    rw [Function.update_of_ne he]
    exact h.present u o' st hu
  · intro u o' ob' hu ho
    have he : o' ≠ o := fun he => hno u _ (he ▸ hu)
    rw [Function.update_of_ne he] at ho
    exact h.parked u o' ob' hu ho
  · intro u o' k' hu h1 h2
    have he : o' ≠ o := fun he => hno u _ (he ▸ hu)
    rcases created_ne_none h1 with rfl | rfl | h1
    · exact absurd h2.symm he
    · exact absurd (h2.symm.trans hko) he
    · exact h.immediate u o' k' hu h1 h2
  · intro u o' k' hu h2
    have he : o' ≠ o := fun he => hno u _ (he ▸ hu)
    by_contra h1
    rcases created_ne_none h1 with rfl | rfl | h1
    · exact he h2.symm
    · exact he (h2.symm.trans hko)
    · exact h1 (h.last u o' k' hu h2)
  · exact h.last_unique
  · intro o' ob' ho h1 h2
    by_cases he : o' = o
    · subst he
      simp only [Function.update_self, Option.some.injEq] at ho
      rw [← ho]
      exact ha
    · rw [Function.update_of_ne he] at ho
      rw [hne he] at h1
      exact h.alive o' ob' ho h1 h2

end Created

/-- `create_object` with an address that is not in use. -/
theorem Inv.create (h : Inv cfg L s) {birth : Nat} (hm : s.mem o = none)
    (hc : s.cell (.var .strong i) = none) (hb : birth ≤ s.epoch) :
    Good cfg (s.create i birth o) ∧ (s.create i birth o).loc t = s.loc t := by
  have hnone : ∀ k, k.obj = o → s.home k = none := by
    intro k hk
    by_contra hh
    exact h.counted.present k hh (hk ▸ hm)
  have hne : ∀ {k}, s.home k ≠ none → k.obj ≠ o := fun hk he => hk (hnone _ he)
  obtain ⟨k, hkdef⟩ : ∃ k : Token, k = ⟨o, Kind.strong.type, s.nextId⟩ := ⟨_, rfl⟩
  have hkt : k.type = .decrementStrongCount := by rw [hkdef]; rfl
  have hko : k.obj = o := by rw [hkdef]
  have hkd : k.type ≠ .dispose := by rw [hkt]; decide
  have hkn : s.home k = none := hnone k hko
  have hsame : ∀ {k'}, s.home k' ≠ none → created s.home k i o k' = s.home k' := fun hk =>
    created_of_ne_none hnone hko hk
  -- one unit is added to each book
  let x : Kind → Token := Kind.rec k (implicit o)
  have hxo : ∀ κ, (x κ).obj = o := by
    intro κ
    cases κ with
    | strong => exact hko
    | weak => rfl
  have hlive : ∀ κ k', Live (created s.home k i o) κ k' ↔ Live s.home κ k' ∨ k' = x κ := by
    intro κ k'
    cases κ with
    | strong =>
      rw [← live_add (x := some (.cell (.var .strong i))) (Option.some_ne_none _)
        (show ofKind .strong k from hkt) k']
      exact (live_other (κ := .strong) (x := some .alive) (show ¬ ofKind .strong (implicit o) from
        fun hc => by cases hc) k').symm
    | weak =>
      unfold created
      rw [live_add (Option.some_ne_none _) (show ofKind .weak (implicit o) from fun hc => by cases hc) k',
        ← live_other (x := some (.cell (.var .strong i)))
          (show ¬ ofKind .weak k from fun hc => hc hkt) k']
  have hcount0 : ∀ κ, (L κ).count Token.obj o = 0 := by
    intro κ
    rw [Ledger.count, Finset.card_eq_zero, Finset.filter_eq_empty_iff]
    intro k' hk' he
    exact hne ((h.books κ).live_of_paid hk').1 he
  have hcount : ∀ κ o', ((L κ).mint (x κ)).count Token.obj o' =
      (L κ).count Token.obj o' + if o = o' then 1 else 0 := by
    intro κ o'
    have hnp : x κ ∉ (L κ).paid := fun hc => hne ((h.books κ).live_of_paid hc).1 (hxo κ)
    have := Ledger.count_insert Token.obj hnp o'
    rw [hxo] at this
    exact this
  have hst : ∀ {o'}, o' ≠ o →
      Function.update s.mem o (some ⟨construct 1, 1, birth, true⟩) o' = s.mem o' := fun he =>
    Function.update_of_ne he _ _
  have hgo : ∀ u j g, s.guards u j = some g → g.obj ≠ o := by
    intro u j g hg
    obtain ⟨k', h1, h2, _⟩ := h.guard_token hg
    exact h2 ▸ hne h1
  have hentry : ∀ u e, e ∈ entries s.deferred s.pass u → e.token.obj ≠ o := by
    intro u e he
    refine hne ?_
    rw [h.lists.home_eq he]
    exact Option.some_ne_none _
  have hcounted : Counted cfg (fun κ => (L κ).mint (x κ))
      (Function.update s.mem o (some ⟨construct 1, 1, birth, true⟩))
      (created s.home k i o) := by
    constructor
    · intro k' hk'
      by_cases he : k'.obj = o
      · simp [he]
      · rw [hst he]
        rcases created_ne_none hk' with rfl | rfl | hk'
        · exact absurd rfl he
        · exact absurd hko he
        · exact h.counted.present k' hk'
    · intro o' ob ho h1
      rw [hcount] at h1 ⊢
      by_cases he : o' = o
      · subst he
        simp only [Function.update_self, Option.some.injEq] at ho
        rw [← ho, hcount0, if_pos rfl]
        rfl
      · rw [hst he] at ho
        rw [if_neg (Ne.symm he)] at h1 ⊢
        exact h.counted.ref o' ob ho h1
    · intro o'
      rw [hcount]
      split
      · rename_i he
        rw [← he, hcount0]
        decide
      · exact h.counted.ref_le o'
    · intro o' ob ho
      rw [hcount]
      by_cases he : o' = o
      · subst he
        simp only [Function.update_self, Option.some.injEq] at ho
        rw [← ho, hcount0, if_pos rfl]
      · rw [hst he] at ho
        rw [if_neg (Ne.symm he)]
        exact h.counted.weak o' ob ho
  have hguards : Guards cfg (fun κ => (L κ).mint (x κ))
      (Function.update s.mem o (some ⟨construct 1, 1, birth, true⟩))
      (created s.home k i o) s.shared s.reading s.pass s.prot s.owned s.guards := by
    refine { h.guards with wit := ?_, birth := ?_, confirmed := ?_ }
    · intro u j g hg
      refine (h.guards.wit u j g hg).imp_left ?_
      rintro ⟨h1, κ', i', h2, h3⟩
      exact ⟨h1, κ', i', (hsame (ne_of_eq_of_ne h2 (Option.some_ne_none _))).trans h2, h3⟩
    · intro u j g ob hg ho
      simp only [hst (hgo u j g hg)] at ho
      exact h.guards.birth u j g ob hg ho
    · intro u j g hg hg'
      obtain ⟨h1, h2, h3⟩ := h.guards.confirmed u j g hg hg'
      exact ⟨by rw [hsame h1]; exact h1, h2, h3⟩
  have hepochs : Epochs (Function.update s.mem o (some ⟨construct 1, 1, birth, true⟩))
      s.epoch s.readTS s.localEpoch s.endTS s.late := by
    refine { h.epochs with birth_le := fun o' ob ho => ?_ }
    by_cases he : o' = o
    · subst he
      simp only [Function.update_self, Option.some.injEq] at ho
      rw [← ho]
      exact hb
    · rw [hst he] at ho
      exact h.epochs.birth_le o' ob ho
  have hprots : Prots cfg (Function.update s.mem o (some ⟨construct 1, 1, birth, true⟩))
      (created s.home k i o) s.prot s.cov s.localEpoch s.endTS s.deferred s.pass s.guards := by
    refine { h.prots with live := ?_, of_inLoc := ?_, cov_end := ?_, birth := ?_ }
    · intro u k' hk'
      obtain ⟨h1, h2⟩ := h.prots.live u k' hk'
      exact ⟨by rw [hsame h1]; exact h1, h2⟩
    · intro u k' hcov hi
      refine h.prots.of_inLoc u k' hcov ?_
      rcases created_cases s.home i o k' with
        ⟨_, h1⟩ | ⟨_, h1⟩ | ⟨_, _, h1⟩
      · rw [h1] at hi
        cases hi
      · rw [h1] at hi
        cases hi
      · rw [← h1]
        exact hi
    · intro u o' a ob hcov hl ho
      obtain ⟨k', h1, h2⟩ := h.prots.cov_prot u o' hcov
      have he : o' ≠ o := h2 ▸ hne (h.prots.live u k' h1).1
      rw [hst he] at ho
      exact h.prots.cov_end u o' a ob hcov hl ho
    · intro hbe u e ob he ho
      rw [hst (hentry u e he)] at ho
      exact h.prots.birth hbe u e ob he ho
  refine ⟨⟨fun κ => (L κ).mint (x κ), ?_⟩, by simp [State.create, State.loc, State.mint, State.setObj]⟩
  have hcreate : s.create i birth o = { s with
      mem := Function.update s.mem o (some ⟨construct 1, 1, birth, true⟩)
      cell := Function.update s.cell (.var .strong i) (some k)
      home := created s.home k i o
      nextId := s.nextId + 1 } := by
    rw [hkdef]
    rfl
  rw [hcreate]
  exact { h with
    places := by
      have h1 := h.places.add hkn hc (show Fits (.var .strong i) k from hkt)
      refine h1.elsewhere ?_ ?_
      · intro q hq
        rw [update_home_implicit hkd, hnone (implicit o) rfl] at hq
        cases hq
      · intro q hq
        cases hq
    lists := by
      have h1 := h.lists.elsewhere (k := k) (x := some (.cell (.var .strong i)))
        (by rw [hkn]; intro u hu; cases hu) (by intro u hu; cases hu)
      refine h1.elsewhere ?_ (by intro u hu; cases hu)
      rw [update_home_implicit hkd, hnone (implicit o) rfl]
      intro u hu
      cases hu
    fresh := by
      rw [hkdef]
      exact h.fresh.mint.setImplicit
    books := fun κ => (h.books κ).mint (fun hc => hne hc.1 (hxo κ)) (hlive κ)
    counted := hcounted
    life := h.life.create hkt hko hnone hm rfl
    guards := hguards
    debts := h.debts.book fun _ _ => rfl
    epochs := hepochs
    prots := hprots
    shared := by
      rw [hkdef]
      refine (h.shared.mint rfl).relocate (fun hc => absurd rfl hc) ?_
      intro κ' j hx
      cases hx }

end Cdrc.Smr
