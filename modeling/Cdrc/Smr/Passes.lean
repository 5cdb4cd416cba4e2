import Cdrc.Smr.Disposal

/-! # Reference counting over a memory manager: deferred lists and passes -/
namespace Cdrc.Smr
open Cdrc.StickyCounter Cdrc.CountedObject Cdrc.Lib.Threads Cdrc.Lib.Units

variable {n : Nat} {cfg : Config} {L : Kind → Book n} {s s' : State n}
  {mem : Obj → Option Object} {home : Token → Option (Home n)}
  {deferred deferred' : Fin n → List Entry} {pass pass' : Fin n → Option (Pass n)}
  {inProgress : Fin n → Bool}
  {owned : Fin n → Obj → Option Stage} {prot : Fin n → Token → Bool}
  {cov : Fin n → Obj → Bool} {epoch : Nat} {readTS : Fin n → Nat}
  {localEpoch : Fin n → Option Nat} {endTS : Fin n → Nat} {late : Fin n → Bool}
  {guards : Fin n → Nat → Option Guard}
  {k : Token} {x : Option (Home n)} {o : Obj} {t : Fin n} {p : Pass n}

/-! ## `retire` -/

theorem entries_append (e : Entry) (u : Fin n) :
    (entries (Function.update deferred t (deferred t ++ [e])) pass u).Perm
      (if u = t then e :: entries deferred pass t else entries deferred pass u) := by
  by_cases hu : u = t
  · subst hu
    simp only [entries, Function.update_self, if_true, List.append_assoc, List.singleton_append]
    exact List.perm_middle
  · simp [entries, hu]

theorem mem_entries_append {e e' : Entry} {u : Fin n} :
    e' ∈ entries (Function.update deferred t (deferred t ++ [e])) pass u ↔
      e' ∈ entries deferred pass u ∨ (u = t ∧ e' = e) := by
  rw [(entries_append e u).mem_iff]
  by_cases hu : u = t
  · subst hu
    simp [or_comm]
  · simp [hu]

/-- A unit that was elsewhere is put on the list of `t`. -/
theorem Lists.append (h : Lists home deferred pass inProgress) {e : Entry}
    (hk : ∀ u, home e.token ≠ some (.list u)) :
    Lists (Function.update home e.token (some (.list t)))
      (Function.update deferred t (deferred t ++ [e])) pass inProgress := by
  constructor
  · intro u k
    simp only [mem_entries_append]
    by_cases he : k = e.token
    · subst he
      simp only [Function.update_self, Option.some.injEq, Home.list.injEq]
      constructor
      · rintro rfl
        exact ⟨e, Or.inr ⟨rfl, rfl⟩, rfl⟩
      · rintro ⟨e', he' | ⟨hu, _⟩, hek⟩
        · exact absurd (hek ▸ h.home_eq he') (hk u)
        · exact hu.symm
    · rw [Function.update_of_ne he, h.list_iff u k]
      constructor
      · rintro ⟨e', he', hek⟩
        exact ⟨e', Or.inl he', hek⟩
      · rintro ⟨e', he' | ⟨_, rfl⟩, hek⟩
        · exact ⟨e', he', hek⟩
        · exact absurd hek.symm he
  · intro u
    rw [((entries_append e u).map _).nodup_iff]
    split
    · rw [List.map_cons, List.nodup_cons]
      refine ⟨fun hm => ?_, h.nodup t⟩
      obtain ⟨e', he', hek⟩ := List.mem_map.mp hm
      exact hk t (hek ▸ h.home_eq he')
    · exact h.nodup u
  · exact h.inProgress

/-- The sections that keep a unit keep its entry. -/
theorem Prots.append (h : Prots cfg mem home prot cov localEpoch endTS deferred pass guards)
    {e : Entry}
    (hent : ∀ u a, prot u e.token = true → localEpoch u = some a →
      a ≤ e.retireTS ∧ (cfg.backend = .ibr → e.birthTS ≤ endTS u))
    (hb : cfg.backend = .ibr → ∀ ob, mem e.token.obj = some ob → e.birthTS = ob.birthTS) :
    Prots cfg mem home prot cov localEpoch endTS
      (Function.update deferred t (deferred t ++ [e])) pass guards := by
  refine { h with entry := ?_, birth := ?_ }
  · intro u v e' a he' hpr hl
    rcases mem_entries_append.mp he' with he' | ⟨_, rfl⟩
    · exact h.entry u v e' a he' hpr hl
    · exact hent u a hpr hl
  · intro hib u e' ob he' hm
    rcases mem_entries_append.mp he' with he' | ⟨_, rfl⟩
    · exact h.birth hib u e' ob he' hm
    · exact hb hib ob hm

/-- The time stamps of a new entry. -/
theorem Inv.stamps (h : Inv cfg L s) (hk : s.home k ≠ none) :
    (∀ u a, s.prot u k = true → s.localEpoch u = some a →
      a ≤ s.epoch ∧ (cfg.backend = .ibr → s.birth k.obj ≤ s.endTS u)) ∧
      ∀ ob, s.mem k.obj = some ob → s.birth k.obj = ob.birthTS := by
  have hbirth : ∀ ob, s.mem k.obj = some ob → s.birth k.obj = ob.birthTS := by
    intro ob hm
    simp [State.birth, hm]
  refine ⟨fun u a hpr hl => ⟨h.epochs.localEpoch_le u a hl, fun hb => ?_⟩, hbirth⟩
  obtain ⟨ob, hm⟩ := Option.ne_none_iff_exists'.mp (h.counted.present k hk)
  rw [hbirth ob hm]
  exact (h.prots.cov_end u k.obj a ob (h.prots.prot_cov hb u k hpr) hl hm).2

/-- `retire` of the pointer in the thread's hand. -/
theorem Inv.emplace (h : Inv cfg L s) {r : Unit} (he : s.emplace cfg t = some (r, s')) :
    Good cfg s' ∧ s'.loc t = { s.loc t with hand := none } := by
  unfold State.emplace at he
  split at he
  · rename_i hc
    cases he
    exact ⟨⟨L, h⟩, by simp [State.loc, hc]⟩
  rename_i k hc
  have hk := h.places.home_eq hc
  have hd := h.places.type_ne_dispose hc
  have hkn : s.home k ≠ none := by rw [hk]; exact Option.some_ne_none _
  have hx : some (Home.list t) ≠ none := Option.some_ne_none _
  split at he
  · rename_i hb
    exact absurd hb.2 (h.counted.present k hkn)
  cases he
  obtain ⟨hent, hbirth⟩ := h.stamps hkn
  have hsh : s.shared k = true := h.shared.of_exposed k hd (by rw [hk]; rfl)
  refine ⟨⟨L, ?_⟩, by simp [State.loc]⟩
  exact { h with
    places := h.places.remove hc (by intro q hc; cases hc)
    lists := h.lists.append (e := ⟨k, s.birth k.obj, s.epoch⟩) (by rw [hk]; intro u hc; cases hc)
    fresh := h.fresh.set hkn
    books := fun κ => (h.books κ).congr (live_relocate hkn hx κ)
    counted := h.counted.relocate hkn
    life := h.life.relocate hkn hd hx (by intro hc; cases hc) (by intro t hc; cases hc)
    guards := h.guards.relocate hd (not_locked hk (by rintro _ _ ⟨⟩)) (fun _ => id) (fun _ _ => id)
    prots := (h.prots.relocate hx rfl).append hent fun _ => hbirth
    shared := h.shared.relocate (fun _ _ => hsh) (by rintro κ i ⟨⟩) }

/-- `retire(ptr, RetireType::dispose)`. -/
theorem Inv.emplaceDispose (h : Inv cfg L s) {r : Unit} (ho : s.owned t o = some .zero)
    (he : s.emplaceDispose cfg t o = some (r, s')) :
    Good cfg s' ∧ s'.loc t = { s.loc t with owned := Function.update (s.owned t) o none } := by
  have hpres := h.life.present t o _ ho
  unfold State.emplaceDispose at he
  split at he
  · rename_i hb
    exact absurd hb.2 hpres
  cases he
  have hi := h.life.implicit_of_owned ho (by decide)
  have hin : s.home (implicit o) ≠ none := by rw [hi]; exact Option.some_ne_none _
  have hx : some (Home.list t) ≠ none := Option.some_ne_none _
  have hic : ∀ q, s.home (implicit o) ≠ some (.cell q) := by rw [hi]; intro q hc; cases hc
  have hother := h.life.owned_unique ho (by decide)
  obtain ⟨hent, hbirth⟩ := h.stamps hin
  have hlife := h.life.stage (t := t) (x := some (.list t)) (y := none) (h.life.not_alive ho) hin
    hx (by simp) (by intro u; simp) hother (by simp) (by simp) (by simp) hpres (by
      intro ob hm _
      refine h.life.alive o ob hm hin fun u st hu => ?_
      by_cases hut : u = t
      · rw [hut, ho] at hu
        cases hu
        rfl
      · rw [hother u hut] at hu
        cases hu)
  refine ⟨⟨L, ?_⟩, by simp [State.loc, update₂]⟩
  exact { h with
    places := h.places.elsewhere hic (by intro q hc; cases hc)
    lists := h.lists.append (e := ⟨implicit o, s.birth o, s.epoch⟩)
      (by rw [hi]; intro u hc; cases hc)
    fresh := h.fresh.setImplicit
    books := fun κ => (h.books κ).congr (live_relocate hin hx κ)
    counted := h.counted.relocate hin
    life := hlife
    guards := by
      refine (h.guards.setImplicit hic hx).setOwned fun u i g hg hc v st hv => ?_
      simp only [update₂_apply] at hv
      split at hv
      · cases hv
      · exact (h.guards.confirmed u i g hg hc).2.2 v st hv
    prots := (h.prots.relocate hx rfl).append hent fun _ => hbirth
    shared := h.shared.relocate (fun hc => absurd rfl hc) (by rintro κ i ⟨⟩)
    disposing := h.disposing.stage (by simp) }

/-! ## What a pass knows -/

/-- The passes change, and know what they must of every guard. -/
theorem Inv.setPass (h : Inv cfg L s) {inProgress' : Fin n → Bool} {w : Fin n → Nat}
    (hlists : Lists s.home deferred' pass' inProgress')
    (hheld : ∀ u i g k, s.guards u i = some g → k.obj = g.obj → Held cfg s.pass s.prot u i k →
      Held cfg pass' s.prot u i k)
    (hpasses : cfg.backend = .hp → ∀ t p, pass' t = some p → PassOk p)
    (hprots : Prots cfg s.mem s.home s.prot s.cov s.localEpoch s.endTS deferred' pass' s.guards) :
    Inv cfg L { s with
      deferred := deferred', pass := pass', inProgress := inProgress', work := w } := by
  exact { h with
    lists := hlists
    guards := by
      refine { h.guards with wit := ?_, confirmed := ?_ }
      · intro u i g hg
        rcases h.guards.wit u i g hg with h1 | ⟨h1, h2⟩
        · exact Or.inl h1
        · have ho := ((h.books g.kind).wit_live (u, i) g.obj (guardOf_of hg fun hc => hc)).2
          exact Or.inr ⟨h1, hheld u i g _ hg ho h2⟩
      · intro u i g hg hc
        obtain ⟨h1, h2, h3⟩ := h.guards.confirmed u i g hg hc
        exact ⟨h1, hheld u i g _ hg rfl h2, h3⟩
    debts := by
      refine ⟨h.debts.guard, fun u d hd => ?_⟩
      obtain ⟨h1, h2, h3⟩ := h.debts.label u d hd
      obtain ⟨g, hg, ho, _⟩ := h.debts.guard u d hd
      exact ⟨h1, h2, hheld u d.guard g _ hg ((h.debt_obj hd).trans ho.symm) h3⟩
    passes := hpasses
    prots := hprots }

theorem Held.of_prot {i : Nat} (hb : cfg.backend ≠ .hp) {u : Fin n}
    (h : Held cfg pass prot u i k) : Held cfg pass' prot u i k := by
  unfold Held at h ⊢
  split
  · exact absurd ‹_› hb
  · split at h
    · exact absurd ‹_› hb
    · exact h

/-! ## The start of a pass -/

theorem mem_scanOrder {u : Fin n} {i : Nat} :
    (u, i) ∈ cfg.scanOrder n ↔ (cfg.backend = .hp → i ≤ cfg.snapshotSlots) ∧
      (cfg.backend ≠ .hp → i = 0) := by
  simp only [Config.scanOrder, List.mem_flatMap, List.mem_finRange, true_and]
  cases hb : cfg.backend with
  | hp =>
    simp only [List.mem_map, List.mem_range, Prod.mk.injEq]
    constructor
    · rintro ⟨v, j, hj, rfl, rfl⟩
      exact ⟨fun _ => by omega, fun hc => absurd rfl hc⟩
    · rintro ⟨h1, _⟩
      have := h1 trivial
      exact ⟨u, i, by omega, rfl, rfl⟩
  | ebr => simp
  | ibr => simp

theorem nodup_scanOrder (cfg : Config) (n : Nat) : (cfg.scanOrder n).Nodup := by
  unfold Config.scanOrder
  refine List.nodup_flatMap.mpr ⟨fun u _ => ?_, ?_⟩
  · split
    · exact (List.nodup_range).map fun i j hij => (Prod.mk.inj hij).2
    · simp
  · refine (List.nodup_finRange n).imp ?_
    intro u v huv
    simp only [Function.onFun, List.disjoint_left]
    intro w hu hv
    -- what a thread's part of the scan reads is the thread's
    have hfst : ∀ {u' : Fin n} {k : Nat}, w ∈ (List.range k).map (fun i => (u', i)) → w.1 = u' := by
      intro u' k hw
      obtain ⟨i, _, rfl⟩ := List.mem_map.mp hw
      rfl
    cases hb : cfg.backend with
    | hp =>
      simp only [hb] at hu hv
      exact huv ((hfst hu).symm.trans (hfst hv))
    | ebr =>
      simp only [hb, List.mem_singleton] at hu hv
      exact huv (congrArg Prod.fst (hu.symm.trans hv))
    | ibr =>
      simp only [hb, List.mem_singleton] at hu hv
      exact huv (congrArg Prod.fst (hu.symm.trans hv))

/-- A thread's part while its pass has entries and slots left. -/
structure Scanning (p : Pass n) (todo : List (Fin n × Nat)) : Prop where
  toScan : p.toScan = todo
  nodup : todo.Nodup
  start : p.start = none

theorem Inv.tryBegin (h : Inv cfg L s) {r : Bool} (he : s.tryBegin cfg t = some (r, s')) :
    Good cfg s' ∧ ((r = false ∧ s'.loc t = s.loc t) ∨
      (r = true ∧ s.pass t = none ∧ ∃ p, s'.loc t = { s.loc t with pass := some p } ∧
        Scanning p (cfg.scanOrder n))) := by
  unfold State.tryBegin at he
  split at he
  swap
  · cases he
    exact ⟨⟨L, h⟩, Or.inl ⟨rfl, rfl⟩⟩
  rename_i hc
  simp only at he
  split at he
  · cases he
    exact ⟨⟨L, { h with }⟩, Or.inl ⟨rfl, rfl⟩⟩
  cases he
  have hnone : s.pass t = none := by
    have := h.lists.inProgress t
    rw [hc.1] at this
    simpa using this.symm
  generalize hp : (⟨s.deferred t, [], cfg.scanOrder n, ∅, fun _ _ => 0, none, [], none⟩ : Pass n) = p
  have hent : ∀ u, entries (Function.update s.deferred t []) (Function.update s.pass t (some p)) u =
      entries s.deferred s.pass u := by
    intro u
    rw [entries_update]
    by_cases hu : u = t
    · subst hu
      simp [entries, hnone, ← hp, Pass.entries]
    · simp [entries, hu]
  have hpass : ∀ {u q}, Function.update s.pass t (some p) u = some q →
      (u = t ∧ q = p) ∨ (u ≠ t ∧ s.pass u = some q) := by
    intro u q hq
    by_cases hu : u = t
    · rw [hu, Function.update_self] at hq
      exact Or.inl ⟨hu, (Option.some.inj hq).symm⟩
    · rw [Function.update_of_ne hu] at hq
      exact Or.inr ⟨hu, hq⟩
  refine ⟨⟨L, ?_⟩, Or.inr ⟨rfl, hnone, p, by simp [State.loc],
    ⟨by rw [← hp], nodup_scanOrder cfg n, by rw [← hp]⟩⟩⟩
  refine h.setPass ?_ ?_ ?_ ?_
  · refine ⟨fun u k => ?_, fun u => ?_, fun u => ?_⟩
    · rw [hent]
      exact h.lists.list_iff u k
    · rw [hent]
      exact h.lists.nodup u
    · by_cases hu : u = t
      · simp [hu]
      · rw [Function.update_of_ne hu, Function.update_of_ne hu]
        exact h.lists.inProgress u
  · intro u i g k hg ho hh
    by_cases hb : cfg.backend = .hp
    · simp only [Held, hb] at hh ⊢
      intro r q hq hk hns
      rcases hpass hq with ⟨_, rfl⟩ | ⟨_, hq⟩
      · refine absurd ?_ hns
        rw [← hp]
        exact mem_scanOrder.mpr ⟨fun _ => (h.announced hb u i g hg).2, fun hc => absurd hb hc⟩
      · exact hh r q hq hk hns
    · exact hh.of_prot hb
  · intro hb u q hq
    rcases hpass hq with ⟨_, rfl⟩ | ⟨_, hq⟩
    · rw [← hp]
      exact ⟨by simp, fun _ => rfl, fun o ty => by simp [Pass.keptOf, Pass.seen, quota]⟩
    · exact h.passes hb u q hq
  · refine { h.prots with entry := ?_, scanned := ?_, start := ?_, birth := ?_ }
    · intro u v e a hev
      rw [hent] at hev
      exact h.prots.entry u v e a hev
    · intro u v q e hq hev hpr hns
      rcases hpass hq with ⟨_, rfl⟩ | ⟨_, hq⟩
      · refine absurd ?_ hns
        rw [← hp]
        exact mem_scanOrder.mpr
          ⟨fun hb => absurd hb (h.prots.live u _ hpr).2.2, fun _ => rfl⟩
      · exact h.prots.scanned u v q e hq hev hpr hns
    · intro u v q e a hq hst hev hpr
      rcases hpass hq with ⟨_, rfl⟩ | ⟨_, hq⟩
      · rw [← hp] at hst
        cases hst
      · exact h.prots.start u v q e a hq hst hev hpr
    · intro hb u e ob hev
      rw [hent] at hev
      exact h.prots.birth hb u e ob hev

/-! ## The scan -/

theorem mem_entries_setPass {p' : Pass n} (hp : pass t = some p)
    (hperm : p'.entries.Perm p.entries) (u : Fin n) :
    (entries deferred (Function.update pass t (some p')) u).Perm (entries deferred pass u) := by
  rw [entries_update]
  split
  · rename_i hu
    subst hu
    simp only [entries, hp, Option.map_some, Option.getD_some]
    exact hperm.append_left _
  · exact .refl _

theorem Lists.setPass (h : Lists home deferred pass inProgress) {p' : Pass n}
    (hp : pass t = some p) (hperm : p'.entries.Perm p.entries) :
    Lists home deferred (Function.update pass t (some p')) inProgress := by
  refine ⟨fun u k => ?_, fun u => ?_, fun u => ?_⟩
  · rw [h.list_iff u k]
    constructor
    · rintro ⟨e, he, hk⟩
      exact ⟨e, (mem_entries_setPass hp hperm u).mem_iff.mpr he, hk⟩
    · rintro ⟨e, he, hk⟩
      exact ⟨e, (mem_entries_setPass hp hperm u).mem_iff.mp he, hk⟩
  · exact ((mem_entries_setPass hp hperm u).map _).nodup_iff.mpr (h.nodup u)
  · rw [h.inProgress u]
    by_cases hu : u = t
    · simp [hu, hp]
    · rw [Function.update_of_ne hu]

/-- One pass changes; its entries are the same. -/
theorem Inv.onPass (h : Inv cfg L s) {f : Pass n → Pass n} (hp : s.pass t = some p)
    (hperm : (f p).entries.Perm p.entries)
    (hsaw : cfg.backend = .hp → ∀ u i g, s.guards u i = some g → (u, i) ∉ (f p).toScan →
      ((u, i) ∉ p.toScan → ((u, i), g.obj) ∈ p.saw) → ((u, i), g.obj) ∈ (f p).saw)
    (hok : cfg.backend = .hp → PassOk (f p))
    (hnote : ∀ u e, e ∈ p.entries → s.prot u e.token = true → (u, 0) ∉ (f p).toScan →
      Noted cfg s.localEpoch (f p) u e)
    (hstart : ∀ u e a, e ∈ p.entries → s.prot u e.token = true → (f p).start = some (u, a) →
      s.localEpoch u = some a) :
    Inv cfg L (s.onPass t f) ∧ (s.onPass t f).loc t = { s.loc t with pass := some (f p) } := by
  have hpass : ∀ {u q}, Function.update s.pass t (some (f p)) u = some q →
      (u = t ∧ q = f p) ∨ (u ≠ t ∧ s.pass u = some q) := by
    intro u q hq
    by_cases hu : u = t
    · rw [hu, Function.update_self] at hq
      exact Or.inl ⟨hu, (Option.some.inj hq).symm⟩
    · rw [Function.update_of_ne hu] at hq
      exact Or.inr ⟨hu, hq⟩
  have hent : ∀ {u e}, e ∈ entries s.deferred (Function.update s.pass t (some (f p))) u →
      e ∈ entries s.deferred s.pass u := fun {u e} he =>
    (mem_entries_setPass hp hperm u).mem_iff.mp he
  simp only [State.onPass, hp, Option.map_some]
  refine ⟨h.setPass (h.lists.setPass hp hperm) ?_ ?_ ?_, by simp [State.loc]⟩
  · intro u i g k hg ho hh
    by_cases hb : cfg.backend = .hp
    · simp only [Held, hb] at hh ⊢
      rintro r q hq ⟨e, he, hk⟩ hns
      rcases hpass hq with ⟨rfl, rfl⟩ | ⟨_, hq⟩
      · rw [ho]
        refine hsaw hb u i g hg hns fun hns' => ?_
        rw [← ho]
        exact hh r p hp ⟨e, hperm.mem_iff.mp he, hk⟩ hns'
      · exact hh r q hq ⟨e, he, hk⟩ hns
    · exact hh.of_prot hb
  · intro hb u q hq
    rcases hpass hq with ⟨_, rfl⟩ | ⟨_, hq⟩
    · exact hok hb
    · exact h.passes hb u q hq
  · refine { h.prots with entry := ?_, scanned := ?_, start := ?_, birth := ?_ }
    · exact fun u v e a he => h.prots.entry u v e a (hent he)
    · intro u v q e hq he hpr hns
      rcases hpass hq with ⟨_, rfl⟩ | ⟨_, hq⟩
      · exact hnote u e (hperm.mem_iff.mp he) hpr hns
      · exact h.prots.scanned u v q e hq he hpr hns
    · intro u v q e a hq hst he hpr
      rcases hpass hq with ⟨_, rfl⟩ | ⟨_, hq⟩
      · exact hstart u e a (hperm.mem_iff.mp he) hpr hst
      · exact h.prots.start u v q e a hq hst he hpr
    · exact fun hb u e ob he => h.prots.birth hb u e ob (hent he)

theorem Scanning.erase {a : Fin n × Nat} {rest : List (Fin n × Nat)} (hs : Scanning p (a :: rest)) :
    p.toScan.erase a = rest := by
  rw [hs.toScan, List.erase_cons_head]

/-- A slot that is not to be read after this one was read. -/
theorem Scanning.read {a b : Fin n × Nat} {rest : List (Fin n × Nat)}
    (hs : Scanning p (a :: rest)) (hb : b ∉ rest) : b = a ∨ b ∉ p.toScan := by
  rw [hs.toScan, List.mem_cons]
  tauto

theorem PassOk.scanSlot {u : Fin n} {i : Nat} {rest : List (Fin n × Nat)} {y : Option Obj}
    (h : PassOk p) (hs : Scanning p ((u, i) :: rest)) : PassOk (p.scanSlot u i y) := by
  have hkept : p.kept = [] := h.unkept (by rw [hs.toScan]; simp)
  have hnr : (u, i) ∉ rest := (List.nodup_cons.mp hs.nodup).1
  have hsub : ∀ {b o'}, (b, o') ∈ p.saw → b ∉ rest := by
    intro b o' hb hc
    refine h.scanned b o' hb ?_
    rw [hs.toScan]
    exact List.mem_cons_of_mem _ hc
  cases y with
  | none =>
    simp only [Pass.scanSlot, hs.erase]
    exact ⟨fun b o' hb => hsub hb, fun _ => hkept, h.quota⟩
  | some o =>
    have hnew : ((u, i), o) ∉ p.saw := fun hc =>
      h.scanned _ o hc (by rw [hs.toScan]; exact List.mem_cons_self)
    simp only [Pass.scanSlot, Pass.announce, hs.erase]
    refine ⟨fun b o' hb => ?_, fun _ => hkept, fun o' ty => ?_⟩
    · rcases Finset.mem_insert.mp hb with hb | hb
      · cases hb
        exact hnr
      · exact hsub hb
    · have hq := h.quota o' ty
      by_cases ho : o' = o
      · subst ho
        have hseen : (Finset.filter (fun x => x.2 = o') (insert ((u, i), o') p.saw)).card =
            p.seen o' + 1 := by
          rw [Finset.filter_insert, if_pos rfl, Finset.card_insert_of_notMem]
          · rfl
          · exact fun hc => hnew (Finset.mem_filter.mp hc).1
        simp only [Pass.keptOf, hkept, List.countP_nil, Nat.add_zero, Function.update_self,
          Pass.seen] at hq ⊢
        rw [hseen]
        cases hc : p.seen o' with
        | zero =>
          have : p.announced o' ty = 0 := by
            rw [hq]
            unfold Pass.seen at hc
            rw [hc]
            rfl
          simp [this, Smr.quota]
        | succ m =>
          unfold Pass.seen at hc
          rw [hc] at hq
          simp only [Smr.quota] at hq
          simp [hq, Smr.quota]
      · have hseen : Finset.filter (fun x => x.2 = o') (insert ((u, i), o) p.saw) =
            Finset.filter (fun x => x.2 = o') p.saw := by
          rw [Finset.filter_insert, if_neg (fun hc => ho hc.symm)]
        simp only [Pass.keptOf, hkept, List.countP_nil, Nat.add_zero, Function.update_of_ne ho,
          Pass.seen] at hq ⊢
        rw [hseen]
        exact hq

theorem Pass.scanSlot_fields (p : Pass n) (u : Fin n) (i : Nat) (y : Option Obj) :
    (p.scanSlot u i y).toScan = p.toScan.erase (u, i) ∧ (p.scanSlot u i y).entries = p.entries ∧
      (p.scanSlot u i y).start = p.start ∧ (∀ a ∈ p.saw, a ∈ (p.scanSlot u i y).saw) ∧
      ∀ o, y = some o → ((u, i), o) ∈ (p.scanSlot u i y).saw := by
  cases y with
  | none => exact ⟨rfl, rfl, rfl, fun _ => id, by simp⟩
  | some o =>
    refine ⟨rfl, rfl, rfl, fun a ha => Finset.mem_insert_of_mem ha, ?_⟩
    rintro _ ⟨⟩
    exact Finset.mem_insert_self _ _

theorem Inv.scanSlot (h : Inv cfg L s) {u : Fin n} {i : Nat} {rest : List (Fin n × Nat)}
    (hb : cfg.backend = .hp) (hp : s.pass t = some p) (hs : Scanning p ((u, i) :: rest)) :
    Good cfg (s.onPass t fun p => p.scanSlot u i (s.slots u i)) ∧
      ∃ p', (s.onPass t fun p => p.scanSlot u i (s.slots u i)).loc t =
        { s.loc t with pass := some p' } ∧ Scanning p' rest := by
  obtain ⟨h1, h2, h3, h4, h5⟩ := p.scanSlot_fields u i (s.slots u i)
  rw [hs.erase] at h1
  have hno : ∀ v k, s.prot v k ≠ true := fun v k hpr => (h.prots.live v k hpr).2.2 hb
  obtain ⟨h6, h7⟩ := h.onPass (f := fun p => p.scanSlot u i (s.slots u i)) hp (by rw [h2])
    (by
      intro _ v j g hg hns hold
      rw [h1] at hns
      rcases hs.read hns with hv | hv
      · cases hv
        exact h5 g.obj (h.announced hb u i g hg).1
      · exact h4 _ (hold hv))
    (fun _ => (h.passes hb t p hp).scanSlot hs)
    (fun v e _ hpr => absurd hpr (hno v _)) (fun v e a _ hpr => absurd hpr (hno v _))
  exact ⟨⟨L, h6⟩, _, h7, h1, (List.nodup_cons.mp hs.nodup).2, h3.trans hs.start⟩

theorem minOf_le_left {a b : Option Nat} {m : Nat} (h : a = some m) :
    ∃ m', minOf a b = some m' ∧ m' ≤ m := by
  subst h
  cases b with
  | none => exact ⟨m, rfl, Nat.le_refl m⟩
  | some b => exact ⟨min m b, rfl, Nat.min_le_left m b⟩

theorem minOf_le_right {a b : Option Nat} {m : Nat} (h : b = some m) :
    ∃ m', minOf a b = some m' ∧ m' ≤ m := by
  subst h
  cases a with
  | none => exact ⟨m, rfl, Nat.le_refl m⟩
  | some a => exact ⟨min a m, rfl, Nat.min_le_right a m⟩

theorem Inv.scanEpoch (h : Inv cfg L s) {u : Fin n} {rest : List (Fin n × Nat)}
    (hb : cfg.backend = .ebr) (hp : s.pass t = some p) (hs : Scanning p ((u, 0) :: rest)) :
    Good cfg (s.onPass t fun p => p.scanEpoch u (s.localEpoch u)) ∧
      ∃ p', (s.onPass t fun p => p.scanEpoch u (s.localEpoch u)).loc t =
        { s.loc t with pass := some p' } ∧ Scanning p' rest := by
  have hnb : cfg.backend ≠ .hp := by rw [hb]; decide
  obtain ⟨h6, h7⟩ := h.onPass (f := fun p => p.scanEpoch u (s.localEpoch u)) hp (.refl _)
    (fun hc => absurd hc hnb) (fun hc => absurd hc hnb)
    (by
      intro v e he hpr hns
      simp only [Pass.scanEpoch, hs.erase] at hns
      simp only [Noted, hb, Pass.scanEpoch]
      rcases hs.read hns with hv | hv
      · cases hv
        obtain ⟨a, ha⟩ := Option.ne_none_iff_exists'.mp (h.prots.live u _ hpr).2.1
        obtain ⟨m', h1, h2⟩ := minOf_le_right (a := p.minEpoch) ha
        exact ⟨m', a, h1, ha, h2⟩
      · have := h.prots.scanned v t p e hp he hpr hv
        simp only [Noted, hb] at this
        obtain ⟨m, a, h1, h2, h3⟩ := this
        obtain ⟨m', h4, h5⟩ := minOf_le_left (b := s.localEpoch u) h1
        exact ⟨m', a, h4, h2, Nat.le_trans h5 h3⟩)
    (fun v e a he hpr hst => h.prots.start v t p e a hp hst he hpr)
  exact ⟨⟨L, h6⟩, _, h7, hs.erase, (List.nodup_cons.mp hs.nodup).2, hs.start⟩

/-- The start epoch of `u` was read, its end epoch was not. -/
structure ScanningEnd (p : Pass n) (u : Fin n) (e : Nat) (todo : List (Fin n × Nat)) : Prop where
  toScan : p.toScan = (u, 0) :: todo
  nodup : ((u, 0) :: todo).Nodup
  start : p.start = some (u, e)

theorem Inv.scanStart (h : Inv cfg L s) {u : Fin n} {rest : List (Fin n × Nat)}
    (hb : cfg.backend = .ibr) (hp : s.pass t = some p) (hs : Scanning p ((u, 0) :: rest)) :
    Good cfg (s.onPass t fun p => p.scanStart u (s.localEpoch u)) ∧
      ∃ p', (s.onPass t fun p => p.scanStart u (s.localEpoch u)).loc t =
        { s.loc t with pass := some p' } ∧
        (s.localEpoch u = none → Scanning p' rest) ∧
        ∀ e, s.localEpoch u = some e → ScanningEnd p' u e rest := by
  have hnb : cfg.backend ≠ .hp := by rw [hb]; decide
  have hnote : ∀ v e, e ∈ p.entries → s.prot v e.token = true → (v, 0) ∉ p.toScan →
      Noted cfg s.localEpoch p v e := fun v e he hpr hns => h.prots.scanned v t p e hp he hpr hns
  cases hl : s.localEpoch u with
  | none =>
    obtain ⟨h6, h7⟩ := h.onPass (f := fun p => p.scanStart u none) hp (.refl _)
      (fun hc => absurd hc hnb) (fun hc => absurd hc hnb)
      (by
        intro v e he hpr hns
        simp only [Pass.scanStart, hs.erase] at hns
        rcases hs.read hns with hv | hv
        · cases hv
          exact absurd hl (h.prots.live u _ hpr).2.1
        · simpa only [Noted, hb, Pass.scanStart] using hnote v e he hpr hv)
      (fun v e a he hpr hst => h.prots.start v t p e a hp hst he hpr)
    exact ⟨⟨L, h6⟩, _, h7,
      fun _ => ⟨hs.erase, (List.nodup_cons.mp hs.nodup).2, hs.start⟩, by simp⟩
  | some e =>
    obtain ⟨h6, h7⟩ := h.onPass (f := fun p => p.scanStart u (some e)) hp (.refl _)
      (fun hc => absurd hc hnb) (fun hc => absurd hc hnb)
      (by
        intro v e' he hpr hns
        simpa only [Noted, hb, Pass.scanStart] using hnote v e' he hpr hns)
      (by
        intro v e' a _ _ hst
        simp only [Pass.scanStart, Option.some.injEq, Prod.mk.injEq] at hst
        obtain ⟨rfl, rfl⟩ := hst
        exact hl)
    refine ⟨⟨L, h6⟩, _, h7, by simp, ?_⟩
    rintro _ ⟨⟩
    exact ⟨hs.toScan, hs.nodup, rfl⟩

theorem Inv.scanEnd (h : Inv cfg L s) {u : Fin n} {e : Nat} {rest : List (Fin n × Nat)}
    (hb : cfg.backend = .ibr) (hp : s.pass t = some p) (hs : ScanningEnd p u e rest) :
    Good cfg (s.onPass t fun p => p.scanEnd u e (s.endTS u)) ∧
      ∃ p', (s.onPass t fun p => p.scanEnd u e (s.endTS u)).loc t =
        { s.loc t with pass := some p' } ∧ Scanning p' rest := by
  have hnb : cfg.backend ≠ .hp := by rw [hb]; decide
  have herase : p.toScan.erase (u, 0) = rest := by rw [hs.toScan, List.erase_cons_head]
  obtain ⟨h6, h7⟩ := h.onPass (f := fun p => p.scanEnd u e (s.endTS u)) hp (.refl _)
    (fun hc => absurd hc hnb) (fun hc => absurd hc hnb)
    (by
      intro v e' he hpr hns
      simp only [Pass.scanEnd, herase] at hns
      simp only [Noted, hb, Pass.scanEnd]
      by_cases hv : v = u
      · -- the interval of `u` reaches from its start epoch past the birth of what it keeps
        subst hv
        have hl := h.prots.start v t p e' e hp hs.start he hpr
        have hent := h.prots.entry v t e' e (mem_entries_of_pass hp he) hpr hl
        have hlive := (h.prots.live v _ hpr).1
        obtain ⟨ob, hm⟩ := Option.ne_none_iff_exists'.mp (h.counted.present e'.token hlive)
        have hend := h.prots.cov_end v e'.token.obj e ob (h.prots.prot_cov hb v _ hpr) hl hm
        rw [if_pos hend.1]
        exact ⟨e, s.endTS v, by simp, hl, hent.2 hb⟩
      · have hns' : (v, 0) ∉ p.toScan := by
          rw [hs.toScan, List.mem_cons]
          rintro (hc | hc)
          · exact hv (Prod.mk.inj hc).1
          · exact hns hc
        have := h.prots.scanned v t p e' hp he hpr hns'
        simp only [Noted, hb] at this
        obtain ⟨a, b, h1, h2, h3⟩ := this
        refine ⟨a, b, ?_, h2, h3⟩
        split
        · exact List.mem_append.mpr (Or.inl h1)
        · exact h1)
    (by intro v e' a _ _ hst; cases hst)
  exact ⟨⟨L, h6⟩, _, h7, herase, (List.nodup_cons.mp hs.nodup).2, rfl⟩

/-! ## `remove_if` -/

theorem PassOk.keep {e : Entry} {rest : List Entry} (h : PassOk p) (hb : cfg.backend = .hp)
    (hsc : p.toScan = []) (hej : p.ejects cfg e = false) : PassOk (p.keep cfg e rest) := by
  simp only [Pass.ejects, hb, beq_eq_false_iff_ne] at hej
  refine ⟨?_, ?_, fun o ty => ?_⟩
  · intro b o' hb'
    simp only [Pass.keep, hsc]
    simp
  · intro hc
    simp only [Pass.keep, hsc] at hc
    exact absurd rfl hc
  · have hq := h.quota o ty
    simp only [Pass.keep, hb, Pass.keptOf, List.countP_append, List.countP_singleton,
      update₂_apply, Pass.seen, decide_eq_true_eq] at hq ⊢
    by_cases ho : o = e.token.obj ∧ ty = e.token.type
    · obtain ⟨rfl, rfl⟩ := ho
      simp only [and_self, if_true]
      omega
    · rw [if_neg ho, if_neg fun hc => ho ⟨hc.1.symm, hc.2.symm⟩]
      exact hq

theorem Inv.judge (h : Inv cfg L s) {r : Verdict} (hp : s.pass t = some p) (hsc : p.toScan = [])
    (he : s.judge cfg t = some (r, s')) :
    Good cfg s' ∧ ((r = .finished ∧ p.todo = [] ∧ s'.loc t = s.loc t) ∨
      (r = .kept ∧ ∃ p', s'.loc t = { s.loc t with pass := some p' } ∧ p'.toScan = []) ∨
      ∃ e, r = .eject e.token.type ∧ Ejecting cfg p e ∧ s'.loc t = s.loc t) := by
  simp only [State.judge, hp] at he
  cases ht : p.todo with
  | nil =>
    simp only [ht] at he
    cases he
    exact ⟨⟨L, h⟩, Or.inl ⟨rfl, rfl, rfl⟩⟩
  | cons e rest =>
    simp only [ht] at he
    split at he
    · rename_i hej
      cases he
      exact ⟨⟨L, h⟩, Or.inr (Or.inr ⟨e, rfl, ⟨hsc, by rw [ht]; rfl, hej⟩, rfl⟩)⟩
    · rename_i hej
      cases he
      have hperm : (p.keep cfg e rest).entries.Perm p.entries := by
        simp only [Pass.keep, Pass.entries, ht]
        rw [← List.append_assoc]
        exact (List.perm_append_singleton e _)
      obtain ⟨h1, h2⟩ := h.onPass (f := fun p => p.keep cfg e rest) hp hperm
        (fun _ u i g hg _ hold => hold (by rw [hsc]; simp))
        (fun hb => (h.passes hb t p hp).keep hb hsc (by simpa using hej))
        (fun u e' he' hpr _ =>
          h.prots.scanned u t p e' hp he' hpr (by rw [hsc]; simp))
        (fun u e' a he' hpr hst => h.prots.start u t p e' a hp hst he' hpr)
      exact ⟨⟨L, h1⟩, Or.inr (Or.inl ⟨rfl, _, h2, hsc⟩)⟩

theorem Inv.endPass (h : Inv cfg L s) (hp : s.pass t = some p) (ht : p.todo = []) :
    Good cfg (s.endPass t) ∧ (s.endPass t).loc t = { s.loc t with pass := none } := by
  have hent : ∀ u, entries (Function.update s.deferred t (s.deferred t ++ p.kept))
      (Function.update s.pass t none) u = entries s.deferred s.pass u := by
    intro u
    by_cases hu : u = t
    · subst hu
      simp [entries, hp, Pass.entries, ht]
    · simp [entries, hu]
  have hpass : ∀ {u q}, Function.update s.pass t none u = some q → s.pass u = some q := by
    intro u q hq
    by_cases hu : u = t
    · rw [hu, Function.update_self] at hq
      cases hq
    · rwa [Function.update_of_ne hu] at hq
  simp only [State.endPass, hp, Option.map_some, Option.getD_some]
  refine ⟨⟨L, h.setPass (w := s.work) ?_ ?_ ?_ ?_⟩, by simp [State.loc]⟩
  · refine ⟨fun u k => ?_, fun u => ?_, fun u => ?_⟩
    · rw [hent]
      exact h.lists.list_iff u k
    · rw [hent]
      exact h.lists.nodup u
    · by_cases hu : u = t
      · simp [hu]
      · rw [Function.update_of_ne hu, Function.update_of_ne hu]
        exact h.lists.inProgress u
  · intro u i g k _ _ hh
    exact hh.shrinks fun r q hq => ⟨q, hpass hq, fun _ => id, rfl, rfl, rfl, rfl, rfl⟩
  · exact fun hb u q hq => h.passes hb u q (hpass hq)
  · exact h.prots.shrinks (fun r q hq => ⟨q, hpass hq, fun _ => id, rfl, rfl, rfl, rfl, rfl⟩)
      (fun u e he => by rw [hent] at he; exact he)

end Cdrc.Smr
