import Cdrc.Smr.Releases

/-! # Reference counting over a memory manager: when a unit can be released

A pass of `acquire_retire` keeps one entry more of an object than it has seen
announcements of it. The debts that are for its entries were all seen, so one of the kept
entries is paid for, and two are if the entry at hand is not. The guards that rest on
the entry at hand can rest on the first, and its debt be for the second.

A pass of the epoch backends ejects no entry that a section keeps. -/
namespace Cdrc.Smr
open Cdrc.StickyCounter Cdrc.CountedObject Cdrc.Lib.Threads Cdrc.Lib.Units

variable {n : Nat} {cfg : Config} {L : Kind → Book n} {s s' : State n} {k x : Token} {o : Obj}
  {κ : Kind} {t u : Fin n} {p : Pass n} {e : Entry} {i : Nat}

/-! ## Guards and debts of one unit -/

theorem guardOf_eq_some {guards : Fin n → Nat → Option Guard} {g : Fin n × Nat}
    (h : guardOf guards κ g = some o) :
    ∃ g', guards g.1 g.2 = some g' ∧ g'.obj = o ∧ (κ = .weak ∨ g'.kind = .strong) := by
  obtain ⟨g', hg, he⟩ := Option.bind_eq_some_iff.mp h
  split at he
  · rename_i hk
    exact ⟨g', hg, by simpa using he, hk⟩
  · cases he

/-- A unit of a counter that no guard rests on and no debt is for. -/
theorem Inv.idle_of (h : Inv cfg L s) (hd : k.type ≠ .dispose)
    (hw : ∀ u i g, s.guards u i = some g → (L g.kind).wit (u, i) ≠ k)
    (hl : ∀ u d, s.debt u = some d → (L d.kind).label u ≠ k)
    (hp : ∀ u, s.prot u k = false) : Idle L s k := by
  refine ⟨fun κ => ?_, fun κ => ?_, hp⟩
  · rintro ⟨u, i⟩ o hg
    obtain ⟨g, hg', rfl, hκ⟩ := guardOf_eq_some hg
    by_cases hk : g.kind = κ
    · exact hk ▸ hw u i g hg'
    · have hs : g.kind = .strong ∧ κ = .weak := by
        cases κ <;> cases hgk : g.kind <;> simp_all
      rw [hs.2, h.guards.wit_strong u i g hg' hs.1]
      exact implicit_ne hd g.obj
  · intro u x hdu
    obtain ⟨d, hd', rfl, -⟩ := debtOf_eq_some hdu
    exact hl u d hd'

/-- The implicit unit of an object without strong units. -/
theorem Inv.idle_implicit (h : Inv cfg L s) (ha : s.home (implicit o) ≠ some .alive)
    (hp : ∀ u, s.prot u (implicit o) = false) : Idle L s (implicit o) := by
  refine ⟨fun κ => ?_, fun κ => ?_, hp⟩
  · rintro ⟨u, i⟩ o' hg he
    have hlive := (h.books κ).wit_live (u, i) o' hg
    obtain ⟨g, hg', rfl, hκ⟩ := guardOf_eq_some hg
    rw [he] at hlive
    cases hk : g.kind with
    | strong =>
      -- the guard keeps a strong unit, so the object is alive
      obtain ⟨k, h1, h2, h3⟩ := h.guard_token hg'
      rw [hk] at h3
      have := h.life.alive_of_strong k h1 h3
      rw [h2, ← hlive.2] at this
      exact ha this
    | weak =>
      have hκ' : κ = .weak := by simpa [hk] using hκ
      subst hκ'
      have := h.guards.wit_weak u i g hg' hk
      rw [he] at this
      cases this
  · intro u x hdu he
    obtain ⟨d, hd', rfl, -⟩ := debtOf_eq_some hdu
    have := (h.debts.label u d hd').1
    rw [he] at this
    exact d.kind.type_ne_dispose this.symm

/-! ## A unit in a variable -/

/-- Nobody can have validated a pointer to `o` in a location and still hold it. -/
structure Unprotected (cfg : Config) (s : State n) (o : Obj) : Prop where
  slots : cfg.backend = .hp → ∀ u, ∀ i ∈ List.range (cfg.snapshotSlots + 1), s.slots u i ≠ some o
  sections : cfg.backend ≠ .hp → ∀ u, s.localEpoch u = none

instance : Decidable (Unprotected cfg s o) :=
  decidable_of_iff
    ((cfg.backend = .hp → ∀ u, ∀ i ∈ List.range (cfg.snapshotSlots + 1), s.slots u i ≠ some o) ∧
      (cfg.backend ≠ .hp → ∀ u, s.localEpoch u = none))
    ⟨fun h => ⟨h.1, h.2⟩, fun h => ⟨h.slots, h.sections⟩⟩

theorem Unprotected.prot (hu : Unprotected cfg s o) (h : Inv cfg L s) (k : Token) :
    s.prot u k = false := by
  by_contra hc
  obtain ⟨_, h1, h2⟩ := h.prots.live u k (by simpa using hc)
  exact h1 (hu.sections h2 u)

theorem Unprotected.guard (hu : Unprotected cfg s o) (h : Inv cfg L s) {g : Guard}
    (hg : s.guards u i = some g) (ho : g.obj = o) (hh : Held cfg s.pass s.prot u i k) : False := by
  have hpr := hu.prot (u := u) h k
  cases hb : cfg.backend with
  | hp =>
    obtain ⟨h1, h2⟩ := h.announced hb u i g hg
    exact hu.slots hb u i (List.mem_range.mpr (by omega)) (ho ▸ h1)
  | ebr =>
    simp only [Held, hb, hpr, Bool.false_eq_true] at hh
  | ibr =>
    simp only [Held, hb, hpr, Bool.false_eq_true] at hh

/-- A unit in a variable that no operation reads. If it has been in a location, nobody may
be using what it read there. -/
theorem Inv.idle_var (h : Inv cfg L s) (hk : s.home k = some (.cell (.var κ i)))
    (hr : s.unread κ i) (hs : s.shared k = true → Unprotected cfg s k.obj) : Idle L s k := by
  have hd := h.places.type_ne_dispose ((h.places.cell_iff _ k).mpr hk)
  refine h.idle_of hd ?_ ?_ ?_
  · intro u j g hg he
    rcases h.guards.wit u j g hg with ⟨_, κ', i', h1, h2⟩ | ⟨h1, h2⟩
    · rw [he, hk] at h1
      cases h1
      exact hr u h2
    · have hlive := (h.books g.kind).wit_live (u, j) g.obj
        (guardOf_of hg fun hc => hc)
      rw [he] at h1 h2 hlive
      exact (hs h1).guard h hg hlive.2.symm h2
  · intro u d hdu he
    obtain ⟨h1, h2, h3⟩ := h.debts.label u d hdu
    obtain ⟨g, hg, ho, _⟩ := h.debts.guard u d hdu
    have hdo := h.debt_obj hdu
    rw [he] at h2 h3 hdo
    exact (hs h2).guard h hg (ho.trans hdo.symm) h3
  · intro u
    by_contra hc
    have hp : s.prot u k = true := by simpa using hc
    have := (hs (h.protShared u k hp hd)).prot (u := u) h k
    rw [hp] at this
    cases this

/-! ## An entry that is ejected -/

/-- The pass of `t` is about to eject the entry `e`. -/
structure Ejecting (cfg : Config) (p : Pass n) (e : Entry) : Prop where
  scanned : p.toScan = []
  todo : p.todo.head? = some e
  ejects : p.ejects cfg e = true

theorem Ejecting.mem (hj : Ejecting cfg p e) : e ∈ p.entries := by
  have := List.mem_of_mem_head? hj.todo
  exact List.mem_append.mpr (Or.inl this)

theorem Inv.home_ejecting (h : Inv cfg L s) (hp : s.pass t = some p) (hj : Ejecting cfg p e) :
    s.home e.token = some (.list t) := h.lists.home_eq (mem_entries_of_pass hp hj.mem)

theorem Inv.prot_ejecting (h : Inv cfg L s) (hp : s.pass t = some p) (hj : Ejecting cfg p e)
    (u : Fin n) : s.prot u e.token = false := by
  by_contra hc
  have hpr : s.prot u e.token = true := by simpa using hc
  have hno := h.prots.scanned u t p e hp hj.mem hpr (by rw [hj.scanned]; simp)
  have hent := fun a => h.prots.entry u t e a (mem_entries_of_pass hp hj.mem) hpr
  have hej := hj.ejects
  cases hb : cfg.backend with
  | hp => exact (h.prots.live u _ hpr).2.2 hb
  | ebr =>
    simp only [Noted, hb] at hno
    obtain ⟨m, a, h1, h2, h3⟩ := hno
    have := (hent a h2).1
    simp only [Pass.ejects, hb, h1, decide_eq_true_eq] at hej
    omega
  | ibr =>
    simp only [Noted, hb] at hno
    obtain ⟨a, b, h1, h2, h3⟩ := hno
    have := (hent a h2).1
    simp only [Pass.ejects, hb, List.all_eq_true] at hej
    have := hej _ h1
    simp only [Bool.or_eq_true, decide_eq_true_eq] at this
    omega

/-- The epoch backends. -/
theorem Inv.idle_ejecting_epoch (h : Inv cfg L s) (hb : cfg.backend ≠ .hp)
    (hp : s.pass t = some p) (hj : Ejecting cfg p e) (hd : e.token.type ≠ .dispose) :
    Idle L s e.token := by
  have hnp := h.prot_ejecting hp hj
  have hnh : ∀ u i, ¬ Held cfg s.pass s.prot u i e.token := by
    intro u i hh
    unfold Held at hh
    split at hh
    · exact hb ‹_›
    · rw [hnp u] at hh; cases hh
  refine h.idle_of hd ?_ ?_ hnp
  · intro u i g hg he
    rcases h.guards.wit u i g hg with ⟨_, κ', i', h1, _⟩ | ⟨_, h2⟩
    · rw [he, h.home_ejecting hp hj] at h1
      cases h1
    · exact hnh u i (he ▸ h2)
  · intro u d hdu he
    exact hnh u d.guard (he ▸ (h.debts.label u d hdu).2.2)

/-! ### `acquire_retire` -/

/-- Guards that rest on a unit can rest on another one of the same pass. -/
theorem Held.swap (h : Inv cfg L s) (hb : cfg.backend = .hp) (hp : s.pass t = some p)
    (hsc : p.toScan = []) {e' : Entry} (he : e ∈ p.entries) (he' : e' ∈ p.entries)
    (ho : e'.token.obj = e.token.obj) (hh : Held cfg s.pass s.prot u i e.token) :
    Held cfg s.pass s.prot u i e'.token := by
  simp only [Held, hb] at hh ⊢
  rintro r p' hp' ⟨e₁, he₁, hk⟩ _
  have hr : r = t := by
    have h1 := h.lists.home_eq (mem_entries_of_pass hp' he₁)
    have h2 := h.lists.home_eq (mem_entries_of_pass hp he')
    rw [hk, h2] at h1
    cases h1
    rfl
  subst hr
  rw [hp] at hp'
  cases hp'
  rw [ho]
  exact hh r p hp ⟨e, he, rfl⟩ (by rw [hsc]; simp)

theorem Inv.rewit (h : Inv cfg L s) (hx : x.type = κ.type) (hk : k.type = κ.type)
    (ho : k.obj = x.obj) (hpaid : k ∈ (L κ).paid) (hsh : s.shared k = true)
    (hheld : ∀ u i, Held cfg s.pass s.prot u i x → Held cfg s.pass s.prot u i k)
    (hloc : ∀ u, ¬ Locked s.home s.reading u x) :
    Inv cfg (Function.update L κ ((L κ).rewit x k)) s := by
  have hwit : ∀ κ' g, (Function.update L κ ((L κ).rewit x k) κ').wit g = (L κ').wit g ∨
      (κ' = κ ∧ (L κ').wit g = x ∧ (Function.update L κ ((L κ).rewit x k) κ').wit g = k) := by
    intro κ' g
    by_cases hκ : κ' = κ
    · subst hκ
      rw [Function.update_self]
      simp only [Ledger.rewit]
      split
      · rename_i he; exact Or.inr ⟨trivial, he, rfl⟩
      · exact Or.inl rfl
    · rw [Function.update_of_ne hκ]
      exact Or.inl rfl
  exact { h with
    books := by
      intro κ'
      by_cases hκ : κ' = κ
      · subst hκ
        rw [Function.update_self]
        exact (h.books κ').rewit hpaid ho
      · rw [Function.update_of_ne hκ]
        exact h.books κ'
    counted := h.counted.book (update_count rfl)
    guards := by
      refine { h.guards with wit := ?_, wit_strong := ?_, wit_weak := ?_ }
      · intro u i g hg
        rcases hwit g.kind (u, i) with he | ⟨_, h1, h2⟩
        · rw [he]
          exact h.guards.wit u i g hg
        · rw [h2]
          have hw := h.guards.wit u i g hg
          rw [h1] at hw
          rcases hw with ⟨_, hw⟩ | ⟨_, hw⟩
          · exact absurd hw (hloc u)
          · exact Or.inr ⟨hsh, hheld u i hw⟩
      · intro u i g hg hgk
        have h0 := h.guards.wit_strong u i g hg hgk
        rcases hwit .weak (u, i) with he | ⟨_, h1, _⟩
        · rw [he, h0]
        · rw [h0] at h1
          exact absurd h1 (implicit_ne (hx ▸ κ.type_ne_dispose) g.obj)
      · intro u i g hg hgk
        rcases hwit .weak (u, i) with he | ⟨hκ, _, h2⟩
        · rw [he]
          exact h.guards.wit_weak u i g hg hgk
        · rw [h2, hk, ← hκ]
          rfl
    debts := h.debts.book (update_label rfl) }

theorem Inv.relabel (h : Inv cfg L s) {d : Debt} (hd : s.debt u = some d)
    (hpaid : k ∈ (L d.kind).paid) (hw : (L d.kind).Unwitnessed (guardOf s.guards d.kind) k)
    (ho : k.obj = ((L d.kind).label u).obj) (hk : k.type = d.kind.type)
    (hsh : s.shared k = true) (hheld : Held cfg s.pass s.prot u d.guard k) :
    Inv cfg (Function.update L d.kind ((L d.kind).relabel u k)) s := by
  have hdo := debtOf_some hd
  exact { h with
    books := by
      intro κ'
      by_cases hκ : κ' = d.kind
      · subst hκ
        rw [Function.update_self]
        exact (h.books d.kind).relabel hdo hpaid hw ho
      · rw [Function.update_of_ne hκ]
        exact h.books κ'
    counted := by
      refine h.counted.book ?_
      intro κ' o
      by_cases hκ : κ' = d.kind
      · subst hκ
        rw [Function.update_self]
        exact (h.books d.kind).relabel_count hdo hpaid ho o
      · rw [Function.update_of_ne hκ]
    guards := h.guards.book (update_wit rfl)
    debts := by
      refine ⟨h.debts.guard, fun v d' hd' => ?_⟩
      by_cases hκ : d'.kind = d.kind
      · rw [hκ, Function.update_self]
        by_cases hv : v = u
        · subst hv
          rw [hd] at hd'
          cases hd'
          simp only [Ledger.relabel, Function.update_self]
          exact ⟨hk, hsh, hheld⟩
        · simp only [Ledger.relabel, Function.update_of_ne hv]
          rw [← hκ]
          exact h.debts.label v d' hd'
      · rw [Function.update_of_ne hκ]
        exact h.debts.label v d' hd' }

/-- More units of an object in one pass than announcements were seen: one is paid for. -/
theorem Inv.exists_paid_in_pass (h : Inv cfg L s) (hb : cfg.backend = .hp)
    (hp : s.pass t = some p) (hsc : p.toScan = []) {S : Finset Token}
    (hS : ∀ k ∈ S, k.obj = o ∧ ofKind κ k ∧ ∃ e ∈ p.entries, e.token = k)
    (hc : p.seen o < S.card) : ∃ k ∈ S, k ∈ (L κ).paid := by
  by_contra hno
  -- every unit of `S` has a debtor, and the pass has seen the announcement of each
  have hdebt : ∀ k ∈ S, ∃ a : (Fin n × Nat) × Obj, a ∈ p.saw.filter (·.2 = o) ∧
      ∃ d, s.debt a.1.1 = some d ∧ d.kind = κ ∧ (L κ).label a.1.1 = k := by
    intro k hk
    obtain ⟨ho, hκ, e, he, hek⟩ := hS k hk
    have hlive : s.home k ≠ none := by
      rw [← hek, h.lists.home_eq (mem_entries_of_pass hp he)]
      exact Option.some_ne_none _
    obtain ⟨u, g, hdu, hlab⟩ := (h.books κ).exists_debt ⟨hlive, hκ⟩ (fun hc => hno ⟨k, hk, hc⟩)
    obtain ⟨d, hd, rfl, -⟩ := debtOf_eq_some hdu
    have hheld := (h.debts.label u d hd).2.2
    simp only [Held, hb, hlab] at hheld
    have hsaw := hheld t p hp ⟨e, he, hek⟩ (by rw [hsc]; simp)
    exact ⟨((u, d.guard), k.obj), Finset.mem_filter.mpr ⟨hsaw, ho⟩, d, hd, rfl, hlab⟩
  have : Nonempty ((Fin n × Nat) × Obj) := ⟨((t, 0), o)⟩
  choose! f hf using hdebt
  have hle : S.card ≤ p.seen o := by
    refine Finset.card_le_card_of_injOn f (fun k hk => (hf k hk).1) ?_
    intro k hk k' hk' he
    obtain ⟨_, _, _, h1⟩ := (hf k hk).2
    obtain ⟨_, _, _, h2⟩ := (hf k' hk').2
    rw [← h1, ← h2, he]
  omega

/-- The units of a kind that a pass has kept. -/
def Pass.keptUnits (p : Pass n) (o : Obj) (ty : RetireType) : Finset Token :=
  ((p.kept.filter fun e => e.token.obj = o ∧ e.token.type = ty).map (·.token)).toFinset

theorem Pass.mem_keptUnits {ty : RetireType} :
    k ∈ p.keptUnits o ty ↔ ∃ e ∈ p.kept, e.token = k ∧ k.obj = o ∧ k.type = ty := by
  simp only [Pass.keptUnits, List.mem_toFinset, List.mem_map, List.mem_filter, decide_eq_true_eq]
  constructor
  · rintro ⟨e, ⟨h1, h2⟩, rfl⟩
    exact ⟨e, h1, rfl, h2⟩
  · rintro ⟨e, h1, rfl, h2⟩
    exact ⟨e, ⟨h1, h2⟩, rfl⟩

theorem Inv.nodup_pass (h : Inv cfg L s) (hp : s.pass t = some p) :
    (p.entries.map (·.token)).Nodup := by
  have := h.lists.nodup t
  simp only [Smr.entries, hp, Option.map_some, Option.getD_some, List.map_append] at this
  exact (List.nodup_append.mp this).2.1

theorem Pass.card_keptUnits (hn : (p.entries.map (·.token)).Nodup) (o : Obj) (ty : RetireType) :
    (p.keptUnits o ty).card = p.keptOf o ty := by
  have hk : (p.kept.map (·.token)).Nodup := by
    rw [Pass.entries, List.map_append] at hn
    exact (List.nodup_append.mp hn).2.1
  rw [Pass.keptUnits, List.toFinset_card_of_nodup, List.length_map, Pass.keptOf,
    List.countP_eq_length_filter]
  exact hk.sublist (List.Sublist.map _ List.filter_sublist)

/-- The entry a pass looks at is not one it has kept. -/
theorem Ejecting.notMem_keptUnits (hj : Ejecting cfg p e)
    (hn : (p.entries.map (·.token)).Nodup) (o : Obj) (ty : RetireType) :
    e.token ∉ p.keptUnits o ty := by
  intro hm
  obtain ⟨e', he', hk, _⟩ := Pass.mem_keptUnits.mp hm
  rw [Pass.entries, List.map_append] at hn
  refine (List.nodup_append.mp hn).2.2 e.token ?_ e'.token ?_ hk.symm
  · exact List.mem_map.mpr ⟨e, List.mem_of_mem_head? hj.todo, rfl⟩
  · exact List.mem_map.mpr ⟨e', he', rfl⟩

theorem Ejecting.keptOf (hj : Ejecting cfg p e) (hb : cfg.backend = .hp) (hok : PassOk p) :
    p.keptOf e.token.obj e.token.type = Smr.quota (p.seen e.token.obj) := by
  have hej := hj.ejects
  simp only [Pass.ejects, hb, beq_iff_eq] at hej
  have := hok.quota e.token.obj e.token.type
  omega

/-- An object that was seen announced has one entry of a kind kept for each time, and one
more. -/
theorem Ejecting.keptOf_of_saw (hj : Ejecting cfg p e) (hb : cfg.backend = .hp) (hok : PassOk p)
    {a : Fin n × Nat} (hs : (a, e.token.obj) ∈ p.saw) :
    p.keptOf e.token.obj e.token.type = p.seen e.token.obj + 1 := by
  have hpos : 0 < p.seen e.token.obj :=
    Finset.card_pos.mpr ⟨_, Finset.mem_filter.mpr ⟨hs, rfl⟩⟩
  rw [hj.keptOf hb hok]
  cases hs : p.seen e.token.obj with
  | zero => omega
  | succ a => rfl

/-- The unit `k` can take the place of `x`. -/
structure Spare (cfg : Config) (s : State n) (κ : Kind) (x k : Token) : Prop where
  type : x.type = κ.type
  type' : k.type = κ.type
  obj : k.obj = x.obj
  ne : k ≠ x
  shared : s.shared k = true
  held : ∀ u i, Held cfg s.pass s.prot u i x → Held cfg s.pass s.prot u i k
  unlocked : ∀ u, ¬ Locked s.home s.reading u x

theorem Inv.spare (h : Inv cfg L s) (hb : cfg.backend = .hp) (hp : s.pass t = some p)
    (hsc : p.toScan = []) {e' : Entry} (he : e ∈ p.entries) (he' : e' ∈ p.entries)
    (ht : e.token.type = κ.type) (ht' : e'.token.type = κ.type)
    (ho : e'.token.obj = e.token.obj) (hne : e'.token ≠ e.token) :
    Spare cfg s κ e.token e'.token := by
  have hh := h.lists.home_eq (mem_entries_of_pass hp he)
  have hh' := h.lists.home_eq (mem_entries_of_pass hp he')
  refine ⟨ht, ht', ho, hne, ?_, fun u i hu => hu.swap h hb hp hsc he he' ho, ?_⟩
  · exact h.shared.of_exposed _ (ht' ▸ κ.type_ne_dispose) (by rw [hh']; rfl)
  · rintro u ⟨κ', i, h1, _⟩
    rw [hh] at h1
    cases h1

theorem Spare.rewit (hsp : Spare cfg s κ x k) (h : Inv cfg L s) (hk : k ∈ (L κ).paid) :
    Inv cfg (Function.update L κ ((L κ).rewit x k)) s :=
  h.rewit hsp.type hsp.type' hsp.obj hk hsp.shared hsp.held hsp.unlocked

/-- A paid unit, after its guards rest on another one. -/
theorem Spare.idle (hsp : Spare cfg s κ x k) (h : Inv cfg L s) (hx : x ∈ (L κ).paid)
    (hk : k ∈ (L κ).paid) (hpr : ∀ u, s.prot u x = false) :
    ∃ L', Inv cfg L' s ∧ Idle L' s x := by
  have h' := hsp.rewit h hk
  refine ⟨_, h', h'.idle_of (hsp.type ▸ κ.type_ne_dispose) ?_ ?_ hpr⟩
  · intro u i g hg
    have hgo := guardOf_of (κ := g.kind) hg fun hc => hc
    by_cases hκ : g.kind = κ
    · rw [hκ, Function.update_self]
      exact Ledger.rewit_unwitnessed hsp.ne (u, i) g.obj (hκ ▸ hgo)
    · rw [Function.update_of_ne hκ]
      rintro rfl
      exact hκ (ofKind_unique (ofKind_of_type hsp.type)
        ((h.books g.kind).wit_live (u, i) g.obj hgo).1.2)
  · intro u d hd he
    rw [update_label (B := (L κ).rewit x k) rfl] at he
    have hκ : d.kind = κ := by
      refine ofKind_unique (ofKind_of_type hsp.type) (ofKind_of_type ?_)
      rw [← he]
      exact (h.debts.label u d hd).1
    subst hκ
    exact ((((h.books d.kind).mem_paid x).mp hx).2 u _ (debtOf_some hd)) he

/-- A unit with a debt, after the debt is for another one. -/
theorem Spare.paid {k' : Token} (hsp : Spare cfg s κ x k) (hsp' : Spare cfg s κ k k')
    (h : Inv cfg L s) (hx : s.home x ≠ none) (hxp : x ∉ (L κ).paid) (hk : k ∈ (L κ).paid)
    (hk' : k' ∈ (L κ).paid) :
    ∃ L', Inv cfg L' s ∧ x ∈ (L' κ).paid ∧ k' ∈ (L' κ).paid := by
  obtain ⟨u, g, hdu, hlab⟩ := (h.books κ).exists_debt ⟨hx, ofKind_of_type hsp.type⟩ hxp
  obtain ⟨d, hd, rfl, -⟩ := debtOf_eq_some hdu
  have h₁ := hsp'.rewit h hk'
  have hheld := (h.debts.label u d hd).2.2
  rw [hlab] at hheld
  have h₂ := h₁.relabel hd (k := k) (by rw [Function.update_self]; exact hk)
    (by rw [Function.update_self]; exact Ledger.rewit_unwitnessed hsp'.ne)
    (by rw [Function.update_self]; exact hsp.obj.trans (congrArg _ hlab.symm)) hsp.type'
    hsp.shared (hsp.held u d.guard hheld)
  refine ⟨_, h₂, ?_, ?_⟩
  · simp only [Function.update_self, Ledger.relabel, Ledger.rewit, hlab]
    exact Finset.mem_insert_self _ _
  · simp only [Function.update_self, Ledger.relabel, Ledger.rewit]
    exact Finset.mem_insert_of_mem (Finset.mem_erase.mpr ⟨hsp'.ne, hk'⟩)

theorem Inv.idle_ejecting_hp (h : Inv cfg L s) (hb : cfg.backend = .hp) (hp : s.pass t = some p)
    (hj : Ejecting cfg p e) (hκ : e.token.type = κ.type) :
    ∃ L', Inv cfg L' s ∧ Idle L' s e.token := by
  have hd : e.token.type ≠ .dispose := by rw [hκ]; exact κ.type_ne_dispose
  have hhome := h.home_ejecting hp hj
  have hok := h.passes hb t p hp
  have hn := h.nodup_pass hp
  have hprot := h.prot_ejecting hp hj
  have hsaw : ∀ {u i}, Held cfg s.pass s.prot u i e.token → ((u, i), e.token.obj) ∈ p.saw := by
    intro u i hh
    simp only [Held, hb] at hh
    exact hh t p hp ⟨e, hj.mem, rfl⟩ (by rw [hj.scanned]; simp)
  by_cases hseen : ∃ a, (a, e.token.obj) ∈ p.saw
  swap
  · -- nobody has announced the object
    refine ⟨L, h, h.idle_of hd ?_ ?_ hprot⟩
    · intro u i g hg he
      rcases h.guards.wit u i g hg with ⟨_, κ', j, h1, _⟩ | ⟨_, h2⟩
      · rw [he, hhome] at h1
        cases h1
      · exact hseen ⟨_, hsaw (he ▸ h2)⟩
    · intro u d hdu he
      exact hseen ⟨_, hsaw (he ▸ (h.debts.label u d hdu).2.2)⟩
  obtain ⟨a, ha⟩ := hseen
  have hkept : (p.keptUnits e.token.obj e.token.type).card = p.seen e.token.obj + 1 := by
    rw [Pass.card_keptUnits hn]
    exact hj.keptOf_of_saw hb hok ha
  have hentry : ∀ k ∈ p.keptUnits e.token.obj e.token.type, ∃ e' ∈ p.entries,
      e'.token = k ∧ k.obj = e.token.obj ∧ k.type = κ.type := by
    intro k hk
    obtain ⟨e', h1, h2, h3, h4⟩ := Pass.mem_keptUnits.mp hk
    exact ⟨e', List.mem_append.mpr (Or.inr h1), h2, h3, h4.trans hκ⟩
  have hunit : ∀ k ∈ insert e.token (p.keptUnits e.token.obj e.token.type),
      k.obj = e.token.obj ∧ ofKind κ k ∧ ∃ e' ∈ p.entries, e'.token = k := by
    intro k hk
    rcases Finset.mem_insert.mp hk with rfl | hk
    · exact ⟨rfl, ofKind_of_type hκ, e, hj.mem, rfl⟩
    · obtain ⟨e', h1, h2, h3, h4⟩ := hentry k hk
      exact ⟨h3, ofKind_of_type h4, e', h1, h2⟩
  have hspare : ∀ k ∈ p.keptUnits e.token.obj e.token.type, Spare cfg s κ e.token k := by
    intro k hk
    have hne : k ≠ e.token := by
      rintro rfl
      exact hj.notMem_keptUnits hn _ _ hk
    obtain ⟨e', h1, rfl, h3, h4⟩ := hentry k hk
    exact h.spare hb hp hj.scanned hj.mem h1 hκ h4 h3 hne
  obtain ⟨k₀, hk₀, hp₀⟩ := h.exists_paid_in_pass (κ := κ) hb hp hj.scanned
    (fun k hk => hunit k (Finset.mem_insert_of_mem hk)) (by omega)
  by_cases hx : e.token ∈ (L κ).paid
  · exact (hspare k₀ hk₀).idle h hx hp₀ hprot
  -- the entry has a debt, so it is one of the labels and a second kept unit is paid for
  have hcard : p.seen e.token.obj <
      ((insert e.token (p.keptUnits e.token.obj e.token.type)).erase k₀).card := by
    rw [Finset.card_erase_of_mem (Finset.mem_insert_of_mem hk₀),
      Finset.card_insert_of_notMem (hj.notMem_keptUnits hn _ _), hkept]
    omega
  obtain ⟨k₁, hk₁, hp₁⟩ := h.exists_paid_in_pass (κ := κ) hb hp hj.scanned
    (fun k hk => hunit k (Finset.mem_of_mem_erase hk)) hcard
  obtain ⟨hne, hk₁⟩ := Finset.mem_erase.mp hk₁
  have hk₁ := (Finset.mem_insert.mp hk₁).resolve_left fun he => hx (he ▸ hp₁)
  have hsp : Spare cfg s κ k₁ k₀ := by
    obtain ⟨e₁, h1, rfl, h3, h4⟩ := hentry k₁ hk₁
    obtain ⟨e₀, h5, rfl, h7, h8⟩ := hentry k₀ hk₀
    exact h.spare hb hp hj.scanned h1 h5 h4 h8 (h7.trans h3.symm) hne.symm
  obtain ⟨L', h', hx', hk'⟩ := (hspare k₁ hk₁).paid hsp h (by rw [hhome]; simp) hx hp₁ hp₀
  exact (hspare k₀ hk₀).idle h' hx' hk' hprot

/-- An entry that a pass ejects can be released. -/
theorem Inv.idle_ejecting (h : Inv cfg L s) (hp : s.pass t = some p) (hj : Ejecting cfg p e)
    (hκ : e.token.type = κ.type) : ∃ L', Inv cfg L' s ∧ Idle L' s e.token := by
  by_cases hb : cfg.backend = .hp
  · exact h.idle_ejecting_hp hb hp hj hκ
  · exact ⟨L, h, h.idle_ejecting_epoch hb hp hj (hκ ▸ κ.type_ne_dispose)⟩

/-! ## The release -/

theorem entries_update (deferred : Fin n → List Entry) (pass : Fin n → Option (Pass n))
    (t u : Fin n) (p : Pass n) :
    entries deferred (Function.update pass t (some p)) u =
      if u = t then deferred t ++ p.entries else entries deferred pass u := by
  by_cases hu : u = t
  · subst hu
    simp [entries]
  · simp [entries, hu]

/-- The first entry that `remove_if` has not looked at goes. -/
theorem Lists.pop {home : Token → Option (Home n)} {deferred : Fin n → List Entry}
    {pass : Fin n → Option (Pass n)} {inProgress : Fin n → Bool} {rest : List Entry}
    {x : Option (Home n)} (h : Lists home deferred pass inProgress) (hp : pass t = some p)
    (ht : p.todo = e :: rest) (hx : ∀ u, x ≠ some (.list u)) :
    Lists (Function.update home e.token x) deferred
      (Function.update pass t (some { p with todo := rest })) inProgress := by
  have hent : entries deferred pass t = deferred t ++ (e :: rest ++ p.kept) := by
    simp [entries, hp, Pass.entries, ht]
  have hhome : home e.token = some (.list t) := h.home_eq (by rw [hent]; simp)
  have hnd := h.nodup t
  rw [hent] at hnd
  have hperm : (deferred t ++ (e :: rest ++ p.kept)).Perm (e :: (deferred t ++ (rest ++ p.kept))) :=
    List.perm_middle
  have hnd' := (hperm.map (·.token)).nodup_iff.mp hnd
  rw [List.map_cons, List.nodup_cons] at hnd'
  constructor
  · intro u k
    rw [entries_update]
    by_cases hk : k = e.token
    · subst hk
      rw [Function.update_self]
      refine iff_of_false (hx u) ?_
      rintro ⟨e', he', hek⟩
      split at he'
      · exact hnd'.1 (List.mem_map.mpr ⟨e', he', hek⟩)
      · rename_i hu
        have := h.home_eq he'
        rw [hek, hhome] at this
        cases this
        exact hu rfl
    · rw [Function.update_of_ne hk, h.list_iff u k]
      split
      · rename_i hu
        subst hu
        rw [hent]
        constructor
        · rintro ⟨e', he', rfl⟩
          refine ⟨e', ?_, rfl⟩
          rcases List.mem_cons.mp (hperm.mem_iff.mp he') with rfl | he'
          · exact absurd rfl hk
          · exact he'
        · rintro ⟨e', he', rfl⟩
          exact ⟨e', hperm.mem_iff.mpr (List.mem_cons_of_mem _ he'), rfl⟩
      · rfl
  · intro u
    rw [entries_update]
    split
    · exact hnd'.2
    · exact h.nodup u
  · intro u
    rw [h.inProgress u]
    by_cases hu : u = t
    · subst hu
      simp [hp]
    · rw [Function.update_of_ne hu]

theorem Shrinks.pop {pass : Fin n → Option (Pass n)} {rest : List Entry} (hp : pass t = some p)
    (ht : p.todo = e :: rest) :
    Shrinks pass (Function.update pass t (some { p with todo := rest })) := by
  intro r p' hp'
  by_cases hr : r = t
  · subst hr
    rw [Function.update_self] at hp'
    cases hp'
    refine ⟨p, hp, fun e' he' => ?_, rfl, rfl, rfl, rfl, rfl⟩
    simp only [Pass.entries, ht, List.cons_append, List.mem_cons]
    exact Or.inr he'
  · rw [Function.update_of_ne hr] at hp'
    exact ⟨p', hp', fun _ => id, rfl, rfl, rfl, rfl, rfl⟩

theorem Inv.taken_var (h : Inv cfg L s) (hk : s.cell (.var κ i) = some k) :
    Taken cfg s k (Function.update s.cell (.var κ i) none) s.pass where
  places := h.places.remove hk (by intro q hc; cases hc)
  lists := h.lists.elsewhere (by rw [h.places.home_eq hk]; intro u hc; cases hc)
    (by intro u hc; cases hc)
  shrinks := .refl
  entries _ _ := id
  passes := h.passes

theorem entries_pop {deferred : Fin n → List Entry} {pass : Fin n → Option (Pass n)}
    {rest : List Entry} (hp : pass t = some p) (ht : p.todo = e :: rest) (u : Fin n) (e' : Entry)
    (he' : e' ∈ entries deferred (Function.update pass t (some { p with todo := rest })) u) :
    e' ∈ entries deferred pass u := by
  rw [entries_update] at he'
  split at he'
  · rename_i hu
    subst hu
    simp only [entries, hp, Option.map_some, Option.getD_some, Pass.entries, ht, List.mem_append,
      List.mem_cons] at he' ⊢
    tauto
  · exact he'

theorem passes_pop {pass : Fin n → Option (Pass n)} {rest : List Entry}
    (h : ∀ t p, pass t = some p → PassOk p) (hp : pass t = some p) (u : Fin n) (p' : Pass n)
    (hp' : Function.update pass t (some { p with todo := rest }) u = some p') : PassOk p' := by
  by_cases hu : u = t
  · subst hu
    rw [Function.update_self] at hp'
    cases hp'
    have := h u p hp
    exact ⟨this.scanned, this.unkept, this.quota⟩
  · rw [Function.update_of_ne hu] at hp'
    exact h u p' hp'

theorem Inv.taken_todo (h : Inv cfg L s) {rest : List Entry} (hp : s.pass t = some p)
    (ht : p.todo = e :: rest) :
    Taken cfg s e.token s.cell (Function.update s.pass t (some { p with todo := rest })) where
  places := by
    refine h.places.elsewhere ?_ (by intro q hc; cases hc)
    rw [h.lists.home_eq (mem_entries_of_pass hp (by simp [Pass.entries, ht] : e ∈ p.entries))]
    intro q hc
    cases hc
  lists := h.lists.pop hp ht (by intro u hc; cases hc)
  shrinks := .pop hp ht
  entries := entries_pop hp ht
  passes hb := passes_pop (h.passes hb) hp

/-- What a thread must know to release a unit. -/
def SrcOk (cfg : Config) (s : State n) (t : Fin n) (κ : Kind) : From → Prop
  | .var κ' i => κ' = κ ∧ ∀ k, s.cell (.var κ' i) = some k → s.shared k = true →
      Unprotected cfg s k.obj
  | .todo => ∃ p e, s.pass t = some p ∧ Ejecting cfg p e ∧ e.token.type = κ.type

/-- A thread's part after it has taken out the unit to be released. -/
def Local.take (a : Local n) : From → Local n
  | .var _ _ => a
  | .todo => { a with pass := a.pass.map fun p => { p with todo := p.todo.tail } }

theorem Inv.release (h : Inv cfg L s) {src : From} {r : Option (Obj × Bool)}
    (hok : SrcOk cfg s t κ src) (he : s.release cfg t κ src = some (r, s')) :
    Good cfg s' ∧ ((r = none ∧ src ≠ .todo ∧ s'.loc t = s.loc t) ∨
      (∃ o, r = some (o, false) ∧ s'.loc t = (s.loc t).take src) ∨
      ∃ o, r = some (o, true) ∧ s.owned t o = none ∧ s'.loc t =
        { (s.loc t).take src with
          owned := Function.update (s.owned t) o (some (zeroStage cfg κ)) }) := by
  -- one unit `k` that is taken from where it is
  have hrel : ∀ (L' : Kind → Book n) (k : Token) (ob : Object) cell' pass', Inv cfg L' s →
      Idle L' s k → s.home k ≠ none → k.type = κ.type → s.mem k.obj = some ob →
      Taken cfg s k cell' pass' →
      ({ s.loc t with pass := pass' t, hand := cell' (.hand t), desired := cell' (.desired t) } =
        (s.loc t).take src) →
      ∀ s₁ : State n, s₁ = { s with
        mem := Function.update s.mem k.obj (some (ob.release cfg κ).1)
        cell := cell'
        pass := pass'
        home := Function.update s.home k none } →
      (if (ob.release cfg κ).2 then some (some (k.obj, true), s₁.zeroed cfg t κ k.obj)
        else some (some (k.obj, false), s₁)) = some (r, s') →
      Good cfg s' ∧ ((r = none ∧ src ≠ .todo ∧ s'.loc t = s.loc t) ∨
        (∃ o, r = some (o, false) ∧ s'.loc t = (s.loc t).take src) ∨
        ∃ o, r = some (o, true) ∧ s.owned t o = none ∧ s'.loc t =
          { (s.loc t).take src with
            owned := Function.update (s.owned t) o (some (zeroStage cfg κ)) }) := by
    intro L' k ob cell' pass' h' hidle hk hkt hm htk hloc s₁ hs₁ hif
    obtain ⟨h1, h2⟩ := h'.released (t := t) hidle hk hkt hm htk hs₁
    split at hif
    · rename_i hz
      cases hif
      obtain ⟨h3, h4⟩ := h2 hz
      refine ⟨h3, Or.inr (Or.inr ⟨k.obj, rfl, h4, ?_⟩)⟩
      rw [← hloc, hs₁]
      cases κ <;> simp [State.zeroed, State.loc, update₂, zeroStage]
    · rename_i hz
      cases hif
      refine ⟨h1 (by simpa using hz), Or.inr (Or.inl ⟨k.obj, rfl, ?_⟩)⟩
      rw [← hloc, hs₁]
      rfl
  cases src with
  | var κ' i =>
    obtain ⟨rfl, hsh⟩ := hok
    simp only [State.release] at he
    split at he
    swap
    · cases he
    rename_i hun
    simp only [State.release.go, State.takeUnit] at he
    cases hc : s.cell (.var κ' i) with
    | none =>
      simp only [hc] at he
      cases he
      exact ⟨⟨L, h⟩, Or.inl ⟨rfl, by simp, rfl⟩⟩
    | some k =>
      have hk := h.places.home_eq hc
      have hkn : s.home k ≠ none := by rw [hk]; exact Option.some_ne_none _
      obtain ⟨ob, hm⟩ := Option.ne_none_iff_exists'.mp (h.counted.present k hkn)
      simp only [hc, hm] at he
      refine hrel L k ob _ s.pass h (h.idle_var hk hun (hsh k hc)) hkn (h.places.fits _ _ hc) hm
        (h.taken_var hc) ?_ _ rfl he
      simp [State.loc, Local.take]
  | todo =>
    obtain ⟨p, e, hp, hj, hkt⟩ := hok
    have hmem := hj.todo
    obtain ⟨e₁, rest, ht⟩ : ∃ e₁ rest, p.todo = e₁ :: rest :=
      List.exists_cons_of_ne_nil (by intro hc; rw [hc] at hmem; cases hmem)
    rw [ht] at hmem
    cases hmem
    have hkn : s.home e.token ≠ none := by
      rw [h.home_ejecting hp hj]; exact Option.some_ne_none _
    obtain ⟨ob, hm⟩ := Option.ne_none_iff_exists'.mp (h.counted.present e.token hkn)
    obtain ⟨L', h', hidle⟩ := h.idle_ejecting hp hj hkt
    simp only [State.release, State.release.go, State.takeUnit, hp, ht, hm] at he
    refine hrel L' e.token ob s.cell _ h' hidle hkn hkt hm (h.taken_todo hp ht) ?_ _ rfl he
    simp [State.loc, Local.take, hp, ht]

end Cdrc.Smr
