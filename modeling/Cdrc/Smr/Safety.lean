import Cdrc.Smr.Operations

/-! # Reference counting over a memory manager: what holds in every run -/
namespace Cdrc.Smr
open Cdrc.StickyCounter Cdrc.CountedObject Cdrc.Lib.Threads Cdrc.Lib.Units Cdrc.Lib.Runs Prog Logic

variable {n : Nat} {cfg : Config} {L : Kind → Book n} {s s' : State n} {t u : Fin n} {κ : Kind}
  {i x : Nat} {o : Obj} {k : Token}

/-- A state of the threads and the shared memory. -/
abbrev Sys (n : Nat) := System.State (Fin n) (State n) (Act n) Proc

/-! ## Sections keep what they keep -/

section Keeps

theorem enter_prot (hk : s.prot t k = true) (k' : Token) : (s.enter cfg k').prot t k = true := by
  simp [State.enter, hk]

theorem cover_prot (hk : s.prot t k = true) : (s.cover u o).prot t k = true := by
  simp only [State.cover, Function.update_apply]
  split
  · rename_i hu
    simp only [← hu, hk, Bool.true_or]
  · exact hk

theorem move_prot {p q : Place n} : (s.move p q).prot = s.prot := by
  unfold State.move
  split <;> rfl

theorem putIn_prot {p : Place n} (hk : s.prot t k = true) : (s.putIn cfg p κ x).prot t k = true := by
  unfold State.putIn
  split
  · exact hk
  · exact enter_prot (by rw [move_prot]; exact hk) _

theorem publish_prot (hk : s.prot t k = true) : (s.publish cfg u κ x i).prot t k = true := by
  unfold State.publish
  split
  · exact hk
  · rename_i g _
    have h1 : ((s.mint (.loc κ x) g.obj κ).enter cfg ⟨g.obj, κ.type, s.nextId⟩).prot t k = true :=
      enter_prot (s := s.mint (.loc κ x) g.obj κ) hk _
    by_cases hb : cfg.backend = .ibr
    · simp only [hb, if_true]
      exact cover_prot h1
    · simp only [hb, if_false]
      exact h1

theorem replace_prot {new : New} (hk : s.prot t k = true) :
    (s.replace cfg u κ x new).prot t k = true := by
  have h1 : (s.move (.loc κ x) (.hand u)).prot t k = true := by rw [move_prot]; exact hk
  unfold State.replace
  cases new with
  | null => exact h1
  | desired => exact putIn_prot h1
  | var κ' j => exact putIn_prot h1
  | guard j => exact publish_prot h1

theorem loadProtected_prot (hk : s.prot t k = true) :
    (s.loadProtected cfg u κ x i).2.prot t k = true := by
  unfold State.loadProtected
  simp only
  split
  · split
    · split
      · exact hk
      · exact cover_prot (s := { s with guards := _ }) hk
    · exact hk
  · exact hk

theorem confirm_prot {via : Via} (hk : s.prot t k = true) : (s.confirm cfg u via).prot t k = true := by
  cases via with
  | var κ j => exact hk
  | guard j =>
    cases hg : s.guards u j with
    | none =>
      simp only [State.confirm, hg]
      exact hk
    | some g =>
      rw [confirm_eq hg]
      change (if cfg.backend = .hp then s.prot else update₂ s.prot u (implicit g.obj) true) t k = true
      split
      · exact hk
      · rw [update₂_apply]
        split
        · rfl
        · exact hk

theorem takeUnit_prot {src : From} {k' : Token} (he : s.takeUnit u src = some (k', s')) :
    s'.prot = s.prot := by
  cases src with
  | var κ' i =>
    simp only [State.takeUnit] at he
    split at he <;> cases he
    rfl
  | todo =>
    simp only [State.takeUnit] at he
    split at he
    · split at he <;> cases he
      rfl
    · cases he

theorem release_prot {src : From} {r : Option (Obj × Bool)}
    (he : s.release cfg u κ src = some (r, s')) : s'.prot = s.prot := by
  have hgo : State.release.go cfg s u κ src = some (r, s') → s'.prot = s.prot := by
    intro he
    unfold State.release.go at he
    split at he
    · cases he
      rfl
    · rename_i k' s₁ hk
      have h1 := takeUnit_prot hk
      split at he
      · cases he
        rfl
      · simp only at he
        split at he
        · cases he
          cases κ <;> exact h1
        · cases he
          exact h1
  cases src with
  | var κ' i =>
    simp only [State.release] at he
    split at he
    · exact hgo he
    · cases he
  | todo => exact hgo he

theorem increment_prot {via : Via} {dst : Spot} {checked r : Bool}
    (he : s.increment cfg u κ via dst checked = some (r, s')) : s'.prot = s.prot := by
  unfold State.increment at he
  split at he
  · cases he
    rfl
  · split at he
    · cases he
      rfl
    · split at he
      · split at he
        · cases he
          rfl
        · split at he <;> cases he <;> rfl
      · cases he

theorem payDebt_prot {r : Unit} (he : s.payDebt cfg u = some (r, s')) : s'.prot = s.prot := by
  unfold State.payDebt at he
  split at he
  · cases he
    rfl
  · split at he
    · cases he
      rfl
    · split at he
      · split at he <;> cases he <;> rfl
      · cases he

/-- A section keeps what it keeps until it ends. -/
theorem exec_prot {β : Type} {c : Choice} {a : Act n β} {r : β} (he : exec cfg u c a s = some (r, s'))
    (hl : s'.localEpoch t ≠ none) (hk : s.prot t k = true) : s'.prot t k = true := by
  cases a with
  | create i birth =>
    simp only [exec] at he
    split at he
    · split at he
      · cases he
        exact hk
      · cases he
    · cases he
  | increment =>
    rw [increment_prot he]
    exact hk
  | payDebt =>
    rw [payDebt_prot he]
    exact hk
  | release =>
    rw [release_prot he]
    exact hk
  | decrementCas o =>
    simp only [exec, State.decrementCas] at he
    split at he
    · cases he
      exact hk
    · cases he
      split <;> exact hk
  | decrementExchange o =>
    simp only [exec, State.decrementExchange] at he
    split at he
    · cases he
      exact hk
    · cases he
      split <;> exact hk
  | loadWeak o =>
    simp only [exec, State.loadWeak] at he
    split at he
    · cases he
      exact hk
    · split at he <;> cases he <;> exact hk
  | startDispose =>
    simp only [exec, State.startDispose] at he
    split at he
    · split at he <;> cases he
      exact hk
    · cases he
  | runDestructor o =>
    simp only [exec, State.runDestructor] at he
    split at he <;> cases he <;> exact hk
  | nextField =>
    simp only [exec] at he
    split at he <;> cases he <;> exact hk
  | destroyLoc κ i =>
    simp only [exec, State.destroyLoc] at he
    split at he
    · split at he
      · cases he
        exact hk
      · cases he
        change (s.move _ _).prot t k = true
        rw [move_prot]
        exact hk
    · cases he
  | releaseImplicit o =>
    simp only [exec, State.releaseImplicit] at he
    split at he <;> cases he <;> exact hk
  | delete o =>
    simp only [exec, State.delete] at he
    split at he <;> cases he <;> exact hk
  | loadRef via =>
    simp only [exec, State.loadRef] at he
    split at he
    · cases he
      exact hk
    · split at he
      · cases he
        exact hk
      · cases he
        split
        · exact hk
        · exact confirm_prot hk
  | loadRefCas via =>
    simp only [exec, State.loadRefCas] at he
    split at he
    · cases he
      exact hk
    · split at he <;> cases he <;> exact hk
  | emplace =>
    simp only [exec, State.emplace] at he
    split at he
    · cases he
      exact hk
    · split at he <;> cases he <;> exact hk
  | emplaceDispose o =>
    simp only [exec, State.emplaceDispose] at he
    split at he <;> cases he <;> exact hk
  | tryBegin =>
    simp only [exec, State.tryBegin] at he
    split at he
    · split at he <;> cases he <;> exact hk
    · cases he
      exact hk
  | judge =>
    simp only [exec, State.judge] at he
    split at he
    · cases he
      exact hk
    · split at he
      · cases he
        exact hk
      · split at he <;> cases he <;> exact hk
  | announceEpoch e =>
    cases he
    exact announceEpoch_mono hk
  | endSection =>
    cases he
    have hu : t ≠ u := by
      rintro rfl
      simp [State.endSection] at hl
    simp only [State.endSection, Function.update_of_ne hu]
    exact hk
  | epochTick =>
    simp only [exec, State.epochTick] at he
    split at he <;> cases he <;> exact hk
  | validate κ l i p =>
    simp only [exec, State.validate] at he
    split at he <;> cases he <;> exact hk
  | loadProtected κ l i =>
    simp only [exec, Option.some.injEq] at he
    rw [show s' = (s.loadProtected cfg u κ l i).2 from (congrArg Prod.snd he).symm]
    exact loadProtected_prot hk
  | exchange κ l new =>
    simp only [exec] at he
    split at he
    · unfold State.exchange at he
      split at he
      · split at he
        · cases he
          exact hk
        · cases he
          exact replace_prot hk
      · cases he
        exact replace_prot hk
    · cases he
  | cas κ l expected new =>
    simp only [exec, State.cas] at he
    split at he
    · split at he
      · cases he
        exact replace_prot hk
      · cases he
        exact hk
    · cases he
  | use κ l =>
    simp only [exec] at he
    split at he
    · cases he
    · cases he
      exact hk
  | move p q =>
    simp only [exec, State.moveSpot] at he
    split at he
    · cases he
      rw [move_prot]
      exact hk
    · cases he
  | addWork | inSection | pushGuard b | popGuard | advanceEpoch | readEnd | loadSlot i | load κ l
  | unchanged κ l p | setMark κ l | unuse | scanSlot v i | scanEpoch v | scanStart v | scanEnd v e
  | endPass | readEpoch | writeEnd e | storeSlot i p | reserve κ i | clearGuard i =>
    cases he
    exact hk

end Keeps

/-! ## Objects in use -/

/-- The strong count is positive, within bounds, and `~T` has not started. -/
structure Object.InUse (ob : Object) : Prop where
  pos : 0 < ob.ref.toNat
  le : ob.ref.toNat ≤ maxValue 30
  alive : ob.alive = true

section InUse

theorem Inv.inUse_of_strong (h : Inv cfg L s) (hk : s.home k ≠ none)
    (ht : k.type = .decrementStrongCount) : ∃ ob, s.mem k.obj = some ob ∧ ob.InUse := by
  obtain ⟨ob, hm⟩ := Option.ne_none_iff_exists'.mp (h.counted.present k hk)
  have hpos := h.count_pos (κ := .strong) hk ht
  have hval := h.counted.ref k.obj ob hm (Or.inl hpos)
  have halive := h.life.alive_of_strong k hk ht
  refine ⟨ob, hm, by omega, hval ▸ h.counted.ref_le k.obj, ?_⟩
  refine h.life.alive k.obj ob hm (by rw [halive]; exact Option.some_ne_none _) fun u st hu => ?_
  exfalso
  by_cases hl : st = .last
  · exact hk (h.life.last u k.obj k (hl ▸ hu) rfl)
  · rw [(h.life.owned_iff u k.obj).mpr ⟨st, hu, hl⟩] at halive
    cases halive

theorem Inv.inUse_of_guard (h : Inv cfg L s) {g : Guard} (hg : s.guards t i = some g)
    (hk : g.kind = .strong) : ∃ ob, s.mem g.obj = some ob ∧ ob.InUse := by
  obtain ⟨k, h1, h2, h3⟩ := h.guard_token hg
  rw [← h2]
  exact h.inUse_of_strong h1 (by rw [h3, hk]; rfl)

theorem Inv.inUse_of_debt (h : Inv cfg L s) {d : Debt} (hd : s.debt t = some d)
    (hk : d.kind = .strong) : ∃ ob, s.mem d.obj = some ob ∧ ob.InUse := by
  obtain ⟨g, h1, h2, h3⟩ := h.debts.guard t d hd
  rw [← h2]
  exact h.inUse_of_guard h1 (h3 hk)

end InUse

/-! ## Runs -/

section Runs
variable {σ σ₁ σ₂ : Sys n}

/-- Without exchanges every run is one of those the logic is about. -/
theorem reach_good (hx : cfg.exchanges = false) (hr : (system cfg n).machine.Reach σ) :
    Good cfg σ.mem ∧ ∀ t, Ready (system cfg n) (logic cfg) t σ.mem (σ.code t) := by
  refine (sound cfg n).reach_all (fun t a s h => ?_) hr
  obtain ⟨L, h⟩ := h
  change allowed cfg t a s
  unfold allowed
  split
  · split
    · trivial
    · rename_i k hc
      intro hs
      rw [h.shared.exchanged _ _ k (h.places.home_eq hc) hs] at hx
      cases hx
  · trivial

/-- Before anything has run. -/
def Sys.initial (n : Nat) : Sys n := ⟨.initial n, fun _ => none⟩

theorem reach_initial (cfg : Config) (n : Nat) : (system cfg n).machine.Reach (Sys.initial n) :=
  .init ⟨rfl, fun _ => rfl⟩

/-- Thread `t` starts `op` and takes `m` steps. -/
def call (t : Fin n) (op : Op) (m : Nat) : List (System.Label (Fin n) Choice Op) :=
  .start t op :: List.replicate m (.step t .none)

/-- Thread `t` creates an object at address `o` in variable `v`, after `m` steps. -/
def make (t : Fin n) (v o m : Nat) : List (System.Label (Fin n) Choice Op) :=
  call t (.makeRc v) m ++ [.step t (.address o), .step t .none]

/-- Thread `t` is in a critical section. -/
def InSection (t : Fin n) (σ : Sys n) : Prop := σ.mem.localEpoch t ≠ none

instance : DecidablePred (InSection t) := fun σ =>
  inferInstanceAs (Decidable (σ.mem.localEpoch t ≠ none))

/-- The unit is there, and no pass is about to eject its release. -/
def Kept (cfg : Config) (s : State n) (k : Token) : Prop :=
  s.home k ≠ none ∧ ∀ u p e, s.pass u = some p → Ejecting cfg p e → e.token ≠ k

theorem During.prot (h : (system cfg n).machine.During (InSection t) σ₁ σ₂)
    (hk : σ₁.mem.prot t k = true) : σ₂.mem.prot t k = true := by
  refine h.keeps (I := fun σ => σ.mem.prot t k = true) (fun σ a σ' hk hn hs => ?_) hk
  rcases System.next_mem hn with he | ⟨β, u, c, x, r, he⟩
  · rw [he]
    exact hk
  · exact exec_prot he hs hk

theorem Inv.kept_of_prot (h : Inv cfg L s) (hk : s.prot t k = true) : Kept cfg s k := by
  obtain ⟨h1, h2, h3⟩ := h.prots.live t k hk
  refine ⟨h1, fun u p e hp hj he => ?_⟩
  rw [← he, h.prot_ejecting hp hj t] at hk
  cases hk

/-- A unit that is in a location while `t` is in a section that covers its object. -/
theorem Inv.prot_of_loc (h : Inv cfg L s) {l : Nat} (hc : s.cell (.loc κ l) = some k)
    (hcov : Covers cfg s.localEpoch s.cov t k.obj) : s.prot t k = true :=
  h.prots.of_inLoc t k hcov (by rw [h.places.home_eq hc]; rfl)

/-- `acquire_retire_ebr`: a unit that is in a location at some moment of a critical
section of `t` is not ejected before the section ends. So no object is disposed of while
a snapshot of it is held, or while its increment is owed. -/
theorem ebr_units_kept (hb : cfg.backend = .ebr) (hx : cfg.exchanges = false)
    (hr : (system cfg n).machine.Reach σ₁) {l : Nat} (hs : InSection t σ₁)
    (hc : σ₁.mem.cell (.loc κ l) = some k)
    (hd : (system cfg n).machine.During (InSection t) σ₁ σ₂) :
    Kept cfg σ₂.mem k ∧
      (∀ u i g, σ₂.mem.guards u i = some g → g.kind = .strong →
        ∃ ob, σ₂.mem.mem g.obj = some ob ∧ ob.InUse) ∧
      ∀ u d, σ₂.mem.debt u = some d → d.kind = .strong →
        ∃ ob, σ₂.mem.mem d.obj = some ob ∧ ob.InUse := by
  obtain ⟨L₁, h₁⟩ := (reach_good hx hr).1
  obtain ⟨L₂, h₂⟩ := (reach_good hx (hd.reach hr)).1
  have hk : σ₁.mem.prot t k = true := h₁.prot_of_loc hc (by simp only [Covers, hb]; exact hs)
  exact ⟨h₂.kept_of_prot (During.prot hd hk), fun u i g hg hk => h₂.inUse_of_guard hg hk,
    fun u d hd hk => h₂.inUse_of_debt hd hk⟩

/-- Thread 0 begins a section and stores an object. -/
def beginAndStore (m : Nat) : List (System.Label (Fin 1) Choice Op) :=
  call 0 .beginGuard 5 ++ make 0 0 5 m ++ call 0 (.store .strong 0 0) 6

/-- In a section, a unit that was in a location is retired. -/
theorem ebr_units_kept_retired : ∃ (σ : Sys 1) (k : Token),
    (system ⟨.ebr, 1, 1, 1, false, false⟩ 1).machine.Reach σ ∧ k.obj = 5 ∧
      σ.mem.home k = some (.list 0) ∧ Kept ⟨.ebr, 1, 1, 1, false, false⟩ σ.mem k := by
  have he : ∃ σ₁, (system ⟨.ebr, 1, 1, 1, false, false⟩ 1).machine.exec (beginAndStore 2)
      (Sys.initial 1) = some σ₁ ∧ InSection 0 σ₁ ∧
      σ₁.mem.cell (.loc .strong 0) = some ⟨5, .decrementStrongCount, 0⟩ ∧
      ∃ σ₂, (system ⟨.ebr, 1, 1, 1, false, false⟩ 1).machine.execIn (InSection 0)
        (call 0 (.getSnapshot 0 1 9) 5 ++ call 0 (.storeNull .strong 0) 10) σ₁ = some σ₂ ∧
        σ₂.mem.home ⟨5, .decrementStrongCount, 0⟩ = some (.list 0) :=
    ⟨_, rfl, by decide, rfl, _, rfl, rfl⟩
  obtain ⟨σ₁, hσ₁, hs, hc, σ₂, hσ₂, hk⟩ := he
  have hr := (reach_initial ⟨.ebr, 1, 1, 1, false, false⟩ 1).exec hσ₁
  have hd := Machine.During.refl.exec hσ₂
  exact ⟨σ₂, _, hd.reach hr, rfl, hk, (ebr_units_kept rfl rfl hr hs hc hd).1⟩

/-- `t` has the object from a `protect_snapshot`, or has put it into a location with the
increment still owed. A reservation of a variable (guard 0 while an operation reads the
variable) is neither. -/
def Protecting (s : State n) (t : Fin n) (o : Obj) : Prop :=
  (∃ i g, s.guards t i = some g ∧ g.obj = o ∧ (i ≠ 0 ∨ s.reading t = none)) ∨
    ∃ d, s.debt t = some d ∧ d.obj = o

theorem Inv.exists_prot (h : Inv cfg L s) (hb : cfg.backend = .ibr) (hp : Protecting s t o) :
    ∃ k, k.obj = o ∧ s.prot t k = true := by
  have hheld : ∀ {i k}, Held cfg s.pass s.prot t i k → s.prot t k = true := by
    intro i k hk
    simpa only [Held, hb] using hk
  rcases hp with ⟨i, g, hg, rfl, hi⟩ | ⟨d, hd, rfl⟩
  · by_cases h0 : i = 0
    · subst h0
      have hr := hi.resolve_left (fun hc => hc rfl)
      have hobj : ((L g.kind).wit (t, 0)).obj = g.obj :=
        ((h.books g.kind).wit_live (t, 0) g.obj (guardOf_of hg id)).2
      rcases h.guards.wit t 0 g hg with ⟨_, κ', j, _, hc⟩ | ⟨_, hk⟩
      · rw [hr] at hc
        cases hc
      · exact ⟨_, hobj, hheld hk⟩
    · obtain ⟨j, rfl⟩ : ∃ j, i = j + 1 := ⟨i - 1, by omega⟩
      obtain ⟨k, h1, h2⟩ := h.prots.cov_prot t g.obj (h.prots.guard_cov hb t j g hg)
      exact ⟨k, h2, h1⟩
  · exact ⟨_, h.debt_obj hd, hheld (h.debts.label t d hd).2.2⟩

/-- `acquire_retire_ibr`: from the load that gave `t` the object, or from the moment it
published it, a unit of the object that is in a location is not ejected before the
section of `t` ends, and a scan that has read `t`'s epochs has recorded an interval that
meets the entry's. -/
theorem ibr_units_kept {σ₃ : Sys n} (hb : cfg.backend = .ibr) (hx : cfg.exchanges = false)
    (hr : (system cfg n).machine.Reach σ₁) (hp : Protecting σ₁.mem t o)
    (hd₁ : (system cfg n).machine.During (InSection t) σ₁ σ₂) {l : Nat}
    (hc : σ₂.mem.cell (.loc κ l) = some k) (hko : k.obj = o)
    (hd₂ : (system cfg n).machine.During (InSection t) σ₂ σ₃) :
    Kept cfg σ₃.mem k ∧ ∀ u p e, σ₃.mem.pass u = some p → e ∈ p.entries → e.token = k →
      (t, 0) ∉ p.toScan → ∃ a b, (t, a, b) ∈ p.intervals ∧ a ≤ e.retireTS ∧ e.birthTS ≤ b := by
  obtain ⟨L₁, h₁⟩ := (reach_good hx hr).1
  obtain ⟨L₂, h₂⟩ := (reach_good hx (hd₁.reach hr)).1
  obtain ⟨L₃, h₃⟩ := (reach_good hx (hd₂.reach (hd₁.reach hr))).1
  -- a unit of the object stays protected, so the object stays covered
  obtain ⟨k₀, hk₀, hpr₀⟩ := h₁.exists_prot hb hp
  have hcov := h₂.prots.prot_cov hb t k₀ (During.prot hd₁ hpr₀)
  have hk : σ₃.mem.prot t k = true := by
    refine During.prot hd₂ (h₂.prot_of_loc hc ?_)
    simp only [Covers, hb, hko, ← hk₀]
    exact hcov
  refine ⟨h₃.kept_of_prot hk, fun u p e hpa he hek hns => ?_⟩
  have hpe : σ₃.mem.prot t e.token = true := hek ▸ hk
  have hno := h₃.prots.scanned t u p e hpa he hpe hns
  simp only [Noted, hb] at hno
  obtain ⟨a, b, h4, h5, h6⟩ := hno
  exact ⟨a, b, h4, (h₃.prots.entry t u e a (mem_entries_of_pass hpa he) hpe h5).1, h6⟩

/-- In a section, a unit of an object of which a snapshot is held is retired. -/
theorem ibr_units_kept_retired : ∃ (σ : Sys 1) (k : Token),
    (system ⟨.ibr, 1, 1, 1, false, false⟩ 1).machine.Reach σ ∧ k.obj = 5 ∧
      σ.mem.home k = some (.list 0) ∧ Kept ⟨.ibr, 1, 1, 1, false, false⟩ σ.mem k := by
  have he : ∃ σ₁, (system ⟨.ibr, 1, 1, 1, false, false⟩ 1).machine.exec
      (beginAndStore 3 ++ call 0 (.getSnapshot 0 1 9) 12) (Sys.initial 1) = some σ₁ ∧
      σ₁.mem.guards 0 1 = some ⟨5, .strong, 1, true⟩ ∧
      σ₁.mem.cell (.loc .strong 0) = some ⟨5, .decrementStrongCount, 0⟩ ∧
      ∃ σ₂, (system ⟨.ibr, 1, 1, 1, false, false⟩ 1).machine.execIn (InSection 0)
        (call 0 (.storeNull .strong 0) 10) σ₁ = some σ₂ ∧
        σ₂.mem.home ⟨5, .decrementStrongCount, 0⟩ = some (.list 0) :=
    ⟨_, rfl, rfl, rfl, _, rfl, rfl⟩
  obtain ⟨σ₁, hσ₁, hg, hc, σ₂, hσ₂, hk⟩ := he
  have hr := (reach_initial ⟨.ibr, 1, 1, 1, false, false⟩ 1).exec hσ₁
  have hd := Machine.During.refl.exec hσ₂
  have hp : Protecting σ₁.mem 0 5 := Or.inl ⟨1, _, hg, rfl, Or.inl (by decide)⟩
  exact ⟨σ₂, _, hd.reach hr, rfl, hk, (ibr_units_kept rfl rfl hr hp .refl hc rfl hd).1⟩

/-! ## Exchanged units -/

end Runs

end Cdrc.Smr
