import Mathlib.Algebra.Order.BigOperators.Group.Finset
import Cdrc.SortedUnorderedMap.Invariant

/-! # The steps of `SortedUnorderedMapRCSS`

Each kind of step keeps the invariant. An `insert` that succeeds takes effect at its `compare_and_swap`, a
`remove` that succeeds where it sets the mark. A call that changes nothing takes effect in the past, where the
map was as it says (`Inv.answers`). -/
namespace Cdrc.SortedUnorderedMap
open Cdrc.Lib.Objects Cdrc.Lib.History Cdrc.Lib.Paths

variable {α K V : Type} [LinearOrder K] {m n : Nat} {idx : K → Fin m}

/-! ## The calls of the sequential map -/

section Map
variable {f : K → Option V} {key : K} {val : V} {res : Option V}

theorem map_get (h : f key = res) : (map K V).apply f (.get key) = (f, .value res) := by
  simp [map, h]

theorem map_insert_absent (h : f key = none) :
    (map K V).apply f (.insert key val) = (Function.update f key (some val), .inserted true) := by
  simp [map, h]

theorem map_insert_present {val' : V} (h : f key = some val') :
    (map K V).apply f (.insert key val) = (f, .inserted false) := by
  simp [map, h]

theorem map_remove_present (h : f key = some val) :
    (map K V).apply f (.remove key) = (Function.update f key none, .value (some val)) := by
  simp [map, h]

theorem map_remove_absent (h : f key = none) : (map K V).apply f (.remove key) = (f, .value none) := by
  simp [map, h, Function.update_eq_self_iff]

end Map

/-! ## What the lists say about the map -/

section Lists
variable {s : State α K V m n} {L : List (Entry (Op K V) (Ret V))} {l : Fin m → List (Loc m α)}
  {p q : Loc m α} {a : α} {nd : Node α K V} {i : Fin m}

omit [LinearOrder K] in
theorem nextOf_some (h : nextOf s p = some q) : ∃ a lk, q = .next a ∧ s.read p = some lk ∧ lk.ptr = some a := by
  obtain ⟨a, ha, rfl⟩ := Option.map_eq_some_iff.mp h
  obtain ⟨lk, hlk, hp⟩ := Option.bind_eq_some_iff.mp ha
  exact ⟨a, lk, rfl, hlk, hp⟩

omit [LinearOrder K] in
theorem nextOf_of {lk : Link α} (h : s.read p = some lk) : nextOf s p = lk.ptr.map .next := by
  simp [nextOf, h]

omit [LinearOrder K] in
theorem read_next (h : s.node a = some nd) : s.read (.next a) = some nd.next := by
  simp [State.read, h]

omit [LinearOrder K] in
theorem rank_next (h : s.node a = some nd) : (rank s.node (.next a : Loc m α) : WithBot K) = nd.key := by
  simp [rank, h]

omit [LinearOrder K] in
theorem home_next (h : s.node a = some nd) : home idx s.node (.next a) = some (idx nd.key) := by
  simp [home, h]

theorem MapInv.home_mem (h : MapInv idx s l) (hp : p = .bucket i ∨ p ∈ l i) : home idx s.node p = some i := by
  rcases hp with hp | hp
  · rw [hp]
    rfl
  · exact (h.ends i).forall (P := fun p => home idx s.node p = some i) rfl
      (fun u v huv hu => (h.homes u v huv).trans hu) p hp

theorem MapInv.mem_node (h : MapInv idx s l) (hp : p ∈ l i) :
    ∃ a nd, p = .next a ∧ s.node a = some nd ∧ idx nd.key = i := by
  obtain ⟨w, _, hw⟩ := (h.ends i).pred hp
  obtain ⟨a, _, hpa, _, _⟩ := nextOf_some hw
  rw [hpa] at hw
  obtain ⟨nd, hnd⟩ := h.closed w a hw
  have hhome := h.home_mem (Or.inr hp)
  rw [hpa, home_next hnd] at hhome
  exact ⟨a, nd, hpa, hnd, Option.some.inj hhome⟩

/-- The location is in the list of the bucket, and the key comes after it and before what follows: no node of the
list has the key. -/
theorem MapInv.gap (h : MapInv idx s l) (hp : p = .bucket i ∨ p ∈ l i) {key : K} (hlt : rank s.node p < key)
    (hgt : ∀ b ndb, nextOf s p = some (.next b) → s.node b = some ndb → key < ndb.key) (ha : Loc.next a ∈ l i)
    (hnd : s.node a = some nd) : nd.key ≠ key := by
  intro hkey
  have hrank : (rank s.node (.next a : Loc m α) : WithBot K) = key := by rw [rank_next hnd, hkey]
  rcases (h.ends i).gap h.ascending hp (Or.inr ha) with hle | ⟨z, hz, hle⟩
  · rw [hrank] at hle
    exact absurd hlt (not_lt.mpr hle)
  · obtain ⟨c, _, hzc, _, _⟩ := nextOf_some hz
    rw [hzc] at hz hle
    obtain ⟨ndc, hndc⟩ := h.closed p c hz
    rw [hrank, rank_next hndc, WithBot.coe_le_coe] at hle
    exact absurd (hgt c ndc hz hndc) (not_lt.mpr hle)

/-- So the map does not have it. -/
theorem Inv.absent (h : Inv idx s L l) (hp : p = .bucket i ∨ p ∈ l i) {key : K} (hk : idx key = i)
    (hlt : rank s.node p < key) (hgt : ∀ b ndb, nextOf s p = some (.next b) → s.node b = some ndb → key < ndb.key) :
    (map K V).after (map K V).init L key = none := by
  by_contra hne
  obtain ⟨val, hval⟩ := Option.ne_none_iff_exists'.mp hne
  obtain ⟨b, ndb, hb, hndb, _, hkey, _⟩ := (h.contents key val).mp hval
  rw [hk] at hb
  exact h.lists.gap hp hlt hgt hb hndb hkey

/-- The node has no mark and can be reached, so the map has its key. -/
theorem Inv.present (h : Inv idx s L l) (hnd : s.node a = some nd) (hm : nd.next.mark = false) (hseen : Seen s a) :
    (map K V).after (map K V).init L nd.key = some nd.val :=
  (h.contents nd.key nd.val).mpr ⟨a, nd, h.lists.live a nd hnd hm hseen, hnd, hm, rfl, rfl⟩

theorem Before.rank_lt {key : K} {prev : Option α} (hb : Before idx s.node key prev) :
    rank s.node (addr idx prev key) < key := by
  cases prev with
  | none => exact WithBot.bot_lt_coe key
  | some a =>
    obtain ⟨nd, hnd, hlt, _⟩ := hb a rfl
    rw [addr, rank_next hnd]
    exact WithBot.coe_lt_coe.mpr hlt

/-- The location has no mark and can be reached, so it is in the list of the bucket. -/
theorem Inv.addr_mem (h : Inv idx s L l) {key : K} {prev ptr : Option α} (hb : Before idx s.node key prev)
    (hseen : ∀ a, prev = some a → Seen s a) (hr : s.read (addr idx prev key) = some ⟨ptr, false⟩) :
    addr idx prev key = .bucket (idx key) ∨ addr idx prev key ∈ l (idx key) := by
  cases prev with
  | none => exact Or.inl rfl
  | some a =>
    obtain ⟨nd, hnd, _, hidx⟩ := hb a rfl
    rw [addr, read_next hnd] at hr
    have hm : nd.next.mark = false := by rw [Option.some.inj hr]
    rw [← hidx]
    exact Or.inr (h.lists.live a nd hnd hm (hseen a rfl))

/-- A location that somebody can reach is not in another's private node. -/
theorem Inv.not_private (h : Inv idx s L l) {i : Fin m} (hp : p = .bucket i ∨ p ∈ l i) {v : Fin n} {a : α}
    (ha : (s.pc v).tmpNode = some a) : p ≠ .next a := by
  intro he
  have hseen : Seen s a := by
    rcases hp with hp | hp
    · rw [he] at hp
      cases hp
    · rw [he] at hp
      obtain ⟨w, _, hw⟩ := (h.lists.ends i).pred hp
      exact Or.inl ⟨w, hw⟩
  exact ((h.threads v).owned a ha).hidden hseen

end Lists

/-! ## Steps that change no node -/

section Goes
variable {s : State α K V m n} {t : Fin n} {L L' : List (Entry (Op K V) (Ret V))} {l : Fin m → List (Loc m α)}
  {pc : Pc α K V}

omit [LinearOrder K] in
theorem seen_setPc (hp : ∀ a ∈ pc.snapshots, Seen s a) {a : α} (h : Seen (s.setPc t pc) a) : Seen s a := by
  rcases h with h | ⟨u, hu⟩
  · exact Or.inl h
  · by_cases hut : u = t
    · rw [hut, setPc_self] at hu
      exact hp a hu
    · rw [setPc_of_ne s pc hut] at hu
      exact Or.inr ⟨u, hu⟩

theorem MapInv.setPc (h : MapInv idx s l) (hp : ∀ a ∈ pc.snapshots, Seen s a) :
    MapInv idx (s.setPc t pc) l :=
  ⟨h.ends, h.ascending, h.closed, h.homes, fun a nd ha hm hs => h.live a nd ha hm (seen_setPc hp hs)⟩

/-- What a thread may do on its own: it goes on with nodes that a location or a snapshot refers to, and
with its own. -/
structure Goes (idx : K → Fin m) (s : State α K V m n) (L L' : List (Entry (Op K V) (Ret V))) (t : Fin n)
    (pc : Pc α K V) : Prop where
  busy : s.pc t ≠ .idle
  tmpNode : ∀ a, pc.tmpNode = some a → (s.pc t).tmpNode = some a
  snapshots : ∀ a ∈ pc.snapshots, (∃ nd, s.node a = some nd) ∧ Seen s a
  knows : ∀ i o, s.calls.call t = some (i, o) → Knows idx s.node s.calls.hist L i o (s.pc t) →
    Knows idx s.node s.calls.hist L' i o pc

theorem Inv.goes_threads (h : Inv idx s L l) (g : Goes idx s L L' t pc)
    (hsaw : ∀ v i o, v ≠ t → s.calls.call v = some (i, o) → KeepsSaw s.calls.hist s.calls.hist L L' i)
    (v : Fin n) : ThreadInv idx (s.setPc t pc) L' v := by
  have hseen : ∀ a, Seen (s.setPc t pc) a → Seen s a :=
    fun a ha => seen_setPc (fun b hb => (g.snapshots b hb).2) ha
  have hframe : ∀ v, v ≠ t → Frame s (s.setPc t pc) v :=
    fun v hv => ⟨setPc_of_ne s pc hv, rfl, fun _ _ => .of_eq rfl, fun _ _ => rfl⟩
  have hself : ThreadInv idx (s.setPc t pc) L' t := by
    refine ⟨fun _ => ?_, ?_, ?_⟩
    · rw [setPc_self]
      obtain ⟨i, o, hc, hk⟩ := (h.threads t).op g.busy
      exact ⟨i, o, hc, g.knows i o hc hk⟩
    · rw [setPc_self]
      intro a ha
      have hp := (h.threads t).owned a (g.tmpNode a ha)
      refine ⟨fun hs => hp.hidden (hseen a hs), fun u hu => ?_⟩
      rw [setPc_of_ne s pc hu]
      exact hp.others u hu
    · rw [setPc_self]
      intro a ha
      rcases ha with ha | ha
      · exact (h.threads t).allocated a (Or.inl (g.tmpNode a ha))
      · exact (g.snapshots a ha).1
  refine threads_step (t := t) h.threads hframe hsaw (fun v a hv _ hp => ⟨fun hs => hp.hidden (hseen a hs), ?_⟩)
    hself v
  rw [setPc_self]
  intro he
  exact hp.others t (Ne.symm hv) (g.tmpNode a he)

/-- A step that changes nothing but the point the call has reached. -/
theorem Inv.goes (h : Inv idx s L l) (g : Goes idx s L L t pc) (hret : retOf pc = retOf (s.pc t)) :
    Inv idx (s.setPc t pc) L l where
  tracks := by
    rw [retOf_setPc s pc]
    refine h.tracks.congr fun u _ _ _ => ?_
    by_cases hu : u = t
    · rw [hu, Function.update_self]
      exact hret
    · rw [Function.update_of_ne hu]
  legal := h.legal
  contents := h.contents
  lists := h.lists.setPc fun a ha => (g.snapshots a ha).2
  threads := h.goes_threads g fun _ _ _ _ _ _ hP => hP

/-- A call that changes nothing is put where it would have had its response. -/
theorem Inv.answers (h : Inv idx s L l) {i : Nat} {o : Op K V} {r : Ret V} (hret : retOf (s.pc t) = none)
    (hbusy : s.pc t ≠ .idle) (hc : s.calls.call t = some (i, o))
    (hsaw : Saw (map K V) s.calls.hist L i fun f => (map K V).apply f o = (f, r)) :
    ∃ L', Inv idx (s.setPc t (.ret r)) L' l := by
  obtain ⟨A, B, rfl, hp, hb⟩ := hsaw
  have hrun := h.tracks.running t i o hc
  obtain ⟨hlegal, hafter⟩ := Seq.insert (e := ⟨i, o, r⟩) h.legal hp
  have g : Goes idx s (A ++ B) (A ++ ⟨i, o, r⟩ :: B) t (.ret r) :=
    ⟨hbusy, by simp [Pc.tmpNode], by simp [Pc.snapshots], fun _ _ _ _ => trivial⟩
  refine ⟨_, ?_, hlegal, fun key val => ?_, h.lists.setPc (by simp [Pc.snapshots]),
    h.goes_threads g fun _ _ _ _ _ P hP => hP.insert hrun hp⟩
  · rw [retOf_setPc s]
    exact h.tracks.insert r hc hret hb
  · rw [hafter]
    exact h.contents key val

theorem Inv.held (h : Inv idx s L l) {a : α} (ha : a ∈ (s.pc t).snapshots) :
    (∃ nd, s.node a = some nd) ∧ Seen s a :=
  ⟨(h.threads t).allocated a (Or.inr ha), Or.inr ⟨t, ha⟩⟩

theorem Inv.read (h : Inv idx s L l) {p : Loc m α} {lk : Link α} (hp : s.read p = some lk) {a : α}
    (ha : lk.ptr = some a) : (∃ nd, s.node a = some nd) ∧ Seen s a := by
  have hnext : nextOf s p = some (.next a) := by
    rw [nextOf_of hp, ha]
    rfl
  exact ⟨h.lists.closed p a hnext, Or.inl ⟨p, hnext⟩⟩

/-- The call of `t`, and what it knows. -/
theorem Inv.running (h : Inv idx s L l) {pc : Pc α K V} (hpc : s.pc t = pc) (hbusy : pc ≠ .idle) :
    ∃ i o, s.calls.call t = some (i, o) ∧ Knows idx s.node s.calls.hist L i o pc := by
  rw [← hpc] at hbusy ⊢
  exact (h.threads t).op hbusy

end Goes

/-! ## Steps that write a location -/

section Writes
variable [DecidableEq α] {s : State α K V m n} {t : Fin n} {L L' : List (Entry (Op K V) (Ret V))}
  {l l' : Fin m → List (Loc m α)} {p q : Loc m α} {lk : Link α} {a : α} {old : Option α} {pc : Pc α K V}

/-- A link that a location can hold: those in buckets have no mark. -/
def Fits (p : Loc m α) (lk : Link α) : Prop := ∀ i, p = .bucket i → lk.mark = false

omit [LinearOrder K] in
theorem read_write_self {lk₀ : Link α} (hr : s.read p = some lk₀) (hf : Fits p lk) :
    (s.write p lk).read p = some lk := by
  cases p with
  | bucket i =>
    have hm := hf i rfl
    obtain ⟨ptr, mark⟩ := lk
    cases hm
    simp [State.write, State.read]
  | next a =>
    obtain ⟨nd, hnd, _⟩ := Option.map_eq_some_iff.mp hr
    simp [State.write, State.read, hnd]

omit [LinearOrder K] in
theorem read_write_of_ne (hq : q ≠ p) : (s.write p lk).read q = s.read q := by
  cases p with
  | bucket i =>
    cases q with
    | bucket j =>
      have hji : j ≠ i := by
        intro he
        exact hq (by rw [he])
      simp [State.write, State.read, Function.update_of_ne hji]
    | next b => rfl
  | next a =>
    cases q with
    | bucket j => rfl
    | next b =>
      have hba : b ≠ a := by
        intro he
        exact hq (by rw [he])
      simp [State.write, State.read, Function.update_of_ne hba]

omit [LinearOrder K] in
/-- A node after the write is one from before, but for the `next` that was written. -/
theorem write_cases {nd' : Node α K V} (h : (s.write p lk).node a = some nd') :
    (p = .next a ∧ ∃ nd, s.node a = some nd ∧ nd' = { nd with next := lk }) ∨
      (p ≠ .next a ∧ s.node a = some nd') := by
  cases p with
  | bucket i => exact Or.inr ⟨by simp, h⟩
  | next b =>
    by_cases hab : a = b
    · rw [hab] at h ⊢
      simp only [State.write, Function.update_self] at h
      obtain ⟨nd, hnd, he⟩ := Option.map_eq_some_iff.mp h
      exact Or.inl ⟨rfl, nd, hnd, he.symm⟩
    · refine Or.inr ⟨fun he => hab ?_, ?_⟩
      · cases he
        rfl
      · simpa [State.write, Function.update_of_ne hab] using h

omit [LinearOrder K] in
/-- The nodes that are there, with their keys and values. -/
theorem write_entry (s : State α K V m n) (p : Loc m α) (lk : Link α) (a : α) :
    ((s.write p lk).node a).map (fun nd => (nd.key, nd.val)) =
      (s.node a).map fun nd => (nd.key, nd.val) := by
  cases p with
  | bucket i => rfl
  | next b =>
    by_cases hab : a = b
    · rw [hab]
      simp only [State.write, Function.update_self, Option.map_map]
      rfl
    · simp [State.write, Function.update_of_ne hab]

omit [LinearOrder K] in
theorem write_allocated (p : Loc m α) (lk : Link α) {nd : Node α K V} (h : s.node a = some nd) :
    ∃ nd', (s.write p lk).node a = some nd' ∧ nd'.key = nd.key ∧ nd'.val = nd.val := by
  have he := write_entry s p lk a
  rw [h] at he
  obtain ⟨nd', hnd', hkv⟩ := Option.map_eq_some_iff.mp he
  simp only [Prod.mk.injEq] at hkv
  exact ⟨nd', hnd', hkv⟩

omit [LinearOrder K] in
theorem rank_write (q : Loc m α) :
    (rank (s.write p lk).node q : WithBot K) = rank s.node q := by
  cases q with
  | bucket i => rfl
  | next a =>
    have he := congrArg (Option.map fun x : K × V => (x.1 : WithBot K)) (write_entry s p lk a)
    simp only [Option.map_map] at he
    exact congrArg (·.getD ⊥) he

omit [LinearOrder K] in
theorem home_write (q : Loc m α) : home idx (s.write p lk).node q = home idx s.node q := by
  cases q with
  | bucket i => rfl
  | next a =>
    have he := congrArg (Option.map fun x : K × V => idx x.1) (write_entry s p lk a)
    simp only [Option.map_map] at he
    exact he

omit [LinearOrder K] in
theorem write_stays (lk : Link α) (hr : s.read p = some ⟨old, false⟩) (a : α) : Stays s.node (s.write p lk).node a := by
  intro nd hnd
  obtain ⟨nd', hnd', hkey, hval⟩ := write_allocated p lk hnd
  refine ⟨nd', hnd', hkey, hval, fun hm => ?_⟩
  rcases write_cases hnd' with ⟨hp, _⟩ | ⟨_, hnd''⟩
  · rw [hp, read_next hnd] at hr
    rw [Option.some.inj hr] at hm
    cases hm
  · exact Option.some.inj (hnd''.symm.trans hnd)

omit [LinearOrder K] in
theorem nextOf_write_self {lk₀ : Link α} (hr : s.read p = some lk₀) (hf : Fits p lk) :
    nextOf (s.write p lk) p = lk.ptr.map .next :=
  nextOf_of (read_write_self hr hf)

omit [LinearOrder K] in
theorem nextOf_write_of_ne (hq : q ≠ p) : nextOf (s.write p lk) q = nextOf s q := by
  rw [nextOf, read_write_of_ne hq]
  rfl

omit [LinearOrder K] in
theorem nextOf_write_cases {lk₀ : Link α} (hr : s.read p = some lk₀) (hf : Fits p lk) {b : α}
    (h : nextOf (s.write p lk) q = some (.next b)) :
    (q = p ∧ lk.ptr = some b) ∨ (q ≠ p ∧ nextOf s q = some (.next b)) := by
  by_cases hq : q = p
  · rw [hq, nextOf_write_self hr hf] at h
    obtain ⟨c, hc, he⟩ := Option.map_eq_some_iff.mp h
    cases he
    exact Or.inl ⟨hq, hc⟩
  · rw [nextOf_write_of_ne hq] at h
    exact Or.inr ⟨hq, h⟩

/-- What may be written to a location: no mark into a bucket, and a node that comes later, in the same
bucket. -/
structure Target (idx : K → Fin m) (s : State α K V m n) (p : Loc m α) (lk : Link α) : Prop where
  fits : Fits p lk
  lt : ∀ b, lk.ptr = some b → rank s.node p < (rank s.node (.next b : Loc m α) : WithBot K)
  allocated : ∀ b, lk.ptr = some b → ∃ nd, s.node b = some nd
  home : ∀ b, lk.ptr = some b → home idx s.node (.next b) = home idx s.node p

/-- The lists after the write are `l'`. -/
theorem MapInv.write (h : MapInv idx s l) {lk₀ : Link α} (hr : s.read p = some lk₀) (ht : Target idx s p lk)
    (hends : ∀ i, Ends (nextOf (s.write p lk)) (.bucket i) (l' i))
    (hlive : ∀ a nd, (s.write p lk).node a = some nd → nd.next.mark = false →
      Seen (s.write p lk) a → Loc.next a ∈ l' (idx nd.key)) :
    MapInv idx (s.write p lk) l' where
  ends := hends
  ascending := by
    intro q q' hq
    obtain ⟨b, _, hqb, _, _⟩ := nextOf_some hq
    rw [hqb] at hq ⊢
    have hlt : rank s.node q < (rank s.node (.next b : Loc m α) : WithBot K) := by
      rcases nextOf_write_cases hr ht.fits hq with ⟨hqp, hb⟩ | ⟨_, hq⟩
      · rw [hqp]
        exact ht.lt b hb
      · exact h.ascending q _ hq
    exact (rank_write q).trans_lt (hlt.trans_eq (rank_write (.next b)).symm)
  closed := by
    intro q b hq
    have hb : ∃ nd, s.node b = some nd := by
      rcases nextOf_write_cases hr ht.fits hq with ⟨_, hb⟩ | ⟨_, hq⟩
      · exact ht.allocated b hb
      · exact h.closed q b hq
    obtain ⟨nd, hnd⟩ := hb
    obtain ⟨nd', hnd', _⟩ := write_allocated p lk hnd
    exact ⟨nd', hnd'⟩
  homes := by
    intro q q' hq
    obtain ⟨b, _, hqb, _, _⟩ := nextOf_some hq
    rw [hqb] at hq ⊢
    have hhome : home idx s.node (.next b) = home idx s.node q := by
      rcases nextOf_write_cases hr ht.fits hq with ⟨hqp, hb⟩ | ⟨_, hq⟩
      · rw [hqp]
        exact ht.home b hb
      · exact h.homes q _ hq
    exact (home_write (.next b)).trans (hhome.trans (home_write q).symm)
  live := hlive

/-- The list of one bucket is changed at `p`, from where it goes on with `C`; `A` comes before. -/
theorem MapInv.ends_write (h : MapInv idx s l) {i : Fin m} {A C : List (Loc m α)}
    (hp : p = .bucket i ∨ p ∈ l i) (hA : Path (nextOf s) (.bucket i) A p)
    (hC : Ends (nextOf (s.write p lk)) p C) (j : Fin m) :
    Ends (nextOf (s.write p lk)) (.bucket j) (Function.update l i (A ++ C) j) := by
  by_cases hj : j = i
  · rw [hj, Function.update_self]
    exact Ends.relink hA h.ascending (fun v hv => nextOf_write_of_ne hv) hC
  · rw [Function.update_of_ne hj]
    refine (h.ends j).frame fun u hu => nextOf_write_of_ne ?_
    intro he
    rw [he] at hu
    exact hj (Option.some.inj ((h.home_mem hu).symm.trans (h.home_mem hp)))

omit [LinearOrder K] in
/-- What can be reached after a write. -/
theorem seen_write {lk₀ : Link α} (hr : s.read p = some lk₀) (hf : Fits p lk) {b : α}
    (hb : Seen (s.write p lk) b) : Seen s b ∨ lk.ptr = some b := by
  rcases hb with ⟨q, hq⟩ | hb
  · rcases nextOf_write_cases hr hf hq with ⟨_, hb⟩ | ⟨_, hq⟩
    · exact Or.inr hb
    · exact Or.inl (Or.inl ⟨q, hq⟩)
  · exact Or.inl (Or.inr hb)

omit [LinearOrder K] in
/-- A node has no mark after a write, so it had none before. -/
theorem unmarked_write (hr : s.read p = some ⟨old, false⟩) {nd' : Node α K V}
    (h : (s.write p lk).node a = some nd') (hm : nd'.next.mark = false) :
    ∃ nd, s.node a = some nd ∧ nd.next.mark = false ∧ nd.key = nd'.key ∧ nd.val = nd'.val := by
  rcases write_cases h with ⟨hp, nd, hnd, hnd'⟩ | ⟨_, hnd⟩
  · rw [hp, read_next hnd] at hr
    refine ⟨nd, hnd, by rw [Option.some.inj hr], ?_⟩
    rw [hnd']
    exact ⟨rfl, rfl⟩
  · exact ⟨nd', hnd, hm, rfl, rfl⟩

omit [LinearOrder K] in
/-- A node has no mark before a write, nor after it if the link has none. -/
theorem write_unmarked (p : Loc m α) (lk : Link α) (hlk : lk.mark = false) {nd : Node α K V} (h : s.node a = some nd)
    (hm : nd.next.mark = false) :
    ∃ nd', (s.write p lk).node a = some nd' ∧ nd'.next.mark = false ∧ nd'.key = nd.key ∧ nd'.val = nd.val := by
  obtain ⟨nd', hnd', hkey, hval⟩ := write_allocated p lk h
  refine ⟨nd', hnd', ?_, hkey, hval⟩
  rcases write_cases hnd' with ⟨_, nd₀, _, he⟩ | ⟨_, hnd⟩
  · rw [he]
    exact hlk
  · rw [Option.some.inj (hnd.symm.trans h)]
    exact hm

/-- A step of `t` that writes the location `p`, which has no mark, and goes to `pc`. -/
theorem Inv.write (h : Inv idx s L l) (hr : s.read p = some ⟨old, false⟩)
    (htracks : Tracks s.calls L' (Function.update (fun v => retOf (s.pc v)) t (retOf pc)))
    (hlegal : (map K V).Legal L')
    (hcontents : ∀ key val, (map K V).after (map K V).init L' key = some val ↔
      Present idx (s.write p lk) l' key val)
    (hlists : MapInv idx (s.write p lk) l') (hsnap : ∀ b ∈ pc.snapshots, b ∈ (s.pc t).snapshots)
    (hother : ∀ v a, v ≠ t → (s.pc v).tmpNode = some a → p ≠ .next a)
    (hseen : ∀ b, Seen (s.write p lk) b → Seen s b ∨ (s.pc t).tmpNode = some b)
    (htmp : ∀ a, pc.tmpNode = some a → (s.pc t).tmpNode = some a)
    (hsaw : ∀ v i o, v ≠ t → s.calls.call v = some (i, o) → KeepsSaw s.calls.hist s.calls.hist L L' i)
    (hknows : ∃ i o, s.calls.call t = some (i, o) ∧ Knows idx (s.write p lk).node s.calls.hist L' i o pc)
    (hown : ∀ a, pc.tmpNode = some a → ¬ Seen (s.write p lk) a) :
    Inv idx ((s.write p lk).setPc t pc) L' l' where
  tracks := by
    rw [retOf_setPc]
    exact htracks
  legal := hlegal
  contents := hcontents
  lists := hlists.setPc fun b hb => Or.inr ⟨t, hsnap b hb⟩
  threads := by
    have hseen' : ∀ b, Seen ((s.write p lk).setPc t pc) b → Seen (s.write p lk) b :=
      fun b hb => seen_setPc (s := s.write p lk) (fun c hc => Or.inr ⟨t, hsnap c hc⟩) hb
    have hframe : ∀ v, v ≠ t → Frame s ((s.write p lk).setPc t pc) v := by
      intro v hv
      refine ⟨setPc_of_ne _ pc hv, rfl, fun a _ => write_stays _ hr a, fun a ha => ?_⟩
      cases p with
      | bucket i => rfl
      | next b =>
        have hab : a ≠ b := by
          intro he
          exact hother v a hv ha (by rw [he])
        exact Function.update_of_ne hab ..
    have hself : ThreadInv idx ((s.write p lk).setPc t pc) L' t := by
      refine ⟨fun _ => ?_, ?_, ?_⟩
      · rw [setPc_self]
        exact hknows
      · rw [setPc_self]
        intro a ha
        refine ⟨fun hs => hown a ha (hseen' a hs), fun u hu => ?_⟩
        rw [setPc_of_ne _ pc hu]
        exact ((h.threads t).owned a (htmp a ha)).others u hu
      · rw [setPc_self]
        intro a ha
        have hused : (s.pc t).tmpNode = some a ∨ a ∈ (s.pc t).snapshots :=
          ha.imp (htmp a) (hsnap a)
        obtain ⟨nd, hnd⟩ := (h.threads t).allocated a hused
        obtain ⟨nd', hnd', _⟩ := write_stays lk hr a nd hnd
        exact ⟨nd', hnd'⟩
    refine threads_step (t := t) h.threads hframe hsaw (fun v a hv ha hp => ⟨fun hs => ?_, ?_⟩) hself
    · rcases hseen a (hseen' a hs) with hs | hs
      · exact hp.hidden hs
      · exact hp.others t (Ne.symm hv) hs
    · rw [setPc_self]
      intro he
      exact hp.others t (Ne.symm hv) (htmp a he)

/-- A node in the list whose mark is set is taken out of it. -/
theorem Inv.relink (h : Inv idx s L l) {i : Fin m} {cur : α} {nxt : Option α}
    (hp : p = .bucket i ∨ p ∈ l i) (hr : s.read p = some ⟨some cur, false⟩) (hf : Frozen s.node cur nxt) :
    ∃ A B, l i = A ++ .next cur :: B ∧ (p = .bucket i ∨ p ∈ A ++ B) ∧
      Inv idx (s.write p ⟨nxt, false⟩) L (Function.update l i (A ++ B)) := by
  obtain ⟨ndc, hndc, hnext⟩ := hf
  obtain ⟨A, C, hl, hA, hC⟩ := (h.lists.ends i).split hp
  have hpc : nextOf s p = some (.next cur) := nextOf_of hr
  have hcn : nextOf s (.next cur) = nxt.map .next := by
    rw [nextOf_of (read_next hndc), hnext]
  cases C with
  | nil =>
    rw [show nextOf s p = none from hC] at hpc
    cases hpc
  | cons c B =>
    obtain ⟨hc, hB⟩ := hC
    obtain rfl : Loc.next cur = c := Option.some.inj (hpc.symm.trans hc)
    have hfits : Fits p (⟨nxt, false⟩ : Link α) := fun _ _ => rfl
    have hself : nextOf (s.write p ⟨nxt, false⟩) p = nxt.map .next := nextOf_write_self hr hfits
    have hlt := h.lists.ascending p _ hpc
    have hcp : p ≠ .next cur := fun he => lt_irrefl _ (he ▸ hlt)
    -- the list goes on behind `cur`, where nothing has changed
    have hBw : Ends (nextOf (s.write p ⟨nxt, false⟩)) p B := by
      have hBc : Ends (nextOf (s.write p ⟨nxt, false⟩)) (.next cur) B := by
        refine hB.frame_above h.lists.ascending fun z hz => nextOf_write_of_ne ?_
        intro he
        rw [he] at hz
        exact absurd hlt (not_lt.mpr hz)
      cases B with
      | nil => exact hself.trans (hcn.symm.trans hB)
      | cons z B => exact ⟨hself.trans (hcn.symm.trans hB.1), hBc.2⟩
    have hcb : ∀ b, nxt = some b → nextOf s (.next cur) = some (.next b) := by
      intro b hb
      rw [hcn, hb]
      rfl
    have htarget : Target idx s p ⟨nxt, false⟩ :=
      ⟨hfits, fun b hb => hlt.trans (h.lists.ascending _ _ (hcb b hb)),
        fun b hb => h.lists.closed _ b (hcb b hb),
        fun b hb => (h.lists.homes _ _ (hcb b hb)).trans (h.lists.homes _ _ hpc)⟩
    have hseen : ∀ b, Seen (s.write p ⟨nxt, false⟩) b → Seen s b := by
      intro b hb
      rcases seen_write hr hfits hb with hb | hb
      · exact hb
      · exact Or.inl ⟨_, hcb b hb⟩
    have hmem : ∀ a j, a ≠ cur → (Loc.next a ∈ Function.update l i (A ++ B) j ↔ Loc.next a ∈ l j) := by
      intro a j ha
      by_cases hj : j = i
      · rw [hj, Function.update_self, hl]
        simp [ha]
      · rw [Function.update_of_ne hj]
    have hne : ∀ a nd, s.node a = some nd → nd.next.mark = false → a ≠ cur := by
      intro a nd hnd hm he
      rw [he, hndc] at hnd
      rw [← Option.some.inj hnd, hnext] at hm
      cases hm
    have hlists : MapInv idx (s.write p ⟨nxt, false⟩) (Function.update l i (A ++ B)) := by
      refine h.lists.write hr htarget (h.lists.ends_write hp hA hBw) fun a nd' hnd' hm hs => ?_
      obtain ⟨nd, hnd, hm, hkey, _⟩ := unmarked_write hr hnd' hm
      rw [← hkey, hmem a _ (hne a nd hnd hm)]
      exact h.lists.live a nd hnd hm (hseen a hs)
    refine ⟨A, B, hl, ?_, h.tracks, h.legal, fun key val => ?_, hlists, fun v => ?_⟩
    · rcases hA.last_mem with hpb | hpA
      · exact Or.inl hpb
      · exact Or.inr (List.mem_append_left _ hpA)
    · rw [h.contents]
      constructor
      · intro hex
        obtain ⟨a, nd, ha, hnd, hm, hkey, hval⟩ := hex
        obtain ⟨nd', hnd', hm', hkey', hval'⟩ := write_unmarked p ⟨nxt, false⟩ rfl hnd hm
        exact ⟨a, nd', (hmem a _ (hne a nd hnd hm)).mpr ha, hnd', hm', hkey'.trans hkey, hval'.trans hval⟩
      · intro hex
        obtain ⟨a, nd', ha, hnd', hm', hkey', hval'⟩ := hex
        obtain ⟨nd, hnd, hm, hkey, hval⟩ := unmarked_write hr hnd' hm'
        exact ⟨a, nd, (hmem a _ (hne a nd hnd hm)).mp ha, hnd, hm, hkey.trans hkey', hval.trans hval'⟩
    · have hframe : Frame s (s.write p ⟨nxt, false⟩) v := by
        refine ⟨rfl, rfl, fun a _ => write_stays _ hr a, fun a ha => ?_⟩
        cases hpq : p with
        | bucket j => rfl
        | next b =>
          have hab : a ≠ b := by
            intro he
            exact h.not_private hp ha (by rw [hpq, he])
          exact Function.update_of_ne hab ..
      exact (h.threads v).frame hframe (fun _ _ _ _ hP => hP) fun a _ hpr =>
        ⟨fun hs => hpr.hidden (hseen a hs), hpr.others⟩

/-- `insert` takes effect: the location holds `cur` still, and nothing was between the two. The list has the new
node and no other. -/
theorem Inv.insertCas (h : Inv idx s L l) {key : K} {tmpNode : α} {prev cur : Option α}
    (hpc : s.pc t = .insertCas key tmpNode prev cur) (hr : s.read (addr idx prev key) = some ⟨cur, false⟩) :
    ∃ L' l', Inv idx ((s.write (addr idx prev key) ⟨some tmpNode, false⟩).setPc t (.ret (.inserted true))) L' l' ∧
      ∀ a j, Loc.next a ∈ l' j → Loc.next a ∈ l j ∨ a = tmpNode := by
  obtain ⟨i, o, hc, ⟨val, ho, htmp⟩, hb, ha⟩ := h.running hpc (by simp)
  rw [ho] at hc
  have hown : (s.pc t).tmpNode = some tmpNode := by
    rw [hpc]
    rfl
  have hpriv := (h.threads t).owned tmpNode hown
  have hprev : ∀ a, prev = some a → Seen s a := by
    intro a hpa
    refine (h.held (t := t) ?_).2
    rw [hpc, hpa]
    simp [Pc.snapshots]
  have hp := h.addr_mem hb hprev hr
  have hlt := hb.rank_lt
  generalize addr idx prev key = p at hr hp hlt ⊢
  obtain ⟨A, C, hl, hA, hC⟩ := (h.lists.ends (idx key)).split hp
  have hpcur : nextOf s p = cur.map .next := nextOf_of hr
  have htn : nextOf s (.next tmpNode) = cur.map .next := nextOf_of (read_next htmp)
  have hrank : (rank s.node (.next tmpNode : Loc m α) : WithBot K) = key := rank_next htmp
  have hptmp : p ≠ .next tmpNode := h.not_private hp hown
  have hfits : Fits p (⟨some tmpNode, false⟩ : Link α) := fun _ _ => rfl
  have hself : nextOf (s.write p ⟨some tmpNode, false⟩) p = some (.next tmpNode) := nextOf_write_self hr hfits
  have hfnone : (map K V).after (map K V).init L key = none := by
    refine h.absent hp rfl hlt fun b ndb hpb hndb => ?_
    rw [hpcur] at hpb
    obtain ⟨c, hcur, he⟩ := Option.map_eq_some_iff.mp hpb
    cases he
    obtain ⟨nd, hnd, hkey, _⟩ := ha b hcur
    rwa [← Option.some.inj (hnd.symm.trans hndb)]
  -- the new node goes on with what followed
  have hCw : Ends (nextOf (s.write p ⟨some tmpNode, false⟩)) p (.next tmpNode :: C) := by
    refine ⟨hself, ?_⟩
    have htn' : nextOf (s.write p ⟨some tmpNode, false⟩) (.next tmpNode) = nextOf s p := by
      rw [nextOf_write_of_ne (Ne.symm hptmp), htn, hpcur]
    cases C with
    | nil => exact htn'.trans hC
    | cons c C =>
      refine ⟨htn'.trans hC.1, hC.2.frame_above h.lists.ascending fun z hz => nextOf_write_of_ne ?_⟩
      intro he
      rw [he] at hz
      exact absurd (h.lists.ascending p c hC.1) (not_lt.mpr hz)
  have htarget : Target idx s p ⟨some tmpNode, false⟩ := by
    refine ⟨hfits, fun b hb => ?_, fun b hb => ?_, fun b hb => ?_⟩
    all_goals cases hb
    · rw [hrank]
      exact hlt
    · exact ⟨_, htmp⟩
    · rw [home_next htmp, h.lists.home_mem hp]
  have hmem : ∀ a j, Loc.next a ∈ Function.update l (idx key) (A ++ .next tmpNode :: C) j ↔
      Loc.next a ∈ l j ∨ (a = tmpNode ∧ j = idx key) := by
    intro a j
    by_cases hj : j = idx key
    · rw [hj, Function.update_self, hl]
      simp only [List.mem_append, List.mem_cons, Loc.next.injEq, and_true]
      exact ⟨fun h => h.elim (fun h => .inl (.inl h)) fun h => h.elim .inr fun h => .inl (.inr h),
        fun h => h.elim (fun h => h.elim .inl fun h => .inr (.inr h)) fun h => .inr (.inl h)⟩
    · rw [Function.update_of_ne hj]
      simp [hj]
  have hlists : MapInv idx (s.write p ⟨some tmpNode, false⟩)
      (Function.update l (idx key) (A ++ .next tmpNode :: C)) := by
    refine h.lists.write hr htarget (h.lists.ends_write hp hA hCw) fun a nd' hnd' hm hs => ?_
    obtain ⟨nd, hnd, hm, hkey, _⟩ := unmarked_write hr hnd' hm
    rw [← hkey, hmem]
    rcases seen_write hr hfits hs with hs | hs
    · exact Or.inl (h.lists.live a nd hnd hm hs)
    · cases hs
      rw [htmp] at hnd
      cases hnd
      exact Or.inr ⟨rfl, rfl⟩
  have hrun := h.tracks.running t i _ hc
  have hafter : (map K V).after (map K V).init (L ++ [⟨i, .insert key val, .inserted true⟩]) =
      Function.update ((map K V).after (map K V).init L) key (some val) := by
    rw [Seq.after_append, Seq.after, map_insert_absent hfnone]
    rfl
  refine ⟨L ++ [⟨i, .insert key val, .inserted true⟩], _, h.write hr (h.tracks.commit _ hc (by rw [hpc]; rfl))
    (Seq.exact_append.mpr ⟨h.legal, ?_, trivial⟩) (fun k v => ?_) hlists (by simp [Pc.snapshots])
    (fun v a _ hva => h.not_private hp hva) (fun b hs => ?_) (by simp [Pc.tmpNode])
    (fun _ _ _ _ _ P hP => hP.commit hrun) ⟨i, _, hc, trivial⟩ (by simp [Pc.tmpNode]),
    fun a j ha => ((hmem a j).mp ha).imp_right And.left⟩
  · have hf : (map K V).after (map K V).init L key = none := hfnone
    rw [map_insert_absent hf]
  · rw [hafter]
    by_cases hk : k = key
    · rw [hk, Function.update_self]
      constructor
      · intro he
        cases he
        obtain ⟨nd', hnd', hm', hkey', hval'⟩ :=
          write_unmarked p ⟨some tmpNode, false⟩ rfl htmp rfl
        exact ⟨tmpNode, nd', (hmem _ _).mpr (Or.inr ⟨rfl, rfl⟩), hnd', hm', hkey', hval'⟩
      · intro hex
        obtain ⟨a, nd', hal, hnd', hm', hkey', hval'⟩ := hex
        obtain ⟨nd, hnd, hm, hkey, hval⟩ := unmarked_write hr hnd' hm'
        rcases (hmem _ _).mp hal with hal | ⟨he, _⟩
        · have hpres := (h.contents key v).mpr ⟨a, nd, hal, hnd, hm, hkey.trans hkey', hval.trans hval'⟩
          rw [hfnone] at hpres
          cases hpres
        · rw [he, htmp] at hnd
          cases hnd
          rw [← hval', ← hval]
    · rw [Function.update_of_ne hk, h.contents]
      constructor
      · intro hex
        obtain ⟨a, nd, hal, hnd, hm, hkey, hval⟩ := hex
        obtain ⟨nd', hnd', hm', hkey', hval'⟩ :=
          write_unmarked p ⟨some tmpNode, false⟩ rfl hnd hm
        exact ⟨a, nd', (hmem _ _).mpr (Or.inl hal), hnd', hm', hkey'.trans hkey, hval'.trans hval⟩
      · intro hex
        obtain ⟨a, nd', hal, hnd', hm', hkey', hval'⟩ := hex
        obtain ⟨nd, hnd, hm, hkey, hval⟩ := unmarked_write hr hnd' hm'
        rcases (hmem _ _).mp hal with hal | ⟨he, _⟩
        · exact ⟨a, nd, hal, hnd, hm, hkey.trans hkey', hval.trans hval'⟩
        · rw [he, htmp] at hnd
          cases hnd
          exact absurd (hkey.trans hkey').symm hk
  · rcases seen_write hr hfits hs with hs | hs
    · exact Or.inl hs
    · cases hs
      exact Or.inr hown

/-- `remove` takes effect: it sets the mark of a node that has none. -/
theorem Inv.removeMark (h : Inv idx s L l) {key : K} {prev nxt : Option α} {cur : α} {res : V} {nd : Node α K V}
    (hpc : s.pc t = .removeMark key prev cur nxt res) (hnd : s.node cur = some nd) (hnext : nd.next = ⟨nxt, false⟩) :
    ∃ L', Inv idx ((s.write (.next cur) ⟨nxt, true⟩).setPc t (.removeUnlink key prev cur nxt res)) L' l := by
  obtain ⟨i, o, hc, ho, hb, ndc, hndc, hkey, hval⟩ := h.running hpc (by simp)
  obtain rfl : nd = ndc := Option.some.inj (hnd.symm.trans hndc)
  rw [ho] at hc
  have hsnap : ∀ b ∈ (Pc.removeUnlink key prev cur nxt res : Pc α K V).snapshots, b ∈ (s.pc t).snapshots := by
    rw [hpc]
    exact fun b hb => hb
  have hseen : Seen s cur := Or.inr ⟨t, hsnap cur (by simp [Pc.snapshots])⟩
  have hr : s.read (.next cur : Loc m α) = some ⟨nxt, false⟩ := by rw [read_next hnd, hnext]
  have hm : nd.next.mark = false := by rw [hnext]
  have hmem := h.lists.live cur nd hnd hm hseen
  have hfits : Fits (.next cur : Loc m α) (⟨nxt, true⟩ : Link α) := by
    intro j hj
    cases hj
  have hnextOf : nextOf (s.write (.next cur : Loc m α) ⟨nxt, true⟩) = nextOf s := by
    funext q
    by_cases hq : q = .next cur
    · rw [hq, nextOf_write_self hr hfits, nextOf_of hr]
    · exact nextOf_write_of_ne hq
  have hcb : ∀ b, nxt = some b → nextOf s (.next cur : Loc m α) = some (.next b) := by
    intro b hb
    rw [nextOf_of hr, hb]
    rfl
  have htarget : Target idx s (.next cur) ⟨nxt, true⟩ :=
    ⟨hfits, fun b hb => h.lists.ascending _ _ (hcb b hb), fun b hb => h.lists.closed _ b (hcb b hb),
      fun b hb => h.lists.homes _ _ (hcb b hb)⟩
  have hseen' : ∀ b, Seen (s.write (.next cur : Loc m α) ⟨nxt, true⟩) b → Seen s b := by
    intro b hb
    rw [Seen, hnextOf] at hb
    exact hb
  have hlists : MapInv idx (s.write (.next cur) ⟨nxt, true⟩) l := by
    refine h.lists.write hr htarget (fun j => ?_) fun a nd' hnd' hm hs => ?_
    · rw [hnextOf]
      exact h.lists.ends j
    · obtain ⟨nd, hnd, hm, hkey, _⟩ := unmarked_write hr hnd' hm
      rw [← hkey]
      exact h.lists.live a nd hnd hm (hseen' a hs)
  have hfsome : (map K V).after (map K V).init L key = some res := by
    rw [← hkey, ← hval]
    exact h.present hnd hm hseen
  have hrun := h.tracks.running t i _ hc
  have hafter : (map K V).after (map K V).init (L ++ [⟨i, .remove key, .value (some res)⟩]) =
      Function.update ((map K V).after (map K V).init L) key none := by
    rw [Seq.after_append, Seq.after, map_remove_present hfsome]
    rfl
  have hcurw : (s.write (.next cur : Loc m α) ⟨nxt, true⟩).node cur = some { nd with next := ⟨nxt, true⟩ } := by
    simp [State.write, hnd]
  refine ⟨L ++ [⟨i, .remove key, .value (some res)⟩], h.write hr (h.tracks.commit _ hc (by rw [hpc]; rfl))
    (Seq.exact_append.mpr ⟨h.legal, ?_, trivial⟩) (fun k v => ?_) hlists hsnap
    (fun v a _ hva => h.not_private (Or.inr hmem) hva) (fun b hs => Or.inl (hseen' b hs)) (by simp [Pc.tmpNode])
    (fun _ _ _ _ _ P hP => hP.commit hrun) ⟨i, _, hc, hb.frame fun a _ => write_stays _ hr a, ⟨_, hcurw, rfl⟩,
      _, hcurw, hkey⟩
    (by simp [Pc.tmpNode])⟩
  · have hf : (map K V).after (map K V).init L key = some res := hfsome
    rw [map_remove_present hf]
  · rw [hafter]
    have hkept : ∀ a, a ≠ cur → (s.write (.next cur : Loc m α) ⟨nxt, true⟩).node a = s.node a :=
      fun a ha => Function.update_of_ne ha ..
    constructor
    · intro he
      have hk : k ≠ key := by
        intro hk
        rw [hk, Function.update_self] at he
        cases he
      rw [Function.update_of_ne hk] at he
      obtain ⟨a, nda, hal, hnda, hma, hkeya, hvala⟩ := (h.contents k v).mp he
      have hac : a ≠ cur := by
        intro hac
        rw [hac, hnd] at hnda
        rw [← Option.some.inj hnda, hkey] at hkeya
        exact hk hkeya.symm
      exact ⟨a, nda, hal, (hkept a hac).trans hnda, hma, hkeya, hvala⟩
    · intro hex
      obtain ⟨a, nda, hal, hnda, hma, hkeya, hvala⟩ := hex
      have hac : a ≠ cur := by
        intro hac
        rw [hac, hcurw] at hnda
        rw [← Option.some.inj hnda] at hma
        cases hma
      rw [hkept a hac] at hnda
      have hk : k ≠ key := by
        intro hk
        -- two nodes of one list would have the key
        rw [hk, ← hkey] at hal
        have hrank : (rank s.node (.next a : Loc m α) : WithBot K) = rank s.node (.next cur : Loc m α) := by
          rw [rank_next hnda, rank_next hnd, hkeya, hk, hkey]
        have he := (h.lists.ends _).eq_of_rank h.lists.ascending hal hmem hrank
        cases he
        exact hac rfl
      rw [Function.update_of_ne hk]
      exact (h.contents k v).mpr ⟨a, nda, hal, hnda, hma, hkeya, hvala⟩

/-- `insert` sets the `next` of its own node. -/
theorem Inv.insertStore (h : Inv idx s L l) {key : K} {tmpNode : α} {prev cur : Option α}
    (hpc : s.pc t = .insertStore key tmpNode prev cur) :
    Inv idx ((s.write (.next tmpNode) ⟨cur, false⟩).setPc t (.insertCas key tmpNode prev cur)) L l := by
  obtain ⟨i, o, hc, ⟨val, lk, ho, htmp, hmark⟩, hb, ha⟩ := h.running hpc (by simp)
  have hown : (s.pc t).tmpNode = some tmpNode := by
    rw [hpc]
    rfl
  have hpriv := (h.threads t).owned tmpNode hown
  have hsnap : ∀ b ∈ (Pc.insertCas key tmpNode prev cur : Pc α K V).snapshots, b ∈ (s.pc t).snapshots := by
    rw [hpc]
    exact fun b hb => hb
  have hr : s.read (.next tmpNode : Loc m α) = some ⟨lk.ptr, false⟩ := by
    rw [read_next htmp, ← hmark]
  have hfits : Fits (.next tmpNode : Loc m α) (⟨cur, false⟩ : Link α) := fun _ _ => rfl
  have hcur : ∀ b, cur = some b → Seen s b := by
    intro b hcb
    refine Or.inr ⟨t, hsnap b ?_⟩
    simp [Pc.snapshots, hcb]
  have hseen : ∀ b, Seen (s.write (.next tmpNode : Loc m α) ⟨cur, false⟩) b → Seen s b := by
    intro b hs
    rcases seen_write hr hfits hs with hs | hs
    · exact hs
    · exact hcur b hs
  have hnot : ∀ j, (Loc.next tmpNode : Loc m α) ∉ l j := by
    intro j hj
    obtain ⟨w, _, hw⟩ := (h.lists.ends j).pred hj
    exact hpriv.hidden (Or.inl ⟨w, hw⟩)
  have htarget : Target idx s (.next tmpNode) ⟨cur, false⟩ := by
    refine ⟨hfits, fun b hcb => ?_, fun b hcb => ?_, fun b hcb => ?_⟩
    all_goals obtain ⟨nd, hnd, hlt, hidx⟩ := ha b hcb
    · rw [rank_next htmp, rank_next hnd]
      exact WithBot.coe_lt_coe.mpr hlt
    · exact ⟨nd, hnd⟩
    · rw [home_next htmp, home_next hnd, hidx]
  have hlists : MapInv idx (s.write (.next tmpNode) ⟨cur, false⟩) l := by
    refine h.lists.write hr htarget (fun j => ?_) fun a nd' hnd' hm hs => ?_
    · refine (h.lists.ends j).frame fun u hu => nextOf_write_of_ne ?_
      intro he
      rw [he] at hu
      exact hnot j (hu.resolve_left (by simp))
    · obtain ⟨nd, hnd, hm, hkey, _⟩ := unmarked_write hr hnd' hm
      rw [← hkey]
      exact h.lists.live a nd hnd hm (hseen a hs)
  have htracks : Tracks s.calls L (Function.update (fun v => retOf (s.pc v)) t
      (retOf (.insertCas key tmpNode prev cur))) := by
    refine h.tracks.congr fun u _ _ _ => ?_
    by_cases hu : u = t
    · rw [hu, Function.update_self, hpc]
      rfl
    · rw [Function.update_of_ne hu]
  refine h.write hr htracks h.legal (fun k v => ?_) hlists hsnap (fun v a hv hva he => ?_)
    (fun b hs => Or.inl (hseen b hs)) (fun a hta => ?_) (fun _ _ _ _ _ P hP => hP)
    ⟨i, o, hc, ⟨val, ho, ?_⟩, hb.frame fun a _ => write_stays _ hr a, ha.frame fun a _ => write_stays _ hr a⟩
    (fun a hta hs => ?_)
  · rw [h.contents]
    constructor
    · intro hex
      obtain ⟨a, nd, hal, hnd, hm, hkey, hval⟩ := hex
      obtain ⟨nd', hnd', hm', hkey', hval'⟩ :=
        write_unmarked (.next tmpNode) ⟨cur, false⟩ rfl hnd hm
      exact ⟨a, nd', hal, hnd', hm', hkey'.trans hkey, hval'.trans hval⟩
    · intro hex
      obtain ⟨a, nd', hal, hnd', hm', hkey', hval'⟩ := hex
      obtain ⟨nd, hnd, hm, hkey, hval⟩ := unmarked_write hr hnd' hm'
      exact ⟨a, nd, hal, hnd, hm, hkey.trans hkey', hval.trans hval'⟩
  · cases he
    exact hpriv.others v hv hva
  · cases hta
    exact hown
  · simp [State.write, htmp]
  · cases hta
    exact hpriv.hidden (hseen _ hs)

end Writes

/-! ## Nodes that come and go -/

section Nodes
variable [DecidableEq α] {s : State α K V m n} {t : Fin n} {L : List (Entry (Op K V) (Ret V))}
  {l : Fin m → List (Loc m α)} {a : α}

omit [DecidableEq α] in
/-- What is referred to is allocated. -/
theorem Inv.seen_allocated (h : Inv idx s L l) (ha : Seen s a) : ∃ nd, s.node a = some nd := by
  rcases ha with ⟨p, hp⟩ | ⟨u, hu⟩
  · exact h.lists.closed p a hp
  · exact (h.threads u).allocated a (Or.inr hu)

omit [LinearOrder K] [DecidableEq α] in
theorem ne_of_free (ha : s.node a = none) {b : α} {nd : Node α K V} (hb : s.node b = some nd) : b ≠ a := by
  intro he
  rw [he, ha] at hb
  cases hb

omit [LinearOrder K] in
theorem rank_setNode_of_ne {nd : Option (Node α K V)} {q : Loc m α} (hq : q ≠ .next a) :
    (rank (s.setNode a nd).node q : WithBot K) = rank s.node q := by
  cases q with
  | bucket i => rfl
  | next b =>
    have hb : b ≠ a := by
      intro he
      exact hq (by rw [he])
    simp [rank, State.setNode, Function.update_of_ne hb]

omit [LinearOrder K] in
theorem home_setNode_of_ne {nd : Option (Node α K V)} {q : Loc m α} (hq : q ≠ .next a) :
    home idx (s.setNode a nd).node q = home idx s.node q := by
  cases q with
  | bucket i => rfl
  | next b =>
    have hb : b ≠ a := by
      intro he
      exact hq (by rw [he])
    simp [home, State.setNode, Function.update_of_ne hb]

omit [LinearOrder K] in
theorem nextOf_setNode_of_ne {nd : Option (Node α K V)} {q : Loc m α} (hq : q ≠ .next a) :
    nextOf (s.setNode a nd) q = nextOf s q := by
  cases q with
  | bucket i => rfl
  | next b =>
    have hb : b ≠ a := by
      intro he
      exact hq (by rw [he])
    simp [nextOf, State.read, State.setNode, Function.update_of_ne hb]

/-- A node that nobody refers to and whose `next` is null, or that is not there any more. -/
theorem MapInv.setNode (h : MapInv idx s l) {nd : Option (Node α K V)} (hseen : ¬ Seen s a)
    (hnull : ∀ nda, nd = some nda → nda.next.ptr = none) : MapInv idx (s.setNode a nd) l := by
  have hself : nextOf (s.setNode a nd) (.next a : Loc m α) = none := by
    cases nd with
    | none => simp [nextOf, State.read, State.setNode]
    | some nda => simp [nextOf, State.read, State.setNode, hnull nda rfl]
  -- so neither end of a link is the node
  have hlink : ∀ p b, nextOf (s.setNode a nd) p = some (.next b) →
      p ≠ .next a ∧ b ≠ a ∧ nextOf s p = some (.next b) := by
    intro p b hpb
    have hp : p ≠ .next a := by
      intro he
      rw [he, hself] at hpb
      cases hpb
    rw [nextOf_setNode_of_ne hp] at hpb
    refine ⟨hp, fun he => hseen ?_, hpb⟩
    rw [he] at hpb
    exact Or.inl ⟨p, hpb⟩
  have hlink' : ∀ p q, nextOf (s.setNode a nd) p = some q →
      p ≠ .next a ∧ q ≠ .next a ∧ nextOf s p = some q := by
    intro p q hpq
    obtain ⟨b, _, hqb, _, _⟩ := nextOf_some hpq
    rw [hqb] at hpq
    obtain ⟨hp, hb, hpq⟩ := hlink p b hpq
    rw [hqb]
    exact ⟨hp, by simpa using hb, hpq⟩
  have hmem : ∀ j p, p = .bucket j ∨ p ∈ l j → p ≠ .next a := by
    intro j p hp he
    rcases hp with hp | hp
    · rw [hp] at he
      cases he
    · rw [he] at hp
      obtain ⟨w, _, hw⟩ := (h.ends j).pred hp
      exact hseen (Or.inl ⟨w, hw⟩)
  refine ⟨fun j => ?_, fun p q hpq => ?_, fun p b hpb => ?_, fun p q hpq => ?_, fun b ndb hb hm hs => ?_⟩
  · exact (h.ends j).frame fun u hu => nextOf_setNode_of_ne (hmem j u hu)
  · obtain ⟨hp, hq, hpq⟩ := hlink' p q hpq
    exact (rank_setNode_of_ne hp).trans_lt ((h.ascending p q hpq).trans_eq (rank_setNode_of_ne hq).symm)
  · obtain ⟨_, hb, hpb⟩ := hlink p b hpb
    obtain ⟨ndb, hndb⟩ := h.closed p b hpb
    exact ⟨ndb, (Function.update_of_ne hb ..).trans hndb⟩
  · obtain ⟨hp, hq, hpq⟩ := hlink' p q hpq
    rw [home_setNode_of_ne hp, home_setNode_of_ne hq]
    exact h.homes p q hpq
  · have hs' : Seen s b := by
      rcases hs with ⟨p, hp⟩ | hs
      · exact Or.inl ⟨p, (hlink p b hp).2.2⟩
      · exact Or.inr hs
    have hba : b ≠ a := by
      intro he
      rw [he] at hs'
      exact hseen hs'
    have hb' : s.node b = some ndb := by simpa [State.setNode, Function.update_of_ne hba] using hb
    exact h.live b ndb hb' hm hs'

/-- The map does not depend on a node that nobody refers to. -/
theorem MapInv.present_setNode (h : MapInv idx s l) {nd : Option (Node α K V)} (hseen : ¬ Seen s a) {key : K}
    {val : V} : Present idx (s.setNode a nd) l key val ↔ Present idx s l key val := by
  have hne : ∀ b, Loc.next b ∈ l (idx key) → (s.setNode a nd).node b = s.node b := by
    intro b hb
    refine Function.update_of_ne ?_ ..
    intro he
    rw [he] at hb
    obtain ⟨w, _, hw⟩ := (h.ends _).pred hb
    exact hseen (Or.inl ⟨w, hw⟩)
  constructor
  · intro hex
    obtain ⟨b, ndb, hb, hndb, hrest⟩ := hex
    exact ⟨b, ndb, hb, (hne b hb).symm.trans hndb, hrest⟩
  · intro hex
    obtain ⟨b, ndb, hb, hndb, hrest⟩ := hex
    exact ⟨b, ndb, hb, (hne b hb).trans hndb, hrest⟩

omit [LinearOrder K] in
/-- Nothing more can be reached. -/
theorem seen_setNode {nd : Option (Node α K V)} (hnull : ∀ nda, nd = some nda → nda.next.ptr = none) {b : α}
    (h : Seen (s.setNode a nd) b) : Seen s b := by
  rcases h with ⟨p, hp⟩ | hb
  · by_cases hpa : p = .next a
    · rw [hpa] at hp
      cases nd with
      | none => simp [nextOf, State.read, State.setNode] at hp
      | some nda => simp [nextOf, State.read, State.setNode, hnull nda rfl] at hp
    · rw [nextOf_setNode_of_ne hpa] at hp
      exact Or.inl ⟨p, hp⟩
  · exact Or.inr hb

/-- `mkNode` of an `insert`: the address was free, so nobody refers to it. -/
theorem Inv.allocate (h : Inv idx s L l) {key : K} {val : V} (hpc : s.pc t = .insertNew key val)
    (ha : s.node a = none) :
    Inv idx ((s.setNode a (some ⟨key, val, ⟨none, false⟩⟩)).setPc t (.find (.insert a) key .start)) L l := by
  obtain ⟨i, o, hc, ho⟩ := h.running hpc (by simp)
  have hnot : ¬ Seen s a := by
    intro hs
    obtain ⟨nd, hnd⟩ := h.seen_allocated hs
    exact ne_of_free ha hnd rfl
  have hnull : ∀ nda : Node α K V, some ⟨key, val, ⟨none, false⟩⟩ = some nda → nda.next.ptr = none := by
    intro nda he
    cases he
    rfl
  have hkept : ∀ b nd, s.node b = some nd →
      (s.setNode a (some ⟨key, val, ⟨none, false⟩⟩)).node b = some nd :=
    fun b nd hb => (Function.update_of_ne (ne_of_free ha hb) ..).trans hb
  have hseen : ∀ b, Seen ((s.setNode a (some ⟨key, val, ⟨none, false⟩⟩)).setPc t
      (.find (.insert a) key .start)) b → Seen s b :=
    fun b hb => seen_setNode hnull (seen_setPc (by simp [Pc.snapshots, Find.snapshots]) hb)
  have hframe : ∀ v, v ≠ t → Frame s ((s.setNode a (some ⟨key, val, ⟨none, false⟩⟩)).setPc t
      (.find (.insert a) key .start)) v := by
    intro v hv
    refine ⟨setPc_of_ne _ _ hv, rfl, fun b _ nd hnd => ⟨nd, hkept b nd hnd, rfl, rfl, fun _ => rfl⟩,
      fun b hb => ?_⟩
    obtain ⟨nd, hnd⟩ := (h.threads v).allocated b (Or.inl hb)
    exact (hkept b nd hnd).trans hnd.symm
  have hfresh : ∀ v, (s.pc v).tmpNode ≠ some a := by
    intro v hv
    obtain ⟨nd, hnd⟩ := (h.threads v).allocated a (Or.inl hv)
    exact ne_of_free ha hnd rfl
  have hself : ThreadInv idx ((s.setNode a (some ⟨key, val, ⟨none, false⟩⟩)).setPc t
      (.find (.insert a) key .start)) L t := by
    refine ⟨fun _ => ?_, ?_, ?_⟩
    · rw [setPc_self]
      exact ⟨i, o, hc, ⟨val, ⟨none, false⟩, ho, Function.update_self .., rfl⟩, trivial⟩
    · rw [setPc_self]
      intro b hb
      cases hb
      refine ⟨fun hs => hnot (hseen a hs), fun u hu => ?_⟩
      rw [setPc_of_ne _ _ hu]
      exact hfresh u
    · rw [setPc_self]
      intro b hb
      rcases hb with hb | hb
      · cases hb
        exact ⟨_, Function.update_self ..⟩
      · simp [Pc.snapshots, Find.snapshots] at hb
  refine ⟨?_, h.legal, fun k v => ?_, (h.lists.setNode hnot hnull).setPc (by simp [Pc.snapshots, Find.snapshots]),
    threads_step (t := t) h.threads hframe (fun _ _ _ _ _ P hP => hP)
      (fun v b hv hb hp => ⟨fun hs => hp.hidden (hseen b hs), ?_⟩) hself⟩
  · rw [retOf_setPc]
    refine h.tracks.congr fun u _ _ _ => ?_
    by_cases hu : u = t
    · rw [hu, Function.update_self, hpc]
      rfl
    · rw [Function.update_of_ne hu]
      rfl
  · rw [h.contents]
    exact (h.lists.present_setNode hnot).symm
  · rw [setPc_self]
    intro he
    cases he
    exact hfresh v hb

omit [LinearOrder K] [DecidableEq α] in
theorem start_snapshots (o : Op K V) : (start o : Pc α K V).snapshots = [] := by
  cases o <;> rfl

omit [LinearOrder K] [DecidableEq α] in
theorem start_tmpNode (o : Op K V) : (start o : Pc α K V).tmpNode = none := by
  cases o <;> rfl

omit [DecidableEq α] in
theorem MapInv.setCalls (h : MapInv idx s l) (c : Calls (Fin n) (Op K V) (Ret V)) :
    MapInv idx { s with calls := c } l :=
  ⟨h.ends, h.ascending, h.closed, h.homes, h.live⟩

omit [DecidableEq α] in
/-- A call begins. -/
theorem Inv.call (h : Inv idx s L l) (o : Op K V) :
    Inv idx { s.setPc t (start o) with calls := s.calls.invoke t o } L l := by
  have hpct : ({ s.setPc t (start o) with calls := s.calls.invoke t o } : State α K V m n).pc t = start o :=
    setPc_self s t _
  have hseen : ∀ b, Seen { s.setPc t (start o) with calls := s.calls.invoke t o } b → Seen s b := by
    intro b hb
    have hb : Seen (s.setPc t (start o)) b := hb
    exact seen_setPc (by simp [start_snapshots]) hb
  have hframe : ∀ v, v ≠ t → Frame s { s.setPc t (start o) with calls := s.calls.invoke t o } v :=
    fun v hv => ⟨setPc_of_ne s _ hv, Function.update_of_ne hv .., fun _ _ => .of_eq rfl, fun _ _ => rfl⟩
  have hself : ThreadInv idx { s.setPc t (start o) with calls := s.calls.invoke t o } L t := by
    refine ⟨fun _ => ⟨s.calls.nextId, o, Function.update_self .., ?_⟩, ?_, ?_⟩
    · rw [hpct]
      cases o with
      | insert key val => rfl
      | _ => exact ⟨rfl, trivial⟩
    · rw [hpct, start_tmpNode]
      intro a ha
      cases ha
    · rw [hpct, start_tmpNode, start_snapshots]
      intro a ha
      simp at ha
  refine ⟨?_, h.legal, h.contents, (h.lists.setPc (by simp [start_snapshots])).setCalls _,
    threads_step (t := t) h.threads hframe (fun v i o' hv hc P hP => ?_)
      (fun v b hv _ hp => ⟨fun hs => hp.hidden (hseen b hs), ?_⟩) hself⟩
  · change Tracks _ L fun v => retOf ((s.setPc t (start o)).pc v)
    have hret : retOf (start o : Pc α K V) = none := by cases o <;> rfl
    rw [retOf_setPc, hret]
    exact h.tracks.invoke t o
  · have hlt := h.tracks.fresh i o' (h.tracks.invoked v i o' hc)
    exact hP.invoke hlt.ne
  · rw [hpct, start_tmpNode]
    simp

omit [DecidableEq α] in
/-- A call that has taken effect returns. -/
theorem Inv.respond (h : Inv idx s L l) {r : Ret V} (hpc : s.pc t = .ret r) : Inv idx (s.respond t r) L l := by
  obtain ⟨i, o, hc, _⟩ := h.running hpc (by simp)
  have hcalls : s.calls.respond t r =
      ⟨s.calls.hist ++ [.res i r], s.calls.nextId, Function.update s.calls.call t none⟩ := by
    simp only [Calls.respond, hc]
  have hpct : (s.respond t r).pc t = .idle := setPc_self s t _
  have hseen : ∀ b, Seen (s.respond t r) b → Seen s b := by
    intro b hb
    have hb : Seen (s.setPc t .idle) b := hb
    exact seen_setPc (by simp [Pc.snapshots]) hb
  have hframe : ∀ v, v ≠ t → Frame s (s.respond t r) v := by
    intro v hv
    refine ⟨setPc_of_ne s _ hv, ?_, fun _ _ => .of_eq rfl, fun _ _ => rfl⟩
    change (s.calls.respond t r).call v = _
    rw [hcalls]
    exact Function.update_of_ne hv ..
  have hself : ThreadInv idx (s.respond t r) L t := by
    refine ⟨fun hi => absurd hpct hi, ?_, ?_⟩
    · rw [hpct]
      intro a ha
      cases ha
    · rw [hpct]
      intro a ha
      simp [Pc.tmpNode, Pc.snapshots] at ha
  refine ⟨?_, h.legal, h.contents, (h.lists.setPc (by simp [Pc.snapshots])).setCalls _,
    threads_step (t := t) h.threads hframe (fun v j o' hv hj P hP => ?_)
      (fun v b hv _ hp => ⟨fun hs => hp.hidden (hseen b hs), ?_⟩) hself⟩
  · refine (h.tracks.respond hc (by rw [hpc]; rfl)).congr fun u j o' hu => ?_
    have hut : u ≠ t := by
      intro he
      rw [hcalls, he] at hu
      simp at hu
    change retOf ((s.setPc t .idle).pc u) = _
    rw [setPc_of_ne s _ hut]
  · change Saw (map K V) (s.calls.respond t r).hist L j P
    rw [hcalls]
    exact hP.respond
  · rw [hpct]
    simp [Pc.tmpNode]

omit [LinearOrder K] in
theorem strong_eq_zero [Fintype α] (h : s.strong a = 0) :
    (∀ p, nextOf s p ≠ some (.next a)) ∧ ∀ t, (s.pc t).tmpNode ≠ some a := by
  simp only [State.strong, Nat.add_eq_zero_iff, Finset.sum_eq_zero_iff, Finset.mem_univ, true_implies,
    ite_eq_right_iff, Nat.one_ne_zero, imp_false] at h
  obtain ⟨⟨hb, hn⟩, hpc⟩ := h
  refine ⟨fun p hp => ?_, hpc⟩
  obtain ⟨c, lk, hca, hlk, hptr⟩ := nextOf_some hp
  cases hca
  cases p with
  | bucket i =>
    cases hlk
    exact hb i hptr
  | next b => exact hn b (by rw [hlk]; exact hptr)

/-- A node that nobody refers to is destroyed. -/
theorem Inv.reclaim [Fintype α] (h : Inv idx s L l) (ha : s.strong a = 0)
    (hsnap : ∀ t, a ∉ (s.pc t).snapshots) : Inv idx (s.setNode a none) L l := by
  obtain ⟨hlinks, hnews⟩ := strong_eq_zero ha
  have hnot : ¬ Seen s a := by
    intro hs
    rcases hs with ⟨p, hp⟩ | ⟨t, ht⟩
    · exact hlinks p hp
    · exact hsnap t ht
  have hnull : ∀ nda : Node α K V, none = some nda → nda.next.ptr = none := by
    intro nda he
    cases he
  have hkept : ∀ b, b ≠ a → (s.setNode a none).node b = s.node b := fun b hb => Function.update_of_ne hb ..
  refine ⟨h.tracks, h.legal, fun k v => ?_, h.lists.setNode hnot hnull, fun v => ?_⟩
  · rw [h.contents]
    exact (h.lists.present_setNode hnot).symm
  · have hframe : Frame s (s.setNode a none) v := by
      refine ⟨rfl, rfl, fun b hb => .of_eq (hkept b ?_), fun b hb => hkept b ?_⟩
      · intro he
        rw [he] at hb
        exact hsnap v hb
      · intro he
        rw [he] at hb
        exact hnews v hb
    exact (h.threads v).frame hframe (fun _ _ _ P hP => hP) fun b _ hp =>
      ⟨fun hs => hp.hidden (seen_setNode hnull hs), hp.others⟩

end Nodes

end Cdrc.SortedUnorderedMap
