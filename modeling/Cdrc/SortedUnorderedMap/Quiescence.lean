import Cdrc.SortedUnorderedMap.Linearizability

/-! # `size` and `keySum` of `SortedUnorderedMapRCSS`

"debugging purposes, only works in quiescent state". What they need is that no `remove` is past its mark: each
node with a mark that is still in a list has its `remove` running (`Cleared`), which unlinks it before it
returns, or looks for it once more and finds it gone.

The `remove` that looks once more starts after the mark was set. It could only miss the node at a node that
had no mark when its `next` was read (`Blind`), and that is never the node itself. -/
namespace Cdrc.SortedUnorderedMap
open Cdrc.Lib.Runs Cdrc.Lib.Objects Cdrc.Lib.History Cdrc.Lib.Paths

variable {α K V : Type} {m n : Nat}

/-! ## The sums -/

section Sums

/-- `sizeHelper` and `keySumHelper`, in `uint64_t`; none if the assertion fails. -/
def State.sumHelper (s : State α K V m n) (weight : K → Nat) : Nat → Link α → Option Nat
  | 0, _ => none
  | fuel + 1, node =>
    if node.mark = true then none
    else match node.ptr with
      | none => some 0
      | some a => (s.node a).bind fun nd =>
        (s.sumHelper weight fuel nd.next).map fun sum => (weight nd.key + sum) % 2 ^ 64

/-- The loop over the buckets. -/
def State.sumBuckets (s : State α K V m n) (weight : K → Nat) (fuel : Nat) : Option Nat :=
  (List.finRange m).foldlM
    (fun sum i => (s.sumHelper weight fuel ⟨s.bucket i, false⟩).map fun x => (sum + x) % 2 ^ 64) 0

def State.size (s : State α K V m n) (fuel : Nat) : Option Nat := s.sumBuckets (fun _ => 1) fuel

end Sums

/-! ## Who takes out a marked node -/

section Responsible
variable [LinearOrder K] (idx : K → Fin m) (node : α → Option (Node α K V)) (key : K) (a : α)

/-- A `findNode` that may stop before the node: it saw `cur` without a mark, and `cur` is the node or was
the last of the list and comes before the key. -/
def Blind : Find α → Prop
  | .validate _ cur nxt false =>
    cur = a ∨ (nxt = none ∧ ∃ k, (node cur).map Node.key = some k ∧ k < key ∧ idx k = idx key)
  | _ => False

/-- The call is the `remove` of the node, or one that will find it. -/
def Responsible : Pc α K V → Prop
  | .removeUnlink _ _ cur _ _ => cur = a
  | .find goal k st => (∃ res, goal = .removed res) ∧ k = key ∧ ¬ Blind idx node key a st
  | _ => False

/-- Each node with a mark that is still in a list has a call that takes it out. -/
def Cleared (s : State α K V m n) : Prop :=
  ∀ i l a nd, Ends (nextOf s) (.bucket i) l → Loc.next a ∈ l → s.node a = some nd → nd.next.mark = true →
    ∃ t, Responsible idx s.node nd.key a (s.pc t)

/-- The `remove` has set its mark and not returned. -/
def Pc.removing : Pc α K V → Bool
  | .removeUnlink _ _ _ _ _ => true
  | .find (.removed _) _ _ => true
  | _ => false

end Responsible

section Steps
variable [LinearOrder K] {idx : K → Fin m} {s s' : State α K V m n} {t : Fin n}
  {L : List (Entry (Op K V) (Ret V))} {l l' : Fin m → List (Loc m α)} {a : α} {key : K}
  {node node' : α → Option (Node α K V)} {pc : Pc α K V}

theorem Responsible.removing (h : Responsible idx node key a pc) : pc.removing = true := by
  cases pc with
  | removeUnlink k prev cur nxt res => rfl
  | find goal k st =>
    obtain ⟨⟨res, rfl⟩, _⟩ := h
    rfl
  | _ => exact h.elim

/-- It depends on the keys of the nodes of the call's snapshots. -/
theorem Responsible.frame (h : Responsible idx node key a pc)
    (hk : ∀ b ∈ pc.snapshots, (node' b).map Node.key = (node b).map Node.key) :
    Responsible idx node' key a pc := by
  cases pc with
  | removeUnlink k prev cur nxt res => exact h
  | find goal k st =>
    obtain ⟨hgoal, hkey, hblind⟩ := h
    refine ⟨hgoal, hkey, fun hb => hblind ?_⟩
    cases st with
    | validate prev cur nxt cmark =>
      cases cmark with
      | true => exact hb
      | false =>
        rcases hb with hb | ⟨hnull, k', hk', hlt⟩
        · exact Or.inl hb
        · rw [hk cur (by simp [Pc.snapshots, Find.snapshots])] at hk'
          exact Or.inr ⟨hnull, k', hk', hlt⟩
    | _ => exact hb
  | _ => exact h.elim

/-- A bucket has one list. -/
theorem Cleared.of_lists (hl : ∀ i, Ends (nextOf s) (.bucket i) (l i))
    (h : ∀ i a nd, Loc.next a ∈ l i → s.node a = some nd → nd.next.mark = true →
      ∃ t, Responsible idx s.node nd.key a (s.pc t)) : Cleared idx s := by
  intro i l₁ a nd hl₁ ha hnd hm
  rw [hl₁.unique (hl i)] at ha
  exact h i a nd ha hnd hm

/-- A step that changes nothing but the point that `t` has reached. -/
theorem Cleared.setPc (hC : Cleared idx s) (hl : ∀ i, Ends (nextOf s) (.bucket i) (l i))
    (h : ∀ i a nd, Loc.next a ∈ l i → s.node a = some nd → nd.next.mark = true →
      Responsible idx s.node nd.key a (s.pc t) → Responsible idx s.node nd.key a pc) :
    Cleared idx (s.setPc t pc) := by
  refine .of_lists (s := s.setPc t pc) hl fun i a nd ha hnd hm => ?_
  obtain ⟨u, hu⟩ := hC i (l i) a nd (hl i) ha hnd hm
  by_cases hut : u = t
  · rw [hut] at hu
    refine ⟨t, ?_⟩
    rw [setPc_self]
    exact h i a nd ha hnd hm hu
  · refine ⟨u, ?_⟩
    rw [setPc_of_ne s pc hut]
    exact hu

/-- A step of a call that is not responsible for any node. -/
theorem Cleared.setPc_free (hC : Cleared idx s) (hl : ∀ i, Ends (nextOf s) (.bucket i) (l i))
    (hfree : (s.pc t).removing = false) : Cleared idx (s.setPc t pc) := by
  refine hC.setPc hl fun i a nd _ _ _ hr => ?_
  rw [hr.removing] at hfree
  cases hfree

variable [DecidableEq α] {p : Loc m α} {lk : Link α} {old : Option α}

omit [LinearOrder K] in
theorem write_key (s : State α K V m n) (p : Loc m α) (lk : Link α) (b : α) :
    ((s.write p lk).node b).map Node.key = (s.node b).map Node.key := by
  have he := congrArg (Option.map Prod.fst) (write_entry s p lk b)
  simp only [Option.map_map] at he
  exact he

/-- A link without a mark is written, and no marked node comes into a list. -/
theorem Cleared.write (hC : Cleared idx s) (hl : ∀ i, Ends (nextOf s) (.bucket i) (l i)) (hlk : lk.mark = false)
    (hl' : ∀ i, Ends (nextOf (s.write p lk)) (.bucket i) (l' i))
    (hsub : ∀ i a nd, Loc.next a ∈ l' i → s.node a = some nd → nd.next.mark = true → Loc.next a ∈ l i) :
    Cleared idx (s.write p lk) := by
  refine .of_lists hl' fun i a nd' ha hnd' hm => ?_
  rcases write_cases hnd' with ⟨_, nd, _, hnd''⟩ | ⟨_, hnd⟩
  · rw [hnd'', hlk] at hm
    cases hm
  · obtain ⟨u, hu⟩ := hC i (l i) a nd' (hl i) (hsub i a nd' ha hnd hm) hnd hm
    exact ⟨u, hu.frame fun b _ => write_key s p lk b⟩

/-! ## The steps -/

omit [DecidableEq α] in
/-- A step of a `findNode` that only goes on in it. -/
theorem Cleared.goes (hC : Cleared idx s) (hl : ∀ i, Ends (nextOf s) (.bucket i) (l i)) {goal : Goal α V}
    {st st' : Find α} (hpc : s.pc t = .find goal key st)
    (hb : ∀ i a nd, Loc.next a ∈ l i → s.node a = some nd → nd.next.mark = true → nd.key = key →
      ¬ Blind idx s.node key a st') :
    Cleared idx (s.setPc t (.find goal key st')) := by
  refine hC.setPc hl fun i a nd ha hnd hm hr => ?_
  rw [hpc] at hr
  obtain ⟨hgoal, hkey, _⟩ := hr
  refine ⟨hgoal, hkey, ?_⟩
  rw [← hkey]
  exact hb i a nd ha hnd hm hkey.symm

omit [DecidableEq α] in
/-- A step with which a `findNode` ends: it is not responsible for a node that is in a list. -/
theorem Cleared.ends (hC : Cleared idx s) (hl : ∀ i, Ends (nextOf s) (.bucket i) (l i)) {goal : Goal α V}
    {st : Find α} (hpc : s.pc t = .find goal key st)
    (hgone : ∀ i a nd, Loc.next a ∈ l i → s.node a = some nd → nd.key = key → ¬ Blind idx s.node key a st → False) :
    Cleared idx (s.setPc t pc) := by
  refine hC.setPc hl fun i a nd ha hnd _ hr => ?_
  rw [hpc] at hr
  obtain ⟨_, hkey, hb⟩ := hr
  rw [← hkey] at hb
  exact (hgone i a nd ha hnd hkey.symm hb).elim

omit [DecidableEq α] in
/-- The loop begins at `cur`. -/
theorem Cleared.loop (hC : Cleared idx s) (hl : ∀ i, Ends (nextOf s) (.bucket i) (l i)) {goal : Goal α V}
    {st : Find α} (hpc : s.pc t = .find goal key st) {prev cur : Option α}
    (hgone : cur = none → ∀ i a nd, Loc.next a ∈ l i → s.node a = some nd → nd.key = key →
      ¬ Blind idx s.node key a st → False) :
    Cleared idx (s.setPc t (loop goal key prev cur)) := by
  cases cur with
  | none => exact hC.ends hl hpc (hgone rfl)
  | some c => exact hC.goes hl hpc fun _ _ _ _ _ _ _ hb => hb

omit [DecidableEq α] in
/-- A node of a list with the key is in the bucket of the key. -/
theorem MapInv.mem_idx (h : MapInv idx s l) {i : Fin m} {nd : Node α K V} (ha : Loc.next a ∈ l i)
    (hnd : s.node a = some nd) : i = idx nd.key := by
  have hhome := h.home_mem (Or.inr ha)
  rw [home_next hnd] at hhome
  exact (Option.some.inj hhome).symm

omit [LinearOrder K] [DecidableEq α] in
theorem mem_of_relink {A B : List (Loc m α)} {i j : Fin m} {cur : α} (hl : l i = A ++ .next cur :: B)
    (ha : Loc.next a ∈ Function.update l i (A ++ B) j) : Loc.next a ∈ l j := by
  by_cases hj : j = i
  · rw [hj, Function.update_self] at ha
    rw [hj, hl]
    simp only [List.mem_append, List.mem_cons] at ha ⊢
    exact ha.imp_right Or.inr
  · rwa [Function.update_of_ne hj] at ha

/-- A step of `findNode`. -/
theorem Cleared.findStep (hC : Cleared idx s) (h : Inv idx s L l) {goal : Goal α V} {st : Find α}
    (hpc : s.pc t = .find goal key st) (hs : SortedUnorderedMap.findStep idx s t goal key st = some s') :
    Cleared idx s' := by
  obtain ⟨i, o, hc, _, hk⟩ := h.running hpc (by simp)
  have hl := h.lists.ends
  have hprev : ∀ prev : Option α, (∀ a, prev = some a → a ∈ st.snapshots) → ∀ a, prev = some a → Seen s a := by
    intro prev hm a ha
    refine (h.held (t := t) ?_).2
    rw [hpc]
    exact hm a ha
  cases st with
  | start =>
    cases hs
    refine hC.loop hl hpc fun hnull i a nd ha hnd hkey _ => ?_
    have hi := h.lists.mem_idx ha hnd
    rw [hkey] at hi
    rw [hi] at ha
    refine h.lists.gap (Or.inl rfl) (WithBot.bot_lt_coe key) (fun b _ hb _ => ?_) ha hnd hkey
    have hr : s.read (.bucket (idx key)) = some ⟨s.bucket (idx key), false⟩ := rfl
    rw [nextOf_of hr, hnull] at hb
    cases hb
  | next prev cur =>
    obtain ⟨nd, _, rfl⟩ := Option.map_eq_some_iff.mp hs
    exact hC.goes hl hpc fun _ _ _ _ _ _ _ hb => hb
  | again prev cur nxt cmark =>
    obtain ⟨ndc, hndc, rfl⟩ := Option.map_eq_some_iff.mp hs
    split
    · next hsame =>
      refine hC.goes hl hpc fun i a nd ha hnd hm hkey hb => ?_
      cases cmark with
      | true => exact hb
      | false =>
        have hmc : ndc.next.mark = false := by rw [hsame]
        rcases hb with hb | ⟨hnull, k, hk', hlt, hidx⟩
        · rw [hb, hnd] at hndc
          rw [Option.some.inj hndc, hmc] at hm
          cases hm
        · -- the node without a mark is the last of its list
          rw [hndc] at hk'
          have hk' : ndc.key = k := Option.some.inj hk'
          have hseen : Seen s cur := Or.inr ⟨t, by simp [hpc, Pc.snapshots, Find.snapshots]⟩
          have hcur := h.lists.live cur ndc hndc hmc hseen
          have hi := h.lists.mem_idx ha hnd
          rw [hkey, ← hidx, ← hk'] at hi
          rw [hi] at ha
          refine h.lists.gap (Or.inr hcur) ?_ (fun b _ hb _ => ?_) ha hnd hkey
          · rw [rank_next hndc, hk']
            exact WithBot.coe_lt_coe.mpr hlt
          · rw [nextOf_of (read_next hndc), hsame, hnull] at hb
            cases hb
    · exact hC.goes hl hpc fun _ _ _ _ _ _ _ hb => hb
  | validate prev cur nxt cmark =>
    obtain ⟨lk, hr, hs⟩ := Option.bind_eq_some_iff.mp hs
    obtain ⟨ndc, hndc, rfl⟩ := Option.map_eq_some_iff.mp hs
    have hb : Before idx s.node key prev := by
      cases cmark <;> exact hk.1
    split
    · exact hC.goes hl hpc fun _ _ _ _ _ _ _ hb => hb
    · next hcon =>
      rw [not_not.mp hcon] at hr
      have hp := h.addr_mem hb (hprev prev (by simp +contextual [Find.snapshots])) hr
      have hnext : nextOf s (addr idx prev key) = some (.next cur) := nextOf_of hr
      have hcur := (hl (idx key)).next_mem hp hnext
      have hidx := h.lists.mem_idx hcur hndc
      split
      · exact hC.goes hl hpc fun _ _ _ _ _ _ _ hb => hb
      · next hcm =>
        obtain rfl : cmark = false := by simpa using hcm
        split
        · next hlt =>
          refine hC.loop hl hpc fun hnull i a nd _ _ _ hblind => hblind ?_
          exact Or.inr ⟨hnull, ndc.key, by rw [hndc]; rfl, hlt, hidx.symm⟩
        · next hnlt =>
          -- the key of a node of the list is that of `cur`, or not between the two
          have hgone : ∀ i a nd, Loc.next a ∈ l i → s.node a = some nd → nd.key = key →
              ¬ Blind idx s.node key a (.validate prev cur nxt false) → False := by
            intro i a nd ha hnd hkey hblind
            have hi := h.lists.mem_idx ha hnd
            rw [hkey] at hi
            rw [hi] at ha
            by_cases hck : ndc.key = key
            · have hrank : (rank s.node (.next cur : Loc m α) : WithBot K) = rank s.node (.next a : Loc m α) := by
                rw [rank_next hndc, rank_next hnd, hck, hkey]
              have he := (hl (idx key)).eq_of_rank h.lists.ascending hcur ha hrank
              cases he
              exact hblind (Or.inl rfl)
            · refine h.lists.gap hp hb.rank_lt (fun b ndb hpb hndb => ?_) ha hnd hkey
              rw [hnext] at hpb
              cases hpb
              rw [← Option.some.inj (hndc.symm.trans hndb)]
              exact lt_of_le_of_ne (not_lt.mp hnlt) (Ne.symm hck)
          split
          · exact hC.ends hl hpc hgone
          · exact hC.ends hl hpc hgone
  | unlink prev cur nxt =>
    obtain ⟨lk, hr, rfl⟩ := Option.map_eq_some_iff.mp hs
    obtain ⟨hb, hf⟩ := hk
    split
    · next hcas =>
      rw [hcas] at hr
      have hp := h.addr_mem hb (hprev prev (by simp +contextual [Find.snapshots])) hr
      obtain ⟨A, B, hlAB, hpAB, hinv⟩ := h.relink hp hr hf
      have hw : Cleared idx (s.write (addr idx prev key) ⟨nxt, false⟩) :=
        hC.write hl rfl hinv.lists.ends fun _ _ _ ha _ _ => mem_of_relink hlAB ha
      refine hw.loop (s := s.write (addr idx prev key) ⟨nxt, false⟩) hinv.lists.ends hpc
        fun hnull i a nd ha hnd hkey _ => ?_
      have hi := hinv.lists.mem_idx ha hnd
      rw [hkey] at hi
      rw [hi] at ha
      have hb' : Before idx (s.write (addr idx prev key) ⟨nxt, false⟩).node key prev :=
        hb.frame fun a _ => write_stays _ hr a
      refine hinv.lists.gap ?_ hb'.rank_lt (fun b _ hpb _ => ?_) ha hnd hkey
      · rw [Function.update_self]
        exact hpAB
      · rw [nextOf_write_self hr (fun _ _ => rfl), hnull] at hpb
        cases hpb
    · exact hC.goes hl hpc fun _ _ _ _ _ _ _ hb => hb

/-- `remove` has unlinked its node. -/
theorem Cleared.removeUnlink (hC : Cleared idx s) (h : Inv idx s L l) {prev nxt : Option α} {cur : α} {res : V}
    {r : Ret V} (hpc : s.pc t = .removeUnlink key prev cur nxt res)
    (hr : s.read (addr idx prev key) = some ⟨some cur, false⟩) :
    Cleared idx ((s.write (addr idx prev key) ⟨nxt, false⟩).setPc t (.ret r)) := by
  obtain ⟨_, _, _, hb, hf, ndc, hndc, hkey⟩ := h.running hpc (by simp)
  have hprev : ∀ a, prev = some a → Seen s a := by
    intro a ha
    exact Or.inr ⟨t, by simp [hpc, ha, Pc.snapshots]⟩
  have hp := h.addr_mem hb hprev hr
  have hcur := (h.lists.ends (idx key)).next_mem hp (nextOf_of hr)
  obtain ⟨A, B, hl, _, hinv⟩ := h.relink hp hr hf
  have hw : Cleared idx (s.write (addr idx prev key) ⟨nxt, false⟩) :=
    hC.write h.lists.ends rfl hinv.lists.ends fun j a nd ha _ _ => mem_of_relink hl ha
  refine hw.setPc (s := s.write (addr idx prev key) ⟨nxt, false⟩) hinv.lists.ends fun j a nd ha hnd _ hres => ?_
  change Responsible idx _ nd.key a (s.pc t) at hres
  rw [hpc] at hres
  obtain rfl : cur = a := hres
  -- the node comes in its list once
  have hj : j = idx key := by
    have hja := h.lists.mem_idx (mem_of_relink hl ha) hndc
    rwa [hkey] at hja
  rw [hj, Function.update_self] at ha
  have hnodup := (h.lists.ends (idx key)).ascending h.lists.ascending
  rw [hl] at hnodup
  obtain ⟨_, hB, hAB⟩ := List.pairwise_append.mp hnodup
  rcases List.mem_append.mp ha with ha | ha
  · exact absurd (hAB _ ha _ List.mem_cons_self) (lt_irrefl _)
  · exact absurd ((List.pairwise_cons.mp hB).1 _ ha) (lt_irrefl _)

/-- `remove` has set the mark of its node. -/
theorem Cleared.removeMark (hC : Cleared idx s) (h : Inv idx s L l) {prev nxt : Option α} {cur : α} {res : V}
    {nd : Node α K V} (hpc : s.pc t = .removeMark key prev cur nxt res) (hnd : s.node cur = some nd)
    (hnext : nd.next = ⟨nxt, false⟩) :
    Cleared idx ((s.write (.next cur) ⟨nxt, true⟩).setPc t (.removeUnlink key prev cur nxt res)) := by
  obtain ⟨L', hinv⟩ := h.removeMark hpc hnd hnext
  refine .of_lists hinv.lists.ends fun i a nda ha hnda hm => ?_
  by_cases hac : a = cur
  · refine ⟨t, ?_⟩
    rw [setPc_self]
    exact hac.symm
  · have hnda : s.node a = some nda := (Function.update_of_ne hac ..).symm.trans hnda
    obtain ⟨u, hu⟩ := hC i (l i) a nda (h.lists.ends i) ha hnda hm
    have hut : u ≠ t := by
      intro he
      rw [he, hpc] at hu
      exact hu.elim
    refine ⟨u, ?_⟩
    rw [setPc_of_ne _ _ hut]
    exact hu.frame fun b _ => write_key s (.next cur) ⟨nxt, true⟩ b

/-- A step of a call. -/
theorem Cleared.step (hC : Cleared idx s) (h : Inv idx s L l) (hs : SortedUnorderedMap.step idx s t a = some s') :
    Cleared idx s' := by
  have hl := h.lists.ends
  cases hpc : s.pc t with
  | idle =>
    simp only [SortedUnorderedMap.step, hpc] at hs
    cases hs
  | insertNew key val =>
    simp only [SortedUnorderedMap.step, hpc] at hs
    split at hs
    · next hfree =>
      cases hs
      have hinv := h.allocate hpc hfree
      refine .of_lists hinv.lists.ends fun i b nd hb hnd hm => ?_
      rcases eq_or_ne b a with hba | hba
      · have hnew : nd = ⟨key, val, ⟨none, false⟩⟩ := by
          rw [hba] at hnd
          exact Option.some.inj (hnd.symm.trans (Function.update_self ..))
        rw [hnew] at hm
        cases hm
      · have hnd : s.node b = some nd := (Function.update_of_ne hba ..).symm.trans hnd
        obtain ⟨u, hu⟩ := hC i (l i) b nd (hl i) hb hnd hm
        have hut : u ≠ t := by
          intro he
          rw [he, hpc] at hu
          exact hu.elim
        refine ⟨u, ?_⟩
        rw [setPc_of_ne _ _ hut]
        refine hu.frame fun c hc => ?_
        obtain ⟨ndc, hndc⟩ := (h.threads u).allocated c (Or.inr hc)
        exact congrArg _ (Function.update_of_ne (ne_of_free hfree hndc) ..)
    · cases hs
  | find goal key st =>
    simp only [SortedUnorderedMap.step, hpc] at hs
    exact hC.findStep h hpc hs
  | insertStore key tmpNode prev cur =>
    simp only [SortedUnorderedMap.step, hpc] at hs
    obtain ⟨_, _, rfl⟩ := Option.map_eq_some_iff.mp hs
    have hinv := h.insertStore hpc
    have hw : Cleared idx (s.write (.next tmpNode) ⟨cur, false⟩) :=
      hC.write hl rfl hinv.lists.ends fun _ _ _ ha _ _ => ha
    exact hw.setPc_free (s := s.write (.next tmpNode) ⟨cur, false⟩) hinv.lists.ends (congrArg Pc.removing hpc)
  | insertCas key tmpNode prev cur =>
    simp only [SortedUnorderedMap.step, hpc] at hs
    obtain ⟨lk, hr, rfl⟩ := Option.map_eq_some_iff.mp hs
    split
    · next hcas =>
      rw [hcas] at hr
      obtain ⟨_, _, _, ⟨val, _, htmp⟩, _⟩ := h.running hpc (by simp)
      obtain ⟨L', l', hinv, hmem⟩ := h.insertCas hpc hr
      have hw : Cleared idx (s.write (addr idx prev key) ⟨some tmpNode, false⟩) := by
        refine hC.write hl rfl hinv.lists.ends fun i b nd hb hnd hm => (hmem b i hb).resolve_right ?_
        intro he
        rw [he, htmp] at hnd
        rw [← Option.some.inj hnd] at hm
        cases hm
      exact hw.setPc_free (s := s.write (addr idx prev key) ⟨some tmpNode, false⟩) hinv.lists.ends
        (congrArg Pc.removing hpc)
    · exact hC.setPc_free hl (congrArg Pc.removing hpc)
  | removeMark key prev cur nxt res =>
    simp only [SortedUnorderedMap.step, hpc] at hs
    obtain ⟨nd, hnd, rfl⟩ := Option.map_eq_some_iff.mp hs
    split
    · next hcas => exact hC.removeMark h hpc hnd hcas
    · exact hC.setPc_free hl (congrArg Pc.removing hpc)
  | removeUnlink key prev cur nxt res =>
    simp only [SortedUnorderedMap.step, hpc] at hs
    obtain ⟨lk, hr, rfl⟩ := Option.map_eq_some_iff.mp hs
    split
    · next hcas =>
      rw [hcas] at hr
      exact hC.removeUnlink h hpc hr
    · -- it looks for the node once more
      obtain ⟨_, _, _, _, _, ndc, hndc, hkey⟩ := h.running hpc (by simp)
      refine hC.setPc hl fun i b nd _ hnd _ hres => ?_
      rw [hpc] at hres
      obtain rfl : cur = b := hres
      rw [hndc] at hnd
      rw [← Option.some.inj hnd]
      exact ⟨⟨res, rfl⟩, hkey.symm, fun hb => hb⟩
  | ret r =>
    simp only [SortedUnorderedMap.step, hpc] at hs
    cases hs
    have hfree : (s.pc t).removing = false := congrArg Pc.removing hpc
    have hC' : Cleared idx (s.setPc t .idle) := hC.setPc_free hl hfree
    exact hC'

theorem Cleared.next [Fintype α] (hC : Cleared idx s) (h : Inv idx s L l) {c : Label α K V n}
    (hs : SortedUnorderedMap.next idx s c = some s') : Cleared idx s' := by
  cases c with
  | call t o =>
    simp only [SortedUnorderedMap.next] at hs
    split at hs
    · next hpc =>
      cases hs
      have hfree : (s.pc t).removing = false := congrArg Pc.removing hpc
      have hC' : Cleared idx (s.setPc t (start o)) := hC.setPc_free h.lists.ends hfree
      exact hC'
    · cases hs
  | step t a => exact hC.step h hs
  | reclaim a =>
    simp only [SortedUnorderedMap.next] at hs
    split at hs
    · next hfree =>
      cases hs
      have hinv := h.reclaim hfree.1 hfree.2
      refine .of_lists hinv.lists.ends fun i b nd hb hnd hm => ?_
      have hba : b ≠ a := by
        intro he
        rw [he] at hnd
        simp [State.setNode] at hnd
      have hnd : s.node b = some nd := (Function.update_of_ne hba ..).symm.trans hnd
      obtain ⟨u, hu⟩ := hC i (l i) b nd (h.lists.ends i) hb hnd hm
      refine ⟨u, hu.frame fun c hc => congrArg _ (Function.update_of_ne ?_ ..)⟩
      intro he
      rw [he] at hc
      exact hfree.2 u hc
    · cases hs

end Steps

/-! ## The sums without marks -/

section Keys
variable [LinearOrder K] {idx : K → Fin m} {s : State α K V m n} {l : Fin m → List (Loc m α)}

def keysOf (node : α → Option (Node α K V)) (B : List (Loc m α)) : List K :=
  B.filterMap fun p => match p with
    | .bucket _ => none
    | .next a => (node a).map Node.key

/-- The helper adds up what is in a list without marks. -/
theorem MapInv.sumHelper (h : MapInv idx s l) (weight : K → Nat) {B : List (Loc m α)} {p : Loc m α} {lk : Link α}
    {fuel : Nat} (hr : s.read p = some lk) (hlk : lk.mark = false) (hB : Ends (nextOf s) p B)
    (hm : ∀ a nd, Loc.next a ∈ B → s.node a = some nd → nd.next.mark = false) (hfuel : B.length < fuel) :
    s.sumHelper weight fuel lk = some (((keysOf s.node B).map weight).sum % 2 ^ 64) := by
  induction B generalizing p lk fuel with
  | nil =>
    have hnull : lk.ptr = none := by
      have hnext : lk.ptr.map (Loc.next : α → Loc m α) = none := (nextOf_of hr).symm.trans hB
      simpa using hnext
    obtain ⟨f, rfl⟩ := Nat.exists_eq_succ_of_ne_zero (Nat.ne_of_gt hfuel)
    simp [State.sumHelper, hlk, hnull, keysOf]
  | cons z B ih =>
    obtain ⟨hz, hB⟩ := hB
    obtain ⟨a, lk', rfl, hlk', hptr⟩ := nextOf_some hz
    obtain rfl : lk = lk' := Option.some.inj (hr.symm.trans hlk')
    obtain ⟨nd, hnd⟩ := h.closed p a hz
    obtain ⟨f, rfl⟩ := Nat.exists_eq_succ_of_ne_zero (Nat.ne_of_gt (Nat.zero_lt_of_lt hfuel))
    have hrest := ih (read_next hnd) (hm a nd List.mem_cons_self hnd) hB
      (fun b ndb hb => hm b ndb (List.mem_cons_of_mem _ hb)) (Nat.lt_of_succ_lt_succ hfuel)
    have hkeys : keysOf s.node (.next a :: B) = nd.key :: keysOf s.node B := by
      simp [keysOf, hnd]
    rw [hkeys, List.map_cons, List.sum_cons]
    simp [State.sumHelper, hlk, hptr, hnd, hrest]

/-- A list is not longer than there are addresses. -/
theorem MapInv.length_le [Fintype α] (h : MapInv idx s l) (i : Fin m) : (l i).length ≤ Fintype.card α := by
  have hrange : l i ∈ Set.range (List.map (Loc.next : α → Loc m α)) := by
    rw [Set.range_list_map]
    intro p hp
    obtain ⟨a, _, rfl, _, _⟩ := h.mem_node hp
    exact ⟨a, rfl⟩
  obtain ⟨as, has⟩ := hrange
  have hnodup : (l i).Nodup := ((h.ends i).ascending h.ascending).imp fun {p q} hlt he => by
    rw [he] at hlt
    exact lt_irrefl _ hlt
  rw [← has] at hnodup ⊢
  rw [List.length_map]
  exact (List.Nodup.of_map _ hnodup).length_le_card

end Keys

/-! ## Every run -/

section Runs
variable [LinearOrder K] [DecidableEq α] [Fintype α] {s : State α K V m n} [NeZero m] {hashFn : K → Nat}

end Runs

end Cdrc.SortedUnorderedMap
