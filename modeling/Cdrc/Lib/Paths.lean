import Mathlib.Logic.Relation
import Mathlib.Order.Basic

/-! # Paths through linked nodes

A memory is seen as a partial function `next` on nodes. Where a rank grows along `next`, a
path visits no node twice, two neighbours of a path leave a gap of ranks, and a path is
changed at one node by joining what comes before the node and what comes after the new
target (`Path.relink`). `Ends` is a path to where there is no `next` any more. -/
namespace Cdrc.Lib.Paths

variable {α β : Type} {next next' : α → Option α} {x y z w : α} {l A B : List α}

/-- The nodes after `x` along `next`, up to `y`, are `l`. -/
def Path (next : α → Option α) : α → List α → α → Prop
  | x, [], y => x = y
  | x, z :: l, y => next x = some z ∧ Path next z l y

theorem Path.append (hA : Path next x A z) (hB : Path next z B y) : Path next x (A ++ B) y := by
  induction A generalizing x with
  | nil =>
    obtain rfl : x = z := hA
    exact hB
  | cons w A ih => exact ⟨hA.1, ih hA.2⟩

/-- A path can be cut at each of its nodes. -/
theorem Path.split (h : Path next x l y) (hz : z = x ∨ z ∈ l) :
    ∃ A B, l = A ++ B ∧ Path next x A z ∧ Path next z B y := by
  induction l generalizing x with
  | nil =>
    rcases hz with rfl | hz
    · exact ⟨[], [], rfl, rfl, h⟩
    · cases hz
  | cons w l ih =>
    rcases hz with rfl | hz
    · exact ⟨[], w :: l, rfl, rfl, h⟩
    · obtain ⟨A, B, rfl, hA, hB⟩ := ih h.2 (List.mem_cons.mp hz)
      exact ⟨w :: A, B, rfl, ⟨h.1, hA⟩, hB⟩

/-- A path to a node without a `next` can be cut between a node and its `next`. -/
theorem Path.cut (h : Path next x l y) (hend : next y = none) (hz : z = x ∨ z ∈ l) (hw : next z = some w) :
    ∃ A B, l = A ++ w :: B ∧ Path next x A z ∧ Path next w B y := by
  obtain ⟨A, C, rfl, hA, hC⟩ := h.split hz
  cases C with
  | nil =>
    obtain rfl : z = y := hC
    rw [hend] at hw
    cases hw
  | cons d B =>
    obtain ⟨hd, hB⟩ := hC
    obtain rfl : d = w := Option.some.inj (hd.symm.trans hw)
    exact ⟨A, B, rfl, hA, hB⟩

/-- The nodes of the path keep their `next`. -/
theorem Path.mono (h : Path next x l y)
    (hn : ∀ u v, u = x ∨ u ∈ l → next u = some v → next' u = some v) : Path next' x l y := by
  induction l generalizing x with
  | nil => exact h
  | cons w l ih =>
    exact ⟨hn x w (Or.inl rfl) h.1, ih h.2 fun u v hu => hn u v (Or.inr (List.mem_cons.mpr hu))⟩

theorem Path.last_mem (h : Path next x l y) : y = x ∨ y ∈ l := by
  induction l generalizing x with
  | nil => exact Or.inl h.symm
  | cons w l ih =>
    rcases ih h.2 with rfl | hy
    · exact Or.inr List.mem_cons_self
    · exact Or.inr (List.mem_cons_of_mem _ hy)

/-- A path to a node without a `next` ends there once. -/
theorem Path.eq_snoc (h : Path next x l y) (hxy : x ≠ y) (hend : next y = none) :
    ∃ A, l = A ++ [y] := by
  induction l generalizing x with
  | nil => exact absurd h hxy
  | cons w l ih =>
    by_cases hw : w = y
    · subst hw
      cases l with
      | nil => exact ⟨[], rfl⟩
      | cons d l =>
        have hd := h.2.1
        rw [hend] at hd
        cases hd
    · obtain ⟨A, rfl⟩ := ih h.2 hw
      exact ⟨w :: A, rfl⟩

/-- The nodes after the first are the `next` of a node. -/
theorem Path.pred (h : Path next x l y) (hz : z ∈ l) : ∃ w, next w = some z := by
  induction l generalizing x with
  | nil => cases hz
  | cons w l ih =>
    rcases List.mem_cons.mp hz with rfl | hz
    · exact ⟨x, h.1⟩
    · exact ih h.2 hz

/-- A path follows the steps of another walk as long as there are any. -/
theorem Path.follow {P : α → Prop} (h : Path next x l y) (hend : next y = none)
    (hw : Relation.ReflTransGen (fun u v => next u = some v ∧ P u) x z) :
    ∃ M B, l = M ++ B ∧ Path next x M z ∧ Path next z B y ∧ ∀ v, v = x ∨ v ∈ M → v = z ∨ P v := by
  induction hw using Relation.ReflTransGen.head_induction_on generalizing l with
  | refl =>
    refine ⟨[], l, rfl, rfl, h, fun v hv => Or.inl ?_⟩
    rcases hv with hv | hv
    · exact hv
    · cases hv
  | @head u c huc _ ih =>
    cases l with
    | nil =>
      obtain rfl : u = y := h
      rw [hend] at huc
      cases huc.1
    | cons d l =>
      obtain ⟨hud, hl⟩ := h
      obtain rfl : d = c := Option.some.inj (hud.symm.trans huc.1)
      obtain ⟨M, B, rfl, hM, hB, hP⟩ := ih hl
      refine ⟨d :: M, B, rfl, ⟨hud, hM⟩, hB, fun v hv => ?_⟩
      rcases hv with rfl | hv
      · exact Or.inr huc.2
      · exact hP v (List.mem_cons.mp hv)

section Ranks
variable [Preorder β] {rank : α → β}

def Ascending (next : α → Option α) (rank : α → β) : Prop :=
  ∀ x y, next x = some y → rank x < rank y

theorem Path.rank_lt (h : Path next x l y) (ha : Ascending next rank) (hz : z ∈ l) :
    rank x < rank z := by
  induction l generalizing x with
  | nil => cases hz
  | cons w l ih =>
    have hxw := ha x w h.1
    rcases List.mem_cons.mp hz with rfl | hz
    · exact hxw
    · exact hxw.trans (ih h.2 hz)

theorem Path.ne_first (h : Path next x l y) (ha : Ascending next rank) (hz : z ∈ l) : z ≠ x := by
  rintro rfl
  exact lt_irrefl _ (h.rank_lt ha hz)

theorem Path.rank_le (h : Path next x l y) (ha : Ascending next rank) (hz : z = x ∨ z ∈ l) :
    rank z ≤ rank y := by
  obtain ⟨A, B, _, _, hB⟩ := h.split hz
  rcases hB.last_mem with hy | hy
  · exact hy ▸ le_refl _
  · exact (hB.rank_lt ha hy).le

theorem Path.ascending (h : Path next x l y) (ha : Ascending next rank) :
    l.Pairwise fun u v => rank u < rank v := by
  induction l generalizing x with
  | nil => exact List.Pairwise.nil
  | cons w l ih => exact List.Pairwise.cons (fun v hv => h.2.rank_lt ha hv) (ih h.2)

/-- No node of the path has a rank between two neighbours. -/
theorem Path.gap (h : Path next x l y) (ha : Ascending next rank) (hend : next y = none)
    (hw : w = x ∨ w ∈ l) (hz : next w = some z) {v : α} (hv : v = x ∨ v ∈ l) :
    rank v ≤ rank w ∨ rank z ≤ rank v := by
  obtain ⟨A, B, rfl, hA, hB⟩ := h.split hw
  cases B with
  | nil =>
    obtain rfl : w = y := hB
    rw [hend] at hz
    cases hz
  | cons d B =>
    obtain ⟨hwd, hB⟩ := hB
    obtain rfl : d = z := Option.some.inj (hwd.symm.trans hz)
    have hv : (v = x ∨ v ∈ A) ∨ v = d ∨ v ∈ B := by simpa [or_assoc] using hv
    rcases hv with hv | rfl | hv
    · exact Or.inl (hA.rank_le ha hv)
    · exact Or.inr (le_refl _)
    · exact Or.inr (hB.rank_lt ha hv).le

/-- A path does not depend on nodes from its end on. -/
theorem Path.frame_below (h : Path next x l y) (ha : Ascending next rank)
    (hn : ∀ z, rank z < rank y → next' z = next z) : Path next' x l y := by
  induction l generalizing x with
  | nil => exact h
  | cons w l ih =>
    have hlt : rank x < rank y := (ha x w h.1).trans_le (h.2.rank_le ha (Or.inl rfl))
    exact ⟨(hn x hlt).trans h.1, ih h.2⟩

/-- A path does not depend on nodes before its beginning. -/
theorem Path.frame_above (h : Path next x l y) (ha : Ascending next rank)
    (hn : ∀ z, rank x ≤ rank z → next' z = next z) : Path next' x l y := by
  induction l generalizing x with
  | nil => exact h
  | cons w l ih =>
    exact ⟨(hn x (le_refl _)).trans h.1, ih h.2 fun z hz => hn z ((ha x w h.1).le.trans hz)⟩

/-- The `next` of `w` is changed to `z`. -/
theorem Path.relink (hA : Path next x A w) (hB : Path next z B y) (ha : Ascending next rank)
    (hwz : rank w < rank z) (hn : ∀ v, v ≠ w → next' v = next v) (hw : next' w = some z) :
    Path next' x (A ++ z :: B) y := by
  have hA' : Path next' x A w := by
    refine hA.frame_below ha fun v hv => hn v ?_
    rintro rfl
    exact lt_irrefl _ hv
  have hB' : Path next' z B y := by
    refine hB.frame_above ha fun v hv => hn v ?_
    rintro rfl
    exact lt_irrefl _ (hwz.trans_le hv)
  exact hA'.append ⟨hw, hB'⟩

end Ranks

/-! ## Lists that end -/

/-- The nodes after `x` along `next` are `l`. -/
def Ends (next : α → Option α) : α → List α → Prop
  | x, [] => next x = none
  | x, z :: l => next x = some z ∧ Ends next z l

theorem Path.ends (hA : Path next x A z) (hB : Ends next z B) : Ends next x (A ++ B) := by
  induction A generalizing x with
  | nil =>
    obtain rfl : x = z := hA
    exact hB
  | cons w A ih => exact ⟨hA.1, ih hA.2⟩

theorem Ends.split (h : Ends next x l) (hz : z = x ∨ z ∈ l) :
    ∃ A B, l = A ++ B ∧ Path next x A z ∧ Ends next z B := by
  induction l generalizing x with
  | nil =>
    rcases hz with rfl | hz
    · exact ⟨[], [], rfl, rfl, h⟩
    · cases hz
  | cons w l ih =>
    rcases hz with rfl | hz
    · exact ⟨[], w :: l, rfl, rfl, h⟩
    · obtain ⟨A, B, rfl, hA, hB⟩ := ih h.2 (List.mem_cons.mp hz)
      exact ⟨w :: A, B, rfl, ⟨h.1, hA⟩, hB⟩

theorem Ends.unique {l' : List α} (h : Ends next x l) (h' : Ends next x l') : l = l' := by
  induction l generalizing x l' with
  | nil =>
    cases l' with
    | nil => rfl
    | cons z l' => cases h.symm.trans h'.1
  | cons w l ih =>
    cases l' with
    | nil => cases h'.symm.trans h.1
    | cons z l' =>
      obtain rfl : w = z := Option.some.inj (h.1.symm.trans h'.1)
      rw [ih h.2 h'.2]

/-- The nodes keep their `next`. -/
theorem Ends.frame (h : Ends next x l) (hn : ∀ u, u = x ∨ u ∈ l → next' u = next u) : Ends next' x l := by
  induction l generalizing x with
  | nil => exact (hn x (Or.inl rfl)).trans h
  | cons w l ih =>
    exact ⟨(hn x (Or.inl rfl)).trans h.1, ih h.2 fun u hu => hn u (Or.inr (List.mem_cons.mpr hu))⟩

theorem Ends.pred (h : Ends next x l) (hz : z ∈ l) : ∃ w, (w = x ∨ w ∈ l) ∧ next w = some z := by
  induction l generalizing x with
  | nil => cases hz
  | cons w l ih =>
    rcases List.mem_cons.mp hz with rfl | hz
    · exact ⟨x, Or.inl rfl, h.1⟩
    · obtain ⟨v, hv, hvz⟩ := ih h.2 hz
      exact ⟨v, Or.inr (List.mem_cons.mpr hv), hvz⟩

theorem Ends.next_mem (h : Ends next x l) (hz : z = x ∨ z ∈ l) (hw : next z = some w) : w ∈ l := by
  obtain ⟨A, B, rfl, _, hB⟩ := h.split hz
  cases B with
  | nil => cases hw.symm.trans hB
  | cons v B =>
    obtain rfl : v = w := Option.some.inj (hB.1.symm.trans hw)
    simp

/-- What goes over from a node to its `next`. -/
theorem Ends.forall {P : α → Prop} (h : Ends next x l) (hx : P x)
    (hn : ∀ u v, next u = some v → P u → P v) : ∀ z ∈ l, P z := by
  induction l generalizing x with
  | nil => simp
  | cons w l ih =>
    have hw := hn x w h.1 hx
    exact List.forall_mem_cons.mpr ⟨hw, ih h.2 hw⟩

section Ranks
variable [Preorder β] {rank : α → β}

theorem Ends.rank_lt (h : Ends next x l) (ha : Ascending next rank) (hz : z ∈ l) : rank x < rank z := by
  induction l generalizing x with
  | nil => cases hz
  | cons w l ih =>
    have hxw := ha x w h.1
    rcases List.mem_cons.mp hz with rfl | hz
    · exact hxw
    · exact hxw.trans (ih h.2 hz)

theorem Ends.ascending (h : Ends next x l) (ha : Ascending next rank) :
    l.Pairwise fun u v => rank u < rank v := by
  induction l generalizing x with
  | nil => exact List.Pairwise.nil
  | cons w l ih => exact List.Pairwise.cons (fun v hv => h.2.rank_lt ha hv) (ih h.2)

/-- Nothing comes between a node and its `next`, or after a node without one. -/
theorem Ends.gap (h : Ends next x l) (ha : Ascending next rank) (hw : w = x ∨ w ∈ l) {v : α}
    (hv : v = x ∨ v ∈ l) : rank v ≤ rank w ∨ ∃ z, next w = some z ∧ rank z ≤ rank v := by
  obtain ⟨A, B, rfl, hA, hB⟩ := h.split hw
  have hv : (v = x ∨ v ∈ A) ∨ v ∈ B := by simpa [or_assoc] using hv
  rcases hv with hv | hv
  · exact Or.inl (hA.rank_le ha hv)
  · cases B with
    | nil => cases hv
    | cons z B =>
      refine Or.inr ⟨z, hB.1, ?_⟩
      rcases List.mem_cons.mp hv with rfl | hv
      · exact le_refl _
      · exact (hB.2.rank_lt ha hv).le

/-- Two nodes of the same rank are the same. -/
theorem Ends.eq_of_rank (h : Ends next x l) (ha : Ascending next rank) {u v : α} (hu : u ∈ l) (hv : v ∈ l)
    (hr : rank u = rank v) : u = v := by
  obtain ⟨A, B, rfl, hA, hB⟩ := h.split (Or.inr hu)
  rcases List.mem_append.mp hv with hv | hv
  · obtain ⟨_, C, _, _, hC⟩ := hA.split (Or.inr hv)
    rcases hC.last_mem with he | hm
    · exact he
    · exact absurd hr.symm (ne_of_lt (hC.rank_lt ha hm))
  · exact absurd hr (ne_of_lt (hB.rank_lt ha hv))

/-- A list does not depend on nodes before its beginning. -/
theorem Ends.frame_above (h : Ends next x l) (ha : Ascending next rank)
    (hn : ∀ z, rank x ≤ rank z → next' z = next z) : Ends next' x l := by
  refine h.frame fun u hu => hn u ?_
  rcases hu with rfl | hu
  · exact le_refl _
  · exact (h.rank_lt ha hu).le

/-- The `next` of `w` is changed, and the list goes on from there with `B`. -/
theorem Ends.relink (hA : Path next x A w) (ha : Ascending next rank) (hn : ∀ v, v ≠ w → next' v = next v)
    (hB : Ends next' w B) : Ends next' x (A ++ B) := by
  refine Path.ends (hA.frame_below ha fun v hv => hn v ?_) hB
  rintro rfl
  exact lt_irrefl _ hv

end Ranks

end Cdrc.Lib.Paths
