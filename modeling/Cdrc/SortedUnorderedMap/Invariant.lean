import Mathlib.Order.WithBot
import Cdrc.Lib.Paths
import Cdrc.SortedUnorderedMap.Code

/-! # The invariant of `SortedUnorderedMapRCSS`

From each bucket the nodes form a list with growing keys, all of which hash to the bucket. Every node that
is not marked and that somebody can reach is in the list of its bucket (`MapInv.live`), so the map
is what the nodes without a mark say.

A `findNode` may be at nodes that have left their list. What it answers was true at some moment since the
call began (`Saw`): a node without a mark was in its list when its `next` was read, with nothing after it if
that was null; and a location that still holds `cur`, without a mark, is in its list. -/
namespace Cdrc.SortedUnorderedMap
open Cdrc.Lib.Objects Cdrc.Lib.History Cdrc.Lib.Paths

variable {α K V : Type} {m n : Nat}

def nextOf (s : State α K V m n) (p : Loc m α) : Option (Loc m α) :=
  ((s.read p).bind Link.ptr).map .next

/-- A bucket comes before every key. -/
def rank (node : α → Option (Node α K V)) : Loc m α → WithBot K
  | .bucket _ => ⊥
  | .next a => ((node a).map fun nd => (nd.key : WithBot K)).getD ⊥

/-- The bucket that a location belongs to. -/
def home (idx : K → Fin m) (node : α → Option (Node α K V)) : Loc m α → Option (Fin m)
  | .bucket i => some i
  | .next a => (node a).map fun nd => idx nd.key

/-- A location or a snapshot refers to `a`. -/
def Seen (s : State α K V m n) (a : α) : Prop :=
  (∃ p, nextOf s p = some (.next a)) ∨ ∃ t, a ∈ (s.pc t).snapshots

/-- The node of the call has not been published. -/
structure Private (s : State α K V m n) (t : Fin n) (a : α) : Prop where
  hidden : ¬ Seen s a
  others : ∀ u, u ≠ t → (s.pc u).tmpNode ≠ some a

/-- A node without a mark in the list of the bucket has the key and the value. -/
def Present (idx : K → Fin m) (s : State α K V m n) (l : Fin m → List (Loc m α)) (key : K) (val : V) : Prop :=
  ∃ a nd, Loc.next a ∈ l (idx key) ∧ s.node a = some nd ∧ nd.next.mark = false ∧ nd.key = key ∧ nd.val = val

/-- The response of a call that has taken effect. -/
def retOf : Pc α K V → Option (Ret V)
  | .find (.removed res) _ _ => some (.value (some res))
  | .removeUnlink _ _ _ _ res => some (.value (some res))
  | .ret r => some r
  | _ => none

variable [LinearOrder K]

section Knows
variable (idx : K → Fin m) (node : α → Option (Node α K V)) (hist : List (Event (Op K V) (Ret V)))
  (L : List (Entry (Op K V) (Ret V))) (i : Nat) (o : Op K V)

/-- `prev` is in the bucket of the key, and before it. -/
def Before (key : K) (prev : Option α) : Prop :=
  ∀ a, prev = some a → ∃ nd, node a = some nd ∧ nd.key < key ∧ idx nd.key = idx key

/-- `cur` is in the bucket of the key, and after it. -/
def After (key : K) (cur : Option α) : Prop :=
  ∀ a, cur = some a → ∃ nd, node a = some nd ∧ key < nd.key ∧ idx nd.key = idx key

/-- The node has been removed, so its `next` is what it will always be. -/
def Frozen (a : α) (nxt : Option α) : Prop :=
  ∃ nd, node a = some nd ∧ nd.next = ⟨nxt, true⟩

/-- The map has the key, and none that comes after it in its bucket if `nxt` is null. -/
def Shows (key : K) (val : V) (nxt : Option α) (f : K → Option V) : Prop :=
  f key = some val ∧ (nxt = none → ∀ k, idx k = idx key → key < k → f k = none)

/-- What a `findNode` knows of its snapshots. -/
def FindKnows (key : K) : Find α → Prop
  | .start => True
  | .next prev _ => Before idx node key prev
  | .again prev _ _ _ => Before idx node key prev
  | .validate prev cur nxt true => Before idx node key prev ∧ Frozen node cur nxt
  | .validate prev cur nxt false => Before idx node key prev ∧
      ∃ nd, node cur = some nd ∧ Saw (map K V) hist L i (Shows idx nd.key nd.val nxt)
  | .unlink prev cur nxt => Before idx node key prev ∧ Frozen node cur nxt

/-- The node of an `insert`, before its `next` is set. -/
def Own (key : K) (tmpNode : α) : Prop :=
  ∃ val lk, o = .insert key val ∧ node tmpNode = some ⟨key, val, lk⟩ ∧ lk.mark = false

def GoalKnows (key : K) : Goal α V → Prop
  | .get => o = .get key
  | .insert tmpNode => Own node o key tmpNode
  | .remove => o = .remove key
  | .removed _ => True

/-- What a call knows of its snapshots and of its own node. -/
def Knows : Pc α K V → Prop
  | .idle => True
  | .insertNew key val => o = .insert key val
  | .find goal key st => GoalKnows node o key goal ∧ FindKnows idx node hist L i key st
  | .insertStore key tmpNode prev cur =>
      Own node o key tmpNode ∧ Before idx node key prev ∧ After idx node key cur
  | .insertCas key tmpNode prev cur => (∃ val, o = .insert key val ∧
      node tmpNode = some ⟨key, val, ⟨cur, false⟩⟩) ∧ Before idx node key prev ∧ After idx node key cur
  | .removeMark key prev cur _ res => o = .remove key ∧ Before idx node key prev ∧
      ∃ nd, node cur = some nd ∧ nd.key = key ∧ nd.val = res
  | .removeUnlink key prev cur nxt _ => Before idx node key prev ∧ Frozen node cur nxt ∧
      ∃ nd, node cur = some nd ∧ nd.key = key
  | .ret _ => True

end Knows

variable (idx : K → Fin m)

/-- The nodes and the lists. -/
structure MapInv (s : State α K V m n) (l : Fin m → List (Loc m α)) : Prop where
  ends : ∀ i, Ends (nextOf s) (.bucket i) (l i)
  ascending : Ascending (nextOf s) (rank s.node)
  closed : ∀ p a, nextOf s p = some (.next a) → ∃ nd, s.node a = some nd
  homes : ∀ p q, nextOf s p = some q → home idx s.node q = home idx s.node p
  live : ∀ a nd, s.node a = some nd → nd.next.mark = false → Seen s a → Loc.next a ∈ l (idx nd.key)

structure ThreadInv (s : State α K V m n) (L : List (Entry (Op K V) (Ret V))) (t : Fin n) : Prop where
  op : s.pc t ≠ .idle → ∃ i o, s.calls.call t = some (i, o) ∧ Knows idx s.node s.calls.hist L i o (s.pc t)
  owned : ∀ a, (s.pc t).tmpNode = some a → Private s t a
  allocated : ∀ a, (s.pc t).tmpNode = some a ∨ a ∈ (s.pc t).snapshots → ∃ nd, s.node a = some nd

structure Inv (s : State α K V m n) (L : List (Entry (Op K V) (Ret V))) (l : Fin m → List (Loc m α)) :
    Prop where
  tracks : Tracks s.calls L fun t => retOf (s.pc t)
  legal : (map K V).Legal L
  contents : ∀ key val, (map K V).after (map K V).init L key = some val ↔ Present idx s l key val
  lists : MapInv idx s l
  threads : ∀ t, ThreadInv idx s L t

/-! ## Frames -/

section Frames
variable {idx} {s s' : State α K V m n} {t u : Fin n} {L L' : List (Entry (Op K V) (Ret V))} {i : Nat}
  {o : Op K V} {node node' : α → Option (Node α K V)} {hist hist' : List (Event (Op K V) (Ret V))} {a : α}
  {key : K}

/-- The node at `a` is still there, with its key and value, and untouched if it was marked. -/
def Stays (node node' : α → Option (Node α K V)) (a : α) : Prop :=
  ∀ nd, node a = some nd → ∃ nd', node' a = some nd' ∧ nd'.key = nd.key ∧ nd'.val = nd.val ∧
    (nd.next.mark = true → nd' = nd)

omit [LinearOrder K] in
theorem Stays.of_eq (h : node' a = node a) : Stays node node' a :=
  fun nd hnd => ⟨nd, h ▸ hnd, rfl, rfl, fun _ => rfl⟩

omit [LinearOrder K] in
theorem Stays.frozen (h : Stays node node' a) {nxt : Option α} (hf : Frozen node a nxt) :
    Frozen node' a nxt := by
  obtain ⟨nd, hnd, hnext⟩ := hf
  obtain ⟨nd', hnd', _, _, heq⟩ := h nd hnd
  obtain rfl := heq (by rw [hnext])
  exact ⟨nd', hnd', hnext⟩

theorem Before.frame {prev : Option α} (h : Before idx node key prev)
    (hs : ∀ a, prev = some a → Stays node node' a) : Before idx node' key prev := by
  intro a ha
  obtain ⟨nd, hnd, hlt, hidx⟩ := h a ha
  obtain ⟨nd', hnd', hkey, _⟩ := hs a ha nd hnd
  exact ⟨nd', hnd', by rwa [hkey], by rwa [hkey]⟩

theorem After.frame {cur : Option α} (h : After idx node key cur)
    (hs : ∀ a, cur = some a → Stays node node' a) : After idx node' key cur := by
  intro a ha
  obtain ⟨nd, hnd, hlt, hidx⟩ := h a ha
  obtain ⟨nd', hnd', hkey, _⟩ := hs a ha nd hnd
  exact ⟨nd', hnd', by rwa [hkey], by rwa [hkey]⟩

/-- The order still has what a call has seen. -/
def KeepsSaw (hist hist' : List (Event (Op K V) (Ret V))) (L L' : List (Entry (Op K V) (Ret V))) (i : Nat) :
    Prop :=
  ∀ P, Saw (map K V) hist L i P → Saw (map K V) hist' L' i P

theorem FindKnows.frame {st : Find α} (h : FindKnows idx node hist L i key st)
    (hs : ∀ a ∈ st.snapshots, Stays node node' a) (hsaw : KeepsSaw hist hist' L L' i) :
    FindKnows idx node' hist' L' i key st := by
  have hprev : ∀ prev : Option α, (∀ a, prev = some a → a ∈ st.snapshots) →
      Before idx node key prev → Before idx node' key prev :=
    fun prev hm hb => hb.frame fun a ha => hs a (hm a ha)
  cases st with
  | start => trivial
  | next prev cur => exact hprev prev (by simp +contextual [Find.snapshots]) h
  | again prev cur nxt cmark => exact hprev prev (by simp +contextual [Find.snapshots]) h
  | validate prev cur nxt cmark =>
    cases cmark with
    | true =>
      exact ⟨hprev prev (by simp +contextual [Find.snapshots]) h.1,
        (hs cur (by simp [Find.snapshots])).frozen h.2⟩
    | false =>
      obtain ⟨hb, nd, hnd, hshows⟩ := h
      obtain ⟨nd', hnd', hkey, hval, _⟩ := hs cur (by simp [Find.snapshots]) nd hnd
      refine ⟨hprev prev (by simp +contextual [Find.snapshots]) hb, nd', hnd', ?_⟩
      rw [hkey, hval]
      exact hsaw _ hshows
  | unlink prev cur nxt =>
    exact ⟨hprev prev (by simp +contextual [Find.snapshots]) h.1,
      (hs cur (by simp [Find.snapshots])).frozen h.2⟩

omit [LinearOrder K] in
theorem Own.frame {tmpNode : α} (h : Own node o key tmpNode) (ho : node' tmpNode = node tmpNode) :
    Own node' o key tmpNode := by
  obtain ⟨val, lk, hop, hnd, hm⟩ := h
  exact ⟨val, lk, hop, ho.trans hnd, hm⟩

theorem Knows.frame {pc : Pc α K V} (h : Knows idx node hist L i o pc)
    (hs : ∀ a ∈ pc.snapshots, Stays node node' a) (hown : ∀ a, pc.tmpNode = some a → node' a = node a)
    (hsaw : KeepsSaw hist hist' L L' i) : Knows idx node' hist' L' i o pc := by
  have hprev : ∀ (key : K) (prev : Option α), (∀ a, prev = some a → a ∈ pc.snapshots) →
      Before idx node key prev → Before idx node' key prev :=
    fun key prev hm hb => hb.frame fun a ha => hs a (hm a ha)
  have hcur : ∀ (key : K) (cur : Option α), (∀ a, cur = some a → a ∈ pc.snapshots) →
      After idx node key cur → After idx node' key cur :=
    fun key cur hm ha => ha.frame fun a hc => hs a (hm a hc)
  cases pc with
  | idle => trivial
  | insertNew key val => exact h
  | find goal key st =>
    refine ⟨?_, h.2.frame hs hsaw⟩
    cases goal with
    | insert tmpNode => exact h.1.frame (hown tmpNode rfl)
    | _ => exact h.1
  | insertStore key tmpNode prev cur =>
    exact ⟨h.1.frame (hown tmpNode rfl), hprev key prev (by simp +contextual [Pc.snapshots]) h.2.1,
      hcur key cur (by simp +contextual [Pc.snapshots]) h.2.2⟩
  | insertCas key tmpNode prev cur =>
    obtain ⟨⟨val, ho, hnd⟩, hb, ha⟩ := h
    exact ⟨⟨val, ho, (hown tmpNode rfl).trans hnd⟩, hprev key prev (by simp +contextual [Pc.snapshots]) hb,
      hcur key cur (by simp +contextual [Pc.snapshots]) ha⟩
  | removeMark key prev cur nxt res =>
    obtain ⟨ho, hb, nd, hnd, hkey, hval⟩ := h
    obtain ⟨nd', hnd', hkey', hval', _⟩ := hs cur (by simp [Pc.snapshots]) nd hnd
    exact ⟨ho, hprev key prev (by simp +contextual [Pc.snapshots]) hb, nd', hnd', hkey'.trans hkey,
      hval'.trans hval⟩
  | removeUnlink key prev cur nxt res =>
    obtain ⟨hb, hf, nd, hnd, hkey⟩ := h
    obtain ⟨nd', hnd', hkey', _⟩ := hs cur (by simp [Pc.snapshots]) nd hnd
    exact ⟨hprev key prev (by simp +contextual [Pc.snapshots]) hb,
      (hs cur (by simp [Pc.snapshots])).frozen hf, nd', hnd', hkey'.trans hkey⟩
  | ret r => trivial

/-- What a step leaves alone for a thread that does not take it. -/
structure Frame (s s' : State α K V m n) (u : Fin n) : Prop where
  pc : s'.pc u = s.pc u
  call : s'.calls.call u = s.calls.call u
  stays : ∀ a, a ∈ (s.pc u).snapshots → Stays s.node s'.node a
  own : ∀ a, (s.pc u).tmpNode = some a → s'.node a = s.node a

theorem ThreadInv.frame (h : ThreadInv idx s L u) (f : Frame s s' u)
    (hsaw : ∀ i o, s.calls.call u = some (i, o) → KeepsSaw s.calls.hist s'.calls.hist L L' i)
    (hp : ∀ a, (s.pc u).tmpNode = some a → Private s u a → Private s' u a) : ThreadInv idx s' L' u where
  op := by
    rw [f.pc, f.call]
    intro hi
    obtain ⟨i, o, hc, hk⟩ := h.op hi
    exact ⟨i, o, hc, hk.frame f.stays f.own (hsaw i o hc)⟩
  owned := by
    rw [f.pc]
    exact fun a ha => hp a ha (h.owned a ha)
  allocated := by
    rw [f.pc]
    intro a ha
    obtain ⟨nd, hnd⟩ := h.allocated a ha
    rcases ha with ha | ha
    · exact ⟨nd, (f.own a ha).trans hnd⟩
    · obtain ⟨nd', hnd', _⟩ := f.stays a ha nd hnd
      exact ⟨nd', hnd'⟩

/-- A step of thread `t`: the others keep their part when it leaves alone what they use and shows no private
node of theirs. -/
theorem threads_step (h : ∀ v, ThreadInv idx s L v) (hf : ∀ v, v ≠ t → Frame s s' v)
    (hsaw : ∀ v i o, v ≠ t → s.calls.call v = some (i, o) → KeepsSaw s.calls.hist s'.calls.hist L L' i)
    (hsafe : ∀ v a, v ≠ t → (s.pc v).tmpNode = some a → Private s v a →
      ¬ Seen s' a ∧ (s'.pc t).tmpNode ≠ some a)
    (ht : ThreadInv idx s' L' t) (v : Fin n) : ThreadInv idx s' L' v := by
  by_cases hv : v = t
  · rw [hv]
    exact ht
  · refine (h v).frame (hf v hv) (fun i o hc => hsaw v i o hv hc) fun a ho hp => ?_
    obtain ⟨hhid, hnew⟩ := hsafe v a hv ho hp
    refine ⟨hhid, fun w hw => ?_⟩
    by_cases hwt : w = t
    · rw [hwt]
      exact hnew
    · rw [(hf w hwt).pc]
      exact hp.others w hw

omit [LinearOrder K] in
@[simp] theorem setPc_self (s : State α K V m n) (t : Fin n) (pc : Pc α K V) : (s.setPc t pc).pc t = pc := by
  simp [State.setPc]

omit [LinearOrder K] in
theorem setPc_of_ne (s : State α K V m n) (pc : Pc α K V) (h : u ≠ t) : (s.setPc t pc).pc u = s.pc u := by
  simp [State.setPc, Function.update_of_ne h]

omit [LinearOrder K] in
variable (s) in
theorem retOf_setPc (pc : Pc α K V) :
    (fun v => retOf ((s.setPc t pc).pc v)) = Function.update (fun v => retOf (s.pc v)) t (retOf pc) := by
  funext v
  by_cases hv : v = t
  · rw [hv, Function.update_self, setPc_self]
  · rw [Function.update_of_ne hv, setPc_of_ne s pc hv]

end Frames

end Cdrc.SortedUnorderedMap
