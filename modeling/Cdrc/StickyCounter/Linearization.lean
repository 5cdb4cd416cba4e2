import Mathlib.Data.List.Permutation
import Cdrc.StickyCounter.Calls

/-! # In which sense a sticky counter is linearizable

A `decrement` that takes the word to `0` has not finished: it still has to install the
zero flag, and until it has, an `increment` may revive the counter. Which of the
decrements that stand there gets the credit for the zero is settled only by the
flag. Between the revival and that moment the word is already smaller than the count
of the sequential counter by the units of the decrement that will get the credit, and
a `load` reads the word.

`Counter.Legal` is the sequential counter with that one slack: a `load` returns the
count, or, when the decrement that returns `true` overlaps the `load` and takes effect
later, the count without that decrement's units. `linearizable` shows that every
history obeys it, `load_not_exact` that the slack is needed.

The proof follows the word through four phases. While the word is positive the
count is the word (`Phase.live`). At `0` one parked decrement has not taken effect
yet (`Phase.zero`). A helping `load` commits it with the credit still open
(`Phase.pending`); the flag settles the credit (`Phase.stuck`), and the decrement that
gets it is postponed to the moment of the zero. -/
namespace Cdrc.StickyCounter
open Cdrc.Lib.Runs Cdrc.Lib.History

variable {m : Nat}

namespace Counter

/-- A call that returns what the sequential counter returns, up to the slack of a
`load`: `rest` are the calls that take effect later. -/
def Admits (h : Hist m) (c : Nat) (e : Entry (Op m) (Ret m)) (rest : List (Entry (Op m) (Ret m))) :
    Prop :=
  match e.op with
  | .increment _ => e.ret = .bool (c ≠ 0)
  | .decrement arg => arg.toNat ≤ c ∧ e.ret = .bool (c = arg.toNat)
  | .load => ∃ v, e.ret = .val v ∧ (v.toNat = c ∨
      ∃ d ∈ rest, ∃ arg, d.op = .decrement arg ∧ d.ret = .bool true ∧ v.toNat + arg.toNat = c ∧
        0 < v.toNat ∧ ¬ Precedes h e.id d.id)

def Legal (h : Hist m) : Nat → List (Entry (Op m) (Ret m)) → Prop
  | _, [] => True
  | c, e :: L => Admits h c e L ∧ Legal h (after c e.op) L

/-- The calls of a counter that stays positive: nothing fails, no decrement reaches
zero, every load is exact. -/
def Plain : Nat → List (Entry (Op m) (Ret m)) → Prop
  | _, [] => True
  | c, e :: L => (match e.op with
      | .increment _ => e.ret = .bool true
      | .decrement arg => arg.toNat < c ∧ e.ret = .bool false
      | .load => ∃ v, e.ret = .val v ∧ v.toNat = c) ∧ Plain (after c e.op) L

/-- A call on the counter at zero. -/
def AtZero (e : Entry (Op m) (Ret m)) : Prop :=
  match e.op with
  | .increment _ => e.ret = .bool false
  | .decrement _ => False
  | .load => e.ret = .val 0

/-! ## Counting along an order of calls -/

theorem count_append (c : Nat) (A B : List (Entry (Op m) (Ret m))) :
    count c (A ++ B) = count (count c A) B := by
  induction A generalizing c with
  | nil => rfl
  | cons e A ih => exact ih _

theorem Plain.append {c : Nat} {A B : List (Entry (Op m) (Ret m))} :
    Plain c (A ++ B) ↔ Plain c A ∧ Plain (count c A) B := by
  induction A generalizing c with
  | nil => simp [Plain, count]
  | cons e A ih => simp only [List.cons_append, Plain, count, ih, and_assoc]

theorem Plain.count_pos {c : Nat} {L : List (Entry (Op m) (Ret m))} (hc : 0 < c)
    (h : Plain c L) : 0 < count c L := by
  induction L generalizing c with
  | nil => exact hc
  | cons e L ih =>
    obtain ⟨he, hL⟩ := h
    refine ih ?_ hL
    cases ho : e.op with
    | increment arg => simp only [after]; split <;> omega
    | decrement arg => rw [ho] at he; simp only [after]; omega
    | load => simpa [after] using hc

/-- More units in the counter stay in it. -/
theorem Plain.count_shift {c n : Nat} {B : List (Entry (Op m) (Ret m))} (hc : 0 < c)
    (hB : Plain c B) : count (c + n) B = count c B + n := by
  induction B generalizing c with
  | nil => rfl
  | cons f B ih =>
    obtain ⟨hf, hB⟩ := hB
    have hpos : 0 < after c f.op := by
      simpa [count] using Plain.count_pos (L := [f]) hc ⟨hf, trivial⟩
    have hstep : after (c + n) f.op = after c f.op + n := by
      cases ho : f.op with
      | increment arg =>
        simp only [after, if_neg (by omega : ¬ c = 0), if_neg (by omega : ¬ c + n = 0)]; omega
      | decrement arg => rw [ho] at hf; simp only [after]; omega
      | load => rfl
    simp only [count, hstep]
    exact ih hpos hB

theorem AtZero.count {Z : List (Entry (Op m) (Ret m))} (h : ∀ e ∈ Z, AtZero e) :
    count 0 Z = 0 := by
  induction Z with
  | nil => rfl
  | cons e Z ih =>
    have he := h e (by simp)
    have hZ := ih fun f hf => h f (by simp [hf])
    simp only [Counter.count]
    cases ho : e.op with
    | increment arg => simpa [after] using hZ
    | decrement arg => simp [AtZero, ho] at he
    | load => simpa [after] using hZ

/-! ## What the phases give -/

theorem Legal.append_one {h : Hist m} {c : Nat} {L : List (Entry (Op m) (Ret m))}
    {e : Entry (Op m) (Ret m)} (hL : Legal h c L) (he : Admits h (count c L) e []) :
    Legal h c (L ++ [e]) := by
  induction L generalizing c with
  | nil => exact ⟨he, trivial⟩
  | cons f L ih =>
    refine ⟨?_, ih hL.2 he⟩
    have hf := hL.1
    unfold Admits at hf ⊢
    cases ho : f.op with
    | increment arg => simpa [ho] using hf
    | decrement arg => simpa [ho] using hf
    | load =>
      simp only [ho] at hf ⊢
      obtain ⟨v, hv, hf | ⟨d, hd, rest⟩⟩ := hf
      · exact ⟨v, hv, Or.inl hf⟩
      · exact ⟨v, hv, Or.inr ⟨d, by simp [hd], rest⟩⟩

theorem Legal.hist_mono {h h' : Hist m} {c : Nat} {L : List (Entry (Op m) (Ret m))}
    (hp : ∀ a ∈ L, ∀ d ∈ L, Precedes h' a.id d.id → Precedes h a.id d.id) (hL : Legal h c L) :
    Legal h' c L := by
  induction L generalizing c with
  | nil => trivial
  | cons e L ih =>
    refine ⟨?_, ih (fun a ha d hd => hp a (by simp [ha]) d (by simp [hd])) hL.2⟩
    have he := hL.1
    unfold Admits at he ⊢
    cases ho : e.op with
    | increment arg => simpa [ho] using he
    | decrement arg => simpa [ho] using he
    | load =>
      simp only [ho] at he ⊢
      obtain ⟨v, hv, he | ⟨d, hd, arg, h1, h2, h3, h4, h5⟩⟩ := he
      · exact ⟨v, hv, Or.inl he⟩
      · exact ⟨v, hv, Or.inr ⟨d, hd, arg, h1, h2, h3, h4,
          fun h => h5 (hp e (by simp) d (by simp [hd]) h)⟩⟩

theorem AtZero.legal {h : Hist m} {Z : List (Entry (Op m) (Ret m))} (hz : ∀ e ∈ Z, AtZero e) :
    Legal h 0 Z := by
  induction Z with
  | nil => trivial
  | cons e Z ih =>
    have he := hz e (by simp)
    have hZ := ih fun f hf => hz f (by simp [hf])
    unfold AtZero at he
    refine ⟨?_, ?_⟩
    · unfold Admits
      cases ho : e.op with
      | increment arg => simpa [ho] using he
      | decrement arg => simp [ho] at he
      | load => simp only [ho] at he ⊢; exact ⟨0, he, Or.inl (by simp)⟩
    · cases ho : e.op with
      | increment arg => simpa [after] using hZ
      | decrement arg => simp [ho] at he
      | load => simpa [after] using hZ

/-- Calls that were plain at `c` are legal at `c + n` in front of the decrement of `n`
units that gets the credit: only the loads notice. -/
theorem Plain.legal_shift {h : Hist m} {n : Word m} {T : List (Entry (Op m) (Ret m))}
    {d : Entry (Op m) (Ret m)} (hd : d ∈ T) (hdo : d.op = .decrement n) (hdr : d.ret = .bool true) :
    ∀ {c : Nat} {B : List (Entry (Op m) (Ret m))}, 0 < c → Plain c B →
      (∀ e ∈ B, ¬ Precedes h e.id d.id) → Legal h (count c B + n.toNat) T →
      Legal h (c + n.toNat) (B ++ T) := by
  intro c B
  induction B generalizing c with
  | nil => intro _ _ _ hT; exact hT
  | cons e B ih =>
    intro hc hB hp hT
    obtain ⟨he, hB'⟩ := hB
    have hpos : 0 < after c e.op := by
      have := Plain.count_pos (L := [e]) hc ⟨he, trivial⟩
      simpa [count] using this
    have hL := ih hpos hB' (fun f hf => hp f (by simp [hf])) hT
    cases ho : e.op with
    | increment arg =>
      rw [ho] at he hL
      simp only [after, if_neg (by omega : ¬ c = 0)] at hL
      refine ⟨?_, ?_⟩
      · simp only [Admits, ho, he]; simp; omega
      · simp only [after, if_neg (by omega : ¬ c + n.toNat = 0), ho]
        rwa [show c + n.toNat + arg.toNat = c + arg.toNat + n.toNat by omega]
    | decrement arg =>
      rw [ho] at he hL
      simp only [after] at hL
      refine ⟨?_, ?_⟩
      · simp only [Admits, ho, he.2]
        exact ⟨by omega, by simp; omega⟩
      · simp only [after, ho]
        rwa [show c + n.toNat - arg.toNat = c - arg.toNat + n.toNat by omega]
    | load =>
      rw [ho] at he hL
      refine ⟨?_, ?_⟩
      · obtain ⟨v, hv, hvc⟩ := he
        simp only [Admits, ho]
        exact ⟨v, hv, Or.inr ⟨d, by simp [hd], n, hdo, hdr, by omega, by omega, hp e (by simp)⟩⟩
      · simpa [after, ho] using hL

/-- Plain calls are legal in front of whatever is legal after them. -/
theorem Plain.legal_append {h : Hist m} {T : List (Entry (Op m) (Ret m))} :
    ∀ {c : Nat} {A : List (Entry (Op m) (Ret m))}, 0 < c → Plain c A → Legal h (count c A) T →
      Legal h c (A ++ T) := by
  intro c A
  induction A generalizing c with
  | nil => intro _ _ hT; exact hT
  | cons e A ih =>
    intro hc hA hT
    obtain ⟨he, hA'⟩ := hA
    have hpos : 0 < after c e.op := by
      have := Plain.count_pos (L := [e]) hc ⟨he, trivial⟩
      simpa [count] using this
    refine ⟨?_, ih hpos hA' hT⟩
    unfold Admits
    cases ho : e.op with
    | increment arg => simp only [ho] at he ⊢; simp [he]; omega
    | decrement arg =>
      simp only [ho] at he ⊢
      exact ⟨by omega, by rw [he.2]; simp; omega⟩
    | load =>
      simp only [ho] at he ⊢
      obtain ⟨v, hv, hvc⟩ := he
      exact ⟨v, hv, Or.inl hvc⟩

end Counter

/-! ## The invariant -/

open Counter

/-- The units a call holds: those a decrement has not subtracted yet, and those an
increment has added and not handed over yet. -/
def Call.units (c : Call m) : Nat :=
  match c.pc with
  | .decrement arg => arg.toNat
  | .done r => granted c.op r
  | _ => 0

def State.units (s : State m) : Nat := s.owned + (s.calls.map Call.units).sum

/-- A decrement that took the word to zero and has not settled the zero. -/
def Call.Parked (c : Call m) : Prop :=
  ∃ arg, c.pc = .decrementCas arg ∨ c.pc = .decrementExchange arg

/-- Where a call stands agrees with the order of the calls that took effect. -/
def Placed (L : List (Entry (Op m) (Ret m))) (c : Call m) : Prop :=
  match c.pc with
  | .increment arg => c.op = .increment arg ∧ c.id ∉ L.map Entry.id
  | .decrement arg => c.op = .decrement arg ∧ c.id ∉ L.map Entry.id
  | .decrementCas arg | .decrementExchange arg => c.op = .decrement arg
  | .load | .loadCas => c.op = .load ∧ c.id ∉ L.map Entry.id
  | .done r => ⟨c.id, c.op, r⟩ ∈ L

/-- A parked decrement that has taken effect without the credit. -/
def Lost (L : List (Entry (Op m) (Ret m))) (c : Call m) : Prop := ⟨c.id, c.op, .bool false⟩ ∈ L

structure Base (s : State m) (L : List (Entry (Op m) (Ret m))) : Prop where
  lin : Linearization s.hist L
  bound : s.added ≤ maxValue m
  nodup : (s.calls.map Call.id).Nodup
  fresh : ∀ c ∈ s.calls, c.id < s.nextId
  freshInv : ∀ i o, Event.inv i o ∈ s.hist → i < s.nextId
  running : ∀ c ∈ s.calls, Event.inv c.id c.op ∈ s.hist ∧ ∀ r, Event.res c.id r ∉ s.hist
  placed : ∀ c ∈ s.calls, Placed L c
  pos : ∀ i arg, Event.inv i (Op.decrement arg) ∈ s.hist → 0 < arg.toNat
  uniq : ∀ i o o', Event.inv i o ∈ s.hist → Event.inv i o' ∈ s.hist → o = o'

inductive Phase (c₀ : Nat) (s : State m) (L : List (Entry (Op m) (Ret m))) : Prop
  | live (plain : Plain c₀ L) (start : 0 < c₀) (word : s.x.toNat = count c₀ L)
      (units : s.units = s.x.toNat) (low : s.x.toNat ≤ s.added)
      (lost : ∀ c ∈ s.calls, c.Parked → Lost L c ∧ ∃ arg, c.pc = .decrementCas arg)
  | zero (a : Call m) (n : Word m) (mem : a ∈ s.calls) (pc : a.pc = .decrementCas n)
      (plain : Plain c₀ L) (start : 0 < c₀) (word : s.x = 0) (units : s.units = 0)
      (open_ : count c₀ L = n.toNat) (new : a.id ∉ L.map Entry.id)
      (lost : ∀ c ∈ s.calls, c.Parked → c.id ≠ a.id → Lost L c ∧ ∃ arg, c.pc = .decrementCas arg)
  | pending (A Z : List (Entry (Op m) (Ret m))) (a : Call m) (n : Word m)
      (order : L = A ++ ⟨a.id, a.op, .bool true⟩ :: Z) (op : a.op = .decrement n) (mem : a ∈ s.calls)
      (parked : a.Parked) (plain : Plain c₀ A) (start : 0 < c₀) (open_ : count c₀ A = n.toNat)
      (zeros : ∀ e ∈ Z, AtZero e)
      (word : 3 * 2 ^ m ≤ s.x.toNat ∧ s.x.toNat ≤ 3 * 2 ^ m + s.added) (units : s.units = 0)
      (lost : ∀ c ∈ s.calls, c.Parked → c.id ≠ a.id → Lost A c)
  | stuck (legal : Legal s.hist c₀ L) (zero : count c₀ L = 0)
      (word : 2 * 2 ^ m ≤ s.x.toNat ∧ s.x.toNat ≤ 2 * 2 ^ m + s.added) (units : s.units = 0)
      (lost : ∀ c ∈ s.calls, c.Parked → Lost L c)
      (one : c₀ = 0 ∨ ∃ e ∈ L, (∃ arg, e.op = .decrement arg) ∧ e.ret = .bool true ∧
        ((∃ c ∈ s.calls, c.id = e.id ∧ c.pc = .done (.bool true)) ∨
          Event.res e.id (.bool true) ∈ s.hist))

def Inv (c₀ : Nat) (s : State m) : Prop := ∃ L, Base s L ∧ Phase c₀ s L

/-! ## What an access leaves alone -/

section Access
variable {s : State m} {L L' : List (Entry (Op m) (Ret m))} {k : Nat} {c : Call m}

/-- The two orders say the same about call `i`. -/
def Agree (L L' : List (Entry (Op m) (Ret m))) (i : Nat) : Prop := ∀ e, e.id = i → (e ∈ L ↔ e ∈ L')

theorem Agree.mem_ids {i : Nat} (h : Agree L L' i) : i ∈ L.map Entry.id ↔ i ∈ L'.map Entry.id := by
  simp only [List.mem_map]
  constructor
  · rintro ⟨e, he, rfl⟩; exact ⟨e, (h e rfl).mp he, rfl⟩
  · rintro ⟨e, he, rfl⟩; exact ⟨e, (h e rfl).mpr he, rfl⟩

theorem Agree.placed {d : Call m} (h : Agree L L' d.id) (hp : Placed L d) : Placed L' d := by
  unfold Placed at hp ⊢
  cases hpc : d.pc with
  | done r => rw [hpc] at hp; exact (h _ rfl).mp hp
  | _ => rw [hpc] at hp; simpa only [← h.mem_ids] using hp

theorem Agree.snoc {e : Entry (Op m) (Ret m)} {i : Nat} (h : i ≠ e.id) : Agree L (L ++ [e]) i := by
  rintro f rfl
  simp only [List.mem_append, List.mem_singleton]
  exact ⟨Or.inl, fun hf => hf.resolve_right fun he => h (he ▸ rfl)⟩

theorem Placed.of_parked {d : Call m} (hd : d.Parked) (hp : Placed L d) : Placed L' d := by
  obtain ⟨arg, h | h⟩ := hd <;> simpa [Placed, h] using hp

theorem Base.accessed (b : Base s L) (hk : s.calls[k]? = some c)
    (hadd : s.added + adds c.pc ≤ maxValue m) (lin : Linearization s.hist L')
    (hothers : ∀ d ∈ s.calls, d.id ≠ c.id → ¬ d.Parked → Agree L L' d.id)
    (hc : Placed L' { c with pc := (access s.x c.pc).2 }) : Base (s.accessed k c) L' where
  lin := lin
  bound := hadd
  nodup := by
    simp only [State.accessed]
    rw [map_key_set (f := Call.id) (b := { c with pc := (access s.x c.pc).2 }) hk rfl]
    exact b.nodup
  fresh d hd := by
    rcases mem_set_of_nodup b.nodup hk hd with ⟨hd, _⟩ | rfl
    · exact b.fresh d hd
    · exact b.fresh c (List.mem_of_getElem? hk)
  freshInv := b.freshInv
  running d hd := by
    rcases mem_set_of_nodup b.nodup hk hd with ⟨hd, _⟩ | rfl
    · exact b.running d hd
    · exact b.running c (List.mem_of_getElem? hk)
  placed d hd := by
    rcases mem_set_of_nodup b.nodup hk hd with ⟨hd, hne⟩ | rfl
    · by_cases hp : d.Parked
      · exact Placed.of_parked hp (b.placed d hd)
      · exact (hothers d hd hne hp).placed (b.placed d hd)
    · exact hc
  pos := b.pos
  uniq := b.uniq

theorem accessed_units (hk : s.calls[k]? = some c) :
    (s.accessed k c).units + c.units = s.units + Call.units { c with pc := (access s.x c.pc).2 } := by
  have := sum_map_set Call.units s.calls k { c with pc := (access s.x c.pc).2 } c hk
  simp only [State.units, State.accessed]
  omega

theorem units_le (hk : s.calls[k]? = some c) : c.units ≤ s.units := by
  have := le_sum_map_of_getElem? Call.units hk
  simp only [State.units]
  omega

/-- The call's own entry, once it takes effect now. -/
theorem Base.commit (b : Base s L) (hk : s.calls[k]? = some c) (hnew : c.id ∉ L.map Entry.id)
    (r : Ret m) : Linearization s.hist (L ++ [⟨c.id, c.op, r⟩]) := by
  obtain ⟨hinv, hrun⟩ := b.running c (List.mem_of_getElem? hk)
  refine b.lin.commit hinv hrun fun f hf he => hnew ?_
  exact List.mem_map.mpr ⟨f, hf, he⟩

theorem toNat_add_of_lt (x y : Word m) (h : x.toNat + y.toNat < 4 * 2 ^ m) :
    (x + y).toNat = x.toNat + y.toNat := by
  rw [BitVec.toNat_add, two_pow_succ_succ, Nat.mod_eq_of_lt h]

end Access

/-! ## The accesses, one lemma for each place of the code -/

section Steps
variable {s : State m} {L : List (Entry (Op m) (Ret m))} {k c₀ : Nat} {c : Call m}

/-- Appending calls at zero to a settled order. -/
theorem Phase.stuck_snoc (legal : Legal s.hist c₀ L) (zero : count c₀ L = 0)
    {e : Entry (Op m) (Ret m)} (he : AtZero e) :
    Legal s.hist c₀ (L ++ [e]) ∧ count c₀ (L ++ [e]) = 0 := by
  refine ⟨legal.append_one ?_, ?_⟩
  · rw [zero]
    exact (AtZero.legal (Z := [e]) (by simpa using he)).1
  · rw [count_append, zero]
    exact AtZero.count (by simpa using he)

theorem one_accessed (b : Base s L) (hk : s.calls[k]? = some c) (hdone : ∀ r, c.pc ≠ .done r)
    {e : Entry (Op m) (Ret m)}
    (h : (∃ d ∈ s.calls, d.id = e.id ∧ d.pc = .done (.bool true)) ∨
      Event.res e.id (.bool true) ∈ s.hist) :
    (∃ d ∈ (s.accessed k c).calls, d.id = e.id ∧ d.pc = .done (.bool true)) ∨
      Event.res e.id (.bool true) ∈ (s.accessed k c).hist := by
  rcases h with ⟨d, hd, hid, hpc⟩ | h
  · refine Or.inl ⟨d, mem_set_of_key_ne (f := Call.id) hk hd ?_, hid, hpc⟩
    intro he
    have := List.inj_on_of_nodup_map b.nodup hd (List.mem_of_getElem? hk) he
    subst this
    exact hdone _ hpc
  · exact Or.inr h

/-- What the parked calls satisfy carries over when the accessing call is not parked
afterwards. -/
theorem parked_accessed (b : Base s L) (hk : s.calls[k]? = some c) {P : Call m → Prop}
    (hnp : ¬ Call.Parked { c with pc := (access s.x c.pc).2 })
    (h : ∀ d ∈ s.calls, d.Parked → P d) : ∀ d ∈ (s.accessed k c).calls, d.Parked → P d := by
  intro d hd hp
  rcases mem_set_of_nodup b.nodup hk hd with ⟨hd, _⟩ | rfl
  · exact h d hd hp
  · exact absurd hp hnp

theorem not_parked_done (c : Call m) (r : Ret m) : ¬ Call.Parked { c with pc := .done r } := by
  rintro ⟨arg, h | h⟩ <;> cases h

theorem lost_snoc {e : Entry (Op m) (Ret m)} {d : Call m} (h : Lost L d) : Lost (L ++ [e]) d :=
  List.mem_append_left _ h

/-- `x.fetch_add(arg)`. At zero it revives the counter, and the decrement that had not
taken effect does so right after it. -/
theorem inv_increment {arg : Word m} (b : Base s L) (ph : Phase c₀ s L) (hk : s.calls[k]? = some c)
    (hpc : c.pc = .increment arg) (hadd : s.added + adds c.pc ≤ maxValue m) :
    Inv c₀ (s.accessed k c) := by
  have hcm := List.mem_of_getElem? hk
  obtain ⟨hop, hnew⟩ : c.op = .increment arg ∧ c.id ∉ L.map Entry.id := by
    simpa [Placed, hpc] using b.placed c hcm
  have hadd' : s.added + arg.toNat < 2 ^ m := by
    have := maxValue_eq (m := m)
    have := Nat.two_pow_pos m
    simp only [hpc, adds] at hadd
    omega
  have hx' : (s.accessed k c).x = s.x + arg := by simp [State.accessed, hpc, access]
  have hc' : (access s.x c.pc).2 = .done (.bool (s.x &&& zeroFlag m = 0)) := by simp [hpc, access]
  have hnp : ¬ Call.Parked { c with pc := (access s.x c.pc).2 } := hc' ▸ not_parked_done c _
  have hadded : (s.accessed k c).added = s.added + arg.toNat := by simp [State.accessed, hpc, adds]
  have hu := accessed_units hk
  rw [hc'] at hu
  simp only [Call.units, hpc, hop] at hu
  have hnd : ∀ r, c.pc ≠ .done r := by intro r h; rw [hpc] at h; cases h
  -- the call fails once the flag is set
  have failed : ¬ s.x.toNat < 2 * 2 ^ m →
      (access s.x c.pc).2 = .done (.bool false) ∧
        (s.accessed k c).units = s.units ∧ Base (s.accessed k c) (L ++ [⟨c.id, c.op, .bool false⟩]) ∧
        AtZero (⟨c.id, c.op, .bool false⟩ : Entry (Op m) (Ret m)) := by
    intro hf
    have hflag : ¬ s.x &&& zeroFlag m = 0 := fun h => hf ((and_zeroFlag _).mp h)
    simp only [hflag, decide_false] at hc' hu
    refine ⟨hc', by simpa [granted] using hu, ?_, by simp [AtZero, hop]⟩
    refine b.accessed hk hadd (b.commit hk hnew _) (fun d _ hne _ => Agree.snoc hne) ?_
    rw [hc']; simp [Placed]
  cases ph with
  | live plain start word units low lost =>
    have hflag : s.x &&& zeroFlag m = 0 := (and_zeroFlag _).mpr (by omega)
    simp only [hflag, decide_true, granted] at hc' hu
    have hpos : 0 < count c₀ L := plain.count_pos start
    have hcount : count c₀ (L ++ [⟨c.id, c.op, .bool true⟩]) = count c₀ L + arg.toNat := by
      rw [count_append, hop]; simp only [count, after]; split <;> omega
    have hxn : (s.accessed k c).x.toNat = s.x.toNat + arg.toNat := by
      rw [hx', toNat_add_of_lt]; omega
    refine ⟨L ++ [⟨c.id, c.op, .bool true⟩], ?_, .live ?_ start ?_ ?_ ?_ ?_⟩
    · refine b.accessed hk hadd (b.commit hk hnew _) (fun d _ hne _ => Agree.snoc hne) ?_
      rw [hc']; simp [Placed]
    · exact Plain.append.mpr ⟨plain, by simp [Plain, hop]⟩
    · rw [hxn, hcount, word]
    · rw [hxn]; omega
    · rw [hxn, hadded]; omega
    · exact parked_accessed b hk hnp fun d hd hp => ⟨lost_snoc (lost d hd hp).1, (lost d hd hp).2⟩
  | zero a n mem pc plain start word units open_ new lost =>
    have hflag : s.x &&& zeroFlag m = 0 := by rw [word]; simp
    simp only [hflag, decide_true, granted] at hc' hu
    have hne : a.id ≠ c.id := by
      intro he
      rw [List.inj_on_of_nodup_map b.nodup mem hcm he, hpc] at pc
      cases pc
    have hpos : 0 < count c₀ L := plain.count_pos start
    have hcount : count c₀ (L ++ [⟨c.id, c.op, .bool true⟩]) = n.toNat + arg.toNat := by
      rw [count_append, hop, open_]; simp only [count, after]; split <;> omega
    have hplain : Plain c₀ (L ++ [⟨c.id, c.op, .bool true⟩]) :=
      Plain.append.mpr ⟨plain, by simp [Plain, hop]⟩
    have hb : Base (s.accessed k c) (L ++ [⟨c.id, c.op, .bool true⟩]) := by
      refine b.accessed hk hadd (b.commit hk hnew _) (fun d _ hne _ => Agree.snoc hne) ?_
      rw [hc']; simp [Placed]
    have hmem : a ∈ (s.accessed k c).calls := mem_set_of_key_ne (f := Call.id) hk mem hne
    have hanew : a.id ∉ (L ++ [(⟨c.id, c.op, .bool true⟩ : Entry (Op m) (Ret m))]).map Entry.id := by
      simp only [List.map_append, List.mem_append, not_or]
      exact ⟨new, by simpa using hne⟩
    have hlost := parked_accessed (P := fun d => d.id ≠ a.id →
        Lost (L ++ [⟨c.id, c.op, .bool true⟩]) d ∧ ∃ arg, d.pc = .decrementCas arg) b hk hnp
      fun d hd hp hda => ⟨lost_snoc (lost d hd hp hda).1, (lost d hd hp hda).2⟩
    by_cases harg : arg.toNat = 0
    · refine ⟨_, hb, .zero a n hmem pc hplain start ?_ ?_ ?_ hanew hlost⟩
      · rw [hx', word]
        exact BitVec.eq_of_toNat_eq (by simpa using harg)
      · omega
      · rw [hcount]; omega
    · -- the parked decrement takes effect after the increment that revived the counter
      have haop : a.op = .decrement n := by simpa [Placed, pc] using b.placed a mem
      have hxn : (s.accessed k c).x.toNat = arg.toNat := by rw [hx', word]; simp
      obtain ⟨hainv, harun⟩ := hb.running a hmem
      have hlin := hb.lin.commit (e := ⟨a.id, a.op, .bool false⟩) hainv harun
        (fun f hf he => hanew (List.mem_map.mpr ⟨f, hf, he⟩))
      refine ⟨_, ⟨hlin, hb.bound, hb.nodup, hb.fresh, hb.freshInv, hb.running, ?_, hb.pos, hb.uniq⟩,
        .live ?_ start ?_ ?_ ?_ ?_⟩
      · intro d hd
        by_cases hda : d.id = a.id
        · rw [List.inj_on_of_nodup_map hb.nodup hd hmem hda]
          simpa [Placed, pc] using haop
        · exact Agree.placed (Agree.snoc hda) (hb.placed d hd)
      · refine Plain.append.mpr ⟨hplain, ?_⟩
        simp only [Plain, haop, hcount, and_true]
        omega
      · rw [count_append, hcount, haop, hxn]; simp [count, after]
      · omega
      · rw [hxn, hadded]; omega
      · intro d hd hp
        by_cases hda : d.id = a.id
        · rw [List.inj_on_of_nodup_map hb.nodup hd hmem hda]
          exact ⟨by simp [Lost], n, pc⟩
        · exact ⟨lost_snoc (hlost d hd hp hda).1, (hlost d hd hp hda).2⟩
  | pending A Z a n order op mem parked plain start open_ zeros word units lost =>
    obtain ⟨_, hun, hb, hz⟩ := failed (by omega)
    have hxn : (s.accessed k c).x.toNat = s.x.toNat + arg.toNat := by
      rw [hx', toNat_add_of_lt]; omega
    have hne : a.id ≠ c.id := by
      intro he
      obtain ⟨arg', h | h⟩ := parked <;>
        rw [List.inj_on_of_nodup_map b.nodup mem hcm he, hpc] at h <;> cases h
    refine ⟨_, hb, .pending A (Z ++ [⟨c.id, c.op, .bool false⟩]) a n (by rw [order]; simp) op
      (mem_set_of_key_ne (f := Call.id) hk mem hne) parked plain start open_ ?_ ?_
      (hun.trans units) ?_⟩
    · intro e he
      rcases List.mem_append.mp he with he | he
      · exact zeros e he
      · simp only [List.mem_singleton] at he; exact he ▸ hz
    · rw [hxn, hadded]; omega
    · exact parked_accessed b hk hnp lost
  | stuck legal zero word units lost one =>
    obtain ⟨_, hun, hb, hz⟩ := failed (by omega)
    have hxn : (s.accessed k c).x.toNat = s.x.toNat + arg.toNat := by
      rw [hx', toNat_add_of_lt]; omega
    obtain ⟨hl, h0⟩ := Phase.stuck_snoc legal zero hz
    refine ⟨_, hb, .stuck hl h0 ?_ (hun.trans units) ?_ ?_⟩
    · rw [hxn, hadded]; omega
    · exact parked_accessed b hk hnp fun d hd hp => lost_snoc (lost d hd hp)
    · refine one.imp id ?_
      rintro ⟨e, he, ho, hr, hw⟩
      exact ⟨e, by simp [he], ho, hr, one_accessed b hk hnd hw⟩

/-- `x.fetch_sub(arg)`. It takes effect here unless it leaves the word at zero. -/
theorem inv_decrement {arg : Word m} (b : Base s L) (ph : Phase c₀ s L) (hk : s.calls[k]? = some c)
    (hpc : c.pc = .decrement arg) (hadd : s.added + adds c.pc ≤ maxValue m) :
    Inv c₀ (s.accessed k c) := by
  have hcm := List.mem_of_getElem? hk
  obtain ⟨hop, hnew⟩ : c.op = .decrement arg ∧ c.id ∉ L.map Entry.id := by
    simpa [Placed, hpc] using b.placed c hcm
  have harg : 0 < arg.toNat := b.pos c.id arg (hop ▸ (b.running c hcm).1)
  have hcu : c.units = arg.toNat := by simp [Call.units, hpc]
  have hle := units_le hk
  have hadded : (s.accessed k c).added = s.added := by simp [State.accessed, hpc, adds]
  -- a pending decrement owns units, so the counter is positive
  cases ph with
  | zero | pending | stuck => exact absurd (hcu ▸ hle) (by omega)
  | live plain start word units low lost =>
    have hxle : arg.toNat ≤ s.x.toNat := by omega
    have hxn : (s.accessed k c).x.toNat = s.x.toNat - arg.toNat := by
      simp only [State.accessed, hpc, access]
      exact BitVec.toNat_sub_of_le (BitVec.le_def.mpr hxle)
    have hu := accessed_units hk
    by_cases heq : s.x = arg
    · have hc' : (access s.x c.pc).2 = .decrementCas arg := by simp [hpc, access, heq]
      rw [hc'] at hu
      simp only [Call.units, hpc] at hu
      refine ⟨L, b.accessed hk hadd b.lin (fun d _ _ _ e _ => Iff.rfl) ?_,
        .zero { c with pc := .decrementCas arg } arg ?_ rfl plain start ?_ ?_ ?_ hnew ?_⟩
      · rw [hc']; simpa [Placed] using hop
      · simp only [State.accessed, hc']; exact mem_set_self hk
      · exact BitVec.eq_of_toNat_eq (by rw [hxn, heq]; simp)
      · rw [heq] at units; omega
      · rw [← word, heq]
      · intro d hd hp hda
        rcases mem_set_of_nodup b.nodup hk hd with ⟨hd, _⟩ | rfl
        · exact lost d hd hp
        · exact absurd rfl hda
    · have hc' : (access s.x c.pc).2 = .done (.bool false) := by simp [hpc, access, heq]
      have hlt : arg.toNat < s.x.toNat :=
        lt_of_le_of_ne hxle fun h => heq (BitVec.eq_of_toNat_eq h.symm)
      rw [hc'] at hu
      simp only [Call.units, hpc, hop, granted] at hu
      refine ⟨L ++ [⟨c.id, c.op, .bool false⟩], ?_, .live ?_ start ?_ ?_ ?_ ?_⟩
      · refine b.accessed hk hadd (b.commit hk hnew _) (fun d _ hne _ => Agree.snoc hne) ?_
        rw [hc']; simp [Placed]
      · refine Plain.append.mpr ⟨plain, ?_⟩
        simp only [Plain, hop, and_true]
        omega
      · rw [count_append, hop, hxn, word]; simp [count, after]
      · omega
      · omega
      · exact parked_accessed b hk (hc' ▸ not_parked_done c _)
          fun d hd hp => ⟨lost_snoc (lost d hd hp).1, (lost d hd hp).2⟩

/-- The credit for the zero goes to the parked decrement `e`, which took effect before
`B`: it is postponed behind the decrement `d` that made the count zero. -/
theorem legal_credit {h : Hist m} {A B Z : List (Entry (Op m) (Ret m))}
    {e t d : Entry (Op m) (Ret m)} {ne nd : Word m} (start : 0 < c₀)
    (heo : e.op = .decrement ne) (hid : t.id = e.id) (heo' : t.op = .decrement ne)
    (her' : t.ret = .bool true) (hdo : d.op = .decrement nd) (hdr : d.ret = .bool false)
    (hne : 0 < ne.toNat) (hplain : Plain c₀ (A ++ e :: B))
    (hcount : count c₀ (A ++ e :: B) = nd.toNat) (hZ : ∀ f ∈ Z, AtZero f)
    (hrt : ∀ f ∈ B, ¬ Precedes h f.id e.id) :
    Legal h c₀ (A ++ ((B ++ [d]) ++ t :: Z)) ∧ count c₀ (A ++ ((B ++ [d]) ++ t :: Z)) = 0 := by
  obtain ⟨hA, hB⟩ := Plain.append.mp hplain
  obtain ⟨he, hB⟩ := hB
  rw [heo] at he hB
  simp only [after] at hB
  rw [count_append] at hcount
  simp only [count, heo, after] at hcount
  set cA := count c₀ A with hcA
  have hlt : ne.toNat < cA := he.1
  have hsum : cA - ne.toNat + ne.toNat = cA := by omega
  have hT : Legal h (nd.toNat + ne.toNat) (d :: t :: Z) := by
    refine ⟨?_, ?_, ?_⟩
    · simp only [Admits, hdo, hdr]
      exact ⟨by omega, by simp; omega⟩
    · simp only [Admits, heo', her', hdo, after]
      exact ⟨by omega, by simp⟩
    · simp only [heo', hdo, after]
      rw [show nd.toNat + ne.toNat - nd.toNat - ne.toNat = 0 by omega]
      exact AtZero.legal hZ
  have hL := Plain.legal_shift (h := h) (n := ne) (T := d :: t :: Z) (d := t) (by simp) heo' her'
    (by omega) hB (fun f hf => hid ▸ hrt f hf) (by rw [hcount]; exact hT)
  rw [hsum] at hL
  refine ⟨?_, ?_⟩
  · have := hA.legal_append (h := h) start hL
    simpa [List.append_assoc] using this
  · rw [count_append, ← hcA, count_append, count_append, ← hsum, hB.count_shift (by omega), hcount]
    simp only [count, hdo, heo', after]
    rw [show nd.toNat + ne.toNat - nd.toNat - ne.toNat = 0 by omega]
    exact AtZero.count hZ

/-- The credited decrement has settled the zero. -/
theorem settled (hk : s.calls[k]? = some c) (hop : ∃ arg, c.op = .decrement arg)
    (hc' : (access s.x c.pc).2 = .done (.bool true)) {L : List (Entry (Op m) (Ret m))}
    (hL : ⟨c.id, c.op, .bool true⟩ ∈ L) :
    c₀ = 0 ∨ ∃ e ∈ L, (∃ arg, e.op = .decrement arg) ∧ e.ret = .bool true ∧
      ((∃ d ∈ (s.accessed k c).calls, d.id = e.id ∧ d.pc = .done (.bool true)) ∨
        Event.res e.id (.bool true) ∈ (s.accessed k c).hist) := by
  refine Or.inr ⟨_, hL, hop, rfl, Or.inl ⟨{ c with pc := (access s.x c.pc).2 }, ?_, rfl, hc'⟩⟩
  exact mem_set_self hk

/-- An access that ends the call with the result it already has in the order, and
leaves the word alone. -/
theorem inv_lost (b : Base s L) (ph : Phase c₀ s L) (hk : s.calls[k]? = some c) {arg : Word m}
    (hop : c.op = .decrement arg) (hcu : c.units = 0) (hadd0 : adds c.pc = 0)
    (hlost : Lost L c) (hnd : ∀ r, c.pc ≠ .done r)
    (hx : (s.accessed k c).x = s.x ∨ (s.accessed k c).x = zeroFlag m ∧ 2 * 2 ^ m ≤ s.x.toNat ∧
      s.x.toNat < 3 * 2 ^ m)
    (hnz : s.x ≠ 0) (hnpend : s.x.toNat < 3 * 2 ^ m)
    (hc' : (access s.x c.pc).2 = .done (.bool false)) : Inv c₀ (s.accessed k c) := by
  have hadded : (s.accessed k c).added = s.added := by simp [State.accessed, hadd0]
  have hu : (s.accessed k c).units = s.units := by
    have := accessed_units hk
    rw [hc', hcu] at this
    simpa [Call.units, hop, granted] using this
  have hnp : ¬ Call.Parked { c with pc := (access s.x c.pc).2 } := hc' ▸ not_parked_done c _
  have hb : Base (s.accessed k c) L := by
    refine b.accessed hk (by rw [hadd0]; exact b.bound) b.lin (fun d _ _ _ e _ => Iff.rfl) ?_
    rw [hc']; exact hlost
  refine ⟨L, hb, ?_⟩
  cases ph with
  | live plain start word units low lost =>
    have := maxValue_eq (m := m)
    have := b.bound
    have := Nat.two_pow_pos m
    have hxx : (s.accessed k c).x = s.x := hx.resolve_right (by omega)
    exact .live plain start (hxx ▸ word) (by rw [hu, hxx, units]) (by rw [hxx, hadded]; exact low)
      (parked_accessed b hk hnp lost)
  | zero a n mem pc plain start word => exact absurd word hnz
  | pending A Z a n order op mem parked plain start open_ zeros word => omega
  | stuck legal zero word units lost one =>
    refine .stuck legal zero ?_ (hu.trans units) (parked_accessed b hk hnp lost) ?_
    · rcases hx with hx | ⟨hx, _⟩
      · rw [hx, hadded]; exact word
      · rw [hx, hadded]; simp
    · refine one.imp id ?_
      rintro ⟨e, he, ho, hr, hw⟩
      exact ⟨e, he, ho, hr, one_accessed b hk hnd hw⟩

/-- `x.compare_exchange_strong(0, zero_flag)` of a parked decrement. -/
theorem inv_decrementCas {arg : Word m} (b : Base s L) (ph : Phase c₀ s L)
    (hk : s.calls[k]? = some c) (hpc : c.pc = .decrementCas arg) : Inv c₀ (s.accessed k c) := by
  have hcm := List.mem_of_getElem? hk
  have hop : c.op = .decrement arg := by simpa [Placed, hpc] using b.placed c hcm
  have harg : 0 < arg.toNat := b.pos c.id arg (hop ▸ (b.running c hcm).1)
  have hcp : c.Parked := ⟨arg, Or.inl hpc⟩
  have hcu : c.units = 0 := by simp [Call.units, hpc]
  have hadd0 : adds c.pc = 0 := by simp [hpc, adds]
  have hadd : s.added + adds c.pc ≤ maxValue m := by rw [hadd0]; exact b.bound
  have hadded : (s.accessed k c).added = s.added := by simp [State.accessed, hadd0]
  have hnd : ∀ r, c.pc ≠ .done r := by intro r h; rw [hpc] at h; cases h
  have hmax := maxValue_eq (m := m)
  have hpow := Nat.two_pow_pos m
  have hbound := b.bound
  have hu := accessed_units hk
  -- the call fails when the word is neither zero nor pending
  have failed : s.x ≠ 0 → ¬ (s.x &&& zeroPendingFlag m ≠ 0) → s.x.toNat < 3 * 2 ^ m → Lost L c →
      Inv c₀ (s.accessed k c) := by
    intro h0 hpend hlt hlost
    exact inv_lost b ph hk hop hcu hadd0 hlost hnd
      (Or.inl (by simp only [State.accessed, hpc, access, if_neg h0, if_neg hpend]))
      h0 hlt (by simp only [hpc, access, if_neg h0, if_neg hpend])
  cases ph with
  | live plain start word units low lost =>
    have hpos := plain.count_pos start
    refine failed (fun h => ?_) (fun h => ?_) (by omega) (lost c hcm hcp).1
    · rw [h] at word; simp at word; omega
    · rcases (and_zeroPendingFlag _).mp h with h | h <;> omega
  | zero a n mem pc plain start word units open_ new lost =>
    have hc' : (access s.x c.pc).2 = .done (.bool true) := by simp [hpc, access, word]
    have hx' : (s.accessed k c).x = zeroFlag m := by simp [State.accessed, hpc, access, word]
    have hnp : ¬ Call.Parked { c with pc := (access s.x c.pc).2 } := hc' ▸ not_parked_done c _
    have hu0 : (s.accessed k c).units = 0 := by
      rw [hc'] at hu
      simp only [Call.units, hpc, hop, granted] at hu
      omega
    have haop : a.op = .decrement n := by simpa [Placed, pc] using b.placed a mem
    obtain ⟨hainv, harun⟩ := b.running a mem
    by_cases hca : c.id = a.id
    · -- the call that made the zero settles it
      have hac : c = a := List.inj_on_of_nodup_map b.nodup hcm mem hca
      subst hac
      have hn : arg = n := by rw [hpc] at pc; cases pc; rfl
      subst hn
      refine ⟨L ++ [⟨c.id, c.op, .bool true⟩], ?_, .stuck ?_ ?_ ?_ hu0 ?_
        (settled hk ⟨arg, hop⟩ hc' (by simp))⟩
      · refine b.accessed hk hadd (b.commit hk new _) (fun d _ hne _ => Agree.snoc hne) ?_
        rw [hc']; simp [Placed]
      · refine plain.legal_append start ⟨?_, trivial⟩
        simp [Admits, hop, open_]
      · rw [count_append, open_, hop]; simp [count, after]
      · rw [hx', hadded]; simp
      · intro d hd hp
        rcases mem_set_of_nodup b.nodup hk hd with ⟨hd, hne⟩ | rfl
        · exact lost_snoc (lost d hd hp hne).1
        · exact absurd hp hnp
    · -- another parked decrement settles it and is postponed behind `a`
      obtain ⟨A, B, hAB⟩ := List.append_of_mem (lost c hcm hcp hca).1
      have hlin := b.lin.commit (e := ⟨a.id, a.op, .bool false⟩) hainv harun
        (fun f hf he => new (List.mem_map.mpr ⟨f, hf, he⟩))
      rw [hAB] at hlin
      have hlin' : Linearization s.hist (A ++ ((B ++ [⟨a.id, a.op, .bool false⟩]) ++
          [⟨c.id, c.op, .bool true⟩])) :=
        Linearization.postpone (x := ⟨c.id, c.op, .bool false⟩) (C := [])
          (by simpa [List.append_assoc] using hlin) rfl rfl (b.running c hcm).2
      obtain ⟨hlegal, hcount⟩ := legal_credit (Z := []) (d := ⟨a.id, a.op, .bool false⟩)
        (e := ⟨c.id, c.op, .bool false⟩) (t := ⟨c.id, c.op, .bool true⟩) start hop rfl hop rfl
        haop rfl harg (hAB ▸ plain)
        (hAB ▸ open_) (by simp) (Linearization.not_precedes (hAB ▸ b.lin))
      have hlostAgree : ∀ d : Call m, d.id ≠ c.id → d.id ≠ a.id →
          Agree L (A ++ ((B ++ [⟨a.id, a.op, .bool false⟩]) ++ [⟨c.id, c.op, .bool true⟩])) d.id := by
        intro d h1 h2 e he
        subst hAB
        simp only [List.mem_append, List.mem_cons, List.not_mem_nil, or_false]
        constructor
        · rintro (h | rfl | h)
          · exact Or.inl h
          · exact absurd he.symm h1
          · exact Or.inr (Or.inl (Or.inl h))
        · rintro (h | (h | rfl) | rfl)
          · exact Or.inl h
          · exact Or.inr (Or.inr h)
          · exact absurd he.symm h2
          · exact absurd he.symm h1
      refine ⟨_, b.accessed hk hadd hlin' ?_ ?_, .stuck hlegal hcount ?_ hu0 ?_
        (settled hk ⟨arg, hop⟩ hc' (by simp))⟩
      · intro d hd hne hp
        refine hlostAgree d hne fun he => hp ?_
        rw [List.inj_on_of_nodup_map b.nodup hd mem he]
        exact ⟨n, Or.inl pc⟩
      · rw [hc']; simp [Placed]
      · rw [hx', hadded]; simp
      · intro d hd hp
        rcases mem_set_of_nodup b.nodup hk hd with ⟨hd, hne⟩ | rfl
        · by_cases hda : d.id = a.id
          · rw [List.inj_on_of_nodup_map b.nodup hd mem hda]; simp [Lost]
          · exact (hlostAgree d hne hda _ rfl).mp (lost d hd hp hda).1
        · exact absurd hp hnp
  | pending A Z a n order op mem parked plain start open_ zeros word units lost =>
    -- the call goes on to its exchange
    have h0 : s.x ≠ 0 := by rintro h; rw [h] at word; simp at word
    have hpend : s.x &&& zeroPendingFlag m ≠ 0 := (and_zeroPendingFlag _).mpr (by omega)
    have hc' : (access s.x c.pc).2 = .decrementExchange arg := by
      simp only [hpc, access, if_neg h0, if_pos hpend]
    have hx' : (s.accessed k c).x = s.x := by
      simp only [State.accessed, hpc, access, if_neg h0, if_pos hpend]
    have hu0 : (s.accessed k c).units = 0 := by
      rw [hc'] at hu
      simp only [Call.units, hpc] at hu
      omega
    have hb : Base (s.accessed k c) L := by
      refine b.accessed hk hadd b.lin (fun d _ _ _ e _ => Iff.rfl) ?_
      rw [hc']; simpa [Placed] using hop
    have hlost : ∀ d ∈ (s.accessed k c).calls, d.Parked → d.id ≠ a.id → Lost A d := by
      intro d hd hp hda
      rcases mem_set_of_nodup b.nodup hk hd with ⟨hd, _⟩ | rfl
      · exact lost d hd hp hda
      · exact lost c hcm hcp hda
    by_cases hca : a.id = c.id
    · have hac := List.inj_on_of_nodup_map b.nodup mem hcm hca
      subst hac
      refine ⟨L, hb, .pending A Z { a with pc := (access s.x a.pc).2 } n order op
        (mem_set_self hk) ⟨arg, Or.inr hc'⟩ plain start open_ zeros ?_ hu0 ?_⟩
      · rw [hx', hadded]; exact word
      · exact hlost
    · refine ⟨L, hb, .pending A Z a n order op (mem_set_of_key_ne (f := Call.id) hk mem hca) parked
        plain start open_ zeros ?_ hu0 hlost⟩
      rw [hx', hadded]; exact word
  | stuck legal zero word units lost one =>
    refine failed (fun h => ?_) (fun h => ?_) (by omega) (lost c hcm hcp)
    · rw [h] at word; simp at word
    · rcases (and_zeroPendingFlag _).mp h with h | h <;> omega

/-- `x.exchange(zero_flag)` of a parked decrement that saw the pending flag. -/
theorem inv_decrementExchange {arg : Word m} (b : Base s L) (ph : Phase c₀ s L)
    (hk : s.calls[k]? = some c) (hpc : c.pc = .decrementExchange arg) :
    Inv c₀ (s.accessed k c) := by
  have hcm := List.mem_of_getElem? hk
  have hop : c.op = .decrement arg := by simpa [Placed, hpc] using b.placed c hcm
  have harg : 0 < arg.toNat := b.pos c.id arg (hop ▸ (b.running c hcm).1)
  have hcp : c.Parked := ⟨arg, Or.inr hpc⟩
  have hcu : c.units = 0 := by simp [Call.units, hpc]
  have hadd0 : adds c.pc = 0 := by simp [hpc, adds]
  have hadd : s.added + adds c.pc ≤ maxValue m := by rw [hadd0]; exact b.bound
  have hadded : (s.accessed k c).added = s.added := by simp [State.accessed, hadd0]
  have hnd : ∀ r, c.pc ≠ .done r := by intro r h; rw [hpc] at h; cases h
  have hx' : (s.accessed k c).x = zeroFlag m := by simp only [State.accessed, hpc, access]
  have hmax := maxValue_eq (m := m)
  have hpow := Nat.two_pow_pos m
  have hbound := b.bound
  have hcas : ∀ arg', c.pc ≠ .decrementCas arg' := by intro a h; rw [hpc] at h; cases h
  cases ph with
  | live plain start word units low lost =>
    obtain ⟨_, arg', h⟩ := lost c hcm hcp
    exact absurd h (hcas arg')
  | zero a n mem pc plain start word units open_ new lost =>
    by_cases hca : c.id = a.id
    · rw [← List.inj_on_of_nodup_map b.nodup hcm mem hca] at pc
      exact absurd pc (hcas n)
    · obtain ⟨_, arg', h⟩ := lost c hcm hcp hca
      exact absurd h (hcas arg')
  | pending A Z a n order op mem parked plain start open_ zeros word units lost =>
    have hpend : s.x &&& zeroPendingFlag m ≠ 0 := (and_zeroPendingFlag _).mpr (by omega)
    have hc' : (access s.x c.pc).2 = .done (.bool true) := by
      simp only [hpc, access, decide_eq_true hpend]
    have hnp : ¬ Call.Parked { c with pc := (access s.x c.pc).2 } := hc' ▸ not_parked_done c _
    have hu0 : (s.accessed k c).units = 0 := by
      have hu := accessed_units hk
      rw [hc', hcu] at hu
      simp only [Call.units, hop, granted] at hu
      omega
    by_cases hca : c.id = a.id
    · have hac : c = a := List.inj_on_of_nodup_map b.nodup hcm mem hca
      subst hac
      refine ⟨L, b.accessed hk hadd b.lin (fun d _ _ _ e _ => Iff.rfl) ?_, .stuck ?_ ?_ ?_ hu0 ?_
        (settled hk ⟨arg, hop⟩ hc' (by rw [order]; simp))⟩
      · rw [hc', order]; simp [Placed]
      · rw [order]
        refine plain.legal_append start ⟨?_, ?_⟩
        · simp [Admits, op, open_]
        · simp only [op, open_, after, Nat.sub_self]
          exact AtZero.legal zeros
      · rw [order, count_append, open_]
        simp only [count, op, after, Nat.sub_self]
        exact AtZero.count zeros
      · rw [hx', hadded]; simp
      · intro d hd hp
        rcases mem_set_of_nodup b.nodup hk hd with ⟨hd, hne⟩ | rfl
        · rw [order]; exact List.mem_append_left _ (lost d hd hp hne)
        · exact absurd hp hnp
    · -- the credit moves from `a`, which keeps its place, to the call
      obtain ⟨A₁, A₂, hA⟩ := List.append_of_mem (lost c hcm hcp hca)
      have hlinL := b.lin
      rw [order] at hlinL
      have hlin₁ := hlinL.revise (y := ⟨a.id, a.op, .bool false⟩) rfl rfl (b.running a mem).2
      rw [hA] at hlin₁ hlinL
      have hlin₂ : Linearization s.hist (A₁ ++ ((A₂ ++ [⟨a.id, a.op, .bool false⟩]) ++
          ⟨c.id, c.op, .bool true⟩ :: Z)) :=
        Linearization.postpone (x := ⟨c.id, c.op, .bool false⟩)
          (by simpa [List.append_assoc] using hlin₁) rfl rfl (b.running c hcm).2
      rw [List.append_assoc, List.cons_append] at hlinL
      obtain ⟨hlegal, hcount⟩ := legal_credit (Z := Z) (d := ⟨a.id, a.op, .bool false⟩)
        (e := ⟨c.id, c.op, .bool false⟩) (t := ⟨c.id, c.op, .bool true⟩) start hop rfl hop rfl op rfl
        harg (hA ▸ plain) (hA ▸ open_) zeros
        (fun f hf => hlinL.not_precedes f (List.mem_append_left _ hf))
      have hagree : ∀ d : Call m, d.id ≠ c.id → d.id ≠ a.id →
          Agree L (A₁ ++ ((A₂ ++ [⟨a.id, a.op, .bool false⟩]) ++ ⟨c.id, c.op, .bool true⟩ :: Z)) d.id := by
        intro d h1 h2 e he
        subst hA
        rw [order]
        simp only [List.mem_append, List.mem_cons, List.not_mem_nil, or_false]
        constructor
        · rintro ((h | rfl | h) | rfl | h)
          · exact Or.inl h
          · exact absurd he.symm h1
          · exact Or.inr (Or.inl (Or.inl h))
          · exact absurd he.symm h2
          · exact Or.inr (Or.inr (Or.inr h))
        · rintro (h | (h | rfl) | rfl | h)
          · exact Or.inl (Or.inl h)
          · exact Or.inl (Or.inr (Or.inr h))
          · exact absurd he.symm h2
          · exact absurd he.symm h1
          · exact Or.inr (Or.inr h)
      refine ⟨_, b.accessed hk hadd hlin₂ ?_ ?_, .stuck hlegal hcount ?_ hu0 ?_
        (settled hk ⟨arg, hop⟩ hc' (by simp))⟩
      · intro d hd hne hp
        refine hagree d hne fun he => hp ?_
        rw [List.inj_on_of_nodup_map b.nodup hd mem he]
        exact parked
      · rw [hc']; simp [Placed]
      · rw [hx', hadded]; simp
      · intro d hd hp
        rcases mem_set_of_nodup b.nodup hk hd with ⟨hd, hne⟩ | rfl
        · by_cases hda : d.id = a.id
          · rw [List.inj_on_of_nodup_map b.nodup hd mem hda]; simp [Lost]
          · exact (hagree d hne hda _ rfl).mp (by rw [order]; exact List.mem_append_left _ (lost d hd hp hda))
        · exact absurd hp hnp
  | stuck legal zero word units lost one =>
    have hpend : ¬ (s.x &&& zeroPendingFlag m ≠ 0) := by
      intro h
      rcases (and_zeroPendingFlag _).mp h with h | h <;> omega
    refine inv_lost b (.stuck legal zero word units lost one) hk hop hcu hadd0 (lost c hcm hcp) hnd
      (Or.inr ⟨hx', by omega, by omega⟩) ?_ (by omega)
      (by simp only [hpc, access, decide_eq_false hpend])
    intro h
    rw [h] at word; simp at word

/-- The last access of a `load` on a word that is not zero. -/
theorem inv_loadResult (b : Base s L) (ph : Phase c₀ s L) (hk : s.calls[k]? = some c)
    (hop : c.op = .load) (hnew : c.id ∉ L.map Entry.id) (hcu : c.units = 0) (hadd0 : adds c.pc = 0)
    (hnd : ∀ r, c.pc ≠ .done r) (hnp₀ : ¬ c.Parked) (h0 : s.x ≠ 0)
    (hacc : access s.x c.pc = (s.x, .done (loadResult s.x))) : Inv c₀ (s.accessed k c) := by
  have hcm := List.mem_of_getElem? hk
  have hc' : (access s.x c.pc).2 = .done (loadResult s.x) := by rw [hacc]
  have hx' : (s.accessed k c).x = s.x := by simp only [State.accessed, hacc]
  have hadd : s.added + adds c.pc ≤ maxValue m := by rw [hadd0]; exact b.bound
  have hadded : (s.accessed k c).added = s.added := by simp [State.accessed, hadd0]
  have hnp : ¬ Call.Parked { c with pc := (access s.x c.pc).2 } := hc' ▸ not_parked_done c _
  have hmax := maxValue_eq (m := m)
  have hpow := Nat.two_pow_pos m
  have hbound := b.bound
  have hu : (s.accessed k c).units = s.units := by
    have := accessed_units hk
    rw [hc', hcu] at this
    simpa [Call.units, hop, granted] using this
  have hb : Base (s.accessed k c) (L ++ [⟨c.id, c.op, loadResult s.x⟩]) := by
    refine b.accessed hk hadd (b.commit hk hnew _) (fun d _ hne _ => Agree.snoc hne) ?_
    rw [hc']; simp [Placed]
  have hzero : 2 * 2 ^ m ≤ s.x.toNat →
      AtZero (⟨c.id, c.op, loadResult s.x⟩ : Entry (Op m) (Ret m)) := by
    intro hf
    have hflag : s.x &&& zeroFlag m ≠ 0 := fun h => by have := (and_zeroFlag _).mp h; omega
    simp only [AtZero, hop, loadResult, if_pos hflag]
  cases ph with
  | live plain start word units low lost =>
    have hflag : ¬ s.x &&& zeroFlag m ≠ 0 := fun h => h ((and_zeroFlag _).mpr (by omega))
    refine ⟨_, hb, .live (Plain.append.mpr ⟨plain, ?_⟩) start ?_ (by rw [hu, hx', units])
      (by rw [hx', hadded]; exact low)
      (parked_accessed b hk hnp fun d hd hp => ⟨lost_snoc (lost d hd hp).1, (lost d hd hp).2⟩)⟩
    · simp only [Plain, hop, and_true, loadResult, if_neg hflag]
      exact ⟨s.x, rfl, word⟩
    · rw [hx', word, count_append, hop]; rfl
  | zero a n mem pc plain start word => exact absurd word h0
  | pending A Z a n order op mem parked plain start open_ zeros word units lost =>
    have hne : a.id ≠ c.id := fun he =>
      hnp₀ (List.inj_on_of_nodup_map b.nodup mem hcm he ▸ parked)
    refine ⟨_, hb, .pending A (Z ++ [⟨c.id, c.op, loadResult s.x⟩]) a n (by rw [order]; simp) op
      (mem_set_of_key_ne (f := Call.id) hk mem hne) parked plain start open_ ?_
      (by rw [hx', hadded]; exact word) (hu.trans units) (parked_accessed b hk hnp lost)⟩
    intro e he
    rcases List.mem_append.mp he with he | he
    · exact zeros e he
    · simp only [List.mem_singleton] at he; exact he ▸ hzero (by omega)
  | stuck legal zero word units lost one =>
    obtain ⟨hl, hc0⟩ := Phase.stuck_snoc legal zero (hzero (by omega))
    refine ⟨_, hb, .stuck hl hc0 (by rw [hx', hadded]; exact word) (hu.trans units)
      (parked_accessed b hk hnp fun d hd hp => lost_snoc (lost d hd hp)) (one.imp id ?_)⟩
    rintro ⟨e, he, ho, hr, hw⟩
    exact ⟨e, by simp [he], ho, hr, one_accessed b hk hnd hw⟩

theorem inv_load (b : Base s L) (ph : Phase c₀ s L) (hk : s.calls[k]? = some c)
    (hpc : c.pc = .load) : Inv c₀ (s.accessed k c) := by
  have hcm := List.mem_of_getElem? hk
  obtain ⟨hop, hnew⟩ : c.op = .load ∧ c.id ∉ L.map Entry.id := by
    simpa [Placed, hpc] using b.placed c hcm
  have hcu : c.units = 0 := by simp [Call.units, hpc]
  have hadd0 : adds c.pc = 0 := by simp [hpc, adds]
  have hnp₀ : ¬ c.Parked := by rintro ⟨arg, h | h⟩ <;> rw [hpc] at h <;> cases h
  by_cases h0 : s.x = 0
  · have hc' : (access s.x c.pc).2 = .loadCas := by simp only [hpc, access, if_pos h0]
    have hx' : (s.accessed k c).x = s.x := by simp only [State.accessed, hpc, access]
    have hnp : ¬ Call.Parked { c with pc := (access s.x c.pc).2 } := by
      rw [hc']; rintro ⟨arg, h | h⟩ <;> cases h
    have hu : (s.accessed k c).units = s.units := by
      have := accessed_units hk
      rw [hc', hcu] at this
      simpa [Call.units] using this
    have hb : Base (s.accessed k c) L := by
      refine b.accessed hk (by rw [hadd0]; exact b.bound) b.lin (fun d _ _ _ e _ => Iff.rfl) ?_
      rw [hc']; exact ⟨hop, hnew⟩
    -- only a decrement that has not taken effect leaves the word at zero
    cases ph with
    | live plain start word units low lost =>
      have := plain.count_pos start
      rw [h0] at word; simp at word; omega
    | zero a n mem pc plain start word units open_ new lost =>
      have hne : a.id ≠ c.id := fun he =>
        hnp₀ (List.inj_on_of_nodup_map b.nodup mem hcm he ▸ ⟨n, Or.inl pc⟩)
      exact ⟨L, hb, .zero a n (mem_set_of_key_ne (f := Call.id) hk mem hne) pc plain start
        (hx'.trans word) (hu.trans units) open_ new (parked_accessed b hk hnp lost)⟩
    | pending A Z a n order op mem parked plain start open_ zeros word =>
      rw [h0] at word; simp at word
    | stuck legal zero word => rw [h0] at word; simp at word
  · exact inv_loadResult b ph hk hop hnew hcu hadd0 (by intro r h; rw [hpc] at h; cases h) hnp₀ h0
      (by simp only [hpc, access, if_neg h0])

/-- `x.compare_exchange_strong(0, zero_flag | zero_pending_flag)` of a `load`. On success the
decrement that had not taken effect does, and the credit stays open. -/
theorem inv_loadCas (b : Base s L) (ph : Phase c₀ s L) (hk : s.calls[k]? = some c)
    (hpc : c.pc = .loadCas) : Inv c₀ (s.accessed k c) := by
  have hcm := List.mem_of_getElem? hk
  obtain ⟨hop, hnew⟩ : c.op = .load ∧ c.id ∉ L.map Entry.id := by
    simpa [Placed, hpc] using b.placed c hcm
  have hcu : c.units = 0 := by simp [Call.units, hpc]
  have hadd0 : adds c.pc = 0 := by simp [hpc, adds]
  have hnp₀ : ¬ c.Parked := by rintro ⟨arg, h | h⟩ <;> rw [hpc] at h <;> cases h
  by_cases h0 : s.x = 0
  · have hc' : (access s.x c.pc).2 = .done (.val 0) := by simp only [hpc, access, if_pos h0]
    have hx' : (s.accessed k c).x = zeroFlag m ||| zeroPendingFlag m := by
      simp only [State.accessed, hpc, access, if_pos h0]
    have hnp : ¬ Call.Parked { c with pc := (access s.x c.pc).2 } := hc' ▸ not_parked_done c _
    have hadded : (s.accessed k c).added = s.added := by simp [State.accessed, hadd0]
    have hu : (s.accessed k c).units = s.units := by
      have := accessed_units hk
      rw [hc', hcu] at this
      simpa [Call.units, hop, granted] using this
    cases ph with
    | live plain start word units low lost =>
      have := plain.count_pos start
      rw [h0] at word; simp at word; omega
    | zero a n mem pc plain start word units open_ new lost =>
      have hne : a.id ≠ c.id := fun he =>
        hnp₀ (List.inj_on_of_nodup_map b.nodup mem hcm he ▸ ⟨n, Or.inl pc⟩)
      have haop : a.op = .decrement n := by simpa [Placed, pc] using b.placed a mem
      obtain ⟨hainv, harun⟩ := b.running a mem
      obtain ⟨hcinv, hcrun⟩ := b.running c hcm
      have hlin₁ := b.lin.commit (e := ⟨a.id, a.op, .bool true⟩) hainv harun
        (fun f hf he => new (List.mem_map.mpr ⟨f, hf, he⟩))
      have hlin₂ := hlin₁.commit (e := ⟨c.id, c.op, .val 0⟩) hcinv hcrun (by
        intro f hf he
        rcases List.mem_append.mp hf with hf | hf
        · exact hnew (List.mem_map.mpr ⟨f, hf, he⟩)
        · simp only [List.mem_singleton] at hf
          subst hf
          exact hne he)
      refine ⟨_, b.accessed hk (by rw [hadd0]; exact b.bound) hlin₂ ?_ ?_,
        .pending L [⟨c.id, c.op, .val 0⟩] a n (by simp) haop
          (mem_set_of_key_ne (f := Call.id) hk mem hne) ⟨n, Or.inl pc⟩ plain start open_ ?_ ?_
          (hu.trans units) ?_⟩
      · intro d hd hdc hp e he
        have hda : d.id ≠ a.id := fun h =>
          hp (List.inj_on_of_nodup_map b.nodup hd mem h ▸ ⟨n, Or.inl pc⟩)
        exact (Agree.snoc hda e he).trans (Agree.snoc hdc e he)
      · rw [hc']; simp [Placed]
      · intro e he
        simp only [List.mem_singleton] at he
        simp [he, AtZero, hop]
      · rw [hx', hadded, toNat_zeroFlag_or]; omega
      · exact parked_accessed b hk hnp fun d hd hp hda => (lost d hd hp hda).1
    | pending A Z a n order op mem parked plain start open_ zeros word =>
      rw [h0] at word; simp at word
    | stuck legal zero word => rw [h0] at word; simp at word
  · exact inv_loadResult b ph hk hop hnew hcu hadd0 (by intro r h; rw [hpc] at h; cases h) hnp₀ h0
      (by simp only [hpc, access, if_neg h0])

/-- An invocation. A decrement takes its units out of the pool. -/
theorem inv_invoke (b : Base s L) (ph : Phase c₀ s L) {o : Op m} {owned : Nat}
    (hpos : ∀ arg, o = .decrement arg → 0 < arg.toNat)
    (hown : owned + Call.units ⟨s.nextId, o, start o⟩ = s.owned) : Inv c₀ (s.invoke o owned) := by
  have hnewL : ∀ e ∈ L, e.id ≠ s.nextId := fun e he =>
    Nat.ne_of_lt (b.freshInv e.id e.op (b.lin.invoked e he))
  have hnp : ¬ Call.Parked (⟨s.nextId, o, start o⟩ : Call m) := by
    rintro ⟨arg, h | h⟩ <;> cases o <;> cases h
  have hu : (s.invoke o owned).units = s.units := by
    simp only [State.units, State.invoke, List.map_append, List.sum_append, List.map_cons,
      List.map_nil, List.sum_cons, List.sum_nil]
    omega
  have hpark : ∀ {P : Call m → Prop}, (∀ d ∈ s.calls, d.Parked → P d) →
      ∀ d ∈ (s.invoke o owned).calls, d.Parked → P d := by
    intro P h d hd hp
    rcases List.mem_append.mp hd with hd | hd
    · exact h d hd hp
    · simp only [List.mem_singleton] at hd; exact absurd (hd ▸ hp) hnp
  refine ⟨L, ?_, ?_⟩
  · refine ⟨b.lin.invoke hnewL, b.bound, ?_, ?_, ?_, ?_, ?_, ?_, ?_⟩
    · simp only [State.invoke, List.map_append, List.map_cons, List.map_nil]
      rw [List.nodup_append]
      refine ⟨b.nodup, by simp, ?_⟩
      rintro _ hx _ hy rfl
      obtain ⟨d, hd, rfl⟩ := List.mem_map.mp hx
      simp only [List.mem_singleton] at hy
      exact absurd hy (Nat.ne_of_lt (b.fresh d hd))
    · intro d hd
      rcases List.mem_append.mp hd with hd | hd
      · exact Nat.lt_succ_of_lt (b.fresh d hd)
      · simp only [List.mem_singleton] at hd; subst hd; exact Nat.lt_succ_self _
    · intro i o' hi
      rcases List.mem_append.mp hi with hi | hi
      · exact Nat.lt_succ_of_lt (b.freshInv i o' hi)
      · simp only [List.mem_singleton, Event.inv.injEq] at hi
        rw [hi.1]; exact Nat.lt_succ_self _
    · intro d hd
      rcases List.mem_append.mp hd with hd | hd
      · obtain ⟨h1, h2⟩ := b.running d hd
        exact ⟨List.mem_append_left _ h1, fun r hr => by
          rcases List.mem_append.mp hr with hr | hr
          · exact h2 r hr
          · simp at hr⟩
      · simp only [List.mem_singleton] at hd
        subst hd
        refine ⟨by simp [State.invoke], fun r hr => ?_⟩
        rcases List.mem_append.mp hr with hr | hr
        · obtain ⟨e, he, hid, _⟩ := b.lin.complete _ _ hr
          exact hnewL e he hid
        · simp at hr
    · intro d hd
      rcases List.mem_append.mp hd with hd | hd
      · exact b.placed d hd
      · simp only [List.mem_singleton] at hd
        subst hd
        have hids : s.nextId ∉ L.map Entry.id := by
          intro h
          obtain ⟨e, he, hid⟩ := List.mem_map.mp h
          exact hnewL e he hid
        cases o <;> simpa [Placed, start] using hids
    · intro i arg hi
      rcases List.mem_append.mp hi with hi | hi
      · exact b.pos i arg hi
      · simp only [List.mem_singleton, Event.inv.injEq] at hi
        exact hpos arg hi.2.symm
    · intro i o₁ o₂ h₁ h₂
      rcases List.mem_append.mp h₁ with h₁ | h₁ <;> rcases List.mem_append.mp h₂ with h₂ | h₂
      · exact b.uniq i o₁ o₂ h₁ h₂
      · simp only [List.mem_singleton, Event.inv.injEq] at h₂
        exact absurd h₂.1 (Nat.ne_of_lt (b.freshInv i o₁ h₁))
      · simp only [List.mem_singleton, Event.inv.injEq] at h₁
        exact absurd h₁.1 (Nat.ne_of_lt (b.freshInv i o₂ h₂))
      · simp only [List.mem_singleton, Event.inv.injEq] at h₁ h₂
        rw [h₁.2, h₂.2]
  · cases ph with
    | live plain start word units low lost =>
      exact .live plain start word (hu.trans units) low (hpark lost)
    | zero a n mem pc plain start word units open_ new lost =>
      exact .zero a n (List.mem_append_left _ mem) pc plain start word (hu.trans units) open_ new
        (hpark lost)
    | pending A Z a n order op mem parked plain start open_ zeros word units lost =>
      exact .pending A Z a n order op (List.mem_append_left _ mem) parked plain start open_ zeros
        word (hu.trans units) (hpark lost)
    | stuck legal zero word units lost one =>
      refine .stuck ?_ zero word (hu.trans units) (hpark lost) (one.imp id ?_)
      · exact legal.hist_mono fun a _ d hd hp =>
          (precedes_invoke (hnewL d hd)).mp hp
      · rintro ⟨e, he, ho, hr, hw⟩
        refine ⟨e, he, ho, hr, hw.imp ?_ fun h => List.mem_append_left _ h⟩
        rintro ⟨d, hd, h⟩
        exact ⟨d, List.mem_append_left _ hd, h⟩

/-- A response. An increment that returns `true` hands its units to the pool. -/
theorem inv_ret {r : Ret m} (b : Base s L) (ph : Phase c₀ s L) (hk : s.calls[k]? = some c)
    (hpc : c.pc = .done r) :
    Inv c₀ { s with calls := s.calls.eraseIdx k, owned := s.owned + granted c.op r,
                    hist := s.hist ++ [.res c.id r] } := by
  have hcm := List.mem_of_getElem? hk
  have hcL : ⟨c.id, c.op, r⟩ ∈ L := by simpa [Placed, hpc] using b.placed c hcm
  have hsub : ∀ d ∈ s.calls.eraseIdx k, d ∈ s.calls := fun d hd => List.mem_of_mem_eraseIdx hd
  have hne : ∀ d ∈ s.calls.eraseIdx k, d.id ≠ c.id := fun d hd =>
    key_ne_of_mem_eraseIdx (f := Call.id) b.nodup hk hd
  set s' : State m := { s with calls := s.calls.eraseIdx k, owned := s.owned + granted c.op r,
                               hist := s.hist ++ [.res c.id r] } with hs'
  have hu : s'.units = s.units := by
    have h := sum_map_eraseIdx Call.units s.calls k c hk
    have hc : c.units = granted c.op r := by simp [Call.units, hpc]
    simp only [State.units, hs']
    omega
  have hkeep : ∀ a ∈ s.calls, a.Parked → a ∈ s.calls.eraseIdx k := by
    intro a ha hp
    refine mem_eraseIdx_of_key_ne (f := Call.id) hk ha fun he => ?_
    obtain ⟨arg, h | h⟩ := hp <;>
      rw [List.inj_on_of_nodup_map b.nodup ha hcm he, hpc] at h <;> cases h
  have hb : Base s' L := by
    refine ⟨b.lin.respond hcL, b.bound, ?_, fun d hd => b.fresh d (hsub d hd), ?_, ?_,
      fun d hd => b.placed d (hsub d hd), ?_, ?_⟩
    · exact b.nodup.sublist ((List.eraseIdx_sublist s.calls k).map _)
    · intro i o hi
      rcases List.mem_append.mp hi with hi | hi
      · exact b.freshInv i o hi
      · simp at hi
    · intro d hd
      obtain ⟨h1, h2⟩ := b.running d (hsub d hd)
      refine ⟨List.mem_append_left _ h1, fun r' hr => ?_⟩
      rcases List.mem_append.mp hr with hr | hr
      · exact h2 r' hr
      · simp only [List.mem_singleton, Event.res.injEq] at hr
        exact hne d hd hr.1
    · intro i arg hi
      rcases List.mem_append.mp hi with hi | hi
      · exact b.pos i arg hi
      · simp at hi
    · intro i o₁ o₂ h₁ h₂
      exact b.uniq i o₁ o₂ (by simpa [hs'] using h₁) (by simpa [hs'] using h₂)
  refine ⟨L, hb, ?_⟩
  cases ph with
  | live plain start word units low lost =>
    exact .live plain start word (hu.trans units) low fun d hd => lost d (hsub d hd)
  | zero a n mem pc plain start word units open_ new lost =>
    exact .zero a n (hkeep a mem ⟨n, Or.inl pc⟩) pc plain start word (hu.trans units) open_ new
      fun d hd => lost d (hsub d hd)
  | pending A Z a n order op mem parked plain start open_ zeros word units lost =>
    exact .pending A Z a n order op (hkeep a mem parked) parked plain start open_ zeros word
      (hu.trans units) fun d hd => lost d (hsub d hd)
  | stuck legal zero word units lost one =>
    refine .stuck ?_ zero word (hu.trans units) (fun d hd => lost d (hsub d hd)) (one.imp id ?_)
    · exact legal.hist_mono fun a _ d _ hp => precedes_respond.mp hp
    · rintro ⟨e, he, ho, hr, hw⟩
      refine ⟨e, he, ho, hr, ?_⟩
      rcases hw with ⟨d, hd, hid, hdpc⟩ | h
      · by_cases hdc : d.id = c.id
        · have := List.inj_on_of_nodup_map b.nodup hd hcm hdc
          subst this
          rw [hpc] at hdpc
          cases hdpc
          exact Or.inr (by simp [hs', hid])
        · exact Or.inl ⟨d, mem_eraseIdx_of_key_ne (f := Call.id) hk hd hdc, hid, hdpc⟩
      · exact Or.inr (List.mem_append_left _ h)

end Steps

/-! ## Every run -/

/-- A `decrement` releases at least one unit. -/
def Releases (_ : State m) : Label m → Prop
  | .call (.decrement arg) => arg ≠ 0
  | _ => True

instance (s : State m) (l : Label m) : Decidable (Releases s l) := by
  unfold Releases; split <;> infer_instance

theorem inv_init (desired : Word m) {s : State m} (h : (machine desired).init s) :
    Inv desired.toNat s := by
  obtain ⟨hmax, rfl⟩ := h
  refine ⟨[], ⟨Linearization.nil, hmax, by simp, by simp, by simp, by simp, by simp, by simp,
    by simp⟩, ?_⟩
  by_cases h0 : desired = 0
  · subst h0
    refine .stuck trivial rfl ?_ (by simp [State.units]) (by simp) (Or.inl rfl)
    simp [construct]
  · have hx : construct desired = desired := if_neg h0
    refine .live trivial ?_ (by rw [hx]; rfl) (by simp [State.units, hx]) (by rw [hx]) (by simp)
    exact Nat.pos_of_ne_zero fun h => h0 (BitVec.eq_of_toNat_eq (by simpa using h))

theorem inv_next {c₀ : Nat} {s s' : State m} {l : Label m} (hi : Inv c₀ s) (hr : Releases s l)
    (h : next s l = some s') : Inv c₀ s' := by
  obtain ⟨L, b, ph⟩ := hi
  cases l with
  | call o =>
    cases o with
    | decrement arg =>
      simp only [next] at h
      split at h
      · rename_i hle
        cases h
        refine inv_invoke b ph ?_ (by simp only [Call.units, start]; omega)
        rintro _ ⟨⟩
        exact Nat.pos_of_ne_zero fun h => hr (BitVec.eq_of_toNat_eq (by simpa using h))
      · cases h
    | increment arg =>
      simp only [next, Option.some.injEq] at h
      subst h
      exact inv_invoke b ph (by rintro _ ⟨⟩) (by simp [Call.units, start])
    | load =>
      simp only [next, Option.some.injEq] at h
      subst h
      exact inv_invoke b ph (by rintro _ ⟨⟩) (by simp [Call.units, start])
  | access k =>
    simp only [next] at h
    split at h
    · cases h
    · cases h
    · rename_i c hdone hk
      split at h
      · rename_i hadd
        cases h
        cases hpc : c.pc with
        | increment arg => exact inv_increment b ph hk hpc hadd
        | decrement arg => exact inv_decrement b ph hk hpc hadd
        | decrementCas arg => exact inv_decrementCas b ph hk hpc
        | decrementExchange arg => exact inv_decrementExchange b ph hk hpc
        | load => exact inv_load b ph hk hpc
        | loadCas => exact inv_loadCas b ph hk hpc
        | done r => exact (hdone c.id c.op r (by rw [← hpc])).elim
      · cases h
  | ret k =>
    simp only [next] at h
    split at h
    · rename_i i o r hk
      cases h
      exact inv_ret b ph hk rfl
    · cases h

theorem inv_of_reach {desired : Word m} {s : State m}
    (h : ((machine desired).restrict Releases).Reach s) : Inv desired.toNat s := by
  refine Machine.Reach.invariant (M := (machine desired).restrict Releases)
    (fun s hs => inv_init desired hs) (fun s l s' hi hn => ?_) h
  obtain ⟨hr, hn⟩ := Machine.restrict_next.mp hn
  exact inv_next hi hr hn

/-! ## What a legal order says -/

section Consequences
variable {h : Hist m} {c₀ : Nat} {L : List (Entry (Op m) (Ret m))}

theorem Phase.legal {s : State m} (ph : Phase c₀ s L) : Legal s.hist c₀ L := by
  cases ph with
  | live plain start => simpa using plain.legal_append (h := s.hist) (T := []) start trivial
  | zero a n mem pc plain start => simpa using plain.legal_append (h := s.hist) (T := []) start trivial
  | pending A Z a n order op mem parked plain start open_ zeros =>
    rw [order]
    refine plain.legal_append start ⟨?_, ?_⟩
    · simp [Admits, op, open_]
    · simp only [op, open_, after, Nat.sub_self]
      exact AtZero.legal zeros
  | stuck legal => exact legal

theorem Counter.Legal.split {A B : List (Entry (Op m) (Ret m))} {e : Entry (Op m) (Ret m)} {c : Nat}
    (hL : Legal h c (A ++ e :: B)) :
    Admits h (count c A) e B ∧ Legal h (after (count c A) e.op) B := by
  induction A generalizing c with
  | nil => exact hL
  | cons f A ih => exact ih hL.2

/-- At zero nothing succeeds any more and no unit is left to release. -/
theorem Counter.Legal.at_zero (hL : Legal h 0 L) {e : Entry (Op m) (Ret m)} (he : e ∈ L) :
    (∀ arg, e.op = .increment arg → e.ret = .bool false) ∧ (e.op = .load → e.ret = .val 0) ∧
      ∀ arg, e.op = .decrement arg → arg.toNat = 0 := by
  induction L with
  | nil => simp at he
  | cons f L ih =>
    have hf := hL.1
    unfold Admits at hf
    have h0 : after 0 f.op = 0 := by cases f.op <;> simp [after]
    rcases List.mem_cons.mp he with rfl | he
    · cases ho : e.op with
      | increment arg => simp only [ho] at hf; simp [hf]
      | decrement arg => simp only [ho] at hf; simp; omega
      | load =>
        simp only [ho] at hf
        obtain ⟨v, hv, hf | ⟨d, _, arg, _, _, hsum, hpos, _⟩⟩ := hf
        · have : v = 0 := BitVec.eq_of_toNat_eq (by simpa using hf)
          simp [hv, this]
        · omega
    · exact ih (h0 ▸ hL.2) he

/-- A decrement that returned `true` and a load that returned zero leave the counter at
zero. -/
def Counter.Zeroes (e : Entry (Op m) (Ret m)) : Prop :=
  (∃ arg, e.op = .decrement arg ∧ e.ret = .bool true) ∨ (e.op = .load ∧ e.ret = .val 0)

theorem Counter.Legal.zeroes {A B : List (Entry (Op m) (Ret m))} {e : Entry (Op m) (Ret m)} {c : Nat}
    (hL : Legal h c (A ++ e :: B)) (hz : Zeroes e) : Legal h 0 B := by
  obtain ⟨he, hB⟩ := hL.split
  unfold Admits at he
  rcases hz with ⟨arg, ho, hr⟩ | ⟨ho, hr⟩
  · rw [ho] at he hB
    obtain ⟨_, he⟩ := he
    rw [hr] at he
    simp only [Ret.bool.injEq, true_eq_decide_iff] at he
    simpa [after, he] using hB
  · rw [ho] at he hB
    obtain ⟨v, hv, he⟩ := he
    rw [hr, Ret.val.injEq] at hv
    subst hv
    rcases he with he | ⟨d, _, arg, _, _, _, hpos, _⟩
    · have h0 : count c A = 0 := by simpa using he.symm
      simpa [after, h0] using hB
    · simp at hpos

/-- Two calls of an order: one of them comes first. -/
theorem order_cases {e f : Entry (Op m) (Ret m)} (he : e ∈ L) (hf : f ∈ L) (hne : e ≠ f) :
    (∃ A B, L = A ++ e :: B ∧ f ∈ B) ∨ ∃ A B, L = A ++ f :: B ∧ e ∈ B := by
  obtain ⟨A, B, rfl⟩ := List.append_of_mem he
  rcases List.mem_append.mp hf with hf | hf
  · obtain ⟨A', B', rfl⟩ := List.append_of_mem hf
    exact Or.inr ⟨A', B' ++ e :: B, by simp, by simp⟩
  · rcases List.mem_cons.mp hf with rfl | hf
    · exact absurd rfl hne
    · exact Or.inl ⟨A, B, rfl, hf⟩

/-- The entry of a call that has responded. -/
theorem Base.entry {s : State m} (b : Base s L) {i : Nat} {o : Op m} {r : Ret m}
    (hi : Event.inv i o ∈ s.hist) (hr : Event.res i r ∈ s.hist) : ⟨i, o, r⟩ ∈ L := by
  obtain ⟨⟨i', o', r'⟩, he, rfl, rfl⟩ := b.lin.complete i r hr
  rw [b.uniq _ _ _ hi (b.lin.invoked _ he)]
  exact he

end Consequences

/-- **The counter is linearizable up to the slack of a load.** Every history of every run is
equivalent, in real-time order, to a sequential counter on which increments and
decrements return exactly what the code returned, and a load the count or, in front of
the overlapping decrement that gets the credit for the zero, the count without its
units. Once all units are released and no decrement is running, exactly one decrement
has returned `true`; and after it, or after a load that returned zero, every increment
fails and every load returns zero. -/
theorem history_linearizable (desired : Word m) {s : State m}
    (h : ((machine desired).restrict Releases).Reach s) :
    Linearizable (Legal s.hist desired.toNat) s.hist ∧
    (desired ≠ 0 → s.units = 0 → (∀ c ∈ s.calls, ∀ arg, c.op ≠ .decrement arg) →
      ∃! i, ∃ arg, Event.inv i (.decrement arg) ∈ s.hist ∧ Event.res i (.bool true) ∈ s.hist) ∧
    ∀ z j o o' r r', Event.inv z o ∈ s.hist → Event.res z r ∈ s.hist → Zeroes ⟨z, o, r⟩ →
      Precedes s.hist z j → Event.inv j o' ∈ s.hist → Event.res j r' ∈ s.hist →
      (∀ arg, o' = .increment arg → r' = .bool false) ∧ (o' = .load → r' = .val 0) := by
  obtain ⟨L, b, ph⟩ := inv_of_reach h
  have hlegal := ph.legal
  refine ⟨⟨L, b.lin, hlegal⟩, ?_, ?_⟩
  · intro hd hu hnodec
    -- only the settled phase has neither a unit nor a parked decrement
    have one : ∃ e ∈ L, (∃ arg, e.op = .decrement arg) ∧ e.ret = .bool true ∧
        Event.res e.id (.bool true) ∈ s.hist := by
      have hparked : ∀ a ∈ s.calls, ¬ a.Parked := by
        rintro a ha ⟨arg, hp | hp⟩ <;>
          exact hnodec a ha arg (by simpa [Placed, hp] using b.placed a ha)
      cases ph with
      | live plain start word units =>
        have := plain.count_pos start
        omega
      | zero a n mem pc => exact absurd ⟨n, Or.inl pc⟩ (hparked a mem)
      | pending A Z a n order op mem parked => exact absurd parked (hparked a mem)
      | stuck legal zero word units lost one =>
        rcases one with h0 | ⟨e, he, ho, hr, ⟨c, hc, hid, hpc⟩ | hw⟩
        · exact absurd (BitVec.eq_of_toNat_eq (by simpa using h0)) hd
        · obtain ⟨arg, ho⟩ := ho
          have hcL : ⟨c.id, c.op, .bool true⟩ ∈ L := by simpa [Placed, hpc] using b.placed c hc
          have heq := List.inj_on_of_nodup_map b.lin.nodup hcL he hid
          exact absurd ((congrArg Entry.op heq).trans ho) (hnodec c hc arg)
        · exact ⟨e, he, ho, hr, hw⟩
    obtain ⟨e, he, ⟨arg, ho⟩, hr, hres⟩ := one
    refine ⟨e.id, ⟨arg, ho ▸ b.lin.invoked e he, hres⟩, ?_⟩
    rintro j ⟨arg', hinv, hres'⟩
    by_contra hne
    have hj := b.entry hinv hres'
    have hpos : ∀ f ∈ L, ∀ a, f.op = .decrement a → 0 < a.toNat := fun f hf a hfa =>
      b.pos f.id a (hfa ▸ b.lin.invoked f hf)
    rcases order_cases hj he (fun heq => hne (congrArg Entry.id heq)) with
      ⟨A, B, hAB, hB⟩ | ⟨A, B, hAB, hB⟩
    · have := hpos e he arg ho
      have := (((hAB ▸ hlegal).zeroes (Or.inl ⟨arg', rfl, rfl⟩)).at_zero hB).2.2 arg ho
      omega
    · have := hpos _ hj arg' rfl
      have := (((hAB ▸ hlegal).zeroes (Or.inl ⟨arg, ho, hr⟩)).at_zero hB).2.2 arg' rfl
      omega
  · intro z j o o' r r' hzi hzr hz hzj hji hjr
    have hze := b.entry hzi hzr
    have hje := b.entry hji hjr
    by_cases heq : (⟨z, o, r⟩ : Entry (Op m) (Ret m)) = ⟨j, o', r'⟩
    · cases heq
      rcases hz with ⟨arg, ho, _⟩ | ⟨ho, hr⟩
      · simp only at ho; simp [ho]
      · simp only at ho hr; simp [ho, hr]
    · rcases order_cases hze hje heq with ⟨A, B, hAB, hB⟩ | ⟨A, B, hAB, hB⟩
      · obtain ⟨h1, h2, _⟩ := ((hAB ▸ hlegal).zeroes hz).at_zero hB
        exact ⟨h1, h2⟩
      · exact absurd hzj ((hAB ▸ b.lin).not_precedes _ hB)

/-! ## The slack is needed -/

/-- A decrement is parked at zero, an increment revives the counter, a load reads the
revived word, the revived unit is released, and the parked decrement takes the
credit. -/
def staleSchedule : List (Label 30) :=
  [.call (.decrement 1), .access 0,
   .call (.increment 1), .access 1, .ret 1,
   .call .load, .access 1, .ret 1,
   .call (.decrement 1), .access 1,
   .access 0, .access 1, .ret 0, .ret 0]

def staleHist : Hist 30 :=
  [.inv 0 (.decrement 1), .inv 1 (.increment 1), .res 1 (.bool true), .inv 2 .load,
   .res 2 (.val 1), .inv 3 (.decrement 1), .res 0 (.bool true), .res 3 (.bool false)]

def staleEntries : List (Entry (Op 30) (Ret 30)) :=
  [⟨0, .decrement 1, .bool true⟩, ⟨1, .increment 1, .bool true⟩, ⟨2, .load, .val 1⟩,
   ⟨3, .decrement 1, .bool false⟩]

instance Counter.decidableExact {m : Nat} :
    ∀ (c : Nat) (L : List (Entry (Op m) (Ret m))), Decidable (Exact c L)
  | _, [] => isTrue trivial
  | c, e :: L =>
    have := decidableExact (after c e.op) L
    inferInstanceAs (Decidable (e.ret = result c e.op ∧ Exact (after c e.op) L))

theorem stale_run :
    ((machine (1 : Word 30)).restrict Releases).exec staleSchedule ⟨1, [], 1, 1, [], 0⟩ =
      some ⟨zeroFlag 30, [], 0, 2, staleHist, 4⟩ := by
  decide

theorem stale_reach :
    ((machine (1 : Word 30)).restrict Releases).Reach ⟨zeroFlag 30, [], 0, 2, staleHist, 4⟩ :=
  Machine.Reach.exec (.init ⟨by decide, by decide⟩) stale_run

/-- A linearization of the history orders exactly its four calls. -/
theorem stale_perm {L : List (Entry (Op 30) (Ret 30))} (l : Linearization staleHist L) :
    L.Perm staleEntries := by
  have hmem : ∀ i o r, Event.inv i o ∈ staleHist → Event.res i r ∈ staleHist →
      (∀ o', Event.inv i o' ∈ staleHist → o' = o) → ⟨i, o, r⟩ ∈ L := by
    intro i o r hi hr huniq
    obtain ⟨⟨i', o', r'⟩, he, rfl, rfl⟩ := l.complete i r hr
    rw [← huniq o' (l.invoked _ he)]
    exact he
  have hin : ∀ e ∈ staleEntries, e ∈ L := by
    intro e he
    simp only [staleEntries, List.mem_cons, List.not_mem_nil, or_false] at he
    rcases he with rfl | rfl | rfl | rfl <;>
      exact hmem _ _ _ (by simp [staleHist]) (by simp [staleHist]) (by simp [staleHist])
  rw [List.perm_ext_iff_of_nodup (List.Nodup.of_map _ l.nodup) (by decide)]
  intro e
  refine ⟨fun he => ?_, hin e⟩
  obtain ⟨f, hf, hid⟩ : ∃ f ∈ staleEntries, f.id = e.id := by
    have hi := l.invoked e he
    simp only [staleHist, List.mem_cons, Event.inv.injEq, reduceCtorEq, List.not_mem_nil, or_false,
      false_or] at hi
    rcases hi with hi | hi | hi | hi <;> rw [hi.1] <;> simp [staleEntries]
  rwa [List.inj_on_of_nodup_map l.nodup he (hin f hf) hid.symm]

theorem stale_orders : ∀ L ∈ staleEntries.permutations',
    ¬ [(⟨2, .load, .val 1⟩ : Entry (Op 30) (Ret 30)), ⟨1, .increment 1, .bool true⟩].Sublist L →
    ¬ [(⟨3, .decrement 1, .bool false⟩ : Entry (Op 30) (Ret 30)), ⟨2, .load, .val 1⟩].Sublist L →
    ¬ Counter.Exact 1 L := by
  decide

/-- The calls of `staleSchedule` return `true`, `true`, `1` and `false`, and no order of them
in real time makes a sequential counter return that. -/
theorem load_not_exact :
    ∃ s, ((machine (1 : Word 30)).restrict Releases).Reach s ∧
      ¬ Linearizable (Counter.Exact 1) s.hist := by
  refine ⟨_, stale_reach, ?_⟩
  rintro ⟨L, l, hexact⟩
  have hord : ∀ a b : Entry (Op 30) (Ret 30), Precedes staleHist b.id a.id → ¬ [a, b].Sublist L := by
    intro a b hp hs
    have := l.realTime.sublist hs
    simp only [List.pairwise_cons, List.mem_singleton] at this
    exact this.1 b rfl hp
  refine stale_orders L (List.mem_permutations'.mpr (stale_perm l)) (hord _ _ ?_) (hord _ _ ?_) hexact
  · exact ⟨.bool true, .load, by decide⟩
  · exact ⟨.val 1, .decrement 1, by decide⟩

theorem history_linearizable_stale :
    Linearizable (Counter.Legal staleHist 1) staleHist :=
  (history_linearizable (1 : Word 30) stale_reach).1

end Cdrc.StickyCounter
