import Mathlib.Data.Nat.Bitwise
import Mathlib.Data.BitVec

/-! # The word of a sticky counter, one atomic access at a time

`utils::StickyCounter<T>` keeps its value in one `std::atomic<T>`. The two top bits
are flags, so a `T` of `m + 2` bits counts up to `2 ^ m - 1`. A call is a short
sequence of atomic accesses; `Pc` is where a call stands between two of them and
`access` performs the next one. `counted_object` uses `T = uint32_t`, that is
`m = 30`. -/
namespace Cdrc.StickyCounter

/-- The word `x`. -/
abbrev Word (m : Nat) := BitVec (m + 2)

def zeroFlag (m : Nat) : Word m := 1#(m + 2) <<< (m + 1)

def zeroPendingFlag (m : Nat) : Word m := 1#(m + 2) <<< m

def maxValue (m : Nat) : Nat := (zeroPendingFlag m - 1).toNat

/-- The constructor `StickyCounter(T desired)`. -/
def construct {m : Nat} (desired : Word m) : Word m :=
  if desired = 0 then zeroFlag m else desired

inductive Ret (m : Nat) where
  | bool (b : Bool)
  | val (v : Word m)
  deriving DecidableEq, Repr

/-- A call between two atomic accesses. -/
inductive Pc (m : Nat) where
  /-- `increment(arg)`, before `x.fetch_add(arg)` -/
  | increment (arg : Word m)
  /-- `decrement(arg)`, before `x.fetch_sub(arg)` -/
  | decrement (arg : Word m)
  /-- `decrement(arg)` whose `fetch_sub` returned `arg`, before
  `x.compare_exchange_strong(expected = 0, zero_flag)` -/
  | decrementCas (arg : Word m)
  /-- `decrement(arg)` whose `expected` came back with `zero_pending_flag`, before
  `x.exchange(zero_flag)` -/
  | decrementExchange (arg : Word m)
  /-- `load()`, before `x.load()` -/
  | load
  /-- `load()` that read `0`, before
  `x.compare_exchange_strong(val = 0, zero_flag | zero_pending_flag)` -/
  | loadCas
  | done (r : Ret m)
  deriving DecidableEq, Repr

/-- The result of `load()` from the value its last access returned. -/
def loadResult {m : Nat} (val : Word m) : Ret m :=
  .val (if val &&& zeroFlag m ≠ 0 then 0 else val)

/-- The next atomic access of a call: the word it leaves and where the call then
stands. -/
def access {m : Nat} (x : Word m) : Pc m → Word m × Pc m
  | .increment arg => (x + arg, .done (.bool (x &&& zeroFlag m = 0)))
  | .decrement arg => (x - arg, if x = arg then .decrementCas arg else .done (.bool false))
  | .decrementCas arg =>
    if x = 0 then (zeroFlag m, .done (.bool true))
    else if x &&& zeroPendingFlag m ≠ 0 then (x, .decrementExchange arg)
    else (x, .done (.bool false))
  | .decrementExchange _ => (zeroFlag m, .done (.bool (x &&& zeroPendingFlag m ≠ 0)))
  | .load => (x, if x = 0 then .loadCas else .done (loadResult x))
  | .loadCas =>
    if x = 0 then (zeroFlag m ||| zeroPendingFlag m, .done (.val 0)) else (x, .done (loadResult x))
  | .done r => (x, .done r)

/-! ## The flags as bounds on the word's value -/

section Flags
variable {m : Nat}

theorem two_pow_succ_succ (m : Nat) : 2 ^ (m + 2) = 4 * 2 ^ m := by
  rw [Nat.pow_add]; omega

theorem Word.toNat_lt (x : Word m) : x.toNat < 4 * 2 ^ m :=
  two_pow_succ_succ m ▸ x.isLt

theorem and_flag_eq_zero (x : Word m) {i : Nat} (hi : i < m + 2) :
    x &&& (1#(m + 2) <<< i) = 0 ↔ x.toNat / 2 ^ i % 2 = 0 := by
  have hne : BitVec.twoPow (m + 2) i ≠ 0 := by
    intro h
    have := congrArg BitVec.toNat h
    simp only [BitVec.toNat_twoPow] at this
    rw [Nat.mod_eq_of_lt (Nat.pow_lt_pow_right (by omega) hi)] at this
    simp at this
  change x &&& BitVec.twoPow (m + 2) i = 0 ↔ _
  rw [BitVec.and_twoPow]
  simp only [BitVec.getLsbD, Nat.testBit_eq_decide_div_mod_eq, decide_eq_true_eq]
  split
  · rename_i h; simp only [hne, h, false_iff]; omega
  · rename_i h; exact ⟨fun _ => by omega, fun _ => rfl⟩

@[simp] theorem toNat_zeroFlag : (zeroFlag m).toNat = 2 * 2 ^ m := by
  simp only [zeroFlag, BitVec.toNat_shiftLeft, BitVec.toNat_ofNat, Nat.shiftLeft_eq]
  have h1 : 1 % 2 ^ (m + 2) = 1 := Nat.mod_eq_of_lt (Nat.one_lt_two_pow (by omega))
  rw [h1, Nat.mod_eq_of_lt (by rw [Nat.one_mul]; exact Nat.pow_lt_pow_right (by omega) (by omega))]
  rw [Nat.pow_succ]; omega

@[simp] theorem toNat_zeroPendingFlag : (zeroPendingFlag m).toNat = 2 ^ m := by
  simp only [zeroPendingFlag, BitVec.toNat_shiftLeft, BitVec.toNat_ofNat, Nat.shiftLeft_eq]
  have h1 : 1 % 2 ^ (m + 2) = 1 := Nat.mod_eq_of_lt (Nat.one_lt_two_pow (by omega))
  rw [h1, Nat.mod_eq_of_lt (by rw [Nat.one_mul]; exact Nat.pow_lt_pow_right (by omega) (by omega))]
  omega

theorem maxValue_eq : maxValue m = 2 ^ m - 1 := by
  have h := toNat_zeroPendingFlag (m := m)
  have hp : 0 < 2 ^ m := Nat.two_pow_pos m
  unfold maxValue
  rw [BitVec.toNat_sub_of_le, h]
  · simp
  · simp [BitVec.le_def, h]; omega

/-- The zero flag is the top bit: it is set from `2 * 2 ^ m` on. -/
theorem and_zeroFlag (x : Word m) : x &&& zeroFlag m = 0 ↔ x.toNat < 2 * 2 ^ m := by
  have hp : 0 < 2 ^ m := Nat.two_pow_pos m
  have hx := x.toNat_lt
  have h2 : 2 ^ (m + 1) = 2 * 2 ^ m := by rw [Nat.pow_succ]; omega
  rw [zeroFlag, and_flag_eq_zero x (by omega), h2]
  by_cases h : x.toNat < 2 * 2 ^ m
  · simp [h, Nat.div_eq_of_lt h]
  · have : x.toNat / (2 * 2 ^ m) = 1 := by
      apply Nat.div_eq_of_lt_le <;> omega
    simp only [this]; omega

/-- The pending flag is the bit below. -/
theorem and_zeroPendingFlag (x : Word m) : x &&& zeroPendingFlag m ≠ 0 ↔
    (2 ^ m ≤ x.toNat ∧ x.toNat < 2 * 2 ^ m) ∨ 3 * 2 ^ m ≤ x.toNat := by
  have hp : 0 < 2 ^ m := Nat.two_pow_pos m
  have hx := x.toNat_lt
  rw [zeroPendingFlag, ne_eq, and_flag_eq_zero x (by omega)]
  have hdiv : ∀ k, k * 2 ^ m ≤ x.toNat → x.toNat < (k + 1) * 2 ^ m → x.toNat / 2 ^ m = k :=
    fun k h1 h2 => Nat.div_eq_of_lt_le h1 h2
  by_cases h1 : x.toNat < 2 ^ m
  · rw [hdiv 0 (by omega) (by omega)]; omega
  by_cases h2 : x.toNat < 2 * 2 ^ m
  · rw [hdiv 1 (by omega) (by omega)]; omega
  by_cases h3 : x.toNat < 3 * 2 ^ m
  · rw [hdiv 2 (by omega) (by omega)]; omega
  · rw [hdiv 3 (by omega) (by omega)]; omega

theorem toNat_zeroFlag_or :
    (zeroFlag m ||| zeroPendingFlag m).toNat = 3 * 2 ^ m := by
  have h : zeroFlag m &&& zeroPendingFlag m = 0 := by
    by_contra hc
    have hp : 0 < 2 ^ m := Nat.two_pow_pos m
    rcases (and_zeroPendingFlag _).mp hc with h | h <;> simp only [toNat_zeroFlag] at h <;> omega
  rw [← BitVec.add_eq_or_of_and_eq_zero _ _ h, BitVec.toNat_add, toNat_zeroFlag,
    toNat_zeroPendingFlag, two_pow_succ_succ, Nat.mod_eq_of_lt] <;>
    have hp : 0 < 2 ^ m := Nat.two_pow_pos m <;> omega

end Flags

/-! ## An access, by the word's value -/

section Values
variable {m : Nat} {x : Word m}

theorem eq_zero_iff_toNat : x = 0 ↔ x.toNat = 0 := by
  constructor
  · rintro rfl; rfl
  · intro h; exact BitVec.eq_of_toNat_eq (by simpa using h)

theorem eq_one_iff_toNat : x = 1 ↔ x.toNat = 1 := by
  have h1 : (1 : Word m).toNat = 1 := by simp
  constructor
  · rintro rfl; exact h1
  · intro h; exact BitVec.eq_of_toNat_eq (by omega)

theorem toNat_add_one (h : x.toNat + 1 < 4 * 2 ^ m) : (x + 1).toNat = x.toNat + 1 := by
  have h1 : (1 : Word m).toNat = 1 := by simp
  rw [BitVec.toNat_add, h1, two_pow_succ_succ, Nat.mod_eq_of_lt h]

theorem toNat_sub_one (h : 0 < x.toNat) : (x - 1).toNat = x.toNat - 1 := by
  have h1 : (1 : Word m).toNat = 1 := by simp
  rw [BitVec.toNat_sub_of_le (by rw [BitVec.le_def]; omega), h1]

theorem access_decrementCas_zero {a : Word m} (h : x.toNat = 0) :
    access x (.decrementCas a) = (zeroFlag m, .done (.bool true)) := by
  simp only [access, if_pos (eq_zero_iff_toNat.mpr h)]

theorem access_decrementCas_pending {a : Word m} (h : 3 * 2 ^ m ≤ x.toNat) :
    access x (.decrementCas a) = (x, .decrementExchange a) := by
  have hp : 0 < 2 ^ m := Nat.two_pow_pos m
  have h0 : x ≠ 0 := fun hx => by rw [eq_zero_iff_toNat] at hx; omega
  simp only [access, if_neg h0, if_pos ((and_zeroPendingFlag x).mpr (Or.inr h))]

theorem access_decrementExchange_pending {a : Word m} (h : 3 * 2 ^ m ≤ x.toNat) :
    access x (.decrementExchange a) = (zeroFlag m, .done (.bool true)) := by
  simp only [access, decide_eq_true ((and_zeroPendingFlag x).mpr (Or.inr h))]

theorem access_load_zero (h : x.toNat = 0) : access x .load = (x, .loadCas) := by
  simp only [access, if_pos (eq_zero_iff_toNat.mpr h)]

theorem access_load_pos (h : 0 < x.toNat) : access x .load = (x, .done (loadResult x)) := by
  have h0 : x ≠ 0 := fun hx => by rw [eq_zero_iff_toNat] at hx; omega
  simp only [access, if_neg h0]

theorem access_increment_low {a : Word m} (h : x.toNat < 2 * 2 ^ m) :
    access x (.increment a) = (x + a, .done (.bool true)) := by
  simp only [access, decide_eq_true ((and_zeroFlag x).mpr h)]

theorem access_increment_high {a : Word m} (h : 2 * 2 ^ m ≤ x.toNat) :
    access x (.increment a) = (x + a, .done (.bool false)) := by
  have hn : ¬ x &&& zeroFlag m = 0 := fun hx => by rw [and_zeroFlag] at hx; omega
  simp only [access, decide_eq_false hn]

theorem loadResult_low (h : x.toNat < 2 * 2 ^ m) : loadResult x = .val x := by
  simp only [loadResult, (and_zeroFlag x).mpr h, ne_eq, not_true, if_false]

end Values

end Cdrc.StickyCounter
