import Mathlib.Algebra.Order.Field.Power
import Mathlib.Algebra.Order.Field.Rat
import Mathlib.Data.Nat.Log
import Mathlib.Data.Nat.Prime.Basic
import Mathlib.Tactic.Linarith
import Mathlib.Tactic.NormNum.Pow
import Mathlib.Tactic.Positivity
import Mathlib.Tactic.Ring

/-!
# Points of one spacing in cells of another

Points that lie closer together than the cells are wide cannot all fall into
different cells, once there are enough of them. How many are enough depends on
how close the two spacings are; different powers of two and of ten are never
within a thousandth of each other, up to the exponents that matter here.
-/

namespace Spacing

/-- Among enough points, two neighbours are rounded to the same integer. -/
theorem exists_succ_le {a c : ℚ} {n : ℕ} {f : ℕ → ℤ}
    (hf : ∀ i ≤ n, |(f i : ℚ) - (a + i * c)| ≤ 1 / 2) (hn : n * c + 1 < n) :
    ∃ i < n, f (i + 1) ≤ f i := by
  by_contra! hstep
  have hgrow : ∀ i ≤ n, f 0 + i ≤ f i := by
    intro i hi
    induction i with
    | zero => simp
    | succ i ih =>
        have hprev := ih (by omega)
        have hnext := hstep i (by omega)
        push_cast
        omega
  have hlast : (f 0 : ℚ) + n ≤ f n := mod_cast hgrow n le_rfl
  have hfirst := (abs_le.mp (hf 0 (Nat.zero_le n))).1
  have hend := (abs_le.mp (hf n le_rfl)).2
  push_cast at hfirst
  linarith

/-- The power of ten is a thousandth above the power of two before it, and a
thousandth below the next one. -/
def PowersApart (q : ℕ) : Prop :=
  1001 * 2 ^ Nat.log2 (10 ^ q) ≤ 1000 * 10 ^ q ∧
    1001 * 10 ^ q ≤ 1000 * 2 ^ (Nat.log2 (10 ^ q) + 1)

instance (q : ℕ) : Decidable (PowersApart q) := inferInstanceAs (Decidable (_ ∧ _))

theorem powersApart : ∀ q < 340, PowersApart (q + 1) := by decide +kernel

theorem apart_natCast {q : ℕ} (hq : q ≤ 340) (j : ℤ) :
    ((2 : ℚ) ^ j < 10 ^ q → 1001 * (2 : ℚ) ^ j ≤ 1000 * 10 ^ q) ∧
      ((10 : ℚ) ^ q < 2 ^ j → 1001 * (10 : ℚ) ^ q ≤ 1000 * 2 ^ j) := by
  have hstrict : StrictMono fun k : ℤ => (2 : ℚ) ^ k := zpow_right_strictMono₀ (by norm_num)
  cases q with
  | zero =>
      rw [pow_zero]
      constructor
      · intro h
        have hj : j ≤ -1 := by
          have : j < 0 := hstrict.lt_iff_lt.mp (by simpa using h)
          omega
        have hle : (2 : ℚ) ^ j ≤ 2 ^ (-1 : ℤ) := hstrict.monotone hj
        norm_num at hle
        linarith
      · intro h
        have hj : 1 ≤ j := by
          have : 0 < j := hstrict.lt_iff_lt.mp (by simpa using h)
          omega
        have hle : (2 : ℚ) ^ (1 : ℤ) ≤ 2 ^ j := hstrict.monotone hj
        norm_num at hle
        linarith
  | succ q =>
      obtain ⟨hlow, hhigh⟩ := powersApart q (by omega)
      generalize hb : Nat.log2 (10 ^ (q + 1)) = b at hlow hhigh
      have hne : (10 : ℕ) ^ (q + 1) ≠ 0 := by positivity
      have hbelow : (2 : ℚ) ^ (b : ℤ) ≤ 10 ^ (q + 1) := by
        rw [zpow_natCast]
        exact_mod_cast hb ▸ Nat.log2_self_le hne
      have habove : (10 : ℚ) ^ (q + 1) < 2 ^ ((b : ℤ) + 1) := by
        have := Nat.lt_log2_self (n := 10 ^ (q + 1))
        rw [hb] at this
        exact_mod_cast this
      constructor
      · intro h
        have hj : j ≤ b := Int.lt_add_one_iff.mp (hstrict.lt_iff_lt.mp (h.trans habove))
        have hle : (2 : ℚ) ^ j ≤ 2 ^ (b : ℤ) := hstrict.monotone hj
        rw [zpow_natCast] at hle
        have hcast : 1001 * (2 : ℚ) ^ b ≤ 1000 * 10 ^ (q + 1) := mod_cast hlow
        linarith
      · intro h
        have hj : (b : ℤ) + 1 ≤ j := hstrict.lt_iff_lt.mp (hbelow.trans_lt h)
        have hle : (2 : ℚ) ^ ((b : ℤ) + 1) ≤ 2 ^ j := hstrict.monotone hj
        have hcast : 1001 * (10 : ℚ) ^ (q + 1) ≤ 1000 * 2 ^ ((b : ℤ) + 1) := mod_cast hhigh
        linarith

/-- A power of two below a power of ten is below it by a thousandth, and the
other way round. -/
theorem zpow_apart {p : ℤ} (hp : |p| ≤ 340) (j : ℤ) :
    ((2 : ℚ) ^ j < 10 ^ p → 1001 * (2 : ℚ) ^ j ≤ 1000 * 10 ^ p) ∧
      ((10 : ℚ) ^ p < 2 ^ j → 1001 * (10 : ℚ) ^ p ≤ 1000 * 2 ^ j) := by
  have htwo : (0 : ℚ) < 2 ^ j := zpow_pos (by norm_num) j
  obtain ⟨q, rfl | rfl⟩ := p.eq_nat_or_neg
  · rw [zpow_natCast]
    exact apart_natCast (by simpa using hp) j
  · -- the inverses are compared the other way round
    have hten : (0 : ℚ) < 10 ^ q := by positivity
    have hq : q ≤ 340 := by simpa using hp
    obtain ⟨hlow, hhigh⟩ := apart_natCast hq (-j)
    rw [zpow_neg] at hlow hhigh
    rw [zpow_neg, zpow_natCast]
    constructor
    · intro h
      have := hhigh ((lt_inv_comm₀ hten htwo).mpr h)
      rw [← div_eq_mul_inv, le_div_iff₀ htwo] at this
      rw [← div_eq_mul_inv, le_div_iff₀ hten]
      linarith
    · intro h
      have := hlow ((inv_lt_comm₀ htwo hten).mpr h)
      rw [← div_eq_mul_inv, div_le_iff₀ htwo] at this
      rw [← div_eq_mul_inv, div_le_iff₀ hten]
      linarith

/-- No power of ten is a power of two, but one. -/
theorem zpow_two_ne {p : ℤ} (hp : p ≠ 0) (j : ℤ) : (2 : ℚ) ^ j ≠ 10 ^ p := by
  have hnat : ∀ (q : ℕ), q ≠ 0 → ∀ j : ℤ, (2 : ℚ) ^ j ≠ 10 ^ q := by
    intro q hq j heq
    have hten : (1 : ℚ) < 10 ^ q := one_lt_pow₀ (by norm_num) hq
    obtain ⟨n, rfl | rfl⟩ := j.eq_nat_or_neg
    · have hcast : 2 ^ n = 10 ^ q := by
        rw [zpow_natCast] at heq
        exact_mod_cast heq
      have hfive : 5 ∣ 2 ^ n := hcast ▸ (show 5 ∣ 10 by decide).trans (dvd_pow_self 10 hq)
      exact absurd (Nat.prime_five.dvd_of_dvd_pow hfive) (by decide)
    · have hle : (2 : ℚ) ^ (-(n : ℤ)) ≤ 1 := zpow_le_one_of_nonpos₀ (by norm_num) (by omega)
      linarith
  obtain ⟨q, rfl | rfl⟩ := p.eq_nat_or_neg
  · rw [zpow_natCast]
    exact hnat q (by omega) j
  · intro heq
    rw [zpow_neg, zpow_natCast] at heq
    refine hnat q (by omega) (-j) ?_
    rw [zpow_neg, heq, inv_inv]

end Spacing
