import Mathlib.Algebra.Order.Field.Power
import Mathlib.Algebra.Order.Field.Rat
import Mathlib.Tactic.Linarith
import Mathlib.Tactic.Positivity
import Mathlib.Tactic.Ring

/-!
# Numbers with a fixed number of digits

The positive numbers with `p` digits in base `b` are the `d * b ^ k` where `d`
has exactly `p` digits. Correct rounding sends a number to the nearest of them,
and a midpoint of two neighbours to the even one, so one number is rounded to
less than another exactly when a midpoint separates them.
-/

namespace Decimals

variable {b p : ℕ}

/-- The integers with exactly `p` digits. -/
def HasDigits (b p d : ℕ) : Prop := b ^ (p - 1) ≤ d ∧ d < b ^ p

/-- The midpoint between `d * b ^ k` and its upper neighbour. -/
def halfway (b d : ℕ) (k : ℤ) : ℚ := (d + 1 / 2) * b ^ k

/-- On the side of `d * b ^ k`; the midpoint itself belongs to the even
neighbour. -/
def Below (b d : ℕ) (k : ℤ) (x : ℚ) : Prop :=
  x < halfway b d k ∨ x = halfway b d k ∧ Even d

/-- On the side of the upper neighbour. -/
def Above (b d : ℕ) (k : ℤ) (x : ℚ) : Prop :=
  halfway b d k < x ∨ halfway b d k = x ∧ Odd d

theorem above_iff {d : ℕ} {k : ℤ} {x : ℚ} : Above b d k x ↔ ¬ Below b d k x := by
  unfold Above Below
  constructor
  · rintro (hlt | ⟨heq, hodd⟩) (hlt' | ⟨heq', heven⟩)
    · exact lt_asymm hlt hlt'
    · exact hlt.ne' heq'
    · exact hlt'.ne' heq
    · exact Nat.not_even_iff_odd.mpr hodd heven
  · intro hno
    obtain ⟨hle, htie⟩ := not_or.mp hno
    rcases (not_lt.mp hle).lt_or_eq with hlt | heq
    · exact Or.inl hlt
    · exact Or.inr ⟨heq, Nat.not_even_iff_odd.mp fun heven => htie ⟨heq.symm, heven⟩⟩

/-- A midpoint of two neighbours lies between the two numbers. -/
def Separated (b p : ℕ) (x y : ℚ) : Prop :=
  ∃ d k, HasDigits b p d ∧ Below b d k x ∧ Above b d k y

/-- With a larger exponent, the least number is not below the next decade. -/
theorem pow_mul_zpow_le (hb : 1 < b) (hp : 0 < p) {d : ℕ} (hd : b ^ (p - 1) ≤ d) {k k' : ℤ}
    (hk : k < k') : (b : ℚ) ^ p * b ^ k ≤ d * b ^ k' := by
  have hbase : (1 : ℚ) < b := mod_cast hb
  have hpow : (b : ℚ) ^ p = b ^ (p - 1) * b := by rw [← pow_succ, Nat.sub_add_cancel hp]
  calc
    (b : ℚ) ^ p * b ^ k = b ^ (p - 1) * (b : ℚ) ^ (k + 1) := by
      rw [zpow_add_one₀ (by linarith), hpow]
      ring
    _ ≤ d * b ^ (k + 1) := mul_le_mul_of_nonneg_right (mod_cast hd) (zpow_pos (by linarith) _).le
    _ ≤ d * b ^ k' :=
      mul_le_mul_of_nonneg_left (zpow_le_zpow_right₀ hbase.le (by omega)) (Nat.cast_nonneg d)

/-- A number with `p` digits is written in one way. -/
theorem HasDigits.unique (hb : 1 < b) (hp : 0 < p) {d d' : ℕ} {k k' : ℤ} (hd : HasDigits b p d)
    (hd' : HasDigits b p d') (h : (d : ℚ) * b ^ k = d' * b ^ k') : d = d' ∧ k = k' := by
  have hpos : ∀ k : ℤ, (0 : ℚ) < b ^ k := zpow_pos (by exact_mod_cast Nat.zero_lt_of_lt hb)
  have hle : ∀ {d d' : ℕ} {k k' : ℤ}, HasDigits b p d → HasDigits b p d' →
      (d : ℚ) * b ^ k = d' * b ^ k' → k' ≤ k := by
    intro d d' k k' hd hd' h
    by_contra hlt
    refine absurd h (ne_of_lt ?_)
    calc
      (d : ℚ) * b ^ k < b ^ p * b ^ k := mul_lt_mul_of_pos_right (mod_cast hd.2) (hpos k)
      _ ≤ d' * b ^ k' := pow_mul_zpow_le hb hp hd'.1 (not_le.mp hlt)
  obtain rfl : k = k' := le_antisymm (hle hd' hd h.symm) (hle hd hd' h)
  exact ⟨Nat.cast_injective (mul_right_cancel₀ (hpos k).ne' h), rfl⟩

/-- Correct rounding of positive numbers to `p` digits. -/
structure Rounding (b p : ℕ) (round : ℚ → ℚ) : Prop where
  digits : ∀ x, 0 < x → ∃ (d : ℕ) (k : ℤ), HasDigits b p d ∧ round x = d * b ^ k
  le_iff : ∀ x, 0 < x → ∀ d k, HasDigits b p d → (round x ≤ d * b ^ k ↔ Below b d k x)

variable {round : ℚ → ℚ} {x y : ℚ}

theorem Rounding.lt_iff (h : Rounding b p round) (hx : 0 < x) (hy : 0 < y) :
    round x < round y ↔ Separated b p x y := by
  constructor
  · intro hlt
    obtain ⟨d, k, hd, hround⟩ := h.digits x hx
    refine ⟨d, k, hd, (h.le_iff x hx d k hd).mp hround.le, above_iff.mpr fun hbelow => ?_⟩
    exact absurd ((h.le_iff y hy d k hd).mpr hbelow) (not_le.mpr (hround ▸ hlt))
  · rintro ⟨d, k, hd, hbelow, habove⟩
    calc
      round x ≤ d * b ^ k := (h.le_iff x hx d k hd).mpr hbelow
      _ < round y := lt_of_not_ge fun hle => above_iff.mp habove ((h.le_iff y hy d k hd).mp hle)

theorem Rounding.pos (h : Rounding b p round) (hb : 0 < b) (hx : 0 < x) : 0 < round x := by
  obtain ⟨d, k, hd, hround⟩ := h.digits x hx
  have hd' : 0 < d := (pow_pos hb _).trans_le hd.1
  rw [hround]
  exact mul_pos (mod_cast hd') (zpow_pos (mod_cast hb) k)

end Decimals
