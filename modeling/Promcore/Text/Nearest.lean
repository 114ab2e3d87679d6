import Promcore.Text.Precision

/-!
# The printed number is the nearest one

A double is written with 16 significant digits. The number in the text is the
nearest of all decimal numbers with that many digits, so it is exact for these
and only for them, and never further off than five units of the seventeenth
digit; and the text keeps the order of the values.
-/

namespace Promcore

open Decimals

/-- A decimal number with at most this many digits. -/
def IsDecimal (precision : ℕ) (z : ℚ) : Prop :=
  ∃ m k : ℤ, |m| < 10 ^ precision ∧ z = m * 10 ^ k

theorem roundHalfEven_error (t : ℚ) : |(roundHalfEven t : ℚ) - t| ≤ 1 / 2 := by
  have hupper := (roundHalfEven_le_iff t (roundHalfEven t)).mp le_rfl
  have hlower : ¬ t < roundHalfEven t - 1 / 2 := by
    intro hlt
    have hle := (roundHalfEven_le_iff t (roundHalfEven t - 1)).mpr
      (Or.inl (by push_cast; linarith))
    omega
  rw [abs_le]
  constructor
  · rcases hupper with h | ⟨h, -⟩ <;> linarith
  · linarith

/-- No integer is nearer. -/
theorem roundHalfEven_nearest (t : ℚ) (m : ℤ) : |(roundHalfEven t : ℚ) - t| ≤ |(m : ℚ) - t| := by
  by_cases hm : m = roundHalfEven t
  · rw [hm]
  · have hone : (1 : ℚ) ≤ |(m : ℚ) - roundHalfEven t| := by
      exact_mod_cast Int.one_le_abs (sub_ne_zero.mpr hm)
    have herror := roundHalfEven_error t
    have htriangle := abs_sub_le (m : ℚ) t (roundHalfEven t)
    rw [abs_sub_comm t] at htriangle
    linarith

section Positive

variable {precision : ℕ} {x y : ℚ}

/-- In units of the last digit. -/
theorem rounded_sub (hp : 0 < precision) (hx : 0 < x) :
    |rounded precision x - x| =
      |(roundedDigits precision x : ℚ) - x / 10 ^ lastExponent precision x| *
        10 ^ lastExponent precision x := by
  have hpos : (0 : ℚ) < 10 ^ lastExponent precision x := zpow_pos (by norm_num) _
  rw [(significant_spec hp hx).2, ← abs_of_pos hpos, ← abs_mul, abs_of_pos hpos, sub_mul,
    div_mul_cancel₀ _ hpos.ne']

/-- Decimal numbers with the exponent of the last digit or a larger one are
integers in these units. -/
theorem decimal_units {m k e : ℤ} (hk : e ≤ k) : ∃ n : ℤ, (m * 10 ^ k : ℚ) = n * 10 ^ e := by
  obtain ⟨j, hj⟩ := Int.eq_ofNat_of_zero_le (sub_nonneg.mpr hk)
  refine ⟨m * 10 ^ j, ?_⟩
  have hexponent : k = j + e := by omega
  rw [hexponent, zpow_add₀ (by norm_num), zpow_natCast]
  push_cast
  ring

/-- Those with a smaller exponent are below the decade of the number. -/
theorem decimal_small (hp : 0 < precision) {m k e : ℤ} (hm : |m| < 10 ^ precision) (hk : k < e) :
    (m * 10 ^ k : ℚ) ≤ 10 ^ (precision - 1) * 10 ^ e := by
  have hpos : (0 : ℚ) < 10 ^ k := zpow_pos (by norm_num) _
  have hle : (m : ℚ) ≤ 10 ^ precision := mod_cast (le_abs_self m).trans hm.le
  have hstep : (10 : ℚ) ^ (k + 1) ≤ 10 ^ e := zpow_le_zpow_right₀ (by norm_num) (by omega)
  obtain ⟨p, rfl⟩ := Nat.exists_eq_succ_of_ne_zero hp.ne'
  calc
    (m * 10 ^ k : ℚ) ≤ 10 ^ (p + 1) * 10 ^ k := mul_le_mul_of_nonneg_right hle hpos.le
    _ = 10 ^ p * 10 ^ (k + 1) := by rw [zpow_add_one₀ (by norm_num)]; ring
    _ ≤ 10 ^ p * 10 ^ e := mul_le_mul_of_nonneg_left hstep (by positivity)

/-- No decimal number with the digits of the precision is nearer. -/
theorem rounded_nearest (hp : 0 < precision) (hx : 0 < x) {z : ℚ} (hz : IsDecimal precision z) :
    |rounded precision x - x| ≤ |z - x| := by
  obtain ⟨m, k, hm, rfl⟩ := hz
  have hpos : (0 : ℚ) < 10 ^ lastExponent precision x := zpow_pos (by norm_num) _
  have hx' : x / 10 ^ lastExponent precision x * 10 ^ lastExponent precision x = x :=
    div_mul_cancel₀ _ hpos.ne'
  have hunits (n : ℤ) : |rounded precision x - x| ≤ |n * 10 ^ lastExponent precision x - x| := by
    have hn := mul_le_mul_of_nonneg_right
      (roundHalfEven_nearest (x / 10 ^ lastExponent precision x) n) hpos.le
    rw [rounded_sub hp hx]
    refine hn.trans_eq ?_
    rw [← abs_of_pos hpos, ← abs_mul, abs_of_pos hpos, sub_mul, hx']
  rcases le_or_gt (lastExponent precision x) k with hk | hk
  · obtain ⟨n, hn⟩ := decimal_units (m := m) hk
    rw [hn]
    exact hunits n
  · have hsmall := decimal_small hp hm hk
    have hdecade := (scaled_bounds hp hx).1
    rw [le_div_iff₀ hpos] at hdecade
    have hn := hunits (10 ^ (precision - 1))
    push_cast at hn
    rw [abs_sub_comm (_ * _), abs_of_nonneg (sub_nonneg.mpr hdecade)] at hn
    rw [abs_sub_comm (_ * _), abs_of_nonneg (sub_nonneg.mpr (hsmall.trans hdecade))]
    linarith

theorem rounded_error (hp : 0 < precision) (hx : 0 < x) :
    |rounded precision x - x| * (2 * 10 ^ (precision - 1)) ≤ x := by
  have hpos : (0 : ℚ) < 10 ^ lastExponent precision x := zpow_pos (by norm_num) _
  have hdecade := (scaled_bounds hp hx).1
  rw [le_div_iff₀ hpos] at hdecade
  have herror := mul_le_mul_of_nonneg_right
    (roundHalfEven_error (x / 10 ^ lastExponent precision x)) hpos.le
  calc
    |rounded precision x - x| * (2 * 10 ^ (precision - 1))
      ≤ 1 / 2 * 10 ^ lastExponent precision x * (2 * 10 ^ (precision - 1)) := by
        rw [rounded_sub hp hx]
        exact mul_le_mul_of_nonneg_right herror (by positivity)
    _ = 10 ^ (precision - 1) * 10 ^ lastExponent precision x := by ring
    _ ≤ x := hdecade

theorem rounded_mono (hp : 0 < precision) (hx : 0 < x) (hxy : x ≤ y) :
    rounded precision x ≤ rounded precision y := by
  by_contra hlt
  have hne : x ≠ y := by
    rintro rfl
    exact hlt le_rfl
  obtain ⟨d, k, -, hbelow, habove⟩ :=
    ((rounded_rounding hp).lt_iff (hx.trans_le hxy) hx).mp (not_le.mp hlt)
  have hy : y ≤ halfway 10 d k := hbelow.elim le_of_lt fun h => h.1.le
  have hx' : halfway 10 d k ≤ x := habove.elim le_of_lt fun h => h.1.le
  exact hne (le_antisymm hxy (hy.trans hx'))

theorem isDecimal_rounded (hp : 0 < precision) (hx : 0 < x) :
    IsDecimal precision (rounded precision x) := by
  refine ⟨(significant precision x).1, (significant precision x).2 - (precision - 1), ?_, ?_⟩
  · rw [abs_of_nonneg (Int.natCast_nonneg _)]
    exact_mod_cast (significant_spec hp hx).1.2
  · rw [rounded, Int.cast_natCast]

end Positive

/-- The number in the text of a double. -/
def printed (x : ℚ) : ℚ := readNumber (writeValue (Double.finite x))

section Printed

variable {x y z : ℚ}

theorem printed_eq (x : ℚ) :
    printed x = if x = 0 then 0 else if x < 0 then -rounded 16 (-x) else rounded 16 x :=
  readNumber_finiteText (by decide)

theorem printed_zero : printed 0 = 0 := by rw [printed_eq, if_pos rfl]

theorem printed_of_pos (hx : 0 < x) : printed x = rounded 16 x := by
  rw [printed_eq, if_neg hx.ne', if_neg hx.not_gt]

/-- The minus sign is written before the digits. -/
theorem printed_neg (x : ℚ) : printed (-x) = -printed x := by
  rcases lt_trichotomy x 0 with hx | rfl | hx
  · have hx' : 0 < -x := neg_pos.mpr hx
    rw [printed_of_pos hx', printed_eq, if_neg hx.ne, if_pos hx, neg_neg]
  · rw [neg_zero, printed_zero, neg_zero]
  · have hx' : -x < 0 := neg_lt_zero.mpr hx
    rw [printed_of_pos hx, printed_eq, if_neg hx'.ne, if_pos hx', neg_neg]

theorem IsDecimal.neg {precision : ℕ} (h : IsDecimal precision z) : IsDecimal precision (-z) := by
  obtain ⟨m, k, hm, rfl⟩ := h
  exact ⟨-m, k, by rwa [abs_neg], by push_cast; ring⟩

/-- What is shown for positive values, and carries over to the negative ones,
holds of all values. -/
theorem forall_of_pos {P : ℚ → Prop} (hzero : P 0) (hpos : ∀ x, 0 < x → P x)
    (hneg : ∀ x, P x → P (-x)) (x : ℚ) : P x := by
  rcases lt_trichotomy x 0 with hx | rfl | hx
  · rw [← neg_neg x]
    exact hneg _ (hpos _ (neg_pos.mpr hx))
  · exact hzero
  · exact hpos x hx

theorem isDecimal_printed (x : ℚ) : IsDecimal 16 (printed x) := by
  induction x using forall_of_pos with
  | hzero =>
      rw [printed_zero]
      exact ⟨0, 0, by norm_num, by norm_num⟩
  | hpos x hx =>
      rw [printed_of_pos hx]
      exact isDecimal_rounded (by decide) hx
  | hneg x ih =>
      rw [printed_neg]
      exact ih.neg

theorem printed_le_dist (x : ℚ) : ∀ z, IsDecimal 16 z → |printed x - x| ≤ |z - x| := by
  induction x using forall_of_pos with
  | hzero =>
      intro z _
      rw [printed_zero, sub_zero, abs_zero]
      exact abs_nonneg _
  | hpos x hx =>
      intro z hz
      rw [printed_of_pos hx]
      exact rounded_nearest (by decide) hx hz
  | hneg x ih =>
      intro z hz
      have hdist := ih (-z) hz.neg
      rw [printed_neg, ← abs_neg, ← abs_neg (z - -x)]
      convert hdist using 2 <;> ring

/-- Decimal numbers with 16 digits are printed exactly. -/
theorem printed_eq_self (h : IsDecimal 16 x) : printed x = x := by
  have hdist := printed_le_dist x x h
  rw [sub_self, abs_zero] at hdist
  exact sub_eq_zero.mp (abs_nonpos_iff.mp hdist)

theorem printed_error (x : ℚ) : |printed x - x| ≤ 5 / 10 ^ 16 * |x| := by
  induction x using forall_of_pos with
  | hzero => rw [printed_zero, sub_zero, abs_zero, mul_zero]
  | hpos x hx =>
      have herror := rounded_error (show 0 < 16 by decide) hx
      rw [printed_of_pos hx, abs_of_pos hx]
      norm_num at herror ⊢
      linarith
  | hneg x ih =>
      rw [printed_neg, abs_neg, ← abs_neg (-printed x - -x)]
      convert ih using 2
      ring

theorem printed_nonneg (hx : 0 ≤ x) : 0 ≤ printed x := by
  rcases hx.eq_or_lt with rfl | hx
  · exact printed_zero.ge
  · rw [printed_of_pos hx]
    exact ((rounded_rounding (by decide)).pos (by decide) hx).le

theorem printed_mono (hxy : x ≤ y) : printed x ≤ printed y := by
  have hpositive {x y : ℚ} (hx : 0 ≤ x) (hxy : x ≤ y) : printed x ≤ printed y := by
    rcases hx.eq_or_lt with rfl | hx
    · rw [printed_zero]
      exact printed_nonneg hxy
    · rw [printed_of_pos hx, printed_of_pos (hx.trans_le hxy)]
      exact rounded_mono (by decide) hx hxy
  rcases le_total 0 x with hx | hx
  · exact hpositive hx hxy
  · rcases le_total 0 y with hy | hy
    · have hnegative := printed_nonneg (neg_nonneg.mpr hx)
      rw [printed_neg] at hnegative
      exact (neg_nonneg.mp hnegative).trans (printed_nonneg hy)
    · have hswapped := hpositive (neg_nonneg.mpr hy) (neg_le_neg hxy)
      rw [printed_neg, printed_neg] at hswapped
      exact neg_le_neg_iff.mp hswapped

/-- Of all decimal numbers with 16 digits the text of a value gives one that is
nearest to it; it is exact for these numbers and no others, its error is at most
five parts in 10¹⁶, and larger values have no smaller texts. -/
theorem printed_nearest (x : ℚ) :
    IsDecimal 16 (printed x) ∧ (∀ z, IsDecimal 16 z → |printed x - x| ≤ |z - x|) ∧
      (printed x = x ↔ IsDecimal 16 x) ∧ |printed x - x| ≤ 5 / 10 ^ 16 * |x| ∧
      ∀ y, x ≤ y → printed x ≤ printed y := by
  exact ⟨isDecimal_printed x, printed_le_dist x,
    ⟨fun h => h ▸ isDecimal_printed x, printed_eq_self⟩, printed_error x,
    fun y hxy => printed_mono hxy⟩

end Printed

end Promcore
