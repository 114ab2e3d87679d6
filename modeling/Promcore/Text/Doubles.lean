import Promcore.Library.Spacing
import Promcore.Text.Nearest

/-!
# Which doubles are told apart

A double is written with 16 significant digits. Where decimals of 16 digits lie
at least as close together as the doubles do, every double is recovered from its
text. Where they lie further apart, neighbouring doubles are written alike.
-/

namespace Promcore

open Spacing

/-- The finite doubles; the two zeros are one. -/
structure Binary64 where
  value : ℚ
  representable : ∃ m e : ℤ, value = m * 2 ^ e ∧ |m| < 2 ^ 53 ∧ -1074 ≤ e ∧ e ≤ 971

namespace Binary64

/-- The exponent of the distance to the next double towards zero. -/
def gap (x : Binary64) : ℤ := max (-1074) (Int.clog 2 |x.value| - 53)

section Gap

variable {x y : Binary64}

theorem le_gap (x : Binary64) : -1074 ≤ x.gap := le_max_left _ _

theorem abs_le_zpow_gap (x : Binary64) : |x.value| ≤ 2 ^ (x.gap + 53) := by
  have hself := Int.self_le_zpow_clog (b := 2) (by decide) |x.value|
  push_cast at hself
  refine hself.trans (zpow_le_zpow_right₀ (by norm_num) ?_)
  unfold gap
  omega

/-- Above the least exponent, a double has all of its 53 digits. -/
theorem zpow_gap_lt (hx : x.value ≠ 0) (h : -1074 < x.gap) : 2 ^ (x.gap + 52) < |x.value| := by
  have hlt := Int.zpow_pred_clog_lt_self (b := 2) (by decide) (abs_pos.mpr hx)
  push_cast at hlt
  have hgap : x.gap + 52 = Int.clog 2 |x.value| - 1 := by
    unfold gap at h ⊢
    omega
  rwa [hgap]

theorem gap_eq_of_bounds {e : ℤ} (he : -1074 ≤ e) (hlow : -1074 < e → 2 ^ (e + 52) < |x.value|)
    (hhigh : |x.value| ≤ 2 ^ (e + 53)) (hx : x.value ≠ 0) : x.gap = e := by
  have hpos := abs_pos.mpr hx
  have hle := (Int.le_zpow_iff_clog_le (b := 2) (by decide) hpos).mp (by push_cast; exact hhigh)
  unfold gap
  rcases he.eq_or_lt with rfl | hlt
  · omega
  · have hgt := (Int.zpow_lt_iff_lt_clog (b := 2) (by decide) hpos).mp
      (by push_cast; exact hlow hlt)
    omega

/-- A double is a whole number of these distances from zero. -/
theorem exists_abs_eq (hx : x.value ≠ 0) :
    ∃ m : ℕ, |x.value| = m * 2 ^ x.gap ∧ 0 < m ∧ m ≤ 2 ^ 53 ∧ x.gap ≤ 971 := by
  obtain ⟨m, e, hvalue, hm, hlow, hhigh⟩ := x.representable
  have htwo : ∀ k : ℤ, (0 : ℚ) < 2 ^ k := zpow_pos (by norm_num)
  have habs : |x.value| = m.natAbs * 2 ^ e := by
    rw [hvalue, abs_mul, abs_of_pos (htwo e), Nat.cast_natAbs, Int.cast_abs]
  have hbound : |x.value| ≤ 2 ^ (e + 53) := by
    have hm' : (m.natAbs : ℚ) ≤ 2 ^ 53 := by
      have : m.natAbs ≤ 2 ^ 53 := by
        rw [Int.abs_eq_natAbs] at hm
        omega
      exact_mod_cast this
    rw [habs, add_comm, zpow_add₀ (by norm_num)]
    exact mul_le_mul_of_nonneg_right (mod_cast hm') (htwo e).le
  have hclog := (Int.le_zpow_iff_clog_le (b := 2) (by decide) (abs_pos.mpr hx)).mp
    (by push_cast; exact hbound)
  have hle : x.gap ≤ e := by
    unfold gap
    omega
  obtain ⟨j, hj⟩ := Int.eq_ofNat_of_zero_le (sub_nonneg.mpr hle)
  have hunits : |x.value| = (m.natAbs * 2 ^ j : ℕ) * 2 ^ x.gap := by
    have he : e = j + x.gap := by omega
    rw [habs, he, zpow_add₀ (by norm_num), zpow_natCast]
    push_cast
    ring
  refine ⟨m.natAbs * 2 ^ j, hunits, ?_, ?_, hle.trans hhigh⟩
  · have : m ≠ 0 := by
      rintro rfl
      exact hx (by rw [hvalue, Int.cast_zero, zero_mul])
    positivity
  · have := x.abs_le_zpow_gap
    rw [hunits, add_comm, zpow_add₀ (by norm_num), mul_le_mul_iff_left₀ (htwo _)] at this
    exact_mod_cast this

theorem gap_mono (hx : x.value ≠ 0) (h : |x.value| ≤ |y.value|) : x.gap ≤ y.gap := by
  have := Int.clog_mono_right (b := 2) (abs_pos.mpr hx) h
  unfold gap
  omega

/-- The least distance to a double that is nearer to zero. -/
theorem isLeast_gap (hx : x.value ≠ 0) :
    IsLeast {d | ∃ y : Binary64, |y.value| < |x.value| ∧ d = |x.value| - |y.value|}
      (2 ^ x.gap) := by
  obtain ⟨m, hm, hpos, hle, hgap⟩ := exists_abs_eq hx
  have htwo : (0 : ℚ) < 2 ^ x.gap := zpow_pos (by norm_num) _
  constructor
  · have hcast : ((m - 1 : ℕ) : ℚ) = m - 1 := by
      push_cast [hpos]
      rfl
    have hvalue : |((m - 1 : ℕ) : ℚ) * 2 ^ x.gap| = |x.value| - 2 ^ x.gap := by
      rw [abs_mul, abs_of_pos htwo, Nat.abs_cast, hm, hcast]
      ring
    refine ⟨⟨(m - 1 : ℕ) * 2 ^ x.gap, ((m - 1 : ℕ) : ℤ), x.gap, rfl, ?_, x.le_gap, hgap⟩,
      ?_, ?_⟩
    · rw [Nat.abs_cast]
      omega
    · rw [hvalue]
      linarith
    · rw [hvalue]
      ring
  · rintro _ ⟨y, hy, rfl⟩
    by_cases hy0 : y.value = 0
    · rw [hy0, abs_zero, sub_zero, hm]
      exact le_mul_of_one_le_left htwo.le (mod_cast hpos)
    obtain ⟨n, hn, -⟩ := exists_abs_eq hy0
    rcases (gap_mono hy0 hy.le).eq_or_lt with heq | hlt
    · -- both are multiples of the distance
      rw [heq] at hn
      rw [hm, hn, mul_lt_mul_iff_left₀ htwo] at hy
      have : (n : ℚ) + 1 ≤ m := mod_cast hy
      rw [hm, hn, ← sub_mul]
      exact le_mul_of_one_le_left htwo.le (by linarith)
    · -- the other is below the power of two that this one is above
      have hlow := zpow_gap_lt hx ((le_max_left _ _).trans_lt hlt)
      have hhigh : |y.value| ≤ 2 ^ (x.gap + 52) :=
        y.abs_le_zpow_gap.trans (zpow_le_zpow_right₀ (by norm_num) (by omega))
      rw [add_comm, zpow_add₀ (by norm_num)] at hlow hhigh
      rw [hm, mul_lt_mul_iff_left₀ htwo] at hlow
      have hsucc : (2 : ℚ) ^ (52 : ℤ) + 1 ≤ m := by
        have : 2 ^ 52 < m := by exact_mod_cast hlow
        exact_mod_cast this
      rw [hm]
      nlinarith

theorem gap_le_dist (hx : x.value ≠ 0) (hne : y.value ≠ x.value) :
    (2 : ℚ) ^ x.gap ≤ |x.value - y.value| := by
  rcases lt_trichotomy |y.value| |x.value| with hlt | heq | hgt
  · exact ((isLeast_gap hx).2 ⟨y, hlt, rfl⟩).trans (abs_sub_abs_le_abs_sub _ _)
  · -- the two have different signs
    obtain ⟨m, hm, hpos, -⟩ := exists_abs_eq hx
    obtain hsame | hneg := abs_eq_abs.mp heq
    · exact absurd hsame hne
    · have hle : (2 : ℚ) ^ x.gap ≤ |x.value| := by
        rw [hm]
        exact le_mul_of_one_le_left (zpow_pos (by norm_num) _).le (mod_cast hpos)
      have hdouble : |x.value - y.value| = 2 * |x.value| := by
        rw [hneg, sub_neg_eq_add, ← two_mul, abs_mul, abs_two]
      linarith [abs_nonneg x.value]
  · have hy : y.value ≠ 0 := abs_pos.mp ((abs_nonneg _).trans_lt hgt)
    calc
      (2 : ℚ) ^ x.gap ≤ 2 ^ y.gap :=
        zpow_le_zpow_right₀ (by norm_num) (gap_mono hx hgt.le)
      _ ≤ |y.value| - |x.value| := (isLeast_gap hy).2 ⟨x, hgt, rfl⟩
      _ ≤ |x.value - y.value| := (abs_sub_abs_le_abs_sub _ _).trans_eq (abs_sub_comm _ _)

end Gap

section Resolved

variable {x y : Binary64}

/-- Around the double, decimals of 16 digits lie at least as close together as
it lies to the next double towards zero. -/
def Resolved (x : Binary64) : Prop := (10 : ℚ) ^ lastExponent 16 |x.value| ≤ 2 ^ x.gap

instance : Decidable x.Resolved := inferInstanceAs (Decidable (_ ≤ _))

theorem printed_half_unit {x : ℚ} (hx : x ≠ 0) :
    |printed x - x| ≤ 10 ^ lastExponent 16 |x| / 2 := by
  have hpositive {x : ℚ} (hx : 0 < x) : |printed x - x| ≤ 10 ^ lastExponent 16 x / 2 := by
    have hpos : (0 : ℚ) < 10 ^ lastExponent 16 x := zpow_pos (by norm_num) _
    have herror := mul_le_mul_of_nonneg_right
      (roundHalfEven_error (x / 10 ^ lastExponent 16 x)) hpos.le
    rw [printed_of_pos hx, rounded_sub (show 0 < 16 by decide) hx]
    exact herror.trans_eq (by ring)
  rcases hx.lt_or_gt with hneg | hpos
  · have h := hpositive (neg_pos.mpr hneg)
    have hsign : printed (-x) - -x = -(printed x - x) := by
      rw [printed_neg]
      ring
    rwa [hsign, abs_neg, ← abs_of_neg hneg] at h
  · rw [abs_of_pos hpos]
    exact hpositive hpos

/-- Where the two spacings are equal, the double is a decimal of 16 digits. -/
theorem printed_eq_of_units (hx : x.value ≠ 0)
    (h : (10 : ℚ) ^ lastExponent 16 |x.value| = 2 ^ x.gap) : printed x.value = x.value := by
  obtain ⟨m, hm, -⟩ := exists_abs_eq hx
  rw [← h] at hm
  have hpos := abs_pos.mpr hx
  have hdigits := (scaled_bounds (show 0 < 16 by decide) hpos).2
  rw [div_lt_iff₀ (zpow_pos (by norm_num) _)] at hdigits
  have hlt : (m : ℚ) < 10 ^ 16 := by
    nth_rewrite 1 [hm] at hdigits
    exact (mul_lt_mul_iff_left₀ (zpow_pos (by norm_num) _)).mp hdigits
  have hdecimal : IsDecimal 16 |x.value| :=
    ⟨m, _, by rw [Nat.abs_cast]; exact_mod_cast hlt, by rw [Int.cast_natCast]; exact hm⟩
  apply printed_eq_self
  rcases abs_choice x.value with habs | habs
  · rwa [habs] at hdecimal
  · rw [habs] at hdecimal
    have hneg := hdecimal.neg
    rwa [neg_neg] at hneg

/-- The printed number is nearer to the double than to any other. -/
theorem Resolved.nearest (h : x.Resolved) (hx : x.value ≠ 0) (hne : y.value ≠ x.value) :
    |printed x.value - x.value| < |printed x.value - y.value| := by
  have hdist := gap_le_dist hx hne
  rcases h.eq_or_lt with heq | hlt
  · rw [printed_eq_of_units hx heq, sub_self, abs_zero]
    exact (zpow_pos (by norm_num) _).trans_le hdist
  · have hhalf := printed_half_unit hx
    have htriangle := abs_sub_le x.value (printed x.value) y.value
    rw [abs_sub_comm x.value (printed x.value)] at htriangle
    linarith

/-- No double up to a resolved one is printed like it. -/
theorem Resolved.printed_ne (h : x.Resolved) (hx : x.value ≠ 0) (hle : |y.value| ≤ |x.value|)
    (hne : y.value ≠ x.value) : printed y.value ≠ printed x.value := by
  intro heq
  have hnearest := h.nearest hx hne
  have hdist := gap_le_dist hx hne
  by_cases hy : y.value = 0
  · rw [← heq, hy, printed_zero, sub_self, abs_zero] at hnearest
    exact absurd hnearest (not_lt.mpr (abs_nonneg _))
  have hunit : (10 : ℚ) ^ lastExponent 16 |y.value| ≤ 10 ^ lastExponent 16 |x.value| := by
    have hlog := Int.log_mono_right (b := 10) (abs_pos.mpr hy) hle
    refine zpow_le_zpow_right₀ (by norm_num) ?_
    unfold lastExponent
    omega
  have hhalf := printed_half_unit hy
  have htriangle := abs_sub_le x.value (printed x.value) y.value
  rw [abs_sub_comm x.value (printed x.value)] at htriangle
  rw [heq] at hhalf
  have hresolved : (10 : ℚ) ^ lastExponent 16 |x.value| ≤ 2 ^ x.gap := h
  linarith

end Resolved

section Alike

variable {x y z : Binary64}

/-- In the same decade, and equally far from the next double towards zero. -/
structure SameSpacing (x y : Binary64) : Prop where
  ne_zero : y.value ≠ 0
  decade : Int.log 10 |y.value| = Int.log 10 |x.value|
  gap : y.gap = x.gap

theorem SameSpacing.resolved_iff (h : SameSpacing x y) : y.Resolved ↔ x.Resolved := by
  rw [Resolved, Resolved, lastExponent, lastExponent, h.decade, h.gap]

/-- The last of the double's digits is even. -/
def EvenSignificand (x : Binary64) : Prop :=
  ∃ n : ℤ, x.value = 2 * n * 2 ^ max (-1074) (Int.log 2 |x.value| - 52)

/-- A number is read as the nearest double, and as the even one of two. -/
def ReadAs (z : ℚ) (x : Binary64) : Prop :=
  ∀ y : Binary64, y.value ≠ x.value →
    |z - x.value| < |z - y.value| ∨ |z - x.value| = |z - y.value| ∧ x.EvenSignificand

theorem ReadAs.even_of_two {d : ℚ} (hy : ReadAs d y) (hz : ReadAs d z) (hne : y.value ≠ z.value) :
    y.EvenSignificand ∧ z.EvenSignificand := by
  rcases hy z hne.symm with hlt | ⟨htie, heven⟩
  · rcases hz y hne with hlt' | ⟨htie', -⟩
    · exact absurd hlt' hlt.not_gt
    · exact absurd htie' hlt.ne'
  · rcases hz y hne with hlt' | ⟨-, heven'⟩
    · exact absurd htie hlt'.ne'
    · exact ⟨heven, heven'⟩

/-- A multiple of the distance with 53 digits, or with fewer at the least
exponent. -/
theorem exists_multiple {m : ℕ} {e : ℤ} (hpos : 0 < m) (hlt : m < 2 ^ 53) (hlow : -1074 ≤ e)
    (hhigh : e ≤ 971) (hfull : -1074 < e → 2 ^ 52 < m) :
    ∃ y : Binary64, y.value = m * 2 ^ e ∧ y.value ≠ 0 ∧ y.gap = e ∧
      (y.EvenSignificand → Even m) := by
  have htwo : (0 : ℚ) < 2 ^ e := zpow_pos (by norm_num) e
  have hm : (0 : ℚ) < m := mod_cast hpos
  have hvalue : (0 : ℚ) < m * 2 ^ e := mul_pos hm htwo
  have habove : (m : ℚ) * 2 ^ e < 2 ^ (e + 53) := by
    rw [add_comm, zpow_add₀ (by norm_num)]
    exact mul_lt_mul_of_pos_right (mod_cast hlt) htwo
  have hbelow : -1074 < e → (2 : ℚ) ^ (e + 52) < m * 2 ^ e := by
    intro h
    rw [add_comm, zpow_add₀ (by norm_num)]
    exact mul_lt_mul_of_pos_right (mod_cast hfull h) htwo
  refine ⟨⟨m * 2 ^ e, m, e, by rw [Int.cast_natCast], ?_, hlow, hhigh⟩, rfl, hvalue.ne',
    gap_eq_of_bounds hlow ?_ ?_ hvalue.ne', ?_⟩
  · rw [Nat.abs_cast]
    omega
  · rwa [abs_of_pos hvalue]
  · rw [abs_of_pos hvalue]
    exact habove.le
  · rintro ⟨n, hn⟩
    rw [abs_of_pos hvalue] at hn
    have hlog := (Int.lt_zpow_iff_log_lt (b := 2) (by decide) hvalue).mp
      (by push_cast; exact habove)
    have hexponent : max (-1074) (Int.log 2 ((m : ℚ) * 2 ^ e) - 52) = e := by
      rcases hlow.eq_or_lt with rfl | h
      · omega
      · have hge := (Int.zpow_le_iff_le_log (b := 2) (by decide) hvalue).mp
          (by push_cast; exact (hbelow h).le)
        omega
    rw [hexponent, mul_left_inj' htwo.ne'] at hn
    have heq : (m : ℤ) = 2 * n := mod_cast hn
    exact (Int.even_coe_nat m).mp ⟨n, by omega⟩

theorem decade_bounds (hx : x.value ≠ 0) :
    -324 ≤ Int.log 10 |x.value| ∧ Int.log 10 |x.value| < 320 := by
  obtain ⟨m, hm, hpos, -, hgap⟩ := exists_abs_eq hx
  have habs := abs_pos.mpr hx
  constructor
  · apply (Int.zpow_le_iff_le_log (b := 10) (by decide) habs).mp
    rw [Nat.cast_ofNat]
    calc
      (10 : ℚ) ^ (-324 : ℤ) ≤ 2 ^ (-1074 : ℤ) := by
        have hpow : ((2 : ℚ) ^ 179) ^ 6 ≤ (10 ^ 54) ^ 6 :=
          pow_le_pow_left₀ (by norm_num) (by norm_num) 6
        rw [← pow_mul, ← pow_mul] at hpow
        rw [zpow_neg, zpow_neg, zpow_ofNat, zpow_ofNat]
        exact inv_anti₀ (by positivity) hpow
      _ ≤ 2 ^ x.gap := zpow_le_zpow_right₀ (by norm_num) x.le_gap
      _ ≤ |x.value| := hm ▸ le_mul_of_one_le_left (zpow_pos (by norm_num) _).le (mod_cast hpos)
  · apply (Int.lt_zpow_iff_log_lt (b := 10) (by decide) habs).mp
    rw [Nat.cast_ofNat]
    calc
      |x.value| ≤ 2 ^ (x.gap + 53) := x.abs_le_zpow_gap
      _ ≤ 2 ^ (1024 : ℤ) := zpow_le_zpow_right₀ (by norm_num) (by omega)
      _ < 10 ^ (320 : ℤ) := by
        have hpow : ((2 : ℚ) ^ 256) ^ 4 < (10 ^ 80) ^ 4 :=
          pow_lt_pow_left₀ (by norm_num) (by norm_num) (by norm_num)
        rw [← pow_mul, ← pow_mul] at hpow
        rw [zpow_ofNat, zpow_ofNat]
        exact hpow

theorem zpow_gap_add (x : Binary64) (j : ℤ) : (2 : ℚ) ^ (x.gap + j) = 2 ^ j * 2 ^ x.gap := by
  rw [add_comm, zpow_add₀ (by norm_num)]

theorem zpow_log_le (hx : x.value ≠ 0) : (10 : ℚ) ^ Int.log 10 |x.value| ≤ |x.value| :=
  mod_cast Int.zpow_log_le_self (by decide) (abs_pos.mpr hx)

/-- A decade in which decimals are further apart than the doubles has room for a
thousand of them. -/
theorem decade_wide (hnot : ¬ x.Resolved) :
    10 ^ Int.log 10 |x.value| + 1003 * 2 ^ x.gap ≤ (10 : ℚ) ^ (Int.log 10 |x.value| + 1) := by
  have hcell : (2 : ℚ) ^ x.gap < 10 ^ (Int.log 10 |x.value| - 15) := by
    have hcell := not_le.mp hnot
    norm_num [lastExponent] at hcell
    exact hcell
  generalize Int.log 10 |x.value| = k at *
  have hu : (0 : ℚ) < 2 ^ x.gap := zpow_pos (by norm_num) _
  have hnext : (10 : ℚ) ^ (k + 1) = 10 ^ k * 10 := zpow_add_one₀ (by norm_num) k
  have hunits : (10 : ℚ) ^ (k - 15) * 10 ^ 15 = 10 ^ k := by
    rw [← zpow_natCast, ← zpow_add₀ (by norm_num)]
    norm_num
  rw [hnext]
  norm_num at hunits
  linarith

/-- The decade does not end close to the first double of the binade. -/
theorem binade_starts (hx : x.value ≠ 0) (h : -1074 < x.gap) :
    (2 ^ 52 + 1003) * 2 ^ x.gap < (10 : ℚ) ^ (Int.log 10 |x.value| + 1) := by
  obtain ⟨hlowest, hhighest⟩ := decade_bounds hx
  have hhigh : |x.value| < 10 ^ (Int.log 10 |x.value| + 1) :=
    mod_cast Int.lt_zpow_succ_log_self (b := 10) (by decide) |x.value|
  have hu : (0 : ℚ) < 2 ^ x.gap := zpow_pos (by norm_num) _
  have hapart := (zpow_apart (p := Int.log 10 |x.value| + 1) (abs_le.mpr ⟨by omega, by omega⟩)
    (x.gap + 52)).1 ((zpow_gap_lt hx h).trans hhigh)
  rw [zpow_gap_add] at hapart
  norm_num at hapart ⊢
  linarith

/-- And the binade does not end close to the first number of the decade. -/
theorem decade_starts (hx : x.value ≠ 0) (hone : |x.value| ≠ 1) :
    10 ^ Int.log 10 |x.value| + 1003 * 2 ^ x.gap ≤ (2 : ℚ) ^ (x.gap + 53) := by
  obtain ⟨hlowest, hhighest⟩ := decade_bounds hx
  have hlow := zpow_log_le hx
  generalize Int.log 10 |x.value| = k at *
  have hu : (0 : ℚ) < 2 ^ x.gap := zpow_pos (by norm_num) _
  have hne : (10 : ℚ) ^ k ≠ 2 ^ (x.gap + 53) := by
    intro heq
    have habs : |x.value| = 10 ^ k := le_antisymm (heq ▸ x.abs_le_zpow_gap) hlow
    by_cases hk : k = 0
    · exact hone (by rw [habs, hk, zpow_zero])
    · exact zpow_two_ne hk _ heq.symm
  have hapart := (zpow_apart (p := k) (abs_le.mpr ⟨by omega, by omega⟩) (x.gap + 53)).2
    (lt_of_le_of_ne (hlow.trans x.abs_le_zpow_gap) hne)
  rw [zpow_gap_add] at hapart ⊢
  norm_num at hapart ⊢
  linarith

/-- The first multiple of the distance that is in the decade and in the binade. -/
def firstMultiple (x : Binary64) : ℕ :=
  max (if -1074 < x.gap then 2 ^ 52 + 1 else 0) ⌈(10 : ℚ) ^ Int.log 10 |x.value| / 2 ^ x.gap⌉₊

/-- A thousand multiples from there on do not leave the decade or the binade. -/
theorem multiple_lt (hx : x.value ≠ 0) (hone : |x.value| ≠ 1) (hnot : ¬ x.Resolved) {m : ℕ}
    (hm : m ≤ x.firstMultiple + 1002) :
    (m : ℚ) * 2 ^ x.gap < 2 ^ (x.gap + 53) ∧
      (m : ℚ) * 2 ^ x.gap < 10 ^ (Int.log 10 |x.value| + 1) := by
  have hwide := decade_wide hnot
  have hend := decade_starts hx hone
  have hu : (0 : ℚ) < 2 ^ x.gap := zpow_pos (by norm_num) _
  have hdecade : (0 : ℚ) < 10 ^ Int.log 10 |x.value| := zpow_pos (by norm_num) _
  rcases le_max_iff.mp (Nat.sub_le_iff_le_add.mpr hm) with hfirst | hfirst
  · -- the first double of the binade is in the decade
    by_cases h : -1074 < x.gap
    · rw [if_pos h] at hfirst
      have hle : (m : ℚ) ≤ 2 ^ 52 + 1003 := by
        have : m ≤ 2 ^ 52 + 1003 := by omega
        exact_mod_cast this
      have hmul := mul_le_mul_of_nonneg_right hle hu.le
      rw [zpow_gap_add]
      exact ⟨hmul.trans_lt (mul_lt_mul_of_pos_right (by norm_num) hu),
        hmul.trans_lt (binade_starts hx h)⟩
    · rw [if_neg h] at hfirst
      have hle : (m : ℚ) ≤ 1002 := mod_cast (Nat.sub_eq_zero_iff_le.mp (Nat.le_zero.mp hfirst))
      have hmul := mul_le_mul_of_nonneg_right hle hu.le
      exact ⟨by linarith, by linarith⟩
  · have hceil_lt := Nat.ceil_lt_add_one (div_pos hdecade hu).le
    have hle : (m : ℚ) < 10 ^ Int.log 10 |x.value| / 2 ^ x.gap + 1003 := by
      have : (m : ℚ) ≤ ⌈(10 : ℚ) ^ Int.log 10 |x.value| / 2 ^ x.gap⌉₊ + 1002 := by
        have : m ≤ ⌈(10 : ℚ) ^ Int.log 10 |x.value| / 2 ^ x.gap⌉₊ + 1002 := by omega
        exact_mod_cast this
      linarith
    have hmul := mul_lt_mul_of_pos_right hle hu
    rw [add_mul, div_mul_cancel₀ _ hu.ne'] at hmul
    exact ⟨hmul.trans_le hend, hmul.trans_le hwide⟩

/-- Where decimals are further apart than the doubles, a thousand neighbouring
doubles fit into the decade. -/
theorem exists_neighbours (hx : x.value ≠ 0) (hone : |x.value| ≠ 1) (hnot : ¬ x.Resolved) :
    ∃ m₀ : ℕ, 0 < m₀ ∧ ∀ m : ℕ, m₀ ≤ m → m ≤ m₀ + 1002 →
      m < 2 ^ 53 ∧ (-1074 < x.gap → 2 ^ 52 < m) ∧
        Int.log 10 ((m : ℚ) * 2 ^ x.gap) = Int.log 10 |x.value| := by
  have hu : (0 : ℚ) < 2 ^ x.gap := zpow_pos (by norm_num) _
  have hdecade : (0 : ℚ) < 10 ^ Int.log 10 |x.value| := zpow_pos (by norm_num) _
  refine ⟨x.firstMultiple, lt_max_of_lt_right (Nat.ceil_pos.mpr (div_pos hdecade hu)),
    fun m hm hm' => ?_⟩
  obtain ⟨hfull, hceil⟩ := max_le_iff.mp hm
  obtain ⟨hbinade, habove⟩ := multiple_lt hx hone hnot hm'
  have hbelow : (10 : ℚ) ^ Int.log 10 |x.value| ≤ m * 2 ^ x.gap :=
    (div_le_iff₀ hu).mp (Nat.ceil_le.mp hceil)
  have hpos : (0 : ℚ) < m * 2 ^ x.gap := hdecade.trans_le hbelow
  refine ⟨?_, fun h => ?_, le_antisymm ?_ ?_⟩
  · rw [zpow_gap_add, mul_lt_mul_iff_left₀ hu] at hbinade
    exact_mod_cast hbinade
  · rw [if_pos h] at hfull
    exact hfull
  · apply Int.lt_add_one_iff.mp
    exact (Int.lt_zpow_iff_log_lt (b := 10) (by decide) hpos).mp (by push_cast; exact habove)
  · exact (Int.zpow_le_iff_le_log (b := 10) (by decide) hpos).mp (by push_cast; exact hbelow)

/-- Two of these neighbours are printed alike. -/
theorem exists_printed_alike (hx : x.value ≠ 0) (hone : |x.value| ≠ 1) (hnot : ¬ x.Resolved) :
    ∃ y z : Binary64, SameSpacing x y ∧ SameSpacing x z ∧ y.value ≠ z.value ∧
      printed y.value = printed z.value ∧ ¬ (y.EvenSignificand ∧ z.EvenSignificand) := by
  obtain ⟨m₀, hpos, hneighbours⟩ := exists_neighbours hx hone hnot
  have hu : (0 : ℚ) < 2 ^ x.gap := zpow_pos (by norm_num) _
  have hcell : (0 : ℚ) < 10 ^ lastExponent 16 |x.value| := zpow_pos (by norm_num) _
  have hvalue : ∀ i : ℕ, (0 : ℚ) < (m₀ + i : ℕ) * 2 ^ x.gap := fun i =>
    mul_pos (mod_cast Nat.add_pos_left hpos i) hu
  have hunit : ∀ i ≤ 1002, lastExponent 16 (((m₀ + i : ℕ) : ℚ) * 2 ^ x.gap) =
      lastExponent 16 |x.value| := fun i hi => by
    rw [lastExponent, (hneighbours (m₀ + i) (by omega) (by omega)).2.2, lastExponent]
  -- in units of the last digit, the distance is a thousandth below one
  have hsmall : (1002 : ℕ) * ((2 : ℚ) ^ x.gap / 10 ^ lastExponent 16 |x.value|) + 1 <
      (1002 : ℕ) := by
    have hbounds := decade_bounds hx
    have hrange : |(lastExponent 16 |x.value|)| ≤ 340 := by
      unfold lastExponent
      exact abs_le.mpr ⟨by push_cast; omega, by push_cast; omega⟩
    have hapart := (zpow_apart hrange x.gap).1 (not_le.mp hnot)
    rw [mul_div_assoc', div_add' _ _ _ hcell.ne', div_lt_iff₀ hcell]
    push_cast
    linarith
  obtain ⟨i, hi, hle⟩ := exists_succ_le
    (f := fun i => roundedDigits 16 (((m₀ + i : ℕ) : ℚ) * 2 ^ x.gap))
    (a := m₀ * 2 ^ x.gap / 10 ^ lastExponent 16 |x.value|) (fun i hi => by
      have herror := roundHalfEven_error
        (((m₀ + i : ℕ) : ℚ) * 2 ^ x.gap / 10 ^ lastExponent 16 |x.value|)
      rw [roundedDigits, hunit i hi]
      convert herror using 3
      push_cast
      ring) hsmall
  obtain ⟨hlt, hfull, hdecade⟩ := hneighbours (m₀ + i) (by omega) (by omega)
  obtain ⟨hlt', hfull', hdecade'⟩ := hneighbours (m₀ + (i + 1)) (by omega) (by omega)
  obtain ⟨_, -, -, -, hhigh⟩ := exists_abs_eq hx
  obtain ⟨y, hy, hy0, hygap, hyeven⟩ :=
    exists_multiple (Nat.add_pos_left hpos i) hlt x.le_gap hhigh hfull
  obtain ⟨z, hz, hz0, hzgap, hzeven⟩ :=
    exists_multiple (Nat.add_pos_left hpos (i + 1)) hlt' x.le_gap hhigh hfull'
  have hyz : y.value < z.value := by
    rw [hy, hz]
    exact mul_lt_mul_of_pos_right (by norm_num) hu
  refine ⟨y, z, ⟨hy0, ?_, hygap⟩, ⟨hz0, ?_, hzgap⟩, hyz.ne, ?_, ?_⟩
  · rwa [hy, abs_of_pos (hvalue i)]
  · rwa [hz, abs_of_pos (hvalue (i + 1))]
  · have hmono := rounded_mono (show 0 < 16 by decide) (hy ▸ hvalue i) hyz.le
    rw [hy, hz, printed_of_pos (hvalue i), printed_of_pos (hvalue (i + 1))]
    rw [hy, hz] at hmono
    refine le_antisymm hmono ?_
    rw [(significant_spec (by decide) (hvalue i)).2,
      (significant_spec (by decide) (hvalue (i + 1))).2, hunit i hi.le, hunit (i + 1) hi]
    exact mul_le_mul_of_nonneg_right (mod_cast hle) hcell.le
  · rintro ⟨heven, heven'⟩
    have := hyeven heven
    have := hzeven heven'
    grind

end Alike

theorem writeValue_eq_iff (x y : ℚ) :
    writeValue (Double.finite x) = writeValue (Double.finite y) ↔ printed x = printed y :=
  finiteText_eq_iff (by decide) x y

/-- A double that is a decimal of 16 digits itself is recovered, whatever lies
around it. -/
theorem readAs_of_isDecimal {x : Binary64} (h : IsDecimal 16 x.value) :
    ReadAs (readNumber (writeValue (Double.finite x.value))) x := by
  intro y hne
  have hexact : readNumber (writeValue (Double.finite x.value)) = x.value := printed_eq_self h
  left
  rw [hexact, sub_self, abs_zero]
  exact abs_pos.mpr (sub_ne_zero.mpr hne.symm)

/-- The doubles of a decade that are equally far from the next double towards
zero are told apart by their texts, and are each recovered from it, exactly when
decimals of 16 digits lie at least as close together. A double of this kind is
then told apart from every double up to it. The doubles that are decimals of 16
digits, such as zero and one, are recovered in any case. -/
theorem recovered_iff (x : Binary64) :
    (x.value ≠ 0 → |x.value| ≠ 1 →
      ((∀ y z : Binary64, SameSpacing x y → SameSpacing x z → y.value ≠ z.value →
          writeValue (Double.finite y.value) ≠ writeValue (Double.finite z.value)) ↔
        x.Resolved) ∧
      ((∀ y : Binary64, SameSpacing x y →
        ReadAs (readNumber (writeValue (Double.finite y.value))) y) ↔ x.Resolved) ∧
      (x.Resolved → ∀ y : Binary64, |y.value| ≤ |x.value| → y.value ≠ x.value →
        writeValue (Double.finite y.value) ≠ writeValue (Double.finite x.value))) ∧
    (IsDecimal 16 x.value → ReadAs (readNumber (writeValue (Double.finite x.value))) x) := by
  refine ⟨fun hx hone => ?_, readAs_of_isDecimal⟩
  have hdistinct {y z : Binary64} (hz : SameSpacing x z) (h : x.Resolved)
      (hle : |y.value| ≤ |z.value|) (hne : y.value ≠ z.value) :
      writeValue (Double.finite y.value) ≠ writeValue (Double.finite z.value) := by
    rw [Ne, writeValue_eq_iff]
    exact (hz.resolved_iff.mpr h).printed_ne hz.ne_zero hle hne
  refine ⟨⟨fun h => ?_, fun h y z hy hz hne => ?_⟩, ⟨fun h => ?_, fun h y hy z hne => ?_⟩,
    fun h y hle hne => hdistinct ⟨hx, rfl, rfl⟩ h hle hne⟩
  · by_contra hnot
    obtain ⟨y, z, hy, hz, hne, heq, -⟩ := exists_printed_alike hx hone hnot
    exact h y z hy hz hne ((writeValue_eq_iff _ _).mpr heq)
  · rcases le_total |y.value| |z.value| with hle | hle
    · exact hdistinct hz h hle hne
    · exact (hdistinct hy h hle hne.symm).symm
  · by_contra hnot
    obtain ⟨y, z, hy, hz, hne, heq, hodd⟩ := exists_printed_alike hx hone hnot
    have hread := h z hz
    rw [← (writeValue_eq_iff _ _).mpr heq] at hread
    exact hodd ((h y hy).even_of_two hread hne)
  · exact Or.inl ((hy.resolved_iff.mpr h).nearest hy.ne_zero hne)

/-- A double of more than four quadrillions. -/
def quadrillions : Binary64 :=
  ⟨4503599627370497, 4503599627370497, 0, by norm_num, by norm_num, by norm_num, by norm_num⟩

theorem recovered_iff_quadrillions :
    ReadAs (readNumber (writeValue (Double.finite quadrillions.value))) quadrillions ∧
      writeValue (Double.finite 4503599627370496) ≠
        writeValue (Double.finite quadrillions.value) := by
  obtain ⟨-, hread, hdistinct⟩ :=
    (recovered_iff quadrillions).1 (by decide +kernel) (by decide +kernel)
  have hresolved : quadrillions.Resolved := by decide +kernel
  exact ⟨hread.mpr hresolved _ ⟨by decide +kernel, rfl, rfl⟩,
    hdistinct hresolved ⟨4503599627370496, 2 ^ 52, 0, by norm_num, by norm_num, by norm_num,
      by norm_num⟩ (by decide +kernel) (by decide +kernel)⟩

/-- Two neighbouring doubles are both printed as `0.3`, so no reader recovers
them. -/
theorem writeValue_eq_three_tenths :
    (∃ x y : Binary64, x.value ≠ y.value ∧
      writeValue (Double.finite x.value) = writeValue (Double.finite y.value)) ∧
    ¬ ∃ read : Str → ℚ, ∀ x : Binary64, read (writeValue (Double.finite x.value)) = x.value := by
  have halike : ∃ x y : Binary64, x.value ≠ y.value ∧
      writeValue (Double.finite x.value) = writeValue (Double.finite y.value) := by
    refine ⟨⟨5404319552844595 / 2 ^ 54, 5404319552844595, -54, by norm_num⟩,
      ⟨5404319552844596 / 2 ^ 54, 5404319552844596, -54, by norm_num⟩, by norm_num, ?_⟩
    decide +kernel
  refine ⟨halike, ?_⟩
  rintro ⟨read, hread⟩
  obtain ⟨x, y, hne, heq⟩ := halike
  exact hne (by rw [← hread x, heq, hread y])

end Binary64

end Promcore
