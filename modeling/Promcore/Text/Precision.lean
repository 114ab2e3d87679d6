import Promcore.Library.Decimals
import Promcore.Text.Numerals
import Promcore.Text.TextSerializer
import Mathlib.Data.Sign.Basic

/-!
# What the printed doubles tell apart

The stream rounds correctly to the digits of its precision, and the text
determines the rounded number.
-/

namespace Promcore

open Decimals

theorem roundHalfEven_le_iff (t : ℚ) (n : ℤ) :
    roundHalfEven t ≤ n ↔ t < n + 1 / 2 ∨ t = n + 1 / 2 ∧ Even n := by
  have hfloor := Int.floor_le t
  have hceil := Int.lt_floor_add_one t
  unfold roundHalfEven
  rcases lt_trichotomy ⌊t⌋ n with hlt | heq | hgt
  · have hn : (⌊t⌋ : ℚ) + 1 ≤ n := mod_cast hlt
    refine iff_of_true ?_ (Or.inl (by linarith))
    split_ifs <;> omega
  · subst heq
    have hparity : Even ⌊t⌋ ↔ ⌊t⌋ % 2 = 0 := Int.even_iff
    rw [hparity]
    split_ifs with hlow hhigh heven
    · exact iff_of_true le_rfl (Or.inl (by linarith))
    · exact iff_of_false (by omega) (by rintro (h | ⟨h, -⟩) <;> linarith)
    · exact iff_of_true le_rfl (Or.inr ⟨by linarith, heven⟩)
    · exact iff_of_false (by omega) (by rintro (h | ⟨-, h⟩) <;> [linarith; exact heven h])
  · have hn : (n : ℚ) + 1 ≤ ⌊t⌋ := mod_cast hgt
    refine iff_of_false ?_ (by rintro (h | ⟨h, -⟩) <;> linarith)
    split_ifs <;> omega

theorem le_roundHalfEven {t : ℚ} {n : ℤ} (h : (n : ℚ) ≤ t) : n ≤ roundHalfEven t := by
  by_contra hlt
  have hle : roundHalfEven t ≤ n - 1 := by omega
  have hcast : ((n - 1 : ℤ) : ℚ) = n - 1 := by push_cast; ring
  rcases (roundHalfEven_le_iff t (n - 1)).mp hle with hlt | ⟨heq, -⟩ <;> rw [hcast] at * <;> linarith

/-- The number that is printed for a positive one. -/
def rounded (precision : ℕ) (x : ℚ) : ℚ :=
  (significant precision x).1 * 10 ^ ((significant precision x).2 - (precision - 1))

section Rounded

variable {precision : ℕ} {x : ℚ}

/-- The power of ten that the last digit counts, before rounding. -/
def lastExponent (precision : ℕ) (x : ℚ) : ℤ := Int.log 10 x - (precision - 1)

/-- Scaled to integers, a number has the digits of the precision. -/
theorem scaled_bounds (hp : 0 < precision) (hx : 0 < x) :
    (10 : ℚ) ^ (precision - 1) ≤ x / 10 ^ lastExponent precision x ∧
      x / 10 ^ lastExponent precision x < 10 ^ precision := by
  have hpos : (0 : ℚ) < 10 ^ lastExponent precision x := zpow_pos (by norm_num) _
  have hcast : ((precision - 1 : ℕ) : ℤ) = precision - 1 := by omega
  have hlow : (10 : ℚ) ^ Int.log 10 x ≤ x := mod_cast Int.zpow_log_le_self (by decide) hx
  have hhigh : x < (10 : ℚ) ^ (Int.log 10 x + 1) :=
    mod_cast Int.lt_zpow_succ_log_self (b := 10) (by decide) x
  rw [le_div_iff₀ hpos, div_lt_iff₀ hpos, ← zpow_natCast, ← zpow_natCast,
    ← zpow_add₀ (by norm_num), ← zpow_add₀ (by norm_num), hcast, lastExponent]
  have hfirst : (precision : ℤ) - 1 + (Int.log 10 x - (precision - 1)) = Int.log 10 x := by ring
  have hlast : (precision : ℤ) + (Int.log 10 x - (precision - 1)) = Int.log 10 x + 1 := by ring
  rw [hfirst, hlast]
  exact ⟨hlow, hhigh⟩

/-- The digits before a carry into one more. -/
def roundedDigits (precision : ℕ) (x : ℚ) : ℤ :=
  roundHalfEven (x / 10 ^ lastExponent precision x)

theorem roundedDigits_bounds (hp : 0 < precision) (hx : 0 < x) :
    (10 : ℤ) ^ (precision - 1) ≤ roundedDigits precision x ∧
      roundedDigits precision x ≤ 10 ^ precision := by
  obtain ⟨hlow, hhigh⟩ := scaled_bounds hp hx
  constructor
  · exact le_roundHalfEven (by push_cast; exact hlow)
  · exact (roundHalfEven_le_iff _ _).mpr (Or.inl (by push_cast; linarith))

theorem significant_spec (hp : 0 < precision) (hx : 0 < x) :
    HasDigits 10 precision (significant precision x).1 ∧
      rounded precision x = roundedDigits precision x * 10 ^ lastExponent precision x := by
  obtain ⟨hlow, hhigh⟩ := roundedDigits_bounds hp hx
  have hnonneg : 0 ≤ roundedDigits precision x := le_trans (by positivity) hlow
  obtain ⟨n, hn⟩ := Int.eq_ofNat_of_zero_le hnonneg
  rw [hn] at hlow hhigh
  have hlow' : 10 ^ (precision - 1) ≤ n := mod_cast hlow
  have hhigh' : n ≤ 10 ^ precision := mod_cast hhigh
  have hpow : (10 : ℕ) ^ precision = 10 ^ (precision - 1) * 10 := by
    rw [← pow_succ, Nat.sub_add_cancel hp]
  have hdigits : (roundHalfEven (x / 10 ^ (Int.log 10 x - ((precision : ℤ) - 1)))).toNat = n := by
    have : roundHalfEven (x / 10 ^ (Int.log 10 x - ((precision : ℤ) - 1))) = n := hn
    rw [this, Int.toNat_natCast]
  unfold rounded significant HasDigits lastExponent
  rw [hn]
  dsimp only
  rw [hdigits]
  split_ifs with hcarry
  · refine ⟨⟨le_rfl, Nat.pow_lt_pow_right (by norm_num) (by omega)⟩, ?_⟩
    have hexponent : Int.log 10 x + 1 - ((precision : ℤ) - 1) =
        Int.log 10 x - (precision - 1) + 1 := by ring
    rw [hcarry, hexponent, zpow_add_one₀ (by norm_num), hpow]
    push_cast
    ring
  · exact ⟨⟨hlow', lt_of_le_of_ne hhigh' hcarry⟩, by push_cast; rfl⟩

/-- The stream rounds correctly. -/
theorem rounded_rounding (hp : 0 < precision) : Rounding 10 precision (rounded precision) where
  digits x hx := by
    refine ⟨(significant precision x).1, (significant precision x).2 - (precision - 1),
      (significant_spec hp hx).1, ?_⟩
    rw [rounded, Nat.cast_ofNat]
  le_iff x hx d k hd := by
    obtain ⟨hlow, hhigh⟩ := roundedDigits_bounds hp hx
    obtain ⟨hlow', hhigh'⟩ := scaled_bounds hp hx
    have hpos : ∀ k : ℤ, (0 : ℚ) < 10 ^ k := zpow_pos (by norm_num)
    rw [le_div_iff₀ (hpos _)] at hlow'
    rw [div_lt_iff₀ (hpos _)] at hhigh'
    have hsucc : (d : ℚ) + 1 ≤ 10 ^ precision := mod_cast hd.2
    rw [(significant_spec hp hx).2, Below, halfway, Nat.cast_ofNat]
    rcases lt_trichotomy k (lastExponent precision x) with hlt | rfl | hgt
    · -- a smaller exponent: all these numbers are below the decade
      have hdecade := pow_mul_zpow_le (b := 10) (by decide) hp le_rfl hlt
      push_cast at hdecade
      have hrounded : (10 : ℚ) ^ (precision - 1) * 10 ^ lastExponent precision x ≤
          roundedDigits precision x * 10 ^ lastExponent precision x :=
        mul_le_mul_of_nonneg_right (mod_cast hlow) (hpos _).le
      have hmid : ((d : ℚ) + 1 / 2) * 10 ^ k < 10 ^ precision * 10 ^ k :=
        mul_lt_mul_of_pos_right (by linarith) (hpos k)
      have hd' : (d : ℚ) * 10 ^ k < 10 ^ precision * 10 ^ k :=
        mul_lt_mul_of_pos_right (by linarith) (hpos k)
      refine iff_of_false (by linarith) ?_
      rintro (h | ⟨h, -⟩) <;> linarith
    · rw [mul_le_mul_iff_left₀ (hpos _), ← div_lt_iff₀ (hpos _), ← div_eq_iff (hpos _).ne']
      have hround := roundHalfEven_le_iff (x / 10 ^ lastExponent precision x) d
      rw [Int.even_coe_nat] at hround
      exact_mod_cast hround
    · -- a larger exponent: the whole decade is below these numbers
      have hdecade := pow_mul_zpow_le (b := 10) (by decide) hp hd.1 hgt
      push_cast at hdecade
      have hrounded : (roundedDigits precision x : ℚ) * 10 ^ lastExponent precision x ≤
          10 ^ precision * 10 ^ lastExponent precision x :=
        mul_le_mul_of_nonneg_right (mod_cast hhigh) (hpos _).le
      have hmid : (d : ℚ) * 10 ^ k < ((d : ℚ) + 1 / 2) * 10 ^ k :=
        mul_lt_mul_of_pos_right (by linarith) (hpos k)
      exact iff_of_true (by linarith) (Or.inl (by linarith))

theorem length_natText (hp : 0 < precision) {m : ℕ} (hm : HasDigits 10 precision m) :
    (natText m).length = precision := by
  obtain ⟨hlow, hhigh⟩ := hm
  apply le_antisymm ((Nat.length_toDigits_le_iff (by decide) hp).mpr hhigh)
  by_contra hlt
  cases precision with
  | zero => exact absurd hp (Nat.lt_irrefl 0)
  | succ n =>
      have hle : (natText m).length ≤ n := Nat.lt_succ_iff.mp (not_le.mp hlt)
      have hpos : 0 < n := Nat.length_toDigits_pos.trans_le hle
      exact absurd ((Nat.length_toDigits_le_iff (by decide) hpos).mp hle) (not_lt.mpr hlow)

theorem div_pow_eq (m : ℚ) {n : ℕ} (exponent : ℤ) (h : exponent = -n) :
    m / 10 ^ n = m * 10 ^ exponent := by
  rw [h, zpow_neg, zpow_natCast, div_eq_mul_inv]

/-- What is printed is read back as the rounded number. -/
theorem readPositive_positiveText (hp : 0 < precision) (hx : 0 < x) :
    readPositive (positiveText precision x) = rounded precision x := by
  have hlength := length_natText hp (significant_spec hp hx).1
  unfold positiveText rounded
  generalize significant precision x = r at hlength ⊢
  obtain ⟨m, exponent⟩ := r
  dsimp only at hlength ⊢
  have hdigits := isDigits_natText m
  have htake (i : ℕ) : IsDigits ((natText m).take i) := fun c hc => hdigits c (List.mem_of_mem_take hc)
  have hdrop (i : ℕ) : IsDigits ((natText m).drop i) := fun c hc => hdigits c (List.mem_of_mem_drop hc)
  have hvalue : Nat.ofDigitChars 10 (natText m) 0 = m := Nat.ofDigitChars_ten_toDigits
  have hpoint (i : ℕ) := take_add_fractionValue (natText m) i
  rw [hvalue, hlength] at hpoint
  split_ifs with hscientific hsmall
  · rw [readPositive_scientific (not_mem_fixed (htake 1) (hdrop 1)), readFixed_append (htake 1),
      hpoint, div_pow_eq m (1 - precision) (by omega), mul_assoc,
      ← zpow_add₀ (by norm_num)]
    congr 2
    ring
  · have hzero : IsDigits ['0'] := isDigits_zeros 1
    have hfraction := (isDigits_zeros (exponent.natAbs - 1)).append hdigits
    rw [← List.singleton_append, readPositive_fixed (not_mem_fixed hzero hfraction),
      readFixed_append hzero, fractionValue, Nat.ofDigitChars_append,
      Nat.ofDigitChars_replicate_zero, Nat.mul_zero, hvalue, List.length_append,
      List.length_replicate, hlength]
    rw [div_pow_eq m (exponent - (precision - 1)) (by omega)]
    simp [Nat.ofDigitChars_cons]
  · rw [readPositive_fixed (not_mem_fixed (htake _) (hdrop _)), readFixed_append (htake _), hpoint]
    exact div_pow_eq m _ (by omega)

/-- The text says which number was rounded to, and nothing else. -/
theorem positiveText_eq_iff {y : ℚ} (hp : 0 < precision) (hx : 0 < x) (hy : 0 < y) :
    positiveText precision x = positiveText precision y ↔
      rounded precision x = rounded precision y := by
  constructor
  · intro h
    rw [← readPositive_positiveText hp hx, h, readPositive_positiveText hp hy]
  · intro h
    obtain ⟨hdigits, hexponent⟩ := HasDigits.unique (by decide) hp (significant_spec hp hx).1
      (significant_spec hp hy).1 (by push_cast; exact h)
    have hsignificant : significant precision x = significant precision y :=
      Prod.ext hdigits (sub_left_injective hexponent)
    rw [positiveText, hsignificant, positiveText]

/-- The text of a positive number starts with a digit. -/
theorem exists_positiveText (precision : ℕ) (x : ℚ) :
    ∃ c text, positiveText precision x = c :: text ∧ c.isDigit = true := by
  have hdigits := isDigits_natText (significant precision x).1
  obtain ⟨c, rest, hrest⟩ :=
    List.exists_cons_of_ne_nil (Nat.toDigits_ne_nil (n := (significant precision x).1) (b := 10))
  have htext : natText (significant precision x).1 = c :: rest := hrest
  have hc := hdigits c (htext ▸ List.mem_cons_self)
  unfold positiveText
  dsimp only
  rw [htext]
  split_ifs
  · exact ⟨c, _, rfl, hc⟩
  · exact ⟨'0', _, rfl, rfl⟩
  · exact ⟨c, _, rfl, hc⟩

/-- The sign of a number is seen in its text. -/
theorem readNumber_positiveText (hp : 0 < precision) (hx : 0 < x) :
    readNumber (positiveText precision x) = rounded precision x := by
  obtain ⟨c, text, htext, hc⟩ := exists_positiveText precision x
  rw [← readPositive_positiveText hp hx, htext]
  unfold readNumber
  split
  · next heq =>
      rw [(List.cons_eq_cons.mp heq).1] at hc
      cases hc
  · rfl

theorem readNumber_finiteText (hp : 0 < precision) :
    readNumber (finiteText precision x) =
      if x = 0 then 0 else if x < 0 then -rounded precision (-x) else rounded precision x := by
  unfold finiteText
  split_ifs with hzero hneg
  · decide +kernel
  · rw [readNumber, readPositive_positiveText hp (neg_pos.mpr hneg)]
  · exact readNumber_positiveText hp (lt_of_le_of_ne (not_lt.mp hneg) (Ne.symm hzero))

/-- The sign of what is read back. -/
theorem sign_readNumber (hp : 0 < precision) :
    SignType.sign (readNumber (finiteText precision x)) = SignType.sign x := by
  have hpos : ∀ {x : ℚ}, 0 < x → 0 < rounded precision x := (rounded_rounding hp).pos (by decide)
  rw [readNumber_finiteText hp]
  split_ifs with hzero hneg
  · rw [hzero]
  · rw [sign_neg hneg, sign_neg (neg_lt_zero.mpr (hpos (neg_pos.mpr hneg)))]
  · have hx : 0 < x := lt_of_le_of_ne (not_lt.mp hneg) (Ne.symm hzero)
    rw [sign_pos hx, sign_pos (hpos hx)]

end Rounded

/-- Two numbers are printed alike exactly when they are read back alike. -/
theorem finiteText_eq_iff {precision : ℕ} (hp : 0 < precision) (x y : ℚ) :
    finiteText precision x = finiteText precision y ↔
      readNumber (finiteText precision x) = readNumber (finiteText precision y) := by
  refine ⟨congrArg readNumber, fun h => ?_⟩
  have hsign : SignType.sign x = SignType.sign y := by
    rw [← sign_readNumber hp, h, sign_readNumber hp]
  rcases lt_trichotomy x 0 with hx | rfl | hx
  · have hy : y < 0 := sign_eq_neg_one_iff.mp (hsign ▸ sign_neg hx)
    rw [readNumber_finiteText hp, readNumber_finiteText hp, if_neg hx.ne, if_pos hx, if_neg hy.ne,
      if_pos hy, neg_inj, ← positiveText_eq_iff hp (neg_pos.mpr hx) (neg_pos.mpr hy)] at h
    rw [finiteText, finiteText, if_neg hx.ne, if_pos hx, if_neg hy.ne, if_pos hy, h]
  · obtain rfl : y = 0 := sign_eq_zero_iff.mp (hsign ▸ sign_zero)
    rfl
  · have hy : 0 < y := sign_eq_one_iff.mp (hsign ▸ sign_pos hx)
    rw [readNumber_finiteText hp, readNumber_finiteText hp, if_neg hx.ne', if_neg hx.not_gt,
      if_neg hy.ne', if_neg hy.not_gt, ← positiveText_eq_iff hp hx hy] at h
    rw [finiteText, finiteText, if_neg hx.ne', if_neg hx.not_gt, if_neg hy.ne', if_neg hy.not_gt, h]

end Promcore
