import Promcore.Metrics.Values
import Mathlib.Data.Int.Log

/-!
# Numbers as text

What the stream writes for integers and, in its default format, for doubles:
the given number of significant digits, correctly rounded, in fixed notation
for moderate exponents and in scientific notation otherwise, without trailing
zeros.
-/

namespace Promcore

/-- An unsigned integer in decimal. -/
def natText (n : ℕ) : Str := Nat.toDigits 10 n

def intText (i : ℤ) : Str := if i < 0 then '-' :: natText i.natAbs else natText i.natAbs

/-- To the nearest integer, to the even one of two. -/
def roundHalfEven (x : ℚ) : ℤ :=
  if x - ⌊x⌋ < 1 / 2 then ⌊x⌋
  else if 1 / 2 < x - ⌊x⌋ then ⌊x⌋ + 1
  else if ⌊x⌋ % 2 = 0 then ⌊x⌋ else ⌊x⌋ + 1

/-- The significant digits of a positive number, as an integer, and the decimal
exponent of the first of them. -/
def significant (precision : ℕ) (x : ℚ) : ℕ × ℤ :=
  let exponent := Int.log 10 x
  let digits := (roundHalfEven (x / 10 ^ (exponent - (precision - 1)))).toNat
  if digits = 10 ^ precision then (10 ^ (precision - 1), exponent + 1) else (digits, exponent)

def stripZeros (digits : Str) : Str := (digits.reverse.dropWhile (· = '0')).reverse

/-- A point and the digits after it, or nothing. -/
def fractionText (digits : Str) : Str :=
  if (stripZeros digits).isEmpty then [] else '.' :: stripZeros digits

/-- The sign and at least two digits. -/
def exponentText (exponent : ℤ) : Str :=
  (if exponent < 0 then '-' else '+') ::
    (if exponent.natAbs < 10 then '0' :: natText exponent.natAbs else natText exponent.natAbs)

/-- `%.*g` of a positive number. -/
def positiveText (precision : ℕ) (x : ℚ) : Str :=
  let (m, exponent) := significant precision x
  let digits := natText m
  if exponent < -4 ∨ precision ≤ exponent then
    digits.take 1 ++ fractionText (digits.drop 1) ++ 'e' :: exponentText exponent
  else if exponent < 0 then
    '0' :: fractionText (List.replicate (exponent.natAbs - 1) '0' ++ digits)
  else digits.take (exponent.toNat + 1) ++ fractionText (digits.drop (exponent.toNat + 1))

/-- A finite double in the default format. -/
def finiteText (precision : ℕ) (x : ℚ) : Str :=
  if x = 0 then natText 0
  else if x < 0 then '-' :: positiveText precision (-x) else positiveText precision x

/-- The characters that numbers are written with. -/
def IsNumeral (c : Char) : Prop := c.isDigit = true ∨ c ∈ ['.', 'e', '+', '-']

theorem natText_numeral {n : ℕ} {c : Char} (h : c ∈ natText n) : IsNumeral c :=
  Or.inl (Nat.isDigit_of_mem_toDigits (by decide) (by decide) h)

theorem intText_numeral {i : ℤ} {c : Char} (h : c ∈ intText i) : IsNumeral c := by
  unfold intText at h
  split at h
  · rcases List.mem_cons.mp h with rfl | h
    · exact Or.inr (by decide)
    · exact natText_numeral h
  · exact natText_numeral h

theorem fractionText_numeral {digits : Str} (hdigits : ∀ c ∈ digits, IsNumeral c) {c : Char}
    (h : c ∈ fractionText digits) : IsNumeral c := by
  unfold fractionText at h
  split at h
  · simp at h
  · rcases List.mem_cons.mp h with rfl | h
    · exact Or.inr (by decide)
    · rw [stripZeros, List.mem_reverse] at h
      exact hdigits c (List.mem_reverse.mp ((List.dropWhile_suffix _).subset h))

theorem exponentText_numeral {exponent : ℤ} {c : Char} (h : c ∈ exponentText exponent) :
    IsNumeral c := by
  rcases List.mem_cons.mp h with rfl | h
  · split <;> exact Or.inr (by decide)
  · split at h
    · rcases List.mem_cons.mp h with rfl | h
      · exact Or.inl (by decide)
      · exact natText_numeral h
    · exact natText_numeral h

theorem positiveText_numeral {precision : ℕ} {x : ℚ} {c : Char} (h : c ∈ positiveText precision x) :
    IsNumeral c := by
  have hdigits : ∀ c ∈ natText (significant precision x).1, IsNumeral c := fun c => natText_numeral
  unfold positiveText at h
  dsimp only at h
  split at h
  · rcases List.mem_append.mp h with h | h
    · rcases List.mem_append.mp h with h | h
      · exact hdigits c (List.mem_of_mem_take h)
      · exact fractionText_numeral (fun d hd => hdigits d (List.mem_of_mem_drop hd)) h
    · rcases List.mem_cons.mp h with rfl | h
      · exact Or.inr (by decide)
      · exact exponentText_numeral h
  · split at h
    · rcases List.mem_cons.mp h with rfl | h
      · exact Or.inl (by decide)
      · refine fractionText_numeral (fun d hd => ?_) h
        rcases List.mem_append.mp hd with hd | hd
        · rw [List.eq_of_mem_replicate hd]
          exact Or.inl (by decide)
        · exact hdigits d hd
    · rcases List.mem_append.mp h with h | h
      · exact hdigits c (List.mem_of_mem_take h)
      · exact fractionText_numeral (fun d hd => hdigits d (List.mem_of_mem_drop hd)) h

theorem finiteText_numeral {precision : ℕ} {x : ℚ} {c : Char} (h : c ∈ finiteText precision x) :
    IsNumeral c := by
  unfold finiteText at h
  split at h
  · exact natText_numeral h
  · split at h
    · rcases List.mem_cons.mp h with rfl | h
      · exact Or.inr (by decide)
      · exact positiveText_numeral h
    · exact positiveText_numeral h

example : finiteText 16 (3 / 20) = "0.15".toList := by decide +kernel

example : finiteText 16 (-(10 ^ 20 : ℚ) / 3) = "-3.333333333333333e+19".toList := by decide +kernel

end Promcore
