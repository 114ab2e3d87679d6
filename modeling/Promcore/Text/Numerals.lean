import Promcore.Library.Lines
import Promcore.Text.Numbers

/-!
# Reading printed numbers

A reader of decimal numbers, in fixed and in scientific notation. It recovers
the digits and the exponent that were printed.
-/

namespace Promcore

open Lines

/-- The number that digits after a point stand for. -/
def fractionValue (digits : Str) : ℚ := (Nat.ofDigitChars 10 digits 0 : ℚ) / 10 ^ digits.length

/-- Digits with or without a point. -/
def readFixed (text : Str) : ℚ :=
  (Nat.ofDigitChars 10 (text.takeWhile (· ≠ '.')) 0 : ℚ) +
    fractionValue ((text.dropWhile (· ≠ '.')).drop 1)

/-- A signed exponent, or none. -/
def readExponent : Str → ℤ
  | [] => 0
  | '-' :: digits => -(Nat.ofDigitChars 10 digits 0 : ℤ)
  | _ :: digits => Nat.ofDigitChars 10 digits 0

def readPositive (text : Str) : ℚ :=
  readFixed (text.takeWhile (· ≠ 'e')) * 10 ^ readExponent ((text.dropWhile (· ≠ 'e')).drop 1)

def readNumber : Str → ℚ
  | '-' :: text => -readPositive text
  | text => readPositive text

/-- A list of decimal digits. -/
def IsDigits (digits : Str) : Prop := ∀ c ∈ digits, c.isDigit = true

theorem isDigits_natText (n : ℕ) : IsDigits (natText n) := fun _ hc =>
  Nat.isDigit_of_mem_toDigits (by decide) (by decide) hc

theorem IsDigits.ne {digits : Str} (h : IsDigits digits) {stop : Char} (hstop : stop.isDigit = false) :
    ∀ c ∈ digits, decide (c ≠ stop) = true := by
  intro c hc
  refine decide_eq_true fun heq => ?_
  rw [← heq, h c hc] at hstop
  cases hstop

theorem IsDigits.append {digits digits' : Str} (h : IsDigits digits) (h' : IsDigits digits') :
    IsDigits (digits ++ digits') := by
  intro c hc
  rcases List.mem_append.mp hc with hc | hc
  · exact h c hc
  · exact h' c hc

theorem isDigits_zeros (n : ℕ) : IsDigits (List.replicate n '0') := by
  intro c hc
  rw [List.eq_of_mem_replicate hc]
  rfl

/-- Only zeros at the end are dropped. -/
theorem exists_stripZeros (digits : Str) :
    ∃ n, digits = stripZeros digits ++ List.replicate n '0' := by
  have hzeros : ∀ c ∈ digits.reverse.takeWhile (· = '0'), c = '0' := fun c hc =>
    of_decide_eq_true (List.mem_takeWhile_imp (p := fun c => decide (c = '0')) hc)
  refine ⟨(digits.reverse.takeWhile (· = '0')).length, ?_⟩
  calc
    digits = (digits.reverse.takeWhile (· = '0') ++ digits.reverse.dropWhile (· = '0')).reverse := by
      rw [List.takeWhile_append_dropWhile, List.reverse_reverse]
    _ = stripZeros digits ++ (digits.reverse.takeWhile (· = '0')).reverse := List.reverse_append
    _ = _ := by
      rw [List.eq_replicate_of_mem hzeros, List.reverse_replicate, List.length_replicate]

theorem fractionValue_stripZeros (digits : Str) :
    fractionValue (stripZeros digits) = fractionValue digits := by
  obtain ⟨n, hn⟩ := exists_stripZeros digits
  conv_rhs => rw [hn]
  unfold fractionValue
  rw [Nat.ofDigitChars_append, Nat.ofDigitChars_replicate_zero, List.length_append,
    List.length_replicate, pow_add]
  push_cast
  field_simp

theorem stripZeros_digits {digits : Str} (h : IsDigits digits) : IsDigits (stripZeros digits) := by
  obtain ⟨n, hn⟩ := exists_stripZeros digits
  intro c hc
  exact h c (by rw [hn]; exact List.mem_append_left _ hc)

theorem readFixed_append {digits : Str} (h : IsDigits digits) (fraction : Str) :
    readFixed (digits ++ fractionText fraction) =
      Nat.ofDigitChars 10 digits 0 + fractionValue fraction := by
  have hno := h.ne (rfl : '.'.isDigit = false)
  rw [← fractionValue_stripZeros fraction]
  unfold readFixed fractionText
  split
  · next hempty =>
      rw [List.append_nil, List.takeWhile_eq_self_iff.mpr hno, List.dropWhile_eq_nil_iff.mpr hno,
        List.isEmpty_iff.mp hempty]
      rfl
  · rw [takeWhile_stop hno (by decide), dropWhile_stop hno (by decide), List.drop_one, List.tail_cons]

/-- A point moves digits into the fraction. -/
theorem take_add_fractionValue (digits : Str) (i : ℕ) :
    (Nat.ofDigitChars 10 (digits.take i) 0 : ℚ) + fractionValue (digits.drop i) =
      (Nat.ofDigitChars 10 digits 0 : ℚ) / 10 ^ (digits.length - i) := by
  have hvalue : Nat.ofDigitChars 10 digits 0 =
      10 ^ (digits.length - i) * Nat.ofDigitChars 10 (digits.take i) 0 +
        Nat.ofDigitChars 10 (digits.drop i) 0 := by
    rw [← List.length_drop, ← Nat.ofDigitChars_eq_ofDigitChars_zero, ← Nat.ofDigitChars_append,
      List.take_append_drop]
  rw [hvalue, fractionValue, List.length_drop]
  push_cast
  field_simp

theorem readExponent_exponentText (exponent : ℤ) : readExponent (exponentText exponent) = exponent := by
  have hdigits : ∀ n : ℕ, Nat.ofDigitChars 10 (if n < 10 then '0' :: natText n else natText n) 0 = n := by
    intro n
    split <;> simp [natText, Nat.ofDigitChars_cons]
  unfold exponentText
  split
  · rw [readExponent, hdigits]
    omega
  · rw [readExponent, hdigits]
    · omega
    · decide

/-- Without an exponent the number is read as it stands. -/
theorem readPositive_fixed {text : Str} (h : 'e' ∉ text) : readPositive text = readFixed text := by
  have hno : ∀ c ∈ text, decide (c ≠ 'e') = true := fun c hc =>
    decide_eq_true fun heq => h (heq ▸ hc)
  rw [readPositive, List.takeWhile_eq_self_iff.mpr hno, List.dropWhile_eq_nil_iff.mpr hno]
  simp [readExponent]

theorem not_mem_fixed {digits fraction : Str} (h : IsDigits digits) (hfraction : IsDigits fraction) :
    'e' ∉ digits ++ fractionText fraction := by
  intro hmem
  rcases List.mem_append.mp hmem with hmem | hmem
  · exact absurd (h _ hmem) (by decide)
  · unfold fractionText at hmem
    split at hmem
    · exact absurd hmem List.not_mem_nil
    · rcases List.mem_cons.mp hmem with heq | hmem
      · exact absurd heq (by decide)
      · exact absurd (stripZeros_digits hfraction _ hmem) (by decide)

theorem readPositive_scientific {text : Str} (h : 'e' ∉ text) (exponent : ℤ) :
    readPositive (text ++ 'e' :: exponentText exponent) = readFixed text * 10 ^ exponent := by
  have hno : ∀ c ∈ text, decide (c ≠ 'e') = true := fun c hc =>
    decide_eq_true fun heq => h (heq ▸ hc)
  rw [readPositive, takeWhile_stop hno (by decide), dropWhile_stop hno (by decide), List.drop_one,
    List.tail_cons, readExponent_exponentText]

end Promcore
