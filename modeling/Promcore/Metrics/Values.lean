import Mathlib.Data.Rat.Defs
import Mathlib.Tactic

/-!
# Strings, doubles and exceptions

A `std::string` is the list of its characters, one for each byte. A `double`
is taken in exact arithmetic: NaN, an infinity or a rational, compared and
added as IEEE 754 does, without rounding and with one zero.
-/

namespace Promcore

abbrev Str := List Char

inductive Double where
  | nan
  | inf (negative : Bool)
  | finite (x : ℚ)
deriving DecidableEq

namespace Double

/-- No missing value is NaN. -/
def ofOption : Option ℚ → Double
  | none => .nan
  | some x => .finite x

/-- Comparison with NaN is false. -/
def lt : Double → Double → Bool
  | .finite x, .finite y => x < y
  | .inf true, .finite _ => true
  | .finite _, .inf false => true
  | .inf true, .inf false => true
  | _, _ => false

/-- `x <= y`. -/
def le (x y : Double) : Bool := lt x y || (x = y && x ≠ .nan)

def add : Double → Double → Double
  | .finite x, .finite y => .finite (x + y)
  | .inf a, .inf b => if a = b then .inf a else .nan
  | .inf a, .finite _ => .inf a
  | .finite _, .inf a => .inf a
  | _, _ => .nan

def mul : Double → Double → Double
  | .finite x, .finite y => .finite (x * y)
  | .inf a, .inf b => .inf (a ≠ b)
  | .inf a, .finite x => if x = 0 then .nan else .inf (a ≠ decide (x < 0))
  | .finite x, .inf a => if x = 0 then .nan else .inf (a ≠ decide (x < 0))
  | _, _ => .nan

@[simp] theorem lt_finite (x y : ℚ) : lt (.finite x) (.finite y) = decide (x < y) := rfl

@[simp] theorem add_finite (x y : ℚ) : add (.finite x) (.finite y) = .finite (x + y) := rfl

@[simp] theorem le_finite (x y : ℚ) : le (.finite x) (.finite y) = decide (x ≤ y) := by
  rw [le, lt_finite, Bool.eq_iff_iff]
  simp [le_iff_lt_or_eq]

end Double

/-- What the library throws. -/
inductive Exception where
  | invalid_argument (what : String)
  | length_error (what : String)
deriving DecidableEq

end Promcore
