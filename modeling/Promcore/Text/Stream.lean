import Promcore.Text.Numbers

/-!
# Formatted output

The formatting state of an output stream, and what the standard library writes
under it for strings, integers and finite doubles. Every insertion clears the
width.
-/

namespace Promcore

/-- The punctuation of numbers in a locale. -/
structure Locale where
  decimal_point : Char
  thousands_sep : Char
  grouping : List ℕ
deriving DecidableEq

/-- `std::locale::classic()`. -/
def Locale.classic : Locale := ⟨'.', ',', []⟩

/-- The bits of `std::ios_base::fmtflags` that insertions consult. -/
structure FmtFlags where
  dec : Bool := true
  oct : Bool := false
  hex : Bool := false
  fixed : Bool := false
  scientific : Bool := false
  left : Bool := false
  right : Bool := false
  internal : Bool := false
  showbase : Bool := false
  showpoint : Bool := false
  showpos : Bool := false
  uppercase : Bool := false
deriving DecidableEq

inductive Base where
  | dec | oct | hex
deriving DecidableEq

inductive FloatField where
  | general | fixed | scientific | hexfloat
deriving DecidableEq

inductive Adjust where
  | left | right | internal
deriving DecidableEq

/-- The conversion that the flags select for numbers. -/
structure Conversion where
  base : Base
  floatfield : FloatField
  showbase : Bool
  showpoint : Bool
  showpos : Bool
  uppercase : Bool
deriving DecidableEq

namespace FmtFlags

/-- A base is selected by its bit alone; all else is decimal. -/
def base (flags : FmtFlags) : Base :=
  match flags.dec, flags.oct, flags.hex with
  | false, true, false => .oct
  | false, false, true => .hex
  | _, _, _ => .dec

def floatfield (flags : FmtFlags) : FloatField :=
  match flags.fixed, flags.scientific with
  | false, false => .general
  | true, false => .fixed
  | false, true => .scientific
  | true, true => .hexfloat

def adjustfield (flags : FmtFlags) : Adjust :=
  match flags.left, flags.right, flags.internal with
  | true, false, false => .left
  | false, false, true => .internal
  | _, _, _ => .right

def conversion (flags : FmtFlags) : Conversion where
  base := flags.base
  floatfield := flags.floatfield
  showbase := flags.showbase
  showpoint := flags.showpoint
  showpos := flags.showpos
  uppercase := flags.uppercase

end FmtFlags

/-- A number as `printf` writes it, in the parts that punctuation and padding tell
apart: the sign, the mark of the base, the digits before the point, and the
rest. -/
structure Numeral where
  sign : Str
  mark : Str
  digits : Str
  rest : Str
deriving DecidableEq

namespace Numeral

def inCase (uppercase : Bool) (numeral : Numeral) : Numeral :=
  if uppercase then
    { numeral with
      mark := numeral.mark.map Char.toUpper
      digits := numeral.digits.map Char.toUpper
      rest := numeral.rest.map Char.toUpper }
  else numeral

def text (numeral : Numeral) : Str :=
  numeral.sign ++ numeral.mark ++ (numeral.digits ++ numeral.rest)

end Numeral

def signText (showpos negative : Bool) : Str :=
  if negative then ['-'] else if showpos then ['+'] else []

def zeroPadded (length : ℕ) (digits : Str) : Str :=
  List.replicate (length - digits.length) '0' ++ digits

/-- The point is left out where no digits follow, unless it is asked for. -/
def pointText (showpoint : Bool) (fraction : Str) : Str :=
  if fraction.isEmpty && !showpoint then [] else '.' :: fraction

/-- `%.*f` of a number that is not negative. -/
def fixedText (precision : ℕ) (showpoint : Bool) (x : ℚ) : Str :=
  let n := (roundHalfEven (x * 10 ^ precision)).toNat
  natText (n / 10 ^ precision) ++
    pointText showpoint
      (if precision = 0 then [] else zeroPadded precision (natText (n % 10 ^ precision)))

/-- The digits and the exponent; zero has the exponent zero. -/
def significantDigits (precision : ℕ) (x : ℚ) : Str × ℤ :=
  if x = 0 then (List.replicate precision '0', 0)
  else (natText (significant precision x).1, (significant precision x).2)

/-- `%.*e` of a number that is not negative. -/
def scientificText (precision : ℕ) (showpoint : Bool) (x : ℚ) : Str :=
  let (digits, exponent) := significantDigits (precision + 1) x
  digits.take 1 ++ pointText showpoint (digits.drop 1) ++ 'e' :: exponentText exponent

/-- `%.*g` of a number that is not negative; with `showpoint` the zeros at the end
are kept. -/
def generalText (precision : ℕ) (showpoint : Bool) (x : ℚ) : Str :=
  if showpoint then
    let (digits, exponent) := significantDigits precision x
    if exponent < -4 ∨ precision ≤ exponent then
      digits.take 1 ++ '.' :: digits.drop 1 ++ 'e' :: exponentText exponent
    else if exponent < 0 then
      '0' :: '.' :: (List.replicate (exponent.natAbs - 1) '0' ++ digits)
    else digits.take (exponent.toNat + 1) ++ '.' :: digits.drop (exponent.toNat + 1)
  else if x = 0 then natText 0
  else positiveText precision x

/-- `%a` of a number that is not negative, after its `0x`: one binary digit and up
to 13 hexadecimal ones. -/
def hexfloatText (showpoint : Bool) (x : ℚ) : Str :=
  if x = 0 then '0' :: pointText showpoint [] ++ ['p', '+', '0']
  else
    let exponent := Int.log 2 x
    let fraction := ⌊(x / 2 ^ exponent - 1) * 16 ^ 13⌋.toNat
    '1' :: pointText showpoint (stripZeros (zeroPadded 13 (Nat.toDigits 16 fraction))) ++
      'p' :: (if exponent < 0 then '-' else '+') :: natText exponent.natAbs

namespace Conversion

/-- An unsigned integer; no conversion writes a `+` before it. -/
def unsigned (conversion : Conversion) (n : ℕ) : Numeral :=
  match conversion.base with
  | .dec => ⟨[], [], natText n, []⟩
  | .oct => ⟨[], if conversion.showbase && n ≠ 0 then ['0'] else [], Nat.toDigits 8 n, []⟩
  | .hex =>
      Numeral.inCase conversion.uppercase
        ⟨[], if conversion.showbase && n ≠ 0 then ['0', 'x'] else [], Nat.toDigits 16 n, []⟩

/-- A signed integer, which only the decimal conversion takes for signed. -/
def int (conversion : Conversion) (value : Int64) : Numeral :=
  match conversion.base with
  | .dec => ⟨signText conversion.showpos (value < 0), [], natText value.toInt.natAbs, []⟩
  | _ => conversion.unsigned value.toUInt64.toNat

/-- A double, with the precision of the stream; a negative one counts as not
given. -/
def double (conversion : Conversion) (precision : ℤ) (x : ℚ) : Numeral :=
  let digits := if precision < 0 then 6 else precision.toNat
  let (mark, body) : Str × Str :=
    match conversion.floatfield with
    | .general => ([], generalText (max 1 digits) conversion.showpoint |x|)
    | .fixed => ([], fixedText digits conversion.showpoint |x|)
    | .scientific => ([], scientificText digits conversion.showpoint |x|)
    | .hexfloat => (['0', 'x'], hexfloatText conversion.showpoint |x|)
  Numeral.inCase conversion.uppercase
    ⟨signText conversion.showpos (x < 0), mark, body.takeWhile Char.isDigit,
      body.dropWhile Char.isDigit⟩

end Conversion

namespace Locale

/-- Separators between the groups of a reversed list of digits; the last group
size repeats. The first argument bounds the number of groups. -/
def groupReversed (separator : Char) : ℕ → List ℕ → Str → Str
  | bound + 1, size :: sizes, digits =>
      if size = 0 ∨ digits.length ≤ size then digits
      else
        digits.take size ++ separator ::
          groupReversed separator bound (if sizes.isEmpty then [size] else sizes) (digits.drop size)
  | _, _, digits => digits

def group (locale : Locale) (digits : Str) : Str :=
  (groupReversed locale.thousands_sep digits.length locale.grouping digits.reverse).reverse

/-- The mark, the digits and the rest, with the punctuation of the locale. -/
def punctuate (locale : Locale) (numeral : Numeral) : Str :=
  locale.group numeral.digits ++
    numeral.rest.map fun c => if c = '.' then locale.decimal_point else c

end Locale

/-- The formatting state of a `std::ostream`. -/
structure Ostream where
  locale : Locale
  precision : ℤ
  flags : FmtFlags
  width : ℤ
  fill : Char
deriving DecidableEq

/-- What stands to the right of one `<<`. -/
inductive Insertion where
  | string (value : Str)
  | int (value : Int64)
  | unsigned (value : ℕ)
  | double (value : ℚ)
deriving DecidableEq

namespace Ostream

variable (out : Ostream)

/-- The text before internal padding and the text after it: the padding follows
the sign, or else the `0x`. -/
def numberParts (numeral : Numeral) : Str × Str :=
  let body := out.locale.punctuate numeral
  if !numeral.sign.isEmpty then (numeral.sign, numeral.mark ++ body)
  else if numeral.mark.length = 2 then (numeral.mark, body)
  else ([], numeral.mark ++ body)

def parts : Insertion → Str × Str
  | .string value => ([], value)
  | .int value => out.numberParts (out.flags.conversion.int value)
  | .unsigned value => out.numberParts (out.flags.conversion.unsigned value)
  | .double value => out.numberParts (out.flags.conversion.double out.precision value)

/-- What an insertion writes without padding. -/
def text (insertion : Insertion) : Str := (out.parts insertion).1 ++ (out.parts insertion).2

/-- What `<<` writes, and the state it leaves. -/
def insert (insertion : Insertion) : Str × Ostream :=
  let (head, tail) := out.parts insertion
  let padding := List.replicate (out.width - (head ++ tail).length).toNat out.fill
  let written :=
    match out.flags.adjustfield with
    | .left => head ++ tail ++ padding
    | .right => padding ++ (head ++ tail)
    | .internal => head ++ padding ++ tail
  (written, { out with width := 0 })

end Ostream

/-- Insertions one after the other. -/
def Ostream.insertAll (out : Ostream) : List Insertion → Str × Ostream
  | [] => ([], out)
  | insertion :: insertions =>
      let (written, out) := out.insert insertion
      let (rest, out) := out.insertAll insertions
      (written ++ rest, out)

namespace Ostream

variable {out : Ostream}

theorem insert_of_width (hwidth : out.width ≤ 0) (insertion : Insertion) :
    out.insert insertion = (out.text insertion, { out with width := 0 }) := by
  have hpadding : (out.width -
      ((out.parts insertion).1 ++ (out.parts insertion).2).length).toNat = 0 := by omega
  unfold insert text
  dsimp only
  rw [hpadding, List.replicate_zero]
  cases out.flags.adjustfield <;> simp

/-- Without a width the texts follow one another. -/
theorem insertAll_of_width (hwidth : out.width ≤ 0) (insertions : List Insertion) :
    (out.insertAll insertions).1 = insertions.flatMap out.text := by
  induction insertions generalizing out with
  | nil => rfl
  | cons insertion insertions ih =>
      rw [insertAll, insert_of_width hwidth, List.flatMap_cons]
      exact congrArg _ (ih le_rfl)

/-- Insertions leave everything but the width as it was. -/
theorem insertAll_state (insertions : List Insertion) :
    (out.insertAll insertions).2 = if insertions.isEmpty then out else { out with width := 0 } := by
  induction insertions generalizing out with
  | nil => rfl
  | cons insertion insertions ih =>
      rw [insertAll]
      refine (@ih (out.insert insertion).2).trans ?_
      rw [insert]
      cases insertions.isEmpty <;> rfl

theorem insertAll_cons (insertion : Insertion) (insertions : List Insertion) :
    (out.insertAll (insertion :: insertions)).1 =
      (out.insert insertion).1 ++ insertions.flatMap ({ out with width := 0 } : Ostream).text :=
  congrArg _ (insertAll_of_width le_rfl insertions)

end Ostream

end Promcore
