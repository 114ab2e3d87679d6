import Promcore.Text.Precision
import Promcore.Text.StreamSerializer
import Mathlib.Data.Fintype.Basic

/-!
# The state of the stream in the text

`Serialize` overrides the locale and the precision of the stream. The format
flags still show in every number, and a width left over from earlier output
pads the first seven characters.
-/

namespace Promcore

/-- Where digits follow, the point is written. -/
theorem pointText_of_ne_nil (showpoint : Bool) {fraction : Str} (h : fraction ≠ []) :
    pointText showpoint fraction = '.' :: fraction := by
  rw [pointText, List.isEmpty_eq_false_iff.mpr h, Bool.false_and]
  exact if_neg Bool.false_ne_true

theorem length_significantDigits {precision : ℕ} (hp : 0 < precision) {x : ℚ} (hx : 0 ≤ x) :
    (significantDigits precision x).1.length = precision := by
  unfold significantDigits
  split
  · exact List.length_replicate
  · next hzero => exact length_natText hp (significant_spec hp (lt_of_le_of_ne hx (Ne.symm hzero))).1

namespace Conversion

/-- The conversion without the flags that have no effect with a positive
precision. -/
def visible (conversion : Conversion) : Conversion :=
  { conversion with
    showbase := conversion.showbase && conversion.base ≠ .dec
    showpoint := conversion.showpoint &&
      (conversion.floatfield = .general || conversion.floatfield = .hexfloat)
    uppercase := conversion.uppercase &&
      (conversion.base = .hex || conversion.floatfield ≠ .fixed) }

variable (conversion : Conversion)

theorem unsigned_visible (n : ℕ) : conversion.visible.unsigned n = conversion.unsigned n := by
  unfold unsigned visible
  cases conversion.base <;> simp

theorem int_visible (value : Int64) : conversion.visible.int value = conversion.int value := by
  have hunsigned := conversion.unsigned_visible value.toUInt64.toNat
  unfold int
  rw [hunsigned]
  rfl

/-- With digits after the point, fixed notation does not depend on `showpoint`. -/
theorem fixedText_eq {precision : ℕ} (hp : 0 < precision) (showpoint : Bool) (x : ℚ) :
    fixedText precision showpoint x =
      natText ((roundHalfEven (x * 10 ^ precision)).toNat / 10 ^ precision) ++
        '.' :: zeroPadded precision
          (natText ((roundHalfEven (x * 10 ^ precision)).toNat % 10 ^ precision)) := by
  have hdigits (n : ℕ) : zeroPadded precision (natText n) ≠ [] :=
    List.append_ne_nil_of_right_ne_nil _ Nat.toDigits_ne_nil
  unfold fixedText
  dsimp only
  rw [if_neg hp.ne', pointText_of_ne_nil _ (hdigits _)]

theorem scientificText_showpoint {precision : ℕ} (hp : 0 < precision) (showpoint showpoint' : Bool)
    {x : ℚ} (hx : 0 ≤ x) :
    scientificText precision showpoint x = scientificText precision showpoint' x := by
  have hfraction : (significantDigits (precision + 1) x).1.drop 1 ≠ [] := by
    apply List.ne_nil_of_length_pos
    rw [List.length_drop, length_significantDigits (Nat.succ_pos _) hx]
    omega
  unfold scientificText
  dsimp only
  rw [pointText_of_ne_nil _ hfraction, pointText_of_ne_nil _ hfraction]

theorem toUpper_of_isDigit {c : Char} (h : c.isDigit = true) : c.toUpper = c := by
  unfold Char.isDigit at h
  unfold Char.toUpper
  grind

/-- Fixed notation has no letters. -/
theorem fixedText_toUpper {precision : ℕ} (hp : 0 < precision) (showpoint : Bool) (x : ℚ) :
    ∀ c ∈ fixedText precision showpoint x, c.toUpper = c := by
  intro c hc
  rw [fixedText_eq hp] at hc
  rcases List.mem_append.mp hc with hc | hc
  · exact toUpper_of_isDigit (isDigits_natText _ c hc)
  · rcases List.mem_cons.mp hc with rfl | hc
    · rfl
    · exact toUpper_of_isDigit ((isDigits_zeros _).append (isDigits_natText _) c hc)

theorem inCase_of_toUpper {sign body : Str} (h : ∀ c ∈ body, c.toUpper = c) (uppercase : Bool) :
    Numeral.inCase uppercase ⟨sign, [], body.takeWhile Char.isDigit, body.dropWhile Char.isDigit⟩ =
      ⟨sign, [], body.takeWhile Char.isDigit, body.dropWhile Char.isDigit⟩ := by
  have hdigits : (body.takeWhile Char.isDigit).map Char.toUpper = body.takeWhile Char.isDigit :=
    (List.map_congr_left fun c hc => h c ((List.takeWhile_sublist _).subset hc)).trans (List.map_id _)
  have hrest : (body.dropWhile Char.isDigit).map Char.toUpper = body.dropWhile Char.isDigit :=
    (List.map_congr_left fun c hc => h c ((List.dropWhile_sublist _).subset hc)).trans (List.map_id _)
  unfold Numeral.inCase
  split
  · rw [hdigits, hrest]
    rfl
  · rfl

theorem double_visible {precision : ℤ} (hp : 0 < precision) (value : ℚ) :
    conversion.visible.double precision value = conversion.double precision value := by
  have hdigits : 0 < if precision < 0 then 6 else precision.toNat := by
    split <;> omega
  unfold double
  cases hfloatfield : conversion.floatfield with
  | general => simp [visible, hfloatfield]
  | hexfloat => simp [visible, hfloatfield]
  | scientific =>
      have htext := scientificText_showpoint hdigits false conversion.showpoint (abs_nonneg value)
      simp [visible, hfloatfield, htext]
  | fixed =>
      simp only [visible, hfloatfield]
      rw [inCase_of_toUpper (fixedText_toUpper hdigits _ _),
        inCase_of_toUpper (fixedText_toUpper hdigits _ _), fixedText_eq hdigits, fixedText_eq hdigits]

/-- The conversion as it shows in the texts of the integer 26 and of the doubles 1
and 10^20. -/
def shown (int one large : Str) : Conversion :=
  let floatfield : FloatField :=
    if one.any fun c => c = 'x' || c = 'X' then .hexfloat
    else if one.any fun c => c = 'e' || c = 'E' then .scientific
    else if one.count '0' = 16 then .fixed else .general
  { base := if int.any fun c => c = 'a' || c = 'A' then .hex else if int.any (· = '3') then .oct else .dec
    floatfield := floatfield
    showbase := int.head? = some '0'
    showpoint := one.any (· = '.') && (floatfield = .general || floatfield = .hexfloat)
    showpos := one.head? = some '+'
    uppercase := int.any (· = 'A') || one.any (fun c => c = 'E' || c = 'X') || large.any (· = 'E') }

instance : Fintype Base := ⟨{.dec, .oct, .hex}, fun base => by cases base <;> decide⟩

instance : Fintype FloatField :=
  ⟨{.general, .fixed, .scientific, .hexfloat}, fun floatfield => by cases floatfield <;> decide⟩

/-- Three numbers tell the visible conversions apart. -/
theorem shown_eq_visible :
    shown (conversion.int 26).text (conversion.double (maxDigits10 - 1) 1).text
      (conversion.double (maxDigits10 - 1) (10 ^ 20)).text = conversion.visible := by
  have hall : ∀ (base : Base) (floatfield : FloatField) (showbase showpoint showpos uppercase : Bool),
      let c : Conversion := ⟨base, floatfield, showbase, showpoint, showpos, uppercase⟩
      shown (c.int 26).text (c.double (maxDigits10 - 1) 1).text
        (c.double (maxDigits10 - 1) (10 ^ 20)).text = c.visible := by
    decide +kernel
  exact hall conversion.base conversion.floatfield conversion.showbase conversion.showpoint
    conversion.showpos conversion.uppercase

end Conversion

namespace StreamSerializer

/-- The text of everything but the first insertion depends on the flags through the
visible conversion alone. -/
theorem text_congr {flags flags' : FmtFlags} {fill fill' : Char}
    (h : flags.conversion.visible = flags'.conversion.visible) :
    (during flags fill).text = (during flags' fill').text := by
  funext insertion
  cases insertion with
  | string value => rfl
  | int value =>
      rw [text_int, text_int, ← Conversion.int_visible, h, Conversion.int_visible]
  | unsigned n =>
      rw [text_unsigned, text_unsigned, ← Conversion.unsigned_visible, h, Conversion.unsigned_visible]
  | double value =>
      rw [text_double, text_double, ← Conversion.double_visible _ (by decide), h,
        Conversion.double_visible _ (by decide)]

/-- A string of seven characters is padded as the width, the fill character and the
side say. -/
structure PaddedAlike (out out' : Ostream) : Prop where
  width : max out.width 7 = max out'.width 7
  fill : 7 < out.width → out.fill = out'.fill
  side : 7 < out.width → (out.flags.adjustfield = .left ↔ out'.flags.adjustfield = .left)

/-- What of the state shows in the text: the padding of the first insertion, and the
conversion of numbers. -/
structure Alike (out out' : Ostream) : Prop where
  padded : PaddedAlike out out'
  visible : out.flags.conversion.visible = out'.flags.conversion.visible

theorem insert_string (out : Ostream) (value : Str) :
    (out.insert (.string value)).1 =
      if out.flags.adjustfield = .left then
        value ++ List.replicate (out.width - value.length).toNat out.fill
      else List.replicate (out.width - value.length).toNat out.fill ++ value := by
  cases hadjust : out.flags.adjustfield <;> simp [Ostream.insert, Ostream.parts, hadjust]

theorem PaddedAlike.insert_eq {out out' : Ostream} (h : PaddedAlike out out') {value : Str}
    (hlength : value.length = 7) :
    (out.insert (.string value)).1 = (out'.insert (.string value)).1 := by
  obtain ⟨hwidth, hfill, hside⟩ := h
  rw [insert_string, insert_string, hlength]
  by_cases hwide : 7 < out.width
  · have hequal : out.width = out'.width := by omega
    rw [hfill hwide, hequal]
    by_cases hleft : out.flags.adjustfield = .left
    · rw [if_pos hleft, if_pos ((hside hwide).mp hleft)]
    · rw [if_neg hleft, if_neg (mt (hside hwide).mpr hleft)]
  · have hnone : (out.width - (7 : ℕ)).toNat = 0 := by omega
    have hnone' : (out'.width - (7 : ℕ)).toNat = 0 := by omega
    rw [hnone, hnone']
    simp

/-- A padding before the keyword is no padding after it. -/
theorem sides_differ (fill fill' : Char) (n : ℕ) :
    "# TYPE ".toList ++ List.replicate (n + 1) fill ≠
      List.replicate (n + 1) fill' ++ "# TYPE ".toList := by
  have hafter : "# TYPE ".toList ++ List.replicate (n + 1) fill =
      '#' :: ' ' :: ("TYPE ".toList ++ List.replicate (n + 1) fill) := rfl
  have hbefore : List.replicate (n + 1) fill' ++ "# TYPE ".toList =
      fill' :: (List.replicate n fill' ++ "# TYPE ".toList) := rfl
  rw [hafter, hbefore]
  intro h
  obtain ⟨rfl, h⟩ := List.cons_eq_cons.mp h
  cases n with
  | zero => exact absurd (List.cons_eq_cons.mp h).1 (by decide)
  | succ n => exact absurd (List.cons_eq_cons.mp h).1 (by decide)

/-- The keyword of a `# TYPE` line shows how it was padded. -/
theorem paddedAlike_of_insert_eq {out out' : Ostream}
    (h : (out.insert (.string "# TYPE ".toList)).1 = (out'.insert (.string "# TYPE ".toList)).1) :
    PaddedAlike out out' := by
  have hlength : ("# TYPE ".toList).length = 7 := rfl
  rw [insert_string, insert_string, hlength] at h
  have hpadding : (out.width - (7 : ℕ)).toNat = (out'.width - (7 : ℕ)).toNat := by
    have := congrArg List.length h
    split_ifs at this <;> simpa using this
  by_cases hwide : 7 < out.width
  · obtain ⟨n, hn⟩ : ∃ n, (out'.width - (7 : ℕ)).toNat = n + 1 :=
      ⟨(out'.width - (7 : ℕ)).toNat - 1, by omega⟩
    rw [hpadding, hn] at h
    have hfill : ∀ {fill fill' : Char}, List.replicate (n + 1) fill = List.replicate (n + 1) fill' →
        fill = fill' := fun heq => (List.replicate_right_inj (Nat.succ_ne_zero n)).mp heq
    split_ifs at h with hleft hleft' hleft'
    · exact ⟨by omega, fun _ => hfill (List.append_cancel_left h), fun _ => iff_of_true hleft hleft'⟩
    · exact absurd h (sides_differ _ _ n)
    · exact absurd h.symm (sides_differ _ _ n)
    · exact ⟨by omega, fun _ => hfill (List.append_cancel_right h),
        fun _ => iff_of_false hleft hleft'⟩
  · exact ⟨by omega, fun h => absurd h hwide, fun h => absurd h hwide⟩

/-- The text is the padded first keyword and what the other insertions write. -/
theorem serialize_cons (family : MetricFamily) (metrics : List MetricFamily) :
    ∃ (keyword : Str) (insertions : List Insertion), keyword.length = 7 ∧ ∀ out : Ostream,
      (serialize out (family :: metrics)).1 =
        (out.insert (.string keyword)).1 ++ insertions.flatMap (during out.flags out.fill).text := by
  have hkeyword : ∃ (keyword : Str) (insertions : List Insertion), keyword.length = 7 ∧
      serializeFamily family = .string keyword :: insertions := by
    unfold serializeFamily helpEntry
    cases family.help.isEmpty with
    | true => exact ⟨"# TYPE ".toList, _, rfl, rfl⟩
    | false => exact ⟨"# HELP ".toList, _, rfl, rfl⟩
  obtain ⟨keyword, insertions, hlength, hfamily⟩ := hkeyword
  refine ⟨keyword, insertions ++ metrics.flatMap serializeFamily, hlength, fun out => ?_⟩
  rw [serialize_written, List.flatMap_cons, hfamily, List.cons_append, Ostream.insertAll_cons]
  rfl

/-- A family with one counter. -/
def oneCounter (value : ClientMetric.Number) : MetricFamily :=
  ⟨['x'], [], .counter, [{ counter := value }]⟩

/-- A family without metrics shows the padding alone. -/
theorem serialize_noCounter (out : Ostream) :
    (serialize out [⟨['x'], [], .counter, []⟩]).1 =
      (out.insert (.string "# TYPE ".toList)).1 ++ "x counter\n".toList := by
  have hinsertions : [(⟨['x'], [], .counter, []⟩ : MetricFamily)].flatMap serializeFamily =
      .string "# TYPE ".toList :: [.string ['x'], .string (typeEnd .counter)] := rfl
  rw [serialize_written, hinsertions, Ostream.insertAll_cons]
  rfl

theorem serialize_oneCounter (out : Ostream) (value : ClientMetric.Number) :
    (serialize out [oneCounter value]).1 =
      (out.insert (.string "# TYPE ".toList)).1 ++ ("x counter\nx ".toList ++
        ((writeValue value).flatMap (during out.flags out.fill).text ++ ['\n'])) := by
  have hinsertions : [oneCounter value].flatMap serializeFamily =
      .string "# TYPE ".toList :: ([.string ['x'], .string (typeEnd .counter), .string ['x'],
        .string [], .string [' ']] ++ (writeValue value ++ [.string ['\n']])) := by
    simp [oneCounter, serializeFamily, helpEntry, serializeMetric, serializeCounter, writeHead,
      writeTail]
  rw [serialize_written, hinsertions, Ostream.insertAll_cons, List.flatMap_append,
    List.flatMap_append]
  rfl

/-- After the call the state is the one before, but for the width. -/
structure Restores (out out' : Ostream) : Prop where
  locale : out'.locale = out.locale
  precision : out'.precision = out.precision
  flags : out'.flags = out.flags
  fill : out'.fill = out.fill

theorem serialize_restores (out : Ostream) (metrics : List MetricFamily) :
    Restores out (serialize out metrics).2 := by
  have hstate := @Ostream.insertAll_state
    { out with locale := .classic, precision := maxDigits10 - 1 } (metrics.flatMap serializeFamily)
  unfold serialize
  dsimp only
  rw [hstate]
  split <;> exact ⟨rfl, rfl, rfl, rfl⟩

/-- Every list of families is written alike from two states, and both are restored,
exactly when the states pad the first insertion alike and select conversions of
numbers with the same effect. -/
theorem serialize_independent_iff (out out' : Ostream) :
    (∀ metrics, (serialize out metrics).1 = (serialize out' metrics).1 ∧
      Restores out (serialize out metrics).2 ∧ Restores out' (serialize out' metrics).2) ↔
    Alike out out' := by
  constructor
  · intro h
    have hpadded : (out.insert (.string "# TYPE ".toList)).1 =
        (out'.insert (.string "# TYPE ".toList)).1 := by
      have hkeyword := (h [⟨['x'], [], .counter, []⟩]).1
      rw [serialize_noCounter, serialize_noCounter] at hkeyword
      exact List.append_cancel_right hkeyword
    have hnumber (value : ClientMetric.Number) (insertion : Insertion)
        (hvalue : writeValue value = [insertion]) :
        (during out.flags out.fill).text insertion = (during out'.flags out'.fill).text insertion := by
      have hcounter := (h [oneCounter value]).1
      rw [serialize_oneCounter, serialize_oneCounter, hpadded, hvalue, List.flatMap_singleton,
        List.flatMap_singleton] at hcounter
      exact List.append_cancel_right (List.append_cancel_left (List.append_cancel_left hcounter))
    have hdouble (value : ℚ) : (out.flags.conversion.double (maxDigits10 - 1) value).text =
        (out'.flags.conversion.double (maxDigits10 - 1) value).text := by
      rw [← text_double _ out.fill, ← text_double _ out'.fill]
      exact hnumber (.double (.finite value)) _ rfl
    have hint : (out.flags.conversion.int 26).text = (out'.flags.conversion.int 26).text := by
      rw [← text_int _ out.fill, ← text_int _ out'.fill]
      exact hnumber (.int 26) _ rfl
    refine ⟨paddedAlike_of_insert_eq hpadded, ?_⟩
    rw [← Conversion.shown_eq_visible, hint, hdouble, hdouble, Conversion.shown_eq_visible]
  · intro h metrics
    refine ⟨?_, serialize_restores out metrics, serialize_restores out' metrics⟩
    cases metrics with
    | nil => rfl
    | cons family metrics =>
        obtain ⟨keyword, insertions, hlength, hwritten⟩ := serialize_cons family metrics
        rw [hwritten, hwritten, h.padded.insert_eq hlength, text_congr h.visible]

/-- A default stream, one in hexadecimal mode and one with a width of 10. -/
def streams : Ostream × Ostream × Ostream :=
  (⟨.classic, 6, {}, 0, ' '⟩, ⟨.classic, 6, { dec := false, hex := true }, 0, ' '⟩,
    ⟨.classic, 6, {}, 10, ' '⟩)

/-- A counter of 26 is written as `1a` in hexadecimal mode, and with a width the
first line is indented. -/
theorem not_serialize_independent :
    (serialize streams.1 [oneCounter (.int 26)]).1 = "# TYPE x counter\nx 26\n".toList ∧
    (serialize streams.2.1 [oneCounter (.int 26)]).1 = "# TYPE x counter\nx 1a\n".toList ∧
    (serialize streams.1 [oneCounter (.int 26)]).1 ≠
      (serialize streams.2.1 [oneCounter (.int 26)]).1 ∧
    (serialize streams.1 [oneCounter (.int 26)]).1 ≠
      (serialize streams.2.2 [oneCounter (.int 26)]).1 := by
  decide +kernel

end StreamSerializer

end Promcore
