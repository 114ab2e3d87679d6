import Promcore.Text.Nearest
import Promcore.Text.ReadBack

/-!
# The figures in the text

A reader of numbers gets from the text every figure that a metric reports, with
the bound or the quantile that it belongs to: counts and integers as they are,
NaN and the infinities too, and each other double as a number that is off by no
more than five units of the seventeenth digit.
-/

namespace Promcore

/-- The value that a token stands for. -/
def readValue (token : Str) : Double :=
  if token = "Nan".toList then .nan
  else if token = "+Inf".toList then .inf false
  else if token = "-Inf".toList then .inf true
  else .finite (readNumber token)

/-- What the text keeps of a double. -/
def Double.shown : Double → Double
  | .nan => .nan
  | .inf negative => .inf negative
  | .finite x => .finite (printed x)

def ClientMetric.Number.shown : ClientMetric.Number → Double
  | .int i => .finite i.toInt
  | .double d => d.shown

section Tokens

theorem readValue_numeral {token : Str} (h : ∀ c ∈ token, IsNumeral c) :
    readValue token = .finite (readNumber token) := by
  have hword : ∀ word : Str, (∃ c ∈ word, ¬ IsNumeral c) → token ≠ word := by
    rintro word ⟨c, hc, hnot⟩ rfl
    exact hnot (h c hc)
  unfold readValue
  rw [if_neg (hword _ ⟨'N', by decide, by unfold IsNumeral; decide⟩),
    if_neg (hword _ ⟨'I', by decide, by unfold IsNumeral; decide⟩),
    if_neg (hword _ ⟨'I', by decide, by unfold IsNumeral; decide⟩)]

theorem readValue_double (d : Double) : readValue (writeValue d) = d.shown := by
  cases d with
  | nan => rfl
  | inf negative => cases negative <;> rfl
  | finite x => exact readValue_numeral fun _ hc => finiteText_numeral hc

theorem readPositive_natText (n : ℕ) : readPositive (natText n) = n := by
  have hdigits := isDigits_natText n
  have hfixed := readFixed_append hdigits []
  have hno := not_mem_fixed hdigits (fun c hc => absurd hc List.not_mem_nil : IsDigits [])
  have hnone : fractionText [] = [] := rfl
  rw [hnone, List.append_nil] at hfixed hno
  rw [readPositive_fixed hno, hfixed, natText, Nat.ofDigitChars_toDigits (by decide) (by decide)]
  simp [fractionValue]

theorem readNumber_natText (n : ℕ) : readNumber (natText n) = n := by
  rw [← readPositive_natText]
  unfold readNumber
  split
  · next heq =>
      have hminus := isDigits_natText n '-' (heq ▸ List.mem_cons_self)
      cases hminus
  · rfl

theorem readValue_nat (n : ℕ) : readValue (natText n) = .finite n := by
  rw [readValue_numeral fun _ hc => natText_numeral hc, readNumber_natText]

theorem readValue_int (i : Int64) : readValue (writeValue i) = .finite i.toInt := by
  have hread : readNumber (intText i.toInt) = i.toInt := by
    unfold intText
    split
    · next hneg =>
        rw [readNumber, readPositive_natText, ← Int.cast_natCast, ← Int.cast_neg]
        congr 1
        omega
    · next hneg =>
        rw [readNumber_natText, ← Int.cast_natCast]
        congr 1
        omega
  rw [← hread]
  exact readValue_numeral fun _ hc => intText_numeral hc

theorem readValue_number (number : ClientMetric.Number) :
    readValue (writeValue number) = number.shown := by
  cases number with
  | int i => exact readValue_int i
  | double d => exact readValue_double d

end Tokens

namespace TextSerializer

/-- The samples of this name have a bound or a quantile, in their last label. -/
def Exposed.Labels (told : Exposed) (name : Str) : Prop :=
  told.type = "histogram".toList ∧ name = told.name ++ "_bucket".toList ∨
    told.type = "summary".toList ∧ name = told.name

instance (told : Exposed) (name : Str) : Decidable (told.Labels name) :=
  inferInstanceAs (Decidable (_ ∨ _))

/-- A sample as figures: its bound or quantile, if it has one, and its value. -/
def readFigures (told : Exposed) (s : Sample) : Option Double × Double :=
  (if told.Labels s.name then s.labels.getLast?.map fun lp => readValue lp.value else none,
    readValue s.value)

/-- The figures of a metric: each value, and the bound or the quantile it is for. -/
def figures (type : MetricType) (metric : ClientMetric) : List (Option Double × Double) :=
  match type with
  | .counter => [(none, metric.counter.shown)]
  | .gauge => [(none, metric.gauge.shown)]
  | .info => [(none, metric.info.shown)]
  | .summary =>
      [(none, .finite metric.summary.sample_count), (none, metric.summary.sample_sum.shown)] ++
        metric.summary.quantile.map fun q => (some q.quantile.shown, q.value.shown)
  | .untyped => [(none, metric.untyped.shown)]
  | .histogram =>
      [(none, .finite metric.histogram.sample_count),
        (none, metric.histogram.sample_sum.shown)] ++
      (metric.histogram.bucket.map fun b =>
        (some b.upper_bound.shown, .finite b.cumulative_count)) ++
      (if (metric.histogram.bucket.map ClientMetric.Bucket.upper_bound).getLastD (.inf true) ≠
          .inf false then
        [(some (.inf false), .finite metric.histogram.sample_count)] else [])

section Read

variable {family : MetricFamily} {metric : ClientMetric} {suffix value : Str}

theorem labels_iff : (exposed family).Labels (family.name ++ suffix) ↔
    family.type = .histogram ∧ suffix = "_bucket".toList ∨ family.type = .summary ∧ suffix = [] := by
  have htype (type : MetricType) : (typeWord type = "histogram".toList ↔ type = .histogram) ∧
      (typeWord type = "summary".toList ↔ type = .summary) := by
    cases type <;> decide
  simp only [Exposed.Labels, exposed, (htype family.type).1, (htype family.type).2,
    List.append_right_inj, List.append_right_eq_self]

/-- A sample without a bound or a quantile. -/
theorem readFigures_plain (h : ¬ (exposed family).Labels (family.name ++ suffix)) :
    readFigures (exposed family) (sampleOf family metric suffix [] value) =
      (none, readValue value) :=
  congrArg (·, readValue value) (if_neg h)

theorem readFigures_labelled (h : (exposed family).Labels (family.name ++ suffix))
    (name bound : Str) :
    readFigures (exposed family) (sampleOf family metric suffix [⟨name, bound⟩] value) =
      (some (readValue bound), readValue value) := by
  refine congrArg (·, readValue value) ((if_pos h).trans ?_)
  rw [sampleOf, List.getLast?_append]
  rfl

theorem readFigures_metric (family : MetricFamily) (metric : ClientMetric) :
    (metricSamples family metric).map (readFigures (exposed family)) =
      figures family.type metric := by
  have hplain (suffix value : Str) (h : ¬ (family.type = .histogram ∧ suffix = "_bucket".toList ∨
      family.type = .summary ∧ suffix = [])) :
      readFigures (exposed family) (sampleOf family metric suffix [] value) =
        (none, readValue value) := readFigures_plain (mt labels_iff.mp h)
  unfold metricSamples figures
  cases htype : family.type with
  | counter =>
      simp only [List.map_singleton]
      rw [hplain _ _ (by rw [htype]; decide), readValue_number]
  | gauge =>
      simp only [List.map_singleton]
      rw [hplain _ _ (by rw [htype]; decide), readValue_number]
  | info =>
      simp only [List.map_singleton]
      rw [hplain _ _ (by rw [htype]; decide), readValue_double]
  | untyped =>
      simp only [List.map_singleton]
      rw [hplain _ _ (by rw [htype]; decide), readValue_double]
  | summary =>
      have hquantile (bound value : Str) : readFigures (exposed family)
          (sampleOf family metric [] [⟨"quantile".toList, bound⟩] value) =
            (some (readValue bound), readValue value) :=
        readFigures_labelled (labels_iff.mpr (Or.inr ⟨htype, rfl⟩)) _ _
      simp only [List.map_append, List.map_cons, List.map_nil, List.map_map, Function.comp_def,
        hquantile, readValue_double]
      rw [hplain _ _ (by rw [htype]; decide), hplain _ _ (by rw [htype]; decide), readValue_nat,
        readValue_double]
  | histogram =>
      have hbucket (bound value : Str) : readFigures (exposed family)
          (sampleOf family metric "_bucket".toList [⟨"le".toList, bound⟩] value) =
            (some (readValue bound), readValue value) :=
        readFigures_labelled (labels_iff.mpr (Or.inl ⟨htype, rfl⟩)) _ _
      have hlast : readValue "+Inf".toList = .inf false := rfl
      simp only [List.map_append, List.map_cons, List.map_nil, List.map_map, Function.comp_def,
        hbucket, readValue_double, readValue_nat]
      rw [hplain _ _ (by rw [htype]; decide), hplain _ _ (by rw [htype]; decide), readValue_nat,
        readValue_double]
      split
      · rw [List.map_singleton, hbucket, hlast, readValue_nat]
      · rfl

/-- The figures read are those of the metrics, in order. -/
theorem readFigures_exposed (family : MetricFamily) :
    (exposed family).samples.map (readFigures (exposed family)) =
      family.metric.flatMap (figures family.type) := by
  have hsamples : (exposed family).samples = family.metric.flatMap (metricSamples family) := rfl
  rw [hsamples, List.map_flatMap]
  exact List.flatMap_congr fun metric _ => readFigures_metric family metric

end Read

/-- The text of families with valid names and helps of one line is read back as
all the figures of their metrics, in order: counts and integers exactly, and a
double with an error of at most five parts in ten to the sixteenth. -/
theorem figures_read_back {families : List MetricFamily}
    (h : ∀ family ∈ families, ValidNames family ∧ '\n' ∉ family.help) :
    ((readExposition (serialize families)).map fun told =>
        told.map fun e => (e.name, e.samples.map (readFigures e))) =
      some (families.map fun family =>
        (family.name, family.metric.flatMap (figures family.type))) ∧
      ∀ x : ℚ, ∃ y, Double.shown (.finite x) = .finite y ∧ |y - x| ≤ 5 / 10 ^ 16 * |x| := by
  refine ⟨?_, fun x => ⟨printed x, rfl, printed_error x⟩⟩
  rw [readExposition_serialize h, Option.map_some, List.map_map]
  refine congrArg some (List.map_congr_left fun family _ => ?_)
  exact Prod.ext rfl (readFigures_exposed family)

/-- Three rooms, and the one of an info. -/
theorem figures_read_back_rooms :
    ((readExposition (serialize rooms)).map fun told =>
        told.map fun e => (e.name, e.samples.map (readFigures e))) =
      some [("rooms".toList, [(none, .finite 3)]), ("house".toList, [(none, .finite 1)])] := by
  have hone : printed 1 = 1 := by decide +kernel
  rw [(figures_read_back rooms_valid).1]
  simp [rooms, figures, ClientMetric.Number.shown, Double.shown, hone]

end TextSerializer

end Promcore
