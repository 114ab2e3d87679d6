import Promcore.Library.Escaping
import Promcore.Library.Lines
import Promcore.Text.TextSerializer

/-!
# Sample lines

The text of a family is its comment lines and one line for each sample. A
sample keeps the labels with their original values; the label of a bucket or a
quantile comes last.
-/

namespace Promcore

namespace TextSerializer

open Lines

structure Sample where
  name : Str
  labels : List ClientMetric.Label
  value : Str
  timestamp_ms : Int64
deriving DecidableEq

def labelBlock (labels : List ClientMetric.Label) : Str :=
  if labels.isEmpty then [] else '{' :: (writeLabels [] labels).1 ++ ['}']

def timestampText (timestamp_ms : Int64) : Str :=
  if timestamp_ms ≠ 0 then ' ' :: writeValue timestamp_ms else []

/-- The line of a sample, without the newline. -/
def Sample.line (s : Sample) : Str :=
  s.name ++ labelBlock s.labels ++ ' ' :: s.value ++ timestampText s.timestamp_ms

/-- The three escapes of label values. -/
def escapes : Escaping.Code Char where
  mark := '\\'
  letter c :=
    if c = '\n' then some 'n' else if c = '\\' then some c else if c = '"' then some c else none
  symbol c :=
    if c = 'n' then some '\n' else if c = '\\' then some c else if c = '"' then some c else none
  symbol_iff a c := by
    constructor
    · intro h
      split_ifs at h with h₁ h₂ h₃ <;> simp_all [← Option.some.inj h]
    · intro h
      split_ifs at h with h₁ h₂ h₃ <;> simp_all [← Option.some.inj h]
  mark_escaped := by decide

theorem writeValue_eq_encode (value : Str) : writeValue value = Escaping.encode escapes value := by
  apply List.flatMap_congr
  intro c _
  unfold writeChar Escaping.encodeSymbol escapes
  dsimp only
  split_ifs <;> rfl

/-- Values in quotes, with the string that a reader gets back. -/
class Readable (T : Type) [Writable T] where
  raw : T → Str
  write_raw : ∀ value : T, writeValue value = writeValue (raw value)

instance : Readable Str where
  raw value := value
  write_raw _ := rfl

/-- A character that ends no token and is not escaped. -/
def IsTokenChar (c : Char) : Prop := c ≠ ' ' ∧ c ≠ '\n' ∧ c ≠ '\\' ∧ c ≠ '"'

instance (c : Char) : Decidable (IsTokenChar c) := inferInstanceAs (Decidable (_ ∧ _))

theorem isTokenChar_of_isNumeral {c : Char} (h : IsNumeral c) : IsTokenChar c := by
  have hno : ∀ d ∈ [' ', '\n', '\\', '"'], ¬ IsNumeral d := by
    unfold IsNumeral
    intro d hd
    fin_cases hd <;> decide
  refine ⟨?_, ?_, ?_, ?_⟩ <;> rintro rfl <;> exact hno _ (by decide) h

theorem writeDouble_isTokenChar {d : Double} {c : Char} (h : c ∈ writeValue d) :
    IsTokenChar c := by
  have hword : ∀ word : Str, (word.all fun c => decide (IsTokenChar c)) = true →
      ∀ c ∈ word, IsTokenChar c := by
    intro word hword c hc
    exact of_decide_eq_true (List.all_eq_true.mp hword c hc)
  cases d with
  | nan => exact hword "Nan".toList (by decide) c h
  | inf negative =>
      cases negative with
      | true => exact hword "-Inf".toList (by decide) c h
      | false => exact hword "+Inf".toList (by decide) c h
  | finite value => exact isTokenChar_of_isNumeral (finiteText_numeral h)

theorem writeInt_isTokenChar {i : Int64} {c : Char} (h : c ∈ writeValue i) : IsTokenChar c :=
  isTokenChar_of_isNumeral (intText_numeral h)

instance : Readable Double where
  raw value := writeValue value
  write_raw value := by
    rw [writeValue_eq_encode, Escaping.encode_eq_self]
    intro c hc
    obtain ⟨-, hnewline, hmark, hquote⟩ := writeDouble_isTokenChar hc
    simp [escapes, hnewline, hmark, hquote]

/-- The label that `WriteHead` adds. -/
def extraLabel {T : Type} [Writable T] [Readable T] (name : Str) (value : T) :
    List ClientMetric.Label :=
  if name.isEmpty then [] else [⟨name, Readable.raw value⟩]

/-- The sample that one `WriteHead`, a value and `WriteTail` write. -/
def sampleOf (family : MetricFamily) (metric : ClientMetric) (suffix : Str)
    (extra : List ClientMetric.Label) (value : Str) : Sample where
  name := family.name ++ suffix
  labels := metric.label ++ extra
  value := value
  timestamp_ms := metric.timestamp_ms

theorem writeLabels_append (separator : Str) (label : List ClientMetric.Label)
    (lp : ClientMetric.Label) :
    (writeLabels separator (label ++ [lp])).1 =
      (writeLabels separator label).1 ++
        writePair (writeLabels separator label).2 lp.name lp.value := by
  induction label generalizing separator with
  | nil => simp [writeLabels]
  | cons first label ih => simp [writeLabels, ih]

theorem writePair_raw {T : Type} [Writable T] [Readable T] (separator name : Str) (value : T) :
    writePair separator name value = writePair separator name (Readable.raw value) := by
  rw [writePair, Readable.write_raw, writePair]

theorem writeTail_eq (metric : ClientMetric) :
    writeTail metric = timestampText metric.timestamp_ms ++ ['\n'] := rfl

/-- What `WriteHead`, a value and `WriteTail` write is one line. -/
theorem head_value_tail {T : Type} [Writable T] [Inhabited T] [Readable T] (family : MetricFamily)
    (metric : ClientMetric) (suffix extraLabelName : Str) (extraLabelValue : T) (value : Str) :
    writeHead family metric suffix extraLabelName extraLabelValue ++ value ++ writeTail metric =
      (sampleOf family metric suffix (extraLabel extraLabelName extraLabelValue) value).line ++
        ['\n'] := by
  have hhead : writeHead family metric suffix extraLabelName extraLabelValue =
      family.name ++ suffix ++
        labelBlock (metric.label ++ extraLabel extraLabelName extraLabelValue) ++ [' '] := by
    unfold writeHead
    cases extraLabelName with
    | nil => cases metric.label <;> simp [labelBlock, extraLabel]
    | cons c name =>
        have hpair := writePair_raw (writeLabels [] metric.label).2 (c :: name) extraLabelValue
        simp [labelBlock, extraLabel, writeLabels_append, hpair]
  rw [hhead, writeTail_eq]
  simp [Sample.line, sampleOf]

theorem plain_line (family : MetricFamily) (metric : ClientMetric) (suffix value : Str) :
    writeHead (T := Str) family metric suffix ++ value ++ writeTail metric =
      (sampleOf family metric suffix [] value).line ++ ['\n'] :=
  head_value_tail family metric suffix [] (default : Str) value

theorem labelled_line {T : Type} [Writable T] [Inhabited T] [Readable T] (family : MetricFamily)
    (metric : ClientMetric) (suffix : Str) {s : Str} (hs : s ≠ []) (extra : T)
    (value : Str) :
    writeHead family metric suffix s extra ++ value ++ writeTail metric =
      (sampleOf family metric suffix [⟨s, Readable.raw extra⟩] value).line ++ ['\n'] := by
  have hextra : extraLabel s extra = [⟨s, Readable.raw extra⟩] :=
    if_neg (by simpa using hs)
  rw [head_value_tail, hextra]

/-- The samples of one metric of a family. -/
def metricSamples (family : MetricFamily) (metric : ClientMetric) : List Sample :=
  let sample := sampleOf family metric
  match family.type with
  | .counter => [sample [] [] (writeValue metric.counter)]
  | .gauge => [sample [] [] (writeValue metric.gauge)]
  | .info => [sample "_info".toList [] (writeValue metric.info)]
  | .summary =>
      let sum := metric.summary
      [sample "_count".toList [] (natText sum.sample_count),
        sample "_sum".toList [] (writeValue sum.sample_sum)] ++
      sum.quantile.map fun q =>
        sample [] [⟨"quantile".toList, writeValue q.quantile⟩] (writeValue q.value)
  | .untyped => [sample [] [] (writeValue metric.untyped)]
  | .histogram =>
      let hist := metric.histogram
      let bucket (upper_bound : Str) := sample "_bucket".toList [⟨"le".toList, upper_bound⟩]
      [sample "_count".toList [] (natText hist.sample_count),
        sample "_sum".toList [] (writeValue hist.sample_sum)] ++
      (hist.bucket.map fun b => bucket (writeValue b.upper_bound) (natText b.cumulative_count)) ++
      (if (hist.bucket.map ClientMetric.Bucket.upper_bound).getLastD (.inf true) ≠ .inf false then
        [bucket "+Inf".toList (natText hist.sample_count)] else [])

theorem writeBuckets_eq (family : MetricFamily) (metric : ClientMetric) (last : Double)
    (bucket : List ClientMetric.Bucket) :
    writeBuckets family metric last bucket =
      (terminated '\n' ((bucket.map fun b => sampleOf family metric "_bucket".toList
          [⟨"le".toList, writeValue b.upper_bound⟩] (natText b.cumulative_count)).map Sample.line),
        (bucket.map ClientMetric.Bucket.upper_bound).getLastD last) := by
  induction bucket generalizing last with
  | nil => rfl
  | cons b bucket ih =>
      have hline := labelled_line family metric "_bucket".toList (s := "le".toList) (by decide)
        b.upper_bound (natText b.cumulative_count)
      simp only [writeBuckets, ih, hline, List.map_cons, List.getLastD_cons, terminated_cons,
        List.append_assoc, List.singleton_append]
      rfl

/-- The text of a metric is made of the lines of its samples. -/
theorem serializeMetric_eq (family : MetricFamily) (metric : ClientMetric) :
    serializeMetric family metric =
      terminated '\n' ((metricSamples family metric).map Sample.line) := by
  unfold serializeMetric metricSamples
  cases family.type with
  | counter => simp only [serializeCounter, plain_line, List.map_singleton, terminated_singleton]
  | gauge => simp only [serializeGauge, plain_line, List.map_singleton, terminated_singleton]
  | info => simp only [serializeInfo, plain_line, List.map_singleton, terminated_singleton]
  | untyped => simp only [serializeUntyped, plain_line, List.map_singleton, terminated_singleton]
  | summary =>
      have hquantile (q : ClientMetric.Quantile) :=
        labelled_line family metric [] (s := "quantile".toList) (by decide) q.quantile
          (writeValue q.value)
      simp only [serializeSummary, plain_line, hquantile, List.map_append, List.map_cons, List.map_nil,
        List.map_map, terminated_append, terminated_cons, terminated_nil]
      simp [terminated, List.flatMap_map, Readable.raw]
  | histogram =>
      have hlast := labelled_line family metric "_bucket".toList (s := "le".toList) (by decide)
        "+Inf".toList (natText metric.histogram.sample_count)
      simp only [serializeHistogram, plain_line, writeBuckets_eq, hlast, List.map_append, List.map_cons,
        List.map_nil, terminated_append, terminated_cons, terminated_nil]
      split_ifs <;> simp [Readable.raw]

def samples (family : MetricFamily) : List Sample := family.metric.flatMap (metricSamples family)

/-- The line of the `# HELP` entry. -/
def helpLine (family : MetricFamily) : Str :=
  "# HELP ".toList ++ family.name ++ [' '] ++ family.help

def commentLines (family : MetricFamily) : List Str :=
  (if family.help.isEmpty then [] else [helpLine family]) ++
    ["# TYPE ".toList ++ family.name ++ [' '] ++ typeWord family.type]

/-- Everything that is written for a list of families. -/
def allLines (families : List MetricFamily) : List Str :=
  families.flatMap fun family => commentLines family ++ (samples family).map Sample.line

theorem helpEntry_eq (family : MetricFamily) :
    helpEntry family =
      terminated '\n' (if family.help.isEmpty then [] else [helpLine family]) := by
  unfold helpEntry helpLine
  cases family.help.isEmpty with
  | true => rfl
  | false => exact (terminated_singleton '\n' _).symm

theorem serializeFamily_eq (family : MetricFamily) :
    serializeFamily family =
      terminated '\n' (commentLines family ++ (samples family).map Sample.line) := by
  have hsamples : family.metric.flatMap (serializeMetric family) =
      terminated '\n' ((samples family).map Sample.line) := by
    rw [samples, List.map_flatMap, ← flatMap_terminated]
    exact List.flatMap_congr fun metric _ => serializeMetric_eq family metric
  unfold serializeFamily commentLines
  rw [hsamples, helpEntry_eq, terminated_append, terminated_append, terminated_singleton]

theorem serialize_eq (families : List MetricFamily) :
    serialize families = terminated '\n' (allLines families) := by
  rw [serialize, allLines, ← flatMap_terminated]
  exact List.flatMap_congr fun family _ => serializeFamily_eq family

end TextSerializer

end Promcore
