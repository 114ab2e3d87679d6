import Promcore.Text.Stream
import Promcore.Text.TextSerializer

/-!
# The serializer on a stream

The same functions as in the text exposition format, as the insertions that
each of them makes; none of them reads the state of the stream. `Serialize`
sets the locale and the precision before and restores them after. On a stream
with the default flags and no width it writes the text exposition format.
-/

namespace Promcore

namespace StreamSerializer

/-- The overloads of `writeValue`, as insertions. -/
class Insertable (T : Type) where
  writeValue : T → List Insertion

export Insertable (writeValue)

instance : Insertable Double where
  writeValue
    | .nan => [.string "Nan".toList]
    | .inf negative => [.string (if negative then "-Inf".toList else "+Inf".toList)]
    | .finite value => [.double value]

instance : Insertable Int64 where
  writeValue value := [.int value]

/-- The `switch` over one character; each `<<` has one. -/
def writeChar (c : Char) : List Insertion :=
  if c = '\n' then [.string ['\\'], .string ['n']]
  else if c = '\\' then [.string ['\\'], .string [c]]
  else if c = '"' then [.string ['\\'], .string [c]]
  else [.string [c]]

instance : Insertable Str where
  writeValue value := value.flatMap writeChar

instance : Insertable ClientMetric.Number where
  writeValue
    | .int i => writeValue i
    | .double d => writeValue d

/-- One pair of a label block, after the separator. -/
def writePair {T : Type} [Insertable T] (separator name : Str) (value : T) : List Insertion :=
  [.string separator, .string name, .string ['=', '"']] ++ writeValue value ++ [.string ['"']]

/-- The loop of `WriteHead` over the labels: its insertions, and the separator it
leaves for one more. -/
def writeLabels (separator : Str) : List ClientMetric.Label → List Insertion × Str
  | [] => ([], separator)
  | lp :: label =>
      let (rest, last) := writeLabels [','] label
      (writePair separator lp.name lp.value ++ rest, last)

def writeHead {T : Type} [Insertable T] [Inhabited T] (family : MetricFamily)
    (metric : ClientMetric) (suffix : Str := []) (extraLabelName : Str := [])
    (extraLabelValue : T := default) : List Insertion :=
  [.string family.name, .string suffix] ++
    (if !metric.label.isEmpty || !extraLabelName.isEmpty then
      let (labels, separator) := writeLabels [] metric.label
      [.string ['{']] ++ labels ++
        (if !extraLabelName.isEmpty then writePair separator extraLabelName extraLabelValue
        else []) ++ [.string ['}']]
    else []) ++ [.string [' ']]

def writeTail (metric : ClientMetric) : List Insertion :=
  (if metric.timestamp_ms ≠ 0 then [.string [' '], .int metric.timestamp_ms] else []) ++
    [.string ['\n']]

def serializeCounter (family : MetricFamily) (metric : ClientMetric) : List Insertion :=
  writeHead (T := Str) family metric ++ writeValue metric.counter ++ writeTail metric

def serializeGauge (family : MetricFamily) (metric : ClientMetric) : List Insertion :=
  writeHead (T := Str) family metric ++ writeValue metric.gauge ++ writeTail metric

def serializeInfo (family : MetricFamily) (metric : ClientMetric) : List Insertion :=
  writeHead (T := Str) family metric "_info".toList ++ writeValue metric.info ++ writeTail metric

def serializeSummary (family : MetricFamily) (metric : ClientMetric) : List Insertion :=
  let sum := metric.summary
  writeHead (T := Str) family metric "_count".toList ++ [.unsigned sum.sample_count] ++
    writeTail metric ++
  (writeHead (T := Str) family metric "_sum".toList ++ writeValue sum.sample_sum ++
    writeTail metric) ++
  sum.quantile.flatMap fun q =>
    writeHead family metric [] "quantile".toList q.quantile ++ writeValue q.value ++
      writeTail metric

def serializeUntyped (family : MetricFamily) (metric : ClientMetric) : List Insertion :=
  writeHead (T := Str) family metric ++ writeValue metric.untyped ++ writeTail metric

/-- The loop over the buckets: its insertions, and the `last` upper bound. -/
def writeBuckets (family : MetricFamily) (metric : ClientMetric) (last : Double) :
    List ClientMetric.Bucket → List Insertion × Double
  | [] => ([], last)
  | b :: bucket =>
      let head := writeHead family metric "_bucket".toList "le".toList b.upper_bound
      let (rest, last) := writeBuckets family metric b.upper_bound bucket
      (head ++ [.unsigned b.cumulative_count] ++ writeTail metric ++ rest, last)

def serializeHistogram (family : MetricFamily) (metric : ClientMetric) : List Insertion :=
  let hist := metric.histogram
  let (buckets, last) := writeBuckets family metric (.inf true) hist.bucket
  writeHead (T := Str) family metric "_count".toList ++ [.unsigned hist.sample_count] ++
    writeTail metric ++
  (writeHead (T := Str) family metric "_sum".toList ++ writeValue hist.sample_sum ++
    writeTail metric) ++
  buckets ++
  (if last ≠ .inf false then
    writeHead family metric "_bucket".toList "le".toList "+Inf".toList ++
      [.unsigned hist.sample_count] ++ writeTail metric
  else [])

def helpEntry (family : MetricFamily) : List Insertion :=
  if !family.help.isEmpty then
    [.string "# HELP ".toList, .string family.name, .string [' '], .string family.help,
      .string ['\n']]
  else []

/-- The end of the `# TYPE` entry, with the blank and the newline. -/
def typeEnd (type : MetricType) : Str := ' ' :: TextSerializer.typeWord type ++ ['\n']

/-- The function that writes the metrics of a type. -/
def serializeMetric (family : MetricFamily) : ClientMetric → List Insertion :=
  match family.type with
  | .counter => serializeCounter family
  | .gauge => serializeGauge family
  | .info => serializeInfo family
  | .summary => serializeSummary family
  | .untyped => serializeUntyped family
  | .histogram => serializeHistogram family

def serializeFamily (family : MetricFamily) : List Insertion :=
  helpEntry family ++
    [.string "# TYPE ".toList, .string family.name, .string (typeEnd family.type)] ++
    family.metric.flatMap (serializeMetric family)

/-- What `Serialize` writes, and the state it leaves. -/
def serialize (out : Ostream) (metrics : List MetricFamily) : Str × Ostream :=
  let saved_locale := out.locale
  let saved_precision := out.precision
  let out := { out with locale := .classic, precision := maxDigits10 - 1 }
  let (written, out) := out.insertAll (metrics.flatMap serializeFamily)
  (written, { out with locale := saved_locale, precision := saved_precision })

theorem serialize_written (out : Ostream) (metrics : List MetricFamily) :
    (serialize out metrics).1 =
      (({ out with locale := .classic, precision := maxDigits10 - 1 } : Ostream).insertAll
        (metrics.flatMap serializeFamily)).1 := rfl

/-- The stream between the first and the last insertion, without a width. -/
def during (flags : FmtFlags) (fill : Char) : Ostream where
  locale := .classic
  precision := maxDigits10 - 1
  flags := flags
  width := 0
  fill := fill

theorem group_classic (digits : Str) : Locale.classic.group digits = digits := by
  have hno : ∀ bound, Locale.groupReversed ',' bound [] digits.reverse = digits.reverse := by
    intro bound
    cases bound <;> rfl
  exact (congrArg List.reverse (hno _)).trans (List.reverse_reverse digits)

/-- The classic locale changes nothing. -/
theorem punctuate_classic (numeral : Numeral) :
    Locale.classic.punctuate numeral = numeral.digits ++ numeral.rest := by
  have hpoint : (numeral.rest.map fun c => if c = '.' then Locale.classic.decimal_point else c) =
      numeral.rest := by
    refine List.map_id'' (fun c => ?_) _
    split
    · next heq => exact heq.symm
    · rfl
  rw [Locale.punctuate, group_classic, hpoint]

theorem numberParts_during (flags : FmtFlags) (fill : Char) (numeral : Numeral) :
    ((during flags fill).numberParts numeral).1 ++ ((during flags fill).numberParts numeral).2 =
      numeral.text := by
  have hclassic : (during flags fill).locale = .classic := rfl
  unfold Ostream.numberParts Numeral.text
  rw [hclassic, punctuate_classic]
  dsimp only
  split_ifs with hsign hmark
  · simp
  · have hnone : numeral.sign = [] := by simpa using hsign
    simp [hnone]
  · have hnone : numeral.sign = [] := by simpa using hsign
    simp [hnone]

theorem text_int (flags : FmtFlags) (fill : Char) (value : Int64) :
    (during flags fill).text (.int value) = (flags.conversion.int value).text :=
  numberParts_during flags fill _

theorem text_unsigned (flags : FmtFlags) (fill : Char) (n : ℕ) :
    (during flags fill).text (.unsigned n) = (flags.conversion.unsigned n).text :=
  numberParts_during flags fill _

theorem text_double (flags : FmtFlags) (fill : Char) (value : ℚ) :
    (during flags fill).text (.double value) =
      (flags.conversion.double (maxDigits10 - 1) value).text :=
  numberParts_during flags fill _

section Default

variable {fill : Char}

/-- What the insertions write on a stream with the default flags. -/
def plainText (fill : Char) (insertions : List Insertion) : Str :=
  insertions.flatMap (during {} fill).text

@[simp] theorem plainText_nil : plainText fill [] = [] := rfl

@[simp] theorem plainText_append (insertions insertions' : List Insertion) :
    plainText fill (insertions ++ insertions') =
      plainText fill insertions ++ plainText fill insertions' := List.flatMap_append

@[simp] theorem plainText_string (value : Str) (insertions : List Insertion) :
    plainText fill (.string value :: insertions) = value ++ plainText fill insertions := rfl

theorem plainText_cons (insertion : Insertion) (insertions : List Insertion) :
    plainText fill (insertion :: insertions) =
      (during {} fill).text insertion ++ plainText fill insertions := List.flatMap_cons

@[simp] theorem plainText_unsigned (n : ℕ) (insertions : List Insertion) :
    plainText fill (.unsigned n :: insertions) = natText n ++ plainText fill insertions := by
  have hnumeral : ({} : FmtFlags).conversion.unsigned n = ⟨[], [], natText n, []⟩ := rfl
  rw [plainText_cons, text_unsigned, hnumeral]
  simp [Numeral.text]

@[simp] theorem plainText_int (value : Int64) (insertions : List Insertion) :
    plainText fill (.int value :: insertions) =
      Writable.writeValue value ++ plainText fill insertions := by
  have hnumeral : ({} : FmtFlags).conversion.int value =
      ⟨signText false (value < 0), [], natText value.toInt.natAbs, []⟩ := rfl
  have hsign : value < 0 ↔ value.toInt < 0 := Int64.lt_iff_toInt_lt
  rw [plainText_cons, text_int, hnumeral]
  change _ = intText value.toInt ++ _
  unfold intText
  by_cases hneg : value < 0
  · rw [if_pos (hsign.mp hneg)]
    simp [Numeral.text, signText, hneg]
  · rw [if_neg (hsign.not.mp hneg)]
    simp [Numeral.text, signText, hneg]

@[simp] theorem plainText_double (value : ℚ) (insertions : List Insertion) :
    plainText fill (.double value :: insertions) =
      finiteText (maxDigits10 - 1) value ++ plainText fill insertions := by
  have hnumeral : ({} : FmtFlags).conversion.double (maxDigits10 - 1) value =
      ⟨signText false (value < 0), [],
        (generalText (maxDigits10 - 1) false |value|).takeWhile Char.isDigit,
        (generalText (maxDigits10 - 1) false |value|).dropWhile Char.isDigit⟩ := rfl
  rw [plainText_cons, text_double, hnumeral, Numeral.text, List.takeWhile_append_dropWhile]
  congr 1
  unfold finiteText generalText
  rcases lt_trichotomy value 0 with hneg | rfl | hpos
  · simp [signText, hneg, hneg.ne, abs_of_neg hneg]
  · rfl
  · simp [signText, hpos.ne', hpos.not_gt, abs_of_pos hpos]

theorem plainText_writeString (value : Str) :
    plainText fill (writeValue value) = Writable.writeValue value := by
  change (value.flatMap writeChar).flatMap _ = value.flatMap Promcore.writeChar
  rw [List.flatMap_assoc]
  refine List.flatMap_congr fun c _ => ?_
  unfold writeChar Promcore.writeChar
  split_ifs <;> rfl

theorem plainText_writeDouble (value : Double) :
    plainText fill (writeValue value) = Writable.writeValue value := by
  cases value with
  | nan => exact List.append_nil _
  | inf negative => exact List.append_nil _
  | finite value => exact (plainText_double value []).trans (List.append_nil _)

theorem plainText_writeNumber (value : ClientMetric.Number) :
    plainText fill (writeValue value) = Writable.writeValue value := by
  cases value with
  | int value => exact (plainText_int value []).trans (List.append_nil _)
  | double value => exact plainText_writeDouble value

section Lines

variable {T : Type} [Insertable T] [Writable T]

theorem plainText_writePair {value : T}
    (h : plainText fill (writeValue value) = Writable.writeValue value) (separator name : Str) :
    plainText fill (writePair separator name value) =
      TextSerializer.writePair separator name value := by
  simp [writePair, TextSerializer.writePair, h]

theorem plainText_writeLabels (separator : Str) (label : List ClientMetric.Label) :
    (plainText fill (writeLabels separator label).1, (writeLabels separator label).2) =
      TextSerializer.writeLabels separator label := by
  induction label generalizing separator with
  | nil => rfl
  | cons lp label ih =>
      have hpair := plainText_writePair (@plainText_writeString fill lp.value) separator lp.name
      rw [writeLabels, TextSerializer.writeLabels, ← ih [',']]
      simp [hpair]

theorem plainText_writeHead [Inhabited T] {extraLabelValue : T}
    (h : plainText fill (writeValue extraLabelValue) = Writable.writeValue extraLabelValue)
    (family : MetricFamily) (metric : ClientMetric) (suffix extraLabelName : Str) :
    plainText fill (writeHead family metric suffix extraLabelName extraLabelValue) =
      TextSerializer.writeHead family metric suffix extraLabelName extraLabelValue := by
  have hlabels := @plainText_writeLabels fill [] metric.label
  have hpair := plainText_writePair h
  unfold writeHead TextSerializer.writeHead
  rw [← hlabels]
  dsimp only
  split_ifs <;> simp [hpair]

theorem plainText_writeTail (metric : ClientMetric) :
    plainText fill (writeTail metric) = TextSerializer.writeTail metric := by
  unfold writeTail TextSerializer.writeTail
  split_ifs <;> simp

end Lines

/-- A line without a label of its own. -/
theorem plainText_line (family : MetricFamily) (metric : ClientMetric) (suffix : Str)
    {value : List Insertion} {text : Str} (h : plainText fill value = text) :
    plainText fill (writeHead (T := Str) family metric suffix ++ value ++ writeTail metric) =
      TextSerializer.writeHead (T := Str) family metric suffix ++ text ++
        TextSerializer.writeTail metric := by
  rw [plainText_append, plainText_append, h, plainText_writeTail,
    plainText_writeHead (plainText_writeString _)]

/-- A line of a bucket or a quantile. -/
theorem plainText_labelledLine (family : MetricFamily) (metric : ClientMetric)
    (suffix extraLabelName : Str) (extra : Double) {value : List Insertion} {text : Str}
    (h : plainText fill value = text) :
    plainText fill (writeHead family metric suffix extraLabelName extra ++ value ++
        writeTail metric) =
      TextSerializer.writeHead family metric suffix extraLabelName extra ++ text ++
        TextSerializer.writeTail metric := by
  rw [plainText_append, plainText_append, h, plainText_writeTail,
    plainText_writeHead (plainText_writeDouble _)]

theorem plainText_writeBuckets (family : MetricFamily) (metric : ClientMetric) (last : Double)
    (bucket : List ClientMetric.Bucket) :
    (plainText fill (writeBuckets family metric last bucket).1,
        (writeBuckets family metric last bucket).2) =
      TextSerializer.writeBuckets family metric last bucket := by
  induction bucket generalizing last with
  | nil => rfl
  | cons b bucket ih =>
      have hcount : plainText fill [.unsigned b.cumulative_count] = natText b.cumulative_count := by
        simp
      have hline := plainText_labelledLine family metric "_bucket".toList "le".toList b.upper_bound hcount
      rw [writeBuckets, TextSerializer.writeBuckets, ← ih b.upper_bound]
      dsimp only
      rw [plainText_append, hline]

theorem plainText_serializeMetric (family : MetricFamily) (metric : ClientMetric) :
    plainText fill (serializeMetric family metric) = TextSerializer.serializeMetric family metric := by
  have hcount (n : ℕ) : plainText fill [.unsigned n] = natText n := by simp
  unfold serializeMetric TextSerializer.serializeMetric
  cases family.type with
  | counter => exact plainText_line family metric [] (plainText_writeNumber metric.counter)
  | gauge => exact plainText_line family metric [] (plainText_writeNumber metric.gauge)
  | info => exact plainText_line family metric _ (plainText_writeDouble metric.info)
  | untyped => exact plainText_line family metric [] (plainText_writeDouble metric.untyped)
  | summary =>
      have hquantile (q : ClientMetric.Quantile) := plainText_labelledLine family metric []
        "quantile".toList q.quantile (@plainText_writeDouble fill q.value)
      dsimp only
      rw [serializeSummary, plainText_append, plainText_append, plainText_line _ _ _ (hcount _),
        plainText_line _ _ _ (plainText_writeDouble _)]
      congr 1
      rw [plainText, List.flatMap_assoc]
      exact List.flatMap_congr fun q _ => hquantile q
  | histogram =>
      have hbuckets := @plainText_writeBuckets fill family metric (.inf true) metric.histogram.bucket
      dsimp only
      rw [serializeHistogram, TextSerializer.serializeHistogram, ← hbuckets]
      dsimp only
      rw [plainText_append, plainText_append, plainText_append, plainText_line _ _ _ (hcount _),
        plainText_line _ _ _ (plainText_writeDouble _)]
      congr 1
      split_ifs
      · rw [plainText_append, plainText_append, plainText_writeTail, hcount,
          plainText_writeHead (plainText_writeString _)]
      · rfl

theorem plainText_serializeFamily (family : MetricFamily) :
    plainText fill (serializeFamily family) = TextSerializer.serializeFamily family := by
  have hmetrics : plainText fill (family.metric.flatMap (serializeMetric family)) =
      family.metric.flatMap (TextSerializer.serializeMetric family) := by
    rw [plainText, List.flatMap_assoc]
    exact List.flatMap_congr fun metric _ => plainText_serializeMetric family metric
  unfold serializeFamily TextSerializer.serializeFamily helpEntry TextSerializer.helpEntry
  rw [plainText_append, plainText_append, hmetrics]
  cases family.help.isEmpty <;> simp [typeEnd]

/-- On a stream with the default flags and without a width, whatever its locale, its
precision and its fill character, the text exposition format is written. -/
theorem serialize_default {out : Ostream} (hflags : out.flags = {}) (hwidth : out.width ≤ 0)
    (metrics : List MetricFamily) :
    (serialize out metrics).1 = TextSerializer.serialize metrics := by
  have htext : ({ out with locale := .classic, precision := maxDigits10 - 1 } : Ostream).text =
      (during {} out.fill).text := by
    funext insertion
    rw [during, ← hflags]
    rfl
  rw [serialize_written, Ostream.insertAll_of_width (by exact hwidth), htext, TextSerializer.serialize, List.flatMap_assoc]
  exact List.flatMap_congr fun family _ => plainText_serializeFamily family

end Default

end StreamSerializer

end Promcore
