import Promcore.Registry.Family
import Promcore.Text.Numbers

/-!
# The text exposition format

Each function returns what the source writes to its stream. The stream is in
its default format, with the classic locale and the precision that `Serialize`
sets.
-/

namespace Promcore

/-- The type parameter of `WriteHead`: what its overload of `writeValue` writes. -/
class Writable (T : Type) where
  writeValue : T → Str

export Writable (writeValue)

/-- `std::numeric_limits<double>::max_digits10`. -/
def maxDigits10 : ℕ := 17

/-- `double()`. -/
instance : Inhabited Double := ⟨.finite 0⟩

instance : Writable Double where
  writeValue
    | .nan => "Nan".toList
    | .inf negative => if negative then "-Inf".toList else "+Inf".toList
    | .finite value => finiteText (maxDigits10 - 1) value

instance : Writable Int64 where
  writeValue value := intText value.toInt

/-- The `switch` over one character. -/
def writeChar (c : Char) : Str :=
  if c = '\n' then ['\\', 'n']
  else if c = '\\' then ['\\', c]
  else if c = '"' then ['\\', c]
  else [c]

instance : Writable Str where
  writeValue value := value.flatMap writeChar

instance : Writable ClientMetric.Number where
  writeValue
    | .int i => writeValue i
    | .double d => writeValue d

namespace TextSerializer

/-- One pair of a label block, after the separator. -/
def writePair {T : Type} [Writable T] (separator name : Str) (value : T) : Str :=
  separator ++ name ++ ['=', '"'] ++ writeValue value ++ ['"']

/-- The loop of `WriteHead` over the labels: what it writes, and the separator
it leaves for one more. -/
def writeLabels (separator : Str) : List ClientMetric.Label → Str × Str
  | [] => ([], separator)
  | lp :: label =>
      let (rest, last) := writeLabels [','] label
      (writePair separator lp.name lp.value ++ rest, last)

/-- Metric name and labels. -/
def writeHead {T : Type} [Writable T] [Inhabited T] (family : MetricFamily)
    (metric : ClientMetric) (suffix : Str := []) (extraLabelName : Str := [])
    (extraLabelValue : T := default) : Str :=
  family.name ++ suffix ++
    (if !metric.label.isEmpty || !extraLabelName.isEmpty then
      let (labels, separator) := writeLabels [] metric.label
      ['{'] ++ labels ++
        (if !extraLabelName.isEmpty then writePair separator extraLabelName extraLabelValue
        else []) ++ ['}']
    else []) ++ [' ']

/-- Timestamp and line end. -/
def writeTail (metric : ClientMetric) : Str :=
  (if metric.timestamp_ms ≠ 0 then ' ' :: writeValue metric.timestamp_ms else []) ++ ['\n']

def serializeCounter (family : MetricFamily) (metric : ClientMetric) : Str :=
  writeHead (T := Str) family metric ++ writeValue metric.counter ++ writeTail metric

def serializeGauge (family : MetricFamily) (metric : ClientMetric) : Str :=
  writeHead (T := Str) family metric ++ writeValue metric.gauge ++ writeTail metric

def serializeInfo (family : MetricFamily) (metric : ClientMetric) : Str :=
  writeHead (T := Str) family metric "_info".toList ++ writeValue metric.info ++ writeTail metric

def serializeSummary (family : MetricFamily) (metric : ClientMetric) : Str :=
  let sum := metric.summary
  writeHead (T := Str) family metric "_count".toList ++ natText sum.sample_count ++
    writeTail metric ++
  (writeHead (T := Str) family metric "_sum".toList ++ writeValue sum.sample_sum ++
    writeTail metric) ++
  sum.quantile.flatMap fun q =>
    writeHead family metric [] "quantile".toList q.quantile ++ writeValue q.value ++
      writeTail metric

def serializeUntyped (family : MetricFamily) (metric : ClientMetric) : Str :=
  writeHead (T := Str) family metric ++ writeValue metric.untyped ++ writeTail metric

/-- The loop over the buckets: what it writes, and the `last` upper bound. -/
def writeBuckets (family : MetricFamily) (metric : ClientMetric) (last : Double) :
    List ClientMetric.Bucket → Str × Double
  | [] => ([], last)
  | b :: bucket =>
      let head := writeHead family metric "_bucket".toList "le".toList b.upper_bound
      let (rest, last) := writeBuckets family metric b.upper_bound bucket
      (head ++ natText b.cumulative_count ++ writeTail metric ++ rest, last)

def serializeHistogram (family : MetricFamily) (metric : ClientMetric) : Str :=
  let hist := metric.histogram
  let (buckets, last) := writeBuckets family metric (.inf true) hist.bucket
  writeHead (T := Str) family metric "_count".toList ++ natText hist.sample_count ++
    writeTail metric ++
  (writeHead (T := Str) family metric "_sum".toList ++ writeValue hist.sample_sum ++
    writeTail metric) ++
  buckets ++
  (if last ≠ .inf false then
    writeHead family metric "_bucket".toList "le".toList "+Inf".toList ++
      natText hist.sample_count ++ writeTail metric
  else [])

/-- The `# HELP` entry; the help text is written as it is. -/
def helpEntry (family : MetricFamily) : Str :=
  if !family.help.isEmpty then
    "# HELP ".toList ++ family.name ++ [' '] ++ family.help ++ ['\n']
  else []

/-- The word after the name in the `# TYPE` entry; an info is exposed as a
gauge. -/
def typeWord : MetricType → Str
  | .counter => "counter".toList
  | .gauge => "gauge".toList
  | .info => "gauge".toList
  | .summary => "summary".toList
  | .untyped => "untyped".toList
  | .histogram => "histogram".toList

/-- The function that writes the metrics of a type. -/
def serializeMetric (family : MetricFamily) : ClientMetric → Str :=
  match family.type with
  | .counter => serializeCounter family
  | .gauge => serializeGauge family
  | .info => serializeInfo family
  | .summary => serializeSummary family
  | .untyped => serializeUntyped family
  | .histogram => serializeHistogram family

def serializeFamily (family : MetricFamily) : Str :=
  helpEntry family ++
    ("# TYPE ".toList ++ family.name ++ [' '] ++ typeWord family.type ++ ['\n']) ++
    family.metric.flatMap (serializeMetric family)

def serialize (metrics : List MetricFamily) : Str := metrics.flatMap serializeFamily

end TextSerializer

end Promcore
