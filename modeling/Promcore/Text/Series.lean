import Promcore.Registry.LabelSets
import Promcore.Text.Samples

/-!
# The time series of a family

A time series is a sample name with a set of labels. What a family exposes is
computed from its state alone: a few names for each metric, and one more
sample for each bound or quantile that the metric lists.
-/

namespace Promcore

open TextSerializer Directory

/-- The identity of a time series. -/
abbrev Identity := Str × Finset ClientMetric.Label

def TextSerializer.Sample.identity (s : Sample) : Identity := (s.name, s.labels.toFinset)

namespace MetricKind

/-- The texts of the bounds or quantiles that a metric lists; a histogram's
last bucket is unbounded. -/
def tokens : (T : MetricKind) → T.Object → List Str
  | .histogram, metric =>
      (Promcore.Histogram.bucket_boundaries_ metric ++ [Double.inf false]).map writeValue
  | .summary, metric =>
      (Promcore.Summary.quantiles_ metric).map fun q => writeValue (Double.finite q.quantile)
  | _, _ => []

/-- The suffixes of the samples without a label of their own. -/
def plainSuffixes : MetricKind → List Str
  | .histogram => ["_count".toList, "_sum".toList]
  | .summary => ["_count".toList, "_sum".toList]
  | .info => ["_info".toList]
  | _ => [[]]

/-- The suffix of the samples for bounds or quantiles. -/
def listedSuffix : MetricKind → Str
  | .histogram => "_bucket".toList
  | _ => []

/-- The label of the samples for bounds or quantiles. -/
def listedLabel : MetricKind → Str
  | .histogram => "le".toList
  | _ => "quantile".toList

/-- The samples of a metric: the suffix, and the label of its own. -/
def series (T : MetricKind) (metric : T.Object) : List (Str × List ClientMetric.Label) :=
  T.plainSuffixes.map (fun suffix => (suffix, [])) ++
    (T.tokens metric).map fun token => (T.listedSuffix, [⟨T.listedLabel, token⟩])

theorem map_series_histogram (metric : Object .histogram) (name : Str)
    (label : List ClientMetric.Label) :
    (series .histogram metric).map (fun s => (name ++ s.1, label ++ s.2)) =
      ["_count".toList, "_sum".toList].map (fun suffix => (name ++ suffix, label)) ++
        (tokens .histogram metric).map fun token =>
          (name ++ "_bucket".toList, label ++ [⟨"le".toList, token⟩]) := by
  rw [series, List.map_append, List.map_map, List.map_map]
  simp only [Function.comp_def, List.append_nil label]
  rfl

theorem map_series_summary (metric : Object .summary) (name : Str)
    (label : List ClientMetric.Label) :
    (series .summary metric).map (fun s => (name ++ s.1, label ++ s.2)) =
      ["_count".toList, "_sum".toList].map (fun suffix => (name ++ suffix, label)) ++
        (tokens .summary metric).map fun token =>
          (name ++ [], label ++ [⟨"quantile".toList, token⟩]) := by
  rw [series, List.map_append, List.map_map, List.map_map]
  simp only [Function.comp_def, List.append_nil label]
  rfl

end MetricKind

namespace Labels

end Labels

namespace Family

variable {T : MetricKind}

def entryIdentities (f : Family T) (entry : Entry T) : List Identity :=
  (T.series entry.object).map fun s => (f.name_ ++ s.1, (f.label entry.labels ++ s.2).toFinset)

/-- The time series of a family. -/
def identities (f : Family T) : List Identity := f.metrics_.flatMap f.entryIdentities

end Family

end Promcore
