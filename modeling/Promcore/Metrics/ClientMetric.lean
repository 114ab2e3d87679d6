import Promcore.Metrics.Values

/-!
# What a metric reports

The record each metric fills in when it is collected. Every metric fills in
its own part and leaves the defaults elsewhere.
-/

namespace Promcore

namespace ClientMetric

structure Label where
  name : Str
  value : Str
deriving DecidableEq

/-- A counter's or gauge's value: the tag says which member of the union is in
use. -/
inductive Number where
  | int (i : Int64)
  | double (d : Double)
deriving DecidableEq

structure Quantile where
  quantile : Double := .finite 0
  value : Double := .finite 0
deriving DecidableEq

structure Summary where
  sample_count : ℕ := 0
  sample_sum : Double := .finite 0
  quantile : List Quantile := []
deriving DecidableEq

structure Bucket where
  cumulative_count : ℕ := 0
  upper_bound : Double := .finite 0
deriving DecidableEq

structure Histogram where
  sample_count : ℕ := 0
  sample_sum : Double := .finite 0
  bucket : List Bucket := []
deriving DecidableEq

end ClientMetric

structure ClientMetric where
  label : List ClientMetric.Label := []
  counter : ClientMetric.Number := .int 0
  gauge : ClientMetric.Number := .int 0
  info : Double := .finite 1
  summary : ClientMetric.Summary := {}
  histogram : ClientMetric.Histogram := {}
  untyped : Double := .finite 0
  timestamp_ms : Int64 := 0
deriving DecidableEq

end Promcore
