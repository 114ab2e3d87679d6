import Promcore.Metrics.ClientMetric
import Promcore.Sketch.SampleSteps
import Promcore.Window.TimeWindowQuantiles

/-!
# The summary metric

A count, a sum and the quantiles of a sliding window. Collecting reads the
targeted quantiles one after the other, each read with its own clock reading,
and each read flushes and compresses the bucket it reads from.
-/

namespace Promcore

structure Summary where
  quantiles_ : List Quantile
  count_ : ℕ
  sum_ : ℚ
  quantile_values_ : TimeWindowQuantiles (CKMSQuantiles ℚ)
deriving DecidableEq

namespace Summary

/-- The constructor, at the clock reading `now`. -/
def new (quantiles : List Quantile) (max_age age_buckets now : ℤ) : Option Summary := do
  let values ← TimeWindowQuantiles.new (CKMSQuantiles.new quantiles) max_age age_buckets now
  return ⟨quantiles, 0, 0, values⟩

def observe (s : Summary) (now : ℤ) (value : ℚ) : Option Summary := do
  let values ← s.quantile_values_.insert now value
  return { s with count_ := s.count_ + 1, sum_ := s.sum_ + value, quantile_values_ := values }

/-- The loop of `Collect`; `clock i` is the reading taken by its turn `i`. -/
def collectQuantiles : List Quantile → (ℕ → ℤ) → TimeWindowQuantiles (CKMSQuantiles ℚ) →
    Option (TimeWindowQuantiles (CKMSQuantiles ℚ) × List ClientMetric.Quantile)
  | [], _, values => some (values, [])
  | quantile :: quantiles, clock, values => do
      let (values, value) ← values.get (clock 0) quantile.quantile
      let (values, entries) ← collectQuantiles quantiles (fun i => clock (i + 1)) values
      return (values, ⟨.finite quantile.quantile, Double.ofOption value⟩ :: entries)

/-- The metric collected, and the summary left behind by the reads. -/
def collect (s : Summary) (clock : ℕ → ℤ) : Option (Summary × ClientMetric) := do
  let (values, entries) ← collectQuantiles s.quantiles_ clock s.quantile_values_
  return ({ s with quantile_values_ := values },
    { summary := ⟨s.count_, .finite s.sum_, entries⟩ })

/-- A call of the summary's interface. -/
inductive Op where
  | observe (now : ℤ) (value : ℚ)
  | collect (clock : ℕ → ℤ)

def apply (s : Summary) : Op → Option Summary
  | .observe now value => s.observe now value
  | .collect clock => do
      let (s, _) ← s.collect clock
      return s

def run (s : Summary) (ops : List Op) : Option Summary := ops.foldlM apply s

/-- Any number of `Collect` calls in a row. -/
def scrapes (s : Summary) : List (ℕ → ℤ) → Option (Summary × List ClientMetric)
  | [] => some (s, [])
  | clock :: clocks => do
      let (s, metric) ← s.collect clock
      let (s, metrics) ← s.scrapes clocks
      return (s, metric :: metrics)

/-- No bucket rotation is due at any of the readings of a `Collect`. -/
def NoRotation (s : Summary) (clock : ℕ → ℤ) : Prop :=
  ∀ i < s.quantiles_.length,
    clock i - s.quantile_values_.last_rotation_ ≤ s.quantile_values_.rotation_interval_

/-- The bucket that answers, as the first read of a `Collect` leaves it. -/
def flushedBucket (s : Summary) : Option (CKMSQuantiles ℚ) := do
  let bucket ← s.quantile_values_.ckms_quantiles_[s.quantile_values_.current_bucket_]?
  bucket.flush

end Summary

end Promcore
