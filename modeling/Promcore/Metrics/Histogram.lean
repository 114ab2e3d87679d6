import Promcore.Metrics.Gauge

/-!
# The histogram metric

One counter for each bucket, the last one unbounded, and a gauge for the sum.
Collecting adds the counters up into cumulative counts, in unsigned integers;
there is no result where a negative number, an infinity or a NaN would be
converted.

## Implementation notes

Cumulative counts are exact natural numbers. The type of the source ends at
`2 ^ 64 - 1`, and a conversion of more would be undefined there; here it has a
result.
-/

namespace Promcore

/-- `std::adjacent_find` with `>=` finds nothing. -/
def isStrictSorted : List Double → Bool
  | a :: b :: rest => !b.le a && isStrictSorted (b :: rest)
  | _ => true

/-- `std::lower_bound`: the first position whose value is not less than `value`,
for a range partitioned by that comparison. -/
def lowerBound (range : List Double) (value : Double) : ℕ :=
  range.findIdx fun bound => !bound.lt value

structure Histogram where
  bucket_boundaries_ : List Double
  bucket_counts_ : List (CounterType Double)
  sum_ : GaugeType Double
  sorted : isStrictSorted bucket_boundaries_ = true
  size_eq : bucket_counts_.length = bucket_boundaries_.length + 1
deriving DecidableEq

namespace Histogram

def new (buckets : List Double) : Except Exception Histogram :=
  if h : isStrictSorted buckets = true then
    .ok ⟨buckets, List.replicate (buckets.length + 1) CounterType.new, GaugeType.new (.finite 0), h,
      List.length_replicate⟩
  else .error (.invalid_argument "Bucket Boundaries must be strictly sorted")

def observe (h : Histogram) (value : Double) : Histogram :=
  { h with
    sum_ := h.sum_.incrementBy value
    bucket_counts_ := h.bucket_counts_.modify (lowerBound h.bucket_boundaries_ value)
      CounterType.increment
    size_eq := by rw [List.length_modify, h.size_eq] }

/-- The histogram after the call, and whether it threw. -/
def observeMultiple (h : Histogram) (bucket_increments : List Double) (sum_of_values : Double) :
    Except Exception Unit × Histogram :=
  if hsize : bucket_increments.length ≠ h.bucket_counts_.length then
    (.error (.length_error ("The size of bucket_increments was not equal to" ++
      "the number of buckets in the histogram.")), h)
  else
    (.ok (),
      { h with
        sum_ := h.sum_.incrementBy sum_of_values
        bucket_counts_ := List.zipWith CounterType.incrementBy h.bucket_counts_ bucket_increments
        size_eq := by rw [List.length_zipWith, not_not.mp hsize, min_self, h.size_eq] })

def reset (h : Histogram) : Histogram :=
  { h with
    bucket_counts_ := h.bucket_counts_.map CounterType.reset
    sum_ := h.sum_.set (.finite 0)
    size_eq := by rw [List.length_map, h.size_eq] }

/-- `cumulative_count += value`: the sum is a double, truncated back to an
unsigned integer, which is unbounded here. -/
def addTruncated (cumulative_count : ℕ) : Double → Option ℕ
  | .finite x => if -1 < cumulative_count + x then some ⌊cumulative_count + x⌋.toNat else none
  | _ => none

/-- The loop of `Collect`, at index `i`. -/
def collectBuckets (bucket_boundaries_ : List Double) :
    ℕ → ℕ → List (CounterType Double) → Option (ℕ × List ClientMetric.Bucket)
  | _, cumulative_count, [] => some (cumulative_count, [])
  | i, cumulative_count, counter :: counters => do
      let cumulative_count ← addTruncated cumulative_count counter.value
      let bucket : ClientMetric.Bucket :=
        { cumulative_count
          upper_bound := bucket_boundaries_[i]?.getD (.inf false) }
      let (total, buckets) ← collectBuckets bucket_boundaries_ (i + 1) cumulative_count counters
      return (total, bucket :: buckets)

def collect (h : Histogram) : Option ClientMetric := do
  let (cumulative_count, bucket) ← collectBuckets h.bucket_boundaries_ 0 0 h.bucket_counts_
  return { histogram := { bucket, sample_count := cumulative_count, sample_sum := h.sum_.value } }

/-- A call that changes a histogram. -/
inductive Op where
  | observe (value : Double)
  | observeMultiple (bucket_increments : List Double) (sum_of_values : Double)
  | reset
deriving DecidableEq

def apply (h : Histogram) : Op → Histogram
  | .observe value => h.observe value
  | .observeMultiple bucket_increments sum_of_values =>
      (h.observeMultiple bucket_increments sum_of_values).2
  | .reset => h.reset

def run (h : Histogram) (ops : List Op) : Histogram := ops.foldl apply h

end Histogram

end Promcore
