import Promcore.Library.PrefixSums
import Promcore.Metrics.Histogram

/-!
# A histogram reports the cumulative distribution of its history

The prefix sums of the bucket counters are, for each upper bound, the number
of values at or below it that were recorded since the last reset, one by one
or in batches.
-/

namespace Promcore

namespace Double

/-- Any other value than NaN is at most a bound or above it. -/
theorem not_finite_lt (x : ℚ) {v : Double} (hv : v ≠ .nan) :
    (!(Double.finite x).lt v) = v.le (.finite x) := by
  cases v with
  | nan => exact absurd rfl hv
  | inf negative => cases negative <;> simp [le, lt]
  | finite y => simp [← decide_not]

theorem le_inf {v : Double} (hv : v ≠ .nan) : v.le (.inf false) = true := by
  cases v with
  | nan => exact absurd rfl hv
  | inf negative => cases negative <;> simp [le, lt]
  | finite y => simp [le, lt]

theorem le_finite_trans {v : Double} {x y : ℚ} (h : v.le (.finite x) = true) (hxy : x ≤ y) :
    v.le (.finite y) = true := by
  cases v with
  | nan => simp [le, lt] at h
  | inf negative => cases negative <;> simp_all [le, lt]
  | finite z =>
      simp only [le_finite, decide_eq_true_eq] at h ⊢
      exact h.trans hxy

end Double

namespace Histogram

open PrefixSums

/-- A count, as the double it is given as. -/
def ofCount (count : ℕ) : Double := .finite count

/-- A call with the data the cumulative distribution speaks of: any value, or
natural numbers for the buckets. -/
inductive Event where
  | observe (value : Double)
  | observeMultiple (counts : List ℕ) (sum_of_values : ℚ)
  | reset
deriving DecidableEq

def Event.op : Event → Op
  | .observe value => .observe value
  | .observeMultiple counts sum_of_values =>
      .observeMultiple (counts.map ofCount) (.finite sum_of_values)
  | .reset => .reset

/-- The calls since the last reset. -/
def sinceReset (seen : List Event) : Event → List Event
  | .reset => []
  | e => seen ++ [e]

def recent (events : List Event) : List Event := events.foldl sinceReset []

/-- The upper bound of bucket `i`. -/
def upperBound (bs : List ℚ) (i : ℕ) : Double :=
  if h : i < bs.length then .finite bs[i] else .inf false

/-- How many of the values a call records are at most the bound of bucket `i`;
a batch of another length than the buckets is refused. -/
def Event.atMost (bs : List ℚ) (i : ℕ) : Event → ℕ
  | .observe value => if value.le (upperBound bs i) then 1 else 0
  | .observeMultiple counts _ =>
      if counts.length = bs.length + 1 then (counts.take (i + 1)).sum else 0
  | .reset => 0

/-- How many values a call records. -/
def Event.total (bs : List ℚ) : Event → ℕ
  | .observe _ => 1
  | .observeMultiple counts _ => if counts.length = bs.length + 1 then counts.sum else 0
  | .reset => 0

/-- What a call adds to the sum. -/
def Event.sum (bs : List ℚ) : Event → ℚ
  | .observe (.finite x) => x
  | .observe _ => 0
  | .observeMultiple counts sum_of_values =>
      if counts.length = bs.length + 1 then sum_of_values else 0
  | .reset => 0

theorem upperBound_cons_succ (b : ℚ) (bs : List ℚ) (i : ℕ) :
    upperBound (b :: bs) (i + 1) = upperBound bs i := by
  simp [upperBound]

/-- The search finds the first bucket whose bound is at least the value. -/
theorem lowerBound_le_iff {bs : List ℚ} (hbs : bs.Pairwise (· < ·)) {v : Double}
    (hv : v ≠ .nan) {i : ℕ} (hi : i ≤ bs.length) :
    lowerBound (bs.map .finite) v ≤ i ↔ v.le (upperBound bs i) = true := by
  induction bs generalizing i with
  | nil =>
      obtain rfl : i = 0 := by simpa using hi
      simp [lowerBound, upperBound, Double.le_inf hv]
  | cons b bs ih =>
      rw [lowerBound, List.map_cons, List.findIdx_cons, Double.not_finite_lt b hv]
      cases hle : v.le (.finite b) with
      | true =>
          simp only [cond_true, Nat.zero_le, true_iff]
          -- every later bound is larger still
          cases i with
          | zero => simpa [upperBound] using hle
          | succ i =>
              rw [upperBound_cons_succ, upperBound]
              split
              · have hlt := (List.pairwise_cons.mp hbs).1 _ (List.getElem_mem ‹_›)
                exact Double.le_finite_trans hle hlt.le
              · exact Double.le_inf hv
      | false =>
          cases i with
          | zero => simp [upperBound, hle]
          | succ i =>
              have hrest := ih (List.pairwise_cons.mp hbs).2 (by simpa using hi : i ≤ bs.length)
              rw [lowerBound] at hrest
              simpa [upperBound_cons_succ] using hrest

theorem lowerBound_le_length (range : List Double) (v : Double) :
    lowerBound range v ≤ range.length := List.findIdx_le_length

theorem isStrictSorted_finite {bs : List ℚ} (hbs : bs.Pairwise (· < ·)) :
    isStrictSorted (bs.map .finite) = true := by
  induction bs with
  | nil => rfl
  | cons b bs ih =>
      cases bs with
      | nil => rfl
      | cons b' bs =>
          have hlt := (List.pairwise_cons.mp hbs).1 b' List.mem_cons_self
          have hrest := ih (List.pairwise_cons.mp hbs).2
          simp only [List.map_cons, isStrictSorted, Double.le_finite] at hrest ⊢
          simp [hlt, hrest]

/-- A counter that counted `n`. -/
def counterOf (n : ℕ) : CounterType Double := ⟨⟨ofCount n⟩⟩

/-- The counters and the sum of a histogram with bounds `bs` after the calls
`seen` since the last reset. -/
structure Counts (h : Histogram) (bs : List ℚ) (seen : List Event) : Prop where
  boundaries : h.bucket_boundaries_ = bs.map .finite
  counts : ∃ counts : List ℕ, h.bucket_counts_ = counts.map counterOf ∧
    ∀ i ≤ bs.length, upTo counts i = (seen.map (Event.atMost bs i)).sum
  sum : (∀ v, .observe v ∈ seen → ∃ x, v = .finite x) →
    h.sum_ = ⟨.finite (seen.map (Event.sum bs)).sum⟩

theorem Counts.length {h : Histogram} {bs : List ℚ} {seen : List Event} (hc : Counts h bs seen)
    {counts : List ℕ} (hcounts : h.bucket_counts_ = counts.map counterOf) :
    counts.length = bs.length + 1 := by
  have := h.size_eq
  rwa [hcounts, hc.boundaries, List.length_map, List.length_map] at this

theorem Counts.new {bs : List ℚ} (hbs : bs.Pairwise (· < ·)) :
    ∃ h, Histogram.new (bs.map .finite) = .ok h ∧ Counts h bs [] := by
  refine ⟨_, by rw [Histogram.new, dif_pos (isStrictSorted_finite hbs)], rfl,
    ⟨List.replicate (bs.length + 1) 0, ?_, fun i _ => ?_⟩, fun _ => ?_⟩
  · simp only [List.length_map, List.map_replicate]
    rfl
  · simpa using upTo_replicate_zero (M := ℕ) (bs.length + 1) i
  · rfl

theorem modify_counterOf (counts : List ℕ) (k : ℕ) :
    (counts.map counterOf).modify k CounterType.increment =
      (counts.modify k (· + 1)).map counterOf := by
  induction counts generalizing k with
  | nil => simp
  | cons c counts ih =>
      cases k with
      | zero =>
          simp only [List.map_cons, List.modify_zero_cons, List.cons.injEq, and_true]
          simp [counterOf, ofCount, CounterType.increment, GaugeType.increment, GaugeType.incrementBy,
            GaugeType.change, Arithmetic.add, Arithmetic.ofInt]
      | succ k => simp [ih]

theorem counterOf_incrementBy (c c' : ℕ) :
    (counterOf c).incrementBy (ofCount c') = counterOf (c + c') := by
  have hneg : Arithmetic.lt (ofCount c') (Arithmetic.ofInt 0) = false := by
    simp [ofCount, Arithmetic.lt, Arithmetic.ofInt]
  rw [CounterType.incrementBy, hneg]
  simp [counterOf, ofCount, GaugeType.incrementBy, GaugeType.change, Arithmetic.add]

theorem zipWith_counterOf (counts counts' : List ℕ) :
    List.zipWith CounterType.incrementBy (counts.map counterOf) (counts'.map ofCount) =
      (List.zipWith (· + ·) counts counts').map counterOf := by
  simp [List.zipWith_map, List.map_zipWith, counterOf_incrementBy]

/-- A batch of another length than the buckets throws and changes nothing. -/
theorem observeMultiple_refused (h : Histogram) {increments : List Double} (s : Double)
    (hsize : increments.length ≠ h.bucket_boundaries_.length + 1) :
    h.observeMultiple increments s =
      (.error (.length_error ("The size of bucket_increments was not equal to" ++
        "the number of buckets in the histogram.")), h) := by
  rw [← h.size_eq] at hsize
  rw [observeMultiple, dif_pos hsize]

theorem observeMultiple_accepted (h : Histogram) {increments : List Double} (s : Double)
    (hsize : increments.length = h.bucket_boundaries_.length + 1) :
    (h.observeMultiple increments s).2.bucket_boundaries_ = h.bucket_boundaries_ ∧
      (h.observeMultiple increments s).2.bucket_counts_ =
        List.zipWith CounterType.incrementBy h.bucket_counts_ increments ∧
      (h.observeMultiple increments s).2.sum_ = h.sum_.incrementBy s := by
  rw [← h.size_eq] at hsize
  rw [observeMultiple, dif_neg (not_not.mpr hsize)]
  exact ⟨rfl, rfl, rfl⟩

/-- Each call adds what it records to every prefix sum. -/
theorem Counts.apply {h : Histogram} {bs : List ℚ} (hbs : bs.Pairwise (· < ·)) {seen : List Event}
    (hc : Counts h bs seen) (e : Event) (hnan : ∀ v, e = .observe v → v ≠ .nan) :
    Counts (h.apply e.op) bs (sinceReset seen e) := by
  obtain ⟨counts, hcounts, hupTo⟩ := hc.counts
  have hlen := hc.length hcounts
  cases e with
  | observe v =>
      have hv := hnan v rfl
      have hk : lowerBound (bs.map .finite) v < counts.length := by
        have := lowerBound_le_length (bs.map .finite) v
        rw [List.length_map] at this
        omega
      refine ⟨hc.boundaries, ⟨counts.modify (lowerBound (bs.map .finite) v) (· + 1), ?_,
        fun i hi => ?_⟩, fun hfinite => ?_⟩
      · change h.bucket_counts_.modify (lowerBound h.bucket_boundaries_ v) _ = _
        rw [hcounts, hc.boundaries, modify_counterOf]
      · rw [upTo_modify counts 1 hk i, hupTo i hi]
        simp only [lowerBound_le_iff hbs hv hi, sinceReset, List.map_append, List.map_cons,
          List.map_nil, List.sum_append, List.sum_singleton, Event.atMost]
      · obtain ⟨x, rfl⟩ := hfinite v (by simp [sinceReset])
        have hsum := hc.sum fun v hv => hfinite v (by simp [sinceReset, hv])
        change h.sum_.incrementBy (.finite x) = _
        rw [hsum]
        simp [GaugeType.incrementBy, GaugeType.change, Arithmetic.add, sinceReset, Event.sum]
  | observeMultiple batch s =>
      have hsize : (batch.map ofCount).length = batch.length := List.length_map ..
      have hbounds : h.bucket_boundaries_.length = bs.length := by
        rw [hc.boundaries, List.length_map]
      by_cases hbatch : batch.length = bs.length + 1
      · obtain ⟨hboundaries, hzip, hsum⟩ := h.observeMultiple_accepted (.finite s)
          (hsize.trans (hbatch.trans (congrArg (· + 1) hbounds.symm)))
        refine ⟨hboundaries.trans hc.boundaries,
          ⟨List.zipWith (· + ·) counts batch, ?_, fun i hi => ?_⟩, fun hfinite => ?_⟩
        · rw [← zipWith_counterOf, ← hcounts]
          exact hzip
        · rw [upTo_zipWith_add counts batch (by omega), hupTo i hi]
          simp [sinceReset, Event.atMost, hbatch, upTo]
        · have hold := hc.sum fun v hv => hfinite v (by simp [sinceReset, hv])
          refine hsum.trans ?_
          rw [hold]
          simp [GaugeType.incrementBy, GaugeType.change, Arithmetic.add, sinceReset, Event.sum,
            hbatch]
      · have hsame : h.apply (Event.observeMultiple batch s).op = h := by
          change (h.observeMultiple _ _).2 = h
          rw [h.observeMultiple_refused (.finite s) (by rwa [hsize, hbounds])]
        rw [hsame]
        refine ⟨hc.boundaries, ⟨counts, hcounts, fun i hi => ?_⟩, fun hfinite => ?_⟩
        · rw [hupTo i hi]
          simp [sinceReset, Event.atMost, hbatch]
        · rw [hc.sum fun v hv => hfinite v (by simp [sinceReset, hv])]
          simp [sinceReset, Event.sum, hbatch]
  | reset =>
      refine ⟨hc.boundaries, ⟨List.replicate (bs.length + 1) 0, ?_, fun i _ => ?_⟩, fun _ => rfl⟩
      · change h.bucket_counts_.map CounterType.reset = _
        rw [hcounts, ← hlen, ← List.map_const', List.map_map, List.map_map]
        rfl
      · simpa [sinceReset] using upTo_replicate_zero (M := ℕ) (bs.length + 1) i

theorem Counts.run {h : Histogram} {bs : List ℚ} (hbs : bs.Pairwise (· < ·)) {seen : List Event}
    (hc : Counts h bs seen) (events : List Event) (hnan : ∀ v, .observe v ∈ events → v ≠ .nan) :
    Counts (h.run (events.map Event.op)) bs (events.foldl sinceReset seen) := by
  induction events generalizing h seen with
  | nil => exact hc
  | cons e events ih =>
      have hstep := hc.apply hbs e fun v hv => hnan v (by simp [hv])
      exact ih hstep fun v hv => hnan v (List.mem_cons_of_mem _ hv)

theorem addTruncated_ofCount (cumulative count : ℕ) :
    addTruncated cumulative (ofCount count) = some (cumulative + count) := by
  have hpos : (-1 : ℚ) < cumulative + count := by
    have : (0 : ℚ) ≤ (cumulative + count : ℕ) := Nat.cast_nonneg _
    push_cast at this
    linarith
  rw [ofCount, addTruncated, if_pos hpos, ← Nat.cast_add, Int.floor_natCast, Int.toNat_natCast]

/-- The loop reports the prefix sums beside the upper bounds. -/
theorem collectBuckets_eq (boundaries : List Double) (counts : List ℕ) (i cumulative : ℕ) :
    collectBuckets boundaries i cumulative (counts.map counterOf) =
      some (cumulative + counts.sum, (List.range counts.length).map fun j =>
        { cumulative_count := cumulative + upTo counts j
          upper_bound := boundaries[i + j]?.getD (.inf false) }) := by
  induction counts generalizing i cumulative with
  | nil => simp [collectBuckets]
  | cons c counts ih =>
      have hvalue : (counterOf c).value = ofCount c := rfl
      simp only [List.map_cons, collectBuckets, hvalue, addTruncated_ofCount, Option.bind_eq_bind,
        Option.bind_some, ih, Option.pure_def]
      simp [List.range_succ_eq_map, Function.comp_def, add_assoc, add_comm 1]

theorem upperBound_eq (bs : List ℚ) (i : ℕ) :
    (bs.map Double.finite)[i]?.getD (.inf false) = upperBound bs i := by
  rw [upperBound]
  split
  · simp [‹i < bs.length›]
  · simp [List.getElem?_eq_none (not_lt.mp ‹_›)]

theorem total_eq_atMost (bs : List ℚ) {e : Event} (hnan : ∀ v, e = .observe v → v ≠ .nan) :
    e.atMost bs bs.length = e.total bs := by
  cases e with
  | observe v => simp [Event.atMost, Event.total, upperBound, Double.le_inf (hnan v rfl)]
  | observeMultiple counts s =>
      simp only [Event.atMost, Event.total]
      split
      · rw [List.take_of_length_le (by omega)]
      · rfl
  | reset => rfl

theorem mem_sinceReset {e e' : Event} {seen : List Event} (h : e ∈ sinceReset seen e') :
    e ∈ seen ∨ e = e' := by
  cases e' with
  | observe v => simpa [sinceReset] using h
  | observeMultiple counts s => simpa [sinceReset] using h
  | reset => simp [sinceReset] at h

theorem mem_of_mem_foldl {e : Event} (events : List Event) {seen : List Event}
    (h : e ∈ events.foldl sinceReset seen) : e ∈ seen ∨ e ∈ events := by
  induction events generalizing seen with
  | nil => exact Or.inl h
  | cons e' events ih =>
      rcases ih h with hseen | hevents
      · rcases mem_sinceReset hseen with hseen | rfl
        · exact Or.inl hseen
        · exact Or.inr List.mem_cons_self
      · exact Or.inr (List.mem_cons_of_mem _ hevents)

/-- After any run, the bucket with bound `b` counts the values at most `b`
recorded since the last reset, the last bucket and the sample count are the
total, the sum is the sum, and a batch of another length than the buckets
throws and changes nothing. -/
theorem collect_cumulative (bs : List ℚ) (hbs : bs.Pairwise (· < ·)) (events : List Event)
    (hnan : ∀ v, .observe v ∈ events → v ≠ .nan) :
    ∃ h metric, Histogram.new (bs.map .finite) = .ok h ∧
      (h.run (events.map Event.op)).collect = some metric ∧
      metric.histogram.bucket = (List.range (bs.length + 1)).map (fun i =>
        { cumulative_count := ((recent events).map (Event.atMost bs i)).sum
          upper_bound := upperBound bs i }) ∧
      metric.histogram.bucket.getLast? =
        some ⟨((recent events).map (Event.total bs)).sum, .inf false⟩ ∧
      metric.histogram.sample_count = ((recent events).map (Event.total bs)).sum ∧
      ((∀ v, .observe v ∈ recent events → ∃ x, v = .finite x) →
        metric.histogram.sample_sum = .finite ((recent events).map (Event.sum bs)).sum) ∧
      ∀ increments s, increments.length ≠ bs.length + 1 →
        (h.run (events.map Event.op)).observeMultiple increments s =
          (.error (.length_error ("The size of bucket_increments was not equal to" ++
            "the number of buckets in the histogram.")), h.run (events.map Event.op)) := by
  obtain ⟨h, hnew, h₀⟩ := Counts.new hbs
  have hrun := h₀.run hbs events hnan
  obtain ⟨counts, hcounts, hupTo⟩ := hrun.counts
  have hlen := hrun.length hcounts
  have hbuckets : (List.range counts.length).map (fun j =>
      ({ cumulative_count := 0 + upTo counts j
         upper_bound := (bs.map Double.finite)[0 + j]?.getD (.inf false) } : ClientMetric.Bucket)) =
      (List.range (bs.length + 1)).map fun i =>
        { cumulative_count := ((recent events).map (Event.atMost bs i)).sum
          upper_bound := upperBound bs i } := by
    rw [hlen]
    apply List.map_congr_left
    intro i hi
    rw [List.mem_range] at hi
    rw [zero_add, zero_add, upperBound_eq, hupTo i (by omega)]
    rfl
  have htotal : counts.sum = ((recent events).map (Event.total bs)).sum := by
    rw [← upTo_eq_sum counts hlen.le, hupTo bs.length le_rfl]
    apply congrArg List.sum
    apply List.map_congr_left
    intro e he
    exact total_eq_atMost bs fun v hv => hnan v (hv ▸ (mem_of_mem_foldl events he).resolve_left
      List.not_mem_nil)
  refine ⟨h, { histogram := ⟨counts.sum, (h.run (events.map Event.op)).sum_.value, _⟩ }, hnew, ?_,
    hbuckets, ?_, htotal, fun hfinite => ?_, fun increments s hsize => ?_⟩
  · rw [collect, hrun.boundaries, hcounts, collectBuckets_eq]
    simp
  · rw [hbuckets, List.range_succ, List.map_append, List.map_singleton, List.getLast?_concat]
    have hlast := hupTo bs.length le_rfl
    rw [upTo_eq_sum counts hlen.le, htotal] at hlast
    simp only [Option.some.injEq, ClientMetric.Bucket.mk.injEq]
    exact ⟨hlast.symm, by simp [upperBound]⟩
  · change (h.run (events.map Event.op)).sum_.value_ = _
    rw [hrun.sum hfinite]
    rfl
  · apply observeMultiple_refused
    rwa [hrun.boundaries, List.length_map]

/-- Bounds one and two; an infinite value, a reset, a value on a bound, a batch
and a refused batch. -/
theorem collect_cumulative_two_bounds : ∃ h metric,
    Histogram.new [.finite 1, .finite 2] = .ok h ∧
      (h.run [.observe (.inf false), .reset, .observe (.finite 1),
        .observeMultiple [.finite 0, .finite 4, .finite 5] (.finite 20),
        .observeMultiple [.finite 7] (.finite 7)]).collect = some metric ∧
      metric.histogram.bucket = [⟨1, .finite 1⟩, ⟨5, .finite 2⟩, ⟨10, .inf false⟩] ∧
      metric.histogram.sample_count = 10 := by
  obtain ⟨h, metric, hnew, hcollect, hbucket, -, hcount, -⟩ :=
    collect_cumulative [1, 2] (by decide +kernel)
      [.observe (.inf false), .reset, .observe (.finite 1), .observeMultiple [0, 4, 5] 20,
        .observeMultiple [7] 7] (by simp)
  refine ⟨h, metric, hnew, ?_, hbucket.trans (by decide +kernel), hcount.trans (by decide +kernel)⟩
  simpa [Event.op, ofCount] using hcollect

end Histogram

end Promcore
