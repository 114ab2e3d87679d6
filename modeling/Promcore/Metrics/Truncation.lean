import Mathlib.Algebra.BigOperators.Group.Finset.Basic
import Mathlib.Algebra.Order.BigOperators.Group.Finset
import Promcore.Metrics.CumulativeCounts

/-!
# Fractional amounts in a histogram

The bucket counters hold exact amounts, fractions included, and no negative
one. `Collect` keeps its running total in an unsigned integer, so it drops the
fraction of each counter on its own: what it reports rises along the buckets
and over time, and falls short of the exact sum by all the fractions together.
-/

namespace Promcore.Histogram

open PrefixSums

/-- A call with exact amounts: any value, or a rational for each bucket. -/
inductive Recording where
  | observe (value : Double)
  | observeMultiple (amounts : List ℚ) (sum_of_values : Double)
  | reset
deriving DecidableEq

def Recording.op : Recording → Op
  | .observe value => .observe value
  | .observeMultiple amounts sum_of_values =>
      .observeMultiple (amounts.map .finite) sum_of_values
  | .reset => .reset

/-- What a call records in bucket `i`. Negative amounts are ignored, and a
batch of another length than the buckets is refused. -/
def Recording.amount (bs : List ℚ) (i : ℕ) : Recording → ℚ
  | .observe value => if lowerBound (bs.map .finite) value = i then 1 else 0
  | .observeMultiple amounts _ =>
      if amounts.length = bs.length + 1 then max 0 (amounts.getD i 0) else 0
  | .reset => 0

/-- The calls since the last reset. -/
def Recording.sinceReset (seen : List Recording) : Recording → List Recording
  | .reset => []
  | call => seen ++ [call]

def Recording.recent (calls : List Recording) : List Recording := calls.foldl sinceReset []

/-- The exact amount in bucket `i`. -/
def recordedIn (bs : List ℚ) (seen : List Recording) (i : ℕ) : ℚ :=
  (seen.map (Recording.amount bs i)).sum

/-- The exact amount in the buckets up to `i`. -/
def recordedUpTo (bs : List ℚ) (seen : List Recording) (i : ℕ) : ℚ :=
  ∑ j ∈ Finset.range (i + 1), recordedIn bs seen j

theorem Recording.amount_nonneg (bs : List ℚ) (i : ℕ) (call : Recording) :
    0 ≤ call.amount bs i := by
  cases call with
  | observe value =>
      rw [Recording.amount]
      split <;> norm_num
  | observeMultiple amounts sum_of_values =>
      rw [Recording.amount]
      split
      · exact le_max_left _ _
      · exact le_rfl
  | reset => exact le_rfl

theorem recordedIn_append (bs : List ℚ) (seen more : List Recording) (i : ℕ) :
    recordedIn bs (seen ++ more) i = recordedIn bs seen i + recordedIn bs more i := by
  simp [recordedIn]

theorem recordedIn_nonneg (bs : List ℚ) (seen : List Recording) (i : ℕ) :
    0 ≤ recordedIn bs seen i := by
  apply List.sum_nonneg
  intro x hx
  obtain ⟨call, -, rfl⟩ := List.mem_map.mp hx
  exact call.amount_nonneg bs i

/-- A counter that holds the amount `x`. -/
def tally (x : ℚ) : CounterType Double := ⟨⟨.finite x⟩⟩

theorem tally_increment (x : ℚ) : (tally x).increment = tally (x + 1) := by
  simp [tally, CounterType.increment, GaugeType.increment, GaugeType.incrementBy,
    GaugeType.change, Arithmetic.add, Arithmetic.ofInt]

/-- A negative amount is ignored. -/
theorem tally_incrementBy (x y : ℚ) :
    (tally x).incrementBy (.finite y) = tally (x + max 0 y) := by
  have hlt : Arithmetic.lt (Double.finite y) (Arithmetic.ofInt 0) = decide (y < 0) := by
    simp [Arithmetic.lt, Arithmetic.ofInt]
  rw [CounterType.incrementBy, hlt]
  rcases lt_or_ge y 0 with hy | hy
  · simp [hy, max_eq_left hy.le]
  · simp [hy.not_gt, max_eq_right hy, tally, GaugeType.incrementBy, GaugeType.change,
      Arithmetic.add]

/-- The counters hold the exact amounts of the calls since the last reset. -/
structure Tallies (h : Histogram) (bs : List ℚ) (seen : List Recording) : Prop where
  boundaries : h.bucket_boundaries_ = bs.map .finite
  counts : h.bucket_counts_ =
    (List.range (bs.length + 1)).map fun i => tally (recordedIn bs seen i)

theorem Tallies.new {bs : List ℚ} {h : Histogram} (hnew : new (bs.map .finite) = .ok h) :
    Tallies h bs [] := by
  unfold Histogram.new at hnew
  split at hnew
  · cases hnew
    refine ⟨rfl, ?_⟩
    simp only [List.length_map, recordedIn, List.map_nil, List.sum_nil, List.map_const',
      List.length_range]
    rfl
  · cases hnew

theorem Tallies.apply {h : Histogram} {bs : List ℚ} {seen : List Recording}
    (ht : Tallies h bs seen) (call : Recording) :
    Tallies (h.apply call.op) bs (Recording.sinceReset seen call) := by
  have hlen : h.bucket_counts_.length = bs.length + 1 := by rw [ht.counts]; simp
  have hget : ∀ i (hi : i < h.bucket_counts_.length),
      h.bucket_counts_[i] = tally (recordedIn bs seen i) := fun i hi => by
    simp [ht.counts]
  cases call with
  | observe value =>
      refine ⟨ht.boundaries, ?_⟩
      change h.bucket_counts_.modify (lowerBound h.bucket_boundaries_ value) _ = _
      rw [ht.boundaries]
      apply List.ext_getElem
      · simp [hlen]
      · intro i hi _
        rw [List.length_modify] at hi
        rw [List.getElem_modify, hget i hi, List.getElem_map, List.getElem_range,
          show Recording.sinceReset seen (.observe value) = seen ++ [.observe value] from rfl,
          recordedIn_append, tally_increment]
        split <;> simp [recordedIn, Recording.amount, *]
  | observeMultiple amounts sum_of_values =>
      have hbounds : h.bucket_boundaries_.length = bs.length := by
        rw [ht.boundaries, List.length_map]
      have hsize : (amounts.map Double.finite).length = amounts.length := List.length_map ..
      by_cases hbatch : amounts.length = bs.length + 1
      · obtain ⟨hboundaries, hzip, -⟩ := h.observeMultiple_accepted sum_of_values
          (hsize.trans (hbatch.trans (congrArg (· + 1) hbounds.symm)))
        refine ⟨hboundaries.trans ht.boundaries, hzip.trans ?_⟩
        apply List.ext_getElem
        · simp [hlen, hbatch]
        · intro i hi _
          rw [List.length_zipWith, lt_min_iff] at hi
          have hi' : i < amounts.length := by simpa using hi.2
          rw [List.getElem_zipWith, hget i hi.1, List.getElem_map, tally_incrementBy,
            List.getElem_map, List.getElem_range,
            show Recording.sinceReset seen (.observeMultiple amounts sum_of_values) =
              seen ++ [.observeMultiple amounts sum_of_values] from rfl, recordedIn_append]
          simp [recordedIn, Recording.amount, hbatch, List.getElem?_eq_getElem hi']
      · have hsame : h.apply (Recording.observeMultiple amounts sum_of_values).op = h := by
          change (h.observeMultiple _ _).2 = h
          rw [h.observeMultiple_refused sum_of_values (by rwa [hsize, hbounds])]
        rw [hsame]
        refine ⟨ht.boundaries, ?_⟩
        simp only [Recording.sinceReset, recordedIn_append]
        simpa [recordedIn, Recording.amount, hbatch] using ht.counts
  | reset =>
      refine ⟨ht.boundaries, ?_⟩
      change h.bucket_counts_.map CounterType.reset = _
      rw [ht.counts, List.map_map]
      rfl

theorem Tallies.run {h : Histogram} {bs : List ℚ} {seen : List Recording}
    (ht : Tallies h bs seen) (calls : List Recording) :
    Tallies (h.run (calls.map Recording.op)) bs (calls.foldl Recording.sinceReset seen) := by
  induction calls generalizing h seen with
  | nil => exact ht
  | cons call calls ih => exact ih (ht.apply call)

/-- Adding a counter to the running total drops the fraction of that counter. -/
theorem addTruncated_floor (cumulative_count : ℕ) {x : ℚ} (hx : 0 ≤ x) :
    addTruncated cumulative_count (.finite x) = some (cumulative_count + ⌊x⌋₊) := by
  have hcount : (0 : ℚ) ≤ cumulative_count := Nat.cast_nonneg _
  have hfloor : ⌊(cumulative_count : ℚ) + x⌋ = ((cumulative_count + ⌊x⌋₊ : ℕ) : ℤ) := by
    rw [Int.floor_natCast_add, ← Int.natCast_floor_eq_floor hx, Nat.cast_add]
  rw [addTruncated, if_pos (by linarith), hfloor, Int.toNat_natCast]

/-- `Collect` reads each counter rounded down. -/
theorem collectBuckets_tally (boundaries : List Double) (amounts : List ℚ)
    (hamounts : ∀ x ∈ amounts, 0 ≤ x) (i cumulative_count : ℕ) :
    collectBuckets boundaries i cumulative_count (amounts.map tally) =
      collectBuckets boundaries i cumulative_count ((amounts.map Nat.floor).map counterOf) := by
  induction amounts generalizing i cumulative_count with
  | nil => rfl
  | cons x amounts ih =>
      obtain ⟨hx, hrest⟩ := List.forall_mem_cons.mp hamounts
      have htally : (tally x).value = .finite x := rfl
      have hcounter : (counterOf ⌊x⌋₊).value = ofCount ⌊x⌋₊ := rfl
      simp only [List.map_cons, collectBuckets, htally, hcounter, addTruncated_floor _ hx,
        addTruncated_ofCount, ih hrest]

/-- The count that `Collect` reports for bucket `i`. -/
def countUpTo (bs : List ℚ) (seen : List Recording) (i : ℕ) : ℕ :=
  ∑ j ∈ Finset.range (i + 1), ⌊recordedIn bs seen j⌋₊

theorem Tallies.collect {h : Histogram} {bs : List ℚ} {seen : List Recording}
    (ht : Tallies h bs seen) :
    h.collect = some { histogram := {
      bucket := (List.range (bs.length + 1)).map fun i =>
        { cumulative_count := countUpTo bs seen i, upper_bound := upperBound bs i }
      sample_count := countUpTo bs seen bs.length
      sample_sum := h.sum_.value } } := by
  have hcounters : h.bucket_counts_ =
      ((List.range (bs.length + 1)).map (recordedIn bs seen)).map tally := by
    rw [ht.counts, List.map_map]
    rfl
  have hfloors : ((List.range (bs.length + 1)).map (recordedIn bs seen)).map Nat.floor =
      (List.range (bs.length + 1)).map fun i => ⌊recordedIn bs seen i⌋₊ := List.map_map ..
  have hnonneg : ∀ x ∈ (List.range (bs.length + 1)).map (recordedIn bs seen), 0 ≤ x := by
    intro x hx
    obtain ⟨i, -, rfl⟩ := List.mem_map.mp hx
    exact recordedIn_nonneg bs seen i
  have htotal : ((List.range (bs.length + 1)).map fun i => ⌊recordedIn bs seen i⌋₊).sum =
      countUpTo bs seen bs.length := by
    rw [← upTo_eq_sum _ (by simp : _ ≤ bs.length + 1), upTo_map_range _ (Nat.lt_succ_self _),
      countUpTo]
  have hbuckets : ((List.range (bs.length + 1)).map fun i =>
      ({ cumulative_count := upTo ((List.range (bs.length + 1)).map fun i => ⌊recordedIn bs seen i⌋₊) i
         upper_bound := upperBound bs i } : ClientMetric.Bucket)) =
      (List.range (bs.length + 1)).map fun i =>
        { cumulative_count := countUpTo bs seen i, upper_bound := upperBound bs i } := by
    apply List.map_congr_left
    intro i hi
    rw [upTo_map_range _ (List.mem_range.mp hi), countUpTo]
  rw [Histogram.collect, hcounters, collectBuckets_tally _ _ hnonneg, hfloors, collectBuckets_eq,
    ht.boundaries]
  simp only [Option.bind_eq_bind, Option.bind_some, Option.pure_def, zero_add, htotal,
    List.length_map, List.length_range, upperBound_eq, hbuckets]

/-- Cumulative counts: none falls along the buckets, and the last one is the
sample count. -/
structure Cumulative (metric : ClientMetric) : Prop where
  sorted : (metric.histogram.bucket.map ClientMetric.Bucket.cumulative_count).Pairwise (· ≤ ·)
  last : (metric.histogram.bucket.getLast?.map ClientMetric.Bucket.cumulative_count) =
    some metric.histogram.sample_count

/-- No count falls from one collection to the other. -/
structure NotFalling (earlier later : ClientMetric) : Prop where
  buckets : List.Forall₂ (fun b b' => b.cumulative_count ≤ b'.cumulative_count)
    earlier.histogram.bucket later.histogram.bucket
  total : earlier.histogram.sample_count ≤ later.histogram.sample_count

theorem countUpTo_mono (bs : List ℚ) (seen : List Recording) {i i' : ℕ} (h : i ≤ i') :
    countUpTo bs seen i ≤ countUpTo bs seen i' :=
  Finset.sum_le_sum_of_subset (Finset.range_subset_range.mpr (by omega))

theorem countUpTo_append (bs : List ℚ) (seen more : List Recording) (i : ℕ) :
    countUpTo bs seen i ≤ countUpTo bs (seen ++ more) i := by
  apply Finset.sum_le_sum
  intro j _
  apply Nat.floor_mono
  rw [recordedIn_append]
  exact le_add_of_nonneg_right (recordedIn_nonneg bs more j)

theorem Tallies.cumulative {h : Histogram} {bs : List ℚ} {seen : List Recording}
    (ht : Tallies h bs seen) {collected : ClientMetric} (hcollect : h.collect = some collected) :
    Cumulative collected := by
  rw [ht.collect, Option.some.injEq] at hcollect
  subst hcollect
  constructor
  · simp only [List.map_map, List.pairwise_map]
    exact List.pairwise_lt_range.imp fun hlt => countUpTo_mono bs seen hlt.le
  · simp [List.range_succ]

/-- Without a reset nothing recorded is dropped. -/
theorem foldl_sinceReset {seen calls : List Recording} (hreset : .reset ∉ calls) :
    calls.foldl Recording.sinceReset seen = seen ++ calls := by
  induction calls generalizing seen with
  | nil => simp
  | cons call calls ih =>
      rw [List.mem_cons, not_or] at hreset
      obtain ⟨hcall, hcalls⟩ := hreset
      have hsince : Recording.sinceReset seen call = seen ++ [call] := by
        cases call with
        | observe value => rfl
        | observeMultiple amounts sum_of_values => rfl
        | reset => exact absurd rfl hcall
      rw [List.foldl_cons, hsince, ih hcalls, List.append_assoc, List.singleton_append]

/-- Whatever the increments are, the counts of two collections with no reset
between them rise along the buckets up to the sample count, and none of them
falls from the earlier collection to the later one. -/
theorem counts_never_fall {bs : List ℚ} {h : Histogram} (hnew : new (bs.map .finite) = .ok h)
    (before between : List Recording) (hreset : .reset ∉ between) :
    ∃ earlier later, (h.run (before.map Recording.op)).collect = some earlier ∧
      (h.run ((before ++ between).map Recording.op)).collect = some later ∧
      Cumulative earlier ∧ Cumulative later ∧ NotFalling earlier later := by
  have hearlier := (Tallies.new hnew).run before
  have hlater := (Tallies.new hnew).run (before ++ between)
  refine ⟨_, _, hearlier.collect, hlater.collect, hearlier.cumulative hearlier.collect,
    hlater.cumulative hlater.collect, ?_, ?_⟩
  · simp only [List.foldl_append, foldl_sinceReset hreset, List.forall₂_map_left_iff,
      List.forall₂_map_right_iff, List.forall₂_same]
    exact fun i _ => countUpTo_append _ _ _ i
  · simp only [List.foldl_append, foldl_sinceReset hreset]
    exact countUpTo_append _ _ _ _

/-- Bounds one and two; negative and fractional amounts before and after. -/
theorem counts_never_fall_two_bounds : ∃ h earlier later,
    new [.finite 1, .finite 2] = .ok h ∧
      (h.run [.observeMultiple [.finite (1 / 2), .finite (-3), .finite 2] (.finite 7)]).collect =
        some earlier ∧
      (h.run [.observeMultiple [.finite (1 / 2), .finite (-3), .finite 2] (.finite 7),
        .observe (.finite 2)]).collect = some later ∧ NotFalling earlier later := by
  obtain ⟨h, hnew, -⟩ := Counts.new (by decide +kernel : ([1, 2] : List ℚ).Pairwise (· < ·))
  obtain ⟨earlier, later, hearlier, hlater, -, -, hnot⟩ := counts_never_fall hnew
    [.observeMultiple [1 / 2, -3, 2] (.finite 7)] [.observe (.finite 2)] (by decide)
  exact ⟨h, earlier, later, hnew, hearlier, hlater, hnot⟩

/-- Every count is less than one from the exact amount it stands for. -/
structure WithinOne (bs : List ℚ) (seen : List Recording) (metric : ClientMetric) : Prop where
  size : metric.histogram.bucket.length = bs.length + 1
  buckets : ∀ i (hi : i < metric.histogram.bucket.length),
    |(metric.histogram.bucket[i].cumulative_count : ℚ) - recordedUpTo bs seen i| < 1
  total : |(metric.histogram.sample_count : ℚ) - recordedUpTo bs seen bs.length| < 1

/-- What a count lacks is all the fractions up to its bucket together. -/
theorem countUpTo_add_fract (bs : List ℚ) (seen : List Recording) (i : ℕ) :
    (countUpTo bs seen i : ℚ) + ∑ j ∈ Finset.range (i + 1), Int.fract (recordedIn bs seen j) =
      recordedUpTo bs seen i := by
  rw [countUpTo, Nat.cast_sum, ← Finset.sum_add_distrib, recordedUpTo]
  apply Finset.sum_congr rfl
  intro j _
  rw [natCast_floor_eq_intCast_floor (recordedIn_nonneg bs seen j)]
  exact Int.floor_add_fract _

theorem abs_countUpTo_sub (bs : List ℚ) (seen : List Recording) (i : ℕ) :
    |(countUpTo bs seen i : ℚ) - recordedUpTo bs seen i| =
      ∑ j ∈ Finset.range (i + 1), Int.fract (recordedIn bs seen j) := by
  have hfract : 0 ≤ ∑ j ∈ Finset.range (i + 1), Int.fract (recordedIn bs seen j) :=
    Finset.sum_nonneg fun j _ => Int.fract_nonneg _
  rw [← countUpTo_add_fract, sub_add_cancel_left, abs_neg, abs_of_nonneg hfract]

/-- The error grows along the buckets. -/
theorem fract_sum_le (bs : List ℚ) (seen : List Recording) {i : ℕ} (hi : i ≤ bs.length) :
    ∑ j ∈ Finset.range (i + 1), Int.fract (recordedIn bs seen j) ≤
      ∑ j ∈ Finset.range (bs.length + 1), Int.fract (recordedIn bs seen j) :=
  Finset.sum_le_sum_of_subset_of_nonneg (Finset.range_subset_range.mpr (by omega))
    fun j _ _ => Int.fract_nonneg _

/-- After any run, each count collected is less than one from the exact sum of
the amounts since the last reset exactly when the fractions of the bucket
amounts add up to less than one. -/
theorem within_one_iff {bs : List ℚ} {h : Histogram} (hnew : new (bs.map .finite) = .ok h)
    (calls : List Recording) :
    ∃ collected, (h.run (calls.map Recording.op)).collect = some collected ∧
      (WithinOne bs (Recording.recent calls) collected ↔
        ∑ j ∈ Finset.range (bs.length + 1),
          Int.fract (recordedIn bs (Recording.recent calls) j) < 1) := by
  refine ⟨_, ((Tallies.new hnew).run calls).collect, ?_, ?_⟩
  · intro hwithin
    rw [← abs_countUpTo_sub]
    exact hwithin.total
  · intro hfract
    refine ⟨by simp, fun i hi => ?_, ?_⟩
    · rw [List.length_map, List.length_range] at hi
      rw [List.getElem_map, List.getElem_range]
      exact (abs_countUpTo_sub bs _ i).trans_lt
        ((fract_sum_le bs _ (Nat.lt_succ_iff.mp hi)).trans_lt hfract)
    · exact (abs_countUpTo_sub bs _ _).trans_lt hfract

theorem within_one_iff_two_bounds : ∃ h collected, new [.finite 1, .finite 2] = .ok h ∧
    (h.run [.observeMultiple [.finite (1 / 2), .finite (5 / 4), .finite 3] (.finite 8)]).collect =
      some collected ∧
    WithinOne [1, 2] [.observeMultiple [1 / 2, 5 / 4, 3] (.finite 8)] collected := by
  obtain ⟨h, hnew, -⟩ := Counts.new (by decide +kernel : ([1, 2] : List ℚ).Pairwise (· < ·))
  obtain ⟨collected, hcollect, hiff⟩ :=
    within_one_iff hnew [.observeMultiple [1 / 2, 5 / 4, 3] (.finite 8)]
  exact ⟨h, collected, hnew, hcollect, hiff.mpr (by decide +kernel)⟩

/-- One half in each bucket. -/
def halves : List Recording := [.observeMultiple [1 / 2, 1 / 2, 1 / 2] (.finite 3)]

/-- One half in each of three buckets: the total is one and a half, and the
sample count is zero. -/
theorem not_within_one : ∃ h collected, new [.finite 1, .finite 2] = .ok h ∧
    (h.run (halves.map Recording.op)).collect = some collected ∧
    collected.histogram.sample_count = 0 ∧ recordedUpTo [1, 2] halves 2 = 3 / 2 ∧
    ¬ WithinOne [1, 2] halves collected := by
  obtain ⟨h, hnew, -⟩ := Counts.new (by decide +kernel : ([1, 2] : List ℚ).Pairwise (· < ·))
  have hcount : countUpTo [1, 2] halves 2 = 0 := by decide +kernel
  have hrecorded : recordedUpTo [1, 2] halves 2 = 3 / 2 := by decide +kernel
  refine ⟨h, _, hnew, ((Tallies.new hnew).run halves).collect, hcount, hrecorded, fun hwithin => ?_⟩
  have htotal : |((countUpTo [1, 2] halves 2 : ℕ) : ℚ) - recordedUpTo [1, 2] halves 2| < 1 :=
    hwithin.total
  rw [hcount, hrecorded] at htotal
  norm_num at htotal

end Promcore.Histogram
