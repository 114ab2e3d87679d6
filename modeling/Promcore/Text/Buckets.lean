import Promcore.Metrics.Collecting
import Promcore.Text.RoundTrip

/-!
# The buckets of a histogram, collected and written

The constructor compares neighbours, `Collect` adds an unbounded bucket, and
the serializer adds one where the last bound is not `+Inf`. The three agree on
every vector of boundaries without NaN and without `+Inf`.
-/

namespace Promcore

open TextSerializer

namespace Double

theorem lt_trans {x y z : Double} (hxy : x.lt y = true) (hyz : y.lt z = true) :
    x.lt z = true := by
  rcases x with _ | (_ | _) | x <;> rcases y with _ | (_ | _) | y <;>
    rcases z with _ | (_ | _) | z <;> simp_all [lt]
  linarith

/-- Among comparable values, not at most is greater. -/
theorem lt_of_not_le {x y : Double} (hx : x ≠ .nan) (hy : y ≠ .nan) (h : y.le x = false) :
    x.lt y = true := by
  rcases x with _ | (_ | _) | x <;> rcases y with _ | (_ | _) | y <;> simp_all [lt, le]
  exact lt_of_le_of_ne h.1 (Ne.symm h.2)

theorem lt_inf_iff {x : Double} : x.lt (.inf false) = true ↔ x ≠ .nan ∧ x ≠ .inf false := by
  rcases x with _ | (_ | _) | x <;> simp [lt]

end Double

/-- Only `+Inf` is written so. -/
theorem writeValue_eq_inf_iff (d : Double) : writeValue d = "+Inf".toList ↔ d = .inf false := by
  constructor
  · intro h
    rcases d with _ | (_ | _) | x
    · exact absurd h (by decide)
    · rfl
    · exact absurd h (by decide)
    · have hmem : 'I' ∈ writeValue (Double.finite x) := h ▸ by decide
      exact absurd (finiteText_numeral hmem) (by unfold IsNumeral; decide)
  · rintro rfl
    rfl

namespace Histogram

theorem run_boundaries (h : Histogram) (ops : List Op) :
    (h.run ops).bucket_boundaries_ = h.bucket_boundaries_ := by
  induction ops generalizing h with
  | nil => rfl
  | cons op ops ih =>
      refine (ih (h.apply op)).trans ?_
      cases op with
      | observe value => rfl
      | observeMultiple increments sum =>
          rw [apply, observeMultiple]
          split <;> rfl
      | reset => rfl

theorem NotNegative.run {h : Histogram} (hh : h.NotNegative) (ops : List Op) :
    (h.run ops).NotNegative := by
  induction ops generalizing h with
  | nil => exact hh
  | cons op ops ih => exact ih (hh.apply op)

/-- The bounds of an accepted vector increase when none of them is NaN. -/
theorem increasing_of_accepted {bounds : List Double} (h : isStrictSorted bounds = true)
    (hnan : ∀ b ∈ bounds, b ≠ .nan) : bounds.Pairwise fun a b => a.lt b = true := by
  have htrans : IsTrans Double fun a b => a.lt b = true := ⟨fun _ _ _ => Double.lt_trans⟩
  apply List.isChain_iff_pairwise.mp
  induction bounds with
  | nil => exact List.isChain_nil
  | cons a bounds ih =>
      cases bounds with
      | nil => exact List.isChain_singleton a
      | cons b bounds =>
          rw [isStrictSorted, Bool.and_eq_true, Bool.not_eq_true'] at h
          rw [List.isChain_cons_cons]
          exact ⟨Double.lt_of_not_le (hnan a (by simp)) (hnan b (by simp)) h.1,
            ih h.2 fun c hc => hnan c (List.mem_cons_of_mem _ hc)⟩

/-- The last bucket counts everything that was counted. -/
theorem collectBuckets_last {bounds : List Double} {i cumulative_count total : ℕ}
    {counters : List (CounterType Double)} {buckets : List ClientMetric.Bucket}
    (h : collectBuckets bounds i cumulative_count counters = some (total, buckets)) :
    ∀ b ∈ buckets.getLast?, b.cumulative_count = total := by
  induction counters generalizing i cumulative_count buckets with
  | nil =>
      obtain ⟨-, rfl⟩ := Prod.mk.injEq .. ▸ Option.some.inj h
      simp
  | cons counter counters ih =>
      simp only [collectBuckets, Option.bind_eq_bind, Option.bind_eq_some_iff, Option.pure_def,
        Option.some.injEq, Prod.mk.injEq] at h
      obtain ⟨count, -, ⟨total', rest⟩, hrest, rfl, rfl⟩ := h
      cases counters with
      | nil =>
          obtain ⟨rfl, rfl⟩ := Prod.mk.injEq .. ▸ Option.some.inj hrest
          simp
      | cons counter' counters =>
          have hrest' := hrest
          simp only [collectBuckets, Option.bind_eq_bind, Option.bind_eq_some_iff, Option.pure_def,
            Option.some.injEq, Prod.mk.injEq] at hrest'
          obtain ⟨count', -, ⟨_, rest'⟩, -, -, rfl⟩ := hrest'
          rw [List.getLast?_cons_cons]
          exact ih hrest

/-- `Collect` returns the buckets of the boundaries, and one for the rest,
which counts everything. -/
theorem collect_buckets {h : Histogram} {collected : ClientMetric}
    (hcollect : h.collect = some collected) :
    ∃ buckets, collected.histogram.bucket =
        buckets ++ [⟨collected.histogram.sample_count, .inf false⟩] ∧
      buckets.map ClientMetric.Bucket.upper_bound = h.bucket_boundaries_ := by
  obtain ⟨-, hbounds⟩ := collect_upper_bounds hcollect
  obtain ⟨buckets, last, hsplit, hfirst, hlast⟩ := List.map_eq_append_iff.mp hbounds
  obtain ⟨b, rfl, hb⟩ := List.map_eq_singleton_iff.mp hlast
  refine ⟨buckets, ?_, hfirst⟩
  unfold collect at hcollect
  obtain ⟨⟨total, all⟩, hall, hfields⟩ := Option.bind_eq_some_iff.mp hcollect
  obtain rfl := Option.some.inj hfields
  dsimp only at hsplit ⊢
  have htotal := collectBuckets_last hall b (by rw [hsplit]; simp)
  rw [hsplit, ← htotal, ← hb]

/-- The samples for the bound `+Inf`, and those for the number of
observations. -/
def infiniteBuckets (family : MetricFamily) (samples : List Sample) : List Sample :=
  samples.filter fun s => s.name = family.name ++ "_bucket".toList ∧
    ⟨"le".toList, "+Inf".toList⟩ ∈ s.labels

def counts (family : MetricFamily) (samples : List Sample) : List Sample :=
  samples.filter fun s => s.name = family.name ++ "_count".toList

/-- What a histogram exposes: increasing bounds, of which the last and no other
is `+Inf`, and one line for it, which says the same as the `_count` line. -/
structure Exposes (collected : ClientMetric) : Prop where
  increasing : (collected.histogram.bucket.map ClientMetric.Bucket.upper_bound).Pairwise
    fun a b => a.lt b = true
  last : ∃ bounds, collected.histogram.bucket.map ClientMetric.Bucket.upper_bound =
    bounds ++ [.inf false] ∧ .inf false ∉ bounds
  written : ∀ (family : MetricFamily) (label : List ClientMetric.Label),
    family.type = .histogram → checkMetricName family.name = true →
    (∀ lp ∈ label, checkLabelName lp.name .histogram = true) →
    ∃ bucket count,
      infiniteBuckets family (readSamples (serializeHistogram family { collected with label })) =
        [bucket] ∧
      counts family (readSamples (serializeHistogram family { collected with label })) = [count] ∧
      bucket.value = count.value

section Written

variable {family : MetricFamily} {metric : ClientMetric}

/-- The sample that is written for a bucket. -/
def bucketSample (family : MetricFamily) (metric : ClientMetric) (b : ClientMetric.Bucket) :
    Sample :=
  sampleOf family metric "_bucket".toList [⟨"le".toList, writeValue b.upper_bound⟩]
    (natText b.cumulative_count)

/-- After a bucket for `+Inf` no other one is added. -/
theorem metricSamples_of_buckets (htype : family.type = .histogram)
    {buckets : List ClientMetric.Bucket} {last : ClientMetric.Bucket}
    (hbucket : metric.histogram.bucket = buckets ++ [last]) (hlast : last.upper_bound = .inf false) :
    metricSamples family metric =
      sampleOf family metric "_count".toList [] (natText metric.histogram.sample_count) ::
        sampleOf family metric "_sum".toList [] (writeValue metric.histogram.sample_sum) ::
          (buckets.map (bucketSample family metric) ++ [bucketSample family metric last]) := by
  have hno : ¬ (metric.histogram.bucket.map ClientMetric.Bucket.upper_bound).getLastD (.inf true) ≠
      .inf false := by
    rw [hbucket, List.map_append, List.map_singleton, List.getLastD_concat, hlast]
    exact not_not_intro rfl
  simp only [metricSamples, htype]
  rw [if_neg hno, hbucket, List.append_nil, List.map_append]
  rfl

/-- The one label of a bucket named `le` is its bound. -/
theorem mem_bucketSample_iff (hlabel : ∀ lp ∈ metric.label, checkLabelName lp.name .histogram = true)
    (b : ClientMetric.Bucket) :
    ⟨"le".toList, "+Inf".toList⟩ ∈ (bucketSample family metric b).labels ↔
      b.upper_bound = .inf false := by
  have hown : (⟨"le".toList, "+Inf".toList⟩ : ClientMetric.Label) ∉ metric.label := fun hmem =>
    absurd (hlabel _ hmem) (by decide)
  rw [bucketSample, sampleOf, List.mem_append, or_iff_right hown, List.mem_singleton,
    ClientMetric.Label.mk.injEq, and_iff_right rfl, eq_comm, writeValue_eq_inf_iff]

/-- A sample with another suffix is no bucket. -/
theorem sampleOf_name_ne {suffix suffix' : Str} (h : suffix ≠ suffix')
    (extra : List ClientMetric.Label) (value : Str) :
    (sampleOf family metric suffix extra value).name ≠ family.name ++ suffix' :=
  fun heq => h (List.append_cancel_left heq)

/-- Among the bounds of the first buckets there is no `+Inf`. -/
theorem filter_bucketSamples (hlabel : ∀ lp ∈ metric.label, checkLabelName lp.name .histogram = true)
    {buckets : List ClientMetric.Bucket}
    (hfinite : .inf false ∉ buckets.map ClientMetric.Bucket.upper_bound) :
    infiniteBuckets family (buckets.map (bucketSample family metric)) = [] := by
  apply List.filter_eq_nil_iff.mpr
  intro s hs
  obtain ⟨b, hb, rfl⟩ := List.mem_map.mp hs
  have hne : b.upper_bound ≠ .inf false := fun heq => hfinite (heq ▸ List.mem_map_of_mem hb)
  exact fun h => hne ((mem_bucketSample_iff hlabel b).mp (of_decide_eq_true h).2)

/-- Of the samples of a histogram one is for the bound `+Inf`. -/
theorem infiniteBuckets_eq (htype : family.type = .histogram)
    (hlabel : ∀ lp ∈ metric.label, checkLabelName lp.name .histogram = true)
    {buckets : List ClientMetric.Bucket} {last : ClientMetric.Bucket}
    (hbucket : metric.histogram.bucket = buckets ++ [last]) (hlast : last.upper_bound = .inf false)
    (hfinite : .inf false ∉ buckets.map ClientMetric.Bucket.upper_bound) :
    infiniteBuckets family (metricSamples family metric) = [bucketSample family metric last] := by
  have hcount : ∀ value, (sampleOf family metric "_count".toList [] value).name ≠
      family.name ++ "_bucket".toList := sampleOf_name_ne (by decide) []
  have hsum : ∀ value, (sampleOf family metric "_sum".toList [] value).name ≠
      family.name ++ "_bucket".toList := sampleOf_name_ne (by decide) []
  have hothers := @filter_bucketSamples family metric hlabel buckets hfinite
  have hinfinite := (@mem_bucketSample_iff family metric hlabel last).mpr hlast
  unfold infiniteBuckets at hothers ⊢
  rw [metricSamples_of_buckets htype hbucket hlast,
    List.filter_cons_of_neg fun h => hcount _ (of_decide_eq_true h).1,
    List.filter_cons_of_neg fun h => hsum _ (of_decide_eq_true h).1, List.filter_append, hothers,
    List.nil_append, List.filter_cons_of_pos (by exact decide_eq_true ⟨rfl, hinfinite⟩),
    List.filter_nil]

/-- One is for the number of observations. -/
theorem counts_eq (htype : family.type = .histogram)
    {buckets : List ClientMetric.Bucket} {last : ClientMetric.Bucket}
    (hbucket : metric.histogram.bucket = buckets ++ [last])
    (hlast : last.upper_bound = .inf false) :
    counts family (metricSamples family metric) =
      [sampleOf family metric "_count".toList [] (natText metric.histogram.sample_count)] := by
  have hsum : ∀ value, (sampleOf family metric "_sum".toList [] value).name ≠
      family.name ++ "_count".toList := sampleOf_name_ne (by decide) []
  have hbuckets : ((buckets ++ [last]).map (bucketSample family metric)).filter
      (fun s => s.name = family.name ++ "_count".toList) = [] := by
    apply List.filter_eq_nil_iff.mpr
    intro s hs
    obtain ⟨b, -, rfl⟩ := List.mem_map.mp hs
    exact fun h => sampleOf_name_ne (by decide) _ _ (of_decide_eq_true h)
  rw [List.map_append, List.map_singleton] at hbuckets
  rw [counts, metricSamples_of_buckets htype hbucket hlast,
    List.filter_cons_of_pos (by exact decide_eq_true rfl),
    List.filter_cons_of_neg (by exact fun h => hsum _ (of_decide_eq_true h)), hbuckets]

/-- Buckets whose last bound alone is `+Inf` are written with one line for
it. -/
theorem written_of_buckets (htype : family.type = .histogram)
    (hname : checkMetricName family.name = true)
    (hlabel : ∀ lp ∈ metric.label, checkLabelName lp.name .histogram = true)
    {buckets : List ClientMetric.Bucket}
    (hbucket : metric.histogram.bucket = buckets ++ [⟨metric.histogram.sample_count, .inf false⟩])
    (hfinite : .inf false ∉ buckets.map ClientMetric.Bucket.upper_bound) :
    ∃ bucket count,
      infiniteBuckets family (readSamples (serializeHistogram family metric)) = [bucket] ∧
      counts family (readSamples (serializeHistogram family metric)) = [count] ∧
      bucket.value = count.value := by
  have hread : readSamples (serializeHistogram family metric) = metricSamples family metric := by
    rw [← readSamples_serializeMetric hname fun lp hlp => ⟨.histogram, hlabel lp hlp⟩,
      serializeMetric, htype]
  rw [hread]
  exact ⟨_, _, infiniteBuckets_eq htype hlabel hbucket rfl hfinite, counts_eq htype hbucket rfl, rfl⟩

end Written

theorem counts_new {buckets : List Double} {h : Histogram} (hnew : new buckets = .ok h) :
    h.bucket_boundaries_ = buckets ∧ ∀ c ∈ h.bucket_counts_, ∃ x, c.value = .finite x := by
  unfold new at hnew
  split at hnew
  · cases hnew
    refine ⟨rfl, fun c hc => ?_⟩
    rw [List.eq_of_mem_replicate hc]
    exact ⟨0, rfl⟩
  · cases hnew

/-- Without NaN and `+Inf` among the boundaries, every collected histogram has
well-formed buckets. -/
theorem exposes_of_collect {h : Histogram} {collected : ClientMetric}
    (hbounds : ∀ b ∈ h.bucket_boundaries_, b ≠ .nan ∧ b ≠ .inf false)
    (hcollect : h.collect = some collected) : Exposes collected := by
  obtain ⟨-, hupper⟩ := collect_upper_bounds hcollect
  have hlast : .inf false ∉ h.bucket_boundaries_ := fun hmem => (hbounds _ hmem).2 rfl
  refine ⟨?_, ⟨_, hupper, hlast⟩, fun family label htype hname hlabel => ?_⟩
  · rw [hupper, List.pairwise_append]
    refine ⟨increasing_of_accepted h.sorted fun b hb => (hbounds b hb).1,
      List.pairwise_singleton _ _, fun b hb c hc => ?_⟩
    obtain rfl := List.mem_singleton.mp hc
    exact Double.lt_inf_iff.mpr (hbounds b hb)
  · obtain ⟨buckets, hbuckets, hboundaries⟩ := collect_buckets hcollect
    exact @written_of_buckets family { collected with label } htype hname hlabel buckets hbuckets
      (hboundaries ▸ hlast)

/-- Every histogram built from the boundaries, after every run of observations
and resets, is collected unless a count is infinite or NaN, and has well-formed
buckets: exactly when no boundary is NaN or `+Inf`. -/
theorem exposes_iff {buckets : List Double} {h : Histogram} (hnew : new buckets = .ok h) :
    (∀ ops : List Op,
      ((∀ c ∈ (h.run ops).bucket_counts_, ∃ x, c.value = .finite x) →
        ∃ collected, (h.run ops).collect = some collected) ∧
      ∀ collected, (h.run ops).collect = some collected → Exposes collected) ↔
    ∀ b ∈ buckets, b ≠ .nan ∧ b ≠ .inf false := by
  obtain ⟨hboundaries, hcounts⟩ := counts_new hnew
  have hnegative := notNegative_new hnew
  constructor
  · intro hexposes b hb
    obtain ⟨hdefined, hall⟩ := hexposes []
    obtain ⟨collected, hcollect⟩ := hdefined hcounts
    obtain ⟨-, hupper⟩ := collect_upper_bounds hcollect
    have hincreasing := (hall collected hcollect).increasing
    rw [hupper, List.pairwise_append] at hincreasing
    refine Double.lt_inf_iff.mp (hincreasing.2.2 b ?_ _ (List.mem_singleton_self _))
    change b ∈ h.bucket_boundaries_
    exact hboundaries ▸ hb
  · intro hbounds ops
    refine ⟨(hnegative.run ops).collect_isSome_iff.mpr, fun collected => exposes_of_collect ?_⟩
    rw [run_boundaries, hboundaries]
    exact hbounds

theorem exposes_iff_two_bounds :
    ∃ h, new [.finite 1, .finite 2] = .ok h ∧ ∀ ops collected,
      (h.run ops).collect = some collected → Exposes collected := by
  have hsorted : isStrictSorted [.finite 1, .finite 2] = true := by decide +kernel
  have hnew : new [.finite 1, .finite 2] =
      .ok ⟨_, _, GaugeType.new (.finite 0), hsorted, List.length_replicate⟩ := dif_pos hsorted
  exact ⟨_, hnew, fun ops => ((exposes_iff hnew).mpr (by decide) ops).2⟩

/-- Accepted boundaries that do not increase up to `+Inf` are exposed. -/
theorem not_exposes_of_bounds {buckets : List Double} (hsorted : isStrictSorted buckets = true)
    (hbounds : ¬ (buckets ++ [Double.inf false]).Pairwise (fun a b : Double => a.lt b = true)) :
    ∃ h collected, new buckets = .ok h ∧ h.collect = some collected ∧ ¬ Exposes collected := by
  have hnew : new buckets =
      .ok ⟨buckets, _, GaugeType.new (.finite 0), hsorted, List.length_replicate⟩ := dif_pos hsorted
  obtain ⟨-, hcounts⟩ := counts_new hnew
  obtain ⟨collected, hcollect⟩ := (notNegative_new hnew).collect_isSome_iff.mpr hcounts
  refine ⟨_, collected, hnew, hcollect, fun hexposes => hbounds ?_⟩
  have hincreasing := hexposes.increasing
  rwa [(collect_upper_bounds hcollect).2] at hincreasing

/-- A boundary `+Inf` is followed by a second one, and next to NaN no order is
checked. -/
theorem not_exposes :
    (∃ h collected, new [.inf false] = .ok h ∧ h.collect = some collected ∧
      ¬ Exposes collected) ∧
    ∃ h collected, new [.finite 1, .nan, .finite 0] = .ok h ∧ h.collect = some collected ∧
      ¬ Exposes collected :=
  ⟨not_exposes_of_bounds (by decide) (by decide),
    not_exposes_of_bounds (by decide +kernel) (by decide +kernel)⟩

end Histogram

end Promcore
