import Promcore.Metrics.Collecting
import Promcore.Text.ScrapeText
import Promcore.Text.Series

/-!
# The exposition of a registry

Which time series the text of a registry contains, and when none is contained
twice.
-/

namespace Promcore

open TextSerializer

theorem Summary.collectQuantiles_quantiles {quantiles : List Quantile} {clock : ℕ → ℤ}
    {values values' : TimeWindowQuantiles (CKMSQuantiles ℚ)} {entries : List ClientMetric.Quantile}
    (h : collectQuantiles quantiles clock values = some (values', entries)) :
    entries.map ClientMetric.Quantile.quantile = quantiles.map fun q => .finite q.quantile := by
  induction quantiles generalizing clock values values' entries with
  | nil =>
      obtain ⟨-, rfl⟩ := Prod.mk.injEq .. ▸ Option.some.inj h
      rfl
  | cons q quantiles ih =>
      simp only [collectQuantiles, Option.bind_eq_bind, Option.bind_eq_some_iff, Option.pure_def,
        Option.some.injEq, Prod.mk.injEq] at h
      obtain ⟨⟨_, value⟩, -, ⟨_, rest⟩, hrest, -, rfl⟩ := h
      rw [List.map_cons, List.map_cons, ih hrest]

/-- What tells one sample of a metric from another. -/
def TextSerializer.Sample.head (s : Sample) : Str × List ClientMetric.Label := (s.name, s.labels)

theorem histogramSamples_head {family : MetricFamily} (htype : family.type = .histogram)
    {metric : ClientMetric} {bounds : List Double}
    (hbounds : metric.histogram.bucket.map ClientMetric.Bucket.upper_bound =
      bounds ++ [.inf false]) (label : List ClientMetric.Label) :
    (metricSamples family { metric with label }).map Sample.head =
      ["_count".toList, "_sum".toList].map (fun suffix => (family.name ++ suffix, label)) ++
        ((bounds ++ [Double.inf false]).map writeValue).map fun token =>
          (family.name ++ "_bucket".toList, label ++ [⟨"le".toList, token⟩]) := by
  have hlast : (metric.histogram.bucket.map ClientMetric.Bucket.upper_bound).getLastD
      (.inf true) = .inf false := by
    rw [hbounds]
    simp
  simp only [metricSamples, htype, hlast]
  rw [← hbounds]
  simp [Sample.head, sampleOf, Function.comp_def]

theorem summarySamples_head {family : MetricFamily} (htype : family.type = .summary)
    {metric : ClientMetric} {quantiles : List Double}
    (hquantiles : metric.summary.quantile.map ClientMetric.Quantile.quantile = quantiles)
    (label : List ClientMetric.Label) :
    (metricSamples family { metric with label }).map Sample.head =
      ["_count".toList, "_sum".toList].map (fun suffix => (family.name ++ suffix, label)) ++
        (quantiles.map writeValue).map fun token =>
          (family.name, label ++ [⟨"quantile".toList, token⟩]) := by
  simp only [metricSamples, htype]
  rw [← hquantiles]
  simp [Sample.head, sampleOf, Function.comp_def]

/-- Collecting a metric and writing it gives its samples, by name and labels. -/
theorem metricSamples_collect {T : MetricKind} {metric metric' : T.Object} {clock : ℕ → ℤ}
    {collected : ClientMetric} (h : T.collect metric clock = some (metric', collected))
    {family : MetricFamily} (htype : family.type = T.metricType)
    (label : List ClientMetric.Label) :
    (metricSamples family { collected with label := collected.label ++ label }).map Sample.head =
      (T.series metric).map fun s => (family.name ++ s.1, label ++ s.2) := by
  cases T with
  | counterDouble | counterInt | gaugeDouble | gaugeInt | info =>
      obtain ⟨-, rfl⟩ := Prod.mk.injEq .. ▸ Option.some.inj h
      simp only [metricSamples, htype]
      rfl
  | histogram =>
      obtain ⟨_, hcollect, heq⟩ := Option.map_eq_some_iff.mp h
      obtain ⟨-, rfl⟩ := Prod.mk.injEq .. ▸ heq
      obtain ⟨hlabel, hbounds⟩ := Histogram.collect_upper_bounds hcollect
      rw [hlabel, List.nil_append, histogramSamples_head htype hbounds,
        MetricKind.map_series_histogram]
      rfl
  | summary =>
      obtain ⟨⟨_, entries⟩, hentries, heq⟩ := Option.bind_eq_some_iff.mp h
      obtain ⟨-, rfl⟩ := Prod.mk.injEq .. ▸ Option.some.inj heq
      have hquantiles := Summary.collectQuantiles_quantiles hentries
      have htokens : MetricKind.tokens .summary metric =
          ((Summary.quantiles_ metric).map fun q => Double.finite q.quantile).map writeValue := by
        rw [List.map_map]
        rfl
      rw [List.nil_append, summarySamples_head htype hquantiles, MetricKind.map_series_summary,
        List.append_nil, htokens]

theorem Family.collectMetric_identities {T : MetricKind} {f : Family T} {entry entry' : Entry T}
    {clock : ℕ → ℤ} {metric : ClientMetric}
    (h : f.collectMetric entry clock = some (entry', metric)) {family : MetricFamily}
    (hname : family.name = f.name_) (htype : family.type = T.metricType) :
    (metricSamples family metric).map Sample.identity = f.entryIdentities entry := by
  obtain ⟨⟨object, collected⟩, hcollect, heq⟩ := Option.bind_eq_some_iff.mp h
  obtain ⟨-, rfl⟩ := Prod.mk.injEq .. ▸ Option.some.inj heq
  have hhead := metricSamples_collect hcollect htype (f.label entry.labels)
  have hidentity : Sample.identity = (fun p => (p.1, p.2.toFinset)) ∘ Sample.head := rfl
  rw [hidentity, ← List.map_map]
  change List.map _ (List.map _ (metricSamples family
    { collected with label := collected.label ++ f.label entry.labels })) = _
  rw [hhead, List.map_map, hname]
  rfl

/-- What a family exposes is computed from its state. -/
theorem Family.collect_identities {T : MetricKind} {f f' : Family T} {clock : ℕ → ℕ → ℤ}
    {results : List MetricFamily} (h : f.collect clock = some (f', results)) :
    (results.flatMap samples).map Sample.identity = f.identities := by
  obtain ⟨collected, -, hcollected, rfl⟩ := collect_spec h
  split
  · next hempty =>
      rw [identities, List.isEmpty_iff.mp hempty]
      rfl
  · generalize hfamily : MetricFamily.mk f.name_ f.help_ T.metricType
      (collected.map Prod.snd) = family
    have hkeys : (collected.map fun result =>
        (metricSamples family result.2).map Sample.identity) = f.metrics_.map f.entryIdentities := by
      apply Simulation.map_eq_of_mapM _ hcollected
      intro entry result hresult
      exact collectMetric_identities hresult (hfamily ▸ rfl) (hfamily ▸ rfl)
    have hmetric : family.metric = collected.map Prod.snd := hfamily ▸ rfl
    calc
      ([family].flatMap samples).map Sample.identity
        = (collected.map fun result =>
            (metricSamples family result.2).map Sample.identity).flatten := by
          rw [List.flatMap_singleton, samples, hmetric, List.flatMap_map, List.map_flatMap,
            List.flatMap_def]
      _ = f.identities := by rw [hkeys, identities, List.flatMap_def]

namespace Registry

variable {mode : InsertBehavior} {r r' : Registry} {clock : ℕ → ℕ → ℕ → ℤ}
  {results : List MetricFamily}

theorem collectAll_identities {T : MetricKind} {families families' : List (Family T)}
    (h : collectAll families clock = some (families', results)) :
    (results.flatMap samples).map Sample.identity = families.flatMap Family.identities := by
  simp only [collectAll, Option.bind_eq_bind, Option.bind_eq_some_iff, Option.pure_def,
    Option.some.injEq, Prod.mk.injEq] at h
  obtain ⟨collected, hcollected, -, rfl⟩ := h
  have hkeys : (collected.map fun result => (result.2.flatMap samples).map Sample.identity) =
      families.map Family.identities := by
    apply Simulation.map_eq_of_mapM _ hcollected
    intro f result hresult
    exact Family.collect_identities hresult
  calc
    ((collected.map Prod.snd).flatten.flatMap samples).map Sample.identity
      = (collected.map fun result => (result.2.flatMap samples).map Sample.identity).flatten := by
        rw [← List.flatMap_def, List.flatMap_assoc, List.map_flatMap, List.flatMap_def]
    _ = families.flatMap Family.identities := by rw [hkeys, List.flatMap_def]

/-- The time series of a registry, vector by vector. -/
def identities (r : Registry) : List Identity :=
  kinds.flatMap fun T => (r.getFamilies T).flatMap Family.identities

theorem collect_identities (h : r.collect clock = some (r', results)) :
    (results.flatMap samples).map Sample.identity = r.identities := by
  obtain ⟨-, collected, rfl, hall⟩ := collect_spec h
  rw [List.flatMap_assoc, List.map_flatMap, identities]
  apply List.flatMap_congr
  intro T _
  exact collectAll_identities (hall T)

end Registry

end Promcore
