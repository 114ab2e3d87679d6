import Promcore.Metrics.Collecting
import Promcore.Registry.LabelSets

/-!
# What a scrape of the registry contains

One report for each family with metrics, and in it one metric for each label
set. The scrape is complete exactly when the reads of the held summaries end
and the counts of the held histograms are finite.
-/

namespace Promcore

open TimeWindowQuantiles

namespace MetricKind

variable {T : MetricKind}

/-- What every metric keeps from its construction on. -/
def Sound : (T : MetricKind) → T.Object → Prop
  | .histogram, metric => Promcore.Histogram.NotNegative metric
  | .summary, metric =>
      Serves (Promcore.Summary.quantile_values_ metric) (Promcore.Summary.quantiles_ metric)
  | _, _ => True

/-- The reads of a summary end, and the counts of a histogram are finite. -/
def Collectable : (T : MetricKind) → T.Object → (ℕ → ℤ) → Prop
  | .histogram, metric, _ =>
      ∀ c ∈ Promcore.Histogram.bucket_counts_ metric, ∃ x, c.value = .finite x
  | .summary, metric, clock =>
      1 ≤ (Promcore.Summary.quantile_values_ metric).rotation_interval_ ∨
        Promcore.Summary.NoRotation metric clock
  | _, _, _ => True

theorem collect_isSome_iff {metric : T.Object} (h : T.Sound metric) (clock : ℕ → ℤ) :
    (∃ result, T.collect metric clock = some result) ↔ T.Collectable metric clock := by
  cases T with
  | counterDouble | counterInt | gaugeDouble | gaugeInt | info =>
      exact iff_of_true ⟨_, rfl⟩ trivial
  | histogram =>
      refine Iff.trans ?_ (Promcore.Histogram.NotNegative.collect_isSome_iff h)
      simp only [collect, Option.map_eq_some_iff]
      exact Simulation.exists_and_iff_of_total fun _ => ⟨_, rfl⟩
  | summary => exact Promcore.Summary.collect_isSome_iff h clock

theorem sound_make {args : T.Args} {metric : T.Object} (h : T.make args = some (.ok metric)) :
    T.Sound metric := by
  cases T with
  | counterDouble | counterInt | gaugeDouble | gaugeInt | info => trivial
  | histogram => exact Promcore.Histogram.notNegative_new (Option.some.inj h)
  | summary =>
      obtain ⟨quantiles, max_age, age_buckets, now⟩ := args
      rw [make] at h
      split at h
      · cases Option.some.inj h
      · obtain ⟨s, hnew, heq⟩ := Option.map_eq_some_iff.mp h
        obtain rfl := Except.ok.inj heq
        obtain ⟨rfl, hserves⟩ := Promcore.Summary.new_serves hnew
        exact hserves

theorem sound_apply {metric metric' : T.Object} {call : T.Call} (h : T.Sound metric)
    (happly : T.apply metric call = some metric') : T.Sound metric' := by
  cases T with
  | counterDouble | counterInt | gaugeDouble | gaugeInt | info => trivial
  | histogram =>
      obtain rfl := Option.some.inj happly
      exact Promcore.Histogram.NotNegative.apply h call
  | summary =>
      obtain ⟨now, value⟩ := call
      have hop : Promcore.Summary.apply metric (.observe now value) = some metric' := happly
      obtain ⟨hquantiles, hserves⟩ := Promcore.Summary.apply_serves h hop
      rwa [← hquantiles] at hserves

theorem sound_collect {metric metric' : T.Object} {clock : ℕ → ℤ} {collected : ClientMetric}
    (h : T.Sound metric) (hcollect : T.collect metric clock = some (metric', collected)) :
    T.Sound metric' := by
  cases T with
  | counterDouble | counterInt | gaugeDouble | gaugeInt | info => trivial
  | histogram =>
      obtain ⟨_, -, heq⟩ := Option.map_eq_some_iff.mp hcollect
      obtain ⟨rfl, -⟩ := Prod.mk.injEq .. ▸ heq
      exact h
  | summary =>
      have hop : Promcore.Summary.apply metric (.collect clock) = some metric' := by
        change Promcore.Summary.collect metric clock = _ at hcollect
        change (Promcore.Summary.collect metric clock).bind (fun result => some result.1) = _
        rw [hcollect]
        rfl
      obtain ⟨hquantiles, hserves⟩ := Promcore.Summary.apply_serves h hop
      rwa [← hquantiles] at hserves

/-- A metric reports no label of its own. -/
theorem collect_label {metric metric' : T.Object} {clock : ℕ → ℤ} {collected : ClientMetric}
    (hcollect : T.collect metric clock = some (metric', collected)) : collected.label = [] := by
  cases T with
  | counterDouble | counterInt | gaugeDouble | gaugeInt | info =>
      obtain ⟨-, rfl⟩ := Prod.mk.injEq .. ▸ Option.some.inj hcollect
      rfl
  | histogram =>
      obtain ⟨_, hmade, heq⟩ := Option.map_eq_some_iff.mp hcollect
      obtain ⟨-, rfl⟩ := Prod.mk.injEq .. ▸ heq
      unfold Promcore.Histogram.collect at hmade
      obtain ⟨_, -, hfields⟩ := Option.bind_eq_some_iff.mp hmade
      rw [← Option.some.inj hfields]
  | summary =>
      obtain ⟨_, -, heq⟩ := Option.bind_eq_some_iff.mp hcollect
      obtain ⟨-, rfl⟩ := Prod.mk.injEq .. ▸ Option.some.inj heq
      rfl

end MetricKind

namespace Family

variable {T : MetricKind} {f f' : Family T}

/-- Every metric of the family is sound. -/
def MetricsSound (f : Family T) : Prop := ∀ entry ∈ f.metrics_, T.Sound entry.object

theorem MetricsSound.step (h : f.MetricsSound) (hstep : FamilyStep f f') : f'.MetricsSound := by
  cases hstep with
  | @add labels address args result _ hadd =>
      rw [Family.add, Option.map_eq_some_iff] at hadd
      obtain ⟨made, hmade, hadd⟩ := hadd
      cases made with
      | error exception =>
          cases hadd
          exact h
      | ok object =>
          dsimp only at hadd
          rcases f.addObject_cases labels address object with ⟨entry, -, hobject⟩ |
            ⟨-, -, exception, hobject⟩ | ⟨-, -, hobject⟩ <;> cases hadd.symm.trans hobject
          · exact h
          · exact h
          · intro entry hentry
            rcases List.mem_append.mp hentry with hentry | hentry
            · exact h entry hentry
            · rw [List.mem_singleton.mp hentry]
              exact MetricKind.sound_make hmade
  | remove metric => exact fun entry hentry => h entry (List.mem_of_mem_eraseP hentry)
  | update hupdate =>
      obtain ⟨metrics, rfl, hmetrics⟩ := update_spec hupdate
      intro entry' hentry'
      obtain ⟨entry, hentry, hcall⟩ :=
        Simulation.exists_of_mem_forall₂ (Simulation.forall₂_of_mapM hmetrics) hentry'
      split at hcall
      · obtain ⟨object, happly, hcall⟩ := Option.bind_eq_some_iff.mp hcall
        rw [← Option.some.inj hcall]
        exact MetricKind.sound_apply (h entry hentry) happly
      · rw [← Option.some.inj hcall]
        exact h entry hentry
  | collect hcollect =>
      obtain ⟨collected, rfl, hcollected, -⟩ := collect_spec hcollect
      intro entry' hentry'
      obtain ⟨result, hresult, rfl⟩ := List.mem_map.mp hentry'
      obtain ⟨entry, hentry, hmetric⟩ :=
        Simulation.exists_of_mem_forall₂ (Simulation.forall₂_of_mapM hcollected) hresult
      obtain ⟨⟨object, metric⟩, hobject, hmetric⟩ := Option.bind_eq_some_iff.mp hmetric
      rw [← Option.some.inj hmetric]
      exact MetricKind.sound_collect (h entry hentry) hobject

theorem collectMetric_isSome_iff (entry : Entry T) (clock : ℕ → ℤ) :
    (∃ result, f.collectMetric entry clock = some result) ↔
      ∃ result, T.collect entry.object clock = some result := by
  simp only [collectMetric, Option.bind_eq_bind, Option.bind_eq_some_iff]
  exact Simulation.exists_and_iff_of_total fun _ => ⟨_, rfl⟩

/-- A family can be collected when each of its metrics can. -/
theorem MetricsSound.collect_isSome_iff (h : f.MetricsSound) (clock : ℕ → ℕ → ℤ) :
    (∃ result, f.collect clock = some result) ↔
      ∀ entry ∈ f.metrics_, T.Collectable entry.object (clock entry.address) := by
  have hmetrics : (∃ collected, f.metrics_.mapM (fun entry =>
      f.collectMetric entry (clock entry.address)) = some collected) ↔
      ∀ entry ∈ f.metrics_, T.Collectable entry.object (clock entry.address) := by
    rw [Simulation.exists_mapM_iff]
    refine forall₂_congr fun entry hentry => ?_
    rw [collectMetric_isSome_iff, MetricKind.collect_isSome_iff (h entry hentry)]
  rw [← hmetrics]
  unfold collect
  split
  · next hempty =>
      rw [List.isEmpty_iff.mp hempty]
      exact iff_of_true ⟨_, rfl⟩ ⟨[], rfl⟩
  · simp only [Option.bind_eq_bind, Option.bind_eq_some_iff]
    exact Simulation.exists_and_iff_of_total fun _ => ⟨_, rfl⟩

end Family

/-- What a report says of its family: its name, help and type, and one metric
for each label set, whose labels are the constant ones and its own. -/
structure Reports (held : Σ T, Family T) (result : MetricFamily) : Prop where
  name : result.name = held.2.name_
  help : result.help = held.2.help_
  type : result.type = held.1.metricType
  metrics : result.metric.map ClientMetric.label = held.2.labelSets.map held.2.label
  label_sets : held.2.labelSets.Nodup
  label_lists : (result.metric.map ClientMetric.label).Nodup
  label_names : ∀ metric ∈ result.metric, (metric.label.map ClientMetric.Label.name).Nodup
  accepted : ∀ metric ∈ result.metric, ∀ label ∈ metric.label,
    checkLabelName label.name held.1.metricType = true
  not_reserved : ∀ metric ∈ result.metric, ∀ label ∈ metric.label,
    ¬ (held.1.metricType = .histogram ∧ label.name = "le".toList) ∧
      ¬ (held.1.metricType = .summary ∧ label.name = "quantile".toList)

namespace Family

variable {T : MetricKind} {f f' : Family T} {labels labels' : Labels}

theorem label_names (f : Family T) (labels : Labels) :
    (f.label labels).map ClientMetric.Label.name = f.constant_labels_.names ++ labels.names := by
  simp [label, Labels.names, Function.comp_def]

theorem label_names_nodup (h : f.Accepts labels) :
    ((f.label labels).map ClientMetric.Label.name).Nodup := by
  rw [label_names, List.nodup_append']
  exact ⟨f.constant_labels_.names_nodup, labels.names_nodup,
    fun name hconstant hown => (h name hown).2 hconstant⟩

theorem label_injective (f : Family T) : Function.Injective f.label := by
  intro labels labels' h
  have hpair : Function.Injective fun lp : Str × Str => (⟨lp.1, lp.2⟩ : ClientMetric.Label) := by
    intro lp lp' heq
    exact Prod.ext (congrArg ClientMetric.Label.name heq) (congrArg ClientMetric.Label.value heq)
  have hpairs := List.append_cancel_left (hpair.list_map h)
  cases labels
  cases labels'
  cases hpairs
  rfl

/-- An accepted label is not one that the serializer adds. -/
theorem not_reserved_of_accepted {name : Str} {type : MetricType}
    (h : checkLabelName name type = true) :
    ¬ (type = .histogram ∧ name = "le".toList) ∧
      ¬ (type = .summary ∧ name = "quantile".toList) := by
  constructor
  · rintro ⟨rfl, rfl⟩
    revert h
    decide
  · rintro ⟨rfl, rfl⟩
    revert h
    decide

theorem collectMetric_label {entry : Entry T} {clock : ℕ → ℤ} {result : Entry T × ClientMetric}
    (h : f.collectMetric entry clock = some result) : result.2.label = f.label entry.labels := by
  obtain ⟨⟨object, metric⟩, hobject, hresult⟩ := Option.bind_eq_some_iff.mp h
  have hlabel : metric.label = [] := MetricKind.collect_label hobject
  rw [← Option.some.inj hresult, hlabel]
  rfl

/-- Each metric is reported under the labels it is stored under. -/
theorem collected_labels {clock : ℕ → ℕ → ℤ} {collected : List (Entry T × ClientMetric)}
    (h : f.metrics_.mapM (fun entry => f.collectMetric entry (clock entry.address)) =
      some collected) :
    (collected.map Prod.snd).map ClientMetric.label = f.labelSets.map f.label := by
  rw [List.map_map, labelSets, List.map_map]
  apply Simulation.map_eq_of_mapM _ h
  exact fun entry result hresult => collectMetric_label hresult

/-- Metrics under the labels they are stored under make a report. -/
theorem reports_of_labels (hsound : f.LabelsSound) {metrics : List ClientMetric}
    (hmetrics : metrics.map ClientMetric.label = f.labelSets.map f.label) :
    Reports ⟨T, f⟩
      { name := f.name_, help := f.help_, type := T.metricType, metric := metrics } := by
  have hlabel : ∀ metric ∈ metrics, ∃ labels, f.Accepts labels ∧
      metric.label = f.label labels := by
    intro metric hmetric
    have hmem := List.mem_map_of_mem (f := ClientMetric.label) hmetric
    rw [hmetrics, List.mem_map] at hmem
    obtain ⟨labels, hlabels, heq⟩ := hmem
    exact ⟨labels, hsound.accepted labels hlabels, heq.symm⟩
  have haccepted : ∀ metric ∈ metrics, ∀ label ∈ metric.label,
      checkLabelName label.name T.metricType = true := by
    intro metric hmetric
    obtain ⟨labels, haccepts, heq⟩ := hlabel metric hmetric
    rw [heq]
    exact label_accepted haccepts
  refine ⟨rfl, rfl, rfl, hmetrics, hsound.distinct, ?_, ?_, haccepted, ?_⟩
  · exact hmetrics ▸ hsound.distinct.map f.label_injective
  · intro metric hmetric
    obtain ⟨labels, haccepts, heq⟩ := hlabel metric hmetric
    rw [heq]
    exact label_names_nodup haccepts
  · exact fun metric hmetric label hmem => not_reserved_of_accepted (haccepted metric hmetric label hmem)

/-- A family with metrics is reported once, and one without is not. -/
theorem collect_reports (hsound : f.LabelsSound) {clock : ℕ → ℕ → ℤ} {results : List MetricFamily}
    (hcollect : f.collect clock = some (f', results)) :
    List.Forall₂ Reports
      ([(⟨T, f⟩ : Σ T, Family T)].filter fun held => !held.2.metrics_.isEmpty) results := by
  obtain ⟨collected, -, hcollected, rfl⟩ := collect_spec hcollect
  by_cases hempty : f.metrics_.isEmpty = true
  · rw [if_pos hempty, List.filter_cons_of_neg (by simpa using hempty)]
    exact List.Forall₂.nil
  · rw [if_neg hempty, List.filter_cons_of_pos (by simpa using hempty)]
    exact List.Forall₂.cons (reports_of_labels hsound (collected_labels hcollected)) List.Forall₂.nil

end Family

namespace Registry

/-- The families held, vector by vector. -/
def families (r : Registry) : List (Σ T, Family T) :=
  kinds.flatMap fun T => (r.getFamilies T).map (Sigma.mk T)

theorem mem_families_iff {r : Registry} {T : MetricKind} {f : Family T} :
    (⟨T, f⟩ : Σ T, Family T) ∈ r.families ↔ f ∈ r.getFamilies T := by
  have hT : T ∈ kinds := by cases T <;> decide
  rw [families, List.mem_flatMap]
  constructor
  · rintro ⟨T', -, hf⟩
    obtain ⟨f', hf', heq⟩ := List.mem_map.mp hf
    cases heq
    exact hf'
  · exact fun hf => ⟨T, hT, List.mem_map_of_mem hf⟩

theorem families_forall₂ {r r' : Registry} {P : (Σ T, Family T) → (Σ T, Family T) → Prop}
    (h : ∀ T, List.Forall₂ (fun f f' => P ⟨T, f⟩ ⟨T, f'⟩) (r.getFamilies T) (r'.getFamilies T)) :
    List.Forall₂ P r.families r'.families := by
  rw [families, families]
  induction kinds with
  | nil => exact List.Forall₂.nil
  | cons T kinds ih =>
      refine List.rel_append ?_ ih
      rw [List.forall₂_map_left_iff, List.forall₂_map_right_iff]
      exact h T

/-- One report for each family that has metrics, under different names. -/
structure IsScrape (r : Registry) (results : List MetricFamily) : Prop where
  reports : List.Forall₂ Reports (r.families.filter fun held => !held.2.metrics_.isEmpty) results
  names : (results.map MetricFamily.name).Nodup

variable {mode : InsertBehavior} {r r' : Registry} {clock : ℕ → ℕ → ℕ → ℤ}
  {results : List MetricFamily}

/-- What holds of each family and what is reported of it holds of all families
with metrics and all reports, place by place. -/
theorem collect_forall₂ {P : (Σ T, Family T) → MetricFamily → Prop}
    (hcollect : r.collect clock = some (r', results))
    (h : ∀ T, ∀ f ∈ r.getFamilies T, ∀ f' results,
      f.collect (clock f.address) = some (f', results) → List.Forall₂ P
        ([(⟨T, f⟩ : Σ T, Family T)].filter fun held => !held.2.metrics_.isEmpty) results) :
    List.Forall₂ P (r.families.filter fun held => !held.2.metrics_.isEmpty) results := by
  have hvector {T : MetricKind} {families families' : List (Family T)}
      {results : List MetricFamily} (hfamilies : families ⊆ r.getFamilies T)
      (hall : collectAll families clock = some (families', results)) : List.Forall₂ P
        ((families.map (Sigma.mk T)).filter fun held => !held.2.metrics_.isEmpty) results := by
    simp only [collectAll, Option.bind_eq_bind, Option.bind_eq_some_iff, Option.pure_def,
      Option.some.injEq, Prod.mk.injEq] at hall
    obtain ⟨collected, hcollected, -, rfl⟩ := hall
    have hall := Simulation.forall₂_of_mapM hcollected
    clear hcollected
    induction hall with
    | nil => exact List.Forall₂.nil
    | @cons f result families collected hf _ ih =>
        rw [List.map_cons, ← List.singleton_append, List.filter_append]
        exact List.rel_append (h T f (hfamilies List.mem_cons_self) _ _ hf)
          (ih fun f hf => hfamilies (List.mem_cons_of_mem _ hf))
  obtain ⟨-, collected, rfl, hall⟩ := collect_spec hcollect
  rw [families, List.filter_flatMap]
  induction kinds with
  | nil => exact List.Forall₂.nil
  | cons T kinds ih => exact List.rel_append (hvector (fun _ hf => hf) (hall T)) ih

/-- What `Collect` returns is a scrape. -/
theorem collect_isScrape (hr : Reachable mode r)
    (hcollect : r.collect clock = some (r', results)) : IsScrape r results := by
  have hreports : List.Forall₂ Reports
      (r.families.filter fun held => !held.2.metrics_.isEmpty) results :=
    collect_forall₂ hcollect fun T f hf f' results hf' =>
      Family.collect_reports (hr.labelsSound hf) hf'
  refine ⟨hreports, ?_⟩
  have hnames : results.map MetricFamily.name =
      (r.families.filter fun held => !held.2.metrics_.isEmpty).map fun held => held.2.name_ :=
    Simulation.map_eq_of_forall₂ (hreports.imp fun _ _ h => h.name)
  have hall : (r.families.map fun held => held.2.name_).Nodup := by
    have hnodup : (kinds.flatMap fun T => (r.getFamilies T).map Family.name_).Nodup :=
      hr.wellformed.names.nodup (by decide)
    simpa only [families, List.map_flatMap, List.map_map, Function.comp_def] using hnodup
  rw [hnames]
  exact hall.sublist (List.filter_sublist.map _)

/-- Collecting succeeds when it does for each of the seven vectors. -/
theorem exists_collect_iff (r : Registry) (clock : ℕ → ℕ → ℕ → ℤ) :
    (∃ result, r.collect clock = some result) ↔
      ∀ T, ∃ result, collectAll (r.getFamilies T) clock = some result := by
  constructor
  · rintro ⟨⟨r', results⟩, hcollect⟩ T
    obtain ⟨-, collected, -, hall⟩ := collect_spec hcollect
    exact ⟨_, hall T⟩
  · intro hall
    obtain ⟨⟨_, _⟩, h₁⟩ := hall .counterDouble
    obtain ⟨⟨_, _⟩, h₂⟩ := hall .counterInt
    obtain ⟨⟨_, _⟩, h₃⟩ := hall .gaugeDouble
    obtain ⟨⟨_, _⟩, h₄⟩ := hall .gaugeInt
    obtain ⟨⟨_, _⟩, h₅⟩ := hall .histogram
    obtain ⟨⟨_, _⟩, h₆⟩ := hall .info
    obtain ⟨⟨_, _⟩, h₇⟩ := hall .summary
    simp only [getFamilies] at h₁ h₂ h₃ h₄ h₅ h₆ h₇
    exact ⟨_, by simp only [collect, h₁, h₂, h₃, h₄, h₅, h₆, h₇]; rfl⟩

theorem Reachable.metricsSound (hr : Reachable mode r) {T : MetricKind} {f : Family T}
    (hf : f ∈ r.getFamilies T) : f.MetricsSound := by
  apply hr.forall_families (P := fun _ f => f.MetricsSound) _ _ T f hf
  · intro T f hempty entry hentry
    rw [hempty] at hentry
    exact absurd hentry List.not_mem_nil
  · exact fun T f f' hstep hsound => hsound.step hstep

/-- In every reachable state a scrape loses and duplicates nothing, exactly
when the reads of the summaries held end and the counts of the histograms held
are finite. -/
theorem scrape_exact_iff (hr : Reachable mode r) (clock : ℕ → ℕ → ℕ → ℤ) :
    (∃ r' results, r.collect clock = some (r', results) ∧ IsScrape r results) ↔
      ∀ T, ∀ f ∈ r.getFamilies T, ∀ entry ∈ f.metrics_,
        T.Collectable entry.object (clock f.address entry.address) := by
  have hcollectAll : ∀ T, (∃ result, collectAll (r.getFamilies T) clock = some result) ↔
      ∀ f ∈ r.getFamilies T, ∀ entry ∈ f.metrics_,
        T.Collectable entry.object (clock f.address entry.address) := by
    intro T
    have hmapM : (∃ result, collectAll (r.getFamilies T) clock = some result) ↔
        ∃ collected, (r.getFamilies T).mapM (fun f => f.collect (clock f.address)) =
          some collected := by
      simp only [collectAll, Option.bind_eq_bind, Option.bind_eq_some_iff]
      exact Simulation.exists_and_iff_of_total fun _ => ⟨_, rfl⟩
    rw [hmapM, Simulation.exists_mapM_iff]
    exact forall₂_congr fun f hf => (hr.metricsSound hf).collect_isSome_iff _
  rw [← forall_congr' hcollectAll, ← exists_collect_iff]
  constructor
  · rintro ⟨r', results, hcollect, -⟩
    exact ⟨_, hcollect⟩
  · rintro ⟨⟨r', results⟩, hcollect⟩
    exact ⟨r', results, hcollect, collect_isScrape hr hcollect⟩

/-- A registry with one summary of the median, created at tick 0 with one
bucket. -/
def oneSummary (metrics : List (Entry .summary)) : Registry :=
  { new .merge with
    summaries_ := [⟨1, metrics, "latency".toList, [], ⟨[], Labels.sorted_nil⟩, rfl, by decide⟩] }

def medianSummary (max_age : ℤ) : Entry .summary :=
  ⟨⟨[], Labels.sorted_nil⟩, 10, (⟨[⟨1 / 2, 1 / 20⟩], 0, 0,
    ⟨[CKMSQuantiles.new [⟨1 / 2, 1 / 20⟩]], 0, 0, max_age.tdiv 1⟩⟩ : Promcore.Summary)⟩

theorem oneSummary_reachable (max_age : ℤ) :
    Reachable .merge (oneSummary [medianSummary max_age]) := by
  have hregister : (new .merge).apply (.register .summary 1 "latency".toList []
      ⟨[], Labels.sorted_nil⟩) = some (oneSummary []) := rfl
  have hadd : (oneSummary []).apply (.addMetric .summary 1 ⟨[], Labels.sorted_nil⟩ 10
      ([⟨1 / 2, 1 / 20⟩], max_age, 1, 0)) = some (oneSummary [medianSummary max_age]) := rfl
  exact Reachable.first_metric hregister hadd

/-- A window of ten ticks is scraped at tick 25. -/
theorem scrape_exact_iff_ten_ticks : ∃ r' results,
    (oneSummary [medianSummary 10]).collect (fun _ _ _ => 25) = some (r', results) ∧
      IsScrape (oneSummary [medianSummary 10]) results := by
  apply (scrape_exact_iff (oneSummary_reachable 10) fun _ _ _ => 25).mpr
  refine forall_only_family (T := .summary) fun entry hentry => ?_
  rw [List.mem_singleton.mp hentry]
  exact Or.inl (by decide)

/-- A window of no age is never scraped: nothing is returned one tick later. -/
theorem scrape_never_returns :
    ∃ r, Reachable .merge r ∧ (∃ f ∈ r.getFamilies .summary, f.metrics_ ≠ []) ∧
      r.collect (fun _ _ _ => 1) = none :=
  ⟨_, oneSummary_reachable 0, ⟨_, List.mem_singleton_self _, by decide⟩, by decide +kernel⟩

end Registry

end Promcore
