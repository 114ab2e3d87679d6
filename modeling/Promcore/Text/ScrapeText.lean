import Promcore.Registry.Histories
import Promcore.Text.ReadBack
import Promcore.Text.StreamSerializer

/-!
# From calls to text and back

A program makes calls on a registry, and a scrape turns it into a string. What
a reader of the string gets are the families that have metrics, and for each
metric the samples of what the calls made on it have come to; the global locale
of the program has no part in it.
-/

namespace Promcore

/-- A new `std::ostringstream`, in a program with this global locale. -/
def ostringstream (global : Locale) : Ostream where
  locale := global
  precision := 6
  flags := {}
  width := 0
  fill := ' '

/-- `Serializer::Serialize` into a string, of a `TextSerializer`. -/
def Serializer.serialize (global : Locale) (metrics : List MetricFamily) : Str :=
  (StreamSerializer.serialize (ostringstream global) metrics).1

theorem Serializer.serialize_eq (global : Locale) (metrics : List MetricFamily) :
    Serializer.serialize global metrics = TextSerializer.serialize metrics :=
  StreamSerializer.serialize_default rfl le_rfl metrics

theorem Reports.validNames {held : Σ T, Family T} {result : MetricFamily}
    (h : Reports held result) : TextSerializer.ValidNames result :=
  ⟨h.name ▸ held.2.valid_name, fun metric hmetric lp hlp => ⟨_, h.accepted metric hmetric lp hlp⟩⟩

namespace Registry

open TextSerializer

/-- The samples of one metric, by the name and type of its family. -/
def samplesUnder (name : Str) (type : MetricType) (metric : ClientMetric) : List Sample :=
  metricSamples { name, help := [], type, metric := [] } metric

theorem samples_eq_samplesUnder (family : MetricFamily) :
    samples family = family.metric.flatMap (samplesUnder family.name family.type) := rfl

/-- What is read of a family tells its name, help and type, and for each entry
the samples that the object with its history has under its labels. -/
structure TellsHistory (ops : List Op) (clock : ℕ → ℕ → ℕ → ℤ) (held : Σ T, Family T)
    (told : Exposed) : Prop where
  name : told.name = held.2.name_
  help : told.help = held.2.help_
  type : told.type = typeWord held.1.metricType
  samples : ∃ metrics : List ClientMetric,
    List.Forall₂ (fun entry metric => ∃ object object' collected,
      HistoryOf ops held.1 held.2.address entry.labels entry.address object ∧
      held.1.collect object (clock held.2.address entry.address) = some (object', collected) ∧
      metric = { collected with label := held.2.label entry.labels }) held.2.metrics_ metrics ∧
    told.samples = metrics.flatMap (samplesUnder held.2.name_ held.1.metricType)

theorem ReportsHistory.tells {ops : List Op} {clock : ℕ → ℕ → ℕ → ℤ} {held : Σ T, Family T}
    {result : MetricFamily} (h : ReportsHistory ops clock held result) :
    TellsHistory ops clock held (exposed result) where
  name := h.name
  help := h.help
  type := congrArg typeWord h.type
  samples := ⟨result.metric, h.metrics, by
    rw [exposed, samples_eq_samplesUnder, h.name, h.type]⟩

/-- What is collected has valid names, and the helps that were given. -/
theorem collect_oneLine {mode : InsertBehavior} {r r' : Registry} (hr : Reachable mode r)
    (hhelp : ∀ T, ∀ f ∈ r.getFamilies T, '\n' ∉ f.help_) {clock : ℕ → ℕ → ℕ → ℤ}
    {results : List MetricFamily} (hcollect : r.collect clock = some (r', results)) :
    ∀ family ∈ results, ValidNames family ∧ '\n' ∉ family.help := by
  intro family hfamily
  have hmem : ∀ held ∈ r.families.filter fun held => !held.2.metrics_.isEmpty,
      '\n' ∉ held.2.help_ := fun held hheld =>
    hhelp held.1 held.2 (mem_families_iff.mp (List.mem_of_mem_filter hheld))
  obtain ⟨held, -, hline, hreports⟩ := Simulation.exists_of_mem_forall₂
    ((List.forall₂_and_left _ _).mpr ⟨hmem, (collect_isScrape hr hcollect).reports⟩) hfamily
  exact ⟨hreports.validNames, hreports.help ▸ hline⟩

/-- The text of a scrape is read back as what was collected. -/
theorem readExposition_collect {mode : InsertBehavior} {r r' : Registry} (hr : Reachable mode r)
    (hhelp : ∀ T, ∀ f ∈ r.getFamilies T, '\n' ∉ f.help_) {clock : ℕ → ℕ → ℕ → ℤ}
    {results : List MetricFamily} (hcollect : r.collect clock = some (r', results))
    (global : Locale) :
    readExposition (Serializer.serialize global results) = some (results.map exposed) := by
  rw [Serializer.serialize_eq]
  exact readExposition_serialize (collect_oneLine hr hhelp hcollect)

/-- In every run whose families have helps of one line, whatever the global
locale: the string of a scrape is read back as one entry for each family with
metrics, under different names, and each tells what the calls made on its
metrics since they were added have come to. -/
theorem scrape_read_back {mode : InsertBehavior} {ops : List Op} {r r' : Registry}
    (hr : Reachable mode r) (hrun : ops.foldlM apply (new mode) = some r)
    (hhelp : ∀ T, ∀ f ∈ r.getFamilies T, '\n' ∉ f.help_) {clock : ℕ → ℕ → ℕ → ℤ}
    {results : List MetricFamily} (hcollect : r.collect clock = some (r', results))
    (global : Locale) :
    ∃ told, readExposition (Serializer.serialize global results) = some told ∧
      (told.map Exposed.name).Nodup ∧
      List.Forall₂ (TellsHistory ops clock)
        (r.families.filter fun held => !held.2.metrics_.isEmpty) told := by
  refine ⟨results.map exposed, readExposition_collect hr hhelp hcollect global, ?_, ?_⟩
  · rw [List.map_map]
    exact (collect_isScrape hr hcollect).names
  · rw [List.forall₂_map_right_iff]
    exact ((List.forall₂_and_left _ _).mpr ⟨fun _ hheld => List.mem_of_mem_filter hheld,
      collect_reportsObjects hcollect⟩).imp fun _ _ h => (h.2.history_of_run hrun h.1).tells

/-- A gauge, in a program that writes numbers with commas and dots. -/
def oneGauge : List Op :=
  [.register .gaugeInt 1 "queue_length".toList "Jobs, waiting".toList ⟨[], Labels.sorted_nil⟩,
    .addMetric .gaugeInt 1 ⟨[], Labels.sorted_nil⟩ 10 (4096 : Int64)]

theorem scrape_read_back_one_gauge : ∃ (r : Registry) (results : List MetricFamily)
    (told : List Exposed), oneGauge.foldlM apply (new .merge) = some r ∧
      readExposition (Serializer.serialize ⟨',', '.', [3]⟩ results) = some told ∧
      List.Forall₂ (TellsHistory oneGauge fun _ _ _ => 0)
        (r.families.filter fun held => !held.2.metrics_.isEmpty) told := by
  have hrun : ∃ r₁ r₂ r₃ results, (new .merge).apply (.register .gaugeInt 1 "queue_length".toList
      "Jobs, waiting".toList ⟨[], Labels.sorted_nil⟩) = some r₁ ∧
      r₁.apply (.addMetric .gaugeInt 1 ⟨[], Labels.sorted_nil⟩ 10 (4096 : Int64)) = some r₂ ∧
      r₂.collect (fun _ _ _ => 0) = some (r₃, results) ∧
      ∀ T, ∀ f ∈ r₂.getFamilies T, '\n' ∉ f.help_ := by
    refine ⟨_, _, _, _, rfl, rfl, rfl, ?_⟩
    exact forall_only_family (P := fun _ f => '\n' ∉ f.help_) (T := .gaugeInt) (by decide)
  obtain ⟨r₁, r₂, r₃, results, hfirst, hsecond, hcollect, hhelp⟩ := hrun
  have hr₂ : Reachable .merge r₂ := Reachable.first_metric hfirst hsecond
  have hops : oneGauge.foldlM apply (new .merge) = some r₂ := by
    rw [oneGauge, List.foldlM_cons, hfirst]
    exact Option.bind_eq_some_iff.mpr ⟨r₁, rfl, by rw [List.foldlM_cons, hsecond]; rfl⟩
  obtain ⟨told, hread, -, htells⟩ := scrape_read_back hr₂ hops hhelp hcollect ⟨',', '.', [3]⟩
  exact ⟨r₂, results, told, hops, hread, htells⟩

end Registry

end Promcore
