import Mathlib.Data.List.Induction
import Promcore.Registry.Scrape

/-!
# Where the reported values come from

The object of a metric is what its constructor made, changed by exactly the
calls made on it and by the scrapes since it was added. No call on another
metric, no call on another family, and no call that adds, registers or removes
something else has a part in it.
-/

namespace Promcore

namespace MetricKind

variable (T : MetricKind)

/-- What happens to a metric. -/
inductive Event where
  | call (call : T.Call)
  | read (clock : ℕ → ℤ)

/-- A read changes a summary. -/
def step (metric : T.Object) : T.Event → Option T.Object
  | .call call => T.apply metric call
  | .read clock => (T.collect metric clock).map Prod.fst

end MetricKind

namespace Registry

open Simulation

/-- What a call does to the metric at an address, of the family at an address. -/
def Op.event (T : MetricKind) (family metric : ℕ) : Op → Option T.Event
  | .update T' family' metric' call =>
      if hT : T' = T then
        if family' = family ∧ metric' = metric then some (.call (hT ▸ call)) else none
      else none
  | .collect clock => some (.read (clock family metric))
  | _ => none

/-- The metric was added with these labels, and the events since then have left
the object as it is. -/
def HistoryOf (ops : List Op) (T : MetricKind) (family : ℕ) (labels : Labels) (metric : ℕ)
    (object : T.Object) : Prop :=
  ∃ before args made after, ops = before ++ Op.addMetric T family labels metric args :: after ∧
    T.make args = some (.ok made) ∧
    (after.filterMap (Op.event T family metric)).foldlM T.step made = some object

section Steps

variable {r r' : Registry} {ops : List Op} {op : Op} {T : MetricKind} {family metric : ℕ}
  {labels : Labels}

theorem Op.event_update (call : T.Call) :
    Op.event T family metric (.update T family metric call) = some (.call call) := by
  simp [Op.event]

theorem Op.event_update_of_ne {family' metric' : ℕ} (call : T.Call)
    (h : family' = family → metric' ≠ metric) :
    Op.event T family metric (.update T family' metric' call) = none := by
  simp only [Op.event, dif_pos]
  exact if_neg fun heq => h heq.1 heq.2

theorem Op.event_update_of_kind_ne {T' : MetricKind} {family' metric' : ℕ} (call : T'.Call)
    (h : T' ≠ T) : Op.event T family metric (.update T' family' metric' call) = none := dif_neg h

/-- One more call that leaves the object alone, or is an event of it. -/
theorem HistoryOf.snoc {object object' : T.Object}
    (h : HistoryOf ops T family labels metric object)
    (hevent : (Op.event T family metric op).toList.foldlM T.step object = some object') :
    HistoryOf (ops ++ [op]) T family labels metric object' := by
  obtain ⟨before, args, made, after, rfl, hmade, hafter⟩ := h
  refine ⟨before, args, made, after ++ [op], by simp, hmade, ?_⟩
  rw [List.filterMap_append, List.foldlM_append, hafter]
  cases hop : Op.event T family metric op with
  | none => simpa [hop] using hevent
  | some event => simpa [hop] using hevent

/-- Where an entry comes from: it was there, in the same family, and the call did
to it what it does to its metric, or the call added it. -/
def ComesFrom (r : Registry) (op : Op) (f' : Family T) (entry' : Entry T) : Prop :=
  (∃ f ∈ r.getFamilies T, f.address = f'.address ∧ f.name_ = f'.name_ ∧
    f.constant_labels_ = f'.constant_labels_ ∧ ∃ entry ∈ f.metrics_,
      entry.labels = entry'.labels ∧ entry.address = entry'.address ∧
        (Op.event T f'.address entry'.address op).toList.foldlM T.step entry.object =
          some entry'.object) ∨
  ∃ args, op = .addMetric T f'.address entry'.labels entry'.address args ∧
    T.make args = some (.ok entry'.object)

theorem comesFrom_of_mem {f : Family T} {entry : Entry T} {metrics : List (Entry T)}
    (hf : f ∈ r.getFamilies T) (hentry : entry ∈ f.metrics_)
    (hevent : Op.event T f.address entry.address op = none) :
    ComesFrom r op { f with metrics_ := metrics } entry :=
  Or.inl ⟨f, hf, rfl, rfl, rfl, entry, hentry, rfl, rfl, by rw [hevent]; rfl⟩

/-- A call on one family adds an entry to it, or does to the entries there what
it does to the metric at its address. -/
theorem comesFrom_onFamily {T' : MetricKind} {call : Family T' → Option (Family T')}
    (hr' : r.onFamily T' family call = some r')
    (hother : ∀ T family' metric, (T = T' → family' ≠ family) → Op.event T family' metric op = none)
    (hcall : ∀ f ∈ r.getFamilies T', f.address = family → ∀ f', call f = some f' →
      ∀ entry ∈ f'.metrics_, ComesFrom r op f' entry)
    {f' : Family T} (hf' : f' ∈ r'.getFamilies T) {entry : Entry T} (hentry : entry ∈ f'.metrics_) :
    ComesFrom r op f' entry := by
  obtain ⟨f, hf, hcalled⟩ := exists_of_mem_forall₂ (onFamily_called hr' T) hf'
  cases hcalled with
  | elsewhere helse => exact comesFrom_of_mem hf hentry (hother _ _ _ helse)
  | called haddress hf' => exact hcall f hf haddress f' hf' entry hentry

theorem comesFrom_addMetric {T' : MetricKind} {address : ℕ} {args : T'.Args}
    (hr' : r.apply (.addMetric T' family labels address args) = some r') {f' : Family T}
    (hf' : f' ∈ r'.getFamilies T) {entry : Entry T} (hentry : entry ∈ f'.metrics_) :
    ComesFrom r (.addMetric T' family labels address args) f' entry := by
  refine comesFrom_onFamily hr' (fun _ _ _ _ => rfl) ?_ hf' hentry
  intro f hf haddress f' hcall entry hentry
  obtain ⟨⟨result, _⟩, hadd, rfl⟩ := Option.map_eq_some_iff.mp hcall
  rw [Family.add, Option.map_eq_some_iff] at hadd
  obtain ⟨made, hmade, hadd⟩ := hadd
  cases made with
  | error exception =>
      cases hadd
      exact comesFrom_of_mem hf hentry rfl
  | ok object =>
      dsimp only at hadd
      rcases f.addObject_cases labels address object with ⟨found, -, hobject⟩ |
        ⟨-, -, exception, hobject⟩ | ⟨-, -, hobject⟩ <;> cases hadd.symm.trans hobject
      · exact comesFrom_of_mem hf hentry rfl
      · exact comesFrom_of_mem hf hentry rfl
      · rcases List.mem_append.mp hentry with hentry | hentry
        · exact comesFrom_of_mem hf hentry rfl
        · rw [List.mem_singleton.mp hentry]
          exact Or.inr ⟨args, by rw [haddress], hmade⟩

theorem comesFrom_removeMetric {T' : MetricKind} {removed : Option ℕ}
    (hr' : r.apply (.removeMetric T' family removed) = some r') {f' : Family T}
    (hf' : f' ∈ r'.getFamilies T) {entry : Entry T} (hentry : entry ∈ f'.metrics_) :
    ComesFrom r (.removeMetric T' family removed) f' entry := by
  refine comesFrom_onFamily hr' (fun _ _ _ _ => rfl) ?_ hf' hentry
  intro f hf haddress f' hremove entry hentry
  obtain rfl := Option.some.inj hremove
  exact comesFrom_of_mem hf (List.mem_of_mem_eraseP hentry) rfl

theorem comesFrom_update {T' : MetricKind} {updated : ℕ} {call : T'.Call}
    (hr' : r.apply (.update T' family updated call) = some r') {f' : Family T}
    (hf' : f' ∈ r'.getFamilies T) {entry : Entry T} (hentry : entry ∈ f'.metrics_) :
    ComesFrom r (.update T' family updated call) f' entry := by
  refine comesFrom_onFamily hr' ?_ ?_ hf' hentry
  · intro T family' metric hother
    by_cases hT : T' = T
    · subst hT
      exact Op.event_update_of_ne call fun heq => absurd heq.symm (hother rfl)
    · exact Op.event_update_of_kind_ne call hT
  · intro f hf haddress f' hupdate entry' hentry'
    obtain ⟨metrics, rfl, hmetrics⟩ := Family.update_spec hupdate
    obtain ⟨entry, hentry, hcall⟩ := exists_of_mem_forall₂ (forall₂_of_mapM hmetrics) hentry'
    split at hcall
    · next hmetric =>
        obtain ⟨object, happly, hcall⟩ := Option.bind_eq_some_iff.mp hcall
        obtain rfl := Option.some.inj hcall
        refine Or.inl ⟨f, hf, rfl, rfl, rfl, entry, hentry, rfl, rfl, ?_⟩
        rw [← hmetric, ← haddress, Op.event_update]
        simpa [MetricKind.step] using happly
    · next hmetric =>
        obtain rfl := Option.some.inj hcall
        exact comesFrom_of_mem hf hentry (Op.event_update_of_ne call fun _ => Ne.symm hmetric)

theorem comesFrom_collect {clock : ℕ → ℕ → ℕ → ℤ} (hr' : r.apply (.collect clock) = some r')
    {f' : Family T} (hf' : f' ∈ r'.getFamilies T) {entry : Entry T} (hentry : entry ∈ f'.metrics_) :
    ComesFrom r (.collect clock) f' entry := by
  obtain ⟨⟨_, results⟩, hcollect, rfl⟩ := Option.map_eq_some_iff.mp hr'
  obtain ⟨-, reports, -, hall⟩ := collect_spec hcollect
  have hvector := hall T
  simp only [collectAll, Option.bind_eq_bind, Option.bind_eq_some_iff, Option.pure_def,
    Option.some.injEq, Prod.mk.injEq] at hvector
  obtain ⟨collected, hcollected, hfamilies, -⟩ := hvector
  rw [← hfamilies] at hf'
  obtain ⟨result, hresult, rfl⟩ := List.mem_map.mp hf'
  obtain ⟨f, hf, hf'⟩ := exists_of_mem_forall₂ (forall₂_of_mapM hcollected) hresult
  obtain ⟨metrics, hfamily, hmetrics, -⟩ := Family.collect_spec hf'
  rw [hfamily] at hentry ⊢
  obtain ⟨pair, hpair, rfl⟩ := List.mem_map.mp hentry
  obtain ⟨entry, hentry, hmetric⟩ := exists_of_mem_forall₂ (forall₂_of_mapM hmetrics) hpair
  obtain ⟨⟨object, metric⟩, hobject, hmetric⟩ := Option.bind_eq_some_iff.mp hmetric
  rw [← Option.some.inj hmetric]
  refine Or.inl ⟨f, hf, rfl, rfl, rfl, entry, hentry, rfl, rfl, ?_⟩
  simp [Op.event, MetricKind.step, hobject]

/-- Where the entries come from after any call. -/
theorem comesFrom (hr' : r.apply op = some r') {f' : Family T} (hf' : f' ∈ r'.getFamilies T)
    {entry : Entry T} (hentry : entry ∈ f'.metrics_) : ComesFrom r op f' entry := by
  cases op with
  | register T' address name help labels =>
      obtain rfl := Option.some.inj hr'
      rcases mem_of_register hf' with hf' | hempty
      · exact comesFrom_of_mem hf' hentry rfl
      · exact absurd (hempty ▸ hentry) List.not_mem_nil
  | remove T' family =>
      obtain rfl := Option.some.inj hr'
      exact comesFrom_of_mem (mem_of_remove hf') hentry rfl
  | addMetric => exact comesFrom_addMetric hr' hf' hentry
  | removeMetric => exact comesFrom_removeMetric hr' hf' hentry
  | update => exact comesFrom_update hr' hf' hentry
  | collect => exact comesFrom_collect hr' hf' hentry

end Steps

section Runs

variable {mode : InsertBehavior} {r r' : Registry} {ops : List Op} {T : MetricKind}

/-- In every run each metric held has a history that accounts for its object. -/
theorem history_of_run (hrun : ops.foldlM apply (new mode) = some r) {f : Family T}
    (hf : f ∈ r.getFamilies T) {entry : Entry T} (hentry : entry ∈ f.metrics_) :
    HistoryOf ops T f.address entry.labels entry.address entry.object := by
  induction ops using List.reverseRecOn generalizing r f entry with
  | nil =>
      obtain rfl := Option.some.inj hrun
      exact absurd hf (not_mem_new f)
  | append_singleton ops op ih =>
      rw [foldlM_snoc, Option.bind_eq_some_iff] at hrun
      obtain ⟨r₀, hrun, happly⟩ := hrun
      rcases comesFrom happly hf hentry with
        ⟨f₀, hf₀, haddress, -, -, entry₀, hentry₀, hlabels, hmetric, hevent⟩ | ⟨args, rfl, hmade⟩
      · have hbefore := ih hrun hf₀ hentry₀
        rw [haddress, hlabels, hmetric] at hbefore
        exact hbefore.snoc hevent
      · exact ⟨ops, args, entry.object, [], rfl, hmade, rfl⟩

/-- A report of a family, each of whose metrics is what the object of an entry
collects, under the labels of the entry. -/
structure ReportsObjects (clock : ℕ → ℕ → ℕ → ℤ) (held : Σ T, Family T) (result : MetricFamily) :
    Prop where
  name : result.name = held.2.name_
  help : result.help = held.2.help_
  type : result.type = held.1.metricType
  metrics : List.Forall₂ (fun entry metric => ∃ object' collected,
    held.1.collect entry.object (clock held.2.address entry.address) = some (object', collected) ∧
    metric = { collected with label := held.2.label entry.labels }) held.2.metrics_ result.metric

theorem collect_reportsObjects {clock : ℕ → ℕ → ℕ → ℤ} {results : List MetricFamily}
    (hcollect : r.collect clock = some (r', results)) :
    List.Forall₂ (ReportsObjects clock)
      (r.families.filter fun held => !held.2.metrics_.isEmpty) results := by
  refine collect_forall₂ hcollect fun T f _ f' results hf' => ?_
  obtain ⟨collected, -, hcollected, rfl⟩ := Family.collect_spec hf'
  by_cases hempty : f.metrics_.isEmpty = true
  · rw [if_pos hempty, List.filter_cons_of_neg (by simpa using hempty)]
    exact List.Forall₂.nil
  · rw [if_neg hempty, List.filter_cons_of_pos (by simpa using hempty)]
    refine List.Forall₂.cons ⟨rfl, rfl, rfl, ?_⟩ List.Forall₂.nil
    rw [List.forall₂_map_right_iff]
    refine (forall₂_of_mapM hcollected).imp fun entry result hresult => ?_
    obtain ⟨⟨object, metric⟩, hobject, hmetric⟩ := Option.bind_eq_some_iff.mp hresult
    have hlabel : metric.label = [] := MetricKind.collect_label hobject
    refine ⟨object, metric, hobject, ?_⟩
    rw [← Option.some.inj hmetric, hlabel]
    rfl

/-- A report of a family, each of whose metrics is what the object with the
history of an entry collects, under the labels of the entry. -/
structure ReportsHistory (ops : List Op) (clock : ℕ → ℕ → ℕ → ℤ) (held : Σ T, Family T)
    (result : MetricFamily) : Prop where
  name : result.name = held.2.name_
  help : result.help = held.2.help_
  type : result.type = held.1.metricType
  metrics : List.Forall₂ (fun entry metric => ∃ object object' collected,
    HistoryOf ops held.1 held.2.address entry.labels entry.address object ∧
    held.1.collect object (clock held.2.address entry.address) = some (object', collected) ∧
    metric = { collected with label := held.2.label entry.labels }) held.2.metrics_ result.metric

theorem ReportsObjects.history {held : Σ T, Family T} {clock : ℕ → ℕ → ℕ → ℤ}
    {result : MetricFamily} (h : ReportsObjects clock held result)
    (hhistory : ∀ entry ∈ held.2.metrics_,
      HistoryOf ops held.1 held.2.address entry.labels entry.address entry.object) :
    ReportsHistory ops clock held result where
  name := h.name
  help := h.help
  type := h.type
  metrics := by
    refine ((List.forall₂_and_left _ _).mpr ⟨hhistory, h.metrics⟩).imp fun entry metric hboth => ?_
    obtain ⟨object', collected, hobject, hmetric⟩ := hboth.2
    exact ⟨entry.object, object', collected, hboth.1, hobject, hmetric⟩

theorem ReportsObjects.history_of_run (hrun : ops.foldlM apply (new mode) = some r)
    {held : Σ T, Family T} (hheld : held ∈ r.families) {clock : ℕ → ℕ → ℕ → ℤ}
    {result : MetricFamily} (h : ReportsObjects clock held result) :
    ReportsHistory ops clock held result :=
  h.history fun _ hentry => Registry.history_of_run hrun (mem_families_iff.mp hheld) hentry

/-- In every run a scrape reports, for each family with metrics and each label
set in it, what the metric's constructor and exactly the calls made on that
metric since it was added have come to, and nothing else. -/
theorem scrape_history (hrun : ops.foldlM apply (new mode) = some r) {clock : ℕ → ℕ → ℕ → ℤ}
    {results : List MetricFamily} (hcollect : r.collect clock = some (r', results)) :
    List.Forall₂ (ReportsHistory ops clock)
      (r.families.filter fun held => !held.2.metrics_.isEmpty) results :=
  ((List.forall₂_and_left _ _).mpr ⟨fun _ hheld => List.mem_of_mem_filter hheld,
    collect_reportsObjects hcollect⟩).imp fun _ _ h => h.2.history_of_run hrun h.1

/-- Two gauges, of which the first one is changed. -/
def twoGauges : List Op :=
  [.register .gaugeInt 1 "a".toList [] ⟨[], Labels.sorted_nil⟩,
    .addMetric .gaugeInt 1 ⟨[], Labels.sorted_nil⟩ 10 (5 : Int64),
    .register .gaugeInt 2 "b".toList [] ⟨[], Labels.sorted_nil⟩,
    .addMetric .gaugeInt 2 ⟨[], Labels.sorted_nil⟩ 20 (7 : Int64),
    .update .gaugeInt 1 10 GaugeType.Call.increment]

theorem scrape_history_two_gauges : ∃ (r : Registry) (results : List MetricFamily),
    results.map (fun family => family.metric.map ClientMetric.gauge) = [[.int 6], [.int 7]] ∧
      List.Forall₂ (ReportsHistory twoGauges fun _ _ _ => 0)
        (r.families.filter fun held => !held.2.metrics_.isEmpty) results := by
  have hrun : ∃ r r' results, twoGauges.foldlM apply (new .merge) = some r ∧
      r.collect (fun _ _ _ => 0) = some (r', results) ∧
      results.map (fun family => family.metric.map ClientMetric.gauge) = [[.int 6], [.int 7]] :=
    ⟨_, _, _, rfl, rfl, rfl⟩
  obtain ⟨r, r', results, hrun, hcollect, hvalues⟩ := hrun
  exact ⟨r, results, hvalues, scrape_history hrun hcollect⟩

end Runs

end Registry

end Promcore
