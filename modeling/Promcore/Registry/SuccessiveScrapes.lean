import Promcore.Metrics.Rising
import Promcore.Registry.Histories

/-!
# One scrape after another

A metric that is neither removed nor reset between two scrapes is reported by
both under the same names. What its kind only ever adds to has not fallen
meanwhile, whatever happens to it and to all the others.
-/

namespace Promcore

namespace MetricKind

/-- The call that starts a metric anew. -/
def reset : (T : MetricKind) → Option T.Call
  | .counterDouble => some (CounterType.Call.reset : CounterType.Call Double)
  | .counterInt => some (CounterType.Call.reset : CounterType.Call Int64)
  | .histogram => some Histogram.Op.reset
  | _ => none

/-- What only grows in an object that is not reset. A counter of integers can
overflow, and a gauge may do anything. -/
def Rises : (T : MetricKind) → T.Object → T.Object → Prop
  | .counterDouble, c, c' =>
      Double.NotFallen (CounterType.value (c : CounterType Double)) (CounterType.value c')
  | .histogram, h, h' => Promcore.Histogram.Rises h h'
  | .summary, s, s' => Promcore.Summary.count_ s ≤ Promcore.Summary.count_ s'
  | _, _, _ => True

/-- The same of two reports. -/
def NotFalling : MetricKind → ClientMetric → ClientMetric → Prop
  | .counterDouble, m, m' =>
      ∃ x y, m.counter = .double x ∧ m'.counter = .double y ∧ y.lt x = false
  | .histogram, m, m' => Promcore.Histogram.NotFalling m m'
  | .summary, m, m' => m.summary.sample_count ≤ m'.summary.sample_count
  | _, _, _ => True

variable {T : MetricKind} {object object' object'' : T.Object}

theorem rises_refl (object : T.Object) : T.Rises object object := by
  cases T with
  | counterDouble => exact Double.NotFallen.refl _
  | histogram => exact Promcore.Histogram.Rises.refl object
  | summary => exact le_rfl (a := Promcore.Summary.count_ object)
  | _ => trivial

theorem rises_trans (h : T.Rises object object') (h' : T.Rises object' object'') :
    T.Rises object object'' := by
  cases T with
  | counterDouble => exact Double.NotFallen.trans h h'
  | histogram => exact Promcore.Histogram.Rises.trans h h'
  | summary => exact Nat.le_trans h h'
  | _ => trivial

/-- A read changes at most the windows of a summary. -/
theorem rises_collect {clock : ℕ → ℤ} {collected : ClientMetric}
    (hcollect : T.collect object clock = some (object', collected)) : T.Rises object object' := by
  cases T with
  | counterDouble =>
      cases hcollect
      exact Double.NotFallen.refl _
  | histogram =>
      obtain ⟨metric, -, heq⟩ := Option.map_eq_some_iff.mp hcollect
      cases heq
      exact Promcore.Histogram.Rises.refl object
  | summary => exact (Promcore.Summary.collect_count hcollect).1.ge
  | _ => trivial

theorem rises_step {event : T.Event} (hreset : ∀ call, T.reset = some call → event ≠ .call call)
    (hstep : T.step object event = some object') : T.Rises object object' := by
  cases event with
  | read clock =>
      obtain ⟨result, hcollect, rfl⟩ := Option.map_eq_some_iff.mp hstep
      exact rises_collect hcollect
  | call call =>
      cases T with
      | counterDouble =>
          cases hstep
          exact CounterType.notFallen_apply (fun heq => hreset _ rfl (heq ▸ rfl)) object
      | histogram =>
          cases hstep
          exact Promcore.Histogram.rises_apply (fun heq => hreset _ rfl (heq ▸ rfl)) object
      | summary => exact Promcore.Summary.observe_count hstep
      | _ => trivial

theorem Rises.notFalling (h : T.Rises object object') {after after' : T.Object}
    {clock clock' : ℕ → ℤ} {collected collected' : ClientMetric}
    (hcollect : T.collect object clock = some (after, collected))
    (hcollect' : T.collect object' clock' = some (after', collected')) :
    T.NotFalling collected collected' := by
  cases T with
  | counterDouble =>
      cases hcollect
      cases hcollect'
      exact ⟨_, _, rfl, rfl, Double.NotFallen.not_lt h⟩
  | histogram =>
      obtain ⟨metric, hmetric, heq⟩ := Option.map_eq_some_iff.mp hcollect
      obtain ⟨metric', hmetric', heq'⟩ := Option.map_eq_some_iff.mp hcollect'
      cases heq
      cases heq'
      exact Promcore.Histogram.Rises.notFalling h hmetric hmetric'
  | summary =>
      change collected.summary.sample_count ≤ collected'.summary.sample_count
      rw [(Promcore.Summary.collect_count hcollect).2, (Promcore.Summary.collect_count hcollect').2]
      exact h
  | _ => trivial

theorem NotFalling.withLabels {m m' : ClientMetric} (h : T.NotFalling m m')
    (label label' : List ClientMetric.Label) :
    T.NotFalling { m with label } { m' with label := label' } := by
  cases T with
  | histogram => exact ⟨h.buckets, h.total⟩
  | _ => exact h

end MetricKind

namespace Registry

open Simulation

variable {r r' : Registry} {T : MetricKind}

/-- A metric that the calls did not add was there before, in the same family and
under the same labels, and the events among them made its object of the one then. -/
theorem held_before {ops : List Op} (hrun : ops.foldlM apply r = some r') {f' : Family T}
    (hf' : f' ∈ r'.getFamilies T) {entry' : Entry T} (hentry' : entry' ∈ f'.metrics_)
    (hadd : ∀ labels args, Op.addMetric T f'.address labels entry'.address args ∉ ops) :
    ∃ f ∈ r.getFamilies T, f.address = f'.address ∧ f.name_ = f'.name_ ∧
      f.constant_labels_ = f'.constant_labels_ ∧ ∃ entry ∈ f.metrics_,
        entry.labels = entry'.labels ∧ entry.address = entry'.address ∧
          (ops.filterMap (Op.event T f'.address entry'.address)).foldlM T.step entry.object =
            some entry'.object := by
  induction ops using List.reverseRecOn generalizing r' f' entry' with
  | nil =>
      obtain rfl := Option.some.inj hrun
      exact ⟨f', hf', rfl, rfl, rfl, entry', hentry', rfl, rfl, rfl⟩
  | append_singleton ops op ih =>
      rw [foldlM_snoc, Option.bind_eq_some_iff] at hrun
      obtain ⟨r₀, hrun, happly⟩ := hrun
      rcases comesFrom happly hf' hentry' with
        ⟨f₀, hf₀, haddress₀, hname₀, hconstant₀, entry₀, hentry₀, hlabels₀, hmetric₀, hevent⟩ |
        ⟨args, rfl, -⟩
      · obtain ⟨f, hf, haddress, hname, hconstant, entry, hentry, hlabels, hmetric, hevents⟩ :=
          ih hrun hf₀ hentry₀ fun labels args hmem =>
            hadd labels args (haddress₀ ▸ hmetric₀ ▸ List.mem_append_left _ hmem)
        refine ⟨f, hf, haddress.trans haddress₀, hname.trans hname₀, hconstant.trans hconstant₀,
          entry, hentry, hlabels.trans hlabels₀, hmetric.trans hmetric₀, ?_⟩
        rw [haddress₀, hmetric₀] at hevents
        rw [List.filterMap_append, List.foldlM_append, hevents]
        cases hop : Op.event T f'.address entry'.address op with
        | none => simpa [hop] using hevent
        | some event => simpa [hop] using hevent
      · exact absurd (List.mem_append_right _ (List.mem_singleton_self _)) (hadd _ _)

/-- A scrape has a report for each metric held. -/
theorem exists_report {clock : ℕ → ℕ → ℕ → ℤ} {results : List MetricFamily}
    (hcollect : r.collect clock = some (r', results)) {f : Family T} (hf : f ∈ r.getFamilies T)
    {entry : Entry T} (hentry : entry ∈ f.metrics_) :
    ∃ report ∈ results, report.name = f.name_ ∧ report.type = T.metricType ∧
      ∃ metric ∈ report.metric, ∃ object' collected,
        T.collect entry.object (clock f.address entry.address) = some (object', collected) ∧
        metric = { collected with label := f.label entry.labels } := by
  have hheld : (⟨T, f⟩ : Σ T, Family T) ∈ r.families.filter fun held => !held.2.metrics_.isEmpty :=
    List.mem_filter.mpr ⟨mem_families_iff.mpr hf, by
      simpa using List.ne_nil_of_mem hentry⟩
  obtain ⟨report, hreport, hreports⟩ := exists_of_mem_forall₂
    (List.Forall₂.flip (collect_reportsObjects hcollect)) hheld
  obtain ⟨metric, hmetric, object', collected, hobject, heq⟩ := exists_of_mem_forall₂
    (List.Forall₂.flip hreports.metrics) hentry
  exact ⟨report, hreport, hreports.name, hreports.type, metric, hmetric, object', collected,
    hobject, heq⟩

theorem Op.event_call {op : Op} {family metric : ℕ} {call : T.Call}
    (h : Op.event T family metric op = some (.call call)) : op = .update T family metric call := by
  cases op with
  | update T' family' metric' call' =>
      by_cases hT : T' = T
      · subst hT
        simp only [Op.event, dif_pos, Option.ite_none_right_eq_some, Option.some.injEq,
          MetricKind.Event.call.injEq] at h
        obtain ⟨⟨rfl, rfl⟩, rfl⟩ := h
        rfl
      · rw [Op.event_update_of_kind_ne call' hT] at h
        cases h
  | _ => cases h

/-- A metric that no call resets has no such event. -/
theorem event_ne_reset {clock : ℕ → ℕ → ℕ → ℤ} {between : List Op} {family metric : ℕ}
    (hreset : ∀ call, T.reset = some call → .update T family metric call ∉ between)
    {event : T.Event}
    (hevent : event ∈ (Op.collect clock :: between).filterMap (Op.event T family metric)) :
    ∀ call, T.reset = some call → event ≠ .call call := by
  rintro call hcall rfl
  obtain ⟨op, hop, hevent⟩ := List.mem_filterMap.mp hevent
  rw [Op.event_call hevent] at hop
  cases hop with
  | tail _ hop => exact hreset call hcall hop

/-- Two scrapes, with any calls between them: a metric that is held at the second
one, and was neither added nor reset since the first one, is reported by both
under the same names, and what its kind only adds to has not fallen. -/
theorem scrapes_never_fall {r₁ r₂ r₃ : Registry} {between : List Op} {clock clock' : ℕ → ℕ → ℕ → ℤ}
    {earlier later : List MetricFamily} (hearlier : r.collect clock = some (r₁, earlier))
    (hbetween : between.foldlM apply r₁ = some r₂) (hlater : r₂.collect clock' = some (r₃, later))
    {f : Family T} (hf : f ∈ r₂.getFamilies T) {entry : Entry T} (hentry : entry ∈ f.metrics_)
    (hadd : ∀ labels args, .addMetric T f.address labels entry.address args ∉ between)
    (hreset : ∀ call, T.reset = some call → .update T f.address entry.address call ∉ between) :
    ∃ report ∈ earlier, ∃ report' ∈ later, report.name = f.name_ ∧ report'.name = f.name_ ∧
      ∃ metric ∈ report.metric, ∃ metric' ∈ report'.metric,
        metric.label = f.label entry.labels ∧ metric'.label = f.label entry.labels ∧
        T.NotFalling metric metric' := by
  have hrun : (Op.collect clock :: between).foldlM apply r = some r₂ := by
    rw [List.foldlM_cons, apply, hearlier]
    exact hbetween
  obtain ⟨f₀, hf₀, haddress, hname, hconstant, entry₀, hentry₀, hlabels, hmetric, hevents⟩ :=
    held_before hrun hf hentry fun labels args hmem => by
      cases hmem with
      | tail _ hmem => exact hadd labels args hmem
  have hrises : T.Rises entry₀.object entry.object := by
    refine foldlM_related MetricKind.rises_refl MetricKind.rises_trans
      (fun event hevent _ _ hstep => MetricKind.rises_step (event_ne_reset hreset hevent) hstep)
      hevents
  obtain ⟨report, hreport, hreported, -, metric, hmem, after, collected, hcollected, rfl⟩ :=
    exists_report hearlier hf₀ hentry₀
  obtain ⟨report', hreport', hreported', -, metric', hmem', after', collected', hcollected', rfl⟩ :=
    exists_report hlater hf hentry
  have hlabel : f₀.label entry₀.labels = f.label entry.labels := by
    rw [Family.label, Family.label, hconstant, hlabels]
  refine ⟨report, hreport, report', hreport', hreported.trans hname, hreported', _, hmem, _, hmem',
    hlabel, rfl, ?_⟩
  exact (hrises.notFalling hcollected hcollected').withLabels _ _

/-- A counter. -/
def requests : List Op :=
  [.register .counterDouble 1 "requests".toList [] ⟨[], Labels.sorted_nil⟩,
    .addMetric .counterDouble 1 ⟨[], Labels.sorted_nil⟩ 10 ()]

/-- It is scraped, incremented and scraped again. -/
theorem scrapes_never_fall_requests :
    ∃ (r r₁ r₂ r₃ : Registry) (earlier later : List MetricFamily),
      requests.foldlM apply (new .merge) = some r ∧
      r.collect (fun _ _ _ => 0) = some (r₁, earlier) ∧
      r₁.apply (.update .counterDouble 1 10 CounterType.Call.increment) = some r₂ ∧
      r₂.collect (fun _ _ _ => 0) = some (r₃, later) ∧
      ∃ report ∈ earlier, ∃ report' ∈ later, report.name = report'.name ∧
        ∃ metric ∈ report.metric, ∃ metric' ∈ report'.metric,
          MetricKind.counterDouble.NotFalling metric metric' := by
  have hrun : ∃ (r r₁ r₂ r₃ : Registry) (earlier later : List MetricFamily)
      (f : Family .counterDouble) (entry : Entry .counterDouble),
      requests.foldlM apply (new .merge) = some r ∧
      r.collect (fun _ _ _ => 0) = some (r₁, earlier) ∧
      r₁.apply (.update .counterDouble 1 10 CounterType.Call.increment) = some r₂ ∧
      r₂.collect (fun _ _ _ => 0) = some (r₃, later) ∧
      f ∈ r₂.getFamilies .counterDouble ∧ entry ∈ f.metrics_ :=
    ⟨_, _, _, _, _, _, _, _, rfl, rfl, rfl, rfl, List.mem_singleton_self _,
      List.mem_singleton_self _⟩
  obtain ⟨r, r₁, r₂, r₃, earlier, later, f, entry, hr, hearlier, hupdate, hlater, hf, hentry⟩ :=
    hrun
  have hbetween : [Op.update .counterDouble 1 10 CounterType.Call.increment].foldlM apply r₁ =
      some r₂ := by
    rw [List.foldlM_cons, hupdate]
    rfl
  obtain ⟨report, hreport, report', hreport', hname, hname', metric, hmetric, metric', hmetric',
    -, -, hnot⟩ := scrapes_never_fall hearlier hbetween hlater hf hentry
      (fun labels args hmem => by cases List.mem_singleton.mp hmem)
      (fun call hcall hmem => by
        obtain ⟨-, -, -, hsame⟩ := Op.update.inj (List.mem_singleton.mp hmem)
        cases hcall
        cases hsame)
  exact ⟨r, r₁, r₂, r₃, earlier, later, hr, hearlier, hupdate, hlater, report, hreport, report',
    hreport', hname.trans hname'.symm, metric, hmetric, metric', hmetric', hnot⟩

end Registry

end Promcore
