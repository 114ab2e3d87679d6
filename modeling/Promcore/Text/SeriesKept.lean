import Promcore.Registry.SuccessiveScrapes
import Promcore.Text.Figures
import Promcore.Text.ScrapeText

/-!
# The same series in one text after another

Whoever reads the texts of two scrapes knows a series by the name and the
labels of its samples. A metric that is there for both has the same series in
both, whatever is done to it, and what only grows does not read as smaller,
although doubles are rounded in the text.
-/

namespace Promcore

/-- Rounding in the text makes no value smaller than one that was not greater. -/
theorem Double.shown_not_lt {x y : Double} (h : y.lt x = false) : y.shown.lt x.shown = false := by
  rcases x with _ | (_ | _) | x <;> rcases y with _ | (_ | _) | y <;> try exact h
  have hle : x ≤ y := by simpa [Double.lt] using h
  simpa [Double.shown, Double.lt] using printed_mono hle

namespace MetricKind

/-- No call changes the bounds of a histogram or the targets of a summary. -/
def Shape : (T : MetricKind) → T.Object → T.Object → Prop
  | .histogram, h, h' =>
      Promcore.Histogram.bucket_boundaries_ h' = Promcore.Histogram.bucket_boundaries_ h
  | .summary, s, s' => Promcore.Summary.quantiles_ s' = Promcore.Summary.quantiles_ s
  | _, _, _ => True

variable {T : MetricKind} {object object' object'' : T.Object}

theorem shape_refl (object : T.Object) : T.Shape object object := by
  cases T with
  | histogram => exact rfl
  | summary => exact rfl
  | _ => trivial

theorem shape_trans (h : T.Shape object object') (h' : T.Shape object' object'') :
    T.Shape object object'' := by
  cases T with
  | histogram => exact Eq.trans h' h
  | summary => exact Eq.trans h' h
  | _ => trivial

theorem shape_collect {clock : ℕ → ℤ} {collected : ClientMetric}
    (hcollect : T.collect object clock = some (object', collected)) : T.Shape object object' := by
  cases T with
  | histogram =>
      obtain ⟨metric, -, heq⟩ := Option.map_eq_some_iff.mp hcollect
      cases heq
      exact rfl
  | summary =>
      obtain ⟨values, -, heq⟩ := Option.bind_eq_some_iff.mp hcollect
      cases heq
      exact rfl
  | _ => trivial

theorem shape_step {event : T.Event} (hstep : T.step object event = some object') :
    T.Shape object object' := by
  cases event with
  | read clock =>
      obtain ⟨result, hcollect, rfl⟩ := Option.map_eq_some_iff.mp hstep
      exact shape_collect hcollect
  | call call =>
      cases T with
      | histogram =>
          cases hstep
          cases call with
          | observe value => exact rfl
          | observeMultiple bucket_increments sum_of_values =>
              change Promcore.Histogram.bucket_boundaries_
                (Promcore.Histogram.observeMultiple object bucket_increments sum_of_values).2 = _
              unfold Promcore.Histogram.observeMultiple
              split <;> rfl
          | reset => exact rfl
      | summary =>
          obtain ⟨values, -, heq⟩ := Option.bind_eq_some_iff.mp hstep
          cases heq
          exact rfl
      | _ => trivial

end MetricKind

/-- Two reports with the same labels, bounds and targets. -/
structure ClientMetric.SameShape (m m' : ClientMetric) : Prop where
  label : m'.label = m.label
  bounds : m'.histogram.bucket.map ClientMetric.Bucket.upper_bound =
    m.histogram.bucket.map ClientMetric.Bucket.upper_bound
  targets : m'.summary.quantile.map ClientMetric.Quantile.quantile =
    m.summary.quantile.map ClientMetric.Quantile.quantile

theorem Summary.collectQuantiles_targets {quantiles : List Quantile} {clock : ℕ → ℤ}
    {w w' : TimeWindowQuantiles (CKMSQuantiles ℚ)} {entries : List ClientMetric.Quantile}
    (h : collectQuantiles quantiles clock w = some (w', entries)) :
    entries.map ClientMetric.Quantile.quantile =
      quantiles.map fun quantile => .finite quantile.quantile := by
  induction quantiles generalizing clock w entries with
  | nil =>
      cases h
      rfl
  | cons quantile quantiles ih =>
      obtain ⟨⟨w₁, value⟩, -, hread⟩ := Option.bind_eq_some_iff.mp h
      obtain ⟨⟨w₂, rest⟩, hrest, heq⟩ := Option.bind_eq_some_iff.mp hread
      cases heq
      rw [List.map_cons, ih hrest, List.map_cons]

theorem MetricKind.Shape.reports {T : MetricKind} {object object' after after' : T.Object}
    (h : T.Shape object object') {clock clock' : ℕ → ℤ} {m m' : ClientMetric}
    (hcollect : T.collect object clock = some (after, m))
    (hcollect' : T.collect object' clock' = some (after', m'))
    (label : List ClientMetric.Label) :
    ClientMetric.SameShape { m with label } { m' with label } := by
  cases T with
  | histogram =>
      obtain ⟨metric, hmetric, heq⟩ := Option.map_eq_some_iff.mp hcollect
      obtain ⟨metric', hmetric', heq'⟩ := Option.map_eq_some_iff.mp hcollect'
      cases heq
      cases heq'
      have hbounds := (Promcore.Histogram.collect_upper_bounds hmetric).2
      have hbounds' := (Promcore.Histogram.collect_upper_bounds hmetric').2
      obtain ⟨counted, -, heq⟩ := Option.bind_eq_some_iff.mp hmetric
      obtain ⟨counted', -, heq'⟩ := Option.bind_eq_some_iff.mp hmetric'
      cases heq
      cases heq'
      exact ⟨rfl, hbounds'.trans ((congrArg (· ++ [Double.inf false]) h).trans hbounds.symm), rfl⟩
  | summary =>
      obtain ⟨⟨values, entries⟩, hentries, heq⟩ := Option.bind_eq_some_iff.mp hcollect
      obtain ⟨⟨values', entries'⟩, hentries', heq'⟩ := Option.bind_eq_some_iff.mp hcollect'
      cases heq
      cases heq'
      refine ⟨rfl, rfl, ?_⟩
      refine (Summary.collectQuantiles_targets hentries').trans ?_
      rw [Summary.collectQuantiles_targets hentries]
      exact congrArg (List.map _) h
  | _ =>
      cases hcollect
      cases hcollect'
      exact ⟨rfl, rfl, rfl⟩

namespace TextSerializer

open Registry

/-- What a series is known by. -/
def Sample.series (s : Sample) : Str × List ClientMetric.Label := (s.name, s.labels)

/-- The names of the samples that only grow, in a family of this name. -/
def cumulative (name : Str) : MetricKind → List Str
  | .counterDouble => [name]
  | .histogram => [name ++ "_count".toList, name ++ "_bucket".toList]
  | .summary => [name ++ "_count".toList]
  | _ => []

/-- A reader of numbers does not find the later sample smaller, if it has one of
these names. -/
def NotBelow (names : List Str) (s s' : Sample) : Prop :=
  s.name ∈ names → (readValue s'.value).lt (readValue s.value) = false

variable {name : Str} {m m' : ClientMetric}

theorem series_samplesUnder (h : m.SameShape m') (type : MetricType) :
    (samplesUnder name type m').map Sample.series =
      (samplesUnder name type m).map Sample.series := by
  obtain ⟨hlabel, hbounds, htargets⟩ := h
  have hmap {α : Type} {key : α → Double} {xs ys : List α} (hkeys : ys.map key = xs.map key)
      (series : Double → Str × List ClientMetric.Label) :
      (ys.map fun y => series (key y)) = xs.map fun x => series (key x) := by
    have hseries := congrArg (List.map series) hkeys
    rwa [List.map_map, List.map_map] at hseries
  cases type with
  | summary =>
      simp only [samplesUnder, metricSamples, List.map_append, List.map_cons, List.map_nil,
        List.map_map, Function.comp_def, Sample.series, sampleOf, hlabel]
      exact congrArg _ (hmap htargets fun quantile =>
        (name ++ [], m.label ++ [⟨"quantile".toList, writeValue quantile⟩]))
  | histogram =>
      simp only [samplesUnder, metricSamples, List.map_append, List.map_cons, List.map_nil,
        List.map_map, Function.comp_def, Sample.series, sampleOf, hlabel, hbounds]
      have hbuckets := hmap hbounds fun upper_bound =>
        (name ++ "_bucket".toList, m.label ++ [⟨"le".toList, writeValue upper_bound⟩])
      rw [hbuckets]
      split <;> rfl
  | _ => simp [samplesUnder, metricSamples, Sample.series, sampleOf, hlabel]

/-- A count that has not fallen. -/
theorem NotBelow.count {names : List Str} {s s' : Sample} {n n' : ℕ} (hs : s.value = natText n)
    (hs' : s'.value = natText n') (hle : n ≤ n') : NotBelow names s s' := by
  intro _
  rw [hs, hs', readValue_nat, readValue_nat]
  simpa [Double.lt] using hle

theorem NotBelow.other {names : List Str} {s s' : Sample} (hs : s.name ∉ names) :
    NotBelow names s s' := fun hmem => absurd hmem hs

theorem notBelow_samplesUnder {T : MetricKind} (hshape : m.SameShape m') (h : T.NotFalling m m') :
    List.Forall₂ (NotBelow (cumulative name T)) (samplesUnder name T.metricType m)
      (samplesUnder name T.metricType m') := by
  cases T with
  | counterDouble =>
      obtain ⟨x, y, hx, hy, hlt⟩ := h
      refine .cons (fun _ => ?_) .nil
      simp only [sampleOf, hx, hy, readValue_number]
      exact Double.shown_not_lt hlt
  | histogram =>
      have hbuckets : List.Forall₂ (NotBelow (cumulative name .histogram))
          (m.histogram.bucket.map fun b => sampleOf ⟨name, [], .histogram, []⟩ m "_bucket".toList
            [⟨"le".toList, writeValue b.upper_bound⟩] (natText b.cumulative_count))
          (m'.histogram.bucket.map fun b => sampleOf ⟨name, [], .histogram, []⟩ m' "_bucket".toList
            [⟨"le".toList, writeValue b.upper_bound⟩] (natText b.cumulative_count)) :=
        List.forall₂_map_left_iff.mpr (List.forall₂_map_right_iff.mpr
          (h.buckets.imp fun b b' hle => .count rfl rfl hle))
      refine .cons (.count rfl rfl h.total) (.cons (.other ?_) (List.rel_append hbuckets ?_))
      · simp [cumulative, sampleOf]
      · rw [hshape.bounds]
        split
        · exact .cons (.count rfl rfl h.total) .nil
        · exact .nil
  | summary =>
      refine .cons (.count rfl rfl h) (.cons (.other ?_) ?_)
      · simp [cumulative, sampleOf]
      · have hlength := congrArg List.length hshape.targets
        rw [List.length_map, List.length_map] at hlength
        refine List.forall₂_iff_get.mpr ⟨by simp [hlength], fun i hi hi' => .other ?_⟩
        simp [cumulative, sampleOf]
  | _ => exact .cons (.other List.not_mem_nil) .nil

theorem samples_infix {family : MetricFamily} {metric : ClientMetric}
    (hmetric : metric ∈ family.metric) :
    samplesUnder family.name family.type metric <:+: (exposed family).samples := by
  obtain ⟨before, after, hsplit⟩ := List.append_of_mem hmetric
  refine ⟨before.flatMap (samplesUnder family.name family.type),
    after.flatMap (samplesUnder family.name family.type), ?_⟩
  rw [exposed, samples_eq_samplesUnder, hsplit, List.flatMap_append, List.flatMap_cons,
    List.append_assoc]

/-- The samples of a metric have its labels first. -/
theorem samplesUnder_labels (name : Str) (type : MetricType) (m : ClientMetric) :
    samplesUnder name type m ≠ [] ∧ ∀ s ∈ samplesUnder name type m, m.label <+: s.labels := by
  constructor
  · cases type <;> exact List.cons_ne_nil _ _
  · intro s hs
    obtain ⟨suffix, -, extra, value, rfl, -⟩ := exists_of_mem_metricSamples hs
    exact List.prefix_append _ _

end TextSerializer

namespace Registry

open TextSerializer Simulation

/-- The texts of two scrapes, with any calls between them: a metric that is held
at the second one, and was not added since the first one, has the same series in
both, in the same order; and if it was not reset, none of those that only grow
reads as smaller in the second text. -/
theorem series_kept {mode : InsertBehavior} {r r₁ r₂ r₃ : Registry} (hr : Reachable mode r)
    (hr₂ : Reachable mode r₂) (hhelp : ∀ T, ∀ f ∈ r.getFamilies T, '\n' ∉ f.help_)
    (hhelp₂ : ∀ T, ∀ f ∈ r₂.getFamilies T, '\n' ∉ f.help_) {between : List Op}
    {clock clock' : ℕ → ℕ → ℕ → ℤ} {earlier later : List MetricFamily}
    (hearlier : r.collect clock = some (r₁, earlier)) (hbetween : between.foldlM apply r₁ = some r₂)
    (hlater : r₂.collect clock' = some (r₃, later)) (global global' : Locale) :
    ∃ told told', readExposition (Serializer.serialize global earlier) = some told ∧
      readExposition (Serializer.serialize global' later) = some told' ∧
      ∀ (T : MetricKind), ∀ f ∈ r₂.getFamilies T, ∀ entry ∈ f.metrics_,
        (∀ labels args, .addMetric T f.address labels entry.address args ∉ between) →
        ∃ e ∈ told, ∃ e' ∈ told', e.name = f.name_ ∧ e'.name = f.name_ ∧
          ∃ l l', l <:+: e.samples ∧ l' <:+: e'.samples ∧ l ≠ [] ∧
            (∀ s ∈ l, f.label entry.labels <+: s.labels) ∧
            l'.map Sample.series = l.map Sample.series ∧
            ((∀ call, T.reset = some call → .update T f.address entry.address call ∉ between) →
              List.Forall₂ (NotBelow (cumulative f.name_ T)) l l') := by
  refine ⟨earlier.map exposed, later.map exposed, readExposition_collect hr hhelp hearlier global,
    readExposition_collect hr₂ hhelp₂ hlater global', fun T f hf entry hentry hadd => ?_⟩
  have hrun : (Op.collect clock :: between).foldlM apply r = some r₂ := by
    rw [List.foldlM_cons, apply, hearlier]
    exact hbetween
  obtain ⟨f₀, hf₀, haddress, hname, hconstant, entry₀, hentry₀, hlabels, hmetric, hevents⟩ :=
    held_before hrun hf hentry fun labels args hmem => by
      cases hmem with
      | tail _ hmem => exact hadd labels args hmem
  have hshape : T.Shape entry₀.object entry.object := foldlM_related MetricKind.shape_refl
    MetricKind.shape_trans (fun _ _ _ _ hstep => MetricKind.shape_step hstep) hevents
  obtain ⟨report, hreport, hreported, htype, metric, hmem, after, collected, hcollected, rfl⟩ :=
    exists_report hearlier hf₀ hentry₀
  obtain ⟨report', hreport', hreported', htype', metric', hmem', after', collected', hcollected',
    rfl⟩ := exists_report hlater hf hentry
  have hlabel : f₀.label entry₀.labels = f.label entry.labels := by
    rw [Family.label, Family.label, hconstant, hlabels]
  rw [hname] at hreported
  rw [hlabel] at hmem
  have hsame := hshape.reports hcollected hcollected' (f.label entry.labels)
  have hinfix := samples_infix hmem
  have hinfix' := samples_infix hmem'
  rw [hreported, htype] at hinfix
  rw [hreported', htype'] at hinfix'
  obtain ⟨hne, hprefix⟩ := samplesUnder_labels f.name_ T.metricType
    { collected with label := f.label entry.labels }
  refine ⟨exposed report, List.mem_map_of_mem hreport, exposed report',
    List.mem_map_of_mem hreport', hreported, hreported', _, _, hinfix, hinfix', hne, hprefix,
    series_samplesUnder hsame T.metricType, fun hreset => notBelow_samplesUnder hsame ?_⟩
  have hrises : T.Rises entry₀.object entry.object :=
    foldlM_related MetricKind.rises_refl MetricKind.rises_trans
      (fun event hevent _ _ hstep => MetricKind.rises_step (event_ne_reset hreset hevent) hstep)
      hevents
  exact (hrises.notFalling hcollected hcollected').withLabels _ _

/-- The label of the requests that went well. -/
def codeLabels : Labels := ⟨[("code".toList, "200".toList)], by decide⟩

/-- The counter of requests, before and after one more. -/
theorem series_kept_requests : ∃ (r r₁ r₂ r₃ : Registry) (earlier later : List MetricFamily)
    (told told' : List Exposed), r.collect (fun _ _ _ => 0) = some (r₁, earlier) ∧
      r₁.apply (.update .counterDouble 1 10 CounterType.Call.increment) = some r₂ ∧
      r₂.collect (fun _ _ _ => 0) = some (r₃, later) ∧
      readExposition (Serializer.serialize ⟨'.', ',', []⟩ earlier) = some told ∧
      readExposition (Serializer.serialize ⟨',', '.', [3]⟩ later) = some told' ∧
      ∃ e ∈ told, ∃ e' ∈ told', e.name = "requests".toList ∧ e'.name = "requests".toList ∧
        ∃ l l', l <:+: e.samples ∧ l' <:+: e'.samples ∧ l ≠ [] ∧
          (∀ s ∈ l, [⟨"code".toList, "200".toList⟩] <+: s.labels) ∧
          l'.map Sample.series = l.map Sample.series ∧
          List.Forall₂ (NotBelow ["requests".toList]) l l' := by
  have hrun : ∃ r₀ r r₁ r₂ r₃ earlier later, (new .merge).apply (.register .counterDouble 1
      "requests".toList [] ⟨[], Labels.sorted_nil⟩) = some r₀ ∧
      r₀.apply (.addMetric .counterDouble 1 codeLabels 10 ()) = some r ∧
      r.collect (fun _ _ _ => 0) = some (r₁, earlier) ∧
      r₁.apply (.update .counterDouble 1 10 CounterType.Call.increment) = some r₂ ∧
      r₂.collect (fun _ _ _ => 0) = some (r₃, later) ∧
      (∀ T, ∀ f ∈ r.getFamilies T, '\n' ∉ f.help_) ∧ (∀ T, ∀ f ∈ r₂.getFamilies T, '\n' ∉ f.help_) ∧
      ∃ f ∈ r₂.getFamilies .counterDouble, f.address = 1 ∧ f.name_ = "requests".toList ∧
        ∃ entry ∈ f.metrics_, entry.address = 10 ∧
          f.label entry.labels = [⟨"code".toList, "200".toList⟩] := by
    refine ⟨_, _, _, _, _, _, _, rfl, rfl, rfl, rfl, rfl, ?_, ?_, _,
      List.mem_singleton_self _, rfl, rfl, _, List.mem_singleton_self _, rfl, rfl⟩
    all_goals
      exact forall_only_family (P := fun _ f => '\n' ∉ f.help_) (T := .counterDouble)
        List.not_mem_nil
  obtain ⟨r₀, r, r₁, r₂, r₃, earlier, later, hregister, hadd, hearlier, hupdate, hlater, hhelp,
    hhelp₂, f, hf, haddress, hname, entry, hentry, hmetric, hlabel⟩ := hrun
  have hr : Reachable .merge r := Reachable.first_metric hregister hadd
  have hcollect : r.apply (.collect fun _ _ _ => 0) = some r₁ := by
    rw [apply, hearlier]
    rfl
  have hr₁ : Reachable .merge r₁ := by
    apply hr.step _ hcollect
    exact trivial
  have hr₂ : Reachable .merge r₂ := by
    apply hr₁.step _ hupdate
    exact trivial
  have hbetween : [Op.update .counterDouble 1 10 CounterType.Call.increment].foldlM apply r₁ =
      some r₂ := by
    rw [List.foldlM_cons, hupdate]
    rfl
  obtain ⟨told, told', htold, htold', hseries⟩ := series_kept hr hr₂ hhelp hhelp₂ hearlier hbetween
    hlater ⟨'.', ',', []⟩ ⟨',', '.', [3]⟩
  obtain ⟨e, he, e', he', hename, hename', l, l', hl, hl', hne, hprefix, hsame, hnot⟩ :=
    hseries .counterDouble f hf entry hentry fun labels args hmem => by
      cases List.mem_singleton.mp hmem
  have hbelow := hnot fun call hcall hmem => by
    obtain ⟨-, -, -, hsame⟩ := Op.update.inj (List.mem_singleton.mp hmem)
    cases hcall
    cases hsame
  rw [hname] at hename hename' hbelow
  rw [hlabel] at hprefix
  exact ⟨r, r₁, r₂, r₃, earlier, later, told, told', hearlier, hupdate, hlater, htold, htold', e,
    he, e', he', hename, hename', l, l', hl, hl', hne, hprefix, hsame, hbelow⟩

end Registry

end Promcore
