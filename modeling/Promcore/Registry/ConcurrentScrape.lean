import Promcore.Library.LabelledSteps
import Promcore.Registry.Scrape

/-!
# Scrapes while other threads go on

`Registry::Collect` holds the lock of the registry until it returns, and the
lock of one family after the other. Meanwhile the other threads add and remove
metrics of the families that are not being read, and change any metric. A
scrape is then no snapshot of the registry. It still reports every family
once, with the label sets of one moment, and for each of them what its metric
was at some moment.
-/

namespace Promcore

/-- The family with the object at a place as it is after a read of it. -/
def Family.store {T : MetricKind} (f : Family T) (i : ℕ) (object : T.Object) : Family T :=
  { f with metrics_ := f.metrics_.modify i fun entry => { entry with object } }

theorem Family.keys_store {T : MetricKind} (f : Family T) (i : ℕ) (object : T.Object) :
    (f.store i object).keys = f.keys := by
  apply List.ext_getElem?
  intro j
  simp only [keys, store, List.getElem?_map, List.getElem?_modify]
  cases f.metrics_[j]? <;> split <;> rfl

namespace Registry

open LabelledSteps Simulation

/-- What nothing changes of a family that is held. -/
def headOf (held : Σ T, Family T) : MetricKind × ℕ × Str × Str × Labels :=
  (held.1, held.2.address, held.2.name_, held.2.help_, held.2.constant_labels_)

/-- The locals of a `Collect` that has taken the lock: how many families have
been visited, the metrics read so far of the one whose lock is held, and the
reports. -/
structure Scrape where
  next : ℕ
  current : Option (List ClientMetric)
  results : List MetricFamily

/-- The registry, and the call of `Collect` that holds its lock. -/
structure Shared where
  registry : Registry
  scrape : Option Scrape

/-- The address of the family whose lock the scrape holds. -/
def Shared.lockedFamily (s : Shared) : Option ℕ := do
  let scrape ← s.scrape
  let _ ← scrape.current
  let held ← s.registry.families[scrape.next]?
  return held.2.address

/-- Calls of other threads that find their lock free; a scrape is not one call
here. -/
def Shared.Allows (s : Shared) : Op → Prop
  | .register _ _ _ _ _ => s.scrape = none
  | .remove _ _ => s.scrape = none
  | .addMetric _ family _ _ _ => s.lockedFamily ≠ some family
  | .removeMetric _ family _ => s.lockedFamily ≠ some family
  | .update _ _ _ _ => True
  | .collect _ => False

/-- One step of a scrape, or one call of another thread. A step that ends a
scrape shows the reports. -/
inductive Step : Shared → Option (List MetricFamily) → Shared → Prop
  | call {s : Shared} {op : Op} {r' : Registry} (hallows : s.Allows op)
      (hfresh : s.registry.Fresh op) (happly : s.registry.apply op = some r') :
      Step s none { s with registry := r' }
  | begin {r : Registry} : Step ⟨r, none⟩ none ⟨r, some ⟨0, none, []⟩⟩
  | skip {r : Registry} {next : ℕ} {results : List MetricFamily} {held : Σ T, Family T}
      (hheld : r.families[next]? = some held) (hempty : held.2.metrics_.isEmpty = true) :
      Step ⟨r, some ⟨next, none, results⟩⟩ none ⟨r, some ⟨next + 1, none, results⟩⟩
  | enter {r : Registry} {next : ℕ} {results : List MetricFamily} {held : Σ T, Family T}
      (hheld : r.families[next]? = some held) (hempty : held.2.metrics_.isEmpty = false) :
      Step ⟨r, some ⟨next, none, results⟩⟩ none ⟨r, some ⟨next, some [], results⟩⟩
  | read {r r' : Registry} {next : ℕ} {collected : List ClientMetric} {results : List MetricFamily}
      {T : MetricKind} {f : Family T} {entry entry' : Entry T} {clock : ℕ → ℤ}
      {metric : ClientMetric} (hheld : r.families[next]? = some ⟨T, f⟩)
      (hentry : f.metrics_[collected.length]? = some entry)
      (hmetric : f.collectMetric entry clock = some (entry', metric))
      (hr' : r.onFamily T f.address (fun g => some (g.store collected.length entry'.object)) =
        some r') :
      Step ⟨r, some ⟨next, some collected, results⟩⟩ none
        ⟨r', some ⟨next, some (collected ++ [metric]), results⟩⟩
  | leave {r : Registry} {next : ℕ} {collected : List ClientMetric} {results : List MetricFamily}
      {T : MetricKind} {f : Family T} (hheld : r.families[next]? = some ⟨T, f⟩)
      (hall : collected.length = f.metrics_.length) :
      Step ⟨r, some ⟨next, some collected, results⟩⟩ none
        ⟨r, some ⟨next + 1, none, results ++
          [{ name := f.name_, help := f.help_, type := T.metricType, metric := collected }]⟩⟩
  | finish {r : Registry} {results : List MetricFamily} :
      Step ⟨r, some ⟨r.families.length, none, results⟩⟩ (some results) ⟨r, none⟩

/-- A run up to the middle of a scrape, with the registries since it began. -/
inductive Scraping (mode : InsertBehavior) : List Registry → Shared → Prop
  | begin {seen : List (List MetricFamily)} {r : Registry}
      (h : Steps Step ⟨new mode, none⟩ seen ⟨r, none⟩) :
      Scraping mode [r] ⟨r, some ⟨0, none, []⟩⟩
  | step {visited : List Registry} {s s' : Shared} (h : Scraping mode visited s)
      (hstep : Step s none s') : Scraping mode (visited ++ [s'.registry]) s'

/-- The metric stored under a key is collected as it is at one of the moments. -/
def CollectedDuring (visited : List Registry) (held : Σ T, Family T) (key : Labels × ℕ)
    (metric : ClientMetric) : Prop :=
  ∃ r ∈ visited, ∃ held' ∈ r.families, headOf held' = headOf held ∧
    ∃ entry ∈ held'.2.metrics_, (entry.labels, entry.address) = key ∧
      ∃ clock entry', held'.2.collectMetric entry clock = some (entry', metric)

/-- A report of a family, whose metrics are those of some moments. -/
structure ReportsDuring (visited : List Registry) (held : Σ T, Family T) (result : MetricFamily) :
    Prop where
  reports : Reports held result
  metrics : List.Forall₂ (CollectedDuring visited held) held.2.keys result.metric

section Steps

variable {r r' : Registry} {s s' : Shared} {c : Scrape}

/-- What a scrape relies on: different names and addresses, and sound label
sets. -/
structure Sound (r : Registry) : Prop where
  wellformed : r.Wellformed
  labels : ∀ T, ∀ f ∈ r.getFamilies T, f.LabelsSound

theorem sound_new (mode : InsertBehavior) : (new mode).Sound where
  wellformed := Reachable.new.wellformed
  labels _ _ hf := Reachable.new.labelsSound hf

theorem Sound.apply (h : r.Sound) {op : Op} (hfresh : r.Fresh op) (happly : r.apply op = some r') :
    r'.Sound where
  wellformed := h.wellformed.step hfresh happly
  labels := by
    refine forall_families_apply (P := fun _ f => f.LabelsSound) ?_ ?_ happly h.labels
    · intro T f hempty
      exact ⟨by simp [Family.labelSets, hempty], by simp [Family.labelSets, hempty]⟩
    · exact fun T f f' hstep hsound => hsound.step hstep

/-- What a step leaves of a family while its lock is held: all but the objects. -/
def SameShape (held held' : Σ T, Family T) : Prop :=
  headOf held' = headOf held ∧ held'.2.keys = held.2.keys

theorem SameShape.labelsSound {T : MetricKind} {f f' : Family T}
    (h : SameShape ⟨T, f⟩ ⟨T, f'⟩) (hsound : f.LabelsSound) : f'.LabelsSound := by
  have hsets : f'.labelSets = f.labelSets := by
    rw [← f'.keys_map_fst, ← f.keys_map_fst]
    exact congrArg _ h.2
  have hconstant : f'.constant_labels_ = f.constant_labels_ :=
    congrArg (fun head => head.2.2.2.2) h.1
  refine ⟨hsets ▸ hsound.distinct, fun labels hlabels => ?_⟩
  have haccepted := hsound.accepted labels (hsets ▸ hlabels)
  simpa only [Family.Accepts, hconstant] using haccepted

theorem Sound.congr (h : r.Sound)
    (hshape : ∀ T, List.Forall₂ (fun f f' => SameShape ⟨T, f⟩ ⟨T, f'⟩) (r.getFamilies T)
      (r'.getFamilies T)) : r'.Sound where
  wellformed := by
    constructor
    · refine h.wellformed.names.congr fun T => map_eq_of_forall₂ ((hshape T).imp ?_)
      exact fun f f' hf => congrArg (fun head => head.2.2.1) hf.1
    · refine h.wellformed.addresses.congr fun T => map_eq_of_forall₂ ((hshape T).imp ?_)
      exact fun f f' hf => congrArg (fun head => head.2.1) hf.1
  labels T f' hf' := by
    obtain ⟨f, hf, hsame⟩ := exists_of_mem_forall₂ (hshape T) hf'
    exact hsame.labelsSound (h.labels T f hf)

theorem store_shape {T : MetricKind} {family i : ℕ} {object : T.Object} {held held' : Σ T, Family T}
    (h : Called T family (fun g => some (g.store i object)) held held') : SameShape held held' := by
  cases h with
  | elsewhere _ => exact ⟨rfl, rfl⟩
  | @called f f' haddress hcall =>
      obtain rfl := Option.some.inj hcall
      exact ⟨rfl, f.keys_store i object⟩

theorem Step.sound (hstep : Step s none s') (h : s.registry.Sound) : s'.registry.Sound := by
  cases hstep with
  | call hallows hfresh happly => exact h.apply hfresh happly
  | read hheld hentry hmetric hr' =>
      exact h.congr fun T => (onFamily_called hr' T).imp fun f f' hcalled => store_shape hcalled
  | _ => exact h

/-- A family in the middle of a scrape and after one more step: its head stays,
and its label sets if it is the one whose lock the scrape holds. -/
def Kept (lockedFamily : Option ℕ) (held held' : Σ T, Family T) : Prop :=
  headOf held' = headOf held ∧ (lockedFamily = some held.2.address → held'.2.keys = held.2.keys)

theorem kept_of_called {T : MetricKind} {family : ℕ} {call : Family T → Option (Family T)}
    (h : r.onFamily T family call = some r') {lockedFamily : Option ℕ}
    (hcall : ∀ f f', call f = some f' → FamilyStep f f' ∧
      (lockedFamily = some family → f'.keys = f.keys)) :
    List.Forall₂ (Kept lockedFamily) r.families r'.families := by
  refine families_forall₂ fun T' => (onFamily_called h T').imp fun f f' hcalled => ?_
  generalize (⟨T', f⟩ : Σ T, Family T) = held at hcalled
  generalize (⟨T', f'⟩ : Σ T, Family T) = held' at hcalled
  cases hcalled with
  | elsewhere _ => exact ⟨rfl, fun _ => rfl⟩
  | called haddress hf =>
      obtain ⟨hstep, hkeys⟩ := hcall _ _ hf
      obtain ⟨haddress', hname, hhelp, hconstant⟩ := hstep.same_head
      refine ⟨?_, fun hlocked => hkeys (haddress ▸ hlocked)⟩
      rw [headOf, headOf]
      simp only [haddress', hname, hhelp, hconstant]

/-- Whatever happens in the middle of a scrape, no family comes or goes. -/
theorem Step.kept (hstep : Step s none s') (hs : s.scrape = some c) :
    List.Forall₂ (Kept s.lockedFamily) s.registry.families s'.registry.families := by
  have hsame (r : Registry) (locked : Option ℕ) : List.Forall₂ (Kept locked) r.families r.families :=
    List.forall₂_same.mpr fun _ _ => ⟨rfl, fun _ => rfl⟩
  cases hstep with
  | @call s op r' hallows hfresh happly =>
      cases op with
      | register | remove => exact absurd (hallows.symm.trans hs) (Option.some_ne_none c).symm
      | addMetric T family labels address args =>
          refine kept_of_called happly fun f f' hcall => ?_
          obtain ⟨⟨result, _⟩, hadd, rfl⟩ := Option.map_eq_some_iff.mp hcall
          exact ⟨.add hadd, fun hlocked => absurd hlocked hallows⟩
      | removeMetric T family metric =>
          refine kept_of_called happly fun f f' hcall => ?_
          obtain rfl := Option.some.inj hcall
          exact ⟨.remove f metric, fun hlocked => absurd hlocked hallows⟩
      | update T family metric call =>
          exact kept_of_called happly fun f f' hcall =>
            ⟨.update hcall, fun _ => Family.update_keys hcall⟩
      | collect clock => exact hallows.elim
  | read hheld hentry hmetric hr' =>
      refine families_forall₂ fun T => (onFamily_called hr' T).imp fun f f' hcalled => ?_
      exact ⟨(store_shape hcalled).1, fun _ => (store_shape hcalled).2⟩
  | _ => exact hsame _ _

end Steps

section Progress

theorem CollectedDuring.mono {visited visited' : List Registry} (hsub : visited ⊆ visited')
    {held : Σ T, Family T} {key : Labels × ℕ} {metric : ClientMetric}
    (h : CollectedDuring visited held key metric) : CollectedDuring visited' held key metric := by
  obtain ⟨r, hr, hmoment⟩ := h
  exact ⟨r, hsub hr, hmoment⟩

theorem ReportsDuring.mono {visited visited' : List Registry} (hsub : visited ⊆ visited')
    {held : Σ T, Family T} {result : MetricFamily} (h : ReportsDuring visited held result) :
    ReportsDuring visited' held result :=
  ⟨h.reports, h.metrics.imp fun _ _ hmetric => hmetric.mono hsub⟩

/-- The metrics read so far of a family that was not empty when it was entered. -/
structure Reading (visited : List Registry) (r : Registry) (next : ℕ)
    (collected : List ClientMetric) (held entered : Σ T, Family T) : Prop where
  place : r.families[next]? = some held
  moment : ∃ r ∈ visited, entered ∈ r.families
  shape : SameShape entered held
  nonempty : entered.2.metrics_.isEmpty = false
  labels : entered.2.LabelsSound
  metrics : List.Forall₂ (CollectedDuring visited entered)
    (entered.2.keys.take collected.length) collected

/-- Where a scrape is: `done` are the families visited, each as it was when it
was entered or found empty. -/
structure Progress (visited : List Registry) (r : Registry) (c : Scrape)
    (done : List (Σ T, Family T)) : Prop where
  here : r ∈ visited
  heads : ∀ r' ∈ visited, r'.families.map headOf = r.families.map headOf
  done_heads : done.map headOf = (r.families.take c.next).map headOf
  moments : ∀ held ∈ done, ∃ r ∈ visited, held ∈ r.families
  results : List.Forall₂ (ReportsDuring visited)
    (done.filter fun held => !held.2.metrics_.isEmpty) c.results
  reading : ∀ collected, c.current = some collected →
    ∃ held entered, Reading visited r c.next collected held entered

variable {visited : List Registry} {r r' : Registry} {c : Scrape} {done : List (Σ T, Family T)}
  {next : ℕ} {results : List MetricFamily} {collected : List ClientMetric} {T : MetricKind}
  {f : Family T} {held entered : Σ T, Family T}

theorem Reading.mono {visited' : List Registry} (hsub : visited ⊆ visited')
    (h : Reading visited r next collected held entered) :
    Reading visited' r next collected held entered := by
  obtain ⟨r₀, hr₀, hentered⟩ := h.moment
  exact { h with
    moment := ⟨r₀, hsub hr₀, hentered⟩
    metrics := h.metrics.imp fun _ _ hmetric => hmetric.mono hsub }

theorem progress_begin (r : Registry) : Progress [r] r ⟨0, none, []⟩ [] where
  here := List.mem_singleton_self r
  heads r' hr' := by rw [List.mem_singleton.mp hr']
  done_heads := rfl
  moments _ hheld := absurd hheld List.not_mem_nil
  results := .nil
  reading _ hcurrent := absurd hcurrent.symm (Option.some_ne_none _)

/-- The registry moves on under the scrape. -/
theorem Progress.moved (h : Progress visited r c done)
    (hkept : List.Forall₂ (Kept (Shared.lockedFamily ⟨r, some c⟩)) r.families r'.families) :
    Progress (visited ++ [r']) r' c done := by
  have hsub : visited ⊆ visited ++ [r'] := List.subset_append_left _ _
  have hheads : r'.families.map headOf = r.families.map headOf :=
    map_eq_of_forall₂ (hkept.imp fun _ _ h => h.1)
  constructor
  · simp
  · intro r₀ hr₀
    rcases List.mem_append.mp hr₀ with hr₀ | hr₀
    · exact (h.heads r₀ hr₀).trans hheads.symm
    · rw [List.mem_singleton.mp hr₀]
  · rw [h.done_heads, List.map_take, List.map_take, hheads]
  · intro held hheld
    obtain ⟨r₀, hr₀, hmem⟩ := h.moments held hheld
    exact ⟨r₀, hsub hr₀, hmem⟩
  · exact h.results.imp fun _ _ hreports => hreports.mono hsub
  · intro collected hcurrent
    obtain ⟨held, entered, hreading⟩ := h.reading collected hcurrent
    have hlocked : Shared.lockedFamily ⟨r, some c⟩ = some held.2.address := by
      simp [Shared.lockedFamily, hcurrent, hreading.place]
    obtain ⟨hnext, rfl⟩ := List.getElem?_eq_some_iff.mp hreading.place
    have hlt : c.next < r'.families.length := hkept.length_eq ▸ hnext
    have hpair := (List.forall₂_iff_get.mp hkept).2 c.next hnext hlt
    refine ⟨r'.families[c.next], entered, { hreading.mono hsub with
      place := List.getElem?_eq_getElem hlt
      shape := ⟨hpair.1.trans hreading.shape.1, (hpair.2 hlocked).trans hreading.shape.2⟩ }⟩

theorem take_succ_of_getElem? {α β : Type*} (key : α → β) {xs : List α} {i : ℕ} {x : α}
    (h : xs[i]? = some x) : (xs.take (i + 1)).map key = (xs.take i).map key ++ [key x] := by
  obtain ⟨hi, rfl⟩ := List.getElem?_eq_some_iff.mp h
  rw [List.take_succ_eq_append_getElem hi, List.map_append, List.map_singleton]

/-- An empty family is passed over. -/
theorem Progress.skip (h : Progress visited r ⟨next, none, results⟩ done)
    (hheld : r.families[next]? = some held) (hempty : held.2.metrics_.isEmpty = true) :
    Progress visited r ⟨next + 1, none, results⟩ (done ++ [held]) where
  here := h.here
  heads := h.heads
  done_heads := by rw [List.map_append, h.done_heads, take_succ_of_getElem? headOf hheld]; rfl
  moments := by
    intro held' hheld'
    rcases List.mem_append.mp hheld' with hheld' | hheld'
    · exact h.moments held' hheld'
    · rw [List.mem_singleton.mp hheld']
      exact ⟨r, h.here, List.mem_of_getElem? hheld⟩
  results := by simpa [List.filter_append, hempty] using h.results
  reading _ hcurrent := absurd hcurrent.symm (Option.some_ne_none _)

theorem Progress.enter (h : Progress visited r ⟨next, none, results⟩ done) (hsound : r.Sound)
    (hheld : r.families[next]? = some ⟨T, f⟩) (hempty : f.metrics_.isEmpty = false) :
    Progress visited r ⟨next, some [], results⟩ done where
  here := h.here
  heads := h.heads
  done_heads := h.done_heads
  moments := h.moments
  results := h.results
  reading collected hcurrent := by
    obtain rfl := Option.some.inj hcurrent
    have hmem := List.mem_of_getElem? hheld
    exact ⟨⟨T, f⟩, ⟨T, f⟩, hheld, ⟨r, h.here, hmem⟩, ⟨rfl, rfl⟩, hempty,
      hsound.labels T f (mem_families_iff.mp hmem), .nil⟩

theorem Progress.read (h : Progress visited r ⟨next, some collected, results⟩ done)
    {entry entry' : Entry T} {clock : ℕ → ℤ} {metric : ClientMetric}
    (hheld : r.families[next]? = some ⟨T, f⟩)
    (hentry : f.metrics_[collected.length]? = some entry)
    (hmetric : f.collectMetric entry clock = some (entry', metric)) :
    Progress visited r ⟨next, some (collected ++ [metric]), results⟩ done where
  here := h.here
  heads := h.heads
  done_heads := h.done_heads
  moments := h.moments
  results := h.results
  reading collected' hcurrent := by
    obtain rfl := Option.some.inj hcurrent
    obtain ⟨held, entered, hreading⟩ := h.reading collected rfl
    obtain rfl := Option.some.inj (hreading.place.symm.trans hheld)
    refine ⟨⟨T, f⟩, entered, { hreading with metrics := ?_ }⟩
    have hkey : entered.2.keys[collected.length]? = some (entry.labels, entry.address) := by
      rw [← hreading.shape.2]
      simp [Family.keys, hentry]
    have htake := take_succ_of_getElem? id hkey
    rw [List.map_id, List.map_id] at htake
    rw [List.length_append, List.length_singleton, htake]
    exact List.rel_append hreading.metrics <| .cons ⟨r, h.here, _, List.mem_of_getElem? hheld,
      hreading.shape.1, entry, List.mem_of_getElem? hentry, rfl, clock, entry', hmetric⟩ .nil

/-- What was collected at any of the moments has the labels it is stored under. -/
theorem CollectedDuring.label {key : Labels × ℕ} {metric : ClientMetric}
    (h : CollectedDuring visited ⟨T, f⟩ key metric) : metric.label = f.label key.1 := by
  obtain ⟨r, -, held', -, hhead, entry, -, rfl, clock, entry', hmetric⟩ := h
  have hconstant : held'.2.constant_labels_ = f.constant_labels_ :=
    congrArg (fun head => head.2.2.2.2) hhead
  rw [Family.collectMetric_label hmetric, Family.label, Family.label, hconstant]

theorem Reading.reports {f' : Family T} (h : Reading visited r next collected ⟨T, f⟩ ⟨T, f'⟩)
    (hall : collected.length = f.metrics_.length) :
    ReportsDuring visited ⟨T, f'⟩
      { name := f.name_, help := f.help_, type := T.metricType, metric := collected } := by
  have hlength : f'.keys.length = collected.length := by
    rw [hall, ← h.shape.2, Family.keys, List.length_map]
  have hmetrics := h.metrics
  rw [← hlength, List.take_length] at hmetrics
  have hlabels : collected.map ClientMetric.label = f'.labelSets.map f'.label := by
    rw [← f'.keys_map_fst, List.map_map]
    exact map_eq_of_forall₂ (hmetrics.imp fun key metric hmetric => hmetric.label)
  have hname : f.name_ = f'.name_ := congrArg (fun head => head.2.2.1) h.shape.1
  have hhelp : f.help_ = f'.help_ := congrArg (fun head => head.2.2.2.1) h.shape.1
  rw [hname, hhelp]
  exact ⟨Family.reports_of_labels h.labels hlabels, hmetrics⟩

theorem Progress.leave (h : Progress visited r ⟨next, some collected, results⟩ done)
    (hheld : r.families[next]? = some ⟨T, f⟩) (hall : collected.length = f.metrics_.length) :
    ∃ done', Progress visited r ⟨next + 1, none, results ++
      [{ name := f.name_, help := f.help_, type := T.metricType, metric := collected }]⟩ done' := by
  obtain ⟨held, entered, hreading⟩ := h.reading collected rfl
  obtain rfl := Option.some.inj (hreading.place.symm.trans hheld)
  obtain ⟨T', f'⟩ := entered
  obtain rfl : T = T' := congrArg Prod.fst hreading.shape.1
  refine ⟨done ++ [⟨T, f'⟩], h.here, h.heads, ?_, ?_, ?_, ?_⟩
  · rw [List.map_append, h.done_heads, take_succ_of_getElem? headOf hheld, hreading.shape.1]
    rfl
  · intro held hheld
    rcases List.mem_append.mp hheld with hheld | hheld
    · exact h.moments held hheld
    · rw [List.mem_singleton.mp hheld]
      exact hreading.moment
  · have hnonempty : f'.metrics_.isEmpty = false := hreading.nonempty
    rw [List.filter_append, List.filter_cons_of_pos (by simp [hnonempty]), List.filter_nil]
    exact List.rel_append h.results (.cons (hreading.reports hall) .nil)
  · exact fun _ hcurrent => absurd hcurrent.symm (Option.some_ne_none _)

end Progress

section Runs

variable {mode : InsertBehavior} {visited : List Registry} {s s' : Shared} {c : Scrape}
  {done : List (Σ T, Family T)} {results : List MetricFamily}

/-- One step of the scrape or of another thread takes it to the next place. -/
theorem Progress.step (h : Progress visited s.registry c done) (hs : s.scrape = some c)
    (hsound : s.registry.Sound) (hstep : Step s none s') :
    ∃ c' done', s'.scrape = some c' ∧ Progress (visited ++ [s'.registry]) s'.registry c' done' := by
  have hkept := hstep.kept hs
  obtain ⟨r, scrape⟩ := s
  obtain rfl : scrape = some c := hs
  cases hstep with
  | call => exact ⟨c, done, rfl, h.moved hkept⟩
  | skip hheld hempty => exact ⟨_, _, rfl, (h.moved hkept).skip hheld hempty⟩
  | @enter _ _ _ held hheld hempty =>
      exact ⟨_, _, rfl, (h.moved hkept).enter hsound (T := held.1) (f := held.2) hheld hempty⟩
  | read hheld hentry hmetric hr' =>
      exact ⟨_, _, rfl, (h.read hheld hentry hmetric).moved hkept⟩
  | leave hheld hall =>
      obtain ⟨done', hdone⟩ := (h.moved hkept).leave hheld hall
      exact ⟨_, done', rfl, hdone⟩

theorem sound_of_steps {seen : List (List MetricFamily)}
    (h : Steps Step ⟨new mode, none⟩ seen s) : s.registry.Sound := by
  have hrun := h.invariant (P := fun s _ => s.registry.Sound)
    (fun s results s' _ hstep hs => by
      cases hstep
      exact hs)
    (fun s s' _ hstep hs => hstep.sound hs) [] (sound_new mode)
  exact hrun

theorem Scraping.progress (h : Scraping mode visited s) :
    s.registry.Sound ∧ ∃ c done, s.scrape = some c ∧ Progress visited s.registry c done := by
  induction h with
  | begin h =>
      have hsound := sound_of_steps h
      exact ⟨hsound, _, _, rfl, progress_begin _⟩
  | step _ hstep ih =>
      obtain ⟨hsound, c, done, hs, hprogress⟩ := ih
      exact ⟨hstep.sound hsound, hprogress.step hs hsound hstep⟩

/-- However the calls of other threads fall between the steps of a scrape, the
families held while it takes place are always the same. Each of them that had a
metric is reported exactly once, under a name of its own, with the label sets
that it had at one moment of the scrape, each of them once; and each metric
reported is what the object stored under its labels was at some moment. -/
theorem concurrent_scrape (h : Scraping mode visited s) (hfinish : Step s (some results) s') :
    (results.map MetricFamily.name).Nodup ∧ ∃ held : List (Σ T, Family T),
      (∀ r ∈ visited, r.families.map headOf = held.map headOf) ∧
      (∀ family ∈ held, ∃ r ∈ visited, family ∈ r.families) ∧
      List.Forall₂ (ReportsDuring visited)
        (held.filter fun family => !family.2.metrics_.isEmpty) results := by
  obtain ⟨hsound, c, done, hs, hprogress⟩ := h.progress
  cases hfinish with
  | @finish r results =>
      obtain rfl := Option.some.inj hs
      have hheads : done.map headOf = r.families.map headOf := by
        rw [hprogress.done_heads, List.take_length]
      refine ⟨?_, done, fun r' hr' => (hprogress.heads r' hr').trans hheads.symm,
        hprogress.moments, hprogress.results⟩
      have hnames : results.map MetricFamily.name =
          (done.filter fun held => !held.2.metrics_.isEmpty).map fun held => held.2.name_ :=
        map_eq_of_forall₂ (hprogress.results.imp fun _ _ h => h.reports.name)
      have hall : (done.map fun held => held.2.name_).Nodup := by
        have hsame := congrArg (List.map fun head => head.2.2.1) hheads
        rw [List.map_map, List.map_map] at hsame
        have hnodup : (kinds.flatMap fun T => (r.getFamilies T).map Family.name_).Nodup :=
          hsound.wellformed.names.nodup (by decide)
        have hnodup : (r.families.map fun held => held.2.name_).Nodup := by
          simpa only [families, List.map_flatMap, List.map_map, Function.comp_def] using hnodup
        exact hsame ▸ hnodup
      rw [hnames]
      exact hall.sublist (List.filter_sublist.map _)

/-- A call while there is no scrape. -/
theorem Step.call_of_free {r r' : Registry} (op : Op) (hallows : Shared.Allows ⟨r, none⟩ op)
    (hfresh : r.Fresh op) (happly : r.apply op = some r') : Step ⟨r, none⟩ none ⟨r', none⟩ :=
  .call (s := ⟨r, none⟩) hallows hfresh happly

/-- Families of counters, of which the second one may be missing. -/
def counters (a : List (Entry .counterInt)) (b : Option (List (Entry .counterInt))) : Registry :=
  { new .merge with
    countersInt_ := ⟨1, a, "a".toList, [], ⟨[], Labels.sorted_nil⟩, rfl, by decide⟩ ::
      b.toList.map fun b => ⟨2, b, "b".toList, [], ⟨[], Labels.sorted_nil⟩, rfl, by decide⟩ }

def counter (address : ℕ) (value : Int64) : Entry .counterInt :=
  ⟨⟨[], Labels.sorted_nil⟩, address, (⟨⟨value⟩⟩ : CounterType Int64)⟩

theorem counters_reached :
    Steps Step ⟨new .merge, none⟩ [] ⟨counters [counter 10 0] (some [counter 20 0]), none⟩ := by
  have hregister : Step ⟨new .merge, none⟩ none ⟨counters [] none, none⟩ := by
    refine .call_of_free (.register .counterInt 1 "a".toList [] ⟨[], Labels.sorted_nil⟩) rfl ?_ rfl
    exact fun T f hf => absurd hf (not_mem_new f)
  have hadd : Step ⟨counters [] none, none⟩ none ⟨counters [counter 10 0] none, none⟩ := by
    refine .call_of_free (.addMetric .counterInt 1 ⟨[], Labels.sorted_nil⟩ 10 ())
      (Option.some_ne_none _).symm ?_ rfl
    intro T f hf
    cases T <;> simp_all [counters, new, getFamilies]
  have hregister' : Step ⟨counters [counter 10 0] none, none⟩ none
      ⟨counters [counter 10 0] (some []), none⟩ := by
    refine .call_of_free (.register .counterInt 2 "b".toList [] ⟨[], Labels.sorted_nil⟩) rfl ?_ rfl
    intro T f hf
    cases T <;> simp_all [counters, new, getFamilies]
  have hadd' : Step ⟨counters [counter 10 0] (some []), none⟩ none
      ⟨counters [counter 10 0] (some [counter 20 0]), none⟩ := by
    refine .call_of_free (.addMetric .counterInt 2 ⟨[], Labels.sorted_nil⟩ 20 ())
      (Option.some_ne_none _).symm ?_ rfl
    intro T f hf
    cases T with
    | counterInt =>
        rcases List.mem_pair.mp hf with rfl | rfl
        · simp [counter]
        · simp
    | _ => simp_all [counters, new, getFamilies]
  exact .silent hregister (.silent hadd (.silent hregister' (.silent hadd' (.refl _))))

/-- The first counter is read, both are increased one after the other, and then
the second one is read: only that one is reported as increased. -/
theorem concurrent_scrape_not_snapshot : ∃ results : List MetricFamily,
    results.map (fun family => family.metric.map ClientMetric.counter) = [[.int 0], [.int 1]] ∧
      (results.map MetricFamily.name).Nodup := by
  have hincrease {s : Shared} (family metric : ℕ) {r' : Registry}
      (happly : s.registry.apply (.update .counterInt family metric CounterType.Call.increment) =
        some r') : Step s none { s with registry := r' } :=
    @Step.call s (.update .counterInt family metric CounterType.Call.increment) r' trivial trivial
      happly
  have henter := (Scraping.begin counters_reached).step (.enter rfl rfl)
  have hread := henter.step (@Step.read _ _ _ _ _ _ _ _ _ (fun _ => 0) _ rfl rfl rfl rfl)
  have hboth := (hread.step (hincrease 1 10 rfl)).step (hincrease 2 20 rfl)
  have henter' := (hboth.step (.leave rfl rfl)).step (.enter rfl rfl)
  have hread' := henter'.step (@Step.read _ _ _ _ _ _ _ _ _ (fun _ => 0) _ rfl rfl rfl rfl)
  exact ⟨_, rfl, (concurrent_scrape (hread'.step (.leave rfl rfl)) .finish).1⟩

end Runs

end Registry

end Promcore
