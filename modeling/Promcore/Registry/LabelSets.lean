import Promcore.Registry.Runs

/-!
# Label sets of the metrics of a family

In every family the metrics have different label sets, whose names are valid
for its type and none of its constant labels' names.
-/

namespace Promcore

namespace Family

variable {T : MetricKind}

/-- The label sets under which metrics are stored. -/
def labelSets (f : Family T) : List Labels := f.metrics_.map Entry.labels

/-- The label sets, each with the address of the metric stored under it. -/
def keys (f : Family T) : List (Labels × ℕ) :=
  f.metrics_.map fun entry => (entry.labels, entry.address)

theorem keys_map_fst (f : Family T) : f.keys.map Prod.fst = f.labelSets := by
  rw [keys, List.map_map]
  rfl

/-- A label set that `Add` accepts. -/
def Accepts (f : Family T) (labels : Labels) : Prop :=
  ∀ name ∈ labels.names, checkLabelName name T.metricType = true ∧ name ∉ f.constant_labels_.names

/-- No label set twice, and each one accepted. -/
structure LabelsSound (f : Family T) : Prop where
  distinct : f.labelSets.Nodup
  accepted : ∀ labels ∈ f.labelSets, f.Accepts labels

theorem find_eq_none_iff (f : Family T) (labels : Labels) :
    f.find labels = none ↔ labels ∉ f.labelSets := by
  rw [find, List.find?_eq_none, labelSets, List.mem_map]
  simp

/-- The loop over the label names throws nothing exactly for the sets that are
accepted. -/
theorem checkLabels_eq_none_iff (f : Family T) (names : List Str) :
    f.checkLabels names = none ↔ ∀ name ∈ names,
      checkLabelName name T.metricType = true ∧ name ∉ f.constant_labels_.names := by
  induction names with
  | nil => simp [checkLabels]
  | cons name names ih =>
      rw [checkLabels, List.forall_mem_cons, ← ih]
      cases hvalid : checkLabelName name T.metricType with
      | false => simp
      | true =>
          by_cases hcount : f.constant_labels_.count name = true
          · have := (Labels.count_iff _ _).mp hcount
            simp [hcount, this]
          · have := (Labels.count_iff _ _).not.mp hcount
            simp [hcount, this]

/-- The private `Add` returns what is stored, throws and changes nothing, or
appends one entry. -/
theorem addObject_cases (f : Family T) (labels : Labels) (address : ℕ) (object : T.Object) :
    (∃ entry, f.find labels = some entry ∧
      f.addObject labels address object = (.ok entry.address, f)) ∨
    (f.find labels = none ∧ ¬ f.Accepts labels ∧
      ∃ exception, f.addObject labels address object = (.error exception, f)) ∨
    (f.find labels = none ∧ f.Accepts labels ∧
      f.addObject labels address object =
        (.ok address, { f with metrics_ := f.metrics_ ++ [⟨labels, address, object⟩] })) := by
  unfold addObject
  cases hfind : f.find labels with
  | some entry => exact Or.inl ⟨entry, rfl, rfl⟩
  | none =>
      have hnew := (f.find_eq_none_iff labels).mp hfind
      have haccepts := f.checkLabels_eq_none_iff labels.names
      dsimp only
      cases hcheck : f.checkLabels labels.names with
      | none => exact Or.inr (Or.inr ⟨rfl, haccepts.mp hcheck, rfl⟩)
      | some exception =>
          -- the entry just inserted is erased again
          have hkept : f.metrics_.filter (fun entry => entry.labels ≠ labels) = f.metrics_ := by
            apply List.filter_eq_self.mpr
            intro entry hentry
            have : entry.labels ≠ labels := fun heq => hnew (heq ▸ List.mem_map_of_mem hentry)
            simpa using this
          refine Or.inr (Or.inl ⟨rfl, fun h => ?_, exception, ?_⟩)
          · rw [haccepts.mpr h] at hcheck
            cases hcheck
          · rw [List.filter_append, hkept]
            simp

/-- `Add` appends an accepted label set that is new, or stores nothing. -/
theorem addObject_labelSets (f : Family T) (labels : Labels) (address : ℕ) (object : T.Object) :
    (f.addObject labels address object).2.labelSets = f.labelSets ∨
      labels ∉ f.labelSets ∧ f.Accepts labels ∧
        (f.addObject labels address object).2.labelSets = f.labelSets ++ [labels] := by
  rcases f.addObject_cases labels address object with ⟨entry, -, hadd⟩ | ⟨-, -, exception, hadd⟩ |
    ⟨hfind, haccepts, hadd⟩
  · exact Or.inl (by rw [hadd])
  · exact Or.inl (by rw [hadd])
  · exact Or.inr ⟨(f.find_eq_none_iff labels).mp hfind, haccepts, by simp [hadd, labelSets]⟩

/-- The labels of a metric's samples: the constant ones, then its own. -/
def label (f : Family T) (labels : Labels) : List ClientMetric.Label :=
  (f.constant_labels_.pairs ++ labels.pairs).map fun lp => ⟨lp.1, lp.2⟩

theorem label_accepted {f : Family T} {labels : Labels} (h : f.Accepts labels) :
    ∀ lp ∈ f.label labels, checkLabelName lp.name T.metricType = true := by
  intro lp hlp
  obtain ⟨pair, hpair, rfl⟩ := List.mem_map.mp hlp
  rcases List.mem_append.mp hpair with hpair | hpair
  · exact f.valid_labels pair.1 (List.mem_map_of_mem hpair)
  · exact (h pair.1 (List.mem_map_of_mem hpair)).1

/-- Calls on the metrics change neither their labels nor their addresses. -/
theorem update_keys {f f' : Family T} {metric : ℕ} {call : T.Call}
    (h : f.update metric call = some f') : f'.keys = f.keys := by
  obtain ⟨metrics, rfl, hmetrics⟩ := update_spec h
  apply Simulation.map_eq_of_mapM _ hmetrics
  intro entry entry' hentry
  split at hentry
  · obtain ⟨object, -, hentry⟩ := Option.bind_eq_some_iff.mp hentry
    rw [← Option.some.inj hentry]
  · rw [Option.some.inj hentry]

theorem collect_keys {f f' : Family T} {clock : ℕ → ℕ → ℤ} {results : List MetricFamily}
    (h : f.collect clock = some (f', results)) : f'.keys = f.keys := by
  obtain ⟨collected, rfl, hcollected, -⟩ := collect_spec h
  have hkept : collected.map (fun result => (result.1.labels, result.1.address)) = f.keys := by
    apply Simulation.map_eq_of_mapM _ hcollected
    intro entry result hresult
    obtain ⟨⟨object, metric⟩, -, hresult⟩ := Option.bind_eq_some_iff.mp hresult
    rw [← Option.some.inj hresult]
  rw [← hkept, keys, List.map_map]
  rfl

end Family

open Family

/-- One call appends an accepted label set that is new, or leaves some of the
label sets in place. -/
theorem FamilyStep.labelSets_cases {T : MetricKind} {f f' : Family T} (h : FamilyStep f f') :
    f'.labelSets.Sublist f.labelSets ∨
      ∃ labels, labels ∉ f.labelSets ∧ f.Accepts labels ∧ f'.labelSets = f.labelSets ++ [labels] := by
  cases h with
  | @add labels address args result _ h =>
      rcases Family.add_cases h with rfl | ⟨object, rfl⟩
      · exact Or.inl (List.Sublist.refl _)
      · rcases f.addObject_labelSets labels address object with hsame | ⟨hnew, haccepts, happend⟩
        · exact Or.inl (hsame ▸ List.Sublist.refl _)
        · exact Or.inr ⟨labels, hnew, haccepts, happend⟩
  | remove metric => exact Or.inl (List.eraseP_sublist.map _)
  | update h =>
      rw [← f'.keys_map_fst, ← f.keys_map_fst, Family.update_keys h]
      exact Or.inl (List.Sublist.refl _)
  | collect h =>
      rw [← f'.keys_map_fst, ← f.keys_map_fst, Family.collect_keys h]
      exact Or.inl (List.Sublist.refl _)

theorem Family.LabelsSound.step {T : MetricKind} {f f' : Family T} (h : f.LabelsSound)
    (hstep : FamilyStep f f') : f'.LabelsSound := by
  have hconstant := hstep.same_head.2.2.2
  have haccepts (labels : Labels) : f.Accepts labels ↔ f'.Accepts labels := by
    simp only [Accepts, hconstant]
  rcases hstep.labelSets_cases with hsub | ⟨labels, hnew, haccepted, happend⟩
  · constructor
    · exact h.distinct.sublist hsub
    · intro labels hlabels
      exact (haccepts labels).mp (h.accepted labels (hsub.subset hlabels))
  · constructor
    · rw [happend, List.nodup_append']
      exact ⟨h.distinct, List.nodup_singleton labels,
        List.disjoint_singleton.mpr hnew⟩
    · intro labels' hlabels'
      rw [happend] at hlabels'
      apply (haccepts labels').mp
      rcases List.mem_append.mp hlabels' with hlabels' | hlabels'
      · exact h.accepted labels' hlabels'
      · rwa [List.mem_singleton.mp hlabels']

/-- In every reachable state the families have sound label sets. -/
theorem Registry.Reachable.labelsSound {mode : InsertBehavior} {r : Registry}
    (h : Registry.Reachable mode r) {T : MetricKind} {f : Family T} (hf : f ∈ r.getFamilies T) :
    f.LabelsSound := by
  apply h.forall_families (P := fun _ f => f.LabelsSound) _ _ T f hf
  · intro T f hempty
    have hnone : f.labelSets = [] := by rw [labelSets, hempty, List.map_nil]
    constructor
    · rw [hnone]
      exact List.nodup_nil
    · simp [hnone]
  · intro T f f' hstep hsound
    exact hsound.step hstep

end Promcore
