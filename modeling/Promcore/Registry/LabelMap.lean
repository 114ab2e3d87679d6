import Promcore.Registry.LabelSets

/-!
# A family as a map from label sets to metrics

What `Add`, `Remove` and `Has` do to the map in a state of a run, and that the
map holds exactly what was added and not removed since. `Add` looks at the
names of a new label set only: those already stored were looked at before.
-/

namespace Promcore.Family

variable {T : MetricKind}

/-- What a caller has seen: a metric returned by `Add`, a refusal, a call of
`Remove`, and an answer of `Has`. -/
inductive Event where
  | added (labels : Labels) (metric : ℕ)
  | refused (labels : Labels)
  | removed (metric : Option ℕ)
  | asked (labels : Labels) (answer : Bool)

def Event.ofAdd (labels : Labels) : Except Exception ℕ → Event
  | .ok metric => .added labels metric
  | .error _ => .refused labels

/-- A run on a new family, with what its callers have seen. The address of a
new object is not that of one still stored; metrics may change and be
collected in between. -/
inductive Run : List Event → Family T → Prop
  | new {address : ℕ} {name help : Str} {constant_labels : Labels} {f : Family T}
      (h : Family.new T address name help constant_labels = .ok f) : Run [] f
  | add {log : List Event} {f f' : Family T} {labels : Labels} {address : ℕ} {args : T.Args}
      {result : Except Exception ℕ} (h : Run log f)
      (hfresh : ∀ entry ∈ f.metrics_, entry.address ≠ address)
      (hadd : f.add labels address args = some (result, f')) :
      Run (log ++ [Event.ofAdd labels result]) f'
  | remove {log : List Event} {f : Family T} (h : Run log f) (metric : Option ℕ) :
      Run (log ++ [.removed metric]) (f.remove metric)
  | has {log : List Event} {f : Family T} (h : Run log f) (labels : Labels) :
      Run (log ++ [.asked labels (f.has labels)]) f
  | update {log : List Event} {f f' : Family T} {metric : ℕ} {call : T.Call} (h : Run log f)
      (hupdate : f.update metric call = some f') : Run log f'
  | collect {log : List Event} {f f' : Family T} {clock : ℕ → ℕ → ℤ}
      {results : List MetricFamily} (h : Run log f)
      (hcollect : f.collect clock = some (f', results)) : Run log f'

/-- The metric was returned for the labels and not removed since. -/
def StillAdded (log : List Event) (labels : Labels) (metric : ℕ) : Prop :=
  ∃ earlier later, log = earlier ++ Event.added labels metric :: later ∧
    Event.removed (some metric) ∉ later

section History

variable {log : List Event} {labels : Labels} {metric : ℕ}

theorem not_stillAdded_nil : ¬ StillAdded [] labels metric := by
  rintro ⟨earlier, later, h, -⟩
  simp at h

/-- One more event adds the metric, takes it away, or does neither. -/
theorem stillAdded_snoc (event : Event) :
    StillAdded (log ++ [event]) labels metric ↔
      event = .added labels metric ∨
        StillAdded log labels metric ∧ event ≠ .removed (some metric) := by
  constructor
  · rintro ⟨earlier, later, h, hlater⟩
    rcases List.eq_nil_or_concat later with rfl | ⟨later, last, rfl⟩
    · have hlast := (List.append_inj' h rfl).2
      exact Or.inl (List.cons.inj hlast).1
    · rw [List.concat_eq_append, ← List.cons_append, ← List.append_assoc] at h
      obtain ⟨rfl, hlast⟩ := List.append_inj' h rfl
      obtain rfl := (List.cons.inj hlast).1
      simp only [List.concat_eq_append, List.mem_append, List.mem_singleton, not_or] at hlater
      exact Or.inr ⟨⟨earlier, later, rfl, hlater.1⟩, Ne.symm hlater.2⟩
  · rintro (rfl | ⟨⟨earlier, later, rfl, hlater⟩, hne⟩)
    · exact ⟨log, [], rfl, List.not_mem_nil⟩
    · refine ⟨earlier, later ++ [event], by simp, ?_⟩
      simp only [List.mem_append, List.mem_singleton, not_or]
      exact ⟨hlater, Ne.symm hne⟩

end History

section Entries

variable {f : Family T}

theorem find_eq_some_iff (hdistinct : f.labelSets.Nodup) {labels : Labels} {entry : Entry T} :
    f.find labels = some entry ↔ entry ∈ f.metrics_ ∧ entry.labels = labels :=
  Directory.find?_key_eq_some_iff hdistinct

theorem mem_keys {labels : Labels} {metric : ℕ} :
    (labels, metric) ∈ f.keys ↔
      ∃ entry ∈ f.metrics_, entry.labels = labels ∧ entry.address = metric := by
  simp [keys]

/-- At most one entry has the address. -/
theorem remove_metrics (haddresses : (f.metrics_.map Entry.address).Nodup) (metric : Option ℕ) :
    (f.remove metric).metrics_ = f.metrics_.filter fun entry => some entry.address ≠ metric := by
  apply Directory.eraseP_key_eq_filter
  have hsome := haddresses.map (Option.some_injective ℕ)
  rwa [List.map_map] at hsome

theorem keys_snd (f : Family T) : f.keys.map Prod.snd = f.metrics_.map Entry.address := by
  rw [keys, List.map_map]
  rfl

end Entries

/-- The label sets are sound, the addresses are different, and the map holds
what was added and not removed since. -/
structure Recorded (f : Family T) (log : List Event) : Prop where
  sound : f.LabelsSound
  addresses : (f.metrics_.map Entry.address).Nodup
  history : ∀ labels metric, (labels, metric) ∈ f.keys ↔ StillAdded log labels metric

section Steps

variable {log : List Event} {f f' : Family T}

theorem recorded_of_keys_nil (h : f.metrics_ = []) : Recorded f [] := by
  refine ⟨⟨by simp [labelSets, h], by simp [labelSets, h]⟩, by simp [h], fun labels metric => ?_⟩
  simp [keys, h, not_stillAdded_nil]

/-- Calls that keep the keys are no event. -/
theorem Recorded.same_keys (h : Recorded f log) (hstep : FamilyStep f f')
    (hkeys : f'.keys = f.keys) : Recorded f' log := by
  refine ⟨h.sound.step hstep, ?_, ?_⟩
  · rw [← keys_snd, hkeys, keys_snd]
    exact h.addresses
  · rw [hkeys]
    exact h.history

/-- An event that neither adds nor removes. -/
theorem Recorded.other_event (h : Recorded f log) {event : Event}
    (hadded : ∀ labels metric, event = .added labels metric → (labels, metric) ∈ f.keys)
    (hremoved : ∀ metric, event ≠ .removed metric) : Recorded f (log ++ [event]) := by
  refine ⟨h.sound, h.addresses, fun labels metric => ?_⟩
  rw [stillAdded_snoc, ← h.history, and_iff_left (hremoved _)]
  exact ⟨Or.inr, fun hor => hor.elim (hadded labels metric) id⟩

theorem Recorded.add (h : Recorded f log) {labels : Labels} {address : ℕ} {args : T.Args}
    {result : Except Exception ℕ} (hfresh : ∀ entry ∈ f.metrics_, entry.address ≠ address)
    (hadd : f.add labels address args = some (result, f')) :
    Recorded f' (log ++ [Event.ofAdd labels result]) := by
  have hsound := h.sound.step (FamilyStep.add hadd)
  rw [Family.add, Option.map_eq_some_iff] at hadd
  obtain ⟨made, -, hadd⟩ := hadd
  cases made with
  | error exception =>
      cases hadd
      exact h.other_event (by simp [Event.ofAdd]) (by simp [Event.ofAdd])
  | ok object =>
      dsimp only at hadd
      rcases f.addObject_cases labels address object with ⟨entry, hfind, hobject⟩ |
        ⟨-, -, exception, hobject⟩ | ⟨-, -, hobject⟩
      · cases hadd.symm.trans hobject
        obtain ⟨hentry, hlabels⟩ := (find_eq_some_iff h.sound.distinct).mp hfind
        apply h.other_event _ (by simp [Event.ofAdd])
        intro labels' metric heq
        obtain ⟨rfl, rfl⟩ := Event.added.inj heq
        exact mem_keys.mpr ⟨entry, hentry, hlabels, rfl⟩
      · cases hadd.symm.trans hobject
        exact h.other_event (by simp [Event.ofAdd]) (by simp [Event.ofAdd])
      · cases hadd.symm.trans hobject
        refine ⟨hsound, ?_, fun labels' metric => ?_⟩
        · rw [List.map_append, List.nodup_append']
          refine ⟨h.addresses, List.nodup_singleton _, ?_⟩
          rw [List.map_singleton, List.disjoint_singleton, List.mem_map]
          rintro ⟨entry, hentry, heq⟩
          exact hfresh entry hentry heq
        · rw [stillAdded_snoc, ← h.history, and_iff_left (by simp [Event.ofAdd]), or_comm, keys,
            List.map_append, List.mem_append]
          apply or_congr Iff.rfl
          rw [List.map_singleton, List.mem_singleton, Event.ofAdd, Event.added.injEq,
            Prod.mk.injEq, @eq_comm _ labels', @eq_comm _ metric]

theorem Recorded.remove (h : Recorded f log) (metric : Option ℕ) :
    Recorded (f.remove metric) (log ++ [.removed metric]) := by
  have hmetrics := remove_metrics h.addresses metric
  refine ⟨h.sound.step (FamilyStep.remove f metric), ?_, fun labels metric' => ?_⟩
  · rw [hmetrics]
    exact h.addresses.sublist (List.filter_sublist.map _)
  · rw [stillAdded_snoc, ← h.history, mem_keys, mem_keys, hmetrics]
    simp only [List.mem_filter, decide_eq_true_eq]
    constructor
    · rintro ⟨entry, ⟨hentry, hne⟩, rfl, rfl⟩
      exact Or.inr ⟨⟨entry, hentry, rfl, rfl⟩, fun heq => hne (Event.removed.inj heq).symm⟩
    · rintro (heq | ⟨⟨entry, hentry, rfl, rfl⟩, hne⟩)
      · cases heq
      · exact ⟨entry, ⟨hentry, fun heq => hne (congrArg Event.removed heq.symm)⟩, rfl, rfl⟩

theorem Run.recorded (h : Run log f) : Recorded f log := by
  induction h with
  | @new address name help constant_labels f h =>
      apply recorded_of_keys_nil
      unfold Family.new at h
      split at h
      · split at h
        · cases h
          rfl
        · cases h
      · cases h
  | add _ hfresh hadd ih => exact ih.add hfresh hadd
  | remove _ metric ih => exact ih.remove metric
  | has _ labels ih => exact ih.other_event (fun _ _ h => by cases h) (fun _ h => by cases h)
  | update _ hupdate ih => exact ih.same_keys (FamilyStep.update hupdate) (update_keys hupdate)
  | collect _ hcollect ih => exact ih.same_keys (FamilyStep.collect hcollect) (collect_keys hcollect)

end Steps

/-- All-or-nothing insertion into a map from label sets to metrics, and what
the map holds after the events of a log. -/
structure IsLabelMap (f : Family T) (log : List Event) : Prop where
  stored_valid : ∀ labels entry, f.find labels = some entry → ∀ name ∈ labels.names,
    checkLabelName name T.metricType = true ∧ name ∉ f.constant_labels_.names
  add : ∀ labels address args made, T.make args = some made →
    ∃ result f', f.add labels address args = some (result, f') ∧
      ((∃ e, result = .error e) ↔ (∃ e, made = .error e) ∨
        f.find labels = none ∧ ∃ name ∈ labels.names,
          checkLabelName name T.metricType = false ∨ name ∈ f.constant_labels_.names) ∧
      ((∃ e, result = .error e) → f' = f) ∧
      ∀ metric, result = .ok metric → ∃ entry, f'.find labels = some entry ∧
        entry.address = metric ∧
        (f.find labels = some entry ∧ f' = f ∨
          f.find labels = none ∧ entry.address = address ∧ made = .ok entry.object ∧
            ∀ other, other ≠ labels → f'.find other = f.find other)
  remove : ∀ metric labels, (f.remove metric).find labels =
    (f.find labels).filter fun entry => some entry.address ≠ metric
  remove_other : ∀ metric,
    (∀ labels entry, f.find labels = some entry → some entry.address ≠ metric) →
      f.remove metric = f
  has : ∀ labels, f.has labels = true ↔ ∃ metric, StillAdded log labels metric

section LabelMap

variable {f : Family T}

theorem not_accepts_iff (f : Family T) (labels : Labels) :
    ¬ f.Accepts labels ↔ ∃ name ∈ labels.names,
      checkLabelName name T.metricType = false ∨ name ∈ f.constant_labels_.names := by
  simp only [Accepts, not_forall, not_and_or, Bool.not_eq_true, not_not, exists_prop]

/-- An appended entry is found under its labels, and the others as before. -/
theorem find_append (f : Family T) (entry : Entry T) (hnew : f.find entry.labels = none) :
    ({ f with metrics_ := f.metrics_ ++ [entry] } : Family T).find entry.labels = some entry ∧
      ∀ other, other ≠ entry.labels →
        ({ f with metrics_ := f.metrics_ ++ [entry] } : Family T).find other = f.find other := by
  constructor
  · rw [find] at hnew ⊢
    rw [List.find?_append, hnew]
    simp
  · intro other hother
    rw [find, find, List.find?_append]
    simp [Ne.symm hother]

theorem remove_find (hdistinct : f.labelSets.Nodup)
    (haddresses : (f.metrics_.map Entry.address).Nodup) (metric : Option ℕ) (labels : Labels) :
    (f.remove metric).find labels =
      (f.find labels).filter fun entry => some entry.address ≠ metric := by
  have hmetrics := remove_metrics haddresses metric
  have hdistinct' : (f.remove metric).labelSets.Nodup := by
    rw [labelSets, hmetrics]
    exact hdistinct.sublist (List.filter_sublist.map _)
  ext entry
  rw [find_eq_some_iff hdistinct', hmetrics, List.mem_filter, Option.filter_eq_some_iff,
    find_eq_some_iff hdistinct]
  exact and_right_comm

end LabelMap

/-- In every state of every run a family is a map from label sets to metrics
with all-or-nothing insertion. -/
theorem family_is_label_map {log : List Event} {f : Family T} (h : Run log f) :
    IsLabelMap f log := by
  obtain ⟨hsound, haddresses, hhistory⟩ := h.recorded
  refine ⟨?_, ?_, remove_find hsound.distinct haddresses, ?_, ?_⟩
  · intro labels entry hfind
    obtain ⟨hentry, rfl⟩ := (find_eq_some_iff hsound.distinct).mp hfind
    exact hsound.accepted entry.labels (List.mem_map_of_mem hentry)
  · intro labels address args made hmade
    rw [Family.add, hmade, Option.map_some]
    cases made with
    | error exception => exact ⟨_, _, rfl, by simp, by simp, by simp⟩
    | ok object =>
        dsimp only
        rw [← not_accepts_iff]
        rcases f.addObject_cases labels address object with ⟨entry, hfind, hadd⟩ |
          ⟨hfind, hrefused, exception, hadd⟩ | ⟨hfind, haccepts, hadd⟩
        · refine ⟨_, _, congrArg some hadd, by simp [hfind], by simp, ?_⟩
          rintro metric heq
          exact ⟨entry, hfind, Except.ok.inj heq, Or.inl ⟨hfind, rfl⟩⟩
        · exact ⟨_, _, congrArg some hadd, by simp [hfind, hrefused], by simp, by simp⟩
        · obtain ⟨hfound, hothers⟩ := f.find_append ⟨labels, address, object⟩ hfind
          refine ⟨_, _, congrArg some hadd, by simp [haccepts], by simp, ?_⟩
          rintro metric heq
          exact ⟨⟨labels, address, object⟩, hfound, Except.ok.inj heq,
            Or.inr ⟨hfind, rfl, rfl, hothers⟩⟩
  · intro metric hother
    have hmetrics := remove_metrics haddresses metric
    rw [List.filter_eq_self.mpr fun entry hentry => by
      simpa using hother entry.labels entry
        ((find_eq_some_iff hsound.distinct).mpr ⟨hentry, rfl⟩)] at hmetrics
    rw [remove] at hmetrics ⊢
    dsimp only at hmetrics
    rw [hmetrics]
  · intro labels
    rw [has, Option.isSome_iff_exists]
    simp only [← hhistory, mem_keys, find_eq_some_iff hsound.distinct]
    constructor
    · rintro ⟨entry, hentry, hlabels⟩
      exact ⟨_, entry, hentry, hlabels, rfl⟩
    · rintro ⟨_, entry, hentry, hlabels, -⟩
      exact ⟨entry, hentry, hlabels⟩

def pathLabels : Labels := ⟨[("path".toList, "a".toList)], by decide⟩

/-- A gauge is added, asked for, and removed by its address. -/
theorem family_is_label_map_gauge :
    ∃ f : Family .gaugeInt, f.has pathLabels = false ∧
      IsLabelMap f [.added pathLabels 7, .asked pathLabels true, .removed (some 7)] := by
  obtain ⟨f, hf⟩ : ∃ f, Family.new .gaugeInt 1 "g".toList [] ⟨[], by decide⟩ = .ok f := ⟨_, rfl⟩
  have hempty : f.metrics_ = [] := by cases hf; rfl
  obtain ⟨f', hadd⟩ : ∃ f', f.add pathLabels 7 (0 : Int64) = some (.ok 7, f') := by
    cases hf
    exact ⟨_, rfl⟩
  have hrun := ((Run.new hf).add (by simp [hempty]) hadd).has pathLabels
  have hhas : f'.has pathLabels = true := by
    cases hf
    cases hadd
    rfl
  rw [hhas] at hrun
  refine ⟨f'.remove (some 7), ?_, family_is_label_map (hrun.remove (some 7))⟩
  cases hf
  cases hadd
  rfl

end Promcore.Family
