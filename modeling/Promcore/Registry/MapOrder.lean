import Promcore.Registry.LabelMap
import Promcore.Registry.Scrape

/-!
# The order of a family's map

`metrics_` is an unordered map: the order in which it is walked is not
specified, and can be another one after every call. Runs of the registry whose
maps are reordered after every call are matched here, call by call and answer
by answer, by runs whose maps keep the order of insertion. Only the order of
the metrics in a report can be another one.
-/

namespace Promcore

open Simulation

/-- The same report, with the metrics in another order. -/
structure SameReport (result result' : MetricFamily) : Prop where
  name : result'.name = result.name
  help : result'.help = result.help
  type : result'.type = result.type
  metric : result.metric.Perm result'.metric

namespace Family

variable {T : MetricKind}

/-- The same family, with its map in another order. -/
structure Reordered (f g : Family T) : Prop where
  eq_with_metrics : ∃ metrics, g = { f with metrics_ := metrics }
  metrics : f.metrics_.Perm g.metrics_

/-- No label set and no address twice. -/
structure MapSound (f : Family T) : Prop where
  labels : f.labelSets.Nodup
  addresses : (f.metrics_.map Entry.address).Nodup

variable {f g f' g' : Family T}

theorem Reordered.of_perm {metrics : List (Entry T)} (h : f.metrics_.Perm metrics) :
    f.Reordered { f with metrics_ := metrics } := ⟨⟨metrics, rfl⟩, h⟩

theorem Reordered.refl (f : Family T) : f.Reordered f := ⟨⟨f.metrics_, rfl⟩, List.Perm.refl _⟩

theorem Reordered.trans {k : Family T} (h : f.Reordered g) (h' : g.Reordered k) : f.Reordered k := by
  obtain ⟨⟨metrics, rfl⟩, hmetrics⟩ := h
  obtain ⟨⟨metrics', rfl⟩, hmetrics'⟩ := h'
  exact .of_perm (hmetrics.trans hmetrics')

/-- A label set leads to the same metric. -/
theorem Reordered.find (h : f.Reordered g) (hsound : f.MapSound) (labels : Labels) :
    g.find labels = f.find labels := by
  refine (List.find?_eq_find?_of_perm h.metrics ?_).symm
  rintro entry ⟨hentry, hlabels⟩ entry' ⟨hentry', hlabels'⟩
  exact List.inj_on_of_nodup_map hsound.labels hentry hentry'
    ((of_decide_eq_true hlabels).trans (of_decide_eq_true hlabels').symm)

theorem Reordered.has (h : f.Reordered g) (hsound : f.MapSound) (labels : Labels) :
    g.has labels = f.has labels := by
  rw [Family.has, Family.has, h.find hsound]

theorem Reordered.checkLabels (h : f.Reordered g) (names : List Str) :
    g.checkLabels names = f.checkLabels names := by
  obtain ⟨⟨metrics, rfl⟩, -⟩ := h
  induction names with
  | nil => rfl
  | cons name names ih => rw [Family.checkLabels, Family.checkLabels, ih]

theorem Reordered.addObject (h : f.Reordered g) (hsound : f.MapSound) (labels : Labels)
    (address : ℕ) (object : T.Object) :
    (g.addObject labels address object).1 = (f.addObject labels address object).1 ∧
      (f.addObject labels address object).2.Reordered (g.addObject labels address object).2 := by
  rw [Family.addObject, Family.addObject, h.find hsound, h.checkLabels]
  cases f.find labels with
  | some entry => exact ⟨rfl, h⟩
  | none =>
      dsimp only
      have hinserted := h.metrics.append_right [⟨labels, address, object⟩]
      obtain ⟨⟨metrics, rfl⟩, -⟩ := h
      cases f.checkLabels labels.names with
      | some exception => exact ⟨rfl, ⟨_, rfl⟩, hinserted.filter _⟩
      | none => exact ⟨rfl, ⟨_, rfl⟩, hinserted⟩

theorem Reordered.add (h : f.Reordered g) (hsound : f.MapSound) {labels : Labels} {address : ℕ}
    {args : T.Args} {result : Except Exception ℕ}
    (hadd : g.add labels address args = some (result, g')) :
    ∃ f', f.add labels address args = some (result, f') ∧ f'.Reordered g' := by
  rw [Family.add, Option.map_eq_some_iff] at hadd
  obtain ⟨made, hmade, hadd⟩ := hadd
  cases made with
  | error exception =>
      cases hadd
      exact ⟨f, by rw [Family.add, hmade]; rfl, h⟩
  | ok object =>
      have hobject := h.addObject hsound labels address object
      rw [show g.addObject labels address object = (result, g') from hadd] at hobject
      refine ⟨_, ?_, hobject.2⟩
      rw [Family.add, hmade]
      exact congrArg some (Prod.ext hobject.1.symm rfl)

theorem Reordered.remove (h : f.Reordered g) (hsound : f.MapSound) (metric : Option ℕ) :
    (f.remove metric).Reordered (g.remove metric) := by
  have hmetrics : (f.remove metric).metrics_.Perm (g.remove metric).metrics_ := by
    rw [remove_metrics hsound.addresses,
      remove_metrics ((h.metrics.map _).nodup_iff.mp hsound.addresses)]
    exact h.metrics.filter _
  obtain ⟨⟨metrics, rfl⟩, -⟩ := h
  exact ⟨⟨_, rfl⟩, hmetrics⟩

theorem Reordered.update (h : f.Reordered g) {metric : ℕ} {call : T.Call}
    (hupdate : g.update metric call = some g') :
    ∃ f', f.update metric call = some f' ∧ f'.Reordered g' := by
  obtain ⟨metrics', rfl, hmetrics'⟩ := update_spec hupdate
  obtain ⟨metrics, hmetrics, hperm⟩ := mapM_perm h.metrics hmetrics'
  refine ⟨{ f with metrics_ := metrics }, ?_, ?_⟩
  · rw [Family.update, hmetrics]
    rfl
  · obtain ⟨⟨_, rfl⟩, -⟩ := h
    exact ⟨⟨_, rfl⟩, hperm⟩

/-- What `Collect` returns when all metrics can be collected. -/
theorem collect_of_mapM {clock : ℕ → ℕ → ℤ} {collected : List (Entry T × ClientMetric)}
    (h : f.metrics_.mapM (fun entry => f.collectMetric entry (clock entry.address)) =
      some collected) :
    f.collect clock = some ({ f with metrics_ := collected.map Prod.fst },
      if f.metrics_.isEmpty then [] else
        [{ name := f.name_, help := f.help_, type := T.metricType,
           metric := collected.map Prod.snd }]) := by
  unfold Family.collect
  by_cases hempty : f.metrics_.isEmpty = true
  · have hnil := List.isEmpty_iff.mp hempty
    rw [hnil] at h
    obtain rfl : [] = collected := Option.some.inj h
    rw [if_pos hempty, if_pos hempty, List.map_nil, ← hnil]
  · rw [if_neg hempty, if_neg hempty, h]
    rfl

theorem Reordered.collect (h : f.Reordered g) {clock : ℕ → ℕ → ℤ} {results' : List MetricFamily}
    (hcollect : g.collect clock = some (g', results')) :
    ∃ f' results, f.collect clock = some (f', results) ∧ f'.Reordered g' ∧
      List.Forall₂ SameReport results results' := by
  obtain ⟨collected', rfl, hcollected', rfl⟩ := collect_spec hcollect
  have hempty : g.metrics_.isEmpty = f.metrics_.isEmpty := h.metrics.isEmpty_eq.symm
  obtain ⟨collected, hcollected, hperm⟩ := mapM_perm h.metrics hcollected'
  obtain ⟨⟨metrics, rfl⟩, -⟩ := h
  refine ⟨_, _, collect_of_mapM (f := f) hcollected, ⟨⟨_, rfl⟩, hperm.map _⟩, ?_⟩
  rw [hempty]
  by_cases hnone : f.metrics_.isEmpty = true
  · rw [if_pos hnone, if_pos hnone]
    exact List.Forall₂.nil
  · rw [if_neg hnone, if_neg hnone]
    exact List.Forall₂.cons ⟨rfl, rfl, rfl, hperm.map _⟩ List.Forall₂.nil

end Family

namespace Registry

/-- The same registry, with the maps of its families in other orders. -/
structure Reordered (r s : Registry) : Prop where
  insert_behavior : s.insert_behavior_ = r.insert_behavior_
  families : ∀ T, List.Forall₂ Family.Reordered (r.getFamilies T) (s.getFamilies T)

/-- What a caller is told. -/
inductive Answer where
  | registered (family : Except Exception ℕ)
  | removed (found : Bool)
  | added (metric : Except Exception ℕ)
  | done
  | scraped (results : List MetricFamily)

def answer (r : Registry) : Op → Option Answer
  | .register T address name help labels =>
      some (.registered (r.add T address name help labels).1)
  | .remove T family => some (.removed (r.remove T family).1)
  | .addMetric T family labels address args => do
      let f ← (r.getFamilies T).find? fun f => f.address = family
      let added ← f.add labels address args
      return .added added.1
  | .removeMetric _ _ _ => some .done
  | .update _ _ _ _ => some .done
  | .collect clock => (r.collect clock).map fun collected => .scraped collected.2

/-- A run with the answers, in which after every call the maps can be put in
another order. -/
inductive OrderRun (order : Registry → Registry → Prop) (mode : InsertBehavior) :
    List (Op × Answer) → Registry → Prop
  | new : OrderRun order mode [] (new mode)
  | call {log : List (Op × Answer)} {r r' r'' : Registry} {op : Op} {a : Answer}
      (h : OrderRun order mode log r) (hfresh : r.Fresh op) (happly : r.apply op = some r')
      (hanswer : r.answer op = some a) (horder : order r' r'') :
      OrderRun order mode (log ++ [(op, a)]) r''

/-- The same answer, but for the order of the metrics in each report. -/
inductive SameAnswer : Answer → Answer → Prop
  | same (a : Answer) : SameAnswer a a
  | scraped {results results' : List MetricFamily} (h : List.Forall₂ SameReport results results') :
      SameAnswer (.scraped results) (.scraped results')

section Steps

variable {r r' s s' : Registry}

theorem Reordered.names (h : r.Reordered s) (T : MetricKind) :
    (s.getFamilies T).map Family.name_ = (r.getFamilies T).map Family.name_ := by
  apply map_eq_of_forall₂
  apply (h.families T).imp
  rintro f g ⟨⟨metrics, rfl⟩, -⟩
  rfl

theorem Reordered.setFamilies (h : r.Reordered s) {T : MetricKind}
    {families families' : List (Family T)}
    (hfamilies : List.Forall₂ Family.Reordered families families') :
    (r.setFamilies T families).Reordered (s.setFamilies T families') where
  insert_behavior := by
    rw [insert_behavior_setFamilies, insert_behavior_setFamilies, h.insert_behavior]
  families T' := by
    rw [getFamilies_setFamilies, getFamilies_setFamilies]
    by_cases hT : T' = T
    · subst hT
      rwa [Function.update_self, Function.update_self]
    · rw [Function.update_of_ne hT, Function.update_of_ne hT]
      exact h.families T'

theorem Reordered.register (h : r.Reordered s) (T : MetricKind) (address : ℕ) (name help : Str)
    (labels : Labels) :
    (s.add T address name help labels).1 = (r.add T address name help labels).1 ∧
      (r.add T address name help labels).2.Reordered (s.add T address name help labels).2 := by
  have hother : s.nameExistsInOtherType T name = r.nameExistsInOtherType T name := by
    rw [Bool.eq_iff_iff, nameExistsInOtherType_iff, nameExistsInOtherType_iff]
    simp only [← List.mem_map, h.names]
  have hfind := forall₂_find? (p := fun f : Family T => decide (name = f.getName))
    (q := fun f : Family T => decide (name = f.getName)) (by
      rintro f g ⟨⟨metrics, rfl⟩, -⟩
      rfl) (h.families T)
  unfold add
  rw [hother, h.insert_behavior]
  by_cases hexists : r.nameExistsInOtherType T name = true
  · rw [if_pos hexists, if_pos hexists]
    exact ⟨rfl, h⟩
  rw [if_neg hexists, if_neg hexists]
  dsimp only
  rcases hfind with ⟨hr, hs⟩ | ⟨f, g, hr, hs, -, hfg⟩
  · rw [hr, hs]
    dsimp only
    cases Family.new T address name help labels with
    | error exception => exact ⟨rfl, h⟩
    | ok family =>
        exact ⟨rfl, h.setFamilies (List.rel_append (h.families T) (.cons (.refl family) .nil))⟩
  · obtain ⟨haddress, hconstant⟩ : g.address = f.address ∧
        g.getConstantLabels = f.getConstantLabels := by
      obtain ⟨⟨metrics, rfl⟩, -⟩ := hfg
      exact ⟨rfl, rfl⟩
    rw [hr, hs]
    dsimp only
    rw [haddress, hconstant]
    by_cases hmerge : r.insert_behavior_ = .merge
    · rw [if_pos hmerge, if_pos hmerge]
      by_cases hlabels : f.getConstantLabels = labels
      · rw [if_pos hlabels, if_pos hlabels]
        exact ⟨rfl, h⟩
      · rw [if_neg hlabels, if_neg hlabels]
        exact ⟨rfl, h⟩
    · rw [if_neg hmerge, if_neg hmerge]
      exact ⟨rfl, h⟩

theorem Reordered.remove (h : r.Reordered s) (T : MetricKind) (family : ℕ) :
    (s.remove T family).1 = (r.remove T family).1 ∧
      (r.remove T family).2.Reordered (s.remove T family).2 := by
  have hsame (f g : Family T) (hfg : f.Reordered g) :
      decide (f.address = family) = decide (g.address = family) := by
    obtain ⟨⟨metrics, rfl⟩, -⟩ := hfg
    rfl
  rw [Registry.remove, Registry.remove, ← forall₂_any hsame (h.families T)]
  split
  · exact ⟨rfl, h.setFamilies (forall₂_eraseP hsame (h.families T))⟩
  · exact ⟨rfl, h⟩

/-- No label set and no address twice in any map. -/
def MapsSound (r : Registry) : Prop := ∀ T, ∀ f ∈ r.getFamilies T, f.MapSound

theorem Reordered.onFamily (h : r.Reordered s) (hsound : r.MapsSound) {T : MetricKind} {family : ℕ}
    {call : Family T → Option (Family T)}
    (hcall : ∀ f g g', f.MapSound → f.Reordered g → call g = some g' →
      ∃ f', call f = some f' ∧ f'.Reordered g')
    (hs : s.onFamily T family call = some s') :
    ∃ r', r.onFamily T family call = some r' ∧ r'.Reordered s' := by
  simp only [Registry.onFamily, Option.bind_eq_bind, Option.bind_eq_some_iff] at hs
  obtain ⟨families', hfamilies', hs⟩ := hs
  obtain rfl := Option.some.inj hs
  have hstep : ∀ f g g', f.MapSound ∧ f.Reordered g →
      (if g.address = family then call g else some g) = some g' →
      ∃ f', (if f.address = family then call f else some f) = some f' ∧ f'.Reordered g' := by
    rintro f g g' ⟨hf, hfg⟩ hg
    have haddress : g.address = f.address := by
      obtain ⟨⟨metrics, rfl⟩, -⟩ := hfg
      rfl
    rw [haddress] at hg
    split at hg
    · next hfamily => exact (hcall f g g' hf hfg hg).imp fun f' hf' => by rwa [if_pos hfamily]
    · next hfamily =>
        obtain rfl := Option.some.inj hg
        exact ⟨f, if_neg hfamily, hfg⟩
  obtain ⟨families, hfamilies, hall⟩ := mapM_simulates hstep
    ((List.forall₂_and_left _ _).mpr ⟨hsound T, h.families T⟩) hfamilies'
  exact ⟨r.setFamilies T families, by rw [Registry.onFamily, hfamilies]; rfl, h.setFamilies hall⟩

theorem collectAll_reordered {T : MetricKind} {families families' families₁' : List (Family T)}
    (h : List.Forall₂ Family.Reordered families families') {clock : ℕ → ℕ → ℕ → ℤ}
    {results' : List MetricFamily}
    (hcollect : collectAll families' clock = some (families₁', results')) :
    ∃ families₁ results, collectAll families clock = some (families₁, results) ∧
      List.Forall₂ Family.Reordered families₁ families₁' ∧
      List.Forall₂ SameReport results results' := by
  simp only [collectAll, Option.bind_eq_bind, Option.bind_eq_some_iff, Option.pure_def,
    Option.some.injEq, Prod.mk.injEq] at hcollect
  obtain ⟨collected', hcollected', rfl, rfl⟩ := hcollect
  have hstep (f g : Family T) (result' : Family T × List MetricFamily) (hfg : f.Reordered g)
      (hg : g.collect (clock g.address) = some result') :
      ∃ result : Family T × List MetricFamily, f.collect (clock f.address) = some result ∧
        result.1.Reordered result'.1 ∧ List.Forall₂ SameReport result.2 result'.2 := by
    have haddress : g.address = f.address := by
      obtain ⟨⟨metrics, rfl⟩, -⟩ := hfg
      rfl
    obtain ⟨f', results, hf, hsame⟩ := hfg.collect hg
    exact ⟨(f', results), haddress ▸ hf, hsame⟩
  obtain ⟨collected, hcollected, hall⟩ := mapM_simulates hstep h hcollected'
  refine ⟨collected.map Prod.fst, (collected.map Prod.snd).flatten, ?_, ?_, ?_⟩
  · rw [collectAll, hcollected]
    rfl
  · rw [List.forall₂_map_left_iff, List.forall₂_map_right_iff]
    exact hall.imp fun _ _ h => h.1
  · apply List.rel_flatten
    rw [List.forall₂_map_left_iff, List.forall₂_map_right_iff]
    exact hall.imp fun _ _ h => h.2

theorem Reordered.collect (h : r.Reordered s) {clock : ℕ → ℕ → ℕ → ℤ}
    {results' : List MetricFamily} (hs : s.collect clock = some (s', results')) :
    ∃ r' results, r.collect clock = some (r', results) ∧ r'.Reordered s' ∧
      List.Forall₂ SameReport results results' := by
  obtain ⟨hmode', reports', rfl, hall'⟩ := collect_spec hs
  have hvectors (T : MetricKind) := collectAll_reordered (h.families T) (hall' T)
  obtain ⟨⟨r', results⟩, hr⟩ := (exists_collect_iff r clock).mpr fun T => by
    obtain ⟨families, collected, hcollected, -⟩ := hvectors T
    exact ⟨_, hcollected⟩
  obtain ⟨hmode, reports, rfl, hall⟩ := collect_spec hr
  have hboth (T : MetricKind) : List.Forall₂ Family.Reordered (r'.getFamilies T) (s'.getFamilies T) ∧
      List.Forall₂ SameReport (reports T) (reports' T) := by
    obtain ⟨families, collected, hcollected, hsame⟩ := hvectors T
    obtain ⟨rfl, rfl⟩ := Prod.mk.injEq .. ▸ Option.some.inj (hcollected.symm.trans (hall T))
    exact hsame
  refine ⟨r', _, hr, ⟨?_, fun T => (hboth T).1⟩, ?_⟩
  · rw [hmode, hmode', h.insert_behavior]
  · induction kinds with
    | nil => exact List.Forall₂.nil
    | cons T kinds ih => exact List.rel_append (hboth T).2 ih

/-- A call on a reordered registry is matched by the same call. -/
theorem Reordered.call (h : r.Reordered s) (hsound : r.MapsSound) {op : Op} {a : Answer}
    (happly : s.apply op = some s') (hanswer : s.answer op = some a) :
    ∃ r' a', r.apply op = some r' ∧ r.answer op = some a' ∧ r'.Reordered s' ∧ SameAnswer a' a := by
  cases op with
  | register T address name help labels =>
      obtain ⟨hsame, hr⟩ := h.register T address name help labels
      obtain rfl := Option.some.inj happly
      obtain rfl := Option.some.inj hanswer
      exact ⟨_, _, rfl, rfl, hr, hsame ▸ .same _⟩
  | remove T family =>
      obtain ⟨hsame, hr⟩ := h.remove T family
      obtain rfl := Option.some.inj happly
      obtain rfl := Option.some.inj hanswer
      exact ⟨_, _, rfl, rfl, hr, hsame ▸ .same _⟩
  | addMetric T family labels address args =>
      have hcall : ∀ f g g' : Family T, f.MapSound → f.Reordered g →
          (g.add labels address args).map Prod.snd = some g' →
          ∃ f', (f.add labels address args).map Prod.snd = some f' ∧ f'.Reordered g' := by
        intro f g g' hf hfg hg
        obtain ⟨⟨result, _⟩, hadd, rfl⟩ := Option.map_eq_some_iff.mp hg
        obtain ⟨f', hadd', hf'⟩ := hfg.add hf hadd
        exact ⟨f', by rw [hadd']; rfl, hf'⟩
      obtain ⟨r', hr', hreordered⟩ := h.onFamily hsound hcall happly
      obtain ⟨g, hg, hanswer⟩ := Option.bind_eq_some_iff.mp hanswer
      obtain ⟨⟨result, g'⟩, hadd, hanswer⟩ := Option.bind_eq_some_iff.mp hanswer
      obtain rfl := Option.some.inj hanswer
      rcases forall₂_find? (p := fun f : Family T => decide (f.address = family))
        (q := fun f : Family T => decide (f.address = family)) (by
          rintro f g ⟨⟨metrics, rfl⟩, -⟩
          rfl) (h.families T) with ⟨-, hnone⟩ | ⟨f, g₀, hf, hg₀, hmem, hfg⟩
      · cases hg.symm.trans hnone
      · obtain rfl := Option.some.inj (hg.symm.trans hg₀)
        obtain ⟨f', hadd', -⟩ := hfg.add (hsound T f hmem) hadd
        exact ⟨r', _, hr', by rw [answer, hf, Option.bind_eq_bind, Option.bind_some, hadd']; rfl,
          hreordered, .same _⟩
  | removeMetric T family metric =>
      obtain rfl := Option.some.inj hanswer
      obtain ⟨r', hr', hreordered⟩ := h.onFamily hsound
        (fun f g g' hf hfg hg => ⟨_, rfl, Option.some.inj hg ▸ hfg.remove hf metric⟩) happly
      exact ⟨r', _, hr', rfl, hreordered, .same _⟩
  | update T family metric call =>
      obtain rfl := Option.some.inj hanswer
      obtain ⟨r', hr', hreordered⟩ := h.onFamily hsound
        (fun f g g' _ hfg hg => hfg.update hg) happly
      exact ⟨r', _, hr', rfl, hreordered, .same _⟩
  | collect clock =>
      obtain ⟨⟨_, results'⟩, hcollect, rfl⟩ := Option.map_eq_some_iff.mp happly
      obtain ⟨r', results, hr, hreordered, hsame⟩ := h.collect hcollect
      rw [answer, hcollect] at hanswer
      obtain rfl := Option.some.inj hanswer
      exact ⟨r', _, by rw [Registry.apply, hr]; rfl, by rw [answer, hr]; rfl, hreordered,
        .scraped hsame⟩

/-- A new metric's address is not one that is still in the map. -/
theorem addresses_apply {op : Op} (hfresh : r.Fresh op) (happly : r.apply op = some r')
    (h : ∀ T, ∀ f ∈ r.getFamilies T, (f.metrics_.map Entry.address).Nodup) :
    ∀ T, ∀ f ∈ r'.getFamilies T, (f.metrics_.map Entry.address).Nodup := by
  have hcalled {T' : MetricKind} {family : ℕ} {call : Family T' → Option (Family T')}
      (hr' : r.onFamily T' family call = some r')
      (hcall : ∀ f ∈ r.getFamilies T', ∀ f', call f = some f' →
        (f'.metrics_.map Entry.address).Nodup) :
      ∀ T, ∀ f ∈ r'.getFamilies T, (f.metrics_.map Entry.address).Nodup := by
    intro T f' hf'
    obtain ⟨f, hf, hfamily⟩ := exists_of_mem_forall₂ (onFamily_called hr' T) hf'
    cases hfamily with
    | elsewhere _ => exact h T _ hf
    | called _ hfamily => exact hcall _ hf _ hfamily
  cases op with
  | register =>
      obtain rfl := Option.some.inj happly
      intro T f hf
      refine (mem_of_register hf).elim (h T f) fun hempty => ?_
      rw [hempty]
      exact List.nodup_nil
  | remove =>
      obtain rfl := Option.some.inj happly
      exact fun T f hf => h T f (mem_of_remove hf)
  | addMetric T family labels address args =>
      refine hcalled happly fun f hf f' hcall => ?_
      obtain ⟨⟨result, _⟩, hadd, rfl⟩ := Option.map_eq_some_iff.mp hcall
      rcases Family.add_cases hadd with rfl | ⟨object, rfl⟩
      · exact h T _ hf
      · rcases f.addObject_cases labels address object with ⟨_, -, hobject⟩ | ⟨-, -, _, hobject⟩ |
          ⟨-, -, hobject⟩
        · rw [hobject]
          exact h T f hf
        · rw [hobject]
          exact h T f hf
        · rw [hobject, List.map_append, List.nodup_append']
          refine ⟨h T f hf, List.nodup_singleton _, ?_⟩
          rw [List.map_singleton, List.disjoint_singleton, List.mem_map]
          rintro ⟨entry, hentry, heq⟩
          exact hfresh T f hf entry hentry heq
  | removeMetric T family metric =>
      refine hcalled happly fun f hf f' hcall => ?_
      obtain rfl := Option.some.inj hcall
      exact (h T f hf).sublist (List.eraseP_sublist.map _)
  | update T family metric call =>
      refine hcalled happly fun f hf f' hcall => ?_
      rw [← Family.keys_snd, Family.update_keys hcall, Family.keys_snd]
      exact h T f hf
  | collect clock =>
      obtain ⟨⟨_, results⟩, hcollect, rfl⟩ := Option.map_eq_some_iff.mp happly
      obtain ⟨-, reports, -, hall⟩ := collect_spec hcollect
      intro T f' hf'
      have hvector := hall T
      simp only [collectAll, Option.bind_eq_bind, Option.bind_eq_some_iff, Option.pure_def,
        Option.some.injEq, Prod.mk.injEq] at hvector
      obtain ⟨collected, hcollected, hfamilies, -⟩ := hvector
      rw [← hfamilies] at hf'
      obtain ⟨result, hresult, rfl⟩ := List.mem_map.mp hf'
      obtain ⟨f, hf, hf'⟩ := exists_of_mem_forall₂ (forall₂_of_mapM hcollected) hresult
      rw [← Family.keys_snd, Family.collect_keys hf', Family.keys_snd]
      exact h T f hf

end Steps

section Runs

variable {mode : InsertBehavior} {log : List (Op × Answer)} {r s : Registry}

theorem OrderRun.reachable (h : OrderRun Eq mode log r) : Reachable mode r := by
  induction h with
  | new => exact .new
  | call _ hfresh happly _ horder ih => exact horder ▸ ih.step hfresh happly

theorem OrderRun.mapsSound (h : OrderRun Eq mode log r) : r.MapsSound := by
  have haddresses : ∀ T, ∀ f ∈ r.getFamilies T, (f.metrics_.map Entry.address).Nodup := by
    induction h with
    | new =>
        intro T f hf
        exact absurd hf (not_mem_new f)
    | call _ hfresh happly _ horder ih => exact horder ▸ addresses_apply hfresh happly ih
  exact fun T f hf => ⟨(h.reachable.labelsSound hf).distinct, haddresses T f hf⟩

/-- An address that no object has is none that an object has in another order. -/
theorem Reordered.fresh (h : r.Reordered s) {op : Op} (hfresh : s.Fresh op) : r.Fresh op := by
  have hfamily {T : MetricKind} {f : Family T} (hf : f ∈ r.getFamilies T) :
      ∃ g ∈ s.getFamilies T, f.Reordered g := by
    obtain ⟨i, hi, rfl⟩ := List.mem_iff_getElem.mp hf
    have hi' : i < (s.getFamilies T).length := (h.families T).length_eq ▸ hi
    exact ⟨_, List.getElem_mem hi', (List.forall₂_iff_get.mp (h.families T)).2 i hi hi'⟩
  cases op with
  | register T address name help labels =>
      intro T f hf
      obtain ⟨g, hg, ⟨metrics, hmetrics⟩, -⟩ := hfamily hf
      have hother := hfresh T g hg
      rwa [hmetrics] at hother
  | addMetric T family labels address args =>
      intro T f hf entry hentry
      obtain ⟨g, hg, hfg⟩ := hfamily hf
      exact hfresh T g hg entry (hfg.metrics.subset hentry)
  | _ => trivial

/-- The run that keeps the order of insertion. -/
theorem OrderRun.matched (h : OrderRun Reordered mode log s) : ∃ log' r, OrderRun Eq mode log' r ∧
    List.Forall₂ (fun call call' => call.1 = call'.1 ∧ SameAnswer call.2 call'.2) log' log ∧
    r.Reordered s := by
  induction h with
  | new =>
      refine ⟨[], _, .new, .nil, rfl, fun T => ?_⟩
      exact List.forall₂_same.mpr fun f _ => .refl f
  | @call log s s' s'' op a _ hfresh happly hanswer horder ih =>
      obtain ⟨log', r, hrun, hlog, hreordered⟩ := ih
      obtain ⟨r', a', hr', ha', hreordered', hsame⟩ :=
        hreordered.call hrun.mapsSound happly hanswer
      refine ⟨log' ++ [(op, a')], r', hrun.call (hreordered.fresh hfresh) hr' ha' rfl,
        List.rel_append hlog (.cons ⟨rfl, hsame⟩ .nil), ?_⟩
      refine ⟨horder.insert_behavior.trans hreordered'.insert_behavior, fun T => ?_⟩
      have hpairs := List.forall₂_iff_get.mp (hreordered'.families T)
      have hpairs' := List.forall₂_iff_get.mp (horder.families T)
      refine List.forall₂_iff_get.mpr ⟨hpairs.1.trans hpairs'.1, fun i hi hi' => ?_⟩
      exact (hpairs.2 i hi (hpairs.1 ▸ hi)).trans (hpairs'.2 i (hpairs.1 ▸ hi) hi')

/-- Nothing a caller can see depends on the order of the maps, but for the order
of the metrics in a report: every run whose maps are put in any order after
every call is a run that keeps the order of insertion, with the same calls and
the same answers, and in the end the families have the same label sets. -/
theorem order_unseen (h : OrderRun Reordered mode log s) : ∃ log' r, OrderRun Eq mode log' r ∧
    List.Forall₂ (fun call call' => call.1 = call'.1 ∧ SameAnswer call.2 call'.2) log' log ∧
    ∀ T, List.Forall₂ (fun f g => f.Reordered g ∧ ∀ labels, g.has labels = f.has labels)
      (r.getFamilies T) (s.getFamilies T) := by
  obtain ⟨log', r, hrun, hlog, hreordered⟩ := h.matched
  refine ⟨log', r, hrun, hlog, fun T => ?_⟩
  have hboth := (List.forall₂_and_left _ _).mpr ⟨hrun.mapsSound T, hreordered.families T⟩
  exact hboth.imp fun f g hfg => ⟨hfg.2, fun labels => hfg.2.has hfg.1 labels⟩

theorem no_label_refused (T : MetricKind) :
    ∀ name ∈ Labels.names ⟨[], Labels.sorted_nil⟩, checkLabelName name T.metricType = true :=
  fun _ hname => absurd hname List.not_mem_nil

/-- A family of gauges. -/
def gauges (metrics : List (Entry .gaugeInt)) : Registry :=
  { new .merge with
    gaugesInt_ :=
      [⟨1, metrics, "load".toList, [], ⟨[], Labels.sorted_nil⟩, rfl, no_label_refused _⟩] }

def roomLabels : Labels := ⟨[("room".toList, [])], by decide⟩

def gauge (labels : Labels) (address : ℕ) (value : Int64) : Entry .gaugeInt :=
  ⟨labels, address, (⟨value⟩ : GaugeType Int64)⟩

/-- The two metrics of a family change places before they are collected. -/
theorem order_unseen_two_gauges : ∃ log s, OrderRun Reordered .merge log s ∧ ∃ log' r,
    OrderRun Eq .merge log' r ∧
    List.Forall₂ (fun call call' => call.1 = call'.1 ∧ SameAnswer call.2 call'.2) log' log ∧
    ∀ T, List.Forall₂ (fun f g => f.Reordered g ∧ ∀ labels, g.has labels = f.has labels)
      (r.getFamilies T) (s.getFamilies T) := by
  have hsame (r : Registry) : r.Reordered r :=
    ⟨rfl, fun T => List.forall₂_same.mpr fun f _ => .refl f⟩
  have hfresh (metrics : List (Entry .gaugeInt)) (labels : Labels) (address : ℕ) (value : Int64)
      (hnew : ∀ entry ∈ metrics, entry.address ≠ address) :
      (gauges metrics).Fresh (.addMetric .gaugeInt 1 labels address value) := by
    exact forall_only_family (P := fun _ f => ∀ entry ∈ f.metrics_, entry.address ≠ address)
      (T := .gaugeInt) hnew
  have hswap : (gauges [gauge ⟨[], Labels.sorted_nil⟩ 10 5, gauge roomLabels 20 7]).Reordered
      (gauges [gauge roomLabels 20 7, gauge ⟨[], Labels.sorted_nil⟩ 10 5]) := by
    refine ⟨rfl, fun T => ?_⟩
    cases T with
    | gaugeInt => exact .cons (.of_perm (List.Perm.swap _ _ [])) .nil
    | _ => exact .nil
  have hregister := @OrderRun.call Reordered .merge _ _ _ (gauges [])
    (.register .gaugeInt 1 "load".toList [] ⟨[], Labels.sorted_nil⟩) _ .new
    (fun T f hf => absurd hf (not_mem_new f)) rfl rfl (hsame _)
  have hfirst := hregister.call (hfresh [] ⟨[], Labels.sorted_nil⟩ 10 5
    fun _ hentry => absurd hentry List.not_mem_nil) rfl rfl
    (hsame (gauges [gauge ⟨[], Labels.sorted_nil⟩ 10 5]))
  have hsecond := hfirst.call (hfresh _ roomLabels 20 7 (by decide)) rfl rfl hswap
  have hcollect := @OrderRun.call Reordered .merge _ _ _ _ (.collect fun _ _ _ => 0) _ hsecond
    trivial rfl rfl (hsame _)
  exact ⟨_, _, hcollect, order_unseen hcollect⟩

end Runs

end Registry

end Promcore
