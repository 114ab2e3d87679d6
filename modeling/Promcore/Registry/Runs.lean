import Promcore.Library.Directory
import Promcore.Library.Simulation
import Promcore.Registry.Registry

/-!
# Runs of a registry

The calls that register and remove families, and those made through the
references handed out. Each call's effect on the seven vectors is said once:
a family is appended, one is erased, or every family takes at most one step
of its own.
-/

namespace Promcore

namespace Family

variable {T : MetricKind} {f f' : Family T}

/-- `Add` stores an object, or throws when it is constructed. -/
theorem add_cases {labels : Labels} {address : ℕ} {args : T.Args} {result : Except Exception ℕ}
    (h : f.add labels address args = some (result, f')) :
    f' = f ∨ ∃ object, f' = (f.addObject labels address object).2 := by
  rw [Family.add, Option.map_eq_some_iff] at h
  obtain ⟨made, -, h⟩ := h
  cases made with
  | error exception => exact Or.inl (congrArg Prod.snd h).symm
  | ok object => exact Or.inr ⟨object, (congrArg Prod.snd h).symm⟩

theorem update_spec {metric : ℕ} {call : T.Call} (h : f.update metric call = some f') :
    ∃ metrics, f' = { f with metrics_ := metrics } ∧
      f.metrics_.mapM (fun entry =>
        if entry.address = metric then do
          let object ← T.apply entry.object call
          return { entry with object }
        else some entry) = some metrics := by
  simp only [Family.update, Option.bind_eq_bind, Option.bind_eq_some_iff] at h
  obtain ⟨metrics, hmetrics, h⟩ := h
  exact ⟨metrics, (Option.some.inj h).symm, hmetrics⟩

/-- Nothing is reported of an empty family, and otherwise all its metrics under
its name. -/
theorem collect_spec {clock : ℕ → ℕ → ℤ} {results : List MetricFamily}
    (h : f.collect clock = some (f', results)) :
    ∃ collected, f' = { f with metrics_ := collected.map Prod.fst } ∧
      f.metrics_.mapM (fun entry => f.collectMetric entry (clock entry.address)) = some collected ∧
      results = if f.metrics_.isEmpty then [] else
        [{ name := f.name_, help := f.help_, type := T.metricType,
           metric := collected.map Prod.snd }] := by
  unfold Family.collect at h
  split at h
  · next hempty =>
      obtain ⟨rfl, rfl⟩ := Prod.mk.injEq .. ▸ Option.some.inj h
      have hnil := List.isEmpty_iff.mp hempty
      refine ⟨[], ?_, by rw [hnil]; rfl, (if_pos hempty).symm⟩
      rw [List.map_nil, ← hnil]
  · next hempty =>
      obtain ⟨collected, hcollected, h⟩ := Option.bind_eq_some_iff.mp h
      obtain ⟨rfl, rfl⟩ := Prod.mk.injEq .. ▸ Option.some.inj h
      exact ⟨collected, rfl, hcollected, (if_neg hempty).symm⟩

end Family

/-- One call on a family that is held. -/
inductive FamilyStep {T : MetricKind} : Family T → Family T → Prop
  | add {f : Family T} {labels : Labels} {address : ℕ} {args : T.Args}
      {result : Except Exception ℕ} {f' : Family T}
      (h : f.add labels address args = some (result, f')) : FamilyStep f f'
  | remove (f : Family T) (metric : Option ℕ) : FamilyStep f (f.remove metric)
  | update {f f' : Family T} {metric : ℕ} {call : T.Call}
      (h : f.update metric call = some f') : FamilyStep f f'
  | collect {f f' : Family T} {clock : ℕ → ℕ → ℤ} {results : List MetricFamily}
      (h : f.collect clock = some (f', results)) : FamilyStep f f'

/-- A call on a family changes only its map. -/
theorem FamilyStep.eq_with_metrics {T : MetricKind} {f f' : Family T} (h : FamilyStep f f') :
    ∃ metrics, f' = { f with metrics_ := metrics } := by
  cases h with
  | add h =>
      rcases Family.add_cases h with rfl | ⟨object, rfl⟩
      · exact ⟨_, rfl⟩
      · unfold Family.addObject
        split
        · exact ⟨_, rfl⟩
        · dsimp only
          split <;> exact ⟨_, rfl⟩
  | remove => exact ⟨_, rfl⟩
  | update h =>
      obtain ⟨metrics, rfl, -⟩ := Family.update_spec h
      exact ⟨metrics, rfl⟩
  | collect h =>
      obtain ⟨collected, rfl, -⟩ := Family.collect_spec h
      exact ⟨_, rfl⟩

/-- No call on a family changes where it lives, its name or its labels. -/
theorem FamilyStep.same_head {T : MetricKind} {f f' : Family T} (h : FamilyStep f f') :
    f'.address = f.address ∧ f'.name_ = f.name_ ∧ f'.help_ = f.help_ ∧
      f'.constant_labels_ = f.constant_labels_ := by
  obtain ⟨metrics, rfl⟩ := h.eq_with_metrics
  exact ⟨rfl, rfl, rfl, rfl⟩

namespace Registry

open Relation Simulation

/-- The seven types, in the order in which `Collect` visits the vectors. -/
def kinds : List MetricKind :=
  [.counterDouble, .counterInt, .gaugeDouble, .gaugeInt, .histogram, .info, .summary]

inductive Op where
  | register (T : MetricKind) (address : ℕ) (name help : Str) (labels : Labels)
  | remove (T : MetricKind) (family : ℕ)
  | addMetric (T : MetricKind) (family : ℕ) (labels : Labels) (address : ℕ) (args : T.Args)
  | removeMetric (T : MetricKind) (family : ℕ) (metric : Option ℕ)
  | update (T : MetricKind) (family metric : ℕ) (call : T.Call)
  | collect (clock : ℕ → ℕ → ℕ → ℤ)

/-- Make a call on the family at an address. -/
def onFamily (r : Registry) (T : MetricKind) (family : ℕ)
    (call : Family T → Option (Family T)) : Option Registry := do
  let families ← (r.getFamilies T).mapM fun f => if f.address = family then call f else some f
  return r.setFamilies T families

def apply (r : Registry) : Op → Option Registry
  | .register T address name help labels => some (r.add T address name help labels).2
  | .remove T family => some (r.remove T family).2
  | .addMetric T family labels address args =>
      r.onFamily T family fun f => (f.add labels address args).map Prod.snd
  | .removeMetric T family metric => r.onFamily T family fun f => some (f.remove metric)
  | .update T family metric call => r.onFamily T family fun f => f.update metric call
  | .collect clock => (r.collect clock).map Prod.fst

/-- A new object's address is not that of an object still held. -/
def Fresh (r : Registry) : Op → Prop
  | .register _ address _ _ _ => ∀ T, ∀ f ∈ r.getFamilies T, f.address ≠ address
  | .addMetric _ _ _ address _ =>
      ∀ T, ∀ f ∈ r.getFamilies T, ∀ entry ∈ f.metrics_, entry.address ≠ address
  | _ => True

inductive Reachable (mode : InsertBehavior) : Registry → Prop
  | new : Reachable mode (new mode)
  | step {r r' : Registry} {op : Op} (h : Reachable mode r) (hfresh : r.Fresh op)
      (happly : r.apply op = some r') : Reachable mode r'

@[simp] theorem getFamilies_setFamilies (r : Registry) (T : MetricKind)
    (families : List (Family T)) :
    (r.setFamilies T families).getFamilies = Function.update r.getFamilies T families := by
  funext T'
  cases T <;> cases T' <;> rfl

@[simp] theorem insert_behavior_setFamilies (r : Registry) (T : MetricKind)
    (families : List (Family T)) :
    (r.setFamilies T families).insert_behavior_ = r.insert_behavior_ := by
  cases T <;> rfl

theorem getFamilies_new (mode : InsertBehavior) : (new mode).getFamilies = fun _ => [] := by
  funext T
  cases T <;> rfl

theorem not_mem_new {mode : InsertBehavior} {T : MetricKind} (f : Family T) :
    f ∉ (new mode).getFamilies T := by
  rw [getFamilies_new]
  exact List.not_mem_nil

/-- What holds of its only family holds of all families of a registry. -/
theorem forall_only_family {P : (T : MetricKind) → Family T → Prop} {mode : InsertBehavior}
    {T : MetricKind} {f : Family T} (h : P T f) :
    ∀ T', ∀ f' ∈ ((new mode).setFamilies T [f]).getFamilies T', P T' f' := by
  intro T' f' hf
  rw [getFamilies_setFamilies] at hf
  by_cases hT : T' = T
  · subst hT
    rw [Function.update_self] at hf
    exact List.mem_singleton.mp hf ▸ h
  · rw [Function.update_of_ne hT] at hf
    exact absurd hf (not_mem_new f')

theorem familyNameExists_iff {T : MetricKind} (name : Str) (families : List (Family T)) :
    familyNameExists name families = true ↔ ∃ f ∈ families, f.name_ = name := by
  rw [familyNameExists, List.find?_isSome]
  apply exists_congr
  intro f
  rw [Family.getName, decide_eq_true_eq, eq_comm]

/-- The hand-written lists are the other six types. -/
theorem nameExistsInOtherType_iff (r : Registry) (T : MetricKind) (name : Str) :
    r.nameExistsInOtherType T name = true ↔
      ∃ T', T' ≠ T ∧ ∃ f ∈ r.getFamilies T', f.name_ = name := by
  have hexists : ∀ P : MetricKind → Prop, (∃ T', P T') ↔
      P .counterDouble ∨ P .counterInt ∨ P .gaugeDouble ∨ P .gaugeInt ∨ P .histogram ∨ P .info ∨
        P .summary := by
    intro P
    constructor
    · rintro ⟨T', h⟩
      cases T' <;> simp [h]
    · rintro (h | h | h | h | h | h | h) <;> exact ⟨_, h⟩
  rw [hexists]
  cases T <;> simp [nameExistsInOtherType, familyNameExists_iff, getFamilies, or_assoc]

/-- `Add` throws and changes nothing, returns the family held, or appends one. -/
theorem add_cases (r : Registry) (T : MetricKind) (address : ℕ) (name help : Str)
    (labels : Labels) :
    (∃ e, r.add T address name help labels = (.error e, r) ∧
      ((∃ T', T' ≠ T ∧ ∃ f ∈ r.getFamilies T', f.name_ = name) ∨
        (∃ f ∈ r.getFamilies T, f.name_ = name ∧
          (r.insert_behavior_ = .throw ∨ f.constant_labels_ ≠ labels)) ∨
        (∀ T', ∀ f ∈ r.getFamilies T', f.name_ ≠ name) ∧
          (checkMetricName name = false ∨
            ∃ label_name ∈ labels.names, checkLabelName label_name T.metricType = false))) ∨
    (∃ f ∈ r.getFamilies T, r.add T address name help labels = (.ok f.address, r) ∧
      f.name_ = name ∧ f.constant_labels_ = labels ∧ r.insert_behavior_ = .merge ∧
      ∀ T', T' ≠ T → ∀ f ∈ r.getFamilies T', f.name_ ≠ name) ∨
    ∃ hname hlabels, (∀ T', ∀ f ∈ r.getFamilies T', f.name_ ≠ name) ∧
      r.add T address name help labels = (.ok address, r.setFamilies T
        (r.getFamilies T ++ [⟨address, [], name, help, labels, hname, hlabels⟩])) := by
  unfold add
  by_cases hother : r.nameExistsInOtherType T name = true
  · rw [if_pos hother]
    exact Or.inl ⟨_, rfl, Or.inl ((r.nameExistsInOtherType_iff T name).mp hother)⟩
  rw [if_neg hother]
  dsimp only
  have hothers : ∀ T', T' ≠ T → ∀ f ∈ r.getFamilies T', f.name_ ≠ name :=
    fun T' hT f hf heq => hother ((r.nameExistsInOtherType_iff T name).mpr ⟨T', hT, f, hf, heq⟩)
  cases hfind : (r.getFamilies T).find? fun family => name = family.getName with
  | some f =>
      -- a family of the type has the name
      have hf := List.mem_of_find?_eq_some hfind
      have hfname : name = f.name_ := of_decide_eq_true
        (List.find?_some (p := fun family : Family T => decide (name = family.getName)) hfind)
      dsimp only
      cases hmode : r.insert_behavior_ with
      | merge =>
          rw [if_pos rfl]
          by_cases hsame : f.constant_labels_ = labels
          · rw [if_pos (show f.getConstantLabels = labels from hsame)]
            exact Or.inr (Or.inl ⟨f, hf, rfl, hfname.symm, hsame, rfl, hothers⟩)
          · rw [if_neg (show ¬ f.getConstantLabels = labels from hsame)]
            exact Or.inl ⟨_, rfl, Or.inr (Or.inl ⟨f, hf, hfname.symm, Or.inr hsame⟩)⟩
      | throw =>
          rw [if_neg (by simp)]
          exact Or.inl ⟨_, rfl, Or.inr (Or.inl ⟨f, hf, hfname.symm, Or.inl rfl⟩)⟩
  | none =>
      have hnew : ∀ T', ∀ f ∈ r.getFamilies T', f.name_ ≠ name := by
        intro T' f hf heq
        by_cases hT : T' = T
        · subst hT
          simpa [Family.getName, heq] using List.find?_eq_none.mp hfind f hf
        · exact hothers T' hT f hf heq
      simp only [Family.new]
      by_cases hname : checkMetricName name = true
      · by_cases hlabels : ∀ label_name ∈ labels.names,
            checkLabelName label_name T.metricType = true
        · rw [dif_pos hname, dif_pos hlabels]
          exact Or.inr (Or.inr ⟨hname, hlabels, hnew, rfl⟩)
        · rw [dif_pos hname, dif_neg hlabels]
          push Not at hlabels
          obtain ⟨label_name, hmem, hbad⟩ := hlabels
          exact Or.inl ⟨_, rfl, Or.inr (Or.inr ⟨hnew, Or.inr
            ⟨label_name, hmem, Bool.eq_false_iff.mpr hbad⟩⟩)⟩
      · rw [dif_neg hname]
        exact Or.inl ⟨_, rfl, Or.inr (Or.inr ⟨hnew, Or.inl (Bool.eq_false_iff.mpr hname)⟩)⟩

/-- `Remove` erases the family at the address, or changes nothing. -/
theorem remove_cases (r : Registry) (T : MetricKind) (family : ℕ) :
    (∃ pre f post, r.getFamilies T = pre ++ f :: post ∧ f.address = family ∧
      r.remove T family = (true, r.setFamilies T (pre ++ post))) ∨
    (∀ f ∈ r.getFamilies T, f.address ≠ family) ∧ r.remove T family = (false, r) := by
  unfold remove
  by_cases hheld : ∃ f ∈ r.getFamilies T, f.address = family
  · left
    obtain ⟨f, hf, hfamily⟩ := hheld
    obtain ⟨f', pre, post, -, hfamily', hsplit, herase⟩ :=
      List.exists_of_eraseP (p := fun f : Family T => decide (f.address = family)) hf
        (by simpa using hfamily)
    refine ⟨pre, f', post, hsplit, by simpa using hfamily', ?_⟩
    rw [if_pos (List.any_eq_true.mpr ⟨f, hf, by simpa using hfamily⟩), herase]
  · right
    push Not at hheld
    refine ⟨hheld, ?_⟩
    rw [if_neg]
    simpa using hheld

/-- Every family of every vector takes at most one step of its own. -/
def FamiliesStep (r r' : Registry) : Prop :=
  r'.insert_behavior_ = r.insert_behavior_ ∧
    ∀ T, List.Forall₂ (ReflGen FamilyStep) (r.getFamilies T) (r'.getFamilies T)

theorem onFamily_step {r r' : Registry} {T : MetricKind} {family : ℕ}
    {call : Family T → Option (Family T)} (hcall : ∀ f f', call f = some f' → FamilyStep f f')
    (h : r.onFamily T family call = some r') : FamiliesStep r r' := by
  simp only [onFamily, Option.bind_eq_bind, Option.bind_eq_some_iff] at h
  obtain ⟨families, hfamilies, h⟩ := h
  obtain rfl := Option.some.inj h
  refine ⟨r.insert_behavior_setFamilies T families, fun T' => ?_⟩
  rw [getFamilies_setFamilies]
  by_cases hT : T' = T
  · subst hT
    rw [Function.update_self]
    apply (forall₂_of_mapM hfamilies).imp
    intro f f' hstep
    split at hstep
    · exact ReflGen.single (hcall f f' hstep)
    · obtain rfl := Option.some.inj hstep
      exact ReflGen.refl
  · rw [Function.update_of_ne hT]
    exact List.forall₂_same.mpr fun _ _ => ReflGen.refl

/-- A family and what a call on the family at an address made of it. -/
inductive Called (T : MetricKind) (family : ℕ) (call : Family T → Option (Family T)) :
    (Σ T, Family T) → (Σ T, Family T) → Prop
  | elsewhere {held : Σ T, Family T} (hother : held.1 = T → held.2.address ≠ family) :
      Called T family call held held
  | called {f f' : Family T} (haddress : f.address = family) (hcall : call f = some f') :
      Called T family call ⟨T, f⟩ ⟨T, f'⟩

theorem onFamily_called {r r' : Registry} {T : MetricKind} {family : ℕ}
    {call : Family T → Option (Family T)} (h : r.onFamily T family call = some r')
    (T' : MetricKind) :
    List.Forall₂ (fun f f' => Called T family call ⟨T', f⟩ ⟨T', f'⟩) (r.getFamilies T')
      (r'.getFamilies T') := by
  simp only [onFamily, Option.bind_eq_bind, Option.bind_eq_some_iff] at h
  obtain ⟨families, hfamilies, h⟩ := h
  obtain rfl := Option.some.inj h
  rw [getFamilies_setFamilies]
  by_cases hT : T' = T
  · subst hT
    rw [Function.update_self]
    apply (forall₂_of_mapM hfamilies).imp
    intro f f' hcall
    split at hcall
    · next haddress => exact .called haddress hcall
    · next haddress =>
        obtain rfl := Option.some.inj hcall
        exact .elsewhere fun _ => haddress
  · rw [Function.update_of_ne hT]
    exact List.forall₂_same.mpr fun f _ => .elsewhere fun h => absurd h hT

theorem collectAll_step {T : MetricKind} {families families' : List (Family T)}
    {clock : ℕ → ℕ → ℕ → ℤ} {results : List MetricFamily}
    (h : collectAll families clock = some (families', results)) :
    List.Forall₂ (ReflGen FamilyStep) families families' := by
  simp only [collectAll, Option.bind_eq_bind, Option.bind_eq_some_iff, Option.pure_def,
    Option.some.injEq, Prod.mk.injEq] at h
  obtain ⟨collected, hcollected, rfl, -⟩ := h
  rw [List.forall₂_map_right_iff]
  exact (forall₂_of_mapM hcollected).imp fun f result hresult =>
    ReflGen.single (FamilyStep.collect hresult)

/-- Collecting visits the seven vectors one after the other. -/
theorem collect_spec {r r' : Registry} {clock : ℕ → ℕ → ℕ → ℤ} {results : List MetricFamily}
    (h : r.collect clock = some (r', results)) :
    r'.insert_behavior_ = r.insert_behavior_ ∧ ∃ collected : MetricKind → List MetricFamily,
      results = kinds.flatMap collected ∧
        ∀ T, collectAll (r.getFamilies T) clock = some (r'.getFamilies T, collected T) := by
  simp only [collect, Option.bind_eq_bind, Option.bind_eq_some_iff, Option.pure_def,
    Option.some.injEq, Prod.mk.injEq] at h
  obtain ⟨⟨_, results₁⟩, h₁, ⟨_, results₂⟩, h₂, ⟨_, results₃⟩, h₃, ⟨_, results₄⟩, h₄,
    ⟨_, results₅⟩, h₅, ⟨_, results₆⟩, h₆, ⟨_, results₇⟩, h₇, rfl, rfl⟩ := h
  refine ⟨rfl, fun T => T.casesOn results₁ results₂ results₃ results₄ results₅ results₆ results₇,
    by simp [kinds], fun T => ?_⟩
  cases T with
  | counterDouble => exact h₁
  | counterInt => exact h₂
  | gaugeDouble => exact h₃
  | gaugeInt => exact h₄
  | histogram => exact h₅
  | info => exact h₆
  | summary => exact h₇

theorem collect_step {r r' : Registry} {clock : ℕ → ℕ → ℕ → ℤ} {results : List MetricFamily}
    (h : r.collect clock = some (r', results)) : FamiliesStep r r' := by
  obtain ⟨hmode, collected, -, hall⟩ := collect_spec h
  exact ⟨hmode, fun T => collectAll_step (hall T)⟩

/-- What one call can do: register a family, remove one, or let the families
step. -/
theorem apply_cases {r r' : Registry} {op : Op} (h : r.apply op = some r') :
    (∃ T address name help labels, op = .register T address name help labels ∧
      r' = (r.add T address name help labels).2) ∨
    (∃ T family, op = .remove T family ∧ r' = (r.remove T family).2) ∨
    FamiliesStep r r' := by
  cases op with
  | register T address name help labels =>
      exact Or.inl ⟨T, address, name, help, labels, rfl, (Option.some.inj h).symm⟩
  | remove T family => exact Or.inr (Or.inl ⟨T, family, rfl, (Option.some.inj h).symm⟩)
  | addMetric T family labels address args =>
      refine Or.inr (Or.inr (onFamily_step (fun f f' hcall => ?_) h))
      obtain ⟨⟨result, _⟩, hadd, rfl⟩ := Option.map_eq_some_iff.mp hcall
      exact FamilyStep.add hadd
  | removeMetric T family metric =>
      refine Or.inr (Or.inr (onFamily_step (fun f f' hcall => ?_) h))
      obtain rfl := Option.some.inj hcall
      exact FamilyStep.remove f metric
  | update T family metric call =>
      exact Or.inr (Or.inr (onFamily_step (fun f f' hcall => FamilyStep.update hcall) h))
  | collect clock =>
      obtain ⟨⟨_, results⟩, hcollect, rfl⟩ := Option.map_eq_some_iff.mp h
      exact Or.inr (Or.inr (collect_step hcollect))

/-- All families that are held have different names and live at different
addresses. -/
structure Wellformed (r : Registry) : Prop where
  names : Directory.Distinct (fun _ f => f.name_) r.getFamilies
  addresses : Directory.Distinct (fun _ f => f.address) r.getFamilies

theorem FamiliesStep.map_eq {r r' : Registry} (h : FamiliesStep r r') {K : Type}
    (key : (T : MetricKind) → Family T → K)
    (hkey : ∀ T (f f' : Family T), FamilyStep f f' → key T f' = key T f) (T : MetricKind) :
    (r'.getFamilies T).map (key T) = (r.getFamilies T).map (key T) := by
  apply map_eq_of_forall₂
  apply (h.2 T).imp
  intro f f' hstep
  cases hstep with
  | refl => rfl
  | single hstep => exact hkey T f f' hstep

theorem Wellformed.step {r r' : Registry} {op : Op} (h : Wellformed r) (hfresh : r.Fresh op)
    (happly : r.apply op = some r') : Wellformed r' := by
  rcases apply_cases happly with ⟨T, address, name, help, labels, rfl, rfl⟩ | ⟨T, family, -, rfl⟩ |
    hstep
  · rcases r.add_cases T address name help labels with ⟨e, hadd, -⟩ | ⟨f, -, hadd, -⟩ |
      ⟨hname, hlabels, hnew, hadd⟩
    · rw [hadd]
      exact h
    · rw [hadd]
      exact h
    · rw [hadd]
      constructor
      · rw [getFamilies_setFamilies]
        exact h.names.append hnew
      · rw [getFamilies_setFamilies]
        exact h.addresses.append hfresh
  · rcases r.remove_cases T family with ⟨pre, f, post, hsplit, -, hremove⟩ | ⟨-, hremove⟩
    · rw [hremove]
      have hrest : (pre ++ post).Sublist (r.getFamilies T) := by
        rw [hsplit]
        exact (List.sublist_cons_self f post).append_left pre
      constructor
      · rw [getFamilies_setFamilies]
        exact h.names.sublist hrest
      · rw [getFamilies_setFamilies]
        exact h.addresses.sublist hrest
    · rw [hremove]
      exact h
  · exact ⟨h.names.congr (hstep.map_eq _ fun T f f' hf => hf.same_head.2.1),
      h.addresses.congr (hstep.map_eq _ fun T f f' hf => hf.same_head.1)⟩

/-- In every reachable state the families have different names and addresses. -/
theorem Reachable.wellformed {mode : InsertBehavior} {r : Registry} (h : Reachable mode r) :
    Wellformed r := by
  induction h with
  | new =>
      constructor
      · rw [getFamilies_new]
        exact Directory.Distinct.empty
      · rw [getFamilies_new]
        exact Directory.Distinct.empty
  | step _ hfresh happly ih => exact ih.step hfresh happly

theorem Reachable.insert_behavior {mode : InsertBehavior} {r : Registry} (h : Reachable mode r) :
    r.insert_behavior_ = mode := by
  induction h with
  | new => rfl
  | @step r r' op _ _ happly ih =>
      rcases apply_cases happly with ⟨T, address, name, help, labels, -, rfl⟩ |
        ⟨T, family, -, rfl⟩ | hstep
      · rcases r.add_cases T address name help labels with ⟨e, hadd, -⟩ | ⟨f, -, hadd, -⟩ |
          ⟨hname, hlabels, -, hadd⟩ <;> simp [hadd, ih]
      · rcases r.remove_cases T family with ⟨pre, f, post, -, -, hremove⟩ | ⟨-, hremove⟩ <;>
          simp [hremove, ih]
      · exact hstep.1.trans ih

/-- The families after `Add` are those held before and a new one. -/
theorem mem_of_register {r : Registry} {T T' : MetricKind} {address : ℕ} {name help : Str}
    {labels : Labels} {f : Family T'}
    (hf : f ∈ (r.add T address name help labels).2.getFamilies T') :
    f ∈ r.getFamilies T' ∨ f.metrics_ = [] := by
  rcases r.add_cases T address name help labels with ⟨e, hadd, -⟩ | ⟨f', -, hadd, -⟩ |
    ⟨hname, hlabels, -, hadd⟩
  · exact Or.inl (by rwa [hadd] at hf)
  · exact Or.inl (by rwa [hadd] at hf)
  · rw [hadd, getFamilies_setFamilies, Directory.mem_update_append] at hf
    refine hf.imp_right fun heq => ?_
    cases heq
    rfl

/-- The first family of a registry is new. -/
theorem Reachable.first_family {mode : InsertBehavior} {T : MetricKind} {address : ℕ}
    {name help : Str} {labels : Labels} {r : Registry}
    (hregister : (Registry.new mode).apply (.register T address name help labels) = some r) :
    Reachable mode r := by
  refine Reachable.new.step ?_ hregister
  intro T f hf
  exact absurd hf (not_mem_new f)

/-- And so is its first metric. -/
theorem Reachable.first_metric {mode : InsertBehavior} {T T' : MetricKind}
    {address family metric : ℕ} {name help : Str} {labels labels' : Labels} {args : T'.Args}
    {r r' : Registry}
    (hregister : (Registry.new mode).apply (.register T address name help labels) = some r)
    (hadd : r.apply (.addMetric T' family labels' metric args) = some r') : Reachable mode r' := by
  refine (first_family hregister).step ?_ hadd
  intro T f hf entry hentry
  rw [← Option.some.inj hregister] at hf
  rcases mem_of_register hf with hf | hempty
  · exact absurd hf (not_mem_new f)
  · exact absurd (hempty ▸ hentry) List.not_mem_nil

theorem mem_of_remove {r : Registry} {T T' : MetricKind} {family : ℕ} {f : Family T'}
    (hf : f ∈ (r.remove T family).2.getFamilies T') : f ∈ r.getFamilies T' := by
  rcases r.remove_cases T family with ⟨pre, f', post, hsplit, -, hremove⟩ | ⟨-, hremove⟩
  · rw [hremove, getFamilies_setFamilies] at hf
    by_cases hT : T' = T
    · subst hT
      rw [Function.update_self] at hf
      rw [hsplit]
      exact ((List.sublist_cons_self f' post).append_left pre).subset hf
    · rwa [Function.update_of_ne hT] at hf
  · rwa [hremove] at hf

/-- What holds of new families, and what calls on a family keep, one call keeps
of all families that are held. -/
theorem forall_families_apply {P : (T : MetricKind) → Family T → Prop}
    (hnew : ∀ T (f : Family T), f.metrics_ = [] → P T f)
    (hstep : ∀ T (f f' : Family T), FamilyStep f f' → P T f → P T f') {r r' : Registry} {op : Op}
    (happly : r.apply op = some r') (h : ∀ T, ∀ f ∈ r.getFamilies T, P T f) :
    ∀ T, ∀ f ∈ r'.getFamilies T, P T f := by
  intro T f' hf'
  rcases apply_cases happly with ⟨T', address, name, help, labels, -, rfl⟩ | ⟨T', family, -, rfl⟩ |
    hfamilies
  · exact (mem_of_register hf').elim (h T f') (hnew T f')
  · exact h T f' (mem_of_remove hf')
  · obtain ⟨f, hf, hsteps⟩ := exists_of_mem_forall₂ (hfamilies.2 T) hf'
    cases hsteps with
    | refl => exact h T _ hf
    | single hone => exact hstep T f f' hone (h T f hf)

/-- What holds of new families, and what calls on a family keep, holds of every
family that is held. -/
theorem Reachable.forall_families {mode : InsertBehavior} {P : (T : MetricKind) → Family T → Prop}
    (hnew : ∀ T (f : Family T), f.metrics_ = [] → P T f)
    (hstep : ∀ T (f f' : Family T), FamilyStep f f' → P T f → P T f') {r : Registry}
    (h : Reachable mode r) : ∀ T, ∀ f ∈ r.getFamilies T, P T f := by
  induction h with
  | new =>
      intro T f hf
      exact absurd hf (not_mem_new f)
  | step _ _ happly ih => exact forall_families_apply hnew hstep happly ih

end Registry

end Promcore
