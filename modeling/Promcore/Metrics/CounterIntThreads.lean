import Promcore.Metrics.CounterRuns
import Promcore.Metrics.CounterThreads

/-!
# Integer counters changed by several threads

The additions wrap at 64 bits, in whatever order the threads make them. As long
as the sum of everything that all threads ask for fits, no order of theirs
brings a read that is negative, or smaller than one before it.
-/

namespace Promcore.CounterType

open LabelledSteps
open GaugeType (Shared Step callsOf callsOf_snoc accounted)

section Amounts

variable {call : Call Int64} {calls : List (Call Int64)}

theorem grow_eq_add (h : call ≠ .reset) (sum : ℤ) : grow sum call = sum + grow 0 call := by
  cases call with
  | increment => rw [grow, grow, zero_add]
  | incrementBy val =>
      rw [grow, grow, zero_add]
      split
      · rfl
      · rw [add_zero]
  | reset => exact absurd rfl h

/-- Without a `Reset` the exact sum is that of the calls one by one. -/
theorem exactSum_eq_sum (h : .reset ∉ calls) : exactSum calls = (calls.map (grow 0)).sum := by
  induction calls using List.reverseRecOn with
  | nil => rfl
  | append_singleton calls call ih =>
      simp only [List.mem_append, List.mem_singleton, not_or] at h
      rw [exactSum_snoc, grow_eq_add (Ne.symm h.2), ih h.1, List.map_append, List.sum_append,
        List.map_singleton, List.sum_singleton]

/-- What a call on the gauge adds, as an integer. -/
def gain : GaugeType.Call Int64 → ℤ
  | .increment => 1
  | .incrementBy val => val.toInt
  | _ => 0

theorem weighs_grow : Weighs (fun gaugeCall => some (gain gaugeCall)) (grow 0) where
  reaches {call gaugeCall} h hreset := by
    cases call with
    | increment =>
        cases h
        rfl
    | incrementBy val =>
        rw [Call.onGauge, Option.ite_none_left_eq_some, lt_ofInt_zero] at h
        rw [← Option.some.inj h.2, gain, grow, if_pos (by simpa using h.1), zero_add]
    | reset => exact absurd rfl hreset
  stays {call} h := by
    cases call with
    | increment => cases h
    | incrementBy val =>
        rw [grow]
        refine if_neg fun hval => ?_
        rw [Call.onGauge, lt_ofInt_zero, if_neg (by simpa using hval)] at h
        cases h
    | reset => rfl

/-- What reaches the gauge adds up to the exact sum. -/
theorem sum_gain (h : .reset ∉ calls) :
    ((calls.filterMap Call.onGauge).map gain).sum = exactSum calls := by
  rw [exactSum_eq_sum h, ← weighs_grow.sum_eq h, List.filterMap_eq_map']

theorem gain_nonneg (h : .reset ∉ calls) {gaugeCall : GaugeType.Call Int64}
    (hmem : gaugeCall ∈ calls.filterMap Call.onGauge) : 0 ≤ gain gaugeCall := by
  obtain ⟨call, hcall, honGauge⟩ := List.mem_filterMap.mp hmem
  rw [Option.some.inj (weighs_grow.reaches honGauge fun heq => h (heq ▸ hcall))]
  exact grow_nonneg le_rfl call

end Amounts

section Threads

variable {θ : Type} [DecidableEq θ]

theorem sum_callsOf [Fintype θ] (f : GaugeType.Call Int64 → ℤ)
    (completed : List (θ × GaugeType.Call Int64)) :
    (completed.map fun c => f c.2).sum = ∑ t, ((callsOf t completed).map f).sum := by
  induction completed using List.reverseRecOn with
  | nil => simp [callsOf]
  | append_singleton completed c ih =>
      obtain ⟨u, call⟩ := c
      have hthread (t : θ) : ((callsOf t (completed ++ [(u, call)])).map f).sum =
          ((callsOf t completed).map f).sum + if u = t then f call else 0 := by
        rw [callsOf_snoc]
        split
        · rw [List.map_append, List.sum_append, List.map_singleton, List.sum_singleton]
        · rw [add_zero]
      simp only [hthread, Finset.sum_add_distrib, Finset.sum_ite_eq, Finset.mem_univ, if_true,
        List.map_append, List.sum_append, ih, List.map_singleton, List.sum_singleton]

variable {calls : θ → List (Call Int64)} {s s' : Shared θ Int64}
  {earlier later : List (θ × GaugeType.Call Int64)} {order : List (Call Int64)}

omit [DecidableEq θ] in
/-- The calls on the counter that took effect, in order, have this exact sum. -/
theorem exactSum_order (hreset : ∀ t, .reset ∉ calls t)
    (horder : List.Forall₂ (fun c call => call ∈ calls c.1 ∧ call.onGauge = some c.2) later order) :
    .reset ∉ order ∧ exactSum order = (later.map fun c => gain c.2).sum := by
  have hnot : .reset ∉ order := fun hmem => by
    obtain ⟨c, -, hcall, -⟩ := Simulation.exists_of_mem_forall₂ horder hmem
    exact hreset c.1 hcall
  refine ⟨hnot, ?_⟩
  rw [exactSum_eq_sum hnot, ← weighs_grow.map_eq horder fun call hcall heq => hnot (heq ▸ hcall),
    List.filterMap_eq_map']

/-- No more has been added than all threads ask for, and all of it in the end. -/
theorem gained_le [Fintype θ] (hreset : ∀ t, .reset ∉ calls t) {c : CounterType Int64}
    (h : Steps Step (c.shared calls) later s) :
    (later.map fun c => gain c.2).sum ≤ ∑ t, exactSum (calls t) ∧
      ((∀ t, (s.threads t).calls = []) →
        (later.map fun c => gain c.2).sum = ∑ t, exactSum (calls t)) := by
  have hthread (t : θ) : ((callsOf t later).map gain).sum + ((s.threads t).calls.map gain).sum =
      exactSum (calls t) := by
    rw [← List.sum_append, ← List.map_append, (accounted h).calls t]
    exact sum_gain (hreset t)
  have hleft (t : θ) : 0 ≤ ((s.threads t).calls.map gain).sum := by
    refine List.sum_nonneg fun x hx => ?_
    obtain ⟨gaugeCall, hmem, rfl⟩ := List.mem_map.mp hx
    have hstart : gaugeCall ∈ ((c.shared calls).threads t).calls := by
      rw [← (accounted h).calls t]
      exact List.mem_append_right _ hmem
    exact gain_nonneg (hreset t) hstart
  rw [sum_callsOf]
  constructor
  · exact Finset.sum_le_sum fun t _ => (le_add_of_nonneg_right (hleft t)).trans (hthread t).le
  · intro hdone
    refine Finset.sum_congr rfl fun t _ => ?_
    rw [← hthread t, hdone t, List.map_nil, List.sum_nil, add_zero]

/-- As long as the exact sum of all that the threads ask for fits in 64 bits,
then however they interleave, each read of the counter is between nothing and
that sum and no smaller than one before it, and it is the sum in the end. -/
theorem int_threads_exact [Fintype θ] (hreset : ∀ t, .reset ∉ calls t)
    (hfits : ∑ t, exactSum (calls t) ≤ 2 ^ 63 - 1)
    (hearlier : Steps Step (new.shared calls) earlier s) (hlater : Steps Step s later s') :
    0 ≤ s.value_.toInt ∧ s.value_.toInt ≤ s'.value_.toInt ∧
      s'.value_.toInt ≤ ∑ t, exactSum (calls t) ∧
      ((∀ t, (s'.threads t).calls = []) → s'.value_.toInt = ∑ t, exactSum (calls t)) := by
  obtain ⟨order₁, horder₁, hvalue₁⟩ := exists_sequential (.refl _) hearlier
  obtain ⟨order₂, horder₂, hvalue₂⟩ := exists_sequential hearlier hlater
  have hs : (⟨⟨s.value_⟩⟩ : CounterType Int64) = run order₁ := by rw [hvalue₁]; rfl
  have hs' : s'.value_ = (run (order₁ ++ order₂)).value := by
    rw [hvalue₂, hs, run, run, List.foldl_append]
  obtain ⟨hnot₂, -⟩ := exactSum_order hreset horder₂
  have hsum : exactSum (order₁ ++ order₂) = ((earlier ++ later).map fun c => gain c.2).sum :=
    (exactSum_order hreset (List.rel_append horder₁ horder₂)).2
  obtain ⟨hle, hdone⟩ := gained_le hreset (hearlier.trans hlater)
  have hmono := exactSum_le_append order₁ hnot₂
  have hvalue : s'.value_.toInt = exactSum (order₁ ++ order₂) := by
    rw [hs']
    exact run_value_eq (by omega)
  have hvalue' : s.value_.toInt = exactSum order₁ := by
    rw [hvalue₁]
    exact run_value_eq (by omega)
  rw [hvalue, hvalue', hsum]
  rw [hsum] at hmono
  exact ⟨exactSum_nonneg order₁, hmono, hle, hdone⟩

/-- One caller adds the greatest value but one, another one tries to take 5 away
and adds 1. -/
def nearlyFull (t : Bool) : List (Call Int64) :=
  if t then [.incrementBy (-5), .increment] else [.incrementBy (Int64.maxValue - 1)]

/-- The second caller loads 0, and fails once; the sum just fits. -/
theorem int_threads_exact_nearly_full :
    ∃ s s' : Shared Bool Int64,
      Steps Step (new.shared nearlyFull) [(false, .incrementBy (Int64.maxValue - 1))] s ∧
      Steps Step s [(true, .increment)] s' ∧ s.value_.toInt ≤ s'.value_.toInt ∧
      s'.value_.toInt = 2 ^ 63 - 1 := by
  have hcallers : ∃ s s' : Shared Bool Int64,
      Steps Step (new.shared nearlyFull) [(false, .incrementBy (Int64.maxValue - 1))] s ∧
      Steps Step s [(true, .increment)] s' ∧ ∀ t, (s'.threads t).calls = [] := by
    refine ⟨_, _, .silent (.load (t := true) rfl rfl rfl) <|
      .silent (.load (t := false) rfl rfl rfl) <|
      .shown (.exchange (t := false) rfl rfl rfl rfl) <| .refl _,
      .silent (.reload (t := true) rfl rfl rfl) <|
      .shown (.exchange (t := true) rfl rfl rfl rfl) <| .refl _, fun t => ?_⟩
    cases t
    · rfl
    · rfl
  have hsum : ∑ t, exactSum (nearlyFull t) = 2 ^ 63 - 1 := by decide +kernel
  obtain ⟨s, s', hs, hs', hdone⟩ := hcallers
  obtain ⟨-, hmono, -, hend⟩ := int_threads_exact (by decide) hsum.le hs hs'
  exact ⟨s, s', hs, hs', hmono, (hend hdone).trans hsum⟩

end Threads

end Promcore.CounterType
