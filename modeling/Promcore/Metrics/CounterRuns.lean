import Promcore.Metrics.Gauge

/-!
# Runs of an integer counter

The value is the exact sum of the increments, brought into the signed range of
64 bits. It is the sum itself, and so only increases, as long as the sum fits.
-/

namespace Promcore.CounterType

/-- The counter after a list of calls, in order. -/
def run {TYPE : Type} [Arithmetic TYPE] (calls : List (Call TYPE)) : CounterType TYPE :=
  calls.foldl apply new

/-- The exact sum after one more call: a negative amount adds nothing. -/
def grow (sum : ℤ) : Call Int64 → ℤ
  | .increment => sum + 1
  | .incrementBy val => if 0 ≤ val.toInt then sum + val.toInt else sum
  | .reset => 0

/-- The exact sum of the increments since the last reset. -/
def exactSum (calls : List (Call Int64)) : ℤ := calls.foldl grow 0

variable {calls earlier later : List (Call Int64)}

section ExactSum

theorem le_grow {sum : ℤ} {call : Call Int64} (h : call ≠ .reset) : sum ≤ grow sum call := by
  cases call with
  | increment => exact Int.le_add_one le_rfl
  | incrementBy val =>
      rw [grow]
      split <;> omega
  | reset => exact absurd rfl h

theorem grow_nonneg {sum : ℤ} (h : 0 ≤ sum) (call : Call Int64) : 0 ≤ grow sum call := by
  by_cases hreset : call = .reset
  · rw [hreset, grow]
  · exact h.trans (le_grow hreset)

theorem exactSum_append (earlier later : List (Call Int64)) :
    exactSum (earlier ++ later) = later.foldl grow (exactSum earlier) :=
  List.foldl_append

theorem exactSum_snoc (calls : List (Call Int64)) (call : Call Int64) :
    exactSum (calls ++ [call]) = grow (exactSum calls) call :=
  exactSum_append calls [call]

theorem exactSum_nonneg (calls : List (Call Int64)) : 0 ≤ exactSum calls := by
  induction calls using List.reverseRecOn with
  | nil => exact le_rfl
  | append_singleton calls call ih =>
      rw [exactSum_snoc]
      exact grow_nonneg ih call

/-- The exact sum only increases between resets. -/
theorem exactSum_le_append (earlier : List (Call Int64)) (h : .reset ∉ later) :
    exactSum earlier ≤ exactSum (earlier ++ later) := by
  induction later using List.reverseRecOn with
  | nil => rw [List.append_nil]
  | append_singleton later call ih =>
      simp only [List.mem_append, List.mem_singleton, not_or] at h
      rw [← List.append_assoc, exactSum_snoc]
      exact (ih h.1).trans (le_grow (Ne.symm h.2))

end ExactSum

section Value

theorem lt_ofInt_zero (val : Int64) :
    Arithmetic.lt val (Arithmetic.ofInt 0) = decide (val.toInt < 0) :=
  decide_eq_decide.mpr Int64.lt_iff_toInt_lt

/-- One call keeps the value equal to the exact sum modulo `2 ^ 64`. -/
theorem apply_value {c : CounterType Int64} {sum : ℤ} (h : c.value.toInt = sum.bmod (2 ^ 64))
    (call : Call Int64) : (c.apply call).value.toInt = (grow sum call).bmod (2 ^ 64) := by
  have hadd : ∀ v : Int64, (c.value + v).toInt = (sum + v.toInt).bmod (2 ^ 64) := by
    intro v
    rw [Int64.toInt_add, h, Int.bmod_add_bmod]
  cases call with
  | increment => exact hadd 1
  | incrementBy val =>
      rw [apply, incrementBy, lt_ofInt_zero, grow]
      by_cases hneg : val.toInt < 0
      · rw [if_pos (by simpa using hneg), if_neg (by omega)]
        exact h
      · rw [if_neg (by simpa using hneg), if_pos (by omega)]
        exact hadd val
  | reset => rfl

theorem run_snoc (calls : List (Call Int64)) (call : Call Int64) :
    run (calls ++ [call]) = (run calls).apply call := by
  rw [run, run, List.foldl_append]
  rfl

/-- In every run the value is the exact sum modulo `2 ^ 64`. -/
theorem run_value (calls : List (Call Int64)) :
    (run calls).value.toInt = (exactSum calls).bmod (2 ^ 64) := by
  induction calls using List.reverseRecOn with
  | nil => rfl
  | append_singleton calls call ih =>
      rw [run_snoc, exactSum_snoc]
      exact apply_value ih call

theorem run_value_eq (h : exactSum calls ≤ 2 ^ 63 - 1) :
    (run calls).value.toInt = exactSum calls := by
  have hnonneg := exactSum_nonneg calls
  rw [run_value]
  exact Int.bmod_eq_of_le (by omega) (by omega)

end Value

/-- What a counter promises at every step of a run: the value is the exact
sum, never negative, and no smaller than one read since the last reset. -/
structure OnlyIncreases (calls : List (Call Int64)) : Prop where
  exact : ∀ earlier, earlier <+: calls → (run earlier).value.toInt = exactSum earlier
  nonneg : ∀ earlier, earlier <+: calls → 0 ≤ (run earlier).value.toInt
  mono : ∀ earlier later, earlier ++ later <+: calls → .reset ∉ later →
    (run earlier).value.toInt ≤ (run (earlier ++ later)).value.toInt

/-- A counter only increases exactly as long as the sum stays in range. -/
theorem onlyIncreases_iff (calls : List (Call Int64)) :
    OnlyIncreases calls ↔ ∀ earlier, earlier <+: calls → exactSum earlier ≤ 2 ^ 63 - 1 := by
  constructor
  · intro h earlier hprefix
    have hlt := Int64.toInt_lt (run earlier).value
    rw [h.exact earlier hprefix] at hlt
    omega
  · intro h
    have hexact : ∀ earlier, earlier <+: calls → (run earlier).value.toInt = exactSum earlier :=
      fun earlier hprefix => run_value_eq (h earlier hprefix)
    refine ⟨hexact, ?_, ?_⟩
    · intro earlier hprefix
      rw [hexact earlier hprefix]
      exact exactSum_nonneg earlier
    · intro earlier later hprefix hreset
      rw [hexact _ hprefix, hexact _ ((List.prefix_append _ _).trans hprefix)]
      exact exactSum_le_append earlier hreset

/-- One more than the largest value is the smallest. -/
theorem not_onlyIncreases_overflow :
    ¬ OnlyIncreases [.incrementBy Int64.maxValue, .increment] := by
  intro h
  have hvalue := h.nonneg _ (List.prefix_refl _)
  revert hvalue
  decide

end Promcore.CounterType
