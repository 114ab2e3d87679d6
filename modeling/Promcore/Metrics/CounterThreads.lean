import Promcore.Metrics.Interleaving
import Promcore.Metrics.Rising

/-!
# Counters changed by several threads

A call on a counter is a call on its gauge, or none: a negative amount is
compared away before the gauge is touched. So threads that share a counter take
the steps of threads that share a gauge, and between two resets no interleaving
lets a read of the counter be followed by a smaller one.
-/

namespace Promcore.CounterType

open LabelledSteps Simulation
open GaugeType (Shared Step callsOf accounted)

variable {TYPE : Type} [Arithmetic TYPE]

open Arithmetic

/-- The call on the gauge that a call makes, if any. -/
def Call.onGauge : Call TYPE → Option (GaugeType.Call TYPE)
  | .increment => some .increment
  | .incrementBy val => if lt val (ofInt 0) then none else some (.incrementBy val)
  | .reset => some (.set (ofInt 0))

theorem apply_onGauge (c : CounterType TYPE) (call : Call TYPE) :
    c.apply call = ⟨call.onGauge.elim c.gauge_ c.gauge_.apply⟩ := by
  cases call with
  | increment => rfl
  | incrementBy val =>
      rw [apply, incrementBy, Call.onGauge]
      split
      · rfl
      · rfl
  | reset => rfl

/-- What a call adds. -/
def Call.amount : Call TYPE → TYPE
  | .increment => ofInt 1
  | .incrementBy val => if lt val (ofInt 0) then ofInt 0 else val
  | .reset => ofInt 0

variable {θ : Type}

/-- Threads that are about to make these calls on one counter. -/
def shared (c : CounterType TYPE) (calls : θ → List (Call TYPE)) : Shared θ TYPE :=
  ⟨c.gauge_.value_, fun t => ⟨none, (calls t).filterMap Call.onGauge⟩⟩

variable [DecidableEq θ]

/-- A call that takes effect is one that its thread made. -/
theorem mem_calls {c : CounterType TYPE} {calls : θ → List (Call TYPE)} {s s' : Shared θ TYPE}
    {earlier later : List (θ × GaugeType.Call TYPE)}
    (hearlier : Steps Step (c.shared calls) earlier s) (hlater : Steps Step s later s')
    {t : θ} {gaugeCall : GaugeType.Call TYPE} (hmem : (t, gaugeCall) ∈ later) :
    ∃ call ∈ calls t, call.onGauge = some gaugeCall := by
  have hcallsOf : gaugeCall ∈ callsOf t later :=
    List.mem_filterMap.mpr ⟨(t, gaugeCall), hmem, if_pos rfl⟩
  have hleft : gaugeCall ∈ (s.threads t).calls := by
    rw [← (accounted hlater).calls t]
    exact List.mem_append_left _ hcallsOf
  have hstart : gaugeCall ∈ ((c.shared calls).threads t).calls := by
    rw [← (accounted hearlier).calls t]
    exact List.mem_append_right _ hleft
  exact List.mem_filterMap.mp hstart

/-- The calls on the counter that take effect, one after the other, leave it as
they would with nobody else about. -/
theorem exists_sequential {c : CounterType TYPE} {calls : θ → List (Call TYPE)}
    {s s' : Shared θ TYPE} {earlier later : List (θ × GaugeType.Call TYPE)}
    (hearlier : Steps Step (c.shared calls) earlier s) (hlater : Steps Step s later s') :
    ∃ order : List (Call TYPE),
      List.Forall₂ (fun c call => call ∈ calls c.1 ∧ call.onGauge = some c.2) later order ∧
      s'.value_ = (order.foldl apply ⟨⟨s.value_⟩⟩).value := by
  have hcalls : ∀ c ∈ later, ∃ call, call ∈ calls c.1 ∧ call.onGauge = some c.2 :=
    fun c hc => mem_calls hearlier hlater hc
  rw [(accounted hlater).cell]
  generalize s.value_ = value
  clear hlater
  induction later generalizing value with
  | nil => exact ⟨[], .nil, rfl⟩
  | cons c later ih =>
      obtain ⟨call, hcall⟩ := hcalls c List.mem_cons_self
      obtain ⟨order, horder, hvalue⟩ := ih (fun c hc => hcalls c (List.mem_cons_of_mem _ hc))
        (c.2.request.apply value)
      refine ⟨call :: order, .cons hcall horder, ?_⟩
      rw [List.foldl_cons, hvalue, List.foldl_cons, apply_onGauge, hcall.2]
      exact congrArg (fun g => (List.foldl apply ⟨g⟩ order).value)
        (GaugeType.apply_request ⟨value⟩ c.2).symm

/-- Calls that are no resets let a counter not fall. -/
theorem notFallen_foldl {order : List (Call Double)} (h : ∀ call ∈ order, call ≠ .reset)
    (c : CounterType Double) : Double.NotFallen c.value (order.foldl apply c).value := by
  induction order generalizing c with
  | nil => exact .refl _
  | cons call order ih =>
      exact (notFallen_apply (h call List.mem_cons_self) c).trans
        (ih (fun call hcall => h call (List.mem_cons_of_mem _ hcall)) _)

section Amounts

/-- On the gauge a call weighs what it weighs on the counter, and one that does
not reach the gauge weighs nothing. -/
structure Weighs {M : Type} [Zero M] (onGauge : GaugeType.Call TYPE → Option M)
    (onCounter : Call TYPE → M) : Prop where
  reaches : ∀ {call gaugeCall}, call.onGauge = some gaugeCall → call ≠ .reset →
    onGauge gaugeCall = some (onCounter call)
  stays : ∀ {call}, call.onGauge = none → onCounter call = 0

variable {M : Type} [AddCommMonoid M] {onGauge : GaugeType.Call TYPE → Option M}
  {onCounter : Call TYPE → M}

/-- What reaches the gauge is all there is. -/
theorem Weighs.sum_eq (h : Weighs onGauge onCounter) {calls : List (Call TYPE)}
    (hreset : .reset ∉ calls) :
    ((calls.filterMap Call.onGauge).filterMap onGauge).sum = (calls.map onCounter).sum := by
  induction calls with
  | nil => rfl
  | cons call calls ih =>
      have hcall : call ≠ .reset := fun heq => hreset (heq ▸ List.mem_cons_self)
      rw [List.map_cons, List.sum_cons, ← ih fun hmem => hreset (List.mem_cons_of_mem _ hmem)]
      cases honGauge : call.onGauge with
      | none => rw [List.filterMap_cons_none honGauge, h.stays honGauge, zero_add]
      | some gaugeCall =>
          rw [List.filterMap_cons_some honGauge,
            List.filterMap_cons_some (h.reaches honGauge hcall), List.sum_cons]

omit [DecidableEq θ] in
/-- What takes effect weighs what the calls do, one by one. -/
theorem Weighs.map_eq (h : Weighs onGauge onCounter) {calls : θ → List (Call TYPE)}
    {order : List (Call TYPE)} {completed : List (θ × GaugeType.Call TYPE)}
    (horder : List.Forall₂ (fun c call => call ∈ calls c.1 ∧ call.onGauge = some c.2)
      completed order) (hreset : ∀ call ∈ order, call ≠ .reset) :
    completed.filterMap (fun c => onGauge c.2) = order.map onCounter := by
  induction horder with
  | nil => rfl
  | @cons c call completed order hcall _ ih =>
      have hsame := h.reaches hcall.2 (hreset call List.mem_cons_self)
      rw [List.filterMap_cons_some (f := fun c : θ × GaugeType.Call TYPE => onGauge c.2) hsame,
        List.map_cons, ih fun call hmem => hreset call (List.mem_cons_of_mem _ hmem)]

end Amounts

section Double

theorem ofInt_zero : (ofInt 0 : Double) = 0 := congrArg Double.finite Int.cast_zero

theorem amount_incrementBy (val : Double) :
    (Call.incrementBy val).amount = Histogram.counted val := by
  rw [Call.amount, Histogram.counted, ofInt_zero]
  rfl

theorem value_apply_amount {call : Call Double} (hreset : call ≠ .reset) (c : CounterType Double) :
    (c.apply call).value = c.value + call.amount := by
  cases call with
  | increment => rfl
  | incrementBy val => rw [apply, Histogram.incrementBy_eq, amount_incrementBy, value,
      GaugeType.value, value, GaugeType.value]
  | reset => exact absurd rfl hreset

theorem value_foldl_amount {order : List (Call Double)} (h : ∀ call ∈ order, call ≠ .reset)
    (c : CounterType Double) :
    (order.foldl apply c).value = c.value + (order.map Call.amount).sum := by
  induction order generalizing c with
  | nil => exact (add_zero c.value).symm
  | cons call order ih =>
      rw [List.foldl_cons, ih fun call hcall => h call (List.mem_cons_of_mem _ hcall),
        value_apply_amount (h call List.mem_cons_self), List.map_cons, List.sum_cons, add_assoc]

theorem weighs_amount : Weighs GaugeType.Call.signed (Call.amount : Call Double → Double) where
  reaches {call gaugeCall} h hreset := by
    cases call with
    | increment =>
        cases h
        rfl
    | incrementBy val =>
        rw [Call.onGauge, Option.ite_none_left_eq_some] at h
        rw [Call.amount, if_neg h.1, ← Option.some.inj h.2, GaugeType.Call.signed]
    | reset => exact absurd rfl hreset
  stays {call} h := by
    cases call with
    | increment => cases h
    | incrementBy val =>
        refine (if_pos (by_contra fun hval => ?_)).trans ofInt_zero
        rw [Call.onGauge, if_neg hval] at h
        cases h
    | reset => cases h

/-- However threads that share a counter interleave, what a read finds after
calls other than `Reset` is no less than what a read found before them, and the
difference is what they add. Once all threads are done, and none has called
`Reset`, the counter is its start with all amounts added that are not negative. -/
theorem threads_never_fall {c : CounterType Double} {calls : θ → List (Call Double)}
    {s s' : Shared θ Double} {earlier later : List (θ × GaugeType.Call Double)}
    (hearlier : Steps Step (c.shared calls) earlier s) (hlater : Steps Step s later s') :
    ((∀ c ∈ later, c.2 ≠ .set (ofInt 0)) →
      Double.NotFallen s.value_ s'.value_ ∧
        s'.value_ = s.value_ + (later.filterMap (·.2.signed)).sum) ∧
    ∀ [Fintype θ], (∀ t, .reset ∉ calls t) → (∀ t, (s'.threads t).calls = []) →
      s'.value_ = c.value + ∑ t, ((calls t).map Call.amount).sum := by
  constructor
  · intro hset
    obtain ⟨order, horder, hvalue⟩ := exists_sequential hearlier hlater
    have hreset : ∀ call ∈ order, call ≠ .reset := by
      rintro call hcall rfl
      obtain ⟨c, hc, -, honGauge⟩ := exists_of_mem_forall₂ horder hcall
      exact hset c hc (Option.some.inj honGauge).symm
    rw [hvalue, weighs_amount.map_eq horder hreset]
    exact ⟨notFallen_foldl hreset ⟨⟨s.value_⟩⟩, value_foldl_amount hreset ⟨⟨s.value_⟩⟩⟩
  · intro _ hreset hdone
    have hrun := hearlier.trans hlater
    obtain ⟨order, horder, hvalue⟩ := exists_sequential (.refl _) hrun
    have horder_reset : ∀ call ∈ order, call ≠ .reset := by
      rintro call hcall rfl
      obtain ⟨c, -, hmem, -⟩ := exists_of_mem_forall₂ horder hcall
      exact hreset c.1 hmem
    rw [hvalue, value_foldl_amount horder_reset, ← weighs_amount.map_eq horder horder_reset,
      GaugeType.sum_signed]
    refine congrArg (c.value + ·) (Finset.sum_congr rfl fun t _ => ?_)
    have hcalls := (accounted hrun).calls t
    rw [hdone t, List.append_nil] at hcalls
    rw [hcalls]
    exact weighs_amount.sum_eq (hreset t)

/-- One caller adds 3, another tries to take away 2 and then adds 1. -/
def twoCallers (t : Bool) : List (Call Double) :=
  if t then [.incrementBy (.finite (-2)), .increment] else [.incrementBy (.finite 3)]

/-- The second caller loads 0, and fails once. -/
theorem threads_never_fall_two_callers :
    ∃ s s' : Shared Bool Double,
      Steps Step (new.shared twoCallers) [(false, .incrementBy (.finite 3))] s ∧
      Steps Step s [(true, .increment)] s' ∧ Double.NotFallen s.value_ s'.value_ ∧
      s'.value_ = new.value + ∑ t, ((twoCallers t).map Call.amount).sum := by
  have hcallers : ∃ s s' : Shared Bool Double,
      Steps Step (new.shared twoCallers) [(false, .incrementBy (.finite 3))] s ∧
      Steps Step s [(true, .increment)] s' ∧ ∀ t, (s'.threads t).calls = [] := by
    have hfirst : ((new.shared twoCallers).threads false).calls = [.incrementBy (.finite 3)] := by
      decide +kernel
    have hsecond : ((new.shared twoCallers).threads true).calls = [.increment] := by
      decide +kernel
    refine ⟨_, _, .silent (.load (t := true) hsecond rfl rfl) <|
      .silent (.load (t := false) hfirst rfl rfl) <|
      .shown (.exchange (t := false) rfl rfl rfl rfl) <| .refl _,
      .silent (.reload (t := true) rfl rfl rfl) <|
      .shown (.exchange (t := true) rfl rfl rfl rfl) <| .refl _, fun t => ?_⟩
    cases t
    · rfl
    · rfl
  obtain ⟨s, s', hs, hs', hdone⟩ := hcallers
  have hboth := threads_never_fall hs hs'
  refine ⟨s, s', hs, hs', (hboth.1 (by decide +kernel)).1, hboth.2 (fun t => ?_) hdone⟩
  cases t
  · decide +kernel
  · decide +kernel

end Double

end Promcore.CounterType
