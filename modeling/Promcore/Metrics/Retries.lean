import Mathlib.Algebra.BigOperators.Fin
import Mathlib.Algebra.Order.BigOperators.Group.Finset
import Mathlib.Data.Fintype.Card
import Promcore.Metrics.Interleaving

/-!
# How often a change is tried again

A change repeats its exchange until it succeeds. An exchange that finds another
value than the one loaded fails because some call took effect in between, and
each call that takes effect makes at most all other threads fail once. So the
threads as a whole get on: but for the failures that a weak exchange may show
without a reason, they are done after a bounded number of steps.
-/

namespace Promcore.GaugeType

open Finset

/-- What a step comes to. -/
inductive Outcome (TYPE : Type) where
  | loaded
  | lost
  | spurious
  | completed (call : Call TYPE)
deriving DecidableEq

namespace Outcome

variable {TYPE : Type}

def isLoaded : Outcome TYPE → Bool
  | .loaded => true
  | _ => false

def isLost : Outcome TYPE → Bool
  | .lost => true
  | _ => false

def isSpurious : Outcome TYPE → Bool
  | .spurious => true
  | _ => false

def isCompleted : Outcome TYPE → Bool
  | .completed _ => true
  | _ => false

/-- The label of the step. -/
def label {θ : Type} (t : θ) : Outcome TYPE → Option (θ × Call TYPE)
  | .completed call => some (t, call)
  | _ => none

end Outcome

variable {TYPE : Type} [Arithmetic TYPE] {θ : Type} [DecidableEq θ]

/-- One atomic step of a thread. An exchange is lost when the cell holds
another value than the one loaded. -/
inductive Attempt : Shared θ TYPE → θ → Outcome TYPE → Shared θ TYPE → Prop
  | loaded {s : Shared θ TYPE} {t : θ} {call : Call TYPE} {calls : List (Call TYPE)} {value : TYPE}
      (hcalls : (s.threads t).calls = call :: calls) (hrequest : call.request = .change value)
      (hcurrent : (s.threads t).current = none) :
      Attempt s t .loaded (s.withThread t ⟨some s.value_, call :: calls⟩)
  | lost {s : Shared θ TYPE} {t : θ} {call : Call TYPE} {calls : List (Call TYPE)}
      {value current : TYPE} (hcalls : (s.threads t).calls = call :: calls)
      (hrequest : call.request = .change value)
      (hcurrent : (s.threads t).current = some current) (hchanged : s.value_ ≠ current) :
      Attempt s t .lost (s.withThread t ⟨some s.value_, call :: calls⟩)
  | spurious {s : Shared θ TYPE} {t : θ} {call : Call TYPE} {calls : List (Call TYPE)}
      {value current : TYPE} (hcalls : (s.threads t).calls = call :: calls)
      (hrequest : call.request = .change value)
      (hcurrent : (s.threads t).current = some current) (hequal : s.value_ = current) :
      Attempt s t .spurious (s.withThread t ⟨some s.value_, call :: calls⟩)
  | completed {s s' : Shared θ TYPE} {t : θ} {call : Call TYPE}
      (hstep : Step s (some (t, call)) s') : Attempt s t (.completed call) s'

/-- The attempts are the steps of the threads. -/
theorem step_iff_attempt {s s' : Shared θ TYPE} {label : Option (θ × Call TYPE)} :
    Step s label s' ↔ ∃ t o, Attempt s t o s' ∧ label = o.label t := by
  constructor
  · intro hstep
    cases hlabel : label with
    | some c =>
        rw [hlabel] at hstep
        exact ⟨c.1, .completed c.2, .completed hstep, rfl⟩
    | none =>
        rw [hlabel] at hstep
        cases hstep with
        | load hcalls hrequest hcurrent => exact ⟨_, _, .loaded hcalls hrequest hcurrent, rfl⟩
        | @reload t call calls value current hcalls hrequest hcurrent =>
            by_cases hequal : s.value_ = current
            · exact ⟨_, _, .spurious hcalls hrequest hcurrent hequal, rfl⟩
            · exact ⟨_, _, .lost hcalls hrequest hcurrent hequal, rfl⟩
  · rintro ⟨t, o, hattempt, rfl⟩
    cases hattempt with
    | loaded hcalls hrequest hcurrent => exact .load hcalls hrequest hcurrent
    | lost hcalls hrequest hcurrent _ => exact .reload hcalls hrequest hcurrent
    | spurious hcalls hrequest hcurrent _ => exact .reload hcalls hrequest hcurrent
    | completed hstep => exact hstep

/-- A run with the thread and the outcome of each step, the newest one last. -/
inductive Tries (start : Shared θ TYPE) : List (θ × Outcome TYPE) → Shared θ TYPE → Prop
  | refl : Tries start [] start
  | snoc {steps : List (θ × Outcome TYPE)} {s s' : Shared θ TYPE} {t : θ} {o : Outcome TYPE}
      (h : Tries start steps s) (hattempt : Attempt s t o s') :
      Tries start (steps ++ [(t, o)]) s'

omit [Arithmetic TYPE] [DecidableEq θ] in
theorem countP_snoc (p : Outcome TYPE → Bool) (steps : List (θ × Outcome TYPE)) (t : θ)
    (o : Outcome TYPE) : (steps ++ [(t, o)]).countP (fun step => p step.2) =
      steps.countP (fun step => p step.2) + (p o).toNat := by
  rw [List.countP_append, List.countP_singleton]
  cases p o <;> rfl

/-- The step is a lost exchange of this thread. -/
def lostBy (t : θ) (step : θ × Outcome TYPE) : Bool := decide (step.1 = t) && step.2.isLost

/-- The step completes a call of another thread. -/
def completedBeside (t : θ) (step : θ × Outcome TYPE) : Bool :=
  decide (step.1 ≠ t) && step.2.isCompleted

/-- A thread in a change that has loaded another value than the cell holds. -/
def Shared.stale [DecidableEq TYPE] (s : Shared θ TYPE) (t : θ) : Bool :=
  (s.threads t).current.any fun current => s.value_ ≠ current

/-- A thread in a change. -/
def Shared.changing (s : Shared θ TYPE) (t : θ) : Bool := (s.threads t).current.isSome

section Steps

variable {s s' : Shared θ TYPE} {t : θ} {o : Outcome TYPE}

/-- A step that completes no call leaves its thread with what the cell holds, and
changes nothing else. -/
theorem Attempt.of_not_completed (h : Attempt s t o s') (ho : o.isCompleted = false) :
    s' = s.withThread t ⟨some s.value_, (s.threads t).calls⟩ := by
  cases h with
  | loaded hcalls _ _ => rw [hcalls]
  | lost hcalls _ _ _ => rw [hcalls]
  | spurious hcalls _ _ _ => rw [hcalls]
  | completed => cases ho

theorem Attempt.of_completed (h : Attempt s t o s') (ho : o.isCompleted = true) :
    ∃ call calls, (s.threads t).calls = call :: calls ∧
      s'.threads = Function.update s.threads t ⟨none, calls⟩ := by
  cases h with
  | completed hstep =>
      obtain ⟨-, calls, hcalls, hthreads⟩ := hstep.completes
      exact ⟨_, calls, hcalls, hthreads⟩
  | _ => cases ho

/-- Only a thread with an old value loses an exchange. -/
theorem Attempt.stale_of_lost [DecidableEq TYPE] (h : Attempt s t o s') (ho : o.isLost = true) :
    s.stale t = true := by
  cases h with
  | lost _ _ hcurrent hchanged => simp [Shared.stale, hcurrent, hchanged]
  | _ => cases ho

variable [Fintype θ] [DecidableEq TYPE]

/-- What the steps so far have cost: a thread that will fail once more, and those
that have loaded, are paid for. -/
structure Paid (start s : Shared θ TYPE) (steps : List (θ × Outcome TYPE)) : Prop where
  lost : ∀ t, steps.countP (lostBy t) + (s.stale t).toNat ≤ steps.countP (completedBeside t)
  loaded : steps.countP (·.2.isLoaded) ≤ steps.countP (·.2.isCompleted) + #{t | s.changing t}
  calls : steps.countP (·.2.isCompleted) + ∑ t, (s.threads t).calls.length =
    ∑ t, (start.threads t).calls.length

omit [Arithmetic TYPE] [Fintype θ] in
theorem stale_kept (s : Shared θ TYPE) (t u : θ) :
    (s.withThread t ⟨some s.value_, (s.threads t).calls⟩).stale u =
      if u = t then false else s.stale u := by
  split
  · next hu =>
      subst hu
      simp [Shared.stale, Shared.withThread]
  · next hu =>
      have hthread : (s.withThread t ⟨some s.value_, (s.threads t).calls⟩).threads u =
          s.threads u := Function.update_of_ne hu _ _
      rw [Shared.stale, hthread]
      rfl

omit [Arithmetic TYPE] [DecidableEq TYPE] in
theorem changing_kept (s : Shared θ TYPE) (t : θ) :
    ({u | (s.withThread t ⟨some s.value_, (s.threads t).calls⟩).changing u} : Finset θ) =
      insert t ({u | s.changing u} : Finset θ) := by
  ext u
  rw [mem_insert, mem_filter_univ, mem_filter_univ]
  by_cases hu : u = t
  · subst hu
    simp [Shared.changing, Shared.withThread]
  · simp [Shared.changing, Shared.withThread, hu]

omit [Arithmetic TYPE] [DecidableEq TYPE] in
theorem calls_kept (s : Shared θ TYPE) (t : θ) :
    ∑ u, ((s.withThread t ⟨some s.value_, (s.threads t).calls⟩).threads u).calls.length =
      ∑ u, (s.threads u).calls.length := by
  refine sum_congr rfl fun u _ => ?_
  by_cases hu : u = t
  · subst hu
    simp [Shared.withThread]
  · simp [Shared.withThread, hu]

omit [Arithmetic TYPE] [DecidableEq TYPE] in
theorem changing_completed {calls : List (Call TYPE)}
    (h : s'.threads = Function.update s.threads t ⟨none, calls⟩) :
    #{u | s.changing u} ≤ #{u | s'.changing u} + 1 := by
  have hsub : ({u | s.changing u} : Finset θ) ⊆ insert t ({u | s'.changing u} : Finset θ) := by
    intro u hu
    by_cases hut : u = t
    · exact mem_insert.mpr (Or.inl hut)
    · rw [mem_filter_univ] at hu
      refine mem_insert.mpr (Or.inr ?_)
      rw [mem_filter_univ]
      simpa [Shared.changing, h, hut] using hu
  exact (card_le_card hsub).trans (card_insert_le _ _)

omit [Arithmetic TYPE] [DecidableEq TYPE] in
theorem calls_completed {call : Call TYPE} {calls : List (Call TYPE)}
    (hcalls : (s.threads t).calls = call :: calls)
    (h : s'.threads = Function.update s.threads t ⟨none, calls⟩) :
    ∑ u, (s.threads u).calls.length = ∑ u, (s'.threads u).calls.length + 1 := by
  have hthread (u : θ) : (s.threads u).calls.length =
      (s'.threads u).calls.length + if u = t then 1 else 0 := by
    by_cases hu : u = t
    · subst hu
      simp [h, hcalls]
    · simp [h, hu]
  simp only [hthread, sum_add_distrib, sum_ite_eq', mem_univ, if_true]

variable {start : Shared θ TYPE} {steps : List (θ × Outcome TYPE)}

theorem Paid.kept (h : Paid start s steps) (hattempt : Attempt s t o s')
    (ho : o.isCompleted = false) : Paid start s' (steps ++ [(t, o)]) := by
  have hcompleted : (steps ++ [(t, o)]).countP (·.2.isCompleted) =
      steps.countP (·.2.isCompleted) := by rw [countP_snoc Outcome.isCompleted, ho]; rfl
  have hcalls := h.calls
  rw [← calls_kept s t] at hcalls
  have hchanging := card_le_card (subset_insert t ({u | s.changing u} : Finset θ))
  rw [hattempt.of_not_completed ho]
  constructor
  · intro u
    have hbeside : (steps ++ [(t, o)]).countP (completedBeside u) =
        steps.countP (completedBeside u) := by simp [completedBeside, ho]
    rw [hbeside, stale_kept, List.countP_append, List.countP_singleton]
    have hlost := h.lost u
    by_cases hu : u = t
    · subst hu
      cases hmissed : o.isLost with
      | true =>
          rw [hattempt.stale_of_lost hmissed, Bool.toNat_true] at hlost
          simpa [lostBy, hmissed] using hlost
      | false =>
          have hfewer := (Nat.le_add_right _ _).trans hlost
          simpa [lostBy, hmissed] using hfewer
    · simpa [lostBy, hu, Ne.symm hu] using hlost
  · rw [hcompleted, changing_kept, countP_snoc Outcome.isLoaded]
    have hloaded := h.loaded
    cases hattempt with
    | loaded _ _ hcurrent =>
        have hmem : t ∉ ({u | s.changing u} : Finset θ) := by
          rw [mem_filter_univ]
          simp [Shared.changing, hcurrent]
        rw [card_insert_of_notMem hmem, ← add_assoc]
        exact Nat.add_le_add_right hloaded 1
    | lost => exact hloaded.trans (Nat.add_le_add_left hchanging _)
    | spurious => exact hloaded.trans (Nat.add_le_add_left hchanging _)
    | completed => cases ho
  · rw [hcompleted]
    exact hcalls

theorem Paid.completed (h : Paid start s steps) (hattempt : Attempt s t o s')
    (ho : o.isCompleted = true) : Paid start s' (steps ++ [(t, o)]) := by
  obtain ⟨call, calls, hcalls, hthreads⟩ := hattempt.of_completed ho
  have hcompleted : (steps ++ [(t, o)]).countP (·.2.isCompleted) =
      steps.countP (·.2.isCompleted) + 1 := by rw [countP_snoc Outcome.isCompleted, ho]; rfl
  have hother : o.isLost = false ∧ o.isLoaded = false := by
    cases hattempt with
    | completed => exact ⟨rfl, rfl⟩
    | _ => cases ho
  have hchanging := changing_completed hthreads
  have hlength := calls_completed hcalls hthreads
  constructor
  · intro u
    have hmissed : (steps ++ [(t, o)]).countP (lostBy u) = steps.countP (lostBy u) := by
      simp [lostBy, hother.1]
    have hlost := h.lost u
    rw [hmissed, List.countP_append, List.countP_singleton]
    by_cases hu : u = t
    · -- the thread is in no change now
      subst hu
      have hfresh : s'.stale u = false := by simp [Shared.stale, hthreads]
      rw [hfresh]
      simp only [Bool.toNat_false]
      omega
    · have hone := Bool.toNat_le (s'.stale u)
      simp only [completedBeside, ho, Bool.and_true, decide_eq_true_eq, ne_eq, Ne.symm hu,
        not_false_eq_true, if_true]
      omega
  · have hloaded := h.loaded
    rw [hcompleted, countP_snoc Outcome.isLoaded, hother.2, Bool.toNat_false]
    omega
  · have htotal := h.calls
    rw [hcompleted]
    omega

omit [Arithmetic TYPE] in
theorem paid_start (hidle : ∀ t, (start.threads t).current = none) : Paid start start [] := by
  refine ⟨fun t => ?_, ?_, ?_⟩
  · simp [Shared.stale, hidle]
  · simp
  · simp

theorem Tries.paid (hidle : ∀ t, (start.threads t).current = none) (h : Tries start steps s) :
    Paid start s steps := by
  induction h with
  | refl => exact paid_start hidle
  | @snoc steps s s' t o _ hattempt ih =>
      cases ho : o.isCompleted with
      | true => exact ih.completed hattempt ho
      | false => exact ih.kept hattempt ho

omit [Fintype θ] in
/-- A thread with a call can go on, and not only by failing without a reason. -/
theorem exists_attempt (h : (s.threads t).calls ≠ []) :
    ∃ o s', Attempt s t o s' ∧ o.isSpurious = false := by
  obtain ⟨call, calls, hcalls⟩ := List.exists_cons_of_ne_nil h
  cases hrequest : call.request with
  | store value => exact ⟨_, _, .completed (.store hcalls hrequest), rfl⟩
  | change value =>
      cases hcurrent : (s.threads t).current with
      | none => exact ⟨_, _, .loaded hcalls hrequest hcurrent, rfl⟩
      | some current =>
          by_cases hequal : s.value_ = current
          · exact ⟨_, _, .completed (.exchange hcalls hrequest hcurrent hequal), rfl⟩
          · exact ⟨_, _, .lost hcalls hrequest hcurrent hequal, rfl⟩

end Steps

omit [Arithmetic TYPE] [DecidableEq θ] in
theorem length_steps (steps : List (θ × Outcome TYPE)) : steps.length =
    steps.countP (·.2.isLoaded) + steps.countP (·.2.isLost) +
      steps.countP (·.2.isSpurious) + steps.countP (·.2.isCompleted) := by
  induction steps with
  | nil => rfl
  | cons step steps ih =>
      obtain ⟨t, o⟩ := step
      simp only [List.length_cons, List.countP_cons, ih]
      cases o <;> simp [Outcome.isLoaded, Outcome.isLost, Outcome.isSpurious, Outcome.isCompleted] <;>
        omega

omit [Arithmetic TYPE] in
/-- Each lost exchange is one thread's, and each completed call is beside all
other threads. -/
theorem sum_lostBy [Fintype θ] (steps : List (θ × Outcome TYPE)) :
    ∑ t, steps.countP (lostBy t) = steps.countP (·.2.isLost) ∧
      ∑ t, steps.countP (completedBeside t) + steps.countP (·.2.isCompleted) =
        Fintype.card θ * steps.countP (·.2.isCompleted) := by
  induction steps with
  | nil => simp
  | cons step steps ih =>
      obtain ⟨u, o⟩ := step
      have hlost (t : θ) : ((u, o) :: steps).countP (lostBy t) =
          steps.countP (lostBy t) + if u = t then o.isLost.toNat else 0 := by
        rw [List.countP_cons]
        by_cases hu : u = t <;> cases ho : o.isLost <;> simp [lostBy, hu, ho]
      have hbeside (t : θ) : ((u, o) :: steps).countP (completedBeside t) +
          (if u = t then o.isCompleted.toNat else 0) =
            steps.countP (completedBeside t) + o.isCompleted.toNat := by
        rw [List.countP_cons]
        by_cases hu : u = t <;> cases ho : o.isCompleted <;> simp [completedBeside, hu, ho]
      have hsum : ∑ t, ((u, o) :: steps).countP (completedBeside t) + o.isCompleted.toNat =
          ∑ t, steps.countP (completedBeside t) + Fintype.card θ * o.isCompleted.toNat := by
        have hadd := Finset.sum_congr rfl fun t (_ : t ∈ univ) => hbeside t
        simpa [sum_add_distrib] using hadd
      have hcons : ((u, o) :: steps).countP (·.2.isCompleted) =
          steps.countP (·.2.isCompleted) + o.isCompleted.toNat := by
        rw [List.countP_cons]
        cases o.isCompleted <;> rfl
      constructor
      · simp only [hlost, sum_add_distrib, sum_ite_eq, mem_univ, if_true, ih.1]
        rw [List.countP_cons]
        cases o.isLost <;> rfl
      · rw [hcons, mul_add, ← ih.2]
        omega

/-- In every interleaving each call that takes effect makes every other thread
fail at most once. But for spurious failures, a run takes no more than a
bounded number of steps, and a thread that has calls left can always take one
that is no spurious failure; so all calls take effect. -/
theorem lock_free [Fintype θ] [DecidableEq TYPE] {start s : Shared θ TYPE}
    {steps : List (θ × Outcome TYPE)} (hidle : ∀ t, (start.threads t).current = none)
    (h : Tries start steps s) :
    (∀ t, steps.countP (lostBy t) ≤ steps.countP (completedBeside t)) ∧
      steps.length ≤ steps.countP (·.2.isSpurious) +
        (Fintype.card θ + 1) * ∑ t, (start.threads t).calls.length + Fintype.card θ ∧
      ∀ t, (s.threads t).calls ≠ [] → ∃ o s', Attempt s t o s' ∧ o.isSpurious = false := by
  obtain ⟨hlost, hloaded, hcalls⟩ := h.paid hidle
  have hpaid : ∀ t, steps.countP (lostBy t) ≤ steps.countP (completedBeside t) :=
    fun t => (Nat.le_add_right _ _).trans (hlost t)
  refine ⟨hpaid, ?_, fun t ht => exists_attempt ht⟩
  have hloads : steps.countP (·.2.isLoaded) ≤ steps.countP (·.2.isCompleted) + Fintype.card θ :=
    hloaded.trans (Nat.add_le_add_left (card_le_univ _) _)
  have hcompleted : steps.countP (·.2.isCompleted) ≤ ∑ t, (start.threads t).calls.length :=
    hcalls ▸ Nat.le_add_right _ _
  obtain ⟨hsumlost, hsumbeside⟩ := sum_lostBy steps
  have hlosses : steps.countP (·.2.isLost) + steps.countP (·.2.isCompleted) ≤
      Fintype.card θ * ∑ t, (start.threads t).calls.length := by
    calc
      _ ≤ ∑ t, steps.countP (completedBeside t) + steps.countP (·.2.isCompleted) := by
        rw [← hsumlost]
        exact Nat.add_le_add_right (sum_le_sum fun t _ => hpaid t) _
      _ = Fintype.card θ * steps.countP (·.2.isCompleted) := hsumbeside
      _ ≤ _ := Nat.mul_le_mul_left _ hcompleted
  calc
    steps.length = steps.countP (·.2.isLoaded) + steps.countP (·.2.isLost) +
        steps.countP (·.2.isSpurious) + steps.countP (·.2.isCompleted) := length_steps steps
    _ ≤ steps.countP (·.2.isSpurious) +
        (Fintype.card θ * ∑ t, (start.threads t).calls.length +
          ∑ t, (start.threads t).calls.length) + Fintype.card θ := by omega
    _ = _ := by rw [add_mul, one_mul]

/-- The thread that takes away has loaded 0 before the other one adds 3, so its
first exchange is lost. -/
theorem lock_free_two_threads : ∃ (steps : List (Bool × Outcome Int64)) (s : Shared Bool Int64),
    Tries twoThreads steps s ∧ steps.countP (lostBy true) = 1 ∧ s.value_ = 2 ∧
      ∀ t, steps.countP (lostBy t) ≤ steps.countP (completedBeside t) := by
  have hrun : ∃ s : Shared Bool Int64, Tries twoThreads
      [(true, .loaded), (false, .loaded), (false, .completed (.incrementBy 3)), (true, .lost),
        (true, .completed (.decrementBy 1))] s ∧ s.value_ = 2 :=
    ⟨_, ((((Tries.refl.snoc (.loaded (t := true) rfl rfl rfl)).snoc
      (.loaded (t := false) rfl rfl rfl)).snoc
      (.completed (.exchange (t := false) rfl rfl rfl rfl))).snoc
      (.lost (t := true) rfl rfl rfl (by decide))).snoc
      (.completed (.exchange (t := true) rfl rfl rfl rfl)), by decide⟩
  obtain ⟨s, hs, hvalue⟩ := hrun
  exact ⟨_, s, hs, rfl, hvalue, (lock_free (fun t => by cases t <;> rfl) hs).1⟩

end Promcore.GaugeType
