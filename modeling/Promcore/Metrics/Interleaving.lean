import Mathlib.Algebra.BigOperators.Group.Finset.Basic
import Mathlib.Logic.Function.Basic
import Promcore.Library.LabelledSteps
import Promcore.Metrics.Gauge

/-!
# Gauges changed by several threads

A gauge is one shared cell. A `Set` is one store. A change loads the cell into
a local `current` and repeats a weak compare-and-exchange until it succeeds; a
failed one, spurious or not, reloads `current`. The calls take effect one
after the other, in the order of their stores and successful exchanges.
-/

namespace Promcore

/-- Addition commutes, and a product with minus one is the opposite. -/
class LawfulArithmetic (TYPE : Type) [Arithmetic TYPE] extends AddCommMonoid TYPE, Neg TYPE where
  add_eq : ∀ x y : TYPE, Arithmetic.add x y = x + y
  neg_one_mul : ∀ x : TYPE, Arithmetic.mul (Arithmetic.ofInt (-1)) x = -x

instance : LawfulArithmetic Int64 where
  add_assoc := Int64.add_assoc
  zero_add := Int64.zero_add
  add_zero := Int64.add_zero
  add_comm := Int64.add_comm
  nsmul := nsmulRec
  add_eq _ _ := rfl
  neg_one_mul x := (Int64.neg_eq_neg_one_mul x).symm

namespace Double

def neg : Double → Double
  | .nan => .nan
  | .inf a => .inf (!a)
  | .finite x => .finite (-x)

theorem add_comm (x y : Double) : add x y = add y x := by
  rcases x with _ | (_ | _) | x <;> rcases y with _ | (_ | _) | y <;> simp [add, Rat.add_comm]

theorem add_assoc (x y z : Double) : add (add x y) z = add x (add y z) := by
  rcases x with _ | (_ | _) | x <;> rcases y with _ | (_ | _) | y <;>
    rcases z with _ | (_ | _) | z <;> simp [add, Rat.add_assoc]

theorem zero_add (x : Double) : add (.finite 0) x = x := by
  cases x <;> simp [add]

theorem neg_one_mul (x : Double) : mul (.finite (-1)) x = neg x := by
  rcases x with _ | (_ | _) | x <;> simp [mul, neg]

end Double

instance : Zero Double := ⟨.finite 0⟩

instance : Add Double := ⟨Double.add⟩

instance : Neg Double := ⟨Double.neg⟩

instance : LawfulArithmetic Double where
  add_assoc := Double.add_assoc
  zero_add := Double.zero_add
  add_zero x := (Double.add_comm x (.finite 0)).trans (Double.zero_add x)
  add_comm := Double.add_comm
  nsmul := nsmulRec
  add_eq _ _ := rfl
  neg_one_mul x := by
    change Double.mul (.finite ((-1 : ℤ) : ℚ)) x = Double.neg x
    rw [Int.cast_neg, Int.cast_one]
    exact Double.neg_one_mul x

namespace GaugeType

variable {TYPE : Type} [Arithmetic TYPE]

open Arithmetic

/-- What a call asks of the cell. -/
inductive Request (TYPE : Type) where
  | store (value : TYPE)
  | change (value : TYPE)
deriving DecidableEq

def Call.request : Call TYPE → Request TYPE
  | .increment => .change (ofInt 1)
  | .incrementBy value => .change value
  | .decrement => .change (mul (ofInt (-1)) (ofInt 1))
  | .decrementBy value => .change (mul (ofInt (-1)) value)
  | .set value => .store value
  | .setToCurrentTime time => .store (ofInt time)

/-- What a request makes of the cell when it takes effect. -/
def Request.apply (x : TYPE) : Request TYPE → TYPE
  | .store value => value
  | .change value => add x value

theorem apply_request (g : GaugeType TYPE) (call : Call TYPE) :
    g.apply call = ⟨call.request.apply g.value_⟩ := by
  cases call <;> rfl

/-- A thread: the `current` of the change it is in, once loaded, and the calls
that it has not finished. -/
structure Thread (TYPE : Type) where
  current : Option TYPE
  calls : List (Call TYPE)

/-- The cell and the threads that share it. -/
structure Shared (θ TYPE : Type) where
  value_ : TYPE
  threads : θ → Thread TYPE

variable {θ : Type} [DecidableEq θ]

def Shared.withThread (s : Shared θ TYPE) (t : θ) (thread : Thread TYPE) : Shared θ TYPE :=
  { s with threads := Function.update s.threads t thread }

/-- One atomic step of a thread, labelled with the call that it completes. -/
inductive Step : Shared θ TYPE → Option (θ × Call TYPE) → Shared θ TYPE → Prop
  | store {s : Shared θ TYPE} {t : θ} {call : Call TYPE} {calls : List (Call TYPE)} {value : TYPE}
      (hcalls : (s.threads t).calls = call :: calls) (hrequest : call.request = .store value) :
      Step s (some (t, call)) { s.withThread t ⟨none, calls⟩ with value_ := value }
  | load {s : Shared θ TYPE} {t : θ} {call : Call TYPE} {calls : List (Call TYPE)} {value : TYPE}
      (hcalls : (s.threads t).calls = call :: calls) (hrequest : call.request = .change value)
      (hcurrent : (s.threads t).current = none) :
      Step s none (s.withThread t ⟨some s.value_, call :: calls⟩)
  | exchange {s : Shared θ TYPE} {t : θ} {call : Call TYPE} {calls : List (Call TYPE)}
      {value current : TYPE} (hcalls : (s.threads t).calls = call :: calls)
      (hrequest : call.request = .change value)
      (hcurrent : (s.threads t).current = some current) (hequal : s.value_ = current) :
      Step s (some (t, call)) { s.withThread t ⟨none, calls⟩ with value_ := add current value }
  -- a weak exchange may fail whatever the cell holds
  | reload {s : Shared θ TYPE} {t : θ} {call : Call TYPE} {calls : List (Call TYPE)}
      {value current : TYPE} (hcalls : (s.threads t).calls = call :: calls)
      (hrequest : call.request = .change value)
      (hcurrent : (s.threads t).current = some current) :
      Step s none (s.withThread t ⟨some s.value_, call :: calls⟩)

/-- The calls of one thread among the completed ones, in order. -/
def callsOf (t : θ) (completed : List (θ × Call TYPE)) : List (Call TYPE) :=
  completed.filterMap fun c => if c.1 = t then some c.2 else none

omit [Arithmetic TYPE] in
theorem callsOf_snoc (t u : θ) (call : Call TYPE) (completed : List (θ × Call TYPE)) :
    callsOf t (completed ++ [(u, call)]) =
      if u = t then callsOf t completed ++ [call] else callsOf t completed := by
  rw [callsOf, List.filterMap_append]
  split <;> simp [callsOf, *]

/-- Whatever the threads hold in `current`, the cell is the fold of the
completed requests, and no thread's calls were dropped or run twice. -/
structure Accounted (start s : Shared θ TYPE) (completed : List (θ × Call TYPE)) : Prop where
  cell : s.value_ = completed.foldl (fun x c => c.2.request.apply x) start.value_
  calls : ∀ t, callsOf t completed ++ (s.threads t).calls = (start.threads t).calls

section Steps

variable {start s s' : Shared θ TYPE} {completed : List (θ × Call TYPE)}

/-- A step that completes a call applies its request to the cell, and takes it
from its thread's calls. -/
theorem Step.completes {t : θ} {call : Call TYPE} (h : Step s (some (t, call)) s') :
    s'.value_ = call.request.apply s.value_ ∧
      ∃ calls, (s.threads t).calls = call :: calls ∧ s'.threads =
        Function.update s.threads t ⟨none, calls⟩ := by
  cases h with
  | store hcalls hrequest =>
      rw [hrequest]
      exact ⟨rfl, _, hcalls, rfl⟩
  | exchange hcalls hrequest hcurrent hequal =>
      -- the exchange succeeds on the very value that was loaded
      rw [hrequest, hequal]
      exact ⟨rfl, _, hcalls, rfl⟩

/-- A step that completes no call changes no more than a `current`. -/
theorem Step.silent (h : Step s none s') :
    s'.value_ = s.value_ ∧ ∀ t, (s'.threads t).calls = (s.threads t).calls := by
  have hkeep : ∀ (t : θ) (call : Call TYPE) (calls : List (Call TYPE)),
      (s.threads t).calls = call :: calls → ∀ u,
        ((s.withThread t ⟨some s.value_, call :: calls⟩).threads u).calls =
          (s.threads u).calls := by
    intro t call calls hcalls u
    by_cases hu : u = t
    · subst hu
      simp [Shared.withThread, hcalls]
    · simp [Shared.withThread, Function.update_of_ne hu]
  cases h with
  | load hcalls _ _ => exact ⟨rfl, hkeep _ _ _ hcalls⟩
  | reload hcalls _ _ => exact ⟨rfl, hkeep _ _ _ hcalls⟩

theorem Accounted.shown (h : Accounted start s completed) {c : θ × Call TYPE}
    (hstep : Step s (some c) s') : Accounted start s' (completed ++ [c]) := by
  obtain ⟨u, call⟩ := c
  obtain ⟨hvalue, calls, hcalls, hthreads⟩ := hstep.completes
  constructor
  · rw [hvalue, h.cell, List.foldl_append]
    rfl
  · intro t
    rw [callsOf_snoc, hthreads, ← h.calls t]
    by_cases ht : u = t
    · subst ht
      simp [hcalls]
    · rw [if_neg ht, Function.update_of_ne (Ne.symm ht)]

theorem Accounted.silent (h : Accounted start s completed) (hstep : Step s none s') :
    Accounted start s' completed := by
  obtain ⟨hvalue, hcalls⟩ := hstep.silent
  refine ⟨hvalue.trans h.cell, fun t => ?_⟩
  rw [hcalls t]
  exact h.calls t

theorem accounted (h : LabelledSteps.Steps Step start completed s) :
    Accounted start s completed := by
  have hrun := h.invariant (P := fun s seen => Accounted start s seen.reverse)
    (fun s a t as hstep hs => by simpa using hs.shown hstep)
    (fun s t as hstep hs => hs.silent hstep) []
    ⟨rfl, fun t => rfl⟩
  simpa using hrun

end Steps

section Meaning

variable [LawfulArithmetic TYPE]

/-- What a call stands for: `+ v`, `- v` or `:= v`. -/
def Call.meaning (x : TYPE) : Call TYPE → TYPE
  | .increment => x + ofInt 1
  | .incrementBy value => x + value
  | .decrement => x + -ofInt 1
  | .decrementBy value => x + -value
  | .set value => value
  | .setToCurrentTime time => ofInt time

/-- The signed amount of a change. -/
def Call.signed : Call TYPE → Option TYPE
  | .increment => some (ofInt 1)
  | .incrementBy value => some value
  | .decrement => some (-ofInt 1)
  | .decrementBy value => some (-value)
  | .set _ => none
  | .setToCurrentTime _ => none

omit [DecidableEq θ] in
theorem request_apply (x : TYPE) (call : Call TYPE) :
    call.request.apply x = call.meaning x := by
  cases call <;>
    simp only [Call.request, Request.apply, Call.meaning, LawfulArithmetic.add_eq,
      LawfulArithmetic.neg_one_mul]

theorem meaning_of_signed {x v : TYPE} {call : Call TYPE} (h : call.signed = some v) :
    call.meaning x = x + v := by
  cases call <;> simp_all [Call.signed, Call.meaning]

/-- Without a `Set` the fold is a sum. -/
theorem foldl_meaning (x : TYPE) (calls : List (Call TYPE))
    (h : ∀ call ∈ calls, call.signed ≠ none) :
    calls.foldl Call.meaning x = x + (calls.filterMap Call.signed).sum := by
  induction calls generalizing x with
  | nil => simp
  | cons call calls ih =>
      obtain ⟨v, hv⟩ := Option.ne_none_iff_exists'.mp (h call List.mem_cons_self)
      rw [List.foldl_cons, ih _ fun c hc => h c (List.mem_cons_of_mem _ hc),
        meaning_of_signed hv, List.filterMap_cons_some hv, List.sum_cons, add_assoc]

/-- The total of the completed calls is that of each thread's, added up. -/
theorem sum_signed [Fintype θ] (completed : List (θ × Call TYPE)) :
    (completed.filterMap (·.2.signed)).sum =
      ∑ t, ((callsOf t completed).filterMap Call.signed).sum := by
  induction completed using List.reverseRecOn with
  | nil => simp [callsOf]
  | append_singleton completed c ih =>
      obtain ⟨u, call⟩ := c
      have hthread : ∀ t, ((callsOf t (completed ++ [(u, call)])).filterMap Call.signed).sum =
          ((callsOf t completed).filterMap Call.signed).sum +
            if u = t then ([call].filterMap Call.signed).sum else 0 := by
        intro t
        rw [callsOf_snoc]
        split
        · rw [List.filterMap_append, List.sum_append]
        · rw [add_zero]
      simp only [hthread, Finset.sum_add_distrib, Finset.sum_ite_eq, Finset.mem_univ, if_true,
        List.filterMap_append, List.sum_append, ih]
      rfl

/-- In every reachable state of every interleaving the cell is the fold of
exactly the completed calls, each thread's in its order and once; without a
`Set` it is the start plus their signed sum in any order, and once all threads
are done the start plus the signed sum of all their calls. -/
theorem no_update_lost {start s : Shared θ TYPE} {completed : List (θ × Call TYPE)}
    (h : LabelledSteps.Steps Step start completed s) :
    s.value_ = completed.foldl (fun x c => c.2.meaning x) start.value_ ∧
    (∀ t, callsOf t completed ++ (s.threads t).calls = (start.threads t).calls) ∧
    ((∀ c ∈ completed, c.2.signed ≠ none) →
      (∀ order : List TYPE, order.Perm (completed.filterMap (·.2.signed)) →
        s.value_ = start.value_ + order.sum) ∧
      ∀ [Fintype θ], (∀ t, (s.threads t).calls = []) →
        s.value_ = start.value_ + ∑ t, ((start.threads t).calls.filterMap Call.signed).sum) := by
  obtain ⟨hcell, hcalls⟩ := accounted h
  have hmeaning : s.value_ = completed.foldl (fun x c => c.2.meaning x) start.value_ := by
    simpa only [request_apply] using hcell
  refine ⟨hmeaning, hcalls, fun hsigned => ?_⟩
  have hsum : s.value_ = start.value_ + (completed.filterMap (·.2.signed)).sum := by
    have hfold := foldl_meaning start.value_ (completed.map Prod.snd) fun call hcall => by
      obtain ⟨c, hc, rfl⟩ := List.mem_map.mp hcall
      exact hsigned c hc
    rw [List.foldl_map, List.filterMap_map] at hfold
    exact hmeaning.trans hfold
  constructor
  · intro order horder
    rw [hsum, horder.sum_eq]
  · intro _ hdone
    rw [hsum, sum_signed]
    refine congrArg _ (Finset.sum_congr rfl fun t _ => ?_)
    rw [← hcalls t, hdone t, List.append_nil]

/-- One thread adds 3 and another takes away 1. -/
def twoThreads : Shared Bool Int64 :=
  ⟨0, fun t => if t then ⟨none, [.decrementBy 1]⟩ else ⟨none, [.incrementBy 3]⟩⟩

/-- Both load 0, the first exchange succeeds, the other fails once. -/
theorem no_update_lost_two_threads :
    ∃ s : Shared Bool Int64, LabelledSteps.Steps Step twoThreads
        [(false, .incrementBy 3), (true, .decrementBy 1)] s ∧
      s.value_ = twoThreads.value_ + [-1, 3].sum := by
  have hrun : ∃ s : Shared Bool Int64, LabelledSteps.Steps Step twoThreads
      [(false, .incrementBy 3), (true, .decrementBy 1)] s :=
    ⟨_, .silent (.load (t := true) rfl rfl rfl) <| .silent (.load (t := false) rfl rfl rfl) <|
      .shown (.exchange (t := false) rfl rfl rfl rfl) <|
      .silent (.reload (t := true) rfl rfl rfl) <|
      .shown (.exchange (t := true) rfl rfl rfl rfl) <| .refl _⟩
  obtain ⟨s, hs⟩ := hrun
  exact ⟨s, hs, ((no_update_lost hs).2.2 (by decide)).1 _ (List.Perm.swap _ _ _)⟩

end Meaning

end GaugeType

end Promcore
