import Promcore.Library.CriticalSections
import Promcore.Library.Simulation
import Promcore.Metrics.Summary

/-!
# Summaries shared by several threads

Everything happens under the lock: an observation changes the count, the sum
and the window, and a scrape reads the targeted quantiles one after the other
and then the count and the sum.
-/

namespace Promcore.Summary

open CriticalSections

inductive Answer where
  | done
  | collected (metric : ClientMetric)

/-- What is left to do under the lock. -/
inductive Position where
  | addCount (now : ℤ) (value : ℚ)
  | addSum (now : ℤ) (value : ℚ)
  | insert (now : ℤ) (value : ℚ)
  | collect (quantiles : List Quantile) (clock : ℕ → ℤ) (entries : List ClientMetric.Quantile)
  | finished (answer : Answer)

/-- Where a call starts once it has the lock. -/
def prelude : Op → Summary → Answer ⊕ Position
  | .observe now value, _ => .inr (.addCount now value)
  | .collect clock, s => .inr (.collect s.quantiles_ clock [])

/-- One step under the lock. -/
inductive Work : Summary → Position → Summary → Position → Prop
  | addCount {s : Summary} {now : ℤ} {value : ℚ} :
      Work s (.addCount now value) { s with count_ := s.count_ + 1 } (.addSum now value)
  | addSum {s : Summary} {now : ℤ} {value : ℚ} :
      Work s (.addSum now value) { s with sum_ := s.sum_ + value } (.insert now value)
  | insert {s : Summary} {now : ℤ} {value : ℚ} {values : TimeWindowQuantiles (CKMSQuantiles ℚ)}
      (hinsert : s.quantile_values_.insert now value = some values) :
      Work s (.insert now value) { s with quantile_values_ := values } (.finished .done)
  | read {s : Summary} {quantile : Quantile} {quantiles : List Quantile} {clock : ℕ → ℤ}
      {entries : List ClientMetric.Quantile} {values : TimeWindowQuantiles (CKMSQuantiles ℚ)}
      {value : Option ℚ}
      (hget : s.quantile_values_.get (clock 0) quantile.quantile = some (values, value)) :
      Work s (.collect (quantile :: quantiles) clock entries) { s with quantile_values_ := values }
        (.collect quantiles (fun i => clock (i + 1))
          (entries ++ [⟨.finite quantile.quantile, Double.ofOption value⟩]))
  | endReads {s : Summary} {clock : ℕ → ℤ} {entries : List ClientMetric.Quantile} :
      Work s (.collect [] clock entries) s
        (.finished (.collected { summary := ⟨s.count_, .finite s.sum_, entries⟩ }))

def Position.result : Position → Option Answer
  | .finished answer => some answer
  | _ => none

def machine : Machine Summary Op Position Answer where
  prelude := prelude
  work := Work
  result := Position.result

/-- A whole call that nothing interrupts. -/
def Op.whole : Op → Summary → Option (Answer × Summary)
  | .observe now value, s => (s.observe now value).map fun s' => (.done, s')
  | .collect clock, s => (s.collect clock).map fun r => (.collected r.2, r.1)

section Finish

/-- What a section comes to from a position on. -/
def Position.finish : Position → Summary → Option (Answer × Summary)
  | .addCount now value, s => (s.observe now value).map fun s' => (.done, s')
  | .addSum now value, s =>
      (s.quantile_values_.insert now value).map fun values =>
        (.done, { s with sum_ := s.sum_ + value, quantile_values_ := values })
  | .insert now value, s =>
      (s.quantile_values_.insert now value).map fun values =>
        (.done, { s with quantile_values_ := values })
  | .collect quantiles clock entries, s =>
      (collectQuantiles quantiles clock s.quantile_values_).map fun r =>
        (.collected { summary := ⟨s.count_, .finite s.sum_, entries ++ r.2⟩ },
          { s with quantile_values_ := r.1 })
  | .finished answer, s => some (answer, s)

variable {s s' : Summary} {k k' : Position}

theorem collectQuantiles_cons {quantile : Quantile} {clock : ℕ → ℤ} {value : Option ℚ}
    {values values' : TimeWindowQuantiles (CKMSQuantiles ℚ)}
    (hget : values.get (clock 0) quantile.quantile = some (values', value))
    (quantiles : List Quantile) :
    collectQuantiles (quantile :: quantiles) clock values =
      (collectQuantiles quantiles (fun i => clock (i + 1)) values').map fun r =>
        (r.1, ⟨.finite quantile.quantile, Double.ofOption value⟩ :: r.2) := by
  simp only [collectQuantiles, hget, Option.bind_eq_bind, Option.bind_some]
  cases collectQuantiles quantiles (fun i => clock (i + 1)) values' <;> rfl

theorem observe_eq (s : Summary) (now : ℤ) (value : ℚ) :
    s.observe now value = (s.quantile_values_.insert now value).map fun values =>
      { s with count_ := s.count_ + 1, sum_ := s.sum_ + value, quantile_values_ := values } := by
  rw [observe]
  cases s.quantile_values_.insert now value <;> rfl

/-- A step of the section keeps what the section comes to. -/
theorem Work.finish (hwork : Work s k s' k') : k'.finish s' = k.finish s := by
  cases hwork with
  | addCount =>
      rw [Position.finish, Position.finish, observe_eq, Option.map_map]
      rfl
  | addSum => rfl
  | insert hinsert =>
      rw [Position.finish, Position.finish, hinsert]
      rfl
  | read hget =>
      rw [Position.finish, Position.finish, collectQuantiles_cons hget, Option.map_map]
      simp [Function.comp_def]
  | endReads => simp [Position.finish, collectQuantiles]

/-- The targets never change. -/
theorem Work.keeps (hwork : Work s k s' k') : s'.quantiles_ = s.quantiles_ := by
  cases hwork <;> rfl

theorem machine_finishes : machine.Finishes Position.finish where
  work hwork := Work.finish hwork
  prelude hwork op := by
    cases op with
    | observe now value => rfl
    | collect clock => exact congrArg (fun q => Sum.inr (Position.collect q clock [])) (Work.keeps hwork)
  result {s k r} hresult := by
    cases k with
    | finished answer =>
        cases hresult
        rfl
    | _ => cases hresult

/-- The sections come to what the functions of the class do. -/
theorem effect_eq_whole (op : Op) (s : Summary) :
    machine.effect Position.finish op s = op.whole s := by
  cases op with
  | observe now value => rfl
  | collect clock =>
      change (collectQuantiles s.quantiles_ clock s.quantile_values_).map _ = Option.map _ _
      rw [collect]
      cases collectQuantiles s.quantiles_ clock s.quantile_values_ <;> rfl

end Finish

section Runs

/-- The values that a history observes. -/
def values : List Op → List ℚ
  | [] => []
  | .observe _ value :: ops => value :: values ops
  | .collect _ :: ops => values ops

/-- A whole call changes the summary as `apply` does. -/
theorem Op.whole_apply {op : Op} {s s' : Summary} {answer : Answer}
    (hwhole : op.whole s = some (answer, s')) : s.apply op = some s' := by
  cases op with
  | observe now value =>
      obtain ⟨_, hobserve, heq⟩ := Option.map_eq_some_iff.mp hwhole
      cases heq
      exact hobserve
  | collect clock =>
      obtain ⟨r, hcollect, heq⟩ := Option.map_eq_some_iff.mp hwhole
      cases heq
      rw [apply, hcollect]
      rfl

theorem apply_totals {s s' : Summary} {op : Op} (happly : s.apply op = some s') :
    s'.count_ = s.count_ + (values [op]).length ∧ s'.sum_ = s.sum_ + (values [op]).sum := by
  cases op with
  | observe now value =>
      rw [apply, observe_eq, Option.map_eq_some_iff] at happly
      obtain ⟨_, -, rfl⟩ := happly
      simp [values]
  | collect clock =>
      obtain ⟨⟨_, _⟩, hcollect, heq⟩ := Option.bind_eq_some_iff.mp happly
      obtain ⟨⟨_, _⟩, -, hr⟩ := Option.bind_eq_some_iff.mp hcollect
      cases Option.some.inj hr
      cases Option.some.inj heq
      simp [values]

theorem values_cons (op : Op) (ops : List Op) : values (op :: ops) = values [op] ++ values ops := by
  cases op <;> rfl

/-- Count and sum are those of everything observed, however old. -/
theorem run_totals {s s' : Summary} {ops : List Op} (hrun : s.run ops = some s') :
    s'.count_ = s.count_ + (values ops).length ∧ s'.sum_ = s.sum_ + (values ops).sum := by
  induction ops generalizing s with
  | nil =>
      obtain rfl := Option.some.inj hrun
      simp [values]
  | cons op ops ih =>
      rw [run, List.foldlM_cons, Option.bind_eq_bind, Option.bind_eq_some_iff] at hrun
      obtain ⟨s₁, happly, hrest⟩ := hrun
      obtain ⟨hcount, hsum⟩ := ih hrest
      obtain ⟨hcount₁, hsum₁⟩ := apply_totals happly
      rw [values_cons, List.length_append, List.sum_append, hcount, hsum, hcount₁, hsum₁]
      exact ⟨Nat.add_assoc _ _ _, add_assoc _ _ _⟩

end Runs

section Threads

variable {θ : Type} [DecidableEq θ]

/-- The calls that ended, in order. -/
def opsOf (ended : List (θ × Op × Answer)) : List Op := ended.map fun c => c.2.1

omit [DecidableEq θ] in
theorem serial_run {s s' : Summary} {ended : List (θ × Op × Answer)}
    (hserial : Serial (machine.effect Position.finish) s ended s') :
    s.run (opsOf ended) = some s' := by
  induction hserial with
  | nil => rfl
  | snoc _ hcall ih =>
      rw [effect_eq_whole] at hcall
      rw [opsOf, List.map_append, run, List.map_singleton, Simulation.foldlM_snoc]
      exact (congrArg (Option.bind · _) ih).trans (Op.whole_apply hcall)

/-- However the threads interleave, every call has the answer that it has on the
summary left by the calls that ended before it, one after the other; so a
scrape reports the count and the sum of exactly the observations that ended
before it. -/
theorem summary_serial {start s : Shared θ Summary Op Position}
    {ended : List (θ × Op × Answer)} (hidle : start.Idle)
    (h : LabelledSteps.Steps (Step machine) start ended s) :
    (∀ before t op answer after, ended = before ++ (t, op, answer) :: after →
      ∃ s₁ s₂, start.object.run (opsOf before) = some s₁ ∧ op.whole s₁ = some (answer, s₂) ∧
        ∀ metric, answer = .collected metric →
          metric.summary.sample_count = start.object.count_ + (values (opsOf before)).length ∧
          metric.summary.sample_sum = .finite (start.object.sum_ + (values (opsOf before)).sum)) ∧
    (s.lock = none → start.object.run (opsOf ended) = some s.object) ∧
    (∀ t, callsOf t ended ++ (s.threads t).calls = (start.threads t).calls) ∧
    ∀ t u k k' calls calls', s.threads t = ⟨.inside k, calls⟩ → s.threads u = ⟨.inside k', calls'⟩ →
      t = u := by
  obtain ⟨base, hordered⟩ := ordered machine_finishes hidle h
  refine ⟨?_, ?_, hordered.calls, ?_⟩
  · rintro before t op answer after rfl
    obtain ⟨s₁, s₂, hserial, hcall⟩ := hordered.serial.split
    rw [effect_eq_whole] at hcall
    have hrun := serial_run hserial
    obtain ⟨hcount, hsum⟩ := run_totals hrun
    refine ⟨s₁, s₂, hrun, hcall, ?_⟩
    rintro metric rfl
    rw [← hcount, ← hsum]
    cases op with
    | observe now value =>
        obtain ⟨_, -, heq⟩ := Option.map_eq_some_iff.mp hcall
        cases congrArg Prod.fst heq
    | collect clock =>
        obtain ⟨r, hcollect, heq⟩ := Option.map_eq_some_iff.mp hcall
        obtain ⟨values, -, hr⟩ := Option.bind_eq_some_iff.mp hcollect
        cases Option.some.inj hr
        cases heq
        exact ⟨rfl, rfl⟩
  · intro hfree
    rw [hordered.free hfree]
    exact serial_run hordered.serial
  · intro t u k k' calls calls' ht hu
    exact hordered.inside_unique ht hu

/-- A thread that observes while another one scrapes. -/
def observedAndScraped : Shared Bool Summary Op Position where
  object := ⟨[⟨1 / 2, 1 / 20⟩], 0, 0, ⟨[CKMSQuantiles.new [⟨1 / 2, 1 / 20⟩]], 0, 0, 60⟩⟩
  lock := none
  threads t := ⟨.outside, if t then [.collect fun _ => 2] else [.observe 1 3]⟩

/-- The scrape is called first but has to wait, and reports the observation. -/
theorem summary_serial_two_threads : ∃ metric : ClientMetric,
    metric.summary.sample_count = 0 + (values [.observe 1 3]).length ∧
      metric.summary.sample_sum = .finite (0 + (values [.observe 1 3]).sum) := by
  have hwindow : ((observedAndScraped.object.quantile_values_.insert 1 3).bind fun values =>
      values.get 2 (1 / 2)).isSome = true := by decide +kernel
  obtain ⟨⟨values', value⟩, hboth⟩ := Option.isSome_iff_exists.mp hwindow
  obtain ⟨values, hinsert, hget⟩ := Option.bind_eq_some_iff.mp hboth
  have hrun : ∃ s metric, LabelledSteps.Steps (Step machine) observedAndScraped
      [(false, .observe 1 3, .done), (true, .collect fun _ => 2, .collected metric)] s :=
    ⟨_, _, .silent (.prepare (t := true) rfl rfl) <| .silent (.prepare (t := false) rfl rfl) <|
      .silent (.acquire (t := false) rfl rfl) <| .silent (.work (t := false) rfl .addCount) <|
      .silent (.work (t := false) rfl .addSum) <|
      .silent (.work (t := false) rfl (.insert hinsert)) <|
      .shown (.release (t := false) rfl rfl) <| .silent (.acquire (t := true) rfl rfl) <|
      .silent (.work (t := true) rfl (.read hget)) <| .silent (.work (t := true) rfl .endReads) <|
      .shown (.release (t := true) rfl rfl) <| .refl _⟩
  obtain ⟨s, metric, hs⟩ := hrun
  obtain ⟨s₁, s₂, -, -, htotals⟩ := (summary_serial ⟨rfl, fun _ => rfl⟩ hs).1
    [(false, .observe 1 3, .done)] true (.collect fun _ => 2) (.collected metric) [] rfl
  exact ⟨metric, htotals metric rfl⟩

end Threads

end Promcore.Summary
