import Promcore.Library.CriticalSections
import Promcore.Metrics.Histogram

/-!
# Histograms shared by several threads

`Observe` looks for its bucket and `ObserveMultiple` compares sizes before the
lock is taken. Under the lock the sum and the counters, which are atomic cells,
change one after the other, and `Collect` reads one after the other.
-/

namespace Promcore.Histogram

open CriticalSections

/-- A call of the histogram's interface. -/
inductive Call where
  | change (op : Op)
  | collect
deriving DecidableEq

inductive Answer where
  | done (result : Except Exception Unit)
  | collected (metric : ClientMetric)

/-- What is left to do under the lock. A change of a cell holds the value that it
has loaded, once it has. -/
inductive Position where
  | addSum (value : Double) (current : Option Double) (next : Position)
  | addCount (index : ℕ) (current : Option Double)
  | addCounts (i : ℕ) (bucket_increments : List Double) (current : Option Double)
  | resetCounts (i : ℕ)
  | setSum
  | collect (i cumulative_count : ℕ) (bucket : List ClientMetric.Bucket)
  | finished (answer : Answer)

def withSum (h : Histogram) (value : Double) : Histogram := { h with sum_ := ⟨value⟩ }

/-- Write to one counter. -/
def withCount (h : Histogram) (i : ℕ) (counter : CounterType Double) : Histogram :=
  { h with
    bucket_counts_ := h.bucket_counts_.set i counter
    size_eq := by rw [List.length_set, h.size_eq] }

/-- The code of a call before the lock. -/
def prelude : Call → Histogram → Answer ⊕ Position
  | .change (.observe value), h =>
      .inr (.addSum value none (.addCount (lowerBound h.bucket_boundaries_ value) none))
  | .change (.observeMultiple bucket_increments sum_of_values), h =>
      if bucket_increments.length ≠ h.bucket_counts_.length then
        .inl (.done (.error (.length_error ("The size of bucket_increments was not equal to" ++
          "the number of buckets in the histogram."))))
      else .inr (.addSum sum_of_values none (.addCounts 0 bucket_increments none))
  | .change .reset, _ => .inr (.resetCounts 0)
  | .collect, _ => .inr (.collect 0 0 [])

/-- One atomic step under the lock. A weak exchange may fail whatever the cell
holds, and then loads it again. -/
inductive Work : Histogram → Position → Histogram → Position → Prop
  | loadSum {h : Histogram} {value : Double} {current : Option Double} {next : Position} :
      Work h (.addSum value current next) h (.addSum value (some h.sum_.value_) next)
  | exchangeSum {h : Histogram} {value : Double} {next : Position} :
      Work h (.addSum value (some h.sum_.value_) next)
        (h.withSum (Arithmetic.add h.sum_.value_ value)) next
  | loadCount {h : Histogram} {index : ℕ} {current : Option Double} {counter : CounterType Double}
      (hcounter : h.bucket_counts_[index]? = some counter) :
      Work h (.addCount index current) h (.addCount index (some counter.gauge_.value_))
  | exchangeCount {h : Histogram} {index : ℕ} {counter : CounterType Double}
      (hcounter : h.bucket_counts_[index]? = some counter) :
      Work h (.addCount index (some counter.gauge_.value_))
        (h.withCount index ⟨⟨Arithmetic.add counter.gauge_.value_ (Arithmetic.ofInt 1)⟩⟩)
        (.finished (.done (.ok ())))
  | loadCounts {h : Histogram} {i : ℕ} {bucket_increments : List Double} {current : Option Double}
      {counter : CounterType Double} {val : Double}
      (hcounter : h.bucket_counts_[i]? = some counter) (hval : bucket_increments[i]? = some val)
      (hlt : Arithmetic.lt val (Arithmetic.ofInt 0) = false) :
      Work h (.addCounts i bucket_increments current) h
        (.addCounts i bucket_increments (some counter.gauge_.value_))
  | exchangeCounts {h : Histogram} {i : ℕ} {bucket_increments : List Double}
      {counter : CounterType Double} {val : Double}
      (hcounter : h.bucket_counts_[i]? = some counter) (hval : bucket_increments[i]? = some val)
      (hlt : Arithmetic.lt val (Arithmetic.ofInt 0) = false) :
      Work h (.addCounts i bucket_increments (some counter.gauge_.value_))
        (h.withCount i ⟨⟨Arithmetic.add counter.gauge_.value_ val⟩⟩)
        (.addCounts (i + 1) bucket_increments none)
  -- a counter ignores a negative amount
  | skipCounts {h : Histogram} {i : ℕ} {bucket_increments : List Double}
      {counter : CounterType Double} {val : Double}
      (hcounter : h.bucket_counts_[i]? = some counter) (hval : bucket_increments[i]? = some val)
      (hlt : Arithmetic.lt val (Arithmetic.ofInt 0) = true) :
      Work h (.addCounts i bucket_increments none) h (.addCounts (i + 1) bucket_increments none)
  | endCounts {h : Histogram} {bucket_increments : List Double} :
      Work h (.addCounts h.bucket_counts_.length bucket_increments none) h
        (.finished (.done (.ok ())))
  | resetCount {h : Histogram} {i : ℕ} {counter : CounterType Double}
      (hcounter : h.bucket_counts_[i]? = some counter) :
      Work h (.resetCounts i) (h.withCount i counter.reset) (.resetCounts (i + 1))
  | endReset {h : Histogram} : Work h (.resetCounts h.bucket_counts_.length) h .setSum
  | storeSum {h : Histogram} :
      Work h .setSum (h.withSum (.finite 0)) (.finished (.done (.ok ())))
  | read {h : Histogram} {i cumulative_count total : ℕ} {bucket : List ClientMetric.Bucket}
      {counter : CounterType Double} (hcounter : h.bucket_counts_[i]? = some counter)
      (htotal : addTruncated cumulative_count counter.value = some total) :
      Work h (.collect i cumulative_count bucket) h (.collect (i + 1) total
        (bucket ++ [{ cumulative_count := total
                      upper_bound := h.bucket_boundaries_[i]?.getD (.inf false) }]))
  | readSum {h : Histogram} {cumulative_count : ℕ} {bucket : List ClientMetric.Bucket} :
      Work h (.collect h.bucket_counts_.length cumulative_count bucket) h (.finished (.collected
        { histogram := { bucket, sample_count := cumulative_count, sample_sum := h.sum_.value } }))

def Position.result : Position → Option Answer
  | .finished answer => some answer
  | _ => none

def machine : Machine Histogram Call Position Answer where
  prelude := prelude
  work := Work
  result := Position.result

/-- A whole call that nothing interrupts. -/
def Call.whole : Call → Histogram → Option (Answer × Histogram)
  | .change (.observe value), h => some (.done (.ok ()), h.observe value)
  | .change (.observeMultiple bucket_increments sum_of_values), h =>
      some (.done (h.observeMultiple bucket_increments sum_of_values).1,
        (h.observeMultiple bucket_increments sum_of_values).2)
  | .change .reset, h => some (.done (.ok ()), h.reset)
  | .collect, h => h.collect.map fun metric => (.collected metric, h)

section Finish

/-- A change of all counters from one index on. -/
def changeFrom (i : ℕ) (f : ℕ → CounterType Double → CounterType Double)
    (counts : List (CounterType Double)) : List (CounterType Double) :=
  counts.mapIdx fun j c => if i ≤ j then f j c else c

variable {f : ℕ → CounterType Double → CounterType Double} {counts : List (CounterType Double)}

@[simp] theorem length_changeFrom (i : ℕ) : (changeFrom i f counts).length = counts.length := by
  simp [changeFrom]

theorem changeFrom_set {i : ℕ} {c : CounterType Double} (hc : counts[i]? = some c) :
    changeFrom (i + 1) f (counts.set i (f i c)) = changeFrom i f counts := by
  apply List.ext_getElem?
  intro j
  simp only [changeFrom, List.getElem?_mapIdx, List.getElem?_set]
  rcases lt_trichotomy i j with hlt | rfl | hgt
  · rw [if_neg hlt.ne]
    simp [hlt.le, Nat.succ_le_of_lt hlt]
  · obtain ⟨hi, rfl⟩ := List.getElem?_eq_some_iff.mp hc
    simp [hi]
  · simp [show ¬ i ≤ j by omega, show ¬ i + 1 ≤ j by omega, show ¬ i = j by omega]

theorem changeFrom_length : changeFrom counts.length f counts = counts := by
  apply List.ext_getElem?
  intro j
  rw [changeFrom, List.getElem?_mapIdx]
  cases hc : counts[j]? with
  | none => rfl
  | some c =>
      have hj := (List.getElem?_eq_some_iff.mp hc).1
      simp [show ¬ counts.length ≤ j by omega]

/-- The histogram with its counters changed from one index on. -/
def changeCounts (h : Histogram) (i : ℕ) (f : ℕ → CounterType Double → CounterType Double) :
    Histogram :=
  { h with
    bucket_counts_ := changeFrom i f h.bucket_counts_
    size_eq := by rw [length_changeFrom, h.size_eq] }

/-- What an `ObserveMultiple` does to the counter at an index. -/
def addAt (bucket_increments : List Double) (i : ℕ) (c : CounterType Double) :
    CounterType Double :=
  c.incrementBy (bucket_increments[i]?.getD (.finite 0))

/-- What a section comes to from a position on, whatever it has loaded. -/
def Position.finish : Position → Histogram → Option (Answer × Histogram)
  | .addSum value _ next, h => next.finish (h.withSum (Arithmetic.add h.sum_.value_ value))
  | .addCount index _, h =>
      some (.done (.ok ()),
        { h with
          bucket_counts_ := h.bucket_counts_.modify index CounterType.increment
          size_eq := by rw [List.length_modify, h.size_eq] })
  | .addCounts i bucket_increments _, h =>
      some (.done (.ok ()), h.changeCounts i (addAt bucket_increments))
  | .resetCounts i, h =>
      some (.done (.ok ()), (h.changeCounts i fun _ => CounterType.reset).withSum (.finite 0))
  | .setSum, h => some (.done (.ok ()), h.withSum (.finite 0))
  | .collect i cumulative_count bucket, h =>
      (collectBuckets h.bucket_boundaries_ i cumulative_count (h.bucket_counts_.drop i)).map
        fun r => (.collected { histogram :=
          { bucket := bucket ++ r.2, sample_count := r.1, sample_sum := h.sum_.value } }, h)
  | .finished answer, h => some (answer, h)

theorem eq_of_fields {h h' : Histogram} (hbounds : h.bucket_boundaries_ = h'.bucket_boundaries_)
    (hcounts : h.bucket_counts_ = h'.bucket_counts_) (hsum : h.sum_ = h'.sum_) : h = h' := by
  cases h
  cases h'
  cases hbounds
  cases hcounts
  cases hsum
  rfl

variable {h h' : Histogram} {k k' : Position}

theorem withCount_changeCounts {i : ℕ} {c : CounterType Double}
    (hc : h.bucket_counts_[i]? = some c) :
    (h.withCount i (f i c)).changeCounts (i + 1) f = h.changeCounts i f :=
  eq_of_fields rfl (changeFrom_set hc) rfl

theorem withCount_self {i : ℕ} {c : CounterType Double} (hc : h.bucket_counts_[i]? = some c) :
    h.withCount i c = h := by
  obtain ⟨hi, rfl⟩ := List.getElem?_eq_some_iff.mp hc
  exact eq_of_fields rfl (List.set_getElem_self hi) rfl

theorem changeCounts_length : h.changeCounts h.bucket_counts_.length f = h :=
  eq_of_fields rfl changeFrom_length rfl

theorem addAt_of_not_lt {bucket_increments : List Double} {i : ℕ} {val : Double}
    (hval : bucket_increments[i]? = some val)
    (hlt : Arithmetic.lt val (Arithmetic.ofInt 0) = false) (c : CounterType Double) :
    addAt bucket_increments i c = ⟨⟨Arithmetic.add c.gauge_.value_ val⟩⟩ := by
  rw [addAt, hval, Option.getD_some, CounterType.incrementBy, hlt]
  rfl

theorem addAt_of_lt {bucket_increments : List Double} {i : ℕ} {val : Double}
    (hval : bucket_increments[i]? = some val)
    (hlt : Arithmetic.lt val (Arithmetic.ofInt 0) = true) (c : CounterType Double) :
    addAt bucket_increments i c = c := by
  rw [addAt, hval, Option.getD_some, CounterType.incrementBy, if_pos hlt]

theorem collectBuckets_cons {bounds : List Double} {i cumulative_count total : ℕ}
    {counter : CounterType Double} (htotal : addTruncated cumulative_count counter.value = some total)
    (counters : List (CounterType Double)) :
    collectBuckets bounds i cumulative_count (counter :: counters) =
      (collectBuckets bounds (i + 1) total counters).map fun r =>
        (r.1, { cumulative_count := total, upper_bound := bounds[i]?.getD (.inf false) } :: r.2) := by
  simp only [collectBuckets, htotal, Option.bind_eq_bind, Option.bind_some]
  cases collectBuckets bounds (i + 1) total counters <;> rfl

/-- A step of the section keeps what the section comes to. -/
theorem Work.finish (hwork : Work h k h' k') : k'.finish h' = k.finish h := by
  cases hwork with
  | loadSum | exchangeSum | loadCount _ | loadCounts _ _ _ | storeSum => rfl
  | @exchangeCount index counter hcounter =>
      obtain ⟨hi, rfl⟩ := List.getElem?_eq_some_iff.mp hcounter
      refine congrArg some (Prod.ext rfl (eq_of_fields rfl (List.ext_getElem? fun j => ?_) rfl))
      by_cases hj : index = j
      · subst hj
        simp [withCount, hi]
        rfl
      · simp [withCount, hj]
  | exchangeCounts hcounter hval hlt =>
      rw [Position.finish, Position.finish, ← addAt_of_not_lt hval hlt,
        withCount_changeCounts hcounter]
  | @skipCounts i bucket_increments counter val hcounter hval hlt =>
      have hskip := withCount_changeCounts (f := addAt bucket_increments) hcounter
      rw [addAt_of_lt hval hlt, withCount_self hcounter] at hskip
      rw [Position.finish, Position.finish, hskip]
  | endCounts => rw [Position.finish, Position.finish, changeCounts_length]
  | resetCount hcounter =>
      rw [Position.finish, Position.finish,
        withCount_changeCounts (f := fun _ => CounterType.reset) hcounter]
  | endReset => rw [Position.finish, Position.finish, changeCounts_length]
  | @read i cumulative_count total bucket counter hcounter htotal =>
      obtain ⟨hi, rfl⟩ := List.getElem?_eq_some_iff.mp hcounter
      rw [Position.finish, Position.finish, List.drop_eq_getElem_cons hi,
        collectBuckets_cons htotal, Option.map_map]
      simp [Function.comp_def]
  | readSum => simp [Position.finish, collectBuckets]

/-- The bounds and the number of counters never change. -/
theorem Work.keeps (hwork : Work h k h' k') :
    h'.bucket_boundaries_ = h.bucket_boundaries_ ∧
      h'.bucket_counts_.length = h.bucket_counts_.length := by
  cases hwork <;> simp [withSum, withCount]

theorem prelude_congr (hbounds : h'.bucket_boundaries_ = h.bucket_boundaries_)
    (hlength : h'.bucket_counts_.length = h.bucket_counts_.length) (call : Call) :
    prelude call h' = prelude call h := by
  cases call with
  | collect => rfl
  | change op =>
      cases op with
      | observe value => rw [prelude, prelude, hbounds]
      | observeMultiple bucket_increments sum_of_values => rw [prelude, prelude, hlength]
      | reset => rfl

theorem machine_finishes : machine.Finishes Position.finish where
  work hwork := Work.finish hwork
  prelude hwork := prelude_congr (Work.keeps hwork).1 (Work.keeps hwork).2
  result {s k r} hresult := by
    cases k with
    | finished answer =>
        cases hresult
        rfl
    | _ => cases hresult

theorem changeCounts_addAt {bucket_increments : List Double}
    (hsize : bucket_increments.length = h.bucket_counts_.length) :
    (h.changeCounts 0 (addAt bucket_increments)).bucket_counts_ =
      List.zipWith CounterType.incrementBy h.bucket_counts_ bucket_increments := by
  apply List.ext_getElem
  · simp [changeCounts, hsize]
  · intro i hi hi'
    have hlt : i < bucket_increments.length := by
      rw [List.length_zipWith] at hi'
      omega
    simp [changeCounts, changeFrom, addAt, hlt]

/-- The sections come to what the functions of the class do. -/
theorem effect_eq_whole (call : Call) (h : Histogram) :
    machine.effect Position.finish call h = call.whole h := by
  cases call with
  | collect =>
      simp [Machine.effect, machine, prelude, Position.finish, Call.whole, collect]
      cases collectBuckets h.bucket_boundaries_ 0 0 h.bucket_counts_ <;> rfl
  | change op =>
      cases op with
      | observe value => rfl
      | observeMultiple bucket_increments sum_of_values =>
          by_cases hsize : bucket_increments.length ≠ h.bucket_counts_.length
          · simp [Machine.effect, machine, prelude, Call.whole, observeMultiple, hsize]
          · have hcounts := changeCounts_addAt (not_not.mp hsize)
            simp only [Machine.effect, machine, prelude, if_neg hsize, Call.whole, observeMultiple,
              dif_neg hsize]
            exact congrArg some (Prod.ext rfl (eq_of_fields rfl hcounts rfl))
      | reset =>
          refine congrArg some (Prod.ext rfl (eq_of_fields rfl ?_ rfl))
          apply List.ext_getElem? fun j => ?_
          simp [withSum, changeCounts, changeFrom, Histogram.reset]

end Finish

section Threads

variable {θ : Type} [DecidableEq θ]

def Call.op? : Call → Option Op
  | .change op => some op
  | .collect => none

/-- The changes among the calls that ended. -/
def opsOf (ended : List (θ × Call × Answer)) : List Op := ended.filterMap fun c => c.2.1.op?

omit [DecidableEq θ] in
theorem opsOf_snoc (ended : List (θ × Call × Answer)) (c : θ × Call × Answer) :
    opsOf (ended ++ [c]) = opsOf ended ++ c.2.1.op?.toList := by
  rw [opsOf, List.filterMap_append]
  cases hop : c.2.1.op? <;> simp [opsOf, hop]

/-- A whole call changes the histogram as a run of its change does. -/
theorem Call.whole_run {call : Call} {h h' : Histogram} {answer : Answer}
    (hwhole : call.whole h = some (answer, h')) : h' = h.run call.op?.toList := by
  cases call with
  | collect =>
      obtain ⟨metric, -, heq⟩ := Option.map_eq_some_iff.mp hwhole
      exact (congrArg Prod.snd heq).symm
  | change op =>
      cases op <;> exact (congrArg Prod.snd (Option.some.inj hwhole)).symm

omit [DecidableEq θ] in
theorem serial_run {h h' : Histogram} {ended : List (θ × Call × Answer)}
    (hserial : Serial (machine.effect Position.finish) h ended h') : h' = h.run (opsOf ended) := by
  induction hserial with
  | nil => rfl
  | snoc _ hcall ih =>
      rw [effect_eq_whole, ih] at hcall
      rw [opsOf_snoc, run, List.foldl_append]
      exact Call.whole_run hcall

/-- However the threads interleave, every call has the answer that it has on the
histogram left by the changes that ended before it, one after the other, so no
scrape sees part of an observation; and no call is lost or made twice. -/
theorem histogram_serial {start s : Shared θ Histogram Call Position}
    {ended : List (θ × Call × Answer)} (hidle : start.Idle)
    (h : LabelledSteps.Steps (Step machine) start ended s) :
    (∀ before t call answer after, ended = before ++ (t, call, answer) :: after →
      ∃ h', call.whole (start.object.run (opsOf before)) = some (answer, h')) ∧
    (s.lock = none → s.object = start.object.run (opsOf ended)) ∧
    (∀ t, callsOf t ended ++ (s.threads t).calls = (start.threads t).calls) ∧
    ∀ t u k k' calls calls', s.threads t = ⟨.inside k, calls⟩ → s.threads u = ⟨.inside k', calls'⟩ →
      t = u := by
  obtain ⟨base, hordered⟩ := ordered machine_finishes hidle h
  refine ⟨?_, ?_, hordered.calls, ?_⟩
  · rintro before t call answer after rfl
    obtain ⟨h₁, h₂, hserial, hcall⟩ := hordered.serial.split
    rw [effect_eq_whole, serial_run hserial] at hcall
    exact ⟨h₂, hcall⟩
  · intro hfree
    rw [hordered.free hfree]
    exact serial_run hordered.serial
  · intro t u k k' calls calls' ht hu
    exact hordered.inside_unique ht hu

/-- A thread that observes while another one scrapes. -/
def observedAndScraped : Shared Bool Histogram Call Position where
  object := ⟨[], [CounterType.new], GaugeType.new (.finite 0), rfl, rfl⟩
  lock := none
  threads t := ⟨.outside, if t then [.collect] else [.change (.observe (.finite 2))]⟩

/-- The scrape is called first but has to wait. -/
theorem observedAndScraped_run : ∃ s metric, LabelledSteps.Steps (Step machine) observedAndScraped
    [(false, .change (.observe (.finite 2)), .done (.ok ())), (true, .collect, .collected metric)]
    s ∧ ∀ t, (s.threads t).calls = [] :=
  ⟨_, _, .silent (.prepare (t := true) rfl rfl) <| .silent (.prepare (t := false) rfl rfl) <|
    .silent (.acquire (t := false) rfl rfl) <| .silent (.work (t := false) rfl .loadSum) <|
    .silent (.work (t := false) rfl .exchangeSum) <|
    .silent (.work (t := false) rfl (.loadCount rfl)) <|
    .silent (.work (t := false) rfl (.exchangeCount rfl)) <|
    .shown (.release (t := false) rfl rfl) <| .silent (.acquire (t := true) rfl rfl) <|
    .silent (.work (t := true) rfl (@Work.read _ _ _ 1 _ _ rfl (by decide +kernel))) <|
    .silent (.work (t := true) rfl .readSum) <| .shown (.release (t := true) rfl rfl) <|
    .refl _, by decide⟩

/-- It reports the observation. -/
theorem histogram_serial_two_threads : ∃ metric h',
    Call.whole .collect (observedAndScraped.object.run [.observe (.finite 2)]) =
      some (.collected metric, h') := by
  obtain ⟨s, metric, hs, -⟩ := observedAndScraped_run
  obtain ⟨h', hwhole⟩ := (histogram_serial ⟨rfl, fun _ => rfl⟩ hs).1
    [(false, .change (.observe (.finite 2)), .done (.ok ()))] true .collect (.collected metric) [] rfl
  exact ⟨metric, h', hwhole⟩

end Threads

end Promcore.Histogram
