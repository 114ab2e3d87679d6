import Mathlib.Algebra.BigOperators.Group.List.Basic
import Mathlib.Algebra.BigOperators.Pi
import Promcore.Metrics.CumulativeCounts
import Promcore.Metrics.Interleaving
import Promcore.Metrics.LockedHistogram

/-!
# A histogram depends on totals only

In exact arithmetic an observation adds one to a counter and its value to the
sum, and a batch adds to all counters. So the calls commute, a batch is the
observations it counts, and threads that share a histogram leave the total of
their calls whatever their order.
-/

namespace Promcore.Histogram

open CriticalSections

/-- What a call adds to the counter at each index, and to the sum. -/
abbrev Amounts := (ℕ → Double) × Double

/-- What a counter adds of an amount: it ignores a negative one. -/
def counted (val : Double) : Double := if val.lt (.finite 0) then 0 else val

/-- The amounts of a call on a histogram with these bounds; a refused batch adds
nothing. -/
def Op.amounts (bounds : List Double) : Op → Amounts
  | .observe value => (Pi.single (lowerBound bounds value) (.finite 1), value)
  | .observeMultiple bucket_increments sum_of_values =>
      if bucket_increments.length = bounds.length + 1 then
        (fun i => counted (bucket_increments[i]?.getD 0), sum_of_values)
      else 0
  | .reset => 0

/-- The histogram with these amounts added. -/
def plus (h : Histogram) (amounts : Amounts) : Histogram :=
  { h with
    bucket_counts_ := h.bucket_counts_.mapIdx fun i c => ⟨⟨c.gauge_.value_ + amounts.1 i⟩⟩
    sum_ := ⟨h.sum_.value_ + amounts.2⟩
    size_eq := by rw [List.length_mapIdx, h.size_eq] }

variable {h : Histogram}

theorem plus_zero (h : Histogram) : h.plus 0 = h := by
  refine eq_of_fields rfl (List.ext_getElem? fun i => ?_) ?_
  · simp only [plus, List.getElem?_mapIdx, Prod.fst_zero, Pi.zero_apply, add_zero]
    cases h.bucket_counts_[i]? <;> rfl
  · simp only [plus, Prod.snd_zero, add_zero]

theorem plus_plus (h : Histogram) (a b : Amounts) : (h.plus a).plus b = h.plus (a + b) := by
  refine eq_of_fields rfl (List.ext_getElem? fun i => ?_) ?_
  · simp only [plus, List.getElem?_mapIdx, Option.map_map, Prod.fst_add, Pi.add_apply]
    refine congrFun (congrArg Option.map (funext fun c => ?_)) _
    simp only [Function.comp_apply, add_assoc]
  · simp only [plus, Prod.snd_add, add_assoc]

theorem observe_eq_plus (h : Histogram) (value : Double) :
    h.observe value = h.plus (Op.amounts h.bucket_boundaries_ (.observe value)) := by
  refine eq_of_fields rfl (List.ext_getElem? fun i => ?_) rfl
  simp only [observe, plus, Op.amounts, List.getElem?_modify, List.getElem?_mapIdx]
  refine congrFun (congrArg Option.map (funext fun c => ?_)) _
  by_cases hi : lowerBound h.bucket_boundaries_ value = i
  · subst hi
    rw [if_pos rfl, Pi.single_eq_same]
    rfl
  · rw [if_neg hi, Pi.single_eq_of_ne (Ne.symm hi), add_zero]

theorem incrementBy_eq (c : CounterType Double) (val : Double) :
    c.incrementBy val = ⟨⟨c.gauge_.value_ + counted val⟩⟩ := by
  rw [CounterType.incrementBy, counted]
  change (if val.lt (.finite 0) = true then _ else _) = _
  split
  · rw [add_zero]
  · rfl

theorem observeMultiple_eq_plus (h : Histogram) (bucket_increments : List Double)
    (sum_of_values : Double) :
    (h.observeMultiple bucket_increments sum_of_values).2 =
      h.plus (Op.amounts h.bucket_boundaries_
        (.observeMultiple bucket_increments sum_of_values)) := by
  by_cases hsize : bucket_increments.length = h.bucket_boundaries_.length + 1
  · obtain ⟨hbounds, hcounts, hsum⟩ := h.observeMultiple_accepted sum_of_values hsize
    have hlength := h.size_eq
    rw [Op.amounts, if_pos hsize]
    refine eq_of_fields hbounds (hcounts.trans (List.ext_getElem ?_ fun i hi hi' => ?_)) hsum
    · simp only [plus, List.length_zipWith, List.length_mapIdx]
      omega
    · have hlt : i < bucket_increments.length := (List.lt_length_right_of_zipWith hi)
      simp only [plus, List.getElem_zipWith, List.getElem_mapIdx, incrementBy_eq,
        List.getElem?_eq_getElem hlt, Option.getD_some]
  · rw [h.observeMultiple_refused sum_of_values hsize, Op.amounts, if_neg hsize, plus_zero]

theorem apply_eq_plus {op : Op} (hop : op ≠ .reset) (h : Histogram) :
    h.apply op = h.plus (op.amounts h.bucket_boundaries_) := by
  cases op with
  | observe value => exact h.observe_eq_plus value
  | observeMultiple bucket_increments sum_of_values =>
      exact h.observeMultiple_eq_plus bucket_increments sum_of_values
  | reset => exact absurd rfl hop

/-- Without a reset, a run adds the total of its calls. -/
theorem run_eq_plus {ops : List Op} (hops : .reset ∉ ops) (h : Histogram) :
    h.run ops = h.plus (ops.map (Op.amounts h.bucket_boundaries_)).sum := by
  induction ops generalizing h with
  | nil => exact (plus_zero h).symm
  | cons op ops ih =>
      obtain ⟨hop, hops⟩ := not_or.mp (mt List.mem_cons.mpr hops)
      rw [run, List.foldl_cons, apply_eq_plus (Ne.symm hop), List.map_cons, List.sum_cons,
        ← plus_plus]
      exact ih hops (h.plus _)

/-- How many of the values fall into each bucket. -/
def batchOf (bounds : List Double) (values : List Double) : List Double :=
  (List.range (bounds.length + 1)).map fun i =>
    .finite (values.countP fun value => lowerBound bounds value = i)

theorem sum_amounts_observe (bounds values : List Double) :
    (values.map fun value => Op.amounts bounds (.observe value)).sum =
      (fun i => .finite (values.countP fun value => lowerBound bounds value = i), values.sum) := by
  have hadd (x y : ℚ) : Double.finite x + .finite y = .finite (x + y) := rfl
  induction values with
  | nil => rfl
  | cons value values ih =>
      rw [List.map_cons, List.sum_cons, ih]
      refine Prod.ext (funext fun i => ?_) rfl
      simp only [Op.amounts, Prod.fst_add, Pi.add_apply, List.countP_cons]
      by_cases hi : lowerBound bounds value = i
      · subst hi
        rw [Pi.single_eq_same, hadd]
        simp [Rat.add_comm]
      · rw [Pi.single_eq_of_ne (Ne.symm hi), zero_add]
        simp [hi]

theorem counted_natCast (n : ℕ) : counted (.finite n) = .finite n := by
  have hn : (0 : ℚ) ≤ n := Nat.cast_nonneg n
  simp [counted, hn]

/-- A batch of tallies adds what the single observations add. -/
theorem amounts_batchOf (bounds values : List Double) :
    Op.amounts bounds (.observeMultiple (batchOf bounds values) values.sum) =
      (values.map fun value => Op.amounts bounds (.observe value)).sum := by
  rw [sum_amounts_observe, Op.amounts, if_pos (by simp [batchOf])]
  refine Prod.ext (funext fun i => ?_) rfl
  change counted ((batchOf bounds values)[i]?.getD 0) = _
  rw [batchOf, List.getElem?_map]
  rcases Nat.lt_or_ge i (bounds.length + 1) with hi | hi
  · rw [List.getElem?_range hi]
    exact counted_natCast _
  · -- no value falls behind the last bucket
    have hnone : values.countP (fun value => lowerBound bounds value = i) = 0 := by
      rw [List.countP_eq_zero]
      intro value _
      have hle := lowerBound_le_length bounds value
      simp
      omega
    rw [List.getElem?_eq_none (by simpa using hi)]
    exact (counted_natCast 0).trans (congrArg (fun n : ℕ => Double.finite n) hnone.symm)

/-- In exact arithmetic the order of observations and batches is of no account,
and one `ObserveMultiple` with the tallies and the sum of some values is the
single observations of these values. -/
theorem totals_only (h : Histogram) :
    (∀ ops ops' : List Op, ops.Perm ops' → .reset ∉ ops → h.run ops = h.run ops') ∧
      ∀ values : List Double,
        h.observeMultiple (batchOf h.bucket_boundaries_ values) values.sum =
          (.ok (), h.run (values.map .observe)) := by
  constructor
  · intro ops ops' hperm hops
    rw [run_eq_plus hops, run_eq_plus (fun hmem => hops (hperm.mem_iff.mpr hmem)),
      (hperm.map _).sum_eq]
  · intro values
    refine Prod.ext ?_ ?_
    · rw [observeMultiple, dif_neg (by simp [batchOf, h.size_eq])]
    · rw [observeMultiple_eq_plus, amounts_batchOf, run_eq_plus (by simp), List.map_map]
      rfl

/-- A histogram with the one bound 2. -/
def oneBound : Histogram :=
  ⟨[.finite 2], [CounterType.new, CounterType.new], GaugeType.new (.finite 0), rfl, rfl⟩

theorem totals_only_two_values :
    oneBound.run [.observe (.finite 1), .observe (.finite 3)] =
        oneBound.run [.observe (.finite 3), .observe (.finite 1)] ∧
      oneBound.observeMultiple [.finite 1, .finite 1] (.finite 4) =
        (.ok (), oneBound.run [.observe (.finite 1), .observe (.finite 3)]) := by
  obtain ⟨hperm, hbatch⟩ := totals_only oneBound
  refine ⟨hperm _ _ (.swap _ _ []) (by decide), ?_⟩
  have hincrements : batchOf oneBound.bucket_boundaries_ [.finite 1, .finite 3] =
      [.finite 1, .finite 1] := by decide +kernel
  have hsum : [Double.finite 1, .finite 3].sum = .finite 4 := by decide +kernel
  rw [← hincrements, ← hsum]
  exact hbatch [.finite 1, .finite 3]

section Threads

variable {θ : Type} [DecidableEq θ]

/-- The total of the calls that ended is that of each thread's, added up. -/
theorem sum_opsOf [Fintype θ] (amounts : Op → Amounts) (ended : List (θ × Call × Answer)) :
    ((opsOf ended).map amounts).sum =
      ∑ t, (((callsOf t ended).filterMap Call.op?).map amounts).sum := by
  induction ended using List.reverseRecOn with
  | nil => simp [opsOf, callsOf]
  | append_singleton ended c ih =>
      obtain ⟨u, call, answer⟩ := c
      have hthread : ∀ t,
          (((callsOf t (ended ++ [(u, call, answer)])).filterMap Call.op?).map amounts).sum =
            (((callsOf t ended).filterMap Call.op?).map amounts).sum +
              if u = t then (call.op?.toList.map amounts).sum else 0 := by
        intro t
        rw [callsOf_snoc]
        split
        · rw [List.filterMap_append, List.map_append, List.sum_append]
          cases hop : call.op? <;> simp [hop]
        · rw [add_zero]
      simp only [hthread, Finset.sum_add_distrib, Finset.sum_ite_eq, Finset.mem_univ, if_true,
        opsOf_snoc, List.map_append, List.sum_append, ih]

/-- The lock is free once all calls are finished. -/
theorem lock_eq_none {start s : Shared θ Histogram Call Position}
    {ended : List (θ × Call × Answer)} {base : Histogram}
    (h : Ordered machine Position.finish start s ended base)
    (hdone : ∀ t, (s.threads t).calls = []) : s.lock = none := by
  cases hlock : s.lock with
  | none => rfl
  | some t =>
      have hstands := h.threads t
      have hcalls := hdone t
      generalize s.threads t = thread at hstands hcalls
      cases hstands with
      | outside hmine => exact absurd hlock hmine
      | ready hmine _ => exact absurd hlock hmine
      | inside _ _ => cases hcalls

theorem reset_notMem_opsOf {ended : List (θ × Call × Answer)}
    (hreset : ∀ t, .change .reset ∉ callsOf t ended) : .reset ∉ opsOf ended := by
  intro hmem
  obtain ⟨c, hc, hop⟩ := List.mem_filterMap.mp hmem
  refine hreset c.1 (List.mem_filterMap.mpr ⟨c, hc, ?_⟩)
  rw [if_pos rfl]
  cases hcall : c.2.1 with
  | change op =>
      rw [hcall] at hop
      exact congrArg (some ∘ Call.change) (Option.some.inj hop)
  | collect =>
      rw [hcall] at hop
      cases hop

/-- Threads that have finished all calls leave the histogram with the total of
these calls added, however they interleaved. -/
theorem final_totals [Fintype θ] {start s : Shared θ Histogram Call Position}
    {ended : List (θ × Call × Answer)} (hidle : start.Idle)
    (hreset : ∀ t, .change .reset ∉ (start.threads t).calls)
    (h : LabelledSteps.Steps (Step machine) start ended s)
    (hdone : ∀ t, (s.threads t).calls = []) :
    s.lock = none ∧ s.object = start.object.plus (∑ t, (((start.threads t).calls.filterMap
      Call.op?).map (Op.amounts start.object.bucket_boundaries_)).sum) := by
  obtain ⟨base, hordered⟩ := ordered machine_finishes hidle h
  have hcalls (t : θ) : callsOf t ended = (start.threads t).calls := by
    rw [← hordered.calls t, hdone, List.append_nil]
  have hops : .reset ∉ opsOf ended := reset_notMem_opsOf fun t => hcalls t ▸ hreset t
  have hfree := lock_eq_none hordered hdone
  refine ⟨hfree, ?_⟩
  calc s.object = start.object.run (opsOf ended) :=
        (hordered.free hfree).trans (serial_run hordered.serial)
    _ = start.object.plus _ := run_eq_plus hops start.object
    _ = _ := by simp only [sum_opsOf, hcalls]

theorem final_totals_two_threads : ∃ s : Shared Bool Histogram Call Position,
    s.lock = none ∧ s.object = observedAndScraped.object.plus
      (∑ t, (((observedAndScraped.threads t).calls.filterMap Call.op?).map
        (Op.amounts observedAndScraped.object.bucket_boundaries_)).sum) := by
  obtain ⟨s, metric, hs, hdone⟩ := observedAndScraped_run
  exact ⟨s, final_totals ⟨rfl, fun _ => rfl⟩ (by decide) hs hdone⟩

end Threads

end Promcore.Histogram
