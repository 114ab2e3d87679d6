import Promcore.Metrics.CumulativeCounts
import Promcore.Metrics.Scrapes
import Promcore.Window.Rotation

/-!
# When a metric can be collected

A summary answers as long as the loops of its rotations end, and a histogram
as long as its counts can be converted to integers.
-/

namespace Promcore

namespace TimeWindowQuantiles

variable {w w' : TimeWindowQuantiles (CKMSQuantiles ℚ)} {quantiles_ : List Quantile}

theorem Serves.turning (h : Serves w quantiles_) :
    Turning w w.ckms_quantiles_.length w.rotation_interval_ := ⟨rfl, h.current_lt, rfl⟩

/-- A read is answered once the rotation has ended. -/
theorem Serves.get_of_rotate (h : Serves w quantiles_) {now : ℤ} (hrotate : w.rotate now = some w')
    (q : ℚ) : ∃ b x, w.get now q = some (w'.setCurrent b, x) := by
  obtain ⟨b, data, hb, -, hrep⟩ := (h.rotate hrotate).current
  obtain ⟨b', -, hread, -⟩ := hrep.get q
  refine ⟨b', b'.read q, ?_⟩
  simp [TimeWindowQuantiles.get, hrotate, hb, Bucket.get, hread]

end TimeWindowQuantiles

namespace Summary

open TimeWindowQuantiles

/-- The first read rotates, and the others start from what it leaves. -/
theorem collectQuantiles_cons_isSome_iff (quantile : Quantile) (quantiles : List Quantile)
    (clock : ℕ → ℤ) (w : TimeWindowQuantiles (CKMSQuantiles ℚ)) :
    (∃ values, collectQuantiles (quantile :: quantiles) clock w = some values) ↔
      ∃ w₁ b x, w.rotate (clock 0) = some w₁ ∧
        w.get (clock 0) quantile.quantile = some (w₁.setCurrent b, x) ∧
        ∃ values, collectQuantiles quantiles (fun i => clock (i + 1)) (w₁.setCurrent b) =
          some values := by
  constructor
  · rintro ⟨values, hvalues⟩
    simp only [collectQuantiles, Option.bind_eq_bind, Option.bind_eq_some_iff] at hvalues
    obtain ⟨⟨w₂, x⟩, hget, rest, hrest, -⟩ := hvalues
    have hparts := hget
    simp only [TimeWindowQuantiles.get, Option.bind_eq_bind, Option.bind_eq_some_iff] at hparts
    obtain ⟨w₁, hrotate, b, -, ⟨b', y⟩, -, hw₂⟩ := hparts
    obtain ⟨rfl, -⟩ : w₁.setCurrent b' = w₂ ∧ y = x := by simpa using hw₂
    exact ⟨w₁, b', x, hrotate, hget, rest, hrest⟩
  · rintro ⟨w₁, b, x, -, hget, ⟨w₂, entries⟩, hentries⟩
    exact ⟨_, by simp [collectQuantiles, hget, hentries]; rfl⟩

/-- The reads of `Collect` all end exactly when the interval is at least one
tick or none of the readings makes a rotation due. -/
theorem collectQuantiles_isSome_iff {quantiles_ : List Quantile} (quantiles : List Quantile)
    (clock : ℕ → ℤ) {w : TimeWindowQuantiles (CKMSQuantiles ℚ)} (h : Serves w quantiles_) :
    (∃ values, collectQuantiles quantiles clock w = some values) ↔
      1 ≤ w.rotation_interval_ ∨
        ∀ i < quantiles.length, clock i - w.last_rotation_ ≤ w.rotation_interval_ := by
  induction quantiles generalizing clock w with
  | nil => exact iff_of_true ⟨_, rfl⟩ (Or.inr fun i hi => absurd hi (Nat.not_lt_zero i))
  | cons quantile quantiles ih =>
      rw [collectQuantiles_cons_isSome_iff]
      constructor
      · rintro ⟨w₁, b, x, hrotate, hget, hrest⟩
        replace hrest := (ih (fun i => clock (i + 1)) (h.get hget)).mp hrest
        change 1 ≤ w₁.rotation_interval_ ∨ _ at hrest
        rw [rotateLoop_interval hrotate] at hrest
        rcases (h.turning.rotate_isSome_iff).mp ⟨w₁, hrotate⟩ with hpos | hdue
        · exact Or.inl hpos
        · obtain rfl : w = w₁ :=
            Option.some.inj ((rotateLoop_of_le hdue _).symm.trans hrotate)
          refine hrest.imp_right fun hrest i hi => ?_
          cases i with
          | zero => exact hdue
          | succ i => exact hrest i (Nat.lt_of_succ_lt_succ hi)
      · intro hends
        have hend : ∃ w₁, w.rotate (clock 0) = some w₁ ∧ (1 ≤ w₁.rotation_interval_ ∨
            ∀ i < quantiles.length, clock (i + 1) - w₁.last_rotation_ ≤ w₁.rotation_interval_) := by
          rcases hends with hpos | hdue
          · obtain ⟨w₁, hrotate⟩ := h.turning.rotate_isSome_iff.mpr (Or.inl hpos)
            exact ⟨w₁, hrotate, Or.inl (rotateLoop_interval hrotate ▸ hpos)⟩
          · exact ⟨w, rotateLoop_of_le (hdue 0 (Nat.succ_pos _)) _,
              Or.inr fun i hi => hdue (i + 1) (Nat.succ_lt_succ hi)⟩
        obtain ⟨w₁, hrotate, hrest⟩ := hend
        obtain ⟨b, x, hget⟩ := h.get_of_rotate hrotate quantile.quantile
        exact ⟨w₁, b, x, hrotate, hget, (ih (fun i => clock (i + 1)) (h.get hget)).mpr hrest⟩

theorem collect_isSome_iff {s : Summary} {quantiles_ : List Quantile}
    (h : Serves s.quantile_values_ quantiles_) (clock : ℕ → ℤ) :
    (∃ result, s.collect clock = some result) ↔
      1 ≤ s.quantile_values_.rotation_interval_ ∨ s.NoRotation clock := by
  rw [NoRotation, ← collectQuantiles_isSome_iff s.quantiles_ clock h]
  constructor
  · rintro ⟨result, hcollect⟩
    obtain ⟨values, hvalues, -⟩ := Option.bind_eq_some_iff.mp hcollect
    exact ⟨values, hvalues⟩
  · rintro ⟨values, hvalues⟩
    exact ⟨_, by rw [collect, hvalues]; rfl⟩

end Summary

/-- A sum of values that are not negative is not negative. -/
theorem Double.add_not_negative {x y : Double} (hx : x.lt (.finite 0) = false)
    (hy : y.lt (.finite 0) = false) : (x.add y).lt (.finite 0) = false := by
  rcases x with _ | (_ | _) | x <;> rcases y with _ | (_ | _) | y <;>
    simp_all [Double.lt, Double.add]
  linarith

theorem CounterType.not_negative_incrementBy {c : CounterType Double} (val : Double)
    (h : c.value.lt (.finite 0) = false) : (c.incrementBy val).value.lt (.finite 0) = false := by
  rw [incrementBy]
  split
  · exact h
  · next hval => exact Double.add_not_negative h (by simpa [Arithmetic.lt, Arithmetic.ofInt] using hval)

namespace Histogram

/-- No bucket counter is negative; one can be infinite or NaN. -/
def NotNegative (h : Histogram) : Prop :=
  ∀ c ∈ h.bucket_counts_, c.value.lt (.finite 0) = false

theorem notNegative_new {buckets : List Double} {h : Histogram} (hnew : new buckets = .ok h) :
    h.NotNegative := by
  unfold new at hnew
  split at hnew
  · cases hnew
    intro c hc
    rw [List.eq_of_mem_replicate hc]
    decide +kernel
  · cases hnew

/-- What the changes of a counter keep, a call keeps of all counters. -/
theorem forall_counters_apply {P : CounterType Double → Prop} {h : Histogram} {op : Op}
    (hh : ∀ c ∈ h.bucket_counts_, P c) (hincrement : ∀ c, P c → P c.increment)
    (hincrementBy : ∀ bucket_increments sum_of_values,
      op = .observeMultiple bucket_increments sum_of_values →
        ∀ val ∈ bucket_increments, ∀ c, P c → P (c.incrementBy val))
    (hreset : ∀ c, P c → P c.reset) : ∀ c ∈ (h.apply op).bucket_counts_, P c := by
  cases op with
  | observe value =>
      intro c hc
      obtain ⟨i, hi, rfl⟩ := List.mem_iff_getElem.mp hc
      have hget : (h.apply (.observe value)).bucket_counts_[i] = _ := List.getElem_modify ..
      rw [hget]
      split
      · exact hincrement _ (hh _ (List.getElem_mem _))
      · exact hh _ (List.getElem_mem _)
  | observeMultiple bucket_increments sum_of_values =>
      rw [Histogram.apply]
      by_cases hsize : bucket_increments.length = h.bucket_boundaries_.length + 1
      · obtain ⟨-, hcounts, -⟩ := h.observeMultiple_accepted sum_of_values hsize
        intro c hc
        rw [hcounts] at hc
        obtain ⟨i, hi, rfl⟩ := List.mem_iff_getElem.mp hc
        rw [List.getElem_zipWith]
        exact hincrementBy _ _ rfl _ (List.getElem_mem _) _ (hh _ (List.getElem_mem _))
      · rw [h.observeMultiple_refused sum_of_values hsize]
        exact hh
  | reset =>
      intro c hc
      obtain ⟨c', hc', rfl⟩ := List.mem_map.mp hc
      exact hreset c' (hh c' hc')

theorem NotNegative.apply {h : Histogram} (hh : h.NotNegative) (op : Op) :
    (h.apply op).NotNegative :=
  forall_counters_apply hh (fun _ hc => Double.add_not_negative hc (by decide +kernel))
    (fun _ _ _ val _ _ hc => CounterType.not_negative_incrementBy val hc) fun _ _ => rfl

/-- The loop of `Collect` ends exactly on finite counts. -/
theorem collectBuckets_isSome_iff (bounds : List Double) (counters : List (CounterType Double))
    (i cumulative_count : ℕ) (h : ∀ c ∈ counters, c.value.lt (.finite 0) = false) :
    (∃ result, collectBuckets bounds i cumulative_count counters = some result) ↔
      ∀ c ∈ counters, ∃ x, c.value = .finite x := by
  induction counters generalizing i cumulative_count with
  | nil => exact iff_of_true ⟨_, rfl⟩ (by simp)
  | cons c counters ih =>
      have hnegative := h c List.mem_cons_self
      replace ih := fun i cumulative_count =>
        ih i cumulative_count fun c hc => h c (List.mem_cons_of_mem _ hc)
      rw [List.forall_mem_cons]
      cases hvalue : c.value with
      | nan => exact iff_of_false (by simp [collectBuckets, hvalue, addTruncated]) (by simp)
      | inf negative => exact iff_of_false (by simp [collectBuckets, hvalue, addTruncated]) (by simp)
      | finite x =>
          have hx : 0 ≤ x := by simpa [hvalue] using hnegative
          have hcount : (0 : ℚ) ≤ cumulative_count := Nat.cast_nonneg cumulative_count
          rw [and_iff_right ⟨x, rfl⟩, ← ih (i + 1) ⌊(cumulative_count : ℚ) + x⌋.toNat]
          constructor
          · rintro ⟨result, hresult⟩
            simp only [collectBuckets, hvalue, addTruncated, Option.bind_eq_bind,
              Option.bind_eq_some_iff] at hresult
            rw [if_pos (by linarith)] at hresult
            obtain ⟨count, hcounted, rest, hrest, -⟩ := hresult
            obtain rfl := Option.some.inj hcounted
            exact ⟨rest, hrest⟩
          · rintro ⟨⟨total, buckets⟩, hrest⟩
            exact ⟨_, by
              rw [collectBuckets, hvalue, addTruncated, if_pos (by linarith), Option.bind_eq_bind,
                Option.bind_some, hrest]
              rfl⟩

theorem NotNegative.collect_isSome_iff {h : Histogram} (hh : h.NotNegative) :
    (∃ collected, h.collect = some collected) ↔
      ∀ c ∈ h.bucket_counts_, ∃ x, c.value = .finite x := by
  rw [← collectBuckets_isSome_iff h.bucket_boundaries_ h.bucket_counts_ 0 0 hh]
  constructor
  · rintro ⟨collected, hcollect⟩
    obtain ⟨result, hresult, -⟩ := Option.bind_eq_some_iff.mp hcollect
    exact ⟨result, hresult⟩
  · rintro ⟨result, hresult⟩
    exact ⟨_, by rw [collect, hresult]; rfl⟩

/-- The buckets collected have the bounds of the histogram, and the last one
is unbounded. -/
theorem collectBuckets_upper_bounds (bounds : List Double) {i cumulative_count total : ℕ}
    {counters : List (CounterType Double)} {buckets : List ClientMetric.Bucket}
    (h : collectBuckets bounds i cumulative_count counters = some (total, buckets)) :
    buckets.map ClientMetric.Bucket.upper_bound =
      (List.range counters.length).map fun j => bounds[i + j]?.getD (.inf false) := by
  induction counters generalizing i cumulative_count total buckets with
  | nil =>
      obtain ⟨-, rfl⟩ := Prod.mk.injEq .. ▸ Option.some.inj h
      rfl
  | cons counter counters ih =>
      simp only [collectBuckets, Option.bind_eq_bind, Option.bind_eq_some_iff, Option.pure_def,
        Option.some.injEq, Prod.mk.injEq] at h
      obtain ⟨count, -, ⟨total', rest⟩, hrest, -, rfl⟩ := h
      rw [List.map_cons, ih hrest, List.length_cons, List.range_succ_eq_map, List.map_cons,
        List.map_map]
      simp [Function.comp_def, add_assoc, add_comm 1]

theorem collect_upper_bounds {h : Histogram} {collected : ClientMetric}
    (hcollect : h.collect = some collected) :
    collected.label = [] ∧ collected.histogram.bucket.map ClientMetric.Bucket.upper_bound =
      h.bucket_boundaries_ ++ [.inf false] := by
  simp only [collect, Option.bind_eq_bind, Option.bind_eq_some_iff, Option.pure_def,
    Option.some.injEq] at hcollect
  obtain ⟨⟨total, buckets⟩, hbuckets, rfl⟩ := hcollect
  refine ⟨rfl, ?_⟩
  change buckets.map ClientMetric.Bucket.upper_bound = _
  rw [collectBuckets_upper_bounds _ hbuckets, h.size_eq, List.range_succ, List.map_append]
  congr 1
  · apply List.ext_getElem
    · simp
    · intro j hj _
      rw [List.length_map, List.length_range] at hj
      simp [hj]
  · simp

end Histogram

end Promcore
