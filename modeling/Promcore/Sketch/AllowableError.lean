import Promcore.Sketch.CKMSQuantiles

/-!
# The error allowed at a rank

The loop over the targeted quantiles computes a minimum, capped at
`size + 1`. For targets strictly between zero and one its unsigned difference
never wraps.
-/

namespace Promcore

/-- A target strictly between zero and one with a tolerance of at least zero. -/
structure Quantile.Proper (q : Quantile) : Prop where
  pos : 0 < q.quantile
  lt_one : q.quantile < 1
  error_nonneg : 0 ≤ q.error

theorem Quantile.Proper.of_bounds {q : Quantile}
    (h : 0 < q.quantile ∧ q.quantile < 1 ∧ 0 ≤ q.error) : q.Proper := ⟨h.1, h.2.1, h.2.2⟩

theorem Quantile.Proper.u_nonneg {q : Quantile} (h : q.Proper) : 0 ≤ q.u :=
  div_nonneg (by linarith [h.error_nonneg]) (by linarith [h.lt_one])

theorem Quantile.Proper.v_nonneg {q : Quantile} (h : q.Proper) : 0 ≤ q.v :=
  div_nonneg (by linarith [h.error_nonneg]) h.pos.le

/-- In the branch that subtracts, the rank is at most the size. -/
theorem Quantile.Proper.rank_le_size {q : Quantile} (h : q.Proper) {size : ℕ} {rank : ℤ}
    (hr : (rank : ℚ) ≤ q.quantile * size) : rank ≤ size := by
  have hsize : (0 : ℚ) ≤ size := Nat.cast_nonneg size
  have : (rank : ℚ) ≤ size := hr.trans (by nlinarith [h.lt_one])
  exact_mod_cast this

/-- For proper targets the error is exact arithmetic. -/
theorem Quantile.Proper.errorAt_eq {q : Quantile} (h : q.Proper) (size : ℕ) (rank : ℤ) :
    q.errorAt size rank =
      if (rank : ℚ) ≤ q.quantile * size then q.u * (size - rank) else q.v * rank := by
  unfold errorAt
  split
  · rename_i hr
    simp [sizeMinus, h.rank_le_size hr]
  · rfl

theorem Quantile.Proper.errorAt_nonneg {q : Quantile} (h : q.Proper) (size : ℕ) {rank : ℤ}
    (hrank : 0 ≤ rank) : 0 ≤ q.errorAt size rank := by
  rw [h.errorAt_eq]
  split
  · rename_i hr
    have : (rank : ℚ) ≤ size := by exact_mod_cast h.rank_le_size hr
    exact mul_nonneg h.u_nonneg (by linarith)
  · exact mul_nonneg h.v_nonneg (by exact_mod_cast hrank)

/-- The loop keeps the smaller of the running minimum and each error. -/
theorem allowableError_eq_foldl_min (quantiles_ : List Quantile) (size : ℕ) (rank : ℤ) :
    allowableError quantiles_ size rank =
      (quantiles_.map (·.errorAt size rank)).foldl min (size + 1 : ℚ) := by
  have hstep : ∀ e m : ℚ, (if e < m then e else m) = min m e := by
    intro e m
    rw [min_def]
    split_ifs <;> linarith
  simp only [allowableError, hstep, List.foldl_map]

theorem le_allowableError_iff (quantiles_ : List Quantile) (size : ℕ) (rank : ℤ) (x : ℚ) :
    x ≤ allowableError quantiles_ size rank ↔
      x ≤ size + 1 ∧ ∀ q ∈ quantiles_, x ≤ q.errorAt size rank := by
  rw [allowableError_eq_foldl_min]
  generalize (size + 1 : ℚ) = m
  induction quantiles_ generalizing m with
  | nil => simp
  | cons q qs ih => simp [ih, and_assoc]

theorem allowableError_le_size (quantiles_ : List Quantile) (size : ℕ) (rank : ℤ) :
    allowableError quantiles_ size rank ≤ size + 1 :=
  ((le_allowableError_iff quantiles_ size rank _).mp le_rfl).1

theorem allowableError_le {quantiles_ : List Quantile} {q : Quantile} (hq : q ∈ quantiles_)
    (size : ℕ) (rank : ℤ) : allowableError quantiles_ size rank ≤ q.errorAt size rank :=
  ((le_allowableError_iff quantiles_ size rank _).mp le_rfl).2 q hq

theorem allowableError_nonneg {quantiles_ : List Quantile} (hq : ∀ q ∈ quantiles_, q.Proper)
    (size : ℕ) {rank : ℤ} (hrank : 0 ≤ rank) : 0 ≤ allowableError quantiles_ size rank :=
  (le_allowableError_iff quantiles_ size rank 0).mpr
    ⟨by positivity, fun q hmem => (hq q hmem).errorAt_nonneg size hrank⟩

/-- A tolerance that stays within `1 - quantile` makes the error fall by at
most two for each rank. -/
theorem Quantile.Proper.errorAt_le_add {q : Quantile} (h : q.Proper)
    (hslope : q.error ≤ 1 - q.quantile) (size : ℕ) {rank rank' : ℤ} (hle : rank ≤ rank') :
    q.errorAt size rank ≤ q.errorAt size rank' + 2 * (rank' - rank) := by
  have hcast : (rank : ℚ) ≤ rank' := by exact_mod_cast hle
  have hpos := h.pos
  have hco : 0 < 1 - q.quantile := by linarith [h.lt_one]
  have hu : q.u ≤ 2 := by
    rw [Quantile.u, div_le_iff₀ hco]
    linarith
  have hu0 := h.u_nonneg
  have hv0 := h.v_nonneg
  rw [h.errorAt_eq, h.errorAt_eq]
  split
  · split
    · -- both below the target: the slope is `-u`
      nlinarith
    · -- the two branches meet at the target, where the error is `2 * error * size`
      rename_i hbelow habove
      have hmeet : q.u * (size - q.quantile * size) = q.v * (q.quantile * size) := by
        rw [Quantile.u, Quantile.v]
        field_simp
      have hafter : q.v * (q.quantile * size) ≤ q.v * rank' :=
        mul_le_mul_of_nonneg_left (not_le.mp habove).le hv0
      have hdrop : q.u * (q.quantile * size - rank) ≤ 2 * (q.quantile * size - rank) :=
        mul_le_mul_of_nonneg_right hu (by linarith)
      linarith
  · rename_i habove
    rw [if_neg fun hbelow => habove (hcast.trans hbelow)]
    nlinarith

/-- With such tolerances the scan bound never falls. -/
theorem rank_add_half_error_mono {quantiles_ : List Quantile}
    (hq : ∀ q ∈ quantiles_, q.Proper ∧ q.error ≤ 1 - q.quantile) (size : ℕ) {rank rank' : ℤ}
    (hle : rank ≤ rank') :
    rank + allowableError quantiles_ size rank / 2 ≤
      rank' + allowableError quantiles_ size rank' / 2 := by
  have hcast : (rank : ℚ) ≤ rank' := by exact_mod_cast hle
  have hmin : allowableError quantiles_ size rank - 2 * (rank' - rank) ≤
      allowableError quantiles_ size rank' := by
    rw [le_allowableError_iff]
    constructor
    · linarith [allowableError_le_size quantiles_ size rank]
    · intro q hmem
      have := (hq q hmem).1.errorAt_le_add (hq q hmem).2 size hle
      linarith [allowableError_le hmem size rank]
  linarith

theorem CKMSQuantiles.insertDelta_nonneg {quantiles_ : List Quantile}
    (hq : ∀ q ∈ quantiles_, q.Proper) (size idx : ℕ) : 0 ≤ insertDelta quantiles_ size idx := by
  unfold insertDelta
  split
  · exact le_rfl
  · have : 0 ≤ ⌊allowableError quantiles_ size ((idx + 1 : ℕ) : ℤ)⌋ :=
      Int.floor_nonneg.mpr (allowableError_nonneg hq size (by positivity))
    omega

end Promcore
