import Promcore.Sketch.CoveredRuns

/-!
# When a quantile read is within its tolerated error

The scan of `get` compares the stored upper rank of each item with a bound
and returns the item before the first one beyond it. Whether the value read
has the promised rank is decided by the stored upper ranks alone: none may be
too large after an item ranked too low, and one must be large enough before an
item ranked too high.
-/

namespace Promcore.CKMSQuantiles

open RankSummary

variable {α : Type}

/-- The largest rank the sample admits for its item `i`: the weight up to and
including the item, and its delta. -/
def upperRank (sample : List (Item α)) (i : ℕ) (hi : i < sample.length) : ℤ :=
  mass Item.g (sample.take (i + 1)) + sample[i].delta

theorem upperRank_eq (sample : List (Item α)) (i : ℕ) (hi : i < sample.length) :
    upperRank sample i hi = mass Item.g (sample.take i) + (sample[i].g + sample[i].delta) := by
  rw [upperRank, ← List.take_append_getElem hi, mass_append, mass_cons, mass_nil, add_zero,
    add_assoc]

@[simp] theorem upperRank_cons_succ (x : Item α) (xs : List (Item α)) (i : ℕ)
    (hi : i + 1 < (x :: xs).length) :
    upperRank (x :: xs) (i + 1) hi = x.g + upperRank xs i (by simpa using hi) := by
  simp [upperRank, add_assoc]

/-- The scan stops at the last item reached without passing the bound. -/
theorem scan_spec (bound : ℚ) (r : ℤ) (cur : Item α) (rest : List (Item α)) :
    ∃ k, ∃ hk : k < (cur :: rest).length, scan bound r cur rest = (cur :: rest)[k].value ∧
      (∀ j (hj : j ≤ k), 1 ≤ j →
        ((r + upperRank (cur :: rest) j (hj.trans_lt hk) : ℤ) : ℚ) ≤ bound) ∧
      ∀ hnext : k + 1 < (cur :: rest).length,
        bound < ((r + upperRank (cur :: rest) (k + 1) hnext : ℤ) : ℚ) := by
  induction rest generalizing r cur with
  | nil =>
      refine ⟨0, by simp, rfl, fun j hj h1 => ?_, fun hnext => ?_⟩
      · omega
      · simp at hnext
  | cons next rest ih =>
      have hfirst : r + cur.g + next.g + next.delta =
          r + upperRank (cur :: next :: rest) 1 (by simp) := by
        simp [upperRank]
        ring
      by_cases hover : bound < ((r + cur.g + next.g + next.delta : ℤ) : ℚ)
      · refine ⟨0, by simp, by rw [scan, if_pos hover]; rfl, fun j hj h1 => ?_, fun _ => ?_⟩
        · omega
        · rwa [hfirst] at hover
      · obtain ⟨k, hk, hscan, hbelow, habove⟩ := ih (r + cur.g) next
        refine ⟨k + 1, by simpa using hk, by rw [scan, if_neg hover, hscan]; rfl,
          fun j hj h1 => ?_, fun hnext => ?_⟩
        · obtain ⟨j, rfl⟩ := Nat.exists_eq_add_of_le' h1
          cases j with
          | zero =>
              rw [hfirst] at hover
              exact not_lt.mp hover
          | succ j =>
              have := hbelow (j + 1) (by omega) (by omega)
              rwa [upperRank_cons_succ, ← add_assoc]
        · have := habove (by simpa using hnext)
          rwa [upperRank_cons_succ, ← add_assoc]

variable [LinearOrder α]

/-- The stored upper ranks are right where the tolerance `lo` to `hi` ends: no
item is beyond the bound while its predecessor ranks below `lo`, and no item
with more than `hi` smaller values is reached within the bound. -/
structure UpperRanksSeparate (sample : List (Item α)) (data : List α) (bound lo hi : ℚ) :
    Prop where
  not_early : ∀ i (h : i + 1 < sample.length), bound < upperRank sample (i + 1) h →
    lo ≤ data.countP (· ≤ sample[i].value)
  not_late : ∀ i (h : i < sample.length),
    (∀ j (hj : j ≤ i), 1 ≤ j → (upperRank sample j (hj.trans_lt h) : ℚ) ≤ bound) →
      (data.countP (· < sample[i].value) : ℚ) ≤ hi

theorem countP_le_mono (data : List α) {a b : α} (h : a ≤ b) :
    data.countP (· ≤ a) ≤ data.countP (· ≤ b) :=
  List.countP_mono_left fun x _ hx => by simp only [decide_eq_true_eq] at hx ⊢; exact hx.trans h

theorem countP_lt_mono (data : List α) {a b : α} (h : a ≤ b) :
    data.countP (· < a) ≤ data.countP (· < b) :=
  List.countP_mono_left fun x _ hx => by
    simp only [decide_eq_true_eq] at hx ⊢
    exact hx.trans_le h

/-- The scan of a sorted sample lands between `lo` and `hi` exactly when the
stored upper ranks separate the two. -/
theorem scan_between_iff (bound lo hi : ℚ) (cur : Item α) (rest : List (Item α)) (data : List α)
    (hsorted : (cur :: rest).Pairwise (·.value ≤ ·.value))
    (hmax : ∀ x, (cur :: rest).getLast? = some x → ∀ d ∈ data, d ≤ x.value)
    (hlo : lo ≤ data.length) :
    (lo ≤ data.countP (· ≤ scan bound 0 cur rest) ∧
      (data.countP (· < scan bound 0 cur rest) : ℚ) ≤ hi) ↔
      UpperRanksSeparate (cur :: rest) data bound lo hi := by
  obtain ⟨k, hk, hscan, hbelow, habove⟩ := scan_spec bound 0 cur rest
  simp only [zero_add] at hbelow habove
  have hmono : ∀ i j (hij : i ≤ j) (hj : j < (cur :: rest).length),
      (cur :: rest)[i].value ≤ (cur :: rest)[j].value := by
    intro i j hij hj
    rcases hij.lt_or_eq with h | rfl
    · exact List.pairwise_iff_getElem.mp hsorted i j (by omega) hj h
    · exact le_rfl
  rw [hscan]
  constructor
  · rintro ⟨hlow, hhigh⟩
    constructor
    · -- an item beyond the bound comes after the one read
      intro i h hover
      have hki : k ≤ i := by
        by_contra hlt
        exact absurd hover (not_lt.mpr (hbelow (i + 1) (by omega) (by omega)))
      exact hlow.trans (by exact_mod_cast countP_le_mono data (hmono k i hki (by omega)))
    · -- an item reached within the bound is not after the one read
      intro i h hwithin
      have hik : i ≤ k := by
        by_contra hlt
        exact absurd (habove (by omega)) (not_lt.mpr (hwithin (k + 1) (by omega) (by omega)))
      exact le_trans (by exact_mod_cast countP_lt_mono data (hmono i k hik hk)) hhigh
  · rintro ⟨hearly, hlate⟩
    refine ⟨?_, hlate k hk hbelow⟩
    by_cases hnext : k + 1 < (cur :: rest).length
    · exact hearly k hnext (habove hnext)
    · -- the last item is the maximum of the data
      have hlast : (cur :: rest).getLast? = some (cur :: rest)[k] := by
        rw [List.getLast?_eq_getElem?, List.getElem?_eq_getElem (by simp)]
        congr 2
        omega
      have hall : data.countP (· ≤ (cur :: rest)[k].value) = data.length :=
        List.countP_eq_length.mpr fun d hd => by simpa using hmax _ hlast d hd
      rw [hall]
      exact hlo

/-- A read answers NaN exactly when the sketch holds no value, and otherwise
one of the values it holds. -/
theorem Represents.get_mem {b : CKMSQuantiles α} {data : List α} (h : Represents b data) (q : ℚ) :
    ∃ b' x, b.get q = some (b', x) ∧ (x = none ↔ data = []) ∧ ∀ y, x = some y → y ∈ data := by
  obtain ⟨t, hflush, hrep, -, hcount, -⟩ := h.flush
  refine ⟨t, t.read q, by simp [get_eq_flush, hflush], ?_⟩
  have hnil := hrep.sample_nil_iff
  have hmem := hrep.sample.mem_data
  rw [hcount, List.take_length] at hnil hmem
  cases hsample : t.sample_ with
  | nil => simp [read, hsample, hnil.mp hsample]
  | cons cur rest =>
      obtain ⟨k, hk, hscan, -⟩ := scan_spec (t.bound q) 0 cur rest
      have hne : data ≠ [] := fun hdata => by simp [hnil.mpr hdata] at hsample
      refine ⟨by simp [read, hsample, hne], fun y hy => ?_⟩
      obtain rfl : scan (t.bound q) 0 cur rest = y := by simpa [read, hsample] using hy
      rw [hscan]
      exact hmem _ (by rw [hsample]; exact List.getElem_mem hk)

/-- The next read of a target returns an inserted value whose rank is within
the tolerated error, up to two. -/
def Accurate (s : CKMSQuantiles α) (data : List α) (q : Quantile) : Prop :=
  ∃ s' r, s.get q.quantile = some (s', some r) ∧ r ∈ data ∧
    (q.quantile - q.error) * data.length - 2 ≤ data.countP (· ≤ r) ∧
    (data.countP (· < r) : ℚ) ≤ (q.quantile + q.error) * data.length + 2

/-- In every reachable state holding a value, the read of a target is within
its tolerated error exactly when the upper ranks of the flushed sample separate
the two ends of the tolerance. -/
theorem accurate_iff (quantiles_ : List Quantile)
    (hq : ∀ q ∈ quantiles_, 0 < q.quantile ∧ q.quantile < 1 ∧ 0 < q.error ∧ q.error < 1)
    (ops : List (Op α)) (hne : inserted ops ≠ []) (q : Quantile) (hmem : q ∈ quantiles_) :
    ∃ s t, run (new quantiles_) ops = some s ∧ s.flush = some t ∧
      (Accurate s (inserted ops) q ↔
        UpperRanksSeparate t.sample_ (inserted ops) (t.bound q.quantile)
          ((q.quantile - q.error) * (inserted ops).length - 2)
          ((q.quantile + q.error) * (inserted ops).length + 2)) := by
  obtain ⟨s, hrun, hrep, -⟩ := run_represents quantiles_ ops
  obtain ⟨t, hflush, hrept, -, hcount, -⟩ := hrep.flush
  refine ⟨s, t, hrun, hflush, ?_⟩
  have hsum := hrept.sample
  rw [hcount, List.take_length] at hsum
  obtain ⟨-, hlt, hpos, -⟩ := hq q hmem
  have hlo : (q.quantile - q.error) * (inserted ops).length - 2 ≤ (inserted ops).length := by
    have : (0 : ℚ) ≤ (inserted ops).length := Nat.cast_nonneg _
    nlinarith
  cases hsample : t.sample_ with
  | nil =>
      have := hrept.sample_nil_iff.mp hsample
      rw [hcount, List.take_length] at this
      exact absurd this hne
  | cons cur rest =>
      rw [hsample] at hsum
      rw [← scan_between_iff _ _ _ cur rest _ hsum.sorted hsum.max_kept hlo]
      have hget : s.get q.quantile = some (t, some (scan (t.bound q.quantile) 0 cur rest)) := by
        simp [get_eq_flush, hflush, read, hsample]
      obtain ⟨k, hk, hscan, -⟩ := scan_spec (t.bound q.quantile) 0 cur rest
      constructor
      · rintro ⟨s', r, hr, -, hbounds⟩
        rw [hget] at hr
        simp only [Option.some.injEq, Prod.mk.injEq] at hr
        rwa [hr.2]
      · intro hbounds
        exact ⟨t, _, hget, hscan ▸ hsum.mem_data _ (List.getElem_mem hk), hbounds⟩

/-- Right upper ranks separate the two ends of the tolerance when no item beyond
the bound begins below `lo` and the first item is not above `hi`. -/
theorem separate_of_upperRanks {sample : List (Item α)} {data : List α} {bound lo hi : ℚ}
    (hsum : Summarizes Item.value Item.g sample data) (hright : UpperRanks sample data)
    (hbound : bound ≤ hi + 1 ∨ data.length ≤ hi)
    (hbegins : ∀ i (h : i + 1 < sample.length), bound < upperRank sample (i + 1) h →
      lo ≤ mass Item.g (sample.take (i + 1)))
    (hfirst : ∀ h : 0 < sample.length, (data.countP (· < sample[0].value) : ℚ) ≤ hi) :
    UpperRanksSeparate sample data bound lo hi := by
  constructor
  · intro i hlen hover
    have hlower := hsum.lower.getElem Item.value Item.g i (by omega)
    rw [zero_add] at hlower
    exact (hbegins i hlen hover).trans (by exact_mod_cast hlower)
  · intro i hlen hwithin
    rcases hbound with hbound | hall
    swap
    · exact le_trans (by exact_mod_cast List.countP_le_length) hall
    cases i with
    | zero => exact hfirst hlen
    | succ i =>
        have hupper := hright.getElem (i + 1) hlen
        rw [zero_add] at hupper
        have hrank : (data.countP (· < sample[i + 1].value) : ℚ) + 1 ≤
            upperRank sample (i + 1) hlen := by exact_mod_cast hupper
        linarith [hwithin (i + 1) le_rfl (by omega)]

omit [LinearOrder α] in
/-- For a target, the bound stays within the tolerance. -/
theorem bound_le {t : CKMSQuantiles α} {q : Quantile} (hmem : q ∈ t.quantiles_) (hq : q.Proper)
    (hslope : q.error ≤ 1 - q.quantile) (hlen : t.sample_.length ≤ t.count_) :
    t.bound q.quantile ≤ (q.quantile + q.error) * t.count_ + 1 := by
  have hcount : (0 : ℚ) ≤ t.count_ := Nat.cast_nonneg _
  have hsize : (t.sample_.length : ℚ) ≤ t.count_ := by exact_mod_cast hlen
  have hrank : t.desired q.quantile = ⌊q.quantile * t.count_⌋ :=
    if_neg (not_lt.mpr (mul_nonneg hq.pos.le hcount))
  have hle : (t.desired q.quantile : ℚ) ≤ q.quantile * t.count_ := by
    rw [hrank]
    exact Int.floor_le _
  have hgt : q.quantile * t.count_ < t.desired q.quantile + 1 := by
    rw [hrank]
    exact Int.lt_floor_add_one _
  have hco : 0 < 1 - q.quantile := by linarith [hq.lt_one]
  have herror : q.errorAt t.sample_.length (t.desired q.quantile) ≤
      2 * q.error * t.count_ + 2 := by
    rw [hq.errorAt_eq]
    split
    · -- at most `(1 - quantile) * count + 1` ranks are left
      have hu : q.u ≤ 2 := by
        rw [Quantile.u, div_le_iff₀ hco]
        linarith
      have hmul : q.u * ((1 - q.quantile) * t.count_) = 2 * q.error * t.count_ := by
        rw [Quantile.u]
        field_simp
      calc q.u * (t.sample_.length - t.desired q.quantile)
          ≤ q.u * ((1 - q.quantile) * t.count_ + 1) :=
            mul_le_mul_of_nonneg_left (by linarith) hq.u_nonneg
        _ ≤ 2 * q.error * t.count_ + 2 := by linarith
    · have hmul : q.v * (q.quantile * t.count_) = 2 * q.error * t.count_ := by
        have := hq.pos
        rw [Quantile.v]
        field_simp
      have := mul_le_mul_of_nonneg_left hle hq.v_nonneg
      linarith
  have hallowed := allowableError_le hmem t.sample_.length (t.desired q.quantile)
  unfold bound
  linarith

end Promcore.CKMSQuantiles
