import Promcore.Sketch.Accuracy
import Promcore.Sketch.FlushedRuns

/-!
# Sketches that keep every value

Two items are merged only where an error of two ranks is allowed. While one
target allows less at every rank, the sample is the sorted list of the values
flushed, and a read gives the order statistic asked for or one of the two below.
-/

namespace Promcore

namespace CKMSQuantiles

open LabelledSteps RankSummary

variable {α : Type} {quantiles_ : List Quantile} {n : ℕ}

/-- One of the targets allows an error below two at every rank up to `n`. -/
def SmallError (quantiles_ : List Quantile) (n : ℕ) : Prop :=
  ∃ q ∈ quantiles_, q.error * n < q.quantile ∧ q.error * n < 1 - q.quantile

instance (quantiles_ : List Quantile) (n : ℕ) : Decidable (SmallError quantiles_ n) :=
  inferInstanceAs (Decidable (∃ q ∈ quantiles_, _ ∧ _))

theorem allowableError_lt_two (hq : ∀ q ∈ quantiles_, q.Proper) (hsmall : SmallError quantiles_ n)
    {size : ℕ} (hsize : size ≤ n) (rank : ℤ) (hrank : 0 ≤ rank) (hle : rank ≤ n) :
    allowableError quantiles_ size rank < 2 := by
  obtain ⟨q, hmem, hbelow, habove⟩ := hsmall
  have hproper := hq q hmem
  have hpos := hproper.pos
  have hco : 0 < 1 - q.quantile := by linarith [hproper.lt_one]
  have hsize' : (size : ℚ) ≤ n := by exact_mod_cast hsize
  have hrank' : (0 : ℚ) ≤ rank := by exact_mod_cast hrank
  have hle' : (rank : ℚ) ≤ n := by exact_mod_cast hle
  refine (allowableError_le hmem size rank).trans_lt ?_
  rw [hproper.errorAt_eq]
  split
  · calc q.u * (size - rank) ≤ q.u * n :=
          mul_le_mul_of_nonneg_left (by linarith) hproper.u_nonneg
      _ = 2 * (q.error * n) / (1 - q.quantile) := by rw [Quantile.u]; ring
      _ < 2 := by rw [div_lt_iff₀ hco]; linarith
  · calc q.v * rank ≤ q.v * n := mul_le_mul_of_nonneg_left hle' hproper.v_nonneg
      _ = 2 * (q.error * n) / q.quantile := by rw [Quantile.v]; ring
      _ < 2 := by rw [div_lt_iff₀ hpos]; linarith

/-- The sample holds each value by itself, and its upper ranks are off by two
ranks at most. -/
structure HoldsEach (sample : List (Item α)) (data : List α) : Prop where
  values : (sample.map Item.value).Perm data
  weight : ∀ x ∈ sample, x.g = 1
  delta : ∀ x ∈ sample, 0 ≤ x.delta ∧ x.delta ≤ 2

section Items

variable {sample : List (Item α)} {data : List α}

theorem HoldsEach.length (h : HoldsEach sample data) : sample.length = data.length := by
  rw [← h.values.length_eq, List.length_map]

theorem HoldsEach.nil : HoldsEach ([] : List (Item α)) [] :=
  ⟨.refl _, fun _ hx => absurd hx List.not_mem_nil, fun _ hx => absurd hx List.not_mem_nil⟩

theorem HoldsEach.insert {pre post : List (Item α)} (h : HoldsEach (pre ++ post) data) {x : Item α}
    (hg : x.g = 1) (hdelta : 0 ≤ x.delta ∧ x.delta ≤ 2) :
    HoldsEach (pre ++ x :: post) (x.value :: data) where
  values := by
    have hmiddle : (pre ++ x :: post).Perm (x :: (pre ++ post)) := List.perm_middle
    exact (hmiddle.map Item.value).trans (h.values.cons x.value)
  weight := by
    refine List.forall_mem_append.mpr ⟨fun y hy => h.weight y (List.mem_append_left _ hy), ?_⟩
    exact List.forall_mem_cons.mpr ⟨hg, fun y hy => h.weight y (List.mem_append_right _ hy)⟩
  delta := by
    refine List.forall_mem_append.mpr ⟨fun y hy => h.delta y (List.mem_append_left _ hy), ?_⟩
    exact List.forall_mem_cons.mpr ⟨hdelta, fun y hy => h.delta y (List.mem_append_right _ hy)⟩

theorem HoldsEach.mass_take (h : HoldsEach sample data) {i : ℕ} (hi : i ≤ sample.length) :
    mass Item.g (sample.take i) = i := by
  have hones : ((sample.take i).map Item.g) = List.replicate i 1 := by
    rw [List.eq_replicate_iff]
    refine ⟨by simp [hi], fun g hg => ?_⟩
    obtain ⟨x, hx, rfl⟩ := List.mem_map.mp hg
    exact h.weight x (List.mem_of_mem_take hx)
  rw [mass, hones, List.sum_replicate, nsmul_eq_mul, mul_one]

/-- The scan stops at the rank asked for, or one or two ranks before it. -/
theorem HoldsEach.scan {cur : Item α} {rest : List (Item α)} (h : HoldsEach (cur :: rest) data)
    {bound : ℚ} {desired : ℤ} (hle : (desired : ℚ) ≤ bound) (hlt : bound < desired + 1)
    (hdesired : desired ≤ data.length) :
    ∃ k, ∃ hk : k < (cur :: rest).length,
      CKMSQuantiles.scan bound 0 cur rest = (cur :: rest)[k].value ∧ desired ≤ k + 3 ∧
        (k : ℤ) < max desired 1 := by
  obtain ⟨k, hk, hscan, hbelow, habove⟩ := scan_spec bound 0 cur rest
  have hupper (j : ℕ) (hj : j < (cur :: rest).length) :
      upperRank (cur :: rest) j hj = j + 1 + (cur :: rest)[j].delta := by
    rw [upperRank, h.mass_take hj]
    norm_num
  refine ⟨k, hk, hscan, ?_, ?_⟩
  · rcases Nat.lt_or_ge (k + 1) (cur :: rest).length with hnext | hlast
    · have hover := hle.trans_lt (habove hnext)
      have hdelta := (h.delta _ (List.getElem_mem hnext)).2
      rw [Int.cast_lt, hupper] at hover
      push_cast at hover
      omega
    · have := h.length
      omega
  · rcases Nat.eq_zero_or_pos k with rfl | hpos
    · exact lt_max_of_lt_right zero_lt_one
    · have hunder := (hbelow k le_rfl hpos).trans_lt hlt
      have hdelta := (h.delta _ (List.getElem_mem hk)).1
      rw [← Int.cast_one, ← Int.cast_add, Int.cast_lt, hupper] at hunder
      exact lt_max_of_lt_left (by omega)

theorem truncate_of_nonneg {x : ℚ} (hx : 0 ≤ x) : truncate x = ⌊x⌋ := by
  rw [truncate, if_neg (not_lt.mpr hx)]

/-- A read of such a sketch is an order statistic next to the rank asked for. -/
theorem HoldsEach.read (hq : ∀ q ∈ quantiles_, q.Proper) {s : CKMSQuantiles α}
    (htargets : s.quantiles_ = quantiles_) (h : HoldsEach s.sample_ data)
    (hsmall : SmallError quantiles_ data.length) (hcount : s.count_ = data.length)
    (hne : data ≠ []) {p : ℚ} (hp : 0 ≤ p) (hp' : p ≤ 1) :
    ∃ (k : ℕ) (value : α), s.read p = some value ∧ (s.sample_.map Item.value)[k]? = some value ∧
      ⌊p * data.length⌋ ≤ (k : ℤ) + 3 ∧ (k : ℤ) < max ⌊p * data.length⌋ 1 := by
  have hlength := h.length
  have hn : (0 : ℚ) ≤ data.length := Nat.cast_nonneg _
  have hdesired : s.desired p = ⌊p * data.length⌋ := by
    rw [desired, hcount, truncate_of_nonneg (mul_nonneg hp hn)]
  have hlow : 0 ≤ ⌊p * data.length⌋ := Int.floor_nonneg.mpr (mul_nonneg hp hn)
  have hhigh : ⌊p * data.length⌋ ≤ data.length := by
    rw [Int.floor_le_iff]
    push_cast
    nlinarith
  have herror := allowableError_lt_two hq hsmall hlength.le _ hlow hhigh
  have herror' := allowableError_nonneg hq s.sample_.length hlow
  have hbound : s.bound p = ⌊p * data.length⌋ +
      allowableError quantiles_ s.sample_.length ⌊p * data.length⌋ / 2 := by
    rw [bound, hdesired, htargets]
  cases hsample : s.sample_ with
  | nil =>
      rw [hsample] at hlength
      exact absurd (List.eq_nil_of_length_eq_zero hlength.symm) hne
  | cons cur rest =>
      rw [hsample] at h
      have hle : (⌊p * data.length⌋ : ℚ) ≤ s.bound p := by
        rw [hbound]
        linarith
      have hlt : s.bound p < (⌊p * data.length⌋ : ℚ) + 1 := by
        rw [hbound]
        linarith
      obtain ⟨k, hk, hscan, hbelow, habove⟩ := h.scan hle hlt hhigh
      refine ⟨k, _, by rw [CKMSQuantiles.read, hsample], ?_, hbelow, habove⟩
      rw [hscan, List.getElem?_map, List.getElem?_eq_getElem hk, Option.map_some]

end Items

section Steps

variable [LinearOrder α] {sample sample' : List (Item α)} {data : List α}

theorem insertDelta_le_two (hq : ∀ q ∈ quantiles_, q.Proper) (hsmall : SmallError quantiles_ n)
    {size idx : ℕ} (hidx : idx ≤ size) (hsize : size < n) :
    insertDelta quantiles_ size idx ≤ 2 := by
  unfold insertDelta
  split
  · exact zero_le_two
  · have herror := allowableError_lt_two hq hsmall hsize.le ((idx + 1 : ℕ) : ℤ)
      (Int.natCast_nonneg _) (by omega)
    have hfloor : ⌊allowableError quantiles_ size ((idx + 1 : ℕ) : ℤ)⌋ < 2 := Int.floor_lt.mpr herror
    omega

/-- No step merges, as two items take up an error of two ranks. -/
theorem SampleStep.holdsEach (hq : ∀ q ∈ quantiles_, q.Proper) (hsmall : SmallError quantiles_ n)
    {label : Option α} (step : SampleStep quantiles_ sample label sample')
    (h : HoldsEach sample data) (hn : (label.toList ++ data).length ≤ n) :
    HoldsEach sample' (label.toList ++ data) := by
  have hlength := h.length
  cases step with
  | seed v =>
      have hempty : HoldsEach ([] ++ []) data := h
      exact hempty.insert (x := ⟨v, 1, 0⟩) rfl ⟨le_rfl, zero_le_two⟩
  | place pre post v hne hpre hpost =>
      refine h.insert (x := ⟨v, 1, _⟩) rfl ⟨insertDelta_nonneg hq _ _, ?_⟩
      refine insertDelta_le_two hq hsmall (by simp) ?_
      rw [hlength]
      simpa [Nat.add_comm] using hn
  | merge pre post a b hfits =>
      have ha := h.weight a (by simp)
      have hb := h.weight b (by simp)
      have hdelta := (h.delta b (by simp)).1
      rw [hlength] at hfits
      have herror := allowableError_lt_two hq hsmall (by simpa using hn)
        ((pre.length + 1 : ℕ) : ℤ) (Int.natCast_nonneg _) (by
          simp only [List.length_append, List.length_cons] at hlength
          simp only [Option.toList_none, List.nil_append] at hn
          omega)
      have hlt : ((a.g + b.g + b.delta : ℤ) : ℚ) < (2 : ℤ) := hfits.trans_lt herror
      have := Int.cast_lt.mp hlt
      omega

theorem SampleSteps.holdsEach (hq : ∀ q ∈ quantiles_, q.Proper) (hsmall : SmallError quantiles_ n)
    {vs : List α} (steps : SampleSteps quantiles_ sample vs sample') (h : HoldsEach sample data)
    (hn : (data ++ vs).length ≤ n) : HoldsEach sample' (data ++ vs) := by
  have hrun := steps.invariant
    (P := fun sample seen => seen.length ≤ n → HoldsEach sample seen)
    (fun _ v _ seen hstep hs hlength => hstep.holdsEach hq hsmall
      (hs ((Nat.le_succ _).trans hlength)) hlength)
    (fun _ _ seen hstep hs hlength => hstep.holdsEach hq hsmall (hs hlength) hlength)
    data (fun _ => h)
  have hperm : (vs.reverse ++ data).Perm (data ++ vs) :=
    ((List.reverse_perm vs).append_right data).trans List.perm_append_comm
  obtain ⟨hvalues, hweight, hdelta⟩ := hrun (hperm.length_eq.trans_le hn)
  exact ⟨hvalues.trans hperm, hweight, hdelta⟩

theorem holdsEach_kept (hq : ∀ q ∈ quantiles_, q.Proper) (hsmall : SmallError quantiles_ n) :
    KeptByFlush quantiles_ (fun _ => True)
      fun (sample : List (Item α)) data => data.length ≤ n → HoldsEach sample data := by
  rintro s s' data rfl hsum - hrel hflush hn
  obtain ⟨sample', hflush', hsteps, -⟩ := flush_summarizes hsum
  obtain rfl := Option.some.inj (hflush'.symm.trans hflush)
  have hperm := (List.perm_insertionSort (· ≤ ·) s.buffer_).append_left data
  have hdata : data.length ≤ n := by
    rw [List.length_append] at hn
    omega
  obtain ⟨hvalues, hweight, hdelta⟩ := hsteps.holdsEach hq hsmall (hrel hdata)
    (hperm.length_eq.trans_le hn)
  exact ⟨hvalues.trans hperm, hweight, hdelta⟩

/-- No condition is one that every run meets. -/
theorem sinceReset_of_run {ops : List (Op α)} {s : CKMSQuantiles α}
    (hrun : run (new quantiles_) ops = some s) :
    SinceReset quantiles_ (fun _ => True) ops s := by
  induction ops using List.reverseRecOn generalizing s with
  | nil =>
      obtain rfl := Option.some.inj hrun
      exact .new
  | append_singleton ops op ih =>
      rw [run_snoc, Option.bind_eq_some_iff] at hrun
      obtain ⟨s₀, hrun, happly⟩ := hrun
      refine (ih hrun).step ?_ happly
      cases op with
      | insert value => exact fun _ => trivial
      | get q => trivial
      | reset => trivial

/-- With a small error every reachable sample holds each flushed value. -/
theorem holdsEach_of_run (hq : ∀ q ∈ quantiles_, q.Proper) {ops : List (Op α)}
    (hsmall : SmallError quantiles_ (inserted ops).length) {s : CKMSQuantiles α}
    (hrun : run (new quantiles_) ops = some s) :
    HoldsEach s.sample_ ((inserted ops).take s.count_) :=
  (sinceReset_of_run hrun).kept (fun _ => .nil) (holdsEach_kept hq hsmall)
    (List.length_take_le' _ _)

end Steps

section Runs

variable [LinearOrder α]

/-- While one target's error is small, the sample is the sorted list of the
values flushed, and a read gives the order statistic of the rank asked for or
one of the two below it, and none above. -/
theorem small_errors_exact (quantiles_ : List Quantile)
    (hq : ∀ q ∈ quantiles_, 0 < q.quantile ∧ q.quantile < 1 ∧ 0 ≤ q.error) (ops : List (Op α))
    (hsmall : SmallError quantiles_ (inserted ops).length) :
    ∃ s, run (new quantiles_) ops = some s ∧
      s.sample_.map Item.value = ((inserted ops).take s.count_).insertionSort (· ≤ ·) ∧
      (∀ x ∈ s.sample_, x.g = 1) ∧
      ∀ p, 0 ≤ p → p ≤ 1 → inserted ops ≠ [] → ∃ (s' : CKMSQuantiles α) (k : ℕ) (value : α),
        s.get p = some (s', some value) ∧
        ((inserted ops).insertionSort (· ≤ ·))[k]? = some value ∧
        ⌊p * (inserted ops).length⌋ ≤ (k : ℤ) + 3 ∧
        (k : ℤ) < max ⌊p * (inserted ops).length⌋ 1 := by
  obtain ⟨s, hrun, hrep, htargets⟩ := run_represents quantiles_ ops
  have hproper : ∀ q ∈ quantiles_, q.Proper := fun q hmem => .of_bounds (hq q hmem)
  have hholds := holdsEach_of_run hproper hsmall hrun
  have hsorted {sample : List (Item α)} {data : List α} (h : HoldsEach sample data)
      (hsum : Summarizes Item.value Item.g sample data) :
      sample.map Item.value = data.insertionSort (· ≤ ·) :=
    (h.values.trans (List.perm_insertionSort (· ≤ ·) data).symm).eq_of_pairwise'
      (List.pairwise_map.mpr hsum.sorted) (List.pairwise_insertionSort (· ≤ ·) data)
  refine ⟨s, hrun, hsorted hholds hrep.sample, hholds.weight, fun p hp hp' hne => ?_⟩
  obtain ⟨s', hflush, hrep', htargets', hcount, hempty, -⟩ := hrep.flush
  have hget : s.get p = some (s', s'.read p) := by rw [get_eq_flush, hflush, Option.map_some]
  have hrun' : run (new quantiles_) (ops ++ [.get p]) = some s' := by
    rw [run_snoc, hrun, Option.bind_some, apply, hget]
    rfl
  have hsame : inserted (ops ++ [.get p]) = inserted ops := inserted_snoc ops _
  have hholds' := holdsEach_of_run hproper (hsame ▸ hsmall) hrun'
  have hsample := hrep'.sample
  rw [hsame, hrep'.take_of_flushed hempty] at hholds'
  rw [hrep'.take_of_flushed hempty] at hsample
  obtain ⟨k, value, hread, hvalue, hbelow, habove⟩ := hholds'.read hproper
    (htargets'.trans htargets) hsmall hcount hne hp hp'
  rw [hsorted hholds' hsample] at hvalue
  exact ⟨s', k, value, hread ▸ hget, hvalue, hbelow, habove⟩

/-- The upper quartile with a tolerance of one in a hundred, of three values. -/
theorem small_errors_exact_three : ∃ s,
    run (new [⟨3 / 4, 1 / 100⟩]) [.insert (3 : ℤ), .get (1 / 2), .insert 1, .insert 2] = some s ∧
      ∃ s' value, s.get (3 / 4) = some (s', some value) ∧ value ≤ 2 := by
  have hdata : inserted [.insert (3 : ℤ), .get (1 / 2), .insert 1, .insert 2] = [3, 1, 2] := rfl
  obtain ⟨s, hrun, -, -, hget⟩ := small_errors_exact [⟨3 / 4, 1 / 100⟩] (by decide +kernel)
    [.insert (3 : ℤ), .get (1 / 2), .insert 1, .insert 2] (by decide +kernel)
  rw [hdata] at hget
  obtain ⟨s', k, value, hget, hvalue, -, hk⟩ :=
    hget (3 / 4) (by norm_num) (by norm_num) (List.cons_ne_nil _ _)
  have hfloor : ⌊(3 / 4 : ℚ) * ([3, 1, 2] : List ℤ).length⌋ = 2 := by decide +kernel
  have hk : k < 2 := by
    rw [hfloor] at hk
    omega
  refine ⟨s, hrun, s', value, hget, ?_⟩
  have hsorted : ([3, 1, 2] : List ℤ).insertionSort (· ≤ ·) = [1, 2, 3] := rfl
  rw [hsorted] at hvalue
  interval_cases k <;> cases hvalue <;> decide

end Runs

end CKMSQuantiles

end Promcore
