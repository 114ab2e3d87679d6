import Promcore.Sketch.FlushedRuns

/-!
# How small the sample can stay

The error allowed at a rank is a share of the number of items, not of the number
of values, so a sample of few items has no room for heavy ones. Whatever is
inserted and read, the values that a sample of at most `K` items accounts for
number little more than `K` squared times the share.
-/

namespace Promcore

/-- The greater of a target's two slopes. -/
def Quantile.slope (q : Quantile) : ℚ := max q.u q.v

theorem Quantile.Proper.errorAt_le {q : Quantile} (h : q.Proper) {size : ℕ} {rank : ℤ}
    (hrank : 0 ≤ rank) (hle : rank ≤ size) : q.errorAt size rank ≤ q.slope * size := by
  have hrank : (0 : ℚ) ≤ rank := by exact_mod_cast hrank
  have hle : (rank : ℚ) ≤ size := by exact_mod_cast hle
  rw [h.errorAt_eq]
  split
  · calc
      q.u * (size - rank) ≤ q.u * size := mul_le_mul_of_nonneg_left (by linarith) h.u_nonneg
      _ ≤ q.slope * size := mul_le_mul_of_nonneg_right (le_max_left _ _) (by linarith)
  · calc
      q.v * rank ≤ q.v * size := mul_le_mul_of_nonneg_left hle h.v_nonneg
      _ ≤ q.slope * size := mul_le_mul_of_nonneg_right (le_max_right _ _) (by linarith)

namespace CKMSQuantiles

open RankSummary

variable {α : Type} {limit : ℚ} {K : ℕ} {quantiles_ : List Quantile} {target : Quantile}

/-- No item is heavier than the limit, and no delta is negative. -/
structure Light (limit : ℚ) (sample : List (Item α)) : Prop where
  weight : ∀ x ∈ sample, (x.g : ℚ) ≤ limit
  delta : DeltasNonneg sample

theorem Light.nil : Light limit ([] : List (Item α)) := ⟨by simp, by simp [DeltasNonneg]⟩

theorem Light.mass_le {sample : List (Item α)} (h : Light limit sample) :
    (mass Item.g sample : ℚ) ≤ sample.length * limit := by
  induction sample with
  | nil => simp
  | cons x xs ih =>
      have hx := h.weight x List.mem_cons_self
      have hxs := ih ⟨fun y hy => h.weight y (List.mem_cons_of_mem _ hy),
        fun y hy => h.delta y (List.mem_cons_of_mem _ hy)⟩
      rw [mass_cons, List.length_cons]
      push_cast
      linarith

variable [LinearOrder α] {sample sample' : List (Item α)}

/-- A merge in a sample of at most `n` items makes no item heavier than the
error allowed there. -/
theorem SampleStep.light (hq : ∀ q ∈ quantiles_, q.Proper) (htarget : target ∈ quantiles_)
    {label : Option α} (step : SampleStep quantiles_ sample label sample') (h : Light limit sample)
    (hone : 1 ≤ limit) (hlimit : target.slope * sample.length ≤ limit) : Light limit sample' := by
  refine ⟨?_, step.deltasNonneg hq h.delta⟩
  intro x hx
  cases step with
  | seed v =>
      rw [List.mem_singleton.mp hx]
      exact_mod_cast hone
  | place pre post v hne hpre hpost =>
      obtain hx | hx := List.mem_append.mp hx
      · exact h.weight x (List.mem_append_left _ hx)
      · obtain rfl | hx := List.mem_cons.mp hx
        · exact_mod_cast hone
        · exact h.weight x (List.mem_append_right _ hx)
  | merge pre post a b hfits =>
      obtain hx | hx := List.mem_append.mp hx
      · exact h.weight x (List.mem_append_left _ hx)
      · obtain rfl | hx := List.mem_cons.mp hx
        · have hdelta : (0 : ℚ) ≤ b.delta := by exact_mod_cast h.delta b (by simp)
          have herror : target.errorAt (pre ++ a :: b :: post).length ((pre.length + 1 : ℕ) : ℤ) ≤
              target.slope * (pre ++ a :: b :: post).length := by
            refine (hq target htarget).errorAt_le (Int.natCast_nonneg _) ?_
            simp only [List.length_append, List.length_cons]
            omega
          have hallowed := allowableError_le htarget (pre ++ a :: b :: post).length
            ((pre.length + 1 : ℕ) : ℤ)
          push_cast at hfits ⊢
          push_cast at hallowed herror
          linarith
        · exact h.weight x (by simp [hx])

theorem SampleStep.length_le {label : Option α}
    (step : SampleStep quantiles_ sample label sample') :
    sample'.length ≤ sample.length + label.toList.length := by
  cases step with
  | seed v => exact le_rfl
  | place pre post v hne hpre hpost => simp [Nat.add_assoc]
  | merge pre post a b hfits => simp

/-- A flush of a sample of at most `K` items. -/
theorem SampleSteps.light (hq : ∀ q ∈ quantiles_, q.Proper) (htarget : target ∈ quantiles_)
    {vs : List α} (steps : SampleSteps quantiles_ sample vs sample') (hsize : sample.length ≤ K)
    (hvs : vs.length ≤ bufferSize)
    (h : Light (max 1 (target.slope * (K + bufferSize))) sample) :
    Light (max 1 (target.slope * (K + bufferSize))) sample' := by
  have hslope : 0 ≤ target.slope := (hq target htarget).u_nonneg.trans (le_max_left _ _)
  have hstep : ∀ t label t' (seen : List α), SampleStep quantiles_ t label t' →
      (seen.length ≤ bufferSize → t.length ≤ K + seen.length ∧
        Light (max 1 (target.slope * (K + bufferSize))) t) →
      (label.toList ++ seen).length ≤ bufferSize → t'.length ≤ K + (label.toList ++ seen).length ∧
        Light (max 1 (target.slope * (K + bufferSize))) t' := by
    intro t label t' seen hstep ih hseen
    rw [List.length_append] at hseen ⊢
    obtain ⟨hlength, hlight⟩ := ih (by omega)
    have hlength' := hstep.length_le
    refine ⟨by omega, hstep.light hq htarget hlight (le_max_left _ _) ?_⟩
    have hcast : (t.length : ℚ) ≤ K + bufferSize := by
      exact_mod_cast hlength.trans (by omega : K + seen.length ≤ K + bufferSize)
    exact (mul_le_mul_of_nonneg_left hcast hslope).trans (le_max_right _ _)
  have hrun := steps.invariant (P := fun t seen => seen.length ≤ bufferSize →
      t.length ≤ K + seen.length ∧ Light (max 1 (target.slope * (K + bufferSize))) t)
    (fun t v t' seen => hstep t (some v) t' seen) (fun t t' seen => hstep t none t' seen) []
    (fun _ => ⟨hsize, h⟩)
  exact (hrun (by simpa using hvs)).2

/-- The sketch flushed has at most `K` items, and no more in its buffer than it
has room for. -/
def Small (K : ℕ) (s : CKMSQuantiles α) : Prop :=
  s.sample_.length ≤ K ∧ s.buffer_count_ ≤ bufferSize

theorem light_kept (hq : ∀ q ∈ quantiles_, q.Proper) (htarget : target ∈ quantiles_) :
    KeptByFlush quantiles_ (Small K) fun (sample : List (Item α)) (_ : List α) =>
      Light (max 1 (target.slope * (K + bufferSize))) sample := by
  rintro s s' data rfl hsum ⟨hsize, hbuffer⟩ hlight hflush
  obtain ⟨sample', hflush', hsteps, -⟩ := flush_summarizes hsum
  obtain rfl := Option.some.inj (hflush'.symm.trans hflush)
  exact hsteps.light hq htarget hsize (by simpa [buffer_count_] using hbuffer) hlight

/-- What holds of every state since the last reset, every flush since then
meets. -/
theorem sinceReset_of_states {cond : CKMSQuantiles α → Prop} {ops : List (Op α)}
    {s : CKMSQuantiles α} (hrun : run (new quantiles_) ops = some s)
    (hstates : ∀ earlier op later s₀, ops = earlier ++ op :: later → .reset ∉ op :: later →
      run (new quantiles_) earlier = some s₀ → OnFlush cond s₀ op) :
    SinceReset quantiles_ cond ops s := by
  induction ops using List.reverseRecOn generalizing s with
  | nil =>
      obtain rfl := Option.some.inj hrun
      exact .new
  | append_singleton ops op ih =>
      rw [run_snoc, Option.bind_eq_some_iff] at hrun
      obtain ⟨s₀, hrun, happly⟩ := hrun
      by_cases hreset : op = .reset
      · subst hreset
        obtain rfl := Option.some.inj happly
        exact .reset hrun
      · refine (ih hrun fun earlier op' later s₁ hops hnot => ?_).step
          (hstates ops op [] s₀ rfl (by simpa using Ne.symm hreset) hrun) happly
        refine hstates earlier op' (later ++ [op]) s₁ (by rw [hops]; simp) ?_
        simp only [List.mem_cons, List.mem_append, not_or] at hnot ⊢
        exact ⟨hnot.1, hnot.2, Ne.symm hreset, List.not_mem_nil⟩

/-- A sketch whose sample has had at most `K` items at the end of every call
since the last reset was given no more than `K` times the error allowed among
`K + 500` items, and what its buffer holds. So with enough values, in whatever
order and whatever is read in between, the sample outgrows any size. -/
theorem sample_must_grow (quantiles_ : List Quantile)
    (hq : ∀ q ∈ quantiles_, 0 < q.quantile ∧ q.quantile < 1 ∧ 0 ≤ q.error) (ops : List (Op α))
    {target : Quantile} (htarget : target ∈ quantiles_) (K : ℕ)
    (hmany : K * max 1 (target.slope * (K + 500)) + 499 < (inserted ops).length) :
    ∃ earlier later s, ops = earlier ++ later ∧ .reset ∉ later ∧
      run (new quantiles_) earlier = some s ∧ K < s.sample_.length := by
  have hproper : ∀ q ∈ quantiles_, q.Proper := fun q hmem => .of_bounds (hq q hmem)
  by_contra hsmall
  have hsize : ∀ earlier later s, ops = earlier ++ later → .reset ∉ later →
      run (new quantiles_) earlier = some s → s.sample_.length ≤ K :=
    fun earlier later s hops hnot hrun => not_lt.mp fun hlt =>
      hsmall ⟨earlier, later, s, hops, hnot, hrun, hlt⟩
  obtain ⟨s, hrun, hrep, -⟩ := run_represents quantiles_ ops
  have hsince : SinceReset quantiles_ (Small K) ops s := by
    refine sinceReset_of_states hrun fun earlier op later s₀ hops hnot hrun₀ => ?_
    have hsize₀ := hsize _ _ _ hops hnot hrun₀
    have hbuffer := (represents_of_run hrun₀).1.buffer_lt
    cases op with
    | insert value => exact fun hfull => ⟨hsize₀, by simpa [buffer_count_] using hfull.le⟩
    | get q => exact ⟨hsize₀, hbuffer.le⟩
    | reset => trivial
  have hlight : Light (max 1 (target.slope * (K + 500))) s.sample_ :=
    hsince.kept .nil (light_kept hproper htarget)
  have hmass : mass Item.g s.sample_ = s.count_ := by
    rw [hrep.sample.total, List.length_take, Nat.min_eq_left (by have := hrep.count_add; omega)]
  have hcount : (s.count_ : ℚ) ≤ K * max 1 (target.slope * (K + 500)) := by
    have hlength : (s.sample_.length : ℚ) ≤ K := by
      exact_mod_cast hsize ops [] s (List.append_nil ops).symm List.not_mem_nil hrun
    calc
      (s.count_ : ℚ) = mass Item.g s.sample_ := by rw [hmass, Int.cast_natCast]
      _ ≤ s.sample_.length * max 1 (target.slope * (K + 500)) := hlight.mass_le
      _ ≤ K * max 1 (target.slope * (K + 500)) :=
        mul_le_mul_of_nonneg_right hlength (zero_le_one.trans (le_max_left _ _))
  have hbuffer : (s.buffer_count_ : ℚ) ≤ 499 := by
    exact_mod_cast Nat.le_pred_of_lt hrep.buffer_lt
  have hadd : (s.count_ + s.buffer_count_ : ℚ) = (inserted ops).length := by
    exact_mod_cast hrep.count_add
  linarith

/-- Of six hundred equal values, with a tolerance of one in twenty for the median,
more than one item is kept at some time. -/
theorem sample_must_grow_six_hundred : ∃ earlier later s,
    List.replicate 600 (Op.insert (1 : ℤ)) = earlier ++ later ∧ .reset ∉ later ∧
      run (new [⟨1 / 2, 1 / 20⟩]) earlier = some s ∧ 1 < s.sample_.length := by
  have hinserted : (inserted (List.replicate 600 (Op.insert (1 : ℤ)))).length = 600 := by
    decide +kernel
  exact sample_must_grow [⟨1 / 2, 1 / 20⟩] (by norm_num) _ List.mem_cons_self 1
    (by rw [hinserted]; norm_num [Quantile.slope, Quantile.u, Quantile.v])

end CKMSQuantiles

end Promcore
