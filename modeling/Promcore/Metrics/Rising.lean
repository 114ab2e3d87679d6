import Promcore.Metrics.Scrapes
import Promcore.Metrics.Totals
import Promcore.Metrics.Truncation

/-!
# Metrics that are not reset

Between resets a counter of doubles never falls, whatever is added: negative
amounts are ignored, and NaN stays for good. So neither do the counts of a
histogram, nor does the count of a summary.
-/

namespace Promcore

namespace Double

/-- The value has not fallen, or has become NaN. -/
def NotFallen (earlier later : Double) : Prop := later = .nan ∨ earlier.le later = true

variable {x y z : Double}

theorem NotFallen.refl (x : Double) : NotFallen x x := by
  by_cases hx : x = .nan
  · exact Or.inl hx
  · refine Or.inr ?_
    rw [le, decide_eq_true rfl, decide_eq_true hx, Bool.and_true, Bool.or_true]

theorem NotFallen.trans (h : NotFallen x y) (h' : NotFallen y z) : NotFallen x z := by
  rcases x with _ | (_ | _) | x <;> rcases y with _ | (_ | _) | y <;>
    rcases z with _ | (_ | _) | z <;> simp_all [NotFallen, le, lt]
  grind

/-- A later value does not compare as smaller. -/
theorem NotFallen.not_lt (h : NotFallen x y) : y.lt x = false := by
  rcases x with _ | (_ | _) | x <;> rcases y with _ | (_ | _) | y <;> simp_all [NotFallen, le, lt]
  grind

theorem NotFallen.le_finite {x y : ℚ} (h : NotFallen (.finite x) (.finite y)) : x ≤ y := by
  rcases h with h | h
  · cases h
  · exact of_decide_eq_true ((Double.le_finite x y).symm.trans h)

/-- An amount that is not negative, NaN included, lets no value fall. -/
theorem notFallen_add (hy : y.lt (.finite 0) = false) : NotFallen x (x + y) := by
  change NotFallen x (x.add y)
  rcases x with _ | (_ | _) | x <;> rcases y with _ | (_ | _) | y <;>
    simp_all [NotFallen, le, lt, add]
  grind

end Double

open Double

namespace CounterType

/-- A call that is no reset lets a counter not fall. -/
theorem notFallen_apply {call : Call Double} (hcall : call ≠ .reset) (c : CounterType Double) :
    NotFallen c.value (c.apply call).value := by
  cases call with
  | increment => exact notFallen_add (by decide +kernel)
  | incrementBy val =>
      rw [apply, Histogram.incrementBy_eq]
      refine notFallen_add ?_
      rw [Histogram.counted]
      split
      · decide +kernel
      · next hval => exact Bool.not_eq_true _ ▸ hval
  | reset => exact absurd rfl hcall

end CounterType

namespace Histogram

/-- The bounds stay, and no counter falls. -/
structure Rises (h h' : Histogram) : Prop where
  bounds : h'.bucket_boundaries_ = h.bucket_boundaries_
  counts : List.Forall₂ (fun c c' : CounterType Double => NotFallen c.value c'.value)
    h.bucket_counts_ h'.bucket_counts_

variable {h h' h'' : Histogram}

theorem Rises.refl (h : Histogram) : h.Rises h :=
  ⟨rfl, List.forall₂_same.mpr fun _ _ => .refl _⟩

theorem Rises.trans (h₁ : h.Rises h') (h₂ : h'.Rises h'') : h.Rises h'' :=
  ⟨h₂.bounds.trans h₁.bounds,
    Simulation.forall₂_trans (R := fun c c' : CounterType Double => NotFallen c.value c'.value)
      NotFallen.trans h₁.counts h₂.counts⟩

theorem rises_plus {amounts : Amounts} (hamounts : ∀ i, (amounts.1 i).lt (.finite 0) = false)
    (h : Histogram) : h.Rises (h.plus amounts) where
  bounds := rfl
  counts := by
    rw [List.forall₂_iff_get]
    refine ⟨by simp [plus], fun i hi hi' => ?_⟩
    simp only [plus, List.get_eq_getElem, List.getElem_mapIdx]
    exact notFallen_add (hamounts i)

theorem counted_not_negative (val : Double) : (counted val).lt (.finite 0) = false := by
  rw [counted]
  split
  · decide +kernel
  · next hval => exact Bool.not_eq_true _ ▸ hval

/-- No call takes anything from a counter but a reset. -/
theorem amounts_not_negative (bounds : List Double) (op : Op) (i : ℕ) :
    ((op.amounts bounds).1 i).lt (.finite 0) = false := by
  have hzero : (0 : Double).lt (.finite 0) = false := by decide +kernel
  cases op with
  | observe value =>
      by_cases hi : i = lowerBound bounds value
      · subst hi
        simp only [Op.amounts, Pi.single_eq_same]
        decide +kernel
      · simp only [Op.amounts, Pi.single_eq_of_ne hi]
        exact hzero
  | observeMultiple bucket_increments sum_of_values =>
      rw [Op.amounts]
      split
      · exact counted_not_negative _
      · exact hzero
  | reset => exact hzero

theorem rises_apply {op : Op} (hop : op ≠ .reset) (h : Histogram) : h.Rises (h.apply op) := by
  rw [apply_eq_plus hop]
  exact rises_plus (amounts_not_negative _ op) h

theorem addTruncated_le {cumulative_count cumulative_count' total total' : ℕ} {x y : Double}
    (hcount : cumulative_count ≤ cumulative_count') (hxy : NotFallen x y)
    (htotal : addTruncated cumulative_count x = some total)
    (htotal' : addTruncated cumulative_count' y = some total') : total ≤ total' := by
  cases x with
  | finite x =>
      cases y with
      | finite y =>
          have hle : (cumulative_count : ℚ) + x ≤ cumulative_count' + y :=
            add_le_add (by exact_mod_cast hcount) hxy.le_finite
          rw [addTruncated, Option.ite_none_right_eq_some] at htotal htotal'
          rw [← Option.some.inj htotal.2, ← Option.some.inj htotal'.2]
          exact Int.toNat_le_toNat (Int.floor_mono hle)
      | _ => cases htotal'
  | _ => cases htotal

/-- The loop of `Collect` on counters that have not fallen. -/
theorem collectBuckets_rises {bounds : List Double} {counters counters' : List (CounterType Double)}
    (h : List.Forall₂ (fun c c' : CounterType Double => NotFallen c.value c'.value)
      counters counters')
    {i cumulative_count cumulative_count' total total' : ℕ}
    {bucket bucket' : List ClientMetric.Bucket} (hcount : cumulative_count ≤ cumulative_count')
    (hcollect : collectBuckets bounds i cumulative_count counters = some (total, bucket))
    (hcollect' : collectBuckets bounds i cumulative_count' counters' = some (total', bucket')) :
    total ≤ total' ∧
      List.Forall₂ (fun b b' => b.cumulative_count ≤ b'.cumulative_count) bucket bucket' := by
  induction h generalizing i cumulative_count cumulative_count' total total' bucket bucket' with
  | nil =>
      cases hcollect
      cases hcollect'
      exact ⟨hcount, List.Forall₂.nil⟩
  | @cons c c' counters counters' hc _ ih =>
      simp only [collectBuckets, Option.bind_eq_bind, Option.bind_eq_some_iff, Option.pure_def,
        Option.some.injEq, Prod.mk.injEq] at hcollect hcollect'
      obtain ⟨count, hcounted, ⟨_, rest⟩, hrest, rfl, rfl⟩ := hcollect
      obtain ⟨count', hcounted', ⟨_, rest'⟩, hrest', rfl, rfl⟩ := hcollect'
      have hle := addTruncated_le hcount hc hcounted hcounted'
      obtain ⟨htotal, hbuckets⟩ := ih hle hrest hrest'
      exact ⟨htotal, List.Forall₂.cons hle hbuckets⟩

theorem Rises.notFalling (h₁ : h.Rises h') {collected collected' : ClientMetric}
    (hcollect : h.collect = some collected) (hcollect' : h'.collect = some collected') :
    NotFalling collected collected' := by
  simp only [collect, Option.bind_eq_bind, Option.bind_eq_some_iff, Option.pure_def,
    Option.some.injEq] at hcollect hcollect'
  obtain ⟨⟨total, bucket⟩, hbuckets, rfl⟩ := hcollect
  obtain ⟨⟨total', bucket'⟩, hbuckets', rfl⟩ := hcollect'
  rw [h₁.bounds] at hbuckets'
  obtain ⟨htotal, hle⟩ := collectBuckets_rises h₁.counts le_rfl hbuckets hbuckets'
  exact ⟨hle, htotal⟩

end Histogram

namespace Summary

theorem observe_count {s s' : Summary} {now : ℤ} {value : ℚ}
    (hobserve : s.observe now value = some s') : s.count_ ≤ s'.count_ := by
  obtain ⟨values, -, hs'⟩ := Option.bind_eq_some_iff.mp hobserve
  obtain rfl := Option.some.inj hs'
  exact Nat.le_succ _

theorem collect_count {s s' : Summary} {clock : ℕ → ℤ} {collected : ClientMetric}
    (hcollect : s.collect clock = some (s', collected)) :
    s'.count_ = s.count_ ∧ collected.summary.sample_count = s.count_ := by
  obtain ⟨values, -, hs'⟩ := Option.bind_eq_some_iff.mp hcollect
  cases hs'
  exact ⟨rfl, rfl⟩

end Summary

end Promcore
