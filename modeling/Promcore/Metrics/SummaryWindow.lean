import Promcore.Metrics.Summary
import Promcore.Window.Content

/-!
# What a summary reports of its window

Each read of a `Collect` takes its own clock reading and rotates the ring. While
the clock does not go back, every read is answered from the values observed in
the window at its reading, and count and sum are those of all observations.
-/

namespace Promcore

namespace TimeWindowQuantiles

variable {start interval last t : ℤ} {size : ℕ} {seen : List (ℤ × ℚ)}
  {w : TimeWindowQuantiles (CKMSQuantiles ℚ)}

/-- The ring as the observations so far have left it, the last clock reading
having been `last`. -/
def Filled (start interval : ℤ) (size : ℕ) (last : ℤ) (seen : List (ℤ × ℚ))
    (w : TimeWindowQuantiles (CKMSQuantiles ℚ)) : Prop :=
  ∃ v, Related (fun (b : CKMSQuantiles ℚ) (r : Recorder ℚ) => b.Represents r.values) w v ∧
    Recorded v size start interval (rho start interval last).toNat
      (seen.map fun e => ((rho start interval e.1).toNat, e.2))

/-- The values in the window at a clock reading. -/
def inWindow (start interval : ℤ) (size : ℕ) (t : ℤ) (seen : List (ℤ × ℚ)) : List ℚ :=
  (seen.filter fun e => rho start interval t - rho start interval e.1 < size).map Prod.snd

theorem due_of_le (hI : 1 ≤ interval) (h : last ≤ t) :
    ((rho start interval last).toNat : ℤ) ≤ rho start interval t := by
  rw [Int.toNat_of_nonneg (rho_nonneg start interval last)]
  exact rho_mono start hI h

theorem inWindow_eq (start interval : ℤ) (size : ℕ) (t : ℤ) (seen : List (ℤ × ℚ)) :
    (((seen.map fun e => ((rho start interval e.1).toNat, e.2)).filter fun e =>
      (rho start interval t).toNat < e.1 + size).map Prod.snd) =
      inWindow start interval size t seen := by
  rw [inWindow, List.filter_map, List.map_map]
  congr 1
  refine List.filter_congr fun e _ => ?_
  have ht := rho_nonneg start interval t
  have hs := rho_nonneg start interval e.1
  simp only [Function.comp_apply, decide_eq_decide]
  omega

theorem Filled.insert (h : Filled start interval size last seen w) (hI : 1 ≤ interval)
    (hle : last ≤ t) (value : ℚ) :
    ∃ w', w.insert t value = some w' ∧
      Filled start interval size t (seen ++ [(t, value)]) w' := by
  obtain ⟨v, hrel, hrec⟩ := h
  obtain ⟨v', hv', hrec'⟩ := hrec.apply hI (.insert t value) (due_of_le hI hle)
  obtain ⟨w', hw', hrel'⟩ := hrel.insert bucketSimulation_represents hv'
  refine ⟨w', hw', v', hrel', ?_⟩
  rw [List.map_append]
  exact hrec'

/-- A read is answered by a sketch of the window. -/
theorem Filled.get (h : Filled start interval size last seen w) (hI : 1 ≤ interval)
    (hle : last ≤ t) (q : ℚ) :
    ∃ w' x, ∃ b b' : CKMSQuantiles ℚ, w.get t q = some (w', x) ∧
      Filled start interval size t seen w' ∧
      b.Represents (inWindow start interval size t seen) ∧ b.get q = some (b', x) := by
  obtain ⟨v, hrel, hrec⟩ := h
  obtain ⟨v₁, hrotate, hrec₁⟩ := hrec.rotate hI (due_of_le hI hle)
  obtain ⟨⟨values⟩, hcur, hvalues⟩ := hrec₁.current
  dsimp only at hvalues
  rw [inWindow_eq] at hvalues
  subst hvalues
  obtain ⟨w₁, _, b, w₂, x, hrotate₁, _, _, _, hb, hrep, hget, -⟩ :=
    hrel.answersFrom (q := q) hrotate hcur
  obtain ⟨v', hv', hrec'⟩ := hrec.apply hI (.get t q) (due_of_le hI hle)
  obtain ⟨w', hw', hrel'⟩ := hrel.apply bucketSimulation_represents (.get t q) hv'
  obtain rfl : w₂ = w' := by
    rw [TimeWindowQuantiles.apply, hget] at hw'
    exact Option.some.inj hw'
  obtain ⟨b', x', hread, -⟩ := hrep.get_mem q
  obtain rfl : x' = x := by
    simp only [TimeWindowQuantiles.get, hrotate₁, hb, Bucket.get, hread, Option.bind_eq_bind,
      Option.bind_some, Option.pure_def, Option.some.injEq, Prod.mk.injEq] at hget
    exact hget.2
  refine ⟨w₂, x', b, b', hget, ⟨v', hrel', ?_⟩, hrep, hread⟩
  simpa [stamped, observed, Call.now] using hrec'

end TimeWindowQuantiles

namespace Summary

open TimeWindowQuantiles

/-- The clock readings a call takes. -/
def Op.readings (quantiles : List Quantile) : Op → List ℤ
  | .observe now _ => [now]
  | .collect clock => (List.range quantiles.length).map clock

/-- The values observed, each with the clock reading of its call. -/
def observations (history : List Op) : List (ℤ × ℚ) :=
  history.filterMap fun
    | .observe now value => some (now, value)
    | .collect _ => none

/-- The entry for a target is what a sketch of exactly these values answers. -/
structure ReadFrom (values : List ℚ) (quantile : Quantile) (entry : ClientMetric.Quantile) :
    Prop where
  asked : entry.quantile = .finite quantile.quantile
  value : ∃ (b b' : CKMSQuantiles ℚ) (x : Option ℚ), b.Represents values ∧
    b.get quantile.quantile = some (b', x) ∧ entry.value = Double.ofOption x

/-- A summary after these observations. -/
structure Observed (quantiles : List Quantile) (start interval : ℤ) (size : ℕ) (last : ℤ)
    (seen : List (ℤ × ℚ)) (s : Summary) : Prop where
  quantiles : s.quantiles_ = quantiles
  count : s.count_ = seen.length
  sum : s.sum_ = (seen.map Prod.snd).sum
  filled : Filled start interval size last seen s.quantile_values_

variable {quantiles : List Quantile} {start interval last : ℤ} {size : ℕ} {seen : List (ℤ × ℚ)}
  {s : Summary}

theorem readings_cons (quantile : Quantile) (quantiles : List Quantile) (clock : ℕ → ℤ) :
    (List.range (quantile :: quantiles).length).map clock =
      clock 0 :: (List.range quantiles.length).map fun i => clock (i + 1) := by
  rw [List.length_cons, List.range_succ_eq_map, List.map_cons, List.map_map]
  rfl

/-- Every read of the loop is answered from the window at its own reading. -/
theorem collectQuantiles_window (hI : 1 ≤ interval) (quantiles : List Quantile) (clock : ℕ → ℤ)
    (rest : List ℤ) {w : TimeWindowQuantiles (CKMSQuantiles ℚ)}
    (h : Filled start interval size last seen w)
    (hclock : (last :: ((List.range quantiles.length).map clock ++ rest)).Pairwise (· ≤ ·)) :
    ∃ w' entries last', collectQuantiles quantiles clock w = some (w', entries) ∧
      Filled start interval size last' seen w' ∧ (last' :: rest).Pairwise (· ≤ ·) ∧
      entries.length = quantiles.length ∧
      ∀ i quantile, quantiles[i]? = some quantile → ∃ entry, entries[i]? = some entry ∧
        ReadFrom (inWindow start interval size (clock i) seen) quantile entry := by
  induction quantiles generalizing clock w last with
  | nil => exact ⟨w, [], last, rfl, h, hclock, rfl, by simp⟩
  | cons quantile quantiles ih =>
      rw [readings_cons, List.cons_append] at hclock
      obtain ⟨hfirst, hrest⟩ := List.pairwise_cons.mp hclock
      obtain ⟨w₁, x, b, b', hget, h₁, hrep, hsketch⟩ :=
        h.get hI (hfirst _ List.mem_cons_self) quantile.quantile
      obtain ⟨w', entries, last', hentries, hfilled, hlast, hlength, hread⟩ :=
        ih (fun i => clock (i + 1)) h₁ hrest
      refine ⟨w', ⟨.finite quantile.quantile, Double.ofOption x⟩ :: entries, last',
        by simp [collectQuantiles, hget, hentries], hfilled, hlast, by simp [hlength], ?_⟩
      intro i q hq
      cases i with
      | zero =>
          obtain rfl : quantile = q := by simpa using hq
          exact ⟨_, rfl, rfl, b, b', x, hrep, hsketch, rfl⟩
      | succ i => exact hread i q (by simpa using hq)

theorem Observed.observe (h : Observed quantiles start interval size last seen s)
    (hI : 1 ≤ interval) {now : ℤ} (hle : last ≤ now) (value : ℚ) :
    ∃ s', s.observe now value = some s' ∧
      Observed quantiles start interval size now (seen ++ [(now, value)]) s' := by
  obtain ⟨values, hinsert, hfilled⟩ := h.filled.insert hI hle value
  refine ⟨{ s with count_ := s.count_ + 1, sum_ := s.sum_ + value, quantile_values_ := values },
    by simp [Summary.observe, hinsert], h.quantiles, ?_, ?_, hfilled⟩
  · simp [h.count]
  · simp [h.sum]

theorem Observed.collect (h : Observed quantiles start interval size last seen s)
    (hI : 1 ≤ interval) (clock : ℕ → ℤ) (rest : List ℤ)
    (hclock : (last :: ((List.range quantiles.length).map clock ++ rest)).Pairwise (· ≤ ·)) :
    ∃ s' metric last', s.collect clock = some (s', metric) ∧
      Observed quantiles start interval size last' seen s' ∧ (last' :: rest).Pairwise (· ≤ ·) ∧
      metric.summary.sample_count = seen.length ∧
      metric.summary.sample_sum = .finite (seen.map Prod.snd).sum ∧
      metric.summary.quantile.length = quantiles.length ∧
      ∀ i quantile, quantiles[i]? = some quantile → ∃ entry,
        metric.summary.quantile[i]? = some entry ∧
          ReadFrom (inWindow start interval size (clock i) seen) quantile entry := by
  obtain ⟨w', entries, last', hentries, hfilled, hlast, hlength, hread⟩ :=
    collectQuantiles_window hI quantiles clock rest h.filled hclock
  refine ⟨{ s with quantile_values_ := w' },
    { summary := ⟨s.count_, .finite s.sum_, entries⟩ }, last',
    by simp [Summary.collect, h.quantiles, hentries], ⟨h.quantiles, h.count, h.sum, hfilled⟩, hlast,
    h.count, congrArg Double.finite h.sum, hlength, hread⟩

/-- Every history whose clock readings never go back runs to its end. -/
theorem Observed.run (h : Observed quantiles start interval size last seen s) (hI : 1 ≤ interval)
    (history : List Op) (rest : List ℤ)
    (hclock : (last :: (history.flatMap (Op.readings quantiles) ++ rest)).Pairwise (· ≤ ·)) :
    ∃ s' last', s.run history = some s' ∧
      Observed quantiles start interval size last' (seen ++ observations history) s' ∧
      (last' :: rest).Pairwise (· ≤ ·) := by
  induction history generalizing s last seen with
  | nil => exact ⟨s, last, rfl, by simpa [observations] using h, by simpa using hclock⟩
  | cons op history ih =>
      rw [List.flatMap_cons, List.append_assoc] at hclock
      have hstep : ∃ s₁ last₁, s.apply op = some s₁ ∧
          Observed quantiles start interval size last₁ (seen ++ observations [op]) s₁ ∧
          (last₁ :: (history.flatMap (Op.readings quantiles) ++ rest)).Pairwise (· ≤ ·) := by
        cases op with
        | observe now value =>
            obtain ⟨hfirst, hrest⟩ := List.pairwise_cons.mp hclock
            obtain ⟨s₁, hobserve, h₁⟩ := h.observe hI (hfirst now List.mem_cons_self) value
            exact ⟨s₁, now, hobserve, h₁, hrest⟩
        | collect clock =>
            obtain ⟨s₁, metric, last₁, hcollect, h₁, hrest, -⟩ := h.collect hI clock _ hclock
            exact ⟨s₁, last₁, by simp [Summary.apply, hcollect], by simpa [observations] using h₁,
              hrest⟩
      obtain ⟨s₁, last₁, happly, h₁, hrest⟩ := hstep
      obtain ⟨s', last', hrun, h', hlast⟩ := ih h₁ hrest
      refine ⟨s', last', by simpa [Summary.run, happly] using hrun, ?_, hlast⟩
      rwa [List.append_assoc, observations, observations, ← List.filterMap_append] at h'

end Summary

end Promcore
