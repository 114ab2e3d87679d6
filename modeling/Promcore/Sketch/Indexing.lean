import Promcore.Sketch.AccessSteps

/-!
# Every index is in range

The indices of both loops, the buffer's and the rank of the unsigned
difference, in every call on every reachable sketch.
-/

namespace Promcore.CKMSQuantiles

open Traced

/-- No index leaves its vector or the buffer, the coupled indices stay
neighbours, and neither unsigned difference wraps. -/
def Access.InRange {α : Type} : Access α → Prop
  | .write index => index < bufferSize
  | .take index => index < bufferSize
  | .head item idx => idx = item + 1
  | .read index size => index < size
  | .decrement idx => 0 < idx
  | .emplace index size _ => index ≤ size
  | .pair prev next => next = prev + 1
  -- the index of `next`, one after the one erased
  | .erase index size _ _ => index + 1 < size
  | .subtract size rank => rank ≤ size
  | .int _ => True

variable {α : Type} [LinearOrder α] {quantiles_ : List Quantile}

/-- An access that fits some sample is in range. -/
theorem SampleAccess.inRange {sample sample' : List (Item α)} {a : Access α}
    (h : SampleAccess quantiles_ sample (some a) sample') : a.InRange := by
  cases h with
  | look hfits =>
      cases a with
      | read index size => exact hfits.1 ▸ hfits.2
      | emplace index size value => exact hfits.elim
      | erase index size erased kept => exact hfits.elim
      | int x => trivial
      | _ => exact hfits
  | seed v => exact le_rfl
  | place pre post v hne hpre hpost =>
      change pre.length ≤ (pre ++ post).length
      simp
  | merge pre post x y hfits =>
      change pre.length + 1 < (pre ++ x :: y :: post).length
      simp

theorem Watched.apply_inRange {s : CKMSQuantiles α} {data : List α} (h : Represents s data)
    (hq : ∀ q ∈ s.quantiles_, q.Proper) {op : Op α} (hop : op.InUnit) {a : Access α}
    (ha : a ∈ (Watched.apply s op).trace) : a.InRange := by
  by_cases hreset : op = .reset
  · subst hreset
    simp [Watched.apply, pure] at ha
  · obtain ⟨s', hrun⟩ := apply_runs h hq hop hreset
    obtain ⟨sample, sample', _, _, _, hstep, _⟩ := hrun.steps.exists_of_mem ha
    exact hstep.inRange

/-- On every reachable sketch a further call ends, gives the state of the plain
sketch, and makes only accesses in range. -/
theorem indexing_in_range (quantiles_ : List Quantile)
    (hq : ∀ q ∈ quantiles_, 0 < q.quantile ∧ q.quantile < 1 ∧ 0 ≤ q.error) (ops : List (Op α))
    (op : Op α) (hop : op.InUnit) :
    ∃ s s', run (new quantiles_) ops = some s ∧ s.apply op = some s' ∧
      (Watched.apply s op).value = some s' ∧
      ∀ a ∈ (Watched.apply s op).trace, a.InRange := by
  obtain ⟨s, hrun, hrep, htargets⟩ := run_represents quantiles_ ops
  obtain ⟨s', happly, -⟩ := hrep.apply op
  have hproper : ∀ q ∈ s.quantiles_, q.Proper := fun q hmem => .of_bounds (hq q (htargets ▸ hmem))
  refine ⟨s, s', hrun, happly, ?_, fun a ha => Watched.apply_inRange hrep hproper hop ha⟩
  rw [Watched.value_apply]
  exact happly

theorem indexing_in_range_median : ∃ s s',
    run (new [⟨1 / 2, 1 / 20⟩]) [.insert (3 : ℚ)] = some s ∧ s.apply (.get (1 / 2)) = some s' ∧
      (Watched.apply s (.get (1 / 2))).value = some s' ∧
      ∀ a ∈ (Watched.apply s (.get (1 / 2))).trace, a.InRange :=
  indexing_in_range [⟨1 / 2, 1 / 20⟩] (by norm_num) [.insert (3 : ℚ)] (.get (1 / 2))
    (by norm_num [Op.InUnit])

end Promcore.CKMSQuantiles
