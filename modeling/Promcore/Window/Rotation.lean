import Promcore.Sketch.CKMSQuantiles
import Promcore.Window.TimeWindowQuantiles

/-!
# When the loop of `rotate` ends

Each turn lowers `delta` by the rotation interval. An interval of at least one
tick brings `delta` down to the interval; an interval of zero or less never
does, and the constructor divides `max_age` by `age_buckets` without a look at
the quotient.
-/

namespace Promcore.TimeWindowQuantiles

variable {α β : Type} [Bucket β α] {w : TimeWindowQuantiles β}

omit [Bucket β α] in
/-- A ring of `size` buckets, its current bucket one of them, that turns every
`interval` ticks. -/
structure Turning (w : TimeWindowQuantiles β) (size : ℕ) (interval : ℤ) : Prop where
  length_eq : w.ckms_quantiles_.length = size
  current_lt : w.current_bucket_ < size
  interval_eq : w.rotation_interval_ = interval

omit [Bucket β α] in
theorem turning_new {bucket : β} {max_age age_buckets now : ℤ}
    (h : new bucket max_age age_buckets now = some w) :
    1 ≤ age_buckets ∧ Turning w age_buckets.toNat (max_age.tdiv age_buckets) := by
  rw [new] at h
  split at h
  · next hpos =>
      cases h
      exact ⟨hpos, by simp, by simp; omega, rfl⟩
  · cases h

section Interval

variable {max_age age_buckets : ℤ}

theorem one_le_tdiv_iff (hpos : 1 ≤ age_buckets) :
    1 ≤ max_age.tdiv age_buckets ↔ age_buckets ≤ max_age := by
  constructor
  · intro h
    by_contra! hlt
    rcases le_or_gt 0 max_age with hage | hage
    · rw [Int.tdiv_eq_zero_of_lt hage hlt] at h
      omega
    · have hneg : 0 ≤ (-max_age).tdiv age_buckets := Int.tdiv_nonneg (by omega) (by omega)
      rw [Int.neg_tdiv] at hneg
      omega
  · intro h
    exact Int.le_tdiv_of_mul_le (by omega) (by omega)

theorem tdiv_eq_zero_iff (hpos : 1 ≤ age_buckets) :
    max_age.tdiv age_buckets = 0 ↔ |max_age| < age_buckets := by
  rw [← Int.natAbs_eq_zero, Int.natAbs_tdiv]
  change max_age.natAbs / age_buckets.natAbs = 0 ↔ _
  rw [Nat.div_eq_zero_iff, Int.abs_eq_natAbs]
  omega

end Interval

section Steps

variable {size : ℕ} {interval : ℤ}

/-- One turn of the loop cannot fail on a ring, and leaves a ring. -/
theorem Turning.rotateStep (h : Turning w size interval) :
    ∃ w', w.rotateStep = some w' ∧ Turning w' size interval ∧
      w'.last_rotation_ = w.last_rotation_ + interval := by
  have hlt : w.current_bucket_ < w.ckms_quantiles_.length := by
    rw [h.length_eq]
    exact h.current_lt
  refine ⟨(w.setCurrent (Bucket.reset w.ckms_quantiles_[w.current_bucket_])).advance,
    by simp [TimeWindowQuantiles.rotateStep, List.getElem?_eq_getElem hlt], ?_, ?_⟩
  · have hlen := h.length_eq
    have hcurrent := h.current_lt
    refine ⟨by simpa [setCurrent, advance] using hlen, ?_, h.interval_eq⟩
    simp only [setCurrent, advance, List.length_set]
    split <;> omega
  · simp [setCurrent, advance, h.interval_eq]

theorem rotateStep_interval {w' : TimeWindowQuantiles β} (h : w.rotateStep = some w') :
    w'.rotation_interval_ = w.rotation_interval_ := by
  simp only [TimeWindowQuantiles.rotateStep, Option.bind_eq_bind, Option.bind_eq_some_iff] at h
  obtain ⟨bucket, -, hw'⟩ := h
  cases hw'
  rfl

end Steps

section Loop

variable {delta : ℤ}

theorem rotateLoop_of_le (h : delta ≤ w.rotation_interval_) (tests : ℕ) :
    rotateLoop (tests + 1) delta w = some w := by
  rw [rotateLoop, if_neg (by omega)]

theorem rotateLoop_of_lt (h : w.rotation_interval_ < delta) (tests : ℕ) :
    rotateLoop (tests + 1) delta w =
      w.rotateStep.bind (rotateLoop tests (delta - w.rotation_interval_)) := by
  rw [rotateLoop, if_pos h]
  rfl

/-- An interval of zero or less leaves `delta` above it, whatever the number
of turns. -/
theorem rotateLoop_eq_none (hinterval : w.rotation_interval_ ≤ 0)
    (hdelta : w.rotation_interval_ < delta) (tests : ℕ) : rotateLoop tests delta w = none := by
  induction tests generalizing delta w with
  | zero => rfl
  | succ tests ih =>
      rw [rotateLoop_of_lt hdelta, Option.bind_eq_none_iff]
      intro w' hstep
      have heq := rotateStep_interval hstep
      exact ih (by omega) (by omega)

theorem rotateLoop_mono {tests more : ℕ} {w' : TimeWindowQuantiles β}
    (hle : tests ≤ more) (h : rotateLoop tests delta w = some w') :
    rotateLoop more delta w = some w' := by
  induction tests generalizing more delta w with
  | zero => cases h
  | succ tests ih =>
      obtain ⟨more, rfl⟩ : ∃ k, more = k + 1 := ⟨more - 1, by omega⟩
      rcases le_or_gt delta w.rotation_interval_ with hdue | hdue
      · rw [rotateLoop_of_le hdue] at h ⊢
        exact h
      · rw [rotateLoop_of_lt hdue, Option.bind_eq_some_iff] at h ⊢
        obtain ⟨next, hstep, hloop⟩ := h
        exact ⟨next, hstep, ih (by omega) hloop⟩

/-- The loop ends within `delta + 1` tests or not at all. -/
theorem rotateLoop_enough {tests : ℕ} {w' : TimeWindowQuantiles β}
    (h : rotateLoop tests delta w = some w') :
    rotateLoop (delta.toNat + 1) delta w = some w' := by
  induction tests generalizing delta w with
  | zero => cases h
  | succ tests ih =>
      rcases le_or_gt delta w.rotation_interval_ with hdue | hdue
      · rw [rotateLoop_of_le hdue] at h ⊢
        exact h
      · have hpos : 0 < w.rotation_interval_ := by
          by_contra hle
          rw [rotateLoop_eq_none (by omega) hdue] at h
          cases h
        rw [rotateLoop_of_lt hdue, Option.bind_eq_some_iff] at h ⊢
        obtain ⟨next, hstep, hloop⟩ := h
        exact ⟨next, hstep, rotateLoop_mono (by omega) (ih hloop)⟩

theorem rotate_eq_some_iff {now : ℤ} {w' : TimeWindowQuantiles β} :
    w.rotate now = some w' ↔ ∃ tests, rotateLoop tests (now - w.last_rotation_) w = some w' :=
  ⟨fun h => ⟨_, h⟩, fun ⟨_, h⟩ => rotateLoop_enough h⟩

/-- With an interval of at least one tick `delta` is the measure. -/
theorem Turning.rotateLoop {size : ℕ} {interval now : ℤ} (h : Turning w size interval)
    (hinterval : 1 ≤ interval) (hnow : w.last_rotation_ ≤ now) (tests : ℕ)
    (htests : (now - w.last_rotation_).toNat < tests) :
    ∃ w', TimeWindowQuantiles.rotateLoop tests (now - w.last_rotation_) w = some w' ∧
      Turning w' size interval ∧
      w'.last_rotation_ ≤ now ∧ now - w'.last_rotation_ ≤ interval := by
  induction tests generalizing w with
  | zero => omega
  | succ tests ih =>
      have heq := h.interval_eq
      rcases le_or_gt (now - w.last_rotation_) interval with hdue | hdue
      · exact ⟨w, rotateLoop_of_le (by omega) tests, h, hnow, hdue⟩
      · obtain ⟨next, hstep, hnext, hlast⟩ := h.rotateStep
        obtain ⟨w', hloop, hw'⟩ := ih hnext (by omega) (by omega)
        refine ⟨w', ?_, hw'⟩
        rw [rotateLoop_of_lt (by omega), hstep, Option.bind_some, heq]
        rw [hlast] at hloop
        rwa [show now - w.last_rotation_ - interval = now - (w.last_rotation_ + interval) by ring]

/-- The loop ends on an interval of at least one tick, and on a shorter one
only where no turn is due. -/
theorem Turning.rotate_isSome_iff {size : ℕ} {interval now : ℤ} (h : Turning w size interval) :
    (∃ w', w.rotate now = some w') ↔ 1 ≤ interval ∨ now - w.last_rotation_ ≤ interval := by
  have heq := h.interval_eq
  rcases le_or_gt (now - w.last_rotation_) interval with hdue | hdue
  · exact iff_of_true ⟨w, rotateLoop_of_le (by omega) _⟩ (Or.inr hdue)
  · rw [or_iff_left (by omega)]
    constructor
    · rintro ⟨w', hrotate⟩
      by_contra! hshort
      rw [rotate, rotateLoop_eq_none (by omega) (by omega)] at hrotate
      cases hrotate
    · intro hpos
      have hnow : w.last_rotation_ ≤ now := by omega
      obtain ⟨w', hloop, -⟩ := h.rotateLoop hpos hnow _ (Nat.lt_succ_self _)
      exact ⟨w', hloop⟩

theorem rotateLoop_interval {tests : ℕ} {w' : TimeWindowQuantiles β}
    (h : rotateLoop tests delta w = some w') : w'.rotation_interval_ = w.rotation_interval_ := by
  induction tests generalizing delta w with
  | zero => cases h
  | succ tests ih =>
      rcases le_or_gt delta w.rotation_interval_ with hdue | hdue
      · rw [rotateLoop_of_le hdue] at h
        rw [Option.some.inj h]
      · rw [rotateLoop_of_lt hdue, Option.bind_eq_some_iff] at h
        obtain ⟨next, hstep, hloop⟩ := h
        exact (ih hloop).trans (rotateStep_interval hstep)

end Loop

/-- On a ring that the constructor sized and timed, the loop of `rotate` ends
in its place exactly for a `max_age` of at least one tick a bucket, or for a
quotient of zero when no time has passed. -/
theorem rotate_finishes_iff {bucket : β} {max_age age_buckets start now : ℤ}
    {made : TimeWindowQuantiles β} (hnew : new bucket max_age age_buckets start = some made)
    (hring : Turning w made.ckms_quantiles_.length made.rotation_interval_)
    (hnow : w.last_rotation_ ≤ now) :
    (∃ tests w', rotateLoop tests (now - w.last_rotation_) w = some w' ∧
      0 ≤ now - w'.last_rotation_ ∧ now - w'.last_rotation_ ≤ w'.rotation_interval_ ∧
      (w'.current_bucket_ : ℤ) < age_buckets) ↔
    age_buckets ≤ max_age ∨ (|max_age| < age_buckets ∧ now = w.last_rotation_) := by
  obtain ⟨hpos, hmade⟩ := turning_new hnew
  rw [hmade.length_eq, hmade.interval_eq] at hring
  have heq := hring.interval_eq
  rw [← one_le_tdiv_iff hpos, ← tdiv_eq_zero_iff hpos]
  constructor
  · rintro ⟨tests, w', hloop, hlow, hhigh, -⟩
    rcases le_or_gt (now - w.last_rotation_) w.rotation_interval_ with hdue | hdue
    · omega
    · by_contra! hbad
      rw [rotateLoop_eq_none (by omega) hdue] at hloop
      cases hloop
  · rintro (hinterval | ⟨hinterval, hsame⟩)
    · obtain ⟨w', hloop, hw', hlast, hdue⟩ := hring.rotateLoop hinterval hnow _ (Nat.lt_succ_self _)
      have hlt := hw'.current_lt
      exact ⟨_, w', hloop, by omega, by rw [hw'.interval_eq]; exact hdue, by omega⟩
    · have hlt := hring.current_lt
      exact ⟨1, w, rotateLoop_of_le (by omega) 0, by omega, by omega, by omega⟩

/-- Two buckets of five ticks each, the second one current since tick 4. -/
def secondBucketRing : TimeWindowQuantiles (CKMSQuantiles ℚ) :=
  ⟨List.replicate 2 (CKMSQuantiles.new [⟨1 / 2, 1 / 20⟩]), 1, 4, 5⟩

theorem rotate_finishes_iff_second_bucket :
    (∃ tests w', rotateLoop tests (23 - secondBucketRing.last_rotation_) secondBucketRing = some w' ∧
      0 ≤ 23 - w'.last_rotation_ ∧ 23 - w'.last_rotation_ ≤ w'.rotation_interval_ ∧
      (w'.current_bucket_ : ℤ) < 2) ↔
    (2 : ℤ) ≤ 10 ∨ (|(10 : ℤ)| < 2 ∧ 23 = secondBucketRing.last_rotation_) :=
  rotate_finishes_iff
    (rfl : new (CKMSQuantiles.new [⟨1 / 2, 1 / 20⟩]) 10 2 0 =
      some ⟨List.replicate 2 (CKMSQuantiles.new [⟨1 / 2, 1 / 20⟩]), 0, 0, 5⟩)
    ⟨rfl, by decide, rfl⟩ (by decide)

/-- A window of no age is built, and one tick later its loop has no end. -/
theorem rotate_never_ends :
    ∃ made : TimeWindowQuantiles (CKMSQuantiles ℚ),
      new (CKMSQuantiles.new [⟨1 / 2, 1 / 20⟩]) 0 1 0 = some made ∧
      made.last_rotation_ ≤ 1 ∧
      ∀ tests, rotateLoop tests (1 - made.last_rotation_) made = none :=
  ⟨_, rfl, by decide, rotateLoop_eq_none le_rfl (by decide)⟩

end Promcore.TimeWindowQuantiles
