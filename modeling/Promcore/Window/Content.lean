import Promcore.Library.RotatingLog
import Promcore.Sketch.Accuracy
import Promcore.Window.Related

/-!
# What the answering bucket has received

The ring of recorders satisfies the ring-of-logs invariant, with the number of
rotations read off the clock. The ring of sketches is simulated by the ring of
recorders, so a read is answered by a sketch of exactly the values of the
window.
-/

namespace Promcore.TimeWindowQuantiles

open CKMSQuantiles RotatingLog

/-- The number of rotations due at a clock reading. -/
def rho (start interval x : ℤ) : ℤ := max 0 (⌈((x - start : ℤ) : ℚ) / interval⌉ - 1)

section Rho

theorem rho_nonneg (start interval x : ℤ) : 0 ≤ rho start interval x := le_max_left _ _

variable (start : ℤ) {interval : ℤ}

theorem rho_le_iff (hI : 1 ≤ interval) {r x : ℤ} (hr : 0 ≤ r) :
    rho start interval x ≤ r ↔ x - start ≤ (r + 1) * interval := by
  have hpos : (0 : ℚ) < interval := by exact_mod_cast hI
  rw [rho, max_le_iff, and_iff_right hr, sub_le_iff_le_add, Int.ceil_le, div_le_iff₀ hpos]
  norm_cast

theorem rho_start (hI : 1 ≤ interval) : rho start interval start = 0 :=
  le_antisymm ((rho_le_iff start hI le_rfl).mpr (by simpa using (by omega : 0 ≤ interval)))
    (rho_nonneg start interval start)

theorem rho_mono (hI : 1 ≤ interval) {x y : ℤ} (h : x ≤ y) :
    rho start interval x ≤ rho start interval y := by
  have hy := rho_nonneg start interval y
  rw [rho_le_iff start hI hy]
  have := (rho_le_iff start hI hy).mp le_rfl
  omega

/-- A value of age at most `n` intervals is at most `n` rotations old. -/
theorem rho_sub_le (hI : 1 ≤ interval) {s t n : ℤ} (hn : 0 ≤ n) (hage : t - s ≤ n * interval) :
    rho start interval t - rho start interval s ≤ n := by
  have hnonneg := rho_nonneg start interval s
  have hs := (rho_le_iff start hI hnonneg).mp le_rfl
  have ht : rho start interval t ≤ rho start interval s + n := by
    rw [rho_le_iff start hI (by omega)]
    nlinarith
  omega

/-- A value older than `n` intervals is at least `n` rotations old. -/
theorem le_rho_sub (hI : 1 ≤ interval) {s t n : ℤ} (hs : start ≤ s) (hn : 1 ≤ n)
    (hage : n * interval < t - s) : n ≤ rho start interval t - rho start interval s := by
  by_contra hlt
  have hnonneg := rho_nonneg start interval s
  have hr : 0 ≤ rho start interval s + n - 1 := by omega
  have ht := (rho_le_iff start hI hr).mp (by omega : rho start interval t ≤ _)
  rcases hnonneg.eq_or_lt with hzero | hpos
  · rw [← hzero] at ht
    nlinarith
  · -- the previous rotation was already due at the time of the value
    have hprev : ¬ rho start interval s ≤ rho start interval s - 1 := by omega
    rw [rho_le_iff start hI (by omega)] at hprev
    nlinarith

end Rho

section Recorders

variable {α : Type} {w : TimeWindowQuantiles (Recorder α)} {size : ℕ} {start interval : ℤ}
  {rotations : ℕ} {entries : List (ℕ × α)}

/-- A ring of recorders after `rotations` rotations since the start. -/
structure Recorded (w : TimeWindowQuantiles (Recorder α)) (size : ℕ) (start interval : ℤ)
    (rotations : ℕ) (entries : List (ℕ × α)) : Prop where
  ring : Holds (w.ckms_quantiles_.map Recorder.values) size rotations w.current_bucket_ entries
  interval_eq : w.rotation_interval_ = interval
  last_eq : w.last_rotation_ = start + rotations * interval

theorem Recorded.new (start max_age : ℤ) {age_buckets : ℤ} (hsize : 1 ≤ age_buckets) :
    ∃ w, TimeWindowQuantiles.new (⟨[]⟩ : Recorder α) max_age age_buckets start = some w ∧
      Recorded w age_buckets.toNat start (max_age.tdiv age_buckets) 0 [] := by
  refine ⟨_, by rw [TimeWindowQuantiles.new, if_pos hsize], ⟨?_, rfl, by simp⟩⟩
  simpa using Holds.new (α := α) (by omega : 0 < age_buckets.toNat)

theorem Recorded.current (h : Recorded w size start interval rotations entries) :
    ∃ r, w.ckms_quantiles_[w.current_bucket_]? = some r ∧
      r.values = (entries.filter fun e => rotations < e.1 + size).map Prod.snd := by
  have hslot := h.ring.current_slot
  rw [List.getElem?_map, Option.map_eq_some_iff] at hslot
  exact hslot

theorem Recorded.rotateStep (h : Recorded w size start interval rotations entries) :
    ∃ w', w.rotateStep = some w' ∧
      Recorded w' size start interval (rotations + 1) entries := by
  obtain ⟨r, hr, -⟩ := h.current
  refine ⟨(w.setCurrent (Bucket.reset r)).advance, by simp [TimeWindowQuantiles.rotateStep, hr],
    ?_, h.interval_eq, ?_⟩
  · have hring := h.ring.rotate
    simp only [List.length_map] at hring
    simpa [advance, setCurrent, List.map_set, Bucket.reset] using hring
  · simp only [advance, setCurrent, h.last_eq, h.interval_eq]
    push_cast
    ring

/-- The loop ends, and has then made exactly the rotations due. -/
theorem Recorded.rotateLoop (hI : 1 ≤ interval) (tests : ℕ) (now : ℤ)
    (h : Recorded w size start interval rotations entries)
    (htests : (now - w.last_rotation_).toNat < tests)
    (hdue : (rotations : ℤ) ≤ rho start interval now) :
    ∃ w', TimeWindowQuantiles.rotateLoop tests (now - w.last_rotation_) w = some w' ∧
      Recorded w' size start interval (rho start interval now).toNat entries := by
  induction tests generalizing w rotations with
  | zero => omega
  | succ tests ih =>
      have hle : rho start interval now ≤ rotations ↔ now - start ≤ (rotations + 1) * interval :=
        rho_le_iff start hI (Int.natCast_nonneg rotations)
      rw [TimeWindowQuantiles.rotateLoop, h.interval_eq]
      split
      · rename_i hlate
        rw [h.last_eq] at hlate htests
        obtain ⟨w₁, hstep, h₁⟩ := h.rotateStep
        have hmore : ((rotations + 1 : ℕ) : ℤ) ≤ rho start interval now := by
          by_contra hlt
          have := hle.mp (by push_cast at hlt; omega)
          nlinarith
        have hlast : now - w.last_rotation_ - interval = now - w₁.last_rotation_ := by
          rw [h.last_eq, h₁.last_eq]
          push_cast
          ring
        have hless : (now - w₁.last_rotation_).toNat < tests := by
          rw [h₁.last_eq]
          push_cast
          have : now - (start + (rotations + 1) * interval) =
              now - (start + rotations * interval) - interval := by ring
          omega
        rw [hstep, hlast]
        exact ih h₁ hless hmore
      · rename_i hintime
        rw [h.last_eq] at hintime
        have hdone : rho start interval now ≤ rotations := hle.mpr (by nlinarith)
        refine ⟨w, rfl, ?_⟩
        rwa [le_antisymm hdone hdue, Int.toNat_natCast]

theorem Recorded.rotate (hI : 1 ≤ interval) {now : ℤ}
    (h : Recorded w size start interval rotations entries)
    (hdue : (rotations : ℤ) ≤ rho start interval now) :
    ∃ w', w.rotate now = some w' ∧
      Recorded w' size start interval (rho start interval now).toNat entries :=
  h.rotateLoop hI _ now (Nat.lt_succ_self _) hdue

theorem mapM_insert (rs : List (Recorder α)) (value : α) :
    rs.mapM (Bucket.insert · value) = some (rs.map fun r => ⟨r.values ++ [value]⟩) := by
  induction rs with
  | nil => rfl
  | cons r rs ih =>
      rw [List.mapM_cons, ih]
      rfl

/-- The stamps a call adds to the log of writes. -/
def stamped (start interval : ℤ) (calls : List (Call α)) : List (ℕ × α) :=
  (observed calls).map fun e => ((rho start interval e.1).toNat, e.2)

theorem Recorded.apply (hI : 1 ≤ interval) (call : Call α)
    (h : Recorded w size start interval rotations entries)
    (hdue : (rotations : ℤ) ≤ rho start interval call.now) :
    ∃ w', w.apply call = some w' ∧
      Recorded w' size start interval (rho start interval call.now).toNat
        (entries ++ stamped start interval [call]) := by
  obtain ⟨w₁, hrotate, h₁⟩ := h.rotate hI hdue
  cases call with
  | insert now value =>
      refine ⟨{ w₁ with ckms_quantiles_ := w₁.ckms_quantiles_.map fun r => ⟨r.values ++ [value]⟩ },
        by simp [TimeWindowQuantiles.apply, TimeWindowQuantiles.insert, Call.now] at hrotate ⊢
           simp [hrotate, mapM_insert], ?_, h₁.interval_eq, h₁.last_eq⟩
      simpa [stamped, observed, Call.now, Function.comp_def] using h₁.ring.write value
  | get now q =>
      obtain ⟨r, hr, -⟩ := h₁.current
      refine ⟨w₁.setCurrent r, ?_, ?_, h₁.interval_eq, h₁.last_eq⟩
      · simp only [Call.now] at hrotate
        simp [TimeWindowQuantiles.apply, TimeWindowQuantiles.get, hrotate, hr, Bucket.get]
      · have hsame : w₁.ckms_quantiles_.set w₁.current_bucket_ r = w₁.ckms_quantiles_ := by
          obtain ⟨hlt, rfl⟩ := List.getElem?_eq_some_iff.mp hr
          exact List.set_getElem_self hlt
        simpa [stamped, observed, setCurrent, hsame] using h₁.ring

theorem stamped_cons (call : Call α) (calls : List (Call α)) :
    stamped start interval (call :: calls) =
      stamped start interval [call] ++ stamped start interval calls := by
  cases call <;> simp [stamped, observed]

/-- With clock readings that never go back, the ring has made the rotations
due at the last reading. -/
theorem Recorded.run (hI : 1 ≤ interval) (calls : List (Call α)) (last : ℤ)
    (hclock : (last :: calls.map Call.now).Pairwise (· ≤ ·))
    (h : Recorded w size start interval (rho start interval last).toNat entries) :
    ∃ w' last', w.run calls = some w' ∧ last' ∈ last :: calls.map Call.now ∧
      Recorded w' size start interval (rho start interval last').toNat
        (entries ++ stamped start interval calls) := by
  induction calls generalizing w last entries with
  | nil => exact ⟨w, last, rfl, by simp, by simpa [stamped, observed] using h⟩
  | cons call calls ih =>
      have hnow : last ≤ call.now := (List.pairwise_cons.mp hclock).1 _ (by simp)
      obtain ⟨w₁, happly, h₁⟩ := h.apply hI call (by
        rw [Int.toNat_of_nonneg (rho_nonneg start interval last)]
        exact rho_mono start hI hnow)
      obtain ⟨w', last', hrun, hmem, hrec⟩ := ih call.now (List.pairwise_cons.mp hclock).2 h₁
      refine ⟨w', last', ?_, List.mem_cons_of_mem _ hmem, ?_⟩
      · simpa [TimeWindowQuantiles.run, happly] using hrun
      · rw [stamped_cons, ← List.append_assoc]
        exact hrec

end Recorders

section Answer

variable {α : Type} [LinearOrder α]

/-- A sketch that represents what a recorder has received can do what the
recorder does. -/
theorem bucketSimulation_represents :
    BucketSimulation fun (b : CKMSQuantiles α) (r : Recorder α) => Represents b r.values where
  insert b r v r' h hr := by
    obtain rfl := Option.some.inj hr
    obtain ⟨b', hb', hrep, -⟩ := h.insert v
    exact ⟨b', hb', hrep⟩
  get b r q r' y h hr := by
    obtain ⟨rfl, -⟩ := Prod.mk.injEq .. ▸ Option.some.inj hr
    obtain ⟨b', -, hget, hrep, -⟩ := h.get q
    exact ⟨b', _, hget, hrep⟩
  reset b r _ := Represents.reset b

/-- The values of the window at `t`: those inserted at most `age_buckets - 1`
rotations before. -/
def windowValues (start interval age_buckets t : ℤ) (calls : List (Call α)) : List α :=
  ((observed calls).filter fun e =>
    rho start interval t - rho start interval e.1 ≤ age_buckets - 1).map Prod.snd

omit [LinearOrder α] in
/-- Stamped with rotation counts, the window is the part of the log that the
current bucket still holds. -/
theorem windowValues_eq {start interval age_buckets t : ℤ} (hsize : 1 ≤ age_buckets)
    (calls : List (Call α)) :
    (((stamped start interval calls).filter fun e =>
      (rho start interval t).toNat < e.1 + age_buckets.toNat).map Prod.snd) =
      windowValues start interval age_buckets t calls := by
  rw [windowValues, stamped, List.filter_map, List.map_map]
  congr 1
  refine List.filter_congr fun e _ => ?_
  have ht := rho_nonneg start interval t
  have hs := rho_nonneg start interval e.1
  simp only [Function.comp_apply, decide_eq_decide]
  omega

/-- A read at `t` finds a sketch of `values` in the place of the ring where the
recorder has received `values`, in order, since its last reset; the answer is
NaN exactly when there are none, and otherwise one of them. -/
def AnswersFrom (w : TimeWindowQuantiles (CKMSQuantiles α)) (v : TimeWindowQuantiles (Recorder α))
    (t : ℤ) (q : ℚ) (values : List α) : Prop :=
  ∃ w₁ v₁ b w₂ x, w.rotate t = some w₁ ∧ v.rotate t = some v₁ ∧
    w₁.current_bucket_ = v₁.current_bucket_ ∧
    v₁.ckms_quantiles_[v₁.current_bucket_]? = some ⟨values⟩ ∧
    w₁.ckms_quantiles_[w₁.current_bucket_]? = some b ∧ Represents b values ∧
    w.get t q = some (w₂, x) ∧ (x = none ↔ values = []) ∧ ∀ y, x = some y → y ∈ values

theorem Related.answersFrom {w : TimeWindowQuantiles (CKMSQuantiles α)}
    {v v₁ : TimeWindowQuantiles (Recorder α)} {t : ℤ} {q : ℚ} {values : List α}
    (h : Related (fun (b : CKMSQuantiles α) (r : Recorder α) => Represents b r.values) w v)
    (hrotate : v.rotate t = some v₁)
    (hcur : v₁.ckms_quantiles_[v₁.current_bucket_]? = some ⟨values⟩) :
    AnswersFrom w v t q values := by
  obtain ⟨w₁, hrotate₁, h₁⟩ := h.rotate bucketSimulation_represents hrotate
  obtain ⟨b, hb, hrep⟩ := forall₂_getElem? h₁.buckets hcur
  rw [← h₁.current] at hb
  obtain ⟨b', x, hget, hx⟩ := hrep.get_mem q
  refine ⟨w₁, v₁, b, w₁.setCurrent b', x, hrotate₁, hrotate, h₁.current, hcur, hb, hrep, ?_, hx⟩
  simp [TimeWindowQuantiles.get, hrotate₁, hb, Bucket.get, hget]

/-- For clock readings that never go back, a read at `t` is answered by a
bucket that has received exactly the values of the window: it holds every
value of age at most `age_buckets - 1` intervals and none older than
`age_buckets` intervals, so none older than `max_age`. -/
theorem window_content (quantiles_ : List Quantile) (max_age age_buckets start : ℤ)
    (hsize : 1 ≤ age_buckets) (interval : ℤ) (hinterval : interval = max_age.tdiv age_buckets)
    (hI : 1 ≤ interval) (calls : List (Call α)) (t : ℤ) (q : ℚ)
    (hclock : (start :: (calls.map Call.now ++ [t])).Pairwise (· ≤ ·)) :
    (∃ w v, (new (CKMSQuantiles.new quantiles_) max_age age_buckets start).bind (·.run calls) =
        some w ∧
      (new (⟨[]⟩ : Recorder α) max_age age_buckets start).bind (·.run calls) = some v ∧
      AnswersFrom w v t q (windowValues start interval age_buckets t calls)) ∧
    (∀ e ∈ observed calls, t - e.1 ≤ (age_buckets - 1) * interval →
      rho start interval t - rho start interval e.1 ≤ age_buckets - 1) ∧
    (∀ e ∈ observed calls, age_buckets * interval < t - e.1 →
      ¬ rho start interval t - rho start interval e.1 ≤ age_buckets - 1) ∧
    age_buckets * interval ≤ max_age := by
  subst hinterval
  have hstart : ∀ e ∈ observed calls, start ≤ e.1 := by
    intro e he
    obtain ⟨call, hcall, hobs⟩ := List.mem_filterMap.mp he
    have hnow : start ≤ call.now := (List.pairwise_cons.mp hclock).1 _
      (List.mem_append_left _ (List.mem_map_of_mem hcall))
    cases call with
    | insert now value =>
        obtain rfl := Option.some.inj hobs
        exact hnow
    | get now q => simp at hobs
  refine ⟨?_, fun e _ hage => rho_sub_le start hI (by omega) hage, fun e he hage => ?_, ?_⟩
  · -- the ring of recorders runs, and the ring of sketches follows it
    rw [← List.cons_append, List.pairwise_append] at hclock
    obtain ⟨hcalls, -, hlast⟩ := hclock
    obtain ⟨v₀, hnew, h₀⟩ := Recorded.new (α := α) start max_age hsize
    obtain ⟨w₀, hnew', hrel₀⟩ := Related.new
      (R := fun (b : CKMSQuantiles α) (r : Recorder α) => Represents b r.values)
      (Represents.new quantiles_) max_age start hnew
    rw [show (0 : ℕ) = (rho start (max_age.tdiv age_buckets) start).toNat by
      rw [rho_start start hI, Int.toNat_zero]] at h₀
    obtain ⟨v, last, hrun, hmem, hrec⟩ := h₀.run hI calls start hcalls
    obtain ⟨w, hrun', hrel⟩ := hrel₀.run bucketSimulation_represents calls hrun
    have hdue : ((rho start (max_age.tdiv age_buckets) last).toNat : ℤ) ≤
        rho start (max_age.tdiv age_buckets) t := by
      rw [Int.toNat_of_nonneg (rho_nonneg start _ last)]
      exact rho_mono start hI (hlast last hmem t (by simp))
    obtain ⟨v₁, hrotate, hrec₁⟩ := hrec.rotate hI hdue
    obtain ⟨r, hcur, hvalues⟩ := hrec₁.current
    rw [List.nil_append] at hvalues
    refine ⟨w, v, by simp [hnew', hrun'], by simp [hnew, hrun], hrel.answersFrom hrotate ?_⟩
    rw [hcur, ← windowValues_eq hsize calls, ← hvalues]
  · have := le_rho_sub start hI (hstart e he) hsize hage
    omega
  · have hpos : 0 ≤ max_age := by
      by_contra hneg
      have hopp : 0 ≤ (-max_age).tdiv age_buckets := Int.tdiv_nonneg (by omega) (by omega)
      rw [Int.neg_tdiv] at hopp
      omega
    exact Int.mul_tdiv_self_le hpos

/-- Two buckets, rotated every two ticks: at nine, the value of tick one has
left the window and the value of tick seven has not. -/
theorem window_content_two_buckets :
    (∃ w v, (new (CKMSQuantiles.new [⟨1 / 2, 1 / 20⟩]) 4 2 0).bind
        (·.run [.insert 1 (3 : ℚ), .get 2 (1 / 2), .insert 7 8]) = some w ∧
      (new (⟨[]⟩ : Recorder ℚ) 4 2 0).bind
        (·.run [.insert 1 (3 : ℚ), .get 2 (1 / 2), .insert 7 8]) = some v ∧
      AnswersFrom w v 9 (1 / 2) [8]) := by
  have hwindow : windowValues 0 2 2 9 [.insert 1 (3 : ℚ), .get 2 (1 / 2), .insert 7 8] = [8] := by
    decide +kernel
  have hcontent := window_content [⟨1 / 2, 1 / 20⟩] 4 2 0 (by decide) 2 (by decide) (by decide)
    [.insert 1 (3 : ℚ), .get 2 (1 / 2), .insert 7 8] 9 (1 / 2) (by simp [Call.now])
  rw [hwindow] at hcontent
  exact hcontent.1

end Answer

end Promcore.TimeWindowQuantiles
