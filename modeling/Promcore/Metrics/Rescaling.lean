import Promcore.Library.Simulation
import Promcore.Metrics.Summary
import Promcore.Sketch.OrderOnly

/-!
# Observing in other units

A summary that observes the same values in other units reports the same
quantiles in these units.
-/

namespace Promcore

namespace TimeWindowQuantiles

variable {α α' β γ : Type} [Bucket β α] [Bucket γ α']

/-- Buckets that can be mapped before or after a call, along with the values. -/
structure BucketMap (F : β → γ) (f : α → α') : Prop where
  insert : ∀ b value, Bucket.insert (F b) (f value) = (Bucket.insert b value).map F
  get : ∀ b q, Bucket.get (F b) q = (Bucket.get b q).map fun r => (F r.1, r.2.map f)
  reset : ∀ b, Bucket.reset (F b) = F (Bucket.reset b)

omit [Bucket β α] [Bucket γ α'] in
/-- The window with its buckets mapped. -/
def map (F : β → γ) (w : TimeWindowQuantiles β) : TimeWindowQuantiles γ :=
  ⟨w.ckms_quantiles_.map F, w.current_bucket_, w.last_rotation_, w.rotation_interval_⟩

variable {F : β → γ} {f : α → α'}

omit [Bucket β α] [Bucket γ α'] in
theorem setCurrent_map (w : TimeWindowQuantiles β) (b : β) :
    (w.map F).setCurrent (F b) = (w.setCurrent b).map F := by
  simp [setCurrent, map, List.map_set]

theorem rotateStep_map (hF : BucketMap F f) (w : TimeWindowQuantiles β) :
    (w.map F).rotateStep = w.rotateStep.map (map F) := by
  rw [rotateStep, rotateStep]
  change (w.ckms_quantiles_.map F)[w.current_bucket_]?.bind _ = _
  rw [List.getElem?_map]
  cases w.ckms_quantiles_[w.current_bucket_]? with
  | none => rfl
  | some b =>
      simp only [Option.map_some, Option.bind_some, hF.reset, setCurrent_map]
      simp [advance, map, setCurrent]

theorem rotateLoop_map (hF : BucketMap F f) (tests : ℕ) (delta : ℤ) (w : TimeWindowQuantiles β) :
    rotateLoop tests delta (w.map F) = (rotateLoop tests delta w).map (map F) := by
  induction tests generalizing delta w with
  | zero => rfl
  | succ tests ih =>
      rw [rotateLoop, rotateLoop, rotateStep_map hF]
      change (if delta > w.rotation_interval_ then _ else _) = _
      split
      · cases w.rotateStep with
        | none => rfl
        | some w' => exact ih _ w'
      · rfl

theorem rotate_map (hF : BucketMap F f) (w : TimeWindowQuantiles β) (now : ℤ) :
    (w.map F).rotate now = (w.rotate now).map (map F) := rotateLoop_map hF _ _ w

theorem insert_map (hF : BucketMap F f) (w : TimeWindowQuantiles β) (now : ℤ) (value : α) :
    (w.map F).insert now (f value) = (w.insert now value).map (map F) := by
  rw [insert, insert, rotate_map hF]
  cases w.rotate now with
  | none => rfl
  | some w =>
      change ((w.ckms_quantiles_.map F).mapM (Bucket.insert · (f value))).bind _ =
        ((w.ckms_quantiles_.mapM (Bucket.insert · value)).bind _).map _
      rw [Simulation.mapM_map (fun b => hF.insert b value)]
      cases w.ckms_quantiles_.mapM (Bucket.insert · value) <;> rfl

theorem get_map (hF : BucketMap F f) (w : TimeWindowQuantiles β) (now : ℤ) (q : ℚ) :
    (w.map F).get now q = (w.get now q).map fun r => (r.1.map F, r.2.map f) := by
  rw [get, get, rotate_map hF]
  cases w.rotate now with
  | none => rfl
  | some w =>
      change (w.ckms_quantiles_.map F)[w.current_bucket_]?.bind _ =
        (w.ckms_quantiles_[w.current_bucket_]?.bind _).map _
      rw [List.getElem?_map]
      cases w.ckms_quantiles_[w.current_bucket_]? with
      | none => rfl
      | some b =>
          simp only [Option.map_some, Option.bind_some, hF.get]
          cases Bucket.get b q with
          | none => rfl
          | some r => simp [setCurrent_map]

/-- Sketches only compare values. -/
theorem bucketMap_sketch {α β : Type} [LinearOrder α] [LinearOrder β] {f : α → β}
    (hf : StrictMono f) : BucketMap (CKMSQuantiles.map f) f where
  insert := CKMSQuantiles.insert_map hf
  get := CKMSQuantiles.get_map hf
  reset _ := rfl

end TimeWindowQuantiles

/-- A reported value in other units. -/
def Double.map (f : ℚ → ℚ) : Double → Double
  | .finite x => .finite (f x)
  | x => x

theorem Double.ofOption_map (f : ℚ → ℚ) (x : Option ℚ) :
    Double.ofOption (x.map f) = (Double.ofOption x).map f := by
  cases x <;> rfl

namespace Summary

open Simulation TimeWindowQuantiles

/-- The same call, with the value in other units. -/
def Op.rescale (f : ℚ → ℚ) : Op → Op
  | .observe now value => .observe now (f value)
  | .collect clock => .collect clock

/-- What is reported after a history of calls. -/
def report (quantiles : List Quantile) (max_age age_buckets start : ℤ) (history : List Op)
    (clock : ℕ → ℤ) : Option ClientMetric := do
  let s ← new quantiles max_age age_buckets start
  let s ← s.run history
  let (_, metric) ← s.collect clock
  return metric

def rescaleEntry (f : ℚ → ℚ) (entry : ClientMetric.Quantile) : ClientMetric.Quantile :=
  { entry with value := entry.value.map f }

/-- The same summary in other units. -/
structure Rescaled (f : ℚ → ℚ) (s s' : Summary) : Prop where
  quantiles : s'.quantiles_ = s.quantiles_
  count : s'.count_ = s.count_
  sum : ∀ a b, (∀ x, f x = a * x + b) → s'.sum_ = a * s.sum_ + b * s.count_
  values : s'.quantile_values_ = s.quantile_values_.map (CKMSQuantiles.map f)

/-- The same report in other units. The sum follows when the new unit is a linear
function of the old one. -/
structure ReportsRescaled (f : ℚ → ℚ) (metric metric' : ClientMetric) : Prop where
  sample_count : metric'.summary.sample_count = metric.summary.sample_count
  sample_sum : ∀ a b, (∀ x, f x = a * x + b) → ∀ sum, metric.summary.sample_sum = .finite sum →
    metric'.summary.sample_sum = .finite (a * sum + b * metric.summary.sample_count)
  quantile : metric'.summary.quantile = metric.summary.quantile.map (rescaleEntry f)

variable {f : ℚ → ℚ} {s s' : Summary}

theorem collectQuantiles_map (hf : StrictMono f) (quantiles : List Quantile) (clock : ℕ → ℤ)
    (w : TimeWindowQuantiles (CKMSQuantiles ℚ)) :
    collectQuantiles quantiles clock (w.map (CKMSQuantiles.map f)) =
      (collectQuantiles quantiles clock w).map fun r =>
        (r.1.map (CKMSQuantiles.map f), r.2.map (rescaleEntry f)) := by
  induction quantiles generalizing clock w with
  | nil => rfl
  | cons quantile quantiles ih =>
      rw [collectQuantiles, collectQuantiles, get_map (bucketMap_sketch hf)]
      cases w.get (clock 0) quantile.quantile with
      | none => rfl
      | some read =>
          simp only [Option.map_some, Option.bind_eq_bind, Option.bind_some, ih]
          cases collectQuantiles quantiles (fun i => clock (i + 1)) read.1 with
          | none => rfl
          | some rest => simp [Double.ofOption_map, rescaleEntry]

theorem Rescaled.observe (hf : StrictMono f) (h : Rescaled f s s') (now : ℤ) (value : ℚ) :
    Option.Rel (Rescaled f) (s.observe now value) (s'.observe now (f value)) := by
  rw [Summary.observe, Summary.observe, h.values, insert_map (bucketMap_sketch hf)]
  cases s.quantile_values_.insert now value with
  | none => exact .none
  | some values =>
      refine .some ⟨h.quantiles, congrArg (· + 1) h.count, fun a b hlinear => ?_, rfl⟩
      change s'.sum_ + f value = a * (s.sum_ + value) + b * ((s.count_ + 1 : ℕ) : ℚ)
      rw [h.sum a b hlinear, hlinear value]
      push_cast
      ring

theorem Rescaled.collect (hf : StrictMono f) (h : Rescaled f s s') (clock : ℕ → ℤ) :
    Option.Rel (fun r r' => Rescaled f r.1 r'.1 ∧ ReportsRescaled f r.2 r'.2) (s.collect clock)
      (s'.collect clock) := by
  rw [Summary.collect, Summary.collect, h.values, h.quantiles, collectQuantiles_map hf]
  cases collectQuantiles s.quantiles_ clock s.quantile_values_ with
  | none => exact .none
  | some read =>
      refine .some ⟨⟨rfl, h.count, h.sum, rfl⟩, h.count, fun a b hlinear sum hsum => ?_, rfl⟩
      obtain rfl := Double.finite.inj hsum
      exact congrArg Double.finite (h.sum a b hlinear)

theorem Rescaled.apply (hf : StrictMono f) (h : Rescaled f s s') (op : Op) :
    Option.Rel (Rescaled f) (s.apply op) (s'.apply (op.rescale f)) := by
  cases op with
  | observe now value => exact h.observe hf now value
  | collect clock => exact rel_bind (h.collect hf clock) fun r r' hr => .some hr.1

theorem rescaled_new (quantiles : List Quantile) (max_age age_buckets start : ℤ) :
    Option.Rel (Rescaled f) (new quantiles max_age age_buckets start)
      (new quantiles max_age age_buckets start) := by
  rw [new, TimeWindowQuantiles.new]
  split
  · refine .some ⟨rfl, rfl, fun a b _ => by simp, ?_⟩
    simp [TimeWindowQuantiles.map, CKMSQuantiles.map, CKMSQuantiles.new]
  · exact .none

/-- Whatever is observed, and whenever it is scraped: in other units a summary
reports the same quantiles in these units, and ends or fails alike. -/
theorem report_rescaled (hf : StrictMono f) (quantiles : List Quantile)
    (max_age age_buckets start : ℤ) (history : List Op) (clock : ℕ → ℤ) :
    Option.Rel (ReportsRescaled f) (report quantiles max_age age_buckets start history clock)
      (report quantiles max_age age_buckets start (history.map (Op.rescale f)) clock) :=
  rel_bind (rescaled_new quantiles max_age age_buckets start) fun _ _ h =>
    rel_bind (rel_foldlM (fun _ _ op h => h.apply hf op) history h) fun _ _ h =>
      rel_bind (h.collect hf clock) fun _ _ hr => .some hr.2

/-- Seconds and milliseconds. -/
theorem report_rescaled_milliseconds :
    Option.Rel (ReportsRescaled fun x => 1000 * x)
      (report [⟨1 / 2, 1 / 20⟩] 60 5 0 [.observe 1 (3 / 2), .observe 2 2] fun _ => 3)
      (report [⟨1 / 2, 1 / 20⟩] 60 5 0 [.observe 1 1500, .observe 2 2000] fun _ => 3) := by
  have hunits : [.observe 1 1500, .observe 2 2000] =
      [.observe 1 (3 / 2), .observe 2 2].map (Op.rescale fun x => 1000 * x) := by
    norm_num [Op.rescale]
  rw [hunits]
  exact report_rescaled (fun _ _ h => mul_lt_mul_of_pos_left h (by norm_num)) _ _ _ _ _ _

end Summary

end Promcore
