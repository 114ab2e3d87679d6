import Promcore.Metrics.Summary
import Promcore.Sketch.Reads
import Promcore.Window.Related

/-!
# What repeated scrapes of a summary report

Within one rotation interval a scrape reads the targeted quantiles from the
current bucket, one flush after the other. Count and sum never move; the
quantile values can, as long as a flush still merges items.
-/

namespace Promcore

namespace TimeWindowQuantiles

open Simulation

variable {w : TimeWindowQuantiles (CKMSQuantiles ℚ)} {quantiles_ : List Quantile}

/-- Every bucket of the ring is a sketch for the given targets that represents
what it received, and the current bucket is one of them. -/
structure Serves (w : TimeWindowQuantiles (CKMSQuantiles ℚ)) (quantiles_ : List Quantile) :
    Prop where
  current_lt : w.current_bucket_ < w.ckms_quantiles_.length
  buckets : ∀ b ∈ w.ckms_quantiles_, b.quantiles_ = quantiles_ ∧ ∃ data, b.Represents data

theorem Serves.setCurrent (h : Serves w quantiles_) {b : CKMSQuantiles ℚ}
    (hb : b.quantiles_ = quantiles_ ∧ ∃ data, b.Represents data) :
    Serves (w.setCurrent b) quantiles_ where
  current_lt := by simpa [TimeWindowQuantiles.setCurrent] using h.current_lt
  buckets b' hb' := by
    rcases List.mem_or_eq_of_mem_set hb' with hmem | rfl
    · exact h.buckets b' hmem
    · exact hb

theorem Serves.advance (h : Serves w quantiles_) : Serves w.advance quantiles_ where
  current_lt := by
    have := h.current_lt
    simp only [TimeWindowQuantiles.advance]
    split <;> omega
  buckets := h.buckets

theorem Serves.current (h : Serves w quantiles_) :
    ∃ b data, w.ckms_quantiles_[w.current_bucket_]? = some b ∧ b.quantiles_ = quantiles_ ∧
      b.Represents data := by
  obtain ⟨hq, data, hrep⟩ := h.buckets _ (List.getElem_mem h.current_lt)
  exact ⟨_, data, List.getElem?_eq_getElem h.current_lt, hq, hrep⟩

theorem Serves.rotateLoop (tests : ℕ) (delta : ℤ) (h : Serves w quantiles_)
    {w' : TimeWindowQuantiles (CKMSQuantiles ℚ)} (hloop : w.rotateLoop tests delta = some w') :
    Serves w' quantiles_ := by
  induction tests generalizing delta w with
  | zero => simp [TimeWindowQuantiles.rotateLoop] at hloop
  | succ tests ih =>
      rw [TimeWindowQuantiles.rotateLoop] at hloop
      split at hloop
      · obtain ⟨b, data, hb, hq, -⟩ := h.current
        have hreset : b.reset.quantiles_ = quantiles_ ∧ ∃ data, b.reset.Represents data :=
          ⟨hq, [], CKMSQuantiles.Represents.reset b⟩
        simp only [rotateStep, hb, Option.bind_eq_bind, Option.bind_some, Option.pure_def] at hloop
        exact ih _ (h.setCurrent hreset).advance hloop
      · obtain rfl := Option.some.inj hloop
        exact h

theorem Serves.rotate (h : Serves w quantiles_) {now : ℤ}
    {w' : TimeWindowQuantiles (CKMSQuantiles ℚ)} (hrotate : w.rotate now = some w') :
    Serves w' quantiles_ := h.rotateLoop _ _ hrotate

theorem Serves.get (h : Serves w quantiles_) {now : ℤ} {q : ℚ} {x : Option ℚ}
    {w' : TimeWindowQuantiles (CKMSQuantiles ℚ)} (hget : w.get now q = some (w', x)) :
    Serves w' quantiles_ := by
  simp only [TimeWindowQuantiles.get, Option.bind_eq_bind, Option.bind_eq_some_iff] at hget
  obtain ⟨w₁, hrotate, b, hb, ⟨b', y⟩, hb', hw'⟩ := hget
  have h₁ := h.rotate hrotate
  obtain ⟨hq, data, hrep⟩ := h₁.buckets b (List.mem_of_getElem? hb)
  obtain ⟨b₂, -, hread, hrep', hq'⟩ := hrep.get q
  obtain ⟨rfl, rfl⟩ : b₂ = b' ∧ b₂.read q = y := by
    simpa using hread.symm.trans hb'
  obtain ⟨rfl, -⟩ : w₁.setCurrent b₂ = w' ∧ b₂.read q = x := by simpa using hw'
  exact h₁.setCurrent ⟨hq'.trans hq, data, hrep'⟩

theorem Serves.insert (h : Serves w quantiles_) {now : ℤ} {value : ℚ}
    {w' : TimeWindowQuantiles (CKMSQuantiles ℚ)} (hinsert : w.insert now value = some w') :
    Serves w' quantiles_ := by
  simp only [TimeWindowQuantiles.insert, Option.bind_eq_bind, Option.bind_eq_some_iff] at hinsert
  obtain ⟨w₁, hrotate, bs, hbs, hw'⟩ := hinsert
  obtain rfl := Option.some.inj hw'
  have h₁ := h.rotate hrotate
  have hall := forall₂_of_mapM hbs
  constructor
  · rw [← hall.length_eq]
    exact h₁.current_lt
  · intro b' hb'
    obtain ⟨b, hb, hins⟩ := exists_of_mem_forall₂ hall hb'
    obtain ⟨hq, data, hrep⟩ := h₁.buckets b hb
    obtain ⟨b₂, hins₂, hrep', hq'⟩ := hrep.insert value
    obtain rfl : b₂ = b' := Option.some.inj (hins₂.symm.trans hins)
    exact ⟨hq'.trans hq, _, hrep'⟩

end TimeWindowQuantiles

namespace Summary

open Simulation TimeWindowQuantiles CKMSQuantiles

variable {s s' : Summary}

theorem collectQuantiles_serves {quantiles_ : List Quantile} (quantiles : List Quantile)
    (clock : ℕ → ℤ) {w w' : TimeWindowQuantiles (CKMSQuantiles ℚ)}
    {entries : List ClientMetric.Quantile} (h : Serves w quantiles_)
    (hrun : collectQuantiles quantiles clock w = some (w', entries)) : Serves w' quantiles_ := by
  induction quantiles generalizing clock w entries with
  | nil =>
      obtain ⟨rfl, -⟩ := Prod.mk.injEq .. ▸ Option.some.inj hrun
      exact h
  | cons quantile quantiles ih =>
      simp only [collectQuantiles, Option.bind_eq_bind, Option.bind_eq_some_iff, Option.pure_def,
        Option.some.injEq, Prod.mk.injEq] at hrun
      obtain ⟨⟨w₁, value⟩, hget, ⟨w₂, rest⟩, hrest, rfl, -⟩ := hrun
      exact ih _ (h.get hget) hrest

theorem new_serves {quantiles_ : List Quantile} {max_age age_buckets start : ℤ}
    (hnew : new quantiles_ max_age age_buckets start = some s) :
    s.quantiles_ = quantiles_ ∧ Serves s.quantile_values_ quantiles_ := by
  simp only [new, TimeWindowQuantiles.new, Option.bind_eq_bind, Option.bind_eq_some_iff] at hnew
  obtain ⟨values, hvalues, hs⟩ := hnew
  obtain rfl := Option.some.inj hs
  split at hvalues
  · rename_i hsize
    obtain rfl := Option.some.inj hvalues
    refine ⟨rfl, by simp; omega, fun b hb => ?_⟩
    obtain rfl := List.eq_of_mem_replicate hb
    exact ⟨rfl, [], CKMSQuantiles.Represents.new quantiles_⟩
  · cases hvalues

/-- One call keeps the targets, and the ring serving them. -/
theorem apply_serves (h : Serves s.quantile_values_ s.quantiles_) {op : Op}
    (happly : s.apply op = some s') :
    s'.quantiles_ = s.quantiles_ ∧ Serves s'.quantile_values_ s.quantiles_ := by
  cases op with
  | observe now value =>
      simp only [apply, observe, Option.bind_eq_bind, Option.bind_eq_some_iff] at happly
      obtain ⟨values, hinsert, hs'⟩ := happly
      obtain rfl := Option.some.inj hs'
      exact ⟨rfl, h.insert hinsert⟩
  | collect clock =>
      simp only [apply, collect, Option.bind_eq_bind, Option.bind_eq_some_iff, Option.pure_def,
        Option.some.injEq] at happly
      obtain ⟨⟨s₁, metric⟩, ⟨⟨values, entries⟩, hvalues, hs₁⟩, rfl⟩ := happly
      obtain ⟨rfl, -⟩ := Prod.mk.injEq .. ▸ hs₁
      exact ⟨rfl, collectQuantiles_serves _ _ h hvalues⟩

/-- Every history of `Observe` and `Collect` calls keeps the ring serving the
targets. -/
theorem run_serves {quantiles_ : List Quantile} {max_age age_buckets start : ℤ} {history : List Op}
    (hrun : (new quantiles_ max_age age_buckets start).bind (·.run history) = some s) :
    s.quantiles_ = quantiles_ ∧ Serves s.quantile_values_ quantiles_ := by
  obtain ⟨s₀, hnew, hrun⟩ := Option.bind_eq_some_iff.mp hrun
  refine foldlM_invariant (P := fun s => s.quantiles_ = quantiles_ ∧
    Serves s.quantile_values_ quantiles_) (fun s op s' h happly => ?_) history
    (new_serves hnew) hrun
  obtain ⟨rfl, hserves⟩ := h
  exact apply_serves hserves happly

/-- The entries of a metric, from the targets and the values read for them. -/
def entriesOf (quantiles : List Quantile) (values : List (Option ℚ)) :
    List ClientMetric.Quantile :=
  List.zipWith (fun quantile value => ⟨.finite quantile.quantile, Double.ofOption value⟩)
    quantiles values

theorem rotate_of_not_due {w : TimeWindowQuantiles (CKMSQuantiles ℚ)} {now : ℤ}
    (h : now - w.last_rotation_ ≤ w.rotation_interval_) : w.rotate now = some w := by
  rw [TimeWindowQuantiles.rotate, TimeWindowQuantiles.rotateLoop, if_neg (not_lt.mpr h)]

/-- Without a rotation the loop of `Collect` reads from the current bucket. -/
theorem collectQuantiles_eq_reads (quantiles : List Quantile) (clock : ℕ → ℤ)
    {w : TimeWindowQuantiles (CKMSQuantiles ℚ)} {b : CKMSQuantiles ℚ}
    (hb : w.ckms_quantiles_[w.current_bucket_]? = some b)
    (hclock : ∀ i < quantiles.length, clock i - w.last_rotation_ ≤ w.rotation_interval_) :
    collectQuantiles quantiles clock w =
      (reads (quantiles.map Quantile.quantile) b).map fun r =>
        (w.setCurrent r.1, entriesOf quantiles r.2) := by
  induction quantiles generalizing clock w b with
  | nil =>
      have hsame : w.setCurrent b = w := by
        obtain ⟨hlt, rfl⟩ := List.getElem?_eq_some_iff.mp hb
        rw [TimeWindowQuantiles.setCurrent, List.set_getElem_self hlt]
      simp [collectQuantiles, reads, entriesOf, hsame]
  | cons quantile quantiles ih =>
      have hrotate := rotate_of_not_due (hclock 0 (by simp))
      simp only [collectQuantiles, TimeWindowQuantiles.get, hrotate, hb, Bucket.get, reads,
        List.map_cons, Option.bind_eq_bind, Option.bind_some]
      cases hread : b.get quantile.quantile with
      | none => rfl
      | some r =>
          obtain ⟨b', value⟩ := r
          have hlt : w.current_bucket_ < w.ckms_quantiles_.length :=
            (List.getElem?_eq_some_iff.mp hb).1
          have hb' : (w.setCurrent b').ckms_quantiles_[(w.setCurrent b').current_bucket_]? =
              some b' := by
            simp [TimeWindowQuantiles.setCurrent, hlt]
          simp only [Option.bind_some, Option.pure_def]
          rw [ih (fun i => clock (i + 1)) hb' fun i hi => hclock (i + 1) (by simpa using hi)]
          cases hrest : reads (quantiles.map Quantile.quantile) b' with
          | none => rfl
          | some r =>
              obtain ⟨b'', values⟩ := r
              simp [TimeWindowQuantiles.setCurrent, entriesOf]

/-- The metric collected from the values read. -/
def metricOf (s : Summary) (values : List (Option ℚ)) : ClientMetric :=
  { summary := ⟨s.count_, .finite s.sum_, entriesOf s.quantiles_ values⟩ }

/-- Without rotations, scrapes in a row are rounds of reads of the current
bucket. -/
theorem scrapes_eq_rereads (clocks : List (ℕ → ℤ)) {b : CKMSQuantiles ℚ}
    (hb : s.quantile_values_.ckms_quantiles_[s.quantile_values_.current_bucket_]? = some b)
    (hclocks : ∀ clock ∈ clocks, s.NoRotation clock) :
    ∃ leave : CKMSQuantiles ℚ → Summary, s.scrapes clocks =
      (rereads (s.quantiles_.map Quantile.quantile) clocks.length b).map fun r =>
        (leave r.1, r.2.map s.metricOf) := by
  refine ⟨fun b => { s with quantile_values_ := s.quantile_values_.setCurrent b }, ?_⟩
  induction clocks generalizing s b with
  | nil =>
      have hsame : s.quantile_values_.setCurrent b = s.quantile_values_ := by
        obtain ⟨hlt, rfl⟩ := List.getElem?_eq_some_iff.mp hb
        rw [TimeWindowQuantiles.setCurrent, List.set_getElem_self hlt]
      simp [scrapes, rereads, hsame]
  | cons clock clocks ih =>
      rw [scrapes, collect, collectQuantiles_eq_reads s.quantiles_ clock hb
        (hclocks clock List.mem_cons_self)]
      simp only [List.length_cons, rereads, Option.bind_eq_bind]
      cases hread : reads (s.quantiles_.map Quantile.quantile) b with
      | none => rfl
      | some r =>
          obtain ⟨b', values⟩ := r
          have hlt : s.quantile_values_.current_bucket_ < s.quantile_values_.ckms_quantiles_.length :=
            (List.getElem?_eq_some_iff.mp hb).1
          have hnext := ih (s := { s with quantile_values_ := s.quantile_values_.setCurrent b' })
            (b := b') (by simp [TimeWindowQuantiles.setCurrent, hlt])
            (fun clock hmem => hclocks clock (List.mem_cons_of_mem _ hmem))
          simp only [Option.map_some, Option.bind_some, Option.pure_def, hnext]
          cases hrest : rereads (s.quantiles_.map Quantile.quantile) clocks.length b' with
          | none => rfl
          | some r =>
              obtain ⟨b'', rest⟩ := r
              simp [TimeWindowQuantiles.setCurrent, metricOf]

theorem metricOf_quantiles (values : List (Option ℚ)) (hlen : values.length = s.quantiles_.length)
    (empty : Prop) [Decidable empty] (hempty : ∀ value ∈ values, value = none ↔ empty) :
    (s.metricOf values).summary.quantile.map (fun e => (e.quantile, decide (e.value = .nan))) =
      s.quantiles_.map fun quantile => (.finite quantile.quantile, decide empty) := by
  change (entriesOf s.quantiles_ values).map _ = _
  generalize s.quantiles_ = quantiles at hlen
  induction quantiles generalizing values with
  | nil => simp [entriesOf]
  | cons quantile quantiles ih =>
      cases values with
      | nil => simp at hlen
      | cons value values =>
          have hrest := ih values (fun v hv => hempty v (List.mem_cons_of_mem _ hv))
            (by simpa using hlen)
          have hnan : Double.ofOption value = .nan ↔ empty := by
            rw [← hempty value List.mem_cons_self]
            cases value <;> simp [Double.ofOption]
          simp only [entriesOf, List.zipWith_cons_cons, List.map_cons, hnan] at hrest ⊢
          rw [hrest]

/-- Scrapes in a row with no rotation agree on the count, the sum, the listed
quantiles and on whether they have values. The values agree as well when a
further flush changes nothing, and in any case from as many scrapes on as the
flushed sample has items. -/
theorem scrapes_agree (quantiles_ : List Quantile) (max_age age_buckets start : ℤ)
    (history : List Op) (s : Summary)
    (hrun : (new quantiles_ max_age age_buckets start).bind (·.run history) = some s)
    (clocks : List (ℕ → ℤ)) (hclocks : ∀ clock ∈ clocks, s.NoRotation clock) :
    ∃ s' metrics b, s.scrapes clocks = some (s', metrics) ∧ metrics.length = clocks.length ∧
      s.flushedBucket = some b ∧
      (∀ m ∈ metrics, ∀ m' ∈ metrics,
        m.summary.sample_count = m'.summary.sample_count ∧
        m.summary.sample_sum = m'.summary.sample_sum ∧
        m.summary.quantile.map (fun e => (e.quantile, decide (e.value = .nan))) =
          m'.summary.quantile.map fun e => (e.quantile, decide (e.value = .nan))) ∧
      (b.Stable → ∀ m ∈ metrics, ∀ m' ∈ metrics, m = m') ∧
      ∀ m ∈ metrics.drop b.sample_.length, ∀ m' ∈ metrics.drop b.sample_.length, m = m' := by
  obtain ⟨-, hserves⟩ := run_serves hrun
  obtain ⟨bucket, data, hbucket, -, hrep⟩ := hserves.current
  obtain ⟨b, hflush, -⟩ := hrep.flush
  obtain ⟨leave, hscrapes⟩ := scrapes_eq_rereads clocks hbucket hclocks
  obtain ⟨bucket', rounds, hrounds, hlen, hround⟩ :=
    hrep.rereads (s.quantiles_.map Quantile.quantile) clocks.length
  rw [hrounds, Option.map_some] at hscrapes
  refine ⟨_, _, b, hscrapes, by simp [hlen], by simp [flushedBucket, hbucket, hflush], ?_, ?_, ?_⟩
  · intro m hm m' hm'
    obtain ⟨values, hvalues, rfl⟩ := List.mem_map.mp hm
    obtain ⟨values', hvalues', rfl⟩ := List.mem_map.mp hm'
    refine ⟨rfl, rfl, ?_⟩
    rw [metricOf_quantiles values (by simpa using (hround values hvalues).1) (data = [])
        (hround values hvalues).2,
      metricOf_quantiles values' (by simpa using (hround values' hvalues').1) (data = [])
        (hround values' hvalues').2]
  · intro hstable m hm m' hm'
    obtain ⟨b', hall⟩ := rereads_of_flush hflush hstable (s.quantiles_.map Quantile.quantile)
      clocks.length
    rw [hrounds, Option.some.injEq, Prod.mk.injEq] at hall
    rw [hall.2, List.map_replicate] at hm hm'
    rw [List.eq_of_mem_replicate hm, List.eq_of_mem_replicate hm']
  · intro m hm m' hm'
    obtain ⟨last, hlast⟩ := rereads_settle hrep hflush (s.quantiles_.map Quantile.quantile)
      b.sample_.length le_rfl hrounds
    rw [← List.map_drop] at hm hm'
    obtain ⟨values, hvalues, rfl⟩ := List.mem_map.mp hm
    obtain ⟨values', hvalues', rfl⟩ := List.mem_map.mp hm'
    rw [hlast values hvalues, hlast values' hvalues']

/-- Nine values, then two scrapes of the median. -/
def nineObservations : List Op := (List.range 9).map fun k => .observe 0 k

theorem scrapes_agree_median : ∃ s s' metrics b,
    (new [⟨1 / 2, 1 / 4⟩] 60 5 0).bind (·.run nineObservations) = some s ∧
      s.scrapes [fun _ => 1, fun _ => 2] = some (s', metrics) ∧ metrics.length = 2 ∧
      s.flushedBucket = some b ∧ (b.Stable → ∀ m ∈ metrics, ∀ m' ∈ metrics, m = m') := by
  have hsome : ((new [⟨1 / 2, 1 / 4⟩] 60 5 0).bind (·.run nineObservations)).isSome := by
    decide +kernel
  obtain ⟨s, hrun⟩ := Option.isSome_iff_exists.mp hsome
  have hwindow : ((new [⟨1 / 2, 1 / 4⟩] 60 5 0).bind (·.run nineObservations)).map (fun s =>
      (s.quantile_values_.last_rotation_, s.quantile_values_.rotation_interval_)) =
        some (0, 12) := by
    decide +kernel
  rw [hrun, Option.map_some, Option.some.injEq, Prod.mk.injEq] at hwindow
  obtain ⟨s', metrics, b, hscrapes, hlen, hb, -, hstable, -⟩ := scrapes_agree [⟨1 / 2, 1 / 4⟩] 60 5 0
    nineObservations s hrun [fun _ => 1, fun _ => 2] (by simp [NoRotation, hwindow])
  exact ⟨s, s', metrics, b, hrun, hscrapes, hlen, hb, hstable⟩

/-- A scrape is not a pure read: the first one reports the median `1` and the
next one `2`. -/
theorem not_scrape_pure :
    ¬ ∀ quantiles_ : List Quantile,
      (∀ q ∈ quantiles_, 0 < q.quantile ∧ q.quantile < 1 ∧ 0 < q.error ∧ q.error < 1) →
      ∀ (max_age age_buckets start : ℤ) (history : List Op) (s : Summary),
        (new quantiles_ max_age age_buckets start).bind (·.run history) = some s →
        ∀ clock clock', s.NoRotation clock → s.NoRotation clock' →
          ∃ s' m s'' m', s.collect clock = some (s', m) ∧ s'.collect clock' = some (s'', m') ∧
            m = m' := by
  intro h
  have hsome : ((new [⟨1 / 2, 1 / 4⟩] 60 5 0).bind (·.run nineObservations)).isSome := by
    decide +kernel
  obtain ⟨s, hrun⟩ := Option.isSome_iff_exists.mp hsome
  have hfacts : ((new [⟨1 / 2, 1 / 4⟩] 60 5 0).bind (·.run nineObservations)).bind (fun s =>
      (s.collect fun _ => 0).bind fun first => (first.1.collect fun _ => 0).bind fun second =>
        some (s.quantile_values_.last_rotation_, s.quantile_values_.rotation_interval_,
          first.2.summary.quantile, second.2.summary.quantile)) =
      some (0, 12, [⟨.finite (1 / 2), .finite 1⟩], [⟨.finite (1 / 2), .finite 2⟩]) := by
    decide +kernel
  rw [hrun, Option.bind_some] at hfacts
  simp only [Option.bind_eq_some_iff, Option.some.injEq, Prod.mk.injEq] at hfacts
  obtain ⟨⟨s₁, m₁⟩, hfirst, ⟨s₂, m₂⟩, hsecond, hlast, hinterval, hm₁, hm₂⟩ := hfacts
  have hclock : s.NoRotation fun _ => 0 := by simp [NoRotation, hlast, hinterval]
  obtain ⟨s', m, s'', m', hcollect, hcollect', heq⟩ :=
    h [⟨1 / 2, 1 / 4⟩] (by norm_num) 60 5 0 nineObservations s hrun _ _ hclock hclock
  rw [hfirst, Option.some.injEq, Prod.mk.injEq] at hcollect
  obtain ⟨rfl, rfl⟩ := hcollect
  rw [hsecond, Option.some.injEq, Prod.mk.injEq] at hcollect'
  obtain ⟨-, rfl⟩ := hcollect'
  rw [heq, hm₂] at hm₁
  norm_num at hm₁

/-- Larger quantiles are reported with values that are no smaller. -/
def Ordered (m : ClientMetric) : Prop :=
  ∀ e ∈ m.summary.quantile, ∀ e' ∈ m.summary.quantile,
    e.quantile.le e'.quantile → e.value.le e'.value

/-- One scrape of a settled sample reads every target from it. -/
theorem collect_settled {clock : ℕ → ℤ} (hclock : s.NoRotation clock) {b : CKMSQuantiles ℚ}
    (hb : s.flushedBucket = some b) (hstable : b.Stable) :
    ∃ s', s.collect clock =
      some (s', s.metricOf ((s.quantiles_.map Quantile.quantile).map b.read)) := by
  simp only [flushedBucket, Option.bind_eq_bind, Option.bind_eq_some_iff] at hb
  obtain ⟨bucket, hbucket, hflush⟩ := hb
  rw [collect, collectQuantiles_eq_reads s.quantiles_ clock hbucket hclock]
  cases hq : s.quantiles_ with
  | nil => simp [reads, metricOf, hq]
  | cons quantile quantiles =>
      have hreads := reads_of_flush hflush hstable quantile.quantile
        (quantiles.map Quantile.quantile)
      simp [hreads, metricOf, hq]

/-- A scrape reports its quantiles in order when no rotation happens, each
tolerance is at most `1 - quantile`, and a further flush of the sample changes
nothing. -/
theorem collect_ordered (quantiles_ : List Quantile)
    (hq : ∀ q ∈ quantiles_, 0 < q.quantile ∧ q.quantile < 1 ∧ 0 < q.error ∧ q.error < 1)
    (htolerance : ∀ q ∈ quantiles_, q.error ≤ 1 - q.quantile)
    (max_age age_buckets start : ℤ) (history : List Op) (s : Summary)
    (hrun : (new quantiles_ max_age age_buckets start).bind (·.run history) = some s)
    (clock : ℕ → ℤ) (hclock : s.NoRotation clock) (b : CKMSQuantiles ℚ)
    (hb : s.flushedBucket = some b) (hcount : 0 < b.count_) (hstable : b.Stable) :
    ∃ s' m, s.collect clock = some (s', m) ∧ Ordered m := by
  obtain ⟨hsq, hserves⟩ := run_serves hrun
  obtain ⟨s', hcollect⟩ := collect_settled hclock hb hstable
  refine ⟨s', _, hcollect, ?_⟩
  obtain ⟨bucket, data, hbucket, hbq, hrep⟩ := hserves.current
  obtain ⟨b', hflush, hrep', hq', hcount', -⟩ := hrep.flush
  obtain rfl : b' = b := by simpa [flushedBucket, hbucket, hflush] using hb
  have hproper : ∀ q ∈ b'.quantiles_, q.Proper ∧ q.error ≤ 1 - q.quantile := by
    intro q hmem
    rw [hq', hbq] at hmem
    obtain ⟨h0, h1, he, -⟩ := hq q hmem
    exact ⟨⟨h0, h1, he.le⟩, htolerance q hmem⟩
  have hne : b'.sample_ ≠ [] := by
    rw [Ne, hrep'.sample_nil_iff, hcount', List.take_length]
    rintro rfl
    simp [hcount'] at hcount
  have hread : ∀ q, ∃ x, b'.read q = some x := by
    intro q
    unfold CKMSQuantiles.read
    cases hsample : b'.sample_ with
    | nil => exact absurd hsample hne
    | cons cur rest => exact ⟨_, rfl⟩
  have hentry : ∀ e ∈ (s.metricOf ((s.quantiles_.map Quantile.quantile).map b'.read)).summary.quantile,
      ∃ q x, b'.read q = some x ∧ e = ⟨.finite q, .finite x⟩ := by
    intro e he
    simp only [metricOf, entriesOf, List.map_map] at he
    rw [List.zipWith_map_right, List.zipWith_self] at he
    obtain ⟨q, -, rfl⟩ := List.mem_map.mp he
    obtain ⟨x, hx⟩ := hread q.quantile
    exact ⟨q.quantile, x, hx, by simp [hx, Double.ofOption]⟩
  intro e he e' he' hle
  obtain ⟨q, x, hx, rfl⟩ := hentry e he
  obtain ⟨q', x', hx', rfl⟩ := hentry e' he'
  simp only [Double.le_finite, decide_eq_true_eq] at hle ⊢
  exact b'.read_mono hrep'.sample.sorted hproper hle hx hx'

/-- What decides about a scrape: the window's last rotation and its interval,
the values the flushed bucket holds, and whether its sample has settled. -/
def scrapeState (s : Summary) : Option (ℤ × ℤ × ℕ × Bool) := do
  let b ← s.flushedBucket
  return (s.quantile_values_.last_rotation_, s.quantile_values_.rotation_interval_, b.count_,
    decide (b.flush = some b))

theorem exists_of_scrapeState {start : Option Summary} {last interval : ℤ} {count : ℕ}
    {settled : Bool} (h : start.bind scrapeState = some (last, interval, count, settled)) :
    ∃ s b, start = some s ∧ s.flushedBucket = some b ∧
      s.quantile_values_.last_rotation_ = last ∧ s.quantile_values_.rotation_interval_ = interval ∧
      b.count_ = count ∧ (b.Stable ↔ settled = true) := by
  obtain ⟨s, hs, hstate⟩ := Option.bind_eq_some_iff.mp h
  simp only [scrapeState, Option.bind_eq_bind, Option.bind_eq_some_iff, Option.pure_def,
    Option.some.injEq, Prod.mk.injEq] at hstate
  obtain ⟨b, hb, hlast, hinterval, hcount, hsettled⟩ := hstate
  exact ⟨s, b, hs, hb, hlast, hinterval, hcount, by simp [← hsettled, Stable]⟩

/-- Two values and a settled sample. -/
theorem collect_ordered_two : ∃ s s' m,
    (new [⟨9 / 10, 1 / 20⟩, ⟨1 / 2, 1 / 20⟩] 60 5 0).bind
      (·.run [.observe 0 3, .observe 1 1]) = some s ∧
      s.collect (fun _ => 2) = some (s', m) ∧ Ordered m := by
  have hstate : ((new [⟨9 / 10, 1 / 20⟩, ⟨1 / 2, 1 / 20⟩] 60 5 0).bind
      (·.run [.observe 0 3, .observe 1 1])).bind scrapeState = some (0, 12, 2, true) := by
    decide +kernel
  obtain ⟨s, b, hrun, hb, hlast, hinterval, hcount, hstable⟩ := exists_of_scrapeState hstate
  obtain ⟨s', m, hcollect, hordered⟩ := collect_ordered [⟨9 / 10, 1 / 20⟩, ⟨1 / 2, 1 / 20⟩]
    (by norm_num) (by norm_num) 60 5 0 [.observe 0 3, .observe 1 1] s hrun (fun _ => 2)
    (by simp [NoRotation, hlast, hinterval]) b hb (by simp [hcount]) (hstable.mpr rfl)
  exact ⟨s, s', m, hrun, hcollect, hordered⟩

/-- Values that keep a sample settled while the targets' tolerances are wide. -/
def wideTolerances : List Op :=
  [.observe 0 8, .collect fun _ => 0, .observe 0 7, .observe 0 6, .observe 0 5, .observe 0 4,
    .observe 0 3, .collect fun _ => 0, .observe 0 2, .observe 0 1]

/-- Reported quantiles can cross: when a flush between two reads merges items,
and, with tolerances above `1 - quantile`, also in a settled sample. -/
theorem quantiles_cross :
    (¬ ∀ quantiles_ : List Quantile,
      (∀ q ∈ quantiles_, 0 < q.quantile ∧ q.quantile < 1 ∧ 0 < q.error ∧ q.error < 1) →
      (∀ q ∈ quantiles_, q.error ≤ 1 - q.quantile) →
      ∀ (max_age age_buckets start : ℤ) (history : List Op) (s : Summary),
        (new quantiles_ max_age age_buckets start).bind (·.run history) = some s →
        ∀ clock, s.NoRotation clock → ∀ b, s.flushedBucket = some b → 0 < b.count_ →
          ∃ s' m, s.collect clock = some (s', m) ∧ Ordered m) ∧
    ¬ ∀ quantiles_ : List Quantile,
      (∀ q ∈ quantiles_, 0 < q.quantile ∧ q.quantile < 1 ∧ 0 < q.error ∧ q.error < 1) →
      ∀ (max_age age_buckets start : ℤ) (history : List Op) (s : Summary),
        (new quantiles_ max_age age_buckets start).bind (·.run history) = some s →
        ∀ clock, s.NoRotation clock → ∀ b, s.flushedBucket = some b → 0 < b.count_ → b.Stable →
          ∃ s' m, s.collect clock = some (s', m) ∧ Ordered m := by
  constructor
  · intro h
    have hstate : ((new [⟨9 / 10, 1 / 10⟩, ⟨1 / 10, 9 / 10⟩] 60 5 0).bind
        (·.run [.observe 0 0, .observe 0 1, .observe 0 2, .observe 0 3])).bind scrapeState =
        some (0, 12, 4, false) := by
      decide +kernel
    obtain ⟨s, b, hrun, hb, hlast, hinterval, hcount, -⟩ := exists_of_scrapeState hstate
    obtain ⟨s', m, hcollect, hordered⟩ := h [⟨9 / 10, 1 / 10⟩, ⟨1 / 10, 9 / 10⟩] (by norm_num)
      (by norm_num) 60 5 0 [.observe 0 0, .observe 0 1, .observe 0 2, .observe 0 3] s hrun
      (fun _ => 0) (by simp [NoRotation, hlast, hinterval]) b hb (by simp [hcount])
    have hread : ((new [⟨9 / 10, 1 / 10⟩, ⟨1 / 10, 9 / 10⟩] 60 5 0).bind
        (·.run [.observe 0 0, .observe 0 1, .observe 0 2, .observe 0 3])).bind
        (fun s => (s.collect fun _ => 0).map (·.2.summary.quantile)) =
        some [⟨.finite (9 / 10), .finite 1⟩, ⟨.finite (1 / 10), .finite 2⟩] := by
      decide +kernel
    rw [hrun, Option.bind_some, hcollect, Option.map_some, Option.some.injEq] at hread
    have hcross := hordered ⟨.finite (1 / 10), .finite 2⟩ (hread ▸ by decide +kernel)
      ⟨.finite (9 / 10), .finite 1⟩ (hread ▸ by decide +kernel) (by decide +kernel)
    exact absurd hcross (by decide +kernel)
  · intro h
    have hstate : ((new [⟨2 / 5, 2 / 5⟩, ⟨3 / 10, 3 / 10⟩, ⟨9 / 10, 1 / 5⟩] 60 5 0).bind
        (·.run wideTolerances)).bind scrapeState = some (0, 12, 8, true) := by
      decide +kernel
    obtain ⟨s, b, hrun, hb, hlast, hinterval, hcount, hstable⟩ := exists_of_scrapeState hstate
    obtain ⟨s', m, hcollect, hordered⟩ := h [⟨2 / 5, 2 / 5⟩, ⟨3 / 10, 3 / 10⟩, ⟨9 / 10, 1 / 5⟩]
      (by norm_num) 60 5 0 wideTolerances s hrun (fun _ => 0)
      (by simp [NoRotation, hlast, hinterval]) b hb (by simp [hcount]) (hstable.mpr rfl)
    have hread : ((new [⟨2 / 5, 2 / 5⟩, ⟨3 / 10, 3 / 10⟩, ⟨9 / 10, 1 / 5⟩] 60 5 0).bind
        (·.run wideTolerances)).bind (fun s => (s.collect fun _ => 0).map (·.2.summary.quantile)) =
        some [⟨.finite (2 / 5), .finite 2⟩, ⟨.finite (3 / 10), .finite 4⟩,
          ⟨.finite (9 / 10), .finite 8⟩] := by
      decide +kernel
    rw [hrun, Option.bind_some, hcollect, Option.map_some, Option.some.injEq] at hread
    have hcross := hordered ⟨.finite (3 / 10), .finite 4⟩ (hread ▸ by decide +kernel)
      ⟨.finite (2 / 5), .finite 2⟩ (hread ▸ by decide +kernel) (by decide +kernel)
    exact absurd hcross (by decide +kernel)

end Summary

end Promcore
