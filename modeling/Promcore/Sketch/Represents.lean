import Promcore.Library.RankSummary
import Promcore.Library.Simulation
import Promcore.Sketch.AllowableError
import Promcore.Sketch.SampleSteps

/-!
# The representation invariant of the sketch

The sample summarizes the values flushed so far and the buffer holds the rest,
in the order inserted. Each step of a flush keeps the summary, so every call
keeps the invariant and no call leaves a vector or the buffer.
-/

namespace Promcore.CKMSQuantiles

open LabelledSteps RankSummary

variable {α : Type} [LinearOrder α]

/-- The sketch holds exactly `data`: the first `count_` values in the sample,
the others in the buffer. -/
structure Represents (s : CKMSQuantiles α) (data : List α) : Prop where
  buffer_lt : s.buffer_count_ < bufferSize
  count_add : s.count_ + s.buffer_count_ = data.length
  split : data = data.take s.count_ ++ s.buffer_
  sample : Summarizes Item.value Item.g s.sample_ (data.take s.count_)

theorem SampleStep.summarizes {quantiles_ : List Quantile} {sample sample' : List (Item α)}
    {label : Option α} {data : List α} (step : SampleStep quantiles_ sample label sample')
    (h : Summarizes Item.value Item.g sample data) :
    Summarizes Item.value Item.g sample' (label.toList ++ data) := by
  cases step with
  | seed v =>
      have hempty : Summarizes Item.value Item.g ([] ++ []) data := h
      exact hempty.insert (x := ⟨v, 1, 0⟩) rfl (by simp) (by simp)
  | place pre post v hne hpre hpost => exact h.insert rfl hpre hpost
  | merge pre post a b hfits => exact h.merge rfl (add_comm _ _)

theorem SampleSteps.summarizes {quantiles_ : List Quantile} {sample sample' : List (Item α)}
    {vs data : List α} (steps : SampleSteps quantiles_ sample vs sample')
    (h : Summarizes Item.value Item.g sample data) :
    Summarizes Item.value Item.g sample' (data ++ vs) := by
  have hrun := steps.invariant (P := fun sample seen => Summarizes Item.value Item.g sample seen)
    (fun _ _ _ _ hstep hsum => hstep.summarizes hsum)
    (fun _ _ _ hstep hsum => hstep.summarizes hsum) data h
  exact hrun.perm ((List.reverse_perm vs).append_right data |>.trans List.perm_append_comm)

/-- A flush succeeds whenever the sample is a summary, and accounts for the
whole buffer. -/
theorem flush_summarizes {s : CKMSQuantiles α} {data : List α}
    (h : Summarizes Item.value Item.g s.sample_ data) :
    ∃ sample', s.flush = some ⟨s.quantiles_, s.count_ + s.buffer_count_, sample', []⟩ ∧
      SampleSteps s.quantiles_ s.sample_ (s.buffer_.insertionSort (· ≤ ·)) sample' ∧
      Summarizes Item.value Item.g sample' (data ++ s.buffer_) := by
  obtain ⟨sample', hflush, hsteps⟩ := flush_spec s h.sorted
  exact ⟨sample', hflush, hsteps,
    (hsteps.summarizes h).perm ((List.perm_insertionSort (· ≤ ·) s.buffer_).append_left data)⟩

namespace Represents

variable {s : CKMSQuantiles α} {data : List α}

theorem new (quantiles_ : List Quantile) : Represents (new quantiles_ : CKMSQuantiles α) [] where
  buffer_lt := by simp [buffer_count_, bufferSize, CKMSQuantiles.new]
  count_add := rfl
  split := rfl
  sample := Summarizes.nil

theorem reset (s : CKMSQuantiles α) : Represents s.reset [] where
  buffer_lt := by simp [buffer_count_, bufferSize, CKMSQuantiles.reset]
  count_add := rfl
  split := rfl
  sample := Summarizes.nil

/-- A flushed sketch holds the same data, all of it in the sample. -/
theorem flush (h : Represents s data) :
    ∃ s', s.flush = some s' ∧ Represents s' data ∧ s'.quantiles_ = s.quantiles_ ∧
      s'.count_ = data.length ∧ s'.buffer_ = [] ∧
      SampleSteps s.quantiles_ s.sample_ (s.buffer_.insertionSort (· ≤ ·)) s'.sample_ := by
  obtain ⟨sample', hflush, hsteps, hsum⟩ := flush_summarizes h.sample
  rw [← h.split] at hsum
  refine ⟨_, hflush, ⟨by simp [buffer_count_, bufferSize], ?_, ?_, ?_⟩, rfl, h.count_add, rfl,
    hsteps⟩
  · simpa [buffer_count_] using h.count_add
  · simp [h.count_add]
  · simpa [h.count_add] using hsum

/-- Writing to the buffer appends one value to the data held. -/
theorem insert (h : Represents s data) (value : α) :
    ∃ s', s.insert value = some s' ∧ Represents s' (data ++ [value]) ∧
      s'.quantiles_ = s.quantiles_ := by
  rw [insert_eq_flush s value h.buffer_lt]
  have hcount : s.count_ ≤ data.length := by
    have := h.count_add
    omega
  have htake : (data ++ [value]).take s.count_ = data.take s.count_ :=
    List.take_append_of_le_length hcount
  split
  · -- the buffer is full: a flush accounts for all of it
    obtain ⟨sample', hflush, -, hsum⟩ := flush_summarizes
      (s := { s with buffer_ := s.buffer_ ++ [value] }) h.sample
    rw [← List.append_assoc, ← h.split] at hsum
    have hlen : s.count_ + (s.buffer_ ++ [value]).length = (data ++ [value]).length := by
      have := h.count_add
      simp only [buffer_count_, List.length_append, List.length_singleton] at this ⊢
      omega
    have hall : (data ++ [value]).take (s.count_ + (s.buffer_ ++ [value]).length) =
        data ++ [value] := List.take_of_length_le hlen.ge
    refine ⟨_, hflush, ⟨by simp [buffer_count_, bufferSize], hlen, ?_, ?_⟩, rfl⟩
    · change data ++ [value] =
        (data ++ [value]).take (s.count_ + (s.buffer_ ++ [value]).length) ++ []
      rw [hall, List.append_nil]
    · exact hall.symm ▸ hsum
  · rename_i hfull
    refine ⟨_, rfl, ⟨?_, ?_, ?_, ?_⟩, rfl⟩
    · have := h.buffer_lt
      simp only [buffer_count_, List.length_append, List.length_singleton] at this hfull ⊢
      omega
    · have := h.count_add
      simp only [buffer_count_, List.length_append, List.length_singleton] at this ⊢
      omega
    · rw [htake, ← List.append_assoc, ← h.split]
    · rw [htake]
      exact h.sample

theorem get (h : Represents s data) (q : ℚ) :
    ∃ s', s.flush = some s' ∧ s.get q = some (s', s'.read q) ∧ Represents s' data ∧
      s'.quantiles_ = s.quantiles_ := by
  obtain ⟨s', hflush, hrep, hq, -⟩ := h.flush
  exact ⟨s', hflush, by simp [get_eq_flush, hflush], hrep, hq⟩

/-- Every call keeps the sketch a representation of the values received. -/
theorem apply (h : Represents s data) (op : Op α) :
    ∃ s', s.apply op = some s' ∧ Represents s' (received data op) ∧
      s'.quantiles_ = s.quantiles_ := by
  cases op with
  | insert value => exact h.insert value
  | get q =>
      obtain ⟨s', -, hget, hrep, hq⟩ := h.get q
      exact ⟨s', by simp [CKMSQuantiles.apply, hget], hrep, hq⟩
  | reset => exact ⟨s.reset, rfl, Represents.reset s, rfl⟩

theorem run (h : Represents s data) (ops : List (Op α)) :
    ∃ s', s.run ops = some s' ∧ Represents s' (ops.foldl received data) ∧
      s'.quantiles_ = s.quantiles_ := by
  induction ops generalizing s data with
  | nil => exact ⟨s, rfl, h, rfl⟩
  | cons op ops ih =>
      obtain ⟨s₁, happly, hrep₁, hq₁⟩ := h.apply op
      obtain ⟨s₂, hrun, hrep₂, hq₂⟩ := ih hrep₁
      exact ⟨s₂, by simpa [CKMSQuantiles.run, happly] using hrun, hrep₂, hq₂.trans hq₁⟩

/-- The flushed values are those the sample accounts for. -/
theorem sample_nil_iff (h : Represents s data) : s.sample_ = [] ↔ data.take s.count_ = [] := by
  constructor
  · intro hnil
    have := h.sample.total
    rw [hnil, mass_nil] at this
    exact List.eq_nil_of_length_eq_zero (by omega)
  · intro hnil
    cases hsample : s.sample_ with
    | nil => rfl
    | cons x xs =>
        have := h.sample.mem_data x (by simp [hsample])
        simp [hnil] at this

end Represents

/-- Every list of calls on a fresh sketch succeeds and represents the values
inserted since the last reset. -/
theorem run_represents (quantiles_ : List Quantile) (ops : List (Op α)) :
    ∃ s, run (new quantiles_) ops = some s ∧ Represents s (inserted ops) ∧
      s.quantiles_ = quantiles_ :=
  (Represents.new quantiles_).run ops

theorem represents_of_run {quantiles_ : List Quantile} {ops : List (Op α)} {s : CKMSQuantiles α}
    (hrun : run (new quantiles_) ops = some s) :
    Represents s (inserted ops) ∧ s.quantiles_ = quantiles_ := by
  obtain ⟨t, hrun', hrep, htargets⟩ := run_represents quantiles_ ops
  obtain rfl := Option.some.inj (hrun'.symm.trans hrun)
  exact ⟨hrep, htargets⟩

/-- Every item's delta is at least zero. -/
def DeltasNonneg (sample : List (Item α)) : Prop := ∀ x ∈ sample, 0 ≤ x.delta

theorem SampleStep.deltasNonneg {quantiles_ : List Quantile} (hq : ∀ q ∈ quantiles_, q.Proper)
    {sample sample' : List (Item α)} {label : Option α}
    (step : SampleStep quantiles_ sample label sample') (h : DeltasNonneg sample) :
    DeltasNonneg sample' := by
  cases step with
  | seed v => simp [DeltasNonneg]
  | place pre post v hne hpre hpost =>
      intro x hx
      rcases List.mem_append.mp hx with hx | hx
      · exact h x (List.mem_append_left _ hx)
      · rcases List.mem_cons.mp hx with rfl | hx
        · exact insertDelta_nonneg hq _ _
        · exact h x (List.mem_append_right _ hx)
  | merge pre post a b hfits =>
      intro x hx
      rcases List.mem_append.mp hx with hx | hx
      · exact h x (by simp [hx])
      · rcases List.mem_cons.mp hx with rfl | hx
        · exact h b (by simp)
        · exact h x (by simp [hx])

/-- What one call can do to the sample: nothing, a flush, or a reset. -/
theorem Represents.apply_sample {s s' : CKMSQuantiles α} {data : List α} (h : Represents s data)
    {op : Op α} (happly : s.apply op = some s') :
    s'.sample_ = s.sample_ ∨ s'.sample_ = [] ∨
      ∃ vs, SampleSteps s.quantiles_ s.sample_ vs s'.sample_ := by
  cases op with
  | insert value =>
      rw [CKMSQuantiles.apply, insert_eq_flush s value h.buffer_lt] at happly
      split at happly
      · obtain ⟨sample', hflush, hsteps, -⟩ := flush_summarizes
          (s := { s with buffer_ := s.buffer_ ++ [value] }) h.sample
        rw [hflush] at happly
        obtain rfl := Option.some.inj happly
        exact Or.inr (Or.inr ⟨_, hsteps⟩)
      · obtain rfl := Option.some.inj happly
        exact Or.inl rfl
  | get q =>
      obtain ⟨s₁, hflush, -, -, -, -, hsteps⟩ := h.flush
      simp only [CKMSQuantiles.apply, get_eq_flush, hflush, Option.map_some, Option.bind_eq_bind,
        Option.bind_some] at happly
      obtain rfl := Option.some.inj happly
      exact Or.inr (Or.inr ⟨_, hsteps⟩)
  | reset =>
      obtain rfl := Option.some.inj happly
      exact Or.inr (Or.inl rfl)

theorem run_snoc (s : CKMSQuantiles α) (ops : List (Op α)) (op : Op α) :
    s.run (ops ++ [op]) = (s.run ops).bind (·.apply op) :=
  Simulation.foldlM_snoc apply s ops op

/-- A property of samples that holds of the empty one and survives every step
of a flush holds in every reachable state. -/
theorem run_sample_invariant {quantiles_ : List Quantile} {P : List (Item α) → Prop}
    (hnil : P []) (hstep : ∀ sample label sample', SampleStep quantiles_ sample label sample' →
      P sample → P sample') (ops : List (Op α)) {s : CKMSQuantiles α}
    (hrun : run (new quantiles_) ops = some s) : P s.sample_ := by
  have hsteps : ∀ sample vs sample', SampleSteps quantiles_ sample vs sample' →
      P sample → P sample' := fun _ _ _ steps h =>
    steps.invariant (P := fun sample (_ : List α) => P sample)
      (fun _ _ _ _ hs hp => hstep _ _ _ hs hp) (fun _ _ _ hs hp => hstep _ _ _ hs hp) [] h
  induction ops using List.reverseRecOn generalizing s with
  | nil =>
      obtain rfl := Option.some.inj hrun
      exact hnil
  | append_singleton ops op ih =>
      obtain ⟨s₁, hrun₁, hrep, hq⟩ := run_represents quantiles_ ops
      have happly : s₁.apply op = some s := by
        rwa [run_snoc, hrun₁] at hrun
      rcases hrep.apply_sample happly with h | h | ⟨vs, h⟩
      · rw [h]
        exact ih hrun₁
      · rw [h]
        exact hnil
      · exact hsteps _ _ _ (hq ▸ h) (ih hrun₁)

/-- In every state reached by inserts, reads and resets: the buffer has room,
nothing is lost, the sample is sorted with weights that add up to the count,
its values were inserted, its last value is the maximum of the flushed values,
and no cumulative weight exceeds the true rank. -/
theorem representation_invariant (quantiles_ : List Quantile)
    (hq : ∀ q ∈ quantiles_, 0 < q.quantile ∧ q.quantile < 1 ∧ 0 ≤ q.error) (ops : List (Op α)) :
    ∃ s, run (new quantiles_) ops = some s ∧
      s.buffer_count_ < 500 ∧
      s.count_ + s.buffer_count_ = (inserted ops).length ∧
      inserted ops = (inserted ops).take s.count_ ++ s.buffer_ ∧
      s.sample_.Pairwise (·.value ≤ ·.value) ∧
      (∀ x ∈ s.sample_, 1 ≤ x.g ∧ 0 ≤ x.delta) ∧
      (s.sample_.map Item.g).sum = s.count_ ∧
      (∀ x ∈ s.sample_, x.value ∈ inserted ops) ∧
      (∀ x, s.sample_.getLast? = some x →
        IsGreatest {d | d ∈ (inserted ops).take s.count_} x.value) ∧
      (∀ i (hi : i < s.sample_.length), ((s.sample_.take (i + 1)).map Item.g).sum ≤
        ((inserted ops).take s.count_).countP (· ≤ s.sample_[i].value)) := by
  obtain ⟨s, hrun, hrep, -⟩ := run_represents quantiles_ ops
  have hproper : ∀ q ∈ quantiles_, q.Proper := fun q hmem => .of_bounds (hq q hmem)
  have hdelta : DeltasNonneg s.sample_ := run_sample_invariant (P := DeltasNonneg)
    (by simp [DeltasNonneg]) (fun _ _ _ hstep h => hstep.deltasNonneg hproper h) ops hrun
  have hlen : ((inserted ops).take s.count_).length = s.count_ := by
    rw [List.length_take]
    have := hrep.count_add
    omega
  refine ⟨s, hrun, hrep.buffer_lt, hrep.count_add, hrep.split, hrep.sample.sorted,
    fun x hx => ⟨hrep.sample.weight_pos x hx, hdelta x hx⟩, ?_, ?_, ?_, ?_⟩
  · rw [← hlen]
    exact hrep.sample.total
  · intro x hx
    exact List.mem_of_mem_take (hrep.sample.mem_data x hx)
  · intro x hx
    exact ⟨hrep.sample.mem_data x (List.mem_of_getLast? hx),
      fun d hd => hrep.sample.max_kept x hx d hd⟩
  · intro i hi
    simpa [mass] using hrep.sample.lower.getElem Item.value Item.g i hi

theorem representation_invariant_three : ∃ s,
    run (new [⟨1 / 2, 1 / 20⟩]) [.insert (3 : ℚ), .insert 1, .get (1 / 2), .insert 2] = some s ∧
      s.count_ + s.buffer_count_ = 3 ∧ (s.sample_.map Item.g).sum = s.count_ := by
  obtain ⟨s, hrun, -, hcount, -, -, -, hsum, -⟩ :=
    representation_invariant [⟨1 / 2, 1 / 20⟩] (by norm_num)
      [.insert (3 : ℚ), .insert 1, .get (1 / 2), .insert 2]
  exact ⟨s, hrun, hcount, hsum⟩

end Promcore.CKMSQuantiles
