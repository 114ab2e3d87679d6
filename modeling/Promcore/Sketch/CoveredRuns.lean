import Promcore.Library.RankIntervals
import Promcore.Sketch.FlushedRuns

/-!
# Runs in which every delta written is wide enough

A value placed before an item may rank as high as that item's values do, so
its delta has to cover what the item spans. While every delta written does, no
stored upper rank falls below the true one.
-/

namespace Promcore.CKMSQuantiles

open LabelledSteps RankSummary

variable {α : Type} [LinearOrder α] (quantiles_ : List Quantile)

omit [LinearOrder α] in
/-- The delta written at a position covers the item that the value is placed
before. -/
def Covers (sample_ : List (Item α)) (idx : ℕ) : Prop :=
  ∀ next ∈ sample_[idx]?, next.g + next.delta ≤ insertDelta quantiles_ sample_.length idx + 1

omit [LinearOrder α] in
instance (sample_ : List (Item α)) (idx : ℕ) : Decidable (Covers quantiles_ sample_ idx) :=
  inferInstanceAs (Decidable (∀ next ∈ sample_[idx]?, _))

/-- Every delta written by the `for` loop of `insertBatch` covers. -/
def ValuesCover : List α → List (Item α) → ℕ → ℕ → Prop
  | [], _, _, _ => True
  | v :: vs, sample_, item, idx =>
      ∀ placed ∈ insertValue quantiles_ sample_ item idx v,
        Covers quantiles_ sample_ placed.2.1 ∧ ValuesCover vs placed.1 placed.2.1 placed.2.2

instance decidableValuesCover : ∀ (vs : List α) (sample_ : List (Item α)) (item idx : ℕ),
    Decidable (ValuesCover quantiles_ vs sample_ item idx)
  | [], _, _, _ => .isTrue trivial
  | v :: vs, sample_, item, idx =>
      have (placed : List (Item α) × ℕ × ℕ) :
          Decidable (ValuesCover quantiles_ vs placed.1 placed.2.1 placed.2.2) :=
        decidableValuesCover vs placed.1 placed.2.1 placed.2.2
      inferInstanceAs (Decidable (∀ placed ∈ insertValue quantiles_ sample_ item idx v, _ ∧ _))

/-- Every delta written when the buffer is emptied covers. -/
def BatchCovers (s : CKMSQuantiles α) : Prop :=
  ValuesCover s.quantiles_ (seed s.sample_ (s.buffer_.insertionSort (· ≤ ·))).2
    (seed s.sample_ (s.buffer_.insertionSort (· ≤ ·))).1 0 1

instance (s : CKMSQuantiles α) : Decidable s.BatchCovers :=
  inferInstanceAs (Decidable (ValuesCover _ _ _ _ _))

variable {quantiles_}

/-- No stored upper rank is below the true one. -/
abbrev UpperRanks (sample : List (Item α)) (data : List α) : Prop :=
  UpperFrom Item.value Item.g Item.delta data 0 sample

/-- The loop keeps the upper ranks right when its deltas cover. -/
theorem insertValues_upperRanks (hq : ∀ q ∈ quantiles_, q.Proper) (vs : List α)
    (pre post : List (Item α)) (cur : Item α) {data : List α}
    (hsum : Summarizes Item.value Item.g (pre ++ cur :: post) data)
    (hupper : UpperRanks (pre ++ cur :: post) data) (hvs : vs.Pairwise (· ≤ ·))
    (hpre : ∀ v ∈ vs, ∀ x ∈ pre, x.value ≤ v)
    (hcovers : ValuesCover quantiles_ vs (pre ++ cur :: post) pre.length (pre.length + 1))
    {sample' : List (Item α)}
    (hrun : insertValues quantiles_ vs (pre ++ cur :: post) pre.length (pre.length + 1) =
      some sample') : UpperRanks sample' (data ++ vs) := by
  induction vs generalizing pre cur post data with
  | nil =>
      obtain rfl := Option.some.inj hrun
      rwa [List.append_nil]
  | cons v vs ih =>
      obtain ⟨left, right, heq, hleft, hright, hplace⟩ := insertValue_spec quantiles_ v pre post cur
        hsum.sorted (hpre v List.mem_cons_self)
      have hvs' := List.pairwise_cons.mp hvs
      replace hcovers := hcovers _ hplace
      simp only [insertValues, hplace, Option.bind_eq_bind, Option.bind_some] at hrun
      rw [heq] at hsum hupper hcovers
      have hnext : ∀ y ∈ right.head?, y.g + y.delta ≤
          insertDelta quantiles_ (left ++ right).length left.length + 1 := by
        intro y hy
        apply hcovers.1
        rwa [List.getElem?_append_right le_rfl, Nat.sub_self, ← List.head?_eq_getElem?]
      have hperm : (v :: data ++ vs).Perm (data ++ v :: vs) := List.perm_middle.symm
      refine (ih left right _ (hsum.insert rfl hleft hright)
        (hupper.insert hsum.total rfl (insertDelta_nonneg hq _ _) hleft hright hnext) hvs'.2
        (fun w hw x hx => (hleft x hx).trans (hvs'.1 w hw)) hcovers.2 hrun).perm hperm

/-- Emptying the buffer keeps the upper ranks right. -/
theorem insertBatch_upperRanks {s s' : CKMSQuantiles α} {data : List α}
    (hq : ∀ q ∈ s.quantiles_, q.Proper) (hsum : Summarizes Item.value Item.g s.sample_ data)
    (hupper : UpperRanks s.sample_ data) (hcovers : s.BatchCovers)
    (hrun : s.insertBatch = some s') : UpperRanks s'.sample_ (data ++ s.buffer_) := by
  have hperm := (List.perm_insertionSort (· ≤ ·) s.buffer_).append_left data
  have hvs := List.pairwise_insertionSort (· ≤ ·) s.buffer_
  rw [insertBatch_eq, Option.map_eq_some_iff] at hrun
  obtain ⟨sample', hrun, rfl⟩ := hrun
  refine UpperFrom.perm hperm ?_
  unfold BatchCovers at hcovers
  generalize s.buffer_.insertionSort (· ≤ ·) = values at hvs hcovers hrun ⊢
  cases hsample : s.sample_ with
  | nil =>
      rw [hsample] at hsum hupper hcovers hrun
      cases values with
      | nil =>
          obtain rfl := Option.some.inj hrun
          trivial
      | cons b bs =>
          -- the first value seeds the sample
          have hempty : UpperRanks ([] ++ []) data := hupper
          have hnone : Summarizes Item.value Item.g ([] ++ []) data := hsum
          have hseed := hempty.insert (x := ⟨b, 1, 0⟩) hnone.total rfl le_rfl (by simp) (by simp)
            (by simp)
          have hsum' := hnone.insert (x := ⟨b, 1, 0⟩) rfl (by simp) (by simp)
          exact (insertValues_upperRanks hq bs [] [] ⟨b, 1, 0⟩ hsum' hseed
            (List.pairwise_cons.mp hvs).2 (by simp) hcovers hrun).perm List.perm_middle.symm
  | cons cur post =>
      rw [hsample] at hsum hupper hcovers hrun
      exact insertValues_upperRanks hq values [] post cur hsum hupper hvs (by simp) hcovers hrun

/-- A flush keeps the upper ranks right: its merges keep that of each item
that is left. -/
theorem flush_upperRanks {s s' : CKMSQuantiles α} {data : List α}
    (hq : ∀ q ∈ s.quantiles_, q.Proper) (hsum : Summarizes Item.value Item.g s.sample_ data)
    (hupper : UpperRanks s.sample_ data) (hcovers : s.BatchCovers) (hflush : s.flush = some s') :
    UpperRanks s'.sample_ (data ++ s.buffer_) := by
  obtain ⟨placed, hbatch, hcompress⟩ := Option.bind_eq_some_iff.mp hflush
  obtain ⟨sample', hcompress', hmerges⟩ := compress_spec placed
  obtain rfl := Option.some.inj (hcompress'.symm.trans hcompress)
  refine Steps.silent_invariant (P := fun sample => UpperRanks sample (data ++ s.buffer_)) ?_ hmerges
    (insertBatch_upperRanks hq hsum hupper hcovers hbatch)
  intro sample sample' hstep h
  cases hstep with
  | merge pre post a b _ => exact h.merge rfl (add_comm _ _) rfl

/-- The upper ranks of the values flushed so far are right. -/
def RanksRight (s : CKMSQuantiles α) (data : List α) : Prop :=
  UpperRanks s.sample_ (data.take s.count_)

/-- No stored upper rank is below the true one when every delta written since
the last reset covers. -/
theorem SinceReset.ranksRight (hq : ∀ q ∈ quantiles_, q.Proper) {ops : List (Op α)}
    {s : CKMSQuantiles α} (h : SinceReset quantiles_ BatchCovers ops s) :
    RanksRight s (inserted ops) := by
  refine h.kept trivial fun s s' data htargets hsum hcovers hupper hflush => ?_
  exact flush_upperRanks (htargets ▸ hq) hsum hupper hcovers hflush

/-- When every delta written since the last reset covers, no item's true rank is
above the maximal rank that `get` relies on. -/
theorem true_rank_lt_of_covers
    (hq : ∀ q ∈ quantiles_, 0 < q.quantile ∧ q.quantile < 1 ∧ 0 < q.error)
    {ops : List (Op α)} {s : CKMSQuantiles α} (h : SinceReset quantiles_ BatchCovers ops s)
    (i : ℕ) (hi : i < s.sample_.length) :
    (((inserted ops).take s.count_).countP (· < s.sample_[i].value) : ℤ) <
      ((s.sample_.take (i + 1)).map Item.g).sum + s.sample_[i].delta := by
  have hright : RanksRight s (inserted ops) :=
    h.ranksRight fun q hmem => ⟨(hq q hmem).1, (hq q hmem).2.1, (hq q hmem).2.2.le⟩
  have hrank := UpperFrom.getElem hright i hi
  rwa [zero_add] at hrank

theorem true_rank_lt_of_covers_two :
    ∃ s, run (new [⟨1 / 2, 1 / 20⟩]) twoReads = some s ∧ s.sample_.length = 2 ∧
      ∀ i (hi : i < s.sample_.length),
        (((inserted twoReads).take s.count_).countP (· < s.sample_[i].value) : ℤ) <
          ((s.sample_.take (i + 1)).map Item.g).sum + s.sample_[i].delta := by
  have hsince : SinceReset [⟨1 / 2, 1 / 20⟩] BatchCovers twoReads
      ⟨[⟨1 / 2, 1 / 20⟩], 2, [⟨1, 1, 0⟩, ⟨3, 1, 0⟩], []⟩ :=
    .of_meets (by decide +kernel) (by decide +kernel)
  exact ⟨_, hsince.run, rfl, fun i hi => true_rank_lt_of_covers (by norm_num) hsince i hi⟩

/-- Sound upper ranks fail in general: `1` is absorbed by `3`, and `2` is then
placed before it with delta zero. -/
theorem not_true_rank_lt :
    ¬ ∀ (quantiles_ : List Quantile),
      (∀ q ∈ quantiles_, 0 < q.quantile ∧ q.quantile < 1 ∧ 0 < q.error) →
      ∀ (ops : List (Op ℚ)) (s : CKMSQuantiles ℚ), run (new quantiles_) ops = some s →
        ∀ (i : ℕ) (hi : i < s.sample_.length),
          (((inserted ops).take s.count_).countP (· < s.sample_[i].value) : ℤ) <
            ((s.sample_.take (i + 1)).map Item.g).sum + s.sample_[i].delta := by
  intro h
  have hrun : run (new [⟨1 / 10, 1 / 10⟩])
      [.insert 1, .get (1 / 10), .insert 3, .get (1 / 10), .insert 2, .get (1 / 10)] =
        some (⟨[⟨1 / 10, 1 / 10⟩], 3, [⟨2, 1, 0⟩, ⟨3, 2, 0⟩], []⟩ : CKMSQuantiles ℚ) := by
    decide +kernel
  have hrank := h [⟨1 / 10, 1 / 10⟩] (by norm_num) _ _ hrun 0 (by decide)
  revert hrank
  decide +kernel

end Promcore.CKMSQuantiles
