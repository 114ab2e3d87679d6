import Promcore.Sketch.Accuracy
import Promcore.Sketch.Placing

/-!
# Reads that are within their tolerated error

What a read finds is decided by the sketch before its flush: the items stored,
the places that the buffered values take among them, and the errors allowed at
the positions where the flush may join two neighbours. When none of these can
stop the scan too early, and every delta written covers, the value read has a
rank within the tolerance.
-/

namespace Promcore.CKMSQuantiles

open OrderedMerge RankSummary

variable {α : Type}

/-- The number of values held. -/
def held (s : CKMSQuantiles α) : ℕ := s.count_ + s.buffer_count_

/-- The number of items once each buffered value has its own. -/
def slots (s : CKMSQuantiles α) : ℕ := s.sample_.length + s.buffer_count_

/-- The bound of the next scan, should its flush leave `size` items. -/
def boundAt (s : CKMSQuantiles α) (q : ℚ) (size : ℕ) : ℚ :=
  truncate (q * s.held) + allowableError s.quantiles_ size (truncate (q * s.held)) / 2

/-- An item of the given width does not stop the scan too early: it begins
within the tolerance, or ends within the bound however many items are left.
A pass of merges leaves at least half of them. -/
def Clear (s : CKMSQuantiles α) (q : Quantile) (before width : ℤ) : Prop :=
  (q.quantile - q.error) * s.held - 2 ≤ before ∨ ∀ size ≤ s.slots, s.slots ≤ 2 * size →
    ((before + width : ℤ) : ℚ) ≤ s.boundAt q.quantile size

instance (s : CKMSQuantiles α) (q : Quantile) (before width : ℤ) :
    Decidable (s.Clear q before width) := inferInstanceAs (Decidable (_ ∨ _))

theorem Clear.mono {s : CKMSQuantiles α} {q : Quantile} {before width width' : ℤ}
    (h : s.Clear q before width') (hle : width ≤ width') : s.Clear q before width := by
  refine h.imp_right fun hends size hsize hhalf => le_trans ?_ (hends size hsize hhalf)
  exact_mod_cast add_le_add_right hle before

variable [LinearOrder α]

/-- `k` items and `t` buffered values may come before the others. -/
abbrev CutAt (s : CKMSQuantiles α) (k t : ℕ) : Prop :=
  Cut Item.value s.sample_ (s.buffer_.insertionSort (· ≤ ·)) k t

/-- The weight before a cut. -/
def before (s : CKMSQuantiles α) (k t : ℕ) : ℤ := mass Item.g (s.sample_.take k) + t

/-- Nothing that the next flush can leave behind a cut stops the scan too early:
the item stored there, the value placed there, and two neighbours joined there
after `r` other pairs. -/
structure ClearAt (s : CKMSQuantiles α) (q : Quantile) (k t : ℕ) : Prop where
  stored : ∀ x ∈ s.sample_[k]?, s.Clear q (s.before k t) (x.g + x.delta)
  placed : t < s.buffer_count_ → s.Clear q (s.before k t)
    (insertDelta s.quantiles_ (s.sample_.length + t) (k + t) + 1)
  joined : k + t + 1 < s.slots → ∀ r ≤ k + t, 2 * r ≤ k + t → s.Clear q (s.before k t)
    ⌊allowableError s.quantiles_ (s.slots - r) (k + t + 1 - r : ℕ)⌋

instance (s : CKMSQuantiles α) (q : Quantile) (k t : ℕ) : Decidable (s.ClearAt q k t) :=
  decidable_of_iff ((∀ x ∈ s.sample_[k]?, s.Clear q (s.before k t) (x.g + x.delta)) ∧
    (t < s.buffer_count_ → s.Clear q (s.before k t)
      (insertDelta s.quantiles_ (s.sample_.length + t) (k + t) + 1)) ∧
    (k + t + 1 < s.slots → ∀ r ≤ k + t, 2 * r ≤ k + t → s.Clear q (s.before k t)
      ⌊allowableError s.quantiles_ (s.slots - r) (k + t + 1 - r : ℕ)⌋))
    ⟨fun ⟨h₁, h₂, h₃⟩ => ⟨h₁, h₂, h₃⟩, fun ⟨h₁, h₂, h₃⟩ => ⟨h₁, h₂, h₃⟩⟩

/-- Behind every cut nothing stops the scan for the target too early, and what
the flush can leave in front of all else spans no more than the tolerance. -/
structure ReadClear (s : CKMSQuantiles α) (q : Quantile) : Prop where
  cuts : ∀ k ≤ s.sample_.length, ∀ t ≤ s.buffer_count_, s.CutAt k t → 0 < k + t → s.ClearAt q k t
  first : ∀ x ∈ s.sample_.head?, ((x.g + x.delta : ℤ) : ℚ) ≤ (q.quantile + q.error) * s.held + 3
  first_joined : 1 < s.slots →
    allowableError s.quantiles_ s.slots 1 ≤ (q.quantile + q.error) * s.held + 3

instance (s : CKMSQuantiles α) (q : Quantile) : Decidable (s.ReadClear q) :=
  decidable_of_iff ((∀ k ≤ s.sample_.length, ∀ t ≤ s.buffer_count_, s.CutAt k t → 0 < k + t →
      s.ClearAt q k t) ∧
    (∀ x ∈ s.sample_.head?, ((x.g + x.delta : ℤ) : ℚ) ≤ (q.quantile + q.error) * s.held + 3) ∧
    (1 < s.slots → allowableError s.quantiles_ s.slots 1 ≤ (q.quantile + q.error) * s.held + 3))
    ⟨fun ⟨h₁, h₂, h₃⟩ => ⟨h₁, h₂, h₃⟩, fun ⟨h₁, h₂, h₃⟩ => ⟨h₁, h₂, h₃⟩⟩

variable {s t : CKMSQuantiles α} {q : Quantile} {placed : List (Item α)} {flushed : List α}

/-- All items that the flush places are clear, joined with their neighbour or
not. -/
theorem ReadClear.along (h : s.ReadClear q)
    (hmerged : Merged Item.value (placedItem s.quantiles_ s.sample_.length) 0 0 s.sample_
      (s.buffer_.insertionSort (· ≤ ·)) placed) :
    Along Item.g (Spans s.quantiles_ (s.Clear q) s.slots) 0 0 placed := by
  have hclear : ∀ k t, s.CutAt k t → 0 < k + t → s.ClearAt q k t := fun k t hcut hpos =>
    h.cuts k hcut.entries_le t (hcut.values_le.trans_eq (List.length_insertionSort _ _)) hcut hpos
  have hjoined : ∀ k t, s.CutAt k t → 0 < k + t → k + t + 1 < s.slots → ∀ r, 2 * r ≤ k + t →
      s.Clear q (s.before k t) ⌊allowableError s.quantiles_ (s.slots - r) (k + t + 1 - r : ℕ)⌋ :=
    fun k t hcut hpos hlast r hr => (hclear k t hcut hpos).joined hlast r (by omega) hr
  refine hmerged.along (fun _ _ _ => rfl) ?_ ?_
  · intro k t x hcut hx hpos
    exact ⟨(hclear k t hcut hpos).stored x hx, hjoined k t hcut hpos⟩
  · intro k t v hcut hv hpos
    have ht : t < s.buffer_count_ :=
      (List.getElem?_eq_some_iff.mp hv).1.trans_eq (List.length_insertionSort _ _)
    refine ⟨?_, hjoined k t hcut hpos⟩
    rw [placedItem, if_neg (by have := hcut.entries_le; omega), add_comm 1]
    exact (hclear k t hcut hpos).placed ht

theorem length_merged {make : ℕ → ℕ → α → Item α}
    (hmerged : Merged Item.value make 0 0 s.sample_ (s.buffer_.insertionSort (· ≤ ·)) placed) :
    placed.length = s.slots := by
  rw [hmerged.length, List.length_insertionSort]
  rfl

/-- What the flush leaves is clear, and no less than half of what it places. -/
theorem ReadClear.flush (hclear : s.ReadClear q) (hsorted : s.sample_.Pairwise (·.value ≤ ·.value))
    (hflush : s.flush = some t) :
    Along Item.g (fun j a x => 0 < j → s.Clear q a (x.g + x.delta)) 0 0 t.sample_ ∧
      t.sample_.length ≤ s.slots ∧ s.slots ≤ 2 * t.sample_.length := by
  obtain ⟨placed, hmerged, hsample⟩ := flush_merged hsorted hflush
  have hlen := length_merged hmerged
  obtain ⟨hhalf, hsize⟩ := mergePass_length s.quantiles_ 0 none placed
  rw [Option.toList_none, List.nil_append, ← hsample, hlen] at hhalf hsize
  refine ⟨?_, hsize, hhalf⟩
  rw [hsample]
  exact mergePass_along (fun _ _ _ hle h => h.mono hle) 0 0 le_rfl 0 none placed
    (by simpa using hlen) (hclear.along hmerged)

/-- No more flushed or buffered values are below the first item placed than the
first item stored admits. -/
theorem countP_lt_first {x : Item α} {out : List (Item α)} {hi : ℚ}
    (hsum : Summarizes Item.value Item.g s.sample_ flushed) (hupper : UpperRanks s.sample_ flushed)
    (hmerged : Merged Item.value (placedItem s.quantiles_ s.sample_.length) 0 0 s.sample_
      (s.buffer_.insertionSort (· ≤ ·)) (x :: out)) (hhi : 0 ≤ hi)
    (hfirst : ∀ y ∈ s.sample_.head?, ((y.g + y.delta : ℤ) : ℚ) ≤ hi + 1) :
    ((flushed ++ s.buffer_).countP (· < x.value) : ℚ) ≤ hi := by
  obtain ⟨hitems, hvalues⟩ := hmerged.head_le (fun _ _ _ => rfl) hsum.sorted
    (List.pairwise_insertionSort (· ≤ ·) s.buffer_)
  have hbuffer : s.buffer_.countP (· < x.value) = 0 := List.countP_eq_zero.mpr fun v hv => by
    simpa using hvalues v ((List.mem_insertionSort _).mpr hv)
  rw [List.countP_append, hbuffer, add_zero]
  cases hsample : s.sample_ with
  | nil =>
      have hempty := hsum.total
      rw [hsample, mass_nil] at hempty
      rw [List.eq_nil_of_length_eq_zero (by omega : flushed.length = 0)]
      simpa using hhi
  | cons y rest =>
      rw [hsample] at hitems hupper hfirst
      have hcount := countP_lt_mono flushed (hitems y List.mem_cons_self)
      have hrank : (flushed.countP (· < y.value) : ℤ) + 1 ≤ y.g + y.delta := by
        have := hupper.1
        omega
      have hle := hfirst y rfl
      have : ((flushed.countP (· < x.value) : ℕ) : ℚ) + 1 ≤ ((y.g + y.delta : ℤ) : ℚ) := by
        exact_mod_cast (by omega : (flushed.countP (· < x.value) : ℤ) + 1 ≤ y.g + y.delta)
      linarith

/-- The first item that the flush leaves has few enough values below it. -/
theorem ReadClear.first_le (hclear : s.ReadClear q)
    (hhi : 0 ≤ (q.quantile + q.error) * s.held + 2)
    (hsum : Summarizes Item.value Item.g s.sample_ flushed) (hupper : UpperRanks s.sample_ flushed)
    (hflush : s.flush = some t) (hright : UpperRanks t.sample_ (flushed ++ s.buffer_))
    (hne : 0 < t.sample_.length) :
    ((flushed ++ s.buffer_).countP (· < t.sample_[0].value) : ℚ) ≤
      (q.quantile + q.error) * s.held + 2 := by
  obtain ⟨placed, hmerged, hsample⟩ := flush_merged hsum.sorted hflush
  have hlen := length_merged hmerged
  have hkept : ∀ x out, placed = x :: out →
      ((flushed ++ s.buffer_).countP (· < x.value) : ℚ) ≤ (q.quantile + q.error) * s.held + 2 :=
    fun x out heq => countP_lt_first hsum hupper (heq ▸ hmerged) hhi fun y hy => by
      linarith [hclear.first y hy]
  rcases placed with - | ⟨x, - | ⟨next, rest⟩⟩
  · rw [hsample] at hne
    simp [mergePass] at hne
  · simp only [hsample]
    exact hkept x [] rfl
  · rw [mergePass, mergePass] at hsample
    split at hsample
    · next hfits =>
        -- the first two items are joined
        simp only [List.length_cons] at hlen
        rw [show 0 + 2 + rest.length = s.slots by omega] at hfits
        have hallowed := hfits.trans (hclear.first_joined (by omega))
        rw [hsample] at hright
        have hrank := hright.1
        rw [zero_add] at hrank
        simp only [hsample, List.getElem_cons_zero]
        have hcast : (((flushed ++ s.buffer_).countP (· < next.value) : ℕ) : ℚ) + 1 ≤
            ((x.g + next.g + next.delta : ℤ) : ℚ) := by
          rw [add_comm x.g]
          exact_mod_cast hrank
        linarith
    · simp only [hsample]
      exact hkept x _ rfl

/-- When every delta written since the last reset covers, and those of the read's
own flush do, a read that is clear is within its tolerated error. -/
theorem accurate_of_clear (quantiles_ : List Quantile)
    (hq : ∀ q ∈ quantiles_, 0 < q.quantile ∧ q.quantile < 1 ∧ 0 < q.error ∧ q.error < 1)
    (ops : List (Op α)) (s : CKMSQuantiles α) (hrun : SinceReset quantiles_ BatchCovers ops s)
    (hne : inserted ops ≠ []) (hcovers : s.BatchCovers) (q : Quantile) (hmem : q ∈ quantiles_)
    (hclear : s.ReadClear q) : Accurate s (inserted ops) q := by
  have hproper : ∀ q ∈ quantiles_, q.Proper := fun q hmem =>
    ⟨(hq q hmem).1, (hq q hmem).2.1, (hq q hmem).2.2.1.le⟩
  obtain ⟨s', t, hrun', hflush, hiff⟩ := accurate_iff quantiles_ hq ops hne q hmem
  obtain rfl := Option.some.inj (hrun'.symm.trans hrun.run)
  obtain ⟨hrep, hqs⟩ := represents_of_run hrun'
  obtain ⟨t', hflush', hrept, hqt, hcount, hflushed, -⟩ := hrep.flush
  obtain rfl := Option.some.inj (hflush'.symm.trans hflush)
  have hheld : s'.held = (inserted ops).length := hrep.count_add
  have hsum := hrept.sample
  rw [hrept.take_of_flushed hflushed] at hsum
  have hright := flush_upperRanks (hqs ▸ hproper) hrep.sample (hrun.ranksRight hproper) hcovers
    hflush
  obtain ⟨halong, hsize, hhalf⟩ := hclear.flush hrep.sample.sorted hflush
  have hbound : t'.bound q.quantile = s'.boundAt q.quantile t'.sample_.length := by
    rw [bound, boundAt, desired, hcount, hheld, hqt]
  have hpos := (hq q hmem).1
  have hheld₀ : (0 : ℚ) ≤ (inserted ops).length := Nat.cast_nonneg _
  have hnonneg : 0 ≤ (q.quantile + q.error) * (inserted ops).length + 2 := by
    have := mul_nonneg (add_nonneg hpos.le (hq q hmem).2.2.1.le) hheld₀
    linarith
  have hfirst := hclear.first_le (by rwa [hheld]) hrep.sample (hrun.ranksRight hproper) hflush
    hright
  rw [← hrep.split] at hright hfirst
  rw [hheld] at hfirst
  refine hiff.mpr (separate_of_upperRanks hsum hright ?_ (fun i hi hover => ?_) hfirst)
  · by_cases hslope : q.error ≤ 1 - q.quantile
    · left
      have hlength : t'.sample_.length ≤ t'.count_ := hcount ▸ hsum.length_le
      have hle := bound_le (by rwa [hqt, hqs]) (hproper q hmem) hslope hlength
      rw [hcount] at hle
      linarith
    · -- every value is within the tolerance
      right
      nlinarith
  · have hitem := halong.getElem (i + 1) hi (by omega)
    rw [zero_add] at hitem
    rcases hitem with hbegins | hends
    · rwa [hheld] at hbegins
    · have hle := hends _ hsize hhalf
      rw [← hbound, ← upperRank_eq] at hle
      exact absurd hover (not_lt.mpr hle)

/-- A sketch with `2` merged into `3`, and `1` in its buffer. -/
example : ReadClear (⟨[⟨1 / 10, 1 / 10⟩], 3, [⟨3, 2, 0⟩, ⟨4, 1, 4⟩], [1]⟩ : CKMSQuantiles ℚ)
    ⟨1 / 10, 1 / 10⟩ := by decide +kernel

/-- The third quartile. -/
def quartileTargets : List Quantile := [⟨3 / 4, 1 / 10⟩]

/-- The values `7, 3, 6, 1`, a read that merges `1` into `3`, and `5, 4, 2`. -/
def quartileCalls : List (Op ℚ) :=
  [.insert 7, .insert 3, .insert 6, .insert 1, .get (3 / 4), .insert 5, .insert 4, .insert 2]

theorem accurate_of_clear_quartile : ∃ s, run (new quartileTargets) quartileCalls = some s ∧
    s.sample_ = [⟨3, 2, 0⟩, ⟨6, 1, 1⟩, ⟨7, 1, 2⟩] ∧ s.buffer_ = [5, 4, 2] ∧
    Accurate s (inserted quartileCalls) ⟨3 / 4, 1 / 10⟩ := by
  have hsince : SinceReset quartileTargets BatchCovers quartileCalls
      ⟨quartileTargets, 4, [⟨3, 2, 0⟩, ⟨6, 1, 1⟩, ⟨7, 1, 2⟩], [5, 4, 2]⟩ :=
    .of_meets (by decide +kernel) (by decide +kernel)
  exact ⟨_, hsince.run, rfl, rfl, accurate_of_clear quartileTargets (by norm_num [quartileTargets])
    quartileCalls _ hsince (by decide +kernel) (by decide +kernel) ⟨3 / 4, 1 / 10⟩
    List.mem_cons_self (by decide +kernel)⟩

/-- The values `1, 3, 6, 4, 2, 5`, read in between: the tenth percentile read
at the end is `5`. -/
def tenthPercentileCalls : List (Op ℚ) :=
  [.insert 1, .insert 3, .get (1 / 10), .insert 6, .get (1 / 10), .insert 4, .get (1 / 10),
    .insert 2, .get (1 / 10), .insert 5]

/-- The accuracy promised for targeted quantiles fails: a value placed before
the last item gets delta zero although that item already absorbed others. -/
theorem not_accurate_tenth_percentile :
    ¬ ∀ (quantiles_ : List Quantile),
      (∀ q ∈ quantiles_, 0 < q.quantile ∧ q.quantile < 1 ∧ 0 < q.error ∧ q.error < 1) →
      ∀ ops : List (Op ℚ), .reset ∉ ops → inserted ops ≠ [] → ∀ q ∈ quantiles_,
        ∃ s, run (new quantiles_) ops = some s ∧ Accurate s (inserted ops) q := by
  intro h
  obtain ⟨s, hrun, s', r, hget, -, -, hhigh⟩ := h [⟨1 / 10, 1 / 10⟩] (by norm_num)
    tenthPercentileCalls (by decide +kernel) (by decide +kernel) ⟨1 / 10, 1 / 10⟩ (by simp)
  have hread : (run (new [⟨1 / 10, 1 / 10⟩]) tenthPercentileCalls).bind
      (fun s => (s.get (1 / 10)).map Prod.snd) = some (some 5) := by decide +kernel
  simp only [hrun, Option.bind_some, hget, Option.map_some, Option.some.injEq] at hread
  subst hread
  have hcount : (inserted tenthPercentileCalls).countP (· < (5 : ℚ)) = 4 ∧
      (inserted tenthPercentileCalls).length = 6 := by decide +kernel
  rw [hcount.1, hcount.2] at hhigh
  norm_num at hhigh

end Promcore.CKMSQuantiles
