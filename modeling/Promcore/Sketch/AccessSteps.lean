import Promcore.Sketch.Accesses
import Promcore.Sketch.Represents

/-!
# Every access as a step on the sample

An access either leaves the sample as it is, and then fits it, or it places one
value or merges one item into the next. A call is a run of such steps with its
accesses as the labels, so what holds of each step is proved once.
-/

namespace Promcore.CKMSQuantiles

open LabelledSteps RankSummary Traced

variable {α : Type}

/-- Every item stands for at least one value, and no delta is negative. -/
def Sound (sample : List (Item α)) : Prop := ∀ x ∈ sample, 1 ≤ x.g ∧ 0 ≤ x.delta

/-- At most the values counted and, on top, two or the delta of an item. -/
def Ranked (sample : List (Item α)) (x : ℤ) : Prop :=
  0 ≤ x ∧ (x ≤ mass Item.g sample + 2 ∨ ∃ y ∈ sample, x ≤ mass Item.g sample + y.delta)

/-- The access fits the sample, and leaves it as it is. -/
def Access.Fits (sample : List (Item α)) : Access α → Prop
  | .write index => index < bufferSize
  | .take index => index < bufferSize
  | .head item idx => idx = item + 1
  | .read index size => size = sample.length ∧ index < size
  | .decrement idx => 0 < idx
  | .pair prev next => next = prev + 1
  | .subtract size rank => rank ≤ size
  | .int x => Sound sample → Ranked sample x
  | .emplace _ _ _ => False
  | .erase _ _ _ _ => False

section Bounds

variable {sample : List (Item α)}

theorem Sound.length_le_mass (h : Sound sample) : (sample.length : ℤ) ≤ mass Item.g sample := by
  induction sample with
  | nil => simp
  | cons x sample ih =>
      have hx := (h x List.mem_cons_self).1
      have hrest := ih fun y hy => h y (List.mem_cons_of_mem _ hy)
      rw [mass_cons, List.length_cons]
      omega

theorem Sound.mass_nonneg (h : Sound sample) : 0 ≤ mass Item.g sample :=
  (Int.natCast_nonneg _).trans h.length_le_mass

theorem sound_append {pre post : List (Item α)} :
    Sound (pre ++ post) ↔ Sound pre ∧ Sound post := List.forall_mem_append

theorem sound_cons {x : Item α} {post : List (Item α)} :
    Sound (x :: post) ↔ (1 ≤ x.g ∧ 0 ≤ x.delta) ∧ Sound post := List.forall_mem_cons

theorem Sound.ranked (h : Sound sample) {x : ℤ} (hx : 0 ≤ x) (hsize : x ≤ sample.length + 2) :
    Ranked sample x := by
  have := h.length_le_mass
  exact ⟨hx, Or.inl (by omega)⟩

theorem insertDelta_le (quantiles_ : List Quantile) (size idx : ℕ) :
    insertDelta quantiles_ size idx ≤ size + 2 := by
  unfold insertDelta
  split
  · omega
  · have hfloor : ⌊allowableError quantiles_ size ((idx + 1 : ℕ) : ℤ)⌋ ≤ (size + 1 : ℤ) := by
      have h := (Int.floor_le _).trans
        (allowableError_le_size quantiles_ size ((idx + 1 : ℕ) : ℤ))
      exact_mod_cast h
    omega

end Bounds

/-- A read of a quantile between zero and one, or any other call. -/
def Op.InUnit : Op α → Prop
  | .get q => 0 ≤ q ∧ q ≤ 1
  | _ => True

variable [LinearOrder α] (quantiles_ : List Quantile)

/-- One access and what it makes of the sample. -/
inductive SampleAccess : List (Item α) → Option (Access α) → List (Item α) → Prop
  | look {sample : List (Item α)} {a : Access α} (h : a.Fits sample) :
      SampleAccess sample (some a) sample
  | seed (v : α) : SampleAccess [] (some (.emplace 0 0 v)) [⟨v, 1, 0⟩]
  | place (pre post : List (Item α)) (v : α) (hne : pre ++ post ≠ [])
      (hpre : ∀ x ∈ pre, x.value ≤ v) (hpost : ∀ x ∈ post, v ≤ x.value) :
      SampleAccess (pre ++ post) (some (.emplace pre.length (pre ++ post).length v))
        (pre ++ ⟨v, 1, insertDelta quantiles_ (pre ++ post).length pre.length⟩ :: post)
  | merge (pre post : List (Item α)) (a b : Item α)
      (hfits : ((a.g + b.g + b.delta : ℤ) : ℚ) ≤
        allowableError quantiles_ (pre ++ a :: b :: post).length (pre.length + 1 : ℕ)) :
      SampleAccess (pre ++ a :: b :: post)
        (some (.erase pre.length (pre ++ a :: b :: post).length a b))
        (pre ++ { b with g := b.g + a.g } :: post)

/-- Forgetting the accesses leaves the steps of a flush. -/
theorem SampleAccess.eq_or_step {sample sample' : List (Item α)} {label : Option (Access α)}
    (h : SampleAccess quantiles_ sample label sample') :
    sample' = sample ∨ ∃ placed, SampleStep quantiles_ sample placed sample' := by
  cases h with
  | look _ => exact Or.inl rfl
  | seed v => exact Or.inr ⟨_, .seed v⟩
  | place pre post v hne hpre hpost => exact Or.inr ⟨_, .place pre post v hne hpre hpost⟩
  | merge pre post a b hfits => exact Or.inr ⟨_, .merge pre post a b hfits⟩

namespace Watched

variable {quantiles_}

omit [LinearOrder α] in
/-- An `int` up to the upper rank of the later of two neighbours. -/
theorem int_fits {pre post : List (Item α)} {a b : Item α} {x : ℤ}
    (hx : 0 ≤ mass Item.g pre → 1 ≤ a.g → 1 ≤ b.g → 0 ≤ b.delta →
      0 ≤ x ∧ x ≤ mass Item.g pre + a.g + b.g + b.delta) :
    (Access.int x).Fits (pre ++ a :: b :: post) := by
  intro hsound
  obtain ⟨hpre, hrest⟩ := sound_append.mp hsound
  obtain ⟨ha, hrest⟩ := sound_cons.mp hrest
  obtain ⟨hb, hpost⟩ := sound_cons.mp hrest
  have hmass := hpost.mass_nonneg
  obtain ⟨hlow, hhigh⟩ := hx hpre.mass_nonneg ha.1 hb.1 hb.2
  refine ⟨hlow, Or.inr ⟨b, by simp, ?_⟩⟩
  simp only [mass_append, mass_cons]
  omega

theorem errorAt_runs {q : Quantile} (hq : q.Proper) (sample : List (Item α)) (size : ℕ)
    (rank : ℤ) :
    Runs (SampleAccess quantiles_) (errorAt q size rank) sample (q.errorAt size rank) sample := by
  unfold errorAt Quantile.errorAt
  split
  · next hrank => exact (Runs.act (.look (hq.rank_le_size hrank))).bind (Runs.pure _ _)
  · exact Runs.pure _ _

theorem allowableError_runs {targets : List Quantile} (hq : ∀ q ∈ targets, q.Proper)
    {sample : List (Item α)} (size : ℕ) {rank : ℤ} (hrank : Sound sample → Ranked sample rank) :
    Runs (SampleAccess quantiles_) (allowableError targets size rank) sample
      (Promcore.allowableError targets size rank) sample := by
  refine (Runs.act (.look hrank)).bind ?_
  unfold Promcore.allowableError
  generalize (size + 1 : ℚ) = minError
  induction targets generalizing minError with
  | nil => exact Runs.pure _ _
  | cons q targets ih =>
      obtain ⟨hproper, hrest⟩ := List.forall_mem_cons.mp hq
      have hstep : Runs (SampleAccess quantiles_)
          (errorAt q size rank >>= fun error =>
            pure (if error < minError then error else minError)) sample
          (if q.errorAt size rank < minError then q.errorAt size rank else minError) sample :=
        (errorAt_runs hproper sample size rank).bind (Runs.pure _ _)
      rw [List.foldlM_cons, List.foldl_cons]
      exact hstep.bind (ih hrest _)

theorem read_runs {sample : List (Item α)} {index : ℕ} {x : Item α}
    (h : sample[index]? = some x) :
    Runs (SampleAccess quantiles_) (read sample index) sample x sample :=
  Runs.attempt h (.look ⟨rfl, (List.getElem?_eq_some_iff.mp h).1⟩)

/-- The reads of the `while` loop are those of a loop that succeeds. -/
theorem advance_runs {sample : List (Item α)} {v : α} {item idx : ℕ} {result : ℕ × ℕ}
    (h : CKMSQuantiles.advance sample v item idx = some result) :
    Runs (SampleAccess quantiles_) (advance sample v item idx) sample result sample := by
  induction hn : sample.length - idx using Nat.strong_induction_on generalizing item idx with
  | _ n ih =>
    subst hn
    rw [CKMSQuantiles.advance] at h
    rw [advance]
    split at h
    · next hlt =>
        obtain ⟨cur, hcur, hrest⟩ := Option.bind_eq_some_iff.mp h
        rw [if_pos hlt]
        refine (read_runs hcur).bind ?_
        split at hrest
        · next hless =>
            rw [if_pos hless]
            exact ih _ (by omega) hrest rfl
        · next hless =>
            rw [if_neg hless, Option.some.inj hrest]
            exact Runs.pure _ _
    · next hlt =>
        rw [if_neg hlt, Option.some.inj h]
        exact Runs.pure _ _

theorem insertDelta_runs {targets : List Quantile} (hq : ∀ q ∈ targets, q.Proper)
    {sample : List (Item α)} {idx : ℕ} (hidx : idx ≤ sample.length) :
    Runs (SampleAccess quantiles_) (insertDelta targets sample.length idx) sample
      (CKMSQuantiles.insertDelta targets sample.length idx) sample := by
  unfold insertDelta
  split
  · next hends =>
      rw [CKMSQuantiles.insertDelta, if_pos hends]
      exact Runs.pure _ _
  · next hends =>
      have hdelta := insertDelta_le targets sample.length idx
      have herror := allowableError_nonneg hq sample.length (Int.natCast_nonneg (idx + 1))
      rw [CKMSQuantiles.insertDelta, if_neg hends] at hdelta ⊢
      refine (allowableError_runs hq _ fun hsound => hsound.ranked (by omega) (by omega)).bind ?_
      refine (Runs.act (.look fun hsound => ?_)).bind (Runs.pure _ _)
      exact hsound.ranked (Int.floor_nonneg.mpr herror) (by omega)

/-- The `for` loop places one value where the plain loop does. -/
theorem insertValue_runs (hq : ∀ q ∈ quantiles_, q.Proper) (v : α) (pre post : List (Item α))
    (cur : Item α) (hsorted : (pre ++ cur :: post).Pairwise (·.value ≤ ·.value))
    (hpre : ∀ x ∈ pre, x.value ≤ v) :
    ∃ left right, pre ++ cur :: post = left ++ right ∧
      (∀ x ∈ left, x.value ≤ v) ∧ (∀ x ∈ right, v ≤ x.value) ∧
      Runs (SampleAccess quantiles_)
        (insertValue quantiles_ (pre ++ cur :: post) pre.length (pre.length + 1) v)
        (pre ++ cur :: post)
        (left ++ ⟨v, 1, CKMSQuantiles.insertDelta quantiles_ (left ++ right).length left.length⟩ ::
          right, left.length, left.length + 1)
        (left ++ ⟨v, 1, CKMSQuantiles.insertDelta quantiles_ (left ++ right).length left.length⟩ ::
          right) := by
  obtain ⟨left, right, heq, hleft, hright, hrun⟩ :=
    insertValue_spec quantiles_ v pre post cur hsorted hpre
  refine ⟨left, right, heq, hleft, hright, ?_⟩
  have hne : left ++ right ≠ [] := heq ▸ by simp
  rw [heq] at hrun ⊢
  generalize pre.length = item at hrun ⊢
  -- what the plain loop computed on the way
  rw [← value_insertValue, insertValue] at hrun
  simp only [value_bind, value_act, value_advance, value_read, value_stepBack, value_insertDelta,
    value_attempt, value_pure, Option.bind_some, Option.bind_eq_some_iff] at hrun
  obtain ⟨⟨item', idx'⟩, hadvance, cur', hcur, idx, hidx, sample', hemplace, hresult⟩ := hrun
  obtain ⟨rfl, rfl, -⟩ : sample' = left ++ ⟨v, 1, CKMSQuantiles.insertDelta quantiles_
      (left ++ right).length left.length⟩ :: right ∧ idx = left.length ∧
        idx + 1 = left.length + 1 := by simpa using hresult
  dsimp only at hcur hidx
  have hle : left.length ≤ (left ++ right).length := by simp
  refine (Runs.act (.look rfl)).bind ((advance_runs hadvance).bind ((read_runs hcur).bind ?_))
  have hback : Runs (SampleAccess quantiles_) (stepBack cur' v idx') (left ++ right) left.length
      (left ++ right) := by
    unfold stepBack
    split at hidx
    · next hgt =>
        rw [if_pos hgt]
        refine Runs.attempt hidx (.look ?_)
        cases idx' with
        | zero => cases hidx
        | succ idx' => exact Nat.succ_pos idx'
    · next hgt =>
        rw [if_neg hgt, Option.some.inj hidx]
        exact Runs.pure _ _
  refine hback.bind ((insertDelta_runs hq hle).bind ((Runs.act (.look fun hsound => ?_)).bind
    ((Runs.attempt hemplace (.place left right v hne hleft hright)).bind (Runs.pure _ _))))
  exact hsound.ranked (insertDelta_nonneg hq _ _) (insertDelta_le _ _ _)

/-- The `for` loop, from buffer index `i` on, within the buffer. -/
theorem insertValues_runs (hq : ∀ q ∈ quantiles_, q.Proper) (vs : List α) (i : ℕ)
    (hfull : i + vs.length ≤ bufferSize) (pre post : List (Item α)) (cur : Item α)
    (hsorted : (pre ++ cur :: post).Pairwise (·.value ≤ ·.value))
    (hvs : vs.Pairwise (· ≤ ·)) (hpre : ∀ v ∈ vs, ∀ x ∈ pre, x.value ≤ v) :
    ∃ sample', Runs (SampleAccess quantiles_)
      (insertValues quantiles_ i vs (pre ++ cur :: post) pre.length (pre.length + 1))
      (pre ++ cur :: post) sample' sample' := by
  induction vs generalizing i pre cur post with
  | nil => exact ⟨_, Runs.pure _ _⟩
  | cons v vs ih =>
      obtain ⟨left, right, heq, hleft, hright, hrun⟩ := insertValue_runs hq v pre post cur
        hsorted (hpre v List.mem_cons_self)
      have hvs' := List.pairwise_cons.mp hvs
      rw [List.length_cons] at hfull
      obtain ⟨sample', hrest⟩ := ih (i + 1) (by omega) left right
        ⟨v, 1, CKMSQuantiles.insertDelta quantiles_ (left ++ right).length left.length⟩
        (sorted_insert (heq ▸ hsorted) hleft hright)
        hvs'.2 (fun w hw x hx => (hleft x hx).trans (hvs'.1 w hw))
      exact ⟨sample', (Runs.act (.look (by omega : i < bufferSize))).bind (hrun.bind hrest)⟩

theorem insertBatch_runs {s : CKMSQuantiles α} (hq : ∀ q ∈ s.quantiles_, q.Proper)
    (hsorted : s.sample_.Pairwise (·.value ≤ ·.value)) (hfull : s.buffer_count_ ≤ bufferSize) :
    ∃ s', Runs (SampleAccess s.quantiles_) (insertBatch s) s.sample_ s' s'.sample_ := by
  unfold insertBatch
  split
  · exact ⟨s, Runs.pure _ _⟩
  · have hvs := List.pairwise_insertionSort (· ≤ ·) s.buffer_
    have hlen : (s.buffer_.insertionSort (· ≤ ·)).length ≤ bufferSize := by
      rwa [List.length_insertionSort]
    generalize s.buffer_.insertionSort (· ≤ ·) = values at hvs hlen ⊢
    obtain ⟨quantiles_, count_, sample_, buffer_⟩ := s
    cases sample_ with
    | nil =>
        cases values with
        | nil => exact ⟨⟨quantiles_, count_ + buffer_.length, [], []⟩, rfl, Steps.refl _⟩
        | cons b bs =>
            rw [List.length_cons] at hlen
            obtain ⟨sample', hrun⟩ := insertValues_runs hq bs 1 (by omega) [] [] ⟨b, 1, 0⟩
              (by simp) (List.pairwise_cons.mp hvs).2 (by simp)
            have hseed : Runs (SampleAccess quantiles_) (seed [] (b :: bs)) []
                ([⟨b, 1, 0⟩], 1, bs) [⟨b, 1, 0⟩] :=
              (Runs.act (.look (by omega : 0 < bufferSize))).bind
                ((Runs.act (.seed b)).bind (Runs.pure _ _))
            exact ⟨⟨quantiles_, count_ + buffer_.length, sample', []⟩,
              hseed.bind (hrun.bind (Runs.pure _ _))⟩
    | cons cur post =>
        obtain ⟨sample', hrun⟩ := insertValues_runs hq values 0 (by omega) [] post cur
          hsorted hvs (by simp)
        have hseed : Runs (SampleAccess quantiles_) (seed (cur :: post) values) (cur :: post)
            (cur :: post, 0, values) (cur :: post) := Runs.pure _ _
        exact ⟨⟨quantiles_, count_ + buffer_.length, sample', []⟩,
          hseed.bind (hrun.bind (Runs.pure _ _))⟩

/-- Each test of `compress` merges or passes on. -/
theorem compressLoop_runs (hq : ∀ q ∈ quantiles_, q.Proper) (pre rest : List (Item α))
    (prev : Item α) :
    ∃ sample', Runs (SampleAccess quantiles_)
      (compressLoop quantiles_ (pre ++ prev :: rest) pre.length (pre.length + 1))
      (pre ++ prev :: rest) sample' sample' := by
  induction hn : rest.length using Nat.strong_induction_on generalizing pre prev rest with
  | _ n ih =>
    subst hn
    cases rest with
    | nil =>
        rw [compressLoop, if_neg (by simp)]
        exact ⟨_, Runs.pure _ _⟩
    | cons next rest =>
        have hprev : (pre ++ prev :: next :: rest)[pre.length]? = some prev := by simp
        have hnext : (pre ++ prev :: next :: rest)[pre.length + 1]? = some next := by simp
        have hlen : pre.length + 1 < (pre ++ prev :: next :: rest).length := by simp
        have hrank : Sound (pre ++ prev :: next :: rest) →
            Ranked (pre ++ prev :: next :: rest) ((pre.length + 1 : ℕ) : ℤ) := fun h =>
          h.ranked (Int.natCast_nonneg _) (by omega)
        rw [compressLoop, if_pos hlen]
        suffices htest : ∃ sample', Runs (SampleAccess quantiles_)
            (if ((prev.g + next.g + next.delta : ℤ) : ℚ) ≤ Promcore.allowableError quantiles_
                (pre ++ prev :: next :: rest).length ((pre.length + 1 : ℕ) : ℤ) then do
              act (.int (next.g + prev.g))
              act (.erase pre.length (pre ++ prev :: next :: rest).length prev next)
              compressLoop quantiles_ (((pre ++ prev :: next :: rest).set (pre.length + 1)
                { next with g := next.g + prev.g }).eraseIdx pre.length) (pre.length + 1)
                (pre.length + 1 + 1)
            else compressLoop quantiles_ (pre ++ prev :: next :: rest) (pre.length + 1)
              (pre.length + 1 + 1)) (pre ++ prev :: next :: rest) sample' sample' by
          obtain ⟨sample', htest⟩ := htest
          exact ⟨sample', (Runs.act (.look rfl)).bind ((read_runs hprev).bind
            ((read_runs hnext).bind ((Runs.act (.look (int_fits (by omega)))).bind
              ((Runs.act (.look (int_fits (by omega)))).bind
                ((allowableError_runs hq _ hrank).bind htest)))))⟩
        split
        · next hfits =>
            have hmerge : ((pre ++ prev :: next :: rest).set (pre.length + 1)
                { next with g := next.g + prev.g }).eraseIdx pre.length =
                pre ++ { next with g := next.g + prev.g } :: rest := by
              simp [List.set_append_right, List.eraseIdx_append_of_length_le]
            rw [hmerge]
            have htail : ∃ sample', Runs (SampleAccess quantiles_)
                (compressLoop quantiles_ (pre ++ { next with g := next.g + prev.g } :: rest)
                  (pre.length + 1) (pre.length + 1 + 1))
                (pre ++ { next with g := next.g + prev.g } :: rest) sample' sample' := by
              -- the merged item is not looked at again
              cases rest with
              | nil =>
                  rw [compressLoop, if_neg (by simp)]
                  exact ⟨_, Runs.pure _ _⟩
              | cons follow rest =>
                  have hrest := ih rest.length (by simp)
                    (pre ++ [{ next with g := next.g + prev.g }]) rest follow rfl
                  rwa [List.append_assoc, List.singleton_append, List.length_append,
                    List.length_singleton] at hrest
            obtain ⟨sample', htail⟩ := htail
            exact ⟨sample', (Runs.act (.look (int_fits (by omega)))).bind
              ((Runs.act (.merge pre rest prev next hfits)).bind htail)⟩
        · simpa using ih rest.length (by simp) (pre ++ [prev]) rest next rfl

theorem compress_runs {s : CKMSQuantiles α} (hq : ∀ q ∈ s.quantiles_, q.Proper) :
    ∃ s', Runs (SampleAccess s.quantiles_) (compress s) s.sample_ s' s'.sample_ := by
  unfold compress
  split
  · exact ⟨s, Runs.pure _ _⟩
  · next hsize =>
      obtain ⟨quantiles_, count_, sample_, buffer_⟩ := s
      cases sample_ with
      | nil => simp at hsize
      | cons prev rest =>
          obtain ⟨sample', hrun⟩ := compressLoop_runs hq [] rest prev
          exact ⟨⟨quantiles_, count_, sample', buffer_⟩, hrun.bind (Runs.pure _ _)⟩

/-- Emptying the buffer and then merging, as runs on the sample. -/
theorem flush_runs {s : CKMSQuantiles α} (hq : ∀ q ∈ s.quantiles_, q.Proper)
    (hsorted : s.sample_.Pairwise (·.value ≤ ·.value)) (hfull : s.buffer_count_ ≤ bufferSize) :
    ∃ placed s', s.flush = some s' ∧
      Runs (SampleAccess s.quantiles_) (insertBatch s) s.sample_ placed placed.sample_ ∧
      Runs (SampleAccess s.quantiles_) (compress placed) placed.sample_ s' s'.sample_ := by
  obtain ⟨placed, hbatch⟩ := insertBatch_runs hq hsorted hfull
  have hplaced := (value_insertBatch s).symm.trans hbatch.value_eq
  have htargets := (insertBatch_cases hplaced).1
  obtain ⟨s', hcompress⟩ := compress_runs (htargets ▸ hq)
  have hmerged := (value_compress placed).symm.trans hcompress.value_eq
  rw [htargets] at hcompress
  exact ⟨placed, s', by simp [flush, hplaced, hmerged], hbatch, hcompress⟩

/-- The scan of `get` stores ranks of the sample. -/
theorem scan_runs (bound : ℚ) (pre rest : List (Item α)) (cur : Item α) :
    Runs (SampleAccess quantiles_) (scan bound (mass Item.g pre) cur rest) (pre ++ cur :: rest)
      (CKMSQuantiles.scan bound (mass Item.g pre) cur rest) (pre ++ cur :: rest) := by
  induction rest generalizing pre cur with
  | nil => exact Runs.pure _ _
  | cons next rest ih =>
      refine (Runs.act (.look (int_fits (by omega)))).bind
        ((Runs.act (.look (int_fits (by omega)))).bind
          ((Runs.act (.look (int_fits (by omega)))).bind ?_))
      rw [CKMSQuantiles.scan]
      split
      · exact Runs.pure _ _
      · simpa [add_assoc] using ih (pre ++ [cur]) next

omit [LinearOrder α] in
/-- A target rank lies among the values counted. -/
theorem desired_bounds (s : CKMSQuantiles α) {q : ℚ} (hlow : 0 ≤ q) (hhigh : q ≤ 1) :
    0 ≤ s.desired q ∧ s.desired q ≤ s.count_ := by
  have hcount : (0 : ℚ) ≤ s.count_ := Nat.cast_nonneg _
  have hnonneg : 0 ≤ q * s.count_ := mul_nonneg hlow hcount
  rw [desired, truncate, if_neg (not_lt.mpr hnonneg)]
  refine ⟨Int.floor_nonneg.mpr hnonneg, ?_⟩
  have hfloor := (Int.floor_le (q * s.count_)).trans (mul_le_of_le_one_left hcount hhigh)
  exact_mod_cast hfloor

theorem insert_runs {s : CKMSQuantiles α} {data : List α} (h : Represents s data)
    (hq : ∀ q ∈ s.quantiles_, q.Proper) (value : α) :
    ∃ s', Runs (SampleAccess s.quantiles_) (insert s value) s.sample_ s' s'.sample_ := by
  obtain ⟨quantiles_, count_, sample_, buffer_⟩ := s
  have hlt := h.buffer_lt
  have hsorted := h.sample.sorted
  have hwrite : Runs (SampleAccess quantiles_)
      (attempt (.write buffer_.length) (if buffer_.length < bufferSize then
        some (⟨quantiles_, count_, sample_, buffer_ ++ [value]⟩ : CKMSQuantiles α) else none))
      sample_ ⟨quantiles_, count_, sample_, buffer_ ++ [value]⟩ sample_ :=
    Runs.attempt (if_pos hlt) (.look hlt)
  by_cases hfull : (buffer_ ++ [value]).length = bufferSize
  · have hflush : ∃ placed s',
        (⟨quantiles_, count_, sample_, buffer_ ++ [value]⟩ : CKMSQuantiles α).flush = some s' ∧
          _ ∧ _ := flush_runs hq hsorted hfull.le
    obtain ⟨placed, s', -, hbatch, hcompress⟩ := hflush
    refine ⟨s', hwrite.bind ?_⟩
    rw [buffer_count_, if_pos hfull]
    exact hbatch.bind hcompress
  · refine ⟨⟨quantiles_, count_, sample_, buffer_ ++ [value]⟩, hwrite.bind ?_⟩
    rw [buffer_count_, if_neg hfull]
    exact Runs.pure _ _

/-- A read of a probability, with the state and the value of the plain `get`. -/
theorem get_runs {s : CKMSQuantiles α} {data : List α} (h : Represents s data)
    (hq : ∀ q ∈ s.quantiles_, q.Proper) {q : ℚ} (hlow : 0 ≤ q) (hhigh : q ≤ 1) :
    ∃ s', Runs (SampleAccess s.quantiles_) (get s q) s.sample_ (s', s'.read q) s'.sample_ := by
  obtain ⟨placed, s', hflush, hbatch, hcompress⟩ :=
    flush_runs hq h.sample.sorted h.buffer_lt.le
  obtain ⟨_, hflush', hrep, htargets, hcount, -⟩ := h.flush
  obtain rfl := Option.some.inj (hflush.symm.trans hflush')
  have hmass : mass Item.g s'.sample_ = s'.count_ := by
    rw [hrep.sample.total, hcount, List.take_length]
  obtain ⟨hdesired, hle⟩ := desired_bounds s' hlow hhigh
  have hrank : Sound s'.sample_ → Ranked s'.sample_ (s'.desired q) := fun _ =>
    ⟨hdesired, Or.inl (by omega)⟩
  refine ⟨s', hbatch.bind (hcompress.bind ?_)⟩
  obtain ⟨quantiles_, count_, sample_, buffer_⟩ := s'
  cases sample_ with
  | nil => exact Runs.pure _ _
  | cons cur rest =>
      refine (Runs.act (.look hrank)).bind ((allowableError_runs ?_ _ hrank).bind
        (Runs.bind (scan_runs _ [] rest cur) (Runs.pure _ _)))
      exact htargets ▸ hq

/-- A call other than a reset is a run on the sample. -/
theorem apply_runs {s : CKMSQuantiles α} {data : List α} (h : Represents s data)
    (hq : ∀ q ∈ s.quantiles_, q.Proper) {op : Op α} (hop : op.InUnit) (hreset : op ≠ .reset) :
    ∃ s', Runs (SampleAccess s.quantiles_) (apply s op) s.sample_ s' s'.sample_ := by
  cases op with
  | insert value => exact insert_runs h hq value
  | get q =>
      obtain ⟨s', hrun⟩ := get_runs h hq hop.1 hop.2
      exact ⟨s', hrun.bind (Runs.pure _ _)⟩
  | reset => exact absurd rfl hreset

/-- The accesses of a run are those of its calls, in order. -/
theorem trace_run_snoc {ops : List (Op α)} {s : CKMSQuantiles α}
    (hrun : CKMSQuantiles.run (CKMSQuantiles.new quantiles_) ops = some s) (op : Op α) :
    (run (CKMSQuantiles.new quantiles_) (ops ++ [op])).trace =
      (run (CKMSQuantiles.new quantiles_) ops).trace ++ (apply s op).trace :=
  trace_foldlM_snoc ((value_run _ ops).trans hrun) op

end Watched

end Promcore.CKMSQuantiles
