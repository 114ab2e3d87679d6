import Promcore.Library.OrderedMerge
import Promcore.Sketch.SampleSteps

/-!
# Where the items of a flushed sample come from

A flush puts the buffered values in order among the items, and its pass of
merges then joins neighbours. So each item left spans no more than an item it
met, a value it placed, or the error allowed at some rank.
-/

namespace Promcore.CKMSQuantiles

open OrderedMerge

variable {α : Type} (quantiles_ : List Quantile)

/-- The item that a value gets in a sample of `size` items, behind `k` of them
and `t` values; the first value seeds an empty sample. -/
def placedItem (size k t : ℕ) (v : α) : Item α :=
  ⟨v, 1, if size + t = 0 then 0 else insertDelta quantiles_ (size + t) (k + t)⟩

section Merges

variable {quantiles_} {Q : ℤ → ℤ → Prop} {m : ℕ}

variable (quantiles_ Q m) in
/-- Behind the first item: the relation holds of the weight before an item and
what it spans, and of what a pair that begins with it may span after `r` other
pairs were joined. -/
def Spans (i : ℕ) (a : ℤ) (x : Item α) : Prop :=
  0 < i → Q a (x.g + x.delta) ∧ (i + 1 < m → ∀ r, 2 * r ≤ i →
    Q a ⌊allowableError quantiles_ (m - r) (i + 1 - r : ℕ)⌋)

/-- So it holds of the items that the pass of merges leaves. -/
theorem mergePass_along (hQ : ∀ a w w', w ≤ w' → Q a w' → Q a w) (j r : ℕ) (hr : r ≤ j) (a : ℤ)
    (prev : Option (Item α)) (rest : List (Item α)) (hm : j + r + (prev.toList ++ rest).length = m)
    (h : Along Item.g (Spans quantiles_ Q m) (j + r) a (prev.toList ++ rest)) :
    Along Item.g (fun j a x => 0 < j → Q a (x.g + x.delta)) j a
      (mergePass quantiles_ j prev rest) := by
  induction rest generalizing j r a prev with
  | nil =>
      cases prev with
      | none => trivial
      | some prev => exact ⟨fun hj => (h.1 (by omega)).1, trivial⟩
  | cons next rest ih =>
      cases prev with
      | none => exact ih j r hr a (some next) hm h
      | some prev =>
          obtain ⟨hprev, hrest⟩ := h
          simp only [Option.toList_some, List.singleton_append, List.length_cons] at hm
          rw [mergePass]
          split
          · next hfits =>
              refine ⟨fun hj => ?_, ih (j + 1) (r + 1) (by omega) _ none ?_ ?_⟩
              · have hallowed := (hprev (by omega)).2 (by omega) r (by omega)
                rw [show m - r = j + 2 + rest.length by omega,
                  show j + r + 1 - r = j + 1 by omega] at hallowed
                refine hQ _ _ _ (Int.le_floor.mpr ?_) hallowed
                rwa [add_comm next.g]
              · simp only [Option.toList_none, List.nil_append]
                omega
              · rw [add_comm next.g, ← add_assoc a, show j + 1 + (r + 1) = j + r + 1 + 1 by omega]
                exact hrest.2
          · refine ⟨fun hj => (hprev (by omega)).1, ih (j + 1) r (by omega) _ (some next) ?_ ?_⟩
            · simp only [Option.toList_some, List.singleton_append, List.length_cons]
              omega
            · rw [add_right_comm j 1 r]
              exact hrest

variable (quantiles_) in
/-- The pass joins pairs only. -/
theorem mergePass_length (j : ℕ) (prev : Option (Item α)) (rest : List (Item α)) :
    (prev.toList ++ rest).length ≤ 2 * (mergePass quantiles_ j prev rest).length ∧
      (mergePass quantiles_ j prev rest).length ≤ (prev.toList ++ rest).length := by
  induction rest generalizing j prev with
  | nil => cases prev <;> simp [mergePass]
  | cons next rest ih =>
      cases prev with
      | none => exact ih j (some next)
      | some prev =>
          rw [mergePass]
          split
          · have := ih (j + 1) none
            simp only [Option.toList_none, Option.toList_some, List.nil_append,
              List.singleton_append, List.length_cons] at this ⊢
            omega
          · have := ih (j + 1) (some next)
            simp only [Option.toList_some, List.singleton_append, List.length_cons] at this ⊢
            omega

end Merges

variable [LinearOrder α] {quantiles_} {k t : ℕ}

/-- The loop over values that are not below the item it stands at. -/
theorem insertValues_merged (size : ℕ) (vs : List α) (pre post : List (Item α)) (cur : Item α)
    (hcount : pre.length + 1 = k + t) (hsize : (pre ++ cur :: post).length = size + t)
    (hsorted : (cur :: post).Pairwise (·.value ≤ ·.value)) (hvs : vs.Pairwise (· ≤ ·))
    (hcur : ∀ v ∈ vs, cur.value ≤ v) {sample' : List (Item α)}
    (hrun : insertValues quantiles_ vs (pre ++ cur :: post) pre.length (pre.length + 1) =
      some sample') :
    ∃ out, sample' = pre ++ cur :: out ∧
      Merged Item.value (placedItem quantiles_ size) k t post vs out := by
  induction vs generalizing pre cur post k t with
  | nil => exact ⟨post, (Option.some.inj hrun).symm, .no_values k t post⟩
  | cons v vs ih =>
      obtain ⟨passed, right, heq, hne, hpassed, hright, hplace⟩ :=
        insertValue_passed quantiles_ v pre post cur hsorted
      obtain ⟨hv, hvs⟩ := List.pairwise_cons.mp hvs
      cases passed with
      | nil => exact absurd rfl (hne (hcur v List.mem_cons_self))
      | cons x passed =>
          rw [List.cons_append, List.cons.injEq] at heq
          obtain ⟨rfl, rfl⟩ := heq
          have hindex : (pre ++ cur :: passed).length = k + passed.length + t := by
            rw [List.length_append, List.length_cons]
            omega
          have hitem : (⟨v, 1, insertDelta quantiles_ (pre ++ cur :: (passed ++ right)).length
              (pre ++ cur :: passed).length⟩ : Item α) =
                placedItem quantiles_ size (k + passed.length) t v := by
            rw [hsize, hindex, placedItem, if_neg]
            rw [← hsize, List.length_append, List.length_cons]
            omega
          rw [hitem] at hplace
          simp only [insertValues, hplace, Option.bind_eq_bind, Option.bind_some] at hrun
          obtain ⟨out, rfl, hout⟩ := ih (k := k + passed.length) (t := t + 1) (pre ++ cur :: passed)
            right _ (by omega)
            (by simp only [List.length_append, List.length_cons] at hsize ⊢; omega)
            (List.pairwise_cons.mpr
              ⟨hright, (List.pairwise_append.mp (List.pairwise_cons.mp hsorted).2).2.1⟩) hvs hv hrun
          refine ⟨passed ++ placedItem quantiles_ size (k + passed.length) t v :: out, by simp,
            .passed (fun x hx => ?_) (.fresh hright hout)⟩
          have hx := hpassed x (List.mem_cons_of_mem _ hx)
          exact List.forall_mem_cons.mpr ⟨hx, fun w hw => hx.trans (hv w hw)⟩

/-- The loop from the first item of a sample. -/
theorem insertValues_first (values : List α) (cur : Item α) (post : List (Item α))
    (hsorted : (cur :: post).Pairwise (·.value ≤ ·.value)) (hvalues : values.Pairwise (· ≤ ·))
    {sample' : List (Item α)}
    (hrun : insertValues quantiles_ values (cur :: post) 0 1 = some sample') :
    Merged Item.value (placedItem quantiles_ (cur :: post).length) 0 0 (cur :: post) values
      sample' := by
  cases values with
  | nil => exact Option.some.inj hrun ▸ .no_values 0 0 (cur :: post)
  | cons v vs =>
      obtain ⟨passed, right, heq, -, hpassed, hright, hplace⟩ :=
        insertValue_passed quantiles_ v [] post cur hsorted
      obtain ⟨hv, hvs⟩ := List.pairwise_cons.mp hvalues
      rw [heq] at hsorted
      have hsplit : [] ++ cur :: post = passed ++ right := heq
      have hitem : (⟨v, 1, insertDelta quantiles_ ([] ++ cur :: post).length
          ([] ++ passed).length⟩ : Item α) =
            placedItem quantiles_ (cur :: post).length passed.length 0 v := by
        rw [placedItem, if_neg (by simp)]
        rfl
      rw [hitem] at hplace
      simp only [List.nil_append, List.length_nil, zero_add] at hplace
      simp only [insertValues, hplace, Option.bind_eq_bind, Option.bind_some] at hrun
      obtain ⟨out, rfl, hout⟩ := insertValues_merged (k := passed.length) (t := 1)
        (cur :: post).length vs passed right _ rfl
        (by rw [heq, List.length_append, List.length_cons, List.length_append]; rfl)
        (List.pairwise_cons.mpr ⟨hright, (List.pairwise_append.mp hsorted).2.1⟩) hvs hv hrun
      rw [heq]
      refine .passed (fun x hx => ?_) ?_
      · have hx := hpassed x hx
        exact List.forall_mem_cons.mpr ⟨hx, fun w hw => hx.trans (hv w hw)⟩
      · rw [zero_add, ← heq]
        exact .fresh hright hout

/-- Emptying the buffer merges its values, in order, into the sample. -/
theorem insertBatch_merged {s placed : CKMSQuantiles α}
    (hsorted : s.sample_.Pairwise (·.value ≤ ·.value)) (hrun : s.insertBatch = some placed) :
    placed.quantiles_ = s.quantiles_ ∧ placed.count_ = s.count_ + s.buffer_count_ ∧
      Merged Item.value (placedItem s.quantiles_ s.sample_.length) 0 0 s.sample_
        (s.buffer_.insertionSort (· ≤ ·)) placed.sample_ := by
  have hvalues := List.pairwise_insertionSort (· ≤ ·) s.buffer_
  rw [insertBatch_eq, Option.map_eq_some_iff] at hrun
  obtain ⟨sample', hrun, rfl⟩ := hrun
  refine ⟨rfl, rfl, ?_⟩
  generalize s.buffer_.insertionSort (· ≤ ·) = values at hvalues hrun ⊢
  cases hsample : s.sample_ with
  | nil =>
      rw [hsample] at hrun
      cases values with
      | nil => exact Option.some.inj hrun ▸ .nil 0 0
      | cons b bs =>
          obtain ⟨hb, hbs⟩ := List.pairwise_cons.mp hvalues
          obtain ⟨out, rfl, hout⟩ := insertValues_merged (k := 0) (t := 1) 0 bs [] []
            ⟨b, 1, 0⟩ rfl rfl (List.pairwise_singleton _ _) hbs hb hrun
          exact .fresh (by simp) hout
  | cons cur post =>
      rw [hsample] at hrun hsorted
      exact insertValues_first values cur post hsorted hvalues hrun

/-- So a flush leaves what the pass of merges makes of the merged list. -/
theorem flush_merged {s t : CKMSQuantiles α} (hsorted : s.sample_.Pairwise (·.value ≤ ·.value))
    (hflush : s.flush = some t) : ∃ placed,
      Merged Item.value (placedItem s.quantiles_ s.sample_.length) 0 0 s.sample_
        (s.buffer_.insertionSort (· ≤ ·)) placed ∧
      t.sample_ = mergePass s.quantiles_ 0 none placed := by
  obtain ⟨placed, hbatch, hcompress⟩ := Option.bind_eq_some_iff.mp hflush
  obtain ⟨htargets, -, hmerged⟩ := insertBatch_merged hsorted hbatch
  rw [compress_eq, htargets] at hcompress
  exact ⟨placed.sample_, hmerged, Option.some.inj hcompress ▸ rfl⟩

end Promcore.CKMSQuantiles
