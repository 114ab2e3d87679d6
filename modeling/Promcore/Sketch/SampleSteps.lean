import Promcore.Library.LabelledSteps
import Promcore.Sketch.CKMSQuantiles

/-!
# What a flush does to the sample

Whatever the indices of the two loops are, each change of the sample is one of
three steps: a value seeds an empty sample, a value is placed at a sorted
position, or an item is merged into its successor.
-/

namespace Promcore.CKMSQuantiles

open LabelledSteps

variable {α : Type} [LinearOrder α] (quantiles_ : List Quantile)

/-- One change of the sample; the label is the value it accounts for. -/
inductive SampleStep : List (Item α) → Option α → List (Item α) → Prop
  | seed (v : α) : SampleStep [] (some v) [⟨v, 1, 0⟩]
  | place (pre post : List (Item α)) (v : α) (hne : pre ++ post ≠ [])
      (hpre : ∀ x ∈ pre, x.value ≤ v) (hpost : ∀ x ∈ post, v ≤ x.value) :
      SampleStep (pre ++ post) (some v)
        (pre ++ ⟨v, 1, insertDelta quantiles_ (pre ++ post).length pre.length⟩ :: post)
  | merge (pre post : List (Item α)) (a b : Item α)
      (hfits : ((a.g + b.g + b.delta : ℤ) : ℚ) ≤
        allowableError quantiles_ (pre ++ a :: b :: post).length (pre.length + 1 : ℕ)) :
      SampleStep (pre ++ a :: b :: post) none (pre ++ { b with g := b.g + a.g } :: post)

/-- Finitely many changes, with the values they account for. -/
abbrev SampleSteps : List (Item α) → List α → List (Item α) → Prop :=
  Steps (SampleStep quantiles_)

theorem insertIdx_append_length {ι : Type*} (pre post : List ι) (x : ι) :
    (pre ++ post).insertIdx pre.length x = pre ++ x :: post := by
  induction pre with
  | nil => simp
  | cons y pre ih => simpa using ih

/-- A sorted sample stays sorted when an item is put at its place. -/
theorem sorted_insert {left right : List (Item α)} {x : Item α}
    (h : (left ++ right).Pairwise (·.value ≤ ·.value)) (hleft : ∀ y ∈ left, y.value ≤ x.value)
    (hright : ∀ y ∈ right, x.value ≤ y.value) :
    (left ++ x :: right).Pairwise (·.value ≤ ·.value) := by
  obtain ⟨hsortedl, hsortedr, hcross⟩ := List.pairwise_append.mp h
  refine List.pairwise_append.mpr ⟨hsortedl, List.pairwise_cons.mpr ⟨hright, hsortedr⟩, ?_⟩
  intro y hy z hz
  obtain rfl | hz := List.mem_cons.mp hz
  · exact hleft y hy
  · exact hcross y hy z hz

/-- The `while` loop passes items below `v` and stops at the last item below
`v`, or at the first item not below it. -/
theorem advance_spec (v : α) (pre post : List (Item α)) (cur : Item α) :
    ∃ passed cur' post', cur :: post = passed ++ cur' :: post' ∧
      advance (pre ++ cur :: post) v pre.length (pre.length + 1) =
        some ((pre ++ passed).length, (pre ++ passed).length + 1) ∧
      (∀ x ∈ passed, x.value < v) ∧ (cur'.value < v → post' = []) := by
  induction post generalizing pre cur with
  | nil =>
      refine ⟨[], cur, [], rfl, ?_, by simp, fun _ => rfl⟩
      rw [advance, if_neg (by simp), List.append_nil]
  | cons next post ih =>
      rw [advance, if_pos (by simp)]
      simp only [List.getElem?_append_right (le_refl pre.length), Nat.sub_self,
        List.getElem?_cons_zero, Option.bind_eq_bind, Option.bind_some]
      by_cases hlt : cur.value < v
      · rw [if_pos hlt]
        obtain ⟨passed, cur', post', heq, hrun, hpassed, hstop⟩ := ih (pre ++ [cur]) next
        rw [List.append_assoc, List.singleton_append] at hrun
        refine ⟨cur :: passed, cur', post', congrArg (cur :: ·) heq, by simpa using hrun, ?_, hstop⟩
        exact List.forall_mem_cons.mpr ⟨hlt, hpassed⟩
      · rw [if_neg hlt]
        exact ⟨[], cur, next :: post, rfl, by rw [List.append_nil], by simp, fun h => absurd h hlt⟩

/-- One buffered value goes before the item stopped at, if that is larger, else
behind it, and the indices then point at the value. -/
theorem insertValue_place (v : α) (pre post : List (Item α)) (cur : Item α) :
    ∃ passed cur' post', cur :: post = passed ++ cur' :: post' ∧
      (∀ x ∈ passed, x.value < v) ∧ (cur'.value < v → post' = []) ∧
      ∃ left right, pre ++ cur :: post = left ++ right ∧
        (cur'.value > v ∧ left = pre ++ passed ∧ right = cur' :: post' ∨
          ¬ cur'.value > v ∧ left = pre ++ passed ++ [cur'] ∧ right = post') ∧
        insertValue quantiles_ (pre ++ cur :: post) pre.length (pre.length + 1) v =
          some (left ++ ⟨v, 1, insertDelta quantiles_ (left ++ right).length left.length⟩ :: right,
            left.length, left.length + 1) := by
  obtain ⟨passed, cur', post', heq, hrun, hpassed, hstop⟩ := advance_spec v pre post cur
  refine ⟨passed, cur', post', heq, hpassed, hstop, ?_⟩
  have hsplit : pre ++ cur :: post = (pre ++ passed) ++ cur' :: post' := by
    rw [heq, List.append_assoc]
  generalize pre ++ passed = front at hrun hsplit ⊢
  have hget : (front ++ cur' :: post')[front.length]? = some cur' := by simp
  by_cases hgt : cur'.value > v
  · -- step back: the value goes before the item it was compared with
    refine ⟨front, cur' :: post', hsplit, Or.inl ⟨hgt, rfl, rfl⟩, ?_⟩
    simp only [insertValue, hrun, Option.bind_eq_bind, Option.bind_some]
    rw [hsplit, hget]
    simp [hgt, decrement, emplace, insertIdx_append_length]
  · refine ⟨front ++ [cur'], post', by simpa using hsplit, Or.inr ⟨hgt, rfl, rfl⟩, ?_⟩
    simp only [insertValue, hrun, Option.bind_eq_bind, Option.bind_some]
    rw [hsplit, hget]
    have hplace : ∀ x : Item α, (front ++ cur' :: post').insertIdx (front.length + 1) x =
        front ++ cur' :: x :: post' := fun x => by
      simpa using insertIdx_append_length (front ++ [cur']) post' x
    simp [hgt, emplace, hplace]

/-- One buffered value goes behind the items passed, an item not above it among
them, and the indices then point at it. -/
theorem insertValue_passed (v : α) (pre post : List (Item α)) (cur : Item α)
    (hsorted : (cur :: post).Pairwise (·.value ≤ ·.value)) :
    ∃ passed right, cur :: post = passed ++ right ∧ (cur.value ≤ v → passed ≠ []) ∧
      (∀ x ∈ passed, x.value ≤ v) ∧ (∀ x ∈ right, v ≤ x.value) ∧
      insertValue quantiles_ (pre ++ cur :: post) pre.length (pre.length + 1) v =
        some (pre ++ passed ++ ⟨v, 1, insertDelta quantiles_ (pre ++ cur :: post).length
          (pre ++ passed).length⟩ :: right, (pre ++ passed).length, (pre ++ passed).length + 1) := by
  obtain ⟨passed, cur', post', heq, hpassed, hstop, left, right, hsplit, hplace, hrun⟩ :=
    insertValue_place quantiles_ v pre post cur
  rw [← hsplit] at hrun
  have hpost' : ∀ x ∈ post', cur'.value ≤ x.value := by
    rw [heq] at hsorted
    exact (List.pairwise_cons.mp (List.pairwise_append.mp hsorted).2.1).1
  obtain ⟨hgt, rfl, rfl⟩ | ⟨hle, rfl, rfl⟩ := hplace
  · refine ⟨passed, cur' :: post', heq, fun hcur hnil => ?_, fun x hx => (hpassed x hx).le,
      List.forall_mem_cons.mpr ⟨hgt.le, fun x hx => hgt.le.trans (hpost' x hx)⟩, hrun⟩
    rw [hnil, List.nil_append, List.cons.injEq] at heq
    exact absurd (heq.1 ▸ hcur) (not_le.mpr hgt)
  · rw [List.append_assoc pre passed [cur']] at hrun
    refine ⟨passed ++ [cur'], right, by simpa using heq, by simp, ?_, fun x hx => ?_, hrun⟩
    · exact List.forall_mem_append.mpr ⟨fun x hx => (hpassed x hx).le, by simpa using hle⟩
    · obtain hlt | heqv := (not_lt.mp hle).lt_or_eq
      · rw [hstop hlt] at hx
        simp at hx
      · exact heqv ▸ hpost' x hx

/-- One buffered value is placed at a sorted position, and the indices then
point at it. -/
theorem insertValue_spec (v : α) (pre post : List (Item α)) (cur : Item α)
    (hsorted : (pre ++ cur :: post).Pairwise (·.value ≤ ·.value))
    (hpre : ∀ x ∈ pre, x.value ≤ v) :
    ∃ left right, pre ++ cur :: post = left ++ right ∧
      (∀ x ∈ left, x.value ≤ v) ∧ (∀ x ∈ right, v ≤ x.value) ∧
      insertValue quantiles_ (pre ++ cur :: post) pre.length (pre.length + 1) v =
        some (left ++ ⟨v, 1, insertDelta quantiles_ (left ++ right).length left.length⟩ :: right,
          left.length, left.length + 1) := by
  obtain ⟨passed, right, heq, -, hpassed, hright, hrun⟩ :=
    insertValue_passed quantiles_ v pre post cur (List.pairwise_append.mp hsorted).2.1
  have hsplit : pre ++ cur :: post = pre ++ passed ++ right := by rw [heq, List.append_assoc]
  refine ⟨pre ++ passed, right, hsplit, List.forall_mem_append.mpr ⟨hpre, hpassed⟩, hright, ?_⟩
  rw [hrun, hsplit]

/-- The `for` loop places a sorted batch. -/
theorem insertValues_spec (vs : List α) (pre post : List (Item α)) (cur : Item α)
    (hsorted : (pre ++ cur :: post).Pairwise (·.value ≤ ·.value))
    (hvs : vs.Pairwise (· ≤ ·)) (hpre : ∀ v ∈ vs, ∀ x ∈ pre, x.value ≤ v) :
    ∃ sample', insertValues quantiles_ vs (pre ++ cur :: post) pre.length (pre.length + 1) =
        some sample' ∧ SampleSteps quantiles_ (pre ++ cur :: post) vs sample' := by
  induction vs generalizing pre cur post with
  | nil => exact ⟨_, rfl, Steps.refl _⟩
  | cons v vs ih =>
      obtain ⟨left, right, heq, hleft, hright, hrun⟩ := insertValue_spec quantiles_ v pre post cur
        hsorted (hpre v List.mem_cons_self)
      have hvs' := List.pairwise_cons.mp hvs
      obtain ⟨sample', hrest, hsteps⟩ := ih left right
        ⟨v, 1, insertDelta quantiles_ (left ++ right).length left.length⟩
        (sorted_insert (heq ▸ hsorted) hleft hright) hvs'.2 (fun w hw x hx => (hleft x hx).trans (hvs'.1 w hw))
      refine ⟨sample', ?_, Steps.shown ?_ hsteps⟩
      · simpa only [insertValues, hrun, Option.bind_eq_bind, Option.bind_some] using hrest
      · rw [heq]
        exact SampleStep.place left right v (heq ▸ by simp) hleft hright

/-- An empty buffer is the loop over no values. -/
theorem insertBatch_eq (s : CKMSQuantiles α) :
    s.insertBatch = (insertValues s.quantiles_ (seed s.sample_ (s.buffer_.insertionSort (· ≤ ·))).2
      (seed s.sample_ (s.buffer_.insertionSort (· ≤ ·))).1 0 1).map fun sample_ =>
        ⟨s.quantiles_, s.count_ + s.buffer_count_, sample_, []⟩ := by
  unfold insertBatch
  split
  · next hempty =>
      obtain ⟨quantiles_, count_, sample_, buffer_⟩ := s
      obtain rfl : buffer_ = [] := List.eq_nil_of_length_eq_zero hempty
      cases sample_ <;> rfl
  · rw [Option.map_eq_bind]
    rfl

/-- Emptying the buffer is the loop over its values in order; the first of them
seeds an empty sample. -/
theorem insertBatch_cases {s placed : CKMSQuantiles α} (hrun : s.insertBatch = some placed) :
    placed.quantiles_ = s.quantiles_ ∧ ∃ values, values.Perm s.buffer_ ∧ values.Pairwise (· ≤ ·) ∧
      (s.sample_ = [] ∧ values = [] ∧ placed.sample_ = [] ∨
        (∃ b bs, s.sample_ = [] ∧ values = b :: bs ∧
          insertValues s.quantiles_ bs [⟨b, 1, 0⟩] 0 1 = some placed.sample_) ∨
        ∃ cur post, s.sample_ = cur :: post ∧
          insertValues s.quantiles_ values (cur :: post) 0 1 = some placed.sample_) := by
  rw [insertBatch_eq, Option.map_eq_some_iff] at hrun
  obtain ⟨sample', hrun, rfl⟩ := hrun
  refine ⟨rfl, _, List.perm_insertionSort (· ≤ ·) s.buffer_,
    List.pairwise_insertionSort (· ≤ ·) s.buffer_, ?_⟩
  generalize s.buffer_.insertionSort (· ≤ ·) = values at hrun ⊢
  cases hsample : s.sample_ with
  | nil =>
      rw [hsample] at hrun
      cases values with
      | nil => exact Or.inl ⟨rfl, rfl, (Option.some.inj hrun).symm⟩
      | cons b bs => exact Or.inr (Or.inl ⟨b, bs, rfl, rfl, hrun⟩)
  | cons cur post =>
      rw [hsample] at hrun
      exact Or.inr (Or.inr ⟨cur, post, rfl, hrun⟩)

/-- The sketch with its buffer emptied into the sample, in sorted order. -/
theorem insertBatch_spec (s : CKMSQuantiles α) (hsorted : s.sample_.Pairwise (·.value ≤ ·.value)) :
    ∃ sample', s.insertBatch =
        some ⟨s.quantiles_, s.count_ + s.buffer_count_, sample', []⟩ ∧
      SampleSteps s.quantiles_ s.sample_ (s.buffer_.insertionSort (· ≤ ·)) sample' := by
  have hvs := List.pairwise_insertionSort (· ≤ ·) s.buffer_
  rw [insertBatch_eq]
  generalize s.buffer_.insertionSort (· ≤ ·) = values at hvs ⊢
  cases hsample : s.sample_ with
  | nil =>
      cases values with
      | nil => exact ⟨[], rfl, Steps.refl _⟩
      | cons b bs =>
          obtain ⟨sample', hrun, hsteps⟩ := insertValues_spec s.quantiles_ bs [] [] ⟨b, 1, 0⟩
            (by simp) (List.pairwise_cons.mp hvs).2 (by simp)
          simp only [List.nil_append, List.length_nil, zero_add] at hrun
          refine ⟨sample', ?_, Steps.shown (SampleStep.seed b) hsteps⟩
          simp [seed, hrun]
  | cons cur post =>
      rw [hsample] at hsorted
      obtain ⟨sample', hrun, hsteps⟩ := insertValues_spec s.quantiles_ values [] post cur
        hsorted hvs (by simp)
      simp only [List.nil_append, List.length_nil, zero_add] at hrun
      refine ⟨sample', ?_, hsteps⟩
      simp [seed, hrun]

/-- One pass of merges from position `i` on: the item there is `prev`, or the
next one of the list just after a merge, since a merged item is not looked at
again. -/
def mergePass : ℕ → Option (Item α) → List (Item α) → List (Item α)
  | _, none, [] => []
  | i, none, follow :: rest => mergePass i (some follow) rest
  | _, some prev, [] => [prev]
  | i, some prev, next :: rest =>
      if ((prev.g + next.g + next.delta : ℤ) : ℚ) ≤
          allowableError quantiles_ (i + 2 + rest.length) (i + 1 : ℕ) then
        { next with g := next.g + prev.g } :: mergePass (i + 1) none rest
      else prev :: mergePass (i + 1) (some next) rest

omit [LinearOrder α] in
/-- The index loop of `compress` is the pass over the list. -/
theorem compressLoop_spec (pre rest : List (Item α)) (prev : Item α) :
    compressLoop quantiles_ (pre ++ prev :: rest) pre.length (pre.length + 1) =
      some (pre ++ mergePass quantiles_ pre.length (some prev) rest) := by
  induction hn : rest.length using Nat.strong_induction_on generalizing pre prev rest with
  | _ n ih =>
    subst hn
    cases rest with
    | nil =>
        rw [compressLoop, if_neg (by simp)]
        rfl
    | cons next rest =>
        have hprev : (pre ++ prev :: next :: rest)[pre.length]? = some prev := by simp
        have hnext : (pre ++ prev :: next :: rest)[pre.length + 1]? = some next := by simp
        have hlen : (pre ++ prev :: next :: rest).length = pre.length + 2 + rest.length := by
          simp only [List.length_append, List.length_cons]
          omega
        rw [compressLoop, if_pos (by simp), mergePass]
        simp only [hprev, hnext, Option.bind_eq_bind, Option.bind_some, hlen]
        split
        · have hmerge : ∀ x : Item α, ((pre ++ prev :: next :: rest).set (pre.length + 1) x).eraseIdx
              pre.length = pre ++ x :: rest := fun x => by
            simp [List.set_append_right, List.eraseIdx_append_of_length_le]
          rw [hmerge]
          cases rest with
          | nil =>
              rw [compressLoop, if_neg (by simp)]
              rfl
          | cons follow rest =>
              have htail := ih rest.length (by simp) (pre ++ [{ next with g := next.g + prev.g }])
                rest follow rfl
              simp only [List.append_assoc, List.singleton_append, List.length_append,
                List.length_singleton] at htail
              exact htail
        · simpa using ih rest.length (by simp) (pre ++ [prev]) rest next rfl

/-- A pass of `compress` is a sequence of merges. -/
theorem mergePass_steps (pre rest : List (Item α)) (prev : Option (Item α)) :
    SampleSteps quantiles_ (pre ++ (prev.toList ++ rest)) []
      (pre ++ mergePass quantiles_ pre.length prev rest) := by
  induction rest generalizing pre prev with
  | nil => cases prev <;> exact Steps.refl _
  | cons next rest ih =>
      cases prev with
      | none => exact ih pre (some next)
      | some prev =>
          simp only [mergePass]
          split
          · rename_i hfits
            have hlen : pre.length + 2 + rest.length = (pre ++ prev :: next :: rest).length := by
              simp only [List.length_append, List.length_cons]
              omega
            rw [hlen] at hfits
            refine Steps.silent (SampleStep.merge pre rest prev next hfits) ?_
            have htail := ih (pre ++ [{ next with g := next.g + prev.g }]) none
            simp only [List.append_assoc, List.singleton_append, List.length_append,
              List.length_singleton, Option.toList_none, List.nil_append] at htail
            exact htail
          · simpa using ih (pre ++ [prev]) (some next)

omit [LinearOrder α] in
theorem compress_eq (s : CKMSQuantiles α) :
    s.compress = some { s with sample_ := mergePass s.quantiles_ 0 none s.sample_ } := by
  obtain ⟨quantiles_, count_, sample_, buffer_⟩ := s
  cases sample_ with
  | nil => rfl
  | cons prev rest =>
      have hrun := compressLoop_spec quantiles_ [] rest prev
      simp only [List.nil_append, List.length_nil, zero_add] at hrun
      cases rest with
      | nil => rfl
      | cons next rest => simp [compress, mergePass, hrun]

theorem compress_spec (s : CKMSQuantiles α) :
    ∃ sample', s.compress = some { s with sample_ := sample' } ∧
      SampleSteps s.quantiles_ s.sample_ [] sample' :=
  ⟨_, s.compress_eq, mergePass_steps s.quantiles_ [] s.sample_ none⟩

/-- Empty the buffer into the sample and run one pass of merges, as every read
and every full buffer does. -/
def flush (s : CKMSQuantiles α) : Option (CKMSQuantiles α) := do
  let s ← s.insertBatch
  s.compress

theorem flush_spec (s : CKMSQuantiles α) (hsorted : s.sample_.Pairwise (·.value ≤ ·.value)) :
    ∃ sample', s.flush = some ⟨s.quantiles_, s.count_ + s.buffer_count_, sample', []⟩ ∧
      SampleSteps s.quantiles_ s.sample_ (s.buffer_.insertionSort (· ≤ ·)) sample' := by
  obtain ⟨placed, hbatch, hplaced⟩ := insertBatch_spec s hsorted
  obtain ⟨merged, hcompress, hmerged⟩ :=
    compress_spec (⟨s.quantiles_, s.count_ + s.buffer_count_, placed, []⟩ : CKMSQuantiles α)
  refine ⟨merged, by simp [flush, hbatch, hcompress], ?_⟩
  simpa using hplaced.trans hmerged

/-- What `get` reads from a flushed sketch. -/
def read (s : CKMSQuantiles α) (q : ℚ) : Option α :=
  match s.sample_ with
  | [] => none
  | cur :: rest => some (scan (s.bound q) 0 cur rest)

theorem get_eq_flush (s : CKMSQuantiles α) (q : ℚ) :
    s.get q = s.flush.map fun s => (s, s.read q) := by
  simp only [get, flush, read, Option.bind_eq_bind]
  cases s.insertBatch with
  | none => rfl
  | some s =>
      simp only [Option.bind_some]
      cases s.compress with
      | none => rfl
      | some s =>
          obtain ⟨quantiles_, count_, sample_, buffer_⟩ := s
          cases sample_ <;> rfl

theorem insert_eq_flush (s : CKMSQuantiles α) (value : α) (h : s.buffer_count_ < bufferSize) :
    s.insert value = if s.buffer_count_ + 1 = bufferSize then
      flush { s with buffer_ := s.buffer_ ++ [value] }
      else some { s with buffer_ := s.buffer_ ++ [value] } := by
  have hcount : ({ s with buffer_ := s.buffer_ ++ [value] } : CKMSQuantiles α).buffer_count_ =
      s.buffer_count_ + 1 := by simp [buffer_count_]
  rw [insert, if_pos h]
  simp only [hcount]
  rfl

end Promcore.CKMSQuantiles
