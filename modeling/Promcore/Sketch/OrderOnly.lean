import Mathlib.Order.Monotone.Basic
import Promcore.Sketch.SampleSteps

/-!
# The sketch only compares values

Ranks, errors and positions do not look at the values, and the values are only
compared with each other. So a strictly increasing map of all values, such as
a change of units, can be made before or after any call.
-/

namespace Promcore

variable {α β : Type}

/-- An item with another value. -/
def Item.map (f : α → β) (x : Item α) : Item β := ⟨f x.value, x.g, x.delta⟩

@[simp] theorem Item.map_value (f : α → β) (x : Item α) : (x.map f).value = f x.value := rfl

@[simp] theorem Item.map_g (f : α → β) (x : Item α) : (x.map f).g = x.g := rfl

@[simp] theorem Item.map_delta (f : α → β) (x : Item α) : (x.map f).delta = x.delta := rfl

namespace CKMSQuantiles

/-- The sketch with its values mapped. -/
def map (f : α → β) (s : CKMSQuantiles α) : CKMSQuantiles β :=
  ⟨s.quantiles_, s.count_, s.sample_.map (Item.map f), s.buffer_.map f⟩

variable [LinearOrder α] [LinearOrder β] {f : α → β} (quantiles_ : List Quantile)

theorem advance_map (hf : StrictMono f) (sample_ : List (Item α)) (v : α) (item idx : ℕ) :
    advance (sample_.map (Item.map f)) (f v) item idx = advance sample_ v item idx := by
  fun_induction advance sample_ v item idx with
  | case1 item idx hlt ih =>
      rw [advance, if_pos (by simpa using hlt), List.getElem?_map]
      cases sample_[item]? with
      | none => rfl
      | some cur =>
          simp only [Option.map_some, Option.bind_eq_bind, Option.bind_some, Item.map_value,
            hf.lt_iff_lt, ih]
  | case2 item idx hge => rw [advance, if_neg (by simpa using hge)]

omit [LinearOrder α] [LinearOrder β] in
theorem emplace_map (sample_ : List (Item α)) (idx : ℕ) (x : Item α) :
    emplace (sample_.map (Item.map f)) idx (x.map f) =
      (emplace sample_ idx x).map (List.map (Item.map f)) := by
  rw [emplace, emplace, List.length_map]
  split
  · rw [Option.map_some, List.map_insertIdx]
  · rfl

theorem insertValue_map (hf : StrictMono f) (sample_ : List (Item α)) (item idx : ℕ) (v : α) :
    insertValue quantiles_ (sample_.map (Item.map f)) item idx (f v) =
      (insertValue quantiles_ sample_ item idx v).map fun r => (r.1.map (Item.map f), r.2) := by
  have hplaced (idx : ℕ) :
      ((emplace (sample_.map (Item.map f)) idx
        ⟨f v, 1, insertDelta quantiles_ sample_.length idx⟩).bind fun sample_ =>
          some (sample_, idx, idx + 1)) =
      ((emplace sample_ idx ⟨v, 1, insertDelta quantiles_ sample_.length idx⟩).bind fun sample_ =>
        some (sample_, idx, idx + 1)).map fun r => (r.1.map (Item.map f), r.2) := by
    have hemplace := emplace_map (f := f) sample_ idx
      ⟨v, 1, insertDelta quantiles_ sample_.length idx⟩
    rw [Item.map] at hemplace
    rw [hemplace, Option.bind_map, Option.map_bind]
    rfl
  rw [insertValue, insertValue, advance_map hf]
  cases advance sample_ v item idx with
  | none => rfl
  | some place =>
      simp only [Option.bind_eq_bind, Option.bind_some, List.getElem?_map, List.length_map]
      cases sample_[place.1]? with
      | none => rfl
      | some cur =>
          simp only [Option.map_some, Option.bind_some, Item.map_value, gt_iff_lt, hf.lt_iff_lt]
          split
          · cases decrement place.2 with
            | none => rfl
            | some idx => exact hplaced idx
          · exact hplaced place.2

theorem insertValues_map (hf : StrictMono f) (vs : List α) (sample_ : List (Item α))
    (item idx : ℕ) :
    insertValues quantiles_ (vs.map f) (sample_.map (Item.map f)) item idx =
      (insertValues quantiles_ vs sample_ item idx).map (List.map (Item.map f)) := by
  induction vs generalizing sample_ item idx with
  | nil => rfl
  | cons v vs ih =>
      simp only [List.map_cons, insertValues, insertValue_map quantiles_ hf, Option.bind_eq_bind,
        Option.bind_map, Option.map_bind]
      congr 1
      ext1 placed
      exact ih _ _ _

omit [LinearOrder α] [LinearOrder β] in
theorem seed_map (sample_ : List (Item α)) (buffer : List α) :
    seed (sample_.map (Item.map f)) (buffer.map f) =
      ((seed sample_ buffer).1.map (Item.map f), (seed sample_ buffer).2.map f) := by
  cases sample_ <;> cases buffer <;> rfl

theorem insertBatch_map (hf : StrictMono f) (s : CKMSQuantiles α) :
    (s.map f).insertBatch = s.insertBatch.map (map f) := by
  have hsort : (s.buffer_.map f).insertionSort (· ≤ ·) =
      (s.buffer_.insertionSort (· ≤ ·)).map f :=
    (List.map_insertionSort _ _ f s.buffer_ fun a _ b _ => hf.le_iff_le.symm).symm
  have hcount : (s.map f).buffer_count_ = s.buffer_count_ := List.length_map _
  rw [insertBatch, insertBatch, hcount]
  split
  · rfl
  · simp only [map, hsort, seed_map, insertValues_map s.quantiles_ hf, Option.bind_eq_bind,
      Option.bind_map, Option.map_bind]
    rfl

omit [LinearOrder α] [LinearOrder β] in
theorem compressLoop_map (sample_ : List (Item α)) (next idx : ℕ) :
    compressLoop quantiles_ (sample_.map (Item.map f)) next idx =
      (compressLoop quantiles_ sample_ next idx).map (List.map (Item.map f)) := by
  fun_induction compressLoop quantiles_ sample_ next idx with
  | case1 sample_ next idx hlt ih₁ ih₂ =>
      rw [compressLoop, if_pos (by simpa using hlt)]
      simp only [List.getElem?_map, List.length_map]
      cases sample_[next]? with
      | none => rfl
      | some prevItem =>
          cases sample_[idx]? with
          | none => rfl
          | some nextItem =>
              have hmerged := ih₁ prevItem nextItem
              rw [← List.eraseIdx_map, List.map_set] at hmerged
              have htest : (((prevItem.map f).g + (nextItem.map f).g + (nextItem.map f).delta : ℤ) :
                  ℚ) ≤ allowableError quantiles_ sample_.length idx ↔
                ((prevItem.g + nextItem.g + nextItem.delta : ℤ) : ℚ) ≤
                  allowableError quantiles_ sample_.length idx := Iff.rfl
              simp only [Option.bind_eq_bind, Option.map_some, Option.bind_some]
              by_cases hfits : ((prevItem.g + nextItem.g + nextItem.delta : ℤ) : ℚ) ≤
                  allowableError quantiles_ sample_.length idx
              · rw [if_pos hfits, if_pos (htest.mpr hfits)]
                exact hmerged
              · rw [if_neg hfits, if_neg (mt htest.mp hfits)]
                exact ih₂
  | case2 sample_ next idx hge => rw [compressLoop, if_neg (by simpa using hge)]; rfl

omit [LinearOrder α] [LinearOrder β] in
theorem compress_map (s : CKMSQuantiles α) : (s.map f).compress = s.compress.map (map f) := by
  rw [compress, compress]
  change (if (s.sample_.map (Item.map f)).length < 2 then _ else _) = _
  rw [List.length_map]
  split
  · rfl
  · simp only [map, compressLoop_map, Option.bind_eq_bind, Option.bind_map, Option.map_bind]
    rfl

theorem insert_map (hf : StrictMono f) (s : CKMSQuantiles α) (value : α) :
    (s.map f).insert (f value) = (s.insert value).map (map f) := by
  have hcount (s : CKMSQuantiles α) : (s.map f).buffer_count_ = s.buffer_count_ :=
    List.length_map _
  have hwritten : { s.map f with buffer_ := (s.map f).buffer_ ++ [f value] } =
      { s with buffer_ := s.buffer_ ++ [value] }.map f := by simp [map]
  rw [insert, insert, hcount]
  split
  · simp only [hwritten, hcount, insertBatch_map hf]
    split
    · simp only [Option.bind_eq_bind, Option.bind_map, Option.map_bind]
      congr 1
      ext1 s
      exact compress_map s
    · rfl
  · rfl

omit [LinearOrder α] [LinearOrder β] in
theorem scan_map (bound : ℚ) (rankMin : ℤ) (cur : Item α) (rest : List (Item α)) :
    scan bound rankMin (cur.map f) (rest.map (Item.map f)) = f (scan bound rankMin cur rest) := by
  induction rest generalizing rankMin cur with
  | nil => rfl
  | cons next rest ih =>
      rw [List.map_cons, scan, scan, ih, apply_ite f]
      rfl

theorem get_map (hf : StrictMono f) (s : CKMSQuantiles α) (q : ℚ) :
    (s.map f).get q = (s.get q).map fun r => (r.1.map f, r.2.map f) := by
  rw [get, get, insertBatch_map hf]
  cases s.insertBatch with
  | none => rfl
  | some s =>
      simp only [Option.map_some, Option.bind_eq_bind, Option.bind_some, compress_map]
      cases s.compress with
      | none => rfl
      | some s =>
          obtain ⟨quantiles_, count_, sample_, buffer_⟩ := s
          cases sample_ with
          | nil => rfl
          | cons cur rest =>
              have hbound : bound (map f ⟨quantiles_, count_, cur :: rest, buffer_⟩) q =
                  bound ⟨quantiles_, count_, cur :: rest, buffer_⟩ q := by
                simp [bound, desired, map]
              simp only [map, List.map_cons] at hbound
              simp only [map, Option.map_some, Option.bind_some, List.map_cons, hbound, scan_map]
              rfl

end CKMSQuantiles

end Promcore
