import Promcore.Library.Traced
import Promcore.Sketch.CKMSQuantiles

/-!
# The accesses of the sketch

The sketch's code once more, with a record of every index it uses and of every
value it stores in an `int`. Erasing the record gives the sketch back.

## Implementation notes

An access to the sample holds the size at that moment. An emplace holds the
value placed, an erase the item removed and the item it was merged into.
-/

namespace Promcore.CKMSQuantiles

open Traced

/-- One access, or one `int`. -/
inductive Access (α : Type) where
  /-- `buffer_[index] = value`. -/
  | write (index : ℕ)
  /-- The read `buffer_[index]`. -/
  | take (index : ℕ)
  /-- The head of the `for` loop. -/
  | head (item idx : ℕ)
  /-- The read `sample_[index]`. -/
  | read (index size : ℕ)
  /-- `--idx`. -/
  | decrement (idx : ℕ)
  /-- `sample_.emplace(sample_.begin() + index, value, ..)`. -/
  | emplace (index size : ℕ) (value : α)
  /-- The indices of one test in `compress`. -/
  | pair (prev next : ℕ)
  /-- `sample_.erase(sample_.begin() + index)`. -/
  | erase (index size : ℕ) (erased kept : Item α)
  /-- The unsigned `size - rank`. -/
  | subtract (size : ℕ) (rank : ℤ)
  /-- A value stored in an `int`. -/
  | int (x : ℤ)
deriving DecidableEq

namespace Watched

variable {α : Type}

def errorAt (q : Quantile) (size : ℕ) (rank : ℤ) : Traced (Access α) ℚ :=
  if (rank : ℚ) ≤ q.quantile * size then do
    act (.subtract size rank)
    return q.u * sizeMinus size rank
  else return q.v * rank

/-- The rank is an `int` parameter. -/
def allowableError (quantiles_ : List Quantile) (size : ℕ) (rank : ℤ) :
    Traced (Access α) ℚ := do
  act (.int rank)
  quantiles_.foldlM (fun minError q => do
    let error ← errorAt q size rank
    return if error < minError then error else minError) (size + 1)

def read (sample_ : List (Item α)) (index : ℕ) : Traced (Access α) (Item α) :=
  attempt (.read index sample_.length) sample_[index]?

section Sample

variable [LinearOrder α] (quantiles_ : List Quantile)

def advance (sample_ : List (Item α)) (v : α) (item idx : ℕ) : Traced (Access α) (ℕ × ℕ) :=
  if idx < sample_.length then do
    let cur ← read sample_ item
    if cur.value < v then advance sample_ v idx (idx + 1) else return (item, idx)
  else return (item, idx)
termination_by sample_.length - idx

def insertDelta (size idx : ℕ) : Traced (Access α) ℤ :=
  if idx = 1 ∨ idx + 1 = size then return 0
  else do
    let error ← allowableError quantiles_ size ((idx + 1 : ℕ) : ℤ)
    act (.int ⌊error⌋)
    return ⌊error⌋ + 1

/-- `--idx` where the item stopped at is larger. -/
def stepBack (cur : Item α) (v : α) (idx : ℕ) : Traced (Access α) ℕ :=
  if cur.value > v then attempt (.decrement idx) (decrement idx) else return idx

def insertValue (sample_ : List (Item α)) (item idx : ℕ) (v : α) :
    Traced (Access α) (List (Item α) × ℕ × ℕ) := do
  act (.head item idx)
  let (item, idx) ← advance sample_ v item idx
  let cur ← read sample_ item
  let idx ← stepBack cur v idx
  let delta ← insertDelta quantiles_ sample_.length idx
  act (.int delta)
  let sample_ ← attempt (.emplace idx sample_.length v) (emplace sample_ idx ⟨v, 1, delta⟩)
  return (sample_, idx, idx + 1)

/-- The `for` loop from buffer index `i` on. -/
def insertValues : ℕ → List α → List (Item α) → ℕ → ℕ → Traced (Access α) (List (Item α))
  | _, [], sample_, _, _ => return sample_
  | i, v :: vs, sample_, item, idx => do
      act (.take i)
      let (sample_, item, idx) ← insertValue quantiles_ sample_ item idx v
      insertValues (i + 1) vs sample_ item idx

/-- The sample, the buffer index and the values to start the `for` loop with. -/
def seed : List (Item α) → List α → Traced (Access α) (List (Item α) × ℕ × List α)
  | [], b :: bs => do
      act (.take 0)
      act (.emplace 0 0 b)
      return ([⟨b, 1, 0⟩], 1, bs)
  | sample_, buffer => return (sample_, 0, buffer)

def insertBatch (s : CKMSQuantiles α) : Traced (Access α) (CKMSQuantiles α) :=
  if s.buffer_count_ = 0 then return s
  else do
    let (sample_, start, values) ← seed s.sample_ (s.buffer_.insertionSort (· ≤ ·))
    let sample_ ← insertValues s.quantiles_ start values sample_ 0 1
    return ⟨s.quantiles_, s.count_ + s.buffer_count_, sample_, []⟩

def compressLoop (sample_ : List (Item α)) (next idx : ℕ) : Traced (Access α) (List (Item α)) :=
  if idx < sample_.length then do
    act (.pair next idx)
    let prevItem ← read sample_ next
    let nextItem ← read sample_ idx
    act (.int (prevItem.g + nextItem.g))
    act (.int (prevItem.g + nextItem.g + nextItem.delta))
    let error ← allowableError quantiles_ sample_.length idx
    if ((prevItem.g + nextItem.g + nextItem.delta : ℤ) : ℚ) ≤ error then do
      act (.int (nextItem.g + prevItem.g))
      act (.erase next sample_.length prevItem nextItem)
      compressLoop
        ((sample_.set idx { nextItem with g := nextItem.g + prevItem.g }).eraseIdx next)
        idx (idx + 1)
    else compressLoop sample_ idx (idx + 1)
  else return sample_
termination_by sample_.length - idx
decreasing_by
  · simp only [List.length_eraseIdx, List.length_set]
    split <;> omega
  · omega

def compress (s : CKMSQuantiles α) : Traced (Access α) (CKMSQuantiles α) :=
  if s.sample_.length < 2 then return s
  else do
    let sample_ ← compressLoop s.quantiles_ s.sample_ 0 1
    return { s with sample_ }

/-- The scan stores the rank before and the upper rank of each item stepped to. -/
def scan (bound : ℚ) (rankMin : ℤ) (cur : Item α) : List (Item α) → Traced (Access α) α
  | [] => return cur.value
  | next :: rest => do
      act (.int (rankMin + cur.g))
      act (.int (rankMin + cur.g + next.g))
      act (.int (rankMin + cur.g + next.g + next.delta))
      if bound < ((rankMin + cur.g + next.g + next.delta : ℤ) : ℚ) then return cur.value
      else scan bound (rankMin + cur.g) next rest

def insert (s : CKMSQuantiles α) (value : α) : Traced (Access α) (CKMSQuantiles α) := do
  let s ← attempt (.write s.buffer_count_)
    (if s.buffer_count_ < bufferSize then some { s with buffer_ := s.buffer_ ++ [value] } else none)
  if s.buffer_count_ = bufferSize then do
    let s ← insertBatch s
    compress s
  else return s

def get (s : CKMSQuantiles α) (q : ℚ) : Traced (Access α) (CKMSQuantiles α × Option α) := do
  let s ← insertBatch s
  let s ← compress s
  match s.sample_ with
  | [] => return (s, none)
  | cur :: rest => do
      act (.int (s.desired q))
      let error ← allowableError s.quantiles_ s.sample_.length (s.desired q)
      let value ← scan (s.desired q + error / 2) 0 cur rest
      return (s, some value)

def apply (s : CKMSQuantiles α) : Op α → Traced (Access α) (CKMSQuantiles α)
  | .insert value => insert s value
  | .get q => do
      let (s, _) ← get s q
      return s
  | .reset => return s.reset

def run (s : CKMSQuantiles α) (ops : List (Op α)) : Traced (Access α) (CKMSQuantiles α) :=
  ops.foldlM apply s

end Sample

section Erase

/-! Without the record each computation is the sketch's own. -/

variable [LinearOrder α] (quantiles_ : List Quantile)

omit [LinearOrder α] in
theorem value_errorAt (q : Quantile) (size : ℕ) (rank : ℤ) :
    (errorAt q size rank : Traced (Access α) ℚ).value = some (q.errorAt size rank) := by
  unfold errorAt Quantile.errorAt
  split <;> rfl

omit [LinearOrder α] in
theorem value_allowableError (size : ℕ) (rank : ℤ) :
    (allowableError quantiles_ size rank : Traced (Access α) ℚ).value =
      some (Promcore.allowableError quantiles_ size rank) := by
  have hloop : ∀ minError : ℚ, quantiles_.foldlM (fun minError q =>
      (errorAt q size rank >>= fun error => (pure (if error < minError then error else minError) :
        Traced (Access α) ℚ)).value) minError =
      some (quantiles_.foldl (fun minError q =>
        if q.errorAt size rank < minError then q.errorAt size rank else minError) minError) := by
    induction quantiles_ with
    | nil => exact fun _ => rfl
    | cons q qs ih =>
        intro minError
        simp only [value_bind, value_errorAt, Option.bind_some, value_pure, List.foldlM_cons,
          Option.bind_eq_bind, List.foldl_cons] at ih ⊢
        exact ih _
  rw [allowableError, value_bind, value_act, Option.bind_some, value_foldlM]
  exact hloop _

omit [LinearOrder α] in
@[simp] theorem value_read (sample_ : List (Item α)) (index : ℕ) :
    (read sample_ index).value = sample_[index]? := rfl

theorem value_advance (sample_ : List (Item α)) (v : α) (item idx : ℕ) :
    (advance sample_ v item idx).value = CKMSQuantiles.advance sample_ v item idx := by
  induction hn : sample_.length - idx using Nat.strong_induction_on generalizing item idx with
  | _ n ih =>
    subst hn
    rw [advance, CKMSQuantiles.advance]
    split
    · simp only [value_bind, value_read, Option.bind_eq_bind]
      congr 1
      funext cur
      split
      · exact ih _ (by omega) _ _ rfl
      · rfl
    · rfl

omit [LinearOrder α] in
theorem value_insertDelta (size idx : ℕ) :
    (insertDelta quantiles_ size idx : Traced (Access α) ℤ).value =
      some (CKMSQuantiles.insertDelta quantiles_ size idx) := by
  unfold insertDelta CKMSQuantiles.insertDelta
  split
  · rfl
  · simp [value_allowableError]

theorem value_stepBack (cur : Item α) (v : α) (idx : ℕ) :
    (stepBack cur v idx).value = if cur.value > v then decrement idx else some idx := by
  unfold stepBack
  split <;> rfl

theorem value_insertValue (sample_ : List (Item α)) (item idx : ℕ) (v : α) :
    (insertValue quantiles_ sample_ item idx v).value =
      CKMSQuantiles.insertValue quantiles_ sample_ item idx v := by
  simp only [insertValue, CKMSQuantiles.insertValue, value_bind, value_act, Option.bind_some,
    value_advance, value_read, value_stepBack, value_insertDelta, value_attempt, value_pure,
    Option.bind_eq_bind, Option.pure_def]
  congr 1
  funext stop
  congr 1
  funext cur
  split <;> rfl

theorem value_insertValues (i : ℕ) (vs : List α) (sample_ : List (Item α)) (item idx : ℕ) :
    (insertValues quantiles_ i vs sample_ item idx).value =
      CKMSQuantiles.insertValues quantiles_ vs sample_ item idx := by
  induction vs generalizing i sample_ item idx with
  | nil => rfl
  | cons v vs ih =>
      simp only [insertValues, CKMSQuantiles.insertValues, value_bind, value_act, Option.bind_some,
        value_insertValue, Option.bind_eq_bind, ih]

theorem value_insertBatch (s : CKMSQuantiles α) : (insertBatch s).value = s.insertBatch := by
  unfold insertBatch CKMSQuantiles.insertBatch
  split
  · rfl
  · obtain ⟨quantiles_, count_, sample_, buffer_⟩ := s
    generalize buffer_.insertionSort (· ≤ ·) = values
    cases sample_ <;> cases values <;>
      simp [seed, CKMSQuantiles.seed, value_insertValues]

omit [LinearOrder α] in
theorem value_compressLoop (sample_ : List (Item α)) (next idx : ℕ) :
    (compressLoop quantiles_ sample_ next idx).value =
      CKMSQuantiles.compressLoop quantiles_ sample_ next idx := by
  induction hn : sample_.length - idx using Nat.strong_induction_on
    generalizing sample_ next idx with
  | _ n ih =>
    subst hn
    rw [compressLoop, CKMSQuantiles.compressLoop]
    split
    · simp only [value_bind, value_act, value_read, value_allowableError, Option.bind_some,
        Option.bind_eq_bind]
      congr 1
      funext prevItem
      congr 1
      funext nextItem
      split
      · simp only [value_bind, value_act, Option.bind_some]
        refine ih _ ?_ _ _ _ rfl
        simp only [List.length_eraseIdx, List.length_set]
        split <;> omega
      · exact ih _ (by omega) _ _ _ rfl
    · rfl

omit [LinearOrder α] in
theorem value_compress (s : CKMSQuantiles α) : (compress s).value = s.compress := by
  unfold compress CKMSQuantiles.compress
  split
  · rfl
  · simp [value_compressLoop]

omit [LinearOrder α] in
theorem value_scan (bound : ℚ) (rankMin : ℤ) (cur : Item α) (rest : List (Item α)) :
    (scan bound rankMin cur rest).value = some (CKMSQuantiles.scan bound rankMin cur rest) := by
  induction rest generalizing rankMin cur with
  | nil => rfl
  | cons next rest ih =>
      simp only [scan, CKMSQuantiles.scan, value_bind, value_act, Option.bind_some]
      split
      · rfl
      · exact ih _ _

theorem value_insert (s : CKMSQuantiles α) (value : α) :
    (insert s value).value = s.insert value := by
  unfold insert CKMSQuantiles.insert
  rw [value_bind, value_attempt]
  split
  · simp only [Option.bind_some]
    split
    · simp [value_insertBatch, value_compress]
    · rfl
  · rfl

theorem value_get (s : CKMSQuantiles α) (q : ℚ) : (get s q).value = s.get q := by
  unfold get CKMSQuantiles.get
  simp only [value_bind, value_insertBatch, value_compress, Option.bind_eq_bind]
  congr 1
  funext s
  congr 1
  funext s
  cases hsample : s.sample_ with
  | nil => rfl
  | cons cur rest =>
      simp [value_allowableError, value_scan, CKMSQuantiles.bound, hsample]

theorem value_apply (s : CKMSQuantiles α) (op : Op α) : (apply s op).value = s.apply op := by
  cases op with
  | insert value => exact value_insert s value
  | get q => simp [apply, CKMSQuantiles.apply, value_get]
  | reset => rfl

theorem value_run (s : CKMSQuantiles α) (ops : List (Op α)) : (run s ops).value = s.run ops := by
  simp only [run, value_foldlM, value_apply]
  rfl

end Erase

end Watched

end Promcore.CKMSQuantiles
