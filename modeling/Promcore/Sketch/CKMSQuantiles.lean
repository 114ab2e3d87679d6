import Mathlib.Data.List.Sort
import Mathlib.Data.Rat.Floor
import Mathlib.Tactic

/-!
# The streaming quantile sketch

A transcription of the sketch's class, with doubles as exact rationals and
observed values in any linear order. Results are `none` where the C++ program
would read or write outside a vector or the buffer.

## Implementation notes

The buffer is kept as the list of its first `buffer_count_` cells, in the
order written, so `buffer_count_` is its length.
-/

namespace Promcore

/-- A targeted quantile with its tolerated error. -/
structure Quantile where
  quantile : ℚ
  error : ℚ
deriving DecidableEq

/-- The constructor's slope below the targeted rank. -/
def Quantile.u (q : Quantile) : ℚ := 2 * q.error / (1 - q.quantile)

/-- The constructor's slope above the targeted rank. -/
def Quantile.v (q : Quantile) : ℚ := 2 * q.error / q.quantile

structure Item (α : Type) where
  value : α
  g : ℤ
  delta : ℤ
deriving DecidableEq

structure CKMSQuantiles (α : Type) where
  quantiles_ : List Quantile
  count_ : ℕ
  sample_ : List (Item α)
  buffer_ : List α
deriving DecidableEq

/-- `buffer_.size()`, the extent of the fixed array. -/
def bufferSize : ℕ := 500

/-- The `size_t` difference of a size and an `int` rank. -/
def sizeMinus (size : ℕ) (rank : ℤ) : ℤ :=
  if rank ≤ size then size - rank else size - rank + 2 ^ 64

/-- `static_cast<int>` of a double, rounding toward zero. -/
def truncate (x : ℚ) : ℤ := if x < 0 then ⌈x⌉ else ⌊x⌋

/-- One targeted quantile's error at a rank of a sample of the given size. -/
def Quantile.errorAt (q : Quantile) (size : ℕ) (rank : ℤ) : ℚ :=
  if (rank : ℚ) ≤ q.quantile * size then q.u * sizeMinus size rank else q.v * rank

/-- The least error over all targeted quantiles, at most `size + 1`. -/
def allowableError (quantiles_ : List Quantile) (size : ℕ) (rank : ℤ) : ℚ :=
  quantiles_.foldl (fun minError q =>
    if q.errorAt size rank < minError then q.errorAt size rank else minError) (size + 1)

namespace CKMSQuantiles

section Sample

variable {α : Type} [LinearOrder α] (quantiles_ : List Quantile)

/-- The inner `while` of `insertBatch`: `item = idx++` while the item read is
smaller than `v`. -/
def advance (sample_ : List (Item α)) (v : α) (item idx : ℕ) : Option (ℕ × ℕ) :=
  if idx < sample_.length then do
    let cur ← sample_[item]?
    if cur.value < v then advance sample_ v idx (idx + 1) else some (item, idx)
  else some (item, idx)
termination_by sample_.length - idx

/-- `--idx` on a `size_t`; at zero it would wrap past every position. -/
def decrement : ℕ → Option ℕ
  | 0 => none
  | idx + 1 => some idx

/-- The delta given to an item emplaced at `idx`. In unsigned arithmetic
`idx - 1 == 0` holds at one only: at zero it wraps. -/
def insertDelta (size idx : ℕ) : ℤ :=
  if idx = 1 ∨ idx + 1 = size then 0
  else ⌊allowableError quantiles_ size ((idx + 1 : ℕ) : ℤ)⌋ + 1

/-- `sample_.emplace(sample_.begin() + idx, ...)`. -/
def emplace (sample_ : List (Item α)) (idx : ℕ) (x : Item α) : Option (List (Item α)) :=
  if idx ≤ sample_.length then some (sample_.insertIdx idx x) else none

/-- The body of the `for` loop of `insertBatch` for one buffered value. -/
def insertValue (sample_ : List (Item α)) (item idx : ℕ) (v : α) :
    Option (List (Item α) × ℕ × ℕ) := do
  let (item, idx) ← advance sample_ v item idx
  let cur ← sample_[item]?
  let idx ← if cur.value > v then decrement idx else some idx
  let delta := insertDelta quantiles_ sample_.length idx
  let sample_ ← emplace sample_ idx ⟨v, 1, delta⟩
  return (sample_, idx, idx + 1)

/-- The `for` loop of `insertBatch` over the sorted buffer. -/
def insertValues : List α → List (Item α) → ℕ → ℕ → Option (List (Item α))
  | [], sample_, _, _ => some sample_
  | v :: vs, sample_, item, idx => do
      let (sample_, item, idx) ← insertValue quantiles_ sample_ item idx v
      insertValues vs sample_ item idx

/-- The loop of `compress`. After an erase neither index moves, so the merged
item is not looked at again in the same pass. -/
def compressLoop (sample_ : List (Item α)) (next idx : ℕ) : Option (List (Item α)) :=
  if idx < sample_.length then do
    let prevItem ← sample_[next]?
    let nextItem ← sample_[idx]?
    if ((prevItem.g + nextItem.g + nextItem.delta : ℤ) : ℚ) ≤
        allowableError quantiles_ sample_.length idx then
      compressLoop
        ((sample_.set idx { nextItem with g := nextItem.g + prevItem.g }).eraseIdx next)
        idx (idx + 1)
    else compressLoop sample_ idx (idx + 1)
  else some sample_
termination_by sample_.length - idx
decreasing_by
  · simp only [List.length_eraseIdx, List.length_set]
    split <;> omega
  · omega

/-- The scan of `get`: `cur` is the item last stepped to and `rankMin` the
weight before it. -/
def scan (bound : ℚ) (rankMin : ℤ) (cur : Item α) : List (Item α) → α
  | [] => cur.value
  | next :: rest =>
      if bound < ((rankMin + cur.g + next.g + next.delta : ℤ) : ℚ) then cur.value
      else scan bound (rankMin + cur.g) next rest

end Sample

variable {α : Type} [LinearOrder α]

/-- The constructor: an empty sketch for the given targets. -/
def new (quantiles_ : List Quantile) : CKMSQuantiles α := ⟨quantiles_, 0, [], []⟩

def buffer_count_ (s : CKMSQuantiles α) : ℕ := s.buffer_.length

/-- The sample and the values left to insert: the first value of a batch seeds
an empty sample. -/
def seed : List (Item α) → List α → List (Item α) × List α
  | [], b :: bs => ([⟨b, 1, 0⟩], bs)
  | sample_, buffer => (sample_, buffer)

/-- Merge the sorted buffer into the sample. -/
def insertBatch (s : CKMSQuantiles α) : Option (CKMSQuantiles α) :=
  if s.buffer_count_ = 0 then some s
  else do
    let (sample_, values) := seed s.sample_ (s.buffer_.insertionSort (· ≤ ·))
    let sample_ ← insertValues s.quantiles_ values sample_ 0 1
    return ⟨s.quantiles_, s.count_ + s.buffer_count_, sample_, []⟩

def compress (s : CKMSQuantiles α) : Option (CKMSQuantiles α) :=
  if s.sample_.length < 2 then some s
  else do
    let sample_ ← compressLoop s.quantiles_ s.sample_ 0 1
    return { s with sample_ }

/-- Write to the next buffer cell, and empty a full buffer into the sample. -/
def insert (s : CKMSQuantiles α) (value : α) : Option (CKMSQuantiles α) :=
  if s.buffer_count_ < bufferSize then do
    let s := { s with buffer_ := s.buffer_ ++ [value] }
    if s.buffer_count_ = bufferSize then
      let s ← s.insertBatch
      s.compress
    else return s
  else none

/-- The rank asked for, `static_cast<int>(q * count_)`. -/
def desired (s : CKMSQuantiles α) (q : ℚ) : ℤ := truncate (q * s.count_)

/-- The scan bound: the desired rank and half of the error allowed there. -/
def bound (s : CKMSQuantiles α) (q : ℚ) : ℚ :=
  s.desired q + allowableError s.quantiles_ s.sample_.length (s.desired q) / 2

/-- The quantile read and the sketch it leaves; no value is the quiet NaN. -/
def get (s : CKMSQuantiles α) (q : ℚ) : Option (CKMSQuantiles α × Option α) := do
  let s ← s.insertBatch
  let s ← s.compress
  match s.sample_ with
  | [] => return (s, none)
  | cur :: rest => return (s, some (scan (s.bound q) 0 cur rest))

def reset (s : CKMSQuantiles α) : CKMSQuantiles α :=
  { s with count_ := 0, sample_ := [], buffer_ := [] }

/-- A call of the sketch's interface. -/
inductive Op (α : Type) where
  | insert (value : α)
  | get (q : ℚ)
  | reset
deriving DecidableEq

/-- The sketch after one call. -/
def apply (s : CKMSQuantiles α) : Op α → Option (CKMSQuantiles α)
  | .insert value => s.insert value
  | .get q => do
      let (s, _) ← s.get q
      return s
  | .reset => some s.reset

/-- The sketch after a list of calls, in order. -/
def run (s : CKMSQuantiles α) (ops : List (Op α)) : Option (CKMSQuantiles α) :=
  ops.foldlM apply s

/-- The values inserted since the last reset, in order. -/
def received (data : List α) : Op α → List α
  | .insert value => data ++ [value]
  | .get _ => data
  | .reset => []

def inserted (ops : List (Op α)) : List α := ops.foldl received []

end CKMSQuantiles

end Promcore
