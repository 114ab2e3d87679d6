import Promcore.Sketch.CKMSQuantiles

/-!
# Quantiles over a sliding window of time

A ring of buckets that all receive every value; one bucket is reset and the
next becomes current each time a rotation interval has passed. Clock readings
and durations are counted in ticks.

## Implementation notes

The code is written once for any kind of bucket. Running the same calls on
buckets that only record what they receive says exactly what each sketch of
the ring has received since its last reset.
-/

namespace Promcore

/-- What the window asks of a bucket. -/
class Bucket (β : Type) (α : outParam Type) where
  insert : β → α → Option β
  get : β → ℚ → Option (β × Option α)
  reset : β → β

instance {α : Type} [LinearOrder α] : Bucket (CKMSQuantiles α) α where
  insert := CKMSQuantiles.insert
  get := CKMSQuantiles.get
  reset := CKMSQuantiles.reset

/-- A bucket that records the values received since its last reset. -/
structure Recorder (α : Type) where
  values : List α
deriving DecidableEq

instance {α : Type} : Bucket (Recorder α) α where
  insert r value := some ⟨r.values ++ [value]⟩
  get r _ := some (r, none)
  reset _ := ⟨[]⟩

structure TimeWindowQuantiles (β : Type) where
  ckms_quantiles_ : List β
  current_bucket_ : ℕ
  last_rotation_ : ℤ
  rotation_interval_ : ℤ
deriving DecidableEq

namespace TimeWindowQuantiles

variable {α β : Type} [Bucket β α]

omit [Bucket β α] in
/-- The constructor, with `age_buckets` copies of an empty bucket. No ring of
fewer than one bucket is built: zero divides, and a negative number is no
length. -/
def new (bucket : β) (max_age age_buckets now : ℤ) : Option (TimeWindowQuantiles β) :=
  if 1 ≤ age_buckets then
    some ⟨List.replicate age_buckets.toNat bucket, 0, now, max_age.tdiv age_buckets⟩
  else none

omit [Bucket β α] in
/-- Write the current bucket back into the ring. -/
def setCurrent (w : TimeWindowQuantiles β) (bucket : β) : TimeWindowQuantiles β :=
  { w with ckms_quantiles_ := w.ckms_quantiles_.set w.current_bucket_ bucket }

omit [Bucket β α] in
/-- Move to the next bucket and account for one interval. -/
def advance (w : TimeWindowQuantiles β) : TimeWindowQuantiles β :=
  { w with
    current_bucket_ :=
      if w.current_bucket_ + 1 ≥ w.ckms_quantiles_.length then 0 else w.current_bucket_ + 1
    last_rotation_ := w.last_rotation_ + w.rotation_interval_ }

/-- The body of the loop of `rotate`. -/
def rotateStep (w : TimeWindowQuantiles β) : Option (TimeWindowQuantiles β) := do
  let bucket ← w.ckms_quantiles_[w.current_bucket_]?
  return (w.setCurrent (Bucket.reset bucket)).advance

/-- The loop of `rotate`, given up after a number of tests of its condition. -/
def rotateLoop : ℕ → ℤ → TimeWindowQuantiles β → Option (TimeWindowQuantiles β)
  | 0, _, _ => none
  | tests + 1, delta, w =>
      if delta > w.rotation_interval_ then do
        let next ← w.rotateStep
        rotateLoop tests (delta - w.rotation_interval_) next
      else some w

/-- A loop that ends at all lowers `delta` by at least one each time, so it
ends within `delta + 1` tests; otherwise there is no result. -/
def rotate (w : TimeWindowQuantiles β) (now : ℤ) : Option (TimeWindowQuantiles β) :=
  rotateLoop ((now - w.last_rotation_).toNat + 1) (now - w.last_rotation_) w

def get (w : TimeWindowQuantiles β) (now : ℤ) (q : ℚ) :
    Option (TimeWindowQuantiles β × Option α) := do
  let w ← w.rotate now
  let bucket ← w.ckms_quantiles_[w.current_bucket_]?
  let (bucket, value) ← Bucket.get bucket q
  return (w.setCurrent bucket, value)

def insert (w : TimeWindowQuantiles β) (now : ℤ) (value : α) :
    Option (TimeWindowQuantiles β) := do
  let w ← w.rotate now
  let buckets ← w.ckms_quantiles_.mapM (Bucket.insert · value)
  return { w with ckms_quantiles_ := buckets }

/-- A call of the window's interface, with the clock reading it takes. -/
inductive Call (α : Type) where
  | insert (now : ℤ) (value : α)
  | get (now : ℤ) (q : ℚ)
deriving DecidableEq

def Call.now : Call α → ℤ
  | .insert now _ => now
  | .get now _ => now

def apply (w : TimeWindowQuantiles β) : Call α → Option (TimeWindowQuantiles β)
  | .insert now value => w.insert now value
  | .get now q => do
      let (w, _) ← w.get now q
      return w

def run (w : TimeWindowQuantiles β) (calls : List (Call α)) : Option (TimeWindowQuantiles β) :=
  calls.foldlM apply w

/-- The values inserted, each with the clock reading of its call. -/
def observed (calls : List (Call α)) : List (ℤ × α) :=
  calls.filterMap fun
    | .insert now value => some (now, value)
    | .get _ _ => none

end TimeWindowQuantiles

end Promcore
