import Mathlib.Algebra.BigOperators.Group.Finset.Basic
import Mathlib.Algebra.BigOperators.Group.List.Basic
import Mathlib.Tactic

/-!
# Prefix sums of a list of amounts

Adding to one place raises the sums from that place on; adding two lists place
by place adds their prefix sums.
-/

namespace PrefixSums

variable {M : Type*} [AddCommMonoid M]

/-- The sum of the amounts up to and including place `i`. -/
def upTo (amounts : List M) (i : ℕ) : M := (amounts.take (i + 1)).sum

@[simp] theorem upTo_nil (i : ℕ) : upTo ([] : List M) i = 0 := by simp [upTo]

@[simp] theorem upTo_cons_zero (a : M) (amounts : List M) : upTo (a :: amounts) 0 = a := by
  simp [upTo]

@[simp] theorem upTo_cons_succ (a : M) (amounts : List M) (i : ℕ) :
    upTo (a :: amounts) (i + 1) = a + upTo amounts i := by
  simp [upTo]

theorem upTo_replicate_zero (n i : ℕ) : upTo (List.replicate n (0 : M)) i = 0 := by
  simp [upTo, List.take_replicate]

/-- From the last place on the prefix sum is the total. -/
theorem upTo_eq_sum (amounts : List M) {i : ℕ} (h : amounts.length ≤ i + 1) :
    upTo amounts i = amounts.sum := by
  rw [upTo, List.take_of_length_le h]

/-- The prefix sums of the values of a function. -/
theorem upTo_map_range (f : ℕ → M) {n i : ℕ} (hi : i < n) :
    upTo ((List.range n).map f) i = ∑ j ∈ Finset.range (i + 1), f j := by
  rw [upTo, ← List.map_take, List.take_range, min_eq_left hi]
  rfl

theorem upTo_modify (amounts : List M) (a : M) {k : ℕ} (hk : k < amounts.length) (i : ℕ) :
    upTo (amounts.modify k (· + a)) i = upTo amounts i + if k ≤ i then a else 0 := by
  induction amounts generalizing k i with
  | nil => simp at hk
  | cons b amounts ih =>
      cases k with
      | zero =>
          cases i with
          | zero => simp
          | succ i => simp [add_assoc, add_comm a]
      | succ k =>
          cases i with
          | zero => simp
          | succ i => simp [ih (by simpa using hk), add_assoc]

theorem upTo_zipWith_add (amounts amounts' : List M) (h : amounts'.length = amounts.length)
    (i : ℕ) : upTo (List.zipWith (· + ·) amounts amounts') i =
      upTo amounts i + upTo amounts' i := by
  induction amounts generalizing amounts' i with
  | nil => simp [List.eq_nil_of_length_eq_zero h]
  | cons b amounts ih =>
      cases amounts' with
      | nil => simp at h
      | cons b' amounts' =>
          cases i with
          | zero => simp
          | succ i =>
              simp only [List.zipWith_cons_cons, upTo_cons_succ, ih amounts' (by simpa using h)]
              exact add_add_add_comm b b' _ _

end PrefixSums
