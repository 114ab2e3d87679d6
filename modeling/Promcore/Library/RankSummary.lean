import Mathlib.Algebra.Order.BigOperators.Group.List
import Mathlib.Data.List.Sort
import Mathlib.Tactic

/-!
# Weighted rank summaries of a list of data

A summary is a sorted list of entries, each standing for `weight` data values
that lie at or below its own value. Sorted unit insertions and merges of an
entry into its successor keep every bound stated here.
-/

namespace RankSummary

variable {ι α : Type*} [LinearOrder α] (value : ι → α) (weight : ι → ℤ)

/-- The total weight of a list of entries. -/
def mass (entries : List ι) : ℤ := (entries.map weight).sum

@[simp] theorem mass_nil : mass weight ([] : List ι) = 0 := rfl

@[simp] theorem mass_cons (x : ι) (entries : List ι) :
    mass weight (x :: entries) = weight x + mass weight entries := by
  simp [mass]

@[simp] theorem mass_append (xs ys : List ι) :
    mass weight (xs ++ ys) = mass weight xs + mass weight ys := by
  simp [mass]

/-- Starting from rank `r`, no entry's cumulative weight exceeds the number of
data values at or below it. -/
def LowerFrom (data : List α) : ℤ → List ι → Prop
  | _, [] => True
  | r, x :: xs =>
      r + weight x ≤ data.countP (· ≤ value x) ∧ LowerFrom data (r + weight x) xs

theorem lowerFrom_append (data : List α) (r : ℤ) (xs ys : List ι) :
    LowerFrom value weight data r (xs ++ ys) ↔
      LowerFrom value weight data r xs ∧
        LowerFrom value weight data (r + mass weight xs) ys := by
  induction xs generalizing r with
  | nil => simp [LowerFrom]
  | cons x xs ih => simp only [List.cons_append, LowerFrom, ih, mass_cons, and_assoc, add_assoc]

/-- The recursive bound is the bound at every position. -/
theorem LowerFrom.getElem {data : List α} {r : ℤ} {entries : List ι}
    (h : LowerFrom value weight data r entries) (i : ℕ) (hi : i < entries.length) :
    r + mass weight (entries.take (i + 1)) ≤ data.countP (· ≤ value entries[i]) := by
  induction entries generalizing r i with
  | nil => simp at hi
  | cons x xs ih =>
      cases i with
      | zero => simpa using h.1
      | succ i =>
          have := ih h.2 i (by simpa using hi)
          simpa [add_assoc] using this

/-- A further data value never lowers the counts. -/
theorem LowerFrom.cons_data {data : List α} {r : ℤ} {entries : List ι}
    (h : LowerFrom value weight data r entries) (d : α) :
    LowerFrom value weight (d :: data) r entries := by
  induction entries generalizing r with
  | nil => trivial
  | cons x xs ih =>
      refine ⟨h.1.trans ?_, ih h.2⟩
      rw [List.countP_cons]
      push_cast
      split <;> simp

/-- Entries at or above a new data value may start one rank higher. -/
theorem LowerFrom.shift {data : List α} {r : ℤ} {entries : List ι} {d : α}
    (h : LowerFrom value weight data r entries) (hd : ∀ x ∈ entries, d ≤ value x) :
    LowerFrom value weight (d :: data) (r + 1) entries := by
  induction entries generalizing r with
  | nil => trivial
  | cons x xs ih =>
      have hx : d ≤ value x := hd x List.mem_cons_self
      have hcount : (d :: data).countP (· ≤ value x) = data.countP (· ≤ value x) + 1 := by
        simp [hx]
      refine ⟨?_, ?_⟩
      · rw [hcount]
        have := h.1
        push_cast
        omega
      · rw [show r + 1 + weight x = r + weight x + 1 by ring]
        exact ih h.2 fun y hy => hd y (List.mem_cons_of_mem _ hy)

theorem LowerFrom.perm {data data' : List α} (hp : data.Perm data') {r : ℤ} {entries : List ι}
    (h : LowerFrom value weight data r entries) : LowerFrom value weight data' r entries := by
  induction entries generalizing r with
  | nil => trivial
  | cons x xs ih => exact ⟨by rw [← hp.countP_eq]; exact h.1, ih h.2⟩

/-- The entries summarize exactly the data: sorted, positive weights adding up
to the number of data values, values taken from the data, the maximum kept, and
no cumulative weight above the true rank. -/
structure Summarizes (entries : List ι) (data : List α) : Prop where
  sorted : entries.Pairwise (value · ≤ value ·)
  weight_pos : ∀ x ∈ entries, 1 ≤ weight x
  total : mass weight entries = data.length
  mem_data : ∀ x ∈ entries, value x ∈ data
  max_kept : ∀ x, entries.getLast? = some x → ∀ d ∈ data, d ≤ value x
  lower : LowerFrom value weight data 0 entries

namespace Summarizes

variable {value weight}

theorem nil : Summarizes value weight [] ([] : List α) where
  sorted := List.Pairwise.nil
  weight_pos := by simp
  total := rfl
  mem_data := by simp
  max_kept := by simp
  lower := trivial

theorem perm {entries : List ι} {data data' : List α} (hp : data.Perm data')
    (h : Summarizes value weight entries data) : Summarizes value weight entries data' where
  sorted := h.sorted
  weight_pos := h.weight_pos
  total := by rw [h.total, hp.length_eq]
  mem_data x hx := hp.mem_iff.mp (h.mem_data x hx)
  max_kept x hx d hd := h.max_kept x hx d (hp.mem_iff.mpr hd)
  lower := h.lower.perm value weight hp

/-- A unit entry at a sorted position accounts for one more data value. -/
theorem insert {pre post : List ι} {x : ι} {data : List α}
    (h : Summarizes value weight (pre ++ post) data) (hw : weight x = 1)
    (hpre : ∀ y ∈ pre, value y ≤ value x) (hpost : ∀ y ∈ post, value x ≤ value y) :
    Summarizes value weight (pre ++ x :: post) (value x :: data) where
  sorted := by
    have hs := List.pairwise_append.mp h.sorted
    refine List.pairwise_append.mpr ⟨hs.1, List.pairwise_cons.mpr ⟨hpost, hs.2.1⟩, ?_⟩
    intro a ha b hb
    rcases List.mem_cons.mp hb with rfl | hb
    · exact hpre a ha
    · exact hs.2.2 a ha b hb
  weight_pos y hy := by
    rcases List.mem_append.mp hy with hy | hy
    · exact h.weight_pos y (List.mem_append_left _ hy)
    · rcases List.mem_cons.mp hy with rfl | hy
      · exact hw.ge
      · exact h.weight_pos y (List.mem_append_right _ hy)
  total := by
    have := h.total
    simp only [mass_append, mass_cons, hw, List.length_cons] at this ⊢
    push_cast
    omega
  mem_data y hy := by
    rcases List.mem_append.mp hy with hy | hy
    · exact List.mem_cons_of_mem _ (h.mem_data y (List.mem_append_left _ hy))
    · rcases List.mem_cons.mp hy with rfl | hy
      · exact List.mem_cons_self
      · exact List.mem_cons_of_mem _ (h.mem_data y (List.mem_append_right _ hy))
  max_kept y hy d hd := by
    -- the new entry is last only when nothing follows it
    cases post with
    | nil =>
        obtain rfl : x = y := by simpa using hy
        rcases List.mem_cons.mp hd with rfl | hd
        · exact le_rfl
        · cases hlast : pre.getLast? with
          | none =>
              obtain rfl := List.getLast?_eq_none_iff.mp hlast
              have hlen := h.total
              simp only [List.append_nil, mass_nil] at hlen
              have : data = [] := List.eq_nil_of_length_eq_zero (by omega)
              simp [this] at hd
          | some z =>
              have hz : z ∈ pre := List.mem_of_getLast? hlast
              exact (h.max_kept z (by simpa using hlast) d hd).trans (hpre z hz)
    | cons p post =>
        have hlast : (pre ++ p :: post).getLast? = some y := by
          simpa [List.getLast?_append, List.getLast?_cons_cons] using hy
        have hmem : y ∈ p :: post := by
          have : (p :: post).getLast? = some y := by
            simpa [List.getLast?_append, List.getLast?_cons] using hlast
          exact List.mem_of_getLast? this
        rcases List.mem_cons.mp hd with rfl | hd
        · exact hpost y hmem
        · exact h.max_kept y hlast d hd
  lower := by
    have hl := (lowerFrom_append value weight data 0 pre post).mp h.lower
    refine (lowerFrom_append value weight _ 0 pre (x :: post)).mpr
      ⟨hl.1.cons_data value weight (value x), ?_, ?_⟩
    · -- every entry before the new one stays at or below it
      have hbelow : mass weight pre ≤ data.countP (· ≤ value x) := by
        cases hlast : pre.getLast? with
        | none => simp [List.getLast?_eq_none_iff.mp hlast]
        | some z =>
            have hz : z ∈ pre := List.mem_of_getLast? hlast
            have hne : pre ≠ [] := List.ne_nil_of_mem hz
            have hpos : 0 < pre.length := List.length_pos_of_ne_nil hne
            have hle := hl.1.getElem value weight (pre.length - 1) (by omega)
            rw [Nat.sub_add_cancel hpos, List.take_length, zero_add] at hle
            refine hle.trans (Nat.cast_le.mpr (List.countP_mono_left ?_))
            intro d _ hd
            simp only [decide_eq_true_eq] at hd ⊢
            exact hd.trans (hpre _ (List.getElem_mem _))
      rw [hw, List.countP_cons]
      simp only [le_refl, decide_true, if_true]
      push_cast
      omega
    · rw [hw, show 0 + mass weight pre + 1 = (0 + mass weight pre) + 1 by ring]
      exact hl.2.shift value weight hpost

/-- Merging an entry into its successor keeps the summary of the same data. -/
theorem merge {pre post : List ι} {a b c : ι} {data : List α}
    (h : Summarizes value weight (pre ++ a :: b :: post) data)
    (hv : value c = value b) (hw : weight c = weight a + weight b) :
    Summarizes value weight (pre ++ c :: post) data where
  sorted := by
    have hs := List.pairwise_append.mp h.sorted
    have hab := List.pairwise_cons.mp hs.2.1
    have hb := List.pairwise_cons.mp hab.2
    refine List.pairwise_append.mpr ⟨hs.1, List.pairwise_cons.mpr ⟨?_, hb.2⟩, ?_⟩
    · intro y hy
      rw [hv]
      exact hb.1 y hy
    · intro x hx y hy
      rcases List.mem_cons.mp hy with rfl | hy
      · rw [hv]
        exact hs.2.2 x hx b (by simp)
      · exact hs.2.2 x hx y (by simp [hy])
  weight_pos y hy := by
    have ha := h.weight_pos a (by simp)
    have hb := h.weight_pos b (by simp)
    rcases List.mem_append.mp hy with hy | hy
    · exact h.weight_pos y (List.mem_append_left _ hy)
    · rcases List.mem_cons.mp hy with rfl | hy
      · omega
      · exact h.weight_pos y (by simp [hy])
  total := by
    have := h.total
    simp only [mass_append, mass_cons] at this ⊢
    omega
  mem_data y hy := by
    rcases List.mem_append.mp hy with hy | hy
    · exact h.mem_data y (List.mem_append_left _ hy)
    · rcases List.mem_cons.mp hy with rfl | hy
      · rw [hv]
        exact h.mem_data b (by simp)
      · exact h.mem_data y (by simp [hy])
  max_kept y hy d hd := by
    cases post with
    | nil =>
        obtain rfl : c = y := by simpa using hy
        rw [hv]
        exact h.max_kept b (by simp) d hd
    | cons p post =>
        refine h.max_kept y ?_ d hd
        simpa [List.getLast?_append, List.getLast?_cons_cons] using hy
  lower := by
    have hl := (lowerFrom_append value weight data 0 pre (a :: b :: post)).mp h.lower
    refine (lowerFrom_append value weight data 0 pre (c :: post)).mpr ⟨hl.1, ?_, ?_⟩
    · rw [hw, hv, ← add_assoc]
      exact hl.2.2.1
    · rw [hw, ← add_assoc]
      exact hl.2.2.2

end Summarizes

end RankSummary
