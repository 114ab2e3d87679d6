import Promcore.Library.RankSummary

/-!
# Upper ranks of a rank summary

An entry's slack says how far the true rank may lie above its cumulative
weight. Insertions whose slack covers the entry after them, and merges that
keep the slack of the entry they keep, never let an upper rank fall below the
true one.
-/

namespace RankSummary

variable {ι α : Type*} [LinearOrder α] (value : ι → α) (weight slack : ι → ℤ)

/-- Starting from rank `r`, the number of data values below an entry stays
below its cumulative weight and slack. -/
def UpperFrom (data : List α) : ℤ → List ι → Prop
  | _, [] => True
  | r, x :: xs =>
      data.countP (· < value x) < r + weight x + slack x ∧ UpperFrom data (r + weight x) xs

theorem upperFrom_append (data : List α) (r : ℤ) (xs ys : List ι) :
    UpperFrom value weight slack data r (xs ++ ys) ↔
      UpperFrom value weight slack data r xs ∧
        UpperFrom value weight slack data (r + mass weight xs) ys := by
  induction xs generalizing r with
  | nil => simp [UpperFrom]
  | cons x xs ih => simp only [List.cons_append, UpperFrom, ih, mass_cons, and_assoc, add_assoc]

variable {value weight slack} {data : List α} {r : ℤ} {entries : List ι}

/-- The recursive bound is the bound at every position. -/
theorem UpperFrom.getElem (h : UpperFrom value weight slack data r entries) (i : ℕ)
    (hi : i < entries.length) :
    data.countP (· < value entries[i]) <
      r + mass weight (entries.take (i + 1)) + slack entries[i] := by
  induction entries generalizing r i with
  | nil => simp at hi
  | cons x xs ih =>
      cases i with
      | zero => simpa using h.1
      | succ i =>
          have := ih h.2 i (by simpa using hi)
          simpa [add_assoc] using this

theorem UpperFrom.perm {data' : List α} (hp : data.Perm data')
    (h : UpperFrom value weight slack data r entries) :
    UpperFrom value weight slack data' r entries := by
  induction entries generalizing r with
  | nil => trivial
  | cons x xs ih => exact ⟨by rw [← hp.countP_eq]; exact h.1, ih h.2⟩

/-- A data value at or above the entries is below none of them. -/
theorem UpperFrom.cons_above {d : α} (h : UpperFrom value weight slack data r entries)
    (hd : ∀ x ∈ entries, value x ≤ d) : UpperFrom value weight slack (d :: data) r entries := by
  induction entries generalizing r with
  | nil => trivial
  | cons x xs ih =>
      refine ⟨?_, ih h.2 fun y hy => hd y (List.mem_cons_of_mem _ hy)⟩
      rw [List.countP_cons_of_neg (by simpa using hd x List.mem_cons_self)]
      exact h.1

/-- One more data value is made up for by starting one rank higher. -/
theorem UpperFrom.shift (h : UpperFrom value weight slack data r entries) (d : α) :
    UpperFrom value weight slack (d :: data) (r + 1) entries := by
  induction entries generalizing r with
  | nil => trivial
  | cons x xs ih =>
      constructor
      · have hcount : (d :: data).countP (· < value x) ≤ data.countP (· < value x) + 1 := by
          rw [List.countP_cons]
          split <;> omega
        have := h.1
        omega
      · rw [show r + 1 + weight x = r + weight x + 1 by ring]
        exact ih h.2

/-- A unit entry whose slack covers the entry after it. -/
theorem UpperFrom.insert {pre post : List ι} {x : ι}
    (h : UpperFrom value weight slack data 0 (pre ++ post))
    (htotal : mass weight (pre ++ post) = data.length) (hw : weight x = 1) (hslack : 0 ≤ slack x)
    (hpre : ∀ y ∈ pre, value y ≤ value x) (hpost : ∀ y ∈ post, value x ≤ value y)
    (hcover : ∀ y ∈ post.head?, weight y + slack y ≤ slack x + 1) :
    UpperFrom value weight slack (value x :: data) 0 (pre ++ x :: post) := by
  rw [upperFrom_append] at h ⊢
  refine ⟨h.1.cons_above hpre, ?_, ?_⟩
  · rw [List.countP_cons_of_neg (by simp), hw]
    cases post with
    | nil =>
        -- no more values are smaller than there are
        have hle : data.countP (· < value x) ≤ data.length := List.countP_le_length
        rw [List.append_nil] at htotal
        omega
    | cons y post =>
        have hle : data.countP (· < value x) ≤ data.countP (· < value y) :=
          List.countP_mono_left fun d _ hd => by
            simp only [decide_eq_true_eq] at hd ⊢
            exact hd.trans_le (hpost y List.mem_cons_self)
        have hy := h.2.1
        have := hcover y rfl
        omega
  · rw [hw]
    exact h.2.shift (value x)

/-- Merging an entry into its successor keeps the successor's upper rank. -/
theorem UpperFrom.merge {pre post : List ι} {a b c : ι}
    (h : UpperFrom value weight slack data 0 (pre ++ a :: b :: post)) (hv : value c = value b)
    (hw : weight c = weight a + weight b) (hs : slack c = slack b) :
    UpperFrom value weight slack data 0 (pre ++ c :: post) := by
  rw [upperFrom_append] at h ⊢
  obtain ⟨hpre, -, hb, hpost⟩ := h
  refine ⟨hpre, ?_, ?_⟩
  · rw [hv, hw, hs, ← add_assoc]
    exact hb
  · rw [hw, ← add_assoc]
    exact hpost

/-- A summary has at most as many entries as data values. -/
theorem Summarizes.length_le (h : Summarizes value weight entries data) :
    entries.length ≤ data.length := by
  have hmass : ∀ xs : List ι, (∀ x ∈ xs, 1 ≤ weight x) → (xs.length : ℤ) ≤ mass weight xs := by
    intro xs hxs
    induction xs with
    | nil => simp
    | cons x xs ih =>
        have hx := hxs x List.mem_cons_self
        have := ih fun y hy => hxs y (List.mem_cons_of_mem _ hy)
        rw [List.length_cons, mass_cons]
        push_cast
        omega
  have := hmass entries h.weight_pos
  rw [h.total] at this
  exact_mod_cast this

end RankSummary
