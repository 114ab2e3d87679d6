import Promcore.Library.RankSummary

/-!
# Ordered merges of entries and new values

New values are put in order among the entries of a list, and each makes an entry
of its own that may depend on how many entries and values come before it. What
holds of every entry at its cut holds all along the merged list.
-/

namespace OrderedMerge

open RankSummary

variable {ι α : Type*}

theorem next_of_drop {l rest : List ι} {k : ℕ} {x : ι} (h : l.drop k = x :: rest) :
    l[k]? = some x ∧ l.drop (k + 1) = rest := by
  constructor
  · rw [← List.head?_drop, h]
    rfl
  · rw [← List.tail_drop, h]
    rfl

section Along

variable (weight : ι → ℤ)

/-- The property holds of each entry, its position and the weight before it,
counted from the given start. -/
def Along (P : ℕ → ℤ → ι → Prop) : ℕ → ℤ → List ι → Prop
  | _, _, [] => True
  | i, r, x :: xs => P i r x ∧ Along P (i + 1) (r + weight x) xs

variable {weight} {P : ℕ → ℤ → ι → Prop} {i : ℕ} {r : ℤ} {entries : List ι}

theorem Along.getElem (h : Along weight P i r entries) (j : ℕ) (hj : j < entries.length) :
    P (i + j) (r + mass weight (entries.take j)) entries[j] := by
  induction entries generalizing i r j with
  | nil => simp at hj
  | cons x xs ih =>
      cases j with
      | zero => simpa using h.1
      | succ j =>
          have hrest := ih h.2 j (by simpa using hj)
          rw [add_right_comm, add_assoc i j 1, add_assoc r] at hrest
          simpa using hrest

end Along

variable [LinearOrder α] (value : ι → α)

/-- The first `k` entries and the first `t` values may come before all others. -/
structure Cut (entries : List ι) (values : List α) (k t : ℕ) : Prop where
  entries_le : k ≤ entries.length
  values_le : t ≤ values.length
  entries_first : ∀ x ∈ entries.take k, ∀ v ∈ values.drop t, value x ≤ v
  values_first : ∀ v ∈ values.take t, ∀ x ∈ entries.drop k, v ≤ value x

instance (entries : List ι) (values : List α) (k t : ℕ) :
    Decidable (Cut value entries values k t) :=
  decidable_of_iff (k ≤ entries.length ∧ t ≤ values.length ∧
      (∀ x ∈ entries.take k, ∀ v ∈ values.drop t, value x ≤ v) ∧
      ∀ v ∈ values.take t, ∀ x ∈ entries.drop k, v ≤ value x)
    ⟨fun ⟨h₁, h₂, h₃, h₄⟩ => ⟨h₁, h₂, h₃, h₄⟩, fun ⟨h₁, h₂, h₃, h₄⟩ => ⟨h₁, h₂, h₃, h₄⟩⟩

variable {value} {entries xs out : List ι} {values vs : List α} {k t : ℕ} {x : ι} {v : α}

theorem Cut.zero (entries : List ι) (values : List α) : Cut value entries values 0 0 :=
  ⟨Nat.zero_le _, Nat.zero_le _, by simp, by simp⟩

/-- The next entry may come first when no value left is below it. -/
theorem Cut.entry (h : Cut value entries values k t) (hx : entries[k]? = some x)
    (hle : ∀ v ∈ values.drop t, value x ≤ v) : Cut value entries values (k + 1) t := by
  obtain ⟨hk, rfl⟩ := List.getElem?_eq_some_iff.mp hx
  refine ⟨hk, h.values_le, ?_, fun v hv y hy => h.values_first v hv y ?_⟩
  · rw [← List.take_append_getElem hk]
    exact List.forall_mem_append.mpr ⟨h.entries_first, by simpa using hle⟩
  · rw [List.drop_eq_getElem_cons hk]
    exact List.mem_cons_of_mem _ hy

/-- And so may the next value when no entry left is below it. -/
theorem Cut.fresh (h : Cut value entries values k t) (hv : values[t]? = some v)
    (hle : ∀ x ∈ entries.drop k, v ≤ value x) : Cut value entries values k (t + 1) := by
  obtain ⟨ht, rfl⟩ := List.getElem?_eq_some_iff.mp hv
  refine ⟨h.entries_le, ht, fun x hx w hw => h.entries_first x hx w ?_, ?_⟩
  · rw [List.drop_eq_getElem_cons ht]
    exact List.mem_cons_of_mem _ hw
  · rw [← List.take_append_getElem ht]
    exact List.forall_mem_append.mpr ⟨h.values_first, by simpa using hle⟩

variable (value) (make : ℕ → ℕ → α → ι)

/-- The entries and values left, in order, after `k` entries and `t` values. -/
inductive Merged : ℕ → ℕ → List ι → List α → List ι → Prop
  | nil (k t : ℕ) : Merged k t [] [] []
  | entry {k t : ℕ} {x : ι} {xs : List ι} {vs : List α} {out : List ι}
      (hle : ∀ v ∈ vs, value x ≤ v) (rest : Merged (k + 1) t xs vs out) :
      Merged k t (x :: xs) vs (x :: out)
  | fresh {k t : ℕ} {v : α} {xs : List ι} {vs : List α} {out : List ι}
      (hle : ∀ x ∈ xs, v ≤ value x) (rest : Merged k (t + 1) xs vs out) :
      Merged k t xs (v :: vs) (make k t v :: out)

variable {value make}

namespace Merged

theorem no_values (k t : ℕ) (xs : List ι) : Merged value make k t xs [] xs := by
  induction xs generalizing k with
  | nil => exact .nil k t
  | cons x xs ih => exact .entry (by simp) (ih (k + 1))

theorem passed {pre : List ι} (hpre : ∀ x ∈ pre, ∀ v ∈ vs, value x ≤ v)
    (h : Merged value make (k + pre.length) t xs vs out) :
    Merged value make k t (pre ++ xs) vs (pre ++ out) := by
  induction pre generalizing k with
  | nil => exact h
  | cons x pre ih =>
      refine .entry (hpre x List.mem_cons_self)
        (ih (fun y hy => hpre y (List.mem_cons_of_mem _ hy)) ?_)
      rwa [add_assoc, add_comm 1 pre.length]

theorem length (h : Merged value make k t xs vs out) : out.length = xs.length + vs.length := by
  induction h with
  | nil => rfl
  | entry _ _ ih =>
      simp only [List.length_cons, ih]
      omega
  | fresh _ _ ih =>
      simp only [List.length_cons, ih]
      omega

/-- The merged list begins with a least element. -/
theorem head_le (h : Merged value make k t xs vs (x :: out))
    (hmake : ∀ k t v, value (make k t v) = v) (hxs : xs.Pairwise (value · ≤ value ·))
    (hvs : vs.Pairwise (· ≤ ·)) :
    (∀ y ∈ xs, value x ≤ value y) ∧ ∀ v ∈ vs, value x ≤ v := by
  cases h with
  | entry hle _ =>
      exact ⟨List.forall_mem_cons.mpr ⟨le_rfl, (List.pairwise_cons.mp hxs).1⟩, hle⟩
  | fresh hle _ =>
      simp only [hmake]
      exact ⟨hle, List.forall_mem_cons.mpr ⟨le_rfl, (List.pairwise_cons.mp hvs).1⟩⟩

theorem along_from {weight : ι → ℤ} {P : ℕ → ℤ → ι → Prop} (hone : ∀ k t v, weight (make k t v) = 1)
    (hentry : ∀ k t x, Cut value entries values k t → entries[k]? = some x →
      P (k + t) (mass weight (entries.take k) + t) x)
    (hfresh : ∀ k t v, Cut value entries values k t → values[t]? = some v →
      P (k + t) (mass weight (entries.take k) + t) (make k t v))
    (h : Merged value make k t xs vs out) (hcut : Cut value entries values k t)
    (hxs : entries.drop k = xs) (hvs : values.drop t = vs) :
    Along weight P (k + t) (mass weight (entries.take k) + t) out := by
  induction h with
  | nil => trivial
  | @entry k t x xs vs out hle _ ih =>
      obtain ⟨hget, hdrop⟩ := next_of_drop hxs
      obtain ⟨hk, hx⟩ := List.getElem?_eq_some_iff.mp hget
      have hrest := ih (hcut.entry hget (hvs ▸ hle)) hdrop hvs
      rw [← List.take_append_getElem hk, hx, mass_append, mass_cons, mass_nil, add_zero,
        add_right_comm k 1 t, add_right_comm (mass weight _) (weight x)] at hrest
      exact ⟨hentry k t x hcut hget, hrest⟩
  | @fresh k t v xs vs out hle _ ih =>
      obtain ⟨hget, hdrop⟩ := next_of_drop hvs
      have hrest := ih (hcut.fresh hget (hxs ▸ hle)) hxs hdrop
      refine ⟨hfresh k t v hcut hget, ?_⟩
      rw [hone, add_assoc (mass weight _)]
      exact_mod_cast hrest

/-- What holds of each entry and of each value at its cut holds all along the
merged list. -/
theorem along {weight : ι → ℤ} {P : ℕ → ℤ → ι → Prop}
    (h : Merged value make 0 0 entries values out) (hone : ∀ k t v, weight (make k t v) = 1)
    (hentry : ∀ k t x, Cut value entries values k t → entries[k]? = some x →
      P (k + t) (mass weight (entries.take k) + t) x)
    (hfresh : ∀ k t v, Cut value entries values k t → values[t]? = some v →
      P (k + t) (mass weight (entries.take k) + t) (make k t v)) : Along weight P 0 0 out :=
  along_from hone hentry hfresh h (.zero _ _) rfl rfl

end Merged

end OrderedMerge
