import Mathlib.Data.List.Nodup
import Mathlib.Tactic

/-!
# Entries with keys, kept in several vectors

A directory keeps its entries in one vector for each index, and all keys of
all vectors are meant to be different. Appending an entry with a new key,
dropping entries and changing entries without changing their keys all keep
that.
-/

namespace Directory

section Lookup

variable {β K : Type*} [DecidableEq K] {key : β → K} {entries : List β}

/-- The entry found under a key is the one that has it. -/
theorem find?_key_eq_some_iff (hkeys : (entries.map key).Nodup) {k : K} {x : β} :
    entries.find? (fun y => key y = k) = some x ↔ x ∈ entries ∧ key x = k := by
  constructor
  · intro h
    exact ⟨List.mem_of_find?_eq_some h, by simpa using List.find?_some h⟩
  · rintro ⟨hx, rfl⟩
    obtain ⟨y, hy⟩ : ∃ y, entries.find? (fun y => key y = key x) = some y :=
      Option.isSome_iff_exists.mp (List.find?_isSome.mpr ⟨x, hx, by simp⟩)
    have hkey : key y = key x := by simpa using List.find?_some hy
    rw [hy, List.inj_on_of_nodup_map hkeys (List.mem_of_find?_eq_some hy) hx hkey]

/-- Erasing the first entry with a key takes out all that have it. -/
theorem eraseP_key_eq_filter (hkeys : (entries.map key).Nodup) (k : K) :
    entries.eraseP (fun y => key y = k) = entries.filter fun y => key y ≠ k := by
  induction entries with
  | nil => rfl
  | cons x xs ih =>
      rw [List.map_cons, List.nodup_cons] at hkeys
      by_cases hx : key x = k
      · have hrest : ∀ y ∈ xs, key y ≠ k := fun y hy heq =>
          hkeys.1 (hx.trans heq.symm ▸ List.mem_map_of_mem hy)
        rw [List.eraseP_cons_of_pos (by simpa using hx), List.filter_cons_of_neg (by simpa using hx),
          List.filter_eq_self.mpr (by simpa using hrest)]
      · rw [List.eraseP_cons_of_neg (by simpa using hx), List.filter_cons_of_pos (by simpa using hx),
          ih hkeys.2]

end Lookup

variable {ι K : Type*} [DecidableEq ι] {α : ι → Type*} (key : (i : ι) → α i → K)

/-- No two entries, of the same vector or of two, have the same key. -/
structure Distinct (vectors : (i : ι) → List (α i)) : Prop where
  within : ∀ i, ((vectors i).map (key i)).Nodup
  across : ∀ i j, i ≠ j → ∀ x ∈ vectors i, ∀ y ∈ vectors j, key i x ≠ key j y

variable {key} {vectors vectors' : (i : ι) → List (α i)}

omit [DecidableEq ι] in
theorem Distinct.empty : Distinct key fun i => ([] : List (α i)) where
  within _ := List.nodup_nil
  across _ _ _ _ hx := absurd hx List.not_mem_nil

/-- An entry with a new key may be appended to any vector. -/
theorem Distinct.append (h : Distinct key vectors) {i : ι} {x : α i}
    (hnew : ∀ j, ∀ y ∈ vectors j, key j y ≠ key i x) :
    Distinct key (Function.update vectors i (vectors i ++ [x])) where
  within j := by
    by_cases hj : j = i
    · subst hj
      rw [Function.update_self, List.map_append, List.nodup_append']
      refine ⟨h.within j, List.nodup_singleton _, ?_⟩
      intro k hk hkx
      obtain ⟨y, hy, rfl⟩ := List.mem_map.mp hk
      rw [List.map_singleton, List.mem_singleton] at hkx
      exact hnew j y hy hkx
    · rw [Function.update_of_ne hj]
      exact h.within j
  across j k hjk y hy z hz := by
    -- the new entry can be on either side
    by_cases hj : j = i
    · subst hj
      rw [Function.update_of_ne hjk.symm] at hz
      rw [Function.update_self] at hy
      rcases List.mem_append.mp hy with hy | hy
      · exact h.across j k hjk y hy z hz
      · rw [List.mem_singleton.mp hy]
        exact (hnew k z hz).symm
    · rw [Function.update_of_ne hj] at hy
      by_cases hk : k = i
      · subst hk
        rw [Function.update_self] at hz
        rcases List.mem_append.mp hz with hz | hz
        · exact h.across j k hjk y hy z hz
        · rw [List.mem_singleton.mp hz]
          exact hnew j y hy
      · rw [Function.update_of_ne hk] at hz
        exact h.across j k hjk y hy z hz

/-- Vectors that only lost entries have distinct keys still. -/
theorem Distinct.sublist (h : Distinct key vectors) {i : ι} {rest : List (α i)}
    (hrest : rest.Sublist (vectors i)) : Distinct key (Function.update vectors i rest) := by
  have hmem : ∀ j, ∀ y ∈ Function.update vectors i rest j, y ∈ vectors j := by
    intro j y hy
    by_cases hj : j = i
    · subst hj
      rw [Function.update_self] at hy
      exact hrest.subset hy
    · rwa [Function.update_of_ne hj] at hy
  constructor
  · intro j
    by_cases hj : j = i
    · subst hj
      rw [Function.update_self]
      exact (h.within j).sublist (hrest.map (key j))
    · rw [Function.update_of_ne hj]
      exact h.within j
  · exact fun j k hjk y hy z hz => h.across j k hjk y (hmem j y hy) z (hmem k z hz)

omit [DecidableEq ι] in
/-- Vectors with the same keys, place by place, have distinct keys still. -/
theorem Distinct.congr (h : Distinct key vectors)
    (hkeys : ∀ i, (vectors' i).map (key i) = (vectors i).map (key i)) : Distinct key vectors' := by
  have hkey : ∀ i, ∀ x ∈ vectors' i, ∃ y ∈ vectors i, key i y = key i x := by
    intro i x hx
    have hmem : key i x ∈ (vectors i).map (key i) := hkeys i ▸ List.mem_map_of_mem hx
    exact List.mem_map.mp hmem
  constructor
  · intro i
    rw [hkeys i]
    exact h.within i
  · intro i j hij x hx y hy
    obtain ⟨x', hx', hkx⟩ := hkey i x hx
    obtain ⟨y', hy', hky⟩ := hkey j y hy
    rw [← hkx, ← hky]
    exact h.across i j hij x' hx' y' hy'

/-- Appending adds one entry to the directory. -/
theorem mem_update_append (vectors : (i : ι) → List (α i)) {i j : ι} (x : α i) (y : α j) :
    y ∈ Function.update vectors i (vectors i ++ [x]) j ↔
      y ∈ vectors j ∨ (⟨j, y⟩ : Σ i, α i) = ⟨i, x⟩ := by
  by_cases hj : j = i
  · subst hj
    rw [Function.update_self, List.mem_append, List.mem_singleton, Sigma.mk.injEq]
    simp
  · rw [Function.update_of_ne hj, Sigma.mk.injEq]
    simp [hj]

omit [DecidableEq ι] in
/-- The keys of all vectors, one vector after the other, are different. -/
theorem Distinct.nodup (h : Distinct key vectors) {indices : List ι} (hindices : indices.Nodup) :
    (indices.flatMap fun i => (vectors i).map (key i)).Nodup := by
  rw [List.nodup_flatMap]
  refine ⟨fun i _ => h.within i, hindices.imp ?_⟩
  intro i j hij k hki hkj
  obtain ⟨x, hx, rfl⟩ := List.mem_map.mp hki
  obtain ⟨y, hy, hyx⟩ := List.mem_map.mp hkj
  exact h.across i j hij x hx y hy hyx.symm

omit [DecidableEq ι] in
/-- An entry of a vector is known by its key. -/
theorem Distinct.eq_of_key (h : Distinct key vectors) {i : ι} {x y : α i} (hx : x ∈ vectors i)
    (hy : y ∈ vectors i) (hkey : key i x = key i y) : x = y :=
  List.inj_on_of_nodup_map (h.within i) hx hy hkey

/-- A removed entry's key is held by none of the others. -/
theorem Distinct.not_held_of_erased (h : Distinct key vectors) {i : ι} {x : α i}
    {pre post : List (α i)} (hsplit : vectors i = pre ++ x :: post) (j : ι) :
    ∀ y ∈ Function.update vectors i (pre ++ post) j, key j y ≠ key i x := by
  have hx : x ∈ vectors i := by simp [hsplit]
  intro y hy
  by_cases hj : j = i
  · subst hj
    rw [Function.update_self] at hy
    have hnodup := h.within j
    rw [hsplit, List.map_append, List.map_cons, List.nodup_middle, List.nodup_cons,
      ← List.map_append] at hnodup
    exact fun heq => hnodup.1 (heq ▸ List.mem_map_of_mem hy)
  · rw [Function.update_of_ne hj] at hy
    exact h.across j i hj y hy x hx

/-- Erasing takes the entry with its key from the directory. -/
theorem Distinct.mem_update_erased (h : Distinct key vectors) {i : ι} {x : α i}
    {pre post : List (α i)} (hsplit : vectors i = pre ++ x :: post) {j : ι} (y : α j) :
    y ∈ Function.update vectors i (pre ++ post) j ↔ y ∈ vectors j ∧ key j y ≠ key i x := by
  constructor
  · intro hy
    refine ⟨?_, h.not_held_of_erased hsplit j y hy⟩
    by_cases hj : j = i
    · subst hj
      rw [Function.update_self, List.mem_append] at hy
      rw [hsplit, List.mem_append, List.mem_cons]
      exact hy.imp_right Or.inr
    · rwa [Function.update_of_ne hj] at hy
  · rintro ⟨hy, hne⟩
    by_cases hj : j = i
    · subst hj
      rw [hsplit, List.mem_append, List.mem_cons] at hy
      rw [Function.update_self, List.mem_append]
      rcases hy with hy | rfl | hy
      · exact Or.inl hy
      · exact absurd rfl hne
      · exact Or.inr hy
    · rwa [Function.update_of_ne hj]

end Directory
