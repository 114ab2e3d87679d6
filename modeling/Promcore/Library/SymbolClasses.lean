import Mathlib.Computability.Language

/-!
# Words over classes of symbols

The languages of one symbol of a class, of any number of them, and of a first
symbol followed by any number of others.
-/

namespace SymbolClasses

open Computability

variable {α : Type*} {C D : Set α} {l : Language α} {w : List α}

/-- The words of exactly one symbol, of the class `C`. -/
def one (C : Set α) : Language α := {w | ∃ c ∈ C, w = [c]}

theorem mem_one_mul : w ∈ one C * l ↔ ∃ c ∈ C, ∃ w' ∈ l, w = c :: w' := by
  rw [Language.mem_mul]
  constructor
  · rintro ⟨_, ⟨c, hc, rfl⟩, w', hw', rfl⟩
    exact ⟨c, hc, w', hw', rfl⟩
  · rintro ⟨c, hc, w', hw', rfl⟩
    exact ⟨[c], ⟨c, hc, rfl⟩, w', hw', rfl⟩

/-- Any number of symbols of a class. -/
theorem mem_kstar_one : w ∈ (one C)∗ ↔ ∀ c ∈ w, c ∈ C := by
  constructor
  · rintro ⟨words, rfl, hwords⟩ c hc
    obtain ⟨word, hword, hcword⟩ := List.mem_flatten.mp hc
    obtain ⟨d, hd, rfl⟩ := hwords word hword
    rwa [List.mem_singleton.mp hcword]
  · intro h
    refine ⟨w.map fun c => [c], by simp [← List.flatMap_def], fun word hword => ?_⟩
    obtain ⟨c, hc, rfl⟩ := List.mem_map.mp hword
    exact ⟨c, h c hc, rfl⟩

/-- A first symbol of one class and any number of symbols of another. -/
theorem mem_one_mul_kstar_one :
    w ∈ one C * (one D)∗ ↔ ∃ c w', w = c :: w' ∧ c ∈ C ∧ ∀ d ∈ w', d ∈ D := by
  simp only [mem_one_mul, mem_kstar_one]
  constructor
  · rintro ⟨c, hc, w', hw', rfl⟩
    exact ⟨c, w', rfl, hc, hw'⟩
  · rintro ⟨c, w', rfl, hc, hw'⟩
    exact ⟨c, hc, w', hw', rfl⟩

end SymbolClasses
