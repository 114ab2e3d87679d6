import Mathlib.Data.List.Basic
import Mathlib.Data.Nat.ModEq
import Mathlib.Tactic

/-!
# A ring of logs cleared in turn

Every write goes to all logs of the ring. A rotation clears the current log
and makes the next one current. After `rotations` rotations of a ring of
`size` logs, the log `d` places ahead of the current one holds the writes of
the last `size - d` rotation periods.
-/

namespace RotatingLog

variable {α : Type*}

/-- The ring after `rotations` rotations and the writes `entries`, each stamped
with the number of rotations before it. -/
structure Holds (slots : List (List α)) (size rotations current : ℕ) (entries : List (ℕ × α)) :
    Prop where
  pos : 0 < size
  length : slots.length = size
  current_eq : current = rotations % size
  stamps : ∀ e ∈ entries, e.1 ≤ rotations
  slot : ∀ d < size, slots[(rotations + d) % size]? =
    some ((entries.filter fun e => rotations + d < e.1 + size).map Prod.snd)

variable {slots : List (List α)} {size rotations current : ℕ} {entries : List (ℕ × α)}

theorem Holds.new (hsize : 0 < size) :
    Holds (List.replicate size ([] : List α)) size 0 0 [] where
  pos := hsize
  length := List.length_replicate
  current_eq := (Nat.zero_mod size).symm
  stamps := by simp
  slot d hd := by simp [Nat.mod_eq_of_lt hd, hd]

/-- Places less than a full turn apart are different. -/
theorem add_mod_ne {r k n : ℕ} (hk : 0 < k) (hkn : k < n) : (r + k) % n ≠ r % n := by
  intro h
  have hzero : k ≡ 0 [MOD n] := Nat.ModEq.add_left_cancel' r h
  rw [Nat.ModEq, Nat.mod_eq_of_lt hkn, Nat.zero_mod] at hzero
  omega

/-- One rotation clears the current log and moves on, back to the first log
after the last one. -/
theorem Holds.rotate (h : Holds slots size rotations current entries) :
    Holds (slots.set current []) size (rotations + 1)
      (if current + 1 ≥ slots.length then 0 else current + 1) entries where
  pos := h.pos
  length := by simpa using h.length
  current_eq := by
    have hlt := Nat.mod_lt rotations h.pos
    have hmod : (rotations + 1) % size = (rotations % size + 1) % size :=
      (Nat.mod_add_mod rotations size 1).symm
    rw [h.length, h.current_eq, hmod]
    split
    · rw [show rotations % size + 1 = size by omega, Nat.mod_self]
    · exact (Nat.mod_eq_of_lt (by omega)).symm
  stamps e he := (h.stamps e he).trans (Nat.le_succ rotations)
  slot d hd := by
    rcases Nat.lt_or_ge (d + 1) size with hnext | hlast
    · -- any other log is one place nearer and unchanged
      have hplace : rotations + 1 + d = rotations + (d + 1) := by omega
      rw [hplace, h.current_eq, List.getElem?_set_ne (add_mod_ne (Nat.succ_pos d) hnext).symm]
      exact h.slot (d + 1) hnext
    · -- the cleared log is now the last one ahead, and nothing is newer
      have hplace : (rotations + 1 + d) % size = rotations % size := by
        rw [show rotations + 1 + d = rotations + size by omega, Nat.add_mod_right]
      have hnone : entries.filter (fun e => rotations + 1 + d < e.1 + size) = [] := by
        refine List.filter_eq_nil_iff.mpr fun e he => ?_
        have := h.stamps e he
        simp only [decide_eq_true_eq, not_lt]
        omega
      rw [hplace, h.current_eq, List.getElem?_set_self
        (by rw [h.length]; exact Nat.mod_lt _ h.pos), hnone, List.map_nil]

/-- A write is appended to every log. -/
theorem Holds.write (h : Holds slots size rotations current entries) (a : α) :
    Holds (slots.map (· ++ [a])) size rotations current (entries ++ [(rotations, a)]) where
  pos := h.pos
  length := by simpa using h.length
  current_eq := h.current_eq
  stamps e he := by
    rcases List.mem_append.mp he with he | he
    · exact h.stamps e he
    · rw [List.mem_singleton.mp he]
  slot d hd := by
    have hnew : rotations + d < rotations + size := by omega
    simp [h.slot d hd, List.filter_append, hnew]

/-- The current log holds the writes of the last `size` rotation periods. -/
theorem Holds.current_slot (h : Holds slots size rotations current entries) :
    slots[current]? =
      some ((entries.filter fun e => rotations < e.1 + size).map Prod.snd) := by
  simpa [h.current_eq] using h.slot 0 h.pos

end RotatingLog
