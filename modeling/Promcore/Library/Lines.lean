import Mathlib.Data.List.Basic
import Mathlib.Data.List.TakeWhile

/-!
# Texts made of lines

A text is written line by line, each line followed by a newline, and read back
by splitting it at the newlines. A reader of records drops the lines that
start with the comment symbol.
-/

namespace Lines

variable {α : Type*}

/-- The text of a list of lines. -/
def terminated (newline : α) (lines : List (List α)) : List α :=
  lines.flatMap fun line => line ++ [newline]

@[simp] theorem terminated_nil (newline : α) : terminated newline [] = [] := rfl

@[simp] theorem terminated_cons (newline : α) (line : List α) (lines : List (List α)) :
    terminated newline (line :: lines) = line ++ newline :: terminated newline lines := by
  simp [terminated]

theorem terminated_singleton (newline : α) (line : List α) :
    terminated newline [line] = line ++ [newline] := by
  simp

@[simp] theorem terminated_append (newline : α) (lines lines' : List (List α)) :
    terminated newline (lines ++ lines') = terminated newline lines ++ terminated newline lines' :=
  List.flatMap_append

/-- Texts written one after the other are the text of all their lines. -/
theorem flatMap_terminated {β : Type*} (newline : α) (items : List β) (lines : β → List (List α)) :
    (items.flatMap fun item => terminated newline (lines item)) =
      terminated newline (items.flatMap lines) :=
  List.flatMap_assoc.symm

/-- Reading up to the first symbol of another kind. -/
theorem takeWhile_stop {p : α → Bool} {word : List α} (h : ∀ a ∈ word, p a = true) {stop : α}
    (hstop : p stop = false) (rest : List α) : (word ++ stop :: rest).takeWhile p = word := by
  simp [List.takeWhile_append_of_pos h, hstop]

theorem dropWhile_stop {p : α → Bool} {word : List α} (h : ∀ a ∈ word, p a = true) {stop : α}
    (hstop : p stop = false) (rest : List α) :
    (word ++ stop :: rest).dropWhile p = stop :: rest := by
  simp [List.dropWhile_append_of_pos h, hstop]

variable [DecidableEq α] {newline comment : α}

/-- The lines of a text. -/
def lines (newline : α) (text : List α) : List (List α) := (text.splitOn newline).dropLast

theorem lines_append (text rest : List α) :
    lines newline (text ++ newline :: rest) = text.splitOn newline ++ lines newline rest := by
  rw [lines, List.splitOn_append_cons_self, List.dropLast_append_of_ne_nil
    (List.splitOn_ne_nil newline rest), lines]

/-- What was written line by line is read back line by line. -/
theorem lines_terminated {written : List (List α)} (h : ∀ line ∈ written, newline ∉ line) :
    lines newline (terminated newline written) = written := by
  induction written with
  | nil => simp [lines]
  | cons line written ih =>
      rw [terminated_cons, lines_append, List.splitOn_eq_singleton (h line List.mem_cons_self),
        ih fun line' hline' => h line' (List.mem_cons_of_mem _ hline'), List.singleton_append]

/-- The lines that do not start with the comment symbol. -/
def records (newline comment : α) (text : List α) : List (List α) :=
  (lines newline text).filter fun line => line.head? ≠ some comment

theorem records_terminated {written : List (List α)} (h : ∀ line ∈ written, newline ∉ line) :
    records newline comment (terminated newline written) =
      written.filter fun line => line.head? ≠ some comment := by
  rw [records, lines_terminated h]

end Lines
