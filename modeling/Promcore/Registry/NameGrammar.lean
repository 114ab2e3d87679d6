import Mathlib.Data.Char
import Mathlib.Order.Interval.Set.Basic
import Promcore.Library.SymbolClasses
import Promcore.Registry.Names

/-!
# The grammar of names

The regular expressions that the library documents for metric and label names,
as languages, and the two checks as exactly these with the reserved names taken
out.
-/

namespace Promcore

open SymbolClasses Computability

/-- `[0-9]` -/
def digits : Set Char := Set.Icc '0' '9'

/-- `[a-zA-Z_]` -/
def labelStart : Set Char := Set.Icc 'a' 'z' ∪ Set.Icc 'A' 'Z' ∪ {'_'}

/-- `[a-zA-Z_:]` -/
def metricStart : Set Char := Set.Icc 'a' 'z' ∪ Set.Icc 'A' 'Z' ∪ {'_', ':'}

/-- `[a-zA-Z_:][a-zA-Z0-9_:]*` -/
def metricNames : Language Char := one metricStart * (one (metricStart ∪ digits))∗

/-- `[a-zA-Z_][a-zA-Z0-9_]*` -/
def labelNames : Language Char := one labelStart * (one (labelStart ∪ digits))∗

/-- The label that the serializer itself adds to the samples of a type. -/
def serializerLabel : MetricType → Option Str
  | .histogram => some "le".toList
  | .summary => some "quantile".toList
  | _ => none

theorem isLocaleIndependentDigit_iff (c : Char) :
    isLocaleIndependentDigit c = true ↔ c ∈ digits := by
  simp [isLocaleIndependentDigit, digits]

theorem metricCharacter_iff (c : Char) :
    (isLocaleIndependentAlphaNumeric c || c = '_' || c = ':') = true ↔
      c ∈ metricStart ∪ digits := by
  simp only [isLocaleIndependentAlphaNumeric, metricStart, digits, Bool.or_eq_true,
    Bool.and_eq_true, decide_eq_true_eq, Set.mem_union, Set.mem_Icc, Set.mem_insert_iff,
    Set.mem_singleton_iff]
  tauto

theorem labelCharacter_iff (c : Char) :
    (isLocaleIndependentAlphaNumeric c || c = '_') = true ↔ c ∈ labelStart ∪ digits := by
  simp only [isLocaleIndependentAlphaNumeric, labelStart, digits, Bool.or_eq_true,
    Bool.and_eq_true, decide_eq_true_eq, Set.mem_union, Set.mem_Icc, Set.mem_singleton_iff]
  tauto

/-- No digit is a letter, an underscore or a colon. -/
theorem not_metricStart_of_digit : ∀ c ∈ digits, c ∉ metricStart := by
  rintro c ⟨-, hnine⟩ hstart
  have hlater : ∀ d : Char, '9' < d → ¬ d ≤ c := fun d hd hle =>
    absurd (hd.trans_le (hle.trans hnine)) (lt_irrefl _)
  rcases hstart with (⟨ha, -⟩ | ⟨hA, -⟩) | rfl | rfl
  · exact hlater 'a' (by decide) ha
  · exact hlater 'A' (by decide) hA
  · exact absurd hnine (by decide)
  · exact absurd hnine (by decide)

theorem labelStart_subset : labelStart ⊆ metricStart :=
  Set.union_subset_union_right _ (Set.singleton_subset_iff.mpr (Set.mem_insert _ _))

/-- The test of the first character by exclusion and the scan of the whole name
are the grammar, for a class of first characters without digits. -/
theorem nameStartsValid_and_all_iff {character : Char → Bool} {start : Set Char}
    (hcharacter : ∀ c, character c = true ↔ c ∈ start ∪ digits) (hstart : ∀ c ∈ digits, c ∉ start)
    (name : Str) : nameStartsValid name = true ∧ name.all character = true ↔
      name ∈ one start * (one (start ∪ digits))∗ ∧ ¬ ['_', '_'] <+: name := by
  rw [mem_one_mul_kstar_one]
  cases name with
  | nil => simp [nameStartsValid]
  | cons c name =>
      have hvalid : nameStartsValid (c :: name) = true ↔ c ∉ digits ∧ ¬ ['_', '_'] <+: c :: name := by
        rw [List.prefix_iff_eq_take, nameStartsValid, ← isLocaleIndependentDigit_iff]
        split
        · simp [*]
        · rw [bne_iff_ne, and_iff_right ‹_›]
          exact ne_comm
      have hall : (c :: name).all character = true ↔
          c ∈ start ∪ digits ∧ ∀ d ∈ name, d ∈ start ∪ digits := by
        simp only [List.all_eq_true, hcharacter, List.forall_mem_cons]
      rw [hvalid, hall]
      constructor
      · rintro ⟨⟨hdigit, hreserved⟩, hc, hrest⟩
        exact ⟨⟨c, name, rfl, hc.resolve_right hdigit, hrest⟩, hreserved⟩
      · rintro ⟨⟨_, _, heq, hc, hrest⟩, hreserved⟩
        obtain ⟨rfl, rfl⟩ := List.cons.inj heq
        exact ⟨⟨fun hdigit => hstart c hdigit hc, hreserved⟩, Or.inl hc, hrest⟩

/-- A name is accepted for a metric exactly when it matches the expression and
is not reserved, and for a label when in addition the serializer does not add
it itself. -/
theorem name_accepted_iff (name : Str) :
    (checkMetricName name = true ↔ name ∈ metricNames ∧ ¬ ['_', '_'] <+: name) ∧
      ∀ type, checkLabelName name type = true ↔
        name ∈ labelNames ∧ ¬ ['_', '_'] <+: name ∧ serializerLabel type ≠ some name := by
  constructor
  · rw [metricNames, ← nameStartsValid_and_all_iff metricCharacter_iff not_metricStart_of_digit,
      checkMetricName]
    cases nameStartsValid name <;> simp
  · intro type
    have hown : serializerLabel type = some name ↔
        ((type = .histogram && name = "le".toList) ||
          (type = .summary && name = "quantile".toList)) = true := by
      unfold serializerLabel
      generalize "le".toList = le, "quantile".toList = quantile
      cases type <;> simp [@eq_comm Str name]
    have hgrammar := nameStartsValid_and_all_iff labelCharacter_iff
      (fun c hdigit hc => not_metricStart_of_digit c hdigit (labelStart_subset hc)) name
    rw [← and_assoc, labelNames, ← hgrammar, ne_eq, hown, checkLabelName]
    generalize ((type = .histogram && name = "le".toList) ||
      (type = .summary && name = "quantile".toList)) = own
    cases nameStartsValid name <;> cases own <;> simp

end Promcore
