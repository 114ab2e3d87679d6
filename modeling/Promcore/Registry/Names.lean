import Promcore.Metrics.Values

/-!
# Metric types, names and label sets

The checks of metric and label names, and the label set: a map from label
names to values, iterated in the order of the names.
-/

namespace Promcore

inductive MetricType where
  | counter
  | gauge
  | summary
  | untyped
  | histogram
  | info
deriving DecidableEq

def isLocaleIndependentAlphaNumeric (c : Char) : Bool :=
  ('0' ≤ c && c ≤ '9') || ('a' ≤ c && c ≤ 'z') || ('A' ≤ c && c ≤ 'Z')

def isLocaleIndependentDigit (c : Char) : Bool := '0' ≤ c && c ≤ '9'

/-- Not empty, no digit in front, not starting with two underscores. -/
def nameStartsValid : Str → Bool
  | [] => false
  | c :: name =>
      if isLocaleIndependentDigit c then false else (c :: name).take 2 != ['_', '_']

def checkMetricName (name : Str) : Bool :=
  if !nameStartsValid name then false
  else name.all fun c => isLocaleIndependentAlphaNumeric c || c = '_' || c = ':'

def checkLabelName (name : Str) (type : MetricType) : Bool :=
  if !nameStartsValid name then false
  else if (type = .histogram && name = "le".toList) ||
      (type = .summary && name = "quantile".toList) then false
  else name.all fun c => isLocaleIndependentAlphaNumeric c || c = '_'

/-- The characters of metric names; label names have no colon. -/
def IsNameChar (c : Char) : Prop :=
  (isLocaleIndependentAlphaNumeric c || c = '_' || c = ':') = true

instance (c : Char) : Decidable (IsNameChar c) := inferInstanceAs (Decidable (_ = true))

theorem metricName_chars {name : Str} (h : checkMetricName name = true) :
    ∀ c ∈ name, IsNameChar c := by
  unfold checkMetricName at h
  split at h
  · simp at h
  · exact List.all_eq_true.mp h

theorem metricName_ne_nil {name : Str} (h : checkMetricName name = true) : name ≠ [] := by
  rintro rfl
  simp [checkMetricName, nameStartsValid] at h

theorem labelName_chars {name : Str} {type : MetricType}
    (h : checkLabelName name type = true) : ∀ c ∈ name, IsNameChar c := by
  unfold checkLabelName at h
  split at h
  · simp at h
  · split at h
    · simp at h
    · intro c hc
      have hchar := List.all_eq_true.mp h c hc
      rw [IsNameChar, hchar, Bool.true_or]

/-- A `std::map` from label names to values, as the list of its pairs. -/
structure Labels where
  pairs : List (Str × Str)
  sorted : (pairs.map Prod.fst).Pairwise (· < ·)
deriving DecidableEq

namespace Labels

theorem sorted_nil : (([] : List (Str × Str)).map Prod.fst).Pairwise (· < ·) := List.Pairwise.nil

def names (labels : Labels) : List Str := labels.pairs.map Prod.fst

/-- `count(name) != 0`. -/
def count (labels : Labels) (name : Str) : Bool := labels.names.contains name

theorem names_nodup (labels : Labels) : labels.names.Nodup :=
  labels.sorted.imp fun {a b} (h : a < b) (heq : a = b) => List.lt_irrefl b (heq ▸ h)

@[simp] theorem count_iff (labels : Labels) (name : Str) :
    labels.count name = true ↔ name ∈ labels.names := by
  simp [count]

end Labels

end Promcore
