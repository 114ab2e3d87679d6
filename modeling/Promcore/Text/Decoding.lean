import Promcore.Text.Samples

/-!
# Reading sample lines back

A decoder for single lines, and a reader that splits a text at its newlines
and drops the comments.
-/

namespace Promcore

namespace TextSerializer

open Escaping Lines

/-- A decimal integer. -/
def readInt : Str → ℤ
  | '-' :: digits => -(Nat.ofDigitChars 10 digits 0 : ℕ)
  | digits => (Nat.ofDigitChars 10 digits 0 : ℕ)

/-- The pairs of a label block, and what follows its closing brace. The first
argument bounds the number of pairs. -/
def decodeLabels : ℕ → Str → Option (List ClientMetric.Label × Str)
  | 0, _ => none
  | bound + 1, text =>
      match text.dropWhile (· ≠ '=') with
      | '=' :: '"' :: quoted => do
          let (value, rest) ← decodeUntil escapes '"' quoted
          let lp : ClientMetric.Label := ⟨text.takeWhile (· ≠ '='), value⟩
          match rest with
          | ',' :: more => do
              let (label, rest) ← decodeLabels bound more
              return (lp :: label, rest)
          | '}' :: rest => return ([lp], rest)
          | _ => none
      | _ => none

def endsName (c : Char) : Bool := c = '{' || c = ' '

/-- The label block, if there is one, and what follows the blank after it. -/
def decodeBlock : Str → Option (List ClientMetric.Label × Str)
  | '{' :: block => (decodeLabels block.length block).map fun r => (r.1, r.2.drop 1)
  | rest => some ([], rest.drop 1)

def decodeLine (line : Str) : Option Sample := do
  let (labels, rest) ← decodeBlock (line.dropWhile (!endsName ·))
  return {
    name := line.takeWhile (!endsName ·)
    labels := labels
    value := rest.takeWhile (· ≠ ' ')
    timestamp_ms := Int64.ofInt (readInt ((rest.dropWhile (· ≠ ' ')).drop 1)) }

/-- The lines that a reader takes for samples. -/
def sampleLines (text : Str) : List Str := records '\n' '#' text

/-- A sample that can be read back from its line. -/
structure Sample.WellFormed (s : Sample) : Prop where
  name_ne_nil : s.name ≠ []
  name_char : ∀ c ∈ s.name, IsNameChar c
  label_char : ∀ lp ∈ s.labels, ∀ c ∈ lp.name, IsNameChar c
  value_char : ∀ c ∈ s.value, IsTokenChar c

theorem isNameChar_ne {c : Char} (h : IsNameChar c) :
    c ≠ '\n' ∧ c ≠ '#' ∧ c ≠ '{' ∧ c ≠ ' ' ∧ c ≠ '=' := by
  have hno : ∀ d ∈ ['\n', '#', '{', ' ', '='], ¬ IsNameChar d := by
    intro d hd
    fin_cases hd <;> decide
  refine ⟨?_, ?_, ?_, ?_, ?_⟩ <;> rintro rfl <;> exact hno _ (by decide) h

theorem readInt_intText (i : ℤ) : readInt (intText i) = i := by
  unfold intText natText
  split
  · rw [readInt, Nat.ofDigitChars_ten_toDigits]
    omega
  · have hdigit : ∀ digits : Str, (∀ c ∈ digits, c.isDigit = true) →
        readInt digits = (Nat.ofDigitChars 10 digits 0 : ℕ) := by
      intro digits hdigits
      unfold readInt
      split
      · exact absurd (hdigits '-' List.mem_cons_self) (by decide)
      · rfl
    rw [hdigit _ fun c => Nat.isDigit_of_mem_toDigits (by decide) (by decide),
      Nat.ofDigitChars_ten_toDigits]
    omega

/-- After a separator the labels are written as without one. -/
theorem writeLabels_comma {label : List ClientMetric.Label} (h : label ≠ []) :
    (writeLabels [','] label).1 = ',' :: (writeLabels [] label).1 := by
  cases label with
  | nil => exact absurd rfl h
  | cons lp label => simp [writeLabels, writePair]

theorem length_le_writeLabels (separator : Str) (label : List ClientMetric.Label) :
    label.length ≤ (writeLabels separator label).1.length := by
  induction label generalizing separator with
  | nil => simp
  | cons lp label ih =>
      have := ih [',']
      simp only [writeLabels, writePair, List.length_append, List.length_cons]
      omega

/-- One pair is read, and the symbol after it says whether more follow. -/
theorem decodeLabels_pair {lp : ClientMetric.Label} (hchar : ∀ c ∈ lp.name, IsNameChar c)
    (bound : ℕ) (tail : Str) :
    decodeLabels (bound + 1) (writePair [] lp.name lp.value ++ tail) =
      match tail with
      | ',' :: more => do
          let (label, rest) ← decodeLabels bound more
          return (lp :: label, rest)
      | '}' :: rest => some ([lp], rest)
      | _ => none := by
  have htext : writePair [] lp.name lp.value ++ tail =
      lp.name ++ '=' :: '"' :: (encode escapes lp.value ++ '"' :: tail) := by
    simp [writePair, writeValue_eq_encode]
  have hname : ∀ c ∈ lp.name, decide (c ≠ '=') = true := by
    intro c hc
    simpa using (isNameChar_ne (hchar c hc)).2.2.2.2
  have hvalue : decodeUntil escapes '"' (encode escapes lp.value ++ '"' :: tail) =
      some (lp.value, tail) := decodeUntil_encode escapes (by decide) (by decide) lp.value tail
  rw [htext, decodeLabels, dropWhile_stop hname (by decide), takeWhile_stop hname (by decide)]
  simp only [hvalue, Option.bind_eq_bind, Option.bind_some, Option.pure_def]
  rfl

theorem decodeLabels_writeLabels {label : List ClientMetric.Label} (hne : label ≠ [])
    (hchar : ∀ lp ∈ label, ∀ c ∈ lp.name, IsNameChar c) {bound : ℕ} (hbound : label.length ≤ bound)
    (rest : Str) :
    decodeLabels bound ((writeLabels [] label).1 ++ '}' :: rest) = some (label, rest) := by
  induction label generalizing bound with
  | nil => exact absurd rfl hne
  | cons lp label ih =>
      obtain ⟨bound, rfl⟩ : ∃ n, bound = n + 1 := ⟨bound - 1, by simp at hbound; omega⟩
      rw [writeLabels, List.append_assoc, decodeLabels_pair (hchar lp List.mem_cons_self)]
      cases label with
      | nil => rfl
      | cons next label =>
          rw [writeLabels_comma (List.cons_ne_nil next label), List.cons_append]
          calc
            _ = (decodeLabels bound ((writeLabels [] (next :: label)).1 ++ '}' :: rest)).bind
                fun r => some (lp :: r.1, r.2) := rfl
            _ = some (lp :: next :: label, rest) := by
              rw [ih (List.cons_ne_nil next label)
                (fun lp' h => hchar lp' (List.mem_cons_of_mem _ h)) (by simpa using hbound)]
              rfl

theorem decodeBlock_labelBlock {label : List ClientMetric.Label}
    (hchar : ∀ lp ∈ label, ∀ c ∈ lp.name, IsNameChar c) (rest : Str) :
    decodeBlock (labelBlock label ++ ' ' :: rest) = some (label, rest) := by
  cases label with
  | nil => rfl
  | cons lp label =>
      have hne := List.cons_ne_nil lp label
      have hblock : labelBlock (lp :: label) ++ ' ' :: rest =
          '{' :: ((writeLabels [] (lp :: label)).1 ++ '}' :: ' ' :: rest) := by
        simp [labelBlock]
      have hlength := length_le_writeLabels [] (lp :: label)
      rw [hblock, decodeBlock, decodeLabels_writeLabels hne hchar]
      · rfl
      · rw [List.length_append]
        omega

/-- The text after the value is the timestamp, if there is one. -/
theorem decode_value_timestamp {value : Str} (hvalue : ∀ c ∈ value, IsTokenChar c)
    (timestamp_ms : Int64) :
    (value ++ timestampText timestamp_ms).takeWhile (· ≠ ' ') = value ∧
      Int64.ofInt (readInt (((value ++ timestampText timestamp_ms).dropWhile (· ≠ ' ')).drop 1)) =
        timestamp_ms := by
  have hno : ∀ c ∈ value, decide (c ≠ ' ') = true := by
    intro c hc
    simpa using (hvalue c hc).1
  unfold timestampText
  split
  · rw [takeWhile_stop hno (by decide), dropWhile_stop hno (by decide), List.drop_one, List.tail_cons]
    exact ⟨rfl, by rw [show writeValue timestamp_ms = intText timestamp_ms.toInt from rfl,
      readInt_intText, Int64.ofInt_toInt]⟩
  · next hzero =>
      rw [List.append_nil, List.takeWhile_eq_self_iff.mpr hno, List.dropWhile_eq_nil_iff.mpr hno]
      exact ⟨rfl, (not_not.mp hzero).symm⟩

/-- The name of a sample ends where its line says so. -/
theorem line_split {s : Sample} (hs : ∀ c ∈ s.name, IsNameChar c) :
    ∃ stop rest, labelBlock s.labels ++ ' ' :: (s.value ++ timestampText s.timestamp_ms) =
        stop :: rest ∧ endsName stop = true ∧ s.line = s.name ++ stop :: rest ∧
      ∀ c ∈ s.name, (!endsName c) = true := by
  have hname : ∀ c ∈ s.name, (!endsName c) = true := by
    intro c hc
    obtain ⟨-, -, hbrace, hblank, -⟩ := isNameChar_ne (hs c hc)
    simp [endsName, hbrace, hblank]
  have hsplit : ∃ stop rest, labelBlock s.labels ++ ' ' :: (s.value ++ timestampText s.timestamp_ms) =
      stop :: rest ∧ endsName stop = true := by
    cases hlabels : s.labels with
    | nil => exact ⟨' ', _, rfl, rfl⟩
    | cons lp label => exact ⟨'{', _, rfl, rfl⟩
  obtain ⟨stop, rest, htext, hstop⟩ := hsplit
  have hline : s.line = s.name ++ stop :: rest := by
    rw [← htext, Sample.line]
    simp
  exact ⟨stop, rest, htext, hstop, hline, hname⟩

/-- A sample is read back from its line. -/
theorem decodeLine_line {s : Sample} (hs : s.WellFormed) : decodeLine s.line = some s := by
  obtain ⟨stop, rest, htext, hstop, hline, hname⟩ := line_split hs.name_char
  obtain ⟨hvalue, htimestamp⟩ := decode_value_timestamp hs.value_char s.timestamp_ms
  rw [decodeLine, hline, dropWhile_stop hname (by simp [hstop]), takeWhile_stop hname (by simp [hstop]),
    ← htext, decodeBlock_labelBlock hs.label_char]
  simp only [Option.bind_eq_bind, Option.bind_some, Option.pure_def, hvalue, htimestamp]

/-- Nothing in a label block but a name is written as a newline. -/
theorem newline_not_mem_writeLabels {label : List ClientMetric.Label}
    (hnames : ∀ lp ∈ label, '\n' ∉ lp.name) {separator : Str} (hseparator : '\n' ∉ separator) :
    '\n' ∉ (writeLabels separator label).1 := by
  induction label generalizing separator with
  | nil => simp [writeLabels]
  | cons lp label ih =>
      have hname := hnames lp List.mem_cons_self
      have hvalue : '\n' ∉ writeValue lp.value := by
        rw [writeValue_eq_encode]
        apply not_mem_encode escapes (by decide) (by decide)
        intro b
        simp only [escapes]
        split_ifs <;> simp_all
      have hcomma : '\n' ∉ [','] := by decide
      have hrest := ih (fun lp' h => hnames lp' (List.mem_cons_of_mem _ h)) hcomma
      simp [writeLabels, writePair, hseparator, hname, hvalue, hrest]

/-- A sample is one line as soon as its names are. -/
theorem newline_not_mem_line_of_names {s : Sample} (hname : '\n' ∉ s.name)
    (hlabels : ∀ lp ∈ s.labels, '\n' ∉ lp.name) (hvalue : ∀ c ∈ s.value, IsTokenChar c) :
    '\n' ∉ s.line := by
  have hvalue : '\n' ∉ s.value := fun h => (hvalue _ h).2.1 rfl
  have hblock : '\n' ∉ labelBlock s.labels := by
    have := newline_not_mem_writeLabels hlabels (List.not_mem_nil (a := '\n'))
    unfold labelBlock
    split <;> simp [this]
  have htimestamp : '\n' ∉ timestampText s.timestamp_ms := by
    have : '\n' ∉ writeValue s.timestamp_ms := fun h => (writeInt_isTokenChar h).2.1 rfl
    unfold timestampText
    split <;> simp [this]
  simp [Sample.line, hname, hvalue, hblock, htimestamp]

theorem newline_not_mem_line {s : Sample} (hs : s.WellFormed) : '\n' ∉ s.line := by
  have hname : ∀ {name : Str}, (∀ c ∈ name, IsNameChar c) → '\n' ∉ name :=
    fun hchar h => (isNameChar_ne (hchar _ h)).1 rfl
  exact newline_not_mem_line_of_names (hname hs.name_char) (fun lp hlp => hname (hs.label_char lp hlp))
    hs.value_char

/-- A sample's line is no comment. -/
theorem head_line_ne {s : Sample} (hne : s.name ≠ []) (hchar : ∀ c ∈ s.name, IsNameChar c) :
    s.line.head? ≠ some '#' := by
  cases hname : s.name with
  | nil => exact absurd hname hne
  | cons c name =>
      have hc := (isNameChar_ne (hchar c (hname ▸ List.mem_cons_self))).2.1
      simp [Sample.line, hname, hc]

/-- A metric name has no newline. -/
theorem newline_not_mem_metricName {name : Str} (h : checkMetricName name = true) : '\n' ∉ name :=
  fun hmem => (isNameChar_ne (metricName_chars h _ hmem)).1 rfl

/-- After the keyword of a comment line comes a metric name, and after a blank the
rest. -/
theorem read_entry {name : Str} (hname : checkMetricName name = true) (keyword text : Str) :
    keyword.isPrefixOf (keyword ++ name ++ [' '] ++ text) = true ∧
      ((keyword ++ name ++ [' '] ++ text).drop keyword.length).takeWhile (· ≠ ' ') = name ∧
      (((keyword ++ name ++ [' '] ++ text).drop keyword.length).dropWhile (· ≠ ' ')).drop 1 = text := by
  have hno : ∀ c ∈ name, decide (c ≠ ' ') = true := by
    intro c hc
    simpa using (isNameChar_ne (metricName_chars hname c hc)).2.2.2.1
  have hline : keyword ++ name ++ [' '] ++ text = keyword ++ (name ++ ' ' :: text) := by simp
  rw [hline, List.drop_left, takeWhile_stop hno (by decide), dropWhile_stop hno (by decide),
    List.drop_one, List.tail_cons]
  exact ⟨List.isPrefixOf_iff_prefix.mpr (List.prefix_append _ _), rfl, rfl⟩

/-- The suffixes of sample names. -/
def suffixes : List Str :=
  [[], "_count".toList, "_sum".toList, "_bucket".toList, "_info".toList]

/-- The suffixes that the samples of a type are written with. -/
def sampleSuffixes : MetricType → List Str
  | .counter | .gauge | .untyped => [[]]
  | .info => ["_info".toList]
  | .summary => ["_count".toList, "_sum".toList, []]
  | .histogram => ["_count".toList, "_sum".toList, "_bucket".toList]

/-- The names of the label that `WriteHead` adds, or none. -/
def extraLabelNames : List Str := [[], "le".toList, "quantile".toList]

theorem suffixes_chars {suffix : Str} (h : suffix ∈ suffixes) : ∀ c ∈ suffix, IsNameChar c := by
  have hchars : (suffixes.all fun suffix => suffix.all fun c => decide (IsNameChar c)) = true := by
    decide
  intro c hc
  exact of_decide_eq_true (List.all_eq_true.mp (List.all_eq_true.mp hchars suffix h) c hc)

theorem extraLabelNames_chars {name : Str} (h : name ∈ extraLabelNames) :
    ∀ c ∈ name, IsNameChar c := by
  have hchars : (extraLabelNames.all fun name => name.all fun c => decide (IsNameChar c)) = true := by
    decide
  intro c hc
  exact of_decide_eq_true (List.all_eq_true.mp (List.all_eq_true.mp hchars name h) c hc)

/-- What stands for the value of a sample. -/
def IsValueToken (token : Str) : Prop :=
  (∃ d : Double, token = writeValue d) ∨ (∃ i : Int64, token = writeValue i) ∨
    ∃ n : ℕ, token = natText n

/-- The names of the family and its labels pass the library's checks. -/
def ValidNames (family : MetricFamily) : Prop :=
  checkMetricName family.name = true ∧
    ∀ metric ∈ family.metric, ∀ lp ∈ metric.label, ∃ type, checkLabelName lp.name type = true

theorem IsValueToken.isTokenChar {token : Str} (h : IsValueToken token) :
    ∀ c ∈ token, IsTokenChar c := by
  intro c hc
  rcases h with ⟨d, rfl⟩ | ⟨i, rfl⟩ | ⟨n, rfl⟩
  · exact writeDouble_isTokenChar hc
  · exact writeInt_isTokenChar hc
  · exact isTokenChar_of_isNumeral (natText_numeral hc)

theorem isValueToken_number (number : ClientMetric.Number) : IsValueToken (writeValue number) := by
  cases number with
  | int i => exact Or.inr (Or.inl ⟨i, rfl⟩)
  | double d => exact Or.inl ⟨d, rfl⟩

theorem sampleOf_wellFormed {family : MetricFamily} {metric : ClientMetric} {suffix value : Str}
    {extra : List ClientMetric.Label} (hname : checkMetricName family.name = true)
    (hsuffix : suffix ∈ suffixes)
    (hlabels : ∀ lp ∈ metric.label, ∃ type, checkLabelName lp.name type = true)
    (hextra : ∀ lp ∈ extra, lp.name ∈ extraLabelNames) (hvalue : IsValueToken value) :
    (sampleOf family metric suffix extra value).WellFormed where
  name_ne_nil := List.append_ne_nil_of_left_ne_nil (metricName_ne_nil hname) suffix
  name_char c hc := by
    rcases List.mem_append.mp hc with hc | hc
    · exact metricName_chars hname c hc
    · exact suffixes_chars hsuffix c hc
  label_char lp hlp c hc := by
    rcases List.mem_append.mp hlp with hlp | hlp
    · obtain ⟨type, htype⟩ := hlabels lp hlp
      exact labelName_chars htype c hc
    · exact extraLabelNames_chars (hextra lp hlp) c hc
  value_char := hvalue.isTokenChar

end TextSerializer

end Promcore
