import Promcore.Library.Sections
import Promcore.Text.RoundTrip

/-!
# Samples under their declared type

Each `# TYPE` line opens the group of a family, and the names of the samples
that follow are the declared name with a suffix of the declared type. An info
is declared as a gauge and its samples end in `_info`.
-/

namespace Promcore

namespace TextSerializer

open Lines

/-- The metric name and the type that a reader takes from a line. -/
def readType (line : Str) : Option (Str × Str) :=
  if "# TYPE ".toList.isPrefixOf line then
    let entry := line.drop "# TYPE ".toList.length
    some (entry.takeWhile (· ≠ ' '), (entry.dropWhile (· ≠ ' ')).drop 1)
  else none

/-- The sample name of a line. -/
def sampleName (line : Str) : Str := line.takeWhile (!endsName ·)

/-- The suffixes that the text format defines for a declared type. -/
def formatSuffixes (type : Str) : List Str :=
  if type = "histogram".toList then ["_bucket".toList, "_sum".toList, "_count".toList]
  else if type = "summary".toList then ["_sum".toList, "_count".toList]
  else []

/-- Where there are infos, the samples of a gauge may also end in `_info`. -/
def readerSuffixes (infos : Bool) (type : Str) : List Str :=
  formatSuffixes type ++ if infos ∧ type = "gauge".toList then ["_info".toList] else []

/-- The sample names that a declared name covers. -/
def coveredNames (suffixes : List Str) (name : Str) : List Str :=
  name :: suffixes.map (name ++ ·)

/-- The rule by which a reader groups samples. -/
def textFormat (suffixes : Str → List Str) : Sections.Format Str (Str × Str) Str where
  header := readType
  comment line := line.head? = some '#'
  covers head line := sampleName line ∈ coveredNames (suffixes head.2) head.1
  key := Prod.fst

def readFamilies (suffixes : Str → List Str) (text : Str) :
    Option (List (Sections.Group (Str × Str) Str)) :=
  (textFormat suffixes).read (lines '\n' text)

/-- A family as its declared name and type, and its sample lines. -/
def declared (family : MetricFamily) : Sections.Group (Str × Str) Str where
  head := (family.name, typeWord family.type)
  body := (samples family).map Sample.line

/-- Every sample line is covered by the `# TYPE` line before it, and the reader
recovers the families. -/
structure Covered (suffixes : Str → List Str) (families : List MetricFamily) : Prop where
  covered : ∀ before line after, lines '\n' (serialize families) = before ++ line :: after →
    line.head? ≠ some '#' → ∃ head, (textFormat suffixes).current before = some head ∧
      sampleName line ∈ coveredNames (suffixes head.2) head.1
  grouped : readFamilies suffixes (serialize families) = some (families.map declared)

/-- Nothing that is written without escapes has a newline. -/
structure OneLined (family : MetricFamily) : Prop where
  help : '\n' ∉ family.help
  label : ∀ metric ∈ family.metric, ∀ lp ∈ metric.label, '\n' ∉ lp.name

section Family

variable {family : MetricFamily}

theorem sample_name_chars (hname : checkMetricName family.name = true) {s : Sample}
    (hs : s ∈ samples family) : s.name ≠ [] ∧ ∀ c ∈ s.name, IsNameChar c := by
  obtain ⟨metric, -, hs⟩ := List.mem_flatMap.mp hs
  obtain ⟨suffix, hsuffix, extra, value, rfl, -, -⟩ := exists_of_mem_metricSamples hs
  refine ⟨List.append_ne_nil_of_left_ne_nil (metricName_ne_nil hname) suffix, fun c hc => ?_⟩
  rcases List.mem_append.mp hc with hc | hc
  · exact metricName_chars hname c hc
  · exact suffixes_chars (sampleSuffixes_subset _ hsuffix) c hc

theorem newline_not_mem_sample (hname : checkMetricName family.name = true)
    (hlines : OneLined family) {s : Sample} (hs : s ∈ samples family) : '\n' ∉ s.line := by
  have hchars := (sample_name_chars hname hs).2
  obtain ⟨metric, hmetric, hs⟩ := List.mem_flatMap.mp hs
  obtain ⟨suffix, -, extra, value, rfl, hextra, hvalue⟩ := exists_of_mem_metricSamples hs
  apply newline_not_mem_line_of_names (fun h => (isNameChar_ne (hchars _ h)).1 rfl) _
    hvalue.isTokenChar
  intro lp hlp
  rcases List.mem_append.mp hlp with hlp | hlp
  · exact hlines.label metric hmetric lp hlp
  · exact fun h => (isNameChar_ne (extraLabelNames_chars (hextra lp hlp) _ h)).1 rfl

theorem sampleName_line {s : Sample} (hs : ∀ c ∈ s.name, IsNameChar c) : sampleName s.line = s.name := by
  obtain ⟨stop, rest, -, hstop, hline, hname⟩ := line_split hs
  rw [sampleName, hline, takeWhile_stop hname (by simp [hstop])]

/-- The sample names of a family: an info has another one than its declared type
allows. -/
def sampleNames (family : MetricFamily) : List Str :=
  if family.type = .info then [family.name ++ "_info".toList]
  else coveredNames (formatSuffixes (typeWord family.type)) family.name

theorem sampleSuffixes_allowed (type : MetricType) :
    sampleSuffixes type ⊆
      if type = .info then ["_info".toList] else [] :: formatSuffixes (typeWord type) := by
  cases type <;> decide

theorem sample_name_mem {s : Sample} (hs : s ∈ samples family) : s.name ∈ sampleNames family := by
  obtain ⟨metric, -, hs⟩ := List.mem_flatMap.mp hs
  obtain ⟨suffix, hsuffix, extra, value, rfl, -, -⟩ := exists_of_mem_metricSamples hs
  have hallowed := sampleSuffixes_allowed family.type hsuffix
  unfold sampleNames coveredNames
  split at hallowed
  · next hinfo =>
      rw [if_pos hinfo, List.mem_singleton.mp hallowed]
      exact List.mem_singleton_self _
  · next hinfo =>
      rw [if_neg hinfo]
      rcases List.mem_cons.mp hallowed with rfl | hallowed
      · exact List.mem_cons.mpr (Or.inl (List.append_nil _))
      · exact List.mem_cons_of_mem _ (List.mem_map_of_mem hallowed)

/-- With the suffix of infos for gauges, the declared type covers all sample
names. -/
theorem sampleNames_covered {infos : Bool} (hinfos : family.type = .info → infos = true) :
    sampleNames family ⊆ coveredNames (readerSuffixes infos (typeWord family.type)) family.name := by
  unfold sampleNames
  split
  · next hinfo =>
      have hmem : "_info".toList ∈ readerSuffixes infos (typeWord family.type) := by
        rw [hinfos hinfo, hinfo]
        decide
      exact List.cons_subset.mpr
        ⟨List.mem_cons_of_mem _ (List.mem_map_of_mem hmem), List.nil_subset _⟩
  · exact List.cons_subset_cons _ (List.map_subset _ (List.subset_append_left _ _))

theorem readType_typeLine (hname : checkMetricName family.name = true) :
    readType ("# TYPE ".toList ++ family.name ++ [' '] ++ typeWord family.type) =
      some (family.name, typeWord family.type) := by
  obtain ⟨hkeyword, hentry, hrest⟩ := read_entry hname "# TYPE ".toList (typeWord family.type)
  simp only [readType, hkeyword, hentry, hrest, if_true]

theorem readType_comments {line : Str}
    (h : line ∈ if family.help.isEmpty then [] else [helpLine family]) :
    readType line = none ∧ line.head? = some '#' := by
  by_cases hempty : family.help.isEmpty = true
  · rw [if_pos hempty] at h
    exact absurd h List.not_mem_nil
  · rw [if_neg hempty] at h
    have hother : "# TYPE ".toList.isPrefixOf (helpLine family) = false := rfl
    rw [List.mem_singleton.mp h]
    exact ⟨by rw [readType, hother]; rfl, rfl⟩

theorem readType_eq_none {line : Str} (h : line.head? ≠ some '#') : readType line = none := by
  cases line with
  | nil => rfl
  | cons c line =>
      have hc : c ≠ '#' := fun heq => h (heq ▸ rfl)
      simp [readType, hc.symm]

/-- What is written for a family is a group of the reader. -/
theorem writes_family (hname : checkMetricName family.name = true) {infos : Bool}
    (hinfos : family.type = .info → infos = true) :
    (textFormat (readerSuffixes infos)).Writes
      (if family.help.isEmpty then [] else [helpLine family])
      ("# TYPE ".toList ++ family.name ++ [' '] ++ typeWord family.type) (declared family) := by
  have hsample : ∀ line ∈ (samples family).map Sample.line,
      line.head? ≠ some '#' ∧ sampleName line ∈ sampleNames family := by
    intro line hline
    obtain ⟨s, hs, rfl⟩ := List.mem_map.mp hline
    obtain ⟨hne, hchars⟩ := sample_name_chars hname hs
    rw [sampleName_line hchars]
    exact ⟨head_line_ne hne hchars, sample_name_mem hs⟩
  exact {
    comments_header := fun line hline => (readType_comments hline).1
    comments_comment := fun line hline => decide_eq_true (readType_comments hline).2
    head := readType_typeLine hname
    body_header := fun line hline => readType_eq_none (hsample line hline).1
    body_comment := fun line hline => decide_eq_false (hsample line hline).1
    body_covers := fun line hline =>
      decide_eq_true (sampleNames_covered hinfos (hsample line hline).2) }

end Family

theorem lines_serialize {families : List MetricFamily}
    (hvalid : ∀ family ∈ families, checkMetricName family.name = true)
    (hlines : ∀ family ∈ families, OneLined family) :
    lines '\n' (serialize families) = allLines families := by
  rw [serialize_eq]
  apply lines_terminated
  intro line hline
  obtain ⟨family, hfamily, hline⟩ := List.mem_flatMap.mp hline
  rcases List.mem_append.mp hline with hline | hline
  · exact newline_not_mem_commentLines (hvalid family hfamily) (hlines family hfamily).help line hline
  · obtain ⟨s, hs, rfl⟩ := List.mem_map.mp hline
    exact newline_not_mem_sample (hvalid family hfamily) (hlines family hfamily) hs

/-- The samples of an info end in `_info`, all others are named as the text
format defines for the declared type, and a reader that groups the lines by
this rule recovers the families, their declared types and their samples. -/
theorem samples_declared {families : List MetricFamily}
    (hnames : (families.map MetricFamily.name).Nodup)
    (hvalid : ∀ family ∈ families, checkMetricName family.name = true)
    (hlines : ∀ family ∈ families, OneLined family) :
    (∀ family ∈ families, ∀ s ∈ samples family, s.name ∈ sampleNames family) ∧
      Covered (readerSuffixes (families.any (·.type = .info))) families := by
  have hinfos : ∀ family ∈ families, family.type = .info → families.any (·.type = .info) = true :=
    fun family hfamily hinfo => List.any_eq_true.mpr ⟨family, hfamily, decide_eq_true hinfo⟩
  have hgrouped : readFamilies (readerSuffixes (families.any (·.type = .info)))
      (serialize families) = some (families.map declared) := by
    rw [readFamilies, lines_serialize hvalid hlines]
    have hwritten := fun family hfamily =>
      writes_family (hvalid family hfamily) (hinfos family hfamily)
    refine Eq.trans ?_ (Sections.Format.read_written hwritten hnames)
    rw [allLines]
    congr 1
    exact List.flatMap_congr fun family _ => by simp [commentLines, declared]
  refine ⟨fun family _ s hs => sample_name_mem hs, ?_, hgrouped⟩
  intro before line after hsplit hhead
  rw [readFamilies, hsplit] at hgrouped
  obtain ⟨head, hcurrent, hcovers⟩ := Sections.Format.covered_of_read hgrouped
    (readType_eq_none hhead) (decide_eq_false hhead)
  exact ⟨head, hcurrent, of_decide_eq_true hcovers⟩

/-- An info and a counter whose samples have the same name. -/
def builds : List MetricFamily :=
  [⟨"build".toList, "versions".toList, .info, [{}]⟩, ⟨"build_info".toList, [], .counter, [{}]⟩]

theorem samples_declared_builds :
    (∀ family ∈ builds, ∀ s ∈ samples family, s.name ∈ sampleNames family) ∧
      Covered (readerSuffixes true) builds := by
  have hvalid : ∀ family ∈ builds, checkMetricName family.name = true := by decide
  have hlines : ∀ family ∈ builds, OneLined family := by
    intro family hfamily
    constructor
    · revert family
      decide
    · revert family
      decide
  exact samples_declared (by decide) hvalid hlines

/-- The rule of the text format alone does not cover the samples of an info, and a
newline in a help text or in a label name starts a line that nothing covers. -/
theorem not_covered :
    ((builds.map MetricFamily.name).Nodup ∧
      (∀ family ∈ builds, checkMetricName family.name = true) ∧ ¬ Covered formatSuffixes builds) ∧
    ¬ Covered formatSuffixes [⟨"up".toList, ['a', '\n', 'b'], .counter, []⟩] ∧
    ¬ Covered formatSuffixes
      [⟨"up".toList, [], .counter, [{ label := [⟨['a', '\n', 'b'], []⟩] }]⟩] := by
  have hrefuted : ∀ families, readFamilies formatSuffixes (serialize families) = none →
      ¬ Covered formatSuffixes families := by
    intro families hnone h
    rw [h.grouped] at hnone
    cases hnone
  exact ⟨⟨by decide, by decide, hrefuted _ (by decide +kernel)⟩, hrefuted _ (by decide +kernel),
    hrefuted _ (by decide +kernel)⟩

end TextSerializer

end Promcore
