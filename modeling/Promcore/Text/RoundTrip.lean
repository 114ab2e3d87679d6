import Promcore.Text.Decoding

/-!
# Sample lines decode uniquely

Every line written for a sample is read back, and splitting the whole text at
its newlines gives the lines that were written.
-/

namespace Promcore

namespace TextSerializer

open Lines

/-- What the samples of a metric are made of: a suffix of the type, at most one
label more, and a number. -/
theorem exists_of_mem_metricSamples {family : MetricFamily} {metric : ClientMetric} {s : Sample}
    (hs : s ∈ metricSamples family metric) :
    ∃ suffix ∈ sampleSuffixes family.type, ∃ extra value, s = sampleOf family metric suffix extra value ∧
      (∀ lp ∈ extra, lp.name ∈ extraLabelNames) ∧ IsValueToken value := by
  have hdouble (d : Double) : IsValueToken (writeValue d) := Or.inl ⟨d, rfl⟩
  have hcount (n : ℕ) : IsValueToken (natText n) := Or.inr (Or.inr ⟨n, rfl⟩)
  have hle : "le".toList ∈ extraLabelNames := by decide
  have hquantile : "quantile".toList ∈ extraLabelNames := by decide
  unfold metricSamples at hs
  cases htype : family.type with
  | counter =>
      rw [htype] at hs
      exact ⟨[], List.mem_singleton_self _, [], _, List.mem_singleton.mp hs, by simp,
        isValueToken_number metric.counter⟩
  | gauge =>
      rw [htype] at hs
      exact ⟨[], List.mem_singleton_self _, [], _, List.mem_singleton.mp hs, by simp,
        isValueToken_number metric.gauge⟩
  | info =>
      rw [htype] at hs
      exact ⟨_, List.mem_singleton_self _, [], _, List.mem_singleton.mp hs, by simp,
        hdouble metric.info⟩
  | untyped =>
      rw [htype] at hs
      exact ⟨[], List.mem_singleton_self _, [], _, List.mem_singleton.mp hs, by simp,
        hdouble metric.untyped⟩
  | summary =>
      simp only [htype, List.mem_append, List.mem_cons, List.not_mem_nil, or_false, List.mem_map] at hs
      rcases hs with (rfl | rfl) | ⟨q, -, rfl⟩
      · exact ⟨_, by decide, [], _, rfl, by simp, hcount _⟩
      · exact ⟨_, by decide, [], _, rfl, by simp, hdouble _⟩
      · exact ⟨[], by decide, _, _, rfl, by simpa using hquantile, hdouble q.value⟩
  | histogram =>
      simp only [htype, List.mem_append, List.mem_cons, List.not_mem_nil, or_false, List.mem_map] at hs
      rcases hs with ((rfl | rfl) | ⟨b, -, rfl⟩) | hs
      · exact ⟨_, by decide, [], _, rfl, by simp, hcount _⟩
      · exact ⟨_, by decide, [], _, rfl, by simp, hdouble _⟩
      · exact ⟨_, by decide, _, _, rfl, by simpa using hle, hcount _⟩
      · split at hs
        · exact ⟨_, by decide, _, _, List.mem_singleton.mp hs, by simpa using hle, hcount _⟩
        · exact absurd hs List.not_mem_nil

theorem sampleSuffixes_subset (type : MetricType) : sampleSuffixes type ⊆ suffixes := by
  cases type <;> decide

theorem metricSamples_wellFormed {family : MetricFamily} {metric : ClientMetric}
    (hname : checkMetricName family.name = true)
    (hlabels : ∀ lp ∈ metric.label, ∃ type, checkLabelName lp.name type = true) :
    ∀ s ∈ metricSamples family metric, s.WellFormed := by
  intro s hs
  obtain ⟨suffix, hsuffix, extra, value, rfl, hextra, hvalue⟩ := exists_of_mem_metricSamples hs
  exact sampleOf_wellFormed hname (sampleSuffixes_subset _ hsuffix) hlabels hextra hvalue

theorem samples_wellFormed {families : List MetricFamily}
    (h : ∀ family ∈ families, ValidNames family) :
    ∀ s ∈ families.flatMap samples, s.WellFormed := by
  intro s hs
  obtain ⟨family, hfamily, hs⟩ := List.mem_flatMap.mp hs
  obtain ⟨metric, hmetric, hs⟩ := List.mem_flatMap.mp hs
  obtain ⟨hname, hlabels⟩ := h family hfamily
  exact metricSamples_wellFormed hname (hlabels metric hmetric) s hs

theorem newline_not_mem_commentLines {family : MetricFamily}
    (h : checkMetricName family.name = true) (hhelp : '\n' ∉ family.help) : ∀ line ∈ commentLines family, '\n' ∉ line := by
  have hname := newline_not_mem_metricName h
  have htype : '\n' ∉ typeWord family.type := by
    cases family.type <;> decide
  intro line hline
  unfold commentLines at hline
  rcases List.mem_append.mp hline with hline | hline
  · split at hline
    · simp at hline
    · rw [List.mem_singleton.mp hline]
      unfold helpLine
      simp [hname, hhelp]
  · rw [List.mem_singleton.mp hline]
    simp [hname, htype]

theorem head_commentLines {family : MetricFamily} :
    ∀ line ∈ commentLines family, line.head? = some '#' := by
  intro line hline
  unfold commentLines at hline
  rcases List.mem_append.mp hline with hline | hline
  · split at hline
    · simp at hline
    · rw [List.mem_singleton.mp hline]
      unfold helpLine
      simp
  · rw [List.mem_singleton.mp hline]
    simp

/-- Only the comments are dropped. -/
theorem filter_allLines {families : List MetricFamily}
    (h : ∀ family ∈ families, ValidNames family) :
    ((allLines families).filter fun line => line.head? ≠ some '#') =
      (families.flatMap samples).map Sample.line := by
  induction families with
  | nil => rfl
  | cons family families ih =>
      have hcomments : ((commentLines family).filter fun line => line.head? ≠ some '#') = [] := by
        apply List.filter_eq_nil_iff.mpr
        intro line hline
        simpa using head_commentLines line hline
      have hsamples : (((samples family).map Sample.line).filter fun line => line.head? ≠ some '#') =
          (samples family).map Sample.line := by
        apply List.filter_eq_self.mpr
        intro line hline
        obtain ⟨s, hs, rfl⟩ := List.mem_map.mp hline
        have hwf := samples_wellFormed h s (List.mem_flatMap.mpr ⟨family, List.mem_cons_self, hs⟩)
        simpa using head_line_ne hwf.name_ne_nil hwf.name_char
      have hrest := ih fun family' h' => h family' (List.mem_cons_of_mem _ h')
      rw [allLines] at hrest ⊢
      rw [List.flatMap_cons, List.filter_append, List.filter_append, hcomments, hsamples, hrest,
        List.flatMap_cons, List.map_append, List.nil_append]

/-- Splitting at newlines and dropping comments gives the sample lines. -/
theorem sampleLines_serialize {families : List MetricFamily}
    (h : ∀ family ∈ families, ValidNames family) (hhelp : ∀ family ∈ families, '\n' ∉ family.help) :
    sampleLines (serialize families) = (families.flatMap samples).map Sample.line := by
  have hlines : ∀ line ∈ allLines families, '\n' ∉ line := by
    intro line hline
    obtain ⟨family, hfamily, hline⟩ := List.mem_flatMap.mp hline
    rcases List.mem_append.mp hline with hline | hline
    · exact newline_not_mem_commentLines (h family hfamily).1 (hhelp family hfamily) line hline
    · obtain ⟨s, hs, rfl⟩ := List.mem_map.mp hline
      exact newline_not_mem_line (samples_wellFormed h s (List.mem_flatMap.mpr ⟨family, hfamily, hs⟩))
  rw [sampleLines, serialize_eq, records_terminated hlines, filter_allLines h]

/-- The samples that a reader finds in a text. -/
def readSamples (text : Str) : List Sample := (sampleLines text).filterMap decodeLine

theorem filterMap_decodeLine {written : List Sample} (h : ∀ s ∈ written, s.WellFormed) :
    (written.map Sample.line).filterMap decodeLine = written := by
  rw [List.filterMap_map]
  refine (List.filterMap_congr fun s hs => ?_).trans List.filterMap_some
  exact decodeLine_line (h s hs)

/-- The text of one metric is read back as its samples. -/
theorem readSamples_serializeMetric {family : MetricFamily} {metric : ClientMetric}
    (hname : checkMetricName family.name = true)
    (hlabels : ∀ lp ∈ metric.label, ∃ type, checkLabelName lp.name type = true) :
    readSamples (serializeMetric family metric) = metricSamples family metric := by
  have hwf := metricSamples_wellFormed hname hlabels
  have hlines : ∀ line ∈ (metricSamples family metric).map Sample.line, '\n' ∉ line := by
    intro line hline
    obtain ⟨s, hs, rfl⟩ := List.mem_map.mp hline
    exact newline_not_mem_line (hwf s hs)
  have hrecords : ((metricSamples family metric).map Sample.line).filter
      (fun line => line.head? ≠ some '#') = (metricSamples family metric).map Sample.line := by
    apply List.filter_eq_self.mpr
    intro line hline
    obtain ⟨s, hs, rfl⟩ := List.mem_map.mp hline
    simpa using head_line_ne (hwf s hs).name_ne_nil (hwf s hs).name_char
  rw [readSamples, sampleLines, serializeMetric_eq, records_terminated hlines, hrecords,
    filterMap_decodeLine hwf]

/-- Each line that `WriteHead`, a value and `WriteTail` write is one line, and
decodes to the sample name, the labels, the value and the timestamp; a text
without newlines in its help splits into exactly the sample lines; and two
samples with the same line are the same. -/
theorem sample_lines_decode :
    (∀ {T : Type} [Writable T] [Inhabited T] [Readable T] (family : MetricFamily)
        (metric : ClientMetric) (suffix extraLabelName : Str) (extraLabelValue : T) (token : Str),
      checkMetricName family.name = true → suffix ∈ suffixes →
      (∀ lp ∈ metric.label, ∃ type, checkLabelName lp.name type = true) →
      extraLabelName ∈ extraLabelNames → IsValueToken token →
      ∃ line, writeHead family metric suffix extraLabelName extraLabelValue ++ token ++
          writeTail metric = line ++ ['\n'] ∧ '\n' ∉ line ∧
        decodeLine line = some
          { name := family.name ++ suffix
            labels := metric.label ++ extraLabel extraLabelName extraLabelValue
            value := token
            timestamp_ms := metric.timestamp_ms }) ∧
    (∀ families : List MetricFamily,
      (∀ family ∈ families, ValidNames family ∧ '\n' ∉ family.help) →
      sampleLines (serialize families) = (families.flatMap samples).map Sample.line) ∧
    ∀ families : List MetricFamily, (∀ family ∈ families, ValidNames family) →
      ∀ s ∈ families.flatMap samples, ∀ s' ∈ families.flatMap samples, s.line = s'.line → s = s' := by
  refine ⟨?_, ?_, ?_⟩
  · intro T _ _ _ family metric suffix extraLabelName extraLabelValue token hname hsuffix hlabels
      hextra htoken
    have hwf : (sampleOf family metric suffix (extraLabel extraLabelName extraLabelValue)
        token).WellFormed := by
      apply sampleOf_wellFormed hname hsuffix hlabels _ htoken
      intro lp hlp
      unfold extraLabel at hlp
      split at hlp
      · simp at hlp
      · rw [List.mem_singleton.mp hlp]
        exact hextra
    exact ⟨_, head_value_tail family metric suffix extraLabelName extraLabelValue token,
      newline_not_mem_line hwf, decodeLine_line hwf⟩
  · intro families h
    exact sampleLines_serialize (fun family hf => (h family hf).1) fun family hf => (h family hf).2
  · intro families h s hs s' hs' hline
    have hdecode := decodeLine_line (samples_wellFormed h s hs)
    rw [hline, decodeLine_line (samples_wellFormed h s' hs')] at hdecode
    exact (Option.some.inj hdecode).symm

/-- A histogram's metric whose label value holds a newline, an escaped newline
and text that looks like the end of the block. -/
def awkwardMetric : ClientMetric :=
  { label := [⟨"path".toList, ['\n', '\\', 'n', '"', ',', '\x7d', ' ', '#']⟩], timestamp_ms := -7 }

/-- The awkward label comes back, beside a bucket's bound, and the histogram's
text splits into three lines. -/
theorem sample_lines_decode_awkward :
    (∃ line, writeHead ⟨"up".toList, [], .histogram, []⟩ awkwardMetric "_bucket".toList "le".toList
        (Double.finite (1 / 2)) ++ natText 3 ++ writeTail awkwardMetric = line ++ ['\n'] ∧
      '\n' ∉ line ∧ decodeLine line = some
        ⟨"up".toList ++ "_bucket".toList, awkwardMetric.label ++ [⟨"le".toList, "0.5".toList⟩],
          natText 3, -7⟩) ∧
    (sampleLines (serialize [⟨"up".toList, "a help".toList, .histogram, [awkwardMetric]⟩])).length = 3 := by
  have hlabels : ∀ lp ∈ awkwardMetric.label, ∃ type, checkLabelName lp.name type = true := by
    intro lp hlp
    rw [List.mem_singleton.mp hlp]
    exact ⟨.histogram, by decide⟩
  obtain ⟨hdecode, hsplit, -⟩ := sample_lines_decode
  constructor
  · have := hdecode ⟨"up".toList, [], .histogram, []⟩ awkwardMetric "_bucket".toList "le".toList
      (Double.finite (1 / 2)) (natText 3) (by decide) (by decide) hlabels (by decide)
      (Or.inr (Or.inr ⟨3, rfl⟩))
    have hbound : writeValue (Double.finite (1 / 2)) = "0.5".toList := by decide +kernel
    rw [← hbound]
    exact this
  · rw [hsplit]
    · rfl
    · intro family hfamily
      rw [List.mem_singleton.mp hfamily]
      refine ⟨⟨by decide, ?_⟩, by decide⟩
      intro metric hmetric
      rw [List.mem_singleton.mp hmetric]
      exact hlabels

end TextSerializer

end Promcore
