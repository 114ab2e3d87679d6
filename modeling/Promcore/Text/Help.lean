import Promcore.Library.Simulation
import Promcore.Text.RoundTrip

/-!
# Help texts

The help text is the one string that is written without escapes. It is read
back, and stays out of the sample lines, exactly when it has no newline and
nothing that reads as an escape.
-/

namespace Promcore

namespace TextSerializer

open Escaping Lines

/-- The two escapes of help texts in the format. -/
def helpEscapes : Code Char where
  mark := '\\'
  letter c := if c = '\n' then some 'n' else if c = '\\' then some c else none
  symbol c := if c = 'n' then some '\n' else if c = '\\' then some c else none
  symbol_iff a c := by
    constructor
    · intro h
      split_ifs at h with h₁ h₂ <;> simp_all [← Option.some.inj h]
    · intro h
      split_ifs at h with h₁ h₂ <;> simp_all [← Option.some.inj h]
  mark_escaped := by decide

/-- The metric name and the help text that a reader takes from a line. -/
def readHelp (line : Str) : Option (Str × Str) :=
  if "# HELP ".toList.isPrefixOf line then
    let entry := line.drop "# HELP ".toList.length
    some (entry.takeWhile (· ≠ ' '), decode helpEscapes ((entry.dropWhile (· ≠ ' ')).drop 1))
  else none

/-- The `# HELP` entry is one line, from which the help text is read back. -/
def HelpReadsBack (family : MetricFamily) : Prop :=
  family.help ≠ [] → ∃ line, helpEntry family = line ++ ['\n'] ∧ '\n' ∉ line ∧
    readHelp line = some (family.name, family.help)

/-- Two families that differ only in help texts that are not empty. -/
structure DifferInHelp (family family' : MetricFamily) : Prop where
  name : family'.name = family.name
  type : family'.type = family.type
  metric : family'.metric = family.metric
  help : family'.help = [] ↔ family.help = []

/-- No newline, no two backslashes in a row and no backslash before an `n`. -/
def HelpIsPlain (help : Str) : Prop :=
  '\n' ∉ help ∧ ¬ ['\\', '\\'] <:+: help ∧ ¬ ['\\', 'n'] <:+: help

theorem plain_iff (help : Str) :
    Plain helpEscapes help ↔ ¬ ['\\', '\\'] <:+: help ∧ ¬ ['\\', 'n'] <:+: help := by
  constructor
  · intro h
    exact ⟨h '\\' (by decide), h 'n' (by decide)⟩
  · rintro ⟨hmark, hnewline⟩ c hc
    by_cases hn : c = 'n'
    · rwa [hn]
    · by_cases hm : c = '\\'
      · rwa [hm]
      · simp [helpEscapes, hn, hm] at hc

theorem helpEntry_of_ne_nil {family : MetricFamily} (h : family.help ≠ []) :
    helpEntry family = helpLine family ++ ['\n'] := by
  rw [helpEntry_eq, if_neg (by simpa using h), terminated_singleton]

/-- A reader decodes the help text as it stands in the line. -/
theorem readHelp_helpLine {family : MetricFamily} (hname : checkMetricName family.name = true) :
    readHelp (helpLine family) = some (family.name, decode helpEscapes family.help) := by
  obtain ⟨hkeyword, hentry, hrest⟩ := read_entry hname "# HELP ".toList family.help
  unfold readHelp helpLine
  rw [if_pos hkeyword]
  dsimp only
  rw [hentry, hrest]

theorem helpReadsBack_iff {family : MetricFamily} (hname : checkMetricName family.name = true) :
    HelpReadsBack family ↔ HelpIsPlain family.help := by
  by_cases hempty : family.help = []
  · simp [HelpReadsBack, HelpIsPlain, hempty]
  have hentry := helpEntry_of_ne_nil hempty
  have hread := readHelp_helpLine hname
  have hdecode := (decode_eq_self_iff helpEscapes family.help).trans (plain_iff family.help)
  constructor
  · intro h
    obtain ⟨line, hline, hnewline, hback⟩ := h hempty
    obtain rfl : helpLine family = line := List.append_cancel_right (hentry.symm.trans hline)
    rw [hread, Option.some.injEq, Prod.mk.injEq] at hback
    refine ⟨fun hmem => hnewline ?_, hdecode.mp hback.2⟩
    unfold helpLine
    exact List.mem_append_right _ hmem
  · rintro ⟨hnewline, hplain⟩ -
    refine ⟨helpLine family, hentry, ?_, by rw [hread, hdecode.mpr hplain]⟩
    have hnameline := newline_not_mem_metricName hname
    unfold helpLine
    simp [hnameline, hnewline]

/-- The samples do not depend on the help text. -/
theorem DifferInHelp.samples {family family' : MetricFamily} (h : DifferInHelp family family') :
    TextSerializer.samples family' = TextSerializer.samples family := by
  have hsample (metric : ClientMetric) : sampleOf family' metric = sampleOf family metric := by
    funext suffix extra value
    simp only [sampleOf, h.name]
  have hmetric : metricSamples family' = metricSamples family := by
    funext metric
    simp only [metricSamples, hsample, h.type]
  rw [TextSerializer.samples, h.metric, hmetric, TextSerializer.samples]

theorem samples_congr {families families' : List MetricFamily}
    (h : List.Forall₂ DifferInHelp families families') :
    families'.flatMap samples = families.flatMap samples := by
  induction h with
  | nil => rfl
  | cons hhead _ ih => rw [List.flatMap_cons, List.flatMap_cons, hhead.samples, ih]

theorem DifferInHelp.validNames {family family' : MetricFamily} (h : DifferInHelp family family')
    (hvalid : ValidNames family) : ValidNames family' := by
  unfold ValidNames
  rw [h.name, h.metric]
  exact hvalid

/-- All help texts read back, and two texts that differ in them only have the
same sample lines, exactly when all help texts are plain. -/
theorem help_harmless_iff {families families' : List MetricFamily}
    (hvalid : ∀ family ∈ families, ValidNames family)
    (hdiffer : List.Forall₂ DifferInHelp families families') :
    ((∀ family ∈ families ++ families', HelpReadsBack family) ∧
        sampleLines (serialize families) = sampleLines (serialize families')) ↔
      ∀ family ∈ families ++ families', HelpIsPlain family.help := by
  have hvalid' : ∀ family ∈ families', ValidNames family := by
    intro family' hfamily'
    obtain ⟨family, hfamily, hd⟩ := Simulation.exists_of_mem_forall₂ hdiffer hfamily'
    exact hd.validNames (hvalid family hfamily)
  have hiff : (∀ family ∈ families ++ families', HelpReadsBack family) ↔
      ∀ family ∈ families ++ families', HelpIsPlain family.help := by
    apply forall₂_congr
    intro family hfamily
    rcases List.mem_append.mp hfamily with hfamily | hfamily
    · exact helpReadsBack_iff (hvalid family hfamily).1
    · exact helpReadsBack_iff (hvalid' family hfamily).1
  rw [hiff]
  apply and_iff_left_of_imp
  intro hplain
  rw [sampleLines_serialize hvalid fun family h => (hplain family (List.mem_append_left _ h)).1,
    sampleLines_serialize hvalid' fun family h => (hplain family (List.mem_append_right _ h)).1,
    samples_congr hdiffer]

/-- A counter with one metric. -/
def jobs (help : Str) : MetricFamily := ⟨"jobs".toList, help, .counter, [{}]⟩

theorem jobs_validNames (help : Str) : ∀ family ∈ [jobs help], ValidNames family := by
  intro family hfamily
  rw [List.mem_singleton.mp hfamily]
  constructor
  · exact show checkMetricName "jobs".toList = true by decide
  · simp [jobs]

theorem jobs_differInHelp {help help' : Str} (h : help ≠ []) (h' : help' ≠ []) :
    List.Forall₂ DifferInHelp [jobs help] [jobs help'] :=
  List.Forall₂.cons ⟨rfl, rfl, rfl, by simp [jobs, h, h']⟩ List.Forall₂.nil

/-- Plain help texts are harmless. -/
theorem help_harmless_iff_plain :
    (∀ family ∈ [jobs "Jobs.".toList] ++ [jobs "All jobs\\day.".toList], HelpReadsBack family) ∧
      sampleLines (serialize [jobs "Jobs.".toList]) =
        sampleLines (serialize [jobs "All jobs\\day.".toList]) := by
  apply (help_harmless_iff (jobs_validNames _) (jobs_differInHelp (by decide) (by decide))).mpr
  intro family hfamily
  rcases List.mem_cons.mp hfamily with rfl | hfamily
  · unfold HelpIsPlain
    decide
  · rw [List.mem_singleton.mp hfamily]
    unfold HelpIsPlain
    decide

/-- A newline in the help text of a counter starts a sample line of its own. -/
theorem help_forges_line :
    (∀ family ∈ [jobs "Jobs.".toList], ValidNames family) ∧
      List.Forall₂ DifferInHelp [jobs "Jobs.".toList] [jobs "Jobs.\nadmin 1".toList] ∧
      ¬ HelpReadsBack (jobs "Jobs.\nadmin 1".toList) ∧
      sampleLines (serialize [jobs "Jobs.".toList]) = ["jobs 0".toList] ∧
      sampleLines (serialize [jobs "Jobs.\nadmin 1".toList]) =
        ["admin 1".toList, "jobs 0".toList] := by
  refine ⟨jobs_validNames _, jobs_differInHelp (by decide) (by decide), ?_, by decide +kernel,
    by decide +kernel⟩
  rw [helpReadsBack_iff (jobs_validNames _ _ List.mem_cons_self).1]
  exact fun h => h.1 (by decide)

end TextSerializer

end Promcore
