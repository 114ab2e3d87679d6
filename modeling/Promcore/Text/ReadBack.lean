import Promcore.Text.Declared

/-!
# The whole text read back

A reader of the text format that keeps everything: for each family its name,
help text, declared type and samples. It gives back what was written, so the
text says exactly this much of the families.
-/

namespace Promcore

namespace TextSerializer

open Lines

/-- What the text says of a family. -/
structure Exposed where
  name : Str
  help : Str
  type : Str
  samples : List Sample
deriving DecidableEq

def exposed (family : MetricFamily) : Exposed where
  name := family.name
  help := family.help
  type := typeWord family.type
  samples := samples family

/-- The help text of a `# HELP` line, as it stands there. -/
def helpText (line : Str) : Option Str :=
  if "# HELP ".toList.isPrefixOf line then
    some (((line.drop "# HELP ".toList.length).dropWhile (· ≠ ' ')).drop 1)
  else none

/-- What has been read: the help text for the next family, and the families. -/
structure Reading where
  help : Str := []
  families : List Exposed := []

/-- One more line. A sample belongs to the last family; there is no result where
there is none. -/
def readLine (reading : Reading) (line : Str) : Option Reading :=
  match helpText line with
  | some help => some { reading with help }
  | none =>
      match readType line with
      | some head =>
          some { families := reading.families ++ [⟨head.1, reading.help, head.2, []⟩] }
      | none => do
          let sample ← decodeLine line
          let last ← reading.families.getLast?
          return { reading with
            families := reading.families.dropLast ++
              [{ last with samples := last.samples ++ [sample] }] }

def readExposition (text : Str) : Option (List Exposed) :=
  ((lines '\n' text).foldlM readLine {}).map Reading.families

/-- The lines for a family, of what the text says of it. -/
def Exposed.lines (e : Exposed) : List Str :=
  (if e.help.isEmpty then [] else ["# HELP ".toList ++ e.name ++ [' '] ++ e.help]) ++
    ["# TYPE ".toList ++ e.name ++ [' '] ++ e.type] ++ e.samples.map Sample.line

section Write

variable {family : MetricFamily} {families : List MetricFamily}

/-- The text is written from what it says. -/
theorem serialize_exposed (families : List MetricFamily) :
    serialize families = terminated '\n' ((families.map exposed).flatMap Exposed.lines) := by
  rw [serialize_eq, allLines, List.flatMap_map]
  rfl

theorem helpText_helpLine (hname : checkMetricName family.name = true) :
    helpText (helpLine family) = some family.help := by
  obtain ⟨hkeyword, -, hrest⟩ := read_entry hname "# HELP ".toList family.help
  unfold helpText helpLine
  rw [if_pos hkeyword, hrest]

theorem helpText_typeLine (name type : Str) :
    helpText ("# TYPE ".toList ++ name ++ [' '] ++ type) = none := by
  have hother : "# HELP ".toList.isPrefixOf ("# TYPE ".toList ++ name ++ [' '] ++ type) = false := rfl
  rw [helpText, hother]
  rfl

theorem helpText_eq_none {line : Str} (h : line.head? ≠ some '#') : helpText line = none := by
  cases line with
  | nil => rfl
  | cons c line =>
      have hc : c ≠ '#' := fun heq => h (heq ▸ rfl)
      simp [helpText, hc.symm]

/-- The comment lines of a family open its entry. -/
theorem read_commentLines (hname : checkMetricName family.name = true) (read : List Exposed) :
    (commentLines family).foldlM readLine { families := read } =
      some { families := read ++ [{ exposed family with samples := [] }] } := by
  have htype (help : Str) : readLine ⟨help, read⟩
      ("# TYPE ".toList ++ family.name ++ [' '] ++ typeWord family.type) =
        some { families := read ++ [⟨family.name, help, typeWord family.type, []⟩] } := by
    rw [readLine, helpText_typeLine, readType_typeLine hname]
  by_cases hempty : family.help.isEmpty = true
  · rw [commentLines, if_pos hempty, List.nil_append, List.foldlM_cons, htype,
      Option.bind_eq_bind, Option.bind_some, exposed, List.isEmpty_iff.mp hempty]
    rfl
  · have hhelp : readLine { families := read } (helpLine family) = some ⟨family.help, read⟩ := by
      rw [readLine, helpText_helpLine hname]
    rw [commentLines, if_neg hempty, List.singleton_append, List.foldlM_cons, hhelp,
      Option.bind_eq_bind, Option.bind_some, List.foldlM_cons, htype]
    rfl

/-- The sample lines of a family go into its entry. -/
theorem read_samples {samples : List Sample} (hwf : ∀ s ∈ samples, s.WellFormed)
    (read : List Exposed) (e : Exposed) :
    (samples.map Sample.line).foldlM readLine { families := read ++ [e] } =
      some { families := read ++ [{ e with samples := e.samples ++ samples }] } := by
  induction samples generalizing e with
  | nil => simp
  | cons s samples ih =>
      have hs := hwf s List.mem_cons_self
      have hhead := head_line_ne hs.name_ne_nil hs.name_char
      have hline : readLine { families := read ++ [e] } s.line =
          some { families := read ++ [{ e with samples := e.samples ++ [s] }] } := by
        rw [readLine, helpText_eq_none hhead, readType_eq_none hhead, decodeLine_line hs]
        simp
      rw [List.map_cons, List.foldlM_cons, hline, Option.bind_eq_bind, Option.bind_some,
        ih fun s' hs' => hwf s' (List.mem_cons_of_mem _ hs')]
      simp

theorem read_family (hwf : ∀ s ∈ samples family, s.WellFormed)
    (hname : checkMetricName family.name = true) (read : List Exposed) :
    (commentLines family ++ (samples family).map Sample.line).foldlM readLine { families := read } =
      some { families := read ++ [exposed family] } := by
  rw [List.foldlM_append, read_commentLines hname, Option.bind_eq_bind, Option.bind_some,
    read_samples hwf]
  rfl

theorem read_allLines (h : ∀ family ∈ families, ValidNames family) (read : List Exposed) :
    (allLines families).foldlM readLine { families := read } =
      some { families := read ++ families.map exposed } := by
  induction families generalizing read with
  | nil => simp [allLines]
  | cons family families ih =>
      have hwf := fun s hs =>
        samples_wellFormed h s (List.mem_flatMap.mpr ⟨family, List.mem_cons_self, hs⟩)
      have hrest := ih (fun family' h' => h family' (List.mem_cons_of_mem _ h'))
        (read ++ [exposed family])
      rw [allLines] at hrest ⊢
      rw [List.flatMap_cons, List.foldlM_append, read_family hwf (h family List.mem_cons_self).1,
        Option.bind_eq_bind, Option.bind_some, hrest, List.map_cons, List.append_assoc,
        List.singleton_append]

/-- Names that pass the checks have no newline. -/
theorem ValidNames.oneLined (h : ValidNames family) (hhelp : '\n' ∉ family.help) :
    OneLined family where
  help := hhelp
  label metric hmetric lp hlp hmem := by
    obtain ⟨type, htype⟩ := h.2 metric hmetric lp hlp
    exact (isNameChar_ne (labelName_chars htype _ hmem)).1 rfl

theorem readExposition_serialize (h : ∀ family ∈ families, ValidNames family ∧ '\n' ∉ family.help) :
    readExposition (serialize families) = some (families.map exposed) := by
  rw [readExposition, lines_serialize (fun family hf => (h family hf).1.1)
    fun family hf => (h family hf).1.oneLined (h family hf).2,
    read_allLines fun family hf => (h family hf).1]
  rfl

end Write

/-- The text of families with valid names and helps of one line is read back as
their names, help texts, declared types and samples; so two lists of families
have the same text exactly when they agree on these. -/
theorem exposition_read_back {families : List MetricFamily}
    (h : ∀ family ∈ families, ValidNames family ∧ '\n' ∉ family.help) :
    readExposition (serialize families) = some (families.map exposed) ∧
      ∀ families' : List MetricFamily,
        (∀ family ∈ families', ValidNames family ∧ '\n' ∉ family.help) →
        (serialize families = serialize families' ↔ families.map exposed = families'.map exposed) := by
  refine ⟨readExposition_serialize h, fun families' h' => ⟨fun heq => ?_, fun heq => ?_⟩⟩
  · have hread := readExposition_serialize h
    rw [heq, readExposition_serialize h'] at hread
    exact (Option.some.inj hread).symm
  · rw [serialize_exposed, serialize_exposed, heq]

/-- A gauge and an info, with a label value that looks like a comment line. -/
def rooms : List MetricFamily :=
  [⟨"rooms".toList, "# TYPE rooms counter".toList, .gauge,
      [{ label := [⟨"floor".toList, "\n# HELP rooms".toList⟩], gauge := .int 3 }]⟩,
    ⟨"house".toList, [], .info, [{}]⟩]

theorem rooms_valid : ∀ family ∈ rooms, ValidNames family ∧ '\n' ∉ family.help := by
  intro family hfamily
  rcases List.mem_pair.mp hfamily with rfl | rfl
  · refine ⟨⟨by decide, fun metric hmetric lp hlp => ⟨.gauge, ?_⟩⟩, by decide⟩
    rw [List.mem_singleton.mp hmetric] at hlp
    rw [List.mem_singleton.mp hlp]
    decide
  · refine ⟨⟨by decide, fun metric hmetric lp hlp => ?_⟩, by decide⟩
    rw [List.mem_singleton.mp hmetric] at hlp
    exact absurd hlp List.not_mem_nil

theorem exposition_read_back_rooms :
    readExposition (serialize rooms) = some (rooms.map exposed) :=
  (exposition_read_back rooms_valid).1

end TextSerializer

end Promcore
