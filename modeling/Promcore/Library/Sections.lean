import Promcore.Library.Simulation
import Mathlib.Data.List.Induction
import Mathlib.Data.List.Nodup

/-!
# Texts made of sections

A header line opens a section, and the lines after it belong to it up to the
next header. A reader also checks that the header covers each of these lines
and that no two sections have the same key; comments belong to no section.
-/

namespace Sections

variable {α β η κ : Type*}

/-- What the reader sees in a line, and which lines a header covers. -/
structure Format (α η κ : Type*) where
  header : α → Option η
  comment : α → Bool
  covers : η → α → Bool
  key : η → κ

/-- A header and the lines of its section. -/
structure Group (η α : Type*) where
  head : η
  body : List α
deriving DecidableEq

/-- The header of the current section. -/
def Format.current (F : Format α η κ) (lines : List α) : Option η :=
  lines.reverse.findSome? F.header

theorem Format.current_snoc (F : Format α η κ) (lines : List α) (line : α) :
    F.current (lines ++ [line]) = (F.header line).or (F.current lines) := by
  rw [current, List.reverse_append, List.reverse_singleton, List.findSome?_append,
    List.findSome?_singleton, current]

variable [DecidableEq κ] (F : Format α η κ)

/-- One more line; there is no result where a line is not covered or a key
occurs again. -/
def Format.step (groups : List (Group η α)) (line : α) : Option (List (Group η α)) :=
  match F.header line with
  | some head =>
      if F.key head ∈ groups.map fun group => F.key group.head then none
      else some (groups ++ [⟨head, []⟩])
  | none =>
      if F.comment line then some groups
      else
        groups.getLast?.bind fun group =>
          if F.covers group.head line then
            some (groups.dropLast ++ [⟨group.head, group.body ++ [line]⟩])
          else none

/-- The sections of a text. -/
def Format.read (lines : List α) : Option (List (Group η α)) := lines.foldlM F.step []

variable {F}

theorem Format.step_current {groups groups' : List (Group η α)} {lines : List α} {line : α}
    (hgroups : groups.getLast?.map Group.head = F.current lines)
    (hstep : F.step groups line = some groups') :
    groups'.getLast?.map Group.head = F.current (lines ++ [line]) := by
  rw [F.current_snoc]
  unfold step at hstep
  cases hheader : F.header line with
  | some head =>
      rw [hheader] at hstep
      dsimp only at hstep
      split at hstep
      · cases hstep
      · obtain rfl := Option.some.inj hstep
        simp
  | none =>
      rw [hheader] at hstep
      dsimp only at hstep
      rw [Option.none_or]
      split at hstep
      · obtain rfl := Option.some.inj hstep
        exact hgroups
      · obtain ⟨group, hlast, hcovered⟩ := Option.bind_eq_some_iff.mp hstep
        rw [hlast] at hgroups
        split at hcovered
        · obtain rfl := Option.some.inj hcovered
          simpa using hgroups
        · cases hcovered

/-- The last section read is the current one. -/
theorem Format.read_current {lines : List α} {groups : List (Group η α)}
    (hread : F.read lines = some groups) :
    groups.getLast?.map Group.head = F.current lines := by
  induction lines using List.reverseRecOn generalizing groups with
  | nil =>
      obtain rfl := Option.some.inj hread
      rfl
  | append_singleton lines line ih =>
      rw [read, Simulation.foldlM_snoc, Option.bind_eq_some_iff] at hread
      obtain ⟨groups₁, hlines, hstep⟩ := hread
      exact step_current (ih hlines) hstep

/-- In a text that is read, the current header covers every line but headers and
comments. -/
theorem Format.covered_of_read {before after : List α} {line : α} {groups : List (Group η α)}
    (hread : F.read (before ++ line :: after) = some groups) (hheader : F.header line = none)
    (hcomment : F.comment line = false) :
    ∃ head, F.current before = some head ∧ F.covers head line = true := by
  rw [read, List.foldlM_append, Option.bind_eq_bind, Option.bind_eq_some_iff] at hread
  obtain ⟨groups₁, hbefore, hrest⟩ := hread
  rw [List.foldlM_cons, Option.bind_eq_bind, Option.bind_eq_some_iff] at hrest
  obtain ⟨groups₂, hstep, -⟩ := hrest
  have hcurrent := read_current hbefore
  unfold step at hstep
  rw [hheader, hcomment] at hstep
  obtain ⟨group, hlast, hcovered⟩ := Option.bind_eq_some_iff.mp hstep
  rw [hlast] at hcurrent
  refine ⟨group.head, hcurrent.symm, ?_⟩
  by_contra hno
  rw [if_neg hno] at hcovered
  cases hcovered

theorem Format.foldlM_comments {lines : List α} (hheader : ∀ line ∈ lines, F.header line = none)
    (hcomment : ∀ line ∈ lines, F.comment line = true) (groups : List (Group η α)) :
    lines.foldlM F.step groups = some groups := by
  induction lines with
  | nil => rfl
  | cons line lines ih =>
      have hstep : F.step groups line = some groups := by
        rw [step, hheader line List.mem_cons_self]
        exact if_pos (hcomment line List.mem_cons_self)
      rw [List.foldlM_cons, hstep, Option.bind_eq_bind, Option.bind_some]
      exact ih (fun line h => hheader line (List.mem_cons_of_mem _ h))
        fun line h => hcomment line (List.mem_cons_of_mem _ h)

theorem Format.foldlM_body {head : η} {lines : List α}
    (hheader : ∀ line ∈ lines, F.header line = none)
    (hcomment : ∀ line ∈ lines, F.comment line = false)
    (hcovers : ∀ line ∈ lines, F.covers head line = true) (groups : List (Group η α))
    (body : List α) :
    lines.foldlM F.step (groups ++ [⟨head, body⟩]) = some (groups ++ [⟨head, body ++ lines⟩]) := by
  induction lines generalizing body with
  | nil => rw [List.append_nil]; rfl
  | cons line lines ih =>
      have hstep : F.step (groups ++ [⟨head, body⟩]) line =
          some (groups ++ [⟨head, body ++ [line]⟩]) := by
        rw [step, hheader line List.mem_cons_self]
        simp [hcomment line List.mem_cons_self, hcovers line List.mem_cons_self]
      rw [List.foldlM_cons, hstep, Option.bind_eq_bind, Option.bind_some,
        ih (fun line h => hheader line (List.mem_cons_of_mem _ h))
          (fun line h => hcomment line (List.mem_cons_of_mem _ h))
          (fun line h => hcovers line (List.mem_cons_of_mem _ h)),
        List.append_assoc, List.singleton_append]

/-- What a writer puts down for a section: comments, the header line, and lines
that the header covers. -/
structure Format.Writes (F : Format α η κ) (comments : List α) (headLine : α)
    (group : Group η α) : Prop where
  comments_header : ∀ line ∈ comments, F.header line = none
  comments_comment : ∀ line ∈ comments, F.comment line = true
  head : F.header headLine = some group.head
  body_header : ∀ line ∈ group.body, F.header line = none
  body_comment : ∀ line ∈ group.body, F.comment line = false
  body_covers : ∀ line ∈ group.body, F.covers group.head line = true

theorem Format.Writes.foldlM {comments : List α} {headLine : α} {group : Group η α}
    (h : F.Writes comments headLine group) {groups : List (Group η α)}
    (hkey : F.key group.head ∉ groups.map fun group => F.key group.head) :
    (comments ++ headLine :: group.body).foldlM F.step groups = some (groups ++ [group]) := by
  have hstep : F.step groups headLine = some (groups ++ [⟨group.head, []⟩]) := by
    rw [step, h.head]
    exact if_neg hkey
  rw [List.foldlM_append, foldlM_comments h.comments_header h.comments_comment, Option.bind_eq_bind,
    Option.bind_some, List.foldlM_cons, hstep, Option.bind_eq_bind, Option.bind_some,
    foldlM_body h.body_header h.body_comment h.body_covers, List.nil_append]

/-- Sections with different keys are read back as they were written. -/
theorem Format.read_written {items : List β} {comments : β → List α} {headLine : β → α}
    {group : β → Group η α} (h : ∀ b ∈ items, F.Writes (comments b) (headLine b) (group b))
    (hkeys : (items.map fun b => F.key (group b).head).Nodup) :
    F.read (items.flatMap fun b => comments b ++ headLine b :: (group b).body) =
      some (items.map group) := by
  induction items using List.reverseRecOn with
  | nil => rfl
  | append_singleton items b ih =>
      rw [List.map_append, List.nodup_append] at hkeys
      obtain ⟨hitems, -, hdisjoint⟩ := hkeys
      have hb : F.key (group b).head ∉ (items.map group).map fun group => F.key group.head := by
        rw [List.map_map]
        exact fun hmem => hdisjoint _ hmem _ (by simp) rfl
      have hread := ih (fun b' h' => h b' (List.mem_append_left _ h')) hitems
      rw [read] at hread
      rw [read, List.flatMap_append, List.foldlM_append, hread, Option.bind_eq_bind, Option.bind_some,
        List.flatMap_singleton, (h b (by simp)).foldlM hb, List.map_append, List.map_singleton]

end Sections
