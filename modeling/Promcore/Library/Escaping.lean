import Mathlib.Data.List.Infix
import Mathlib.Tactic

/-!
# Escaping symbols behind a marker

A code replaces some symbols, the marker among them, by the marker and a
letter. A coded word can be read back up to a symbol that never appears raw.
A lenient decoder that leaves everything else alone changes exactly the words
that contain a marker followed by a letter.
-/

namespace Escaping

/-- A marker and the letters that stand for escaped symbols. -/
structure Code (α : Type*) where
  mark : α
  letter : α → Option α
  symbol : α → Option α
  symbol_iff : ∀ a c, symbol c = some a ↔ letter a = some c
  mark_escaped : letter mark ≠ none

variable {α : Type*} (E : Code α)

def encodeSymbol (a : α) : List α :=
  match E.letter a with
  | some c => [E.mark, c]
  | none => [a]

def encode (word : List α) : List α := word.flatMap (encodeSymbol E)

@[simp] theorem encode_nil : encode E [] = [] := rfl

@[simp] theorem encode_cons (a : α) (word : List α) :
    encode E (a :: word) = encodeSymbol E a ++ encode E word := rfl

theorem encodeSymbol_of_letter {a c : α} (h : E.letter a = some c) :
    encodeSymbol E a = [E.mark, c] := by
  rw [encodeSymbol, h]

theorem encodeSymbol_of_none {a : α} (h : E.letter a = none) : encodeSymbol E a = [a] := by
  rw [encodeSymbol, h]

/-- An escaped symbol that is neither the marker nor a letter never appears in
a coded word. -/
theorem not_mem_encode {a : α} (hescaped : E.letter a ≠ none) (hmark : a ≠ E.mark)
    (hletter : ∀ b, E.letter b ≠ some a) (word : List α) : a ∉ encode E word := by
  intro hmem
  obtain ⟨b, -, hb⟩ := List.mem_flatMap.mp hmem
  cases hcode : E.letter b with
  | some c =>
      rw [encodeSymbol_of_letter E hcode] at hb
      simp only [List.mem_cons, List.not_mem_nil, or_false] at hb
      rcases hb with rfl | rfl
      · exact hmark rfl
      · exact hletter b hcode
  | none =>
      rw [encodeSymbol_of_none E hcode, List.mem_singleton] at hb
      exact hescaped (hb ▸ hcode)

/-- A word without symbols to escape is its own code. -/
theorem encode_eq_self {word : List α} (h : ∀ a ∈ word, E.letter a = none) :
    encode E word = word := by
  induction word with
  | nil => rfl
  | cons a word ih =>
      rw [encode_cons, encodeSymbol_of_none E (h a List.mem_cons_self),
        ih fun b hb => h b (List.mem_cons_of_mem _ hb), List.singleton_append]

variable [DecidableEq α]

/-- Read a coded word up to the first raw `stop`; the rest follows it. -/
def decodeUntil (stop : α) : List α → Option (List α × List α)
  | [] => none
  | a :: rest =>
      if a = E.mark then
        match rest with
        | [] => none
        | c :: rest =>
            match E.symbol c with
            | some s => (decodeUntil stop rest).map fun r => (s :: r.1, r.2)
            | none => none
      else if a = stop then some ([], rest)
      else (decodeUntil stop rest).map fun r => (a :: r.1, r.2)

theorem decodeUntil_of_ne_mark {stop a : α} (h : a ≠ E.mark) (rest : List α) :
    decodeUntil E stop (a :: rest) =
      if a = stop then some ([], rest)
      else (decodeUntil E stop rest).map fun r => (a :: r.1, r.2) := by
  cases rest <;> simp [decodeUntil, h]

theorem decodeUntil_encode {stop : α} (hstop : E.letter stop ≠ none) (hmark : stop ≠ E.mark)
    (word rest : List α) : decodeUntil E stop (encode E word ++ stop :: rest) = some (word, rest) := by
  induction word with
  | nil =>
      rw [encode_nil, List.nil_append, decodeUntil_of_ne_mark E hmark, if_pos rfl]
  | cons a word ih =>
      cases hletter : E.letter a with
      | some c =>
          rw [encode_cons, encodeSymbol_of_letter E hletter]
          simp only [List.cons_append, List.nil_append, decodeUntil, if_pos,
            (E.symbol_iff a c).mpr hletter, ih, Option.map_some]
      | none =>
          have hamark : a ≠ E.mark := fun h => E.mark_escaped (h ▸ hletter)
          have hastop : a ≠ stop := fun h => hstop (h ▸ hletter)
          rw [encode_cons, encodeSymbol_of_none E hletter, List.singleton_append,
            List.cons_append, decodeUntil_of_ne_mark E hamark, if_neg hastop, ih, Option.map_some]

/-- Replace each marker followed by a letter, and keep everything else. -/
def decode : List α → List α
  | [] => []
  | a :: rest =>
      if a = E.mark then
        match rest with
        | [] => [a]
        | c :: tail =>
            match E.symbol c with
            | some s => s :: decode tail
            | none => a :: decode (c :: tail)
      else a :: decode rest

theorem decode_of_ne_mark {a : α} (h : a ≠ E.mark) (rest : List α) :
    decode E (a :: rest) = a :: decode E rest := by
  cases rest <;> simp [decode, h]

/-- No marker of the word is followed by a letter. -/
def Plain (word : List α) : Prop := ∀ c, E.symbol c ≠ none → ¬ [E.mark, c] <:+: word

omit [DecidableEq α] in
theorem Plain.tail {a : α} {word : List α} (h : Plain E (a :: word)) : Plain E word :=
  fun c hc hinside => h c hc (hinside.trans (List.suffix_cons a word).isInfix)

theorem decode_length_le (word : List α) : (decode E word).length ≤ word.length := by
  induction word using decode.induct E with
  | case1 => simp [decode]
  | case2 => simp [decode]
  | case3 c tail s hs ih =>
      simp only [decode, if_pos, hs, List.length_cons]
      omega
  | case4 c tail hs ih =>
      simp only [decode, if_pos, hs, List.length_cons] at ih ⊢
      omega
  | case5 a rest hmark ih =>
      rw [decode_of_ne_mark E hmark, List.length_cons, List.length_cons]
      omega

/-- The decoder changes exactly the words that are not plain. -/
theorem decode_eq_self_iff (word : List α) : decode E word = word ↔ Plain E word := by
  induction word using decode.induct E with
  | case1 => simp [decode, Plain]
  | case2 =>
      simp only [decode, if_pos, Plain, true_iff]
      intro c _ hinside
      simpa using hinside.length_le
  | case3 c tail s hs ih =>
      -- a pair in front: the decoded word is shorter
      constructor
      · intro heq
        have hshort := congrArg List.length heq
        simp only [decode, if_pos, hs, List.length_cons] at hshort
        have := decode_length_le E tail
        omega
      · intro hplain
        exact absurd ⟨[], tail, rfl⟩ (hplain c (by simp [hs]))
  | case4 c tail hs ih =>
      have hstep : decode E (E.mark :: c :: tail) = E.mark :: decode E (c :: tail) := by
        simp only [decode, if_pos, hs]
      rw [hstep, List.cons_inj_right, ih]
      constructor
      · intro hplain c' hc' hinside
        rcases List.infix_cons_iff.mp hinside with hfront | hrest
        · obtain rfl : c' = c := by simpa using hfront
          exact hc' hs
        · exact hplain c' hc' hrest
      · exact Plain.tail E
  | case5 a rest hmark ih =>
      rw [decode_of_ne_mark E hmark, List.cons_inj_right, ih]
      constructor
      · intro hplain c hc hinside
        rcases List.infix_cons_iff.mp hinside with hfront | hrest
        · have ha : E.mark = a := (List.cons_prefix_cons.mp hfront).1
          exact hmark ha.symm
        · exact hplain c hc hrest
      · exact Plain.tail E

end Escaping
