import GmlDecompiler.Layout.Source
import Mathlib.Logic.Function.Basic

/-!
# String literals read back

A string literal stands between double quotes. A double quote in the string, a backslash, and each
of the characters that would break or shift a line are written as escapes. So the literal ends at
the first quote with no backslash of its own, whatever the string ends with and whatever text comes
next, and it is the only way to write the string on one line.
-/

namespace GmlDecompiler

namespace StringText

/-- The character that an escape stands for, by the character after the backslash. -/
def unescape? : Char → Option Char
  | '"' => some '"'
  | '\\' => some '\\'
  | 'n' => some '\n'
  | 'r' => some '\r'
  | 't' => some '\t'
  | _ => none

/-- The characters up to the next quote that is not escaped, and the text after that quote. A
backslash takes the character after it along, so that this one neither ends the literal nor begins
an escape. -/
def content? : List Char → Option (List Char × List Char)
  | '"' :: text => some ([], text)
  | '\\' :: e :: text => do
    let meant ← unescape? e
    let (chars, rest) ← content? text
    return (meant :: chars, rest)
  | c :: text => do
    let (chars, rest) ← content? text
    return (c :: chars, rest)
  | [] => none

/-- The string of a literal that a text begins with, and the text after the literal. -/
def unquote? (text : String) : Option (String × String) :=
  match text.toList with
  | '"' :: text => do
    let (chars, rest) ← content? text
    return (String.ofList chars, String.ofList rest)
  | _ => none

/-- The text has no line break, carriage return or tab in it. -/
def IsUnbroken (text : List Char) : Prop :=
  ∀ c ∈ text, c ≠ '\n' ∧ c ≠ '\r' ∧ c ≠ '\t'

/-- A character that needs no escape is written as it is. -/
theorem escapeChar_of_ne {c : Char} (hquote : c ≠ '"') (hbackslash : c ≠ '\\')
    (hunbroken : c ≠ '\n' ∧ c ≠ '\r' ∧ c ≠ '\t') : escapeChar c = [c] := by
  obtain ⟨hline, hreturn, htab⟩ := hunbroken
  rw [escapeChar, if_neg hquote, if_neg hbackslash, if_neg hline, if_neg hreturn, if_neg htab]

/-- A character is written as an escape that stands for it, or as it is. Either way no line is
broken or shifted. -/
theorem escapeChar_cases (c : Char) :
    (∃ e, escapeChar c = ['\\', e] ∧ unescape? e = some c ∧ IsUnbroken ['\\', e]) ∨
      escapeChar c = [c] ∧ c ≠ '"' ∧ c ≠ '\\' ∧ IsUnbroken [c] := by
  by_cases hescaped : c = '"' ∨ c = '\\' ∨ c = '\n' ∨ c = '\r' ∨ c = '\t'
  · left
    rcases hescaped with rfl | rfl | rfl | rfl | rfl <;>
      exact ⟨_, rfl, rfl, by simp [IsUnbroken]⟩
  · simp only [not_or] at hescaped
    obtain ⟨hquote, hbackslash, hunbroken⟩ := hescaped
    exact .inr ⟨escapeChar_of_ne hquote hbackslash hunbroken, hquote, hbackslash,
      List.forall_mem_singleton.mpr hunbroken⟩

/-- An escape is the way in which the character it stands for is written. -/
theorem escapeChar_of_unescape? {e c : Char} (hread : unescape? e = some c) :
    escapeChar c = ['\\', e] := by
  unfold unescape? at hread
  split at hread <;> cases hread <;> rfl

/-- One character is read from the way it is written, and the reader is outside of escapes again. -/
theorem content?_escapeChar_append (c : Char) (text : List Char) :
    content? (escapeChar c ++ text) =
      (content? text).map fun (chars, rest) => (c :: chars, rest) := by
  obtain ⟨e, hescape, hmeant, -⟩ | ⟨hself, hquote, hbackslash, -⟩ := escapeChar_cases c
  · rw [hescape, List.cons_append, List.singleton_append, content?, hmeant]
    cases content? text <;> rfl
  · rw [hself, List.singleton_append, content?]
    · cases content? text <;> rfl
    · exact hquote
    · exact fun _ _ h _ => hbackslash h

/-- The reader takes every character of the string, and stops at the quote after the last one. -/
theorem content?_flatMap_escapeChar (chars rest : List Char) :
    content? (chars.flatMap escapeChar ++ '"' :: rest) = some (chars, rest) := by
  induction chars with
  | nil => rfl
  | cons c chars ih =>
    rw [List.flatMap_cons, List.append_assoc, content?_escapeChar_append, ih]
    rfl

/-- What the reader takes ends with a quote, and spells the string with the escapes of a literal
unless it is broken. -/
theorem eq_flatMap_escapeChar_of_content? {text chars rest : List Char}
    (hread : content? text = some (chars, rest)) :
    ∃ spelled, text = spelled ++ '"' :: rest ∧
      (IsUnbroken spelled → spelled = chars.flatMap escapeChar) := by
  -- the induction follows the reader, which takes two characters at once where it meets an escape
  fun_induction content? text generalizing chars with
  | case1 text =>
    cases hread
    exact ⟨[], rfl, fun _ => rfl⟩
  | case2 e text ih =>
    obtain ⟨meant, hmeant, hread⟩ := Option.bind_eq_some_iff.mp hread
    obtain ⟨⟨chars, rest⟩, hchars, hread⟩ := Option.bind_eq_some_iff.mp hread
    cases hread
    obtain ⟨spelled, rfl, hspelled⟩ := ih hchars
    refine ⟨'\\' :: e :: spelled, rfl, fun hunbroken => ?_⟩
    have htail := (List.forall_mem_cons.mp (List.forall_mem_cons.mp hunbroken).2).2
    rw [List.flatMap_cons, escapeChar_of_unescape? hmeant, ← hspelled htail]
    rfl
  | case3 c text hquote hescape ih =>
    obtain ⟨⟨chars, rest⟩, hchars, hread⟩ := Option.bind_eq_some_iff.mp hread
    cases hread
    -- a backslash that ends the text is no escape, but then no quote follows either
    have hbackslash : c ≠ '\\' := by
      rintro rfl
      cases text with
      | nil => cases hchars
      | cons e text => exact hescape e text rfl rfl
    obtain ⟨spelled, rfl, hspelled⟩ := ih hchars
    refine ⟨c :: spelled, rfl, fun hunbroken => ?_⟩
    obtain ⟨hhead, htail⟩ := List.forall_mem_cons.mp hunbroken
    rw [List.flatMap_cons, escapeChar_of_ne hquote hbackslash hhead, ← hspelled htail]
    rfl
  | case4 => cases hread

/-- A literal is read back from in front of any text. -/
theorem unquote?_quoteString_append (s rest : String) :
    unquote? (quoteString s ++ rest) = some (s, rest) := by
  have htext : (quoteString s ++ rest).toList =
      '"' :: (s.toList.flatMap escapeChar ++ '"' :: rest.toList) := by
    simp [quoteString]
  rw [unquote?, htext]
  simp only [content?_flatMap_escapeChar, Option.bind_eq_bind, Option.bind_some,
    String.ofList_toList]
  rfl

/-- A string literal stays on its line, since every line break in it is written as an escape. -/
theorem isUnbroken_quoteString (s : String) : IsUnbroken (quoteString s).toList := by
  have hquote : IsUnbroken ['"'] := by simp [IsUnbroken]
  have hchar (c : Char) : IsUnbroken (escapeChar c) := by
    obtain ⟨e, hescape, -, hunbroken⟩ | ⟨hself, -, -, hunbroken⟩ := escapeChar_cases c
    · rwa [hescape]
    · rwa [hself]
  intro c hc
  rw [quoteString, String.toList_ofList, List.cons_append, List.mem_cons, List.mem_append,
    List.mem_flatMap] at hc
  rcases hc with hopening | ⟨d, -, hc⟩ | hclosing
  · exact hquote c (List.mem_singleton.mpr hopening)
  · exact hchar d c hc
  · exact hquote c hclosing

/-- A text on one line that is read as a string is the literal of the string. -/
theorem eq_quoteString_of_unquote? {literal s rest : String} (hunbroken : IsUnbroken literal.toList)
    (hread : unquote? (literal ++ rest) = some (s, rest)) : literal = quoteString s := by
  unfold unquote? at hread
  split at hread
  · rename_i text htext
    obtain ⟨⟨chars, after⟩, hchars, hread⟩ := Option.bind_eq_some_iff.mp hread
    cases hread
    obtain ⟨spelled, rfl, hspelled⟩ := eq_flatMap_escapeChar_of_content? hchars
    have hliteral : literal.toList = '"' :: spelled ++ ['"'] := by
      rw [String.toList_append, String.toList_ofList] at htext
      exact List.append_cancel_right (htext.trans (by simp))
    rw [hliteral] at hunbroken
    have hchars : spelled = chars.flatMap escapeChar :=
      hspelled fun c hc => hunbroken c (by simp [hc])
    rw [← String.toList_inj, quoteString, String.toList_ofList, String.toList_ofList, hliteral,
      hchars]
  · cases hread

end StringText

/-- The string is read back from its literal, and the text after the literal is left over. So no two
strings have the same literal. It has no line break, carriage return or tab in it, and is the only
such text that is read as the string. -/
theorem string_literal_self_delimiting :
    (∀ s rest : String, StringText.unquote? (quoteString s ++ rest) = some (s, rest)) ∧
      Function.Injective quoteString ∧
      (∀ s : String, StringText.IsUnbroken (quoteString s).toList) ∧
      ∀ literal s rest : String, StringText.IsUnbroken literal.toList →
        StringText.unquote? (literal ++ rest) = some (s, rest) → literal = quoteString s := by
  refine ⟨StringText.unquote?_quoteString_append, fun s t hsame => ?_,
    StringText.isUnbroken_quoteString,
    fun literal s rest => StringText.eq_quoteString_of_unquote?⟩
  have hs := StringText.unquote?_quoteString_append s ""
  rw [hsame, StringText.unquote?_quoteString_append] at hs
  cases hs
  rfl

namespace Sample

/-- A string that ends with a backslash. -/
def folder : String :=
  "saves\\"

/-- The text after a literal, in which a quote comes first and escapes come later. -/
def afterLiteral : String :=
  "\" + \"\\\"\";"

/-- The literal of a string that is a line break. -/
def lineBreak : String :=
  "\"\\n\""

end Sample

/-- A string that ends with a backslash is read back from in front of other text that has quotes in
it, and so is a line break. -/
theorem string_literal_self_delimiting_folder :
    StringText.unquote? (quoteString Sample.folder ++ Sample.afterLiteral) =
        some (Sample.folder, Sample.afterLiteral) ∧
      quoteString Sample.folder ≠ quoteString "saves\"" ∧
      '\n' ∉ (quoteString "\n").toList ∧
      StringText.IsUnbroken Sample.lineBreak.toList ∧
      StringText.unquote? (Sample.lineBreak ++ Sample.afterLiteral) =
        some ("\n", Sample.afterLiteral) ∧
      Sample.lineBreak = quoteString "\n" := by
  obtain ⟨hread, hinjective, hunbroken, hunique⟩ := string_literal_self_delimiting
  have hline : StringText.IsUnbroken Sample.lineBreak.toList := by
    simp [StringText.IsUnbroken, Sample.lineBreak]
  have hbreak : StringText.unquote? (Sample.lineBreak ++ Sample.afterLiteral) =
      some ("\n", Sample.afterLiteral) := by
    decide +kernel
  exact ⟨hread _ _, hinjective.ne (by decide), fun h => (hunbroken _ _ h).1 rfl, hline, hbreak,
    hunique _ _ _ hline hbreak⟩

end GmlDecompiler
