import FrozenScript.Machine.Value
import FrozenScript.Proofs.Token.Rendering

/-!
# Literals of texts

The form in which a text is written for a script, `Value.literal`, is scanned to one token. Its
value is the text itself, but for the zero character: the form has an escape for it which the
scanner does not know, so that the four characters of the escape stay (`spellZeros`). The main
statement is `lex_inverts_literal`.
-/

namespace FrozenScript

open Text

/-- What the quoted form of a character is read as. -/
def spellZero (c : Char) : List Char :=
  if c = '\x00' then ['\\', 'x', '0', '0'] else [c]

/-- A text with every zero character spelled out. -/
def spellZeros (text : String) : String :=
  String.ofList (text.toList.flatMap spellZero)

theorem zero_not_mem_spellZero (c : Char) : '\x00' ∉ spellZero c := by
  unfold spellZero
  split
  next => decide
  next hne => exact fun h => hne (List.mem_singleton.mp h).symm

/-- Spelling out the zero characters changes the texts that hold one, and no others. -/
theorem spellZeros_eq_self_iff {text : String} :
    spellZeros text = text ↔ '\x00' ∉ text.toList := by
  constructor
  · intro h hzero
    rw [← h, spellZeros, String.toList_ofList] at hzero
    obtain ⟨c, -, hc⟩ := List.mem_flatMap.mp hzero
    exact zero_not_mem_spellZero c hc
  · intro h
    have hkeep : ∀ c ∈ text.toList, spellZero c = [c] := by
      intro c hc
      refine if_neg ?_
      rintro rfl
      exact h hc
    rw [spellZeros, List.flatMap_def, List.map_congr_left hkeep, ← List.flatMap_def,
      List.flatMap_singleton', String.ofList_toList]

namespace Lexer

/-- The quoted form of a character is read as the character, or as the escape of the zero
character. -/
theorem textBody_spellZero (c : Char) : TextBody '\'' (Quoted.encodeChar c) (spellZero c) := by
  unfold spellZero
  by_cases hzero : c = '\x00'
  · -- The backslash stays because no escape begins with `x`, and two plain characters follow.
    rw [if_pos hzero, hzero]
    have hdigits : TextBody '\'' ['0', '0'] ['0', '0'] :=
      .plain (by decide) (by decide) (by decide) (.plain (by decide) (by decide) (by decide) .nil)
    exact .escape hdigits
  · rw [if_neg hzero]
    exact textBody_encodeChar hzero

theorem textBody_flatMap_spellZero (chars : List Char) :
    TextBody '\'' (chars.flatMap Quoted.encodeChar) (chars.flatMap spellZero) := by
  induction chars with
  | nil => exact .nil
  | cons c chars ih => exact (textBody_spellZero c).append ih

theorem lexeme_literal (value : String) :
    Lexeme (Value.text value).literal.toList [] (.text (spellZeros value)) := by
  have htext : Lexeme (Quoted.encode value.toList) [] (.text (spellZeros value)) :=
    .text (.inl rfl) (textBody_flatMap_spellZero value.toList)
  rw [Value.literal, Quoted.quote, String.toList_ofList]
  exact htext

end Lexer

/-- The literal of a text is scanned to one token and the ends of the line and of the source. -/
theorem lex_literal (value : String) :
    (lex (Value.text value).literal).map (List.map Token.kind) =
      .ok [.text (spellZeros value), .newline, .endOfFile] := by
  have hlexeme : ∀ lexeme ∈ [((Value.text value).literal.toList, Kind.text (spellZeros value))],
      Lexer.Lexeme lexeme.1 [] lexeme.2 :=
    List.forall_mem_singleton.mpr (Lexer.lexeme_literal value)
  have hscan := lex_spaced hlexeme
  have hnothing : Lexer.behindBlanks [] = [] := rfl
  rw [hnothing, List.append_nil, String.ofList_toList] at hscan
  exact hscan

/-- The literal of a text is scanned to the text with every zero character spelled out, the end of
the line and the end of the source. Hence it is scanned back exactly if the text holds no zero
character, and two such texts have different literals. -/
theorem lex_inverts_literal (value : String) :
    (lex (Value.text value).literal).map (List.map Token.kind) =
        .ok [.text (spellZeros value), .newline, .endOfFile] ∧
      ((lex (Value.text value).literal).map (List.map Token.kind) =
          .ok [.text value, .newline, .endOfFile] ↔ '\x00' ∉ value.toList) ∧
      ∀ other : String, '\x00' ∉ value.toList → '\x00' ∉ other.toList →
        (Value.text value).literal = (Value.text other).literal → value = other := by
  refine ⟨lex_literal value, ?_, fun other hvalue hother hliteral => ?_⟩
  · rw [lex_literal, Except.ok.injEq, List.cons.injEq, Kind.text.injEq, spellZeros_eq_self_iff]
    exact and_iff_left rfl
  · -- Equal literals are scanned to the same text.
    have hscan := lex_literal value
    rw [hliteral, lex_literal other, Except.ok.injEq, List.cons.injEq, Kind.text.injEq,
      spellZeros_eq_self_iff.mpr hvalue, spellZeros_eq_self_iff.mpr hother] at hscan
    exact hscan.1.symm

end FrozenScript
