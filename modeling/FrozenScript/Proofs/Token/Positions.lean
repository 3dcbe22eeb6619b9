import FrozenScript.Proofs.Token.Bytes
import FrozenScript.Proofs.Token.Places
import Mathlib.Data.List.Induction

/-!
# Positions of tokens

The line and the column of a token can be found in two ways: from all the bytes before it, as
`lineColumn` does, or from the place of the token before it and the bytes between the two, as
`locate` does. `locate` keeps the place of the last token in a cursor that only moves forward; an
offset behind the cursor is computed from the bytes before it, and leaves the cursor where it is.

`Tracks` is the invariant of the cursor: it is where a walk from the beginning of the text would be.
The main statement, `lex_positions`, says that the two ways give the same line and the same column
for all tokens of a source, and that these are the ones in the tokens.
-/

namespace FrozenScript

open Text

/-! ## Walking over bytes -/

namespace Text

/-- Move over one byte. -/
def Cursor.overByte (cursor : Cursor) (byte : UInt8) : Cursor :=
  let offset := cursor.offset + 1
  if byte = newlineByte then ⟨offset, cursor.line + 1, offset⟩ else { cursor with offset }

/-- Move over some bytes. -/
def Cursor.overBytes (cursor : Cursor) (bytes : List UInt8) : Cursor :=
  bytes.foldl overByte cursor

/-- The line and the column of a cursor. -/
def Cursor.place (cursor : Cursor) : Nat × Nat :=
  (cursor.line, cursor.column)

/-- The line and the column of an offset, found from a cursor, and the cursor for the next one. -/
def locate (bytes : List UInt8) (cursor : Cursor) (offset : Nat) : (Nat × Nat) × Cursor :=
  if offset < cursor.offset then (lineColumn bytes offset, cursor)
  else
    let cursor := cursor.overBytes ((bytes.take offset).drop cursor.offset)
    (cursor.place, cursor)

/-- A cursor is where a walk from the beginning of the bytes would be. -/
def Cursor.Tracks (bytes : List UInt8) (cursor : Cursor) : Prop :=
  cursor = Cursor.overBytes {} (bytes.take cursor.offset)

namespace Cursor

variable {bytes more : List UInt8} {cursor : Cursor}

theorem overBytes_append (cursor : Cursor) (bytes more : List UInt8) :
    cursor.overBytes (bytes ++ more) = (cursor.overBytes bytes).overBytes more :=
  List.foldl_append

/-- Bytes within a line change nothing but the offset. -/
theorem overBytes_of_not_mem (h : newlineByte ∉ bytes) :
    cursor.overBytes bytes = { cursor with offset := cursor.offset + bytes.length } := by
  induction bytes generalizing cursor with
  | nil => rfl
  | cons byte bytes ih =>
      rw [List.mem_cons, not_or] at h
      have hbyte : cursor.overByte byte = { cursor with offset := cursor.offset + 1 } :=
        if_neg (Ne.symm h.1)
      rw [overBytes, List.foldl_cons, ← overBytes, hbyte, ih h.2, List.length_cons]
      dsimp only
      rw [Nat.add_assoc, Nat.add_comm 1]

/-- A walk counts its bytes and its lines, and knows where the last line starts. -/
theorem overBytes_eq (bytes : List UInt8) :
    Cursor.overBytes {} bytes = ⟨bytes.length, bytes.count newlineByte + 1,
      bytes.length - (bytes.reverse.takeWhile (· != newlineByte)).length⟩ := by
  induction bytes using List.reverseRecOn with
  | nil => rfl
  | append_singleton bytes byte ih =>
      rw [overBytes_append, ih]
      by_cases hline : byte = newlineByte
      · simp [hline, overBytes, overByte]
      · simp [hline, overBytes, overByte]

/-- The place at the end of a walk is the one that is computed from its bytes. -/
theorem place_overBytes (bytes : List UInt8) (offset : Nat) :
    (Cursor.overBytes {} (bytes.take offset)).place = lineColumn bytes offset := by
  generalize hbefore : bytes.take offset = before
  have hlast : (before.reverse.takeWhile (· != newlineByte)).length ≤ before.length := by
    rw [← before.length_reverse]
    exact (List.takeWhile_prefix _).length_le
  rw [overBytes_eq, lineColumn, hbefore]
  refine Prod.ext rfl ?_
  show before.length - (before.length - _) + 1 = _ + 1
  omega

theorem offset_overBytes (cursor : Cursor) (bytes : List UInt8) :
    (cursor.overBytes bytes).offset = cursor.offset + bytes.length := by
  induction bytes generalizing cursor with
  | nil => rfl
  | cons byte bytes ih =>
      have hbyte : (cursor.overByte byte).offset = cursor.offset + 1 := by
        unfold overByte
        split <;> rfl
      rw [overBytes, List.foldl_cons, ← overBytes, ih, hbyte, List.length_cons]
      omega

namespace Tracks

theorem initial (bytes : List UInt8) : Tracks bytes {} :=
  rfl

/-- A walk from the beginning leads to a cursor that tracks. -/
theorem overBytes (bytes : List UInt8) (offset : Nat) :
    Tracks bytes (Cursor.overBytes {} (bytes.take offset)) := by
  have hoffset := offset_overBytes {} (bytes.take offset)
  rw [List.length_take, Nat.zero_add] at hoffset
  rw [Tracks, hoffset, ← List.take_eq_take_min]

/-- A walk from a cursor that tracks leads where one from the beginning does. -/
theorem overBytes_eq (h : cursor.Tracks bytes) {offset : Nat} (hle : cursor.offset ≤ offset) :
    cursor.overBytes ((bytes.take offset).drop cursor.offset) =
      Cursor.overBytes {} (bytes.take offset) := by
  have hbefore : (bytes.take offset).take cursor.offset = bytes.take cursor.offset := by
    rw [List.take_take, Nat.min_eq_left hle]
  have hsplit : bytes.take cursor.offset ++ (bytes.take offset).drop cursor.offset =
      bytes.take offset := by
    rw [← hbefore, List.take_append_drop]
  rw [← hsplit, overBytes_append, ← h, hsplit]

/-- Offsets are located where they are, and the cursor keeps tracking, in whatever order they
come. -/
theorem locate (h : cursor.Tracks bytes) (offset : Nat) :
    (locate bytes cursor offset).1 = lineColumn bytes offset ∧
      (locate bytes cursor offset).2.Tracks bytes := by
  unfold Text.locate
  split
  next => exact ⟨rfl, h⟩
  next hforward =>
    rw [h.overBytes_eq (Nat.le_of_not_lt hforward)]
    exact ⟨place_overBytes bytes offset, .overBytes bytes offset⟩

end Tracks

end Cursor

/-! ## Walking over characters -/

/-- Moving over the bytes of a character is moving over the character. -/
theorem Cursor.overBytes_utf8EncodeChar (cursor : Cursor) (c : Char) :
    cursor.overBytes (String.utf8EncodeChar c) = cursor.advance c := by
  by_cases hline : c = '\n'
  · subst hline
    rfl
  · have hnone : newlineByte ∉ String.utf8EncodeChar c := by
      intro hmem
      exact hline ((ofUInt8_eq_iff hmem (by decide)).mp rfl)
    rw [overBytes_of_not_mem hnone, String.length_utf8EncodeChar, advance, if_neg hline]

theorem Cursor.overBytes_bytes (cursor : Cursor) (chars : List Char) :
    cursor.overBytes (Utf8.bytes chars) = cursor.advanceBy chars := by
  induction chars generalizing cursor with
  | nil => rfl
  | cons c chars ih =>
      rw [Utf8.bytes_cons, overBytes_append, overBytes_utf8EncodeChar, ih]
      rfl

end Text

/-- The place behind some characters of a source is the one that is computed from their bytes. -/
theorem lineColumn_of_split {source : String} {before after : List Char}
    (h : source.toList = before ++ after) :
    lineColumn (Utf8.encode source) (byteLength before) = (cursorBehind before).place := by
  have hbytes : Utf8.encode source = Utf8.bytes before ++ Utf8.bytes after := by
    rw [← Utf8.bytes_append, ← h]
    rfl
  have htake : (Utf8.encode source).take (byteLength before) = Utf8.bytes before := by
    rw [hbytes, ← Utf8.length_bytes, List.take_left]
  rw [← Cursor.place_overBytes, htake, Cursor.overBytes_bytes, cursorBehind]

/-! ## Tokens -/

/-- Kinds and spans become tokens: each of them is located from the place of the one before. -/
def locateTokens (bytes : List UInt8) : Cursor → List (Kind × Span) → List Token
  | _, [] => []
  | cursor, (kind, span) :: rest =>
    let located := locate bytes cursor span.offset
    ⟨kind, span, located.1.1, located.1.2⟩ :: locateTokens bytes located.2 rest

/-- Tokens that stand where they should are located there, in whatever order they come. -/
theorem locateTokens_kindsAndSpans {bytes : List UInt8} {cursor : Cursor} {tokens : List Token}
    (htracks : cursor.Tracks bytes)
    (h : ∀ token ∈ tokens, (token.line, token.column) = lineColumn bytes token.span.offset) :
    locateTokens bytes cursor (ByteLexer.kindsAndSpans tokens) = tokens := by
  induction tokens generalizing cursor with
  | nil => rfl
  | cons token tokens ih =>
      obtain ⟨htoken, htokens⟩ := List.forall_mem_cons.mp h
      obtain ⟨hplace, hkeeps⟩ := htracks.locate token.span.offset
      have hrest := ih hkeeps htokens
      show (⟨token.kind, token.span, _, _⟩ : Token) ::
        locateTokens bytes _ (ByteLexer.kindsAndSpans tokens) = token :: tokens
      rw [hrest, hplace, ← htoken]

/-- The line and the column of every token of a source are those of its offset. Scanning the bytes
and locating each token from the one before it gives the same tokens. -/
theorem lex_positions {source : String} {tokens : List Token} (h : lex source = .ok tokens) :
    (∀ token ∈ tokens,
        (token.line, token.column) = lineColumn (Utf8.encode source) token.span.offset) ∧
      ∃ walked, ByteLexer.lex source = .ok walked ∧
        locateTokens (Utf8.encode source) {} walked = tokens := by
  have hplaces : ∀ token ∈ tokens,
      (token.line, token.column) = lineColumn (Utf8.encode source) token.span.offset := by
    intro token htoken
    obtain ⟨before, inside, after, hsplit, hspans⟩ := (placed_of_lex h).2 token htoken
    rw [hspans.span, lineColumn_of_split hsplit, hspans.line, hspans.column]
    rfl
  have hwalked : ByteLexer.lex source = .ok (ByteLexer.kindsAndSpans tokens) := by
    rw [byteLexer_lex, h]
    rfl
  exact ⟨hplaces, _, hwalked, locateTokens_kindsAndSpans (.initial _) hplaces⟩

/-- A blank line, a line break between parentheses and one in a text, and a comment lie between the
tokens. -/
theorem lex_positions_broken_lines :
    ∃ tokens, lex "if x:\n\n f(\n'a\\\nb')#\n" = .ok tokens ∧
      (∀ token ∈ tokens, (token.line, token.column) =
        lineColumn (Utf8.encode "if x:\n\n f(\n'a\\\nb')#\n") token.span.offset) ∧
      ∃ walked, ByteLexer.lex "if x:\n\n f(\n'a\\\nb')#\n" = .ok walked ∧
        locateTokens (Utf8.encode "if x:\n\n f(\n'a\\\nb')#\n") {} walked = tokens := by
  have hlex : lex "if x:\n\n f(\n'a\\\nb')#\n" = .ok [⟨.keyword .ifWord, ⟨0, 2⟩, 1, 1⟩,
      ⟨.identifier "x", ⟨3, 1⟩, 1, 4⟩, ⟨.symbol .colon, ⟨4, 1⟩, 1, 5⟩, ⟨.newline, ⟨5, 1⟩, 1, 6⟩,
      ⟨.indent, ⟨7, 1⟩, 3, 1⟩, ⟨.identifier "f", ⟨8, 1⟩, 3, 2⟩,
      ⟨.symbol .openParen, ⟨9, 1⟩, 3, 3⟩, ⟨.text "ab", ⟨11, 6⟩, 4, 1⟩,
      ⟨.symbol .closeParen, ⟨17, 1⟩, 5, 3⟩, ⟨.newline, ⟨19, 1⟩, 5, 5⟩, ⟨.dedent, ⟨20, 0⟩, 6, 1⟩,
      ⟨.endOfFile, ⟨20, 0⟩, 6, 1⟩] :=
    eq_ok_of_toOption (by decide +kernel)
  obtain ⟨hplaces, hwalked⟩ := lex_positions hlex
  exact ⟨_, hlex, hplaces, hwalked⟩

end FrozenScript
