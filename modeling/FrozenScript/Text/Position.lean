import FrozenScript.Text.Span

/-!
# Lines and columns

Positions in a text count bytes, because a source file is a sequence of bytes. `lineColumn`
computes the line and the column of an offset from the bytes before it; `Cursor` keeps the same
information while characters are consumed one by one, and `Cursor.offset_advanceBy` says how far
it moves.
-/

namespace FrozenScript.Text

/-- The byte that ends a line. -/
def newlineByte : UInt8 := 10

/-- The line and the column of a byte offset, both counted from one. An offset behind the text
counts as the end of the text. -/
def lineColumn (bytes : List UInt8) (offset : Nat) : Nat × Nat :=
  let before := bytes.take offset
  (before.count newlineByte + 1, (before.reverse.takeWhile (· != newlineByte)).length + 1)

/-- The span from an offset up to the end of its line. An offset behind the text counts as the
end of the text. -/
def restOfLine (bytes : List UInt8) (offset : Nat) : Span :=
  let start := min offset bytes.length
  ⟨start, ((bytes.drop start).takeWhile (· != newlineByte)).length⟩

/-- The number of bytes that a list of characters takes. -/
def byteLength (chars : List Char) : Nat :=
  chars.foldl (fun total c => total + c.utf8Size) 0

theorem byteLength_cons (c : Char) (chars : List Char) :
    byteLength (c :: chars) = c.utf8Size + byteLength chars := by
  have hfoldl (total : Nat) : chars.foldl (fun total c => total + c.utf8Size) total =
      total + byteLength chars := by
    unfold byteLength
    induction chars generalizing total with
    | nil => rfl
    | cons d chars ih =>
      rw [List.foldl_cons, List.foldl_cons, ih, ih (0 + d.utf8Size)]
      omega
  rw [byteLength, List.foldl_cons, hfoldl, Nat.zero_add]

theorem byteLength_append (chars more : List Char) :
    byteLength (chars ++ more) = byteLength chars + byteLength more := by
  induction chars with
  | nil => exact (Nat.zero_add _).symm
  | cons c chars ih => rw [List.cons_append, byteLength_cons, byteLength_cons, ih, Nat.add_assoc]

/-- The characters of a text take as many bytes as the text. -/
theorem byteLength_toList (text : String) : byteLength text.toList = text.utf8ByteSize := by
  have hsize (chars : List Char) : chars.utf8Encode.size = byteLength chars := by
    induction chars with
    | nil => rfl
    | cons c chars ih =>
      rw [byteLength_cons, ← ih]
      simp [List.utf8Encode]
  rw [← hsize, String.utf8Encode_toList]
  rfl

/-- A place between two characters of a text, together with its line. -/
structure Cursor where
  offset : Nat := 0
  line : Nat := 1
  lineStart : Nat := 0
  deriving DecidableEq, Repr, Inhabited

namespace Cursor

/-- The column of a cursor, counted from one. -/
def column (cursor : Cursor) : Nat :=
  cursor.offset - cursor.lineStart + 1

/-- Move over one character. -/
def advance (cursor : Cursor) (c : Char) : Cursor :=
  let offset := cursor.offset + c.utf8Size
  if c = '\n' then ⟨offset, cursor.line + 1, offset⟩ else { cursor with offset }

/-- Move over a list of characters. -/
def advanceBy (cursor : Cursor) (chars : List Char) : Cursor :=
  chars.foldl advance cursor

theorem advanceBy_append (cursor : Cursor) (chars more : List Char) :
    cursor.advanceBy (chars ++ more) = (cursor.advanceBy chars).advanceBy more :=
  List.foldl_append

/-- A cursor moves as many bytes as the characters take. -/
theorem offset_advanceBy (cursor : Cursor) (chars : List Char) :
    (cursor.advanceBy chars).offset = cursor.offset + byteLength chars := by
  induction chars generalizing cursor with
  | nil => rfl
  | cons c chars ih =>
    have hoffset : (cursor.advance c).offset = cursor.offset + c.utf8Size := by
      unfold advance
      split <;> rfl
    rw [advanceBy, List.foldl_cons, ← advanceBy, ih, hoffset, byteLength_cons, Nat.add_assoc]

/-- The span from one cursor up to another. -/
def spanTo (start stop : Cursor) : Span :=
  Span.between start.offset stop.offset

/-- The empty span at a cursor. -/
def point (cursor : Cursor) : Span :=
  ⟨cursor.offset, 0⟩

end Cursor

end FrozenScript.Text
