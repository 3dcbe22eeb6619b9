import FrozenScript.Text.Position
import FrozenScript.Token.Basic

/-!
# From text to tokens

`lex` splits a source text into tokens. The layout of the text becomes tokens too: a logical line
ends in a newline token, a deeper line opens a block with an indent token, and a shallower line
closes blocks with dedent tokens. Blank lines, comments and line breaks between parentheses leave
no token.

The scanner works on the list of characters that are left. Each round of `Lexer.step` consumes at
least one of them, so the length of the text bounds the number of rounds.
-/

namespace FrozenScript

open Text

/-- Why a source text has no tokens. -/
inductive LexFault where
  /-- A line is indented less than its block, and no enclosing block is indented like it. -/
  | unmatchedIndentation
  | lonelySlash
  | lonelyBang
  | strayCharacter (c : Char)
  | malformedInteger
  | hugeInteger
  | unterminatedText
  deriving DecidableEq, Repr

namespace LexFault

/-- The wording of a fault. -/
def message : LexFault → String
  | unmatchedIndentation => "unindent does not match any outer indentation level"
  | lonelySlash => "true division is not supported"
  | lonelyBang => "unexpected character `!`"
  | strayCharacter c => s!"unexpected character `{c}`"
  | malformedInteger => "invalid integer literal"
  | hugeInteger => "integer literal is too large"
  | unterminatedText => "unterminated string literal"

/-- The remark at the place of a fault. -/
def remark : LexFault → String
  | unmatchedIndentation => "this indentation"
  | lonelySlash => "use `//` for integer division"
  | lonelyBang => "did you mean `not`?"
  | strayCharacter _ => "not valid here"
  | malformedInteger => "here"
  | hugeInteger => "does not fit in 64 bits"
  | unterminatedText => "string starts here"

end LexFault

/-- A fault of a source text and its place. -/
structure LexError where
  fault : LexFault
  span : Span
  deriving DecidableEq, Repr

namespace Lexer

/-- The characters that a name or a number may hold. -/
def isWordChar (c : Char) : Bool :=
  c.isAlphanum || c == '_'

/-- The characters that indent a line. -/
def isIndentation (c : Char) : Bool :=
  c == ' ' || c == '\t' || c == '\x0c'

/-- The characters that are skipped between two tokens of a line. -/
def isSkipped (c : Char) : Bool :=
  isIndentation c || c == '\r'

/-- The distance between two tab stops. -/
def tabWidth : Nat := 8

/-- The indentation after one more character: a space adds one, a tab goes to the next tab stop,
and a form feed starts again. -/
def widen (width : Nat) (c : Char) : Nat :=
  if c = ' ' then width + 1
  else if c = '\t' then (width / tabWidth + 1) * tabWidth
  else 0

/-- The width of the characters that indent a line. -/
def indentationWidth (blanks : List Char) : Nat :=
  blanks.foldl widen 0

/-- Whether a run of word characters is a number: groups of digits with single underscores
between them. -/
def isGroupedDigits : List Char → Bool
  | [] => true
  | ['_'] => false
  | '_' :: c :: rest => c.isDigit && isGroupedDigits rest
  | c :: rest => c.isDigit && isGroupedDigits rest

/-- The value of a run of word characters that starts with a digit. -/
def readInteger (word : List Char) : Except LexFault Int64 :=
  if isGroupedDigits word then
    match Decimal.toInt64? (Decimal.value (word.filter (· != '_'))) with
    | some value => .ok value
    | none => .error .hugeInteger
  else .error .malformedInteger

/-- The kind of a run of word characters that does not start with a digit. -/
def readWord (word : List Char) : Kind :=
  let name := String.ofList word
  match Keyword.ofSpelling? name with
  | some keyword => .keyword keyword
  | none => .identifier name

/-- The characters that a backslash and one more character stand for. A line break vanishes, and
an unknown escape stands for itself. -/
def unescape : Char → List Char
  | 'n' => ['\n']
  | 't' => ['\t']
  | 'r' => ['\r']
  | '0' => ['\x00']
  | '\\' => ['\\']
  | '\'' => ['\'']
  | '"' => ['"']
  | '\n' => []
  | c => ['\\', c]

/-- Read a text up to its closing quote. `value` holds the characters read so far, last one first,
and the cursor stands before the next character. There is no result if the line or the source
ends first. -/
def readText (quote : Char) :
    (value : List Char) → Cursor → List Char → Option (String × Cursor × List Char)
  | _, _, [] => none
  | value, cursor, c :: rest =>
    if c = '\n' then none
    else if c = quote then some (String.ofList value.reverse, cursor.advance c, rest)
    else if c = '\\' then
      match rest with
      | [] => none
      | escaped :: rest =>
        readText quote ((unescape escaped).reverse ++ value)
          ((cursor.advance c).advance escaped) rest
    else readText quote (c :: value) (cursor.advance c) rest

/-- The symbol that starts with a character and the characters behind it, with the number of
characters it takes. -/
def readSymbol : Char → List Char → Except LexFault (Symbol × Nat)
  | '(', _ => .ok (.openParen, 1)
  | ')', _ => .ok (.closeParen, 1)
  | ',', _ => .ok (.comma, 1)
  | ':', _ => .ok (.colon, 1)
  | '.', _ => .ok (.dot, 1)
  | '+', _ => .ok (.plus, 1)
  | '-', _ => .ok (.minus, 1)
  | '*', _ => .ok (.star, 1)
  | '%', _ => .ok (.percent, 1)
  | '/', '/' :: _ => .ok (.floorDivide, 2)
  | '/', _ => .error .lonelySlash
  | '=', '=' :: _ => .ok (.equal, 2)
  | '=', _ => .ok (.assign, 1)
  | '!', '=' :: _ => .ok (.notEqual, 2)
  | '!', _ => .error .lonelyBang
  | '<', '=' :: _ => .ok (.lessEqual, 2)
  | '<', _ => .ok (.less, 1)
  | '>', '=' :: _ => .ok (.greaterEqual, 2)
  | '>', _ => .ok (.greater, 1)
  | c, _ => .error (.strayCharacter c)

/-- A scanner between two rounds. -/
structure State where
  /-- The characters that are left. -/
  rest : List Char
  cursor : Cursor := {}
  /-- The widths of the open blocks, innermost first. -/
  blocks : List Nat := []
  /-- The number of open parentheses. -/
  depth : Nat := 0
  /-- Whether the cursor stands at the start of a logical line. -/
  atLineStart : Bool := true
  /-- The tokens so far, last one first. -/
  tokens : List Token := []

namespace State

/-- The indentation of the innermost open block. -/
def indentation (state : State) : Nat :=
  state.blocks.headD 0

/-- Move over some characters. -/
def consume (state : State) (chars rest : List Char) : State :=
  { state with rest, cursor := state.cursor.advanceBy chars }

/-- Add a token that reaches from an earlier cursor to the current one. -/
def push (state : State) (kind : Kind) (start : Cursor) : State :=
  { state with
    tokens := ⟨kind, start.spanTo state.cursor, start.line, start.column⟩ :: state.tokens }

/-- Add an empty token at the current cursor. -/
def pushEmpty (state : State) (kind : Kind) : State :=
  state.push kind state.cursor

/-- Skip the rest of the line, but not the line break. -/
def skipComment (state : State) : State :=
  state.consume (state.rest.takeWhile (· != '\n')) (state.rest.dropWhile (· != '\n'))

/-- Move over one character, if there is one. -/
def skipOne (state : State) : State :=
  match state.rest with
  | [] => state
  | c :: rest => state.consume [c] rest

end State

/-- Close every block that is indented deeper than `width`, innermost first. -/
def closeBlocks (width : Nat) (state : State) : List Nat → State
  | [] => { state with blocks := [] }
  | block :: outer =>
    if width < block then closeBlocks width (state.pushEmpty .dedent) outer
    else { state with blocks := block :: outer }

/-- Open or close blocks for a line of the given width whose indentation starts at `start`. -/
def openLine (width : Nat) (start : Cursor) (state : State) : Except LexError State :=
  let state := { state with atLineStart := false }
  if state.indentation < width then
    .ok ({ state with blocks := width :: state.blocks }.push .indent start)
  else
    let state := closeBlocks width state state.blocks
    if state.indentation = width then .ok state
    else .error ⟨.unmatchedIndentation, start.spanTo state.cursor⟩

/-- Consume the indentation of a line. A line that holds nothing else, or a comment, is consumed
as a whole, and then the answer is `none`; a carriage return hides its line like a comment does. -/
def measureLine (state : State) : Except LexError (State × Bool) :=
  let blanks := state.rest.takeWhile isIndentation
  let indented := state.consume blanks (state.rest.dropWhile isIndentation)
  match indented.rest with
  | [] => .ok (indented, false)
  | '\n' :: _ => .ok (indented.skipOne, false)
  | '#' :: _ | '\r' :: _ => .ok (indented.skipComment.skipOne, false)
  | _ => (·, true) <$> openLine (indentationWidth blanks) state.cursor indented

/-- The number of open parentheses after a symbol. A closing parenthesis without an open one
changes nothing. -/
def depthAfter (depth : Nat) : Symbol → Nat
  | .openParen => depth + 1
  | .closeParen => depth - 1
  | _ => depth

/-- Consume a blank, a comment or one token. -/
def scanOne (state : State) : Except LexError State :=
  let start := state.cursor
  match state.rest with
  | [] => .ok state
  | c :: rest =>
    if isSkipped c then .ok state.skipOne
    else if c = '#' then .ok state.skipComment
    else if c = '\n' then
      let after := state.skipOne
      .ok (if state.depth = 0 then { after.push .newline start with atLineStart := true }
        else after)
    else if isWordChar c then
      let word := state.rest.takeWhile isWordChar
      let after := state.consume word (state.rest.dropWhile isWordChar)
      if c.isDigit then
        match readInteger word with
        | .ok value => .ok (after.push (.integer value) start)
        | .error fault => .error ⟨fault, start.spanTo after.cursor⟩
      else .ok (after.push (readWord word) start)
    else if c = '\'' || c = '"' then
      match readText c [] (start.advance c) rest with
      | some (value, cursor, rest) => .ok ({ state with rest, cursor }.push (.text value) start)
      | none =>
        .error ⟨.unterminatedText,
          start.spanTo (start.advanceBy (state.rest.takeWhile (· != '\n')))⟩
    else
      match readSymbol c rest with
      | .ok (symbol, width) =>
        let after := state.consume (state.rest.take width) (state.rest.drop width)
        .ok ({ after with depth := depthAfter state.depth symbol }.push (.symbol symbol) start)
      | .error fault => .error ⟨fault, start.spanTo (start.advance c)⟩

/-- One round: at the start of a logical line measure its indentation, and unless that consumed
the line, scan one token. -/
def step (state : State) : Except LexError State :=
  if state.atLineStart && state.depth == 0 then do
    let (state, hasTokens) ← measureLine state
    if hasTokens then scanOne state else pure state
  else scanOne state

/-- Close the last line and all blocks at the end of the text. -/
def finish (state : State) : List Token :=
  let state := if state.atLineStart then state else state.pushEmpty .newline
  let state := state.blocks.foldl (fun state _ => state.pushEmpty .dedent) state
  (state.pushEmpty .endOfFile).tokens.reverse

/-- Scan until no character is left. -/
def run : (rounds : Nat) → State → Except LexError (List Token)
  | 0, state => .ok (finish state)
  | rounds + 1, state =>
    if state.rest.isEmpty then .ok (finish state)
    else
      match step state with
      | .ok state => run rounds state
      | .error fault => .error fault

end Lexer

/-- Split a source text into tokens. -/
def lex (source : String) : Except LexError (List Token) :=
  let chars := source.toList
  Lexer.run chars.length { rest := chars }

end FrozenScript
