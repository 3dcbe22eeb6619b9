import FrozenScript.Syntax.Basic
import FrozenScript.Token.Basic

/-!
# The state of parsing

A parser reads a list of tokens from the left. Besides the tokens that are left its state holds the
token consumed last, which locates errors at the end of the input, and the number of nesting levels
that are open. `enter` refuses to open more than `maxNesting` levels, so that every later pass over
the syntax tree may recurse on it.
-/

namespace FrozenScript

open Text

/-- What a parser wanted to see. -/
inductive Expected where
  | token (kind : Kind)
  | identifier
  | statement
  | expression
  | indentedBlock
  deriving DecidableEq, Repr

/-- What is counted as a level of nesting. -/
inductive Nesting where
  | expression
  | block
  deriving DecidableEq, Repr

/-- The number of nesting levels that may be open at once. -/
def maxNesting : Nat := 100

/-- Why a list of tokens is no program. -/
inductive ParseFault where
  /-- Another token than expected; `none` if there is no token at all. -/
  | unexpected (expected : Expected) (found : Option Kind)
  | unexpectedIndent
  | chainedComparison
  | tooDeep (nesting : Nesting)
  deriving DecidableEq, Repr

/-- How an error message names what was expected. -/
def Expected.describe : Expected → String
  | token kind => kind.describe
  | identifier => "identifier"
  | statement => "statement"
  | expression => "expression"
  | indentedBlock => "an indented block"

/-- How an error message names a level of nesting. -/
def Nesting.describe : Nesting → String
  | expression => "expression"
  | block => "block"

namespace ParseFault

/-- The wording of a fault. -/
def message : ParseFault → String
  | unexpected expected found =>
    let found := found.getD .endOfFile
    s!"expected {expected.describe}, found {found.describe}"
  | unexpectedIndent => "unexpected indent"
  | chainedComparison => "chained comparisons are not supported"
  | tooDeep nesting => s!"{nesting.describe} nested too deeply (limit is {maxNesting})"

/-- The remark at the place of a fault. -/
def remark : ParseFault → String
  | unexpected _ (some _) => "unexpected token"
  | unexpected _ none => "input ends here"
  | unexpectedIndent => "remove this indentation"
  | chainedComparison => "second comparison"
  | tooDeep _ => "nesting limit reached here"

end ParseFault

/-- A fault of a list of tokens and its place. -/
structure ParseError where
  fault : ParseFault
  span : Span
  deriving DecidableEq, Repr

/-- The state of parsing. -/
structure ParseState where
  /-- The tokens that are left. -/
  rest : List Token
  /-- The token consumed last. -/
  last : Option Token := none
  /-- The number of open nesting levels. -/
  depth : Nat := 0

/-- A reader of some syntax. -/
abbrev Parser := StateT ParseState (Except ParseError)

namespace ParseState

/-- The span of the token consumed last, or the start of the text. -/
def lastSpan (state : ParseState) : Span :=
  match state.last with
  | some token => token.span
  | none => ⟨0, 0⟩

/-- The span of the next token, or of the last one at the end. -/
def nextSpan (state : ParseState) : Span :=
  match state.rest with
  | token :: _ => token.span
  | [] => state.lastSpan

/-- Consume a token. -/
def advance (state : ParseState) (token : Token) (rest : List Token) : ParseState :=
  { state with rest, last := some token }

end ParseState

namespace Parser

/-- Fail at a span. -/
def fail {α : Type} (fault : ParseFault) (span : Span) : Parser α :=
  fun _ => .error ⟨fault, span⟩

/-- Fail because the next token is not what was expected. -/
def unexpected {α : Type} (expected : Expected) : Parser α :=
  fun state => .error ⟨.unexpected expected (state.rest.head?.map Token.kind), state.nextSpan⟩

/-- The next token, which stays where it is. -/
def peekToken : Parser (Option Token) :=
  fun state => .ok (state.rest.head?, state)

/-- The kind of the next token. -/
def peek : Parser (Option Kind) :=
  fun state => .ok (state.rest.head?.map Token.kind, state)

/-- Whether the next token is of a kind. -/
def isNext (kind : Kind) : Parser Bool :=
  fun state => .ok (state.rest.head?.map Token.kind == some kind, state)

/-- Consume the next token, if there is one. -/
def skip : Parser Unit
  | state =>
    match state.rest with
    | token :: rest => .ok ((), state.advance token rest)
    | [] => .ok ((), state)

/-- Consume the next token if it is of a kind, and say whether it was. -/
def eat (kind : Kind) : Parser Bool
  | state =>
    match state.rest with
    | token :: rest =>
      if token.kind = kind then .ok (true, state.advance token rest) else .ok (false, state)
    | [] => .ok (false, state)

/-- The span of the token consumed last. -/
def lastSpan : Parser Span :=
  fun state => .ok (state.lastSpan, state)

/-- Consume a token of a kind, and give its span. -/
def expect (kind : Kind) : Parser Span := do
  if ← eat kind then lastSpan else unexpected (.token kind)

/-- Consume a name, and give it with its span. -/
def identifier : Parser (String × Span)
  | state =>
    match state.rest with
    | token :: rest =>
      match token.kind with
      | .identifier name => .ok ((name, token.span), state.advance token rest)
      | _ => unexpected .identifier state
    | [] => unexpected .identifier state

/-- Open one more nesting level. -/
def enter (nesting : Nesting) : Parser Unit
  | state =>
    if state.depth < maxNesting then .ok ((), { state with depth := state.depth + 1 })
    else .error ⟨.tooDeep nesting, state.nextSpan⟩

/-- Close some nesting levels. -/
def leave (levels : Nat) : Parser Unit :=
  fun state => .ok ((), { state with depth := state.depth - levels })

end Parser

end FrozenScript
