import FrozenScript.Syntax.Parser.Expression

/-!
# Reading statements

A statement is read by its first token. A simple statement ends with its line; the others hold
blocks, which are either one simple statement on the same line or an indented list of statements.
`parse` reads a whole program, which ends at the first end-of-file token.
-/

namespace FrozenScript

open Text

namespace Parser

/-- The place of a statement whose first token is given and whose last token was just consumed. -/
def placeFrom (first : Token) : Parser Place := do
  return ⟨first.span.join (← lastSpan), first.line⟩

/-- Read a statement without a block, up to the end of its line. The result still lacks its
place. -/
def simple (rounds : Nat) : Parser (Place → Stmt) := do
  match ← peek with
  | some (.keyword .passWord) => skip; return .pass
  | some (.keyword .breakWord) => skip; return .breakLoop
  | some (.keyword .continueWord) => skip; return .continueLoop
  | some (.keyword .returnWord) =>
    skip
    if ← isNext .newline then return (.giveBack · none)
    let value ← expression rounds
    return (.giveBack · (some value))
  | some (.keyword .importWord) =>
    skip
    let (name, _) ← identifier
    return (.importModule · name)
  | some (.keyword .assertWord) =>
    skip
    let test ← expression rounds
    if ← eat (.symbol .comma) then
      let message ← expression rounds
      return (.assert · test (some message))
    return (.assert · test none)
  | _ =>
    let target ← expression rounds
    if ← eat (.symbol .assign) then
      let value ← expression rounds
      return (.assign · target value)
    return (.expr · target)

/-- Read a statement without a block together with the end of its line. -/
def simpleLine (rounds : Nat) (first : Token) : Parser Stmt := do
  let stmt ← simple rounds
  let _ ← expect .newline
  return stmt (← placeFrom first)

/-- Read the statements of an indented block and its end. `read` holds the statements so far, last
one first. -/
def statements (statement : Parser Stmt) : (rounds : Nat) → List Stmt → Parser Block
  | 0, _ => unexpected .statement
  | rounds + 1, read => do
    if ← eat .dedent then return read.reverse
    let stmt ← statement
    statements statement rounds (stmt :: read)

/-- Read a block: one simple statement on the same line, or an indented list of statements. -/
def block (rounds : Nat) (statement : Parser Stmt) : Parser Block := do
  if ← eat .newline then
    if ← eat .indent then
      enter .block
      let body ← statements statement rounds []
      leave 1
      return body
    else unexpected .indentedBlock
  else
    let some first ← peekToken | unexpected .statement
    return [← simpleLine rounds first]

/-- Read a condition and the block behind it. -/
def guarded (rounds : Nat) (statement : Parser Stmt) : Parser (Expr × Block) := do
  let condition ← expression rounds
  let _ ← expect (.symbol .colon)
  let body ← block rounds statement
  return (condition, body)

/-- Read what follows the first block of a branch. -/
def alternative (rounds : Nat) (statement : Parser Stmt) : (rounds' : Nat) → Parser Alternative
  | 0 => unexpected .statement
  | rounds' + 1 => do
    if ← eat (.keyword .elifWord) then
      let (condition, body) ← guarded rounds statement
      let rest ← alternative rounds statement rounds'
      return .elif condition body rest
    else if ← eat (.keyword .elseWord) then
      let _ ← expect (.symbol .colon)
      return .otherwise (← block rounds statement)
    else return .nothing

/-- Read the parameters of a function up to the closing parenthesis, which stays. `read` holds the
parameters so far, last one first. A comma may follow the last parameter. -/
def parameters : (rounds : Nat) → List Param → Parser (List Param)
  | 0, _ => unexpected .identifier
  | rounds + 1, read => do
    if ← isNext (.symbol .closeParen) then return read.reverse
    let (name, span) ← identifier
    if ← eat (.symbol .comma) then parameters rounds (⟨name, span⟩ :: read)
    else return (⟨name, span⟩ :: read).reverse

/-- Read the rest of a function definition behind its first word. -/
def definition (rounds : Nat) (statement : Parser Stmt) : Parser (Place → Stmt) := do
  let (name, _) ← identifier
  let _ ← expect (.symbol .openParen)
  let params ← parameters rounds []
  let _ ← expect (.symbol .closeParen)
  let _ ← expect (.symbol .colon)
  let body ← block rounds statement
  return (.define · name params body)

/-- Read a statement that has at most `levels` statements inside each other. -/
def statementWithin (rounds : Nat) : (levels : Nat) → Parser Stmt
  | 0 => unexpected .statement
  | levels + 1 => do
    let some first ← peekToken | unexpected .statement
    match first.kind with
    | .keyword .ifWord =>
      skip
      let (condition, body) ← guarded rounds (statementWithin rounds levels)
      let rest ← alternative rounds (statementWithin rounds levels) rounds
      return .branch (← placeFrom first) condition body rest
    | .keyword .whileWord =>
      skip
      let (condition, body) ← guarded rounds (statementWithin rounds levels)
      return .loop (← placeFrom first) condition body
    | .keyword .defWord =>
      skip
      let stmt ← definition rounds (statementWithin rounds levels)
      return stmt (← placeFrom first)
    | .indent => fail .unexpectedIndent first.span
    | _ => simpleLine rounds first

/-- Read a statement. -/
def statement (rounds : Nat) : Parser Stmt :=
  statementWithin rounds rounds

/-- Read statements up to the end of the file. `read` holds the statements so far, last one
first. -/
def program (rounds : Nat) : (rounds' : Nat) → List Stmt → Parser Block
  | 0, _ => unexpected .statement
  | rounds' + 1, read => do
    match ← peek with
    | none | some .endOfFile =>
      let _ ← expect .endOfFile
      return read.reverse
    | some _ =>
      let stmt ← statement rounds
      program rounds rounds' (stmt :: read)

end Parser

/-- Read a program from its tokens. -/
def parse (tokens : List Token) : Except ParseError Block :=
  let rounds := tokens.length + 1
  (Parser.program rounds rounds []).run' { rest := tokens }

end FrozenScript
