import FrozenScript.Syntax.Parser.Statement

/-!
# The parser as routines that call each other

The readers of the parser bound their rounds, so that they are total. Here the same routines are
given by what they do (`Routine.body`): they look at tokens, open and close levels of nesting, call
each other, and go round, without any bound. A machine runs them with a stack of the callers that
wait. To close more levels than are open, which a reader does not notice, is a failure of its own.

A loop is a routine that goes on as a routine in the same place of the stack (`Code.goOn`). What it
has read so far is an argument of it.
-/

namespace FrozenScript.Descent

open Text

/-! ## Routines -/

/-- The kinds of chains that group to the left. -/
inductive Strength where
  | disjunction
  | conjunction
  | sum
  | product
  deriving DecidableEq, Repr

/-- The operators that stand before their operand. -/
inductive Sign where
  | not
  | minus
  deriving DecidableEq, Repr

/-- The routines of the parser, by what they give back. -/
inductive Routine : Type → Type where
  | program (read : List Stmt) : Routine Block
  | statement : Routine Stmt
  | simple : Routine (Place → Stmt)
  | block : Routine Block
  | statements (read : List Stmt) : Routine Block
  | guarded : Routine (Expr × Block)
  | alternatives (read : List (Expr × Block)) : Routine Alternative
  | definition : Routine (Place → Stmt)
  | parameters (read : List Param) : Routine (List Param)
  | expression : Routine Expr
  | chain (strength : Strength) : Routine Expr
  | links (strength : Strength) (held : Nat) (left : Expr) : Routine Expr
  | signed (sign : Sign) : Routine Expr
  | comparison : Routine Expr
  | trailed : Routine Expr
  | trailers (held : Nat) (object : Expr) : Routine Expr
  | arguments (read : List Expr) : Routine (List Expr)
  | atom : Routine Expr

namespace Strength

/-- The operators of a chain. -/
def operator : Strength → Kind → Option (Span → Expr → Expr → Expr)
  | disjunction => Parser.disjunctionOp
  | conjunction => Parser.conjunctionOp
  | sum => Parser.sumOp
  | product => Parser.productOp

/-- What reads the operands of a chain. -/
def operand : Strength → Routine Expr
  | disjunction => .chain conjunction
  | conjunction => .signed .not
  | sum => .chain product
  | product => .signed .minus

end Strength

namespace Sign

/-- The token of an operator. -/
def kind : Sign → Kind
  | not => .keyword .notWord
  | minus => .symbol .minus

/-- The operator of a tree. -/
def op : Sign → UnaryOp
  | not => .not
  | minus => .neg

/-- What reads an operand without the operator. -/
def operand : Sign → Routine Expr
  | not => .comparison
  | minus => .trailed

end Sign

/-! ## Code -/

/-- What a routine does with tokens. -/
inductive Action : Type → Type 1 where
  | peek : Action (Option Kind)
  | peekToken : Action (Option Token)
  | isNext (kind : Kind) : Action Bool
  | skip : Action Unit
  | eat (kind : Kind) : Action Bool
  | expect (kind : Kind) : Action Span
  | identifier : Action (String × Span)
  | lastSpan : Action Span
  | unexpected {α : Type} (expected : Expected) : Action α
  | fail {α : Type} (fault : ParseFault) (span : Span) : Action α

/-- The effect of an action. -/
def Action.reader {α : Type} : Action α → Parser α
  | peek => Parser.peek
  | peekToken => Parser.peekToken
  | isNext kind => Parser.isNext kind
  | skip => Parser.skip
  | eat kind => Parser.eat kind
  | expect kind => Parser.expect kind
  | identifier => Parser.identifier
  | lastSpan => Parser.lastSpan
  | unexpected expected => Parser.unexpected expected
  | fail fault span => Parser.fail fault span

/-- What is left to do in a routine. -/
inductive Code (α : Type) : Type 1 where
  | result (value : α)
  | perform {β : Type} (action : Action β) (next : β → Code α)
  /-- Open a level of nesting. -/
  | enter (nesting : Nesting) (next : Code α)
  /-- Close some levels of nesting. -/
  | leave (levels : Nat) (next : Code α)
  | call {β : Type} (routine : Routine β) (next : β → Code α)
  /-- Do what a routine does, in place of the one that does this. -/
  | goOn (routine : Routine α)

/-- Do one thing and then another one with its result. -/
def Code.bind {α β : Type} : Code α → (α → Code β) → Code β
  | result value, f => f value
  | perform action next, f => perform action fun value => (next value).bind f
  | enter nesting next, f => enter nesting (next.bind f)
  | leave levels next, f => leave levels (next.bind f)
  | call routine next, f => call routine fun value => (next value).bind f
  | goOn routine, f => call routine f

instance : Monad Code where
  pure := .result
  bind := .bind

/-- An action on its own. -/
def perform {α : Type} (action : Action α) : Code α :=
  .perform action .result

/-- A call on its own. -/
def call {α : Type} (routine : Routine α) : Code α :=
  .call routine .result

/-- Open a level of nesting. -/
def enter (nesting : Nesting) : Code Unit :=
  .enter nesting (.result ())

/-- Close some levels of nesting. -/
def leave (levels : Nat) : Code Unit :=
  .leave levels (.result ())

/-- The place of a statement whose first token is given and whose last token was just consumed. -/
def placeFrom (first : Token) : Code Place := do
  return ⟨first.span.join (← perform .lastSpan), first.line⟩

/-- A statement without a block together with the end of its line. -/
def simpleLine (first : Token) : Code Stmt := do
  let stmt ← call .simple
  let _ ← perform (.expect .newline)
  return stmt (← placeFrom first)

/-- The alternative of a branch behind some more branches, of which the last one is given first. -/
def attach (read : List (Expr × Block)) (rest : Alternative) : Alternative :=
  read.foldl (fun rest branch => .elif branch.1 branch.2 rest) rest

/-- What a routine does. -/
def Routine.body {α : Type} : Routine α → Code α
  | .program read => do
    match ← perform .peek with
    | none | some .endOfFile =>
      let _ ← perform (.expect .endOfFile)
      return read.reverse
    | some _ =>
      let stmt ← call .statement
      .goOn (.program (stmt :: read))
  | .statement => do
    let some first ← perform .peekToken | perform (.unexpected .statement)
    match first.kind with
    | .keyword .ifWord =>
      perform .skip
      let (condition, body) ← call .guarded
      let rest ← call (.alternatives [])
      return .branch (← placeFrom first) condition body rest
    | .keyword .whileWord =>
      perform .skip
      let (condition, body) ← call .guarded
      return .loop (← placeFrom first) condition body
    | .keyword .defWord =>
      perform .skip
      let stmt ← call .definition
      return stmt (← placeFrom first)
    | .indent => perform (.fail .unexpectedIndent first.span)
    | _ => simpleLine first
  | .simple => do
    match ← perform .peek with
    | some (.keyword .passWord) => perform .skip; return .pass
    | some (.keyword .breakWord) => perform .skip; return .breakLoop
    | some (.keyword .continueWord) => perform .skip; return .continueLoop
    | some (.keyword .returnWord) =>
      perform .skip
      if ← perform (.isNext .newline) then return (.giveBack · none)
      let value ← call .expression
      return (.giveBack · (some value))
    | some (.keyword .importWord) =>
      perform .skip
      let (name, _) ← perform .identifier
      return (.importModule · name)
    | some (.keyword .assertWord) =>
      perform .skip
      let test ← call .expression
      if ← perform (.eat (.symbol .comma)) then
        let message ← call .expression
        return (.assert · test (some message))
      return (.assert · test none)
    | _ =>
      let target ← call .expression
      if ← perform (.eat (.symbol .assign)) then
        let value ← call .expression
        return (.assign · target value)
      return (.expr · target)
  | .block => do
    if ← perform (.eat .newline) then
      if ← perform (.eat .indent) then
        enter .block
        let body ← call (.statements [])
        leave 1
        return body
      else perform (.unexpected .indentedBlock)
    else
      let some first ← perform .peekToken | perform (.unexpected .statement)
      return [← simpleLine first]
  | .statements read => do
    if ← perform (.eat .dedent) then return read.reverse
    let stmt ← call .statement
    .goOn (.statements (stmt :: read))
  | .guarded => do
    let condition ← call .expression
    let _ ← perform (.expect (.symbol .colon))
    let body ← call .block
    return (condition, body)
  | .alternatives read => do
    if ← perform (.eat (.keyword .elifWord)) then
      let branch ← call .guarded
      .goOn (.alternatives (branch :: read))
    else if ← perform (.eat (.keyword .elseWord)) then
      let _ ← perform (.expect (.symbol .colon))
      return attach read (.otherwise (← call .block))
    else return attach read .nothing
  | .definition => do
    let (name, _) ← perform .identifier
    let _ ← perform (.expect (.symbol .openParen))
    let params ← call (.parameters [])
    let _ ← perform (.expect (.symbol .closeParen))
    let _ ← perform (.expect (.symbol .colon))
    let body ← call .block
    return (.define · name params body)
  | .parameters read => do
    if ← perform (.isNext (.symbol .closeParen)) then return read.reverse
    let (name, span) ← perform .identifier
    if ← perform (.eat (.symbol .comma)) then .goOn (.parameters (⟨name, span⟩ :: read))
    else return (⟨name, span⟩ :: read).reverse
  | .expression => do
    enter .expression
    let expr ← call (.chain .disjunction)
    leave 1
    return expr
  | .chain strength => do
    let left ← call strength.operand
    .goOn (.links strength 0 left)
  | .links strength held left => do
    match (← perform .peek).bind strength.operator with
    | none =>
      leave held
      return left
    | some node =>
      perform .skip
      enter .expression
      let right ← call strength.operand
      .goOn (.links strength (held + 1) (Parser.combine node left right))
  | .signed sign => do
    if ← perform (.eat sign.kind) then
      let start ← perform .lastSpan
      enter .expression
      let inner ← call (.signed sign)
      leave 1
      return .unary (start.join inner.span) sign.op inner
    else call sign.operand
  | .comparison => do
    let left ← call (.chain .sum)
    match (← perform .peek).bind Parser.compareOp with
    | none => return left
    | some op =>
      perform .skip
      let right ← call (.chain .sum)
      if let some token ← perform .peekToken then
        if (Parser.compareOp token.kind).isSome then
          perform (.fail .chainedComparison token.span)
      return Parser.combine (.compare · op) left right
  | .trailed => do
    let object ← call .atom
    .goOn (.trailers 0 object)
  | .trailers held object => do
    match ← perform .peek with
    | some (.symbol .openParen) =>
      enter .expression
      perform .skip
      let args ← call (.arguments [])
      let close ← perform (.expect (.symbol .closeParen))
      .goOn (.trailers (held + 1) (.call (object.span.join close) object args))
    | some (.symbol .dot) =>
      enter .expression
      perform .skip
      let (name, span) ← perform .identifier
      .goOn (.trailers (held + 1) (.member (object.span.join span) object name))
    | _ =>
      leave held
      return object
  | .arguments read => do
    if ← perform (.isNext (.symbol .closeParen)) then return read.reverse
    let argument ← call .expression
    if ← perform (.eat (.symbol .comma)) then .goOn (.arguments (argument :: read))
    else return (argument :: read).reverse
  | .atom => do
    let some token ← perform .peekToken | perform (.unexpected .expression)
    match token.kind with
    | .integer value => perform .skip; return .literal token.span (.int value)
    | .text value => perform .skip; return .literal token.span (.text value)
    | .keyword .trueWord => perform .skip; return .literal token.span (.bool true)
    | .keyword .falseWord => perform .skip; return .literal token.span (.bool false)
    | .keyword .noneWord => perform .skip; return .literal token.span .none
    | .identifier name => perform .skip; return .name token.span name
    | .symbol .openParen =>
      perform .skip
      let inner ← call .expression
      let close ← perform (.expect (.symbol .closeParen))
      return inner.withSpan (token.span.join close)
    | _ => perform (.unexpected .expression)

/-! ## Running -/

/-- The callers that wait for a value, the last one first. The first one gives back what the whole
run does. -/
inductive Stack (ρ : Type) : Type → Type 1 where
  | empty : Stack ρ ρ
  | caller {α β : Type} (next : α → Code β) (callers : Stack ρ β) : Stack ρ α

/-- The number of callers. -/
def Stack.height {ρ α : Type} : Stack ρ α → Nat
  | empty => 0
  | caller _ callers => callers.height + 1

/-- A state of the machine. -/
inductive Config (ρ : Type) : Type 1 where
  | running {α : Type} (code : Code α) (callers : Stack ρ α) (state : ParseState)
  | ended (outcome : Except ParseError ρ) (state : ParseState)
  /-- More levels were closed than were open. -/
  | underflow

/-- One step of the machine. A level of nesting is counted before the limit is checked. -/
def Config.step {ρ : Type} : Config ρ → Config ρ
  | running (.result value) .empty state => ended (.ok value) state
  | running (.result value) (.caller next callers) state => running (next value) callers state
  | running (.perform action next) callers state =>
    match action.reader state with
    | .ok (value, after) => running (next value) callers after
    | .error error => ended (.error error) state
  | running (.enter nesting next) callers state =>
    let deeper := { state with depth := state.depth + 1 }
    if deeper.depth ≤ maxNesting then running next callers deeper
    else ended (.error ⟨.tooDeep nesting, state.nextSpan⟩) deeper
  | running (.leave levels next) callers state =>
    if levels ≤ state.depth then running next callers { state with depth := state.depth - levels }
    else underflow
  | running (.call routine next) callers state =>
    running routine.body (.caller next callers) state
  | running (.goOn routine) callers state => running routine.body callers state
  | ended outcome state => ended outcome state
  | underflow => underflow

/-- What the machine comes to in some steps. -/
def Config.after {ρ : Type} : Nat → Config ρ → Config ρ
  | 0, config => config
  | steps + 1, config => config.step.after steps

/-- The machine before it reads a program. -/
def Config.start (tokens : List Token) : Config Block :=
  .running (Routine.program []).body .empty { rest := tokens }

end FrozenScript.Descent
