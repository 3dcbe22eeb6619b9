import FrozenScript.Syntax.Parser

/-!
# Reading expressions

From weakest to strongest the operators are `or`, `and`, `not`, the comparisons, `+ -`, `* // %`,
unary `-`, and calls and attributes. Chains of one strength group to the left; comparisons do not
chain. Every operator of a chain holds one nesting level until the chain ends, because a chain
makes a tree that is as deep as the chain is long.

Each level takes the parser of whole expressions as an argument, which it uses between parentheses
only. `rounds` bounds the rounds of every loop; the number of tokens is enough, as every round
consumes one.
-/

namespace FrozenScript.Parser

open Text

/-- Build an operator node over two operands. -/
def combine (node : Span → Expr → Expr → Expr) (left right : Expr) : Expr :=
  node (left.span.join right.span) left right

/-- The disjunction operator. -/
def disjunctionOp : Kind → Option (Span → Expr → Expr → Expr)
  | .keyword .orWord => some (.logical · .or)
  | _ => none

/-- The conjunction operator. -/
def conjunctionOp : Kind → Option (Span → Expr → Expr → Expr)
  | .keyword .andWord => some (.logical · .and)
  | _ => none

/-- The operators of a sum. -/
def sumOp : Kind → Option (Span → Expr → Expr → Expr)
  | .symbol .plus => some (.binary · .add)
  | .symbol .minus => some (.binary · .sub)
  | _ => none

/-- The operators of a product. -/
def productOp : Kind → Option (Span → Expr → Expr → Expr)
  | .symbol .star => some (.binary · .mul)
  | .symbol .floorDivide => some (.binary · .floorDiv)
  | .symbol .percent => some (.binary · .mod)
  | _ => none

/-- The comparison operators. -/
def compareOp : Kind → Option CompareOp
  | .symbol .equal => some .eq
  | .symbol .notEqual => some .ne
  | .symbol .less => some .lt
  | .symbol .lessEqual => some .le
  | .symbol .greater => some .gt
  | .symbol .greaterEqual => some .ge
  | _ => none

/-- Continue a chain of operators of one strength behind its left part. `held` counts the nesting
levels that the chain holds so far. -/
def chain (operator : Kind → Option (Span → Expr → Expr → Expr)) (operand : Parser Expr) :
    (rounds held : Nat) → Expr → Parser Expr
  | 0, _, _ => unexpected .expression
  | rounds + 1, held, left => do
    match (← peek).bind operator with
    | none =>
      leave held
      return left
    | some node =>
      skip
      enter .expression
      let right ← operand
      chain operator operand rounds (held + 1) (combine node left right)

/-- Read a chain of operators of one strength. -/
def leftChain (rounds : Nat) (operator : Kind → Option (Span → Expr → Expr → Expr))
    (operand : Parser Expr) : Parser Expr := do
  chain operator operand rounds 0 (← operand)

/-- Read the arguments of a call up to its closing parenthesis, which stays. `read` holds the
arguments so far, last one first. A comma may follow the last argument. -/
def arguments (expression : Parser Expr) : (rounds : Nat) → List Expr → Parser (List Expr)
  | 0, _ => unexpected .expression
  | rounds + 1, read => do
    if ← isNext (.symbol .closeParen) then return read.reverse
    let argument ← expression
    if ← eat (.symbol .comma) then arguments expression rounds (argument :: read)
    else return (argument :: read).reverse

/-- Read a literal, a name, or an expression between parentheses. -/
def atom (expression : Parser Expr) : Parser Expr := do
  let some token ← peekToken | unexpected .expression
  match token.kind with
  | .integer value => skip; return .literal token.span (.int value)
  | .text value => skip; return .literal token.span (.text value)
  | .keyword .trueWord => skip; return .literal token.span (.bool true)
  | .keyword .falseWord => skip; return .literal token.span (.bool false)
  | .keyword .noneWord => skip; return .literal token.span .none
  | .identifier name => skip; return .name token.span name
  | .symbol .openParen =>
    skip
    let inner ← expression
    let close ← expect (.symbol .closeParen)
    return inner.withSpan (token.span.join close)
  | _ => unexpected .expression

/-- Continue with calls and attributes behind an expression. `held` counts the nesting levels that
they hold so far. -/
def trailers (rounds : Nat) (expression : Parser Expr) :
    (rounds' held : Nat) → Expr → Parser Expr
  | 0, _, _ => unexpected .expression
  | rounds' + 1, held, object => do
    match ← peek with
    | some (.symbol .openParen) =>
      enter .expression
      skip
      let args ← arguments expression rounds []
      let close ← expect (.symbol .closeParen)
      trailers rounds expression rounds' (held + 1)
        (.call (object.span.join close) object args)
    | some (.symbol .dot) =>
      enter .expression
      skip
      let (name, span) ← identifier
      trailers rounds expression rounds' (held + 1)
        (.member (object.span.join span) object name)
    | _ =>
      leave held
      return object

/-- Read an atom with the calls and attributes behind it. -/
def trailed (rounds : Nat) (expression : Parser Expr) : Parser Expr := do
  trailers rounds expression rounds 0 (← atom expression)

/-- Read operators that stand before their operand. -/
def signed (sign : Kind) (op : UnaryOp) (operand : Parser Expr) : (rounds : Nat) → Parser Expr
  | 0 => unexpected .expression
  | rounds + 1 => do
    if ← eat sign then
      let start ← lastSpan
      enter .expression
      let inner ← signed sign op operand rounds
      leave 1
      return .unary (start.join inner.span) op inner
    else operand

/-- Read negative signs and their operand. -/
def factor (rounds : Nat) (expression : Parser Expr) : Parser Expr :=
  signed (.symbol .minus) .neg (trailed rounds expression) rounds

/-- Read a product. -/
def product (rounds : Nat) (expression : Parser Expr) : Parser Expr :=
  leftChain rounds productOp (factor rounds expression)

/-- Read a sum. -/
def sum (rounds : Nat) (expression : Parser Expr) : Parser Expr :=
  leftChain rounds sumOp (product rounds expression)

/-- Read a sum, or a comparison of two sums. -/
def comparison (rounds : Nat) (expression : Parser Expr) : Parser Expr := do
  let left ← sum rounds expression
  match (← peek).bind compareOp with
  | none => return left
  | some op =>
    skip
    let right ← sum rounds expression
    if let some token ← peekToken then
      if (compareOp token.kind).isSome then fail .chainedComparison token.span
    return combine (.compare · op) left right

/-- Read the words `not` and their operand. -/
def negation (rounds : Nat) (expression : Parser Expr) : Parser Expr :=
  signed (.keyword .notWord) .not (comparison rounds expression) rounds

/-- Read a conjunction. -/
def conjunction (rounds : Nat) (expression : Parser Expr) : Parser Expr :=
  leftChain rounds conjunctionOp (negation rounds expression)

/-- Read a disjunction. -/
def disjunction (rounds : Nat) (expression : Parser Expr) : Parser Expr :=
  leftChain rounds disjunctionOp (conjunction rounds expression)

/-- Read an expression that has at most `levels` expressions between parentheses inside each
other. -/
def expressionWithin (rounds : Nat) : (levels : Nat) → Parser Expr
  | 0 => unexpected .expression
  | levels + 1 => do
    enter .expression
    let expr ← disjunction rounds (expressionWithin rounds levels)
    leave 1
    return expr

/-- Read an expression. -/
def expression (rounds : Nat) : Parser Expr :=
  expressionWithin rounds rounds

end FrozenScript.Parser
