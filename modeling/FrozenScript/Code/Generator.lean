import FrozenScript.Code.Equality

/-!
# From statements to code

The generator appends instructions to a draft and never changes one that it has appended: the
number of instructions of every construct is known beforehand (`Expr.codeSize`, `Stmt.codeSize`),
so a forward jump gets its target when it is appended.

The programs that the scoping rules reject have code too: a `break` outside a loop jumps to the
first instruction, a `continue` outside a loop has no code, and neither has an assignment to
something that is not a name.
-/

namespace FrozenScript

open Text

/-! ## Sizes -/

mutual
/-- The number of instructions of an expression. -/
def Expr.codeSize : Expr → Nat
  | .literal .. | .name .. => 1
  | .binary _ _ left right | .compare _ _ left right | .logical _ _ left right =>
    left.codeSize + right.codeSize + 1
  | .unary _ _ operand => operand.codeSize + 1
  | .call _ callee args => callee.codeSize + argumentsSize args + 1
  | .member _ object _ => object.codeSize + 1

/-- The number of instructions of a list of arguments. -/
def argumentsSize : List Expr → Nat
  | [] => 0
  | arg :: rest => arg.codeSize + argumentsSize rest
end

/-- The number of instructions of an expression that may be absent. -/
def optionalSize : Option Expr → Nat
  | some expr => expr.codeSize
  | none => 0

/-- Whether a branch has something to do if its condition does not hold. -/
def Alternative.isPresent : Alternative → Bool
  | .nothing => false
  | .elif .. | .otherwise _ => true

/-- The number of instructions of a jump that is there under a condition. -/
def jumpSize (present : Bool) : Nat :=
  if present then 1 else 0

mutual
/-- The number of instructions of a statement. -/
def Stmt.codeSize (keepAsserts inLoop : Bool) : Stmt → Nat
  | .expr _ value => value.codeSize + 1
  | .assign _ (.name ..) value => value.codeSize + 1
  | .assign .. => 0
  | .branch _ condition body alternative =>
    condition.codeSize + 1 + blockSize keepAsserts inLoop body +
      jumpSize alternative.isPresent + alternative.codeSize keepAsserts inLoop
  | .loop _ condition body => condition.codeSize + 1 + blockSize keepAsserts true body + 1
  | .define .. => 2
  | .giveBack _ (some value) => value.codeSize + 1
  | .giveBack _ none => 2
  | .importModule .. => 2
  | .assert _ test message =>
    if keepAsserts then test.codeSize + 1 + optionalSize message + 1 else 0
  | .pass _ => 0
  | .breakLoop _ => 1
  | .continueLoop _ => jumpSize inLoop

/-- The number of instructions of a block. -/
def blockSize (keepAsserts inLoop : Bool) : List Stmt → Nat
  | [] => 0
  | stmt :: rest => stmt.codeSize keepAsserts inLoop + blockSize keepAsserts inLoop rest

/-- The number of instructions of the alternative of a branch. -/
def Alternative.codeSize (keepAsserts inLoop : Bool) : Alternative → Nat
  | .nothing => 0
  | .elif condition body rest =>
    condition.codeSize + 1 + blockSize keepAsserts inLoop body +
      jumpSize rest.isPresent + rest.codeSize keepAsserts inLoop
  | .otherwise body => blockSize keepAsserts inLoop body
end

/-! ## Drafts -/

/-- A unit under construction: what its body has so far, and the source line that the next
instruction belongs to. -/
structure Draft where
  code : Array Instr := #[]
  lines : Array UInt32 := #[]
  consts : Array Constant := #[]
  names : Array String := #[]
  line : UInt32

namespace Draft

/-- The index of the next instruction. -/
def here (draft : Draft) : Nat :=
  draft.code.size

/-- Append an instruction. -/
def emit (instr : Instr) (draft : Draft) : Draft :=
  { draft with code := draft.code.push instr, lines := draft.lines.push draft.line }

/-- Start a statement. -/
def atLine (line : Nat) (draft : Draft) : Draft :=
  { draft with line := UInt32.ofNat line }

/-- The index of a constant, which is added unless it is there. Units are always added. -/
def constant (value : Constant) (draft : Draft) : UInt32 × Draft :=
  let known := match value with
    | .code _ => none
    | value => draft.consts.findIdx? (·.matches value)
  match known with
  | some index => (UInt32.ofNat index, draft)
  | none => (UInt32.ofNat draft.consts.size, { draft with consts := draft.consts.push value })

/-- The index of a name, which is added unless it is there. -/
def name (name : String) (draft : Draft) : UInt32 × Draft :=
  match draft.names.findIdx? (· == name) with
  | some index => (UInt32.ofNat index, draft)
  | none => (UInt32.ofNat draft.names.size, { draft with names := draft.names.push name })

/-- Append an instruction that refers to a constant. -/
def emitConstant (instr : UInt32 → Instr) (value : Constant) (draft : Draft) : Draft :=
  let (index, draft) := draft.constant value
  draft.emit (instr index)

/-- Append an instruction that refers to a name. -/
def emitName (instr : UInt32 → Instr) (name : String) (draft : Draft) : Draft :=
  let (index, draft) := draft.name name
  draft.emit (instr index)

/-- Append a jump to the instruction with an index. -/
def emitJump (instr : UInt32 → Instr) (target : Nat) (draft : Draft) : Draft :=
  draft.emit (instr (UInt32.ofNat target))

/-- Complete a unit. A body that runs to its end gives back nothing, and jumps may go there. -/
def finish (unitName file : String) (params : List String) (draft : Draft) : CodeUnit :=
  let draft := (draft.emitConstant .loadConst .none).emit .giveBack
  { name := unitName, file, params, consts := draft.consts.toList, names := draft.names,
    code := draft.code, lines := draft.lines }

end Draft

/-! ## Generation -/

/-- The constant that a literal loads. -/
def Literal.constant : Literal → Constant
  | .none => .none
  | .bool value => .bool value
  | .int value => .int value
  | .text value => .text value

/-- The instruction that skips the right operand of a logical operator. -/
def LogicalOp.skip : LogicalOp → UInt32 → Instr
  | .and => .jumpIfFalseOrPop
  | .or => .jumpIfTrueOrPop

mutual
/-- Append the code of an expression, which pushes its value. -/
def Expr.generate : Expr → Draft → Draft
  | .literal _ value, draft => draft.emitConstant .loadConst value.constant
  | .name _ name, draft => draft.emitName .loadName name
  | .binary _ op left right, draft => (right.generate (left.generate draft)).emit (.binaryOp op)
  | .unary _ op operand, draft => (operand.generate draft).emit (.unaryOp op)
  | .compare _ op left right, draft => (right.generate (left.generate draft)).emit (.compare op)
  | .logical _ op left right, draft =>
    let draft := left.generate draft
    right.generate (draft.emitJump op.skip (draft.here + 1 + right.codeSize))
  | .call _ callee args, draft =>
    (generateArguments args (callee.generate draft)).emit (.call (UInt32.ofNat args.length))
  | .member _ object name, draft => (object.generate draft).emitName .loadMember name

/-- Append the code of arguments, which pushes their values in order. -/
def generateArguments : List Expr → Draft → Draft
  | [], draft => draft
  | arg :: rest, draft => generateArguments rest (arg.generate draft)
end

/-- Append the code of an expression that may be absent. -/
def generateOptional : Option Expr → Draft → Draft
  | some expr, draft => expr.generate draft
  | none, draft => draft

/-- Where the innermost loop starts and where it ends. -/
structure LoopBounds where
  start : Nat
  exit : Nat
  deriving DecidableEq, Repr

/-- What the code of a statement depends on besides the statement. -/
structure Surroundings where
  /-- The label of the source. -/
  file : String
  /-- Whether assertions have code. -/
  keepAsserts : Bool
  loop : Option LoopBounds := none

mutual
/-- Append the code of a statement, which leaves the stack as it was. -/
def Stmt.generate (around : Surroundings) : Stmt → Draft → Draft
  | .expr place value, draft => (value.generate (draft.atLine place.line)).emit .pop
  | .assign place (.name _ name) value, draft =>
    (value.generate (draft.atLine place.line)).emitName .storeName name
  | .assign place _ _, draft => draft.atLine place.line
  | .branch place condition body alternative, draft =>
    let draft := condition.generate (draft.atLine place.line)
    let bodySize := blockSize around.keepAsserts around.loop.isSome body
    let draft := draft.emitJump .popJumpIfFalse
      (draft.here + 1 + bodySize + jumpSize alternative.isPresent)
    alternative.generate around (generateBlock around body draft)
  | .loop place condition body, draft =>
    let start := draft.here
    let draft := condition.generate (draft.atLine place.line)
    let exit := draft.here + 1 + blockSize around.keepAsserts true body + 1
    let draft := draft.emitJump .popJumpIfFalse exit
    let draft := generateBlock { around with loop := some ⟨start, exit⟩ } body draft
    draft.emitJump .jump start
  | .define place name params body, draft =>
    let inner := generateBlock { around with loop := none } body
      { line := UInt32.ofNat place.line }
    let unit := inner.finish name around.file (params.map Param.name)
    ((draft.atLine place.line).emitConstant .makeFunction (.code unit)).emitName .storeName name
  | .giveBack place (some value), draft =>
    (value.generate (draft.atLine place.line)).emit .giveBack
  | .giveBack place none, draft =>
    ((draft.atLine place.line).emitConstant .loadConst .none).emit .giveBack
  | .importModule place name, draft =>
    ((draft.atLine place.line).emitName .importName name).emitName .storeName name
  | .assert place test message, draft =>
    let draft := draft.atLine place.line
    if around.keepAsserts then
      let draft := test.generate draft
      let draft := draft.emitJump .popJumpIfTrue (draft.here + 1 + optionalSize message + 1)
      (generateOptional message draft).emit (.raiseAssert message.isSome)
    else draft
  | .pass place, draft => draft.atLine place.line
  | .breakLoop place, draft =>
    let target := match around.loop with
      | some loop => loop.exit
      | none => 0
    (draft.atLine place.line).emitJump .jump target
  | .continueLoop place, draft =>
    let draft := draft.atLine place.line
    match around.loop with
    | some loop => draft.emitJump .jump loop.start
    | none => draft

/-- Append the code of a block. -/
def generateBlock (around : Surroundings) : List Stmt → Draft → Draft
  | [], draft => draft
  | stmt :: rest, draft => generateBlock around rest (stmt.generate around draft)

/-- Append the code that follows the first block of a branch: a jump over the alternative, if
there is one, and the alternative. -/
def Alternative.generate (around : Surroundings) : Alternative → Draft → Draft
  | .nothing, draft => draft
  | .elif condition body rest, draft =>
    let loops := around.loop.isSome
    let draft := draft.emitJump .jump
      (draft.here + 1 + (Alternative.elif condition body rest).codeSize around.keepAsserts loops)
    let draft := condition.generate draft
    let draft := draft.emitJump .popJumpIfFalse
      (draft.here + 1 + blockSize around.keepAsserts loops body + jumpSize rest.isPresent)
    rest.generate around (generateBlock around body draft)
  | .otherwise body, draft =>
    let draft := draft.emitJump .jump
      (draft.here + 1 + blockSize around.keepAsserts around.loop.isSome body)
    generateBlock around body draft
end

/-- The code of a whole program. From level one on, assertions have no code. -/
def generate (file : String) (optimize : UInt8) (program : Block) : CodeUnit :=
  let around := { file, keepAsserts := optimize == 0 : Surroundings }
  (generateBlock around program { line := 1 }).finish moduleUnitName file []

end FrozenScript
