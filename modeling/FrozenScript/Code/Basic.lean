import FrozenScript.Syntax.Basic

/-!
# Code units

A code unit holds the instructions of one body, of a module or of a function, for a stack machine,
together with the constants and the names that the instructions refer to by index. A function
inside the body is a constant that is a unit itself, so the units of a program form a tree.
-/

namespace FrozenScript

/-- An instruction. Operands of jumps are indices of instructions; the other operands are indices
of constants or names, or a number of arguments. -/
inductive Instr where
  | loadConst (index : UInt32)
  | loadName (index : UInt32)
  | storeName (index : UInt32)
  | loadMember (index : UInt32)
  | importName (index : UInt32)
  | binaryOp (op : BinaryOp)
  | unaryOp (op : UnaryOp)
  | compare (op : CompareOp)
  | jump (target : UInt32)
  | popJumpIfFalse (target : UInt32)
  | popJumpIfTrue (target : UInt32)
  /-- Jump and keep the top value if it counts as false; otherwise drop it. -/
  | jumpIfFalseOrPop (target : UInt32)
  /-- Jump and keep the top value if it counts as true; otherwise drop it. -/
  | jumpIfTrueOrPop (target : UInt32)
  | call (argCount : UInt32)
  /-- The operand is the index of a constant that is a unit. -/
  | makeFunction (index : UInt32)
  | pop
  | giveBack
  | raiseAssert (withMessage : Bool)
  deriving DecidableEq, Repr

mutual
/-- A constant of a unit. -/
inductive Constant where
  | none
  | bool (value : Bool)
  | int (value : Int64)
  | text (value : String)
  | code (unit : CodeUnit)

/-- The code of one body. -/
structure CodeUnit where
  name : String
  /-- The label of the source, which diagnostics show. -/
  file : String
  params : List String
  consts : List Constant
  names : Array String
  code : Array Instr
  /-- The source line of every instruction. -/
  lines : Array UInt32
end

/-- The name of the unit of a module body. -/
def moduleUnitName : String := "<module>"

namespace CodeUnit

/-- The source line of an instruction, or zero where the unit says nothing. -/
def lineAt (unit : CodeUnit) (index : Nat) : UInt32 :=
  unit.lines[index]?.getD 0

end CodeUnit

mutual
/-- The units inside a constant. -/
def Constant.units : Constant → List CodeUnit
  | .code unit => unit.units
  | .none | .bool _ | .int _ | .text _ => []

/-- A unit and the units inside it, depth first. -/
def CodeUnit.units : CodeUnit → List CodeUnit
  | .mk name file params consts names code lines =>
    .mk name file params consts names code lines :: unitsOfConstants consts

/-- The units inside a list of constants. -/
def unitsOfConstants : List Constant → List CodeUnit
  | [] => []
  | const :: rest => const.units ++ unitsOfConstants rest
end

end FrozenScript
