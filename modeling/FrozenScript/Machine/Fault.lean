import FrozenScript.Image.Basic
import FrozenScript.Syntax.Basic

/-!
# Faults of a running script

A fault has a cause, and one function gives its wording. A runtime error is a fault together with
the source line of the instruction that it arose at.
-/

namespace FrozenScript

/-- The spelling of an arithmetic operator. -/
def BinaryOp.spelling : BinaryOp → String
  | .add => "+"
  | .sub => "-"
  | .mul => "*"
  | .floorDiv => "//"
  | .mod => "%"

/-- The spelling of a comparison operator. -/
def CompareOp.spelling : CompareOp → String
  | .eq => "=="
  | .ne => "!="
  | .lt => "<"
  | .le => "<="
  | .gt => ">"
  | .ge => ">="

/-- How values do not go together. Types are given by name. -/
inductive TypeFault where
  | negation (operand : String)
  | arithmetic (op : BinaryOp) (left right : String)
  | comparison (op : CompareOp) (left right : String)
  | notCallable (callee : String)
  | argumentCount (function : String) (wanted given : Nat)
  | notOneArgument (function : String) (given : Nat)
  | noLength (argument : String)
  | notNumeric (argument : String)
  deriving DecidableEq, Repr

/-- The wording of a type fault. -/
def TypeFault.message : TypeFault → String
  | negation operand => s!"bad operand type for unary -: '{operand}'"
  | arithmetic op left right =>
    s!"unsupported operand type(s) for {op.spelling}: '{left}' and '{right}'"
  | comparison op left right =>
    s!"'{op.spelling}' not supported between instances of '{left}' and '{right}'"
  | notCallable callee => s!"'{callee}' object is not callable"
  | argumentCount function wanted given =>
    let plural := if wanted = 1 then "" else "s"
    let verb := if given = 1 then "was" else "were"
    s!"{function}() takes {wanted} positional argument{plural} but {given} {verb} given"
  | notOneArgument function given =>
    s!"{function}() takes exactly one argument ({given} given)"
  | noLength argument => s!"object of type '{argument}' has no len()"
  | notNumeric argument => s!"int() argument must be a string or a number, not '{argument}'"

/-- How a unit can be malformed. -/
inductive CodeFault where
  | ranPast (unit : String)
  | nameIndex (index : UInt32) (unit : String)
  | constantIndex (index : UInt32) (unit : String)
  | constantIsUnit (index : UInt32) (unit : String)
  | constantIsNoUnit (index : UInt32) (unit : String)
  | underflow
  deriving DecidableEq, Repr

/-- The wording of a code fault. -/
def CodeFault.message : CodeFault → String
  | ranPast unit => s!"{unit}: ran past the last instruction"
  | nameIndex index unit => s!"name index {index} out of range in {unit}"
  | constantIndex index unit => s!"constant index {index} out of range in {unit}"
  | constantIsUnit index unit => s!"constant {index} of {unit} is a code unit"
  | constantIsNoUnit index unit => s!"constant {index} of {unit} is not a code unit"
  | underflow => "value stack underflow"

/-- Why an instruction cannot be carried out. -/
inductive Fault where
  | unboundName (name : String)
  | type (fault : TypeFault)
  | zeroDivision
  | overflow
  | noMemberOfModule (module name : String)
  | noMemberOfObject (object name : String)
  | assertion (message : Option String)
  | noModule (name : String)
  /-- A text that is no number; it is given as it is written in a script. -/
  | noNumber (literal : String)
  | recursion
  | badCode (fault : CodeFault)
  | badImage (module : String) (fault : Image.Fault)
  | output
  deriving DecidableEq, Repr

/-- The wording of a fault. -/
def Fault.message : Fault → String
  | unboundName name => s!"NameError: name '{name}' is not defined"
  | type fault => s!"TypeError: {fault.message}"
  | zeroDivision => "ZeroDivisionError: integer division or modulo by zero"
  | overflow => "OverflowError: integer result out of range"
  | noMemberOfModule module name =>
    s!"AttributeError: module '{module}' has no attribute '{name}'"
  | noMemberOfObject object name =>
    s!"AttributeError: '{object}' object has no attribute '{name}'"
  | assertion none => "AssertionError"
  | assertion (some message) => s!"AssertionError: {message}"
  | noModule name => s!"ImportError: No module named '{name}'"
  | noNumber literal => s!"ValueError: invalid literal for int() with base 10: {literal}"
  | recursion => "RecursionError: maximum recursion depth exceeded"
  | badCode fault => s!"malformed code unit: {fault.message}"
  | badImage module _ => s!"cannot load frozen module '{module}'"
  | output => "cannot write output"

/-- A fault and the source line it arose at. -/
structure RuntimeError where
  file : String
  line : UInt32
  fault : Fault
  deriving DecidableEq, Repr

/-- The wording of a runtime error. -/
def RuntimeError.message (error : RuntimeError) : String :=
  s!"{error.file}, line {error.line}: {error.fault.message}"

end FrozenScript
