import FrozenScript.Code.Equality
import FrozenScript.Text.Decimal
import FrozenScript.Text.Quoted

/-!
# Values

The values that a script computes with. Functions and modules have an identity of their own: two
of them are equal only if they are the same one. Every other value is equal by content, and a truth
value counts as the number one or zero.
-/

namespace FrozenScript

open Text

/-- The functions that every script knows. -/
inductive Builtin where
  | print | len | str | int | repr
  deriving DecidableEq, Repr

namespace Builtin

/-- The name of a built-in function. -/
def name : Builtin → String
  | print => "print"
  | len => "len"
  | str => "str"
  | int => "int"
  | repr => "repr"

/-- The built-in function of a name. -/
def ofName? : String → Option Builtin
  | "print" => some print
  | "len" => some len
  | "str" => some str
  | "int" => some int
  | "repr" => some repr
  | _ => none

/-- Every built-in function is found by its name. -/
theorem ofName?_name (builtin : Builtin) : ofName? builtin.name = some builtin := by
  cases builtin <;> rfl

/-- A built-in function is found by its own name only. -/
theorem name_of_ofName? {name : String} {builtin : Builtin} (h : ofName? name = some builtin) :
    builtin.name = name := by
  unfold ofName? at h
  split at h <;> cases h <;> rfl

end Builtin

/-- A function that a script defined. -/
structure ScriptFunction where
  /-- The number that tells this function from every other one. -/
  id : Nat
  code : CodeUnit
  /-- The module whose variables the function sees. -/
  home : Nat
  deriving DecidableEq

/-- A module that was started. -/
structure ScriptModule where
  /-- The number that tells this module from every other one. -/
  id : Nat
  name : String
  deriving DecidableEq, Repr

/-- A value. -/
inductive Value where
  | none
  | bool (value : Bool)
  | int (value : Int64)
  | text (value : String)
  | function (value : ScriptFunction)
  | builtin (value : Builtin)
  | module (value : ScriptModule)
  deriving DecidableEq

namespace Value

/-- The name of the type of a value. -/
def typeName : Value → String
  | none => "NoneType"
  | bool _ => "bool"
  | int _ => "int"
  | text _ => "str"
  | function _ => "function"
  | builtin _ => "builtin_function_or_method"
  | module _ => "module"

/-- Whether a value counts as true. -/
def isTruthy : Value → Bool
  | none => false
  | bool value => value
  | int value => value != 0
  | text value => !value.isEmpty
  | function _ | builtin _ | module _ => true

/-- The number that a value stands for: numbers stand for themselves, truth values for one and
zero. -/
def toInt? : Value → Option Int64
  | int value => some value
  | bool value => some (if value then 1 else 0)
  | _ => Option.none

/-- Whether two values are equal. -/
def equals : Value → Value → Bool
  | none, none => true
  | text a, text b => a == b
  | function a, function b => a.id == b.id
  | builtin a, builtin b => a == b
  | module a, module b => a.id == b.id
  | a, b =>
    match a.toInt?, b.toInt? with
    | some a, some b => a == b
    | _, _ => false

/-- How a value is printed. -/
def display : Value → String
  | none => "None"
  | bool true => "True"
  | bool false => "False"
  | int value => Decimal.ofInt64 value
  | text value => value
  | function value => s!"<function {value.code.name}>"
  | builtin value => s!"<built-in function {value.name}>"
  | module value => s!"<module '{value.name}' (frozen)>"

/-- How a value is written in a script, as far as it can be. -/
def literal : Value → String
  | text value => Quoted.quote value
  | value => value.display

end Value

end FrozenScript
