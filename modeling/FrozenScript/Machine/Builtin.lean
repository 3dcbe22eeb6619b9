import FrozenScript.Machine.Operators
import FrozenScript.Sink
import FrozenScript.Text.Blank

/-!
# Built-in functions

`print` writes its arguments to a sink; the other functions take one argument and compute a value
from it.
-/

namespace FrozenScript

open Text

namespace Builtin

/-- The line that `print` writes: its arguments with spaces between them. -/
def printedLine (args : List Value) : String :=
  " ".intercalate (args.map Value.display) ++ "\n"

/-- The number that a text denotes. Blanks around it do not count. -/
def parseInt (text : String) : Except Fault Value :=
  match Decimal.readInt64? (trim text.toList) with
  | some n => .ok (.int n)
  | none => .error (.noNumber (Quoted.quote text))

/-- Apply a built-in function to its only argument. -/
def onValue (builtin : Builtin) (arg : Value) : Except Fault Value :=
  match builtin with
  | print => .ok .none
  | len =>
    match arg with
    | .text text => .ok (.int (Int64.ofNat text.length))
    | _ => .error (.type (.noLength arg.typeName))
  | str => .ok (.text arg.display)
  | repr => .ok (.text arg.literal)
  | int =>
    match arg.toInt? with
    | some n => .ok (.int n)
    | none =>
      match arg with
      | .text text => parseInt text
      | _ => .error (.type (.notNumeric arg.typeName))

/-- Call a built-in function. -/
def call (builtin : Builtin) (args : List Value) (sink : Sink) : Except Fault Value × Sink :=
  match builtin, args with
  | print, args =>
    let line := (printedLine args).toUTF8
    (if sink.fits line.size then .ok .none else .error .output, sink.write line)
  | builtin, [arg] => (builtin.onValue arg, sink)
  | builtin, args => (.error (.type (.notOneArgument builtin.name args.length)), sink)

end Builtin

end FrozenScript
