import FrozenScript.Machine.Builtin
import FrozenScript.Table

/-!
# Interpreters and frames

An interpreter keeps what outlives a single run: the images that scripts may import, the modules
that are loaded, the variables of every module that was ever started, and the sink that scripts
print to. A frame is one activation, of a module body or of a function.
-/

namespace FrozenScript

/-- Variables with their values. -/
abbrev Namespace := Table String Value

/-- What outlives a run. -/
structure Interpreter where
  sink : Sink := {}
  /-- The images that scripts may import. -/
  frozen : Table String Image := []
  /-- The modules that an import finds without running anything. -/
  loaded : Table String ScriptModule := []
  /-- The variables of every module, in the order the modules were started. -/
  globals : Array Namespace := #[]
  /-- The number of the next function. -/
  nextFunction : Nat := 0
  /-- The number of calls of script functions in progress. -/
  depth : Nat := 0

namespace Interpreter

/-- The variables of a module. -/
def globalsOf (interpreter : Interpreter) (module : Nat) : Namespace :=
  interpreter.globals[module]?.getD []

/-- Give a variable of a module a value. -/
def setGlobal (interpreter : Interpreter) (module : Nat) (name : String) (value : Value) :
    Interpreter :=
  { interpreter with globals := interpreter.globals.modify module (·.set name value) }

end Interpreter

/-- What a frame is the activation of. -/
inductive Activation where
  /-- The body of a module. `depth` is the number of calls in progress when it was started. -/
  | body (module : String) (depth : Nat)
  /-- A function with its local variables. -/
  | call (locals : Namespace)

/-- One activation. -/
structure Frame where
  unit : CodeUnit
  /-- The index of the next instruction. -/
  pc : Nat := 0
  /-- The values that the instructions work on, top first. -/
  stack : List Value := []
  /-- The module whose variables the frame sees. -/
  home : Nat
  activation : Activation

namespace Frame

/-- The local variables of a frame. -/
def locals (frame : Frame) : Namespace :=
  match frame.activation with
  | .body _ _ => []
  | .call locals => locals

/-- Put a value on the stack. -/
def push (frame : Frame) (value : Value) : Frame :=
  { frame with stack := value :: frame.stack }

end Frame

/-- Make a module with the given name and no variables, and load it under its name. -/
def Interpreter.start (interpreter : Interpreter) (name : String) (unit : CodeUnit) :
    Interpreter × Frame :=
  let id := interpreter.globals.size
  ({ interpreter with
      loaded := interpreter.loaded.set name ⟨id, name⟩
      globals := interpreter.globals.push [] },
    { unit, home := id, activation := .body name interpreter.depth })

/-- Leave a frame that failed: the body of a module is unloaded, and the calls that it had in
progress are over. -/
def Interpreter.abandon (interpreter : Interpreter) (frame : Frame) : Interpreter :=
  match frame.activation with
  | .body name depth => { interpreter with loaded := interpreter.loaded.erase name, depth }
  | .call _ => interpreter

end FrozenScript
