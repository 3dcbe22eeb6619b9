import FrozenScript.Image.Decode
import FrozenScript.Machine.State

/-!
# Instructions

`perform` carries out one instruction of a frame, and `Machine.next` one step of a machine: the
frame that runs and the frames that wait for it. Calls and imports put a new frame on top, so a
script that recurses makes the list of frames longer and nothing else.
-/

namespace FrozenScript

/-- The number of calls of script functions that may be in progress. -/
def maxDepth : Nat := 200

/-- Something that may change the interpreter and may fail. -/
abbrev Action := ExceptT Fault (StateM Interpreter)

/-- How a machine goes on after an instruction. -/
inductive Flow where
  /-- The frame goes on. -/
  | proceed (frame : Frame)
  /-- A new frame runs first; its value goes on the stack of the waiting one. -/
  | enter (callee caller : Frame)
  /-- The frame is over. -/
  | giveBack (value : Value)

/-- The name with an index. -/
def CodeUnit.nameAt (unit : CodeUnit) (index : UInt32) : Except Fault String :=
  match unit.names[index.toNat]? with
  | some name => .ok name
  | none => .error (.badCode (.nameIndex index unit.name))

/-- The value of the constant with an index. -/
def CodeUnit.valueAt (unit : CodeUnit) (index : UInt32) : Except Fault Value :=
  match unit.consts[index.toNat]? with
  | some .none => .ok .none
  | some (.bool value) => .ok (.bool value)
  | some (.int value) => .ok (.int value)
  | some (.text value) => .ok (.text value)
  | some (.code _) => .error (.badCode (.constantIsUnit index unit.name))
  | none => .error (.badCode (.constantIndex index unit.name))

/-- The unit that is the constant with an index. -/
def CodeUnit.unitAt (unit : CodeUnit) (index : UInt32) : Except Fault CodeUnit :=
  match unit.consts[index.toNat]? with
  | some (.code inner) => .ok inner
  | _ => .error (.badCode (.constantIsNoUnit index unit.name))

namespace Frame

/-- Take the top value from the stack. -/
def pop (frame : Frame) : Except Fault (Value × Frame) :=
  match frame.stack with
  | value :: stack => .ok (value, { frame with stack })
  | [] => .error (.badCode .underflow)

/-- Take the top two values from the stack, the lower one first. -/
def popTwo (frame : Frame) : Except Fault (Value × Value × Frame) := do
  let (right, frame) ← frame.pop
  let (left, frame) ← frame.pop
  return (left, right, frame)

/-- Go on at another instruction. -/
def goTo (frame : Frame) (target : UInt32) : Frame :=
  { frame with pc := target.toNat }

/-- Jump and take the top value from the stack, or just take it. -/
def popAndJumpIf (frame : Frame) (wanted : Bool) (target : UInt32) : Except Fault Frame := do
  let (value, frame) ← frame.pop
  return if value.isTruthy == wanted then frame.goTo target else frame

/-- Jump and keep the top value of the stack, or take it and go on. -/
def jumpIfOrPop (frame : Frame) (wanted : Bool) (target : UInt32) : Except Fault Frame := do
  let (value, popped) ← frame.pop
  return if value.isTruthy == wanted then frame.goTo target else popped

end Frame

/-- The value of a variable: a local one, one of the module, or a built-in function. -/
def lookUp (frame : Frame) (name : String) (interpreter : Interpreter) : Except Fault Value :=
  match frame.locals.get? name with
  | some value => .ok value
  | none =>
    match (interpreter.globalsOf frame.home).get? name with
    | some value => .ok value
    | none =>
      match Builtin.ofName? name with
      | some builtin => .ok (.builtin builtin)
      | none => .error (.unboundName name)

/-- Give a variable a value: a local one in a function, one of the module in its body. -/
def store (frame : Frame) (name : String) (value : Value) : Action Frame := do
  match frame.activation with
  | .call locals => return { frame with activation := .call (locals.set name value) }
  | .body _ _ =>
    modify (·.setGlobal frame.home name value)
    return frame

/-- A member of a value. Only modules have members: their variables. -/
def member (object : Value) (name : String) (interpreter : Interpreter) : Except Fault Value :=
  match object with
  | .module module =>
    match (interpreter.globalsOf module.id).get? name with
    | some value => .ok value
    | none => .error (.noMemberOfModule module.name name)
  | _ => .error (.noMemberOfObject object.typeName name)

/-- Make a function of a unit. -/
def makeFunction (code : CodeUnit) (home : Nat) : Action Value := do
  let interpreter ← get
  set { interpreter with nextFunction := interpreter.nextFunction + 1 }
  return .function { id := interpreter.nextFunction, code, home }

/-- The local variables at the start of a call. -/
def bindParams (params : List String) (args : List Value) : Namespace :=
  (params.zip args).foldl (fun locals (name, value) => locals.set name value) []

/-- Call a value. -/
def callValue (callee : Value) (args : List Value) (caller : Frame) : Action Flow := do
  match callee with
  | .builtin builtin =>
    let interpreter ← get
    let (result, sink) := builtin.call args interpreter.sink
    set { interpreter with sink }
    return .proceed (caller.push (← result))
  | .function function =>
    let params := function.code.params
    if params.length ≠ args.length then
      throw (.type (.argumentCount function.code.name params.length args.length))
    let interpreter ← get
    if maxDepth ≤ interpreter.depth then throw .recursion
    set { interpreter with depth := interpreter.depth + 1 }
    let callee : Frame :=
      { unit := function.code, home := function.home, activation := .call (bindParams params args) }
    return .enter callee caller
  | _ => throw (.type (.notCallable callee.typeName))

/-- Import a module: one that is loaded as it is, and otherwise by running its frozen image. -/
def importModule (name : String) (frame : Frame) : Action Flow := do
  let interpreter ← get
  match interpreter.loaded.get? name with
  | some module => return .proceed (frame.push (.module module))
  | none =>
    match interpreter.frozen.get? name with
    | none => throw (.noModule name)
    | some image =>
      let unit ← ((Image.decode image).mapError (.badImage name) : Except Fault CodeUnit)
      let (interpreter, body) := interpreter.start name unit
      set interpreter
      return .enter body frame

/-- Carry out an instruction. The frame already points behind it. -/
def perform (frame : Frame) : Instr → Action Flow
  | .loadConst index => return .proceed (frame.push (← frame.unit.valueAt index))
  | .loadName index => do
    let name ← frame.unit.nameAt index
    return .proceed (frame.push (← lookUp frame name (← get)))
  | .storeName index => do
    let name ← frame.unit.nameAt index
    let (value, frame) ← frame.pop
    return .proceed (← store frame name value)
  | .loadMember index => do
    let name ← frame.unit.nameAt index
    let (object, frame) ← frame.pop
    return .proceed (frame.push (← member object name (← get)))
  | .importName index => do
    let name ← frame.unit.nameAt index
    importModule name frame
  | .binaryOp op => do
    let (left, right, frame) ← frame.popTwo
    return .proceed (frame.push (← op.apply left right))
  | .unaryOp op => do
    let (operand, frame) ← frame.pop
    return .proceed (frame.push (← op.apply operand))
  | .compare op => do
    let (left, right, frame) ← frame.popTwo
    return .proceed (frame.push (← op.apply left right))
  | .jump target => return .proceed (frame.goTo target)
  | .popJumpIfFalse target => return .proceed (← frame.popAndJumpIf false target)
  | .popJumpIfTrue target => return .proceed (← frame.popAndJumpIf true target)
  | .jumpIfFalseOrPop target => return .proceed (← frame.jumpIfOrPop false target)
  | .jumpIfTrueOrPop target => return .proceed (← frame.jumpIfOrPop true target)
  | .call argCount => do
    let count := argCount.toNat
    if frame.stack.length < count then throw (.badCode .underflow)
    let args := (frame.stack.take count).reverse
    let (callee, frame) ← { frame with stack := frame.stack.drop count : Frame }.pop
    callValue callee args frame
  | .makeFunction index => do
    let code ← frame.unit.unitAt index
    return .proceed (frame.push (← makeFunction code frame.home))
  | .pop => do
    let (_, frame) ← frame.pop
    return .proceed frame
  | .giveBack => do
    let (value, _) ← frame.pop
    return .giveBack value
  | .raiseAssert true => do
    let (message, _) ← frame.pop
    throw (.assertion (some message.display))
  | .raiseAssert false => throw (.assertion none)

/-- A running script: the frame that runs and the frames that wait, innermost first. -/
structure Machine where
  interpreter : Interpreter
  frame : Frame
  callers : List Frame := []

/-- What a step leads to. -/
inductive Outcome where
  | running (machine : Machine)
  | finished (interpreter : Interpreter)
  | failed (interpreter : Interpreter) (error : RuntimeError)

namespace Machine

/-- Give up: every frame is left, innermost first. -/
def fail (machine : Machine) (error : RuntimeError) : Outcome :=
  let frames := machine.frame :: machine.callers
  .failed (frames.foldl Interpreter.abandon machine.interpreter) error

/-- Leave the running frame with a value. The value of a module body is its module. -/
def leave (machine : Machine) (value : Value) : Outcome :=
  let interpreter := machine.interpreter
  let frame := machine.frame
  let (interpreter, result) : Interpreter × Value :=
    match frame.activation with
    | .call _ => ({ interpreter with depth := interpreter.depth - 1 }, value)
    | .body name depth => ({ interpreter with depth }, .module ⟨frame.home, name⟩)
  match machine.callers with
  | [] => .finished interpreter
  | caller :: callers => .running ⟨interpreter, caller.push result, callers⟩

/-- Carry out one instruction. -/
def next (machine : Machine) : Outcome :=
  let frame := machine.frame
  let unit := frame.unit
  match unit.code[frame.pc]? with
  | none =>
    machine.fail ⟨unit.file, unit.lineAt (frame.pc - 1), .badCode (.ranPast unit.name)⟩
  | some instr =>
    match (perform { frame with pc := frame.pc + 1 } instr).run machine.interpreter with
    | (.error fault, interpreter) =>
      { machine with interpreter }.fail ⟨unit.file, unit.lineAt frame.pc, fault⟩
    | (.ok (.proceed frame), interpreter) => .running { machine with interpreter, frame }
    | (.ok (.enter callee caller), interpreter) =>
      .running ⟨interpreter, callee, caller :: machine.callers⟩
    | (.ok (.giveBack value), interpreter) => { machine with interpreter }.leave value

end Machine

end FrozenScript
