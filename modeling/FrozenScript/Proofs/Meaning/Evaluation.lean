import FrozenScript.Machine.Run
import FrozenScript.Proofs.Code.Functions

/-!
# The meaning of programs

Here a program is evaluated directly, expression by expression and statement by statement, without
instructions, jumps and a stack. The evaluation shares with the machine what it works on, values
and interpreters, and the operators and built-in functions on values.

Evaluation need not end, so it is given fuel: the number of activations that may be inside each
other, and the number of rounds of every loop. It has no result if the fuel does not suffice.

A function value holds the unit of the function, and to call it is to evaluate the body that this
unit was made of. Functions that the program did not define and frozen modules have no body here:
`evaluateCode` follows their instructions, and evaluates what they call in turn.
-/

namespace FrozenScript

/-- Something that may change the interpreter, may fail, and may run out of fuel. -/
abbrev Evaluation := ExceptT Fault (StateT Interpreter Option)

/-- The fuel does not suffice. -/
def outOfFuel {α : Type} : Evaluation α :=
  ExceptT.mk fun _ => none

/-- An action of the machine. -/
def ofAction {α : Type} (action : Action α) : Evaluation α :=
  ExceptT.mk fun interpreter => some (action.run interpreter)

/-- Where the variables of an activation are: its module, and its local variables if it is that of
a function. -/
structure Scope where
  home : Nat
  activation : Activation

/-- How activations are evaluated: what a unit gives back. -/
abbrev Activate := CodeUnit → Scope → Evaluation Value

/-- How a statement comes to its end. -/
inductive Completion where
  | next
  | breakLoop
  | continueLoop
  | giveBack (value : Value)

namespace Scope

/-- The local variables. -/
def locals (scope : Scope) : Namespace :=
  match scope.activation with
  | .body _ _ => []
  | .call locals => locals

/-- The value of a variable: a local one, one of the module, or a built-in function. -/
def find (scope : Scope) (name : String) : Evaluation Value := do
  match scope.locals.get? name with
  | some value => return value
  | none =>
    match ((← get).globalsOf scope.home).get? name with
    | some value => return value
    | none =>
      match Builtin.ofName? name with
      | some builtin => return .builtin builtin
      | none => throw (.unboundName name)

/-- Give a variable a value: a local one in a function, one of the module in its body. -/
def assign (scope : Scope) (name : String) (value : Value) : Evaluation Scope := do
  match scope.activation with
  | .call locals => return { scope with activation := .call (locals.set name value) }
  | .body _ _ =>
    modify (·.setGlobal scope.home name value)
    return scope

end Scope

/-! ## Calls and imports -/

/-- Evaluate an activation to its end. A call that fails stays in progress until the body of the
module that made it is over. A module is unloaded again if its body fails, and its value is the
module. -/
def evaluateActivation (value : Scope → Evaluation Value) (scope : Scope) : Evaluation Value :=
  match scope.activation with
  | .call _ => do
    let result ← value scope
    modify fun interpreter => { interpreter with depth := interpreter.depth - 1 }
    return result
  | .body name depth => do
    try
      let _ ← value scope
      modify ({ · with depth })
      pure (.module ⟨scope.home, name⟩)
    catch fault =>
      modify fun after => { after with loaded := after.loaded.erase name, depth }
      throw fault

/-- Call a function that a script defined: its parameters are its local variables. -/
def callFunction (activate : Activate) (function : ScriptFunction) (args : List Value) :
    Evaluation Value := do
  let params := function.code.params
  if params.length ≠ args.length then
    throw (.type (.argumentCount function.code.name params.length args.length))
  let interpreter ← get
  if maxDepth ≤ interpreter.depth then throw .recursion
  set { interpreter with depth := interpreter.depth + 1 }
  evaluateActivation (activate function.code) ⟨function.home, .call (bindParams params args)⟩

/-- Call a value. -/
def evaluateCall (activate : Activate) (callee : Value) (args : List Value) :
    Evaluation Value := do
  match callee with
  | .builtin builtin =>
    let interpreter ← get
    let (result, sink) := builtin.call args interpreter.sink
    set { interpreter with sink }
    result
  | .function function => callFunction activate function args
  | _ => throw (.type (.notCallable callee.typeName))

/-- Load a new module under a name. It has no variables yet. -/
def startModule (name : String) : Evaluation Scope := do
  let interpreter ← get
  let id := interpreter.globals.size
  set { interpreter with
    loaded := interpreter.loaded.set name ⟨id, name⟩
    globals := interpreter.globals.push [] }
  return ⟨id, .body name interpreter.depth⟩

/-- Import a module: one that is loaded as it is, and otherwise by evaluating its frozen image. -/
def evaluateImport (activate : Activate) (name : String) : Evaluation Value := do
  let interpreter ← get
  match interpreter.loaded.get? name with
  | some module => return .module module
  | none =>
    match interpreter.frozen.get? name with
    | none => throw (.noModule name)
    | some image =>
      let unit ← ((Image.decode image).mapError (.badImage name) : Except Fault CodeUnit)
      let scope ← startModule name
      evaluateActivation (activate unit) scope

/-! ## Expressions -/

/-- The value of a literal. -/
def Literal.value : Literal → Value
  | .none => .none
  | .bool value => .bool value
  | .int value => .int value
  | .text value => .text value

/-- Whether the left operand of a logical operator is its result. -/
def LogicalOp.isDecidedBy : LogicalOp → Value → Bool
  | .and, left => !left.isTruthy
  | .or, left => left.isTruthy

mutual
/-- The value of an expression. Operands and arguments are evaluated from left to right. -/
def Expr.evaluate (activate : Activate) (scope : Scope) : Expr → Evaluation Value
  | .literal _ value => return value.value
  | .name _ name => scope.find name
  | .binary _ op left right => do
    let left ← left.evaluate activate scope
    let right ← right.evaluate activate scope
    op.apply left right
  | .unary _ op operand => do
    let operand ← operand.evaluate activate scope
    op.apply operand
  | .compare _ op left right => do
    let left ← left.evaluate activate scope
    let right ← right.evaluate activate scope
    op.apply left right
  | .logical _ op left right => do
    let left ← left.evaluate activate scope
    if op.isDecidedBy left then return left else right.evaluate activate scope
  | .call _ callee args => do
    let callee ← callee.evaluate activate scope
    let args ← evaluateArguments activate scope args
    evaluateCall activate callee args
  | .member _ object name => do
    let object ← object.evaluate activate scope
    let interpreter ← get
    member object name interpreter

/-- The values of arguments. -/
def evaluateArguments (activate : Activate) (scope : Scope) : List Expr → Evaluation (List Value)
  | [] => return []
  | arg :: rest => do
    let value ← arg.evaluate activate scope
    let values ← evaluateArguments activate scope rest
    return value :: values
end

/-! ## Statements -/

/-- Evaluate a loop. The number is that of the rounds that there is fuel for. -/
def evaluateLoop (test : Scope → Evaluation Value)
    (body : Scope → Evaluation (Completion × Scope)) :
    (rounds : Nat) → Scope → Evaluation (Completion × Scope)
  | 0, _ => outOfFuel
  | rounds + 1, scope => do
    let value ← test scope
    if value.isTruthy then
      let (completion, scope) ← body scope
      match completion with
      | .next | .continueLoop => evaluateLoop test body rounds scope
      | .breakLoop => return (.next, scope)
      | .giveBack value => return (.giveBack value, scope)
    else return (.next, scope)

/-- Fail because an assertion does not hold. -/
def failAssertion {α : Type} (activate : Activate) (scope : Scope) : Option Expr → Evaluation α
  | none => throw (.assertion none)
  | some message => do
    let value ← message.evaluate activate scope
    throw (.assertion (some value.display))

/-- Make a function of a unit. -/
def evaluateDefinition (scope : Scope) (code : CodeUnit) : Evaluation Value := do
  let interpreter ← get
  set { interpreter with nextFunction := interpreter.nextFunction + 1 }
  return .function { id := interpreter.nextFunction, code, home := scope.home }

mutual
/-- Evaluate a statement. Nothing is assigned to anything but a name: the scoping rules reject
other targets. -/
def Stmt.evaluate (activate : Activate) (fuel : Nat) (file : String) :
    Stmt → Scope → Evaluation (Completion × Scope)
  | .expr _ value, scope => do
    let _ ← value.evaluate activate scope
    return (.next, scope)
  | .assign _ (.name _ name) value, scope => do
    let value ← value.evaluate activate scope
    return (.next, ← scope.assign name value)
  | .assign .., scope => return (.next, scope)
  | .branch _ condition body alternative, scope => do
    let value ← condition.evaluate activate scope
    if value.isTruthy then evaluateBlock activate fuel file body scope
    else alternative.evaluate activate fuel file scope
  | .loop _ condition body, scope =>
    evaluateLoop (condition.evaluate activate) (evaluateBlock activate fuel file body) fuel scope
  | .define place name params body, scope => do
    let code := functionUnit { file, keepAsserts := true } place name params body
    let value ← evaluateDefinition scope code
    return (.next, ← scope.assign name value)
  | .giveBack _ (some value), scope => do
    let value ← value.evaluate activate scope
    return (.giveBack value, scope)
  | .giveBack _ none, scope => return (.giveBack .none, scope)
  | .importModule _ name, scope => do
    let module ← evaluateImport activate name
    return (.next, ← scope.assign name module)
  | .assert _ test message, scope => do
    let value ← test.evaluate activate scope
    if value.isTruthy then return (.next, scope) else failAssertion activate scope message
  | .pass _, scope => return (.next, scope)
  | .breakLoop _, scope => return (.breakLoop, scope)
  | .continueLoop _, scope => return (.continueLoop, scope)

/-- Evaluate the statements of a block until one of them does not lead to the next one. -/
def evaluateBlock (activate : Activate) (fuel : Nat) (file : String) :
    List Stmt → Scope → Evaluation (Completion × Scope)
  | [], scope => return (.next, scope)
  | stmt :: rest, scope => do
    let (completion, scope) ← stmt.evaluate activate fuel file scope
    match completion with
    | .next => evaluateBlock activate fuel file rest scope
    | other => return (other, scope)

/-- Evaluate the first block of an alternative whose condition holds. -/
def Alternative.evaluate (activate : Activate) (fuel : Nat) (file : String) :
    Alternative → Scope → Evaluation (Completion × Scope)
  | .nothing, scope => return (.next, scope)
  | .elif condition body rest, scope => do
    let value ← condition.evaluate activate scope
    if value.isTruthy then evaluateBlock activate fuel file body scope
    else rest.evaluate activate fuel file scope
  | .otherwise body, scope => evaluateBlock activate fuel file body scope
end

/-! ## Programs -/

/-- What a body gives back: nothing if it runs to its end. -/
def evaluateBody (activate : Activate) (fuel : Nat) (file : String) (body : Block)
    (scope : Scope) : Evaluation Value := do
  let (completion, _) ← evaluateBlock activate fuel file body scope
  match completion with
  | .giveBack value => return value
  | _ => return .none

/-- Carry out at most some instructions of a frame, and evaluate what it calls and imports. -/
def evaluateCode (activate : Activate) : (steps : Nat) → Frame → Evaluation Value
  | 0, _ => outOfFuel
  | steps + 1, frame => do
    match frame.unit.code[frame.pc]? with
    | none => throw (.badCode (.ranPast frame.unit.name))
    | some instr =>
      let flow ← ofAction (perform { frame with pc := frame.pc + 1 } instr)
      match flow with
      | .proceed frame => evaluateCode activate steps frame
      | .enter callee caller =>
        let value ← evaluateActivation (activate callee.unit) ⟨callee.home, callee.activation⟩
        evaluateCode activate steps (caller.push value)
      | .giveBack value => return value

/-- Evaluate the activation of a unit: its body if it is one of some known bodies, and otherwise its
instructions. -/
def activate (bodies : List (CodeUnit × Block)) (file : String) : (fuel : Nat) → Activate
  | 0, _, _ => outOfFuel
  | fuel + 1, unit, scope =>
    match bodies.find? (·.1 == unit) with
    | some (_, body) => evaluateBody (activate bodies file fuel) (fuel + 1) file body scope
    | none =>
      evaluateCode (activate bodies file fuel) (fuel + 1)
        { unit, home := scope.home, activation := scope.activation }

/-- Evaluate a program as the body of the module with a name. The label of its source is part of
the units of its functions. -/
def evaluateProgram (fuel : Nat) (name file : String) (program : Block) : Evaluation Value := do
  let activate := activate (programBodies file 0 program) file fuel
  let scope ← startModule name
  evaluateActivation (evaluateBody activate (fuel + 1) file program) scope

/-- Evaluate a program as the body of the module with a name. -/
def Interpreter.evaluate (interpreter : Interpreter) (fuel : Nat) (name file : String)
    (program : Block) : Option (Interpreter × Except Fault ScriptModule) :=
  ((evaluateProgram fuel name file program).run interpreter).map fun (result, after) =>
    (after, result.map fun _ => ⟨interpreter.globals.size, name⟩)

end FrozenScript
