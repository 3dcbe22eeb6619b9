import FrozenScript.Syntax.Basic

/-!
# Scoping rules

Some programs can be read but make no sense: a function result outside a function, a jump out of
no loop, an assignment to something that is not a name, or two parameters of one name.
`checkScoping` accepts the programs without such faults and reports the first fault of the others,
in the order of the text.
-/

namespace FrozenScript

open Text

/-- Why a program makes no sense. -/
inductive ScopeFault where
  | returnOutsideFunction
  | breakOutsideLoop
  | continueOutsideLoop
  /-- An assignment to something that is not a name; `target` says to what. -/
  | badTarget (target : String)
  | repeatedParameter (name : String)
  deriving DecidableEq, Repr

namespace ScopeFault

/-- The wording of a fault. -/
def message : ScopeFault → String
  | returnOutsideFunction => "'return' outside function"
  | breakOutsideLoop => "'break' outside loop"
  | continueOutsideLoop => "'continue' not properly in loop"
  | badTarget target => s!"cannot assign to {target}"
  | repeatedParameter name => s!"duplicate argument '{name}' in function definition"

/-- The remark at the place of a fault. -/
def remark : ScopeFault → String
  | returnOutsideFunction => "not inside a function"
  | breakOutsideLoop | continueOutsideLoop => "not inside a loop"
  | badTarget _ => "cannot be assigned to"
  | repeatedParameter _ => "repeated here"

end ScopeFault

/-- A fault of a program and its place. -/
structure ScopeError where
  fault : ScopeFault
  span : Span
  deriving DecidableEq, Repr

namespace Scoping

/-- What encloses a statement. A loop around a function does not enclose the body of the
function. -/
structure Enclosure where
  inFunction : Bool := false
  inLoop : Bool := false
  deriving DecidableEq, Repr

/-- Accept a statement, or report a fault in its span. -/
def require (allowed : Bool) (fault : ScopeFault) (span : Span) : Except ScopeError Unit :=
  if allowed then .ok () else .error ⟨fault, span⟩

theorem require_eq_ok_iff {allowed : Bool} {fault : ScopeFault} {span : Span} :
    require allowed fault span = .ok () ↔ allowed = true := by
  cases allowed <;> simp [require]

theorem require_eq_error_iff {allowed : Bool} {fault : ScopeFault} {span : Span}
    {error : ScopeError} :
    require allowed fault span = .error error ↔ allowed = false ∧ ⟨fault, span⟩ = error := by
  cases allowed <;> simp [require]

/-- Accept a name as the target of an assignment, and nothing else. -/
def checkTarget : Expr → Except ScopeError Unit
  | .name _ _ => .ok ()
  | .literal span _ => .error ⟨.badTarget "literal", span⟩
  | .call span _ _ => .error ⟨.badTarget "function call", span⟩
  | .member span _ _ => .error ⟨.badTarget "attribute", span⟩
  | expr => .error ⟨.badTarget "expression", expr.span⟩

/-- Accept parameters that repeat neither each other nor one of the names seen before. -/
def checkParams : (seen : List String) → List Param → Except ScopeError Unit
  | _, [] => .ok ()
  | seen, param :: rest =>
    if seen.contains param.name then .error ⟨.repeatedParameter param.name, param.span⟩
    else checkParams (param.name :: seen) rest

mutual
/-- Check one statement. -/
def checkStmt (enclosure : Enclosure) : Stmt → Except ScopeError Unit
  | .giveBack place _ => require enclosure.inFunction .returnOutsideFunction place.span
  | .breakLoop place => require enclosure.inLoop .breakOutsideLoop place.span
  | .continueLoop place => require enclosure.inLoop .continueOutsideLoop place.span
  | .assign _ target _ => checkTarget target
  | .branch _ _ body alternative => do
    checkBlock enclosure body
    checkAlternative enclosure alternative
  | .loop _ _ body => checkBlock { enclosure with inLoop := true } body
  | .define _ _ params body => do
    checkParams [] params
    checkBlock { inFunction := true, inLoop := false } body
  | .expr .. | .importModule .. | .assert .. | .pass _ => .ok ()

/-- Check statements in order. -/
def checkBlock (enclosure : Enclosure) : List Stmt → Except ScopeError Unit
  | [] => .ok ()
  | stmt :: rest => do
    checkStmt enclosure stmt
    checkBlock enclosure rest

/-- Check the alternative of a branch. -/
def checkAlternative (enclosure : Enclosure) : Alternative → Except ScopeError Unit
  | .nothing => .ok ()
  | .elif _ body rest => do
    checkBlock enclosure body
    checkAlternative enclosure rest
  | .otherwise body => checkBlock enclosure body
end

end Scoping

/-- Check the scoping rules of a whole program. -/
def checkScoping (program : Block) : Except ScopeError Unit :=
  Scoping.checkBlock {} program

end FrozenScript
