import FrozenScript.Code.Generator
import FrozenScript.Syntax.Parser.Statement
import FrozenScript.Syntax.Scoping
import FrozenScript.Text.Utf8
import FrozenScript.Token.Lexer

/-!
# Compiling a source

`compile` takes a source text through tokens, statements and the scoping rules to code. The label
of the source attributes diagnostics and names the file of every unit; nothing else depends on it.
-/

namespace FrozenScript

open Text

/-- Why a source does not compile. -/
inductive CompileFault where
  | lexical (error : LexError)
  | grammatical (error : ParseError)
  | scoping (error : ScopeError)
  | encoding (fault : Utf8.Fault)
  deriving DecidableEq, Repr

/-- A fault of the source with a label. -/
structure CompileError where
  file : String
  fault : CompileFault
  deriving DecidableEq, Repr

namespace CompileError

/-- The wording of an error. -/
def message (error : CompileError) : String :=
  match error.fault with
  | .lexical e => e.fault.message
  | .grammatical e => e.fault.message
  | .scoping e => e.fault.message
  | .encoding fault =>
    s!"{error.file}: source is not valid UTF-8 (first bad byte at offset {fault.offset})"

/-- The identifier of the kind of an error. -/
def code (error : CompileError) : String :=
  match error.fault with
  | .lexical _ => "freezec::lexer::error"
  | .grammatical _ => "freezec::parser::error"
  | .scoping _ => "freezec::compiler::semantics"
  | .encoding _ => "freezec::compiler::encoding"

/-- Advice on an error. -/
def help? (error : CompileError) : Option String :=
  match error.fault with
  | .lexical _ | .grammatical _ => some "Check the syntax at the highlighted location"
  | .scoping _ => none
  | .encoding _ => some "bootstrap scripts must be UTF-8 encoded"

/-- The place of an error in the source and the remark there. -/
def place? (error : CompileError) : Option (Span × String) :=
  match error.fault with
  | .lexical e => some (e.span, e.fault.remark)
  | .grammatical e => some (e.span, e.fault.remark)
  | .scoping e => some (e.span, e.fault.remark)
  | .encoding _ => none

end CompileError

/-- A source as a program, without a look at the scoping rules. -/
def readProgram (source : String) : Except CompileFault Block := do
  let tokens ← (lex source).mapError .lexical
  (parse tokens).mapError .grammatical

/-- A source as a program that obeys the scoping rules. -/
def readCheckedProgram (source : String) : Except CompileFault Block := do
  let program ← readProgram source
  (checkScoping program).mapError .scoping
  return program

/-- Compile a source text with a label. -/
def compile (file : String) (optimize : UInt8) (source : String) :
    Except CompileError CodeUnit :=
  ((readCheckedProgram source).mapError (⟨file, ·⟩)).map (generate file optimize)

/-- Compile a source that is given as bytes. -/
def compileBytes (file : String) (optimize : UInt8) (source : List UInt8) :
    Except CompileError CodeUnit :=
  ((Utf8.decode source).mapError (⟨file, .encoding ·⟩)).bind (compile file optimize)

end FrozenScript
