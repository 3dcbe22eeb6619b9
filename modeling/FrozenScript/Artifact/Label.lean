import FrozenScript.Compile
import FrozenScript.Image.Basic

/-!
# Labels and build errors

The label of a module names its source in diagnostics. The name of the module becomes part of an
identifier in the generated text, so it may hold only letters, digits and underscores, and the
label has to fit into a buffer.
-/

namespace FrozenScript

/-- The number of bytes that a label may have: a buffer of 127 bytes also holds a terminator. -/
def maxLabelLength : Nat := 126

/-- The text of the label of a module. -/
def labelText (module : String) : String :=
  s!"<frozen {module}>"

/-- Whether a module name can be part of an identifier. -/
def isModuleName (module : String) : Bool :=
  !module.isEmpty && module.toList.all fun c => c.isAlphanum || c == '_'

/-- The label of a module that can be frozen. -/
structure Label where
  module : String
  isName : isModuleName module = true
  isShort : (labelText module).utf8ByteSize ≤ maxLabelLength

namespace Label

/-- The text of a label. -/
def text (label : Label) : String :=
  labelText label.module

end Label

/-- Why an input that could be opened cannot be read. -/
inductive ReadFault where
  | unknownLength (path : String)
  | noMemory (size : Nat)
  | unreadable (path : String)
  | cutShort (path : String) (got expected : Nat)
  deriving DecidableEq, Repr

namespace ReadFault

/-- The wording of a fault. -/
def message : ReadFault → String
  | unknownLength path => s!"cannot stat '{path}'"
  | noMemory size => s!"could not allocate {size} bytes"
  | unreadable path => s!"cannot read '{path}'"
  | cutShort _ got expected => s!"read too short: got {got} instead of {expected} bytes"

/-- The identifier of the kind of a fault. -/
def code : ReadFault → String
  | unknownLength _ => "freezec::load::stat"
  | noMemory _ => "freezec::load::alloc"
  | unreadable _ => "freezec::load::read"
  | cutShort _ _ _ => "freezec::load::short_read"

end ReadFault

/-- Why a module cannot be frozen. -/
inductive BuildError where
  | badModuleName (module : String)
  | longLabel (module : String) (length : Nat)
  | badSetting (setting value : String)
  | openInput (path : String)
  | readInput (fault : ReadFault)
  | source (error : CompileError)
  | encoding (module : String) (fault : Image.Fault)
  | openOutput (path : String)
  | writeOutput (path : String)
  deriving DecidableEq, Repr

namespace BuildError

/-- The wording of an error. -/
def message : BuildError → String
  | badModuleName module => s!"invalid module name '{module}'"
  | longLabel module length =>
    s!"label for module '{module}' is {length} bytes long (at most {maxLabelLength} allowed)"
  | badSetting setting value => s!"invalid value '{value}' for {setting}"
  | openInput path => s!"cannot open '{path}' for reading"
  | readInput fault => fault.message
  | source error => error.message
  | encoding module _ => s!"failed to marshal code for '{module}'"
  | openOutput path => s!"cannot open '{path}' for writing"
  | writeOutput path => s!"error when writing to '{path}'"

/-- The identifier of the kind of an error. -/
def code : BuildError → String
  | badModuleName _ => "freezec::args::module_name"
  | longLabel _ _ => "freezec::args::label_too_long"
  | badSetting _ _ => "freezec::config"
  | openInput _ => "freezec::load::open"
  | readInput fault => fault.code
  | source error => error.code
  | encoding _ _ => "freezec::marshal"
  | openOutput _ => "freezec::emit::open"
  | writeOutput _ => "freezec::emit::write"

/-- Advice on an error. -/
def help? : BuildError → Option String
  | badModuleName _ =>
    some <| "the name becomes part of the C identifier `M_<name>`; " ++
      "use only ASCII letters, digits and '_'"
  | longLabel _ _ => some "choose a shorter module name"
  | badSetting _ _ => some "expected an integer between 0 and 255"
  | source error => error.help?
  | _ => none

end BuildError

/-- The label of a module, if it has one. A bad name is reported before a long one. -/
def Label.ofModule (module : String) : Except BuildError Label :=
  if isName : isModuleName module = true then
    if isShort : (labelText module).utf8ByteSize ≤ maxLabelLength then
      .ok { module, isName, isShort }
    else .error (.longLabel module (labelText module).utf8ByteSize)
  else .error (.badModuleName module)

end FrozenScript
