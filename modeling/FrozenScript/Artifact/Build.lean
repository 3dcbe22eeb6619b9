import FrozenScript.Artifact.ArrayText
import FrozenScript.Artifact.FileTree
import FrozenScript.Artifact.Settings
import FrozenScript.Image.Encode

/-!
# Building artifacts

`build` freezes a module: it checks the name, reads the source, compiles it, writes the image and
turns it into an array text in the output file. The output is opened last, and if it cannot be
written completely, it is removed, so that no partial artifact is left.
-/

namespace FrozenScript

/-- What to freeze and where to put it. -/
structure BuildRequest where
  input : String
  output : String
  module : String
  deriving DecidableEq, Repr

/-- The unit of a source. -/
def compileModule (settings : Settings) (label : Label) (source : ByteArray) :
    Except BuildError CodeUnit :=
  (compileBytes label.text settings.optimize source.data.toList).mapError .source

/-- The image of a unit. -/
def encodeModule (settings : Settings) (module : String) (unit : CodeUnit) :
    Except BuildError Image :=
  (Image.encode settings.formatVersion unit).mapError (.encoding module)

/-- The number of bytes that an input of some length takes in memory, with a terminator. -/
def bufferSize (length : Nat) : Nat :=
  min (length + 1) longestLength

/-- What was read of an input, if it is as long as was told. -/
def checkLength (path : String) (expected : Nat) (source : ByteArray) :
    Except BuildError ByteArray :=
  if source.size = expected then .ok source
  else .error (.readInput (.cutShort path source.size expected))

/-- The bytes of an input file. Its length is told first, and no more than that is read. -/
def FileTree.load (tree : FileTree) (path : String) : Except BuildError ByteArray := do
  let some location := tree.locate path | throw (.openInput path)
  let some node := tree.node? location | throw (.openInput path)
  let some expected := tree.length? location node | throw (.readInput (.unknownLength path))
  if min tree.memory longestBuffer < bufferSize expected then
    throw (.readInput (.noMemory (bufferSize expected)))
  let some source := node.read? expected | throw (.readInput (.unreadable path))
  checkLength path expected source

/-- Write the array text of a module to an output file. -/
def FileTree.emit (tree : FileTree) (path module : String) (image : Image) :
    Except BuildError Unit × FileTree :=
  match tree.create path with
  | none => (.error (.openOutput path), tree)
  | some (location, tree) =>
    let (complete, tree) := tree.write location (ArrayText.render module image).toUTF8
    (if complete then .ok () else .error (.writeOutput path), tree.release path complete)

/-- The image of a module with a label and a source. -/
def imageOfSource (settings : Settings) (module : String) (label : Label) (source : ByteArray) :
    Except BuildError Image :=
  compileModule settings label source >>= encodeModule settings module

/-- The image of a module whose source is read by some action, once its name is found good. -/
def imageFrom {m : Type → Type} [Monad m] (load : ExceptT BuildError m ByteArray)
    (settings : Settings) (module : String) : ExceptT BuildError m Image := do
  let label ← Label.ofModule module
  let source ← load
  imageOfSource settings module label source

/-- The image of the module of a request. -/
def imageOf (settings : Settings) (request : BuildRequest) (tree : FileTree) :
    Except BuildError Image :=
  Id.run (imageFrom (ExceptT.mk (pure (tree.load request.input))) settings request.module).run

/-- The stages that lead to an image. -/
theorem imageOf_eq (settings : Settings) (request : BuildRequest) (tree : FileTree) :
    imageOf settings request tree = (do
      let label ← Label.ofModule request.module
      let source ← tree.load request.input
      imageOfSource settings request.module label source) := by
  unfold imageOf imageFrom
  cases Label.ofModule request.module with
  | error error => rfl
  | ok label => cases tree.load request.input <;> rfl

/-- Freeze a module. -/
def build (settings : Settings) (request : BuildRequest) (tree : FileTree) :
    Except BuildError Unit × FileTree :=
  match imageOf settings request tree with
  | .error error => (.error error, tree)
  | .ok image => tree.emit request.output request.module image

end FrozenScript
