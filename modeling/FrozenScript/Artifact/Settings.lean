import FrozenScript.Artifact.Label
import FrozenScript.Text.Blank
import FrozenScript.Text.Decimal

/-!
# Settings

How a module is frozen. The environment has a say only if the settings let it.
-/

namespace FrozenScript

open Text

/-- The variable that sets the optimization level. -/
def optimizeVariable : String := "FREEZE_OPTIMIZE"

/-- How a module is frozen. The defaults depend on nothing but the input. -/
structure Settings where
  optimize : UInt8 := 0
  /-- Whether the environment may change the settings. -/
  useEnvironment : Bool := false
  formatVersion : UInt32 := Image.formatVersion
  deriving DecidableEq, Repr

/-- The settings after a look at the environment. Blanks around a value do not count. -/
def Settings.applyEnvironment (settings : Settings) (lookUp : String → Option String) :
    Except BuildError Settings :=
  if settings.useEnvironment then
    match lookUp optimizeVariable with
    | none => .ok settings
    | some value =>
      match Decimal.readUInt8? (trim value.toList) with
      | some optimize => .ok { settings with optimize }
      | none => .error (.badSetting optimizeVariable value)
  else .ok settings

end FrozenScript
