import FrozenScript.Machine.Step

/-!
# Running scripts

A script need not end, so a run is given a number of steps, and has no result if they do not
suffice. `Machine.run_mono` says that more steps do not change how a run ends.
-/

namespace FrozenScript

/-- How a run of a machine ends. -/
abbrev Ending := Interpreter × Except RuntimeError Unit

/-- Carry out at most some steps. -/
def Machine.run : (steps : Nat) → Machine → Option Ending
  | 0, _ => none
  | steps + 1, machine =>
    match machine.next with
    | .running machine => run steps machine
    | .finished interpreter => some (interpreter, .ok ())
    | .failed interpreter error => some (interpreter, .error error)

/-- More steps do not change the ending of a run. -/
theorem Machine.run_mono {steps : Nat} {machine : Machine} {ending : Ending}
    (h : machine.run steps = some ending) (more : Nat) :
    machine.run (steps + more) = some ending := by
  induction steps generalizing machine with
  | zero => simp [run] at h
  | succ steps ih =>
    rw [Nat.succ_add]
    simp only [run] at h ⊢
    cases hnext : machine.next with
    | running following =>
      simp only [hnext] at h ⊢
      exact ih h
    | finished interpreter => simpa [hnext] using h
    | failed interpreter error => simpa [hnext] using h

namespace Interpreter

/-- Run a unit as the body of the module with a name. The module is loaded before its body runs,
so that modules may import each other, and unloaded again if its body fails. -/
def run (interpreter : Interpreter) (steps : Nat) (name : String) (unit : CodeUnit) :
    Option (Interpreter × Except RuntimeError ScriptModule) :=
  let (started, frame) := interpreter.start name unit
  (Machine.run steps ⟨started, frame, []⟩).map fun (interpreter, result) =>
    (interpreter, result.map fun _ => ⟨frame.home, name⟩)

/-- Run an image as the body of the module with a name. -/
def runImage (interpreter : Interpreter) (steps : Nat) (name : String) (image : Image) :
    Option (Interpreter × Except RuntimeError ScriptModule) :=
  match Image.decode image with
  | .ok unit => interpreter.run steps name unit
  | .error fault =>
    some (interpreter, .error ⟨s!"<frozen {name}>", 0, .badImage name fault⟩)

/-- Running an image is running the unit that it is read as. -/
theorem runImage_of_decode {image : Image} {unit : CodeUnit} (h : Image.decode image = .ok unit)
    (interpreter : Interpreter) (steps : Nat) (name : String) :
    interpreter.runImage steps name image = interpreter.run steps name unit := by
  rw [runImage, h]

/-- An image that is no unit changes nothing. -/
theorem runImage_of_fault {image : Image} {fault : Image.Fault}
    (h : Image.decode image = .error fault) (interpreter : Interpreter) (steps : Nat)
    (name : String) :
    interpreter.runImage steps name image =
      some (interpreter, .error ⟨s!"<frozen {name}>", 0, .badImage name fault⟩) := by
  rw [runImage, h]

end Interpreter

end FrozenScript
