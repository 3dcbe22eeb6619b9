import FrozenScript.Proofs.Machine.ModuleCache
import Mathlib.Logic.Relation

/-!
# Sessions

A session follows one interpreter through everything that is done with it: calls one after the
other, each of them step by step, and changes of the images in between. `Session.Later` relates two
moments of it, which may be in the middle of calls; a call that comes to its end is such a way from
one moment between calls to another (`later_of_run`, `later_of_runImage`).
-/

namespace FrozenScript

/-- What an interpreter is doing: nothing, or it runs a call. -/
inductive Session where
  | idle (interpreter : Interpreter)
  | busy (machine : Machine)

namespace Session

/-- What is going on after a step of a machine. -/
def ofOutcome : Outcome → Session
  | .running machine => .busy machine
  | .finished interpreter | .failed interpreter _ => .idle interpreter

/-- The interpreter. -/
def interpreter : Session → Interpreter
  | .idle interpreter => interpreter
  | .busy machine => machine.interpreter

/-- The modules whose bodies are in progress, innermost first. -/
def bodies : Session → List ScriptModule
  | .idle _ => []
  | .busy machine => machine.bodies

/-- What happens next: between calls the images are replaced or a call begins, and otherwise the
machine of the call takes a step. The call of an image is the call of the unit that it is read
as. -/
inductive Step : Session → Session → Prop where
  | withFrozen (interpreter : Interpreter) (frozen : Table String Image) :
      Step (.idle interpreter) (.idle { interpreter with frozen })
  | run (interpreter : Interpreter) (name : String) (unit : CodeUnit) :
      Step (.idle interpreter) (.busy (interpreter.machine name unit))
  | next (machine : Machine) : Step (.busy machine) (.ofOutcome machine.next)

/-- One moment of a session comes after another one, or is the same. -/
abbrev Later : Session → Session → Prop :=
  Relation.ReflTransGen Step

theorem later_of_leads {machine last : Machine} (h : machine.Leads last) :
    Later (.busy machine) (.busy last) := by
  induction h with
  | refl => exact .refl
  | @step machine following _ hnext _ ih =>
      have hstep := Step.next machine
      rw [hnext] at hstep
      exact ih.head hstep

/-- A machine that ends comes to a moment between calls. -/
theorem later_of_machine_run {machine : Machine} {steps : Nat} {after : Interpreter}
    {result : Except RuntimeError Unit} (hrun : machine.run steps = some (after, result)) :
    Later (.busy machine) (.idle after) := by
  induction steps generalizing machine with
  | zero => exact nomatch hrun
  | succ steps ih =>
      have hstep := Step.next machine
      rw [Machine.run] at hrun
      split at hrun
      next following hnext =>
        rw [hnext] at hstep
        exact (ih hrun).head hstep
      next finished hnext =>
        obtain ⟨rfl, -⟩ := Prod.mk.inj (Option.some.inj hrun)
        rw [hnext] at hstep
        exact .single hstep
      next failed error hnext =>
        obtain ⟨rfl, -⟩ := Prod.mk.inj (Option.some.inj hrun)
        rw [hnext] at hstep
        exact .single hstep

section

variable {interpreter after : Interpreter} {steps : Nat} {name : String} {image : Image}
  {result : Except RuntimeError ScriptModule}

theorem later_of_run {unit : CodeUnit}
    (hrun : interpreter.run steps name unit = some (after, result)) :
    Later (.idle interpreter) (.idle after) := by
  rw [run_eq_map] at hrun
  obtain ⟨⟨ended, ending⟩, hmachine, heq⟩ := Option.map_eq_some_iff.mp hrun
  obtain ⟨rfl, -⟩ := Prod.mk.inj heq
  exact (later_of_machine_run hmachine).head (.run interpreter name unit)

theorem later_of_runImage
    (hrun : interpreter.runImage steps name image = some (after, result)) :
    Later (.idle interpreter) (.idle after) := by
  cases hdecode : Image.decode image with
  | ok unit =>
      rw [interpreter.runImage_of_decode hdecode] at hrun
      exact later_of_run hrun
  | error fault =>
      rw [Interpreter.runImage_of_fault hdecode] at hrun
      obtain ⟨rfl, -⟩ := Prod.mk.inj (Option.some.inj hrun)
      exact .refl

end

end Session

end FrozenScript
