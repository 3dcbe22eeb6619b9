import FrozenScript.Proofs.Machine.Sound

/-!
# Generated code is never malformed

The main statement, `generated_code_sound`, has two parts. Every unit of every program is well
formed, at every optimization level and whether the scoping rules accept the program or not. And an
interpreter that only ever was given such units and images of them does not blame the code when a
run fails.
-/

namespace FrozenScript

mutual
theorem Constant.mem_units_trans (const : Constant) {unit inner : CodeUnit}
    (hunit : unit ∈ const.units) (hinner : inner ∈ unit.units) : inner ∈ const.units := by
  cases const with
  | code root => exact root.mem_units_trans hunit hinner
  | _ => exact nomatch hunit

/-- The units inside a unit are closed under going inside. -/
theorem CodeUnit.mem_units_trans (root : CodeUnit) {unit inner : CodeUnit}
    (hunit : unit ∈ root.units) (hinner : inner ∈ unit.units) : inner ∈ root.units := by
  obtain ⟨name, file, params, consts, names, code, lines⟩ := root
  rcases List.mem_cons.mp hunit with rfl | hconsts
  · exact hinner
  · exact List.mem_cons_of_mem _ (mem_unitsOfConstants_trans consts hconsts hinner)

theorem mem_unitsOfConstants_trans (consts : List Constant) {unit inner : CodeUnit}
    (hunit : unit ∈ unitsOfConstants consts) (hinner : inner ∈ unit.units) :
    inner ∈ unitsOfConstants consts := by
  cases consts with
  | nil => exact nomatch hunit
  | cons const rest =>
      rcases List.mem_append.mp hunit with hconst | hrest
      · exact List.mem_append_left _ (const.mem_units_trans hconst hinner)
      · exact List.mem_append_right _ (mem_unitsOfConstants_trans rest hrest hinner)
end

/-- A unit of a program, all units of which are small enough for the operands of instructions. -/
def CodeUnit.Generated (unit : CodeUnit) : Prop :=
  ∃ file optimize program, unit ∈ (generate file optimize program).units ∧
    ∀ inner ∈ (generate file optimize program).units, inner.Small

/-- An image of a unit. The lengths inside the unit can be written, as those of all units that fit
into the memory of a computer. -/
def CodeUnit.HasImage (unit : CodeUnit) (image : Image) : Prop :=
  unit.Fits ∧ Image.encode Image.formatVersion unit = .ok image

/-- An interpreter that only ever was given units of programs and images of them, after any runs
that ended. -/
inductive Interpreter.Reached : Interpreter → Prop where
  | new (sink : Sink) : Reached { sink }
  | withFrozen {interpreter : Interpreter} {frozen : Table String Image} (h : Reached interpreter)
      (hfrozen : ∀ name image, frozen.get? name = some image →
        ∃ unit : CodeUnit, unit.Generated ∧ unit.HasImage image) :
      Reached { interpreter with frozen }
  | run {interpreter after : Interpreter} {steps : Nat} {name : String} {unit : CodeUnit}
      {result : Except RuntimeError ScriptModule} (h : Reached interpreter) (hunit : unit.Generated)
      (hrun : interpreter.run steps name unit = some (after, result)) : Reached after
  | runImage {interpreter after : Interpreter} {steps : Nat} {name : String} {unit : CodeUnit}
      {image : Image} {result : Except RuntimeError ScriptModule} (h : Reached interpreter)
      (hunit : unit.Generated) (himage : unit.HasImage image)
      (hrun : interpreter.runImage steps name image = some (after, result)) : Reached after

theorem CodeUnit.Generated.sound {unit : CodeUnit} (h : unit.Generated) : unit.Sound := by
  obtain ⟨file, optimize, program, hunit, hsmall⟩ := h
  intro inner hinner
  have hmem := CodeUnit.mem_units_trans _ hunit hinner
  have hinner := hsmall inner hmem
  rw [units_generate] at hmem
  obtain ⟨⟨_, body⟩, hbody, rfl⟩ := List.mem_map.mp hmem
  obtain ⟨height, hheight, -⟩ := (wellFormed_of_mem_programBodies hbody hinner).flows
  exact ⟨height, hheight⟩

/-- An image of a unit is read as that unit. -/
theorem CodeUnit.HasImage.decode {unit : CodeUnit} {image : Image} (h : unit.HasImage image) :
    Image.decode image = .ok unit := by
  obtain ⟨hfits, himage⟩ := h
  rw [Image.encode_formatVersion] at himage
  obtain rfl := Except.ok.inj himage
  exact Image.decode_eq_ok_iff.mpr ⟨hfits, List.prefix_refl _⟩

section

variable {interpreter after : Interpreter} {steps : Nat} {name : String} {unit : CodeUnit}
  {result : Except RuntimeError ScriptModule}

theorem interpreter_run_sound (h : interpreter.Sound) (hunit : unit.Sound)
    (hrun : interpreter.run steps name unit = some (after, result)) :
    after.Sound ∧ ∀ error, result = .error error → error.fault.Proper := by
  unfold Interpreter.run at hrun
  obtain ⟨⟨ending, outcome⟩, hmachine, heq⟩ := Option.map_eq_some_iff.mp hrun
  obtain ⟨rfl, rfl⟩ := Prod.mk.inj heq
  have hframe : Frame.Sound (interpreter.start name unit).2 := ⟨hunit, nofun, sound_nil⟩
  have hcallers : ∀ caller ∈ ([] : List Frame), caller.Ready 1 := nofun
  obtain ⟨hafter, hproper⟩ :=
    run_sound ⟨h.start name unit, hframe.ready rfl rfl, hcallers⟩ hmachine
  refine ⟨hafter, fun error herror => ?_⟩
  cases outcome with
  | ok _ => exact nomatch herror
  | error cause => exact hproper error (congrArg _ (Except.error.inj herror))

theorem interpreter_runImage_sound {image : Image} (h : interpreter.Sound) (hunit : unit.Sound)
    (himage : unit.HasImage image)
    (hrun : interpreter.runImage steps name image = some (after, result)) :
    after.Sound ∧ ∀ error, result = .error error → error.fault.Proper := by
  unfold Interpreter.runImage at hrun
  rw [himage.decode] at hrun
  exact interpreter_run_sound h hunit hrun

end

theorem Interpreter.Reached.sound {interpreter : Interpreter} (h : interpreter.Reached) :
    interpreter.Sound := by
  induction h with
  | new sink => exact ⟨fun _ _ _ himage => (nomatch himage), fun _ => sound_nil⟩
  | withFrozen _ hfrozen ih =>
      refine ⟨fun name image unit himage hunit => ?_, ih.globals⟩
      obtain ⟨original, hgenerated, horiginal⟩ := hfrozen name image himage
      obtain rfl := Except.ok.inj (hunit.symm.trans horiginal.decode)
      exact hgenerated.sound
  | run _ hunit hrun ih => exact (interpreter_run_sound ih hunit.sound hrun).1
  | runImage _ hunit himage hrun ih =>
      exact (interpreter_runImage_sound ih hunit.sound himage hrun).1

/-- The units of a program are those of its bodies, and each of them is well formed: every
instruction has a line and refers to what is there, and the height of the stack before every
instruction is fixed, zero at the boundaries of statements, and enough for what is popped. Runs of
such units do not fail because the code is malformed, whatever runs an interpreter ended before and
whatever images of such units scripts may import. -/
theorem generated_code_sound :
    (∀ (file : String) (optimize : UInt8) (program : Block),
      (generate file optimize program).units =
          (programBodies file optimize program).map Prod.fst ∧
        ∀ (unit : CodeUnit) (body : Block), (unit, body) ∈ programBodies file optimize program →
          unit.Small → unit.WellFormed (blockBoundaries (optimize == 0) false body 0)) ∧
    ∀ (interpreter after : Interpreter) (unit : CodeUnit) (steps : Nat) (name : String)
      (error : RuntimeError) (defect : CodeFault), interpreter.Reached → unit.Generated →
        (interpreter.run steps name unit = some (after, .error error) →
          error.fault ≠ .badCode defect) ∧
        ∀ image, unit.HasImage image →
          interpreter.runImage steps name image = some (after, .error error) →
            error.fault ≠ .badCode defect := by
  refine ⟨fun file optimize program => ⟨units_generate file optimize program, ?_⟩, ?_⟩
  · intro unit body hbody hsmall
    exact wellFormed_of_mem_programBodies hbody hsmall
  · intro interpreter after unit steps name error defect hreached hunit
    refine ⟨fun hrun => ?_, fun image himage hrun => ?_⟩
    · exact (interpreter_run_sound hreached.sound hunit.sound hrun).2 error rfl defect
    · exact (interpreter_runImage_sound hreached.sound hunit.sound himage hrun).2 error rfl defect

/-- The code of `while x: break` is well formed, and a run that finds no `x` does not blame it. -/
theorem generated_code_sound_while :
    let program : Block :=
      [.loop ⟨⟨0, 14⟩, 1⟩ (.name ⟨6, 1⟩ "x") [.breakLoop ⟨⟨9, 5⟩, 1⟩]]
    let unit := generate "m" 0 program
    unit.WellFormed [0, 2, 3, 4] ∧ ∃ after error,
      Interpreter.run {} 1 "m" unit = some (after, .error error) ∧
        error.fault ≠ .badCode .underflow := by
  intro program unit
  have hsmall : unit.Small := ⟨by decide +kernel, by decide +kernel, by decide +kernel⟩
  have hunits : unit.units = [unit] := units_generate "m" 0 program
  have hgenerated : unit.Generated := by
    refine ⟨"m", 0, program, ?_, fun inner hinner => ?_⟩
    · exact hunits ▸ List.mem_cons_self
    · obtain rfl := List.mem_singleton.mp (hunits ▸ hinner)
      exact hsmall
  have hfails : (Interpreter.run {} 1 "m" unit).map (fun ending => ending.2.isOk) =
      some false := by
    decide +kernel
  obtain ⟨⟨after, result⟩, hrun, hresult⟩ := Option.map_eq_some_iff.mp hfails
  cases result with
  | ok module => exact nomatch hresult
  | error error =>
      refine ⟨(generated_code_sound.1 "m" 0 program).2 _ _ List.mem_cons_self hsmall,
        after, error, hrun, ?_⟩
      exact (generated_code_sound.2 _ _ _ 1 "m" _ _ (.new {}) hgenerated).1 hrun

end FrozenScript
