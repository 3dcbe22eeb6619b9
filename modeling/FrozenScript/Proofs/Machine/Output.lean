import FrozenScript.Proofs.Machine.Surroundings
import FrozenScript.Proofs.Machine.ModuleCache

/-!
# A sink without room cuts the output

A run that ends with a sink without a limit prints some bytes. With any other sink the same run
prints as many of them as there is room for (`output_cut_at_room`): if there is room for all of them
it ends as before, and otherwise it fails because of the sink, in whatever functions and bodies of
modules it is, and prints nothing more.
-/

namespace FrozenScript

/-- Some steps of a machine print some bytes and come to an ending if the sink has room for the
bytes. If it does not, it takes what there is room for and the machine fails. -/
structure Machine.Prints (machine : Machine) (frozen : Table String Image) (steps : Nat)
    (output : ByteArray) (after : Interpreter) (result : Except RuntimeError Unit)
    (sink : Sink) : Prop where
  whole (hfits : sink.fits output.size = true) :
    (machine.amid sink frozen).run steps = some (after.amid (sink.write output) frozen, result)
  cut (hfits : sink.fits output.size = false) :
    ∃ (stopped : Interpreter) (error : RuntimeError), error.fault = .output ∧
      (machine.amid sink frozen).run steps =
        some (stopped.amid (sink.write output) frozen, .error error)

section

variable {machine following : Machine} {frozen : Table String Image} {steps : Nat}
  {output : ByteArray} {after : Interpreter} {result : Except RuntimeError Unit} {sink : Sink}

/-- A step that prints nothing. -/
theorem Machine.Prints.step (h : following.Prints frozen steps output after result sink)
    (hnext : (machine.amid sink frozen).next = .running (following.amid sink frozen)) :
    machine.Prints frozen (steps + 1) output after result sink := by
  have hrun : (machine.amid sink frozen).run (steps + 1) =
      (following.amid sink frozen).run steps := by
    rw [Machine.run, hnext]
  exact ⟨fun hfits => hrun.trans (h.whole hfits), fun hfits => hrun ▸ h.cut hfits⟩

/-- A run that ends with a step that prints nothing. -/
theorem prints_nothing (hrun : (machine.amid sink frozen).run steps =
    some (after.amid sink frozen, result)) :
    machine.Prints frozen steps .empty after result sink := by
  refine ⟨fun _ => ?_, fun hfits => ?_⟩
  · rw [Sink.write_empty]
    exact hrun
  · exact absurd (hfits.symm.trans sink.fits_zero) Bool.false_ne_true

/-- A step that prints a line. -/
theorem Machine.Prints.line {line : ByteArray} {stopped : Interpreter} {error : RuntimeError}
    (h : following.Prints frozen steps output after result (sink.write line))
    (herror : error.fault = .output)
    (hnext : (machine.amid sink frozen).next =
      if sink.fits line.size then .running (following.amid (sink.write line) frozen)
      else .failed (stopped.amid (sink.write line) frozen) error) :
    machine.Prints frozen (steps + 1) (line ++ output) after result sink := by
  have hwrite := sink.write_append line output
  have hfits := sink.fits_add line output.size
  rw [← ByteArray.size_append] at hfits
  cases hline : sink.fits line.size with
  | true =>
      rw [hline, if_pos rfl] at hnext
      rw [hline, Bool.true_and] at hfits
      have hrun : (machine.amid sink frozen).run (steps + 1) =
          (following.amid (sink.write line) frozen).run steps := by
        rw [Machine.run, hnext]
      refine ⟨fun hall => ?_, fun hall => ?_⟩
      · rw [hrun, hwrite]
        exact h.whole (hfits.symm.trans hall)
      · rw [hrun, hwrite]
        exact h.cut (hfits.symm.trans hall)
  | false =>
      rw [hline, if_neg Bool.false_ne_true] at hnext
      rw [hline, Bool.false_and] at hfits
      refine ⟨fun hall => ?_, fun _ => ⟨stopped, error, herror, ?_⟩⟩
      · exact absurd (hfits.symm.trans hall) Bool.false_ne_true
      · rw [hwrite, Sink.write_write_of_not_fits hline, Machine.run, hnext]

/-- A run that ends if there is always room prints some bytes. -/
theorem exists_output (hroom : sink.room = none)
    (hrun : (machine.amid sink frozen).run steps = some (after, result)) :
    ∃ output, ∀ other, machine.Prints frozen steps output after result other := by
  induction steps generalizing machine sink with
  | zero => exact nomatch hrun
  | succ steps ih =>
  -- A step that asks for an image gets the same one with every sink.
  have hstep : (∃ outcome : Outcome, ∀ other,
      (machine.amid other frozen).next = outcome.amid other frozen) ∨
      ∃ (line : ByteArray) (following : Machine) (stopped : Interpreter) (error : RuntimeError),
        error.fault = .output ∧ ∀ other, (machine.amid other frozen).next =
          if other.fits line.size then .running (following.amid (other.write line) frozen)
          else .failed (stopped.amid (other.write line) frozen) error := by
    cases next_asks machine with
    | nothing h => exact .inl ⟨_, fun other => h other frozen⟩
    | image name answer stopped error herror hnone h => exact .inl ⟨_, fun other => h other frozen⟩
    | room line following stopped error herror h =>
        exact .inr ⟨line, following, stopped, error, herror, fun other => h other frozen⟩
  rw [Machine.run] at hrun
  obtain ⟨outcome, hnext⟩ | ⟨line, following, stopped, error, herror, hnext⟩ := hstep
  · rw [hnext] at hrun
    cases outcome with
    | running following =>
        obtain ⟨output, hprints⟩ := ih hroom hrun
        exact ⟨output, fun other => (hprints other).step (hnext other)⟩
    | finished ended =>
        obtain ⟨rfl, rfl⟩ := Prod.mk.inj (Option.some.inj hrun)
        refine ⟨.empty, fun other => prints_nothing ?_⟩
        rw [Machine.run, hnext]
        rfl
    | failed ended error =>
        obtain ⟨rfl, rfl⟩ := Prod.mk.inj (Option.some.inj hrun)
        refine ⟨.empty, fun other => prints_nothing ?_⟩
        rw [Machine.run, hnext]
        rfl
  · rw [hnext, if_pos (Sink.fits_of_room_eq_none hroom _)] at hrun
    have hroom' : (sink.write line).room = none := by
      unfold Sink.write
      rw [hroom]
      rfl
    obtain ⟨output, hprints⟩ := ih hroom' hrun
    exact ⟨line ++ output, fun other => (hprints (other.write line)).line herror (hnext other)⟩

end

/-- If a run with a sink without a limit ends, it prints some bytes. Into a sink with any budget the
same run writes the first bytes of them, as many as the budget allows. If it allows all of them, the
run ends in the same way, and otherwise it fails because of the sink. -/
theorem output_cut_at_room {interpreter after : Interpreter} {steps : Nat} {name : String}
    {unit : CodeUnit} {result : Except RuntimeError ScriptModule}
    (hroom : interpreter.sink.room = none)
    (hrun : interpreter.run steps name unit = some (after, result)) :
    ∃ output : ByteArray, after.sink.written = interpreter.sink.written ++ output ∧
      ∀ (former : ByteArray) (budget : Nat), ∃ ended ending,
        { interpreter with sink := ⟨former, some budget⟩ }.run steps name unit =
          some (ended, ending) ∧
        ended.sink.written = former ++ output.extract 0 (min budget output.size) ∧
        (output.size ≤ budget → ending = result ∧ ended = { after with sink := ended.sink }) ∧
        (budget < output.size → ∃ error, ending = .error error ∧ error.fault = .output) := by
  rw [run_eq_map] at hrun
  obtain ⟨⟨last, outcome⟩, hmachine, heq⟩ := Option.map_eq_some_iff.mp hrun
  obtain ⟨rfl, rfl⟩ := Prod.mk.inj heq
  have hown : ((interpreter.machine name unit).amid interpreter.sink interpreter.frozen).run
      steps = some (last, outcome) := hmachine
  obtain ⟨output, hprints⟩ := exists_output hroom hown
  have hwhole := (hprints interpreter.sink).whole (Sink.fits_of_room_eq_none hroom _)
  have hlast := (Prod.mk.inj (Option.some.inj (hown.symm.trans hwhole))).1
  have hwritten : last.sink.written = interpreter.sink.written ++ output := by
    rw [hlast]
    exact Sink.written_write_of_fits (Sink.fits_of_room_eq_none hroom _)
  refine ⟨output, hwritten, fun former budget => ?_⟩
  have hlimited := hprints ⟨former, some budget⟩
  have hrun' (ended : Interpreter) (ending : Except RuntimeError Unit)
      (h : ((interpreter.machine name unit).amid ⟨former, some budget⟩ interpreter.frozen).run
        steps = some (ended, ending)) :
      { interpreter with sink := ⟨former, some budget⟩ }.run steps name unit =
        some (ended, ending.map fun _ => ⟨interpreter.globals.size, name⟩) :=
    congrArg (Option.map _) h
  have hbytes : (Sink.write ⟨former, some budget⟩ output).written =
      former ++ output.extract 0 (min budget output.size) := by
    rw [Sink.written_write, Nat.min_comm]
    rfl
  by_cases hbudget : output.size ≤ budget
  · have hfits : Sink.fits ⟨former, some budget⟩ output.size = true :=
      beq_iff_eq.mpr (Nat.min_eq_left hbudget)
    refine ⟨_, _, hrun' _ _ (hlimited.whole hfits), hbytes, fun _ => ⟨rfl, ?_⟩, ?_⟩
    · have hfrozen : last.frozen = interpreter.frozen := by
        rw [hlast]
        rfl
      rw [← hfrozen]
      rfl
    · exact fun hless => absurd hbudget (Nat.not_le.mpr hless)
  · have hfits : Sink.fits ⟨former, some budget⟩ output.size = false :=
      beq_eq_false_iff_ne.mpr fun heq => hbudget (heq ▸ Nat.min_le_right _ _)
    obtain ⟨stopped, error, herror, hstopped⟩ := hlimited.cut hfits
    exact ⟨_, _, hrun' _ _ hstopped, hbytes, fun hle => absurd hle hbudget,
      fun _ => ⟨error, rfl, herror⟩⟩

/-- A function prints two lines of three bytes each. Into four bytes it prints the first line and
the first byte of the second one, and the script fails. -/
theorem output_cut_at_room_second_line :
    let function : CodeUnit :=
      ⟨"f", "main", [], [.text "ab", .text "cd"], #["print"],
        #[.loadName 0, .loadConst 0, .call 1, .pop, .loadName 0, .loadConst 1, .call 1, .giveBack],
        #[1, 1, 1, 1, 2, 2, 2, 2]⟩
    let main : CodeUnit :=
      ⟨"<module>", "main", [], [.code function], #[], #[.makeFunction 0, .call 0, .giveBack],
        #[1, 3, 3]⟩
    (∃ after module, ({} : Interpreter).run 11 "main" main = some (after, .ok module) ∧
      after.sink.written = "ab\ncd\n".toUTF8) ∧
    ∃ ended error, { sink := ⟨.empty, some 4⟩ : Interpreter }.run 11 "main" main =
      some (ended, .error error) ∧ error.fault = .output ∧ ended.sink.written = "ab\nc".toUTF8 := by
  intro function main
  have hruns : (({} : Interpreter).run 11 "main" main).map
      (fun ending => (ending.2.toOption, ending.1.sink.written)) =
        some (some ⟨0, "main"⟩, "ab\ncd\n".toUTF8) := by
    decide +kernel
  obtain ⟨⟨after, result⟩, hrun, hending⟩ := Option.map_eq_some_iff.mp hruns
  obtain ⟨hmodule, hwritten⟩ := Prod.mk.inj hending
  cases result with
  | error error => exact nomatch hmodule
  | ok module =>
  refine ⟨⟨after, module, hrun, hwritten⟩, ?_⟩
  obtain ⟨output, houtput, hcut⟩ := output_cut_at_room rfl hrun
  obtain rfl : output = "ab\ncd\n".toUTF8 := by
    rw [← hwritten, houtput, ByteArray.empty_append]
  obtain ⟨ended, ending, hlimited, hbytes, -, hfails⟩ := hcut .empty 4
  obtain ⟨error, rfl, herror⟩ := hfails (by decide)
  exact ⟨ended, error, hlimited, herror, hbytes.trans (by decide)⟩

end FrozenScript
