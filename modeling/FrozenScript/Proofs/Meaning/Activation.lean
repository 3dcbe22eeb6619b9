import FrozenScript.Proofs.Meaning.Carries

/-!
# Calls and imports

A machine that carries out activations (`Activates`) carries out calls and imports, which enter a
new frame and go on with its value when it is left. A call takes one step more than the activation,
and so it may have one unit of fuel more.
-/

namespace FrozenScript

/-- A frame is about to give back a value. -/
def Frame.GivesBack (value : Value) (frame : Frame) : Prop :=
  frame.unit.code[frame.pc]? = some .giveBack ∧ ∃ rest, frame.stack = value :: rest

/-- The machine carries out all activations. -/
def Activates (fuel : Nat) (activate : Activate) : Prop :=
  ∀ unit scope, Carries fuel (scope.frame unit 0 []) (activate unit scope) Frame.GivesBack

/-- How waiting frames go on with a value. -/
def resume (interpreter : Interpreter) (value : Value) : List Frame → Outcome
  | [] => .finished interpreter
  | caller :: callers => .running ⟨interpreter, caller.push value, callers⟩

/-- A machine comes to where an activation came to that was evaluated to its end: waiting frames go
on with its value, or are left. -/
def Machine.Resumes (machine : Machine) (fuel : Nat) :
    Option (Except Fault Value × Interpreter) → Prop
  | none => machine.run fuel = none
  | some (.ok value, after) => machine.ComesTo (resume after value machine.callers)
  | some (.error fault, after) => ∃ error : RuntimeError, error.fault = fault ∧
    machine.ComesTo (.failed (machine.callers.foldl Interpreter.abandon after) error)

theorem perform_giveBack (frame : Frame) {value : Value} {rest : List Value}
    (hstack : frame.stack = value :: rest) (interpreter : Interpreter) :
    (perform frame .giveBack).run interpreter = (.ok (.giveBack value), interpreter) := by
  unfold perform Frame.pop
  dsimp only
  rw [hstack]
  rfl

theorem next_of_givesBack {frame : Frame} {value : Value} (h : frame.GivesBack value)
    (interpreter : Interpreter) (callers : List Frame) :
    Machine.next ⟨interpreter, frame, callers⟩ =
      Machine.leave ⟨interpreter, frame, callers⟩ value := by
  obtain ⟨hinstr, rest, hstack⟩ := h
  exact next_of_giveBack hinstr
    (perform_giveBack { frame with pc := frame.pc + 1 } hstack interpreter)

theorem Evaluation.run_get_bind {α : Type} (next : Interpreter → Evaluation α)
    (interpreter : Interpreter) :
    (get >>= next).run interpreter = (next interpreter).run interpreter :=
  rfl

theorem Evaluation.run_tryCatch {α : Type} (evaluation : Evaluation α)
    (handler : Fault → Evaluation α) (interpreter : Interpreter) :
    (tryCatch evaluation handler).run interpreter = match evaluation.run interpreter with
      | none => none
      | some (.ok value, after) => some (.ok value, after)
      | some (.error fault, after) => (handler fault).run after := by
  unfold ExceptT.run
  simp only [tryCatch, tryCatchThe, MonadExceptOf.tryCatch, ExceptT.tryCatch, ExceptT.mk, bind,
    StateT.bind]
  cases evaluation interpreter with
  | none => rfl
  | some ending =>
      obtain ⟨result, after⟩ := ending
      cases result <;> rfl

/-- When a call is over, there is one less in progress. -/
theorem leave_call {frame : Frame} {home : Nat} {locals : Namespace} {unit : CodeUnit} {pc : Nat}
    {stack : List Value} (h : frame.Continues ⟨unit, pc, stack, home, .call locals⟩)
    (interpreter : Interpreter) (callers : List Frame) (value : Value) :
    Machine.leave ⟨interpreter, frame, callers⟩ value =
      resume { interpreter with depth := interpreter.depth - 1 } value callers := by
  obtain ⟨_, _, _, _, activation⟩ := frame
  have hactivation := h.activation
  cases activation with
  | call locals => cases callers <;> rfl
  | body name depth => exact hactivation.elim

/-- When the body of a module is over, so are the calls that it made, and the value is the
module. -/
theorem leave_body {frame : Frame} {home depth : Nat} {name : String} {unit : CodeUnit} {pc : Nat}
    {stack : List Value} (h : frame.Continues ⟨unit, pc, stack, home, .body name depth⟩)
    (interpreter : Interpreter) (callers : List Frame) (value : Value) :
    Machine.leave ⟨interpreter, frame, callers⟩ value =
      resume { interpreter with depth } (.module ⟨home, name⟩) callers := by
  obtain ⟨_, _, _, home', activation⟩ := frame
  obtain rfl : home' = home := h.home
  have hactivation := h.activation
  cases activation with
  | call locals => exact hactivation.elim
  | body name' depth' =>
      obtain ⟨rfl, rfl⟩ := hactivation
      cases callers <;> rfl

section

variable {fuel : Nat} {scope : Scope} {unit : CodeUnit} {value : Scope → Evaluation Value}

/-- The machine carries out an activation to its end. -/
theorem activation_resumes
    (h : Carries fuel (scope.frame unit 0 []) (value scope) Frame.GivesBack)
    (interpreter : Interpreter) (callers : List Frame) :
    Machine.Resumes ⟨interpreter, scope.frame unit 0 [], callers⟩ fuel
      ((evaluateActivation value scope).run interpreter) := by
  have hanswers := h interpreter callers
  obtain ⟨home, activation⟩ := scope
  unfold evaluateActivation
  cases activation with
  | call locals =>
      dsimp only
      rw [Evaluation.run_bind]
      match (value ⟨home, .call locals⟩).run interpreter, hanswers with
      | none, hanswers => exact hanswers
      | some (.ok result, after), hanswers =>
          obtain ⟨last, hlast, hcontinues, hgives⟩ := hanswers
          have hleave := leave_call hcontinues after callers result
          exact ⟨_, hlast, (next_of_givesBack hgives after callers).trans hleave⟩
      | some (.error fault, after), hanswers => exact hanswers
  | body name depth =>
      dsimp only
      rw [Evaluation.run_tryCatch, Evaluation.run_bind]
      match (value ⟨home, .body name depth⟩).run interpreter, hanswers with
      | none, hanswers => exact hanswers
      | some (.ok result, after), hanswers =>
          obtain ⟨last, hlast, hcontinues, hgives⟩ := hanswers
          have hleave := leave_body hcontinues after callers result
          exact ⟨_, hlast, (next_of_givesBack hgives after callers).trans hleave⟩
      | some (.error fault, after), hanswers => exact hanswers

end

section

variable {fuel : Nat} {activate : Activate} {machine : Machine} {entered : Interpreter}
  {caller : Frame}

/-- A machine that enters an activation goes on behind it with its value. -/
theorem enter_answers {α : Type} {P : α → Frame → Prop} {next : Value → Evaluation α}
    {scope : Scope} {code : CodeUnit} {steps : Nat} (hactivate : Activates fuel activate)
    (hnext : machine.next = .running ⟨entered, scope.frame code 0 [], caller :: machine.callers⟩)
    (hcaller : caller.Continues machine.frame) (hle : steps ≤ fuel)
    (h : ∀ value, Carries steps (caller.push value) (next value) P) :
    machine.Answers (steps + 1) P
      ((evaluateActivation (activate code) scope >>= next).run entered) := by
  rw [Evaluation.run_bind]
  match (evaluateActivation (activate code) scope).run entered,
    activation_resumes (hactivate code scope) entered (caller :: machine.callers) with
  | none, hresumes => exact run_succ_eq_none hnext (run_eq_none_of_le hresumes hle)
  | some (.ok value, after), hresumes =>
      -- The step that enters is the one that makes up for the fuel that the activation used.
      exact (h value after machine.callers).behind hnext hresumes.leads rfl
        ⟨hcaller.unit, hcaller.home, hcaller.activation⟩
  | some (.error fault, after), hresumes =>
      obtain ⟨error, herror, hcomes⟩ := hresumes
      refine ⟨error, herror, ?_⟩
      rw [List.foldl_cons, hcaller.abandon_eq] at hcomes
      exact (Machine.Leads.single hnext).comesTo hcomes

/-- A machine that enters an activation comes to where its value is on the stack. -/
theorem entered_answers {scope : Scope} {code : CodeUnit} (hactivate : Activates fuel activate)
    (hnext : machine.next = .running ⟨entered, scope.frame code 0 [], caller :: machine.callers⟩)
    (hcaller : caller.Continues machine.frame) :
    machine.Answers (fuel + 1) (fun value last => last = caller.push value)
      ((evaluateActivation (activate code) scope).run entered) := by
  have hanswers := enter_answers hactivate hnext hcaller (Nat.le_refl fuel)
    fun value => Carries.pure (P := fun value last => last = caller.push value) rfl
  rwa [bind_pure] at hanswers

theorem run_callFunction (activate : Activate) (function : ScriptFunction) (args : List Value)
    (interpreter : Interpreter) :
    (callFunction activate function args).run interpreter =
      if function.code.params.length ≠ args.length then
        some (.error (.type (.argumentCount function.code.name function.code.params.length
          args.length)), interpreter)
      else if maxDepth ≤ interpreter.depth then some (.error .recursion, interpreter)
      else
        (evaluateActivation (activate function.code)
          ⟨function.home, .call (bindParams function.code.params args)⟩).run
            { interpreter with depth := interpreter.depth + 1 } := by
  unfold callFunction
  dsimp only
  split
  · rfl
  · rw [Evaluation.run_get_bind]
    split
    · rfl
    · rfl

theorem run_callValue_builtin (builtin : Builtin) (args : List Value) (caller : Frame)
    (interpreter : Interpreter) :
    (callValue (.builtin builtin) args caller).run interpreter =
      ((builtin.call args interpreter.sink).1.map fun value => .proceed (caller.push value),
        { interpreter with sink := (builtin.call args interpreter.sink).2 }) := by
  unfold callValue
  dsimp only
  rw [Action.run_get_bind]
  rcases builtin.call args interpreter.sink with ⟨result, sink⟩
  cases result with
  | error fault => rfl
  | ok value => rfl

theorem run_callValue_function (function : ScriptFunction) (args : List Value) (caller : Frame)
    (interpreter : Interpreter) :
    (callValue (.function function) args caller).run interpreter =
      if function.code.params.length ≠ args.length then
        (.error (.type (.argumentCount function.code.name function.code.params.length
          args.length)), interpreter)
      else if maxDepth ≤ interpreter.depth then (.error .recursion, interpreter)
      else
        (.ok (.enter (Scope.frame ⟨function.home, .call (bindParams function.code.params args)⟩
          function.code 0 []) caller), { interpreter with depth := interpreter.depth + 1 }) := by
  unfold callValue
  dsimp only
  split
  · rfl
  · rw [Action.run_get_bind]
    split
    · rfl
    · rfl

/-- An instruction that calls a value carries out the call. -/
theorem call_carries {frame : Frame} {instr : Instr} {callee : Value} {args : List Value}
    (hactivate : Activates fuel activate) (hinstr : frame.unit.code[frame.pc]? = some instr)
    (hperform : perform { frame with pc := frame.pc + 1 } instr = callValue callee args caller)
    (hcaller : caller.Continues frame) :
    Carries (fuel + 1) frame (evaluateCall activate callee args) fun value last =>
      last = caller.push value := by
  cases callee with
  | builtin builtin =>
      refine Carries.instruction hinstr fun interpreter => ?_
      refine ⟨(builtin.call args interpreter.sink).1,
        { interpreter with sink := (builtin.call args interpreter.sink).2 }, rfl, ?_, ?_⟩
      · rw [hperform, run_callValue_builtin]
      · exact fun value _ => ⟨hcaller.unit, hcaller.home, hcaller.activation⟩
  | function function =>
      intro interpreter callers
      have hrun := run_callValue_function function args caller interpreter
      rw [← hperform] at hrun
      unfold evaluateCall
      dsimp only
      rw [run_callFunction]
      split
      next hparams =>
        rw [if_pos hparams] at hrun
        exact ⟨_, rfl, _, .refl _, next_of_fault hinstr hrun⟩
      next hparams =>
        rw [if_neg hparams] at hrun
        split
        next hdepth =>
          rw [if_pos hdepth] at hrun
          exact ⟨_, rfl, _, .refl _, next_of_fault hinstr hrun⟩
        next hdepth =>
          rw [if_neg hdepth] at hrun
          exact entered_answers hactivate (next_of_enter hinstr hrun) hcaller
  | none | bool _ | int _ | text _ | module _ =>
      refine Carries.fault hinstr fun interpreter => ?_
      rw [hperform]
      rfl

/-- An instruction that imports a module carries out the import. -/
theorem import_carries {frame : Frame} {instr : Instr} {name : String}
    (hactivate : Activates fuel activate) (hinstr : frame.unit.code[frame.pc]? = some instr)
    (hperform : perform { frame with pc := frame.pc + 1 } instr = importModule name caller)
    (hcaller : caller.Continues frame) :
    Carries (fuel + 1) frame (evaluateImport activate name) fun value last =>
      last = caller.push value := by
  intro interpreter callers
  have hrun := congrArg (fun action : Action Flow => action.run interpreter) hperform
  unfold importModule at hrun
  unfold evaluateImport
  dsimp only at hrun
  rw [Action.run_get_bind] at hrun
  rw [Evaluation.run_get_bind]
  cases hloaded : interpreter.loaded.get? name with
  | some module =>
      rw [hloaded] at hrun
      have hnext : Machine.next ⟨interpreter, frame, callers⟩ = _ := next_of_proceed hinstr hrun
      exact ⟨_, .single hnext, ⟨hcaller.unit, hcaller.home, hcaller.activation⟩, rfl⟩
  | none =>
      rw [hloaded] at hrun
      cases hfrozen : interpreter.frozen.get? name with
      | none =>
          rw [hfrozen] at hrun
          exact ⟨_, rfl, _, .refl _, next_of_fault hinstr hrun⟩
      | some image =>
          rw [hfrozen] at hrun
          dsimp only at hrun ⊢
          cases hdecode : Image.decode image with
          | error fault =>
              rw [hdecode] at hrun
              exact ⟨_, rfl, _, .refl _, next_of_fault hinstr hrun⟩
          | ok unit =>
              rw [hdecode] at hrun
              have hnext : Machine.next ⟨interpreter, frame, callers⟩ = .running
                  ⟨(interpreter.start name unit).1,
                    Scope.frame ⟨interpreter.globals.size, .body name interpreter.depth⟩ unit 0 [],
                    caller :: callers⟩ := next_of_enter hinstr hrun
              have hanswers := entered_answers hactivate hnext hcaller
              exact hanswers

end

end FrozenScript
