import FrozenScript.Proofs.Meaning.Instruction

/-!
# What an instruction does to the interpreter

Whatever code it is part of, an instruction does one of four things to the interpreter
(`perform_effect`): it stores a variable of a module, in the body of that module; it enters a
function; it starts the body of a module; or it leaves the modules, their variables and the calls in
progress as they are.
-/

namespace FrozenScript

/-- An import starts the body of a module that is not loaded and whose image is read as a unit. -/
structure Interpreter.Starts (interpreter : Interpreter) (name : String) (unit : CodeUnit) :
    Prop where
  unloaded : interpreter.loaded.get? name = none
  image : ∃ image, interpreter.frozen.get? name = some image ∧ Image.decode image = .ok unit

/-- An interpreter differs from another one at most in what was printed and in how many functions
were made. -/
structure Interpreter.SameState (after before : Interpreter) : Prop where
  loaded : after.loaded = before.loaded
  frozen : after.frozen = before.frozen
  globals : after.globals = before.globals
  depth : after.depth = before.depth

theorem Interpreter.SameState.refl (interpreter : Interpreter) :
    interpreter.SameState interpreter :=
  ⟨rfl, rfl, rfl, rfl⟩

/-- What an instruction of a frame may do to an interpreter, with the result that it has then. -/
inductive Interpreter.Effect (before : Interpreter) (frame : Frame) (instr : Instr) :
    Except Fault Flow → Interpreter → Prop where
  /-- The instruction enters no frame. -/
  | none {result : Except Fault Flow} {after : Interpreter} (hsame : after.SameState before)
      (henters : ∀ callee caller, result ≠ .ok (.enter callee caller)) :
      Effect before frame instr result after
  /-- The body of a module stores a variable of the module. -/
  | store {index : UInt32} {module name : String} {depth : Nat} {value : Value} {following : Frame}
      (hinstr : instr = .storeName index) (hbody : frame.activation = .body module depth) :
      Effect before frame instr (.ok (.proceed following)) (before.setGlobal frame.home name value)
  /-- A function is entered. -/
  | call {argCount : UInt32} {callee caller : Frame} {locals : Namespace}
      (hinstr : instr = .call argCount) (hdepth : before.depth < maxDepth)
      (hcallee : callee.activation = .call locals) :
      Effect before frame instr (.ok (.enter callee caller))
        { before with depth := before.depth + 1 }
  /-- The body of a module is started. -/
  | start {index : UInt32} {name : String} {unit : CodeUnit} (hinstr : instr = .importName index)
      (hstarts : before.Starts name unit) :
      Effect before frame instr (.ok (.enter (before.start name unit).2 frame))
        (before.start name unit).1

/-! ## Actions -/

/-- From an interpreter an action ends with a result and an interpreter that are related. -/
def Action.Ends {α : Type} (action : Action α) (before : Interpreter)
    (good : Except Fault α → Interpreter → Prop) : Prop :=
  good (action.run before).1 (action.run before).2

namespace Action.Ends

variable {α β : Type} {before after : Interpreter} {good : Except Fault β → Interpreter → Prop}

theorem lift {result : Except Fault α} {next : α → Action β}
    (herror : ∀ fault, result = .error fault → good (.error fault) before)
    (hok : ∀ value, result = .ok value → Action.Ends (next value) before good) :
    Action.Ends (liftM result >>= next) before good := by
  cases result with
  | error fault => exact herror fault rfl
  | ok value => exact hok value rfl

theorem get {next : Interpreter → Action β} (h : Action.Ends (next before) before good) :
    Action.Ends (MonadState.get >>= next) before good :=
  h

theorem set {next : Action β} (h : Action.Ends next after good) :
    Action.Ends (MonadStateOf.set after >>= fun _ => next) before good :=
  h

end Action.Ends

section

variable {before after : Interpreter} {frame : Frame} {instr : Instr} {fault : Fault}

theorem effect_error (hsame : after.SameState before) :
    before.Effect frame instr (.error fault) after :=
  .none hsame nofun

theorem effect_proceed (following : Frame) (hsame : after.SameState before) :
    before.Effect frame instr (.ok (.proceed following)) after :=
  .none hsame nofun

/-- An instruction that only computes has no effect. -/
theorem lift_effect {α : Type} {result : Except Fault α} {next : α → Action Flow}
    (hok : ∀ value, result = .ok value →
      Action.Ends (next value) before (before.Effect frame instr)) :
    Action.Ends (liftM result >>= next) before (before.Effect frame instr) :=
  .lift (fun _ _ => effect_error (.refl before)) hok

theorem pure_effect (following : Frame) :
    Action.Ends (pure (.proceed following)) before (before.Effect frame instr) :=
  effect_proceed following (.refl before)

theorem store_effect {index : UInt32} {popped : Frame} {name : String} {value : Value}
    (hinstr : instr = .storeName index) (hhome : popped.home = frame.home)
    (hactivation : popped.activation = frame.activation) :
    Action.Ends (store popped name value >>= fun stored => pure (.proceed stored)) before
      (before.Effect frame instr) := by
  unfold store
  cases hpopped : popped.activation with
  | call locals => exact pure_effect _
  | body module depth =>
      have hstores : before.Effect frame instr (.ok (.proceed popped))
          (before.setGlobal frame.home name value) :=
        .store hinstr (hactivation ▸ hpopped)
      rw [← hhome] at hstores
      exact hstores

theorem callValue_effect {argCount : UInt32} {callee : Value} {args : List Value} {caller : Frame}
    (hinstr : instr = .call argCount) :
    Action.Ends (callValue callee args caller) before (before.Effect frame instr) := by
  unfold callValue
  split
  next builtin =>
    refine .get (.set (.lift (fun _ _ => ?_) fun value _ => ?_))
    · exact effect_error ⟨rfl, rfl, rfl, rfl⟩
    · exact effect_proceed _ ⟨rfl, rfl, rfl, rfl⟩
  next function =>
    dsimp only
    split
    next => exact effect_error (.refl before)
    refine .get ?_
    split
    next => exact effect_error (.refl before)
    next hdepth => exact .set (.call hinstr (Nat.lt_of_not_le hdepth) rfl)
  next => exact effect_error (.refl before)

theorem importModule_effect {index : UInt32} (name : String) (hinstr : instr = .importName index) :
    Action.Ends (importModule name frame) before (before.Effect frame instr) := by
  unfold importModule
  refine .get ?_
  cases hloaded : before.loaded.get? name with
  | some module => exact pure_effect _
  | none =>
  cases hfrozen : before.frozen.get? name with
  | none => exact effect_error (.refl before)
  | some image =>
  refine lift_effect fun unit hunit => .set (.start hinstr ⟨hloaded, image, hfrozen, ?_⟩)
  cases hdecode : Image.decode image with
  | error fault =>
      rw [hdecode] at hunit
      exact nomatch hunit
  | ok decoded =>
      rw [hdecode] at hunit
      exact congrArg Except.ok (Except.ok.inj hunit)

/-- An instruction does nothing else to the interpreter. -/
theorem perform_effect (frame : Frame) (instr : Instr) (before : Interpreter) :
    before.Effect frame instr ((perform frame instr).run before).1
      ((perform frame instr).run before).2 := by
  suffices h : Action.Ends (perform frame instr) before (before.Effect frame instr) from h
  cases instr with
  | loadConst index => exact lift_effect fun value _ => pure_effect _
  | loadName index =>
      exact lift_effect fun name _ => .get (lift_effect fun value _ => pure_effect _)
  | storeName index =>
      refine lift_effect fun name _ => lift_effect fun ⟨value, popped⟩ hpop => ?_
      obtain ⟨rest, -, rfl⟩ := pop_eq hpop
      exact store_effect rfl rfl rfl
  | loadMember index =>
      exact lift_effect fun name _ => lift_effect fun ⟨object, popped⟩ _ =>
        .get (lift_effect fun value _ => pure_effect _)
  | importName index => exact lift_effect fun name _ => importModule_effect name rfl
  | binaryOp op | compare op =>
      exact lift_effect fun ⟨left, right, popped⟩ _ => lift_effect fun value _ => pure_effect _
  | unaryOp op =>
      exact lift_effect fun ⟨operand, popped⟩ _ => lift_effect fun value _ => pure_effect _
  | jump target => exact pure_effect _
  | popJumpIfFalse target | popJumpIfTrue target | jumpIfFalseOrPop target
  | jumpIfTrueOrPop target => exact lift_effect fun following _ => pure_effect _
  | call argCount =>
      unfold perform
      dsimp only
      split
      next => exact effect_error (.refl before)
      next => exact lift_effect fun ⟨callee, popped⟩ _ => callValue_effect rfl
  | makeFunction index =>
      exact lift_effect fun code _ => effect_proceed _ ⟨rfl, rfl, rfl, rfl⟩
  | pop => exact lift_effect fun ⟨value, popped⟩ _ => pure_effect _
  | giveBack =>
      exact lift_effect fun ⟨value, popped⟩ _ => .none (.refl before) nofun
  | raiseAssert withMessage =>
      cases withMessage with
      | false => exact effect_error (.refl before)
      | true => exact lift_effect fun _ _ => effect_error (.refl before)

end

/-- A call takes its arguments and the value that is called from the stack, unless they are too
few. -/
theorem perform_call_cases (frame : Frame) (argCount : UInt32) :
    (∃ callee args rest, argCount.toNat = args.length ∧
      frame.stack = args.reverse ++ callee :: rest ∧
      perform frame (.call argCount) = callValue callee args { frame with stack := rest }) ∨
    (frame.stack.length ≤ argCount.toNat ∧
      perform frame (.call argCount) = throw (.badCode .underflow)) := by
  unfold perform
  dsimp only
  by_cases hshort : frame.stack.length < argCount.toNat
  · rw [if_pos hshort]
    exact .inr ⟨Nat.le_of_lt hshort, rfl⟩
  rw [if_neg hshort]
  have hsplit := List.take_append_drop argCount.toNat frame.stack
  cases hdrop : frame.stack.drop argCount.toNat with
  | nil => exact .inr ⟨List.drop_eq_nil_iff.mp hdrop, rfl⟩
  | cons callee rest =>
      refine .inl ⟨callee, (frame.stack.take argCount.toNat).reverse, rest, ?_, ?_, rfl⟩
      · rw [List.length_reverse, List.length_take, Nat.min_eq_left (Nat.not_lt.mp hshort)]
      · rw [List.reverse_reverse, ← hdrop, hsplit]

/-! ## Steps -/

/-- How a machine goes on when its instruction ended with a result. -/
def Machine.goOn (machine : Machine) (after : Interpreter) : Except Fault Flow → Outcome
  | .error fault => Machine.fail ⟨after, machine.frame, machine.callers⟩
      ⟨machine.frame.unit.file, machine.frame.unit.lineAt machine.frame.pc, fault⟩
  | .ok (.proceed following) => .running ⟨after, following, machine.callers⟩
  | .ok (.enter callee caller) => .running ⟨after, callee, caller :: machine.callers⟩
  | .ok (.giveBack value) => Machine.leave ⟨after, machine.frame, machine.callers⟩ value

theorem next_of_run {machine : Machine} {instr : Instr} {result : Except Fault Flow}
    {after : Interpreter} (hinstr : machine.frame.unit.code[machine.frame.pc]? = some instr)
    (hrun : (perform { machine.frame with pc := machine.frame.pc + 1 } instr).run
      machine.interpreter = (result, after)) :
    machine.next = machine.goOn after result := by
  rw [next_of_instr hinstr, hrun]
  match result with
  | .error _ | .ok (.proceed _) | .ok (.enter _ _) | .ok (.giveBack _) => rfl

/-- A step is the effect of its instruction. -/
theorem next_effect {machine : Machine} {instr : Instr}
    (hinstr : machine.frame.unit.code[machine.frame.pc]? = some instr) :
    ∃ result after, machine.interpreter.Effect { machine.frame with pc := machine.frame.pc + 1 }
      instr result after ∧ machine.next = machine.goOn after result :=
  ⟨_, _, perform_effect _ instr machine.interpreter, next_of_run hinstr rfl⟩

end FrozenScript
