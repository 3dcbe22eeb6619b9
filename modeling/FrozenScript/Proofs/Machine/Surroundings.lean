import FrozenScript.Proofs.Machine.Modules

/-!
# What a step asks its surroundings

The surroundings of an interpreter are the sink that it prints to and the images that it may import.
A step of a machine depends on them in two ways only (`next_asks`): whether the sink has room for
the line that is printed, and which image a name has that is imported and not loaded. Every other
step takes the same course in all surroundings.
-/

namespace FrozenScript

/-- The same interpreter in other surroundings. -/
def Interpreter.amid (interpreter : Interpreter) (sink : Sink) (frozen : Table String Image) :
    Interpreter :=
  { interpreter with sink, frozen }

/-- The same machine in other surroundings. -/
def Machine.amid (machine : Machine) (sink : Sink) (frozen : Table String Image) : Machine :=
  { machine with interpreter := machine.interpreter.amid sink frozen }

/-- The same outcome in other surroundings. -/
def Outcome.amid (outcome : Outcome) (sink : Sink) (frozen : Table String Image) : Outcome :=
  match outcome with
  | .running machine => .running (machine.amid sink frozen)
  | .finished interpreter => .finished (interpreter.amid sink frozen)
  | .failed interpreter error => .failed (interpreter.amid sink frozen) error

/-! ## Actions -/

/-- An action takes the same course in all surroundings and leaves them as they are. -/
def Action.Indifferent {α : Type} (action : Action α) (before : Interpreter) : Prop :=
  ∀ sink frozen, action.run (before.amid sink frozen) =
    ((action.run before).1, (action.run before).2.amid sink frozen)

/-- What an action asks its surroundings: nothing, whether there is room for a line, or the image
of a name. -/
inductive Action.Asks (action : Action Flow) (before : Interpreter) : Prop where
  | nothing (h : action.Indifferent before)
  | room (line : ByteArray) (following : Frame)
      (h : ∀ sink frozen, action.run (before.amid sink frozen) =
        (if sink.fits line.size then .ok (.proceed following) else .error .output,
          before.amid (sink.write line) frozen))
  | image (name : String) (answer : Option Image → Except Fault Flow × Interpreter)
      (hnone : answer none = (.error (.noModule name), before))
      (h : ∀ sink frozen, action.run (before.amid sink frozen) =
        ((answer (frozen.get? name)).1, (answer (frozen.get? name)).2.amid sink frozen))

namespace Action.Indifferent

variable {α β : Type} {before : Interpreter}

theorem pure (value : α) : Action.Indifferent (Pure.pure value) before :=
  fun _ _ => rfl

theorem throw (fault : Fault) :
    Action.Indifferent (MonadExcept.throw fault : Action α) before :=
  fun _ _ => rfl

theorem lift {result : Except Fault α} {next : α → Action β}
    (h : ∀ value, Action.Indifferent (next value) before) :
    Action.Indifferent (liftM result >>= next) before := by
  cases result with
  | error fault => exact fun _ _ => rfl
  | ok value => exact h value

/-- What is read from the interpreter may not depend on the surroundings. -/
theorem get {next : Interpreter → Action β}
    (hsame : ∀ sink frozen, next (before.amid sink frozen) = next before)
    (h : Action.Indifferent (next before) before) :
    Action.Indifferent (MonadState.get >>= next) before := by
  intro sink frozen
  have hnext := h sink frozen
  rw [← hsame sink frozen] at hnext
  rw [Action.run_get_bind, Action.run_get_bind, hnext, hsame]

end Action.Indifferent

section

variable {before : Interpreter}

theorem store_indifferent (frame : Frame) (name : String) (value : Value) :
    Action.Indifferent (store frame name value >>= fun stored => pure (Flow.proceed stored))
      before := by
  unfold store
  cases frame.activation with
  | call locals => exact fun _ _ => rfl
  | body module depth => exact fun _ _ => rfl

/-- Only `print` writes to the sink, and the other functions do not depend on it. -/
theorem Builtin.call_of_ne_print {builtin : Builtin} (h : builtin ≠ .print) (args : List Value)
    (sink other : Sink) :
    builtin.call args other = ((builtin.call args sink).1, other) := by
  unfold Builtin.call
  split
  next => exact absurd rfl h
  next => rfl
  next => rfl

theorem callValue_asks (callee : Value) (args : List Value) (caller : Frame) :
    Action.Asks (callValue callee args caller) before := by
  cases callee with
  | builtin builtin =>
      by_cases hprint : builtin = .print
      · subst hprint
        refine .room (Builtin.printedLine args).toUTF8 (caller.push .none) fun sink frozen => ?_
        rw [run_callValue_builtin]
        have hcall : Builtin.print.call args (before.amid sink frozen).sink =
            (if sink.fits (Builtin.printedLine args).toUTF8.size then .ok .none else .error .output,
              sink.write (Builtin.printedLine args).toUTF8) := rfl
        rw [hcall]
        cases sink.fits (Builtin.printedLine args).toUTF8.size with
        | true => rfl
        | false => rfl
      · refine .nothing fun sink frozen => ?_
        rw [run_callValue_builtin, run_callValue_builtin,
          Builtin.call_of_ne_print hprint args before.sink]
        rfl
  | function function =>
      refine .nothing fun sink frozen => ?_
      rw [run_callValue_function, run_callValue_function]
      have hdepth : (before.amid sink frozen).depth = before.depth := rfl
      rw [hdepth]
      split
      next => rfl
      split
      next => rfl
      next => rfl
  | none | bool _ | int _ | text _ | module _ => exact .nothing (.throw _)

/-- What the import of a module that is not loaded comes to, depending on the image of its name. -/
def importAnswer (before : Interpreter) (name : String) (frame : Frame) :
    Option Image → Except Fault Flow × Interpreter
  | none => (.error (.noModule name), before)
  | some image =>
    match Image.decode image with
    | .ok unit => (.ok (.enter (before.start name unit).2 frame), (before.start name unit).1)
    | .error fault => (.error (.badImage name fault), before)

theorem run_importModule_of_loaded {name : String} {module : ScriptModule}
    (h : before.loaded.get? name = some module) (frame : Frame) :
    (importModule name frame).run before =
      (.ok (.proceed (frame.push (.module module))), before) := by
  unfold importModule
  rw [Action.run_get_bind, h]
  rfl

theorem run_importModule_of_unloaded {name : String} (h : before.loaded.get? name = none)
    (frame : Frame) :
    (importModule name frame).run before =
      importAnswer before name frame (before.frozen.get? name) := by
  unfold importModule importAnswer
  rw [Action.run_get_bind, h]
  cases before.frozen.get? name with
  | none => rfl
  | some image =>
  dsimp only
  cases Image.decode image with
  | ok unit => rfl
  | error fault => rfl

theorem importAnswer_amid (name : String) (frame : Frame) (answer : Option Image) (sink : Sink)
    (frozen : Table String Image) :
    importAnswer (before.amid sink frozen) name frame answer =
      ((importAnswer before name frame answer).1,
        (importAnswer before name frame answer).2.amid sink frozen) := by
  unfold importAnswer
  split
  next => rfl
  split
  next => rfl
  next => rfl

theorem importModule_asks (name : String) (frame : Frame) :
    Action.Asks (importModule name frame) before := by
  cases hloaded : before.loaded.get? name with
  | some module =>
      refine .nothing fun sink frozen => ?_
      have hamid : (before.amid sink frozen).loaded.get? name = some module := hloaded
      rw [run_importModule_of_loaded hamid, run_importModule_of_loaded hloaded]
  | none =>
      refine .image name (importAnswer before name frame) rfl fun sink frozen => ?_
      have hamid : (before.amid sink frozen).loaded.get? name = none := hloaded
      rw [run_importModule_of_unloaded hamid]
      exact importAnswer_amid ..

/-- An instruction asks nothing else. -/
theorem perform_asks (frame : Frame) (instr : Instr) :
    Action.Asks (perform frame instr) before := by
  cases instr with
  | loadConst index => exact .nothing (.lift fun value => .pure _)
  | loadName index =>
      exact .nothing (.lift fun name => .get (fun _ _ => rfl) (.lift fun value => .pure _))
  | storeName index =>
      exact .nothing (.lift fun name => .lift fun ⟨value, popped⟩ => store_indifferent _ _ _)
  | loadMember index =>
      exact .nothing (.lift fun name => .lift fun ⟨object, popped⟩ =>
        .get (fun _ _ => rfl) (.lift fun value => .pure _))
  | importName index =>
      cases hname : frame.unit.nameAt index with
      | ok name =>
          rw [perform_importName_of_nameAt hname]
          exact importModule_asks name frame
      | error fault =>
          have hperform : perform frame (.importName index) =
              liftM (frame.unit.nameAt index) >>= fun name => importModule name frame := rfl
          rw [hperform, hname]
          exact .nothing (.throw fault)
  | binaryOp op | compare op =>
      exact .nothing (.lift fun ⟨left, right, popped⟩ => .lift fun value => .pure _)
  | unaryOp op => exact .nothing (.lift fun ⟨operand, popped⟩ => .lift fun value => .pure _)
  | jump target => exact .nothing (.pure _)
  | popJumpIfFalse target | popJumpIfTrue target | jumpIfFalseOrPop target
  | jumpIfTrueOrPop target => exact .nothing (.lift fun following => .pure _)
  | call argCount =>
      obtain ⟨callee, args, rest, -, -, hperform⟩ | ⟨-, hperform⟩ :=
        perform_call_cases frame argCount
      · rw [hperform]
        exact callValue_asks _ _ _
      · rw [hperform]
        exact .nothing (.throw _)
  | makeFunction index => exact .nothing (.lift fun code _ _ => rfl)
  | pop | giveBack => exact .nothing (.lift fun ⟨value, popped⟩ => .pure _)
  | raiseAssert withMessage =>
      cases withMessage with
      | false => exact .nothing (.throw _)
      | true => exact .nothing (.lift fun _ => .throw _)

end

/-! ## Steps -/

/-- What the next step of a machine asks its surroundings. If there is no room or no image, the
machine fails. -/
inductive Machine.Asks (machine : Machine) : Prop where
  | nothing
      (h : ∀ sink frozen, (machine.amid sink frozen).next = machine.next.amid sink frozen)
  | room (line : ByteArray) (following : Machine) (stopped : Interpreter) (error : RuntimeError)
      (herror : error.fault = .output)
      (h : ∀ sink frozen, (machine.amid sink frozen).next =
        if sink.fits line.size then .running (following.amid (sink.write line) frozen)
        else .failed (stopped.amid (sink.write line) frozen) error)
  | image (name : String) (answer : Option Image → Outcome) (stopped : Interpreter)
      (error : RuntimeError) (herror : error.fault = .noModule name)
      (hnone : answer none = .failed stopped error)
      (h : ∀ sink frozen,
        (machine.amid sink frozen).next = (answer (frozen.get? name)).amid sink frozen)

section

variable (machine : Machine) (sink : Sink) (frozen : Table String Image)

theorem abandon_amid (interpreter : Interpreter) (frame : Frame) :
    (interpreter.amid sink frozen).abandon frame =
      (interpreter.abandon frame).amid sink frozen := by
  unfold Interpreter.abandon
  cases frame.activation with
  | body name depth => rfl
  | call locals => rfl

theorem foldl_abandon_amid (frames : List Frame) (interpreter : Interpreter) :
    frames.foldl Interpreter.abandon (interpreter.amid sink frozen) =
      (frames.foldl Interpreter.abandon interpreter).amid sink frozen := by
  induction frames generalizing interpreter with
  | nil => rfl
  | cons frame frames ih => rw [List.foldl_cons, List.foldl_cons, abandon_amid, ih]

theorem fail_amid (error : RuntimeError) :
    (machine.amid sink frozen).fail error = (machine.fail error).amid sink frozen :=
  congrArg (Outcome.failed · error) (foldl_abandon_amid sink frozen _ _)

theorem leave_amid (value : Value) :
    (machine.amid sink frozen).leave value = (machine.leave value).amid sink frozen := by
  unfold Machine.leave Machine.amid
  dsimp only
  cases machine.frame.activation with
  | call locals =>
      cases machine.callers with
      | nil => rfl
      | cons caller callers => rfl
  | body name depth =>
      cases machine.callers with
      | nil => rfl
      | cons caller callers => rfl

theorem goOn_amid (after : Interpreter) (result : Except Fault Flow) :
    (machine.amid sink frozen).goOn (after.amid sink frozen) result =
      (machine.goOn after result).amid sink frozen := by
  match result with
  | .error fault => exact fail_amid ⟨after, machine.frame, machine.callers⟩ sink frozen _
  | .ok (.proceed following) => rfl
  | .ok (.enter callee caller) => rfl
  | .ok (.giveBack value) =>
      exact leave_amid ⟨after, machine.frame, machine.callers⟩ sink frozen value

end

/-- A step asks nothing else. -/
theorem next_asks (machine : Machine) : machine.Asks := by
  cases hinstr : machine.frame.unit.code[machine.frame.pc]? with
  | none =>
      refine .nothing fun sink frozen => ?_
      have hamid : (machine.amid sink frozen).frame.unit.code[machine.frame.pc]? = none := hinstr
      rw [next_of_none hinstr, next_of_none hamid]
      exact fail_amid ..
  | some instr =>
  have hamid (sink : Sink) (frozen : Table String Image) :
      (machine.amid sink frozen).frame.unit.code[machine.frame.pc]? = some instr := hinstr
  have hasks : (perform { machine.frame with pc := machine.frame.pc + 1 } instr).Asks
      machine.interpreter := perform_asks _ instr
  cases hasks with
  | nothing h =>
      refine .nothing fun sink frozen => ?_
      rw [next_of_run (hamid sink frozen) (h sink frozen), next_of_run hinstr rfl]
      exact goOn_amid ..
  | room line following h =>
      refine .room line ⟨machine.interpreter, following, machine.callers⟩
        ((machine.frame :: machine.callers).foldl Interpreter.abandon machine.interpreter)
        ⟨machine.frame.unit.file, machine.frame.unit.lineAt machine.frame.pc, .output⟩ rfl
        fun sink frozen => ?_
      rw [next_of_run (hamid sink frozen) (h sink frozen)]
      have hgoOn := goOn_amid machine (sink.write line) frozen machine.interpreter
      cases sink.fits line.size with
      | true => exact hgoOn (.ok (.proceed following))
      | false => exact hgoOn (.error .output)
  | image name answer hnone h =>
      refine .image name (fun found => machine.goOn (answer found).2 (answer found).1)
        ((machine.frame :: machine.callers).foldl Interpreter.abandon machine.interpreter)
        ⟨machine.frame.unit.file, machine.frame.unit.lineAt machine.frame.pc, .noModule name⟩ rfl
        ?_ fun sink frozen => ?_
      · rw [hnone]
        rfl
      · rw [next_of_run (hamid sink frozen) (h sink frozen)]
        exact goOn_amid ..

end FrozenScript
