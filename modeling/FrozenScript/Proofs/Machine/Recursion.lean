import FrozenScript.Proofs.Machine.Effect

/-!
# Failing because of too many calls

A step fails because too many calls are in progress exactly if it calls a function with the right
number of arguments while there are as many calls as there may be (`failsDeep_iff`). Nothing that is
computed fails for that reason (`IsShallow`), so no other instruction does (`perform_shallow`).
-/

namespace FrozenScript

/-- A machine is about to call a function with some arguments. -/
structure Machine.CallsFunction (machine : Machine) (function : ScriptFunction)
    (args : List Value) : Prop where
  instr : ∃ argCount : UInt32, argCount.toNat = args.length ∧
    machine.frame.unit.code[machine.frame.pc]? = some (.call argCount)
  stack : ∃ rest, machine.frame.stack = args.reverse ++ .function function :: rest

/-- The next step of a machine fails because too many calls are in progress. -/
def Machine.FailsDeep (machine : Machine) : Prop :=
  ∃ after error, machine.next = .failed after error ∧ error.fault = .recursion

/-! ## Computing -/

section

variable {α : Type}

/-- Something that is computed does not fail because too many calls are in progress. -/
def IsShallow (result : Except Fault α) : Prop :=
  result ≠ .error .recursion

theorem bounded_isShallow (n : Int) : IsShallow (bounded n) := by
  unfold bounded
  split <;> exact nofun

theorem binary_isShallow (op : BinaryOp) (left right : Value) :
    IsShallow (op.apply left right) := by
  have htexts (a b : String) : IsShallow (joinTexts a b) := by
    unfold joinTexts
    split <;> exact nofun
  have hcopies (text : String) (count : Int) : IsShallow (repeatText text count) := by
    unfold repeatText
    split <;> exact nofun
  have hints (a b : Int64) : IsShallow (op.onInts a b) := by
    cases op with
    | add | sub | mul => exact bounded_isShallow _
    | floorDiv =>
        unfold BinaryOp.onInts
        dsimp only
        split
        · exact nofun
        · split <;> exact nofun
    | mod =>
        unfold BinaryOp.onInts
        dsimp only
        split <;> exact nofun
  unfold BinaryOp.apply
  split
  · exact hints _ _
  · split
    · exact htexts _ _
    · split
      · exact hcopies _ _
      · exact nofun
    · split
      · exact hcopies _ _
      · exact nofun
    · exact nofun

theorem unary_isShallow (op : UnaryOp) (operand : Value) : IsShallow (op.apply operand) := by
  cases op with
  | not => exact nofun
  | neg =>
      unfold UnaryOp.apply
      dsimp only
      split
      · exact bounded_isShallow _
      · exact nofun

theorem compare_isShallow (op : CompareOp) (left right : Value) :
    IsShallow (op.apply left right) := by
  unfold CompareOp.apply
  split
  · exact nofun
  · exact nofun
  · split <;> exact nofun

theorem builtin_isShallow (builtin : Builtin) (args : List Value) (sink : Sink) :
    IsShallow (builtin.call args sink).1 := by
  have honValue (arg : Value) : IsShallow (builtin.onValue arg) := by
    cases builtin with
    | print | str | repr => exact nofun
    | len =>
        unfold Builtin.onValue
        dsimp only
        split <;> exact nofun
    | int =>
        unfold Builtin.onValue Builtin.parseInt
        dsimp only
        split
        · exact nofun
        · split
          · split <;> exact nofun
          · exact nofun
  unfold Builtin.call
  split
  · dsimp only
    split <;> exact nofun
  · exact honValue _
  · exact nofun

theorem nameAt_isShallow (unit : CodeUnit) (index : UInt32) : IsShallow (unit.nameAt index) := by
  unfold CodeUnit.nameAt
  split <;> exact nofun

theorem valueAt_isShallow (unit : CodeUnit) (index : UInt32) : IsShallow (unit.valueAt index) := by
  unfold CodeUnit.valueAt
  split <;> exact nofun

theorem unitAt_isShallow (unit : CodeUnit) (index : UInt32) : IsShallow (unit.unitAt index) := by
  unfold CodeUnit.unitAt
  split <;> exact nofun

theorem lookUp_isShallow (frame : Frame) (name : String) (interpreter : Interpreter) :
    IsShallow (lookUp frame name interpreter) := by
  unfold lookUp
  split
  · exact nofun
  · split
    · exact nofun
    · split <;> exact nofun

theorem member_isShallow (object : Value) (name : String) (interpreter : Interpreter) :
    IsShallow (member object name interpreter) := by
  unfold member
  split
  · split <;> exact nofun
  · exact nofun

theorem pop_isShallow (frame : Frame) : IsShallow frame.pop := by
  unfold Frame.pop
  split <;> exact nofun

theorem IsShallow.bind {β : Type} {result : Except Fault α} {next : α → Except Fault β}
    (h : IsShallow result) (hnext : ∀ value, IsShallow (next value)) :
    IsShallow (result >>= next) := by
  cases result with
  | error fault => exact fun heq => h (congrArg _ (Except.error.inj heq))
  | ok value => exact hnext value

theorem popTwo_isShallow (frame : Frame) : IsShallow frame.popTwo :=
  (pop_isShallow _).bind fun _ => (pop_isShallow _).bind fun _ => nofun

theorem popAndJumpIf_isShallow (frame : Frame) (wanted : Bool) (target : UInt32) :
    IsShallow (frame.popAndJumpIf wanted target) :=
  (pop_isShallow _).bind fun _ => nofun

theorem jumpIfOrPop_isShallow (frame : Frame) (wanted : Bool) (target : UInt32) :
    IsShallow (frame.jumpIfOrPop wanted target) :=
  (pop_isShallow _).bind fun _ => nofun

/-- An action does not fail because too many calls are in progress. -/
def Action.Shallow (action : Action α) (before : Interpreter) : Prop :=
  IsShallow (action.run before).1

end

namespace Action.Shallow

variable {α β : Type} {before after : Interpreter}

theorem pure (value : α) : Action.Shallow (Pure.pure value) before :=
  nofun

theorem lift {result : Except Fault α} {next : α → Action β} (h : IsShallow result)
    (hnext : ∀ value, Action.Shallow (next value) before) :
    Action.Shallow (liftM result >>= next) before := by
  cases result with
  | error fault => exact fun heq => h (congrArg _ (Except.error.inj heq))
  | ok value => exact hnext value

theorem get {next : Interpreter → Action β} (h : Action.Shallow (next before) before) :
    Action.Shallow (MonadState.get >>= next) before :=
  h

theorem set {next : Action β} (h : Action.Shallow next after) :
    Action.Shallow (MonadStateOf.set after >>= fun _ => next) before :=
  h

end Action.Shallow

/-! ## Instructions -/

section

variable {before : Interpreter}

theorem importModule_shallow (name : String) (frame : Frame) :
    Action.Shallow (importModule name frame) before := by
  unfold importModule
  refine .get ?_
  cases before.loaded.get? name with
  | some module => exact .pure _
  | none =>
  cases before.frozen.get? name with
  | none => exact nofun
  | some image =>
  refine .lift ?_ fun unit => .set (.pure _)
  cases Image.decode image <;> exact nofun

theorem store_shallow (frame : Frame) (name : String) (value : Value) :
    Action.Shallow (store frame name value >>= fun stored => pure (Flow.proceed stored))
      before := by
  unfold store
  cases frame.activation <;> exact nofun

/-- Only a call fails because too many calls are in progress. -/
theorem perform_shallow {instr : Instr} (h : ∀ argCount, instr ≠ .call argCount) (frame : Frame) :
    Action.Shallow (perform frame instr) before := by
  cases instr with
  | loadConst index => exact .lift (valueAt_isShallow _ _) fun _ => .pure _
  | loadName index =>
      refine .lift (nameAt_isShallow _ _) fun name => .get ?_
      exact .lift (lookUp_isShallow _ _ _) fun _ => .pure _
  | storeName index =>
      refine .lift (nameAt_isShallow _ _) fun name => .lift (pop_isShallow _) fun popped => ?_
      exact store_shallow _ _ _
  | loadMember index =>
      refine .lift (nameAt_isShallow _ _) fun name => .lift (pop_isShallow _) fun popped => ?_
      exact .get (.lift (member_isShallow _ _ _) fun _ => .pure _)
  | importName index => exact .lift (nameAt_isShallow _ _) fun name => importModule_shallow _ _
  | binaryOp op =>
      refine .lift (popTwo_isShallow _) fun popped => ?_
      exact .lift (binary_isShallow _ _ _) fun _ => .pure _
  | unaryOp op =>
      exact .lift (pop_isShallow _) fun popped => .lift (unary_isShallow _ _) fun _ => .pure _
  | compare op =>
      refine .lift (popTwo_isShallow _) fun popped => ?_
      exact .lift (compare_isShallow _ _ _) fun _ => .pure _
  | jump target => exact .pure _
  | popJumpIfFalse target | popJumpIfTrue target =>
      exact .lift (popAndJumpIf_isShallow _ _ _) fun _ => .pure _
  | jumpIfFalseOrPop target | jumpIfTrueOrPop target =>
      exact .lift (jumpIfOrPop_isShallow _ _ _) fun _ => .pure _
  | call argCount => exact absurd rfl (h argCount)
  | makeFunction index => exact .lift (unitAt_isShallow _ _) fun code => nofun
  | pop | giveBack => exact .lift (pop_isShallow _) fun _ => .pure _
  | raiseAssert withMessage =>
      cases withMessage with
      | false => exact nofun
      | true => exact .lift (pop_isShallow _) fun _ => nofun

/-- A function is not entered if it gets the right number of arguments but too many calls are in
progress. -/
theorem callValue_recursion_iff (callee : Value) (args : List Value) (caller : Frame) :
    ((callValue callee args caller).run before).1 = .error .recursion ↔
      ∃ function, callee = .function function ∧ function.code.params.length = args.length ∧
        maxDepth ≤ before.depth := by
  constructor
  · suffices h : Action.Ends (callValue callee args caller) before fun result _ =>
        result = .error .recursion → ∃ function, callee = .function function ∧
          function.code.params.length = args.length ∧ maxDepth ≤ before.depth from h
    unfold callValue
    split
    next builtin =>
      refine .get (.set (.lift (fun fault hresult hfault => ?_) fun _ _ => nofun))
      obtain rfl := Except.error.inj hfault
      exact absurd hresult (builtin_isShallow builtin args before.sink)
    next function =>
      dsimp only
      split
      next => exact nofun
      next hparams =>
      refine .get ?_
      split
      next hdepth => exact fun _ => ⟨function, rfl, Decidable.not_not.mp hparams, hdepth⟩
      next => exact nofun
    next => exact nofun
  · rintro ⟨function, rfl, hparams, hdepth⟩
    unfold callValue
    dsimp only
    rw [if_neg (not_not_intro hparams), Action.run_get_bind, if_pos hdepth]
    rfl

end

/-- A step fails because too many calls are in progress exactly if a function is called with the
right number of arguments while there are as many as there may be. -/
theorem failsDeep_iff (machine : Machine) :
    machine.FailsDeep ↔ ∃ function args, machine.CallsFunction function args ∧
      function.code.params.length = args.length ∧ maxDepth ≤ machine.interpreter.depth := by
  cases hinstr : machine.frame.unit.code[machine.frame.pc]? with
  | none =>
      constructor
      · rintro ⟨after, error, hnext, hfault⟩
        rw [next_of_none hinstr] at hnext
        obtain ⟨-, rfl⟩ := Outcome.failed.inj hnext
        exact nomatch hfault
      · rintro ⟨_, _, ⟨⟨_, _, hcall⟩, _⟩, _⟩
        exact nomatch hinstr.symm.trans hcall
  | some instr =>
  have hfails : machine.FailsDeep ↔
      ((perform { machine.frame with pc := machine.frame.pc + 1 } instr).run
        machine.interpreter).1 = .error .recursion := by
    unfold Machine.FailsDeep
    rw [next_of_instr hinstr]
    split
    next fault after hrun =>
      rw [hrun]
      constructor
      · rintro ⟨_, _, hnext, hfault⟩
        obtain ⟨-, rfl⟩ := Outcome.failed.inj hnext
        exact congrArg _ hfault
      · intro h
        exact ⟨_, _, rfl, Except.error.inj h⟩
    next following after hrun =>
      rw [hrun]
      exact ⟨fun ⟨_, _, hnext, _⟩ => (nomatch hnext), nofun⟩
    next callee caller after hrun =>
      rw [hrun]
      exact ⟨fun ⟨_, _, hnext, _⟩ => (nomatch hnext), nofun⟩
    next value after hrun =>
      rw [hrun]
      refine ⟨fun ⟨_, _, hnext, _⟩ => ?_, nofun⟩
      unfold Machine.leave at hnext
      dsimp only at hnext
      split at hnext <;> exact nomatch hnext
  rw [hfails]
  by_cases hcall : ∃ argCount, instr = .call argCount
  · obtain ⟨argCount, rfl⟩ := hcall
    rcases perform_call_cases { machine.frame with pc := machine.frame.pc + 1 } argCount with
      ⟨callee, args, rest, hcount, hstack, hperform⟩ | ⟨hshort, hperform⟩
    · rw [hperform, callValue_recursion_iff]
      constructor
      · rintro ⟨function, rfl, hparams, hdepth⟩
        exact ⟨function, args, ⟨⟨argCount, hcount, hinstr⟩, rest, hstack⟩, hparams, hdepth⟩
      · rintro ⟨function, given, ⟨⟨given', hgiven, hinstr'⟩, rest', hstack'⟩, hparams, hdepth⟩
        obtain rfl := Instr.call.inj (Option.some.inj (hinstr.symm.trans hinstr'))
        have hlength : args.reverse.length = given.reverse.length := by
          rw [List.length_reverse, List.length_reverse, ← hcount, hgiven]
        obtain ⟨hargs, hrest⟩ := List.append_inj (hstack.symm.trans hstack') hlength
        obtain ⟨rfl, -⟩ := List.cons.inj hrest
        rw [List.reverse_inj.mp hargs]
        exact ⟨function, rfl, hparams, hdepth⟩
    · rw [hperform]
      refine ⟨nofun, ?_⟩
      rintro ⟨function, args, ⟨⟨argCount', hcount, hinstr'⟩, rest, hstack⟩, _, _⟩
      obtain rfl := Instr.call.inj (Option.some.inj (hinstr.symm.trans hinstr'))
      have hlength := congrArg List.length hstack
      rw [List.length_append, List.length_reverse, List.length_cons] at hlength
      dsimp only at hshort
      omega
  · refine ⟨fun h => absurd h (perform_shallow (fun argCount heq => hcall ⟨argCount, heq⟩) _), ?_⟩
    rintro ⟨function, args, ⟨⟨argCount, _, hinstr'⟩, _⟩, _⟩
    exact absurd ⟨argCount, Option.some.inj (hinstr.symm.trans hinstr')⟩ hcall

end FrozenScript
