import FrozenScript.Proofs.Code.Layout
import FrozenScript.Proofs.Meaning.Activation

/-!
# The code of expressions carries out their evaluation

Every instruction of an expression performs one part of its evaluation. `Expr.carries` puts the
parts together: the code of an expression leaves on the stack what the evaluation of the expression
gives.
-/

namespace FrozenScript

/-- A value goes on the stack, and the next instruction follows. -/
def Scope.pushed (scope : Scope) (unit : CodeUnit) (pc : Nat) (stack : List Value)
    (value : Value) : Frame :=
  scope.frame unit (pc + 1) (value :: stack)

theorem nameAt_eq {unit : CodeUnit} {index : UInt32} {name : String}
    (h : unit.names[index.toNat]? = some name) : unit.nameAt index = .ok name := by
  unfold CodeUnit.nameAt
  rw [h]

theorem valueAt_eq {unit : CodeUnit} {index : UInt32} {value : Literal}
    (h : unit.consts[index.toNat]? = some value.constant) :
    unit.valueAt index = .ok value.value := by
  unfold CodeUnit.valueAt
  rw [h]
  cases value <;> rfl

section

variable {unit : CodeUnit} {scope : Scope} {pc : Nat} {stack taken : List Value} {index : UInt32}

/-- An instruction that takes some values and pushes a result performs what gives the result. -/
theorem result_performs {instr : Instr} {evaluation : Evaluation Value}
    {result : Interpreter → Except Fault Value}
    (hrun : ∀ interpreter, evaluation.run interpreter = some (result interpreter, interpreter))
    (hperform : ∀ interpreter, (perform (scope.frame unit (pc + 1) taken) instr).run interpreter =
      (liftM (result interpreter) >>= fun value =>
        pure (.proceed (scope.pushed unit pc stack value)) : Action Flow).run interpreter) :
    instr.Performs (scope.frame unit pc taken) evaluation (scope.pushed unit pc stack) := by
  intro interpreter
  refine ⟨result interpreter, interpreter, hrun interpreter, ?_, fun _ _ => continues_frame ..⟩
  refine (hperform interpreter).trans ?_
  cases result interpreter with
  | error fault => rfl
  | ok value => rfl

theorem loadConst_performs {value : Literal}
    (hconst : unit.consts[index.toNat]? = some value.constant) :
    (Instr.loadConst index).Performs (scope.frame unit pc stack) (pure value.value)
      (scope.pushed unit pc stack) := by
  refine result_performs (fun _ => rfl) fun interpreter => ?_
  show (liftM (unit.valueAt index) >>= _ : Action Flow).run interpreter = _
  rw [valueAt_eq hconst]
  rfl

theorem run_find (frame : Frame) (name : String) (interpreter : Interpreter) :
    (Scope.find ⟨frame.home, frame.activation⟩ name).run interpreter =
      some (lookUp frame name interpreter, interpreter) := by
  have hlocals : Scope.locals ⟨frame.home, frame.activation⟩ = frame.locals := rfl
  unfold Scope.find lookUp
  rw [hlocals]
  cases frame.locals.get? name with
  | some value => rfl
  | none =>
      dsimp only
      rw [Evaluation.run_get_bind]
      cases (interpreter.globalsOf frame.home).get? name with
      | some value => rfl
      | none =>
          dsimp only
          cases Builtin.ofName? name with
          | some builtin => rfl
          | none => rfl

theorem loadName_performs {name : String} (hname : unit.names[index.toNat]? = some name) :
    (Instr.loadName index).Performs (scope.frame unit pc stack) (scope.find name)
      (scope.pushed unit pc stack) := by
  refine result_performs (run_find (scope.frame unit (pc + 1) stack) name) fun interpreter => ?_
  show (liftM (unit.nameAt index) >>= _ : Action Flow).run interpreter = _
  rw [nameAt_eq hname]
  rfl

theorem loadMember_performs {name : String} {object : Value}
    (hname : unit.names[index.toNat]? = some name) :
    (Instr.loadMember index).Performs (scope.frame unit pc (object :: stack))
      (do let interpreter ← get; member object name interpreter) (scope.pushed unit pc stack) := by
  refine result_performs (fun _ => rfl) fun interpreter => ?_
  show (liftM (unit.nameAt index) >>= _ : Action Flow).run interpreter = _
  rw [nameAt_eq hname]
  rfl

theorem binaryOp_performs (op : BinaryOp) (left right : Value) :
    (Instr.binaryOp op).Performs (scope.frame unit pc (right :: left :: stack))
      (liftM (op.apply left right)) (scope.pushed unit pc stack) :=
  result_performs (fun _ => rfl) fun _ => rfl

theorem unaryOp_performs {op : UnaryOp} {operand : Value} :
    (Instr.unaryOp op).Performs (scope.frame unit pc (operand :: stack))
      (liftM (op.apply operand)) (scope.pushed unit pc stack) :=
  result_performs (fun _ => rfl) fun _ => rfl

theorem compare_performs (op : CompareOp) (left right : Value) :
    (Instr.compare op).Performs (scope.frame unit pc (right :: left :: stack))
      (liftM (op.apply left right)) (scope.pushed unit pc stack) :=
  result_performs (fun _ => rfl) fun _ => rfl

end

section

variable {unit : CodeUnit} {scope : Scope} {activate : Activate} {fuel : Nat}

theorem perform_call {pc : Nat} {stack args : List Value} {callee : Value} {count : UInt32}
    (hcount : count.toNat = args.length) :
    perform (scope.frame unit pc (args.reverse ++ callee :: stack)) (.call count) =
      callValue callee args (scope.frame unit pc stack) := by
  have hlength : args.reverse.length = args.length := List.length_reverse
  unfold perform Scope.frame
  dsimp only
  rw [hcount, if_neg (by rw [List.length_append, hlength]; omega), ← hlength, List.take_left,
    List.drop_left, List.reverse_reverse]
  rfl

/-- The instruction of a logical operator skips the right operand if the left one decides, and
otherwise drops the left one. -/
theorem perform_skip (unit : CodeUnit) (scope : Scope) (op : LogicalOp) (value : Value) (pc : Nat)
    (stack : List Value) (target : UInt32) (interpreter : Interpreter) :
    (perform (scope.frame unit pc (value :: stack)) (op.skip target)).run interpreter =
      (.ok (.proceed (if op.isDecidedBy value then scope.frame unit target.toNat (value :: stack)
        else scope.frame unit pc stack)), interpreter) := by
  cases op with
  | and =>
      show (Except.ok (Flow.proceed (if value.isTruthy == false then _ else _)), _) = _
      rw [beq_false]
      rfl
  | or =>
      show (Except.ok (Flow.proceed (if value.isTruthy == true then _ else _)), _) = _
      rw [beq_true]
      rfl

/-- Two operands and the instruction of their operator carry out the operation. -/
theorem operands_carry {left right : Evaluation Value} {op : Value → Value → Except Fault Value}
    {instr : Instr} {start middle pc : Nat} {stack : List Value}
    (hleft : Carries (fuel + 1) (scope.frame unit start stack) left
      fun value last => last = scope.frame unit middle (value :: stack))
    (hright : ∀ first, Carries (fuel + 1) (scope.frame unit middle (first :: stack)) right
      fun value last => last = scope.frame unit pc (value :: first :: stack))
    (hinstr : unit.code[pc]? = some instr)
    (hperforms : ∀ first second, instr.Performs (scope.frame unit pc (second :: first :: stack))
      (liftM (op first second)) (scope.pushed unit pc stack)) :
    Carries (fuel + 1) (scope.frame unit start stack)
      (do let first ← left; let second ← right; op first second)
      fun value last => last = scope.frame unit (pc + 1) (value :: stack) := by
  refine Carries.bind hleft fun first last hlast => ?_
  subst hlast
  refine Carries.bind (hright first) fun second last hlast => ?_
  subst hlast
  exact Carries.instruction hinstr (hperforms first second)

mutual
/-- The code of an expression leaves on the stack what the evaluation of the expression gives. -/
theorem Expr.carries (expr : Expr) (hactivate : Activates fuel activate) {start stop : Nat}
    {stack : List Value} (hcode : expr.CodeAt unit start) (hstop : start + expr.codeSize = stop) :
    Carries (fuel + 1) (scope.frame unit start stack) (expr.evaluate activate scope)
      fun value last => last = scope.frame unit stop (value :: stack) := by
  cases expr with
  | literal _ value =>
      obtain ⟨index, hinstr, hconst⟩ := hcode
      subst hstop
      exact Carries.instruction hinstr (loadConst_performs hconst)
  | name _ name =>
      obtain ⟨index, hinstr, hname⟩ := hcode
      subst hstop
      exact Carries.instruction hinstr (loadName_performs hname)
  | binary _ op left right =>
      obtain ⟨hleft, hright, hop⟩ := hcode
      obtain rfl : start + left.codeSize + right.codeSize + 1 = stop := by
        rw [← hstop, Expr.codeSize]
        omega
      exact operands_carry (left.carries hactivate hleft rfl)
        (fun _ => right.carries hactivate hright rfl) hop (binaryOp_performs op)
  | compare _ op left right =>
      obtain ⟨hleft, hright, hop⟩ := hcode
      obtain rfl : start + left.codeSize + right.codeSize + 1 = stop := by
        rw [← hstop, Expr.codeSize]
        omega
      exact operands_carry (left.carries hactivate hleft rfl)
        (fun _ => right.carries hactivate hright rfl) hop (compare_performs op)
  | unary _ op operand =>
      obtain ⟨hoperand, hop⟩ := hcode
      obtain rfl : start + operand.codeSize + 1 = stop := by
        rw [← hstop, Expr.codeSize, Nat.add_assoc]
      refine Carries.bind (operand.carries hactivate hoperand rfl) fun value last hlast => ?_
      subst hlast
      exact Carries.instruction hop unaryOp_performs
  | logical _ op left right =>
      obtain ⟨hleft, ⟨target, hinstr, htarget⟩, hright⟩ := hcode
      obtain rfl : start + left.codeSize + 1 + right.codeSize = stop := by
        rw [← hstop, Expr.codeSize]
        omega
      refine Carries.bind (left.carries hactivate hleft rfl) fun value last hlast => ?_
      subst hlast
      have hperform := perform_skip unit scope op value (start + left.codeSize + 1) stack target
      by_cases hdecided : op.isDecidedBy value = true
      · rw [if_pos hdecided] at hperform ⊢
        rw [← htarget]
        exact Carries.after hinstr hperform (continues_frame ..) (Carries.pure rfl)
      · rw [if_neg hdecided] at hperform ⊢
        exact Carries.after hinstr hperform (continues_frame ..)
          (right.carries hactivate hright rfl)
  | call _ callee args =>
      obtain ⟨hcallee, hargs, count, hinstr, hcount⟩ := hcode
      obtain rfl : start + callee.codeSize + argumentsSize args + 1 = stop := by
        rw [← hstop, Expr.codeSize]
        omega
      refine Carries.bind (callee.carries hactivate hcallee rfl) fun function last hlast => ?_
      subst hlast
      refine Carries.bind (arguments_carry args hactivate hargs rfl) fun values last hlast => ?_
      obtain ⟨rfl, hlength⟩ := hlast
      exact call_carries hactivate hinstr (perform_call (hcount.trans hlength.symm))
        (continues_frame ..)
  | member _ object name =>
      obtain ⟨hobject, index, hinstr, hname⟩ := hcode
      obtain rfl : start + object.codeSize + 1 = stop := by
        rw [← hstop, Expr.codeSize, Nat.add_assoc]
      refine Carries.bind (object.carries hactivate hobject rfl) fun value last hlast => ?_
      subst hlast
      exact Carries.instruction hinstr (loadMember_performs hname)

theorem arguments_carry (args : List Expr) (hactivate : Activates fuel activate)
    {start stop : Nat} {stack : List Value} (hcode : ArgumentsCodeAt unit args start)
    (hstop : start + argumentsSize args = stop) :
    Carries (fuel + 1) (scope.frame unit start stack) (evaluateArguments activate scope args)
      fun values last => last = scope.frame unit stop (values.reverse ++ stack) ∧
        values.length = args.length := by
  cases args with
  | nil =>
      obtain rfl : start = stop := hstop
      exact Carries.pure ⟨rfl, rfl⟩
  | cons arg rest =>
      obtain ⟨harg, hrest⟩ := hcode
      obtain rfl : start + arg.codeSize + argumentsSize rest = stop := by
        rw [← hstop, argumentsSize, Nat.add_assoc]
      refine Carries.bind (arg.carries hactivate harg rfl) fun value last hlast => ?_
      subst hlast
      refine Carries.bind (arguments_carry rest hactivate hrest rfl) fun values last hlast => ?_
      obtain ⟨rfl, hlength⟩ := hlast
      refine Carries.pure ⟨?_, ?_⟩
      · rw [List.reverse_cons, List.append_assoc]
        rfl
      · rw [List.length_cons, List.length_cons, hlength]
end

end

end FrozenScript
