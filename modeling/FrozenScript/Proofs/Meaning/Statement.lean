import FrozenScript.Proofs.Meaning.Expression
import FrozenScript.Syntax.Scoping

/-!
# The code of statements carries out their evaluation

The code of a statement leads to where the statement came to its end: behind its code, to the start
or to the exit of the innermost loop, or to an instruction that gives back a value
(`Stmt.carries`). A loop is carried out by induction on the number of its rounds: every round takes
the machine a step or more.
-/

namespace FrozenScript

open Scoping

/-- Where the machine is when a statement has come to its end: behind the code of the statement, at
the start or at the exit of the innermost loop, or about to give back a value. -/
def Arrives (unit : CodeUnit) (around : Surroundings) (stack : List Value) (stop : Nat) :
    Completion × Scope → Frame → Prop
  | (.next, scope), last => last = scope.frame unit stop stack
  | (.breakLoop, scope), last =>
    ∃ loop, around.loop = some loop ∧ last = scope.frame unit loop.exit stack
  | (.continueLoop, scope), last =>
    ∃ loop, around.loop = some loop ∧ last = scope.frame unit loop.start stack
  | (.giveBack value, _), last => last.GivesBack value

section

variable {unit : CodeUnit} {scope : Scope} {pc : Nat} {stack : List Value} {index : UInt32}

theorem storeName_performs {name : String} {value : Value}
    (hname : unit.names[index.toNat]? = some name) :
    (Instr.storeName index).Performs (scope.frame unit pc (value :: stack))
      (scope.assign name value) (fun scope => scope.frame unit (pc + 1) stack) := by
  obtain ⟨home, activation⟩ := scope
  intro interpreter
  cases activation with
  | call locals =>
      refine ⟨.ok ⟨home, .call (locals.set name value)⟩, interpreter, rfl, ?_, ?_⟩
      · show (liftM (unit.nameAt index) >>= _ : Action Flow).run interpreter = _
        rw [nameAt_eq hname]
        rfl
      · intro value hvalue
        obtain rfl := Except.ok.inj hvalue
        exact ⟨rfl, rfl, trivial⟩
  | body module depth =>
      refine ⟨.ok ⟨home, .body module depth⟩, interpreter.setGlobal home name value, rfl, ?_, ?_⟩
      · show (liftM (unit.nameAt index) >>= _ : Action Flow).run interpreter = _
        rw [nameAt_eq hname]
        rfl
      · intro value hvalue
        obtain rfl := Except.ok.inj hvalue
        exact continues_frame ..

theorem makeFunction_performs {code : CodeUnit}
    (hcode : unit.consts[index.toNat]? = some (.code code)) :
    (Instr.makeFunction index).Performs (scope.frame unit pc stack)
      (evaluateDefinition scope code) (scope.pushed unit pc stack) := by
  intro interpreter
  refine ⟨.ok (.function ⟨interpreter.nextFunction, code, scope.home⟩),
    { interpreter with nextFunction := interpreter.nextFunction + 1 }, rfl, ?_,
    fun _ _ => continues_frame ..⟩
  have hunit : unit.unitAt index = .ok code := by
    unfold CodeUnit.unitAt
    rw [hcode]
  show (liftM (unit.unitAt index) >>= _ : Action Flow).run interpreter = _
  rw [hunit]
  rfl

theorem perform_importName {name : String} (hname : unit.names[index.toNat]? = some name) :
    perform (scope.frame unit pc stack) (.importName index) =
      importModule name (scope.frame unit pc stack) := by
  show (liftM (unit.nameAt index) >>= _ : Action Flow) = _
  rw [nameAt_eq hname]
  rfl

theorem perform_popJumpIfFalse (unit : CodeUnit) (scope : Scope) (value : Value) (pc : Nat)
    (stack : List Value) (target : UInt32) (interpreter : Interpreter) :
    (perform (scope.frame unit pc (value :: stack)) (.popJumpIfFalse target)).run interpreter =
      (.ok (.proceed (if value.isTruthy then scope.frame unit pc stack
        else scope.frame unit target.toNat stack)), interpreter) := by
  show (Except.ok (Flow.proceed (if value.isTruthy == false then _ else _)), _) = _
  cases value.isTruthy with
  | false => rfl
  | true => rfl

theorem perform_popJumpIfTrue (unit : CodeUnit) (scope : Scope) (value : Value) (pc : Nat)
    (stack : List Value) (target : UInt32) (interpreter : Interpreter) :
    (perform (scope.frame unit pc (value :: stack)) (.popJumpIfTrue target)).run interpreter =
      (.ok (.proceed (if value.isTruthy then scope.frame unit target.toNat stack
        else scope.frame unit pc stack)), interpreter) := by
  show (Except.ok (Flow.proceed (if value.isTruthy == true then _ else _)), _) = _
  cases value.isTruthy with
  | false => rfl
  | true => rfl

theorem check_both {first second : Except ScopeError Unit}
    (h : (first >>= fun _ => second) = .ok ()) : first = .ok () ∧ second = .ok () := by
  cases first with
  | error error => exact nomatch h
  | ok _ => exact ⟨rfl, h⟩

end

section

variable {unit : CodeUnit} {activate : Activate} {fuel : Nat}

/-- What is common to the statements of a body: the machine carries out activations, assertions are
kept, and the scoping rules know no loop that the code does not have. -/
structure Ready (fuel : Nat) (activate : Activate) (around : Surroundings) (enclosure : Enclosure) :
    Prop where
  activates : Activates fuel activate
  keepAsserts : around.keepAsserts = true
  loop : enclosure.inLoop = true → ∃ loop, around.loop = some loop

theorem jump_carries {α : Type} {evaluation : Evaluation α} {P : α → Frame → Prop} {scope : Scope}
    {pc target : Nat} {stack : List Value} (hjump : unit.HasOperand pc .jump target)
    (h : Carries fuel (scope.frame unit target stack) evaluation P) :
    Carries fuel (scope.frame unit pc stack) evaluation P := by
  obtain ⟨operand, hinstr, rfl⟩ := hjump
  exact Carries.after hinstr (fun _ => rfl) (continues_frame ..) h

/-- The instruction that stores a value carries out an assignment. -/
theorem assign_carries {around : Surroundings} {scope : Scope} {pc : Nat} {stack : List Value}
    {name : String} {value : Value} (hstore : unit.HasName pc .storeName name) :
    Carries (fuel + 1) (scope.frame unit pc (value :: stack))
      (scope.assign name value >>= fun scope => pure (.next, scope))
      (Arrives unit around stack (pc + 1)) := by
  obtain ⟨index, hinstr, hname⟩ := hstore
  refine Carries.bind (Carries.instruction hinstr (storeName_performs hname)) ?_
  intro assigned last hlast
  exact Carries.pure hlast

/-- Behind the first block of a branch the machine jumps over the alternative. -/
theorem skip_carries {around : Surroundings} {alternative : Alternative} {start : Nat}
    {stack : List Value} {result : Completion × Scope} {last : Frame}
    (hcode : alternative.CodeAt unit around start)
    (hlast : Arrives unit around stack start result last) :
    Carries fuel last (pure result) (Arrives unit around stack (start +
      jumpSize alternative.isPresent +
        alternative.codeSize around.keepAsserts around.loop.isSome)) := by
  obtain ⟨completion, scope⟩ := result
  cases completion with
  | next =>
      obtain rfl : last = scope.frame unit start stack := hlast
      cases alternative with
      | nothing => exact Carries.pure rfl
      | elif condition body rest => exact jump_carries hcode.1 (Carries.pure rfl)
      | otherwise body => exact jump_carries hcode.1 (Carries.pure rfl)
  | breakLoop => exact Carries.pure hlast
  | continueLoop => exact Carries.pure hlast
  | giveBack value => exact Carries.pure hlast

/-- An expression and the instruction behind it decide between two evaluations, and take a step. -/
theorem Expr.decides (test : Expr) (hactivate : Activates fuel activate) {α : Type}
    {P : α → Frame → Prop} {yes no : Evaluation α} {scope : Scope}
    {start ifTrue ifFalse rounds : Nat} {stack : List Value} {instr : Instr}
    (hcode : test.CodeAt unit start) (hinstr : unit.code[start + test.codeSize]? = some instr)
    (hperform : ∀ value interpreter,
      (perform (scope.frame unit (start + test.codeSize + 1) (value :: stack)) instr).run
        interpreter = (.ok (.proceed (if value.isTruthy then scope.frame unit ifTrue stack
          else scope.frame unit ifFalse stack)), interpreter))
    (hyes : Carries rounds (scope.frame unit ifTrue stack) yes P)
    (hno : Carries rounds (scope.frame unit ifFalse stack) no P) (hle : rounds ≤ fuel) :
    Carries (rounds + 1) (scope.frame unit start stack)
      (test.evaluate activate scope >>= fun value => if value.isTruthy then yes else no) P := by
  have htest : Carries (rounds + 1) (scope.frame unit start stack) (test.evaluate activate scope)
      fun value last => last = scope.frame unit (start + test.codeSize) (value :: stack) :=
    (test.carries hactivate hcode rfl).of_le (Nat.succ_le_succ hle)
  refine Carries.bind htest fun value last hlast => ?_
  subst hlast
  have hperform := hperform value
  by_cases htruthy : value.isTruthy = true
  · rw [if_pos htruthy] at hperform ⊢
    exact Carries.step hinstr hperform (continues_frame ..) hyes
  · rw [if_neg htruthy] at hperform ⊢
    exact Carries.step hinstr hperform (continues_frame ..) hno

/-- The condition of a branch or of a loop. -/
theorem Expr.branches (test : Expr) (hactivate : Activates fuel activate) {α : Type}
    {P : α → Frame → Prop} {yes no : Evaluation α} {scope : Scope} {start target rounds : Nat}
    {stack : List Value} (hcode : test.CodeAt unit start)
    (hjump : unit.HasOperand (start + test.codeSize) .popJumpIfFalse target)
    (hyes : Carries rounds (scope.frame unit (start + test.codeSize + 1) stack) yes P)
    (hno : Carries rounds (scope.frame unit target stack) no P) (hle : rounds ≤ fuel) :
    Carries (rounds + 1) (scope.frame unit start stack)
      (test.evaluate activate scope >>= fun value => if value.isTruthy then yes else no) P := by
  obtain ⟨operand, hinstr, rfl⟩ := hjump
  exact test.decides hactivate hcode hinstr
    (fun value => perform_popJumpIfFalse unit scope value _ stack operand) hyes hno hle

/-- The code behind the test of an assertion fails with the message. -/
theorem raise_carries {α : Type} {P : α → Frame → Prop} (message : Option Expr)
    (hactivate : Activates fuel activate) {scope : Scope} {start : Nat} {stack : List Value}
    (hcode : OptionalCodeAt unit message start)
    (hraise : unit.code[start + optionalSize message]? = some (.raiseAssert message.isSome)) :
    Carries (fuel + 1) (scope.frame unit start stack) (failAssertion activate scope message) P := by
  cases message with
  | none => exact Carries.fault hraise fun _ => rfl
  | some message =>
      refine Carries.bind (message.carries hactivate hcode rfl) fun value last hlast => ?_
      subst hlast
      exact Carries.fault hraise fun _ => rfl

/-- The code that gives back nothing. -/
theorem nothing_carries {α : Type} {P : α → Frame → Prop} {value : α} {scope : Scope} {pc : Nat}
    {stack : List Value} (hload : unit.HasConstant pc .loadConst .none)
    (hgiveBack : unit.code[pc + 1]? = some .giveBack)
    (h : ∀ last : Frame, last.GivesBack .none → P value last) :
    Carries fuel (scope.frame unit pc stack) (pure value) P := by
  obtain ⟨index, hload, hconst⟩ := hload
  have hvalue : unit.valueAt index = .ok Literal.none.value := valueAt_eq hconst
  have hperform (interpreter : Interpreter) :
      (perform (scope.frame unit (pc + 1) stack) (.loadConst index)).run interpreter =
        (.ok (.proceed (scope.pushed unit pc stack .none)), interpreter) := by
    show (liftM (unit.valueAt index) >>= _ : Action Flow).run interpreter = _
    rw [hvalue]
    rfl
  exact Carries.after hload hperform (continues_frame ..)
    (Carries.pure (h _ ⟨hgiveBack, stack, rfl⟩))

/-- The code of a loop carries out the loop, whose rounds it takes one after the other. -/
theorem loop_carries {around : Surroundings} {condition : Expr} {loop : LoopBounds}
    {body : Scope → Evaluation (Completion × Scope)} {stack : List Value} {behind bodyEnd : Nat}
    (hactivate : Activates fuel activate) (hcondition : condition.CodeAt unit loop.start)
    (hjump : unit.HasOperand (loop.start + condition.codeSize) .popJumpIfFalse loop.exit)
    (hbehind : loop.start + condition.codeSize + 1 = behind)
    (hbody : ∀ scope : Scope, Carries (fuel + 1) (scope.frame unit behind stack) (body scope)
      (Arrives unit { around with loop := some loop } stack bodyEnd))
    (hback : unit.HasOperand bodyEnd .jump loop.start) {rounds : Nat} (hle : rounds ≤ fuel + 1)
    (scope : Scope) :
    Carries rounds (scope.frame unit loop.start stack)
      (evaluateLoop (condition.evaluate activate) body rounds scope)
      (Arrives unit around stack loop.exit) := by
  subst hbehind
  -- A round begins with the jump on the condition, which is the step that the round is paid with.
  induction rounds generalizing scope with
  | zero => exact fun _ _ => rfl
  | succ rounds ih =>
      have hrounds : rounds ≤ fuel := Nat.le_of_succ_le_succ hle
      refine condition.branches hactivate hcondition hjump ?_ (Carries.pure rfl) hrounds
      have hround := (hbody scope).of_le (Nat.le_succ_of_le hrounds)
      refine Carries.bind hround fun result last hlast => ?_
      obtain ⟨completion, scope⟩ := result
      have hagain := ih (Nat.le_succ_of_le hrounds) scope
      cases completion with
      | next =>
          obtain rfl : last = scope.frame unit bodyEnd stack := hlast
          exact jump_carries hback hagain
      | continueLoop =>
          obtain ⟨_, hsame, rfl⟩ := hlast
          obtain rfl := Option.some.inj hsame
          exact hagain
      | breakLoop =>
          obtain ⟨_, hsame, rfl⟩ := hlast
          obtain rfl := Option.some.inj hsame
          exact Carries.pure rfl
      | giveBack value => exact Carries.pure hlast

mutual
/-- The code of a statement carries out the statement. -/
theorem Stmt.carries (stmt : Stmt) {around : Surroundings} {enclosure : Enclosure}
    (hready : Ready fuel activate around enclosure) (scope : Scope) (stack : List Value)
    {start stop : Nat} (hcode : stmt.CodeAt unit around start)
    (hscoping : checkStmt enclosure stmt = .ok ())
    (hstop : start + stmt.codeSize around.keepAsserts around.loop.isSome = stop) :
    Carries (fuel + 1) (scope.frame unit start stack)
      (stmt.evaluate activate (fuel + 1) around.file scope) (Arrives unit around stack stop) := by
  have hactivate := hready.activates
  subst hstop
  cases stmt with
  | expr _ value =>
      obtain ⟨hvalue, hpop⟩ := hcode
      refine Carries.bind (value.carries hactivate hvalue rfl) fun result last hlast => ?_
      subst hlast
      exact Carries.after hpop (fun _ => rfl) (continues_frame ..) (Carries.pure rfl)
  | assign _ target value =>
      cases target with
      | name _ name =>
          obtain ⟨hvalue, hstore⟩ := hcode
          refine Carries.bind (value.carries hactivate hvalue rfl) fun result last hlast => ?_
          subst hlast
          exact assign_carries hstore
      | _ => exact Carries.pure rfl
  | branch _ condition body alternative =>
      obtain ⟨hcondition, hjump, hbody, halternative⟩ := hcode
      obtain ⟨hscopingBody, hscopingAlternative⟩ := check_both hscoping
      simp only [Stmt.codeSize, ← Nat.add_assoc]
      refine condition.branches hactivate hcondition hjump ?_ ?_ (Nat.le_refl fuel)
      · have hthen := block_carries body hready scope stack hbody hscopingBody rfl
        exact (hthen.extend fun result last hlast => skip_carries halternative hlast).of_le
          (Nat.le_succ fuel)
      · have helse := alternative.carries hready scope stack halternative hscopingAlternative rfl
        exact helse.of_le (Nat.le_succ fuel)
  | loop _ condition body =>
      obtain ⟨hcondition, hjump, hbody, hback⟩ := hcode
      simp only [Stmt.codeSize, ← Nat.add_assoc]
      have hinner : Ready fuel activate { around with loop := some ⟨start,
          start + condition.codeSize + 1 + blockSize around.keepAsserts true body + 1⟩ }
          { enclosure with inLoop := true } :=
        ⟨hactivate, hready.keepAsserts, fun _ => ⟨_, rfl⟩⟩
      exact loop_carries hactivate hcondition hjump rfl
        (fun scope => block_carries body hinner scope stack hbody hscoping rfl) hback
        (Nat.le_refl _) scope
  | define place name params body =>
      obtain ⟨⟨index, hmake, hconst⟩, hstore⟩ := hcode
      -- Which loop surrounds a definition does not matter to the unit of the function.
      have hunit :
          functionUnit { file := around.file, keepAsserts := true } place name params body =
            functionUnit around place name params body := by
        rw [functionUnit, functionUnit, bodyUnit, bodyUnit, hready.keepAsserts]
      rw [← hunit] at hconst
      refine Carries.bind (Carries.instruction hmake (makeFunction_performs hconst)) ?_
      intro result last hlast
      subst hlast
      exact assign_carries hstore
  | giveBack _ value =>
      cases value with
      | none =>
          obtain ⟨hload, hgiveBack⟩ := hcode
          exact nothing_carries hload hgiveBack fun last hlast => hlast
      | some value =>
          obtain ⟨hvalue, hgiveBack⟩ := hcode
          refine Carries.bind (value.carries hactivate hvalue rfl) fun result last hlast => ?_
          subst hlast
          exact Carries.pure ⟨hgiveBack, stack, rfl⟩
  | importModule _ name =>
      obtain ⟨⟨index, himport, hname⟩, hstore⟩ := hcode
      refine Carries.bind (import_carries hactivate himport (perform_importName hname)
        (continues_frame ..)) fun result last hlast => ?_
      subst hlast
      exact assign_carries hstore
  | assert place test message =>
      obtain ⟨htest, ⟨target, hinstr, htarget⟩, hmessage, hraise⟩ := hcode hready.keepAsserts
      have hsize : start + (Stmt.assert place test message).codeSize around.keepAsserts
          around.loop.isSome = target.toNat := by
        rw [htarget, Stmt.codeSize, if_pos hready.keepAsserts]
        simp only [← Nat.add_assoc]
      rw [hsize]
      refine test.decides hactivate htest hinstr
        (fun value => perform_popJumpIfTrue unit scope value _ stack target) (Carries.pure rfl) ?_
        (Nat.le_refl fuel)
      exact (raise_carries message hactivate hmessage hraise).of_le (Nat.le_succ fuel)
  | pass _ => exact Carries.pure rfl
  | breakLoop _ =>
      obtain ⟨loop, hloop⟩ := hready.loop (require_eq_ok_iff.mp hscoping)
      unfold Stmt.CodeAt at hcode
      rw [hloop] at hcode
      exact jump_carries hcode (Carries.pure ⟨loop, hloop, rfl⟩)
  | continueLoop _ =>
      obtain ⟨loop, hloop⟩ := hready.loop (require_eq_ok_iff.mp hscoping)
      unfold Stmt.CodeAt at hcode
      rw [hloop] at hcode
      exact jump_carries hcode (Carries.pure ⟨loop, hloop, rfl⟩)

theorem block_carries (block : List Stmt) {around : Surroundings} {enclosure : Enclosure}
    (hready : Ready fuel activate around enclosure) (scope : Scope) (stack : List Value)
    {start stop : Nat} (hcode : BlockCodeAt unit around block start)
    (hscoping : checkBlock enclosure block = .ok ())
    (hstop : start + blockSize around.keepAsserts around.loop.isSome block = stop) :
    Carries (fuel + 1) (scope.frame unit start stack)
      (evaluateBlock activate (fuel + 1) around.file block scope)
      (Arrives unit around stack stop) := by
  cases block with
  | nil =>
      obtain rfl : start = stop := hstop
      exact Carries.pure rfl
  | cons stmt rest =>
      obtain ⟨hstmt, hrest⟩ := hcode
      obtain ⟨hscopingStmt, hscopingRest⟩ := check_both hscoping
      rw [blockSize, ← Nat.add_assoc] at hstop
      have hfirst := stmt.carries hready scope stack hstmt hscopingStmt rfl
      refine Carries.bind hfirst fun result last hlast => ?_
      obtain ⟨completion, scope⟩ := result
      cases completion with
      | next =>
          obtain rfl := hlast
          exact block_carries rest hready scope stack hrest hscopingRest hstop
      | breakLoop => exact Carries.pure hlast
      | continueLoop => exact Carries.pure hlast
      | giveBack value => exact Carries.pure hlast

theorem Alternative.carries (alternative : Alternative) {around : Surroundings}
    {enclosure : Enclosure} (hready : Ready fuel activate around enclosure) (scope : Scope)
    (stack : List Value) {start stop : Nat} (hcode : alternative.CodeAt unit around start)
    (hscoping : checkAlternative enclosure alternative = .ok ())
    (hstop : start + jumpSize alternative.isPresent +
      alternative.codeSize around.keepAsserts around.loop.isSome = stop) :
    Carries (fuel + 1) (scope.frame unit (start + jumpSize alternative.isPresent) stack)
      (alternative.evaluate activate (fuel + 1) around.file scope)
      (Arrives unit around stack stop) := by
  subst hstop
  cases alternative with
  | nothing => exact Carries.pure rfl
  | elif condition body rest =>
      obtain ⟨-, hcondition, hjump, hbody, hrest⟩ := hcode
      obtain ⟨hscopingBody, hscopingRest⟩ := check_both hscoping
      simp only [Alternative.codeSize, ← Nat.add_assoc]
      refine condition.branches hready.activates hcondition hjump ?_ ?_ (Nat.le_refl fuel)
      · have hthen := block_carries body hready scope stack hbody hscopingBody rfl
        exact (hthen.extend fun result last hlast => skip_carries hrest hlast).of_le
          (Nat.le_succ fuel)
      · have helse := rest.carries hready scope stack hrest hscopingRest rfl
        exact helse.of_le (Nat.le_succ fuel)
  | otherwise body =>
      obtain ⟨-, hbody⟩ := hcode
      exact block_carries body hready scope stack hbody hscoping rfl
end

end

end FrozenScript
