import FrozenScript.Proofs.Machine.Step
import FrozenScript.Proofs.Meaning.Evaluation

/-!
# Machines that carry out evaluations

`Carries` relates a frame of the machine to an evaluation: whatever the evaluation does, the
machine does from that frame. Evaluations that are made of others are carried out one after the
other (`Carries.bind`), and the instructions of the machine carry out the simplest ones
(`Carries.instruction`). An evaluation that runs out of fuel takes the machine at least as many
steps as the fuel, so a machine that ends is matched by an evaluation with enough fuel.
-/

namespace FrozenScript

/-! ## Frames -/

/-- Two activations are those of the same body of a module, or both those of a function. -/
def Activation.SameKind : Activation → Activation → Prop
  | .body name depth, .body name' depth' => name = name' ∧ depth = depth'
  | .call _, .call _ => True
  | .body .., .call _ | .call _, .body .. => False

/-- A frame is a later state of another one: only the next instruction, the stack and the local
variables may differ. -/
structure Frame.Continues (frame before : Frame) : Prop where
  unit : frame.unit = before.unit
  home : frame.home = before.home
  activation : frame.activation.SameKind before.activation

/-- The frame of an activation at an instruction. -/
def Scope.frame (scope : Scope) (unit : CodeUnit) (pc : Nat) (stack : List Value) : Frame :=
  { unit, pc, stack, home := scope.home, activation := scope.activation }

theorem Activation.SameKind.refl (activation : Activation) : activation.SameKind activation := by
  cases activation with
  | body name depth => exact ⟨rfl, rfl⟩
  | call locals => trivial

theorem Activation.SameKind.trans {first second third : Activation} (h : first.SameKind second)
    (h' : second.SameKind third) : first.SameKind third := by
  cases first with
  | body name depth =>
      cases second with
      | body name' depth' =>
          obtain ⟨rfl, rfl⟩ := h
          exact h'
      | call locals => exact h.elim
  | call locals =>
      cases second with
      | body name' depth' => exact h.elim
      | call locals =>
          cases third with
          | body name'' depth'' => exact h'.elim
          | call locals => trivial

theorem Frame.Continues.refl (frame : Frame) : frame.Continues frame :=
  ⟨rfl, rfl, Activation.SameKind.refl _⟩

theorem Frame.Continues.trans {first second third : Frame} (h : first.Continues second)
    (h' : second.Continues third) : first.Continues third :=
  ⟨h.unit.trans h'.unit, h.home.trans h'.home,
    Activation.SameKind.trans h.activation h'.activation⟩

/-- A frame is left in the same way whatever state it is in. -/
theorem Frame.Continues.abandon_eq {frame before : Frame} (h : frame.Continues before)
    (interpreter : Interpreter) : interpreter.abandon frame = interpreter.abandon before := by
  have hactivation := h.activation
  unfold Interpreter.abandon
  cases hframe : frame.activation with
  | body name depth =>
      cases hbefore : before.activation with
      | body name' depth' =>
          rw [hframe, hbefore] at hactivation
          obtain ⟨rfl, rfl⟩ := hactivation
          rfl
      | call locals =>
          rw [hframe, hbefore] at hactivation
          exact hactivation.elim
  | call locals =>
      cases hbefore : before.activation with
      | body name' depth' =>
          rw [hframe, hbefore] at hactivation
          exact hactivation.elim
      | call locals => rfl

theorem continues_frame (scope : Scope) (unit : CodeUnit) (pc pc' : Nat)
    (stack stack' : List Value) :
    (scope.frame unit pc stack).Continues (scope.frame unit pc' stack') :=
  ⟨rfl, rfl, Activation.SameKind.refl _⟩

/-! ## Evaluations -/

/-- A machine comes to where an evaluation came to. If the evaluation ran out of fuel, so many
steps do not bring the machine to an end. If it gave something, the machine comes to a later state
of its frame that fits it. And if it failed, the machine fails for the same reason and leaves all
frames. -/
def Machine.Answers {α : Type} (machine : Machine) (fuel : Nat) (P : α → Frame → Prop) :
    Option (Except Fault α × Interpreter) → Prop
  | none => machine.run fuel = none
  | some (.ok value, after) => ∃ last : Frame,
    machine.Leads ⟨after, last, machine.callers⟩ ∧ last.Continues machine.frame ∧ P value last
  | some (.error fault, after) => ∃ error : RuntimeError, error.fault = fault ∧
    machine.ComesTo
      (.failed ((machine.frame :: machine.callers).foldl Interpreter.abandon after) error)

/-- From a frame the machine does what an evaluation says, whatever the interpreter is and whatever
frames wait. -/
def Carries {α : Type} (fuel : Nat) (frame : Frame) (evaluation : Evaluation α)
    (P : α → Frame → Prop) : Prop :=
  ∀ interpreter callers,
    Machine.Answers ⟨interpreter, frame, callers⟩ fuel P (evaluation.run interpreter)

section

variable {α β : Type} {fuel : Nat} {frame : Frame} {P P' : α → Frame → Prop}
  {Q : β → Frame → Prop}

theorem Machine.Answers.of_le {machine : Machine} {fewer : Nat} {ending : _}
    (h : machine.Answers fuel P ending) (hle : fewer ≤ fuel) : machine.Answers fewer P ending := by
  match ending with
  | none => exact run_eq_none_of_le h hle
  | some (.ok value, after) => exact h
  | some (.error fault, after) => exact h

/-- What a later machine comes to, a machine comes to. -/
theorem Machine.Leads.answers {machine following : Machine} {ending : _}
    (h : machine.Leads following) (hcallers : following.callers = machine.callers)
    (hframe : following.frame.Continues machine.frame)
    (hanswers : following.Answers fuel P ending) : machine.Answers fuel P ending := by
  match ending with
  | none => exact h.run_eq_none hanswers
  | some (.ok value, after) =>
      obtain ⟨last, hlast, hcontinues, hp⟩ := hanswers
      rw [hcallers] at hlast
      exact ⟨last, h.trans hlast, hcontinues.trans hframe, hp⟩
  | some (.error fault, after) =>
      obtain ⟨error, herror, hcomes⟩ := hanswers
      rw [List.foldl_cons, hcallers, hframe.abandon_eq] at hcomes
      exact ⟨error, herror, h.comesTo hcomes⟩

/-- What a machine comes to with a step more than a later machine. -/
theorem Machine.Answers.behind {machine following last : Machine} {ending : _}
    (hanswers : last.Answers fuel P ending) (hnext : machine.next = .running following)
    (h : following.Leads last) (hcallers : last.callers = machine.callers)
    (hframe : last.frame.Continues machine.frame) : machine.Answers (fuel + 1) P ending := by
  -- Only an evaluation without a result says something about the number of steps.
  have hlast := (Machine.Leads.step hnext h).answers hcallers hframe hanswers
  match ending with
  | none => exact run_succ_eq_none hnext (h.run_eq_none hanswers)
  | some (.ok value, after) => exact hlast
  | some (.error fault, after) => exact hlast

theorem Evaluation.run_bind (evaluation : Evaluation α) (next : α → Evaluation β)
    (interpreter : Interpreter) :
    (evaluation >>= next).run interpreter = match evaluation.run interpreter with
      | none => none
      | some (.ok value, after) => (next value).run after
      | some (.error fault, after) => some (.error fault, after) := by
  unfold ExceptT.run
  simp only [bind, ExceptT.bind, ExceptT.mk, StateT.bind, ExceptT.bindCont]
  cases evaluation interpreter with
  | none => rfl
  | some ending =>
      obtain ⟨result, after⟩ := ending
      cases result <;> rfl

theorem Carries.pure {value : α} (h : P value frame) : Carries fuel frame (pure value) P :=
  fun _ _ => ⟨frame, .refl _, Frame.Continues.refl frame, h⟩

/-- The machine may take further steps after it has carried out an evaluation. -/
theorem Carries.extend {evaluation : Evaluation α} (h : Carries fuel frame evaluation P)
    (hlast : ∀ value last, P value last → Carries fuel last (Pure.pure value) P') :
    Carries fuel frame evaluation P' := by
  intro interpreter callers
  match evaluation.run interpreter, h interpreter callers with
  | none, hanswers => exact hanswers
  | some (.ok value, after), hanswers =>
      obtain ⟨last, hlast', hcontinues, hp⟩ := hanswers
      exact hlast'.answers rfl hcontinues (hlast value last hp after callers)
  | some (.error fault, after), hanswers => exact hanswers

theorem Carries.of_le {evaluation : Evaluation α} {fewer : Nat}
    (h : Carries fuel frame evaluation P) (hle : fewer ≤ fuel) :
    Carries fewer frame evaluation P :=
  fun interpreter callers => (h interpreter callers).of_le hle

/-- Evaluations are carried out one after the other. -/
theorem Carries.bind {evaluation : Evaluation α} {next : α → Evaluation β}
    (h : Carries fuel frame evaluation P)
    (hnext : ∀ value last, P value last → Carries fuel last (next value) Q) :
    Carries fuel frame (evaluation >>= next) Q := by
  intro interpreter callers
  rw [Evaluation.run_bind]
  match evaluation.run interpreter, h interpreter callers with
  | none, hanswers => exact hanswers
  | some (.ok value, after), hanswers =>
      obtain ⟨middle, hmiddle, hcontinues, hp⟩ := hanswers
      exact hmiddle.answers rfl hcontinues (hnext value middle hp after callers)
  | some (.error fault, after), hanswers => exact hanswers

end

/-! ## Instructions -/

/-- An instruction does at once what an evaluation does, and goes on with a frame that depends on
what the evaluation gives. -/
def Instr.Performs {α : Type} (instr : Instr) (frame : Frame) (evaluation : Evaluation α)
    (behind : α → Frame) : Prop :=
  ∀ interpreter, ∃ result after, evaluation.run interpreter = some (result, after) ∧
    (perform { frame with pc := frame.pc + 1 } instr).run interpreter =
      (result.map fun value => Flow.proceed (behind value), after) ∧
    ∀ value, result = .ok value → (behind value).Continues frame

section

variable {α : Type} {fuel : Nat} {frame : Frame} {instr : Instr} {evaluation : Evaluation α}

/-- An instruction carries out what it performs. -/
theorem Carries.instruction {behind : α → Frame}
    (hinstr : frame.unit.code[frame.pc]? = some instr)
    (hperforms : instr.Performs frame evaluation behind) :
    Carries fuel frame evaluation fun value last => last = behind value := by
  intro interpreter callers
  obtain ⟨result, after, hrun, hperform, hcontinues⟩ := hperforms interpreter
  rw [hrun]
  cases result with
  | error fault =>
      have hnext : Machine.next ⟨interpreter, frame, callers⟩ = _ := next_of_fault hinstr hperform
      exact ⟨_, rfl, _, .refl _, hnext⟩
  | ok value =>
      have hnext : Machine.next ⟨interpreter, frame, callers⟩ = _ :=
        next_of_proceed hinstr hperform
      exact ⟨behind value, .single hnext, hcontinues value rfl, rfl⟩

/-- An instruction that changes nothing but the frame comes before an evaluation, and is one step
more. -/
theorem Carries.step {following : Frame} {P : α → Frame → Prop}
    (hinstr : frame.unit.code[frame.pc]? = some instr)
    (hperform : ∀ interpreter,
      (perform { frame with pc := frame.pc + 1 } instr).run interpreter =
        (.ok (.proceed following), interpreter))
    (hcontinues : following.Continues frame) (h : Carries fuel following evaluation P) :
    Carries (fuel + 1) frame evaluation P := by
  intro interpreter callers
  have hnext : Machine.next ⟨interpreter, frame, callers⟩ = _ :=
    next_of_proceed hinstr (hperform interpreter)
  exact (h interpreter callers).behind hnext (.refl _) rfl hcontinues

theorem Carries.after {following : Frame} {P : α → Frame → Prop}
    (hinstr : frame.unit.code[frame.pc]? = some instr)
    (hperform : ∀ interpreter,
      (perform { frame with pc := frame.pc + 1 } instr).run interpreter =
        (.ok (.proceed following), interpreter))
    (hcontinues : following.Continues frame) (h : Carries fuel following evaluation P) :
    Carries fuel frame evaluation P :=
  (Carries.step hinstr hperform hcontinues h).of_le (Nat.le_succ fuel)

/-- An instruction that fails carries out a failure. -/
theorem Carries.fault {fault : Fault} {P : α → Frame → Prop}
    (hinstr : frame.unit.code[frame.pc]? = some instr)
    (hperform : ∀ interpreter,
      (perform { frame with pc := frame.pc + 1 } instr).run interpreter =
        (.error fault, interpreter)) :
    Carries fuel frame (throw fault) P := by
  intro interpreter callers
  have hnext : Machine.next ⟨interpreter, frame, callers⟩ = _ :=
    next_of_fault hinstr (hperform interpreter)
  exact ⟨_, rfl, _, .refl _, hnext⟩

end

end FrozenScript
