import FrozenScript.Machine.Run

/-!
# Steps and runs of machines

A step of a machine is what the instruction of its frame does (`next_of_instr`). Steps that follow
one another lead to later machines, and runs are such steps up to an ending.
-/

namespace FrozenScript

/-! ## Actions -/

theorem Action.run_bind {α β : Type} (action : Action α) (next : α → Action β)
    (interpreter : Interpreter) :
    (action >>= next).run interpreter = match action.run interpreter with
      | (.ok value, after) => (next value).run after
      | (.error fault, after) => (.error fault, after) := by
  unfold ExceptT.run
  simp only [bind, ExceptT.bind, ExceptT.mk, StateT.bind, ExceptT.bindCont]
  cases action interpreter with
  | mk result after => cases result <;> rfl

theorem Action.run_get_bind {α : Type} (next : Interpreter → Action α) (interpreter : Interpreter) :
    (get >>= next).run interpreter = (next interpreter).run interpreter :=
  rfl

/-! ## Steps -/

section

variable {machine : Machine} {instr : Instr} {after : Interpreter}

/-- A step of a machine that is at an instruction. -/
theorem next_of_instr (hinstr : machine.frame.unit.code[machine.frame.pc]? = some instr) :
    machine.next =
      match (perform { machine.frame with pc := machine.frame.pc + 1 } instr).run
        machine.interpreter with
      | (.error fault, after) => Machine.fail ⟨after, machine.frame, machine.callers⟩
        ⟨machine.frame.unit.file, machine.frame.unit.lineAt machine.frame.pc, fault⟩
      | (.ok (.proceed following), after) => .running ⟨after, following, machine.callers⟩
      | (.ok (.enter callee caller), after) => .running ⟨after, callee, caller :: machine.callers⟩
      | (.ok (.giveBack value), after) =>
        Machine.leave ⟨after, machine.frame, machine.callers⟩ value := by
  unfold Machine.next
  dsimp only
  cases hfound : machine.frame.unit.code[machine.frame.pc]? with
  | none => exact nomatch hfound.symm.trans hinstr
  | some found =>
      obtain rfl : found = instr := Option.some.inj (hfound.symm.trans hinstr)
      rfl

theorem next_of_none (hnone : machine.frame.unit.code[machine.frame.pc]? = none) :
    machine.next = machine.fail ⟨machine.frame.unit.file,
      machine.frame.unit.lineAt (machine.frame.pc - 1),
      .badCode (.ranPast machine.frame.unit.name)⟩ := by
  unfold Machine.next
  dsimp only
  rw [hnone]

theorem next_of_proceed {following : Frame}
    (hinstr : machine.frame.unit.code[machine.frame.pc]? = some instr)
    (hperform : (perform { machine.frame with pc := machine.frame.pc + 1 } instr).run
      machine.interpreter = (.ok (.proceed following), after)) :
    machine.next = .running ⟨after, following, machine.callers⟩ := by
  rw [next_of_instr hinstr, hperform]

theorem next_of_enter {callee caller : Frame}
    (hinstr : machine.frame.unit.code[machine.frame.pc]? = some instr)
    (hperform : (perform { machine.frame with pc := machine.frame.pc + 1 } instr).run
      machine.interpreter = (.ok (.enter callee caller), after)) :
    machine.next = .running ⟨after, callee, caller :: machine.callers⟩ := by
  rw [next_of_instr hinstr, hperform]

theorem next_of_giveBack {value : Value}
    (hinstr : machine.frame.unit.code[machine.frame.pc]? = some instr)
    (hperform : (perform { machine.frame with pc := machine.frame.pc + 1 } instr).run
      machine.interpreter = (.ok (.giveBack value), after)) :
    machine.next = Machine.leave ⟨after, machine.frame, machine.callers⟩ value := by
  rw [next_of_instr hinstr, hperform]

theorem next_of_fault {fault : Fault}
    (hinstr : machine.frame.unit.code[machine.frame.pc]? = some instr)
    (hperform : (perform { machine.frame with pc := machine.frame.pc + 1 } instr).run
      machine.interpreter = (.error fault, after)) :
    machine.next = Machine.fail ⟨after, machine.frame, machine.callers⟩
      ⟨machine.frame.unit.file, machine.frame.unit.lineAt machine.frame.pc, fault⟩ := by
  rw [next_of_instr hinstr, hperform]

end

/-! ## Runs -/

/-- The steps of a machine lead to another one. -/
inductive Machine.Leads : Machine → Machine → Prop where
  | refl (machine : Machine) : Leads machine machine
  | step {machine following last : Machine} (hnext : machine.next = .running following)
      (h : Leads following last) : Leads machine last

/-- The machine after some steps, if none of them ends the run. -/
def Machine.after : (steps : Nat) → Machine → Option Machine
  | 0, machine => some machine
  | steps + 1, machine =>
    match machine.next with
    | .running following => after steps following
    | .finished _ | .failed _ _ => none

theorem Machine.leads_of_after {steps : Nat} {machine last : Machine}
    (h : machine.after steps = some last) : machine.Leads last := by
  induction steps generalizing machine with
  | zero =>
      obtain rfl := Option.some.inj h
      exact .refl machine
  | succ steps ih =>
      rw [after] at h
      split at h
      next following hnext => exact .step hnext (ih h)
      next => exact nomatch h
      next => exact nomatch h

/-- The steps of a machine come to an outcome. -/
def Machine.ComesTo (machine : Machine) (outcome : Outcome) : Prop :=
  ∃ last : Machine, machine.Leads last ∧ last.next = outcome

section

variable {machine following last : Machine} {outcome : Outcome} {steps : Nat}

theorem Machine.Leads.single (hnext : machine.next = .running following) :
    machine.Leads following :=
  .step hnext (.refl following)

theorem Machine.Leads.trans (h : machine.Leads following) (h' : following.Leads last) :
    machine.Leads last := by
  induction h with
  | refl => exact h'
  | step hnext _ ih => exact .step hnext (ih h')

theorem Machine.Leads.comesTo (h : machine.Leads following) (h' : following.ComesTo outcome) :
    machine.ComesTo outcome := by
  obtain ⟨last, hlast, hnext⟩ := h'
  exact ⟨last, h.trans hlast, hnext⟩

theorem Machine.ComesTo.leads (h : machine.ComesTo (.running following)) :
    machine.Leads following := by
  obtain ⟨last, hlast, hnext⟩ := h
  exact hlast.trans (.single hnext)

theorem run_eq_none_of_le {fewer : Nat} (h : machine.run steps = none) (hle : fewer ≤ steps) :
    machine.run fewer = none := by
  cases hfewer : machine.run fewer with
  | none => rfl
  | some ending =>
      have hsteps := Machine.run_mono hfewer (steps - fewer)
      rw [Nat.add_sub_cancel' hle, h] at hsteps
      exact nomatch hsteps

theorem run_succ_eq_none (hnext : machine.next = .running following)
    (h : following.run steps = none) : machine.run (steps + 1) = none := by
  rw [Machine.run, hnext]
  exact h

theorem Machine.Leads.run_eq_none (h : machine.Leads following)
    (hnone : following.run steps = none) : machine.run steps = none := by
  induction h with
  | refl => exact hnone
  | step hnext _ ih => exact run_eq_none_of_le (run_succ_eq_none hnext (ih hnone)) (Nat.le_succ _)

/-- What the steps of a machine end with is the ending of a run. -/
theorem Machine.Leads.exists_run {ending : Ending} (h : machine.Leads last)
    (hlast : last.run 1 = some ending) : ∃ steps, machine.run steps = some ending := by
  induction h with
  | refl => exact ⟨1, hlast⟩
  | step hnext _ ih =>
      obtain ⟨steps, hrun⟩ := ih hlast
      refine ⟨steps + 1, ?_⟩
      rw [Machine.run, hnext]
      exact hrun

end

end FrozenScript
