import FrozenScript.Proofs.Machine.Effect
import FrozenScript.Proofs.Meaning.Activation

/-!
# What a step does to the modules

A step of a machine leaves the loaded modules alone, unless it starts the body of a module that was
not loaded, or fails. `Machine.Changes` lists the ways in which a step may touch the loaded modules
and the bodies in progress, and `next_changes` says that there are no others.
-/

namespace FrozenScript

/-- An interpreter has the modules of another one: the loaded ones, the images that may be imported,
and the number of those that were started. -/
structure Interpreter.SameModules (after before : Interpreter) : Prop where
  loaded : after.loaded = before.loaded
  frozen : after.frozen = before.frozen
  started : after.globals.size = before.globals.size

theorem Interpreter.SameModules.refl (interpreter : Interpreter) :
    interpreter.SameModules interpreter :=
  ⟨rfl, rfl, rfl⟩

/-! ## Actions -/

/-- From an interpreter an action leaves the modules alone, and what it gives has a property. -/
def KeepsModules {α : Type} (action : Action α) (interpreter : Interpreter) (P : α → Prop) : Prop :=
  (action.run interpreter).2.SameModules interpreter ∧
    ∀ value, (action.run interpreter).1 = .ok value → P value

/-- An instruction enters no body of a module. -/
def Flow.EntersNoBody : Flow → Prop
  | .enter callee _ => ∃ locals, callee.activation = .call locals
  | .proceed _ | .giveBack _ => True

/-- An import instruction imports the module with its name. -/
theorem perform_importName_of_nameAt {frame : Frame} {index : UInt32} {name : String}
    (hname : frame.unit.nameAt index = .ok name) :
    perform frame (.importName index) = importModule name frame := by
  have hperform : perform frame (.importName index) =
      liftM (frame.unit.nameAt index) >>= fun name => importModule name frame := rfl
  rw [hperform, hname]
  rfl

/-- Every instruction leaves the modules alone, unless it starts the body of one. -/
theorem perform_modules (frame : Frame) (instr : Instr) (interpreter : Interpreter) :
    KeepsModules (perform frame instr) interpreter Flow.EntersNoBody ∨
      ∃ name unit, interpreter.Starts name unit ∧ (perform frame instr).run interpreter =
        (.ok (.enter (interpreter.start name unit).2 frame), (interpreter.start name unit).1) := by
  have heffect := perform_effect frame instr interpreter
  unfold KeepsModules
  revert heffect
  generalize (perform frame instr).run interpreter = ending
  obtain ⟨result, after⟩ := ending
  intro heffect
  cases heffect with
  | none hsame henters =>
      refine .inl ⟨⟨hsame.loaded, hsame.frozen, congrArg _ hsame.globals⟩, fun flow hflow => ?_⟩
      cases flow with
      | enter callee caller => exact absurd hflow (henters callee caller)
      | proceed _ | giveBack _ => trivial
  | store =>
      refine .inl ⟨⟨rfl, rfl, Array.size_modify⟩, fun flow hflow => ?_⟩
      obtain rfl := Except.ok.inj hflow
      trivial
  | call hinstr hdepth hcallee =>
      refine .inl ⟨⟨rfl, rfl, rfl⟩, fun flow hflow => ?_⟩
      obtain rfl := Except.ok.inj hflow
      exact ⟨_, hcallee⟩
  | start hinstr hstarts => exact .inr ⟨_, _, hstarts, rfl⟩

/-! ## Bodies in progress -/

/-- The module whose body a frame is the activation of. -/
def Frame.body? (frame : Frame) : Option ScriptModule :=
  match frame.activation with
  | .body name _ => some ⟨frame.home, name⟩
  | .call _ => none

/-- The modules whose bodies are in progress, innermost first. -/
def bodies (frames : List Frame) : List ScriptModule :=
  frames.filterMap Frame.body?

/-- The module whose body the outermost frame is the activation of. -/
def base? (frames : List Frame) : Option ScriptModule :=
  frames.getLast?.bind Frame.body?

/-- The modules whose bodies a machine has in progress, innermost first. -/
def Machine.bodies (machine : Machine) : List ScriptModule :=
  FrozenScript.bodies (machine.frame :: machine.callers)

/-- The module whose body the outermost frame of a machine is the activation of. -/
def Machine.base? (machine : Machine) : Option ScriptModule :=
  FrozenScript.base? (machine.frame :: machine.callers)

/-- The body of a module is about to end. -/
structure Machine.EndsBody (machine : Machine) (module : ScriptModule) : Prop where
  body : machine.frame.body? = some module
  givesBack : ∃ value, machine.frame.GivesBack value

theorem Frame.Continues.body?_eq {after before : Frame} (h : after.Continues before) :
    after.body? = before.body? := by
  obtain ⟨-, hhome, hactivation⟩ := h
  unfold Frame.body?
  split
  next name depth hafter =>
    split
    next name' depth' hbefore =>
      rw [hafter, hbefore] at hactivation
      obtain ⟨rfl, rfl⟩ := hactivation
      rw [hhome]
    next locals hbefore =>
      rw [hafter, hbefore] at hactivation
      exact hactivation.elim
  next locals hafter =>
    split
    next name' depth' hbefore =>
      rw [hafter, hbefore] at hactivation
      exact hactivation.elim
    next => rfl

/-- What a step of a machine may do to the modules. -/
inductive Machine.Changes (machine : Machine) : Outcome → Prop where
  /-- The same bodies go on, and the modules stay as they are. -/
  | proceed {following : Machine}
      (hmodules : following.interpreter.SameModules machine.interpreter)
      (hbodies : following.bodies = machine.bodies) (hbase : following.base? = machine.base?) :
      Changes machine (.running following)
  /-- The body of a module is started, and the module is loaded. -/
  | start {following : Machine} {name : String} {unit : CodeUnit}
      (hstarts : machine.interpreter.Starts name unit)
      (hinterpreter : following.interpreter = (machine.interpreter.start name unit).1)
      (hbodies : following.bodies = ⟨machine.interpreter.globals.size, name⟩ :: machine.bodies)
      (hbase : following.base? = machine.base?) : Changes machine (.running following)
  /-- The innermost body ends. -/
  | leave {following : Machine} {module : ScriptModule} (hends : machine.EndsBody module)
      (hmodules : following.interpreter.SameModules machine.interpreter)
      (hbodies : machine.bodies = module :: following.bodies)
      (hbase : following.base? = machine.base?) : Changes machine (.running following)
  /-- The outermost frame ends. -/
  | finish {after : Interpreter} (hcallers : machine.callers = [])
      (hgives : ∃ value, machine.frame.GivesBack value)
      (hmodules : after.SameModules machine.interpreter) : Changes machine (.finished after)
  /-- Every frame is left. -/
  | fail {after : Interpreter} {error : RuntimeError}
      (hmodules : after.SameModules machine.interpreter) :
      Changes machine
        (.failed ((machine.frame :: machine.callers).foldl Interpreter.abandon after) error)

theorem bodies_cons (frame : Frame) (callers : List Frame) :
    bodies (frame :: callers) = frame.body?.toList ++ bodies callers := by
  unfold bodies
  rw [List.filterMap_cons]
  cases frame.body? <;> rfl

/-- A frame that goes on counts as before. -/
theorem Frame.Continues.bodies_eq {after before : Frame} (h : after.Continues before)
    (callers : List Frame) : bodies (after :: callers) = bodies (before :: callers) := by
  rw [bodies_cons, bodies_cons, h.body?_eq]

theorem Frame.Continues.base?_eq {after before : Frame} (h : after.Continues before)
    (callers : List Frame) : base? (after :: callers) = base? (before :: callers) := by
  cases callers with
  | nil => exact h.body?_eq
  | cons => rfl

/-- An outermost body is in progress. -/
theorem mem_bodies_of_base? {frames : List Frame} {module : ScriptModule}
    (h : base? frames = some module) : module ∈ bodies frames := by
  obtain ⟨frame, hlast, hbody⟩ := Option.bind_eq_some_iff.mp h
  exact List.mem_filterMap.mpr ⟨frame, List.mem_of_getLast? hlast, hbody⟩

theorem push_continues (frame : Frame) (value : Value) : (frame.push value).Continues frame :=
  (Frame.Continues.refl frame).withStack _

/-- Leaving a frame ends its body if it has one, and touches no module. -/
theorem leave_changes {machine : Machine} {value : Value} {after : Interpreter}
    (hgives : machine.frame.GivesBack value) (hmodules : after.SameModules machine.interpreter) :
    machine.Changes (Machine.leave ⟨after, machine.frame, machine.callers⟩ value) := by
  unfold Machine.leave
  dsimp only
  cases hcallers : machine.callers with
  | nil =>
      refine .finish hcallers ⟨value, hgives⟩ ?_
      split <;> exact ⟨hmodules.loaded, hmodules.frozen, hmodules.started⟩
  | cons caller callers =>
      have hbodies : machine.bodies = machine.frame.body?.toList ++ bodies (caller :: callers) := by
        rw [Machine.bodies, hcallers, bodies_cons]
      have hbase : machine.base? = base? (caller :: callers) := by
        rw [Machine.base?, hcallers]
        rfl
      have hpush (pushed : Value) := push_continues caller pushed
      cases hactivation : machine.frame.activation with
      | call locals =>
          have hbody : machine.frame.body? = none := by
            unfold Frame.body?
            rw [hactivation]
          rw [hbody] at hbodies
          refine .proceed ⟨hmodules.loaded, hmodules.frozen, hmodules.started⟩ ?_ ?_
          · exact ((hpush _).bodies_eq _).trans hbodies.symm
          · exact ((hpush _).base?_eq _).trans hbase.symm
      | body name depth =>
          have hbody : machine.frame.body? = some ⟨machine.frame.home, name⟩ := by
            unfold Frame.body?
            rw [hactivation]
          rw [hbody] at hbodies
          refine .leave ⟨hbody, value, hgives⟩
            ⟨hmodules.loaded, hmodules.frozen, hmodules.started⟩ ?_ ?_
          · exact hbodies.trans (congrArg _ ((hpush _).bodies_eq _).symm)
          · exact ((hpush _).base?_eq _).trans hbase.symm

/-- A step does nothing else to the modules. -/
theorem next_changes (machine : Machine) : machine.Changes machine.next := by
  cases hinstr : machine.frame.unit.code[machine.frame.pc]? with
  | none =>
      rw [next_of_none hinstr]
      exact .fail (.refl _)
  | some instr =>
  rw [next_of_instr hinstr]
  have hsame : Frame.Continues { machine.frame with pc := machine.frame.pc + 1 } machine.frame :=
    ⟨rfl, rfl, Activation.SameKind.refl _⟩
  have hfollows := perform_follows { machine.frame with pc := machine.frame.pc + 1 } instr
    machine.interpreter
  obtain ⟨hmodules, hflow⟩ | ⟨name, unit, hstarts, hrun⟩ :=
    perform_modules { machine.frame with pc := machine.frame.pc + 1 } instr machine.interpreter
  · split
    next fault after hrun =>
      rw [hrun] at hmodules
      exact .fail hmodules
    next following after hrun =>
      rw [hrun] at hmodules
      have hcontinues : following.Continues _ := hfollows _ _ hrun
      have hcontinues := hcontinues.trans hsame
      exact .proceed hmodules (hcontinues.bodies_eq _) (hcontinues.base?_eq _)
    next callee caller after hrun =>
      rw [hrun] at hmodules hflow
      obtain ⟨locals, hcall⟩ := hflow _ rfl
      obtain ⟨-, hcontinues⟩ := hfollows _ _ hrun
      have hcontinues := hcontinues.trans hsame
      refine .proceed hmodules ?_ (hcontinues.base?_eq _)
      have hbody : callee.body? = none := by
        unfold Frame.body?
        rw [hcall]
      rw [Machine.bodies, bodies_cons, hbody]
      exact hcontinues.bodies_eq _
    next value after hrun =>
      rw [hrun] at hmodules
      obtain ⟨rfl, hstack⟩ := hfollows _ _ hrun
      exact leave_changes ⟨hinstr, hstack⟩ hmodules
  · rw [hrun]
    refine .start hstarts rfl ?_ (hsame.base?_eq _)
    rw [Machine.bodies, bodies_cons]
    exact congrArg _ (hsame.bodies_eq _)

/-- Leaving frames unloads the modules whose bodies were in progress, and no others. -/
theorem loaded_foldl_abandon (frames : List Frame) (interpreter : Interpreter) (name : String) :
    (frames.foldl Interpreter.abandon interpreter).loaded.get? name =
      if name ∈ (bodies frames).map ScriptModule.name then none
      else interpreter.loaded.get? name := by
  induction frames generalizing interpreter with
  | nil => rfl
  | cons frame frames ih =>
      rw [List.foldl_cons, ih, bodies_cons]
      unfold Interpreter.abandon Frame.body?
      cases frame.activation with
      | call locals => rfl
      | body other depth =>
          dsimp only
          rw [Table.get?_erase]
          by_cases hname : other = name
          · simp [hname]
          · simp [hname, Ne.symm hname]

end FrozenScript
