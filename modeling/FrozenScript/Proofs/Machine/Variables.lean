import FrozenScript.Proofs.Machine.Session

/-!
# Who writes the variables of a module

A variable of a module is stored by the body of the module and by nothing else (`stores_of_next`).
A body runs once, so the variables of a module stay as they are when its body is over, however it
ended (`Over.later`), and a call of a function writes only variables of modules that were started
during the call (`InCall.step`).
-/

namespace FrozenScript

/-- A machine is in the body of a module, at an instruction that stores a variable. -/
structure Machine.Stores (machine : Machine) (module : Nat) : Prop where
  instr : ∃ index, machine.frame.unit.code[machine.frame.pc]? = some (.storeName index)
  body : ∃ name, machine.frame.body? = some ⟨module, name⟩

/-- A step of a machine starts the body of a module that was not loaded. -/
def Machine.Imports (machine : Machine) (module : ScriptModule) : Prop :=
  module.id = machine.interpreter.globals.size ∧ ∃ unit following,
    machine.interpreter.Starts module.name unit ∧ machine.next = .running following ∧
      following.interpreter = (machine.interpreter.start module.name unit).1

/-- A step of a machine enters a function of a script, and the frame that called it waits. -/
structure Machine.Calls (machine entered : Machine) : Prop where
  instr : ∃ argCount, machine.frame.unit.code[machine.frame.pc]? = some (.call argCount)
  next : machine.next = .running entered
  waits : ∃ caller, entered.callers = caller :: machine.callers

/-! ## Steps -/

theorem globals_foldl_abandon (frames : List Frame) (interpreter : Interpreter) :
    (frames.foldl Interpreter.abandon interpreter).globals = interpreter.globals := by
  induction frames generalizing interpreter with
  | nil => rfl
  | cons frame frames ih =>
      rw [List.foldl_cons, ih]
      unfold Interpreter.abandon
      split <;> rfl

/-- Leaving a frame writes no variable of a module. -/
theorem globals_leave (machine : Machine) (value : Value) :
    (Session.ofOutcome (machine.leave value)).interpreter.globals =
      machine.interpreter.globals := by
  unfold Machine.leave
  dsimp only
  cases machine.callers <;> cases machine.frame.activation <;> rfl

/-- A frame that is left does not wait any more. -/
theorem callers_leave {machine following : Machine} {value : Value}
    (h : machine.leave value = .running following) :
    ∃ caller, machine.callers = caller :: following.callers := by
  unfold Machine.leave at h
  dsimp only at h
  cases hcallers : machine.callers with
  | nil => rw [hcallers] at h; exact nomatch h
  | cons caller callers =>
      rw [hcallers] at h
      obtain rfl := Outcome.running.inj h
      exact ⟨caller, rfl⟩

/-- The variables of a module change only when the body of the module stores one. -/
theorem stores_of_next {machine : Machine} {module : Nat}
    (hmodule : module < machine.interpreter.globals.size)
    (hchange : (Session.ofOutcome machine.next).interpreter.globals[module]? ≠
      machine.interpreter.globals[module]?) :
    machine.Stores module ∧
      ∃ following, machine.next = .running following ∧ following.callers = machine.callers := by
  have hkept {after : Interpreter} (hglobals : after.globals = machine.interpreter.globals) :
      after.globals[module]? = machine.interpreter.globals[module]? := by rw [hglobals]
  cases hinstr : machine.frame.unit.code[machine.frame.pc]? with
  | none =>
      rw [next_of_none hinstr] at hchange
      exact absurd (hkept (globals_foldl_abandon _ _)) hchange
  | some instr =>
  obtain ⟨result, after, heffect, hnext⟩ := next_effect hinstr
  rw [hnext] at hchange ⊢
  cases heffect with
  | none hsame henters =>
      refine absurd ?_ hchange
      match result, henters with
      | .error fault, _ => exact hkept ((globals_foldl_abandon _ _).trans hsame.globals)
      | .ok (.proceed following), _ => exact hkept hsame.globals
      | .ok (.giveBack value), _ => exact hkept ((globals_leave _ _).trans hsame.globals)
      | .ok (.enter callee caller), henters => exact absurd rfl (henters callee caller)
  | @store index name _ depth _ _ hstore hbody =>
      by_cases hhome : machine.frame.home = module
      · have hframe : machine.frame.body? = some ⟨module, name⟩ := by
          unfold Frame.body?
          rw [show machine.frame.activation = .body name depth from hbody, hhome]
        exact ⟨⟨⟨index, hinstr.trans (congrArg some hstore)⟩, name, hframe⟩, _, rfl, rfl⟩
      · exact absurd ((Array.getElem?_modify ..).trans (if_neg hhome)) hchange
  | call => exact absurd (hkept rfl) hchange
  | start =>
      have hpushed : (machine.interpreter.globals.push [])[module]? = _ :=
        Array.getElem?_push_lt hmodule
      exact absurd (hpushed.trans (Array.getElem?_eq_getElem hmodule).symm) hchange

/-- Entering a function writes no variable of a module and starts no body. -/
theorem Machine.Calls.effect {machine entered : Machine} (h : machine.Calls entered) :
    entered.interpreter.globals = machine.interpreter.globals ∧ entered.frame.body? = none := by
  obtain ⟨⟨argCount, hinstr⟩, hnext, caller, hwaits⟩ := h
  have hlonger := congrArg List.length hwaits
  rw [List.length_cons] at hlonger
  obtain ⟨result, after, heffect, heq⟩ := next_effect hinstr
  rw [heq] at hnext
  cases heffect with
  | none hsame henters =>
      match result, henters, hnext with
      | .ok (.proceed following), _, hnext =>
          obtain rfl := Outcome.running.inj hnext
          exact absurd hlonger (Nat.ne_of_lt (Nat.lt_succ_self _))
      | .ok (.giveBack value), _, hnext =>
          obtain ⟨_, hcallers⟩ := callers_leave hnext
          have hshorter := congrArg List.length hcallers
          rw [List.length_cons] at hshorter
          dsimp only at hshorter
          omega
      | .ok (.enter callee caller), henters, _ => exact absurd rfl (henters callee caller)
  | call hcall hdepth hcallee =>
      obtain rfl := Outcome.running.inj hnext
      refine ⟨rfl, ?_⟩
      unfold Frame.body?
      rw [hcallee]
  | store hstore => exact nomatch hstore
  | start hstart => exact nomatch hstart

/-! ## Bodies that are over -/

/-- The body of a module was started and is not in progress any more. -/
structure Session.Over (session : Session) (module : Nat) : Prop where
  started : module < session.interpreter.globals.size
  ended : ∀ body ∈ session.bodies, body.id ≠ module

theorem Machine.mem_bodies {machine : Machine} {body : ScriptModule}
    (h : machine.frame.body? = some body) : body ∈ machine.bodies := by
  rw [Machine.bodies, bodies_cons, h]
  exact List.mem_append_left _ List.mem_cons_self

theorem size_globals_start (interpreter : Interpreter) (name : String) (unit : CodeUnit) :
    (interpreter.start name unit).1.globals.size = interpreter.globals.size + 1 :=
  Array.size_push _

/-- A step of a machine forgets no module. -/
theorem size_globals_next (machine : Machine) :
    machine.interpreter.globals.size ≤
      (Session.ofOutcome machine.next).interpreter.globals.size := by
  have hchanges := next_changes machine
  generalize machine.next = outcome at hchanges
  cases hchanges with
  | proceed hmodules | leave hends hmodules | finish hcallers hgives hmodules =>
      exact Nat.le_of_eq hmodules.started.symm
  | @start following name unit hstarts hinterpreter =>
      show _ ≤ following.interpreter.globals.size
      rw [hinterpreter, size_globals_start]
      exact Nat.le_succ _
  | fail hmodules =>
      refine Nat.le_of_eq (hmodules.started.symm.trans ?_)
      exact congrArg Array.size (globals_foldl_abandon _ _).symm

/-- A body that is in progress after a step was in progress before, or its module is a new one. -/
theorem mem_bodies_next {machine : Machine} {body : ScriptModule}
    (h : body ∈ (Session.ofOutcome machine.next).bodies) :
    body ∈ machine.bodies ∨ body.id = machine.interpreter.globals.size := by
  have hchanges := next_changes machine
  generalize machine.next = outcome at h hchanges
  cases hchanges with
  | proceed hmodules hbodies => exact .inl (hbodies ▸ h)
  | @start following name unit hstarts hinterpreter hbodies =>
      have hmem : body ∈ following.bodies := h
      rw [hbodies] at hmem
      rcases List.mem_cons.mp hmem with rfl | hmem
      · exact .inr rfl
      · exact .inl hmem
  | leave hends hmodules hbodies => exact .inl (hbodies ▸ List.mem_cons_of_mem _ h)
  | finish | fail => exact absurd h List.not_mem_nil

/-- When a body is over, its module keeps its variables. -/
theorem Session.Over.step {session following : Session} {module : Nat} (h : session.Over module)
    (hstep : Session.Step session following) :
    following.Over module ∧
      following.interpreter.globals[module]? = session.interpreter.globals[module]? := by
  obtain ⟨hstarted, hended⟩ := h
  cases hstep with
  | withFrozen interpreter frozen => exact ⟨⟨hstarted, hended⟩, rfl⟩
  | run interpreter name unit =>
      have hpushed : (interpreter.globals.push [])[module]? = _ := Array.getElem?_push_lt hstarted
      refine ⟨⟨?_, fun body hbody => ?_⟩, ?_⟩
      · show module < (interpreter.start name unit).1.globals.size
        rw [size_globals_start]
        exact Nat.lt_succ_of_lt hstarted
      · obtain rfl := List.mem_singleton.mp hbody
        exact (Nat.ne_of_lt hstarted).symm
      · exact hpushed.trans (Array.getElem?_eq_getElem hstarted).symm
  | next machine =>
      refine ⟨⟨Nat.lt_of_lt_of_le hstarted (size_globals_next machine), fun body hbody => ?_⟩, ?_⟩
      · rcases mem_bodies_next hbody with hbefore | hnew
        · exact hended body hbefore
        · exact fun hmodule => Nat.ne_of_lt hstarted (hmodule.symm.trans hnew)
      · refine Classical.byContradiction fun hchange => ?_
        obtain ⟨⟨_, name, hbody⟩, _⟩ := stores_of_next hstarted hchange
        exact hended _ (Machine.mem_bodies hbody) rfl

theorem Session.Over.later {session later : Session} {module : Nat} (h : session.Over module)
    (hlater : Session.Later session later) :
    later.interpreter.globals[module]? = session.interpreter.globals[module]? := by
  suffices hboth : later.Over module ∧
      later.interpreter.globals[module]? = session.interpreter.globals[module]? from hboth.2
  induction hlater with
  | refl => exact ⟨h, rfl⟩
  | tail _ hstep ih =>
      obtain ⟨hover, hkept⟩ := ih
      obtain ⟨hover, hstep⟩ := hover.step hstep
      exact ⟨hover, hstep.trans hkept⟩

/-! ## Bodies that end -/

/-- The bodies in progress were started one after the other, the innermost one last. -/
def Machine.Ordered (machine : Machine) : Prop :=
  (machine.interpreter.globals.size :: machine.bodies.map ScriptModule.id).Pairwise (· > ·)

theorem Machine.Ordered.next {machine following : Machine} (h : machine.Ordered)
    (hnext : machine.next = .running following) : following.Ordered := by
  have hchanges := next_changes machine
  rw [hnext] at hchanges
  unfold Machine.Ordered at h ⊢
  cases hchanges with
  | proceed hmodules hbodies =>
      rw [hmodules.started, hbodies]
      exact h
  | start hstarts hinterpreter hbodies =>
      rw [hinterpreter, size_globals_start, hbodies, List.map_cons]
      refine List.pairwise_cons.mpr ⟨fun id hid => ?_, h⟩
      rcases List.mem_cons.mp hid with rfl | hid
      · exact Nat.lt_succ_self _
      · exact Nat.lt_succ_of_lt ((List.pairwise_cons.mp h).1 id hid)
  | leave hends hmodules hbodies =>
      rw [hbodies, List.map_cons] at h
      rw [hmodules.started]
      exact h.sublist ((List.sublist_cons_self _ _).cons_cons _)

theorem Machine.Leads.ordered {interpreter : Interpreter} {name : String} {unit : CodeUnit}
    {machine : Machine} (h : (interpreter.machine name unit).Leads machine) : machine.Ordered := by
  have hfirst : (interpreter.machine name unit).Ordered := by
    refine List.pairwise_cons.mpr ⟨fun id hid => ?_, List.pairwise_singleton _ _⟩
    obtain rfl := List.mem_singleton.mp hid
    show _ > interpreter.globals.size
    rw [show (interpreter.machine name unit).interpreter.globals.size =
      interpreter.globals.size + 1 from size_globals_start interpreter name unit]
    exact Nat.lt_succ_self _
  generalize interpreter.machine name unit = first at h hfirst
  induction h with
  | refl => exact hfirst
  | step hnext _ ih => exact ih (hfirst.next hnext)

/-- A body ends alone, when it gives back its module, or with all others, when the call is over. -/
theorem ended_cases {machine : Machine} {module : ScriptModule} (hbefore : module ∈ machine.bodies)
    (hafter : module ∉ (Session.ofOutcome machine.next).bodies) :
    (machine.EndsBody module ∧
        machine.bodies = module :: (Session.ofOutcome machine.next).bodies) ∨
      ∃ after, Session.ofOutcome machine.next = .idle after := by
  have hchanges := next_changes machine
  generalize machine.next = outcome at hafter hchanges ⊢
  cases hchanges with
  | @proceed following _ hbodies =>
      have hmem : module ∈ following.bodies := hbodies ▸ hbefore
      exact absurd hmem hafter
  | @start following _ _ _ _ hbodies =>
      have hmem : module ∈ following.bodies := hbodies ▸ List.mem_cons_of_mem _ hbefore
      exact absurd hmem hafter
  | leave hends hmodules hbodies =>
      rcases List.mem_cons.mp (hbodies ▸ hbefore) with rfl | hmem
      · exact .inl ⟨hends, hbodies⟩
      · exact absurd hmem hafter
  | finish | fail => exact .inr ⟨_, rfl⟩

/-- The step that ends a body, whether it succeeds or fails, writes no variable of its module. -/
theorem over_of_ended {machine : Machine} {module : ScriptModule} (h : machine.Ordered)
    (hbefore : module ∈ machine.bodies)
    (hafter : module ∉ (Session.ofOutcome machine.next).bodies) :
    (Session.ofOutcome machine.next).Over module.id ∧
      (Session.ofOutcome machine.next).interpreter.globals[module.id]? =
        machine.interpreter.globals[module.id]? := by
  obtain ⟨hnewest, hordered⟩ := List.pairwise_cons.mp h
  have hstarted : module.id < machine.interpreter.globals.size :=
    hnewest _ (List.mem_map_of_mem hbefore)
  have hends := ended_cases hbefore hafter
  refine ⟨⟨Nat.lt_of_lt_of_le hstarted (size_globals_next machine), fun body hbody => ?_⟩,
    Classical.byContradiction fun hchange => ?_⟩
  · rcases hends with ⟨-, hbodies⟩ | ⟨after, hidle⟩
    · rw [hbodies] at hordered
      exact Nat.ne_of_lt ((List.pairwise_cons.mp hordered).1 _ (List.mem_map_of_mem hbody))
    · rw [hidle] at hbody
      exact absurd hbody List.not_mem_nil
  · obtain ⟨⟨⟨index, hinstr⟩, _⟩, following, hnext, _⟩ := stores_of_next hstarted hchange
    rcases hends with ⟨⟨-, value, hgives, -⟩, -⟩ | ⟨after, hidle⟩
    · exact nomatch hgives.symm.trans hinstr
    · rw [hnext] at hidle
      exact nomatch hidle

/-- Between calls every body is over. -/
theorem over_idle {interpreter : Interpreter} {module : Nat}
    (h : module < interpreter.globals.size) : (Session.idle interpreter).Over module :=
  ⟨h, nofun⟩

/-! ## Calls of functions -/

/-- A step of a machine while some frames wait. -/
inductive Session.StepAbove (waiting : List Frame) : Session → Session → Prop where
  | next {machine : Machine} (hwaits : waiting <:+ machine.callers) :
      StepAbove waiting (.busy machine) (.ofOutcome machine.next)

/-- What happens while some frames wait, up to the step with which they stop waiting. -/
abbrev Session.During (waiting : List Frame) : Session → Session → Prop :=
  Relation.ReflTransGen (StepAbove waiting)

/-- A function was entered from an interpreter, and its call is not over or was just left. -/
structure InCall (before : Interpreter) (entered : Machine) (session : Session) : Prop where
  kept : ∀ module < before.globals.size,
    session.interpreter.globals[module]? = before.globals[module]?
  grown : before.globals.size ≤ session.interpreter.globals.size
  imported : ∀ module, before.globals.size ≤ module → module < session.interpreter.globals.size →
    ∃ importing name, Session.During entered.callers (.busy entered) (.busy importing) ∧
      entered.callers <:+ importing.callers ∧ importing.Imports ⟨module, name⟩
  /-- The bodies above the frames that wait were started by the call. -/
  fresh : ∀ machine above, session = .busy machine → machine.callers = above ++ entered.callers →
    ∀ body ∈ FrozenScript.bodies (machine.frame :: above), before.globals.size ≤ body.id

theorem bodies_append (frames callers : List Frame) :
    bodies (frames ++ callers) = bodies frames ++ bodies callers :=
  List.filterMap_append

theorem Machine.bodies_of_callers {machine : Machine} {above waiting : List Frame}
    (h : machine.callers = above ++ waiting) :
    machine.bodies =
      FrozenScript.bodies (machine.frame :: above) ++ FrozenScript.bodies waiting := by
  rw [Machine.bodies, h, ← List.cons_append, bodies_append]

theorem Machine.Calls.inCall {machine entered : Machine} (h : machine.Calls entered) :
    InCall machine.interpreter entered (.busy entered) := by
  obtain ⟨hglobals, hbody⟩ := h.effect
  refine ⟨fun module _ => ?_, ?_, fun module hfresh hsize => ?_, ?_⟩
  · show entered.interpreter.globals[module]? = _
    rw [hglobals]
  · exact Nat.le_of_eq (congrArg Array.size hglobals.symm)
  · exact absurd (Nat.lt_of_lt_of_eq hsize (congrArg Array.size hglobals)) (Nat.not_lt.mpr hfresh)
  · rintro _ above ⟨⟩ habove body hmem
    obtain rfl : above = [] := List.self_eq_append_left.mp habove
    rw [bodies_cons, hbody] at hmem
    exact absurd hmem List.not_mem_nil

/-- A step that adds a module starts its body. -/
theorem imports_of_next {machine : Machine} {module : Nat}
    (hlater : machine.interpreter.globals.size ≤ module)
    (hnew : module < (Session.ofOutcome machine.next).interpreter.globals.size) :
    ∃ name, machine.Imports ⟨module, name⟩ := by
  have hchanges := next_changes machine
  generalize hnext : machine.next = outcome at hnew hchanges
  cases hchanges with
  | proceed hmodules | leave hends hmodules | finish hcallers hgives hmodules =>
      exact absurd (Nat.lt_of_lt_of_eq hnew hmodules.started) (Nat.not_lt.mpr hlater)
  | @start following name unit hstarts hinterpreter =>
      have hsize : module < following.interpreter.globals.size := hnew
      rw [hinterpreter, size_globals_start] at hsize
      obtain rfl := Nat.le_antisymm (Nat.le_of_lt_succ hsize) hlater
      exact ⟨name, rfl, unit, following, hstarts, hnext, hinterpreter⟩
  | fail hmodules =>
      have hsize := Nat.lt_of_lt_of_eq hnew (congrArg Array.size (globals_foldl_abandon _ _))
      exact absurd (Nat.lt_of_lt_of_eq hsize hmodules.started) (Nat.not_lt.mpr hlater)

/-- A body above some frames that wait was above them before, or its module is a new one. -/
theorem mem_bodies_above_next {machine following : Machine} {above above' waiting : List Frame}
    {body : ScriptModule} (hnext : machine.next = .running following)
    (habove : machine.callers = above ++ waiting) (habove' : following.callers = above' ++ waiting)
    (hbody : body ∈ bodies (following.frame :: above')) :
    body ∈ bodies (machine.frame :: above) ∨ body.id = machine.interpreter.globals.size := by
  have hbodies := Machine.bodies_of_callers habove
  have hbodies' := Machine.bodies_of_callers habove'
  have hchanges := next_changes machine
  rw [hnext] at hchanges
  cases hchanges with
  | proceed hmodules hsame =>
      rw [hbodies, hbodies'] at hsame
      exact .inl (List.append_cancel_right hsame ▸ hbody)
  | start hstarts hinterpreter hstarted =>
      rw [hbodies, hbodies', ← List.cons_append] at hstarted
      rw [List.append_cancel_right hstarted] at hbody
      rcases List.mem_cons.mp hbody with rfl | hmem
      · exact .inr rfl
      · exact .inl hmem
  | leave hends hmodules hleft =>
      rw [hbodies, hbodies', ← List.cons_append] at hleft
      rw [List.append_cancel_right hleft]
      exact .inl (List.mem_cons_of_mem _ hbody)

/-- While a call goes on, only variables of modules change that it started. -/
theorem InCall.step {before : Interpreter} {entered : Machine} {session following : Session}
    (hreached : Session.During entered.callers (.busy entered) session)
    (h : InCall before entered session)
    (hstep : Session.StepAbove entered.callers session following) :
    InCall before entered following := by
  cases hstep with
  | @next machine hwaits =>
  obtain ⟨above, habove⟩ := hwaits
  have hfresh := h.fresh machine above rfl habove.symm
  refine ⟨fun module hmodule => ?_, Nat.le_trans h.grown (size_globals_next machine),
    fun module hold hnew => ?_, fun next above' hbusy habove' body hbody => ?_⟩
  · refine (Classical.byContradiction fun hchange => ?_ : _ = _).trans (h.kept module hmodule)
    obtain ⟨⟨_, name, hframe⟩, _⟩ := stores_of_next (Nat.lt_of_lt_of_le hmodule h.grown) hchange
    have hmem : ⟨module, name⟩ ∈ bodies (machine.frame :: above) := by
      rw [bodies_cons, hframe]
      exact List.mem_cons_self
    exact Nat.not_lt.mpr (hfresh _ hmem) hmodule
  · rcases Nat.lt_or_ge module machine.interpreter.globals.size with hearlier | hlater
    · exact h.imported module hold hearlier
    · obtain ⟨name, himports⟩ := imports_of_next hlater hnew
      exact ⟨machine, name, hreached, ⟨above, habove⟩, himports⟩
  · cases houtcome : machine.next with
    | running following =>
        rw [houtcome] at hbusy
        obtain rfl := Session.busy.inj hbusy
        rcases mem_bodies_above_next houtcome habove.symm habove' hbody with hbefore | hnew
        · exact hfresh body hbefore
        · exact hnew ▸ h.grown
    | finished after | failed after error =>
        rw [houtcome] at hbusy
        exact nomatch hbusy

theorem Machine.Calls.during {machine entered : Machine} {session : Session}
    (h : machine.Calls entered)
    (hduring : Session.During entered.callers (.busy entered) session) :
    InCall machine.interpreter entered session := by
  induction hduring with
  | refl => exact h.inCall
  | tail hreached hstep ih => exact ih.step hreached hstep

/-! ## The variables of modules -/

/-- Variables of a module change only when the body of the module stores one of them, whatever code
there is. So when a body is over, whether it succeeded or failed, its module keeps its variables:
whatever is done with the interpreter later, they are those that the body left. The call of a
function changes only variables of modules that an import starts during the call, and a whole call
of the interpreter changes none of the modules that were there before. -/
theorem variables_written_by_body {interpreter : Interpreter} {name : String} {unit : CodeUnit}
    {machine : Machine} (h : (interpreter.machine name unit).Leads machine) :
    (∀ module < machine.interpreter.globals.size,
      (Session.ofOutcome machine.next).interpreter.globals[module]? ≠
        machine.interpreter.globals[module]? → machine.Stores module) ∧
    (∀ module ∈ machine.bodies, module ∉ (Session.ofOutcome machine.next).bodies →
      ∀ later, Session.Later (.ofOutcome machine.next) later →
        later.interpreter.globals[module.id]? = machine.interpreter.globals[module.id]?) ∧
    (∀ entered session, machine.Calls entered →
      Session.During entered.callers (.busy entered) session →
      ∀ module, session.interpreter.globals[module]? ≠ machine.interpreter.globals[module]? →
        ∃ importing name, Session.During entered.callers (.busy entered) (.busy importing) ∧
          entered.callers <:+ importing.callers ∧ importing.Imports ⟨module, name⟩) ∧
    (∀ steps other code image after result,
      interpreter.run steps other code = some (after, result) ∨
        interpreter.runImage steps other image = some (after, result) →
      ∀ module < interpreter.globals.size,
        after.globals[module]? = interpreter.globals[module]?) := by
  refine ⟨fun module hmodule hchange => (stores_of_next hmodule hchange).1,
    fun module hbefore hafter later hlater => ?_,
    fun entered session hcalls hduring module hchange => ?_,
    fun steps other code image after result hrun module hmodule => ?_⟩
  · obtain ⟨hover, hkept⟩ := over_of_ended h.ordered hbefore hafter
    exact (hover.later hlater).trans hkept
  · have hcall := hcalls.during hduring
    rcases Nat.lt_or_ge module machine.interpreter.globals.size with hearlier | hlater
    · exact absurd (hcall.kept module hearlier) hchange
    refine hcall.imported module hlater (Nat.lt_of_not_le fun hbeyond => hchange ?_)
    rw [Array.getElem?_eq_none hbeyond, Array.getElem?_eq_none hlater]
  · have hlater : Session.Later (.idle interpreter) (.idle after) := by
      rcases hrun with hrun | hrun
      · exact Session.later_of_run hrun
      · exact Session.later_of_runImage hrun
    exact (over_idle hmodule).later hlater

/-- The variables of an imported module are fixed once its body is over. The function that the
module made and that is called next has a local variable of the same name. -/
theorem variables_written_by_body_import :
    let function : CodeUnit :=
      ⟨"f", "lib", [], [.int 2], #["x"], #[.loadConst 0, .storeName 0, .loadConst 0, .giveBack],
        #[2, 2, 2, 2]⟩
    let lib : CodeUnit :=
      ⟨"<module>", "lib", [], [.int 1, .code function], #["x", "f"],
        #[.loadConst 0, .storeName 0, .makeFunction 1, .storeName 1, .loadConst 0, .giveBack],
        #[1, 1, 2, 2, 2, 2]⟩
    let main : CodeUnit :=
      ⟨"<module>", "main", [], [.none], #["lib", "f"],
        #[.importName 0, .loadMember 1, .call 0, .giveBack], #[1, 1, 1, 1]⟩
    let start := Interpreter.machine { frozen := [("lib", Image.ofUnit lib)] } "main" main
    ∃ ending, start.Leads ending ∧ ∀ later, Session.Later (.ofOutcome ending.next) later →
      later.interpreter.globals[1]? =
        some [("x", .int 1), ("f", .function ⟨0, function, 1⟩)] := by
  intro function lib main start
  have hruns : (start.after 6).map (fun ending =>
      (ending.interpreter.globals[1]?, ending.bodies, (Session.ofOutcome ending.next).bodies)) =
        some (some [("x", .int 1), ("f", .function ⟨0, function, 1⟩)],
          [⟨1, "lib"⟩, ⟨0, "main"⟩], [⟨0, "main"⟩]) := by
    decide +kernel
  obtain ⟨ending, hafter, hending⟩ := Option.map_eq_some_iff.mp hruns
  simp only [Prod.mk.injEq] at hending
  obtain ⟨hglobals, hbodies, hnext⟩ := hending
  have hleads := Machine.leads_of_after hafter
  refine ⟨ending, hleads, fun later hlater => ?_⟩
  refine ((variables_written_by_body hleads).2.1 ⟨1, "lib"⟩ ?_ ?_ later hlater).trans hglobals
  · rw [hbodies]
    decide
  · rw [hnext]
    decide

end FrozenScript
