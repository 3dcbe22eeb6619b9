import FrozenScript.Proofs.Machine.Modules

/-!
# The loaded modules

A module is loaded before its body runs, so that bodies may import each other. While a call is
under way, a loaded module is an earlier one, or its body is in progress, or its body was run to its
end (`Loading`). A body that fails is left together with every body that waits for it, so between
the calls only modules are loaded whose bodies were run to their ends
(`history_loads_complete_modules`).
-/

namespace FrozenScript

/-- The machine that runs a unit as the body of the module with a name. -/
def Interpreter.machine (interpreter : Interpreter) (name : String) (unit : CodeUnit) : Machine :=
  ⟨(interpreter.start name unit).1, (interpreter.start name unit).2, []⟩

/-- A machine runs the body of a module to its end. -/
def Machine.Completes (machine : Machine) (module : ScriptModule) : Prop :=
  ∃ last : Machine, machine.Leads last ∧ last.EndsBody module

/-- What the call of a module does to the modules with other names. -/
structure Machine.Extends (machine : Machine) (name : String) (before after : Interpreter) :
    Prop where
  kept : ∀ {other module}, other ≠ name → before.loaded.get? other = some module →
    after.loaded.get? other = some module
  added : ∀ {other module}, other ≠ name → before.loaded.get? other = none →
    after.loaded.get? other = some module → module.name = other ∧ machine.Completes module

/-- What the call of a module does to the modules by the time it ends. -/
structure Machine.Settles (machine : Machine) (name : String) (before after : Interpreter)
    (result : Except RuntimeError ScriptModule) : Prop where
  bound : ∀ {module}, result = .ok module → after.loaded.get? name = some module ∧
    module.name = name ∧ machine.Completes module
  unbound : ∀ {error}, result = .error error → after.loaded.get? name = none
  others : machine.Extends name before after

/-! ## Calls under way -/

/-- The call of a module is under way. -/
structure Loading (before : Interpreter) (name : String) (unit : CodeUnit) (machine : Machine) :
    Prop where
  reached : (before.machine name unit).Leads machine
  base : machine.base? = some ⟨before.globals.size, name⟩
  /-- The modules whose bodies are in progress are loaded. -/
  partly : ∀ module ∈ machine.bodies, machine.interpreter.loaded.get? module.name = some module
  /-- Only the module that was called may take the place of an earlier one. -/
  fresh : ∀ module ∈ machine.bodies, module.name ≠ name → before.loaded.get? module.name = none
  kept : ∀ {other module}, other ≠ name → before.loaded.get? other = some module →
    machine.interpreter.loaded.get? other = some module
  complete : ∀ {other module}, machine.interpreter.loaded.get? other = some module →
    other ∉ machine.bodies.map ScriptModule.name →
    before.loaded.get? other = some module ∨
      module.name = other ∧ (before.machine name unit).Completes module

theorem get?_start (interpreter : Interpreter) (name other : String) (unit : CodeUnit) :
    (interpreter.start name unit).1.loaded.get? other =
      if name = other then some ⟨interpreter.globals.size, name⟩
      else interpreter.loaded.get? other :=
  Table.get?_set _ _ _ _

/-- A call begins with the body of its own module. -/
theorem loading_machine (before : Interpreter) (name : String) (unit : CodeUnit) :
    Loading before name unit (before.machine name unit) := by
  have hbodies : (before.machine name unit).bodies = [⟨before.globals.size, name⟩] := rfl
  refine ⟨.refl _, rfl, ?_, ?_, ?_, ?_⟩
  · intro module hmodule
    rw [hbodies, List.mem_singleton] at hmodule
    subst hmodule
    exact (get?_start before name name unit).trans (if_pos rfl)
  · intro module hmodule hother
    rw [hbodies, List.mem_singleton] at hmodule
    subst hmodule
    exact absurd rfl hother
  · intro other module hother hbefore
    exact ((get?_start before name other unit).trans (if_neg hother.symm)).trans hbefore
  · intro other module hloaded hwaiting
    have hother : name ≠ other := by
      rintro rfl
      exact hwaiting (hbodies ▸ List.mem_cons_self)
    exact .inl (((get?_start before name other unit).trans (if_neg hother)).symm.trans hloaded)

namespace Loading

variable {before after : Interpreter} {name : String} {unit : CodeUnit} {machine : Machine}

theorem base_mem (h : Loading before name unit machine) :
    ⟨before.globals.size, name⟩ ∈ machine.bodies :=
  mem_bodies_of_base? h.base

/-- While the same bodies go on, nothing happens to the modules. -/
theorem proceed {following : Machine} (h : Loading before name unit machine)
    (hnext : machine.next = .running following)
    (hmodules : following.interpreter.SameModules machine.interpreter)
    (hbodies : following.bodies = machine.bodies) (hbase : following.base? = machine.base?) :
    Loading before name unit following := by
  refine ⟨h.reached.trans (.single hnext), hbase.trans h.base, ?_, ?_, ?_, ?_⟩
  · rw [hbodies, hmodules.loaded]
    exact h.partly
  · rw [hbodies]
    exact h.fresh
  · rw [hmodules.loaded]
    exact h.kept
  · rw [hbodies, hmodules.loaded]
    exact h.complete

/-- A module whose body is started takes the place of no other one. -/
theorem start {following : Machine} {started : String} {startedUnit : CodeUnit}
    (h : Loading before name unit machine) (hnext : machine.next = .running following)
    (hstarts : machine.interpreter.Starts started startedUnit)
    (hinterpreter : following.interpreter = (machine.interpreter.start started startedUnit).1)
    (hbodies : following.bodies = ⟨machine.interpreter.globals.size, started⟩ :: machine.bodies)
    (hbase : following.base? = machine.base?) : Loading before name unit following := by
  have hloaded (other : String) := get?_start machine.interpreter started other startedUnit
  rw [← hinterpreter] at hloaded
  -- The module was not loaded, so its name is the name of no module that is.
  have hne {other : String} {module : ScriptModule}
      (hother : machine.interpreter.loaded.get? other = some module) : started ≠ other := by
    rintro rfl
    exact nomatch hstarts.unloaded.symm.trans hother
  refine ⟨h.reached.trans (.single hnext), hbase.trans h.base, ?_, ?_, ?_, ?_⟩
  · intro module hmodule
    rw [hbodies, List.mem_cons] at hmodule
    obtain rfl | hmodule := hmodule
    · exact (hloaded started).trans (if_pos rfl)
    · have hpartly := h.partly module hmodule
      rw [hloaded, if_neg (hne hpartly)]
      exact hpartly
  · intro module hmodule hother
    rw [hbodies, List.mem_cons] at hmodule
    obtain rfl | hmodule := hmodule
    · cases hbefore : before.loaded.get? started with
      | none => rfl
      | some earlier => exact absurd rfl (hne (h.kept hother hbefore))
    · exact h.fresh module hmodule hother
  · intro other module hother hbefore
    have hkept := h.kept hother hbefore
    rw [hloaded, if_neg (hne hkept)]
    exact hkept
  · intro other module hmodule hwaiting
    rw [hbodies, List.map_cons, List.mem_cons, not_or] at hwaiting
    obtain ⟨hother, hwaiting⟩ := hwaiting
    rw [hloaded, if_neg (Ne.symm hother)] at hmodule
    exact h.complete hmodule hwaiting

/-- A module whose body ends becomes a complete one. -/
theorem leave {following : Machine} {left : ScriptModule} (h : Loading before name unit machine)
    (hnext : machine.next = .running following) (hends : machine.EndsBody left)
    (hmodules : following.interpreter.SameModules machine.interpreter)
    (hbodies : machine.bodies = left :: following.bodies)
    (hbase : following.base? = machine.base?) : Loading before name unit following := by
  have hwaits {module : ScriptModule} (hmodule : module ∈ following.bodies) :
      module ∈ machine.bodies :=
    hbodies ▸ List.mem_cons_of_mem _ hmodule
  refine ⟨h.reached.trans (.single hnext), hbase.trans h.base, ?_, ?_, ?_, ?_⟩
  · intro module hmodule
    rw [hmodules.loaded]
    exact h.partly module (hwaits hmodule)
  · intro module hmodule
    exact h.fresh module (hwaits hmodule)
  · rw [hmodules.loaded]
    exact h.kept
  · intro other module hmodule hwaiting
    rw [hmodules.loaded] at hmodule
    by_cases hother : other = left.name
    · have hleft := h.partly left (hbodies ▸ List.mem_cons_self)
      rw [hother, hleft] at hmodule
      obtain rfl := Option.some.inj hmodule
      exact .inr ⟨hother.symm, machine, h.reached, hends⟩
    · refine h.complete hmodule ?_
      rw [hbodies, List.map_cons, List.mem_cons, not_or]
      exact ⟨hother, hwaiting⟩

/-- Every step of a call keeps it under way. -/
theorem step {following : Machine} (h : Loading before name unit machine)
    (hnext : machine.next = .running following) : Loading before name unit following := by
  have hchanges := next_changes machine
  rw [hnext] at hchanges
  cases hchanges with
  | proceed hmodules hbodies hbase => exact h.proceed hnext hmodules hbodies hbase
  | start hstarts hinterpreter hbodies hbase =>
      exact h.start hnext hstarts hinterpreter hbodies hbase
  | leave hends hmodules hbodies hbase => exact h.leave hnext hends hmodules hbodies hbase

/-- A call that left its bodies has kept the earlier modules and added complete ones. -/
theorem others (h : Loading before name unit machine)
    (hloaded : ∀ other, other ≠ name → after.loaded.get? other =
      if other ∈ machine.bodies.map ScriptModule.name then none
      else machine.interpreter.loaded.get? other) :
    (before.machine name unit).Extends name before after := by
  refine ⟨fun {other module} hother hbefore => ?_, fun {other module} hother hbefore hafter => ?_⟩
  · have hwaiting : other ∉ machine.bodies.map ScriptModule.name := by
      intro hmem
      obtain ⟨waiting, hwaiting, rfl⟩ := List.mem_map.mp hmem
      rw [h.fresh waiting hwaiting hother] at hbefore
      cases hbefore
    rw [hloaded other hother, if_neg hwaiting]
    exact h.kept hother hbefore
  · rw [hloaded other hother] at hafter
    split at hafter
    next => cases hafter
    next hwaiting =>
      obtain hearlier | hcomplete := h.complete hafter hwaiting
      · rw [hbefore] at hearlier
        cases hearlier
      · exact hcomplete

/-- A call that finishes leaves its module loaded. -/
theorem finished (h : Loading before name unit machine) (hnext : machine.next = .finished after) :
    (before.machine name unit).Settles name before after (.ok ⟨before.globals.size, name⟩) := by
  have hchanges := next_changes machine
  rw [hnext] at hchanges
  cases hchanges with
  | finish hcallers hgives hmodules =>
      have hbody : machine.frame.body? = some ⟨before.globals.size, name⟩ := by
        have hbase := h.base
        rw [Machine.base?, hcallers] at hbase
        exact hbase
      have hbodies : machine.bodies = [⟨before.globals.size, name⟩] := by
        rw [Machine.bodies, hcallers, bodies_cons, hbody]
        rfl
      refine ⟨?_, ?_, h.others fun other hother => ?_⟩
      · rintro module ⟨⟩
        have hpartly := h.partly _ h.base_mem
        rw [← hmodules.loaded] at hpartly
        exact ⟨hpartly, rfl, machine, h.reached, hbody, hgives⟩
      · rintro error ⟨⟩
      · rw [hbodies, hmodules.loaded]
        exact (if_neg (mt List.mem_singleton.mp hother)).symm

/-- A call that fails leaves no module loaded whose body was in progress. -/
theorem failed {error : RuntimeError} (h : Loading before name unit machine)
    (hnext : machine.next = .failed after error) :
    (before.machine name unit).Settles name before after (.error error) := by
  have hchanges := next_changes machine
  rw [hnext] at hchanges
  cases hchanges with
  | @fail stopped _ hmodules =>
      have hloaded (other : String) :=
        loaded_foldl_abandon (machine.frame :: machine.callers) stopped other
      rw [hmodules.loaded] at hloaded
      refine ⟨nofun, fun _ => ?_, h.others fun other _ => hloaded other⟩
      exact (hloaded name).trans (if_pos (List.mem_map_of_mem h.base_mem))

/-- However a call ends. -/
theorem run {steps : Nat} {result : Except RuntimeError Unit} (h : Loading before name unit machine)
    (hrun : machine.run steps = some (after, result)) :
    (before.machine name unit).Settles name before after
      (result.map fun _ => ⟨before.globals.size, name⟩) := by
  induction steps generalizing machine with
  | zero => exact nomatch hrun
  | succ steps ih =>
      rw [Machine.run] at hrun
      split at hrun
      next following hnext => exact ih (h.step hnext) hrun
      next finished hnext =>
        obtain ⟨rfl, rfl⟩ := Prod.mk.inj (Option.some.inj hrun)
        exact h.finished hnext
      next failed error hnext =>
        obtain ⟨rfl, rfl⟩ := Prod.mk.inj (Option.some.inj hrun)
        exact h.failed hnext

end Loading

/-! ## Calls -/

section

variable {interpreter after : Interpreter} {steps : Nat} {name : String} {unit : CodeUnit}
  {image : Image} {result : Except RuntimeError ScriptModule}

/-- A run is a run of the machine of the call. -/
theorem run_eq_map (interpreter : Interpreter) (steps : Nat) (name : String) (unit : CodeUnit) :
    interpreter.run steps name unit = ((interpreter.machine name unit).run steps).map
      fun (after, result) => (after, result.map fun _ => ⟨interpreter.globals.size, name⟩) :=
  rfl

theorem run_settles (hrun : interpreter.run steps name unit = some (after, result)) :
    (interpreter.machine name unit).Settles name interpreter after result := by
  rw [run_eq_map] at hrun
  obtain ⟨⟨ended, ending⟩, hmachine, heq⟩ := Option.map_eq_some_iff.mp hrun
  obtain ⟨rfl, rfl⟩ := Prod.mk.inj heq
  exact (loading_machine interpreter name unit).run hmachine

theorem runImage_settles (hdecode : Image.decode image = .ok unit)
    (hrun : interpreter.runImage steps name image = some (after, result)) :
    (interpreter.machine name unit).Settles name interpreter after result := by
  rw [interpreter.runImage_of_decode hdecode] at hrun
  exact run_settles hrun

/-- After a call, a module is loaded that was loaded before, or whose body the call ran to its
end. -/
theorem Machine.Settles.loaded {machine : Machine}
    (h : machine.Settles name interpreter after result) {other : String} {module : ScriptModule}
    (hafter : after.loaded.get? other = some module) :
    interpreter.loaded.get? other = some module ∨
      module.name = other ∧ machine.Completes module := by
  by_cases hother : other = name
  · subst hother
    cases result with
    | error error => exact nomatch (h.unbound rfl).symm.trans hafter
    | ok returned =>
        obtain ⟨hbound, hcomplete⟩ := h.bound rfl
        obtain rfl := Option.some.inj (hbound.symm.trans hafter)
        exact .inr hcomplete
  · cases hbefore : interpreter.loaded.get? other with
    | none => exact .inr (h.others.added hother hbefore hafter)
    | some earlier =>
        have hkept := h.others.kept hother hbefore
        exact .inl (hkept.symm.trans hafter)

/-- An import of a module that is loaded gives that module, and nothing else changes. Which images
there are does not matter. -/
theorem next_importName_of_loaded {machine : Machine} {index : UInt32} {module : ScriptModule}
    (hinstr : machine.frame.unit.code[machine.frame.pc]? = some (.importName index))
    (hname : machine.frame.unit.nameAt index = .ok name)
    (hloaded : machine.interpreter.loaded.get? name = some module)
    (frozen : Table String Image) :
    Machine.next { machine with interpreter := { machine.interpreter with frozen } } =
      .running ⟨{ machine.interpreter with frozen },
        Frame.push { machine.frame with pc := machine.frame.pc + 1 } (.module module),
        machine.callers⟩ := by
  have hperform : perform { machine.frame with pc := machine.frame.pc + 1 } (.importName index) =
      importModule name { machine.frame with pc := machine.frame.pc + 1 } :=
    perform_importName_of_nameAt hname
  refine next_of_proceed hinstr ?_
  dsimp only
  rw [hperform, importModule, Action.run_get_bind]
  dsimp only
  rw [hloaded]
  rfl

end

/-! ## Histories -/

/-- The history of an interpreter: any calls that ended and any changes of the images, and the
machines of the calls, the latest first. -/
inductive Interpreter.History : Interpreter → List Machine → Prop where
  | new (sink : Sink) : History { sink } []
  | withFrozen {interpreter : Interpreter} {machines : List Machine}
      (h : History interpreter machines) (frozen : Table String Image) :
      History { interpreter with frozen } machines
  | run {interpreter after : Interpreter} {machines : List Machine} {steps : Nat} {name : String}
      {unit : CodeUnit} {result : Except RuntimeError ScriptModule}
      (h : History interpreter machines)
      (hrun : interpreter.run steps name unit = some (after, result)) :
      History after (interpreter.machine name unit :: machines)
  | runImage {interpreter after : Interpreter} {machines : List Machine} {steps : Nat}
      {name : String} {image : Image} {unit : CodeUnit} {result : Except RuntimeError ScriptModule}
      (h : History interpreter machines) (hdecode : Image.decode image = .ok unit)
      (hrun : interpreter.runImage steps name image = some (after, result)) :
      History after (interpreter.machine name unit :: machines)
  | badImage {interpreter after : Interpreter} {machines : List Machine} {steps : Nat}
      {name : String} {image : Image} {fault : Image.Fault}
      {result : Except RuntimeError ScriptModule} (h : History interpreter machines)
      (hdecode : Image.decode image = .error fault)
      (hrun : interpreter.runImage steps name image = some (after, result)) :
      History after machines

/-- Every loaded module has its own name, and one of the machines ran its body to its end. -/
def Interpreter.LoadsComplete (interpreter : Interpreter) (machines : List Machine) : Prop :=
  ∀ name module, interpreter.loaded.get? name = some module →
    module.name = name ∧ ∃ machine ∈ machines, machine.Completes module

/-- A call that ended has loaded no other modules. -/
theorem Machine.Settles.loadsComplete {machine : Machine} {machines : List Machine} {name : String}
    {before after : Interpreter} {result : Except RuntimeError ScriptModule}
    (h : machine.Settles name before after result) (hbefore : before.LoadsComplete machines) :
    after.LoadsComplete (machine :: machines) := by
  intro other module hloaded
  obtain hearlier | ⟨hname, hcomplete⟩ := h.loaded hloaded
  · obtain ⟨hname, earlier, hmem, hcomplete⟩ := hbefore other module hearlier
    exact ⟨hname, earlier, List.mem_cons_of_mem _ hmem, hcomplete⟩
  · exact ⟨hname, machine, List.mem_cons_self, hcomplete⟩

/-- Between the calls only complete modules are loaded. -/
theorem Interpreter.History.loadsComplete {interpreter : Interpreter} {machines : List Machine}
    (h : interpreter.History machines) : interpreter.LoadsComplete machines := by
  induction h with
  | new sink => exact fun _ _ hloaded => nomatch hloaded
  | withFrozen h frozen ih => exact ih
  | run h hrun ih => exact (run_settles hrun).loadsComplete ih
  | runImage h hdecode hrun ih => exact (runImage_settles hdecode hrun).loadsComplete ih
  | badImage h hdecode hrun ih =>
      rw [Interpreter.runImage_of_fault hdecode] at hrun
      obtain ⟨rfl, -⟩ := Prod.mk.inj (Option.some.inj hrun)
      exact ih

/-- Whatever was done with an interpreter, the modules that are loaded are complete, and whatever is
done next keeps them so: a call leaves its module loaded if it succeeds and unloaded if it fails,
keeps the other modules and adds only complete ones; an image that is no unit changes nothing; and
an import of a loaded module gives that module and does nothing else. -/
theorem history_loads_complete_modules {interpreter : Interpreter} {machines : List Machine}
    (h : interpreter.History machines) :
    (∀ name module, interpreter.loaded.get? name = some module →
      module.name = name ∧ ∃ machine ∈ machines, machine.Completes module) ∧
    (∀ steps name unit after result, interpreter.run steps name unit = some (after, result) →
      (interpreter.machine name unit).Settles name interpreter after result) ∧
    (∀ steps name image unit after result, Image.decode image = .ok unit →
      interpreter.runImage steps name image = some (after, result) →
      (interpreter.machine name unit).Settles name interpreter after result) ∧
    (∀ steps name image fault, Image.decode image = .error fault →
      interpreter.runImage steps name image =
        some (interpreter, .error ⟨s!"<frozen {name}>", 0, .badImage name fault⟩)) ∧
    ∀ (machine : Machine) index name module frozen,
      machine.frame.unit.code[machine.frame.pc]? = some (.importName index) →
      machine.frame.unit.nameAt index = .ok name →
      machine.interpreter.loaded.get? name = some module →
      Machine.next { machine with interpreter := { machine.interpreter with frozen } } =
        .running ⟨{ machine.interpreter with frozen },
          Frame.push { machine.frame with pc := machine.frame.pc + 1 } (.module module),
          machine.callers⟩ :=
  ⟨h.loadsComplete,
    fun _ _ _ _ _ hrun => run_settles hrun,
    fun _ _ _ _ _ _ hdecode hrun => runImage_settles hdecode hrun,
    fun steps name _ _ hdecode => interpreter.runImage_of_fault hdecode steps name,
    fun _ _ _ _ frozen hinstr hname hloaded =>
      next_importName_of_loaded hinstr hname hloaded frozen⟩

/-- A body that fails is unloaded, and the module that it imported stays loaded, for another body to
find. The image of that module runs as well, and bytes that are no image change nothing. -/
theorem history_loads_complete_modules_failure :
    let quiet : CodeUnit :=
      ⟨"<module>", "quiet", [], [.none], #[], #[.loadConst 0, .giveBack], #[1, 1]⟩
    let failing : CodeUnit :=
      ⟨"<module>", "main", [], [], #["quiet"], #[.importName 0, .raiseAssert false], #[1, 2]⟩
    let interpreter : Interpreter := { frozen := [("quiet", Image.ofUnit quiet)] }
    let frame : Frame := { unit := failing, home := 2, activation := .body "again" 0 }
    (∃ after error, interpreter.run 4 "main" failing = some (after, .error error) ∧
      after.loaded.get? "main" = none ∧ after.loaded.get? "quiet" = some ⟨1, "quiet"⟩ ∧
      (interpreter.machine "main" failing).Completes ⟨1, "quiet"⟩ ∧
      Machine.next ⟨after, frame, []⟩ =
        .running ⟨after, Frame.push { frame with pc := 1 } (.module ⟨1, "quiet"⟩), []⟩) ∧
    (∃ after module, interpreter.runImage 2 "other" (Image.ofUnit quiet) =
        some (after, .ok module) ∧ after.loaded.get? "other" = some module) ∧
    interpreter.runImage 2 "other" [] =
      some (interpreter, .error ⟨"<frozen other>", 0, .badImage "other" (.truncated 0)⟩) := by
  intro quiet failing interpreter frame
  have hhistory : interpreter.History [] := .withFrozen (.new {}) _
  have hnow := history_loads_complete_modules hhistory
  refine ⟨?_, ?_, hnow.2.2.2.1 2 "other" [] (.truncated 0) rfl⟩
  · have hfails : (interpreter.run 4 "main" failing).map (fun ending =>
        (ending.2.isOk, ending.1.loaded.get? "quiet")) = some (false, some ⟨1, "quiet"⟩) := by
      decide +kernel
    obtain ⟨⟨after, result⟩, hrun, hending⟩ := Option.map_eq_some_iff.mp hfails
    obtain ⟨hresult, hquiet⟩ := Prod.mk.inj hending
    cases result with
    | ok module => exact nomatch hresult
    | error error =>
        have hsettles := hnow.2.1 _ _ _ _ _ hrun
        have hafter := history_loads_complete_modules (hhistory.run hrun)
        obtain ⟨-, machine, hmachine, hcomplete⟩ := hafter.1 _ _ hquiet
        rw [List.mem_singleton] at hmachine
        subst hmachine
        have hnext := hafter.2.2.2.2 ⟨after, frame, []⟩ 0 "quiet" _ after.frozen rfl rfl hquiet
        exact ⟨after, error, hrun, hsettles.unbound rfl, hquiet, hcomplete, hnext⟩
  · have hruns : (interpreter.runImage 2 "other" (Image.ofUnit quiet)).map (fun ending =>
        ending.2.isOk) = some true := by
      decide +kernel
    have hdecodes : (Image.decode (Image.ofUnit quiet)).isOk = true := by decide +kernel
    obtain ⟨⟨after, result⟩, hrun, hresult⟩ := Option.map_eq_some_iff.mp hruns
    cases result with
    | error error => exact nomatch hresult
    | ok module =>
    cases hdecode : Image.decode (Image.ofUnit quiet) with
    | error fault =>
        rw [hdecode] at hdecodes
        exact nomatch hdecodes
    | ok unit =>
        have hsettles := hnow.2.2.1 _ _ _ _ _ _ hdecode hrun
        exact ⟨after, module, hrun, (hsettles.bound rfl).1⟩

end FrozenScript
