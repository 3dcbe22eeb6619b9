import FrozenScript.Proofs.Machine.ModuleCache
import Mathlib.Data.List.Dedup
import Mathlib.Data.List.Perm.Subperm

/-!
# The depth of imports

An import starts the body of a module that is not loaded, and a body is loaded before it runs, so
during a call no body is started twice (`Started`). Every body but that of the call itself has an
image, which bounds the bodies that a call starts, and with them the imports that are nested
(`imports_bounded`). A module whose body is in progress is loaded, so an import of it gives the
module as it is.
-/

namespace FrozenScript

/-- A key with an entry is one of the keys. -/
theorem Table.mem_keys_of_get? {κ α : Type} [DecidableEq κ] {table : Table κ α} {key : κ}
    {entry : α} (h : table.get? key = some entry) : key ∈ table.map Prod.fst := by
  induction table with
  | nil => exact nomatch h
  | cons head rest ih =>
      obtain ⟨first, former⟩ := head
      rw [Table.get?] at h
      split at h
      next heq =>
        subst heq
        exact List.mem_cons_self
      next => exact List.mem_cons_of_mem _ (ih h)

/-- Distinct keys are at most as many as the keys of a table that they are among. -/
theorem length_le_keys {table : Table String Image} {names : List String} (hdistinct : names.Nodup)
    (hkeys : ∀ name ∈ names, name ∈ table.map Prod.fst) :
    names.length ≤ (table.map Prod.fst).dedup.length := by
  have hsubset : names ⊆ (table.map Prod.fst).dedup := by
    intro name hname
    exact List.mem_dedup.mpr (hkeys name hname)
  exact (hdistinct.subperm hsubset).length_le

/-- The outermost body is the last of the bodies in progress. -/
theorem bodies_eq_of_base? {frames : List Frame} {module : ScriptModule}
    (h : base? frames = some module) : ∃ inner, bodies frames = inner ++ [module] := by
  obtain ⟨frame, hlast, hbody⟩ := Option.bind_eq_some_iff.mp h
  obtain ⟨rest, rfl⟩ := List.getLast?_eq_some_iff.mp hlast
  refine ⟨bodies rest, ?_⟩
  rw [bodies, List.filterMap_append, List.filterMap_cons, hbody]
  rfl

/-- The modules whose bodies a call has started, the latest first. Those that are still in progress
are among them, and all of them are loaded. -/
structure Started (before : Interpreter) (own : ScriptModule) (machine : Machine)
    (imported : List ScriptModule) : Prop where
  frozen : machine.interpreter.frozen = before.frozen
  base : machine.base? = some own
  running : machine.bodies.Sublist (imported ++ [own])
  loaded : ∀ module ∈ imported ++ [own],
    machine.interpreter.loaded.get? module.name = some module
  distinct : ((imported ++ [own]).map ScriptModule.name).Nodup
  keys : ∀ key ∈ imported.map ScriptModule.name, key ∈ before.frozen.map Prod.fst
  count : machine.interpreter.globals.size = before.globals.size + (imported.length + 1)

/-- A call has started its own module only. -/
theorem started_machine (before : Interpreter) (name : String) (unit : CodeUnit) :
    Started before ⟨before.globals.size, name⟩ (before.machine name unit) [] := by
  refine ⟨rfl, rfl, List.Sublist.refl _, ?_, List.nodup_singleton _, nofun, Array.size_push _⟩
  intro module hmodule
  obtain rfl := List.mem_singleton.mp hmodule
  exact (get?_start before name name unit).trans (if_pos rfl)

namespace Started

variable {before : Interpreter} {own : ScriptModule} {machine following : Machine}
  {imported : List ScriptModule}

/-- While no body is started, those that were started are the same. -/
theorem goOn (h : Started before own machine imported)
    (hmodules : following.interpreter.SameModules machine.interpreter)
    (hbodies : following.bodies.Sublist machine.bodies)
    (hbase : following.base? = machine.base?) : Started before own following imported := by
  refine ⟨hmodules.frozen.trans h.frozen, hbase.trans h.base, hbodies.trans h.running, ?_,
    h.distinct, h.keys, hmodules.started.trans h.count⟩
  rw [hmodules.loaded]
  exact h.loaded

/-- A body that is started has an image and a name that no started body has. -/
theorem start {entering : String} {entered : CodeUnit} (h : Started before own machine imported)
    (hstarts : machine.interpreter.Starts entering entered)
    (hinterpreter : following.interpreter = (machine.interpreter.start entering entered).1)
    (hbodies : following.bodies = ⟨machine.interpreter.globals.size, entering⟩ :: machine.bodies)
    (hbase : following.base? = machine.base?) :
    Started before own following (⟨machine.interpreter.globals.size, entering⟩ :: imported) := by
  have hfresh : ∀ module ∈ imported ++ [own],
      entering ≠ module.name := by
    intro module hmodule heq
    have hloaded := h.loaded module hmodule
    rw [← heq, hstarts.unloaded] at hloaded
    exact nomatch hloaded
  refine ⟨?_, hbase.trans h.base, ?_, ?_, ?_, ?_, ?_⟩
  · rw [hinterpreter]
    exact h.frozen
  · rw [hbodies]
    exact h.running.cons_cons _
  · intro module hmodule
    rw [hinterpreter, get?_start]
    rcases List.mem_cons.mp hmodule with rfl | hmodule
    · exact if_pos rfl
    · rw [if_neg (hfresh module hmodule)]
      exact h.loaded module hmodule
  · refine List.nodup_cons.mpr ⟨fun hmem => ?_, h.distinct⟩
    obtain ⟨module, hmodule, heq⟩ := List.mem_map.mp hmem
    exact hfresh module hmodule heq.symm
  · intro key hkey
    rcases List.mem_cons.mp hkey with rfl | hkey
    · obtain ⟨image, himage, -⟩ := hstarts.image
      rw [h.frozen] at himage
      exact Table.mem_keys_of_get? himage
    · exact h.keys key hkey
  · rw [hinterpreter, List.length_cons]
    show (machine.interpreter.globals.push []).size = _
    rw [Array.size_push, h.count, Nat.add_assoc]

/-- A step starts at most one body. -/
theorem step (h : Started before own machine imported) (hnext : machine.next = .running following) :
    ∃ imported, Started before own following imported := by
  have hchanges := next_changes machine
  rw [hnext] at hchanges
  cases hchanges with
  | proceed hmodules hbodies hbase =>
      exact ⟨imported, h.goOn hmodules (hbodies ▸ List.Sublist.refl _) hbase⟩
  | start hstarts hinterpreter hbodies hbase =>
      exact ⟨_, h.start hstarts hinterpreter hbodies hbase⟩
  | leave hends hmodules hbodies hbase =>
      exact ⟨imported, h.goOn hmodules (hbodies ▸ List.sublist_cons_self _ _) hbase⟩

theorem leads (h : Started before own machine imported) (hleads : machine.Leads following) :
    ∃ imported, Started before own following imported := by
  induction hleads generalizing imported with
  | refl => exact ⟨imported, h⟩
  | step hnext _ ih =>
      obtain ⟨entered, hentered⟩ := h.step hnext
      exact ih hentered

/-- The bodies that wait above the one of the call are imported ones. -/
theorem bodies_eq (h : Started before own machine imported) :
    ∃ inner, machine.bodies = inner ++ [own] ∧
      ∀ module ∈ inner, module.name ∈ before.frozen.map Prod.fst := by
  obtain ⟨inner, hbodies⟩ := bodies_eq_of_base? h.base
  refine ⟨inner, hbodies, fun module hmodule => ?_⟩
  have hrunning := h.running
  rw [Machine.bodies, hbodies] at hrunning
  have hinner := (List.append_sublist_append_right _).mp hrunning
  exact h.keys _ (List.mem_map_of_mem (hinner.subset hmodule))

/-- A call starts no more bodies than there are images, and its own. -/
theorem length_le (h : Started before own machine imported) :
    imported.length + 1 ≤ (before.frozen.map Prod.fst).dedup.length + 1 := by
  have hdistinct := h.distinct
  rw [List.map_append] at hdistinct
  have hlength := length_le_keys hdistinct.of_append_left h.keys
  rw [List.length_map] at hlength
  exact Nat.succ_le_succ hlength

end Started

/-- During a call no module is started twice: the bodies in progress have different names, the
inner ones are those of modules that have images, and so there are at most as many as images and one
more, even if those are counted whose bodies are over. An import of a module whose body is in
progress gives the module as it is and starts nothing. -/
theorem imports_bounded {interpreter : Interpreter} {name : String} {unit : CodeUnit}
    {machine : Machine} (h : (interpreter.machine name unit).Leads machine) :
    (machine.bodies.map ScriptModule.name).Nodup ∧
    (∃ inner, machine.bodies = inner ++ [⟨interpreter.globals.size, name⟩] ∧
      ∀ module ∈ inner, module.name ∈ interpreter.frozen.map Prod.fst) ∧
    machine.bodies.length ≤ (interpreter.frozen.map Prod.fst).dedup.length + 1 ∧
    machine.interpreter.globals.size ≤
      interpreter.globals.size + ((interpreter.frozen.map Prod.fst).dedup.length + 1) ∧
    ∀ index, ∀ module ∈ machine.bodies,
      machine.frame.unit.code[machine.frame.pc]? = some (.importName index) →
      machine.frame.unit.nameAt index = .ok module.name →
      machine.next = .running ⟨machine.interpreter,
        Frame.push { machine.frame with pc := machine.frame.pc + 1 } (.module module),
        machine.callers⟩ := by
  obtain ⟨imported, hstarted⟩ := (started_machine interpreter name unit).leads h
  refine ⟨hstarted.distinct.sublist (hstarted.running.map _), hstarted.bodies_eq, ?_, ?_, ?_⟩
  · have hlength := hstarted.running.length_le
    rw [List.length_append, List.length_singleton] at hlength
    exact Nat.le_trans hlength hstarted.length_le
  · rw [hstarted.count]
    exact Nat.add_le_add_left hstarted.length_le _
  · intro index module hmodule hinstr hname
    have hloaded := hstarted.loaded module (hstarted.running.subset hmodule)
    exact next_importName_of_loaded hinstr hname hloaded machine.interpreter.frozen

/-- Two modules import each other. The second import of the first one gives it while its body is in
progress. -/
theorem imports_bounded_circular :
    let here : CodeUnit := ⟨"<module>", "here", [], [], #["there"], #[.importName 0], #[1]⟩
    let there : CodeUnit := ⟨"<module>", "there", [], [], #["here"], #[.importName 0], #[1]⟩
    let start := Interpreter.machine
      { frozen := [("here", Image.ofUnit here), ("there", Image.ofUnit there)] } "main" here
    ∃ machine, start.Leads machine ∧
      machine.bodies = [⟨2, "here"⟩, ⟨1, "there"⟩, ⟨0, "main"⟩] ∧
      machine.interpreter.globals.size ≤ 3 ∧
      machine.next = .running ⟨machine.interpreter,
        Frame.push { machine.frame with pc := 1 } (.module ⟨1, "there"⟩), machine.callers⟩ := by
  intro here there start
  have hruns : (start.after 2).map (fun machine =>
      (machine.bodies, machine.frame.pc, machine.frame.unit)) =
        some ([⟨2, "here"⟩, ⟨1, "there"⟩, ⟨0, "main"⟩], 0, here) := by
    decide +kernel
  obtain ⟨machine, hafter, hmachine⟩ := Option.map_eq_some_iff.mp hruns
  simp only [Prod.mk.injEq] at hmachine
  obtain ⟨hbodies, hpc, hunit⟩ := hmachine
  have hleads := Machine.leads_of_after hafter
  obtain ⟨-, -, -, hstarted, hcircular⟩ := imports_bounded hleads
  have hthere : ⟨1, "there"⟩ ∈ machine.bodies := by
    rw [hbodies]
    decide
  have hgiven := hcircular 0 _ hthere (by rw [hunit, hpc]; rfl) (by rw [hunit]; rfl)
  rw [hpc] at hgiven
  exact ⟨machine, hleads, hbodies, hstarted, hgiven⟩

end FrozenScript
