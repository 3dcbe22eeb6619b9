import FrozenScript.Proofs.Machine.Recursion
import FrozenScript.Proofs.Machine.Session

/-!
# Calls in progress

The depth that an interpreter counts is the number of functions that were entered and not left yet.
Bodies of modules may run between them: each body remembers the depth that it was started at, which
is the number of calls below it (`Tallied`), so that leaving the body, whether it succeeds or fails,
brings the count back. The main statement is `depth_counts_calls`.

What a step does to the frames and to the depth is said once, by `next_moves`; that a step keeps the
count follows from it, and so does how a run ends.
-/

namespace FrozenScript

/-- A frame is the activation of a function. -/
def Frame.isCall (frame : Frame) : Bool :=
  match frame.activation with
  | .call _ => true
  | .body _ _ => false

/-- The number of activations of functions among some frames. -/
def calls (frames : List Frame) : Nat :=
  frames.countP Frame.isCall

/-- The number of functions that were entered and not left yet. -/
def Machine.calls (machine : Machine) : Nat :=
  FrozenScript.calls (machine.frame :: machine.callers)

/-- The number of functions that were entered and not left yet. Between calls there are none. -/
def Session.calls : Session → Nat
  | .idle _ => 0
  | .busy machine => machine.calls

/-! ## Steps -/

/-- What a step of a machine may do to the frames and to the depth. -/
inductive Machine.Moves (machine : Machine) : Outcome → Prop where
  /-- The frame goes on. -/
  | proceed {after : Interpreter} {following : Frame}
      (hdepth : after.depth = machine.interpreter.depth)
      (hframe : following.Continues machine.frame) :
      Moves machine (.running ⟨after, following, machine.callers⟩)
  /-- A function is entered. -/
  | call {after : Interpreter} {callee caller : Frame}
      (hroom : machine.interpreter.depth < maxDepth)
      (hdepth : after.depth = machine.interpreter.depth + 1) (hcallee : callee.isCall = true)
      (hcaller : caller.Continues machine.frame) :
      Moves machine (.running ⟨after, callee, caller :: machine.callers⟩)
  /-- The body of a module is started. -/
  | start {after : Interpreter} {callee caller : Frame} {name : String}
      (hdepth : after.depth = machine.interpreter.depth)
      (hcallee : callee.activation = .body name machine.interpreter.depth)
      (hcaller : caller.Continues machine.frame) :
      Moves machine (.running ⟨after, callee, caller :: machine.callers⟩)
  /-- The frame is left. -/
  | leave {after : Interpreter} (value : Value)
      (hdepth : after.depth = machine.interpreter.depth) :
      Moves machine (Machine.leave ⟨after, machine.frame, machine.callers⟩ value)
  /-- Every frame is left. -/
  | fail (after : Interpreter) (error : RuntimeError) :
      Moves machine
        (.failed ((machine.frame :: machine.callers).foldl Interpreter.abandon after) error)

/-- A step does nothing else to the frames and to the depth. -/
theorem next_moves (machine : Machine) : machine.Moves machine.next := by
  cases hinstr : machine.frame.unit.code[machine.frame.pc]? with
  | none =>
      rw [next_of_none hinstr]
      exact .fail _ _
  | some instr =>
  rw [next_of_instr hinstr]
  have hsame : Frame.Continues { machine.frame with pc := machine.frame.pc + 1 } machine.frame :=
    ⟨rfl, rfl, Activation.SameKind.refl _⟩
  have hfollows := perform_follows { machine.frame with pc := machine.frame.pc + 1 } instr
    machine.interpreter
  have heffect := perform_effect { machine.frame with pc := machine.frame.pc + 1 } instr
    machine.interpreter
  split
  next fault after hrun => exact .fail _ _
  next following after hrun =>
    have hframe : following.Continues _ := hfollows _ _ hrun
    rw [hrun] at heffect
    refine .proceed ?_ (hframe.trans hsame)
    cases heffect with
    | none hstate => exact hstate.depth
    | store => rfl
  next callee caller after hrun =>
    obtain ⟨-, hcaller⟩ := hfollows _ _ hrun
    rw [hrun] at heffect
    cases heffect with
    | none hstate henters => exact absurd rfl (henters callee caller)
    | @call _ _ _ locals _ hroom hcallee =>
        have hcall : callee.isCall = true := by
          unfold Frame.isCall
          rw [hcallee]
        exact .call hroom rfl hcall (hcaller.trans hsame)
    | start => exact .start rfl rfl (hcaller.trans hsame)
  next value after hrun =>
    rw [hrun] at heffect
    cases heffect with
    | none hstate => exact .leave value hstate.depth

/-! ## Counting -/

/-- Each body of a module remembers the number of calls that were in progress when it was started:
those below it, and `base` others. -/
def Tallied (base : Nat) (frames : List Frame) : Prop :=
  ∀ frame outer, frame :: outer <:+ frames → ∀ name depth, frame.activation = .body name depth →
    depth = base + calls outer

/-- A machine whose interpreter counts `base` calls more than those of its frames. -/
structure Machine.Tallies (machine : Machine) (base : Nat) : Prop where
  depth : machine.interpreter.depth = base + machine.calls
  tallied : Tallied base (machine.frame :: machine.callers)
  outermost : machine.base?.isSome = true
  room : machine.interpreter.depth ≤ max base maxDepth

/-- When a run is over, `base` calls are left. -/
def Outcome.Tallies (base : Nat) : Outcome → Prop
  | .running machine => machine.Tallies base
  | .finished interpreter | .failed interpreter _ => interpreter.depth = base

section

variable {base : Nat} {frame after before caller : Frame} {callers frames : List Frame}

theorem calls_cons_of_call (h : frame.isCall = true) (callers : List Frame) :
    calls (frame :: callers) = calls callers + 1 :=
  List.countP_cons_of_pos h

theorem calls_cons_of_body (h : frame.isCall = false) (callers : List Frame) :
    calls (frame :: callers) = calls callers :=
  List.countP_cons_of_neg (Bool.eq_false_iff.mp h)

theorem exists_body_of_isCall (h : frame.isCall = false) :
    ∃ name depth, frame.activation = .body name depth := by
  unfold Frame.isCall at h
  split at h
  next => exact nomatch h
  next name depth hactivation => exact ⟨name, depth, hactivation⟩

theorem isCall_of_body {name : String} {depth : Nat} (h : frame.activation = .body name depth) :
    frame.isCall = false := by
  unfold Frame.isCall
  rw [h]

theorem Frame.Continues.body_eq {name : String} {depth : Nat} (h : after.Continues before)
    (hafter : after.activation = .body name depth) : before.activation = .body name depth := by
  have hkind := h.activation
  rw [hafter] at hkind
  cases hbefore : before.activation with
  | body name' depth' =>
      rw [hbefore] at hkind
      obtain ⟨rfl, rfl⟩ := hkind
      rfl
  | call locals =>
      rw [hbefore] at hkind
      exact hkind.elim

theorem Frame.Continues.isCall_eq (h : after.Continues before) : after.isCall = before.isCall := by
  have hkind := h.activation
  unfold Frame.isCall
  cases hafter : after.activation <;> cases hbefore : before.activation <;> first
    | rfl
    | rw [hafter, hbefore] at hkind
      exact hkind.elim

theorem Frame.Continues.calls_eq (h : after.Continues before) (callers : List Frame) :
    calls (after :: callers) = calls (before :: callers) := by
  unfold calls
  rw [List.countP_cons, List.countP_cons, h.isCall_eq]

theorem tallied_cons :
    Tallied base (frame :: callers) ↔
      (∀ name depth, frame.activation = .body name depth → depth = base + calls callers) ∧
        Tallied base callers := by
  constructor
  · intro h
    refine ⟨h frame callers (List.suffix_refl _), fun inner outer hsuffix => ?_⟩
    exact h inner outer (hsuffix.trans (List.suffix_cons _ _))
  · rintro ⟨hframe, hcallers⟩ inner outer hsuffix
    rcases List.suffix_cons_iff.mp hsuffix with heq | hsuffix
    · obtain ⟨rfl, rfl⟩ := List.cons.inj heq
      exact hframe
    · exact hcallers inner outer hsuffix

theorem Frame.Continues.tallied (h : after.Continues before)
    (hbefore : Tallied base (before :: callers)) : Tallied base (after :: callers) := by
  obtain ⟨hframe, hcallers⟩ := tallied_cons.mp hbefore
  exact tallied_cons.mpr ⟨fun name depth hafter => hframe name depth (h.body_eq hafter), hcallers⟩

/-- Leaving frames up to the body of a module brings back the depth that it was started at. -/
theorem depth_abandon_of_body {name : String} {depth : Nat}
    (h : frame.activation = .body name depth) (inner : List Frame) (interpreter : Interpreter) :
    ((inner ++ [frame]).foldl Interpreter.abandon interpreter).depth = depth := by
  rw [List.foldl_append, List.foldl_cons, List.foldl_nil]
  unfold Interpreter.abandon
  rw [h]

/-- Leaving all frames brings back the depth below them, as the outermost one is a body. -/
theorem depth_abandon (h : Tallied base frames) (hbody : (base? frames).isSome = true)
    (interpreter : Interpreter) :
    (frames.foldl Interpreter.abandon interpreter).depth = base := by
  obtain ⟨module, hmodule⟩ := Option.isSome_iff_exists.mp hbody
  obtain ⟨frame, hlast, hframe⟩ := Option.bind_eq_some_iff.mp hmodule
  obtain ⟨inner, rfl⟩ := List.getLast?_eq_some_iff.mp hlast
  unfold Frame.body? at hframe
  split at hframe
  next name depth hactivation =>
    rw [depth_abandon_of_body hactivation]
    exact h frame [] (List.suffix_append _ _) name depth hactivation
  next => exact nomatch hframe

end

namespace Machine.Tallies

variable {machine : Machine} {base : Nat}

/-- Leaving a frame takes its call off the count, or what the body of a module has counted. -/
theorem leave {after : Interpreter} (h : machine.Tallies base)
    (hdepth : after.depth = machine.interpreter.depth) (value : Value) :
    (Machine.leave ⟨after, machine.frame, machine.callers⟩ value).Tallies base := by
  obtain ⟨interpreter, frame, callers⟩ := machine
  obtain ⟨hcount, htallied, houtermost, hroom⟩ := h
  obtain ⟨hframe, hcallers⟩ := tallied_cons.mp htallied
  dsimp only [Machine.calls, Machine.base?] at hcount houtermost hroom hdepth
  unfold Machine.leave
  dsimp only
  cases callers with
  | nil =>
      cases hactivation : frame.activation with
      | body name depth => exact hframe name depth hactivation
      | call locals =>
          have hnone : FrozenScript.base? [frame] = none := by
            show frame.body? = none
            unfold Frame.body?
            rw [hactivation]
          rw [hnone] at houtermost
          exact nomatch houtermost
  | cons caller callers =>
      have hpush (pushed : Value) := push_continues caller pushed
      have hbase (pushed : Value) :
          (FrozenScript.base? (caller.push pushed :: callers)).isSome = true := by
        rw [(hpush pushed).base?_eq]
        exact houtermost
      cases hactivation : frame.activation with
      | body name depth =>
          have hbody := isCall_of_body hactivation
          rw [calls_cons_of_body hbody] at hcount
          have hback := hframe name depth hactivation
          refine ⟨?_, (hpush _).tallied hcallers, hbase _, ?_⟩
          · exact hback.trans (congrArg _ ((hpush _).calls_eq callers).symm)
          · exact Nat.le_trans (Nat.le_of_eq (hback.trans hcount.symm)) hroom
      | call locals =>
          have hcall : frame.isCall = true := by
            unfold Frame.isCall
            rw [hactivation]
          rw [calls_cons_of_call hcall] at hcount
          refine ⟨?_, (hpush _).tallied hcallers, hbase _, ?_⟩
          · show after.depth - 1 = base + FrozenScript.calls (caller.push value :: callers)
            rw [(hpush value).calls_eq callers]
            omega
          · show after.depth - 1 ≤ max base maxDepth
            omega

/-- Every step keeps the count, and a run that ends has brought it back. -/
theorem next (h : machine.Tallies base) : machine.next.Tallies base := by
  have hmoves := next_moves machine
  generalize machine.next = outcome at hmoves
  cases hmoves with
  | proceed hdepth hframe =>
      refine ⟨?_, hframe.tallied h.tallied, ?_, ?_⟩
      · rw [hdepth, h.depth]
        exact congrArg _ (hframe.calls_eq _).symm
      · exact (congrArg _ (hframe.base?_eq _)).trans h.outermost
      · rw [hdepth]
        exact h.room
  | call hroom hdepth hcallee hcaller =>
      refine ⟨?_, tallied_cons.mpr ⟨fun name depth hbody => ?_, hcaller.tallied h.tallied⟩, ?_, ?_⟩
      · show _ = base + FrozenScript.calls _
        rw [hdepth, h.depth, calls_cons_of_call hcallee, hcaller.calls_eq]
        rfl
      · exact nomatch hcallee.symm.trans (isCall_of_body hbody)
      · exact (congrArg _ (hcaller.base?_eq _)).trans h.outermost
      · rw [hdepth]
        exact Nat.le_trans hroom (Nat.le_max_right _ _)
  | start hdepth hcallee hcaller =>
      have hcalls := hcaller.calls_eq machine.callers
      refine ⟨?_, tallied_cons.mpr ⟨fun name depth hbody => ?_, hcaller.tallied h.tallied⟩, ?_, ?_⟩
      · show _ = base + FrozenScript.calls _
        rw [hdepth, h.depth, calls_cons_of_body (isCall_of_body hcallee), hcalls]
        rfl
      · obtain ⟨-, rfl⟩ := Activation.body.inj (hcallee.symm.trans hbody)
        rw [hcalls]
        exact h.depth
      · exact (congrArg _ (hcaller.base?_eq _)).trans h.outermost
      · rw [hdepth]
        exact h.room
  | leave value hdepth => exact h.leave hdepth value
  | fail after error => exact depth_abandon h.tallied h.outermost after

theorem run {steps : Nat} {after : Interpreter} {result : Except RuntimeError Unit}
    (h : machine.Tallies base) (hrun : machine.run steps = some (after, result)) :
    after.depth = base := by
  induction steps generalizing machine with
  | zero => exact nomatch hrun
  | succ steps ih =>
      have hnext := h.next
      rw [Machine.run] at hrun
      split at hrun
      next following heq =>
        rw [heq] at hnext
        exact ih hnext hrun
      next finished heq =>
        obtain ⟨rfl, -⟩ := Prod.mk.inj (Option.some.inj hrun)
        rw [heq] at hnext
        exact hnext
      next failed error heq =>
        obtain ⟨rfl, -⟩ := Prod.mk.inj (Option.some.inj hrun)
        rw [heq] at hnext
        exact hnext

end Machine.Tallies

/-- A call of the interpreter begins with the body of its module, at the depth of the
interpreter. -/
theorem tallies_machine (interpreter : Interpreter) (name : String) (unit : CodeUnit) :
    (interpreter.machine name unit).Tallies interpreter.depth := by
  refine ⟨rfl, tallied_cons.mpr ⟨?_, ?_⟩, rfl, Nat.le_max_left _ _⟩
  · rintro _ _ ⟨⟩
    rfl
  · intro frame outer hsuffix
    exact nomatch List.suffix_nil.mp hsuffix

/-- Whatever a call of the interpreter does, it brings the depth back. -/
theorem depth_of_run {interpreter after : Interpreter} {steps : Nat} {name : String}
    {unit : CodeUnit} {result : Except RuntimeError ScriptModule}
    (hrun : interpreter.run steps name unit = some (after, result)) :
    after.depth = interpreter.depth := by
  rw [run_eq_map] at hrun
  obtain ⟨⟨ended, ending⟩, hmachine, heq⟩ := Option.map_eq_some_iff.mp hrun
  obtain ⟨rfl, -⟩ := Prod.mk.inj heq
  exact (tallies_machine interpreter name unit).run hmachine

theorem depth_of_runImage {interpreter after : Interpreter} {steps : Nat} {name : String}
    {image : Image} {result : Except RuntimeError ScriptModule}
    (hrun : interpreter.runImage steps name image = some (after, result)) :
    after.depth = interpreter.depth := by
  cases hdecode : Image.decode image with
  | ok unit =>
      rw [interpreter.runImage_of_decode hdecode] at hrun
      exact depth_of_run hrun
  | error fault =>
      rw [Interpreter.runImage_of_fault hdecode] at hrun
      obtain ⟨rfl, -⟩ := Prod.mk.inj (Option.some.inj hrun)
      rfl

/-! ## Sessions -/

/-- Between calls no call is in progress, and during them the interpreter counts those of the
frames. -/
def Session.Tallies : Session → Prop
  | .idle interpreter => interpreter.depth = 0
  | .busy machine => machine.Tallies 0

theorem Session.Tallies.step {session following : Session} (h : session.Tallies)
    (hstep : Session.Step session following) : following.Tallies := by
  cases hstep with
  | withFrozen interpreter frozen => exact h
  | run interpreter name unit =>
      have hmachine := tallies_machine interpreter name unit
      rw [show interpreter.depth = 0 from h] at hmachine
      exact hmachine
  | next machine =>
      have hnext := Machine.Tallies.next h
      revert hnext
      cases machine.next <;> exact id

theorem Session.Tallies.later {session later : Session} (h : session.Tallies)
    (hlater : Session.Later session later) : later.Tallies := by
  induction hlater with
  | refl => exact h
  | tail _ hstep ih => exact ih.step hstep

theorem Session.Tallies.depth_eq {session : Session} (h : session.Tallies) :
    session.interpreter.depth = session.calls := by
  cases session with
  | idle interpreter => exact h
  | busy machine => exact (Machine.Tallies.depth h).trans (Nat.zero_add _)

/-- At every moment of a session the interpreter counts exactly the functions that were entered and
not left yet, and they are at most 200. A step fails because of too many calls exactly if it calls a
function with the right number of arguments while there are 200. There is a call to take off the
count whenever a function is left, and if the body of a module fails, leaving the frames up to it
brings the count back to the calls below it. So every call of an interpreter, whether it succeeds or
fails, brings the count back. -/
theorem depth_counts_calls {sink : Sink} {session : Session}
    (h : Session.Later (.idle { sink }) session) :
    session.interpreter.depth = session.calls ∧ session.calls ≤ 200 ∧
    (∀ machine, session = .busy machine →
      (machine.FailsDeep ↔ ∃ function args, machine.CallsFunction function args ∧
        function.code.params.length = args.length ∧ machine.calls = 200) ∧
      (machine.frame.isCall = true → 0 < machine.interpreter.depth) ∧
      ∀ inner frame outer, machine.frame :: machine.callers = inner ++ frame :: outer →
        frame.isCall = false → ∀ interpreter,
          ((inner ++ [frame]).foldl Interpreter.abandon interpreter).depth = calls outer) ∧
    ∀ (interpreter : Interpreter) steps name unit image after result,
      interpreter.run steps name unit = some (after, result) ∨
        interpreter.runImage steps name image = some (after, result) →
      after.depth = interpreter.depth := by
  have hidle : (Session.idle { sink }).Tallies := rfl
  have htallies := hidle.later h
  have hdepth := htallies.depth_eq
  have hbound : session.calls ≤ 200 := by
    rw [← hdepth]
    cases session with
    | idle interpreter => exact Nat.le_trans (Nat.le_of_eq htallies) (Nat.zero_le _)
    | busy machine => exact Machine.Tallies.room htallies
  refine ⟨hdepth, hbound, ?_, ?_⟩
  · rintro machine rfl
    have hmachine : machine.interpreter.depth = machine.calls := hdepth
    have hmost : machine.calls ≤ 200 := hbound
    refine ⟨?_, fun hcall => ?_, fun inner frame outer hframes hbody interpreter => ?_⟩
    · have hfull : maxDepth ≤ machine.interpreter.depth ↔ machine.calls = 200 := by
        rw [hmachine]
        exact ⟨Nat.le_antisymm hmost, Nat.le_of_eq ∘ Eq.symm⟩
      rw [failsDeep_iff, hfull]
    · rw [hmachine, Machine.calls, calls_cons_of_call hcall]
      exact Nat.succ_pos _
    · obtain ⟨name, depth, hactivation⟩ := exists_body_of_isCall hbody
      have hsuffix : frame :: outer <:+ machine.frame :: machine.callers := ⟨inner, hframes.symm⟩
      rw [depth_abandon_of_body hactivation]
      have hcount := Machine.Tallies.tallied htallies frame outer hsuffix name depth hactivation
      exact hcount.trans (Nat.zero_add _)
  · rintro interpreter steps name unit image after result (hrun | hrun)
    · exact depth_of_run hrun
    · exact depth_of_runImage hrun

/-- A function that calls itself is entered 200 times, and the next call fails. -/
theorem depth_counts_calls_endless :
    let function : CodeUnit :=
      ⟨"f", "main", [], [], #["f"], #[.loadName 0, .call 0, .giveBack], #[1, 1, 1]⟩
    let main : CodeUnit :=
      ⟨"<module>", "main", [], [.code function], #["f"],
        #[.makeFunction 0, .storeName 0, .loadName 0, .call 0, .giveBack], #[1, 1, 2, 2, 2]⟩
    ∃ machine, (Interpreter.machine {} "main" main).Leads machine ∧
      Session.Later (.idle {}) (.busy machine) ∧ machine.interpreter.depth = 200 ∧
      machine.FailsDeep := by
  intro function main
  have hruns : ((Interpreter.machine {} "main" main).after 403).map (fun machine =>
      (machine.calls, machine.frame.pc, machine.frame.unit, machine.frame.stack)) =
        some (200, 1, function, [.function ⟨0, function, 0⟩]) := by
    decide +kernel
  obtain ⟨machine, hafter, hmachine⟩ := Option.map_eq_some_iff.mp hruns
  simp only [Prod.mk.injEq] at hmachine
  obtain ⟨hcalls, hpc, hunit, hstack⟩ := hmachine
  have hleads := Machine.leads_of_after hafter
  have hlater : Session.Later (.idle {}) (.busy machine) :=
    (Session.later_of_leads hleads).head (.run {} "main" main)
  obtain ⟨hdepth, -, hbusy, -⟩ := depth_counts_calls hlater
  refine ⟨machine, hleads, hlater, hdepth.trans hcalls, (hbusy machine rfl).1.mpr ?_⟩
  refine ⟨⟨0, function, 0⟩, [], ⟨⟨0, rfl, ?_⟩, [], hstack⟩, rfl, hcalls⟩
  rw [hunit, hpc]
  rfl

end FrozenScript
