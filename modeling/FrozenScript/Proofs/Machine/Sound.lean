import FrozenScript.Proofs.Code.WellFormed
import FrozenScript.Proofs.Image.Canonical
import FrozenScript.Proofs.Machine.Step

/-!
# Sound machines

A machine is sound if every unit that it may come to run has heights of the stack that all its
instructions fit (`CodeUnit.Sound`), and if every frame is at an instruction with the stack that
belongs there. Every step keeps a machine sound, and no step of a sound machine fails because the
code is malformed (`next_sound`).
-/

namespace FrozenScript

/-- All instructions of a unit, and of those inside it, fit some heights of the stack. -/
def CodeUnit.Sound (unit : CodeUnit) : Prop :=
  ∀ inner ∈ unit.units, ∃ height, inner.FlowsBy height

/-- A value holds only sound units. -/
def Value.Sound : Value → Prop
  | .function value => value.code.Sound
  | .none | .bool _ | .int _ | .text _ | .builtin _ | .module _ => True

/-- The values of variables hold only sound units. -/
def Namespace.Sound (table : Namespace) : Prop :=
  ∀ name value, table.get? name = some value → value.Sound

/-- An interpreter can only come to run sound units. -/
structure Interpreter.Sound (interpreter : Interpreter) : Prop where
  frozen : ∀ name image unit, interpreter.frozen.get? name = some image →
    Image.decode image = .ok unit → unit.Sound
  globals : ∀ module, (interpreter.globalsOf module).Sound

/-- A frame holds only sound units. -/
structure Frame.Sound (frame : Frame) : Prop where
  unit : frame.unit.Sound
  stack : ∀ value ∈ frame.stack, value.Sound
  locals : frame.locals.Sound

/-- A frame is at an instruction, and if some more values were on its stack it would have the
height that belongs there. -/
def Frame.Awaits (frame : Frame) (height : Nat → Nat) (missing : Nat) : Prop :=
  frame.pc < frame.unit.code.size ∧ height frame.pc = frame.stack.length + missing

/-- A fault that does not blame the code. -/
def Fault.Proper (fault : Fault) : Prop :=
  ∀ defect, fault ≠ .badCode defect

/-! ## Actions -/

/-- What is given in place of a value does not blame the code, and the value has a property. -/
def Gives {α : Type} (result : Except Fault α) (P : α → Prop) : Prop :=
  match result with
  | .ok value => P value
  | .error fault => fault.Proper

/-- An action keeps an interpreter sound, and what it gives has a property unless it fails without
blaming the code. -/
def Keeps {α : Type} (action : Action α) (P : α → Prop) : Prop :=
  ∀ interpreter, interpreter.Sound →
    (action.run interpreter).2.Sound ∧ Gives (action.run interpreter).1 P

section

variable {α β : Type} {P : α → Prop} {Q : β → Prop}

theorem Keeps.pure {value : α} (h : P value) : Keeps (pure value) P :=
  fun _ hsound => ⟨hsound, h⟩

theorem Keeps.throw {fault : Fault} (h : fault.Proper) :
    Keeps (throw fault : Action α) P :=
  fun _ hsound => ⟨hsound, h⟩

theorem Keeps.lift {result : Except Fault α} (h : Gives result P) :
    Keeps (liftM result) P :=
  fun _ hsound => ⟨hsound, h⟩

theorem Keeps.get : Keeps get Interpreter.Sound :=
  fun _ hsound => ⟨hsound, hsound⟩

theorem Keeps.set {interpreter : Interpreter} (h : interpreter.Sound) :
    Keeps (set interpreter) fun _ => True :=
  fun _ _ => ⟨h, trivial⟩

theorem Keeps.modify {change : Interpreter → Interpreter}
    (h : ∀ interpreter, interpreter.Sound → (change interpreter).Sound) :
    Keeps (modify change) fun _ => True :=
  fun interpreter hsound => ⟨h interpreter hsound, trivial⟩

theorem Keeps.bind {action : Action α} {next : α → Action β} (h : Keeps action P)
    (hnext : ∀ value, P value → Keeps (next value) Q) : Keeps (action >>= next) Q := by
  intro interpreter hsound
  have hfirst := h interpreter hsound
  rw [Action.run_bind]
  split
  next value after heq =>
    rw [heq] at hfirst
    exact hnext value hfirst.2 after hfirst.1
  next fault after heq =>
    rw [heq] at hfirst
    exact hfirst

theorem Keeps.lift_ok {value : α} {next : α → Action β} (h : Keeps (next value) Q) :
    Keeps (liftM (Except.ok value : Except Fault α) >>= next) Q :=
  h

theorem Keeps.throw_bind {fault : Fault} {next : α → Action β} (h : fault.Proper) :
    Keeps (MonadExcept.throw fault >>= next) Q :=
  fun _ hsound => ⟨hsound, h⟩

end

/-! ## Values -/

theorem bounded_gives (n : Int) : Gives (bounded n) Value.Sound := by
  unfold bounded
  split
  · trivial
  · exact nofun

theorem onInts_gives (op : BinaryOp) (a b : Int64) : Gives (op.onInts a b) Value.Sound := by
  cases op with
  | add | sub | mul => exact bounded_gives _
  | floorDiv =>
      unfold BinaryOp.onInts
      dsimp only
      split
      · exact nofun
      · split
        · trivial
        · exact nofun
  | mod =>
      unfold BinaryOp.onInts
      dsimp only
      split
      · exact nofun
      · trivial

theorem joinTexts_gives (a b : String) : Gives (joinTexts a b) Value.Sound := by
  unfold joinTexts
  split
  · trivial
  · exact nofun

theorem repeatText_gives (text : String) (count : Int) :
    Gives (repeatText text count) Value.Sound := by
  unfold repeatText
  split
  · trivial
  · exact nofun

theorem binary_gives (op : BinaryOp) (left right : Value) :
    Gives (op.apply left right) Value.Sound := by
  unfold BinaryOp.apply
  split
  · exact onInts_gives op _ _
  · split
    · exact joinTexts_gives _ _
    · split
      · exact repeatText_gives _ _
      · exact nofun
    · split
      · exact repeatText_gives _ _
      · exact nofun
    · exact nofun

theorem unary_gives (op : UnaryOp) (operand : Value) : Gives (op.apply operand) Value.Sound := by
  cases op with
  | not => trivial
  | neg =>
      unfold UnaryOp.apply
      dsimp only
      split
      · exact bounded_gives _
      · exact nofun

theorem compare_gives (op : CompareOp) (left right : Value) :
    Gives (op.apply left right) Value.Sound := by
  unfold CompareOp.apply
  split
  · trivial
  · trivial
  · split
    · trivial
    · exact nofun

theorem parseInt_gives (text : String) : Gives (Builtin.parseInt text) Value.Sound := by
  unfold Builtin.parseInt
  split
  · trivial
  · exact nofun

theorem onValue_gives (builtin : Builtin) (arg : Value) :
    Gives (builtin.onValue arg) Value.Sound := by
  cases builtin with
  | print | str | repr => trivial
  | len =>
      unfold Builtin.onValue
      dsimp only
      split
      · trivial
      · exact nofun
  | int =>
      unfold Builtin.onValue
      dsimp only
      split
      · trivial
      · split
        · exact parseInt_gives _
        · exact nofun

/-- No built-in function gives a unit or blames the code. -/
theorem builtin_gives (builtin : Builtin) (args : List Value) (sink : Sink) :
    Gives (builtin.call args sink).1 Value.Sound := by
  unfold Builtin.call
  split
  · dsimp only
    split
    · trivial
    · exact nofun
  · exact onValue_gives _ _
  · exact nofun

/-! ## Variables -/

theorem sound_nil : Namespace.Sound [] :=
  fun _ _ h => nomatch h

theorem sound_set {table : Namespace} {name : String} {value : Value}
    (h : table.Sound) (hvalue : value.Sound) : Namespace.Sound (table.set name value) := by
  intro other found hfound
  rw [Table.get?_set] at hfound
  split at hfound
  · obtain rfl := Option.some.inj hfound
    exact hvalue
  · exact h other found hfound

theorem bind_sound {bindings : List (String × Value)} {table : Namespace}
    (h : table.Sound) (hbindings : ∀ binding ∈ bindings, binding.2.Sound) :
    Namespace.Sound
      (bindings.foldl (fun locals (name, value) => locals.set name value) table) := by
  induction bindings generalizing table with
  | nil => exact h
  | cons binding rest ih =>
      refine ih (sound_set h ?_) fun other hother => ?_
      · exact hbindings binding List.mem_cons_self
      · exact hbindings other (List.mem_cons_of_mem _ hother)

theorem bindParams_sound {params : List String} {args : List Value}
    (h : ∀ value ∈ args, value.Sound) : (bindParams params args).Sound :=
  bind_sound sound_nil fun _ hbinding => h _ (List.of_mem_zip hbinding).2

theorem mem_unitsOfConstants {consts : List Constant} {unit inner : CodeUnit}
    (hunit : .code unit ∈ consts) (hinner : inner ∈ unit.units) :
    inner ∈ unitsOfConstants consts := by
  induction consts with
  | nil => exact nomatch hunit
  | cons const rest ih =>
      rw [unitsOfConstants]
      rcases List.mem_cons.mp hunit with rfl | hrest
      · exact List.mem_append_left _ hinner
      · exact List.mem_append_right _ (ih hrest)

theorem CodeUnit.Sound.of_mem_consts {unit inner : CodeUnit} (h : unit.Sound)
    (hinner : .code inner ∈ unit.consts) : inner.Sound := by
  intro innermost hinnermost
  refine h innermost ?_
  rw [CodeUnit.units_eq]
  exact List.mem_cons_of_mem _ (mem_unitsOfConstants hinner hinnermost)

namespace Interpreter

variable {interpreter : Interpreter}

theorem globalsOf_setGlobal (module : Nat) (name : String) (value : Value) (other : Nat) :
    (interpreter.setGlobal module name value).globalsOf other =
      if other = module ∧ other < interpreter.globals.size then
        (interpreter.globalsOf module).set name value
      else interpreter.globalsOf other := by
  unfold Interpreter.globalsOf Interpreter.setGlobal
  dsimp only
  rw [Array.getElem?_modify]
  split
  next heq =>
    subst heq
    by_cases hlt : module < interpreter.globals.size
    · rw [if_pos ⟨rfl, hlt⟩, Array.getElem?_eq_getElem hlt]
      rfl
    · rw [if_neg (fun h => hlt h.2), Array.getElem?_eq_none (Nat.not_lt.mp hlt)]
      rfl
  next hne => rw [if_neg (fun h => hne h.1.symm)]

theorem Sound.setGlobal {module : Nat} {name : String} {value : Value} (h : interpreter.Sound)
    (hvalue : value.Sound) : (interpreter.setGlobal module name value).Sound := by
  refine ⟨h.frozen, fun other => ?_⟩
  rw [globalsOf_setGlobal]
  split
  · exact sound_set (h.globals module) hvalue
  · exact h.globals other

theorem Sound.start (h : interpreter.Sound) (name : String) (unit : CodeUnit) :
    (interpreter.start name unit).1.Sound := by
  refine ⟨h.frozen, fun module => ?_⟩
  by_cases heq : module = interpreter.globals.size
  · have hnew : (interpreter.start name unit).1.globalsOf module = [] := by
      unfold Interpreter.globalsOf Interpreter.start
      rw [heq, Array.getElem?_push_size]
      rfl
    rw [hnew]
    exact sound_nil
  · have hold : (interpreter.start name unit).1.globalsOf module =
        interpreter.globalsOf module := by
      unfold Interpreter.globalsOf Interpreter.start
      rw [Array.getElem?_push, if_neg heq]
    rw [hold]
    exact h.globals module

theorem Sound.abandon (h : interpreter.Sound) (frame : Frame) :
    (interpreter.abandon frame).Sound := by
  unfold Interpreter.abandon
  split
  · exact ⟨h.frozen, h.globals⟩
  · exact h

end Interpreter

/-! ## Frames -/

/-- How a frame of a unit goes on is sound, and the stack has the height that belongs there. -/
def Flow.Continues (unit : CodeUnit) (height : Nat → Nat) : Flow → Prop
  | .proceed frame => frame.Sound ∧ frame.unit = unit ∧ frame.Awaits height 0
  | .enter callee caller =>
    (callee.Sound ∧ callee.pc = 0 ∧ callee.stack = []) ∧
      caller.Sound ∧ caller.unit = unit ∧ caller.Awaits height 1
  | .giveBack value => value.Sound

theorem Frame.Sound.withStack {frame : Frame} (h : frame.Sound) {stack : List Value}
    (hstack : ∀ value ∈ stack, value.Sound) : Frame.Sound { frame with stack } :=
  ⟨h.unit, hstack, h.locals⟩

theorem Frame.Sound.push {frame : Frame} {value : Value} (h : frame.Sound) (hvalue : value.Sound) :
    (frame.push value).Sound := by
  refine h.withStack fun other hother => ?_
  rcases List.mem_cons.mp hother with rfl | hrest
  · exact hvalue
  · exact h.stack other hrest

theorem nameAt_gives {unit : CodeUnit} {index : UInt32} (h : index.toNat < unit.names.size) :
    Gives (unit.nameAt index) fun _ => True := by
  unfold CodeUnit.nameAt
  rw [Array.getElem?_eq_getElem h]
  trivial

theorem valueAt_gives {unit : CodeUnit} {index : UInt32} {value : Constant}
    (h : unit.consts[index.toNat]? = some value) (hvalue : ∀ inner, value ≠ .code inner) :
    Gives (unit.valueAt index) Value.Sound := by
  unfold CodeUnit.valueAt
  rw [h]
  cases value with
  | code inner => exact absurd rfl (hvalue inner)
  | _ => trivial

theorem unitAt_gives {unit inner : CodeUnit} {index : UInt32} (hunit : unit.Sound)
    (h : unit.consts[index.toNat]? = some (.code inner)) :
    Gives (unit.unitAt index) CodeUnit.Sound := by
  unfold CodeUnit.unitAt
  rw [h]
  exact hunit.of_mem_consts (List.mem_of_getElem? h)

theorem lookUp_gives {frame : Frame} {name : String} {interpreter : Interpreter}
    (hframe : frame.Sound) (h : interpreter.Sound) :
    Gives (lookUp frame name interpreter) Value.Sound := by
  unfold lookUp
  split
  next value hvalue => exact hframe.locals _ _ hvalue
  next =>
    split
    next value hvalue => exact h.globals _ _ _ hvalue
    next =>
      split
      · trivial
      · exact nofun

theorem member_gives {object : Value} {name : String} {interpreter : Interpreter}
    (h : interpreter.Sound) : Gives (member object name interpreter) Value.Sound := by
  unfold member
  split
  · split
    next value hvalue => exact h.globals _ _ _ hvalue
    next => exact nofun
  · exact nofun

/-- A frame that gave a variable a value has the stack that it had. -/
theorem store_keeps {frame : Frame} {name : String} {value : Value} (hframe : frame.Sound)
    (hvalue : value.Sound) : Keeps (store frame name value) fun stored =>
      stored.Sound ∧ ∃ activation, stored = { frame with activation } := by
  obtain ⟨unit, pc, stack, home, activation⟩ := frame
  cases activation with
  | call locals =>
      refine Keeps.pure ⟨⟨hframe.unit, hframe.stack, ?_⟩, _, rfl⟩
      exact sound_set hframe.locals hvalue
  | body name depth =>
      refine Keeps.bind (Keeps.modify fun _ h => h.setGlobal hvalue) fun _ _ => ?_
      exact Keeps.pure ⟨hframe, _, rfl⟩

theorem makeFunction_keeps {code : CodeUnit} {home : Nat} (h : code.Sound) :
    Keeps (makeFunction code home) Value.Sound := by
  refine Keeps.bind Keeps.get fun interpreter hsound => ?_
  refine Keeps.bind (Keeps.set ⟨hsound.frozen, hsound.globals⟩) fun _ _ => ?_
  exact Keeps.pure h

section

variable {unit : CodeUnit} {height : Nat → Nat}

/-- A frame that has taken the callee and the arguments from its stack waits for one value. -/
theorem callValue_keeps {callee : Value} {args : List Value} {caller : Frame}
    (hcallee : callee.Sound) (hargs : ∀ value ∈ args, value.Sound) (hcaller : caller.Sound)
    (hunit : caller.unit = unit) (hawaits : caller.Awaits height 1) :
    Keeps (callValue callee args caller) (Flow.Continues unit height) := by
  unfold callValue
  split
  next builtin =>
    refine Keeps.bind Keeps.get fun interpreter hsound => ?_
    dsimp only
    refine Keeps.bind (Keeps.set ⟨hsound.frozen, hsound.globals⟩) fun _ _ => ?_
    refine Keeps.bind (Keeps.lift (builtin_gives builtin args _)) fun value hvalue => ?_
    exact Keeps.pure ⟨hcaller.push hvalue, hunit, hawaits⟩
  next function =>
    dsimp only
    split
    · exact Keeps.throw_bind nofun
    refine Keeps.bind Keeps.get fun interpreter hsound => ?_
    split
    · exact Keeps.throw_bind nofun
    refine Keeps.bind (Keeps.set ⟨hsound.frozen, hsound.globals⟩) fun _ _ => ?_
    refine Keeps.pure ⟨⟨⟨hcallee, nofun, bindParams_sound hargs⟩, rfl, rfl⟩, hcaller, hunit, ?_⟩
    exact hawaits
  next => exact Keeps.throw nofun

/-- A frame that imports a module waits for one value. -/
theorem importModule_keeps {name : String} {frame : Frame} (hframe : frame.Sound)
    (hunit : frame.unit = unit) (hawaits : frame.Awaits height 1) :
    Keeps (importModule name frame) (Flow.Continues unit height) := by
  refine Keeps.bind Keeps.get fun interpreter hsound => ?_
  dsimp only
  split
  next module _ => exact Keeps.pure ⟨hframe.push trivial, hunit, hawaits⟩
  next =>
    split
    next => exact Keeps.throw nofun
    next image himage =>
      have hdecode : Gives ((Image.decode image).mapError (.badImage name))
          (fun code : CodeUnit => code.Sound) := by
        cases hdecode : Image.decode image with
        | error fault => exact nofun
        | ok code => exact hsound.frozen name image code himage hdecode
      refine Keeps.bind (Keeps.lift hdecode) fun code hcode => ?_
      refine Keeps.bind (Keeps.set (hsound.start name code)) fun _ _ => ?_
      refine Keeps.pure ⟨⟨⟨hcode, nofun, sound_nil⟩, rfl, rfl⟩, hframe, hunit, hawaits⟩

/-- A frame that takes two operands goes on with what the operator gives for them. -/
theorem operands_keep {frame : Frame} {op : Value → Value → Except Fault Value}
    (hframe : frame.Sound) (hpops : 1 < frame.stack.length)
    (hawaits : frame.pc < frame.unit.code.size ∧ height frame.pc = frame.stack.length - 1)
    (hgives : ∀ left right, Gives (op left right) Value.Sound) :
    Keeps (do
      let (left, right, popped) ← frame.popTwo
      return .proceed (popped.push (← op left right))) (Flow.Continues frame.unit height) := by
  obtain ⟨unit, pc, stack, home, activation⟩ := frame
  obtain ⟨right, rest, rfl⟩ := List.exists_cons_of_length_pos (Nat.zero_lt_of_lt hpops)
  obtain ⟨left, rest, rfl⟩ := List.exists_cons_of_length_pos (Nat.lt_of_succ_lt_succ hpops)
  obtain ⟨-, hrest⟩ := List.forall_mem_cons.mp (List.forall_mem_cons.mp hframe.stack).2
  refine Keeps.lift_ok ?_
  refine Keeps.bind (Keeps.lift (hgives left right)) fun result hresult => ?_
  exact Keeps.pure ⟨(hframe.withStack hrest).push hresult, rfl, hawaits⟩

/-- An instruction that fits the heights leads from a sound frame to sound frames, and does not
fail because the code is malformed. The frame already points behind the instruction. -/
theorem perform_keeps {frame : Frame} {pc : Nat} {instr : Instr} (hframe : frame.Sound)
    (hpc : frame.pc = pc + 1) (hheight : height pc = frame.stack.length)
    (hflows : instr.Flows frame.unit height pc) :
    Keeps (perform frame instr) (Flow.Continues frame.unit height) := by
  obtain ⟨hrefers, hpops, hedges⟩ := hflows
  obtain ⟨unit, _, stack, home, activation⟩ := frame
  subst hpc
  dsimp only at hheight hrefers hedges ⊢
  rw [hheight] at hpops hedges
  cases instr with
  | loadConst index =>
      obtain ⟨value, hconst, hvalue⟩ := hrefers
      obtain ⟨hlt, hnext⟩ := hedges _ List.mem_cons_self
      refine Keeps.bind (Keeps.lift (valueAt_gives hconst hvalue)) fun found hfound => ?_
      exact Keeps.pure ⟨hframe.push hfound, rfl, hlt, hnext⟩
  | loadName index =>
      obtain ⟨hlt, hnext⟩ := hedges _ List.mem_cons_self
      refine Keeps.bind (Keeps.lift (nameAt_gives hrefers)) fun name _ => ?_
      refine Keeps.bind Keeps.get fun interpreter hsound => ?_
      refine Keeps.bind (Keeps.lift (lookUp_gives hframe hsound)) fun found hfound => ?_
      exact Keeps.pure ⟨hframe.push hfound, rfl, hlt, hnext⟩
  | storeName index =>
      obtain ⟨value, rest, rfl⟩ := List.exists_cons_of_length_pos hpops
      obtain ⟨hlt, hnext⟩ := hedges _ List.mem_cons_self
      obtain ⟨hvalue, hrest⟩ := List.forall_mem_cons.mp hframe.stack
      refine Keeps.bind (Keeps.lift (nameAt_gives hrefers)) fun name _ => ?_
      refine Keeps.lift_ok ?_
      refine Keeps.bind (store_keeps (hframe.withStack hrest) hvalue) fun stored hstored => ?_
      obtain ⟨hsound, activation, rfl⟩ := hstored
      exact Keeps.pure ⟨hsound, rfl, hlt, hnext⟩
  | loadMember index =>
      obtain ⟨object, rest, rfl⟩ := List.exists_cons_of_length_pos hpops
      obtain ⟨hlt, hnext⟩ := hedges _ List.mem_cons_self
      obtain ⟨-, hrest⟩ := List.forall_mem_cons.mp hframe.stack
      refine Keeps.bind (Keeps.lift (nameAt_gives hrefers)) fun name _ => ?_
      refine Keeps.lift_ok ?_
      refine Keeps.bind Keeps.get fun interpreter hsound => ?_
      refine Keeps.bind (Keeps.lift (member_gives hsound)) fun found hfound => ?_
      exact Keeps.pure ⟨(hframe.withStack hrest).push hfound, rfl, hlt, hnext⟩
  | importName index =>
      refine Keeps.bind (Keeps.lift (nameAt_gives hrefers)) fun name _ => ?_
      exact importModule_keeps hframe rfl (hedges _ List.mem_cons_self)
  | binaryOp op =>
      exact operands_keep hframe hpops (hedges _ List.mem_cons_self) (binary_gives op)
  | unaryOp op =>
      obtain ⟨operand, rest, rfl⟩ := List.exists_cons_of_length_pos hpops
      obtain ⟨hlt, hnext⟩ := hedges _ List.mem_cons_self
      obtain ⟨-, hrest⟩ := List.forall_mem_cons.mp hframe.stack
      refine Keeps.lift_ok ?_
      refine Keeps.bind (Keeps.lift (unary_gives op operand)) fun result hresult => ?_
      exact Keeps.pure ⟨(hframe.withStack hrest).push hresult, rfl, hlt, hnext⟩
  | compare op =>
      exact operands_keep hframe hpops (hedges _ List.mem_cons_self) (compare_gives op)
  | jump target =>
      obtain ⟨hlt, hnext⟩ := hedges _ List.mem_cons_self
      exact Keeps.pure ⟨⟨hframe.unit, hframe.stack, hframe.locals⟩, rfl, hlt, hnext⟩
  | popJumpIfFalse target | popJumpIfTrue target =>
      obtain ⟨value, rest, rfl⟩ := List.exists_cons_of_length_pos hpops
      have hbehind := hedges _ List.mem_cons_self
      have hthere := hedges _ (List.mem_cons_of_mem _ List.mem_cons_self)
      obtain ⟨-, hrest⟩ := List.forall_mem_cons.mp hframe.stack
      refine Keeps.lift_ok (Keeps.pure ?_)
      split
      · exact ⟨⟨hframe.unit, hrest, hframe.locals⟩, rfl, hthere⟩
      · exact ⟨⟨hframe.unit, hrest, hframe.locals⟩, rfl, hbehind⟩
  | jumpIfFalseOrPop target | jumpIfTrueOrPop target =>
      obtain ⟨value, rest, rfl⟩ := List.exists_cons_of_length_pos hpops
      have hbehind := hedges _ List.mem_cons_self
      have hthere := hedges _ (List.mem_cons_of_mem _ List.mem_cons_self)
      obtain ⟨-, hrest⟩ := List.forall_mem_cons.mp hframe.stack
      refine Keeps.lift_ok (Keeps.pure ?_)
      split
      · exact ⟨⟨hframe.unit, hframe.stack, hframe.locals⟩, rfl, hthere⟩
      · exact ⟨⟨hframe.unit, hrest, hframe.locals⟩, rfl, hbehind⟩
  | call argCount =>
      -- The callee lies below its arguments, so there is one value more than arguments.
      have hcount : argCount.toNat < stack.length := hpops
      have hlength : 0 < (stack.drop argCount.toNat).length := by
        rw [List.length_drop]
        omega
      obtain ⟨callee, rest, hdrop⟩ := List.exists_cons_of_length_pos hlength
      rw [hdrop, List.length_cons] at hlength
      have hsplit := congrArg List.length hdrop
      rw [List.length_drop, List.length_cons] at hsplit
      have hmem : ∀ value ∈ callee :: rest, value.Sound := by
        rw [← hdrop]
        exact fun value hvalue => hframe.stack value (List.mem_of_mem_drop hvalue)
      obtain ⟨hcallee, hrest⟩ := List.forall_mem_cons.mp hmem
      unfold perform
      dsimp only
      rw [if_neg (Nat.not_lt.mpr (Nat.le_of_lt hcount)), hdrop]
      refine Keeps.lift_ok (callValue_keeps hcallee ?_ (hframe.withStack hrest) rfl ?_)
      · exact fun value hvalue =>
          hframe.stack value (List.mem_of_mem_take (List.mem_reverse.mp hvalue))
      · obtain ⟨hlt, hnext⟩ := hedges _ List.mem_cons_self
        refine ⟨hlt, hnext.trans ?_⟩
        dsimp only
        omega
  | makeFunction index =>
      obtain ⟨inner, hconst⟩ := hrefers
      obtain ⟨hlt, hnext⟩ := hedges _ List.mem_cons_self
      refine Keeps.bind (Keeps.lift (unitAt_gives hframe.unit hconst)) fun code hcode => ?_
      refine Keeps.bind (makeFunction_keeps hcode) fun value hvalue => ?_
      exact Keeps.pure ⟨hframe.push hvalue, rfl, hlt, hnext⟩
  | pop =>
      obtain ⟨value, rest, rfl⟩ := List.exists_cons_of_length_pos hpops
      obtain ⟨hlt, hnext⟩ := hedges _ List.mem_cons_self
      obtain ⟨-, hrest⟩ := List.forall_mem_cons.mp hframe.stack
      exact Keeps.pure ⟨hframe.withStack hrest, rfl, hlt, hnext⟩
  | giveBack =>
      obtain ⟨value, rest, rfl⟩ := List.exists_cons_of_length_pos hpops
      exact Keeps.pure (hframe.stack value List.mem_cons_self)
  | raiseAssert withMessage =>
      cases withMessage with
      | false => exact Keeps.throw nofun
      | true =>
          obtain ⟨message, rest, rfl⟩ := List.exists_cons_of_length_pos hpops
          exact Keeps.lift_ok (Keeps.throw nofun)

end

/-! ## Machines -/

/-- A frame holds only sound units and is at an instruction, and some values are missing from the
stack that belongs there. -/
structure Frame.Ready (frame : Frame) (missing : Nat) : Prop where
  sound : frame.Sound
  awaits : ∃ height, frame.unit.FlowsBy height ∧ frame.Awaits height missing

/-- The running frame of a machine is at an instruction with the stack that belongs there, and the
waiting frames need one more value for that. -/
structure Machine.Sound (machine : Machine) : Prop where
  interpreter : machine.interpreter.Sound
  frame : machine.frame.Ready 0
  callers : ∀ caller ∈ machine.callers, caller.Ready 1

/-- What a step leads to is sound, and the code is not blamed for a failure. -/
def Outcome.Sound : Outcome → Prop
  | .running machine => machine.Sound
  | .finished interpreter => interpreter.Sound
  | .failed interpreter error => interpreter.Sound ∧ error.fault.Proper

theorem CodeUnit.Sound.exists_heights {unit : CodeUnit} (h : unit.Sound) :
    ∃ height, unit.FlowsBy height := by
  refine h unit ?_
  rw [CodeUnit.units_eq]
  exact List.mem_cons_self

/-- The first instruction of a sound unit belongs to the empty stack. -/
theorem Frame.Sound.ready {frame : Frame} (h : frame.Sound) (hpc : frame.pc = 0)
    (hstack : frame.stack = []) : frame.Ready 0 := by
  obtain ⟨height, hheight⟩ := h.unit.exists_heights
  refine ⟨h, height, hheight, ?_, ?_⟩
  · rw [hpc]
    exact hheight.start
  · rw [hpc, hstack]
    exact hheight.zero

theorem Frame.Ready.push {frame : Frame} {value : Value} (h : frame.Ready 1)
    (hvalue : value.Sound) : (frame.push value).Ready 0 := by
  obtain ⟨height, hheight, hlt, hawaits⟩ := h.awaits
  exact ⟨h.sound.push hvalue, height, hheight, hlt, hawaits⟩

theorem abandon_sound (frames : List Frame) {interpreter : Interpreter} (h : interpreter.Sound) :
    (frames.foldl Interpreter.abandon interpreter).Sound := by
  induction frames generalizing interpreter with
  | nil => exact h
  | cons frame rest ih => exact ih (h.abandon frame)

theorem fail_sound {machine : Machine} {error : RuntimeError} (h : machine.interpreter.Sound)
    (herror : error.fault.Proper) : (machine.fail error).Sound :=
  ⟨abandon_sound _ h, herror⟩

theorem leave_sound {machine : Machine} {value : Value} (h : machine.interpreter.Sound)
    (hcallers : ∀ caller ∈ machine.callers, caller.Ready 1) (hvalue : value.Sound) :
    (machine.leave value).Sound := by
  obtain ⟨interpreter, ⟨unit, pc, stack, home, activation⟩, callers⟩ := machine
  cases activation with
  | call locals =>
      cases callers with
      | nil => exact ⟨h.frozen, h.globals⟩
      | cons caller callers =>
          obtain ⟨hcaller, hcallers⟩ := List.forall_mem_cons.mp hcallers
          exact ⟨⟨h.frozen, h.globals⟩, hcaller.push hvalue, hcallers⟩
  | body name depth =>
      cases callers with
      | nil => exact ⟨h.frozen, h.globals⟩
      | cons caller callers =>
          obtain ⟨hcaller, hcallers⟩ := List.forall_mem_cons.mp hcallers
          exact ⟨⟨h.frozen, h.globals⟩, hcaller.push trivial, hcallers⟩

/-- Every step of a sound machine leads to something sound. -/
theorem next_sound {machine : Machine} (h : machine.Sound) : machine.next.Sound := by
  -- The heights of a unit are those that its frame waits for, and they stay the same for as long
  -- as the frame is there: a frame that is entered has heights of its own.
  obtain ⟨height, hheight, hlt, hawaits⟩ := h.frame.awaits
  have hinstr := Array.getElem?_eq_getElem hlt
  have hframe : Frame.Sound { machine.frame with pc := machine.frame.pc + 1 } :=
    ⟨h.frame.sound.unit, h.frame.sound.stack, h.frame.sound.locals⟩
  have hperform := perform_keeps hframe rfl hawaits (hheight.flows _ _ hinstr)
    machine.interpreter h.interpreter
  rw [next_of_instr hinstr]
  split
  next fault after heq =>
    rw [heq] at hperform
    exact fail_sound hperform.1 hperform.2
  next frame after heq =>
    rw [heq] at hperform
    obtain ⟨hafter, hframe, hunit, hawaits⟩ := hperform
    exact ⟨hafter, ⟨hframe, height, hunit ▸ hheight, hawaits⟩, h.callers⟩
  next callee caller after heq =>
    rw [heq] at hperform
    obtain ⟨hafter, ⟨hcallee, hpc, hstack⟩, hcaller, hunit, hawaits⟩ := hperform
    refine ⟨hafter, hcallee.ready hpc hstack, List.forall_mem_cons.mpr ⟨?_, h.callers⟩⟩
    exact ⟨hcaller, height, hunit ▸ hheight, hawaits⟩
  next value after heq =>
    rw [heq] at hperform
    exact leave_sound hperform.1 h.callers hperform.2

/-- A run of a sound machine ends with a sound interpreter, and does not fail because the code is
malformed. -/
theorem run_sound {steps : Nat} {machine : Machine} {after : Interpreter}
    {result : Except RuntimeError Unit} (h : machine.Sound)
    (hrun : machine.run steps = some (after, result)) :
    after.Sound ∧ ∀ error, result = .error error → error.fault.Proper := by
  induction steps generalizing machine with
  | zero => exact nomatch hrun
  | succ steps ih =>
      have hnext := next_sound h
      unfold Machine.run at hrun
      split at hrun
      next machine' heq =>
        rw [heq] at hnext
        exact ih hnext hrun
      next interpreter heq =>
        rw [heq] at hnext
        obtain ⟨rfl, rfl⟩ := Prod.mk.inj (Option.some.inj hrun)
        exact ⟨hnext, nofun⟩
      next interpreter error heq =>
        rw [heq] at hnext
        obtain ⟨rfl, rfl⟩ := Prod.mk.inj (Option.some.inj hrun)
        exact ⟨hnext.1, fun _ herror => Except.error.inj herror ▸ hnext.2⟩

end FrozenScript
