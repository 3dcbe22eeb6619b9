import FrozenScript.Proofs.Meaning.Carries

/-!
# What instructions lead to

Code that nothing is known of may do anything that instructions do. But whatever an instruction is,
its frame goes on in the same unit and the same activation, a frame that it enters is at its start,
and only the instruction for it gives back a value (`perform_follows`).
-/

namespace FrozenScript

/-- Whatever an action gives has a property. -/
def Returns {α : Type} (action : Action α) (P : α → Prop) : Prop :=
  ∀ interpreter value after, action.run interpreter = (.ok value, after) → P value

/-- How a frame goes on after an instruction: it is a later state of itself, it waits for a frame
that is at its start, or the instruction gives back the top of its stack. -/
def Flow.Follows (frame : Frame) (instr : Instr) : Flow → Prop
  | .proceed following => following.Continues frame
  | .enter callee caller => (callee.pc = 0 ∧ callee.stack = []) ∧ caller.Continues frame
  | .giveBack value => instr = .giveBack ∧ ∃ rest, frame.stack = value :: rest

section

variable {α β : Type} {P : α → Prop} {Q : β → Prop}

theorem Returns.pure {value : α} (h : P value) : Returns (pure value) P := by
  intro interpreter result after hrun
  obtain ⟨hresult, -⟩ := Prod.mk.inj hrun
  obtain rfl := Except.ok.inj hresult
  exact h

theorem Returns.throw (fault : Fault) : Returns (throw fault : Action α) P :=
  fun _ _ _ hrun => nomatch hrun

theorem Returns.bind {action : Action α} {next : α → Action β} (h : Returns action P)
    (hnext : ∀ value, P value → Returns (next value) Q) : Returns (action >>= next) Q := by
  intro interpreter result after hrun
  rw [Action.run_bind] at hrun
  split at hrun
  next value middle heq => exact hnext value (h _ _ _ heq) _ _ _ hrun
  next fault middle heq => exact nomatch hrun

/-- It may not matter what the first of two actions gives. -/
theorem Returns.after {action : Action α} {next : α → Action β}
    (hnext : ∀ value, Returns (next value) Q) : Returns (action >>= next) Q :=
  have hany : Returns action fun _ => True := fun _ _ _ _ => trivial
  hany.bind fun value _ => hnext value

theorem Returns.lift {result : Except Fault α} {next : α → Action β}
    (hnext : ∀ value, result = .ok value → Returns (next value) Q) :
    Returns (liftM result >>= next) Q := by
  cases result with
  | error fault => exact Returns.throw fault
  | ok value => exact hnext value rfl

end

/-! ## Frames -/

section

variable {frame after : Frame} {left right value : Value}

theorem Frame.Continues.withStack (h : after.Continues frame) (stack : List Value) :
    Frame.Continues { after with stack } frame :=
  ⟨h.unit, h.home, h.activation⟩

theorem pop_eq (h : frame.pop = .ok (value, after)) :
    ∃ rest, frame.stack = value :: rest ∧ after = { frame with stack := rest } := by
  unfold Frame.pop at h
  split at h
  next top rest hstack =>
    obtain ⟨rfl, rfl⟩ := Prod.mk.inj (Except.ok.inj h)
    exact ⟨rest, hstack, rfl⟩
  next => exact nomatch h

theorem pop_continues (h : frame.pop = .ok (value, after)) : after.Continues frame := by
  obtain ⟨rest, -, rfl⟩ := pop_eq h
  exact (Frame.Continues.refl frame).withStack rest

theorem popTwo_continues (h : frame.popTwo = .ok (left, right, after)) :
    after.Continues frame := by
  obtain ⟨unit, pc, stack, home, activation⟩ := frame
  match stack, h with
  | [], h => exact nomatch h
  | [_], h => exact nomatch h
  | _ :: _ :: rest, h =>
      obtain ⟨-, heq⟩ := Prod.mk.inj (Except.ok.inj h)
      obtain ⟨-, rfl⟩ := Prod.mk.inj heq
      exact ⟨rfl, rfl, Activation.SameKind.refl _⟩

theorem popAndJumpIf_continues {wanted : Bool} {target : UInt32}
    (h : frame.popAndJumpIf wanted target = .ok after) : after.Continues frame := by
  obtain ⟨unit, pc, stack, home, activation⟩ := frame
  match stack, h with
  | [], h => exact nomatch h
  | top :: rest, h =>
      obtain rfl := Except.ok.inj h
      split
      · exact ⟨rfl, rfl, Activation.SameKind.refl _⟩
      · exact ⟨rfl, rfl, Activation.SameKind.refl _⟩

theorem jumpIfOrPop_continues {wanted : Bool} {target : UInt32}
    (h : frame.jumpIfOrPop wanted target = .ok after) : after.Continues frame := by
  obtain ⟨unit, pc, stack, home, activation⟩ := frame
  match stack, h with
  | [], h => exact nomatch h
  | top :: rest, h =>
      obtain rfl := Except.ok.inj h
      split
      · exact ⟨rfl, rfl, Activation.SameKind.refl _⟩
      · exact ⟨rfl, rfl, Activation.SameKind.refl _⟩

theorem store_continues (frame : Frame) (name : String) (value : Value) :
    Returns (store frame name value) fun stored => stored.Continues frame := by
  obtain ⟨unit, pc, stack, home, activation⟩ := frame
  cases activation with
  | call locals => exact Returns.pure ⟨rfl, rfl, trivial⟩
  | body name depth => exact Returns.after fun _ => Returns.pure (Frame.Continues.refl _)

end

/-! ## Instructions -/

section

variable {frame caller : Frame} {instr : Instr}

theorem callValue_follows (callee : Value) (args : List Value) (h : caller.Continues frame) :
    Returns (callValue callee args caller) (Flow.Follows frame instr) := by
  unfold callValue
  split
  next builtin =>
    refine Returns.after fun interpreter => Returns.after fun _ => ?_
    exact Returns.lift fun value _ => Returns.pure (h.withStack _)
  next function =>
    dsimp only
    split
    · exact Returns.throw _
    refine Returns.after fun interpreter => ?_
    split
    · exact Returns.throw _
    exact Returns.after fun _ => Returns.pure ⟨⟨rfl, rfl⟩, h⟩
  next => exact Returns.throw _

theorem importModule_follows (name : String) (h : caller.Continues frame) :
    Returns (importModule name caller) (Flow.Follows frame instr) := by
  refine Returns.after fun interpreter => ?_
  dsimp only
  split
  next module _ => exact Returns.pure (h.withStack _)
  next =>
    split
    next => exact Returns.throw _
    next image _ =>
      refine Returns.lift fun unit _ => Returns.after fun _ => ?_
      exact Returns.pure ⟨⟨rfl, rfl⟩, h⟩

/-- Whatever an instruction does, its frame goes on in the same activation of the same unit. -/
theorem perform_follows (frame : Frame) (instr : Instr) :
    Returns (perform frame instr) (Flow.Follows frame instr) := by
  have hsame := Frame.Continues.refl frame
  cases instr with
  | loadConst index => exact Returns.lift fun value _ => Returns.pure (hsame.withStack _)
  | loadName index =>
      refine Returns.lift fun name _ => Returns.after fun interpreter => ?_
      exact Returns.lift fun value _ => Returns.pure (hsame.withStack _)
  | storeName index =>
      refine Returns.lift fun name _ => Returns.lift fun ⟨value, popped⟩ hpop => ?_
      refine Returns.bind (store_continues popped name value) fun stored hstored => ?_
      exact Returns.pure (hstored.trans (pop_continues hpop))
  | loadMember index =>
      refine Returns.lift fun name _ => Returns.lift fun ⟨object, popped⟩ hpop => ?_
      refine Returns.after fun interpreter => Returns.lift fun value _ => ?_
      exact Returns.pure ((pop_continues hpop).withStack _)
  | importName index => exact Returns.lift fun name _ => importModule_follows name hsame
  | binaryOp op | compare op =>
      refine Returns.lift fun ⟨left, right, popped⟩ hpop => Returns.lift fun value _ => ?_
      exact Returns.pure ((popTwo_continues hpop).withStack _)
  | unaryOp op =>
      refine Returns.lift fun ⟨operand, popped⟩ hpop => Returns.lift fun value _ => ?_
      exact Returns.pure ((pop_continues hpop).withStack _)
  | jump target => exact Returns.pure ⟨rfl, rfl, Activation.SameKind.refl _⟩
  | popJumpIfFalse target | popJumpIfTrue target =>
      exact Returns.lift fun following h => Returns.pure (popAndJumpIf_continues h)
  | jumpIfFalseOrPop target | jumpIfTrueOrPop target =>
      exact Returns.lift fun following h => Returns.pure (jumpIfOrPop_continues h)
  | call argCount =>
      unfold perform
      dsimp only
      split
      · exact Returns.throw _
      refine Returns.lift fun ⟨callee, popped⟩ hpop => callValue_follows callee _ ?_
      exact (pop_continues hpop).trans (hsame.withStack _)
  | makeFunction index =>
      refine Returns.lift fun code _ => Returns.after fun value => ?_
      exact Returns.pure (hsame.withStack _)
  | pop => exact Returns.lift fun ⟨value, popped⟩ hpop => Returns.pure (pop_continues hpop)
  | giveBack =>
      refine Returns.lift fun ⟨value, popped⟩ hpop => Returns.pure ⟨rfl, ?_⟩
      obtain ⟨rest, hstack, -⟩ := pop_eq hpop
      exact ⟨rest, hstack⟩
  | raiseAssert withMessage =>
      cases withMessage with
      | false => exact Returns.throw _
      | true => exact Returns.lift fun _ _ => Returns.throw _

end

end FrozenScript
