import FrozenScript.Code.Generator

/-!
# Drafts only grow

Generation appends to a draft: `Draft.Grows` says that a draft became another one by as many
instructions as a size says, each with its line, and that constants and names were only added. The
sizes of `Expr.codeSize` and `Stmt.codeSize` are right (`Expr.generate_grows`,
`Stmt.generate_grows`).

`Draft.Within` says that a unit holds what a draft has. Whatever a unit holds of the end of a
generation it holds of every draft on the way, so the instructions of every construct are found in
the unit.
-/

namespace FrozenScript

/-- The operands of instructions can tell all instructions, constants and names of a unit apart. -/
structure CodeUnit.Small (unit : CodeUnit) : Prop where
  code : unit.code.size < UInt32.size
  consts : unit.consts.length < UInt32.size
  names : unit.names.size < UInt32.size

namespace Draft

/-- The second draft has what the first one has, with `count` more instructions behind it. -/
structure Grows (before : Draft) (count : Nat) (after : Draft) : Prop where
  code : before.code.toList <+: after.code.toList
  consts : before.consts.toList <+: after.consts.toList
  names : before.names.toList <+: after.names.toList
  here : after.here = before.here + count
  lines : after.lines.size = before.lines.size + count

/-- The unit has what the draft has, at the same places. -/
structure Within (draft : Draft) (unit : CodeUnit) : Prop where
  code : draft.code.toList <+: unit.code.toList
  consts : draft.consts.toList <+: unit.consts
  names : draft.names.toList <+: unit.names.toList

variable {first second third : Draft} {unit : CodeUnit}

theorem Grows.refl (draft : Draft) : draft.Grows 0 draft :=
  ⟨List.prefix_rfl, List.prefix_rfl, List.prefix_rfl, rfl, rfl⟩

theorem Grows.trans {m n : Nat} (h : first.Grows m second) (h' : second.Grows n third) :
    first.Grows (m + n) third where
  code := h.code.trans h'.code
  consts := h.consts.trans h'.consts
  names := h.names.trans h'.names
  here := by rw [h'.here, h.here, Nat.add_assoc]
  lines := by rw [h'.lines, h.lines, Nat.add_assoc]

theorem Grows.within {n : Nat} (h : first.Grows n second) (hwithin : second.Within unit) :
    first.Within unit :=
  ⟨h.code.trans hwithin.code, h.consts.trans hwithin.consts, h.names.trans hwithin.names⟩

theorem Within.here_le (h : first.Within unit) : first.here ≤ unit.code.size :=
  h.code.length_le

/-! ## Growth of one instruction -/

theorem emit_grows (instr : Instr) (draft : Draft) : draft.Grows 1 (draft.emit instr) where
  code := by
    rw [emit, Array.toList_push]
    exact List.prefix_append _ _
  consts := List.prefix_rfl
  names := List.prefix_rfl
  here := Array.size_push _
  lines := Array.size_push _

theorem atLine_grows (line : Nat) (draft : Draft) : draft.Grows 0 (draft.atLine line) :=
  ⟨List.prefix_rfl, List.prefix_rfl, List.prefix_rfl, rfl, rfl⟩

theorem emitJump_grows (instr : UInt32 → Instr) (target : Nat) (draft : Draft) :
    draft.Grows 1 (draft.emitJump instr target) :=
  emit_grows _ _

theorem constant_grows (value : Constant) (draft : Draft) :
    draft.Grows 0 (draft.constant value).2 := by
  unfold constant
  dsimp only
  split
  · exact Grows.refl draft
  · refine ⟨List.prefix_rfl, ?_, List.prefix_rfl, rfl, rfl⟩
    rw [Array.toList_push]
    exact List.prefix_append _ _

theorem name_grows (name : String) (draft : Draft) : draft.Grows 0 (draft.name name).2 := by
  unfold Draft.name
  split
  · exact Grows.refl draft
  · refine ⟨List.prefix_rfl, List.prefix_rfl, ?_, rfl, rfl⟩
    rw [Array.toList_push]
    exact List.prefix_append _ _

theorem emitConstant_grows (instr : UInt32 → Instr) (value : Constant) (draft : Draft) :
    draft.Grows 1 (draft.emitConstant instr value) := by
  rw [← Nat.zero_add 1]
  exact (constant_grows value draft).trans (emit_grows _ _)

theorem emitName_grows (instr : UInt32 → Instr) (name : String) (draft : Draft) :
    draft.Grows 1 (draft.emitName instr name) := by
  rw [← Nat.zero_add 1]
  exact (name_grows name draft).trans (emit_grows _ _)

end Draft

/-! ## Growth of constructs -/

open Draft

mutual
/-- The code of an expression has the size of the expression. -/
theorem Expr.generate_grows (expr : Expr) (draft : Draft) :
    draft.Grows expr.codeSize (expr.generate draft) := by
  cases expr with
  | literal _ value => exact emitConstant_grows _ _ _
  | name _ name => exact emitName_grows _ _ _
  | binary _ op left right =>
      exact ((left.generate_grows draft).trans (right.generate_grows _)).trans (emit_grows _ _)
  | unary _ op operand => exact (operand.generate_grows draft).trans (emit_grows _ _)
  | compare _ op left right =>
      exact ((left.generate_grows draft).trans (right.generate_grows _)).trans (emit_grows _ _)
  | logical _ op left right =>
      have hleft := (left.generate_grows draft).trans
        (emitJump_grows op.skip ((left.generate draft).here + 1 + right.codeSize) _)
      have hright := hleft.trans (right.generate_grows _)
      rw [Nat.add_right_comm] at hright
      exact hright
  | call _ callee args =>
      exact ((callee.generate_grows draft).trans (generateArguments_grows args _)).trans
        (emit_grows _ _)
  | member _ object name => exact (object.generate_grows draft).trans (emitName_grows _ _ _)

/-- The code of arguments has the size of the arguments. -/
theorem generateArguments_grows (args : List Expr) (draft : Draft) :
    draft.Grows (argumentsSize args) (generateArguments args draft) := by
  cases args with
  | nil => exact Grows.refl draft
  | cons arg rest => exact (arg.generate_grows draft).trans (generateArguments_grows rest _)
end

theorem generateOptional_grows (expr : Option Expr) (draft : Draft) :
    draft.Grows (optionalSize expr) (generateOptional expr draft) := by
  cases expr with
  | none => exact Grows.refl draft
  | some expr => exact expr.generate_grows draft

theorem Draft.Grows.cast {first second : Draft} {m n : Nat} (h : first.Grows m second)
    (heq : m = n) : first.Grows n second :=
  heq ▸ h

mutual
/-- The code of a statement has the size of the statement. -/
theorem Stmt.generate_grows (around : Surroundings) (stmt : Stmt) (draft : Draft) :
    draft.Grows (stmt.codeSize around.keepAsserts around.loop.isSome)
      (stmt.generate around draft) := by
  cases stmt with
  | expr place value =>
      have hvalue := (atLine_grows place.line draft).trans (value.generate_grows _)
      exact (hvalue.trans (emit_grows .pop _)).cast (by rw [Stmt.codeSize, Nat.zero_add])
  | assign place target value =>
      cases target with
      | name _ name =>
          have hvalue := (atLine_grows place.line draft).trans (value.generate_grows _)
          exact (hvalue.trans (emitName_grows .storeName name _)).cast
            (by rw [Stmt.codeSize, Nat.zero_add])
      | _ => exact atLine_grows place.line draft
  | branch place condition body alternative =>
      have hcondition := (atLine_grows place.line draft).trans (condition.generate_grows _)
      have hbody (target : Nat) :=
        (hcondition.trans (emitJump_grows .popJumpIfFalse target _)).trans
          (generateBlock_grows around body _)
      exact ((hbody _).trans (alternative.generate_grows around _)).cast
        (by simp only [Stmt.codeSize]; omega)
  | loop place condition body =>
      have hcondition := (atLine_grows place.line draft).trans (condition.generate_grows _)
      have hbody (target : Nat) (bounds : LoopBounds) :=
        (hcondition.trans (emitJump_grows .popJumpIfFalse target _)).trans
          (generateBlock_grows { around with loop := some bounds } body _)
      exact ((hbody _ _).trans (emitJump_grows .jump _ _)).cast
        (by simp only [Stmt.codeSize, Option.isSome_some]; omega)
  | define place name params body =>
      have hfunction (unit : CodeUnit) := (atLine_grows place.line draft).trans
        (emitConstant_grows .makeFunction (.code unit) _)
      exact (hfunction _).trans (emitName_grows .storeName name _)
  | giveBack place value =>
      cases value with
      | none =>
          have hnone :=
            (atLine_grows place.line draft).trans (emitConstant_grows .loadConst .none _)
          exact hnone.trans (emit_grows .giveBack _)
      | some value =>
          have hvalue := (atLine_grows place.line draft).trans (value.generate_grows _)
          exact (hvalue.trans (emit_grows .giveBack _)).cast (by rw [Stmt.codeSize, Nat.zero_add])
  | importModule place name =>
      have himport := (atLine_grows place.line draft).trans (emitName_grows .importName name _)
      exact himport.trans (emitName_grows .storeName name _)
  | assert place test message =>
      unfold Stmt.generate Stmt.codeSize
      by_cases hkeep : around.keepAsserts = true
      · rw [if_pos hkeep, if_pos hkeep]
        have htest := (atLine_grows place.line draft).trans (test.generate_grows _)
        have hmessage (target : Nat) := (htest.trans (emitJump_grows .popJumpIfTrue target _)).trans
          (generateOptional_grows message _)
        exact ((hmessage _).trans (emit_grows (.raiseAssert message.isSome) _)).cast
          (by rw [Nat.zero_add])
      · rw [if_neg hkeep, if_neg hkeep]
        exact atLine_grows place.line draft
  | pass place => exact atLine_grows place.line draft
  | breakLoop place => exact (atLine_grows place.line draft).trans (emitJump_grows _ _ _)
  | continueLoop place =>
      unfold Stmt.generate Stmt.codeSize
      cases around.loop with
      | none => exact atLine_grows place.line draft
      | some loop => exact (atLine_grows place.line draft).trans (emitJump_grows _ _ _)

/-- The code of a block has the size of the block. -/
theorem generateBlock_grows (around : Surroundings) (block : List Stmt) (draft : Draft) :
    draft.Grows (blockSize around.keepAsserts around.loop.isSome block)
      (generateBlock around block draft) := by
  cases block with
  | nil => exact Grows.refl draft
  | cons stmt rest =>
      exact (stmt.generate_grows around draft).trans (generateBlock_grows around rest _)

/-- What follows the first block of a branch has the size of the alternative and of the jump over
it. -/
theorem Alternative.generate_grows (around : Surroundings) (alternative : Alternative)
    (draft : Draft) :
    draft.Grows (jumpSize alternative.isPresent +
      alternative.codeSize around.keepAsserts around.loop.isSome)
      (alternative.generate around draft) := by
  cases alternative with
  | nothing => exact Grows.refl draft
  | elif condition body rest =>
      have hcondition (exit : Nat) := (emitJump_grows .jump exit draft).trans
        (condition.generate_grows _)
      have hbody (exit target : Nat) :=
        ((hcondition exit).trans (emitJump_grows .popJumpIfFalse target _)).trans
          (generateBlock_grows around body _)
      have hpresent : jumpSize (Alternative.elif condition body rest).isPresent = 1 := rfl
      exact ((hbody _ _).trans (rest.generate_grows around _)).cast
        (by rw [hpresent, Alternative.codeSize]; omega)
  | otherwise body =>
      exact (emitJump_grows .jump _ draft).trans (generateBlock_grows around body _)
end

end FrozenScript
