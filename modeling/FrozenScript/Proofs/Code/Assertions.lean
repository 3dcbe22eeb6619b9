import FrozenScript.Code.Generator

/-!
# Leaving assertions out

From optimization level one on, assertions have no code. The main statement,
`generate_without_assertions`, says that a unit of such a level is the unit of level zero of the
program that has no assertions (`blockWithoutAssertions`), apart from the lines of the instructions
(`CodeUnit.withoutLines`), for all units inside it as well.

The two generations go side by side. `Draft.SameCode` says that their drafts differ in lines at
most, and every construct keeps it so (`Stmt.generate_sameCode`). Jumps need no argument of their
own: their targets come from sizes, which are the same on both sides
(`Stmt.blockSize_withoutAssertions`).
-/

namespace FrozenScript

/-! ## Deleting assertions -/

mutual
/-- What is left of a statement without its assertions: the statement without those inside it, or
nothing. -/
def Stmt.withoutAssertions : Stmt → List Stmt
  | .assert .. => []
  | .branch place condition body alternative =>
    [.branch place condition (blockWithoutAssertions body) alternative.withoutAssertions]
  | .loop place condition body => [.loop place condition (blockWithoutAssertions body)]
  | .define place name params body => [.define place name params (blockWithoutAssertions body)]
  | .expr place value => [.expr place value]
  | .assign place target value => [.assign place target value]
  | .giveBack place value => [.giveBack place value]
  | .importModule place name => [.importModule place name]
  | .pass place => [.pass place]
  | .breakLoop place => [.breakLoop place]
  | .continueLoop place => [.continueLoop place]

/-- A block without its assertions. -/
def blockWithoutAssertions : List Stmt → List Stmt
  | [] => []
  | stmt :: rest => stmt.withoutAssertions ++ blockWithoutAssertions rest

/-- An alternative without its assertions. It stays an alternative if nothing else is in it. -/
def Alternative.withoutAssertions : Alternative → Alternative
  | .nothing => .nothing
  | .elif condition body rest =>
    .elif condition (blockWithoutAssertions body) rest.withoutAssertions
  | .otherwise body => .otherwise (blockWithoutAssertions body)
end

/-! ## Deleting lines -/

mutual
/-- A constant without the lines of its units. -/
def Constant.withoutLines : Constant → Constant
  | .code unit => .code unit.withoutLines
  | .none => .none
  | .bool value => .bool value
  | .int value => .int value
  | .text value => .text value

/-- A unit without its lines and those of the units inside it. -/
def CodeUnit.withoutLines : CodeUnit → CodeUnit
  | .mk name file params consts names code _ =>
    .mk name file params (constantsWithoutLines consts) names code #[]

/-- Constants without the lines of their units. -/
def constantsWithoutLines : List Constant → List Constant
  | [] => []
  | const :: rest => const.withoutLines :: constantsWithoutLines rest
end

theorem constantsWithoutLines_eq_map (consts : List Constant) :
    constantsWithoutLines consts = consts.map Constant.withoutLines := by
  induction consts with
  | nil => rfl
  | cons const rest ih => rw [constantsWithoutLines, ih, List.map_cons]

namespace Constant

/-- A constant that is not a unit. -/
def IsPlain (value : Constant) : Prop :=
  ∀ unit, value ≠ .code unit

/-- Whether a constant is a given plain one does not depend on lines. -/
theorem matches_withoutLines {value : Constant} (h : value.IsPlain) (const : Constant) :
    const.withoutLines.matches value = const.matches value := by
  cases value with
  | code unit => exact absurd rfl (h unit)
  | _ => cases const <;> rfl

theorem none_isPlain : Constant.none.IsPlain :=
  nofun

end Constant

theorem Literal.constant_isPlain (value : Literal) : value.constant.IsPlain := by
  cases value <;> exact nofun

/-! ## Drafts side by side -/

namespace Draft

/-- Two drafts differ in lines at most. -/
structure SameCode (first second : Draft) : Prop where
  code : first.code = second.code
  names : first.names = second.names
  consts : first.consts.map Constant.withoutLines = second.consts.map Constant.withoutLines

namespace SameCode

variable {first second : Draft}

theorem atStart (line line' : Nat) :
    SameCode { line := UInt32.ofNat line } { line := UInt32.ofNat line' } :=
  ⟨rfl, rfl, rfl⟩

theorem here (h : first.SameCode second) : first.here = second.here :=
  congrArg Array.size h.code

theorem atLine (h : first.SameCode second) (line line' : Nat) :
    (first.atLine line).SameCode (second.atLine line') :=
  ⟨h.code, h.names, h.consts⟩

theorem emit (h : first.SameCode second) (instr : Instr) :
    (first.emit instr).SameCode (second.emit instr) :=
  ⟨congrArg (Array.push · instr) h.code, h.names, h.consts⟩

theorem emitJump (h : first.SameCode second) (instr : UInt32 → Instr) {target target' : Nat}
    (htarget : target = target') :
    (first.emitJump instr target).SameCode (second.emitJump instr target') :=
  htarget ▸ h.emit _

theorem name (h : first.SameCode second) (name : String) :
    (first.name name).1 = (second.name name).1 ∧
      (first.name name).2.SameCode (second.name name).2 := by
  unfold Draft.name
  rw [h.names]
  split
  · exact ⟨rfl, h⟩
  · exact ⟨rfl, h.code, rfl, h.consts⟩

theorem emitName (h : first.SameCode second) (instr : UInt32 → Instr) (name : String) :
    (first.emitName instr name).SameCode (second.emitName instr name) := by
  obtain ⟨hindex, hname⟩ := h.name name
  unfold Draft.emitName
  dsimp only
  rw [hindex]
  exact hname.emit _

theorem size_consts (h : first.SameCode second) : first.consts.size = second.consts.size := by
  have hsize := congrArg Array.size h.consts
  rwa [Array.size_map, Array.size_map] at hsize

/-- A plain constant is found at the same index. -/
theorem findIdx?_consts (h : first.SameCode second) {value : Constant} (hplain : value.IsPlain) :
    first.consts.findIdx? (·.matches value) = second.consts.findIdx? (·.matches value) := by
  have hlines : (fun const : Constant => const.matches value) =
      (fun const => const.matches value) ∘ Constant.withoutLines :=
    funext fun const => (Constant.matches_withoutLines hplain const).symm
  rw [hlines, ← Array.findIdx?_map, h.consts, Array.findIdx?_map]

/-- Constants that differ in lines at most are added on both sides. -/
theorem push (h : first.SameCode second) {value value' : Constant}
    (hvalue : value.withoutLines = value'.withoutLines) :
    SameCode { first with consts := first.consts.push value }
      { second with consts := second.consts.push value' } := by
  refine ⟨h.code, h.names, ?_⟩
  show (first.consts.push value).map _ = (second.consts.push value').map _
  rw [Array.map_push, Array.map_push, h.consts, hvalue]

/-- A plain constant is found, or added, at the same index on both sides. -/
theorem constant (h : first.SameCode second) {value : Constant} (hplain : value.IsPlain) :
    (first.constant value).1 = (second.constant value).1 ∧
      (first.constant value).2.SameCode (second.constant value).2 := by
  have hfind := h.findIdx?_consts hplain
  cases value with
  | code unit => exact absurd rfl (hplain unit)
  | _ =>
      unfold Draft.constant
      dsimp only
      rw [hfind, h.size_consts]
      split
      · exact ⟨rfl, h⟩
      · exact ⟨rfl, h.push rfl⟩

theorem emitConstant (h : first.SameCode second) (instr : UInt32 → Instr) {value : Constant}
    (hplain : value.IsPlain) :
    (first.emitConstant instr value).SameCode (second.emitConstant instr value) := by
  obtain ⟨hindex, hconstant⟩ := h.constant hplain
  unfold Draft.emitConstant
  dsimp only
  rw [hindex]
  exact hconstant.emit _

/-- Units are always added, so they need not be equal to get the same index. -/
theorem emitUnit (h : first.SameCode second) (instr : UInt32 → Instr) {unit unit' : CodeUnit}
    (hunit : unit.withoutLines = unit'.withoutLines) :
    (first.emitConstant instr (.code unit)).SameCode
      (second.emitConstant instr (.code unit')) := by
  have hvalue : (Constant.code unit).withoutLines = (Constant.code unit').withoutLines :=
    congrArg Constant.code hunit
  have hpush := h.push hvalue
  show (Draft.emit (instr (UInt32.ofNat first.consts.size)) _).SameCode _
  rw [h.size_consts]
  exact hpush.emit _

/-- The units that are completed differ in lines at most. -/
theorem finish (h : first.SameCode second) (unitName file : String) (params : List String) :
    (first.finish unitName file params).withoutLines =
      (second.finish unitName file params).withoutLines := by
  have hlast := (h.emitConstant .loadConst Constant.none_isPlain).emit .giveBack
  have hconsts := congrArg Array.toList hlast.consts
  rw [Array.toList_map, Array.toList_map] at hconsts
  simp only [Draft.finish, CodeUnit.withoutLines, constantsWithoutLines_eq_map, hlast.code,
    hlast.names, hconsts]

end SameCode

end Draft

/-! ## Expressions -/

mutual
/-- The code of an expression differs in lines at most if the drafts before it do. -/
theorem Expr.generate_sameCode (expr : Expr) {first second : Draft} (h : first.SameCode second) :
    (expr.generate first).SameCode (expr.generate second) := by
  cases expr with
  | literal _ value => exact h.emitConstant _ value.constant_isPlain
  | name _ name => exact h.emitName _ name
  | binary _ op left right =>
      exact (right.generate_sameCode (left.generate_sameCode h)).emit _
  | unary _ op operand => exact (operand.generate_sameCode h).emit _
  | compare _ op left right =>
      exact (right.generate_sameCode (left.generate_sameCode h)).emit _
  | logical _ op left right =>
      have hleft := left.generate_sameCode h
      exact right.generate_sameCode (hleft.emitJump _ (by rw [hleft.here]))
  | call _ callee args =>
      exact (generateArguments_sameCode args (callee.generate_sameCode h)).emit _
  | member _ object name => exact (object.generate_sameCode h).emitName _ name

theorem generateArguments_sameCode (args : List Expr) {first second : Draft}
    (h : first.SameCode second) :
    (generateArguments args first).SameCode (generateArguments args second) := by
  cases args with
  | nil => exact h
  | cons arg rest => exact generateArguments_sameCode rest (arg.generate_sameCode h)
end

/-! ## Sizes of statements -/

theorem blockSize_append (keepAsserts inLoop : Bool) (block more : List Stmt) :
    blockSize keepAsserts inLoop (block ++ more) =
      blockSize keepAsserts inLoop block + blockSize keepAsserts inLoop more := by
  induction block with
  | nil => exact (Nat.zero_add _).symm
  | cons stmt rest ih => rw [List.cons_append, blockSize, blockSize, ih, Nat.add_assoc]

theorem Alternative.isPresent_withoutAssertions (alternative : Alternative) :
    alternative.withoutAssertions.isPresent = alternative.isPresent := by
  cases alternative <;> rfl

mutual
/-- A statement whose assertions have no code has the size of the statement without them. -/
theorem Stmt.blockSize_withoutAssertions (inLoop : Bool) (stmt : Stmt) :
    blockSize true inLoop stmt.withoutAssertions = stmt.codeSize false inLoop := by
  cases stmt with
  | branch place condition body alternative =>
      have hbody := blockSize_withoutAssertions inLoop body
      have halternative := alternative.codeSize_withoutAssertions inLoop
      simp only [Stmt.withoutAssertions, blockSize, Stmt.codeSize, hbody, halternative,
        alternative.isPresent_withoutAssertions, Nat.add_zero]
  | loop place condition body =>
      have hbody := blockSize_withoutAssertions true body
      simp only [Stmt.withoutAssertions, blockSize, Stmt.codeSize, hbody, Nat.add_zero]
  | assign place target value => cases target <;> rfl
  | giveBack place value => cases value <;> rfl
  | _ => rfl

theorem blockSize_withoutAssertions (inLoop : Bool) (block : List Stmt) :
    blockSize true inLoop (blockWithoutAssertions block) = blockSize false inLoop block := by
  cases block with
  | nil => rfl
  | cons stmt rest =>
      rw [blockWithoutAssertions, blockSize_append, stmt.blockSize_withoutAssertions inLoop,
        blockSize_withoutAssertions inLoop rest, blockSize]

theorem Alternative.codeSize_withoutAssertions (inLoop : Bool) (alternative : Alternative) :
    alternative.withoutAssertions.codeSize true inLoop = alternative.codeSize false inLoop := by
  cases alternative with
  | nothing => rfl
  | elif condition body rest =>
      rw [Alternative.withoutAssertions, Alternative.codeSize,
        blockSize_withoutAssertions inLoop body, rest.isPresent_withoutAssertions,
        rest.codeSize_withoutAssertions inLoop, Alternative.codeSize]
  | otherwise body => exact blockSize_withoutAssertions inLoop body
end

/-! ## Code of statements -/

theorem generateBlock_append (around : Surroundings) (block more : List Stmt) (draft : Draft) :
    generateBlock around (block ++ more) draft =
      generateBlock around more (generateBlock around block draft) := by
  induction block generalizing draft with
  | nil => rfl
  | cons stmt rest ih => exact ih _

mutual
/-- The code of a statement whose assertions have no code is that of the statement without them. -/
theorem Stmt.generate_sameCode (file : String) (loop : Option LoopBounds) (stmt : Stmt)
    {first second : Draft} (h : first.SameCode second) :
    (stmt.generate ⟨file, false, loop⟩ first).SameCode
      (generateBlock ⟨file, true, loop⟩ stmt.withoutAssertions second) := by
  cases stmt with
  | expr place value => exact (value.generate_sameCode (h.atLine _ _)).emit _
  | assign place target value =>
      cases target with
      | name span name => exact (value.generate_sameCode (h.atLine _ _)).emitName _ name
      | _ => exact h.atLine _ _
  | branch place condition body alternative =>
      have hcondition := condition.generate_sameCode (h.atLine place.line place.line)
      refine alternative.generate_sameCode file loop
        (generateBlock_sameCode file loop body (hcondition.emitJump _ ?skip))
      rw [hcondition.here, ← blockSize_withoutAssertions, ← alternative.isPresent_withoutAssertions]
  | loop place condition body =>
      have hcondition := condition.generate_sameCode (h.atLine place.line place.line)
      have hexit : (condition.generate (first.atLine place.line)).here + 1 +
          blockSize false true body + 1 =
          (condition.generate (second.atLine place.line)).here + 1 +
            blockSize true true (blockWithoutAssertions body) + 1 := by
        rw [hcondition.here, blockSize_withoutAssertions]
      simp only [Stmt.withoutAssertions, generateBlock, Stmt.generate]
      -- The body refers to both bounds of the loop, so these are made the same ones first.
      rw [h.here, hexit]
      exact (generateBlock_sameCode file _ body (hcondition.emitJump _ rfl)).emitJump _ rfl
  | define place name params body =>
      have hinner := generateBlock_sameCode file none body (.atStart place.line place.line)
      have hunit := hinner.finish name file (params.map Param.name)
      exact ((h.atLine _ _).emitUnit _ hunit).emitName _ name
  | giveBack place value =>
      cases value with
      | none => exact ((h.atLine _ _).emitConstant _ Constant.none_isPlain).emit _
      | some value => exact (value.generate_sameCode (h.atLine _ _)).emit _
  | importModule place name => exact ((h.atLine _ _).emitName _ name).emitName _ name
  | assert place test message => exact ⟨h.code, h.names, h.consts⟩
  | pass place => exact h.atLine _ _
  | breakLoop place => exact (h.atLine _ _).emitJump _ rfl
  | continueLoop place =>
      cases loop with
      | none => exact h.atLine _ _
      | some loop => exact (h.atLine _ _).emitJump _ rfl

theorem generateBlock_sameCode (file : String) (loop : Option LoopBounds) (block : List Stmt)
    {first second : Draft} (h : first.SameCode second) :
    (generateBlock ⟨file, false, loop⟩ block first).SameCode
      (generateBlock ⟨file, true, loop⟩ (blockWithoutAssertions block) second) := by
  cases block with
  | nil => exact h
  | cons stmt rest =>
      rw [blockWithoutAssertions, generateBlock_append]
      exact generateBlock_sameCode file loop rest (stmt.generate_sameCode file loop h)

theorem Alternative.generate_sameCode (file : String) (loop : Option LoopBounds)
    (alternative : Alternative) {first second : Draft} (h : first.SameCode second) :
    (alternative.generate ⟨file, false, loop⟩ first).SameCode
      (alternative.withoutAssertions.generate ⟨file, true, loop⟩ second) := by
  cases alternative with
  | nothing => exact h
  | elif condition body rest =>
      have hover : first.here + 1 +
          (Alternative.elif condition body rest).codeSize false loop.isSome =
          second.here + 1 +
            (Alternative.elif condition body rest).withoutAssertions.codeSize true loop.isSome := by
        rw [h.here, Alternative.codeSize_withoutAssertions]
      have hcondition := condition.generate_sameCode (h.emitJump .jump hover)
      refine rest.generate_sameCode file loop
        (generateBlock_sameCode file loop body (hcondition.emitJump _ ?_))
      rw [hcondition.here, ← blockSize_withoutAssertions, ← rest.isPresent_withoutAssertions]
      rfl
  | otherwise body =>
      refine generateBlock_sameCode file loop body (h.emitJump .jump ?_)
      rw [h.here, ← blockSize_withoutAssertions]
end

/-! ## Programs -/

/-- From level one on, a program has the units that it has at level zero without its assertions:
the names, the file, the parameters, the constants, the names that the instructions refer to and the
instructions of every unit are the same, and only the lines differ. -/
theorem generate_without_assertions (file : String) {level : UInt8} (h : 1 ≤ level)
    (program : Block) :
    (generate file level program).withoutLines =
      (generate file 0 (blockWithoutAssertions program)).withoutLines := by
  have hlevel : (level == 0) = false := by
    rw [beq_eq_false_iff_ne]
    rintro rfl
    exact absurd h (by decide)
  have hbody := generateBlock_sameCode file none program (.atStart 1 1)
  have hunit := hbody.finish moduleUnitName file []
  unfold generate
  rw [hlevel]
  exact hunit

/-- A loop and a function lose their assertions. In the loop the jumps behind the assertion move. -/
theorem generate_without_assertions_loop :
    (1 : UInt8) ≤ 2 ∧
      (generate "<frozen m>" 2
        [.loop ⟨⟨0, 31⟩, 1⟩ (.name ⟨6, 1⟩ "x")
            [.assert ⟨⟨11, 8⟩, 2⟩ (.name ⟨18, 1⟩ "x") none, .breakLoop ⟨⟨22, 5⟩, 3⟩],
          .define ⟨⟨28, 20⟩, 4⟩ "f" []
            [.assert ⟨⟨39, 13⟩, 5⟩ (.name ⟨46, 1⟩ "x") (some (.literal ⟨49, 3⟩ (.text "a")))]]
        ).withoutLines =
      (generate "<frozen m>" 0
        [.loop ⟨⟨0, 31⟩, 1⟩ (.name ⟨6, 1⟩ "x") [.breakLoop ⟨⟨22, 5⟩, 3⟩],
          .define ⟨⟨28, 20⟩, 4⟩ "f" [] []]).withoutLines :=
  ⟨by decide, generate_without_assertions "<frozen m>" (by decide) _⟩

end FrozenScript
