import FrozenScript.Proofs.Code.Layout

/-!
# The units of a program

Besides the unit of its body a program has one unit for every function that it defines, also inside
other functions, and no other ones: `units_bodyUnit` says that the units inside the unit of a body
are those of its functions, in the order of the text.
-/

namespace FrozenScript

open Draft

mutual
/-- The units and the bodies of the functions that a statement defines, with those inside them. -/
def Stmt.functions (file : String) (keepAsserts : Bool) : Stmt → List (CodeUnit × Block)
  | .branch _ _ body alternative =>
    blockFunctions file keepAsserts body ++ alternative.functions file keepAsserts
  | .loop _ _ body => blockFunctions file keepAsserts body
  | .define place name params body =>
    (functionUnit { file, keepAsserts } place name params body, body) ::
      blockFunctions file keepAsserts body
  | .expr .. | .assign .. | .giveBack .. | .importModule .. | .assert .. | .pass _ | .breakLoop _
  | .continueLoop _ => []

/-- The units and the bodies of the functions that a block defines, with those inside them. -/
def blockFunctions (file : String) (keepAsserts : Bool) : List Stmt → List (CodeUnit × Block)
  | [] => []
  | stmt :: rest => stmt.functions file keepAsserts ++ blockFunctions file keepAsserts rest

/-- The units and the bodies of the functions that an alternative defines, with those inside
them. -/
def Alternative.functions (file : String) (keepAsserts : Bool) :
    Alternative → List (CodeUnit × Block)
  | .nothing => []
  | .elif _ body rest => blockFunctions file keepAsserts body ++ rest.functions file keepAsserts
  | .otherwise body => blockFunctions file keepAsserts body
end

/-- The units inside a draft. -/
def Draft.units (draft : Draft) : List CodeUnit :=
  unitsOfConstants draft.consts.toList

theorem unitsOfConstants_append (first second : List Constant) :
    unitsOfConstants (first ++ second) = unitsOfConstants first ++ unitsOfConstants second := by
  induction first with
  | nil => rfl
  | cons const rest ih =>
      rw [List.cons_append, unitsOfConstants, unitsOfConstants, ih, List.append_assoc]

section

variable (draft : Draft)

@[simp] theorem units_emit (instr : Instr) : (draft.emit instr).units = draft.units :=
  rfl

@[simp] theorem units_atLine (line : Nat) : (draft.atLine line).units = draft.units :=
  rfl

@[simp] theorem units_emitJump (instr : UInt32 → Instr) (target : Nat) :
    (draft.emitJump instr target).units = draft.units :=
  rfl

@[simp] theorem units_emitName (instr : UInt32 → Instr) (name : String) :
    (draft.emitName instr name).units = draft.units := by
  have hname : (draft.name name).2.units = draft.units := by
    unfold Draft.name
    split <;> rfl
  exact hname

theorem units_push (value : Constant) :
    ({ draft with consts := draft.consts.push value } : Draft).units =
      draft.units ++ value.units := by
  unfold Draft.units
  rw [Array.toList_push, unitsOfConstants_append]
  simp [unitsOfConstants]

/-- A constant adds the units inside it. -/
@[simp] theorem units_emitConstant (instr : UInt32 → Instr) (value : Constant) :
    (draft.emitConstant instr value).units = draft.units ++ value.units := by
  have hconstant : (draft.constant value).2.units = draft.units ++ value.units := by
    unfold Draft.constant
    dsimp only
    split
    next hindex =>
      cases value with
      | code _ => exact nomatch hindex
      | _ => exact (List.append_nil _).symm
    next => exact units_push draft value
  exact hconstant

end

@[simp] theorem units_literal (value : Literal) : value.constant.units = [] := by
  cases value <;> rfl

mutual
/-- The code of an expression has no units. -/
@[simp] theorem Expr.units_generate (expr : Expr) (draft : Draft) :
    (expr.generate draft).units = draft.units := by
  cases expr with
  | literal _ value => simp [Expr.generate]
  | name _ name => simp [Expr.generate]
  | binary _ op left right | compare _ op left right | logical _ op left right =>
      simp [Expr.generate, left.units_generate, right.units_generate]
  | unary _ op operand => simp [Expr.generate, operand.units_generate]
  | call _ callee args => simp [Expr.generate, callee.units_generate, units_generateArguments args]
  | member _ object name => simp [Expr.generate, object.units_generate]

@[simp] theorem units_generateArguments (args : List Expr) (draft : Draft) :
    (generateArguments args draft).units = draft.units := by
  cases args with
  | nil => rfl
  | cons arg rest =>
      simp [generateArguments, arg.units_generate, units_generateArguments rest]
end

@[simp] theorem units_generateOptional (expr : Option Expr) (draft : Draft) :
    (generateOptional expr draft).units = draft.units := by
  cases expr with
  | none => rfl
  | some expr => exact expr.units_generate draft

theorem CodeUnit.units_eq (unit : CodeUnit) :
    unit.units = unit :: unitsOfConstants unit.consts := by
  cases unit
  rfl

theorem units_finish (name file : String) (params : List String) (draft : Draft) :
    (draft.finish name file params).units = draft.finish name file params :: draft.units := by
  rw [CodeUnit.units_eq]
  have hconsts : unitsOfConstants (draft.finish name file params).consts =
      (draft.emitConstant .loadConst .none).units := rfl
  rw [hconsts, units_emitConstant, Constant.units, List.append_nil]

mutual
/-- The code of a statement adds the units of the functions in it. -/
theorem Stmt.units_generate (around : Surroundings) (stmt : Stmt) (draft : Draft) :
    (stmt.generate around draft).units =
      draft.units ++ (stmt.functions around.file around.keepAsserts).map Prod.fst := by
  cases stmt with
  | expr place value => simp [Stmt.generate, Stmt.functions]
  | assign place target value => cases target <;> simp [Stmt.generate, Stmt.functions]
  | branch place condition body alternative =>
      simp [Stmt.generate, Stmt.functions, alternative.units_generate, units_generateBlock]
  | loop place condition body => simp [Stmt.generate, Stmt.functions, units_generateBlock]
  | define place name params body =>
      have hbody := units_generateBlock { around with loop := none } body
        { line := UInt32.ofNat place.line }
      have hunit : (functionUnit around place name params body).units =
          functionUnit around place name params body ::
            (blockFunctions around.file around.keepAsserts body).map Prod.fst := by
        rw [functionUnit, bodyUnit, units_finish, hbody]
        rfl
      have hdraft : ((Stmt.define place name params body).generate around draft).units =
          draft.units ++ (functionUnit around place name params body).units :=
        (units_emitName _ _ _).trans (units_emitConstant _ _ _)
      rw [hdraft, hunit]
      rfl
  | giveBack place value => cases value <;> simp [Stmt.generate, Stmt.functions, Constant.units]
  | importModule place name => simp [Stmt.generate, Stmt.functions]
  | assert place test message =>
      unfold Stmt.generate
      split <;> simp [Stmt.functions]
  | pass place => simp [Stmt.generate, Stmt.functions]
  | breakLoop place => simp [Stmt.generate, Stmt.functions]
  | continueLoop place =>
      unfold Stmt.generate
      split <;> simp [Stmt.functions]

theorem units_generateBlock (around : Surroundings) (block : List Stmt) (draft : Draft) :
    (generateBlock around block draft).units =
      draft.units ++ (blockFunctions around.file around.keepAsserts block).map Prod.fst := by
  cases block with
  | nil => simp [generateBlock, blockFunctions]
  | cons stmt rest =>
      simp [generateBlock, blockFunctions, stmt.units_generate, units_generateBlock]

theorem Alternative.units_generate (around : Surroundings) (alternative : Alternative)
    (draft : Draft) : (alternative.generate around draft).units =
      draft.units ++ (alternative.functions around.file around.keepAsserts).map Prod.fst := by
  cases alternative with
  | nothing => simp [Alternative.generate, Alternative.functions]
  | elif condition body rest =>
      simp [Alternative.generate, Alternative.functions, rest.units_generate, units_generateBlock]
  | otherwise body => simp [Alternative.generate, Alternative.functions, units_generateBlock]
end

/-- The units and the bodies of a program: its own ones, and those of the functions in it. -/
def programBodies (file : String) (optimize : UInt8) (program : Block) :
    List (CodeUnit × Block) :=
  (generate file optimize program, program) :: blockFunctions file (optimize == 0) program

/-- The units of a program are those of its bodies. -/
theorem units_generate (file : String) (optimize : UInt8) (program : Block) :
    (generate file optimize program).units =
      (programBodies file optimize program).map Prod.fst := by
  rw [generate, units_finish, units_generateBlock]
  rfl

mutual
/-- The unit of a function is generated from its body. -/
theorem Stmt.exists_of_mem_functions {file : String} {keepAsserts : Bool} (stmt : Stmt)
    {unit : CodeUnit} {body : Block} (h : (unit, body) ∈ stmt.functions file keepAsserts) :
    ∃ line name params, unit = bodyUnit { file, keepAsserts } line name params body := by
  cases stmt with
  | branch _ condition inner alternative =>
      rcases List.mem_append.mp h with hinner | halternative
      · exact exists_of_mem_blockFunctions inner hinner
      · exact alternative.exists_of_mem_functions halternative
  | loop _ condition inner => exact exists_of_mem_blockFunctions inner h
  | define place name params inner =>
      rcases List.mem_cons.mp h with heq | hinner
      · obtain ⟨rfl, rfl⟩ := Prod.mk.inj heq
        exact ⟨_, _, _, rfl⟩
      · exact exists_of_mem_blockFunctions inner hinner
  | _ => exact nomatch h

theorem exists_of_mem_blockFunctions {file : String} {keepAsserts : Bool} (block : List Stmt)
    {unit : CodeUnit} {body : Block} (h : (unit, body) ∈ blockFunctions file keepAsserts block) :
    ∃ line name params, unit = bodyUnit { file, keepAsserts } line name params body := by
  cases block with
  | nil => exact nomatch h
  | cons stmt rest =>
      rcases List.mem_append.mp h with hstmt | hrest
      · exact stmt.exists_of_mem_functions hstmt
      · exact exists_of_mem_blockFunctions rest hrest

theorem Alternative.exists_of_mem_functions {file : String} {keepAsserts : Bool}
    (alternative : Alternative) {unit : CodeUnit} {body : Block}
    (h : (unit, body) ∈ alternative.functions file keepAsserts) :
    ∃ line name params, unit = bodyUnit { file, keepAsserts } line name params body := by
  cases alternative with
  | nothing => exact nomatch h
  | elif condition inner rest =>
      rcases List.mem_append.mp h with hinner | hrest
      · exact exists_of_mem_blockFunctions inner hinner
      · exact rest.exists_of_mem_functions hrest
  | otherwise inner => exact exists_of_mem_blockFunctions inner h
end

/-- Every unit of a program is generated from its body. -/
theorem exists_of_mem_programBodies {file : String} {optimize : UInt8} {program : Block}
    {unit : CodeUnit} {body : Block} (h : (unit, body) ∈ programBodies file optimize program) :
    ∃ line name params,
      unit = bodyUnit { file, keepAsserts := optimize == 0 } line name params body := by
  rcases List.mem_cons.mp h with heq | hfunction
  · obtain ⟨rfl, rfl⟩ := Prod.mk.inj heq
    exact ⟨1, moduleUnitName, [], rfl⟩
  · exact exists_of_mem_blockFunctions program hfunction

end FrozenScript
