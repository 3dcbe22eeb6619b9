import FrozenScript.Proofs.Syntax.Spans

/-!
# Labels of units

`CodeUnit.relabel` gives a unit and all units inside it another label. Generation commutes with it:
whatever is appended to a draft with other labels is what is appended to the draft
(`Stmt.generate_relabel`), because indices and jump targets do not depend on labels. The main
statement, `compile_label_attributes`, says that the label of a source shows up in the file of an
error and in the files of units, and nowhere else.
-/

namespace FrozenScript

/-! ## Other labels -/

mutual
/-- A constant with another label on its units. -/
def Constant.relabel (file : String) : Constant → Constant
  | .code unit => .code (unit.relabel file)
  | .none => .none
  | .bool value => .bool value
  | .int value => .int value
  | .text value => .text value

/-- A unit with another label on it and on the units inside it. -/
def CodeUnit.relabel (file : String) : CodeUnit → CodeUnit
  | .mk name _ params consts names code lines =>
    .mk name file params (relabelConstants file consts) names code lines

/-- Constants with another label on their units. -/
def relabelConstants (file : String) : List Constant → List Constant
  | [] => []
  | const :: rest => const.relabel file :: relabelConstants file rest
end

theorem relabelConstants_eq_map (file : String) (consts : List Constant) :
    relabelConstants file consts = consts.map (Constant.relabel file) := by
  induction consts with
  | nil => rfl
  | cons const rest ih => rw [relabelConstants, ih, List.map_cons]

mutual
theorem Constant.file_of_mem_units_relabel (file : String) (const : Constant) :
    ∀ unit ∈ (const.relabel file).units, unit.file = file := by
  cases const with
  | code unit => exact unit.file_of_mem_units_relabel file
  | _ => exact nofun

/-- The new label is on every unit. -/
theorem CodeUnit.file_of_mem_units_relabel (file : String) (unit : CodeUnit) :
    ∀ inner ∈ (unit.relabel file).units, inner.file = file := by
  obtain ⟨name, old, params, consts, names, code, lines⟩ := unit
  exact List.forall_mem_cons.mpr ⟨rfl, file_of_mem_unitsOfConstants_relabel file consts⟩

theorem file_of_mem_unitsOfConstants_relabel (file : String) (consts : List Constant) :
    ∀ unit ∈ unitsOfConstants (relabelConstants file consts), unit.file = file := by
  cases consts with
  | nil => exact nofun
  | cons const rest =>
      exact List.forall_mem_append.mpr ⟨const.file_of_mem_units_relabel file,
        file_of_mem_unitsOfConstants_relabel file rest⟩
end

/-- Whether a constant equals a literal does not depend on labels. -/
theorem matches_relabel (file : String) (const : Constant) (value : Literal) :
    (const.relabel file).matches value.constant = const.matches value.constant := by
  cases const <;> cases value <;> rfl

/-! ## Drafts -/

namespace Draft

/-- A draft with another label on the units inside it. -/
def relabel (file : String) (draft : Draft) : Draft :=
  { draft with consts := draft.consts.map (Constant.relabel file) }

variable (file : String) (draft : Draft)

@[simp] theorem here_relabel : (draft.relabel file).here = draft.here :=
  rfl

@[simp] theorem atLine_relabel (line : Nat) :
    (draft.relabel file).atLine line = (draft.atLine line).relabel file :=
  rfl

@[simp] theorem emit_relabel (instr : Instr) :
    (draft.relabel file).emit instr = (draft.emit instr).relabel file :=
  rfl

@[simp] theorem emitJump_relabel (instr : UInt32 → Instr) (target : Nat) :
    (draft.relabel file).emitJump instr target = (draft.emitJump instr target).relabel file :=
  rfl

theorem size_consts_relabel : (draft.relabel file).consts.size = draft.consts.size :=
  Array.size_map ..

/-- There are no units in a draft without constants. -/
theorem relabel_start (line : UInt32) : relabel file { line } = { line } := by
  simp [relabel]

/-- A name is found, or added, at the same index. -/
theorem name_relabel (name : String) :
    (draft.relabel file).name name = ((draft.name name).1, (draft.name name).2.relabel file) := by
  have hnames : (draft.relabel file).names = draft.names := rfl
  unfold Draft.name
  rw [hnames]
  cases draft.names.findIdx? (· == name) <;> rfl

@[simp] theorem emitName_relabel (instr : UInt32 → Instr) (name : String) :
    (draft.relabel file).emitName instr name = (draft.emitName instr name).relabel file := by
  unfold emitName
  rw [name_relabel]
  rfl

theorem constant_literal (value : Literal) :
    draft.constant value.constant =
      match draft.consts.findIdx? (·.matches value.constant) with
      | some index => (UInt32.ofNat index, draft)
      | none => (UInt32.ofNat draft.consts.size,
          { draft with consts := draft.consts.push value.constant }) := by
  cases value <;> rfl

/-- A literal is found, or added, at the same index. -/
theorem constant_relabel (value : Literal) :
    (draft.relabel file).constant value.constant =
      ((draft.constant value.constant).1, (draft.constant value.constant).2.relabel file) := by
  have hfind : (draft.relabel file).consts.findIdx? (·.matches value.constant) =
      draft.consts.findIdx? (·.matches value.constant) := by
    show (draft.consts.map _).findIdx? _ = _
    rw [Array.findIdx?_map]
    exact congrArg draft.consts.findIdx? (funext fun const => matches_relabel file const value)
  have hpush : (draft.relabel file).consts.push value.constant =
      (draft.consts.push value.constant).map (Constant.relabel file) := by
    rw [Array.map_push]
    cases value <;> rfl
  rw [constant_literal, constant_literal, hfind, size_consts_relabel, hpush]
  cases draft.consts.findIdx? (·.matches value.constant) <;> rfl

@[simp] theorem emitConstant_relabel (instr : UInt32 → Instr) (value : Literal) :
    (draft.relabel file).emitConstant instr value.constant =
      (draft.emitConstant instr value.constant).relabel file := by
  unfold emitConstant
  rw [constant_relabel]
  rfl

/-- A unit is added at the same index, whatever its label is. -/
theorem emitUnit_relabel (instr : UInt32 → Instr) (unit : CodeUnit) :
    (draft.relabel file).emitConstant instr (.code (unit.relabel file)) =
      (draft.emitConstant instr (.code unit)).relabel file := by
  have hpush : (draft.relabel file).consts.push (.code (unit.relabel file)) =
      (draft.consts.push (.code unit)).map (Constant.relabel file) := by
    rw [Array.map_push, Constant.relabel]
    rfl
  show Draft.emit _ { draft.relabel file with consts := (draft.relabel file).consts.push _ } =
    Draft.relabel file (.emit _ { draft with consts := draft.consts.push _ })
  rw [size_consts_relabel, hpush]
  rfl

theorem finish_relabel (unitName old : String) (params : List String) :
    (draft.relabel file).finish unitName file params =
      (draft.finish unitName old params).relabel file := by
  have hlast : (draft.relabel file).emitConstant .loadConst .none =
      (draft.emitConstant .loadConst .none).relabel file :=
    draft.emitConstant_relabel file .loadConst Literal.none
  unfold finish
  dsimp only
  rw [hlast, CodeUnit.relabel, relabelConstants_eq_map]
  simp [relabel, emit]

end Draft

/-! ## Expressions -/

mutual
/-- The code of an expression does not depend on labels. -/
theorem Expr.generate_relabel (file : String) (expr : Expr) (draft : Draft) :
    expr.generate (draft.relabel file) = (expr.generate draft).relabel file := by
  cases expr with
  | literal _ value => exact draft.emitConstant_relabel file _ value
  | name _ name => exact draft.emitName_relabel file _ name
  | binary _ op left right =>
      simp [Expr.generate, left.generate_relabel, right.generate_relabel]
  | unary _ op operand => simp [Expr.generate, operand.generate_relabel]
  | compare _ op left right =>
      simp [Expr.generate, left.generate_relabel, right.generate_relabel]
  | logical _ op left right =>
      simp [Expr.generate, left.generate_relabel, right.generate_relabel]
  | call _ callee args =>
      simp [Expr.generate, callee.generate_relabel, generateArguments_relabel file args]
  | member _ object name => simp [Expr.generate, object.generate_relabel]

theorem generateArguments_relabel (file : String) (args : List Expr) (draft : Draft) :
    generateArguments args (draft.relabel file) = (generateArguments args draft).relabel file := by
  cases args with
  | nil => rfl
  | cons arg rest =>
      rw [generateArguments, arg.generate_relabel, generateArguments_relabel file rest,
        generateArguments]
end

theorem generateOptional_relabel (file : String) (expr : Option Expr) (draft : Draft) :
    generateOptional expr (draft.relabel file) = (generateOptional expr draft).relabel file := by
  cases expr with
  | none => rfl
  | some expr => exact expr.generate_relabel file draft

/-! ## Statements -/

mutual
/-- The label goes into the units of functions, and nothing else in the code of a statement depends
on labels. -/
theorem Stmt.generate_relabel (file : String) (around : Surroundings) (stmt : Stmt)
    (draft : Draft) :
    stmt.generate { around with file } (draft.relabel file) =
      (stmt.generate around draft).relabel file := by
  cases stmt with
  | expr place value => simp [Stmt.generate, value.generate_relabel]
  | assign place target value =>
      cases target with
      | name span name => simp [Stmt.generate, value.generate_relabel]
      | _ => rfl
  | branch place condition body alternative =>
      simp [Stmt.generate, condition.generate_relabel, generateBlock_relabel file around body,
        alternative.generate_relabel file around]
  | loop place condition body =>
      have hbody (loop : LoopBounds) (draft : Draft) :=
        generateBlock_relabel file { around with loop := some loop } body draft
      simp [Stmt.generate, condition.generate_relabel, hbody]
  | define place name params body =>
      have hbody := generateBlock_relabel file { around with loop := none } body
        { line := UInt32.ofNat place.line }
      rw [Draft.relabel_start] at hbody
      simp only [Stmt.generate, hbody, Draft.finish_relabel file _ name around.file,
        Draft.atLine_relabel, Draft.emitUnit_relabel, Draft.emitName_relabel]
  | giveBack place value =>
      cases value with
      | none =>
          have hnone := (draft.atLine place.line).emitConstant_relabel file .loadConst Literal.none
          exact congrArg (Draft.emit .giveBack) hnone
      | some value => simp [Stmt.generate, value.generate_relabel]
  | importModule place name => simp [Stmt.generate]
  | assert place test message =>
      by_cases hkeep : around.keepAsserts = true
      · simp [Stmt.generate, hkeep, test.generate_relabel, generateOptional_relabel]
      · simp [Stmt.generate, hkeep]
  | pass place => rfl
  | breakLoop place => rfl
  | continueLoop place => cases hloop : around.loop <;> simp [Stmt.generate, hloop]

theorem generateBlock_relabel (file : String) (around : Surroundings) (block : List Stmt)
    (draft : Draft) :
    generateBlock { around with file } block (draft.relabel file) =
      (generateBlock around block draft).relabel file := by
  cases block with
  | nil => rfl
  | cons stmt rest =>
      rw [generateBlock, stmt.generate_relabel, generateBlock_relabel file around rest,
        generateBlock]

theorem Alternative.generate_relabel (file : String) (around : Surroundings)
    (alternative : Alternative) (draft : Draft) :
    alternative.generate { around with file } (draft.relabel file) =
      (alternative.generate around draft).relabel file := by
  cases alternative with
  | nothing => rfl
  | elif condition body rest =>
      simp [Alternative.generate, condition.generate_relabel,
        generateBlock_relabel file around body, rest.generate_relabel file around]
  | otherwise body => simp [Alternative.generate, generateBlock_relabel file around body]
end

/-- A program with another label has the same code, with this label on every unit. -/
theorem generate_relabel (file file' : String) (optimize : UInt8) (program : Block) :
    generate file' optimize program = (generate file optimize program).relabel file' := by
  have hbody := generateBlock_relabel file' { file, keepAsserts := optimize == 0 } program
    { line := 1 }
  rw [Draft.relabel_start] at hbody
  rw [generate, hbody, Draft.finish_relabel file' _ moduleUnitName file]
  rfl

/-- The label of a program is on every unit. -/
theorem file_of_mem_units_generate (file : String) (optimize : UInt8) (program : Block) :
    ∀ unit ∈ (generate file optimize program).units, unit.file = file := by
  rw [generate_relabel file file]
  exact CodeUnit.file_of_mem_units_relabel file _

/-! ## Sources -/

/-- A source that is given as a text has no bad bytes, and so its label is not in the wording of an
error. -/
theorem message_of_readCheckedProgram {source : String} {fault : CompileFault}
    (h : readCheckedProgram source = .error fault) (file file' : String) :
    CompileError.message ⟨file', fault⟩ = CompileError.message ⟨file, fault⟩ := by
  rcases error_of_bind h with hread | ⟨program, -, hcheck⟩
  · rcases error_of_bind hread with hlex | ⟨tokens, -, hparse⟩
    · obtain ⟨error, -, rfl⟩ := error_of_mapError hlex
      rfl
    · obtain ⟨error, -, rfl⟩ := error_of_mapError hparse
      rfl
  · rcases error_of_bind hcheck with hscoping | ⟨-, -, hreturn⟩
    · obtain ⟨error, -, rfl⟩ := error_of_mapError hscoping
      rfl
    · exact nomatch hreturn

/-- Two labels for one source: either both give an error, of the same kind, with the same message,
advice, place and remark, in the file that the label names; or both give the same units, each of
them with its label, at every depth. -/
theorem compile_label_attributes (file file' : String) (optimize : UInt8) (source : String) :
    (∃ error error', compile file optimize source = .error error ∧
      compile file' optimize source = .error error' ∧
      error.file = file ∧ error'.file = file' ∧ error'.code = error.code ∧
      error'.message = error.message ∧ error'.help? = error.help? ∧
      error'.place? = error.place?) ∨
    ∃ unit unit', compile file optimize source = .ok unit ∧
      compile file' optimize source = .ok unit' ∧
      unit' = unit.relabel file' ∧ unit = unit'.relabel file ∧
      (∀ inner ∈ unit.units, inner.file = file) ∧ ∀ inner ∈ unit'.units, inner.file = file' := by
  cases hread : readCheckedProgram source with
  | error fault =>
      have hfails (file : String) : compile file optimize source = .error ⟨file, fault⟩ := by
        rw [compile, hread]
        rfl
      exact .inl ⟨_, _, hfails file, hfails file', rfl, rfl, rfl,
        message_of_readCheckedProgram hread file file', rfl, rfl⟩
  | ok program =>
      have hcompiles (file : String) :
          compile file optimize source = .ok (generate file optimize program) := by
        rw [compile, hread]
        rfl
      exact .inr ⟨_, _, hcompiles file, hcompiles file', generate_relabel file file' _ _,
        generate_relabel file' file _ _, file_of_mem_units_generate file _ _,
        file_of_mem_units_generate file' _ _⟩

end FrozenScript
