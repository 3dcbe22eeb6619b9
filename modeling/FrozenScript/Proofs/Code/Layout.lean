import FrozenScript.Proofs.Code.Draft

/-!
# Where the code of a construct stands

`Expr.CodeAt` and `Stmt.CodeAt` say what a unit holds from some index on if the code of an
expression or of a statement stands there: which instruction stands at which index, and which
constant, name or target it refers to. `BodyCode` says the same of a whole unit, and
`bodyUnit_code` that generation makes such units. Nothing else has to be known of the generator to
follow its code.
-/

namespace FrozenScript

open Draft

namespace CodeUnit

/-- The instruction at an index refers to the given constant. -/
def HasConstant (unit : CodeUnit) (pc : Nat) (instr : UInt32 → Instr) (value : Constant) : Prop :=
  ∃ index, unit.code[pc]? = some (instr index) ∧ unit.consts[index.toNat]? = some value

/-- The instruction at an index refers to the given name. -/
def HasName (unit : CodeUnit) (pc : Nat) (instr : UInt32 → Instr) (name : String) : Prop :=
  ∃ index, unit.code[pc]? = some (instr index) ∧ unit.names[index.toNat]? = some name

/-- The instruction at an index has the given number as its operand. -/
def HasOperand (unit : CodeUnit) (pc : Nat) (instr : UInt32 → Instr) (n : Nat) : Prop :=
  ∃ operand, unit.code[pc]? = some (instr operand) ∧ operand.toNat = n

end CodeUnit

/-! ## Expressions -/

mutual
/-- The code of an expression stands in a unit from an index on. -/
def Expr.CodeAt (unit : CodeUnit) : Expr → (start : Nat) → Prop
  | .literal _ value, start => unit.HasConstant start .loadConst value.constant
  | .name _ name, start => unit.HasName start .loadName name
  | .binary _ op left right, start =>
    left.CodeAt unit start ∧ right.CodeAt unit (start + left.codeSize) ∧
      unit.code[start + left.codeSize + right.codeSize]? = some (.binaryOp op)
  | .unary _ op operand, start =>
    operand.CodeAt unit start ∧ unit.code[start + operand.codeSize]? = some (.unaryOp op)
  | .compare _ op left right, start =>
    left.CodeAt unit start ∧ right.CodeAt unit (start + left.codeSize) ∧
      unit.code[start + left.codeSize + right.codeSize]? = some (.compare op)
  | .logical _ op left right, start =>
    left.CodeAt unit start ∧
      unit.HasOperand (start + left.codeSize) op.skip
        (start + left.codeSize + 1 + right.codeSize) ∧
      right.CodeAt unit (start + left.codeSize + 1)
  | .call _ callee args, start =>
    callee.CodeAt unit start ∧ ArgumentsCodeAt unit args (start + callee.codeSize) ∧
      unit.HasOperand (start + callee.codeSize + argumentsSize args) .call args.length
  | .member _ object name, start =>
    object.CodeAt unit start ∧ unit.HasName (start + object.codeSize) .loadMember name

/-- The code of arguments stands in a unit from an index on. -/
def ArgumentsCodeAt (unit : CodeUnit) : List Expr → (start : Nat) → Prop
  | [], _ => True
  | arg :: rest, start =>
    arg.CodeAt unit start ∧ ArgumentsCodeAt unit rest (start + arg.codeSize)
end

/-- The code of an expression that may be absent stands in a unit from an index on. -/
def OptionalCodeAt (unit : CodeUnit) : Option Expr → (start : Nat) → Prop
  | none, _ => True
  | some expr, start => expr.CodeAt unit start

section

variable {unit : CodeUnit} {draft : Draft}

theorem getElem?_of_prefix {α : Type} {items more : List α} {index : Nat} {item : α}
    (h : items <+: more) (hitem : items[index]? = some item) : more[index]? = some item := by
  obtain ⟨hlt, rfl⟩ := List.getElem?_eq_some_iff.mp hitem
  exact List.prefix_iff_getElem?.mp h index hlt

theorem emit_at {instr : Instr} (h : (draft.emit instr).Within unit) :
    unit.code[draft.here]? = some instr := by
  have hdraft : (draft.emit instr).code.toList[draft.here]? = some instr := by
    rw [Array.getElem?_toList]
    exact Array.getElem?_push_size
  rw [← Array.getElem?_toList]
  exact getElem?_of_prefix h.code hdraft

theorem toNat_ofNat_of_lt {n : Nat} (h : n < UInt32.size) : (UInt32.ofNat n).toNat = n :=
  UInt32.toNat_ofNat_of_lt' h

theorem emit_operand {instr : UInt32 → Instr} {n : Nat}
    (h : (draft.emit (instr (UInt32.ofNat n))).Within unit) (hn : n < UInt32.size) :
    unit.HasOperand draft.here instr n :=
  ⟨_, emit_at h, toNat_ofNat_of_lt hn⟩

theorem emitJump_at {instr : UInt32 → Instr} {target : Nat}
    (h : (draft.emitJump instr target).Within unit) (htarget : target < UInt32.size) :
    unit.HasOperand draft.here instr target :=
  emit_operand h htarget

/-- A constant has its index in the draft that it was put into. -/
theorem constant_at (value : Constant) (draft : Draft) :
    ∃ index, draft.constant value = (UInt32.ofNat index, (draft.constant value).2) ∧
      (draft.constant value).2.consts[index]? = some value := by
  unfold Draft.constant
  dsimp only
  split
  next index hindex =>
    refine ⟨index, rfl, ?_⟩
    cases value with
    | code _ => exact nomatch hindex
    | _ =>
        obtain ⟨hlt, hmatches, -⟩ := Array.findIdx?_eq_some_iff_getElem.mp hindex
        rw [Array.getElem?_eq_getElem hlt, (Constant.matches_iff _ _).mp hmatches]
  next => exact ⟨_, rfl, Array.getElem?_push_size⟩

/-- A name has its index in the draft that it was put into. -/
theorem name_at (name : String) (draft : Draft) :
    ∃ index, draft.name name = (UInt32.ofNat index, (draft.name name).2) ∧
      (draft.name name).2.names[index]? = some name := by
  unfold Draft.name
  split
  next index hindex =>
    refine ⟨index, rfl, ?_⟩
    obtain ⟨hlt, hmatches, -⟩ := Array.findIdx?_eq_some_iff_getElem.mp hindex
    rw [Array.getElem?_eq_getElem hlt, eq_of_beq hmatches]
  next => exact ⟨_, rfl, Array.getElem?_push_size⟩

theorem emitConstant_at {instr : UInt32 → Instr} {value : Constant}
    (h : (draft.emitConstant instr value).Within unit) (hsmall : unit.Small) :
    unit.HasConstant draft.here instr value := by
  obtain ⟨index, hconstant, hvalue⟩ := constant_at value draft
  have hemit : draft.emitConstant instr value =
      (draft.constant value).2.emit (instr (UInt32.ofNat index)) := by
    rw [emitConstant, hconstant]
  rw [hemit] at h
  have hunit : unit.consts[index]? = some value := by
    refine getElem?_of_prefix ((emit_grows _ _).within h).consts ?_
    rw [Array.getElem?_toList]
    exact hvalue
  obtain ⟨hlt, -⟩ := List.getElem?_eq_some_iff.mp hunit
  refine ⟨UInt32.ofNat index, ?_, ?_⟩
  · have hhere : (draft.constant value).2.here = draft.here := (constant_grows value draft).here
    rw [← hhere]
    exact emit_at h
  · rw [toNat_ofNat_of_lt (Nat.lt_trans hlt hsmall.consts)]
    exact hunit

theorem emitName_at {instr : UInt32 → Instr} {name : String}
    (h : (draft.emitName instr name).Within unit) (hsmall : unit.Small) :
    unit.HasName draft.here instr name := by
  obtain ⟨index, hname, hvalue⟩ := name_at name draft
  have hemit : draft.emitName instr name =
      (draft.name name).2.emit (instr (UInt32.ofNat index)) := by
    rw [emitName, hname]
  rw [hemit] at h
  have hunit : unit.names[index]? = some name := by
    rw [← Array.getElem?_toList]
    refine getElem?_of_prefix ((emit_grows _ _).within h).names ?_
    rw [Array.getElem?_toList]
    exact hvalue
  obtain ⟨hlt, -⟩ := Array.getElem?_eq_some_iff.mp hunit
  refine ⟨UInt32.ofNat index, ?_, ?_⟩
  · have hhere : (draft.name name).2.here = draft.here := (name_grows name draft).here
    rw [← hhere]
    exact emit_at h
  · rw [toNat_ofNat_of_lt (Nat.lt_trans hlt hsmall.names)]
    exact hunit

theorem Expr.codeSize_pos (expr : Expr) : 0 < expr.codeSize := by
  cases expr <;> exact Nat.zero_lt_succ _

theorem length_le_argumentsSize (args : List Expr) : args.length ≤ argumentsSize args := by
  induction args with
  | nil => exact Nat.le_refl _
  | cons arg rest ih =>
      have hpos := arg.codeSize_pos
      rw [List.length_cons, argumentsSize]
      omega

mutual
/-- A unit that has what the generation of an expression leads to has the code of the
expression. -/
theorem Expr.codeAt (expr : Expr) {draft : Draft} (h : (expr.generate draft).Within unit)
    (hsmall : unit.Small) : expr.CodeAt unit draft.here := by
  cases expr with
  | literal _ value => exact emitConstant_at h hsmall
  | name _ name => exact emitName_at h hsmall
  | binary _ op left right =>
      have hright := (emit_grows _ _).within h
      have hleft := (right.generate_grows _).within hright
      rw [Expr.CodeAt, ← (left.generate_grows draft).here, ← (right.generate_grows _).here]
      exact ⟨left.codeAt hleft hsmall, right.codeAt hright hsmall, emit_at h⟩
  | unary _ op operand =>
      have hoperand := (emit_grows _ _).within h
      rw [Expr.CodeAt, ← (operand.generate_grows draft).here]
      exact ⟨operand.codeAt hoperand hsmall, emit_at h⟩
  | compare _ op left right =>
      have hright := (emit_grows _ _).within h
      have hleft := (right.generate_grows _).within hright
      rw [Expr.CodeAt, ← (left.generate_grows draft).here, ← (right.generate_grows _).here]
      exact ⟨left.codeAt hleft hsmall, right.codeAt hright hsmall, emit_at h⟩
  | logical span op left right =>
      have hjump := (right.generate_grows _).within h
      have hleft := (emitJump_grows _ _ _).within hjump
      have htarget := h.here_le
      rw [((Expr.logical span op left right).generate_grows draft).here, Expr.codeSize] at htarget
      have hmiddle := (left.generate_grows draft).here
      have hunit := hsmall.code
      have hright := right.codeAt h hsmall
      rw [(emitJump_grows _ _ _).here] at hright
      rw [Expr.CodeAt, ← (left.generate_grows draft).here]
      exact ⟨left.codeAt hleft hsmall, emit_operand hjump (by omega), hright⟩
  | call _ callee args =>
      have hargs := (emit_grows _ _).within h
      have hcallee := (generateArguments_grows args _).within hargs
      rw [Expr.CodeAt, ← (callee.generate_grows draft).here,
        ← (generateArguments_grows args _).here]
      refine ⟨callee.codeAt hcallee hsmall, arguments_codeAt args hargs hsmall, emit_operand h ?_⟩
      have hend := hargs.here_le
      rw [(generateArguments_grows args _).here] at hend
      have hlength := length_le_argumentsSize args
      have hunit := hsmall.code
      omega
  | member _ object name =>
      have hobject := (emitName_grows _ _ _).within h
      rw [Expr.CodeAt, ← (object.generate_grows draft).here]
      exact ⟨object.codeAt hobject hsmall, emitName_at h hsmall⟩

theorem arguments_codeAt (args : List Expr) {draft : Draft}
    (h : (generateArguments args draft).Within unit) (hsmall : unit.Small) :
    ArgumentsCodeAt unit args draft.here := by
  cases args with
  | nil => trivial
  | cons arg rest =>
      have harg := (generateArguments_grows rest _).within h
      rw [ArgumentsCodeAt, ← (arg.generate_grows draft).here]
      exact ⟨arg.codeAt harg hsmall, arguments_codeAt rest h hsmall⟩
end

/-! ## Statements -/

theorem optional_codeAt (expr : Option Expr) {draft : Draft}
    (h : (generateOptional expr draft).Within unit) (hsmall : unit.Small) :
    OptionalCodeAt unit expr draft.here := by
  cases expr with
  | none => trivial
  | some expr => exact expr.codeAt h hsmall

end

/-- The unit of a body that is generated on its own. -/
def bodyUnit (around : Surroundings) (line : Nat) (name : String) (params : List String)
    (body : Block) : CodeUnit :=
  (generateBlock { around with loop := none } body { line := UInt32.ofNat line }).finish name
    around.file params

/-- The unit of a function. -/
def functionUnit (around : Surroundings) (place : Place) (name : String) (params : List Param)
    (body : Block) : CodeUnit :=
  bodyUnit around place.line name (params.map Param.name) body

mutual
/-- The code of a statement stands in a unit from an index on. -/
def Stmt.CodeAt (unit : CodeUnit) (around : Surroundings) : Stmt → (start : Nat) → Prop
  | .expr _ value, start =>
    value.CodeAt unit start ∧ unit.code[start + value.codeSize]? = some .pop
  | .assign _ (.name _ name) value, start =>
    value.CodeAt unit start ∧ unit.HasName (start + value.codeSize) .storeName name
  | .assign .., _ => True
  | .branch _ condition body alternative, start =>
    let behind := start + condition.codeSize + 1
    let bodySize := blockSize around.keepAsserts around.loop.isSome body
    condition.CodeAt unit start ∧
      unit.HasOperand (start + condition.codeSize) .popJumpIfFalse
        (behind + bodySize + jumpSize alternative.isPresent) ∧
      BlockCodeAt unit around body behind ∧
      alternative.CodeAt unit around (behind + bodySize)
  | .loop _ condition body, start =>
    let behind := start + condition.codeSize + 1
    let bodySize := blockSize around.keepAsserts true body
    let exit := behind + bodySize + 1
    condition.CodeAt unit start ∧
      unit.HasOperand (start + condition.codeSize) .popJumpIfFalse exit ∧
      BlockCodeAt unit { around with loop := some ⟨start, exit⟩ } body behind ∧
      unit.HasOperand (behind + bodySize) .jump start
  | .define place name params body, start =>
    unit.HasConstant start .makeFunction (.code (functionUnit around place name params body)) ∧
      unit.HasName (start + 1) .storeName name
  | .giveBack _ (some value), start =>
    value.CodeAt unit start ∧ unit.code[start + value.codeSize]? = some .giveBack
  | .giveBack _ none, start =>
    unit.HasConstant start .loadConst .none ∧ unit.code[start + 1]? = some .giveBack
  | .importModule _ name, start =>
    unit.HasName start .importName name ∧ unit.HasName (start + 1) .storeName name
  | .assert _ test message, start =>
    let behind := start + test.codeSize + 1
    around.keepAsserts = true →
      test.CodeAt unit start ∧
        unit.HasOperand (start + test.codeSize) .popJumpIfTrue
          (behind + optionalSize message + 1) ∧
        OptionalCodeAt unit message behind ∧
        unit.code[behind + optionalSize message]? = some (.raiseAssert message.isSome)
  | .pass _, _ => True
  | .breakLoop _, start =>
    match around.loop with
    | some loop => unit.HasOperand start .jump loop.exit
    | none => unit.HasOperand start .jump 0
  | .continueLoop _, start =>
    match around.loop with
    | some loop => unit.HasOperand start .jump loop.start
    | none => True

/-- The code of a block stands in a unit from an index on. -/
def BlockCodeAt (unit : CodeUnit) (around : Surroundings) : List Stmt → (start : Nat) → Prop
  | [], _ => True
  | stmt :: rest, start =>
    stmt.CodeAt unit around start ∧
      BlockCodeAt unit around rest
        (start + stmt.codeSize around.keepAsserts around.loop.isSome)

/-- The code that follows the first block of a branch stands in a unit from an index on. -/
def Alternative.CodeAt (unit : CodeUnit) (around : Surroundings) :
    Alternative → (start : Nat) → Prop
  | .nothing, _ => True
  | .elif condition body rest, start =>
    let loops := around.loop.isSome
    let behind := start + 1 + condition.codeSize + 1
    let bodySize := blockSize around.keepAsserts loops body
    unit.HasOperand start .jump
        (start + 1 + (Alternative.elif condition body rest).codeSize around.keepAsserts loops) ∧
      condition.CodeAt unit (start + 1) ∧
      unit.HasOperand (start + 1 + condition.codeSize) .popJumpIfFalse
        (behind + bodySize + jumpSize rest.isPresent) ∧
      BlockCodeAt unit around body behind ∧
      rest.CodeAt unit around (behind + bodySize)
  | .otherwise body, start =>
    unit.HasOperand start .jump
        (start + 1 + blockSize around.keepAsserts around.loop.isSome body) ∧
      BlockCodeAt unit around body (start + 1)
end

/-- The operands of instructions can tell the start and the exit of the innermost loop. -/
def Surroundings.Small (around : Surroundings) : Prop :=
  ∀ loop, around.loop = some loop → loop.start < UInt32.size ∧ loop.exit < UInt32.size

section

variable {unit : CodeUnit}

mutual
/-- A unit that has what the generation of a statement leads to has the code of the statement. -/
theorem Stmt.codeAt (stmt : Stmt) {around : Surroundings} {draft : Draft}
    (h : (stmt.generate around draft).Within unit) (hsmall : unit.Small) (haround : around.Small) :
    stmt.CodeAt unit around draft.here := by
  -- The emissions of a statement are nested, the last one outermost. What the unit has of the last
  -- one it has of those before, so the code is found from its end to its beginning.
  have hunit := hsmall.code
  have hend := h.here_le
  rw [(stmt.generate_grows around draft).here] at hend
  cases stmt with
  | expr place value =>
      have hvalue := value.codeAt ((emit_grows _ _).within h) hsmall
      have hpop := emit_at h
      rw [(value.generate_grows _).here] at hpop
      exact ⟨hvalue, hpop⟩
  | assign place target value =>
      cases target with
      | name _ name =>
          have hvalue := value.codeAt ((emitName_grows _ _ _).within h) hsmall
          have hstore := emitName_at h hsmall
          rw [(value.generate_grows _).here] at hstore
          exact ⟨hvalue, hstore⟩
      | _ => trivial
  | branch place condition body alternative =>
      have hbody := (alternative.generate_grows around _).within h
      have hjump := (generateBlock_grows around body _).within hbody
      have hcondition := condition.codeAt ((emitJump_grows _ _ _).within hjump) hsmall
      have hhere : (condition.generate (draft.atLine place.line)).here =
          draft.here + condition.codeSize := (condition.generate_grows _).here
      simp only [Stmt.codeSize] at hend
      have hjump := emitJump_at hjump (by omega)
      have hbody := block_codeAt body hbody hsmall haround
      have halternative := alternative.codeAt h hsmall haround
      rw [(generateBlock_grows around body _).here] at halternative
      rw [(emitJump_grows _ _ _).here, hhere] at hbody halternative
      rw [hhere] at hjump
      exact ⟨hcondition, hjump, hbody, halternative⟩
  | loop place condition body =>
      have hbody := (emitJump_grows _ _ _).within h
      have hjump := (generateBlock_grows { around with loop := some _ } body _).within hbody
      have hcondition := condition.codeAt ((emitJump_grows _ _ _).within hjump) hsmall
      have hhere : (condition.generate (draft.atLine place.line)).here =
          draft.here + condition.codeSize := (condition.generate_grows _).here
      simp only [Stmt.codeSize] at hend
      -- The exit of the loop is not emitted yet, but the unit is small with all of the loop in it.
      have hbounds : Surroundings.Small { around with loop := some ⟨draft.here,
          (condition.generate (draft.atLine place.line)).here + 1 +
            blockSize around.keepAsserts true body + 1⟩ } := by
        intro loop hloop
        obtain rfl := Option.some.inj hloop
        dsimp only
        omega
      have hback := emitJump_at h (by omega)
      have hjump := emitJump_at hjump (by omega)
      have hbody := block_codeAt body hbody hsmall hbounds
      rw [(generateBlock_grows _ body _).here] at hback
      rw [(emitJump_grows _ _ _).here, hhere] at hbody hback
      rw [hhere] at hjump
      exact ⟨hcondition, hjump, hbody, hback⟩
  | define place name params body =>
      have hfunction := emitConstant_at ((emitName_grows _ _ _).within h) hsmall
      have hstore := emitName_at h hsmall
      rw [(emitConstant_grows _ _ _).here] at hstore
      exact ⟨hfunction, hstore⟩
  | giveBack place value =>
      cases value with
      | none =>
          have hnone := emitConstant_at ((emit_grows _ _).within h) hsmall
          have hgiveBack := emit_at h
          rw [(emitConstant_grows _ _ _).here] at hgiveBack
          exact ⟨hnone, hgiveBack⟩
      | some value =>
          have hvalue := value.codeAt ((emit_grows _ _).within h) hsmall
          have hgiveBack := emit_at h
          rw [(value.generate_grows _).here] at hgiveBack
          exact ⟨hvalue, hgiveBack⟩
  | importModule place name =>
      have himport := emitName_at ((emitName_grows _ _ _).within h) hsmall
      have hstore := emitName_at h hsmall
      rw [(emitName_grows _ _ _).here] at hstore
      exact ⟨himport, hstore⟩
  | assert place test message =>
      intro hkeep
      unfold Stmt.generate at h
      rw [if_pos hkeep] at h
      simp only [Stmt.codeSize, if_pos hkeep] at hend
      have hmessage := (emit_grows _ _).within h
      have hjump := (generateOptional_grows message _).within hmessage
      have htest := test.codeAt ((emitJump_grows _ _ _).within hjump) hsmall
      have hhere : (test.generate (draft.atLine place.line)).here =
          draft.here + test.codeSize := (test.generate_grows _).here
      have hraise := emit_at h
      have hjump := emitJump_at hjump (by omega)
      have hmessage := optional_codeAt message hmessage hsmall
      rw [(generateOptional_grows message _).here] at hraise
      rw [(emitJump_grows _ _ _).here, hhere] at hmessage hraise
      rw [hhere] at hjump
      exact ⟨htest, hjump, hmessage, hraise⟩
  | pass place => trivial
  | breakLoop place =>
      unfold Stmt.CodeAt
      cases hloop : around.loop with
      | none =>
          simp only [Stmt.generate, hloop] at h
          have hjump := emitJump_at h (Nat.zero_lt_succ _)
          exact hjump
      | some loop =>
          simp only [Stmt.generate, hloop] at h
          have hjump := emitJump_at h (haround loop hloop).2
          exact hjump
  | continueLoop place =>
      unfold Stmt.CodeAt
      cases hloop : around.loop with
      | none => trivial
      | some loop =>
          simp only [Stmt.generate, hloop] at h
          have hjump := emitJump_at h (haround loop hloop).1
          exact hjump

theorem block_codeAt (block : List Stmt) {around : Surroundings} {draft : Draft}
    (h : (generateBlock around block draft).Within unit) (hsmall : unit.Small)
    (haround : around.Small) : BlockCodeAt unit around block draft.here := by
  cases block with
  | nil => trivial
  | cons stmt rest =>
      have hstmt := (generateBlock_grows around rest _).within h
      have hrest := block_codeAt rest h hsmall haround
      rw [(stmt.generate_grows around draft).here] at hrest
      exact ⟨stmt.codeAt hstmt hsmall haround, hrest⟩

theorem Alternative.codeAt (alternative : Alternative) {around : Surroundings} {draft : Draft}
    (h : (alternative.generate around draft).Within unit) (hsmall : unit.Small)
    (haround : around.Small) : alternative.CodeAt unit around draft.here := by
  have hunit := hsmall.code
  have hend := h.here_le
  rw [(alternative.generate_grows around draft).here] at hend
  cases alternative with
  | nothing => trivial
  | elif condition body rest =>
      have hpresent : jumpSize (Alternative.elif condition body rest).isPresent = 1 := rfl
      rw [hpresent] at hend
      have hbody := (rest.generate_grows around _).within h
      have htest := (generateBlock_grows around body _).within hbody
      have hcondition := (emitJump_grows _ _ _).within htest
      have hskip := emitJump_at ((condition.generate_grows _).within hcondition) (by omega)
      have hcondition := condition.codeAt hcondition hsmall
      have hhere (exit : Nat) : (condition.generate (draft.emitJump .jump exit)).here =
          draft.here + 1 + condition.codeSize := by
        rw [(condition.generate_grows _).here, (emitJump_grows _ _ _).here]
      rw [Alternative.codeSize] at hend
      have htest := emitJump_at htest (by rw [hhere]; omega)
      have hbody := block_codeAt body hbody hsmall haround
      have hrest := rest.codeAt h hsmall haround
      rw [(generateBlock_grows around body _).here] at hrest
      rw [(emitJump_grows _ _ _).here, hhere] at hbody hrest
      rw [(emitJump_grows _ _ _).here] at hcondition
      rw [hhere] at htest
      exact ⟨hskip, hcondition, htest, hbody, hrest⟩
  | otherwise body =>
      have hpresent : jumpSize (Alternative.otherwise body).isPresent = 1 := rfl
      rw [hpresent, Alternative.codeSize] at hend
      have hjump := emitJump_at ((generateBlock_grows around body _).within h) (by omega)
      have hbody := block_codeAt body h hsmall haround
      rw [(emitJump_grows _ _ _).here] at hbody
      exact ⟨hjump, hbody⟩
end

end

/-! ## Bodies -/

/-- A unit is the code of a body: the code of its statements, and behind it the instructions that
give back nothing. -/
structure BodyCode (unit : CodeUnit) (around : Surroundings) (body : Block) : Prop where
  block : BlockCodeAt unit around body 0
  nothing : unit.HasConstant (blockSize around.keepAsserts around.loop.isSome body) .loadConst .none
  giveBack : unit.code[blockSize around.keepAsserts around.loop.isSome body + 1]? = some .giveBack
  size : unit.code.size = blockSize around.keepAsserts around.loop.isSome body + 2
  lines : unit.lines.size = unit.code.size

theorem finish_within (unitName file : String) (params : List String) (draft : Draft) :
    ((draft.emitConstant .loadConst .none).emit .giveBack).Within
      (draft.finish unitName file params) :=
  ⟨List.prefix_rfl, List.prefix_rfl, List.prefix_rfl⟩

/-- Every instruction of a body has a line. -/
theorem size_lines_bodyUnit (around : Surroundings) (line : Nat) (name : String)
    (params : List String) (body : Block) :
    (bodyUnit around line name params body).lines.size =
      (bodyUnit around line name params body).code.size := by
  have hgrows := generateBlock_grows { around with loop := none } body
    { line := UInt32.ofNat line }
  have hend := (hgrows.trans (emitConstant_grows .loadConst .none _)).trans (emit_grows .giveBack _)
  exact hend.lines.trans (hend.here.trans rfl).symm

/-- What generation makes of a body is its code. -/
theorem bodyUnit_code {around : Surroundings} {line : Nat} {name : String} {params : List String}
    {body : Block} (hsmall : (bodyUnit around line name params body).Small) :
    BodyCode (bodyUnit around line name params body) { around with loop := none } body := by
  have hgrows := generateBlock_grows { around with loop := none } body
    { line := UInt32.ofNat line }
  have hlast := finish_within name around.file params
    (generateBlock { around with loop := none } body { line := UInt32.ofNat line })
  have hnone := (emit_grows _ _).within hlast
  have hblock := (emitConstant_grows _ _ _).within hnone
  have hhere : (generateBlock { around with loop := none } body
      { line := UInt32.ofNat line }).here =
        blockSize around.keepAsserts (none : Option LoopBounds).isSome body := by
    rw [hgrows.here]
    exact Nat.zero_add _
  refine ⟨block_codeAt body hblock hsmall (fun _ hloop => nomatch hloop), ?_, ?_, ?_,
    size_lines_bodyUnit around line name params body⟩
  · rw [← hhere]
    exact emitConstant_at hnone hsmall
  · rw [← hhere, ← (emitConstant_grows .loadConst .none _).here]
    exact emit_at hlast
  · rw [← hhere]
    exact (emit_grows _ _).here.trans (by rw [(emitConstant_grows _ _ _).here])

end FrozenScript
