import FrozenScript.Proofs.Code.Functions
import FrozenScript.Proofs.Machine.Step

/-!
# The lines of instructions

A unit knows the line of each of its instructions, and an error is reported on the line of the
instruction that raises it. `blockSites` lists what the statements of a body evaluate themselves,
apart from the statements inside them, and the main statement, `line_table_names_statements`, says
on which lines that is: on the line of the statement, unless it is the condition of an `elif`. That
condition is on the line where the block in front of it ends, since the generator goes on with the
line it is on. `elif_condition_on_other_line` is a program whose condition is on the line of another
statement.

`blockLines` is the whole line table of a body. The generator makes it (`generateBlock_lists`), and
what is listed in `blockSites` is found in it.
-/

namespace FrozenScript

open Draft

/-! ## Line tables -/

mutual
/-- The line that the generator is on behind a statement. -/
def Stmt.lastLine : Stmt → Nat
  | .branch place _ body alternative => alternative.lastLine (blockLastLine body place.line)
  | .loop place _ body => blockLastLine body place.line
  | .expr place _ | .assign place _ _ | .define place _ _ _ | .giveBack place _
  | .importModule place _ | .assert place _ _ | .pass place | .breakLoop place
  | .continueLoop place => place.line

/-- The line that the generator is on behind a block, if it comes to the block on another one. -/
def blockLastLine : List Stmt → (before : Nat) → Nat
  | [], before => before
  | stmt :: rest, _ => blockLastLine rest stmt.lastLine

/-- The line that the generator is on behind the alternative of a branch. -/
def Alternative.lastLine : Alternative → (before : Nat) → Nat
  | .nothing, before => before
  | .elif _ body rest, before => rest.lastLine (blockLastLine body before)
  | .otherwise body, before => blockLastLine body before
end

mutual
/-- The lines of the instructions of a statement. -/
def Stmt.lines (keepAsserts inLoop : Bool) : Stmt → List Nat
  | .branch place condition body alternative =>
    List.replicate (condition.codeSize + 1) place.line ++
      (blockLines keepAsserts inLoop body ++
        alternative.lines keepAsserts inLoop (blockLastLine body place.line))
  | .loop place condition body =>
    List.replicate (condition.codeSize + 1) place.line ++
      (blockLines keepAsserts true body ++ [blockLastLine body place.line])
  | stmt => List.replicate (stmt.codeSize keepAsserts inLoop) stmt.place.line

/-- The lines of the instructions of a block. -/
def blockLines (keepAsserts inLoop : Bool) : List Stmt → List Nat
  | [] => []
  | stmt :: rest => stmt.lines keepAsserts inLoop ++ blockLines keepAsserts inLoop rest

/-- The lines of the instructions that follow the first block of a branch. -/
def Alternative.lines (keepAsserts inLoop : Bool) : Alternative → (before : Nat) → List Nat
  | .nothing, _ => []
  | .elif condition body rest, before =>
    List.replicate (1 + condition.codeSize + 1) before ++
      (blockLines keepAsserts inLoop body ++
        rest.lines keepAsserts inLoop (blockLastLine body before))
  | .otherwise body, before => [before] ++ blockLines keepAsserts inLoop body
end

/-- Generation adds instructions on the given lines and comes to the last line. -/
structure Draft.Lists (before : Draft) (lines : List Nat) (last : Nat) (after : Draft) : Prop where
  lines : after.lines.toList = before.lines.toList ++ lines.map UInt32.ofNat
  line : after.line = UInt32.ofNat last

namespace Draft

variable {first second third draft : Draft} {lines more : List Nat} {line last : Nat}

theorem Lists.refl (h : draft.line = UInt32.ofNat line) : draft.Lists [] line draft :=
  ⟨(List.append_nil _).symm, h⟩

theorem Lists.trans (h : first.Lists lines line second) (h' : second.Lists more last third) :
    first.Lists (lines ++ more) last third := by
  refine ⟨?_, h'.line⟩
  rw [h'.lines, h.lines, List.map_append, List.append_assoc]

/-- More instructions on the same line. -/
theorem Lists.stay {m n : Nat} (h : first.Lists (List.replicate m line) line second)
    (h' : second.Lists (List.replicate n line) line third) :
    first.Lists (List.replicate (m + n) line) line third := by
  have hboth := h.trans h'
  rwa [List.replicate_append_replicate] at hboth

theorem atLine_lists (line : Nat) (draft : Draft) :
    draft.Lists (List.replicate 0 line) line (draft.atLine line) :=
  ⟨(List.append_nil _).symm, rfl⟩

theorem emit_lists (instr : Instr) (h : draft.line = UInt32.ofNat line) :
    draft.Lists (List.replicate 1 line) line (draft.emit instr) := by
  refine ⟨?_, h⟩
  rw [emit, Array.toList_push, h]
  rfl

theorem emitJump_lists (instr : UInt32 → Instr) (target : Nat)
    (h : draft.line = UInt32.ofNat line) :
    draft.Lists (List.replicate 1 line) line (draft.emitJump instr target) :=
  emit_lists _ h

theorem emitConstant_lists (instr : UInt32 → Instr) (value : Constant)
    (h : draft.line = UInt32.ofNat line) :
    draft.Lists (List.replicate 1 line) line (draft.emitConstant instr value) := by
  have hconstant : draft.Lists (List.replicate 0 line) line (draft.constant value).2 := by
    unfold Draft.constant
    dsimp only
    split <;> exact ⟨(List.append_nil _).symm, h⟩
  rw [← Nat.zero_add 1]
  exact hconstant.stay (emit_lists _ hconstant.line)

theorem emitName_lists (instr : UInt32 → Instr) (name : String)
    (h : draft.line = UInt32.ofNat line) :
    draft.Lists (List.replicate 1 line) line (draft.emitName instr name) := by
  have hname : draft.Lists (List.replicate 0 line) line (draft.name name).2 := by
    unfold Draft.name
    split <;> exact ⟨(List.append_nil _).symm, h⟩
  rw [← Nat.zero_add 1]
  exact hname.stay (emit_lists _ hname.line)

end Draft

mutual
/-- All instructions of an expression are on the line that the generator is on. -/
theorem Expr.generate_lists (expr : Expr) {draft : Draft} {line : Nat}
    (h : draft.line = UInt32.ofNat line) :
    draft.Lists (List.replicate expr.codeSize line) line (expr.generate draft) := by
  cases expr with
  | literal _ value => exact emitConstant_lists _ _ h
  | name _ name => exact emitName_lists _ _ h
  | binary _ op left right =>
      have hleft := left.generate_lists h
      have hright := right.generate_lists hleft.line
      exact (hleft.stay hright).stay (emit_lists _ hright.line)
  | unary _ op operand =>
      have hoperand := operand.generate_lists h
      exact hoperand.stay (emit_lists _ hoperand.line)
  | compare _ op left right =>
      have hleft := left.generate_lists h
      have hright := right.generate_lists hleft.line
      exact (hleft.stay hright).stay (emit_lists _ hright.line)
  | logical _ op left right =>
      have hleft := left.generate_lists h
      have hskip := hleft.stay (emitJump_lists op.skip
        ((left.generate draft).here + 1 + right.codeSize) hleft.line)
      have hright := hskip.stay (right.generate_lists hskip.line)
      rw [Nat.add_right_comm] at hright
      exact hright
  | call _ callee args =>
      have hcallee := callee.generate_lists h
      have hargs := generateArguments_lists args hcallee.line
      exact (hcallee.stay hargs).stay (emit_lists _ hargs.line)
  | member _ object name =>
      have hobject := object.generate_lists h
      exact hobject.stay (emitName_lists _ _ hobject.line)

theorem generateArguments_lists (args : List Expr) {draft : Draft} {line : Nat}
    (h : draft.line = UInt32.ofNat line) :
    draft.Lists (List.replicate (argumentsSize args) line) line (generateArguments args draft) := by
  cases args with
  | nil => exact .refl h
  | cons arg rest =>
      have harg := arg.generate_lists h
      exact harg.stay (generateArguments_lists rest harg.line)
end

theorem generateOptional_lists (expr : Option Expr) {draft : Draft} {line : Nat}
    (h : draft.line = UInt32.ofNat line) :
    draft.Lists (List.replicate (optionalSize expr) line) line (generateOptional expr draft) := by
  cases expr with
  | none => exact .refl h
  | some expr => exact expr.generate_lists h

theorem Draft.Lists.cast {first second : Draft} {lines more : List Nat} {last : Nat}
    (h : first.Lists lines last second) (heq : lines = more) : first.Lists more last second :=
  heq ▸ h

mutual
/-- The instructions of a statement are on the lines that are listed for it. -/
theorem Stmt.generate_lists (around : Surroundings) (stmt : Stmt) (draft : Draft) :
    draft.Lists (stmt.lines around.keepAsserts around.loop.isSome) stmt.lastLine
      (stmt.generate around draft) := by
  have hstart := atLine_lists stmt.place.line draft
  cases stmt with
  | expr place value =>
      have hvalue := hstart.stay (value.generate_lists hstart.line)
      exact (hvalue.stay (emit_lists .pop hvalue.line)).cast (by rw [Nat.zero_add]; rfl)
  | assign place target value =>
      cases target with
      | name _ name =>
          have hvalue := hstart.stay (value.generate_lists hstart.line)
          exact (hvalue.stay (emitName_lists .storeName name hvalue.line)).cast
            (by rw [Nat.zero_add]; rfl)
      | _ => exact hstart
  | branch place condition body alternative =>
      have hcondition := hstart.stay (condition.generate_lists hstart.line)
      rw [Nat.zero_add] at hcondition
      have htest (target : Nat) :=
        hcondition.stay (emitJump_lists .popJumpIfFalse target hcondition.line)
      have hbody (target : Nat) := generateBlock_lists around body (htest target).line
      exact (htest _).trans ((hbody _).trans (alternative.generate_lists around (hbody _).line))
  | loop place condition body =>
      have hcondition := hstart.stay (condition.generate_lists hstart.line)
      rw [Nat.zero_add] at hcondition
      have htest (target : Nat) :=
        hcondition.stay (emitJump_lists .popJumpIfFalse target hcondition.line)
      have hbody (target : Nat) (bounds : LoopBounds) :=
        generateBlock_lists { around with loop := some bounds } body (htest target).line
      exact (htest _).trans ((hbody _ _).trans (emitJump_lists .jump _ (hbody _ _).line))
  | define place name params body =>
      have hfunction (unit : CodeUnit) := hstart.stay
        (emitConstant_lists .makeFunction (.code unit) hstart.line)
      exact (hfunction _).stay (emitName_lists .storeName name (hfunction _).line)
  | giveBack place value =>
      cases value with
      | none =>
          have hnone := hstart.stay (emitConstant_lists .loadConst .none hstart.line)
          exact hnone.stay (emit_lists .giveBack hnone.line)
      | some value =>
          have hvalue := hstart.stay (value.generate_lists hstart.line)
          exact (hvalue.stay (emit_lists .giveBack hvalue.line)).cast (by rw [Nat.zero_add]; rfl)
  | importModule place name =>
      have himport := hstart.stay (emitName_lists .importName name hstart.line)
      exact himport.stay (emitName_lists .storeName name himport.line)
  | assert place test message =>
      unfold Stmt.generate Stmt.lines Stmt.codeSize
      by_cases hkeep : around.keepAsserts = true
      · rw [if_pos hkeep, if_pos hkeep]
        have htest := hstart.stay (test.generate_lists hstart.line)
        rw [Nat.zero_add] at htest
        have hjump (target : Nat) :=
          htest.stay (emitJump_lists .popJumpIfTrue target htest.line)
        have hmessage (target : Nat) :=
          (hjump target).stay (generateOptional_lists message (hjump target).line)
        exact (hmessage _).stay (emit_lists (.raiseAssert message.isSome) (hmessage _).line)
      · rw [if_neg hkeep, if_neg hkeep]
        exact hstart
  | pass place => exact hstart
  | breakLoop place => exact hstart.stay (emitJump_lists .jump _ hstart.line)
  | continueLoop place =>
      unfold Stmt.generate Stmt.lines Stmt.codeSize
      cases around.loop with
      | none => exact hstart
      | some loop => exact hstart.stay (emitJump_lists .jump _ hstart.line)

theorem generateBlock_lists (around : Surroundings) (block : List Stmt) {draft : Draft}
    {before : Nat} (h : draft.line = UInt32.ofNat before) :
    draft.Lists (blockLines around.keepAsserts around.loop.isSome block)
      (blockLastLine block before) (generateBlock around block draft) := by
  cases block with
  | nil => exact .refl h
  | cons stmt rest =>
      have hstmt := stmt.generate_lists around draft
      exact hstmt.trans (generateBlock_lists around rest hstmt.line)

theorem Alternative.generate_lists (around : Surroundings) (alternative : Alternative)
    {draft : Draft} {before : Nat} (h : draft.line = UInt32.ofNat before) :
    draft.Lists (alternative.lines around.keepAsserts around.loop.isSome before)
      (alternative.lastLine before) (alternative.generate around draft) := by
  cases alternative with
  | nothing => exact .refl h
  | elif condition body rest =>
      have hskip (exit : Nat) := emitJump_lists .jump exit h
      have hcondition (exit : Nat) :=
        (hskip exit).stay (condition.generate_lists (hskip exit).line)
      have htest (exit target : Nat) :=
        (hcondition exit).stay (emitJump_lists .popJumpIfFalse target (hcondition exit).line)
      have hbody (exit target : Nat) :=
        generateBlock_lists around body (htest exit target).line
      exact (htest _ _).trans ((hbody _ _).trans (rest.generate_lists around (hbody _ _).line))
  | otherwise body =>
      have hskip (exit : Nat) := emitJump_lists .jump exit h
      exact (hskip _).trans (generateBlock_lists around body (hskip _).line)
end

/-! ## What statements evaluate themselves -/

/-- What a statement evaluates itself, and where its code stands. -/
structure Site where
  /-- The line of the statement. -/
  owner : Nat
  /-- The index of the first instruction. -/
  start : Nat
  /-- The number of instructions. -/
  size : Nat
  /-- The expression that is evaluated first, if there is one. -/
  expr : Option Expr
  /-- For the condition of an `elif` the line where the block in front of it ends. -/
  carried : Option Nat := none

namespace Site

/-- The index behind the last instruction. -/
def stop (site : Site) : Nat :=
  site.start + site.size

/-- The line that the instructions are on. -/
def line (site : Site) : Nat :=
  site.carried.getD site.owner

end Site

/-- An expression, and the instruction that takes its value from the stack. -/
def Expr.site (expr : Expr) (owner start : Nat) : Site :=
  { owner, start, size := expr.codeSize + 1, expr := some expr }

mutual
/-- What a statement and the statements inside it evaluate themselves. -/
def Stmt.sites (keepAsserts inLoop : Bool) : Stmt → (start : Nat) → List Site
  | .expr place value, start | .assign place (.name _ _) value, start
  | .giveBack place (some value), start => [value.site place.line start]
  | .branch place condition body alternative, start =>
    let behind := start + condition.codeSize + 1
    condition.site place.line start :: (blockSites keepAsserts inLoop body behind ++
      alternative.sites keepAsserts inLoop place.line (blockLastLine body place.line)
        (behind + blockSize keepAsserts inLoop body))
  | .loop place condition body, start =>
    condition.site place.line start ::
      blockSites keepAsserts true body (start + condition.codeSize + 1)
  | .define place _ _ _, start | .giveBack place none, start | .importModule place _, start =>
    [{ owner := place.line, start, size := 2, expr := none }]
  | .assert place test message, start =>
    let behind := start + test.codeSize + 1
    if keepAsserts then
      [test.site place.line start,
        { owner := place.line, start := behind, size := optionalSize message + 1, expr := message }]
    else []
  | .assign .., _ | .pass _, _ | .breakLoop _, _ | .continueLoop _, _ => []

/-- What the statements of a block and the statements inside them evaluate themselves. -/
def blockSites (keepAsserts inLoop : Bool) : List Stmt → (start : Nat) → List Site
  | [], _ => []
  | stmt :: rest, start =>
    stmt.sites keepAsserts inLoop start ++
      blockSites keepAsserts inLoop rest (start + stmt.codeSize keepAsserts inLoop)

/-- What the alternative of a branch on the line `owner` evaluates itself. -/
def Alternative.sites (keepAsserts inLoop : Bool) (owner : Nat) :
    Alternative → (before start : Nat) → List Site
  | .nothing, _, _ => []
  | .elif condition body rest, before, start =>
    let behind := start + 1 + condition.codeSize + 1
    { condition.site owner (start + 1) with carried := some before } ::
      (blockSites keepAsserts inLoop body behind ++
        rest.sites keepAsserts inLoop owner (blockLastLine body before)
          (behind + blockSize keepAsserts inLoop body))
  | .otherwise body, _, start => blockSites keepAsserts inLoop body (start + 1)
end

/-! ### Their lines -/

mutual
theorem Stmt.length_lines (keepAsserts inLoop : Bool) (stmt : Stmt) :
    (stmt.lines keepAsserts inLoop).length = stmt.codeSize keepAsserts inLoop := by
  cases stmt with
  | branch place condition body alternative =>
      simp only [Stmt.lines, Stmt.codeSize, List.length_append, List.length_replicate,
        length_blockLines keepAsserts inLoop body,
        alternative.length_lines keepAsserts inLoop]
      omega
  | loop place condition body =>
      simp only [Stmt.lines, Stmt.codeSize, List.length_append, List.length_replicate,
        length_blockLines keepAsserts true body, List.length_singleton]
      omega
  | _ => exact List.length_replicate

theorem length_blockLines (keepAsserts inLoop : Bool) (block : List Stmt) :
    (blockLines keepAsserts inLoop block).length = blockSize keepAsserts inLoop block := by
  cases block with
  | nil => rfl
  | cons stmt rest =>
      rw [blockLines, List.length_append, stmt.length_lines, length_blockLines, blockSize]

theorem Alternative.length_lines (keepAsserts inLoop : Bool) (alternative : Alternative)
    (before : Nat) : (alternative.lines keepAsserts inLoop before).length =
      jumpSize alternative.isPresent + alternative.codeSize keepAsserts inLoop := by
  cases alternative with
  | nothing => rfl
  | elif condition body rest =>
      have hpresent : jumpSize (Alternative.elif condition body rest).isPresent = 1 := rfl
      simp only [Alternative.lines, Alternative.codeSize, hpresent, List.length_append,
        List.length_replicate, length_blockLines keepAsserts inLoop body,
        rest.length_lines keepAsserts inLoop]
      omega
  | otherwise body =>
      have hpresent : jumpSize (Alternative.otherwise body).isPresent = 1 := rfl
      simp only [Alternative.lines, Alternative.codeSize, hpresent, List.length_append,
        List.length_singleton, length_blockLines keepAsserts inLoop body]
end

/-- A site is on its line in a line table. -/
def Site.OnLine (site : Site) (lines : List Nat) : Prop :=
  ∀ index, site.start ≤ index → index < site.stop → lines[index]? = some site.line

/-- A site whose line stands in the table as often as it has instructions. -/
theorem onLine_of_replicate {site : Site} {before after : List Nat} {count : Nat}
    (hstart : before.length ≤ site.start) (hstop : site.stop ≤ before.length + count) :
    site.OnLine (before ++ (List.replicate count site.line ++ after)) := by
  intro index hfrom hto
  rw [List.getElem?_append_right (by omega), List.getElem?_append_left (by simp; omega)]
  exact List.getElem?_replicate_of_lt (by omega)

/-- The code of an expression in front of other instructions on the same line. -/
theorem onLine_of_expr {expr : Expr} {owner start count : Nat} {before after : List Nat}
    (hstart : before.length = start) (hcount : expr.codeSize + 1 ≤ count) :
    (expr.site owner start).OnLine (before ++ (List.replicate count owner ++ after)) := by
  refine onLine_of_replicate (Nat.le_of_eq hstart) ?_
  show start + (expr.codeSize + 1) ≤ before.length + count
  omega

mutual
/-- What a statement evaluates itself is on its line in the table of the statement, with whatever
stands in front of it and behind it. -/
theorem Stmt.onLine_of_mem_sites {keepAsserts inLoop : Bool} (stmt : Stmt) {before after : List Nat}
    {start : Nat} (hstart : before.length = start) {site : Site}
    (hsite : site ∈ stmt.sites keepAsserts inLoop start) :
    site.OnLine (before ++ (stmt.lines keepAsserts inLoop ++ after)) := by
  cases stmt with
  | expr place value =>
      obtain rfl := List.mem_singleton.mp hsite
      exact onLine_of_expr hstart (Nat.le_refl _)
  | assign place target value =>
      cases target with
      | name _ name =>
          obtain rfl := List.mem_singleton.mp hsite
          exact onLine_of_expr hstart (Nat.le_refl _)
      | _ => exact nomatch hsite
  | branch place condition body alternative =>
      simp only [Stmt.lines, List.append_assoc]
      rcases List.mem_cons.mp hsite with rfl | hsite
      · exact onLine_of_expr hstart (Nat.le_refl _)
      rw [← List.append_assoc]
      rcases List.mem_append.mp hsite with hbody | halternative
      · refine onLine_of_mem_blockSites body ?_ hbody
        simp [hstart, Nat.add_assoc]
      · rw [← List.append_assoc]
        refine alternative.onLine_of_mem_sites ?_ halternative
        simp [hstart, length_blockLines, Nat.add_assoc]
  | loop place condition body =>
      simp only [Stmt.lines, List.append_assoc]
      rcases List.mem_cons.mp hsite with rfl | hbody
      · exact onLine_of_expr hstart (Nat.le_refl _)
      · rw [← List.append_assoc]
        refine onLine_of_mem_blockSites body ?_ hbody
        simp [hstart, Nat.add_assoc]
  | define place name params body =>
      obtain rfl := List.mem_singleton.mp hsite
      exact onLine_of_replicate (Nat.le_of_eq hstart) (by simp [Site.stop, Stmt.codeSize, hstart])
  | giveBack place value =>
      cases value with
      | none =>
          obtain rfl := List.mem_singleton.mp hsite
          exact onLine_of_replicate (Nat.le_of_eq hstart)
            (by simp [Site.stop, Stmt.codeSize, hstart])
      | some value =>
          obtain rfl := List.mem_singleton.mp hsite
          exact onLine_of_expr hstart (Nat.le_refl _)
  | importModule place name =>
      obtain rfl := List.mem_singleton.mp hsite
      exact onLine_of_replicate (Nat.le_of_eq hstart) (by simp [Site.stop, Stmt.codeSize, hstart])
  | assert place test message =>
      by_cases hkeep : keepAsserts = true
      · simp only [Stmt.sites, Stmt.lines, Stmt.codeSize, if_pos hkeep] at hsite ⊢
        rcases List.mem_cons.mp hsite with rfl | hsite
        · exact onLine_of_expr hstart (by omega)
        · obtain rfl := List.mem_singleton.mp hsite
          exact onLine_of_replicate (by simp; omega) (by simp [Site.stop]; omega)
      · simp only [Stmt.sites, if_neg hkeep] at hsite
        exact nomatch hsite
  | pass | breakLoop | continueLoop => exact nomatch hsite

theorem onLine_of_mem_blockSites {keepAsserts inLoop : Bool} (block : List Stmt)
    {before after : List Nat} {start : Nat} (hstart : before.length = start) {site : Site}
    (hsite : site ∈ blockSites keepAsserts inLoop block start) :
    site.OnLine (before ++ (blockLines keepAsserts inLoop block ++ after)) := by
  cases block with
  | nil => exact nomatch hsite
  | cons stmt rest =>
      rw [blockLines, List.append_assoc]
      rcases List.mem_append.mp hsite with hstmt | hrest
      · exact stmt.onLine_of_mem_sites hstart hstmt
      · rw [← List.append_assoc]
        refine onLine_of_mem_blockSites rest ?_ hrest
        rw [List.length_append, hstart, stmt.length_lines]

theorem Alternative.onLine_of_mem_sites {keepAsserts inLoop : Bool} (alternative : Alternative)
    {owner line : Nat} {before after : List Nat} {start : Nat} (hstart : before.length = start)
    {site : Site} (hsite : site ∈ alternative.sites keepAsserts inLoop owner line start) :
    site.OnLine (before ++ (alternative.lines keepAsserts inLoop line ++ after)) := by
  cases alternative with
  | nothing => exact nomatch hsite
  | elif condition body rest =>
      simp only [Alternative.lines, List.append_assoc]
      rcases List.mem_cons.mp hsite with rfl | hsite
      · exact onLine_of_replicate (by simp [Expr.site]; omega)
          (by simp [Site.stop, Expr.site]; omega)
      rw [← List.append_assoc]
      rcases List.mem_append.mp hsite with hbody | hrest
      · refine onLine_of_mem_blockSites body ?_ hbody
        simp [hstart, Nat.add_assoc]
      · rw [← List.append_assoc]
        refine rest.onLine_of_mem_sites ?_ hrest
        simp [hstart, length_blockLines, Nat.add_assoc]
  | otherwise body =>
      rw [Alternative.lines, List.append_assoc, ← List.append_assoc]
      refine onLine_of_mem_blockSites body ?_ hsite
      simp [hstart]
end

/-! ### Their code -/

section

variable {unit : CodeUnit} {site : Site}

mutual
/-- The expression of a site stands at its start. -/
theorem Stmt.codeAt_of_mem_sites {around : Surroundings} {start : Nat} (stmt : Stmt)
    (h : stmt.CodeAt unit around start)
    (hsite : site ∈ stmt.sites around.keepAsserts around.loop.isSome start) :
    OptionalCodeAt unit site.expr site.start := by
  cases stmt with
  | expr place value =>
      obtain rfl := List.mem_singleton.mp hsite
      exact h.1
  | assign place target value =>
      cases target with
      | name _ name =>
          obtain rfl := List.mem_singleton.mp hsite
          exact h.1
      | _ => exact nomatch hsite
  | branch place condition body alternative =>
      obtain ⟨hcondition, -, hbody, halternative⟩ := h
      rcases List.mem_cons.mp hsite with rfl | hsite
      · exact hcondition
      rcases List.mem_append.mp hsite with hsite | hsite
      · exact codeAt_of_mem_blockSites body hbody hsite
      · exact alternative.codeAt_of_mem_sites halternative hsite
  | loop place condition body =>
      obtain ⟨hcondition, -, hbody, -⟩ := h
      rcases List.mem_cons.mp hsite with rfl | hsite
      · exact hcondition
      · exact codeAt_of_mem_blockSites body hbody hsite
  | define | importModule =>
      obtain rfl := List.mem_singleton.mp hsite
      trivial
  | giveBack place value =>
      cases value with
      | none =>
          obtain rfl := List.mem_singleton.mp hsite
          trivial
      | some value =>
          obtain rfl := List.mem_singleton.mp hsite
          exact h.1
  | assert place test message =>
      by_cases hkeep : around.keepAsserts = true
      · obtain ⟨htest, -, hmessage, -⟩ := h hkeep
        simp only [Stmt.sites, if_pos hkeep] at hsite
        rcases List.mem_cons.mp hsite with rfl | hsite
        · exact htest
        · obtain rfl := List.mem_singleton.mp hsite
          exact hmessage
      · simp only [Stmt.sites, if_neg hkeep] at hsite
        exact nomatch hsite
  | pass | breakLoop | continueLoop => exact nomatch hsite

theorem codeAt_of_mem_blockSites {around : Surroundings} {start : Nat} (block : List Stmt)
    (h : BlockCodeAt unit around block start)
    (hsite : site ∈ blockSites around.keepAsserts around.loop.isSome block start) :
    OptionalCodeAt unit site.expr site.start := by
  cases block with
  | nil => exact nomatch hsite
  | cons stmt rest =>
      rcases List.mem_append.mp hsite with hsite | hsite
      · exact stmt.codeAt_of_mem_sites h.1 hsite
      · exact codeAt_of_mem_blockSites rest h.2 hsite

theorem Alternative.codeAt_of_mem_sites {around : Surroundings} {start : Nat} {owner line : Nat}
    (alternative : Alternative) (h : alternative.CodeAt unit around start)
    (hsite : site ∈
      alternative.sites around.keepAsserts around.loop.isSome owner line start) :
    OptionalCodeAt unit site.expr site.start := by
  cases alternative with
  | nothing => exact nomatch hsite
  | elif condition body rest =>
      obtain ⟨-, hcondition, -, hbody, hrest⟩ := h
      rcases List.mem_cons.mp hsite with rfl | hsite
      · exact hcondition
      rcases List.mem_append.mp hsite with hsite | hsite
      · exact codeAt_of_mem_blockSites body hbody hsite
      · exact rest.codeAt_of_mem_sites hrest hsite
  | otherwise body => exact codeAt_of_mem_blockSites body h.2 hsite
end

end

/-! ## Units and errors -/

/-- The line table of a body. The instructions behind its statements are on the line where they
end. -/
theorem lines_bodyUnit (around : Surroundings) (line : Nat) (name : String) (params : List String)
    (body : Block) :
    (bodyUnit around line name params body).lines.toList =
      (blockLines around.keepAsserts false body ++
        List.replicate 2 (blockLastLine body line)).map UInt32.ofNat := by
  have hstart : ({ line := UInt32.ofNat line } : Draft).line = UInt32.ofNat line := rfl
  have hblock := generateBlock_lists { around with loop := none } body hstart
  have hnone := hblock.trans (emitConstant_lists .loadConst .none hblock.line)
  have hend := hnone.trans (emit_lists .giveBack hnone.line)
  rw [List.append_assoc] at hend
  exact hend.lines

/-- An error that a step fails with is on the line of its instruction. -/
theorem error_of_failed {machine : Machine} {interpreter : Interpreter} {error : RuntimeError}
    (h : machine.next = .failed interpreter error)
    (hpc : machine.frame.pc < machine.frame.unit.code.size) :
    error.file = machine.frame.unit.file ∧
      error.line = machine.frame.unit.lineAt machine.frame.pc := by
  have hinstr := Array.getElem?_eq_getElem hpc
  rw [next_of_instr hinstr] at h
  split at h
  next =>
    obtain ⟨-, rfl⟩ := Outcome.failed.inj h
    exact ⟨rfl, rfl⟩
  next => exact nomatch h
  next => exact nomatch h
  next =>
    unfold Machine.leave at h
    dsimp only at h
    split at h <;> exact nomatch h

/-- The line table of a unit names the statements: what a statement evaluates itself is on its
line, and so is an error that it raises there. The condition of an `elif` is on the line where the
block in front of it ends. -/
theorem line_table_names_statements {file : String} {optimize : UInt8} {program : Block}
    {unit : CodeUnit} {body : Block} (hbody : (unit, body) ∈ programBodies file optimize program)
    {site : Site} (hsite : site ∈ blockSites (optimize == 0) false body 0) :
    (∀ index, site.start ≤ index → index < site.stop →
      unit.lines[index]? = some (UInt32.ofNat site.line)) ∧
    (unit.Small → OptionalCodeAt unit site.expr site.start) ∧
    ∀ (machine : Machine) (interpreter : Interpreter) (error : RuntimeError),
      machine.frame.unit = unit → site.start ≤ machine.frame.pc → machine.frame.pc < site.stop →
      machine.next = .failed interpreter error →
      error.file = file ∧ error.line = UInt32.ofNat site.line := by
  obtain ⟨line, name, params, rfl⟩ := exists_of_mem_programBodies hbody
  have hlines : ∀ index, site.start ≤ index → index < site.stop →
      (bodyUnit { file, keepAsserts := optimize == 0 } line name params body).lines[index]? =
        some (UInt32.ofNat site.line) := by
    intro index hfrom hto
    have hsites : site.OnLine ([] ++ (blockLines (optimize == 0) false body ++
        List.replicate 2 (blockLastLine body line))) := onLine_of_mem_blockSites body rfl hsite
    have hindex := hsites index hfrom hto
    rw [List.nil_append] at hindex
    rw [← Array.getElem?_toList, lines_bodyUnit, List.getElem?_map, hindex]
    rfl
  refine ⟨hlines, fun hsmall => ?_, fun machine interpreter error hunit hfrom hto hnext => ?_⟩
  · exact codeAt_of_mem_blockSites body (bodyUnit_code hsmall).block hsite
  · have hline := hlines _ hfrom hto
    obtain ⟨hlt, -⟩ := Array.getElem?_eq_some_iff.mp hline
    rw [size_lines_bodyUnit, ← hunit] at hlt
    obtain ⟨hfile, herror⟩ := error_of_failed hnext hlt
    rw [hunit] at hfile herror
    refine ⟨hfile, ?_⟩
    rw [herror, CodeUnit.lineAt, hline]
    rfl

/-- A loop with a statement behind it, on line three. -/
def loopProgram : Block :=
  [.loop ⟨⟨0, 18⟩, 1⟩ (.name ⟨6, 1⟩ "x")
      [.assign ⟨⟨13, 5⟩, 2⟩ (.name ⟨13, 1⟩ "y") (.literal ⟨17, 1⟩ (.int 1))],
    .assert ⟨⟨19, 8⟩, 3⟩ (.name ⟨26, 1⟩ "y") none]

/-- The machine at the test behind the loop. The variable in it has no value. -/
def loopMachine : Machine where
  interpreter := {}
  frame :=
    { unit := generate "<frozen m>" 0 loopProgram, pc := 5, home := 0, activation := .body "m" 0 }

/-- The test behind the loop is on its own line, and not on the line of the body of the loop, and so
is the error that it raises. -/
theorem line_table_names_statements_loop :
    (generate "<frozen m>" 0 loopProgram).lines[5]? = some 3 ∧
    OptionalCodeAt (generate "<frozen m>" 0 loopProgram) (some (.name ⟨26, 1⟩ "y")) 5 ∧
    ∃ after error, loopMachine.next = .failed after error ∧ error.file = "<frozen m>" ∧
      error.line = 3 := by
  have hbody : (generate "<frozen m>" 0 loopProgram, loopProgram) ∈
      programBodies "<frozen m>" 0 loopProgram := List.mem_cons_self
  have hsite : Expr.site (.name ⟨26, 1⟩ "y") 3 5 ∈ blockSites true false loopProgram 0 := by
    simp [loopProgram, blockSites, Stmt.sites, Stmt.codeSize, Expr.codeSize, blockSize]
  obtain ⟨hlines, hcode, herror⟩ := line_table_names_statements hbody hsite
  have hsmall : (generate "<frozen m>" 0 loopProgram).Small :=
    ⟨by decide +kernel, by decide +kernel, by decide +kernel⟩
  have hfails : (match loopMachine.next with
      | .failed _ _ => true
      | _ => false) = true := by decide +kernel
  refine ⟨hlines 5 (Nat.le_refl _) (by decide), hcode hsmall, ?_⟩
  split at hfails
  next after error hnext =>
    exact ⟨after, error, hnext,
      herror loopMachine after error rfl (Nat.le_refl _) (by decide) hnext⟩
  next => exact absurd hfails (by decide)

/-- A branch with a second condition, on lines one to four. -/
def elifProgram : Block :=
  [.branch ⟨⟨0, 34⟩, 1⟩ (.name ⟨3, 1⟩ "x")
    [.assign ⟨⟨10, 5⟩, 2⟩ (.name ⟨10, 1⟩ "a") (.literal ⟨14, 1⟩ (.int 1))]
    (.elif (.name ⟨21, 1⟩ "y")
      [.assign ⟨⟨28, 5⟩, 4⟩ (.name ⟨28, 1⟩ "b") (.literal ⟨32, 1⟩ (.int 2))] .nothing)]

/-- The condition of an `elif` is not on the line of its statement but on the line of the last
statement of the block in front of it. -/
theorem elif_condition_on_other_line :
    ¬ ∀ file optimize program unit body, (unit, body) ∈ programBodies file optimize program →
      ∀ site ∈ blockSites (optimize == 0) false body 0,
        ∀ index, site.start ≤ index → index < site.stop →
          unit.lines[index]? = some (UInt32.ofNat site.owner) := by
  intro h
  have hsite : { Expr.site (.name ⟨21, 1⟩ "y") 1 5 with carried := some 2 } ∈
      blockSites true false elifProgram 0 := by
    simp [elifProgram, blockSites, Stmt.sites, Alternative.sites, Expr.codeSize, blockSize,
      blockLastLine, Stmt.lastLine, Stmt.codeSize]
  have hline := h "<frozen m>" 0 elifProgram _ elifProgram List.mem_cons_self _ hsite 5
    (Nat.le_refl _) (by decide)
  have hother : (generate "<frozen m>" 0 elifProgram).lines[5]? = some 2 := by decide +kernel
  exact absurd (hother.symm.trans hline) (by decide)

end FrozenScript
