import FrozenScript.Proofs.Code.Functions

/-!
# The height of the stack is static

Every instruction of a generated unit has a fixed number of values on the stack before it:
`bodyHeights` lists these numbers. `CodeUnit.FlowsAt` says what an instruction needs for that: the
constants, names and targets that it refers to are there, it pops no more values than there are,
and every instruction that may follow it stands in the unit and expects what it leaves.
`BodyCode.flows` says that all instructions of a body are so, and `blockBoundaries` that the stack
is empty between its statements.
-/

namespace FrozenScript

namespace Instr

/-- The number of values that an instruction takes from the stack. -/
def pops : Instr → Nat
  | .loadConst _ | .loadName _ | .importName _ | .jump _ | .makeFunction _ | .raiseAssert false => 0
  | .storeName _ | .loadMember _ | .unaryOp _ | .popJumpIfFalse _ | .popJumpIfTrue _
  | .jumpIfFalseOrPop _ | .jumpIfTrueOrPop _ | .pop | .giveBack | .raiseAssert true => 1
  | .binaryOp _ | .compare _ => 2
  | .call argCount => argCount.toNat + 1

/-- The instructions that may follow the one at an index, with the height of the stack before
them. -/
def edges (pc height : Nat) : Instr → List (Nat × Nat)
  | .loadConst _ | .loadName _ | .importName _ | .makeFunction _ => [(pc + 1, height + 1)]
  | .storeName _ | .binaryOp _ | .compare _ | .pop => [(pc + 1, height - 1)]
  | .loadMember _ | .unaryOp _ => [(pc + 1, height)]
  | .jump target => [(target.toNat, height)]
  | .popJumpIfFalse target | .popJumpIfTrue target =>
    [(pc + 1, height - 1), (target.toNat, height - 1)]
  | .jumpIfFalseOrPop target | .jumpIfTrueOrPop target =>
    [(pc + 1, height - 1), (target.toNat, height)]
  | .call argCount => [(pc + 1, height - argCount.toNat)]
  | .giveBack | .raiseAssert _ => []

/-- What an instruction refers to is there: a constant that is a unit or one that is none, a name,
or an instruction. -/
def RefersWithin (unit : CodeUnit) : Instr → Prop
  | .loadConst index =>
    ∃ value, unit.consts[index.toNat]? = some value ∧ ∀ inner, value ≠ .code inner
  | .makeFunction index => ∃ inner, unit.consts[index.toNat]? = some (.code inner)
  | .loadName index | .storeName index | .loadMember index | .importName index =>
    index.toNat < unit.names.size
  | .jump target | .popJumpIfFalse target | .popJumpIfTrue target | .jumpIfFalseOrPop target
  | .jumpIfTrueOrPop target => target.toNat < unit.code.size
  | .binaryOp _ | .unaryOp _ | .compare _ | .call _ | .pop | .giveBack | .raiseAssert _ => True

end Instr

/-- An instruction of a unit fits the heights of the stack: what it refers to is there, the stack
holds what it pops, and whatever may follow it is an instruction that expects what it leaves. -/
structure Instr.Flows (unit : CodeUnit) (height : Nat → Nat) (pc : Nat) (instr : Instr) :
    Prop where
  refers : instr.RefersWithin unit
  pops : instr.pops ≤ height pc
  edges : ∀ next ∈ instr.edges pc (height pc), next.1 < unit.code.size ∧ height next.1 = next.2

/-- From an index on and up to another one there are only instructions that fit the heights. -/
def CodeUnit.FlowsOn (unit : CodeUnit) (height : Nat → Nat) (start stop : Nat) : Prop :=
  ∀ pc, start ≤ pc → pc < stop → ∃ instr, unit.code[pc]? = some instr ∧ instr.Flows unit height pc

/-- From an index on the heights are those of a list. -/
def Heights (height : Nat → Nat) (start : Nat) (list : List Nat) : Prop :=
  ∀ i h, list[i]? = some h → height (start + i) = h

section

variable {unit : CodeUnit} {height : Nat → Nat} {start middle stop : Nat}

theorem FlowsOn.refl : unit.FlowsOn height start start :=
  fun _ hle hlt => absurd hlt (Nat.not_lt.mpr hle)

theorem FlowsOn.append (hfirst : unit.FlowsOn height start middle)
    (hsecond : unit.FlowsOn height middle stop) : unit.FlowsOn height start stop := by
  intro pc hstart hstop
  by_cases hmiddle : pc < middle
  · exact hfirst pc hstart hmiddle
  · exact hsecond pc (Nat.not_lt.mp hmiddle) hstop

theorem FlowsOn.single {instr : Instr} (hinstr : unit.code[start]? = some instr)
    (hflows : instr.Flows unit height start) : unit.FlowsOn height start (start + 1) := by
  intro pc hle hlt
  obtain rfl : pc = start := by omega
  exact ⟨instr, hinstr, hflows⟩

/-- An instruction that only goes on to the next one. -/
theorem Flows.straight {instr : Instr} {after : Nat} (hrefers : instr.RefersWithin unit)
    (hpops : instr.pops ≤ height start)
    (hedges : instr.edges start (height start) = [(start + 1, after)])
    (hafter : height (start + 1) = after) (hsize : start + 1 < unit.code.size) :
    instr.Flows unit height start := by
  refine ⟨hrefers, hpops, fun next hnext => ?_⟩
  rw [hedges] at hnext
  obtain rfl := List.mem_singleton.mp hnext
  exact ⟨hsize, hafter⟩

/-- An instruction that goes on to the next one or to its target. -/
theorem Flows.branch {instr : Instr} {after target there : Nat}
    (hrefers : instr.RefersWithin unit) (hpops : instr.pops ≤ height start)
    (hedges : instr.edges start (height start) = [(start + 1, after), (target, there)])
    (hafter : height (start + 1) = after) (hsize : start + 1 < unit.code.size)
    (hthere : height target = there) (htarget : target < unit.code.size) :
    instr.Flows unit height start := by
  refine ⟨hrefers, hpops, fun next hnext => ?_⟩
  rw [hedges] at hnext
  rcases List.mem_cons.mp hnext with rfl | hnext
  · exact ⟨hsize, hafter⟩
  · obtain rfl := List.mem_singleton.mp hnext
    exact ⟨htarget, hthere⟩

/-- An instruction that always goes on to its target. -/
theorem Flows.jump {target : UInt32} (htarget : target.toNat < unit.code.size)
    (hthere : height target.toNat = height start) :
    (Instr.jump target).Flows unit height start := by
  refine ⟨htarget, Nat.zero_le _, fun next hnext => ?_⟩
  obtain rfl := List.mem_singleton.mp hnext
  exact ⟨htarget, hthere⟩

theorem heights_append {first second : List Nat} :
    Heights height start (first ++ second) ↔
      Heights height start first ∧ Heights height (start + first.length) second := by
  constructor
  · intro h
    refine ⟨fun i n hi => h i n ?_, fun i n hi => ?_⟩
    · exact getElem?_of_prefix (List.prefix_append _ _) hi
    · rw [Nat.add_assoc]
      refine h _ n ?_
      rw [List.getElem?_append_right (Nat.le_add_right _ _), Nat.add_sub_cancel_left]
      exact hi
  · intro ⟨hfirst, hsecond⟩ i n hi
    by_cases hlt : i < first.length
    · rw [List.getElem?_append_left hlt] at hi
      exact hfirst i n hi
    · rw [List.getElem?_append_right (Nat.not_lt.mp hlt)] at hi
      have h := hsecond _ n hi
      rw [Nat.add_assoc, Nat.add_sub_cancel' (Nat.not_lt.mp hlt)] at h
      exact h

theorem heights_cons {n : Nat} {rest : List Nat} :
    Heights height start (n :: rest) ↔ height start = n ∧ Heights height (start + 1) rest := by
  constructor
  · intro h
    refine ⟨h 0 n rfl, fun i m hi => ?_⟩
    have hrest := h (i + 1) m hi
    rw [Nat.add_comm i, ← Nat.add_assoc] at hrest
    exact hrest
  · intro ⟨hstart, hrest⟩ i m hi
    cases i with
    | zero =>
        obtain rfl := Option.some.inj hi
        exact hstart
    | succ i =>
        rw [Nat.add_comm i, ← Nat.add_assoc]
        exact hrest i m hi

/-- A list gives heights to the indices from zero on. -/
theorem exists_heights (list : List Nat) : ∃ height, Heights height 0 list := by
  refine ⟨fun pc => list[pc]?.getD 0, fun i h hi => ?_⟩
  dsimp only
  rw [Nat.zero_add, hi]
  rfl

end

/-! ## Expressions -/

mutual
/-- The heights before the instructions of an expression. -/
def Expr.heights (base : Nat) : Expr → List Nat
  | .literal .. | .name .. => [base]
  | .binary _ _ left right | .compare _ _ left right =>
    left.heights base ++ (right.heights (base + 1) ++ [base + 2])
  | .unary _ _ operand => operand.heights base ++ [base + 1]
  | .logical _ _ left right => left.heights base ++ (base + 1) :: right.heights base
  | .call _ callee args =>
    callee.heights base ++ (argumentsHeights (base + 1) args ++ [base + 1 + args.length])
  | .member _ object _ => object.heights base ++ [base + 1]

/-- The heights before the instructions of arguments. -/
def argumentsHeights (base : Nat) : List Expr → List Nat
  | [] => []
  | arg :: rest => arg.heights base ++ argumentsHeights (base + 1) rest
end

mutual
theorem Expr.length_heights (expr : Expr) (base : Nat) :
    (expr.heights base).length = expr.codeSize := by
  cases expr with
  | literal _ value | name _ name => rfl
  | binary _ op left right | compare _ op left right | logical _ op left right =>
      simp only [Expr.heights, Expr.codeSize, List.length_append, List.length_cons, List.length_nil,
        left.length_heights, right.length_heights]
      omega
  | unary _ op operand =>
      simp only [Expr.heights, Expr.codeSize, List.length_append, List.length_cons, List.length_nil,
        operand.length_heights]
  | call _ callee args =>
      simp only [Expr.heights, Expr.codeSize, List.length_append, List.length_cons, List.length_nil,
        callee.length_heights, length_argumentsHeights args]
      omega
  | member _ object name =>
      simp only [Expr.heights, Expr.codeSize, List.length_append, List.length_cons, List.length_nil,
        object.length_heights]

theorem length_argumentsHeights (args : List Expr) (base : Nat) :
    (argumentsHeights base args).length = argumentsSize args := by
  cases args with
  | nil => rfl
  | cons arg rest =>
      rw [argumentsHeights, List.length_append, arg.length_heights, length_argumentsHeights rest,
        argumentsSize]
end

section

variable {unit : CodeUnit} {height : Nat → Nat}

/-- Before an expression the stack has the height that it is based on. -/
theorem Expr.height_start (expr : Expr) {start base : Nat}
    (h : Heights height start (expr.heights base)) :
    height start = base := by
  cases expr with
  | literal _ value | name _ name => exact (heights_cons.mp h).1
  | binary _ op left right | compare _ op left right | logical _ op left right =>
      exact left.height_start (heights_append.mp h).1
  | unary _ op operand => exact operand.height_start (heights_append.mp h).1
  | call _ callee args => exact callee.height_start (heights_append.mp h).1
  | member _ object name => exact object.height_start (heights_append.mp h).1

theorem arguments_height_start (args : List Expr) {start base : Nat}
    (h : Heights height start (argumentsHeights base args))
    (hend : height (start + argumentsSize args) = base + args.length) : height start = base := by
  cases args with
  | nil => exact hend
  | cons arg rest => exact arg.height_start (heights_append.mp h).1

mutual
/-- The instructions of an expression fit its heights, if one more value is on the stack behind
it. -/
theorem Expr.flows (expr : Expr) {start stop base : Nat} (hcode : expr.CodeAt unit start)
    (hheights : Heights height start (expr.heights base)) (hstop : start + expr.codeSize = stop)
    (hend : height stop = base + 1) (hsize : stop < unit.code.size) :
    unit.FlowsOn height start stop := by
  have hstart := expr.height_start hheights
  cases expr with
  | literal _ value =>
      obtain ⟨index, hinstr, hconst⟩ := hcode
      obtain rfl : start + 1 = stop := hstop
      have hrefers : (Instr.loadConst index).RefersWithin unit := by
        refine ⟨_, hconst, fun inner => ?_⟩
        cases value <;> exact nofun
      refine FlowsOn.single hinstr ?_
      exact Flows.straight hrefers (Nat.zero_le _) rfl (by rw [hend, hstart]) hsize
  | name _ name =>
      obtain ⟨index, hinstr, hname⟩ := hcode
      obtain rfl : start + 1 = stop := hstop
      obtain ⟨hrefers, -⟩ := Array.getElem?_eq_some_iff.mp hname
      refine FlowsOn.single hinstr ?_
      exact Flows.straight hrefers (Nat.zero_le _) rfl (by rw [hend, hstart]) hsize
  | binary _ op left right | compare _ op left right =>
      obtain ⟨hleft, hright, hop⟩ := hcode
      obtain rfl : start + left.codeSize + right.codeSize + 1 = stop := by
        rw [← hstop, Expr.codeSize]
        omega
      rw [Expr.heights, heights_append, heights_append, left.length_heights, right.length_heights,
        heights_cons] at hheights
      obtain ⟨hheightsLeft, hheightsRight, hheight, -⟩ := hheights
      have hmiddle := right.height_start hheightsRight
      refine FlowsOn.append (left.flows hleft hheightsLeft rfl hmiddle (by omega)) ?_
      refine FlowsOn.append (right.flows hright hheightsRight rfl hheight (by omega)) ?_
      refine FlowsOn.single hop ?_
      exact Flows.straight trivial (by rw [hheight]; exact Nat.le_add_left _ _) rfl
        (by rw [hend, hheight]; rfl) hsize
  | logical _ op left right =>
      obtain ⟨hleft, ⟨target, hinstr, htarget⟩, hright⟩ := hcode
      obtain rfl : start + left.codeSize + 1 + right.codeSize = stop := by
        rw [← hstop, Expr.codeSize]
        omega
      rw [Expr.heights, heights_append, left.length_heights, heights_cons] at hheights
      obtain ⟨hheightsLeft, hheight, hheightsRight⟩ := hheights
      have hbehind := right.height_start hheightsRight
      refine FlowsOn.append (left.flows hleft hheightsLeft rfl hheight (by omega)) ?_
      refine FlowsOn.append ?_ (right.flows hright hheightsRight rfl hend hsize)
      -- both ways lead to the end, with the left operand on the stack or with the right one
      have hpops : 1 ≤ height (start + left.codeSize) := by
        rw [hheight]
        exact Nat.le_add_left _ _
      have hbase : height (start + left.codeSize) - 1 = base := by
        rw [hheight]
        rfl
      have hnext := hbehind.trans hbase.symm
      have htop := hend.trans hheight.symm
      have hlt : start + left.codeSize + 1 < unit.code.size := by omega
      rw [← htarget] at htop hsize
      refine FlowsOn.single hinstr ?_
      cases op with
      | and => exact Flows.branch hsize hpops rfl hnext hlt htop hsize
      | or => exact Flows.branch hsize hpops rfl hnext hlt htop hsize
  | unary _ op operand =>
      obtain ⟨hoperand, hop⟩ := hcode
      obtain rfl : start + operand.codeSize + 1 = stop := by
        rw [← hstop, Expr.codeSize, Nat.add_assoc]
      rw [Expr.heights, heights_append, operand.length_heights, heights_cons] at hheights
      obtain ⟨hheightsOperand, hheight, -⟩ := hheights
      refine FlowsOn.append (operand.flows hoperand hheightsOperand rfl hheight (by omega)) ?_
      refine FlowsOn.single hop ?_
      exact Flows.straight trivial (by rw [hheight]; exact Nat.le_add_left _ _) rfl
        (by rw [hend, hheight]) hsize
  | call _ callee args =>
      obtain ⟨hcallee, hargs, count, hinstr, hcount⟩ := hcode
      obtain rfl : start + callee.codeSize + argumentsSize args + 1 = stop := by
        rw [← hstop, Expr.codeSize]
        omega
      rw [Expr.heights, heights_append, heights_append, callee.length_heights,
        length_argumentsHeights, heights_cons] at hheights
      obtain ⟨hheightsCallee, hheightsArgs, hheight, -⟩ := hheights
      have hmiddle := arguments_height_start args hheightsArgs hheight
      refine FlowsOn.append (callee.flows hcallee hheightsCallee rfl hmiddle (by omega)) ?_
      refine FlowsOn.append (arguments_flows args hargs hheightsArgs rfl hheight (by omega)) ?_
      have hpops : (Instr.call count).pops ≤
          height (start + callee.codeSize + argumentsSize args) := by
        rw [hheight, Instr.pops, hcount]
        omega
      refine FlowsOn.single hinstr ?_
      exact Flows.straight trivial hpops rfl (by rw [hend, hheight, hcount]; omega) hsize
  | member _ object name =>
      obtain ⟨hobject, index, hinstr, hname⟩ := hcode
      obtain rfl : start + object.codeSize + 1 = stop := by
        rw [← hstop, Expr.codeSize, Nat.add_assoc]
      rw [Expr.heights, heights_append, object.length_heights, heights_cons] at hheights
      obtain ⟨hheightsObject, hheight, -⟩ := hheights
      obtain ⟨hrefers, -⟩ := Array.getElem?_eq_some_iff.mp hname
      refine FlowsOn.append (object.flows hobject hheightsObject rfl hheight (by omega)) ?_
      refine FlowsOn.single hinstr ?_
      exact Flows.straight hrefers (by rw [hheight]; exact Nat.le_add_left _ _) rfl
        (by rw [hend, hheight]) hsize

theorem arguments_flows (args : List Expr) {start stop base : Nat}
    (hcode : ArgumentsCodeAt unit args start)
    (hheights : Heights height start (argumentsHeights base args))
    (hstop : start + argumentsSize args = stop) (hend : height stop = base + args.length)
    (hsize : stop < unit.code.size) : unit.FlowsOn height start stop := by
  cases args with
  | nil =>
      obtain rfl : start = stop := hstop
      exact FlowsOn.refl
  | cons arg rest =>
      obtain ⟨harg, hrest⟩ := hcode
      obtain rfl : start + arg.codeSize + argumentsSize rest = stop := by
        rw [← hstop, argumentsSize, Nat.add_assoc]
      rw [argumentsHeights, heights_append, arg.length_heights] at hheights
      obtain ⟨hheightsArg, hheightsRest⟩ := hheights
      have hlast : height (start + arg.codeSize + argumentsSize rest) = base + 1 + rest.length := by
        rw [hend, List.length_cons]
        omega
      have hmiddle := arguments_height_start rest hheightsRest hlast
      refine FlowsOn.append (arg.flows harg hheightsArg rfl hmiddle (by omega)) ?_
      exact arguments_flows rest hrest hheightsRest rfl hlast hsize
end

end

/-! ## Statements -/

/-- The heights before the instructions of an expression that may be absent. -/
def optionalHeights : Option Expr → List Nat
  | some expr => expr.heights 0
  | none => []

mutual
/-- The heights before the instructions of a statement. -/
def Stmt.heights (keepAsserts inLoop : Bool) : Stmt → List Nat
  | .expr _ value | .assign _ (.name ..) value | .giveBack _ (some value) =>
    value.heights 0 ++ [1]
  | .assign .. | .pass _ => []
  | .branch _ condition body alternative =>
    condition.heights 0 ++
      1 :: (blockHeights keepAsserts inLoop body ++ alternative.heights keepAsserts inLoop)
  | .loop _ condition body =>
    condition.heights 0 ++ 1 :: (blockHeights keepAsserts true body ++ [0])
  | .define .. | .importModule .. | .giveBack _ none => [0, 1]
  | .assert _ test message =>
    if keepAsserts then
      test.heights 0 ++ 1 :: (optionalHeights message ++ [if message.isSome then 1 else 0])
    else []
  | .breakLoop _ => [0]
  | .continueLoop _ => if inLoop then [0] else []

/-- The heights before the instructions of a block. -/
def blockHeights (keepAsserts inLoop : Bool) : List Stmt → List Nat
  | [] => []
  | stmt :: rest => stmt.heights keepAsserts inLoop ++ blockHeights keepAsserts inLoop rest

/-- The heights before the instructions that follow the first block of a branch. -/
def Alternative.heights (keepAsserts inLoop : Bool) : Alternative → List Nat
  | .nothing => []
  | .elif condition body rest =>
    0 :: (condition.heights 0 ++
      1 :: (blockHeights keepAsserts inLoop body ++ rest.heights keepAsserts inLoop))
  | .otherwise body => 0 :: blockHeights keepAsserts inLoop body
end

theorem length_optionalHeights (expr : Option Expr) :
    (optionalHeights expr).length = optionalSize expr := by
  cases expr with
  | none => rfl
  | some expr => exact expr.length_heights 0

mutual
theorem Stmt.length_heights (keepAsserts inLoop : Bool) (stmt : Stmt) :
    (stmt.heights keepAsserts inLoop).length = stmt.codeSize keepAsserts inLoop := by
  cases stmt with
  | expr _ value => simp [Stmt.heights, Stmt.codeSize, value.length_heights]
  | assign _ target value =>
      cases target <;> simp [Stmt.heights, Stmt.codeSize, value.length_heights]
  | branch _ condition body alternative =>
      have halternative := alternative.length_heights keepAsserts inLoop
      simp only [Stmt.heights, Stmt.codeSize, List.length_append, List.length_cons,
        condition.length_heights, length_blockHeights, halternative]
      omega
  | loop _ condition body =>
      simp only [Stmt.heights, Stmt.codeSize, List.length_append, List.length_cons,
        List.length_nil, condition.length_heights, length_blockHeights]
      omega
  | define _ name params body => rfl
  | giveBack _ value =>
      cases value with
      | none => rfl
      | some value => simp [Stmt.heights, Stmt.codeSize, value.length_heights]
  | importModule _ name => rfl
  | assert _ test message =>
      unfold Stmt.heights Stmt.codeSize
      split
      · simp only [List.length_append, List.length_cons, List.length_nil, test.length_heights,
          length_optionalHeights]
        omega
      · rfl
  | pass _ => rfl
  | breakLoop _ => rfl
  | continueLoop _ => cases inLoop <;> rfl

theorem length_blockHeights (keepAsserts inLoop : Bool) (block : List Stmt) :
    (blockHeights keepAsserts inLoop block).length = blockSize keepAsserts inLoop block := by
  cases block with
  | nil => rfl
  | cons stmt rest =>
      rw [blockHeights, blockSize, List.length_append, stmt.length_heights,
        length_blockHeights keepAsserts inLoop rest]

theorem Alternative.length_heights (keepAsserts inLoop : Bool) (alternative : Alternative) :
    (alternative.heights keepAsserts inLoop).length =
      jumpSize alternative.isPresent + alternative.codeSize keepAsserts inLoop := by
  cases alternative with
  | nothing => rfl
  | elif condition body rest =>
      have hpresent : jumpSize (Alternative.elif condition body rest).isPresent = 1 := rfl
      have hrest := rest.length_heights keepAsserts inLoop
      simp only [hpresent, Alternative.heights, Alternative.codeSize, List.length_append,
        List.length_cons, condition.length_heights, length_blockHeights, hrest]
      omega
  | otherwise body =>
      rw [Alternative.heights, Alternative.codeSize, List.length_cons, length_blockHeights,
        Nat.add_comm]
      rfl
end

/-- The jumps out of a statement find an empty stack: those to the start and to the exit of the
innermost loop, and those of a `break` outside a loop. -/
structure Surroundings.Flat (around : Surroundings) (unit : CodeUnit) (height : Nat → Nat) :
    Prop where
  zero : height 0 = 0
  start : ∀ loop, around.loop = some loop → loop.start < unit.code.size ∧ height loop.start = 0
  exit : ∀ loop, around.loop = some loop → loop.exit < unit.code.size ∧ height loop.exit = 0

section

variable {unit : CodeUnit} {height : Nat → Nat}

/-- The stack is empty before a statement if it is empty behind it. -/
theorem Stmt.height_start (stmt : Stmt) {keepAsserts inLoop : Bool} {start : Nat}
    (hheights : Heights height start (stmt.heights keepAsserts inLoop))
    (hend : height (start + stmt.codeSize keepAsserts inLoop) = 0) : height start = 0 := by
  cases stmt with
  | expr _ value => exact value.height_start (heights_append.mp hheights).1
  | assign _ target value =>
      cases target with
      | name _ name => exact value.height_start (heights_append.mp hheights).1
      | _ => exact hend
  | branch _ condition body alternative =>
      exact condition.height_start (heights_append.mp hheights).1
  | loop _ condition body => exact condition.height_start (heights_append.mp hheights).1
  | giveBack _ value =>
      cases value with
      | none => exact (heights_cons.mp hheights).1
      | some value => exact value.height_start (heights_append.mp hheights).1
  | assert _ test message =>
      cases keepAsserts with
      | false => exact hend
      | true => exact test.height_start (heights_append.mp hheights).1
  | define _ name params body => exact (heights_cons.mp hheights).1
  | importModule _ name => exact (heights_cons.mp hheights).1
  | pass _ => exact hend
  | breakLoop _ => exact (heights_cons.mp hheights).1
  | continueLoop _ =>
      cases inLoop with
      | false => exact hend
      | true => exact (heights_cons.mp hheights).1

theorem block_height_start (block : List Stmt) {keepAsserts inLoop : Bool} {start : Nat}
    (hheights : Heights height start (blockHeights keepAsserts inLoop block))
    (hend : height (start + blockSize keepAsserts inLoop block) = 0) : height start = 0 := by
  induction block generalizing start with
  | nil => exact hend
  | cons stmt rest ih =>
      rw [blockHeights, heights_append, stmt.length_heights] at hheights
      rw [blockSize, ← Nat.add_assoc] at hend
      exact stmt.height_start hheights.1 (ih hheights.2 hend)

/-- The stack is empty where an alternative begins: at the jump over it, if there is one, and
behind that. -/
theorem Alternative.height_start (alternative : Alternative) {keepAsserts inLoop : Bool}
    {start stop : Nat} (hheights : Heights height start (alternative.heights keepAsserts inLoop))
    (hstop : start + jumpSize alternative.isPresent +
      alternative.codeSize keepAsserts inLoop = stop)
    (hend : height stop = 0) :
    height start = 0 ∧ height (start + jumpSize alternative.isPresent) = 0 := by
  subst hstop
  cases alternative with
  | nothing => exact ⟨hend, hend⟩
  | elif condition body rest =>
      rw [Alternative.heights, heights_cons, heights_append] at hheights
      exact ⟨hheights.1, condition.height_start hheights.2.1⟩
  | otherwise body =>
      rw [Alternative.heights, heights_cons] at hheights
      exact ⟨hheights.1, block_height_start body hheights.2 hend⟩

theorem Heights.head {start n : Nat} {rest : List Nat} (h : Heights height start (n :: rest)) :
    height start = n :=
  (heights_cons.mp h).1

/-- An expression and the instruction that takes its value. -/
theorem Expr.flows_then (value : Expr) {start : Nat} {rest : List Nat} {instr : Instr}
    (hcode : value.CodeAt unit start)
    (hheights : Heights height start (value.heights 0 ++ 1 :: rest))
    (hinstr : unit.code[start + value.codeSize]? = some instr)
    (hflows : height (start + value.codeSize) = 1 →
      instr.Flows unit height (start + value.codeSize)) :
    unit.FlowsOn height start (start + value.codeSize + 1) := by
  rw [heights_append, value.length_heights] at hheights
  obtain ⟨hlt, -⟩ := Array.getElem?_eq_some_iff.mp hinstr
  have hvalue := value.flows hcode hheights.1 rfl hheights.2.head hlt
  exact FlowsOn.append hvalue (FlowsOn.single hinstr (hflows hheights.2.head))

/-- The instruction that stores a value takes the last one from the stack. -/
theorem storeName_flows {pc : Nat} {index : UInt32} {name : String}
    (hname : unit.names[index.toNat]? = some name) (hheight : height pc = 1)
    (hend : height (pc + 1) = 0) (hsize : pc + 1 < unit.code.size) :
    (Instr.storeName index).Flows unit height pc := by
  obtain ⟨hrefers, -⟩ := Array.getElem?_eq_some_iff.mp hname
  exact Flows.straight hrefers (Nat.le_of_eq hheight.symm) rfl (by rw [hheight]; exact hend) hsize

/-- An instruction that puts a value on the empty stack, and one behind it that takes the value. -/
theorem pair_flows {start : Nat} {first second : Instr} (hheights : Heights height start [0, 1])
    (hfirst : unit.code[start]? = some first) (hrefers : first.RefersWithin unit)
    (hpops : first.pops = 0) (hedges : first.edges start 0 = [(start + 1, 1)])
    (hsecond : unit.code[start + 1]? = some second)
    (hflows : height (start + 1) = 1 → second.Flows unit height (start + 1)) :
    unit.FlowsOn height start (start + 1 + 1) := by
  obtain ⟨hstart, hrest⟩ := heights_cons.mp hheights
  obtain ⟨hlt, -⟩ := Array.getElem?_eq_some_iff.mp hsecond
  refine FlowsOn.append (FlowsOn.single hfirst ?_) (FlowsOn.single hsecond (hflows hrest.head))
  exact Flows.straight hrefers (hpops ▸ Nat.zero_le _) (by rw [hstart]; exact hedges) hrest.head hlt

/-- An expression and the jump that its value decides on. -/
theorem Expr.flows_test (test : Expr) {start target : Nat} {rest : List Nat}
    {instr : UInt32 → Instr} (hcode : test.CodeAt unit start)
    (hheights : Heights height start (test.heights 0 ++ 1 :: rest))
    (hinstr : unit.HasOperand (start + test.codeSize) instr target)
    (hjump : instr = .popJumpIfFalse ∨ instr = .popJumpIfTrue)
    (hsize : start + test.codeSize + 1 < unit.code.size)
    (hnext : height (start + test.codeSize + 1) = 0)
    (htarget : target < unit.code.size) (hthere : height target = 0) :
    unit.FlowsOn height start (start + test.codeSize + 1) := by
  obtain ⟨operand, hinstr, rfl⟩ := hinstr
  refine test.flows_then hcode hheights hinstr fun hheight => ?_
  have hnone : height (start + test.codeSize) - 1 = 0 := by
    rw [hheight]
  rcases hjump with rfl | rfl
  · exact Flows.branch htarget (Nat.le_of_eq hheight.symm) rfl (hnext.trans hnone.symm) hsize
      (hthere.trans hnone.symm) htarget
  · exact Flows.branch htarget (Nat.le_of_eq hheight.symm) rfl (hnext.trans hnone.symm) hsize
      (hthere.trans hnone.symm) htarget

/-- The message of an assertion leaves what the instruction behind it takes. -/
theorem optional_flows (message : Option Expr) {start : Nat}
    (hcode : OptionalCodeAt unit message start)
    (hheights : Heights height start (optionalHeights message))
    (hend : height (start + optionalSize message) = if message.isSome then 1 else 0)
    (hsize : start + optionalSize message < unit.code.size) :
    height start = 0 ∧ unit.FlowsOn height start (start + optionalSize message) := by
  cases message with
  | none => exact ⟨hend, FlowsOn.refl⟩
  | some message =>
      exact ⟨message.height_start hheights, message.flows hcode hheights rfl hend hsize⟩

mutual
/-- The instructions of a statement fit its heights, if the stack is empty behind it and where it
jumps to. -/
theorem Stmt.flows (stmt : Stmt) {around : Surroundings} {start stop : Nat}
    (hcode : stmt.CodeAt unit around start)
    (hheights : Heights height start (stmt.heights around.keepAsserts around.loop.isSome))
    (hstop : start + stmt.codeSize around.keepAsserts around.loop.isSome = stop)
    (hend : height stop = 0) (hsize : stop < unit.code.size) (haround : around.Flat unit height) :
    unit.FlowsOn height start stop := by
  subst hstop
  cases stmt with
  | expr _ value =>
      obtain ⟨hvalue, hpop⟩ := hcode
      refine value.flows_then hvalue hheights hpop fun hheight => ?_
      exact Flows.straight trivial (Nat.le_of_eq hheight.symm) rfl (by rw [hheight]; exact hend)
        hsize
  | assign _ target value =>
      cases target with
      | name _ name =>
          obtain ⟨hvalue, index, hstore, hname⟩ := hcode
          exact value.flows_then hvalue hheights hstore fun hheight =>
            storeName_flows hname hheight hend hsize
      | _ => exact FlowsOn.refl
  | branch _ condition body alternative =>
      obtain ⟨hcondition, hjump, hbody, halternative⟩ := hcode
      simp only [Stmt.codeSize, ← Nat.add_assoc] at hend hsize ⊢
      simp only [Stmt.heights] at hheights
      have hrest := (heights_append.mp hheights).2
      rw [condition.length_heights, heights_cons, heights_append, length_blockHeights] at hrest
      obtain ⟨-, hheightsBody, hheightsAlternative⟩ := hrest
      -- The stack is known to be empty at the end only: from there back, it is so where the
      -- alternative and the first block begin, which are where the condition leads to.
      obtain ⟨hjumpOver, hbehind⟩ := alternative.height_start hheightsAlternative rfl hend
      have hbodyStart := block_height_start body hheightsBody hjumpOver
      refine FlowsOn.append (condition.flows_test hcondition hheights hjump (.inl rfl) (by omega)
        hbodyStart (by omega) hbehind) ?_
      refine FlowsOn.append
        (block_flows body hbody hheightsBody rfl hjumpOver (by omega) haround) ?_
      exact alternative.flows halternative hheightsAlternative rfl hend hsize haround
  | loop _ condition body =>
      obtain ⟨hcondition, hjump, hbody, target, hback, htarget⟩ := hcode
      simp only [Stmt.codeSize, ← Nat.add_assoc] at hend hsize ⊢
      simp only [Stmt.heights] at hheights
      have hrest := (heights_append.mp hheights).2
      rw [condition.length_heights, heights_cons, heights_append, length_blockHeights] at hrest
      obtain ⟨-, hheightsBody, hheightsBack⟩ := hrest
      have hstart := condition.height_start (heights_append.mp hheights).1
      have hbodyStart := block_height_start body hheightsBody hheightsBack.head
      -- Inside the body, the innermost loop is this one: it starts at the condition, where the
      -- stack is empty, and its exit is the end of the statement.
      have hinner : Surroundings.Flat { around with loop := some ⟨start,
          start + condition.codeSize + 1 + blockSize around.keepAsserts true body + 1⟩ }
          unit height := by
        refine ⟨haround.zero, fun loop hloop => ?_, fun loop hloop => ?_⟩
        · obtain rfl := Option.some.inj hloop
          exact ⟨by dsimp only; omega, hstart⟩
        · obtain rfl := Option.some.inj hloop
          exact ⟨hsize, hend⟩
      have hflows := block_flows body hbody hheightsBody rfl hheightsBack.head
        (by dsimp only [Option.isSome]; omega) hinner
      refine FlowsOn.append (condition.flows_test hcondition hheights hjump (.inl rfl) (by omega)
        hbodyStart hsize hend) ?_
      have hthere := (htarget.symm ▸ hstart).trans hheightsBack.head.symm
      exact FlowsOn.append hflows (FlowsOn.single hback (Flows.jump (by omega) hthere))
  | define _ name params body =>
      obtain ⟨⟨index, hmake, hconst⟩, place, hstore, hname⟩ := hcode
      exact pair_flows hheights hmake ⟨_, hconst⟩ rfl rfl hstore fun hheight =>
        storeName_flows hname hheight hend hsize
  | giveBack _ value =>
      cases value with
      | none =>
          obtain ⟨⟨index, hload, hconst⟩, hgiveBack⟩ := hcode
          refine pair_flows hheights hload ⟨_, hconst, fun _ => nofun⟩ rfl rfl hgiveBack ?_
          exact fun hheight => ⟨trivial, Nat.le_of_eq hheight.symm, nofun⟩
      | some value =>
          obtain ⟨hvalue, hgiveBack⟩ := hcode
          refine value.flows_then hvalue hheights hgiveBack fun hheight => ?_
          exact ⟨trivial, Nat.le_of_eq hheight.symm, nofun⟩
  | importModule _ name =>
      obtain ⟨⟨index, himport, hname⟩, place, hstore, hsame⟩ := hcode
      obtain ⟨hrefers, -⟩ := Array.getElem?_eq_some_iff.mp hname
      exact pair_flows hheights himport hrefers rfl rfl hstore fun hheight =>
        storeName_flows hsame hheight hend hsize
  | assert _ test message =>
      unfold Stmt.codeSize at hend hsize ⊢
      unfold Stmt.heights at hheights
      split at hheights
      next hkeep =>
        obtain ⟨htest, hjump, hmessage, hraise⟩ := hcode hkeep
        rw [if_pos hkeep] at hend hsize ⊢
        simp only [← Nat.add_assoc] at hend hsize ⊢
        have hrest := (heights_append.mp hheights).2
        rw [test.length_heights, heights_cons, heights_append, length_optionalHeights] at hrest
        obtain ⟨-, hheightsMessage, hheightsRaise⟩ := hrest
        obtain ⟨hbehind, hflows⟩ := optional_flows message hmessage hheightsMessage
          hheightsRaise.head (by omega)
        refine FlowsOn.append (test.flows_test htest hheights hjump (.inr rfl) (by omega) hbehind
          hsize hend) ?_
        refine FlowsOn.append hflows (FlowsOn.single hraise ?_)
        cases message with
        | none => exact ⟨trivial, Nat.zero_le _, nofun⟩
        | some message => exact ⟨trivial, Nat.le_of_eq hheightsRaise.head.symm, nofun⟩
      next hkeep =>
        rw [if_neg hkeep]
        exact FlowsOn.refl
  | pass _ => exact FlowsOn.refl
  | breakLoop _ =>
      have hstart : height start = 0 := hheights.head
      unfold Stmt.CodeAt at hcode
      split at hcode
      next loop hloop =>
        obtain ⟨target, hjump, htarget⟩ := hcode
        obtain ⟨hlt, hthere⟩ := haround.exit loop hloop
        exact FlowsOn.single hjump (Flows.jump (by omega) (by rw [htarget, hthere, hstart]))
      next hloop =>
        obtain ⟨target, hjump, htarget⟩ := hcode
        exact FlowsOn.single hjump (Flows.jump (by omega) (by rw [htarget, haround.zero, hstart]))
  | continueLoop _ =>
      unfold Stmt.CodeAt at hcode
      split at hcode
      next loop hloop =>
        obtain ⟨target, hjump, htarget⟩ := hcode
        have hloops : around.loop.isSome = true := by rw [hloop]; rfl
        rw [hloops] at hheights ⊢
        obtain ⟨hlt, hthere⟩ := haround.start loop hloop
        exact FlowsOn.single hjump (Flows.jump (by omega) (by rw [htarget, hthere, hheights.head]))
      next hloop =>
        rw [hloop]
        exact FlowsOn.refl

theorem block_flows (block : List Stmt) {around : Surroundings} {start stop : Nat}
    (hcode : BlockCodeAt unit around block start)
    (hheights : Heights height start (blockHeights around.keepAsserts around.loop.isSome block))
    (hstop : start + blockSize around.keepAsserts around.loop.isSome block = stop)
    (hend : height stop = 0) (hsize : stop < unit.code.size) (haround : around.Flat unit height) :
    unit.FlowsOn height start stop := by
  cases block with
  | nil =>
      obtain rfl : start = stop := hstop
      exact FlowsOn.refl
  | cons stmt rest =>
      obtain ⟨hstmt, hrest⟩ := hcode
      subst hstop
      rw [blockHeights, heights_append, stmt.length_heights] at hheights
      rw [blockSize, ← Nat.add_assoc] at hend hsize ⊢
      have hmiddle := block_height_start rest hheights.2 hend
      refine FlowsOn.append (stmt.flows hstmt hheights.1 rfl hmiddle (by omega) haround) ?_
      exact block_flows rest hrest hheights.2 rfl hend hsize haround

theorem Alternative.flows (alternative : Alternative) {around : Surroundings} {start stop : Nat}
    (hcode : alternative.CodeAt unit around start)
    (hheights : Heights height start
      (alternative.heights around.keepAsserts around.loop.isSome))
    (hstop : start + jumpSize alternative.isPresent +
      alternative.codeSize around.keepAsserts around.loop.isSome = stop)
    (hend : height stop = 0) (hsize : stop < unit.code.size) (haround : around.Flat unit height) :
    unit.FlowsOn height start stop := by
  cases alternative with
  | nothing =>
      obtain rfl : start = stop := hstop
      exact FlowsOn.refl
  | elif condition body rest =>
      obtain ⟨⟨target, hskip, htarget⟩, hcondition, hjump, hbody, hrest⟩ := hcode
      have hpresent : jumpSize (Alternative.elif condition body rest).isPresent = 1 := rfl
      rw [hpresent] at hstop
      rw [hstop] at htarget
      obtain ⟨hstart, hheights⟩ := heights_cons.mp hheights
      have hbehind := (heights_append.mp hheights).2
      rw [condition.length_heights, heights_cons, heights_append, length_blockHeights] at hbehind
      obtain ⟨-, hheightsBody, hheightsRest⟩ := hbehind
      have hlast : start + 1 + condition.codeSize + 1 +
          blockSize around.keepAsserts around.loop.isSome body + jumpSize rest.isPresent +
          rest.codeSize around.keepAsserts around.loop.isSome = stop := by
        rw [← hstop, Alternative.codeSize]
        omega
      obtain ⟨hjumpOver, hthere⟩ := rest.height_start hheightsRest hlast hend
      have hbodyStart := block_height_start body hheightsBody hjumpOver
      refine FlowsOn.append (FlowsOn.single hskip
        (Flows.jump (by omega) (by rw [htarget, hend, hstart]))) ?_
      refine FlowsOn.append (condition.flows_test hcondition hheights hjump (.inl rfl) (by omega)
        hbodyStart (by omega) hthere) ?_
      refine FlowsOn.append
        (block_flows body hbody hheightsBody rfl hjumpOver (by omega) haround) ?_
      exact rest.flows hrest hheightsRest hlast hend hsize haround
  | otherwise body =>
      obtain ⟨⟨target, hskip, htarget⟩, hbody⟩ := hcode
      have hlast : start + 1 + blockSize around.keepAsserts around.loop.isSome body = stop := hstop
      rw [hlast] at htarget
      obtain ⟨hstart, hheights⟩ := heights_cons.mp hheights
      refine FlowsOn.append (FlowsOn.single hskip
        (Flows.jump (by omega) (by rw [htarget, hend, hstart]))) ?_
      exact block_flows body hbody hheights hlast hend hsize haround
end

end

end FrozenScript
