import FrozenScript.Syntax.Basic
import FrozenScript.Token.Basic

/-!
# The grammar of programs

The grammar relates the kinds of some tokens to the tree that they stand for. Its trees are bare:
every span and line in them is blank, and `Expr.bare` and `Block.bare` make any tree so.

Each rule adds one node, or none for parentheses and for passing to a stronger level of operators.
The rules of a chain are left recursive, so a chain groups to the left. Three rules are wider than
a reader may expect: any expression may stand to the left of `=`, one comma may follow the last
argument or parameter, and an indented block may be empty.
-/

namespace FrozenScript

open Text

namespace Grammar

/-- The span of every node of a bare tree. -/
def nowhere : Span := ⟨0, 0⟩

/-- The place of every statement of a bare tree. -/
def noPlace : Place := ⟨nowhere, 0⟩

end Grammar

open Grammar

mutual
/-- An expression without its spans. -/
def Expr.bare : Expr → Expr
  | .literal _ value => .literal nowhere value
  | .name _ name => .name nowhere name
  | .binary _ op left right => .binary nowhere op left.bare right.bare
  | .unary _ op operand => .unary nowhere op operand.bare
  | .compare _ op left right => .compare nowhere op left.bare right.bare
  | .logical _ op left right => .logical nowhere op left.bare right.bare
  | .call _ callee args => .call nowhere callee.bare (bareExprs args)
  | .member _ object name => .member nowhere object.bare name

/-- Some expressions without their spans. -/
def bareExprs : List Expr → List Expr
  | [] => []
  | expr :: rest => expr.bare :: bareExprs rest
end

/-- A parameter without its span. -/
def Param.bare (param : Param) : Param :=
  ⟨param.name, nowhere⟩

mutual
/-- A statement without its place and the spans inside it. -/
def Stmt.bare : Stmt → Stmt
  | .expr _ value => .expr noPlace value.bare
  | .assign _ target value => .assign noPlace target.bare value.bare
  | .branch _ condition body rest =>
    .branch noPlace condition.bare (Block.bare body) rest.bare
  | .loop _ condition body => .loop noPlace condition.bare (Block.bare body)
  | .define _ name params body =>
    .define noPlace name (params.map Param.bare) (Block.bare body)
  | .giveBack _ value => .giveBack noPlace (value.map Expr.bare)
  | .importModule _ name => .importModule noPlace name
  | .assert _ test message => .assert noPlace test.bare (message.map Expr.bare)
  | .pass _ => .pass noPlace
  | .breakLoop _ => .breakLoop noPlace
  | .continueLoop _ => .continueLoop noPlace

/-- Some statements without their places and the spans inside them. -/
def Block.bare : List Stmt → List Stmt
  | [] => []
  | stmt :: rest => stmt.bare :: Block.bare rest

/-- An alternative without the places and spans inside it. -/
def Alternative.bare : Alternative → Alternative
  | .nothing => .nothing
  | .elif condition body rest => .elif condition.bare (Block.bare body) rest.bare
  | .otherwise body => .otherwise (Block.bare body)
end

theorem bareExprs_eq_map (exprs : List Expr) : bareExprs exprs = exprs.map Expr.bare := by
  induction exprs with
  | nil => rfl
  | cons expr rest ih => simp [bareExprs, ih]

theorem Block.bare_eq_map (block : Block) : Block.bare block = block.map Stmt.bare := by
  induction block with
  | nil => rfl
  | cons stmt rest ih => simp [Block.bare, ih]

/-- The span of an expression is nothing but a span. -/
@[simp] theorem Expr.bare_withSpan (expr : Expr) (span : Span) :
    (expr.withSpan span).bare = expr.bare := by
  cases expr <;> rfl

namespace Grammar

/-! ## Expressions -/

/-- The levels of operators, weakest first. -/
inductive Level where
  | disjunction | conjunction | negation | comparison | sum | product | factor | trailed | atom
  deriving DecidableEq, Repr

/-- The level of the operands at a level. -/
def Level.stronger : Level → Option Level
  | .disjunction => some .conjunction
  | .conjunction => some .negation
  | .negation => some .comparison
  | .comparison => some .sum
  | .sum => some .product
  | .product => some .factor
  | .factor => some .trailed
  | .trailed => some .atom
  | .atom => none

/-- The operators that chain at a level, and the nodes they make of two operands. -/
inductive Joins : Level → Kind → (left right expr : Expr) → Prop where
  | or {left right} :
      Joins .disjunction (.keyword .orWord) left right (.logical nowhere .or left right)
  | and {left right} :
      Joins .conjunction (.keyword .andWord) left right (.logical nowhere .and left right)
  | plus {left right} : Joins .sum (.symbol .plus) left right (.binary nowhere .add left right)
  | minus {left right} : Joins .sum (.symbol .minus) left right (.binary nowhere .sub left right)
  | star {left right} : Joins .product (.symbol .star) left right (.binary nowhere .mul left right)
  | floorDivide {left right} :
      Joins .product (.symbol .floorDivide) left right (.binary nowhere .floorDiv left right)
  | percent {left right} :
      Joins .product (.symbol .percent) left right (.binary nowhere .mod left right)

/-- The comparison operators. -/
inductive Compares : Kind → CompareOp → Prop where
  | equal : Compares (.symbol .equal) .eq
  | notEqual : Compares (.symbol .notEqual) .ne
  | less : Compares (.symbol .less) .lt
  | lessEqual : Compares (.symbol .lessEqual) .le
  | greater : Compares (.symbol .greater) .gt
  | greaterEqual : Compares (.symbol .greaterEqual) .ge

/-- The operators that stand before an operand of their own level. -/
inductive Prefixes : Level → Kind → UnaryOp → Prop where
  | not : Prefixes .negation (.keyword .notWord) .not
  | minus : Prefixes .factor (.symbol .minus) .neg

/-- The expressions of one token. -/
inductive Leaf : Kind → Expr → Prop where
  | integer (value) : Leaf (.integer value) (.literal nowhere (.int value))
  | text (value) : Leaf (.text value) (.literal nowhere (.text value))
  | name (name) : Leaf (.identifier name) (.name nowhere name)
  | trueWord : Leaf (.keyword .trueWord) (.literal nowhere (.bool true))
  | falseWord : Leaf (.keyword .falseWord) (.literal nowhere (.bool false))
  | noneWord : Leaf (.keyword .noneWord) (.literal nowhere .none)

mutual
/-- `Derives level kinds expr` says that the kinds make up the expression, whose outermost operator
is of the level or a stronger one. -/
inductive Derives : Level → List Kind → Expr → Prop where
  | stronger {level next kinds expr} :
      level.stronger = some next → Derives next kinds expr → Derives level kinds expr
  | chain {level next kind before left behind right expr} :
      Derives level before left → level.stronger = some next → Derives next behind right →
      Joins level kind left right expr → Derives level (before ++ kind :: behind) expr
  | signed {level kind op kinds operand} :
      Prefixes level kind op → Derives level kinds operand →
      Derives level (kind :: kinds) (.unary nowhere op operand)
  | compare {kind op before left behind right} :
      Derives .sum before left → Compares kind op → Derives .sum behind right →
      Derives .comparison (before ++ kind :: behind) (.compare nowhere op left right)
  | call {before callee between args} :
      Derives .trailed before callee → Arguments between args →
      Derives .trailed (before ++ .symbol .openParen :: (between ++ [.symbol .closeParen]))
        (.call nowhere callee args)
  | member {before object name} :
      Derives .trailed before object →
      Derives .trailed (before ++ [.symbol .dot, .identifier name]) (.member nowhere object name)
  | leaf {kind expr} : Leaf kind expr → Derives .atom [kind] expr
  | parens {kinds expr} :
      Derives .disjunction kinds expr →
      Derives .atom (.symbol .openParen :: (kinds ++ [.symbol .closeParen])) expr

/-- `Arguments kinds args` says that the kinds make up the arguments of a call. -/
inductive Arguments : List Kind → List Expr → Prop where
  | nil : Arguments [] []
  | last {kinds arg} : Derives .disjunction kinds arg → Arguments kinds [arg]
  | cons {kinds arg rest args} :
      Derives .disjunction kinds arg → Arguments rest args →
      Arguments (kinds ++ .symbol .comma :: rest) (arg :: args)
end

/-- `Expression kinds expr` says that the kinds make up the expression. -/
abbrev Expression : List Kind → Expr → Prop :=
  Derives .disjunction

/-! ## Statements -/

/-- `Parameters kinds params` says that the kinds make up the parameters of a function. -/
inductive Parameters : List Kind → List Param → Prop where
  | nil : Parameters [] []
  | last {name} : Parameters [.identifier name] [⟨name, nowhere⟩]
  | cons {name rest params} :
      Parameters rest params →
      Parameters (.identifier name :: .symbol .comma :: rest) (⟨name, nowhere⟩ :: params)

/-- `Simple kinds stmt` says that the kinds make up the statement, which holds no block. -/
inductive Simple : List Kind → Stmt → Prop where
  | pass : Simple [.keyword .passWord] (.pass noPlace)
  | breakLoop : Simple [.keyword .breakWord] (.breakLoop noPlace)
  | continueLoop : Simple [.keyword .continueWord] (.continueLoop noPlace)
  | giveBack : Simple [.keyword .returnWord] (.giveBack noPlace none)
  | giveBackValue {kinds value} :
      Expression kinds value →
      Simple (.keyword .returnWord :: kinds) (.giveBack noPlace (some value))
  | importModule {name} :
      Simple [.keyword .importWord, .identifier name] (.importModule noPlace name)
  | assert {kinds test} :
      Expression kinds test →
      Simple (.keyword .assertWord :: kinds) (.assert noPlace test none)
  | assertMessage {kinds test behind message} :
      Expression kinds test → Expression behind message →
      Simple (.keyword .assertWord :: (kinds ++ .symbol .comma :: behind))
        (.assert noPlace test (some message))
  | assign {kinds target behind value} :
      Expression kinds target → Expression behind value →
      Simple (kinds ++ .symbol .assign :: behind) (.assign noPlace target value)
  | expr {kinds value} : Expression kinds value → Simple kinds (.expr noPlace value)

mutual
/-- `Statement kinds stmt` says that the kinds make up the statement. -/
inductive Statement : List Kind → Stmt → Prop where
  | simple {kinds stmt} : Simple kinds stmt → Statement (kinds ++ [.newline]) stmt
  | branch {kinds condition between body behind rest} :
      Expression kinds condition → Suite between body → Rest behind rest →
      Statement (.keyword .ifWord :: (kinds ++ .symbol .colon :: (between ++ behind)))
        (.branch noPlace condition body rest)
  | loop {kinds condition behind body} :
      Expression kinds condition → Suite behind body →
      Statement (.keyword .whileWord :: (kinds ++ .symbol .colon :: behind))
        (.loop noPlace condition body)
  | define {name kinds params behind body} :
      Parameters kinds params → Suite behind body →
      Statement
        (.keyword .defWord :: .identifier name :: .symbol .openParen ::
          (kinds ++ .symbol .closeParen :: .symbol .colon :: behind))
        (.define noPlace name params body)

/-- `Statements kinds body` says that the kinds make up the statements. -/
inductive Statements : List Kind → List Stmt → Prop where
  | nil : Statements [] []
  | cons {kinds stmt rest body} :
      Statement kinds stmt → Statements rest body → Statements (kinds ++ rest) (stmt :: body)

/-- `Suite kinds body` says that the kinds make up the block: one simple statement on the same
line, or an indented list of statements. -/
inductive Suite : List Kind → List Stmt → Prop where
  | line {kinds stmt} : Simple kinds stmt → Suite (kinds ++ [.newline]) [stmt]
  | indented {kinds body} :
      Statements kinds body → Suite (.newline :: .indent :: (kinds ++ [.dedent])) body

/-- `Rest kinds rest` says that the kinds make up what follows the first block of a branch. -/
inductive Rest : List Kind → Alternative → Prop where
  | nothing : Rest [] .nothing
  | elif {kinds condition between body behind rest} :
      Expression kinds condition → Suite between body → Rest behind rest →
      Rest (.keyword .elifWord :: (kinds ++ .symbol .colon :: (between ++ behind)))
        (.elif condition body rest)
  | otherwise {kinds body} :
      Suite kinds body → Rest (.keyword .elseWord :: .symbol .colon :: kinds) (.otherwise body)
end

/-- `Program kinds body` says that the kinds make up the program, with the end of the file as the
last one. -/
inductive Program : List Kind → List Stmt → Prop where
  | intro {kinds body} : Statements kinds body → Program (kinds ++ [.endOfFile]) body

/-! ## The end of the file -/

mutual
/-- No expression holds the end of the file. -/
theorem endOfFile_not_mem_of_derives {level : Level} {kinds : List Kind} {expr : Expr}
    (h : Derives level kinds expr) : .endOfFile ∉ kinds := by
  match h with
  | .stronger _ hexpr => exact endOfFile_not_mem_of_derives hexpr
  | .chain hleft _ hright hjoins =>
      have hbefore := endOfFile_not_mem_of_derives hleft
      have hbehind := endOfFile_not_mem_of_derives hright
      cases hjoins <;> simp [hbefore, hbehind]
  | .signed hsign hoperand =>
      have hkinds := endOfFile_not_mem_of_derives hoperand
      cases hsign <;> simp [hkinds]
  | .compare hleft hcompares hright =>
      have hbefore := endOfFile_not_mem_of_derives hleft
      have hbehind := endOfFile_not_mem_of_derives hright
      cases hcompares <;> simp [hbefore, hbehind]
  | .call hcallee hargs =>
      have hbefore := endOfFile_not_mem_of_derives hcallee
      have hbetween := endOfFile_not_mem_of_arguments hargs
      simp [hbefore, hbetween]
  | .member hobject =>
      have hbefore := endOfFile_not_mem_of_derives hobject
      simp [hbefore]
  | .leaf hleaf => cases hleaf <;> simp
  | .parens hinner =>
      have hkinds := endOfFile_not_mem_of_derives hinner
      simp [hkinds]

theorem endOfFile_not_mem_of_arguments {kinds : List Kind} {args : List Expr}
    (h : Arguments kinds args) : .endOfFile ∉ kinds := by
  match h with
  | .nil => simp
  | .last harg => exact endOfFile_not_mem_of_derives harg
  | .cons harg hargs =>
      have hkinds := endOfFile_not_mem_of_derives harg
      have hrest := endOfFile_not_mem_of_arguments hargs
      simp [hkinds, hrest]
end

theorem endOfFile_not_mem_of_parameters {kinds : List Kind} {params : List Param}
    (h : Parameters kinds params) : .endOfFile ∉ kinds := by
  induction h with
  | nil | last => simp
  | cons _ ih => simp [ih]

theorem endOfFile_not_mem_of_simple {kinds : List Kind} {stmt : Stmt} (h : Simple kinds stmt) :
    .endOfFile ∉ kinds := by
  cases h with
  | giveBackValue hvalue | assert hvalue => simp [endOfFile_not_mem_of_derives hvalue]
  | assertMessage hfirst hsecond | assign hfirst hsecond =>
      simp [endOfFile_not_mem_of_derives hfirst, endOfFile_not_mem_of_derives hsecond]
  | expr hvalue => exact endOfFile_not_mem_of_derives hvalue
  | _ => simp

mutual
/-- No statement holds the end of the file. -/
theorem endOfFile_not_mem_of_statement {kinds : List Kind} {stmt : Stmt}
    (h : Statement kinds stmt) : .endOfFile ∉ kinds := by
  match h with
  | .simple hsimple => simp [endOfFile_not_mem_of_simple hsimple]
  | .branch hcondition hbody hrest =>
      have hkinds := endOfFile_not_mem_of_derives hcondition
      have hbetween := endOfFile_not_mem_of_suite hbody
      have hbehind := endOfFile_not_mem_of_rest hrest
      simp [hkinds, hbetween, hbehind]
  | .loop hcondition hbody =>
      have hkinds := endOfFile_not_mem_of_derives hcondition
      have hbehind := endOfFile_not_mem_of_suite hbody
      simp [hkinds, hbehind]
  | .define hparams hbody =>
      have hkinds := endOfFile_not_mem_of_parameters hparams
      have hbehind := endOfFile_not_mem_of_suite hbody
      simp [hkinds, hbehind]

theorem endOfFile_not_mem_of_statements {kinds : List Kind} {body : List Stmt}
    (h : Statements kinds body) : .endOfFile ∉ kinds := by
  match h with
  | .nil => simp
  | .cons hstmt hbody =>
      have hkinds := endOfFile_not_mem_of_statement hstmt
      have hrest := endOfFile_not_mem_of_statements hbody
      simp [hkinds, hrest]

theorem endOfFile_not_mem_of_suite {kinds : List Kind} {body : List Stmt} (h : Suite kinds body) :
    .endOfFile ∉ kinds := by
  match h with
  | .line hsimple => simp [endOfFile_not_mem_of_simple hsimple]
  | .indented hbody => simp [endOfFile_not_mem_of_statements hbody]

theorem endOfFile_not_mem_of_rest {kinds : List Kind} {rest : Alternative} (h : Rest kinds rest) :
    .endOfFile ∉ kinds := by
  match h with
  | .nothing => simp
  | .elif hcondition hbody hrest =>
      have hkinds := endOfFile_not_mem_of_derives hcondition
      have hbetween := endOfFile_not_mem_of_suite hbody
      have hbehind := endOfFile_not_mem_of_rest hrest
      simp [hkinds, hbetween, hbehind]
  | .otherwise hbody => simp [endOfFile_not_mem_of_suite hbody]
end

end Grammar

end FrozenScript
