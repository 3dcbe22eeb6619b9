import FrozenScript.Proofs.Syntax.Parse

/-!
# How deep syntax trees are

A parser that has opened a level of nesting closes it again when the operator or the block is
complete. An operand that others follow is complete before they are read, so its levels are open no
more when the levels of the chain above it are opened, and both are on the way from the root of the
tree into the operand. The limit `maxNesting` therefore bounds the steps on such a way that do not
go to a first operand, but not all of them (`parse_bounds_levels`): a tree may be much deeper than
the limit says (`levels_exceed_limit`).

The proof counts the levels that are left to open. `Spends` says how many of them a parser leaves,
and what is true of its result.
-/

namespace FrozenScript

open Text

mutual
/-- The most levels on a way into an expression. Each operator, call and attribute is one level, but
a step to the first operand of a chain of them counts as `first` levels. Comparisons are none. -/
def Expr.levels (first : Nat) : Expr → Nat
  | .literal .. | .name .. => 0
  | .binary _ _ left right | .logical _ _ left right =>
    max (left.levels first + first) (right.levels first + 1)
  | .unary _ _ operand => operand.levels first + 1
  | .compare _ _ left right => max (left.levels first) (right.levels first)
  | .call _ callee args => max (callee.levels first + first) (exprLevels first args + 1)
  | .member _ object _ => object.levels first + first

/-- The most levels on a way into one of some expressions. -/
def exprLevels (first : Nat) : List Expr → Nat
  | [] => 0
  | expr :: rest => max (expr.levels first) (exprLevels first rest)
end

mutual
/-- The most levels on a way into a statement. Each block is one level. -/
def Stmt.levels (first : Nat) : Stmt → Nat
  | .expr _ value => value.levels first
  | .assign _ target value => max (target.levels first) (value.levels first)
  | .branch _ condition body rest =>
    max (condition.levels first) (max (Block.levels first body + 1) (rest.levels first))
  | .loop _ condition body => max (condition.levels first) (Block.levels first body + 1)
  | .define _ _ _ body => Block.levels first body + 1
  | .giveBack _ value => value.elim 0 (Expr.levels first)
  | .assert _ test message => max (test.levels first) (message.elim 0 (Expr.levels first))
  | .importModule .. | .pass _ | .breakLoop _ | .continueLoop _ => 0

/-- The most levels on a way into one of some statements. -/
def Block.levels (first : Nat) : List Stmt → Nat
  | [] => 0
  | stmt :: rest => max (stmt.levels first) (Block.levels first rest)

/-- The most levels on a way into an alternative. -/
def Alternative.levels (first : Nat) : Alternative → Nat
  | .nothing => 0
  | .elif condition body rest =>
    max (condition.levels first) (max (Block.levels first body + 1) (rest.levels first))
  | .otherwise body => Block.levels first body + 1
end

theorem exprLevels_le {first bound : Nat} {exprs : List Expr}
    (h : ∀ expr ∈ exprs, expr.levels first ≤ bound) : exprLevels first exprs ≤ bound := by
  induction exprs with
  | nil => exact Nat.zero_le _
  | cons expr rest ih =>
      obtain ⟨hexpr, hrest⟩ := List.forall_mem_cons.mp h
      exact Nat.max_le.mpr ⟨hexpr, ih hrest⟩

theorem Block.levels_le {first bound : Nat} {block : Block}
    (h : ∀ stmt ∈ block, stmt.levels first ≤ bound) : Block.levels first block ≤ bound := by
  induction block with
  | nil => exact Nat.zero_le _
  | cons stmt rest ih =>
      obtain ⟨hstmt, hrest⟩ := List.forall_mem_cons.mp h
      exact Nat.max_le.mpr ⟨hstmt, ih hrest⟩

/-- Parentheses are no level. -/
@[simp] theorem Expr.levels_withSpan (first : Nat) (expr : Expr) (span : Span) :
    (expr.withSpan span).levels first = expr.levels first := by
  cases expr <;> rfl

namespace Parser

variable {α β : Type}

/-! ## Levels that are left to open -/

/-- A parser that may open as many levels as there is room for, and succeeds, leaves room for the
given number of levels, and its result has a property. -/
def Spends (room : Nat) (parser : Parser α) (left : Nat) (good : α → Prop) : Prop :=
  ∀ state value state', state.depth + room = maxNesting → parser state = .ok (value, state') →
    state'.depth + left = maxNesting ∧ good value

/-- A parser opens and closes no level. -/
def Steady (parser : Parser α) : Prop :=
  ∀ state value state', parser state = .ok (value, state') → state'.depth = state.depth

section

variable {room between left : Nat} {parser : Parser α} {f : α → Parser β} {good : β → Prop}

theorem Spends.bind {P : α → Prop} (hparser : Spends room parser between P)
    (hf : ∀ value, P value → Spends between (f value) left good) :
    Spends room (parser >>= f) left good := by
  intro state value state' hroom hok
  obtain ⟨middle, reached, hmiddle, hrest⟩ := bind_eq_ok hok
  obtain ⟨hbetween, hgood⟩ := hparser state middle reached hroom hmiddle
  exact hf middle hgood reached value state' hbetween hrest

theorem Spends.pure {good : α → Prop} {value : α} (h : good value) :
    Spends room (Pure.pure value) room good := by
  intro state result state' hroom hok
  obtain ⟨rfl, rfl⟩ := Prod.mk.inj (Except.ok.inj hok)
  exact ⟨hroom, h⟩

theorem Spends.unexpected {good : α → Prop} {expected : Expected} :
    Spends room (Parser.unexpected expected) left good :=
  fun _ _ _ _ hok => nomatch hok

theorem Spends.fail {good : α → Prop} {fault : ParseFault} {span : Span} :
    Spends room (Parser.fail fault span) left good :=
  fun _ _ _ _ hok => nomatch hok

theorem Spends.weaken {P good : α → Prop} (hparser : Spends room parser left P)
    (h : ∀ value, P value → good value) : Spends room parser left good := by
  intro state value state' hroom hok
  obtain ⟨hleft, hgood⟩ := hparser state value state' hroom hok
  exact ⟨hleft, h value hgood⟩

/-- There is room for no more levels than the limit says. -/
theorem Spends.of_room_le {good : α → Prop}
    (h : room ≤ maxNesting → Spends room parser left good) : Spends room parser left good :=
  fun state value state' hroom hok =>
    h (hroom ▸ Nat.le_add_left ..) state value state' hroom hok

theorem Spends.enter {f : Unit → Parser β} {nesting : Nesting}
    (h : ∀ fewer, room = fewer + 1 → room ≤ maxNesting → Spends fewer (f ()) left good) :
    Spends room (Parser.enter nesting >>= f) left good := by
  intro state value state' hroom hok
  obtain ⟨middle, reached, henter, hrest⟩ := bind_eq_ok hok
  rw [Parser.enter] at henter
  split at henter
  next hdepth =>
    obtain ⟨rfl, rfl⟩ := Prod.mk.inj (Except.ok.inj henter)
    refine h (room - 1) (by omega) (by omega) _ value state' ?_ hrest
    show state.depth + 1 + (room - 1) = maxNesting
    omega
  next => cases henter

theorem Spends.leave {f : Unit → Parser β} {levels more : Nat} (hmore : room + levels = more)
    (hlimit : more ≤ maxNesting) (h : Spends more (f ()) left good) :
    Spends room (Parser.leave levels >>= f) left good := by
  intro state value state' hroom hok
  refine h { state with depth := state.depth - levels } value state' ?_ hok
  show state.depth - levels + more = maxNesting
  omega

theorem Steady.bind (hparser : Steady parser) (hf : ∀ value, Spends room (f value) left good) :
    Spends room (parser >>= f) left good := by
  intro state value state' hroom hok
  obtain ⟨middle, reached, hmiddle, hrest⟩ := bind_eq_ok hok
  rw [← hparser state middle reached hmiddle] at hroom
  exact hf middle reached value state' hroom hrest

theorem Steady.seq (hparser : Steady parser) (hf : ∀ value, Steady (f value)) :
    Steady (parser >>= f) := by
  intro state value state' hok
  obtain ⟨middle, reached, hmiddle, hrest⟩ := bind_eq_ok hok
  exact (hf middle reached value state' hrest).trans (hparser state middle reached hmiddle)

end

/-! ## Single tokens -/

/-- What only looks at the state is steady. -/
theorem steady_look (look : ParseState → α) : Steady fun state => .ok (look state, state) := by
  intro state value state' hok
  obtain ⟨-, rfl⟩ := Prod.mk.inj (Except.ok.inj hok)
  rfl

theorem steady_pure (value : α) : Steady (Pure.pure value : Parser α) :=
  steady_look _

theorem steady_peek : Steady peek :=
  steady_look _

theorem steady_peekToken : Steady peekToken :=
  steady_look _

theorem steady_isNext (kind : Kind) : Steady (isNext kind) :=
  steady_look _

theorem steady_lastSpan : Steady lastSpan :=
  steady_look _

theorem steady_unexpected (expected : Expected) :
    Steady (Parser.unexpected expected : Parser α) :=
  fun _ _ _ hok => nomatch hok

theorem steady_fail (fault : ParseFault) (span : Span) :
    Steady (Parser.fail fault span : Parser α) :=
  fun _ _ _ hok => nomatch hok

theorem steady_placeFrom (token : Token) : Steady (placeFrom token) :=
  steady_lastSpan.seq fun _ => steady_pure _

theorem steady_skip : Steady skip := by
  intro state value state' hok
  rw [skip] at hok
  split at hok <;> obtain ⟨-, rfl⟩ := Prod.mk.inj (Except.ok.inj hok) <;> rfl

theorem steady_eat (kind : Kind) : Steady (eat kind) := by
  intro state value state' hok
  rw [eat] at hok
  split at hok
  next =>
    split at hok <;> obtain ⟨-, rfl⟩ := Prod.mk.inj (Except.ok.inj hok) <;> rfl
  next =>
    obtain ⟨-, rfl⟩ := Prod.mk.inj (Except.ok.inj hok)
    rfl

theorem steady_expect (kind : Kind) : Steady (expect kind) := by
  refine (steady_eat kind).seq fun found => ?_
  cases found with
  | true => exact steady_lastSpan
  | false => exact steady_unexpected _

theorem steady_identifier : Steady identifier := by
  intro state value state' hok
  rw [identifier] at hok
  split at hok
  next =>
    split at hok
    next =>
      obtain ⟨-, rfl⟩ := Prod.mk.inj (Except.ok.inj hok)
      rfl
    next => exact steady_unexpected _ _ _ _ hok
  next => exact steady_unexpected _ _ _ _ hok

theorem steady_parameters (rounds : Nat) : ∀ read, Steady (parameters rounds read) := by
  induction rounds with
  | zero => exact fun _ => steady_unexpected _
  | succ rounds ih =>
      intro read
      refine (steady_isNext _).seq fun found => ?_
      split
      next => exact steady_pure _
      next =>
        refine steady_identifier.seq fun found => (steady_eat _).seq fun comma => ?_
        split
        next => exact ih _
        next => exact steady_pure _

/-! ## Bounds -/

/-- With room for one more level a bound is higher, unless first operands count. -/
def Rises (first : Nat) (bound : Nat → Nat) : Prop :=
  ∀ fewer room, fewer < room → bound fewer + 1 ≤ bound room + first

/-- A chain that takes all the room puts its first operand below as many links. -/
def chained (first : Nat) (bound : Nat → Nat) (room : Nat) : Nat :=
  bound room + room * first

theorem Rises.linked {first : Nat} {bound : Nat → Nat} (h : Rises first bound) :
    Rises 0 (chained first bound) := by
  intro fewer room hfewer
  have hrises := h fewer room hfewer
  have hlinks : (fewer + 1) * first ≤ room * first := Nat.mul_le_mul_right first hfewer
  rw [Nat.succ_mul] at hlinks
  unfold chained
  omega

theorem Rises.weaken {first : Nat} {bound : Nat → Nat} (h : Rises 0 bound) : Rises first bound :=
  fun fewer room hfewer => Nat.le_trans (h fewer room hfewer) (Nat.le_add_right ..)

theorem Rises.again {first : Nat} {bound : Nat → Nat} (h : Rises 0 (chained first bound)) :
    Rises 0 (chained first (chained first bound)) :=
  Rises.linked h.weaken

/-- One more link of a chain that began where there was room for all its levels. -/
theorem Rises.link {first fewer held total left right : Nat} {bound : Nat → Nat}
    (h : Rises first bound) (htotal : fewer + (held + 1) = total)
    (hleft : left ≤ bound total + held * first) (hright : right ≤ bound fewer) :
    max (left + first) (right + 1) ≤ bound total + (held + 1) * first := by
  have hrises := h fewer total (by omega)
  rw [Nat.succ_mul]
  omega

/-- The levels of a chain that ends. -/
theorem le_chained {first held total levels : Nat} {bound : Nat → Nat} (hheld : held ≤ total)
    (h : levels ≤ bound total + held * first) : levels ≤ chained first bound total :=
  Nat.le_trans h (Nat.add_le_add_left (Nat.mul_le_mul_right first hheld) _)

/-- A bound on the levels of an expression that is read where there is room for some levels. Each
level between parentheses has five kinds of chains. -/
def exprBound (first : Nat) : Nat → Nat
  | 0 => 0
  | room + 1 => exprBound first room + 5 * (room * first) + (1 - first)

theorem rises_exprBound (first : Nat) : Rises first (exprBound first) := by
  intro fewer room hfewer
  induction room with
  | zero => exact absurd hfewer (Nat.not_lt_zero _)
  | succ room ih =>
      rw [exprBound]
      rcases Nat.lt_succ_iff_lt_or_eq.mp hfewer with hlt | rfl
      · have hrises := ih hlt
        omega
      · omega

/-- A bound on the levels of a statement that is read where there is room for some levels. The block
of a statement may be on its line, and is a level of the tree then but not of the parser. -/
def stmtBound (first room : Nat) : Nat :=
  max (exprBound first room) room + 1

theorem exprBound_lt_stmtBound (first room : Nat) : exprBound first room < stmtBound first room :=
  Nat.lt_succ_of_le (Nat.le_max_left ..)

/-- What is in the bound of expressions is in the bound of statements. -/
theorem le_stmtBound {first room levels : Nat} (h : levels ≤ exprBound first room) :
    levels ≤ stmtBound first room :=
  Nat.le_of_lt (Nat.lt_of_le_of_lt h (exprBound_lt_stmtBound first room))

theorem stmtBound_lt_succ (first room : Nat) :
    stmtBound first room < stmtBound first (room + 1) := by
  unfold stmtBound
  rw [exprBound]
  rcases Nat.eq_zero_or_pos first with rfl | hfirst
  · omega
  · cases room with
    | zero => simp [exprBound]
    | succ room =>
        have hlinks : 0 < (room + 1) * first := Nat.mul_pos (Nat.succ_pos room) hfirst
        omega

/-! ## Expressions -/

/-- A parser closes the levels that it opens, and gives expressions with bounded levels. -/
def Counts (first : Nat) (bound : Nat → Nat) (parser : Parser Expr) : Prop :=
  ∀ room, Spends room parser room fun expr => expr.levels first ≤ bound room

/-- The nodes of an operator have its left operand as the first one of a chain. -/
def Weighs (first : Nat) (operator : Kind → Option (Span → Expr → Expr → Expr)) : Prop :=
  ∀ kind node, operator kind = some node → ∀ span left right,
    (node span left right).levels first = max (left.levels first + first) (right.levels first + 1)

section

variable {first : Nat} {bound : Nat → Nat} {rounds : Nat} {expression operand : Parser Expr}
  {operator : Kind → Option (Span → Expr → Expr → Expr)}

theorem Chains.weighs (h : Chains operator) (first : Nat) : Weighs first operator := by
  intro kind node hnode span left right
  cases h kind node hnode with
  | binary | logical => rfl

theorem chain_spends (hoperator : Weighs first operator) (hbound : Rises first bound)
    (hoperand : Counts first bound operand) {total : Nat} (hlimit : total ≤ maxNesting)
    (rounds : Nat) :
    ∀ room held left, room + held = total → left.levels first ≤ bound total + held * first →
      Spends room (chain operator operand rounds held left) total
        fun expr => expr.levels first ≤ chained first bound total := by
  induction rounds with
  | zero => exact fun _ _ _ _ _ => Spends.unexpected
  | succ rounds ih =>
      intro room held left htotal hleft
      unfold chain
      refine steady_peek.bind fun found => ?_
      split
      next => exact Spends.leave htotal hlimit (Spends.pure (le_chained (by omega) hleft))
      next node hnode =>
        obtain ⟨kind, -, hkind⟩ := Option.bind_eq_some_iff.mp hnode
        refine steady_skip.bind fun _ => Spends.enter fun fewer hfewer _ => ?_
        refine (hoperand fewer).bind fun right hright => ?_
        -- The levels of the operand on the right are closed again, and one more of the chain is
        -- open.
        have hlonger : fewer + (held + 1) = total := by omega
        refine ih fewer (held + 1) _ hlonger ?_
        rw [combine, hoperator kind node hkind]
        exact hbound.link hlonger hleft hright

theorem leftChain_counts (hoperator : Weighs first operator) (hbound : Rises first bound)
    (hoperand : Counts first bound operand) (rounds : Nat) :
    Counts first (chained first bound) (leftChain rounds operator operand) := by
  intro room
  refine Spends.of_room_le fun hroom => (hoperand room).bind fun left hleft => ?_
  refine chain_spends hoperator hbound hoperand hroom rounds room 0 left rfl ?_
  rw [Nat.zero_mul]
  exact hleft

theorem signed_counts (sign : Kind) (op : UnaryOp) (hbound : Rises 0 bound)
    (hoperand : Counts first bound operand) (rounds : Nat) :
    Counts first bound (signed sign op operand rounds) := by
  induction rounds with
  | zero => exact fun _ => Spends.unexpected
  | succ rounds ih =>
      intro room
      refine (steady_eat sign).bind fun found => ?_
      split
      next =>
        refine steady_lastSpan.bind fun start => Spends.enter fun fewer hfewer hroom => ?_
        subst hfewer
        refine (ih fewer).bind fun inner hinner => Spends.leave rfl hroom (Spends.pure ?_)
        exact Nat.le_trans (Nat.succ_le_succ hinner) (hbound fewer _ (Nat.lt_succ_self fewer))
      next => exact hoperand room

theorem arguments_spends (hexpression : Counts first bound expression) (room rounds : Nat) :
    ∀ read, (∀ arg ∈ read, arg.levels first ≤ bound room) →
      Spends room (arguments expression rounds read) room
        fun args => ∀ arg ∈ args, arg.levels first ≤ bound room := by
  induction rounds with
  | zero => exact fun _ _ => Spends.unexpected
  | succ rounds ih =>
      intro read hread
      refine (steady_isNext _).bind fun found => ?_
      split
      next => exact Spends.pure fun arg harg => hread arg (List.mem_reverse.mp harg)
      next =>
        refine (hexpression room).bind fun arg harg => (steady_eat _).bind fun comma => ?_
        have hmore : ∀ other ∈ arg :: read, other.levels first ≤ bound room :=
          List.forall_mem_cons.mpr ⟨harg, hread⟩
        split
        next => exact ih _ hmore
        next => exact Spends.pure fun other hother => hmore other (List.mem_reverse.mp hother)

theorem atom_counts (hexpression : Counts first bound expression) :
    Counts first bound (atom expression) := by
  intro room
  have leaf {expr : Expr} (h : expr.levels first = 0) :
      Spends room (skip >>= fun _ => Pure.pure expr) room
        fun expr => expr.levels first ≤ bound room :=
    steady_skip.bind fun _ => Spends.pure (h ▸ Nat.zero_le _)
  refine steady_peekToken.bind fun found => ?_
  cases found with
  | none => exact Spends.unexpected
  | some token =>
  obtain ⟨kind, span, line, column⟩ := token
  cases kind with
  | integer value => exact leaf rfl
  | text value => exact leaf rfl
  | identifier name => exact leaf rfl
  | keyword word =>
      cases word with
      | trueWord | falseWord | noneWord => exact leaf rfl
      | _ => exact Spends.unexpected
  | symbol sign =>
      cases sign with
      | openParen =>
          refine steady_skip.bind fun _ => (hexpression room).bind fun inner hinner => ?_
          refine (steady_expect _).bind fun close => Spends.pure ?_
          rw [Expr.levels_withSpan]
          exact hinner
      | _ => exact Spends.unexpected
  | _ => exact Spends.unexpected

theorem trailers_spends (hbound : Rises first bound) (hexpression : Counts first bound expression)
    {total : Nat} (hlimit : total ≤ maxNesting) (rounds' : Nat) :
    ∀ room held object, room + held = total → object.levels first ≤ bound total + held * first →
      Spends room (trailers rounds expression rounds' held object) total
        fun expr => expr.levels first ≤ chained first bound total := by
  induction rounds' with
  | zero => exact fun _ _ _ _ _ => Spends.unexpected
  | succ rounds' ih =>
      intro room held object htotal hobject
      unfold trailers
      refine steady_peek.bind fun found => ?_
      split
      next =>
        refine Spends.enter fun fewer hfewer _ => steady_skip.bind fun _ => ?_
        refine (arguments_spends hexpression fewer rounds [] nofun).bind fun args hargs => ?_
        refine (steady_expect _).bind fun close => ?_
        have hlonger : fewer + (held + 1) = total := by omega
        exact ih fewer (held + 1) _ hlonger (hbound.link hlonger hobject (exprLevels_le hargs))
      next =>
        refine Spends.enter fun fewer hfewer _ => steady_skip.bind fun _ => ?_
        refine steady_identifier.bind fun found => ?_
        have hlonger : fewer + (held + 1) = total := by omega
        refine ih fewer (held + 1) _ hlonger ?_
        exact Nat.le_trans (Nat.le_max_left ..) (hbound.link hlonger hobject (Nat.zero_le _))
      next => exact Spends.leave htotal hlimit (Spends.pure (le_chained (by omega) hobject))

theorem trailed_counts (hbound : Rises first bound) (hexpression : Counts first bound expression) :
    Counts first (chained first bound) (trailed rounds expression) := by
  intro room
  refine Spends.of_room_le fun hroom => (atom_counts hexpression room).bind fun object hobject => ?_
  refine trailers_spends hbound hexpression hroom rounds room 0 object rfl ?_
  rw [Nat.zero_mul]
  exact hobject

theorem comparison_counts (hsum : Counts first bound (sum rounds expression)) :
    Counts first bound (comparison rounds expression) := by
  intro room
  refine (hsum room).bind fun left hleft => steady_peek.bind fun found => ?_
  split
  next => exact Spends.pure hleft
  next op _ =>
    refine steady_skip.bind fun _ => (hsum room).bind fun right hright => ?_
    have hpure : Spends room (Pure.pure (combine (.compare · op) left right) : Parser Expr) room
        fun expr => expr.levels first ≤ bound room :=
      Spends.pure (Nat.max_le.mpr ⟨hleft, hright⟩)
    refine steady_peekToken.bind fun token => ?_
    split
    next =>
      split
      next => exact (steady_fail _ _).bind fun _ => hpure
      next => exact hpure
    next => exact hpure

/-- Calls and attributes, products, sums, conjunctions and disjunctions are chains. -/
theorem disjunction_counts (hbound : Rises first bound)
    (hexpression : Counts first bound expression) :
    Counts first (chained first (chained first (chained first (chained first
      (chained first bound))))) (disjunction rounds expression) := by
  have htrailed : Counts first (chained first bound) (trailed rounds expression) :=
    trailed_counts hbound hexpression
  have hrises := hbound.linked
  have hfactor := signed_counts (.symbol .minus) .neg hrises htrailed rounds
  have hproduct := leftChain_counts (productOp_chains.weighs first) hrises.weaken hfactor rounds
  have hrises := hrises.again
  have hsum := leftChain_counts (sumOp_chains.weighs first) hrises.weaken hproduct rounds
  have hrises := hrises.again
  have hnegation := signed_counts (.keyword .notWord) .not hrises (comparison_counts hsum) rounds
  have hconjunction :=
    leftChain_counts (conjunctionOp_chains.weighs first) hrises.weaken hnegation rounds
  have hrises := hrises.again
  exact leftChain_counts (disjunctionOp_chains.weighs first) hrises.weaken hconjunction rounds

theorem expressionWithin_counts (levels : Nat) :
    Counts first (exprBound first) (expressionWithin rounds levels) := by
  induction levels with
  | zero => exact fun _ => Spends.unexpected
  | succ levels ih =>
      intro room
      refine Spends.enter fun fewer hfewer hroom => ?_
      subst hfewer
      refine (disjunction_counts (rises_exprBound first) ih fewer).bind fun expr hexpr => ?_
      refine Spends.leave rfl hroom (Spends.pure (Nat.le_trans hexpr ?_))
      rw [exprBound]
      unfold chained
      omega

end

/-! ## Statements -/

theorem expression_spends (first rounds room : Nat) :
    Spends room (expression rounds) room fun expr => expr.levels first ≤ exprBound first room :=
  expressionWithin_counts rounds room

theorem simple_spends (first rounds room : Nat) :
    Spends room (simple rounds) room
      fun stmt => ∀ place, (stmt place).levels first ≤ exprBound first room := by
  have hexpression := expression_spends first rounds room
  have word {node : Place → Stmt} (h : ∀ place, (node place).levels first = 0) :
      Spends room (Pure.pure node) room
        fun stmt => ∀ place, (stmt place).levels first ≤ exprBound first room :=
    Spends.pure fun place => h place ▸ Nat.zero_le _
  refine steady_peek.bind fun found => ?_
  split
  case h_1 | h_2 | h_3 => exact steady_skip.bind fun _ => word fun _ => rfl
  case h_4 =>
    refine steady_skip.bind fun _ => (steady_isNext _).bind fun found => ?_
    split
    next => exact word fun _ => rfl
    next => exact hexpression.bind fun value hvalue => Spends.pure fun _ => hvalue
  case h_5 =>
    exact steady_skip.bind fun _ => steady_identifier.bind fun found => word fun _ => rfl
  case h_6 =>
    refine steady_skip.bind fun _ => hexpression.bind fun test htest => ?_
    refine (steady_eat _).bind fun comma => ?_
    split
    next =>
      refine hexpression.bind fun message hmessage => Spends.pure fun _ => ?_
      exact Nat.max_le.mpr ⟨htest, hmessage⟩
    next => exact Spends.pure fun _ => Nat.max_le.mpr ⟨htest, Nat.zero_le _⟩
  case h_7 =>
    refine hexpression.bind fun target htarget => (steady_eat _).bind fun assigns => ?_
    split
    next =>
      refine hexpression.bind fun value hvalue => Spends.pure fun _ => ?_
      exact Nat.max_le.mpr ⟨htarget, hvalue⟩
    next => exact Spends.pure fun _ => htarget

theorem simpleLine_spends (first rounds room : Nat) (token : Token) :
    Spends room (simpleLine rounds token) room
      fun stmt => stmt.levels first ≤ exprBound first room := by
  refine (simple_spends first rounds room).bind fun stmt hstmt => ?_
  refine (steady_expect _).bind fun _ => (steady_placeFrom token).bind fun place => ?_
  exact Spends.pure (hstmt place)

section

variable {first : Nat} {statement : Parser Stmt}

/-- A parser closes the levels that it opens, and gives statements with bounded levels. -/
def CountsStmts (first : Nat) (statement : Parser Stmt) : Prop :=
  ∀ room, Spends room statement room fun stmt => stmt.levels first ≤ stmtBound first room

theorem statements_spends (hstatement : CountsStmts first statement) (room rounds : Nat) :
    ∀ read, (∀ stmt ∈ read, stmt.levels first ≤ stmtBound first room) →
      Spends room (statements statement rounds read) room
        fun body => ∀ stmt ∈ body, stmt.levels first ≤ stmtBound first room := by
  induction rounds with
  | zero => exact fun _ _ => Spends.unexpected
  | succ rounds ih =>
      intro read hread
      refine (steady_eat _).bind fun ends => ?_
      split
      next => exact Spends.pure fun stmt hstmt => hread stmt (List.mem_reverse.mp hstmt)
      next =>
        refine (hstatement room).bind fun stmt hstmt => ih _ ?_
        exact List.forall_mem_cons.mpr ⟨hstmt, hread⟩

variable {rounds : Nat}

theorem block_spends (hstatement : CountsStmts first statement) (room : Nat) :
    Spends room (block rounds statement) room
      fun body => Block.levels first body + 1 ≤ stmtBound first room := by
  refine (steady_eat _).bind fun breaks => ?_
  split
  next =>
    refine (steady_eat _).bind fun indents => ?_
    split
    next =>
      refine Spends.enter fun fewer hfewer hroom => ?_
      subst hfewer
      refine (statements_spends hstatement fewer rounds [] nofun).bind fun body hbody => ?_
      refine Spends.leave rfl hroom (Spends.pure ?_)
      exact Nat.lt_of_le_of_lt (Block.levels_le hbody) (stmtBound_lt_succ first fewer)
    next => exact Spends.unexpected
  next =>
    refine steady_peekToken.bind fun found => ?_
    cases found with
    | none => exact Spends.unexpected
    | some token =>
        refine (simpleLine_spends first rounds room token).bind fun stmt hstmt => Spends.pure ?_
        have hlevels : Block.levels first [stmt] ≤ exprBound first room :=
          Nat.max_le.mpr ⟨hstmt, Nat.zero_le _⟩
        exact Nat.lt_of_le_of_lt hlevels (exprBound_lt_stmtBound first room)

theorem guarded_spends (hstatement : CountsStmts first statement) (room : Nat) :
    Spends room (guarded rounds statement) room fun found =>
      found.1.levels first ≤ stmtBound first room ∧
        Block.levels first found.2 + 1 ≤ stmtBound first room := by
  refine (expression_spends first rounds room).bind fun condition hcondition => ?_
  refine (steady_expect _).bind fun _ => (block_spends hstatement room).bind fun body hbody => ?_
  exact Spends.pure ⟨le_stmtBound hcondition, hbody⟩

theorem alternative_spends (hstatement : CountsStmts first statement) (room rounds' : Nat) :
    Spends room (alternative rounds statement rounds') room
      fun rest => rest.levels first ≤ stmtBound first room := by
  induction rounds' with
  | zero => exact Spends.unexpected
  | succ rounds' ih =>
      refine (steady_eat _).bind fun elif => ?_
      split
      next =>
        refine (guarded_spends hstatement room).bind fun found hfound => ?_
        obtain ⟨hcondition, hbody⟩ := hfound
        refine ih.bind fun rest hrest => Spends.pure ?_
        exact Nat.max_le.mpr ⟨hcondition, Nat.max_le.mpr ⟨hbody, hrest⟩⟩
      next =>
        refine (steady_eat _).bind fun otherwise => ?_
        split
        next =>
          refine (steady_expect _).bind fun _ => ?_
          exact (block_spends hstatement room).bind fun body hbody => Spends.pure hbody
        next => exact Spends.pure (Nat.zero_le _)

theorem definition_spends (hstatement : CountsStmts first statement) (room : Nat) :
    Spends room (definition rounds statement) room
      fun stmt => ∀ place, (stmt place).levels first ≤ stmtBound first room := by
  refine steady_identifier.bind fun found => (steady_expect _).bind fun _ => ?_
  refine (steady_parameters rounds []).bind fun params => (steady_expect _).bind fun _ => ?_
  refine (steady_expect _).bind fun _ => (block_spends hstatement room).bind fun body hbody => ?_
  exact Spends.pure fun _ => hbody

end

theorem statementWithin_counts (first rounds levels : Nat) :
    CountsStmts first (statementWithin rounds levels) := by
  induction levels with
  | zero => exact fun _ => Spends.unexpected
  | succ levels ih =>
      intro room
      refine steady_peekToken.bind fun found => ?_
      cases found with
      | none => exact Spends.unexpected
      | some token =>
      dsimp only
      split
      next =>
        refine steady_skip.bind fun _ => (guarded_spends ih room).bind fun found hfound => ?_
        obtain ⟨hcondition, hbody⟩ := hfound
        refine (alternative_spends ih room rounds).bind fun rest hrest => ?_
        refine (steady_placeFrom token).bind fun place => Spends.pure ?_
        exact Nat.max_le.mpr ⟨hcondition, Nat.max_le.mpr ⟨hbody, hrest⟩⟩
      next =>
        refine steady_skip.bind fun _ => (guarded_spends ih room).bind fun found hfound => ?_
        refine (steady_placeFrom token).bind fun place => Spends.pure ?_
        exact Nat.max_le.mpr hfound
      next =>
        refine steady_skip.bind fun _ => (definition_spends ih room).bind fun stmt hstmt => ?_
        exact (steady_placeFrom token).bind fun place => Spends.pure (hstmt place)
      next => exact Spends.fail
      next =>
        exact (simpleLine_spends first rounds room token).weaken fun stmt => le_stmtBound

theorem program_spends (first room rounds rounds' : Nat) :
    ∀ read, (∀ stmt ∈ read, stmt.levels first ≤ stmtBound first room) →
      Spends room (program rounds rounds' read) room
        fun body => Block.levels first body ≤ stmtBound first room := by
  induction rounds' with
  | zero => exact fun _ _ => Spends.unexpected
  | succ rounds' ih =>
      intro read hread
      have hends : Spends room (expect .endOfFile >>= fun _ => Pure.pure read.reverse) room
          fun body => Block.levels first body ≤ stmtBound first room :=
        (steady_expect _).bind fun _ => Spends.pure <|
          Block.levels_le fun stmt hstmt => hread stmt (List.mem_reverse.mp hstmt)
      refine steady_peek.bind fun found => ?_
      split
      next => exact hends
      next => exact hends
      next =>
        refine (statementWithin_counts first rounds rounds room).bind fun stmt hstmt => ih _ ?_
        exact List.forall_mem_cons.mpr ⟨hstmt, hread⟩

end Parser

/-! ## Whole programs -/

theorem levels_le_of_parse {tokens : List Token} {program : Block}
    (h : parse tokens = .ok program) (first : Nat) :
    Block.levels first program ≤ Parser.stmtBound first maxNesting := by
  obtain ⟨_, hread⟩ := exists_of_parse h
  exact (Parser.program_spends first maxNesting _ _ [] nofun _ _ _ rfl hread).2

/-- How deep the tree of a program is. On every way into it there are at most as many levels as the
limit says, and one more for a block on the line of its statement, if the steps to first operands do
not count. All in all there are at most as many as five chains of the greatest possible length make
inside each pair of parentheses. -/
theorem parse_bounds_levels {tokens : List Token} {program : Block}
    (h : parse tokens = .ok program) :
    Block.levels 0 program ≤ maxNesting + 1 ∧
      Block.levels 1 program ≤ 5 * (maxNesting * (maxNesting - 1) / 2) + 1 := by
  have hlimit : Parser.stmtBound 0 maxNesting = maxNesting + 1 := by decide +kernel
  have hchains : Parser.stmtBound 1 maxNesting = 5 * (maxNesting * (maxNesting - 1) / 2) + 1 := by
    decide +kernel
  rw [← hlimit, ← hchains]
  exact ⟨levels_le_of_parse h 0, levels_le_of_parse h 1⟩

/-- The tokens of a line `x.a ... .a + 1 ... + 1`, with sixty attributes and sixty ones, and of the
end of the file, without their places. -/
def longSumTokens : List Token :=
  let attributes := (List.replicate 60 [Kind.symbol .dot, .identifier "a"]).flatten
  let summands := (List.replicate 60 [Kind.symbol .plus, .integer 1]).flatten
  let kinds : List Kind := .identifier "x" :: attributes ++ summands ++ [.newline, .endOfFile]
  kinds.map fun kind => ⟨kind, ⟨0, 0⟩, 0, 0⟩

theorem exists_parse_longSumTokens :
    ∃ program, parse longSumTokens = .ok program ∧ Block.levels 1 program = 120 := by
  have hlevels : (parse longSumTokens).toOption.map (Block.levels 1) = some 120 := by
    decide +kernel
  cases hparse : parse longSumTokens with
  | error fault =>
      rw [hparse] at hlevels
      exact nomatch hlevels
  | ok program =>
      rw [hparse] at hlevels
      exact ⟨program, rfl, Option.some.inj hlevels⟩

/-- The long sum is within the bounds. -/
theorem parse_bounds_levels_sum :
    ∃ program, parse longSumTokens = .ok program ∧ Block.levels 1 program = 120 ∧
      Block.levels 0 program ≤ maxNesting + 1 := by
  obtain ⟨program, hparse, hlevels⟩ := exists_parse_longSumTokens
  exact ⟨program, hparse, hlevels, (parse_bounds_levels hparse).1⟩

/-- A tree may have more levels than the limit says: the attributes of the first operand of a sum
come on top of those of the sum. -/
theorem levels_exceed_limit :
    ¬ ∀ tokens program, parse tokens = .ok program → Block.levels 1 program ≤ maxNesting := by
  intro h
  obtain ⟨program, hparse, hlevels⟩ := exists_parse_longSumTokens
  have hlimit := h longSumTokens program hparse
  rw [hlevels] at hlimit
  exact absurd hlimit (by decide)

end FrozenScript
