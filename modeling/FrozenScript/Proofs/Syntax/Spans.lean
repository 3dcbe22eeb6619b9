import FrozenScript.Compile
import FrozenScript.Proofs.Syntax.Parse
import FrozenScript.Proofs.Token.Bytes

/-!
# Places in the source

Every span that the front end computes ends within the source and between characters: the spans of
the tokens, of the nodes of a syntax tree, and of the faults that a source is refused for. Spans are
taken from tokens, and further ones are made by joining only, so this is proved for every set of
spans that is closed under joins (`Span.Closed`). `Lands` is kept by every reader. The main
statement is `compile_places_aligned`.
-/

namespace FrozenScript

open Text

/-! ## Spans of syntax trees -/

mutual
/-- The spans of an expression and of all its parts. -/
def Expr.spans : Expr → List Span
  | .literal span _ | .name span _ => [span]
  | .binary span _ left right | .compare span _ left right | .logical span _ left right =>
    span :: (left.spans ++ right.spans)
  | .unary span _ operand => span :: operand.spans
  | .call span callee args => span :: (callee.spans ++ exprSpans args)
  | .member span object _ => span :: object.spans

/-- The spans of some expressions. -/
def exprSpans : List Expr → List Span
  | [] => []
  | expr :: rest => expr.spans ++ exprSpans rest
end

mutual
/-- The spans of a statement and of all its parts. -/
def Stmt.spans : Stmt → List Span
  | .expr place value => place.span :: value.spans
  | .assign place target value => place.span :: (target.spans ++ value.spans)
  | .branch place condition body rest =>
    place.span :: (condition.spans ++ (Block.spans body ++ rest.spans))
  | .loop place condition body => place.span :: (condition.spans ++ Block.spans body)
  | .define place _ params body => place.span :: (params.map Param.span ++ Block.spans body)
  | .giveBack place value => place.span :: value.elim [] Expr.spans
  | .assert place test message => place.span :: (test.spans ++ message.elim [] Expr.spans)
  | .importModule place _ | .pass place | .breakLoop place | .continueLoop place => [place.span]

/-- The spans of some statements. -/
def Block.spans : List Stmt → List Span
  | [] => []
  | stmt :: rest => stmt.spans ++ Block.spans rest

/-- The spans of an alternative. -/
def Alternative.spans : Alternative → List Span
  | .nothing => []
  | .elif condition body rest => condition.spans ++ (Block.spans body ++ rest.spans)
  | .otherwise body => Block.spans body
end

theorem Expr.span_mem_spans (expr : Expr) : expr.span ∈ expr.spans := by
  cases expr <;> exact List.mem_cons_self

/-- Another span replaces the one of the whole expression. -/
theorem Expr.spans_withSpan (expr : Expr) (span : Span) :
    (expr.withSpan span).spans = span :: expr.spans.tail := by
  cases expr <;> rfl

section

variable {P : Span → Prop}

theorem exprSpans_all {exprs : List Expr} (h : ∀ expr ∈ exprs, ∀ span ∈ expr.spans, P span) :
    ∀ span ∈ exprSpans exprs, P span := by
  induction exprs with
  | nil => exact nofun
  | cons expr rest ih =>
      obtain ⟨hexpr, hrest⟩ := List.forall_mem_cons.mp h
      exact List.forall_mem_append.mpr ⟨hexpr, ih hrest⟩

theorem Block.spans_all {block : Block} (h : ∀ stmt ∈ block, ∀ span ∈ stmt.spans, P span) :
    ∀ span ∈ Block.spans block, P span := by
  induction block with
  | nil => exact nofun
  | cons stmt rest ih =>
      obtain ⟨hstmt, hrest⟩ := List.forall_mem_cons.mp h
      exact List.forall_mem_append.mpr ⟨hstmt, ih hrest⟩

end

/-! ## Readers -/

/-- A set of spans from which no join leads out. -/
structure Span.Closed (P : Span → Prop) : Prop where
  zero : P ⟨0, 0⟩
  join {first second : Span} (h : P first) (h' : P second) : P (first.join second)

theorem aligned_closed (source : String) : Span.Closed (Span.Aligned source) :=
  ⟨aligned_zero source, Span.Aligned.join⟩

/-- The spans of the tokens that a parser has before it, and of the one behind it, are in a set. -/
structure ParseState.Within (P : Span → Prop) (state : ParseState) : Prop where
  rest : ∀ token ∈ state.rest, P token.span
  last : ∀ token ∈ state.last, P token.span

namespace ParseState.Within

variable {P : Span → Prop} {state : ParseState}

theorem lastSpan (hclosed : Span.Closed P) (h : state.Within P) : P state.lastSpan := by
  unfold ParseState.lastSpan
  split
  next token hlast => exact h.last token hlast
  next => exact hclosed.zero

theorem nextSpan (hclosed : Span.Closed P) (h : state.Within P) : P state.nextSpan := by
  unfold ParseState.nextSpan
  split
  next token rest hrest => exact h.rest token (hrest ▸ List.mem_cons_self)
  next => exact h.lastSpan hclosed

theorem advance {token : Token} {rest : List Token} (h : state.Within P)
    (hrest : state.rest = token :: rest) : (state.advance token rest).Within P := by
  have htokens := h.rest
  rw [hrest] at htokens
  obtain ⟨htoken, htokens⟩ := List.forall_mem_cons.mp htokens
  refine ⟨htokens, ?_⟩
  rintro _ ⟨⟩
  exact htoken

end ParseState.Within

namespace Parser

variable {α β : Type} {P : Span → Prop}

/-- A result has a property and leaves a state within a set of spans, or a fault has its place in
the set. -/
inductive Landed (P : Span → Prop) (good : α → Prop) :
    Except ParseError (α × ParseState) → Prop where
  | ok {value : α} {state : ParseState} (hgood : good value) (hstate : state.Within P) :
      Landed P good (.ok (value, state))
  | error {error : ParseError} (hspan : P error.span) : Landed P good (.error error)

/-- A parser does not leave a set of spans, and its results have a property. -/
def Lands (P : Span → Prop) (parser : Parser α) (good : α → Prop) : Prop :=
  ∀ state, state.Within P → Landed P good (parser state)

section

variable {parser : Parser α} {f : α → Parser β} {good : α → Prop}

theorem Lands.bind {good : β → Prop} {between : α → Prop} (hparser : Lands P parser between)
    (hf : ∀ value, between value → Lands P (f value) good) : Lands P (parser >>= f) good := by
  intro state hstate
  have hfirst := hparser state hstate
  change Landed P good (Except.bind (parser state) _)
  generalize parser state = result at hfirst
  cases hfirst with
  | ok hbetween hreached => exact hf _ hbetween _ hreached
  | error hspan => exact .error hspan

theorem Lands.weaken {between : α → Prop} (hparser : Lands P parser between)
    (h : ∀ value, between value → good value) : Lands P parser good := by
  intro state hstate
  have hresult := hparser state hstate
  generalize parser state = result at hresult ⊢
  cases hresult with
  | ok hbetween hreached => exact .ok (h _ hbetween) hreached
  | error hspan => exact .error hspan

theorem Lands.look {look : ParseState → α} (h : ∀ state, state.Within P → good (look state)) :
    Lands P (fun state => .ok (look state, state)) good :=
  fun state hstate => .ok (h state hstate) hstate

theorem Lands.pure {value : α} (h : good value) : Lands P (Pure.pure value) good :=
  Lands.look fun _ _ => h

theorem Lands.fail {fault : ParseFault} {span : Span} (h : P span) :
    Lands P (Parser.fail fault span) good :=
  fun _ _ => .error h

theorem Lands.unexpected (hclosed : Span.Closed P) {expected : Expected} :
    Lands P (Parser.unexpected expected) good :=
  fun _ hstate => .error (hstate.nextSpan hclosed)

end

/-! ### Single tokens -/

theorem peek_lands : Lands P peek fun _ => True :=
  Lands.look fun _ _ => trivial

theorem peekToken_lands : Lands P peekToken fun found => ∀ token ∈ found, P token.span :=
  Lands.look fun _ hstate token htoken => hstate.rest token (List.mem_of_mem_head? htoken)

theorem isNext_lands (kind : Kind) : Lands P (isNext kind) fun _ => True :=
  Lands.look fun _ _ => trivial

theorem skip_lands : Lands P skip fun _ => True := by
  intro state hstate
  rw [skip]
  split
  next token rest hrest => exact .ok trivial (hstate.advance hrest)
  next => exact .ok trivial hstate

theorem eat_lands (kind : Kind) : Lands P (eat kind) fun _ => True := by
  intro state hstate
  rw [eat]
  split
  next token rest hrest =>
    split
    next => exact .ok trivial (hstate.advance hrest)
    next => exact .ok trivial hstate
  next => exact .ok trivial hstate

theorem leave_lands (levels : Nat) : Lands P (leave levels) fun _ => True :=
  fun _ hstate => .ok trivial ⟨hstate.rest, hstate.last⟩

section

variable (hclosed : Span.Closed P)

include hclosed

theorem lastSpan_lands : Lands P lastSpan P :=
  Lands.look fun _ hstate => hstate.lastSpan hclosed

theorem expect_lands (kind : Kind) : Lands P (expect kind) P := by
  refine (eat_lands kind).bind fun found _ => ?_
  cases found with
  | true => exact lastSpan_lands hclosed
  | false => exact Lands.unexpected hclosed

theorem identifier_lands : Lands P identifier fun found => P found.2 := by
  intro state hstate
  rw [identifier]
  split
  next token rest hrest =>
    have htoken := hstate.rest token (hrest ▸ List.mem_cons_self)
    split
    next => exact .ok htoken (hstate.advance hrest)
    next => exact Lands.unexpected hclosed state hstate
  next => exact Lands.unexpected hclosed state hstate

theorem enter_lands (nesting : Nesting) : Lands P (enter nesting) fun _ => True := by
  intro state hstate
  rw [enter]
  split
  next => exact .ok trivial ⟨hstate.rest, hstate.last⟩
  next => exact .error (hstate.nextSpan hclosed)

theorem placeFrom_lands {first : Token} (h : P first.span) :
    Lands P (placeFrom first) fun place => P place.span :=
  (lastSpan_lands hclosed).bind fun _ hlast => Lands.pure (hclosed.join h hlast)

end

/-! ### Expressions -/

/-- A parser does not leave a set of spans, and all spans of its expressions are in the set. -/
abbrev LandsExpr (P : Span → Prop) (parser : Parser Expr) : Prop :=
  Lands P parser fun expr => ∀ span ∈ expr.spans, P span

/-- The node of an operator has no other spans than its own and those of its operands. -/
theorem Builds.spans_eq {node : Span → Expr → Expr → Expr} (h : Builds node) (span : Span)
    (left right : Expr) : (node span left right).spans = span :: (left.spans ++ right.spans) := by
  cases h with
  | binary | logical => rfl

section

variable (hclosed : Span.Closed P) {rounds : Nat} {expression operand : Parser Expr}
  {operator : Kind → Option (Span → Expr → Expr → Expr)}

include hclosed

theorem combine_spans {node : Span → Expr → Expr → Expr} {left right : Expr}
    (hnode : ∀ span left right, (node span left right).spans = span :: (left.spans ++ right.spans))
    (hleft : ∀ span ∈ left.spans, P span) (hright : ∀ span ∈ right.spans, P span) :
    ∀ span ∈ (combine node left right).spans, P span := by
  rw [combine, hnode]
  refine List.forall_mem_cons.mpr ⟨?_, List.forall_mem_append.mpr ⟨hleft, hright⟩⟩
  exact hclosed.join (hleft _ left.span_mem_spans) (hright _ right.span_mem_spans)

theorem chain_lands (hoperator : Chains operator) (hoperand : LandsExpr P operand)
    (rounds : Nat) : ∀ held left, (∀ span ∈ left.spans, P span) →
      LandsExpr P (chain operator operand rounds held left) := by
  induction rounds with
  | zero => exact fun _ _ _ => Lands.unexpected hclosed
  | succ rounds ih =>
      intro held left hleft
      unfold chain
      refine peek_lands.bind fun found _ => ?_
      split
      next => exact (leave_lands held).bind fun _ _ => Lands.pure hleft
      next node hnode =>
        obtain ⟨kind, -, hkind⟩ := Option.bind_eq_some_iff.mp hnode
        refine skip_lands.bind fun _ _ => (enter_lands hclosed _).bind fun _ _ => ?_
        refine hoperand.bind fun right hright => ih _ _ ?_
        exact combine_spans hclosed (hoperator kind node hkind).spans_eq hleft hright

theorem leftChain_lands (hoperator : Chains operator) (hoperand : LandsExpr P operand)
    (rounds : Nat) : LandsExpr P (leftChain rounds operator operand) :=
  hoperand.bind fun left hleft => chain_lands hclosed hoperator hoperand rounds 0 left hleft

theorem signed_lands (sign : Kind) (op : UnaryOp) (hoperand : LandsExpr P operand)
    (rounds : Nat) : LandsExpr P (signed sign op operand rounds) := by
  induction rounds with
  | zero => exact Lands.unexpected hclosed
  | succ rounds ih =>
      refine (eat_lands sign).bind fun found _ => ?_
      split
      next =>
        refine (lastSpan_lands hclosed).bind fun start hstart => ?_
        refine (enter_lands hclosed _).bind fun _ _ => ih.bind fun inner hinner => ?_
        refine (leave_lands 1).bind fun _ _ => Lands.pure (List.forall_mem_cons.mpr ⟨?_, hinner⟩)
        exact hclosed.join hstart (hinner _ inner.span_mem_spans)
      next => exact hoperand

theorem arguments_lands (hexpression : LandsExpr P expression) (rounds : Nat) :
    ∀ read, (∀ arg ∈ read, ∀ span ∈ arg.spans, P span) →
      Lands P (arguments expression rounds read) fun args =>
        ∀ arg ∈ args, ∀ span ∈ arg.spans, P span := by
  induction rounds with
  | zero => exact fun _ _ => Lands.unexpected hclosed
  | succ rounds ih =>
      intro read hread
      refine (isNext_lands _).bind fun found _ => ?_
      split
      next => exact Lands.pure fun arg harg => hread arg (List.mem_reverse.mp harg)
      next =>
        refine hexpression.bind fun arg harg => (eat_lands _).bind fun comma _ => ?_
        have hmore : ∀ other ∈ arg :: read, ∀ span ∈ other.spans, P span :=
          List.forall_mem_cons.mpr ⟨harg, hread⟩
        split
        next => exact ih _ hmore
        next => exact Lands.pure fun other hother => hmore other (List.mem_reverse.mp hother)

theorem atom_lands (hexpression : LandsExpr P expression) : LandsExpr P (atom expression) := by
  refine peekToken_lands.bind fun found hfound => ?_
  cases found with
  | none => exact Lands.unexpected hclosed
  | some token =>
  obtain ⟨kind, place, line, column⟩ := token
  have hplace : P place := hfound _ rfl
  have leaf {expr : Expr} (h : expr.spans = [place]) :
      LandsExpr P (skip >>= fun _ => Pure.pure expr) :=
    skip_lands.bind fun _ _ => Lands.pure (h ▸ List.forall_mem_singleton.mpr hplace)
  cases kind with
  | integer value => exact leaf rfl
  | text value => exact leaf rfl
  | identifier name => exact leaf rfl
  | keyword word =>
      cases word with
      | trueWord | falseWord | noneWord => exact leaf rfl
      | _ => exact Lands.unexpected hclosed
  | symbol sign =>
      cases sign with
      | openParen =>
          refine skip_lands.bind fun _ _ => hexpression.bind fun inner hinner => ?_
          refine (expect_lands hclosed _).bind fun close hclose => Lands.pure ?_
          rw [Expr.spans_withSpan]
          refine List.forall_mem_cons.mpr ⟨hclosed.join hplace hclose, fun span hspan => ?_⟩
          exact hinner span (List.mem_of_mem_tail hspan)
      | _ => exact Lands.unexpected hclosed
  | _ => exact Lands.unexpected hclosed

theorem trailers_lands (hexpression : LandsExpr P expression) (rounds' : Nat) :
    ∀ held object, (∀ span ∈ object.spans, P span) →
      LandsExpr P (trailers rounds expression rounds' held object) := by
  induction rounds' with
  | zero => exact fun _ _ _ => Lands.unexpected hclosed
  | succ rounds' ih =>
      intro held object hobject
      have hspan := hobject _ object.span_mem_spans
      unfold trailers
      refine peek_lands.bind fun found _ => ?_
      split
      next =>
        refine (enter_lands hclosed _).bind fun _ _ => skip_lands.bind fun _ _ => ?_
        refine (arguments_lands hclosed hexpression rounds [] nofun).bind fun args hargs => ?_
        refine (expect_lands hclosed _).bind fun close hclose => ih _ _ ?_
        refine List.forall_mem_cons.mpr ⟨hclosed.join hspan hclose, ?_⟩
        exact List.forall_mem_append.mpr ⟨hobject, exprSpans_all hargs⟩
      next =>
        refine (enter_lands hclosed _).bind fun _ _ => skip_lands.bind fun _ _ => ?_
        refine (identifier_lands hclosed).bind fun found hfound => ih _ _ ?_
        exact List.forall_mem_cons.mpr ⟨hclosed.join hspan hfound, hobject⟩
      next => exact (leave_lands held).bind fun _ _ => Lands.pure hobject

theorem trailed_lands (hexpression : LandsExpr P expression) :
    LandsExpr P (trailed rounds expression) :=
  (atom_lands hclosed hexpression).bind fun object hobject =>
    trailers_lands hclosed hexpression rounds 0 object hobject

theorem comparison_lands (hsum : LandsExpr P (sum rounds expression)) :
    LandsExpr P (comparison rounds expression) := by
  refine hsum.bind fun left hleft => peek_lands.bind fun found _ => ?_
  split
  next => exact Lands.pure hleft
  next op _ =>
    refine skip_lands.bind fun _ _ => hsum.bind fun right hright => ?_
    have hpure : LandsExpr P (Pure.pure (combine (.compare · op) left right)) :=
      Lands.pure (combine_spans hclosed (fun _ _ _ => rfl) hleft hright)
    refine peekToken_lands.bind fun found hfound => ?_
    split
    next token =>
      split
      next =>
        have hfail : Lands P (Parser.fail .chainedComparison token.span) fun (_ : Unit) => True :=
          Lands.fail (hfound token rfl)
        exact hfail.bind fun _ _ => hpure
      next => exact hpure
    next => exact hpure

theorem disjunction_lands (hexpression : LandsExpr P expression) :
    LandsExpr P (disjunction rounds expression) := by
  have htrailed : LandsExpr P (trailed rounds expression) := trailed_lands hclosed hexpression
  have hfactor := signed_lands hclosed (.symbol .minus) .neg htrailed rounds
  have hproduct := leftChain_lands hclosed productOp_chains hfactor rounds
  have hsum := leftChain_lands hclosed sumOp_chains hproduct rounds
  have hnegation := signed_lands hclosed (.keyword .notWord) .not
    (comparison_lands hclosed hsum) rounds
  have hconjunction := leftChain_lands hclosed conjunctionOp_chains hnegation rounds
  exact leftChain_lands hclosed disjunctionOp_chains hconjunction rounds

theorem expressionWithin_lands (rounds levels : Nat) :
    LandsExpr P (expressionWithin rounds levels) := by
  induction levels with
  | zero => exact Lands.unexpected hclosed
  | succ levels ih =>
      refine (enter_lands hclosed _).bind fun _ _ => ?_
      refine (disjunction_lands hclosed ih).bind fun expr hexpr => ?_
      exact (leave_lands 1).bind fun _ _ => Lands.pure hexpr

theorem expression_lands (rounds : Nat) : LandsExpr P (Parser.expression rounds) :=
  expressionWithin_lands hclosed rounds rounds

end

/-! ### Statements -/

/-- A parser does not leave a set of spans, and all spans of its statements are in the set. -/
abbrev LandsStmt (P : Span → Prop) (parser : Parser Stmt) : Prop :=
  Lands P parser fun stmt => ∀ span ∈ stmt.spans, P span

/-- A parser does not leave a set of spans. All spans of its statements are in the set if their
place is. -/
abbrev LandsPlaced (P : Span → Prop) (parser : Parser (Place → Stmt)) : Prop :=
  Lands P parser fun stmt => ∀ place : Place, P place.span → ∀ span ∈ (stmt place).spans, P span

section

variable (hclosed : Span.Closed P) {rounds : Nat} {statement : Parser Stmt}

include hclosed

theorem simple_lands (rounds : Nat) : LandsPlaced P (simple rounds) := by
  have hexpression := expression_lands hclosed rounds
  have word {node : Place → Stmt} (h : ∀ place, (node place).spans = [place.span]) :
      LandsPlaced P (Pure.pure node) :=
    Lands.pure fun place hplace => h place ▸ List.forall_mem_singleton.mpr hplace
  refine peek_lands.bind fun found _ => ?_
  split
  case h_1 | h_2 | h_3 => exact skip_lands.bind fun _ _ => word fun _ => rfl
  case h_4 =>
    refine skip_lands.bind fun _ _ => (isNext_lands _).bind fun found _ => ?_
    split
    next => exact word fun _ => rfl
    next =>
      refine hexpression.bind fun value hvalue => Lands.pure fun place hplace => ?_
      exact List.forall_mem_cons.mpr ⟨hplace, hvalue⟩
  case h_5 =>
    refine skip_lands.bind fun _ _ => (identifier_lands hclosed).bind fun found _ => ?_
    exact word fun _ => rfl
  case h_6 =>
    refine skip_lands.bind fun _ _ => hexpression.bind fun test htest => ?_
    refine (eat_lands _).bind fun comma _ => ?_
    split
    next =>
      refine hexpression.bind fun message hmessage => Lands.pure fun place hplace => ?_
      exact List.forall_mem_cons.mpr ⟨hplace, List.forall_mem_append.mpr ⟨htest, hmessage⟩⟩
    next =>
      refine Lands.pure fun place hplace => ?_
      exact List.forall_mem_cons.mpr ⟨hplace, List.forall_mem_append.mpr ⟨htest, nofun⟩⟩
  case h_7 =>
    refine hexpression.bind fun target htarget => (eat_lands _).bind fun assigns _ => ?_
    split
    next =>
      refine hexpression.bind fun value hvalue => Lands.pure fun place hplace => ?_
      exact List.forall_mem_cons.mpr ⟨hplace, List.forall_mem_append.mpr ⟨htarget, hvalue⟩⟩
    next => exact Lands.pure fun place hplace => List.forall_mem_cons.mpr ⟨hplace, htarget⟩

theorem simpleLine_lands (rounds : Nat) {first : Token} (h : P first.span) :
    LandsStmt P (simpleLine rounds first) := by
  refine (simple_lands hclosed rounds).bind fun stmt hstmt => ?_
  refine (expect_lands hclosed _).bind fun _ _ => ?_
  exact (placeFrom_lands hclosed h).bind fun place hplace => Lands.pure (hstmt place hplace)

theorem statements_lands (hstatement : LandsStmt P statement) (rounds : Nat) :
    ∀ read, (∀ stmt ∈ read, ∀ span ∈ stmt.spans, P span) →
      Lands P (statements statement rounds read) fun body => ∀ span ∈ Block.spans body, P span := by
  induction rounds with
  | zero => exact fun _ _ => Lands.unexpected hclosed
  | succ rounds ih =>
      intro read hread
      refine (eat_lands _).bind fun ends _ => ?_
      split
      next =>
        refine Lands.pure (Block.spans_all fun stmt hstmt => ?_)
        exact hread stmt (List.mem_reverse.mp hstmt)
      next =>
        refine hstatement.bind fun stmt hstmt => ih _ ?_
        exact List.forall_mem_cons.mpr ⟨hstmt, hread⟩

theorem block_lands (hstatement : LandsStmt P statement) :
    Lands P (block rounds statement) fun body => ∀ span ∈ Block.spans body, P span := by
  refine (eat_lands _).bind fun breaks _ => ?_
  split
  next =>
    refine (eat_lands _).bind fun indents _ => ?_
    split
    next =>
      refine (enter_lands hclosed _).bind fun _ _ => ?_
      refine (statements_lands hclosed hstatement rounds [] nofun).bind fun body hbody => ?_
      exact (leave_lands 1).bind fun _ _ => Lands.pure hbody
    next => exact Lands.unexpected hclosed
  next =>
    refine peekToken_lands.bind fun found hfound => ?_
    cases found with
    | none => exact Lands.unexpected hclosed
    | some token =>
        refine (simpleLine_lands hclosed rounds (hfound token rfl)).bind fun stmt hstmt => ?_
        exact Lands.pure (Block.spans_all (List.forall_mem_singleton.mpr hstmt))

theorem guarded_lands (hstatement : LandsStmt P statement) :
    Lands P (guarded rounds statement) fun found =>
      (∀ span ∈ found.1.spans, P span) ∧ ∀ span ∈ Block.spans found.2, P span := by
  refine (expression_lands hclosed rounds).bind fun condition hcondition => ?_
  refine (expect_lands hclosed _).bind fun _ _ => ?_
  exact (block_lands hclosed hstatement).bind fun body hbody => Lands.pure ⟨hcondition, hbody⟩

theorem alternative_lands (hstatement : LandsStmt P statement) (rounds' : Nat) :
    Lands P (alternative rounds statement rounds') fun rest => ∀ span ∈ rest.spans, P span := by
  induction rounds' with
  | zero => exact Lands.unexpected hclosed
  | succ rounds' ih =>
      refine (eat_lands _).bind fun elif _ => ?_
      split
      next =>
        refine (guarded_lands hclosed hstatement).bind fun found hfound => ?_
        obtain ⟨hcondition, hbody⟩ := hfound
        refine ih.bind fun rest hrest => Lands.pure (List.forall_mem_append.mpr ⟨hcondition, ?_⟩)
        exact List.forall_mem_append.mpr ⟨hbody, hrest⟩
      next =>
        refine (eat_lands _).bind fun otherwise _ => ?_
        split
        next =>
          refine (expect_lands hclosed _).bind fun _ _ => ?_
          exact (block_lands hclosed hstatement).bind fun body hbody => Lands.pure hbody
        next => exact Lands.pure nofun

theorem parameters_lands (rounds : Nat) : ∀ read, (∀ param ∈ read, P param.span) →
    Lands P (parameters rounds read) fun params => ∀ param ∈ params, P param.span := by
  induction rounds with
  | zero => exact fun _ _ => Lands.unexpected hclosed
  | succ rounds ih =>
      intro read hread
      refine (isNext_lands _).bind fun found _ => ?_
      split
      next => exact Lands.pure fun param hparam => hread param (List.mem_reverse.mp hparam)
      next =>
        refine (identifier_lands hclosed).bind fun found hfound => ?_
        refine (eat_lands _).bind fun comma _ => ?_
        have hmore : ∀ param ∈ Param.mk found.1 found.2 :: read, P param.span :=
          List.forall_mem_cons.mpr ⟨hfound, hread⟩
        split
        next => exact ih _ hmore
        next => exact Lands.pure fun param hparam => hmore param (List.mem_reverse.mp hparam)

theorem definition_lands (hstatement : LandsStmt P statement) :
    LandsPlaced P (definition rounds statement) := by
  refine (identifier_lands hclosed).bind fun found _ => (expect_lands hclosed _).bind fun _ _ => ?_
  refine (parameters_lands hclosed rounds [] nofun).bind fun params hparams => ?_
  refine (expect_lands hclosed _).bind fun _ _ => (expect_lands hclosed _).bind fun _ _ => ?_
  refine (block_lands hclosed hstatement).bind fun body hbody => Lands.pure fun place hplace => ?_
  refine List.forall_mem_cons.mpr ⟨hplace, List.forall_mem_append.mpr ⟨?_, hbody⟩⟩
  exact List.forall_mem_map.mpr hparams

theorem statementWithin_lands (rounds levels : Nat) :
    LandsStmt P (statementWithin rounds levels) := by
  induction levels with
  | zero => exact Lands.unexpected hclosed
  | succ levels ih =>
      refine peekToken_lands.bind fun found hfound => ?_
      cases found with
      | none => exact Lands.unexpected hclosed
      | some token =>
      have htoken : P token.span := hfound token rfl
      dsimp only
      split
      next =>
        refine skip_lands.bind fun _ _ => (guarded_lands hclosed ih).bind fun found hfound => ?_
        obtain ⟨hcondition, hbody⟩ := hfound
        refine (alternative_lands hclosed ih rounds).bind fun rest hrest => ?_
        refine (placeFrom_lands hclosed htoken).bind fun place hplace => Lands.pure ?_
        refine List.forall_mem_cons.mpr ⟨hplace, List.forall_mem_append.mpr ⟨hcondition, ?_⟩⟩
        exact List.forall_mem_append.mpr ⟨hbody, hrest⟩
      next =>
        refine skip_lands.bind fun _ _ => (guarded_lands hclosed ih).bind fun found hfound => ?_
        refine (placeFrom_lands hclosed htoken).bind fun place hplace => Lands.pure ?_
        exact List.forall_mem_cons.mpr ⟨hplace, List.forall_mem_append.mpr hfound⟩
      next =>
        refine skip_lands.bind fun _ _ => (definition_lands hclosed ih).bind fun stmt hstmt => ?_
        refine (placeFrom_lands hclosed htoken).bind fun place hplace => ?_
        exact Lands.pure (hstmt place hplace)
      next => exact Lands.fail htoken
      next => exact simpleLine_lands hclosed rounds htoken

theorem program_lands (rounds rounds' : Nat) :
    ∀ read, (∀ stmt ∈ read, ∀ span ∈ stmt.spans, P span) →
      Lands P (program rounds rounds' read) fun body => ∀ span ∈ Block.spans body, P span := by
  induction rounds' with
  | zero => exact fun _ _ => Lands.unexpected hclosed
  | succ rounds' ih =>
      intro read hread
      have hends : Lands P (expect .endOfFile >>= fun _ => Pure.pure read.reverse)
          fun body => ∀ span ∈ Block.spans body, P span := by
        refine (expect_lands hclosed _).bind fun _ _ => Lands.pure (Block.spans_all ?_)
        exact fun stmt hstmt => hread stmt (List.mem_reverse.mp hstmt)
      refine peek_lands.bind fun found _ => ?_
      split
      next => exact hends
      next => exact hends
      next =>
        refine (statementWithin_lands hclosed rounds rounds).bind fun stmt hstmt => ih _ ?_
        exact List.forall_mem_cons.mpr ⟨hstmt, hread⟩

end

end Parser

/-- The spans of a program, or the place of the fault, are joins of spans of the tokens. -/
theorem parse_lands {P : Span → Prop} (hclosed : Span.Closed P) {tokens : List Token}
    (h : ∀ token ∈ tokens, P token.span) :
    (∀ program, parse tokens = .ok program → ∀ span ∈ Block.spans program, P span) ∧
      ∀ error, parse tokens = .error error → P error.span := by
  have hlands := Parser.program_lands hclosed (tokens.length + 1) (tokens.length + 1) [] nofun
    { rest := tokens } ⟨h, nofun⟩
  rw [parse_eq_map]
  generalize Parser.program (tokens.length + 1) (tokens.length + 1) [] { rest := tokens } = result
    at hlands
  cases hlands with
  | ok hspans _ =>
      refine ⟨?_, fun _ hfault => nomatch hfault⟩
      rintro _ ⟨⟩
      exact hspans
  | error hspan =>
      refine ⟨(fun _ hread => nomatch hread), ?_⟩
      rintro _ ⟨⟩
      exact hspan

/-! ## Outcomes -/

section

variable {ε ε' α β : Type} {first : Except ε α}

theorem ok_of_bind {next : α → Except ε β} {value : β} (h : (first >>= next) = .ok value) :
    ∃ between, first = .ok between ∧ next between = .ok value := by
  cases first with
  | error => exact nomatch h
  | ok between => exact ⟨between, rfl, h⟩

theorem error_of_bind {next : α → Except ε β} {error : ε} (h : (first >>= next) = .error error) :
    first = .error error ∨ ∃ between, first = .ok between ∧ next between = .error error := by
  cases first with
  | error => exact .inl (congrArg Except.error (Except.error.inj h))
  | ok between => exact .inr ⟨between, rfl, h⟩

theorem ok_of_mapError {f : ε → ε'} {value : α} (h : first.mapError f = .ok value) :
    first = .ok value := by
  cases first with
  | error => exact nomatch h
  | ok => exact congrArg Except.ok (Except.ok.inj h)

theorem error_of_mapError {f : ε → ε'} {error : ε'} (h : first.mapError f = .error error) :
    ∃ cause, first = .error cause ∧ f cause = error := by
  cases first with
  | error cause => exact ⟨cause, rfl, Except.error.inj h⟩
  | ok => exact nomatch h

end

/-! ## Scoping faults -/

namespace Scoping

variable {error : ScopeError}

theorem span_of_checkTarget {target : Expr} (h : checkTarget target = .error error) :
    error.span = target.span := by
  cases target with
  | name => exact nomatch h
  | _ => exact Except.error.inj h ▸ rfl

theorem span_of_checkParams {seen : List String} {params : List Param}
    (h : checkParams seen params = .error error) : error.span ∈ params.map Param.span := by
  induction params generalizing seen with
  | nil => exact nomatch h
  | cons param rest ih =>
      unfold checkParams at h
      split at h
      next => exact Except.error.inj h ▸ List.mem_cons_self
      next => exact List.mem_cons_of_mem _ (ih h)

/-- Of two checks in order one has the fault. -/
theorem error_of_both {first second : Except ScopeError Unit}
    (h : (first >>= fun _ => second) = .error error) :
    first = .error error ∨ second = .error error := by
  rcases error_of_bind h with hfirst | ⟨_, -, hsecond⟩
  · exact .inl hfirst
  · exact .inr hsecond

mutual
/-- The place of a fault is the span of a part. -/
theorem span_of_checkStmt (stmt : Stmt) {enclosure : Enclosure}
    (h : checkStmt enclosure stmt = .error error) : error.span ∈ stmt.spans := by
  cases stmt with
  | giveBack | breakLoop | continueLoop =>
      obtain ⟨-, rfl⟩ := require_eq_error_iff.mp h
      exact List.mem_cons_self
  | assign place target value =>
      rw [span_of_checkTarget h]
      exact List.mem_cons_of_mem _ (List.mem_append_left _ target.span_mem_spans)
  | branch place condition body alternative =>
      refine List.mem_cons_of_mem _ (List.mem_append_right _ (List.mem_append.mpr ?_))
      exact (error_of_both h).imp (span_of_checkBlock body) (span_of_checkAlternative alternative)
  | loop place condition body =>
      exact List.mem_cons_of_mem _ (List.mem_append_right _ (span_of_checkBlock body h))
  | define place name params body =>
      refine List.mem_cons_of_mem _ (List.mem_append.mpr ?_)
      exact (error_of_both h).imp span_of_checkParams (span_of_checkBlock body)
  | expr | importModule | assert | pass => exact nomatch h

theorem span_of_checkBlock (block : List Stmt) {enclosure : Enclosure}
    (h : checkBlock enclosure block = .error error) : error.span ∈ Block.spans block := by
  cases block with
  | nil => exact nomatch h
  | cons stmt rest =>
      refine List.mem_append.mpr ?_
      exact (error_of_both h).imp (span_of_checkStmt stmt) (span_of_checkBlock rest)

theorem span_of_checkAlternative (alternative : Alternative) {enclosure : Enclosure}
    (h : checkAlternative enclosure alternative = .error error) :
    error.span ∈ alternative.spans := by
  cases alternative with
  | nothing => exact nomatch h
  | elif condition body rest =>
      refine List.mem_append_right _ (List.mem_append.mpr ?_)
      exact (error_of_both h).imp (span_of_checkBlock body) (span_of_checkAlternative rest)
  | otherwise body => exact span_of_checkBlock body h
end

end Scoping

/-! ## Whole sources -/

section

variable {source : String} {program : Block} {fault : CompileFault}

/-- The spans of a program that is read are aligned. -/
theorem aligned_of_readProgram (h : readProgram source = .ok program) :
    ∀ span ∈ Block.spans program, span.Aligned source := by
  obtain ⟨tokens, hlex, hparse⟩ := ok_of_bind h
  have htokens := aligned_of_lex (ok_of_mapError hlex)
  exact (parse_lands (aligned_closed source) htokens).1 program (ok_of_mapError hparse)

/-- An error points at a place that is aligned. -/
def CompileFault.PointsInto (source : String) (fault : CompileFault) : Prop :=
  ∀ file, ∃ span remark, CompileError.place? ⟨file, fault⟩ = some (span, remark) ∧
    span.Aligned source

theorem pointsInto_of_readProgram (h : readProgram source = .error fault) :
    fault.PointsInto source := by
  intro file
  rcases error_of_bind h with hlex | ⟨tokens, hlex, hparse⟩
  · obtain ⟨error, herror, rfl⟩ := error_of_mapError hlex
    exact ⟨_, _, rfl, aligned_of_lex_error herror⟩
  · obtain ⟨error, herror, rfl⟩ := error_of_mapError hparse
    have htokens := aligned_of_lex (ok_of_mapError hlex)
    exact ⟨_, _, rfl, (parse_lands (aligned_closed source) htokens).2 error herror⟩

theorem pointsInto_of_readCheckedProgram (h : readCheckedProgram source = .error fault) :
    fault.PointsInto source := by
  rcases error_of_bind h with hread | ⟨program, hread, hcheck⟩
  · exact pointsInto_of_readProgram hread
  intro file
  rcases error_of_bind hcheck with hscoping | ⟨_, -, hpure⟩
  · obtain ⟨error, herror, rfl⟩ := error_of_mapError hscoping
    have hspan := Scoping.span_of_checkBlock program herror
    exact ⟨_, _, rfl, aligned_of_readProgram hread _ hspan⟩
  · exact nomatch hpure

end

/-- Every position that the front end computes is valid. A source is split into the same tokens if
its bytes are read one by one, and text is then never taken from inside a character. The spans of
the tokens, of all nodes of the syntax tree, and of what an error points at end within the source
and between characters. -/
theorem compile_places_aligned (file : String) (optimize : UInt8) (source : String) :
    ByteLexer.lex source = ((lex source).map ByteLexer.kindsAndSpans).mapError .fault ∧
      (∀ tokens, lex source = .ok tokens → ∀ token ∈ tokens, token.span.Aligned source) ∧
      (∀ program, readProgram source = .ok program →
        ∀ span ∈ Block.spans program, span.Aligned source) ∧
      ∀ error, compile file optimize source = .error error →
        ∃ span remark, error.place? = some (span, remark) ∧ span.Aligned source := by
  refine ⟨byteLexer_lex source, fun _ => aligned_of_lex, fun _ => aligned_of_readProgram, ?_⟩
  intro error h
  unfold compile at h
  cases hread : readCheckedProgram source with
  | error fault =>
      rw [hread] at h
      exact Except.error.inj h ▸ pointsInto_of_readCheckedProgram hread file
  | ok program =>
      rw [hread] at h
      exact nomatch h

/-- A text with an escaped accent, a comment with another one, and a jump out of no function. -/
def accentSource : String :=
  "s = '\\é'\nreturn s # ü\n"

/-- The statement that an error points at holds a character of two bytes. -/
theorem compile_places_aligned_accent :
    ∃ tokens program error, lex accentSource = .ok tokens ∧ readProgram accentSource = .ok program ∧
      compile "f" 0 accentSource = .error error ∧
      error.place? = some (⟨10, 14⟩, "not inside a function") ∧
      (∀ token ∈ tokens, token.span.Aligned accentSource) ∧
      (∀ span ∈ Block.spans program, span.Aligned accentSource) ∧
      Span.Aligned accentSource ⟨10, 14⟩ := by
  obtain ⟨-, htokens, hprogram, herror⟩ := compile_places_aligned "f" 0 accentSource
  have hlex : (lex accentSource).isOk = true := by decide +kernel
  have hread : (readProgram accentSource).isOk = true := by decide +kernel
  have hplace : (match compile "f" 0 accentSource with
      | .ok _ => none
      | .error error => error.place?) = some (⟨10, 14⟩, "not inside a function") := by
    decide +kernel
  cases hlexed : lex accentSource with
  | error error =>
      rw [hlexed] at hlex
      exact nomatch hlex
  | ok tokens =>
  cases hparsed : readProgram accentSource with
  | error fault =>
      rw [hparsed] at hread
      exact nomatch hread
  | ok program =>
  cases hcompiled : compile "f" 0 accentSource with
  | ok unit =>
      rw [hcompiled] at hplace
      exact nomatch hplace
  | error error =>
      rw [hcompiled] at hplace
      obtain ⟨span, remark, hspan, haligned⟩ := herror error hcompiled
      obtain ⟨rfl, rfl⟩ := Prod.mk.inj (Option.some.inj (hspan.symm.trans hplace))
      exact ⟨tokens, program, error, rfl, rfl, rfl, hplace, htokens tokens hlexed,
        hprogram program hparsed, haligned⟩

end FrozenScript
