import FrozenScript.Proofs.Syntax.Sound
import FrozenScript.Proofs.Token.Places

/-!
# The grammar with places

`Grammar` relates kinds of tokens to bare trees. Here the tokens themselves are related to trees
with all their places: the span of an expression reaches from the start of the first of its tokens
to the end of the last one, parentheses around it included, and the place of a statement is that of
all its tokens, from its first word to the end of its line or of its last block.

`Nested` says of a tree that the span of every node contains those of its parts, and that these are
in order. The tree of tokens that are in order is nested (`WrittenStatement.nested`).
-/

namespace FrozenScript

open Text

/-! ## Runs of tokens -/

/-- From the start of the first token to the end of the last one. -/
def spanOf (tokens : List Token) : Span :=
  match tokens.head?, tokens.getLast? with
  | some first, some last => Span.between first.span.offset last.span.stop
  | _, _ => ⟨0, 0⟩

/-- The span of some tokens, and the line of the first one. -/
def placeOf (tokens : List Token) : Place :=
  ⟨spanOf tokens, (tokens.head?.map Token.line).getD 0⟩

/-- Each token ends where the next one starts, or before. -/
def InOrder (tokens : List Token) : Prop :=
  tokens.Pairwise Token.Precedes

namespace InOrder

variable {before behind tokens run : List Token} {first : Token}

theorem left (h : InOrder (before ++ behind)) : InOrder before :=
  (List.pairwise_append.mp h).1

theorem right (h : InOrder (before ++ behind)) : InOrder behind :=
  (List.pairwise_append.mp h).2.1

theorem tail (h : InOrder (first :: behind)) : InOrder behind :=
  (List.pairwise_cons.mp h).2

theorem sublist (h : InOrder tokens) (hrun : run.Sublist tokens) : InOrder run :=
  List.Pairwise.sublist hrun h

end InOrder

namespace Text.Span

/-- A span holds another one. -/
def Contains (outer inner : Span) : Prop :=
  outer.offset ≤ inner.offset ∧ inner.stop ≤ outer.stop

/-- A span ends where another one starts, or before. -/
def Before (earlier later : Span) : Prop :=
  earlier.stop ≤ later.offset

/-- A span holds some spans that are in order. -/
def Orders (outer : Span) (parts : List Span) : Prop :=
  (∀ part ∈ parts, outer.Contains part) ∧ parts.Pairwise Before

theorem offset_le_stop (span : Span) : span.offset ≤ span.stop :=
  Nat.le_add_right ..

theorem between_self (span : Span) : between span.offset span.stop = span := by
  unfold between stop
  rw [Nat.add_sub_cancel_left]

theorem stop_between {start stop : Nat} (h : start ≤ stop) : (between start stop).stop = stop := by
  exact Nat.add_sub_cancel' h

/-- Two spans of which the second one neither starts nor stops before the first one. -/
theorem join_eq_between {first second : Span} (hstart : first.offset ≤ second.offset)
    (hstop : first.stop ≤ second.stop) :
    first.join second = between first.offset second.stop := by
  rw [join, Nat.min_eq_left hstart, Nat.max_eq_right hstop]

theorem Contains.trans {outer middle inner : Span} (h : outer.Contains middle)
    (h' : middle.Contains inner) : outer.Contains inner :=
  ⟨Nat.le_trans h.1 h'.1, Nat.le_trans h'.2 h.2⟩

theorem Orders.mono {outer inner : Span} {parts : List Span} (h : outer.Contains inner)
    (hparts : inner.Orders parts) : outer.Orders parts :=
  ⟨fun part hpart => h.trans (hparts.1 part hpart), hparts.2⟩

end Text.Span

theorem spanOf_singleton (token : Token) : spanOf [token] = token.span :=
  Span.between_self token.span

section

variable {before run behind tokens : List Token} {first last : Token}

theorem offset_spanOf (hfirst : tokens.head? = some first) :
    (spanOf tokens).offset = first.span.offset := by
  cases hlast : tokens.getLast? with
  | none =>
      rw [List.getLast?_eq_none_iff.mp hlast] at hfirst
      exact nomatch hfirst
  | some last => rw [spanOf, hfirst, hlast]; rfl

theorem offset_le_of_mem {token : Token} (horder : InOrder tokens)
    (hfirst : tokens.head? = some first) (hmem : token ∈ tokens) :
    first.span.offset ≤ token.span.offset := by
  cases tokens with
  | nil => exact nomatch hfirst
  | cons head tokens =>
  obtain rfl := Option.some.inj hfirst
  rcases List.mem_cons.mp hmem with rfl | hmem
  · exact Nat.le_refl _
  · exact Nat.le_trans head.span.offset_le_stop (List.rel_of_pairwise_cons horder hmem)

theorem stop_le_of_mem {token : Token} (horder : InOrder tokens)
    (hlast : tokens.getLast? = some last) (hmem : token ∈ tokens) :
    token.span.stop ≤ last.span.stop := by
  obtain ⟨earlier, rfl⟩ := List.getLast?_eq_some_iff.mp hlast
  rcases List.mem_append.mp hmem with hmem | hmem
  · have hprecedes := (List.pairwise_append.mp horder).2.2 token hmem last List.mem_cons_self
    exact Nat.le_trans hprecedes last.span.offset_le_stop
  · obtain rfl := List.mem_singleton.mp hmem
    exact Nat.le_refl _

theorem stop_spanOf (horder : InOrder tokens) (hlast : tokens.getLast? = some last) :
    (spanOf tokens).stop = last.span.stop := by
  cases hfirst : tokens.head? with
  | none =>
      rw [List.head?_eq_none_iff.mp hfirst] at hlast
      exact nomatch hlast
  | some first =>
      rw [spanOf, hfirst, hlast]
      refine Span.stop_between (Nat.le_trans ?_ last.span.offset_le_stop)
      exact offset_le_of_mem horder hfirst (List.mem_of_getLast? hlast)

theorem exists_head? (h : tokens ≠ []) : ∃ first, tokens.head? = some first :=
  Option.ne_none_iff_exists'.mp (mt List.head?_eq_none_iff.mp h)

theorem exists_getLast? (h : tokens ≠ []) : ∃ last, tokens.getLast? = some last :=
  Option.ne_none_iff_exists'.mp (mt List.getLast?_eq_none_iff.mp h)

/-- Of two runs of tokens in order the first one ends before the other one starts. -/
theorem before_spanOf (horder : InOrder (before ++ behind)) (hbefore : before ≠ [])
    (hbehind : behind ≠ []) : (spanOf before).Before (spanOf behind) := by
  obtain ⟨last, hlast⟩ := exists_getLast? hbefore
  obtain ⟨first, hfirst⟩ := exists_head? hbehind
  obtain ⟨hleft, -, hacross⟩ := List.pairwise_append.mp horder
  rw [Span.Before, stop_spanOf hleft hlast, offset_spanOf hfirst]
  exact hacross last (List.mem_of_getLast? hlast) first (List.mem_of_head? hfirst)

/-- The span of some tokens in order holds the span of each run of them. -/
theorem contains_spanOf (horder : InOrder tokens) (hrun : run <:+: tokens) (hne : run ≠ []) :
    (spanOf tokens).Contains (spanOf run) := by
  have hall : tokens ≠ [] := fun hnil => hne (List.eq_nil_of_infix_nil (hnil ▸ hrun))
  obtain ⟨first, hfirst⟩ := exists_head? hall
  obtain ⟨last, hlast⟩ := exists_getLast? hall
  obtain ⟨start, hstart⟩ := exists_head? hne
  obtain ⟨stop, hstop⟩ := exists_getLast? hne
  rw [Span.Contains, offset_spanOf hfirst, offset_spanOf hstart, stop_spanOf horder hlast,
    stop_spanOf (horder.sublist hrun.sublist) hstop]
  exact ⟨offset_le_of_mem horder hfirst (hrun.subset (List.mem_of_head? hstart)),
    stop_le_of_mem horder hlast (hrun.subset (List.mem_of_getLast? hstop))⟩

theorem spanOf_eq_between (hfirst : tokens.head? = some first)
    (hlast : tokens.getLast? = some last) :
    spanOf tokens = Span.between first.span.offset last.span.stop := by
  rw [spanOf, hfirst, hlast]

/-- The first and the last one of some tokens in order make up the span of all of them. -/
theorem join_eq_spanOf (horder : InOrder tokens) (hfirst : tokens.head? = some first)
    (hlast : tokens.getLast? = some last) : first.span.join last.span = spanOf tokens := by
  rw [spanOf_eq_between hfirst hlast]
  exact Span.join_eq_between (offset_le_of_mem horder hfirst (List.mem_of_getLast? hlast))
    (stop_le_of_mem horder hlast (List.mem_of_head? hfirst))

/-- The first and the last run of some tokens in order make up the span of all of them. -/
theorem join_spanOf (between : List Token) (horder : InOrder (before ++ (between ++ behind)))
    (hbefore : before ≠ []) (hbehind : behind ≠ []) :
    (spanOf before).join (spanOf behind) = spanOf (before ++ (between ++ behind)) := by
  obtain ⟨first, hfirst⟩ := exists_head? hbefore
  obtain ⟨last, hlast⟩ := exists_getLast? hbehind
  have hright : InOrder behind := horder.sublist
    ((List.sublist_append_right between behind).trans (List.sublist_append_right before _))
  have hacross : (spanOf before).Before (spanOf behind) := by
    refine before_spanOf (horder.sublist ?_) hbefore hbehind
    exact (List.sublist_append_right between behind).append_left before
  have hhead : (before ++ (between ++ behind)).head? = some first := by
    rw [List.head?_append, hfirst, Option.some_or]
  have hend : (before ++ (between ++ behind)).getLast? = some last := by
    rw [List.getLast?_append, List.getLast?_append, hlast, Option.some_or, Option.some_or]
  rw [spanOf_eq_between hhead hend, ← offset_spanOf hfirst, ← stop_spanOf hright hlast]
  exact Span.join_eq_between (Nat.le_trans (Span.offset_le_stop _) hacross)
    (Nat.le_trans hacross (Span.offset_le_stop _))

end

/-! ## Runs one behind the other -/

/-- Some spans are those of runs of the tokens, one behind the other. -/
inductive Lies : List Token → List Span → Prop where
  | nil {tokens} : Lies tokens []
  | cons {gap run rest spans} :
      run ≠ [] → Lies rest spans → Lies (gap ++ (run ++ rest)) (spanOf run :: spans)

namespace Lies

variable {tokens more : List Token} {spans others : List Span}

theorem skip (h : Lies tokens spans) (gap : List Token) : Lies (gap ++ tokens) spans := by
  cases h with
  | nil => exact .nil
  | cons hne hrest =>
      rw [← List.append_assoc]
      exact .cons hne hrest

theorem append (h : Lies tokens spans) (h' : Lies more others) :
    Lies (tokens ++ more) (spans ++ others) := by
  induction h with
  | nil => exact h'.skip _
  | cons hne _ ih =>
      rw [List.append_assoc, List.append_assoc]
      exact .cons hne ih

theorem stop (h : Lies tokens spans) (gap : List Token) : Lies (tokens ++ gap) spans := by
  have hnil : Lies gap [] := .nil
  have happend := h.append hnil
  rwa [List.append_nil] at happend

theorem single {run : List Token} (hne : run ≠ []) : Lies run [spanOf run] := by
  have hrun : Lies ([] ++ (run ++ [])) [spanOf run] := .cons hne .nil
  rwa [List.nil_append, List.append_nil] at hrun

theorem exists_run (h : Lies tokens spans) :
    ∀ span ∈ spans, ∃ run, run <:+: tokens ∧ run ≠ [] ∧ span = spanOf run := by
  induction h with
  | nil => exact nofun
  | @cons gap run rest spans hne _ ih =>
      refine List.forall_mem_cons.mpr ⟨⟨run, ⟨gap, rest, by rw [List.append_assoc]⟩, hne, rfl⟩, ?_⟩
      intro span hspan
      obtain ⟨later, hlater, hspans⟩ := ih span hspan
      exact ⟨later, hlater.trans ⟨gap ++ run, [], by simp⟩, hspans⟩

/-- The span of tokens in order holds the spans of such runs, and these are in order. -/
theorem orders (h : Lies tokens spans) (horder : InOrder tokens) :
    (spanOf tokens).Orders spans := by
  refine ⟨fun span hspan => ?_, ?_⟩
  · obtain ⟨run, hrun, hne, rfl⟩ := h.exists_run span hspan
    exact contains_spanOf horder hrun hne
  · induction h with
    | nil => exact .nil
    | @cons gap run rest spans hne hrest ih =>
        have hbehind : InOrder (run ++ rest) := (List.pairwise_append.mp horder).2.1
        refine List.pairwise_cons.mpr ⟨fun span hspan => ?_,
          ih (List.pairwise_append.mp hbehind).2.1⟩
        obtain ⟨later, hlater, hne', rfl⟩ := hrest.exists_run span hspan
        exact before_spanOf (hbehind.sublist (hlater.sublist.append_left run)) hne hne'

end Lies

namespace Grammar

/-! ## Expressions -/

mutual
/-- `Written level tokens expr` says that the tokens make up the expression, whose outermost
operator is of the level or a stronger one, and that its spans are those of its tokens. -/
inductive Written : Level → List Token → Expr → Prop where
  | stronger {level next tokens expr} :
      level.stronger = some next → Written next tokens expr → Written level tokens expr
  | chain {level next before left sign behind right expr} :
      Written level before left → level.stronger = some next → Written next behind right →
      Joins level sign.kind left right expr →
      Written level (before ++ sign :: behind) (expr.withSpan (spanOf (before ++ sign :: behind)))
  | signed {level sign op tokens operand} :
      Prefixes level sign.kind op → Written level tokens operand →
      Written level (sign :: tokens) (.unary (spanOf (sign :: tokens)) op operand)
  | compare {op before left sign behind right} :
      Written .sum before left → Compares sign.kind op → Written .sum behind right →
      Written .comparison (before ++ sign :: behind)
        (.compare (spanOf (before ++ sign :: behind)) op left right)
  | call {before callee opening between args closing} :
      Written .trailed before callee → opening.kind = .symbol .openParen →
      WrittenArguments between args → closing.kind = .symbol .closeParen →
      Written .trailed (before ++ opening :: (between ++ [closing]))
        (.call (spanOf (before ++ opening :: (between ++ [closing]))) callee args)
  | member {before object dot field name} :
      Written .trailed before object → dot.kind = .symbol .dot → field.kind = .identifier name →
      Written .trailed (before ++ [dot, field])
        (.member (spanOf (before ++ [dot, field])) object name)
  | leaf {token expr} :
      Leaf token.kind expr → Written .atom [token] (expr.withSpan (spanOf [token]))
  | parens {opening tokens expr closing} :
      opening.kind = .symbol .openParen → Written .disjunction tokens expr →
      closing.kind = .symbol .closeParen →
      Written .atom (opening :: (tokens ++ [closing]))
        (expr.withSpan (spanOf (opening :: (tokens ++ [closing]))))

/-- `WrittenArguments tokens args` says that the tokens make up the arguments of a call. -/
inductive WrittenArguments : List Token → List Expr → Prop where
  | nil : WrittenArguments [] []
  | last {tokens arg} : Written .disjunction tokens arg → WrittenArguments tokens [arg]
  | cons {tokens arg comma rest args} :
      Written .disjunction tokens arg → comma.kind = .symbol .comma → WrittenArguments rest args →
      WrittenArguments (tokens ++ comma :: rest) (arg :: args)
end

/-! ## Statements -/

/-- `WrittenParameters tokens params` says that the tokens make up the parameters of a function. -/
inductive WrittenParameters : List Token → List Param → Prop where
  | nil : WrittenParameters [] []
  | last {token name} :
      token.kind = .identifier name → WrittenParameters [token] [⟨name, token.span⟩]
  | cons {token name comma rest params} :
      token.kind = .identifier name → comma.kind = .symbol .comma →
      WrittenParameters rest params →
      WrittenParameters (token :: comma :: rest) (⟨name, token.span⟩ :: params)

/-- `WrittenSimple tokens stmt` says that the tokens make up the statement, which holds no block.
The end of the line, which also belongs to its place, is not among them. -/
inductive WrittenSimple : List Token → (Place → Stmt) → Prop where
  | pass {word} : word.kind = .keyword .passWord → WrittenSimple [word] .pass
  | breakLoop {word} : word.kind = .keyword .breakWord → WrittenSimple [word] .breakLoop
  | continueLoop {word} : word.kind = .keyword .continueWord → WrittenSimple [word] .continueLoop
  | giveBack {word} : word.kind = .keyword .returnWord → WrittenSimple [word] (.giveBack · none)
  | giveBackValue {word tokens value} :
      word.kind = .keyword .returnWord → Written .disjunction tokens value →
      WrittenSimple (word :: tokens) (.giveBack · (some value))
  | importModule {word token name} :
      word.kind = .keyword .importWord → token.kind = .identifier name →
      WrittenSimple [word, token] (.importModule · name)
  | assert {word tokens test} :
      word.kind = .keyword .assertWord → Written .disjunction tokens test →
      WrittenSimple (word :: tokens) (.assert · test none)
  | assertMessage {word tokens test comma behind message} :
      word.kind = .keyword .assertWord → Written .disjunction tokens test →
      comma.kind = .symbol .comma → Written .disjunction behind message →
      WrittenSimple (word :: (tokens ++ comma :: behind)) (.assert · test (some message))
  | assign {tokens target sign behind value} :
      Written .disjunction tokens target → sign.kind = .symbol .assign →
      Written .disjunction behind value →
      WrittenSimple (tokens ++ sign :: behind) (.assign · target value)
  | expr {tokens value} : Written .disjunction tokens value → WrittenSimple tokens (.expr · value)

/-- `WrittenLine tokens stmt` says that the tokens make up the statement, which holds no block, with
the end of its line as the last one. -/
inductive WrittenLine : List Token → Stmt → Prop where
  | intro {tokens stmt ending} :
      WrittenSimple tokens stmt → ending.kind = .newline →
      WrittenLine (tokens ++ [ending]) (stmt (placeOf (tokens ++ [ending])))

mutual
/-- `WrittenStatement tokens stmt` says that the tokens make up the statement, and that its places
are those of its tokens. -/
inductive WrittenStatement : List Token → Stmt → Prop where
  | simple {tokens stmt} : WrittenLine tokens stmt → WrittenStatement tokens stmt
  | branch {word tokens condition body behind rest} :
      word.kind = .keyword .ifWord → WrittenGuarded tokens condition body →
      WrittenRest behind rest →
      WrittenStatement (word :: (tokens ++ behind))
        (.branch (placeOf (word :: (tokens ++ behind))) condition body rest)
  | loop {word tokens condition body} :
      word.kind = .keyword .whileWord → WrittenGuarded tokens condition body →
      WrittenStatement (word :: tokens) (.loop (placeOf (word :: tokens)) condition body)
  | define {word token name opening tokens params closing colon behind body} :
      word.kind = .keyword .defWord → token.kind = .identifier name →
      opening.kind = .symbol .openParen → WrittenParameters tokens params →
      closing.kind = .symbol .closeParen → colon.kind = .symbol .colon →
      WrittenSuite behind body →
      WrittenStatement (word :: token :: opening :: (tokens ++ closing :: colon :: behind))
        (.define (placeOf (word :: token :: opening :: (tokens ++ closing :: colon :: behind)))
          name params body)

/-- `WrittenGuarded tokens condition body` says that the tokens make up a condition and the block
behind it. -/
inductive WrittenGuarded : List Token → Expr → List Stmt → Prop where
  | intro {tokens condition colon behind body} :
      Written .disjunction tokens condition → colon.kind = .symbol .colon →
      WrittenSuite behind body → WrittenGuarded (tokens ++ colon :: behind) condition body

/-- `WrittenStatements tokens body` says that the tokens make up the statements. -/
inductive WrittenStatements : List Token → List Stmt → Prop where
  | nil : WrittenStatements [] []
  | cons {tokens stmt rest body} :
      WrittenStatement tokens stmt → WrittenStatements rest body →
      WrittenStatements (tokens ++ rest) (stmt :: body)

/-- `WrittenSuite tokens body` says that the tokens make up the block. -/
inductive WrittenSuite : List Token → List Stmt → Prop where
  | line {tokens stmt} : WrittenLine tokens stmt → WrittenSuite tokens [stmt]
  | indented {ending opening tokens body closing} :
      ending.kind = .newline → opening.kind = .indent → WrittenStatements tokens body →
      closing.kind = .dedent → WrittenSuite (ending :: opening :: (tokens ++ [closing])) body

/-- `WrittenRest tokens rest` says that the tokens make up what follows the first block of a
branch. -/
inductive WrittenRest : List Token → Alternative → Prop where
  | nothing : WrittenRest [] .nothing
  | elif {word tokens condition body behind rest} :
      word.kind = .keyword .elifWord → WrittenGuarded tokens condition body →
      WrittenRest behind rest → WrittenRest (word :: (tokens ++ behind)) (.elif condition body rest)
  | otherwise {word colon tokens body} :
      word.kind = .keyword .elseWord → colon.kind = .symbol .colon → WrittenSuite tokens body →
      WrittenRest (word :: colon :: tokens) (.otherwise body)
end

end Grammar

/-! ## Nested trees -/

mutual
/-- The span of an expression holds those of its parts, which are in order, and so does the span of
every part. -/
def Expr.Nested : Expr → Prop
  | .literal _ _ | .name _ _ => True
  | .binary span _ left right | .compare span _ left right | .logical span _ left right =>
    span.Orders [left.span, right.span] ∧ left.Nested ∧ right.Nested
  | .unary span _ operand => span.Orders [operand.span] ∧ operand.Nested
  | .call span callee args =>
    span.Orders (callee.span :: args.map Expr.span) ∧ callee.Nested ∧ exprsNested args
  | .member span object _ => span.Orders [object.span] ∧ object.Nested

/-- Some expressions are nested. -/
def exprsNested : List Expr → Prop
  | [] => True
  | expr :: rest => expr.Nested ∧ exprsNested rest
end

/-- The spans of some statements. -/
def Block.outline (block : Block) : List Span :=
  block.map fun stmt => stmt.place.span

/-- The spans of the conditions and of the statements of an alternative. -/
def Alternative.outline : Alternative → List Span
  | .nothing => []
  | .elif condition body rest => condition.span :: (Block.outline body ++ rest.outline)
  | .otherwise body => Block.outline body

mutual
/-- The span of a statement holds those of its parts, which are in order, and so does the span of
every part. -/
def Stmt.Nested : Stmt → Prop
  | .expr place value => place.span.Orders [value.span] ∧ value.Nested
  | .assign place target value =>
    place.span.Orders [target.span, value.span] ∧ target.Nested ∧ value.Nested
  | .branch place condition body rest =>
    place.span.Orders (condition.span :: (Block.outline body ++ rest.outline)) ∧
      condition.Nested ∧ Block.Nested body ∧ rest.Nested
  | .loop place condition body =>
    place.span.Orders (condition.span :: Block.outline body) ∧ condition.Nested ∧ Block.Nested body
  | .define place _ params body =>
    place.span.Orders (params.map Param.span ++ Block.outline body) ∧ Block.Nested body
  | .giveBack place value =>
    place.span.Orders (value.toList.map Expr.span) ∧ exprsNested value.toList
  | .assert place test message =>
    place.span.Orders (test.span :: message.toList.map Expr.span) ∧ test.Nested ∧
      exprsNested message.toList
  | .importModule _ _ | .pass _ | .breakLoop _ | .continueLoop _ => True

/-- Some statements are nested. -/
def Block.Nested : List Stmt → Prop
  | [] => True
  | stmt :: rest => stmt.Nested ∧ Block.Nested rest

/-- The parts of an alternative are nested. -/
def Alternative.Nested : Alternative → Prop
  | .nothing => True
  | .elif condition body rest => condition.Nested ∧ Block.Nested body ∧ rest.Nested
  | .otherwise body => Block.Nested body
end

/-- A span that holds more may replace the one of a nested expression. -/
theorem Expr.Nested.withSpan {expr : Expr} {span : Span} (h : expr.Nested)
    (hspan : span.Contains expr.span) : (expr.withSpan span).Nested := by
  cases expr with
  | literal | name => exact trivial
  | binary | compare | logical | call | unary | member => exact ⟨h.1.mono hspan, h.2⟩

namespace Grammar

/-! ### Expressions -/

theorem Written.ne_nil : ∀ {level : Level} {tokens : List Token} {expr : Expr},
    Written level tokens expr → tokens ≠ []
  | _, _, _, .stronger _ hexpr => hexpr.ne_nil
  | _, _, _, .chain .. | _, _, _, .compare .. | _, _, _, .call .. | _, _, _, .member .. => by simp
  | _, _, _, .signed .. | _, _, _, .leaf _ | _, _, _, .parens .. => nofun

theorem Written.span_eq : ∀ {level : Level} {tokens : List Token} {expr : Expr},
    Written level tokens expr → expr.span = spanOf tokens
  | _, _, _, .stronger _ hexpr => hexpr.span_eq
  | _, _, _, .chain .. | _, _, _, .leaf _ | _, _, _, .parens .. => Expr.span_withSpan _ _
  | _, _, _, .signed .. | _, _, _, .compare .. | _, _, _, .call .. | _, _, _, .member .. => rfl

theorem Written.lies {level : Level} {tokens : List Token} {expr : Expr}
    (h : Written level tokens expr) : Lies tokens [expr.span] := by
  rw [h.span_eq]
  exact .single h.ne_nil

theorem WrittenArguments.lies : ∀ {tokens : List Token} {args : List Expr},
    WrittenArguments tokens args → Lies tokens (args.map Expr.span)
  | _, _, .nil => .nil
  | _, _, .last harg => harg.lies
  | _, _, .cons harg _ hargs => harg.lies.append (hargs.lies.skip [_])

/-- The two operands of an operator. -/
theorem orders_operands {level level' : Level} {before behind : List Token} {sign : Token}
    {left right : Expr} (hleft : Written level before left) (hright : Written level' behind right)
    (horder : InOrder (before ++ sign :: behind)) :
    (spanOf (before ++ sign :: behind)).Orders [left.span, right.span] :=
  (hleft.lies.append (hright.lies.skip [sign])).orders horder

theorem join_operands {level level' : Level} {before behind : List Token} {sign : Token}
    {left right : Expr} (hleft : Written level before left) (hright : Written level' behind right)
    (horder : InOrder (before ++ sign :: behind)) :
    left.span.join right.span = spanOf (before ++ sign :: behind) := by
  rw [hleft.span_eq, hright.span_eq]
  exact join_spanOf [sign] horder hleft.ne_nil hright.ne_nil

theorem nested_of_joins {level : Level} {kind : Kind} {left right expr : Expr} {span : Span}
    (h : Joins level kind left right expr) (hparts : span.Orders [left.span, right.span])
    (hleft : left.Nested) (hright : right.Nested) : (expr.withSpan span).Nested := by
  cases h <;> exact ⟨hparts, hleft, hright⟩

theorem nested_of_leaf {kind : Kind} {expr : Expr} (h : Leaf kind expr) (span : Span) :
    (expr.withSpan span).Nested := by
  cases h <;> exact trivial

mutual
/-- The expression of tokens in order is nested. -/
theorem Written.nested {level : Level} {tokens : List Token} {expr : Expr}
    (h : Written level tokens expr) (horder : InOrder tokens) : expr.Nested := by
  match h with
  | .stronger _ hexpr => exact hexpr.nested horder
  | .chain hleft _ hright hjoins =>
      exact nested_of_joins hjoins (orders_operands hleft hright horder)
        (hleft.nested horder.left) (hright.nested horder.right.tail)
  | .signed _ hoperand =>
      exact ⟨(hoperand.lies.skip [_]).orders horder, hoperand.nested horder.tail⟩
  | .compare hleft _ hright =>
      exact ⟨orders_operands hleft hright horder, hleft.nested horder.left,
        hright.nested horder.right.tail⟩
  | .call hcallee _ hargs _ =>
      exact ⟨(hcallee.lies.append ((hargs.lies.stop [_]).skip [_])).orders horder,
        hcallee.nested horder.left, hargs.nested horder.right.tail.left⟩
  | .member hobject _ _ =>
      exact ⟨(hobject.lies.stop _).orders horder, hobject.nested horder.left⟩
  | .leaf hleaf => exact nested_of_leaf hleaf _
  | .parens _ hinner _ =>
      have hparts := ((hinner.lies.stop [_]).skip [_]).orders horder
      exact (hinner.nested horder.tail.left).withSpan (hparts.1 _ List.mem_cons_self)

theorem WrittenArguments.nested {tokens : List Token} {args : List Expr}
    (h : WrittenArguments tokens args) (horder : InOrder tokens) : exprsNested args := by
  match h with
  | .nil => exact trivial
  | .last harg => exact ⟨harg.nested horder, trivial⟩
  | .cons harg _ hargs => exact ⟨harg.nested horder.left, hargs.nested horder.right.tail⟩
end

/-! ### Statements -/

theorem WrittenParameters.lies {tokens : List Token} {params : List Param}
    (h : WrittenParameters tokens params) : Lies tokens (params.map Param.span) := by
  have name (token : Token) : Lies [token] [token.span] := by
    have hsingle : Lies [token] [spanOf [token]] := .single (List.cons_ne_nil _ _)
    rwa [spanOf_singleton] at hsingle
  induction h with
  | nil => exact .nil
  | @last token _ _ => exact name token
  | @cons token _ comma _ _ _ _ _ ih => exact (name token).append (ih.skip [comma])

theorem WrittenSimple.ne_nil {tokens : List Token} {stmt : Place → Stmt}
    (h : WrittenSimple tokens stmt) : tokens ≠ [] := by
  cases h with
  | assign => simp
  | expr hvalue => exact hvalue.ne_nil
  | _ => exact List.cons_ne_nil _ _

theorem WrittenSimple.place_eq {tokens : List Token} {stmt : Place → Stmt}
    (h : WrittenSimple tokens stmt) (place : Place) : (stmt place).place = place := by
  cases h <;> rfl

/-- At any place that holds its tokens a statement of tokens in order is nested. -/
theorem WrittenSimple.nested {tokens : List Token} {stmt : Place → Stmt} {place : Place}
    (h : WrittenSimple tokens stmt) (horder : InOrder tokens)
    (hplace : place.span.Contains (spanOf tokens)) : (stmt place).Nested := by
  have within {spans : List Span} (hlies : Lies tokens spans) : place.span.Orders spans :=
    (hlies.orders horder).mono hplace
  cases h with
  | pass | breakLoop | continueLoop | importModule => exact trivial
  | giveBack => exact ⟨within .nil, trivial⟩
  | giveBackValue _ hvalue =>
      exact ⟨within (hvalue.lies.skip [_]), hvalue.nested horder.tail, trivial⟩
  | assert _ htest => exact ⟨within (htest.lies.skip [_]), htest.nested horder.tail, trivial⟩
  | assertMessage _ htest _ hmessage =>
      exact ⟨within ((htest.lies.append (hmessage.lies.skip [_])).skip [_]),
        htest.nested horder.tail.left, hmessage.nested horder.tail.right.tail, trivial⟩
  | assign htarget _ hvalue =>
      exact ⟨within (htarget.lies.append (hvalue.lies.skip [_])), htarget.nested horder.left,
        hvalue.nested horder.right.tail⟩
  | expr hvalue => exact ⟨within hvalue.lies, hvalue.nested horder⟩

theorem WrittenLine.place_eq {tokens : List Token} {stmt : Stmt} (h : WrittenLine tokens stmt) :
    stmt.place = placeOf tokens := by
  obtain ⟨hsimple, _⟩ := h
  exact hsimple.place_eq _

theorem WrittenLine.ne_nil {tokens : List Token} {stmt : Stmt} (h : WrittenLine tokens stmt) :
    tokens ≠ [] := by
  obtain ⟨_, _⟩ := h
  simp

theorem WrittenLine.nested {tokens : List Token} {stmt : Stmt} (h : WrittenLine tokens stmt)
    (horder : InOrder tokens) : stmt.Nested := by
  obtain ⟨hsimple, _⟩ := h
  refine hsimple.nested horder.left (contains_spanOf horder ?_ hsimple.ne_nil)
  exact (List.prefix_append _ _).isInfix

theorem WrittenStatement.place_eq {tokens : List Token} {stmt : Stmt}
    (h : WrittenStatement tokens stmt) : stmt.place = placeOf tokens := by
  cases h with
  | simple hline => exact hline.place_eq
  | branch | loop | define => rfl

theorem WrittenStatement.lies {tokens : List Token} {stmt : Stmt}
    (h : WrittenStatement tokens stmt) : Lies tokens [stmt.place.span] := by
  rw [h.place_eq]
  cases h with
  | simple hline => exact .single hline.ne_nil
  | branch | loop | define => exact .single (List.cons_ne_nil _ _)

theorem WrittenStatements.lies : ∀ {tokens : List Token} {body : Block},
    WrittenStatements tokens body → Lies tokens (Block.outline body)
  | _, _, .nil => .nil
  | _, _, .cons hstmt hbody => hstmt.lies.append hbody.lies

theorem WrittenSuite.lies {tokens : List Token} {body : Block} (h : WrittenSuite tokens body) :
    Lies tokens (Block.outline body) := by
  cases h with
  | line hline => exact (WrittenStatement.simple hline).lies
  | indented _ _ hbody _ => exact (hbody.lies.stop [_]).skip [_, _]

theorem WrittenGuarded.lies {tokens : List Token} {condition : Expr} {body : Block}
    (h : WrittenGuarded tokens condition body) :
    Lies tokens (condition.span :: Block.outline body) := by
  obtain ⟨hcondition, _, hbody⟩ := h
  exact hcondition.lies.append (hbody.lies.skip [_])

theorem WrittenRest.lies : ∀ {tokens : List Token} {rest : Alternative},
    WrittenRest tokens rest → Lies tokens rest.outline
  | _, _, .nothing => .nil
  | _, _, .elif _ hguarded hrest => (hguarded.lies.append hrest.lies).skip [_]
  | _, _, .otherwise _ _ hbody => hbody.lies.skip [_, _]

mutual
/-- The statement of tokens in order is nested. -/
theorem WrittenStatement.nested {tokens : List Token} {stmt : Stmt}
    (h : WrittenStatement tokens stmt) (horder : InOrder tokens) : stmt.Nested := by
  match h with
  | .simple hline => exact hline.nested horder
  | .branch _ hguarded hrest =>
      have hparts := ((hguarded.lies.append hrest.lies).skip [_]).orders horder
      obtain ⟨hcondition, hbody⟩ := hguarded.nested horder.tail.left
      exact ⟨hparts, hcondition, hbody, hrest.nested horder.tail.right⟩
  | .loop _ hguarded =>
      exact ⟨(hguarded.lies.skip [_]).orders horder, hguarded.nested horder.tail⟩
  | .define _ _ _ hparams _ _ hbody =>
      have hparts := ((hparams.lies.append (hbody.lies.skip [_, _])).skip [_, _, _]).orders horder
      exact ⟨hparts, hbody.nested horder.tail.tail.tail.right.tail.tail⟩

theorem WrittenGuarded.nested {tokens : List Token} {condition : Expr} {body : Block}
    (h : WrittenGuarded tokens condition body) (horder : InOrder tokens) :
    condition.Nested ∧ Block.Nested body := by
  match h with
  | .intro hcondition _ hbody =>
      exact ⟨hcondition.nested horder.left, hbody.nested horder.right.tail⟩

/-- The statements of tokens in order are nested. -/
theorem WrittenStatements.nested {tokens : List Token} {body : Block}
    (h : WrittenStatements tokens body) (horder : InOrder tokens) : Block.Nested body := by
  match h with
  | .nil => exact trivial
  | .cons hstmt hbody => exact ⟨hstmt.nested horder.left, hbody.nested horder.right⟩

theorem WrittenSuite.nested {tokens : List Token} {body : Block} (h : WrittenSuite tokens body)
    (horder : InOrder tokens) : Block.Nested body := by
  match h with
  | .line hline => exact ⟨hline.nested horder, trivial⟩
  | .indented _ _ hbody _ => exact hbody.nested horder.tail.tail.left

theorem WrittenRest.nested {tokens : List Token} {rest : Alternative}
    (h : WrittenRest tokens rest) (horder : InOrder tokens) : rest.Nested := by
  match h with
  | .nothing => exact trivial
  | .elif _ hguarded hrest =>
      obtain ⟨hcondition, hbody⟩ := hguarded.nested horder.tail.left
      exact ⟨hcondition, hbody, hrest.nested horder.tail.right⟩
  | .otherwise _ _ hbody => exact hbody.nested horder.tail.tail
end

end Grammar

end FrozenScript
