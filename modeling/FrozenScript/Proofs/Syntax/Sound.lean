import FrozenScript.Proofs.Syntax.Grammar
import FrozenScript.Syntax.Parser.Statement

/-!
# What is read derives from the grammar

`Reads parser good` relates the kinds of the tokens that a parser consumed to its result. There is
one lemma for each reader, which says that the kinds derive the bare result; `program_reads` is the
last of them.
-/

namespace FrozenScript.Parser

open Grammar Text

variable {α β : Type}

/-- Whenever the parser succeeds before a token of the given kind, or at the end of the tokens, the
predicate holds of the kinds it consumed and of its result. -/
def ReadsAt (next : Option Kind) (parser : Parser α) (good : List Kind → α → Prop) : Prop :=
  ∀ state value state', state.rest.head?.map Token.kind = next →
    parser state = .ok (value, state') →
    ∃ taken, state.rest = taken ++ state'.rest ∧ good (taken.map Token.kind) value

/-- Whenever the parser succeeds, the predicate holds of the kinds it consumed and of its
result. -/
def Reads (parser : Parser α) (good : List Kind → α → Prop) : Prop :=
  ∀ next, ReadsAt next parser good

theorem bind_eq_ok {parser : Parser α} {f : α → Parser β} {state : ParseState} {value : β}
    {state' : ParseState} (h : (parser >>= f) state = .ok (value, state')) :
    ∃ first between, parser state = .ok (first, between) ∧
      f first between = .ok (value, state') := by
  change Except.bind (parser state) _ = _ at h
  cases hparser : parser state with
  | error fault => rw [hparser] at h; exact nomatch h
  | ok pair =>
      rw [hparser] at h
      exact ⟨pair.1, pair.2, rfl, h⟩

section

variable {next : Option Kind} {parser : Parser α} {f : α → Parser β}
  {good : List Kind → β → Prop}

theorem ReadsAt.bind {P : List Kind → α → Prop} (hparser : ReadsAt next parser P)
    (hf : ∀ value before, P before value →
      Reads (f value) fun kinds result => good (before ++ kinds) result) :
    ReadsAt next (parser >>= f) good := by
  intro state value state' hnext h
  obtain ⟨middle, between, hmiddle, hrest⟩ := bind_eq_ok h
  obtain ⟨taken, htaken, hgood⟩ := hparser state middle between hnext hmiddle
  obtain ⟨behind, hbehind, hresult⟩ := hf middle _ hgood _ between value state' rfl hrest
  refine ⟨taken ++ behind, by rw [htaken, hbehind, List.append_assoc], ?_⟩
  rw [List.map_append]
  exact hresult

theorem Reads.bind {P : List Kind → α → Prop} (hparser : Reads parser P)
    (hf : ∀ value before, P before value →
      Reads (f value) fun kinds result => good (before ++ kinds) result) :
    Reads (parser >>= f) good :=
  fun next => (hparser next).bind hf

theorem Reads.pure {good : List Kind → α → Prop} {value : α} (h : good [] value) :
    Reads (Pure.pure value) good := by
  intro next state result state' _ hok
  obtain ⟨rfl, rfl⟩ := Prod.mk.inj (Except.ok.inj hok)
  exact ⟨[], rfl, h⟩

theorem Reads.unexpected {good : List Kind → α → Prop} {expected : Expected} :
    Reads (Parser.unexpected expected) good :=
  fun _ _ _ _ _ h => nomatch h

theorem Reads.fail {good : List Kind → α → Prop} {fault : ParseFault} {span : Span} :
    Reads (Parser.fail fault span) good :=
  fun _ _ _ _ _ h => nomatch h

theorem Reads.weaken {P good : List Kind → α → Prop} (hparser : Reads parser P)
    (h : ∀ kinds value, P kinds value → good kinds value) : Reads parser good := by
  intro next state value state' hnext hok
  obtain ⟨taken, htaken, hgood⟩ := hparser next state value state' hnext hok
  exact ⟨taken, htaken, h _ _ hgood⟩

/-! ## Looking ahead -/

theorem Reads.peek {f : Option Kind → Parser β} (h : ∀ next, ReadsAt next (f next) good) :
    Reads (Parser.peek >>= f) good := by
  intro next state value state' hnext hok
  exact h next state value state' hnext (hnext ▸ hok)

theorem Reads.peekToken {f : Option Token → Parser β} (hnone : ReadsAt none (f none) good)
    (hsome : ∀ token : Token, ReadsAt (some token.kind) (f (some token)) good) :
    Reads (Parser.peekToken >>= f) good := by
  intro next state value state' _ hok
  change f state.rest.head? state = _ at hok
  cases hhead : state.rest.head? with
  | none =>
      rw [hhead] at hok
      exact hnone state value state' (by rw [hhead]; rfl) hok
  | some token =>
      rw [hhead] at hok
      exact hsome token state value state' (by rw [hhead]; rfl) hok

theorem Reads.isNext {f : Bool → Parser β} {kind : Kind} (h : ∀ found, Reads (f found) good) :
    Reads (Parser.isNext kind >>= f) good :=
  fun next state value state' hnext hok => h _ next state value state' hnext hok

theorem ReadsAt.skip {f : Unit → Parser β} {kind : Kind}
    (h : Reads (f ()) fun kinds result => good (kind :: kinds) result) :
    ReadsAt (some kind) (Parser.skip >>= f) good := by
  intro state value state' hnext hok
  obtain ⟨middle, between, hskip, hrest⟩ := bind_eq_ok hok
  cases htokens : state.rest with
  | nil => rw [htokens] at hnext; exact nomatch hnext
  | cons token tokens =>
      rw [htokens] at hnext
      simp only [Parser.skip, htokens] at hskip
      obtain ⟨rfl, rfl⟩ := Prod.mk.inj (Except.ok.inj hskip)
      obtain ⟨taken, htaken, hgood⟩ := h _ _ value state' rfl hrest
      refine ⟨token :: taken, by rw [List.cons_append, ← htaken]; rfl, ?_⟩
      rw [List.map_cons, Option.some.inj hnext]
      exact hgood

theorem ReadsAt.enter {f : Unit → Parser β} {nesting : Nesting} (h : ReadsAt next (f ()) good) :
    ReadsAt next (Parser.enter nesting >>= f) good := by
  intro state value state' hnext hok
  obtain ⟨middle, between, henter, hrest⟩ := bind_eq_ok hok
  simp only [Parser.enter] at henter
  split at henter
  · obtain ⟨rfl, rfl⟩ := Prod.mk.inj (Except.ok.inj henter)
    exact h { state with depth := state.depth + 1 } value state' hnext hrest
  · exact nomatch henter

theorem Reads.enter {f : Unit → Parser β} {nesting : Nesting} (h : Reads (f ()) good) :
    Reads (Parser.enter nesting >>= f) good :=
  fun next => ReadsAt.enter (h next)

theorem Reads.leave {f : Unit → Parser β} {levels : Nat} (h : Reads (f ()) good) :
    Reads (Parser.leave levels >>= f) good :=
  fun next state value state' hnext hok =>
    h next { state with depth := state.depth - levels } value state' hnext hok

theorem Reads.lastSpan {f : Span → Parser β} (h : ∀ span, Reads (f span) good) :
    Reads (Parser.lastSpan >>= f) good :=
  fun next state value state' hnext hok => h _ next state value state' hnext hok

theorem Reads.placeFrom {f : Place → Parser β} {token : Token} (h : ∀ place, Reads (f place) good) :
    Reads (Parser.placeFrom token >>= f) good :=
  fun next state value state' hnext hok => h _ next state value state' hnext hok

end

/-! ## Single tokens -/

theorem eat_reads (kind : Kind) :
    Reads (eat kind) fun kinds found => kinds = if found then [kind] else [] := by
  intro next state value state' _ hok
  simp only [Parser.eat] at hok
  split at hok
  next token tokens htokens =>
    split at hok
    next hkind =>
      obtain ⟨rfl, rfl⟩ := Prod.mk.inj (Except.ok.inj hok)
      exact ⟨[token], htokens, by simp [hkind]⟩
    next =>
      obtain ⟨rfl, rfl⟩ := Prod.mk.inj (Except.ok.inj hok)
      exact ⟨[], rfl, rfl⟩
  next =>
    obtain ⟨rfl, rfl⟩ := Prod.mk.inj (Except.ok.inj hok)
    exact ⟨[], rfl, rfl⟩

theorem Reads.eat {kind : Kind} {f : Bool → Parser β} {good : List Kind → β → Prop}
    (htrue : Reads (f true) fun kinds result => good (kind :: kinds) result)
    (hfalse : Reads (f false) good) : Reads (Parser.eat kind >>= f) good := by
  refine (eat_reads kind).bind fun found before hbefore => ?_
  cases found with
  | true => subst hbefore; exact htrue
  | false => subst hbefore; exact hfalse

theorem Reads.expect {kind : Kind} {f : Span → Parser β} {good : List Kind → β → Prop}
    (h : ∀ span, Reads (f span) fun kinds result => good (kind :: kinds) result) :
    Reads (Parser.expect kind >>= f) good := by
  have hexpect : Reads (Parser.expect kind) fun kinds _ => kinds = [kind] :=
    Reads.eat (Reads.weaken (P := fun kinds _ => kinds = []) (fun _ _ _ _ _ hok => by
      obtain ⟨rfl, rfl⟩ := Prod.mk.inj (Except.ok.inj hok)
      exact ⟨[], rfl, rfl⟩) fun _ _ hnil => by rw [hnil]) Reads.unexpected
  exact hexpect.bind fun span before hbefore => hbefore ▸ h span

theorem Reads.identifier {f : String × Span → Parser β} {good : List Kind → β → Prop}
    (h : ∀ name span,
      Reads (f (name, span)) fun kinds result => good (.identifier name :: kinds) result) :
    Reads (Parser.identifier >>= f) good := by
  have hidentifier :
      Reads Parser.identifier fun kinds found => kinds = [.identifier found.1] := by
    intro next state value state' _ hok
    simp only [Parser.identifier] at hok
    split at hok
    next token tokens htokens =>
      split at hok
      next name hkind =>
        obtain ⟨rfl, rfl⟩ := Prod.mk.inj (Except.ok.inj hok)
        exact ⟨[token], htokens, by simp [hkind]⟩
      next => exact nomatch hok
    next => exact nomatch hok
  exact hidentifier.bind fun found before hbefore => hbefore ▸ h found.1 found.2

/-! ## Expressions -/

/-- A way to put two operands together makes the node of an operator that chains. -/
inductive Builds : (Span → Expr → Expr → Expr) → Prop where
  | binary (op : BinaryOp) : Builds (.binary · op)
  | logical (op : LogicalOp) : Builds (.logical · op)

/-- All operators of a chain make such nodes. -/
def Chains (operator : Kind → Option (Span → Expr → Expr → Expr)) : Prop :=
  ∀ kind node, operator kind = some node → Builds node

theorem disjunctionOp_chains : Chains disjunctionOp := by
  intro kind node h
  unfold disjunctionOp at h
  split at h <;> cases h
  exact .logical .or

theorem conjunctionOp_chains : Chains conjunctionOp := by
  intro kind node h
  unfold conjunctionOp at h
  split at h <;> cases h
  exact .logical .and

theorem sumOp_chains : Chains sumOp := by
  intro kind node h
  unfold sumOp at h
  split at h <;> cases h
  · exact .binary .add
  · exact .binary .sub

theorem productOp_chains : Chains productOp := by
  intro kind node h
  unfold productOp at h
  split at h <;> cases h
  · exact .binary .mul
  · exact .binary .floorDiv
  · exact .binary .mod

/-- The operators of a parser at a level are those of the grammar, and make its nodes. -/
structure Implements (level : Level) (operator : Kind → Option (Span → Expr → Expr → Expr)) :
    Prop where
  joins {kind node} : operator kind = some node → ∀ span left right,
    Joins level kind left.bare right.bare (node span left right).bare
  finds {kind left right expr} : Joins level kind left right expr →
    ∃ node, operator kind = some node ∧ ∀ span left' right', left'.bare = left →
      right'.bare = right → (node span left' right').bare = expr

theorem disjunctionOp_implements : Implements .disjunction disjunctionOp where
  joins h := by
    unfold disjunctionOp at h
    split at h <;> cases h
    exact fun _ _ _ => .or
  finds h := by
    cases h with
    | or => exact ⟨_, rfl, fun _ _ _ hleft hright => hleft ▸ hright ▸ rfl⟩

theorem conjunctionOp_implements : Implements .conjunction conjunctionOp where
  joins h := by
    unfold conjunctionOp at h
    split at h <;> cases h
    exact fun _ _ _ => .and
  finds h := by
    cases h with
    | and => exact ⟨_, rfl, fun _ _ _ hleft hright => hleft ▸ hright ▸ rfl⟩

theorem sumOp_implements : Implements .sum sumOp where
  joins h := by
    unfold sumOp at h
    split at h <;> cases h
    · exact fun _ _ _ => .plus
    · exact fun _ _ _ => .minus
  finds h := by
    cases h with
    | plus => exact ⟨_, rfl, fun _ _ _ hleft hright => hleft ▸ hright ▸ rfl⟩
    | minus => exact ⟨_, rfl, fun _ _ _ hleft hright => hleft ▸ hright ▸ rfl⟩

theorem productOp_implements : Implements .product productOp where
  joins h := by
    unfold productOp at h
    split at h <;> cases h
    · exact fun _ _ _ => .star
    · exact fun _ _ _ => .floorDivide
    · exact fun _ _ _ => .percent
  finds h := by
    cases h with
    | star => exact ⟨_, rfl, fun _ _ _ hleft hright => hleft ▸ hright ▸ rfl⟩
    | floorDivide => exact ⟨_, rfl, fun _ _ _ hleft hright => hleft ▸ hright ▸ rfl⟩
    | percent => exact ⟨_, rfl, fun _ _ _ hleft hright => hleft ▸ hright ▸ rfl⟩

theorem compareOp_eq_some_iff {kind : Kind} {op : CompareOp} :
    compareOp kind = some op ↔ Compares kind op := by
  constructor
  · intro h
    unfold compareOp at h
    split at h <;> cases h <;> constructor
  · intro h
    cases h <;> rfl

/-- The parser consumes what makes up an expression of a level, and gives that expression. -/
abbrev ReadsLevel (level : Level) (parser : Parser Expr) : Prop :=
  Reads parser fun kinds expr => Derives level kinds expr.bare

section

variable {level next : Level} {parser : Parser Expr}
  {operator : Kind → Option (Span → Expr → Expr → Expr)}

theorem chain_reads (hoperator : Implements level operator) (hnext : level.stronger = some next)
    (hoperand : ReadsLevel next parser) (rounds : Nat) :
    ∀ held left before, Derives level before left.bare →
      Reads (chain operator parser rounds held left) fun kinds expr =>
        Derives level (before ++ kinds) expr.bare := by
  induction rounds with
  | zero => exact fun _ _ _ _ => Reads.unexpected
  | succ rounds ih =>
      intro held left before hleft
      unfold chain
      refine Reads.peek fun found => ?_
      split
      next =>
        refine Reads.leave ?_ _
        exact Reads.pure (by simpa using hleft)
      next node hnode =>
        -- The left operand grows by what was read, which keeps the chain left-associative.
        obtain ⟨kind, rfl, hkind⟩ := Option.bind_eq_some_iff.mp hnode
        refine ReadsAt.skip (Reads.enter (hoperand.bind fun right behind hright => ?_))
        have hjoins := hoperator.joins hkind (left.span.join right.span) left right
        exact (ih _ _ _ (.chain hleft hnext hright hjoins)).weaken
          fun kinds expr h => by simpa using h

theorem leftChain_reads (hoperator : Implements level operator)
    (hnext : level.stronger = some next) (hoperand : ReadsLevel next parser) (rounds : Nat) :
    ReadsLevel level (leftChain rounds operator parser) :=
  hoperand.bind fun left before hleft =>
    chain_reads hoperator hnext hoperand rounds 0 left before (.stronger hnext hleft)

theorem signed_reads {sign : Kind} {op : UnaryOp} (hsign : Prefixes level sign op)
    (hnext : level.stronger = some next) (hoperand : ReadsLevel next parser) (rounds : Nat) :
    ReadsLevel level (signed sign op parser rounds) := by
  induction rounds with
  | zero => exact Reads.unexpected
  | succ rounds ih =>
      refine Reads.eat ?_ (hoperand.weaken fun kinds expr h => .stronger hnext h)
      refine Reads.lastSpan fun start => Reads.enter (ih.bind fun inner kinds hinner => ?_)
      exact Reads.leave (Reads.pure (by simpa [Expr.bare] using Derives.signed hsign hinner))

variable {rounds : Nat} {expression : Parser Expr}

theorem arguments_reads (hexpression : ReadsLevel .disjunction expression) (rounds : Nat) :
    ∀ read, Reads (arguments expression rounds read) fun kinds args =>
      ∃ more, args = read.reverse ++ more ∧ Arguments kinds (bareExprs more) := by
  induction rounds with
  | zero => exact fun _ => Reads.unexpected
  | succ rounds ih =>
      intro read
      refine Reads.isNext fun found => ?_
      split
      next => exact Reads.pure ⟨[], by simp, .nil⟩
      next =>
        refine hexpression.bind fun arg kinds harg => Reads.eat ?_ ?_
        · refine (ih (arg :: read)).weaken fun rest args => ?_
          rintro ⟨more, rfl, hmore⟩
          exact ⟨arg :: more, by simp, .cons harg hmore⟩
        · refine Reads.pure ⟨[arg], by simp, ?_⟩
          rw [List.append_nil]
          exact .last harg

theorem atom_reads (hexpression : ReadsLevel .disjunction expression) :
    ReadsLevel .atom (atom expression) := by
  have leaf {kind : Kind} {expr : Expr} (h : Leaf kind expr.bare) :
      ReadsAt (some kind) (skip >>= fun _ => Pure.pure expr) fun kinds expr =>
        Derives .atom kinds expr.bare :=
    ReadsAt.skip (Reads.pure (.leaf h))
  refine Reads.peekToken (Reads.unexpected _) fun token => ?_
  obtain ⟨kind, span, line, column⟩ := token
  cases kind with
  | integer value => exact leaf (.integer value)
  | text value => exact leaf (.text value)
  | identifier name => exact leaf (.name name)
  | keyword word =>
      cases word with
      | trueWord => exact leaf .trueWord
      | falseWord => exact leaf .falseWord
      | noneWord => exact leaf .noneWord
      | _ => exact Reads.unexpected _
  | symbol sign =>
      cases sign with
      | openParen =>
          refine ReadsAt.skip (hexpression.bind fun inner kinds hinner => ?_)
          refine Reads.expect fun close => Reads.pure ?_
          rw [Expr.bare_withSpan]
          exact .parens hinner
      | _ => exact Reads.unexpected _
  | _ => exact Reads.unexpected _

theorem trailers_reads (hexpression : ReadsLevel .disjunction expression) (rounds' : Nat) :
    ∀ held object before, Derives .trailed before object.bare →
      Reads (trailers rounds expression rounds' held object) fun kinds expr =>
        Derives .trailed (before ++ kinds) expr.bare := by
  induction rounds' with
  | zero => exact fun _ _ _ _ => Reads.unexpected
  | succ rounds' ih =>
      intro held object before hobject
      unfold trailers
      refine Reads.peek fun found => ?_
      split
      next =>
        refine ReadsAt.enter (ReadsAt.skip ?_)
        refine (arguments_reads hexpression rounds []).bind fun args kinds hargs => ?_
        obtain ⟨more, rfl, hmore⟩ := hargs
        refine Reads.expect fun close => ?_
        exact (ih _ _ _ (.call hobject hmore)).weaken fun kinds expr h => by simpa using h
      next =>
        refine ReadsAt.enter (ReadsAt.skip (Reads.identifier fun name span => ?_))
        exact (ih _ _ _ (.member hobject)).weaken fun kinds expr h => by simpa using h
      next =>
        refine Reads.leave ?_ _
        exact Reads.pure (by simpa using hobject)

theorem comparison_reads (hsum : ReadsLevel .sum (sum rounds expression)) :
    ReadsLevel .comparison (comparison rounds expression) := by
  refine hsum.bind fun left before hleft => Reads.peek fun found => ?_
  split
  next => exact Reads.pure (by simpa using .stronger rfl hleft) _
  next op hop =>
    obtain ⟨kind, rfl, hkind⟩ := Option.bind_eq_some_iff.mp hop
    refine ReadsAt.skip (hsum.bind fun right behind hright => ?_)
    have hpure : Reads (Pure.pure (combine (.compare · op) left right) : Parser Expr)
        fun kinds expr => Derives .comparison (before ++ kind :: (behind ++ kinds)) expr.bare :=
      Reads.pure (by simpa using .compare hleft (compareOp_eq_some_iff.mp hkind) hright)
    -- A second comparison behind the first one is an error, so only one is read.
    refine Reads.peekToken (hpure _) fun token => ?_
    dsimp only
    split
    next => exact Reads.bind (P := fun _ _ => False) Reads.fail (fun _ _ h => h.elim) _
    next => exact hpure _

theorem disjunction_reads (hexpression : ReadsLevel .disjunction expression) :
    ReadsLevel .disjunction (disjunction rounds expression) := by
  have htrailed : ReadsLevel .trailed (trailed rounds expression) :=
    (atom_reads hexpression).bind fun object before hobject =>
      trailers_reads hexpression rounds 0 object before (.stronger rfl hobject)
  have hfactor := signed_reads .minus rfl htrailed rounds
  have hproduct := leftChain_reads productOp_implements rfl hfactor rounds
  have hsum := leftChain_reads sumOp_implements rfl hproduct rounds
  have hnegation := signed_reads .not rfl (comparison_reads hsum) rounds
  have hconjunction := leftChain_reads conjunctionOp_implements rfl hnegation rounds
  exact leftChain_reads disjunctionOp_implements rfl hconjunction rounds

theorem expressionWithin_reads (levels : Nat) :
    ReadsLevel .disjunction (expressionWithin rounds levels) := by
  induction levels with
  | zero => exact Reads.unexpected
  | succ levels ih =>
      refine Reads.enter ((disjunction_reads ih).bind fun expr kinds hexpr => ?_)
      exact Reads.leave (Reads.pure (by simpa using hexpr))

end

/-! ## Statements -/

theorem expression_reads (rounds : Nat) : Reads (expression rounds) fun kinds expr =>
    Expression kinds expr.bare :=
  expressionWithin_reads rounds

theorem simple_reads (rounds : Nat) :
    Reads (simple rounds) fun kinds stmt => ∀ place, Simple kinds (stmt place).bare := by
  refine Reads.peek fun found => ?_
  split
  case h_1 => exact ReadsAt.skip (Reads.pure fun _ => .pass)
  case h_2 => exact ReadsAt.skip (Reads.pure fun _ => .breakLoop)
  case h_3 => exact ReadsAt.skip (Reads.pure fun _ => .continueLoop)
  case h_4 =>
    refine ReadsAt.skip (Reads.isNext fun found => ?_)
    split
    next => exact Reads.pure fun _ => .giveBack
    next =>
      refine (expression_reads rounds).bind fun value kinds hvalue => Reads.pure fun _ => ?_
      simpa using .giveBackValue hvalue
  case h_5 =>
    exact ReadsAt.skip (Reads.identifier fun name span => Reads.pure fun _ => .importModule)
  case h_6 =>
    refine ReadsAt.skip ((expression_reads rounds).bind fun test kinds htest => Reads.eat ?_ ?_)
    · refine (expression_reads rounds).bind fun message behind hmessage => Reads.pure fun _ => ?_
      simpa using .assertMessage htest hmessage
    · exact Reads.pure fun _ => by simpa using .assert htest
  case h_7 =>
    refine ((expression_reads rounds).bind fun target kinds htarget => Reads.eat ?_ ?_) found
    · refine (expression_reads rounds).bind fun value behind hvalue => Reads.pure fun _ => ?_
      simpa using .assign htarget hvalue
    · exact Reads.pure fun _ => by simpa using .expr htarget

theorem simpleLine_reads (rounds : Nat) (first : Token) :
    Reads (simpleLine rounds first) fun kinds stmt =>
      ∃ line, kinds = line ++ [.newline] ∧ Simple line stmt.bare := by
  refine (simple_reads rounds).bind fun stmt kinds hstmt => Reads.expect fun span => ?_
  exact Reads.placeFrom fun place => Reads.pure ⟨kinds, rfl, hstmt place⟩

section

variable {rounds : Nat} {statement : Parser Stmt}

theorem statements_reads (hstatement : Reads statement fun kinds stmt => Statement kinds stmt.bare)
    (rounds : Nat) :
    ∀ read, Reads (statements statement rounds read) fun kinds body =>
      ∃ more inner, body = read.reverse ++ more ∧ kinds = inner ++ [.dedent] ∧
        Statements inner (Block.bare more) := by
  induction rounds with
  | zero => exact fun _ => Reads.unexpected
  | succ rounds ih =>
      intro read
      refine Reads.eat (Reads.pure ⟨[], [], by simp, rfl, .nil⟩) ?_
      refine hstatement.bind fun stmt before hstmt => (ih (stmt :: read)).weaken fun rest body => ?_
      rintro ⟨more, inner, rfl, rfl, hmore⟩
      exact ⟨stmt :: more, before ++ inner, by simp, by simp, .cons hstmt hmore⟩

theorem block_reads (hstatement : Reads statement fun kinds stmt => Statement kinds stmt.bare) :
    Reads (block rounds statement) fun kinds body => Suite kinds (Block.bare body) := by
  refine Reads.eat (Reads.eat (Reads.enter ?_) Reads.unexpected) ?_
  · refine (statements_reads hstatement rounds []).bind fun body kinds hbody => Reads.leave ?_
    obtain ⟨more, inner, rfl, rfl, hmore⟩ := hbody
    exact Reads.pure (by simpa using .indented hmore)
  · refine Reads.peekToken (Reads.unexpected _) fun first => ?_
    refine ((simpleLine_reads rounds first).bind fun stmt kinds hstmt => ?_) _
    obtain ⟨line, rfl, hline⟩ := hstmt
    exact Reads.pure (by simpa using .line hline)

theorem guarded_reads (hstatement : Reads statement fun kinds stmt => Statement kinds stmt.bare) :
    Reads (guarded rounds statement) fun kinds found =>
      ∃ before behind, kinds = before ++ .symbol .colon :: behind ∧
        Expression before found.1.bare ∧ Suite behind (Block.bare found.2) := by
  refine (expression_reads rounds).bind fun condition before hcondition => Reads.expect fun _ => ?_
  refine (block_reads hstatement).bind fun body behind hbody => Reads.pure ?_
  exact ⟨before, behind, by simp, hcondition, hbody⟩

theorem alternative_reads
    (hstatement : Reads statement fun kinds stmt => Statement kinds stmt.bare) (rounds' : Nat) :
    Reads (alternative rounds statement rounds') fun kinds rest => Rest kinds rest.bare := by
  induction rounds' with
  | zero => exact Reads.unexpected
  | succ rounds' ih =>
      refine Reads.eat ?_ (Reads.eat ?_ (Reads.pure .nothing))
      · refine (guarded_reads hstatement).bind fun found kinds hfound => ?_
        obtain ⟨before, between, rfl, hcondition, hbody⟩ := hfound
        refine ih.bind fun rest behind hrest => Reads.pure ?_
        simpa using .elif hcondition hbody hrest
      · refine Reads.expect fun _ => (block_reads hstatement).bind fun body kinds hbody => ?_
        exact Reads.pure (by simpa using .otherwise hbody)

theorem parameters_reads (rounds : Nat) :
    ∀ read, Reads (parameters rounds read) fun kinds params =>
      ∃ more, params = read.reverse ++ more ∧ Parameters kinds (more.map Param.bare) := by
  induction rounds with
  | zero => exact fun _ => Reads.unexpected
  | succ rounds ih =>
      intro read
      refine Reads.isNext fun found => ?_
      split
      next => exact Reads.pure ⟨[], by simp, .nil⟩
      next =>
        refine Reads.identifier fun name span => Reads.eat ?_ ?_
        · refine (ih _).weaken fun rest params => ?_
          rintro ⟨more, rfl, hmore⟩
          exact ⟨⟨name, span⟩ :: more, by simp, .cons hmore⟩
        · exact Reads.pure ⟨[⟨name, span⟩], by simp, .last⟩

theorem definition_reads
    (hstatement : Reads statement fun kinds stmt => Statement kinds stmt.bare) :
    Reads (definition rounds statement) fun kinds stmt =>
      ∀ place, Statement (.keyword .defWord :: kinds) (stmt place).bare := by
  refine Reads.identifier fun name _ => Reads.expect fun _ => ?_
  refine (parameters_reads rounds []).bind fun params kinds hparams => ?_
  obtain ⟨more, rfl, hmore⟩ := hparams
  refine Reads.expect fun _ => Reads.expect fun _ => ?_
  refine (block_reads hstatement).bind fun body behind hbody => Reads.pure fun place => ?_
  simpa [Stmt.bare] using .define hmore hbody

end

theorem statementWithin_reads (rounds levels : Nat) :
    Reads (statementWithin rounds levels) fun kinds stmt => Statement kinds stmt.bare := by
  induction levels with
  | zero => exact Reads.unexpected
  | succ levels ih =>
      refine Reads.peekToken (Reads.unexpected _) fun first => ?_
      dsimp only
      split
      next hkind =>
        rw [hkind]
        refine ReadsAt.skip ((guarded_reads ih).bind fun found kinds hfound => ?_)
        obtain ⟨before, between, rfl, hcondition, hbody⟩ := hfound
        refine (alternative_reads ih rounds).bind fun rest behind hrest => ?_
        refine Reads.placeFrom fun place => Reads.pure ?_
        simpa [Stmt.bare] using .branch hcondition hbody hrest
      next hkind =>
        rw [hkind]
        refine ReadsAt.skip ((guarded_reads ih).bind fun found kinds hfound => ?_)
        obtain ⟨before, behind, rfl, hcondition, hbody⟩ := hfound
        refine Reads.placeFrom fun place => Reads.pure ?_
        simpa [Stmt.bare] using .loop hcondition hbody
      next hkind =>
        rw [hkind]
        refine ReadsAt.skip ((definition_reads ih).bind fun stmt kinds hstmt => ?_)
        exact Reads.placeFrom fun place => Reads.pure (by simpa using hstmt place)
      next => exact Reads.fail _
      next =>
        refine (simpleLine_reads rounds first).weaken (fun kinds stmt => ?_) _
        rintro ⟨line, rfl, hline⟩
        exact .simple hline

/-- What the reader of programs consumes makes up the program that it gives. -/
theorem program_reads (rounds rounds' : Nat) :
    ∀ read, Reads (program rounds rounds' read) fun kinds body =>
      ∃ more, body = read.reverse ++ more ∧ Program kinds (Block.bare more) := by
  induction rounds' with
  | zero => exact fun _ => Reads.unexpected
  | succ rounds' ih =>
      intro read
      have hend : Reads (expect .endOfFile >>= fun _ => Pure.pure read.reverse)
          fun kinds body => ∃ more, body = read.reverse ++ more ∧ Program kinds (Block.bare more) :=
        Reads.expect fun _ => Reads.pure ⟨[], by simp, .intro .nil⟩
      refine Reads.peek fun next => ?_
      split
      next => exact hend _
      next => exact hend _
      next =>
        refine ((statementWithin_reads rounds rounds).bind fun stmt before hstmt => ?_) _
        refine (ih (stmt :: read)).weaken fun rest body => ?_
        rintro ⟨more, rfl, hmore⟩
        obtain ⟨hmore⟩ := hmore
        refine ⟨stmt :: more, by simp, ?_⟩
        rw [← List.append_assoc]
        exact .intro (.cons hstmt hmore)

end FrozenScript.Parser
