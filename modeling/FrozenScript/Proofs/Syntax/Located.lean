import FrozenScript.Proofs.Syntax.Parse
import FrozenScript.Proofs.Syntax.Written
import FrozenScript.Proofs.Token.Coverage

/-!
# Where the nodes of a program stand

`Locates before parser good` follows a parser through tokens that are in order. It keeps the tokens
that were consumed since some node began, because the place of the node is made of the first of them
and of the one consumed last. There is one lemma for each reader, which says that the result is
written by the tokens consumed.

The main statement, `parse_spans_exact`, is about every source that is read as a program.
-/

namespace FrozenScript

open Text Grammar

/-- Some tokens have just been consumed, and they are in order with those that are left. -/
structure ParseState.Behind (before : List Token) (state : ParseState) : Prop where
  ordered : InOrder (before ++ state.rest)
  last : ∀ token ∈ before.getLast?, state.last = some token

namespace ParseState

variable {state state' : ParseState} {before taken : List Token}

theorem Behind.start (h : state.Behind before) : state.Behind [] :=
  ⟨h.ordered.right, nofun⟩

theorem Behind.moves (h : state.Behind before) (hmoves : state.Moves taken state') :
    state'.Behind (before ++ taken) where
  ordered := by
    rw [List.append_assoc, ← hmoves.rest]
    exact h.ordered
  last token htoken := by
    rw [hmoves.last]
    rw [List.getLast?_append] at htoken
    cases hlast : taken.getLast? with
    | none => exact h.last token (by rwa [hlast] at htoken)
    | some last => rwa [hlast] at htoken

end ParseState

namespace Parser

variable {α β : Type}

/-- Whenever the parser succeeds behind the given tokens and before the given one, or at the end of
the tokens, the predicate holds of the given tokens with those it consumed, and of its result. -/
def LocatesAt (next : Option Token) (before : List Token) (parser : Parser α)
    (good : List Token → α → Prop) : Prop :=
  ∀ state value state', state.Behind before → state.rest.head? = next →
    parser state = .ok (value, state') →
    ∃ taken, state.Moves taken state' ∧ good (before ++ taken) value

/-- Whenever the parser succeeds behind the given tokens, the predicate holds of them with those it
consumed, and of its result. -/
def Locates (before : List Token) (parser : Parser α) (good : List Token → α → Prop) : Prop :=
  ∀ next, LocatesAt next before parser good

section

variable {next : Option Token} {before : List Token} {parser : Parser α} {f : α → Parser β}
  {good : List Token → β → Prop} {P : List Token → α → Prop}

/-- A parser whose result stands for the tokens that it consumes itself, of which the first one is
the next token. -/
theorem LocatesAt.bind (hparser : LocatesAt next [] parser P)
    (hf : ∀ value taken, P taken value → (∀ token ∈ taken.head?, next = some token) →
      Locates (before ++ taken) (f value) good) :
    LocatesAt next before (parser >>= f) good := by
  intro state value state' hstate hnext hok
  obtain ⟨middle, between, hmiddle, hrest⟩ := bind_eq_ok hok
  obtain ⟨taken, htaken, hgood⟩ := hparser state middle between hstate.start hnext hmiddle
  have hfirst : ∀ token ∈ taken.head?, next = some token := by
    intro token htoken
    rw [← hnext, htaken.rest, List.head?_append, htoken, Option.some_or]
  obtain ⟨behind, hbehind, hresult⟩ :=
    hf middle taken hgood hfirst _ between value state' (hstate.moves htaken) rfl hrest
  exact ⟨taken ++ behind, htaken.trans hbehind, List.append_assoc before taken behind ▸ hresult⟩

theorem Locates.bind (hparser : Locates [] parser P)
    (hf : ∀ value taken, P taken value → Locates (before ++ taken) (f value) good) :
    Locates before (parser >>= f) good :=
  fun next => (hparser next).bind fun value taken hgood _ => hf value taken hgood

theorem LocatesAt.weaken {parser : Parser β} {P : List Token → β → Prop}
    (hparser : LocatesAt next [] parser P)
    (h : ∀ value taken, P taken value → good (before ++ taken) value) :
    LocatesAt next before parser good := by
  intro state value state' hstate hnext hok
  obtain ⟨taken, htaken, hgood⟩ := hparser state value state' hstate.start hnext hok
  exact ⟨taken, htaken, h value taken hgood⟩

theorem Locates.weaken {parser : Parser β} {P : List Token → β → Prop}
    (hparser : Locates [] parser P)
    (h : ∀ value taken, P taken value → good (before ++ taken) value) :
    Locates before parser good :=
  fun next => (hparser next).weaken h

/-- The tokens consumed may be taken to be in order. -/
theorem Locates.ordered {parser : Parser β} (h : InOrder before → Locates before parser good) :
    Locates before parser good :=
  fun next state value state' hstate hnext hok =>
    h hstate.ordered.left next state value state' hstate hnext hok

theorem Locates.pure {value : β} (h : good before value) :
    Locates before (Pure.pure value) good := by
  intro next state result state' _ _ hok
  obtain ⟨rfl, rfl⟩ := Prod.mk.inj (Except.ok.inj hok)
  exact ⟨[], .refl state, (List.append_nil before).symm ▸ h⟩

theorem Locates.unexpected {expected : Expected} :
    Locates before (Parser.unexpected expected) good :=
  fun _ _ _ _ _ _ hok => nomatch hok

theorem Locates.fail {fault : ParseFault} {span : Span} :
    Locates before (Parser.fail fault span) good :=
  fun _ _ _ _ _ _ hok => nomatch hok

/-! ## Looking ahead -/

theorem Locates.peek {f : Option Kind → Parser β}
    (h : ∀ next : Option Token, LocatesAt next before (f (next.map Token.kind)) good) :
    Locates before (Parser.peek >>= f) good := by
  intro next state value state' hstate hnext hok
  exact h next state value state' hstate hnext (hnext ▸ hok)

theorem Locates.peekToken {f : Option Token → Parser β}
    (h : ∀ next, LocatesAt next before (f next) good) :
    Locates before (Parser.peekToken >>= f) good := by
  intro next state value state' hstate hnext hok
  exact h next state value state' hstate hnext (hnext ▸ hok)

theorem Locates.isNext {f : Bool → Parser β} {kind : Kind}
    (h : ∀ found, Locates before (f found) good) :
    Locates before (Parser.isNext kind >>= f) good :=
  fun next state value state' hstate hnext hok => h _ next state value state' hstate hnext hok

theorem LocatesAt.skip {f : Unit → Parser β} {token : Token}
    (h : Locates (before ++ [token]) (f ()) good) :
    LocatesAt (some token) before (Parser.skip >>= f) good := by
  intro state value state' hstate hnext hok
  obtain ⟨middle, between, hskip, hrest⟩ := bind_eq_ok hok
  obtain ⟨tokens, htokens⟩ := List.head?_eq_some_iff.mp hnext
  simp only [Parser.skip, htokens] at hskip
  obtain ⟨rfl, rfl⟩ := Prod.mk.inj (Except.ok.inj hskip)
  have hmoves := ParseState.Moves.advance htokens
  obtain ⟨behind, hbehind, hgood⟩ := h _ _ value state' (hstate.moves hmoves) rfl hrest
  exact ⟨token :: behind, hmoves.trans hbehind, List.append_assoc before [token] behind ▸ hgood⟩

/-- Consuming a next token of which only the kind is known. -/
theorem LocatesAt.skipKind {f : Unit → Parser β} {kind : Kind}
    (hnext : next.map Token.kind = some kind)
    (h : ∀ token, token.kind = kind → Locates (before ++ [token]) (f ()) good) :
    LocatesAt next before (Parser.skip >>= f) good := by
  obtain ⟨token, rfl, hkind⟩ := Option.map_eq_some_iff.mp hnext
  exact LocatesAt.skip (h token hkind)

theorem LocatesAt.enter {f : Unit → Parser β} {nesting : Nesting}
    (h : LocatesAt next before (f ()) good) :
    LocatesAt next before (Parser.enter nesting >>= f) good := by
  intro state value state' hstate hnext hok
  obtain ⟨middle, between, henter, hrest⟩ := bind_eq_ok hok
  simp only [Parser.enter] at henter
  split at henter
  · obtain ⟨rfl, rfl⟩ := Prod.mk.inj (Except.ok.inj henter)
    obtain ⟨taken, htaken, hgood⟩ :=
      h { state with depth := state.depth + 1 } value state' ⟨hstate.ordered, hstate.last⟩ hnext
        hrest
    exact ⟨taken, ⟨htaken.rest, htaken.last⟩, hgood⟩
  · cases henter

theorem Locates.enter {f : Unit → Parser β} {nesting : Nesting} (h : Locates before (f ()) good) :
    Locates before (Parser.enter nesting >>= f) good :=
  fun next => LocatesAt.enter (h next)

theorem Locates.leave {f : Unit → Parser β} {levels : Nat} (h : Locates before (f ()) good) :
    Locates before (Parser.leave levels >>= f) good := by
  intro next state value state' hstate hnext hok
  obtain ⟨taken, htaken, hgood⟩ :=
    h next { state with depth := state.depth - levels } value state'
      ⟨hstate.ordered, hstate.last⟩ hnext hok
  exact ⟨taken, ⟨htaken.rest, htaken.last⟩, hgood⟩

theorem Locates.lastSpan {f : Span → Parser β} {token : Token}
    (h : Locates (before ++ [token]) (f token.span) good) :
    Locates (before ++ [token]) (Parser.lastSpan >>= f) good := by
  intro next state value state' hstate hnext hok
  have hlast : state.lastSpan = token.span := by
    rw [ParseState.lastSpan, hstate.last token (by rw [List.getLast?_concat]; rfl)]
  exact h next state value state' hstate hnext (hlast ▸ hok)

/-- The place of what was written since its first token. -/
theorem Locates.placeFrom {f : Place → Parser β} {first : Token}
    (hfirst : before.head? = some first) (h : Locates before (f (placeOf before)) good) :
    Locates before (Parser.placeFrom first >>= f) good := by
  intro next state value state' hstate hnext hok
  obtain ⟨last, hlast⟩ := exists_getLast? (List.ne_nil_of_mem (List.mem_of_head? hfirst))
  have hspan : first.span.join state.lastSpan = spanOf before := by
    rw [ParseState.lastSpan, hstate.last last hlast]
    exact join_eq_spanOf hstate.ordered.left hfirst hlast
  have hplace : placeOf before = ⟨first.span.join state.lastSpan, first.line⟩ := by
    rw [placeOf, hspan, hfirst]
    rfl
  exact h next state value state' hstate hnext (hplace ▸ hok)

end

/-! ## Single tokens -/

section

variable {before : List Token} {good : List Token → β → Prop}

theorem Locates.eat {f : Bool → Parser β} {kind : Kind}
    (htrue : ∀ token, token.kind = kind → Locates (before ++ [token]) (f true) good)
    (hfalse : Locates before (f false) good) : Locates before (Parser.eat kind >>= f) good := by
  have heat : Locates [] (Parser.eat kind) fun tokens found =>
      if found then ∃ token, tokens = [token] ∧ token.kind = kind else tokens = [] := by
    intro next state value state' _ _ hok
    simp only [Parser.eat] at hok
    split at hok
    next token tokens htokens =>
      split at hok
      next hkind =>
        obtain ⟨rfl, rfl⟩ := Prod.mk.inj (Except.ok.inj hok)
        exact ⟨[token], .advance htokens, token, rfl, hkind⟩
      next =>
        obtain ⟨rfl, rfl⟩ := Prod.mk.inj (Except.ok.inj hok)
        exact ⟨[], .refl state, rfl⟩
    next =>
      obtain ⟨rfl, rfl⟩ := Prod.mk.inj (Except.ok.inj hok)
      exact ⟨[], .refl state, rfl⟩
  refine heat.bind fun found taken htaken => ?_
  cases found with
  | true =>
      obtain ⟨token, rfl, hkind⟩ := htaken
      exact htrue token hkind
  | false =>
      obtain rfl : taken = [] := htaken
      rwa [List.append_nil]

theorem Locates.expect {f : Span → Parser β} {kind : Kind}
    (h : ∀ token, token.kind = kind → Locates (before ++ [token]) (f token.span) good) :
    Locates before (Parser.expect kind >>= f) good := by
  have hexpect : Locates [] (Parser.expect kind) fun tokens span =>
      ∃ token, tokens = [token] ∧ token.kind = kind ∧ span = token.span := by
    refine Locates.eat (fun token hkind => ?_) Locates.unexpected
    exact Locates.lastSpan (f := Pure.pure) (Locates.pure ⟨token, rfl, hkind, rfl⟩)
  refine hexpect.bind fun span taken htaken => ?_
  obtain ⟨token, rfl, hkind, rfl⟩ := htaken
  exact h token hkind

theorem Locates.identifier {f : String × Span → Parser β}
    (h : ∀ token name, token.kind = .identifier name →
      Locates (before ++ [token]) (f (name, token.span)) good) :
    Locates before (Parser.identifier >>= f) good := by
  have hidentifier : Locates [] Parser.identifier fun tokens found =>
      ∃ token, tokens = [token] ∧ token.kind = .identifier found.1 ∧ found.2 = token.span := by
    intro next state value state' _ _ hok
    simp only [Parser.identifier] at hok
    split at hok
    next token tokens htokens =>
      split at hok
      next name hkind =>
        obtain ⟨rfl, rfl⟩ := Prod.mk.inj (Except.ok.inj hok)
        exact ⟨[token], .advance htokens, token, rfl, hkind, rfl⟩
      next => cases hok
    next => cases hok
  refine hidentifier.bind fun found taken htaken => ?_
  obtain ⟨name, span⟩ := found
  obtain ⟨token, rfl, hkind, rfl⟩ := htaken
  exact h token name hkind

end

/-! ## Expressions -/

/-- The parser consumes what makes up an expression of a level, and gives that expression with its
spans. -/
abbrev LocatesLevel (level : Level) (parser : Parser Expr) : Prop :=
  Locates [] parser (Written level)

/-- An operator puts any two operands together, bare or not. -/
theorem Builds.exists_joins {node : Span → Expr → Expr → Expr} (hnode : Builds node) {level : Level}
    {kind : Kind} {left right : Expr} {span : Span}
    (h : Joins level kind left.bare right.bare (node span left right).bare) :
    ∃ expr, Joins level kind left right expr ∧
      ∀ span, expr.withSpan span = node span left right := by
  cases hnode with
  | binary op =>
      rw [Expr.bare] at h
      cases h with
      | plus => exact ⟨_, .plus, fun _ => rfl⟩
      | minus => exact ⟨_, .minus, fun _ => rfl⟩
      | star => exact ⟨_, .star, fun _ => rfl⟩
      | floorDivide => exact ⟨_, .floorDivide, fun _ => rfl⟩
      | percent => exact ⟨_, .percent, fun _ => rfl⟩
  | logical op =>
      rw [Expr.bare] at h
      cases h with
      | or => exact ⟨_, .or, fun _ => rfl⟩
      | and => exact ⟨_, .and, fun _ => rfl⟩

section

variable {level next : Level} {parser : Parser Expr}
  {operator : Kind → Option (Span → Expr → Expr → Expr)}

theorem chain_locates (hoperator : Implements level operator) (hchains : Chains operator)
    (hnext : level.stronger = some next) (hoperand : LocatesLevel next parser) (rounds : Nat) :
    ∀ held left before, Written level before left →
      Locates before (chain operator parser rounds held left) (Written level) := by
  induction rounds with
  | zero => exact fun _ _ _ _ => Locates.unexpected
  | succ rounds ih =>
      intro held left before hleft
      unfold chain
      refine Locates.peek fun found => ?_
      split
      next =>
        refine Locates.leave ?_ _
        exact Locates.pure hleft
      next node hnode =>
        obtain ⟨kind, hfound, hkind⟩ := Option.bind_eq_some_iff.mp hnode
        refine LocatesAt.skipKind hfound fun sign hsign => Locates.enter ?_
        refine hoperand.bind fun right behind hright => ?_
        subst hsign
        rw [List.append_assoc, List.singleton_append]
        refine Locates.ordered fun horder => ih _ _ _ ?_
        obtain ⟨expr, hjoins, hexpr⟩ :=
          (hchains _ _ hkind).exists_joins (hoperator.joins hkind ⟨0, 0⟩ left right)
        rw [combine, join_operands hleft hright horder, ← hexpr]
        exact .chain hleft hnext hright hjoins

theorem leftChain_locates (hoperator : Implements level operator) (hchains : Chains operator)
    (hnext : level.stronger = some next) (hoperand : LocatesLevel next parser) (rounds : Nat) :
    LocatesLevel level (leftChain rounds operator parser) :=
  hoperand.bind fun left before hleft =>
    chain_locates hoperator hchains hnext hoperand rounds 0 left before (.stronger hnext hleft)

theorem signed_locates {sign : Kind} {op : UnaryOp} (hsign : Prefixes level sign op)
    (hnext : level.stronger = some next) (hoperand : LocatesLevel next parser) (rounds : Nat) :
    LocatesLevel level (signed sign op parser rounds) := by
  induction rounds with
  | zero => exact Locates.unexpected
  | succ rounds ih =>
      refine Locates.eat (fun token hkind => ?_)
        (hoperand.weaken fun expr taken hexpr => .stronger hnext hexpr)
      refine Locates.lastSpan (Locates.enter (ih.bind fun inner taken hinner => Locates.leave ?_))
      refine Locates.ordered fun horder => Locates.pure ?_
      have hjoin := join_spanOf [] horder (List.cons_ne_nil token []) hinner.ne_nil
      rw [List.nil_append, List.nil_append, spanOf_singleton, ← hinner.span_eq] at hjoin
      rw [hjoin]
      exact .signed (hkind ▸ hsign) hinner

variable {rounds : Nat} {expression : Parser Expr}

theorem arguments_locates (hexpression : LocatesLevel .disjunction expression) (rounds : Nat) :
    ∀ read, Locates [] (arguments expression rounds read) fun tokens args =>
      ∃ more, args = read.reverse ++ more ∧ WrittenArguments tokens more := by
  induction rounds with
  | zero => exact fun _ => Locates.unexpected
  | succ rounds ih =>
      intro read
      refine Locates.isNext fun found => ?_
      split
      next => exact Locates.pure ⟨[], by simp, .nil⟩
      next =>
        refine hexpression.bind fun arg tokens harg => Locates.eat (fun comma hcomma => ?_) ?_
        · refine (ih (arg :: read)).weaken fun args rest => ?_
          rintro ⟨more, rfl, hmore⟩
          exact ⟨arg :: more, by simp, by simpa using .cons harg hcomma hmore⟩
        · exact Locates.pure ⟨[arg], by simp, .last harg⟩

theorem atom_locates (hexpression : LocatesLevel .disjunction expression) :
    LocatesLevel .atom (atom expression) := by
  have leaf (token : Token) {expr : Expr} (h : Leaf token.kind expr) :
      LocatesAt (some token) [] (skip >>= fun _ => Pure.pure (expr.withSpan token.span))
        (Written .atom) := by
    rw [← spanOf_singleton token]
    exact LocatesAt.skip (Locates.pure (.leaf h))
  refine Locates.peekToken fun next => ?_
  cases next with
  | none => exact Locates.unexpected _
  | some token =>
  obtain ⟨kind, span, line, column⟩ := token
  cases kind with
  | integer value => exact leaf ⟨_, span, line, column⟩ (.integer value)
  | text value => exact leaf ⟨_, span, line, column⟩ (.text value)
  | identifier name => exact leaf ⟨_, span, line, column⟩ (.name name)
  | keyword word =>
      cases word with
      | trueWord => exact leaf ⟨_, span, line, column⟩ .trueWord
      | falseWord => exact leaf ⟨_, span, line, column⟩ .falseWord
      | noneWord => exact leaf ⟨_, span, line, column⟩ .noneWord
      | _ => exact Locates.unexpected _
  | symbol sign =>
      cases sign with
      | openParen =>
          refine LocatesAt.skip (hexpression.bind fun inner tokens hinner => ?_)
          refine Locates.expect fun closing hclosing => Locates.ordered fun horder => ?_
          rw [List.append_assoc] at horder ⊢
          have hjoin := join_spanOf tokens horder (List.cons_ne_nil _ _)
            (List.cons_ne_nil closing [])
          rw [List.nil_append, spanOf_singleton, spanOf_singleton] at hjoin
          refine Locates.pure ?_
          rw [hjoin]
          exact .parens rfl hinner hclosing
      | _ => exact Locates.unexpected _
  | _ => exact Locates.unexpected _

theorem trailers_locates (hexpression : LocatesLevel .disjunction expression) (rounds' : Nat) :
    ∀ held object before, Written .trailed before object →
      Locates before (trailers rounds expression rounds' held object) (Written .trailed) := by
  induction rounds' with
  | zero => exact fun _ _ _ _ => Locates.unexpected
  | succ rounds' ih =>
      intro held object before hobject
      unfold trailers
      refine Locates.peek fun found => ?_
      split
      next hfound =>
        refine LocatesAt.enter (LocatesAt.skipKind hfound fun opening hopening => ?_)
        refine (arguments_locates hexpression rounds []).bind fun args between hargs => ?_
        obtain ⟨more, rfl, hmore⟩ := hargs
        refine Locates.expect fun closing hclosing => ?_
        simp only [List.append_assoc, List.singleton_append]
        refine Locates.ordered fun horder => ih _ _ _ ?_
        have hjoin := join_spanOf (opening :: between) horder hobject.ne_nil
          (List.cons_ne_nil closing [])
        rw [hobject.span_eq, ← spanOf_singleton closing, hjoin]
        exact .call hobject hopening hmore hclosing
      next hfound =>
        refine LocatesAt.enter (LocatesAt.skipKind hfound fun dot hdot => ?_)
        refine Locates.identifier fun field name hfield => ?_
        rw [List.append_assoc, List.singleton_append]
        refine Locates.ordered fun horder => ih _ _ _ ?_
        have hjoin := join_spanOf [dot] horder hobject.ne_nil (List.cons_ne_nil field [])
        rw [hobject.span_eq, ← spanOf_singleton field, hjoin]
        exact .member hobject hdot hfield
      next =>
        refine Locates.leave ?_ _
        exact Locates.pure hobject

theorem comparison_locates (hsum : LocatesLevel .sum (sum rounds expression)) :
    LocatesLevel .comparison (comparison rounds expression) := by
  refine hsum.bind fun left before hleft => Locates.peek fun found => ?_
  split
  next => exact Locates.pure (.stronger rfl hleft) _
  next op hop =>
    obtain ⟨kind, hfound, hkind⟩ := Option.bind_eq_some_iff.mp hop
    refine LocatesAt.skipKind hfound fun sign hsign => hsum.bind fun right behind hright => ?_
    subst hsign
    rw [List.nil_append, List.append_assoc, List.singleton_append]
    refine Locates.ordered fun horder => ?_
    have hpure : Locates (before ++ sign :: behind)
        (Pure.pure (combine (.compare · op) left right)) (Written .comparison) := by
      refine Locates.pure ?_
      rw [combine, join_operands hleft hright horder]
      exact .compare hleft (compareOp_eq_some_iff.mp hkind) hright
    -- A second comparison behind the first one is an error, so only one is read.
    refine Locates.peekToken fun found => ?_
    cases found with
    | none => exact hpure _
    | some token =>
        dsimp only
        split
        next =>
          exact Locates.bind (P := fun _ _ => False) Locates.fail (fun _ _ h => h.elim) _
        next => exact hpure _

theorem disjunction_locates (hexpression : LocatesLevel .disjunction expression) :
    LocatesLevel .disjunction (disjunction rounds expression) := by
  have htrailed : LocatesLevel .trailed (trailed rounds expression) :=
    (atom_locates hexpression).bind fun object before hobject =>
      trailers_locates hexpression rounds 0 object before (.stronger rfl hobject)
  have hfactor := signed_locates .minus rfl htrailed rounds
  have hproduct := leftChain_locates productOp_implements productOp_chains rfl hfactor rounds
  have hsum := leftChain_locates sumOp_implements sumOp_chains rfl hproduct rounds
  have hnegation := signed_locates .not rfl (comparison_locates hsum) rounds
  have hconjunction :=
    leftChain_locates conjunctionOp_implements conjunctionOp_chains rfl hnegation rounds
  exact leftChain_locates disjunctionOp_implements disjunctionOp_chains rfl hconjunction rounds

theorem expressionWithin_locates (levels : Nat) :
    LocatesLevel .disjunction (expressionWithin rounds levels) := by
  induction levels with
  | zero => exact Locates.unexpected
  | succ levels ih =>
      refine Locates.enter ((disjunction_locates ih).bind fun expr tokens hexpr => ?_)
      exact Locates.leave (Locates.pure hexpr)

end

/-! ## Statements -/

theorem expression_locates (rounds : Nat) : LocatesLevel .disjunction (expression rounds) :=
  expressionWithin_locates rounds

theorem simple_locates (rounds : Nat) : Locates [] (simple rounds) WrittenSimple := by
  have hexpression := expression_locates rounds
  refine Locates.peek fun next => ?_
  split
  case h_1 hnext => exact LocatesAt.skipKind hnext fun word hword => Locates.pure (.pass hword)
  case h_2 hnext => exact LocatesAt.skipKind hnext fun word hword => Locates.pure (.breakLoop hword)
  case h_3 hnext =>
    exact LocatesAt.skipKind hnext fun word hword => Locates.pure (.continueLoop hword)
  case h_4 hnext =>
    refine LocatesAt.skipKind hnext fun word hword => Locates.isNext fun found => ?_
    split
    next => exact Locates.pure (.giveBack hword)
    next =>
      refine hexpression.bind fun value tokens hvalue => Locates.pure ?_
      exact .giveBackValue hword hvalue
  case h_5 hnext =>
    refine LocatesAt.skipKind hnext fun word hword => ?_
    exact Locates.identifier fun token name hname => Locates.pure (.importModule hword hname)
  case h_6 hnext =>
    refine LocatesAt.skipKind hnext fun word hword => hexpression.bind fun test tokens htest => ?_
    refine Locates.eat (fun comma hcomma => ?_) (Locates.pure (.assert hword htest))
    refine hexpression.bind fun message behind hmessage => Locates.pure ?_
    simpa using .assertMessage hword htest hcomma hmessage
  case h_7 =>
    refine (hexpression.bind fun target tokens htarget => Locates.eat (fun sign hsign => ?_) ?_) next
    · refine hexpression.bind fun value behind hvalue => Locates.pure ?_
      simpa using .assign htarget hsign hvalue
    · exact Locates.pure (.expr htarget)

theorem simpleLine_locates (rounds : Nat) (first : Token) :
    LocatesAt (some first) [] (simpleLine rounds first) WrittenLine := by
  refine (simple_locates rounds _).bind fun stmt tokens hstmt hfirst => ?_
  refine Locates.expect fun ending hending => Locates.placeFrom ?_ (Locates.pure ?_)
  · obtain ⟨token, htoken⟩ := exists_head? hstmt.ne_nil
    rw [List.nil_append, List.head?_append, htoken, Option.some_or, ← hfirst token htoken]
  · exact .intro hstmt hending

section

variable {rounds : Nat} {statement : Parser Stmt}

theorem statements_locates (hstatement : Locates [] statement WrittenStatement) (rounds : Nat) :
    ∀ read, Locates [] (statements statement rounds read) fun tokens body =>
      ∃ more inner closing, body = read.reverse ++ more ∧ tokens = inner ++ [closing] ∧
        closing.kind = .dedent ∧ WrittenStatements inner more := by
  induction rounds with
  | zero => exact fun _ => Locates.unexpected
  | succ rounds ih =>
      intro read
      refine Locates.eat (fun closing hclosing => Locates.pure ?_) ?_
      · exact ⟨[], [], closing, by simp, rfl, hclosing, .nil⟩
      · refine hstatement.bind fun stmt tokens hstmt => (ih (stmt :: read)).weaken ?_
        rintro body _ ⟨more, inner, closing, rfl, rfl, hclosing, hmore⟩
        exact ⟨stmt :: more, tokens ++ inner, closing, by simp, by simp, hclosing,
          .cons hstmt hmore⟩

theorem block_locates (hstatement : Locates [] statement WrittenStatement) :
    Locates [] (block rounds statement) WrittenSuite := by
  refine Locates.eat (fun ending hending => ?_) ?_
  · refine Locates.eat (fun opening hopening => Locates.enter ?_) Locates.unexpected
    refine (statements_locates hstatement rounds []).bind fun body tokens hbody => ?_
    obtain ⟨more, inner, closing, rfl, rfl, hclosing, hmore⟩ := hbody
    exact Locates.leave (Locates.pure (.indented hending hopening hmore hclosing))
  · refine Locates.peekToken fun next => ?_
    cases next with
    | none => exact Locates.unexpected _
    | some first =>
        refine (simpleLine_locates rounds first).bind fun stmt tokens hstmt _ => ?_
        exact Locates.pure (.line hstmt)

theorem guarded_locates (hstatement : Locates [] statement WrittenStatement) :
    Locates [] (guarded rounds statement) fun tokens found =>
      WrittenGuarded tokens found.1 found.2 := by
  refine (expression_locates rounds).bind fun condition tokens hcondition => ?_
  refine Locates.expect fun colon hcolon => ?_
  refine (block_locates hstatement).bind fun body behind hbody => Locates.pure ?_
  simpa using .intro hcondition hcolon hbody

theorem alternative_locates (hstatement : Locates [] statement WrittenStatement) (rounds' : Nat) :
    Locates [] (alternative rounds statement rounds') WrittenRest := by
  induction rounds' with
  | zero => exact Locates.unexpected
  | succ rounds' ih =>
      refine Locates.eat (fun word hword => ?_)
        (Locates.eat (fun word hword => ?_) (Locates.pure .nothing))
      · refine (guarded_locates hstatement).bind fun found tokens hfound => ?_
        exact ih.bind fun rest behind hrest => Locates.pure (.elif hword hfound hrest)
      · refine Locates.expect fun colon hcolon => ?_
        refine (block_locates hstatement).bind fun body tokens hbody => Locates.pure ?_
        exact .otherwise hword hcolon hbody

theorem parameters_locates (rounds : Nat) :
    ∀ read, Locates [] (parameters rounds read) fun tokens params =>
      ∃ more, params = read.reverse ++ more ∧ WrittenParameters tokens more := by
  induction rounds with
  | zero => exact fun _ => Locates.unexpected
  | succ rounds ih =>
      intro read
      refine Locates.isNext fun found => ?_
      split
      next => exact Locates.pure ⟨[], by simp, .nil⟩
      next =>
        refine Locates.identifier fun token name hname => Locates.eat (fun comma hcomma => ?_) ?_
        · refine (ih _).weaken fun params rest => ?_
          rintro ⟨more, rfl, hmore⟩
          exact ⟨⟨name, token.span⟩ :: more, by simp, .cons hname hcomma hmore⟩
        · exact Locates.pure ⟨[⟨name, token.span⟩], by simp, .last hname⟩

/-- What follows the first word of a function definition, which is given. -/
theorem definition_locates (hstatement : Locates [] statement WrittenStatement) {word : Token}
    (hword : word.kind = .keyword .defWord) :
    Locates [] (definition rounds statement) fun tokens stmt =>
      WrittenStatement (word :: tokens) (stmt (placeOf (word :: tokens))) := by
  refine Locates.identifier fun token name hname => Locates.expect fun opening hopening => ?_
  refine (parameters_locates rounds []).bind fun params tokens hparams => ?_
  obtain ⟨more, rfl, hmore⟩ := hparams
  refine Locates.expect fun closing hclosing => Locates.expect fun colon hcolon => ?_
  refine (block_locates hstatement).bind fun body behind hbody => Locates.pure ?_
  simpa using .define hword hname hopening hmore hclosing hcolon hbody

end

theorem statementWithin_locates (rounds levels : Nat) :
    Locates [] (statementWithin rounds levels) WrittenStatement := by
  induction levels with
  | zero => exact Locates.unexpected
  | succ levels ih =>
      refine Locates.peekToken fun next => ?_
      cases next with
      | none => exact Locates.unexpected _
      | some first =>
      dsimp only
      split
      next hword =>
        refine LocatesAt.skip ((guarded_locates ih).bind fun found tokens hfound => ?_)
        refine (alternative_locates ih rounds).bind fun rest behind hrest => ?_
        have htokens : [] ++ [first] ++ tokens ++ behind = first :: (tokens ++ behind) :=
          List.append_assoc [first] tokens behind
        rw [htokens]
        exact Locates.placeFrom rfl (Locates.pure (.branch hword hfound hrest))
      next hword =>
        refine LocatesAt.skip ((guarded_locates ih).bind fun found tokens hfound => ?_)
        exact Locates.placeFrom rfl (Locates.pure (.loop hword hfound))
      next hword =>
        refine LocatesAt.skip ((definition_locates ih hword).bind fun stmt tokens hstmt => ?_)
        exact Locates.placeFrom rfl (Locates.pure hstmt)
      next => exact Locates.fail _
      next => exact (simpleLine_locates rounds first).weaken fun stmt tokens hline => .simple hline

/-- What the reader of programs consumes makes up the program that it gives, with its places. -/
theorem program_locates (rounds rounds' : Nat) :
    ∀ read, Locates [] (program rounds rounds' read) fun tokens body =>
      ∃ more inner last, body = read.reverse ++ more ∧ tokens = inner ++ [last] ∧
        last.kind = .endOfFile ∧ WrittenStatements inner more := by
  induction rounds' with
  | zero => exact fun _ => Locates.unexpected
  | succ rounds' ih =>
      intro read
      have hend : Locates [] (expect .endOfFile >>= fun _ => Pure.pure read.reverse)
          fun tokens body => ∃ more inner last, body = read.reverse ++ more ∧
            tokens = inner ++ [last] ∧ last.kind = .endOfFile ∧ WrittenStatements inner more :=
        Locates.expect fun last hlast => Locates.pure ⟨[], [], last, by simp, rfl, hlast, .nil⟩
      refine Locates.peek fun next => ?_
      split
      next => exact hend _
      next => exact hend _
      next =>
        refine ((statementWithin_locates rounds rounds).bind fun stmt tokens hstmt => ?_) _
        refine (ih (stmt :: read)).weaken fun body taken => ?_
        rintro ⟨more, inner, last, rfl, rfl, hlast, hmore⟩
        exact ⟨stmt :: more, tokens ++ inner, last, by simp, by simp, hlast, .cons hstmt hmore⟩

end Parser

/-! ## Whole programs -/

/-- A program that is read from tokens in order is written, with its places, by those before the end
of the file. -/
theorem written_of_parse {tokens : List Token} {program : Block} (horder : InOrder tokens)
    (h : parse tokens = .ok program) :
    ∃ body last rest, tokens = body ++ last :: rest ∧ last.kind = .endOfFile ∧
      WrittenStatements body program := by
  obtain ⟨state, hread⟩ := exists_of_parse h
  have hstart : ParseState.Behind [] { rest := tokens } := ⟨horder, nofun⟩
  obtain ⟨taken, hmoves, more, body, last, hmore, rfl, hlast, hbody⟩ :=
    Parser.program_locates _ _ [] _ _ _ _ hstart rfl hread
  obtain rfl : program = more := hmore
  refine ⟨body, last, state.rest, ?_, hlast, hbody⟩
  rw [← List.singleton_append, ← List.append_assoc]
  exact hmoves.rest

/-- In the program of a source each expression spans the tokens that it was read from, with the
parentheses around it, and each statement stands where its tokens do, up to the end of its line or
of its last block. Every span holds those of the parts of its node, and siblings are in order and
apart from each other. -/
theorem parse_spans_exact {source : String} {tokens : List Token} {program : Block}
    (hlex : lex source = .ok tokens) (hparse : parse tokens = .ok program) :
    ∃ body last rest, tokens = body ++ last :: rest ∧ last.kind = .endOfFile ∧
      WrittenStatements body program ∧ Block.Nested program ∧
      (Block.outline program).Pairwise Span.Before := by
  have horder : InOrder tokens := (placed_of_lex hlex).1
  obtain ⟨body, last, rest, htokens, hlast, hbody⟩ := written_of_parse horder hparse
  have hleft : InOrder body := InOrder.left (htokens ▸ horder)
  exact ⟨body, last, rest, htokens, hlast, hbody, hbody.nested hleft, (hbody.lies.orders hleft).2⟩

/-- A block in a branch, a call with parentheses around an argument, and a line behind the block. -/
def nestedSource : String :=
  "if (a):\n  f((b), c)\nd\n"

/-- The branch ends with its block, which is where the next line starts. -/
theorem parse_spans_exact_nested : ∃ tokens program, lex nestedSource = .ok tokens ∧
    parse tokens = .ok program ∧ Block.outline program = [⟨0, 20⟩, ⟨20, 2⟩] ∧
    ∃ body last rest, tokens = body ++ last :: rest ∧ last.kind = .endOfFile ∧
      WrittenStatements body program ∧ Block.Nested program ∧
      (Block.outline program).Pairwise Span.Before := by
  have hoption : ((lex nestedSource).toOption.bind fun tokens => (parse tokens).toOption).map
      Block.outline = some [⟨0, 20⟩, ⟨20, 2⟩] := by decide +kernel
  obtain ⟨program, hprogram, houtline⟩ := Option.map_eq_some_iff.mp hoption
  obtain ⟨tokens, htokens, hparsed⟩ := Option.bind_eq_some_iff.mp hprogram
  have hlex := eq_ok_of_toOption htokens
  have hparse := eq_ok_of_toOption hparsed
  exact ⟨tokens, program, hlex, hparse, houtline, parse_spans_exact hlex hparse⟩

end FrozenScript
