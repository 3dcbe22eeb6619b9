import FrozenScript.Proofs.Syntax.Yields

/-!
# What a parser foresees

A parser with one token of lookahead should fail at the first token that no continuation allows. Two
things are needed for that, and `Foresees n parser good` says both of all states with less than `n`
tokens left.

* Wherever the parser fails, the tokens before can be completed so that `good` holds. So the parser
  consumes no token that cannot be followed by any others.
* What the parser does is decided by the tokens it consumed and the next one, whatever follows. As
  longer lists of tokens are read with more fuel, this is said of `parser more` for any number of
  rounds more.

Nesting too deeply is left out, because it is no matter of the grammar.
-/

namespace FrozenScript

open Text

/-- An error that is reported at a token and is about that token. -/
inductive ParseError.At (token : Token) : ParseError → Prop where
  | unexpected {expected} : At token ⟨.unexpected expected (some token.kind), token.span⟩
  | unexpectedIndent : token.kind = .indent → At token ⟨.unexpectedIndent, token.span⟩
  | chainedComparison :
      (Parser.compareOp token.kind).isSome → At token ⟨.chainedComparison, token.span⟩

/-- An error that is reported at the end of the tokens, of which the last one is given, or at the
start of the text if there are none. -/
inductive ParseError.AtEnd (last : Option Token) : ParseError → Prop where
  | unexpected {expected} :
      AtEnd last ⟨.unexpected expected none, (last.map Token.span).getD ⟨0, 0⟩⟩

namespace ParseState.Moves

variable {state state' : ParseState} {taken rest : List Token}

theorem eq_state (h : state.Moves taken state') :
    { state with rest := taken ++ state'.rest } = state := by
  rw [← h.rest]

/-- The token behind some consumed ones decides what the next token was before them. -/
theorem head?_append (h : state.Moves taken state') (hrest : rest.head? = state'.rest.head?) :
    (taken ++ rest).head? = state.rest.head? := by
  rw [h.rest, List.head?_append, List.head?_append, hrest]

end ParseState.Moves

namespace Parser

variable {α β : Type}

/-- Some tokens and some value are good. -/
def Possible (good : List Kind → α → Prop) : Prop :=
  ∃ kinds value, good kinds value

/-- What a parser does in a state, as far as the consumed and the next token decide it. -/
inductive Verdict (parser : Nat → Parser α) (good : List Kind → α → Prop) (state : ParseState) :
    Prop where
  /-- It consumes some tokens, which are good with its result, as long as the same token follows. -/
  | read {taken value state'} :
      state.Moves taken state' → good (taken.map Token.kind) value →
      (∀ more rest, rest.head? = state'.rest.head? →
        parser more { state with rest := taken ++ rest } = .ok (value, { state' with rest })) →
      Verdict parser good state
  /-- It fails at a token, whatever follows. The tokens before can be completed. -/
  | stops {seen token behind error} :
      state.rest = seen ++ token :: behind → error.At token →
      Possible (fun more value => good (seen.map Token.kind ++ more) value) →
      (∀ more rest, parser more { state with rest := seen ++ token :: rest } = .error error) →
      Verdict parser good state
  /-- It fails at the end of the tokens, which can be completed. -/
  | ends {error} :
      parser 0 state = .error error → error.AtEnd (state.rest.getLast?.or state.last) →
      Possible (fun more value => good (state.kinds ++ more) value) → Verdict parser good state
  | tooDeep {nesting span} :
      parser 0 state = .error ⟨.tooDeep nesting, span⟩ → Verdict parser good state

/-- What the parser does before the given token, or at the end of the tokens, is foreseen. -/
def ForeseesAt (next : Option Token) (n : Nat) (parser : Nat → Parser α)
    (good : List Kind → α → Prop) : Prop :=
  ∀ state, state.rest.head? = next → state.rest.length < n → Verdict parser good state

/-- The parser can succeed, and what it does is foreseen. -/
structure Foresees (n : Nat) (parser : Nat → Parser α) (good : List Kind → α → Prop) : Prop where
  possible : Possible good
  foresees (next : Option Token) : ForeseesAt next n parser good

theorem bind_of_ok {parser : Parser α} {f : α → Parser β} {state between : ParseState} {value : α}
    (h : parser state = .ok (value, between)) : (parser >>= f) state = f value between := by
  change Except.bind (parser state) _ = _
  rw [h]
  rfl

theorem bind_of_error {parser : Parser α} {f : α → Parser β} {state : ParseState}
    {error : ParseError} (h : parser state = .error error) :
    (parser >>= f) state = .error error := by
  change Except.bind (parser state) _ = _
  rw [h]
  rfl

namespace Verdict

variable {state : ParseState}

theorem bind {parser : Nat → Parser α} {f : Nat → α → Parser β} {P : List Kind → α → Prop}
    {good : List Kind → β → Prop} (h : Verdict parser P state)
    (hpossible : ∀ value before, P before value →
      Possible fun kinds result => good (before ++ kinds) result)
    (hf : ∀ value taken between, state.Moves taken between → P (taken.map Token.kind) value →
      Verdict (fun more => f more value)
        (fun kinds result => good (taken.map Token.kind ++ kinds) result) between) :
    Verdict (fun more => parser more >>= f more) good state := by
  have extend {seen : List Kind} (hseen : Possible fun more value => P (seen ++ more) value) :
      Possible fun more result => good (seen ++ more) result := by
    obtain ⟨more, value, hvalue⟩ := hseen
    obtain ⟨behind, result, hresult⟩ := hpossible value _ hvalue
    rw [List.append_assoc] at hresult
    exact ⟨more ++ behind, result, hresult⟩
  cases h with
  | @read taken value between hmoves hvalue hparser =>
      have hafter (more : Nat) (rest : List Token) (hrest : rest.head? = between.rest.head?) :
          (parser more >>= f more) { state with rest := taken ++ rest } =
            f more value { between with rest } :=
        bind_of_ok (hparser more rest hrest)
      have hbind : (parser 0 >>= f 0) state = f 0 value between := by
        rw [← hafter 0 between.rest rfl, hmoves.eq_state]
      cases hf value taken between hmoves hvalue with
      | @read behind result state' hmoves' hresult hparser' =>
          have hgood : good ((taken ++ behind).map Token.kind) result := by
            rw [List.map_append]
            exact hresult
          refine .read (hmoves.trans hmoves') hgood fun more rest hrest => ?_
          rw [List.append_assoc, hafter more _ (hmoves'.head?_append hrest)]
          exact hparser' more rest hrest
      | @stops seen token behind error hsplit hat hseen hparser' =>
          refine .stops (by rw [hmoves.rest, hsplit, List.append_assoc]) hat ?_ fun more rest => ?_
          · simpa only [List.map_append, List.append_assoc] using hseen
          · have hrest : (seen ++ token :: rest).head? = between.rest.head? := by
              rw [hsplit, List.head?_append, List.head?_append]
              rfl
            rw [List.append_assoc, hafter more _ hrest]
            exact hparser' more rest
      | ends herror hat hseen =>
          refine .ends (hbind.trans herror) ?_ ?_
          · rw [hmoves.rest, List.getLast?_append, Option.or_assoc, ← hmoves.last]
            exact hat
          · rw [ParseState.kinds, hmoves.rest, List.map_append]
            simpa only [List.append_assoc, ParseState.kinds] using hseen
      | tooDeep herror => exact .tooDeep (hbind.trans herror)
  | stops hsplit hat hseen hparser =>
      exact .stops hsplit hat (extend hseen) fun more rest => bind_of_error (hparser more rest)
  | ends herror hat hseen => exact .ends (bind_of_error herror) hat (extend hseen)
  | tooDeep herror => exact .tooDeep (bind_of_error herror)

/-- A parser may be replaced by what it amounts to in a state with the same tokens. -/
theorem of_eq {state' : ParseState} {parser parser' : Nat → Parser β}
    {good : List Kind → β → Prop} (h : Verdict parser' good state')
    (hrest : state'.rest = state.rest) (hlast : state'.last = state.last)
    (hparser : ∀ more rest, rest.head? = state.rest.head? →
      parser more { state with rest } = parser' more { state' with rest }) :
    Verdict parser good state := by
  have hzero : parser 0 state = parser' 0 state' :=
    (hparser 0 state.rest rfl).trans (by rw [← hrest])
  cases h with
  | @read taken value final hmoves hvalue hread =>
      have hmoves' : state.Moves taken final := ⟨hrest ▸ hmoves.rest, hlast ▸ hmoves.last⟩
      refine .read hmoves' hvalue fun more rest hnext => ?_
      rw [hparser more _ (hmoves'.head?_append hnext)]
      exact hread more rest hnext
  | @stops seen token behind error hsplit hat hseen hstops =>
      rw [hrest] at hsplit
      refine .stops hsplit hat hseen fun more rest => ?_
      rw [hparser more _ (by rw [hsplit, List.head?_append, List.head?_append]; rfl)]
      exact hstops more rest
  | ends herror hat hseen =>
      rw [hrest, hlast] at hat
      rw [ParseState.kinds, hrest] at hseen
      exact .ends (hzero.trans herror) hat hseen
  | tooDeep herror => exact .tooDeep (hzero.trans herror)

/-- Failing at the next token. -/
theorem stops_here {parser : Nat → Parser β} {good : List Kind → β → Prop} {token : Token}
    {behind : List Token} {error : ParseError} (hrest : state.rest = token :: behind)
    (hat : error.At token) (hgood : Possible good)
    (h : ∀ more rest, parser more { state with rest := token :: rest } = .error error) :
    Verdict parser good state :=
  have hsplit : state.rest = [] ++ token :: behind := hrest
  .stops hsplit hat hgood h

end Verdict

section

variable {n m : Nat} {next : Option Token} {parser : Nat → Parser α} {f : Nat → α → Parser β}
  {good : List Kind → β → Prop} {P : List Kind → α → Prop}

theorem ForeseesAt.bind (hparser : ForeseesAt next n parser P)
    (hpossible : ∀ value before, P before value →
      Possible fun kinds result => good (before ++ kinds) result)
    (hf : ∀ value before, P before value →
      Foresees (n - before.length) (fun more => f more value) fun kinds result =>
        good (before ++ kinds) result) :
    ForeseesAt next n (fun more => parser more >>= f more) good := by
  intro state hnext hlength
  refine (hparser state hnext hlength).bind hpossible fun value taken between hmoves hvalue => ?_
  refine (hf value _ hvalue).foresees _ between rfl ?_
  rw [hmoves.rest, List.length_append] at hlength
  rw [List.length_map]
  omega

theorem Foresees.bind (hparser : Foresees n parser P)
    (hf : ∀ value before, P before value →
      Foresees (n - before.length) (fun more => f more value) fun kinds result =>
        good (before ++ kinds) result) :
    Foresees n (fun more => parser more >>= f more) good where
  possible := by
    obtain ⟨before, value, hvalue⟩ := hparser.possible
    obtain ⟨kinds, result, hresult⟩ := (hf value before hvalue).possible
    exact ⟨before ++ kinds, result, hresult⟩
  foresees next :=
    (hparser.foresees next).bind (fun value before hvalue => (hf value before hvalue).possible) hf

theorem ForeseesAt.mono {parser : Nat → Parser β} (h : ForeseesAt next n parser good)
    (hle : m ≤ n) : ForeseesAt next m parser good :=
  fun state hnext hlength => h state hnext (Nat.lt_of_lt_of_le hlength hle)

theorem Foresees.mono {parser : Nat → Parser β} (h : Foresees n parser good) (hle : m ≤ n) :
    Foresees m parser good :=
  ⟨h.possible, fun next => (h.foresees next).mono hle⟩

/-- No list of tokens has a negative length. -/
theorem Foresees.zero {parser : Nat → Parser β} (h : Possible good) : Foresees 0 parser good :=
  ⟨h, fun _ _ _ hlength => absurd hlength (Nat.not_lt_zero _)⟩

theorem Foresees.weaken {parser : Nat → Parser β} {P : List Kind → β → Prop}
    (hparser : Foresees n parser P) (h : ∀ kinds value, P kinds value → good kinds value) :
    Foresees n parser good where
  possible := by
    obtain ⟨kinds, value, hvalue⟩ := hparser.possible
    exact ⟨kinds, value, h _ _ hvalue⟩
  foresees next state hnext hlength := by
    have weaken {seen : List Kind} (hseen : Possible fun more value => P (seen ++ more) value) :
        Possible fun more value => good (seen ++ more) value := by
      obtain ⟨more, value, hvalue⟩ := hseen
      exact ⟨more, value, h _ _ hvalue⟩
    cases hparser.foresees next state hnext hlength with
    | read hmoves hvalue hread => exact .read hmoves (h _ _ hvalue) hread
    | stops hsplit hat hseen hstops => exact .stops hsplit hat (weaken hseen) hstops
    | ends herror hat hseen => exact .ends herror hat (weaken hseen)
    | tooDeep herror => exact .tooDeep herror

theorem Foresees.pure {value : β} (h : good [] value) :
    Foresees n (fun _ => Pure.pure value) good :=
  ⟨⟨[], value, h⟩, fun _ state _ _ => .read (.refl state) h fun _ _ _ => rfl⟩

theorem Foresees.unexpected (expected : Expected) (h : Possible good) :
    Foresees n (fun _ => Parser.unexpected expected) good where
  possible := h
  foresees next state hnext hlength := by
    cases hrest : state.rest with
    | nil =>
        have hspan : state.nextSpan = (state.last.map Token.span).getD ⟨0, 0⟩ := by
          rw [ParseState.nextSpan, hrest, ParseState.lastSpan]
          cases state.last <;> rfl
        refine .ends (by rw [Parser.unexpected, hspan, hrest]) ?_ ?_
        · rw [hrest]
          exact .unexpected
        · rw [ParseState.kinds, hrest]
          exact h
    | cons token behind => exact .stops_here hrest .unexpected h fun _ _ => rfl

/-- Failing at the next token. -/
theorem ForeseesAt.fail {token : Token} {fault : ParseFault} {span : Span} (h : Possible good)
    (hat : ParseError.At token ⟨fault, span⟩) :
    ForeseesAt (some token) n (fun _ => Parser.fail fault span) good := by
  intro state hnext _
  obtain ⟨behind, hrest⟩ := List.head?_eq_some_iff.mp hnext
  exact .stops_here hrest hat h fun _ _ => rfl

/-! ## Looking ahead -/

theorem ForeseesAt.peek {f : Nat → Option Kind → Parser β}
    (h : ForeseesAt next n (fun more => f more (next.map Token.kind)) good) :
    ForeseesAt next n (fun more => Parser.peek >>= f more) good := by
  intro state hnext hlength
  refine (h state hnext hlength).of_eq rfl rfl fun more rest hrest => ?_
  rw [← hnext, ← hrest]
  rfl

theorem ForeseesAt.peekToken {f : Nat → Option Token → Parser β}
    (h : ForeseesAt next n (fun more => f more next) good) :
    ForeseesAt next n (fun more => Parser.peekToken >>= f more) good := by
  intro state hnext hlength
  refine (h state hnext hlength).of_eq rfl rfl fun more rest hrest => ?_
  rw [← hnext, ← hrest]
  rfl

theorem Foresees.isNext {f : Nat → Bool → Parser β} {kind : Kind}
    (h : ∀ found, Foresees n (fun more => f more found) good) :
    Foresees n (fun more => Parser.isNext kind >>= f more) good where
  possible := (h true).possible
  foresees next state hnext hlength := by
    have hfound := (h (state.rest.head?.map Token.kind == some kind)).foresees next state hnext
      hlength
    refine hfound.of_eq rfl rfl fun more rest hrest => ?_
    rw [← hrest]
    rfl

theorem ForeseesAt.skip {f : Nat → Unit → Parser β} {token : Token}
    (h : Foresees (n - 1) (fun more => f more ()) fun kinds result =>
      good (token.kind :: kinds) result) :
    ForeseesAt (some token) n (fun more => Parser.skip >>= f more) good := by
  have hskip : ForeseesAt (some token) n (fun _ => Parser.skip) fun kinds _ =>
      kinds = [token.kind] := by
    intro state hnext _
    obtain ⟨behind, hrest⟩ := List.head?_eq_some_iff.mp hnext
    exact .read (.advance hrest) rfl fun _ _ _ => rfl
  refine hskip.bind ?_ ?_
  · rintro _ _ rfl
    exact h.possible
  · rintro _ _ rfl
    exact h

theorem ForeseesAt.enter {f : Nat → Unit → Parser β} {nesting : Nesting}
    (h : ForeseesAt next n (fun more => f more ()) good) :
    ForeseesAt next n (fun more => Parser.enter nesting >>= f more) good := by
  intro state hnext hlength
  by_cases hdepth : state.depth < maxNesting
  · have henter (rest : List Token) : Parser.enter nesting { state with rest } =
        .ok ((), { state with rest, depth := state.depth + 1 }) := by
      rw [Parser.enter, if_pos hdepth]
    exact (h { state with depth := state.depth + 1 } hnext hlength).of_eq rfl rfl
      fun more rest _ => bind_of_ok (henter rest)
  · have henter : Parser.enter nesting state = .error ⟨.tooDeep nesting, state.nextSpan⟩ := by
      rw [Parser.enter, if_neg hdepth]
    exact .tooDeep (bind_of_error henter)

theorem Foresees.enter {f : Nat → Unit → Parser β} {nesting : Nesting}
    (h : Foresees n (fun more => f more ()) good) :
    Foresees n (fun more => Parser.enter nesting >>= f more) good :=
  ⟨h.possible, fun next => (h.foresees next).enter⟩

theorem Foresees.leave {f : Nat → Unit → Parser β} {levels : Nat}
    (h : Foresees n (fun more => f more ()) good) :
    Foresees n (fun more => Parser.leave levels >>= f more) good where
  possible := h.possible
  foresees next state hnext hlength :=
    (h.foresees next { state with depth := state.depth - levels } hnext hlength).of_eq rfl rfl
      fun _ _ _ => rfl

theorem Foresees.lastSpan {f : Nat → Span → Parser β}
    (h : ∀ span, Foresees n (fun more => f more span) good) :
    Foresees n (fun more => Parser.lastSpan >>= f more) good where
  possible := (h ⟨0, 0⟩).possible
  foresees next state hnext hlength :=
    ((h state.lastSpan).foresees next state hnext hlength).of_eq rfl rfl fun _ _ _ => rfl

theorem Foresees.placeFrom {f : Nat → Place → Parser β} {token : Token}
    (h : ∀ place, Foresees n (fun more => f more place) good) :
    Foresees n (fun more => Parser.placeFrom token >>= f more) good :=
  .lastSpan fun span => h ⟨token.span.join span, token.line⟩

/-! ## Single tokens -/

theorem Foresees.eat {f : Nat → Bool → Parser β} {kind : Kind}
    (htrue : Foresees (n - 1) (fun more => f more true) fun kinds result =>
      good (kind :: kinds) result)
    (hfalse : Foresees n (fun more => f more false) good) :
    Foresees n (fun more => Parser.eat kind >>= f more) good where
  possible := hfalse.possible
  foresees next := by
    -- Eating is skipping the token, or else nothing.
    by_cases hkind : next.map Token.kind = some kind
    · obtain ⟨token, rfl, rfl⟩ := Option.map_eq_some_iff.mp hkind
      have heat (more : Nat) (state : ParseState) (hnext : state.rest.head? = some token) :
          (Parser.eat token.kind >>= f more) state =
            (Parser.skip >>= fun _ => f more true) state := by
        obtain ⟨behind, hrest⟩ := List.head?_eq_some_iff.mp hnext
        have hskip : Parser.skip state = .ok ((), state.advance token behind) := by
          simp only [Parser.skip, hrest]
        have hok : Parser.eat token.kind state = .ok (true, state.advance token behind) := by
          simp only [Parser.eat, hrest, if_true]
        rw [bind_of_ok hskip, bind_of_ok hok]
      intro state hnext hlength
      have hskip : ForeseesAt (some token) n (fun more => Parser.skip >>= fun _ => f more true)
          good := .skip htrue
      exact (hskip state hnext hlength).of_eq rfl rfl
        fun more rest hrest => heat more { state with rest } (hrest.trans hnext)
    · have heat (more : Nat) (state : ParseState) (hnext : state.rest.head? = next) :
          (Parser.eat kind >>= f more) state = f more false state := by
        have hok : Parser.eat kind state = .ok (false, state) := by
          cases hrest : state.rest with
          | nil => simp only [Parser.eat, hrest]
          | cons token behind =>
              have hother : token.kind ≠ kind := by
                rintro rfl
                rw [← hnext, hrest] at hkind
                exact hkind rfl
              simp only [Parser.eat, hrest, if_neg hother]
        exact bind_of_ok hok
      intro state hnext hlength
      exact (hfalse.foresees next state hnext hlength).of_eq rfl rfl
        fun more rest hrest => heat more { state with rest } (hrest.trans hnext)

theorem Foresees.expect {f : Nat → Span → Parser β} {kind : Kind}
    (h : ∀ span, Foresees (n - 1) (fun more => f more span) fun kinds result =>
      good (kind :: kinds) result) :
    Foresees n (fun more => Parser.expect kind >>= f more) good := by
  have hexpect : Foresees n (fun _ => Parser.expect kind) fun kinds _ => kinds = [kind] := by
    refine Foresees.eat ?_ (Foresees.unexpected _ ⟨[kind], ⟨0, 0⟩, rfl⟩)
    exact Foresees.lastSpan (f := fun _ => Pure.pure) fun span => Foresees.pure rfl
  refine hexpect.bind fun span before hbefore => ?_
  subst hbefore
  exact h span

theorem Foresees.identifier {f : Nat → String × Span → Parser β}
    (h : ∀ name span, Foresees (n - 1) (fun more => f more (name, span)) fun kinds result =>
      good (.identifier name :: kinds) result) :
    Foresees n (fun more => Parser.identifier >>= f more) good := by
  have hidentifier : Foresees n (fun _ => Parser.identifier) fun kinds found =>
      kinds = [.identifier found.1] := by
    have hpossible : Possible fun kinds (found : String × Span) => kinds = [.identifier found.1] :=
      ⟨[.identifier ""], ("", ⟨0, 0⟩), rfl⟩
    refine ⟨hpossible, fun next state hnext hlength => ?_⟩
    by_cases hname : ∃ token name, next = some token ∧ token.kind = .identifier name
    · obtain ⟨token, name, rfl, hkind⟩ := hname
      obtain ⟨behind, hrest⟩ := List.head?_eq_some_iff.mp hnext
      have hok (rest : List Token) : Parser.identifier { state with rest := token :: rest } =
          .ok ((name, token.span), { state with rest, last := some token }) := by
        simp only [Parser.identifier, hkind]
        rfl
      exact .read (.advance hrest) (by rw [List.map_singleton, hkind]) fun _ rest _ => hok rest
    · have hother (state : ParseState) (hnext : state.rest.head? = next) :
          Parser.identifier state = Parser.unexpected .identifier state := by
        simp only [Parser.identifier]
        split
        next token behind hrest =>
          split
          next name hkind => exact absurd ⟨token, name, by rw [← hnext, hrest]; rfl, hkind⟩ hname
          next => rfl
        next => rfl
      have hunexpected := (Foresees.unexpected .identifier hpossible).foresees next state hnext
        hlength
      exact hunexpected.of_eq rfl rfl
        fun _ rest hrest => hother { state with rest } (hrest.trans hnext)
  refine hidentifier.bind fun found before hbefore => ?_
  subst hbefore
  exact h found.1 found.2

end

end Parser

end FrozenScript
