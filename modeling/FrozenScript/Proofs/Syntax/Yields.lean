import FrozenScript.Proofs.Syntax.Sound

/-!
# Parsers that succeed unless something is nested too deeply

`Yields parser state good` says that a parser succeeds as `good` has it, or that it reports
something nested too deeply. The lemmas below follow a parser step by step, through the kinds of the
tokens that are left (`ParseState.kinds`); the number of open nesting levels does not appear.
-/

namespace FrozenScript

open Text

/-- The kinds of the tokens that are left. -/
def ParseState.kinds (state : ParseState) : List Kind :=
  state.rest.map Token.kind

/-- One state is reached from another by consuming some tokens. -/
structure ParseState.Moves (state : ParseState) (taken : List Token) (state' : ParseState) :
    Prop where
  rest : state.rest = taken ++ state'.rest
  last : state'.last = taken.getLast?.or state.last

namespace ParseState.Moves

variable {state between state' : ParseState} {taken behind : List Token} {token : Token}

theorem refl (state : ParseState) : state.Moves [] state :=
  ⟨rfl, rfl⟩

theorem trans (h : state.Moves taken between) (h' : between.Moves behind state') :
    state.Moves (taken ++ behind) state' where
  rest := by rw [h.rest, h'.rest, List.append_assoc]
  last := by rw [h'.last, h.last, List.getLast?_append, Option.or_assoc]

theorem advance {tokens : List Token} (h : state.rest = token :: tokens) :
    state.Moves [token] (state.advance token tokens) :=
  ⟨h, rfl⟩

end ParseState.Moves

namespace Parser

variable {α β : Type}

/-- The parser succeeds with a result and a state of the given kind, or reports that something is
nested too deeply. -/
def Yields (parser : Parser α) (state : ParseState) (good : α → ParseState → Prop) : Prop :=
  (∃ value state', parser state = .ok (value, state') ∧ good value state') ∨
    ∃ nesting span, parser state = .error ⟨.tooDeep nesting, span⟩

namespace Yields

variable {state : ParseState} {good : β → ParseState → Prop} {kind : Kind} {rest : List Kind}

theorem bind {parser : Parser α} {f : α → Parser β} {P : α → ParseState → Prop}
    (hparser : Yields parser state P)
    (hf : ∀ value state', P value state' → Yields (f value) state' good) :
    Yields (parser >>= f) state good := by
  have hbind : (parser >>= f) state = Except.bind (parser state) fun pair => f pair.1 pair.2 := rfl
  obtain ⟨value, state', hok, hfirst⟩ | ⟨nesting, span, herror⟩ := hparser
  · rw [hok] at hbind
    unfold Yields
    rw [hbind]
    exact hf value state' hfirst
  · exact .inr ⟨nesting, span, by rw [hbind, herror]; rfl⟩

theorem pure {value : β} (h : good value state) : Yields (Pure.pure value) state good :=
  .inl ⟨value, state, rfl, h⟩

/-- A parser whose result is passed on unchanged. -/
theorem pass {parser : Parser β} {P : β → ParseState → Prop}
    (hparser : Yields parser state P)
    (h : ∀ value state', P value state' → Yields (Pure.pure value) state' good) :
    Yields parser state good := by
  obtain ⟨value, state', hok, hfirst⟩ | herror := hparser
  · obtain ⟨_, _, hpure, hgood⟩ | ⟨_, _, hpure⟩ := h value state' hfirst
    · obtain ⟨rfl, rfl⟩ := Prod.mk.inj (Except.ok.inj hpure)
      exact .inl ⟨value, state', hok, hgood⟩
    · exact nomatch hpure
  · exact .inr herror

theorem enter {f : Unit → Parser β} {nesting : Nesting}
    (h : ∀ state', state'.kinds = state.kinds → Yields (f ()) state' good) :
    Yields (Parser.enter nesting >>= f) state good := by
  refine bind (P := fun _ state' => state'.kinds = state.kinds) ?_ fun _ state' => h state'
  by_cases hdepth : state.depth < maxNesting
  · exact .inl ⟨(), { state with depth := state.depth + 1 }, by simp [Parser.enter, hdepth], rfl⟩
  · exact .inr ⟨nesting, state.nextSpan, by simp [Parser.enter, hdepth]⟩

theorem leave {f : Unit → Parser β} {levels : Nat}
    (h : ∀ state', state'.kinds = state.kinds → Yields (f ()) state' good) :
    Yields (Parser.leave levels >>= f) state good :=
  h { state with depth := state.depth - levels } rfl

theorem lastSpan {f : Span → Parser β} (h : ∀ span, Yields (f span) state good) :
    Yields (Parser.lastSpan >>= f) state good :=
  h _

theorem placeFrom {f : Place → Parser β} {token : Token}
    (h : ∀ place, Yields (f place) state good) :
    Yields (Parser.placeFrom token >>= f) state good :=
  h _

/-! ## Single tokens -/

theorem peek {f : Option Kind → Parser β} (h : Yields (f state.kinds.head?) state good) :
    Yields (Parser.peek >>= f) state good := by
  unfold ParseState.kinds at h
  rw [List.head?_map] at h
  exact h

theorem isNext {f : Bool → Parser β} (h : Yields (f (state.kinds.head? == some kind)) state good) :
    Yields (Parser.isNext kind >>= f) state good := by
  unfold ParseState.kinds at h
  rw [List.head?_map] at h
  exact h

theorem exists_token (hstate : state.kinds = kind :: rest) :
    ∃ token tokens, state.rest = token :: tokens ∧ token.kind = kind ∧
      tokens.map Token.kind = rest :=
  List.map_eq_cons_iff.mp hstate

theorem peekToken {f : Option Token → Parser β} (hstate : state.kinds = kind :: rest)
    (h : ∀ token, token.kind = kind → Yields (f (some token)) state good) :
    Yields (Parser.peekToken >>= f) state good := by
  obtain ⟨token, tokens, htokens, hkind, -⟩ := exists_token hstate
  have hpeek : (Parser.peekToken >>= f) state = f (some token) state := by
    change f state.rest.head? state = _
    rw [htokens]
    rfl
  unfold Yields
  rw [hpeek]
  exact h token hkind

/-- The next token, if there is one, or the end of the tokens. -/
theorem peekToken_or_none {f : Option Token → Parser β}
    (hnone : Yields (f none) state good)
    (hsome : ∀ token, state.kinds.head? = some token.kind → Yields (f (some token)) state good) :
    Yields (Parser.peekToken >>= f) state good := by
  cases htokens : state.rest with
  | nil =>
      have hpeek : (Parser.peekToken >>= f) state = f none state := by
        change f state.rest.head? state = _
        rw [htokens]
        rfl
      unfold Yields
      rw [hpeek]
      exact hnone
  | cons token tokens =>
      have hstate : state.kinds = token.kind :: tokens.map Token.kind := by
        rw [ParseState.kinds, htokens, List.map_cons]
      have hpeek : (Parser.peekToken >>= f) state = f (some token) state := by
        change f state.rest.head? state = _
        rw [htokens]
        rfl
      unfold Yields
      rw [hpeek]
      exact hsome token (by rw [hstate]; rfl)

theorem skip {f : Unit → Parser β} (hstate : state.kinds = kind :: rest)
    (h : ∀ state', state'.kinds = rest → Yields (f ()) state' good) :
    Yields (Parser.skip >>= f) state good := by
  obtain ⟨token, tokens, htokens, -, hrest⟩ := exists_token hstate
  have hskip : Parser.skip state = .ok ((), state.advance token tokens) := by
    simp only [Parser.skip, htokens]
  exact bind (.inl ⟨_, _, hskip, hrest⟩) fun _ state' => h state'

theorem eat {f : Bool → Parser β} (hstate : state.kinds = kind :: rest)
    (h : ∀ state', state'.kinds = rest → Yields (f true) state' good) :
    Yields (Parser.eat kind >>= f) state good := by
  obtain ⟨token, tokens, htokens, hkind, hrest⟩ := exists_token hstate
  have heat : Parser.eat kind state = .ok (true, state.advance token tokens) := by
    simp only [Parser.eat, htokens, hkind, if_true]
  exact bind (P := fun found state' => found = true ∧ state'.kinds = rest)
    (.inl ⟨_, _, heat, rfl, hrest⟩) fun _ state' hafter => hafter.1 ▸ h state' hafter.2

theorem eat_other {f : Bool → Parser β} (hstate : state.kinds.head? ≠ some kind)
    (h : Yields (f false) state good) : Yields (Parser.eat kind >>= f) state good := by
  have heat : Parser.eat kind state = .ok (false, state) := by
    cases htokens : state.rest with
    | nil => simp only [Parser.eat, htokens]
    | cons token tokens =>
        have hkind : token.kind ≠ kind := by
          intro hkind
          simp [ParseState.kinds, htokens, hkind] at hstate
        simp only [Parser.eat, htokens, if_neg hkind]
  exact bind (P := fun found state' => found = false ∧ state' = state)
    (.inl ⟨_, _, heat, rfl, rfl⟩) fun _ _ hafter => hafter.1 ▸ hafter.2 ▸ h

theorem expect {f : Span → Parser β} (hstate : state.kinds = kind :: rest)
    (h : ∀ span state', state'.kinds = rest → Yields (f span) state' good) :
    Yields (Parser.expect kind >>= f) state good :=
  bind (P := fun _ state' => state'.kinds = rest)
    (eat hstate fun _ hstate' => .inl ⟨_, _, rfl, hstate'⟩) fun span state' => h span state'

theorem identifier {f : String × Span → Parser β} {name : String}
    (hstate : state.kinds = .identifier name :: rest)
    (h : ∀ span state', state'.kinds = rest → Yields (f (name, span)) state' good) :
    Yields (Parser.identifier >>= f) state good := by
  obtain ⟨token, tokens, htokens, hkind, hrest⟩ := exists_token hstate
  have hidentifier :
      Parser.identifier state = .ok ((name, token.span), state.advance token tokens) := by
    simp only [Parser.identifier, htokens, hkind]
  exact bind (P := fun found state' => found = (name, token.span) ∧ state'.kinds = rest)
    (.inl ⟨_, _, hidentifier, rfl, hrest⟩)
    fun _ state' hafter => hafter.1 ▸ h token.span state' hafter.2

end Yields

end Parser

end FrozenScript
