import FrozenScript.Proofs.Syntax.Yields

/-!
# Expressions of the grammar are read

One token decides how an expression is read. `leading` says at which levels a token may begin an
expression, and `strength` how strongly a token binds the operand before it: an expression of a
level ends before a token whose strength is below the rank of the level.

The levels with a chain are read by a loop, but derived by left recursion. So `Reaches` says of a
derivation that the loop of its level is reached, with whatever is read behind it;
`derives_reaches` is by induction on the derivation, and `reader_yields` ends the loop.
-/

namespace FrozenScript

open Text

namespace Grammar

/-! ## One token of lookahead -/

/-- The number of a level; the strongest has the greatest. -/
def Level.rank : Level → Nat
  | .disjunction => 1
  | .conjunction => 2
  | .negation => 3
  | .comparison => 4
  | .sum => 5
  | .product => 6
  | .factor => 7
  | .trailed => 8
  | .atom => 9

/-- Whether operators of a level chain. -/
def Level.chains : Level → Bool
  | .disjunction | .conjunction | .sum | .product | .trailed => true
  | _ => false

/-- How strongly a token binds the operand before it: the rank of the level that it continues, or 0
if it continues none. -/
def strength : Kind → Nat
  | .keyword .orWord => 1
  | .keyword .andWord => 2
  | .symbol .equal | .symbol .notEqual | .symbol .less | .symbol .lessEqual
  | .symbol .greater | .symbol .greaterEqual => 4
  | .symbol .plus | .symbol .minus => 5
  | .symbol .star | .symbol .floorDivide | .symbol .percent => 6
  | .symbol .openParen | .symbol .dot => 8
  | _ => 0

/-- The rank of the strongest level that a token may begin, or 0 if it begins no expression. -/
def leading : Kind → Nat
  | .keyword .notWord => 3
  | .symbol .minus => 7
  | .integer _ | .text _ | .identifier _ | .keyword .trueWord | .keyword .falseWord
  | .keyword .noneWord | .symbol .openParen => 9
  | _ => 0

/-- The next token is too weak to continue a level of some rank. -/
def Ends (rank : Nat) (rest : List Kind) : Prop :=
  ∀ kind, rest.head? = some kind → strength kind < rank

theorem Ends.mono {rank rank' : Nat} {rest : List Kind} (h : Ends rank rest) (hle : rank ≤ rank') :
    Ends rank' rest :=
  fun kind hkind => Nat.lt_of_lt_of_le (h kind hkind) hle

theorem ends_cons {rank : Nat} {kind : Kind} {rest : List Kind} (h : strength kind < rank) :
    Ends rank (kind :: rest) := by
  intro found hfound
  cases hfound
  exact h

/-- What may follow the first operand of a level: at a level with a chain also its operators. -/
def Level.tolerance (level : Level) : Nat :=
  if level.chains then level.rank + 1 else level.rank

theorem rank_le_tolerance (level : Level) : level.rank ≤ level.tolerance := by
  cases level <;> decide

theorem tolerance_le_rank {level next : Level} (h : level.stronger = some next) :
    level.tolerance ≤ next.rank := by
  cases level <;> cases h <;> decide

theorem rank_le_of_stronger {level next : Level} (h : level.stronger = some next) :
    level.rank ≤ next.rank :=
  Nat.le_trans (rank_le_tolerance level) (tolerance_le_rank h)

theorem strength_of_joins {level : Level} {kind : Kind} {left right expr : Expr}
    (h : Joins level kind left right expr) : strength kind = level.rank ∧ level.chains = true := by
  cases h <;> exact ⟨rfl, rfl⟩

theorem strength_lt_tolerance {level : Level} {kind : Kind} {left right expr : Expr}
    (h : Joins level kind left right expr) : strength kind < level.tolerance := by
  obtain ⟨hstrength, hchains⟩ := strength_of_joins h
  rw [hstrength, Level.tolerance, if_pos hchains]
  exact Nat.lt_succ_self _

theorem strength_of_compares {kind : Kind} {op : CompareOp} (h : Compares kind op) :
    strength kind = 4 := by
  cases h <;> rfl

theorem leading_of_prefixes {level : Level} {kind : Kind} {op : UnaryOp}
    (h : Prefixes level kind op) : leading kind = level.rank := by
  cases h <;> rfl

theorem leading_of_leaf {kind : Kind} {expr : Expr} (h : Leaf kind expr) : leading kind = 9 := by
  cases h <;> rfl

/-- An expression of a level begins with a token that may begin the level. -/
theorem derives_head : ∀ {level : Level} {kinds : List Kind} {expr : Expr},
    Derives level kinds expr → ∃ kind rest, kinds = kind :: rest ∧ level.rank ≤ leading kind
  | _, _, _, .stronger hnext hexpr => by
      obtain ⟨kind, rest, rfl, hkind⟩ := derives_head hexpr
      exact ⟨kind, rest, rfl, Nat.le_trans (rank_le_of_stronger hnext) hkind⟩
  | _, _, _, .chain hleft hnext hright hjoins => by
      obtain ⟨kind, rest, rfl, hkind⟩ := derives_head hleft
      exact ⟨kind, _, rfl, hkind⟩
  | _, _, _, .signed hsign hoperand =>
      ⟨_, _, rfl, Nat.le_of_eq (leading_of_prefixes hsign).symm⟩
  | _, _, _, .compare hleft hcompares hright => by
      obtain ⟨kind, rest, rfl, hkind⟩ := derives_head hleft
      exact ⟨kind, _, rfl, Nat.le_trans (by decide) hkind⟩
  | _, _, _, .call hcallee hargs => by
      obtain ⟨kind, rest, rfl, hkind⟩ := derives_head hcallee
      exact ⟨kind, _, rfl, hkind⟩
  | _, _, _, .member hobject => by
      obtain ⟨kind, rest, rfl, hkind⟩ := derives_head hobject
      exact ⟨kind, _, rfl, hkind⟩
  | _, _, _, .leaf hleaf => ⟨_, _, rfl, Nat.le_of_eq (leading_of_leaf hleaf).symm⟩
  | _, _, _, .parens hinner => ⟨_, _, rfl, by decide⟩

/-- A token that begins no expression of a level is not the first one of such an expression. -/
theorem head?_ne_of_derives {level : Level} {kinds rest : List Kind} {expr : Expr} {kind : Kind}
    (h : Derives level kinds expr) (hkind : leading kind < level.rank) :
    (kinds ++ rest).head? ≠ some kind := by
  obtain ⟨first, behind, rfl, hfirst⟩ := derives_head h
  intro heq
  cases heq
  exact absurd hfirst (Nat.not_le.mpr hkind)

theorem length_pos_of_derives {level : Level} {kinds : List Kind} {expr : Expr}
    (h : Derives level kinds expr) : 0 < kinds.length := by
  obtain ⟨kind, rest, rfl, -⟩ := derives_head h
  exact Nat.zero_lt_succ _

end Grammar

namespace Parser

open Grammar

/-! ## Loops -/

/-- The reader of a level. `fuel` bounds the operators that stand before an operand. -/
def reader (rounds fuel : Nat) (expression : Parser Expr) : Level → Parser Expr
  | .disjunction => disjunction rounds expression
  | .conjunction => conjunction rounds expression
  | .negation => signed (.keyword .notWord) .not (comparison rounds expression) fuel
  | .comparison => comparison rounds expression
  | .sum => sum rounds expression
  | .product => product rounds expression
  | .factor => signed (.symbol .minus) .neg (trailed rounds expression) fuel
  | .trailed => trailed rounds expression
  | .atom => atom expression

/-- What the reader of a level does behind its first operand. -/
def continuation (rounds : Nat) (expression : Parser Expr) :
    Level → (rounds' held : Nat) → Expr → Parser Expr
  | .disjunction => chain disjunctionOp (conjunction rounds expression)
  | .conjunction => chain conjunctionOp (negation rounds expression)
  | .sum => chain sumOp (product rounds expression)
  | .product => chain productOp (factor rounds expression)
  | .trailed => trailers rounds expression
  | _ => fun _ _ expr => Pure.pure expr

/-- The result is the given expression, its spans apart, and the given tokens are left. -/
def Gives (expr : Expr) (rest : List Kind) (value : Expr) (state : ParseState) : Prop :=
  value.bare = expr ∧ state.kinds = rest

/-- The given arguments are read behind those read before, up to the closing parenthesis. -/
def GivesArguments (read : List Expr) (args : List Expr) (rest : List Kind) (value : List Expr)
    (state : ParseState) : Prop :=
  value.map Expr.bare = read.reverse.map Expr.bare ++ args ∧
    state.kinds = .symbol .closeParen :: rest

section

variable {rounds : Nat} {expression : Parser Expr} {level : Level} {expr : Expr} {rest : List Kind}

/-- To follow the reader of a level it is enough to follow what it does behind the expression. -/
def Reaches (rounds fuel : Nat) (expression : Parser Expr) (level : Level) (state : ParseState)
    (expr : Expr) (rest : List Kind) : Prop :=
  ∀ good : Expr → ParseState → Prop,
    (∀ rounds' held value state', Gives expr rest value state' → rest.length < rounds' →
      Yields (continuation rounds expression level rounds' held value) state' good) →
    Yields (reader rounds fuel expression level) state good

theorem operator_eq_none {operator : Kind → Option (Span → Expr → Expr → Expr)}
    (hoperator : Implements level operator) (hends : Ends level.rank rest) :
    rest.head?.bind operator = none := by
  cases hrest : rest.head? with
  | none => rfl
  | some kind =>
      cases hkind : operator kind with
      | none => exact hkind
      | some node =>
          have hjoins :=
            hoperator.joins hkind ⟨0, 0⟩ (.literal ⟨0, 0⟩ .none) (.literal ⟨0, 0⟩ .none)
          have hlt := hends kind hrest
          rw [(strength_of_joins hjoins).1] at hlt
          exact absurd hlt (Nat.lt_irrefl _)

theorem compareOp_eq_none (hends : Ends Level.comparison.rank rest) :
    rest.head?.bind compareOp = none := by
  cases hrest : rest.head? with
  | none => rfl
  | some kind =>
      cases hkind : compareOp kind with
      | none => exact hkind
      | some op =>
          have hlt := hends kind hrest
          rw [strength_of_compares (compareOp_eq_some_iff.mp hkind)] at hlt
          exact absurd hlt (Nat.lt_irrefl _)

theorem chain_ends {operator : Kind → Option (Span → Expr → Expr → Expr)} {operand : Parser Expr}
    {rounds' held : Nat} {value : Expr} {state : ParseState}
    (hoperator : Implements level operator) (hends : Ends level.rank rest)
    (hvalue : Gives expr rest value state) (hrounds : rest.length < rounds') :
    Yields (chain operator operand rounds' held value) state (Gives expr rest) := by
  obtain ⟨rounds', rfl⟩ := Nat.exists_eq_add_one_of_ne_zero (Nat.ne_zero_of_lt hrounds)
  refine Yields.peek ?_
  rw [hvalue.2, operator_eq_none hoperator hends]
  exact Yields.leave fun state' hstate' => Yields.pure ⟨hvalue.1, hstate'.trans hvalue.2⟩

theorem trailers_ends {rounds' held : Nat} {value : Expr} {state : ParseState}
    (hends : Ends Level.trailed.rank rest) (hvalue : Gives expr rest value state)
    (hrounds : rest.length < rounds') :
    Yields (trailers rounds expression rounds' held value) state (Gives expr rest) := by
  obtain ⟨rounds', rfl⟩ := Nat.exists_eq_add_one_of_ne_zero (Nat.ne_zero_of_lt hrounds)
  refine Yields.peek ?_
  rw [hvalue.2]
  split
  next hhead => exact absurd (hends _ hhead) (by decide)
  next hhead => exact absurd (hends _ hhead) (by decide)
  next => exact Yields.leave fun state' hstate' => Yields.pure ⟨hvalue.1, hstate'.trans hvalue.2⟩

/-- Behind an expression of a level nothing more is read if the next token is weaker. -/
theorem continuation_ends {rounds' held : Nat} {value : Expr} {state : ParseState}
    (hends : Ends level.rank rest) (hvalue : Gives expr rest value state)
    (hrounds : rest.length < rounds') :
    Yields (continuation rounds expression level rounds' held value) state (Gives expr rest) := by
  cases level with
  | disjunction => exact chain_ends disjunctionOp_implements hends hvalue hrounds
  | conjunction => exact chain_ends conjunctionOp_implements hends hvalue hrounds
  | sum => exact chain_ends sumOp_implements hends hvalue hrounds
  | product => exact chain_ends productOp_implements hends hvalue hrounds
  | trailed => exact trailers_ends hends hvalue hrounds
  | negation | comparison | factor | atom => exact Yields.pure hvalue

theorem Reaches.yields {fuel : Nat} {state : ParseState} (hends : Ends level.rank rest)
    (h : Reaches rounds fuel expression level state expr rest) :
    Yields (reader rounds fuel expression level) state (Gives expr rest) :=
  h _ fun _ _ _ _ hvalue hrounds => continuation_ends hends hvalue hrounds

/-! ## Derivations -/

theorem continuation_of_joins (rounds : Nat) (expression : Parser Expr) {kind : Kind}
    {next : Level} {left right : Expr} (hjoins : Joins level kind left right expr)
    (hnext : level.stronger = some next) :
    ∃ operator, Implements level operator ∧ continuation rounds expression level =
      chain operator (reader rounds rounds expression next) := by
  cases hjoins <;> cases hnext
  case or.refl => exact ⟨_, disjunctionOp_implements, rfl⟩
  case and.refl => exact ⟨_, conjunctionOp_implements, rfl⟩
  case plus.refl | minus.refl => exact ⟨_, sumOp_implements, rfl⟩
  case star.refl | floorDivide.refl | percent.refl => exact ⟨_, productOp_implements, rfl⟩

/-- An operator behind an expression of its level is read, and so is its right operand. -/
theorem continuation_joins {kind : Kind} {next : Level} {left right : Expr} {behind : List Kind}
    {rounds' held : Nat} {value : Expr} {state : ParseState} {good : Expr → ParseState → Prop}
    (hjoins : Joins level kind left right expr) (hnext : level.stronger = some next)
    (hvalue : Gives left (kind :: behind) value state)
    (hright : ∀ state, state.kinds = behind →
      Yields (reader rounds rounds expression next) state (Gives right rest))
    (hgood : ∀ held value state', Gives expr rest value state' →
      Yields (continuation rounds expression level rounds' held value) state' good) :
    Yields (continuation rounds expression level (rounds' + 1) held value) state good := by
  obtain ⟨operator, hoperator, hcontinuation⟩ :=
    continuation_of_joins rounds expression hjoins hnext
  obtain ⟨node, hnode, hbare⟩ := hoperator.finds hjoins
  rw [hcontinuation] at hgood ⊢
  refine Yields.peek ?_
  have hhead : state.kinds.head?.bind operator = some node := by
    rw [hvalue.2]
    exact hnode
  rw [hhead]
  refine Yields.skip hvalue.2 fun state₁ hstate₁ => Yields.enter fun state₂ hstate₂ => ?_
  refine (hright state₂ (hstate₂.trans hstate₁)).bind fun operand state₃ hoperand => ?_
  exact hgood _ _ _ ⟨hbare _ _ _ hvalue.1 hoperand.1, hoperand.2⟩

/-- A level whose operand begins with no sign is read as that operand. -/
theorem signed_other {sign : Kind} {op : UnaryOp} {operand : Parser Expr} {fuel : Nat}
    {state : ParseState} {good : Expr → ParseState → Prop} (hfuel : 0 < fuel)
    (hhead : state.kinds.head? ≠ some sign) (h : Yields operand state good) :
    Yields (signed sign op operand fuel) state good := by
  obtain ⟨fuel, rfl⟩ := Nat.exists_eq_add_one_of_ne_zero (Nat.ne_of_gt hfuel)
  exact Yields.eat_other hhead h

/-- The reader of a level begins with its first operand, which is of the next level. -/
theorem reaches_of_operand {fuel : Nat} {next : Level} {state : ParseState} {kinds : List Kind}
    (hnext : level.stronger = some next) (hexpr : Derives next kinds expr)
    (hstate : state.kinds = kinds ++ rest) (hrounds : kinds.length + rest.length < rounds)
    (hfuel : kinds.length + rest.length < fuel) (hends : Ends level.tolerance rest)
    (h : Yields (reader rounds rounds expression next) state (Gives expr rest)) :
    Reaches rounds fuel expression level state expr rest := by
  intro good hgood
  have hrest : rest.length < rounds := by omega
  have hsign {sign : Kind} (hsign : leading sign < next.rank) : state.kinds.head? ≠ some sign :=
    hstate ▸ head?_ne_of_derives hexpr hsign
  have hpass : ∀ value state', Gives expr rest value state' →
      Yields (continuation rounds expression level rounds 0 value) state' good :=
    fun value state' hvalue => hgood rounds 0 value state' hvalue hrest
  cases level <;> cases hnext
  case disjunction | conjunction | sum | product | trailed => exact h.bind hpass
  case negation => exact signed_other (by omega) (hsign (by decide)) (h.pass hpass)
  case factor => exact signed_other (by omega) (hsign (by decide)) (h.pass hpass)
  case comparison =>
    refine h.bind fun value state' hvalue => Yields.peek ?_
    have hop : state'.kinds.head?.bind compareOp = none := by
      rw [hvalue.2]
      exact compareOp_eq_none hends
    rw [hop]
    exact hpass value state' hvalue

end

section

variable {rounds : Nat} {expression : Parser Expr} {expr : Expr} {kind : Kind}
  {behind rest : List Kind} {state : ParseState}

/-- At a level without a chain it is enough that the level is read. -/
theorem Reaches.of_yields {fuel : Nat} {level : Level} (hlevel : level.chains = false)
    (h : Yields (reader rounds fuel expression level) state (Gives expr rest)) :
    Reaches rounds fuel expression level state expr rest := by
  intro good hgood
  refine h.pass fun value state' hvalue => ?_
  have hpure := hgood (rest.length + 1) 0 value state' hvalue (Nat.lt_succ_self _)
  cases level <;> first | exact hpure | exact nomatch hlevel

theorem atom_leaf (hleaf : Leaf kind expr) (hstate : state.kinds = kind :: rest) :
    Yields (atom expression) state (Gives expr rest) := by
  refine Yields.peekToken hstate fun token hkind => ?_
  have hskip {value : Expr} (hvalue : value.bare = expr) :
      Yields (skip >>= fun _ => Pure.pure value) state (Gives expr rest) :=
    Yields.skip hstate fun _ hrest => Yields.pure ⟨hvalue, hrest⟩
  dsimp only
  cases hleaf <;> rw [hkind] <;> exact hskip rfl

theorem atom_parens (hstate : state.kinds = .symbol .openParen :: behind)
    (hinner : ∀ state', state'.kinds = behind →
      Yields expression state' (Gives expr (.symbol .closeParen :: rest))) :
    Yields (atom expression) state (Gives expr rest) := by
  refine Yields.peekToken hstate fun token hkind => ?_
  dsimp only
  rw [hkind]
  refine Yields.skip hstate fun state₁ hstate₁ => (hinner state₁ hstate₁).bind ?_
  intro inner state₂ hinner
  refine Yields.expect hinner.2 fun close state₃ hstate₃ => Yields.pure ⟨?_, hstate₃⟩
  rw [Expr.bare_withSpan]
  exact hinner.1

theorem trailers_call {callee : Expr} {args : List Expr} {rounds' held : Nat} {value : Expr}
    {good : Expr → ParseState → Prop}
    (hvalue : Gives callee (.symbol .openParen :: behind) value state)
    (hargs : ∀ state', state'.kinds = behind →
      Yields (arguments expression rounds []) state' (GivesArguments [] args rest))
    (hgood : ∀ held value state', Gives (.call Grammar.nowhere callee args) rest value state' →
      Yields (trailers rounds expression rounds' held value) state' good) :
    Yields (trailers rounds expression (rounds' + 1) held value) state good := by
  refine Yields.peek ?_
  rw [hvalue.2]
  refine Yields.enter fun state₁ hstate₁ => Yields.skip (hstate₁.trans hvalue.2) ?_
  intro state₂ hstate₂
  refine (hargs state₂ hstate₂).bind fun found state₃ hfound => ?_
  refine Yields.expect hfound.2 fun close state₄ hstate₄ => hgood _ _ _ ⟨?_, hstate₄⟩
  rw [Expr.bare, bareExprs_eq_map, hvalue.1, hfound.1]
  rfl

theorem trailers_member {object : Expr} {name : String} {rounds' held : Nat} {value : Expr}
    {good : Expr → ParseState → Prop}
    (hvalue : Gives object (.symbol .dot :: .identifier name :: rest) value state)
    (hgood : ∀ held value state', Gives (.member Grammar.nowhere object name) rest value state' →
      Yields (trailers rounds expression rounds' held value) state' good) :
    Yields (trailers rounds expression (rounds' + 1) held value) state good := by
  refine Yields.peek ?_
  rw [hvalue.2]
  refine Yields.enter fun state₁ hstate₁ => Yields.skip (hstate₁.trans hvalue.2) ?_
  intro state₂ hstate₂
  refine Yields.identifier hstate₂ fun span state₃ hstate₃ => hgood _ _ _ ⟨?_, hstate₃⟩
  rw [Expr.bare, hvalue.1]

theorem signed_reaches {level : Level} {op : UnaryOp} {operand : Expr} {fuel : Nat}
    (hsign : Prefixes level kind op) (hstate : state.kinds = kind :: behind)
    (hoperand : ∀ state', state'.kinds = behind →
      Yields (reader rounds fuel expression level) state' (Gives operand rest)) :
    Reaches rounds (fuel + 1) expression level state (.unary Grammar.nowhere op operand) rest := by
  have hread {inner : Parser Expr}
      (hinner : ∀ state', state'.kinds = behind →
        Yields (signed kind op inner fuel) state' (Gives operand rest)) :
      Yields (signed kind op inner (fuel + 1)) state
        (Gives (.unary Grammar.nowhere op operand) rest) := by
    refine Yields.eat hstate fun state₁ hstate₁ => Yields.lastSpan fun start => ?_
    refine Yields.enter fun state₂ hstate₂ => ?_
    refine (hinner state₂ (hstate₂.trans hstate₁)).bind fun value state₃ hvalue => ?_
    refine Yields.leave fun state₄ hstate₄ => Yields.pure ⟨?_, hstate₄.trans hvalue.2⟩
    rw [Expr.bare, hvalue.1]
  cases hsign with
  | not => exact .of_yields rfl (hread hoperand)
  | minus => exact .of_yields rfl (hread hoperand)

theorem comparison_compare {op : CompareOp} {left right : Expr} (hcompares : Compares kind op)
    (hends : Ends Level.comparison.rank rest)
    (hleft : Yields (sum rounds expression) state (Gives left (kind :: behind)))
    (hright : ∀ state', state'.kinds = behind →
      Yields (sum rounds expression) state' (Gives right rest)) :
    Yields (comparison rounds expression) state
      (Gives (.compare Grammar.nowhere op left right) rest) := by
  refine hleft.bind fun leftValue state₁ hleftValue => Yields.peek ?_
  have hop : state₁.kinds.head?.bind compareOp = some op := by
    rw [hleftValue.2]
    exact compareOp_eq_some_iff.mpr hcompares
  rw [hop]
  refine Yields.skip hleftValue.2 fun state₂ hstate₂ => (hright state₂ hstate₂).bind ?_
  intro rightValue state₃ hrightValue
  have hresult : Yields (Pure.pure (combine (.compare · op) leftValue rightValue)) state₃
      (Gives (.compare Grammar.nowhere op left right) rest) :=
    Yields.pure ⟨by rw [combine, Expr.bare, hleftValue.1, hrightValue.1], hrightValue.2⟩
  refine Yields.peekToken_or_none hresult fun token htoken => ?_
  have hnone : compareOp token.kind = none := by
    rw [hrightValue.2] at htoken
    have hbind := compareOp_eq_none hends
    rw [htoken] at hbind
    exact hbind
  dsimp only
  rw [hnone]
  exact hresult

/-- A whole expression is read if the loop of the weakest level is reached. -/
theorem expressionWithin_yields {kinds : List Kind} {levels : Nat} (hpos : 0 < kinds.length)
    (hlevels : kinds.length ≤ levels) (hends : Ends Level.disjunction.rank rest)
    (h : ∀ {levels state'}, kinds.length ≤ levels + 1 → state'.kinds = state.kinds →
      Reaches rounds rounds (expressionWithin rounds levels) .disjunction state' expr rest) :
    Yields (expressionWithin rounds levels) state (Gives expr rest) := by
  cases levels with
  | zero => exact absurd hpos (Nat.not_lt.mpr hlevels)
  | succ levels =>
      refine Yields.enter fun state₁ hstate₁ => ?_
      refine ((h hlevels hstate₁).yields hends).bind fun value state₂ hvalue => ?_
      exact Yields.leave fun _ hstate₃ => Yields.pure ⟨hvalue.1, hstate₃.trans hvalue.2⟩

theorem arguments_last {rounds' : Nat} {read : List Expr}
    (hhead : state.kinds.head? ≠ some (.symbol .closeParen))
    (hread : Yields expression state (Gives expr (.symbol .closeParen :: rest))) :
    Yields (arguments expression (rounds' + 1) read) state (GivesArguments read [expr] rest) := by
  refine Yields.isNext ?_
  rw [beq_false_of_ne hhead]
  refine hread.bind fun value state₁ hvalue => Yields.eat_other ?_ (Yields.pure ⟨?_, hvalue.2⟩)
  · rw [hvalue.2]
    exact fun hcomma => nomatch hcomma
  · rw [List.reverse_cons, List.map_append, List.map_singleton, hvalue.1]

theorem arguments_cons {rounds' : Nat} {read args : List Expr}
    (hhead : state.kinds.head? ≠ some (.symbol .closeParen))
    (hread : Yields expression state (Gives expr (.symbol .comma :: behind)))
    (hmore : ∀ value state', state'.kinds = behind →
      Yields (arguments expression rounds' (value :: read)) state'
        (GivesArguments (value :: read) args rest)) :
    Yields (arguments expression (rounds' + 1) read) state
      (GivesArguments read (expr :: args) rest) := by
  refine Yields.isNext ?_
  rw [beq_false_of_ne hhead]
  refine hread.bind fun value state₁ hvalue => Yields.eat hvalue.2 fun state₂ hstate₂ => ?_
  refine (hmore value state₂ hstate₂).pass fun found state₃ hfound => Yields.pure ⟨?_, hfound.2⟩
  rw [hfound.1, List.reverse_cons, List.map_append, List.map_singleton, hvalue.1,
    List.append_assoc, List.singleton_append]

end

/-- A loop that still has a token to read has a round left. -/
theorem exists_rounds {left rounds : Nat} (h : left < rounds) :
    ∃ rounds', rounds = rounds' + 1 ∧ left ≤ rounds' := by
  obtain ⟨rounds', rfl⟩ := Nat.exists_eq_add_one_of_ne_zero (Nat.ne_zero_of_lt h)
  exact ⟨rounds', rfl, Nat.le_of_lt_succ h⟩

mutual
/-- The loop of the level of a derived expression is reached. -/
theorem derives_reaches {level : Level} {kinds : List Kind} {expr : Expr}
    (h : Derives level kinds expr) :
    ∀ {rounds levels fuel : Nat} {state : ParseState} {rest : List Kind},
      state.kinds = kinds ++ rest → kinds.length + rest.length < rounds →
      kinds.length + rest.length < fuel → kinds.length ≤ levels + 1 → Ends level.tolerance rest →
      Reaches rounds fuel (expressionWithin rounds levels) level state expr rest := by
  intro rounds levels fuel state rest hstate hrounds hfuel hlevels hends
  match h with
  -- The recursion is on the derivation. Fuel and levels only have to outlast the kinds, which an
  -- operand of the next level does not change.
  | .stronger hnext hexpr =>
      have hweaker := hends.mono (tolerance_le_rank hnext)
      have hreaches := derives_reaches hexpr hstate hrounds hrounds hlevels
        (hweaker.mono (rank_le_tolerance _))
      exact reaches_of_operand hnext hexpr hstate hrounds hfuel hends (hreaches.yields hweaker)
  | @Derives.chain _ next kind before left behind right _ hleft hnext hright hjoins =>
      intro good hgood
      -- The left operand is reached with the operator behind it, and the rounds that are left
      -- then suffice for the operator and the right operand.
      rw [List.append_assoc, List.cons_append] at hstate
      have hweaker := hends.mono (tolerance_le_rank hnext)
      refine derives_reaches hleft hstate (by grind) (by grind) (by grind)
        (ends_cons (strength_lt_tolerance hjoins)) good ?_
      intro rounds' held value state₁ hvalue hrounds'
      obtain ⟨rounds', rfl, hleft'⟩ := exists_rounds hrounds'
      refine continuation_joins hjoins hnext hvalue (fun state₂ hstate₂ => ?_)
        fun held value state₂ hvalue => hgood _ held value state₂ hvalue (by grind)
      exact (derives_reaches hright hstate₂ (by grind) (by grind) (by grind)
        (hweaker.mono (rank_le_tolerance next))).yields hweaker
  | @Derives.signed _ kind _ kinds _ hsign hoperand =>
      rw [List.cons_append] at hstate
      rw [List.length_cons] at hrounds hfuel hlevels
      have hweaker : Ends level.rank rest := by
        cases hsign <;> exact hends
      obtain ⟨fuel, rfl, -⟩ := exists_rounds hfuel
      refine signed_reaches hsign hstate fun state₁ hstate₁ => ?_
      exact (derives_reaches hoperand hstate₁ (by grind) (by grind) (by grind) hends).yields hweaker
  | @Derives.compare kind _ before left behind _ hleft hcompares hright =>
      rw [List.append_assoc, List.cons_append] at hstate
      have hcompare : strength kind < Level.sum.rank := by
        rw [strength_of_compares hcompares]
        decide
      have hrounds' : before.length + (kind :: (behind ++ rest)).length < rounds := by grind
      have hleft' : Yields (sum rounds (expressionWithin rounds levels)) state
          (Gives left (kind :: (behind ++ rest))) :=
        (derives_reaches hleft hstate hrounds' hrounds' (by grind)
          ((ends_cons hcompare).mono (rank_le_tolerance _))).yields (ends_cons hcompare)
      refine .of_yields rfl (comparison_compare hcompares hends hleft' fun state₁ hstate₁ => ?_)
      have hrest : behind.length + rest.length < rounds := by grind
      exact (derives_reaches hright hstate₁ hrest hrest (by grind)
        (hends.mono (by decide))).yields (hends.mono (by decide))
  | @Derives.call before _ between _ hcallee hargs =>
      intro good hgood
      simp only [List.append_assoc, List.cons_append, List.nil_append] at hstate
      refine derives_reaches hcallee hstate (by grind) (by grind) (by grind)
        (ends_cons (by decide)) good ?_
      intro rounds' held value state₁ hvalue hrounds'
      obtain ⟨rounds', rfl, hleft'⟩ := exists_rounds hrounds'
      refine trailers_call hvalue (fun state₂ hstate₂ => ?_)
        fun held value state₂ hvalue => hgood _ held value state₂ hvalue (by grind)
      exact derived_arguments hargs [] hstate₂ (by grind) (by grind) (by grind)
  | @Derives.member before _ name hobject =>
      intro good hgood
      simp only [List.append_assoc, List.cons_append, List.nil_append] at hstate
      refine derives_reaches hobject hstate (by grind) (by grind) (by grind)
        (ends_cons (by decide)) good ?_
      intro rounds' held value state₁ hvalue hrounds'
      obtain ⟨rounds', rfl, hleft'⟩ := exists_rounds hrounds'
      exact trailers_member hvalue
        fun held value state₂ hvalue => hgood _ held value state₂ hvalue (by grind)
  | .leaf hleaf => exact .of_yields rfl (atom_leaf hleaf hstate)
  | @Derives.parens kinds _ hinner =>
      simp only [List.append_assoc, List.cons_append, List.nil_append] at hstate
      refine .of_yields rfl (atom_parens hstate fun state₁ hstate₁ => ?_)
      refine expressionWithin_yields (length_pos_of_derives hinner) (by grind)
        (ends_cons (by decide)) fun hlevels' hstate₂ => ?_
      exact derives_reaches hinner (hstate₂.trans hstate₁) (by grind) (by grind) hlevels'
        (ends_cons (by decide))

/-- Derived arguments are read up to the closing parenthesis. -/
theorem derived_arguments {kinds : List Kind} {args : List Expr} (h : Arguments kinds args) :
    ∀ {rounds rounds' levels : Nat} {state : ParseState} {rest : List Kind} (read : List Expr),
      state.kinds = kinds ++ .symbol .closeParen :: rest →
      kinds.length + rest.length + 1 < rounds → kinds.length + rest.length + 1 < rounds' →
      kinds.length ≤ levels →
      Yields (arguments (expressionWithin rounds levels) rounds' read) state
        (GivesArguments read args rest) := by
  intro rounds rounds' levels state rest read hstate hrounds hrounds' hlevels
  obtain ⟨rounds', rfl, hleft⟩ := exists_rounds hrounds'
  match h with
  | .nil =>
      refine Yields.isNext ?_
      rw [hstate]
      exact Yields.pure ⟨(List.append_nil _).symm, hstate⟩
  | .last harg =>
      refine arguments_last (hstate ▸ head?_ne_of_derives harg (by decide)) ?_
      refine expressionWithin_yields (length_pos_of_derives harg) hlevels
        (ends_cons (by decide)) fun hlevels' hstate₁ => ?_
      exact derives_reaches harg (hstate₁.trans hstate) (by grind) (by grind) hlevels'
        (ends_cons (by decide))
  | @Arguments.cons kinds arg more _ harg hargs =>
      rw [List.append_assoc, List.cons_append] at hstate
      have hread : Yields (expressionWithin rounds levels) state
          (Gives arg (.symbol .comma :: (more ++ .symbol .closeParen :: rest))) := by
        refine expressionWithin_yields (length_pos_of_derives harg) (by grind)
          (ends_cons (by decide)) fun hlevels' hstate₁ => ?_
        exact derives_reaches harg (hstate₁.trans hstate) (by grind) (by grind) hlevels'
          (ends_cons (by decide))
      refine arguments_cons (hstate ▸ head?_ne_of_derives harg (by decide)) hread ?_
      intro value state₁ hstate₁
      exact derived_arguments hargs _ hstate₁ (by grind) (by grind) (by grind)
end

/-- What derives as an expression is read as that expression, before a token that continues
none. -/
theorem expression_yields {rounds : Nat} {kinds rest : List Kind} {expr : Expr}
    {state : ParseState} (h : Expression kinds expr) (hstate : state.kinds = kinds ++ rest)
    (hrounds : kinds.length + rest.length < rounds) (hends : Ends Level.disjunction.rank rest) :
    Yields (expression rounds) state (Gives expr rest) :=
  expressionWithin_yields (length_pos_of_derives h) (by omega) hends fun hlevels hstate' =>
    derives_reaches h (hstate'.trans hstate) hrounds hrounds hlevels (hends.mono (by decide))

end Parser

end FrozenScript
