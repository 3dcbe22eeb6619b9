import FrozenScript.Proofs.Syntax.Complete.Expression

/-!
# Statements of the grammar are read

As for expressions, one token decides how a statement is read: `beginsSimple` and `beginsStatement`
say which tokens may begin one. What follows a statement is no `elif` and no `else` (`Follows`), as
these continue a branch. `statement_yields` is by induction on the derivation, together with blocks
and alternatives, and `program_yields` is its consequence for a whole program.
-/

namespace FrozenScript

open Text

namespace Grammar

/-! ## One token of lookahead -/

/-- Whether a token may begin a statement without a block. -/
def beginsSimple : Kind → Bool
  | .keyword .passWord | .keyword .breakWord | .keyword .continueWord | .keyword .returnWord
  | .keyword .importWord | .keyword .assertWord => true
  | kind => decide (0 < leading kind)

/-- Whether a token may begin a statement. -/
def beginsStatement : Kind → Bool
  | .keyword .ifWord | .keyword .whileWord | .keyword .defWord => true
  | kind => beginsSimple kind

/-- The next token continues no branch. -/
def Follows (rest : List Kind) : Prop :=
  rest.head? ≠ some (.keyword .elifWord) ∧ rest.head? ≠ some (.keyword .elseWord)

theorem beginsSimple_of_leading {kind : Kind} (h : 0 < leading kind) :
    beginsSimple kind = true := by
  unfold beginsSimple
  split
  case h_7 => exact decide_eq_true h
  all_goals rfl

theorem beginsStatement_of_beginsSimple {kind : Kind} (h : beginsSimple kind = true) :
    beginsStatement kind = true := by
  unfold beginsStatement
  split
  case h_4 => exact h
  all_goals rfl

theorem expression_head {kinds : List Kind} {expr : Expr} (h : Expression kinds expr) :
    ∃ kind rest, kinds = kind :: rest ∧ 0 < leading kind :=
  derives_head h

theorem simple_head {kinds : List Kind} {stmt : Stmt} (h : Simple kinds stmt) :
    ∃ kind rest, kinds = kind :: rest ∧ beginsSimple kind = true := by
  cases h with
  | assign htarget hvalue =>
      obtain ⟨kind, rest, rfl, hkind⟩ := expression_head htarget
      exact ⟨kind, _, rfl, beginsSimple_of_leading hkind⟩
  | expr hvalue =>
      obtain ⟨kind, rest, rfl, hkind⟩ := expression_head hvalue
      exact ⟨kind, rest, rfl, beginsSimple_of_leading hkind⟩
  | _ => exact ⟨_, _, rfl, rfl⟩

/-- A statement begins with a token that may begin one. -/
theorem statement_head {kinds : List Kind} {stmt : Stmt} (h : Statement kinds stmt) :
    ∃ kind rest, kinds = kind :: rest ∧ beginsStatement kind = true := by
  cases h with
  | simple hsimple =>
      obtain ⟨kind, rest, rfl, hkind⟩ := simple_head hsimple
      exact ⟨kind, _, rfl, beginsStatement_of_beginsSimple hkind⟩
  | _ => exact ⟨_, _, rfl, rfl⟩

/-- A token that begins no statement is not the first one of a statement. -/
theorem head?_ne_of_statement {kinds rest : List Kind} {stmt : Stmt} {kind : Kind}
    (h : Statement kinds stmt) (hkind : beginsStatement kind = false) :
    (kinds ++ rest).head? ≠ some kind := by
  obtain ⟨first, behind, rfl, hfirst⟩ := statement_head h
  intro heq
  cases heq
  rw [hkind] at hfirst
  exact nomatch hfirst

theorem head?_ne_of_simple {kinds rest : List Kind} {stmt : Stmt} {kind : Kind}
    (h : Simple kinds stmt) (hkind : beginsStatement kind = false) :
    (kinds ++ .newline :: rest).head? ≠ some kind := by
  rw [← List.singleton_append, ← List.append_assoc]
  exact head?_ne_of_statement (.simple h) hkind

theorem follows_cons {kind : Kind} {rest : List Kind} (helif : kind ≠ .keyword .elifWord)
    (helse : kind ≠ .keyword .elseWord) : Follows (kind :: rest) :=
  ⟨fun heq => helif (Option.some.inj heq), fun heq => helse (Option.some.inj heq)⟩

/-- Between statements no branch is continued. -/
theorem follows_of_statements {kinds rest : List Kind} {body : List Stmt}
    (h : Statements kinds body) (hrest : Follows rest) : Follows (kinds ++ rest) := by
  cases h with
  | nil => exact hrest
  | cons hstmt hbody =>
      rw [List.append_assoc]
      exact ⟨head?_ne_of_statement hstmt rfl, head?_ne_of_statement hstmt rfl⟩

theorem length_pos_of_statement {kinds : List Kind} {stmt : Stmt} (h : Statement kinds stmt) :
    0 < kinds.length := by
  obtain ⟨kind, rest, rfl, -⟩ := statement_head h
  exact Nat.zero_lt_succ _

end Grammar

namespace Parser

open Grammar

/-! ## Statements without a block -/

/-- The result is the given statement at any place, and the end of the line is left. -/
def GivesSimple (stmt : Stmt) (rest : List Kind) (value : Place → Stmt) (state : ParseState) :
    Prop :=
  (∀ place, (value place).bare = stmt) ∧ state.kinds = .newline :: rest

/-- The result is the given statement, its places apart, and the given tokens are left. -/
def GivesStmt (stmt : Stmt) (rest : List Kind) (value : Stmt) (state : ParseState) : Prop :=
  value.bare = stmt ∧ state.kinds = rest

/-- The result is the given block, its places apart, and the given tokens are left. -/
def GivesBlock (body : Block) (rest : List Kind) (value : Block) (state : ParseState) : Prop :=
  Block.bare value = body ∧ state.kinds = rest

section

variable {rounds : Nat} {state : ParseState} {kinds rest : List Kind} {stmt : Stmt}

/-- A token that begins an expression begins an assignment or an expression as a statement. -/
theorem simple_of_leading {kind : Kind} {good : (Place → Stmt) → ParseState → Prop}
    (hstate : state.kinds.head? = some kind) (hkind : 0 < leading kind)
    (h : Yields (do
      let target ← expression rounds
      if ← eat (.symbol .assign) then
        let value ← expression rounds
        return (.assign · target value)
      return (.expr · target)) state good) :
    Yields (simple rounds) state good := by
  refine Yields.peek ?_
  rw [hstate]
  split
  case h_7 => exact h
  all_goals
    next hword =>
      obtain rfl := Option.some.inj hword
      exact absurd hkind (by decide)

/-- What derives as a statement without a block is read as that statement, before the end of its
line. -/
theorem simple_yields (h : Simple kinds stmt) (hstate : state.kinds = kinds ++ .newline :: rest)
    (hrounds : kinds.length + rest.length + 1 < rounds) :
    Yields (simple rounds) state (GivesSimple stmt rest) := by
  have hends {kind : Kind} (hkind : strength kind = 0) (rest : List Kind) :
      Ends Level.disjunction.rank (kind :: rest) :=
    ends_cons (by rw [hkind]; decide)
  cases h with
  | pass | breakLoop | continueLoop =>
      refine Yields.peek ?_
      rw [hstate]
      exact Yields.skip hstate fun _ hrest => Yields.pure ⟨fun _ => rfl, hrest⟩
  | giveBack =>
      refine Yields.peek ?_
      rw [hstate]
      refine Yields.skip hstate fun state₁ hstate₁ => Yields.isNext ?_
      rw [hstate₁]
      exact Yields.pure ⟨fun _ => rfl, hstate₁⟩
  | giveBackValue hvalue =>
      refine Yields.peek ?_
      rw [hstate]
      refine Yields.skip hstate fun state₁ hstate₁ => Yields.isNext ?_
      have hnewline : (state₁.kinds.head? == some .newline) = false :=
        beq_false_of_ne (hstate₁ ▸ head?_ne_of_derives hvalue (by decide))
      rw [hnewline]
      refine (expression_yields hvalue hstate₁ (by grind) (hends rfl rest)).bind ?_
      intro value state₂ hgives
      exact Yields.pure ⟨fun _ => by rw [← hgives.1]; rfl, hgives.2⟩
  | importModule =>
      refine Yields.peek ?_
      rw [hstate]
      refine Yields.skip hstate fun state₁ hstate₁ => ?_
      exact Yields.identifier hstate₁ fun _ _ hrest => Yields.pure ⟨fun _ => rfl, hrest⟩
  | assert htest =>
      refine Yields.peek ?_
      rw [hstate]
      refine Yields.skip hstate fun state₁ hstate₁ => ?_
      refine (expression_yields htest hstate₁ (by grind) (hends rfl rest)).bind ?_
      intro test state₂ htest'
      refine Yields.eat_other ?_ (Yields.pure ⟨fun _ => by rw [← htest'.1]; rfl, htest'.2⟩)
      rw [htest'.2]
      exact fun hcomma => nomatch hcomma
  | assertMessage htest hmessage =>
      simp only [List.append_assoc, List.cons_append] at hstate
      refine Yields.peek ?_
      rw [hstate]
      refine Yields.skip hstate fun state₁ hstate₁ => ?_
      refine (expression_yields htest hstate₁ (by grind) (hends rfl _)).bind ?_
      intro test state₂ htest'
      refine Yields.eat htest'.2 fun state₃ hstate₃ => ?_
      refine (expression_yields hmessage hstate₃ (by grind) (hends rfl rest)).bind ?_
      intro message state₄ hmessage'
      exact Yields.pure ⟨fun _ => by rw [← htest'.1, ← hmessage'.1]; rfl, hmessage'.2⟩
  | assign htarget hvalue =>
      simp only [List.append_assoc, List.cons_append] at hstate
      obtain ⟨kind, behind, hkinds, hkind⟩ := expression_head htarget
      refine simple_of_leading (by rw [hstate, hkinds]; rfl) hkind ?_
      refine (expression_yields htarget hstate (by grind) (hends rfl _)).bind ?_
      intro target state₁ htarget'
      refine Yields.eat htarget'.2 fun state₂ hstate₂ => ?_
      refine (expression_yields hvalue hstate₂ (by grind) (hends rfl rest)).bind ?_
      intro value state₃ hvalue'
      exact Yields.pure ⟨fun _ => by rw [← htarget'.1, ← hvalue'.1]; rfl, hvalue'.2⟩
  | expr hvalue =>
      obtain ⟨kind, behind, hkinds, hkind⟩ := expression_head hvalue
      refine simple_of_leading (by rw [hstate, hkinds]; rfl) hkind ?_
      refine (expression_yields hvalue hstate (by grind) (hends rfl rest)).bind ?_
      intro value state₁ hvalue'
      refine Yields.eat_other ?_ (Yields.pure ⟨fun _ => by rw [← hvalue'.1]; rfl, hvalue'.2⟩)
      rw [hvalue'.2]
      exact fun hassign => nomatch hassign

theorem simpleLine_yields {first : Token} (h : Simple kinds stmt)
    (hstate : state.kinds = kinds ++ .newline :: rest)
    (hrounds : kinds.length + rest.length + 1 < rounds) :
    Yields (simpleLine rounds first) state (GivesStmt stmt rest) := by
  refine (simple_yields h hstate hrounds).bind fun value state₁ hvalue => ?_
  refine Yields.expect hvalue.2 fun _ state₂ hstate₂ => Yields.placeFrom fun place => ?_
  exact Yields.pure ⟨hvalue.1 place, hstate₂⟩

end

/-! ## Blocks -/

section

variable {rounds : Nat} {statement : Parser Stmt} {state : ParseState}
  {kinds behind rest : List Kind}

/-- Derived parameters are read up to the closing parenthesis. -/
theorem parameters_yields {params : List Param} (h : Parameters kinds params) :
    ∀ {rounds : Nat} {state : ParseState} (read : List Param),
      state.kinds = kinds ++ .symbol .closeParen :: rest → kinds.length < rounds →
      Yields (parameters rounds read) state fun value state' =>
        value.map Param.bare = read.reverse.map Param.bare ++ params ∧
          state'.kinds = .symbol .closeParen :: rest := by
  induction h with
  | nil =>
      intro rounds state read hstate hrounds
      obtain ⟨rounds, rfl, -⟩ := exists_rounds hrounds
      refine Yields.isNext ?_
      rw [hstate]
      exact Yields.pure ⟨(List.append_nil _).symm, hstate⟩
  | last =>
      intro rounds state read hstate hrounds
      obtain ⟨rounds, rfl, -⟩ := exists_rounds hrounds
      refine Yields.isNext ?_
      rw [hstate]
      refine Yields.identifier hstate fun span state₁ hstate₁ => Yields.eat_other ?_ ?_
      · rw [hstate₁]
        exact fun hcomma => nomatch hcomma
      · refine Yields.pure ⟨?_, hstate₁⟩
        rw [List.reverse_cons, List.map_append]
        rfl
  | cons hparams ih =>
      intro rounds state read hstate hrounds
      obtain ⟨rounds, rfl, hleft⟩ := exists_rounds hrounds
      refine Yields.isNext ?_
      rw [hstate]
      refine Yields.identifier hstate fun span state₁ hstate₁ => ?_
      refine Yields.eat hstate₁ fun state₂ hstate₂ => ?_
      refine (ih _ hstate₂ (by grind)).pass fun value state₃ hvalue => Yields.pure ⟨?_, hvalue.2⟩
      rw [hvalue.1, List.reverse_cons, List.map_append, List.append_assoc]
      rfl

theorem guarded_yields {condition : Expr} {body : Block} (hcondition : Expression kinds condition)
    (hstate : state.kinds = kinds ++ .symbol .colon :: behind)
    (hrounds : kinds.length + behind.length + 1 < rounds)
    (hbody : ∀ state', state'.kinds = behind →
      Yields (block rounds statement) state' (GivesBlock body rest)) :
    Yields (guarded rounds statement) state fun found state' =>
      found.1.bare = condition ∧ Block.bare found.2 = body ∧ state'.kinds = rest := by
  refine (expression_yields hcondition hstate (by grind) (ends_cons (by decide))).bind ?_
  intro found state₁ hfound
  refine Yields.expect hfound.2 fun _ state₂ hstate₂ => (hbody state₂ hstate₂).bind ?_
  intro block state₃ hblock
  exact Yields.pure ⟨hfound.1, hblock.1, hblock.2⟩

/-- Statements read last first, without their places. -/
theorem bare_reverse_cons (stmt : Stmt) (read : List Stmt) :
    Block.bare (stmt :: read).reverse = Block.bare read.reverse ++ [stmt.bare] := by
  rw [Block.bare_eq_map, Block.bare_eq_map, List.reverse_cons, List.map_append, List.map_singleton]

theorem definition_yields {name : String} {params : List Param} {body : Block}
    (hparams : Parameters kinds params)
    (hstate : state.kinds = .identifier name :: .symbol .openParen ::
      (kinds ++ .symbol .closeParen :: .symbol .colon :: behind))
    (hrounds : kinds.length + behind.length + 4 < rounds)
    (hbody : ∀ state', state'.kinds = behind →
      Yields (block rounds statement) state' (GivesBlock body rest)) :
    Yields (definition rounds statement) state fun value state' =>
      (∀ place, (value place).bare = .define noPlace name params body) ∧ state'.kinds = rest := by
  refine Yields.identifier hstate fun _ state₁ hstate₁ => ?_
  refine Yields.expect hstate₁ fun _ state₂ hstate₂ => ?_
  refine (parameters_yields hparams [] hstate₂ (by grind)).bind fun found state₃ hfound => ?_
  refine Yields.expect hfound.2 fun _ state₄ hstate₄ => ?_
  refine Yields.expect hstate₄ fun _ state₅ hstate₅ => (hbody state₅ hstate₅).bind ?_
  intro block state₆ hblock
  refine Yields.pure ⟨fun place => ?_, hblock.2⟩
  rw [Stmt.bare, hfound.1, hblock.1]
  rfl

/-- A token that begins a statement without a block begins a line. -/
theorem statementWithin_of_simple {levels : Nat} {stmt : Stmt} (h : Simple kinds stmt)
    (hstate : state.kinds = kinds ++ .newline :: rest)
    (hrounds : kinds.length + rest.length + 1 < rounds) :
    Yields (statementWithin rounds (levels + 1)) state (GivesStmt stmt rest) := by
  obtain ⟨kind, more, rfl, hkind⟩ := simple_head h
  refine Yields.peekToken hstate fun first hfirst => ?_
  dsimp only
  rw [hfirst]
  split
  case h_5 => exact simpleLine_yields h hstate hrounds
  all_goals exact nomatch hkind

theorem block_of_simple {stmt : Stmt} (h : Simple kinds stmt)
    (hstate : state.kinds = kinds ++ .newline :: rest)
    (hrounds : kinds.length + rest.length + 1 < rounds) :
    Yields (block rounds statement) state (GivesBlock [stmt] rest) := by
  obtain ⟨kind, more, rfl, hkind⟩ := simple_head h
  refine Yields.eat_other (hstate ▸ head?_ne_of_simple h rfl) ?_
  refine Yields.peekToken hstate fun first hfirst => ?_
  refine (simpleLine_yields h hstate hrounds).bind fun value state₁ hvalue => ?_
  exact Yields.pure ⟨by rw [← hvalue.1]; rfl, hvalue.2⟩

theorem block_indented {body : Block} (hstate : state.kinds = .newline :: .indent :: behind)
    (hbody : ∀ state', state'.kinds = behind →
      Yields (statements statement rounds []) state' (GivesBlock body rest)) :
    Yields (block rounds statement) state (GivesBlock body rest) := by
  refine Yields.eat hstate fun state₁ hstate₁ => Yields.eat hstate₁ fun state₂ hstate₂ => ?_
  refine Yields.enter fun state₃ hstate₃ => (hbody state₃ (hstate₃.trans hstate₂)).bind ?_
  intro value state₄ hvalue
  exact Yields.leave fun _ hstate₅ => Yields.pure ⟨hvalue.1, hstate₅.trans hvalue.2⟩

end

mutual
/-- What derives as a statement is read as that statement, unless a branch is continued. -/
theorem statement_yields {kinds : List Kind} {stmt : Stmt} (h : Statement kinds stmt) :
    ∀ {rounds levels : Nat} {state : ParseState} {rest : List Kind}, state.kinds = kinds ++ rest →
      kinds.length + rest.length < rounds → kinds.length ≤ levels → Follows rest →
      Yields (statementWithin rounds levels) state (GivesStmt stmt rest) := by
  intro rounds levels state rest hstate hrounds hlevels hfollows
  obtain ⟨levels, rfl, -⟩ := exists_rounds (Nat.lt_of_lt_of_le (length_pos_of_statement h) hlevels)
  match h with
  | .simple hsimple =>
      rw [List.append_assoc] at hstate
      exact statementWithin_of_simple hsimple hstate (by grind)
  | .branch hcondition hbody hrest =>
      simp only [List.cons_append, List.append_assoc] at hstate
      refine Yields.peekToken hstate fun first hfirst => ?_
      dsimp only
      rw [hfirst]
      refine Yields.skip hstate fun state₁ hstate₁ => ?_
      refine (guarded_yields hcondition hstate₁ (by grind) fun state₂ hstate₂ =>
        suite_yields hbody hstate₂ (by grind) (by grind)).bind fun found state₃ hfound => ?_
      refine (rest_yields hrest hfound.2.2 (by grind) (by grind) (by grind) hfollows).bind ?_
      intro alternative state₄ halternative
      refine Yields.placeFrom fun place => Yields.pure ⟨?_, halternative.2⟩
      rw [Stmt.bare, hfound.1, hfound.2.1, halternative.1]
  | .loop hcondition hbody =>
      simp only [List.cons_append, List.append_assoc] at hstate
      refine Yields.peekToken hstate fun first hfirst => ?_
      dsimp only
      rw [hfirst]
      refine Yields.skip hstate fun state₁ hstate₁ => ?_
      refine (guarded_yields hcondition hstate₁ (by grind) fun state₂ hstate₂ =>
        suite_yields hbody hstate₂ (by grind) (by grind)).bind fun found state₃ hfound => ?_
      refine Yields.placeFrom fun place => Yields.pure ⟨?_, hfound.2.2⟩
      rw [Stmt.bare, hfound.1, hfound.2.1]
  | .define hparams hbody =>
      simp only [List.cons_append, List.append_assoc] at hstate
      refine Yields.peekToken hstate fun first hfirst => ?_
      dsimp only
      rw [hfirst]
      refine Yields.skip hstate fun state₁ hstate₁ => ?_
      refine (definition_yields hparams hstate₁ (by grind) fun state₂ hstate₂ =>
        suite_yields hbody hstate₂ (by grind) (by grind)).bind fun found state₃ hfound => ?_
      exact Yields.placeFrom fun place => Yields.pure ⟨hfound.1 place, hfound.2⟩

/-- Derived statements are read up to the end of their block. -/
theorem statements_yields {kinds : List Kind} {body : List Stmt} (h : Statements kinds body) :
    ∀ {rounds rounds' levels : Nat} {state : ParseState} {rest : List Kind} (read : List Stmt),
      state.kinds = kinds ++ .dedent :: rest → kinds.length + rest.length + 1 < rounds →
      kinds.length + rest.length + 1 < rounds' → kinds.length ≤ levels →
      Yields (statements (statementWithin rounds levels) rounds' read) state
        (GivesBlock (Block.bare read.reverse ++ body) rest) := by
  intro rounds rounds' levels state rest read hstate hrounds hrounds' hlevels
  obtain ⟨rounds', rfl, hleft⟩ := exists_rounds hrounds'
  match h with
  | .nil =>
      refine Yields.eat hstate fun state₁ hstate₁ => ?_
      exact Yields.pure ⟨(List.append_nil _).symm, hstate₁⟩
  | .cons hstmt hbody =>
      rw [List.append_assoc] at hstate
      have hpos := length_pos_of_statement hstmt
      have hdedent : Follows (.dedent :: rest) := follows_cons nofun nofun
      have hfollows := follows_of_statements hbody hdedent
      refine Yields.eat_other (hstate ▸ head?_ne_of_statement hstmt rfl) ?_
      refine (statement_yields hstmt hstate (by grind) (by grind) hfollows).bind ?_
      intro value state₁ hvalue
      refine (statements_yields hbody (value :: read) hvalue.2 (by grind) (by grind)
        (by grind)).pass fun found state₂ hfound => Yields.pure ⟨?_, hfound.2⟩
      rw [hfound.1, bare_reverse_cons, hvalue.1, List.append_assoc, List.singleton_append]

/-- What derives as a block is read as that block. -/
theorem suite_yields {kinds : List Kind} {body : List Stmt} (h : Suite kinds body) :
    ∀ {rounds levels : Nat} {state : ParseState} {rest : List Kind}, state.kinds = kinds ++ rest →
      kinds.length + rest.length < rounds → kinds.length ≤ levels →
      Yields (block rounds (statementWithin rounds levels)) state (GivesBlock body rest) := by
  intro rounds levels state rest hstate hrounds hlevels
  match h with
  | .line hsimple =>
      rw [List.append_assoc] at hstate
      exact block_of_simple hsimple hstate (by grind)
  | .indented hbody =>
      simp only [List.cons_append, List.append_assoc] at hstate
      refine block_indented hstate fun state₁ hstate₁ => ?_
      exact statements_yields hbody [] hstate₁ (by grind) (by grind) (by grind)

/-- What derives as the rest of a branch is read so, unless the branch is continued. -/
theorem rest_yields {kinds : List Kind} {alternative : Alternative} (h : Rest kinds alternative) :
    ∀ {rounds rounds' levels : Nat} {state : ParseState} {rest : List Kind},
      state.kinds = kinds ++ rest → kinds.length + rest.length < rounds →
      kinds.length + rest.length < rounds' → kinds.length ≤ levels → Follows rest →
      Yields (Parser.alternative rounds (statementWithin rounds levels) rounds') state
        fun value state' => value.bare = alternative ∧ state'.kinds = rest := by
  intro rounds rounds' levels state rest hstate hrounds hrounds' hlevels hfollows
  obtain ⟨rounds', rfl, hleft⟩ := exists_rounds hrounds'
  match h with
  | .nothing =>
      refine Yields.eat_other (hstate ▸ hfollows.1) (Yields.eat_other (hstate ▸ hfollows.2) ?_)
      exact Yields.pure ⟨rfl, hstate⟩
  | .elif hcondition hbody hrest =>
      simp only [List.cons_append, List.append_assoc] at hstate
      refine Yields.eat hstate fun state₁ hstate₁ => ?_
      refine (guarded_yields hcondition hstate₁ (by grind) fun state₂ hstate₂ =>
        suite_yields hbody hstate₂ (by grind) (by grind)).bind fun found state₃ hfound => ?_
      refine (rest_yields hrest hfound.2.2 (by grind) (by grind) (by grind) hfollows).bind ?_
      intro more state₄ hmore
      refine Yields.pure ⟨?_, hmore.2⟩
      rw [Alternative.bare, hfound.1, hfound.2.1, hmore.1]
  | .otherwise hbody =>
      simp only [List.cons_append] at hstate
      refine Yields.eat_other (by rw [hstate]; exact fun helif => nomatch helif) ?_
      refine Yields.eat hstate fun state₁ hstate₁ => ?_
      refine Yields.expect hstate₁ fun _ state₂ hstate₂ => ?_
      refine (suite_yields hbody hstate₂ (by grind) (by grind)).bind fun found state₃ hfound => ?_
      exact Yields.pure ⟨by rw [Alternative.bare, hfound.1], hfound.2⟩
end

/-- What derives as the statements before the end of the file is read as those statements. -/
theorem program_yields {kinds : List Kind} {body : List Stmt} (h : Statements kinds body) :
    ∀ {rounds rounds' : Nat} {state : ParseState} {rest : List Kind} (read : List Stmt),
      state.kinds = kinds ++ .endOfFile :: rest → kinds.length + rest.length + 1 < rounds →
      kinds.length + rest.length + 1 < rounds' →
      Yields (program rounds rounds' read) state
        (GivesBlock (Block.bare read.reverse ++ body) rest) := by
  intro rounds rounds' state rest read hstate hrounds hrounds'
  obtain ⟨rounds', rfl, hleft⟩ := exists_rounds hrounds'
  refine Yields.peek ?_
  match h with
  | .nil =>
      rw [hstate]
      refine Yields.expect hstate fun _ state₁ hstate₁ => ?_
      exact Yields.pure ⟨(List.append_nil _).symm, hstate₁⟩
  | .cons hstmt hbody =>
      rw [List.append_assoc] at hstate
      have hpos := length_pos_of_statement hstmt
      have hend : Follows (.endOfFile :: rest) := follows_cons nofun nofun
      have hread : Yields (statement rounds) state (GivesStmt _ _) :=
        statement_yields hstmt hstate (by grind) (by grind) (follows_of_statements hbody hend)
      obtain ⟨kind, more, rfl, hkind⟩ := statement_head hstmt
      rw [hstate]
      split
      next hnone => exact nomatch hnone
      next heof =>
        obtain rfl := Option.some.inj heof
        exact nomatch hkind
      next =>
        refine hread.bind fun value state₁ hvalue => ?_
        refine (program_yields hbody (value :: read) hvalue.2 (by grind) (by grind)).pass ?_
        intro found state₂ hfound
        refine Yields.pure ⟨?_, hfound.2⟩
        rw [hfound.1, bare_reverse_cons, hvalue.1, List.append_assoc, List.singleton_append]

end Parser

end FrozenScript
