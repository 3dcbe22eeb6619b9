import FrozenScript.Proofs.Syntax.Descent.Runs

/-!
# Parsing terminates

A routine calls only routines of lower ranks, or opens a level of nesting before. So the limit of
nesting bounds the calls inside each other, whatever the input is, and this bound is what the proof
goes by: a routine does what its reader does if the routines do that need fewer calls inside each
other, and for loops if the loop does it with fewer tokens (`Routine.Inherits`). There is one lemma
for each routine.

The main statement is `parsing_terminates`.
-/

namespace FrozenScript.Descent

open Text

variable {ρ α β : Type}

/-! ## Readers -/

/-- What reads the operands of a chain. -/
def Strength.operandReader (strength : Strength) (rounds : Nat) (expression : Parser Expr) :
    Parser Expr :=
  match strength with
  | disjunction => Parser.conjunction rounds expression
  | conjunction => Parser.negation rounds expression
  | sum => Parser.product rounds expression
  | product => Parser.factor rounds expression

/-- What reads an operand without the operator. -/
def Sign.operandReader (sign : Sign) (rounds : Nat) (expression : Parser Expr) : Parser Expr :=
  match sign with
  | not => Parser.comparison rounds expression
  | minus => Parser.trailed rounds expression

/-- The reader that does what a routine does, with one more round than the numbers say: of loops,
of what stands inside each other, and of the loop that the routine is itself. -/
def Routine.reader (rounds levels left : Nat) : Routine α → Parser α
  | .program read => Parser.program (rounds + 1) (left + 1) read
  | .statement => Parser.statementWithin (rounds + 1) (levels + 1)
  | .simple => Parser.simple (rounds + 1)
  | .block => Parser.block (rounds + 1) (Parser.statementWithin (rounds + 1) (levels + 1))
  | .statements read =>
    Parser.statements (Parser.statementWithin (rounds + 1) (levels + 1)) (left + 1) read
  | .guarded => Parser.guarded (rounds + 1) (Parser.statementWithin (rounds + 1) (levels + 1))
  | .alternatives read =>
    attach read <$> Parser.alternative (rounds + 1)
      (Parser.statementWithin (rounds + 1) (levels + 1)) (left + 1)
  | .definition =>
    Parser.definition (rounds + 1) (Parser.statementWithin (rounds + 1) (levels + 1))
  | .parameters read => Parser.parameters (left + 1) read
  | .expression => Parser.expressionWithin (rounds + 1) (levels + 1)
  | .chain strength =>
    Parser.leftChain (rounds + 1) strength.operator
      (strength.operandReader (rounds + 1) (Parser.expressionWithin (rounds + 1) levels))
  | .links strength held first =>
    Parser.chain strength.operator
      (strength.operandReader (rounds + 1) (Parser.expressionWithin (rounds + 1) levels))
      (left + 1) held first
  | .signed sign =>
    Parser.signed sign.kind sign.op
      (sign.operandReader (rounds + 1) (Parser.expressionWithin (rounds + 1) levels)) (left + 1)
  | .comparison =>
    Parser.comparison (rounds + 1) (Parser.expressionWithin (rounds + 1) levels)
  | .trailed => Parser.trailed (rounds + 1) (Parser.expressionWithin (rounds + 1) levels)
  | .trailers held object =>
    Parser.trailers (rounds + 1) (Parser.expressionWithin (rounds + 1) levels) (left + 1) held
      object
  | .arguments read =>
    Parser.arguments (Parser.expressionWithin (rounds + 1) (levels + 1)) (left + 1) read
  | .atom => Parser.atom (Parser.expressionWithin (rounds + 1) levels)

/-- A routine does what its reader does, and leaves the state as it should. -/
def Routine.Settles (routine : Routine α) (rounds levels left : Nat) (state : ParseState) : Prop :=
  Follows (routine.frames state) routine.body (routine.reader rounds levels left)
    (Restores routine.held routine.consumed state) state

/-- The routines settle that need fewer calls inside each other, or no more of them and fewer
tokens, than is said. -/
def Settled (rounds frames tokens : Nat) : Prop :=
  ∀ {β : Type} (routine : Routine β) (levels left : Nat) (state : ParseState),
    state.rest.length ≤ min rounds (min levels left) → routine.held ≤ state.depth →
      (routine.frames state < frames ∨
        routine.frames state ≤ frames ∧ state.rest.length < tokens) →
      routine.Settles rounds levels left state

/-- A routine settles if the ones do that need less. -/
def Routine.Inherits (routine : Routine α) : Prop :=
  ∀ {rounds levels left : Nat} {state : ParseState},
    Settled rounds (routine.frames state) state.rest.length →
      state.rest.length ≤ min rounds (min levels left) → routine.held ≤ state.depth →
      routine.Settles rounds levels left state

namespace Follows

variable {rounds frames tokens : Nat} {good : ParseState → Prop} {state : ParseState}

/-- A call, also of a loop that holds no levels yet. -/
theorem callLoop (ih : Settled rounds frames tokens) {routine : Routine β}
    {next : β → Code α} {f : β → Parser α} (levels left : Nat) {parser : Parser β}
    (hreader : routine.reader rounds levels left = parser)
    (hheld : routine.held = 0) (hframes : routine.frames state < frames)
    (hrounds : state.rest.length ≤ min rounds (min levels left))
    (h : ∀ value after, Restores 0 routine.consumed state after →
      Follows frames (next value) (f value) good after) :
    Follows frames (Descent.call routine >>= next) (parser >>= f) good state := by
  intro hdepth ρ callers limit hlimit
  have hcall : Run limit (.running (.call routine next) callers state)
      (.running routine.body (.caller next callers) state) := by
    refine .step ⟨Nat.le_of_add_right_le hlimit, hdepth⟩ (.done ⟨?_, hdepth⟩)
    show callers.height + 1 ≤ limit
    omega
  have hcallee := ih routine levels left state hrounds (by omega) (.inl hframes) hdepth
    (.caller next callers) limit (by show callers.height + 1 + _ ≤ _; omega)
  rw [hreader, hheld] at hcallee
  cases houtcome : parser state with
  | error error =>
      rw [houtcome] at hcallee
      rw [Parser.bind_of_error houtcome]
      obtain ⟨last, hlast⟩ := hcallee
      exact ⟨last, hcall.trans hlast⟩
  | ok pair =>
      obtain ⟨value, after⟩ := pair
      rw [houtcome] at hcallee
      obtain ⟨hrun, hrestores⟩ := hcallee
      obtain ⟨hheight, hafter⟩ := hrun.within
      have hreturn : Run limit (.running (.result value) (.caller next callers) after)
          (.running (next value) callers after) :=
        .step ⟨hheight, hafter⟩ (.done ⟨Nat.le_of_succ_le hheight, hafter⟩)
      rw [Parser.bind_of_ok houtcome]
      exact (h value after hrestores hafter callers limit hlimit).after
        (hcall.trans (hrun.trans hreturn))

/-- A call of a routine that is no loop. -/
theorem call (ih : Settled rounds frames tokens) {routine : Routine β}
    {next : β → Code α} {f : β → Parser α} (levels left : Nat) {parser : Parser β}
    (hreader : routine.reader rounds levels left = parser)
    (hconsumed : routine.consumed = 1) (hframes : routine.frames state < frames)
    (hrounds : state.rest.length ≤ min rounds (min levels left))
    (h : ∀ value after, after.depth = state.depth → after.rest.length + 1 ≤ state.rest.length →
      Follows frames (next value) (f value) good after) :
    Follows frames (Descent.call routine >>= next) (parser >>= f) good state := by
  refine callLoop ih levels left hreader (Routine.held_of_consumed hconsumed) hframes hrounds ?_
  rw [hconsumed]
  exact fun value after hrestores => h value after hrestores.depth hrestores.tokens

/-- A call whose value is the one that is given back. -/
theorem callLast (ih : Settled rounds frames tokens) {routine : Routine α} (levels left : Nat)
    {parser : Parser α} (hreader : routine.reader rounds levels left = parser)
    (hconsumed : routine.consumed = 1) (hframes : routine.frames state < frames)
    (hrounds : state.rest.length ≤ min rounds (min levels left))
    (h : ∀ after, after.depth = state.depth → after.rest.length + 1 ≤ state.rest.length →
      good after) :
    Follows frames (Descent.call routine) parser good state := by
  rw [← bind_pure parser]
  exact call ih levels left hreader hconsumed hframes hrounds
    fun _ after hdepth htokens => .result (h after hdepth htokens)

/-- A loop goes on, with fewer tokens. -/
theorem goOn (ih : Settled rounds frames tokens) {routine : Routine α} (levels left held : Nat)
    {parser : Parser α} (hreader : routine.reader rounds levels left = parser)
    (hheld : routine.held = held) (hopen : held ≤ state.depth)
    (hframes : routine.frames state ≤ frames)
    (hrounds : state.rest.length ≤ min rounds (min levels left))
    (htokens : state.rest.length < tokens)
    (hgood : ∀ after, after.depth + held = state.depth → after.rest.length ≤ state.rest.length →
      good after) :
    Follows frames (.goOn routine) parser good state := by
  have hroutine := ih routine levels left state hrounds (hheld ▸ hopen) (.inr ⟨hframes, htokens⟩)
  rw [Routine.Settles, hreader, hheld] at hroutine
  refine step (fun _ => rfl) rfl id (hroutine.weaken hframes fun after hrestores => ?_)
  exact hgood after hrestores.depth (Nat.le_of_add_right_le hrestores.tokens)

/-- A loop that holds no levels goes on where it was, or is begun. -/
theorem goRound {caller routine : Routine α} {start : ParseState} {consumed : Nat}
    (ih : Settled rounds (caller.frames start) start.rest.length) (levels left : Nat)
    {parser : Parser α} (hreader : routine.reader rounds levels left = parser)
    (hheld : routine.held = 0) (hrank : routine.rank ≤ caller.rank)
    (hdepth : state.depth = start.depth)
    (hrounds : state.rest.length ≤ min rounds (min levels left))
    (hless : state.rest.length < start.rest.length)
    (hconsumed : state.rest.length + consumed ≤ start.rest.length) :
    Follows (caller.frames start) (.goOn routine) parser (Restores 0 consumed start) state := by
  have hframes : routine.frames state ≤ caller.frames start :=
    Routine.frames_le (Nat.le_of_eq hdepth.symm) hrank
  exact goOn ih levels left 0 hreader hheld (Nat.zero_le _) hframes hrounds hless
    fun last hlast hle => ⟨by omega, by omega⟩

/-- A loop goes on with one more level that it holds, in fewer calls inside each other. -/
theorem goDeeper {caller routine : Routine α} {start : ParseState} {held : Nat}
    (ih : Settled rounds (caller.frames start) start.rest.length) (levels left : Nat)
    {parser : Parser α} (hreader : routine.reader rounds levels left = parser)
    (hheld : routine.held = held + 1) (hopen : held ≤ start.depth)
    (hroom : start.depth < maxNesting)
    (hdepth : state.depth = start.depth + 1)
    (hrounds : state.rest.length ≤ min rounds (min levels left))
    (hless : state.rest.length < start.rest.length) :
    Follows (caller.frames start) (.goOn routine) parser (Restores held 0 start) state := by
  have hframes : routine.frames state < caller.frames start :=
    Routine.frames_lt_of_deeper (by omega) hroom
  exact goOn ih levels left (held + 1) hreader hheld (by omega) (Nat.le_of_lt hframes) hrounds hless
    fun last hlast hle => ⟨by omega, by omega⟩

end Follows

open Routine (frames_lt frames_lt_of_deeper)

/-! ## Expressions -/

theorem Strength.reader_operand (strength : Strength) (rounds levels : Nat) :
    strength.operand.reader rounds levels rounds =
      strength.operandReader (rounds + 1) (Parser.expressionWithin (rounds + 1) levels) := by
  cases strength <;> rfl

theorem Strength.consumed_operand (strength : Strength) : strength.operand.consumed = 1 := by
  cases strength <;> rfl

theorem Strength.rank_operand (strength : Strength) :
    strength.operand.rank < (Routine.chain strength).rank := by
  cases strength <;> simp [operand]

theorem Sign.reader_operand (sign : Sign) (rounds levels left : Nat) :
    sign.operand.reader rounds levels left =
      sign.operandReader (rounds + 1) (Parser.expressionWithin (rounds + 1) levels) := by
  cases sign <;> rfl

theorem Sign.consumed_operand (sign : Sign) : sign.operand.consumed = 1 := by
  cases sign <;> rfl

theorem Sign.rank_operand (sign : Sign) : sign.operand.rank < (Routine.signed sign).rank := by
  cases sign <;> simp [operand]

/-- The levels that a loop holds are levels that its operands cannot open, so it goes on with fewer
calls inside each other than before. -/
theorem links_inherits (strength : Strength) (held : Nat) (first : Expr) :
    (Routine.links strength held first).Inherits := by
  intro rounds levels left state ih hrounds (hheld : held ≤ state.depth)
  show Follows _ _ _ (Restores held 0 state) state
  have hend : Follows ((Routine.links strength held first).frames state)
      (leave held >>= fun _ => pure first) (Parser.leave held >>= fun _ => pure first)
      (Restores held 0 state) state := .leaveHeld hheld
  refine .peek hend fun kind hpos => ?_
  dsimp only [Option.bind_some]
  cases hnode : strength.operator kind with
  | none => exact hend
  | some node =>
      refine .skip hpos fun skipped hskipped hfewer => .enter fun deeper hopen hdeeper hsame => ?_
      refine .call ih levels rounds (strength.reader_operand rounds levels)
        strength.consumed_operand (frames_lt_of_deeper (by omega) (by omega)) (by omega)
        fun right after hafter hless => ?_
      obtain ⟨left, rfl⟩ := Nat.exists_eq_add_one_of_ne_zero (n := left) (by omega)
      exact .goDeeper ih levels left rfl rfl hheld (by omega) (by omega) (by omega) (by omega)

theorem chain_inherits (strength : Strength) : (Routine.chain strength).Inherits := by
  intro rounds levels left state ih hrounds _
  show Follows _ _ _ (Restores 0 1 state) state
  refine .call ih levels rounds (strength.reader_operand rounds levels) strength.consumed_operand
    (frames_lt (Nat.le_refl _) strength.rank_operand) (by omega) fun first after hafter hless => ?_
  exact .goRound ih levels rounds rfl rfl (Nat.zero_le _) (by omega) (by omega)
    (by omega) (by omega)

theorem signed_inherits (sign : Sign) : (Routine.signed sign).Inherits := by
  intro rounds levels left state ih hrounds _
  show Follows _ _ _ (Restores 0 1 state) state
  refine .eat (fun eaten heaten hfewer => ?_) ?_
  · refine .lastSpan fun start => .enter fun deeper hopen hdeeper hsame => ?_
    obtain ⟨left, rfl⟩ := Nat.exists_eq_add_one_of_ne_zero (n := left) (by omega)
    refine .call ih levels left rfl rfl (frames_lt_of_deeper (by omega) (by omega)) (by omega)
      fun inner after hafter hless => ?_
    exact .leave (by omega) fun last hlast hle => .result ⟨by omega, by omega⟩
  · exact .callLast ih levels rounds (sign.reader_operand rounds levels rounds)
      sign.consumed_operand (frames_lt (Nat.le_refl _) sign.rank_operand) (by omega)
      fun after hafter hless => ⟨hafter, hless⟩

theorem comparison_inherits : Routine.comparison.Inherits := by
  intro rounds levels left state ih hrounds _
  show Follows _ _ _ (Restores 0 1 state) state
  refine .call ih levels rounds rfl rfl (frames_lt (Nat.le_refl _) (by simp)) (by omega)
    fun first read hread hfewer => ?_
  have hend : Follows (Routine.comparison.frames state) (pure first) (pure first)
      (Restores 0 1 state) read :=
    .result ⟨by omega, by omega⟩
  refine .peek hend fun kind hpos => ?_
  dsimp only [Option.bind_some]
  cases hop : Parser.compareOp kind with
  | none => exact hend
  | some op =>
      refine .skip hpos fun skipped hskipped hone => ?_
      refine .call ih levels rounds rfl rfl (frames_lt (by omega) (by simp)) (by omega)
        fun second after hafter hless => ?_
      have hcompare {expr : Expr} : Follows (Routine.comparison.frames state) (pure expr)
          (pure expr) (Restores 0 1 state) after :=
        .result ⟨by omega, by omega⟩
      refine .peekToken hcompare fun token _ => ?_
      dsimp only
      by_cases hsecond : (Parser.compareOp token.kind).isSome
      · rw [if_pos hsecond, if_pos hsecond]
        exact .failThen
      · rw [if_neg hsecond, if_neg hsecond]
        exact hcompare

theorem trailers_inherits (held : Nat) (object : Expr) :
    (Routine.trailers held object).Inherits := by
  intro rounds levels left state ih hrounds (hheld : held ≤ state.depth)
  show Follows _ _ _ (Restores held 0 state) state
  have hend : Follows ((Routine.trailers held object).frames state)
      (leave held >>= fun _ => pure object) (Parser.leave held >>= fun _ => pure object)
      (Restores held 0 state) state := .leaveHeld hheld
  refine .peek hend fun kind hpos => ?_
  cases kind with
  | symbol sign =>
      cases sign with
      | openParen =>
          refine .enter fun deeper hopen hdeeper hsame => ?_
          refine .skip (by omega) fun skipped hskipped hone => ?_
          obtain ⟨levels, rfl⟩ := Nat.exists_eq_add_one_of_ne_zero (n := levels) (by omega)
          refine .callLoop ih levels rounds rfl rfl (frames_lt_of_deeper (by omega) (by omega))
            (by omega) fun args closed hclosed => ?_
          obtain ⟨hclosed, hfewer⟩ := hclosed
          refine .expect fun close after hafter hless => ?_
          obtain ⟨left, rfl⟩ := Nat.exists_eq_add_one_of_ne_zero (n := left) (by omega)
          exact .goDeeper ih (levels + 1) left rfl rfl hheld hopen (by omega) (by omega) (by omega)
      | dot =>
          refine .enter fun deeper hopen hdeeper hsame => ?_
          refine .skip (by omega) fun skipped hskipped hone => ?_
          refine .identifier fun name after hafter hless => ?_
          obtain ⟨left, rfl⟩ := Nat.exists_eq_add_one_of_ne_zero (n := left) (by omega)
          exact .goDeeper ih levels left rfl rfl hheld hopen (by omega) (by omega) (by omega)
      | _ => exact hend
  | _ => exact hend

theorem trailed_inherits : Routine.trailed.Inherits := by
  intro rounds levels left state ih hrounds _
  show Follows _ _ _ (Restores 0 1 state) state
  refine .call ih levels rounds rfl rfl (frames_lt (Nat.le_refl _) (by simp)) (by omega)
    fun object after hafter hless => ?_
  exact .goRound ih levels rounds rfl rfl (Nat.zero_le _) (by omega) (by omega)
    (by omega) (by omega)

theorem arguments_inherits (read : List Expr) : (Routine.arguments read).Inherits := by
  intro rounds levels left state ih hrounds _
  show Follows _ _ _ (Restores 0 0 state) state
  refine .isNext fun found => ?_
  cases found with
  | true => exact .result ⟨rfl, Nat.le_refl _⟩
  | false =>
      refine .call ih levels rounds rfl rfl (frames_lt (Nat.le_refl _) (by simp)) (by omega)
        fun argument before hbefore hfewer => .eat (fun after hafter hless => ?_) ?_
      · obtain ⟨left, rfl⟩ := Nat.exists_eq_add_one_of_ne_zero (n := left) (by omega)
        exact .goRound ih levels left rfl rfl (Nat.le_refl _) (by omega) (by omega)
          (by omega) (by omega)
      · exact .result ⟨by omega, by omega⟩

theorem atom_inherits : Routine.atom.Inherits := by
  intro rounds levels left state ih hrounds _
  show Follows _ _ _ (Restores 0 1 state) state
  refine .peekToken .unexpected fun token hpos => ?_
  have hleaf {expr : Expr} : Follows (Routine.atom.frames state)
      (perform .skip >>= fun _ => pure expr) (Parser.skip >>= fun _ => pure expr)
      (Restores 0 1 state) state :=
    .skip hpos fun after hafter hless => .result ⟨hafter, by omega⟩
  obtain ⟨kind, span, line, column⟩ := token
  cases kind with
  | integer _ | text _ | identifier _ => exact hleaf
  | keyword word => cases word <;> first | exact hleaf | exact .unexpected
  | symbol sign =>
      cases sign with
      | openParen =>
          refine .skip hpos fun skipped hskipped hone => ?_
          obtain ⟨levels, rfl⟩ := Nat.exists_eq_add_one_of_ne_zero (n := levels) (by omega)
          refine .call ih levels rounds rfl rfl (frames_lt (by omega) (by simp)) (by omega)
            fun inner read hread hfewer => .expect fun close after hafter hless => ?_
          exact .result ⟨by omega, by omega⟩
      | _ => exact .unexpected
  | _ => exact .unexpected

theorem expression_inherits : Routine.expression.Inherits := by
  intro rounds levels left state ih hrounds _
  show Follows _ _ _ (Restores 0 1 state) state
  refine .enter fun deeper hopen hdeeper hsame => ?_
  refine .call ih levels rounds rfl rfl (frames_lt_of_deeper (by omega) (by omega)) (by omega)
    fun expr after hafter hless => ?_
  exact .leave (by omega) fun last hlast hle => .result ⟨by omega, by omega⟩

/-! ## Statements -/

theorem simple_inherits : Routine.simple.Inherits := by
  intro rounds levels left state ih hrounds _
  show Follows _ _ _ (Restores 0 1 state) state
  have hother : Follows (Routine.simple.frames state)
      (do
        let target ← call .expression
        if ← perform (.eat (.symbol .assign)) then
          let value ← call .expression
          return (Stmt.assign · target value)
        return (Stmt.expr · target))
      (do
        let target ← Parser.expression (rounds + 1)
        if ← Parser.eat (.symbol .assign) then
          let value ← Parser.expression (rounds + 1)
          return (Stmt.assign · target value)
        return (Stmt.expr · target))
      (Restores 0 1 state) state := by
    refine .call ih rounds rounds rfl rfl (frames_lt (Nat.le_refl _) (by simp)) (by omega)
      fun target read hread hfewer => .eat (fun eaten heaten hone => ?_) ?_
    · refine .call ih rounds rounds rfl rfl (frames_lt (by omega) (by simp)) (by omega)
        fun value after hafter hless => .result ⟨by omega, by omega⟩
    · exact .result ⟨by omega, by omega⟩
  refine .peek hother fun kind hpos => ?_
  cases kind with
  | keyword word =>
      cases word with
      | passWord => exact .skip hpos fun after hafter hless => .result ⟨hafter, by omega⟩
      | breakWord => exact .skip hpos fun after hafter hless => .result ⟨hafter, by omega⟩
      | continueWord => exact .skip hpos fun after hafter hless => .result ⟨hafter, by omega⟩
      | returnWord =>
          refine .skip hpos fun skipped hskipped hone => .isNext fun found => ?_
          cases found with
          | true => exact .result ⟨hskipped, by omega⟩
          | false =>
              exact .call ih rounds rounds rfl rfl (frames_lt (by omega) (by simp)) (by omega)
                fun value after hafter hless => .result ⟨by omega, by omega⟩
      | importWord =>
          exact .skip hpos fun skipped hskipped hone => .identifier fun name after hafter hless =>
            .result ⟨by omega, by omega⟩
      | assertWord =>
          refine .skip hpos fun skipped hskipped hone => ?_
          refine .call ih rounds rounds rfl rfl (frames_lt (by omega) (by simp)) (by omega)
            fun test read hread hfewer => .eat (fun eaten heaten hcomma => ?_) ?_
          · exact .call ih rounds rounds rfl rfl (frames_lt (by omega) (by simp)) (by omega)
              fun message after hafter hless => .result ⟨by omega, by omega⟩
          · exact .result ⟨by omega, by omega⟩
      | _ => exact hother
  | _ => exact hother

/-- The line of a simple statement in a routine that does something with it. -/
theorem simpleLine_follows {rounds frames tokens : Nat} {state : ParseState} {next : Stmt → Code α}
    {f : Stmt → Parser α} {good : ParseState → Prop} (ih : Settled rounds frames tokens)
    (first : Token) (hframes : Routine.simple.frames state < frames)
    (hrounds : state.rest.length ≤ rounds)
    (h : ∀ stmt after, after.depth = state.depth → after.rest.length + 1 ≤ state.rest.length →
      Follows frames (next stmt) (f stmt) good after) :
    Follows frames (simpleLine first >>= next) (Parser.simpleLine (rounds + 1) first >>= f) good
      state := by
  have hflat : Parser.simpleLine (rounds + 1) first >>= f = (do
      let stmt ← Parser.simple (rounds + 1)
      let _ ← Parser.expect .newline
      let place ← Parser.placeFrom first
      f (stmt place)) := by
    simp only [Parser.simpleLine, bind_assoc, pure_bind]
  rw [hflat]
  show Follows frames (do
    let stmt ← call .simple
    let _ ← perform (.expect .newline)
    let place ← placeFrom first
    next (stmt place)) _ good state
  refine .call ih rounds rounds rfl rfl hframes (by omega) fun stmt read hread hfewer => ?_
  refine .expect fun ends after hafter hless => .placeFrom fun place => ?_
  exact h (stmt place) after (by omega) (by omega)

theorem statements_inherits (read : List Stmt) : (Routine.statements read).Inherits := by
  intro rounds levels left state ih hrounds _
  show Follows _ _ _ (Restores 0 0 state) state
  refine .eat (fun after hafter hless => .result ⟨hafter, by omega⟩) ?_
  refine .call ih levels rounds rfl rfl (frames_lt (Nat.le_refl _) (by simp))
    (by omega) fun stmt after hafter hless => ?_
  obtain ⟨left, rfl⟩ := Nat.exists_eq_add_one_of_ne_zero (n := left) (by omega)
  exact .goRound ih levels left rfl rfl (Nat.le_refl _) (by omega) (by omega) (by omega) (by omega)

theorem block_inherits : Routine.block.Inherits := by
  intro rounds levels left state ih hrounds _
  show Follows _ _ _ (Restores 0 1 state) state
  refine .eat (fun ended hended hone => .eat (fun indented hindented htwo => ?_) .unexpected) ?_
  · refine .enter fun deeper hopen hdeeper hsame => ?_
    refine .callLoop ih levels rounds rfl rfl (frames_lt_of_deeper (by omega) (by omega))
      (by omega) fun body read hread => ?_
    obtain ⟨hread, hfewer⟩ := hread
    exact .leave (by omega) fun last hlast hle => .result ⟨by omega, by omega⟩
  · refine .peekToken .unexpected fun first hpos => ?_
    exact simpleLine_follows ih first (frames_lt (Nat.le_refl _) (by simp)) (by omega)
      fun stmt after hafter hless => .result ⟨hafter, hless⟩

theorem guarded_inherits : Routine.guarded.Inherits := by
  intro rounds levels left state ih hrounds _
  show Follows _ _ _ (Restores 0 1 state) state
  refine .call ih rounds rounds rfl rfl (frames_lt (Nat.le_refl _) (by simp)) (by omega)
    fun condition read hread hfewer => .expect fun colon before hbefore hone => ?_
  exact .call ih levels rounds rfl rfl (frames_lt (by omega) (by simp)) (by omega)
    fun body after hafter hless => .result ⟨by omega, by omega⟩

/-- One round of reading alternatives, with the branches before. -/
theorem attach_alternative (rounds left : Nat) (statement : Parser Stmt)
    (read : List (Expr × Block)) :
    attach read <$> Parser.alternative rounds statement (left + 1) = (do
      if ← Parser.eat (.keyword .elifWord) then
        let branch ← Parser.guarded rounds statement
        attach (branch :: read) <$> Parser.alternative rounds statement left
      else if ← Parser.eat (.keyword .elseWord) then
        let _ ← Parser.expect (.symbol .colon)
        let body ← Parser.block rounds statement
        return attach read (.otherwise body)
      else return attach read .nothing) := by
  rw [Parser.alternative, map_bind]
  refine congrArg _ (funext fun elif => ?_)
  cases elif with
  | true =>
      simp only [if_true, bind_pure_comp, map_bind, Functor.map_map]
      rfl
  | false =>
      simp only [Bool.false_eq_true, if_false, map_bind]
      refine congrArg _ (funext fun otherwise => ?_)
      cases otherwise <;> simp

theorem alternatives_inherits (read : List (Expr × Block)) :
    (Routine.alternatives read).Inherits := by
  intro rounds levels left state ih hrounds _
  show Follows _ _ (attach read <$> Parser.alternative _ _ _) (Restores 0 0 state) state
  rw [attach_alternative]
  refine .eat (fun eaten heaten hone => ?_) (.eat (fun eaten heaten hone => ?_) ?_)
  · refine .call ih levels rounds rfl rfl (frames_lt (by omega) (by simp))
      (by omega) fun branch after hafter hless => ?_
    obtain ⟨left, rfl⟩ := Nat.exists_eq_add_one_of_ne_zero (n := left) (by omega)
    exact .goRound ih levels left rfl rfl (Nat.le_refl _) (by omega) (by omega)
      (by omega) (by omega)
  · refine .expect fun colon before hbefore htwo => ?_
    exact .call ih levels rounds rfl rfl (frames_lt (by omega) (by simp))
      (by omega) fun body after hafter hless => .result ⟨by omega, by omega⟩
  · exact .result ⟨rfl, Nat.le_refl _⟩

theorem parameters_inherits (read : List Param) : (Routine.parameters read).Inherits := by
  intro rounds levels left state ih hrounds _
  show Follows _ _ _ (Restores 0 0 state) state
  refine .isNext fun found => ?_
  cases found with
  | true => exact .result ⟨rfl, Nat.le_refl _⟩
  | false =>
      refine .identifier fun name before hbefore hfewer => .eat (fun after hafter hless => ?_) ?_
      · obtain ⟨left, rfl⟩ := Nat.exists_eq_add_one_of_ne_zero (n := left) (by omega)
        exact .goRound ih levels left rfl rfl (Nat.le_refl _) (by omega) (by omega)
          (by omega) (by omega)
      · exact .result ⟨by omega, by omega⟩

theorem definition_inherits : Routine.definition.Inherits := by
  intro rounds levels left state ih hrounds _
  show Follows _ _ _ (Restores 0 1 state) state
  refine .identifier fun name named hnamed hone => .expect fun paren opened hopened htwo => ?_
  refine .callLoop ih levels rounds rfl rfl (frames_lt (by omega) (by simp)) (by omega)
    fun params read hread => ?_
  obtain ⟨hread, hfewer⟩ := hread
  refine .expect fun paren closed hclosed hthree => .expect fun colon before hbefore hfour => ?_
  exact .call ih levels rounds rfl rfl (frames_lt (by omega) (by simp)) (by omega)
    fun body after hafter hless => .result ⟨by omega, by omega⟩

theorem statement_inherits : Routine.statement.Inherits := by
  intro rounds levels left state ih hrounds _
  show Follows _ _ _ (Restores 0 1 state) state
  refine .peekToken .unexpected fun first hpos => ?_
  have hline : Follows (Routine.statement.frames state) (simpleLine first)
      (Parser.simpleLine (rounds + 1) first) (Restores 0 1 state) state := by
    rw [← bind_pure (Parser.simpleLine (rounds + 1) first)]
    exact simpleLine_follows ih first (frames_lt (Nat.le_refl _) (by simp)) (by omega)
      fun stmt after hafter hless => .result ⟨hafter, hless⟩
  obtain ⟨levels, rfl⟩ := Nat.exists_eq_add_one_of_ne_zero (n := levels) (by omega)
  obtain ⟨kind, span, line, column⟩ := first
  cases kind with
  | keyword word =>
      cases word with
      | ifWord =>
          refine .skip hpos fun skipped hskipped hone => ?_
          refine .call ih levels rounds rfl rfl (frames_lt (by omega) (by simp)) (by omega)
            fun branch before hbefore hfewer => ?_
          refine .callLoop ih levels rounds (id_map _) rfl
            (frames_lt (by omega) (by simp)) (by omega)
            fun rest after hafter => .placeFrom fun place => ?_
          obtain ⟨hafter, hless⟩ := hafter
          exact .result ⟨by omega, by omega⟩
      | whileWord =>
          refine .skip hpos fun skipped hskipped hone => ?_
          exact .call ih levels rounds rfl rfl (frames_lt (by omega) (by simp)) (by omega)
            fun branch after hafter hless => .placeFrom fun place => .result ⟨by omega, by omega⟩
      | defWord =>
          refine .skip hpos fun skipped hskipped hone => ?_
          exact .call ih levels rounds rfl rfl (frames_lt (by omega) (by simp)) (by omega)
            fun stmt after hafter hless => .placeFrom fun place => .result ⟨by omega, by omega⟩
      | _ => exact hline
  | indent => exact .fail
  | _ => exact hline

theorem program_inherits (read : List Stmt) : (Routine.program read).Inherits := by
  intro rounds levels left state ih hrounds _
  show Follows _ _ _ (Restores 0 0 state) state
  have hend : Follows ((Routine.program read).frames state)
      (perform (.expect .endOfFile) >>= fun _ => pure read.reverse)
      (Parser.expect .endOfFile >>= fun _ => pure read.reverse) (Restores 0 0 state) state :=
    .expect fun ends after hafter hless => .result ⟨hafter, by omega⟩
  have hmore : Follows ((Routine.program read).frames state)
      (call .statement >>= fun stmt => .goOn (.program (stmt :: read)))
      (Parser.statement (rounds + 1) >>= fun stmt =>
        Parser.program (rounds + 1) left (stmt :: read)) (Restores 0 0 state) state := by
    refine .call ih rounds rounds rfl rfl (frames_lt (Nat.le_refl _) (by simp))
      (by omega) fun stmt after hafter hless => ?_
    obtain ⟨left, rfl⟩ := Nat.exists_eq_add_one_of_ne_zero (n := left) (by omega)
    exact .goRound ih levels left rfl rfl (Nat.le_refl _) (by omega) (by omega)
      (by omega) (by omega)
  refine .peek hend fun kind hpos => ?_
  cases kind with
  | endOfFile => exact hend
  | _ => exact hmore

/-! ## Whole parses -/

theorem Routine.inherits (routine : Routine α) : routine.Inherits := by
  cases routine with
  | program read => exact program_inherits read
  | statement => exact statement_inherits
  | simple => exact simple_inherits
  | block => exact block_inherits
  | statements read => exact statements_inherits read
  | guarded => exact guarded_inherits
  | alternatives read => exact alternatives_inherits read
  | definition => exact definition_inherits
  | parameters read => exact parameters_inherits read
  | expression => exact expression_inherits
  | chain strength => exact chain_inherits strength
  | links strength held first => exact links_inherits strength held first
  | signed sign => exact signed_inherits sign
  | comparison => exact comparison_inherits
  | trailed => exact trailed_inherits
  | trailers held object => exact trailers_inherits held object
  | arguments read => exact arguments_inherits read
  | atom => exact atom_inherits

/-- All routines settle: by induction on the bound on calls inside each other, and for the rounds of
loops on the number of tokens. -/
theorem settled (rounds frames tokens : Nat) : Settled rounds frames tokens := by
  induction frames using Nat.strongRecOn generalizing tokens with
  | ind frames ihFrames =>
  induction tokens using Nat.strongRecOn with
  | ind tokens ihTokens =>
  intro β routine levels left state hrounds hheld hless
  refine routine.inherits ?_ hrounds hheld
  rcases hless with hframes | ⟨hframes, htokens⟩
  · exact ihFrames _ hframes _
  · rcases Nat.lt_or_eq_of_le hframes with hlt | heq
    · exact ihFrames _ hlt _
    · rw [heq]
      exact ihTokens _ htokens

/-- The outcome of a call of a routine: that of its reader, with a round for every token. -/
def Routine.outcome (routine : Routine α) (state : ParseState) :
    Except ParseError (α × ParseState) :=
  routine.reader state.rest.length state.rest.length state.rest.length state

theorem Routine.arrives (routine : Routine α) {state : ParseState}
    (hheld : routine.held ≤ state.depth) (hdepth : state.depth ≤ maxNesting)
    (callers : Stack ρ α) {limit : Nat} (hlimit : callers.height + routine.frames state ≤ limit) :
    Arrives limit (.running routine.body callers state) callers
      (Restores routine.held routine.consumed state) (routine.outcome state) :=
  routine.inherits (settled _ _ _) (by omega) hheld hdepth callers limit hlimit

/-- The most callers that may wait at once. -/
def maxCallers : Nat :=
  10 * maxNesting + 6

/-- The machine ends within bounds, with what the parser gives. -/
theorem run_start (tokens : List Token) :
    ∃ last, Run maxCallers (Config.start tokens) (.ended (parse tokens) last) := by
  have hlimit : 0 + (6 + 10 * (maxNesting - 0)) ≤ maxCallers := by
    unfold maxCallers
    omega
  have harrives : Arrives maxCallers (Config.start tokens) .empty (Restores 0 0 { rest := tokens })
      (Parser.program (tokens.length + 1) (tokens.length + 1) [] { rest := tokens }) :=
    (Routine.program []).arrives (Nat.zero_le _) (Nat.zero_le _) .empty hlimit
  rw [parse_eq_map]
  cases houtcome : Parser.program (tokens.length + 1) (tokens.length + 1) []
      { rest := tokens } with
  | error error =>
      rw [houtcome] at harrives
      exact harrives
  | ok pair =>
      rw [houtcome] at harrives
      obtain ⟨hrun, -⟩ := harrives
      have hend : Run maxCallers (.running (.result pair.1) .empty pair.2)
          (.ended (.ok pair.1) pair.2) :=
        .step hrun.within (.done (Nat.le_succ_of_le hrun.within.2))
      exact ⟨pair.2, hrun.trans hend⟩

/-- Code comes to an outcome, whoever waits for it: it gives a value back to the callers, or the
machine ends with an error. -/
def Code.ComesTo (code : Code α) (state : ParseState) :
    Except ParseError (α × ParseState) → Prop
  | .ok (value, after) => ∀ {ρ : Type} (callers : Stack ρ α), ∃ steps,
      (Config.running code callers state).after steps = .running (.result value) callers after
  | .error error => ∀ {ρ : Type} (callers : Stack ρ α), ∃ steps last,
      (Config.running code callers state).after steps = .ended (.error error) last

/-- Parsing terminates with the counter of levels and the stack of callers within bounds that no
input exceeds, and never closes a level that is not open. So does every call of a routine, which, if
it succeeds, leaves as many levels open as it found, apart from those that a loop had opened before,
and consumes a token unless it goes on as a loop. -/
theorem parsing_terminates :
    (∀ tokens : List Token,
      (∃ steps last, (Config.start tokens).after steps = .ended (parse tokens) last) ∧
        ∀ steps, ((Config.start tokens).after steps).Within maxCallers) ∧
    ∀ {α : Type} (routine : Routine α) (state : ParseState),
      routine.held ≤ state.depth → state.depth ≤ maxNesting →
        routine.body.ComesTo state (routine.outcome state) ∧
          ∀ value after, routine.outcome state = .ok (value, after) →
            Restores routine.held routine.consumed state after := by
  refine ⟨fun tokens => ?_, fun routine state hheld hdepth => ?_⟩
  · obtain ⟨last, hrun⟩ := run_start tokens
    obtain ⟨steps, hsteps⟩ := hrun.exists_after
    exact ⟨⟨steps, last, hsteps⟩, hrun.within_after rfl⟩
  · have harrives {ρ : Type} (callers : Stack ρ _) :=
      routine.arrives hheld hdepth callers (Nat.le_refl _)
    cases houtcome : routine.outcome state with
    | error error =>
        rw [houtcome] at harrives
        refine ⟨fun callers => ?_, nofun⟩
        obtain ⟨last, hrun⟩ := harrives callers
        obtain ⟨steps, hsteps⟩ := hrun.exists_after
        exact ⟨steps, last, hsteps⟩
    | ok pair =>
        rw [houtcome] at harrives
        refine ⟨fun callers => (harrives callers).1.exists_after, fun value after hok => ?_⟩
        obtain rfl := Except.ok.inj hok
        exact (harrives .empty).2

/-- With all levels open no expression can be read, but the line `pass` can, which leaves all of
them open. -/
theorem parsing_terminates_pass :
    let tokens : List Token :=
      [⟨.keyword .passWord, ⟨0, 4⟩, 1, 1⟩, ⟨.newline, ⟨4, 0⟩, 1, 5⟩]
    let state : ParseState := { rest := tokens, depth := maxNesting }
    Routine.statement.held ≤ state.depth ∧ state.depth ≤ maxNesting ∧
      ∃ value after, Routine.statement.outcome state = .ok (value, after) ∧
        Routine.statement.body.ComesTo state (.ok (value, after)) ∧ Restores 0 1 state after := by
  intro tokens state
  have hheld : Routine.statement.held ≤ state.depth := Nat.zero_le _
  have hdepth : state.depth ≤ maxNesting := Nat.le_refl _
  have hcall := parsing_terminates.2 .statement state hheld hdepth
  exact ⟨hheld, hdepth, _, _, rfl, hcall.1, hcall.2 _ _ rfl⟩

end FrozenScript.Descent
