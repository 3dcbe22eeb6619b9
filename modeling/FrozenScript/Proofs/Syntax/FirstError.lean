import FrozenScript.Proofs.Syntax.Foresight
import FrozenScript.Proofs.Syntax.Parse

/-!
# Syntax errors are reported at the first impossible token

Every reader of the parser is foreseen (`Foresees`), as long as its rounds are no less than the
number of tokens; there is one lemma for each. So where a program fails to be read, the tokens
before can be completed to a program. They cannot with the token at which reading failed: otherwise
the parser would read the completed program, as it reads whatever derives from the grammar, though
it failed without having seen more of it.

The main statement is `parse_error_first_impossible`.
-/

namespace FrozenScript

open Grammar Text

namespace Parser

/-! ## Expressions -/

/-- The parser is foreseen to read expressions of a level. -/
abbrev ForeseesLevel (n : Nat) (level : Level) (parser : Nat → Parser Expr) : Prop :=
  Foresees n parser fun kinds expr => Derives level kinds expr.bare

/-- There are expressions of every level. -/
theorem possible_derives (level : Level) :
    Possible fun kinds (expr : Expr) => Derives level kinds expr.bare := by
  have hatom : Derives .atom [.keyword .noneWord] (.literal nowhere .none) := .leaf .noneWord
  have htrailed : Derives .trailed _ _ := .stronger rfl hatom
  have hfactor : Derives .factor _ _ := .stronger rfl htrailed
  have hproduct : Derives .product _ _ := .stronger rfl hfactor
  have hsum : Derives .sum _ _ := .stronger rfl hproduct
  have hcomparison : Derives .comparison _ _ := .stronger rfl hsum
  have hnegation : Derives .negation _ _ := .stronger rfl hcomparison
  have hconjunction : Derives .conjunction _ _ := .stronger rfl hnegation
  have hdisjunction : Derives .disjunction _ _ := .stronger rfl hconjunction
  refine ⟨[.keyword .noneWord], .literal nowhere .none, ?_⟩
  cases level <;> assumption

section

variable {n rounds : Nat} {level next : Level} {parser : Nat → Parser Expr}
  {operator : Kind → Option (Span → Expr → Expr → Expr)}

/-- A chain and what stood before it are foreseen to be an expression of the level. -/
theorem chain_foresees (hoperator : Implements level operator) (hnext : level.stronger = some next)
    (hoperand : ForeseesLevel n next parser) :
    ∀ {m held : Nat} {left : Expr} {before : List Kind}, m ≤ n → m ≤ rounds →
      Derives level before left.bare →
      Foresees m (fun more => chain operator (parser more) (more + rounds) held left)
        fun kinds expr => Derives level (before ++ kinds) expr.bare := by
  induction rounds with
  | zero =>
      intro m held left before _ hm hleft
      obtain rfl := Nat.le_zero.mp hm
      exact .zero ⟨[], left, by simpa using hleft⟩
  | succ rounds ih =>
      intro m held left before hmn hm hleft
      have hend : Foresees m (fun _ => leave held >>= fun _ => Pure.pure left)
          fun kinds expr => Derives level (before ++ kinds) expr.bare :=
        .leave (.pure (by simpa using hleft))
      refine ⟨hend.possible, fun found => ForeseesAt.peek ?_⟩
      cases hnode : (found.map Token.kind).bind operator with
      | none => exact hend.foresees found
      | some node =>
          obtain ⟨kind, hfound, hkind⟩ := Option.bind_eq_some_iff.mp hnode
          obtain ⟨sign, rfl, rfl⟩ := Option.map_eq_some_iff.mp hfound
          refine .skip (.enter ((hoperand.mono (by omega)).bind fun right behind hright => ?_))
          have hjoins := hoperator.joins hkind (left.span.join right.span) left right
          have hpos := length_pos_of_derives hright
          refine (ih (by omega) (by omega) (.chain hleft hnext hright hjoins)).weaken ?_
          exact fun kinds expr h => by simpa using h

theorem leftChain_foresees (hoperator : Implements level operator)
    (hnext : level.stronger = some next) (hoperand : ForeseesLevel n next parser)
    (hn : n ≤ rounds) :
    ForeseesLevel n level fun more => leftChain (more + rounds) operator (parser more) :=
  hoperand.bind fun _ _ hleft =>
    chain_foresees hoperator hnext hoperand (Nat.sub_le _ _) (Nat.le_trans (Nat.sub_le _ _) hn)
      (.stronger hnext hleft)

theorem signed_foresees {sign : Kind} {op : UnaryOp} (hsign : Prefixes level sign op)
    (hnext : level.stronger = some next) :
    ∀ {n : Nat}, ForeseesLevel n next parser → n ≤ rounds →
      ForeseesLevel n level fun more => signed sign op (parser more) (more + rounds) := by
  induction rounds with
  | zero =>
      intro n _ hn
      obtain rfl := Nat.le_zero.mp hn
      exact .zero (possible_derives level)
  | succ rounds ih =>
      intro n hoperand hn
      refine Foresees.eat ?_ (hoperand.weaken fun kinds expr h => .stronger hnext h)
      refine .lastSpan fun start => .enter ?_
      refine (ih (hoperand.mono (Nat.sub_le _ _)) (by omega)).bind fun inner kinds h => ?_
      exact .leave (.pure (by simpa [Expr.bare] using Derives.signed hsign h))

end

section

variable {n rounds : Nat} {expression : Nat → Parser Expr}

theorem arguments_foresees (hexpression : ForeseesLevel n .disjunction expression) :
    ∀ {m : Nat} {read : List Expr}, m ≤ n → m ≤ rounds →
      Foresees m (fun more => arguments (expression more) (more + rounds) read)
        fun kinds args => ∃ more, args = read.reverse ++ more ∧
          Arguments kinds (bareExprs more) := by
  induction rounds with
  | zero =>
      intro m read _ hm
      obtain rfl := Nat.le_zero.mp hm
      exact .zero ⟨[], read.reverse, [], by simp, .nil⟩
  | succ rounds ih =>
      intro m read hmn hm
      refine .isNext fun found => ?_
      cases found with
      | true => exact .pure ⟨[], by simp, .nil⟩
      | false =>
          refine (hexpression.mono hmn).bind fun arg kinds harg => .eat ?_ ?_
          · have hpos := length_pos_of_derives harg
            refine (ih (by omega) (by omega)).weaken fun rest args => ?_
            rintro ⟨more, rfl, hmore⟩
            exact ⟨arg :: more, by simp, .cons harg hmore⟩
          · refine .pure ⟨[arg], by simp, ?_⟩
            rw [List.append_nil]
            exact .last harg

theorem atom_foresees (hexpression : ForeseesLevel (n - 1) .disjunction expression) :
    ForeseesLevel n .atom fun more => atom (expression more) := by
  have hpossible := possible_derives .atom
  have hunexpected : ForeseesLevel n .atom fun _ => unexpected .expression :=
    .unexpected _ hpossible
  have leaf {token : Token} {expr : Expr} (h : Leaf token.kind expr.bare) :
      ForeseesAt (some token) n (fun _ => skip >>= fun _ => Pure.pure expr)
        fun kinds expr => Derives .atom kinds expr.bare :=
    .skip (.pure (.leaf h))
  refine ⟨hpossible, fun found => ForeseesAt.peekToken ?_⟩
  cases found with
  | none => exact hunexpected.foresees _
  | some token =>
  obtain ⟨kind, span, line, column⟩ := token
  cases kind with
  | integer value => exact leaf (.integer value)
  | text value => exact leaf (.text value)
  | identifier name => exact leaf (.name name)
  | keyword word =>
      cases word with
      | trueWord => exact leaf .trueWord
      | falseWord => exact leaf .falseWord
      | noneWord => exact leaf .noneWord
      | _ => exact hunexpected.foresees _
  | symbol sign =>
      cases sign with
      | openParen =>
          refine .skip (hexpression.bind fun inner kinds hinner => .expect fun close => .pure ?_)
          rw [Expr.bare_withSpan]
          exact .parens hinner
      | _ => exact hunexpected.foresees _
  | _ => exact hunexpected.foresees _

theorem trailers_foresees (hexpression : ForeseesLevel (n - 1) .disjunction expression)
    (hn : n ≤ rounds) {fuel : Nat} :
    ∀ {m held : Nat} {object : Expr} {before : List Kind}, m ≤ n → m ≤ fuel →
      Derives .trailed before object.bare →
      Foresees m
        (fun more => trailers (more + rounds) (expression more) (more + fuel) held object)
        fun kinds expr => Derives .trailed (before ++ kinds) expr.bare := by
  induction fuel with
  | zero =>
      intro m held object before _ hm hobject
      obtain rfl := Nat.le_zero.mp hm
      exact .zero ⟨[], object, by simpa using hobject⟩
  | succ fuel ih =>
      intro m held object before hmn hm hobject
      have hend : Foresees m (fun _ => leave held >>= fun _ => Pure.pure object)
          fun kinds expr => Derives .trailed (before ++ kinds) expr.bare :=
        .leave (.pure (by simpa using hobject))
      refine ⟨hend.possible, fun found => ForeseesAt.peek ?_⟩
      cases found with
      | none => exact hend.foresees _
      | some token =>
      obtain ⟨kind, span, line, column⟩ := token
      cases kind with
      | symbol sign =>
          cases sign with
          | openParen =>
              refine .enter (.skip ?_)
              refine (arguments_foresees hexpression (by omega) (by omega)).bind ?_
              rintro args kinds ⟨more, rfl, hmore⟩
              refine .expect fun close => ?_
              refine (ih (by omega) (by omega) (.call hobject hmore)).weaken ?_
              exact fun kinds expr h => by simpa using h
          | dot =>
              refine .enter (.skip (.identifier fun name span => ?_))
              refine (ih (by omega) (by omega) (.member hobject)).weaken ?_
              exact fun kinds expr h => by simpa using h
          | _ => exact hend.foresees _
      | _ => exact hend.foresees _

theorem comparison_foresees
    (hsum : ForeseesLevel n .sum fun more => sum (more + rounds) (expression more)) :
    ForeseesLevel n .comparison fun more => comparison (more + rounds) (expression more) := by
  refine hsum.bind fun left before hleft => ?_
  have hend {m : Nat} : Foresees m (fun _ => Pure.pure left)
      fun kinds (expr : Expr) => Derives .comparison (before ++ kinds) expr.bare :=
    .pure (by simpa using .stronger rfl hleft)
  refine ⟨(hend (m := 0)).possible, fun found => ForeseesAt.peek ?_⟩
  dsimp only
  cases hop : (found.map Token.kind).bind compareOp with
  | none => exact hend.foresees _
  | some op =>
      obtain ⟨kind, hfound, hkind⟩ := Option.bind_eq_some_iff.mp hop
      obtain ⟨sign, rfl, rfl⟩ := Option.map_eq_some_iff.mp hfound
      refine .skip ((hsum.mono (by omega)).bind fun right behind hright => ?_)
      have hcompare {m : Nat} : Foresees m
          (fun _ => (Pure.pure (combine (.compare · op) left right) : Parser Expr))
          fun kinds expr =>
            Derives .comparison (before ++ sign.kind :: (behind ++ kinds)) expr.bare :=
        .pure (by simpa using .compare hleft (compareOp_eq_some_iff.mp hkind) hright)
      refine ⟨(hcompare (m := 0)).possible, fun next => ForeseesAt.peekToken ?_⟩
      cases next with
      | none => exact hcompare.foresees _
      | some token =>
          dsimp only
          by_cases hsecond : (compareOp token.kind).isSome
          · simp only [hsecond, if_true]
            refine ForeseesAt.bind (P := fun kinds _ => kinds = [])
              (.fail ⟨[], ⟨⟩, rfl⟩ (.chainedComparison hsecond)) ?_ ?_
            · rintro _ _ rfl
              exact (hcompare (m := 0)).possible
            · rintro _ _ rfl
              exact hcompare
          · simp only [hsecond]
            exact hcompare.foresees _

theorem disjunction_foresees (hexpression : ForeseesLevel (n - 1) .disjunction expression)
    (hn : n ≤ rounds) :
    ForeseesLevel n .disjunction fun more => disjunction (more + rounds) (expression more) := by
  have htrailed : ForeseesLevel n .trailed fun more =>
      trailed (more + rounds) (expression more) :=
    (atom_foresees hexpression).bind fun object before hobject =>
      trailers_foresees hexpression hn (Nat.sub_le _ _) (Nat.le_trans (Nat.sub_le _ _) hn)
        (.stronger rfl hobject)
  have hfactor := signed_foresees .minus rfl htrailed hn
  have hproduct := leftChain_foresees productOp_implements rfl hfactor hn
  have hsum := leftChain_foresees sumOp_implements rfl hproduct hn
  have hnegation := signed_foresees .not rfl (comparison_foresees hsum) hn
  have hconjunction := leftChain_foresees conjunctionOp_implements rfl hnegation hn
  exact leftChain_foresees disjunctionOp_implements rfl hconjunction hn

theorem expressionWithin_foresees {levels : Nat} :
    ∀ {n : Nat}, n ≤ rounds → n ≤ levels →
      ForeseesLevel n .disjunction fun more =>
        expressionWithin (more + rounds) (more + levels) := by
  induction levels with
  | zero =>
      intro n _ hn
      obtain rfl := Nat.le_zero.mp hn
      exact .zero (possible_derives .disjunction)
  | succ levels ih =>
      intro n hn hlevels
      have hinner := ih (n := n - 1) (by omega) (by omega)
      refine .enter ((disjunction_foresees hinner hn).bind fun expr kinds hexpr => ?_)
      exact .leave (.pure (by simpa using hexpr))

end

/-! ## Statements -/

section

variable {n rounds : Nat}

theorem expression_foresees (hn : n ≤ rounds) :
    ForeseesLevel n .disjunction fun more => expression (more + rounds) :=
  expressionWithin_foresees hn hn

/-- An expression as a statement, or an assignment. -/
theorem target_foresees (hn : n ≤ rounds) :
    Foresees n
      (fun more => do
        let target ← expression (more + rounds)
        if ← eat (.symbol .assign) then
          let value ← expression (more + rounds)
          return (.assign · target value)
        return (.expr · target))
      fun kinds (stmt : Place → Stmt) => ∀ place, Simple kinds (stmt place).bare := by
  refine (expression_foresees hn).bind fun target kinds htarget => .eat ?_ ?_
  · refine (expression_foresees (by omega)).bind fun value behind hvalue => .pure fun _ => ?_
    simpa using .assign htarget hvalue
  · exact .pure fun _ => by simpa using .expr htarget

theorem simple_foresees (hn : n ≤ rounds) :
    Foresees n (fun more => simple (more + rounds)) fun kinds stmt =>
      ∀ place, Simple kinds (stmt place).bare := by
  have hexpression {m : Nat} (hm : m ≤ n) := expression_foresees (Nat.le_trans hm hn)
  have hother := target_foresees hn
  refine ⟨hother.possible, fun found => ForeseesAt.peek ?_⟩
  cases found with
  | none => exact hother.foresees _
  | some token =>
  obtain ⟨kind, span, line, column⟩ := token
  cases kind with
  | keyword word =>
      cases word with
      | passWord => exact .skip (.pure fun _ => .pass)
      | breakWord => exact .skip (.pure fun _ => .breakLoop)
      | continueWord => exact .skip (.pure fun _ => .continueLoop)
      | returnWord =>
          refine .skip (.isNext fun found => ?_)
          cases found with
          | true => exact .pure fun _ => .giveBack
          | false =>
              refine (hexpression (by omega)).bind fun value kinds hvalue => .pure fun _ => ?_
              simpa using .giveBackValue hvalue
      | importWord => exact .skip (.identifier fun name span => .pure fun _ => .importModule)
      | assertWord =>
          refine .skip ((hexpression (by omega)).bind fun test kinds htest => .eat ?_ ?_)
          · refine (hexpression (by omega)).bind fun message behind hmessage => .pure fun _ => ?_
            simpa using .assertMessage htest hmessage
          · exact .pure fun _ => by simpa using .assert htest
      | _ => exact hother.foresees _
  | _ => exact hother.foresees _

theorem simpleLine_foresees (hn : n ≤ rounds) (first : Token) :
    Foresees n (fun more => simpleLine (more + rounds) first) fun kinds stmt =>
      ∃ line, kinds = line ++ [.newline] ∧ Simple line stmt.bare := by
  refine (simple_foresees hn).bind fun stmt kinds hstmt => .expect fun span => ?_
  exact .placeFrom fun place => .pure ⟨kinds, rfl, hstmt place⟩

theorem parameters_foresees :
    ∀ {n : Nat} {read : List Param}, n ≤ rounds →
      Foresees n (fun more => parameters (more + rounds) read) fun kinds params =>
        ∃ more, params = read.reverse ++ more ∧ Parameters kinds (more.map Param.bare) := by
  induction rounds with
  | zero =>
      intro n read hn
      obtain rfl := Nat.le_zero.mp hn
      exact .zero ⟨[], read.reverse, [], by simp, .nil⟩
  | succ rounds ih =>
      intro n read hn
      refine .isNext fun found => ?_
      cases found with
      | true => exact .pure ⟨[], by simp, .nil⟩
      | false =>
          refine .identifier fun name span => .eat ?_ ?_
          · refine (ih (by omega)).weaken fun rest params => ?_
            rintro ⟨more, rfl, hmore⟩
            exact ⟨⟨name, span⟩ :: more, by simp, .cons hmore⟩
          · exact .pure ⟨[⟨name, span⟩], by simp, .last⟩

end

/-! ## Blocks -/

/-- The parser is foreseen to read statements. -/
abbrev ForeseesStmt (n : Nat) (parser : Nat → Parser Stmt) : Prop :=
  Foresees n parser fun kinds stmt => Statement kinds stmt.bare

section

variable {n rounds : Nat} {statement : Nat → Parser Stmt}

theorem statements_foresees (hstatement : ForeseesStmt n statement) :
    ∀ {m : Nat} {read : List Stmt}, m ≤ n → m ≤ rounds →
      Foresees m (fun more => statements (statement more) (more + rounds) read)
        fun kinds body => ∃ more inner, body = read.reverse ++ more ∧ kinds = inner ++ [.dedent] ∧
          Statements inner (Block.bare more) := by
  induction rounds with
  | zero =>
      intro m read _ hm
      obtain rfl := Nat.le_zero.mp hm
      exact .zero ⟨[.dedent], read.reverse, [], [], by simp, rfl, .nil⟩
  | succ rounds ih =>
      intro m read hmn hm
      refine .eat (.pure ⟨[], [], by simp, rfl, .nil⟩) ?_
      refine (hstatement.mono hmn).bind fun stmt before hstmt => ?_
      have hpos := length_pos_of_statement hstmt
      refine (ih (by omega) (by omega)).weaken fun rest body => ?_
      rintro ⟨more, inner, rfl, rfl, hmore⟩
      exact ⟨stmt :: more, before ++ inner, by simp, by simp, .cons hstmt hmore⟩

theorem block_foresees (hstatement : ForeseesStmt n statement) (hn : n ≤ rounds) :
    Foresees n (fun more => block (more + rounds) (statement more)) fun kinds body =>
      Suite kinds (Block.bare body) := by
  have hline (first : Token) : Foresees n
      (fun more => simpleLine (more + rounds) first >>= fun stmt => Pure.pure [stmt])
      fun kinds (body : Block) => Suite kinds (Block.bare body) := by
    refine (simpleLine_foresees hn first).bind ?_
    rintro stmt _ ⟨line, rfl, hline⟩
    exact .pure (by simpa using .line hline)
  have hpossible := (hline ⟨.newline, ⟨0, 0⟩, 0, 0⟩).possible
  refine .eat (.eat (.enter ?_) (.unexpected _ ?_)) ⟨hpossible, fun found => .peekToken ?_⟩
  · refine (statements_foresees hstatement (by omega) (by omega)).bind ?_
    rintro body _ ⟨more, inner, rfl, rfl, hmore⟩
    exact .leave (.pure (by simpa using .indented hmore))
  · exact ⟨[.indent, .dedent], [], .indented .nil⟩
  · cases found with
    | none => exact (Foresees.unexpected _ hpossible).foresees _
    | some first => exact (hline first).foresees _

theorem guarded_foresees (hstatement : ForeseesStmt n statement) (hn : n ≤ rounds) :
    Foresees n (fun more => guarded (more + rounds) (statement more)) fun kinds found =>
      ∃ before behind, kinds = before ++ .symbol .colon :: behind ∧
        Expression before found.1.bare ∧ Suite behind (Block.bare found.2) := by
  refine (expression_foresees hn).bind fun condition before hcondition => .expect fun _ => ?_
  refine (block_foresees (hstatement.mono (by omega)) (by omega)).bind fun body behind hbody => ?_
  exact .pure ⟨before, behind, by simp, hcondition, hbody⟩

theorem alternative_foresees (hstatement : ForeseesStmt n statement) (hn : n ≤ rounds)
    {fuel : Nat} :
    ∀ {m : Nat}, m ≤ n → m ≤ fuel →
      Foresees m (fun more => alternative (more + rounds) (statement more) (more + fuel))
        fun kinds rest => Rest kinds rest.bare := by
  induction fuel with
  | zero =>
      intro m _ hm
      obtain rfl := Nat.le_zero.mp hm
      exact .zero ⟨[], .nothing, .nothing⟩
  | succ fuel ih =>
      intro m hmn hm
      refine .eat ?_ (.eat ?_ (.pure .nothing))
      · refine (guarded_foresees (hstatement.mono (by omega)) (by omega)).bind ?_
        rintro ⟨condition, body⟩ _ ⟨before, between, rfl, hcondition, hbody⟩
        refine (ih (by omega) (by omega)).bind fun rest behind hrest => .pure ?_
        simpa using .elif hcondition hbody hrest
      · refine .expect fun _ => ?_
        refine (block_foresees (hstatement.mono (by omega)) (by omega)).bind ?_
        exact fun body kinds hbody => .pure (by simpa using .otherwise hbody)

theorem definition_foresees (hstatement : ForeseesStmt n statement) (hn : n ≤ rounds) :
    Foresees n (fun more => definition (more + rounds) (statement more)) fun kinds stmt =>
      ∀ place, Statement (.keyword .defWord :: kinds) (stmt place).bare := by
  refine .identifier fun name _ => .expect fun _ => ?_
  refine (parameters_foresees (by omega)).bind ?_
  rintro params kinds ⟨more, rfl, hmore⟩
  refine .expect fun _ => .expect fun _ => ?_
  refine (block_foresees (hstatement.mono (by omega)) (by omega)).bind fun body behind hbody => ?_
  exact .pure fun place => by simpa [Stmt.bare] using .define hmore hbody

end

section

variable {rounds : Nat}

theorem statementWithin_foresees {levels : Nat} :
    ∀ {n : Nat}, n ≤ rounds → n ≤ levels →
      ForeseesStmt n fun more => statementWithin (more + rounds) (more + levels) := by
  have hpossible : Possible fun kinds (stmt : Stmt) => Statement kinds stmt.bare :=
    ⟨_, .pass noPlace, .simple .pass⟩
  induction levels with
  | zero =>
      intro n _ hn
      obtain rfl := Nat.le_zero.mp hn
      exact .zero hpossible
  | succ levels ih =>
      intro n hn hlevels
      have hinner := ih (n := n - 1) (by omega) (by omega)
      have hline (first : Token) : ForeseesStmt n fun more => simpleLine (more + rounds) first := by
        refine (simpleLine_foresees hn first).weaken ?_
        rintro _ stmt ⟨line, rfl, hline⟩
        exact .simple hline
      refine ⟨hpossible, fun found => ForeseesAt.peekToken ?_⟩
      cases found with
      | none => exact (Foresees.unexpected _ hpossible).foresees _
      | some first =>
      obtain ⟨kind, span, line, column⟩ := first
      cases kind with
      | keyword word =>
          cases word with
          | ifWord =>
              refine .skip ((guarded_foresees hinner (by omega)).bind ?_)
              rintro ⟨condition, body⟩ _ ⟨before, between, rfl, hcondition, hbody⟩
              refine (alternative_foresees hinner (by omega) (by omega) (by omega)).bind ?_
              refine fun rest behind hrest => .placeFrom fun place => .pure ?_
              simpa [Stmt.bare] using .branch hcondition hbody hrest
          | whileWord =>
              refine .skip ((guarded_foresees hinner (by omega)).bind ?_)
              rintro ⟨condition, body⟩ _ ⟨before, behind, rfl, hcondition, hbody⟩
              refine .placeFrom fun place => .pure ?_
              simpa [Stmt.bare] using .loop hcondition hbody
          | defWord =>
              refine .skip ((definition_foresees hinner (by omega)).bind fun stmt kinds hstmt => ?_)
              exact .placeFrom fun place => .pure (by simpa using hstmt place)
          | _ => exact (hline _).foresees _
      | indent => exact .fail hpossible (.unexpectedIndent rfl)
      | _ => exact (hline _).foresees _

/-- The reader of programs is foreseen to read programs. -/
theorem program_foresees {fuel : Nat} :
    ∀ {n : Nat} (read : List Stmt), n ≤ rounds → n ≤ fuel →
      Foresees n (fun more => program (more + rounds) (more + fuel) read) fun kinds body =>
        ∃ more, body = read.reverse ++ more ∧ Program kinds (Block.bare more) := by
  induction fuel with
  | zero =>
      intro n read _ hn
      obtain rfl := Nat.le_zero.mp hn
      exact .zero ⟨[.endOfFile], read.reverse, [], by simp, .intro .nil⟩
  | succ fuel ih =>
      intro n read hn hm
      have hend : Foresees n (fun _ => expect .endOfFile >>= fun _ => Pure.pure read.reverse)
          fun kinds body => ∃ more, body = read.reverse ++ more ∧ Program kinds (Block.bare more) :=
        .expect fun _ => .pure ⟨[], by simp, .intro .nil⟩
      have hmore : Foresees n
          (fun more => statement (more + rounds) >>= fun stmt =>
            program (more + rounds) (more + fuel) (stmt :: read))
          fun kinds body => ∃ more, body = read.reverse ++ more ∧
            Program kinds (Block.bare more) := by
        refine (statementWithin_foresees hn hn).bind fun stmt before hstmt => ?_
        have hpos := length_pos_of_statement hstmt
        refine (ih (stmt :: read) (by omega) (by omega)).weaken fun rest body => ?_
        rintro ⟨more, rfl, ⟨hmore⟩⟩
        refine ⟨stmt :: more, by simp, ?_⟩
        rw [← List.append_assoc]
        exact .intro (.cons hstmt hmore)
      refine ⟨hend.possible, fun found => ForeseesAt.peek ?_⟩
      cases found with
      | none => exact hend.foresees _
      | some token =>
      obtain ⟨kind, span, line, column⟩ := token
      cases kind with
      | endOfFile => exact hend.foresees _
      | _ => exact hmore.foresees _

end

end Parser

/-! ## Whole programs -/

/-- Some kinds can be completed to a program. -/
def Grammar.Viable (kinds : List Kind) : Prop :=
  ∃ more tree, Program (kinds ++ more) tree

/-- What is read as no program, whatever follows, and not for its nesting, cannot be completed. -/
theorem not_viable_of_error {read : List Token} (rounds : Nat) {error : ParseError}
    (hnesting : ∀ nesting, error.fault ≠ .tooDeep nesting)
    (h : ∀ more rest, Parser.program (more + rounds) (more + rounds) [] { rest := read ++ rest } =
      .error error) : ¬ Viable (read.map Token.kind) := by
  rintro ⟨behind, tree, hprogram⟩
  generalize hkinds : read.map Token.kind ++ behind = kinds at hprogram
  obtain @⟨before, _, hbody⟩ := hprogram
  obtain ⟨rest, hrest⟩ : ∃ rest : List Token, rest.map Token.kind = behind :=
    ⟨behind.map fun kind => ⟨kind, ⟨0, 0⟩, 0, 0⟩, by simp [Function.comp_def]⟩
  have hstate : ParseState.kinds { rest := read ++ rest } = before ++ .endOfFile :: [] := by
    rw [ParseState.kinds, List.map_append, hrest, hkinds]
  -- Enough rounds for the completed program, which the parser therefore reads.
  have hrounds : before.length + ([] : List Kind).length + 1 < before.length + 2 + rounds := by
    rw [List.length_nil]
    omega
  obtain ⟨program, state, hok, -⟩ | ⟨nesting, span, herror⟩ :=
    Parser.program_yields hbody [] hstate hrounds hrounds
  · rw [h] at hok
    cases hok
  · rw [h] at herror
    obtain rfl := Except.error.inj herror
    exact hnesting nesting rfl

/-- A list of tokens that is read as no program, and not for its nesting, is faulted at the first
token with which no program begins as the tokens up to it do, or else at its end if it begins a
program and holds none. -/
theorem parse_error_first_impossible {tokens : List Token} {error : ParseError}
    (h : parse tokens = .error error) (hnesting : ∀ nesting, error.fault ≠ .tooDeep nesting) :
    (∃ before token behind, tokens = before ++ token :: behind ∧ error.At token ∧
      Viable (before.map Token.kind) ∧ ¬ Viable ((before ++ [token]).map Token.kind)) ∨
    error.AtEnd tokens.getLast? ∧ Viable (tokens.map Token.kind) ∧
      ∀ read, read <+: tokens → ∀ tree, ¬ Program (read.map Token.kind) tree := by
  have hread : Parser.program (0 + (tokens.length + 1)) (0 + (tokens.length + 1)) []
      { rest := tokens } = .error error := by
    rw [Nat.zero_add]
    exact error_of_parse h
  have hforesees := (Parser.program_foresees [] (Nat.le_refl (tokens.length + 1))
    (Nat.le_refl _)).foresees _ { rest := tokens } rfl (Nat.lt_succ_self _)
  cases hforesees with
  | @read taken value state' hmoves _ hparser =>
      have hok := hparser 0 state'.rest rfl
      rw [hmoves.eq_state, hread] at hok
      exact nomatch hok
  | @stops before token behind fault hsplit hat hseen hparser =>
      obtain rfl : tokens = before ++ token :: behind := hsplit
      obtain rfl : error = fault := Except.error.inj (hread.symm.trans (hparser 0 behind))
      obtain ⟨more, _, body, -, hprogram⟩ := hseen
      refine .inl ⟨before, token, behind, rfl, hat, ⟨more, Block.bare body, hprogram⟩, ?_⟩
      refine not_viable_of_error ((before ++ token :: behind).length + 1) hnesting ?_
      intro more rest
      rw [List.append_assoc]
      exact hparser more rest
  | @ends fault herror hat hseen =>
      obtain rfl : error = fault := Except.error.inj (hread.symm.trans herror)
      obtain ⟨more, _, body, -, hprogram⟩ := hseen
      refine .inr ⟨by simpa using hat, ⟨more, Block.bare body, hprogram⟩, ?_⟩
      rintro before ⟨rest, rfl⟩ tree hbefore
      obtain ⟨program, hok, -⟩ | ⟨nesting, span, hdeep⟩ := parse_of_program hbefore
      · rw [h] at hok
        exact nomatch hok
      · rw [h] at hdeep
        obtain rfl := Except.error.inj hdeep
        exact hnesting nesting rfl
  | tooDeep herror =>
      obtain rfl := Except.error.inj (hread.symm.trans herror)
      exact absurd rfl (hnesting _)

/-- The tokens of `a < b < c`. -/
def chainedTokens : List Token :=
  [⟨.identifier "a", ⟨0, 1⟩, 1, 1⟩, ⟨.symbol .less, ⟨2, 1⟩, 1, 3⟩, ⟨.identifier "b", ⟨4, 1⟩, 1, 5⟩,
    ⟨.symbol .less, ⟨6, 1⟩, 1, 7⟩, ⟨.identifier "c", ⟨8, 1⟩, 1, 9⟩, ⟨.newline, ⟨9, 0⟩, 1, 10⟩,
    ⟨.endOfFile, ⟨9, 0⟩, 1, 10⟩]

/-- Of two comparisons in a chain the second one is faulted, at its sign. -/
theorem parse_error_first_impossible_chained :
    parse chainedTokens = .error ⟨.chainedComparison, ⟨6, 1⟩⟩ ∧
      ((∃ before token behind, chainedTokens = before ++ token :: behind ∧
          ParseError.At token ⟨.chainedComparison, ⟨6, 1⟩⟩ ∧
          Viable (before.map Token.kind) ∧ ¬ Viable ((before ++ [token]).map Token.kind)) ∨
        ParseError.AtEnd chainedTokens.getLast? ⟨.chainedComparison, ⟨6, 1⟩⟩ ∧
          Viable (chainedTokens.map Token.kind) ∧
          ∀ read, read <+: chainedTokens → ∀ tree, ¬ Program (read.map Token.kind) tree) := by
  have hparse : parse chainedTokens = .error ⟨.chainedComparison, ⟨6, 1⟩⟩ := rfl
  exact ⟨hparse, parse_error_first_impossible hparse nofun⟩

end FrozenScript
