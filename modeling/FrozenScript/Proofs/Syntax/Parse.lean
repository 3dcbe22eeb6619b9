import FrozenScript.Proofs.Syntax.Complete.Statement

/-!
# The parser reads its grammar

The main statement, `parse_follows_grammar`, says that a program that is read derives from the
grammar, with the tokens up to the first end of the file, and that what derives from the grammar is
read as the derived program unless something is nested too deeply.
-/

namespace FrozenScript

open Grammar

/-- Parsing is reading statements from all the tokens. -/
theorem parse_eq_map (tokens : List Token) :
    parse tokens = Prod.fst <$>
      Parser.program (tokens.length + 1) (tokens.length + 1) [] { rest := tokens } :=
  rfl

theorem exists_of_parse {tokens : List Token} {program : Block} (h : parse tokens = .ok program) :
    ∃ state, Parser.program (tokens.length + 1) (tokens.length + 1) [] { rest := tokens } =
      .ok (program, state) := by
  rw [parse_eq_map] at h
  cases hread : Parser.program (tokens.length + 1) (tokens.length + 1) [] { rest := tokens } with
  | error fault => rw [hread] at h; exact nomatch h
  | ok pair =>
      rw [hread] at h
      obtain rfl := Except.ok.inj h
      exact ⟨pair.2, rfl⟩

theorem error_of_parse {tokens : List Token} {error : ParseError}
    (h : parse tokens = .error error) :
    Parser.program (tokens.length + 1) (tokens.length + 1) [] { rest := tokens } =
      .error error := by
  rw [parse_eq_map] at h
  cases hread : Parser.program (tokens.length + 1) (tokens.length + 1) [] { rest := tokens } with
  | error fault => rw [hread] at h; rw [Except.error.inj h]
  | ok pair => rw [hread] at h; exact nomatch h

/-- A program that is read derives from tokens at the beginning, of which the last one and no other
is the end of the file. -/
theorem program_of_parse {tokens : List Token} {program : Block}
    (h : parse tokens = .ok program) :
    ∃ body last rest, tokens = body ++ last :: rest ∧ last.kind = .endOfFile ∧
      (∀ token ∈ body, token.kind ≠ .endOfFile) ∧
      Program ((body ++ [last]).map Token.kind) (Block.bare program) := by
  obtain ⟨state, hread⟩ := exists_of_parse h
  -- What was read ends with the only end of the file in it, so it is what stands before the first
  -- one in the tokens.
  obtain ⟨taken, htaken, more, hmore, hprogram⟩ := Parser.program_reads _ _ [] _ _ _ _ rfl hread
  obtain rfl : program = more := hmore
  generalize hkinds : taken.map Token.kind = kinds at hprogram
  obtain ⟨hbody⟩ := hprogram
  obtain ⟨body, ends, rfl, hkindsBody, hend⟩ := List.map_eq_append_iff.mp hkinds
  obtain ⟨last, rfl, hlast⟩ := List.map_eq_singleton_iff.mp hend
  have htokens : tokens = body ++ last :: state.rest := by
    rw [← List.singleton_append, ← List.append_assoc]
    exact htaken
  refine ⟨body, last, state.rest, htokens, hlast, ?_, ?_⟩
  · intro token htoken heof
    refine endOfFile_not_mem_of_statements hbody ?_
    rw [← hkindsBody, ← heof]
    exact List.mem_map_of_mem htoken
  · rw [hkinds]
    exact .intro hbody

/-- What derives from the grammar is read, unless something is nested too deeply. -/
theorem parse_of_program {read rest : List Token} {tree : Block}
    (h : Program (read.map Token.kind) tree) :
    (∃ program, parse (read ++ rest) = .ok program ∧ Block.bare program = tree) ∨
      ∃ nesting span, parse (read ++ rest) = .error ⟨.tooDeep nesting, span⟩ := by
  generalize hkinds : read.map Token.kind = kinds at h
  obtain @⟨before, _, hbody⟩ := h
  have hstate : ParseState.kinds { rest := read ++ rest } =
      before ++ .endOfFile :: rest.map Token.kind := by
    rw [ParseState.kinds, List.map_append, hkinds, List.append_assoc]
    rfl
  have hrounds : before.length + (rest.map Token.kind).length + 1 < (read ++ rest).length + 1 := by
    have hlength := congrArg List.length hkinds
    grind
  rw [parse_eq_map]
  obtain ⟨program, state, hok, hprogram, -⟩ | ⟨nesting, span, herror⟩ :=
    Parser.program_yields hbody [] hstate hrounds hrounds
  · exact .inl ⟨program, by rw [hok]; rfl, hprogram⟩
  · exact .inr ⟨nesting, span, by rw [herror]; rfl⟩

/-- A list of tokens is read as the program that its tokens up to the first end of the file derive,
its spans and lines apart; if they derive a program, nothing but nesting can make reading fail. -/
theorem parse_follows_grammar (tokens : List Token) :
    (∀ program, parse tokens = .ok program →
      ∃ body last rest, tokens = body ++ last :: rest ∧ last.kind = .endOfFile ∧
        (∀ token ∈ body, token.kind ≠ .endOfFile) ∧
        Program ((body ++ [last]).map Token.kind) (Block.bare program)) ∧
    ∀ read rest tree, tokens = read ++ rest → Program (read.map Token.kind) tree →
      (∃ program, parse tokens = .ok program ∧ Block.bare program = tree) ∨
        ∃ nesting span, parse tokens = .error ⟨.tooDeep nesting, span⟩ := by
  constructor
  · exact fun program hparse => program_of_parse hparse
  · intro read rest tree htokens hprogram
    subst htokens
    exact parse_of_program hprogram

/-- The tokens of a line `a - b * c` and of the end of the file, without their places. -/
def differenceTokens : List Token :=
  [.identifier "a", .symbol .minus, .identifier "b", .symbol .star, .identifier "c", .newline,
    .endOfFile].map fun kind => ⟨kind, ⟨0, 0⟩, 0, 0⟩

/-- The tree of a line `a - b * c`. -/
def differenceTree : Block :=
  [.expr noPlace (.binary nowhere .sub (.name nowhere "a")
    (.binary nowhere .mul (.name nowhere "b") (.name nowhere "c")))]

/-- The tokens of `a - b * c` are read as its tree, which they derive. -/
theorem parse_follows_grammar_difference :
    parse differenceTokens = .ok differenceTree ∧
      ∃ body last rest, differenceTokens = body ++ last :: rest ∧ last.kind = .endOfFile ∧
        (∀ token ∈ body, token.kind ≠ .endOfFile) ∧
        Program ((body ++ [last]).map Token.kind) (Block.bare differenceTree) := by
  have hparse : parse differenceTokens = .ok differenceTree := rfl
  exact ⟨hparse, (parse_follows_grammar differenceTokens).1 differenceTree hparse⟩

end FrozenScript
