import FrozenScript.Token.Lexer

/-!
# Rounds of the scanner

What one round of the scanner does is said once, as an inductive predicate: `Round` lists the ways
in which a round may succeed, and `round_of_step` says that there are no others. `Lexeme` relates
the characters of a token to its kind, and `Reaches` closes rounds under sequence. The main
statement, `exists_of_lex`, says that a source is split into tokens by the rounds that lead to its
end.
-/

namespace FrozenScript

open Text

/-- The number of open parentheses after a token. -/
def Kind.depthAfter (depth : Nat) : Kind → Nat
  | .symbol sign => Lexer.depthAfter depth sign
  | _ => depth

namespace Lexer

/-! ## Runs of characters -/

theorem not_of_mem_head?_dropWhile {α : Type} {p : α → Bool} {items : List α} {c : α}
    (h : c ∈ (items.dropWhile p).head?) : p c = false := by
  have hhead := List.head?_dropWhile_not p items
  rw [Option.mem_def.mp h] at hhead
  exact hhead

theorem of_mem_takeWhile {α : Type} {p : α → Bool} {items : List α} {c : α}
    (h : c ∈ items.takeWhile p) : p c = true :=
  List.all_eq_true.mp List.all_takeWhile c h

/-! ## Blanks -/

theorem isIndentation_iff {c : Char} :
    isIndentation c = true ↔ c = ' ' ∨ c = '\t' ∨ c = '\x0c' := by
  simp [isIndentation, or_assoc]

theorem isSkipped_iff {c : Char} :
    isSkipped c = true ↔ c = ' ' ∨ c = '\t' ∨ c = '\x0c' ∨ c = '\r' := by
  simp [isSkipped, isIndentation, or_assoc]

/-! ## Lexemes -/

/-- What may stand between the quotes of a text, with the characters that it stands for. -/
inductive TextBody (quote : Char) : List Char → List Char → Prop where
  | nil : TextBody quote [] []
  | plain {c : Char} {body value : List Char} (hline : c ≠ '\n') (hquote : c ≠ quote)
      (hslash : c ≠ '\\') (hbody : TextBody quote body value) :
      TextBody quote (c :: body) (c :: value)
  | escape {c : Char} {body value : List Char} (hbody : TextBody quote body value) :
      TextBody quote ('\\' :: c :: body) (unescape c ++ value)

/-- The characters of a token, in front of the rest of the source, with the kind of the token. -/
inductive Lexeme : (chars rest : List Char) → Kind → Prop where
  | integer {digit : Char} {word rest : List Char} {value : Int64} (hdigit : digit.isDigit = true)
      (hword : ∀ c ∈ word, isWordChar c = true) (hrest : ∀ c ∈ rest.head?, isWordChar c = false)
      (hvalue : readInteger (digit :: word) = .ok value) :
      Lexeme (digit :: word) rest (.integer value)
  | word {first : Char} {word rest : List Char} (hfirst : isWordChar first = true)
      (hdigit : first.isDigit = false) (hword : ∀ c ∈ word, isWordChar c = true)
      (hrest : ∀ c ∈ rest.head?, isWordChar c = false) :
      Lexeme (first :: word) rest (readWord (first :: word))
  | text {quote : Char} {body value rest : List Char} (hquote : quote = '\'' ∨ quote = '"')
      (hbody : TextBody quote body value) :
      Lexeme (quote :: body ++ [quote]) rest (.text (String.ofList value))
  | symbol {c : Char} {behind rest : List Char} {sign : Symbol}
      (hchars : c :: behind = sign.spelling.toList ++ rest)
      (hread : readSymbol c behind = .ok (sign, sign.spelling.length)) :
      Lexeme sign.spelling.toList rest (.symbol sign)

theorem spelling_ne_nil (sign : Symbol) : sign.spelling.toList ≠ [] := by
  cases sign <;> decide

/-- Every lexeme has characters. -/
theorem Lexeme.ne_nil {chars rest : List Char} {kind : Kind} (h : Lexeme chars rest kind) :
    chars ≠ [] := by
  cases h with
  | symbol => exact spelling_ne_nil _
  | _ => exact List.cons_ne_nil _ _

/-- No lexeme stands for the layout. -/
theorem Lexeme.not_isLayout {chars rest : List Char} {kind : Kind} (h : Lexeme chars rest kind) :
    kind.isLayout = false := by
  cases h with
  | word =>
    unfold readWord
    dsimp only
    split <;> rfl
  | _ => rfl

theorem readText_cons (quote : Char) (value : List Char) (cursor : Cursor) (c : Char)
    (rest : List Char) :
    readText quote value cursor (c :: rest) =
      if c = '\n' then none
      else if c = quote then some (String.ofList value.reverse, cursor.advance c, rest)
      else if c = '\\' then
        match rest with
        | [] => none
        | escaped :: rest =>
          readText quote ((unescape escaped).reverse ++ value)
            ((cursor.advance c).advance escaped) rest
      else readText quote (c :: value) (cursor.advance c) rest :=
  readText.eq_def ..

/-- A text that is read stands between its quotes. -/
theorem exists_of_readText {quote : Char} {read rest after : List Char} {cursor last : Cursor}
    {text : String} (h : readText quote read cursor rest = some (text, last, after)) :
    ∃ body value, rest = body ++ quote :: after ∧ TextBody quote body value ∧
      text = String.ofList (read.reverse ++ value) ∧ last = cursor.advanceBy (body ++ [quote]) := by
  fun_induction readText quote read cursor rest with
  | case1 => exact nomatch h
  | case2 => exact nomatch h
  | case3 =>
    obtain ⟨rfl, rfl, rfl⟩ := h
    exact ⟨[], [], rfl, .nil, by rw [List.append_nil], rfl⟩
  | case4 => exact nomatch h
  | case5 read cursor escaped rest _ _ ih =>
    obtain ⟨body, value, rfl, hbody, rfl, rfl⟩ := ih h
    refine ⟨'\\' :: escaped :: body, unescape escaped ++ value, rfl, .escape hbody, ?_, rfl⟩
    rw [List.reverse_append, List.reverse_reverse, List.append_assoc]
  | case6 read cursor c rest hline hquote hslash ih =>
    obtain ⟨body, value, rfl, hbody, rfl, rfl⟩ := ih h
    refine ⟨c :: body, c :: value, rfl, .plain hline hquote hslash hbody, ?_, rfl⟩
    rw [List.reverse_cons, List.append_assoc, List.singleton_append]

/-- A symbol that is read stands at the front. -/
theorem spelling_of_readSymbol {c : Char} {rest : List Char} {sign : Symbol} {width : Nat}
    (h : readSymbol c rest = .ok (sign, width)) :
    (c :: rest).take width = sign.spelling.toList ∧ width = sign.spelling.length := by
  unfold readSymbol at h
  split at h <;> cases h <;> exact ⟨rfl, rfl⟩

/-- The characters behind the next one do not tell which symbol starts with a character. -/
theorem readSymbol_eq (c : Char) (rest : List Char) :
    readSymbol c rest =
      if rest.head? = some '/' then readSymbol c ['/']
      else if rest.head? = some '=' then readSymbol c ['=']
      else readSymbol c [] := by
  cases rest with
  | nil => rfl
  | cons d rest =>
      rw [readSymbol.eq_def c (d :: rest)]
      split <;> simp_all [readSymbol]

/-! ## Scanning one token -/

/-- Consume the characters of a token and add the token. -/
def State.pushLexeme (state : State) (chars rest : List Char) (kind : Kind) : State :=
  { state.consume chars rest with depth := kind.depthAfter state.depth }.push kind state.cursor

/-- What scanning a blank, a comment or one token may make of a state. -/
inductive Scans (state : State) : State → Prop where
  | done (hrest : state.rest = []) : Scans state state
  | blank {c : Char} {rest : List Char} (hrest : state.rest = c :: rest)
      (hblank : isSkipped c = true) : Scans state (state.consume [c] rest)
  | comment {text rest : List Char} (hrest : state.rest = '#' :: text ++ rest)
      (htext : ∀ c ∈ text, c ≠ '\n') (hend : ∀ c ∈ rest.head?, c = '\n') :
      Scans state (state.consume ('#' :: text) rest)
  /-- A line break between parentheses leaves no token. -/
  | joined {rest : List Char} (hrest : state.rest = '\n' :: rest) (hdepth : state.depth ≠ 0) :
      Scans state (state.consume ['\n'] rest)
  | newline {rest : List Char} (hrest : state.rest = '\n' :: rest) (hdepth : state.depth = 0) :
      Scans state
        { (state.consume ['\n'] rest).push .newline state.cursor with atLineStart := true }
  | lexeme {chars rest : List Char} {kind : Kind} (hrest : state.rest = chars ++ rest)
      (hlexeme : Lexeme chars rest kind) : Scans state (state.pushLexeme chars rest kind)

section

variable {state after : State} {c : Char} {rest : List Char}

/-- What starts like a comment is skipped up to the end of its line. -/
theorem skipComment_eq (hrest : state.rest = c :: rest) (hline : c ≠ '\n') :
    state.skipComment =
      state.consume (c :: rest.takeWhile (· != '\n')) (rest.dropWhile (· != '\n')) := by
  have hkeep : (c != '\n') = true := by simpa using hline
  rw [State.skipComment, hrest, List.takeWhile_cons_of_pos (p := (· != '\n')) hkeep,
    List.dropWhile_cons_of_pos (p := (· != '\n')) hkeep]

theorem ne_newline_of_mem_takeWhile {d : Char} (h : d ∈ rest.takeWhile (· != '\n')) : d ≠ '\n' := by
  simpa using of_mem_takeWhile h

theorem eq_newline_of_mem_head? {d : Char} (h : d ∈ (rest.dropWhile (· != '\n')).head?) :
    d = '\n' := by
  simpa using not_of_mem_head?_dropWhile h

/-- A comment reaches up to the end of its line. -/
theorem scans_skipComment (hrest : state.rest = '#' :: rest) : Scans state state.skipComment := by
  rw [skipComment_eq hrest (by decide)]
  refine .comment ?_ (fun _ => ne_newline_of_mem_takeWhile) fun _ => eq_newline_of_mem_head?
  rw [hrest, List.cons_append, List.takeWhile_append_dropWhile]

/-- Word characters at the front are a word, unless the first one is a digit. -/
theorem lexeme_readWord (hfirst : isWordChar c = true) (hdigit : c.isDigit = false) :
    Lexeme (c :: rest.takeWhile isWordChar) (rest.dropWhile isWordChar)
      (readWord (c :: rest.takeWhile isWordChar)) :=
  .word hfirst hdigit (fun _ => of_mem_takeWhile) fun _ => not_of_mem_head?_dropWhile

/-- Word characters at the front are a number if the first one is a digit. -/
theorem lexeme_readInteger {value : Int64} (hdigit : c.isDigit = true)
    (hvalue : readInteger (c :: rest.takeWhile isWordChar) = .ok value) :
    Lexeme (c :: rest.takeWhile isWordChar) (rest.dropWhile isWordChar) (.integer value) :=
  .integer hdigit (fun _ => of_mem_takeWhile) (fun _ => not_of_mem_head?_dropWhile) hvalue

/-- A symbol that is read is a lexeme. -/
theorem lexeme_of_readSymbol {sign : Symbol} {width : Nat}
    (h : readSymbol c rest = .ok (sign, width)) :
    Lexeme ((c :: rest).take width) ((c :: rest).drop width) (.symbol sign) := by
  obtain ⟨htake, rfl⟩ := spelling_of_readSymbol h
  have hsplit := List.take_append_drop sign.spelling.length (c :: rest)
  rw [htake] at hsplit ⊢
  exact .symbol hsplit.symm h

end

/-- A word does not change the number of open parentheses. -/
theorem pushLexeme_readWord (state : State) (word rest : List Char) :
    state.pushLexeme word rest (readWord word) =
      (state.consume word rest).push (readWord word) state.cursor := by
  have hdepth : (readWord word).depthAfter state.depth = state.depth := by
    unfold readWord
    dsimp only
    split <;> rfl
  rw [State.pushLexeme, hdepth]
  rfl

/-- Scanning one token does nothing else. -/
theorem scans_of_scanOne {state after : State} (h : scanOne state = .ok after) :
    Scans state after := by
  obtain ⟨rest, cursor, blocks, depth, atLineStart, tokens⟩ := state
  unfold scanOne at h
  dsimp only at h
  split at h
  next => exact Except.ok.inj h ▸ .done rfl
  next c rest =>
  split at h
  next hblank => exact Except.ok.inj h ▸ .blank rfl hblank
  split at h
  next hcomment =>
    subst hcomment
    exact Except.ok.inj h ▸ scans_skipComment rfl
  split at h
  next hline =>
    subst hline
    obtain rfl := Except.ok.inj h
    split
    next hdepth => exact .newline rfl hdepth
    next hdepth => exact .joined rfl hdepth
  split at h
  next hword =>
    rw [List.takeWhile_cons_of_pos hword, List.dropWhile_cons_of_pos hword] at h
    have hsplit : c :: rest = (c :: rest.takeWhile isWordChar) ++ rest.dropWhile isWordChar := by
      rw [List.cons_append, List.takeWhile_append_dropWhile]
    split at h
    next hdigit =>
      split at h
      next value hvalue =>
        exact Except.ok.inj h ▸ .lexeme hsplit (lexeme_readInteger hdigit hvalue)
      next => exact nomatch h
    next hdigit =>
      have hscan : Scans ⟨c :: rest, cursor, blocks, depth, atLineStart, tokens⟩ _ :=
        .lexeme hsplit (lexeme_readWord hword (Bool.eq_false_iff.mpr hdigit))
      rw [pushLexeme_readWord] at hscan
      exact Except.ok.inj h ▸ hscan
  split at h
  next hquote =>
    split at h
    next text last following hread =>
      obtain ⟨body, value, rfl, hbody, rfl, rfl⟩ := exists_of_readText hread
      have hsplit : c :: (body ++ c :: following) = (c :: body ++ [c]) ++ following := by simp
      exact Except.ok.inj h ▸ .lexeme hsplit (.text (by simpa using hquote) hbody)
    next => exact nomatch h
  next =>
    split at h
    next sign width hread =>
      have hsplit := (List.take_append_drop width (c :: rest)).symm
      exact Except.ok.inj h ▸ .lexeme hsplit (lexeme_of_readSymbol hread)
    next => exact nomatch h

/-- A character that is no blank and starts no comment and no line starts a token. -/
theorem Scans.lexeme_of_first {state after : State} {first : Char} {rest : List Char}
    (h : Scans state after) (hrest : state.rest = first :: rest) (hblank : isSkipped first = false)
    (hcomment : first ≠ '#') (hline : first ≠ '\n') :
    ∃ chars left kind, state.rest = chars ++ left ∧ Lexeme chars left kind ∧
      after = state.pushLexeme chars left kind := by
  cases h with
  | lexeme hsplit hlexeme => exact ⟨_, _, _, hsplit, hlexeme, rfl⟩
  | done hnil => exact absurd (hrest.symm.trans hnil) (List.cons_ne_nil _ _)
  | blank hfirst hskipped =>
    obtain ⟨rfl, -⟩ := List.cons.inj (hrest.symm.trans hfirst)
    rw [hblank] at hskipped
    exact nomatch hskipped
  | comment hfirst => exact absurd (List.cons.inj (hrest.symm.trans hfirst)).1 hcomment
  | joined hfirst => exact absurd (List.cons.inj (hrest.symm.trans hfirst)).1 hline
  | newline hfirst => exact absurd (List.cons.inj (hrest.symm.trans hfirst)).1 hline

/-! ## Measuring a line -/

/-- An empty token at the cursor. -/
def State.emptyToken (state : State) (kind : Kind) : Token :=
  ⟨kind, state.cursor.spanTo state.cursor, state.cursor.line, state.cursor.column⟩

/-- What opening or closing blocks may make of a state. -/
inductive Opens (width : Nat) (start : Cursor) (state : State) : State → Prop where
  | deeper (hwidth : state.indentation < width) :
      Opens width start state
        ({ state with atLineStart := false, blocks := width :: state.blocks }.push .indent start)
  | level {closed blocks : List Nat} (hblocks : state.blocks = closed ++ blocks)
      (hclosed : ∀ block ∈ closed, width < block) (hwidth : blocks.headD 0 = width) :
      Opens width start state
        { state with
          atLineStart := false
          blocks
          tokens := List.replicate closed.length (state.emptyToken .dedent) ++ state.tokens }

/-- Blocks are closed up to the first one that is not indented deeper. -/
theorem closeBlocks_append {width : Nat} (state : State) {closed left : List Nat}
    (hclosed : ∀ block ∈ closed, width < block) (hleft : ∀ block ∈ left.head?, ¬ width < block) :
    closeBlocks width state (closed ++ left) =
      { state with
        blocks := left
        tokens := List.replicate closed.length (state.emptyToken .dedent) ++ state.tokens } := by
  induction closed generalizing state with
  | nil =>
      cases left with
      | nil => rfl
      | cons block left =>
          rw [List.nil_append, closeBlocks, if_neg (hleft block rfl)]
          rfl
  | cons block closed ih =>
      obtain ⟨hdeeper, hclosed⟩ := List.forall_mem_cons.mp hclosed
      rw [List.cons_append, closeBlocks, if_pos hdeeper, ih (state.pushEmpty .dedent) hclosed,
        List.length_cons, List.replicate_succ', List.append_assoc]
      rfl

/-- Blocks are closed from the innermost one on, with a token for each. -/
theorem closeBlocks_eq (width : Nat) (state : State) (blocks : List Nat) :
    ∃ closed left, blocks = closed ++ left ∧ (∀ block ∈ closed, width < block) ∧
      closeBlocks width state blocks =
        { state with
          blocks := left
          tokens := List.replicate closed.length (state.emptyToken .dedent) ++ state.tokens } := by
  have hsplit := List.takeWhile_append_dropWhile (p := (width < ·)) (l := blocks)
  have hclosed : ∀ block ∈ blocks.takeWhile (width < ·), width < block := fun _ hblock =>
    by simpa using of_mem_takeWhile hblock
  have hleft : ∀ block ∈ (blocks.dropWhile (width < ·)).head?, ¬ width < block := fun _ hblock =>
    by simpa using not_of_mem_head?_dropWhile hblock
  refine ⟨_, _, hsplit.symm, hclosed, ?_⟩
  rw [← closeBlocks_append state hclosed hleft, hsplit]

/-- Opening or closing blocks does nothing else. -/
theorem opens_of_openLine {width : Nat} {start : Cursor} {state after : State}
    (h : openLine width start state = .ok after) : Opens width start state after := by
  unfold openLine at h
  dsimp only at h
  split at h
  next hwidth => exact Except.ok.inj h ▸ .deeper hwidth
  next =>
    obtain ⟨closed, left, hblocks, hclosed, hclose⟩ :=
      closeBlocks_eq width { state with atLineStart := false } state.blocks
    rw [hclose] at h
    split at h
    next hwidth => exact Except.ok.inj h ▸ .level hblocks hclosed hwidth
    next => exact nomatch h

/-- The characters of a line without tokens, in front of the rest of the source. -/
inductive BlankLine : (chars rest : List Char) → Prop where
  | last {blanks : List Char} (hblanks : ∀ c ∈ blanks, isIndentation c = true) :
      BlankLine blanks []
  | empty {blanks rest : List Char} (hblanks : ∀ c ∈ blanks, isIndentation c = true) :
      BlankLine (blanks ++ ['\n']) rest
  /-- A comment, or a line that a carriage return hides. -/
  | comment {blanks text rest : List Char} {mark : Char}
      (hblanks : ∀ c ∈ blanks, isIndentation c = true) (hmark : mark = '#' ∨ mark = '\r')
      (htext : ∀ c ∈ text, c ≠ '\n') : BlankLine (blanks ++ mark :: text ++ ['\n']) rest
  | lastComment {blanks text : List Char} {mark : Char}
      (hblanks : ∀ c ∈ blanks, isIndentation c = true) (hmark : mark = '#' ∨ mark = '\r')
      (htext : ∀ c ∈ text, c ≠ '\n') : BlankLine (blanks ++ mark :: text) []

/-- What measuring a line may make of a state. -/
inductive Measures (state : State) : State × Bool → Prop where
  | blank {chars rest : List Char} (hrest : state.rest = chars ++ rest)
      (hblank : BlankLine chars rest) : Measures state (state.consume chars rest, false)
  | line {blanks rest : List Char} {first : Char} {opened : State}
      (hrest : state.rest = blanks ++ first :: rest)
      (hblanks : ∀ c ∈ blanks, isIndentation c = true) (hfirst : isSkipped first = false)
      (hcomment : first ≠ '#') (hline : first ≠ '\n')
      (hopens : Opens (indentationWidth blanks) state.cursor (state.consume blanks (first :: rest))
        opened) :
      Measures state (opened, true)

theorem consume_consume (state : State) (chars more behind rest : List Char) :
    (state.consume chars behind).consume more rest = state.consume (chars ++ more) rest := by
  simp only [State.consume, Cursor.advanceBy_append]

/-- A comment is consumed together with the line break behind it. -/
theorem measures_skipComment {state : State} {blanks rest : List Char} {mark : Char}
    (hrest : state.rest = blanks ++ mark :: rest)
    (hblanks : ∀ c ∈ blanks, isIndentation c = true) (hmark : mark = '#' ∨ mark = '\r') :
    Measures state ((state.consume blanks (mark :: rest)).skipComment.skipOne, false) := by
  have hline : mark ≠ '\n' := by
    obtain rfl | rfl := hmark <;> decide
  have hsplit : state.rest =
      (blanks ++ mark :: rest.takeWhile (· != '\n')) ++ rest.dropWhile (· != '\n') := by
    rw [hrest, List.append_assoc, List.cons_append, List.takeWhile_append_dropWhile]
  have htext : ∀ c ∈ rest.takeWhile (· != '\n'), c ≠ '\n' := fun _ => ne_newline_of_mem_takeWhile
  have hskipped : (state.consume blanks (mark :: rest)).skipComment = _ := skipComment_eq rfl hline
  rw [hskipped, consume_consume]
  cases hleft : rest.dropWhile (· != '\n') with
  | nil =>
    rw [hleft] at hsplit
    exact .blank hsplit (.lastComment hblanks hmark htext)
  | cons c left =>
    have hfirst : c ∈ (rest.dropWhile (· != '\n')).head? := by
      rw [hleft]
      rfl
    obtain rfl : c = '\n' := eq_newline_of_mem_head? hfirst
    rw [hleft] at hsplit
    have hskip : (state.consume (blanks ++ mark :: rest.takeWhile (· != '\n'))
        ('\n' :: left)).skipOne = state.consume _ left := consume_consume ..
    rw [hskip]
    exact .blank (by rw [hsplit, List.append_assoc _ _ left]; rfl) (.comment hblanks hmark htext)

theorem measureLine_of_cons {state : State} {c : Char} {rest : List Char}
    (h : state.rest.dropWhile isIndentation = c :: rest) :
    measureLine state =
      let blanks := state.rest.takeWhile isIndentation
      let indented := state.consume blanks (state.rest.dropWhile isIndentation)
      if c = '\n' then .ok (indented.skipOne, false)
      else if c = '#' ∨ c = '\r' then .ok (indented.skipComment.skipOne, false)
      else (·, true) <$>
        openLine (indentationWidth blanks) state.cursor indented := by
  unfold measureLine
  dsimp only
  rw [h]
  dsimp only [State.consume]
  split
  next heq => exact nomatch heq
  next heq =>
    obtain ⟨rfl, rfl⟩ := List.cons.inj heq
    exact (if_pos rfl).symm
  next heq =>
    obtain ⟨rfl, rfl⟩ := List.cons.inj heq
    rw [if_neg (by decide), if_pos (.inl rfl)]
  next heq =>
    obtain ⟨rfl, rfl⟩ := List.cons.inj heq
    rw [if_neg (by decide), if_pos (.inr rfl)]
  next hline hcomment hreturn =>
    have hbreak : c ≠ '\n' := by
      rintro rfl
      exact hline rest rfl
    have hmark : ¬ (c = '#' ∨ c = '\r') := by
      rintro (rfl | rfl)
      · exact hcomment rest rfl
      · exact hreturn rest rfl
    rw [if_neg hbreak, if_neg hmark]

/-- Measuring a line does nothing else. -/
theorem measures_of_measureLine {state : State} {result : State × Bool}
    (h : measureLine state = .ok result) : Measures state result := by
  unfold measureLine at h
  have hblanks : ∀ c ∈ state.rest.takeWhile isIndentation, isIndentation c = true :=
    fun _ => of_mem_takeWhile
  have hsplit := (List.takeWhile_append_dropWhile (p := isIndentation) (l := state.rest)).symm
  have hfirst : ∀ c ∈ (state.rest.dropWhile isIndentation).head?, isIndentation c = false :=
    fun _ => not_of_mem_head?_dropWhile
  revert h hblanks hsplit hfirst
  generalize state.rest.takeWhile isIndentation = blanks
  generalize state.rest.dropWhile isIndentation = behind
  intro h hblanks hsplit hfirst
  dsimp only at h
  split at h
  next hnil =>
    obtain rfl : behind = [] := hnil
    rw [List.append_nil] at hsplit
    exact Except.ok.inj h ▸ .blank (by rw [hsplit, List.append_nil]) (.last hblanks)
  next rest hline =>
    obtain rfl : behind = '\n' :: rest := hline
    obtain rfl := Except.ok.inj h
    have hskip : (state.consume blanks ('\n' :: rest)).skipOne =
        state.consume (blanks ++ ['\n']) rest := consume_consume ..
    rw [hskip]
    exact .blank (by rw [hsplit, List.append_assoc]; rfl) (.empty hblanks)
  next rest hcomment =>
    obtain rfl : behind = '#' :: rest := hcomment
    exact Except.ok.inj h ▸ measures_skipComment hsplit hblanks (.inl rfl)
  next rest hreturn =>
    obtain rfl : behind = '\r' :: rest := hreturn
    exact Except.ok.inj h ▸ measures_skipComment hsplit hblanks (.inr rfl)
  next hnil hline hcomment hreturn =>
    cases behind with
    | nil => exact (hnil rfl).elim
    | cons first rest =>
    cases hopen : openLine (indentationWidth blanks) state.cursor
        (state.consume blanks (first :: rest)) with
    | error fault =>
      rw [hopen] at h
      exact nomatch h
    | ok opened =>
      rw [hopen] at h
      have hskipped : isSkipped first = false := by
        have hreturn : first ≠ '\r' := fun hfirst => hreturn rest (hfirst ▸ rfl)
        rw [isSkipped, hfirst first rfl, Bool.false_or, beq_eq_false_iff_ne]
        exact hreturn
      exact Except.ok.inj h ▸ .line hsplit hblanks hskipped
        (fun hfirst => hcomment rest (hfirst ▸ rfl)) (fun hfirst => hline rest (hfirst ▸ rfl))
        (opens_of_openLine hopen)

/-! ## Rounds -/

/-- What one round of the scanner may make of a state. -/
inductive Round (state : State) : State → Prop where
  /-- Within a line, or between parentheses. -/
  | within {after : State} (hplace : ¬ (state.atLineStart = true ∧ state.depth = 0))
      (hscan : Scans state after) : Round state after
  | blankLine {chars rest : List Char} (hstart : state.atLineStart = true)
      (hdepth : state.depth = 0) (hrest : state.rest = chars ++ rest)
      (hblank : BlankLine chars rest) : Round state (state.consume chars rest)
  /-- The indentation of a line and its first token. -/
  | line {blanks behind chars rest : List Char} {opened : State} {kind : Kind}
      (hstart : state.atLineStart = true) (hdepth : state.depth = 0)
      (hrest : state.rest = blanks ++ behind) (hblanks : ∀ c ∈ blanks, isIndentation c = true)
      (hopens : Opens (indentationWidth blanks) state.cursor (state.consume blanks behind) opened)
      (hbehind : behind = chars ++ rest) (hlexeme : Lexeme chars rest kind) :
      Round state (opened.pushLexeme chars rest kind)

theorem Opens.rest_eq {width : Nat} {start : Cursor} {state after : State}
    (h : Opens width start state after) : after.rest = state.rest := by
  cases h <;> rfl

theorem Opens.atLineStart_eq {width : Nat} {start : Cursor} {state after : State}
    (h : Opens width start state after) : after.atLineStart = false := by
  cases h <;> rfl

/-- One round does nothing else. -/
theorem round_of_step {state after : State} (h : step state = .ok after) : Round state after := by
  unfold step at h
  split at h
  next hplace =>
    simp only [Bool.and_eq_true, beq_iff_eq] at hplace
    obtain ⟨hstart, hdepth⟩ := hplace
    cases hmeasure : measureLine state with
    | error fault =>
      rw [hmeasure] at h
      exact nomatch h
    | ok result =>
    rw [hmeasure] at h
    cases measures_of_measureLine hmeasure with
    | blank hrest hblank => exact Except.ok.inj h ▸ .blankLine hstart hdepth hrest hblank
    | line hrest hblanks hfirst hcomment hline hopens =>
      obtain ⟨chars, left, kind, hsplit, hlexeme, rfl⟩ :=
        (scans_of_scanOne h).lexeme_of_first hopens.rest_eq hfirst hcomment hline
      rw [hopens.rest_eq] at hsplit
      exact .line hstart hdepth hrest hblanks hopens hsplit hlexeme
  next hplace =>
    simp only [Bool.and_eq_true, beq_iff_eq] at hplace
    exact .within hplace (scans_of_scanOne h)

/-! ## Progress -/

/-- What is scanned is consumed, and it is something unless nothing is left. -/
theorem Scans.consumes {state after : State} (h : Scans state after) :
    ∃ chars, state.rest = chars ++ after.rest ∧ after.cursor = state.cursor.advanceBy chars ∧
      (state.rest ≠ [] → chars ≠ []) := by
  cases h with
  | done hrest => exact ⟨[], rfl, rfl, fun hleft => absurd hrest hleft⟩
  | blank hrest => exact ⟨[_], hrest, rfl, fun _ => List.cons_ne_nil _ _⟩
  | comment hrest => exact ⟨_, hrest, rfl, fun _ => List.cons_ne_nil _ _⟩
  | joined hrest => exact ⟨_, hrest, rfl, fun _ => List.cons_ne_nil _ _⟩
  | newline hrest => exact ⟨_, hrest, rfl, fun _ => List.cons_ne_nil _ _⟩
  | lexeme hrest hlexeme => exact ⟨_, hrest, rfl, fun _ => hlexeme.ne_nil⟩

theorem Opens.cursor_eq {width : Nat} {start : Cursor} {state after : State}
    (h : Opens width start state after) : after.cursor = state.cursor := by
  cases h <;> rfl

/-- A round consumes some characters, unless nothing is left. -/
theorem Round.consumes {state after : State} (h : Round state after) :
    ∃ chars, state.rest = chars ++ after.rest ∧ after.cursor = state.cursor.advanceBy chars ∧
      (state.rest ≠ [] → chars ≠ []) := by
  cases h with
  | within _ hscan => exact hscan.consumes
  | @blankLine chars rest _ _ hrest hblank =>
    refine ⟨chars, hrest, rfl, fun hleft hnil => ?_⟩
    cases hblank with
    | last => exact hleft (by rw [hrest, hnil]; rfl)
    | _ => simp at hnil
  | @line blanks behind chars rest opened kind _ _ hrest _ hopens hbehind hlexeme =>
    have hne : blanks ++ chars ≠ [] := List.append_ne_nil_of_right_ne_nil _ hlexeme.ne_nil
    refine ⟨blanks ++ chars, ?_, ?_, fun _ => hne⟩
    · rw [hrest, hbehind, List.append_assoc]
      rfl
    · have hcursor : opened.cursor = state.cursor.advanceBy blanks := hopens.cursor_eq
      rw [Cursor.advanceBy_append, ← hcursor]
      rfl

/-- A round leaves fewer characters, unless nothing is left. -/
theorem length_lt_of_step {state after : State} (h : step state = .ok after)
    (hrest : state.rest ≠ []) : after.rest.length < state.rest.length := by
  obtain ⟨chars, hchars, -, hne⟩ := (round_of_step h).consumes
  have hpos := List.length_pos_iff.mpr (hne hrest)
  rw [hchars, List.length_append]
  omega

/-! ## Whole sources -/

/-- The rounds of the scanner lead from a state to another one. -/
inductive Reaches : State → State → Prop where
  | refl (state : State) : Reaches state state
  | step {state following last : State} (hrest : state.rest ≠ [])
      (hstep : Lexer.step state = .ok following) (h : Reaches following last) : Reaches state last

theorem Reaches.trans {state following last : State} (h : Reaches state following)
    (h' : Reaches following last) : Reaches state last := by
  induction h with
  | refl => exact h'
  | step hrest hstep _ ih => exact .step hrest hstep (ih h')

/-- What the rounds consume is in front of what is left, and the cursor stands between them. -/
theorem Reaches.consumes {state last : State} (h : Reaches state last) :
    ∃ chars, state.rest = chars ++ last.rest ∧ last.cursor = state.cursor.advanceBy chars := by
  induction h with
  | refl => exact ⟨[], rfl, rfl⟩
  | step _ hstep _ ih =>
    obtain ⟨chars, hrest, hcursor, -⟩ := (round_of_step hstep).consumes
    obtain ⟨more, hmore, hlast⟩ := ih
    refine ⟨chars ++ more, ?_, ?_⟩
    · rw [hrest, hmore, List.append_assoc]
    · rw [hlast, hcursor, Cursor.advanceBy_append]

/-- No token is taken back. -/
theorem Round.mem_tokens {state after : State} (h : Round state after) {token : Token}
    (htoken : token ∈ state.tokens) : token ∈ after.tokens := by
  have hpush (opened : State) (chars rest : List Char) (kind : Kind)
      (hopened : token ∈ opened.tokens) : token ∈ (opened.pushLexeme chars rest kind).tokens :=
    List.mem_cons_of_mem _ hopened
  cases h with
  | blankLine => exact htoken
  | within _ hscan =>
      cases hscan with
      | done | blank | comment | joined => exact htoken
      | newline => exact List.mem_cons_of_mem _ htoken
      | lexeme => exact hpush _ _ _ _ htoken
  | line _ _ _ _ hopens =>
      refine hpush _ _ _ _ ?_
      cases hopens with
      | deeper => exact List.mem_cons_of_mem _ htoken
      | level => exact List.mem_append_right _ htoken

theorem Reaches.mem_tokens {state last : State} (h : Reaches state last) {token : Token}
    (htoken : token ∈ state.tokens) : token ∈ last.tokens := by
  induction h with
  | refl => exact htoken
  | step _ hstep _ ih => exact ih ((round_of_step hstep).mem_tokens htoken)

/-- The tokens that close the last line and all blocks. -/
def State.closing (state : State) : List Token :=
  (if state.atLineStart then [] else [state.emptyToken .newline]) ++
    (List.replicate state.blocks.length (state.emptyToken .dedent) ++ [state.emptyToken .endOfFile])

/-- At the end the last line and all blocks are closed. -/
theorem finish_eq (state : State) : finish state = state.tokens.reverse ++ state.closing := by
  have hdedents (opened : State) (blocks : List Nat) :
      blocks.foldl (fun state _ => state.pushEmpty .dedent) opened =
        { opened with
          tokens :=
            List.replicate blocks.length (opened.emptyToken .dedent) ++ opened.tokens } := by
    induction blocks generalizing opened with
    | nil => rfl
    | cons block blocks ih =>
      rw [List.foldl_cons, ih, List.length_cons, List.replicate_succ', List.append_assoc]
      rfl
  unfold finish State.closing
  dsimp only
  rw [hdedents]
  split <;>
    simp [State.pushEmpty, State.push, State.emptyToken]

/-- A run that has enough rounds leads to the end of the source. -/
theorem exists_of_run {rounds : Nat} {state : State} {tokens : List Token}
    (h : run rounds state = .ok tokens) (hrounds : state.rest.length ≤ rounds) :
    ∃ last, Reaches state last ∧ last.rest = [] ∧ tokens = finish last := by
  induction rounds generalizing state with
  | zero =>
    exact ⟨state, .refl state, List.length_eq_zero_iff.mp (Nat.le_zero.mp hrounds),
      (Except.ok.inj h).symm⟩
  | succ rounds ih =>
    rw [run] at h
    split at h
    next hempty => exact ⟨state, .refl state, List.isEmpty_iff.mp hempty, (Except.ok.inj h).symm⟩
    next hsome =>
    have hrest : state.rest ≠ [] := fun hnil => hsome (List.isEmpty_iff.mpr hnil)
    split at h
    next following hstep =>
      have hfewer := length_lt_of_step hstep hrest
      obtain ⟨last, hreach, hlast, htokens⟩ := ih h (by omega)
      exact ⟨last, .step hrest hstep hreach, hlast, htokens⟩
    next => exact nomatch h

end Lexer

/-- The state of the scanner at the start of a source. -/
def Lexer.initial (source : String) : Lexer.State :=
  { rest := source.toList }

/-- The tokens of a source are those of the rounds that lead to its end, and the tokens that close
what is open there. -/
theorem exists_of_lex {source : String} {tokens : List Token} (h : lex source = .ok tokens) :
    ∃ last, Lexer.Reaches (Lexer.initial source) last ∧ last.rest = [] ∧
      last.cursor.offset = source.utf8ByteSize ∧ tokens = last.tokens.reverse ++ last.closing := by
  have hrun : Lexer.run source.toList.length (Lexer.initial source) = .ok tokens := h
  obtain ⟨last, hreach, hrest, rfl⟩ := Lexer.exists_of_run hrun (Nat.le_refl _)
  obtain ⟨chars, hchars, hcursor⟩ := hreach.consumes
  rw [hrest, List.append_nil] at hchars
  refine ⟨last, hreach, hrest, ?_, Lexer.finish_eq last⟩
  have hall : chars = source.toList := hchars.symm
  rw [hcursor, Cursor.offset_advanceBy, hall, byteLength_toList]
  exact Nat.zero_add _

end FrozenScript
