import FrozenScript.Proofs.Token.Round

/-!
# Lexemes are scanned

`Round` says what the rounds of the scanner can do at most. Here it is said what they do at least:
what `Lexeme` calls a token in front of the rest of the source is scanned as that token
(`scanOne_lexeme`). The main statement, `lex_spaced`, says that lexemes with a blank between any two
of them are scanned to their kinds.

`tokensFrom` is what the scanner makes of a state. It goes on from one round to the next, and no
number of rounds has to be known for it.
-/

namespace FrozenScript

open Text

namespace Lexer

/-! ## Runs without a number of rounds -/

/-- The tokens that the scanner comes to from a state. -/
def tokensFrom (state : State) : Except LexError (List Token) :=
  run state.rest.length state

theorem run_of_rest_eq_nil {state : State} (h : state.rest = []) (rounds : Nat) :
    run rounds state = .ok (finish state) := by
  cases rounds with
  | zero => rfl
  | succ rounds => simp [run, h]

/-- The scanner does not use more rounds than there are characters. -/
theorem run_eq_run {rounds rounds' : Nat} {state : State} (h : state.rest.length ≤ rounds)
    (h' : state.rest.length ≤ rounds') : run rounds state = run rounds' state := by
  induction rounds generalizing rounds' state with
  | zero =>
      have hnil : state.rest = [] := List.length_eq_zero_iff.mp (Nat.le_zero.mp h)
      rw [run_of_rest_eq_nil hnil, run_of_rest_eq_nil hnil]
  | succ rounds ih =>
      by_cases hrest : state.rest = []
      · rw [run_of_rest_eq_nil hrest, run_of_rest_eq_nil hrest]
      have hpos := List.length_pos_iff.mpr hrest
      obtain ⟨rounds', rfl⟩ : ∃ n, rounds' = n + 1 := ⟨rounds' - 1, by omega⟩
      have hempty : state.rest.isEmpty = false := by simpa using hrest
      simp only [run, hempty, Bool.false_eq_true, if_false]
      cases hstep : step state with
      | error error => rfl
      | ok following =>
          have hfewer := length_lt_of_step hstep hrest
          exact ih (by omega) (by omega)

section

variable {state following last : State}

theorem tokensFrom_of_nil (h : state.rest = []) : tokensFrom state = .ok (finish state) :=
  run_of_rest_eq_nil h _

/-- The scanner goes on with what a round makes of a state. -/
theorem tokensFrom_of_ok (hrest : state.rest ≠ []) (hstep : step state = .ok following) :
    tokensFrom state = tokensFrom following := by
  have hfewer := length_lt_of_step hstep hrest
  have hempty : state.rest.isEmpty = false := by simpa using hrest
  have hrounds : state.rest.length = state.rest.length - 1 + 1 := by omega
  unfold tokensFrom
  rw [hrounds]
  simp only [run, hempty, Bool.false_eq_true, if_false, hstep]
  exact run_eq_run (by omega) (Nat.le_refl _)

/-- The scanner stops at a fault. -/
theorem tokensFrom_of_error {error : LexError} (hrest : state.rest ≠ [])
    (hstep : step state = .error error) : tokensFrom state = .error error := by
  have hpos := List.length_pos_iff.mpr hrest
  have hempty : state.rest.isEmpty = false := by simpa using hrest
  have hrounds : state.rest.length = state.rest.length - 1 + 1 := by omega
  unfold tokensFrom
  rw [hrounds]
  simp only [run, hempty, Bool.false_eq_true, if_false, hstep]

/-- Rounds do not change what the scanner comes to. -/
theorem Reaches.tokensFrom_eq (h : Reaches state last) : tokensFrom state = tokensFrom last := by
  induction h with
  | refl => rfl
  | step hrest hstep _ ih => rw [tokensFrom_of_ok hrest hstep, ih]

end

theorem mem_of_tokensFrom {state : State} {tokens : List Token}
    (h : tokensFrom state = .ok tokens) {token : Token} (htoken : token ∈ state.tokens) :
    token ∈ tokens := by
  obtain ⟨last, hreach, -, rfl⟩ := exists_of_run h (Nat.le_refl _)
  rw [finish_eq, List.mem_append, List.mem_reverse]
  exact .inl (hreach.mem_tokens htoken)

/-! ## Scanning one token -/

theorem takeWhile_append_of_head {p : Char → Bool} {chars rest : List Char}
    (hchars : ∀ c ∈ chars, p c = true) (hrest : ∀ c ∈ rest.head?, p c = false) :
    (chars ++ rest).takeWhile p = chars ∧ (chars ++ rest).dropWhile p = rest := by
  rw [List.takeWhile_append_of_pos hchars, List.dropWhile_append_of_pos hchars]
  cases rest with
  | nil => simp
  | cons c rest =>
      have hfirst : p c = false := hrest c rfl
      simp [hfirst]

/-- A character that starts a token is no blank, and it starts no comment and no line. -/
def StartsToken (c : Char) : Prop :=
  isSkipped c = false ∧ c ≠ '#' ∧ c ≠ '\n'

theorem startsToken_of_isWordChar {c : Char} (h : isWordChar c = true) : StartsToken c := by
  refine ⟨Bool.eq_false_iff.mpr fun hskipped => ?_, ?_, ?_⟩
  · rcases isSkipped_iff.mp hskipped with rfl | rfl | rfl | rfl <;> exact absurd h (by decide)
  · rintro rfl
    exact absurd h (by decide)
  · rintro rfl
    exact absurd h (by decide)

theorem isWordChar_of_isDigit {c : Char} (h : c.isDigit = true) : isWordChar c = true := by
  simp [isWordChar, Char.isAlphanum, h]

/-- The first character of a symbol belongs to no other token. -/
theorem exists_spelling_eq_cons (sign : Symbol) :
    ∃ first behind, sign.spelling.toList = first :: behind ∧ StartsToken first ∧
      isWordChar first = false ∧ ¬ (first = '\'' ∨ first = '"') := by
  cases sign <;> exact ⟨_, _, rfl, ⟨by decide, by decide, by decide⟩, by decide, by decide⟩

theorem Lexeme.exists_eq_cons {chars rest : List Char} {kind : Kind}
    (h : Lexeme chars rest kind) : ∃ first behind, chars = first :: behind ∧ StartsToken first := by
  cases h with
  | integer hdigit =>
      exact ⟨_, _, rfl, startsToken_of_isWordChar (isWordChar_of_isDigit hdigit)⟩
  | word hfirst => exact ⟨_, _, rfl, startsToken_of_isWordChar hfirst⟩
  | text hquote =>
      refine ⟨_, _, rfl, ?_⟩
      rcases hquote with rfl | rfl <;> exact ⟨by decide, by decide, by decide⟩
  | @symbol c behind rest sign =>
      obtain ⟨first, behind, hspelling, hfirst, -⟩ := exists_spelling_eq_cons sign
      exact ⟨first, behind, hspelling, hfirst⟩

/-- What stands between quotes is read as what it stands for. -/
theorem TextBody.readText_eq {quote : Char} {body value : List Char} (h : TextBody quote body value)
    (hslash : quote ≠ '\\') (hline : quote ≠ '\n') (read : List Char) (cursor : Cursor)
    (after : List Char) :
    readText quote read cursor (body ++ quote :: after) =
      some (String.ofList (read.reverse ++ value), cursor.advanceBy (body ++ [quote]), after) := by
  induction h generalizing read cursor with
  | nil =>
      rw [List.nil_append, readText_cons, if_neg hline, if_pos rfl, List.append_nil]
      rfl
  | @plain c body value hplain hquote hescape _ ih =>
      rw [List.cons_append, readText_cons, if_neg hplain, if_neg hquote, if_neg hescape, ih,
        List.reverse_cons, List.append_assoc]
      rfl
  | @escape c body value _ ih =>
      rw [List.cons_append, List.cons_append, readText_cons, if_neg (by decide),
        if_neg hslash.symm, if_pos rfl]
      dsimp only
      rw [ih, List.reverse_append, List.reverse_reverse, List.append_assoc]
      rfl

theorem skipOne_of_nil {state : State} (h : state.rest = []) : state.skipOne = state := by
  rw [State.skipOne, h]

theorem skipOne_of_cons {state : State} {c : Char} {rest : List Char} (h : state.rest = c :: rest) :
    state.skipOne = state.consume [c] rest := by
  rw [State.skipOne, h]

section

variable {state : State} {rest : List Char}

theorem scanOne_nil (h : state.rest = []) : scanOne state = .ok state := by
  simp only [scanOne, h]

theorem scanOne_blank {c : Char} (h : state.rest = c :: rest) (hblank : isSkipped c = true) :
    scanOne state = .ok (state.consume [c] rest) := by
  simp only [scanOne, h, hblank, if_true, skipOne_of_cons h]

theorem scanOne_comment (h : state.rest = '#' :: rest) :
    scanOne state = .ok state.skipComment := by
  have hblank : isSkipped '#' = false := rfl
  simp only [scanOne, h, hblank, Bool.false_eq_true, if_false, if_true]

theorem scanOne_newline (h : state.rest = '\n' :: rest) :
    scanOne state = .ok (if state.depth = 0 then
      { (state.consume ['\n'] rest).push .newline state.cursor with atLineStart := true }
    else state.consume ['\n'] rest) := by
  have hblank : isSkipped '\n' = false := rfl
  have hcomment : '\n' ≠ '#' := by decide
  simp only [scanOne, h, hblank, Bool.false_eq_true, if_false, hcomment, if_true, skipOne_of_cons h]

end

/-- A token in front of the rest of the source is scanned. -/
theorem scanOne_lexeme {state : State} {chars rest : List Char} {kind : Kind}
    (h : Lexeme chars rest kind) (hrest : state.rest = chars ++ rest) :
    scanOne state = .ok (state.pushLexeme chars rest kind) := by
  obtain ⟨first, behind, hchars, hskipped, hcomment, hline⟩ := h.exists_eq_cons
  have hfront : state.rest = first :: (behind ++ rest) := by rw [hrest, hchars, List.cons_append]
  unfold scanOne
  simp only [hfront, hskipped, hcomment, hline, Bool.false_eq_true, if_false]
  rw [← List.cons_append, ← hchars]
  cases h with
  | @integer digit word rest value hdigit hword hend hvalue =>
      obtain ⟨rfl, rfl⟩ := List.cons.inj hchars
      have hfirst := isWordChar_of_isDigit hdigit
      obtain ⟨htake, hdrop⟩ :=
        takeWhile_append_of_head (List.forall_mem_cons.mpr ⟨hfirst, hword⟩) hend
      simp only [hfirst, hdigit, if_true, htake, hdrop, hvalue]
      rfl
  | @word letter word rest hfirst hdigit hword hend =>
      obtain ⟨rfl, rfl⟩ := List.cons.inj hchars
      obtain ⟨htake, hdrop⟩ :=
        takeWhile_append_of_head (List.forall_mem_cons.mpr ⟨hfirst, hword⟩) hend
      simp only [hfirst, hdigit, if_true, Bool.false_eq_true, if_false, htake, hdrop,
        pushLexeme_readWord]
  | @text quote body value rest hquote hbody =>
      obtain ⟨rfl, rfl⟩ := List.cons.inj hchars
      have hword : isWordChar quote = false := by rcases hquote with rfl | rfl <;> decide
      have hslash : quote ≠ '\\' := by rcases hquote with rfl | rfl <;> decide
      have hread := hbody.readText_eq hslash hline [] (state.cursor.advance quote) rest
      simp only [hword, Bool.false_eq_true, if_false, hquote, Bool.or_eq_true,
        decide_eq_true_eq, if_true]
      rw [List.append_eq, List.append_assoc, List.singleton_append, hread]
      rfl
  | @symbol c tail rest sign hsplit hread =>
      obtain ⟨letter, more, hspelling, -, hword, hquote⟩ := exists_spelling_eq_cons sign
      obtain ⟨rfl, rfl⟩ := List.cons.inj (hspelling.symm.trans hchars)
      rw [hspelling] at hsplit
      obtain ⟨rfl, rfl⟩ := List.cons.inj hsplit
      rw [List.append_eq] at hread
      simp only [hword, Bool.false_eq_true, if_false, Bool.or_eq_true, decide_eq_true_eq, hquote]
      rw [hread, ← String.length_toList]
      dsimp only
      rw [List.take_left, List.drop_left]
      rfl

/-- What starts a token is scanned as a token, or there is a fault. -/
theorem scanOne_startsToken {state : State} {c : Char} {rest : List Char}
    (hrest : state.rest = c :: rest) (hc : StartsToken c) :
    (∃ chars left kind, state.rest = chars ++ left ∧ Lexeme chars left kind ∧
      scanOne state = .ok (state.pushLexeme chars left kind)) ∨
    ∃ error, scanOne state = .error error := by
  cases hscan : scanOne state with
  | error error => exact .inr ⟨error, rfl⟩
  | ok after =>
      obtain ⟨hblank, hcomment, hline⟩ := hc
      obtain ⟨chars, left, kind, hsplit, hlexeme, rfl⟩ :=
        (scans_of_scanOne hscan).lexeme_of_first hrest hblank hcomment hline
      exact .inl ⟨chars, left, kind, hsplit, hlexeme, rfl⟩

/-- Within a line a round scans one token. -/
theorem step_of_within {state : State} (h : state.atLineStart = false) :
    step state = scanOne state := by
  simp [step, h]

theorem step_lexeme {state : State} {chars rest : List Char} {kind : Kind}
    (h : Lexeme chars rest kind) (hwithin : state.atLineStart = false)
    (hrest : state.rest = chars ++ rest) :
    step state = .ok (state.pushLexeme chars rest kind) := by
  rw [step_of_within hwithin, scanOne_lexeme h hrest]

theorem isIndentation_of_startsToken {c : Char} (h : StartsToken c) : isIndentation c = false := by
  have hskipped := h.1
  rw [isSkipped, Bool.or_eq_false_iff] at hskipped
  exact hskipped.1

/-- A line without a token is consumed with its line break. -/
theorem measureLine_blank {state : State}
    (h : ∀ c ∈ (state.rest.dropWhile isIndentation).head?, ¬ StartsToken c) :
    measureLine state =
      .ok ((state.consume (state.rest.takeWhile isIndentation)
        (state.rest.dropWhile isIndentation)).skipComment.skipOne, false) := by
  cases hrest : state.rest.dropWhile isIndentation with
  | nil =>
      unfold measureLine
      dsimp only [State.consume]
      rw [hrest]
      rfl
  | cons c rest =>
      have hindent : isIndentation c = false := not_of_mem_head?_dropWhile (by rw [hrest]; rfl)
      have hfirst : ¬ StartsToken c := h c (by rw [hrest]; rfl)
      rw [measureLine_of_cons hrest, hrest]
      dsimp only
      by_cases hline : c = '\n'
      · subst hline
        rw [if_pos rfl]
        rfl
      · have hmark : c = '#' ∨ c = '\r' := by
          refine Decidable.byContradiction fun hmark => hfirst ?_
          rw [not_or] at hmark
          exact ⟨by simp [isSkipped, hindent, hmark.2], hmark.1, hline⟩
        rw [if_neg hline, if_pos hmark]

/-- A line with a token is opened. -/
theorem measureLine_token {state : State} {c : Char} {rest : List Char}
    (h : state.rest.dropWhile isIndentation = c :: rest) (hc : StartsToken c) :
    measureLine state = (·, true) <$>
      openLine (indentationWidth (state.rest.takeWhile isIndentation)) state.cursor
        (state.consume (state.rest.takeWhile isIndentation) (c :: rest)) := by
  have hmark : ¬ (c = '#' ∨ c = '\r') := by
    rintro (rfl | rfl)
    · exact hc.2.1 rfl
    · exact absurd hc.1 (by decide)
  rw [measureLine_of_cons h, h]
  dsimp only
  rw [if_neg hc.2.2, if_neg hmark]

/-- What stands in front of the line break is skipped. -/
theorem skipComment_of_line {state : State} {text rest : List Char}
    (hrest : state.rest = text ++ rest) (htext : ∀ c ∈ text, c ≠ '\n')
    (hend : ∀ c ∈ rest.head?, c = '\n') : state.skipComment = state.consume text rest := by
  have hkeep : ∀ c ∈ text, (c != '\n') = true := fun c hc => by simpa using htext c hc
  have hstop : ∀ c ∈ rest.head?, (c != '\n') = false := fun c hc => by simpa using hend c hc
  obtain ⟨htake, hdrop⟩ := takeWhile_append_of_head hkeep hstop
  rw [State.skipComment, hrest, htake, hdrop]

/-- What scanning may make of a state is what it makes of it. -/
theorem scanOne_of_scans {state after : State} (h : Scans state after) :
    scanOne state = .ok after := by
  cases h with
  | done hrest => exact scanOne_nil hrest
  | blank hrest hblank => exact scanOne_blank hrest hblank
  | @comment text rest hrest htext hend =>
      have hmarked : ∀ c ∈ '#' :: text, c ≠ '\n' := List.forall_mem_cons.mpr ⟨by decide, htext⟩
      rw [scanOne_comment hrest, skipComment_of_line hrest hmarked hend]
  | joined hrest hdepth => rw [scanOne_newline hrest, if_neg hdepth]
  | newline hrest hdepth => rw [scanOne_newline hrest, if_pos hdepth]
  | lexeme hrest hlexeme => exact scanOne_lexeme hlexeme hrest

/-- A line is consumed up to its line break if a mark hides what it holds. -/
theorem measureLine_hidden {state : State} {blanks : List Char} (text rest : List Char)
    (hrest : state.rest = blanks ++ (text ++ rest)) (hblanks : ∀ c ∈ blanks, isIndentation c = true)
    (hmark : ∀ c ∈ text.head?, c = '#' ∨ c = '\r') (htext : ∀ c ∈ text, c ≠ '\n')
    (hend : ∀ c ∈ rest.head?, c = '\n') :
    measureLine state = .ok ((state.consume (blanks ++ text) rest).skipOne, false) := by
  have hfirst : ∀ c ∈ (text ++ rest).head?, c = '#' ∨ c = '\r' ∨ c = '\n' := by
    cases text with
    | nil => exact fun c hc => .inr (.inr (hend c hc))
    | cons mark text =>
        intro c hc
        rcases hmark c hc with rfl | rfl
        · exact .inl rfl
        · exact .inr (.inl rfl)
  have hlast : ∀ c ∈ (text ++ rest).head?, isIndentation c = false := by
    intro c hc
    rcases hfirst c hc with rfl | rfl | rfl <;> rfl
  have hnone : ∀ c ∈ (text ++ rest).head?, ¬ StartsToken c := by
    rintro c hc ⟨hskipped, hcomment, hline⟩
    rcases hfirst c hc with rfl | rfl | rfl
    · exact hcomment rfl
    · exact absurd hskipped (by decide)
    · exact hline rfl
  obtain ⟨htake, hdrop⟩ := takeWhile_append_of_head hblanks hlast
  rw [← hrest] at htake hdrop
  rw [measureLine_blank (by rwa [hdrop]), htake, hdrop]
  have hskip : (state.consume blanks (text ++ rest)).skipComment =
      (state.consume blanks (text ++ rest)).consume text rest := skipComment_of_line rfl htext hend
  rw [hskip, consume_consume]

theorem measureLine_of_blankLine {state : State} {chars rest : List Char}
    (h : BlankLine chars rest) (hrest : state.rest = chars ++ rest) :
    measureLine state = .ok (state.consume chars rest, false) := by
  have hskip (chars rest : List Char) :
      (state.consume chars ('\n' :: rest)).skipOne = state.consume (chars ++ ['\n']) rest := by
    rw [skipOne_of_cons rfl, consume_consume]
  have hbreak (rest : List Char) : ∀ c ∈ ('\n' :: rest).head?, c = '\n' := fun _ hc =>
    (Option.some.inj hc).symm
  have hmarked {blanks text rest : List Char} {mark : Char}
      (hrest : state.rest = blanks ++ (mark :: text ++ rest))
      (hblanks : ∀ c ∈ blanks, isIndentation c = true) (hmark : mark = '#' ∨ mark = '\r')
      (htext : ∀ c ∈ text, c ≠ '\n') (hend : ∀ c ∈ rest.head?, c = '\n') :
      measureLine state = .ok ((state.consume (blanks ++ mark :: text) rest).skipOne, false) := by
    have hline : mark ≠ '\n' := by rcases hmark with rfl | rfl <;> decide
    exact measureLine_hidden (mark :: text) rest hrest hblanks (by simpa using hmark)
      (List.forall_mem_cons.mpr ⟨hline, htext⟩) hend
  cases h with
  | last hblanks =>
      have hmeasure := measureLine_hidden [] [] hrest hblanks (by simp) (by simp) (by simp)
      rwa [List.append_nil, skipOne_of_nil rfl] at hmeasure
  | empty hblanks =>
      rw [List.append_assoc] at hrest
      have hmeasure :=
        measureLine_hidden [] ('\n' :: rest) hrest hblanks (by simp) (by simp) (hbreak rest)
      rwa [List.append_nil, hskip] at hmeasure
  | comment hblanks hmark htext =>
      simp only [List.append_assoc, List.singleton_append] at hrest
      rw [hmarked hrest hblanks hmark htext (hbreak rest), hskip]
  | lastComment hblanks hmark htext =>
      rw [List.append_assoc] at hrest
      rw [hmarked hrest hblanks hmark htext (by simp), skipOne_of_nil rfl]

theorem openLine_of_opens {width : Nat} {start : Cursor} {state after : State}
    (h : Opens width start state after) : openLine width start state = .ok after := by
  unfold openLine
  cases h with
  | deeper hwidth => exact if_pos hwidth
  | @level closed blocks hblocks hclosed hwidth =>
      have hdeepest : ¬ state.indentation < width := by
        rw [State.indentation, hblocks]
        cases closed with
        | nil => exact Nat.not_lt.mpr (Nat.le_of_eq hwidth.symm)
        | cons block closed => exact Nat.not_lt_of_gt (hclosed block List.mem_cons_self)
      have hleft : ∀ block ∈ blocks.head?, ¬ width < block := by
        intro block hblock
        have hhead : blocks.headD 0 = block := by rw [List.headD_eq_head?_getD, hblock]; rfl
        omega
      have hclose := closeBlocks_append { state with atLineStart := false } hclosed hleft
      rw [← hblocks] at hclose
      exact (if_neg hdeepest).trans (by rw [hclose]; exact if_pos hwidth)

/-- The ways in which a round may succeed are ways in which it does. -/
theorem step_of_round {state after : State} (h : Round state after) : step state = .ok after := by
  unfold step
  cases h with
  | within hplace hscan => rw [if_neg (by simpa using hplace), scanOne_of_scans hscan]
  | blankLine hstart hdepth hrest hblank =>
      rw [if_pos (by simp [hstart, hdepth]), measureLine_of_blankLine hblank hrest]
      rfl
  | @line blanks behind chars rest opened kind hstart hdepth hrest hblanks hopens hbehind hlexeme =>
      obtain ⟨first, more, rfl, hfirst⟩ := hlexeme.exists_eq_cons
      have hfront : behind = first :: (more ++ rest) := hbehind
      have hend : ∀ c ∈ behind.head?, isIndentation c = false := by
        intro c hc
        rw [hfront] at hc
        obtain rfl := Option.some.inj hc
        exact isIndentation_of_startsToken hfirst
      obtain ⟨htake, hdrop⟩ := takeWhile_append_of_head hblanks hend
      rw [← hrest] at htake hdrop
      rw [if_pos (by simp [hstart, hdepth]), measureLine_token (hdrop.trans hfront) hfirst, htake,
        ← hfront, openLine_of_opens hopens]
      exact scanOne_lexeme hlexeme (hopens.rest_eq.trans hbehind)

/-- A token at the start of a source is the first one of its line. -/
theorem step_first_lexeme (state : State) {chars rest : List Char} {kind : Kind}
    (h : Lexeme chars rest kind) (hstart : state.atLineStart = true) (hdepth : state.depth = 0)
    (hblocks : state.blocks = []) (hrest : state.rest = chars ++ rest) :
    step state = .ok ({ state with atLineStart := false }.pushLexeme chars rest kind) := by
  obtain ⟨behind, cursor, blocks, depth, atLineStart, tokens⟩ := state
  obtain rfl : blocks = [] := hblocks
  have hunindented : behind = [] ++ behind := rfl
  have hblanks : ∀ c ∈ [], isIndentation c = true := nofun
  have hclosed : ∀ block ∈ [], indentationWidth [] < block := nofun
  exact step_of_round (.line hstart hdepth hunindented hblanks (.level rfl hclosed rfl) hrest h)

/-! ## Lexemes in a line -/

/-- What may follow a token without becoming a part of it: a blank, or the end of the source. -/
def Separated (rest : List Char) : Prop :=
  ∀ c ∈ rest.head?, c = ' '

theorem Separated.isWordChar_eq {rest : List Char} (h : Separated rest) :
    ∀ c ∈ rest.head?, isWordChar c = false := by
  intro c hc
  rw [h c hc]
  rfl

/-- A token stays the same in front of a blank and at the end of the source. -/
theorem Lexeme.separated {chars rest rest' : List Char} {kind : Kind} (h : Lexeme chars rest kind)
    (hrest : Separated rest') : Lexeme chars rest' kind := by
  cases h with
  | integer hdigit hword _ hvalue => exact .integer hdigit hword hrest.isWordChar_eq hvalue
  | word hfirst hdigit hword _ => exact .word hfirst hdigit hword hrest.isWordChar_eq
  | text hquote hbody => exact .text hquote hbody
  | @symbol c behind rest sign =>
      cases rest' with
      | nil => cases sign <;> exact .symbol rfl rfl
      | cons d rest' =>
          obtain rfl : d = ' ' := hrest d rfl
          cases sign <;> exact .symbol rfl rfl

/-- Some lexemes with a blank in front of each of them. -/
def behindBlanks (lexemes : List (List Char × Kind)) : List Char :=
  lexemes.flatMap fun lexeme => ' ' :: lexeme.1

theorem separated_behindBlanks (lexemes : List (List Char × Kind)) :
    Separated (behindBlanks lexemes) := by
  cases lexemes with
  | nil => exact nofun
  | cons lexeme lexemes =>
      intro c hc
      exact (Option.some.inj hc).symm

/-- The scanner goes through lexemes with blanks in front of them. -/
theorem reaches_behindBlanks (state : State) {lexemes : List (List Char × Kind)}
    (h : ∀ lexeme ∈ lexemes, Lexeme lexeme.1 [] lexeme.2) (hwithin : state.atLineStart = false)
    (hrest : state.rest = behindBlanks lexemes) :
    ∃ last, Reaches state last ∧ last.rest = [] ∧ last.atLineStart = false ∧
      last.blocks = state.blocks ∧ last.tokens.reverse.map Token.kind =
        state.tokens.reverse.map Token.kind ++ lexemes.map Prod.snd := by
  induction lexemes generalizing state with
  | nil => exact ⟨state, .refl state, hrest, hwithin, rfl, by simp⟩
  | cons lexeme lexemes ih =>
      obtain ⟨hfirst, hlexemes⟩ := List.forall_mem_cons.mp h
      have hblank : state.rest = ' ' :: (lexeme.1 ++ behindBlanks lexemes) := hrest
      generalize hskipped : state.consume [' '] (lexeme.1 ++ behindBlanks lexemes) = skipped
      have hskip : step state = .ok skipped := by
        rw [step_of_within hwithin, scanOne_blank hblank rfl, hskipped]
      have hwithin' : skipped.atLineStart = false := by rw [← hskipped]; exact hwithin
      have hbehind : skipped.rest = lexeme.1 ++ behindBlanks lexemes := by rw [← hskipped]; rfl
      have hscan := step_lexeme (hfirst.separated (separated_behindBlanks lexemes)) hwithin' hbehind
      have hne : skipped.rest ≠ [] := by
        rw [hbehind]
        exact List.append_ne_nil_of_left_ne_nil hfirst.ne_nil _
      obtain ⟨last, hreach, hlast, hline, hblocks, hkinds⟩ :=
        ih (skipped.pushLexeme lexeme.1 (behindBlanks lexemes) lexeme.2) hlexemes hwithin' rfl
      refine ⟨last, .step (by simp [hblank]) hskip (.step hne hscan hreach), hlast, hline, ?_, ?_⟩
      · rw [hblocks, ← hskipped]
        rfl
      · rw [hkinds, ← hskipped]
        simp [State.pushLexeme, State.push, State.consume]

end Lexer

/-- The tokens of a source are those that the scanner comes to from its start. -/
theorem lex_eq_tokensFrom (source : String) :
    lex source = Lexer.tokensFrom (Lexer.initial source) :=
  rfl

/-- Lexemes with a blank between any two of them are scanned to their kinds. -/
theorem lex_spaced {first : List Char × Kind} {lexemes : List (List Char × Kind)}
    (h : ∀ lexeme ∈ first :: lexemes, Lexer.Lexeme lexeme.1 [] lexeme.2) :
    (lex (String.ofList (first.1 ++ Lexer.behindBlanks lexemes))).map (List.map Token.kind) =
      .ok ((first :: lexemes).map Prod.snd ++ [.newline, .endOfFile]) := by
  obtain ⟨hfirst, hlexemes⟩ := List.forall_mem_cons.mp h
  generalize hsource : String.ofList (first.1 ++ Lexer.behindBlanks lexemes) = source
  have hrest : (Lexer.initial source).rest = first.1 ++ Lexer.behindBlanks lexemes := by
    rw [Lexer.initial, ← hsource, String.toList_ofList]
  have hscan := Lexer.step_first_lexeme (Lexer.initial source)
    (hfirst.separated (Lexer.separated_behindBlanks lexemes)) rfl rfl rfl hrest
  have hne : (Lexer.initial source).rest ≠ [] := by
    rw [hrest]
    exact List.append_ne_nil_of_left_ne_nil hfirst.ne_nil _
  obtain ⟨last, hreach, hlast, hline, hblocks, hkinds⟩ := Lexer.reaches_behindBlanks
    ({ Lexer.initial source with atLineStart := false }.pushLexeme first.1
      (Lexer.behindBlanks lexemes) first.2) hlexemes rfl rfl
  have hall := Lexer.Reaches.step hne hscan hreach
  have hblocks : last.blocks = [] := hblocks
  have htokens : lex source = .ok (Lexer.finish last) := by
    rw [lex_eq_tokensFrom, hall.tokensFrom_eq, Lexer.tokensFrom_of_nil hlast]
  have hclosing : last.closing.map Token.kind = [.newline, .endOfFile] := by
    simp [Lexer.State.closing, hline, hblocks, Lexer.State.emptyToken]
  rw [htokens, Lexer.finish_eq, Except.map, List.map_append, hkinds, hclosing]
  rfl

end FrozenScript
