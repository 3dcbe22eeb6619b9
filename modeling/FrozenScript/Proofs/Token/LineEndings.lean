import FrozenScript.Proofs.Token.Places

/-!
# Line breaks with carriage returns

`withReturns` puts a carriage return in front of every line break. The scanner skips it behind a
token, in a comment and on a blank line, so that the tokens stay what they are, on the lines where
they are. Only a text does not allow for it: a backslash takes one character with it, which is a
line break in the one source and a carriage return in the other. The main statement,
`lex_withReturns`, says that the sources that keep their tokens are those without a token that holds
a line break, and `returns_end_text` is a source of which a text is no longer accepted.

The proof runs the scanner over both sources. `Parallel` relates the states that it comes to:
either the same characters are left of both sources, or the scanner has just skipped the carriage
return of a line break.
-/

namespace FrozenScript

open Text

/-- Some characters with a carriage return in front of every line break. -/
def withReturns (chars : List Char) : List Char :=
  chars.flatMap fun c => if c = '\n' then ['\r', '\n'] else [c]

/-- What a token is, and its line. -/
def Token.kindAndLine (token : Token) : Kind × Nat :=
  (token.kind, token.line)

/-- A token that is no layout holds a line break. -/
def Token.IsBroken (source : String) (token : Token) : Prop :=
  token.kind.isLayout = false ∧
    ∃ text ∈ slice? source token.span.offset token.span.stop, '\n' ∈ text.toList

instance (source : String) (token : Token) : Decidable (token.IsBroken source) :=
  inferInstanceAs (Decidable (_ ∧ ∃ text ∈ slice? source _ _, _))

/-! ## Characters with carriage returns -/

section

variable {c : Char} {chars rest : List Char}

theorem withReturns_newline (rest : List Char) :
    withReturns ('\n' :: rest) = '\r' :: '\n' :: withReturns rest :=
  rfl

theorem withReturns_cons (h : c ≠ '\n') : withReturns (c :: rest) = c :: withReturns rest := by
  simp [withReturns, h]

theorem withReturns_append (chars rest : List Char) :
    withReturns (chars ++ rest) = withReturns chars ++ withReturns rest :=
  List.flatMap_append

theorem withReturns_of_not_mem (h : '\n' ∉ chars) : withReturns chars = chars := by
  induction chars with
  | nil => rfl
  | cons c chars ih =>
      rw [List.mem_cons, not_or] at h
      rw [withReturns_cons (Ne.symm h.1), ih h.2]

theorem withReturns_append_of_not_mem (h : '\n' ∉ chars) :
    withReturns (chars ++ rest) = chars ++ withReturns rest := by
  rw [withReturns_append, withReturns_of_not_mem h]

/-- A character that has no line break behind it is a character of the source. -/
theorem exists_of_withReturns_eq_cons (h : withReturns rest = c :: chars)
    (hline : chars.head? ≠ some '\n') :
    c ≠ '\n' ∧ ∃ behind, rest = c :: behind ∧ chars = withReturns behind := by
  cases rest with
  | nil => exact nomatch h
  | cons d rest =>
      by_cases hbreak : d = '\n'
      · subst hbreak
        rw [withReturns_newline] at h
        obtain ⟨-, rfl⟩ := List.cons.inj h
        exact absurd rfl hline
      · rw [withReturns_cons hbreak] at h
        obtain ⟨rfl, rfl⟩ := List.cons.inj h
        exact ⟨hbreak, rest, rfl, rfl⟩

/-- Characters in front that hold no line break and no carriage return stand in front in both
sources. -/
theorem exists_of_withReturns_eq_append {left : List Char} (h : withReturns rest = chars ++ left)
    (hline : '\n' ∉ chars) (hreturn : '\r' ∉ chars) :
    ∃ behind, rest = chars ++ behind ∧ left = withReturns behind := by
  induction chars generalizing rest with
  | nil => exact ⟨rest, rfl, h.symm⟩
  | cons c chars ih =>
      rw [List.mem_cons, not_or] at hline hreturn
      cases rest with
      | nil => exact nomatch h
      | cons d rest =>
          by_cases hbreak : d = '\n'
          · subst hbreak
            rw [withReturns_newline] at h
            exact absurd (List.cons.inj h).1 hreturn.1
          · rw [withReturns_cons hbreak] at h
            obtain ⟨rfl, hbehind⟩ := List.cons.inj h
            obtain ⟨behind, rfl, hleft⟩ := ih hbehind hline.2 hreturn.2
            exact ⟨behind, rfl, hleft⟩

end

namespace Lexer

/-! ## Lexemes -/

section

variable {chars rest : List Char} {kind : Kind}

/-- Whether a symbol takes one character or two does not depend on a line break behind it. -/
theorem readSymbol_withReturns (c : Char) (rest : List Char) :
    readSymbol c (withReturns rest) = readSymbol c rest := by
  cases rest with
  | nil => rfl
  | cons d rest =>
      rw [readSymbol_eq c (d :: rest), readSymbol_eq c (withReturns _)]
      by_cases hline : d = '\n'
      · subst hline
        rfl
      · rw [withReturns_cons hline]
        rfl

theorem newline_not_mem_spelling (sign : Symbol) : '\n' ∉ sign.spelling.toList := by
  cases sign <;> decide

theorem return_not_mem_spelling (sign : Symbol) : '\r' ∉ sign.spelling.toList := by
  cases sign <;> decide

theorem not_mem_of_forall {p : Char → Bool} {c : Char} (h : p c = false)
    (hchars : ∀ d ∈ chars, p d = true) : c ∉ chars :=
  fun hmem => absurd ((hchars c hmem).symm.trans h) (by decide)

/-- What a word ends at is no word character in either source. -/
theorem isWordChar_head?_withReturns :
    (∀ c ∈ (withReturns rest).head?, isWordChar c = false) ↔
      ∀ c ∈ rest.head?, isWordChar c = false := by
  cases rest with
  | nil => exact Iff.rfl
  | cons d rest =>
      by_cases hline : d = '\n'
      · subst hline
        simp [withReturns_newline, isWordChar]
      · simp [withReturns_cons hline]

/-- A token stays the same if the line breaks behind it get a carriage return. -/
theorem Lexeme.withReturns (h : Lexeme chars rest kind) :
    Lexeme chars (FrozenScript.withReturns rest) kind := by
  cases h with
  | integer hdigit hword hrest hvalue =>
      exact .integer hdigit hword (isWordChar_head?_withReturns.mpr hrest) hvalue
  | word hfirst hdigit hword hrest =>
      exact .word hfirst hdigit hword (isWordChar_head?_withReturns.mpr hrest)
  | text hquote hbody => exact .text hquote hbody
  | @symbol c behind rest sign hchars hread =>
      obtain ⟨first, more, hspelling, ⟨-, -, hline⟩, -⟩ := exists_spelling_eq_cons sign
      have hboth := congrArg FrozenScript.withReturns hchars
      rw [hspelling] at hchars
      obtain ⟨rfl, rfl⟩ := List.cons.inj hchars
      rw [withReturns_cons hline, withReturns_append_of_not_mem (newline_not_mem_spelling sign)]
        at hboth
      rw [← readSymbol_withReturns] at hread
      exact .symbol hboth hread

/-- Between the quotes of a text there is no line break with a carriage return. -/
theorem TextBody.of_withReturns {quote : Char} {body value left : List Char}
    (h : TextBody quote body value) (hquote : quote = '\'' ∨ quote = '"')
    (hsplit : FrozenScript.withReturns rest = body ++ quote :: left) :
    '\n' ∉ body ∧ ∃ behind, rest = body ++ quote :: behind ∧
      left = FrozenScript.withReturns behind := by
  have hline : quote ≠ '\n' := by rcases hquote with rfl | rfl <;> decide
  -- A text does not go on with a line break, and so the character before is none of a line break.
  have hhead {body value : List Char} (h : TextBody quote body value) :
      (body ++ quote :: left).head? ≠ some '\n' := by
    cases h with
    | nil => simpa using hline
    | plain hplain => simpa using hplain
    | escape => simp
  induction h generalizing rest with
  | nil =>
      have hreturn : quote ≠ '\r' := by rcases hquote with rfl | rfl <;> decide
      have hfront : FrozenScript.withReturns rest = [quote] ++ left := hsplit
      obtain ⟨behind, rfl, hleft⟩ := exists_of_withReturns_eq_append hfront
        (by simpa using hline.symm) (by simpa using hreturn.symm)
      exact ⟨nofun, behind, rfl, hleft⟩
  | plain hplain _ _ hbody ih =>
      obtain ⟨-, more, rfl, hmore⟩ := exists_of_withReturns_eq_cons hsplit (hhead hbody)
      obtain ⟨hnone, behind, rfl, hleft⟩ := ih hmore.symm
      exact ⟨by simp [hnone, hplain.symm], behind, rfl, hleft⟩
  | @escape c body value hbody ih =>
      have hfront : FrozenScript.withReturns rest = ['\\'] ++ c :: (body ++ quote :: left) := hsplit
      obtain ⟨more, rfl, hmore⟩ := exists_of_withReturns_eq_append hfront (by decide) (by decide)
      obtain ⟨hescaped, more, rfl, hbehind⟩ :=
        exists_of_withReturns_eq_cons hmore.symm (hhead hbody)
      obtain ⟨hnone, behind, rfl, hleft⟩ := ih hbehind.symm
      exact ⟨by simp [hnone, hescaped.symm], behind, rfl, hleft⟩

/-- A token of the source with carriage returns holds no line break, and it is a token of the
source without them. -/
theorem Lexeme.of_withReturns {left : List Char} (h : Lexeme chars left kind)
    (hsplit : FrozenScript.withReturns rest = chars ++ left) :
    '\n' ∉ chars ∧ ∃ behind, rest = chars ++ behind ∧ left = FrozenScript.withReturns behind ∧
      Lexeme chars behind kind := by
  have hword {chars : List Char} (hchars : ∀ c ∈ chars, isWordChar c = true) :
      '\n' ∉ chars ∧ '\r' ∉ chars :=
    ⟨not_mem_of_forall (by decide) hchars, not_mem_of_forall (by decide) hchars⟩
  cases h with
  | integer hdigit hmore hend hvalue =>
      have hfirst := isWordChar_of_isDigit hdigit
      obtain ⟨hline, hreturn⟩ := hword (List.forall_mem_cons.mpr ⟨hfirst, hmore⟩)
      obtain ⟨behind, rfl, rfl⟩ := exists_of_withReturns_eq_append hsplit hline hreturn
      have hend := isWordChar_head?_withReturns.mp hend
      exact ⟨hline, behind, rfl, rfl, .integer hdigit hmore hend hvalue⟩
  | word hfirst hdigit hmore hend =>
      obtain ⟨hline, hreturn⟩ := hword (List.forall_mem_cons.mpr ⟨hfirst, hmore⟩)
      obtain ⟨behind, rfl, rfl⟩ := exists_of_withReturns_eq_append hsplit hline hreturn
      have hend := isWordChar_head?_withReturns.mp hend
      exact ⟨hline, behind, rfl, rfl, .word hfirst hdigit hmore hend⟩
  | @text quote body value left hquote hbody =>
      have hfront : FrozenScript.withReturns rest = [quote] ++ (body ++ quote :: left) := by
        rw [hsplit]
        simp
      obtain ⟨hline, hreturn⟩ : '\n' ∉ [quote] ∧ '\r' ∉ [quote] := by
        rcases hquote with rfl | rfl <;> decide
      obtain ⟨more, rfl, hmore⟩ := exists_of_withReturns_eq_append hfront hline hreturn
      obtain ⟨hnone, behind, rfl, rfl⟩ := hbody.of_withReturns hquote hmore.symm
      refine ⟨by simpa [hnone] using hline, behind, by simp, rfl, .text hquote hbody⟩
  | @symbol c more left sign hchars hread =>
      have hline := newline_not_mem_spelling sign
      obtain ⟨behind, rfl, rfl⟩ :=
        exists_of_withReturns_eq_append hsplit hline (return_not_mem_spelling sign)
      obtain ⟨first, tail, hspelling, ⟨-, -, hfirst⟩, -⟩ := exists_spelling_eq_cons sign
      have hall : c :: more = FrozenScript.withReturns (first :: (tail ++ behind)) := by
        rw [hchars, ← withReturns_append_of_not_mem hline, hspelling, List.cons_append]
      rw [withReturns_cons hfirst] at hall
      obtain ⟨rfl, rfl⟩ := List.cons.inj hall
      rw [readSymbol_withReturns] at hread
      have hsource : c :: (tail ++ behind) = sign.spelling.toList ++ behind := by
        rw [hspelling, List.cons_append]
      exact ⟨hline, behind, rfl, rfl, .symbol hsource hread⟩

end

/-! ## Parallel states -/

/-- What is left of a source, and what is left of it with carriage returns. -/
inductive SameLines : (rest rest' : List Char) → Prop where
  | whole {rest : List Char} (hreturn : '\r' ∉ rest) : SameLines rest (withReturns rest)
  /-- The scanner has skipped the carriage return of a line break. -/
  | behindReturn {rest : List Char} (hreturn : '\r' ∉ rest) :
      SameLines ('\n' :: rest) ('\n' :: withReturns rest)

/-- The scanner stands at the same place in both sources, with the same tokens on the same
lines. -/
structure Parallel (state state' : State) : Prop where
  rest : SameLines state.rest state'.rest
  line : state'.cursor.line = state.cursor.line
  blocks : state'.blocks = state.blocks
  depth : state'.depth = state.depth
  atLineStart : state'.atLineStart = state.atLineStart
  tokens : state'.tokens.map Token.kindAndLine = state.tokens.map Token.kindAndLine

theorem line_advanceBy (cursor : Cursor) (chars : List Char) :
    (cursor.advanceBy chars).line = cursor.line + chars.count '\n' := by
  induction chars generalizing cursor with
  | nil => rfl
  | cons c chars ih =>
      have hadvance : cursor.advanceBy (c :: chars) = (cursor.advance c).advanceBy chars := rfl
      rw [hadvance, ih, List.count_cons, Cursor.advance]
      by_cases hline : c = '\n'
      · simp [hline]
        omega
      · simp [hline]

/-- Where the line ends in both sources. -/
theorem SameLines.lineEnd {rest rest' : List Char} (h : SameLines rest rest') :
    (rest.dropWhile (· != '\n') = [] ∧ rest'.dropWhile (· != '\n') = []) ∨
    ∃ behind, '\r' ∉ behind ∧ rest.dropWhile (· != '\n') = '\n' :: behind ∧
      rest'.dropWhile (· != '\n') = '\n' :: withReturns behind := by
  cases h with
  | behindReturn hreturn => exact .inr ⟨_, hreturn, rfl, rfl⟩
  | whole hreturn =>
      induction rest with
      | nil => exact .inl ⟨rfl, rfl⟩
      | cons c rest ih =>
          rw [List.mem_cons, not_or] at hreturn
          by_cases hline : c = '\n'
          · subst hline
            exact .inr ⟨rest, hreturn.2, rfl, rfl⟩
          · have hkeep : (c != '\n') = true := by simpa using hline
            rw [withReturns_cons hline, List.dropWhile_cons_of_pos (p := (· != '\n')) hkeep,
              List.dropWhile_cons_of_pos (p := (· != '\n')) hkeep]
            exact ih hreturn.2

namespace SameLines

variable {rest rest' : List Char}

/-- Both sources end at the same time. -/
theorem eq_nil_iff (h : SameLines rest rest') : rest' = [] ↔ rest = [] := by
  cases h with
  | behindReturn => simp
  | whole =>
      cases rest with
      | nil => exact Iff.rfl
      | cons c rest =>
          by_cases hline : c = '\n'
          · simp [hline, withReturns_newline]
          · simp [withReturns_cons hline]

/-- What starts a token is left of both sources. -/
theorem of_startsToken {c : Char} (h : SameLines (c :: rest) rest') (hc : StartsToken c) :
    '\r' ∉ c :: rest ∧ rest' = c :: withReturns rest := by
  cases h with
  | behindReturn => exact absurd rfl hc.2.2
  | whole hreturn => exact ⟨hreturn, withReturns_cons hc.2.2⟩

theorem not_startsToken (h : SameLines rest rest') (hrest : ∀ c ∈ rest.head?, ¬ StartsToken c) :
    ∀ c ∈ rest'.head?, ¬ StartsToken c := by
  cases h with
  | behindReturn => simpa using hrest
  | whole hreturn =>
      cases rest with
      | nil => exact hrest
      | cons c rest =>
          by_cases hline : c = '\n'
          · subst hline
            simp [withReturns_newline, StartsToken, isSkipped]
          · rw [withReturns_cons hline]
            simpa using hrest

/-- A line is indented alike in both sources. -/
theorem indentation (h : SameLines rest rest') :
    rest'.takeWhile isIndentation = rest.takeWhile isIndentation ∧
      SameLines (rest.dropWhile isIndentation) (rest'.dropWhile isIndentation) := by
  cases h with
  | behindReturn hreturn => exact ⟨rfl, .behindReturn hreturn⟩
  | whole hreturn =>
      induction rest with
      | nil => exact ⟨rfl, .whole hreturn⟩
      | cons c rest ih =>
          by_cases hline : c = '\n'
          · subst hline
            exact ⟨rfl, .whole hreturn⟩
          rw [withReturns_cons hline]
          by_cases hblank : isIndentation c = true
          · rw [List.mem_cons, not_or] at hreturn
            simp only [List.takeWhile_cons_of_pos hblank, List.dropWhile_cons_of_pos hblank]
            exact ⟨by rw [(ih hreturn.2).1], (ih hreturn.2).2⟩
          · rw [List.takeWhile_cons_of_neg hblank, List.dropWhile_cons_of_neg hblank,
              List.takeWhile_cons_of_neg hblank, List.dropWhile_cons_of_neg hblank,
              ← withReturns_cons hline]
            exact ⟨rfl, .whole hreturn⟩

end SameLines

namespace Parallel

variable {state state' : State}

theorem consume (h : Parallel state state') {chars chars' rest rest' : List Char}
    (hrest : SameLines rest rest') (hlines : chars'.count '\n' = chars.count '\n') :
    Parallel (state.consume chars rest) (state'.consume chars' rest') := by
  refine ⟨hrest, ?_, h.blocks, h.depth, h.atLineStart, h.tokens⟩
  simp only [State.consume, line_advanceBy, h.line, hlines]

theorem push (h : Parallel state state') (kind : Kind) {start start' : Cursor}
    (hstart : start'.line = start.line) :
    Parallel (state.push kind start) (state'.push kind start') := by
  refine ⟨h.rest, h.line, h.blocks, h.depth, h.atLineStart, ?_⟩
  simp [State.push, Token.kindAndLine, h.tokens, hstart]

theorem pushLexeme (h : Parallel state state') {chars rest rest' : List Char}
    (hrest : SameLines rest rest') (kind : Kind) :
    Parallel (state.pushLexeme chars rest kind) (state'.pushLexeme chars rest' kind) := by
  have hconsume := h.consume hrest (Eq.refl (chars.count '\n'))
  have hdepth : Parallel { state.consume chars rest with depth := kind.depthAfter state.depth }
      { state'.consume chars rest' with depth := kind.depthAfter state'.depth } :=
    ⟨hrest, hconsume.line, h.blocks, by rw [h.depth], h.atLineStart, h.tokens⟩
  exact hdepth.push kind h.line

/-- The rest of the line in front of the line break is skipped in both sources. -/
theorem skipComment (h : Parallel state state') :
    Parallel state.skipComment state'.skipComment := by
  have hnone (rest : List Char) : (rest.takeWhile (· != '\n')).count '\n' = 0 :=
    List.count_eq_zero.mpr fun hmem => ne_newline_of_mem_takeWhile hmem rfl
  refine h.consume ?_ (by rw [hnone, hnone])
  rcases h.rest.lineEnd with ⟨hend, hend'⟩ | ⟨behind, hreturn, hend, hend'⟩
  · rw [hend, hend']
    exact .whole (by simp)
  · rw [hend, hend']
    exact .behindReturn hreturn

/-- The rest of the line is skipped in both sources, with the line break. -/
theorem skipLine (h : Parallel state state') :
    Parallel state.skipComment.skipOne state'.skipComment.skipOne := by
  have hskip := h.skipComment
  rcases h.rest.lineEnd with ⟨hend, hend'⟩ | ⟨behind, hreturn, hend, hend'⟩
  · rw [skipOne_of_nil hend, skipOne_of_nil hend']
    exact hskip
  · rw [skipOne_of_cons hend, skipOne_of_cons hend']
    exact hskip.consume (.whole hreturn) rfl

theorem indentation_eq (h : Parallel state state') : state'.indentation = state.indentation := by
  rw [State.indentation, State.indentation, h.blocks]

theorem closeBlocks (h : Parallel state state') (width : Nat) (blocks : List Nat) :
    Parallel (closeBlocks width state blocks) (closeBlocks width state' blocks) := by
  induction blocks generalizing state state' with
  | nil => exact ⟨h.rest, h.line, rfl, h.depth, h.atLineStart, h.tokens⟩
  | cons block outer ih =>
      unfold Lexer.closeBlocks
      split
      · exact ih (h.push .dedent h.line)
      · exact ⟨h.rest, h.line, rfl, h.depth, h.atLineStart, h.tokens⟩

/-- The same blocks are opened and closed in both sources. -/
theorem openLine (h : Parallel state state') {start start' : Cursor}
    (hstart : start'.line = start.line) (width : Nat) :
    (∃ opened opened', openLine width start state = .ok opened ∧
      openLine width start' state' = .ok opened' ∧ Parallel opened opened') ∨
    ∃ error error', openLine width start state = .error error ∧
      openLine width start' state' = .error error' := by
  obtain ⟨rest', cursor', blocks', depth', atLineStart', tokens'⟩ := state'
  obtain rfl : blocks' = state.blocks := h.blocks
  have hwithin : Parallel { state with atLineStart := false }
      ⟨rest', cursor', state.blocks, depth', false, tokens'⟩ :=
    ⟨h.rest, h.line, rfl, h.depth, rfl, h.tokens⟩
  unfold Lexer.openLine
  dsimp only
  rw [hwithin.indentation_eq]
  by_cases hdeeper : State.indentation { state with atLineStart := false } < width
  · rw [if_pos hdeeper, if_pos hdeeper]
    have hblocks : Parallel { state with atLineStart := false, blocks := width :: state.blocks }
        ⟨rest', cursor', width :: state.blocks, depth', false, tokens'⟩ :=
      ⟨h.rest, h.line, rfl, h.depth, rfl, h.tokens⟩
    exact .inl ⟨_, _, rfl, rfl, hblocks.push .indent hstart⟩
  · rw [if_neg hdeeper, if_neg hdeeper]
    have hclosed := hwithin.closeBlocks width state.blocks
    rw [hclosed.indentation_eq]
    split
    · exact .inl ⟨_, _, rfl, rfl, hclosed⟩
    · exact .inr ⟨_, _, rfl, rfl⟩

end Parallel

/-! ## Tokens without a line break -/

/-- The tokens of a state stand at their places in the source, and none of them is broken. -/
structure Whole (source : String) (state : State) : Prop where
  placed : ∃ done, state.Placed source.toList done
  whole : ∀ token ∈ state.tokens, ¬ token.IsBroken source

theorem not_isBroken_of_isLayout {source : String} {token : Token}
    (h : token.kind.isLayout = true) : ¬ token.IsBroken source := by
  rintro ⟨hkind, -⟩
  rw [h] at hkind
  exact nomatch hkind

section

variable {source : String} {state after : State} {chars rest : List Char} {kind : Kind}

/-- The token of a lexeme is broken exactly if the lexeme holds a line break. -/
theorem isBroken_iff {done : List Char} (h : state.Placed source.toList done)
    (hrest : state.rest = chars ++ rest) (hkind : kind.isLayout = false) :
    Token.IsBroken source ⟨kind, state.cursor.spanTo (state.cursor.advanceBy chars),
      state.cursor.line, state.cursor.column⟩ ↔ '\n' ∈ chars := by
  have hoffset : state.cursor.offset = byteLength done := by rw [h.cursor, offset_cursorBehind]
  have hsplit : source.toList = done ++ (chars ++ rest) := by rw [← hrest]; exact h.split
  have hslice := slice?_of_split hsplit rfl rfl
  unfold Token.IsBroken
  rw [spanTo_advanceBy hoffset]
  refine ⟨fun ⟨_, text, htext, hline⟩ => ?_, fun hline => ⟨hkind, _, hslice, ?_⟩⟩
  · obtain rfl := Option.some.inj (hslice.symm.trans htext)
    rwa [String.toList_ofList] at hline
  · rwa [String.toList_ofList]

theorem Whole.consume (h : Whole source state) (hrest : state.rest = chars ++ rest) :
    Whole source (state.consume chars rest) := by
  obtain ⟨done, hplaced⟩ := h.placed
  exact ⟨⟨_, hplaced.consume hrest⟩, h.whole⟩

theorem Whole.skipOne (h : Whole source state) : Whole source state.skipOne := by
  cases hrest : state.rest with
  | nil => rwa [skipOne_of_nil hrest]
  | cons c rest =>
      rw [skipOne_of_cons hrest]
      exact h.consume hrest

theorem Whole.skipComment (h : Whole source state) : Whole source state.skipComment :=
  h.consume List.takeWhile_append_dropWhile.symm

theorem Whole.newline (h : Whole source state) (hrest : state.rest = '\n' :: rest) :
    Whole source { (state.consume ['\n'] rest).push .newline state.cursor with
      atLineStart := true } := by
  obtain ⟨done, hplaced⟩ := h.placed
  have hline : Lexer.Placed source.toList done (['\n'] ++ rest) state.cursor state.tokens := by
    rw [List.singleton_append, ← hrest]
    exact hplaced
  exact ⟨⟨_, hline.layout rfl⟩,
    List.forall_mem_cons.mpr ⟨not_isBroken_of_isLayout rfl, h.whole⟩⟩

theorem Whole.opens {width : Nat} {opened : State} (h : Whole source state)
    (hopens : Opens width state.cursor (state.consume chars rest) opened)
    (hrest : state.rest = chars ++ rest) : Whole source opened := by
  obtain ⟨done, hplaced⟩ := h.placed
  refine ⟨⟨_, hopens.placed hplaced hrest⟩, ?_⟩
  cases hopens with
  | deeper => exact List.forall_mem_cons.mpr ⟨not_isBroken_of_isLayout rfl, h.whole⟩
  | level =>
      intro token htoken
      rcases List.mem_append.mp htoken with htoken | htoken
      · rw [List.eq_of_mem_replicate htoken]
        exact not_isBroken_of_isLayout rfl
      · exact h.whole token htoken

theorem Whole.pushLexeme (h : Whole source state) (hrest : state.rest = chars ++ rest)
    (hlexeme : Lexeme chars rest kind) (hline : '\n' ∉ chars) :
    Whole source (state.pushLexeme chars rest kind) := by
  obtain ⟨done, hplaced⟩ := h.placed
  have hwhole := mt (isBroken_iff hplaced hrest hlexeme.not_isLayout).mp hline
  exact ⟨⟨_, hplaced.pushLexeme hrest hlexeme⟩, List.forall_mem_cons.mpr ⟨hwhole, h.whole⟩⟩

end

/-! ## Rounds over both sources -/

/-- What a round over a source and a round over the source with carriage returns may come to. -/
inductive Keeps (source : String) : (result result' : Except LexError State) → Prop where
  | parallel {after after' : State} (hparallel : Parallel after after')
      (hwhole : Whole source after) : Keeps source (.ok after) (.ok after')
  | fault {result : Except LexError State} {error' : LexError}
      (hbroken : ∀ after, result = .ok after → ∃ token ∈ after.tokens, token.IsBroken source) :
      Keeps source result (.error error')

section

variable {source : String} {state state' : State}

theorem scanOne_token_keeps (h : Parallel state state') (hwhole : Whole source state) {c : Char}
    {rest : List Char} (hrest : state.rest = c :: rest) (hc : StartsToken c) :
    Keeps source (scanOne state) (scanOne state') := by
  have hlines := h.rest
  rw [hrest] at hlines
  obtain ⟨hreturn, hfront⟩ := hlines.of_startsToken hc
  rw [← hrest] at hreturn
  have hrest' : state'.rest = withReturns state.rest := by
    rw [hfront, hrest, withReturns_cons hc.2.2]
  rcases scanOne_startsToken hfront hc with ⟨chars, left, kind, hsplit, hlexeme, hscan'⟩ |
    ⟨error', hscan'⟩
  · -- A token of the source with carriage returns is a token of the source without them.
    obtain ⟨hline, behind, hbehind, rfl, hsource⟩ :=
      hlexeme.of_withReturns (hrest'.symm.trans hsplit)
    rw [scanOne_lexeme hsource hbehind, hscan']
    have hleft : '\r' ∉ behind := fun hmem => hreturn (by rw [hbehind]; simp [hmem])
    exact .parallel (h.pushLexeme (.whole hleft) kind) (hwhole.pushLexeme hbehind hsource hline)
  · rw [hscan']
    refine .fault fun after hafter => ?_
    rcases scanOne_startsToken hrest hc with ⟨chars, left, kind, hsplit, hlexeme, hscan⟩ |
      ⟨error, hscan⟩
    · obtain rfl := Except.ok.inj (hscan.symm.trans hafter)
      obtain ⟨done, hplaced⟩ := hwhole.placed
      refine ⟨_, List.mem_cons_self, (isBroken_iff hplaced hsplit hlexeme.not_isLayout).mpr ?_⟩
      -- Otherwise it is a token of both sources.
      refine Decidable.byContradiction fun hline => ?_
      have hsplit' : state'.rest = chars ++ withReturns left := by
        rw [hrest', hsplit, withReturns_append_of_not_mem hline]
      rw [scanOne_lexeme hlexeme.withReturns hsplit'] at hscan'
      exact nomatch hscan'
    · rw [hscan] at hafter
      exact nomatch hafter

/-- Scanning keeps both sources together, or a carriage return is skipped in one of them. -/
theorem scanOne_keeps (h : Parallel state state') (hwhole : Whole source state) :
    Keeps source (scanOne state) (scanOne state') ∨
      ∃ after', scanOne state' = .ok after' ∧ Parallel state after' := by
  have hlines := h.rest
  generalize hrest : state.rest = rest at hlines
  generalize hrest' : state'.rest = rest' at hlines
  cases hlines with
  | @behindReturn rest hreturn =>
      left
      have hconsume : Parallel (state.consume ['\n'] rest)
          (state'.consume ['\n'] (withReturns rest)) := h.consume (.whole hreturn) rfl
      rw [scanOne_newline hrest, scanOne_newline hrest', h.depth]
      by_cases hdepth : state.depth = 0
      · rw [if_pos hdepth, if_pos hdepth]
        have hpush := hconsume.push .newline h.line
        exact .parallel ⟨hpush.rest, hpush.line, hpush.blocks, hpush.depth, rfl, hpush.tokens⟩
          (hwhole.newline hrest)
      · rw [if_neg hdepth, if_neg hdepth]
        exact .parallel hconsume (hwhole.consume hrest)
  | whole hreturn =>
      cases rest with
      | nil =>
          rw [scanOne_nil hrest, scanOne_nil hrest']
          exact .inl (.parallel h hwhole)
      | cons c rest =>
      rw [List.mem_cons, not_or] at hreturn
      by_cases hline : c = '\n'
      · subst hline
        rw [withReturns_newline] at hrest'
        have hskip := scanOne_blank hrest' rfl
        refine .inr ⟨_, hskip, ?_, ?_, h.blocks, h.depth, h.atLineStart, h.tokens⟩
        · rw [hrest]
          exact .behindReturn hreturn.2
        · exact h.line
      rw [withReturns_cons hline] at hrest'
      left
      by_cases hblank : isSkipped c = true
      · rw [scanOne_blank hrest hblank, scanOne_blank hrest' hblank]
        exact .parallel (h.consume (.whole hreturn.2) rfl) (hwhole.consume hrest)
      by_cases hcomment : c = '#'
      · subst hcomment
        rw [scanOne_comment hrest, scanOne_comment hrest']
        exact .parallel h.skipComment hwhole.skipComment
      exact scanOne_token_keeps h hwhole hrest
        ⟨Bool.eq_false_iff.mpr hblank, hcomment, hline⟩

/-- A round keeps both sources together, or a carriage return is skipped in one of them. -/
theorem step_keeps (h : Parallel state state') (hwhole : Whole source state) :
    Keeps source (step state) (step state') ∨
      ∃ after', step state' = .ok after' ∧ Parallel state after' := by
  unfold step
  rw [h.atLineStart, h.depth]
  by_cases hplace : (state.atLineStart && state.depth == 0) = true
  · rw [if_pos hplace, if_pos hplace]
    left
    obtain ⟨htake, hlines⟩ := h.rest.indentation
    have hsplit : state.rest = state.rest.takeWhile isIndentation ++
      state.rest.dropWhile isIndentation := List.takeWhile_append_dropWhile.symm
    have hlength : (state'.rest.takeWhile isIndentation).count '\n' =
        (state.rest.takeWhile isIndentation).count '\n' := by rw [htake]
    have hindented := h.consume hlines hlength
    by_cases hfirst : ∀ c ∈ (state.rest.dropWhile isIndentation).head?, ¬ StartsToken c
    · rw [measureLine_blank hfirst, measureLine_blank (hlines.not_startsToken hfirst)]
      exact .parallel hindented.skipLine (hwhole.consume hsplit).skipComment.skipOne
    obtain ⟨c, rest, hrest, hc⟩ : ∃ c rest,
        state.rest.dropWhile isIndentation = c :: rest ∧ StartsToken c := by
      cases hrest : state.rest.dropWhile isIndentation with
      | nil => simp [hrest] at hfirst
      | cons c rest => exact ⟨c, rest, rfl, by simpa [hrest] using hfirst⟩
    rw [hrest] at hlines hindented hsplit
    have hrest' := (hlines.of_startsToken hc).2
    rw [hrest'] at hindented
    rw [measureLine_token hrest hc, measureLine_token hrest' hc, htake]
    rw [htake] at hindented
    rcases hindented.openLine h.line (indentationWidth (state.rest.takeWhile isIndentation)) with
      ⟨opened, opened', hopen, hopen', hopened⟩ | ⟨error, error', hopen, hopen'⟩
    · rw [hopen, hopen']
      have hopens := opens_of_openLine hopen
      exact scanOne_token_keeps hopened (hwhole.opens hopens hsplit) hopens.rest_eq hc
    · rw [hopen, hopen']
      exact .fault nofun
  · rw [if_neg hplace, if_neg hplace]
    exact scanOne_keeps h hwhole

end

/-! ## Runs over both sources -/

/-- The tokens that close what is open are the same, on the same line. -/
theorem Parallel.finish {state state' : State} (h : Parallel state state') :
    (finish state').map Token.kindAndLine = (finish state).map Token.kindAndLine := by
  have hempty (kind : Kind) :
      (state'.emptyToken kind).kindAndLine = (state.emptyToken kind).kindAndLine := by
    simp [State.emptyToken, Token.kindAndLine, h.line]
  rw [finish_eq, finish_eq, List.map_append, List.map_append, List.map_reverse, List.map_reverse,
    h.tokens]
  unfold State.closing
  rw [h.atLineStart, h.blocks]
  split <;> simp [hempty]

/-- From states that the scanner comes to in both sources it comes to the same tokens, unless a
token of the source holds a line break. Then the source with carriage returns is refused. -/
theorem tokensFrom_keeps {source : String} {state state' : State} (h : Parallel state state')
    (hwhole : Whole source state) :
    (∃ tokens tokens', tokensFrom state = .ok tokens ∧ tokensFrom state' = .ok tokens' ∧
      tokens'.map Token.kindAndLine = tokens.map Token.kindAndLine ∧
      ∀ token ∈ tokens, ¬ token.IsBroken source) ∨
    (∃ error', tokensFrom state' = .error error') ∧
      ∀ tokens, tokensFrom state = .ok tokens → ∃ token ∈ tokens, token.IsBroken source := by
  induction hlength : state'.rest.length using Nat.strongRecOn generalizing state state' with
  | ind length ih =>
  subst hlength
  by_cases hrest' : state'.rest = []
  · have hrest := h.rest.eq_nil_iff.mp hrest'
    have hlayout : ∀ token ∈ finish state, ¬ token.IsBroken source := by
      intro token htoken
      rw [finish_eq, List.mem_append, List.mem_reverse] at htoken
      rcases htoken with htoken | htoken
      · exact hwhole.whole token htoken
      · obtain ⟨kinds, hclosing, hkinds⟩ := exists_closing_eq_map state
        rw [hclosing] at htoken
        obtain ⟨kind, hkind, rfl⟩ := List.mem_map.mp htoken
        exact not_isBroken_of_isLayout (hkinds kind hkind)
    exact .inl ⟨_, _, tokensFrom_of_nil hrest, tokensFrom_of_nil hrest', h.finish, hlayout⟩
  have hrest : state.rest ≠ [] := fun hnil => hrest' (h.rest.eq_nil_iff.mpr hnil)
  generalize hstep : step state = result
  generalize hstep' : step state' = result'
  have hkeeps := step_keeps h hwhole
  rw [hstep, hstep'] at hkeeps
  rcases hkeeps with hkeeps | ⟨after', rfl, hparallel⟩
  · cases hkeeps with
    | parallel hparallel hafter =>
        have hfewer := length_lt_of_step hstep' hrest'
        rw [tokensFrom_of_ok hrest hstep, tokensFrom_of_ok hrest' hstep']
        exact ih _ hfewer hparallel hafter rfl
    | fault hbroken =>
        refine .inr ⟨⟨_, tokensFrom_of_error hrest' hstep'⟩, fun tokens htokens => ?_⟩
        cases result with
        | error error =>
            rw [tokensFrom_of_error hrest hstep] at htokens
            exact nomatch htokens
        | ok after =>
            obtain ⟨token, htoken, hsplit⟩ := hbroken after rfl
            rw [tokensFrom_of_ok hrest hstep] at htokens
            exact ⟨token, mem_of_tokensFrom htokens htoken, hsplit⟩
  · have hfewer := length_lt_of_step hstep' hrest'
    rw [tokensFrom_of_ok hrest' hstep']
    exact ih _ hfewer hparallel hwhole rfl

end Lexer

/-! ## Whole sources -/

/-- Carriage returns in front of the line breaks do not change what the tokens of a source are and
on which lines they stand, if no token holds a line break. If one does, the source is refused with
them. -/
theorem lex_withReturns {source : String} (h : '\r' ∉ source.toList) (lexed : List (Kind × Nat)) :
    (∃ tokens, lex (String.ofList (withReturns source.toList)) = .ok tokens ∧
      tokens.map Token.kindAndLine = lexed) ↔
    ∃ tokens, lex source = .ok tokens ∧ tokens.map Token.kindAndLine = lexed ∧
      ∀ token ∈ tokens, ¬ token.IsBroken source := by
  generalize hsource' : String.ofList (withReturns source.toList) = source'
  have hrest' : source'.toList = withReturns source.toList := by
    rw [← hsource', String.toList_ofList]
  have hlines : Lexer.SameLines source.toList source'.toList := by
    rw [hrest']
    exact .whole h
  have hinitial : Lexer.Parallel (Lexer.initial source) (Lexer.initial source') :=
    ⟨hlines, rfl, rfl, rfl, rfl, rfl⟩
  have hwhole : Lexer.Whole source (Lexer.initial source) := ⟨⟨[], .nil source.toList⟩, nofun⟩
  rw [lex_eq_tokensFrom, lex_eq_tokensFrom]
  rcases Lexer.tokensFrom_keeps hinitial hwhole with
    ⟨tokens, tokens', htokens, htokens', hsame, hunbroken⟩ | ⟨⟨error', herror⟩, hbroken⟩
  · rw [htokens, htokens']
    constructor
    · rintro ⟨found, hfound, rfl⟩
      obtain rfl := Except.ok.inj hfound
      exact ⟨tokens, rfl, hsame.symm, hunbroken⟩
    · rintro ⟨found, hfound, rfl, -⟩
      obtain rfl := Except.ok.inj hfound
      exact ⟨tokens', rfl, hsame⟩
  · rw [herror]
    constructor
    · rintro ⟨found, hfound, -⟩
      exact nomatch hfound
    · rintro ⟨found, hfound, -, hunbroken⟩
      obtain ⟨token, htoken, hsplit⟩ := hbroken found hfound
      exact absurd hsplit (hunbroken token htoken)

/-- A source of two lines without an escape keeps its tokens. -/
theorem lex_withReturns_two_lines :
    ∃ tokens, lex (String.ofList (withReturns "x = 'a'\ny\n".toList)) = .ok tokens ∧
      tokens.map Token.kindAndLine = [(.identifier "x", 1), (.symbol .assign, 1), (.text "a", 1),
        (.newline, 1), (.identifier "y", 2), (.newline, 2), (.endOfFile, 3)] := by
  have hlex : lex "x = 'a'\ny\n" = .ok [⟨.identifier "x", ⟨0, 1⟩, 1, 1⟩,
      ⟨.symbol .assign, ⟨2, 1⟩, 1, 3⟩, ⟨.text "a", ⟨4, 3⟩, 1, 5⟩, ⟨.newline, ⟨7, 1⟩, 1, 8⟩,
      ⟨.identifier "y", ⟨8, 1⟩, 2, 1⟩, ⟨.newline, ⟨9, 1⟩, 2, 2⟩, ⟨.endOfFile, ⟨10, 0⟩, 3, 1⟩] :=
    eq_ok_of_toOption (by decide +kernel)
  exact (lex_withReturns (by decide) _).mpr ⟨_, hlex, rfl, by decide +kernel⟩

/-- A text with an escaped line break is no longer accepted if the line break gets a carriage
return. -/
theorem returns_end_text :
    ¬ ∀ source : String, '\r' ∉ source.toList →
      ((∃ tokens, lex (String.ofList (withReturns source.toList)) = .ok tokens) ↔
        ∃ tokens, lex source = .ok tokens) := by
  intro h
  have hlex : lex "x = 'a\\\nb'\n" = .ok [⟨.identifier "x", ⟨0, 1⟩, 1, 1⟩,
      ⟨.symbol .assign, ⟨2, 1⟩, 1, 3⟩, ⟨.text "ab", ⟨4, 6⟩, 1, 5⟩, ⟨.newline, ⟨10, 1⟩, 2, 3⟩,
      ⟨.endOfFile, ⟨11, 0⟩, 3, 1⟩] :=
    eq_ok_of_toOption (by decide +kernel)
  obtain ⟨tokens, htokens⟩ := (h "x = 'a\\\nb'\n" (by decide)).mpr ⟨_, hlex⟩
  have hrefused : (lex (String.ofList (withReturns "x = 'a\\\nb'\n".toList))).toOption = none := by
    decide +kernel
  rw [htokens] at hrefused
  exact nomatch hrefused

end FrozenScript
