import FrozenScript.Proofs.Token.LineEndings

/-!
# Lines without a token

A line that holds nothing but blanks and a comment may be put in front of any line of a source,
indented in whatever way, and between parentheses as well: the tokens stay what they are. The main
statement, `lex_unseen_line`, says this of every place behind a line break that is not inside a
text.

The proof cuts the run over the source at this place. No round goes past it (`exists_boundary`), so
that the same rounds lead up to it in both sources (`Reaches.alike`). From there the scanner
consumes the new line without a token, and goes on with the same rounds again.
-/

namespace FrozenScript

open Text

/-- A line that holds nothing but blanks and a comment, with its line break. -/
inductive UnseenLine : List Char → Prop where
  | blank {blanks : List Char} (hblanks : ∀ c ∈ blanks, c = ' ' ∨ c = '\t' ∨ c = '\x0c') :
      UnseenLine (blanks ++ ['\n'])
  | comment {blanks text : List Char} (hblanks : ∀ c ∈ blanks, c = ' ' ∨ c = '\t' ∨ c = '\x0c')
      (htext : ∀ c ∈ text, c ≠ '\n') : UnseenLine (blanks ++ '#' :: text ++ ['\n'])

/-- Whether a kind is a text. -/
def Kind.isText : Kind → Bool
  | text _ => true
  | _ => false

/-- A byte of the source belongs to a text. -/
def InText (tokens : List Token) (offset : Nat) : Prop :=
  ∃ token ∈ tokens, token.kind.isText = true ∧ token.Covers offset

instance (tokens : List Token) (offset : Nat) : Decidable (InText tokens offset) :=
  inferInstanceAs (Decidable (∃ token ∈ tokens, _ ∧ _))

theorem InText.of_subset {tokens more : List Token} {offset : Nat} (h : InText tokens offset)
    (hmore : ∀ token ∈ tokens, token ∈ more) : InText more offset := by
  obtain ⟨token, htoken, hcovers⟩ := h
  exact ⟨token, hmore token htoken, hcovers⟩

theorem StartsLine.of_append {front behind : List Char} (h : StartsLine (front ++ behind)) :
    StartsLine behind := by
  intro c hc
  refine h c ?_
  rw [List.getLast?_append, Option.mem_def.mp hc]
  rfl

/-- In front of the start of a line there is a line break. -/
theorem StartsLine.exists_eq_concat {front : List Char} (h : StartsLine front)
    (hfront : front ≠ []) : ∃ line, front = line ++ ['\n'] := by
  refine ⟨front.dropLast, ?_⟩
  have hlast : front.getLast hfront = '\n' := h _ (List.getLast?_eq_some_getLast hfront)
  rw [← hlast, List.dropLast_concat_getLast]

namespace Lexer

/-! ## Line breaks in a round -/

section

variable {chars rest rest' : List Char} {kind : Kind}

/-- Only a text holds a line break, and no token ends in one. -/
theorem Lexeme.newline_not_mem (h : Lexeme chars rest kind) :
    '\n' ∉ chars ∨ kind.isText = true ∧ chars.getLast? ≠ some '\n' := by
  cases h with
  | integer hdigit hword =>
      have hfirst := isWordChar_of_isDigit hdigit
      exact .inl (not_mem_of_forall (by decide) (List.forall_mem_cons.mpr ⟨hfirst, hword⟩))
  | word hfirst _ hword =>
      exact .inl (not_mem_of_forall (by decide) (List.forall_mem_cons.mpr ⟨hfirst, hword⟩))
  | @text quote body value rest hquote =>
      have hline : quote ≠ '\n' := by rcases hquote with rfl | rfl <;> decide
      refine .inr ⟨rfl, ?_⟩
      rw [List.getLast?_concat]
      simpa using hline
  | symbol => exact .inl (newline_not_mem_spelling _)

theorem Lexeme.getLast?_ne (h : Lexeme chars rest kind) (front : List Char) :
    (front ++ chars).getLast? ≠ some '\n' := by
  rw [List.getLast?_append, List.getLast?_eq_some_getLast h.ne_nil, Option.some_or,
    ← List.getLast?_eq_some_getLast h.ne_nil]
  rcases h.newline_not_mem with hline | ⟨-, hlast⟩
  · exact fun hlast => hline (List.mem_of_getLast? hlast)
  · exact hlast

/-- Of what follows a token only the first character matters. -/
theorem Lexeme.of_head?_eq (h : Lexeme chars rest kind) (hhead : rest'.head? = rest.head?) :
    Lexeme chars rest' kind := by
  cases h with
  | integer hdigit hword hend hvalue => exact .integer hdigit hword (by rwa [hhead]) hvalue
  | word hfirst hdigit hword hend => exact .word hfirst hdigit hword (by rwa [hhead])
  | text hquote hbody => exact .text hquote hbody
  | @symbol c behind rest sign hchars hread =>
      obtain ⟨first, tail, hspelling, -⟩ := exists_spelling_eq_cons sign
      rw [hspelling] at hchars
      obtain ⟨rfl, rfl⟩ := List.cons.inj hchars
      have hsame : readSymbol c (tail ++ rest') = readSymbol c (tail ++ rest) := by
        rw [readSymbol_eq c (tail ++ rest'), readSymbol_eq c (tail ++ rest), List.head?_append,
          List.head?_append, hhead]
      exact .symbol (by rw [hspelling]; rfl) (hsame.trans hread)

end

/-- What a round consumes has no line break inside, unless it is one of a text. Behind a line break
the scanner stands at the start of a line, or between parentheses. -/
structure Moves (state after : State) (chars : List Char) : Prop where
  rest : state.rest = chars ++ after.rest
  cursor : after.cursor = state.cursor.advanceBy chars
  inside : ∀ front behind, chars = front ++ '\n' :: behind → behind ≠ [] →
    InText after.tokens (state.cursor.offset + byteLength front)
  last : chars.getLast? = some '\n' → after.depth ≠ 0 ∨ after.atLineStart = true

namespace Moves

variable {state after : State} {chars : List Char}

/-- Characters without a line break. -/
theorem of_not_mem (h : '\n' ∉ chars) (hrest : state.rest = chars ++ after.rest)
    (hcursor : after.cursor = state.cursor.advanceBy chars) : Moves state after chars := by
  refine ⟨hrest, hcursor, ?_, fun hlast => absurd (List.mem_of_getLast? hlast) h⟩
  rintro front behind rfl
  exact absurd (by simp) h

/-- Characters up to a line break. -/
theorem of_line (h : '\n' ∉ chars) (hrest : state.rest = chars ++ ['\n'] ++ after.rest)
    (hcursor : after.cursor = state.cursor.advanceBy (chars ++ ['\n']))
    (hplace : after.depth ≠ 0 ∨ after.atLineStart = true) :
    Moves state after (chars ++ ['\n']) := by
  refine ⟨hrest, hcursor, fun front behind hsplit hbehind => ?_, fun _ => hplace⟩
  obtain ⟨more, last, rfl⟩ : ∃ more last, behind = more ++ [last] :=
    ⟨_, _, (List.dropLast_concat_getLast hbehind).symm⟩
  rw [← List.cons_append, ← List.append_assoc] at hsplit
  obtain ⟨rfl, -⟩ := List.append_inj' hsplit rfl
  exact absurd (by simp) h

/-- A token, with blanks in front of it. -/
theorem pushLexeme {opened : State} {blanks rest : List Char} {kind : Kind}
    (h : Lexeme chars rest kind) (hblanks : '\n' ∉ blanks)
    (hrest : state.rest = blanks ++ (chars ++ rest))
    (hcursor : opened.cursor = state.cursor.advanceBy blanks) :
    Moves state (opened.pushLexeme chars rest kind) (blanks ++ chars) := by
  have hcursor' : (opened.pushLexeme chars rest kind).cursor =
      state.cursor.advanceBy (blanks ++ chars) := by
    rw [Cursor.advanceBy_append, ← hcursor]
    rfl
  have hrest' : state.rest = blanks ++ chars ++ rest := by rw [hrest, List.append_assoc]
  refine ⟨hrest', hcursor', fun front behind hsplit _ => ?_,
    fun hend => absurd hend (h.getLast?_ne blanks)⟩
  obtain ⟨inner, rfl, hchars⟩ : ∃ inner, front = blanks ++ inner ∧
      chars = inner ++ '\n' :: behind := by
    rcases List.append_eq_append_iff.mp hsplit with ⟨inner, hfront, hchars⟩ |
      ⟨inner, hfront, hchars⟩
    · exact ⟨inner, hfront, hchars⟩
    · cases inner with
      | nil => exact ⟨[], by rw [hfront, List.append_nil, List.append_nil], hchars.symm⟩
      | cons c inner =>
          obtain ⟨rfl, -⟩ := List.cons.inj hchars
          exact absurd (by simp [hfront]) hblanks
  have htext : kind.isText = true := by
    rcases h.newline_not_mem with hline | ⟨htext, -⟩
    · exact absurd (by simp [hchars]) hline
    · exact htext
  have hoffset : opened.cursor.offset = state.cursor.offset + byteLength blanks := by
    rw [hcursor, Cursor.offset_advanceBy]
  rw [tokens_pushLexeme]
  refine ⟨_, List.mem_cons_self, htext, ?_⟩
  have hline : 0 < '\n'.utf8Size := Char.utf8Size_pos _
  unfold Token.Covers Span.stop
  rw [hoffset, hchars, byteLength_append, byteLength_append, byteLength_cons]
  dsimp only
  omega

end Moves

/-- A line without tokens is the last one, or it ends in its only line break. -/
theorem BlankLine.newline {chars rest : List Char} (h : BlankLine chars rest) :
    (rest = [] ∧ '\n' ∉ chars) ∨
      ∃ line, chars = line ++ ['\n'] ∧ '\n' ∉ line ∧ ∀ rest', BlankLine chars rest' := by
  have hindent {blanks : List Char} (hblanks : ∀ c ∈ blanks, isIndentation c = true) :
      '\n' ∉ blanks := not_mem_of_forall (by decide) hblanks
  have hmarked {blanks text : List Char} {mark : Char}
      (hblanks : ∀ c ∈ blanks, isIndentation c = true) (hmark : mark = '#' ∨ mark = '\r')
      (htext : ∀ c ∈ text, c ≠ '\n') : '\n' ∉ blanks ++ mark :: text := by
    have hline : mark ≠ '\n' := by rcases hmark with rfl | rfl <;> decide
    have hnone : '\n' ∉ text := fun hmem => htext _ hmem rfl
    simp [hindent hblanks, hline.symm, hnone]
  cases h with
  | last hblanks => exact .inl ⟨rfl, hindent hblanks⟩
  | empty hblanks =>
      exact .inr ⟨_, rfl, hindent hblanks, fun _ => .empty hblanks⟩
  | comment hblanks hmark htext =>
      exact .inr ⟨_, rfl, hmarked hblanks hmark htext, fun _ => .comment hblanks hmark htext⟩
  | lastComment hblanks hmark htext => exact .inl ⟨rfl, hmarked hblanks hmark htext⟩

theorem Scans.moves {state after : State} (h : Scans state after) :
    ∃ chars, Moves state after chars := by
  cases h with
  | done => exact ⟨[], .of_not_mem nofun rfl rfl⟩
  | @blank c rest hrest hblank =>
      have hline : '\n' ∉ [c] := by
        intro hmem
        obtain rfl := List.mem_singleton.mp hmem
        exact absurd hblank (by decide)
      exact ⟨[c], .of_not_mem hline hrest rfl⟩
  | @comment text rest hrest htext =>
      have hline : '\n' ∉ '#' :: text := by simpa using fun hmem => htext _ hmem rfl
      exact ⟨'#' :: text, .of_not_mem hline hrest rfl⟩
  | joined hrest hdepth =>
      exact ⟨[] ++ ['\n'], .of_line List.not_mem_nil hrest rfl (.inl hdepth)⟩
  | newline hrest => exact ⟨[] ++ ['\n'], .of_line List.not_mem_nil hrest rfl (.inr rfl)⟩
  | lexeme hrest hlexeme => exact ⟨_, .pushLexeme hlexeme List.not_mem_nil hrest rfl⟩

theorem Round.moves {state after : State} (h : Round state after) :
    ∃ chars, Moves state after chars := by
  cases h with
  | within _ hscan => exact hscan.moves
  | @blankLine chars rest hstart _ hrest hblank =>
      refine ⟨chars, ?_⟩
      rcases hblank.newline with ⟨-, hline⟩ | ⟨line, rfl, hline, -⟩
      · exact .of_not_mem hline hrest rfl
      · exact .of_line hline hrest rfl (.inr hstart)
  | @line blanks behind chars rest opened kind _ _ hrest hblanks hopens hbehind hlexeme =>
      rw [hbehind] at hrest
      have hline : '\n' ∉ blanks := not_mem_of_forall (by decide) hblanks
      exact ⟨_, .pushLexeme hlexeme hline hrest hopens.cursor_eq⟩

/-! ## The place of a line -/

/-- A round goes past a line break only if it is one of a text. -/
theorem Moves.exists_behind {state following : State} {chars line after : List Char}
    (h : Moves state following chars) (hrest : state.rest = line ++ ['\n'] ++ after)
    (houtside : ¬ InText following.tokens (state.cursor.offset + byteLength line)) :
    ∃ behind, line ++ ['\n'] = chars ++ behind ∧ following.rest = behind ++ after := by
  rcases List.append_eq_append_iff.mp (hrest.symm.trans h.rest) with
    ⟨more, hchars, hafter⟩ | ⟨behind, hbehind, hleft⟩
  · have hmore : more = [] := by
      refine Decidable.byContradiction fun hmore => ?_
      have hbreak : chars = line ++ '\n' :: more := by rw [hchars, List.append_assoc]; rfl
      exact houtside (h.inside line more hbreak hmore)
    subst hmore
    exact ⟨[], by rw [hchars, List.append_nil, List.append_nil], hafter.symm⟩
  · exact ⟨behind, hbehind, hleft⟩

/-- The scanner comes to every place where a line starts, unless it is inside a text. -/
theorem exists_boundary {state last : State} (h : Reaches state last) (hlast : last.rest = [])
    {front after : List Char} (hrest : state.rest = front ++ after) (hstart : StartsLine front)
    (hplace : front = [] → state.depth ≠ 0 ∨ state.atLineStart = true)
    (houtside : ∀ offset, offset + 1 = state.cursor.offset + byteLength front →
      ¬ InText last.tokens offset) :
    ∃ boundary, Reaches state boundary ∧ boundary.rest = after ∧
      (boundary.depth ≠ 0 ∨ boundary.atLineStart = true) ∧ Reaches boundary last := by
  induction h generalizing front with
  | refl state =>
      obtain ⟨rfl, rfl⟩ := List.append_eq_nil_iff.mp (hrest.symm.trans hlast)
      exact ⟨state, .refl state, hrest, hplace rfl, .refl state⟩
  | @step state following last hne hstep hreach ih =>
      by_cases hfront : front = []
      · subst hfront
        exact ⟨state, .refl state, hrest, hplace rfl, .step hne hstep hreach⟩
      obtain ⟨line, rfl⟩ := hstart.exists_eq_concat hfront
      obtain ⟨chars, hmoves⟩ := (round_of_step hstep).moves
      have hbreak : ¬ InText following.tokens (state.cursor.offset + byteLength line) := by
        intro hinside
        refine houtside _ ?_ (hinside.of_subset fun _ => hreach.mem_tokens)
        rw [byteLength_append, Nat.add_assoc]
        rfl
      obtain ⟨behind, hbehind, hleft⟩ := hmoves.exists_behind hrest hbreak
      rw [hbehind] at hstart houtside
      have hplace' : behind = [] → following.depth ≠ 0 ∨ following.atLineStart = true := by
        rintro rfl
        rw [List.append_nil] at hbehind
        exact hmoves.last (by rw [← hbehind, List.getLast?_concat])
      have houtside' : ∀ offset, offset + 1 = following.cursor.offset + byteLength behind →
          ¬ InText last.tokens offset := by
        intro offset hoffset
        rw [hmoves.cursor, Cursor.offset_advanceBy, Nat.add_assoc, ← byteLength_append] at hoffset
        exact houtside offset hoffset
      obtain ⟨boundary, hreaches, hboundary⟩ := ih hlast hleft hstart.of_append hplace' houtside'
      exact ⟨boundary, .step hne hstep hreaches, hboundary⟩

/-! ## The same rounds elsewhere -/

/-- Two states with the same kinds of tokens, in the same blocks and parentheses. -/
structure Alike (state state' : State) : Prop where
  blocks : state'.blocks = state.blocks
  depth : state'.depth = state.depth
  atLineStart : state'.atLineStart = state.atLineStart
  kinds : state'.tokens.map Token.kind = state.tokens.map Token.kind

namespace Alike

variable {state state' : State}

theorem consume (h : Alike state state') (chars rest chars' rest' : List Char) :
    Alike (state.consume chars rest) (state'.consume chars' rest') :=
  ⟨h.blocks, h.depth, h.atLineStart, h.kinds⟩

theorem push (h : Alike state state') (kind : Kind) (start start' : Cursor) :
    Alike (state.push kind start) (state'.push kind start') :=
  ⟨h.blocks, h.depth, h.atLineStart, congrArg (kind :: ·) h.kinds⟩

theorem pushLexeme (h : Alike state state') (chars rest rest' : List Char) (kind : Kind) :
    Alike (state.pushLexeme chars rest kind) (state'.pushLexeme chars rest' kind) :=
  ⟨h.blocks, congrArg kind.depthAfter h.depth, h.atLineStart, congrArg (kind :: ·) h.kinds⟩

/-- The tokens that close what is open are of the same kinds. -/
theorem finish (h : Alike state state') :
    (finish state').map Token.kind = (finish state).map Token.kind := by
  rw [finish_eq, finish_eq, List.map_append, List.map_append, List.map_reverse, List.map_reverse,
    h.kinds]
  unfold State.closing
  rw [h.atLineStart, h.blocks]
  split <;> simp [State.emptyToken]

end Alike

section

variable {state state' after : State}

theorem Opens.alike {width : Nat} {start : Cursor} (h : Opens width start state after)
    (halike : Alike state state') (start' : Cursor) :
    ∃ after', Opens width start' state' after' ∧ Alike after after' := by
  cases h with
  | deeper hwidth =>
      have hindentation : state'.indentation = state.indentation := by
        rw [State.indentation, State.indentation, halike.blocks]
      have hopened : Alike { state with atLineStart := false, blocks := width :: state.blocks }
          { state' with atLineStart := false, blocks := width :: state'.blocks } :=
        ⟨congrArg (width :: ·) halike.blocks, halike.depth, rfl, halike.kinds⟩
      exact ⟨_, .deeper (by rwa [hindentation]), hopened.push .indent start start'⟩
  | level hblocks hclosed hwidth =>
      refine ⟨_, .level (halike.blocks.trans hblocks) hclosed hwidth, rfl, halike.depth, rfl, ?_⟩
      simp [halike.kinds, State.emptyToken]

variable {chars more : List Char}

theorem Scans.alike (h : Scans state after) (halike : Alike state state') (hchars : chars ≠ [])
    (hrest : state.rest = chars ++ after.rest) (hrest' : state'.rest = chars ++ more)
    (hfollow : chars.getLast? = some '\n' ∨ more.head? = after.rest.head?) :
    ∃ after', Scans state' after' ∧ Alike after after' ∧ after'.rest = more := by
  cases h with
  | done => exact absurd (List.append_left_eq_self.mp hrest.symm) hchars
  | @blank c rest hsplit hblank =>
      obtain rfl : chars = [c] := List.append_cancel_right (hrest.symm.trans hsplit)
      exact ⟨_, .blank hrest' hblank, halike.consume _ _ _ _, rfl⟩
  | @comment text rest hsplit htext hend =>
      obtain rfl := List.append_cancel_right (hrest.symm.trans hsplit)
      have hline : ('#' :: text).getLast? ≠ some '\n' := fun hlast =>
        List.forall_mem_cons.mpr ⟨by decide, htext⟩ _ (List.mem_of_getLast? hlast) rfl
      have hhead : more.head? = rest.head? := hfollow.resolve_left hline
      exact ⟨_, .comment hrest' htext (by rwa [hhead]), halike.consume _ _ _ _, rfl⟩
  | @joined rest hsplit hdepth =>
      obtain rfl : chars = ['\n'] := List.append_cancel_right (hrest.symm.trans hsplit)
      have hdepth' : state'.depth ≠ 0 := by rwa [halike.depth]
      exact ⟨_, .joined hrest' hdepth', halike.consume _ _ _ _, rfl⟩
  | @newline rest hsplit hdepth =>
      obtain rfl : chars = ['\n'] := List.append_cancel_right (hrest.symm.trans hsplit)
      have hdepth' : state'.depth = 0 := by rwa [halike.depth]
      have hconsume := halike.consume ['\n'] rest ['\n'] more
      have hpush := hconsume.push .newline state.cursor state'.cursor
      exact ⟨_, .newline hrest' hdepth', ⟨hpush.blocks, hpush.depth, rfl, hpush.kinds⟩, rfl⟩
  | @lexeme chars' rest kind hsplit hlexeme =>
      obtain rfl := List.append_cancel_right (hrest.symm.trans hsplit)
      have hhead := hfollow.resolve_left (hlexeme.getLast?_ne [])
      exact ⟨_, .lexeme hrest' (hlexeme.of_head?_eq hhead), halike.pushLexeme _ _ _ _, rfl⟩

/-- A round is made in front of anything that starts like what was left before. What is left behind
a line break does not matter to it. -/
theorem Round.alike (h : Round state after) (halike : Alike state state') (hchars : chars ≠ [])
    (hrest : state.rest = chars ++ after.rest) (hrest' : state'.rest = chars ++ more)
    (hfollow : chars.getLast? = some '\n' ∨ more.head? = after.rest.head?) :
    ∃ after', Round state' after' ∧ Alike after after' ∧ after'.rest = more := by
  cases h with
  | within hplace hscan =>
      obtain ⟨after', hscan', hafter⟩ := hscan.alike halike hchars hrest hrest' hfollow
      exact ⟨after', .within (by rwa [halike.atLineStart, halike.depth]) hscan', hafter⟩
  | @blankLine chars' rest hstart hdepth hsplit hblank =>
      obtain rfl := List.append_cancel_right (hrest.symm.trans hsplit)
      have hblank' : BlankLine chars more := by
        rcases hblank.newline with ⟨rfl, hline⟩ | ⟨-, -, -, hany⟩
        · have hhead := hfollow.resolve_left fun hlast => hline (List.mem_of_getLast? hlast)
          rwa [List.head?_eq_none_iff.mp hhead]
        · exact hany more
      exact ⟨_, .blankLine (halike.atLineStart.trans hstart) (halike.depth.trans hdepth) hrest'
        hblank', halike.consume _ _ _ _, rfl⟩
  | @line blanks behind chars' rest opened kind hstart hdepth hsplit hblanks hopens hbehind
      hlexeme =>
      rw [hbehind, ← List.append_assoc] at hsplit
      obtain rfl : chars = blanks ++ chars' := List.append_cancel_right (hrest.symm.trans hsplit)
      have hhead : more.head? = rest.head? := hfollow.resolve_left (hlexeme.getLast?_ne blanks)
      rw [List.append_assoc] at hrest'
      obtain ⟨opened', hopens', hopened⟩ :=
        hopens.alike (halike.consume blanks behind blanks (chars' ++ more)) state'.cursor
      exact ⟨_, .line (halike.atLineStart.trans hstart) (halike.depth.trans hdepth) hrest' hblanks
        hopens' rfl (hlexeme.of_head?_eq hhead), hopened.pushLexeme _ _ _ _, rfl⟩

/-- Rounds up to the start of a line are made in front of anything, and rounds up to the end of the
source in front of its end. -/
theorem Reaches.alike {last : State} (h : Reaches state last) (halike : Alike state state')
    {front : List Char} (hrest : state.rest = front ++ last.rest)
    (hrest' : state'.rest = front ++ more)
    (hfollow : StartsLine front ∨ more.head? = last.rest.head?) :
    ∃ last', Reaches state' last' ∧ Alike last last' ∧ last'.rest = more := by
  induction h generalizing state' front with
  | refl state =>
      obtain rfl : front = [] := List.append_left_eq_self.mp hrest.symm
      exact ⟨state', .refl state', halike, hrest'⟩
  | @step state following last hne hstep hreach ih =>
      have hround := round_of_step hstep
      obtain ⟨chars, hchars, -, hsome⟩ := hround.consumes
      obtain ⟨behind, hbehind, -⟩ := hreach.consumes
      rw [hbehind, ← List.append_assoc] at hchars
      obtain rfl : front = chars ++ behind := List.append_cancel_right (hrest.symm.trans hchars)
      rw [List.append_assoc] at hrest' hchars
      rw [← hbehind] at hchars
      have hfollow' : chars.getLast? = some '\n' ∨
          (behind ++ more).head? = following.rest.head? := by
        rw [hbehind]
        cases behind with
        | cons c behind => exact .inr rfl
        | nil =>
            refine hfollow.imp (fun hstart => ?_) id
            rw [List.append_nil] at hstart
            rw [List.getLast?_eq_some_getLast (hsome hne)]
            exact congrArg some (hstart _ (List.getLast?_eq_some_getLast (hsome hne)))
      obtain ⟨following', hround', hfollowing, hleft⟩ :=
        hround.alike halike (hsome hne) hchars hrest' hfollow'
      obtain ⟨last', hreach', hlast⟩ :=
        ih hfollowing hbehind hleft (hfollow.imp StartsLine.of_append id)
      have hne' : state'.rest ≠ [] := by
        rw [hrest']
        exact List.append_ne_nil_of_left_ne_nil (hsome hne) _
      exact ⟨last', .step hne' (step_of_round hround') hreach', hlast⟩

end

/-! ## Consuming a line without tokens -/

section

variable {state after : State} {rest : List Char}

theorem reaches_of_scans (h : Scans state after) (hrest : state.rest ≠ [])
    (hdepth : state.depth ≠ 0) : Reaches state after :=
  .step hrest (step_of_round (.within (fun hplace => hdepth hplace.2) h)) (.refl after)

/-- Between parentheses blanks are consumed one by one. -/
theorem reaches_blanks {blanks : List Char}
    (hblanks : ∀ c ∈ blanks, c = ' ' ∨ c = '\t' ∨ c = '\x0c')
    (hdepth : state.depth ≠ 0) (hrest : state.rest = blanks ++ rest) :
    Reaches state (state.consume blanks rest) := by
  induction blanks generalizing state with
  | nil =>
      obtain ⟨chars, cursor, blocks, depth, atLineStart, tokens⟩ := state
      obtain rfl : chars = rest := hrest
      exact .refl _
  | cons c blanks ih =>
      obtain ⟨hblank, hblanks⟩ := List.forall_mem_cons.mp hblanks
      have hskipped : isSkipped c = true := by
        rw [isSkipped, isIndentation_iff.mpr hblank, Bool.true_or]
      have hfirst := reaches_of_scans (.blank hrest hskipped) (by simp [hrest]) hdepth
      have hothers := hfirst.trans (ih hblanks hdepth rfl)
      rwa [consume_consume] at hothers

/-- A line of blanks with a comment is consumed, at the start of a line as a whole, and between
parentheses piece by piece. -/
theorem reaches_unseenLine {line : List Char} (h : UnseenLine line)
    (hplace : state.depth ≠ 0 ∨ state.atLineStart = true) (hrest : state.rest = line ++ rest) :
    Reaches state (state.consume line rest) := by
  have hne : state.rest ≠ [] := by
    rw [hrest]
    cases h <;> simp
  by_cases hdepth : state.depth = 0
  · have hstart := hplace.resolve_left fun hopen => hopen hdepth
    have hblank : BlankLine line rest := by
      cases h with
      | blank hblanks => exact .empty fun c hc => isIndentation_iff.mpr (hblanks c hc)
      | comment hblanks htext =>
          exact .comment (fun c hc => isIndentation_iff.mpr (hblanks c hc)) (.inl rfl) htext
    exact .step hne (step_of_round (.blankLine hstart hdepth hrest hblank)) (.refl _)
  have hbreak (chars : List Char) :
      Reaches (state.consume chars ('\n' :: rest)) (state.consume (chars ++ ['\n']) rest) := by
    rw [← consume_consume]
    exact reaches_of_scans (.joined rfl hdepth) (List.cons_ne_nil _ _) hdepth
  cases h with
  | blank hblanks =>
      rw [List.append_assoc] at hrest
      exact (reaches_blanks hblanks hdepth hrest).trans (hbreak _)
  | @comment blanks text hblanks htext =>
      simp only [List.append_assoc] at hrest
      have hcomment : Reaches (state.consume blanks ('#' :: text ++ '\n' :: rest))
          (state.consume (blanks ++ '#' :: text) ('\n' :: rest)) := by
        rw [← consume_consume]
        exact reaches_of_scans (.comment rfl htext fun _ hc => (Option.some.inj hc).symm)
          (List.cons_ne_nil _ _) hdepth
      exact ((reaches_blanks hblanks hdepth hrest).trans hcomment).trans (hbreak _)

end

end Lexer

/-! ## Whole sources -/

/-- A line that holds nothing but blanks and a comment does not change the tokens of a source. It
may stand in front of every line of the source, unless the line break there is inside a text. -/
theorem lex_unseen_line {before line after : String} {tokens : List Token}
    (h : lex (before ++ after) = .ok tokens) (hstart : StartsLine before.toList)
    (houtside : ∀ offset, offset + 1 = before.utf8ByteSize → ¬ InText tokens offset)
    (hline : UnseenLine line.toList) :
    ∃ tokens', lex (before ++ line ++ after) = .ok tokens' ∧
      tokens'.map Token.kind = tokens.map Token.kind := by
  obtain ⟨last, hreach, hlast, -, rfl⟩ := exists_of_lex h
  have hrest : (Lexer.initial (before ++ after)).rest = before.toList ++ after.toList :=
    String.toList_append
  have hrest' : (Lexer.initial (before ++ line ++ after)).rest =
      before.toList ++ (line.toList ++ after.toList) := by
    rw [Lexer.initial, String.toList_append, String.toList_append, List.append_assoc]
  have houtside' : ∀ offset, offset + 1 = 0 + byteLength before.toList →
      ¬ InText last.tokens offset := by
    intro offset hoffset hinside
    rw [Nat.zero_add, byteLength_toList] at hoffset
    exact houtside offset hoffset (hinside.of_subset (by simp +contextual))
  obtain ⟨boundary, hbefore, hboundary, hplace, hafter⟩ :=
    Lexer.exists_boundary hreach hlast hrest hstart (fun _ => .inr rfl) houtside'
  have hinitial : Lexer.Alike (Lexer.initial (before ++ after))
      (Lexer.initial (before ++ line ++ after)) := ⟨rfl, rfl, rfl, rfl⟩
  -- The same rounds lead to the new line, and behind it to the end of the source.
  obtain ⟨boundary', hbefore', halike, hleft⟩ :=
    hbefore.alike hinitial (by rw [hrest, hboundary]) hrest' (.inl hstart)
  rw [← halike.depth, ← halike.atLineStart] at hplace
  have hunseen := Lexer.reaches_unseenLine hline hplace hleft
  have halike' : Lexer.Alike boundary (boundary'.consume line.toList after.toList) :=
    ⟨halike.blocks, halike.depth, halike.atLineStart, halike.kinds⟩
  have hleft' : boundary.rest = after.toList ++ last.rest := by
    rw [hboundary, hlast, List.append_nil]
  obtain ⟨last', hafter', hsame, hend⟩ :=
    hafter.alike halike' hleft' (List.append_nil _).symm (.inr (by rw [hlast]))
  have hall := (hbefore'.trans hunseen).trans hafter'
  refine ⟨Lexer.finish last', ?_, ?_⟩
  · rw [lex_eq_tokensFrom, hall.tokensFrom_eq, Lexer.tokensFrom_of_nil hend]
  · rw [hsame.finish, Lexer.finish_eq]

/-- Between parentheses a comment may hold a parenthesis, on a line that is indented by a tab. -/
theorem lex_unseen_line_open_paren :
    ∃ tokens, lex ("f(\n" ++ "\t# )\n" ++ "2)\n") = .ok tokens ∧ tokens.map Token.kind =
      [.identifier "f", .symbol .openParen, .integer 2, .symbol .closeParen, .newline,
        .endOfFile] := by
  have hlex : lex ("f(\n" ++ "2)\n") = .ok [⟨.identifier "f", ⟨0, 1⟩, 1, 1⟩,
      ⟨.symbol .openParen, ⟨1, 1⟩, 1, 2⟩, ⟨.integer 2, ⟨3, 1⟩, 2, 1⟩,
      ⟨.symbol .closeParen, ⟨4, 1⟩, 2, 2⟩, ⟨.newline, ⟨5, 1⟩, 2, 3⟩, ⟨.endOfFile, ⟨6, 0⟩, 3, 1⟩] :=
    eq_ok_of_toOption (by decide +kernel)
  have hstart : StartsLine "f(\n".toList := fun c hc => (Option.some.inj hc).symm
  have hblanks : ∀ c ∈ ['\t'], c = ' ' ∨ c = '\t' ∨ c = '\x0c' := by simp
  have htext : ∀ c ∈ [' ', ')'], c ≠ '\n' := by simp
  refine lex_unseen_line hlex hstart (fun offset hoffset => ?_) (.comment hblanks htext)
  obtain rfl : offset = 2 := Nat.succ.inj hoffset
  decide

end FrozenScript
