import FrozenScript.Proofs.Token.Round

/-!
# What the tokens leave out

The bytes of a source that no token holds are layout: blanks, line breaks and comments. There is one
exception. At the start of a line a carriage return hides what is left of the line, whether it is
blank or not. The main statement, `lex_leaves_out`, lists what is left out, and
`carriage_return_hides_code` is a source of which a statement is left out.

The proof follows the rounds of the scanner. `Accounts` says of the characters consumed so far that
each of their bytes is held by a token or belongs to a gap between the tokens.
-/

namespace FrozenScript

open Text

/-- A token holds a byte of the source. -/
def Token.Covers (token : Token) (offset : Nat) : Prop :=
  token.span.offset ≤ offset ∧ offset < token.span.stop

instance (token : Token) (offset : Nat) : Decidable (token.Covers offset) :=
  inferInstanceAs (Decidable (_ ∧ _))

/-- A blank, a line break, or a comment up to the end of its line, in front of the rest of the
source. -/
inductive Layout : (skipped rest : List Char) → Prop where
  | blank {c : Char} {rest : List Char} (hblank : c = ' ' ∨ c = '\t' ∨ c = '\x0c' ∨ c = '\r') :
      Layout [c] rest
  | newline {rest : List Char} : Layout ['\n'] rest
  | comment {text rest : List Char} (htext : ∀ c ∈ text, c ≠ '\n')
      (hend : ∀ c ∈ rest.head?, c = '\n') : Layout ('#' :: text) rest

/-- Behind some characters a line starts. -/
def StartsLine (before : List Char) : Prop :=
  ∀ c ∈ before.getLast?, c = '\n'

/-- The rest of a line from a carriage return on, if only indentation stands before it. -/
inductive Hidden : (before skipped rest : List Char) → Prop where
  | intro {before blanks text rest : List Char} (hstart : StartsLine before)
      (hblanks : ∀ c ∈ blanks, c = ' ' ∨ c = '\t' ∨ c = '\x0c') (htext : ∀ c ∈ text, c ≠ '\n')
      (hend : ∀ c ∈ rest.head?, c = '\n') : Hidden (before ++ blanks) ('\r' :: text) rest

/-- Characters of a source that no token holds. -/
structure Gap (tokens : List Token) (before skipped rest : List Char) : Prop where
  reason : Layout skipped rest ∨ Hidden before skipped rest
  uncovered : ∀ offset, byteLength before ≤ offset → offset < byteLength (before ++ skipped) →
    ∀ token ∈ tokens, ¬ token.Covers offset

/-- Each byte of the characters consumed so far is held by a token or belongs to a gap. -/
structure Accounts (consumed rest : List Char) (tokens : List Token) : Prop where
  behind : ∀ token ∈ tokens, token.span.stop ≤ byteLength consumed
  accounted : ∀ offset < byteLength consumed, (∃ token ∈ tokens, token.Covers offset) ∨
    ∃ before skipped between, consumed = before ++ skipped ++ between ∧
      byteLength before ≤ offset ∧ offset < byteLength (before ++ skipped) ∧
      Gap tokens before skipped (between ++ rest)

/-! ## The characters consumed so far -/

namespace Accounts

variable {consumed rest : List Char} {tokens : List Token}

theorem nil (rest : List Char) : Accounts [] rest [] :=
  ⟨nofun, nofun⟩

/-- Characters without a token are a gap. -/
theorem skip (skipped : List Char) (h : Accounts consumed (skipped ++ rest) tokens)
    (hreason : Layout skipped rest ∨ Hidden consumed skipped rest) :
    Accounts (consumed ++ skipped) rest tokens := by
  refine ⟨fun token htoken => ?_, fun offset hoffset => ?_⟩
  · have hbehind := h.behind token htoken
    rw [byteLength_append]
    omega
  rcases Nat.lt_or_ge offset (byteLength consumed) with hearlier | hnew
  · rcases h.accounted offset hearlier with hcovered |
      ⟨before, gap, between, rfl, hstart, hstop, hgap⟩
    · exact .inl hcovered
    · refine .inr ⟨before, gap, between ++ skipped, ?_, hstart, hstop, ?_⟩
      · rw [List.append_assoc _ between]
      · rw [List.append_assoc between]
        exact hgap
  · refine .inr ⟨consumed, skipped, [], (List.append_nil _).symm, hnew, hoffset, hreason, ?_⟩
    intro other hother _ token htoken hcovers
    have hbehind := h.behind token htoken
    have hstop : other < token.span.stop := hcovers.2
    omega

/-- The bytes of a token are held by it, and they are in no earlier gap. -/
theorem token (chars : List Char) {token : Token} (h : Accounts consumed (chars ++ rest) tokens)
    (hspan : token.span = ⟨byteLength consumed, byteLength chars⟩) :
    Accounts (consumed ++ chars) rest (token :: tokens) := by
  have hstop : token.span.stop = byteLength consumed + byteLength chars := by
    rw [hspan]
    rfl
  have hstart : token.span.offset = byteLength consumed := by rw [hspan]
  refine ⟨fun other hother => ?_, fun offset hoffset => ?_⟩
  · rw [byteLength_append]
    rcases List.mem_cons.mp hother with rfl | hother
    · exact Nat.le_of_eq hstop
    · have hbehind := h.behind other hother
      omega
  rcases Nat.lt_or_ge offset (byteLength consumed) with hearlier | hnew
  · rcases h.accounted offset hearlier with ⟨other, hother, hcovers⟩ |
      ⟨before, gap, between, rfl, hfrom, hto, hgap⟩
    · exact .inl ⟨other, List.mem_cons_of_mem _ hother, hcovers⟩
    · refine .inr ⟨before, gap, between ++ chars, ?_, hfrom, hto, ?_, ?_⟩
      · rw [List.append_assoc _ between]
      · rw [List.append_assoc between]
        exact hgap.reason
      · intro other hother hwithin earlier hmem hcovers
        rcases List.mem_cons.mp hmem with rfl | hmem
        · have hlater : earlier.span.offset ≤ other := hcovers.1
          rw [byteLength_append _ between] at hstart
          omega
        · exact hgap.uncovered other hother hwithin earlier hmem hcovers
  · rw [byteLength_append, ← hstop] at hoffset
    exact .inl ⟨token, List.mem_cons_self, by omega, hoffset⟩

/-- Empty tokens hold nothing. -/
theorem empties (more : List Token) (h : Accounts consumed rest tokens)
    (hspan : ∀ token ∈ more, token.span = ⟨byteLength consumed, 0⟩) :
    Accounts consumed rest (more ++ tokens) := by
  induction more with
  | nil => exact h
  | cons token more ih =>
      obtain ⟨hfirst, hmore⟩ := List.forall_mem_cons.mp hspan
      have hempty := (ih hmore).token [] hfirst
      rwa [List.append_nil] at hempty

theorem blanks {blanks : List Char} (h : Accounts consumed (blanks ++ rest) tokens)
    (hblanks : ∀ c ∈ blanks, Lexer.isIndentation c = true) :
    Accounts (consumed ++ blanks) rest tokens := by
  induction blanks generalizing consumed with
  | nil => rwa [List.append_nil]
  | cons c blanks ih =>
      obtain ⟨hfirst, hrest⟩ := List.forall_mem_cons.mp hblanks
      have hskipped : Lexer.isSkipped c = true := by rw [Lexer.isSkipped, hfirst, Bool.true_or]
      have hfurther := ih (h.skip [c] (.inl (.blank (Lexer.isSkipped_iff.mp hskipped)))) hrest
      rwa [List.append_assoc] at hfurther

/-- A line without tokens is a gap, or several ones. -/
theorem blankLine {chars : List Char} (h : Accounts consumed (chars ++ rest) tokens)
    (hblank : Lexer.BlankLine chars rest) (hstart : StartsLine consumed) :
    Accounts (consumed ++ chars) rest tokens := by
  have hmarked {blanks text rest : List Char} {mark : Char}
      (h : Accounts consumed (blanks ++ (mark :: text ++ rest)) tokens)
      (hblanks : ∀ c ∈ blanks, Lexer.isIndentation c = true) (hmark : mark = '#' ∨ mark = '\r')
      (htext : ∀ c ∈ text, c ≠ '\n') (hend : ∀ c ∈ rest.head?, c = '\n') :
      Accounts (consumed ++ (blanks ++ mark :: text)) rest tokens := by
    rw [← List.append_assoc]
    refine (h.blanks hblanks).skip _ ?_
    rcases hmark with rfl | rfl
    · exact .inl (.comment htext hend)
    · have hindent := fun c hc => Lexer.isIndentation_iff.mp (hblanks c hc)
      exact .inr (.intro hstart hindent htext hend)
  cases hblank with
  | last hblanks => exact h.blanks hblanks
  | empty hblanks =>
      rw [List.append_assoc] at h
      have hnewline := (h.blanks hblanks).skip ['\n'] (.inl .newline)
      rwa [List.append_assoc] at hnewline
  | comment hblanks hmark htext =>
      simp only [List.append_assoc] at h
      have hcomment := hmarked h hblanks hmark htext fun c hc => (Option.some.inj hc).symm
      have hnewline := hcomment.skip ['\n'] (.inl .newline)
      rwa [List.append_assoc] at hnewline
  | lastComment hblanks hmark htext =>
      rw [List.append_assoc] at h
      exact hmarked h hblanks hmark htext nofun

end Accounts

/-- Only the last line of a source may be blank without a line break. -/
theorem startsLine_of_blankLine {before chars rest : List Char}
    (hblank : Lexer.BlankLine chars rest) (hrest : rest ≠ []) : StartsLine (before ++ chars) := by
  cases hblank with
  | last | lastComment => exact absurd rfl hrest
  | empty | comment =>
      intro c hc
      rw [← List.append_assoc, List.getLast?_concat] at hc
      exact (Option.some.inj hc).symm

namespace Lexer

/-! ## Rounds -/

/-- What the scanner has consumed of a source is accounted for by the tokens so far. -/
structure Accounted (source consumed : List Char) (state : State) : Prop where
  split : source = consumed ++ state.rest
  offset : state.cursor.offset = byteLength consumed
  accounts : Accounts consumed state.rest state.tokens
  line : state.atLineStart = true → state.depth = 0 ∧ (state.rest ≠ [] → StartsLine consumed)

theorem accounted_initial (source : String) : Accounted source.toList [] (initial source) :=
  ⟨rfl, rfl, .nil _, fun _ => ⟨rfl, fun _ => nofun⟩⟩

theorem spanTo_advanceBy_eq (cursor : Cursor) (chars : List Char) :
    cursor.spanTo (cursor.advanceBy chars) = ⟨cursor.offset, byteLength chars⟩ := by
  rw [Cursor.spanTo, Cursor.offset_advanceBy, Span.between, Nat.add_sub_cancel_left]

/-- The span of a token that is added behind its characters. -/
theorem spanTo_advanceBy {cursor : Cursor} {consumed : List Char}
    (h : cursor.offset = byteLength consumed) (chars : List Char) :
    cursor.spanTo (cursor.advanceBy chars) = ⟨byteLength consumed, byteLength chars⟩ := by
  rw [spanTo_advanceBy_eq, h]

theorem tokens_pushLexeme (state : State) (chars rest : List Char) (kind : Kind) :
    (state.pushLexeme chars rest kind).tokens =
      ⟨kind, ⟨state.cursor.offset, byteLength chars⟩, state.cursor.line, state.cursor.column⟩ ::
        state.tokens := by
  rw [← spanTo_advanceBy_eq]
  rfl

theorem offset_consume {state : State} {consumed : List Char}
    (h : state.cursor.offset = byteLength consumed) (chars rest : List Char) :
    (state.consume chars rest).cursor.offset = byteLength (consumed ++ chars) := by
  rw [byteLength_append, ← h]
  exact Cursor.offset_advanceBy state.cursor chars

/-- The indentation of a line is held by the token that opens a block, or it is a gap. -/
theorem Opens.accounts {state opened : State} {width : Nat} {consumed blanks behind : List Char}
    (h : Opens width state.cursor (state.consume blanks behind) opened)
    (hoffset : state.cursor.offset = byteLength consumed)
    (haccounts : Accounts consumed (blanks ++ behind) state.tokens)
    (hblanks : ∀ c ∈ blanks, isIndentation c = true) :
    Accounts (consumed ++ blanks) behind opened.tokens := by
  cases h with
  | deeper => exact haccounts.token blanks (spanTo_advanceBy hoffset blanks)
  | level =>
      refine (haccounts.blanks hblanks).empties _ fun token htoken => ?_
      rw [List.eq_of_mem_replicate htoken]
      exact spanTo_advanceBy (offset_consume hoffset blanks behind) []

namespace Accounted

variable {source consumed : List Char} {state after : State}

theorem consume {chars rest : List Char} (h : Accounted source consumed state)
    (hrest : state.rest = chars ++ rest)
    (haccounts : Accounts (consumed ++ chars) rest state.tokens)
    (hline : state.atLineStart = true → rest ≠ [] → StartsLine (consumed ++ chars)) :
    Accounted source (consumed ++ chars) (state.consume chars rest) := by
  refine ⟨?_, offset_consume h.offset chars rest, haccounts,
    fun hstart => ⟨(h.line hstart).1, hline hstart⟩⟩
  rw [h.split, hrest, List.append_assoc]
  rfl

/-- A token within a line. -/
theorem lexeme {chars rest : List Char} (h : Accounted source consumed state)
    (hwithin : state.atLineStart = false) (hrest : state.rest = chars ++ rest) (kind : Kind) :
    Accounted source (consumed ++ chars) (state.pushLexeme chars rest kind) := by
  have haccounts := h.accounts
  rw [hrest] at haccounts
  refine ⟨?_, offset_consume h.offset chars rest,
    haccounts.token chars (spanTo_advanceBy h.offset chars), fun hstart => ?_⟩
  · rw [h.split, hrest, List.append_assoc]
    rfl
  · exact absurd (hwithin.symm.trans hstart) Bool.false_ne_true

/-- A line break that ends a line. -/
theorem newline {rest : List Char} (h : Accounted source consumed state)
    (hrest : state.rest = '\n' :: rest) (hdepth : state.depth = 0) :
    Accounted source (consumed ++ ['\n'])
      { (state.consume ['\n'] rest).push .newline state.cursor with atLineStart := true } := by
  have haccounts := h.accounts
  rw [hrest] at haccounts
  refine ⟨?_, offset_consume h.offset ['\n'] rest,
    haccounts.token ['\n'] (spanTo_advanceBy h.offset ['\n']), fun _ => ⟨hdepth, ?_⟩⟩
  · rw [h.split, hrest, List.append_assoc]
    rfl
  · intro _ c hc
    rw [List.getLast?_concat] at hc
    exact (Option.some.inj hc).symm

/-- Within a line every round accounts for what it consumes. -/
theorem scans (h : Accounted source consumed state) (hwithin : state.atLineStart = false)
    (hscan : Scans state after) : ∃ consumed, Accounted source consumed after := by
  have hskip {chars rest : List Char} (hrest : state.rest = chars ++ rest)
      (hlayout : Layout chars rest) :
      ∃ consumed, Accounted source consumed (state.consume chars rest) := by
    have haccounts := h.accounts
    rw [hrest] at haccounts
    refine ⟨_, h.consume hrest (haccounts.skip chars (.inl hlayout)) fun hstart => ?_⟩
    exact absurd (hwithin.symm.trans hstart) Bool.false_ne_true
  cases hscan with
  | done => exact ⟨consumed, h⟩
  | blank hrest hblank => exact hskip hrest (.blank (isSkipped_iff.mp hblank))
  | comment hrest htext hend => exact hskip hrest (.comment htext hend)
  | joined hrest => exact hskip hrest .newline
  | newline hrest hdepth => exact ⟨_, h.newline hrest hdepth⟩
  | lexeme hrest => exact ⟨_, h.lexeme hwithin hrest _⟩

/-- Every round accounts for what it consumes. -/
theorem round (h : Accounted source consumed state) (hrest : state.rest ≠ [])
    (hround : Round state after) : ∃ consumed, Accounted source consumed after := by
  cases hround with
  | within hplace hscan =>
      refine h.scans (Bool.eq_false_iff.mpr fun hstart => hplace ⟨hstart, ?_⟩) hscan
      exact (h.line hstart).1
  | blankLine hstart hdepth hsplit hblank =>
      have haccounts := h.accounts
      rw [hsplit] at haccounts
      have hline := (h.line hstart).2 hrest
      exact ⟨_, h.consume hsplit (haccounts.blankLine hblank hline)
        fun _ => startsLine_of_blankLine hblank⟩
  | @line blanks behind chars rest opened kind hstart hdepth hsplit hblanks hopens hbehind =>
      have hopened : Accounted source (consumed ++ blanks) opened := by
        have haccounts := h.accounts
        rw [hsplit] at haccounts
        refine ⟨?_, ?_, ?_, fun hstart => ?_⟩
        · rw [h.split, hsplit, List.append_assoc, hopens.rest_eq]
          rfl
        · rw [hopens.cursor_eq]
          exact offset_consume h.offset blanks behind
        · rw [hopens.rest_eq]
          exact hopens.accounts h.offset haccounts hblanks
        · exact absurd (hopens.atLineStart_eq.symm.trans hstart) Bool.false_ne_true
      exact ⟨_, hopened.lexeme hopens.atLineStart_eq (hopens.rest_eq.trans hbehind) kind⟩

/-- The rounds of the scanner account for what they consume. -/
theorem reaches {last : State} (h : Accounted source consumed state) (hreach : Reaches state last) :
    ∃ consumed, Accounted source consumed last := by
  induction hreach generalizing consumed with
  | refl => exact ⟨consumed, h⟩
  | step hrest hstep _ ih =>
      obtain ⟨further, hfurther⟩ := h.round hrest (round_of_step hstep)
      exact ih hfurther

end Accounted

/-- The tokens that close what is open at the end of the source are empty. -/
theorem span_of_mem_closing {state : State} {token : Token} (h : token ∈ state.closing) :
    token.span = state.cursor.spanTo (state.cursor.advanceBy []) := by
  have hempty (kind : Kind) : (state.emptyToken kind).span =
      state.cursor.spanTo (state.cursor.advanceBy []) := rfl
  unfold State.closing at h
  rcases List.mem_append.mp h with h | h
  · split at h
    · exact nomatch h
    · rw [List.mem_singleton.mp h, hempty]
  rcases List.mem_append.mp h with h | h
  · rw [List.eq_of_mem_replicate h, hempty]
  · rw [List.mem_singleton.mp h, hempty]

end Lexer

/-! ## Whole sources -/

/-- What the tokens of a source leave out. Each byte is held by a token, or it belongs to characters
of which no byte is held by a token, and which are a blank, a line break, a comment up to the end of
its line, or what is left of a line behind its indentation and a carriage return. -/
theorem lex_leaves_out {source : String} {tokens : List Token} (h : lex source = .ok tokens) :
    ∀ offset < source.utf8ByteSize, (∃ token ∈ tokens, token.Covers offset) ∨
      ∃ before skipped rest, source.toList = before ++ skipped ++ rest ∧
        byteLength before ≤ offset ∧ offset < byteLength (before ++ skipped) ∧
        Gap tokens before skipped rest := by
  obtain ⟨last, hreach, hrest, hoffset, rfl⟩ := exists_of_lex h
  obtain ⟨consumed, haccounted⟩ := (Lexer.accounted_initial source).reaches hreach
  have haccounts := haccounted.accounts.empties last.closing fun token htoken =>
    (Lexer.span_of_mem_closing htoken).trans (Lexer.spanTo_advanceBy haccounted.offset [])
  have hsplit := haccounted.split
  rw [hrest, List.append_nil] at hsplit
  rw [hrest] at haccounts
  have hmem {token : Token} : token ∈ last.tokens.reverse ++ last.closing ↔
      token ∈ last.closing ++ last.tokens := by
    rw [List.mem_append, List.mem_append, List.mem_reverse, or_comm]
  intro offset hbyte
  rw [← hoffset, haccounted.offset] at hbyte
  rcases haccounts.accounted offset hbyte with ⟨token, htoken, hcovers⟩ |
    ⟨before, skipped, between, hconsumed, hstart, hstop, hgap⟩
  · exact .inl ⟨token, hmem.mpr htoken, hcovers⟩
  · rw [List.append_nil] at hgap
    refine .inr ⟨before, skipped, between, hsplit.trans hconsumed, hstart, hstop, hgap.reason, ?_⟩
    intro other hfrom hto token htoken
    exact hgap.uncovered other hfrom hto token (hmem.mp htoken)

theorem eq_ok_of_toOption {ε α : Type} {result : Except ε α} {value : α}
    (h : result.toOption = some value) : result = .ok value := by
  cases result with
  | error fault => exact nomatch h
  | ok found => exact congrArg Except.ok (Option.some.inj h)

/-- The tokens of a line leave out the comment behind them. -/
theorem lex_leaves_out_comment :
    ∃ tokens, lex "x # y\n" = .ok tokens ∧ ∃ before skipped rest,
      "x # y\n".toList = before ++ skipped ++ rest ∧ byteLength before ≤ 4 ∧
        4 < byteLength (before ++ skipped) ∧ Gap tokens before skipped rest := by
  have hlex : lex "x # y\n" = .ok [⟨.identifier "x", ⟨0, 1⟩, 1, 1⟩, ⟨.newline, ⟨5, 1⟩, 1, 6⟩,
      ⟨.endOfFile, ⟨6, 0⟩, 2, 1⟩] :=
    eq_ok_of_toOption (by decide +kernel)
  refine ⟨_, hlex, ?_⟩
  exact (lex_leaves_out hlex 4 (by decide)).resolve_left (by decide)

/-- Not all that is left out is layout: a carriage return at the start of a line hides the statement
behind it. -/
theorem carriage_return_hides_code :
    ¬ ∀ source tokens, lex source = .ok tokens →
      ∀ offset < source.utf8ByteSize, (∃ token ∈ tokens, token.Covers offset) ∨
        ∃ before skipped rest, source.toList = before ++ skipped ++ rest ∧
          byteLength before ≤ offset ∧ offset < byteLength (before ++ skipped) ∧
          Layout skipped rest := by
  intro h
  have hlex : lex "\rx = 1\n" = .ok [⟨.endOfFile, ⟨7, 0⟩, 2, 1⟩] :=
    eq_ok_of_toOption (by decide +kernel)
  -- The byte at this offset is the name that the statement assigns to.
  obtain ⟨before, skipped, rest, hsplit, hstart, hstop, hlayout⟩ :=
    (h "\rx = 1\n" _ hlex 1 (by decide)).resolve_left (by decide)
  have hsource : "\rx = 1\n".toList = ['\r', 'x', ' ', '=', ' ', '1', '\n'] := by decide
  rw [hsource] at hsplit
  have hname {c : Char} (hskipped : skipped = [c]) : c = 'x' := by
    subst hskipped
    cases before with
    | nil =>
        obtain ⟨rfl, -⟩ := List.cons.inj hsplit
        exact absurd hstop (by decide)
    | cons first before =>
    obtain ⟨rfl, hbehind⟩ := List.cons.inj hsplit
    cases before with
    | nil => exact (List.cons.inj hbehind).1.symm
    | cons second before =>
        obtain ⟨rfl, -⟩ := List.cons.inj hbehind
        rw [byteLength_cons, byteLength_cons] at hstart
        have htwo : '\r'.utf8Size + 'x'.utf8Size = 2 := rfl
        omega
  cases hlayout with
  | blank hblank => exact absurd (hname rfl ▸ hblank) (by decide)
  | newline => exact absurd (hname rfl) (by decide)
  | comment =>
      have hmark : '#' ∈ ['\r', 'x', ' ', '=', ' ', '1', '\n'] := by simp [hsplit]
      exact absurd hmark (by decide)

end FrozenScript
