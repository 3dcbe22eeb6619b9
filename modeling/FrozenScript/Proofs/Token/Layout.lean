import FrozenScript.Proofs.Token.Parentheses

/-!
# The layout of tokens

The main statement, `lex_lays_out`, says what the layout tokens of a source look like. The tokens
are logical lines, blocks are closed as often as they are opened and never before, and a line ends
only where no parenthesis is open, or where the source ends.

The invariant of the rounds is `LaidOut`. It ties the numbers of open blocks and parentheses to the
tokens so far, and says that those tokens are logical lines, up to one that has not ended yet, and
that the blocks are indented deeper and deeper.
-/

namespace FrozenScript

open Text

/-- The start of a logical line: it opens a block or closes some, and then has lexemes. -/
inductive LineStart : List Kind → Prop where
  | intro {opening lexemes : List Kind}
      (hopening : opening = [.indent] ∨ ∃ count, opening = List.replicate count .dedent)
      (hsome : lexemes ≠ []) (hlexemes : ∀ kind ∈ lexemes, kind.isLayout = false) :
      LineStart (opening ++ lexemes)

/-- A logical line ends in one newline. -/
inductive LogicalLine : List Kind → Prop where
  | intro {start : List Kind} (hstart : LineStart start) : LogicalLine (start ++ [.newline])

/-- More lexemes may follow the start of a line. -/
theorem LineStart.concat {start : List Kind} {kind : Kind} (h : LineStart start)
    (hkind : kind.isLayout = false) : LineStart (start ++ [kind]) := by
  obtain ⟨hopening, -, hlexemes⟩ := h
  rw [List.append_assoc]
  refine .intro hopening (by simp) fun other hother => ?_
  obtain hother | hother := List.mem_append.mp hother
  · exact hlexemes other hother
  · rw [List.mem_singleton.mp hother, hkind]

/-- A newline makes the start of a line one more logical line. -/
theorem LineStart.logicalLines {start : List Kind} {lines : List (List Kind)} (h : LineStart start)
    (hlines : ∀ line ∈ lines, LogicalLine line) :
    ∀ line ∈ lines ++ [start ++ [.newline]], LogicalLine line := by
  intro line hline
  obtain hline | hline := List.mem_append.mp hline
  · exact hlines line hline
  · rw [List.mem_singleton.mp hline]
    exact .intro h

/-! ## Blocks -/

/-- Tokens that close blocks only after opening them, so that some blocks are open behind them. -/
structure Balanced (kinds : List Kind) (blocks : Nat) : Prop where
  prefixes : ∀ before, before <+: kinds → before.count .dedent ≤ before.count .indent
  total : kinds.count .indent = kinds.count .dedent + blocks

namespace Balanced

variable {kinds : List Kind} {blocks : Nat}

theorem nil : Balanced [] 0 where
  prefixes before hbefore := by rw [List.prefix_nil.mp hbefore]; exact Nat.le_refl _
  total := rfl

/-- One more token, which closes at most a block that is open. -/
theorem concat {kind : Kind} {more : Nat} (h : Balanced kinds blocks)
    (hblocks : blocks + [kind].count .indent = [kind].count .dedent + more) :
    Balanced (kinds ++ [kind]) more := by
  have htotal : (kinds ++ [kind]).count .indent = (kinds ++ [kind]).count .dedent + more := by
    rw [List.count_append, List.count_append, h.total]
    omega
  refine ⟨fun before hbefore => ?_, htotal⟩
  obtain rfl | hbefore := List.prefix_concat_iff.mp hbefore
  · omega
  · exact h.prefixes before hbefore

/-- Blocks are closed one after the other. -/
theorem concat_dedents (count : Nat) (h : Balanced kinds (count + blocks)) :
    Balanced (kinds ++ List.replicate count .dedent) blocks := by
  induction count generalizing blocks with
  | zero => simpa using h
  | succ count ih =>
    have hcount : Balanced kinds (count + (blocks + 1)) := by
      rwa [show count + (blocks + 1) = count + 1 + blocks by omega]
    rw [List.replicate_succ', ← List.append_assoc]
    exact (ih hcount).concat (by simp [Nat.add_comm])

/-- A lexeme opens and closes no block. -/
theorem concat_lexeme {kind : Kind} (h : Balanced kinds blocks) (hkind : kind.isLayout = false) :
    Balanced (kinds ++ [kind]) blocks := by
  have hcount {other : Kind} (hother : other.isLayout = true) : [kind].count other = 0 := by
    rw [List.count_eq_zero, List.mem_singleton]
    rintro rfl
    rw [hkind] at hother
    exact nomatch hother
  exact h.concat (by rw [hcount rfl, hcount rfl, Nat.add_comm])

end Balanced

/-! ## Parentheses -/

/-- Tokens whose newlines stand where no parenthesis is open. -/
def ClosedLines (kinds : List Kind) : Prop :=
  ∀ before, before ++ [.newline] <+: kinds → openParens before = 0

theorem ClosedLines.concat {kinds : List Kind} {kind : Kind} (h : ClosedLines kinds)
    (hnewline : kind = .newline → openParens kinds = 0) : ClosedLines (kinds ++ [kind]) := by
  intro before hbefore
  obtain heq | hbefore := List.prefix_concat_iff.mp hbefore
  · obtain ⟨rfl, hkind⟩ := List.append_inj' heq rfl
    exact hnewline (List.singleton_inj.mp hkind).symm
  · exact h before hbefore

/-- Tokens that open or close blocks say nothing about parentheses. -/
theorem openParens_append_opening (kinds : List Kind) {opening : List Kind}
    (hopening : ∀ kind ∈ opening, kind = .indent ∨ kind = .dedent) :
    openParens (kinds ++ opening) = openParens kinds ∧
      (ClosedLines kinds → ClosedLines (kinds ++ opening)) := by
  induction opening generalizing kinds with
  | nil => simp
  | cons kind opening ih =>
    obtain ⟨hkind, hrest⟩ := List.forall_mem_cons.mp hopening
    obtain ⟨hparens, hlines⟩ := ih (kinds ++ [kind]) hrest
    rw [List.append_assoc, List.singleton_append] at hparens hlines
    rw [openParens_concat] at hparens
    obtain rfl | rfl := hkind <;> exact ⟨hparens, fun h => hlines (h.concat nofun)⟩

namespace Lexer

/-! ## The tokens so far -/

/-- The kinds of the tokens so far. -/
def State.kinds (state : State) : List Kind :=
  state.tokens.reverse.map Token.kind

theorem kinds_push (state : State) (kind : Kind) (start : Cursor) :
    (state.push kind start).kinds = state.kinds ++ [kind] := by
  simp [State.kinds, State.push]

theorem kinds_pushLexeme (state : State) (chars rest : List Char) (kind : Kind) :
    (state.pushLexeme chars rest kind).kinds = state.kinds ++ [kind] :=
  kinds_push ..

/-- What the scanner keeps. The tokens so far are logical lines, up to one that has not ended yet,
and they account for the open blocks, which are indented deeper and deeper, and for the open
parentheses. -/
structure LaidOut (state : State) : Prop where
  balanced : Balanced state.kinds state.blocks.length
  increasing : (state.blocks ++ [0]).Pairwise (· > ·)
  parens : openParens state.kinds = state.depth
  closed : ClosedLines state.kinds
  lines : ∃ lines current, state.kinds = List.flatten lines ++ current ∧
    (∀ line ∈ lines, LogicalLine line) ∧
    if state.atLineStart then current = [] else LineStart current
  depth : state.atLineStart = true → state.depth = 0

/-- What opening or closing blocks adds to the tokens. -/
theorem Opens.balanced {width : Nat} {start : Cursor} {state after : State}
    (h : Opens width start state after) (hbalanced : Balanced state.kinds state.blocks.length) :
    ∃ opening, (opening = [.indent] ∨ ∃ count, opening = List.replicate count .dedent) ∧
      after.kinds = state.kinds ++ opening ∧ Balanced after.kinds after.blocks.length := by
  cases h with
  | deeper =>
    refine ⟨[.indent], .inl rfl, kinds_push .., ?_⟩
    rw [kinds_push]
    exact hbalanced.concat (Nat.zero_add _).symm
  | @level closed blocks hblocks =>
    have hkinds : State.kinds { state with
        atLineStart := false
        blocks
        tokens := List.replicate closed.length (state.emptyToken .dedent) ++ state.tokens } =
          state.kinds ++ List.replicate closed.length .dedent := by
      simp [State.kinds, State.emptyToken]
    refine ⟨_, .inr ⟨closed.length, rfl⟩, hkinds, ?_⟩
    rw [hkinds]
    rw [hblocks, List.length_append] at hbalanced
    exact hbalanced.concat_dedents

/-- A block that is opened is deeper than the others, and the blocks that are left keep their
order. -/
theorem Opens.increasing {width : Nat} {start : Cursor} {state after : State}
    (h : Opens width start state after) (hblocks : (state.blocks ++ [0]).Pairwise (· > ·)) :
    (after.blocks ++ [0]).Pairwise (· > ·) := by
  cases h with
  | deeper hwidth =>
    refine List.pairwise_cons.mpr ⟨fun block hblock => ?_, hblocks⟩
    -- No block is deeper than the innermost one.
    have hinnermost : block ≤ state.indentation := by
      unfold State.indentation
      cases hopen : state.blocks with
      | nil => simp_all
      | cons innermost outer =>
        rw [hopen] at hblock hblocks
        obtain rfl | houter := List.mem_cons.mp hblock
        · exact Nat.le_refl _
        · exact Nat.le_of_lt ((List.pairwise_cons.mp hblocks).1 block houter)
    exact Nat.lt_of_le_of_lt hinnermost hwidth
  | level hsplit =>
    rw [hsplit, List.append_assoc] at hblocks
    exact (List.pairwise_append.mp hblocks).2.1

theorem Opens.depth_eq {width : Nat} {start : Cursor} {state after : State}
    (h : Opens width start state after) : after.depth = state.depth := by
  cases h <;> rfl

theorem LaidOut.consume {state : State} (h : LaidOut state) (chars rest : List Char) :
    LaidOut (state.consume chars rest) :=
  ⟨h.balanced, h.increasing, h.parens, h.closed, h.lines, h.depth⟩

/-- A newline ends a line. -/
theorem LaidOut.newline {state : State} (h : LaidOut state) (hstart : state.atLineStart = false)
    (hdepth : state.depth = 0) (start : Cursor) :
    LaidOut { state.push .newline start with atLineStart := true } := by
  obtain ⟨lines, current, hkinds, hlines, hcurrent⟩ := h.lines
  rw [hstart, if_neg Bool.false_ne_true] at hcurrent
  have hafter : State.kinds { state.push .newline start with atLineStart := true } =
      state.kinds ++ [.newline] := kinds_push ..
  constructor
  case balanced =>
    rw [hafter]
    exact h.balanced.concat (Nat.add_comm ..)
  case increasing => exact h.increasing
  case parens =>
    rw [hafter, openParens_concat]
    exact h.parens
  case closed =>
    rw [hafter]
    exact h.closed.concat fun _ => h.parens.trans hdepth
  case lines =>
    refine ⟨lines ++ [current ++ [.newline]], [], ?_, hcurrent.logicalLines hlines, rfl⟩
    rw [hafter, hkinds]
    simp
  case depth => exact fun _ => hdepth

/-- A lexeme goes on with a line, or starts one behind an opening. -/
theorem laidOut_pushLexeme {state : State} {lines : List (List Kind)} {current : List Kind}
    {chars rest : List Char} {kind : Kind} (hkind : kind.isLayout = false)
    (hbalanced : Balanced state.kinds state.blocks.length)
    (hincreasing : (state.blocks ++ [0]).Pairwise (· > ·))
    (hparens : openParens state.kinds = state.depth) (hclosed : ClosedLines state.kinds)
    (hkinds : state.kinds = lines.flatten ++ current) (hlines : ∀ line ∈ lines, LogicalLine line)
    (hcurrent : LineStart (current ++ [kind])) (hstart : state.atLineStart = false) :
    LaidOut (state.pushLexeme chars rest kind) := by
  have hafter := kinds_pushLexeme state chars rest kind
  have hplace : (state.pushLexeme chars rest kind).atLineStart = false := hstart
  constructor
  case balanced =>
    rw [hafter]
    exact hbalanced.concat_lexeme hkind
  case increasing => exact hincreasing
  case parens =>
    rw [hafter, openParens_concat, hparens]
    rfl
  case closed =>
    rw [hafter]
    exact hclosed.concat fun hnewline => by rw [hnewline] at hkind; exact nomatch hkind
  case lines =>
    refine ⟨lines, current ++ [kind], ?_, hlines, ?_⟩
    · rw [hafter, hkinds, List.append_assoc]
    · rw [hplace, if_neg Bool.false_ne_true]
      exact hcurrent
  case depth => exact fun htrue => absurd (hplace.symm.trans htrue) Bool.false_ne_true

theorem LaidOut.pushLexeme {state : State} {chars rest : List Char} {kind : Kind}
    (h : LaidOut state) (hstart : state.atLineStart = false) (hkind : kind.isLayout = false) :
    LaidOut (state.pushLexeme chars rest kind) := by
  obtain ⟨lines, current, hkinds, hlines, hcurrent⟩ := h.lines
  rw [hstart, if_neg Bool.false_ne_true] at hcurrent
  exact laidOut_pushLexeme hkind h.balanced h.increasing h.parens h.closed hkinds hlines
    (hcurrent.concat hkind) hstart

/-- A line starts with an opening and a lexeme. -/
theorem LaidOut.line {state opened : State} {width : Nat} {start : Cursor} {chars rest : List Char}
    {kind : Kind} (h : LaidOut state) (hstart : state.atLineStart = true)
    (hopens : Opens width start state opened) (hkind : kind.isLayout = false) :
    LaidOut (opened.pushLexeme chars rest kind) := by
  obtain ⟨lines, current, hkinds, hlines, hcurrent⟩ := h.lines
  rw [hstart, if_pos rfl] at hcurrent
  obtain ⟨opening, hopening, hopened, hbalanced⟩ := hopens.balanced h.balanced
  have hlayout : ∀ kind ∈ opening, kind = .indent ∨ kind = .dedent := by
    obtain rfl | ⟨count, rfl⟩ := hopening
    · exact fun kind hmem => .inl (List.mem_singleton.mp hmem)
    · exact fun kind hmem => .inr (List.eq_of_mem_replicate hmem)
  obtain ⟨hparens, hclosed⟩ := openParens_append_opening state.kinds hlayout
  rw [← hopened] at hparens hclosed
  have hbehind : opened.kinds = lines.flatten ++ opening := by
    rw [hopened, hkinds, hcurrent, List.append_nil]
  have hbegins : LineStart (opening ++ [kind]) := .intro hopening (List.cons_ne_nil _ _)
    fun other hother => List.mem_singleton.mp hother ▸ hkind
  have hdepth : openParens opened.kinds = opened.depth := by
    rw [hparens, h.parens, hopens.depth_eq]
  exact laidOut_pushLexeme hkind hbalanced (hopens.increasing h.increasing) hdepth
    (hclosed h.closed) hbehind hlines hbegins hopens.atLineStart_eq

/-- Every round keeps the layout. -/
theorem LaidOut.round {state after : State} (h : LaidOut state) (hround : Round state after) :
    LaidOut after := by
  cases hround with
  | blankLine => exact h.consume _ _
  | line hstart _ _ _ hopens _ hlexeme =>
    exact (h.consume _ _).line hstart hopens hlexeme.not_isLayout
  | within hplace hscan =>
    have hstart (hdepth : state.depth = 0) : state.atLineStart = false :=
      Bool.eq_false_iff.mpr fun hstart => hplace ⟨hstart, hdepth⟩
    cases hscan with
    | done => exact h
    | blank => exact h.consume _ _
    | comment => exact h.consume _ _
    | joined => exact h.consume _ _
    | newline _ hdepth => exact (h.consume _ _).newline (hstart hdepth) hdepth _
    | lexeme _ hlexeme =>
      have hwithin : state.atLineStart = false :=
        Bool.eq_false_iff.mpr fun htrue => hplace ⟨htrue, h.depth htrue⟩
      exact h.pushLexeme hwithin hlexeme.not_isLayout

theorem laidOut_initial (source : String) : LaidOut (initial source) where
  balanced := .nil
  increasing := List.pairwise_singleton ..
  parens := rfl
  closed before hbefore := absurd (List.prefix_nil.mp hbefore) (by simp)
  lines := ⟨[], [], rfl, nofun, rfl⟩
  depth _ := rfl

/-- The rounds of the scanner keep the layout. -/
theorem Reaches.laidOut {state last : State} (h : Reaches state last) (hlaid : LaidOut state) :
    LaidOut last := by
  induction h with
  | refl => exact hlaid
  | step _ hstep _ ih => exact ih (hlaid.round (round_of_step hstep))

/-! ## The end of the source -/

/-- At the end the last line ends and all blocks are closed. -/
theorem LaidOut.closing {state : State} (h : LaidOut state) :
    Balanced (state.kinds ++ state.closing.map Token.kind) 0 ∧
    ∃ lines, state.kinds ++ state.closing.map Token.kind =
        List.flatten lines ++ (List.replicate state.blocks.length .dedent ++ [.endOfFile]) ∧
      ∀ line ∈ lines, LogicalLine line := by
  obtain ⟨lines, current, hkinds, hlines, hcurrent⟩ := h.lines
  have hclose {kinds : List Kind} (hbalanced : Balanced kinds state.blocks.length) :
      Balanced (kinds ++ (List.replicate state.blocks.length .dedent ++ [.endOfFile])) 0 := by
    rw [← List.append_assoc]
    exact hbalanced.concat_dedents.concat rfl
  cases hstart : state.atLineStart with
  | true =>
    rw [hstart, if_pos rfl] at hcurrent
    have hclosing : state.closing.map Token.kind =
        List.replicate state.blocks.length .dedent ++ [.endOfFile] := by
      simp [State.closing, State.emptyToken, hstart]
    rw [hclosing]
    refine ⟨hclose h.balanced, lines, ?_, hlines⟩
    rw [hkinds, hcurrent, List.append_nil]
  | false =>
    rw [hstart, if_neg Bool.false_ne_true] at hcurrent
    have hclosing : state.closing.map Token.kind =
        [.newline] ++ (List.replicate state.blocks.length .dedent ++ [.endOfFile]) := by
      simp [State.closing, State.emptyToken, hstart]
    rw [hclosing, ← List.append_assoc]
    refine ⟨hclose (h.balanced.concat (Nat.add_comm ..)), lines ++ [current ++ [.newline]], ?_,
      hcurrent.logicalLines hlines⟩
    rw [hkinds]
    simp

/-- Only the first one of the closing tokens may be a newline. -/
theorem newline_of_closing {state : State} {before after : List Token} {token : Token}
    (h : state.closing = before ++ token :: after) (hkind : token.kind = .newline) :
    token = state.emptyToken .newline ∧
      ∀ later ∈ after, later.kind = .dedent ∨ later.kind = .endOfFile := by
  have hrest : ∀ other ∈ List.replicate state.blocks.length (state.emptyToken .dedent) ++
      [state.emptyToken .endOfFile], other.kind = .dedent ∨ other.kind = .endOfFile := by
    intro other hother
    obtain hother | hother := List.mem_append.mp hother
    · exact .inl (List.eq_of_mem_replicate hother ▸ rfl)
    · exact .inr (List.mem_singleton.mp hother ▸ rfl)
  have hother (hmem : token ∈ List.replicate state.blocks.length (state.emptyToken .dedent) ++
      [state.emptyToken .endOfFile]) : False := by
    obtain hdedent | heof := hrest token hmem
    · exact absurd (hkind.symm.trans hdedent) (by decide)
    · exact absurd (hkind.symm.trans heof) (by decide)
  have htoken : token ∈ before ++ token :: after := by simp
  unfold State.closing at h
  split at h
  · rw [List.nil_append] at h
    rw [← h] at htoken
    exact (hother htoken).elim
  · rw [List.singleton_append] at h
    cases before with
    | nil =>
      obtain ⟨rfl, rfl⟩ := List.cons.inj h
      exact ⟨rfl, hrest⟩
    | cons first before =>
      have htail := (List.cons.inj h).2
      rw [htail] at hother
      exact (hother (by simp)).elim

end Lexer

/-- The layout of the tokens of a source. They are logical lines, then the ends of the blocks that
are still open, and then one end of file. No block is closed that was not opened, and every block is
closed. The blocks that are open after some rounds are indented deeper and deeper. A newline stands
where no parenthesis is open, unless it closes the last line at the end of the source. -/
theorem lex_lays_out {source : String} {tokens : List Token} (h : lex source = .ok tokens) :
    (∃ lines closed, tokens.map Token.kind =
        List.flatten lines ++ (List.replicate closed .dedent ++ [.endOfFile]) ∧
      ∀ line ∈ lines, LogicalLine line) ∧
    (∀ before, before <+: tokens.map Token.kind → before.count .dedent ≤ before.count .indent) ∧
    (tokens.map Token.kind).count .dedent = (tokens.map Token.kind).count .indent ∧
    (∀ state, Lexer.Reaches (Lexer.initial source) state →
      (0 :: state.blocks.reverse).Pairwise (· < ·)) ∧
    ∀ before token after, tokens = before ++ token :: after → token.kind = .newline →
      openParens (before.map Token.kind) = 0 ∨
        token.span = ⟨source.utf8ByteSize, 0⟩ ∧
          ∀ later ∈ after, later.kind = .dedent ∨ later.kind = .endOfFile := by
  obtain ⟨last, hreach, -, hoffset, rfl⟩ := exists_of_lex h
  have hlaid := hreach.laidOut (Lexer.laidOut_initial source)
  obtain ⟨hbalanced, lines, hlines⟩ := hlaid.closing
  have hkinds : (last.tokens.reverse ++ last.closing).map Token.kind =
      last.kinds ++ last.closing.map Token.kind := List.map_append
  rw [hkinds]
  refine ⟨⟨lines, _, hlines⟩, hbalanced.prefixes, hbalanced.total.symm, fun state hstate => ?_,
    fun before token after hsplit hkind => ?_⟩
  · have hincreasing := (hstate.laidOut (Lexer.laidOut_initial source)).increasing
    rw [← List.pairwise_reverse] at hincreasing
    simpa using hincreasing
  · have hclosing (before : List Token) (hsplit : last.closing = before ++ token :: after) :
        token.span = ⟨source.utf8ByteSize, 0⟩ ∧
          ∀ later ∈ after, later.kind = .dedent ∨ later.kind = .endOfFile := by
      obtain ⟨rfl, hlater⟩ := Lexer.newline_of_closing hsplit hkind
      refine ⟨?_, hlater⟩
      simp [Lexer.State.emptyToken, Cursor.spanTo, Span.between, hoffset]
    obtain ⟨between, -, hsplit⟩ | ⟨between, hbefore, hsplit⟩ :=
      List.append_eq_append_iff.mp hsplit
    · exact .inr (hclosing between hsplit)
    · cases between with
      | nil => exact .inr (hclosing [] hsplit.symm)
      | cons first between =>
        obtain ⟨rfl, -⟩ := List.cons.inj hsplit
        refine .inl (hlaid.closed _ ⟨between.map Token.kind, ?_⟩)
        rw [Lexer.State.kinds, hbefore, ← hkind]
        simp

/-- A parenthesis that is never closed does not keep the last line from ending. -/
theorem lex_lays_out_open_paren :
    ∃ tokens, lex "if x:\n  (y\n" = .ok tokens ∧
      (tokens.map Token.kind).count .dedent = (tokens.map Token.kind).count .indent := by
  have hok : (lex "if x:\n  (y\n").isOk = true := by decide +kernel
  cases hlex : lex "if x:\n  (y\n" with
  | error fault =>
    rw [hlex] at hok
    exact nomatch hok
  | ok tokens => exact ⟨tokens, rfl, (lex_lays_out hlex).2.2.1⟩

end FrozenScript
